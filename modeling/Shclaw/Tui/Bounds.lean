/-
  Shclaw.Tui.Bounds — the line editor stays in bounds.

  The array holds a text with a cursor (`Shows`): a key edits that text (`editKey`,
  `editCsi`), and messages leave it alone (`KeepsLine`). So after any rounds of the main
  loop the cursor is in the line and the line in the array, and every move of bytes the
  next key can ask for is one inside the array (`editor_in_bounds`).
-/

import Shclaw.Lib.Cursor
import Shclaw.Tui.Editor

namespace Shclaw.Tui

open Lib

/-! ## What a key does to the line -/

abbrev Line := Cursor UInt8

def editCsi (l : Line) (key : UInt8) (tilde : Bool) : Line :=
  if key = ch 'C' then l.right isCont
  else if key = ch 'D' then l.left isCont
  else if key = ch 'H' then l.home
  else if key = ch 'F' then l.last
  else if key = ch '3' ∧ tilde then l.delete isCont
  else l

def editKey (l : Line) (c : UInt8) : Line :=
  if c = 13 ∨ c = 10 ∨ c = 21 then Cursor.empty
  else if c = 127 ∨ c = 8 then l.backspace isCont
  else if c = 1 then l.home
  else if c = 5 then l.last
  else if c = 11 then l.kill
  else if 32 ≤ c ∧ l.text.length < inputSize - 1 then l.insert c
  else l

/-- The array holds the line, and a byte more. -/
structure Shows (st : TuiState) (l : Line) : Prop where
  size : st.input.length = inputSize
  text : st.input.take l.text.length = l.text
  len : st.inputLen = l.text.length
  pos : st.inputPos = l.before.length
  fits : l.text.length < inputSize
  plain : ∀ c ∈ l.text, 32 ≤ c

variable {st st' : TuiState} {l l' : Line}

/-- Only the array and the two indices matter. -/
theorem Shows.congr (h : Shows st l) (hinput : st'.input = st.input) (hlen : st'.inputLen = st.inputLen)
    (hpos : st'.inputPos = st.inputPos) : Shows st' l :=
  ⟨hinput ▸ h.size, hinput ▸ h.text, hlen ▸ h.len, hpos ▸ h.pos, h.fits, h.plain⟩

theorem Shows.empty (hsize : st.input.length = inputSize) (hlen : st.inputLen = 0) (hpos : st.inputPos = 0) :
    Shows st Cursor.empty :=
  ⟨hsize, rfl, hlen, hpos, by decide, by simp⟩

/-- The cursor moved. -/
theorem Shows.moved (h : Shows st l) (htext : l'.text = l.text) (hpos : st'.inputPos = l'.before.length)
    (hinput : st'.input = st.input) (hlen : st'.inputLen = st.inputLen) : Shows st' l' := by
  refine ⟨hinput ▸ h.size, ?_, ?_, hpos, ?_, ?_⟩
  · rw [hinput, htext, h.text]
  · rw [hlen, htext, h.len]
  · rw [htext]
    exact h.fits
  · rw [htext]
    exact h.plain

theorem Shows.input_before (h : Shows st l) : st.input.take l.before.length = l.before := by
  have htake := congrArg (List.take l.before.length) h.text
  rw [List.take_take, Cursor.length_text, Nat.min_eq_left (Nat.le_add_right _ _)] at htake
  rw [htake]
  exact List.take_left

theorem Shows.input_behind (h : Shows st l) : (st.input.drop l.before.length).take l.behind.length = l.behind := by
  have hdrop := congrArg (List.drop l.before.length) h.text
  rw [List.drop_take, Cursor.length_text, Nat.add_sub_cancel_left] at hdrop
  rw [hdrop]
  exact List.drop_left

/-- The line ends at the cursor. -/
theorem Shows.killed (h : Shows st l) : Shows { st with inputLen := st.inputPos } l.kill := by
  have htext : l.kill.text = l.before := List.append_nil _
  have hlen : l.text.length = l.before.length + l.behind.length := l.length_text
  have hfits := h.fits
  refine ⟨h.size, ?_, ?_, h.pos, ?_, ?_⟩
  · rw [htext]
    exact h.input_before
  · rw [htext]
    exact h.pos
  · rw [htext]
    omega
  · rw [htext]
    exact fun c hc => h.plain c (List.mem_append_left _ hc)

/-- Something is before the cursor. -/
theorem Shows.pos_pos (h : Shows st l) : 0 < st.inputPos ↔ l.before ≠ [] := by
  rw [h.pos, ← List.length_pos_iff]
  exact Int.natCast_pos

/-- Something is behind it. -/
theorem Shows.pos_lt (h : Shows st l) : st.inputPos < st.inputLen ↔ l.behind ≠ [] := by
  rw [h.pos, h.len, ← List.length_pos_iff, Cursor.length_text]
  omega

/-! ## The character before and behind the cursor -/

theorem getElem?_of_take {mem text : Str} (h : mem.take text.length = text) {i : Nat} (hi : i < text.length) :
    mem[i]? = some text[i] := by
  rw [← List.getElem?_take_of_lt hi, h, List.getElem?_eq_getElem hi]

/-- The loop ends where the group of the byte at `pos` starts. -/
theorem backFrom_eq {input before : Str} (h : input.take before.length = before) {pos : Nat} (hpos : pos < before.length) :
    backFrom input pos = some ((before.take (pos + 1)).rdropWhile isCont).dropLast.length := by
  induction pos with
  | zero =>
    have hle := (List.rdropWhile_prefix isCont (before.take 1)).length_le
    rw [List.length_take] at hle
    have hzero : ((before.take 1).rdropWhile isCont).dropLast.length = 0 := by
      rw [List.length_dropLast]
      omega
    rw [Nat.zero_add, hzero]
    rfl
  | succ pos ih =>
    rw [backFrom, getElem?_of_take h hpos, ← List.take_append_getElem hpos, List.rdropWhile_concat]
    change (if isCont before[pos + 1] then backFrom input pos else some (pos + 1)) = _
    split
    · exact ih (Nat.lt_of_succ_lt hpos)
    · rw [List.dropLast_concat, List.length_take, Nat.min_eq_left (Nat.le_of_lt hpos)]

theorem prevChar_eq (h : Shows st l) (hbefore : l.before ≠ []) : prevChar st st.inputPos = some (l.prev isCont : Int) := by
  have hpos := List.length_pos_iff.mpr hbefore
  have hlt := Cursor.prev_lt isCont hbefore
  unfold prevChar
  rw [h.pos]
  split
  · have hlast : ((l.before.length : Int) - 1).toNat = l.before.length - 1 := by omega
    rw [hlast, backFrom_eq h.input_before (Nat.sub_lt hpos Nat.one_pos), Nat.sub_add_cancel hpos, List.take_length]
    rfl
  · congr 1
    omega

/-- The loop ends behind the bytes that continue the group. -/
theorem onFrom_eq {input text : Str} (h : input.take text.length = text) {left pos : Nat} (hleft : pos + left = text.length) :
    onFrom input left pos = some (pos + ((text.drop pos).takeWhile isCont).length) := by
  induction left generalizing pos with
  | zero =>
    rw [List.drop_of_length_le (by omega)]
    rfl
  | succ left ih =>
    have hlt : pos < text.length := by omega
    rw [onFrom, getElem?_of_take h hlt, List.drop_eq_getElem_cons hlt, List.takeWhile_cons]
    change (if isCont text[pos] then onFrom input left (pos + 1) else some pos) = _
    split
    · rw [ih (by omega), List.length_cons]
      congr 1
      omega
    · rfl

theorem nextChar_eq (h : Shows st l) (hbehind : l.behind ≠ []) :
    nextChar st st.inputPos = some ((l.before.length + l.next isCont : Nat) : Int) := by
  have hpos := List.length_pos_iff.mpr hbehind
  have hlen : l.text.length = l.before.length + l.behind.length := l.length_text
  unfold nextChar
  rw [h.pos, h.len]
  split
  · have hnext : ((l.before.length : Int) + 1).toNat = l.before.length + 1 := by omega
    have hleft : ((l.text.length : Int) - (l.before.length + 1)).toNat = l.text.length - (l.before.length + 1) := by omega
    rw [if_neg (by omega), hnext, hleft, onFrom_eq h.text (by omega), l.text_drop, Nat.add_assoc]
    rfl
  · have hone : l.behind.drop 1 = [] := List.drop_of_length_le (by omega)
    rw [Cursor.next, hone]
    rfl

/-! ## Moving bytes -/

/-- A `memmove` inside the array, of a length that is not negative. -/
def MoveFits (dst src n : Int) : Prop := 0 ≤ n ∧ 0 ≤ dst ∧ 0 ≤ src ∧ dst + n ≤ inputSize ∧ src + n ≤ inputSize

/-- Only such a move succeeds: an `int` below zero is a size the array does not have. -/
theorem moveFits_of_memmove {input input' : Str} (hsize : input.length = inputSize) {dst src n : Int} (hlow : -2 ^ 31 ≤ n)
    (hhigh : n < 2 ^ 31) (h : memmove input dst src n = some input') : MoveFits dst src n := by
  unfold memmove at h
  split at h
  · cases h
  · rename_i hneg
    obtain ⟨bs, hread, hwrite⟩ := Option.bind_eq_some_iff.mp h
    unfold Lib.read at hread
    split at hread
    · rename_i hin
      cases hread
      unfold Lib.write at hwrite
      split at hwrite
      · rename_i hout
        rw [List.length_take, List.length_drop] at hout
        unfold MoveFits
        unfold asSize at hin hout
        unfold inputSize at hsize ⊢
        omega
      · cases hwrite
    · cases hread

theorem memmove_input (hsize : st.input.length = inputSize) {dst src n : Nat} (hsrc : src + n ≤ inputSize)
    (hdst : dst + n ≤ inputSize) :
    ∃ input, memmove st.input dst src n = some input ∧ input.length = inputSize ∧
      input.take (dst + n) = st.input.take dst ++ (st.input.drop src).take n := by
  have hmoved : ((st.input.drop src).take n).length = n := by
    rw [List.length_take, List.length_drop]
    omega
  have hin : dst + ((st.input.drop src).take n).length ≤ st.input.length := by omega
  have hn : n < 2 ^ 64 := by
    unfold inputSize at hsrc
    omega
  refine ⟨_, memmove_eq hn (by omega) (by omega), ?_, ?_⟩
  · have hlen := written_length hin
    rw [hmoved] at hlen
    rw [hlen, hsize]
  · have htake := written_take hin
    rw [hmoved] at htake
    exact htake

/-- The line is edited, and nothing else changes that matters here. -/
structure Edits (st st' : TuiState) (l : Line) : Prop where
  line : Shows st' l
  sb : st'.sb = st.sb
  cols : st'.cols = st.cols

/-- Bytes `start` to `stop` of the line go, and a cursor behind `start` moves there. -/
theorem deleteRange_spec (h : Shows st l) {start stop : Nat} (hle : start ≤ stop) (hstop : stop ≤ l.text.length)
    (htext : l'.text = l.text.take start ++ l.text.drop stop)
    (hpos : l'.before.length = if start < l.before.length then start else l.before.length) :
    ∃ st', deleteRange st start stop = some st' ∧ Edits st st' l' := by
  have hfits := h.fits
  have hsrc : stop + (l.text.length - stop) ≤ inputSize := by omega
  have hdst : start + (l.text.length - stop) ≤ inputSize := by omega
  obtain ⟨input, hmove, hsize, htake⟩ := memmove_input h.size hsrc hdst
  have hstart : st.input.take start = l.text.take start := by
    have hfront := congrArg (List.take start) h.text
    rwa [List.take_take, Nat.min_eq_left (by omega)] at hfront
  have hrest : (st.input.drop stop).take (l.text.length - stop) = l.text.drop stop := by
    have hback := congrArg (List.drop stop) h.text
    rwa [List.drop_take] at hback
  have hlen : l'.text.length = start + (l.text.length - stop) := by
    rw [htext, List.length_append, List.length_take, List.length_drop]
    omega
  have hcall : deleteRange st start stop =
      some { st with input, inputLen := l'.text.length, inputPos := l'.before.length } := by
    have hn : st.inputLen - stop = (l.text.length - stop : Nat) := by
      rw [h.len]
      omega
    have hlen' : st.inputLen - ((stop : Int) - start) = (l'.text.length : Nat) := by
      rw [h.len, hlen]
      omega
    unfold deleteRange
    rw [hn, hmove]
    change (if st.inputPos > (start : Int) then _ else _) = _
    rw [hlen', hpos, h.pos]
    by_cases hbehind : start < l.before.length
    · rw [if_pos (Int.ofNat_lt.mpr hbehind), if_pos hbehind]
    · rw [if_neg (mt Int.ofNat_lt.mp hbehind), if_neg hbehind]
  refine ⟨_, hcall, ⟨hsize, ?_, rfl, rfl, by omega, ?_⟩, rfl, rfl⟩
  · rw [hlen, htake, hstart, hrest, htext]
  · intro c hc
    rw [htext, List.mem_append] at hc
    exact h.plain c (hc.elim List.mem_of_mem_take List.mem_of_mem_drop)

/-- Backspace. -/
theorem backspace_spec (h : Shows st l) :
    ∃ st', (if st.inputPos > 0 then (prevChar st st.inputPos).bind fun pos => deleteRange st pos st.inputPos else some st) =
      some st' ∧ Edits st st' (l.backspace isCont) := by
  by_cases hbefore : l.before = []
  · rw [if_neg fun hpos => h.pos_pos.mp hpos hbefore, Cursor.backspace_start isCont hbefore]
    exact ⟨st, rfl, h, rfl, rfl⟩
  · have hlt := Cursor.prev_lt isCont hbefore
    rw [if_pos (h.pos_pos.mpr hbefore), prevChar_eq h hbefore, Option.bind_some, h.pos]
    refine deleteRange_spec h (Nat.le_of_lt hlt) ?_ ?_ ?_
    · rw [Cursor.length_text]
      exact Nat.le_add_right _ _
    · rw [l.text_take (Nat.le_of_lt hlt), ← Nat.add_zero l.before.length, l.text_drop]
      rfl
    · rw [if_pos hlt, Cursor.backspace, List.length_take, Nat.min_eq_left (Nat.le_of_lt hlt)]

/-- Delete. -/
theorem delete_spec (h : Shows st l) :
    ∃ st', (if st.inputPos < st.inputLen then (nextChar st st.inputPos).bind (deleteRange st st.inputPos) else some st) =
      some st' ∧ Edits st st' (l.delete isCont) := by
  have hlen : l.text.length = l.before.length + l.behind.length := l.length_text
  by_cases hbehind : l.behind = []
  · rw [if_neg fun hmore => h.pos_lt.mp hmore hbehind, Cursor.delete_end isCont hbehind]
    exact ⟨st, rfl, h, rfl, rfl⟩
  · have hle := Cursor.next_le isCont hbehind
    rw [if_pos (h.pos_lt.mpr hbehind), nextChar_eq h hbehind, Option.bind_some, h.pos]
    refine deleteRange_spec h (Nat.le_add_right _ _) (by omega) ?_ ?_
    · rw [l.text_take (Nat.le_refl _), List.take_length, l.text_drop]
      rfl
    · rw [if_neg (Nat.lt_irrefl _)]
      rfl

/-- A byte at the cursor: what is behind it moves up, inside the array. -/
theorem insertByte_spec (h : Shows st l) (c : UInt8) :
    ∃ st', insertByte st c = some st' ∧
      Edits st st' (if 32 ≤ c ∧ l.text.length < inputSize - 1 then l.insert c else l) := by
  have hlen : l.text.length = l.before.length + l.behind.length := l.length_text
  by_cases hroom : 32 ≤ c ∧ l.text.length < inputSize - 1
  · have hfits : l.text.length + 1 < inputSize := by omega
    obtain ⟨input, hmove, hsize, htake⟩ :=
      memmove_input h.size (show l.before.length + l.behind.length ≤ inputSize by omega)
        (show l.before.length + 1 + l.behind.length ≤ inputSize by omega)
    have htext : (l.insert c).text.length = l.before.length + 1 + l.behind.length := by
      rw [l.length_text_insert, hlen]
      omega
    rw [h.input_behind] at htake
    have hupto : (st.input.take (l.before.length + 1)).length = l.before.length + 1 := by
      rw [List.length_take, h.size]
      omega
    have hin : l.before.length + [c].length ≤ input.length := by
      rw [List.length_singleton]
      omega
    have hbefore : input.take l.before.length = l.before := by
      have hfront := congrArg (List.take l.before.length) htake
      rw [List.take_take, Nat.min_eq_left (by omega), List.take_append_of_le_length (by omega), List.take_take, Nat.min_eq_left (Nat.le_succ _), h.input_before] at hfront
      exact hfront
    have hbehind : (input.drop (l.before.length + 1)).take l.behind.length = l.behind := by
      have hback := congrArg (List.drop (l.before.length + 1)) htake
      rw [List.drop_take, Nat.add_sub_cancel_left, List.drop_left' hupto] at hback
      exact hback
    have hcall : insertByte st c = some { st with
        input := l.before ++ [c] ++ input.drop (l.before.length + 1)
        inputPos := (l.insert c).before.length
        inputLen := (l.insert c).text.length } := by
      have hless : st.inputLen < (inputSize : Int) - 1 := by
        rw [h.len]
        omega
      have hn : st.inputLen - st.inputPos = (l.behind.length : Nat) := by
        rw [h.len, h.pos]
        omega
      unfold insertByte
      rw [if_pos ⟨hroom.1, hless⟩, hn, h.pos, h.len]
      change ((memmove st.input (l.before.length + 1 : Nat) (l.before.length : Nat) (l.behind.length : Nat)).bind _) = _
      rw [hmove, Option.bind_some]
      change (writeAt input (l.before.length : Nat) [c]).bind _ = _
      rw [writeAt_eq hin, hbefore, Option.bind_some, htext, Cursor.insert, List.length_append, hlen]
      simp only [List.length_singleton, Nat.cast_add, Nat.cast_one]
      rw [Int.add_right_comm]
    rw [if_pos hroom]
    refine ⟨_, hcall, ⟨?_, ?_, rfl, rfl, by omega, ?_⟩, rfl, rfl⟩
    · have hsize' := written_length hin
      rw [hbefore] at hsize'
      exact hsize'.trans hsize
    · rw [htext, List.take_append, List.take_of_length_le (by simp), List.length_append, List.length_singleton,
        Nat.add_sub_cancel_left, hbehind]
      rfl
    · intro x hx
      rw [Cursor.text, Cursor.insert, List.append_assoc, List.mem_append, List.singleton_append, List.mem_cons] at hx
      rcases hx with hx | rfl | hx
      · exact h.plain x (List.mem_append_left _ hx)
      · exact hroom.1
      · exact h.plain x (List.mem_append_right _ hx)
  · have hfull : ¬ (32 ≤ c ∧ st.inputLen < (inputSize : Int) - 1) := by
      rw [h.len]
      intro hboth
      exact hroom ⟨hboth.1, by omega⟩
    unfold insertByte
    rw [if_neg hfull, if_neg hroom]
    exact ⟨st, rfl, h, rfl, rfl⟩

/-- The keys of an escape sequence edit the line; they may move the view. -/
theorem csiKey_spec (h : Shows st l) (key : UInt8) (tilde : Bool) :
    ∃ st', csiKey st key tilde = some st' ∧ Shows st' (editCsi l key tilde) ∧ st'.cols = st.cols := by
  -- a key that leaves the line alone
  have hsame : ∀ n : Int, Shows { st with sb := { st.sb with scrollOffset := st.sb.scrollOffset + n } } l :=
    fun _ => h.congr rfl rfl rfl
  unfold csiKey editCsi
  simp only
  by_cases hA : key = ch 'A'
  · subst hA
    exact ⟨_, rfl, hsame _, rfl⟩
  by_cases hB : key = ch 'B'
  · subst hB
    exact ⟨_, rfl, hsame _, rfl⟩
  rw [if_neg hA, if_neg hB]
  by_cases hC : key = ch 'C'
  · rw [if_pos hC, if_pos hC]
    by_cases hbehind : l.behind = []
    · rw [if_neg fun hmore => h.pos_lt.mp hmore hbehind, Cursor.right_end isCont hbehind]
      exact ⟨st, rfl, h, rfl⟩
    · have hle := Cursor.next_le isCont hbehind
      rw [if_pos (h.pos_lt.mpr hbehind), nextChar_eq h hbehind]
      refine ⟨_, rfl, h.moved (Cursor.text_right isCont l) ?_ rfl rfl, rfl⟩
      simp only [Cursor.right, List.length_append, List.length_take, Nat.min_eq_left hle]
  rw [if_neg hC, if_neg hC]
  by_cases hD : key = ch 'D'
  · rw [if_pos hD, if_pos hD]
    by_cases hbefore : l.before = []
    · rw [if_neg fun hpos => h.pos_pos.mp hpos hbefore, Cursor.left_start isCont hbefore]
      exact ⟨st, rfl, h, rfl⟩
    · have hlt := Cursor.prev_lt isCont hbefore
      rw [if_pos (h.pos_pos.mpr hbefore), prevChar_eq h hbefore]
      refine ⟨_, rfl, h.moved (Cursor.text_left isCont l) ?_ rfl rfl, rfl⟩
      simp only [Cursor.left, List.length_take, Nat.min_eq_left (Nat.le_of_lt hlt)]
  rw [if_neg hD, if_neg hD]
  by_cases hH : key = ch 'H'
  · rw [if_pos hH, if_pos hH]
    exact ⟨_, rfl, h.moved l.text_home rfl rfl rfl, rfl⟩
  rw [if_neg hH, if_neg hH]
  by_cases hF : key = ch 'F'
  · rw [if_pos hF, if_pos hF]
    exact ⟨_, rfl, h.moved l.text_last h.len rfl rfl, rfl⟩
  rw [if_neg hF, if_neg hF]
  by_cases h5 : key = ch '5'
  · subst h5
    cases tilde with
    | true => exact ⟨_, rfl, hsame _, rfl⟩
    | false => exact ⟨st, rfl, h, rfl⟩
  by_cases h6 : key = ch '6'
  · subst h6
    cases tilde with
    | true => exact ⟨_, rfl, hsame _, rfl⟩
    | false => exact ⟨st, rfl, h, rfl⟩
  rw [if_neg h5, if_neg h6]
  by_cases h3 : key = ch '3'
  · rw [if_pos h3]
    cases tilde with
    | true =>
      obtain ⟨st', hcall, hedits⟩ := delete_spec h
      simp only [true_and, h3, and_self, if_true]
      exact ⟨st', hcall, hedits.line, hedits.cols⟩
    | false =>
      simp only [Bool.false_eq_true, false_and, and_false, if_false]
      exact ⟨st, rfl, h, rfl⟩
  · rw [if_neg h3, if_neg fun hboth => h3 hboth.1]
    exact ⟨st, rfl, h, rfl⟩

/-! ## Submitting -/

/-- What messages leave alone: the line, the width, and a view that is not negative. -/
structure KeepsLine (st st' : TuiState) : Prop where
  input : st'.input = st.input
  len : st'.inputLen = st.inputLen
  pos : st'.inputPos = st.inputPos
  cols : st'.cols = st.cols
  scroll : 0 ≤ st.sb.scrollOffset → 0 ≤ st'.sb.scrollOffset

theorem KeepsLine.refl (st : TuiState) : KeepsLine st st := ⟨rfl, rfl, rfl, rfl, id⟩

theorem KeepsLine.trans {st'' : TuiState} (h : KeepsLine st st') (h' : KeepsLine st' st'') : KeepsLine st st'' :=
  ⟨h'.input.trans h.input, h'.len.trans h.len, h'.pos.trans h.pos, h'.cols.trans h.cols, h'.scroll ∘ h.scroll⟩

theorem addText_keeps (h : 1 < st.cols) (style : Str) (hl : Nat) (text : Str) :
    ∃ st', addText st style hl text = some st' ∧ KeepsLine st st' := by
  obtain ⟨sb, hcall, hscroll⟩ := addText_spec h style hl text
  exact ⟨_, hcall, rfl, rfl, rfl, rfl, fun _ => Int.le_of_eq hscroll.symm⟩

theorem addSystemMsg_keeps (h : 1 < st.cols) (text : Str) : ∃ st', addSystemMsg st text = some st' ∧ KeepsLine st st' :=
  addText_keeps h _ _ _

theorem addAgentLine_keeps (h : 1 < st.cols) (line : Str) : ∃ st', addAgentLine st line = some st' ∧ KeepsLine st st' := by
  unfold addAgentLine
  split
  · exact addText_keeps h _ _ _
  · split
    · exact addText_keeps h _ _ _
    · exact addText_keeps h _ _ _

theorem addSystemMsgs_keeps (h : 1 < st.cols) (texts : List Str) :
    ∃ st', texts.foldlM addSystemMsg st = some st' ∧ KeepsLine st st' := by
  induction texts generalizing st with
  | nil => exact ⟨st, rfl, .refl st⟩
  | cons text texts ih =>
    obtain ⟨st₁, hcall, hkeeps⟩ := addSystemMsg_keeps h text
    obtain ⟨st', hrun, hkeeps'⟩ := ih (hkeeps.cols ▸ h)
    refine ⟨st', ?_, hkeeps.trans hkeeps'⟩
    rw [List.foldlM_cons, hcall]
    exact hrun

theorem fetchStatus_keeps (h : 1 < st.cols) (net : Net) : ∃ st', fetchStatus net st = some st' ∧ KeepsLine st st' := by
  unfold fetchStatus
  split
  · exact addSystemMsg_keeps h _
  split
  · exact addSystemMsg_keeps h _
  split
  · exact addSystemMsg_keeps h _
  split
  · exact addSystemMsg_keeps h _
  · exact addSystemMsg_keeps h _

theorem slashCommand_keeps (h : 1 < st.cols) (net : Net) (text : Str) :
    ∃ st', slashCommand net st text = some st' ∧ KeepsLine st st' := by
  unfold slashCommand
  split
  · exact ⟨_, rfl, rfl, rfl, rfl, rfl, id⟩
  split
  · have hcols : 1 < { st with target := cut 64 (text.drop 7) }.cols := h
    obtain ⟨st', hcall, hkeeps⟩ := addSystemMsg_keeps hcols (cut 128 (lit "Target changed to @" ++ cut 64 (text.drop 7)))
    exact ⟨st', hcall, hkeeps.input, hkeeps.len, hkeeps.pos, hkeeps.cols, hkeeps.scroll⟩
  split
  · exact fetchStatus_keeps h net
  split
  · exact addSystemMsgs_keeps h help
  · exact addSystemMsg_keeps h _

theorem sendToAgent_keeps (net : Net) (st : TuiState) (text : Str) : KeepsLine st (sendToAgent net st text).1 := by
  unfold sendToAgent
  split
  · exact .refl st
  · split <;> exact ⟨rfl, rfl, rfl, rfl, id⟩

theorem sendLine_keeps (h : 1 < st.cols) (net : Net) (text : Str) : ∃ st', sendLine net st text = some st' ∧ KeepsLine st st' := by
  obtain ⟨st₁, hcall, hkeeps⟩ := addText_keeps h green 3 (cut maxLineLen (lit "you: " ++ text))
  have hkeeps₂ := hkeeps.trans (sendToAgent_keeps net st₁ text)
  unfold sendLine
  rw [hcall]
  change ∃ st', (if (sendToAgent net st₁ text).2 = true then some (sendToAgent net st₁ text).1 else _) = some st' ∧ _
  split
  · exact ⟨_, rfl, hkeeps₂⟩
  · obtain ⟨st', hmsg, hkeeps'⟩ := addSystemMsg_keeps (hkeeps₂.cols ▸ h) (lit "Send failed (daemon not running?)")
    exact ⟨st', hmsg, hkeeps₂.trans hkeeps'⟩

/-- What holds between the keys. -/
structure Sound (st : TuiState) (l : Line) : Prop where
  line : Shows st l
  scroll : 0 ≤ st.sb.scrollOffset
  cols : 1 < st.cols

theorem Sound.kept (h : Sound st l) (hkeeps : KeepsLine st st') : Sound st' l :=
  ⟨h.line.congr hkeeps.input hkeeps.len hkeeps.pos, hkeeps.scroll h.scroll, hkeeps.cols ▸ h.cols⟩

theorem Sound.edited (h : Sound st l) (hedits : Edits st st' l') : Sound st' l' :=
  ⟨hedits.line, hedits.sb ▸ h.scroll, hedits.cols ▸ h.cols⟩

/-- The string `handle_submit` reads is the line. -/
theorem submitted_text (h : Shows st l) :
    ∃ input, writeAt st.input st.inputLen [0] = some input ∧ input.length = inputSize ∧ readString input 0 = some l.text := by
  have hin : l.text.length + [(0 : UInt8)].length ≤ st.input.length := by
    rw [h.size]
    exact h.fits
  have hwrite := writeAt_eq hin
  rw [← h.len, h.text] at hwrite
  refine ⟨_, hwrite, ?_, ?_⟩
  · have hsize := written_length hin
    rw [h.text] at hsize
    exact hsize.trans h.size
  · have hplain : ∀ c ∈ l.text, decide (c ≠ 0) = true := by
      intro c hc
      have hle := h.plain c hc
      rw [decide_eq_true_iff]
      rintro rfl
      exact absurd hle (by decide)
    rw [readString_eq (by simp), List.drop_zero, List.append_assoc, List.takeWhile_append_of_pos hplain]
    simp

/-- A line that is submitted is gone. -/
theorem handleSubmit_sound (h : Sound st l) (net : Net) :
    ∃ st', handleSubmit net st = some st' ∧ Sound st' Cursor.empty := by
  unfold handleSubmit
  by_cases hnone : st.inputLen = 0
  · have hpos : st.inputPos = 0 := by
      have hlen : l.text.length = l.before.length + l.behind.length := l.length_text
      have htext := h.line.len
      rw [h.line.pos]
      omega
    rw [if_pos hnone]
    exact ⟨st, rfl, Shows.empty h.line.size hnone hpos, h.scroll, h.cols⟩
  · obtain ⟨input, hwrite, hsize, hread⟩ := submitted_text h.line
    obtain ⟨st₁, hcall, hkeeps⟩ : ∃ st₁,
        (if byte l.text 0 = ch '/' then slashCommand net { st with input } l.text else sendLine net { st with input } l.text) =
          some st₁ ∧ KeepsLine { st with input } st₁ := by
      have hcols : 1 < { st with input }.cols := h.cols
      split
      · exact slashCommand_keeps hcols net l.text
      · exact sendLine_keeps hcols net l.text
    rw [if_neg hnone, hwrite]
    change ∃ st', (readString input 0).bind _ = some st' ∧ _
    rw [hread]
    change ∃ st', Option.map _ (if byte l.text 0 = ch '/' then _ else _) = some st' ∧ _
    rw [hcall]
    refine ⟨_, rfl, Shows.empty ?_ rfl rfl, hkeeps.scroll h.scroll, ?_⟩
    · rw [hkeeps.input, hsize]
    · rw [hkeeps.cols]
      exact h.cols

/-! ## Reads -/

/-- One key. -/
theorem handleKey_sound (h : Sound st l) (net : Net) (c : UInt8) :
    ∃ st', handleKey net st c = some st' ∧ Sound st' (editKey l c) := by
  unfold handleKey
  by_cases hquit : c = 3 ∨ c = 4
  · have hkey : editKey l c = l := by rcases hquit with rfl | rfl <;> rfl
    rw [if_pos hquit, hkey]
    exact ⟨_, rfl, h.line.congr rfl rfl rfl, h.scroll, h.cols⟩
  rw [if_neg hquit]
  by_cases henter : c = 13 ∨ c = 10
  · have hkey : editKey l c = Cursor.empty := by rcases henter with rfl | rfl <;> rfl
    rw [if_pos henter, hkey]
    exact handleSubmit_sound h net
  rw [if_neg henter]
  by_cases hback : c = 127 ∨ c = 8
  · have hkey : editKey l c = l.backspace isCont := by rcases hback with rfl | rfl <;> rfl
    obtain ⟨st', hcall, hedits⟩ := backspace_spec h.line
    rw [if_pos hback, hkey]
    exact ⟨st', hcall, h.edited hedits⟩
  rw [if_neg hback]
  by_cases hhome : c = 1
  · subst hhome
    exact ⟨_, rfl, h.line.moved l.text_home rfl rfl rfl, h.scroll, h.cols⟩
  by_cases hlast : c = 5
  · subst hlast
    exact ⟨_, rfl, h.line.moved l.text_last h.line.len rfl rfl, h.scroll, h.cols⟩
  by_cases hclear : c = 21
  · subst hclear
    exact ⟨_, rfl, Shows.empty h.line.size rfl rfl, h.scroll, h.cols⟩
  by_cases hkill : c = 11
  · subst hkill
    exact ⟨_, rfl, h.line.killed, h.scroll, h.cols⟩
  by_cases hredraw : c = 12
  · subst hredraw
    exact ⟨st, rfl, h⟩
  obtain ⟨st', hcall, hedits⟩ := insertByte_spec h.line c
  have hkey : editKey l c = if 32 ≤ c ∧ l.text.length < inputSize - 1 then l.insert c else l := by
    rw [not_or] at henter
    unfold editKey
    rw [if_neg (by simp [henter, hclear]), if_neg hback, if_neg hhome, if_neg hlast, if_neg hkill]
  rw [if_neg hhome, if_neg hlast, if_neg hclear, if_neg hkill, if_neg hredraw, hkey]
  exact ⟨st', hcall, h.edited hedits⟩

theorem clampScroll_sound (h : Shows st l) (hcols : 1 < st.cols) : Sound (clampScroll st) l := by
  refine ⟨h.congr rfl rfl rfl, ?_, hcols⟩
  unfold clampScroll
  simp only
  split <;> omega

theorem handleCsi_sound (h : Sound st l) (key : UInt8) (tilde : Bool) :
    ∃ st', handleCsi st key tilde = some st' ∧ Sound st' (editCsi l key tilde) := by
  obtain ⟨st', hcall, hshows, hcols⟩ := csiKey_spec h.line key tilde
  refine ⟨clampScroll st', ?_, clampScroll_sound hshows (hcols ▸ h.cols)⟩
  unfold handleCsi
  rw [hcall]
  rfl

/-- The loop over a read ends at its last byte, or when the user quits. -/
theorem inputLoop_sound (h : Sound st l) (net : Nat → Net) (buf : Str) {n i : Nat} (hi : i ≤ buf.length)
    (hn : buf.length < n + i) : ∃ st' l', inputLoop net buf n i st = some st' ∧ Sound st' l' := by
  induction n generalizing i st l with
  | zero => omega
  | succ n ih =>
    unfold inputLoop
    split
    · rename_i hmore
      split
      · split
        · -- an escape sequence of three bytes, or of four with its tilde
          rename_i hseq
          obtain ⟨st₁, hcall, hsound⟩ :=
            handleCsi_sound h (byte buf (i + 2)) (decide (i + 3 < buf.length ∧ byte buf (i + 3) = ch '~'))
          simp only
          rw [hcall]
          refine ih hsound ?_ (by omega)
          split
          · rename_i htilde
            have hlast := (of_decide_eq_true htilde).1
            omega
          · omega
        · exact ih h (by omega) (by omega)
      · obtain ⟨st₁, hcall, hsound⟩ := handleKey_sound h (net i) (byte buf i)
        rw [hcall]
        exact ih hsound (by omega) (by omega)
    · exact ⟨st, l, rfl, h⟩

theorem handleInput_sound (h : Sound st l) (net : Nat → Net) (buf : Str) :
    ∃ st' l', handleInput net buf st = some st' ∧ Sound st' l' := by
  obtain ⟨st', l', hrun, hsound⟩ := inputLoop_sound h net buf (n := buf.length + 1) (Nat.zero_le _) (by omega)
  refine ⟨{ st' with dirty := true }, l', ?_, hsound.line.congr rfl rfl rfl, hsound.scroll, hsound.cols⟩
  unfold handleInput
  rw [hrun]
  rfl

/-! ## Rounds of the main loop -/

theorem pollEvents_keeps (h : 1 < st.cols) (events : List (Option Socket.Cmd)) :
    ∃ st', pollEvents st events = some st' ∧ KeepsLine st st' := by
  induction events generalizing st with
  | nil => exact ⟨st, rfl, .refl st⟩
  | cons event events ih =>
    -- a closed connection is one field
    have hclosed : KeepsLine st { st with attached := false } := ⟨rfl, rfl, rfl, rfl, id⟩
    unfold pollEvents
    split
    · exact ⟨st, rfl, .refl st⟩
    split
    · have hcols : 1 < { st with attached := false }.cols := h
      obtain ⟨st', hcall, hkeeps⟩ := addSystemMsg_keeps hcols (lit "Lost connection to daemon")
      exact ⟨st', hcall, hclosed.trans hkeeps⟩
    · rename_i c _
      split
      · obtain ⟨st₁, hcall, hkeeps⟩ := addAgentLine_keeps h (c.data.takeWhile (· ≠ 0))
        obtain ⟨st', hrun, hkeeps'⟩ := ih (hkeeps.cols ▸ h)
        refine ⟨st', ?_, hkeeps.trans hkeeps'⟩
        rw [hcall]
        exact hrun
      split
      · obtain ⟨st₁, hcall, hkeeps⟩ := addSystemMsg_keeps h (lit "Daemon shutting down")
        refine ⟨{ st₁ with attached := false }, ?_, hkeeps.trans ⟨rfl, rfl, rfl, rfl, id⟩⟩
        rw [hcall]
        rfl
      · exact ih h

/-- The terminal always has columns to draw in. -/
theorem getTerminalSize_cols (size : Option (UInt16 × UInt16)) : 1 < (getTerminalSize size).2 := by
  unfold getTerminalSize
  split
  · split
    · rename_i rows cols hsize
      have hcols : 10 < cols.toNat := UInt16.lt_iff_toNat_lt.mp hsize.2
      simp only
      omega
    · decide
  · decide

theorem resize_sound (h : Sound st l) (size : Option (UInt16 × UInt16)) : Sound (resize size st) l := by
  have hcols := getTerminalSize_cols size
  unfold resize
  simp only
  split
  · exact ⟨h.line.congr rfl rfl rfl, h.scroll, hcols⟩
  · exact h

theorem tuiRound_sound (h : Sound st l) (r : Round) : ∃ st' l', tuiRound st r = some st' ∧ Sound st' l' := by
  have hdrawn : Sound { st with dirty := false } l := ⟨h.line.congr rfl rfl rfl, h.scroll, h.cols⟩
  obtain ⟨st₁, hpoll, hkeeps⟩ := pollEvents_keeps hdrawn.cols r.events
  have hpolled := hdrawn.kept hkeeps
  obtain ⟨st₂, l₂, hkeys, hsound⟩ : ∃ st₂ l₂,
      (if r.keys = [] then some st₁ else handleInput r.net r.keys st₁) = some st₂ ∧ Sound st₂ l₂ := by
    split
    · exact ⟨st₁, l, rfl, hpolled⟩
    · exact handleInput_sound hpolled r.net r.keys
  refine ⟨resize r.size st₂, l₂, ?_, resize_sound hsound r.size⟩
  unfold tuiRound
  rw [hpoll]
  change Option.map _ (if r.keys = [] then some st₁ else _) = _
  rw [hkeys]
  rfl

theorem tuiLoop_sound (h : Sound st l) (rounds : List Round) : ∃ st' l', tuiLoop st rounds = some st' ∧ Sound st' l' := by
  induction rounds generalizing st l with
  | nil => exact ⟨st, l, rfl, h⟩
  | cons r rounds ih =>
    unfold tuiLoop
    split
    · exact ⟨st, l, rfl, h⟩
    · obtain ⟨st₁, l₁, hround, hsound⟩ := tuiRound_sound h r
      rw [hround]
      exact ih hsound

theorem tuiStart_sound (size : Option (UInt16 × UInt16)) (targetAgent : Option Str) :
    ∃ st, tuiStart size targetAgent = some st ∧ Sound st Cursor.empty := by
  let st₀ : TuiState :=
    { sb := ⟨[], 0⟩, input := List.replicate inputSize 0, inputLen := 0, inputPos := 0
      rows := (getTerminalSize size).1, cols := (getTerminalSize size).2
      target := cut 64 (targetAgent.getD (lit "jarvis")), attached := true, quit := false, dirty := false
      wrote := Socket.sockSend ⟨1, [], by decide⟩ }
  have h₀ : Sound st₀ Cursor.empty :=
    ⟨Shows.empty List.length_replicate rfl rfl, Int.le_refl _, getTerminalSize_cols size⟩
  obtain ⟨st₁, hcall, hkeeps⟩ := addSystemMsg_keeps h₀.cols (lit "Connected to shclaw")
  have h₁ := h₀.kept hkeeps
  obtain ⟨st, hcall', hkeeps'⟩ := addSystemMsg_keeps h₁.cols
    (cut 128 (lit "Target: @" ++ st₀.target ++ lit " — Type /help for commands"))
  refine ⟨st, ?_, h₁.kept hkeeps'⟩
  change (addSystemMsg st₀ (lit "Connected to shclaw")).bind _ = _
  rw [hcall]
  exact hcall'

/-! ## The bounds -/

/-- The indices are in order, and every move of bytes the next key can ask for is inside
    the array. -/
structure InBounds (st : TuiState) : Prop where
  pos_nonneg : 0 ≤ st.inputPos
  pos_le : st.inputPos ≤ st.inputLen
  len_le : st.inputLen ≤ 511
  scroll_nonneg : 0 ≤ st.sb.scrollOffset
  /-- Backspace and Left -/
  back : 0 < st.inputPos → ∃ pos, prevChar st st.inputPos = some pos ∧ 0 ≤ pos ∧ pos < st.inputPos ∧
    MoveFits pos st.inputPos (st.inputLen - st.inputPos)
  /-- Delete and Right -/
  on : st.inputPos < st.inputLen → ∃ pos, nextChar st st.inputPos = some pos ∧ st.inputPos < pos ∧ pos ≤ st.inputLen ∧
    MoveFits st.inputPos pos (st.inputLen - pos)
  /-- a byte that is typed -/
  room : st.inputLen < 511 → MoveFits (st.inputPos + 1) st.inputPos (st.inputLen - st.inputPos)

theorem Sound.inBounds (h : Sound st l) : InBounds st := by
  have hlen : l.text.length = l.before.length + l.behind.length := l.length_text
  have hfits := h.line.fits
  have hinput : (inputSize : Int) = 512 := rfl
  have hpos := h.line.pos
  have hend := h.line.len
  have hsize : inputSize = 512 := rfl
  refine ⟨by omega, by omega, by omega, h.scroll, fun hback => ?_, fun hon => ?_, fun hroom => ?_⟩
  · have hbefore := h.line.pos_pos.mp hback
    have hlt := Cursor.prev_lt isCont hbefore
    refine ⟨_, prevChar_eq h.line hbefore, Int.natCast_nonneg _, by omega, ?_⟩
    unfold MoveFits
    omega
  · have hbehind := h.line.pos_lt.mp hon
    have hle := Cursor.next_le isCont hbehind
    have hone : 1 ≤ l.next isCont := Nat.le_add_right _ _
    refine ⟨_, nextChar_eq h.line hbehind, by omega, by omega, ?_⟩
    unfold MoveFits
    omega
  · unfold MoveFits
    omega

/-- Whatever the daemon sends, the user types and the terminal's size becomes, no round
    of the client makes an access outside the array or fails to end, and the bounds hold
    behind it. -/
theorem editor_in_bounds (size : Option (UInt16 × UInt16)) (targetAgent : Option Str) (rounds : List Round) :
    ∃ st, tuiRun size targetAgent rounds = some st ∧ InBounds st := by
  obtain ⟨st₀, hstart, h₀⟩ := tuiStart_sound size targetAgent
  obtain ⟨st, l, hloop, hsound⟩ := tuiLoop_sound h₀ rounds
  refine ⟨st, ?_, hsound.inBounds⟩
  unfold tuiRun
  rw [hstart]
  exact hloop

end Shclaw.Tui
