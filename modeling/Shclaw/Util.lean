/-
  Shclaw.Util — the bounded append (`src/util.c`: `buf_appendf`).

  The buffer is the first `sz` bytes of the memory behind a pointer; an access outside
  that memory fails. A call keeps what `Lib.appendf` says of the buffer's text
  (`bufAppendf_spec`), so a sequence of calls holds the start of the texts
  (`bufAppends_holds`) and leaves what is behind the buffer alone.

  Two kinds of input break the rule that the text and a NUL are in the buffer. A buffer
  of one byte is full from the start: no call writes its NUL. And a text of 2^31 bytes
  or more is not truncated but left out: `vsnprintf` cannot count it. `append_exact`: in
  all other cases, and in no other, the rule holds.
-/

import Mathlib.Data.List.Flatten
import Shclaw.Lib.Buffer
import Shclaw.Lib.Region

namespace Shclaw.Util

open Lib

/-! ## The calls -/

/-- The memory behind a pointer. No object is larger than `PTRDIFF_MAX`. -/
structure Object where
  bytes : Str
  size_lt : bytes.length < 2 ^ 63

/-- What a failing `vsnprintf` leaves of a text in `room` bytes: the documentation does
    not say, only that it stays inside. -/
structure Unsaid where
  left : Nat → Str → Str
  within : ∀ room text, (left room text).length ≤ room

/-- The texts whose length is an `int`. -/
def counted (text : Str) : Bool := decide (text.length < 2 ^ 31)

/-- `vsnprintf(buf + i, room, ..)` of a text: the memory and what it returns. -/
def vsnprintf (V : Unsaid) (mem : Str) (i room : Nat) (text : Str) : Option (Str × Int) :=
  if counted text then
    if room = 0 then some (mem, text.length)
    else (write mem i (text.take (room - 1) ++ [0])).map fun mem => (mem, (text.length : Int))
  else (write mem i (V.left room text)).map fun mem => (mem, -1)

/-- `buf_appendf(buf, sz, &off, ..)` of a text. -/
def bufAppendf (V : Unsaid) (sz : Nat) (s : Str × Nat) (text : Str) : Option (Str × Nat) :=
  let (mem, off) := s
  if sz = 0 ∨ sz - 1 ≤ off then some (mem, off)
  else
    (vsnprintf V mem off (sz - off) text).bind fun (mem, n) =>
      if n < 0 then some (mem, off)
      else
        let off := (off + n.toNat) % 2 ^ 64
        if sz - 1 < off then some (mem, sz - 1) else some (mem, off)

/-- Successive calls, the first at offset 0. -/
def bufAppends (V : Unsaid) (sz : Nat) (mem : Str) (texts : List Str) : Option (Str × Nat) :=
  texts.foldlM (bufAppendf V sz) (mem, 0)

/-- The start of the texts and a NUL are in the buffer, the offset is at the NUL. -/
def Appended (sz : Nat) (texts : List Str) (mem : Str) (off : Nat) : Prop :=
  off = (texts.flatten.take (sz - 1)).length ∧ mem.take (off + 1) = texts.flatten.take (sz - 1) ++ [0]

/-! ## One call -/

/-- The buffer holds a text: offset, room, bytes, and the memory around it as it was. -/
structure Holds (sz : Nat) (mem₀ : Str) (s : Str × Nat) (text : Str) : Prop where
  off : s.2 = text.length
  room : text.length ≤ sz - 1
  bytes : s.1.take s.2 = text
  size : s.1.length = mem₀.length
  behind : s.1.drop sz = mem₀.drop sz

/-- The NUL is at the offset. -/
def Ended (s : Str × Nat) : Prop := s.1.drop s.2 = 0 :: s.1.drop (s.2 + 1)

variable {V : Unsaid} {sz : Nat} {mem₀ : Str} {s : Str × Nat} {buf : Str}

/-- A full buffer is left as it is. -/
theorem bufAppendf_full (h : sz - 1 ≤ s.2) (text : Str) : bufAppendf V sz s text = some s := by
  unfold bufAppendf
  exact if_pos (Or.inr h)

/-- A write behind the text and inside the buffer. -/
theorem written_holds (h : Holds sz mem₀ s buf) (hsz : sz ≤ mem₀.length) {bs : Str} (hbs : s.2 + bs.length ≤ sz) :
    ∃ mem, write s.1 s.2 bs = some mem ∧ mem.take (s.2 + bs.length) = buf ++ bs ∧
      mem.length = mem₀.length ∧ mem.drop sz = mem₀.drop sz := by
  have hin : s.2 + bs.length ≤ s.1.length := by
    rw [h.size]
    omega
  refine ⟨_, write_eq hin, ?_, ?_, ?_⟩
  · rw [written_take hin, h.bytes]
  · rw [written_length hin, h.size]
  · rw [written_drop hin hbs, h.behind]

theorem ended_of_take {mem : Str} {off : Nat} {text : Str} (h : mem.take (off + 1) = text ++ [0]) (hoff : off = text.length) :
    Ended (mem, off) := by
  subst hoff
  have hsplit : mem = text ++ 0 :: mem.drop (text.length + 1) := by
    conv_lhs => rw [← List.take_append_drop (text.length + 1) mem, h, List.append_assoc]
    rfl
  unfold Ended
  simp only
  conv_lhs => rw [hsplit]
  exact List.drop_left

theorem take_of_ended (h : Ended s) (hbuf : s.1.take s.2 = buf) : s.1.take (s.2 + 1) = buf ++ [0] := by
  rw [List.take_add, hbuf, show s.1.drop s.2 = 0 :: s.1.drop (s.2 + 1) from h]
  rfl

/-- A call with room for a byte, of a text that `vsnprintf` counts. -/
theorem bufAppendf_counted (h : Holds sz mem₀ s buf) (hsz : sz ≤ mem₀.length) (hobj : mem₀.length < 2 ^ 63)
    (hroom : s.2 < sz - 1) {text : Str} (htext : counted text = true) :
    ∃ s', bufAppendf V sz s text = some s' ∧ Holds sz mem₀ s' (appendf sz buf text) ∧ Ended s' := by
  obtain ⟨mem, off⟩ := s
  simp only at hroom
  have hoff : off = buf.length := h.off
  have hlen : (text.take (sz - off - 1)).length = min (sz - off - 1) text.length := List.length_take
  have hbs : off + (text.take (sz - off - 1) ++ [0]).length ≤ sz := by
    rw [List.length_append, hlen, List.length_singleton]
    omega
  obtain ⟨mem', hwrite, htake, hsize, hbehind⟩ := written_holds h hsz hbs
  have happ : appendf sz buf text = buf ++ text.take (sz - off - 1) := by
    rw [appendf_eq h.room, List.take_append, List.take_of_length_le h.room, ← hoff, Nat.sub_right_comm]
  have happlen : (appendf sz buf text).length = off + min (sz - off - 1) text.length := by
    rw [happ, List.length_append, hlen, hoff]
  have htext' : text.length < 2 ^ 31 := of_decide_eq_true htext
  -- the sum does not wrap: the buffer is an object
  have hsum : (off + text.length) % 2 ^ 64 = off + text.length := by
    apply Nat.mod_eq_of_lt
    omega
  have hcall : bufAppendf V sz (mem, off) text = some (mem', off + min (sz - off - 1) text.length) := by
    unfold bufAppendf vsnprintf
    simp only
    rw [if_neg (by omega), if_pos htext, if_neg (by omega), hwrite, Option.map_some, Option.bind_some]
    simp only
    rw [if_neg (by omega), Int.toNat_natCast, hsum]
    split
    · rw [show min (sz - off - 1) text.length = sz - 1 - off by omega, show off + (sz - 1 - off) = sz - 1 by omega]
    · rw [show min (sz - off - 1) text.length = text.length by omega]
  have hend : off + (text.take (sz - off - 1) ++ [0]).length = off + min (sz - off - 1) text.length + 1 := by
    rw [List.length_append, hlen, List.length_singleton, Nat.add_assoc]
  rw [hend, ← List.append_assoc, ← happ] at htake
  refine ⟨_, hcall, ⟨happlen.symm, length_appendf h.room text, ?_, hsize, hbehind⟩, ended_of_take htake happlen.symm⟩
  have hstart := congrArg (List.take (appendf sz buf text).length) htake
  rw [List.take_take, List.take_left' rfl, happlen, Nat.min_eq_left (Nat.le_succ _)] at hstart
  exact hstart

/-- A call with room for a byte, of a text that `vsnprintf` cannot count. -/
theorem bufAppendf_uncounted (h : Holds sz mem₀ s buf) (hsz : sz ≤ mem₀.length) (hroom : s.2 < sz - 1) {text : Str}
    (htext : counted text = false) : ∃ s', bufAppendf V sz s text = some s' ∧ Holds sz mem₀ s' buf ∧ s'.2 = s.2 := by
  obtain ⟨mem, off⟩ := s
  simp only at hroom
  have hbs : off + (V.left (sz - off) text).length ≤ sz := by
    have hwithin := V.within (sz - off) text
    omega
  obtain ⟨mem', hwrite, htake, hsize, hbehind⟩ := written_holds h hsz hbs
  have hcall : bufAppendf V sz (mem, off) text = some (mem', off) := by
    unfold bufAppendf vsnprintf
    simp only
    rw [if_neg (by omega), htext, if_neg (by decide), hwrite, Option.map_some, Option.bind_some]
    rfl
  refine ⟨_, hcall, ⟨h.off, h.room, ?_, hsize, hbehind⟩, rfl⟩
  have hstart := congrArg (List.take off) htake
  rw [List.take_take, Nat.min_eq_left (Nat.le_add_right _ _), List.take_left' (by exact h.off.symm)] at hstart
  exact hstart

/-- A full buffer ends with its NUL. -/
def Sealed (sz : Nat) (s : Str × Nat) : Prop := s.2 = sz - 1 → Ended s

/-- What a call does: the text grows by a text that can be counted, and a NUL ends it. -/
theorem bufAppendf_spec (h : Holds sz mem₀ s buf) (hsz : sz ≤ mem₀.length) (hobj : mem₀.length < 2 ^ 63) (text : Str) :
    ∃ s', bufAppendf V sz s text = some s' ∧ Holds sz mem₀ s' (if counted text then appendf sz buf text else buf) ∧
      (Sealed sz s → Sealed sz s') ∧ (counted text = true → Ended s ∨ s.2 < sz - 1 → Ended s') := by
  by_cases hfull : sz - 1 ≤ s.2
  · have hkeep : (if counted text then appendf sz buf text else buf) = buf := by
      split
      · exact if_pos (Or.inr (h.off ▸ hfull))
      · rfl
    rw [hkeep]
    refine ⟨s, bufAppendf_full hfull text, h, id, fun _ hended => ?_⟩
    cases hended with
    | inl hended => exact hended
    | inr hroom => omega
  · have hroom : s.2 < sz - 1 := by omega
    cases htext : counted text with
    | true =>
      obtain ⟨s', hcall, hholds, hended⟩ := bufAppendf_counted h hsz hobj hroom htext
      exact ⟨s', hcall, hholds, fun _ _ => hended, fun _ _ => hended⟩
    | false =>
      obtain ⟨s', hcall, hholds, hoff⟩ := bufAppendf_uncounted h hsz hroom htext
      refine ⟨s', hcall, hholds, fun _ hat => ?_, by simp⟩
      omega

/-! ## A sequence of calls -/

theorem foldlM_bufAppendf (h : Holds sz mem₀ s buf) (hsz : sz ≤ mem₀.length) (hobj : mem₀.length < 2 ^ 63) (texts : List Str) :
    ∃ s', texts.foldlM (bufAppendf V sz) s = some s' ∧ Holds sz mem₀ s' ((texts.filter counted).foldl (appendf sz) buf) ∧
      (Sealed sz s → Sealed sz s') ∧
      ((∀ text ∈ texts, counted text = true) → Ended s ∨ texts ≠ [] ∧ s.2 < sz - 1 → Ended s') := by
  induction texts generalizing s buf with
  | nil => exact ⟨s, rfl, h, id, fun _ hended => hended.elim id fun hnil => absurd rfl hnil.1⟩
  | cons text texts ih =>
    obtain ⟨s₁, hcall, hholds, hsealed, hended⟩ := bufAppendf_spec h hsz hobj text
    obtain ⟨s', hrun, hholds', hsealed', hended'⟩ := ih hholds
    refine ⟨s', ?_, ?_, fun hs => hsealed' (hsealed hs), fun hall hstart => ?_⟩
    · rw [List.foldlM_cons, hcall]
      exact hrun
    · cases htext : counted text with
      | true =>
        rw [htext] at hholds'
        rw [List.filter_cons_of_pos htext]
        exact hholds'
      | false =>
        rw [htext] at hholds'
        rw [List.filter_cons_of_neg (by simp [htext])]
        exact hholds'
    · obtain ⟨hhead, htail⟩ := List.forall_mem_cons.mp hall
      exact hended' htail (Or.inl (hended hhead (hstart.imp_right And.right)))

/-- After any calls the buffer holds the start of the texts that could be counted. -/
theorem bufAppends_holds (hsz : sz ≤ mem₀.length) (hobj : mem₀.length < 2 ^ 63) (texts : List Str) :
    ∃ s, bufAppends V sz mem₀ texts = some s ∧ Holds sz mem₀ s ((texts.filter counted).flatten.take (sz - 1)) ∧
      (Sealed sz (mem₀, 0) → Sealed sz s) ∧
      ((∀ text ∈ texts, counted text = true) → texts ≠ [] → 1 < sz → Ended s) := by
  have hempty : Holds sz mem₀ (mem₀, 0) [] := ⟨rfl, Nat.zero_le _, rfl, rfl, rfl⟩
  obtain ⟨s, hrun, hholds, hsealed, hended⟩ := foldlM_bufAppendf (V := V) hempty hsz hobj texts
  rw [← appends, appends_eq] at hholds
  exact ⟨s, hrun, hholds, hsealed, fun hall hne hone => hended hall (Or.inr ⟨hne, by simp only; omega⟩)⟩

/-- No call writes a buffer of one byte. -/
theorem bufAppends_one (mem : Str) (texts : List Str) : bufAppends V 1 mem texts = some (mem, 0) := by
  unfold bufAppends
  induction texts with
  | nil => rfl
  | cons text texts ih =>
    rw [List.foldlM_cons, bufAppendf_full (Nat.zero_le _)]
    exact ih

theorem length_counted_le (texts : List Str) : (texts.filter counted).flatten.length ≤ texts.flatten.length :=
  List.Sublist.length_le (List.Sublist.flatten List.filter_sublist)

/-- When leaving texts out makes no difference and there is still room, none was left out. -/
theorem all_counted {texts : List Str} {n : Nat} (hsame : (texts.filter counted).flatten.take n = texts.flatten.take n)
    (hroom : (texts.flatten.take n).length < n) : ∀ text ∈ texts, counted text = true := by
  intro text hmem
  by_contra hover
  have hlong : 2 ^ 31 ≤ text.length := by simpa [counted] using hover
  obtain ⟨front, back, rfl⟩ := List.append_of_mem hmem
  have hfront := length_counted_le front
  have hback := length_counted_le back
  have hlen := congrArg List.length hsame
  rw [List.filter_append, List.filter_cons_of_neg hover] at hlen
  simp only [List.length_take, List.flatten_append, List.flatten_cons, List.length_append] at hlen hroom
  omega

/-- `vsnprintf` of a text that can be counted, behind what the buffer holds. -/
theorem vsnprintf_behind (V : Unsaid) {mem front : Str} {sz : Nat} (hfront : mem.take front.length = front)
    (hin : front.length < sz) (hsz : sz ≤ mem.length) {text : Str} (htext : counted text = true) :
    ∃ mem', vsnprintf V mem front.length (sz - front.length) text = some (mem', (text.length : Int)) ∧
      mem'.length = mem.length ∧ mem'.drop sz = mem.drop sz ∧ cstr mem' = cstr (cut sz (front ++ text)) := by
  have hcut : cut sz (front ++ text) = front ++ text.take (sz - front.length - 1) := by
    unfold cut
    rw [List.take_append, List.take_of_length_le (by omega)]
    congr 2
    omega
  have hlen : (text.take (sz - front.length - 1) ++ [0]).length ≤ sz - front.length := by
    rw [List.length_append, List.length_take, List.length_singleton]
    omega
  have hfits : front.length + (text.take (sz - front.length - 1) ++ [0]).length ≤ mem.length := by omega
  refine ⟨_, ?_, written_length hfits, written_drop hfits (by omega), cstr_of_take ?_⟩
  · unfold vsnprintf
    rw [if_pos htext, if_neg (by omega), write_eq hfits]
    rfl
  · have htake := written_take hfits
    rw [hcut, List.length_append, Nat.add_assoc, List.append_assoc front]
    refine Eq.trans ?_ (htake.trans (congrArg (· ++ _) hfront))
    rw [List.length_append, List.length_singleton]

theorem first_byte {mem : Str} (h : 1 ≤ mem.length) : byte mem 0 = 0 ↔ mem.take 1 = [0] := by
  cases mem with
  | nil => simp at h
  | cons c mem => simp [byte]

/-- Every sequence of calls returns, inside the memory, and leaves what is behind the
    buffer. The buffer holds the start of the texts and a NUL exactly when it has two
    bytes or begins with a NUL, and the texts of 2^31 bytes or more make no difference. -/
theorem append_exact (V : Unsaid) (buf : Object) {sz : Nat} (hsz : 1 ≤ sz) (hbuf : sz ≤ buf.bytes.length) {texts : List Str}
    (htexts : texts ≠ []) : ∃ mem off, bufAppends V sz buf.bytes texts = some (mem, off) ∧
      mem.length = buf.bytes.length ∧ mem.drop sz = buf.bytes.drop sz ∧
      (Appended sz texts mem off ↔ (2 ≤ sz ∨ byte buf.bytes 0 = 0) ∧
        (texts.filter counted).flatten.take (sz - 1) = texts.flatten.take (sz - 1)) := by
  obtain ⟨⟨mem, off⟩, hrun, hholds, hsealed, hended⟩ := bufAppends_holds (V := V) hbuf buf.size_lt texts
  refine ⟨mem, off, hrun, hholds.size, hholds.behind, ?_, ?_⟩
  · rintro ⟨hoff, htake⟩
    have hsame : (texts.filter counted).flatten.take (sz - 1) = texts.flatten.take (sz - 1) := by
      have hstart := congrArg (List.take off) htake
      rw [List.take_take, Nat.min_eq_left (Nat.le_succ _), List.take_left' hoff.symm] at hstart
      exact hholds.bytes.symm.trans hstart
    refine ⟨?_, hsame⟩
    by_cases hone : 2 ≤ sz
    · exact Or.inl hone
    · right
      have hsz1 : sz = 1 := by omega
      subst hsz1
      rw [bufAppends_one] at hrun
      cases hrun
      have hfirst : buf.bytes.take 1 = [0] := htake
      exact (first_byte hbuf).mpr hfirst
  · rintro ⟨hstart, hsame⟩
    rw [hsame] at hholds
    refine ⟨hholds.off, take_of_ended ?_ hholds.bytes⟩
    have hofflen : off = (texts.flatten.take (sz - 1)).length := hholds.off
    by_cases hfull : off = sz - 1
    · -- full: the call that filled it wrote the NUL
      refine hsealed ?_ hfull
      intro hzero
      have hsz1 : sz = 1 := by
        simp only at hzero
        omega
      have hfirst : byte buf.bytes 0 = 0 := hstart.resolve_left (by omega)
      have hnul : buf.bytes.take 1 = [] ++ [0] := (first_byte (by omega)).mp hfirst
      exact ended_of_take hnul rfl
    · have hroom : (texts.flatten.take (sz - 1)).length < sz - 1 := by
        have hle := hholds.room
        omega
      exact hended (all_counted hsame hroom) htexts (by omega)

/-- A failing `vsnprintf` that leaves nothing. -/
def untouched : Unsaid := ⟨fun _ _ => [], fun room _ => Nat.zero_le room⟩

/-- Eight bytes on the stack, and one behind them. -/
def onStack : Object := ⟨List.replicate 9 7, by decide⟩

theorem append_exact_more : ∃ mem off, bufAppends untouched 8 onStack.bytes [lit "0123456789", lit "more"] = some (mem, off) ∧
    off = 7 ∧ mem.take 8 = lit "0123456" ++ [0] ∧ mem.drop 8 = [7] := by
  obtain ⟨mem, off, hrun, -, hbehind, happended⟩ :=
    append_exact untouched onStack (by decide : 1 ≤ 8) (by decide) (List.cons_ne_nil (lit "0123456789") [lit "more"])
  obtain ⟨hoff, htake⟩ := happended.mpr ⟨Or.inl (by decide), by decide⟩
  have h7 : off = 7 := hoff
  subst h7
  exact ⟨mem, 7, hrun, rfl, htake, hbehind⟩

/-- A buffer of one byte has no NUL in it. -/
theorem one_byte_unended : ¬ ∀ (V : Unsaid) (buf : Object) (sz : Nat), 1 ≤ sz → sz ≤ buf.bytes.length →
    ∀ texts : List Str, texts ≠ [] → ∃ mem off, bufAppends V sz buf.bytes texts = some (mem, off) ∧
      mem.drop sz = buf.bytes.drop sz ∧ Appended sz texts mem off := by
  intro hall
  obtain ⟨mem, off, hrun, -, -, htake⟩ := hall untouched onStack 1 (by decide) (by decide) [lit "a"] (List.cons_ne_nil _ _)
  rw [bufAppends_one] at hrun
  cases hrun
  exact absurd htake (by decide)

end Shclaw.Util
