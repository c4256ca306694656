/-
  Shclaw.Config.Values — what `ini_load` makes of an escaped value (`src/ini.c`).

  A value is written with its backslashes, quotes, newlines, tabs and returns escaped.
  `fgets` ends a piece behind byte 4095 of a line, and there the reader takes a backslash for
  a continuation, so an escape at that place comes out without it; `readsBack` says, from the
  column the value starts in, whether the value comes out all the same.
  `decode_kept`: the text that reaches `ini_unescape` decodes to the value exactly then.
-/

import Shclaw.Config.LogicalLine
import Shclaw.Lib.Percent

namespace Shclaw.Config

open Lib

/-! ## Escapes -/

/-- The letter behind the backslash. -/
def escapeLetter (c : UInt8) : Option UInt8 :=
  if c = ch '\\' then some (ch '\\')
  else if c = ch '"' then some (ch '"')
  else if c = ch '\n' then some (ch 'n')
  else if c = ch '\t' then some (ch 't')
  else if c = ch '\r' then some (ch 'r')
  else none

def escapeByte (c : UInt8) : Str :=
  match escapeLetter c with
  | some x => [ch '\\', x]
  | none => [c]

def escaped (v : Str) : Str := v.flatMap escapeByte

/-- `ini_unescape` without its bound; whether a backslash came just before. -/
def decode : Bool → Str → Str
  | false, [] => []
  | true, [] => [ch '\\']
  | false, c :: s => if c = ch '\\' then decode true s else c :: decode false s
  | true, x :: s => ((unescapeLetter x).map (fun d => [d])).getD [ch '\\', x] ++ decode false s

theorem escapeLetter_unescape {c x : UInt8} (h : escapeLetter c = some x) : unescapeLetter x = some c := by
  have hall := forall_byte (P := fun c => (escapeLetter c).all (fun x => unescapeLetter x = some c) = true) (by decide +kernel) c
  rw [h] at hall
  exact of_decide_eq_true hall

/-- A value fits the buffer, escaped or not. -/
theorem iniUnescape_eq {sz di : Nat} {s : Str} (h : di + s.length < sz) : iniUnescape sz di s = decode false s := by
  induction hn : s.length using Nat.strongRecOn generalizing s di with
  | ind n ih =>
    cases s with
    | nil => rfl
    | cons c s =>
      rw [List.length_cons] at h hn
      by_cases hc : c = ch '\\'
      · subst hc
        cases s with
        | nil =>
          simp only [iniUnescape, if_neg (show ¬sz ≤ di + 1 by omega), ne_eq, not_true, if_false]
          rfl
        | cons x t =>
          rw [List.length_cons] at h hn
          have ih1 := @ih t.length (by omega) (di + 1) t (by omega) rfl
          have ih2 := @ih t.length (by omega) (di + 2) t (by omega) rfl
          simp only [iniUnescape, if_neg (show ¬sz ≤ di + 1 by omega), ne_eq, not_true, if_false, decode, if_true,
            if_pos (show di + 2 < sz by omega), ih1, ih2]
          cases unescapeLetter x <;> rfl
      · conv_lhs => unfold iniUnescape
        rw [if_neg (by omega), if_pos hc, @ih s.length (by omega) (di + 1) s (by omega) rfl]
        exact (if_neg hc).symm

/-- A byte no escape has a say in stays. -/
theorem mem_decode {d : UInt8} (hslash : d ≠ ch '\\') (hletter : unescapeLetter d = none) {s : Str} (hd : d ∈ s) (b : Bool) :
    d ∈ decode b s := by
  induction s generalizing b with
  | nil => cases hd
  | cons c s ih =>
    rcases List.mem_cons.mp hd with rfl | hd
    · cases b with
      | false =>
        unfold decode
        rw [if_neg hslash]
        exact List.mem_cons_self
      | true =>
        unfold decode
        rw [hletter]
        simp
    · cases b with
      | false =>
        unfold decode
        split
        · exact ih hd true
        · exact List.mem_cons_of_mem _ (ih hd false)
      | true => exact List.mem_append_right _ (ih hd false)

/-! ## Trailing blanks -/

theorem iniRstrip_cons (c : UInt8) (s : Str) :
    iniRstrip (c :: s) = if iniRstrip s = [] ∧ isTrail c = true then [] else c :: iniRstrip s := by
  unfold iniRstrip
  rw [List.reverse_cons, List.dropWhile_append]
  cases hrest : s.reverse.dropWhile isTrail with
  | nil =>
    by_cases hc : isTrail c = true
    · simp [hc]
    · simp [hc]
  | cons d t => simp

theorem length_iniRstrip_le (s : Str) : (iniRstrip s).length ≤ s.length := by
  unfold iniRstrip
  rw [List.length_reverse]
  have := (List.dropWhile_suffix isTrail (l := s.reverse)).length_le
  rwa [List.length_reverse] at this

/-- The stripped text of one that does not end in a blank is the text. -/
theorem iniRstrip_eq_self {s : Str} (h : ∀ c ∈ s.getLast?, isTrail c = false) : iniRstrip s = s := by
  unfold iniRstrip
  cases hrev : s.reverse with
  | nil => exact (List.reverse_eq_nil_iff.mp hrev).symm
  | cons c t =>
    have hc : c ∈ s.getLast? := by rw [← List.head?_reverse, hrev]; rfl
    rw [List.dropWhile_cons_of_neg (by simp [h c hc]), ← hrev, List.reverse_reverse]

theorem iniRstrip_append (a b : Str) :
    iniRstrip (a ++ b) = if iniRstrip b = [] then iniRstrip a else a ++ iniRstrip b := by
  unfold iniRstrip
  rw [List.reverse_append, List.dropWhile_append]
  cases b.reverse.dropWhile isTrail with
  | nil => rfl
  | cons d t => simp

theorem mem_iniRstrip {c : UInt8} {s : Str} (hc : c ∈ s) (htrail : isTrail c = false) : c ∈ iniRstrip s := by
  induction s with
  | nil => cases hc
  | cons d s ih =>
    rw [iniRstrip_cons]
    rcases List.mem_cons.mp hc with rfl | hc
    · rw [if_neg fun h => by rw [htrail] at h; exact Bool.false_ne_true h.2]
      exact List.mem_cons_self
    · rw [if_neg fun h => List.ne_nil_of_mem (ih hc) h.1]
      exact List.mem_cons_of_mem _ (ih hc)

/-! ## Reading back -/

/-- What reaches `ini_unescape` of a value that is written from column `p` on, the text
    `tail` behind its line, when the buffer holds `m` bytes of it. -/
def kept (tail : Str) (m p : Nat) (r : Str) : Str := iniRstrip ((logical p (escaped r ++ ch '\n' :: tail)).1.take m)

/-- Whether the value comes back, from column `p`; `owed` when of an escaped backslash
    just before one byte is gone, and the reader has yet to see what comes next. -/
def readsBack (last : Bool) : Nat → Bool → Str → Bool
  | _, _, [] => true
  | p, owed, c :: r =>
    let p' := (p + (escapeByte c).length) % 4095
    if c = ch '\\' then
      -- a piece ends inside the escape, or behind it
      let lost := p = 4094 || p' = 0
      !(owed && lost) && if r = [] ∧ p' ≠ 0 then last && !(owed || lost) else readsBack last p' (owed || lost) r
    else
      -- no piece ends here but at the end of the line
      (p' ≠ 0 || r = []) && readsBack last p' false r &&
        match escapeLetter c with
        | some x => !owed && p ≠ 4094 || x = c && !(owed && p = 4094)
        | none => !(owed && (unescapeLetter c).isSome)

/-- How a line starts: its first bytes stand in one piece, with a mark that no unescaping
    takes away. -/
structure Marked (front : Str) : Prop where
  line : ∀ c ∈ front, c ≠ ch '\n'
  short : front.length ≤ 66
  slash : front.getLast? ≠ some (ch '\\')
  mark : ∃ d ∈ front, d = ch '=' ∨ d = ch ']'

/-- A run of bytes within a piece. -/
theorem logical_append {p : Nat} {a t : Str} (hline : ∀ c ∈ a, c ≠ ch '\n') (hp : p + a.length ≤ 4094)
    (hslash : a.getLast? ≠ some (ch '\\')) :
    logical p (a ++ t) = (a ++ (logical (p + a.length) t).1, (logical (p + a.length) t).2) := by
  induction a generalizing p with
  | nil => rfl
  | cons c a ih =>
    rw [List.length_cons] at hp
    have hkeep : c = ch '\\' → (a ++ t).head? ≠ some (ch '\n') := by
      intro hc
      cases a with
      | nil => exact absurd (congrArg some hc) hslash
      | cons d a => exact fun h => hline d (List.mem_cons_of_mem _ List.mem_cons_self) (Option.some.inj h)
    have hslash' : a.getLast? ≠ some (ch '\\') := by
      cases a with
      | nil => exact fun h => by cases h
      | cons d a => rwa [List.getLast?_cons_cons] at hslash
    rw [List.cons_append, logical_keep (by omega) (hline c List.mem_cons_self) hkeep,
      ih (fun d hd => hline d (List.mem_cons_of_mem _ hd)) (by omega) hslash', List.length_cons,
      show p + 1 + a.length = p + (a.length + 1) by omega]
    rfl

/-- A line that is joined to the value brings its mark along. -/
theorem Marked.mark_kept {front : Str} (h : Marked front) (more : Str) {m : Nat} (hm : 66 ≤ m) :
    ∃ d ∈ iniRstrip ((logical 0 (front ++ more)).1.take m), d = ch '=' ∨ d = ch ']' := by
  obtain ⟨d, hd, hmark⟩ := h.mark
  have hshort := h.short
  refine ⟨d, ?_, hmark⟩
  rw [logical_append h.line (by omega) h.slash]
  simp only [List.take_append]
  apply mem_iniRstrip
  · rw [List.take_of_length_le (by omega)]
    exact List.mem_append_left _ hd
  · rcases hmark with rfl | rfl <;> decide

/-! ## One byte of a value -/

theorem escapeByte_letter {c x : UInt8} (h : escapeLetter c = some x) : escapeByte c = [ch '\\', x] := by
  unfold escapeByte
  rw [h]

theorem escapeByte_plain {c : UInt8} (h : escapeLetter c = none) : escapeByte c = [c] := by
  unfold escapeByte
  rw [h]

/-- What an escape is written with besides the backslash. -/
theorem letter_spec {c x : UInt8} (hc : c ≠ ch '\\') (h : escapeLetter c = some x) :
    x ≠ ch '\\' ∧ x ≠ ch '\n' ∧ isTrail x = false ∧ x ≠ 0 := by
  have hall := forall_byte (P := fun c => c ≠ ch '\\' →
    (escapeLetter c).all (fun x => x ≠ ch '\\' ∧ x ≠ ch '\n' ∧ isTrail x = false ∧ x ≠ 0) = true) (by decide +kernel) c hc
  rw [h] at hall
  exact of_decide_eq_true hall

/-- What stands for itself. -/
theorem plain_spec {c : UInt8} (h : escapeLetter c = none) : c ≠ ch '\\' ∧ c ≠ ch '\n' ∧ (isTrail c = true → c = ch ' ') :=
  forall_byte (P := fun c => escapeLetter c = none → c ≠ ch '\\' ∧ c ≠ ch '\n' ∧ (isTrail c = true → c = ch ' '))
    (by decide +kernel) c h

/-- An escape begun by accident is no backslash. -/
theorem unescapeLetter_plain {c d : UInt8} (h : escapeLetter c = none) (hd : unescapeLetter c = some d) : d ≠ ch '\\' := by
  have hall := forall_byte (P := fun c => escapeLetter c = none → (unescapeLetter c).all (fun d => d ≠ ch '\\') = true)
    (by decide +kernel) c h
  rw [hd] at hall
  exact of_decide_eq_true hall

/-- No escaped text starts with an LF. -/
theorem head_escaped {c : UInt8} (r s : Str) : (escaped (c :: r) ++ s).head? ≠ some (ch '\n') := by
  rw [escaped, List.flatMap_cons]
  cases hc : escapeLetter c with
  | some x =>
    rw [escapeByte_letter hc]
    exact fun h => absurd (Option.some.inj h) (by decide)
  | none =>
    rw [escapeByte_plain hc]
    exact fun h => (plain_spec hc).2.1 (Option.some.inj h)

theorem strip_cons {c : UInt8} (hc : isTrail c = false) (m : Nat) (s : Str) :
    iniRstrip ((c :: s).take (m + 1)) = c :: iniRstrip (s.take m) := by
  rw [List.take_succ_cons, iniRstrip_cons, if_neg (by simp [hc])]

theorem escaped_letter {c x : UInt8} (hx : escapeLetter c = some x) (r s : Str) :
    escaped (c :: r) ++ s = ch '\\' :: x :: (escaped r ++ s) := by
  rw [escaped, List.flatMap_cons, escapeByte_letter hx]
  rfl

theorem escaped_plain {c : UInt8} (hplain : escapeLetter c = none) (r s : Str) : escaped (c :: r) ++ s = c :: (escaped r ++ s) := by
  rw [escaped, List.flatMap_cons, escapeByte_plain hplain]
  rfl

section Tokens

variable (tail : Str) (m : Nat) {p : Nat}

theorem kept_nil : kept tail m p [] = [] := by
  change iniRstrip ((logical p (ch '\n' :: tail)).1.take m) = []
  rw [logical_newline, List.take_nil]
  rfl

/-- A piece ends inside the escape of a backslash. -/
theorem kept_slash_inside {r : Str} (hr : r ≠ []) : kept tail (m + 1) 4094 (ch '\\' :: r) = ch '\\' :: kept tail m 1 r := by
  obtain ⟨c, r, rfl⟩ := List.exists_cons_of_ne_nil hr
  unfold kept
  rw [escaped_letter rfl, logical_full_slash, logical_keep (by decide) (by decide) fun _ => head_escaped _ _, strip_cons rfl]

/-- One ends behind it. -/
theorem kept_slash_behind (r : Str) : kept tail (m + 1) 4093 (ch '\\' :: r) = ch '\\' :: kept tail m 0 r := by
  unfold kept
  rw [escaped_letter rfl, logical_keep_slash (by decide) (by decide), logical_full_slash, strip_cons rfl]

/-- None does. -/
theorem kept_slash {r : Str} (hr : r ≠ []) (hp : p < 4093) :
    kept tail (m + 2) p (ch '\\' :: r) = ch '\\' :: ch '\\' :: kept tail m (p + 2) r := by
  obtain ⟨c, r, rfl⟩ := List.exists_cons_of_ne_nil hr
  unfold kept
  rw [escaped_letter rfl, logical_keep_slash (by omega) (by decide), logical_keep (by omega) (by decide) fun _ => head_escaped _ _,
    strip_cons rfl, strip_cons rfl]

/-- The escape that ends the line, a piece ending inside it. -/
theorem kept_slash_end_inside : kept tail m 4094 [ch '\\'] = iniRstrip ((logical 0 tail).1.take m) := by
  unfold kept
  rw [escaped_letter rfl, logical_full_slash]
  change iniRstrip ((logical 0 (ch '\\' :: ch '\n' :: tail)).1.take m) = _
  rw [logical_continued (by decide)]

/-- The escape that ends the line. -/
theorem kept_slash_end (hp : p < 4093) :
    kept tail (m + 1) p [ch '\\'] = ch '\\' :: iniRstrip ((logical 0 tail).1.take m) := by
  unfold kept
  rw [escaped_letter rfl, logical_keep_slash (by omega) (by decide)]
  change iniRstrip ((ch '\\' :: (logical (p + 1) (ch '\\' :: ch '\n' :: tail)).1).take (m + 1)) = _
  rw [logical_continued (by omega), strip_cons rfl]

variable {c x : UInt8} (hc : c ≠ ch '\\') (hx : escapeLetter c = some x) (r : Str)
include hc hx

theorem kept_letter_inside : kept tail (m + 1) 4094 (c :: r) = x :: kept tail m 1 r := by
  obtain ⟨hslash, hline, htrail, -⟩ := letter_spec hc hx
  unfold kept
  rw [escaped_letter hx, logical_full_slash, logical_keep_other (by decide) hline hslash, strip_cons htrail]

theorem kept_letter_behind : kept tail (m + 2) 4093 (c :: r) = [ch '\\', x] := by
  obtain ⟨hslash, hline, htrail, -⟩ := letter_spec hc hx
  unfold kept
  rw [escaped_letter hx, logical_keep_slash (by decide) hline, logical_full hline hslash, strip_cons rfl, strip_cons htrail,
    List.take_nil]
  rfl

theorem kept_letter (hp : p < 4093) : kept tail (m + 2) p (c :: r) = ch '\\' :: x :: kept tail m (p + 2) r := by
  obtain ⟨hslash, hline, htrail, -⟩ := letter_spec hc hx
  unfold kept
  rw [escaped_letter hx, logical_keep_slash (by omega) hline, logical_keep_other (by omega) hline hslash, strip_cons rfl,
    strip_cons htrail]

omit hc hx
variable {c : UInt8} (hplain : escapeLetter c = none)
include hplain

theorem kept_plain_last : kept tail (m + 1) 4094 (c :: r) = if isTrail c then [] else [c] := by
  obtain ⟨hslash, hline, -⟩ := plain_spec hplain
  unfold kept
  rw [escaped_plain hplain, logical_full hline hslash,
    List.take_succ_cons, List.take_nil, iniRstrip_cons]
  cases isTrail c <;> rfl

theorem kept_plain (hp : p < 4094) : kept tail (m + 1) p (c :: r) =
    if kept tail m (p + 1) r = [] ∧ isTrail c = true then [] else c :: kept tail m (p + 1) r := by
  obtain ⟨hslash, hline, -⟩ := plain_spec hplain
  unfold kept
  rw [escaped_plain hplain, logical_keep_other (by omega) hline hslash,
    List.take_succ_cons, iniRstrip_cons]

end Tokens

/-! ## The value -/

theorem replicate_append_cons (k : Nat) (a : UInt8) (r : Str) : List.replicate k a ++ a :: r = a :: (List.replicate k a ++ r) := by
  rw [← List.cons_append, ← List.replicate_succ, List.replicate_succ', List.append_assoc]
  rfl

/-- The text behind the value's line: none, or a line that starts so. -/
def Follows (tail : Str) : Prop := tail = [] ∨ ∃ front more, tail = front ++ more ∧ Marked front

/-- The reader is `k` backslashes behind the value, one of them the byte `owed` it has seen. -/
def Agrees (tail : Str) (m p : Nat) (owed : Bool) (k : Nat) (r : Str) : Prop :=
  decode owed (kept tail m p r) = List.replicate k (ch '\\') ++ r ↔
    k = owed.toNat ∧ readsBack tail.isEmpty p owed r = true

/-- What is joined to the line is no run of backslashes. -/
theorem decode_joined {tail : Str} (h : Follows tail) {m : Nat} (hm : 66 ≤ m) (owed : Bool) (k : Nat) :
    decode owed (iniRstrip ((logical 0 tail).1.take m)) = List.replicate k (ch '\\') ↔ tail = [] ∧ k = owed.toNat := by
  rcases h with rfl | ⟨front, more, rfl, hfront⟩
  · have hnil : iniRstrip ((logical 0 []).1.take m) = [] := by
      rw [logical_nil, List.take_nil]
      rfl
    rw [hnil]
    cases owed with
    | false => cases k <;> simp [decode, List.replicate_succ]
    | true => rcases k with _ | _ | k <;> simp [decode, List.replicate_succ]
  · obtain ⟨d, hd, hmark⟩ := hfront.mark_kept more hm
    have hne : front ++ more ≠ [] := by
      obtain ⟨d, hd, -⟩ := hfront.mark
      exact List.append_ne_nil_of_left_ne_nil (List.ne_nil_of_mem hd) _
    refine iff_of_false (fun heq => ?_) fun hand => hne hand.1
    have hmem : d ∈ decode owed (iniRstrip ((logical 0 (front ++ more)).1.take m)) := by
      rcases hmark with rfl | rfl <;> exact mem_decode (by decide) (by decide) hd owed
    rw [heq] at hmem
    rw [List.eq_of_mem_replicate hmem] at hmark
    exact absurd hmark (by decide)

/-- Whether the rest comes back, behind a byte that is no backslash. -/
def restReads (last : Bool) (q : Nat) (r : Str) : Bool := (q ≠ 0 || r = []) && readsBack last q false r

section Columns

variable (last : Bool) (p : Nat) (owed : Bool) (r : Str)

theorem readsBack_slash : readsBack last p owed (ch '\\' :: r) =
    (!(owed && (p = 4094 || (p + 2) % 4095 = 0)) &&
      if r = [] ∧ (p + 2) % 4095 ≠ 0 then last && !(owed || (p = 4094 || (p + 2) % 4095 = 0))
      else readsBack last ((p + 2) % 4095) (owed || (p = 4094 || (p + 2) % 4095 = 0)) r) := rfl

theorem readsBack_letter {c x : UInt8} (hc : c ≠ ch '\\') (hx : escapeLetter c = some x) : readsBack last p owed (c :: r) =
    (restReads last ((p + 2) % 4095) r && (!owed && p ≠ 4094 || x = c && !(owed && p = 4094))) := by
  conv_lhs => unfold readsBack
  simp only [if_neg hc, hx, escapeByte_letter hx]
  rfl

theorem readsBack_plain {c : UInt8} (hplain : escapeLetter c = none) : readsBack last p owed (c :: r) =
    (restReads last ((p + 1) % 4095) r && !(owed && (unescapeLetter c).isSome)) := by
  conv_lhs => unfold readsBack
  simp only [if_neg (plain_spec hplain).1, hplain, escapeByte_plain hplain]
  rfl

end Columns

section Agreement

variable {tail r : Str} {m p k : Nat} {owed : Bool}

theorem decode_slash (s : Str) : decode owed (ch '\\' :: ch '\\' :: s) = ch '\\' :: decode owed s := by
  cases owed <;> rfl

/-- An escaped backslash that came whole. -/
theorem agrees_slash (hr : r ≠ []) (hp : p < 4093) (ih : Agrees tail m (p + 2) owed k r) :
    Agrees tail (m + 2) p owed k (ch '\\' :: r) := by
  unfold Agrees at ih ⊢
  have hnext : (p + 2) % 4095 = p + 2 := Nat.mod_eq_of_lt (by omega)
  rw [kept_slash tail m hr hp, decode_slash, replicate_append_cons, List.cons.injEq, ih, readsBack_slash, hnext]
  simp [hr, show ¬p = 4094 by omega]

/-- One that came as one byte. -/
theorem agrees_lost (hk : owed.toNat ≤ k) {q : Nat} (hkept : kept tail (m + 1) p (ch '\\' :: r) = ch '\\' :: kept tail m q r)
    (hreads : readsBack tail.isEmpty p owed (ch '\\' :: r) = (!owed && readsBack tail.isEmpty q true r))
    (ih : ∀ owed k, owed.toNat ≤ k → Agrees tail m q owed k r) : Agrees tail (m + 1) p owed k (ch '\\' :: r) := by
  unfold Agrees at ih ⊢
  rw [hkept, hreads, replicate_append_cons]
  cases owed with
  | false =>
    have := ih true (k + 1) (by simp)
    rw [List.replicate_succ, List.cons_append] at this
    change decode true (kept tail m q r) = _ ↔ _
    rw [this]
    simp
  | true =>
    change ch '\\' :: decode false (kept tail m q r) = _ ↔ _
    rw [List.cons.injEq, ih false k (by simp)]
    have : 1 ≤ k := hk
    simp
    omega

/-- One that ends the line: its second byte joins the next line to it. -/
theorem agrees_slash_end (hfollows : Follows tail) (hm : 66 ≤ m) (hp : p < 4093) (hk : owed.toNat ≤ k) :
    Agrees tail (m + 1) p owed k [ch '\\'] := by
  unfold Agrees
  have hnext : (p + 2) % 4095 = p + 2 := Nat.mod_eq_of_lt (by omega)
  rw [kept_slash_end tail m hp, replicate_append_cons, List.append_nil, readsBack_slash, hnext]
  cases owed with
  | false =>
    change decode true _ = List.replicate (k + 1) (ch '\\') ↔ _
    rw [decode_joined hfollows hm]
    simp [show ¬p = 4094 by omega, and_comm]
  | true =>
    change ch '\\' :: decode false _ = _ ↔ _
    rw [List.cons.injEq, decode_joined hfollows hm]
    have : 1 ≤ k := hk
    simp
    omega

/-- One that ends the line with a piece ending inside it: nothing of it is left. -/
theorem agrees_slash_end_inside (hfollows : Follows tail) (hm : 66 ≤ m) (hk : owed.toNat ≤ k) :
    Agrees tail m 4094 owed k [ch '\\'] := by
  unfold Agrees
  have hrun : List.replicate k (ch '\\') ++ [ch '\\'] = List.replicate (k + 1) (ch '\\') := List.replicate_succ'.symm
  rw [kept_slash_end_inside, hrun, decode_joined hfollows hm, readsBack_slash]
  simp
  omega

theorem agrees_backslash (hfollows : Follows tail) (hp : p ≤ 4094) (hm : (escaped (ch '\\' :: r)).length + 66 ≤ m)
    (hk : owed.toNat ≤ k)
    (ih : ∀ m q owed k, q ≤ 4094 → (escaped r).length + 66 ≤ m → owed.toNat ≤ k → Agrees tail m q owed k r) :
    Agrees tail m p owed k (ch '\\' :: r) := by
  have hlen : (escaped (ch '\\' :: r)).length = (escaped r).length + 2 := by
    rw [escaped, List.flatMap_cons, List.length_append, Nat.add_comm]
    rfl
  obtain ⟨m, rfl⟩ := Nat.exists_eq_add_of_le' (show 2 ≤ m by omega)
  rcases Nat.lt_trichotomy p 4093 with hlt | rfl | hgt
  · by_cases hr : r = []
    · subst hr
      exact agrees_slash_end hfollows (by omega) hlt hk
    · exact agrees_slash hr hlt (ih m _ owed k (by omega) (by omega) hk)
  · refine agrees_lost hk (kept_slash_behind tail (m + 1) r) ?_ fun owed k hk => ih _ 0 owed k (by omega) (by omega) hk
    rw [readsBack_slash]
    cases owed <;> simp
  · obtain rfl : p = 4094 := by omega
    by_cases hr : r = []
    · subst hr
      exact agrees_slash_end_inside hfollows (by omega) hk
    · refine agrees_lost hk (kept_slash_inside tail (m + 1) hr) ?_ fun owed k hk => ih _ 1 owed k (by omega) (by omega) hk
      rw [readsBack_slash]
      cases owed <;> simp [hr]

theorem decode_rest {q : Nat} (ih : Agrees tail m q false 0 r) (hq : q ≠ 0) :
    decode false (kept tail m q r) = r ↔ restReads tail.isEmpty q r = true := by
  unfold Agrees at ih
  rw [List.replicate_zero, List.nil_append] at ih
  unfold restReads
  rw [ih]
  simp [hq]

theorem decode_rest_nil : decode false [] = r ↔ restReads tail.isEmpty 0 r = true := by
  unfold restReads
  cases r <;> simp [decode, readsBack]

/-- Another escape, its backslash in place. -/
theorem agrees_escape {c x : UInt8} (hc : c ≠ ch '\\') (hx : escapeLetter c = some x) (hp : p ≠ 4094) (hk : owed.toNat ≤ k) {s : Str}
    (hkept : kept tail m p (c :: r) = ch '\\' :: x :: s)
    (hrest : decode false s = r ↔ restReads tail.isEmpty ((p + 2) % 4095) r = true) : Agrees tail m p owed k (c :: r) := by
  unfold Agrees
  have hslash := (letter_spec hc hx).1
  rw [hkept, readsBack_letter _ _ _ _ hc hx]
  cases owed with
  | false =>
    have hdecode : decode false (ch '\\' :: x :: s) = c :: decode false s := by
      change ((unescapeLetter x).map fun d => [d]).getD _ ++ _ = _
      rw [escapeLetter_unescape hx]
      rfl
    rw [hdecode]
    cases k with
    | zero => simp [hrest, hp]
    | succ k => simp [List.replicate_succ, hc]
  | true =>
    have hdecode : decode true (ch '\\' :: x :: s) = ch '\\' :: x :: decode false s := by
      change ch '\\' :: (if x = ch '\\' then _ else _) = _
      rw [if_neg hslash]
    rw [hdecode]
    rcases k with _ | _ | k
    · exact absurd hk (by decide)
    · simp [hrest, hp, and_comm]
    · simp [List.replicate_succ, hslash]

/-- Another escape, without its backslash. -/
theorem agrees_bare {c x : UInt8} (hc : c ≠ ch '\\') (hx : escapeLetter c = some x) (hk : owed.toNat ≤ k) {s : Str}
    (hkept : kept tail m 4094 (c :: r) = x :: s) (hrest : decode false s = r ↔ restReads tail.isEmpty 1 r = true) :
    Agrees tail m 4094 owed k (c :: r) := by
  unfold Agrees
  have hslash := (letter_spec hc hx).1
  rw [hkept, readsBack_letter _ _ _ _ hc hx]
  cases owed with
  | false =>
    have hdecode : decode false (x :: s) = x :: decode false s := if_neg hslash
    rw [hdecode]
    cases k with
    | zero => simp [hrest, and_comm]
    | succ k => simp [List.replicate_succ, hslash]
  | true =>
    have hdecode : decode true (x :: s) = c :: decode false s := by
      change ((unescapeLetter x).map fun d => [d]).getD _ ++ _ = _
      rw [escapeLetter_unescape hx]
      rfl
    rw [hdecode]
    cases k with
    | zero => exact absurd hk (by decide)
    | succ k => simp [List.replicate_succ, hc]

/-- A byte that stands for itself. -/
theorem agrees_plain {c : UInt8} (hplain : escapeLetter c = none) (hlast : (c :: r).getLast? ≠ some (ch ' ')) (hk : owed.toNat ≤ k)
    {s : Str} (hkept : kept tail m p (c :: r) = if s = [] ∧ isTrail c = true then [] else c :: s)
    (hrest : decode false s = r ↔ restReads tail.isEmpty ((p + 1) % 4095) r = true) : Agrees tail m p owed k (c :: r) := by
  unfold Agrees
  obtain ⟨hslash, -, hblank⟩ := plain_spec hplain
  rw [hkept, readsBack_plain _ _ _ _ hplain]
  split
  · -- the blank and all behind it are stripped
    rename_i hstripped
    obtain ⟨rfl, htrail⟩ := hstripped
    have hr : r ≠ [] := by
      rintro rfl
      exact hlast (congrArg some (hblank htrail))
    have hfalse : restReads tail.isEmpty ((p + 1) % 4095) r = false := by
      rw [← Bool.not_eq_true, ← hrest]
      exact fun h => hr h.symm
    rw [hfalse]
    cases owed with
    | false => cases k <;> simp [decode, List.replicate_succ]
    | true =>
      rcases k with _ | _ | k
      · exact absurd hk (by decide)
      · simp [decode]
      · simp [decode, List.replicate_succ]
  · cases owed with
    | false =>
      have hdecode : decode false (c :: s) = c :: decode false s := if_neg hslash
      rw [hdecode]
      cases k with
      | zero => simp [hrest]
      | succ k => simp [List.replicate_succ, hslash]
    | true =>
      have hdecode : decode true (c :: s) = ((unescapeLetter c).map fun d => [d]).getD [ch '\\', c] ++ decode false s := rfl
      rw [hdecode]
      cases hletter : unescapeLetter c with
      | some d =>
        have hd := unescapeLetter_plain hplain hletter
        cases k with
        | zero => exact absurd hk (by decide)
        | succ k => simp [List.replicate_succ, hd]
      | none =>
        rcases k with _ | _ | k
        · exact absurd hk (by decide)
        · simp [hrest]
        · simp [List.replicate_succ, hslash]

end Agreement

theorem length_escapeByte {c x : UInt8} (hx : escapeLetter c = some x) (r : Str) :
    (escaped (c :: r)).length = (escaped r).length + 2 := by
  have := congrArg List.length (escaped_letter hx r [])
  simpa using this

theorem length_escaped_plain {c : UInt8} (hplain : escapeLetter c = none) (r : Str) :
    (escaped (c :: r)).length = (escaped r).length + 1 := by
  have := congrArg List.length (escaped_plain hplain r [])
  simpa using this

/-- The text that reaches `ini_unescape` is the value's exactly if it reads back. -/
theorem agrees {tail : Str} (hfollows : Follows tail) {r : Str} (hlast : r.getLast? ≠ some (ch ' ')) {m p : Nat} {owed : Bool} {k : Nat}
    (hp : p ≤ 4094) (hm : (escaped r).length + 66 ≤ m) (hk : owed.toNat ≤ k) : Agrees tail m p owed k r := by
  induction r generalizing m p owed k with
  | nil =>
    unfold Agrees
    rw [kept_nil]
    cases owed with
    | false => cases k <;> simp [decode, readsBack, List.replicate_succ]
    | true => rcases k with _ | _ | k <;> simp [decode, readsBack, List.replicate_succ]
  | cons c r ih =>
    have hlast' : r.getLast? ≠ some (ch ' ') := by
      cases r with
      | nil => exact fun h => by cases h
      | cons d r => rwa [List.getLast?_cons_cons] at hlast
    have ih := fun {m p owed k} => @ih hlast' m p owed k
    by_cases hc : c = ch '\\'
    · subst hc
      exact agrees_backslash hfollows hp hm hk fun m q owed k => ih
    cases hx : escapeLetter c with
    | some x =>
      rw [length_escapeByte hx] at hm
      obtain ⟨m, rfl⟩ := Nat.exists_eq_add_of_le' (show 2 ≤ m by omega)
      rcases Nat.lt_trichotomy p 4093 with hlt | rfl | hgt
      · refine agrees_escape hc hx (by omega) hk (kept_letter tail m hc hx r hlt) ?_
        rw [Nat.mod_eq_of_lt (by omega)]
        exact decode_rest (ih (by omega) (by omega) (by decide)) (by omega)
      · exact agrees_escape hc hx (by decide) hk (kept_letter_behind tail m hc hx r) decode_rest_nil
      · obtain rfl : p = 4094 := by omega
        exact agrees_bare hc hx hk (kept_letter_inside tail (m + 1) hc hx r)
          (decode_rest (ih (by omega) (by omega) (by decide)) (by decide))
    | none =>
      rw [length_escaped_plain hx] at hm
      obtain ⟨m, rfl⟩ := Nat.exists_eq_add_of_le' (show 1 ≤ m by omega)
      by_cases hend : p = 4094
      · subst hend
        refine agrees_plain hx hlast hk (s := []) ?_ decode_rest_nil
        rw [kept_plain_last tail m r hx]
        simp
      · refine agrees_plain hx hlast hk (kept_plain tail m r hx (by omega)) ?_
        rw [Nat.mod_eq_of_lt (by omega)]
        exact decode_rest (ih (by omega) (by omega) (by decide)) (by omega)

/-- From the column its value starts in. -/
theorem decode_kept {tail : Str} (hfollows : Follows tail) {v : Str} (hlast : v.getLast? ≠ some (ch ' ')) {m p : Nat}
    (hp : p ≤ 4094) (hm : (escaped v).length + 66 ≤ m) :
    decode false (kept tail m p v) = v ↔ readsBack tail.isEmpty p false v = true := by
  have := @agrees tail hfollows v hlast m p false 0 hp hm (by decide)
  unfold Agrees at this
  simpa using this

end Shclaw.Config
