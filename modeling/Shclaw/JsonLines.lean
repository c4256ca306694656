/-
  Shclaw.JsonLines — a printed tree as a line of a file, whole or cut: an instance of
  `CJsonLines`.

  `text` has no newline (`text_line`). A text that was cut reads as nothing, or as a
  shorter number and nothing behind it (`value_cut`); a cut object or array lacks its
  closing bracket and reads as nothing.
-/

import Mathlib.Data.List.TakeWhile
import Shclaw.JsonText
import Shclaw.Lib.Percent

namespace Shclaw

open Lib

namespace JsonText

/-! ## One line -/

/-- The three forms of a byte. -/
theorem escape_cases (c : UInt8) : (∃ d, escape c = [92, d]) ∨
    (∃ h l, escape c = [92, ch 'u', ch '0', ch '0', h, l]) ∨ escape c = [c] := by
  unfold escape
  iterate 7
    split
    · exact Or.inl ⟨_, rfl⟩
  split
  · exact Or.inr (Or.inl ⟨_, _, rfl⟩)
  · exact Or.inr (Or.inr rfl)

theorem escape_bytes : ∀ c : UInt8, (escape c).all (32 ≤ ·) = true := forall_byte (by decide +kernel)

theorem quote_bytes (s : Str) : ∀ c ∈ quote s, 32 ≤ c := by
  unfold quote
  rw [List.forall_mem_cons, List.forall_mem_append]
  refine ⟨by decide, ?_, List.forall_mem_singleton.mpr (by decide)⟩
  intro c hc
  obtain ⟨d, -, hd⟩ := List.mem_flatMap.mp hc
  exact of_decide_eq_true (List.all_eq_true.mp (escape_bytes d) c hd)

theorem digits_bytes {ds : Str} (h : ∀ c ∈ ds, isDigit c = true) : ∀ c ∈ ds, 32 ≤ c := by
  intro c hc
  exact forall_byte (P := fun c => isDigit c = true → 32 ≤ c) (by decide +kernel) c (h c hc)

theorem numText_bytes (m : Int) (e : Nat) : ∀ c ∈ numText m e, 32 ≤ c := by
  have hm := digits_bytes (decimalAux_digits m.natAbs m.natAbs)
  have he := digits_bytes (decimalAux_digits e e)
  unfold numText
  rw [List.forall_mem_append, List.forall_mem_append]
  refine ⟨⟨?_, hm⟩, ?_⟩
  · split
    · exact List.forall_mem_singleton.mpr (by decide)
    · exact List.forall_mem_nil _
  · split
    · exact List.forall_mem_nil _
    · exact List.forall_mem_cons.mpr ⟨by decide, List.forall_mem_cons.mpr ⟨by decide, he⟩⟩

theorem literal_bytes {s : Str} (h : s.all (32 ≤ ·) = true) : ∀ c ∈ s, 32 ≤ c := fun c hc =>
  of_decide_eq_true (List.all_eq_true.mp h c hc)

mutual

/-- No control byte is printed. -/
theorem text_bytes : ∀ j : Json, ∀ c ∈ text j, 32 ≤ c
  | .null | .bool true | .bool false | .arr [] | .obj [] => literal_bytes (by decide)
  | .num m e => numText_bytes m e
  | .str s => quote_bytes s
  | .arr (x :: xs) => by
    have hrest := List.forall_mem_append.mpr ⟨text_bytes x, elems_bytes xs⟩
    exact List.forall_mem_cons.mpr ⟨by decide, hrest⟩
  | .obj ((k, v) :: kvs) => by
    have hvalue := List.forall_mem_append.mpr ⟨text_bytes v, members_bytes kvs⟩
    have hkey := List.forall_mem_cons.mpr ⟨show 32 ≤ ch ':' by decide, hvalue⟩
    exact List.forall_mem_cons.mpr ⟨by decide, List.forall_mem_append.mpr ⟨quote_bytes k, hkey⟩⟩

theorem elems_bytes : ∀ xs : List Json, ∀ c ∈ elems xs, 32 ≤ c
  | [] => literal_bytes (by decide)
  | x :: xs => by
    have hrest := List.forall_mem_append.mpr ⟨text_bytes x, elems_bytes xs⟩
    exact List.forall_mem_cons.mpr ⟨by decide, hrest⟩

theorem members_bytes : ∀ kvs : List (Str × Json), ∀ c ∈ members kvs, 32 ≤ c
  | [] => literal_bytes (by decide)
  | (k, v) :: kvs => by
    have hvalue := List.forall_mem_append.mpr ⟨text_bytes v, members_bytes kvs⟩
    have hkey := List.forall_mem_cons.mpr ⟨show 32 ≤ ch ':' by decide, hvalue⟩
    exact List.forall_mem_cons.mpr ⟨by decide, List.forall_mem_append.mpr ⟨quote_bytes k, hkey⟩⟩

end

theorem text_line (j : Json) : (10 : UInt8) ∉ text j := fun h => absurd (text_bytes j 10 h) (by decide)

/-! ## A cut text -/

/-- A read that stops where the text does. -/
def Spent (r : Option (Json × Str)) : Prop := ∀ v t, r = some (v, t) → t = []

theorem Spent.none : Spent none := fun v t h => by cases h

theorem take_append_lt {α : Type} {a : List α} (b : List α) {n : Nat} (h : n ≤ a.length) : (a ++ b).take n = a.take n :=
  List.take_append_of_le_length h

theorem take_append_ge {α : Type} {a : List α} (b : List α) {n : Nat} (h : a.length ≤ n) :
    (a ++ b).take n = a ++ b.take (n - a.length) := by
  rw [List.take_append, List.take_of_length_le h]

theorem escape_cut (c : UInt8) {n : Nat} (h : n < (escape c).length) : unquote ((escape c).take n) = none := by
  rcases escape_cases c with ⟨d, he⟩ | ⟨a, b, he⟩ | he
  · rw [he] at h ⊢
    have hn : n < 2 := h
    interval_cases n <;> rfl
  · rw [he] at h ⊢
    have hn : n < 6 := h
    interval_cases n <;> rfl
  · rw [he] at h ⊢
    have hn : n < 1 := h
    interval_cases n
    rfl

/-- A string that was cut before its closing quote. -/
theorem unquote_cut (s : Str) : ∀ {n : Nat}, n ≤ (s.flatMap escape).length →
    unquote ((s.flatMap escape).take n) = none := by
  induction s with
  | nil => intro n _; rw [List.flatMap_nil, List.take_nil]; rfl
  | cons c s ih =>
    intro n h
    rw [List.flatMap_cons, List.length_append] at h
    rw [List.flatMap_cons]
    by_cases hn : n < (escape c).length
    · rw [take_append_lt _ (Nat.le_of_lt hn)]
      exact escape_cut c hn
    · rw [take_append_ge _ (by omega), unquote_escape, ih (by omega)]
      rfl

/-- A cut string with its quote and what follows it. -/
theorem unquote_take (k t : Str) (n : Nat) : unquote ((k.flatMap escape ++ 34 :: t).take n) = none ∨
    ∃ m, n = (k.flatMap escape).length + 1 + m ∧ unquote ((k.flatMap escape ++ 34 :: t).take n) = some (k, t.take m) := by
  by_cases hn : n ≤ (k.flatMap escape).length
  · rw [take_append_lt _ hn]
    exact Or.inl (unquote_cut k hn)
  · obtain ⟨m, rfl⟩ : ∃ m, n = (k.flatMap escape).length + 1 + m := ⟨n - ((k.flatMap escape).length + 1), by omega⟩
    refine Or.inr ⟨m, rfl, ?_⟩
    rw [take_append_ge _ (by omega), show (k.flatMap escape).length + 1 + m - (k.flatMap escape).length = m + 1 by omega,
      List.take_succ_cons, unquote_quote]

/-- The bytes of a number, up to a cut. -/
theorem number_cut {sgn ds tail : Str} (hsgn : sgn = [] ∨ sgn = [ch '-']) (hds : ∀ c ∈ ds, isDigit c = true)
    (htail : tail = [] ∨ ∃ u, tail = ch 'e' :: u ∧ ∀ c ∈ u.drop 1, isDigit c = true) (hempty : ds = [] → tail = []) :
    Spent (number (sgn ++ ds ++ tail)) := by
  have hneg : (if byte (sgn ++ ds ++ tail) 0 = ch '-' then (sgn ++ ds ++ tail).drop 1 else sgn ++ ds ++ tail) = ds ++ tail := by
    rcases hsgn with rfl | rfl
    · refine if_neg fun h => ?_
      cases ds with
      | nil =>
        rw [hempty rfl] at h
        exact absurd h (by decide)
      | cons c ds =>
        have hc : c = ch '-' := h
        have := hds c List.mem_cons_self
        rw [hc] at this
        exact absurd this (by decide)
    · exact if_pos rfl
  have htake : (ds ++ tail).takeWhile isDigit = ds ∧ (ds ++ tail).dropWhile isDigit = tail := by
    rw [List.takeWhile_append_of_pos hds, List.dropWhile_append_of_pos hds]
    rcases htail with rfl | ⟨u, rfl, -⟩
    · exact ⟨List.append_nil _, rfl⟩
    · exact ⟨List.append_nil _, rfl⟩
  intro v t h
  simp only [number, hneg, htake.1, htake.2] at h
  split at h
  · cases h
  rcases htail with rfl | ⟨u, rfl, hu⟩
  · rw [if_neg (by decide)] at h
    cases h
    rfl
  · have he : byte (ch 'e' :: u) 0 = ch 'e' := rfl
    rw [if_pos he] at h
    obtain ⟨-, rfl⟩ := Prod.mk.inj (Option.some.inj h)
    exact List.dropWhile_eq_nil_iff.mpr hu

/-- What a value is read off when it starts with none of the brackets. -/
theorem value_plain {s : Str} (f : Nat) (h : byte s 0 ≠ 34 ∧ byte s 0 ≠ ch '[' ∧ byte s 0 ≠ ch '\x7b') :
    value (f + 1) s = literal s := by
  simp only [value]
  rw [if_neg h.1, if_neg h.2.1, if_neg h.2.2]

theorem byte_take (s : Str) (n : Nat) : byte (s.take (n + 1)) 0 = byte s 0 := by
  cases s <;> rfl

theorem literal_number {s : Str} (h : byte s 0 ≠ ch 'n' ∧ byte s 0 ≠ ch 't' ∧ byte s 0 ≠ ch 'f') :
    literal s = number s := by
  have hword : ∀ {c : UInt8} {p : Str}, byte s 0 ≠ c → startsWith s (c :: p) = false := by
    intro c p hc
    by_contra hp
    obtain ⟨r, rfl⟩ := List.isPrefixOf_iff_prefix.mp (Bool.not_eq_false _ ▸ hp)
    exact hc rfl
  unfold literal
  rw [show lit "null" = ch 'n' :: lit "ull" by decide, show lit "true" = ch 't' :: lit "rue" by decide,
    show lit "false" = ch 'f' :: lit "alse" by decide, hword h.1, hword h.2.1, hword h.2.2]
  rfl

theorem byte_numText_take (m : Int) (e n : Nat) {c : UInt8} (hc : c ≠ ch '-') (hdigit : isDigit c = false) :
    byte ((numText m e).take (n + 1)) 0 ≠ c := by
  have hfirst := numText_first m e []
  rw [List.append_nil] at hfirst
  rw [byte_take]
  intro h
  rw [h] at hfirst
  rcases hfirst with h | h
  · exact hc h
  · rw [h] at hdigit
    cases hdigit

/-- A cut number. -/
theorem numText_cut (m : Int) (e n f : Nat) : Spent (value f ((numText m e).take n)) := by
  cases f with
  | zero => exact Spent.none
  | succ f =>
  cases n with
  | zero =>
    rw [List.take_zero]
    exact Spent.none
  | succ n =>
    have hne := @byte_numText_take m e n
    rw [value_plain f ⟨hne (by decide) (by decide), hne (by decide) (by decide), hne (by decide) (by decide)⟩,
      literal_number ⟨hne (by decide) (by decide), hne (by decide) (by decide), hne (by decide) (by decide)⟩]
    have hdigits : ∀ d : Nat, ∀ c ∈ decimal d, isDigit c = true := fun d => decimalAux_digits d d
    unfold numText
    rw [List.take_append, List.take_append]
    refine number_cut ?_ (fun c hc => hdigits _ c (List.mem_of_mem_take hc)) ?_ ?_
    · by_cases hm : m < 0
      · rw [if_pos hm]
        exact Or.inr (List.take_of_length_le (Nat.succ_le_succ (Nat.zero_le n)))
      · rw [if_neg hm]
        exact Or.inl rfl
    · by_cases he : e = 0
      · rw [if_pos he]
        exact Or.inl List.take_nil
      · rw [if_neg he]
        cases n + 1 - ((if m < 0 then [ch '-'] else []) ++ decimal m.natAbs).length with
        | zero => exact Or.inl rfl
        | succ k =>
          refine Or.inr ⟨(ch '-' :: decimal e).take k, rfl, fun c hc => ?_⟩
          cases k with
          | zero => cases hc
          | succ k => exact hdigits e c (List.mem_of_mem_take hc)
    · intro hnil
      have hlen := congrArg List.length hnil
      rw [List.length_take] at hlen
      have hpos := List.length_pos_of_ne_nil (decimal_ne_nil m.natAbs)
      have hzero : n + 1 - ((if m < 0 then [ch '-'] else []) ++ decimal m.natAbs).length = 0 := by
        rw [List.length_append]
        have : (([] : Str)).length = 0 := rfl
        omega
      rw [hzero, List.take_zero]

theorem literal_cut (f : Nat) {s : Str} (h : s = lit "null" ∨ s = lit "true" ∨ s = lit "false") {n : Nat}
    (hn : n < s.length) : Spent (value f (s.take n)) := by
  have hnone : ∀ {p : Str}, byte p 0 ≠ 34 ∧ byte p 0 ≠ ch '[' ∧ byte p 0 ≠ ch '\x7b' → literal p = none →
      Spent (value f p) := by
    intro p hp hlit
    cases f with
    | zero => exact Spent.none
    | succ f =>
      rw [value_plain f hp, hlit]
      exact Spent.none
  rcases h with rfl | rfl | rfl
  · have hn : n < 4 := hn
    interval_cases n <;> exact hnone (by decide) (by decide)
  · have hn : n < 4 := hn
    interval_cases n <;> exact hnone (by decide) (by decide)
  · have hn : n < 5 := hn
    interval_cases n <;> exact hnone (by decide) (by decide)

theorem ends_take_elems (xs : List Json) (n : Nat) : Ends ((elems xs).take n) := by
  cases n with
  | zero => exact ⟨rfl, show (0 : UInt8) ≠ ch 'e' by decide⟩
  | succ n => cases xs <;> exact ⟨rfl, by simp [elems, byte, ch]⟩

theorem ends_take_members (kvs : List (Str × Json)) (n : Nat) : Ends ((members kvs).take n) := by
  cases n with
  | zero => exact ⟨rfl, show (0 : UInt8) ≠ ch 'e' by decide⟩
  | succ n => cases kvs <;> exact ⟨rfl, by simp [members, byte, ch]⟩

/-! ### One step of a read -/

theorem value_nil (f : Nat) : value f [] = none := by
  cases f <;> rfl

theorem value_quoted (f : Nat) (t : Str) : value (f + 1) (34 :: t) = (unquote t).map fun r => (.str r.1, r.2) := by
  simp only [value]
  exact if_pos rfl

theorem value_bracket (f : Nat) {t : Str} (h : byte t 0 ≠ ch ']') : value (f + 1) (ch '[' :: t) =
    (value f t).bind fun x => (elemsOf f x.2).map fun xs => (.arr (x.1 :: xs.1), xs.2) := by
  have h0 : byte (ch '[' :: t) 0 = ch '[' := rfl
  simp only [value]
  rw [if_neg (by rw [h0]; decide), if_pos h0]
  exact if_neg h

theorem value_brace (f : Nat) (t : Str) : value (f + 1) (ch '\x7b' :: 34 :: t) =
    (unquote t).bind fun k => (value f (k.2.drop 1)).bind fun v =>
      (membersOf f v.2).map fun kvs => (.obj ((k.1, v.1) :: kvs.1), kvs.2) := by
  have h0 : byte (ch '\x7b' :: 34 :: t) 0 = ch '\x7b' := rfl
  have h1 : byte ((ch '\x7b' :: 34 :: t).drop 1) 0 ≠ ch '\x7d' := by
    show (34 : UInt8) ≠ ch '\x7d'
    decide
  simp only [value]
  rw [if_neg (by rw [h0]; decide), if_neg (by rw [h0]; decide), if_pos h0, if_neg h1]
  rfl

theorem elemsOf_comma (f : Nat) (t : Str) : elemsOf (f + 1) (ch ',' :: t) =
    (value f t).bind fun x => (elemsOf f x.2).map fun xs => (x.1 :: xs.1, xs.2) := by
  simp only [elemsOf]
  exact if_pos rfl

theorem membersOf_comma (f : Nat) (t : Str) : membersOf (f + 1) (ch ',' :: 34 :: t) =
    (unquote t).bind fun k => (value f (k.2.drop 1)).bind fun v =>
      (membersOf f v.2).map fun kvs => ((k.1, v.1) :: kvs.1, kvs.2) := by
  simp only [membersOf]
  exact if_pos rfl

theorem elemsOf_nil (f : Nat) : elemsOf f [] = none := by
  cases f <;> rfl

theorem membersOf_nil (f : Nat) : membersOf f [] = none := by
  cases f <;> rfl

theorem elems_ne_nil (xs : List Json) : 0 < (elems xs).length := by
  cases xs <;> exact Nat.succ_pos _

theorem members_ne_nil (kvs : List (Str × Json)) : 0 < (members kvs).length := by
  cases kvs <;> exact Nat.succ_pos _

/-- A value and what follows it, cut: what is left behind the value is cut. -/
theorem take_value {j : Json} {rest : Str} {n f : Nat} (hends : ∀ m, Ends (rest.take m)) (hf : n ≤ f)
    (hn : n < (text j ++ rest).length) (hpos : 0 < rest.length)
    (hcut : ∀ m < (text j).length, m ≤ f → Spent (value f ((text j).take m))) {v : Json} {t : Str}
    (h : value f ((text j ++ rest).take n) = some (v, t)) : ∃ m, t = rest.take m ∧ m ≤ n ∧ m < rest.length := by
  by_cases hlt : n < (text j).length
  · rw [take_append_lt _ (Nat.le_of_lt hlt)] at h
    rw [hcut n hlt hf v t h]
    exact ⟨0, rfl, Nat.zero_le _, hpos⟩
  · obtain ⟨m, rfl⟩ : ∃ m, n = (text j).length + m := ⟨n - (text j).length, by omega⟩
    rw [take_append_ge _ (by omega), Nat.add_sub_cancel_left, value_text j f _ (hends m) (by omega)] at h
    obtain ⟨-, rfl⟩ := Prod.mk.inj (Option.some.inj h)
    rw [List.length_append] at hn
    exact ⟨m, rfl, by omega, by omega⟩

/-- A key, its colon and what follows them, cut. -/
theorem take_key {k rest : Str} {n : Nat} (hn : n < (k.flatMap escape ++ 34 :: ch ':' :: rest).length)
    (hpos : 0 < rest.length) {l t : Str} (h : unquote ((k.flatMap escape ++ 34 :: ch ':' :: rest).take n) = some (l, t)) :
    ∃ m, t.drop 1 = rest.take m ∧ m ≤ n ∧ m < rest.length := by
  rcases unquote_take k (ch ':' :: rest) n with hnone | ⟨m, rfl, hsome⟩
  · rw [hnone] at h
    cases h
  · rw [hsome] at h
    obtain ⟨-, rfl⟩ := Prod.mk.inj (Option.some.inj h)
    rw [List.length_append, List.length_cons, List.length_cons] at hn
    cases m with
    | zero => exact ⟨0, rfl, Nat.zero_le _, hpos⟩
    | succ m => exact ⟨m, rfl, by omega, by omega⟩

theorem bind_none_of {α β : Type} {r : Option (α × Str)} {k : α × Str → Option β}
    (h : ∀ v t, r = some (v, t) → k (v, t) = none) : r.bind k = none := by
  cases r with
  | none => rfl
  | some x => exact h x.1 x.2 rfl

mutual

/-- A cut text reads as nothing, or as a number and nothing behind it. -/
theorem value_cut : ∀ (j : Json) (n f : Nat), n < (text j).length → n ≤ f → Spent (value f ((text j).take n))
  | j, 0, f, _, _ => by
    rw [List.take_zero, value_nil]
    exact Spent.none
  | j, n + 1, 0, _, hf => absurd hf (by omega)
  | .null, n + 1, f + 1, hn, _ => literal_cut (f + 1) (Or.inl rfl) hn
  | .bool true, n + 1, f + 1, hn, _ => literal_cut (f + 1) (Or.inr (Or.inl rfl)) hn
  | .bool false, n + 1, f + 1, hn, _ => literal_cut (f + 1) (Or.inr (Or.inr rfl)) hn
  | .num m e, n + 1, f + 1, _, _ => numText_cut m e (n + 1) (f + 1)
  | .str s, n + 1, f + 1, hn, _ => by
    simp only [text, quote, List.length_cons, List.length_append, List.length_nil] at hn
    have htake : (s.flatMap escape ++ [34]).take n = (s.flatMap escape).take n := take_append_lt _ (by omega)
    have hnone := unquote_cut s (n := n) (by omega)
    simp only [text, quote]
    rw [List.take_succ_cons, htake, value_quoted, hnone]
    exact Spent.none
  | .arr xs, n + 1, f + 1, hn, hf => by
    rw [arr_cut xs (n + 1) (f + 1) hn hf]
    exact Spent.none
  | .obj kvs, n + 1, f + 1, hn, hf => by
    rw [obj_cut kvs (n + 1) (f + 1) hn hf]
    exact Spent.none

theorem arr_cut : ∀ (xs : List Json) (n f : Nat), n < (text (.arr xs)).length → n ≤ f →
    value f ((text (.arr xs)).take n) = none
  | xs, 0, f, _, _ => by rw [List.take_zero, value_nil]
  | xs, n + 1, 0, _, hf => absurd hf (by omega)
  | [], n + 1, f + 1, hn, _ => by
    have hn : n = 0 := by simp only [text, List.length_cons, List.length_nil] at hn; omega
    rw [hn]
    exact congrArg (Option.bind · _) (value_nil f)
  | x :: xs, n + 1, f + 1, hn, hf => by
    simp only [text, List.length_cons] at hn
    have hne : byte ((text x ++ elems xs).take n) 0 ≠ ch ']' := by
      cases n with
      | zero => exact show (0 : UInt8) ≠ ch ']' by decide
      | succ n =>
        rw [byte_take]
        exact (text_first x (elems xs)).1
    simp only [text]
    rw [List.take_succ_cons, value_bracket f hne]
    refine bind_none_of fun v t h => ?_
    obtain ⟨m, rfl, hm, hlt⟩ := take_value (ends_take_elems xs) (by omega) (by omega) (elems_ne_nil xs)
      (fun m hm hf => value_cut x m f hm hf) h
    rw [elemsOf_cut xs m f hlt (by omega)]
    rfl

theorem obj_cut : ∀ (kvs : List (Str × Json)) (n f : Nat), n < (text (.obj kvs)).length → n ≤ f →
    value f ((text (.obj kvs)).take n) = none
  | kvs, 0, f, _, _ => by rw [List.take_zero, value_nil]
  | kvs, n + 1, 0, _, hf => absurd hf (by omega)
  | [], n + 1, f + 1, hn, _ => by
    have hn : n = 0 := by simp only [text, List.length_cons, List.length_nil] at hn; omega
    rw [hn]
    rfl
  | (k, v) :: kvs, 1, f + 1, _, _ => rfl
  | (k, v) :: kvs, n + 2, f + 1, hn, hf => by
    simp only [text, quote, List.cons_append, List.append_assoc, List.nil_append, List.length_cons] at hn
    simp only [text, quote, List.cons_append, List.append_assoc, List.nil_append]
    rw [List.take_succ_cons, List.take_succ_cons, value_brace]
    refine bind_none_of fun l t h => ?_
    obtain ⟨m, hm, hmn, hlt⟩ := take_key (by simpa using hn) (by simp [members_ne_nil]) h
    refine bind_none_of fun w u h => ?_
    simp only [hm] at h
    obtain ⟨m', rfl, hm', hlt'⟩ := take_value (ends_take_members kvs) (by omega) hlt (members_ne_nil kvs)
      (fun m hm hf => value_cut v m f hm hf) h
    rw [membersOf_cut kvs m' f hlt' (by omega)]
    rfl

theorem elemsOf_cut : ∀ (xs : List Json) (n f : Nat), n < (elems xs).length → n ≤ f →
    elemsOf f ((elems xs).take n) = none
  | xs, 0, f, _, _ => by rw [List.take_zero, elemsOf_nil]
  | xs, n + 1, 0, _, hf => absurd hf (by omega)
  | [], n + 1, f + 1, hn, _ => absurd hn (by simp [elems])
  | x :: xs, n + 1, f + 1, hn, hf => by
    simp only [elems, List.length_cons] at hn
    simp only [elems]
    rw [List.take_succ_cons, elemsOf_comma]
    refine bind_none_of fun v t h => ?_
    obtain ⟨m, rfl, hm, hlt⟩ := take_value (ends_take_elems xs) (by omega) (by omega) (elems_ne_nil xs)
      (fun m hm hf => value_cut x m f hm hf) h
    rw [elemsOf_cut xs m f hlt (by omega)]
    rfl

theorem membersOf_cut : ∀ (kvs : List (Str × Json)) (n f : Nat), n < (members kvs).length → n ≤ f →
    membersOf f ((members kvs).take n) = none
  | kvs, 0, f, _, _ => by rw [List.take_zero, membersOf_nil]
  | kvs, n + 1, 0, _, hf => absurd hf (by omega)
  | [], n + 1, f + 1, hn, _ => absurd hn (by simp [members])
  | (k, v) :: kvs, 1, f + 1, _, _ => rfl
  | (k, v) :: kvs, n + 2, f + 1, hn, hf => by
    simp only [members, quote, List.cons_append, List.append_assoc, List.nil_append, List.length_cons] at hn
    simp only [members, quote, List.cons_append, List.append_assoc, List.nil_append]
    rw [List.take_succ_cons, List.take_succ_cons, membersOf_comma]
    refine bind_none_of fun l t h => ?_
    obtain ⟨m, hm, hmn, hlt⟩ := take_key (by simpa using hn) (by simp [members_ne_nil]) h
    refine bind_none_of fun w u h => ?_
    simp only [hm] at h
    obtain ⟨m', rfl, hm', hlt'⟩ := take_value (ends_take_members kvs) (by omega) hlt (members_ne_nil kvs)
      (fun m hm hf => value_cut v m f hm hf) h
    rw [membersOf_cut kvs m' f hlt' (by omega)]
    rfl

end

/-- A cut object is no value. -/
theorem parse_cut (kvs : List (Str × Json)) (n : Nat) (h : n < (text (.obj kvs)).length) :
    parse ((text (.obj kvs)).take n) = none := by
  unfold parse
  rw [List.length_take, Nat.min_eq_left (Nat.le_of_lt h), obj_cut kvs n n h (Nat.le_refl n)]
  rfl

end JsonText

def CJsonLines.compact : CJsonLines where
  toCJson := CJson.compact
  print_line := JsonText.text_line
  parse_cut := JsonText.parse_cut

end Shclaw
