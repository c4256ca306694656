/-
  Shclaw.Lib.CString — NUL-terminated byte strings and the libc calls on them.

  A string is the list of its bytes before the NUL. `strcmp(a, b) == 0` is equality;
  `strcasecmp` compares in the C locale (ASCII letters only). A fixed-size field or
  buffer written by `snprintf(buf, sz, "%s", s)` holds the first `sz - 1` bytes
  (`cut`). A pointer into a string is the suffix it points at, so `strstr` and
  `strchr` return suffixes and pointer arithmetic is `drop`.
-/

import Mathlib.Data.List.Basic
import Mathlib.Data.List.Infix
import Mathlib.Tactic.IntervalCases

namespace Shclaw.Lib

abbrev Str := List UInt8

instance : LawfulBEq Str := inferInstance

/-- The bytes of a literal of the source text (UTF-8). -/
def lit (s : String) : Str := s.toList.flatMap String.utf8EncodeChar

/-- `tolower` in the C locale. -/
def toLower (c : UInt8) : UInt8 := if 65 ≤ c ∧ c ≤ 90 then c + 32 else c

/-- `strcasecmp(a, b) == 0`. -/
def strcaseeq (a b : Str) : Bool := a.map toLower == b.map toLower

/-- `strncmp(s, p, strlen(p)) == 0`. -/
def startsWith (s p : Str) : Bool := p.isPrefixOf s

/-- `snprintf(buf, sz, "%s", s)`: what a buffer of `sz` bytes holds. -/
def cut (sz : Nat) (s : Str) : Str := s.take (sz - 1)

/-- What is read of a buffer as a string. -/
def cstr (buf : Str) : Str := buf.takeWhile (· ≠ 0)

def strchr (s : Str) (c : UInt8) : Option Str :=
  match s with
  | [] => none
  | x :: t => if x = c then some (x :: t) else strchr t c

def strstr (s p : Str) : Option Str :=
  if p.isPrefixOf s then some s
  else match s with
    | [] => none
    | _ :: t => strstr t p

/-- A `size_t` as an `int`. -/
def asInt (n : Nat) : Int := (BitVec.ofNat 32 n).toInt

/-- A character constant. -/
def ch (c : Char) : UInt8 := UInt8.ofNat c.toNat

/-- `p[i]`: the NUL at the end of the string. -/
def byte (p : Str) (i : Nat) : UInt8 := p.getD i 0

def isDigit (c : UInt8) : Bool := 48 ≤ c && c ≤ 57

/-- `c - '0'`. -/
def digitVal (c : UInt8) : Int := (c.toNat : Int) - 48

def digit (n : Nat) : UInt8 := UInt8.ofNat (48 + n)

def decimalAux : Nat → Nat → Str
  | 0, n => [digit (n % 10)]
  | fuel + 1, n => if n < 10 then [digit n] else decimalAux fuel (n / 10) ++ [digit (n % 10)]

/-- `%d` of a natural number. -/
def decimal (n : Nat) : Str := decimalAux n n

/-- `%0wd` of a natural number. -/
def padded : Nat → Nat → Str
  | 0, n => if n = 0 then [] else decimal n
  | w + 1, n => padded w (n / 10) ++ [digit (n % 10)]

/-- `%0wd`. -/
def paddedInt (w : Nat) (n : Int) : Str :=
  if n < 0 then ch '-' :: padded (w - 1) n.natAbs else padded w n.toNat

/-! ## Literals -/

/-- The length of a literal, without its bytes. -/
theorem length_lit (s : String) : (lit s).length = s.utf8ByteSize := by
  have h : s.toByteArray = s.toList.utf8Encode := by
    conv_lhs => rw [← String.ofList_toList (s := s)]
    rfl
  unfold lit String.utf8ByteSize
  rw [h, List.utf8Encode]
  simp

/-! ## Bytes by position -/

theorem byte_drop (p : Str) (n i : Nat) : byte (p.drop n) i = byte p (n + i) := by
  simp only [byte, List.getD_eq_getElem?_getD, List.getElem?_drop]

/-- A text that starts with a byte. -/
theorem cons_of_byte {p : Str} {c : UInt8} (h : byte p 0 = c) (hc : c ≠ 0) : p = c :: p.drop 1 := by
  cases p with
  | nil => exact absurd h.symm hc
  | cons d t => exact congrArg (· :: t) h

/-- A byte that is none is behind the string. -/
theorem lt_of_byte {p : Str} {i : Nat} (h : byte p i ≠ 0) : i < p.length := by
  by_contra hle
  apply h
  unfold byte
  rw [List.getD_eq_getElem?_getD, List.getElem?_eq_none (by omega)]
  rfl

/-- A string in a buffer, a NUL behind its bytes. -/
theorem cstr_of_take {mem text : Str} (h : mem.take (text.length + 1) = text ++ [0]) : cstr mem = cstr text := by
  have hsplit : mem = text ++ 0 :: mem.drop (text.length + 1) := by
    conv_lhs => rw [← List.take_append_drop (text.length + 1) mem, h, List.append_assoc]
    rfl
  unfold cstr
  rw [hsplit]
  generalize mem.drop (text.length + 1) = rest
  clear h hsplit
  induction text with
  | nil => rfl
  | cons c text ih => rw [List.cons_append, List.takeWhile_cons, List.takeWhile_cons, ih]

/-! ## Comparison up to case -/

@[simp] theorem strcaseeq_refl (a : Str) : strcaseeq a a = true := by simp [strcaseeq]

theorem strcaseeq_comm (a b : Str) : strcaseeq a b = strcaseeq b a := by
  simp only [strcaseeq]
  exact Bool.beq_comm

theorem strcaseeq_trans {a b c : Str} (h : strcaseeq a b = true) (h' : strcaseeq b c = true) :
    strcaseeq a c = true := by
  simp only [strcaseeq, beq_iff_eq] at h h' ⊢
  exact h.trans h'

/-! ## Searching -/

/-- `strstr` finds a text that stands somewhere in the string. -/
theorem strstr_isSome {s p : Str} : (strstr s p).isSome = true ↔ p <:+: s := by
  induction s with
  | nil =>
    unfold strstr
    by_cases h : p.isPrefixOf [] = true
    · rw [if_pos h]
      exact iff_of_true rfl (List.isPrefixOf_iff_prefix.mp h).isInfix
    · rw [if_neg h]
      refine iff_of_false (by simp) fun hin => h ?_
      rw [List.infix_nil.mp hin]
      rfl
  | cons c t ih =>
    unfold strstr
    rw [List.infix_cons_iff, ← ih]
    by_cases h : p.isPrefixOf (c :: t) = true
    · rw [if_pos h]
      exact iff_of_true rfl (Or.inl (List.isPrefixOf_iff_prefix.mp h))
    · rw [if_neg h]
      exact ⟨Or.inr, fun hin => hin.resolve_left fun hpre => h (List.isPrefixOf_iff_prefix.mpr hpre)⟩

theorem strstr_eq_some {s p t : Str} (h : strstr s p = some t) : ∃ a b, s = a ++ t ∧ t = p ++ b := by
  have hfirst : ∀ u : Str, p.isPrefixOf u = true → ∃ b, u = p ++ b := by
    intro u hpre
    obtain ⟨b, hb⟩ := List.isPrefixOf_iff_prefix.mp hpre
    exact ⟨b, hb.symm⟩
  induction s with
  | nil =>
    unfold strstr at h
    split at h
    · rename_i hpre
      cases h
      obtain ⟨b, hb⟩ := hfirst _ hpre
      exact ⟨[], b, rfl, hb⟩
    · cases h
  | cons c s ih =>
    unfold strstr at h
    split at h
    · rename_i hpre
      cases h
      obtain ⟨b, hb⟩ := hfirst _ hpre
      exact ⟨[], b, rfl, hb⟩
    · obtain ⟨a, b, hs, ht⟩ := ih h
      exact ⟨c :: a, b, by rw [hs]; rfl, ht⟩

/-- What follows the text that is found has no say in where it is found. -/
theorem strstr_append {a p b : Str} (h : strstr (a ++ (p ++ b)) p = some (p ++ b)) (b' : Str) :
    strstr (a ++ (p ++ b')) p = some (p ++ b') := by
  have hhere : ∀ (u b : Str), p.isPrefixOf (u ++ (p ++ b)) = true ↔ p <+: u ++ p := by
    intro u b
    rw [List.isPrefixOf_iff_prefix, ← List.append_assoc]
    refine ⟨fun hpre => List.prefix_of_prefix_length_le hpre (List.prefix_append _ _) ?_, fun hpre => hpre.trans (List.prefix_append _ _)⟩
    rw [List.length_append]
    omega
  induction a with
  | nil =>
    unfold strstr
    rw [if_pos ((hhere [] b').mpr (List.prefix_refl p))]
    rfl
  | cons c a ih =>
    rw [List.cons_append] at h
    unfold strstr at h ⊢
    rw [← List.cons_append] at h
    by_cases hpre : p <+: (c :: a) ++ p
    · rw [if_pos ((hhere (c :: a) b).mpr hpre)] at h
      have := congrArg List.length (Option.some.inj h)
      rw [List.length_append, List.length_cons] at this
      omega
    · rw [if_neg fun hfound => hpre ((hhere (c :: a) b).mp hfound)] at h
      rw [if_neg fun hfound => hpre ((hhere (c :: a) b').mp hfound)]
      exact ih h

/-- What starts with a byte it has nowhere else is found where it first stands. -/
theorem strstr_after {a p : Str} {c : UInt8} (hc : c ∉ p) (ha : ¬ c :: p <:+: a) (b : Str) :
    strstr (a ++ (c :: p ++ b)) (c :: p) = some (c :: p ++ b) := by
  induction a with
  | nil =>
    unfold strstr
    rw [List.nil_append, if_pos (List.isPrefixOf_iff_prefix.mpr (List.prefix_append _ _))]
  | cons x a ih =>
    have hnot : ¬ (c :: p).isPrefixOf (x :: a ++ (c :: p ++ b)) = true := by
      intro hpre
      obtain ⟨t, ht⟩ := List.isPrefixOf_iff_prefix.mp hpre
      rcases List.append_eq_append_iff.mp ht with ⟨q, hq, -⟩ | ⟨q, hq, hrest⟩
      · exact ha (by rw [hq]; exact (List.prefix_append _ q).isInfix)
      · -- a part of it behind `x :: a` would start with its first byte
        cases q with
        | nil => exact ha (by rw [hq, List.append_nil])
        | cons d q =>
          rw [List.cons_append] at hq hrest
          obtain ⟨-, hp⟩ := List.cons.inj hq
          obtain ⟨hd, -⟩ := List.cons.inj hrest
          exact hc (by rw [hp, hd]; exact List.mem_append_right _ List.mem_cons_self)
    rw [List.cons_append] at hnot ⊢
    unfold strstr
    rw [if_neg hnot]
    exact ih fun hin => ha (hin.trans (List.suffix_cons x a).isInfix)

/-- What stands in a string has a first place there. -/
theorem exists_first {p s : Str} (hp : p ≠ []) (h : p <:+: s) : ∃ a b, s = a ++ (p ++ b) ∧ ¬ p <:+: a := by
  induction s with
  | nil => exact absurd (List.infix_nil.mp h) hp
  | cons x s ih =>
    by_cases hpre : p <+: x :: s
    · obtain ⟨b, hb⟩ := hpre
      exact ⟨[], b, hb.symm, fun hin => hp (List.infix_nil.mp hin)⟩
    · rcases List.infix_cons_iff.mp h with h | h
      · exact absurd h hpre
      obtain ⟨a, b, hs, ha⟩ := ih h
      refine ⟨x :: a, b, by rw [hs]; rfl, fun hin => ?_⟩
      rcases List.infix_cons_iff.mp hin with hin | hin
      · exact hpre (hin.trans ⟨p ++ b, by rw [hs]; rfl⟩)
      · exact ha hin

/-- `strchr` finds the first one. -/
theorem strchr_append {a : Str} {x : UInt8} (h : ∀ c ∈ a, c ≠ x) (t : Str) : strchr (a ++ x :: t) x = some (x :: t) := by
  induction a with
  | nil => exact if_pos rfl
  | cons c a ih =>
    rw [List.cons_append]
    unfold strchr
    rw [if_neg (h c List.mem_cons_self)]
    exact ih fun d hd => h d (List.mem_cons_of_mem _ hd)

theorem strchr_eq_some {s t : Str} {x : UInt8} (h : strchr s x = some t) :
    ∃ a v, s = a ++ x :: v ∧ t = x :: v ∧ ∀ c ∈ a, c ≠ x := by
  induction s with
  | nil => cases h
  | cons c s ih =>
    unfold strchr at h
    split at h
    · rename_i hc
      cases h
      exact ⟨[], s, by rw [hc]; rfl, by rw [hc], by simp⟩
    · rename_i hc
      obtain ⟨a, v, hs, ht, ha⟩ := ih h
      exact ⟨c :: a, v, by rw [hs]; rfl, ht, by simpa using ⟨hc, ha⟩⟩

/-! ## Lengths -/

/-- A length that an `int` holds. -/
theorem asInt_eq {n : Nat} (h : n < 2 ^ 31) : asInt n = n := by
  unfold asInt
  rw [BitVec.toInt_eq_toNat_of_lt (by rw [BitVec.toNat_ofNat]; omega), BitVec.toNat_ofNat]
  omega

theorem asInt_lt (n : Nat) : asInt n < 2 ^ 31 := by
  have := @BitVec.toInt_lt 32 (BitVec.ofNat 32 n)
  unfold asInt
  omega

/-! ## Fixed-size fields -/

theorem length_cut_le (sz : Nat) (s : Str) : (cut sz s).length ≤ sz - 1 := by
  simp only [cut, List.length_take]
  omega

/-- A field keeps exactly the strings shorter than it. -/
theorem cut_eq_self {sz : Nat} {s : Str} (hsz : 0 < sz) : cut sz s = s ↔ s.length < sz := by
  simp only [cut, List.take_eq_self_iff]
  omega

@[simp] theorem cut_cut (sz : Nat) (s : Str) : cut sz (cut sz s) = cut sz s := by
  simp [cut, List.take_take]

/-! ## Digits -/

theorem isDigit_digit {n : Nat} (h : n < 10) : isDigit (digit n) = true := by
  interval_cases n <;> rfl

theorem digitVal_digit {n : Nat} (h : n < 10) : digitVal (digit n) = n := by
  interval_cases n <;> rfl

theorem decimalAux_digits : ∀ (fuel n : Nat), ∀ c ∈ decimalAux fuel n, isDigit c = true := by
  intro fuel
  induction fuel with
  | zero =>
    intro n c hc
    simp only [decimalAux, List.mem_singleton] at hc
    exact hc ▸ isDigit_digit (by omega)
  | succ fuel ih =>
    intro n c hc
    simp only [decimalAux] at hc
    split at hc
    · simp only [List.mem_singleton] at hc
      exact hc ▸ isDigit_digit ‹_›
    · rcases List.mem_append.mp hc with hc | hc
      · exact ih _ c hc
      · simp only [List.mem_singleton] at hc
        exact hc ▸ isDigit_digit (by omega)

/-- As many rounds as the number are enough. -/
theorem decimalAux_eq {n : Nat} : ∀ {a b : Nat}, n ≤ a → n ≤ b → decimalAux a n = decimalAux b n := by
  induction n using Nat.strongRecOn with
  | ind n ih =>
    intro a b ha hb
    by_cases hn : n < 10
    · have hlast : ∀ fuel, decimalAux fuel n = [digit n] := by
        intro fuel
        cases fuel with
        | zero => rw [decimalAux, Nat.mod_eq_of_lt hn]
        | succ fuel => rw [decimalAux, if_pos hn]
      rw [hlast, hlast]
    · obtain ⟨a, rfl⟩ := Nat.exists_eq_succ_of_ne_zero (show a ≠ 0 by omega)
      obtain ⟨b, rfl⟩ := Nat.exists_eq_succ_of_ne_zero (show b ≠ 0 by omega)
      have hrest : decimalAux a (n / 10) = decimalAux b (n / 10) := ih (n / 10) (by omega) (by omega) (by omega)
      rw [decimalAux, decimalAux, if_neg hn, if_neg hn, hrest]

/-- `%01d` is `%d`. -/
theorem padded_one (n : Nat) : padded 1 n = decimal n := by
  rw [padded, padded]
  by_cases hn : n < 10
  · have hdigit : decimal n = [digit n] := by
      unfold decimal
      cases n with
      | zero => rfl
      | succ n => rw [decimalAux, if_pos hn]
    rw [if_pos (by omega), Nat.mod_eq_of_lt hn, hdigit, List.nil_append]
  · obtain ⟨m, rfl⟩ := Nat.exists_eq_succ_of_ne_zero (show n ≠ 0 by omega)
    have hrest : decimalAux ((m + 1) / 10) ((m + 1) / 10) = decimalAux m ((m + 1) / 10) :=
      decimalAux_eq (Nat.le_refl _) (by omega)
    rw [if_neg (by omega), decimal, decimal, decimalAux, if_neg hn, hrest]

theorem decimal_ne_nil (n : Nat) : decimal n ≠ [] := by
  unfold decimal
  cases n with
  | zero => simp [decimalAux]
  | succ n => simp only [decimalAux]; split <;> simp

theorem length_decimalAux_le (fuel : Nat) {n w : Nat} (hn : n < 10 ^ (w + 1)) :
    (decimalAux fuel n).length ≤ w + 1 := by
  induction fuel generalizing n w with
  | zero => exact Nat.le_add_left 1 w
  | succ fuel ih =>
    simp only [decimalAux]
    split
    · exact Nat.le_add_left 1 w
    · cases w with
      | zero => omega
      | succ w =>
        have hlen := ih (n := n / 10) (w := w) (by rw [Nat.pow_succ] at hn; omega)
        rw [List.length_append, List.length_singleton]
        omega

theorem length_decimal_le {n w : Nat} (hn : n < 10 ^ (w + 1)) : (decimal n).length ≤ w + 1 :=
  length_decimalAux_le n hn

theorem padded_digits : ∀ (w n : Nat), ∀ c ∈ padded w n, isDigit c = true := by
  intro w
  induction w with
  | zero =>
    intro n c hc
    simp only [padded] at hc
    split at hc
    · cases hc
    · exact decimalAux_digits _ _ c hc
  | succ w ih =>
    intro n c hc
    rcases List.mem_append.mp hc with hc | hc
    · exact ih _ c hc
    · simp only [List.mem_singleton] at hc
      exact hc ▸ isDigit_digit (by omega)

/-- One that does not is wider. -/
theorem lt_length_padded : ∀ (w n : Nat), 10 ^ w ≤ n → w < (padded w n).length := by
  intro w
  induction w with
  | zero =>
    intro n h
    have h0 : n ≠ 0 := by simp at h; omega
    simpa [padded, h0] using List.length_pos_of_ne_nil (decimal_ne_nil n)
  | succ w ih =>
    intro n h
    have : 10 ^ w ≤ n / 10 := by
      rw [Nat.pow_succ] at h
      omega
    have := ih _ this
    simp only [padded, List.length_append, List.length_singleton]
    omega

theorem padded_two {n : Nat} (h : n < 100) : padded 2 n = [digit (n / 10), digit (n % 10)] := by
  have h0 : n / 10 / 10 = 0 := by omega
  have h1 : n / 10 % 10 = n / 10 := by omega
  simp [padded, h0, h1]

theorem padded_four {n : Nat} (h : n < 10000) :
    padded 4 n = [digit (n / 1000), digit (n / 100 % 10), digit (n / 10 % 10), digit (n % 10)] := by
  have h0 : n / 10 / 10 / 10 / 10 = 0 := by omega
  have h1 : n / 10 / 10 / 10 % 10 = n / 1000 := by omega
  have h2 : n / 10 / 10 % 10 = n / 100 % 10 := by omega
  simp [padded, h0, h1, h2]

end Shclaw.Lib
