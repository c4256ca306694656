/-
  Shclaw.JsonText — a JSON text codec: an instance of `CJson`.

  `text` prints a tree without white space, with cJSON's escapes; `value` reads one
  tree off the front of a text. `value_text`: what was printed reads back, whatever
  follows it, unless that continues a number. So the laws of `CJson` are not empty:
  `CJson.compact` satisfies them. (cJSON pads `cJSON_Print` with tabs and newlines and
  prints fractions with a point; both parse back to the same tree.)
-/

import Shclaw.Json

namespace Shclaw

open Lib

namespace JsonText

/-! ## Printing -/

def hexDigit (n : Nat) : UInt8 := if n < 10 then digit n else UInt8.ofNat (87 + n)

/-- `print_string`: one byte. -/
def escape (c : UInt8) : Str :=
  if c = 34 then [92, 34]
  else if c = 92 then [92, 92]
  else if c = 8 then [92, ch 'b']
  else if c = 12 then [92, ch 'f']
  else if c = 10 then [92, ch 'n']
  else if c = 13 then [92, ch 'r']
  else if c = 9 then [92, ch 't']
  else if c < 32 then [92, ch 'u', ch '0', ch '0', hexDigit (c.toNat / 16), hexDigit (c.toNat % 16)]
  else [c]

def quote (s : Str) : Str := 34 :: (s.flatMap escape ++ [34])

def numText (m : Int) (e : Nat) : Str :=
  (if m < 0 then [ch '-'] else []) ++ decimal m.natAbs ++ (if e = 0 then [] else ch 'e' :: ch '-' :: decimal e)

mutual

def text : Json → Str
  | .null => lit "null"
  | .bool true => lit "true"
  | .bool false => lit "false"
  | .num m e => numText m e
  | .str s => quote s
  | .arr [] => [ch '[', ch ']']
  | .arr (x :: xs) => ch '[' :: (text x ++ elems xs)
  | .obj [] => [ch '{', ch '}']
  | .obj ((k, v) :: kvs) => ch '{' :: (quote k ++ ch ':' :: (text v ++ members kvs))

/-- The elements after the first, and the closing bracket. -/
def elems : List Json → Str
  | [] => [ch ']']
  | x :: xs => ch ',' :: (text x ++ elems xs)

def members : List (Str × Json) → Str
  | [] => [ch '}']
  | (k, v) :: kvs => ch ',' :: (quote k ++ ch ':' :: (text v ++ members kvs))

end

/-! ## Reading -/

def hexVal (c : UInt8) : Nat := if isDigit c then c.toNat - 48 else c.toNat - 87

def unescape (c : UInt8) : UInt8 :=
  if c = ch 'b' then 8 else if c = ch 'f' then 12 else if c = ch 'n' then 10 else if c = ch 'r' then 13
  else if c = ch 't' then 9 else c

/-- The rest of a string, after its opening quote. -/
def unquote : Str → Option (Str × Str)
  | [] => none
  | c :: t =>
    if c = 34 then some ([], t)
    else if c = 92 then
      match t with
      | [] => none
      | d :: t =>
        if d = ch 'u' then
          match t with
          | _ :: _ :: h :: l :: t => (unquote t).map fun r => (UInt8.ofNat (16 * hexVal h + hexVal l) :: r.1, r.2)
          | _ => none
        else (unquote t).map fun r => (unescape d :: r.1, r.2)
    else (unquote t).map fun r => (c :: r.1, r.2)

def natVal (ds : Str) : Nat := ds.foldl (fun n c => 10 * n + (c.toNat - 48)) 0

def number (s : Str) : Option (Json × Str) :=
  let neg := byte s 0 = ch '-'
  let s := if neg then s.drop 1 else s
  let ds := s.takeWhile isDigit
  let t := s.dropWhile isDigit
  let m : Int := if neg then -(natVal ds : Int) else natVal ds
  if ds = [] then none
  else if byte t 0 = ch 'e' then
    let t := t.drop 2
    some (.num m (natVal (t.takeWhile isDigit)), t.dropWhile isDigit)
  else some (.num m 0, t)

def literal (s : Str) : Option (Json × Str) :=
  if startsWith s (lit "null") then some (.null, s.drop 4)
  else if startsWith s (lit "true") then some (.bool true, s.drop 4)
  else if startsWith s (lit "false") then some (.bool false, s.drop 5)
  else number s

mutual

def value : Nat → Str → Option (Json × Str)
  | 0, _ => none
  | n + 1, s =>
    let t := s.drop 1
    if byte s 0 = 34 then (unquote t).map fun r => (.str r.1, r.2)
    else if byte s 0 = ch '[' then
      if byte t 0 = ch ']' then some (.arr [], t.drop 1)
      else (value n t).bind fun x => (elemsOf n x.2).map fun xs => (.arr (x.1 :: xs.1), xs.2)
    else if byte s 0 = ch '{' then
      if byte t 0 = ch '}' then some (.obj [], t.drop 1)
      else (unquote (t.drop 1)).bind fun k => (value n (k.2.drop 1)).bind fun v =>
        (membersOf n v.2).map fun kvs => (.obj ((k.1, v.1) :: kvs.1), kvs.2)
    else literal s

def elemsOf : Nat → Str → Option (List Json × Str)
  | 0, _ => none
  | n + 1, s =>
    if byte s 0 = ch ',' then
      (value n (s.drop 1)).bind fun x => (elemsOf n x.2).map fun xs => (x.1 :: xs.1, xs.2)
    else if byte s 0 = ch ']' then some ([], s.drop 1)
    else none

def membersOf : Nat → Str → Option (List (Str × Json) × Str)
  | 0, _ => none
  | n + 1, s =>
    if byte s 0 = ch ',' then
      (unquote (s.drop 2)).bind fun k => (value n (k.2.drop 1)).bind fun v =>
        (membersOf n v.2).map fun kvs => ((k.1, v.1) :: kvs.1, kvs.2)
    else if byte s 0 = ch '}' then some ([], s.drop 1)
    else none

end

/-! ## What was printed reads back -/

theorem unquote_end (t : Str) : unquote (34 :: t) = some ([], t) := by
  rw [unquote.eq_def]
  simp

theorem unquote_plain {c : UInt8} (h1 : c ≠ 34) (h2 : c ≠ 92) (t : Str) :
    unquote (c :: t) = (unquote t).map fun r => (c :: r.1, r.2) := by
  rw [unquote.eq_def]
  simp [h1, h2]

theorem unquote_backslash {d : UInt8} (h : d ≠ ch 'u') (t : Str) :
    unquote (92 :: d :: t) = (unquote t).map fun r => (unescape d :: r.1, r.2) := by
  rw [unquote.eq_def]
  simp [h]

theorem unquote_hex (a b h l : UInt8) (t : Str) : unquote (92 :: ch 'u' :: a :: b :: h :: l :: t) =
    (unquote t).map fun r => (UInt8.ofNat (16 * hexVal h + hexVal l) :: r.1, r.2) := by
  rw [unquote.eq_def]
  simp

theorem hex_byte {c : UInt8} (h : c < 32) :
    UInt8.ofNat (16 * hexVal (hexDigit (c.toNat / 16)) + hexVal (hexDigit (c.toNat % 16))) = c := by
  have key : ∀ n < 32, UInt8.ofNat (16 * hexVal (hexDigit (n / 16)) + hexVal (hexDigit (n % 16))) =
      UInt8.ofNat n := by decide
  rw [key c.toNat (by simpa [UInt8.lt_iff_toNat_lt] using h)]
  simp

theorem unquote_escape (c : UInt8) (t : Str) :
    unquote (escape c ++ t) = (unquote t).map fun r => (c :: r.1, r.2) := by
  unfold escape
  -- the two-byte escapes first, each for its own byte
  iterate 7
    split
    · rename_i h
      subst h
      exact unquote_backslash (by decide) t
  split
  · rename_i h
    simp only [List.cons_append, List.nil_append]
    rw [unquote_hex, hex_byte h]
  · exact unquote_plain ‹_› ‹_› t

theorem unquote_quote (s t : Str) : unquote (s.flatMap escape ++ 34 :: t) = some (s, t) := by
  induction s with
  | nil => exact unquote_end t
  | cons c s ih => simp [unquote_escape, ih]

theorem natVal_append (ds : Str) (c : UInt8) : natVal (ds ++ [c]) = 10 * natVal ds + (c.toNat - 48) := by
  simp [natVal]

theorem digit_toNat {n : Nat} (h : n < 10) : (digit n).toNat - 48 = n := by
  interval_cases n <;> rfl

theorem natVal_decimalAux : ∀ (fuel n : Nat), n ≤ fuel → natVal (decimalAux fuel n) = n := by
  intro fuel
  induction fuel with
  | zero =>
    intro n h
    obtain rfl : n = 0 := by omega
    rfl
  | succ fuel ih =>
    intro n h
    simp only [decimalAux]
    split
    · rename_i hn
      simp [natVal, digit_toNat hn]
    · rw [natVal_append, ih _ (by omega), digit_toNat (by omega)]
      omega

/-- What follows a value does not continue a number. -/
def Ends (t : Str) : Prop := isDigit (byte t 0) = false ∧ byte t 0 ≠ ch 'e'

theorem takeWhile_decimal (n : Nat) {t : Str} (h : isDigit (byte t 0) = false) :
    (decimal n ++ t).takeWhile isDigit = decimal n ∧ (decimal n ++ t).dropWhile isDigit = t := by
  have hd : ∀ c ∈ decimal n, isDigit c = true := decimalAux_digits _ _
  rw [List.takeWhile_append_of_pos hd, List.dropWhile_append_of_pos hd]
  cases t with
  | nil => simp
  | cons c t =>
    have hc : isDigit c = false := h
    simp [hc]

theorem number_numText (m : Int) (e : Nat) {t : Str} (ht : Ends t) :
    number (numText m e ++ t) = some (.num m e, t) := by
  have hexp : isDigit (byte ((if e = 0 then [] else ch 'e' :: ch '-' :: decimal e) ++ t) 0) = false := by
    split
    · exact ht.1
    · rfl
  have hm := takeWhile_decimal m.natAbs hexp
  have hval : natVal (decimal m.natAbs) = m.natAbs := natVal_decimalAux _ _ (Nat.le_refl _)
  have hneg : byte (numText m e ++ t) 0 = ch '-' ↔ m < 0 := by
    unfold numText
    split
    · rename_i h
      exact iff_of_true rfl h
    · rename_i h
      refine iff_of_false ?_ h
      obtain ⟨c, ds, hds⟩ := List.exists_cons_of_ne_nil (decimal_ne_nil m.natAbs)
      have hc : isDigit c = true := decimalAux_digits _ _ c (by rw [← decimal, hds]; simp)
      rw [hds]
      intro heq
      have : c = ch '-' := heq
      rw [this] at hc
      exact absurd hc (by decide)
  have hs : (if byte (numText m e ++ t) 0 = ch '-' then (numText m e ++ t).drop 1 else numText m e ++ t) =
      decimal m.natAbs ++ ((if e = 0 then [] else ch 'e' :: ch '-' :: decimal e) ++ t) := by
    by_cases h : m < 0
    · rw [if_pos (hneg.mpr h)]
      simp [numText, h]
    · rw [if_neg (fun hc => h (hneg.mp hc))]
      simp [numText, h]
  simp only [number, hs, hm.1, hm.2, hval]
  rw [if_neg (decimal_ne_nil _)]
  have hsign : (if byte (numText m e ++ t) 0 = ch '-' then -((m.natAbs : Nat) : Int) else (m.natAbs : Nat)) = m := by
    by_cases h : m < 0
    · rw [if_pos (hneg.mpr h)]; omega
    · rw [if_neg (fun hc => h (hneg.mp hc))]; omega
  rw [hsign]
  by_cases he : e = 0
  · subst he
    simp only [if_true, List.nil_append]
    rw [if_neg ht.2]
  · simp only [he, if_false, List.cons_append, byte, List.getD_cons_zero, if_true, List.drop_succ_cons,
      List.drop_zero]
    have hd := takeWhile_decimal e ht.1
    have hv : natVal (decimal e) = e := natVal_decimalAux _ _ (Nat.le_refl _)
    simp [hd.1, hd.2, hv]

theorem numText_first (m : Int) (e : Nat) (t : Str) :
    byte (numText m e ++ t) 0 = ch '-' ∨ isDigit (byte (numText m e ++ t) 0) = true := by
  unfold numText
  split
  · exact Or.inl rfl
  · obtain ⟨c, ds, hds⟩ := List.exists_cons_of_ne_nil (decimal_ne_nil m.natAbs)
    have hc : isDigit c = true := decimalAux_digits _ _ c (by rw [← decimal, hds]; simp)
    rw [hds]
    exact Or.inr hc

theorem value_numText (m : Int) (e n : Nat) {t : Str} (ht : Ends t) :
    value (n + 1) (numText m e ++ t) = some (.num m e, t) := by
  have hne : ∀ c : UInt8, c ≠ ch '-' → isDigit c = false → byte (numText m e ++ t) 0 ≠ c := by
    rintro c h1 h2 rfl
    rcases numText_first m e t with h | h
    · exact h1 h
    · rw [h] at h2
      cases h2
  have hlit : ∀ (c : Char) (p : Str), ch c ≠ ch '-' → isDigit (ch c) = false →
      startsWith (numText m e ++ t) (ch c :: p) = false := by
    intro c p h1 h2
    by_contra hp
    obtain ⟨r, hr⟩ := List.isPrefixOf_iff_prefix.mp (Bool.not_eq_false _ ▸ hp)
    exact hne _ h1 h2 (by rw [← hr]; rfl)
  simp only [value, literal]
  rw [if_neg (hne _ (by decide) (by decide)), if_neg (hne _ (by decide) (by decide)),
    if_neg (hne _ (by decide) (by decide))]
  have h1 := hlit 'n' (lit "ull") (by decide) (by decide)
  have h2 := hlit 't' (lit "rue") (by decide) (by decide)
  have h3 := hlit 'f' (lit "alse") (by decide) (by decide)
  rw [if_neg (by rw [show lit "null" = ch 'n' :: lit "ull" by decide, h1]; simp),
    if_neg (by rw [show lit "true" = ch 't' :: lit "rue" by decide, h2]; simp),
    if_neg (by rw [show lit "false" = ch 'f' :: lit "alse" by decide, h3]; simp)]
  exact number_numText m e ht

theorem text_first (j : Json) (t : Str) : byte (text j ++ t) 0 ≠ ch ']' ∧ text j ≠ [] := by
  cases j with
  | num m e =>
    refine ⟨?_, by simp [text, numText, decimal_ne_nil]⟩
    intro h
    rcases numText_first m e t with hf | hf
    · rw [text, hf] at h
      exact absurd h (by decide)
    · rw [text, ← Bool.not_eq_false] at *
      rw [h] at hf
      exact hf (by decide)
  | null => exact ⟨show ch 'n' ≠ ch ']' by decide, by decide⟩
  | bool b =>
    cases b with
    | false => exact ⟨show ch 'f' ≠ ch ']' by decide, by decide⟩
    | true => exact ⟨show ch 't' ≠ ch ']' by decide, by decide⟩
  | str s => exact ⟨by simp [text, quote, byte, ch], by simp [text, quote]⟩
  | arr xs => cases xs <;> exact ⟨by simp [text, byte, ch], by simp [text]⟩
  | obj kvs => cases kvs <;> exact ⟨by simp [text, byte, ch], by simp [text]⟩

theorem ends_elems (xs : List Json) (t : Str) : Ends (elems xs ++ t) := by
  cases xs <;> exact ⟨rfl, by simp [elems, byte, ch]⟩

theorem ends_members (kvs : List (Str × Json)) (t : Str) : Ends (members kvs ++ t) := by
  cases kvs <;> exact ⟨rfl, by simp [members, byte, ch]⟩

theorem value_literal (n : Nat) (t : Str) :
    value (n + 1) (lit "null" ++ t) = some (.null, t) ∧ value (n + 1) (lit "true" ++ t) = some (.bool true, t) ∧
      value (n + 1) (lit "false" ++ t) = some (.bool false, t) := by
  refine ⟨?_, ?_, ?_⟩ <;> simp only [value] <;> rfl

theorem value_quote (n : Nat) (s t : Str) : value (n + 1) (quote s ++ t) = some (.str s, t) := by
  simp [value, quote, byte, unquote_quote]

mutual

/-- A printed tree reads back off the front of any text that does not continue a number. -/
theorem value_text : ∀ (j : Json) (n : Nat) (t : Str), Ends t → (text j).length ≤ n →
    value n (text j ++ t) = some (j, t)
  | j, 0, t, _, h => absurd (List.length_eq_zero_iff.mp (by omega)) (text_first j t).2
  | .null, n + 1, t, _, _ => (value_literal n t).1
  | .bool true, n + 1, t, _, _ => (value_literal n t).2.1
  | .bool false, n + 1, t, _, _ => (value_literal n t).2.2
  | .num m e, n + 1, t, ht, _ => value_numText m e n ht
  | .str s, n + 1, t, _, _ => value_quote n s t
  | .arr [], n + 1, t, _, _ => by simp [value, text, byte, ch]
  | .arr (x :: xs), n + 1, t, ht, h => by
    simp only [text, List.length_cons, List.length_append] at h
    have hx := value_text x n (elems xs ++ t) (ends_elems xs t) (by omega)
    have hxs := elemsOf_elems xs n t (by omega)
    have hne := (text_first x (elems xs ++ t)).1
    simp only [text, List.cons_append, List.append_assoc, value, List.drop_succ_cons, List.drop_zero, if_neg hne,
      hx, hxs, Option.bind_some, Option.map_some]
    rfl
  | .obj [], n + 1, t, _, _ => by simp [value, text, byte, ch]
  | .obj ((k, v) :: kvs), n + 1, t, ht, h => by
    simp only [text, List.length_cons, List.length_append] at h
    have hv := value_text v n (members kvs ++ t) (ends_members kvs t) (by omega)
    have hkvs := membersOf_members kvs n t (by omega)
    simp [text, quote, value, byte, ch, unquote_quote, hv, hkvs]

theorem elemsOf_elems : ∀ (xs : List Json) (n : Nat) (t : Str), (elems xs).length ≤ n →
    elemsOf n (elems xs ++ t) = some (xs, t)
  | xs, 0, t, h => by cases xs <;> simp [elems] at h
  | [], n + 1, t, _ => by simp [elems, elemsOf, byte, ch]
  | x :: xs, n + 1, t, h => by
    simp only [elems, List.length_cons, List.length_append] at h
    have hx := value_text x n (elems xs ++ t) (ends_elems xs t) (by omega)
    have hxs := elemsOf_elems xs n t (by omega)
    simp [elems, elemsOf, byte, hx, hxs]

theorem membersOf_members : ∀ (kvs : List (Str × Json)) (n : Nat) (t : Str), (members kvs).length ≤ n →
    membersOf n (members kvs ++ t) = some (kvs, t)
  | kvs, 0, t, h => by cases kvs <;> simp [members] at h
  | [], n + 1, t, _ => by simp [members, membersOf, byte, ch]
  | (k, v) :: kvs, n + 1, t, h => by
    simp only [members, List.length_cons, List.length_append] at h
    have hv := value_text v n (members kvs ++ t) (ends_members kvs t) (by omega)
    have hkvs := membersOf_members kvs n t (by omega)
    simp [members, quote, membersOf, byte, unquote_quote, hv, hkvs]

end

def parse (s : Str) : Option Json := (value s.length s).map (·.1)

theorem value_text_end (j : Json) : value (text j).length (text j) = some (j, []) := by
  have h := value_text j (text j).length [] ⟨rfl, by decide⟩ (Nat.le_refl _)
  rwa [List.append_nil] at h

theorem parse_text (j : Json) : parse (text j) = some j := by
  simp [parse, value_text_end]

/-! ## No string is longer than its text -/

theorem unquote_size {s t rest : Str} (h : unquote s = some (t, rest)) : t.length + rest.length ≤ s.length := by
  induction hn : s.length using Nat.strongRecOn generalizing s t rest with
  | ind n ih =>
    rw [unquote.eq_def] at h
    split at h
    · cases h
    · rename_i c u
      rw [List.length_cons] at hn
      have next : ∀ (v : Str) (d : UInt8), v.length < n → (unquote v).map (fun r => (d :: r.1, r.2)) = some (t, rest) →
          t.length + rest.length ≤ v.length + 1 := by
        intro v d hv hmap
        obtain ⟨r, hr, heq⟩ := Option.map_eq_some_iff.mp hmap
        have := @ih v.length hv v r.1 r.2 hr rfl
        cases heq
        rw [List.length_cons]
        omega
      split at h
      · cases h
        simp only [List.length_nil]
        omega
      split at h
      · split at h
        · cases h
        · rename_i d v
          rw [List.length_cons] at hn
          split at h
          · split at h
            · rename_i w
              simp only [List.length_cons] at hn
              have := next w _ (by omega) h
              omega
            · cases h
          · have := next v _ (by omega) h
            omega
      · have := next u _ (by omega) h
        omega

theorem length_dropWhile_le (f : UInt8 → Bool) (s : Str) : (s.dropWhile f).length ≤ s.length := (List.dropWhile_suffix f).length_le

theorem number_size {s rest : Str} {v : Json} (h : number s = some (v, rest)) : v.textSize + rest.length ≤ s.length := by
  have hdigits : ∀ t : Str, t.length ≤ s.length → (t.dropWhile isDigit).length ≤ s.length :=
    fun t ht => (length_dropWhile_le isDigit t).trans ht
  have hsign : (if byte s 0 = ch '-' then s.drop 1 else s).length ≤ s.length := by
    split
    · rw [List.length_drop]
      omega
    · exact Nat.le_refl _
  unfold number at h
  dsimp only at h
  rw [Option.ite_none_left_eq_some] at h
  generalize (if byte s 0 = ch '-' then s.drop 1 else s) = digits at h hsign
  by_cases hexp : byte (digits.dropWhile isDigit) 0 = ch 'e'
  · rw [if_pos hexp] at h
    cases h.2
    rw [Json.textSize, Nat.zero_add]
    refine hdigits _ ?_
    rw [List.length_drop]
    exact (Nat.sub_le _ _).trans (hdigits _ hsign)
  · rw [if_neg hexp] at h
    cases h.2
    rw [Json.textSize, Nat.zero_add]
    exact hdigits _ hsign

theorem literal_size {s rest : Str} {v : Json} (h : literal s = some (v, rest)) : v.textSize + rest.length ≤ s.length := by
  have hdrop : ∀ k, (s.drop k).length ≤ s.length := fun k => by
    rw [List.length_drop]
    omega
  unfold literal at h
  split at h
  · cases h
    rw [Json.textSize, Nat.zero_add]
    exact hdrop 4
  split at h
  · cases h
    rw [Json.textSize, Nat.zero_add]
    exact hdrop 4
  split at h
  · cases h
    rw [Json.textSize, Nat.zero_add]
    exact hdrop 5
  · exact number_size h

/-- One value, the elements behind one, the members behind one. -/
theorem value_size (n : Nat) :
    (∀ s v rest, value n s = some (v, rest) → v.textSize + rest.length ≤ s.length) ∧
    (∀ s xs rest, elemsOf n s = some (xs, rest) → Json.textSizeArr xs + rest.length ≤ s.length) ∧
    (∀ s kvs rest, membersOf n s = some (kvs, rest) → Json.textSizeObj kvs + rest.length ≤ s.length) := by
  induction n with
  | zero => refine ⟨fun _ _ _ h => ?_, fun _ _ _ h => ?_, fun _ _ _ h => ?_⟩ <;> cases h
  | succ n ih =>
    obtain ⟨hvalue, helems, hmembers⟩ := ih
    refine ⟨fun s v rest h => ?_, fun s xs rest h => ?_, fun s kvs rest h => ?_⟩
    · have hdrop : ∀ (t : Str) (k : Nat), (t.drop k).length ≤ t.length := fun t k => by
        rw [List.length_drop]
        omega
      unfold value at h
      dsimp only at h
      split at h
      · obtain ⟨⟨t, r⟩, hr, h⟩ := Option.map_eq_some_iff.mp h
        cases h
        exact (unquote_size hr).trans (hdrop s 1)
      split at h
      · split at h
        · cases h
          rw [Json.textSize, Json.textSizeArr, Nat.zero_add]
          exact (hdrop _ 1).trans (hdrop s 1)
        · obtain ⟨⟨x, r⟩, hx, h⟩ := Option.bind_eq_some_iff.mp h
          obtain ⟨⟨ys, r'⟩, hys, h⟩ := Option.map_eq_some_iff.mp h
          cases h
          have h1 := (hvalue _ _ _ hx).trans (hdrop s 1)
          have h2 := helems _ _ _ hys
          rw [Json.textSize, Json.textSizeArr]
          dsimp only at *
          omega
      split at h
      · split at h
        · cases h
          rw [Json.textSize, Json.textSizeObj, Nat.zero_add]
          exact (hdrop _ 1).trans (hdrop s 1)
        · obtain ⟨⟨k, r⟩, hk, h⟩ := Option.bind_eq_some_iff.mp h
          obtain ⟨⟨x, r'⟩, hx, h⟩ := Option.bind_eq_some_iff.mp h
          obtain ⟨⟨ys, r''⟩, hys, h⟩ := Option.map_eq_some_iff.mp h
          cases h
          have h1 := (unquote_size hk).trans ((hdrop _ 1).trans (hdrop s 1))
          have h2 := (hvalue _ _ _ hx).trans (hdrop _ 1)
          have h3 := hmembers _ _ _ hys
          rw [Json.textSize, Json.textSizeObj]
          dsimp only at *
          omega
      · exact literal_size h
    · unfold elemsOf at h
      split at h
      · obtain ⟨⟨x, r⟩, hx, h⟩ := Option.bind_eq_some_iff.mp h
        obtain ⟨⟨ys, r'⟩, hys, h⟩ := Option.map_eq_some_iff.mp h
        cases h
        have h1 := hvalue _ _ _ hx
        have h2 := helems _ _ _ hys
        rw [List.length_drop] at h1
        rw [Json.textSizeArr]
        dsimp only at *
        omega
      · split at h
        · cases h
          rw [Json.textSizeArr, List.length_drop]
          omega
        · cases h
    · unfold membersOf at h
      split at h
      · obtain ⟨⟨k, r⟩, hk, h⟩ := Option.bind_eq_some_iff.mp h
        obtain ⟨⟨x, r'⟩, hx, h⟩ := Option.bind_eq_some_iff.mp h
        obtain ⟨⟨ys, r''⟩, hys, h⟩ := Option.map_eq_some_iff.mp h
        cases h
        have h1 := unquote_size hk
        have h2 := hvalue _ _ _ hx
        have h3 := hmembers _ _ _ hys
        rw [List.length_drop] at h1 h2
        rw [Json.textSizeObj]
        dsimp only at *
        omega
      · split at h
        · cases h
          rw [Json.textSizeObj, List.length_drop]
          omega
        · cases h

end JsonText

/-- A parser and printers that satisfy the laws. -/
def CJson.compact : CJson where
  parse := JsonText.parse
  print := JsonText.text
  printFormatted := JsonText.text
  parse_print := JsonText.parse_text
  parse_printFormatted := JsonText.parse_text
  print_arr xs := by cases xs <;> rfl
  print_obj kvs := by cases kvs <;> rfl

def CJsonReader.compact : CJsonReader where
  toCJson := CJson.compact
  value s := JsonText.value s.length s
  parse_value _ := rfl
  value_printFormatted := JsonText.value_text_end

def CJsonSized.compact : CJsonSized where
  toCJson := CJson.compact
  parse_size s v h := by
    obtain ⟨⟨w, rest⟩, hw, rfl⟩ := Option.map_eq_some_iff.mp h
    have := (JsonText.value_size _).1 s w rest hw
    dsimp only
    omega

end Shclaw
