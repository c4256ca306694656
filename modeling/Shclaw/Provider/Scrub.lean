/-
  Shclaw.Provider.Scrub — `utf8_scrub` (`src/util.c`), on a request before it is sent.

  The loop runs in the string's memory, and fails where it would read behind the NUL.
  `scrub` is what it leaves, byte by byte: a byte that no character starts with becomes
  a `?`, and the next one is looked at.

  `scrub_exact`: the loop ends with a text of the same length, the one it was given if
  that was valid. A request is printed by `JsonText.text`, which writes ASCII outside
  its strings, as `cJSON_PrintUnformatted` does.
-/

import Mathlib.Data.Bool.AllAny
import Mathlib.Data.List.Forall2
import Shclaw.JsonLines
import Shclaw.Lib.Utf8Valid

namespace Shclaw.Provider

open Lib JsonText

/-! ## The loop -/

/-- No overlong forms, surrogates or code points past U+10FFFF. -/
def secondOk (n : Nat) (c x : UInt8) : Bool :=
  if n = 2 then !(c = 0xE0 && x < 0xA0) && !(c = 0xED && x > 0x9F)
  else if n = 3 then !(c = 0xF0 && x < 0x90) && !(c = 0xF4 && x > 0x8F)
  else true

/-- The loop over `p[1]` to `p[n]`: it ends at the first that is no continuation byte. -/
def tailsOk (mem : Str) (p : Nat) : Nat → Option Bool
  | 0 => some true
  | n + 1 => do
    let x ← mem[p]?
    if isCont x then tailsOk mem (p + 1) n else some false

/-- The continuation bytes of the character at `p`, when there is one. -/
def charAt (mem : Str) (p : Nat) (c : UInt8) : Option (Option Nat) :=
  match trailing c with
  | none => some none
  | some n => do
    let ok ← tailsOk mem (p + 1) n
    if ok ∧ (n = 2 ∨ n = 3) then
      let x ← mem[p + 1]?
      some (if secondOk n c x then some n else none)
    else some (if ok then some n else none)

def scrubLoop : Nat → Str → Nat → Option Str
  | 0, _, _ => none
  | turns + 1, mem, p => do
    let c ← mem[p]?
    if c = 0 then some mem
    else
      match ← charAt mem p c with
      | none => scrubLoop turns (mem.set p (ch '?')) (p + 1)
      | some n => scrubLoop turns mem (p + (n + 1))

/-- The memory of `s` after the call. -/
def utf8Scrub (s : Str) : Option Str := scrubLoop (s.length + 1) (s ++ [0]) 0

/-! ## What it leaves -/

/-- The continuation bytes of the character that starts with `c`. -/
def charTail (c : UInt8) (t : Str) : Option Nat :=
  (trailing c).filter fun n => n ≤ (t.takeWhile isCont).length && secondOk n c (byte t 0)

/-- With `n` bytes of a character to come. -/
def scrubFrom : Nat → Str → Str
  | _, [] => []
  | n + 1, c :: t => c :: scrubFrom n t
  | 0, c :: t =>
    match charTail c t with
    | some n => c :: scrubFrom n t
    | none => ch '?' :: scrubFrom 0 t

def scrub (s : Str) : Str := scrubFrom 0 s

theorem scrubFrom_eq {n : Nat} {t : Str} (h : n ≤ t.length) : scrubFrom n t = t.take n ++ scrub (t.drop n) := by
  induction n generalizing t with
  | zero => rfl
  | succ n ih =>
    cases t with
    | nil => cases h
    | cons c t =>
      rw [scrubFrom, ih (Nat.le_of_succ_le_succ h)]
      rfl

/-! ## Characters -/

theorem secondOk_two {c x : UInt8} : secondOk 2 c x = true ↔ (c = 0xE0 → 0xA0 ≤ x) ∧ (c = 0xED → x ≤ 0x9F) := by
  simp [secondOk, imp_iff_not_or]

theorem secondOk_three {c x : UInt8} : secondOk 3 c x = true ↔ (c = 0xF0 → 0x90 ≤ x) ∧ (c = 0xF4 → x ≤ 0x8F) := by
  simp [secondOk, imp_iff_not_or]

theorem charTail_eq_some {c : UInt8} {t : Str} {n : Nat} : charTail c t = some n ↔
    trailing c = some n ∧ n ≤ (t.takeWhile isCont).length ∧ secondOk n c (byte t 0) = true := by
  unfold charTail
  rw [Option.filter_eq_some_iff]
  simp

/-- The bytes of a character are taken for one, whatever follows. -/
theorem charTail_of_isChar {c : UInt8} {conts : Str} (h : IsChar (c :: conts)) (rest : Str) :
    charTail c (conts ++ rest) = some conts.length := by
  refine charTail_eq_some.mpr ⟨h.trailing, ?_⟩
  cases h with
  | one => exact ⟨Nat.zero_le _, rfl⟩
  | two ha hb => exact ⟨by simp [hb], rfl⟩
  | three ha hb hc hshort hsurrogate => exact ⟨by simp [hb, hc], secondOk_two.mpr ⟨hshort, hsurrogate⟩⟩
  | four ha hb hc hd hshort hlast => exact ⟨by simp [hb, hc, hd], secondOk_three.mpr ⟨hshort, hlast⟩⟩

theorem takeWhile_split {p : UInt8 → Bool} {t : Str} {n : Nat} (h : n ≤ (t.takeWhile p).length) :
    n ≤ t.length ∧ ∀ x ∈ t.take n, p x = true := by
  have hpre := List.takeWhile_prefix p (l := t)
  have hin : t.take n <+: t.takeWhile p :=
    List.prefix_of_prefix_length_le (List.take_prefix n t) hpre ((List.length_take_le n t).trans h)
  exact ⟨h.trans hpre.length_le, fun x hx => List.all_eq_true.mp List.all_takeWhile x (hin.subset hx)⟩

/-- What is taken for a character is one. -/
theorem isChar_of_charTail {c : UInt8} {t : Str} {n : Nat} (h : charTail c t = some n) :
    n ≤ t.length ∧ IsChar (c :: t.take n) := by
  obtain ⟨hlead, htails, hsecond⟩ := charTail_eq_some.mp h
  obtain ⟨hlen, hcont⟩ := takeWhile_split htails
  refine ⟨hlen, ?_⟩
  obtain ⟨hzero, hone, htwo, hthree, hfour⟩ := lead_trailing c
  have hn := hfour n hlead
  obtain rfl | rfl | rfl | rfl : n = 0 ∨ n = 1 ∨ n = 2 ∨ n = 3 := by omega
  · exact .one (hzero hlead)
  · rcases t with _ | ⟨x, t⟩
    · cases hlen
    · exact .two (hone hlead) (hcont x List.mem_cons_self)
  · rcases t with _ | ⟨x, _ | ⟨y, t⟩⟩
    · cases hlen
    · simp at hlen
    · obtain ⟨hshort, hsurrogate⟩ := secondOk_two.mp hsecond
      exact .three (htwo hlead) (hcont x (by simp)) (hcont y (by simp)) hshort hsurrogate
  · rcases t with _ | ⟨x, _ | ⟨y, _ | ⟨z, t⟩⟩⟩
    · cases hlen
    · simp at hlen
    · simp at hlen
    · obtain ⟨hshort, hlast⟩ := secondOk_three.mp hsecond
      exact .four (hthree hlead) (hcont x (by simp)) (hcont y (by simp)) (hcont z (by simp)) hshort hlast

/-! ## One step -/

@[simp] theorem scrub_nil : scrub [] = [] := rfl

theorem scrub_char {bs : Str} (h : IsChar bs) (rest : Str) : scrub (bs ++ rest) = bs ++ scrub rest := by
  cases bs with
  | nil => cases h
  | cons c conts =>
    rw [scrub, List.cons_append, scrubFrom, charTail_of_isChar h]
    simp only
    rw [scrubFrom_eq (by simp), List.take_left, List.drop_left, List.cons_append]

theorem scrub_bad {c : UInt8} {t : Str} (h : charTail c t = none) : scrub (c :: t) = ch '?' :: scrub t := by
  rw [scrub, scrubFrom, h]
  rfl

/-- A byte that is changed is no ASCII. -/
theorem high_of_bad {c : UInt8} {t : Str} (h : charTail c t = none) : 0x80 ≤ c := by
  by_contra hlow
  have hchar : charTail c ([] ++ t) = some 0 := charTail_of_isChar (.one (UInt8.not_le.mp hlow)) t
  rw [List.nil_append, h] at hchar
  cases hchar

/-- Along the loop: the end, a character, or a byte that starts none. -/
theorem scrub_induction {P : Str → Prop} (nil : P []) (char : ∀ bs rest, IsChar bs → P rest → P (bs ++ rest))
    (bad : ∀ c t, charTail c t = none → P t → P (c :: t)) (s : Str) : P s := by
  induction hn : s.length using Nat.strongRecOn generalizing s with
  | ind n ih =>
    cases s with
    | nil => exact nil
    | cons c t =>
      rw [List.length_cons] at hn
      cases htail : charTail c t with
      | none => exact bad c t htail (ih t.length (by omega) t rfl)
      | some k =>
        obtain ⟨hlen, hchar⟩ := isChar_of_charTail htail
        have hrest := ih (t.drop k).length (by rw [List.length_drop]; omega) (t.drop k) rfl
        have := char _ _ hchar hrest
        rwa [List.cons_append, List.take_append_drop] at this

/-! ## The whole string -/

theorem scrub_bytes (s : Str) : List.Forall₂ (fun c d => d = c ∨ d = ch '?' ∧ 0x80 ≤ c) s (scrub s) := by
  induction s using scrub_induction with
  | nil => exact .nil
  | char bs rest h ih =>
    rw [scrub_char h]
    exact List.rel_append (List.forall₂_same.mpr fun _ _ => .inl rfl) ih
  | bad c t h ih =>
    rw [scrub_bad h]
    exact .cons (.inr ⟨rfl, high_of_bad h⟩) ih

theorem scrub_valid (s : Str) : Valid (scrub s) := by
  induction s using scrub_induction with
  | nil => exact valid_nil
  | char bs rest h ih =>
    rw [scrub_char h]
    exact h.valid.append ih
  | bad c t h ih =>
    rw [scrub_bad h]
    exact (IsChar.one (by decide)).valid.append ih

theorem scrub_of_valid {s : Str} (h : Valid s) : scrub s = s := by
  obtain ⟨cs, rfl⟩ := h
  induction cs with
  | nil => rfl
  | cons x cs ih => rw [encode_cons, scrub_char (isChar_encodeChar x), ih]

/-! ## The loop computes it -/

theorem tailsOk_eq (pre t : Str) (n : Nat) :
    tailsOk (pre ++ (t ++ [0])) pre.length n = some (n ≤ (t.takeWhile isCont).length : Bool) := by
  induction n generalizing pre t with
  | zero => simp [tailsOk]
  | succ n ih =>
    cases t with
    | nil => simp [tailsOk, isCont]
    | cons x t =>
      have hget : (pre ++ (x :: t ++ [0]))[pre.length]? = some x := by simp
      have hnext := ih (pre ++ [x]) t
      rw [List.append_assoc, List.length_append, List.length_singleton] at hnext
      rw [tailsOk, hget, Option.bind_eq_bind, Option.bind_some]
      by_cases hx : isCont x = true
      · rw [if_pos hx, List.takeWhile_cons_of_pos hx, List.length_cons]
        simpa using hnext
      · rw [if_neg hx, List.takeWhile_cons_of_neg hx]
        simp

theorem charAt_eq (pre : Str) (c : UInt8) (t : Str) :
    charAt (pre ++ (c :: t ++ [0])) pre.length c = some (charTail c t) := by
  unfold charAt charTail
  cases trailing c with
  | none => rfl
  | some n =>
    have htails := tailsOk_eq (pre ++ [c]) t n
    rw [List.append_assoc, List.length_append, List.length_singleton, List.singleton_append, ← List.cons_append] at htails
    have hget : (pre ++ (c :: t ++ [0]))[pre.length + 1]? = some (byte t 0) := by
      cases t <;> simp [byte]
    simp only [htails, hget, Option.bind_eq_bind, Option.bind_some, decide_eq_true_eq, Option.filter_some]
    by_cases hlen : n ≤ (t.takeWhile isCont).length
    · by_cases hn : n = 2 ∨ n = 3
      · simp [hlen, hn]
      · have hsecond : secondOk n c (byte t 0) = true := by
          rw [not_or] at hn
          simp [secondOk, hn]
        simp [hlen, hn, hsecond]
    · simp [hlen]

theorem scrubLoop_eq (pre s : Str) (turns : Nat) (hs : ∀ c ∈ s, c ≠ 0) (hturns : s.length < turns) :
    scrubLoop turns (pre ++ (s ++ [0])) pre.length = some (pre ++ (scrub s ++ [0])) := by
  induction turns generalizing pre s with
  | zero => cases hturns
  | succ turns ih =>
    cases s with
    | nil => simp [scrubLoop]
    | cons c t =>
      have hc := hs c List.mem_cons_self
      have ht : ∀ x ∈ t, x ≠ 0 := fun x hx => hs x (List.mem_cons_of_mem c hx)
      have hget : (pre ++ (c :: t ++ [0]))[pre.length]? = some c := by simp
      rw [List.length_cons] at hturns
      rw [scrubLoop, hget, Option.bind_eq_bind, Option.bind_some, if_neg hc, charAt_eq,
        Option.bind_eq_bind, Option.bind_some]
      cases htail : charTail c t with
      | none =>
        have hset : (pre ++ (c :: t ++ [0])).set pre.length (ch '?') = pre ++ [ch '?'] ++ (t ++ [0]) := by simp
        have hnext := ih (pre ++ [ch '?']) t ht (by omega)
        rw [List.length_append, List.length_singleton] at hnext
        rw [scrub_bad htail]
        simp only
        rw [hset, hnext, List.append_assoc]
        rfl
      | some n =>
        obtain ⟨hlen, hchar⟩ := isChar_of_charTail htail
        have hsplit : c :: t = c :: t.take n ++ t.drop n := by rw [List.cons_append, List.take_append_drop]
        have hnext := ih (pre ++ (c :: t.take n)) (t.drop n) (fun x hx => ht x (List.mem_of_mem_drop hx)) (by
          rw [List.length_drop]
          omega)
        rw [List.length_append, List.length_cons, List.length_take, Nat.min_eq_left hlen] at hnext
        simp only
        rw [hsplit, scrub_char hchar, List.append_assoc, List.append_assoc, ← List.append_assoc pre, hnext,
          List.append_assoc]

/-- No read is behind the NUL. -/
theorem utf8Scrub_eq {s : Str} (hs : ∀ c ∈ s, c ≠ 0) : utf8Scrub s = some (scrub s ++ [0]) :=
  scrubLoop_eq [] s (s.length + 1) hs (Nat.lt_succ_self _)

/-! ## Serialized JSON -/

mutual

/-- A value with its strings and keys scrubbed. -/
def scrubStrings : Json → Json
  | .str s => .str (scrub s)
  | .arr xs => .arr (scrubElems xs)
  | .obj kvs => .obj (scrubMembers kvs)
  | .null => .null
  | .bool b => .bool b
  | .num m e => .num m e

def scrubElems : List Json → List Json
  | [] => []
  | x :: xs => scrubStrings x :: scrubElems xs

def scrubMembers : List (Str × Json) → List (Str × Json)
  | [] => []
  | (k, v) :: kvs => (scrub k, scrubStrings v) :: scrubMembers kvs

end

/-- Scrubbed on its own, whatever follows. -/
def Scrubs (a b : Str) : Prop := ∀ tail, scrub (a ++ tail) = b ++ scrub tail

theorem Scrubs.append {a b a' b' : Str} (h : Scrubs a b) (h' : Scrubs a' b') : Scrubs (a ++ a') (b ++ b') := by
  intro tail
  rw [List.append_assoc, h, h', List.append_assoc]

theorem Scrubs.ascii {a : Str} (h : a.all (· < 0x80) = true) : Scrubs a a := by
  rw [List.all_eq_true] at h
  intro tail
  induction a with
  | nil => rfl
  | cons c a ih =>
    have hc : c < 0x80 := of_decide_eq_true (h c List.mem_cons_self)
    have hrest := ih fun x hx => h x (List.mem_cons_of_mem c hx)
    have hchar := scrub_char (.one hc) (a ++ tail)
    rw [hrest] at hchar
    exact hchar

theorem escape_bytes : ∀ c : UInt8, (c < 0x80 → (escape c).all (· < 0x80) = true) ∧ (0x80 ≤ c → escape c = [c]) ∧
    (escape c).head?.map isCont = some (isCont c) :=
  forall_byte (by decide +kernel)

/-- Only the continuation bytes behind it count. -/
theorem charTail_congr {t t' : Str} (h : t.takeWhile isCont = t'.takeWhile isCont) (c : UInt8) :
    charTail c t = charTail c t' := by
  have hfirst : ∀ u : Str, 0 < (u.takeWhile isCont).length → byte u 0 = byte (u.takeWhile isCont) 0 := by
    intro u hu
    cases u with
    | nil => rfl
    | cons x u =>
      by_cases hx : isCont x = true
      · rw [List.takeWhile_cons_of_pos hx]
        rfl
      · simp [hx] at hu
  apply Option.ext
  intro n
  simp only [charTail_eq_some, h]
  apply and_congr_right'
  apply and_congr_right
  intro hn
  cases n with
  | zero => rfl
  | succ n => rw [hfirst t (by rw [h]; omega), hfirst t' (by omega), h]

theorem takeWhile_escape (s tail : Str) : (s.flatMap escape ++ 34 :: tail).takeWhile isCont = s.takeWhile isCont := by
  induction s with
  | nil => rfl
  | cons c s ih =>
    obtain ⟨-, hhigh, hhead⟩ := escape_bytes c
    by_cases hc : isCont c = true
    · have h80 : 0x80 ≤ c := ((isCont_iff c).mp hc).1
      rw [List.flatMap_cons, hhigh h80, List.takeWhile_cons_of_pos hc, ← ih]
      simp [hc]
    · cases hesc : escape c with
      | nil => simp [hesc] at hhead
      | cons d ds =>
        rw [hesc] at hhead
        have hd : ¬ isCont d = true := by
          rw [Option.some.inj hhead]
          exact hc
        rw [List.flatMap_cons, hesc, List.takeWhile_cons_of_neg hc]
        simp [hd]

theorem scrub_quoted (s tail : Str) :
    scrub (s.flatMap escape ++ 34 :: tail) = (scrub s).flatMap escape ++ 34 :: scrub tail := by
  induction s using scrub_induction with
  | nil => exact scrub_char (.one (by decide)) tail
  | char bs rest h ih =>
    rw [scrub_char h, List.flatMap_append, List.flatMap_append, List.append_assoc, List.append_assoc, ← ih]
    rcases h.high with ⟨c, rfl, hc⟩ | hhigh
    · rw [List.flatMap_singleton]
      exact Scrubs.ascii ((escape_bytes c).1 hc) _
    · have hself : bs.flatMap escape = bs := by
        rw [List.flatMap_congr fun c hc => (escape_bytes c).2.1 (hhigh c hc)]
        simp
      rw [hself]
      exact scrub_char h _
  | bad c t h ih =>
    have hbad : charTail c (t.flatMap escape ++ 34 :: tail) = none := by
      rw [charTail_congr (takeWhile_escape t tail), h]
    have hmark : escape (ch '?') = [ch '?'] := by decide
    rw [scrub_bad h, List.flatMap_cons, List.flatMap_cons, (escape_bytes c).2.1 (high_of_bad h), hmark,
      List.singleton_append, List.singleton_append, List.cons_append, List.cons_append, scrub_bad hbad, ih]

theorem Scrubs.quote (s : Str) : Scrubs (quote s) (quote (scrub s)) := by
  intro tail
  unfold JsonText.quote
  have hfirst := scrub_char (.one (show (34 : UInt8) < 0x80 by decide)) (s.flatMap escape ++ 34 :: tail)
  rw [scrub_quoted] at hfirst
  simpa using hfirst

theorem Scrubs.digits {s : Str} (h : ∀ c ∈ s, isDigit c = true) : Scrubs s s := by
  apply Scrubs.ascii
  rw [List.all_eq_true]
  intro c hc
  exact forall_byte (P := fun c => isDigit c = true → decide (c < 0x80) = true) (by decide +kernel) c (h c hc)

theorem Scrubs.numText (m : Int) (e : Nat) : Scrubs (numText m e) (numText m e) := by
  unfold JsonText.numText
  apply Scrubs.append
  · apply Scrubs.append
    · split
      · exact .ascii (by decide)
      · exact .ascii rfl
    · exact .digits (decimalAux_digits _ _)
  · split
    · exact .ascii rfl
    · exact Scrubs.append (a := [ch 'e', ch '-']) (.ascii (by decide)) (.digits (decimalAux_digits _ _))

mutual

theorem scrubs_text : ∀ j : Json, Scrubs (text j) (text (scrubStrings j))
  | .null => .ascii (by decide)
  | .bool true => .ascii (by decide)
  | .bool false => .ascii (by decide)
  | .num m e => .numText m e
  | .str s => .quote s
  | .arr [] => .ascii (by decide)
  | .arr (x :: xs) =>
    have hmark : Scrubs [ch '['] [ch '['] := .ascii (by decide)
    hmark.append ((scrubs_text x).append (scrubs_elems xs))
  | .obj [] => .ascii (by decide)
  | .obj ((k, v) :: kvs) =>
    have hmark : Scrubs [ch '{'] [ch '{'] := .ascii (by decide)
    have hkey : Scrubs [ch ':'] [ch ':'] := .ascii (by decide)
    hmark.append ((Scrubs.quote k).append (hkey.append ((scrubs_text v).append (scrubs_members kvs))))

theorem scrubs_elems : ∀ xs : List Json, Scrubs (elems xs) (elems (scrubElems xs))
  | [] => .ascii (by decide)
  | x :: xs =>
    have hmark : Scrubs [ch ','] [ch ','] := .ascii (by decide)
    hmark.append ((scrubs_text x).append (scrubs_elems xs))

theorem scrubs_members : ∀ kvs : List (Str × Json), Scrubs (members kvs) (members (scrubMembers kvs))
  | [] => .ascii (by decide)
  | (k, v) :: kvs =>
    have hmark : Scrubs [ch ','] [ch ','] := .ascii (by decide)
    have hkey : Scrubs [ch ':'] [ch ':'] := .ascii (by decide)
    hmark.append ((Scrubs.quote k).append (hkey.append ((scrubs_text v).append (scrubs_members kvs))))

end

/-! ## A request -/

/-- What the call makes of a string. -/
structure Scrubbed (s out : Str) : Prop where
  length : out.length = s.length
  bytes : List.Forall₂ (fun c d => d = c ∨ d = ch '?' ∧ 0x80 ≤ c) s out
  kept : Valid s → out = s
  valid : Valid out

theorem scrub_nul {s : Str} (hs : ∀ c ∈ s, c ≠ 0) : ∀ c ∈ scrub s, c ≠ 0 := by
  have hbytes := scrub_bytes s
  generalize scrub s = out at hbytes
  induction hbytes with
  | nil => exact List.forall_mem_nil _
  | @cons c d s out h _ ih =>
    rw [List.forall_mem_cons] at hs ⊢
    refine ⟨?_, ih hs.2⟩
    rcases h with rfl | ⟨rfl, -⟩
    · exact hs.1
    · decide

/-- Every string becomes a text, once and for all, with no read behind its NUL; serialized
    JSON becomes that of the same value with its strings scrubbed. -/
theorem scrub_exact (s : Str) (hs : ∀ c ∈ s, c ≠ 0) :
    (∃ out, utf8Scrub s = some (out ++ [0]) ∧ Scrubbed s out ∧ utf8Scrub out = some (out ++ [0])) ∧
      ∀ j : Json, utf8Scrub (text j) = some (text (scrubStrings j) ++ [0]) := by
  constructor
  · have hbytes := scrub_bytes s
    refine ⟨scrub s, utf8Scrub_eq hs, ⟨hbytes.length_eq.symm, hbytes, scrub_of_valid, scrub_valid s⟩, ?_⟩
    rw [utf8Scrub_eq (scrub_nul hs), scrub_of_valid (scrub_valid s)]
  · intro j
    have hnul : ∀ c ∈ text j, c ≠ 0 := by
      rintro c hc rfl
      exact absurd (text_bytes j 0 hc) (by decide)
    have htext := scrubs_text j []
    rw [List.append_nil, scrub_nil, List.append_nil] at htext
    rw [utf8Scrub_eq hnul, htext]

/-- `a`, and a euro sign cut behind its second byte. -/
theorem scrub_exact_cut : utf8Scrub [0x61, 0xE2, 0x82] = some [0x61, 0x3F, 0x3F, 0] ∧
    ∃ out, utf8Scrub [0x61, 0xE2, 0x82] = some (out ++ [0]) ∧ Scrubbed [0x61, 0xE2, 0x82] out ∧
      utf8Scrub out = some (out ++ [0]) :=
  ⟨by decide, (scrub_exact [0x61, 0xE2, 0x82] (List.all_iff_forall_prop.mp (by decide))).1⟩

end Shclaw.Provider
