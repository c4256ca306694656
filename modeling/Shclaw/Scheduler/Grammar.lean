/-
  Shclaw.Scheduler.Grammar — the texts of a time and what `sched_parse_time`
  (`src/scheduler.c`) makes of them.

  A `Stamp` is what a text spells: `YYYY-MM-DD`, `T` or a space, `HH:MM`, then a second
  with a fraction, and a zone, all of these optional. It is `Valid` when its fields are
  in range, its day exists and a fraction has digits; `instant` is what it denotes.

  The parser reads the longest stamp a text begins with (`Reading`), in wider ranges
  (`Loose`), and does not look at what follows it. `parse_reading`, `reading_of_parse`:
  its value is the instant of that stamp, and 0 when there is none. So it accepts
  exactly the valid stamps only where no other text begins with one (`accepts_iff`): a
  text with something behind the time, a bare point or colon, an offset out of range or
  a 30th of February is taken for a time, unless its fields denote the epoch.

  `parseChecked` is the parser with every read and every step of its pointer checked
  against the terminating NUL: it never fails (`parseChecked_eq`).
  Trace: half past six in the evening read as half past six in the morning
  (`evening_taken_for_morning`).
-/

import Shclaw.Scheduler.Invariant
import Mathlib.Data.List.TakeWhile

namespace Shclaw.Scheduler

open Lib

/-! ## Texts of a time -/

/-- The part after the minutes or the seconds. -/
inductive Suffix where
  | none
  | utc (upper : Bool)
  /-- The sign, the hours and the minutes, with or without a colon. -/
  | offset (neg : Bool) (hours : Nat) (minutes : Option (Bool × Nat))
  deriving DecidableEq

structure Stamp where
  year : Nat
  mon : Nat
  day : Nat
  /-- A space stands for the `T`. -/
  space : Bool
  hour : Nat
  min : Nat
  /-- The second, and the digits of its fraction. -/
  sec : Option (Nat × Option Str)
  suffix : Suffix
  deriving DecidableEq

/-- The suffix as text, and what follows it. -/
def Suffix.spell : Suffix → Str → Str
  | .none, rest => rest
  | .utc upper, rest => (if upper then ch 'Z' else ch 'z') :: rest
  | .offset neg hours minutes, rest => (if neg then ch '-' else ch '+') :: (padded 2 hours ++
      match minutes with
      | Option.none => rest
      | some (true, m) => ch ':' :: (padded 2 m ++ rest)
      | some (false, m) => padded 2 m ++ rest)

def spellSec : Option (Nat × Option Str) → Str → Str
  | none, rest => rest
  | some (sec, none), rest => ch ':' :: (padded 2 sec ++ rest)
  | some (sec, some digits), rest => ch ':' :: (padded 2 sec ++ ch '.' :: (digits ++ rest))

def spellHead (year mon day : Nat) (space : Bool) (hour min : Nat) (rest : Str) : Str :=
  padded 4 year ++ ch '-' :: (padded 2 mon ++ ch '-' :: (padded 2 day ++ (if space then ch ' ' else ch 'T') ::
    (padded 2 hour ++ ch ':' :: (padded 2 min ++ rest))))

/-- The stamp as text, and what follows it. -/
def Stamp.spell (x : Stamp) (rest : Str) : Str :=
  spellHead x.year x.mon x.day x.space x.hour x.min (spellSec x.sec (x.suffix.spell rest))

/-- The second, 0 when there is none. -/
def secondOf (sec : Option (Nat × Option Str)) : Nat := (sec.map (·.1)).getD 0

def Stamp.tm (x : Stamp) : Tm := ⟨(x.year : Int) - 1900, (x.mon : Int) - 1, x.day, x.hour, x.min, secondOf x.sec⟩

/-- The instant of a broken-down time with a suffix. -/
def Suffix.instant (Z : Zone) (tm : Tm) : Suffix → Int
  | .none => Z.mktime tm
  | .utc _ => timegm tm
  | .offset neg hours minutes =>
    timegm tm - (if neg then -1 else 1) * (hours * 3600 + ((minutes.map (·.2)).getD 0 : Nat) * 60)

def Stamp.instant (Z : Zone) (x : Stamp) : Int := x.suffix.instant Z x.tm

/-! ## The grammar -/

def leap (year : Nat) : Bool := year % 4 = 0 && (year % 100 ≠ 0 || year % 400 = 0)

def daysInMonth (year mon : Nat) : Nat :=
  if mon = 2 then (if leap year then 29 else 28) else if mon = 4 ∨ mon = 6 ∨ mon = 9 ∨ mon = 11 then 30 else 31

/-- Fields of two digits. -/
def Suffix.TwoDigit : Suffix → Prop
  | .offset _ hours minutes => hours < 100 ∧ ∀ m ∈ minutes, m.2 < 100
  | _ => True

def TwoDigitSec : Option (Nat × Option Str) → Prop
  | none => True
  | some (sec, fraction) => sec < 100 ∧ ∀ digits ∈ fraction, ∀ c ∈ digits, isDigit c = true

/-- The ranges the parser checks. -/
structure Stamp.Loose (x : Stamp) : Prop where
  year : x.year < 10000
  mon : 1 ≤ x.mon ∧ x.mon ≤ 12
  day : 1 ≤ x.day ∧ x.day ≤ 31
  hour : x.hour ≤ 23
  min : x.min ≤ 59
  sec : TwoDigitSec x.sec ∧ secondOf x.sec ≤ 60
  suffix : x.suffix.TwoDigit

/-- An offset of hours and minutes. -/
def Suffix.InRange : Suffix → Prop
  | .offset _ hours minutes => hours ≤ 23 ∧ ∀ m ∈ minutes, m.2 ≤ 59
  | _ => True

/-- What the grammar adds: the day exists, a fraction has digits and an offset is in range. -/
structure Stamp.Proper (x : Stamp) : Prop where
  day : x.day ≤ daysInMonth x.year x.mon
  fraction : ∀ sec ∈ x.sec, sec.2 ≠ some []
  suffix : x.suffix.InRange

structure Stamp.Valid (x : Stamp) : Prop where
  loose : x.Loose
  proper : x.Proper

/-- The whole text is a time. -/
def InGrammar (s : Str) : Prop := ∃ x : Stamp, x.Valid ∧ s = x.spell []

/-! ## What the parser reads -/

/-- The suffix goes on as far as it can. -/
def Suffix.Ends : Suffix → Str → Prop
  | .none, rest => byte rest 0 ≠ ch 'Z' ∧ byte rest 0 ≠ ch 'z' ∧ byte rest 0 ≠ ch '+' ∧ byte rest 0 ≠ ch '-'
  | .offset _ _ Option.none, rest => twoDigits (if byte rest 0 = ch ':' then rest.drop 1 else rest) < 0
  | _, _ => True

/-- So do the second and its fraction. -/
def EndsSec : Option (Nat × Option Str) → Str → Prop
  | none, rest => byte rest 0 ≠ ch ':'
  | some (_, none), rest => byte rest 0 ≠ ch '.'
  | some (_, some _), rest => isDigit (byte rest 0) = false

/-- The stamp a text begins with, and what follows it. -/
structure Reading (s : Str) (x : Stamp) (rest : Str) : Prop where
  loose : x.Loose
  text : s = x.spell rest
  sec : EndsSec x.sec (x.suffix.spell rest)
  suffix : x.suffix.Ends rest

/-! ## Fields of two and of four digits -/

theorem digit_of_isDigit {c : UInt8} (h : isDigit c = true) : ∃ n < 10, c = digit n := by
  unfold isDigit at h
  simp only [Bool.and_eq_true, decide_eq_true_eq, UInt8.le_iff_toNat_le] at h
  refine ⟨c.toNat - 48, ?_, ?_⟩
  · have : (57 : UInt8).toNat = 57 := rfl
    omega
  · have : (48 : UInt8).toNat = 48 := rfl
    unfold digit
    rw [show 48 + (c.toNat - 48) = c.toNat by omega, UInt8.ofNat_toNat]

theorem twoDigits_padded {n : Nat} (h : n < 100) (p : Str) : twoDigits (padded 2 n ++ p) = n := by
  rw [padded_two h]
  have hd := twoDigits_digits (a := n / 10) (b := n % 10) (by omega) (by omega) p
  rw [List.cons_append, List.cons_append, List.nil_append, hd]
  omega

/-- Two digits, where there are two. -/
theorem padded_twoDigits {p : Str} (h : ¬ twoDigits p < 0) :
    ∃ n < 100, p = padded 2 n ++ p.drop 2 ∧ twoDigits p = n := by
  have hboth : isDigit (byte p 0) = true ∧ isDigit (byte p 1) = true := by
    by_contra hne
    apply h
    unfold twoDigits
    rw [if_neg (by simpa using hne)]
    decide
  cases p with
  | nil => exact absurd hboth.1 (by decide)
  | cons c p =>
    cases p with
    | nil => exact absurd hboth.2 (by simp [byte]; decide)
    | cons d p =>
      obtain ⟨a, ha, rfl⟩ := digit_of_isDigit hboth.1
      obtain ⟨b, hb, rfl⟩ := digit_of_isDigit hboth.2
      have htext : padded 2 (a * 10 + b) = [digit a, digit b] := by
        rw [padded_two (by omega), show (a * 10 + b) / 10 = a by omega, show (a * 10 + b) % 10 = b by omega]
      refine ⟨a * 10 + b, by omega, ?_, ?_⟩
      · rw [htext]
        rfl
      · rw [twoDigits_digits ha hb]
        omega

theorem readYear_padded {n : Nat} (h : n < 10000) (p : Str) : readYear 4 0 (padded 4 n ++ p) = some ((n : Int), p) := by
  rw [padded_four h]
  have hd := readYear_digits (a := n / 1000) (b := n / 100 % 10) (c := n / 10 % 10) (d := n % 10) (by omega) (by omega)
    (by omega) (by omega) p
  simp only [List.cons_append, List.nil_append]
  rw [hd]
  congr 2
  omega

theorem padded_readYear {s p : Str} {year : Int} (h : readYear 4 0 s = some (year, p)) :
    ∃ n < 10000, s = padded 4 n ++ p ∧ year = n := by
  have hstep : ∀ {n : Nat} {y : Int} {q : Str}, readYear (n + 1) y q = some (year, p) →
      ∃ d < 10, ∃ t, q = digit d :: t ∧ readYear n (y * 10 + d) t = some (year, p) := by
    intro n y q hq
    simp only [readYear] at hq
    split at hq
    · rename_i hdig
      cases q with
      | nil => exact absurd hdig (by decide)
      | cons c q =>
        obtain ⟨d, hd, rfl⟩ := digit_of_isDigit hdig
        rw [byte_cons_zero, digitVal_digit hd] at hq
        exact ⟨d, hd, q, rfl, hq⟩
    · cases hq
  obtain ⟨a, ha, s₁, rfl, h₁⟩ := hstep h
  obtain ⟨b, hb, s₂, rfl, h₂⟩ := hstep h₁
  obtain ⟨c, hc, s₃, rfl, h₃⟩ := hstep h₂
  obtain ⟨d, hd, s₄, rfl, h₄⟩ := hstep h₃
  obtain ⟨rfl, rfl⟩ := Prod.mk.inj (Option.some.inj h₄)
  refine ⟨a * 1000 + b * 100 + c * 10 + d, by omega, ?_, by omega⟩
  rw [padded_four (by omega), show (a * 1000 + b * 100 + c * 10 + d) / 1000 = a by omega,
    show (a * 1000 + b * 100 + c * 10 + d) / 100 % 10 = b by omega,
    show (a * 1000 + b * 100 + c * 10 + d) / 10 % 10 = c by omega,
    show (a * 1000 + b * 100 + c * 10 + d) % 10 = d by omega]
  rfl

/-! ## Seconds -/

/-- A field of two digits is skipped. -/
theorem drop_padded {n : Nat} (h : n < 100) (p : Str) : (padded 2 n ++ p).drop 2 = p := by
  rw [padded_two h]
  rfl

theorem dropWhile_digits {digits q : Str} (hd : ∀ c ∈ digits, isDigit c = true) (hq : isDigit (byte q 0) = false) :
    (digits ++ q).dropWhile isDigit = q := by
  rw [List.dropWhile_append_of_pos hd]
  cases q with
  | nil => rfl
  | cons c q =>
    have hc : isDigit c = false := hq
    rw [List.dropWhile_cons_of_neg (by rw [hc]; decide)]

theorem dropWhile_head (p : Str) : isDigit (byte (p.dropWhile isDigit) 0) = false := by
  have hc := List.head?_dropWhile_not isDigit p
  cases h : p.dropWhile isDigit with
  | nil => rfl
  | cons c t =>
    rw [h] at hc
    simpa using hc

theorem readSeconds_colon {n : Nat} (h : n < 100) (t : Str) : readSeconds (ch ':' :: (padded 2 n ++ t)) =
    some ((n : Int), if byte t 0 = ch '.' then (t.drop 1).dropWhile isDigit else t) := by
  have hcolon : byte (ch ':' :: (padded 2 n ++ t)) 0 = ch ':' := rfl
  unfold readSeconds
  rw [if_pos hcolon]
  simp only [List.drop_succ_cons, List.drop_zero, twoDigits_padded h, drop_padded h]
  exact if_neg (by omega)

theorem readSeconds_spell {sec : Option (Nat × Option Str)} {q : Str} (hd : TwoDigitSec sec) (he : EndsSec sec q) :
    readSeconds (spellSec sec q) = some ((secondOf sec : Int), q) := by
  match sec, hd, he with
  | none, _, he => exact if_neg he
  | some (n, none), hd, he =>
    refine (readSeconds_colon hd.1 q).trans ?_
    rw [if_neg he]
    rfl
  | some (n, some digits), hd, he =>
    refine (readSeconds_colon hd.1 (ch '.' :: (digits ++ q))).trans ?_
    have hpoint : byte (ch '.' :: (digits ++ q)) 0 = ch '.' := rfl
    rw [if_pos hpoint, List.drop_succ_cons, List.drop_zero, dropWhile_digits (hd.2 digits rfl) he]
    rfl

theorem readSeconds_reads {p q : Str} {s : Int} (h : readSeconds p = some (s, q)) :
    ∃ sec, p = spellSec sec q ∧ TwoDigitSec sec ∧ EndsSec sec q ∧ s = secondOf sec := by
  by_cases hcolon : byte p 0 = ch ':'
  · have hp := cons_of_byte hcolon (by decide)
    by_cases htwo : twoDigits (p.drop 1) < 0
    · unfold readSeconds at h
      rw [if_pos hcolon] at h
      simp only [if_pos htwo] at h
      cases h
    · obtain ⟨n, hn, htext, -⟩ := padded_twoDigits htwo
      rw [htext] at hp
      rw [hp, readSeconds_colon hn] at h
      obtain ⟨hs, hq⟩ := Prod.mk.inj (Option.some.inj h)
      by_cases hpoint : byte ((p.drop 1).drop 2) 0 = ch '.'
      · rw [if_pos hpoint] at hq
        have ht := cons_of_byte hpoint (by decide)
        have hdigits := List.takeWhile_append_dropWhile (p := isDigit) (l := ((p.drop 1).drop 2).drop 1)
        rw [hq] at hdigits
        refine ⟨some (n, some ((((p.drop 1).drop 2).drop 1).takeWhile isDigit)), ?_, ⟨hn, ?_⟩, ?_, hs.symm⟩
        · show p = ch ':' :: (padded 2 n ++ ch '.' :: (_ ++ q))
          rw [hdigits, ← ht]
          exact hp
        · intro ds hds c hc
          obtain rfl := Option.some.inj hds
          exact List.mem_takeWhile_imp hc
        · show isDigit (byte q 0) = false
          rw [← hq]
          exact dropWhile_head _
      · rw [if_neg hpoint] at hq
        refine ⟨some (n, none), ?_, ⟨hn, fun d hd => by cases hd⟩, ?_, hs.symm⟩
        · rw [hp, hq]
          rfl
        · rw [← hq]
          exact hpoint
  · unfold readSeconds at h
    rw [if_neg hcolon] at h
    obtain ⟨rfl, rfl⟩ := Prod.mk.inj (Option.some.inj h)
    exact ⟨none, rfl, trivial, hcolon, rfl⟩

/-! ## The suffix -/

def signByte (neg : Bool) : UInt8 := if neg then ch '-' else ch '+'

/-- Where the minutes of an offset may stand. -/
def minutesAt (t : Str) : Str := if byte t 0 = ch ':' then t.drop 1 else t

theorem zoned_offset (Z : Zone) (tm : Tm) (neg : Bool) {h : Nat} (hh : h < 100) (t : Str) :
    zoned Z tm (signByte neg :: (padded 2 h ++ t)) = timegm tm - (if neg then -1 else 1) *
      (h * 3600 + (if 0 ≤ twoDigits (minutesAt t) then twoDigits (minutesAt t) else 0) * 60) := by
  have hbyte : byte (signByte neg :: (padded 2 h ++ t)) 0 = signByte neg := rfl
  have hz : ¬ (signByte neg = ch 'Z' ∨ signByte neg = ch 'z') := by cases neg <;> decide
  have hs : signByte neg = ch '+' ∨ signByte neg = ch '-' := by cases neg <;> decide
  have hneg : (if signByte neg = ch '-' then (-1 : Int) else 1) = if neg then -1 else 1 := by cases neg <;> rfl
  unfold zoned
  rw [hbyte, if_neg hz, if_pos hs, hneg]
  simp only [List.drop_succ_cons, List.drop_zero, twoDigits_padded hh, drop_padded hh]
  exact if_neg (by omega)

theorem zoned_spell (Z : Zone) (tm : Tm) {x : Suffix} {rest : Str} (hd : x.TwoDigit) (he : x.Ends rest) :
    zoned Z tm (x.spell rest) = x.instant Z tm := by
  match x, hd, he with
  | .none, _, he =>
    show zoned Z tm rest = Z.mktime tm
    unfold zoned
    rw [if_neg (not_or.mpr ⟨he.1, he.2.1⟩), if_neg (not_or.mpr he.2.2)]
  | .utc true, _, _ => exact if_pos (Or.inl rfl)
  | .utc false, _, _ => exact if_pos (Or.inr rfl)
  | .offset neg h Option.none, hd, he =>
    refine (zoned_offset Z tm neg hd.1 rest).trans ?_
    have hlt : twoDigits (minutesAt rest) < 0 := he
    rw [if_neg (show ¬ 0 ≤ twoDigits (minutesAt rest) by omega)]
    rfl
  | .offset neg h (some (true, m)), hd, _ =>
    refine (zoned_offset Z tm neg hd.1 (ch ':' :: (padded 2 m ++ rest))).trans ?_
    have hat : minutesAt (ch ':' :: (padded 2 m ++ rest)) = padded 2 m ++ rest := rfl
    have hm : m < 100 := hd.2 (true, m) rfl
    rw [hat, twoDigits_padded hm, if_pos (show (0 : Int) ≤ (m : Int) by omega)]
    rfl
  | .offset neg h (some (false, m)), hd, _ =>
    refine (zoned_offset Z tm neg hd.1 (padded 2 m ++ rest)).trans ?_
    have hm : m < 100 := hd.2 (false, m) rfl
    have hat : minutesAt (padded 2 m ++ rest) = padded 2 m ++ rest := by
      refine if_neg ?_
      rw [padded_two hm]
      intro hc
      have hdigit := isDigit_digit (n := m / 10) (by omega)
      rw [show digit (m / 10) = ch ':' from hc] at hdigit
      exact absurd hdigit (by decide)
    rw [hat, twoDigits_padded hm, if_pos (show (0 : Int) ≤ (m : Int) by omega)]
    rfl

/-- A text with an instant has a suffix. -/
theorem suffix_of_zoned {Z : Zone} {tm : Tm} {p : Str} (h : zoned Z tm p ≠ 0) :
    ∃ (x : Suffix) (rest : Str), p = x.spell rest ∧ x.TwoDigit ∧ x.Ends rest := by
  by_cases hz : byte p 0 = ch 'Z' ∨ byte p 0 = ch 'z'
  · rcases hz with hz | hz
    · exact ⟨.utc true, p.drop 1, cons_of_byte hz (by decide), trivial, trivial⟩
    · exact ⟨.utc false, p.drop 1, cons_of_byte hz (by decide), trivial, trivial⟩
  · by_cases hs : byte p 0 = ch '+' ∨ byte p 0 = ch '-'
    · obtain ⟨neg, hneg⟩ : ∃ neg, byte p 0 = signByte neg := by
        rcases hs with hs | hs
        · exact ⟨false, hs⟩
        · exact ⟨true, hs⟩
      have hp : p = signByte neg :: p.drop 1 := cons_of_byte hneg (by cases neg <;> decide)
      have htwo : ¬ twoDigits (p.drop 1) < 0 := by
        intro hlt
        apply h
        unfold zoned
        rw [if_neg hz, if_pos hs]
        exact if_pos hlt
      obtain ⟨hours, hh, htext, -⟩ := padded_twoDigits htwo
      have hp' : p = signByte neg :: (padded 2 hours ++ (p.drop 1).drop 2) := hp.trans (congrArg _ htext)
      by_cases hmin : twoDigits (minutesAt ((p.drop 1).drop 2)) < 0
      · exact ⟨.offset neg hours none, (p.drop 1).drop 2, hp', ⟨hh, fun m hm => by cases hm⟩, hmin⟩
      · obtain ⟨m, hm, hmtext, -⟩ := padded_twoDigits hmin
        by_cases hcolon : byte ((p.drop 1).drop 2) 0 = ch ':'
        · have hat : minutesAt ((p.drop 1).drop 2) = ((p.drop 1).drop 2).drop 1 := if_pos hcolon
          refine ⟨.offset neg hours (some (true, m)), (minutesAt ((p.drop 1).drop 2)).drop 2, ?_,
            ⟨hh, fun x hx => ?_⟩, trivial⟩
          · show p = signByte neg :: (padded 2 hours ++ ch ':' :: (padded 2 m ++ _))
            rw [← hmtext, hat, ← cons_of_byte hcolon (by decide)]
            exact hp'
          · obtain rfl := Option.some.inj hx
            exact hm
        · have hat : minutesAt ((p.drop 1).drop 2) = (p.drop 1).drop 2 := if_neg hcolon
          refine ⟨.offset neg hours (some (false, m)), (minutesAt ((p.drop 1).drop 2)).drop 2, ?_,
            ⟨hh, fun x hx => ?_⟩, trivial⟩
          · show p = signByte neg :: (padded 2 hours ++ (padded 2 m ++ _))
            rw [← hmtext, hat]
            exact hp'
          · obtain rfl := Option.some.inj hx
            exact hm
    · exact ⟨.none, p, rfl, trivial, fun hc => hz (Or.inl hc), fun hc => hz (Or.inr hc), fun hc => hs (Or.inl hc),
        fun hc => hs (Or.inr hc)⟩

/-! ## The whole text -/

/-- What is left after the minutes. -/
def afterMinutes (Z : Zone) (year mon day hour min : Int) (q : Str) : Int :=
  match readSeconds q with
  | none => 0
  | some (sec, q) =>
    if mon < 1 ∨ mon > 12 ∨ day < 1 ∨ day > 31 ∨ hour > 23 ∨ min > 59 ∨ sec > 60 then 0
    else zoned Z ⟨year - 1900, mon - 1, day, hour, min, sec⟩ q

theorem parse_head (Z : Zone) {year mon day hour min : Nat} (space : Bool) (hy : year < 10000)
    (hd : mon < 100 ∧ day < 100 ∧ hour < 100 ∧ min < 100) (q : Str) :
    schedParseTime Z (some (spellHead year mon day space hour min q)) = afterMinutes Z year mon day hour min q := by
  obtain ⟨hmon, hday, hhour, hmin⟩ := hd
  have hval : ∀ n : Nat, ((n / 10 : Nat) : Int) * 10 + ((n % 10 : Nat) : Int) = n := by
    intro n
    omega
  have hsep : (if space then ch ' ' else ch 'T') = ch 'T' ∨ (if space then ch ' ' else ch 'T') = ch ' ' := by
    cases space
    · exact Or.inl rfl
    · exact Or.inr rfl
  unfold spellHead schedParseTime
  rw [Option.bind_some, readYear_padded hy, padded_two hmon, padded_two hday, padded_two hhour, padded_two hmin]
  simp only [List.cons_append, List.nil_append, List.drop_succ_cons, List.drop_zero, byte_cons_zero, byte_cons_succ]
  rw [twoDigits_digits (by omega) (by omega), twoDigits_digits (by omega) (by omega),
    twoDigits_digits (by omega) (by omega), twoDigits_digits (by omega) (by omega), hval, hval, hval, hval]
  refine if_neg ?_
  simp only [ne_eq, not_true, false_or, not_or]
  refine ⟨by omega, by omega, ?_, by omega, by omega⟩
  intro hne
  rcases hsep with h | h
  · exact hne.1 h
  · exact hne.2 h

/-- A text with a value has a date and a time of day. -/
theorem head_of_parse {Z : Zone} {s : Str} (h : schedParseTime Z (some s) ≠ 0) : ∃ year mon day space hour min q,
    year < 10000 ∧ (mon < 100 ∧ day < 100 ∧ hour < 100 ∧ min < 100) ∧ s = spellHead year mon day space hour min q := by
  unfold schedParseTime at h
  rw [Option.bind_some] at h
  cases hyear : readYear 4 0 s with
  | none => rw [hyear] at h; exact absurd rfl h
  | some r =>
    obtain ⟨y, p⟩ := r
    rw [hyear] at h
    simp only at h
    obtain ⟨year, hy, hs, -⟩ := padded_readYear hyear
    split at h
    · exact absurd rfl h
    rename_i hshape
    simp only [not_or, not_not] at hshape
    obtain ⟨h0, hmon, h3, hday, h6, hhour, h9, hmin⟩ := hshape
    obtain ⟨mon, hmon, htmon, -⟩ := padded_twoDigits hmon
    obtain ⟨day, hday, htday, -⟩ := padded_twoDigits hday
    obtain ⟨hour, hhour, hthour, -⟩ := padded_twoDigits hhour
    obtain ⟨min, hmin, htmin, -⟩ := padded_twoDigits hmin
    obtain ⟨space, hspace⟩ : ∃ space : Bool, byte p 6 = if space then ch ' ' else ch 'T' := by
      by_cases hT : byte p 6 = ch 'T'
      · exact ⟨false, hT⟩
      · exact ⟨true, not_not.mp fun hne => h6 ⟨hT, hne⟩⟩
    -- `p` is cut at 1, 3, 4, 6, 7, 9 and 10
    rw [List.drop_drop] at htmon htday hthour htmin
    have hp0 := cons_of_byte h0 (by decide)
    have hp3 : p.drop 3 = ch '-' :: p.drop 4 := by
      rw [cons_of_byte ((byte_drop p 3 0).trans h3) (by decide), List.drop_drop]
    have hp6 : p.drop 6 = (if space then ch ' ' else ch 'T') :: p.drop 7 := by
      rw [cons_of_byte ((byte_drop p 6 0).trans hspace) (by cases space <;> decide), List.drop_drop]
    have hp9 : p.drop 9 = ch ':' :: p.drop 10 := by
      rw [cons_of_byte ((byte_drop p 9 0).trans h9) (by decide), List.drop_drop]
    refine ⟨year, mon, day, space, hour, min, p.drop 12, hy, ⟨hmon, hday, hhour, hmin⟩, ?_⟩
    unfold spellHead
    calc s = padded 4 year ++ ch '-' :: p.drop 1 := by rw [hs, ← hp0]
      _ = padded 4 year ++ ch '-' :: (padded 2 mon ++ ch '-' :: p.drop 4) := by rw [htmon, hp3]
      _ = padded 4 year ++ ch '-' :: (padded 2 mon ++ ch '-' :: (padded 2 day ++
          (if space then ch ' ' else ch 'T') :: p.drop 7)) := by rw [htday, hp6]
      _ = _ := by rw [hthour, hp9, htmin]

/-- The value of a text is the instant of the stamp it begins with. -/
theorem parse_reading (Z : Zone) {s : Str} {x : Stamp} {rest : Str} (h : Reading s x rest) :
    schedParseTime Z (some s) = x.instant Z := by
  have hl := h.loose
  rw [h.text]
  unfold Stamp.spell
  rw [parse_head Z x.space hl.year ⟨by have := hl.mon; omega, by have := hl.day; omega, by have := hl.hour; omega,
    by have := hl.min; omega⟩]
  unfold afterMinutes
  rw [readSeconds_spell hl.sec.1 h.sec]
  simp only
  have hmon := hl.mon
  have hday := hl.day
  have hhour := hl.hour
  have hmin := hl.min
  have hsec := hl.sec.2
  rw [if_neg (by omega)]
  exact zoned_spell Z x.tm hl.suffix h.suffix

/-- A text with a value begins with a stamp. -/
theorem reading_of_parse {Z : Zone} {s : Str} (h : schedParseTime Z (some s) ≠ 0) : ∃ x rest, Reading s x rest := by
  obtain ⟨year, mon, day, space, hour, min, q, hy, hd, rfl⟩ := head_of_parse h
  rw [parse_head Z space hy hd] at h
  unfold afterMinutes at h
  cases hsec : readSeconds q with
  | none => rw [hsec] at h; exact absurd rfl h
  | some r =>
    obtain ⟨sec, p⟩ := r
    rw [hsec] at h
    simp only at h
    split at h
    · exact absurd rfl h
    rename_i hrange
    obtain ⟨sec, rfl, hdigits, hends, rfl⟩ := readSeconds_reads hsec
    obtain ⟨suffix, rest, rfl, htwo, hsuffix⟩ := suffix_of_zoned h
    have hmon : 1 ≤ mon ∧ mon ≤ 12 := by omega
    have hday : 1 ≤ day ∧ day ≤ 31 := by omega
    have hhour : hour ≤ 23 := by omega
    have hmin : min ≤ 59 := by omega
    have hsec : secondOf sec ≤ 60 := by omega
    exact ⟨⟨year, mon, day, space, hour, min, sec, suffix⟩, rest,
      ⟨⟨hy, hmon, hday, hhour, hmin, ⟨hdigits, hsec⟩, htwo⟩, rfl, hends, hsuffix⟩⟩

/-- A time is read whole. -/
theorem reading_of_valid {x : Stamp} (h : x.Valid) : Reading (x.spell []) x [] := by
  have hsuffix : x.suffix.Ends [] := by
    match x.suffix with
    | .none => exact ⟨by decide, by decide, by decide, by decide⟩
    | .utc _ => trivial
    | .offset _ _ none => exact show twoDigits _ < 0 by decide
    | .offset _ _ (some _) => trivial
  have hfirst : byte (x.suffix.spell []) 0 ≠ ch ':' ∧ byte (x.suffix.spell []) 0 ≠ ch '.' ∧
      isDigit (byte (x.suffix.spell []) 0) = false := by
    match x.suffix with
    | .none => decide
    | .utc true => decide
    | .utc false => decide
    | .offset true _ _ => exact ⟨show ch '-' ≠ ch ':' by decide, show ch '-' ≠ ch '.' by decide, rfl⟩
    | .offset false _ _ => exact ⟨show ch '+' ≠ ch ':' by decide, show ch '+' ≠ ch '.' by decide, rfl⟩
  refine ⟨h.loose, rfl, ?_, hsuffix⟩
  match x.sec with
  | none => exact hfirst.1
  | some (_, none) => exact hfirst.2.1
  | some (_, some _) => exact hfirst.2.2

/-! ## Every read is in the string -/

/-- `p[i]`, at most the NUL. -/
def readByte (p : Str) (i : Nat) : Option UInt8 := if i ≤ p.length then some (byte p i) else none

/-- `p + k`, at most at the NUL. -/
def stepTo (p : Str) (k : Nat) : Option Str := if k ≤ p.length then some (p.drop k) else none

/-- `two_digits(p + k)`. -/
def twoDigitsChecked (p : Str) (k : Nat) : Option Int :=
  (stepTo p k).bind fun q => (readByte q 0).bind fun a =>
    if isDigit a then (readByte q 1).map fun b => if isDigit b then digitVal a * 10 + digitVal b else -1
    else some (-1)

def readYearChecked : Nat → Int → Str → Option (Option (Int × Str))
  | 0, year, p => some (some (year, p))
  | n + 1, year, p => (readByte p 0).bind fun c =>
    if isDigit c then (stepTo p 1).bind fun q => readYearChecked n (year * 10 + digitVal c) q else some none

/-- The loop over the digits of a fraction. -/
def skipDigitsChecked : Str → Option Str
  | [] => (readByte [] 0).map fun _ => []
  | c :: p => (readByte (c :: p) 0).bind fun d => if isDigit d then skipDigitsChecked p else some (c :: p)

def readSecondsChecked (p : Str) : Option (Option (Int × Str)) :=
  (readByte p 0).bind fun c =>
    if c = ch ':' then
      (twoDigitsChecked p 1).bind fun sec =>
        if sec < 0 then some none
        else
          (stepTo p 3).bind fun q => (readByte q 0).bind fun d =>
            if d = ch '.' then (stepTo q 1).bind fun r => (skipDigitsChecked r).map fun r => some (sec, r)
            else some (some (sec, q))
    else some (some (0, p))

def zonedChecked (Z : Zone) (tm : Tm) (p : Str) : Option Int :=
  (readByte p 0).bind fun c =>
    if c = ch 'Z' ∨ c = ch 'z' then some (timegm tm)
    else if c = ch '+' ∨ c = ch '-' then
      let sign : Int := if c = ch '-' then -1 else 1
      (twoDigitsChecked p 1).bind fun oh =>
        if oh < 0 then some 0
        else
          (stepTo p 3).bind fun q => (readByte q 0).bind fun d =>
            (if d = ch ':' then stepTo q 1 else some q).bind fun q => (twoDigitsChecked q 0).map fun om =>
              timegm tm - sign * (oh * 3600 + (if 0 ≤ om then om else 0) * 60)
    else some (Z.mktime tm)

/-- `sched_parse_time`, read by read: `none` when one is behind the NUL. -/
def parseChecked (Z : Zone) (iso : Str) : Option Int :=
  (readYearChecked 4 0 iso).bind fun
    | none => some 0
    | some (year, p) =>
      (readByte p 0).bind fun c0 => if c0 ≠ ch '-' then some 0 else
      (twoDigitsChecked p 1).bind fun mon => if mon < 0 then some 0 else
      (readByte p 3).bind fun c3 => if c3 ≠ ch '-' then some 0 else
      (twoDigitsChecked p 4).bind fun mday => if mday < 0 then some 0 else
      (readByte p 6).bind fun c6 => if c6 ≠ ch 'T' ∧ c6 ≠ ch ' ' then some 0 else
      (twoDigitsChecked p 7).bind fun hour => if hour < 0 then some 0 else
      (readByte p 9).bind fun c9 => if c9 ≠ ch ':' then some 0 else
      (twoDigitsChecked p 10).bind fun min => if min < 0 then some 0 else
      (stepTo p 12).bind fun p => (readSecondsChecked p).bind fun
        | none => some 0
        | some (sec, q) =>
          if mon < 1 ∨ mon > 12 ∨ mday < 1 ∨ mday > 31 ∨ hour > 23 ∨ min > 59 ∨ sec > 60 then some 0
          else zonedChecked Z ⟨year - 1900, mon - 1, mday, hour, min, sec⟩ q

theorem readByte_eq {p : Str} {i : Nat} (h : i ≤ p.length) : readByte p i = some (byte p i) := if_pos h

theorem stepTo_eq {p : Str} {k : Nat} (h : k ≤ p.length) : stepTo p k = some (p.drop k) := if_pos h

theorem lt_of_isDigit {p : Str} {i : Nat} (h : isDigit (byte p i) = true) : i < p.length :=
  lt_of_byte fun h0 => by
    rw [h0] at h
    exact absurd h (by decide)

theorem twoDigitsChecked_eq {p : Str} {k : Nat} (h : k ≤ p.length) : twoDigitsChecked p k = some (twoDigits (p.drop k)) := by
  unfold twoDigitsChecked twoDigits
  rw [stepTo_eq h, Option.bind_some, readByte_eq (Nat.zero_le _), Option.bind_some]
  by_cases ha : isDigit (byte (p.drop k) 0) = true
  · rw [if_pos ha, readByte_eq (lt_of_isDigit ha), ha]
    rfl
  · rw [if_neg ha, if_neg (by simp [ha])]

/-- Two digits are in the string. -/
theorem le_of_twoDigits {p : Str} {k : Nat} (h : ¬ twoDigits (p.drop k) < 0) : k + 2 ≤ p.length := by
  obtain ⟨n, hn, htext, -⟩ := padded_twoDigits h
  have hlen := congrArg List.length htext
  rw [padded_two hn, List.length_append, List.length_drop] at hlen
  simp only [List.length_cons, List.length_nil] at hlen
  omega

theorem readYearChecked_eq (n : Nat) : ∀ (y : Int) (p : Str), readYearChecked n y p = some (readYear n y p) := by
  induction n with
  | zero => intro y p; rfl
  | succ n ih =>
    intro y p
    unfold readYearChecked readYear
    rw [readByte_eq (Nat.zero_le _), Option.bind_some]
    by_cases hc : isDigit (byte p 0) = true
    · rw [if_pos hc, if_pos hc, stepTo_eq (lt_of_isDigit hc), Option.bind_some, ih]
    · rw [if_neg hc, if_neg hc]

theorem skipDigitsChecked_eq (p : Str) : skipDigitsChecked p = some (p.dropWhile isDigit) := by
  induction p with
  | nil => rfl
  | cons c p ih =>
    unfold skipDigitsChecked
    rw [readByte_eq (Nat.zero_le _), Option.bind_some, byte_cons_zero]
    by_cases hc : isDigit c = true
    · rw [if_pos hc, ih, List.dropWhile_cons_of_pos hc]
    · rw [if_neg hc, List.dropWhile_cons_of_neg hc]

theorem readSecondsChecked_eq (p : Str) : readSecondsChecked p = some (readSeconds p) := by
  unfold readSecondsChecked readSeconds
  rw [readByte_eq (Nat.zero_le _), Option.bind_some]
  by_cases hc : byte p 0 = ch ':'
  · have h1 : 1 ≤ p.length := lt_of_byte (i := 0) (by rw [hc]; decide)
    rw [if_pos hc, if_pos hc, twoDigitsChecked_eq h1, Option.bind_some]
    by_cases hneg : twoDigits (p.drop 1) < 0
    · simp only [if_pos hneg]
    · simp only [if_neg hneg]
      rw [stepTo_eq (le_of_twoDigits hneg), Option.bind_some, readByte_eq (Nat.zero_le _), Option.bind_some]
      by_cases hd : byte (p.drop 3) 0 = ch '.'
      · have h2 : 1 ≤ (p.drop 3).length := lt_of_byte (i := 0) (by rw [hd]; decide)
        rw [if_pos hd, if_pos hd, stepTo_eq h2, Option.bind_some, skipDigitsChecked_eq]
        rfl
      · rw [if_neg hd, if_neg hd]
  · rw [if_neg hc, if_neg hc]

theorem zonedChecked_eq (Z : Zone) (tm : Tm) (p : Str) : zonedChecked Z tm p = some (zoned Z tm p) := by
  unfold zonedChecked zoned
  rw [readByte_eq (Nat.zero_le _), Option.bind_some]
  by_cases hz : byte p 0 = ch 'Z' ∨ byte p 0 = ch 'z'
  · rw [if_pos hz, if_pos hz]
  rw [if_neg hz, if_neg hz]
  by_cases hs : byte p 0 = ch '+' ∨ byte p 0 = ch '-'
  · have h1 : 1 ≤ p.length := by
      refine lt_of_byte (i := 0) fun h0 => ?_
      rw [h0] at hs
      exact absurd hs (by decide)
    rw [if_pos hs, if_pos hs]
    simp only
    rw [twoDigitsChecked_eq h1, Option.bind_some]
    by_cases hneg : twoDigits (p.drop 1) < 0
    · rw [if_pos hneg, if_pos hneg]
    rw [if_neg hneg, if_neg hneg, stepTo_eq (le_of_twoDigits hneg), Option.bind_some, readByte_eq (Nat.zero_le _),
      Option.bind_some]
    by_cases hd : byte (p.drop 3) 0 = ch ':'
    · have h2 : 1 ≤ (p.drop 3).length := lt_of_byte (i := 0) (by rw [hd]; decide)
      rw [if_pos hd, if_pos hd, stepTo_eq h2, Option.bind_some, twoDigitsChecked_eq (Nat.zero_le _)]
      rfl
    · rw [if_neg hd, if_neg hd, Option.bind_some, twoDigitsChecked_eq (Nat.zero_le _)]
      rfl
  · rw [if_neg hs, if_neg hs]

/-- No read is behind the NUL, and the value is the parser's. -/
theorem parseChecked_eq (Z : Zone) (s : Str) : parseChecked Z s = some (schedParseTime Z (some s)) := by
  unfold parseChecked schedParseTime
  rw [readYearChecked_eq, Option.bind_some, Option.bind_some]
  cases readYear 4 0 s with
  | none => rfl
  | some r =>
    obtain ⟨year, p⟩ := r
    simp only
    rw [readByte_eq (Nat.zero_le _), Option.bind_some]
    -- each check passed shows that the next byte is in the string
    by_cases h0 : byte p 0 = ch '-'
    swap
    · rw [if_pos h0, if_pos (Or.inl h0)]
    rw [if_neg (not_not.mpr h0), twoDigitsChecked_eq (lt_of_byte (i := 0) (by rw [h0]; decide)), Option.bind_some]
    by_cases hmon : twoDigits (p.drop 1) < 0
    · rw [if_pos hmon, if_pos (Or.inr (Or.inl hmon))]
    rw [if_neg hmon, readByte_eq (le_of_twoDigits hmon), Option.bind_some]
    by_cases h3 : byte p 3 = ch '-'
    swap
    · rw [if_pos h3, if_pos (Or.inr (Or.inr (Or.inl h3)))]
    rw [if_neg (not_not.mpr h3), twoDigitsChecked_eq (lt_of_byte (i := 3) (by rw [h3]; decide)), Option.bind_some]
    by_cases hday : twoDigits (p.drop 4) < 0
    · rw [if_pos hday, if_pos (Or.inr (Or.inr (Or.inr (Or.inl hday))))]
    rw [if_neg hday, readByte_eq (le_of_twoDigits hday), Option.bind_some]
    by_cases h6 : byte p 6 ≠ ch 'T' ∧ byte p 6 ≠ ch ' '
    · rw [if_pos h6, if_pos (Or.inr (Or.inr (Or.inr (Or.inr (Or.inl h6)))))]
    have hlt6 : 6 < p.length := by
      refine lt_of_byte fun hz => h6 ?_
      rw [hz]
      decide
    rw [if_neg h6, twoDigitsChecked_eq hlt6, Option.bind_some]
    by_cases hhour : twoDigits (p.drop 7) < 0
    · rw [if_pos hhour, if_pos (Or.inr (Or.inr (Or.inr (Or.inr (Or.inr (Or.inl hhour))))))]
    rw [if_neg hhour, readByte_eq (le_of_twoDigits hhour), Option.bind_some]
    by_cases h9 : byte p 9 = ch ':'
    swap
    · rw [if_pos h9, if_pos (Or.inr (Or.inr (Or.inr (Or.inr (Or.inr (Or.inr (Or.inl h9)))))))]
    rw [if_neg (not_not.mpr h9), twoDigitsChecked_eq (lt_of_byte (i := 9) (by rw [h9]; decide)), Option.bind_some]
    by_cases hmin : twoDigits (p.drop 10) < 0
    · rw [if_pos hmin, if_pos (Or.inr (Or.inr (Or.inr (Or.inr (Or.inr (Or.inr (Or.inr hmin)))))))]
    rw [if_neg hmin, stepTo_eq (le_of_twoDigits hmin), Option.bind_some, readSecondsChecked_eq, Option.bind_some]
    have hshape : ¬ (byte p 0 ≠ ch '-' ∨ twoDigits (p.drop 1) < 0 ∨ byte p 3 ≠ ch '-' ∨ twoDigits (p.drop 4) < 0 ∨
        (byte p 6 ≠ ch 'T' ∧ byte p 6 ≠ ch ' ') ∨ twoDigits (p.drop 7) < 0 ∨ byte p 9 ≠ ch ':' ∨
        twoDigits (p.drop 10) < 0) := by
      simp only [not_or]
      exact ⟨not_not.mpr h0, hmon, not_not.mpr h3, hday, h6, hhour, not_not.mpr h9, hmin⟩
    rw [if_neg hshape]
    cases readSeconds (p.drop 12) with
    | none => rfl
    | some r =>
      simp only
      split
      · rfl
      · rw [zonedChecked_eq]

/-! ## What is accepted -/

/-- What the parser is to do with a text: it reads nothing behind the NUL, and a value other
    than 0 is the instant of a time that is the whole text. -/
structure Exact (Z : Zone) (s : Str) : Prop where
  bounded : parseChecked Z s = some (schedParseTime Z (some s))
  grammar : schedParseTime Z (some s) ≠ 0 → ∃ x : Stamp, x.Valid ∧ s = x.spell [] ∧ schedParseTime Z (some s) = x.instant Z

/-- A text that is a time, or begins with none but one of the epoch. -/
def Fits (Z : Zone) (s : Str) : Prop := InGrammar s ∨ ∀ x rest, Reading s x rest → x.instant Z = 0

/-- What a text that begins with a stamp has when it is no time. -/
theorem reading_kinds {s : Str} {x : Stamp} {rest : Str} (h : Reading s x rest) (hno : ¬ InGrammar s) :
    rest ≠ [] ∨ daysInMonth x.year x.mon < x.day ∨ (∃ sec, x.sec = some (sec, some [])) ∨ ¬ x.suffix.InRange := by
  by_contra hall
  simp only [not_or, not_not, not_lt] at hall
  obtain ⟨hrest, hday, hfraction, hsuffix⟩ := hall
  refine hno ⟨x, ⟨h.loose, hday, ?_, hsuffix⟩, by rw [← hrest]; exact h.text⟩
  intro sec hsec hnil
  exact hfraction ⟨sec.1, by rw [← hnil]; exact hsec⟩

theorem accepts_iff (Z : Zone) (s : Str) : Exact Z s ↔ Fits Z s := by
  constructor
  · intro h
    by_cases hall : ∀ x rest, Reading s x rest → x.instant Z = 0
    · exact Or.inr hall
    · simp only [not_forall] at hall
      obtain ⟨x, rest, hread, hne⟩ := hall
      rw [← parse_reading Z hread] at hne
      obtain ⟨y, hy, hs, -⟩ := h.grammar hne
      exact Or.inl ⟨y, hy, hs⟩
  · intro h
    refine ⟨parseChecked_eq Z s, fun hne => ?_⟩
    rcases h with ⟨x, hx, rfl⟩ | hall
    · exact ⟨x, hx, rfl, parse_reading Z (reading_of_valid hx)⟩
    · obtain ⟨x, rest, hread⟩ := reading_of_parse hne
      rw [parse_reading Z hread] at hne
      exact absurd (hall x rest hread) hne

/-- The bytes of a time. -/
def timeByte (c : UInt8) : Bool :=
  isDigit c || c = ch '-' || c = ch ':' || c = ch 'T' || c = ch ' ' || c = ch '.' || c = ch '+' || c = ch 'Z' || c = ch 'z'

theorem padded_bytes (w n : Nat) : ∀ c ∈ padded w n, timeByte c = true := by
  intro c hc
  unfold timeByte
  rw [padded_digits w n c hc]
  rfl

/-- A time has no other bytes. -/
theorem spell_bytes {x : Stamp} (h : x.Loose) : ∀ c ∈ x.spell [], timeByte c = true := by
  have happ : ∀ {w n : Nat} {t : Str}, (∀ c ∈ t, timeByte c = true) → ∀ c ∈ padded w n ++ t, timeByte c = true := by
    intro w n t ht c hc
    rcases List.mem_append.mp hc with hc | hc
    · exact padded_bytes w n c hc
    · exact ht c hc
  have hcons : ∀ {b : UInt8} {t : Str}, timeByte b = true → (∀ c ∈ t, timeByte c = true) →
      ∀ c ∈ b :: t, timeByte c = true := by
    intro b t hb ht c hc
    rcases List.mem_cons.mp hc with rfl | hc
    · exact hb
    · exact ht c hc
  have hnil : ∀ c ∈ ([] : Str), timeByte c = true := fun c hc => by cases hc
  have hsuffix : ∀ c ∈ x.suffix.spell [], timeByte c = true := by
    match x.suffix with
    | .none => exact hnil
    | .utc true => exact hcons rfl hnil
    | .utc false => exact hcons rfl hnil
    | .offset neg hours none => exact hcons (by cases neg <;> rfl) (happ hnil)
    | .offset neg hours (some (true, m)) => exact hcons (by cases neg <;> rfl) (happ (hcons rfl (happ hnil)))
    | .offset neg hours (some (false, m)) => exact hcons (by cases neg <;> rfl) (happ (happ hnil))
  have hsec : ∀ c ∈ spellSec x.sec (x.suffix.spell []), timeByte c = true := by
    have hdigits := h.sec.1
    match x.sec, hdigits with
    | none, _ => exact hsuffix
    | some (n, none), _ => exact hcons rfl (happ hsuffix)
    | some (n, some digits), hdigits =>
      refine hcons rfl (happ (hcons rfl fun c hc => ?_))
      rcases List.mem_append.mp hc with hc | hc
      · unfold timeByte
        rw [hdigits.2 digits rfl c hc]
        rfl
      · exact hsuffix c hc
  have hsep : timeByte (if x.space then ch ' ' else ch 'T') = true := by cases x.space <;> rfl
  exact happ (hcons rfl (happ (hcons rfl (happ (hcons hsep (happ (hcons rfl (happ hsec))))))))

/-- Half past six in the evening. -/
def evening : Str := lit "2026-01-31 06:30 PM"

theorem evening_taken_for_morning : ¬ ∀ Z s, Exact Z s := by
  intro h
  have hvalue : schedParseTime Zone.utc (some evening) = 1769841000 := by decide +kernel
  obtain ⟨x, hx, hs, -⟩ := (h Zone.utc evening).grammar (by rw [hvalue]; decide)
  have hbyte := spell_bytes hx.loose (ch 'P') (by rw [← hs]; decide)
  exact absurd hbyte (by decide)

end Shclaw.Scheduler
