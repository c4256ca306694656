/-
  Shclaw.Scheduler.Time — run times as text: `sched_parse_time` and `two_digits`
  (`src/scheduler.c`), `format_time` (`src/util.c`).

  The parser walks the string by hand, a suffix of it standing for the pointer `p`.
  It returns 0 for an invalid text. A text without a zone is local time: `mktime` and
  `localtime_r` depend on the host's zone and are parameters (`Zone`), of which
  nothing is assumed; UTC goes through the calendar of `Lib.Civil`.

  `parse_format`: the UTC text of an instant before the year 10000 denotes it again.
  From there on the year takes five digits and the parser rejects the text
  (`parse_format_late`), so `format_time` and `sched_parse_time` are not inverse.
-/

import Shclaw.Lib.Civil
import Shclaw.Json

namespace Shclaw.Scheduler

open Lib

/-- The host's time zone. -/
structure Zone where
  mktime : Tm → Int
  localtime : Int → Tm

def twoDigits (p : Str) : Int :=
  if isDigit (byte p 0) && isDigit (byte p 1) then digitVal (byte p 0) * 10 + digitVal (byte p 1) else -1

/-- The loop over the four digits of the year. -/
def readYear : Nat → Int → Str → Option (Int × Str)
  | 0, year, p => some (year, p)
  | n + 1, year, p =>
    if isDigit (byte p 0) then readYear n (year * 10 + digitVal (byte p 0)) (p.drop 1) else none

/-- `:SS` and a fraction, both optional. -/
def readSeconds (p : Str) : Option (Int × Str) :=
  if byte p 0 = ch ':' then
    let sec := twoDigits (p.drop 1)
    if sec < 0 then none
    else
      let q := p.drop 3
      some (sec, if byte q 0 = ch '.' then (q.drop 1).dropWhile isDigit else q)
  else some (0, p)

/-- The zone at `p`: `Z`, an offset, or none. -/
def zoned (Z : Zone) (tm : Tm) (p : Str) : Int :=
  if byte p 0 = ch 'Z' ∨ byte p 0 = ch 'z' then timegm tm
  else if byte p 0 = ch '+' ∨ byte p 0 = ch '-' then
    let sign : Int := if byte p 0 = ch '-' then -1 else 1
    let oh := twoDigits (p.drop 1)
    if oh < 0 then 0
    else
      let q := p.drop 3
      let q := if byte q 0 = ch ':' then q.drop 1 else q
      let om := if 0 ≤ twoDigits q then twoDigits q else 0
      timegm tm - sign * (oh * 3600 + om * 60)
  else Z.mktime tm

def schedParseTime (Z : Zone) (iso : Option Str) : Int :=
  match iso.bind (readYear 4 0) with
  | none => 0
  | some (year, p) =>
    let mon := twoDigits (p.drop 1)
    let mday := twoDigits (p.drop 4)
    let hour := twoDigits (p.drop 7)
    let min := twoDigits (p.drop 10)
    if byte p 0 ≠ ch '-' ∨ mon < 0 ∨ byte p 3 ≠ ch '-' ∨ mday < 0 ∨ (byte p 6 ≠ ch 'T' ∧ byte p 6 ≠ ch ' ') ∨
        hour < 0 ∨ byte p 9 ≠ ch ':' ∨ min < 0 then 0
    else
      match readSeconds (p.drop 12) with
      | none => 0
      | some (sec, q) =>
        if mon < 1 ∨ mon > 12 ∨ mday < 1 ∨ mday > 31 ∨ hour > 23 ∨ min > 59 ∨ sec > 60 then 0
        else zoned Z ⟨year - 1900, mon - 1, mday, hour, min, sec⟩ q

/-- The `snprintf` of `format_time`, before its cut. -/
def isoText (tm : Tm) (suffix : Str) : Str :=
  paddedInt 4 (tm.year + 1900) ++ [ch '-'] ++ paddedInt 2 (tm.mon + 1) ++ [ch '-'] ++ paddedInt 2 tm.mday ++
    [ch 'T'] ++ paddedInt 2 tm.hour ++ [ch ':'] ++ paddedInt 2 tm.min ++ [ch ':'] ++ paddedInt 2 tm.sec ++ suffix

/-- `format_time` into a buffer of 32 bytes. -/
def formatTime (Z : Zone) (t : Int) (isLocal : Bool) : Str :=
  cut 32 (if isLocal then isoText (Z.localtime t) [] else isoText (gmtime t) [ch 'Z'])

/-! ## The UTC text of an instant -/

@[simp] theorem byte_cons_zero (c : UInt8) (p : Str) : byte (c :: p) 0 = c := rfl

@[simp] theorem byte_cons_succ (c : UInt8) (p : Str) (i : Nat) : byte (c :: p) (i + 1) = byte p i := rfl

theorem twoDigits_digits {a b : Nat} (ha : a < 10) (hb : b < 10) (p : Str) :
    twoDigits (digit a :: digit b :: p) = a * 10 + b := by
  simp [twoDigits, isDigit_digit ha, isDigit_digit hb, digitVal_digit ha, digitVal_digit hb]

theorem readYear_digits {a b c d : Nat} (ha : a < 10) (hb : b < 10) (hc : c < 10) (hd : d < 10) (p : Str) :
    readYear 4 0 (digit a :: digit b :: digit c :: digit d :: p) =
      some ((a : Int) * 1000 + b * 100 + c * 10 + d, p) := by
  simp only [readYear, byte_cons_zero, isDigit_digit ha, isDigit_digit hb, isDigit_digit hc, isDigit_digit hd,
    digitVal_digit ha, digitVal_digit hb, digitVal_digit hc, digitVal_digit hd, if_true, List.drop_succ_cons,
    List.drop_zero, Option.some.injEq, Prod.mk.injEq, and_true]
  omega

/-- A two-digit field, as the parser reads it back. -/
theorem paddedInt_two {x : Int} (h : 0 ≤ x ∧ x ≤ 99) :
    ∃ a b : Nat, a < 10 ∧ b < 10 ∧ paddedInt 2 x = [digit a, digit b] ∧ x = a * 10 + b := by
  refine ⟨x.toNat / 10, x.toNat % 10, by omega, by omega, ?_, by omega⟩
  rw [paddedInt, if_neg (by omega), padded_two (by omega)]

theorem paddedInt_four {x : Int} (h : 0 ≤ x ∧ x < 10000) :
    ∃ a b c d : Nat, a < 10 ∧ b < 10 ∧ c < 10 ∧ d < 10 ∧ paddedInt 4 x = [digit a, digit b, digit c, digit d] ∧
      x = a * 1000 + b * 100 + c * 10 + d := by
  refine ⟨x.toNat / 1000, x.toNat / 100 % 10, x.toNat / 10 % 10, x.toNat % 10, by omega, by omega, by omega,
    by omega, ?_, by omega⟩
  rw [paddedInt, if_neg (by omega), padded_four (by omega)]

/-- The text of fields in range, with a four-digit year, denotes their instant. -/
theorem parse_isoText (Z : Zone) {tm : Tm} (hr : tm.InRange) (hy : 0 ≤ tm.year + 1900 ∧ tm.year + 1900 < 10000) :
    schedParseTime Z (some (isoText tm [ch 'Z'])) = timegm tm := by
  obtain ⟨y3, y2, y1, y0, hy3, hy2, hy1, hy0, hyt, hyv⟩ := paddedInt_four hy
  obtain ⟨m1, m0, hm1, hm0, hmt, hmv⟩ := paddedInt_two (x := tm.mon + 1) (by have := hr.mon; omega)
  obtain ⟨d1, d0, hd1, hd0, hdt, hdv⟩ := paddedInt_two (x := tm.mday) (by have := hr.mday; omega)
  obtain ⟨h1, h0, hh1, hh0, hht, hhv⟩ := paddedInt_two (x := tm.hour) (by have := hr.hour; omega)
  obtain ⟨n1, n0, hn1, hn0, hnt, hnv⟩ := paddedInt_two (x := tm.min) (by have := hr.min; omega)
  obtain ⟨s1, s0, hs1, hs0, hst, hsv⟩ := paddedInt_two (x := tm.sec) (by have := hr.sec; omega)
  have hmon := hr.mon
  have hmday := hr.mday
  have hhour := hr.hour
  have hmin := hr.min
  have hsec := hr.sec
  have htext : isoText tm [ch 'Z'] = digit y3 :: digit y2 :: digit y1 :: digit y0 :: ch '-' :: digit m1 :: digit m0 ::
      ch '-' :: digit d1 :: digit d0 :: ch 'T' :: digit h1 :: digit h0 :: ch ':' :: digit n1 :: digit n0 :: ch ':' ::
      digit s1 :: digit s0 :: [ch 'Z'] := by
    simp [isoText, hyt, hmt, hdt, hht, hnt, hst]
  rw [htext, schedParseTime, Option.bind_some, readYear_digits hy3 hy2 hy1 hy0]
  have htm : (⟨(y3 * 1000 + y2 * 100 + y1 * 10 + y0 : Int) - 1900, m1 * 10 + m0 - 1, d1 * 10 + d0, h1 * 10 + h0,
      n1 * 10 + n0, s1 * 10 + s0⟩ : Tm) = tm := by
    cases tm
    simp only [Tm.mk.injEq] at *
    omega
  simp only [List.drop_succ_cons, List.drop_zero, byte_cons_zero, byte_cons_succ, twoDigits_digits hm1 hm0,
    twoDigits_digits hd1 hd0, twoDigits_digits hh1 hh0, twoDigits_digits hn1 hn0]
  rw [if_neg (by simp; omega)]
  simp only [readSeconds, byte_cons_zero, if_true, List.drop_succ_cons, List.drop_zero, twoDigits_digits hs1 hs0]
  rw [if_neg (by omega), if_neg (show ¬ ch 'Z' = ch '.' by decide)]
  simp only
  rw [if_neg (by omega), htm]
  simp [zoned]

theorem length_isoText {tm : Tm} (hr : tm.InRange) (hy : 0 ≤ tm.year + 1900 ∧ tm.year + 1900 < 10000) :
    (isoText tm [ch 'Z']).length = 20 := by
  obtain ⟨y3, y2, y1, y0, -, -, -, -, hyt, -⟩ := paddedInt_four hy
  obtain ⟨m1, m0, -, -, hmt, -⟩ := paddedInt_two (x := tm.mon + 1) (by have := hr.mon; omega)
  obtain ⟨d1, d0, -, -, hdt, -⟩ := paddedInt_two (x := tm.mday) (by have := hr.mday; omega)
  obtain ⟨h1, h0, -, -, hht, -⟩ := paddedInt_two (x := tm.hour) (by have := hr.hour; omega)
  obtain ⟨n1, n0, -, -, hnt, -⟩ := paddedInt_two (x := tm.min) (by have := hr.min; omega)
  obtain ⟨s1, s0, -, -, hst, -⟩ := paddedInt_two (x := tm.sec) (by have := hr.sec; omega)
  simp [isoText, hyt, hmt, hdt, hht, hnt, hst]

/-- The UTC text of an instant in the years 0 to 9999 denotes it. -/
theorem parse_format_from0 (Z : Zone) {t : Int} (h0 : year0 ≤ t) (h1 : t < year10000) :
    schedParseTime Z (some (formatTime Z t false)) = t := by
  have hr := gmtime_inRange t
  have hy : 0 ≤ (gmtime t).year + 1900 ∧ (gmtime t).year + 1900 < 10000 :=
    ⟨gmtime_year_from0 h0, gmtime_year_lt.mpr h1⟩
  have hcut : formatTime Z t false = isoText (gmtime t) [ch 'Z'] := by
    simp only [formatTime, Bool.false_eq_true, if_false]
    rw [cut_eq_self (by decide), length_isoText hr hy]
    decide
  rw [hcut, parse_isoText Z hr hy, timegm_gmtime]

theorem parse_format (Z : Zone) {t : Int} (h0 : 0 ≤ t) (h1 : t < year10000) :
    schedParseTime Z (some (formatTime Z t false)) = t :=
  parse_format_from0 Z (by unfold year0; omega) h1

/-- A text whose first five bytes are digits is rejected. -/
theorem parse_five_digits (Z : Zone) {p : Str} (h5 : 5 ≤ p.length) (hd : ∀ c ∈ p.take 5, isDigit c = true) :
    schedParseTime Z (some p) = 0 := by
  obtain ⟨c0, c1, c2, c3, c4, q, rfl⟩ : ∃ c0 c1 c2 c3 c4 q, p = c0 :: c1 :: c2 :: c3 :: c4 :: q := by
    rcases p with _ | ⟨c0, _ | ⟨c1, _ | ⟨c2, _ | ⟨c3, _ | ⟨c4, q⟩⟩⟩⟩⟩ <;> simp at h5
    exact ⟨c0, c1, c2, c3, c4, q, rfl⟩
  have h4 : c4 ≠ ch '-' := by
    intro e
    have := hd c4 (by simp)
    rw [e] at this
    exact absurd this (by decide)
  simp only [schedParseTime, Option.bind_some, readYear, byte_cons_zero, List.drop_succ_cons, List.drop_zero,
    hd c0 (by simp), hd c1 (by simp), hd c2 (by simp), hd c3 (by simp), if_true]
  rw [if_pos (Or.inl h4)]

/-- From the year 10000 on, `sched_parse_time` rejects what `format_time` writes. -/
theorem parse_format_late (Z : Zone) {t : Int} (h : year10000 ≤ t) :
    schedParseTime Z (some (formatTime Z t false)) = 0 := by
  have hy : ¬ (gmtime t).year + 1900 < 10000 := fun hlt => by
    have := gmtime_year_lt.mp hlt
    omega
  obtain ⟨y, hyv⟩ : ∃ y : Str, y = padded 4 ((gmtime t).year + 1900).toNat := ⟨_, rfl⟩
  have hlen : 4 < y.length := hyv ▸ lt_length_padded 4 _ (by omega)
  have hdig : ∀ c ∈ y, isDigit c = true := hyv ▸ padded_digits 4 _
  obtain ⟨rest, hrest⟩ : ∃ rest, isoText (gmtime t) [ch 'Z'] = y ++ rest := by
    have hyt : paddedInt 4 ((gmtime t).year + 1900) = y := by rw [paddedInt, if_neg (by omega), ← hyv]
    simp only [isoText, List.append_assoc, hyt]
    exact ⟨_, rfl⟩
  have hform : formatTime Z t false = (y ++ rest).take 31 := by
    simp [formatTime, hrest, cut]
  rw [hform]
  apply parse_five_digits
  · simp
    omega
  · intro c hc
    rw [List.take_take, List.take_append_of_le_length (by simp; omega)] at hc
    exact hdig c (List.mem_of_mem_take hc)

/-- Before the year 0 the text starts with a sign, and is rejected. -/
theorem parse_format_early (Z : Zone) {t : Int} (h : t < year0) :
    schedParseTime Z (some (formatTime Z t false)) = 0 := by
  have hy : paddedInt 4 ((gmtime t).year + 1900) = ch '-' :: padded 3 ((gmtime t).year + 1900).natAbs := by
    rw [paddedInt, if_pos (gmtime_year_neg.mpr h)]
  obtain ⟨rest, hrest⟩ : ∃ rest, formatTime Z t false = ch '-' :: rest := by
    simp only [formatTime, Bool.false_eq_true, if_false, isoText, hy, List.cons_append, List.append_assoc, cut]
    exact ⟨_, rfl⟩
  rw [hrest]
  rfl

/-- The texts that denote something are those of the years 0 to 9999, the epoch apart. -/
theorem parse_format_ne_zero (Z : Zone) (t : Int) :
    schedParseTime Z (some (formatTime Z t false)) ≠ 0 ↔ (year0 ≤ t ∧ t < year10000) ∧ t ≠ 0 := by
  by_cases h0 : year0 ≤ t
  · by_cases h1 : t < year10000
    · rw [parse_format_from0 Z h0 h1]
      exact ⟨fun h => ⟨⟨h0, h1⟩, h⟩, fun h => h.2⟩
    · rw [parse_format_late Z (by omega)]
      exact ⟨fun h => absurd rfl h, fun h => absurd h.1.2 h1⟩
  · rw [parse_format_early Z (by omega)]
    exact ⟨fun h => absurd rfl h, fun h => absurd h.1.1 h0⟩

/-- Whatever the instant, the text it is written as denotes it or nothing. -/
theorem parse_format_cases (Z : Zone) {t : Int} (h0 : 0 ≤ t) :
    schedParseTime Z (some (formatTime Z t false)) = t ∨ schedParseTime Z (some (formatTime Z t false)) = 0 := by
  by_cases h : t < year10000
  · exact Or.inl (parse_format Z h0 h)
  · exact Or.inr (parse_format_late Z (by omega))

end Shclaw.Scheduler
