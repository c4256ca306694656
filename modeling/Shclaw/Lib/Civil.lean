/-
  Shclaw.Lib.Civil — the proleptic Gregorian calendar: `struct tm`, `timegm` and
  `gmtime_r`.

  Years are counted from March, so that the leap day is the last day of its year:
  a day number splits into 400-year, 100-year, 4-year and one-year cycles, and a day
  of the year into months of 153 days in five. `timegm` normalises as documented: a
  day past the end of its month runs into the next one, and so does a second 60.
-/

import Mathlib.Tactic.Linarith

namespace Shclaw.Lib

/-- `struct tm`: years since 1900, months since January. -/
structure Tm where
  year : Int
  mon : Int
  mday : Int
  hour : Int
  min : Int
  sec : Int
  deriving DecidableEq, Repr

namespace Civil

/-- Days from 0000-03-01 to 1970-01-01. -/
def epoch : Int := 719468

/-- Days from 0000-03-01 to the first of March of year `a`. -/
def yearStart (a : Int) : Int := 365 * a + a / 4 - a / 100 + a / 400

/-- Days from 1970-01-01 to day `d` of month `m` (1 to 12) of year `y`. -/
def daysFromCivil (y m d : Int) : Int :=
  let a := if m ≤ 2 then y - 1 else y
  let mp := if m ≤ 2 then m + 9 else m - 3
  yearStart a + (153 * mp + 2) / 5 + (d - 1) - epoch

theorem daysFromCivil_le {y m d : Int} (h : m ≤ 2) :
    daysFromCivil y m d = yearStart (y - 1) + (153 * (m + 9) + 2) / 5 + (d - 1) - epoch := by
  simp [daysFromCivil, h]

theorem daysFromCivil_gt {y m d : Int} (h : 2 < m) :
    daysFromCivil y m d = yearStart y + (153 * (m - 3) + 2) / 5 + (d - 1) - epoch := by
  simp [daysFromCivil, show ¬ m ≤ 2 by omega]

/-- The March-based year of day `z` from 0000-03-01, and the day in it. -/
def yearOfDay (z : Int) : Int × Int :=
  let qc := z / 146097
  let r := z % 146097
  let c := min (r / 36524) 3
  let r1 := r - 36524 * c
  let q := min (r1 / 1461) 24
  let r2 := r1 - 1461 * q
  let y := min (r2 / 365) 3
  (400 * qc + 100 * c + 4 * q + y, r2 - 365 * y)

theorem yearStart_cycles {qc c q y : Int} (hc : 0 ≤ c ∧ c ≤ 3) (hq : 0 ≤ q ∧ q ≤ 24) (hy : 0 ≤ y ∧ y ≤ 3) :
    yearStart (400 * qc + 100 * c + 4 * q + y) = 146097 * qc + 36524 * c + 1461 * q + 365 * y := by
  have h4 : (400 * qc + 100 * c + 4 * q + y) / 4 = 100 * qc + 25 * c + q := by omega
  have h100 : (400 * qc + 100 * c + 4 * q + y) / 100 = 4 * qc + c := by omega
  have h400 : (400 * qc + 100 * c + 4 * q + y) / 400 = qc := by omega
  rw [yearStart, h4, h100, h400]
  omega

theorem yearOfDay_spec (z : Int) :
    z = yearStart (yearOfDay z).1 + (yearOfDay z).2 ∧ 0 ≤ (yearOfDay z).2 ∧ (yearOfDay z).2 ≤ 365 := by
  have hr : 0 ≤ z % 146097 ∧ z % 146097 < 146097 := by omega
  simp only [yearOfDay]
  obtain ⟨c, hc⟩ : ∃ c, c = min (z % 146097 / 36524) 3 := ⟨_, rfl⟩
  rw [← hc]
  have h1 : 0 ≤ c ∧ c ≤ 3 ∧ 0 ≤ z % 146097 - 36524 * c ∧ z % 146097 - 36524 * c ≤ 36524 := by omega
  obtain ⟨r1, hr1⟩ : ∃ r1, r1 = z % 146097 - 36524 * c := ⟨_, rfl⟩
  rw [← hr1] at h1 ⊢
  obtain ⟨q, hq⟩ : ∃ q, q = min (r1 / 1461) 24 := ⟨_, rfl⟩
  rw [← hq]
  have h2 : 0 ≤ q ∧ q ≤ 24 ∧ 0 ≤ r1 - 1461 * q ∧ r1 - 1461 * q ≤ 1460 := by omega
  obtain ⟨r2, hr2⟩ : ∃ r2, r2 = r1 - 1461 * q := ⟨_, rfl⟩
  rw [← hr2] at h2 ⊢
  obtain ⟨y, hy⟩ : ∃ y, y = min (r2 / 365) 3 := ⟨_, rfl⟩
  rw [← hy]
  have h3 : 0 ≤ y ∧ y ≤ 3 ∧ 0 ≤ r2 - 365 * y ∧ r2 - 365 * y ≤ 365 := by omega
  rw [yearStart_cycles ⟨h1.1, h1.2.1⟩ ⟨h2.1, h2.2.1⟩ ⟨h3.1, h3.2.1⟩]
  omega

end Civil

open Civil

/-- Seconds from 1970-01-01T00:00:00Z, the fields taken as UTC. -/
def timegm (tm : Tm) : Int :=
  86400 * daysFromCivil (tm.year + 1900) (tm.mon + 1) tm.mday + 3600 * tm.hour + 60 * tm.min + tm.sec

/-- Day `doy` of the March-based year `a`, second `s` of the day. -/
def Tm.ofParts (a doy s : Int) : Tm :=
  let mp := (5 * doy + 2) / 153
  { year := (if 10 ≤ mp then a + 1 else a) - 1900
    mon := if 10 ≤ mp then mp - 10 else mp + 2
    mday := doy - (153 * mp + 2) / 5 + 1
    hour := s / 3600
    min := s / 60 % 60
    sec := s % 60 }

/-- `gmtime_r`. -/
def gmtime (t : Int) : Tm :=
  let yd := yearOfDay (t / 86400 + epoch)
  .ofParts yd.1 yd.2 (t % 86400)

/-! ## `gmtime` is the inverse of `timegm`, and its fields are in range -/

theorem timegm_ofParts {a doy : Int} (s : Int) (hd : 0 ≤ doy ∧ doy ≤ 365) :
    timegm (.ofParts a doy s) = 86400 * (yearStart a + doy - epoch) + s := by
  have hmp : 0 ≤ (5 * doy + 2) / 153 ∧ (5 * doy + 2) / 153 ≤ 11 := by omega
  by_cases h : 10 ≤ (5 * doy + 2) / 153
  · have hy : (Tm.ofParts a doy s).year + 1900 - 1 = a := by simp only [Tm.ofParts, if_pos h]; omega
    have hm : (Tm.ofParts a doy s).mon + 1 + 9 = (5 * doy + 2) / 153 := by simp only [Tm.ofParts, if_pos h]; omega
    rw [timegm, daysFromCivil_le (by omega), hy, hm]
    simp only [Tm.ofParts]
    omega
  · have hy : (Tm.ofParts a doy s).year + 1900 = a := by simp only [Tm.ofParts, if_neg h]; omega
    have hm : (Tm.ofParts a doy s).mon + 1 - 3 = (5 * doy + 2) / 153 := by simp only [Tm.ofParts, if_neg h]; omega
    rw [timegm, daysFromCivil_gt (by omega), hy, hm]
    simp only [Tm.ofParts]
    omega

theorem timegm_gmtime (t : Int) : timegm (gmtime t) = t := by
  obtain ⟨hz, hd⟩ := yearOfDay_spec (t / 86400 + epoch)
  rw [gmtime, timegm_ofParts _ hd, ← hz]
  omega

/-- The fields of a broken-down time are in their ranges. -/
structure Tm.InRange (tm : Tm) : Prop where
  mon : 0 ≤ tm.mon ∧ tm.mon ≤ 11
  mday : 1 ≤ tm.mday ∧ tm.mday ≤ 31
  hour : 0 ≤ tm.hour ∧ tm.hour ≤ 23
  min : 0 ≤ tm.min ∧ tm.min ≤ 59
  sec : 0 ≤ tm.sec ∧ tm.sec ≤ 59

theorem Tm.inRange_ofParts {a doy s : Int} (hd : 0 ≤ doy ∧ doy ≤ 365) (hs : 0 ≤ s ∧ s < 86400) :
    (Tm.ofParts a doy s).InRange := by
  have hmp : 0 ≤ (5 * doy + 2) / 153 ∧ (5 * doy + 2) / 153 ≤ 11 := by omega
  refine ⟨?_, ?_, ?_, ?_, ?_⟩ <;> simp only [Tm.ofParts]
  · split <;> omega
  all_goals omega

theorem gmtime_inRange (t : Int) : (gmtime t).InRange :=
  Tm.inRange_ofParts (yearOfDay_spec _).2 (by omega)

/-- The first second of the year 10000. -/
def year10000 : Int := 253402300800

/-- The first second of the year 0. -/
def year0 : Int := -62167219200

/-- The year has a sign before the year 0. -/
theorem gmtime_year_neg {t : Int} : (gmtime t).year + 1900 < 0 ↔ t < year0 := by
  obtain ⟨hz, hd⟩ := yearOfDay_spec (t / 86400 + epoch)
  have he : epoch = 719468 := rfl
  rw [yearStart] at hz
  simp only [gmtime, Tm.ofParts, year0]
  split <;> omega

theorem gmtime_year_from0 {t : Int} (h : year0 ≤ t) : 0 ≤ (gmtime t).year + 1900 := by
  have hneg := gmtime_year_neg (t := t)
  omega

/-- The year has four digits before the year 10000, and more from there on. -/
theorem gmtime_year_lt {t : Int} : (gmtime t).year + 1900 < 10000 ↔ t < year10000 := by
  obtain ⟨hz, hd⟩ := yearOfDay_spec (t / 86400 + epoch)
  have he : epoch = 719468 := rfl
  rw [yearStart] at hz
  simp only [gmtime, Tm.ofParts, year10000]
  split <;> omega

/-! ## The day of the year -/

/-- `tm_yday`. -/
def yday (t : Int) : Int := t / 86400 - daysFromCivil ((gmtime t).year + 1900) 1 1

/-- A year has 365 days at least. -/
theorem firstDay_le {y y' : Int} (h : y < y') : daysFromCivil y 1 1 + 365 ≤ daysFromCivil y' 1 1 := by
  rw [daysFromCivil_le (by decide), daysFromCivil_le (by decide)]
  simp only [yearStart]
  omega

/-- Within 364 days, a day of the year is one day. -/
theorem day_of_yday {t u : Int} (h : yday t = yday u) (hfrom : u ≤ t + 364 * 86400) (hto : t ≤ u + 364 * 86400) :
    t / 86400 = u / 86400 := by
  unfold yday at h
  rcases Int.lt_trichotomy ((gmtime t).year + 1900) ((gmtime u).year + 1900) with hlt | heq | hgt
  · have := firstDay_le hlt
    omega
  · rw [heq] at h
    omega
  · have := firstDay_le hgt
    omega

/-- The date is that of the day. -/
theorem gmtime_day {t u : Int} (h : t / 86400 = u / 86400) :
    (gmtime t).year = (gmtime u).year ∧ (gmtime t).mon = (gmtime u).mon ∧ (gmtime t).mday = (gmtime u).mday := by
  simp only [gmtime, Tm.ofParts, h]
  exact ⟨trivial, trivial, trivial⟩

end Shclaw.Lib
