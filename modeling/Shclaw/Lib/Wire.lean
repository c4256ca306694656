/-
  Shclaw.Lib.Wire — fixed-width little-endian numbers and exact reads from a byte
  stream.

  `readFull n s` takes exactly `n` bytes or fails; reads compose (`readFull_add`), so a
  reader that takes the same bytes in pieces takes the same bytes. A number of `w`
  bytes reads back from what it was written as (`leNat_leBytes`).
-/

import Mathlib.Data.List.Basic
import Mathlib.Algebra.Group.Nat.Defs

namespace Shclaw.Lib

/-- `n` in `w` bytes, the lowest first. -/
def leBytes : Nat → Nat → List UInt8
  | 0, _ => []
  | w + 1, n => UInt8.ofNat (n % 256) :: leBytes w (n / 256)

def leNat : List UInt8 → Nat
  | [] => 0
  | c :: s => c.toNat + 256 * leNat s

@[simp] theorem length_leBytes (w n : Nat) : (leBytes w n).length = w := by
  induction w generalizing n with
  | zero => rfl
  | succ w ih => simp [leBytes, ih]

theorem leNat_leBytes {w n : Nat} (h : n < 256 ^ w) : leNat (leBytes w n) = n := by
  induction w generalizing n with
  | zero =>
    rw [Nat.pow_zero] at h
    simp only [leBytes, leNat]
    omega
  | succ w ih =>
    rw [Nat.pow_succ] at h
    have hlow : (UInt8.ofNat (n % 256)).toNat = n % 256 := by
      rw [UInt8.toNat_ofNat']
      omega
    simp only [leBytes, leNat, hlow, ih (n := n / 256) (by omega)]
    omega

/-- Exactly `n` bytes and what follows them. -/
def readFull (n : Nat) (s : List UInt8) : Option (List UInt8 × List UInt8) :=
  if n ≤ s.length then some (s.take n, s.drop n) else none

theorem readFull_append {a : List UInt8} {n : Nat} (h : a.length = n) (s : List UInt8) :
    readFull n (a ++ s) = some (a, s) := by
  subst h
  unfold readFull
  rw [if_pos (by simp), List.take_left, List.drop_left]

/-- A read in two pieces. -/
theorem readFull_add (n m : Nat) (s : List UInt8) :
    readFull (n + m) s = (readFull n s).bind fun a => (readFull m a.2).map fun b => (a.1 ++ b.1, b.2) := by
  unfold readFull
  by_cases hn : n ≤ s.length
  · rw [if_pos hn, Option.bind_some, List.length_drop]
    by_cases hm : n + m ≤ s.length
    · rw [if_pos hm, if_pos (by omega), Option.map_some, List.drop_drop, List.take_add]
    · rw [if_neg hm, if_neg (by omega)]
      rfl
  · rw [if_neg (by omega), if_neg hn]
    rfl

end Shclaw.Lib
