/-
  Shclaw.Lib.Region — a region of memory with checked accesses.

  A region is the list of its bytes; `read` and `write` of a range outside it fail. A
  function of which a run does not fail touches nothing else.
-/

import Shclaw.Lib.CString

namespace Shclaw.Lib

/-- `n` bytes from `i` on. -/
def read (mem : Str) (i n : Nat) : Option Str := if i + n ≤ mem.length then some ((mem.drop i).take n) else none

/-- The region with `bs` from `i` on. -/
def write (mem : Str) (i : Nat) (bs : Str) : Option Str :=
  if i + bs.length ≤ mem.length then some (mem.take i ++ bs ++ mem.drop (i + bs.length)) else none

/-- The string at `i`, when a NUL ends it inside the region. -/
def readString (mem : Str) (i : Nat) : Option Str :=
  if 0 ∈ mem.drop i then some ((mem.drop i).takeWhile (· ≠ 0)) else none

/-- `mem[i] = ..` of an `int`. -/
def writeAt (mem : Str) (i : Int) (bs : Str) : Option Str := if i < 0 then none else write mem i.toNat bs

/-- `(size_t)n` of an `int`. -/
def asSize (n : Int) : Nat := (n % 2 ^ 64).toNat

/-- `memmove(mem + dst, mem + src, (size_t)n)`. A negative `n` is a size no region has. -/
def memmove (mem : Str) (dst src n : Int) : Option Str :=
  if dst < 0 ∨ src < 0 then none else (read mem src.toNat (asSize n)).bind (write mem dst.toNat)

theorem read_eq {mem : Str} {i n : Nat} (h : i + n ≤ mem.length) : read mem i n = some ((mem.drop i).take n) := if_pos h

theorem write_eq {mem : Str} {i : Nat} {bs : Str} (h : i + bs.length ≤ mem.length) :
    write mem i bs = some (mem.take i ++ bs ++ mem.drop (i + bs.length)) := if_pos h

theorem writeAt_eq {mem : Str} {i : Nat} {bs : Str} (h : i + bs.length ≤ mem.length) :
    writeAt mem i bs = some (mem.take i ++ bs ++ mem.drop (i + bs.length)) := by
  unfold writeAt
  rw [if_neg (by omega), Int.toNat_natCast, write_eq h]

theorem readString_eq {mem : Str} {i : Nat} (h : 0 ∈ mem.drop i) :
    readString mem i = some ((mem.drop i).takeWhile (· ≠ 0)) := if_pos h

variable {mem : Str} {i : Nat} {bs : Str}

/-- A write inside the region: what it leaves, before and behind. -/
theorem written_length (h : i + bs.length ≤ mem.length) :
    (mem.take i ++ bs ++ mem.drop (i + bs.length)).length = mem.length := by
  rw [List.length_append, List.length_append, List.length_take, List.length_drop]
  omega

theorem written_take (h : i + bs.length ≤ mem.length) :
    (mem.take i ++ bs ++ mem.drop (i + bs.length)).take (i + bs.length) = mem.take i ++ bs := by
  apply List.take_left'
  rw [List.length_append, List.length_take]
  omega

theorem written_drop (h : i + bs.length ≤ mem.length) {p : Nat} (hp : i + bs.length ≤ p) :
    (mem.take i ++ bs ++ mem.drop (i + bs.length)).drop p = mem.drop p := by
  have hlen : (mem.take i ++ bs).length = i + bs.length := by
    rw [List.length_append, List.length_take]
    omega
  rw [List.drop_append, List.drop_of_length_le (by omega), List.nil_append, List.drop_drop, hlen]
  congr 1
  omega

theorem asSize_natCast {n : Nat} (h : n < 2 ^ 64) : asSize n = n := by
  unfold asSize
  omega

/-- Both ranges inside the region. -/
theorem memmove_eq {dst src n : Nat} (hn : n < 2 ^ 64) (hsrc : src + n ≤ mem.length) (hdst : dst + n ≤ mem.length) :
    memmove mem dst src n = some (mem.take dst ++ (mem.drop src).take n ++ mem.drop (dst + n)) := by
  have hlen : ((mem.drop src).take n).length = n := by
    rw [List.length_take, List.length_drop]
    omega
  unfold memmove
  rw [if_neg (by omega), asSize_natCast hn, Int.toNat_natCast, Int.toNat_natCast, read_eq hsrc, Option.bind_some,
    write_eq (by omega), hlen]

end Shclaw.Lib
