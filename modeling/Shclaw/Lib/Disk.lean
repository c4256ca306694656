/-
  Shclaw.Lib.Disk — a directory of names for files.

  A name leads to a file by its number, a file keeps its bytes under any name and without
  one. So whoever has a file open reads it on after its name was given to another. Each
  operation comes with what it does to the text a name leads to.
-/

import Mathlib.Logic.Function.Basic
import Shclaw.Lib.CString

namespace Shclaw.Lib

open Function (update)

structure Disk where
  dir : Str → Option Nat
  files : List Str
  inside : ∀ p i, dir p = some i → i < files.length

namespace Disk

variable {d d' : Disk} {p q x : Str} {i j : Nat}

/-- An empty directory. -/
def empty : Disk := ⟨fun _ => none, [], fun _ _ h => by cases h⟩

/-- What a name leads to. -/
def text (d : Disk) (p : Str) : Option Str := (d.dir p).bind fun i => d.files[i]?

/-- `open` with `O_CREAT | O_EXCL`. -/
def create (d : Disk) (p : Str) : Option Disk :=
  if d.dir p = none then some
    { dir := update d.dir p (some d.files.length)
      files := d.files ++ [[]]
      inside := by
        intro q i h
        rw [List.length_append, List.length_singleton]
        by_cases hq : q = p
        · subst hq
          rw [Function.update_self] at h
          cases h
          exact Nat.lt_succ_self _
        · rw [Function.update_of_ne hq] at h
          exact Nat.lt_succ_of_lt (d.inside q i h) }
  else none

/-- `write` at the end of an open file. -/
def append (d : Disk) (i : Nat) (bs : Str) : Disk :=
  { d with
    files := d.files.modify i (· ++ bs)
    inside := fun p j h => by
      rw [List.length_modify]
      exact d.inside p j h }

def unlink (d : Disk) (p : Str) : Disk :=
  { d with
    dir := update d.dir p none
    inside := fun q i h => by
      by_cases hq : q = p
      · subst hq
        rw [Function.update_self] at h
        cases h
      · rw [Function.update_of_ne hq] at h
        exact d.inside q i h }

/-- `rename`: nothing happens to two names of one file. -/
def rename (d : Disk) (p q : Str) : Option Disk :=
  match h : d.dir p with
  | none => none
  | some i => if d.dir q = some i then some d else some (unlink
    { d with
      dir := update d.dir q (some i)
      inside := fun x j hx => by
        by_cases hxq : x = q
        · subst hxq
          rw [Function.update_self] at hx
          cases hx
          exact d.inside p _ h
        · rw [Function.update_of_ne hxq] at hx
          exact d.inside x j hx } p)

/-! ## What each operation does -/

theorem create_eq (h : d.create p = some d') :
    d.dir p = none ∧ d'.dir = update d.dir p (some d.files.length) ∧ d'.files = d.files ++ [[]] := by
  unfold create at h
  split at h
  · cases h
    exact ⟨‹_›, rfl, rfl⟩
  · cases h

theorem rename_eq (h : d.rename p q = some d') {i : Nat} (hi : d.dir p = some i) (hq : d.dir q ≠ some i) :
    d'.dir = update (update d.dir q (some i)) p none ∧ d'.files = d.files := by
  unfold rename at h
  split at h
  · cases h
  · rename_i j hj
    rw [hj] at hi
    cases hi
    rw [if_neg hq] at h
    cases h
    exact ⟨rfl, rfl⟩

/-- A name in the directory leads to a text. -/
theorem text_eq (d : Disk) (h : d.dir p = some i) : d.text p = d.files[i]? := by
  unfold text
  rw [h, Option.bind_some]

theorem text_none (h : d.dir p = none) : d.text p = none := by
  unfold text
  rw [h, Option.bind_none]

theorem file_create (h : d.create p = some d') (hi : i < d.files.length) : d'.files[i]? = d.files[i]? := by
  rw [(create_eq h).2.2, List.getElem?_append_left hi]

theorem text_create (h : d.create p = some d') (hx : x ≠ p) : d'.text x = d.text x := by
  obtain ⟨-, hdir, -⟩ := create_eq h
  cases hd : d.dir x with
  | none => rw [text_none hd, text_none (by rw [hdir, Function.update_of_ne hx, hd])]
  | some i => rw [text_eq d hd, text_eq d' (by rw [hdir, Function.update_of_ne hx, hd]), file_create h (d.inside x i hd)]

@[simp] theorem append_dir (d : Disk) (i : Nat) (bs : Str) : (d.append i bs).dir = d.dir := rfl

theorem file_append (d : Disk) (i : Nat) (bs : Str) : (d.append i bs).files[i]? = d.files[i]?.map (· ++ bs) := by
  unfold append
  rw [List.getElem?_modify_eq]
  rfl

theorem file_append_ne (d : Disk) (bs : Str) (h : i ≠ j) : (d.append i bs).files[j]? = d.files[j]? := by
  unfold append
  exact List.getElem?_modify_ne _ _ h

/-- Bytes go to no name of another file. -/
theorem text_append (bs : Str) (h : d.dir x ≠ some i) : (d.append i bs).text x = d.text x := by
  cases hd : d.dir x with
  | none => rw [text_none hd, text_none (by rw [append_dir, hd])]
  | some j =>
    have hij : i ≠ j := by
      rintro rfl
      exact h hd
    rw [text_eq d hd, text_eq (d.append i bs) hd, file_append_ne d bs hij]

@[simp] theorem unlink_dir (d : Disk) (p : Str) : (d.unlink p).dir = update d.dir p none := rfl

@[simp] theorem unlink_files (d : Disk) (p : Str) : (d.unlink p).files = d.files := rfl

theorem text_unlink (d : Disk) (p x : Str) : (d.unlink p).text x = if x = p then none else d.text x := by
  split
  · rename_i hx
    exact text_none (by rw [unlink_dir, hx, Function.update_self])
  · rename_i hx
    unfold text
    rw [unlink_dir, Function.update_of_ne hx, unlink_files]

/-- The new name leads to the file, the old one nowhere, the others where they did. -/
theorem text_rename (h : d.rename p q = some d') (hi : d.dir p = some i) (hq : d.dir q ≠ some i) (hx : x ≠ p) :
    d'.text x = if x = q then d.files[i]? else d.text x := by
  obtain ⟨hdir, hfiles⟩ := rename_eq h hi hq
  unfold text
  rw [hdir, hfiles, Function.update_of_ne hx]
  split
  · rename_i hxq
    rw [hxq, Function.update_self, Option.bind_some]
  · rename_i hxq
    rw [Function.update_of_ne hxq]

end Disk

end Shclaw.Lib
