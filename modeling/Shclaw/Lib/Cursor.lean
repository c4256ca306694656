/-
  Shclaw.Lib.Cursor — a text with a cursor.

  The cursor is between the elements before it and those behind it. `cont` says which
  elements continue the one before them, so that the cursor moves, and a deletion
  takes, whole groups: an element that does not continue and what continues it.
-/

import Mathlib.Data.List.DropRight

namespace Shclaw.Lib

structure Cursor (α : Type) where
  before : List α
  behind : List α
  deriving DecidableEq

namespace Cursor

variable {α : Type} (cont : α → Bool) (c : Cursor α)

def empty : Cursor α := ⟨[], []⟩

def text : List α := c.before ++ c.behind

/-- Where the group before the cursor starts. -/
def prev : Nat := (c.before.rdropWhile cont).dropLast.length

/-- The length of the group behind the cursor. -/
def next : Nat := 1 + ((c.behind.drop 1).takeWhile cont).length

def insert (x : α) : Cursor α := ⟨c.before ++ [x], c.behind⟩

def left : Cursor α := ⟨c.before.take (c.prev cont), c.before.drop (c.prev cont) ++ c.behind⟩

def right : Cursor α := ⟨c.before ++ c.behind.take (c.next cont), c.behind.drop (c.next cont)⟩

/-- Deletes the group before the cursor. -/
def backspace : Cursor α := ⟨c.before.take (c.prev cont), c.behind⟩

/-- Deletes the group behind the cursor. -/
def delete : Cursor α := ⟨c.before, c.behind.drop (c.next cont)⟩

def home : Cursor α := ⟨[], c.text⟩

def last : Cursor α := ⟨c.text, []⟩

/-- Deletes what is behind the cursor. -/
def kill : Cursor α := ⟨c.before, []⟩

@[simp] theorem text_empty : (empty : Cursor α).text = [] := rfl

@[simp] theorem text_left : (c.left cont).text = c.text := by
  simp [text, left, ← List.append_assoc]

@[simp] theorem text_right : (c.right cont).text = c.text := by
  simp [text, right]

@[simp] theorem text_home : c.home.text = c.text := rfl

@[simp] theorem text_last : c.last.text = c.text := List.append_nil _

theorem text_take {n : Nat} (h : n ≤ c.before.length) : c.text.take n = c.before.take n :=
  List.take_append_of_le_length h

theorem text_drop (n : Nat) : c.text.drop (c.before.length + n) = c.behind.drop n := by
  simp [text, ← List.drop_drop]

theorem length_text : c.text.length = c.before.length + c.behind.length := List.length_append

theorem length_text_insert (x : α) : (c.insert x).text.length = c.text.length + 1 := by
  simp [text, insert]
  omega

variable {c}

theorem prev_lt (h : c.before ≠ []) : c.prev cont < c.before.length := by
  have hpos := List.length_pos_iff.mpr h
  have hle := (List.rdropWhile_prefix cont c.before).length_le
  unfold prev
  rw [List.length_dropLast]
  omega

theorem next_le (h : c.behind ≠ []) : c.next cont ≤ c.behind.length := by
  have hpos := List.length_pos_iff.mpr h
  have hle := (List.takeWhile_prefix (l := c.behind.drop 1) cont).length_le
  rw [List.length_drop] at hle
  unfold next
  omega

/-- With nothing before it the cursor does not move back. -/
theorem left_start (h : c.before = []) : c.left cont = c := by
  obtain ⟨before, behind⟩ := c
  subst h
  rfl

theorem backspace_start (h : c.before = []) : c.backspace cont = c := by
  obtain ⟨before, behind⟩ := c
  subst h
  rfl

theorem right_end (h : c.behind = []) : c.right cont = c := by
  obtain ⟨before, behind⟩ := c
  subst h
  simp [right]

theorem delete_end (h : c.behind = []) : c.delete cont = c := by
  obtain ⟨before, behind⟩ := c
  subst h
  rfl

end Cursor

end Shclaw.Lib
