/-
  Shclaw.Lib.Tagged — texts of several writers in one place.

  Each item carries the tag of the text it belongs to, and `own f i` is the part whose
  tags `f` gives to writer `i`. What one writer appends is added to its own part and to
  no other (`own_append_self`, `own_append_other`), however many write. A text that went
  out in one piece stays in one piece.
-/

import Mathlib.Data.List.Basic
import Mathlib.Data.List.Infix

namespace Shclaw.Lib

variable {κ ι α : Type} [DecidableEq ι] {f : κ → ι} {i j : ι} {k : κ} {xs ys : List (κ × α)}

/-- A text under its tag. -/
def tagged (k : κ) (s : List α) : List (κ × α) := s.map (k, ·)

/-- The part of writer `i`. -/
def own (f : κ → ι) (i : ι) (xs : List (κ × α)) : List (κ × α) := xs.filter fun c => f c.1 = i

theorem tag_of_mem {s : List α} {c : κ × α} (h : c ∈ tagged k s) : c.1 = k := by
  obtain ⟨a, -, rfl⟩ := List.mem_map.mp h
  rfl

theorem own_append (xs ys : List (κ × α)) : own f i (xs ++ ys) = own f i xs ++ own f i ys := List.filter_append _ _

theorem own_append_self (xs : List (κ × α)) (h : ∀ c ∈ ys, f c.1 = i) : own f i (xs ++ ys) = own f i xs ++ ys := by
  rw [own_append]
  exact congrArg _ (List.filter_eq_self.mpr fun c hc => decide_eq_true (h c hc))

theorem own_append_other (xs : List (κ × α)) (h : ∀ c ∈ ys, f c.1 = j) (hij : j ≠ i) : own f i (xs ++ ys) = own f i xs := by
  have hnone : own f i ys = [] := List.filter_eq_nil_iff.mpr fun c hc => by simpa [h c hc] using hij
  rw [own_append, hnone, List.append_nil]

theorem mem_own {c : κ × α} (h : c ∈ xs) : c ∈ own f (f c.1) xs := List.mem_filter.mpr ⟨h, decide_eq_true rfl⟩

/-- In one piece, or not there at all. -/
def InOnePiece (s : List (κ × α)) (k : κ) (xs : List (κ × α)) : Prop := s <:+: xs ∨ ∀ c ∈ xs, c.1 ≠ k

/-- What is written of other texts divides none. -/
theorem InOnePiece.append {s : List (κ × α)} (h : InOnePiece s k xs) (hys : ∀ c ∈ ys, c.1 ≠ k) :
    InOnePiece s k (xs ++ ys) := by
  cases h with
  | inl hin => exact .inl (hin.trans (List.prefix_append xs ys).isInfix)
  | inr hnone =>
    refine .inr fun c hc => ?_
    exact (List.mem_append.mp hc).elim (hnone c) (hys c)

theorem inOnePiece_append_self (xs s : List (κ × α)) (k : κ) : InOnePiece s k (xs ++ s) :=
  .inl (List.suffix_append xs s).isInfix

end Shclaw.Lib
