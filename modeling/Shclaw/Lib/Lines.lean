/-
  Shclaw.Lib.Lines — a stream as the segments a separator ends.

  `segments sep s` is the list of segments that end with a separator, without it, and
  what follows the last separator. A stream that is read in pieces needs only that
  tail carried from one piece to the next (`segments_append`).
-/

import Mathlib.Data.List.Basic

namespace Shclaw.Lib

variable {α : Type} {sep : α}

/-- What stands before a segment. -/
def AtStart (sep : α) (pre : List α) : Prop := pre = [] ∨ ∃ p, pre = p ++ [sep]

theorem AtStart.behind {pre : List α} (h : AtStart sep pre) (a : List α) : AtStart sep (a ++ sep :: pre) := by
  rcases h with rfl | ⟨p, rfl⟩
  · exact Or.inr ⟨a, rfl⟩
  · exact Or.inr ⟨a ++ sep :: p, by simp⟩

variable [DecidableEq α]

def segments (sep : α) : List α → List (List α) × List α
  | [] => ([], [])
  | x :: s =>
    let r := segments sep s
    if x = sep then ([] :: r.1, r.2)
    else
      match r.1 with
      | [] => ([], x :: r.2)
      | seg :: segs => ((x :: seg) :: segs, r.2)

theorem segments_of_not_mem {s : List α} (h : sep ∉ s) : segments sep s = ([], s) := by
  induction s with
  | nil => rfl
  | cons x s ih =>
    rw [List.mem_cons, not_or] at h
    simp only [segments, ih h.2, if_neg (Ne.symm h.1)]

/-- Up to the first separator. -/
theorem segments_first {a : List α} (h : sep ∉ a) (s : List α) :
    segments sep (a ++ sep :: s) = (a :: (segments sep s).1, (segments sep s).2) := by
  induction a with
  | nil => simp [segments]
  | cons x a ih =>
    rw [List.mem_cons, not_or] at h
    simp only [List.cons_append, segments, ih h.2, if_neg (Ne.symm h.1)]

/-- A stream has no separator, or a segment, its separator and a stream. -/
theorem segments_induction (sep : α) {P : List α → Prop} (tail : ∀ a, sep ∉ a → P a)
    (seg : ∀ a s, sep ∉ a → P s → P (a ++ sep :: s)) (s : List α) : P s := by
  induction hn : s.length using Nat.strongRecOn generalizing s with
  | ind n ih =>
    by_cases h : sep ∈ s
    · obtain ⟨a, t, rfl, ha⟩ := List.eq_append_cons_of_mem h
      refine seg a t ha (ih t.length ?_ t rfl)
      rw [← hn, List.length_append, List.length_cons]
      omega
    · exact tail s h

/-- The segments and the tail are the pieces between the separators. -/
theorem splitOn_segments (sep : α) (s : List α) : s.splitOn sep = (segments sep s).1 ++ [(segments sep s).2] := by
  induction s using segments_induction sep with
  | tail a ha => rw [segments_of_not_mem ha, List.splitOn_eq_singleton ha, List.nil_append]
  | seg a s ha ih =>
    rw [segments_first ha, List.splitOn_append_cons_self, List.splitOn_eq_singleton ha, ih]
    rfl

/-- Only the tail of what came before matters for what comes next. -/
theorem segments_append (a b : List α) : segments sep (a ++ b) =
    ((segments sep a).1 ++ (segments sep ((segments sep a).2 ++ b)).1, (segments sep ((segments sep a).2 ++ b)).2) := by
  induction a using segments_induction sep with
  | tail a ha => rw [segments_of_not_mem ha, List.nil_append]
  | seg a s ha ih => rw [List.append_assoc, List.cons_append, segments_first ha, segments_first ha, ih, List.cons_append]

/-- The tail starts a segment and has no separator. -/
theorem segments_tail (sep : α) (s : List α) :
    ∃ pre, s = pre ++ (segments sep s).2 ∧ AtStart sep pre ∧ sep ∉ (segments sep s).2 := by
  induction s using segments_induction sep with
  | tail a ha =>
    rw [segments_of_not_mem ha]
    exact ⟨[], rfl, Or.inl rfl, ha⟩
  | seg a s ha ih =>
    obtain ⟨pre, hs, hpre, htail⟩ := ih
    rw [segments_first ha]
    exact ⟨a ++ sep :: pre, by rw [List.append_assoc, List.cons_append, ← hs], hpre.behind a, htail⟩

/-- A segment stands where one may start, and its separator behind it. -/
theorem mem_segments {s seg : List α} (h : seg ∈ (segments sep s).1) :
    ∃ pre post, s = pre ++ seg ++ sep :: post ∧ AtStart sep pre ∧ sep ∉ seg := by
  induction s using segments_induction sep with
  | tail a ha =>
    rw [segments_of_not_mem ha] at h
    cases h
  | seg a s ha ih =>
    rw [segments_first ha] at h
    rcases List.mem_cons.mp h with rfl | h
    · exact ⟨[], s, rfl, Or.inl rfl, ha⟩
    · obtain ⟨pre, post, rfl, hpre, hseg⟩ := ih h
      exact ⟨a ++ sep :: pre, post, by simp, hpre.behind a, hseg⟩

/-- Nothing follows a separator at the end. -/
theorem segments_of_atStart {pre : List α} (h : AtStart sep pre) : (segments sep pre).2 = [] := by
  rcases h with rfl | ⟨p, rfl⟩
  · rfl
  · obtain ⟨-, -, -, htail⟩ := segments_tail sep p
    rw [segments_append, segments_first htail]
    rfl

/-! ## Two bytes that end a line -/

/-- The lines that `cr`, `lf` ends, and what follows the last of them. -/
def lineSegments (cr lf : α) : List α → List (List α) × List α
  | x :: y :: s =>
    if x = cr ∧ y = lf then
      let r := lineSegments cr lf s
      ([] :: r.1, r.2)
    else
      let r := lineSegments cr lf (y :: s)
      match r.1 with
      | [] => ([], x :: r.2)
      | line :: lines => ((x :: line) :: lines, r.2)
  | s => ([], s)

theorem lineSegments_first {cr lf : α} {line : List α} (h : cr ∉ line) (s : List α) :
    lineSegments cr lf (line ++ cr :: lf :: s) = (line :: (lineSegments cr lf s).1, (lineSegments cr lf s).2) := by
  induction line with
  | nil =>
    rw [List.nil_append, lineSegments, if_pos ⟨rfl, rfl⟩]
  | cons x line ih =>
    rw [List.mem_cons, not_or] at h
    have ih := ih h.2
    cases line with
    | nil =>
      rw [List.cons_append, List.nil_append, lineSegments, if_neg fun hx => h.1 hx.1.symm]
      rw [List.nil_append] at ih
      rw [ih]
    | cons y line =>
      rw [List.cons_append, List.cons_append, lineSegments, if_neg fun hx => h.1 hx.1.symm]
      rw [List.cons_append] at ih
      rw [ih]

/-- Lines without a `cr`, each ended, are what they split into. -/
theorem lineSegments_flatMap {cr lf : α} {lines : List (List α)} (h : ∀ line ∈ lines, cr ∉ line) :
    lineSegments cr lf (lines.flatMap (· ++ [cr, lf])) = (lines, []) := by
  induction lines with
  | nil => rfl
  | cons line lines ih =>
    rw [List.flatMap_cons, List.append_assoc, List.cons_append, List.cons_append, List.nil_append,
      lineSegments_first (h line List.mem_cons_self), ih fun x hx => h x (List.mem_cons_of_mem _ hx)]

end Shclaw.Lib
