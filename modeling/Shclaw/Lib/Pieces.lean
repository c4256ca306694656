/-
  Shclaw.Lib.Pieces — a list of names in one string, the names between separators.

  A search for `,name,` in `,a,b,c,` finds the runs of consecutive names
  (`infix_pieces`): one name, or several with their separators between them.
-/

import Mathlib.Data.List.Infix

namespace Shclaw.Lib

variable {α : Type} {sep : α}

/-- A separator before each piece. -/
theorem cons_intercalate (sep : α) {pieces : List (List α)} (h : pieces ≠ []) :
    sep :: [sep].intercalate pieces = pieces.flatMap (sep :: ·) := by
  induction pieces with
  | nil => exact absurd rfl h
  | cons p ps ih =>
    cases ps with
    | nil => simp
    | cons q qs =>
      rw [List.intercalate_cons_cons, List.flatMap_cons, ← ih (List.cons_ne_nil q qs)]
      simp

/-- What has no separator in it is found on one side of it. -/
theorem infix_append_cons {w a b : List α} (h : sep ∉ w) : w <:+: a ++ sep :: b ↔ w <:+: a ∨ w <:+: b := by
  constructor
  · rintro ⟨x, y, hxy⟩
    rcases List.append_eq_append_iff.mp hxy with ⟨d, hd, -⟩ | ⟨d, hd, hdy⟩
    · exact .inl ⟨x, d, hd.symm⟩
    · cases d with
      | nil => exact .inl ⟨x, [], by rw [hd, List.append_nil, List.append_nil]⟩
      | cons c d =>
        obtain ⟨rfl, rfl⟩ := List.cons.inj hdy
        rcases List.append_eq_append_iff.mp hd with ⟨e, -, he⟩ | ⟨e, -, he⟩
        · exact absurd (he ▸ List.mem_append_right e List.mem_cons_self) h
        · cases e with
          | nil => exact absurd (by rw [List.nil_append] at he; exact he ▸ List.mem_cons_self) h
          | cons c' e =>
            obtain ⟨-, rfl⟩ := List.cons.inj he
            exact .inr ⟨e, y, rfl⟩
  · rintro (hin | hin)
    · exact hin.trans (List.prefix_append a _).isInfix
    · exact hin.trans ((List.suffix_cons sep b).trans (List.suffix_append a _)).isInfix

variable [BEq α] [LawfulBEq α]

/-- Between separators a string is its pieces with a separator before each, and one behind. -/
theorem enclosed_eq (sep : α) (s : List α) : sep :: s ++ [sep] = (s.splitOn sep).flatMap (sep :: ·) ++ [sep] := by
  rw [← cons_intercalate sep (List.splitOn_ne_nil sep s), List.intercalate_splitOn]

/-- What is found between separators is a run of pieces. -/
theorem infix_pieces {v s : List α} : sep :: v ++ [sep] <:+: sep :: s ++ [sep] ↔ v.splitOn sep <:+: s.splitOn sep := by
  constructor
  · intro ⟨x, y, hxy⟩
    have hsplit : x.splitOn sep ++ (v.splitOn sep ++ y.splitOn sep) = [[]] ++ (s.splitOn sep ++ [[]]) := by
      have hl : (x ++ (sep :: v ++ [sep]) ++ y).splitOn sep = x.splitOn sep ++ (v.splitOn sep ++ y.splitOn sep) := by
        rw [← List.splitOn_append_cons_self v y, ← List.splitOn_append_cons_self x]
        simp
      have hr : (sep :: s ++ [sep]).splitOn sep = [[]] ++ (s.splitOn sep ++ [[]]) := by
        have hnil : ([] : List α).splitOn sep = [[]] := List.splitOn_nil sep
        rw [← hnil, ← List.splitOn_append_cons_self s [], ← List.splitOn_append_cons_self []]
        rfl
      rw [← hl, hxy, hr]
    -- the first and the last piece stand outside the string
    obtain ⟨a, xs, hx⟩ := List.exists_cons_of_ne_nil (List.splitOn_ne_nil sep x)
    obtain ⟨ys, b, hy⟩ : ∃ ys b, y.splitOn sep = ys ++ [b] :=
      ⟨_, _, (List.dropLast_append_getLast (List.splitOn_ne_nil sep y)).symm⟩
    rw [hx, hy] at hsplit
    simp only [List.cons_append, List.nil_append, List.cons.injEq, ← List.append_assoc] at hsplit
    have hmid := (List.append_inj' hsplit.2 rfl).1
    exact ⟨xs, ys, hmid⟩
  · intro ⟨xs, ys, hxy⟩
    obtain ⟨y, hy⟩ : ∃ y, ys.flatMap (sep :: ·) ++ [sep] = sep :: y := by
      cases ys with
      | nil => exact ⟨[], rfl⟩
      | cons p ps => exact ⟨p ++ (ps.flatMap (sep :: ·) ++ [sep]), by simp⟩
    refine ⟨xs.flatMap (sep :: ·), y, ?_⟩
    rw [enclosed_eq, enclosed_eq sep s, ← hxy]
    simp only [List.flatMap_append, List.append_assoc]
    rw [hy, List.singleton_append]

/-- A run of one piece. -/
theorem splitOn_eq_singleton_iff {s x : List α} : s.splitOn sep = [x] ↔ s = x ∧ sep ∉ s := by
  constructor
  · intro h
    have hs : [sep].intercalate (s.splitOn sep) = s := List.intercalate_splitOn sep
    rw [h, List.intercalate_singleton] at hs
    refine ⟨hs.symm, fun hmem => ?_⟩
    obtain ⟨a, b, rfl⟩ := List.append_of_mem hmem
    rw [List.splitOn_append_cons_self] at h
    have hlen := congrArg List.length h
    have ha := List.length_pos_of_ne_nil (List.splitOn_ne_nil sep a)
    have hb := List.length_pos_of_ne_nil (List.splitOn_ne_nil sep b)
    rw [List.length_append, List.length_singleton] at hlen
    omega
  · intro ⟨hs, hmem⟩
    rw [← hs]
    exact List.splitOn_eq_singleton hmem

end Shclaw.Lib
