/-
  Shclaw.Lib.Ranking — the best of a list, by a key.

  `rank` is the stable sort by falling key: equals stay in their order. It can be built
  one element after the other, each behind its equals (`rank_concat`), and what is
  behind the first `n` places need not be kept (`take_insertBehind`).
-/

import Mathlib.Data.List.DropRight
import Mathlib.Data.List.Sort

namespace Shclaw.Lib

variable {α : Type} (key : α → Nat)

/-- The highest key first, equals in their order. -/
def rank (l : List α) : List α := l.insertionSort fun a b => key b ≤ key a

/-- With one more, behind those that have its key or a higher one. -/
def insertBehind (a : α) (l : List α) : List α := l.orderedInsert (fun a b => key b < key a) a

@[simp] theorem rank_nil : rank key [] = [] := rfl

/-- An element before its equals and one behind them do not get in each other's way. -/
theorem orderedInsert_insertBehind (x a : α) (l : List α) :
    (insertBehind key a l).orderedInsert (fun a b => key b ≤ key a) x =
      insertBehind key a (l.orderedInsert (fun a b => key b ≤ key a) x) := by
  induction l with
  | nil =>
    unfold insertBehind
    by_cases h : key a ≤ key x
    · simp [h, Nat.not_lt.mpr h]
    · simp [h, Nat.not_le.mp h]
  | cons b l ih =>
    unfold insertBehind at ih ⊢
    by_cases hab : key b < key a
    · by_cases hbx : key b ≤ key x
      · by_cases hax : key a ≤ key x
        · simp [hab, hax, hbx, Nat.not_lt.mpr hax]
        · simp [hab, hax, hbx, Nat.not_le.mp hax]
      · have hax : ¬ key a ≤ key x := by omega
        simp [hab, hax, hbx]
    · by_cases hbx : key b ≤ key x
      · have hxa : ¬ key x < key a := by omega
        simp [hab, hbx, hxa]
      · simp [hab, hbx, ih]

theorem rank_concat (l : List α) (a : α) : rank key (l ++ [a]) = insertBehind key a (rank key l) := by
  induction l with
  | nil => rfl
  | cons x l ih =>
    unfold rank at ih ⊢
    rw [List.cons_append, List.insertionSort_cons, ih, orderedInsert_insertBehind, List.insertionSort_cons]

theorem take_insertBehind (a : α) (n : Nat) (l : List α) :
    (insertBehind key a (l.take n)).take n = (insertBehind key a l).take n := by
  induction l generalizing n with
  | nil => rw [List.take_nil]
  | cons b l ih =>
    cases n with
    | zero => rfl
    | succ n =>
      unfold insertBehind at ih ⊢
      rw [List.take_succ_cons]
      by_cases h : key b < key a
      · cases n <;> simp [h, List.take_take]
      · simp [h, ih]

/-- All have the same key. -/
theorem rank_of_const {l : List α} {k : Nat} (h : ∀ a ∈ l, key a = k) : rank key l = l := by
  induction l with
  | nil => rfl
  | cons a l ih =>
    rw [List.forall_mem_cons] at h
    unfold rank at ih ⊢
    rw [List.insertionSort_cons, ih h.2]
    cases l with
    | nil => rfl
    | cons b l => exact List.orderedInsert_cons_of_le _ _ (Nat.le_of_eq ((h.2 b List.mem_cons_self).trans h.1.symm))

theorem sorted_rank (l : List α) : (rank key l).Pairwise fun a b => key b ≤ key a := by
  have : Std.Total (fun a b : α => key b ≤ key a) := ⟨fun a b => Nat.le_total _ _⟩
  have : IsTrans α (fun a b : α => key b ≤ key a) := ⟨fun a b c h h' => Nat.le_trans h' h⟩
  exact List.pairwise_insertionSort _ l

theorem rank_map {β : Type} (f : β → α) (l : List β) : rank key (l.map f) = (rank (fun b => key (f b)) l).map f := by
  exact (List.map_insertionSort (fun a b => key (f b) ≤ key (f a)) (fun a b => key b ≤ key a) f l
    fun _ _ _ _ => Iff.rfl).symm

/-- In a sorted list the lower keys are at the end. -/
theorem rdropWhile_of_sorted {l : List α} (h : l.Pairwise fun a b => key b ≤ key a) (s : Nat) :
    l.rdropWhile (key · < s) = l.takeWhile (s ≤ key ·) := by
  induction l using List.reverseRecOn with
  | nil => rfl
  | append_singleton l x ih =>
    rw [List.pairwise_append] at h
    obtain ⟨hl, -, hx⟩ := h
    by_cases hs : key x < s
    · rw [List.rdropWhile_concat_pos (key · < s) _ _ (decide_eq_true hs), ih hl, List.takeWhile_append]
      have hstop : [x].takeWhile (s ≤ key ·) = [] := by simp [hs]
      rw [hstop, List.append_nil]
      split
      · rename_i hall
        exact (List.takeWhile_prefix _).eq_of_length hall
      · rfl
    · have hall : ∀ y ∈ l, decide (s ≤ key y) = true := by
        intro y hy
        have := hx y hy x (List.mem_singleton_self x)
        exact decide_eq_true (by omega)
      rw [List.rdropWhile_concat_neg (key · < s) _ _ (by simpa using hs), List.takeWhile_append_of_pos hall]
      simp [Nat.not_lt.mp hs]

/-- Behind the last of its key or a higher one. -/
theorem insertBehind_of_sorted {l : List α} (h : l.Pairwise fun a b => key b ≤ key a) (a : α) :
    insertBehind key a l = l.rdropWhile (key · < key a) ++ a :: l.drop (l.rdropWhile (key · < key a)).length := by
  have hdrop : l.drop (l.takeWhile (key a ≤ key ·)).length = l.dropWhile (key a ≤ key ·) := by
    have hsplit := @List.takeWhile_append_dropWhile α (key a ≤ key ·) l
    calc l.drop (l.takeWhile (key a ≤ key ·)).length
        = (l.takeWhile (key a ≤ key ·) ++ l.dropWhile (key a ≤ key ·)).drop
            (l.takeWhile (key a ≤ key ·)).length := by rw [hsplit]
      _ = l.dropWhile (key a ≤ key ·) := List.drop_left
  rw [rdropWhile_of_sorted key h, insertBehind, List.orderedInsert_eq_take_drop, hdrop]
  simp only [Nat.not_lt]

end Shclaw.Lib
