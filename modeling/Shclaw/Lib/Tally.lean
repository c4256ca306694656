/-
  Shclaw.Lib.Tally — a table of limited size that counts keys by their hashes.

  A key gets a place when it first comes and there is room, and never leaves. So the
  table counts the first `cap` different keys (`firsts`), each of them in full, and none
  of the others (`Counts.bump`), as long as no two of the keys have one hash.

  `Each P l`: every element of `l` satisfies `P` of those before it.
-/

import Mathlib.Data.List.Basic
import Mathlib.Data.List.Induction
import Mathlib.Data.Set.Function

namespace Shclaw.Lib

/-! ## Elements and those before them -/

section Each

variable {α : Type} {P Q : List α → α → Prop} {l : List α}

def Each (P : List α → α → Prop) (l : List α) : Prop := ∀ pre a post, l = pre ++ a :: post → P pre a

theorem each_nil : Each P [] := by
  intro pre a post h
  cases pre <;> cases h

/-- One more element is judged by all before it. -/
theorem Each.concat (h : Each P l) {a : α} (ha : P l a) : Each P (l ++ [a]) := by
  intro pre b post hsplit
  rcases List.eq_nil_or_concat post with rfl | ⟨post, c, rfl⟩
  · obtain ⟨rfl, hb⟩ := List.append_inj' hsplit rfl
    rw [← List.singleton_inj.mp hb]
    exact ha
  · rw [List.concat_eq_append, ← List.cons_append, ← List.append_assoc] at hsplit
    exact h pre b post (List.append_inj' hsplit rfl).1

theorem Each.congr (h : ∀ pre a post, l = pre ++ a :: post → (P pre a ↔ Q pre a)) : Each P l ↔ Each Q l := by
  constructor
  · intro hP pre a post hsplit
    exact (h pre a post hsplit).mp (hP pre a post hsplit)
  · intro hQ pre a post hsplit
    exact (h pre a post hsplit).mpr (hQ pre a post hsplit)

end Each

variable {κ η : Type} [DecidableEq κ] [DecidableEq η]

/-! ## The first keys -/

/-- The first `cap` different keys, in the order they came. -/
def firsts (cap : Nat) (ks : List κ) : List κ :=
  ks.foldl (fun seen k => if k ∈ seen ∨ cap ≤ seen.length then seen else seen ++ [k]) []

theorem firsts_concat (cap : Nat) (ks : List κ) (k : κ) : firsts cap (ks ++ [k]) =
    if k ∈ firsts cap ks ∨ cap ≤ (firsts cap ks).length then firsts cap ks else firsts cap ks ++ [k] := by
  unfold firsts
  rw [List.foldl_append]
  rfl

theorem mem_of_firsts {cap : Nat} {ks : List κ} {k : κ} (h : k ∈ firsts cap ks) : k ∈ ks := by
  induction ks using List.reverseRecOn with
  | nil => exact h
  | append_singleton ks x ih =>
    rw [firsts_concat] at h
    split at h
    · exact List.mem_append_left _ (ih h)
    · rcases List.mem_append.mp h with h | h
      · exact List.mem_append_left _ (ih h)
      · exact List.mem_append_right _ h

/-- With room left every key is among the first. -/
theorem firsts_of_room {cap : Nat} {ks : List κ} (h : (firsts cap ks).length < cap) : ∀ k ∈ ks, k ∈ firsts cap ks := by
  induction ks using List.reverseRecOn with
  | nil => intro k hk; cases hk
  | append_singleton ks x ih =>
    intro k hk
    rw [firsts_concat] at h ⊢
    split at h
    · rename_i hkeep
      rw [if_pos hkeep]
      rcases List.mem_append.mp hk with hk | hk
      · exact ih h k hk
      · rw [List.mem_singleton.mp hk]
        exact hkeep.resolve_right (by omega)
    · rename_i hnew
      rw [if_neg hnew]
      rcases List.mem_append.mp hk with hk | hk
      · rw [List.length_append] at h
        exact List.mem_append_left _ (ih (by omega) k hk)
      · exact List.mem_append_right _ hk

/-- A key that has come keeps its standing. -/
theorem mem_firsts_append {cap : Nat} {ks : List κ} {k : κ} (hk : k ∈ ks) (ls : List κ) :
    k ∈ firsts cap (ks ++ ls) ↔ k ∈ firsts cap ks := by
  induction ls using List.reverseRecOn with
  | nil => rw [List.append_nil]
  | append_singleton ls x ih =>
    rw [← List.append_assoc, firsts_concat]
    split
    · exact ih
    · rename_i hnew
      rw [not_or, not_le] at hnew
      have hin : k ∈ firsts cap (ks ++ ls) := firsts_of_room hnew.2 k (List.mem_append_left _ hk)
      exact iff_of_true (List.mem_append_left _ hin) (ih.mp hin)

/-! ## Counting -/

/-- The table with one more of a key, and the key's count. -/
def bump (cap : Nat) (table : List (η × Nat)) (h : η) : List (η × Nat) × Option Nat :=
  match table.find? (·.1 = h) with
  | some c => (table.replaceF fun d => if d.1 = h then some (h, d.2 + 1) else none, some (c.2 + 1))
  | none => (if table.length < cap then table ++ [(h, 1)] else table, none)

/-- The count that is raised, and the others. -/
theorem find?_raised (table : List (η × Nat)) (h h' : η) :
    (table.replaceF fun d => if d.1 = h then some (h, d.2 + 1) else none).find? (·.1 = h') =
      if h' = h then (table.find? (·.1 = h)).map fun c => (h, c.2 + 1) else table.find? (·.1 = h') := by
  induction table with
  | nil => by_cases hh : h' = h <;> simp [hh]
  | cons d table ih =>
    by_cases hd : d.1 = h
    · by_cases hh : h' = h
      · simp [hd, hh]
      · simp [hd, hh, Ne.symm hh]
    · by_cases hh : h' = h
      · rw [if_pos hh] at ih ⊢
        simp [hd, hh] at ih ⊢
        exact ih
      · rw [if_neg hh] at ih ⊢
        simp [hd, List.find?_cons, ih]

/-- The table counts the first different keys of `ks`; `S` holds the keys in question. -/
structure Counts (cap : Nat) (hash : κ → η) (S : Set κ) (ks : List κ) (table : List (η × Nat)) : Prop where
  size : table.length = (firsts cap ks).length
  entry : ∀ k ∈ S, table.find? (·.1 = hash k) = if k ∈ firsts cap ks then some (hash k, ks.count k) else none

theorem counts_nil (cap : Nat) (hash : κ → η) (S : Set κ) : Counts cap hash S [] [] := ⟨rfl, fun _ _ => rfl⟩

/-- One more key is counted when it is among the first. -/
theorem Counts.bump {cap : Nat} {hash : κ → η} {S : Set κ} {ks : List κ} {table : List (η × Nat)}
    (h : Counts cap hash S ks table) (hinj : Set.InjOn hash S) {k : κ} (hk : k ∈ S) :
    Counts cap hash S (ks ++ [k]) (Lib.bump cap table (hash k)).1 ∧
      (Lib.bump cap table (hash k)).2 = if k ∈ firsts cap ks then some (ks.count k + 1) else none := by
  have hentry := h.entry k hk
  by_cases hin : k ∈ firsts cap ks
  · rw [if_pos hin] at hentry
    have hfirsts : firsts cap (ks ++ [k]) = firsts cap ks := by
      rw [firsts_concat, if_pos (Or.inl hin)]
    unfold Lib.bump
    rw [hentry, if_pos hin]
    refine ⟨⟨?_, fun k' hk' => ?_⟩, rfl⟩
    · rw [hfirsts, List.length_replaceF]
      exact h.size
    · rw [find?_raised, hfirsts]
      by_cases heq : k' = k
      · rw [heq, if_pos rfl, hentry, if_pos hin]
        simp
      · rw [if_neg fun hh => heq (hinj hk' hk hh), h.entry k' hk', List.count_append]
        simp [Ne.symm heq]
  · rw [if_neg hin] at hentry
    unfold Lib.bump
    rw [hentry, if_neg hin]
    refine ⟨?_, rfl⟩
    by_cases hroom : table.length < cap
    · have hroom' : (firsts cap ks).length < cap := h.size ▸ hroom
      have hnew : k ∉ ks := fun hmem => hin (firsts_of_room hroom' k hmem)
      have hfirsts : firsts cap (ks ++ [k]) = firsts cap ks ++ [k] := by
        rw [firsts_concat, if_neg (by rw [not_or, not_le]; exact ⟨hin, hroom'⟩)]
      simp only [if_pos hroom]
      refine ⟨?_, fun k' hk' => ?_⟩
      · rw [hfirsts, List.length_append, List.length_append, h.size]
        rfl
      · rw [List.find?_append, h.entry k' hk', hfirsts]
        by_cases heq : k' = k
        · rw [heq, if_neg hin]
          simp [List.count_eq_zero_of_not_mem hnew]
        · have hhash : ¬ hash k = hash k' := fun hh => heq (hinj hk' hk hh.symm)
          simp [heq, hhash, Ne.symm heq, List.count_append]
    · have hfirsts : firsts cap (ks ++ [k]) = firsts cap ks := by
        rw [firsts_concat, if_pos (Or.inr (by rw [← h.size]; omega))]
      simp only [if_neg hroom]
      refine ⟨by rw [hfirsts]; exact h.size, fun k' hk' => ?_⟩
      rw [h.entry k' hk', hfirsts]
      by_cases heq : k' = k
      · rw [heq, if_neg hin, if_neg hin]
      · simp [Ne.symm heq, List.count_append]

end Shclaw.Lib
