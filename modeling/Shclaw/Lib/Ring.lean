/-
  Shclaw.Lib.Ring — the last `cap` values pushed into a ring of `cap` slots.

  `n` slots are in use and `next` is the one written next: the oldest once the ring is
  full. A slot out of use keeps what it held. `contents_push`: the ring's contents are
  the newest `cap` of what they were and the value pushed.
-/

import Mathlib.Data.List.Basic

namespace Shclaw.Lib

/-- The last `k` elements. -/
def lastN {α : Type} (k : Nat) (l : List α) : List α := l.drop (l.length - k)

theorem lastN_lastN_concat {α : Type} (k : Nat) (l : List α) (x : α) : lastN k (lastN k l ++ [x]) = lastN k (l ++ [x]) := by
  unfold lastN
  rcases Nat.eq_zero_or_pos k with rfl | hk
  · simp
  rw [← List.drop_append_of_le_length (by omega : l.length - k ≤ l.length), List.drop_drop]
  congr 1
  simp only [List.length_drop, List.length_append, List.length_singleton]
  omega

structure Ring (α : Type) (cap : Nat) where
  slots : Nat → α
  n : Nat
  next : Nat
  n_le : n ≤ cap
  next_lt : next < cap
  next_eq : n < cap → next = n

namespace Ring

variable {α : Type} {cap : Nat}

def clear (r : Ring α cap) : Ring α cap :=
  { r with
    n := 0
    next := 0
    n_le := Nat.zero_le _
    next_lt := Nat.lt_of_le_of_lt (Nat.zero_le _) r.next_lt
    next_eq := fun _ => rfl }

def push (r : Ring α cap) (x : α) : Ring α cap where
  slots k := if k = r.next then x else r.slots k
  n := if r.n < cap then r.n + 1 else r.n
  next := (r.next + 1) % cap
  n_le := by
    have := r.n_le
    split <;> omega
  next_lt := Nat.mod_lt _ (Nat.lt_of_le_of_lt (Nat.zero_le _) r.next_lt)
  next_eq := by
    intro h
    have := r.n_le
    split at h
    · rename_i hn
      rw [r.next_eq hn, if_pos hn, Nat.mod_eq_of_lt h]
    · omega

/-- Oldest first. -/
def contents (r : Ring α cap) : List α := (List.range r.n).map fun i => r.slots ((r.next + cap - r.n + i) % cap)

@[simp] theorem length_contents (r : Ring α cap) : r.contents.length = r.n := by simp [contents]

theorem contents_push (r : Ring α cap) (x : α) : (r.push x).contents = lastN cap (r.contents ++ [x]) := by
  have hnext := r.next_lt
  have hle := r.n_le
  unfold lastN
  rcases Nat.lt_or_ge r.n cap with hn | hn
  · -- a free slot
    have heq := r.next_eq hn
    have hdrop : (r.contents ++ [x]).length - cap = 0 := by
      simp only [List.length_append, length_contents, List.length_singleton]
      omega
    rw [hdrop, List.drop_zero]
    have hold : r.contents = (List.range r.n).map r.slots := by
      refine List.map_congr_left fun i hi => ?_
      rw [List.mem_range] at hi
      rw [heq, show r.n + cap - r.n + i = i + cap by omega, Nat.add_mod_right, Nat.mod_eq_of_lt (by omega)]
    have hnew : (r.push x).contents = (List.range (r.n + 1)).map fun i => if i = r.n then x else r.slots i := by
      unfold contents push
      simp only [if_pos hn, heq]
      refine List.map_congr_left fun i hi => ?_
      rw [List.mem_range] at hi
      have hslot : ((r.n + 1) % cap + cap - (r.n + 1) + i) % cap = i := by
        rcases Nat.lt_or_ge (r.n + 1) cap with h | h
        · rw [Nat.mod_eq_of_lt h, show r.n + 1 + cap - (r.n + 1) + i = i + cap by omega, Nat.add_mod_right,
            Nat.mod_eq_of_lt (by omega)]
        · rw [show r.n + 1 = cap by omega, Nat.mod_self, Nat.zero_add, Nat.sub_self, Nat.zero_add,
            Nat.mod_eq_of_lt (by omega)]
      rw [hslot]
    rw [hnew, hold, List.range_succ, List.map_append]
    congr 1
    · refine List.map_congr_left fun i hi => ?_
      rw [List.mem_range] at hi
      rw [if_neg (by omega)]
    · simp
  · -- the oldest goes
    obtain ⟨m, hm⟩ : ∃ m, cap = m + 1 := ⟨cap - 1, by omega⟩
    have hfull : r.n = m + 1 := by omega
    have hdrop : (r.contents ++ [x]).length - cap = 1 := by
      simp only [List.length_append, length_contents, List.length_singleton]
      omega
    have hold : r.contents = (List.range (m + 1)).map fun i => r.slots ((r.next + i) % cap) := by
      unfold contents
      rw [hfull]
      refine List.map_congr_left fun i _ => ?_
      rw [show r.next + cap - (m + 1) + i = r.next + i by omega]
    have hnew : (r.push x).contents =
        (List.range (m + 1)).map fun i => if (r.next + 1 + i) % cap = r.next then x else r.slots ((r.next + 1 + i) % cap) := by
      unfold contents push
      simp only [hfull, if_neg (show ¬ m + 1 < cap by omega)]
      refine List.map_congr_left fun i _ => ?_
      rw [show (r.next + 1) % cap + cap - (m + 1) + i = (r.next + 1) % cap + i by omega, Nat.mod_add_mod]
    have hslot : ∀ i < m, (r.next + 1 + i) % cap ≠ r.next := by
      intro i hi h
      rcases Nat.lt_or_ge (r.next + 1 + i) cap with hlt | hge
      · rw [Nat.mod_eq_of_lt hlt] at h
        omega
      · rw [Nat.mod_eq_sub_mod hge, Nat.mod_eq_of_lt (by omega)] at h
        omega
    have hlast : (r.next + 1 + m) % cap = r.next := by
      rw [show r.next + 1 + m = r.next + cap by omega, Nat.add_mod_right, Nat.mod_eq_of_lt hnext]
    rw [hdrop, hold, hnew, List.range_succ, List.map_append, ← List.range_succ, List.range_succ_eq_map]
    simp only [List.map_cons, List.map_nil, List.map_map, List.cons_append, List.drop_succ_cons, List.drop_zero, hlast, if_pos]
    congr 1
    refine List.map_congr_left fun i hi => ?_
    rw [List.mem_range] at hi
    simp only [if_neg (hslot i hi), Function.comp, Nat.succ_eq_add_one]
    rw [show r.next + (i + 1) = r.next + 1 + i by omega]

end Ring

end Shclaw.Lib
