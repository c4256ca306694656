/-
  Shclaw.Lib.Descriptors — the open files of a process.

  A file is open under a number. The number is free again once the file is closed, and
  the next file can get it, so a number kept for too long names another file. Files are
  counted as they are opened and never come back.

  The fields of a table say so: no number names two files, and each file opened so far
  is open under one number or was closed once.

  `fillGap` removes from an array by moving its last element into the gap.
-/

import Mathlib.Data.List.Basic
import Mathlib.Data.List.Nodup
import Mathlib.Data.List.Range

namespace Shclaw.Lib

structure Descriptors where
  /-- A number and the file open under it. -/
  named : List (Nat × Nat)
  closed : List Nat
  numbers : (named.map Prod.fst).Nodup
  files : (named.map Prod.snd ++ closed).Perm (List.range (named.length + closed.length))

namespace Descriptors

/-- How many files were opened. -/
def made (t : Descriptors) : Nat := t.named.length + t.closed.length

/-- The file under a number. -/
def file (t : Descriptors) (n : Nat) : Option Nat := (t.named.find? fun x => x.1 = n).map Prod.snd

/-- The files open at the start. -/
def start (ns : List Nat) (h : ns.Nodup) : Descriptors where
  named := ns.zipIdx
  closed := []
  numbers := by rwa [List.zipIdx_map_fst]
  files := by rw [List.append_nil, List.zipIdx_map_snd, List.length_zipIdx, List.range_eq_range']; rfl

variable (t : Descriptors) {n m k : Nat}

theorem file_eq_some : t.file n = some k ↔ (n, k) ∈ t.named := by
  unfold file
  constructor
  · intro h
    obtain ⟨x, hx, rfl⟩ := Option.map_eq_some_iff.mp h
    have hn : x.1 = n := by simpa using List.find?_some hx
    rw [← hn]
    exact List.mem_of_find?_eq_some hx
  · intro h
    cases hx : t.named.find? fun x => x.1 = n with
    | none => exact absurd (List.find?_eq_none.mp hx _ h) (by simp)
    | some x =>
      have hn : x.1 = n := by simpa using List.find?_some hx
      have hsame : x = (n, k) := List.inj_on_of_nodup_map t.numbers (List.mem_of_find?_eq_some hx) h hn
      rw [hsame]
      rfl

theorem file_eq_none : t.file n = none ↔ n ∉ t.named.map Prod.fst := by
  rw [Option.eq_none_iff_forall_ne_some, List.mem_map, not_exists]
  constructor
  · rintro h x ⟨hx, rfl⟩
    exact h x.2 ((t.file_eq_some).mpr hx)
  · intro h k hk
    exact h (n, k) ⟨(t.file_eq_some).mp hk, rfl⟩

theorem nodup_files : (t.named.map Prod.snd ++ t.closed).Nodup := t.files.nodup_iff.mpr List.nodup_range

/-- One file has one number. -/
theorem file_inj (hn : t.file n = some k) (hm : t.file m = some k) : n = m := by
  have hsnd := (List.nodup_append.mp t.nodup_files).1
  have := List.inj_on_of_nodup_map hsnd ((t.file_eq_some).mp hn) ((t.file_eq_some).mp hm) rfl
  exact congrArg Prod.fst this

theorem file_lt_made (h : t.file n = some k) : k < t.made := by
  apply List.mem_range.mp
  rw [made, ← t.files.mem_iff]
  exact List.mem_append_left _ (List.mem_map_of_mem (f := Prod.snd) ((t.file_eq_some).mp h))

/-! ## Opening and closing -/

/-- A new file under a free number. -/
def opened (n : Nat) (h : t.file n = none) : Descriptors where
  named := (n, t.made) :: t.named
  closed := t.closed
  numbers := List.nodup_cons.mpr ⟨(t.file_eq_none).mp h, t.numbers⟩
  files := by
    have hlast : (t.named.length + 1 + t.closed.length) = t.made + 1 := by
      rw [made]
      omega
    rw [List.map_cons, List.cons_append, List.length_cons, hlast, List.range_succ]
    exact (t.files.cons t.made).trans (List.perm_append_singleton _ _).symm

/-- The entries under other numbers, and what the number named. -/
theorem others_perm (n : Nat) :
    ((t.named.filter fun x => x.1 ≠ n).map Prod.snd ++ (t.file n).toList).Perm (t.named.map Prod.snd) := by
  cases hk : t.file n with
  | none =>
    have hall : (t.named.filter fun x => x.1 ≠ n) = t.named := by
      rw [List.filter_eq_self]
      intro x hx
      have hnot := (t.file_eq_none).mp hk
      simpa using fun hn : x.1 = n => hnot (hn ▸ List.mem_map_of_mem (f := Prod.fst) hx)
    rw [hall, Option.toList_none, List.append_nil]
  | some k =>
    obtain ⟨a, b, hab⟩ := List.append_of_mem ((t.file_eq_some).mp hk)
    have hnodup := t.numbers
    rw [hab, List.map_append, List.map_cons] at hnodup
    have hout : ∀ x ∈ a ++ b, x.1 ≠ n := by
      intro x hx hn
      have hnot : n ∉ a.map Prod.fst ++ b.map Prod.fst := (List.nodup_cons.mp (List.nodup_middle.mp hnodup)).1
      rw [← List.map_append] at hnot
      have hin := List.mem_map_of_mem (f := Prod.fst) hx
      rw [hn] at hin
      exact hnot hin
    have hfilter : (t.named.filter fun x => x.1 ≠ n) = a ++ b := by
      rw [hab, List.filter_append, List.filter_cons_of_neg (by simp), ← List.filter_append, List.filter_eq_self]
      intro x hx
      simpa using hout x hx
    rw [hfilter, hab, Option.toList_some]
    simp only [List.map_append, List.map_cons, List.append_assoc]
    exact (List.perm_append_singleton _ _).append_left _

theorem closing_perm (n : Nat) : ((t.named.filter fun x => x.1 ≠ n).map Prod.snd ++ (t.closed ++ (t.file n).toList)).Perm
    (t.named.map Prod.snd ++ t.closed) := by
  refine (List.Perm.append_left _ List.perm_append_comm).trans ?_
  rw [← List.append_assoc]
  exact (t.others_perm n).append_right _

theorem closing_length (n : Nat) :
    (t.named.filter fun x => x.1 ≠ n).length + (t.closed ++ (t.file n).toList).length = t.made := by
  have hlen := (t.closing_perm n).length_eq
  simp only [List.length_append, List.length_map] at hlen
  rw [List.length_append]
  exact hlen

/-- What a number named is closed; a number that names nothing is left alone. -/
def close (n : Nat) : Descriptors where
  named := t.named.filter fun x => x.1 ≠ n
  closed := t.closed ++ (t.file n).toList
  numbers := t.numbers.sublist (List.filter_sublist.map _)
  files := by
    rw [t.closing_length n]
    exact (t.closing_perm n).trans t.files

@[simp] theorem made_opened (h : t.file n = none) : (t.opened n h).made = t.made + 1 := by
  simp only [made, opened, List.length_cons]
  omega

@[simp] theorem file_opened (h : t.file n = none) : (t.opened n h).file n = some t.made := by
  simp [file, opened]

theorem file_opened_other (h : t.file n = none) (hm : m ≠ n) : (t.opened n h).file m = t.file m := by
  simp [file, opened, Ne.symm hm]

@[simp] theorem closed_opened (h : t.file n = none) : (t.opened n h).closed = t.closed := rfl

@[simp] theorem file_close : (t.close n).file n = none := by
  rw [file_eq_none]
  intro hmem
  obtain ⟨x, hx, hn⟩ := List.mem_map.mp hmem
  exact of_decide_eq_true (List.mem_filter.mp hx).2 hn

theorem file_close_other (hm : m ≠ n) : (t.close n).file m = t.file m := by
  apply Option.ext
  intro k
  rw [file_eq_some, file_eq_some]
  constructor
  · exact fun hk => (List.mem_filter.mp hk).1
  · exact fun hk => List.mem_filter.mpr ⟨hk, by simpa using hm⟩

@[simp] theorem made_close : (t.close n).made = t.made := t.closing_length n

end Descriptors

/-! ## Arrays without gaps -/

/-- The element at `i` goes; the last one takes its place. -/
def fillGap {α : Type} (l : List α) (i : Nat) : List α :=
  match l.getLast? with
  | none => []
  | some last => (l.set i last).dropLast

theorem fillGap_perm {α : Type} {l : List α} {i : Nat} {x : α} (hi : l[i]? = some x) : l.Perm (x :: fillGap l i) := by
  obtain ⟨hlt, hx⟩ := List.getElem?_eq_some_iff.mp hi
  rcases List.eq_nil_or_concat l with rfl | ⟨front, last, hl⟩
  · exact absurd hlt (Nat.not_lt_zero i)
  rw [List.concat_eq_append] at hl
  subst hl
  have hgap : fillGap (front ++ [last]) i = ((front ++ [last]).set i last).dropLast := by
    unfold fillGap
    rw [List.getLast?_concat]
  rw [hgap]
  by_cases hfront : i < front.length
  · rw [List.set_append_left _ _ hfront, List.dropLast_concat]
    rw [List.getElem_append_left hfront] at hx
    have hsplit : front = front.take i ++ x :: front.drop (i + 1) := by
      rw [← hx, ← List.drop_eq_getElem_cons hfront, List.take_append_drop]
    conv_lhs => rw [hsplit]
    rw [List.set_eq_take_append_cons_drop, if_pos hfront, List.append_assoc, List.cons_append]
    refine List.perm_middle.trans (List.Perm.cons _ ?_)
    rw [← List.append_assoc]
    exact (List.perm_append_singleton _ _).trans List.perm_middle.symm
  · rw [List.length_append, List.length_singleton] at hlt
    obtain rfl : i = front.length := by omega
    rw [List.getElem_append_right (Nat.le_refl _)] at hx
    simp only [Nat.sub_self, List.getElem_cons_zero] at hx
    rw [List.set_append_right _ _ (Nat.le_refl _), Nat.sub_self, List.set_cons_zero, List.dropLast_concat, hx]
    exact List.perm_append_singleton _ _

end Shclaw.Lib
