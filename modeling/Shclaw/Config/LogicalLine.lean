/-
  Shclaw.Config.LogicalLine — what `ini_read_logical_line` makes of a text, byte by byte.

  `logical p s` is the logical line read from column `p` of a piece on, and the text left
  for the next call: `fgets` ends a piece behind its 4095th byte, and a backslash that ends
  a piece goes, with the line joined to the next piece. `read_logical` says the calls
  compute it, as far as the buffer holds it.
-/

import Mathlib.Data.List.TakeWhile
import Shclaw.Config.Ini

namespace Shclaw.Config

open Lib

def logical : Nat → Str → Str × Str
  | _, [] => ([], [])
  | p, [c] => if c = ch '\n' ∨ (p = 4094 ∧ c = ch '\\') then ([], []) else ([c], [])
  | p, c :: d :: t =>
    if c = ch '\n' then ([], d :: t)
    else if p = 4094 then
      -- the last byte `fgets` has room for
      if c = ch '\\' then logical 0 (d :: t) else ([c], d :: t)
    else if c = ch '\\' ∧ d = ch '\n' then logical 0 t
    else (c :: (logical (p + 1) (d :: t)).1, (logical (p + 1) (d :: t)).2)

/-- Whether the text has no NUL, no CR at the end of a piece, and an LF at its end. -/
def Clean (p : Nat) : Str → Prop
  | [] => p = 0
  | c :: s =>
    if c = ch '\n' then Clean 0 s
    else if p = 4094 then c ≠ 0 ∧ c ≠ ch '\r' ∧ Clean 0 s
    else c ≠ 0 ∧ (c = ch '\r' → s.head? ≠ some (ch '\n')) ∧ Clean (p + 1) s

/-! ## One byte -/

@[simp] theorem logical_nil (p : Nat) : logical p [] = ([], []) := rfl

@[simp] theorem logical_newline (p : Nat) (s : Str) : logical p (ch '\n' :: s) = ([], s) := by
  cases s with
  | nil => exact if_pos (Or.inl rfl)
  | cons d t => exact if_pos rfl

theorem logical_full {c : UInt8} (hline : c ≠ ch '\n') (hslash : c ≠ ch '\\') (s : Str) :
    logical 4094 (c :: s) = ([c], s) := by
  cases s with
  | nil => exact if_neg fun h => h.elim hline fun h => hslash h.2
  | cons d t =>
    unfold logical
    rw [if_neg hline, if_pos rfl, if_neg hslash]

theorem logical_full_slash (s : Str) : logical 4094 (ch '\\' :: s) = logical 0 s := by
  cases s with
  | nil => rfl
  | cons d t =>
    conv_lhs => unfold logical
    rw [if_neg (by decide), if_pos rfl, if_pos rfl]

theorem logical_continued {p : Nat} (hp : p ≠ 4094) (s : Str) : logical p (ch '\\' :: ch '\n' :: s) = logical 0 s := by
  conv_lhs => unfold logical
  rw [if_neg (by decide), if_neg hp, if_pos ⟨rfl, rfl⟩]

theorem logical_keep {p : Nat} {c : UInt8} {s : Str} (hp : p ≠ 4094) (hline : c ≠ ch '\n')
    (hjoin : c = ch '\\' → s.head? ≠ some (ch '\n')) :
    logical p (c :: s) = (c :: (logical (p + 1) s).1, (logical (p + 1) s).2) := by
  cases s with
  | nil => exact if_neg fun h => h.elim hline fun h => hp h.1
  | cons d t =>
    conv_lhs => unfold logical
    rw [if_neg hline, if_neg hp, if_neg fun h => hjoin h.1 (congrArg some h.2)]

theorem logical_keep_slash {p : Nat} {d : UInt8} (hp : p ≠ 4094) (hd : d ≠ ch '\n') (s : Str) :
    logical p (ch '\\' :: d :: s) = (ch '\\' :: (logical (p + 1) (d :: s)).1, (logical (p + 1) (d :: s)).2) :=
  logical_keep hp (by decide) fun _ h => hd (Option.some.inj h)

theorem logical_keep_other {p : Nat} {c : UInt8} (hp : p ≠ 4094) (hline : c ≠ ch '\n') (hslash : c ≠ ch '\\') (s : Str) :
    logical p (c :: s) = (c :: (logical (p + 1) s).1, (logical (p + 1) s).2) :=
  logical_keep hp hline fun h => absurd h hslash

/-! ## The calls -/

theorem iniAppend_eq {sz : Nat} {dst : Str} (h : dst.length ≤ sz - 1) (src : Str) :
    iniAppend sz dst src = (dst ++ src).take (sz - 1) := by
  unfold iniAppend
  split
  · rw [List.take_append_of_le_length (by omega), List.take_of_length_le h]
  · rw [cut, List.take_append, List.take_of_length_le h]
    congr 2
    omega

/-- A piece with its LF, if `fgets` came to one. -/
theorem stripEol_eq {cur : Str} (hnul : ∀ c ∈ cur, c ≠ 0) (hlast : ∀ c ∈ cur.getLast?, c ≠ ch '\n' ∧ c ≠ ch '\r')
    {eol : Str} (heol : ∀ c ∈ eol, c = ch '\n') : stripEol (cur ++ eol) = cur := by
  have htext : (cur ++ eol).takeWhile (· ≠ 0) = cur ++ eol := by
    rw [List.takeWhile_eq_self_iff]
    intro c hc
    rcases List.mem_append.mp hc with hc | hc
    · exact decide_eq_true (hnul c hc)
    · rw [heol c hc]
      decide
  unfold stripEol
  rw [htext, List.reverse_append, List.dropWhile_append_of_pos]
  · cases hrev : cur.reverse with
    | nil => exact (List.reverse_eq_nil_iff.mp hrev).symm
    | cons c t =>
      have hc : c ∈ cur.getLast? := by rw [← List.head?_reverse, hrev]; rfl
      obtain ⟨hlf, hcr⟩ := hlast c hc
      rw [List.dropWhile_cons_of_neg (by simp [hlf, hcr]), ← hrev, List.reverse_reverse]
  · intro c hc
    rw [heol c (List.mem_reverse.mp hc)]
    decide

/-- A piece that is the end of the line. -/
theorem read_last {sz : Nat} {out cur eol : Str} (h : Bool) {rest : List Str} (hout : out.length ≤ sz - 1)
    (hnul : ∀ c ∈ cur, c ≠ 0) (hlast : ∀ c ∈ cur.getLast?, c ≠ ch '\n' ∧ c ≠ ch '\r') (heol : ∀ c ∈ eol, c = ch '\n')
    (hslash : cur.getLast? ≠ some (ch '\\')) :
    iniReadLogicalLine sz out h ((cur ++ eol) :: rest) = some ((out ++ cur).take (sz - 1), rest) := by
  simp only [iniReadLogicalLine, stripEol_eq hnul hlast heol, if_neg hslash, iniAppend_eq hout]

/-- A piece that ends in a backslash. -/
theorem read_continued {sz : Nat} {out cur eol : Str} (h : Bool) {rest : List Str} (hout : out.length ≤ sz - 1)
    (hnul : ∀ c ∈ cur, c ≠ 0) (heol : ∀ c ∈ eol, c = ch '\n') :
    iniReadLogicalLine sz out h ((cur ++ [ch '\\'] ++ eol) :: rest) =
      iniReadLogicalLine sz ((out ++ cur).take (sz - 1)) true rest := by
  have hnul' : ∀ c ∈ cur ++ [ch '\\'], c ≠ 0 := by
    intro c hc
    rcases List.mem_append.mp hc with hc | hc
    · exact hnul c hc
    · rw [List.mem_singleton.mp hc]
      decide
  have hgetLast : (cur ++ [ch '\\']).getLast? = some (ch '\\') := List.getLast?_concat
  have hlast : ∀ c ∈ (cur ++ [ch '\\']).getLast?, c ≠ ch '\n' ∧ c ≠ ch '\r' := by
    rw [hgetLast]
    intro c hc
    cases Option.some.inj hc
    decide
  simp only [iniReadLogicalLine, stripEol_eq hnul' hlast heol, if_pos hgetLast, List.dropLast_concat, iniAppend_eq hout]

/-- A cut before an append and after it is the one after it. -/
theorem take_append_take (n : Nat) (a b : Str) : (a.take n ++ b).take n = (a ++ b).take n := by
  rw [List.take_append, List.take_take, Nat.min_self, List.take_append, List.length_take]
  congr 2
  omega

theorem fgetsFrom_piece {sz : Nat} {cur : Str} {c : UInt8} (h : c = ch '\n' ∨ sz ≤ cur.length + 2) (s : Str) :
    fgetsFrom sz cur (c :: s) = (cur ++ [c]) :: fgetsFrom sz [] s := if_pos h

theorem fgetsFrom_cons {sz : Nat} {cur : Str} {c : UInt8} (hline : c ≠ ch '\n') (hsz : cur.length + 2 < sz) (s : Str) :
    fgetsFrom sz cur (c :: s) = fgetsFrom sz (cur ++ [c]) s := if_neg fun h => h.elim hline (by omega)

/-- The calls read a logical line. -/
theorem read_logical {out cur s : Str} {h : Bool} (hout : out.length ≤ 32767) (hcur : cur.length ≤ 4094)
    (hnul : ∀ c ∈ cur, c ≠ 0) (hlast : s.head? = some (ch '\n') → ∀ c ∈ cur.getLast?, c ≠ ch '\n' ∧ c ≠ ch '\r' ∧ c ≠ ch '\\')
    (hclean : Clean cur.length s) (hsome : h = true ∨ s ≠ []) :
    iniReadLogicalLine 32768 out h (fgetsFrom 4096 cur s) =
      some ((out ++ cur ++ (logical cur.length s).1).take 32767, fgetsFrom 4096 [] (logical cur.length s).2) := by
  induction hn : s.length using Nat.strongRecOn generalizing s out cur h with
  | ind n ih =>
    -- a new piece of the same line
    have hjoin : ∀ t : Str, t.length < n → Clean 0 t → iniReadLogicalLine 32768 ((out ++ cur).take 32767) true (fgetsFrom 4096 [] t) =
        some ((out ++ cur ++ (logical 0 t).1).take 32767, fgetsFrom 4096 [] (logical 0 t).2) := by
      intro t ht hclean
      have := @ih t.length ht ((out ++ cur).take 32767) [] t true (List.length_take_le _ _) (by simp) (by simp)
        (by simp) hclean (Or.inl rfl) rfl
      rw [this, List.append_nil, take_append_take]
      rfl
    cases s with
    | nil =>
      have hnil : cur = [] := List.length_eq_zero_iff.mp hclean
      have hh : h = true := hsome.resolve_right fun hne => hne rfl
      subst hnil hh
      simp [fgetsFrom, iniReadLogicalLine, List.take_of_length_le hout]
    | cons c s =>
      rw [List.length_cons] at hn
      unfold Clean at hclean
      by_cases hline : c = ch '\n'
      · subst hline
        rw [logical_newline, fgetsFrom_piece (Or.inl rfl), List.append_nil]
        have hcur' := hlast rfl
        exact read_last h hout hnul (fun c hc => ⟨(hcur' c hc).1, (hcur' c hc).2.1⟩) (fun c hc => List.mem_singleton.mp hc)
          fun hlast => (hcur' _ hlast).2.2 rfl
      rw [if_neg hline] at hclean
      by_cases hp : cur.length = 4094
      · rw [if_pos hp] at hclean
        obtain ⟨hc0, hcr, hclean⟩ := hclean
        rw [fgetsFrom_piece (Or.inr (by omega)), hp]
        by_cases hslash : c = ch '\\'
        · subst hslash
          have := @read_continued 32768 out cur [] h (fgetsFrom 4096 [] s) hout hnul (by simp)
          rw [List.append_nil] at this
          rw [this, logical_full_slash]
          exact hjoin s (by omega) hclean
        · have hgetLast : (cur ++ [c]).getLast? = some c := List.getLast?_concat
          have := @read_last 32768 out (cur ++ [c]) [] h (fgetsFrom 4096 [] s) hout
            (by simpa [or_imp, forall_and] using ⟨hnul, hc0⟩) (by simp [hgetLast, hline, hcr]) (by simp) (by simp [hgetLast, hslash])
          rw [List.append_nil] at this
          rw [this, logical_full hline hslash, List.append_assoc]
      rw [if_neg hp] at hclean
      obtain ⟨hc0, hcr, hclean⟩ := hclean
      rw [fgetsFrom_cons hline (by omega)]
      by_cases hslash : c = ch '\\' ∧ s.head? = some (ch '\n')
      · obtain ⟨rfl, hhead⟩ := hslash
        obtain ⟨t, rfl⟩ := List.head?_eq_some_iff.mp hhead
        have hcleanT : Clean 0 t := by
          unfold Clean at hclean
          rwa [if_pos rfl] at hclean
        rw [fgetsFrom_piece (Or.inl rfl), logical_continued hp]
        rw [@read_continued 32768 out cur [ch '\n'] h _ hout hnul (by simp)]
        exact hjoin t (by rw [List.length_cons] at hn; omega) hcleanT
      · rw [logical_keep hp hline fun hc hhead => hslash ⟨hc, hhead⟩]
        have hlen : (cur ++ [c]).length = cur.length + 1 := List.length_append
        have := @ih s.length (by omega) out (cur ++ [c]) s h hout (by omega)
          (by simpa [or_imp, forall_and] using ⟨hnul, hc0⟩) ?_ (hlen ▸ hclean) ?_ rfl
        · rw [this, hlen]
          simp only [List.append_assoc, List.singleton_append]
        · intro hhead d hd
          rw [List.getLast?_concat] at hd
          cases Option.some.inj hd
          exact ⟨hline, fun hc => hcr hc hhead, fun hc => hslash ⟨hc, hhead⟩⟩
        · refine Or.inr fun hnil => ?_
          rw [hnil] at hclean
          cases hclean

end Shclaw.Config
