/-
  Shclaw.Memory.Ranking — which memories `memory_search` (`src/memory.c`) prints.

  The words of the query are read one after the other (`queryWords`). The loop keeps the
  best in two arrays of fifty slots, shifted by `memmove`; every access to a slot is
  checked, and a slot is empty until it is written. What it finds is what `searchTop`
  computes (`memorySearchText_eq`).

  `search_ranks`: of the memories of the log (`Memories`), as many as asked for (`Asked`),
  by falling score, the newest first among equals, are printed, each on its line
  (`LineOf`), none twice.
-/

import Mathlib.Data.List.Perm.Subperm
import Shclaw.Lib.Ranking
import Shclaw.Memory.Search

namespace Shclaw.Memory

open Lib

/-! ## The arrays -/

/-- `memmove(&a[pos + 1], &a[pos], k)`. -/
def memmoveUp {α : Type} (a : List α) (pos k : Nat) : Option (List α) :=
  if pos + 1 + k ≤ a.length then some (a.take (pos + 1) ++ (a.drop pos).take k ++ a.drop (pos + 1 + k)) else none

/-- `a[i] = x`. -/
def assign {α : Type} (a : List α) (i : Nat) (x : α) : Option (List α) := if i < a.length then some (a.set i x) else none

/-- `top`, `score` and `found`. -/
structure Best where
  top : List (Option Json)
  score : List (Option Nat)
  found : Nat

/-- Before the loop. -/
def Best.empty : Best := ⟨List.replicate 50 none, List.replicate 50 none, 0⟩

/-- `while (pos > 0 && score[pos - 1] < s) pos--`. -/
def position (score : List (Option Nat)) (s : Nat) : Nat → Option Nat
  | 0 => some 0
  | pos + 1 =>
    match score[pos]? with
    | some (some x) => if x < s then position score s pos else some (pos + 1)
    | _ => none

/-- An entry at `pos`. -/
def Best.insert (b : Best) (n pos : Nat) (entry : Json) (s : Nat) : Option Best := do
  let last := if b.found < n then b.found else n - 1
  let top ← memmoveUp b.top pos (last - pos)
  let score ← memmoveUp b.score pos (last - pos)
  let top ← assign top pos (some entry)
  let score ← assign score pos (some s)
  some ⟨top, score, if b.found < n then b.found + 1 else b.found⟩

/-- The loop, over the entries from the newest. -/
def searchLoop (words : List Str) (n : Nat) : List Json → Best → Option Best
  | [], b => some b
  | entry :: entries, b =>
    let s := if words = [] then 1 else matchScore words entry
    if s = 0 then searchLoop words n entries b
    else do
      let pos ← position b.score s b.found
      if n ≤ pos then
        -- recent-only: the list is full
        if words = [] then some b else searchLoop words n entries b
      else searchLoop words n entries (← b.insert n pos entry s)

/-- `format_entry` for each that was found. -/
def printBest (b : Best) : Option Str := ((b.top.take b.found).mapM id).map (·.flatMap formatEntry)

/-- The loop over the query: `left` more words, from `p` on. Every round reads a byte, so
    as many rounds as bytes are enough. -/
def queryWords : Nat → Nat → Str → List Str
  | 0, _, _ => []
  | _, 0, _ => []
  | rounds + 1, left + 1, p =>
    if p = [] then []
    else
      let p := p.dropWhile (!isWordChar ·)
      let len := (p.takeWhile isWordChar).length
      if 2 ≤ len then ((p.take (if len < 31 then len else 31)).map toLower) :: queryWords rounds left (p.drop len)
      else queryWords rounds (left + 1) (p.drop len)

/-- `memory_search`, into a buffer that holds it. -/
def memorySearchText (J : CJson) (query : Option Str) (n : Int) (l : Log) : Option Str := do
  let query := query.getD []
  let b ← searchLoop (queryWords query.length 8 query) (searchLimit n) (loadCache J l).reverse .empty
  printBest b

/-! ## The words -/

/-- A run of word bytes, and what follows it. -/
theorem filter_splitOnP {w rest : Str} (hw : ∀ c ∈ w, isWordChar c = true) (hrest : ∀ c ∈ rest.head?, isWordChar c = false) :
    ((w ++ rest).splitOnP (!isWordChar ·)).filter (2 ≤ ·.length) =
      (if 2 ≤ w.length then [w] else []) ++ (rest.splitOnP (!isWordChar ·)).filter (2 ≤ ·.length) := by
  have hno : ∀ c ∈ w, (!isWordChar c) = false := fun c hc => by rw [hw c hc]; rfl
  cases rest with
  | nil =>
    rw [List.append_nil, List.splitOnP_eq_singleton hno, List.splitOnP_nil, List.filter_singleton, List.filter_singleton]
    simp
  | cons c rest =>
    have hc : (!isWordChar c) = true := by rw [hrest c rfl]; rfl
    have hcons : (c :: rest).splitOnP (!isWordChar ·) = [] :: rest.splitOnP (!isWordChar ·) :=
      List.splitOnP_append_cons_of_forall_mem (List.forall_mem_nil _) c hc rest
    rw [List.splitOnP_append_cons_of_forall_mem hno c hc rest, hcons, List.filter_cons, List.filter_cons]
    simp only [List.length_nil, decide_eq_true_eq]
    split <;> rfl

/-- Separators before a word are passed over. -/
theorem filter_splitOnP_dropWhile (p : Str) :
    ((p.dropWhile (!isWordChar ·)).splitOnP (!isWordChar ·)).filter (2 ≤ ·.length) =
      (p.splitOnP (!isWordChar ·)).filter (2 ≤ ·.length) := by
  induction p with
  | nil => rfl
  | cons c p ih =>
    by_cases hc : (!isWordChar c) = true
    · have hcons : (c :: p).splitOnP (!isWordChar ·) = [] :: p.splitOnP (!isWordChar ·) :=
        List.splitOnP_append_cons_of_forall_mem (List.forall_mem_nil _) c hc p
      rw [List.dropWhile_cons_of_pos (p := (!isWordChar ·)) hc, ih, hcons, List.filter_cons]
      rfl
    · rw [List.dropWhile_cons_of_neg (p := (!isWordChar ·)) hc]

theorem length_queryWords_rest {p : Str} (hp : p ≠ []) :
    ((p.dropWhile (!isWordChar ·)).dropWhile isWordChar).length < p.length := by
  cases p with
  | nil => exact absurd rfl hp
  | cons c p =>
    have hle : ∀ q : Str, (q.dropWhile isWordChar).length ≤ q.length := fun q => (List.dropWhile_suffix _).length_le
    by_cases hc : isWordChar c = true
    · rw [List.dropWhile_cons_of_neg (by rw [hc]; decide), List.dropWhile_cons_of_pos hc]
      exact Nat.lt_succ_of_le (hle p)
    · rw [List.dropWhile_cons_of_pos (by simpa using hc)]
      exact Nat.lt_succ_of_le ((hle _).trans (List.dropWhile_suffix _).length_le)

/-- The loop reads the words. -/
theorem queryWords_eq {rounds : Nat} (left : Nat) {p : Str} (h : p.length ≤ rounds) : queryWords rounds left p =
    (((p.splitOnP (!isWordChar ·)).filter (2 ≤ ·.length)).take left).map fun w => (cut 32 w).map toLower := by
  induction rounds generalizing left p with
  | zero =>
    rw [List.length_eq_zero_iff.mp (Nat.le_zero.mp h)]
    cases left <;> rfl
  | succ rounds ih =>
    cases left with
    | zero => rw [List.take_zero]; rfl
    | succ left =>
      by_cases hp : p = []
      · rw [hp]
        rfl
      rw [queryWords, if_neg hp, ← filter_splitOnP_dropWhile p]
      have hshort := length_queryWords_rest hp
      generalize p.dropWhile (!isWordChar ·) = q at hshort ⊢
      -- the word, and what is left behind it
      obtain ⟨w, hw⟩ : ∃ w, q.takeWhile isWordChar = w := ⟨_, rfl⟩
      obtain ⟨rest, hrest⟩ : ∃ rest, q.dropWhile isWordChar = rest := ⟨_, rfl⟩
      have hq : q = w ++ rest := by rw [← hw, ← hrest, List.takeWhile_append_dropWhile]
      have hword : ∀ c ∈ w, isWordChar c = true := fun c hc => List.mem_takeWhile_imp (hw ▸ hc)
      have hnext : ∀ c ∈ rest.head?, isWordChar c = false := by
        intro c hc
        have hstop := List.head?_dropWhile_not isWordChar q
        rw [hrest, Option.mem_def.mp hc] at hstop
        exact hstop
      have hcut : ∀ n ≤ w.length, q.take n = w.take n := fun n hn => by rw [hq, List.take_append_of_le_length hn]
      have hdrop : q.drop w.length = rest := by rw [hq, List.drop_left]
      have hfield : w.take (if w.length < 31 then w.length else 31) = cut 32 w := by
        unfold cut
        split
        · rw [List.take_length, List.take_of_length_le (by omega)]
        · rfl
      rw [hrest] at hshort
      have hrest' : rest.length ≤ rounds := by omega
      simp only [hw, hdrop]
      rw [hq, filter_splitOnP hword hnext, ← hq]
      by_cases hlong : 2 ≤ w.length
      · rw [if_pos hlong, if_pos hlong, List.singleton_append, List.take_succ_cons, List.map_cons, ih left hrest', hcut,
          hfield]
        split <;> omega
      · rw [if_neg hlong, if_neg hlong, List.nil_append, ih (left + 1) hrest']

/-! ## What the arrays hold -/

/-- The found entries with their scores, in the slots from the front. -/
structure Holds (b : Best) (l : List (Json × Nat)) : Prop where
  slots : b.top.length = 50 ∧ b.score.length = 50
  found : b.found = l.length
  top : b.top.take l.length = (l.map Prod.fst).map some
  score : b.score.take l.length = (l.map Prod.snd).map some

theorem position_eq {b : Best} {l : List (Json × Nat)} (h : Holds b l) (s : Nat) :
    position b.score s b.found = some (l.rdropWhile (·.2 < s)).length := by
  have hloop : ∀ k ≤ l.length, position b.score s k = some ((l.take k).rdropWhile (·.2 < s)).length := by
    intro k hk
    induction k with
    | zero => rfl
    | succ k ih =>
      have hget : b.score[k]? = some (some l[k].2) := by
        have hslot := congrArg (·[k]?) h.score
        simp only [List.getElem?_take_of_lt (show k < l.length from hk), List.getElem?_map] at hslot
        rw [hslot, List.getElem?_eq_getElem (show k < l.length from hk)]
        rfl
      have htake : l.take (k + 1) = l.take k ++ [l[k]] := (List.take_concat_get' l k hk).symm
      rw [position, hget, htake]
      simp only
      by_cases hs : l[k].2 < s
      · rw [if_pos hs, List.rdropWhile_concat_pos (fun x : Json × Nat => x.2 < s) _ _ (decide_eq_true hs), ih (by omega)]
      · rw [if_neg hs, List.rdropWhile_concat_neg (fun x : Json × Nat => x.2 < s) _ _ (by simpa using hs), List.length_append,
          List.length_take, Nat.min_eq_left (by omega)]
        rfl
  rw [h.found, hloop l.length (Nat.le_refl _), List.take_length]

/-- One array, with `k` slots moved up for `x`. -/
theorem memmoveUp_assign {α : Type} {a : List α} {pos k : Nat} (h : pos + 1 + k ≤ a.length) (x : α) :
    (memmoveUp a pos k).bind (assign · pos x) =
      some (a.take pos ++ x :: ((a.drop pos).take k ++ a.drop (pos + 1 + k))) := by
  have hlen : (a.take pos).length = pos := by
    rw [List.length_take]
    omega
  have hset : (a.take (pos + 1)).set pos x = a.take pos ++ [x] := by
    rw [List.take_succ_eq_append_getElem (show pos < a.length by omega), List.set_append_right _ _ (Nat.le_of_eq hlen), hlen,
      Nat.sub_self, List.set_cons_zero]
  rw [memmoveUp, if_pos h, Option.bind_some, assign, if_pos, List.append_assoc, List.set_append_left, hset]
  · simp
  · simp
    omega
  · simp
    omega

/-- The slots of one array after an insertion. -/
theorem slots_insert {α : Type} {a : List (Option α)} {xs : List α} (ha : a.length = 50)
    (hslots : a.take xs.length = xs.map some) {n pos k : Nat} (hn : n ≤ 50) (hk : k ≤ xs.length - pos)
    (hroom : pos + 1 + k = min n (xs.length + 1)) (x : α) :
    ∃ a', (memmoveUp a pos k).bind (assign · pos (some x)) = some a' ∧ a'.length = 50 ∧
      a'.take (pos + 1 + k) = ((xs.take pos ++ x :: xs.drop pos).take n).map some := by
  have hbound : pos + 1 + k ≤ a.length := by omega
  have hbefore : a.take pos = (xs.take pos).map some := by
    rw [List.map_take, ← hslots, List.take_take, Nat.min_eq_left (by omega)]
  have hmoved : (a.drop pos).take k = ((xs.drop pos).take k).map some := by
    rw [List.map_take, List.map_drop, ← hslots, List.drop_take, List.take_take, Nat.min_eq_left hk]
  refine ⟨_, memmoveUp_assign hbound (some x), ?_, ?_⟩
  · simp
    omega
  · have hall : (xs.take pos ++ x :: xs.drop pos).length = xs.length + 1 := by
      simp
      omega
    have htake : (xs.take pos ++ x :: xs.drop pos).take n = xs.take pos ++ x :: (xs.drop pos).take k := by
      have hlen : (xs.take pos).length = pos := by
        rw [List.length_take]
        omega
      rw [List.take_eq_take_min, hall, ← hroom, List.take_append, hlen, List.take_of_length_le (by omega),
        show pos + 1 + k - pos = k + 1 by omega, List.take_succ_cons]
    rw [htake, List.map_append, List.map_cons, ← hbefore, ← hmoved, ← List.cons_append, ← List.append_assoc]
    apply List.take_left'
    simp
    omega

/-- A turn that finds a place. -/
theorem holds_insert {b : Best} {l : List (Json × Nat)} (h : Holds b l) {n : Nat} (hn : n ≤ 50) (hl : l.length ≤ n)
    (entry : Json) (s : Nat) (hpos : (l.rdropWhile (·.2 < s)).length < n) :
    ∃ b', b.insert n (l.rdropWhile (·.2 < s)).length entry s = some b' ∧ Holds b' (insertTop n entry s l) := by
  have hpre := List.rdropWhile_prefix (·.2 < s) (l := l)
  have hle := hpre.length_le
  have hbefore : l.rdropWhile (·.2 < s) = l.take (l.rdropWhile (·.2 < s)).length := List.prefix_iff_eq_take.mp hpre
  have hinsert : insertTop n entry s l = ((l.take (l.rdropWhile (·.2 < s)).length) ++ (entry, s) ::
      l.drop (l.rdropWhile (·.2 < s)).length).take n := by
    rw [insertTop, if_neg (by omega), ← hbefore]
  rw [hinsert]
  generalize (l.rdropWhile (·.2 < s)).length = pos at hpos hle ⊢
  obtain ⟨htopLen, hscoreLen⟩ := h.slots
  have hlast : pos + 1 + ((if b.found < n then b.found else n - 1) - pos) = min n (l.length + 1) := by
    rw [h.found]
    split <;> omega
  have hk : (if b.found < n then b.found else n - 1) - pos ≤ l.length - pos := by
    rw [h.found]
    split <;> omega
  have hlen : ((l.take pos ++ (entry, s) :: l.drop pos).take n).length = min n (l.length + 1) := by
    simp
    omega
  generalize hmove : (if b.found < n then b.found else n - 1) - pos = k at hlast hk
  have htop := @slots_insert Json b.top (l.map Prod.fst) htopLen (by rw [List.length_map, h.top]) n pos k hn
    (by rwa [List.length_map]) (by rwa [List.length_map]) entry
  have hscore := @slots_insert Nat b.score (l.map Prod.snd) hscoreLen (by rw [List.length_map, h.score]) n pos k hn
    (by rwa [List.length_map]) (by rwa [List.length_map]) s
  obtain ⟨top, htopMove, htopLen', htop⟩ := htop
  obtain ⟨score, hscoreMove, hscoreLen', hscore⟩ := hscore
  obtain ⟨top₁, htop₁, htop₂⟩ := Option.bind_eq_some_iff.mp htopMove
  obtain ⟨score₁, hscore₁, hscore₂⟩ := Option.bind_eq_some_iff.mp hscoreMove
  refine ⟨⟨top, score, if b.found < n then b.found + 1 else b.found⟩, ?_, ⟨htopLen', hscoreLen'⟩, ?_, ?_, ?_⟩
  · simp [Best.insert, hmove, htop₁, hscore₁, htop₂, hscore₂]
  · rw [hlen, h.found]
    simp only
    split <;> omega
  · rw [hlen, ← hlast, htop]
    simp
  · rw [hlen, ← hlast, hscore]
    simp

/-! ## The loop -/

/-- One entry in `searchTop`. -/
def topStep (words : List Str) (n : Nat) (top : List (Json × Nat)) (entry : Json) : List (Json × Nat) :=
  if (if words = [] then 1 else matchScore words entry) = 0 then top
  else insertTop n entry (if words = [] then 1 else matchScore words entry) top

theorem insertTop_full {n : Nat} {l : List (Json × Nat)} {entry : Json} {s : Nat}
    (h : n ≤ (l.rdropWhile (·.2 < s)).length) : insertTop n entry s l = l := if_pos h

theorem mem_insertTop {n : Nat} {l : List (Json × Nat)} {entry : Json} {s : Nat} {x : Json × Nat}
    (h : x ∈ insertTop n entry s l) : x ∈ l ∨ x = (entry, s) := by
  by_cases hfull : n ≤ (l.rdropWhile (·.2 < s)).length
  · rw [insertTop_full hfull] at h
    exact .inl h
  · rw [insertTop, if_neg hfull] at h
    rcases List.mem_append.mp (List.mem_of_mem_take h) with h | h
    · exact .inl ((List.rdropWhile_prefix _ _).subset h)
    · rcases List.mem_cons.mp h with h | h
      · exact .inr h
      · exact .inl (List.mem_of_mem_drop h)

/-- Without words, a full list stays. -/
theorem topStep_full {n : Nat} {l : List (Json × Nat)} (hlen : n ≤ l.length) (hone : ∀ x ∈ l, x.2 = 1)
    (entries : List Json) : entries.foldl (topStep [] n) l = l := by
  have hall : l.rdropWhile (·.2 < 1) = l := by
    rw [List.rdropWhile_eq_self_iff]
    intro hne hlast
    rw [hone _ (List.getLast_mem hne)] at hlast
    cases hlast
  induction entries with
  | nil => rfl
  | cons entry entries ih =>
    rw [List.foldl_cons, topStep, if_neg (by simp), if_pos rfl, insertTop_full (by rw [hall]; exact hlen)]
    exact ih

theorem searchLoop_holds {words : List Str} {n : Nat} (hn : n ≤ 50) (entries : List Json) {b : Best}
    {l : List (Json × Nat)} (h : Holds b l) (hl : l.length ≤ n) (hone : words = [] → ∀ x ∈ l, x.2 = 1) :
    ∃ b', searchLoop words n entries b = some b' ∧ Holds b' (entries.foldl (topStep words n) l) := by
  induction entries generalizing b l with
  | nil => exact ⟨b, rfl, h⟩
  | cons entry entries ih =>
    rw [List.foldl_cons, topStep, searchLoop]
    have hscore : words = [] → (if words = [] then 1 else matchScore words entry) = 1 := fun hw => if_pos hw
    generalize (if words = [] then 1 else matchScore words entry) = s at hscore ⊢
    by_cases hs : s = 0
    · rw [if_pos hs, if_pos hs]
      exact ih h hl hone
    rw [if_neg hs, if_neg hs, position_eq h, Option.bind_eq_bind, Option.bind_some]
    by_cases hpos : n ≤ (l.rdropWhile (·.2 < s)).length
    · rw [if_pos hpos, insertTop_full hpos]
      by_cases hw : words = []
      · subst hw
        have hfull := hpos.trans (List.rdropWhile_prefix _ _).length_le
        rw [if_pos rfl, topStep_full hfull (hone rfl)]
        exact ⟨b, rfl, h⟩
      · rw [if_neg hw]
        exact ih h hl hone
    · obtain ⟨b', hinsert, hb'⟩ := holds_insert h hn hl entry s (Nat.not_le.mp hpos)
      rw [if_neg hpos, hinsert, Option.bind_eq_bind, Option.bind_some]
      apply ih hb' (insertTop_length hl entry s)
      intro hw x hx
      rcases mem_insertTop hx with hx | rfl
      · exact hone hw x hx
      · exact hscore hw

/-! ## The best entries -/

theorem insertTop_eq {n : Nat} {l : List (Json × Nat)} (hsorted : l.Pairwise fun a b => b.2 ≤ a.2) (hlen : l.length ≤ n)
    (entry : Json) (s : Nat) : insertTop n entry s l = (insertBehind Prod.snd (entry, s) l).take n := by
  have hbehind := insertBehind_of_sorted Prod.snd hsorted (entry, s)
  simp only at hbehind
  rw [hbehind]
  by_cases hfull : n ≤ (l.rdropWhile (·.2 < s)).length
  · have hpre := List.rdropWhile_prefix (·.2 < s) l
    have hall : l.rdropWhile (·.2 < s) = l := hpre.eq_of_length (Nat.le_antisymm hpre.length_le (hlen.trans hfull))
    rw [insertTop_full hfull, hall, List.take_append_of_le_length (hall ▸ hfull), List.take_of_length_le hlen]
  · exact if_neg hfull

/-- The entries that match, with their scores. -/
def scored (words : List Str) (entries : List Json) : List (Json × Nat) :=
  (entries.map fun entry => (entry, if words = [] then 1 else matchScore words entry)).filter (·.2 ≠ 0)

theorem foldl_topStep (words : List Str) (n : Nat) (entries : List Json) :
    entries.foldl (topStep words n) [] = (rank Prod.snd (scored words entries)).take n := by
  induction entries using List.reverseRecOn with
  | nil => exact List.take_nil.symm
  | append_singleton entries entry ih =>
    rw [List.foldl_append, ih, List.foldl_cons, List.foldl_nil, topStep]
    by_cases hs : (if words = [] then 1 else matchScore words entry) = 0
    · rw [if_pos hs]
      simp [hs, scored]
    · have hsorted := (sorted_rank Prod.snd (scored words entries)).sublist (List.take_sublist n _)
      rw [if_neg hs, insertTop_eq hsorted (List.length_take_le _ _), take_insertBehind, ← rank_concat]
      simp [hs, scored]

/-- What `recall` is to find: the first `n` that match, by falling score, the newest first
    among equals; without words the newest. -/
def recalled (words : List Str) (n : Nat) (entries : List Json) : List Json :=
  if words = [] then entries.reverse.take n
  else (rank (matchScore words) (entries.reverse.filter (matchScore words · ≠ 0))).take n

theorem map_rank_scored (words : List Str) (n : Nat) (entries : List Json) :
    ((rank Prod.snd (scored words entries.reverse)).take n).map Prod.fst = recalled words n entries := by
  have hscored : scored words entries.reverse = (entries.reverse.filter fun entry =>
      (if words = [] then 1 else matchScore words entry) ≠ 0).map fun entry =>
        (entry, if words = [] then 1 else matchScore words entry) := by
    rw [scored, List.filter_map]
    rfl
  rw [hscored, rank_map, List.map_take, List.map_map, recalled]
  by_cases hw : words = []
  · simp [hw, rank_of_const, Function.comp_def]
  · simp [hw, Function.comp_def]

theorem holds_empty : Holds .empty [] := ⟨⟨rfl, rfl⟩, rfl, rfl, rfl⟩

theorem printBest_eq {b : Best} {l : List (Json × Nat)} (h : Holds b l) :
    printBest b = some ((l.map Prod.fst).flatMap formatEntry) := by
  have hall : ∀ es : List Json, (es.map some).mapM id = some es := by
    intro es
    induction es with
    | nil => rfl
    | cons e es ih => simp [List.mapM_cons, ih]
  rw [printBest, h.found, h.top, hall]
  rfl

/-- The loops and `searchText` find the same. -/
theorem memorySearchText_eq (J : CJson) (query : Option Str) (n : Int) (l : Log) :
    memorySearchText J query n l = some (searchText J query n l) := by
  obtain ⟨b, hb, hholds⟩ := @searchLoop_holds (searchWords (query.getD [])) _ (searchLimit_le n) (loadCache J l).reverse
    .empty [] holds_empty (Nat.zero_le _) (fun _ => List.forall_mem_nil _)
  have hwords : queryWords (query.getD []).length 8 (query.getD []) = searchWords (query.getD []) :=
    queryWords_eq 8 (Nat.le_refl _)
  unfold memorySearchText
  simp only
  rw [hwords, hb, Option.bind_eq_bind, Option.bind_some, printBest_eq hholds, List.flatMap_map]
  rfl

theorem searchText_eq (J : CJson) (query : Option Str) (n : Int) (l : Log) : searchText J query n l =
    (recalled (searchWords (query.getD [])) (searchLimit n) (loadCache J l)).flatMap formatEntry := by
  have hfold : searchTop (searchWords (query.getD [])) (searchLimit n) (loadCache J l) =
      (loadCache J l).reverse.foldl (topStep (searchWords (query.getD [])) (searchLimit n)) [] := rfl
  rw [searchText, hfold, foldl_topStep, ← map_rank_scored, List.flatMap_map]

/-- No entry is found twice. -/
theorem recalled_subperm (words : List Str) (n : Nat) (entries : List Json) :
    (recalled words n entries).Subperm entries := by
  unfold recalled
  split
  · exact (List.take_sublist n _).subperm.trans (List.reverse_perm entries).subperm
  · have hrank := List.perm_insertionSort (fun a b => matchScore words b ≤ matchScore words a)
      (entries.reverse.filter (matchScore words · ≠ 0))
    have hfilter := (List.filter_sublist (p := (matchScore words · ≠ 0)) (l := entries.reverse)).subperm
    exact ((List.take_sublist n _).subperm.trans hrank.subperm).trans
      (hfilter.trans (List.reverse_perm entries).subperm)

/-! ## What is printed -/

/-- How many memories a call asks for. -/
structure Asked (n : Int) (k : Nat) : Prop where
  default : n ≤ 0 → k = 20
  given : 0 < n → n ≤ 50 → (k : Int) = n
  most : 50 < n → k = 50

/-- The memories of a log, the oldest first: those it holds, or those on the lines of its file. -/
inductive Memories (J : CJson) : Log → List Json → Prop where
  | held {file : Option Str} {memories : List Json} : Memories J ⟨file, some memories⟩ memories
  | saved {file : Option Str} :
      Memories J ⟨file, none⟩ ((((file.getD []).splitOn (ch '\n')).filter (· ≠ [])).filterMap J.parse)

/-- A byte inside a character. -/
def insideChar (c : UInt8) : Bool := c &&& 0xC0 = 0x80

/-- A text as far as `max` bytes hold it: the longest start of it that ends with a character. -/
structure Excerpt (max : Nat) (text shown : Str) : Prop where
  start : shown <+: text
  fits : shown.length ≤ max
  whole : text.length ≤ max → shown = text
  character : shown = [] ∨ insideChar (byte text shown.length) = false
  longest : ∀ n, shown.length < n → n ≤ max → n < text.length → insideChar (byte text n) = true

/-- The value of a field, or what stands for it. -/
def field (e : Json) (k standIn : Str) : Str := (e.jStr k).getD standIn

/-- `%d`. -/
def signed (n : Int) : Str := (if n < 0 then lit "-" else []) ++ decimal n.natAbs

/-- The line of a memory: its id, category, day, importance, and what 500 bytes hold of its content. -/
inductive LineOf (e : Json) : Str → Prop where
  | line {shown : Str} : Excerpt 500 (field e (lit "content") []) shown →
      LineOf e (lit "- [" ++ field e (lit "id") (lit "?") ++ lit "] (" ++ field e (lit "category") (lit "general") ++
        lit ", " ++ (field e (lit "timestamp") []).take 10 ++ lit ", importance " ++
        signed (jInt e (lit "importance") 5) ++ lit ") " ++ shown ++ lit "\n")

theorem searchLimit_asked (n : Int) : Asked n (searchLimit n) := by
  unfold searchLimit
  refine ⟨fun h => ?_, fun h h' => ?_, fun h => ?_⟩
  · rw [if_pos h]
    rfl
  · rw [if_neg (by omega), if_neg (by omega)]
    omega
  · rw [if_neg (by omega), if_pos h]
    rfl

theorem loadCache_memories (J : CJson) (l : Log) : Memories J l (loadCache J l) := by
  obtain ⟨file, cache⟩ := l
  cases cache with
  | some memories => exact .held
  | none =>
    have hlines : loadCache J ⟨file, none⟩ = (((file.getD []).splitOn (ch '\n')).filter (· ≠ [])).filterMap J.parse := by
      rw [splitOn_segments]
      rfl
    rw [hlines]
    exact .saved

/-- `charStart` stops behind the last character that ends there or before. -/
theorem charStart_stops (s : Str) (n : Nat) :
    (Agent.charStart s n = 0 ∨ insideChar (byte s (Agent.charStart s n)) = false) ∧
      ∀ k, Agent.charStart s n < k → k ≤ n → insideChar (byte s k) = true := by
  induction n with
  | zero => exact ⟨.inl rfl, fun k hk hk' => by omega⟩
  | succ n ih =>
    unfold Agent.charStart
    by_cases hin : byte s (n + 1) &&& 0xC0 = 0x80
    · rw [if_pos hin]
      refine ⟨ih.1, fun k hk hk' => ?_⟩
      rcases Nat.lt_or_eq_of_le hk' with hlt | rfl
      · exact ih.2 k hk (by omega)
      · exact decide_eq_true hin
    · rw [if_neg hin]
      exact ⟨.inr (decide_eq_false hin), fun k hk hk' => by omega⟩

/-- `utf8_prefix` gives the longest such start. -/
theorem utf8Prefix_excerpt (max : Nat) (text : Str) : Excerpt max text (text.take (Agent.utf8Prefix text max)) := by
  have hlen : (text.take (Agent.utf8Prefix text max)).length = Agent.utf8Prefix text max :=
    List.length_take_of_le (Agent.utf8Prefix_le_length text max)
  have hend : insideChar (byte text text.length) = false := by
    unfold byte
    rw [List.getD_eq_getElem?_getD, List.getElem?_eq_none (Nat.le_refl _)]
    rfl
  obtain ⟨hstop, hpassed⟩ := charStart_stops text max
  by_cases hshort : text.length < max
  · have hall : Agent.utf8Prefix text max = text.length := if_pos hshort
    rw [hall] at hlen ⊢
    rw [List.take_length]
    exact ⟨List.prefix_rfl, Nat.le_of_lt hshort, fun _ => rfl, .inr hend, fun n hn _ hn' => absurd hn (by omega)⟩
  · have hcut : Agent.utf8Prefix text max = Agent.charStart text max := if_neg hshort
    rw [hcut] at hlen ⊢
    refine ⟨List.take_prefix _ _, hlen.trans_le (Agent.charStart_le text max), fun h => ?_, ?_, ?_⟩
    · -- the end of the text is no inside of a character
      have hat : Agent.charStart text max = text.length := by
        by_contra hne
        have := hpassed text.length (by have := Agent.charStart_le text max; omega) (by omega)
        rw [hend] at this
        cases this
      rw [hat, List.take_length]
    · rcases hstop with h | h
      · rw [h]
        exact .inl rfl
      · rw [hlen]
        exact .inr h
    · rw [hlen]
      exact fun n hn hn' _ => hpassed n hn hn'

theorem formatEntry_line (e : Json) : LineOf e (formatEntry e) := by
  have hsigned : paddedInt 1 (jInt e (lit "importance") 5) = signed (jInt e (lit "importance") 5) := by
    unfold paddedInt signed
    by_cases hneg : jInt e (lit "importance") 5 < 0
    · have hdigits : padded (1 - 1) (jInt e (lit "importance") 5).natAbs = decimal (jInt e (lit "importance") 5).natAbs :=
        if_neg (by omega)
      rw [if_pos hneg, if_pos hneg, hdigits]
      rfl
    · rw [if_neg hneg, if_neg hneg, padded_one, List.nil_append]
      congr 1
      omega
  unfold formatEntry
  rw [hsigned]
  exact .line (utf8Prefix_excerpt 500 _)

/-- `memory_search` prints the lines of the best memories, none twice. -/
theorem search_ranks (J : CJson) (query : Option Str) (n : Int) (l : Log) :
    ∃ k memories lines, Asked n k ∧ Memories J l memories ∧
      memorySearchText J query n l = some lines.flatten ∧
      List.Forall₂ LineOf (recalled (searchWords (query.getD [])) k memories) lines ∧
      (recalled (searchWords (query.getD [])) k memories).Subperm memories := by
  refine ⟨searchLimit n, loadCache J l,
    (recalled (searchWords (query.getD [])) (searchLimit n) (loadCache J l)).map formatEntry,
    searchLimit_asked n, loadCache_memories J l, ?_, ?_, recalled_subperm _ _ _⟩
  · rw [memorySearchText_eq, searchText_eq, List.flatMap_def]
  · rw [List.forall₂_map_right_iff]
    exact List.forall₂_same.mpr fun e _ => formatEntry_line e

/-- A memory of the last of January. -/
def note (id content : String) : Json :=
  entryOf ⟨some (lit content), none, 5, none, lit id, lit "2026-01-31T18:30:00Z"⟩ (lit content)

/-- The oldest has both words of the query, two have one. -/
def gpuMemories : List Json :=
  [note "1" "gpu in paris", note "2" "coffee", note "3" "gpu rent", note "4" "gpu noise"]

def gpuFile : Str := gpuMemories.flatMap fun memory => CJson.compact.print memory ++ [ch '\n']

/-- Two are asked for: the newest of the two with one word is pushed down by the oldest, and
    the other does not fit. -/
theorem search_ranks_gpu : memorySearchText CJson.compact (some (lit "GPU, Paris?")) 2 ⟨some gpuFile, none⟩ =
    some (lit "- [1] (general, 2026-01-31, importance 5) gpu in paris\n- [4] (general, 2026-01-31, importance 5) gpu noise\n") := by
  obtain ⟨k, memories, lines, hk, hmemories, htext, hlines, -⟩ :=
    search_ranks CJson.compact (some (lit "GPU, Paris?")) 2 ⟨some gpuFile, none⟩
  have hk2 : k = 2 := Int.ofNat.inj (hk.given (by decide) (by decide))
  have hread : ((gpuFile.splitOn (ch '\n')).filter (· ≠ [])).filterMap CJson.compact.parse = gpuMemories := by
    decide +kernel
  have hall : memories = gpuMemories := by
    cases hmemories
    exact hread
  have hbest : recalled (searchWords (lit "GPU, Paris?")) 2 gpuMemories =
      [note "1" "gpu in paris", note "4" "gpu noise"] := by
    decide +kernel
  rw [hk2, hall, Option.getD_some, hbest] at hlines
  rw [htext]
  cases hlines with
  | cons h₁ hlines =>
    cases hlines with
    | cons h₄ hlines =>
      cases hlines
      cases h₁ with
      | line hshown₁ =>
        cases h₄ with
        | line hshown₄ =>
          rw [hshown₁.whole (by decide), hshown₄.whole (by decide)]
          decide +kernel

end Shclaw.Memory
