/-
  Shclaw.Lib.Uri — URI references and their resolution (RFC 3986, sections 3 to 5).

  `parseUri` splits a reference at its delimiters; nothing is validated. `resolve` is the
  transformation of section 5.2.2 with the removal of dot segments left out, so that two
  targets are compared after it (`SameTarget`), their fragments aside.
-/

import Shclaw.Lib.CString

namespace Shclaw.Lib

/-- Up to the first byte of `set`. -/
def before (set s : Str) : Str := s.takeWhile fun c => !set.contains c

/-- From it on. -/
def behind (set s : Str) : Str := s.dropWhile fun c => !set.contains c

theorem before_append_behind (set s : Str) : before set s ++ behind set s = s := List.takeWhile_append_dropWhile

theorem not_mem_before {set s : Str} : ∀ c ∈ before set s, set.contains c = false := by
  intro c hc
  have := List.all_eq_true.mp List.all_takeWhile c hc
  simpa using this

theorem before_append {set a : Str} (ha : ∀ c ∈ a, set.contains c = false) (b : Str) :
    before set (a ++ b) = a ++ before set b :=
  List.takeWhile_append_of_pos fun c hc => by rw [ha c hc]; rfl

theorem behind_append {set a : Str} (ha : ∀ c ∈ a, set.contains c = false) (b : Str) :
    behind set (a ++ b) = behind set b :=
  List.dropWhile_append_of_pos fun c hc => by rw [ha c hc]; rfl

/-- Nothing, or a byte of `set` first. -/
def Stops (set s : Str) : Prop := ∀ c ∈ s.head?, set.contains c = true

theorem stops_behind (set s : Str) : Stops set (behind set s) := by
  intro c hc
  have := List.head?_dropWhile_not (fun c => !set.contains c) s
  unfold behind at hc
  rw [hc] at this
  simpa using this

theorem before_of_stops {set s : Str} (h : Stops set s) : before set s = [] := by
  cases s with
  | nil => rfl
  | cons c s => exact List.takeWhile_cons_of_neg (by simpa using h c rfl)

theorem behind_of_stops {set s : Str} (h : Stops set s) : behind set s = s := by
  cases s with
  | nil => rfl
  | cons c s => exact List.dropWhile_cons_of_neg (by simpa using h c rfl)

/-! ## References -/

structure Uri where
  scheme : Option Str
  authority : Option Str
  path : Str
  query : Option Str
  fragment : Option Str
  deriving DecidableEq

def isAlpha (c : UInt8) : Bool := (97 ≤ c && c ≤ 122) || (65 ≤ c && c ≤ 90)

/-- `ALPHA / DIGIT / "+" / "-" / "."`. -/
def isSchemeChar (c : UInt8) : Bool := isAlpha c || isDigit c || c = ch '+' || c = ch '-' || c = ch '.'

/-- A scheme and what follows its colon. -/
def splitScheme (s : Str) : Option (Str × Str) :=
  let scheme := s.takeWhile isSchemeChar
  if scheme.head?.any isAlpha ∧ byte (s.drop scheme.length) 0 = ch ':' then some (scheme, s.drop (scheme.length + 1))
  else none

/-- What follows the path. -/
def parseTail : Str → Option Str × Option Str
  | [] => (none, none)
  | c :: s =>
    if c = ch '?' then (some (before (lit "#") s), (behind (lit "#") s).tail?)
    else (none, some s)

def parsePath (scheme authority : Option Str) (s : Str) : Uri where
  scheme := scheme
  authority := authority
  path := before (lit "?#") s
  query := (parseTail (behind (lit "?#") s)).1
  fragment := (parseTail (behind (lit "?#") s)).2

def parseHier (scheme : Option Str) (s : Str) : Uri :=
  if startsWith s (lit "//") then
    parsePath scheme (some (before (lit "/?#") (s.drop 2))) (behind (lit "/?#") (s.drop 2))
  else parsePath scheme none s

def parseUri (s : Str) : Uri :=
  match splitScheme s with
  | some (scheme, rest) => parseHier (some scheme) rest
  | none => parseHier none s

/-! ## Resolution -/

/-- Up to the last `/`, with it. -/
def upToSlash (path : Str) : Str := (path.reverse.dropWhile (· ≠ ch '/')).reverse

def merge (base : Uri) (path : Str) : Str :=
  if base.authority.isSome ∧ base.path = [] then lit "/" ++ path else upToSlash base.path ++ path

def resolve (base ref : Uri) : Uri :=
  if ref.scheme.isSome then ref
  else if ref.authority.isSome then { ref with scheme := base.scheme }
  else if ref.path = [] then { base with query := if ref.query.isSome then ref.query else base.query, fragment := ref.fragment }
  else if byte ref.path 0 = ch '/' then { ref with scheme := base.scheme, authority := base.authority }
  else { ref with scheme := base.scheme, authority := base.authority, path := merge base ref.path }

theorem resolve_path {base ref : Uri} (hscheme : ref.scheme = none) (hauth : ref.authority = none) (hpath : ref.path ≠ []) :
    resolve base ref = ⟨base.scheme, base.authority, if byte ref.path 0 = ch '/' then ref.path else merge base ref.path,
      ref.query, ref.fragment⟩ := by
  have hs : ¬ref.scheme.isSome = true := by simp [hscheme]
  have ha : ¬ref.authority.isSome = true := by simp [hauth]
  unfold resolve
  rw [if_neg hs, if_neg ha, if_neg hpath]
  split <;> rfl

theorem resolve_bare {base ref : Uri} (hscheme : ref.scheme = none) (hauth : ref.authority = none) (hpath : ref.path = []) :
    resolve base ref = { base with query := if ref.query.isSome then ref.query else base.query, fragment := ref.fragment } := by
  have hs : ¬ref.scheme.isSome = true := by simp [hscheme]
  have ha : ¬ref.authority.isSome = true := by simp [hauth]
  unfold resolve
  rw [if_neg hs, if_neg ha, if_pos hpath]

/-- The output without its last segment. -/
def dropSegment (out : Str) : Str := (out.reverse.dropWhile (· ≠ ch '/')).tail.reverse

/-- `remove_dot_segments`, `n` steps of it: the input left and the output so far. -/
def removeDotsLoop : Nat → Str → Str → Str
  | 0, _, out => out
  | n + 1, input, out =>
    if input = [] then out
    else if startsWith input (lit "../") then removeDotsLoop n (input.drop 3) out
    else if startsWith input (lit "./") then removeDotsLoop n (input.drop 2) out
    else if startsWith input (lit "/./") then removeDotsLoop n (input.drop 2) out
    else if input = lit "/." then removeDotsLoop n (lit "/") out
    else if startsWith input (lit "/../") then removeDotsLoop n (input.drop 3) (dropSegment out)
    else if input = lit "/.." then removeDotsLoop n (lit "/") (dropSegment out)
    else if input = lit "." ∨ input = lit ".." then out
    else
      -- the first segment, with the `/` before it
      let segment := input.take 1 ++ before (lit "/") (input.drop 1)
      removeDotsLoop n (input.drop segment.length) (out ++ segment)

/-- Every step but one to `/` shortens the input. -/
def removeDots (path : Str) : Str := removeDotsLoop (path.length + 1) path []

example : removeDots (lit "/a/b/c/./../../g") = lit "/a/g" := by decide +kernel

/-- The path names its own directory: nothing stands behind its last slash, dots aside. -/
def Uri.IsDirectory (u : Uri) : Prop := removeDots (merge u []) = removeDots u.path

/-- The same target, dot segments and fragments aside. -/
structure SameTarget (a b : Uri) : Prop where
  scheme : a.scheme = b.scheme
  authority : a.authority = b.authority
  path : removeDots a.path = removeDots b.path
  query : a.query = b.query

/-! ## Parts -/

/-- Behind an authority the path is empty or starts with a slash. -/
theorem before_path {rest : Str} (h : Stops (lit "/?#") rest) :
    before (lit "?#") rest = [] ∨ ∃ t, before (lit "?#") rest = ch '/' :: t := by
  cases rest with
  | nil => exact Or.inl rfl
  | cons c t =>
    have hc : c ∈ ch '/' :: lit "?#" := List.contains_iff_mem.mp (h c rfl)
    rcases List.mem_cons.mp hc with rfl | hc
    · exact Or.inr ⟨before (lit "?#") t, List.takeWhile_cons_of_pos (by decide)⟩
    · refine Or.inl (before_of_stops fun d hd => ?_)
      cases Option.some.inj hd
      exact List.contains_iff_mem.mpr hc

theorem upToSlash_slash (p : Str) : ∃ q, upToSlash (ch '/' :: p) = ch '/' :: q := by
  unfold upToSlash
  rw [List.reverse_cons, List.dropWhile_append]
  split
  · exact ⟨[], rfl⟩
  · exact ⟨_, by rw [List.reverse_append]; rfl⟩

theorem prefix_upToSlash (path : Str) : upToSlash path <+: path := by
  have hsuffix : path.reverse.dropWhile (· ≠ ch '/') <:+ path.reverse := List.dropWhile_suffix _
  have := List.reverse_prefix.mpr hsuffix
  rwa [List.reverse_reverse] at this

/-- What stands before and behind the colon. -/
theorem eq_of_splitScheme {s scheme rest : Str} (h : splitScheme s = some (scheme, rest)) :
    s = scheme ++ ch ':' :: rest ∧ scheme.head?.any isAlpha = true := by
  unfold splitScheme at h
  simp only [Option.ite_none_right_eq_some, Option.some.injEq, Prod.mk.injEq] at h
  obtain ⟨⟨hfirst, hcolon⟩, rfl, hrest⟩ := h
  refine ⟨?_, hfirst⟩
  have hdrop := cons_of_byte hcolon (by decide)
  rw [List.drop_drop, hrest] at hdrop
  rw [← hdrop]
  exact (List.prefix_iff_eq_append.mp (List.takeWhile_prefix _)).symm

theorem splitScheme_some {scheme : Str} (hall : scheme.all isSchemeChar = true)
    (hfirst : scheme.head?.any isAlpha = true) (rest : Str) :
    splitScheme (scheme ++ ch ':' :: rest) = some (scheme, rest) := by
  have htake : (scheme ++ ch ':' :: rest).takeWhile isSchemeChar = scheme := by
    rw [List.takeWhile_append_of_pos (List.all_eq_true.mp hall), List.takeWhile_cons_of_neg (by decide), List.append_nil]
  unfold splitScheme
  simp only [htake, List.drop_left, List.drop_length_add_append]
  rw [if_pos ⟨hfirst, rfl⟩]
  rfl

/-- More path in front. -/
theorem parsePath_append (scheme authority : Option Str) {a : Str} (ha : ∀ c ∈ a, (lit "?#").contains c = false) (s : Str) :
    parsePath scheme authority (a ++ s) = { parsePath scheme authority s with path := a ++ before (lit "?#") s } := by
  unfold parsePath
  rw [before_append ha, behind_append ha]

theorem parseHier_authority (scheme : Option Str) {auth rest : Str} (hauth : ∀ c ∈ auth, (lit "/?#").contains c = false)
    (hrest : Stops (lit "/?#") rest) :
    parseHier scheme (lit "//" ++ auth ++ rest) = parsePath scheme (some auth) rest := by
  have hstart : startsWith (lit "//" ++ (auth ++ rest)) (lit "//") = true := List.isPrefixOf_iff_prefix.mpr (List.prefix_append _ _)
  unfold parseHier
  rw [List.append_assoc, if_pos hstart]
  simp only [show (lit "//" ++ (auth ++ rest)).drop 2 = auth ++ rest from rfl]
  rw [before_append hauth, behind_append hauth, before_of_stops hrest, behind_of_stops hrest, List.append_nil]

end Shclaw.Lib
