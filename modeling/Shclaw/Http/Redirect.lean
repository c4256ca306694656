/-
  Shclaw.Http.Redirect — where `resolve_location` (`src/http.c`) sends a redirect, against
  the resolution of RFC 3986 (`Lib.resolve`).

  The code tells the five forms of a reference apart by `strstr(loc, "://")` and the leading
  slashes, and takes a value of any other shape for a path.
  `resolve_location_exact`: from an `http` or `https` URL the target is the one of the RFC
  exactly if the location contains `://` just when it starts with a scheme, and a location
  without a path (`?…`, `#…`) finds the current path to be a directory and, when it has no
  query either, no query to keep.
-/

import Shclaw.Http.Request
import Shclaw.Lib.Uri

namespace Shclaw.Http

open Lib

/-! ## The two URLs -/

def marker : Str := lit "://"

/-- An `http` or `https` URL in three parts. -/
structure Origin (cur scheme auth rest : Str) : Prop where
  split : cur = scheme ++ marker ++ auth ++ rest
  scheme : scheme = lit "http" ∨ scheme = lit "https"
  auth : ∀ c ∈ auth, (lit "/?#").contains c = false
  rest : Stops (lit "/?#") rest

theorem exists_origin {cur : Str} (h : startsWith cur (lit "http://") = true ∨ startsWith cur (lit "https://") = true) :
    ∃ scheme auth rest, Origin cur scheme auth rest := by
  have hof : ∀ scheme tail : Str, (scheme = lit "http" ∨ scheme = lit "https") → cur = scheme ++ marker ++ tail →
      ∃ scheme auth rest, Origin cur scheme auth rest := by
    intro scheme tail hscheme hcur
    refine ⟨scheme, before (lit "/?#") tail, behind (lit "/?#") tail, ⟨?_, hscheme, not_mem_before, stops_behind _ _⟩⟩
    rw [List.append_assoc, before_append_behind]
    exact hcur
  rcases h with h | h
  · obtain ⟨tail, htail⟩ := List.isPrefixOf_iff_prefix.mp h
    exact hof (lit "http") tail (Or.inl rfl) htail.symm
  · obtain ⟨tail, htail⟩ := List.isPrefixOf_iff_prefix.mp h
    exact hof (lit "https") tail (Or.inr rfl) htail.symm

section Parts

variable {cur scheme auth rest : Str} (h : Origin cur scheme auth rest)
include h

/-- The parts as `parseUri` reads them, of this URL and of any other below the same origin. -/
theorem Origin.parse_below {tail : Str} (htail : Stops (lit "/?#") tail) :
    parseUri (scheme ++ marker ++ auth ++ tail) = parsePath (some scheme) (some auth) tail := by
  have hsplit : splitScheme (scheme ++ ch ':' :: (lit "//" ++ auth ++ tail)) = some (scheme, lit "//" ++ auth ++ tail) := by
    rcases h.scheme with rfl | rfl <;> exact splitScheme_some (by decide) (by decide) _
  have hshape : scheme ++ marker ++ auth ++ tail = scheme ++ ch ':' :: (lit "//" ++ auth ++ tail) := by
    simp only [List.append_assoc]
    rfl
  unfold parseUri
  rw [hshape, hsplit]
  exact parseHier_authority _ h.auth htail

theorem Origin.parse : parseUri cur = parsePath (some scheme) (some auth) rest := by
  rw [h.split]
  exact h.parse_below h.rest

/-- The marker `strstr` finds is the one behind the scheme. -/
theorem Origin.scheme_end : (strstr cur (lit "://")).map (fun e => cur.length - e.length) = some scheme.length := by
  have hlen : cur.length = scheme.length + (marker ++ auth ++ rest).length := by
    rw [h.split]
    simp only [List.length_append]
    omega
  have hfind : strstr cur (lit "://") = some (marker ++ auth ++ rest) := by
    rw [h.split]
    rcases h.scheme with rfl | rfl <;> rfl
  rw [hfind, Option.map_some, hlen, Nat.add_sub_cancel]

/-- `cur` up to `scheme_end + 1`. -/
theorem Origin.take_scheme : cur.take (scheme.length + 1) = scheme ++ lit ":" := by
  have hshape : cur = (scheme ++ lit ":") ++ (lit "//" ++ auth ++ rest) := by
    rw [h.split]
    simp only [List.append_assoc]
    rfl
  rw [hshape]
  apply List.take_left'
  rw [List.length_append]
  rfl

/-- `origin_end`. -/
theorem Origin.origin_end :
    scheme.length + 3 + (before (lit "/?#") (cur.drop (scheme.length + 3))).length = (scheme ++ marker ++ auth).length := by
  have hdrop : cur.drop (scheme.length + 3) = auth ++ rest := by
    rw [h.split, List.append_assoc]
    apply List.drop_left'
    rw [List.length_append]
    rfl
  have hup : before (lit "/?#") (auth ++ rest) = auth := by
    change before (lit "/?#") (auth ++ rest) = auth
    rw [before_append h.auth, before_of_stops h.rest, List.append_nil]
  rw [hdrop, hup, List.length_append, List.length_append]
  rfl

theorem Origin.take_origin : cur.take (scheme ++ marker ++ auth).length = scheme ++ marker ++ auth := by
  rw [h.split, List.take_left]

theorem Origin.drop_origin : cur.drop (scheme ++ marker ++ auth).length = rest := by
  rw [h.split, List.drop_left]

end Parts

/-! ## The target -/

/-- The path up to its last slash, or the root. -/
def directory (path : Str) : Str := if upToSlash path = [] then lit "/" else upToSlash path

/-- What `resolve_location` writes, by the parts of `cur`. -/
def target (scheme auth rest loc : Str) : Str :=
  if (strstr loc (lit "://")).isSome then loc
  else if byte loc 0 = ch '/' ∧ byte loc 1 = ch '/' then scheme ++ lit ":" ++ loc
  else if byte loc 0 = ch '/' then scheme ++ marker ++ auth ++ loc
  else scheme ++ marker ++ auth ++ (directory (before (lit "?#") rest) ++ loc)

theorem resolveLocation_eq {cur scheme auth rest loc out : Str} (h : Origin cur scheme auth rest)
    (hout : resolveLocation cur loc = some out) : out = target scheme auth rest loc := by
  unfold resolveLocation at hout
  simp only [h.scheme_end, Option.map_some, Option.getD_some, h.origin_end, h.take_scheme, h.take_origin, h.drop_origin,
    Option.ite_none_right_eq_some, Option.some.injEq] at hout
  rw [← hout.2]
  unfold target
  congr 3
  change (if upToSlash (before (lit "?#") rest) ≠ [] then _ ++ upToSlash (before (lit "?#") rest) ++ loc else _) = _
  unfold directory
  by_cases hdir : upToSlash (before (lit "?#") rest) = []
  · rw [if_neg (not_not_intro hdir), if_pos hdir, List.append_assoc]
  · rw [if_pos hdir, if_neg hdir, List.append_assoc]

theorem directory_slash {rest : Str} (hrest : Stops (lit "/?#") rest) :
    ∃ q, directory (before (lit "?#") rest) = ch '/' :: q := by
  rcases before_path hrest with hnil | ⟨t, ht⟩
  · exact ⟨[], by rw [hnil]; rfl⟩
  · obtain ⟨q, hq⟩ := upToSlash_slash t
    refine ⟨q, ?_⟩
    unfold directory
    rw [ht, hq, if_neg (List.cons_ne_nil _ _)]

theorem Origin.stops_directory {cur scheme auth rest : Str} (h : Origin cur scheme auth rest) (loc : Str) :
    Stops (lit "/?#") (directory (before (lit "?#") rest) ++ loc) := by
  obtain ⟨q, hq⟩ := directory_slash h.rest
  rw [hq]
  intro c hc
  cases Option.some.inj hc
  decide

theorem not_mem_directory (rest : Str) : ∀ c ∈ directory (before (lit "?#") rest), (lit "?#").contains c = false := by
  intro c hc
  unfold directory at hc
  split at hc
  · rw [List.mem_singleton.mp hc]
    decide
  · exact not_mem_before c ((prefix_upToSlash _).subset hc)

/-- The directory is what `merge` keeps of the base. -/
theorem directory_append (scheme auth : Str) {rest : Str} (hrest : Stops (lit "/?#") rest) (path : Str) :
    directory (before (lit "?#") rest) ++ path = merge (parsePath (some scheme) (some auth) rest) path := by
  change _ = if true = true ∧ before (lit "?#") rest = [] then _ else upToSlash (before (lit "?#") rest) ++ path
  rcases before_path hrest with hnil | ⟨t, ht⟩
  · rw [if_pos ⟨rfl, hnil⟩, hnil]
    rfl
  · obtain ⟨q, hq⟩ := upToSlash_slash t
    unfold directory
    rw [ht, hq, if_neg (List.cons_ne_nil _ _), if_neg fun hand => List.cons_ne_nil _ _ hand.2]

/-! ## Agreement -/

/-- When the two agree. -/
structure Resolves (cur loc : Str) : Prop where
  /-- `://` stands in the location just when it has a scheme. -/
  absolute : marker <:+: loc ↔ (parseUri loc).scheme.isSome = true
  /-- A location without a path finds the current path to be a directory, and no query to keep. -/
  bare : (parseUri loc).scheme = none → (parseUri loc).authority = none → (parseUri loc).path = [] →
    (parseUri cur).IsDirectory ∧ ((parseUri loc).query.isSome = true ∨ (parseUri cur).query = none)

/-- A value with `://` in it is used as it is. -/
theorem sameTarget_absolute {base ref : Uri} (hbase : base.scheme.isSome = true) :
    SameTarget ref (resolve base ref) ↔ ref.scheme.isSome = true := by
  constructor
  · intro hsame
    by_contra hnone
    have hscheme : (resolve base ref).scheme = base.scheme := by
      unfold resolve
      rw [if_neg hnone]
      split_ifs <;> rfl
    rw [hsame.scheme, hscheme] at hnone
    exact hnone hbase
  · intro hsome
    have : resolve base ref = ref := if_pos hsome
    rw [this]
    exact ⟨rfl, rfl, rfl, rfl⟩

/-- Behind a scheme an authority needs the marker; the slashes of another form come first. -/
theorem shape_of_scheme {loc : Str} (hscheme : (parseUri loc).scheme.isSome = true) (hmarker : ¬marker <:+: loc) :
    (parseUri loc).authority = none ∧ byte loc 0 ≠ ch '/' := by
  unfold parseUri at hscheme ⊢
  cases hsplit : splitScheme loc with
  | none =>
    rw [hsplit] at hscheme
    simp only [parseHier] at hscheme
    split at hscheme <;> exact absurd hscheme Bool.false_ne_true
  | some parts =>
    obtain ⟨scheme, rest⟩ := parts
    obtain ⟨hloc, hfirst⟩ := eq_of_splitScheme hsplit
    constructor
    · have hstart : ¬startsWith rest (lit "//") = true := by
        intro hstart
        obtain ⟨tail, htail⟩ := List.isPrefixOf_iff_prefix.mp hstart
        refine hmarker ⟨scheme, tail, ?_⟩
        rw [hloc, ← htail, List.append_assoc]
        rfl
      simp only [parseHier, if_neg hstart]
      rfl
    · intro hslash
      cases scheme with
      | nil => exact absurd hfirst Bool.false_ne_true
      | cons c t =>
        rw [hloc] at hslash
        have hc : c = ch '/' := hslash
        rw [hc] at hfirst
        exact absurd hfirst (show ¬isAlpha (ch '/') = true by decide)

/-- Without a scheme only the hierarchy is read. -/
theorem parseUri_of_none {loc : Str} (hscheme : ¬(parseUri loc).scheme.isSome = true) : parseUri loc = parseHier none loc := by
  unfold parseUri at hscheme ⊢
  cases hsplit : splitScheme loc with
  | none => rfl
  | some parts =>
    rw [hsplit] at hscheme
    simp only [parseHier] at hscheme
    split at hscheme <;> exact absurd rfl hscheme

theorem startsWith_slashes (loc : Str) : startsWith loc (lit "//") = true ↔ byte loc 0 = ch '/' ∧ byte loc 1 = ch '/' := by
  unfold startsWith
  rw [List.isPrefixOf_iff_prefix]
  constructor
  · rintro ⟨tail, rfl⟩
    exact ⟨rfl, rfl⟩
  · rintro ⟨h0, h1⟩
    have hloc := cons_of_byte h0 (by decide)
    have htail := cons_of_byte ((byte_drop loc 1 0).trans h1) (by decide)
    refine ⟨(loc.drop 1).drop 1, ?_⟩
    rw [hloc, List.drop_succ_cons, List.drop_zero, htail]
    rfl

/-- A location without a query takes the one of the base. -/
theorem query_kept {query base : Option Str} :
    query = (if query.isSome then query else base) ↔ query.isSome = true ∨ base = none := by
  cases query with
  | none => simp [eq_comm]
  | some q => simp

section Agreement

variable {cur scheme auth rest loc : Str} (h : Origin cur scheme auth rest) (hscheme : ¬(parseUri loc).scheme.isSome = true)
include h hscheme

/-- `//…`: the scheme is kept. -/
theorem sameTarget_authority (hslashes : startsWith loc (lit "//") = true) :
    SameTarget (parseUri (scheme ++ lit ":" ++ loc)) (resolve (parseUri cur) (parseUri loc)) := by
  have hout : parseUri (scheme ++ lit ":" ++ loc) = parseHier (some scheme) loc := by
    have hsplit : splitScheme (scheme ++ ch ':' :: loc) = some (scheme, loc) := by
      rcases h.scheme with rfl | rfl <;> exact splitScheme_some (by decide) (by decide) _
    unfold parseUri
    rw [List.append_assoc, show scheme ++ (lit ":" ++ loc) = scheme ++ ch ':' :: loc from rfl, hsplit]
  rw [hout, parseUri_of_none hscheme, h.parse]
  unfold parseHier
  simp only [if_pos hslashes]
  exact ⟨rfl, rfl, rfl, rfl⟩

/-- `/…`: the scheme and the authority are kept. -/
theorem sameTarget_path (hslashes : ¬startsWith loc (lit "//") = true) (hslash : byte loc 0 = ch '/') :
    SameTarget (parseUri (scheme ++ marker ++ auth ++ loc)) (resolve (parseUri cur) (parseUri loc)) := by
  have hloc := cons_of_byte hslash (by decide)
  have hstops : Stops (lit "/?#") loc := by
    rw [hloc]
    intro c hc
    cases Option.some.inj hc
    decide
  have href : parseUri loc = parsePath none none loc := by
    rw [parseUri_of_none hscheme]
    exact if_neg hslashes
  have hpath : ∃ t, before (lit "?#") loc = ch '/' :: t := by
    rw [hloc]
    exact ⟨_, List.takeWhile_cons_of_pos (by decide)⟩
  obtain ⟨t, ht⟩ := hpath
  have hne : (parsePath none none loc).path ≠ [] := by
    change before (lit "?#") loc ≠ []
    rw [ht]
    exact List.cons_ne_nil _ _
  have hfirst : byte (parsePath none none loc).path 0 = ch '/' := by
    change byte (before (lit "?#") loc) 0 = ch '/'
    rw [ht]
    rfl
  rw [h.parse_below hstops, h.parse, href, resolve_path rfl rfl hne, if_pos hfirst]
  exact ⟨rfl, rfl, rfl, rfl⟩

/-- Any other value stands behind the directory. -/
theorem sameTarget_relative (hslash : byte loc 0 ≠ ch '/') :
    SameTarget (parseUri (scheme ++ marker ++ auth ++ (directory (before (lit "?#") rest) ++ loc)))
        (resolve (parseUri cur) (parseUri loc)) ↔
      ((parseUri loc).path = [] → (parseUri cur).IsDirectory ∧ ((parseUri loc).query.isSome = true ∨ (parseUri cur).query = none)) := by
  have href : parseUri loc = parsePath none none loc := by
    rw [parseUri_of_none hscheme]
    exact if_neg fun hslashes => hslash ((startsWith_slashes loc).mp hslashes).1
  rw [h.parse_below (h.stops_directory loc), parsePath_append _ _ (not_mem_directory rest), directory_append scheme auth h.rest, h.parse, href]
  have hpathEq : (parsePath none none loc).path = before (lit "?#") loc := rfl
  by_cases hpath : (parsePath none none loc).path = []
  · rw [resolve_bare rfl rfl hpath, ← hpathEq, hpath]
    constructor
    · intro hsame _
      exact ⟨hsame.path, query_kept.mp hsame.query⟩
    · intro hbare
      obtain ⟨hdots, hquery⟩ := hbare rfl
      exact ⟨rfl, rfl, hdots, query_kept.mpr hquery⟩
  · have hfirst : byte (parsePath none none loc).path 0 ≠ ch '/' := by
      intro hfirst
      rw [hpathEq] at hfirst hpath
      obtain ⟨t, ht⟩ : before (lit "?#") loc <+: loc := List.takeWhile_prefix _
      apply hslash
      rw [← ht, cons_of_byte hfirst (by decide)]
      rfl
    rw [resolve_path rfl rfl hpath, if_neg hfirst]
    exact iff_of_true ⟨rfl, rfl, rfl, rfl⟩ fun hnil => absurd hnil hpath

end Agreement

/-! ## Redirects -/

/-- The code's target is the one of the RFC exactly when `Resolves` holds. -/
theorem resolve_location_exact (cur loc out : Str)
    (hcur : startsWith cur (lit "http://") = true ∨ startsWith cur (lit "https://") = true)
    (hout : resolveLocation cur loc = some out) :
    SameTarget (parseUri out) (resolve (parseUri cur) (parseUri loc)) ↔ Resolves cur loc := by
  obtain ⟨scheme, auth, rest, h⟩ := exists_origin hcur
  rw [resolveLocation_eq h hout]
  unfold target
  by_cases hmarker : marker <:+: loc
  · have hsome : (strstr loc (lit "://")).isSome = true := strstr_isSome.mpr hmarker
    have hbase : (parseUri cur).scheme.isSome = true := by rw [h.parse]; rfl
    rw [if_pos hsome, sameTarget_absolute hbase]
    refine ⟨fun hscheme => ⟨iff_of_true hmarker hscheme, fun hnone => ?_⟩, fun hres => hres.absolute.mp hmarker⟩
    rw [hnone] at hscheme
    exact absurd hscheme Bool.false_ne_true
  have hsome : ¬(strstr loc (lit "://")).isSome = true := fun hsome => hmarker (strstr_isSome.mp hsome)
  simp only [if_neg hsome, ← startsWith_slashes]
  by_cases hscheme : (parseUri loc).scheme.isSome = true
  · -- a scheme without `://` is taken for a path
    obtain ⟨hauth, hslash⟩ := shape_of_scheme hscheme hmarker
    refine iff_of_false ?_ fun hres => hmarker (hres.absolute.mpr hscheme)
    have hslashes : ¬startsWith loc (lit "//") = true := fun hslashes => hslash ((startsWith_slashes loc).mp hslashes).1
    rw [if_neg hslashes, if_neg hslash]
    intro hsame
    have hresolve : resolve (parseUri cur) (parseUri loc) = parseUri loc := if_pos hscheme
    have hkept := hsame.authority
    rw [h.parse_below (h.stops_directory loc), hresolve, hauth] at hkept
    exact Option.some_ne_none _ hkept
  have hnone : (parseUri loc).scheme = none := Option.not_isSome_iff_eq_none.mp hscheme
  have hresolves : Resolves cur loc ↔ ((parseUri loc).authority = none → (parseUri loc).path = [] →
      (parseUri cur).IsDirectory ∧ ((parseUri loc).query.isSome = true ∨ (parseUri cur).query = none)) :=
    ⟨fun hres => hres.bare hnone, fun hbare => ⟨iff_of_false hmarker hscheme, fun _ => hbare⟩⟩
  rw [hresolves]
  split_ifs with hslashes hslash
  · have hauth : (parseUri loc).authority ≠ none := by
      rw [parseUri_of_none hscheme]
      unfold parseHier
      rw [if_pos hslashes]
      exact Option.some_ne_none _
    exact iff_of_true (sameTarget_authority h hscheme hslashes) fun hnone => absurd hnone hauth
  · have hpath : (parseUri loc).path ≠ [] := by
      rw [parseUri_of_none hscheme]
      unfold parseHier
      rw [if_neg hslashes, cons_of_byte hslash (by decide)]
      exact List.cons_ne_nil _ _
    exact iff_of_true (sameTarget_path h hscheme hslashes hslash) fun _ hnil => absurd hnil hpath
  · have hauth : (parseUri loc).authority = none := by
      rw [parseUri_of_none hscheme]
      unfold parseHier
      rw [if_neg hslashes]
      rfl
    rw [sameTarget_relative h hscheme hslash]
    exact ⟨fun hbare _ => hbare, fun hbare => hbare hauth⟩

theorem resolve_location_exact_sibling :
    resolveLocation (lit "https://h:8080/a/b?u=http://x/") (lit "c") = some (lit "https://h:8080/a/c") ∧
      SameTarget (parseUri (lit "https://h:8080/a/c"))
        (resolve (parseUri (lit "https://h:8080/a/b?u=http://x/")) (parseUri (lit "c"))) := by
  have hout : resolveLocation (lit "https://h:8080/a/b?u=http://x/") (lit "c") = some (lit "https://h:8080/a/c") := by
    decide +kernel
  refine ⟨hout, (resolve_location_exact _ _ _ (Or.inr (by decide)) hout).mpr ⟨?_, ?_⟩⟩
  · exact iff_of_false (by decide) (by decide +kernel)
  · intro _ _ hpath
    exact absurd hpath (by decide +kernel)

/-- A `://` in the query of the location: the location is taken for the whole URL. -/
theorem query_marker_replaces :
    resolveLocation (lit "http://h/a") (lit "/r?u=http://x/") = some (lit "/r?u=http://x/") ∧
      resolve (parseUri (lit "http://h/a")) (parseUri (lit "/r?u=http://x/")) = parseUri (lit "http://h/r?u=http://x/") ∧
      ¬SameTarget (parseUri (lit "/r?u=http://x/")) (resolve (parseUri (lit "http://h/a")) (parseUri (lit "/r?u=http://x/"))) := by
  refine ⟨by decide +kernel, by decide +kernel, fun hsame => ?_⟩
  have hscheme := hsame.scheme
  revert hscheme
  decide +kernel

end Shclaw.Http
