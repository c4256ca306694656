/-
  Shclaw.Plugin.Follow — the loaded plugins and the directory (`src/plugin.c`:
  `plugin_scan`, `plugin_compile`, `is_known_failure`, `record_failure`).

  Files are put, edited and removed at any moment; a new content has a new mtime. A pass
  forgets the plugins whose file is gone, then looks at the files one by one, in any
  order; whether a source builds depends on the source alone. `stable` counts the passes
  completed since the last change, and a pass in which one fell does not count.

  A file refused for a name another file had, or for a full table, is remembered like one
  that does not build, and skipped at that mtime from then on (`twin_forgotten`).

  `follows`: over a directory unchanged for two passes, every file that builds under a
  name no other loaded file has is loaded with its content, while there is room, if the
  passes after the first never skip a file for a failure whose cause is gone: where they
  skip one that builds, or find its name taken, a loaded, unchanged file has that name.
-/

import Shclaw.Lib.Runs
import Shclaw.Plugin.Registry

namespace Shclaw.Plugin.Follow

open Lib

/-- The names a pass has still to look at; `clean` when no file changed since it started. -/
structure Pass where
  rest : List Str
  clean : Bool

structure St where
  reg : Registry
  files : List File
  /-- Every file there ever was. -/
  seen : List File
  pass : Option Pass
  stable : Nat

inductive Ev where
  | put (f : File)
  | remove (name : Str)
  | start (names : List Str)
  | visit
  | close

/-- After a change. -/
def St.changed (s : St) (files : List File) : St :=
  { s with
    files
    pass := s.pass.map fun p => { p with clean := false }
    stable := 0 }

section

variable (T : Tcc) (J : CJson)

def step (s : St) : Ev → Option St
  | .put f =>
    if s.seen.all fun g => !(g.name = f.name && g.mtime = f.mtime) || g.code = f.code then
      some { s.changed (f :: s.files.filter (·.name ≠ f.name)) with seen := f :: s.seen }
    else none
  | .remove name => some (s.changed (s.files.filter (·.name ≠ name)))
  | .start names =>
    match s.pass with
    | none =>
      if names.isPerm (s.files.map (·.name)) then
        some { s with
          reg := s.reg.forget fun path => s.files.any fun f => s.reg.path f.name = path
          pass := some ⟨names, true⟩ }
      else none
    | some _ => none
  | .visit =>
    match s.pass with
    | some ⟨name :: rest, clean⟩ =>
      let reg := match s.files.find? (·.name = name) with
        | some f => scanFile T J (fun _ => none) s.reg f
        | none => s.reg
      some { s with
        reg
        pass := some ⟨rest, clean⟩ }
    | _ => none
  | .close =>
    match s.pass with
    | some ⟨[], clean⟩ =>
      some { s with
        pass := none
        stable := if clean then s.stable + 1 else 0 }
    | _ => none

def directory (dir : Str) : System St Ev where
  init := ⟨.empty dir, [], [], none, 0⟩
  step := step T J

/-! ## What should be loaded -/

/-- The entry was loaded from a file as it still is. -/
def St.unchanged (s : St) (p : Entry) : Bool := s.files.any fun g => s.reg.path g.name = p.srcPath && g.mtime = p.mtime

/-- Another file, unchanged, is loaded under the name. -/
def St.held (s : St) (f : File) (name : Str) : Bool :=
  s.reg.plugins.any fun p => p.srcPath ≠ s.reg.path f.name && p.toolName = name && s.unchanged p

def St.loaded (s : St) (f : File) : Bool := s.reg.current (s.reg.path f.name) f.mtime

def St.full (s : St) : Bool := maxPlugins ≤ s.reg.plugins.length

/-- If the scan skips the file as a known failure, or finds its name taken, it does for a cause that is still there. -/
def St.excused (s : St) (f : File) : Bool :=
  match build T f.code with
  | .error _ => true
  | .ok b =>
    !isSource f.name || s.loaded f ||
      !(s.reg.knownFailure (s.reg.path f.name) f.mtime || (s.reg.taken (s.reg.path f.name) b.name).isSome) ||
      s.held f b.name || s.full

/-- The passes over an unchanged directory, from the second on, skip no file without cause. -/
def fair (s : St) : Ev → Bool
  | .visit =>
    match s.pass with
    | some ⟨name :: _, true⟩ => s.stable = 0 || s.files.all fun f => f.name ≠ name || s.excused T f
    | _ => true
  | _ => true

/-- The loaded plugins follow the directory. -/
def Follows (s : St) : Prop :=
  ∀ f ∈ s.files, isSource f.name = true → ∀ b, build T f.code = .ok b →
    (∀ p ∈ s.reg.plugins, p.srcPath ≠ s.reg.path f.name → p.toolName ≠ b.name) → s.reg.plugins.length < maxPlugins →
    ∃ p ∈ s.reg.plugins, p.srcPath = s.reg.path f.name ∧ p.code = f.code

/-- A file the pass has looked at: loaded, or shut out by what is still there. -/
def Settled (s : St) (f : File) : Prop :=
  isSource f.name = true → ∀ b, build T f.code = .ok b → s.loaded f = true ∨ s.held f b.name = true ∨ s.full = true

/-! ## One look at a file -/

theorem path_inj {r : Registry} {a b : Str} (h : r.path a = r.path b) : a = b := List.append_cancel_left h

theorem current_iff {r : Registry} {path : Str} {mtime : Int} :
    r.current path mtime = true ↔ ∃ p ∈ r.plugins, p.srcPath = path ∧ p.mtime = mtime := by
  unfold Registry.current
  simp

theorem held_iff {s : St} {f : File} {name : Str} : s.held f name = true ↔
    ∃ p ∈ s.reg.plugins, p.srcPath ≠ s.reg.path f.name ∧ p.toolName = name ∧ s.unchanged p = true := by
  unfold St.held
  simp [and_assoc]

theorem unchanged_iff {s : St} {p : Entry} : s.unchanged p = true ↔ ∃ g ∈ s.files, s.reg.path g.name = p.srcPath ∧ g.mtime = p.mtime := by
  unfold St.unchanged
  simp

theorem register_length {r r' : Registry} {path code : Str} {mtime : Int} {b : Built}
    (h : r.register J path code mtime b = .ok r') : r.plugins.length ≤ r'.plugins.length := by
  unfold Registry.register at h
  split at h
  · cases h
  · dsimp only at h
    split at h
    · cases h
      exact (List.length_map _).ge
    · split at h
      · cases h
        rw [List.length_append]
        exact Nat.le_add_right _ _
      · cases h

/-- A look at a file loads it, or leaves the plugins as they were, and then for a cause. -/
theorem scanFile_cases (r : Registry) (f : File) :
    (scanFile T J (fun _ => none) r f).dir = r.dir ∧
      ((scanFile T J (fun _ => none) r f).plugins = r.plugins ∧
        (isSource f.name = true → r.current (r.path f.name) f.mtime = true ∨ ∀ b, build T f.code = .ok b →
          r.knownFailure (r.path f.name) f.mtime = true ∨ (r.taken (r.path f.name) b.name).isSome = true ∨
            maxPlugins ≤ r.plugins.length) ∨
      r.current (r.path f.name) f.mtime = false ∧ ∃ b, build T f.code = .ok b ∧
        r.register J (r.path f.name) f.code f.mtime b = .ok (scanFile T J (fun _ => none) r f)) := by
  unfold scanFile
  by_cases hlook : (isSource f.name && !r.current (r.path f.name) f.mtime && !r.knownFailure (r.path f.name) f.mtime) = true
  · rw [if_pos hlook]
    simp only [Bool.and_eq_true, Bool.not_eq_true'] at hlook
    obtain ⟨⟨-, hcur⟩, -⟩ := hlook
    rcases pluginCompile_cases T J none r (r.path f.name) f.code f.mtime with ⟨err, heq, hwhy⟩ | ⟨b, r', -, hb, hr, heq⟩
    · rw [heq]
      refine ⟨rfl, Or.inl ⟨rfl, fun _ => Or.inr fun b hb => ?_⟩⟩
      rcases hwhy with hno | ⟨msgs, hb'⟩ | ⟨b', hb', hrefused⟩
      · exact absurd rfl hno
      · rw [hb] at hb'
        cases hb'
      · rw [hb] at hb'
        cases hb'
        refine Or.inr ?_
        exact ((register_refused J).mp hrefused).imp id And.right
    · rw [heq]
      exact ⟨(register_ok J hr).2.1, Or.inr ⟨hcur, b, hb, hr⟩⟩
  · rw [if_neg hlook]
    refine ⟨rfl, Or.inl ⟨rfl, fun hsource => ?_⟩⟩
    cases hcur : r.current (r.path f.name) f.mtime with
    | true => exact Or.inl rfl
    | false =>
      refine Or.inr fun b _ => Or.inl ?_
      simpa [hsource, hcur] using hlook

@[simp] theorem scanFile_path (r : Registry) (f : File) (name : Str) :
    (scanFile T J (fun _ => none) r f).path name = r.path name := by
  unfold Registry.path
  rw [(scanFile_cases T J r f).1]

/-! ## What every state keeps -/

/-- The files a pass has looked at, once the directory was unchanged for a pass. -/
def SettledOk (s : St) : Prop :=
  match s.pass with
  | none => 2 ≤ s.stable → ∀ f ∈ s.files, Settled T s f
  | some p => p.clean = true → 1 ≤ s.stable → ∀ f ∈ s.files, f.name ∉ p.rest → Settled T s f

structure FollowOk (s : St) : Prop where
  files : ∀ f ∈ s.files, f ∈ s.seen
  one : ∀ f ∈ s.files, ∀ g ∈ s.files, f.name = g.name → f = g
  /-- A name and an mtime are one content's. -/
  content : ∀ f ∈ s.seen, ∀ g ∈ s.seen, f.name = g.name → f.mtime = g.mtime → f.code = g.code
  entry : ∀ p ∈ s.reg.plugins, ∃ g ∈ s.seen, s.reg.path g.name = p.srcPath ∧ g.mtime = p.mtime ∧ g.code = p.code
  settled : SettledOk T s

/-- A step that leaves the plugins leaves what is loaded or shut out. -/
theorem settled_same {s : St} {reg : Registry} (hpath : ∀ name, reg.path name = s.reg.path name)
    (hsame : reg.plugins = s.reg.plugins) {f : File} {name : Str}
    (h : s.loaded f = true ∨ s.held f name = true ∨ s.full = true) (pass : Option Pass) :
    { s with reg, pass }.loaded f = true ∨ { s with reg, pass }.held f name = true ∨ { s with reg, pass }.full = true := by
  unfold St.loaded St.held St.full St.unchanged Registry.current at h ⊢
  simp only [hpath, hsame]
  exact h

/-- Another file's look leaves a settled one settled. -/
theorem visit_keeps {s : St} (hi : FollowOk T s) {f g : File} (hf : f ∈ s.files) (hg : Settled T s g) (hne : g.name ≠ f.name)
    (pass : Option Pass) : Settled T { s with reg := scanFile T J (fun _ => none) s.reg f, pass } g := by
  obtain ⟨-, hcases⟩ := scanFile_cases T J s.reg f
  have hpath := scanFile_path T J s.reg f
  intro hsource b hb
  rcases hcases with ⟨hsame, -⟩ | ⟨hcur, b', -, hr⟩
  · exact settled_same hpath hsame (hg hsource b hb) pass
  · obtain ⟨-, -, -, hmem⟩ := register_ok J hr
    -- the entries of the other files stay
    have hkeep : ∀ p ∈ s.reg.plugins, p.srcPath ≠ s.reg.path f.name → p ∈ (scanFile T J (fun _ => none) s.reg f).plugins :=
      fun p hp hp' => (hmem p).mpr (Or.inr ⟨hp, hp'⟩)
    rcases hg hsource b hb with h | h | h
    · obtain ⟨p, hp, hpp, hpm⟩ := current_iff.mp h
      have hother : p.srcPath ≠ s.reg.path f.name := by
        rw [hpp]
        exact fun heq => hne (path_inj heq)
      refine Or.inl (current_iff.mpr ⟨p, hkeep p hp hother, ?_, hpm⟩)
      rw [hpath]
      exact hpp
    · obtain ⟨p, hp, hpp, hname, hun⟩ := held_iff.mp h
      obtain ⟨k, hk, hkp, hkm⟩ := unchanged_iff.mp hun
      have hother : p.srcPath ≠ s.reg.path f.name := by
        intro heq
        have hkf : k = f := hi.one k hk f hf (path_inj (hkp.trans heq))
        have htrue := current_iff.mpr ⟨p, hp, heq, hkm.symm.trans (congrArg File.mtime hkf)⟩
        rw [hcur] at htrue
        cases htrue
      refine Or.inr (Or.inl (held_iff.mpr ⟨p, hkeep p hp hother, ?_, hname, unchanged_iff.mpr ⟨k, hk, ?_, hkm⟩⟩))
      · rw [hpath]
        exact hpp
      · rw [hpath]
        exact hkp
    · refine Or.inr (Or.inr (decide_eq_true ?_))
      exact (of_decide_eq_true h).trans (register_length J hr)

/-- The file itself is settled by its look, unless it is skipped without cause. -/
theorem visit_settles {s : St} {f : File} (hex : s.excused T f = true) (pass : Option Pass) :
    Settled T { s with reg := scanFile T J (fun _ => none) s.reg f, pass } f := by
  obtain ⟨-, hcases⟩ := scanFile_cases T J s.reg f
  have hpath := scanFile_path T J s.reg f
  intro hsource b hb
  rcases hcases with ⟨hsame, hwhy⟩ | ⟨-, b', hb', hr⟩
  · have hsettled : s.loaded f = true ∨ s.held f b.name = true ∨ s.full = true := by
      rcases hwhy hsource with hcur | hwhy
      · exact Or.inl hcur
      unfold St.excused at hex
      rw [hb] at hex
      simp only [hsource, Bool.not_true, Bool.false_or, Bool.or_eq_true, Bool.not_eq_true', Bool.or_eq_false_iff] at hex
      rcases hex with ((hloaded | ⟨hknown, htaken⟩) | hheld) | hfull
      · exact Or.inl hloaded
      · rcases hwhy b hb with h | h | h
        · rw [hknown] at h
          cases h
        · rw [htaken] at h
          cases h
        · exact Or.inr (Or.inr (decide_eq_true h))
      · exact Or.inr (Or.inl hheld)
      · exact Or.inr (Or.inr hfull)
    exact settled_same hpath hsame hsettled pass
  · refine Or.inl (current_iff.mpr ⟨_, ((register_ok J hr).2.2.2 _).mpr (Or.inl rfl), ?_, rfl⟩)
    rw [hpath]
    rfl

/-- A look at a file of a pass that finds the others settled and the file loaded or excused. -/
theorem visit_ok {s : St} (hi : FollowOk T s) {f : File} (hf : f ∈ s.files) (rest : List Str) (clean : Bool)
    (hpass : clean = true → 1 ≤ s.stable → s.excused T f = true ∧
      ∀ g ∈ s.files, g.name ∉ rest → g.name ≠ f.name → Settled T s g) :
    FollowOk T { s with reg := scanFile T J (fun _ => none) s.reg f, pass := some ⟨rest, clean⟩ } := by
  refine ⟨hi.files, hi.one, hi.content, fun p hp => ?_, fun hclean hstable g hg hno => ?_⟩
  · simp only [scanFile_path]
    rcases (scanFile_cases T J s.reg f).2 with ⟨hsame, -⟩ | ⟨-, b, -, hr⟩
    · exact hi.entry p (by rw [← hsame]; exact hp)
    · rcases ((register_ok J hr).2.2.2 p).mp hp with rfl | ⟨hp, -⟩
      · exact ⟨f, hi.files f hf, rfl, rfl, rfl⟩
      · exact hi.entry p hp
  · obtain ⟨hex, hothers⟩ := hpass hclean hstable
    by_cases hgf : g.name = f.name
    · obtain rfl := hi.one g hg f hf hgf
      exact visit_settles T J hex _
    · exact visit_keeps T J hi hf (hothers g hg hno hgf) hgf _

theorem changed_ok {s : St} (hi : FollowOk T s) {files seen : List File} (hsub : ∀ f ∈ files, f ∈ seen)
    (hone : ∀ f ∈ files, ∀ g ∈ files, f.name = g.name → f = g)
    (hcontent : ∀ f ∈ seen, ∀ g ∈ seen, f.name = g.name → f.mtime = g.mtime → f.code = g.code)
    (hseen : ∀ f ∈ s.seen, f ∈ seen) : FollowOk T { s.changed files with seen } := by
  refine ⟨hsub, hone, hcontent, fun p hp => ?_, ?_⟩
  · obtain ⟨g, hg, h⟩ := hi.entry p hp
    exact ⟨g, hseen g hg, h⟩
  · unfold SettledOk St.changed
    cases s.pass with
    | none =>
      intro h
      cases h
    | some p =>
      intro h
      cases h

/-- A file written under a name takes the place of the one that had it. -/
theorem put_ok {s : St} (hi : FollowOk T s) {f : File}
    (hnew : ∀ g ∈ s.seen, g.name = f.name → g.mtime = f.mtime → g.code = f.code) :
    FollowOk T { s.changed (f :: s.files.filter (·.name ≠ f.name)) with seen := f :: s.seen } := by
  refine changed_ok T hi (fun g hg => ?_) (fun g hg k hk hname => ?_) (fun g hg k hk hname hmtime => ?_)
    fun g hg => List.mem_cons_of_mem _ hg
  · rcases List.mem_cons.mp hg with rfl | hg
    · exact List.mem_cons_self
    · exact List.mem_cons_of_mem _ (hi.files g (List.mem_of_mem_filter hg))
  · rcases List.mem_cons.mp hg with rfl | hg
    · rcases List.mem_cons.mp hk with rfl | hk
      · rfl
      · exact absurd hname.symm (of_decide_eq_true (List.mem_filter.mp hk).2)
    · rcases List.mem_cons.mp hk with rfl | hk
      · exact absurd hname (of_decide_eq_true (List.mem_filter.mp hg).2)
      · exact hi.one g (List.mem_of_mem_filter hg) k (List.mem_of_mem_filter hk) hname
  · rcases List.mem_cons.mp hg with hgf | hgs
    · rcases List.mem_cons.mp hk with hkf | hks
      · rw [hgf, hkf]
      · rw [hgf] at hname hmtime ⊢
        exact (hnew k hks hname.symm hmtime.symm).symm
    · rcases List.mem_cons.mp hk with hkf | hks
      · rw [hkf] at hname hmtime ⊢
        exact hnew g hgs hname hmtime
      · exact hi.content g hgs k hks hname hmtime

theorem step_follow {s s' : St} {e : Ev} (hi : FollowOk T s) (hfair : fair T s e = true) (hs : step T J s e = some s') :
    FollowOk T s' := by
  cases e with
  | put f =>
    simp only [step] at hs
    split at hs
    · rename_i hnew
      cases hs
      refine put_ok T hi fun g hg hname hmtime => ?_
      have := List.all_eq_true.mp hnew g hg
      simpa [hname, hmtime] using this
    · cases hs
  | remove name =>
    cases hs
    exact changed_ok T hi (fun g hg => hi.files g (List.mem_of_mem_filter hg))
      (fun g hg k hk => hi.one g (List.mem_of_mem_filter hg) k (List.mem_of_mem_filter hk)) hi.content fun g hg => hg
  | start names =>
    simp only [step] at hs
    split at hs
    · split at hs
      · rename_i hperm
        cases hs
        refine ⟨hi.files, hi.one, hi.content, fun p hp => hi.entry p (mem_forget.mp hp).1, fun _ _ f hf hno => ?_⟩
        exact absurd ((List.isPerm_iff.mp hperm).mem_iff.mpr (List.mem_map_of_mem hf)) hno
      · cases hs
    · cases hs
  | visit =>
    simp only [step] at hs
    split at hs
    · rename_i name rest clean hpass
      have hsettled := hi.settled
      unfold SettledOk at hsettled
      rw [hpass] at hsettled
      cases hfound : s.files.find? (·.name = name) with
      | none =>
        rw [hfound] at hs
        cases hs
        refine ⟨hi.files, hi.one, hi.content, hi.entry, fun hclean hstable f hf hno => ?_⟩
        have hne : f.name ≠ name := by simpa using List.find?_eq_none.mp hfound f hf
        refine hsettled hclean hstable f hf fun hin => ?_
        rcases List.mem_cons.mp hin with heq | hin
        · exact hne heq
        · exact hno hin
      | some f =>
        have hname := List.find?_some hfound
        rw [hfound] at hs
        cases hs
        refine visit_ok T J hi (List.mem_of_find?_eq_some hfound) rest clean fun hclean hstable => ⟨?_, fun g hg hno hne => ?_⟩
        · simp only [fair, hpass, hclean, Bool.or_eq_true, decide_eq_true_eq] at hfair
          rcases hfair with hzero | hall
          · omega
          · have := List.all_eq_true.mp hall f (List.mem_of_find?_eq_some hfound)
            simpa [of_decide_eq_true hname] using this
        · refine hsettled hclean hstable g hg fun hin => ?_
          rcases List.mem_cons.mp hin with heq | hin
          · exact hne (heq.trans (of_decide_eq_true hname).symm)
          · exact hno hin
    · cases hs
  | close =>
    simp only [step] at hs
    split at hs
    · rename_i clean hpass
      cases hs
      have hsettled := hi.settled
      unfold SettledOk at hsettled
      rw [hpass] at hsettled
      refine ⟨hi.files, hi.one, hi.content, hi.entry, fun hstable f hf => ?_⟩
      cases clean with
      | false => cases hstable
      | true =>
        have hone : 1 ≤ s.stable := by
          dsimp only at hstable
          rw [if_pos rfl] at hstable
          omega
        exact hsettled rfl hone f hf List.not_mem_nil
    · cases hs

theorem init_follow (dir : Str) : FollowOk T (directory T J dir).init := by
  refine ⟨fun f hf => ?_, fun f hf => ?_, fun f hf => ?_, fun p hp => ?_, fun h => ?_⟩
  · cases hf
  · cases hf
  · cases hf
  · cases hp
  · cases h

/-- When the directory did not change for two passes, and no pass after the first skipped a file
    for a failure whose cause was gone, the loaded plugins follow it. -/
theorem follows {dir : Str} {s : St} (h : (directory T J dir).Reach (fun s e => fair T s e = true) s) (hidle : s.pass = none)
    (hstable : 2 ≤ s.stable) : Follows T s := by
  have hi : FollowOk T s := h.invariant (init_follow T J dir) fun s e s' hi hfair hs => step_follow T J hi hfair hs
  have hsettled := hi.settled
  unfold SettledOk at hsettled
  rw [hidle] at hsettled
  intro f hf hsource b hb hfree hroom
  rcases hsettled hstable f hf hsource b hb with hloaded | hheld | hfull
  · obtain ⟨p, hp, hpath, hmtime⟩ := current_iff.mp hloaded
    obtain ⟨g, hg, hgpath, hgmtime, hgcode⟩ := hi.entry p hp
    refine ⟨p, hp, hpath, ?_⟩
    rw [← hgcode]
    exact hi.content g hg f (hi.files f hf) (path_inj (hgpath.trans hpath)) (hgmtime.trans hmtime)
  · obtain ⟨p, hp, hpath, hname, -⟩ := held_iff.mp hheld
    exact absurd hname (hfree p hp hpath)
  · exact absurd (of_decide_eq_true hfull) (Nat.not_le.mpr hroom)

end

/-! ## A twin -/

def twin : Str := returning (lit "i") (lit "twin")

def twinTcc : Tcc := tableTcc [(twin, lit "twin")]

/-- One file, and two passes. -/
def alone : List Ev :=
  [.put ⟨lit "twin1.c", twin, 1⟩, .start [lit "twin1.c"], .visit, .close, .start [lit "twin1.c"], .visit, .close]

theorem follows_alone : ∃ s, (directory twinTcc CJson.compact (lit "./plugins")).Reach (fun s e => fair twinTcc s e = true) s ∧
    s.pass.isNone = true ∧ s.stable = 2 ∧ s.reg.plugins.length = 1 ∧ Follows twinTcc s := by
  have hrun : ((directory twinTcc CJson.compact (lit "./plugins")).replay (fun s e => fair twinTcc s e = true)
      (directory twinTcc CJson.compact (lit "./plugins")).init alone).map (fun s =>
        (s.pass.isNone, s.stable, s.reg.plugins.length)) = some (true, 2, 1) := by decide +kernel
  obtain ⟨s, hs, heq⟩ := Option.map_eq_some_iff.mp hrun
  simp only [Prod.mk.injEq] at heq
  obtain ⟨hidle, hstable, hcount⟩ := heq
  have hreach := System.Reach.init.replay hs
  exact ⟨s, hreach, hidle, hstable, hcount,
    follows twinTcc CJson.compact hreach (Option.isNone_iff_eq_none.mp hidle) (by omega)⟩

/-- Two files of one name; the one that was loaded is removed. -/
def twins : List Ev :=
  [.put ⟨lit "twin1.c", twin, 1⟩, .put ⟨lit "twin2.c", twin, 1⟩, .start [lit "twin1.c", lit "twin2.c"], .visit, .visit, .close,
   .remove (lit "twin1.c"), .start [lit "twin2.c"], .visit, .close, .start [lit "twin2.c"], .visit, .close]

/-- The other is never loaded: its failure is remembered, the file that caused it is gone. -/
theorem twin_forgotten : ¬ ∀ s, (directory twinTcc CJson.compact (lit "./plugins")).Reach (fun _ _ => True) s →
    s.pass = none → 2 ≤ s.stable → Follows twinTcc s := by
  intro hall
  have hrun : ((directory twinTcc CJson.compact (lit "./plugins")).replay (fun _ _ => True)
      (directory twinTcc CJson.compact (lit "./plugins")).init twins).map (fun s =>
        (s.pass.isNone, s.stable, s.reg.plugins.length, s.files)) = some (true, 2, 0, [⟨lit "twin2.c", twin, 1⟩]) := by
    decide +kernel
  obtain ⟨s, hs, heq⟩ := Option.map_eq_some_iff.mp hrun
  simp only [Prod.mk.injEq] at heq
  obtain ⟨hidle, hstable, hcount, hfiles⟩ := heq
  have hempty := List.length_eq_zero_iff.mp hcount
  have hbuilds : (match build twinTcc twin with
      | .ok _ => true
      | .error _ => false) = true := by decide +kernel
  cases hb : build twinTcc twin with
  | error msgs =>
    rw [hb] at hbuilds
    cases hbuilds
  | ok b =>
    obtain ⟨p, hp, -⟩ := hall s (System.Reach.init.replay hs) (Option.isNone_iff_eq_none.mp hidle) (by omega)
      ⟨lit "twin2.c", twin, 1⟩ (by rw [hfiles]; exact List.mem_singleton_self _) (by decide) b hb
      (by rw [hempty]; nofun) (by rw [hcount]; decide)
    rw [hempty] at hp
    cases hp

end Shclaw.Plugin.Follow
