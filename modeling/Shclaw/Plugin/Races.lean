/-
  Shclaw.Plugin.Races — a `create_plugin` call beside the scanner (`src/tools.c`:
  `execute_tool`; `src/plugin.c`: `plugin_scan`, `plugin_compile`).

  The call's steps (`compile`, `write`, `stamp`, `test`) and the scanner's (`forget`, then
  for each file `stat`, `check`, `known`, `read`, `register`) interleave in any order, each
  registry access one step under its lock. `read` takes the lock of the compiler and
  `register` gives it back, so the call's `compile`, one step too, comes before or after
  both. Alone, the steps are the call of `Create` (`create_alone`).

  Between `compile` and `write` the file is missing or old while the registry has the new
  code. A scan that starts there forgets a plugin whose file is missing (`lost_while_saved`);
  one that reads an old file there registers the old code. `fair` says these do not happen,
  nor a test while a name of 64 bytes is loaded, and `held_until_return` that the entry then
  holds the submitted code from `compile` to the return, and the test runs it.

  Ghosts: `kept` says the entry had the code in every state from `compile` on, up to the
  return; `ran` is the code the test run looked up.
-/

import Shclaw.Plugin.Create
import Shclaw.Plugin.Names

namespace Shclaw.Plugin.Race

open Lib Agent

/-- What the model asked for, and what the system answers meanwhile. -/
structure Call where
  name : Str
  code : Str
  test : Option Str
  chance : Chance

inductive Creator where
  | waiting
  | compiled (tool : Str)
  | written (tool : Str)
  | stamped (tool : Str)
  | returned (answer : Str)

inductive Scanner where
  | idle
  | listing (rest : List Str)
  | statted (rest : List Str) (path : Str) (mtime : Int)
  | wanted (rest : List Str) (path : Str) (mtime : Int)
  | allowed (rest : List Str) (path : Str) (mtime : Int)
  | reading (rest : List Str) (path : Str) (mtime : Int) (code : Str)

structure St where
  reg : Registry
  disk : Disk
  create : Creator
  scan : Scanner
  kept : Bool
  ran : Option (Option Str)

inductive Ev where
  | compile
  | write
  | stamp
  | test
  | forget (names : List Str)
  | stat
  | check
  | known
  | read
  | register (fault : Option Str)
  | done

section

variable (T : Tcc) (R : CJsonReader) (call : Call) (r₀ : Registry)

/-- The source path of the call. -/
def Call.path : Str := sourcePath r₀ call.name

def Call.source : Str := decoded R call.code

def Scanner.locked : Scanner → Bool
  | .reading .. => true
  | _ => false

/-- The tool loaded by a call that has not returned yet. -/
def St.tool (s : St) : Option Str :=
  match s.create with
  | .compiled tool | .written tool | .stamped tool => some tool
  | _ => none

def St.inWindow (s : St) : Bool := s.tool.isSome

/-- The entry of the source path is present and holds the submitted code. -/
def St.holds (s : St) : Bool := s.reg.plugins.any fun p => p.srcPath = call.path r₀ && p.code = call.source R

def createStep (s : St) : Ev → Option St
  | .compile =>
    match s.create with
    | .waiting =>
      if s.scan.locked then none
      else if toolNameValid (pluginName call.name) = false then
        some { s with create := .returned (invalidName (pluginName call.name)) }
      else
        match pluginCompile T R.toCJson call.chance.fault s.reg (call.path r₀) (call.source R) call.chance.now with
        | (reg, .error err) => some { s with
            reg
            create := .returned (compileFailed (pluginName call.name) (call.source R) err) }
        | (reg, .ok tool) => some { s with
            reg
            create := .compiled tool }
    | _ => none
  | .write =>
    match s.create with
    | .compiled tool =>
      if call.chance.saved = false then some { s with create := .returned (notSaved (call.path r₀) call.chance.errno) }
      else some { s with
        disk := s.disk.write (call.path r₀) ⟨call.source R, call.chance.wrote⟩
        create := .written tool }
    | _ => none
  | .stamp =>
    match s.create with
    | .written tool =>
      if call.chance.stamped = false then some { s with create := .returned (notSaved (call.path r₀) call.chance.errno) }
      else some { s with
        disk := s.disk.write (call.path r₀) ⟨call.source R, call.chance.now⟩
        create := .stamped tool }
    | _ => none
  | .test =>
    match s.create with
    | .stamped tool =>
      let ran := testRun R call.chance s.reg tool call.test
      some { s with
        create := .returned (if ran.1 then testFailed (pluginName call.name) ran.2 else created (pluginName call.name) tool ran.2)
        ran := if call.chance.room = true ∧ call.test.getD [] ≠ [] then some ((s.reg.lookup tool).map (·.code)) else none }
    | _ => none
  | _ => none

def scanStep (s : St) : Ev → Option St
  | .forget names =>
    match s.scan with
    | .idle => some { s with
        reg := s.reg.forget fun path => (s.disk path).isSome
        scan := .listing ((names.filter isSource).map s.reg.path) }
    | _ => none
  | .stat =>
    match s.scan with
    | .listing (path :: rest) =>
      match s.disk path with
      | some file => some { s with scan := .statted rest path file.mtime }
      | none => some { s with scan := .listing rest }
    | _ => none
  | .check =>
    match s.scan with
    | .statted rest path mtime =>
      some { s with scan := if s.reg.current path mtime then .listing rest else .wanted rest path mtime }
    | _ => none
  | .known =>
    match s.scan with
    | .wanted rest path mtime =>
      some { s with scan := if s.reg.knownFailure path mtime then .listing rest else .allowed rest path mtime }
    | _ => none
  | .read =>
    match s.scan with
    | .allowed rest path mtime =>
      match s.disk path with
      | some file => some { s with scan := .reading rest path mtime file.code }
      | none => some { s with
          reg := s.reg.recordFailure path mtime
          scan := .listing rest }
    | _ => none
  | .register fault =>
    match s.scan with
    | .reading rest path mtime code => some { s with
        reg := (pluginCompile T R.toCJson fault s.reg path code mtime).1
        scan := .listing rest }
    | _ => none
  | .done =>
    match s.scan with
    | .listing [] => some { s with scan := .idle }
    | _ => none
  | _ => none

/-- `kept` goes on only while the entry holds the code. -/
def St.note (s : St) : St := { s with kept := s.kept && (!s.inWindow || s.holds R call r₀) }

def step (s : St) (e : Ev) : Option St :=
  match createStep T R call r₀ s e with
  | some s' => some (s'.note R call r₀)
  | none => (scanStep T R s e).map (·.note R call r₀)

def race (disk₀ : Disk) : System St Ev where
  init := ⟨r₀, disk₀, .waiting, .idle, true, none⟩
  step := step T R call r₀

/-- From the call's compile to its return: no scan starts while the file is missing, none registers
    other code for it, and no name of 64 bytes is loaded at the test run, if there is one. -/
def fair (s : St) : Ev → Bool
  | .forget _ => !s.inWindow || (s.disk (call.path r₀)).isSome
  | .register fault =>
    match s.scan with
    | .reading _ path mtime code =>
      !s.inWindow || path ≠ call.path r₀ || code = call.source R ||
        match (pluginCompile T R.toCJson fault s.reg path code mtime).2 with
        | .error _ => true
        | .ok _ => false
    | _ => true
  | .test => call.chance.room = false || call.test.getD [] = [] || s.reg.plugins.all fun p => p.toolName.length < 64
  | _ => true

/-- A call that reports the plugin loaded: the entry had the code all along, and the test ran it. -/
def Honest (s : St) : Prop :=
  ∀ answer, s.create = .returned answer → isError answer = false →
    s.kept = true ∧ ∀ code, s.ran = some code → code = some (call.source R)

/-! ## What a fair run keeps -/

/-- The submitted code is loaded under its name. -/
def Live (reg : Registry) (tool : Str) : Prop :=
  ∃ b, build T (call.source R) = .ok b ∧ tool = cut 64 b.name ∧
    ∃ p ∈ reg.plugins, p.srcPath = call.path r₀ ∧ p.code = call.source R ∧ p.toolName = b.name

structure RaceOk (s : St) : Prop where
  names : NamesOk R.toCJson s.reg
  kept : s.kept = true
  live : ∀ tool ∈ s.tool, Live T R call r₀ s.reg tool
  ran : ∀ code, s.ran = some code → code = some (call.source R)

theorem note_ok {s : St} (h : RaceOk T R call r₀ s) : RaceOk T R call r₀ (s.note R call r₀) := by
  refine ⟨h.names, ?_, h.live, h.ran⟩
  show (s.kept && (!s.inWindow || s.holds R call r₀)) = true
  rw [h.kept, Bool.true_and, Bool.or_eq_true]
  unfold St.inWindow
  cases htool : s.tool with
  | none => exact Or.inl rfl
  | some tool =>
    obtain ⟨b, -, -, p, hp, hpath, hcode, -⟩ := h.live tool htool
    refine Or.inr (List.any_eq_true.mpr ⟨p, hp, ?_⟩)
    rw [hpath, hcode, decide_eq_true rfl, decide_eq_true rfl]
    rfl

/-- A registration of another file, or of the same code, or a refused one. -/
theorem live_compile {reg : Registry} {tool : Str} (h : Live T R call r₀ reg tool) (fault : Option Str) (path code : Str) (mtime : Int)
    (hcase : path ≠ call.path r₀ ∨ code = call.source R ∨ ∃ err, (pluginCompile T R.toCJson fault reg path code mtime).2 = .error err) :
    Live T R call r₀ (pluginCompile T R.toCJson fault reg path code mtime).1 tool := by
  obtain ⟨b, hb, htool, p, hp, hpath, hcode, hname⟩ := h
  rcases pluginCompile_cases T R.toCJson fault reg path code mtime with ⟨err, heq, -⟩ | ⟨b', reg', -, hb', hr, heq⟩
  · rw [heq]
    exact ⟨b, hb, htool, p, hp, hpath, hcode, hname⟩
  · rw [heq] at hcase ⊢
    obtain ⟨-, -, -, hmem⟩ := register_ok R.toCJson hr
    by_cases hsame : path = call.path r₀
    · rcases hcase with hne | hsource | ⟨err, herr⟩
      · exact absurd hsame hne
      · rw [hsource, hb] at hb'
        cases hb'
        exact ⟨b, hb, htool, _, (hmem _).mpr (Or.inl rfl), hsame, hsource, schemaName_toJson R.toCJson b⟩
      · cases herr
    · refine ⟨b, hb, htool, p, (hmem p).mpr (Or.inr ⟨hp, ?_⟩), hpath, hcode, hname⟩
      rw [hpath]
      exact fun heq => hsame heq.symm

theorem createStep_ok {s s' : St} {e : Ev} (hi : RaceOk T R call r₀ s) (hfair : fair T R call r₀ s e = true)
    (h : createStep T R call r₀ s e = some s') : RaceOk T R call r₀ s' := by
  cases e with
  | compile =>
    simp only [createStep] at h
    split at h
    · rename_i hphase
      split at h
      · cases h
      split at h
      · cases h
        exact ⟨hi.names, hi.kept, nofun, hi.ran⟩
      rcases pluginCompile_cases T R.toCJson call.chance.fault s.reg (call.path r₀) (call.source R) call.chance.now with
        ⟨err, heq, -⟩ | ⟨b, reg', -, hb, hr, heq⟩
      · rw [heq] at h
        cases h
        exact ⟨hi.names.of_plugins R.toCJson fun p hp => hp, hi.kept, nofun, hi.ran⟩
      · rw [heq] at h
        cases h
        refine ⟨register_names R.toCJson hi.names hr, hi.kept, fun tool htool => ?_, hi.ran⟩
        cases htool
        exact ⟨b, hb, rfl, _, ((register_ok R.toCJson hr).2.2.2 _).mpr (Or.inl rfl), rfl, rfl, schemaName_toJson R.toCJson b⟩
    · cases h
  | write =>
    simp only [createStep] at h
    split at h
    · rename_i tool hphase
      split at h
      · cases h
        exact ⟨hi.names, hi.kept, nofun, hi.ran⟩
      · cases h
        refine ⟨hi.names, hi.kept, fun t ht => hi.live t ?_, hi.ran⟩
        unfold St.tool
        rw [hphase]
        exact ht
    · cases h
  | stamp =>
    simp only [createStep] at h
    split at h
    · rename_i tool hphase
      split at h
      · cases h
        exact ⟨hi.names, hi.kept, nofun, hi.ran⟩
      · cases h
        refine ⟨hi.names, hi.kept, fun t ht => hi.live t ?_, hi.ran⟩
        unfold St.tool
        rw [hphase]
        exact ht
    · cases h
  | test =>
    simp only [createStep] at h
    split at h
    · rename_i tool hphase
      cases h
      refine ⟨hi.names, hi.kept, nofun, fun code hcode => ?_⟩
      have htool : s.tool = some tool := by
        unfold St.tool
        rw [hphase]
      obtain ⟨b, -, hcut, p, hp, -, hsource, hname⟩ := hi.live tool htool
      dsimp only at hcode
      split at hcode
      · rename_i hrun
        have hall : (s.reg.plugins.all fun p => p.toolName.length < 64) = true := by simpa [fair, hrun] using hfair
        have hshort : ∀ q ∈ s.reg.plugins, q.toolName.length < 64 := fun q hq =>
          of_decide_eq_true (List.all_eq_true.mp hall q hq)
        have hlook : s.reg.lookup tool = some p := by
          rw [hcut, ← hname, (cut_eq_self (by decide)).mpr (hshort p hp)]
          exact lookup_short R.toCJson hi.names hshort hp
        rw [hlook] at hcode
        cases hcode
        exact congrArg some hsource
      · cases hcode
    · cases h
  | _ => cases h

theorem scanStep_ok {s s' : St} {e : Ev} (hi : RaceOk T R call r₀ s) (hfair : fair T R call r₀ s e = true)
    (h : scanStep T R s e = some s') : RaceOk T R call r₀ s' := by
  cases e with
  | forget names =>
    simp only [scanStep] at h
    split at h
    · cases h
      refine ⟨hi.names.of_plugins R.toCJson fun p hp => (mem_forget.mp hp).1, hi.kept, fun tool htool => ?_, hi.ran⟩
      obtain ⟨b, hb, hcut, p, hp, hpath, hcode, hname⟩ := hi.live tool htool
      have hthere : (s.disk (call.path r₀)).isSome = true := by
        have hwindow : s.inWindow = true := Option.isSome_iff_exists.mpr ⟨tool, htool⟩
        simpa [fair, hwindow] using hfair
      exact ⟨b, hb, hcut, p, mem_forget.mpr ⟨hp, by rw [hpath]; exact hthere⟩, hpath, hcode, hname⟩
    · cases h
  | stat =>
    simp only [scanStep] at h
    split at h
    · split at h
      · cases h
        exact ⟨hi.names, hi.kept, hi.live, hi.ran⟩
      · cases h
        exact ⟨hi.names, hi.kept, hi.live, hi.ran⟩
    · cases h
  | check =>
    simp only [scanStep] at h
    split at h
    · cases h
      exact ⟨hi.names, hi.kept, hi.live, hi.ran⟩
    · cases h
  | known =>
    simp only [scanStep] at h
    split at h
    · cases h
      exact ⟨hi.names, hi.kept, hi.live, hi.ran⟩
    · cases h
  | read =>
    simp only [scanStep] at h
    split at h
    · split at h
      · cases h
        exact ⟨hi.names, hi.kept, hi.live, hi.ran⟩
      · cases h
        exact ⟨hi.names.of_plugins R.toCJson fun p hp => hp, hi.kept, hi.live, hi.ran⟩
    · cases h
  | register fault =>
    simp only [scanStep] at h
    split at h
    · rename_i rest path mtime code hscan
      cases h
      refine ⟨compile_names T R.toCJson hi.names _ _ _ _, hi.kept, fun tool htool => ?_, hi.ran⟩
      refine live_compile T R call r₀ (hi.live tool htool) fault path code mtime ?_
      have hwindow : s.inWindow = true := Option.isSome_iff_exists.mpr ⟨tool, htool⟩
      simp only [fair, hscan, hwindow, Bool.not_true, Bool.false_or, Bool.or_eq_true, decide_eq_true_eq] at hfair
      rcases hfair with (hne | hsame) | hrefused
      · exact Or.inl hne
      · exact Or.inr (Or.inl hsame)
      · refine Or.inr (Or.inr ?_)
        cases hout : (pluginCompile T R.toCJson fault s.reg path code mtime).2 with
        | error err => exact ⟨err, rfl⟩
        | ok tool =>
          rw [hout] at hrefused
          cases hrefused
    · cases h
  | done =>
    simp only [scanStep] at h
    split at h
    · cases h
      exact ⟨hi.names, hi.kept, hi.live, hi.ran⟩
    · cases h
  | _ => cases h

theorem step_race {s s' : St} {e : Ev} (hi : RaceOk T R call r₀ s) (hfair : fair T R call r₀ s e = true)
    (h : step T R call r₀ s e = some s') : RaceOk T R call r₀ s' := by
  unfold step at h
  split at h
  · rename_i s₁ hcreate
    cases h
    exact note_ok T R call r₀ (createStep_ok T R call r₀ hi hfair hcreate)
  · obtain ⟨s₁, hscan, rfl⟩ := Option.map_eq_some_iff.mp h
    exact note_ok T R call r₀ (scanStep_ok T R call r₀ hi hfair hscan)

/-- Of a fair run, from any registry that compiles and scans made: while the call has not returned
    the entry holds its code, and the test run looks that code up. -/
theorem held_until_return {dir : Str} {r₀ : Registry} (h₀ : (registryOps T R.toCJson dir).Reach (fun _ _ => True) r₀)
    (disk₀ : Disk) {s : St} (h : (race T R call r₀ disk₀).Reach (fun s e => fair T R call r₀ s e = true) s) :
    (s.inWindow = true → s.holds R call r₀ = true) ∧ Honest R call s := by
  have hi : RaceOk T R call r₀ s := h.invariant ⟨reach_names T R.toCJson h₀, rfl, nofun, nofun⟩
    fun s e s' hi hfair hs => step_race T R call r₀ hi hfair hs
  refine ⟨fun hwindow => ?_, fun _ _ _ => ⟨hi.kept, hi.ran⟩⟩
  have hnote := (note_ok T R call r₀ hi).kept
  simpa [St.note, hi.kept, hwindow] using hnote

/-! ## The call alone -/

/-- A step of the call. -/
def Ev.ofCall : Ev → Bool
  | .compile | .write | .stamp | .test => true
  | _ => false

theorem reach_create {disk₀ : Disk} {s s' : St} {e : Ev}
    (h : (race T R call r₀ disk₀).Reach (fun _ e => e.ofCall = true) s) (he : e.ofCall = true)
    (hs : createStep T R call r₀ s e = some s') :
    ∃ kept, (race T R call r₀ disk₀).Reach (fun _ e => e.ofCall = true) { s' with kept } := by
  refine ⟨(s'.note R call r₀).kept, ?_⟩
  apply h.step e he
  show step T R call r₀ s e = some (s'.note R call r₀)
  unfold step
  rw [hs]

/-- Without the scanner the steps are `createPlugin`. -/
theorem create_alone (disk₀ : Disk) : ∃ s answer, (race T R call r₀ disk₀).Reach (fun _ e => e.ofCall = true) s ∧
    s.create = .returned answer ∧ createPlugin T R call.chance r₀ disk₀ call.name call.code call.test = (s.reg, s.disk, answer) := by
  have hinit : (race T R call r₀ disk₀).Reach (fun _ e => e.ofCall = true) ⟨r₀, disk₀, .waiting, .idle, true, none⟩ := .init
  unfold createPlugin
  by_cases hvalid : toolNameValid (pluginName call.name) = false
  · have hstep : createStep T R call r₀ ⟨r₀, disk₀, .waiting, .idle, true, none⟩ .compile =
        some ⟨r₀, disk₀, .returned (invalidName (pluginName call.name)), .idle, true, none⟩ := if_pos hvalid
    obtain ⟨kept, hreach⟩ := reach_create T R call r₀ hinit rfl hstep
    rw [if_pos hvalid]
    exact ⟨_, _, hreach, rfl, rfl⟩
  rw [if_neg hvalid]
  dsimp only
  rcases hcompile : pluginCompile T R.toCJson call.chance.fault r₀ (sourcePath r₀ call.name) (decoded R call.code) call.chance.now
    with ⟨reg, err | tool⟩
  · have hstep : createStep T R call r₀ ⟨r₀, disk₀, .waiting, .idle, true, none⟩ .compile =
        some ⟨reg, disk₀, .returned (compileFailed (pluginName call.name) (decoded R call.code) err), .idle, true, none⟩ := by
      simp only [createStep, Scanner.locked, if_neg hvalid, Call.path, Call.source, hcompile]
      rfl
    obtain ⟨kept, hreach⟩ := reach_create T R call r₀ hinit rfl hstep
    exact ⟨_, _, hreach, rfl, rfl⟩
  have hcompiled : createStep T R call r₀ ⟨r₀, disk₀, .waiting, .idle, true, none⟩ .compile =
      some ⟨reg, disk₀, .compiled tool, .idle, true, none⟩ := by
    simp only [createStep, Scanner.locked, if_neg hvalid, Call.path, Call.source, hcompile]
    rfl
  obtain ⟨k₁, hreach₁⟩ := reach_create T R call r₀ hinit rfl hcompiled
  dsimp only at hreach₁ ⊢
  by_cases hsaved : call.chance.saved = false
  · have hstep : createStep T R call r₀ ⟨reg, disk₀, .compiled tool, .idle, k₁, none⟩ .write =
        some ⟨reg, disk₀, .returned (notSaved (sourcePath r₀ call.name) call.chance.errno), .idle, k₁, none⟩ := if_pos hsaved
    obtain ⟨kept, hreach⟩ := reach_create T R call r₀ hreach₁ rfl hstep
    rw [if_pos hsaved]
    exact ⟨_, _, hreach, rfl, rfl⟩
  have hwritten : createStep T R call r₀ ⟨reg, disk₀, .compiled tool, .idle, k₁, none⟩ .write =
      some ⟨reg, disk₀.write (sourcePath r₀ call.name) ⟨decoded R call.code, call.chance.wrote⟩, .written tool, .idle, k₁, none⟩ :=
    if_neg hsaved
  obtain ⟨k₂, hreach₂⟩ := reach_create T R call r₀ hreach₁ rfl hwritten
  rw [if_neg hsaved]
  by_cases hstamped : call.chance.stamped = false
  · have hstep : createStep T R call r₀
        ⟨reg, disk₀.write (sourcePath r₀ call.name) ⟨decoded R call.code, call.chance.wrote⟩, .written tool, .idle, k₂, none⟩ .stamp =
        some ⟨reg, disk₀.write (sourcePath r₀ call.name) ⟨decoded R call.code, call.chance.wrote⟩,
          .returned (notSaved (sourcePath r₀ call.name) call.chance.errno), .idle, k₂, none⟩ := if_pos hstamped
    obtain ⟨kept, hreach⟩ := reach_create T R call r₀ hreach₂ rfl hstep
    rw [if_pos hstamped]
    exact ⟨_, _, hreach, rfl, rfl⟩
  have hstamp : createStep T R call r₀
      ⟨reg, disk₀.write (sourcePath r₀ call.name) ⟨decoded R call.code, call.chance.wrote⟩, .written tool, .idle, k₂, none⟩ .stamp =
      some ⟨reg, (disk₀.write (sourcePath r₀ call.name) ⟨decoded R call.code, call.chance.wrote⟩).write (sourcePath r₀ call.name)
        ⟨decoded R call.code, call.chance.now⟩, .stamped tool, .idle, k₂, none⟩ := if_neg hstamped
  obtain ⟨k₃, hreach₃⟩ := reach_create T R call r₀ hreach₂ rfl hstamp
  obtain ⟨kept, hreach⟩ := reach_create T R call r₀ hreach₃ (e := .test) rfl rfl
  rw [if_neg hstamped]
  refine ⟨_, _, hreach, rfl, ?_⟩
  rw [Disk.write_write]

end

/-! ## A scan while the file is saved -/

/-- A new plugin, with a test or without. -/
def echoCall (test : Option Str) : Call := ⟨lit "echo", echoSource, test, smooth⟩

def noPlugins : Registry := .empty (lit "./plugins")

/-- The scan starts once the file is written. -/
def scanAfter : List Ev := [.compile, .write, .forget [lit "echo.c"], .stat, .check, .stamp, .test]

theorem held_until_return_echo : ∃ s answer,
    (race twoSources CJsonReader.compact (echoCall (some (lit "\x7b\x7d"))) noPlugins fun _ => none).Reach
      (fun s e => fair twoSources CJsonReader.compact (echoCall (some (lit "\x7b\x7d"))) noPlugins s e = true) s ∧
    s.create = .returned answer ∧ isError answer = false ∧ s.kept = true ∧ s.ran = some (some echoSource) := by
  have hrun : ((race twoSources CJsonReader.compact (echoCall (some (lit "\x7b\x7d"))) noPlugins fun _ => none).replay
      (fun s e => fair twoSources CJsonReader.compact (echoCall (some (lit "\x7b\x7d"))) noPlugins s e = true)
      ⟨noPlugins, fun _ => none, .waiting, .idle, true, none⟩ scanAfter).map (fun s =>
        (match s.create with
          | .returned answer => some (isError answer)
          | _ => none, s.ran)) = some (some false, some (some echoSource)) := by decide +kernel
  obtain ⟨s, hs, heq⟩ := Option.map_eq_some_iff.mp hrun
  obtain ⟨hanswer, hran⟩ := Prod.mk.inj heq
  have hreach := System.Reach.init.replay hs
  cases hcreate : s.create with
  | returned answer =>
    rw [hcreate] at hanswer
    have hok : isError answer = false := Option.some.inj hanswer
    have hhonest := (held_until_return twoSources CJsonReader.compact (echoCall (some (lit "\x7b\x7d")))
      (show (registryOps twoSources CJsonReader.compact.toCJson (lit "./plugins")).Reach (fun _ _ => True) noPlugins from .init)
      (fun _ => none) hreach).2 answer hcreate hok
    exact ⟨s, answer, hreach, hcreate, hok, hhonest.1, hran⟩
  | _ =>
    rw [hcreate] at hanswer
    cases hanswer

/-- The scan starts before the file is there: it forgets the plugin, and the call reports it loaded. -/
def scanBefore : List Ev := [.compile, .forget [], .done, .write, .stamp, .test]

theorem lost_while_saved : ¬ ∀ s, (race twoSources CJsonReader.compact (echoCall none) noPlugins fun _ => none).Reach
    (fun _ _ => True) s → Honest CJsonReader.compact (echoCall none) s := by
  intro hall
  have hrun : ((race twoSources CJsonReader.compact (echoCall none) noPlugins fun _ => none).replay (fun _ _ => True)
      ⟨noPlugins, fun _ => none, .waiting, .idle, true, none⟩ scanBefore).map (fun s =>
        (match s.create with
          | .returned answer => some (isError answer)
          | _ => none, s.kept, s.reg.plugins.length)) = some (some false, false, 0) := by decide +kernel
  obtain ⟨s, hs, heq⟩ := Option.map_eq_some_iff.mp hrun
  simp only [Prod.mk.injEq] at heq
  obtain ⟨hanswer, hkept, -⟩ := heq
  cases hcreate : s.create with
  | returned answer =>
    rw [hcreate] at hanswer
    have hhonest := hall s (System.Reach.init.replay hs) answer hcreate (Option.some.inj hanswer)
    rw [hkept] at hhonest
    cases hhonest.1
  | _ =>
    rw [hcreate] at hanswer
    cases hanswer

end Shclaw.Plugin.Race
