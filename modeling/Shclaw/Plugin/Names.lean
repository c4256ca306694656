/-
  Shclaw.Plugin.Names — the tool names of the loaded plugins (`src/plugin.c`:
  `plugin_compile`, `plugin_get_schemas`, `plugin_execute`; `src/provider.c`:
  `add_tool_call`; `src/agent.c`: `tool_offered`).

  Any sequence of compiles and scans. Every name loaded is valid and no built-in tool's
  (`Built`), and of two names shorter than 64 bytes the clash check lets only one in
  (`NamesOk`). A name of 64 bytes passes both checks, but `plugin_entry_t.name` and
  `tool_call_t.name` hold 63: two files may share it, and no call reaches it.

  `names_usable`: the names are distinct and each call reaches its plugin exactly when
  every loaded name is shorter than 64 bytes.
-/

import Shclaw.Lib.Runs
import Shclaw.Plugin.Registry

namespace Shclaw.Plugin

open Lib Agent

inductive Op where
  | compile (path code : Str) (mtime : Int) (fault : Option Str)
  | scan (there : Str → Bool) (files : List File) (fault : Str → Option Str)

variable (T : Tcc) (J : CJson)

def registryOps (dir : Str) : System Registry Op where
  init := .empty dir
  step r
    | .compile path code mtime fault => some (pluginCompile T J fault r path code mtime).1
    | .scan there files fault => some (pluginScan T J there files fault r)

/-- A model's call that uses exactly the plugin's tool name reaches it: `add_tool_call`, `tool_offered`,
    `tool_find`, then the lookup. -/
def Reaches (r : Registry) (p : Entry) : Prop :=
  ∀ (isBuilder : Bool) (id args : Str),
    let call := Provider.toolCall id p.toolName args
    toolOffered (toolsToJson isBuilder ++ pluginGetSchemas r) call.name = true ∧ toolFind call.name = none ∧
      r.lookup call.name = some p

/-- The tools told to the models have names of their own and can be called. -/
def NamesUsable (r : Registry) : Prop :=
  ((pluginGetSchemas r).map schemaName).Nodup ∧ (∀ s ∈ pluginGetSchemas r, toolFind (schemaName s) = none) ∧
    ∀ p ∈ r.plugins, Reaches r p

/-! ## What every registry keeps -/

structure NamesOk (r : Registry) : Prop where
  entry : ∀ p ∈ r.plugins, ∃ b : Built, p.schema = b.toJson J ∧ p.name = cut 64 b.name
  distinct : ∀ p ∈ r.plugins, ∀ q ∈ r.plugins, p.srcPath ≠ q.srcPath → p.toolName.length < 64 → q.toolName.length < 64 →
    p.toolName ≠ q.toolName

@[simp] theorem schemaName_toJson (b : Built) : schemaName (b.toJson J) = b.name := rfl

/-- What an entry holds of its tool name. -/
theorem NamesOk.name {r : Registry} (h : NamesOk J r) {p : Entry} (hp : p ∈ r.plugins) :
    p.name = cut 64 p.toolName ∧ toolFind p.toolName = none ∧ p.toolName.length ≤ 64 := by
  obtain ⟨b, hschema, hname⟩ := h.entry p hp
  have heq : p.toolName = b.name := by
    show schemaName p.schema = b.name
    rw [hschema, schemaName_toJson]
  rw [heq]
  refine ⟨hname, b.fresh, ?_⟩
  have := b.valid
  simp only [toolNameValid, Bool.and_eq_true, decide_eq_true_eq] at this
  exact this.2

theorem NamesOk.of_plugins {r r' : Registry} (h : NamesOk J r) (hsub : ∀ p ∈ r'.plugins, p ∈ r.plugins) : NamesOk J r' :=
  ⟨fun p hp => h.entry p (hsub p hp), fun p hp q hq => h.distinct p (hsub p hp) q (hsub q hq)⟩

theorem register_names {r r' : Registry} (h : NamesOk J r) {path code : Str} {mtime : Int} {b : Built}
    (hr : r.register J path code mtime b = .ok r') : NamesOk J r' := by
  obtain ⟨htaken, -, -, hmem⟩ := register_ok J hr
  -- a short name was no other entry's
  have hnew : ∀ q ∈ r.plugins, q.srcPath ≠ path → q.toolName.length < 64 → q.toolName ≠ b.name := by
    intro q hq hne hshort heq
    refine taken_eq_none.mp htaken q hq hne ?_
    rw [(h.name J hq).1, heq]
    apply (cut_eq_self (by decide)).mpr
    rwa [← heq]
  refine ⟨fun p hp => ?_, fun p hp q hq hne hps hqs => ?_⟩
  · rcases (hmem p).mp hp with rfl | ⟨hp, -⟩
    · exact ⟨b, rfl, rfl⟩
    · exact h.entry p hp
  · rcases (hmem p).mp hp with rfl | ⟨hp, hp'⟩
    · rcases (hmem q).mp hq with rfl | ⟨hq, hq'⟩
      · exact absurd rfl hne
      · exact (hnew q hq hq' hqs).symm
    · rcases (hmem q).mp hq with rfl | ⟨hq, hq'⟩
      · exact hnew p hp hp' hps
      · exact h.distinct p hp q hq hne hps hqs

theorem compile_names {r : Registry} (h : NamesOk J r) (fault : Option Str) (path code : Str) (mtime : Int) :
    NamesOk J (pluginCompile T J fault r path code mtime).1 := by
  rcases pluginCompile_cases T J fault r path code mtime with ⟨err, heq, -⟩ | ⟨b, r', -, -, hr, heq⟩
  · rw [heq]
    exact h.of_plugins J fun p hp => hp
  · rw [heq]
    exact register_names J h hr

theorem scan_names {r : Registry} (h : NamesOk J r) (there : Str → Bool) (files : List File) (fault : Str → Option Str) :
    NamesOk J (pluginScan T J there files fault r) := by
  have hforget : NamesOk J (r.forget there) := h.of_plugins J fun p hp => (mem_forget.mp hp).1
  unfold pluginScan
  generalize r.forget there = r at hforget ⊢
  induction files generalizing r with
  | nil => exact hforget
  | cons f files ih =>
    refine ih _ ?_
    unfold scanFile
    split
    · exact compile_names T J hforget _ _ _ _
    · exact hforget

theorem reach_names {dir : Str} {r : Registry} (h : (registryOps T J dir).Reach (fun _ _ => True) r) : NamesOk J r := by
  refine h.invariant (I := NamesOk J) ⟨fun p hp => (by cases hp), fun p hp => (by cases hp)⟩ fun r op r' hi _ hs => ?_
  cases op with
  | compile path code mtime fault =>
    cases hs
    exact compile_names T J hi fault path code mtime
  | scan there files fault =>
    cases hs
    exact scan_names T J hi there files fault

/-! ## Who is reached -/

variable {J} in
theorem mem_schemas {r : Registry} {s : Json} : s ∈ pluginGetSchemas r ↔ ∃ p ∈ r.plugins, p.schema = s := by
  rw [(getSchemas_perm r).mem_iff, List.mem_map]

/-- A built-in tool is offered under its own name. -/
theorem builtin_offered {isBuilder : Bool} {name : Str} (h : toolOffered (toolsToJson isBuilder) name = true) :
    toolFind name ≠ none := by
  obtain ⟨j, hj, hname⟩ := List.any_eq_true.mp h
  obtain ⟨t, ht, rfl⟩ := List.mem_map.mp hj
  have heq : (tools t).name = name := Option.some.inj (of_decide_eq_true hname)
  intro hnone
  have := List.find?_eq_none.mp hnone t (List.mem_filter.mp ht).1
  simp [heq] at this

theorem offered_iff {r : Registry} (h : NamesOk J r) {isBuilder : Bool} {name : Str} (hno : toolFind name = none) :
    toolOffered (toolsToJson isBuilder ++ pluginGetSchemas r) name = true ↔ ∃ p ∈ r.plugins, p.toolName = name := by
  have hschema : ∀ p ∈ r.plugins, p.schema.jStr (lit "name") = some p.toolName := by
    intro p hp
    obtain ⟨b, hb, -⟩ := h.entry p hp
    unfold Entry.toolName
    rw [hb]
    rfl
  constructor
  · intro hoff
    obtain ⟨s, hs, hname⟩ := List.any_eq_true.mp hoff
    rcases List.mem_append.mp hs with hs | hs
    · exact absurd hno (builtin_offered (List.any_eq_true.mpr ⟨s, hs, hname⟩))
    · obtain ⟨p, hp, rfl⟩ := mem_schemas.mp hs
      refine ⟨p, hp, ?_⟩
      have := of_decide_eq_true hname
      rw [hschema p hp] at this
      exact Option.some.inj this
  · rintro ⟨p, hp, rfl⟩
    refine List.any_eq_true.mpr ⟨p.schema, List.mem_append_right _ (mem_schemas.mpr ⟨p, hp, rfl⟩), ?_⟩
    exact decide_eq_true (hschema p hp)

/-- Among short names the lookup finds the plugin of the name. -/
theorem lookup_short {r : Registry} (h : NamesOk J r) (hshort : ∀ p ∈ r.plugins, p.toolName.length < 64) {p : Entry}
    (hp : p ∈ r.plugins) : r.lookup p.toolName = some p := by
  have hself : ∀ q ∈ r.plugins, q.name = q.toolName := fun q hq =>
    (h.name J hq).1.trans ((cut_eq_self (by decide)).mpr (hshort q hq))
  have hnames : ∀ q ∈ r.plugins, q.name = p.toolName → q = p := by
    intro q hq hname
    rw [hself q hq] at hname
    by_contra hne
    exact h.distinct q hq p hp (fun heq => hne (Registry.unique hq hp heq)) (hshort q hq) (hshort p hp) hname
  unfold Registry.lookup
  cases hfound : r.plugins.find? fun q => q.name = p.toolName with
  | none => exact absurd (decide_eq_true (hself p hp)) (List.find?_eq_none.mp hfound p hp)
  | some q =>
    have hname := List.find?_some hfound
    rw [hnames q (List.mem_of_find?_eq_some hfound) (of_decide_eq_true hname)]

/-- After any compiles and scans: the tool names are distinct, no built-in tool's, and a call by
    its name reaches each plugin, exactly when every loaded name is shorter than 64 bytes. -/
theorem names_usable {dir : Str} {r : Registry} (h : (registryOps T J dir).Reach (fun _ _ => True) r) :
    NamesUsable r ↔ ∀ p ∈ r.plugins, p.toolName.length < 64 := by
  have hok := reach_names T J h
  constructor
  · rintro ⟨-, -, hreach⟩ p hp
    by_contra hlong
    -- the call's 63 bytes are another plugin's name, and that one is not reached
    obtain ⟨hoff, hfind, hlook⟩ := hreach p hp false [] []
    have hcut : (cut 64 p.toolName).length < 64 := Nat.lt_of_le_of_lt (length_cut_le _ _) (by decide)
    obtain ⟨q, hq, hname⟩ := (offered_iff J hok hfind).mp hoff
    obtain ⟨-, -, hlook'⟩ := hreach q hq false [] []
    have hsame : cut 64 q.toolName = cut 64 p.toolName := by
      rw [hname]
      exact cut_cut _ _
    have heq : q = p := by
      have : r.lookup (cut 64 q.toolName) = some p := by
        rw [hsame]
        exact hlook
      exact Option.some.inj (hlook'.symm.trans this)
    rw [heq] at hname
    rw [hname] at hlong
    exact hlong hcut
  · intro hshort
    have hself : ∀ p ∈ r.plugins, cut 64 p.toolName = p.toolName := fun p hp => (cut_eq_self (by decide)).mpr (hshort p hp)
    have hpair : r.plugins.Pairwise fun p q => p.toolName ≠ q.toolName :=
      r.distinct.imp_of_mem fun hp hq hne => hok.distinct _ hp _ hq hne (hshort _ hp) (hshort _ hq)
    refine ⟨?_, fun s hs => ?_, fun p hp isBuilder id args => ?_⟩
    · rw [((getSchemas_perm r).map schemaName).nodup_iff, List.map_map]
      exact List.pairwise_map.mpr hpair
    · obtain ⟨p, hp, rfl⟩ := mem_schemas.mp hs
      exact (hok.name J hp).2.1
    · have hcall : (Provider.toolCall id p.toolName args).name = p.toolName := hself p hp
      dsimp only
      rw [hcall]
      refine ⟨(offered_iff J hok (hok.name J hp).2.1).mpr ⟨p, hp, rfl⟩, (hok.name J hp).2.1, ?_⟩
      exact lookup_short J hok hshort hp

/-! ## A plugin no one can call -/

def longName : Str := List.replicate 64 (ch 'a')

/-- A plugin of the name that answers its input. -/
def echoing (name : Str) : Str := returning (lit "i") name

def longTcc : Tcc := tableTcc [(echoing longName, longName), (echoing (lit "echo"), lit "echo")]

theorem names_usable_short : ∃ r, (registryOps longTcc CJson.compact (lit "./plugins")).Reach (fun _ _ => True) r ∧
    r.plugins.length = 1 ∧ NamesUsable r := by
  have hrun : ((registryOps longTcc CJson.compact (lit "./plugins")).replay (fun _ _ => True)
      (.empty (lit "./plugins")) [.compile (lit "./plugins/echo.c") (echoing (lit "echo")) 1 none]).map (fun r =>
        r.plugins.map (·.toolName)) = some [lit "echo"] := by decide +kernel
  obtain ⟨r, hr, hnames⟩ := Option.map_eq_some_iff.mp hrun
  have hreach := System.Reach.init.replay hr
  refine ⟨r, hreach, by simpa using congrArg List.length hnames, ?_⟩
  refine (names_usable longTcc CJson.compact hreach).mpr fun p hp => ?_
  have hmem : p.toolName ∈ [lit "echo"] := hnames ▸ List.mem_map_of_mem hp
  rw [List.mem_singleton.mp hmem]
  decide

/-- Its name has 64 bytes; the model's call holds 63, a name that is not offered. -/
theorem long_name_uncallable : ¬ ∀ r, (registryOps longTcc CJson.compact (lit "./plugins")).Reach (fun _ _ => True) r →
    NamesUsable r := by
  intro hall
  have hrun : ((registryOps longTcc CJson.compact (lit "./plugins")).replay (fun _ _ => True)
      (.empty (lit "./plugins")) [.compile (lit "./plugins/long.c") (echoing longName) 1 none]).map (fun r =>
        (r.plugins.map (·.toolName), toolOffered (toolsToJson false ++ pluginGetSchemas r) (cut 64 longName))) =
      some ([longName], false) := by decide +kernel
  obtain ⟨r, hr, heq⟩ := Option.map_eq_some_iff.mp hrun
  obtain ⟨hnames, hoff⟩ := Prod.mk.inj heq
  obtain ⟨p, rest, hp, hname, -⟩ := List.map_eq_cons_iff.mp hnames
  have hreach := (hall r (System.Reach.init.replay hr)).2.2 p (by rw [hp]; exact List.mem_cons_self) false [] []
  have : (Provider.toolCall [] p.toolName []).name = cut 64 longName := by rw [hname]; rfl
  dsimp only at hreach
  rw [this, hoff] at hreach
  cases hreach.1

end Shclaw.Plugin
