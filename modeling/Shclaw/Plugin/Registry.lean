/-
  Shclaw.Plugin.Registry — the loaded plugins (`src/plugin.c`: `build`, `plugin_compile`,
  `plugin_scan`, `plugin_get_schemas`, the lookup of `plugin_execute`).

  TinyCC is a parameter (`Tcc`): what it says of a source, and the symbols of a program
  that compiles and links. A compile can also fail for a fault of the moment (no pipe, no
  child, a timeout). An entry's `code` is the source its functions were built from.

  `Registry` carries what every operation keeps: one entry a source path, at most
  thirty-two. `register` and `forget` say by their members what they leave.

  An entry holds the tool name twice: whole in its schema, cut to 63 bytes in `name`,
  which the name clash and the lookup compare.
-/

import Mathlib.Data.List.Pairwise
import Mathlib.Data.List.Sort
import Shclaw.Agent.Session

namespace Shclaw.Plugin

open Lib Agent

/-! ## Building a source -/

/-- `TC_MAX_PLUGINS`. -/
def maxPlugins : Nat := 32

/-- What `tcc_get_symbol` finds; `TC_PLUGIN_NAME` may point nowhere. -/
structure Symbols where
  name : Option (Option Str)
  exec : Bool
  desc : Option Str
  schema : Option Str

/-- `tcc_compile_string` or `tcc_add_file`, then `tcc_relocate`: the diagnostics, and the symbols of a
    program that compiles and links. -/
abbrev Tcc := Str → List Str × Option Symbols

/-- What `build` returns for a source it accepts. -/
structure Built where
  name : Str
  desc : Option Str
  schema : Option Str
  valid : toolNameValid name = true
  fresh : toolFind name = none

def badName : Str := lit "TC_PLUGIN_NAME must match [A-Za-z0-9_-]\x7b1,64\x7d"

def build (T : Tcc) (code : Str) : Except (List Str) Built :=
  match T code with
  | (msgs, none) => .error msgs
  | (msgs, some s) =>
    if s.name = none ∨ s.exec = false then .error (msgs ++ [lit "missing TC_PLUGIN_NAME or tc_execute"])
    else
      match s.name.join with
      | none => .error (msgs ++ [badName])
      | some name =>
        if hv : toolNameValid name = true then
          if hf : toolFind name = none then
            if 1024 < (s.desc.getD []).length ∨ 16384 < (s.schema.getD []).length then
              .error (msgs ++ [lit "TC_PLUGIN_DESC or TC_PLUGIN_SCHEMA is too long"])
            else .ok ⟨name, s.desc, s.schema, hv, hf⟩
          else .error (msgs ++ [lit "TC_PLUGIN_NAME is already a built-in tool name"])
        else .error (msgs ++ [badName])

/-- What `compile_check` leaves in `err` when the child's build fails. -/
def diagnostics (msgs : List Str) : Str :=
  let text := cut bufLg (msgs.flatMap fun m => m ++ lit "\n")
  let text := (text.reverse.dropWhile (· = ch '\n')).reverse
  if text = [] then lit "compilation failed" else text

/-! ## Entries -/

/-- `plugin_entry_t`. -/
structure Entry where
  name : Str
  schema : Json
  code : Str
  mtime : Int
  srcPath : Str

section

variable (T : Tcc) (J : CJson)

/-- The parameters the model is told: an object schema with properties. -/
def inputSchema (schema : Option Str) : Json :=
  let input := match (schema.filter (· ≠ [])).bind J.parse with
    | some (.obj kvs) => .obj kvs
    | _ => .obj []
  let input := if input.getObjectItem (lit "type") = none then input.addItem (lit "type") (.str (lit "object")) else input
  if input.getObjectItem (lit "properties") = none then input.addItem (lit "properties") (.obj []) else input

def Built.toJson (b : Built) : Json :=
  .obj [(lit "name", .str b.name), (lit "description", .str ((b.desc.filter (· ≠ [])).getD (lit "Plugin tool"))),
    (lit "input_schema", inputSchema J b.schema)]

def Built.entry (b : Built) (path code : Str) (mtime : Int) : Entry := ⟨cut 64 b.name, b.toJson J, code, mtime, path⟩

/-- The name in the schema. -/
def Entry.toolName (p : Entry) : Str := (p.schema.jStr (lit "name")).getD []

/-! ## The registry -/

/-- `plugin_registry_t`. -/
structure Registry where
  dir : Str
  plugins : List Entry
  /-- `failed_src` and `failed_mtime`. -/
  failed : List (Str × Int)
  distinct : plugins.Pairwise fun p q => p.srcPath ≠ q.srcPath
  few : plugins.length ≤ maxPlugins

namespace Registry

/-- `plugin_init`, before its scan. -/
def empty (dir : Str) : Registry := ⟨dir, [], [], .nil, Nat.zero_le _⟩

/-- `is_known_failure`. -/
def knownFailure (r : Registry) (path : Str) (mtime : Int) : Bool := r.failed.contains (path, mtime)

/-- `record_failure`: the list starts anew when it is full. -/
def recordFailure (r : Registry) (path : Str) (mtime : Int) : Registry :=
  { r with failed := (if maxPlugins ≤ r.failed.length then [] else r.failed) ++ [(path, mtime)] }

/-- An entry of another file with the name: `clash`. -/
def taken (r : Registry) (path name : Str) : Option Entry :=
  (r.plugins.filter fun p => p.srcPath ≠ path && p.name = name).getLast?

/-- The file has an entry: `slot`. -/
def has (r : Registry) (path : Str) : Bool := r.plugins.any fun p => p.srcPath = path

/-- What `plugin_compile` does under the lock with a source that built. -/
def register (r : Registry) (path code : Str) (mtime : Int) (b : Built) : Except Str Registry :=
  match r.taken path b.name with
  | some p => .error (lit "plugin name '" ++ b.name ++ lit "' is already used by " ++ p.srcPath)
  | none =>
    let p := b.entry J path code mtime
    if r.has path = true then
      .ok { r with
        plugins := r.plugins.map fun q => if q.srcPath = path then p else q
        distinct := by
          rw [List.pairwise_map]
          refine r.distinct.imp fun {a b} hab => ?_
          split <;> split
          · rename_i ha hb
            exact absurd (ha.trans hb.symm) hab
          · rename_i ha hb
            exact fun heq => hb heq.symm
          · rename_i ha hb
            exact ha
          · exact hab
        few := by
          rw [List.length_map]
          exact r.few }
    else if hroom : ¬ r.has path = true ∧ r.plugins.length < maxPlugins then
      .ok { r with
        plugins := r.plugins ++ [p]
        distinct := by
          refine List.pairwise_append.mpr ⟨r.distinct, List.pairwise_singleton _ _, fun a ha b hb heq => hroom.1 ?_⟩
          rw [List.mem_singleton.mp hb] at heq
          exact List.any_eq_true.mpr ⟨a, ha, decide_eq_true heq⟩
        few := by
          have := hroom.2
          rw [List.length_append, List.length_singleton]
          omega }
    else .error (lit "too many plugins (max " ++ decimal maxPlugins ++ lit ")")

end Registry

/-- `plugin_compile`: the registry after it, and its diagnostics or the name it loaded. -/
def pluginCompile (fault : Option Str) (r : Registry) (path code : Str) (mtime : Int) : Registry × Except Str Str :=
  match fault with
  | some err => (r.recordFailure path mtime, .error err)
  | none =>
    match build T code with
    | .error msgs => (r.recordFailure path mtime, .error (diagnostics msgs))
    | .ok b =>
      match r.register J path code mtime b with
      | .error err => (r.recordFailure path mtime, .error err)
      | .ok r' => (r', .ok (cut 64 b.name))

/-! ## Scanning the directory -/

/-- The entries left of a list when those `gone` are unloaded: the last takes the place of one that goes. -/
def unload (gone : Entry → Bool) : Nat → List Entry → List Entry
  | 0, _ => []
  | _ + 1, [] => []
  | n + 1, p :: ps => if gone p then unload gone n (ps.getLast?.toList ++ ps.dropLast) else p :: unload gone n ps

theorem last_first_perm (ps : List Entry) : (ps.getLast?.toList ++ ps.dropLast).Perm ps := by
  cases h : ps.getLast? with
  | none => rw [List.getLast?_eq_none_iff.mp h]; exact .nil
  | some p =>
    obtain ⟨front, rfl⟩ := List.getLast?_eq_some_iff.mp h
    rw [List.dropLast_concat]
    exact (List.perm_append_singleton p front).symm

theorem unload_perm (gone : Entry → Bool) (ps : List Entry) : (unload gone ps.length ps).Perm (ps.filter fun p => !gone p) := by
  generalize hn : ps.length = n
  induction n generalizing ps with
  | zero =>
    rw [List.length_eq_zero_iff.mp hn]
    exact .nil
  | succ n ih =>
    obtain ⟨p, ps, rfl⟩ := List.exists_cons_of_length_eq_add_one hn
    have hlen : ps.length = n := by simpa using hn
    unfold unload
    by_cases hgone : gone p = true
    · rw [if_pos hgone, List.filter_cons_of_neg (by simp [hgone])]
      have hperm := last_first_perm ps
      exact (ih _ (hperm.length_eq.trans hlen)).trans (hperm.filter _)
    · rw [if_neg hgone, List.filter_cons_of_pos (by simp [hgone])]
      exact (ih ps hlen).cons p

/-- "Forget plugins whose source file is gone". -/
def Registry.forget (r : Registry) (there : Str → Bool) : Registry :=
  { r with
    plugins := unload (fun p => !there p.srcPath) r.plugins.length r.plugins
    distinct := (unload_perm _ _).symm.pairwise (r.distinct.filter _) Ne.symm
    few := by
      rw [(unload_perm _ _).length_eq]
      exact (List.length_filter_le _ _).trans r.few }

/-- A file of the directory, as the scan finds it. -/
structure File where
  name : Str
  code : Str
  mtime : Int
  deriving DecidableEq

/-- A `.c` file whose name does not start with `_`. -/
def isSource (name : Str) : Bool :=
  3 ≤ name.length && name.drop (name.length - 2) = lit ".c" && byte name 0 ≠ ch '_'

def Registry.path (r : Registry) (name : Str) : Str := r.dir ++ lit "/" ++ name

/-- Loaded with this mtime: `need_compile` is 0. -/
def Registry.current (r : Registry) (path : Str) (mtime : Int) : Bool :=
  r.plugins.any fun p => p.srcPath = path && p.mtime = mtime

/-- `plugin_scan` at one file of the directory. -/
def scanFile (fault : Str → Option Str) (r : Registry) (f : File) : Registry :=
  if isSource f.name && !r.current (r.path f.name) f.mtime && !r.knownFailure (r.path f.name) f.mtime then
    (pluginCompile T J (fault f.name) r (r.path f.name) f.code f.mtime).1
  else r

/-- `plugin_scan`: `there` is `file_exists`, `files` what `readdir` and `stat` found. -/
def pluginScan (there : Str → Bool) (files : List File) (fault : Str → Option Str) (r : Registry) : Registry :=
  files.foldl (scanFile T J fault) (r.forget there)

/-! ## The tools the models are told and the one a call runs -/

def schemaName (s : Json) : Str := (s.jStr (lit "name")).getD []

/-- `plugin_get_schemas`: sorted by name. -/
def pluginGetSchemas (r : Registry) : List Json :=
  r.plugins.foldl (fun arr p => arr.orderedInsert (fun a b => schemaName a < schemaName b) p.schema) []

/-- The entry whose function `plugin_execute` runs. -/
def Registry.lookup (r : Registry) (name : Str) : Option Entry := r.plugins.find? fun p => p.name = name

/-! ## What the operations leave -/

theorem mem_forget {r : Registry} {there : Str → Bool} {p : Entry} :
    p ∈ (r.forget there).plugins ↔ p ∈ r.plugins ∧ there p.srcPath = true := by
  show p ∈ unload _ _ _ ↔ _
  rw [(unload_perm _ _).mem_iff, List.mem_filter, Bool.not_not]

theorem taken_eq_none {r : Registry} {path name : Str} :
    r.taken path name = none ↔ ∀ p ∈ r.plugins, p.srcPath ≠ path → p.name ≠ name := by
  unfold Registry.taken
  rw [List.getLast?_eq_none_iff, List.filter_eq_nil_iff]
  simp

theorem has_iff {r : Registry} {path : Str} : r.has path = true ↔ ∃ p ∈ r.plugins, p.srcPath = path := by
  unfold Registry.has
  simp

/-- One entry a file. -/
theorem Registry.unique {r : Registry} {p q : Entry} (hp : p ∈ r.plugins) (hq : q ∈ r.plugins) (h : p.srcPath = q.srcPath) :
    p = q := by
  have hsymm : Std.Symm fun p q : Entry => p.srcPath ≠ q.srcPath := ⟨fun _ _ => Ne.symm⟩
  by_contra hne
  exact r.distinct.forall hp hq hne h

/-- A source that built is refused for a name clash or a full table only. -/
theorem register_refused {r : Registry} {path code : Str} {mtime : Int} {b : Built} :
    (∃ err, r.register J path code mtime b = .error err) ↔
      (r.taken path b.name).isSome ∨ r.has path = false ∧ maxPlugins ≤ r.plugins.length := by
  unfold Registry.register
  cases htaken : r.taken path b.name with
  | some p => simp
  | none =>
    dsimp only
    by_cases hhas : r.has path = true
    · simp [hhas]
    · rw [if_neg hhas]
      by_cases hroom : r.plugins.length < maxPlugins
      · rw [dif_pos ⟨hhas, hroom⟩]
        simp [hroom]
      · rw [dif_neg fun h => hroom h.2]
        simp [hhas, Nat.le_of_not_lt hroom]

/-- A registration leaves the other files' entries and one for this file. -/
theorem register_ok {r r' : Registry} {path code : Str} {mtime : Int} {b : Built}
    (h : r.register J path code mtime b = .ok r') : r.taken path b.name = none ∧ r'.dir = r.dir ∧ r'.failed = r.failed ∧
      ∀ q, q ∈ r'.plugins ↔ q = b.entry J path code mtime ∨ q ∈ r.plugins ∧ q.srcPath ≠ path := by
  unfold Registry.register at h
  cases htaken : r.taken path b.name with
  | some p =>
    rw [htaken] at h
    cases h
  | none =>
    rw [htaken] at h
    dsimp only at h
    split at h
    · rename_i hhas
      cases h
      refine ⟨rfl, rfl, rfl, fun q => ?_⟩
      obtain ⟨old, hold, hpath⟩ := has_iff.mp hhas
      simp only [List.mem_map]
      constructor
      · rintro ⟨p, hp, rfl⟩
        by_cases hp' : p.srcPath = path
        · exact Or.inl (if_pos hp')
        · rw [if_neg hp']
          exact Or.inr ⟨hp, hp'⟩
      · rintro (rfl | ⟨hq, hne⟩)
        · exact ⟨old, hold, if_pos hpath⟩
        · exact ⟨q, hq, if_neg hne⟩
    · rename_i hhas
      split at h
      · cases h
        refine ⟨rfl, rfl, rfl, fun q => ?_⟩
        have hother : q ∈ r.plugins → q.srcPath ≠ path := fun hq heq => hhas (has_iff.mpr ⟨q, hq, heq⟩)
        rw [List.mem_append, List.mem_singleton, or_comm]
        exact or_congr_right (and_iff_left_of_imp hother).symm
      · cases h

/-- A compile loads what it was given, or notes a failure. -/
theorem pluginCompile_cases (fault : Option Str) (r : Registry) (path code : Str) (mtime : Int) :
    (∃ err, pluginCompile T J fault r path code mtime = (r.recordFailure path mtime, .error err) ∧
      (fault ≠ none ∨ (∃ msgs, build T code = .error msgs) ∨
        ∃ b, build T code = .ok b ∧ ∃ err, r.register J path code mtime b = .error err)) ∨
    ∃ b r', fault = none ∧ build T code = .ok b ∧ r.register J path code mtime b = .ok r' ∧
      pluginCompile T J fault r path code mtime = (r', .ok (cut 64 b.name)) := by
  unfold pluginCompile
  cases fault with
  | some err => exact Or.inl ⟨err, rfl, Or.inl nofun⟩
  | none =>
    cases hb : build T code with
    | error msgs => exact Or.inl ⟨_, rfl, Or.inr (Or.inl ⟨msgs, rfl⟩)⟩
    | ok b =>
      dsimp only
      cases hr : r.register J path code mtime b with
      | error err => exact Or.inl ⟨err, rfl, Or.inr (Or.inr ⟨b, rfl, err, hr⟩)⟩
      | ok r' => exact Or.inr ⟨b, r', rfl, rfl, hr, rfl⟩

theorem getSchemas_perm (r : Registry) : (pluginGetSchemas r).Perm (r.plugins.map (·.schema)) := by
  have hfold : ∀ (ps : List Entry) (arr : List Json),
      (ps.foldl (fun arr p => arr.orderedInsert (fun a b => schemaName a < schemaName b) p.schema) arr).Perm
        (arr ++ ps.map (·.schema)) := by
    intro ps
    induction ps with
    | nil => exact fun arr => by simp
    | cons p ps ih =>
      intro arr
      refine (ih _).trans ?_
      rw [List.map_cons]
      exact ((List.perm_orderedInsert _ _ _).append_right _).trans List.perm_middle.symm
  exact hfold r.plugins []

end

/-! ## A compiler for the sources of a table -/

/-- A plugin whose function returns a C expression of its input `i`. -/
def returning (value name : Str) : Str :=
  lit "char*tc_execute(char*i)\x7breturn " ++ value ++ lit ";\x7dchar*TC_PLUGIN_NAME=\"" ++ name ++ lit "\";"

/-- TinyCC on the sources of a table, each with its name, and on a text that is none of them. -/
def tableTcc (table : List (Str × Str)) : Tcc := fun code =>
  match table.find? fun row => row.1 = code with
  | some row => ([], some ⟨some (some row.2), true, none, none⟩)
  | none => ([lit "error: identifier expected"], none)

end Shclaw.Plugin
