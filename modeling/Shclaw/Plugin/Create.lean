/-
  Shclaw.Plugin.Create — the `create_plugin` tool (`src/tools.c`: `execute_tool`,
  `unescape_once`, `fix_schema_quotes`, `annotate_errors`, `test_plugin`), run alone.

  The call builds the code from memory and registers it, then saves it with the mtime
  the registry knows, then runs it once. What the system answers on the way is a
  `Chance`: the clock, a fault of the compile's child, whether the write and the times
  succeed, the start of the test's child and what it prints.

  `failed_keeps`: a call that answers an error leaves the plugin the file had, its code
  and the file's text exactly when it was refused before the registry changed, or there
  was no plugin, or there was nothing to replace. A call that fails later, because the
  file cannot be saved or the test run fails, has replaced it (`failed_test_replaces`).
-/

import Shclaw.Plugin.Registry

namespace Shclaw.Plugin

open Lib Agent

/-! ## The code as the model sent it -/

/-- What an escape stands for. -/
def escaped (c : UInt8) : Option UInt8 :=
  if c = ch 'n' then some 10
  else if c = ch 't' then some 9
  else if c = ch 'r' then some 13
  else if c = ch '"' ∨ c = ch '\\' then some c
  else none

def unescapeOnce : Str → Str
  | [] => []
  | [c] => [c]
  | c :: d :: s =>
    match if c = ch '\\' then escaped d else none with
    | some e => e :: unescapeOnce s
    | none => c :: unescapeOnce (d :: s)

/-- A C string literal's text. -/
def quoted (text : Str) : Str := text.flatMap fun c => if c = ch '"' ∨ c = ch '\\' then [ch '\\', c] else [c]

/-- `cJSON_ParseWithOpts` of a whole text. -/
def parseWhole (R : CJsonReader) (text : Str) : Option Json :=
  (R.value text).bind fun v => if v.2.all (· ≤ 32) then some v.1 else none

/-- `fix_schema_quotes`: raw JSON in the string of `TC_PLUGIN_SCHEMA` is escaped. -/
def fixSchemaQuotes (R : CJsonReader) (code : Str) : Str :=
  match strstr code (lit "TC_PLUGIN_SCHEMA") with
  | none => code
  | some decl =>
    let line := decl.takeWhile (· ≠ ch '\n')
    let start := (line.takeWhile (· ≠ ch '"')).length + 1
    -- up to the last semicolon of the line, without the blanks before it
    let head := (((line.reverse.dropWhile (· ≠ ch ';')).drop 1).dropWhile fun c => c = ch ' ' || c = ch '\t').reverse
    if line.contains (ch '"') = false ∨ head.length ≤ start ∨ head.getLast? ≠ some (ch '"') then code
    else
      let raw := (head.drop start).dropLast
      if raw.contains (ch '"') = false ∨ (strstr raw (lit "\\\"")).isSome then code
      else
        match parseWhole R raw with
        | none => code
        | some json =>
          code.take (code.length - decl.length) ++ decl.take start ++ quoted (R.print json) ++ decl.drop (head.length - 1)

/-- The code `create_plugin` builds and saves. -/
def decoded (R : CJsonReader) (code : Str) : Str :=
  fixSchemaQuotes R
    (if (strchr code (ch '\n')).isNone && (strstr code (lit "\\n")).isSome then unescapeOnce code else code)

/-- `weather.c` means `weather`. -/
def pluginName (name : Str) : Str :=
  let name := cut 80 name
  if 2 < name.length ∧ name.drop (name.length - 2) = lit ".c" then name.take (name.length - 2) else name

/-! ## The answers -/

def invalidName (name : Str) : Str :=
  lit "Error: invalid plugin name '" ++ name ++ lit "' (letters, digits, '_' and '-' only)"

/-- The text from the line `n + 1` on. -/
def sourceFrom : Nat → Str → Option Str
  | 0, s => some s
  | n + 1, s => (strchr s (ch '\n')).bind fun t => sourceFrom n (t.drop 1)

/-- The diagnostics, each with the line of the code it names; `l` is what is left of them. -/
def annotateErrors (code : Str) : Nat → Str → Str
  | 0, _ => []
  | _, [] => []
  | shown + 1, l =>
    let line := l.takeWhile (· ≠ ch '\n')
    let lineNo := if line.contains (ch ':') then atoi ((l.dropWhile (· ≠ ch ':')).drop 1) else 0
    let src := if 0 < lineNo then (sourceFrom (lineNo.toNat - 1) code).getD [] else []
    let slen := (src.takeWhile (· ≠ ch '\n')).length
    line ++ lit "\n" ++
      (if src = [] then []
        else lit "    " ++ paddedInt 1 lineNo ++ lit " | " ++ src.take (utf8Prefix src (min slen 200)) ++ lit "\n") ++
      annotateErrors code shown ((l.dropWhile (· ≠ ch '\n')).drop 1)

/-- `plugin_api_names`. -/
def pluginApiNames : Str :=
  lit ("tc_malloc, tc_free, tc_strlen, tc_memcpy, tc_memset, tc_strcmp, tc_strncmp, tc_strcpy, tc_strncpy, " ++
    "tc_snprintf, tc_strstr, tc_strchr, tc_strrchr, tc_strcat, tc_strncat, tc_strdup, tc_memcmp, tc_isdigit, " ++
    "tc_isalpha, tc_isspace, tc_tolower, tc_toupper, tc_atoi, tc_read_file, tc_write_file, tc_gethostname, " ++
    "tc_http_get, tc_http_post, tc_http_post_json, tc_http_header, tc_log, tc_json_parse, tc_json_free, " ++
    "tc_json_print, tc_json_get, tc_json_index, tc_json_array_size, tc_json_string, tc_json_int, tc_json_double")

def compileFailed (name code err : Str) : Str :=
  lit "Error: compilation failed for " ++ name ++ lit ".c:\n" ++ annotateErrors code 12 err ++
    (if (strstr err (lit "unresolved reference")).isSome ∨ (strstr err (lit "implicit declaration")).isSome then
      lit "Only these functions exist: " ++ pluginApiNames ++ lit "\n" else []) ++
    (if (strstr err (lit "defined twice")).isSome ∨ (strstr err (lit "redefinition")).isSome then
      lit ("One of your functions has the name of a " ++ "provided one: rename it (e.g. my_isdigit).\n") else []) ++
    lit ("Hint: include only \"tc_plugin.h\", use only its tc_* functions, " ++
      "and export TC_PLUGIN_NAME, TC_PLUGIN_DESC, TC_PLUGIN_SCHEMA and tc_execute(const char *input_json).")

def notSaved (path errno : Str) : Str := lit "Error: plugin loaded, but " ++ path ++ lit " cannot be saved: " ++ errno

def testFailed (name report : Str) : Str := lit "Error: " ++ name ++ lit ".c compiled, but its test run failed." ++ report

def created (name tool report : Str) : Str :=
  lit "Plugin '" ++ name ++ lit "' compiled and loaded as tool '" ++ tool ++ lit "'." ++ report

/-! ## The test run -/

/-- What the system answers during one call. -/
structure Chance where
  /-- `time(NULL)`. -/
  now : Int
  fault : Option Str
  saved : Bool
  stamped : Bool
  errno : Str
  /-- The mtime the write itself gives the file. -/
  wrote : Int
  /-- The report is allocated. -/
  room : Bool
  /-- The child is started. -/
  child : Bool
  /-- What a child prints that runs a plugin built from this source. -/
  run : Str → Json → Str

/-- `plugin_execute`: `none` when no such plugin is loaded. -/
def pluginExecute (C : Chance) (r : Registry) (name : Str) (input : Json) : Option Str :=
  if C.child then (r.lookup name).map fun p => cut (bufXl / 2) (C.run p.code input)
  else some (lit "Error: cannot start plugin '" ++ name ++ lit "'")

/-- The output behind the trace of the HTTP calls. -/
def afterTrace : Nat → Str → Str
  | 0, s => s
  | n + 1, s =>
    if startsWith s (lit "[GET ") ∨ startsWith s (lit "[POST ") then afterTrace n ((s.dropWhile (· ≠ ch '\n')).drop 1) else s

/-- `test_plugin`: whether the test failed, and the report. -/
def testPlugin (J : CJson) (C : Chance) (r : Registry) (tool test : Str) : Bool × Str :=
  let res := match J.parse test with
    | some (.obj kvs) => (pluginExecute C r tool (.obj kvs)).getD (lit "Error: plugin not loaded")
    | _ => lit "Error: test_input is not a JSON object"
  let after := afterTrace res.length res
  let trace := res.take (res.length - after.length)
  let output := after.dropWhile fun c => c = ch ' ' || c = ch '\n' || c = ch '\r'
  let failed := startsWith res (lit "Error:") || strcaseeq (output.take 5) (lit "error") || output = [] ||
    output = lit "[empty output]"
  (failed, cut bufXl (lit "\nTest run with " ++ test ++
    (if trace = [] then [] else lit "\nHTTP calls (debug trace, not part of the output):\n" ++ trace) ++
    lit "\nPlugin output:\n" ++ (if output = [] then lit "(empty)" else output) ++ lit "\n" ++
    (if failed then lit "Fix the plugin and call create_plugin again."
      else lit "If this is not what the plugin should answer, fix it and call create_plugin again.")))

/-! ## The call -/

/-- A file. -/
structure Saved where
  code : Str
  mtime : Int
  deriving DecidableEq

abbrev Disk := Str → Option Saved

def Disk.write (disk : Disk) (path : Str) (file : Saved) : Disk := fun p => if p = path then some file else disk p

@[simp] theorem Disk.write_self (disk : Disk) (path : Str) (file : Saved) : disk.write path file path = some file := if_pos rfl

/-- The second of two writes. -/
@[simp] theorem Disk.write_write (disk : Disk) (path : Str) (a b : Saved) : (disk.write path a).write path b = disk.write path b := by
  funext p
  unfold Disk.write
  by_cases hp : p = path
  · rw [if_pos hp, if_pos hp]
  · rw [if_neg hp, if_neg hp, if_neg hp]

section

variable (T : Tcc) (R : CJsonReader)

def sourcePath (r : Registry) (name : Str) : Str := r.path (pluginName name ++ lit ".c")

/-- The test, when the model asked for one. -/
def testRun (C : Chance) (r : Registry) (tool : Str) (test : Option Str) : Bool × Str :=
  if C.room = true ∧ test.getD [] ≠ [] then testPlugin R.toCJson C r tool (test.getD []) else (false, [])

/-- `execute_tool(TOOL_CREATE_PLUGIN)`: the registry, the files and the answer. -/
def createPlugin (C : Chance) (r : Registry) (disk : Disk) (name code : Str) (test : Option Str) :
    Registry × Disk × Str :=
  if toolNameValid (pluginName name) = false then (r, disk, invalidName (pluginName name))
  else
    let code := decoded R code
    let path := sourcePath r name
    match pluginCompile T R.toCJson C.fault r path code C.now with
    | (r', .error err) => (r', disk, compileFailed (pluginName name) code err)
    | (r', .ok tool) =>
      if C.saved = false then (r', disk, notSaved path C.errno)
      else if C.stamped = false then (r', disk.write path ⟨code, C.wrote⟩, notSaved path C.errno)
      else
        let ran := testRun R C r' tool test
        (r', disk.write path ⟨code, C.now⟩,
          if ran.1 then testFailed (pluginName name) ran.2 else created (pluginName name) tool ran.2)

/-- The call stops before the registry changes: the name, a fault of the compile, the source, or
    the name and room of what it builds. -/
def Refused (C : Chance) (r : Registry) (name code : Str) : Prop :=
  toolNameValid (pluginName name) = false ∨ C.fault ≠ none ∨
    match build T (decoded R code) with
    | .error _ => True
    | .ok b => (r.taken (sourcePath r name) b.name).isSome ∨ r.has (sourcePath r name) = false ∧ maxPlugins ≤ r.plugins.length

/-- The plugin a file had is loaded with its code, and the file's text is the same. -/
def Kept (path : Str) (r r' : Registry) (disk disk' : Disk) : Prop :=
  ∀ p ∈ r.plugins, p.srcPath = path → (∃ q ∈ r'.plugins, q.srcPath = path ∧ q.code = p.code) ∧
    (disk' path).map (·.code) = (disk path).map (·.code)

/-- There is nothing to replace: a plugin of the file runs this code already, and the file has it or is not written. -/
def Same (C : Chance) (r : Registry) (disk : Disk) (path code : Str) : Prop :=
  ∀ p ∈ r.plugins, p.srcPath = path → p.code = code ∧ (C.saved = false ∨ (disk path).map (·.code) = some code)

/-! ## What a call leaves -/

/-- A refused call changes neither plugins nor files; any other has registered the code and, if the
    write succeeds, saved it. -/
theorem createPlugin_cases (C : Chance) (r : Registry) (disk : Disk) (name code : Str) (test : Option Str) :
    let out := createPlugin T R C r disk name code test
    Refused T R C r name code ∧ out.1.plugins = r.plugins ∧ out.2.1 = disk ∨
    ¬ Refused T R C r name code ∧
      (∀ p ∈ out.1.plugins, p.srcPath = sourcePath r name → p.code = decoded R code) ∧
      (∃ p ∈ out.1.plugins, p.srcPath = sourcePath r name ∧ p.code = decoded R code) ∧
      if C.saved = true then (out.2.1 (sourcePath r name)).map (·.code) = some (decoded R code) else out.2.1 = disk := by
  unfold createPlugin
  by_cases hvalid : toolNameValid (pluginName name) = false
  · rw [if_pos hvalid]
    exact Or.inl ⟨Or.inl hvalid, rfl, rfl⟩
  rw [if_neg hvalid]
  dsimp only
  rcases pluginCompile_cases T R.toCJson C.fault r (sourcePath r name) (decoded R code) C.now with
    ⟨err, heq, hwhy⟩ | ⟨b, r', hfault, hb, hr, heq⟩
  · rw [heq]
    refine Or.inl ⟨?_, rfl, rfl⟩
    rcases hwhy with hfault | ⟨msgs, hb⟩ | ⟨b, hb, err, hr⟩
    · exact Or.inr (Or.inl hfault)
    · refine Or.inr (Or.inr ?_)
      rw [hb]
      trivial
    · refine Or.inr (Or.inr ?_)
      rw [hb]
      exact (register_refused R.toCJson).mp ⟨err, hr⟩
  · rw [heq]
    obtain ⟨-, -, -, hmem⟩ := register_ok R.toCJson hr
    have hnot : ¬ Refused T R C r name code := by
      rintro (h | h | h)
      · exact hvalid h
      · exact h hfault
      · rw [hb] at h
        have hrefused : ∃ err, r.register R.toCJson (sourcePath r name) (decoded R code) C.now b = .error err :=
          (register_refused R.toCJson).mpr h
        obtain ⟨err, herr⟩ := hrefused
        rw [hr] at herr
        cases herr
    have hcode : ∀ p ∈ r'.plugins, p.srcPath = sourcePath r name → p.code = decoded R code := by
      intro p hp hpath
      rcases (hmem p).mp hp with rfl | ⟨-, hne⟩
      · rfl
      · exact absurd hpath hne
    have hnew : ∃ p ∈ r'.plugins, p.srcPath = sourcePath r name ∧ p.code = decoded R code :=
      ⟨_, (hmem _).mpr (Or.inl rfl), rfl, rfl⟩
    dsimp only
    by_cases hsaved : C.saved = false
    · rw [if_pos hsaved]
      refine Or.inr ⟨hnot, hcode, hnew, ?_⟩
      rw [if_neg (by rw [hsaved]; decide)]
    · rw [if_neg hsaved]
      have htrue : C.saved = true := by simpa using hsaved
      rw [if_pos htrue]
      by_cases hstamped : C.stamped = false
      · rw [if_pos hstamped]
        exact Or.inr ⟨hnot, hcode, hnew, congrArg (Option.map (·.code)) (Disk.write_self disk _ _)⟩
      · rw [if_neg hstamped]
        exact Or.inr ⟨hnot, hcode, hnew, congrArg (Option.map (·.code)) (Disk.write_self disk _ _)⟩

/-- A `create_plugin` that answers an error keeps the plugin its file had exactly when the call was
    refused before the registry changed, or a plugin of that file and the file itself already
    were what the call put there. -/
theorem failed_keeps (C : Chance) (r : Registry) (disk : Disk) (name code : Str) (test : Option Str)
    {r' : Registry} {disk' : Disk} {answer : Str} (hcall : createPlugin T R C r disk name code test = (r', disk', answer)) :
    isError answer = true → (Kept (sourcePath r name) r r' disk disk' ↔
      Refused T R C r name code ∨ Same C r disk (sourcePath r name) (decoded R code)) := by
  intro _
  have hcases := createPlugin_cases T R C r disk name code test
  rw [hcall] at hcases
  rcases hcases with ⟨href, hplugins, hdisk⟩ | ⟨hnot, hcode, ⟨q, hq, hqpath, hqcode⟩, hfile⟩
  · refine iff_of_true (fun p hp hpath => ⟨⟨p, ?_, hpath, rfl⟩, ?_⟩) (Or.inl href)
    · show p ∈ r'.plugins
      rw [show r'.plugins = r.plugins from hplugins]
      exact hp
    · rw [show disk' = disk from hdisk]
  · dsimp only at hcode hq hfile
    constructor
    · intro hkept
      refine Or.inr fun p hp hpath => ?_
      obtain ⟨⟨q', hq', hpath', hsame⟩, htext⟩ := hkept p hp hpath
      refine ⟨?_, ?_⟩
      · rw [← hsame]
        exact hcode q' hq' hpath'
      · by_cases hsaved : C.saved = true
        · rw [if_pos hsaved] at hfile
          exact Or.inr (htext.symm.trans hfile)
        · exact Or.inl (by simpa using hsaved)
    · rintro (href | hsame) p hp hpath
      · exact absurd href hnot
      · obtain ⟨hpcode, hwhere⟩ := hsame p hp hpath
        refine ⟨⟨q, hq, hqpath, hqcode.trans hpcode.symm⟩, ?_⟩
        by_cases hsaved : C.saved = true
        · rw [if_pos hsaved] at hfile
          rcases hwhere with hno | hold
          · rw [hsaved] at hno
            cases hno
          · rw [hfile, hold]
        · rw [if_neg hsaved] at hfile
          rw [hfile]

end

/-! ## A test that fails -/

/-- A plugin that answers its input. -/
def echoSource : Str := returning (lit "i") (lit "echo")

/-- One of the same name that answers nothing. -/
def emptySource : Str := returning (lit "\"\"") (lit "echo")

def twoSources : Tcc := tableTcc [(echoSource, lit "echo"), (emptySource, lit "echo")]

def echoFile : Str := lit "./plugins/echo.c"

/-- The echo plugin is loaded from its file. -/
def loaded : Registry :=
  (pluginCompile twoSources CJson.compact none (.empty (lit "./plugins")) echoFile echoSource 1).1

def onDisk : Disk := Disk.write (fun _ => none) echoFile ⟨echoSource, 1⟩

/-- Everything succeeds; a child prints what its plugin answers. -/
def smooth : Chance :=
  ⟨9, none, true, true, [], 9, true, true, fun code input => if code = emptySource then lit "[empty output]" else CJson.compact.print input⟩

/-- The compiler's child times out. -/
theorem failed_keeps_timeout : ∃ r' disk' answer,
    createPlugin twoSources CJsonReader.compact { smooth with fault := some (lit "compiler timed out") } loaded onDisk
      (lit "echo") emptySource none = (r', disk', answer) ∧ isError answer = true ∧ Kept echoFile loaded r' onDisk disk' := by
  have herror : isError (createPlugin twoSources CJsonReader.compact { smooth with fault := some (lit "compiler timed out") }
      loaded onDisk (lit "echo") emptySource none).2.2 = true := by decide +kernel
  rcases hcall : createPlugin twoSources CJsonReader.compact { smooth with fault := some (lit "compiler timed out") } loaded onDisk
    (lit "echo") emptySource none with ⟨r', disk', answer⟩
  rw [hcall] at herror
  exact ⟨r', disk', answer, rfl, herror,
    (failed_keeps twoSources CJsonReader.compact _ loaded onDisk _ _ none hcall herror).mpr (Or.inl (Or.inr (Or.inl nofun)))⟩

/-- The answer is an error, and the working plugin is gone from the registry and from its file. -/
theorem failed_test_replaces : ¬ ∀ (r' : Registry) (disk' : Disk) (answer : Str),
    createPlugin twoSources CJsonReader.compact smooth loaded onDisk (lit "echo") emptySource (some (lit "\x7b\x7d")) =
      (r', disk', answer) → isError answer = true → Kept echoFile loaded r' onDisk disk' := by
  intro hall
  have hrun : (fun called : Registry × Disk × Str =>
        (called.1.plugins.map (·.code), loaded.plugins.map fun p => (p.srcPath, p.code), isError called.2.2))
      (createPlugin twoSources CJsonReader.compact smooth loaded onDisk (lit "echo") emptySource (some (lit "\x7b\x7d"))) =
      ([emptySource], [(echoFile, echoSource)], true) := by decide +kernel
  rcases hcall : createPlugin twoSources CJsonReader.compact smooth loaded onDisk (lit "echo") emptySource
    (some (lit "\x7b\x7d")) with ⟨r', disk', answer⟩
  rw [hcall] at hrun
  obtain ⟨hnew, hloaded⟩ := Prod.mk.inj hrun
  obtain ⟨hold, herror⟩ := Prod.mk.inj hloaded
  obtain ⟨p, rest, hp, hpair, -⟩ := List.map_eq_cons_iff.mp hold
  obtain ⟨hpath, hcode⟩ := Prod.mk.inj hpair
  obtain ⟨⟨q, hq, -, hsame⟩, -⟩ := hall r' disk' answer hcall herror p (by rw [hp]; exact List.mem_cons_self) hpath
  have hmem := List.mem_map_of_mem (f := fun q : Entry => q.code) hq
  rw [hnew, List.mem_singleton, hsame, hcode] at hmem
  exact absurd hmem (by decide +kernel)

end Shclaw.Plugin
