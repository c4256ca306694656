/-
  Shclaw.Tools — the built-in tools (`src/tools.c`): the table, the schemas sent to
  the model (`tools_to_json`) and the check of the arguments it sends back
  (`tool_check_args`), with the readers of `src/util.c` (`j_int`, `j_bool`).

  `tool_check_args` may rewrite the arguments: an object or array given for a string
  parameter is replaced by its JSON text. So it returns the arguments with its
  verdict. The build is the default one: plugins, no Cosmopolitan.
-/

import Shclaw.Json

namespace Shclaw

open Lib

/-! ## Reading numbers and booleans -/

namespace Json

def isNull : Json → Bool
  | .null => true
  | _ => false

end Json

def intMin : Int := -2147483648

def intMax : Int := 2147483647

def isSpace (c : UInt8) : Bool := c = 32 || (9 ≤ c && c ≤ 13)

/-- `strtol(s, &end, 10)`: the value and `end`; `none` when there are no digits. -/
def strtol (s : Str) : Option (Int × Str) :=
  let s := s.dropWhile isSpace
  let neg := byte s 0 = ch '-'
  let s := if byte s 0 = ch '-' ∨ byte s 0 = ch '+' then s.drop 1 else s
  let v := (s.takeWhile isDigit).foldl (fun n c => 10 * n + digitVal c) 0
  if s.takeWhile isDigit = [] then none else some (if neg then -v else v, s.dropWhile isDigit)

/-- A number read as a `long`, which stops at its ends, and stored in an `int`. -/
def longAsInt (v : Int) : Int := (BitVec.ofInt 32 (max (-2 ^ 63) (min (2 ^ 63 - 1) v))).toInt

theorem longAsInt_eq {v : Int} (h : intMin ≤ v ∧ v ≤ intMax) : longAsInt v = v := by
  unfold intMin intMax at h
  have hlong : max (-2 ^ 63) (min (2 ^ 63 - 1) v) = v := by omega
  unfold longAsInt
  rw [hlong, BitVec.toInt_ofInt, Int.bmod_eq_of_le]
  · omega
  · omega

def atoi (s : Str) : Int := longAsInt (((strtol s).map (·.1)).getD 0)

/-- `valueint` of a number: its integer part, clamped. -/
def valueInt (m : Int) (e : Nat) : Int := max intMin (min intMax (m.tdiv (10 ^ e)))

def jInt (j : Json) (k : Str) (dflt : Int) : Int :=
  match j.getObjectItem k with
  | some (.num m e) => valueInt m e
  | some (.str s) =>
    match strtol s with
    | some (v, []) => if intMin ≤ v ∧ v ≤ intMax then v else dflt
    | _ => dflt
  | _ => dflt

def jBool (j : Json) (k : Str) (dflt : Int) : Int :=
  match j.getObjectItem k with
  | some (.bool b) => if b then 1 else 0
  | some (.num m _) => if m ≠ 0 then 1 else 0
  | some (.str s) =>
    if strcaseeq s (lit "true") ∨ strcaseeq s (lit "yes") ∨ s = lit "1" then 1
    else if strcaseeq s (lit "false") ∨ strcaseeq s (lit "no") ∨ s = lit "0" then 0
    else dflt
  | _ => dflt

/-! ## The table -/

inductive ParamType where
  | string
  | int
  | bool
  deriving DecidableEq

structure Param where
  name : Str
  type : ParamType
  description : Str
  required : Bool
  choices : Option Str

structure ToolDef where
  name : Str
  desc : Str
  params : List Param

inductive ToolId where
  | exec | readFile | writeFile | scheduleTask | scheduleRecurring | listTasks | updateTask | cancelTask | remember
  | recall | setFact | getFact | sendMessage | listAgents | createPlugin | clearMemory
  deriving DecidableEq, Repr

namespace ToolId

/-- In the order of the enumeration. -/
def all : List ToolId :=
  [exec, readFile, writeFile, scheduleTask, scheduleRecurring, listTasks, updateTask, cancelTask, remember, .recall,
   setFact, getFact, sendMessage, listAgents, createPlugin, clearMemory]

end ToolId

def intervalNames : String := "every_30min,hourly,every_6h,every_12h,daily,weekly"

def runAtDesc : String :=
  "Or a local time, YYYY-MM-DDTHH:MM:SS (e.g. 2026-01-31T18:30:00). " ++
  "Append Z or +HH:MM only for another time zone."

def inMinutesDesc : String := "Minutes from now: use this for 'in 5 minutes', 'in 2 hours' (120)"

/-- A parameter without choices. -/
def param (name : String) (type : ParamType) (description : String) (required : Bool) : Param :=
  ⟨lit name, type, lit description, required, none⟩

def choice (name : String) (description : String) (required : Bool) (choices : String) : Param :=
  ⟨lit name, .string, lit description, required, some (lit choices)⟩

def toolDef (name desc : String) (params : List Param) : ToolDef := ⟨lit name, lit desc, params⟩

/-- `TOOLS`. -/
def tools : ToolId → ToolDef
  | .exec => toolDef "exec"
      "Run a shell command (/bin/sh -c). Returns stdout+stderr (max 10KB). Timeout 30s."
      [param "command" .string "Shell command to execute" true,
       param "timeout" .int "Timeout in seconds (default 30)" false]
  | .readFile => toolDef "read_file"
      "Read a file's contents. Returns up to 32KB; use offset to read more."
      [param "path" .string "File path" true,
       param "offset" .int "Start at byte offset (default 0)" false,
       param "limit" .int "Max bytes to read (default 32768)" false]
  | .writeFile => toolDef "write_file"
      "Write or append to a file. Creates parent dirs if needed."
      [param "path" .string "File path" true,
       param "content" .string "Content to write" true,
       param "append" .bool "Append instead of overwrite (default false)" false]
  | .scheduleTask => toolDef "schedule_task"
      "Schedule a one-shot task, in N minutes or at a given time."
      [param "in_minutes" .int inMinutesDesc false,
       param "run_at" .string runAtDesc false,
       param "description" .string "What to do when it fires" true,
       param "prompt" .string "Detailed prompt for the session" false]
  | .scheduleRecurring => toolDef "schedule_recurring"
      "Schedule a recurring task."
      [param "in_minutes" .int ("First run. " ++ inMinutesDesc) false,
       param "run_at" .string ("First run. " ++ runAtDesc) false,
       choice "interval" "Recurrence interval" true intervalNames,
       param "description" .string "What to do each time" true,
       param "prompt" .string "Detailed prompt for each session" false]
  | .listTasks => toolDef "list_tasks" "List all scheduled tasks (upcoming first)." []
  | .updateTask => toolDef "update_task"
      "Update an existing scheduled task."
      [param "task_id" .string "Task ID to update" true,
       param "run_at" .string ("New run time. " ++ runAtDesc) false,
       param "description" .string "New description" false,
       param "prompt" .string "New prompt" false,
       param "interval" .string "New interval (\"\" = one-shot)" false]
  | .cancelTask => toolDef "cancel_task"
      "Cancel a scheduled task by ID."
      [param "task_id" .string "Task ID to cancel" true]
  | .remember => toolDef "remember"
      "Save a memory. Auto-tagged for later retrieval."
      [param "content" .string "What to remember" true,
       choice "category" "Category" false "general,project,person,event,error",
       param "importance" .int "1-10, default 5. 8+ = critical." false,
       param "tags" .string "Comma-separated extra tags" false]
  | .recall => toolDef "recall"
      "Search memories by keywords. Empty query = most recent."
      [param "query" .string "Keywords" false,
       param "n" .int "Max results (default 20)" false]
  | .setFact => toolDef "set_fact"
      "Store a permanent key-value fact, always shown in your prompt."
      [param "key" .string "Fact key" true,
       param "value" .string "Fact value" true]
  | .getFact => toolDef "get_fact"
      "Retrieve a stored fact by key. Empty key = list all."
      [param "key" .string "Fact key (empty = list all)" false]
  | .sendMessage => toolDef "send_message"
      "Send a message to another agent, 'owner' (IRC), or 'all' (broadcast)."
      [param "to" .string "Recipient: agent name, 'owner', or 'all'" true,
       param "content" .string "Message content" true]
  | .listAgents => toolDef "list_agents" "List all agents with their status and specialty." []
  | .createPlugin => toolDef "create_plugin"
      ("Create a single-file C plugin. Source must include only " ++
       "\"tc_plugin.h\" and export TC_PLUGIN_NAME, TC_PLUGIN_DESC, " ++
       "TC_PLUGIN_SCHEMA, and tc_execute(const char *input_json). " ++
       "Compilation errors are returned for retry.")
      [param "name" .string "Plugin name, letters/digits/_ (e.g. 'weather')" true,
       param "code" .string "Complete C source code" true,
       param "test_input" .string
         ("Optional JSON object to run the plugin with " ++ "once compiled, e.g. \x7b\"city\":\"Paris\"\x7d") false]
  | .clearMemory => toolDef "clear_memory"
      "Clear an agent's memories and/or facts. Use agent='all' to clear every agent."
      [param "agent" .string "Agent name, or 'all' for every agent" true,
       choice "what" "What to clear (default 'both')" false "memory,facts,both"]

def toolFind (name : Str) : Option ToolId := ToolId.all.find? fun t => (tools t).name = name

def nameChar (c : UInt8) : Bool :=
  (ch 'a' ≤ c && c ≤ ch 'z') || (ch 'A' ≤ c && c ≤ ch 'Z') || (ch '0' ≤ c && c ≤ ch '9') || c = ch '_' || c = ch '-'

def toolNameValid (name : Str) : Bool := name.all nameChar && 0 < name.length && name.length ≤ 64

/-! ## Schemas -/

/-- `type_to_json_str`. -/
def typeName : ParamType → Str
  | .int => lit "integer"
  | .bool => lit "boolean"
  | .string => lit "string"

/-- The pieces `strtok_r` cuts at commas. -/
def commaPieces (s : Str) : List Str := (s.splitOn (ch ',')).filter (· ≠ [])

def Param.schema (p : Param) : Json :=
  .obj ([(lit "type", .str (typeName p.type)), (lit "description", .str p.description)] ++
    match p.choices with
    | some c => [(lit "enum", .arr ((commaPieces c).map .str))]
    | none => [])

def ToolDef.toJson (t : ToolDef) : Json :=
  .obj [(lit "name", .str t.name), (lit "description", .str t.desc),
    (lit "input_schema", .obj [(lit "type", .str (lit "object")),
      (lit "properties", .obj (t.params.map fun p => (p.name, p.schema))),
      (lit "required", .arr ((t.params.filter (·.required)).map fun p => .str p.name))])]

/-- The tools `tools_to_json` offers: a builder gets only what it needs. -/
def offered (isBuilder : Bool) (t : ToolId) : Bool :=
  if t = .createPlugin ∧ !isBuilder then false
  else !isBuilder || t = .readFile || t = .exec || t = .createPlugin || t = .sendMessage

def toolsToJson (isBuilder : Bool) : List Json := (ToolId.all.filter (offered isBuilder)).map fun t => (tools t).toJson

/-! ## Checking arguments -/

/-- `TC_BUF_SM`. -/
def bufSm : Nat := 256

/-- Whether a string is one of the choices: an infix of `,a,b,`. -/
def chosen (choices s : Str) : Bool :=
  s = [] || (strstr (cut (bufSm + 2) (lit "," ++ choices ++ lit ",")) (cut bufSm (lit "," ++ s ++ lit ","))).isSome

variable (J : CJson)

/-- One parameter: the arguments, rewritten where they are, and whether it is fine. -/
def checkParam (p : Param) (input : Json) : Json × Bool :=
  match input.getObjectItem p.name with
  | none => (input, !p.required)
  | some v =>
    if v.isNull then (input, !p.required)
    else
      match p.type with
      | .string =>
        let input := if (v.isObject || v.isArray) && p.choices.isNone then
          input.replaceItem p.name (.str (J.print v)) else input
        (input, match input.getObjectItem p.name with
          | some (.str s) => p.choices.all (chosen · s)
          | _ => false)
      | .int => (input, jInt input p.name intMin ≠ intMin)
      | .bool => (input, jBool input p.name (-1) ≠ -1)

/-- The loop of `tool_check_args`: the first problem stops it. -/
def checkParams : List Param → Json → Json × Option Str
  | [], input => (input, none)
  | p :: ps, input =>
    let r := checkParam J p input
    if r.2 then checkParams ps r.1
    else (r.1, some ((if (input.getObjectItem p.name).isSome then lit "invalid value for"
      else lit "missing required parameter") ++ lit " '" ++ p.name ++ lit "'"))

def paramUsage (p : Param) : Str :=
  p.name ++ lit ": " ++ typeName p.type ++ (p.choices.map (lit " one of " ++ ·)).getD [] ++
    if p.required then lit ", required" else []

def usage (t : ToolDef) (problem : Str) : Str :=
  lit "Error: " ++ problem ++ lit ". Usage: " ++ t.name ++ lit "(" ++
    (lit ", ").intercalate (t.params.map paramUsage) ++ lit ")"

/-- The arguments as the tool will see them, and the error. -/
def toolCheckArgs (t : ToolId) (input : Json) : Json × Option Str :=
  let r := checkParams J (tools t).params input
  (r.1, r.2.map (usage (tools t)))

/-! ## What the check leaves of the arguments -/

section Checked

variable {J}

/-- Another parameter stays as it is. -/
theorem checkParam_item {p : Param} {input : Json} {l : Str} (hne : strcaseeq p.name l = false) :
    (checkParam J p input).1.getObjectItem l = input.getObjectItem l := by
  unfold checkParam
  split
  · rfl
  split
  · rfl
  split
  · dsimp only
    split
    · rw [Json.getObjectItem_replaceItem, hne]
      rfl
    · rfl
  · rfl
  · rfl

theorem checkParam_other {p : Param} {input : Json} {l : Str} (hne : strcaseeq p.name l = false) :
    (checkParam J p input).1.jStr l = input.jStr l := by
  unfold Json.jStr
  rw [checkParam_item hne]

/-- A required text: the one given, or the JSON text of a value. -/
theorem checkParam_text {p : Param} {input : Json} (htype : p.type = .string) (hreq : p.required = true)
    (hok : (checkParam J p input).2 = true) :
    ∃ t, (checkParam J p input).1.jStr p.name = some t ∧ (input.jStr p.name = some t ∨
      input.jStr p.name = none ∧ (t.head? = some (ch '[') ∨ t.head? = some (ch '\x7b'))) := by
  unfold checkParam at hok ⊢
  simp only [htype, hreq] at hok ⊢
  cases hv : input.getObjectItem p.name with
  | none => simp [hv] at hok
  | some v =>
    have hset : ∀ v' : Json, (input.replaceItem p.name v').getObjectItem p.name = some v' := by
      intro v'
      rw [Json.getObjectItem_replaceItem, strcaseeq_refl, hv]
      rfl
    cases v with
    | str s => exact ⟨s, by simp [Json.isNull, Json.isObject, Json.isArray, Json.jStr, hv], .inl (by simp [Json.jStr, hv])⟩
    | arr xs =>
      cases hc : p.choices with
      | none =>
        exact ⟨J.print (.arr xs), by simp [Json.isNull, Json.isObject, Json.isArray, Json.jStr, hset],
          .inr ⟨by simp [Json.jStr, hv], .inl (J.print_arr xs)⟩⟩
      | some c => simp [hv, hc, Json.isNull, Json.isObject, Json.isArray] at hok
    | obj kvs =>
      cases hc : p.choices with
      | none =>
        exact ⟨J.print (.obj kvs), by simp [Json.isNull, Json.isObject, Json.isArray, Json.jStr, hset],
          .inr ⟨by simp [Json.jStr, hv], .inr (J.print_obj kvs)⟩⟩
      | some c => simp [hv, hc, Json.isNull, Json.isObject, Json.isArray] at hok
    | _ => simp [hv, Json.isNull, Json.isObject, Json.isArray] at hok

/-- Parameters with other names. -/
theorem checkParams_other {ps : List Param} {l : Str} : ∀ {input : Json}, (∀ p ∈ ps, strcaseeq p.name l = false) →
    (checkParams J ps input).1.jStr l = input.jStr l := by
  induction ps with
  | nil => intro input _; rfl
  | cons p ps ih =>
    intro input hne
    have hp : (checkParam J p input).1.jStr l = input.jStr l := checkParam_other (hne p List.mem_cons_self)
    unfold checkParams
    dsimp only
    split
    · exact (ih fun q hq => hne q (List.mem_cons_of_mem p hq)).trans hp
    · exact hp

/-- No two parameters have one name. -/
theorem params_distinct (t : ToolId) : (tools t).params.Pairwise fun p q => strcaseeq q.name p.name = false := by
  cases t <;> decide

/-- A required text is there when the check passes. -/
theorem checkParams_text {ps : List Param} : ∀ {input : Json}, (ps.Pairwise fun p q => strcaseeq q.name p.name = false) →
    (checkParams J ps input).2 = none → ∀ p ∈ ps, p.type = .string → p.required = true →
      ∃ text, (checkParams J ps input).1.jStr p.name = some text := by
  induction ps with
  | nil => intro input _ _ p hp; cases hp
  | cons p ps ih =>
    intro input hdistinct hok q hq htype hreq
    unfold checkParams at hok ⊢
    dsimp only at hok ⊢
    by_cases hp : (checkParam J p input).2 = true
    · rw [if_pos hp] at hok ⊢
      rcases List.mem_cons.mp hq with rfl | hq
      · obtain ⟨text, htext, -⟩ := checkParam_text htype hreq hp
        exact ⟨text, (checkParams_other (List.pairwise_cons.mp hdistinct).1).trans htext⟩
      · exact ih hdistinct.tail hok q hq htype hreq
    · rw [if_neg hp] at hok
      cases hok

/-- The required texts of arguments that passed their check. -/
theorem accepted_text {t : ToolId} {args input : Json} (h : toolCheckArgs J t args = (input, none)) (name : Str)
    (hname : ∃ p ∈ (tools t).params, p.name = name ∧ p.type = .string ∧ p.required = true) :
    ∃ text, input.jStr name = some text := by
  obtain ⟨p, hp, rfl, htype, hreq⟩ := hname
  unfold toolCheckArgs at h
  simp only [Prod.mk.injEq, Option.map_eq_none_iff] at h
  obtain ⟨rfl, hok⟩ := h
  exact checkParams_text (params_distinct t) hok p hp htype hreq

/-- The recipient of a `send_message` that passed its check. -/
theorem toolCheckArgs_to {args input : Json} (h : toolCheckArgs J .sendMessage args = (input, none)) :
    ∃ t, input.jStr (lit "to") = some t ∧ (args.jStr (lit "to") = some t ∨
      args.jStr (lit "to") = none ∧ (t.head? = some (ch '[') ∨ t.head? = some (ch '\x7b'))) := by
  unfold toolCheckArgs at h
  simp only [tools, toolDef, checkParams, Prod.mk.injEq] at h
  obtain ⟨rfl, h⟩ := h
  split at h
  · rename_i hto
    obtain ⟨t, ht, hargs⟩ := checkParam_text rfl rfl hto
    refine ⟨t, ?_, hargs⟩
    rw [if_pos hto]
    split <;> rw [checkParam_other (by decide)] <;> exact ht
  · cases h

end Checked

end Shclaw
