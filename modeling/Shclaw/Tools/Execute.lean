/-
  Shclaw.Tools.Execute — what each tool does (`src/tools.c`: `execute_tool`,
  `agent_message`, `find_peer`, `clear_agent`; `src/tool_exec.c`: `tool_exec_cmd`).

  A tool works on the `Daemon`: the agents' schedules, facts and memories, the
  messenger's table, the plugins, the files and what was said on IRC. What the system
  answers while it runs is a `Moment`. A C string that a callee tests before it reads it
  is handed over as it is; one that is read untested goes through `deref`, so a call
  stops at the first null pointer read.

  `accepted_returns`: with arguments that passed their check every tool returns.

  Texts are whole where the caller's buffer cuts them; the buffer's size matters to
  `exec` and `read_file`, which plan with it.
-/

import Shclaw.Memory.Search
import Shclaw.Plugin.Create
import Shclaw.Stores
import Shclaw.Tools.Pointers

namespace Shclaw.Tools

open Lib Scheduler Memory Messenger Stores

/-! ## The daemon -/

/-- What of an `agent_ctx_t` the tools use. -/
structure AgentCtx where
  name : Str
  specialty : Str
  busy : Bool
  /-- `scheduler.path`. -/
  schedulePath : Str
  schedule : File
  facts : Option Str
  memory : Log

/-- The daemon as one agent's tools find it: `self` is the agent among its peers. -/
structure Daemon where
  before : List AgentCtx
  self : AgentCtx
  after : List AgentCtx
  /-- The messenger's table. -/
  agents : List Str
  plugins : Plugin.Registry
  sources : Plugin.Disk
  files : Str → Option Str
  /-- What `irc_reply` was given, the oldest first: who says what. -/
  said : List (Str × Str)
  puts : List Put

def Daemon.peers (d : Daemon) : List AgentCtx := d.before ++ d.self :: d.after

inductive ExitStatus where
  | timedOut
  | exited (code : Nat)
  | signalled (signal : Nat)

/-- The child of a shell command: all it prints, and how it ends. -/
inductive Child where
  | noPipe
  | noFork
  | ran (output : Str) (status : ExitStatus)

/-- What the system answers while a tool runs. -/
structure Moment where
  zone : Zone
  /-- `time(NULL)` in `execute_tool`. -/
  asked : Int
  /-- `time(NULL)` in what it calls. -/
  now : Int
  /-- `uuid_short`. -/
  id : Str
  /-- A file is replaced. -/
  saved : Bool
  append : Append
  /-- `fseek` succeeds. -/
  seeks : Bool
  errno : Str
  shell : Str → Int → Child
  draws : Nat → Draw
  plugin : Plugin.Chance

/-! ## Shell commands -/

def toolTimeout : Int := 30

def toolTimeoutMax : Int := 3600

def toolOutputMax : Nat := 10240

def emptyOutputMarker : Str := lit "[empty output]"

def statusNote (timeout : Int) : ExitStatus → Str
  | .timedOut => lit "\n[TIMEOUT after " ++ paddedInt 1 timeout ++ lit "s]"
  | .exited code => if code ≠ 0 then lit "\n[exit " ++ decimal code ++ lit "]" else []
  | .signalled signal => lit "\n[killed by signal " ++ decimal signal ++ lit "]"

def toolExecCmd (outSz : Nat) (shell : Str → Int → Child) (cmd : Option Str) (timeout : Int) : Str :=
  if outSz < 256 then []
  else
    match cmd with
    | some (c :: cmd) =>
      let timeout := min (if timeout ≤ 0 then toolTimeout else timeout) toolTimeoutMax
      match shell (c :: cmd) timeout with
      | .noPipe => lit "Error: pipe() failed"
      | .noFork => lit "Error: fork() failed"
      | .ran output status =>
        -- room for the notes
        let kept := output.take (min (outSz - 128) toolOutputMax)
        let dropped := output.length - kept.length
        let text := kept ++
          (if dropped ≠ 0 then lit "\n[output truncated: " ++ decimal dropped ++ lit " more bytes]" else []) ++
          statusNote timeout status
        cstr (cut outSz (if text = [] then emptyOutputMarker else text))
    | _ => lit "Error: empty command"

/-! ## Files -/

def readFile (outSz : Nat) (m : Moment) (files : Str → Option Str) (path : Str) (offset limit : Nat) : Str :=
  match files path with
  | none => lit "Error: cannot open " ++ path ++ lit ": " ++ m.errno
  | some text =>
    if 0 < offset ∧ m.seeks = false then lit "Error: cannot seek " ++ path
    else
      let limit := min (min limit Agent.bufXl) (outSz - 160)
      let page := (text.drop offset).take limit
      if page.contains 0 then lit "Error: " ++ path ++ lit " is a binary file"
      else if offset + page.length < text.length then
        cut outSz (page ++ lit "\n[truncated: call read_file with offset=" ++ decimal (offset + page.length) ++ lit " for more]")
      else if page = [] then emptyOutputMarker
      else page

def Daemon.writeFile (d : Daemon) (path text : Str) : Daemon :=
  { d with files := fun p => if p = path then some text else d.files p }

def cannotWrite (m : Moment) (path : Str) : Str := lit "Error: cannot write " ++ path ++ lit ": " ++ m.errno

def wrote (path content : Str) : Str := lit "Written " ++ decimal content.length ++ lit " bytes to " ++ path

/-- `execute_tool(TOOL_WRITE_FILE)`. -/
def writeFile (input : Json) (m : Moment) (d : Daemon) : Ran (Daemon × Str) := do
  let content := input.jStr (lit "content")
  -- `mkdirs_for`
  let path ← deref (input.jStr (lit "path"))
  if jBool input (lit "append") 0 ≠ 0 then
    match m.append with
    | .unopened => .ok (d, cannotWrite m path)
    | .failed n => do
      let content ← deref content
      .ok (d.writeFile path ((d.files path).getD [] ++ content.take n), cannotWrite m path)
    | .wrote => do
      let content ← deref content
      .ok (d.writeFile path ((d.files path).getD [] ++ content), wrote path content)
  else do
    let content ← deref content
    if m.saved then .ok (d.writeFile path content, wrote path content) else .ok (d, cannotWrite m path)

/-! ## Tasks -/

/-- `run_at` of the dispatch: a delay comes before a date. -/
def startText (m : Moment) (input : Json) : Option Str :=
  let minutes := jInt input (lit "in_minutes") 0
  if 0 < minutes then some (formatTime m.zone (m.asked + minutes * 60) false) else input.jStr (lit "run_at")

variable (J : CJson)

/-- `execute_tool` of the two tools that schedule. -/
def schedule (recurring : Bool) (input : Json) (m : Moment) (d : Daemon) : Ran (Daemon × Str) :=
  if jInt input (lit "in_minutes") 0 ≤ 0 ∧ given (input.jStr (lit "run_at")) = false then
    .ok (d, lit "Error: give in_minutes (e.g. 5) or run_at")
  else do
    let r ← readSchedAdd J m.zone d.self.schedulePath m.now m.id m.saved (startText m input)
      (input.jStr (lit "description")) (input.jStr (lit "prompt"))
      (if recurring then input.jStr (lit "interval") else none) d.self.schedule
    .ok ({ d with self := { d.self with schedule := r.1 } }, r.2)

/-! ## Agents -/

/-- `irc_reply`. -/
def Daemon.say (d : Daemon) (agent text : Str) : Daemon :=
  if text = [] then d else { d with said := d.said ++ [(agent, text)] }

def agentMessage (m : Moment) (d : Daemon) (recipient : Option Str) (content : Str) (thread : Option Str) (reply : Bool) :
    Ran (Daemon × Str) :=
  let name := messengerResolve d.agents recipient
  if name = some (lit "owner") then .ok (d.say d.self.name content, lit "Sent to owner.")
  else
    let r := messengerSend d.agents recipient ⟨d.self.name, content, thread, reply⟩ m.draws
    let d := { d with puts := d.puts ++ r.2 }
    if startsWith r.1 (lit "Error") then .ok (d, r.1)
    else do
      -- `name ? name : to`
      let shown ← deref (name.or recipient)
      .ok (d.say (cut 96 (d.self.name ++ lit " => " ++ shown)) content, r.1)

def agentLine (isSelf : Bool) (a : AgentCtx) : Str :=
  lit "- " ++ a.name ++ (if isSelf then lit " (you)" else []) ++
    (if a.specialty ≠ [] then lit " — " ++ a.specialty else []) ++ (if !isSelf && a.busy then lit " [busy]" else []) ++ lit "\n"

def listAgents (d : Daemon) : Str :=
  lit "Agents:\n" ++ d.before.flatMap (agentLine false) ++ agentLine true d.self ++ d.after.flatMap (agentLine false)

def clearAgent (mem facts : Bool) (a : AgentCtx) : AgentCtx :=
  { a with memory := if mem then memoryClear else a.memory, facts := if facts then none else a.facts }

def Daemon.onPeers (d : Daemon) (g : AgentCtx → AgentCtx) : Daemon :=
  { d with before := d.before.map g, self := g d.self, after := d.after.map g }

/-- `strcasecmp(peer->name, name) == 0`. -/
def isPeer (name : Str) (a : AgentCtx) : Bool := strcaseeq a.name name

/-- What `find_peer` finds is changed. -/
def Daemon.onPeer (d : Daemon) (name : Str) (g : AgentCtx → AgentCtx) : Daemon :=
  let first := fun a => if isPeer name a then some (g a) else none
  if d.before.any (isPeer name) then { d with before := d.before.replaceF first }
  else if isPeer name d.self then { d with self := g d.self }
  else { d with after := d.after.replaceF first }

/-- `execute_tool(TOOL_CLEAR_MEMORY)`. -/
def clearMemory (input : Json) (d : Daemon) : Ran (Daemon × Str) := do
  let what := ((input.jStr (lit "what")).filter (· ≠ [])).getD (lit "both")
  let mem := what ≠ lit "facts"
  let facts := what ≠ lit "memory"
  let agent ← deref (input.jStr (lit "agent"))
  if agent = lit "all" then
    .ok (d.onPeers (clearAgent mem facts),
      lit "Cleared " ++ what ++ lit " for " ++ decimal d.peers.length ++ lit " agents.")
  else
    match d.peers.find? (isPeer agent) with
    | none => .ok (d, lit "Error: unknown agent '" ++ agent ++ lit "'")
    | some a => .ok (d.onPeer agent (clearAgent mem facts), lit "Cleared " ++ what ++ lit " for " ++ a.name ++ lit ".")

/-! ## The dispatch -/

variable (T : Plugin.Tcc) (R : CJsonReader)

/-- `execute_tool(TOOL_CREATE_PLUGIN)`. Without a code it is the file that is built, and the null
    pointer is read when that succeeds. -/
def createPlugin (input : Json) (m : Moment) (d : Daemon) : Ran (Daemon × Str) := do
  let name ← deref (input.jStr (lit "name"))
  if toolNameValid (Plugin.pluginName name) = false then .ok (d, Plugin.invalidName (Plugin.pluginName name))
  else do
    let code ← deref (input.jStr (lit "code"))
    let r := Plugin.createPlugin T R m.plugin d.plugins d.sources name code (input.jStr (lit "test_input"))
    .ok ({ d with plugins := r.1, sources := r.2.1 }, r.2.2)

def executeTool (outSz : Nat) (tid : ToolId) (input : Json) (m : Moment) (d : Daemon) : Ran (Daemon × Str) :=
  let J := R.toCJson
  let arg := fun name => input.jStr (lit name)
  let onSelf := fun (a : AgentCtx) (text : Str) => ({ d with self := a }, text)
  match tid with
  | .exec => .ok (d, toolExecCmd outSz m.shell (arg "command") (jInt input (lit "timeout") toolTimeout))
  | .readFile =>
    let offset := jInt input (lit "offset") 0
    let limit := jInt input (lit "limit") Agent.bufXl
    if offset < 0 then .ok (d, lit "Error: offset must be >= 0")
    else if limit ≤ 0 then .ok (d, lit "Error: limit must be > 0")
    else do
      let path ← deref (arg "path")
      .ok (d, readFile outSz m d.files path offset.toNat limit.toNat)
  | .writeFile => writeFile input m d
  | .scheduleTask => schedule J false input m d
  | .scheduleRecurring => schedule J true input m d
  | .listTasks => .ok (d, schedList J m.zone d.self.schedulePath d.self.schedule)
  | .updateTask => do
    let r ← readSchedUpdate J m.zone d.self.schedulePath m.now m.saved (arg "task_id") (arg "run_at") (arg "description")
      (arg "prompt") (arg "interval") d.self.schedule
    .ok (onSelf { d.self with schedule := r.1 } r.2)
  | .cancelTask => do
    let r ← readSchedCancel J d.self.schedulePath m.saved (arg "task_id") d.self.schedule
    .ok (onSelf { d.self with schedule := r.1 } r.2)
  | .remember =>
    let r := memoryAdd J ⟨arg "content", arg "category", jInt input (lit "importance") 5, arg "tags", m.id,
      formatTime m.zone m.now false⟩ m.append d.self.memory
    .ok (onSelf { d.self with memory := r.1 } r.2)
  | .recall =>
    .ok (onSelf { d.self with memory := memorySearch J d.self.memory }
      (searchText J (arg "query") (jInt input (lit "n") 20) d.self.memory))
  | .setFact =>
    let r := factsSet J m.saved (arg "key") (arg "value") d.self.facts
    .ok (onSelf { d.self with facts := r.1 } r.2)
  | .getFact => .ok (d, factsGet J (arg "key") d.self.facts)
  | .sendMessage => do
    -- `send_one` and `irc_reply` would take a message without a content
    let content ← deref (arg "content")
    agentMessage m d (arg "to") content none false
  | .listAgents => .ok (d, listAgents d)
  | .createPlugin => createPlugin T R input m d
  | .clearMemory => clearMemory input d

/-! ## Every accepted call returns -/

section Accepted

variable {T R} {J : CJson} {m : Moment} {d : Daemon} {args input : Json}

/-- A required text is read without a fault. -/
theorem deref_accepted {tid : ToolId} (h : toolCheckArgs J tid args = (input, none)) (name : Str)
    (hname : ∃ p ∈ (tools tid).params, p.name = name ∧ p.type = .string ∧ p.required = true) :
    ∃ text, deref (input.jStr name) = .ok text := by
  obtain ⟨text, htext⟩ := accepted_text h name hname
  exact ⟨text, by rw [htext, deref_some]⟩

/-- The recipient of a message is read when there is one: a message that was sent had a name. -/
theorem agentMessage_returns (recipient : Str) (content : Str) (thread : Option Str) (reply : Bool) :
    ∃ r, agentMessage m d (some recipient) content thread reply = .ok r := by
  unfold agentMessage
  dsimp only
  split
  · exact ⟨_, rfl⟩
  split
  · exact ⟨_, rfl⟩
  · cases messengerResolve d.agents (some recipient) <;> exact ⟨_, rfl⟩

theorem writeFile_returns (h : toolCheckArgs J .writeFile args = (input, none)) : ∃ r, writeFile input m d = .ok r := by
  obtain ⟨path, hpath⟩ := deref_accepted h (lit "path") (by decide)
  obtain ⟨content, hcontent⟩ := deref_accepted h (lit "content") (by decide)
  unfold writeFile
  simp only [hpath, hcontent, ok_bind]
  split
  · split <;> exact ⟨_, rfl⟩
  · split <;> exact ⟨_, rfl⟩

/-- Scheduling never reads a null pointer. -/
theorem schedule_returns (J : CJson) (recurring : Bool) (input : Json) : ∃ r, schedule J recurring input m d = .ok r := by
  unfold schedule
  split
  · exact ⟨_, rfl⟩
  · obtain ⟨r, hr⟩ := Option.isSome_iff_exists.mp (schedAdd_isSome J m.zone d.self.schedulePath m.now m.id m.saved
      (startText m input) (input.jStr (lit "description")) (input.jStr (lit "prompt"))
      (if recurring then input.jStr (lit "interval") else none) d.self.schedule)
    rw [readSchedAdd_eq, hr]
    exact ⟨_, rfl⟩

theorem clearMemory_returns (h : toolCheckArgs J .clearMemory args = (input, none)) : ∃ r, clearMemory input d = .ok r := by
  obtain ⟨agent, hagent⟩ := deref_accepted h (lit "agent") (by decide)
  unfold clearMemory
  simp only [hagent, ok_bind]
  split
  · exact ⟨_, rfl⟩
  · split <;> exact ⟨_, rfl⟩

theorem createPlugin_returns (h : toolCheckArgs J .createPlugin args = (input, none)) :
    ∃ r, createPlugin T R input m d = .ok r := by
  obtain ⟨name, hname⟩ := deref_accepted h (lit "name") (by decide)
  obtain ⟨code, hcode⟩ := deref_accepted h (lit "code") (by decide)
  unfold createPlugin
  simp only [hname, hcode, ok_bind]
  split <;> exact ⟨_, rfl⟩

end Accepted

/-- With arguments that passed their check a tool returns: it reads no null pointer. -/
theorem accepted_returns (outSz : Nat) (tid : ToolId) (args input : Json) (m : Moment) (d : Daemon)
    (h : toolCheckArgs R.toCJson tid args = (input, none)) : ∃ r, executeTool T R outSz tid input m d = .ok r := by
  match tid, h with
  | .exec, _ => exact ⟨_, rfl⟩
  | .readFile, h =>
    obtain ⟨path, hpath⟩ := deref_accepted h (lit "path") (by decide)
    unfold executeTool
    dsimp only
    rw [hpath]
    split
    · exact ⟨_, rfl⟩
    · split <;> exact ⟨_, rfl⟩
  | .writeFile, h => exact writeFile_returns h
  | .scheduleTask, _ => exact schedule_returns R.toCJson false input
  | .scheduleRecurring, _ => exact schedule_returns R.toCJson true input
  | .listTasks, _ => exact ⟨_, rfl⟩
  | .updateTask, _ =>
    obtain ⟨r, hr⟩ := Option.isSome_iff_exists.mp (schedUpdate_isSome R.toCJson m.zone d.self.schedulePath m.now m.saved
      (input.jStr (lit "task_id")) (input.jStr (lit "run_at")) (input.jStr (lit "description"))
      (input.jStr (lit "prompt")) (input.jStr (lit "interval")) d.self.schedule)
    unfold executeTool
    dsimp only
    rw [readSchedUpdate_eq, hr]
    exact ⟨_, rfl⟩
  | .cancelTask, _ =>
    unfold executeTool
    dsimp only
    rw [readSchedCancel_eq]
    exact ⟨_, rfl⟩
  | .remember, _ => exact ⟨_, rfl⟩
  | .recall, _ => exact ⟨_, rfl⟩
  | .setFact, _ => exact ⟨_, rfl⟩
  | .getFact, _ => exact ⟨_, rfl⟩
  | .sendMessage, h =>
    obtain ⟨recipient, hrecipient⟩ := accepted_text h (lit "to") (by decide)
    obtain ⟨content, hcontent⟩ := deref_accepted h (lit "content") (by decide)
    unfold executeTool
    dsimp only
    rw [hcontent, hrecipient]
    exact agentMessage_returns recipient content none false
  | .listAgents, _ => exact ⟨_, rfl⟩
  | .createPlugin, h => exact createPlugin_returns h
  | .clearMemory, h => exact clearMemory_returns h

/-- A plugin call that finds a clock and nothing else. -/
def noPlugins : Plugin.Chance := ⟨0, none, false, false, [], 0, false, false, fun _ _ => []⟩

/-- A moment at which every write succeeds. -/
def calm (now : Int) : Moment :=
  ⟨Zone.utc, now, now, lit "1b2c3d4e", true, .wrote, true, [], fun _ _ => .noPipe, fun _ => ⟨[], [], true⟩, noPlugins⟩

/-- A daemon of one agent. -/
def alone : Daemon :=
  ⟨[], ⟨lit "hub", [], false, lit "scheduler.json", none, none, ⟨none, none⟩⟩, [], [lit "owner", lit "hub"],
    Plugin.Registry.empty [], fun _ => none, fun _ => none, [], []⟩

/-- A path in capitals that is an object, then one that is a number. -/
def twoPaths : Json := .obj [(lit "PATH", .obj [(lit "a", .num 1 0)]), (lit "path", .num 5 0)]

theorem accepted_returns_nested : ∃ r, executeTool (fun _ => ([], none)) CJsonReader.compact 32768 .readFile
    (.obj [(lit "path", .str (lit "\x7b\"a\":1\x7d")), (lit "path", .num 5 0)]) (calm 0) alone = .ok r :=
  accepted_returns _ _ 32768 .readFile twoPaths _ (calm 0) alone (by rfl)

end Shclaw.Tools
