/-
  Shclaw.Agent.Session — one session of an agent (`src/agent.c`: `run_tool`,
  `repeated_call`, `builder_extract_code`, `after_text_reply`, `deliver_answer`,
  `agent_run_session`; `src/tools.c`: `agent_message`).

  What a session meets from outside is a `World`: the trigger, the conversation's id,
  the text of its opening turn, what the server answers at each turn, what each tool
  other than `send_message` returns, and what each inbox write draws. The rest is
  computed: the messages array, the harness state, the messages sent. `requests`
  collects the array passed to `llm_call` at each turn and `sent` every message that
  `agent_message` was asked to send.

  What the session shows on IRC, in the chat and in the session log is left out; no
  modelled function reads it. Allocations succeed.
-/

import Shclaw.Agent.History
import Shclaw.Agent.Trigger
import Shclaw.Provider.Response

namespace Shclaw.Agent

open Lib Messenger Provider

def bufLg : Nat := 4096

def bufXl : Nat := 32768

def maxTurnsDefault : Nat := 100

def convMax : Nat := 65536

/-! ## The agent and its world -/

/-- What the configuration fixes. -/
structure Config where
  name : Str
  isBuilder : Bool
  isHub : Bool
  maxTurns : Int
  historyBudget : Int
  kind : Kind
  /-- The owner conversation is kept (`agent->chat`). -/
  chat : Bool
  /-- The agents of the daemon, this one among them. -/
  registry : Registry
  known : name ∈ registry.names

/-- The messenger's table. -/
def Config.agents (A : Config) : List Str := A.registry.agents

/-- What one session meets. The oracles take the number of tool calls run before. -/
structure World where
  type : TriggerType
  data : Str
  thread : Str
  chatId : Nat
  seq : Nat
  opening : Str
  schemas : List Json
  http : Nat → Http
  rnds : Nat → Nat → Str
  exec : Nat → ToolId → Json → Str
  plugin : Nat → Str → Json → Option Str
  draws : Nat → Nat → Draw

/-- A message `agent_message` was asked to send. -/
structure Sent where
  /-- What `messenger_resolve` made of the recipient the model wrote. -/
  named : Option Str
  addressed : Option Str
  auto : Bool
  text : Str
  puts : List Put

/-- `session_state_t`. -/
structure State where
  builderRetryUsed : Bool := false
  hubRetryUsed : Bool := false
  emptyRetryUsed : Bool := false
  pluginDone : Bool := false
  pluginFailed : Bool := false
  sentMessage : Bool := false
  listedAgents : Bool := false
  blockedRepeats : Nat := 0
  sentTo : List Str := []
  notice : Str := []
  calls : List (UInt64 × Nat) := []

/-- A session under way. -/
structure Live where
  st : State
  messages : List Json
  answer : Option Str
  ran : Nat
  sent : List Sent
  requests : List (List Json)

variable (J : CJson)

/-! ## Tool calls -/

def isError (result : Str) : Bool := startsWith result (lit "Error")

def toolOffered (tools : List Json) (name : Str) : Bool := tools.any fun t => t.jStr (lit "name") = some name

/-- FNV-1a of the name, a separator and the arguments. -/
def callHash (name args : Str) : UInt64 :=
  let h := name.foldl (fun h c => (h ^^^ c.toUInt64) * 1099511628211) (1469598103934665603 : UInt64)
  args.foldl (fun h c => (h ^^^ c.toUInt64) * 1099511628211) (h * 1099511628211)

/-- `repeated_call`: the counts after it, and whether the call is over its limit. -/
def repeatedCall (calls : List (UInt64 × Nat)) (h : UInt64) (limit : Nat) : List (UInt64 × Nat) × Bool :=
  match calls.find? (·.1 = h) with
  | some c =>
    (calls.replaceF fun d => if d.1 = h then some (h, d.2 + 1) else none, decide (limit < c.2 + 1))
  | none => (if calls.length < 64 then calls ++ [(h, 1)] else calls, false)

def agentMessage (A : Config) (recipient : Option Str) (content : Str) (thread : Option Str) (reply : Bool)
    (draws : Nat → Draw) : Str × List Put :=
  if messengerResolve A.agents recipient = some (lit "owner") then (lit "Sent to owner.", [])
  else messengerSend A.agents recipient ⟨A.name, content, thread, reply⟩ draws

def unknownTool (tools : List Json) (name : Str) : Str :=
  lit "Error: unknown tool '" ++ name ++ lit "'. Available tools:" ++
    tools.flatMap fun t => lit " " ++ (t.jStr (lit "name")).getD []

def badArgs (name : Str) : Str :=
  lit "Error: the arguments of " ++ name ++
    lit " are not a valid JSON object. Call it again with a JSON object that matches its schema."

def repeatCall (name : Str) : Str :=
  lit "Error: " ++ name ++
    lit " was already called with these exact arguments. Use the earlier result, or do something else."

def pluginGone (name : Str) : Str := lit "Error: plugin '" ++ name ++ lit "' is no longer loaded"

/-- `send_message` with arguments that passed their check. A requester gets an answer. -/
def sendMessage (A : Config) (W : World) (trig : TriggerInfo) (named : Option Str) (input : Json) (ran : Nat) : Sent :=
  let content := (input.jStr (lit "content")).getD []
  if isRequester trig named then
    let r := agentMessage A named content (some W.thread) true (W.draws ran)
    ⟨named, named, false, r.1, r.2⟩
  else
    let r := agentMessage A (input.jStr (lit "to")) content none false (W.draws ran)
    ⟨named, input.jStr (lit "to"), false, r.1, r.2⟩

/-- `sent_to` after a `send_message` that succeeded. -/
def recordTo (sentTo : List Str) (named : Option Str) : List Str :=
  match named with
  | some name => if sentTo.length < 8 then sentTo ++ [cut 32 name] else sentTo
  | none => sentTo

/-- Whether a call counts as sent: `is_error` of its result. -/
def Sent.ok (s : Sent) : Bool := !isError (cut bufXl s.text)

/-- `sent_message` and `sent_to` after a `send_message`. -/
def noteSent (st : State) (s : Sent) : State :=
  if s.ok then { st with sentMessage := true, sentTo := recordTo st.sentTo s.named } else st

/-- A built-in tool. -/
def runBuiltin (A : Config) (W : World) (trig : TriggerInfo) (tid : ToolId) (input : Json) (l : Live) : Str × Live :=
  let named := if tid = .sendMessage then messengerResolve A.agents (input.jStr (lit "to")) else none
  match toolCheckArgs J tid input with
  | (_, some error) => (error, l)
  | (input, none) =>
    if tid = .sendMessage then
      let s := sendMessage A W trig named input l.ran
      (s.text, { l with st := noteSent l.st s, sent := l.sent ++ [s] })
    else (W.exec l.ran tid input, l)

/-- The call as far as its arguments are an object and it was not made too often. -/
def runOffered (A : Config) (W : World) (trig : TriggerInfo) (call : ToolCall) (input : Json) (l : Live) : Str × Live :=
  let limit := if A.isBuilder && toolFind call.name = some .readFile then 1 else 2
  let r := repeatedCall l.st.calls (callHash call.name (J.print input)) limit
  let l := { l with st := { l.st with calls := r.1 } }
  if r.2 then (repeatCall call.name, { l with st := { l.st with blockedRepeats := l.st.blockedRepeats + 1 } })
  else
    match toolFind call.name with
    | some tid => runBuiltin J A W trig tid input l
    | none => ((W.plugin l.ran call.name input).getD (pluginGone call.name), l)

def runTool (A : Config) (W : World) (trig : TriggerInfo) (tools : List Json) (call : ToolCall) (l : Live) : Str × Live :=
  let r := if !toolOffered tools call.name then (unknownTool tools call.name, l)
    else match J.parse call.inputJson with
      | some (.obj kvs) => runOffered J A W trig call (.obj kvs) l
      | _ => (badArgs call.name, l)
  (cut bufXl r.1, { r.2 with ran := r.2.ran + 1 })

def toolResult (id result : Str) : Json :=
  .obj ([(lit "type", .str (lit "tool_result")), (lit "tool_use_id", .str id), (lit "content", .str result)] ++
    if isError result then [(lit "is_error", .bool true)] else [])

/-- What the session notes of a call. -/
def noteCall (st : State) (name result : Str) : State :=
  let st := if name = lit "create_plugin" then
      if isError result then { st with pluginFailed := true }
      else { st with pluginFailed := false, pluginDone := true, notice := cut bufLg result }
    else st
  if name = lit "list_agents" then { st with listedAgents := true } else st

/-- The calls of one response, in order: their results and the session after them. -/
def runCalls (A : Config) (W : World) (trig : TriggerInfo) (tools : List Json) : List ToolCall → Live → List Json × Live
  | [], l => ([], l)
  | call :: calls, l =>
    let r := runTool J A W trig tools call l
    let l := { r.2 with st := noteCall r.2.st call.name r.1 }
    let rest := runCalls A W trig tools calls l
    (toolResult call.id r.1 :: rest.1, rest.2)

/-! ## Text replies -/

/-- The text from `cs` to the last brace after its first byte. -/
def toLastBrace (cs : Str) : Option Str :=
  match (cs.drop 1).reverse.dropWhile (· ≠ ch '\x7d') with
  | [] => none
  | t => some (cs.take (t.length + 1))

/-- The first fenced block, when it holds a plugin. -/
def fencedCode (text : Str) : Option Str :=
  (strstr text (lit "```")).bind fun fence =>
    (strchr (fence.drop 3) (ch '\n')).bind fun nl =>
      let cs := nl.drop 1
      (strstr cs (lit "\n```")).bind fun ce =>
        let code := cs.take (cs.length - ce.length)
        if code ≠ [] ∧ code.length < bufXl ∧ (strstr code (lit "tc_plugin.h")).isSome ∧
          (strstr code (lit "tc_execute")).isSome then some code else none

/-- Code that stands in the text as it is. -/
def rawCode (text : Str) : Option Str :=
  (strstr text (lit "#include \"tc_plugin.h\"")).bind fun cs =>
    if (strstr cs (lit "tc_execute")).isSome then toLastBrace cs else none

/-- The plugin's name and code, when the text holds a plugin. -/
def builderExtractCode (text : Str) : Option (Str × Str) :=
  if text = [] then none
  else
    ((fencedCode text).or (rawCode text)).bind fun code =>
      if code.length < bufXl then
        (strstr code (lit "TC_PLUGIN_NAME")).bind fun np =>
          (strchr np (ch '"')).bind fun q1 =>
            (strchr (q1.drop 1) (ch '"')).bind fun q2 =>
              let name := (q1.drop 1).take ((q1.drop 1).length - q2.length)
              if name ≠ [] ∧ name.length < 64 then some (name, code) else none
      else none

def builderNudge : Str :=
  lit "Do not narrate. Call create_plugin now with the complete, " ++
    lit "corrected code, or say in one sentence why you cannot."

def builderAutoFail (result : Str) : Str :=
  cut bufLg (lit "Auto-compilation failed:\n" ++ result.take 3000 ++ lit "\nCall create_plugin with corrected code.")

def hubNudge : Str :=
  lit "You called list_agents but did not call send_message. " ++
    lit "Do not narrate — call send_message now to delegate."

def emptyNudge : Str := lit "Your last reply was empty. Reply in text, or call a tool."

def builderStalled : Str := lit "Builder stalled: the plugin request ended without a working plugin."

/-- How a turn ends: the model is called again, or the session is over. -/
inductive Next where
  | again
  | done
  | failed
  deriving DecidableEq

/-- Queue a nudge. -/
def nudge (l : Live) (text : Str) (st : State) : Live × Next :=
  ({ l with st := st, messages := l.messages ++ [userText text] }, .again)

def stalled (l : Live) : Live × Next := ({ l with st := { l.st with notice := cut bufLg builderStalled } }, .failed)

/-- A builder's text reply without a plugin done. -/
def builderReply (W : World) (text : Str) (l : Live) : Live × Next :=
  match builderExtractCode text with
  | some (name, code) =>
    let input := .obj [(lit "name", .str name), (lit "code", .str code)]
    let result := cut bufLg (W.exec l.ran .createPlugin input)
    let l := { l with ran := l.ran + 1 }
    if !isError result then ({ l with st := { l.st with pluginDone := true, notice := cut bufLg result } }, .done)
    else if !l.st.builderRetryUsed then nudge l (builderAutoFail result) { l.st with builderRetryUsed := true }
    else stalled l
  | none =>
    if W.type ≠ .agentMsg ∧ !l.st.pluginFailed then (l, .done)
    else if !l.st.builderRetryUsed then nudge l builderNudge { l.st with builderRetryUsed := true }
    else stalled l

def afterTextReply (A : Config) (W : World) (text : Str) (l : Live) : Live × Next :=
  if A.isBuilder && !l.st.pluginDone then builderReply W text l
  else if A.isHub && l.st.listedAgents && !l.st.sentMessage && !l.st.hubRetryUsed then
    nudge l hubNudge { l.st with hubRetryUsed := true }
  else if text = [] && !l.st.emptyRetryUsed then nudge l emptyNudge { l.st with emptyRetryUsed := true }
  else (l, .done)

/-! ## A turn -/

/-- The reply's text blocks, thinking left out, one a line. -/
def replyText (r : Response) : Str :=
  (lit "\n").intercalate ((r.textBlocks.filter (·.type ≠ lit "thinking")).map (·.text))

def assistant (content : List Json) : Json :=
  .obj [(lit "role", .str (lit "assistant")), (lit "content", .arr content)]

def toolMessage (results : List Json) : Json := .obj [(lit "role", .str (lit "user")), (lit "content", .arr results)]

def refused : Str := lit "(the model declined to answer)"

def stuck : Str := lit "(stopped: the model kept repeating the same tool call)"

def trims (A : Config) : Bool := 0 < A.historyBudget && A.kind ≠ .anthropic

/-- The calls of a response, run, with their results in the history. -/
def toolTurn (A : Config) (W : World) (trig : TriggerInfo) (tools : List Json) (r : Response) (l : Live) : Live × Next :=
  let x := runCalls J A W trig tools r.toolCalls l
  let msgs := x.2.messages ++ [toolMessage x.1]
  let l : Live := { x.2 with messages := if trims A then trimHistory A.historyBudget.toNat msgs else msgs }
  if 3 ≤ l.st.blockedRepeats then ({ l with st := { l.st with notice := cut bufLg stuck } }, .failed) else (l, .again)

/-- What a response changes before its tools run. -/
def takeReply (r : Response) (l : Live) : Live :=
  { l with
    answer := if replyText r ≠ [] then some (replyText r) else l.answer
    messages := if r.content ≠ [] then l.messages ++ [assistant r.content] else l.messages }

def turnStep (A : Config) (W : World) (trig : TriggerInfo) (tools : List Json) (r : Response) (l : Live) : Live × Next :=
  let l := takeReply r l
  if r.toolCalls ≠ [] then toolTurn J A W trig tools r l
  else if r.stopReason = lit "refusal" then ({ l with st := { l.st with notice := cut bufLg refused } }, .done)
  else afterTextReply A W (replyText r) l

def llmError (e : Str) : Str := cut bufLg (lit "(LLM error: " ++ cut 256 e ++ lit ")")

def maxTurnsNotice (n : Nat) : Str := cut bufLg (lit "(stopped after " ++ decimal n ++ lit " turns without finishing)")

/-- The turns left; the session's outcome is whether it completed. -/
def turns (A : Config) (W : World) (trig : TriggerInfo) (tools : List Json) (max : Nat) : Nat → Live → Live × Bool
  | 0, l => ({ l with st := { l.st with notice := maxTurnsNotice max } }, true)
  | n + 1, l =>
    let turn := max - (n + 1)
    let l := { l with requests := l.requests ++ [l.messages] }
    match llmCall J A.kind (W.rnds turn) (W.http turn) with
    | .error e => ({ l with st := { l.st with notice := llmError e } }, false)
    | .ok r =>
      match turnStep J A W trig tools r l with
      | (l, .again) => turns A W trig tools max n l
      | (l, .done) => (l, true)
      | (l, .failed) => (l, false)

/-! ## The session -/

def failedAnswer (name : Str) : Str := cut 160 (lit "(" ++ name ++ lit " could not finish the request)")

def noAnswer (name : Str) : Str := cut 160 (lit "(" ++ name ++ lit " finished without an answer)")

/-- The text of the automatic answers. -/
def answerText (A : Config) (l : Live) (completed : Bool) : Str :=
  let answer := if l.st.notice = [] ∧ (l.answer.getD []) = [] then
    some (if completed then noAnswer A.name else failedAnswer A.name) else l.answer
  l.st.notice ++ (if l.st.notice ≠ [] ∧ answer.isSome then lit "\n" else []) ++ answer.getD []

/-- The automatic answer to one requester. -/
def autoAnswer (A : Config) (W : World) (msg : Str) (ran : Nat) (r : Str) : Sent :=
  let x := agentMessage A (some r) msg (some W.thread) true (W.draws ran)
  ⟨some r, some r, true, x.1, x.2⟩

/-- Answer the requesters that were not messaged. -/
def deliverAnswer (A : Config) (W : World) (trig : TriggerInfo) (completed : Bool) (l : Live) : Live :=
  { l with
    sent := l.sent ++ (trig.requesters.filter (· ∉ l.st.sentTo)).mapIdx fun i r =>
      autoAnswer A W (answerText A l completed) (l.ran + i) r }

/-- A kept conversation. -/
structure Conv where
  messages : List Json
  id : Nat
  seq : Nat

def lastRole (msgs : List Json) : Option Str := msgs.getLast?.bind (·.jStr (lit "role"))

def toolsOf (A : Config) (W : World) : List Json := toolsToJson A.isBuilder ++ W.schemas

def maxTurnsOf (A : Config) : Nat := if 0 < A.maxTurns then A.maxTurns.toNat else maxTurnsDefault

def convLimit (A : Config) : Nat := if 0 < A.historyBudget then A.historyBudget.toNat else convMax

/-- The kept conversation, when this session goes on with it. -/
def resumed (A : Config) (W : World) (conv : Option Conv) : Option Conv :=
  if (parseTrigger J W.type W.data).relay && A.chat then conv.filter (·.id = W.chatId) else none

/-- The history the session starts with. -/
def openingMessages (A : Config) (W : World) (conv : Option Conv) : List Json :=
  ((resumed J A W conv).map (·.messages)).getD [] ++ [userText W.opening]

/-- The conversation after a session: complete exchanges only, within the limit. -/
def keepConv (A : Config) (W : World) (talk completed : Bool) (msgs : List Json) (conv : Option Conv) : Option Conv :=
  let fit := convFit J (convLimit A) msgs
  if talk then
    if completed ∧ lastRole msgs = some (lit "assistant") ∧ fit.1 then some ⟨fit.2, W.chatId, W.seq⟩ else none
  else conv

/-- `agent_run_session`: the session at its end and the conversation kept after it. -/
def runSession (A : Config) (W : World) (conv : Option Conv) : Live × Bool × Option Conv :=
  let trig := parseTrigger J W.type W.data
  let x := turns J A W trig (toolsOf A W) (maxTurnsOf A) (maxTurnsOf A)
    ⟨{}, openingMessages J A W conv, none, 0, [], []⟩
  let l := if trig.requesters ≠ [] then deliverAnswer A W trig x.2 x.1 else x.1
  (l, x.2, keepConv J A W (trig.relay && A.chat) x.2 l.messages conv)

/-- Sessions one after the other: every request they made. -/
def runSessions (A : Config) : Option Conv → List World → List (List Json)
  | _, [] => []
  | conv, W :: Ws =>
    let r := runSession J A W conv
    r.1.requests ++ runSessions A r.2.2 Ws

/-! ## What one tool call can do -/

section Calls

variable {J : CJson} {A : Config} {W : World} {trig : TriggerInfo} {tools : List Json}

/-- The history and the requests of a session, which tool calls leave alone. -/
def Live.kept (l : Live) : List Json × List (List Json) := (l.messages, l.requests)

/-- The messages sent in a session and the recipients recorded. -/
def Live.talk (l : Live) : List Sent × List Str := (l.sent, l.st.sentTo)

/-- A `send_message` that passed its checks. -/
def Sends (J : CJson) (A : Config) (W : World) (trig : TriggerInfo) (ran : Nat) (s : Sent) : Prop :=
  ∃ kvs input, toolCheckArgs J .sendMessage (.obj kvs) = (input, none) ∧
    s = sendMessage A W trig (messengerResolve A.agents ((Json.obj kvs).jStr (lit "to"))) input ran

/-- `talk` after a message. -/
def addSent (talk : List Sent × List Str) (s : Sent) : List Sent × List Str :=
  (talk.1 ++ [s], if s.ok then recordTo talk.2 s.named else talk.2)

theorem noteSent_sentTo (st : State) (s : Sent) :
    (noteSent st s).sentTo = if s.ok then recordTo st.sentTo s.named else st.sentTo := by
  unfold noteSent
  split <;> rfl

theorem runBuiltin_cases (tid : ToolId) (kvs : List (Str × Json)) (l : Live) :
    (runBuiltin J A W trig tid (.obj kvs) l).2.kept = l.kept ∧
    ((runBuiltin J A W trig tid (.obj kvs) l).2.talk = l.talk ∨
      ∃ s, Sends J A W trig l.ran s ∧
        (runBuiltin J A W trig tid (.obj kvs) l).2.talk = addSent l.talk s) := by
  unfold runBuiltin
  dsimp only
  split
  · exact ⟨rfl, .inl rfl⟩
  rename_i input hcheck
  split
  · rename_i htid
    subst htid
    refine ⟨rfl, .inr ⟨_, ⟨kvs, input, hcheck, rfl⟩, ?_⟩⟩
    unfold Live.talk addSent
    rw [noteSent_sentTo]
  · exact ⟨rfl, .inl rfl⟩

theorem runOffered_cases (call : ToolCall) (kvs : List (Str × Json)) (l : Live) :
    (runOffered J A W trig call (.obj kvs) l).2.kept = l.kept ∧
    ((runOffered J A W trig call (.obj kvs) l).2.talk = l.talk ∨
      ∃ s, Sends J A W trig l.ran s ∧
        (runOffered J A W trig call (.obj kvs) l).2.talk = addSent l.talk s) := by
  unfold runOffered
  dsimp only
  generalize repeatedCall l.st.calls (callHash call.name (J.print (.obj kvs)))
    (if (A.isBuilder && decide (toolFind call.name = some .readFile)) = true then 1 else 2) = r
  split
  · exact ⟨rfl, .inl rfl⟩
  split
  · rename_i tid _
    exact runBuiltin_cases tid kvs { l with st := { l.st with calls := r.1 } }
  · exact ⟨rfl, .inl rfl⟩

theorem runTool_cases (call : ToolCall) (l : Live) :
    (runTool J A W trig tools call l).2.kept = l.kept ∧
    ((runTool J A W trig tools call l).2.talk = l.talk ∨
      ∃ s, Sends J A W trig l.ran s ∧
        (runTool J A W trig tools call l).2.talk = addSent l.talk s) := by
  unfold runTool
  dsimp only
  split
  · exact ⟨rfl, .inl rfl⟩
  split
  · exact runOffered_cases call _ l
  · exact ⟨rfl, .inl rfl⟩

theorem runCalls_kept (calls : List ToolCall) (l : Live) : (runCalls J A W trig tools calls l).2.kept = l.kept := by
  induction calls generalizing l with
  | nil => rfl
  | cons call calls ih =>
    unfold runCalls
    exact (ih _).trans (runTool_cases call l).1

/-- A text reply neither sends a message nor makes a request. -/
theorem afterTextReply_frame (text : Str) (l : Live) :
    (afterTextReply A W text l).1.talk = l.talk ∧ (afterTextReply A W text l).1.requests = l.requests := by
  unfold afterTextReply builderReply
  dsimp only
  repeat' split
  all_goals exact ⟨rfl, rfl⟩

theorem turnStep_talk {P : List Sent × List Str → Prop}
    (hstep : ∀ talk ran s, P talk → Sends J A W trig ran s → P (addSent talk s)) (r : Response) {l : Live} (h : P l.talk) :
    P (turnStep J A W trig tools r l).1.talk := by
  have hcalls : ∀ (calls : List ToolCall) (l : Live), P l.talk → P (runCalls J A W trig tools calls l).2.talk := by
    intro calls
    induction calls with
    | nil => exact fun _ h => h
    | cons call calls ih =>
      intro l h
      unfold runCalls
      apply ih
      have hnote : ∀ (l : Live) (name result : Str), { l with st := noteCall l.st name result }.talk = l.talk := by
        intro l name result
        unfold Live.talk noteCall
        dsimp only
        repeat' split
        all_goals rfl
      rw [hnote]
      rcases (runTool_cases call l).2 with htalk | ⟨s, hs, htalk⟩
      · rw [htalk]
        exact h
      · rw [htalk]
        exact hstep _ _ s h hs
  unfold turnStep toolTurn
  dsimp only
  split
  · have := hcalls r.toolCalls (takeReply r l) h
    split <;> exact this
  · split
    · exact h
    · rw [(afterTextReply_frame (replyText r) _).1]
      exact h

/-- What every message sent keeps, the turns of a session keep. -/
theorem turns_talk {P : List Sent × List Str → Prop}
    (hstep : ∀ talk ran s, P talk → Sends J A W trig ran s → P (addSent talk s)) (tools : List Json) (max n : Nat)
    {l : Live} (h : P l.talk) : P (turns J A W trig tools max n l).1.talk := by
  induction n generalizing l with
  | zero => exact h
  | succ n ih =>
    unfold turns
    dsimp only
    split
    · exact h
    rename_i r _
    have hturn : P (turnStep J A W trig tools r { l with requests := l.requests ++ [l.messages] }).1.talk :=
      turnStep_talk hstep r h
    split
    all_goals rename_i heq; rw [heq] at hturn
    · exact ih hturn
    · exact hturn
    · exact hturn

end Calls

/-- The messages of a session: those of its turns and the automatic answers. -/
theorem runSession_sent (J : CJson) (A : Config) (W : World) (conv : Option Conv) (P : List Sent × List Str → Prop)
    (hinit : P ([], []))
    (hstep : ∀ talk ran s, P talk → Sends J A W (parseTrigger J W.type W.data) ran s → P (addSent talk s)) :
    ∃ sent sentTo msg ran, P (sent, sentTo) ∧ (runSession J A W conv).1.sent = sent ++
      ((parseTrigger J W.type W.data).requesters.filter (· ∉ sentTo)).mapIdx fun i r => autoAnswer A W msg (ran + i) r := by
  unfold runSession
  dsimp only
  generalize hx : turns J A W (parseTrigger J W.type W.data) (toolsOf A W) (maxTurnsOf A) (maxTurnsOf A)
    ⟨{}, openingMessages J A W conv, none, 0, [], []⟩ = x
  have hP : P x.1.talk := by
    rw [← hx]
    exact turns_talk hstep _ _ _ hinit
  refine ⟨x.1.sent, x.1.st.sentTo, answerText A x.1 x.2, x.1.ran, hP, ?_⟩
  split
  · rfl
  · rename_i hnone
    rw [not_not.mp hnone]
    exact (List.append_nil _).symm

end Shclaw.Agent
