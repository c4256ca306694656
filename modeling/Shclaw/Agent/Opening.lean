/-
  Shclaw.Agent.Opening — the turn a session opens with (`src/agent.c`: `render_trigger`,
  `format_now`, `build_first_turn`, `build_next_turn`, and their use in
  `agent_run_session`; texts from `include/prompt.h`).

  Each text is built in a buffer whose size is computed beforehand: from the JSON the
  trigger came as, from the text it was rendered to, from the number of chat lines.
  `opening_whole`: no size is too small, whatever the stores, the trigger and the log hold.
-/

import Shclaw.Agent.Trigger
import Shclaw.Chat.Log
import Shclaw.Lib.Buffer
import Shclaw.Memory.Search
import Shclaw.Stores

namespace Shclaw.Agent

open Lib Messenger

/-! ## The trigger -/

def promptTaskDue (desc : Str) : Str :=
  lit "It is time for a task you scheduled earlier: " ++ desc ++
    lit "\nDo it now (for a reminder: remind the owner in text). " ++ lit "It must not be scheduled again."

def promptInstructions (prompt : Str) : Str := lit "\nInstructions: " ++ prompt

/-- `PROMPT_REPLY_FROM` or `PROMPT_MESSAGE_FROM`. -/
def promptFrom (reply : Bool) (sender content : Str) : Str :=
  (if reply then lit "Answer from " else lit "Message from ") ++ sender ++ lit ":\n" ++ content

/-- One item of the array, in a buffer of `cap` bytes. -/
def renderItem (type : TriggerType) (cap : Nat) (out : Str) (it : Json) : Str :=
  let out := if out ≠ [] then appendf cap out (lit "\n\n") else out
  if type = .schedule then
    let out := appendf cap out (promptTaskDue ((it.jStr (lit "description")).getD []))
    match it.jStr (lit "prompt") with
    | some (c :: prompt) => appendf cap out (promptInstructions (c :: prompt))
    | _ => out
  else
    appendf cap out (promptFrom (isReply it) ((it.jStr (lit "from")).getD (lit "?")) ((it.jStr (lit "content")).getD []))

def renderTrigger (J : CJson) (type : TriggerType) (data : Option Str) : Str :=
  match data with
  | none | some [] => lit "(empty message)"
  | some (c :: data) =>
    match (if type = .irc then none else J.parse (c :: data)) with
    | some (.arr xs) => xs.foldl (renderItem type ((c :: data).length + 256 * (xs.length + 1))) []
    | _ => c :: data

/-! ## The turn -/

def triggerTypeStr : TriggerType → Str
  | .irc => lit "irc"
  | .schedule => lit "schedule"
  | .agentMsg => lit "agent_message"

def formatNow (Z : Scheduler.Zone) (t : Int) : Str :=
  let utc := Scheduler.formatTime Z t false
  let loc := Scheduler.formatTime Z t true
  if startsWith utc loc then cut 96 utc else cut 96 (loc ++ lit " local time (UTC: " ++ utc ++ lit ")")

def promptCommDirect : Str :=
  lit "## Communication\n" ++ lit "To REPLY TO THE OWNER: respond directly in text.\n" ++
    lit "To contact ANOTHER AGENT: use send_message.\n" ++
    lit "Do NOT use send_message(to='owner') — it is redundant.\n\n"

def promptCommAgentReply : Str :=
  lit "## Communication (answer from another agent)\n" ++
    lit "This answers a request you sent earlier. " ++ lit "Give the owner the result " ++ lit "in text, then stop.\n" ++
    lit "- Do NOT reply to that agent or thank it.\n\n"

def promptCommAgentMsg : Str :=
  lit "## Communication (request from another agent)\n" ++
    lit "Another agent asked you something. " ++ lit "Do it, then answer in text: " ++
    lit "your final text reply is sent back " ++ lit "to it automatically.\n" ++
    lit "- Use send_message only to involve " ++ lit "a third agent.\n" ++
    lit "- NEVER send acknowledgments like " ++ lit "\"OK\", \"Received\", \"Done\". " ++
    lit "These trigger unnecessary work.\n\n"

def promptIrcFormat : Str :=
  lit "## IRC Output Format\n" ++
    lit "You are an IRC assistant. " ++ lit "Your text reply is relayed to a chat channel.\n" ++
    lit "Hard rule: fit your answer on ONE short line " ++ lit "whenever possible " ++ lit "(<= 200 chars, no newline).\n" ++
    lit "- No bullet lists, no headings, " ++ lit "no markdown, no code blocks.\n" ++
    lit "- One concise sentence beats a paragraph.\n" ++
    lit "- If the answer truly needs more, " ++ lit "split into the fewest possible " ++
    lit "short lines (each still standalone).\n" ++
    lit "- Drop greetings, sign-offs, " ++ lit "and 'let me know if...' filler.\n\n"

def commRules (type : TriggerType) (trig : TriggerInfo) : Str :=
  if type ≠ .agentMsg then promptCommDirect else if trig.replyBatch then promptCommAgentReply else promptCommAgentMsg

def orNone (s : Str) : Str := if s ≠ [] then s else lit "None.\n"

def headerText (type : TriggerType) : Str := lit "## Trigger\nType: " ++ triggerTypeStr type ++ lit "\n\n"

def nowText (now : Str) : Str := lit "## Now\n" ++ now ++ lit "\n\n"

/-- `PROMPT_FIRST_TURN_FMT`. -/
def firstTurnText (type : TriggerType) (trig : TriggerInfo) (facts schedule memories channel now message : Str) : Str :=
  headerText type ++ commRules type trig ++ (if trig.relay then promptIrcFormat else []) ++
    (lit "## Facts\n" ++ orNone facts ++ lit "\n") ++ (lit "## Scheduled tasks\n" ++ orNone schedule ++ lit "\n") ++
    (lit "## Recent memories\n" ++ orNone memories ++ lit "\n") ++ channel ++ nowText now ++ (lit "## Message\n" ++ message)

/-- `PROMPT_NEXT_TURN_FMT`. -/
def nextTurnText (type : TriggerType) (trig : TriggerInfo) (channel now message : Str) : Str :=
  headerText type ++ commRules type trig ++ channel ++ nowText now ++ (lit "## Message\n" ++ message)

/-- What a first turn reads: the facts, the tasks and the memories. -/
structure Context where
  facts : Option Str
  tasksPath : Str
  tasks : Scheduler.File
  memories : Memory.Log

section

variable (J : CJson) (Z : Scheduler.Zone) (t : Int) (type : TriggerType) (trig : TriggerInfo) (data : Option Str) (channel : Str)

/-- The first turn before its cut, the stores' texts cut to their own buffers. -/
def firstTurn (ctx : Context) : Str :=
  firstTurnText type trig (cut 4096 (Memory.factsGet J (some []) ctx.facts)) (cut 4096 (Stores.schedList J Z ctx.tasksPath ctx.tasks))
    (cut 32768 (Memory.searchText J none 15 ctx.memories)) channel (formatNow Z t) (renderTrigger J type data)

def buildFirstTurn (ctx : Context) : Str :=
  cut ((renderTrigger J type data).length + channel.length + 32768 + 3 * 4096) (firstTurn J Z t type trig data channel ctx)

def nextTurn : Str := nextTurnText type trig channel (formatNow Z t) (renderTrigger J type data)

def buildNextTurn : Str :=
  cut ((renderTrigger J type data).length + channel.length + 4096) (nextTurn J Z t type trig data channel)

/-- The chat of a session that talks to the owner. -/
def talksOn (chat : Option Chat.ChatLog) : Option Chat.ChatLog := if trig.relay then chat else none

/-- `channel` of `agent_run_session`: the lines since the last turn. `kept` is where the
    history of the open conversation stops, and the agent's own name. -/
def channelText (chat : Option Chat.ChatLog) (kept : Option (Nat × Str)) : Str :=
  match talksOn trig chat with
  | some c => Chat.channel c ((kept.map (·.1)).getD 0) (kept.map (·.2))
  | none => []

/-- `opening` of `agent_run_session`: a next turn when the session talks and a history is kept. -/
def openingTurn (ctx : Context) (chat : Option Chat.ChatLog) (kept : Option (Nat × Str)) : Str :=
  match talksOn trig chat, kept with
  | some _, some _ => buildNextTurn J Z t type trig data (channelText trig chat kept)
  | _, _ => buildFirstTurn J Z t type trig data (channelText trig chat kept) ctx

end

/-! ## The trigger is rendered whole -/

/-- What an item of the array is rendered to. -/
def itemText (type : TriggerType) (it : Json) : Str :=
  if type = .schedule then
    promptTaskDue ((it.jStr (lit "description")).getD []) ++
      match it.jStr (lit "prompt") with
      | some (c :: prompt) => promptInstructions (c :: prompt)
      | _ => []
  else promptFrom (isReply it) ((it.jStr (lit "from")).getD (lit "?")) ((it.jStr (lit "content")).getD [])

/-- Behind what is there. -/
def behindItem (type : TriggerType) (out : Str) (it : Json) : Str :=
  (if out ≠ [] then out ++ lit "\n\n" else out) ++ itemText type it

theorem renderItem_eq {type : TriggerType} {cap : Nat} {out : Str} (it : Json) (h : (behindItem type out it).length < cap) :
    renderItem type cap out it = behindItem type out it := by
  unfold behindItem at h ⊢
  unfold renderItem
  have hsep : (if out ≠ [] then appendf cap out (lit "\n\n") else out) = if out ≠ [] then out ++ lit "\n\n" else out := by
    split
    · rename_i hout
      rw [if_pos hout, List.length_append] at h
      exact appendf_fit (by omega)
    · rfl
  rw [hsep]
  generalize (if out ≠ [] then out ++ lit "\n\n" else out) = start at h ⊢
  unfold itemText at h ⊢
  by_cases htype : type = .schedule
  · rw [if_pos htype] at h ⊢
    rw [if_pos htype]
    rw [← List.append_assoc] at h ⊢
    have htask : (start ++ promptTaskDue ((it.jStr (lit "description")).getD [])).length < cap := by
      rw [List.length_append] at h
      omega
    rw [appendf_fit htask]
    split
    · rename_i hprompt
      rw [hprompt] at h
      exact appendf_fit h
    · rw [List.append_nil]
  · rw [if_neg htype] at h ⊢
    rw [if_neg htype]
    exact appendf_fit h

theorem length_promptTaskDue (desc : Str) : (promptTaskDue desc).length = desc.length + 131 := by
  unfold promptTaskDue
  have hlit : (lit "It is time for a task you scheduled earlier: ").length = 45 ∧
      (lit "\nDo it now (for a reminder: remind the owner in text). ").length = 55 ∧
      (lit "It must not be scheduled again.").length = 31 := by
    simp only [length_lit]
    decide
  simp only [List.length_append, hlit]
  omega

theorem length_promptFrom_le (reply : Bool) (sender content : Str) :
    (promptFrom reply sender content).length ≤ sender.length + content.length + 15 := by
  unfold promptFrom
  have hlabel : (if reply then lit "Answer from " else lit "Message from ").length ≤ 13 := by
    cases reply <;> decide
  rw [List.length_append, List.length_append, List.length_append, show (lit ":\n").length = 2 from rfl]
  omega

/-- The text of an item is its strings and at most 252 bytes. -/
theorem length_itemText_le (type : TriggerType) (it : Json) : (itemText type it).length ≤ it.textSize + 252 := by
  unfold itemText
  split
  · have hsize := it.length_jStr_add_le (k := lit "description") (l := lit "prompt") (by decide)
    rw [List.length_append, length_promptTaskDue]
    split
    · rename_i c prompt hprompt
      rw [hprompt] at hsize
      unfold promptInstructions
      rw [List.length_append, show (lit "\nInstructions: ").length = 15 from rfl]
      simp only [Option.getD_some] at hsize
      omega
    · rw [List.length_nil]
      omega
  · have hsize := it.length_jStr_add_le (k := lit "from") (l := lit "content") (by decide)
    have hsender : ((it.jStr (lit "from")).getD (lit "?")).length ≤ ((it.jStr (lit "from")).getD []).length + 1 := by
      cases it.jStr (lit "from") with
      | none => exact Nat.le_refl _
      | some sender => exact Nat.le_succ _
    have := length_promptFrom_le (isReply it) ((it.jStr (lit "from")).getD (lit "?")) ((it.jStr (lit "content")).getD [])
    omega

/-- With the blank line before it, at most 254. -/
theorem length_behindItem_le (type : TriggerType) (out : Str) (it : Json) :
    (behindItem type out it).length ≤ out.length + it.textSize + 254 := by
  have hitem := length_itemText_le type it
  unfold behindItem
  rw [List.length_append]
  split
  · rw [List.length_append, show (lit "\n\n").length = 2 from rfl]
    omega
  · omega

theorem length_foldl_behindItem_le (type : TriggerType) (xs : List Json) (out : Str) :
    (xs.foldl (behindItem type) out).length ≤ out.length + Json.textSizeArr xs + 254 * xs.length := by
  induction xs generalizing out with
  | nil => exact Nat.le_refl _
  | cons it xs ih =>
    have hnext := ih (behindItem type out it)
    have hitem := length_behindItem_le type out it
    rw [List.foldl_cons, Json.textSizeArr, List.length_cons]
    omega

theorem le_length_foldl_behindItem (type : TriggerType) (xs : List Json) (out : Str) :
    out.length ≤ (xs.foldl (behindItem type) out).length := by
  induction xs generalizing out with
  | nil => exact Nat.le_refl _
  | cons it xs ih =>
    refine Nat.le_trans ?_ (ih (behindItem type out it))
    unfold behindItem
    rw [List.length_append]
    split
    · rw [List.length_append]
      omega
    · omega

/-- In a buffer that holds the end of it nothing before is cut. -/
theorem foldl_renderItem {type : TriggerType} {cap : Nat} {xs : List Json} {out : Str}
    (h : (xs.foldl (behindItem type) out).length < cap) : xs.foldl (renderItem type cap) out = xs.foldl (behindItem type) out := by
  induction xs generalizing out with
  | nil => rfl
  | cons it xs ih =>
    rw [List.foldl_cons] at h
    have hitem := renderItem_eq it ((le_length_foldl_behindItem type xs _).trans_lt h)
    rw [List.foldl_cons, List.foldl_cons, hitem]
    exact ih h

/-- The rendered trigger, in whatever space it takes. -/
def messageText (J : CJson) (type : TriggerType) (data : Option Str) : Str :=
  match data with
  | none | some [] => lit "(empty message)"
  | some (c :: data) =>
    match (if type = .irc then none else J.parse (c :: data)) with
    | some (.arr xs) => xs.foldl (behindItem type) []
    | _ => c :: data

theorem renderTrigger_eq (J : CJsonSized) (type : TriggerType) (data : Option Str) :
    renderTrigger J.toCJson type data = messageText J.toCJson type data := by
  unfold renderTrigger messageText
  split
  · rfl
  · rfl
  · rename_i c data
    split
    · rename_i xs hparse
      have hsize : Json.textSizeArr xs ≤ (c :: data).length := by
        rw [Option.ite_none_left_eq_some] at hparse
        have := J.parse_size _ _ hparse.2
        rwa [Json.textSize] at this
      have hlen := length_foldl_behindItem_le type xs []
      apply foldl_renderItem
      rw [List.length_nil] at hlen
      omega
    · rfl

/-! ## What the trigger says -/

/-- The strings of an item that the turn is to show. -/
def itemParts (type : TriggerType) (it : Json) : List Str :=
  if type = .schedule then (it.jStr (lit "description")).toList ++ (it.jStr (lit "prompt")).toList
  else (it.jStr (lit "from")).toList ++ (it.jStr (lit "content")).toList

/-- Those of a trigger: of each task or message of a batch, or the text itself. -/
def triggerParts (J : CJson) (type : TriggerType) (data : Option Str) : List Str :=
  match data with
  | none | some [] => []
  | some (c :: data) =>
    match (if type = .irc then none else J.parse (c :: data)) with
    | some (.arr xs) => xs.flatMap (itemParts type)
    | _ => [c :: data]

/-- A batch as it was serialized. -/
theorem triggerParts_print (J : CJson) {type : TriggerType} (htype : type ≠ .irc) (xs : List Json) :
    triggerParts J type (some (J.print (.arr xs))) = xs.flatMap (itemParts type) := by
  have hhead := J.print_arr xs
  have hparse := J.parse_print (.arr xs)
  unfold triggerParts
  cases htext : J.print (.arr xs) with
  | nil =>
    rw [htext] at hhead
    cases hhead
  | cons c data =>
    rw [htext] at hparse
    simp only [if_neg htype, hparse]

theorem infix_itemText {type : TriggerType} {it : Json} {part : Str} (h : part ∈ itemParts type it) : part <:+: itemText type it := by
  unfold itemParts at h
  unfold itemText
  by_cases htype : type = .schedule
  · rw [if_pos htype] at h ⊢
    rcases List.mem_append.mp h with h | h
    · rw [Option.mem_toList.mp h]
      refine List.IsInfix.trans ?_ (List.prefix_append _ _).isInfix
      unfold promptTaskDue
      rw [List.append_assoc (lit _ ++ _)]
      exact List.infix_append _ _ _
    · rw [Option.mem_toList.mp h]
      refine List.IsInfix.trans ?_ (List.suffix_append _ _).isInfix
      cases part with
      | nil => exact (List.nil_prefix).isInfix
      | cons c part => exact (List.suffix_append _ _).isInfix
  · rw [if_neg htype] at h ⊢
    unfold promptFrom
    rcases List.mem_append.mp h with h | h
    · rw [Option.mem_toList.mp h, List.append_assoc]
      exact List.infix_append _ _ _
    · rw [Option.mem_toList.mp h]
      exact (List.suffix_append _ _).isInfix

theorem prefix_foldl_behindItem (type : TriggerType) (xs : List Json) (out : Str) : out <+: xs.foldl (behindItem type) out := by
  induction xs generalizing out with
  | nil => exact List.prefix_rfl
  | cons it xs ih =>
    refine List.IsPrefix.trans ?_ (ih (behindItem type out it))
    unfold behindItem
    split
    · rw [List.append_assoc]
      exact List.prefix_append _ _
    · exact List.prefix_append _ _

theorem infix_foldl_behindItem {type : TriggerType} {xs : List Json} {it : Json} (h : it ∈ xs) (out : Str) :
    itemText type it <:+: xs.foldl (behindItem type) out := by
  induction xs generalizing out with
  | nil => cases h
  | cons x xs ih =>
    rw [List.foldl_cons]
    rcases List.mem_cons.mp h with rfl | h
    · exact (List.suffix_append _ _).isInfix.trans (prefix_foldl_behindItem type xs _).isInfix
    · exact ih h _

theorem infix_messageText {J : CJson} {type : TriggerType} {data : Option Str} {part : Str} (h : part ∈ triggerParts J type data) :
    part <:+: messageText J type data := by
  unfold triggerParts at h
  unfold messageText
  split at h
  · cases h
  · cases h
  · rename_i c data
    split at h
    · rename_i xs hparse
      obtain ⟨it, hit, hpart⟩ := List.mem_flatMap.mp h
      exact (infix_itemText hpart).trans (infix_foldl_behindItem hit [])
    · rw [List.mem_singleton.mp h]

/-! ## The turn is whole -/

theorem length_cut_lt (sz : Nat) (hsz : 0 < sz) (s : Str) : (cut sz s).length < sz := by
  have := length_cut_le sz s
  omega

theorem length_orNone_le (s : Str) : (orNone s).length ≤ s.length + 6 := by
  unfold orNone
  split
  · omega
  · rw [show (lit "None.\n").length = 6 from rfl]
    omega

theorem length_headerText_le (type : TriggerType) : (headerText type).length ≤ 32 := by
  unfold headerText triggerTypeStr
  simp only [List.length_append, length_lit]
  cases type <;> simp only [length_lit] <;> decide

theorem length_commRules_le (type : TriggerType) (trig : TriggerInfo) : (commRules type trig).length ≤ 400 := by
  unfold commRules promptCommDirect promptCommAgentReply promptCommAgentMsg
  split
  · simp only [List.length_append, length_lit]
    decide
  · split
    · simp only [List.length_append, length_lit]
      decide
    · simp only [List.length_append, length_lit]
      decide

theorem length_nowText_le (Z : Scheduler.Zone) (t : Int) : (nowText (formatNow Z t)).length ≤ 105 := by
  have hnow : (formatNow Z t).length < 96 := by
    unfold formatNow
    dsimp only
    split <;> exact length_cut_lt 96 (by decide) _
  unfold nowText
  rw [List.length_append, List.length_append, show (lit "## Now\n").length = 7 from rfl,
    show (lit "\n\n").length = 2 from rfl]
  omega

theorem length_firstTurnText_le (type : TriggerType) (trig : TriggerInfo) (facts schedule memories channel now message : Str) :
    (firstTurnText type trig facts schedule memories channel now message).length ≤
      facts.length + schedule.length + memories.length + channel.length + (nowText now).length + message.length + 1100 := by
  have hheader := length_headerText_le type
  have hcomm := length_commRules_le type trig
  have hirc : (if trig.relay then promptIrcFormat else []).length ≤ 480 := by
    split
    · unfold promptIrcFormat
      simp only [List.length_append, length_lit]
      decide
    · exact Nat.zero_le _
  have hfacts := length_orNone_le facts
  have hschedule := length_orNone_le schedule
  have hmemories := length_orNone_le memories
  have hlit : (lit "## Facts\n").length = 9 ∧ (lit "## Scheduled tasks\n").length = 19 ∧ (lit "## Recent memories\n").length = 19 ∧
      (lit "\n").length = 1 ∧ (lit "## Message\n").length = 11 := by
    simp only [length_lit]
    decide
  unfold firstTurnText
  simp only [List.length_append, hlit]
  omega

theorem length_nextTurnText_le (type : TriggerType) (trig : TriggerInfo) (channel now message : Str) :
    (nextTurnText type trig channel now message).length ≤ channel.length + (nowText now).length + message.length + 500 := by
  have hheader := length_headerText_le type
  have hcomm := length_commRules_le type trig
  unfold nextTurnText
  simp only [List.length_append, show (lit "## Message\n").length = 11 from rfl]
  omega

section Turn

variable (J : CJsonSized) (Z : Scheduler.Zone) (t : Int) (type : TriggerType) (trig : TriggerInfo) (data : Option Str)

theorem buildFirstTurn_eq (channel : Str) (ctx : Context) :
    buildFirstTurn J.toCJson Z t type trig data channel ctx = firstTurn J.toCJson Z t type trig data channel ctx := by
  refine (cut_eq_self (by omega)).mpr ?_
  have hlen := length_firstTurnText_le type trig (cut 4096 (Memory.factsGet J.toCJson (some []) ctx.facts))
    (cut 4096 (Stores.schedList J.toCJson Z ctx.tasksPath ctx.tasks)) (cut 32768 (Memory.searchText J.toCJson none 15 ctx.memories))
    channel (formatNow Z t) (renderTrigger J.toCJson type data)
  have hfacts := length_cut_lt 4096 (by decide) (Memory.factsGet J.toCJson (some []) ctx.facts)
  have hschedule := length_cut_lt 4096 (by decide) (Stores.schedList J.toCJson Z ctx.tasksPath ctx.tasks)
  have hmemories := length_cut_lt 32768 (by decide) (Memory.searchText J.toCJson none 15 ctx.memories)
  have hnow := length_nowText_le Z t
  unfold firstTurn
  omega

theorem buildNextTurn_eq (channel : Str) :
    buildNextTurn J.toCJson Z t type trig data channel = nextTurn J.toCJson Z t type trig data channel := by
  refine (cut_eq_self (by omega)).mpr ?_
  have hlen := length_nextTurnText_le type trig channel (formatNow Z t) (renderTrigger J.toCJson type data)
  have hnow := length_nowText_le Z t
  unfold nextTurn
  omega

/-- The lines the turn is to show. -/
def shownLines (chat : Option Chat.FieldLog) (kept : Option (Nat × Str)) : List Chat.Line :=
  match talksOn trig (chat.map (·.toChatLog)) with
  | some c => Chat.linesAfter c ((kept.map (·.1)).getD 0) (kept.map (·.2))
  | none => []

/-- The channel in whatever space it takes. -/
def channelWhole (chat : Option Chat.FieldLog) (kept : Option (Nat × Str)) : Str :=
  if shownLines trig chat kept = [] then []
  else Chat.chatHeader ((shownLines trig chat kept).flatMap fun l => l.text ++ lit "\n")

theorem channelText_eq (chat : Option Chat.FieldLog) (kept : Option (Nat × Str)) :
    channelText trig (chat.map (·.toChatLog)) kept = channelWhole trig chat kept := by
  unfold channelText channelWhole shownLines talksOn
  cases trig.relay with
  | false => rfl
  | true =>
    cases chat with
    | none => rfl
    | some c => exact Chat.channel_whole c.fits _ _

/-- The opening turn in whatever space it takes. -/
def openingWhole (ctx : Context) (chat : Option Chat.FieldLog) (kept : Option (Nat × Str)) : Str :=
  match talksOn trig (chat.map (·.toChatLog)), kept with
  | some _, some _ => nextTurnText type trig (channelWhole trig chat kept) (formatNow Z t) (messageText J.toCJson type data)
  | _, _ =>
    firstTurnText type trig (cut 4096 (Memory.factsGet J.toCJson (some []) ctx.facts))
      (cut 4096 (Stores.schedList J.toCJson Z ctx.tasksPath ctx.tasks)) (cut 32768 (Memory.searchText J.toCJson none 15 ctx.memories))
      (channelWhole trig chat kept) (formatNow Z t) (messageText J.toCJson type data)

theorem openingTurn_eq (ctx : Context) (chat : Option Chat.FieldLog) (kept : Option (Nat × Str)) :
    openingTurn J.toCJson Z t type trig data ctx (chat.map (·.toChatLog)) kept = openingWhole J Z t type trig data ctx chat kept := by
  unfold openingTurn openingWhole
  split
  · rw [buildNextTurn_eq, nextTurn, renderTrigger_eq, channelText_eq]
  · rw [buildFirstTurn_eq, firstTurn, renderTrigger_eq, channelText_eq]

/-- The message ends the turn, and the channel stands in it. -/
theorem message_suffix (ctx : Context) (chat : Option Chat.FieldLog) (kept : Option (Nat × Str)) :
    messageText J.toCJson type data <:+ openingWhole J Z t type trig data ctx chat kept := by
  unfold openingWhole
  split <;> exact (List.suffix_append _ _).trans (List.suffix_append _ _)

theorem infix_channelWhole (ctx : Context) (chat : Option Chat.FieldLog) (kept : Option (Nat × Str)) :
    channelWhole trig chat kept <:+: openingWhole J Z t type trig data ctx chat kept := by
  unfold openingWhole
  generalize channelWhole trig chat kept = channel
  split
  · unfold nextTurnText
    rw [List.append_assoc (_ ++ channel)]
    exact List.infix_append _ _ _
  · unfold firstTurnText
    rw [List.append_assoc (_ ++ channel)]
    exact List.infix_append _ _ _

theorem infix_line {chat : Option Chat.FieldLog} {kept : Option (Nat × Str)} {l : Chat.Line} (h : l ∈ shownLines trig chat kept) :
    l.text ++ lit "\n" <:+: channelWhole trig chat kept := by
  unfold channelWhole
  rw [if_neg (List.ne_nil_of_mem h)]
  obtain ⟨pre, post, hsplit⟩ := List.append_of_mem h
  unfold Chat.chatHeader
  refine List.IsInfix.trans ?_ (List.infix_append _ _ _)
  rw [hsplit, List.flatMap_append, List.flatMap_cons, ← List.append_assoc]
  exact List.infix_append _ _ _

/-- Nothing the turn is built of is cut, and every string of the trigger and every line stand in it. -/
theorem opening_whole (ctx : Context) (chat : Option Chat.FieldLog) (kept : Option (Nat × Str)) :
    renderTrigger J.toCJson type data = messageText J.toCJson type data ∧
      openingTurn J.toCJson Z t type trig data ctx (chat.map (·.toChatLog)) kept = openingWhole J Z t type trig data ctx chat kept ∧
      (∀ part ∈ triggerParts J.toCJson type data, part <:+: renderTrigger J.toCJson type data ∧
        part <:+: openingTurn J.toCJson Z t type trig data ctx (chat.map (·.toChatLog)) kept) ∧
      ∀ l ∈ shownLines trig chat kept,
        l.text ++ lit "\n" <:+: openingTurn J.toCJson Z t type trig data ctx (chat.map (·.toChatLog)) kept := by
  rw [renderTrigger_eq, openingTurn_eq]
  refine ⟨rfl, rfl, fun part hpart => ⟨infix_messageText hpart, ?_⟩, fun l hl => ?_⟩
  · exact (infix_messageText hpart).trans (message_suffix J Z t type trig data ctx chat kept).isInfix
  · exact (infix_line trig hl).trans (infix_channelWhole J Z t type trig data ctx chat kept)

end Turn

end Shclaw.Agent
