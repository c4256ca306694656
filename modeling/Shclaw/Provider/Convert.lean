/-
  Shclaw.Provider.Convert — the history in OpenAI's format (`src/provider.c`:
  `join_blocks`, `append_openai_message`), and a response of OpenAI replayed in it.

  The history is kept in Anthropic's blocks; `append_openai_message` turns one of its
  turns into messages of OpenAI's: an assistant turn into one message with its tool
  calls, a user turn into a `tool` message for each tool result and a user message for
  its texts. A turn whose content is no array is copied.

  `conversion_preserves`:
  (a) in a well-paired history (`WellPaired`) every converted message with tool calls is
      followed at once by one `tool` message for each, with their ids in their order,
      and no text block is lost;
  (b) what `call_openai` made of a response, converted back, has the text the response
      shows (`Shown`: without a think block at its start and the blanks around it) and a
      call for each call of the response that names a function, in their order, with its
      id (one is drawn when it has none), name and arguments (`Replays`).
  Trace: a call that names no function is skipped (`unnamed_call_skipped`).
  A `Paired` array of turns, as sessions send them, is such a history (`paired_wellPaired`).
-/

import Mathlib.Data.List.TakeWhile
import Shclaw.Agent.Pairing

namespace Shclaw.Provider

open Lib Agent

/-! ## The conversion -/

/-- The text of a block of a type, when it has one. -/
def blockText (type : Str) (block : Json) : Option Str :=
  if block.jStr (lit "type") = some type then (block.jStr (lit "text")).filter (· ≠ []) else none

/-- The texts of the blocks of a type. -/
def texts (content : List Json) (type : Str) : List Str := content.filterMap (blockText type)

def addLine (s text : Str) : Str := if s = [] then text else s ++ ch '\n' :: text

/-- `join_blocks`. -/
def joinBlocks (content : List Json) (type : Str) : Str := (texts content type).foldl addLine []

variable (J : CJson)

/-- A `tool_use` block as a tool call. -/
def toToolCall (block : Json) : Option Json :=
  if block.jStr (lit "type") = some (lit "tool_use") then
    (block.jStr (lit "name")).map fun name =>
      let args := ((block.getObjectItem (lit "input")).map J.print).getD (lit "\x7b\x7d")
      .obj [(lit "id", .str ((block.jStr (lit "id")).getD [])), (lit "type", .str (lit "function")),
        (lit "function", .obj [(lit "name", .str name), (lit "arguments", .str args)])]
  else none

/-- A `tool_result` block as a message. -/
def toToolMessage (block : Json) : Option Json :=
  if block.jStr (lit "type") = some (lit "tool_result") then
    some (.obj [(lit "role", .str (lit "tool")), (lit "tool_call_id", .str ((block.jStr (lit "tool_use_id")).getD [])),
      (lit "content", .str ((block.jStr (lit "content")).getD []))])
  else none

/-- The messages `append_openai_message` adds for a turn. -/
def appendOpenaiMessage (msg : Json) : List Json :=
  match msg.jStr (lit "role"), msg.getObjectItem (lit "content") with
  | some role, some (.arr content) =>
    if role = lit "assistant" then
      let toolCalls := content.filterMap (toToolCall J)
      [.obj ([(lit "role", .str (lit "assistant")), (lit "content", .str (joinBlocks content (lit "text")))] ++
        if toolCalls ≠ [] then [(lit "tool_calls", .arr toolCalls)] else [])]
    else
      -- tool results become "tool" messages, text stays a user message
      let text := joinBlocks content (lit "text")
      content.filterMap toToolMessage ++
        if text ≠ [] then [.obj [(lit "role", .str role), (lit "content", .str text)]] else []
  | _, _ => [msg]

/-- The history, converted. -/
def toOpenai (msgs : List Json) : List Json := msgs.flatMap (appendOpenaiMessage J)

/-! ## What is compared -/

/-- The tool calls an assistant turn makes. -/
def uses (m : Json) : List Json :=
  if m.jStr (lit "role") = some (lit "assistant") then (blocks m).filter isUse else []

def results (m : Json) : List Json := (blocks m).filter isResult

/-- The tool calls of a message of OpenAI. -/
def toolCallsOf (m : Json) : List Json := ((m.getObjectItem (lit "tool_calls")).map Json.children).getD []

/-- A turn in Anthropic's format: its content is a text or an array of blocks. -/
structure Turn (m : Json) : Prop where
  role : m.jStr (lit "role") = some (lit "user") ∨ m.jStr (lit "role") = some (lit "assistant")
  content : (m.getObjectItem (lit "content")).any (fun v => v.isString || v.isArray) = true
  noCalls : m.getObjectItem (lit "tool_calls") = none

/-- A history in Anthropic's format whose tool calls are answered by the next turn. -/
structure WellPaired (msgs : List Json) : Prop where
  turn : ∀ m ∈ msgs, Turn m
  named : ∀ m ∈ msgs, ∀ b ∈ uses m, (b.jStr (lit "name")).isSome = true
  answered : ∀ i m, msgs[i]? = some m → uses m ≠ [] → ∃ m', msgs[i + 1]? = some m' ∧
    m'.jStr (lit "role") = some (lit "user") ∧ (m'.getObjectItem (lit "content")).any Json.isArray = true ∧
    (results m').map (·.jStr (lit "tool_use_id")) = (uses m).map (·.jStr (lit "id"))
  only : ∀ j m', msgs[j]? = some m' → results m' ≠ [] → ∃ i m, j = i + 1 ∧ msgs[i]? = some m ∧ uses m ≠ []

/-- A `tool` message. -/
def isTool (m : Json) : Bool := m.jStr (lit "role") = some (lit "tool")

/-- Every message with tool calls is followed by one `tool` message for each, in order,
    and by no more of them. -/
def Answered (out : List Json) : Prop :=
  ∀ pre m post, out = pre ++ m :: post → toolCallsOf m ≠ [] →
    ∃ tools rest, post = tools ++ rest ∧
      tools.map (fun t => (t.jStr (lit "role"), t.jStr (lit "tool_call_id"))) =
        (toolCallsOf m).map (fun c => (some (lit "tool"), c.jStr (lit "id"))) ∧
      ∀ t ∈ rest.head?, isTool t = false

def isText (block : Json) : Bool := block.jStr (lit "type") = some (lit "text")

/-- The words of the text blocks, of those that have any. -/
def words (content : List Json) : List Str := ((content.filter isText).filterMap (·.jStr (lit "text"))).filter (· ≠ [])

/-- The text a turn or a message holds, with its role: its content, or its text blocks on
    lines of their own. -/
def spoken (m : Json) : Option (Str × Str) :=
  match m.jStr (lit "role"), m.getObjectItem (lit "content") with
  | some role, some (.str s) => if s = [] then none else some (role, s)
  | some role, some (.arr content) =>
    if words content = [] then none else some (role, (lit "\n").intercalate (words content))
  | _, _ => none

/-- The texts of a conversation, with their roles. -/
def spokenAll (msgs : List Json) : List (Str × Str) := (msgs.filter fun m => !isTool m).filterMap spoken

/-- The function a call names. -/
def functionName (tc : Json) : Option Str := (tc.getObjectItem (lit "function")).bind (·.jStr (lit "name"))

/-- A call names a function. -/
def named (tc : Json) : Bool := (functionName tc).any (· ≠ [])

/-- The arguments of an entry of `tool_calls`. -/
def argumentsOf (tc : Json) : Option Json := (tc.getObjectItem (lit "function")).bind (·.getObjectItem (lit "arguments"))

/-- Arguments hold an object: as it is, in a string, or in a string in a string. -/
inductive HoldsObject : Json → List (Str × Json) → Prop where
  | object {kvs : List (Str × Json)} : HoldsObject (.obj kvs) kvs
  | text {s : Str} {kvs : List (Str × Json)} : s ≠ [] → J.parse s = some (.obj kvs) → HoldsObject (.str s) kvs
  | twice {s t : Str} {kvs : List (Str × Json)} : s ≠ [] → J.parse s = some (.str t) → J.parse t = some (.obj kvs) →
      HoldsObject (.str s) kvs

/-- A call of a message says what an entry of a response said: its id, or the one drawn when it
    has none, its function and its arguments, as the text of an object. -/
structure Replays (drawn : Str) (entry call : Json) : Prop where
  id : ∀ id, entry.jStr (lit "id") = some id → id ≠ [] → call.jStr (lit "id") = some id
  drawn : (∀ id, entry.jStr (lit "id") = some id → id = []) → call.jStr (lit "id") = some (cut 64 (lit "call_" ++ drawn))
  name : functionName call = functionName entry
  arguments : ∃ args kvs text, argumentsOf entry = some args ∧ HoldsObject J args kvs ∧
    argumentsOf call = some (.str text) ∧ J.parse text = some (.obj kvs)

/-- The body of a response carries a message. -/
def Carries (body : Str) (message : Json) : Prop :=
  ∃ root choices choice rest, J.parse body = some root ∧ root.getObjectItem (lit "choices") = some choices ∧
    choices.children = choice :: rest ∧ choice.getObjectItem (lit "message") = some message

/-- Blanks and the ends of lines. -/
def Blank (s : Str) : Prop := ∀ c ∈ s, c ∈ lit " \n\r\t"

/-- A text that does not start with one. -/
def Flush (s : Str) : Prop := ∀ c ∈ s.head?, c ∉ lit " \n\r\t"

/-- What is left of a content to be shown: a think block at its start is gone, up to the end of
    the content when it has none of its own, and so are the blanks before it and behind it. -/
inductive Shows : Str → Str → Prop where
  | plain {lead text : Str} : Blank lead → Flush text → ¬ lit "<think>" <+: text → Shows (lead ++ text) text
  | thought {lead think gap text : Str} : Blank lead → ¬ lit "</think>" <:+: think → Blank gap → Flush text →
      Shows (lead ++ (lit "<think>" ++ (think ++ (lit "</think>" ++ (gap ++ text))))) text
  | thinking {lead think : Str} : Blank lead → ¬ lit "</think>" <:+: think → Shows (lead ++ (lit "<think>" ++ think)) []

/-- The text of a message of OpenAI; without a content it is empty. -/
def Shown (message : Json) (text : Str) : Prop :=
  (∃ content, message.jStr (lit "content") = some content ∧ Shows content text) ∨
  message.jStr (lit "content") = none ∧ text = []

/-- What a call of OpenAI's format says: its id, its function, its arguments as JSON. -/
def callKey (tc : Json) : Option Str × Option Str × Option Json :=
  (tc.jStr (lit "id"), (tc.getObjectItem (lit "function")).bind (·.jStr (lit "name")), (argumentsOf tc).bind fun args =>
    match args with
    | .str s => J.parse s
    | _ => none)

/-! ## Texts -/

theorem texts_ne_nil {content : List Json} {type text : Str} (h : text ∈ texts content type) : text ≠ [] := by
  obtain ⟨b, -, hb⟩ := List.mem_filterMap.mp h
  unfold blockText at hb
  split at hb
  · simpa using (Option.filter_eq_some_iff.mp hb).2
  · cases hb

theorem texts_text (content : List Json) : texts content (lit "text") = words content := by
  unfold texts words
  induction content with
  | nil => rfl
  | cons b content ih =>
    rw [List.filterMap_cons, ih, List.filter_cons]
    unfold blockText isText
    by_cases htype : b.jStr (lit "type") = some (lit "text")
    · rw [if_pos htype, if_pos (decide_eq_true htype), List.filterMap_cons]
      cases b.jStr (lit "text") with
      | none => rfl
      | some s => by_cases hs : s = [] <;> simp [hs, Option.filter]
    · rw [if_neg htype, if_neg (by simpa using htype)]

/-- Lines added one by one are lines joined. -/
theorem foldl_addLine {ts : List Str} (h : ∀ t ∈ ts, t ≠ []) : ∀ {s : Str}, s ≠ [] →
    ts.foldl addLine s = (lit "\n").intercalate (s :: ts) := by
  induction ts with
  | nil => intro s _; rw [List.intercalate_singleton]; rfl
  | cons t ts ih =>
    intro s hs
    have ht : s ++ ch '\n' :: t ≠ [] := by simp
    have hadd : addLine s t = s ++ ch '\n' :: t := if_neg hs
    have hnl : ∀ r : Str, s ++ ch '\n' :: r = s ++ lit "\n" ++ r := by
      intro r
      rw [List.append_assoc]
      rfl
    rw [List.foldl_cons, hadd, ih (fun t ht => h t (List.mem_cons_of_mem _ ht)) ht, List.intercalate_cons_cons]
    cases ts with
    | nil => rw [List.intercalate_singleton, List.intercalate_singleton, hnl]
    | cons u ts => rw [List.intercalate_cons_cons, List.intercalate_cons_cons, hnl]; simp only [List.append_assoc]

theorem joinBlocks_eq (content : List Json) (type : Str) :
    joinBlocks content type = (lit "\n").intercalate (texts content type) := by
  have hne : ∀ t ∈ texts content type, t ≠ [] := fun t ht => texts_ne_nil ht
  unfold joinBlocks
  cases hts : texts content type with
  | nil => rfl
  | cons t ts =>
    rw [hts] at hne
    rw [List.foldl_cons]
    exact foldl_addLine (fun u hu => hne u (List.mem_cons_of_mem _ hu)) (hne t List.mem_cons_self)

/-- A join of texts is empty when there are none. -/
theorem joinBlocks_eq_nil {content : List Json} {type : Str} : joinBlocks content type = [] ↔ texts content type = [] := by
  constructor
  · intro h
    cases hts : texts content type with
    | nil => rfl
    | cons t ts =>
      have hmem : t ∈ texts content type := by
        rw [hts]
        exact List.mem_cons_self
      have ht : t ≠ [] := texts_ne_nil hmem
      rw [joinBlocks_eq, hts] at h
      cases ts with
      | nil => rw [List.intercalate_singleton] at h; exact absurd h ht
      | cons u ts =>
        rw [List.intercalate_cons_cons] at h
        exact absurd (List.append_eq_nil_iff.mp (List.append_eq_nil_iff.mp h).1).1 ht
  · intro h
    unfold joinBlocks
    rw [h]
    rfl

/-! ## Tool calls and their answers -/

theorem toToolCall_id {b call : Json} (h : toToolCall J b = some call) :
    call.jStr (lit "id") = some ((b.jStr (lit "id")).getD []) := by
  unfold toToolCall at h
  split at h
  · obtain ⟨name, -, rfl⟩ := Option.map_eq_some_iff.mp h
    rfl
  · cases h

/-- The ids of the calls converted, each of which names its tool. -/
theorem toToolCall_ids {content : List Json} (h : ∀ b ∈ content, isUse b = true → (b.jStr (lit "name")).isSome = true) :
    (content.filterMap (toToolCall J)).map (·.jStr (lit "id")) =
      (content.filter isUse).map fun b => some ((b.jStr (lit "id")).getD []) := by
  induction content with
  | nil => rfl
  | cons b content ih =>
    have hrest := ih fun x hx => h x (List.mem_cons_of_mem _ hx)
    by_cases hb : isUse b = true
    · obtain ⟨name, hname⟩ := Option.isSome_iff_exists.mp (h b List.mem_cons_self hb)
      obtain ⟨call, hcall⟩ : ∃ call, toToolCall J b = some call := by
        unfold toToolCall
        rw [if_pos (by simpa [isUse] using hb), hname]
        exact ⟨_, rfl⟩
      rw [List.filterMap_cons_some hcall, List.filter_cons_of_pos hb, List.map_cons, List.map_cons, hrest,
        toToolCall_id J hcall]
    · have hcall : toToolCall J b = none := by
        unfold toToolCall
        rw [if_neg (by simpa [isUse] using hb)]
      rw [List.filterMap_cons_none hcall, List.filter_cons_of_neg hb, hrest]

theorem toToolMessage_ids (content : List Json) :
    (content.filterMap toToolMessage).map (fun t => (t.jStr (lit "role"), t.jStr (lit "tool_call_id"))) =
      (content.filter isResult).map fun b => (some (lit "tool"), some ((b.jStr (lit "tool_use_id")).getD [])) := by
  induction content with
  | nil => rfl
  | cons b content ih =>
    by_cases hb : isResult b = true
    · have hmsg : toToolMessage b = some (.obj [(lit "role", .str (lit "tool")),
          (lit "tool_call_id", .str ((b.jStr (lit "tool_use_id")).getD [])),
          (lit "content", .str ((b.jStr (lit "content")).getD []))]) := by
        unfold toToolMessage
        rw [if_pos (by simpa [isResult] using hb)]
      rw [List.filterMap_cons_some hmsg, List.filter_cons_of_pos hb, List.map_cons, List.map_cons, ih]
      rfl
    · have hmsg : toToolMessage b = none := by
        unfold toToolMessage
        rw [if_neg (by simpa [isResult] using hb)]
      rw [List.filterMap_cons_none hmsg, List.filter_cons_of_neg hb, ih]

/-- The message of an assistant turn. -/
def assistantMessage (content : List Json) : Json :=
  .obj ([(lit "role", .str (lit "assistant")), (lit "content", .str (joinBlocks content (lit "text")))] ++
    if content.filterMap (toToolCall J) ≠ [] then [(lit "tool_calls", .arr (content.filterMap (toToolCall J)))] else [])

/-- The user message of a turn's texts. -/
def textMessage (content : List Json) : List Json :=
  if joinBlocks content (lit "text") ≠ [] then [userText (joinBlocks content (lit "text"))] else []

theorem append_assistant {m : Json} {content : List Json} (hrole : m.jStr (lit "role") = some (lit "assistant"))
    (hcontent : m.getObjectItem (lit "content") = some (.arr content)) :
    appendOpenaiMessage J m = [assistantMessage J content] ∧ uses m = content.filter isUse := by
  constructor
  · unfold appendOpenaiMessage
    rw [hrole, hcontent]
    rfl
  · unfold uses blocks
    rw [if_pos hrole, hcontent]
    rfl

theorem append_user {m : Json} {content : List Json} (hrole : m.jStr (lit "role") = some (lit "user"))
    (hcontent : m.getObjectItem (lit "content") = some (.arr content)) :
    appendOpenaiMessage J m = content.filterMap toToolMessage ++ textMessage content ∧
    results m = content.filter isResult := by
  constructor
  · unfold appendOpenaiMessage
    rw [hrole, hcontent]
    rfl
  · unfold results blocks
    rw [hcontent]
    rfl

theorem toolCallsOf_assistantMessage (content : List Json) :
    toolCallsOf (assistantMessage J content) = content.filterMap (toToolCall J) := by
  unfold assistantMessage
  by_cases h : content.filterMap (toToolCall J) = []
  · rw [if_neg (not_not.mpr h), h]
    rfl
  · rw [if_pos h]
    rfl

/-- No message of a user turn is an assistant's with tool calls. -/
theorem toolCallsOf_user {content : List Json} {m : Json}
    (h : m ∈ content.filterMap toToolMessage ++ textMessage content) : toolCallsOf m = [] := by
  rcases List.mem_append.mp h with h | h
  · obtain ⟨b, -, hb⟩ := List.mem_filterMap.mp h
    unfold toToolMessage at hb
    split at hb
    · cases hb
      rfl
    · cases hb
  · unfold textMessage at h
    split at h
    · rw [List.mem_singleton.mp h]
      rfl
    · cases h

/-- A turn is an assistant's or a user's, with blocks or without. -/
theorem turn_cases {m : Json} (h : Turn m) :
    (m.jStr (lit "role") = some (lit "assistant") ∧ ∃ content, m.getObjectItem (lit "content") = some (.arr content)) ∨
    (m.jStr (lit "role") = some (lit "user") ∧ ∃ content, m.getObjectItem (lit "content") = some (.arr content)) ∨
    appendOpenaiMessage J m = [m] ∧ toolCallsOf m = [] ∧ uses m = [] ∧ isTool m = false := by
  have hcalls : toolCallsOf m = [] := by
    unfold toolCallsOf
    rw [h.noCalls]
    rfl
  have htool : isTool m = false := by
    unfold isTool
    rcases h.role with hr | hr <;> rw [hr] <;> rfl
  have hcontent := h.content
  cases hv : m.getObjectItem (lit "content") with
  | none => rw [hv] at hcontent; cases hcontent
  | some v =>
    rw [hv] at hcontent
    cases v with
    | arr content =>
      rcases h.role with hr | hr
      · exact Or.inr (Or.inl ⟨hr, content, rfl⟩)
      · exact Or.inl ⟨hr, content, rfl⟩
    | str text =>
      refine Or.inr (Or.inr ⟨?_, hcalls, ?_, htool⟩)
      · unfold appendOpenaiMessage
        rw [hv]
        cases m.jStr (lit "role") <;> rfl
      · unfold uses blocks
        rw [hv]
        exact ite_self _
    | _ => cases hcontent

/-- Two neighbours of a well-paired history. -/
def Linked (m m' : Json) : Prop :=
  (uses m ≠ [] → m'.jStr (lit "role") = some (lit "user") ∧ (m'.getObjectItem (lit "content")).any Json.isArray = true ∧
    (results m').map (·.jStr (lit "tool_use_id")) = (uses m).map (·.jStr (lit "id"))) ∧
  (results m' ≠ [] → uses m ≠ [])

theorem WellPaired.chain {msgs : List Json} (h : WellPaired msgs) : msgs.IsChain Linked := by
  refine List.isChain_iff_getElem.mpr fun i hi => ⟨fun hne => ?_, fun hne => ?_⟩
  · obtain ⟨m', hm', hans⟩ := h.answered i _ (List.getElem?_eq_getElem (by omega)) hne
    obtain ⟨_, heq⟩ := List.getElem?_eq_some_iff.mp hm'
    rw [heq]
    exact hans
  · obtain ⟨j, m, hj, hm, huse⟩ := h.only (i + 1) _ (List.getElem?_eq_getElem hi) hne
    obtain rfl : j = i := by omega
    obtain ⟨_, heq⟩ := List.getElem?_eq_some_iff.mp hm
    rw [heq]
    exact huse

/-- The last turn has no tool call open. -/
theorem WellPaired.closed {msgs : List Json} (h : WellPaired msgs) : ∀ m ∈ msgs.getLast?, uses m = [] := by
  intro m hm
  by_contra hne
  rw [List.getLast?_eq_getElem?] at hm
  obtain ⟨m', hm', -⟩ := h.answered _ m hm hne
  have hlt := (List.getElem?_eq_some_iff.mp hm').1
  omega

theorem assistantMessage_role (content : List Json) : isTool (assistantMessage J content) = false := by
  unfold assistantMessage
  split <;> rfl

/-- A result comes only after a tool call. -/
theorem head_results {m : Json} {msgs : List Json} (h : (m :: msgs).IsChain Linked) (huses : uses m = []) :
    ∀ m' ∈ msgs.head?, results m' = [] := by
  intro m' hm'
  by_contra hne
  cases msgs with
  | nil => cases hm'
  | cons m₂ msgs =>
    cases hm'
    exact (List.isChain_cons_cons.mp h).1.2 hne huses

/-- Where no result may come, no `tool` message comes first. -/
theorem head_not_tool {msgs : List Json} (hturn : ∀ m ∈ msgs, Turn m) (hchain : msgs.IsChain Linked)
    (hfirst : ∀ m ∈ msgs.head?, results m = []) : ∀ t ∈ (toOpenai J msgs).head?, isTool t = false := by
  induction msgs with
  | nil => intro t ht; cases ht
  | cons m msgs ih =>
    intro t ht
    have hno := hfirst m rfl
    unfold toOpenai at ht
    rw [List.flatMap_cons] at ht
    rcases turn_cases J (hturn m List.mem_cons_self) with ⟨hrole, content, hc⟩ | ⟨hrole, content, hc⟩ | ⟨happ, -, -, htool⟩
    · rw [(append_assistant J hrole hc).1] at ht
      cases ht
      exact assistantMessage_role J content
    · obtain ⟨happ, hresults⟩ := append_user J hrole hc
      have hres : content.filterMap toToolMessage = [] := by
        have hids := toToolMessage_ids content
        rw [← hresults, hno] at hids
        exact List.map_eq_nil_iff.mp hids
      have huses : uses m = [] := if_neg (by rw [hrole]; decide)
      rw [happ, hres, List.nil_append] at ht
      unfold textMessage at ht
      split at ht
      · cases ht
        rfl
      · exact ih (fun x hx => hturn x (List.mem_cons_of_mem _ hx)) hchain.tail (head_results hchain huses) t ht
    · rw [happ] at ht
      cases ht
      exact htool

/-- The calls of a turn and the results of the next, converted. -/
theorem answers_converted {content content' : List Json}
    (hnamed : ∀ b ∈ content, isUse b = true → (b.jStr (lit "name")).isSome = true)
    (hans : (content'.filter isResult).map (·.jStr (lit "tool_use_id")) =
      (content.filter isUse).map (·.jStr (lit "id"))) :
    (content'.filterMap toToolMessage).map (fun t => (t.jStr (lit "role"), t.jStr (lit "tool_call_id"))) =
      (content.filterMap (toToolCall J)).map fun c => (some (lit "tool"), c.jStr (lit "id")) := by
  have hanswers := congrArg (List.map fun i : Option Str => (some (lit "tool"), some (i.getD []))) hans
  rw [List.map_map, List.map_map] at hanswers
  have hcalls := congrArg (List.map fun i : Option Str => (some (lit "tool"), i)) (toToolCall_ids J hnamed)
  rw [List.map_map, List.map_map] at hcalls
  rw [toToolMessage_ids]
  exact hanswers.trans hcalls.symm

theorem array_content {o : Option Json} (h : o.any Json.isArray = true) : ∃ xs, o = some (.arr xs) := by
  cases o with
  | none => cases h
  | some v =>
    cases v with
    | arr xs => exact ⟨xs, rfl⟩
    | _ => cases h

/-- The user turn that answers an assistant turn's calls gives their `tool` messages first,
    and no other follows them. -/
theorem reply_converted {m' : Json} {msgs content : List Json} (hturn : ∀ x ∈ msgs, Turn x)
    (hchain : (m' :: msgs).IsChain Linked) (hrole : m'.jStr (lit "role") = some (lit "user"))
    (harr : (m'.getObjectItem (lit "content")).any Json.isArray = true)
    (hnamed : ∀ b ∈ content, isUse b = true → (b.jStr (lit "name")).isSome = true)
    (hans : (results m').map (·.jStr (lit "tool_use_id")) = (content.filter isUse).map (·.jStr (lit "id"))) :
    ∃ tools rest, toOpenai J (m' :: msgs) = tools ++ rest ∧
      tools.map (fun t => (t.jStr (lit "role"), t.jStr (lit "tool_call_id"))) =
        (content.filterMap (toToolCall J)).map (fun c => (some (lit "tool"), c.jStr (lit "id"))) ∧
      ∀ t ∈ rest.head?, isTool t = false := by
  obtain ⟨content', hcontent⟩ := array_content harr
  obtain ⟨happend, hresults⟩ := append_user J hrole hcontent
  rw [hresults] at hans
  refine ⟨content'.filterMap toToolMessage, textMessage content' ++ toOpenai J msgs, ?_,
    answers_converted J hnamed hans, ?_⟩
  · show appendOpenaiMessage J m' ++ toOpenai J msgs = _
    rw [happend, List.append_assoc]
  · unfold textMessage
    split
    · intro t ht
      cases ht
      rfl
    · have huses : uses m' = [] := if_neg (by rw [hrole]; decide)
      exact head_not_tool J hturn hchain.tail (head_results hchain huses)

/-- The messages of a well-paired history. -/
theorem answered_toOpenai {msgs : List Json} (hturn : ∀ m ∈ msgs, Turn m)
    (hnamed : ∀ m ∈ msgs, ∀ b ∈ uses m, (b.jStr (lit "name")).isSome = true)
    (hchain : msgs.IsChain Linked) (hclosed : ∀ m ∈ msgs.getLast?, uses m = []) : Answered (toOpenai J msgs) := by
  induction msgs with
  | nil =>
    intro pre m post h
    cases pre <;> cases h
  | cons m msgs ih =>
    have hrest : Answered (toOpenai J msgs) := by
      refine ih (fun x hx => hturn x (List.mem_cons_of_mem _ hx)) (fun x hx => hnamed x (List.mem_cons_of_mem _ hx))
        hchain.tail fun x hx => ?_
      cases msgs with
      | nil => cases hx
      | cons m₂ msgs => exact hclosed x (by rw [List.getLast?_cons_cons]; exact hx)
    intro pre x post hsplit hcalls
    have happ : toOpenai J (m :: msgs) = appendOpenaiMessage J m ++ toOpenai J msgs := List.flatMap_cons
    rw [happ] at hsplit
    rcases List.append_eq_append_iff.mp hsplit with ⟨c, -, hout⟩ | ⟨c, hm, hpost⟩
    · exact hrest c x post hout hcalls
    cases c with
    | nil => exact hrest [] x post hpost.symm hcalls
    | cons y c =>
      rw [List.cons_append] at hpost
      obtain ⟨rfl, rfl⟩ := List.cons.inj hpost
      have hmem : x ∈ appendOpenaiMessage J m := by
        rw [hm]
        exact List.mem_append_right _ List.mem_cons_self
      -- only an assistant turn gives tool calls
      rcases turn_cases J (hturn m List.mem_cons_self) with ⟨hrole, content, hcontent⟩ | ⟨hrole, content, hcontent⟩ |
        ⟨hcopy, hnone, -, -⟩
      · obtain ⟨happend, huses⟩ := append_assistant J hrole hcontent
        rw [happend] at hm hmem
        obtain rfl := List.mem_singleton.mp hmem
        have hc : c = [] := by
          have hlen := congrArg List.length hm
          rw [List.length_append, List.length_cons, List.length_cons, List.length_nil] at hlen
          exact List.length_eq_zero_iff.mp (by omega)
        rw [hc, List.nil_append, toolCallsOf_assistantMessage]
        rw [toolCallsOf_assistantMessage] at hcalls
        have hname : ∀ b ∈ content, isUse b = true → (b.jStr (lit "name")).isSome = true := fun b hb hu =>
          hnamed m List.mem_cons_self b (by rw [huses]; exact List.mem_filter.mpr ⟨hb, hu⟩)
        have hopen : uses m ≠ [] := by
          intro hnil
          have hids := toToolCall_ids J hname
          rw [← huses, hnil] at hids
          exact hcalls (List.map_eq_nil_iff.mp hids)
        cases msgs with
        | nil => exact absurd (hclosed _ rfl) hopen
        | cons m' msgs =>
          obtain ⟨hlink, hchain'⟩ := List.isChain_cons_cons.mp hchain
          obtain ⟨hrole', harr, hans⟩ := hlink.1 hopen
          rw [huses] at hans
          exact reply_converted J (fun y hy => hturn y (List.mem_cons_of_mem _ (List.mem_cons_of_mem _ hy))) hchain'
            hrole' harr hname hans
      · rw [(append_user J hrole hcontent).1] at hmem
        exact absurd (toolCallsOf_user hmem) hcalls
      · rw [hcopy] at hmem
        rw [List.mem_singleton.mp hmem] at hcalls
        exact absurd hnone hcalls

theorem spokenAll_append (a b : List Json) : spokenAll (a ++ b) = spokenAll a ++ spokenAll b := by
  unfold spokenAll
  rw [List.filter_append, List.filterMap_append]

theorem spokenAll_singleton {m : Json} (h : isTool m = false) : spokenAll [m] = (spoken m).toList := by
  unfold spokenAll
  rw [List.filter_cons_of_pos (by rw [h]; rfl)]
  cases hm : spoken m with
  | none => exact List.filterMap_cons_none hm
  | some x => exact List.filterMap_cons_some hm

/-- The message of a turn's texts says them. -/
theorem spoken_join {m m' : Json} {role : Str} {content : List Json} (hrole : m.jStr (lit "role") = some role)
    (hcontent : m.getObjectItem (lit "content") = some (.arr content)) (hrole' : m'.jStr (lit "role") = some role)
    (hcontent' : m'.getObjectItem (lit "content") = some (.str (joinBlocks content (lit "text")))) :
    spoken m' = spoken m := by
  unfold spoken
  rw [hrole, hcontent, hrole', hcontent']
  simp only [← texts_text]
  by_cases h : texts content (lit "text") = []
  · simp only [if_pos h, if_pos (joinBlocks_eq_nil.mpr h)]
  · simp only [if_neg h, if_neg (mt joinBlocks_eq_nil.mp h)]
    rw [joinBlocks_eq]

theorem spokenAll_tools (content : List Json) : spokenAll (content.filterMap toToolMessage) = [] := by
  have hnone : (content.filterMap toToolMessage).filter (fun t => !isTool t) = [] := by
    refine List.filter_eq_nil_iff.mpr fun t ht => ?_
    obtain ⟨b, -, hb⟩ := List.mem_filterMap.mp ht
    unfold toToolMessage at hb
    split at hb
    · cases hb
      exact Bool.false_ne_true
    · cases hb
  unfold spokenAll
  rw [hnone]
  rfl

/-- No text is lost, and none is made up. -/
theorem spokenAll_toOpenai {msgs : List Json} (hturn : ∀ m ∈ msgs, Turn m) :
    spokenAll (toOpenai J msgs) = spokenAll msgs := by
  have hnotool : ∀ {m : Json}, Turn m → isTool m = false := by
    intro m h
    unfold isTool
    rcases h.role with hr | hr <;> rw [hr] <;> rfl
  induction msgs with
  | nil => rfl
  | cons m msgs ih =>
    have ht := hturn m List.mem_cons_self
    have hm : spokenAll (appendOpenaiMessage J m) = spokenAll [m] := by
      rw [spokenAll_singleton (hnotool ht)]
      rcases turn_cases J ht with ⟨hrole, content, hcontent⟩ | ⟨hrole, content, hcontent⟩ | ⟨hcopy, -, -, htool⟩
      · rw [(append_assistant J hrole hcontent).1, spokenAll_singleton (assistantMessage_role J content)]
        exact congrArg Option.toList (spoken_join hrole hcontent rfl rfl)
      · rw [(append_user J hrole hcontent).1, spokenAll_append, spokenAll_tools, List.nil_append]
        unfold textMessage
        by_cases h : joinBlocks content (lit "text") = []
        · have hnone : spoken m = none := by
            unfold spoken
            rw [hrole, hcontent]
            exact if_pos (texts_text content ▸ joinBlocks_eq_nil.mp h)
          rw [if_neg (not_not.mpr h), hnone]
          rfl
        · rw [if_pos h, spokenAll_singleton rfl]
          exact congrArg Option.toList (spoken_join hrole hcontent rfl rfl)
      · rw [hcopy, spokenAll_singleton htool]
    have happ : toOpenai J (m :: msgs) = appendOpenaiMessage J m ++ toOpenai J msgs := List.flatMap_cons
    rw [happ, spokenAll_append, hm, ih fun x hx => hturn x (List.mem_cons_of_mem _ hx), ← spokenAll_append]
    rfl

/-- The calls of the history, in order. -/
theorem calls_toOpenai {msgs : List Json} (hturn : ∀ m ∈ msgs, Turn m)
    (hnamed : ∀ m ∈ msgs, ∀ b ∈ uses m, (b.jStr (lit "name")).isSome = true) :
    (toOpenai J msgs).flatMap (fun m => (toolCallsOf m).map (·.jStr (lit "id"))) =
      msgs.flatMap fun m => (uses m).map fun b => some ((b.jStr (lit "id")).getD []) := by
  induction msgs with
  | nil => rfl
  | cons m msgs ih =>
    have hm : (appendOpenaiMessage J m).flatMap (fun m => (toolCallsOf m).map (·.jStr (lit "id"))) =
        (uses m).map fun b => some ((b.jStr (lit "id")).getD []) := by
      rcases turn_cases J (hturn m List.mem_cons_self) with ⟨hrole, content, hcontent⟩ | ⟨hrole, content, hcontent⟩ |
        ⟨hcopy, hnone, huses, -⟩
      · obtain ⟨happend, huses⟩ := append_assistant J hrole hcontent
        have hname := hnamed m List.mem_cons_self
        rw [huses] at hname
        rw [happend, huses, List.flatMap_singleton, toolCallsOf_assistantMessage]
        exact toToolCall_ids J fun b hb hu => hname b (List.mem_filter.mpr ⟨hb, hu⟩)
      · have huses : uses m = [] := if_neg (by rw [hrole]; decide)
        rw [(append_user J hrole hcontent).1, huses]
        refine List.flatMap_eq_nil_iff.mpr fun t ht => ?_
        rw [toolCallsOf_user ht]
        rfl
      · rw [hcopy, huses, List.flatMap_singleton, hnone]
        rfl
    have happ : toOpenai J (m :: msgs) = appendOpenaiMessage J m ++ toOpenai J msgs := List.flatMap_cons
    rw [happ, List.flatMap_append, List.flatMap_cons, hm,
      ih (fun x hx => hturn x (List.mem_cons_of_mem _ hx)) fun x hx => hnamed x (List.mem_cons_of_mem _ hx)]

/-! ## The text shown -/

theorem isBlank_iff {c : UInt8} : isBlank c = true ↔ c ∈ lit " \n\r\t" := by
  show _ ↔ c ∈ [ch ' ', ch '\n', ch '\r', ch '\t']
  simp [isBlank, or_assoc]

/-- The loop over the blanks stops where they end. -/
theorem dropWhile_blank {lead text : Str} (hlead : Blank lead) (htext : Flush text) :
    (lead ++ text).dropWhile isBlank = text := by
  rw [List.dropWhile_append_of_pos fun c hc => isBlank_iff.mpr (hlead c hc)]
  cases text with
  | nil => rfl
  | cons c text => exact List.dropWhile_cons_of_neg fun h => htext c rfl (isBlank_iff.mp h)

theorem startsWith_append (p s : Str) : startsWith (p ++ s) p = true :=
  List.isPrefixOf_iff_prefix.mpr (List.prefix_append p s)

theorem flush_think (s : Str) : Flush (lit "<think>" ++ s) := by
  intro c hc
  cases hc
  decide

/-- The tag does not end a think block that has not begun. -/
theorem noEnd_think {think : Str} (h : ¬ lit "</think>" <:+: think) : ¬ lit "</think>" <:+: lit "<think>" ++ think := by
  have htag : lit "</think>" = [60, 47, 116, 104, 105, 110, 107, 62] := rfl
  have hopen : lit "<think>" ++ think = 60 :: 116 :: 104 :: 105 :: 110 :: 107 :: 62 :: think := rfl
  rw [htag] at h ⊢
  rw [hopen]
  simp [List.infix_cons_iff, h]

/-- `call_openai` keeps what is shown. -/
theorem splitThink_shows {content text : Str} (h : Shows content text) : (splitThink content).2 = text := by
  cases h with
  | plain hlead htext hno =>
    unfold splitThink
    simp only [dropWhile_blank hlead htext]
    have hstart : ¬ startsWith text (lit "<think>") = true := fun h => hno (List.isPrefixOf_iff_prefix.mp h)
    rw [if_neg hstart]
  | thought hlead hend hgap htext =>
    rename_i lead think gap
    have hfind := strstr_after (c := ch '<') (p := lit "/think>") (by decide) (noEnd_think hend) (gap ++ text)
    rw [List.append_assoc] at hfind
    have htag : ch '<' :: lit "/think>" = lit "</think>" := rfl
    rw [htag] at hfind
    unfold splitThink
    simp only [dropWhile_blank hlead (flush_think _)]
    rw [if_pos (startsWith_append _ _), hfind]
    exact dropWhile_blank hgap htext
  | thinking hlead hend =>
    rename_i lead think
    have hnone : strstr (lit "<think>" ++ think) (lit "</think>") = none := by
      by_contra hne
      exact noEnd_think hend (strstr_isSome.mp (Option.ne_none_iff_isSome.mp hne))
    unfold splitThink
    simp only [dropWhile_blank hlead (flush_think _)]
    rw [if_pos (startsWith_append _ _), hnone]

/-- Every text is blanks and one that does not start with them. -/
theorem exists_blank (s : Str) : ∃ lead text, s = lead ++ text ∧ Blank lead ∧ Flush text := by
  refine ⟨s.takeWhile isBlank, s.dropWhile isBlank, List.takeWhile_append_dropWhile.symm, ?_, ?_⟩
  · exact fun c hc => isBlank_iff.mp (List.mem_takeWhile_imp hc)
  · intro c hc hin
    have hstop := List.head?_dropWhile_not isBlank s
    rw [Option.mem_def.mp hc] at hstop
    exact absurd (isBlank_iff.mpr hin) (Bool.eq_false_iff.mp hstop)

theorem exists_shows (content : Str) : ∃ text, Shows content text := by
  obtain ⟨lead, text, rfl, hlead, htext⟩ := exists_blank content
  by_cases hstart : lit "<think>" <+: text
  · obtain ⟨think, rfl⟩ := hstart
    by_cases hend : lit "</think>" <:+: think
    · obtain ⟨think, behind, rfl, hfirst⟩ := exists_first (by decide) hend
      obtain ⟨gap, text, rfl, hgap, htext⟩ := exists_blank behind
      exact ⟨_, .thought hlead hfirst hgap htext⟩
    · exact ⟨_, .thinking hlead hend⟩
  · exact ⟨_, .plain hlead htext hstart⟩

/-- The text `call_openai` keeps of a message. -/
def keptText (message : Json) : Str := (((message.jStr (lit "content")).map splitThink).getD (none, [])).2

theorem shown_iff {message : Json} {text : Str} : Shown message text ↔ text = keptText message := by
  unfold Shown keptText
  cases message.jStr (lit "content") with
  | none => simp
  | some content =>
    obtain ⟨text', h⟩ := exists_shows content
    constructor
    · rintro (⟨_, hc, hshows⟩ | ⟨hc, -⟩)
      · cases hc
        exact (splitThink_shows hshows).symm
      · cases hc
    · intro htext
      rw [htext]
      exact .inl ⟨content, rfl, by rw [Option.map_some, Option.getD_some, splitThink_shows h]; exact h⟩

/-! ## A response, replayed -/

theorem toolArguments_holds {args : Json} {kvs : List (Str × Json)} (h : HoldsObject J args kvs) :
    J.parse (toolArguments J (some args)) = some (.obj kvs) := by
  cases h with
  | object => exact J.parse_print _
  | text hne hparse =>
    unfold toolArguments
    simp only [if_neg hne, hparse]
  | twice hne hparse hinner =>
    unfold toolArguments
    simp only [if_neg hne, hparse, hinner]
    exact J.parse_print _

theorem named_iff {tc : Json} : named tc = true ↔ ∃ name, wireName tc = some name ∧ functionName tc = some name := by
  unfold named wireName functionName
  cases (tc.getObjectItem (lit "function")).bind (·.jStr (lit "name")) with
  | none => simp
  | some name => by_cases h : name = [] <;> simp [h]

/-- Arguments hold one object. -/
theorem HoldsObject.unique {args : Json} {kvs kvs' : List (Str × Json)} (h : HoldsObject J args kvs)
    (h' : HoldsObject J args kvs') : kvs = kvs' := by
  have hparse := toolArguments_holds J h
  rw [toolArguments_holds J h'] at hparse
  cases hparse
  rfl

/-- What a call says that replays an entry. -/
theorem Replays.key {drawn : Str} {entry call args : Json} {kvs : List (Str × Json)} (h : Replays J drawn entry call)
    (hargs : argumentsOf entry = some args) (hholds : HoldsObject J args kvs) :
    callKey J call = (call.jStr (lit "id"), functionName entry, some (.obj kvs)) := by
  obtain ⟨args', kvs', text, hargs', hholds', htext, hparse⟩ := h.arguments
  rw [hargs] at hargs'
  cases hargs'
  obtain rfl := hholds.unique J hholds'
  unfold callKey
  rw [htext, ← h.name, Option.bind_some]
  simp only [hparse]
  rfl

/-- An entry without a name gives no call. -/
theorem openaiCall_unnamed (rnd : Str) {tc : Json} (h : named tc = false) : openaiCall J rnd tc = none := by
  have hname : wireName tc = none := by
    by_contra hne
    obtain ⟨name, hname⟩ := Option.ne_none_iff_exists'.mp hne
    have hfun : functionName tc = some name := (Option.filter_eq_some_iff.mp hname).1
    rw [named_iff.mpr ⟨name, hname, hfun⟩] at h
    cases h
  unfold openaiCall
  rw [hname]

/-- An entry taken, converted back. -/
theorem openaiCall_replays (rnd : Str) {tc : Json} (hnamed : named tc = true)
    (hheld : ∃ args kvs, argumentsOf tc = some args ∧ HoldsObject J args kvs)
    (hid : ∀ id, tc.jStr (lit "id") = some id → id.length < 64) :
    ∃ p call, openaiCall J rnd tc = some p ∧ toToolCall J p.2 = some call ∧ Replays J rnd tc call := by
  obtain ⟨name, hname, hfun⟩ := named_iff.mp hnamed
  obtain ⟨args, kvs, hargs, hholds⟩ := hheld
  have hparse := toolArguments_holds J hholds
  rw [← hargs] at hparse
  unfold argumentsOf at hparse
  have hcall : ∃ p, openaiCall J rnd tc = some p ∧ p.2 = .obj [(lit "type", .str (lit "tool_use")),
      (lit "id", .str (cut 64 ((wireId tc).getD (lit "call_" ++ rnd)))), (lit "name", .str name), (lit "input", .obj kvs)] := by
    unfold openaiCall
    rw [hname]
    simp only [hparse]
    exact ⟨_, rfl, rfl⟩
  obtain ⟨p, hp, hblock⟩ := hcall
  refine ⟨p, _, hp, by rw [hblock]; rfl, ?_, ?_, ?_, args, kvs, _, hargs, hholds, rfl, J.parse_print _⟩
  · intro id hgiven hne
    have hwire : wireId tc = some id := by
      unfold wireId
      rw [hgiven]
      exact Option.filter_some_pos (by simpa using hne)
    rw [hwire, Option.getD_some, (cut_eq_self (by decide)).mpr (hid id hgiven)]
    rfl
  · intro hnone
    have hwire : wireId tc = none := by
      unfold wireId
      cases hgiven : tc.jStr (lit "id") with
      | none => rfl
      | some id =>
        rw [hnone id hgiven]
        rfl
    rw [hwire, Option.getD_none]
    rfl
  · rw [hfun]
    rfl

theorem replayText_texts (text : Str) : joinBlocks (replayText text) (lit "text") = text := by
  unfold replayText
  by_cases h : text = []
  · rw [if_pos h, h]
    rfl
  · rw [if_neg h, joinBlocks_eq]
    have hblock : blockText (lit "text") (.obj [(lit "type", .str (lit "text")), (lit "text", .str text)]) = some text := by
      have htype : (Json.obj [(lit "type", .str (lit "text")), (lit "text", .str text)]).jStr (lit "type") =
          some (lit "text") := rfl
      unfold blockText
      rw [if_pos htype]
      exact Option.filter_some_pos (by simpa using h)
    unfold texts
    rw [List.filterMap_cons_some hblock, List.filterMap_nil, List.intercalate_singleton]

/-- The tool calls of a response have no text. -/
theorem openaiCalls_texts (rnds : Nat → Str) (message : Json) :
    texts ((openaiCalls J rnds message).map (·.2)) (lit "text") = [] := by
  unfold texts openaiCalls
  rw [List.map_filterMap, List.filterMap_filterMap]
  refine List.filterMap_eq_nil_iff.mpr fun x _ => ?_
  unfold openaiCall
  cases wireName x.1 with
  | none => rfl
  | some name => rfl

/-- A message of OpenAI whose calls hold an object and have ids that fit. -/
structure Replayable (message : Json) : Prop where
  held : ∀ tc ∈ toolCallsOf message, named tc = true →
    ∃ args kvs, argumentsOf tc = some args ∧ HoldsObject J args kvs
  ids : ∀ tc ∈ toolCallsOf message, named tc = true → ∀ id, tc.jStr (lit "id") = some id → id.length < 64

/-- The calls of a response, as its content gives them back. -/
theorem openaiCalls_replay {rnds : Nat → Str} {message : Json} (h : Replayable J message) :
    List.Forall₂ (fun e call => Replays J (rnds e.2) e.1 call) ((toolCallsOf message).zipIdx.filter (named ·.1))
      (((openaiCalls J rnds message).map (·.2)).filterMap (toToolCall J)) := by
  have hall : ∀ e ∈ (toolCallsOf message).zipIdx, e.1 ∈ toolCallsOf message := fun e he => List.fst_mem_of_mem_zipIdx he
  have hcalls : openaiCalls J rnds message = (toolCallsOf message).zipIdx.filterMap fun e => openaiCall J (rnds e.2) e.1 := rfl
  rw [hcalls]
  clear hcalls
  generalize (toolCallsOf message).zipIdx = entries at hall ⊢
  induction entries with
  | nil => exact .nil
  | cons e entries ih =>
    have hrest := ih fun e he => hall e (List.mem_cons_of_mem _ he)
    have hmem := hall e List.mem_cons_self
    have hcons : (e :: entries).filterMap (fun e => openaiCall J (rnds e.2) e.1) =
        (openaiCall J (rnds e.2) e.1).toList ++ entries.filterMap fun e => openaiCall J (rnds e.2) e.1 := by
      rw [List.filterMap_cons]
      cases openaiCall J (rnds e.2) e.1 <;> rfl
    by_cases hnamed : named e.1 = true
    · obtain ⟨p, call, hp, hcall, hreplays⟩ :=
        openaiCall_replays J (rnds e.2) hnamed (h.held e.1 hmem hnamed) (h.ids e.1 hmem hnamed)
      rw [List.filter_cons_of_pos (p := fun e : Json × Nat => named e.1) hnamed, hcons, hp, Option.toList_some,
        List.singleton_append, List.map_cons, List.filterMap_cons_some hcall]
      exact .cons hreplays hrest
    · rw [List.filter_cons_of_neg (p := fun e : Json × Nat => named e.1) hnamed, hcons,
        openaiCall_unnamed J (rnds e.2) (Bool.eq_false_iff.mpr hnamed)]
      exact hrest

/-- What `call_openai` made of a response, converted back. -/
theorem callOpenai_back {rnds : Nat → Str} {body : Str} {message : Json} (hbody : Carries J body message)
    (h : Replayable J message) :
    ∃ r m, callOpenai J rnds (.ok body) = .ok r ∧ appendOpenaiMessage J (assistant r.content) = [m] ∧
      m.jStr (lit "role") = some (lit "assistant") ∧ m.jStr (lit "content") = some (keptText message) ∧
      List.Forall₂ (fun e call => Replays J (rnds e.2) e.1 call) ((toolCallsOf message).zipIdx.filter (named ·.1))
        (toolCallsOf m) := by
  have hmsg : (openaiChoice J body).bind (·.getObjectItem (lit "message")) = some message := by
    obtain ⟨root, choices, choice, rest, hroot, hchoices, hfirst, hmessage⟩ := hbody
    unfold openaiChoice firstItem
    rw [hroot, Option.bind_some, hchoices, Option.bind_some, hfirst]
    exact hmessage
  have hnocall : (replayText (keptText message)).filterMap (toToolCall J) = [] := by
    unfold replayText
    split <;> rfl
  have hr : ∃ r, callOpenai J rnds (.ok body) = .ok r ∧
      r.content = replayText (keptText message) ++ (openaiCalls J rnds message).map (·.2) := by
    unfold callOpenai
    simp only [hmsg]
    exact ⟨_, rfl, rfl⟩
  obtain ⟨r, hr, hcontent⟩ := hr
  have htext : joinBlocks r.content (lit "text") = keptText message := by
    have hsplit : texts r.content (lit "text") = texts (replayText (keptText message)) (lit "text") := by
      rw [hcontent]
      unfold texts
      rw [List.filterMap_append]
      exact (congrArg (_ ++ ·) (openaiCalls_texts J rnds message)).trans (List.append_nil _)
    rw [joinBlocks_eq, hsplit, ← joinBlocks_eq, replayText_texts]
  refine ⟨r, assistantMessage J r.content, hr, (append_assistant J (m := assistant r.content) rfl rfl).1, ?_, ?_, ?_⟩
  · unfold assistantMessage
    rfl
  · unfold assistantMessage
    rw [htext]
    rfl
  · rw [toolCallsOf_assistantMessage, hcontent, List.filterMap_append, hnocall, List.nil_append]
    exact openaiCalls_replay J h

/-! ## Both ways -/

/-- What the conversion keeps of a history: each call is answered in place, no text is lost
    and no call is. -/
structure Preserved (msgs : List Json) : Prop where
  answered : Answered (toOpenai J msgs)
  texts : spokenAll (toOpenai J msgs) = spokenAll msgs
  calls : (toOpenai J msgs).flatMap (fun m => (toolCallsOf m).map (·.jStr (lit "id"))) =
    msgs.flatMap fun m => (uses m).map fun b => some ((b.jStr (lit "id")).getD [])

/-- What sessions send is well paired. -/
theorem paired_wellPaired {msgs : List Json} (h : Paired msgs) (hturn : ∀ m ∈ msgs, Turn m)
    (hnamed : ∀ m ∈ msgs, ∀ b ∈ uses m, (b.jStr (lit "name")).isSome = true) : WellPaired msgs := by
  have hids : ∀ m, useIds m = (uses m).map (·.jStr (lit "id")) := by
    intro m
    unfold useIds uses
    split <;> rfl
  have hopen : ∀ m, useIds m ≠ [] ↔ uses m ≠ [] := by
    intro m
    rw [hids, ne_eq, List.map_eq_nil_iff]
  refine ⟨hturn, hnamed, ?_, ?_⟩
  · intro i m hm huses
    obtain ⟨m', hm', hans⟩ := h.answered i m hm ((hopen m).mpr huses)
    refine ⟨m', hm', hans.role, hans.array, ?_⟩
    -- every block of the answer is a result
    have hall : results m' = blocks m' := by
      refine List.filter_eq_self.mpr fun b hb => ?_
      have hmem := List.mem_map_of_mem (f := fun b : Json => (b.jStr (lit "type"), b.jStr (lit "tool_use_id"))) hb
      rw [hans.results] at hmem
      obtain ⟨id, -, hid⟩ := List.mem_map.mp hmem
      exact decide_eq_true (congrArg Prod.fst hid).symm
    have hsnd := congrArg (List.map Prod.snd) hans.results
    rw [List.map_map, List.map_map] at hsnd
    rw [hall, ← hids]
    exact hsnd.trans (List.map_id _)
  · intro j m' hm' hresults
    have hhas : hasResult m' = true := by
      obtain ⟨b, hb⟩ := List.exists_mem_of_ne_nil _ hresults
      exact List.any_eq_true.mpr ⟨b, (List.mem_filter.mp hb).1, (List.mem_filter.mp hb).2⟩
    obtain ⟨i, m, hi, hm, huses⟩ := h.only j m' hm' hhas
    exact ⟨i, m, hi, hm, (hopen m).mp huses⟩

/-- Both ways. -/
theorem conversion_preserves :
    (∀ msgs, WellPaired msgs → Preserved J msgs) ∧
    ∀ rnds body message, Carries J body message → Replayable J message →
      ∃ r m, callOpenai J rnds (.ok body) = .ok r ∧ appendOpenaiMessage J (assistant r.content) = [m] ∧
        m.jStr (lit "role") = some (lit "assistant") ∧
        (∀ text, Shown message text ↔ m.jStr (lit "content") = some text) ∧
        List.Forall₂ (fun e call => Replays J (rnds e.2) e.1 call) ((toolCallsOf message).zipIdx.filter (named ·.1))
          (toolCallsOf m) := by
  constructor
  · intro msgs h
    exact ⟨answered_toOpenai J h.turn h.named h.chain h.closed, spokenAll_toOpenai J h.turn,
      calls_toOpenai J h.turn h.named⟩
  · intro rnds body message hbody h
    obtain ⟨r, m, hr, hm, hrole, htext, hcalls⟩ := callOpenai_back J hbody h
    refine ⟨r, m, hr, hm, hrole, fun text => ?_, hcalls⟩
    rw [shown_iff, htext, Option.some_inj]
    exact eq_comm

def textOf (text : String) : Json := .obj [(lit "type", .str (lit "text")), (lit "text", .str (lit text))]

/-- A call, its answer, and a word more. -/
def oneExchange : List Json :=
  [userText (lit "hi"),
   assistant [textOf "Let me see.", textOf "One moment.",
     .obj [(lit "type", .str (lit "tool_use")), (lit "id", .str (lit "a")), (lit "name", .str (lit "exec"))]],
   toolMessage [textOf "Go on.",
     .obj [(lit "type", .str (lit "tool_result")), (lit "tool_use_id", .str (lit "a")), (lit "content", .str (lit "done"))]]]

theorem wellPaired_oneExchange : WellPaired oneExchange := by
  refine ⟨?_, ?_, ?_, ?_⟩
  · unfold oneExchange
    simp only [List.forall_mem_cons]
    exact ⟨⟨Or.inl rfl, rfl, rfl⟩, ⟨Or.inr rfl, rfl, rfl⟩, ⟨Or.inl rfl, rfl, rfl⟩, List.forall_mem_nil _⟩
  · decide
  · intro i m hm huses
    match i, hm with
    | 0, hm => cases hm; exact absurd rfl huses
    | 1, hm => cases hm; exact ⟨_, rfl, rfl, rfl, rfl⟩
    | 2, hm => cases hm; exact absurd rfl huses
  · intro j m' hm' hresults
    match j, hm' with
    | 0, hm' => cases hm'; exact absurd rfl hresults
    | 1, hm' => cases hm'; exact absurd rfl hresults
    | 2, hm' => exact ⟨1, _, rfl, rfl, by decide⟩

def pwd : List (Str × Json) := [(lit "cmd", .str (lit "pwd"))]

def ls : List (Str × Json) := [(lit "cmd", .str (lit "ls"))]

/-- A call with its arguments in a string, one without a name, and one without an id whose
    arguments are in a string in a string. -/
def threeCalls : List Json :=
  [.obj [(lit "id", .str (lit "a1")), (lit "function",
     .obj [(lit "name", .str (lit "exec")), (lit "arguments", .str (CJson.compact.print (.obj pwd)))])],
   .obj [(lit "id", .str (lit "a2")), (lit "function", .obj [(lit "arguments", .obj [])])],
   .obj [(lit "function", .obj [(lit "name", .str (lit "exec")),
     (lit "arguments", .str (CJson.compact.print (.str (CJson.compact.print (.obj ls)))))])]]

def thoughtMessage : Json :=
  .obj [(lit "content", .str (lit "  <think>x</think>\n ok")), (lit "tool_calls", .arr threeCalls)]

def bodyOf (message : Json) : Str := CJson.compact.print (.obj [(lit "choices", .arr [.obj [(lit "message", message)]])])

theorem carries_bodyOf (message : Json) : Carries CJson.compact (bodyOf message) message :=
  ⟨_, _, _, [], CJson.compact.parse_print _, rfl, rfl, rfl⟩

theorem replayable_thoughtMessage : Replayable CJson.compact thoughtMessage := by
  have hcalls : toolCallsOf thoughtMessage = threeCalls := rfl
  refine ⟨?_, ?_⟩
  · rw [hcalls, threeCalls, List.forall_mem_cons, List.forall_mem_cons, List.forall_mem_singleton]
    exact ⟨fun _ => ⟨_, _, rfl, .text (by decide +kernel) (CJson.compact.parse_print _)⟩, fun h => absurd h (by decide),
      fun _ => ⟨_, _, rfl, .twice (by decide +kernel) (CJson.compact.parse_print _) (CJson.compact.parse_print _)⟩⟩
  · have hids : ∀ tc ∈ threeCalls, (tc.jStr (lit "id")).all (·.length < 64) = true := by decide
    intro tc htc _ id hid
    rw [hcalls] at htc
    have := hids tc htc
    rw [hid] at this
    exact of_decide_eq_true this

/-- The text behind the think block, and the two calls that name their function. -/
theorem conversion_preserves_thought :
    Preserved CJson.compact oneExchange ∧
    toOpenai CJson.compact oneExchange =
      [userText (lit "hi"),
       .obj [(lit "role", .str (lit "assistant")), (lit "content", .str (lit "Let me see.\nOne moment.")),
         (lit "tool_calls", .arr [.obj [(lit "id", .str (lit "a")), (lit "type", .str (lit "function")),
           (lit "function", .obj [(lit "name", .str (lit "exec")), (lit "arguments", .str (lit "\x7b\x7d"))])]])],
       .obj [(lit "role", .str (lit "tool")), (lit "tool_call_id", .str (lit "a")), (lit "content", .str (lit "done"))],
       userText (lit "Go on.")] ∧
    ∃ r m, callOpenai CJson.compact (fun _ => lit "1b2c3d4e") (.ok (bodyOf thoughtMessage)) = .ok r ∧
      appendOpenaiMessage CJson.compact (assistant r.content) = [m] ∧ m.jStr (lit "content") = some (lit "ok") ∧
      (toolCallsOf m).map (callKey CJson.compact) =
        [(some (lit "a1"), some (lit "exec"), some (.obj pwd)),
         (some (lit "call_1b2c3d4e"), some (lit "exec"), some (.obj ls))] := by
  refine ⟨(conversion_preserves CJson.compact).1 oneExchange wellPaired_oneExchange, rfl, ?_⟩
  obtain ⟨r, m, hr, hm, -, htext, hcalls⟩ := (conversion_preserves CJson.compact).2 (fun _ => lit "1b2c3d4e")
    (bodyOf thoughtMessage) thoughtMessage (carries_bodyOf _) replayable_thoughtMessage
  refine ⟨r, m, hr, hm, (htext _).mp (.inl ⟨_, rfl, ?_⟩), ?_⟩
  · show Shows (lit "  " ++ (lit "<think>" ++ (lit "x" ++ (lit "</think>" ++ (lit "\n " ++ lit "ok"))))) (lit "ok")
    have hblank : ∀ s : Str, s.all (fun c => c ∈ lit " \n\r\t") = true → Blank s :=
      fun s hs c hc => of_decide_eq_true (List.all_eq_true.mp hs c hc)
    refine .thought (hblank _ (by decide)) (by decide) (hblank _ (by decide)) fun c hc => ?_
    cases hc
    decide
  · obtain ⟨first, unnamed, last, hthree⟩ : ∃ first unnamed last, threeCalls = [first, unnamed, last] := ⟨_, _, _, rfl⟩
    have hnamed : ((toolCallsOf thoughtMessage).zipIdx.filter (named ·.1)) = [(first, 0), (last, 2)] := by
      cases hthree
      rfl
    rw [hnamed, List.forall₂_cons_left_iff] at hcalls
    obtain ⟨call, calls, hcall, hcalls, hm'⟩ := hcalls
    rw [List.forall₂_cons_left_iff] at hcalls
    obtain ⟨call', calls', hcall', hcalls, rfl⟩ := hcalls
    rw [List.forall₂_nil_left_iff] at hcalls
    cases hthree
    have hkey := hcall.key CJson.compact rfl (.text (by decide +kernel) (CJson.compact.parse_print _))
    have hkey' := hcall'.key CJson.compact rfl
      (.twice (by decide +kernel) (CJson.compact.parse_print _) (CJson.compact.parse_print _))
    rw [hm', hcalls, List.map_cons, List.map_cons, List.map_nil, hkey, hkey', hcall.id (lit "a1") rfl (by decide),
      hcall'.drawn (fun id hid => by cases hid)]
    rfl

/-- A call that names no function. -/
def unnamedMessage : Json :=
  .obj [(lit "tool_calls", .arr [.obj [(lit "id", .str (lit "a")), (lit "function", .obj [(lit "arguments", .obj [])])]])]

theorem unnamed_call_skipped : ¬ ∀ rnds body message, Carries CJson.compact body message →
    (∀ tc ∈ toolCallsOf message, ∃ args kvs, argumentsOf tc = some args ∧ HoldsObject CJson.compact args kvs) →
    (∀ tc ∈ toolCallsOf message, ∀ id, tc.jStr (lit "id") = some id → id.length < 64) →
    ∃ r m, callOpenai CJson.compact rnds (.ok body) = .ok r ∧
      appendOpenaiMessage CJson.compact (assistant r.content) = [m] ∧
      List.Forall₂ (fun e call => Replays CJson.compact (rnds e.2) e.1 call) (toolCallsOf message).zipIdx (toolCallsOf m) := by
  intro h
  have hcalls : toolCallsOf unnamedMessage =
      [.obj [(lit "id", .str (lit "a")), (lit "function", .obj [(lit "arguments", .obj [])])]] := rfl
  have hheld : ∀ tc ∈ toolCallsOf unnamedMessage, ∃ args kvs, argumentsOf tc = some args ∧ HoldsObject CJson.compact args kvs := by
    rw [hcalls, List.forall_mem_singleton]
    exact ⟨_, _, rfl, .object⟩
  have hids : ∀ tc ∈ toolCallsOf unnamedMessage, ∀ id, tc.jStr (lit "id") = some id → id.length < 64 := by
    rw [hcalls, List.forall_mem_singleton]
    intro id hid
    cases hid
    decide
  obtain ⟨r, m, hr, hm, hall⟩ := h (fun _ => []) (bodyOf unnamedMessage) unnamedMessage (carries_bodyOf _) hheld hids
  obtain ⟨r', m', hr', hm', -, -, hnamed⟩ := @callOpenai_back CJson.compact (fun _ => []) _ _ (carries_bodyOf unnamedMessage)
    ⟨fun tc htc _ => hheld tc htc, fun tc htc _ => hids tc htc⟩
  rw [hr] at hr'
  cases hr'
  rw [hm] at hm'
  cases hm'
  -- no entry names a function, so there is no call
  have hnil : ((toolCallsOf unnamedMessage).zipIdx.filter (named ·.1)) = [] := by decide
  rw [hnil, List.forall₂_nil_left_iff] at hnamed
  rw [hnamed, List.forall₂_nil_right_iff] at hall
  exact absurd hall (by decide)

end Shclaw.Provider
