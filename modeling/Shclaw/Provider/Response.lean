/-
  Shclaw.Provider.Response — what the two provider calls make of a response
  (`src/provider.c`: `call_anthropic`, `call_openai` after the HTTP exchange,
  `add_text`, `add_tool_call`, `tool_arguments`).

  Both build the assistant turn to replay (`content`) and, beside it, the table of
  tool calls the session runs. The table's fields are 64 bytes; the content holds
  Anthropic's strings as received, OpenAI's id after a cut to 63 bytes and name as
  received.

  `tool_calls_identity`: the table lists exactly the `tool_use` blocks of the content,
  id for id and name for name, if and only if every string that goes through a field
  uncut before it fits: ids and names for Anthropic, names for OpenAI; and OpenAI's
  ids stay distinct if and only if no two of them agree on their first 63 bytes.
-/

import Shclaw.JsonText

namespace Shclaw.Provider

open Lib

/-! ## Responses -/

/-- The outcome of `post_retry`: a body with status 200, or the text of the failure. -/
abbrev Http := Except Str Str

structure ToolCall where
  id : Str
  name : Str
  inputJson : Str
  deriving DecidableEq

structure TextBlock where
  type : Str
  text : Str
  deriving DecidableEq

structure Response where
  textBlocks : List TextBlock
  toolCalls : List ToolCall
  stopReason : Str
  content : List Json

/-- `add_text`. -/
def textBlock (type : Str) (text : Option Str) : List TextBlock :=
  match text with
  | none => []
  | some t => if t = [] then [] else [⟨cut 16 type, t⟩]

/-- `add_tool_call`. -/
def toolCall (id name inputJson : Str) : ToolCall := ⟨cut 64 id, cut 64 name, inputJson⟩

variable (J : CJson)

/-! ## Anthropic -/

def anthropicText (block : Json) : List TextBlock :=
  if block.jStr (lit "type") = some (lit "text") then textBlock (lit "text") (block.jStr (lit "text"))
  else if block.jStr (lit "type") = some (lit "thinking") then textBlock (lit "thinking") (block.jStr (lit "thinking"))
  else []

def anthropicCall (block : Json) : Option ToolCall :=
  if block.jStr (lit "type") = some (lit "tool_use") then
    match block.jStr (lit "id"), block.jStr (lit "name") with
    | some id, some name =>
      some (toolCall id name (((block.getObjectItem (lit "input")).map J.print).getD (lit "\x7b\x7d")))
    | _, _ => none
  else none

/-- `cJSON_DetachItemFromObject(root, "content")`, an empty array when it is none. -/
def contentArray (root : Json) : List Json :=
  match root.getObjectItem (lit "content") with
  | some (.arr xs) => xs
  | _ => []

def callAnthropic (http : Http) : Except Str Response :=
  match http with
  | .error e => .error e
  | .ok body =>
    match J.parse body with
    | none => .error (lit "invalid JSON response")
    | some root =>
      let content := contentArray root
      .ok { textBlocks := content.flatMap anthropicText
            toolCalls := content.filterMap (anthropicCall J)
            stopReason := cut 32 ((root.jStr (lit "stop_reason")).getD (lit "end_turn"))
            content := content }

/-! ## OpenAI -/

def toolArguments (args : Option Json) : Str :=
  match args with
  | some (.obj kvs) => J.print (.obj kvs)
  | some (.str s) =>
    if s = [] then lit "\x7b\x7d"
    else
      match J.parse s with
      | some (.str t) =>
        match J.parse t with
        | some (.obj kvs) => J.print (.obj kvs)
        | _ => s
      | _ => s
  | _ => lit "\x7b\x7d"

def isBlank (c : UInt8) : Bool := c = ch ' ' || c = ch '\n' || c = ch '\r' || c = ch '\t'

/-- The inline `<think>` of a content, and the text after it. -/
def splitThink (text : Str) : Option Str × Str :=
  let text := text.dropWhile isBlank
  if startsWith text (lit "<think>") then
    let th := text.drop 7
    match strstr text (lit "</think>") with
    | some e => (some (th.take (th.length - e.length)), (e.drop 8).dropWhile isBlank)
    | none => (some th, [])
  else (none, text)

/-- `tc_id`, when it is one. -/
def wireId (tc : Json) : Option Str := (tc.jStr (lit "id")).filter (· ≠ [])

/-- The function name, when it is one. -/
def wireName (tc : Json) : Option Str := ((tc.getObjectItem (lit "function")).bind (·.jStr (lit "name"))).filter (· ≠ [])

/-- An entry of `tool_calls`; `rnd` is the id drawn when the server sent none. -/
def openaiCall (rnd : Str) (tc : Json) : Option (ToolCall × Json) :=
  match wireName tc with
  | none => none
  | some name =>
    -- some servers omit ids: the tool results still need one
    let id := cut 64 ((wireId tc).getD (lit "call_" ++ rnd))
    let args := toolArguments J ((tc.getObjectItem (lit "function")).bind (·.getObjectItem (lit "arguments")))
    let input := match J.parse args with
      | some (.obj kvs) => .obj kvs
      | _ => .obj []
    some (toolCall id name args,
      .obj [(lit "type", .str (lit "tool_use")), (lit "id", .str id), (lit "name", .str name), (lit "input", input)])

/-- `cJSON_GetArrayItem(a, 0)`. -/
def firstItem (a : Option Json) : Option Json := a.bind fun a => a.children.head?

/-- The text block to replay. -/
def replayText (text : Str) : List Json :=
  if text = [] then [] else [.obj [(lit "type", .str (lit "text")), (lit "text", .str text)]]

/-- `choices[0]`. -/
def openaiChoice (body : Str) : Option Json := firstItem ((J.parse body).bind (·.getObjectItem (lit "choices")))

def openaiEntries (message : Json) : List Json := ((message.getObjectItem (lit "tool_calls")).map Json.children).getD []

/-- The entries `call_openai` takes, with what it makes of them. -/
def openaiCalls (rnds : Nat → Str) (message : Json) : List (ToolCall × Json) :=
  (openaiEntries message).zipIdx.filterMap fun x => openaiCall J (rnds x.2) x.1

/-- `rnds i` is the id drawn for the `i`-th entry. -/
def callOpenai (rnds : Nat → Str) (http : Http) : Except Str Response :=
  match http with
  | .error e => .error e
  | .ok body =>
    match (openaiChoice J body).bind (·.getObjectItem (lit "message")) with
    | none => .error (lit "invalid response (no message)")
    | some message =>
      let reasoning := (message.jStr (lit "reasoning_content")).or (message.jStr (lit "reasoning"))
      let (think, text) := ((message.jStr (lit "content")).map splitThink).getD (none, [])
      let calls := openaiCalls J rnds message
      .ok { textBlocks := textBlock (lit "thinking") reasoning ++ textBlock (lit "thinking") think ++
              textBlock (lit "text") (some text)
            toolCalls := calls.map (·.1)
            stopReason := if calls ≠ [] then lit "tool_use"
              else if (openaiChoice J body).bind (·.jStr (lit "finish_reason")) = some (lit "length") then lit "max_tokens"
              else lit "end_turn"
            content := replayText text ++ calls.map (·.2) }

/-- `provider_type`: anything but `anthropic` speaks the OpenAI protocol. -/
inductive Kind where
  | anthropic
  | openai
  deriving DecidableEq

def llmCall (kind : Kind) (rnds : Nat → Str) (http : Http) : Except Str Response :=
  match kind with
  | .anthropic => callAnthropic J http
  | .openai => callOpenai J rnds http

/-! ## Ids and names through the table -/

/-- The id and name of a `tool_use` block that has both. -/
def useOf (block : Json) : Option (Str × Str) :=
  if block.jStr (lit "type") = some (lit "tool_use") then
    match block.jStr (lit "id"), block.jStr (lit "name") with
    | some id, some name => some (id, name)
    | _, _ => none
  else none

def ToolCall.key (c : ToolCall) : Str × Str := (c.id, c.name)

/-- The calls a response carries: the id, if it has one, and the name. -/
def wireCalls (kind : Kind) (http : Http) : List (Option Str × Str) :=
  match http with
  | .error _ => []
  | .ok body =>
    match kind with
    | .anthropic => ((((J.parse body).map contentArray).getD []).filterMap useOf).map fun u => (some u.1, u.2)
    | .openai => ((((openaiChoice J body).bind (·.getObjectItem (lit "message"))).map openaiEntries).getD []).filterMap
        fun tc => (wireName tc).map fun name => (wireId tc, name)

/-- The table lists the `tool_use` blocks of the content, in order. -/
def SameCalls (r : Response) : Prop := r.toolCalls.map ToolCall.key = r.content.filterMap useOf

/-- Calls received with different ids have different ids in the table. -/
def StayDistinct (wire : List (Option Str × Str)) (r : Response) : Prop :=
  ∀ (k l : Nat) (i j n m : Str) (c d : ToolCall), wire[k]? = some (some i, n) → wire[l]? = some (some j, m) →
    r.toolCalls[k]? = some c → r.toolCalls[l]? = some d → i ≠ j → c.id ≠ d.id

/-- What goes through a field of the table uncut before it fits, and OpenAI's ids differ
    where the fields keep them. -/
def Fits (kind : Kind) (wire : List (Option Str × Str)) : Prop :=
  match kind with
  | .anthropic => ∀ w ∈ wire, (∀ i, w.1 = some i → i.length < 64) ∧ w.2.length < 64
  | .openai => (∀ w ∈ wire, w.2.length < 64) ∧
      ∀ v ∈ wire, ∀ w ∈ wire, ∀ i j, v.1 = some i → w.1 = some j → i ≠ j → i.take 63 ≠ j.take 63

theorem anthropicCall_eq (block : Json) : anthropicCall J block = (useOf block).map fun u =>
    toolCall u.1 u.2 (((block.getObjectItem (lit "input")).map J.print).getD (lit "\x7b\x7d")) := by
  unfold anthropicCall useOf
  split
  · split <;> rfl
  · rfl

/-- The entries taken, with their place and name. -/
def kept (message : Json) : List ((Json × Nat) × Str) :=
  (openaiEntries message).zipIdx.filterMap fun x => (wireName x.1).map fun name => (x, name)

/-- The id a call of OpenAI gets. -/
def keptId (rnds : Nat → Str) (p : (Json × Nat) × Str) : Str := cut 64 ((wireId p.1.1).getD (lit "call_" ++ rnds p.1.2))

theorem openaiCalls_keys (rnds : Nat → Str) (message : Json) :
    (openaiCalls J rnds message).map (·.1.key) = (kept message).map (fun p => (keptId rnds p, cut 64 p.2)) ∧
    (openaiCalls J rnds message).filterMap (useOf ·.2) = (kept message).map (fun p => (keptId rnds p, p.2)) := by
  unfold openaiCalls kept
  constructor
  · rw [List.map_filterMap, List.map_filterMap]
    refine List.filterMap_congr fun x _ => ?_
    unfold openaiCall
    cases wireName x.1 with
    | none => rfl
    | some name => simp [ToolCall.key, toolCall, keptId]
  · rw [List.filterMap_filterMap, List.map_filterMap]
    refine List.filterMap_congr fun x _ => ?_
    unfold openaiCall
    cases wireName x.1 with
    | none => rfl
    | some name => rfl

theorem replayText_uses (text : Str) : (replayText text).filterMap useOf = [] := by
  unfold replayText
  split <;> rfl

/-- A successful call of OpenAI, its table and the calls in its content. -/
theorem callOpenai_ok {rnds : Nat → Str} {http : Http} {r : Response} (h : callOpenai J rnds http = .ok r) :
    ∃ body message, http = .ok body ∧
      (openaiChoice J body).bind (·.getObjectItem (lit "message")) = some message ∧
      r.toolCalls.map ToolCall.key = (kept message).map (fun p => (keptId rnds p, cut 64 p.2)) ∧
      r.content.filterMap useOf = (kept message).map (fun p => (keptId rnds p, p.2)) := by
  unfold callOpenai at h
  split at h
  · cases h
  rename_i body
  split at h
  · cases h
  rename_i message hm
  obtain ⟨hkeys, huses⟩ := openaiCalls_keys J rnds message
  refine ⟨body, message, rfl, hm, ?_, ?_⟩
  · rw [← hkeys]
    cases h
    rw [List.map_map]
    rfl
  · rw [← huses]
    cases h
    rw [List.filterMap_append, replayText_uses, List.filterMap_map]
    rfl

/-- The table holds the ids and names of the `tool_use` blocks, cut to its fields. -/
theorem toolCalls_keys {kind : Kind} {rnds : Nat → Str} {http : Http} {r : Response}
    (h : llmCall J kind rnds http = .ok r) :
    r.toolCalls.map ToolCall.key = (r.content.filterMap useOf).map fun u => (cut 64 u.1, cut 64 u.2) := by
  cases kind with
  | anthropic =>
    unfold llmCall callAnthropic at h
    simp only at h
    split at h
    · cases h
    split at h
    · cases h
    cases h
    rw [List.map_filterMap, List.map_filterMap]
    refine List.filterMap_congr fun block _ => ?_
    rw [anthropicCall_eq, Option.map_map]
    rfl
  | openai =>
    obtain ⟨body, message, -, -, htools, huses⟩ := callOpenai_ok J h
    rw [htools, huses, List.map_map]
    refine List.map_congr_left fun p _ => ?_
    simp [keptId]

/-- A list is fixed by a map exactly when each element is. -/
theorem map_fixed_iff {α : Type} {f : α → α} {l : List α} : l = l.map f ↔ ∀ a ∈ l, f a = a := by
  have h := List.map_inj_left (l := l) (f := f) (g := id)
  rw [List.map_id] at h
  rw [eq_comm]
  exact h

/-- The table is exact when the `tool_use` blocks of the content fit its fields. -/
theorem sameCalls_iff {kind : Kind} {rnds : Nat → Str} {http : Http} {r : Response}
    (h : llmCall J kind rnds http = .ok r) :
    SameCalls r ↔ ∀ u ∈ r.content.filterMap useOf, u.1.length < 64 ∧ u.2.length < 64 := by
  unfold SameCalls
  rw [toolCalls_keys J h, eq_comm, map_fixed_iff]
  refine forall₂_congr fun u _ => ?_
  rw [Prod.ext_iff, cut_eq_self (by omega), cut_eq_self (by omega)]

theorem anthropic_wire {http : Http} {r : Response} (h : callAnthropic J http = .ok r) :
    wireCalls J .anthropic http = (r.content.filterMap useOf).map fun u => (some u.1, u.2) := by
  unfold callAnthropic at h
  split at h
  · cases h
  split at h
  · cases h
  rename_i hroot
  cases h
  simp only [wireCalls, hroot, Option.map_some, Option.getD_some]

theorem anthropic_identity {rnds : Nat → Str} {http : Http} {r : Response} (h : llmCall J .anthropic rnds http = .ok r) :
    SameCalls r ∧ StayDistinct (wireCalls J .anthropic http) r ↔ Fits .anthropic (wireCalls J .anthropic http) := by
  have hwire := anthropic_wire J h
  have hfits : SameCalls r ↔ Fits .anthropic (wireCalls J .anthropic http) := by
    rw [sameCalls_iff J h]
    unfold Fits
    simp only [hwire, List.mem_map, forall_exists_index, and_imp, forall_apply_eq_imp_iff₂, Option.some.injEq,
      forall_eq']
  refine ⟨fun hc => hfits.mp hc.1, fun hf => ⟨hfits.mpr hf, ?_⟩⟩
  -- the table's ids are the received ones
  have hkeys := hfits.mpr hf
  unfold SameCalls at hkeys
  have hkey : ∀ (k : Nat) (i n : Str) (c : ToolCall), (wireCalls J .anthropic http)[k]? = some (some i, n) →
      r.toolCalls[k]? = some c → c.id = i := by
    intro k i n c hw hc
    rw [hwire, ← hkeys, List.getElem?_map, List.getElem?_map, hc] at hw
    simp only [Option.map_some, Option.some.injEq, Prod.mk.injEq, ToolCall.key] at hw
    exact hw.1
  intro k l i j n m c d hk hl hc hd hij
  rw [hkey k i n c hk hc, hkey l j m d hl hd]
  exact hij

theorem openai_wire {body : Str} {message : Json}
    (hm : (openaiChoice J body).bind (·.getObjectItem (lit "message")) = some message) :
    wireCalls J .openai (.ok body) = (kept message).map fun p => (wireId p.1.1, p.2) := by
  unfold wireCalls kept
  simp only [hm, Option.map_some, Option.getD_some]
  rw [List.map_filterMap]
  conv_lhs => rw [← List.zipIdx_map_fst 0 (openaiEntries message), List.filterMap_map]
  refine List.filterMap_congr fun x _ => ?_
  simp only [Function.comp_apply, Option.map_map]
  rfl

theorem openai_identity {rnds : Nat → Str} {http : Http} {r : Response} (h : llmCall J .openai rnds http = .ok r) :
    SameCalls r ∧ StayDistinct (wireCalls J .openai http) r ↔ Fits .openai (wireCalls J .openai http) := by
  obtain ⟨body, message, rfl, hm, htools, huses⟩ := callOpenai_ok J h
  have hwire := openai_wire J hm
  unfold Fits
  simp only [hwire]
  refine and_congr ?_ ?_
  · rw [sameCalls_iff J h, huses]
    simp only [List.mem_map, forall_exists_index, and_imp, forall_apply_eq_imp_iff₂]
    refine forall₂_congr fun p _ => and_iff_right ?_
    have := length_cut_le 64 ((wireId p.1.1).getD (lit "call_" ++ rnds p.1.2))
    unfold keptId
    omega
  · have hid : ∀ (k : Nat) (i n : Str) (c : ToolCall), (kept message)[k]?.map (fun p => (wireId p.1.1, p.2)) =
        some (some i, n) → r.toolCalls[k]? = some c → c.id = i.take 63 := by
      intro k i n c hw hc
      obtain ⟨p, hp, hpw⟩ := Option.map_eq_some_iff.mp hw
      have hck : (r.toolCalls.map ToolCall.key)[k]? = some c.key := by rw [List.getElem?_map, hc]; rfl
      rw [htools, List.getElem?_map, hp] at hck
      have := congrArg Prod.fst (Option.some.inj hck)
      simp only [ToolCall.key] at this
      rw [← this, keptId, (Prod.mk.inj hpw).1]
      rfl
    constructor
    · intro hst v hv w hw i j hvi hwj hij
      obtain ⟨k, hk⟩ := List.mem_iff_getElem?.mp hv
      obtain ⟨l, hl⟩ := List.mem_iff_getElem?.mp hw
      have hget : ∀ (k : Nat) (v : Option Str × Str), ((kept message).map fun p => (wireId p.1.1, p.2))[k]? = some v →
          ∃ c, r.toolCalls[k]? = some c := by
        intro k v hk
        have hlen : r.toolCalls.length = (kept message).length := by
          simpa using congrArg List.length htools
        have hlt := (List.getElem?_eq_some_iff.mp hk).1
        rw [List.length_map, ← hlen] at hlt
        exact ⟨_, List.getElem?_eq_getElem hlt⟩
      obtain ⟨c, hc⟩ := hget k v hk
      obtain ⟨d, hd⟩ := hget l w hl
      rw [show v = (some i, v.2) from Prod.ext hvi rfl] at hk
      rw [show w = (some j, w.2) from Prod.ext hwj rfl] at hl
      have := hst k l i j v.2 w.2 c d hk hl hc hd hij
      rw [List.getElem?_map] at hk hl
      rwa [hid k i v.2 c hk hc, hid l j w.2 d hl hd] at this
    · intro hf k l i j n m c d hk hl hc hd hij
      have := hf _ (List.mem_of_getElem? hk) _ (List.mem_of_getElem? hl) i j rfl rfl hij
      rw [List.getElem?_map] at hk hl
      rwa [hid k i n c hk hc, hid l j m d hl hd]

/-- For every successful response: the table has exactly the `tool_use` blocks of the
    content and keeps distinct ids apart, if and only if the received strings fit. -/
theorem tool_calls_identity {kind : Kind} {rnds : Nat → Str} {http : Http} {r : Response}
    (h : llmCall J kind rnds http = .ok r) :
    SameCalls r ∧ StayDistinct (wireCalls J kind http) r ↔ Fits kind (wireCalls J kind http) := by
  cases kind with
  | anthropic => exact anthropic_identity J h
  | openai => exact openai_identity J h

/-- An Anthropic response with one `tool_use` block. -/
def oneUse (id : Str) : Json :=
  .obj [(lit "content", .arr [.obj [(lit "type", .str (lit "tool_use")), (lit "id", .str id),
    (lit "name", .str (lit "recall")), (lit "input", .obj [])]]), (lit "stop_reason", .str (lit "tool_use"))]

/-- What `call_anthropic` makes of it. -/
def oneCall (id : Str) : Response :=
  ⟨[], [⟨cut 64 id, lit "recall", lit "\x7b\x7d"⟩], lit "tool_use", contentArray (oneUse id)⟩

theorem callAnthropic_oneUse (id : Str) :
    llmCall CJson.compact .anthropic (fun _ => []) (.ok (CJson.compact.print (oneUse id))) = .ok (oneCall id) := by
  unfold llmCall callAnthropic
  simp only [CJson.compact.parse_print]
  rfl

theorem wireCalls_oneUse (id : Str) :
    wireCalls CJson.compact .anthropic (.ok (CJson.compact.print (oneUse id))) = [(some id, lit "recall")] := by
  unfold wireCalls
  simp only [CJson.compact.parse_print]
  rfl

/-- An id of 63 bytes goes through. -/
theorem tool_calls_identity_63 : SameCalls (oneCall (List.replicate 63 (ch 'a'))) := by
  refine ((tool_calls_identity CJson.compact (callAnthropic_oneUse _)).mpr ?_).1
  rw [wireCalls_oneUse]
  intro w hw
  rw [List.mem_singleton.mp hw]
  exact ⟨by simp, by decide⟩

/-- One of 64 bytes loses its last byte in the table, and the content keeps it. -/
theorem long_id_cut : ¬ ∀ (kind : Kind) (rnds : Nat → Str) (http : Http) (r : Response),
    llmCall CJson.compact kind rnds http = .ok r →
      SameCalls r ∧ StayDistinct (wireCalls CJson.compact kind http) r := by
  intro hall
  have hsame := (hall _ _ _ _ (callAnthropic_oneUse (List.replicate 64 (ch 'a')))).1
  unfold SameCalls at hsame
  exact absurd hsame (by decide)

end Shclaw.Provider
