/-
  Shclaw.Agent.Pairing — every request pairs its tool calls with their results
  (`src/agent.c`: `agent_run_session` and the code that changes its messages array).

  The array is opened by a user text, extended by replayed replies, tool results and
  nudges, shortened by `conv_fit`, rewritten by `trim_history` and kept from one session
  to the next. `Good` is what holds between turns: it opens with a user text, neighbours
  are linked (an assistant turn with tool calls by the turn that answers them, a turn
  with results only to such a turn), and the last turn has no tool call open.

  Linking reads little of a message, its `shape`, which `trim_history` leaves alone.
  `conv_fit` cuts from one user text to another: the turn before the first has no tool
  call open, since a user text answers none.

  `requests_paired`: in every sequence of sessions, whatever the server answers within
  its format, every array passed to `llm_call` is `Paired`.
-/

import Mathlib.Data.List.Chain
import Shclaw.Agent.Session

namespace Shclaw.Agent

open Lib Provider

/-! ## Pairing -/

def isUse (block : Json) : Bool := block.jStr (lit "type") = some (lit "tool_use")

def isResult (block : Json) : Bool := block.jStr (lit "type") = some (lit "tool_result")

/-- The ids of an assistant turn's tool calls. -/
def useIds (m : Json) : List (Option Str) :=
  if m.jStr (lit "role") = some (lit "assistant") then ((blocks m).filter isUse).map (·.jStr (lit "id")) else []

def hasResult (m : Json) : Bool := (blocks m).any isResult

/-- A user turn of exactly these tool results. -/
structure Answers (ids : List (Option Str)) (m : Json) : Prop where
  role : m.jStr (lit "role") = some (lit "user")
  array : (m.getObjectItem (lit "content")).any Json.isArray = true
  results : (blocks m).map (fun b => (b.jStr (lit "type"), b.jStr (lit "tool_use_id"))) =
    ids.map (some (lit "tool_result"), ·)

/-- The array a provider accepts. -/
structure Paired (msgs : List Json) : Prop where
  opens : ∃ m, msgs.head? = some m ∧ isUserText m = true
  answered : ∀ i m, msgs[i]? = some m → useIds m ≠ [] → ∃ m', msgs[i + 1]? = some m' ∧ Answers (useIds m) m'
  only : ∀ j m', msgs[j]? = some m' → hasResult m' = true →
    ∃ i m, j = i + 1 ∧ msgs[i]? = some m ∧ useIds m ≠ []

/-- What the server's format gives: no block is a tool result and a tool call has an id
    and a name that fit their fields. -/
def WellFormed (r : Response) : Prop :=
  ∀ b ∈ r.content, isResult b = false ∧
    (isUse b = true → ∃ id name, b.jStr (lit "id") = some id ∧ b.jStr (lit "name") = some name ∧
      id.length < 64 ∧ name.length < 64)

/-! ## The invariant -/

/-- Two neighbours. -/
def Link (m m' : Json) : Prop :=
  (useIds m ≠ [] → Answers (useIds m) m') ∧ (hasResult m' = true → useIds m ≠ [])

structure Good (msgs : List Json) : Prop where
  opens : ∃ m, msgs.head? = some m ∧ isUserText m = true
  chain : msgs.IsChain Link
  closed : ∀ m ∈ msgs.getLast?, useIds m = []

theorem isUserText_blocks {m : Json} (h : isUserText m = true) : blocks m = [] := by
  unfold isUserText at h
  rw [Bool.and_eq_true] at h
  unfold blocks
  cases hc : m.getObjectItem (lit "content") with
  | none => rfl
  | some c => cases c <;> simp_all [Json.isString, Json.children]

theorem isUserText_hasResult {m : Json} (h : isUserText m = true) : hasResult m = false := by
  unfold hasResult
  rw [isUserText_blocks h]
  rfl

/-- A user text answers no tool call. -/
theorem link_userText {m m' : Json} (h : Link m m') (hu : isUserText m' = true) : useIds m = [] := by
  by_contra hne
  have hres := (h.1 hne).results
  rw [isUserText_blocks hu] at hres
  exact hne (List.map_eq_nil_iff.mp hres.symm)

theorem Good.paired {msgs : List Json} (h : Good msgs) : Paired msgs := by
  have hlink : ∀ {i : Nat} {m m' : Json}, msgs[i]? = some m → msgs[i + 1]? = some m' → Link m m' := by
    intro i m m' hm hm'
    obtain ⟨hi, rfl⟩ := List.getElem?_eq_some_iff.mp hm
    obtain ⟨hi', rfl⟩ := List.getElem?_eq_some_iff.mp hm'
    exact List.isChain_iff_getElem.mp h.chain i hi'
  refine ⟨h.opens, ?_, ?_⟩
  · intro i m hm hne
    cases hn : msgs[i + 1]? with
    | some m' => exact ⟨m', rfl, (hlink hm hn).1 hne⟩
    | none =>
      -- the last turn has no tool call open
      have hlast : msgs.getLast? = some m := by
        have hlen := List.getElem?_eq_none_iff.mp hn
        have hi := (List.getElem?_eq_some_iff.mp hm).1
        rw [List.getLast?_eq_getElem?, show msgs.length - 1 = i by omega]
        exact hm
      exact absurd (h.closed m hlast) hne
  · intro j m' hm' hr
    cases j with
    | zero =>
      obtain ⟨m, hm, hu⟩ := h.opens
      rw [List.head?_eq_getElem?, hm'] at hm
      cases hm
      rw [isUserText_hasResult hu] at hr
      cases hr
    | succ i =>
      have hi := (List.getElem?_eq_some_iff.mp hm').1
      have hm : msgs[i]? = some msgs[i] := List.getElem?_eq_getElem (by omega)
      exact ⟨i, _, rfl, hm, (hlink hm hm').2 hr⟩

/-! ## Turns are appended -/

theorem good_opening (text : Str) : Good [userText text] :=
  ⟨⟨_, rfl, rfl⟩, .singleton _, by intro m hm; cases hm; rfl⟩

/-- A turn with no tool call and no result. -/
theorem Good.snoc {msgs : List Json} (h : Good msgs) {m : Json} (hu : useIds m = []) (hr : hasResult m = false) :
    Good (msgs ++ [m]) := by
  refine ⟨?_, ?_, ?_⟩
  · obtain ⟨m₀, h₀, hu₀⟩ := h.opens
    exact ⟨m₀, by rw [List.head?_append, h₀]; rfl, hu₀⟩
  · refine List.isChain_append.mpr ⟨h.chain, .singleton _, ?_⟩
    intro a ha b hb
    cases hb
    exact ⟨fun hne => absurd (h.closed a ha) hne, fun hc => by rw [hr] at hc; cases hc⟩
  · intro x hx
    rw [List.getLast?_concat] at hx
    cases hx
    exact hu

/-- A turn with tool calls and the turn that answers them. -/
theorem Good.exchange {msgs : List Json} (h : Good msgs) {m m' : Json} (hne : useIds m ≠ []) (hr : hasResult m = false)
    (ha : Answers (useIds m) m') : Good (msgs ++ [m] ++ [m']) := by
  have hu' : useIds m' = [] := by
    unfold useIds
    rw [ha.role]
    rfl
  refine ⟨?_, ?_, ?_⟩
  · obtain ⟨m₀, h₀, hu₀⟩ := h.opens
    exact ⟨m₀, by rw [List.head?_append, List.head?_append, h₀]; rfl, hu₀⟩
  · rw [List.append_assoc]
    refine List.isChain_append.mpr ⟨h.chain, List.isChain_pair.mpr ⟨fun _ => ha, fun _ => hne⟩, ?_⟩
    intro a hl b hb
    cases hb
    exact ⟨fun hn => absurd (h.closed a hl) hn, fun hc => by rw [hr] at hc; cases hc⟩
  · intro x hx
    rw [List.getLast?_concat] at hx
    cases hx
    exact hu'

/-! ## `conv_fit` -/

theorem Good.dropExchange {msgs msgs' : List Json} (h : Good msgs) (hd : dropExchange msgs = some msgs') : Good msgs' := by
  obtain ⟨m, before, u, between, next, later, rfl, hu, hnext, rfl⟩ := dropExchange_cases hd
  obtain ⟨hfst, hrest, hjoin⟩ := List.isChain_append.mp h.chain
  have hlater : (next :: later).IsChain Link := by
    rw [show u :: (between ++ next :: later) = (u :: between) ++ next :: later from rfl] at hrest
    exact (List.isChain_append.mp hrest).2.1
  refine ⟨?_, List.isChain_append.mpr ⟨hfst, hlater, ?_⟩, ?_⟩
  · obtain ⟨m₀, h₀, hu₀⟩ := h.opens
    exact ⟨m₀, h₀, hu₀⟩
  · -- the turn before the cut stood before a user text
    intro a ha b hb
    cases hb
    have hclosed := link_userText (hjoin a ha u rfl) hu
    exact ⟨fun hne => absurd hclosed hne, fun hr => by rw [isUserText_hasResult hnext] at hr; cases hr⟩
  · intro x hx
    refine h.closed x ?_
    rw [List.getLast?_append_of_ne_nil _ (List.cons_ne_nil _ _)] at hx ⊢
    rw [show u :: (between ++ next :: later) = (u :: between) ++ next :: later from rfl,
      List.getLast?_append_of_ne_nil _ (List.cons_ne_nil _ _)]
    exact hx

theorem Good.convFit {J : CJson} {max : Nat} {msgs : List Json} (h : Good msgs) : Good (convFit J max msgs).2 :=
  convFit_invariant J (fun _ _ hg hd => hg.dropExchange hd) max h

/-! ## `trim_history` -/

def tag (block : Json) : Option Str × Option Str × Option Str :=
  (block.jStr (lit "type"), block.jStr (lit "id"), block.jStr (lit "tool_use_id"))

/-- What pairing reads of a message. -/
def shape (m : Json) : Option Str × Bool × Bool × List (Option Str × Option Str × Option Str) :=
  (m.jStr (lit "role"), (m.getObjectItem (lit "content")).any Json.isString,
    (m.getObjectItem (lit "content")).any Json.isArray, (blocks m).map tag)

section Shapes

variable {m m' n n' : Json}

theorem isUserText_of_shape (h : shape m = shape m') : isUserText m = isUserText m' := by
  simp only [shape, Prod.mk.injEq] at h
  unfold isUserText
  rw [h.1, h.2.1]

theorem useIds_of_shape (h : shape m = shape m') : useIds m = useIds m' := by
  have htags : ∀ bs : List Json, (bs.filter isUse).map (·.jStr (lit "id")) =
      ((bs.map tag).filter (·.1 = some (lit "tool_use"))).map (·.2.1) := by
    intro bs
    rw [List.filter_map, List.map_map]
    rfl
  simp only [shape, Prod.mk.injEq] at h
  unfold useIds
  rw [h.1, htags, htags, h.2.2.2]

theorem hasResult_of_shape (h : shape m = shape m') : hasResult m = hasResult m' := by
  have htags : ∀ bs : List Json, bs.any isResult = (bs.map tag).any (·.1 = some (lit "tool_result")) := by
    intro bs
    rw [List.any_map]
    rfl
  simp only [shape, Prod.mk.injEq] at h
  unfold hasResult
  rw [htags, htags, h.2.2.2]

theorem answers_of_shape (h : shape m = shape m') {ids : List (Option Str)} (ha : Answers ids m) : Answers ids m' := by
  have htags : ∀ bs : List Json, bs.map (fun b => (b.jStr (lit "type"), b.jStr (lit "tool_use_id"))) =
      (bs.map tag).map fun t => (t.1, t.2.2) := by
    intro bs
    rw [List.map_map]
    rfl
  simp only [shape, Prod.mk.injEq] at h
  refine ⟨h.1 ▸ ha.role, h.2.2.1 ▸ ha.array, ?_⟩
  rw [htags, ← h.2.2.2, ← htags]
  exact ha.results

theorem link_of_shape (h : shape m = shape m') (h' : shape n = shape n') (hl : Link m n) : Link m' n' := by
  unfold Link
  rw [← useIds_of_shape h, ← hasResult_of_shape h']
  exact ⟨fun hne => answers_of_shape h' (hl.1 hne), hl.2⟩

theorem Good.of_shapes {msgs msgs' : List Json} (h : msgs.map shape = msgs'.map shape) (hg : Good msgs) : Good msgs' := by
  have hat : ∀ {i : Nat} {x : Json}, msgs'[i]? = some x → ∃ y, msgs[i]? = some y ∧ shape y = shape x := by
    intro i x hx
    have hs : (msgs.map shape)[i]? = some (shape x) := by rw [h, List.getElem?_map, hx]; rfl
    rw [List.getElem?_map] at hs
    exact Option.map_eq_some_iff.mp hs
  have hlen : msgs.length = msgs'.length := by simpa using congrArg List.length h
  refine ⟨?_, ?_, ?_⟩
  · obtain ⟨m₀, h₀, hu₀⟩ := hg.opens
    have hs : (msgs'.map shape).head? = some (shape m₀) := by rw [← h, List.head?_map, h₀]; rfl
    rw [List.head?_map] at hs
    obtain ⟨x, hx, hxs⟩ := Option.map_eq_some_iff.mp hs
    exact ⟨x, hx, by rw [isUserText_of_shape hxs]; exact hu₀⟩
  · refine List.isChain_iff_getElem.mpr fun i hi => ?_
    obtain ⟨a, ha, hsa⟩ := hat (List.getElem?_eq_getElem (show i < msgs'.length by omega))
    obtain ⟨b, hb, hsb⟩ := hat (List.getElem?_eq_getElem hi)
    obtain ⟨_, rfl⟩ := List.getElem?_eq_some_iff.mp ha
    obtain ⟨_, rfl⟩ := List.getElem?_eq_some_iff.mp hb
    exact link_of_shape hsa hsb (List.isChain_iff_getElem.mp hg.chain i (by omega))
  · intro x hx
    rw [List.getLast?_eq_getElem?] at hx
    obtain ⟨y, hy, hs⟩ := hat hx
    rw [← useIds_of_shape hs]
    refine hg.closed y ?_
    rw [List.getLast?_eq_getElem?, hlen]
    exact hy

end Shapes

theorem tag_replaceContent (b v : Json) : tag (b.replaceItem (lit "content") v) = tag b := by
  have hne : ∀ l : Str, strcaseeq (lit "content") l = false →
      (b.replaceItem (lit "content") v).jStr l = b.jStr l := by
    intro l hl
    unfold Json.jStr
    rw [Json.getObjectItem_replaceItem, hl]
    rfl
  unfold tag
  rw [hne _ (by decide), hne _ (by decide), hne _ (by decide)]

theorem trimBlocks_tags (budget total : Nat) (bs : List Json) : (trimBlocks budget total bs).1.map tag = bs.map tag := by
  induction bs generalizing total with
  | nil => rfl
  | cons b bs ih =>
    unfold trimBlocks
    split
    · rw [List.map_cons, ih, List.map_cons]
    · rw [List.map_cons, ih, tag_replaceContent, List.map_cons]

theorem shape_trimMessage (budget total : Nat) (m : Json) : shape (trimMessage budget total m).1 = shape m := by
  have htags := trimBlocks_tags budget total (blocks m)
  have hlen : (trimBlocks budget total (blocks m)).1.length = (blocks m).length := by
    simpa using congrArg List.length htags
  unfold trimMessage shape
  simp only [Json.jStr, getObjectItem_onItem, show strcaseeq (lit "content") (lit "role") = false by decide,
    strcaseeq_refl, if_true, Bool.false_eq_true, if_false, Prod.mk.injEq, true_and]
  unfold blocks at hlen htags ⊢
  simp only [getObjectItem_onItem, strcaseeq_refl, if_true]
  cases hc : m.getObjectItem (lit "content") with
  | none => exact ⟨rfl, rfl, rfl⟩
  | some c =>
    rw [hc] at hlen htags
    simp only [Option.map_some, Option.getD_some, Option.any_some] at hlen htags ⊢
    refine ⟨by cases c <;> rfl, by cases c <;> rfl, ?_⟩
    rw [children_setChildren hlen, htags]

theorem trimMessages_shapes (budget total : Nat) (msgs : List Json) :
    (trimMessages budget total msgs).map shape = msgs.map shape := by
  fun_induction trimMessages budget total msgs with
  | case1 => rfl
  | case2 => rfl
  | case3 => rfl
  | case4 total m m' rest _ r ih => rw [List.map_cons, ih, List.map_cons (l := m' :: rest), shape_trimMessage]

theorem Good.trimHistory {budget : Nat} {msgs : List Json} (h : Good msgs) : Good (trimHistory budget msgs) := by
  unfold Agent.trimHistory
  split
  · exact h
  · exact h.of_shapes (trimMessages_shapes _ _ _).symm

/-! ## A turn -/

variable {J : CJson} {A : Config} {W : World} {trig : TriggerInfo} {tools : List Json}

theorem runCalls_results (calls : List ToolCall) (l : Live) :
    (runCalls J A W trig tools calls l).1.map (fun b => (b.jStr (lit "type"), b.jStr (lit "tool_use_id"))) =
      calls.map fun c => (some (lit "tool_result"), some c.id) := by
  induction calls generalizing l with
  | nil => rfl
  | cons call calls ih =>
    unfold runCalls
    rw [List.map_cons, ih, List.map_cons]
    rfl

theorem blocks_assistant (content : List Json) : blocks (assistant content) = content := rfl

/-- The ids of a replayed reply are those of its table. -/
theorem useIds_assistant {kind : Kind} {rnds : Nat → Str} {http : Http} {r : Response}
    (h : llmCall J kind rnds http = .ok r) (hw : WellFormed r) :
    useIds (assistant r.content) = r.toolCalls.map fun c => some c.id := by
  have huse : ∀ b ∈ r.content, isUse b = true → ∃ u, useOf b = some u ∧ b.jStr (lit "id") = some u.1 ∧
      u.1.length < 64 ∧ u.2.length < 64 := by
    intro b hb hu
    obtain ⟨id, name, hid, hname, hlen, hlen'⟩ := (hw b hb).2 hu
    refine ⟨(id, name), ?_, hid, hlen, hlen'⟩
    unfold useOf
    rw [if_pos (by simpa [isUse] using hu), hid, hname]
  have hno : ∀ b, isUse b = false → useOf b = none := by
    intro b hu
    unfold useOf
    rw [if_neg (by simpa [isUse] using hu)]
  have hsame : SameCalls r := by
    refine (sameCalls_iff J h).mpr fun u hu => ?_
    obtain ⟨b, hb, hbu⟩ := List.mem_filterMap.mp hu
    cases hi : isUse b with
    | false =>
      rw [hno b hi] at hbu
      cases hbu
    | true =>
      obtain ⟨u', hu', -, hlen⟩ := huse b hb hi
      rw [hu'] at hbu
      cases hbu
      exact hlen
  have hids : ∀ bs : List Json, (∀ b ∈ bs, b ∈ r.content) →
      (bs.filter isUse).map (·.jStr (lit "id")) = (bs.filterMap useOf).map fun u => some u.1 := by
    intro bs hbs
    induction bs with
    | nil => rfl
    | cons b bs ih =>
      have hrest := ih fun x hx => hbs x (List.mem_cons_of_mem _ hx)
      cases hi : isUse b with
      | false => rw [List.filter_cons_of_neg (by simp [hi]), List.filterMap_cons_none (hno b hi), hrest]
      | true =>
        obtain ⟨u, hu, hid, -⟩ := huse b (hbs b List.mem_cons_self) hi
        rw [List.filter_cons_of_pos hi, List.filterMap_cons_some hu, List.map_cons, List.map_cons, hrest, hid]
  have hrole : (assistant r.content).jStr (lit "role") = some (lit "assistant") := rfl
  unfold useIds
  rw [if_pos hrole, blocks_assistant, hids _ fun _ h => h, ← hsame, List.map_map]
  rfl

theorem hasResult_assistant {r : Response} (hw : WellFormed r) : hasResult (assistant r.content) = false := by
  unfold hasResult
  rw [blocks_assistant, List.any_eq_false]
  intro b hb
  rw [(hw b hb).1]
  exact Bool.false_ne_true

/-- A reply without tool calls, or with none left out. -/
theorem takeReply_good {kind : Kind} {rnds : Nat → Str} {http : Http} {r : Response} {l : Live}
    (h : llmCall J kind rnds http = .ok r) (hw : WellFormed r) (hg : Good l.messages) (hno : r.toolCalls = []) :
    Good (takeReply r l).messages := by
  unfold takeReply
  dsimp only
  split
  · refine hg.snoc ?_ (hasResult_assistant hw)
    rw [useIds_assistant h hw, hno]
    rfl
  · exact hg

theorem good_userText {msgs : List Json} (h : Good msgs) (text : Str) : Good (msgs ++ [userText text]) := h.snoc rfl rfl

theorem toolTurn_good {kind : Kind} {rnds : Nat → Str} {http : Http} {r : Response} {l : Live}
    (h : llmCall J kind rnds http = .ok r) (hw : WellFormed r) (hg : Good l.messages) (hne : r.toolCalls ≠ []) :
    Good (toolTurn J A W trig tools r (takeReply r l)).1.messages := by
  have hids := useIds_assistant h hw
  have hopen : useIds (assistant r.content) ≠ [] := by simpa [hids] using hne
  have hcontent : r.content ≠ [] := by
    intro hnil
    rw [hnil] at hopen
    exact hopen rfl
  have hmsgs : (runCalls J A W trig tools r.toolCalls (takeReply r l)).2.messages =
      l.messages ++ [assistant r.content] := by
    refine (congrArg Prod.fst (runCalls_kept r.toolCalls (takeReply r l))).trans ?_
    exact if_pos hcontent
  have hgood : Good ((runCalls J A W trig tools r.toolCalls (takeReply r l)).2.messages ++
      [toolMessage (runCalls J A W trig tools r.toolCalls (takeReply r l)).1]) := by
    rw [hmsgs]
    refine hg.exchange hopen (hasResult_assistant hw) ⟨rfl, rfl, ?_⟩
    rw [hids, List.map_map]
    exact runCalls_results r.toolCalls _
  have htrim : Good (if trims A then trimHistory A.historyBudget.toNat
      ((runCalls J A W trig tools r.toolCalls (takeReply r l)).2.messages ++
        [toolMessage (runCalls J A W trig tools r.toolCalls (takeReply r l)).1]) else
      (runCalls J A W trig tools r.toolCalls (takeReply r l)).2.messages ++
        [toolMessage (runCalls J A W trig tools r.toolCalls (takeReply r l)).1]) := by
    split
    · exact hgood.trimHistory
    · exact hgood
  unfold toolTurn
  dsimp only
  split <;> exact htrim

theorem afterTextReply_good {text : Str} {l : Live} (hg : Good l.messages) : Good (afterTextReply A W text l).1.messages := by
  have hbuilder : Good (builderReply W text l).1.messages := by
    unfold builderReply
    dsimp only
    split
    · split
      · exact hg
      · split
        · exact good_userText hg _
        · exact hg
    · split
      · exact hg
      · split
        · exact good_userText hg _
        · exact hg
  unfold afterTextReply
  split
  · exact hbuilder
  split
  · exact good_userText hg _
  split
  · exact good_userText hg _
  · exact hg

theorem turnStep_good {kind : Kind} {rnds : Nat → Str} {http : Http} {r : Response} {l : Live}
    (h : llmCall J kind rnds http = .ok r) (hw : WellFormed r) (hg : Good l.messages) :
    Good (turnStep J A W trig tools r l).1.messages := by
  unfold turnStep
  dsimp only
  split
  · rename_i hne
    exact toolTurn_good h hw hg hne
  · rename_i hno
    have hg' := takeReply_good h hw hg (not_not.mp hno)
    split
    · exact hg'
    · exact afterTextReply_good hg'

theorem turnStep_requests (r : Response) (l : Live) : (turnStep J A W trig tools r l).1.requests = l.requests := by
  have hcalls : ∀ l : Live, (runCalls J A W trig tools r.toolCalls l).2.requests = l.requests :=
    fun l => congrArg Prod.snd (runCalls_kept r.toolCalls l)
  unfold turnStep toolTurn
  dsimp only
  split
  · split <;> exact hcalls _
  · split
    · rfl
    · exact (afterTextReply_frame (replyText r) _).2

/-! ## Sessions -/

/-- What holds of a session between turns. -/
def Sound (l : Live) : Prop := Good l.messages ∧ ∀ req ∈ l.requests, Paired req

/-- The server keeps its format. -/
def Serves (J : CJson) (A : Config) (W : World) : Prop :=
  ∀ turn r, llmCall J A.kind (W.rnds turn) (W.http turn) = .ok r → WellFormed r

theorem turns_sound (hs : Serves J A W) (trig : TriggerInfo) (tools : List Json) (max n : Nat) {l : Live} (h : Sound l) :
    Sound (turns J A W trig tools max n l).1 := by
  induction n generalizing l with
  | zero => exact h
  | succ n ih =>
    have hreq : ∀ req ∈ l.requests ++ [l.messages], Paired req := by
      intro req hm
      rcases List.mem_append.mp hm with hm | hm
      · exact h.2 req hm
      · rw [List.mem_singleton.mp hm]
        exact h.1.paired
    unfold turns
    dsimp only
    split
    · exact ⟨h.1, hreq⟩
    rename_i r hr
    have hstep : Sound (turnStep J A W trig tools r { l with requests := l.requests ++ [l.messages] }).1 :=
      ⟨turnStep_good hr (hs _ _ hr) h.1, fun req hm => by rw [turnStep_requests] at hm; exact hreq req hm⟩
    split
    all_goals rename_i heq; rw [heq] at hstep
    · exact ih hstep
    · exact hstep
    · exact hstep

theorem openingMessages_good {conv : Option Conv} (hc : ∀ c ∈ conv, Good c.messages) :
    Good (openingMessages J A W conv) := by
  unfold openingMessages
  cases hr : resumed J A W conv with
  | none => exact good_opening _
  | some c =>
    refine good_userText (hc c ?_) _
    unfold resumed at hr
    split at hr
    · exact Option.mem_filter_iff.mp hr |>.1
    · cases hr

theorem keepConv_good {talk completed : Bool} {msgs : List Json} (hg : Good msgs) {conv : Option Conv}
    (hc : ∀ c ∈ conv, Good c.messages) : ∀ c ∈ keepConv J A W talk completed msgs conv, Good c.messages := by
  intro c hm
  unfold keepConv at hm
  dsimp only at hm
  split at hm
  · split at hm
    · cases hm
      exact hg.convFit
    · cases hm
  · exact hc c hm

/-- A session on a good conversation makes paired requests and leaves a good one. -/
theorem runSession_good (hs : Serves J A W) {conv : Option Conv} (hc : ∀ c ∈ conv, Good c.messages) :
    (∀ req ∈ (runSession J A W conv).1.requests, Paired req) ∧
      ∀ c ∈ (runSession J A W conv).2.2, Good c.messages := by
  have hend := turns_sound hs (parseTrigger J W.type W.data) (toolsOf A W) (maxTurnsOf A) (maxTurnsOf A)
    (l := ⟨{}, openingMessages J A W conv, none, 0, [], []⟩) ⟨openingMessages_good hc, by simp⟩
  unfold runSession
  dsimp only
  constructor
  · split <;> exact hend.2
  · apply keepConv_good _ hc
    split <;> exact hend.1

theorem runSessions_good {Ws : List World} (hs : ∀ W ∈ Ws, Serves J A W) {conv : Option Conv}
    (hc : ∀ c ∈ conv, Good c.messages) : ∀ req ∈ runSessions J A conv Ws, Paired req := by
  induction Ws generalizing conv with
  | nil => intro req hm; cases hm
  | cons W Ws ih =>
    obtain ⟨hreqs, hconv⟩ := runSession_good (hs W List.mem_cons_self) hc
    intro req hm
    rcases List.mem_append.mp hm with hm | hm
    · exact hreqs req hm
    · exact ih (fun W' h => hs W' (List.mem_cons_of_mem _ h)) hconv req hm

/-- Every array passed to `llm_call`, in every sequence of sessions of every agent. -/
theorem requests_paired (J : CJson) (A : Config) (Ws : List World) (hs : ∀ W ∈ Ws, Serves J A W) :
    ∀ req ∈ runSessions J A none Ws, Paired req :=
  runSessions_good hs (by simp)

/-- An agent of the owner alone. -/
def ada : Config where
  name := lit "ada"
  isBuilder := false
  isHub := false
  maxTurns := 0
  historyBudget := 0
  kind := .anthropic
  chat := true
  registry := ⟨[lit "ada"], by decide, by decide, by decide⟩
  known := by decide

/-- A reply of one text. -/
def oneText : Json :=
  .obj [(lit "content", .arr [.obj [(lit "type", .str (lit "text")), (lit "text", .str (lit "done"))]]),
    (lit "stop_reason", .str (lit "end_turn"))]

/-- A message of the owner; the model calls a tool and then replies. -/
def recallThenText : World where
  type := .irc
  data := lit "hello"
  thread := []
  chatId := 1
  seq := 0
  opening := lit "hello"
  schemas := []
  http turn := .ok (CJson.compact.print (if turn = 0 then oneUse (lit "t1") else oneText))
  rnds _ _ := []
  exec _ _ _ := lit "nothing"
  plugin _ _ _ := none
  draws _ _ := ⟨[], [], true⟩

theorem recallThenText_serves : Serves CJson.compact ada recallThenText := by
  intro turn r h
  have hcontent : r.content = contentArray (if turn = 0 then oneUse (lit "t1") else oneText) := by
    unfold llmCall callAnthropic at h
    simp only [ada, recallThenText, CJson.compact.parse_print] at h
    cases h
    rfl
  unfold WellFormed
  rw [hcontent]
  split
  · intro b hb
    rw [List.mem_singleton.mp hb]
    exact ⟨rfl, fun _ => ⟨lit "t1", lit "recall", rfl, rfl, by decide, by decide⟩⟩
  · intro b hb
    rw [List.mem_singleton.mp hb]
    exact ⟨rfl, fun h => by cases h⟩

/-- Two such sessions; the second goes on with the first's conversation. -/
theorem requests_paired_resumed :
    (runSessions CJson.compact ada none [recallThenText, recallThenText]).map List.length = [1, 3, 5, 7] ∧
      ∀ req ∈ runSessions CJson.compact ada none [recallThenText, recallThenText], Paired req := by
  refine ⟨by decide +kernel, requests_paired CJson.compact ada _ ?_⟩
  intro W hW
  have : W = recallThenText := by simpa using hW
  rw [this]
  exact recallThenText_serves

end Shclaw.Agent
