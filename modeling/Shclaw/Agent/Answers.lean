/-
  Shclaw.Agent.Answers — what a session owes the agents that asked it something
  (`src/agent.c`: `run_tool`, `deliver_answer`; `src/tools.c`: `agent_message`).

  Every message of a session goes through `agent_message`; `Sends.spec` says with which
  recipient and which mark. A requester reached by name gets an answer marked `reply`,
  however the model spells it: the name is resolved before the mark is decided.

  - `never_requests`: every message put in a requester's inbox is an answer, so that it
    never counts this agent as a requester, if and only if no broadcast reaches it: a
    `send_message` to `all` is not resolved to the requesters among its recipients.
  - `requesters_answered`: the automatic answers go to exactly the requesters no
    `send_message` by name reached, if and only if each of these is among the first
    eight recipients: `sent_to` holds no more. Each requester gets something in any case.
-/

import Shclaw.Agent.Session

namespace Shclaw.Agent

open Lib Messenger Provider

/-! ## `agent_message` -/

section Sending

variable (A : Config) (content : Str) (thread : Option Str) (reply : Bool) (draws : Nat → Draw)

/-- Whom a broadcast goes to. -/
def peers : List Str := A.agents.filter fun a => a ≠ A.name && a ≠ lit "owner"

theorem isReply_sendOne (e : Envelope) (recipient : Str) (d : Draw) : isReply (sendOne e recipient d).msg = e.reply := by
  unfold sendOne Envelope.message
  cases e.reply <;> rfl

/-- Every message of one call has its mark. -/
theorem isReply_agentMessage (recipient : Option Str) :
    ∀ p ∈ (agentMessage A recipient content thread reply draws).2, isReply p.msg = reply := by
  intro p hp
  unfold agentMessage at hp
  split at hp
  · cases hp
  unfold messengerSend at hp
  split at hp
  · cases hp
  · rw [List.mem_singleton.mp hp, isReply_sendOne]
  · obtain ⟨i, hi, rfl⟩ := List.mem_mapIdx.mp hp
    rw [isReply_sendOne]

/-- A broadcast, a refusal or a note to the owner, or one message. -/
theorem agentMessage_cases (t : Str) :
    (strcaseeq t (lit "all") = true ∧ (agentMessage A (some t) content thread reply draws).2 =
      (peers A).mapIdx fun i name => sendOne ⟨A.name, content, thread, reply⟩ name (draws i)) ∨
    (strcaseeq t (lit "all") = false ∧ (agentMessage A (some t) content thread reply draws).2 = [] ∧
      ∀ n ∈ A.registry.names, messengerResolve A.agents (some t) = some n → n = A.name) ∨
    (strcaseeq t (lit "all") = false ∧ ∃ n ∈ A.registry.names, n ≠ A.name ∧
      messengerResolve A.agents (some t) = some n ∧ agentMessage A (some t) content thread reply draws =
        ((sendOne ⟨A.name, content, thread, reply⟩ n (draws 0)).text,
          [sendOne ⟨A.name, content, thread, reply⟩ n (draws 0)])) := by
  have howner : lit "owner" ∉ A.registry.names := by
    intro hm
    have := A.registry.owner_of_name hm
    rw [strcaseeq_refl] at this
    cases this
  unfold agentMessage messengerSend plan
  cases hall : strcaseeq t (lit "all") with
  | true =>
    left
    rw [show messengerResolve A.agents (some t) = none from A.registry.resolve_all hall]
    simp [hall, peers]
  | false =>
    right
    cases hres : messengerResolve A.agents (some t) with
    | none => left; simp [hall]
    | some n =>
      by_cases ho : n = lit "owner"
      · left
        subst ho
        refine ⟨rfl, rfl, fun n hn heq => ?_⟩
        cases heq
        exact absurd hn howner
      · have hn : n ∈ A.registry.names := (List.mem_cons.mp (resolve_mem hres)).resolve_left ho
        by_cases hself : n = A.name
        · left
          simp [hall, hself]
          simp_all
        · right
          exact ⟨rfl, n, hn, hself, rfl, by simp [hall, ho, hself]⟩

/-- A message to another agent by its name. -/
theorem agentMessage_name {R : Str} (hR : R ∈ A.registry.names) (hne : R ≠ A.name) :
    agentMessage A (some R) content thread reply draws = ((sendOne ⟨A.name, content, thread, reply⟩ R (draws 0)).text,
      [sendOne ⟨A.name, content, thread, reply⟩ R (draws 0)]) := by
  have hself : messengerResolve A.agents (some R) = some R := A.registry.resolve_self hR
  rcases agentMessage_cases A content thread reply draws R with ⟨hall, -⟩ | ⟨-, -, hno⟩ | ⟨-, n, -, -, hres, hmsg⟩
  · rw [A.registry.all_of_name hR] at hall
    cases hall
  · exact absurd (hno R hR hself) hne
  · rw [hself] at hres
    cases hres
    exact hmsg

end Sending

/-! ## `send_message` -/

section Spec

variable {J : CJson} {A : Config} {W : World} {trig : TriggerInfo} {ran : Nat} {s : Sent}

theorem resolve_idem {t : Option Str} {n : Str} (h : messengerResolve A.agents t = some n) :
    messengerResolve A.agents (some n) = some n := by
  rcases List.mem_cons.mp (resolve_mem h) with rfl | hn
  · rfl
  · exact A.registry.resolve_self hn

/-- The mark follows the agent the recipient resolves to. -/
theorem Sends.spec (h : Sends J A W trig ran s) : ∃ t content thread, s.auto = false ∧ s.addressed = some t ∧
    s.named = messengerResolve A.agents (some t) ∧
    (s.text, s.puts) = agentMessage A (some t) content thread (isRequester trig s.named) (W.draws ran) := by
  obtain ⟨kvs, input, hcheck, rfl⟩ := h
  obtain ⟨t, ht, hraw⟩ := toolCheckArgs_to hcheck
  have hnamed : messengerResolve A.agents ((Json.obj kvs).jStr (lit "to")) = messengerResolve A.agents (some t) := by
    rcases hraw with hraw | ⟨hraw, hfirst⟩
    · rw [hraw]
    · -- the text of an array or an object names nobody
      rw [hraw]
      cases hres : messengerResolve A.agents (some t) with
      | none => rfl
      | some n =>
        have hbyte := A.registry.resolve_first hres
        cases t with
        | nil => simp at hfirst
        | cons c t =>
          simp only [List.head?_cons, Option.some.injEq] at hfirst
          have hc : c = ch '@' ∨ nameChar c = true := hbyte
          rcases hfirst with rfl | rfl
          · exact absurd hc (by decide)
          · exact absurd hc (by decide)
  unfold sendMessage
  dsimp only
  split
  · rename_i hreq
    cases hn : messengerResolve A.agents ((Json.obj kvs).jStr (lit "to")) with
    | none =>
      rw [hn] at hreq
      cases hreq
    | some n =>
      rw [hn] at hreq
      exact ⟨n, _, _, rfl, rfl, (resolve_idem hn).symm, by rw [hreq]⟩
  · rename_i hreq
    refine ⟨t, (input.jStr (lit "content")).getD [], none, rfl, ht, hnamed, ?_⟩
    dsimp only
    rw [Bool.eq_false_iff.mpr hreq, ht]

/-- Every message of a call has the mark of the agent its recipient resolves to. -/
theorem Sends.mark (h : Sends J A W trig ran s) {p : Put} (hp : p ∈ s.puts) :
    isReply p.msg = isRequester trig s.named := by
  obtain ⟨t, content, thread, -, -, -, hmsg⟩ := h.spec
  apply isReply_agentMessage A content thread (isRequester trig s.named) (W.draws ran) (some t)
  rw [← hmsg]
  exact hp

/-- A message goes to everyone, or to the agent its recipient resolves to. -/
theorem Sends.put_cases (h : Sends J A W trig ran s) {p : Put} (hp : p ∈ s.puts) :
    s.addressed.any (strcaseeq · (lit "all")) = true ∨ s.named = some p.recipient := by
  obtain ⟨t, content, thread, -, haddr, hnamed, hmsg⟩ := h.spec
  have hputs : s.puts = _ := congrArg Prod.snd hmsg
  rw [haddr, hnamed]
  rcases agentMessage_cases A content thread (isRequester trig s.named) (W.draws ran) t with
    ⟨hall, -⟩ | ⟨-, hnil, -⟩ | ⟨-, n, -, -, hres, hone⟩
  · exact .inl hall
  · rw [hputs, hnil] at hp
    cases hp
  · rw [hputs, hone, List.mem_singleton] at hp
    rw [hres, hp]
    exact .inr rfl

end Spec

/-! ## The messages of a session -/

/-- The agents reached by a `send_message` addressed by name, in order. -/
def byName (sent : List Sent) : List Str := (sent.filter fun s => !s.auto && s.ok).filterMap (·.named)

/-- The turns log every call and record the first eight names. -/
def Logged (J : CJson) (A : Config) (W : World) (talk : List Sent × List Str) : Prop :=
  (∀ s ∈ talk.1, ∃ ran, Sends J A W (parseTrigger J W.type W.data) ran s) ∧ talk.2 = (byName talk.1).take 8

theorem recordTo_take (names : List Str) {name : Str} (hfit : name.length < 32) :
    recordTo (names.take 8) (some name) = (names ++ [name]).take 8 := by
  unfold recordTo
  simp only [(cut_eq_self (by omega)).mpr hfit, List.length_take]
  by_cases hlen : names.length < 8
  · rw [if_pos (by omega), List.take_of_length_le (by omega), List.take_of_length_le]
    simp only [List.length_append, List.length_singleton]
    omega
  · rw [if_neg (by omega), List.take_append_of_le_length (by omega)]

theorem length_of_agent {A : Config} {name : Str} (h : name ∈ A.agents) : name.length < 32 := by
  rcases List.mem_cons.mp h with rfl | h
  · decide
  · exact A.registry.length_of_name h

theorem logged_addSent {J : CJson} {A : Config} {W : World} {talk : List Sent × List Str} {ran : Nat} {s : Sent}
    (h : Logged J A W talk) (hs : Sends J A W (parseTrigger J W.type W.data) ran s) : Logged J A W (addSent talk s) := by
  obtain ⟨t, _, _, hauto, -, hnamed, -⟩ := hs.spec
  refine ⟨?_, ?_⟩
  · intro x hx
    rcases List.mem_append.mp hx with hx | hx
    · exact h.1 x hx
    · rw [List.mem_singleton.mp hx]
      exact ⟨ran, hs⟩
  · have hby : byName (talk.1 ++ [s]) = byName talk.1 ++ if s.ok then s.named.toList else [] := by
      unfold byName
      rw [List.filter_append, List.filterMap_append, List.filter_singleton, hauto]
      cases s.ok
      · rfl
      · cases hn : s.named <;> simp [hn]
    unfold addSent
    dsimp only
    rw [hby, h.2]
    split
    · cases hn : s.named with
      | none => simp [recordTo]
      | some name =>
        rw [hnamed] at hn
        exact recordTo_take _ (length_of_agent (resolve_mem hn))
    · rw [List.append_nil]

theorem runSession_logged (J : CJson) (A : Config) (W : World) (conv : Option Conv) : ∃ sent msg ran,
    (∀ s ∈ sent, ∃ ran, Sends J A W (parseTrigger J W.type W.data) ran s) ∧ (runSession J A W conv).1.sent = sent ++
      ((parseTrigger J W.type W.data).requesters.filter (· ∉ (byName sent).take 8)).mapIdx
        fun i r => autoAnswer A W msg (ran + i) r := by
  obtain ⟨sent, sentTo, msg, ran, ⟨hsends, hto⟩, hsent⟩ :=
    runSession_sent J A W conv (Logged J A W) ⟨by simp, rfl⟩ fun _ _ _ => logged_addSent
  dsimp only at hsends hto
  rw [hto] at hsent
  exact ⟨sent, msg, ran, hsends, hsent⟩

/-! ## Answers never ask -/

/-- Every message put in `R`'s inbox is an answer, and a batch with no other messages of
    this agent does not make it a requester of `R`. -/
structure NeverRequests (J : CJson) (A : Config) (R : Str) (sent : List Sent) : Prop where
  marked : ∀ s ∈ sent, ∀ p ∈ s.puts, p.recipient = R → p.written = true → isReply p.msg = true
  uncounted : ∀ ms : List Json, (∀ m ∈ ms, (m.jStr (lit "from")).map (cut 32) = some A.name →
      ∃ s ∈ sent, ∃ p ∈ s.puts, p.recipient = R ∧ p.written = true ∧ p.msg = m) →
    A.name ∉ (parseTrigger J .agentMsg (J.print (.arr ms))).requesters

/-- No message to `all` reached `R`. -/
def NoBroadcast (R : Str) (sent : List Sent) : Prop :=
  ∀ s ∈ sent, s.addressed.any (strcaseeq · (lit "all")) = true → ∀ p ∈ s.puts, p.recipient = R → p.written = false

/-- A batch of registered agents. -/
def FromAgents (A : Config) (ms : List Json) : Prop :=
  ∀ m ∈ ms, ∀ sender, m.jStr (lit "from") = some sender → sender ∈ A.registry.names

section Session

variable {J : CJson} {A : Config} {W : World} {conv : Option Conv}

theorem requesters_eq (htype : W.type = .agentMsg) :
    (parseTrigger J W.type W.data).requesters = (batch J W.data).foldl addRequester [] := by
  unfold parseTrigger
  rw [if_pos htype]

theorem requester_iff (htype : W.type = .agentMsg) (hfrom : FromAgents A (batch J W.data)) {R : Str} :
    R ∈ (parseTrigger J W.type W.data).requesters ↔ Asks (batch J W.data) R := by
  rw [requesters_eq htype]
  exact mem_requesters hfrom

theorem Asks.registered {ms : List Json} (hfrom : FromAgents A ms) {R : Str} (h : Asks ms R) : R ∈ A.registry.names := by
  obtain ⟨m, hm, hs, -⟩ := h
  exact hfrom m hm R hs

theorem neverRequests_of_marked {R : Str} {sent : List Sent}
    (h : ∀ s ∈ sent, ∀ p ∈ s.puts, p.recipient = R → p.written = true → isReply p.msg = true) :
    NeverRequests J A R sent := by
  refine ⟨h, fun ms hms hcount => ?_⟩
  have hbatch : batch J (J.print (.arr ms)) = ms := by
    unfold batch
    rw [J.parse_print]
    rfl
  rw [show parseTrigger J .agentMsg (J.print (.arr ms)) = _ from if_pos rfl, hbatch] at hcount
  obtain hcount | ⟨m, hm, sender, hs, hname, hreply⟩ := mem_foldl_addRequester hcount
  · cases hcount
  · obtain ⟨s, hs', p, hp, hR, hw, rfl⟩ := hms m hm (by rw [hs, hname]; rfl)
    rw [h s hs' p hp hR hw] at hreply
    cases hreply

/-- For every batch in which another agent asks something and every run of its session. -/
theorem never_requests (J : CJson) (A : Config) (W : World) (conv : Option Conv) (R : Str) (htype : W.type = .agentMsg)
    (hfrom : FromAgents A (batch J W.data)) (hasks : Asks (batch J W.data) R) :
    NeverRequests J A R (runSession J A W conv).1.sent ↔ NoBroadcast R (runSession J A W conv).1.sent := by
  have hreq : R ∈ (parseTrigger J W.type W.data).requesters := (requester_iff htype hfrom).mpr hasks
  obtain ⟨sent, msg, ran, hsends, hsent⟩ := runSession_logged J A W conv
  -- an automatic answer is marked and goes to a registered agent
  have hauto : ∀ s ∈ ((parseTrigger J W.type W.data).requesters.filter (· ∉ (byName sent).take 8)).mapIdx
      (fun i r => autoAnswer A W msg (ran + i) r), (∀ p ∈ s.puts, isReply p.msg = true) ∧
        s.addressed.any (strcaseeq · (lit "all")) = false := by
    intro s hs
    obtain ⟨i, hi, rfl⟩ := List.mem_mapIdx.mp hs
    have hmem := List.mem_of_mem_filter (List.getElem_mem hi)
    refine ⟨isReply_agentMessage A _ _ _ _ _, ?_⟩
    exact A.registry.all_of_name (((requester_iff htype hfrom).mp hmem).registered hfrom)
  rw [hsent]
  constructor
  · intro h s hs hall p hp hR
    by_contra hw
    have hmark := h.marked s hs p hp hR (by simpa using hw)
    rcases List.mem_append.mp hs with hs | hs
    · obtain ⟨ran, hs⟩ := hsends s hs
      rw [hs.mark hp] at hmark
      -- a marked message was not addressed to everyone
      obtain ⟨t, _, _, -, haddr, hnamed, -⟩ := hs.spec
      rw [haddr] at hall
      rw [hnamed, show messengerResolve A.agents (some t) = none from A.registry.resolve_all hall] at hmark
      cases hmark
    · rw [(hauto s hs).2] at hall
      cases hall
  · intro h
    apply neverRequests_of_marked
    intro s hs p hp hR hw
    rcases List.mem_append.mp hs with hturn | hs
    · obtain ⟨ran, hturn⟩ := hsends s hturn
      rcases hturn.put_cases hp with hall | hnamed
      · rw [h s hs hall p hp hR] at hw
        cases hw
      · -- reached by name: the name is the requester's
        rw [hturn.mark hp, hnamed, hR]
        exact decide_eq_true hreq
    · exact (hauto s hs).1 p hp

end Session

/-- Two agents. -/
def adaOf : Config where
  name := lit "ada"
  isBuilder := false
  isHub := false
  maxTurns := 0
  historyBudget := 0
  kind := .anthropic
  chat := false
  registry := ⟨[lit "ada", lit "bob"], by decide, by decide, by decide⟩
  known := by decide

/-- `bob` asks `ada` something. -/
def question : Json := (⟨lit "bob", lit "well?", none, false⟩ : Envelope).message (lit "ada") (lit "m1") (lit "now")

/-- A tool call of `send_message`. -/
def sendBlock (id recipient content : Str) : Json :=
  .obj [(lit "type", .str (lit "tool_use")), (lit "id", .str id), (lit "name", .str (lit "send_message")),
    (lit "input", .obj [(lit "to", .str recipient), (lit "content", .str content)])]

/-- The session it starts: the model sends these messages and then has nothing to say. -/
def askedBy (calls : List Json) : World where
  type := .agentMsg
  data := CJson.compact.print (.arr [question])
  thread := lit "th"
  chatId := 0
  seq := 0
  opening := lit "well?"
  schemas := []
  http turn := if turn = 0 then .ok (CJson.compact.print (.obj [(lit "content", .arr calls)])) else .error (lit "gone")
  rnds _ _ := []
  exec _ _ _ := []
  plugin _ _ _ := none
  draws _ _ := ⟨lit "m2", lit "now", true⟩

theorem askedBy_batch (calls : List Json) : batch CJson.compact (askedBy calls).data = [question] := by
  unfold batch askedBy
  rw [CJson.compact.parse_print]
  rfl

theorem askedBy_from (calls : List Json) : FromAgents adaOf (batch CJson.compact (askedBy calls).data) := by
  rw [askedBy_batch]
  intro m hm sender hs
  rw [List.mem_singleton.mp hm] at hs
  cases hs
  decide

theorem askedBy_asks (calls : List Json) {R : Str} : Asks (batch CJson.compact (askedBy calls).data) R ↔ R = lit "bob" := by
  rw [askedBy_batch]
  constructor
  · rintro ⟨m, hm, hs, -⟩
    rw [List.mem_singleton.mp hm] at hs
    exact (Option.some.inj hs).symm
  · rintro rfl
    exact ⟨question, List.mem_singleton_self _, rfl, rfl⟩

/-- A recipient spelled `@BOB` gets an answer. -/
theorem never_requests_mention : NeverRequests CJson.compact adaOf (lit "bob")
    (runSession CJson.compact adaOf (askedBy [sendBlock (lit "t1") (lit "@BOB") (lit "yes")]) none).1.sent := by
  refine (never_requests CJson.compact adaOf _ none (lit "bob") rfl (askedBy_from _) ((askedBy_asks _).mpr rfl)).mpr ?_
  have hrun : (runSession CJson.compact adaOf (askedBy [sendBlock (lit "t1") (lit "@BOB") (lit "yes")]) none).1.sent.all
      (fun s => !s.addressed.any (strcaseeq · (lit "all"))) = true := by decide +kernel
  intro s hs hall
  have := List.all_eq_true.mp hrun s hs
  rw [hall] at this
  cases this

/-- A broadcast puts a question in the requester's inbox. -/
theorem broadcast_asks : ¬ ∀ (A : Config) (W : World) (conv : Option Conv) (R : Str), W.type = .agentMsg →
    FromAgents A (batch CJson.compact W.data) → Asks (batch CJson.compact W.data) R →
      NeverRequests CJson.compact A R (runSession CJson.compact A W conv).1.sent := by
  intro hall
  have h := hall adaOf (askedBy [sendBlock (lit "t1") (lit "All") (lit "hear this")]) none (lit "bob") rfl
    (askedBy_from _) ((askedBy_asks _).mpr rfl)
  have hrun : (runSession CJson.compact adaOf (askedBy [sendBlock (lit "t1") (lit "All") (lit "hear this")]) none).1.sent.any
      (fun s => s.puts.any fun p => p.recipient = lit "bob" && p.written && !isReply p.msg) = true := by decide +kernel
  obtain ⟨s, hs, hrun⟩ := List.any_eq_true.mp hrun
  obtain ⟨p, hp, hrun⟩ := List.any_eq_true.mp hrun
  simp only [Bool.and_eq_true, decide_eq_true_eq] at hrun
  rw [h.marked s hs p hp hrun.1.1 hrun.1.2] at hrun
  exact absurd hrun.2 (by decide)

/-! ## Every requester is answered, and not twice -/

section Session

variable {J : CJson} {A : Config} {W : World}

/-- The recipients of the automatic answers. -/
def automatic (sent : List Sent) : List Str := (sent.filter (·.auto)).flatMap fun s => s.puts.map (·.recipient)

/-- What the session owes a batch. -/
structure Answered (ms : List Json) (sent : List Sent) : Prop where
  /-- Who asks gets a message. -/
  reached : ∀ R, Asks ms R → ∃ s ∈ sent, ∃ p ∈ s.puts, p.recipient = R ∧ p.written = true
  /-- The automatic answers go, one each, to those no message by name reached. -/
  once : (automatic sent).Nodup
  exact : ∀ R, R ∈ automatic sent ↔ Asks ms R ∧ R ∉ byName sent

/-- Every requester messaged by name is among the first eight. -/
def Recorded (ms : List Json) (sent : List Sent) : Prop :=
  ∀ R, Asks ms R → R ∈ byName sent → R ∈ (byName sent).take 8

/-- A list rebuilt from single-element pieces. -/
theorem flatMap_mapIdx {α β : Type} {l : List α} {f : Nat → α → β} {g : β → List α} (h : ∀ i, ∀ a ∈ l, g (f i a) = [a]) :
    (l.mapIdx f).flatMap g = l := by
  rw [List.mapIdx_eq_zipIdx_map, List.flatMap_map]
  have hpiece : ∀ x ∈ l.zipIdx, g (f x.2 x.1) = [x.1] := fun x hx => h x.2 x.1 (List.fst_mem_of_mem_zipIdx hx)
  rw [List.flatMap_congr hpiece, ← List.map_eq_flatMap, List.zipIdx_map_fst]

theorem automatic_append (sent autos : List Sent) (hsent : ∀ s ∈ sent, s.auto = false) (hautos : ∀ s ∈ autos, s.auto = true) :
    byName (sent ++ autos) = byName sent ∧
      automatic (sent ++ autos) = autos.flatMap fun s => s.puts.map (·.recipient) := by
  have hnone : autos.filter (fun s => !s.auto && s.ok) = [] := by
    rw [List.filter_eq_nil_iff]
    intro s hs
    simp [hautos s hs]
  unfold byName automatic
  rw [List.filter_append, List.filter_append]
  constructor
  · rw [hnone, List.append_nil]
  · rw [List.filter_eq_nil_iff.mpr (by simpa using hsent), List.nil_append, List.filter_eq_self.mpr hautos]

section Writable

variable (hw : ∀ i j, (W.draws i j).written = true) {R : Str} (hR : R ∈ A.registry.names) (hne : R ≠ A.name)

include hw hR hne

theorem autoAnswer_puts (msg : Str) (ran : Nat) :
    ∃ p : Put, (autoAnswer A W msg ran R).puts = [p] ∧ p.recipient = R ∧ p.written = true :=
  ⟨_, congrArg Prod.snd (agentMessage_name A msg (some W.thread) true (W.draws ran) hR hne), rfl, hw _ _⟩

theorem Sends.reaches {trig : TriggerInfo} {ran : Nat} {s : Sent} (h : Sends J A W trig ran s) (hn : s.named = some R) :
    ∃ p ∈ s.puts, p.recipient = R ∧ p.written = true := by
  obtain ⟨t, content, thread, -, -, hnamed, hmsg⟩ := h.spec
  rw [hn] at hnamed
  have hputs : s.puts = _ := congrArg Prod.snd hmsg
  rcases agentMessage_cases A content thread (isRequester trig s.named) (W.draws ran) t with
    ⟨hall, -⟩ | ⟨-, -, hno⟩ | ⟨-, n, -, -, hres, hone⟩
  · rw [show messengerResolve A.agents (some t) = none from A.registry.resolve_all hall] at hnamed
    cases hnamed
  · exact absurd (hno R hR hnamed.symm) hne
  · rw [← hnamed] at hres
    cases hres
    rw [hputs, hone]
    exact ⟨_, List.mem_singleton_self _, rfl, hw _ _⟩

end Writable

/-- The automatic answers of a session, and whom its turns reached. -/
theorem runSession_answers (conv : Option Conv) (htype : W.type = .agentMsg) (hfrom : FromAgents A (batch J W.data))
    (hself : ¬ Asks (batch J W.data) A.name) (hw : ∀ i j, (W.draws i j).written = true) :
    automatic (runSession J A W conv).1.sent = (parseTrigger J W.type W.data).requesters.filter
      (· ∉ (byName (runSession J A W conv).1.sent).take 8) ∧
    ∀ R, Asks (batch J W.data) R → ∃ s ∈ (runSession J A W conv).1.sent, ∃ p ∈ s.puts, p.recipient = R ∧ p.written = true := by
  obtain ⟨sent, msg, ran, hsends, hsent⟩ := runSession_logged J A W conv
  have hother : ∀ {R : Str}, Asks (batch J W.data) R → R ≠ A.name := fun hR h => hself (h ▸ hR)
  have hturns : ∀ s ∈ sent, s.auto = false := by
    intro s hs
    obtain ⟨_, hs⟩ := hsends s hs
    obtain ⟨_, _, _, hauto, -⟩ := hs.spec
    exact hauto
  obtain ⟨hby, hauto⟩ := automatic_append sent _ hturns (by
    intro s hs
    obtain ⟨i, hi, rfl⟩ := List.mem_mapIdx.mp hs
    rfl : ∀ s ∈ ((parseTrigger J W.type W.data).requesters.filter (· ∉ (byName sent).take 8)).mapIdx
      (fun i r => autoAnswer A W msg (ran + i) r), s.auto = true)
  rw [hsent, hby, hauto]
  constructor
  · refine flatMap_mapIdx fun i R hR => ?_
    have hasks := (requester_iff htype hfrom).mp (List.mem_of_mem_filter hR)
    obtain ⟨p, hp, rfl, -⟩ := autoAnswer_puts hw (hasks.registered hfrom) (hother hasks) msg (ran + i)
    rw [hp]
    rfl
  · intro R hR
    by_cases hfirst : R ∈ (byName sent).take 8
    · obtain ⟨s, hs, hn⟩ := List.mem_filterMap.mp (List.mem_of_mem_take hfirst)
      have hs := List.mem_of_mem_filter hs
      obtain ⟨_, hsend⟩ := hsends s hs
      exact ⟨s, List.mem_append_left _ hs, hsend.reaches hw (hR.registered hfrom) (hother hR) hn⟩
    · have hreq : R ∈ (parseTrigger J W.type W.data).requesters.filter (· ∉ (byName sent).take 8) := by
        rw [List.mem_filter]
        exact ⟨(requester_iff htype hfrom).mpr hR, by simpa using hfirst⟩
      obtain ⟨i, hi, hiR⟩ := List.getElem_of_mem hreq
      obtain ⟨p, hp, hto⟩ := autoAnswer_puts hw (hR.registered hfrom) (hother hR) msg (ran + i)
      refine ⟨autoAnswer A W msg (ran + i) R, ?_, p, by rw [hp]; exact List.mem_singleton_self _, hto⟩
      exact List.mem_append_right _ (List.mem_mapIdx.mpr ⟨i, hi, by rw [hiR]⟩)

/-- For every batch of other agents and every run of its session in which inboxes can be written. -/
theorem requesters_answered (J : CJson) (A : Config) (W : World) (conv : Option Conv) (htype : W.type = .agentMsg)
    (hfrom : FromAgents A (batch J W.data)) (hself : ¬ Asks (batch J W.data) A.name)
    (hw : ∀ i j, (W.draws i j).written = true) :
    Answered (batch J W.data) (runSession J A W conv).1.sent ↔
      Recorded (batch J W.data) (runSession J A W conv).1.sent := by
  obtain ⟨hauto, hreached⟩ := runSession_answers conv htype hfrom hself hw
  have hmem : ∀ R, R ∈ automatic (runSession J A W conv).1.sent ↔
      Asks (batch J W.data) R ∧ R ∉ (byName (runSession J A W conv).1.sent).take 8 := by
    intro R
    rw [hauto, List.mem_filter, requester_iff htype hfrom]
    simp
  constructor
  · intro h R hR hmsg
    by_contra hlate
    exact ((h.exact R).mp ((hmem R).mpr ⟨hR, hlate⟩)).2 hmsg
  · intro h
    refine ⟨hreached, ?_, ?_⟩
    · rw [hauto, requesters_eq htype]
      exact (nodup_requesters hfrom).filter _
    · intro R
      rw [hmem]
      exact and_congr_right fun hR => not_congr ⟨List.mem_of_mem_take, h R hR⟩

end Session

/-- One message to `bob` by name and no automatic answer. -/
theorem requesters_answered_mention : Answered [question]
    (runSession CJson.compact adaOf (askedBy [sendBlock (lit "t1") (lit "@BOB") (lit "yes")]) none).1.sent := by
  have h := (requesters_answered CJson.compact adaOf (askedBy [sendBlock (lit "t1") (lit "@BOB") (lit "yes")]) none rfl
    (askedBy_from _) (by rw [askedBy_asks]; decide) (fun _ _ => rfl)).mpr
  rw [askedBy_batch] at h
  apply h
  have hrun : byName (runSession CJson.compact adaOf (askedBy [sendBlock (lit "t1") (lit "@BOB") (lit "yes")]) none).1.sent =
      [lit "bob"] := by decide +kernel
  intro R _ hR
  rw [hrun] at hR ⊢
  exact hR

/-- Eight notes to the owner, then an answer to `bob`. -/
def nineSends : List Json :=
  (List.range 8).map (fun i => sendBlock (lit "t" ++ decimal i) (lit "owner") (lit "note " ++ decimal i)) ++
    [sendBlock (lit "t8") (lit "bob") (lit "yes")]

/-- The ninth recipient is not recorded: `bob` is answered twice. -/
theorem ninth_answered_twice : ¬ ∀ (A : Config) (W : World) (conv : Option Conv), W.type = .agentMsg →
    FromAgents A (batch CJson.compact W.data) → ¬ Asks (batch CJson.compact W.data) A.name →
    (∀ i j, (W.draws i j).written = true) →
      Answered (batch CJson.compact W.data) (runSession CJson.compact A W conv).1.sent := by
  intro hall
  have h := hall adaOf (askedBy nineSends) none rfl (askedBy_from _) (by rw [askedBy_asks]; decide) (fun _ _ => rfl)
  have hrun : (automatic (runSession CJson.compact adaOf (askedBy nineSends) none).1.sent,
      (byName (runSession CJson.compact adaOf (askedBy nineSends) none).1.sent).drop 8) = ([lit "bob"], [lit "bob"]) := by
    decide +kernel
  obtain ⟨hauto, hby⟩ := Prod.mk.inj hrun
  refine ((h.exact (lit "bob")).mp (by rw [hauto]; decide)).2 (List.mem_of_mem_drop (i := 8) ?_)
  rw [hby]
  decide

end Shclaw.Agent
