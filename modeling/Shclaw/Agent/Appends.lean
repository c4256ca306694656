/-
  Shclaw.Agent.Appends — requests only grow at the end (`src/agent.c`:
  `agent_run_session`, `after_text_reply`).

  Within a session the array passed to `llm_call` is the one of the turn before with
  more messages behind it, as long as `trim_history` is off: a reply, tool results, a
  nudge. `trim_history` is the only step that touches an old message. Across sessions
  the array goes through `agent->conv`: a session that keeps its history ended on a
  reply, which it appended to its last request, and the session that resumes opens
  with a user text behind all of it. This needs no `trim_history` to be off, since
  the reply that ends a session follows the last request.

  `requests_append` states both.
-/

import Shclaw.Agent.Pairing

namespace Shclaw.Agent

open Lib Provider

/-- The second array is the first with more behind it. -/
def Grows (req req' : List Json) : Prop := ∃ m more, req' = req ++ m :: more

theorem grows_of_prefix {req msgs : List Json} (h : req <+: msgs) (m : Json) : Grows req (msgs ++ [m]) := by
  obtain ⟨t, rfl⟩ := h
  cases t with
  | nil => exact ⟨m, [], by rw [List.append_nil]⟩
  | cons x t => exact ⟨x, t ++ [m], by rw [List.append_assoc]; rfl⟩

/-- The session talks to the owner, and the agent keeps conversations. -/
def talks (J : CJson) (A : Config) (W : World) : Bool := (parseTrigger J W.type W.data).relay && A.chat

/-- The conversation kept after sessions that ran one after the other. -/
def convAfter (J : CJson) (A : Config) (conv : Option Conv) (Ws : List World) : Option Conv :=
  Ws.foldl (fun conv W => (runSession J A W conv).2.2) conv

section Turns

variable {J : CJson} {A : Config} {W : World} {trig : TriggerInfo} {tools : List Json}

/-! ## One turn -/

theorem takeReply_prefix (r : Response) (l : Live) : l.messages <+: (takeReply r l).messages := by
  unfold takeReply
  dsimp only
  split
  · exact List.prefix_append _ _
  · exact List.prefix_refl _

theorem lastRole_concat (msgs : List Json) (m : Json) : lastRole (msgs ++ [m]) = m.jStr (lit "role") := by
  unfold lastRole
  rw [List.getLast?_concat]
  rfl

/-- Old outputs are cut where they stand: the last message keeps its role. -/
theorem lastRole_trimHistory (budget : Nat) (msgs : List Json) : lastRole (trimHistory budget msgs) = lastRole msgs := by
  have hshape : ∀ msgs : List Json, lastRole msgs = (msgs.map shape).getLast?.bind (·.1) := by
    intro msgs
    rw [List.getLast?_map]
    unfold lastRole
    cases msgs.getLast? <;> rfl
  unfold trimHistory
  split
  · rfl
  · rw [hshape, trimMessages_shapes, ← hshape]

/-- A reply without tool calls ends the session where it stands or queues a nudge. -/
theorem afterTextReply_cases (text : Str) (l : Live) :
    (afterTextReply A W text l).2 ≠ .again ∧ (afterTextReply A W text l).1.messages = l.messages ∨
    (afterTextReply A W text l).2 = .again ∧
      ∃ words, (afterTextReply A W text l).1.messages = l.messages ++ [userText words] := by
  have hbuilder : (builderReply W text l).2 ≠ .again ∧ (builderReply W text l).1.messages = l.messages ∨
      (builderReply W text l).2 = .again ∧ ∃ words, (builderReply W text l).1.messages = l.messages ++ [userText words] := by
    unfold builderReply
    dsimp only
    split
    · split
      · exact Or.inl ⟨nofun, rfl⟩
      split
      · exact Or.inr ⟨rfl, _, rfl⟩
      · exact Or.inl ⟨nofun, rfl⟩
    · split
      · exact Or.inl ⟨nofun, rfl⟩
      split
      · exact Or.inr ⟨rfl, _, rfl⟩
      · exact Or.inl ⟨nofun, rfl⟩
  unfold afterTextReply
  split
  · exact hbuilder
  split
  · exact Or.inr ⟨rfl, _, rfl⟩
  split
  · exact Or.inr ⟨rfl, _, rfl⟩
  · exact Or.inl ⟨nofun, rfl⟩

/-- The history of a tool turn: the results are behind it, old outputs may be cut. -/
theorem toolTurn_messages (r : Response) (l : Live) : ∃ results, (toolTurn J A W trig tools r l).1.messages =
    if trims A then trimHistory A.historyBudget.toNat (l.messages ++ [toolMessage results])
    else l.messages ++ [toolMessage results] := by
  have hkept : (runCalls J A W trig tools r.toolCalls l).2.messages = l.messages :=
    congrArg Prod.fst (runCalls_kept r.toolCalls l)
  refine ⟨(runCalls J A W trig tools r.toolCalls l).1, ?_⟩
  unfold toolTurn
  dsimp only
  rw [hkept]
  split <;> rfl

/-- A turn after which the model is called again leaves a user turn last, behind all there was. -/
theorem turnStep_again {r : Response} {l l' : Live} (h : turnStep J A W trig tools r l = (l', .again)) :
    lastRole l'.messages = some (lit "user") ∧ (trims A = false → Grows l.messages l'.messages) := by
  have hpre := takeReply_prefix r l
  unfold turnStep at h
  dsimp only at h
  split at h
  · obtain ⟨results, hmsgs⟩ : ∃ results, (toolTurn J A W trig tools r (takeReply r l)).1.messages = _ :=
      toolTurn_messages r (takeReply r l)
    rw [h] at hmsgs
    dsimp only at hmsgs
    refine ⟨?_, fun htrim => ?_⟩
    · have hrole := lastRole_concat (takeReply r l).messages (toolMessage results)
      rw [hmsgs]
      split
      · rw [lastRole_trimHistory, hrole]
        rfl
      · rw [hrole]
        rfl
    · rw [hmsgs, htrim]
      exact grows_of_prefix hpre _
  · split at h
    · cases h
    · rcases afterTextReply_cases (A := A) (W := W) (replyText r) (takeReply r l) with ⟨hno, -⟩ | ⟨-, words, hmsgs⟩
      · rw [h] at hno
        exact absurd rfl hno
      · rw [h] at hmsgs
        dsimp only at hmsgs
        rw [hmsgs]
        exact ⟨lastRole_concat _ _, fun _ => grows_of_prefix hpre _⟩

/-- The turn that ends a session well appends its reply and nothing else. -/
theorem turnStep_done {r : Response} {l l' : Live} (h : turnStep J A W trig tools r l = (l', .done)) :
    l.messages <+: l'.messages := by
  have hpre := takeReply_prefix r l
  unfold turnStep at h
  dsimp only at h
  split at h
  · unfold toolTurn at h
    dsimp only at h
    split at h <;> cases h
  · split at h
    · cases h
      exact hpre
    · rcases afterTextReply_cases (A := A) (W := W) (replyText r) (takeReply r l) with ⟨-, hmsgs⟩ | ⟨hagain, -⟩
      · rw [h] at hmsgs
        exact hmsgs ▸ hpre
      · rw [h] at hagain
        cases hagain

/-! ## A whole session -/

variable (J A W trig tools)

/-- A turn makes its request, and the session fails, ends on its reply or goes on. -/
theorem turns_cases (max n : Nat) (l : Live) : ∃ l' : Live, l'.requests = l.requests ++ [l.messages] ∧
    (turns J A W trig tools max (n + 1) l = (l', false) ∨
     turns J A W trig tools max (n + 1) l = (l', true) ∧ l.messages <+: l'.messages ∨
     turns J A W trig tools max (n + 1) l = turns J A W trig tools max n l' ∧
      lastRole l'.messages = some (lit "user") ∧ (trims A = false → Grows l.messages l'.messages)) := by
  rw [turns]
  dsimp only
  split
  · exact ⟨_, rfl, Or.inl rfl⟩
  rename_i r _
  have hsame : (turnStep J A W trig tools r { l with requests := l.requests ++ [l.messages] }).1.requests =
      l.requests ++ [l.messages] := turnStep_requests r _
  split
  all_goals rename_i l' heq; rw [heq] at hsame; refine ⟨l', hsame, ?_⟩
  · obtain ⟨hrole, hgrows⟩ := turnStep_again heq
    exact Or.inr (Or.inr ⟨rfl, hrole, hgrows⟩)
  · have hpre := turnStep_done heq
    exact Or.inr (Or.inl ⟨rfl, hpre⟩)
  · exact Or.inl rfl

/-- What holds before a turn: the requests grew, and the next one grows the last. -/
def Appending (l : Live) : Prop := l.requests.IsChain Grows ∧ ∀ last ∈ l.requests.getLast?, Grows last l.messages

theorem Appending.request {l : Live} (h : Appending l) : (l.requests ++ [l.messages]).IsChain Grows := by
  refine List.isChain_append.mpr ⟨h.1, .singleton _, fun a ha b hb => ?_⟩
  cases hb
  exact h.2 a ha

theorem turns_chain (htrim : trims A = false) (max n : Nat) {l : Live} (h : Appending l) :
    (turns J A W trig tools max n l).1.requests.IsChain Grows := by
  induction n generalizing l with
  | zero => exact h.1
  | succ n ih =>
    obtain ⟨l', hreqs, heq | ⟨heq, -⟩ | ⟨heq, -, hgrows⟩⟩ :=
      turns_cases J A W trig tools max n l
    · rw [heq, hreqs]
      exact h.request
    · rw [heq, hreqs]
      exact h.request
    · rw [heq]
      refine ih ⟨hreqs ▸ h.request, fun last hlast => ?_⟩
      rw [hreqs, List.getLast?_concat] at hlast
      cases hlast
      exact hgrows htrim

theorem turns_requests (max n : Nat) (l : Live) : l.requests <+: (turns J A W trig tools max n l).1.requests := by
  induction n generalizing l with
  | zero => exact List.prefix_refl _
  | succ n ih =>
    obtain ⟨l', hreqs, hnext⟩ := turns_cases J A W trig tools max n l
    have hpre : l.requests <+: l'.requests := hreqs ▸ List.prefix_append _ _
    rcases hnext with heq | ⟨heq, -⟩ | ⟨heq, -⟩
    all_goals rw [heq]
    · exact hpre
    · exact hpre
    · exact hpre.trans (ih l')

/-- The first request is the history the turns start with. -/
theorem turns_head (max n : Nat) {l : Live} (h : l.requests = []) :
    (turns J A W trig tools max (n + 1) l).1.requests.head? = some l.messages := by
  obtain ⟨l', hreqs, heq | ⟨heq, -⟩ | ⟨heq, -⟩⟩ :=
    turns_cases J A W trig tools max n l
  all_goals rw [heq]; rw [h] at hreqs
  · rw [hreqs]
    rfl
  · rw [hreqs]
    rfl
  · obtain ⟨t, ht⟩ := turns_requests J A W trig tools max n l'
    rw [← ht, hreqs]
    rfl

/-- A session that completes on a reply ends on its last request and what it appended. -/
theorem turns_last (max n : Nat) (l : Live) : ∃ req, (turns J A W trig tools max (n + 1) l).1.requests.getLast? = some req ∧
    ((turns J A W trig tools max (n + 1) l).2 = true →
      lastRole (turns J A W trig tools max (n + 1) l).1.messages = some (lit "assistant") →
      req <+: (turns J A W trig tools max (n + 1) l).1.messages) := by
  induction n generalizing l with
  | zero =>
    obtain ⟨l', hreqs, heq | ⟨heq, hpre⟩ | ⟨heq, hrole, -⟩⟩ :=
      turns_cases J A W trig tools max 0 l
    all_goals rw [heq]
    · exact ⟨l.messages, by rw [hreqs, List.getLast?_concat], nofun⟩
    · exact ⟨l.messages, by rw [hreqs, List.getLast?_concat], fun _ _ => hpre⟩
    · -- the turns ran out behind a user turn
      refine ⟨l.messages, by rw [turns, hreqs, List.getLast?_concat], fun _ hlast => ?_⟩
      rw [show (turns J A W trig tools max 0 l').1.messages = l'.messages from rfl, hrole] at hlast
      exact absurd hlast (by decide)
  | succ n ih =>
    obtain ⟨l', hreqs, heq | ⟨heq, hpre⟩ | ⟨heq, -⟩⟩ :=
      turns_cases J A W trig tools max (n + 1) l
    all_goals rw [heq]
    · exact ⟨l.messages, by rw [hreqs, List.getLast?_concat], nofun⟩
    · exact ⟨l.messages, by rw [hreqs, List.getLast?_concat], fun _ _ => hpre⟩
    · exact ih l'

end Turns

variable (J : CJson) (A : Config)

/-- The session's turns; the automatic answers change neither history nor requests. -/
theorem runSession_turns (W : World) (conv : Option Conv) : ∃ x,
    x = turns J A W (parseTrigger J W.type W.data) (toolsOf A W) (maxTurnsOf A) (maxTurnsOf A)
      ⟨{}, openingMessages J A W conv, none, 0, [], []⟩ ∧
    (runSession J A W conv).1.requests = x.1.requests ∧ (runSession J A W conv).1.messages = x.1.messages ∧
    (runSession J A W conv).2.1 = x.2 ∧
    (runSession J A W conv).2.2 = keepConv J A W (talks J A W) x.2 x.1.messages conv := by
  refine ⟨_, rfl, ?_⟩
  unfold runSession talks
  dsimp only
  split <;> exact ⟨rfl, rfl, rfl, rfl⟩

theorem maxTurnsOf_succ : ∃ n, maxTurnsOf A = n + 1 := by
  refine ⟨maxTurnsOf A - 1, ?_⟩
  unfold maxTurnsOf
  split
  · omega
  · rfl

theorem runSession_chain (htrim : trims A = false) (W : World) (conv : Option Conv) :
    (runSession J A W conv).1.requests.IsChain Grows := by
  obtain ⟨x, hx, hreqs, -⟩ := runSession_turns J A W conv
  rw [hreqs, hx]
  exact turns_chain J A W _ _ htrim _ _ ⟨.nil, nofun⟩

theorem runSession_head (W : World) (conv : Option Conv) :
    (runSession J A W conv).1.requests.head? = some (openingMessages J A W conv) := by
  obtain ⟨x, hx, hreqs, -⟩ := runSession_turns J A W conv
  obtain ⟨n, hn⟩ := maxTurnsOf_succ A
  rw [hreqs, hx, hn]
  exact turns_head J A W _ _ _ n rfl

/-- A session that keeps its history keeps its last request and more, as far as `conv_fit`
    drops nothing. -/
theorem runSession_kept {W : World} {conv : Option Conv} {c : Conv} (htalk : talks J A W = true)
    (hc : (runSession J A W conv).2.2 = some c)
    (hfit : (convFit J (convLimit A) (runSession J A W conv).1.messages).2 = (runSession J A W conv).1.messages) :
    ∃ req, (runSession J A W conv).1.requests.getLast? = some req ∧ req <+: c.messages := by
  obtain ⟨x, hx, hreqs, hmsgs, -, hconv⟩ := runSession_turns J A W conv
  obtain ⟨n, hn⟩ := maxTurnsOf_succ A
  obtain ⟨req, hlast, hpre⟩ := turns_last J A W (parseTrigger J W.type W.data) (toolsOf A W) (maxTurnsOf A) n
    ⟨{}, openingMessages J A W conv, none, 0, [], []⟩
  rw [← hn, ← hx] at hlast hpre
  refine ⟨req, by rw [hreqs, hlast], ?_⟩
  rw [hconv, htalk] at hc
  unfold keepConv at hc
  dsimp only at hc
  rw [if_pos rfl] at hc
  split at hc
  · rename_i hkept
    cases hc
    dsimp only
    rw [hmsgs] at hfit
    rw [hfit]
    exact hpre hkept.1 hkept.2.1
  · cases hc

/-- Sessions that do not talk to the owner leave the conversation. -/
theorem convAfter_silent {conv : Option Conv} {Ws : List World} (h : ∀ W ∈ Ws, talks J A W = false) :
    convAfter J A conv Ws = conv := by
  unfold convAfter
  induction Ws with
  | nil => rfl
  | cons W Ws ih =>
    obtain ⟨x, -, -, -, -, hconv⟩ := runSession_turns J A W conv
    rw [List.foldl_cons, hconv, h W List.mem_cons_self]
    exact ih fun V hV => h V (List.mem_cons_of_mem _ hV)

/-- With trimming off every request of a session is a proper prefix of the next; and the
    last request of a session that kept all its history is one of the first request of the
    session that resumes it. -/
theorem requests_append (W : World) (conv : Option Conv) :
    (trims A = false → (runSession J A W conv).1.requests.IsChain Grows) ∧
    ∀ c Ws W', talks J A W = true → (runSession J A W conv).2.2 = some c →
      (convFit J (convLimit A) (runSession J A W conv).1.messages).2 = (runSession J A W conv).1.messages →
      (∀ V ∈ Ws, talks J A V = false) → (resumed J A W' (convAfter J A (some c) Ws)).isSome = true →
      ∃ last first, (runSession J A W conv).1.requests.getLast? = some last ∧
        (runSession J A W' (convAfter J A (some c) Ws)).1.requests.head? = some first ∧ Grows last first := by
  refine ⟨fun htrim => runSession_chain J A htrim W conv, ?_⟩
  intro c Ws W' htalk hc hfit hsilent hres
  obtain ⟨req, hlast, hpre⟩ := runSession_kept J A htalk hc hfit
  rw [convAfter_silent J A hsilent] at hres ⊢
  refine ⟨req, _, hlast, runSession_head J A W' (some c), ?_⟩
  obtain ⟨c', hc'⟩ := Option.isSome_iff_exists.mp hres
  have hsame : c' = c := by
    unfold resumed at hc'
    split at hc'
    · exact (Option.some.inj (Option.mem_filter_iff.mp hc').1).symm
    · cases hc'
  unfold openingMessages
  rw [hc', hsame]
  exact grows_of_prefix hpre _

/-- Two sessions of `recallThenText`, the second on the first's conversation. -/
theorem requests_append_resumed :
    (runSession CJson.compact ada recallThenText none).1.requests.IsChain Grows ∧
    ∃ c last first, (runSession CJson.compact ada recallThenText none).2.2 = some c ∧
      (runSession CJson.compact ada recallThenText none).1.requests.getLast? = some last ∧
      (runSession CJson.compact ada recallThenText (some c)).1.requests.head? = some first ∧ Grows last first := by
  have hall := requests_append CJson.compact ada recallThenText none
  have hkept : (runSession CJson.compact ada recallThenText none).2.2.map (·.id) = some 1 := by decide +kernel
  have hfit : (convFit CJson.compact (convLimit ada) (runSession CJson.compact ada recallThenText none).1.messages).2 =
      (runSession CJson.compact ada recallThenText none).1.messages := by decide +kernel
  obtain ⟨c, hc, hid⟩ := Option.map_eq_some_iff.mp hkept
  have hres : (resumed CJson.compact ada recallThenText (some c)).isSome = true := by
    have hrelay : ((parseTrigger CJson.compact recallThenText.type recallThenText.data).relay && ada.chat) = true := by
      decide
    unfold resumed
    rw [if_pos hrelay, Option.filter_some, if_pos (by rw [hid]; rfl)]
    rfl
  obtain ⟨last, first, hlast, hfirst, hgrows⟩ :=
    hall.2 c [] recallThenText (by decide) hc hfit (fun V hV => absurd hV (by simp)) hres
  exact ⟨hall.1 rfl, c, last, first, hc, hlast, hfirst, hgrows⟩

end Shclaw.Agent
