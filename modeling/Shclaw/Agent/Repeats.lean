/-
  Shclaw.Agent.Repeats — identical tool calls are stopped (`src/agent.c`:
  `repeated_call`, `run_tool`, `agent_run_session`).

  `sessionLog` lists the calls a session judges, turn by turn: those of an offered tool
  with a JSON object for arguments. A call is refused when the table has counted it
  `limit` times before; the table has room for 64 different calls, and once it is full
  it counts no new one.

  - `not_executed`: a call that is not executed sends nothing, and no tool is asked.
  - `turns_judged`: which calls are refused, for every order of calls, and the session
    failed after the turn of the third refusal.
  - `identical_stopped`: no call is executed over its limit, if and only if this holds
    of the calls that come when the table is full.
-/

import Shclaw.Agent.Session
import Shclaw.JsonText
import Shclaw.Lib.Tally

namespace Shclaw.Agent

open Lib Provider

/-! ## The calls of a session -/

/-- What two identical calls share: the tool and its arguments, printed. -/
structure CallKey where
  name : Str
  args : Str
  deriving DecidableEq

/-- A call that `repeated_call` judges. -/
structure Attempt where
  key : CallKey
  /-- The tool takes the arguments; a plugin is still loaded. -/
  fits : Bool
  refused : Bool
  deriving DecidableEq

def Attempt.executed (a : Attempt) : Bool := a.fits && !a.refused

def keys (log : List Attempt) : List CallKey := log.map Attempt.key

def refusals (log : List Attempt) : Nat := log.countP (·.refused)

def CallKey.hash (k : CallKey) : UInt64 := callHash k.name k.args

/-- How often one call may be made. -/
def limitOf (A : Config) (name : Str) : Nat := if A.isBuilder && toolFind name = some .readFile then 1 else 2

section Log

variable (J : CJson) (A : Config) (W : World) (trig : TriggerInfo) (tools : List Json)

def callFits (ran : Nat) (name : Str) (input : Json) : Bool :=
  match toolFind name with
  | some tid => (toolCheckArgs J tid input).2.isNone
  | none => (W.plugin ran name input).isSome

def attempt (call : ToolCall) (l : Live) : List Attempt :=
  if toolOffered tools call.name then
    match J.parse call.inputJson with
    | some (.obj kvs) =>
      [⟨⟨call.name, J.print (.obj kvs)⟩, callFits J W l.ran call.name (.obj kvs),
        (repeatedCall l.st.calls (callHash call.name (J.print (.obj kvs))) (limitOf A call.name)).2⟩]
    | _ => []
  else []

/-- Along `runCalls`. -/
def attempts : List ToolCall → Live → List Attempt
  | [], _ => []
  | call :: calls, l =>
    let r := runTool J A W trig tools call l
    attempt J A W tools call l ++ attempts calls { r.2 with st := noteCall r.2.st call.name r.1 }

/-- Along `turns`: a list for each turn with a reply. -/
def turnsLog (max : Nat) : Nat → Live → List (List Attempt)
  | 0, _ => []
  | n + 1, l =>
    let turn := max - (n + 1)
    let l := { l with requests := l.requests ++ [l.messages] }
    match llmCall J A.kind (W.rnds turn) (W.http turn) with
    | .error _ => []
    | .ok r =>
      attempts J A W trig tools r.toolCalls (takeReply r l) ::
        match turnStep J A W trig tools r l with
        | (l, .again) => turnsLog max n l
        | _ => []

end Log

def sessionLog (J : CJson) (A : Config) (W : World) (conv : Option Conv) : List (List Attempt) :=
  turnsLog J A W (parseTrigger J W.type W.data) (toolsOf A W) (maxTurnsOf A) (maxTurnsOf A)
    ⟨{}, openingMessages J A W conv, none, 0, [], []⟩

/-! ## What a call does to the table -/

/-- What `repeated_call` and its caller keep. -/
def State.guard (st : State) : List (UInt64 × Nat) × Nat := (st.calls, st.blockedRepeats)

section Steps

variable {J : CJson} {A : Config} {W : World} {trig : TriggerInfo} {tools : List Json}

theorem repeatedCall_eq (calls : List (UInt64 × Nat)) (h : UInt64) (limit : Nat) :
    repeatedCall calls h limit = ((bump 64 calls h).1, (bump 64 calls h).2.any fun n => decide (limit < n)) := by
  unfold repeatedCall bump
  cases calls.find? fun c => decide (c.1 = h) <;> rfl

theorem noteSent_guard (st : State) (s : Sent) : (noteSent st s).guard = st.guard := by
  unfold noteSent
  split <;> rfl

theorem noteCall_guard (st : State) (name result : Str) : (noteCall st name result).guard = st.guard := by
  unfold noteCall
  dsimp only
  repeat' split
  all_goals rfl

theorem afterTextReply_guard (text : Str) (l : Live) : (afterTextReply A W text l).1.st.guard = l.st.guard := by
  unfold afterTextReply builderReply
  dsimp only
  repeat' split
  all_goals rfl

theorem runBuiltin_guard (tid : ToolId) (input : Json) (l : Live) :
    (runBuiltin J A W trig tid input l).2.st.guard = l.st.guard := by
  unfold runBuiltin
  dsimp only
  split
  · rfl
  split
  · exact noteSent_guard _ _
  · rfl

/-- A judged call is counted, and noted when it is refused. -/
theorem runOffered_guard (call : ToolCall) (input : Json) (l : Live) :
    (runOffered J A W trig call input l).2.st.guard =
      ((repeatedCall l.st.calls (callHash call.name (J.print input)) (limitOf A call.name)).1,
        l.st.blockedRepeats +
          (repeatedCall l.st.calls (callHash call.name (J.print input)) (limitOf A call.name)).2.toNat) := by
  unfold runOffered limitOf
  dsimp only
  generalize repeatedCall l.st.calls (callHash call.name (J.print input))
    (if (A.isBuilder && decide (toolFind call.name = some .readFile)) = true then 1 else 2) = r
  obtain ⟨calls, stops⟩ := r
  cases stops with
  | true => rfl
  | false =>
    simp only [Bool.false_eq_true, if_false]
    split
    · exact runBuiltin_guard _ _ _
    · rfl

/-- A call is judged, or leaves the table alone. -/
theorem runTool_guard (call : ToolCall) (l : Live) :
    (attempt J A W tools call l = [] ∧ (runTool J A W trig tools call l).2.st.guard = l.st.guard) ∨
    ∃ a, attempt J A W tools call l = [a] ∧
      a.refused = (repeatedCall l.st.calls a.key.hash (limitOf A a.key.name)).2 ∧
      (runTool J A W trig tools call l).2.st.guard =
        ((repeatedCall l.st.calls a.key.hash (limitOf A a.key.name)).1, l.st.blockedRepeats + a.refused.toNat) := by
  unfold attempt runTool
  by_cases hoff : toolOffered tools call.name = true
  · rw [if_pos hoff, hoff]
    simp only [Bool.not_true, Bool.false_eq_true, if_false]
    cases J.parse call.inputJson with
    | none => exact .inl ⟨rfl, rfl⟩
    | some input =>
      cases input with
      | obj kvs => exact .inr ⟨_, rfl, rfl, runOffered_guard call (.obj kvs) l⟩
      | _ => exact .inl ⟨rfl, rfl⟩
  · rw [if_neg hoff]
    simp only [Bool.not_eq_true] at hoff
    simp only [hoff]
    exact .inl ⟨trivial, rfl⟩

theorem runBuiltin_error {tid : ToolId} {input : Json} {error : Str} (h : (toolCheckArgs J tid input).2 = some error)
    (l : Live) : runBuiltin J A W trig tid input l = (error, l) := by
  unfold runBuiltin
  cases hcheck : toolCheckArgs J tid input with
  | mk input' e =>
    rw [hcheck] at h
    cases h
    rfl

theorem runOffered_idle {call : ToolCall} {input : Json} {l : Live}
    (hno : callFits J W l.ran call.name input = false ∨
      (repeatedCall l.st.calls (callHash call.name (J.print input)) (limitOf A call.name)).2 = true) :
    (runOffered J A W trig call input l).2.talk = l.talk ∧
      ∀ exec, runOffered J A { W with exec := exec } trig call input l = runOffered J A W trig call input l := by
  unfold runOffered
  unfold limitOf at hno
  dsimp only
  generalize repeatedCall l.st.calls (callHash call.name (J.print input))
    (if (A.isBuilder && decide (toolFind call.name = some .readFile)) = true then 1 else 2) = r at hno ⊢
  by_cases hover : r.2 = true
  · rw [if_pos hover]
    refine ⟨rfl, ?_⟩
    intro exec
    rw [if_pos hover]
  · have hfits := hno.resolve_right hover
    unfold callFits at hfits
    rw [if_neg hover]
    cases hfind : toolFind call.name with
    | none =>
      refine ⟨rfl, ?_⟩
      intro exec
      rw [if_neg hover]
    | some tid =>
      simp only [hfind, Option.isNone_eq_false_iff, Option.isSome_iff_exists] at hfits
      obtain ⟨error, hcheck⟩ := hfits
      simp only [runBuiltin_error hcheck]
      refine ⟨rfl, ?_⟩
      intro exec
      rw [if_neg hover]

/-- A call that is not executed sends nothing, and no tool is asked. -/
theorem not_executed {call : ToolCall} {l : Live} {a : Attempt} (ha : a ∈ attempt J A W tools call l)
    (hno : a.executed = false) : (runTool J A W trig tools call l).2.talk = l.talk ∧
      ∀ exec, runTool J A { W with exec := exec } trig tools call l = runTool J A W trig tools call l := by
  unfold attempt at ha
  split at ha
  · rename_i hoff
    split at ha
    · rename_i kvs hparse
      rw [List.mem_singleton.mp ha] at hno
      have hno : callFits J W l.ran call.name (.obj kvs) = false ∨
          (repeatedCall l.st.calls (callHash call.name (J.print (.obj kvs))) (limitOf A call.name)).2 = true := by
        unfold Attempt.executed at hno
        rcases Bool.and_eq_false_iff.mp hno with hfits | hrefused
        · exact .inl hfits
        · exact .inr ((Bool.not_eq_false' _).mp hrefused)
      obtain ⟨htalk, hexec⟩ := @runOffered_idle J A W trig call (.obj kvs) l hno
      unfold runTool
      simp only [hoff, hparse, Bool.not_true, Bool.false_eq_true, if_false]
      refine ⟨htalk, ?_⟩
      intro exec
      rw [hexec exec]
    · cases ha
  · cases ha

end Steps

/-! ## The log and the table -/

/-- A call is refused when the table has it and it was made `limit` times before. -/
def Judged (A : Config) (pre : List Attempt) (a : Attempt) : Prop :=
  a.refused = true ↔ a.key ∈ firsts 64 (keys pre) ∧ limitOf A a.key.name ≤ (keys pre).count a.key

/-- The table after the calls of a log. -/
structure Tallied (A : Config) (S : Set CallKey) (log : List Attempt) (st : State) : Prop where
  counts : Counts 64 CallKey.hash S (keys log) st.calls
  blocked : st.blockedRepeats = refusals log
  judged : Each (Judged A) log

section Runs

variable {J : CJson} {A : Config} {W : World} {trig : TriggerInfo} {tools : List Json} {S : Set CallKey}
  {log : List Attempt}

theorem tallied_nil : Tallied A S [] {} := ⟨counts_nil 64 CallKey.hash S, rfl, each_nil⟩

theorem Tallied.of_guard {st st' : State} (h : Tallied A S log st) (heq : st'.guard = st.guard) : Tallied A S log st' := by
  obtain ⟨hcalls, hblocked⟩ := Prod.mk.inj heq
  exact ⟨hcalls ▸ h.counts, hblocked.trans h.blocked, h.judged⟩

/-- One call judged. -/
theorem Tallied.judge {st st' : State} {a : Attempt} (h : Tallied A S log st) (hinj : Set.InjOn CallKey.hash S)
    (hS : a.key ∈ S) (hrefused : a.refused = (repeatedCall st.calls a.key.hash (limitOf A a.key.name)).2)
    (heq : st'.guard =
      ((repeatedCall st.calls a.key.hash (limitOf A a.key.name)).1, st.blockedRepeats + a.refused.toNat)) :
    Tallied A S (log ++ [a]) st' := by
  obtain ⟨hcalls, hblocked⟩ := Prod.mk.inj heq
  obtain ⟨hcounts, hcount⟩ := h.counts.bump hinj hS
  rw [repeatedCall_eq] at hcalls hrefused
  have hkeys : keys (log ++ [a]) = keys log ++ [a.key] := List.map_append
  refine ⟨?_, ?_, h.judged.concat ?_⟩
  · rw [hkeys, hcalls]
    exact hcounts
  · rw [hblocked, h.blocked]
    unfold refusals
    rw [List.countP_append, List.countP_singleton]
    cases a.refused <;> rfl
  · unfold Judged
    rw [hrefused, hcount]
    by_cases hin : a.key ∈ firsts 64 (keys log)
    · rw [if_pos hin, and_iff_right hin, ← Nat.lt_succ_iff]
      exact decide_eq_true_iff
    · simp [hin]

theorem Tallied.runTool {l : Live} (h : Tallied A S log l.st) (hinj : Set.InjOn CallKey.hash S) (call : ToolCall)
    (hS : ∀ a ∈ attempt J A W tools call l, a.key ∈ S) :
    Tallied A S (log ++ attempt J A W tools call l) (Agent.runTool J A W trig tools call l).2.st := by
  rcases @runTool_guard J A W trig tools call l with ⟨hnone, hguard⟩ | ⟨a, hone, hrefused, hguard⟩
  · rw [hnone, List.append_nil]
    exact h.of_guard hguard
  · rw [hone] at hS ⊢
    exact h.judge hinj (hS a (List.mem_singleton_self a)) hrefused hguard

theorem Tallied.runCalls {l : Live} (h : Tallied A S log l.st) (hinj : Set.InjOn CallKey.hash S) (calls : List ToolCall)
    (hS : ∀ a ∈ attempts J A W trig tools calls l, a.key ∈ S) :
    Tallied A S (log ++ attempts J A W trig tools calls l) (Agent.runCalls J A W trig tools calls l).2.st := by
  induction calls generalizing l log with
  | nil =>
    unfold attempts
    rw [List.append_nil]
    exact h
  | cons call calls ih =>
    unfold attempts at hS ⊢
    unfold Agent.runCalls
    rw [← List.append_assoc]
    apply ih
    · refine Tallied.of_guard (h.runTool hinj call ?_) (noteCall_guard _ _ _)
      intro a ha
      exact hS a (List.mem_append_left _ ha)
    · intro a ha
      exact hS a (List.mem_append_right _ ha)

/-- A turn that does not end the session as failed leaves fewer than three refusals. -/
theorem Tallied.turnStep {l : Live} (h : Tallied A S log l.st) (hinj : Set.InjOn CallKey.hash S) (r : Response)
    (hS : ∀ a ∈ attempts J A W trig tools r.toolCalls (takeReply r l), a.key ∈ S) (hroom : refusals log < 3) :
    Tallied A S (log ++ attempts J A W trig tools r.toolCalls (takeReply r l))
        (Agent.turnStep J A W trig tools r l).1.st ∧
      ((Agent.turnStep J A W trig tools r l).2 ≠ .failed →
        refusals (log ++ attempts J A W trig tools r.toolCalls (takeReply r l)) < 3) := by
  have hcalls := Tallied.runCalls (l := takeReply r l) h hinj r.toolCalls hS
  unfold Agent.turnStep
  dsimp only
  by_cases hnone : r.toolCalls = []
  · have hempty : attempts J A W trig tools r.toolCalls (takeReply r l) = [] := by
      rw [hnone]
      rfl
    rw [hempty, List.append_nil, if_neg (not_not.mpr hnone)]
    refine ⟨?_, fun _ => hroom⟩
    split
    · exact h.of_guard rfl
    · exact h.of_guard (afterTextReply_guard _ _)
  · rw [if_pos hnone]
    unfold toolTurn
    dsimp only
    split
    · exact ⟨hcalls.of_guard rfl, fun hf => absurd rfl hf⟩
    · rename_i hfew
      rw [hcalls.blocked] at hfew
      exact ⟨hcalls.of_guard rfl, fun _ => by omega⟩

/-- With `log` made before, the turn of `rest` that reaches three refusals is the last, and
    the session failed. -/
def EndsAt (log : List Attempt) (rest : List (List Attempt)) (completed : Bool) : Prop :=
  ∀ pre turn post, rest = pre ++ turn :: post → 3 ≤ refusals (log ++ (pre.flatten ++ turn)) →
    post = [] ∧ completed = false

theorem endsAt_nil (completed : Bool) : EndsAt log [] completed := by
  intro pre turn post hsplit
  cases pre <;> cases hsplit

theorem endsAt_last {first : List Attempt} {completed : Bool} (h : 3 ≤ refusals (log ++ first) → completed = false) :
    EndsAt log [first] completed := by
  intro pre turn post hsplit hthree
  cases pre with
  | nil =>
    cases hsplit
    exact ⟨rfl, h hthree⟩
  | cons x pre => simp at hsplit

theorem EndsAt.cons {first : List Attempt} {rest : List (List Attempt)} {completed : Bool}
    (h : EndsAt (log ++ first) rest completed) (hfew : refusals (log ++ first) < 3) :
    EndsAt log (first :: rest) completed := by
  intro pre turn post hsplit hthree
  cases pre with
  | nil =>
    cases hsplit
    rw [List.flatten_nil, List.nil_append] at hthree
    omega
  | cons x pre =>
    rw [List.cons_append] at hsplit
    obtain ⟨rfl, htail⟩ := List.cons.inj hsplit
    rw [List.flatten_cons, List.append_assoc, ← List.append_assoc] at hthree
    exact h pre turn post htail hthree

/-- The turns of a session: every call judged, and nothing after the third refusal. -/
theorem turns_judged {l : Live} (max n : Nat) (h : Tallied A S log l.st) (hinj : Set.InjOn CallKey.hash S)
    (hS : ∀ a ∈ (turnsLog J A W trig tools max n l).flatten, a.key ∈ S) (hroom : refusals log < 3) :
    Each (Judged A) (log ++ (turnsLog J A W trig tools max n l).flatten) ∧
      EndsAt log (turnsLog J A W trig tools max n l) (turns J A W trig tools max n l).2 := by
  induction n generalizing l log with
  | zero => exact ⟨by simpa [turnsLog] using h.judged, endsAt_nil _⟩
  | succ n ih =>
    unfold turnsLog at hS ⊢
    unfold turns
    dsimp only at hS ⊢
    cases hllm : llmCall J A.kind (W.rnds (max - (n + 1))) (W.http (max - (n + 1))) with
    | error e => exact ⟨by simpa using h.judged, endsAt_nil _⟩
    | ok r =>
      simp only [hllm] at hS ⊢
      obtain ⟨hturn, hfew⟩ := Tallied.turnStep (l := { l with requests := l.requests ++ [l.messages] }) h hinj r
        (fun a ha => hS a (List.mem_append_left _ ha)) hroom
      generalize attempts J A W trig tools r.toolCalls (takeReply r { l with requests := l.requests ++ [l.messages] }) = first
        at hS hturn hfew ⊢
      cases hstep : turnStep J A W trig tools r { l with requests := l.requests ++ [l.messages] } with
      | mk l' next =>
        simp only [hstep] at hS hturn hfew ⊢
        cases next with
        | again =>
          dsimp only at hS ⊢
          obtain ⟨heach, hrest⟩ := ih hturn (fun a ha => hS a (List.mem_append_right _ ha)) (hfew (by decide))
          refine ⟨?_, hrest.cons (hfew (by decide))⟩
          rw [List.flatten_cons, ← List.append_assoc]
          exact heach
        | done =>
          refine ⟨by simpa using hturn.judged, endsAt_last ?_⟩
          intro hthree
          exact absurd (hfew (by decide)) (by omega)
        | failed => exact ⟨by simpa using hturn.judged, endsAt_last fun _ => rfl⟩

end Runs

/-! ## Identical calls are stopped -/

/-- No call is executed over its limit, and the session failed after the turn of the
    third refusal. -/
structure Stopped (A : Config) (log : List (List Attempt)) (completed : Bool) : Prop where
  limited : Each (fun pre a => a.executed = true → (keys pre).count a.key < limitOf A a.key.name) log.flatten
  ended : ∀ pre turn post, log = pre ++ turn :: post → 3 ≤ refusals (pre.flatten ++ turn) → post = [] ∧ completed = false

/-- Past the first 64 different calls, no call that its tool takes comes after `limit` calls
    identical to it. -/
def FewPastTable (A : Config) (log : List Attempt) : Prop :=
  Each (fun pre a => a.fits = true → a.key ∉ firsts 64 (keys log) → (keys pre).count a.key < limitOf A a.key.name) log

/-- No two different calls of a log have one hash. -/
def CollisionFree (log : List Attempt) : Prop := ∀ a ∈ log, ∀ b ∈ log, a.key.hash = b.key.hash → a.key = b.key

/-- The table holds a session of fewer than 64 different calls. -/
theorem few_of_room {A : Config} {log : List Attempt} (h : (firsts 64 (keys log)).length < 64) : FewPastTable A log := by
  intro pre a post hsplit _ hout
  have hmem : a.key ∈ keys log := by
    apply List.mem_map_of_mem
    rw [hsplit]
    exact List.mem_append_right _ List.mem_cons_self
  exact absurd (firsts_of_room h a.key hmem) hout

theorem limitOf_pos (A : Config) (name : Str) : 0 < limitOf A name := by
  unfold limitOf
  split <;> decide

/-- What is refused, and what that leaves. -/
theorem limited_iff {A : Config} {log : List Attempt} (h : Each (Judged A) log) :
    Each (fun pre a => a.executed = true → (keys pre).count a.key < limitOf A a.key.name) log ↔ FewPastTable A log := by
  unfold FewPastTable
  apply Each.congr
  intro pre a post hsplit
  have hjudged := h pre a post hsplit
  unfold Judged at hjudged
  have hkeys : keys log = keys pre ++ a.key :: keys post := by
    rw [hsplit]
    exact List.map_append
  unfold Attempt.executed
  rw [Bool.and_eq_true, Bool.not_eq_true', and_imp]
  by_cases hin : a.key ∈ firsts 64 (keys log)
  · refine iff_of_true (fun _ hnot => ?_) (fun _ hout => absurd hin hout)
    -- a call in the table that is over its limit would be refused
    by_contra hover
    have hover : limitOf A a.key.name ≤ (keys pre).count a.key := by omega
    have hmem : a.key ∈ keys pre := List.count_pos_iff.mp (Nat.lt_of_lt_of_le (limitOf_pos A _) hover)
    rw [hkeys, mem_firsts_append hmem] at hin
    rw [hjudged.mpr ⟨hin, hover⟩] at hnot
    cases hnot
  · have hnot : a.refused = false := by
      rw [← Bool.not_eq_true, hjudged]
      intro hbad
      exact hin (by rw [hkeys, mem_firsts_append (mem_of_firsts hbad.1)]; exact hbad.1)
    simp [hnot, hin]

/-- For every session: identical calls are stopped, if and only if the calls past the
    table's 64 are few. -/
theorem identical_stopped (J : CJson) (A : Config) (W : World) (conv : Option Conv)
    (hfree : CollisionFree (sessionLog J A W conv).flatten) :
    Stopped A (sessionLog J A W conv) (runSession J A W conv).2.1 ↔ FewPastTable A (sessionLog J A W conv).flatten := by
  have hinj : Set.InjOn CallKey.hash {k | k ∈ keys (sessionLog J A W conv).flatten} := by
    intro k hk k' hk' heq
    obtain ⟨a, ha, rfl⟩ := List.mem_map.mp hk
    obtain ⟨b, hb, rfl⟩ := List.mem_map.mp hk'
    exact hfree a ha b hb heq
  obtain ⟨hjudged, hended⟩ := turns_judged (J := J) (A := A) (W := W) (maxTurnsOf A) (maxTurnsOf A) tallied_nil hinj
    (fun a ha => List.mem_map_of_mem ha) (by decide)
  have heach : Each (Judged A) (sessionLog J A W conv).flatten := hjudged
  rw [← limited_iff heach]
  constructor
  · intro hstopped
    exact hstopped.limited
  · intro hlimited
    exact ⟨hlimited, hended⟩

/-- An agent alone. -/
def solo : Config where
  name := lit "ivy"
  isBuilder := false
  isHub := false
  maxTurns := 0
  historyBudget := 0
  kind := .anthropic
  chat := false
  registry := ⟨[lit "ivy"], by decide, by decide, by decide⟩
  known := by decide

def echoArgs (n : Nat) : Json := .obj [(lit "command", .str (lit "echo " ++ decimal n))]

def echoBlock (n : Nat) : Json :=
  .obj [(lit "type", .str (lit "tool_use")), (lit "id", .str (decimal n)), (lit "name", .str (lit "exec")),
    (lit "input", echoArgs n)]

/-- A scheduled session: the model echoes these numbers, one call each, and is gone. -/
def echoing (ns : List Nat) : World where
  type := .schedule
  data := []
  thread := lit "th"
  chatId := 0
  seq := 0
  opening := lit "go on"
  schemas := []
  http turn := if turn = 0 then .ok (CJson.compact.print (.obj [(lit "content", .arr (ns.map echoBlock))]))
    else .error (lit "gone")
  rnds _ _ := []
  exec _ _ _ := []
  plugin _ _ _ := none
  draws _ _ := ⟨[], [], true⟩

def echoed (n : Nat) (refused : Bool) : Attempt := ⟨⟨lit "exec", CJson.compact.print (echoArgs n)⟩, true, refused⟩

/-- The same call five times: three refusals, and the session failed. -/
theorem identical_stopped_five : Stopped solo [[echoed 7 false, echoed 7 false, echoed 7 true, echoed 7 true, echoed 7 true]]
    (runSession CJson.compact solo (echoing [7, 7, 7, 7, 7]) none).2.1 := by
  have hlog : sessionLog CJson.compact solo (echoing [7, 7, 7, 7, 7]) none =
      [[echoed 7 false, echoed 7 false, echoed 7 true, echoed 7 true, echoed 7 true]] := by decide +kernel
  have h := identical_stopped CJson.compact solo (echoing [7, 7, 7, 7, 7]) none
  rw [hlog] at h
  apply (h _).mpr
  · exact few_of_room (by decide)
  · intro a ha b hb _
    have hkey : ∀ c ∈ [echoed 7 false, echoed 7 false, echoed 7 true, echoed 7 true, echoed 7 true],
        c.key = (echoed 7 false).key := by decide
    rw [hkey a ha, hkey b hb]

/-- With 64 other calls in the table, a call is executed a third time. -/
theorem third_echo_executed : ¬ ∀ (A : Config) (W : World) (conv : Option Conv),
    CollisionFree (sessionLog CJson.compact A W conv).flatten →
      Stopped A (sessionLog CJson.compact A W conv) (runSession CJson.compact A W conv).2.1 := by
  intro hall
  have hlog : (sessionLog CJson.compact solo (echoing (List.range 64 ++ [64, 64, 64])) none).flatten =
      (List.range 64 ++ [64, 64, 64]).map (echoed · false) := by decide +kernel
  have hhashes : (((List.range 65).map (echoed · false)).map (·.key.hash)).Nodup := by decide +kernel
  have hstopped := (hall solo (echoing (List.range 64 ++ [64, 64, 64])) none ?_).limited
  · rw [hlog] at hstopped
    have := hstopped ((List.range 64 ++ [64, 64]).map (echoed · false)) (echoed 64 false) [] (by simp) (by decide)
    exact absurd this (by decide +kernel)
  · rw [hlog]
    have hmem : ∀ n ∈ List.range 64 ++ [64, 64, 64], echoed n false ∈ (List.range 65).map (echoed · false) := by
      intro n hn
      apply List.mem_map_of_mem
      simp only [List.mem_append, List.mem_range, List.mem_cons, List.not_mem_nil, or_false, or_self] at hn ⊢
      omega
    intro a ha b hb heq
    obtain ⟨n, hn, rfl⟩ := List.mem_map.mp ha
    obtain ⟨m, hm, rfl⟩ := List.mem_map.mp hb
    exact congrArg Attempt.key (List.inj_on_of_nodup_map hhashes (hmem n hn) (hmem m hm) heq)

end Shclaw.Agent
