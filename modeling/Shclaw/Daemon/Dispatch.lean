/-
  Shclaw.Daemon.Dispatch — the dispatcher and the session threads (`src/daemon.c`:
  `dispatch`, `agent_idle`, `start_session`, `session_worker`, `enqueue_trigger`).

  Actors. The main thread takes messages into its queue and, each tick, makes a pass: it
  reads the clock once, walks the queue and then the agents. Each session has a thread of
  its own. They share `busy` and `last_session_time`, which both sides load and store
  atomically; a step of the system is one such access, with what its thread does alone up
  to the next. So a session can end at any point of a pass, between the two loads of
  `agent_idle` too, and a thread can be held up between reading the clock and storing
  what it read. The queue is the main thread's own. Allocations and thread creation
  succeed. `log` is what happened, oldest first.

  Proved:
  - `dispatcher_inv`: in every run, an agent has one session at most; a session starts
    `TC_SESSION_GAP` seconds or more after each end recorded before; no mail or schedule
    session starts for an agent with a message in the queue.
  - `dispatcher_safe`: so long as no pass begins `TC_SESSION_GAP` seconds after a thread
    read its clock and before it clears `busy` (`Prompt`), an agent's messages also start
    in the order accepted. A message passed over in a pass stays blocked until its end:
    the agent is busy, or what its thread records is too late for this pass.
  - `held_up_thread`: without it a later message can overtake.
-/

import Mathlib.Logic.Function.Basic
import Shclaw.Agent.Trigger
import Shclaw.Lib.Runs

namespace Shclaw.Daemon

open Lib

/-- `TC_SESSION_GAP`. -/
def sessionGap : Int := 5

def queueMax : Nat := 64

/-! ## The system -/

/-- Where a session's thread stands: in `agent_run_session`, with the second it read, with
    that second stored. -/
inductive Stage where
  | running
  | clocked (t : Int)
  | recorded (t : Int)
  deriving DecidableEq

structure Worker (α : Type) where
  agent : α
  stage : Stage

inductive Trigger where
  | owner (text : Str)
  | mail
  | schedule
  deriving DecidableEq

/-- What a pass looks at: the queue from an index on, or the agents left. -/
inductive Site (α : Type) where
  | queued (i : Nat)
  | polled (rest : List α)

/-- The main thread's next access. -/
inductive Pc (α : Type) where
  | idle
  | loadBusy (site : Site α)
  | loadLast (site : Site α) (a : α)
  | storeBusy (site : Site α) (a : α) (trig : Trigger)
  | create (site : Site α) (a : α) (trig : Trigger)

/-- What happened. A start notes the pass's clock and the agent's messages in the queue. -/
inductive Mark (α : Type) where
  | accepted (a : α) (text : Str)
  | started (a : α) (trig : Trigger) (nowS : Int) (waiting : List Str)
  | ended (a : α) (t : Int)

structure St (α : Type) where
  clock : Nat
  nowS : Int
  checkSchedule : Bool
  pc : Pc α
  queue : List (α × Str)
  busy : α → Bool
  last : α → Int
  workers : List (Worker α)
  log : List (Mark α)

inductive Ev (α : Type) where
  | tick (ms : Nat)
  | enqueue (a : α) (text : Str)
  | begin (checkSchedule : Bool)
  /-- The main thread's next access; whether mail and due tasks are found there. -/
  | main (mail due : Bool)
  /-- The next access of a session's thread. -/
  | worker (k : Nat)

def seconds (ms : Nat) : Int := ((ms / 1000 : Nat) : Int)

section Steps

variable {α : Type} [DecidableEq α]

def Site.agent (queue : List (α × Str)) : Site α → Option α
  | .queued i => queue[i]?.map (·.1)
  | .polled rest => rest.head?

def Site.next : Site α → Site α
  | .queued i => .queued (i + 1)
  | .polled rest => .polled rest.tail

/-- After the queue the agents, after the agents nothing. -/
def Site.past (agents : List α) : Site α → Pc α
  | .queued _ => .loadBusy (.polled agents)
  | .polled _ => .idle

/-- The agent's messages in the queue. -/
def waiting (queue : List (α × Str)) (a : α) : List Str := (queue.filter (·.1 = a)).map (·.2)

/-- What an idle agent is to be started for. -/
def wanted (s : St α) (a : α) (mail due : Bool) : Site α → Option Trigger
  | .queued i => s.queue[i]?.map fun q => .owner q.2
  | .polled _ =>
    if waiting s.queue a ≠ [] then none
    else if mail then some .mail
    else if s.checkSchedule && due then some .schedule
    else none

/-- The walk goes on behind a start: in the queue the next message has moved up. -/
def Site.started (queue : List (α × Str)) : Site α → List (α × Str) × Site α
  | .queued i => (queue.eraseIdx i, .queued i)
  | .polled rest => (queue, .polled rest.tail)

/-- An access of the main thread in a pass. -/
def mainStep (agents : List α) (s : St α) (mail due : Bool) : Option (St α) :=
  match s.pc with
  | .idle => none
  | .loadBusy site =>
    match site.agent s.queue with
    | none => some { s with pc := site.past agents }
    | some a => some { s with pc := if s.busy a then .loadBusy site.next else .loadLast site a }
  | .loadLast site a =>
    if sessionGap ≤ s.nowS - s.last a then
      match wanted s a mail due site with
      | some trig => some { s with pc := .storeBusy site a trig }
      | none => some { s with pc := .loadBusy site.next }
    else some { s with pc := .loadBusy site.next }
  | .storeBusy site a trig => some { s with busy := Function.update s.busy a true, pc := .create site a trig }
  | .create site a trig =>
    some { s with
      workers := s.workers ++ [⟨a, .running⟩]
      log := s.log ++ [.started a trig s.nowS (waiting s.queue a)]
      queue := (site.started s.queue).1
      pc := .loadBusy (site.started s.queue).2 }

/-- An access of `session_worker`. -/
def workerStep (s : St α) (k : Nat) : Option (St α) :=
  match s.workers[k]? with
  | none => none
  | some w =>
    match w.stage with
    | .running => some { s with workers := s.workers.set k { w with stage := .clocked (seconds s.clock) } }
    | .clocked t =>
      some { s with
        last := Function.update s.last w.agent t
        workers := s.workers.set k { w with stage := .recorded t }
        log := s.log ++ [.ended w.agent t] }
    | .recorded _ =>
      some { s with busy := Function.update s.busy w.agent false, workers := s.workers.eraseIdx k }

def step (agents : List α) (s : St α) : Ev α → Option (St α)
  | .tick ms => some { s with clock := s.clock + ms }
  | .enqueue a text =>
    match s.pc with
    | .idle =>
      if s.queue.length < queueMax then
        some { s with queue := s.queue ++ [(a, text)], log := s.log ++ [.accepted a text] }
      else some s
    | _ => none
  | .begin checkSchedule =>
    match s.pc with
    | .idle =>
      some { s with nowS := seconds s.clock, checkSchedule := checkSchedule, pc := .loadBusy (.queued 0) }
    | _ => none
  | .main mail due => mainStep agents s mail due
  | .worker k => workerStep s k

/-- The daemon after `load_agent`: every agent is idle right away. -/
def dispatcher (agents : List α) : System (St α) (Ev α) where
  init := ⟨0, 0, false, .idle, [], fun _ => false, fun _ => -sessionGap, [], []⟩
  step := step agents

/-! ## What one access can do -/

/-- The accesses of the main thread in a pass. -/
inductive Main (agents : List α) (s : St α) : St α → Prop
  | past (site : Site α) : s.pc = .loadBusy site → site.agent s.queue = none →
      Main agents s { s with pc := site.past agents }
  | busy (site : Site α) (a : α) : s.pc = .loadBusy site → site.agent s.queue = some a → s.busy a = true →
      Main agents s { s with pc := .loadBusy site.next }
  | free (site : Site α) (a : α) : s.pc = .loadBusy site → site.agent s.queue = some a → s.busy a = false →
      Main agents s { s with pc := .loadLast site a }
  | soon (site : Site α) (a : α) : s.pc = .loadLast site a → s.nowS - s.last a < sessionGap →
      Main agents s { s with pc := .loadBusy site.next }
  | none (site : Site α) (a : α) (mail due : Bool) : s.pc = .loadLast site a → wanted s a mail due site = none →
      Main agents s { s with pc := .loadBusy site.next }
  | pick (site : Site α) (a : α) (trig : Trigger) (mail due : Bool) : s.pc = .loadLast site a →
      sessionGap ≤ s.nowS - s.last a → wanted s a mail due site = some trig →
      Main agents s { s with pc := .storeBusy site a trig }
  | take (site : Site α) (a : α) (trig : Trigger) : s.pc = .storeBusy site a trig →
      Main agents s { s with busy := Function.update s.busy a true, pc := .create site a trig }
  | start (site : Site α) (a : α) (trig : Trigger) : s.pc = .create site a trig →
      Main agents s { s with
        workers := s.workers ++ [⟨a, .running⟩]
        log := s.log ++ [.started a trig s.nowS (waiting s.queue a)]
        queue := (site.started s.queue).1
        pc := .loadBusy (site.started s.queue).2 }

theorem mainStep_cases {agents : List α} {s s' : St α} {mail due : Bool} (h : mainStep agents s mail due = some s') :
    Main agents s s' := by
  unfold mainStep at h
  split at h
  · cases h
  · rename_i site hpc
    split at h
    · cases h
      exact .past site hpc ‹_›
    · rename_i a ha
      cases h
      cases hb : s.busy a with
      | true => exact .busy site a hpc ha hb
      | false => exact .free site a hpc ha hb
  · rename_i site a hpc
    split at h
    · split at h
      · cases h
        exact .pick site a _ mail due hpc ‹_› ‹_›
      · cases h
        exact .none site a mail due hpc ‹_›
    · cases h
      exact .soon site a hpc (by omega)
  · rename_i site a trig hpc
    cases h
    exact .take site a trig hpc
  · rename_i site a trig hpc
    cases h
    exact .start site a trig hpc

/-- The accesses of a session's thread, with the threads before and after it in the list. -/
inductive Work (s : St α) : St α → Prop
  | clock (l r : List (Worker α)) (a : α) : s.workers = l ++ ⟨a, .running⟩ :: r →
      Work s { s with workers := l ++ ⟨a, .clocked (seconds s.clock)⟩ :: r }
  | record (l r : List (Worker α)) (a : α) (t : Int) : s.workers = l ++ ⟨a, .clocked t⟩ :: r →
      Work s { s with
        last := Function.update s.last a t
        workers := l ++ ⟨a, .recorded t⟩ :: r
        log := s.log ++ [.ended a t] }
  | clear (l r : List (Worker α)) (a : α) (t : Int) : s.workers = l ++ ⟨a, .recorded t⟩ :: r →
      Work s { s with busy := Function.update s.busy a false, workers := l ++ r }

theorem workerStep_cases {s s' : St α} {k : Nat} (h : workerStep s k = some s') : Work s s' := by
  unfold workerStep at h
  split at h
  · cases h
  rename_i w hw
  obtain ⟨hk, rfl⟩ := List.getElem?_eq_some_iff.mp hw
  have hsplit : s.workers = s.workers.take k ++ s.workers[k] :: s.workers.drop (k + 1) := by
    rw [List.getElem_cons_drop, List.take_append_drop]
  split at h
  all_goals rename_i hstage; cases h
  · rw [List.set_eq_take_append_cons_drop, if_pos hk]
    exact .clock _ _ _ (by rw [← hstage]; exact hsplit)
  · rw [List.set_eq_take_append_cons_drop, if_pos hk]
    exact .record _ _ _ _ (by rw [← hstage]; exact hsplit)
  · rw [List.eraseIdx_eq_take_drop_succ]
    exact .clear _ _ _ _ (by rw [← hstage]; exact hsplit)

/-! ## In every run -/

/-- An end recorded before a start is `TC_SESSION_GAP` seconds before the start's pass. -/
def Spaced : Mark α → Mark α → Prop
  | .ended a t, .started b _ nowS _ => a = b → t + sessionGap ≤ nowS
  | _, _ => True

/-- A mail or schedule session finds none of the agent's messages in the queue. -/
def OwnerFirst : Mark α → Prop
  | .started _ trig _ ws => (∃ text, trig = .owner text) ∨ ws = []
  | _ => True

def ReadOk (last now : Int) : Stage → Prop
  | .running => True
  | .clocked t => last ≤ t ∧ t ≤ now
  | .recorded t => last = t

/-- A start is in order: enough after the last end, and no message of the agent comes first. -/
def Due (s : St α) (a : α) (trig : Trigger) : Prop :=
  sessionGap ≤ s.nowS - s.last a ∧ ((∃ text, trig = .owner text) ∨ waiting s.queue a = [])

/-- What the main thread has learnt of the agent it looks at. -/
structure PcOk (s : St α) : Prop where
  loadLast : ∀ site a, s.pc = .loadLast site a → s.busy a = false
  storeBusy : ∀ site a trig, s.pc = .storeBusy site a trig → s.busy a = false ∧ Due s a trig
  create : ∀ site a trig, s.pc = .create site a trig →
    s.busy a = true ∧ (∀ w ∈ s.workers, w.agent ≠ a) ∧ Due s a trig

structure Inv (s : St α) : Prop where
  alone : (s.workers.map (·.agent)).Nodup
  working : ∀ w ∈ s.workers, s.busy w.agent = true
  lastLe : ∀ a, s.last a ≤ seconds s.clock
  read : ∀ w ∈ s.workers, ReadOk (s.last w.agent) (seconds s.clock) w.stage
  ended : ∀ a t, Mark.ended a t ∈ s.log → t ≤ s.last a
  spaced : s.log.Pairwise Spaced
  ownerFirst : ∀ m ∈ s.log, OwnerFirst m
  pc : PcOk s

theorem seconds_mono {a b : Nat} (h : a ≤ b) : seconds a ≤ seconds b := by
  unfold seconds
  have := Nat.div_le_div_right (c := 1000) h
  omega

section Lists

variable {β : Type} {P : β → Prop} {R : β → β → Prop}

theorem pairwise_concat {l : List β} (h : l.Pairwise R) {m : β} (hm : ∀ x ∈ l, R x m) : (l ++ [m]).Pairwise R := by
  rw [List.pairwise_append]
  refine ⟨h, List.pairwise_singleton _ _, fun x hx y hy => ?_⟩
  rw [List.mem_singleton.mp hy]
  exact hm x hx

theorem forall_mem_concat {l : List β} (h : ∀ x ∈ l, P x) {m : β} (hm : P m) : ∀ x ∈ l ++ [m], P x := by
  intro x hx
  rcases List.mem_append.mp hx with hx | hx
  · exact h x hx
  · exact List.mem_singleton.mp hx ▸ hm

theorem forall_mem_replace {l r : List β} {x y : β} (h : ∀ w ∈ l ++ x :: r, P w) (hy : P y) : ∀ w ∈ l ++ y :: r, P w := by
  simp only [List.forall_mem_append, List.forall_mem_cons] at h ⊢
  exact ⟨h.1, hy, h.2.2⟩

theorem forall_mem_remove {l r : List β} {x : β} (h : ∀ w ∈ l ++ x :: r, P w) : ∀ w ∈ l ++ r, P w := by
  simp only [List.forall_mem_append, List.forall_mem_cons] at h ⊢
  exact ⟨h.1, h.2.2⟩

theorem ne_of_nodup_map {γ : Type} {f : β → γ} {l r : List β} {x : β} (h : ((l ++ x :: r).map f).Nodup) :
    ∀ y ∈ l ++ r, f y ≠ f x := by
  rw [List.map_append, List.map_cons, List.nodup_middle, List.nodup_cons] at h
  intro y hy he
  exact h.1 (he ▸ List.map_append ▸ List.mem_map_of_mem hy)

end Lists

theorem main_inv {agents : List α} {s s' : St α} (hi : Inv s) (h : Main agents s s') : Inv s' := by
  cases h with
  | past site h =>
    refine ⟨hi.alone, hi.working, hi.lastLe, hi.read, hi.ended, hi.spaced, hi.ownerFirst, ?_⟩
    cases site <;> exact ⟨nofun, nofun, nofun⟩
  | busy | soon | none =>
    exact ⟨hi.alone, hi.working, hi.lastLe, hi.read, hi.ended, hi.spaced, hi.ownerFirst, nofun, nofun, nofun⟩
  | free site a h ha hb =>
    refine ⟨hi.alone, hi.working, hi.lastLe, hi.read, hi.ended, hi.spaced, hi.ownerFirst, ?_, nofun, nofun⟩
    rintro _ _ ⟨⟩
    exact hb
  | pick site a trig mail due h hgap hw =>
    refine ⟨hi.alone, hi.working, hi.lastLe, hi.read, hi.ended, hi.spaced, hi.ownerFirst, nofun, ?_, nofun⟩
    rintro _ _ _ ⟨⟩
    refine ⟨hi.pc.loadLast site a h, hgap, ?_⟩
    unfold wanted at hw
    split at hw
    · obtain ⟨q, -, rfl⟩ := Option.map_eq_some_iff.mp hw
      exact .inl ⟨_, rfl⟩
    · split at hw
      · cases hw
      · exact .inr (not_not.mp ‹_›)
  | take site a trig h =>
    obtain ⟨hidle, hdue⟩ := hi.pc.storeBusy site a trig h
    have hfree : ∀ w ∈ s.workers, w.agent ≠ a := by
      rintro w hw rfl
      rw [hi.working w hw] at hidle
      cases hidle
    refine ⟨hi.alone, ?_, hi.lastLe, hi.read, hi.ended, hi.spaced, hi.ownerFirst, nofun, nofun, ?_⟩
    · intro w hw
      dsimp only
      rw [Function.update_of_ne (hfree w hw)]
      exact hi.working w hw
    · rintro _ _ _ ⟨⟩
      exact ⟨Function.update_self .., hfree, hdue⟩
  | start site a trig h =>
    obtain ⟨hbusy, hfree, hgap, howner⟩ := hi.pc.create site a trig h
    refine ⟨?_, forall_mem_concat hi.working hbusy, hi.lastLe, forall_mem_concat hi.read trivial, ?_, ?_,
      forall_mem_concat hi.ownerFirst howner, nofun, nofun, nofun⟩
    · rw [List.map_append, List.nodup_append]
      refine ⟨hi.alone, List.nodup_singleton _, fun b hb c hc => ?_⟩
      obtain ⟨w, hw, rfl⟩ := List.mem_map.mp hb
      rw [List.mem_singleton.mp hc]
      exact hfree w hw
    · intro b t hm
      rcases List.mem_append.mp hm with hm | hm
      · exact hi.ended b t hm
      · cases List.mem_singleton.mp hm
    · refine pairwise_concat hi.spaced fun x hx => ?_
      cases x with
      | ended b t =>
        rintro rfl
        have := hi.ended b t hx
        omega
      | _ => trivial

/-- A thread's accesses leave alone what the main thread has learnt of an idle agent. -/
theorem PcOk.of_other {s s' : St α} (hi : Inv s) {w : Worker α} (hw : w ∈ s.workers)
    (hpc : s'.pc = s.pc) (hqueue : s'.queue = s.queue) (hnow : s'.nowS = s.nowS)
    (hbusy : ∀ b, b ≠ w.agent → s'.busy b = s.busy b) (hlast : ∀ b, b ≠ w.agent → s'.last b = s.last b)
    (hworkers : ∀ w' ∈ s'.workers, ∃ w ∈ s.workers, w.agent = w'.agent) : PcOk s' := by
  have hdue : ∀ {b : α} {trig : Trigger}, b ≠ w.agent → Due s b trig → Due s' b trig := by
    intro b trig hne hd
    unfold Due
    rw [hnow, hlast b hne, hqueue]
    exact hd
  have hidle : ∀ {b : α}, s.busy b = false → b ≠ w.agent := by
    rintro b hb rfl
    rw [hi.working w hw] at hb
    cases hb
  refine ⟨?_, ?_, ?_⟩
  · intro site b h
    have hb := hi.pc.loadLast site b (hpc ▸ h)
    rw [hbusy b (hidle hb)]
    exact hb
  · intro site b trig h
    obtain ⟨hb, hd⟩ := hi.pc.storeBusy site b trig (hpc ▸ h)
    rw [hbusy b (hidle hb)]
    exact ⟨hb, hdue (hidle hb) hd⟩
  · intro site b trig h
    obtain ⟨hb, hfree, hd⟩ := hi.pc.create site b trig (hpc ▸ h)
    have hne : b ≠ w.agent := (hfree w hw).symm
    rw [hbusy b hne]
    refine ⟨hb, fun w' hw' => ?_, hdue hne hd⟩
    obtain ⟨v, hv, hva⟩ := hworkers w' hw'
    rw [← hva]
    exact hfree v hv

theorem work_inv {s s' : St α} (hi : Inv s) (h : Work s s') : Inv s' := by
  have hsame : ∀ w' ∈ s.workers, ∃ w ∈ s.workers, w.agent = w'.agent := fun w hw => ⟨w, hw, rfl⟩
  have halone := hi.alone
  have hworking := hi.working
  have hread := hi.read
  cases h with
  | clock l r a h =>
    have hmem : (⟨a, .running⟩ : Worker α) ∈ s.workers := by rw [h]; simp
    have hbusy : s.busy a = true := hi.working _ hmem
    refine ⟨?_, ?_, hi.lastLe, ?_, hi.ended, hi.spaced, hi.ownerFirst, ?_⟩
    · rw [h] at halone
      simpa using halone
    · rw [h] at hworking
      exact forall_mem_replace hworking hbusy
    · rw [h] at hread
      exact forall_mem_replace hread ⟨hi.lastLe a, le_refl _⟩
    · rw [h] at hsame
      refine .of_other hi hmem rfl rfl rfl (fun _ _ => rfl) (fun _ _ => rfl) ?_
      rw [h]
      exact forall_mem_replace hsame ⟨⟨a, .running⟩, by simp, rfl⟩
  | record l r a t h =>
    have hmem : (⟨a, .clocked t⟩ : Worker α) ∈ s.workers := by rw [h]; simp
    have hbusy : s.busy a = true := hi.working _ hmem
    obtain ⟨hlow, hhigh⟩ : s.last a ≤ t ∧ t ≤ seconds s.clock := hi.read _ hmem
    rw [h] at halone
    have hothers : ∀ v ∈ l ++ r, v.agent ≠ a := ne_of_nodup_map halone
    have hmono : ∀ b, s.last b ≤ Function.update s.last a t b := by
      intro b
      by_cases hb : b = a
      · subst hb
        rw [Function.update_self]
        exact hlow
      · rw [Function.update_of_ne hb]
    refine ⟨?_, ?_, ?_, ?_, ?_, ?_, forall_mem_concat hi.ownerFirst trivial, ?_⟩
    · simpa using halone
    · rw [h] at hworking
      exact forall_mem_replace hworking hbusy
    · intro b
      by_cases hb : b = a
      · subst hb
        dsimp only
        rw [Function.update_self]
        exact hhigh
      · dsimp only
        rw [Function.update_of_ne hb]
        exact hi.lastLe b
    · rw [h] at hread
      have hrest := forall_mem_remove hread
      have hnew : ∀ v ∈ l ++ r, ReadOk (Function.update s.last a t v.agent) (seconds s.clock) v.stage := by
        intro v hv
        rw [Function.update_of_ne (hothers v hv)]
        exact hrest v hv
      rw [List.forall_mem_append] at hnew
      refine List.forall_mem_append.mpr ⟨hnew.1, List.forall_mem_cons.mpr ⟨?_, hnew.2⟩⟩
      exact Function.update_self ..
    · intro b u hm
      rcases List.mem_append.mp hm with hm | hm
      · exact (hi.ended b u hm).trans (hmono b)
      · cases List.mem_singleton.mp hm
        dsimp only
        rw [Function.update_self]
    · exact pairwise_concat hi.spaced fun x _ => by cases x <;> trivial
    · rw [h] at hsame
      refine .of_other hi hmem rfl rfl rfl (fun _ _ => rfl) (fun b hb => Function.update_of_ne hb ..) ?_
      rw [h]
      exact forall_mem_replace hsame ⟨⟨a, .clocked t⟩, by simp, rfl⟩
  | clear l r a t h =>
    have hmem : (⟨a, .recorded t⟩ : Worker α) ∈ s.workers := by rw [h]; simp
    rw [h] at halone
    have hothers : ∀ v ∈ l ++ r, v.agent ≠ a := ne_of_nodup_map halone
    refine ⟨?_, ?_, hi.lastLe, ?_, hi.ended, hi.spaced, hi.ownerFirst, ?_⟩
    · rw [List.map_append, List.map_cons, List.nodup_middle, List.nodup_cons] at halone
      rw [List.map_append]
      exact halone.2
    · intro v hv
      dsimp only
      rw [Function.update_of_ne (hothers v hv)]
      rw [h] at hworking
      exact forall_mem_remove hworking v hv
    · rw [h] at hread
      exact forall_mem_remove hread
    · rw [h] at hsame
      refine .of_other hi hmem rfl rfl rfl (fun b hb => Function.update_of_ne hb ..) (fun _ _ => rfl) ?_
      rw [h]
      exact forall_mem_remove hsame

theorem step_inv {agents : List α} {s s' : St α} {e : Ev α} (hi : Inv s) (h : step agents s e = some s') : Inv s' := by
  cases e with
  | tick ms =>
    cases h
    have hle : seconds s.clock ≤ seconds (s.clock + ms) := seconds_mono (Nat.le_add_right ..)
    refine ⟨hi.alone, hi.working, fun a => (hi.lastLe a).trans hle, ?_, hi.ended, hi.spaced, hi.ownerFirst,
      hi.pc.loadLast, hi.pc.storeBusy, hi.pc.create⟩
    intro w hw
    have := hi.read w hw
    cases hstage : w.stage with
    | running => trivial
    | clocked t =>
      rw [hstage] at this
      exact ⟨this.1, this.2.trans hle⟩
    | recorded t =>
      rw [hstage] at this
      exact this
  | enqueue a text =>
    simp only [step] at h
    split at h
    · rename_i hpc
      split at h
      · cases h
        refine ⟨hi.alone, hi.working, hi.lastLe, hi.read, ?_, ?_, forall_mem_concat hi.ownerFirst trivial, ?_⟩
        · intro b t hm
          rcases List.mem_append.mp hm with hm | hm
          · exact hi.ended b t hm
          · cases List.mem_singleton.mp hm
        · exact pairwise_concat hi.spaced fun x _ => by cases x <;> trivial
        · refine ⟨?_, ?_, ?_⟩ <;> · intros; simp_all
      · cases h
        exact hi
    · cases h
  | begin checkSchedule =>
    simp only [step] at h
    split at h
    · cases h
      exact ⟨hi.alone, hi.working, hi.lastLe, hi.read, hi.ended, hi.spaced, hi.ownerFirst, nofun, nofun, nofun⟩
    · cases h
  | main mail due => exact main_inv hi (mainStep_cases h)
  | worker k => exact work_inv hi (workerStep_cases h)

/-- Every run: sessions of one agent do not overlap, they are spaced, and messages of the
    owner come before mail and tasks. -/
theorem dispatcher_inv {agents : List α} {s : St α} (h : (dispatcher agents).Reach (fun _ _ => True) s) : Inv s := by
  refine h.invariant (I := Inv) ?_ fun _ _ _ hi _ hs => step_inv hi hs
  refine ⟨List.nodup_nil, nofun, ?_, nofun, nofun, List.Pairwise.nil, nofun, nofun, nofun, nofun⟩
  exact fun _ => show -sessionGap ≤ seconds 0 by decide

/-! ## In order -/

/-- The owner's messages an agent was started for, in order. -/
def startedTexts (a : α) (log : List (Mark α)) : List Str :=
  log.filterMap fun
    | .started b (.owner text) _ _ => if b = a then some text else none
    | _ => none

def acceptedTexts (a : α) (log : List (Mark α)) : List Str :=
  log.filterMap fun
    | .accepted b text => if b = a then some text else none
    | _ => none

theorem startedTexts_append (a : α) (l r : List (Mark α)) :
    startedTexts a (l ++ r) = startedTexts a l ++ startedTexts a r :=
  List.filterMap_append

theorem acceptedTexts_append (a : α) (l r : List (Mark α)) :
    acceptedTexts a (l ++ r) = acceptedTexts a l ++ acceptedTexts a r :=
  List.filterMap_append

/-- The second a thread read, until it clears `busy`. -/
def Stage.read : Stage → Option Int
  | .running => none
  | .clocked t | .recorded t => some t

/-- No pass begins so late after a thread's reading. -/
def Prompt (s : St α) : Ev α → Prop
  | .begin _ => ∀ w ∈ s.workers, ∀ t ∈ w.stage.read, seconds s.clock - t < sessionGap
  | _ => True

/-- The messages walked past belong to agents that stay blocked in this pass. -/
def Passed (s : St α) (i : Nat) : Prop :=
  ∀ q ∈ s.queue.take i, s.busy q.1 = true ∨ s.nowS - s.last q.1 < sessionGap

/-- Where the walk of the queue stands. -/
structure Walk (s : St α) : Prop where
  loadBusy : ∀ i, s.pc = .loadBusy (.queued i) → Passed s i
  loadLast : ∀ i a, s.pc = .loadLast (.queued i) a → Passed s i ∧ ∃ text, s.queue[i]? = some (a, text)
  storeBusy : ∀ i a trig, s.pc = .storeBusy (.queued i) a trig →
    Passed s i ∧ ∃ text, trig = .owner text ∧ s.queue[i]? = some (a, text)
  create : ∀ i a trig, s.pc = .create (.queued i) a trig →
    Passed s i ∧ (∀ q ∈ s.queue.take i, q.1 ≠ a) ∧ ∃ text, trig = .owner text ∧ s.queue[i]? = some (a, text)
  polledStore : ∀ rest a trig text, s.pc = .storeBusy (.polled rest) a trig → trig ≠ .owner text
  polledCreate : ∀ rest a trig text, s.pc = .create (.polled rest) a trig → trig ≠ .owner text

structure Ordered (s : St α) : Prop where
  fifo : ∀ a, startedTexts a s.log ++ waiting s.queue a = acceptedTexts a s.log
  clock : s.nowS ≤ seconds s.clock
  late : s.pc ≠ .idle → ∀ w ∈ s.workers, ∀ t ∈ w.stage.read, s.nowS - t < sessionGap
  walk : Walk s

omit [DecidableEq α] in
theorem Passed.succ {s : St α} {i : Nat} (h : Passed s i)
    (hq : ∀ q, s.queue[i]? = some q → s.busy q.1 = true ∨ s.nowS - s.last q.1 < sessionGap) : Passed s (i + 1) := by
  intro q hm
  rw [List.take_add_one] at hm
  rcases List.mem_append.mp hm with hm | hm
  · exact h q hm
  · exact hq q (by simpa using hm)

theorem wanted_queued {s : St α} {a : α} {mail due : Bool} {i : Nat} {text : Str} (h : s.queue[i]? = some (a, text)) :
    wanted s a mail due (.queued i) = some (.owner text) := by
  simp only [wanted, h, Option.map_some]

theorem wanted_polled {s : St α} {a : α} {mail due : Bool} {rest : List α} {text : Str} :
    wanted s a mail due (.polled rest) ≠ some (.owner text) := by
  simp only [wanted]
  repeat' split
  all_goals nofun

/-- The agent's first message leaves the queue. -/
theorem waiting_eraseIdx {queue : List (α × Str)} {i : Nat} {a : α} {text : Str} (hi : queue[i]? = some (a, text))
    (hfirst : ∀ q ∈ queue.take i, q.1 ≠ a) (b : α) :
    waiting queue b = (if a = b then [text] else []) ++ waiting (queue.eraseIdx i) b := by
  obtain ⟨hlt, hget⟩ := List.getElem?_eq_some_iff.mp hi
  have hsplit : queue = queue.take i ++ (a, text) :: queue.drop (i + 1) := by
    rw [← hget, List.getElem_cons_drop, List.take_append_drop]
  unfold waiting
  rw [List.eraseIdx_eq_take_drop_succ]
  conv_lhs => rw [hsplit]
  rw [List.filter_append, List.filter_append]
  by_cases hb : a = b
  · subst hb
    have hnone : (queue.take i).filter (·.1 = a) = [] := by
      rw [List.filter_eq_nil_iff]
      intro q hq
      simpa using hfirst q hq
    rw [hnone, List.filter_cons_of_pos (by simp)]
    simp
  · rw [List.filter_cons_of_neg (by simpa using hb)]
    simp [hb]

theorem main_ordered {agents : List α} {s s' : St α} (hi : Inv s) (ho : Ordered s) (h : Main agents s s') : Ordered s' := by
  have hlate : ∀ pc, s.pc = pc → pc ≠ .idle → ∀ w ∈ s.workers, ∀ t ∈ w.stage.read, s.nowS - t < sessionGap :=
    fun pc h hne => ho.late (by rw [h]; exact hne)
  cases h with
  | past site h =>
    refine ⟨ho.fifo, ho.clock, fun _ => hlate _ h nofun, ?_⟩
    cases site <;> exact ⟨nofun, nofun, nofun, nofun, nofun, nofun⟩
  | busy site a h ha hb =>
    refine ⟨ho.fifo, ho.clock, fun _ => hlate _ h nofun, ?_, nofun, nofun, nofun, nofun, nofun⟩
    intro i hpc
    cases site with
    | polled => cases hpc
    | queued j =>
      cases hpc
      refine (ho.walk.loadBusy j h).succ fun q hq => .inl ?_
      have hqa : some q.1 = some a := by rw [← ha]; exact (congrArg (Option.map (·.1)) hq).symm
      cases hqa
      exact hb
  | free site a h ha hb =>
    refine ⟨ho.fifo, ho.clock, fun _ => hlate _ h nofun, nofun, ?_, nofun, nofun, nofun, nofun⟩
    rintro i b ⟨⟩
    obtain ⟨q, hq, rfl⟩ := Option.map_eq_some_iff.mp ha
    exact ⟨ho.walk.loadBusy i h, q.2, hq⟩
  | soon site a h hgap =>
    refine ⟨ho.fifo, ho.clock, fun _ => hlate _ h nofun, ?_, nofun, nofun, nofun, nofun, nofun⟩
    intro i hpc
    cases site with
    | polled => cases hpc
    | queued j =>
      cases hpc
      obtain ⟨hpassed, text, hat⟩ := ho.walk.loadLast j a h
      refine hpassed.succ fun q hq => .inr ?_
      rw [hat] at hq
      cases hq
      exact hgap
  | none site a mail due h hw =>
    refine ⟨ho.fifo, ho.clock, fun _ => hlate _ h nofun, ?_, nofun, nofun, nofun, nofun, nofun⟩
    intro i hpc
    cases site with
    | polled => cases hpc
    | queued j =>
      obtain ⟨-, text, hat⟩ := ho.walk.loadLast j a h
      rw [wanted_queued hat] at hw
      cases hw
  | pick site a trig mail due h hgap hw =>
    refine ⟨ho.fifo, ho.clock, fun _ => hlate _ h nofun, nofun, nofun, ?_, nofun, ?_, nofun⟩
    · rintro i b trig' ⟨⟩
      obtain ⟨hpassed, text, hat⟩ := ho.walk.loadLast i a h
      rw [wanted_queued hat] at hw
      exact ⟨hpassed, text, (Option.some.inj hw).symm, hat⟩
    · rintro rest b trig' text ⟨⟩ rfl
      exact wanted_polled hw
  | take site a trig h =>
    obtain ⟨hidle, hgap, -⟩ := hi.pc.storeBusy site a trig h
    refine ⟨ho.fifo, ho.clock, fun _ => hlate _ h nofun, nofun, nofun, nofun, ?_, nofun, ?_⟩
    · rintro i b trig' ⟨⟩
      obtain ⟨hpassed, htext⟩ := ho.walk.storeBusy i a trig h
      refine ⟨fun q hq => ?_, fun q hq hqa => ?_, htext⟩
      · by_cases hqa : q.1 = a
        · left
          dsimp only
          rw [hqa, Function.update_self]
        · dsimp only
          rw [Function.update_of_ne hqa]
          exact hpassed q hq
      · -- an earlier message of this agent would be blocked, and the agent is not
        rcases hpassed q hq with hb | hl
        · rw [hqa, hidle] at hb
          cases hb
        · rw [hqa] at hl
          omega
    · rintro rest b trig' text ⟨⟩
      exact ho.walk.polledStore rest a trig text h
  | start site a trig h =>
    refine ⟨?_, ho.clock, ?_, ?_, nofun, nofun, nofun, nofun, nofun⟩
    · intro b
      have hacc : acceptedTexts b [.started a trig s.nowS (waiting s.queue a)] = [] := rfl
      dsimp only
      rw [startedTexts_append, acceptedTexts_append, hacc, List.append_nil, ← ho.fifo b]
      cases site with
      | queued i =>
        obtain ⟨-, hfirst, text, rfl, hat⟩ := ho.walk.create i a trig h
        rw [waiting_eraseIdx hat hfirst b, List.append_assoc]
        refine congrArg₂ _ rfl (congrArg₂ _ ?_ rfl)
        by_cases hb : a = b <;> simp [startedTexts, hb]
      | polled rest =>
        have hother := ho.walk.polledCreate rest a trig
        cases trig with
        | owner text => exact absurd rfl (hother text h)
        | mail => simp [startedTexts, Site.started]
        | schedule => simp [startedTexts, Site.started]
    · intro _
      exact forall_mem_concat (hlate _ h nofun) nofun
    · intro i hpc
      cases site with
      | polled rest => cases hpc
      | queued j =>
        cases hpc
        obtain ⟨hpassed, -⟩ := ho.walk.create i a trig h
        intro q hq
        refine hpassed q ?_
        dsimp only [Site.started] at hq
        rwa [List.take_eraseIdx_eq_take_of_le _ _ _ (le_refl _)] at hq

omit [DecidableEq α] in
theorem Walk.of_passed {s s' : St α} (h : Walk s) (hpc : s'.pc = s.pc) (hqueue : s'.queue = s.queue)
    (hpassed : s.pc ≠ .idle → ∀ i, Passed s i → Passed s' i) : Walk s' := by
  have hkeep : ∀ {pc : Pc α} {i : Nat}, s'.pc = pc → pc ≠ .idle → Passed s i → Passed s' i :=
    fun hpc' hne => hpassed (by rw [← hpc, hpc']; exact hne) _
  refine ⟨?_, ?_, ?_, ?_, ?_, ?_⟩
  · intro i h'
    exact hkeep h' nofun (h.loadBusy i (hpc ▸ h'))
  · intro i a h'
    obtain ⟨hp, hat⟩ := h.loadLast i a (hpc ▸ h')
    exact ⟨hkeep h' nofun hp, hqueue ▸ hat⟩
  · intro i a trig h'
    obtain ⟨hp, hat⟩ := h.storeBusy i a trig (hpc ▸ h')
    exact ⟨hkeep h' nofun hp, hqueue ▸ hat⟩
  · intro i a trig h'
    obtain ⟨hp, hfirst, hat⟩ := h.create i a trig (hpc ▸ h')
    exact ⟨hkeep h' nofun hp, hqueue ▸ hfirst, hqueue ▸ hat⟩
  · intro rest a trig text h'
    exact h.polledStore rest a trig text (hpc ▸ h')
  · intro rest a trig text h'
    exact h.polledCreate rest a trig text (hpc ▸ h')

theorem work_ordered {s s' : St α} (hi : Inv s) (ho : Ordered s) (h : Work s s') : Ordered s' := by
  have hlate := ho.late
  cases h with
  | clock l r a h =>
    refine ⟨ho.fifo, ho.clock, fun hne => ?_, ho.walk.of_passed rfl rfl fun _ _ hp => hp⟩
    have hrest := hlate hne
    rw [h] at hrest
    refine forall_mem_replace hrest fun t ht => ?_
    -- read in this pass, so not before its clock
    cases ht
    have := ho.clock
    unfold sessionGap
    dsimp only
    omega
  | record l r a t h =>
    have hmem : (⟨a, .clocked t⟩ : Worker α) ∈ s.workers := by rw [h]; simp
    refine ⟨?_, ho.clock, fun hne => ?_, ho.walk.of_passed rfl rfl fun _ i hp q hq => ?_⟩
    · intro b
      have hstart : startedTexts b [Mark.ended a t] = [] := rfl
      have hacc : acceptedTexts b [Mark.ended a t] = [] := rfl
      dsimp only
      rw [startedTexts_append, acceptedTexts_append, hstart, hacc, List.append_nil, List.append_nil]
      exact ho.fifo b
    · have hrest := hlate hne
      have hta : s.nowS - t < sessionGap := hlate hne _ hmem t rfl
      rw [h] at hrest
      refine forall_mem_replace hrest fun u hu => ?_
      cases hu
      exact hta
    · by_cases hqa : q.1 = a
      · left
        rw [hqa]
        exact hi.working _ hmem
      · dsimp only
        rw [Function.update_of_ne hqa]
        exact hp q hq
  | clear l r a t h =>
    have hmem : (⟨a, .recorded t⟩ : Worker α) ∈ s.workers := by rw [h]; simp
    have hlast : s.last a = t := hi.read _ hmem
    refine ⟨ho.fifo, ho.clock, fun hne => ?_, ho.walk.of_passed rfl rfl fun hne i hp q hq => ?_⟩
    · have hrest := hlate hne
      rw [h] at hrest
      exact forall_mem_remove hrest
    · by_cases hqa : q.1 = a
      · -- no longer busy, but too soon for this pass
        right
        rw [hqa]
        dsimp only
        rw [hlast]
        exact hlate hne _ hmem t rfl
      · dsimp only
        rw [Function.update_of_ne hqa]
        exact hp q hq

theorem step_ordered {agents : List α} {s s' : St α} {e : Ev α} (hi : Inv s) (ho : Ordered s) (hok : Prompt s e)
    (h : step agents s e = some s') : Ordered s' := by
  cases e with
  | tick ms =>
    cases h
    exact ⟨ho.fifo, ho.clock.trans (seconds_mono (Nat.le_add_right ..)), ho.late,
      ho.walk.of_passed rfl rfl fun _ _ hp => hp⟩
  | enqueue a text =>
    simp only [step] at h
    split at h
    · rename_i hpc
      split at h
      · cases h
        refine ⟨?_, ho.clock, ho.late, ?_⟩
        · intro b
          have hstart : startedTexts b [Mark.accepted a text] = [] := rfl
          dsimp only
          rw [startedTexts_append, acceptedTexts_append, hstart, List.append_nil, ← ho.fifo b, List.append_assoc]
          unfold waiting
          rw [List.filter_append, List.map_append]
          by_cases hb : a = b <;> simp [acceptedTexts, hb]
        · refine ⟨?_, ?_, ?_, ?_, ?_, ?_⟩ <;> · intros; simp_all
      · cases h
        exact ho
    · cases h
  | begin checkSchedule =>
    simp only [step] at h
    split at h
    · cases h
      refine ⟨ho.fifo, le_refl _, fun _ => hok, ?_, nofun, nofun, nofun, nofun, nofun⟩
      rintro i ⟨⟩ q hq
      cases hq
    · cases h
  | main mail due => exact main_ordered hi ho (mainStep_cases h)
  | worker k => exact work_ordered hi ho (workerStep_cases h)

/-- What the dispatcher promises. -/
structure Safe (s : St α) : Prop where
  /-- One session an agent. -/
  alone : (s.workers.map (·.agent)).Nodup
  /-- A pass starts a session only `TC_SESSION_GAP` seconds after each end recorded before. -/
  spaced : s.log.Pairwise Spaced
  /-- An agent's messages start in the order accepted; the rest is queued. -/
  inOrder : ∀ a, startedTexts a s.log ++ waiting s.queue a = acceptedTexts a s.log
  /-- No mail or schedule session while a message of the agent is queued. -/
  ownerFirst : ∀ m ∈ s.log, OwnerFirst m

/-- Every run in which no thread is held up for `TC_SESSION_GAP` seconds between reading
    the clock and clearing `busy` when a pass begins. -/
theorem dispatcher_safe (agents : List α) {s : St α} (h : (dispatcher agents).Reach Prompt s) : Safe s := by
  have hinv : ∀ s, (dispatcher agents).Reach Prompt s → Inv s :=
    fun s h => dispatcher_inv (h.mono fun _ _ _ => trivial)
  have hordered : Ordered s := by
    refine h.invariant_of (I := Ordered) (J := Inv) hinv ?_ fun _ _ _ hi ho hok hs => step_ordered hi ho hok hs
    exact ⟨fun _ => rfl, show (0 : Int) ≤ seconds 0 by decide, nofun, nofun, nofun, nofun, nofun, nofun, nofun⟩
  have hi := hinv s h
  exact ⟨hi.alone, hi.spaced, hordered.fifo, hi.ownerFirst⟩

instance (s : St α) : (e : Ev α) → Decidable (Prompt s e)
  | .begin _ => inferInstanceAs (Decidable (∀ w ∈ s.workers, ∀ t ∈ w.stage.read, seconds s.clock - t < sessionGap))
  | .tick _ | .enqueue _ _ | .main _ _ | .worker _ => .isTrue trivial

end Steps

/-- A message is taken, a session starts for it, and the pass looks at the one agent and ends. -/
def firstSession : List (Ev Nat) :=
  [.enqueue 0 (lit "first"), .begin false, .main false false, .main false false, .main false false, .main false false,
   .main false false, .main false false, .main false false]

/-- The session ends while two more messages wait; the next starts when enough time has passed. -/
def secondSession : List (Ev Nat) :=
  firstSession ++ [.enqueue 0 (lit "second"), .enqueue 0 (lit "third"), .tick 10000, .worker 0, .worker 0, .worker 0,
    .tick 5000, .begin false, .main false false, .main false false, .main false false, .main false false]

theorem dispatcher_safe_two : ∃ s, (dispatcher [0]).Reach Prompt s ∧
    startedTexts 0 s.log = [lit "first", lit "second"] ∧ waiting s.queue 0 = [lit "third"] ∧ Safe s := by
  have hrun : ((dispatcher [0]).replay Prompt (dispatcher [0]).init secondSession).map
      (fun s => (startedTexts 0 s.log, waiting s.queue 0)) =
      some ([lit "first", lit "second"], [lit "third"]) := by decide +kernel
  obtain ⟨s, hs, hobs⟩ := Option.map_eq_some_iff.mp hrun
  obtain ⟨hstarted, hwaiting⟩ := Prod.mk.inj hobs
  have hreach := System.Reach.replay .init hs
  exact ⟨s, hreach, hstarted, hwaiting, dispatcher_safe [0] hreach⟩

/-- The thread reads the clock at 10 s and is held up; a pass that begins at 15 s walks past
    the second message, the thread stores 10 and clears `busy`, and the third starts. -/
def overtaken : List (Ev Nat) :=
  firstSession ++ [.enqueue 0 (lit "second"), .enqueue 0 (lit "third"), .tick 10000, .worker 0, .tick 5000, .begin false,
    .main false false, .worker 0, .worker 0, .main false false, .main false false, .main false false, .main false false]

theorem held_up_thread : ¬ ∀ s, (dispatcher [0]).Reach (fun _ _ => True) s → Safe s := by
  intro hall
  have hrun : ((dispatcher [0]).replay (fun _ _ => True) (dispatcher [0]).init overtaken).map
      (fun s => (startedTexts 0 s.log ++ waiting s.queue 0, acceptedTexts 0 s.log)) =
      some ([lit "first", lit "third", lit "second"], [lit "first", lit "second", lit "third"]) := by decide +kernel
  obtain ⟨s, hs, hobs⟩ := Option.map_eq_some_iff.mp hrun
  have horder := (hall s (System.Reach.replay .init hs)).inOrder 0
  obtain ⟨hstarted, haccepted⟩ := Prod.mk.inj hobs
  rw [hstarted, haccepted] at horder
  exact absurd horder (by decide)

end Shclaw.Daemon
