/-
  Shclaw.Daemon.Triggers — what one pass of the dispatcher takes away (`src/daemon.c`:
  `dispatch`, `start_session`).

  The three kinds of trigger are consumed by three mechanisms: a queued message is cut
  out of the queue, mail is deleted by `messenger_receive`, due tasks are removed or
  moved on by `sched_mark_done`. `start_session` returns nothing, so each is consumed
  whether its thread was created or not.

  What the pass meets is a `Pass`: which agents it finds idle, what it can read, which
  starts succeed, which saves. `Attempt` is one call of `start_session`, with what it was
  given. What other threads do to the files meanwhile is left out: they only add to them.

  `triggers_kept`: every trigger whose session was not started is still pending after the
  pass if and only if each such session was one for due tasks and its `sched_mark_done`
  was not saved.
-/

import Shclaw.Agent.Trigger
import Shclaw.Scheduler.Races

namespace Shclaw.Daemon

open Lib Agent Messenger Scheduler

/-! ## A pass -/

/-- A message in the queue; `seq` is its place among the messages accepted. -/
structure Queued where
  seq : Nat
  agent : Str
  text : Str
  deriving DecidableEq

/-- What triggers are taken from. -/
structure Desk where
  queue : List Queued
  inbox : Str → List Entry
  schedule : Str → File

/-- What a trigger is, and the clock `sched_get_due` read. -/
inductive Load where
  | owner (m : Queued)
  | mail (files : List Entry)
  | tasks (now : Int) (due : List Json)

/-- A call of `start_session`. -/
structure Attempt where
  agent : Str
  type : TriggerType
  data : Str
  initiator : Str
  load : Load
  created : Bool

/-- What one pass meets. -/
structure Pass where
  checkSchedule : Bool
  /-- `agent_idle` for a message of the queue, and for an agent. -/
  idleFor : Queued → Bool
  idle : Str → Bool
  /-- Memory and a thread for the session. -/
  startsFor : Queued → Bool
  starts : Str → Bool
  opens : Str → Bool
  reads : Entry → Option Nat
  dueAt : Str → Int
  markAt : Str → Int
  saves : Str → Bool

section Passes

variable (J : CJson) (Z : Zone) (p : Pass)

/-- The walk of the queue: what stays in it and what was started. -/
def walkQueue : List Queued → List Queued × List Attempt
  | [] => ([], [])
  | m :: ms =>
    let r := walkQueue ms
    if p.idleFor m then (r.1, ⟨m.agent, .irc, m.text, lit "owner", .owner m, p.startsFor m⟩ :: r.2)
    else (m :: r.1, r.2)

/-- `messenger_receive`. -/
def receive (d : Desk) (a : Str) : List Json × List Entry :=
  if p.opens a then messengerReceive J ((d.inbox a).map fun f => (f, p.reads f)) else ([], d.inbox a)

/-- The files whose message a receive returns. -/
def delivered (d : Desk) (a : Str) : List Entry :=
  (d.inbox a).filter fun f => isMail f.1 && ((slurp f.2 (p.reads f)).bind J.parse).isSome

def sender (msgs : List Json) : Str := ((msgs.head?.bind (·.jStr (lit "from"))).getD (lit "unknown"))

/-- The agent `a` in the second loop. -/
def poll (d : Desk) (a : Str) : Desk × Option Attempt :=
  if !p.idle a || d.queue.any (·.agent = a) then (d, none)
  else
    let r := receive J p d a
    let d' := { d with inbox := Function.update d.inbox a r.2 }
    if r.1 ≠ [] then
      (d', some ⟨a, .agentMsg, J.print (.arr r.1), sender r.1, .mail (delivered J p d a), p.starts a⟩)
    else if p.checkSchedule then
      let due := schedGetDue J Z (p.dueAt a) (d.schedule a)
      if due ≠ [] then
        let f := (schedMarkDone J Z (p.markAt a) (p.saves a) (dueIds due) (d.schedule a)).getD (d.schedule a)
        ({ d' with schedule := Function.update d.schedule a f },
          some ⟨a, .schedule, J.print (.arr due), lit "scheduler", .tasks (p.dueAt a) due, p.starts a⟩)
      else (d', none)
    else (d', none)

def pollAll : List Str → Desk → Desk × List Attempt
  | [], d => (d, [])
  | a :: rest, d =>
    let r := poll J Z p d a
    let s := pollAll rest r.1
    (s.1, r.2.toList ++ s.2)

def dispatch (agents : List Str) (d : Desk) : Desk × List Attempt :=
  let w := walkQueue p d.queue
  let r := pollAll J Z p agents { d with queue := w.1 }
  (r.1, w.2 ++ r.2)

end Passes

/-! ## What is still pending -/

section Pending

variable (J : CJson) (Z : Zone)

/-- A due task is still stored and, when it is recurring, still due. -/
def StillDue (now : Int) (f : File) (task : Json) : Prop :=
  ∃ x ∈ stored J f, x.jStr (lit "id") = task.jStr (lit "id") ∧
    (0 < intervalSeconds (task.jStr (lit "recurring")) → isDue Z now x = true)

def Pending (d : Desk) (a : Attempt) : Prop :=
  match a.load with
  | .owner m => m ∈ d.queue
  | .mail files => ∀ f ∈ files, f ∈ d.inbox a.agent
  | .tasks now due => ∀ task ∈ due, StillDue J Z now (d.schedule a.agent) task

/-- Every trigger without a session is pending. -/
def Kept (r : Desk × List Attempt) : Prop := ∀ a ∈ r.2, a.created = false → Pending J Z r.1 a

/-- Due tasks that `sched_mark_done` did not save away. -/
def Unsaved (p : Pass) (a : Attempt) : Prop :=
  match a.load with
  | .owner _ | .mail _ => False
  | .tasks _ _ => p.saves a.agent = false

/-- The schedules as any calls of the scheduler leave them. -/
def Stored (f : File) : Prop :=
  Scheduler.Distinct (stored J f) ∧ ∀ task ∈ stored J f, task.IsRecord ∧ (task.jStr (lit "id")).isSome = true

end Pending

/-! ## The queue -/

theorem walkQueue_spec (p : Pass) (queue : List Queued) : (walkQueue p queue).1 = queue.filter (!p.idleFor ·) ∧
    ∀ a ∈ (walkQueue p queue).2, ∃ m, p.idleFor m = true ∧ a.load = .owner m := by
  induction queue with
  | nil => exact ⟨rfl, nofun⟩
  | cons m ms ih =>
    unfold walkQueue
    cases hm : p.idleFor m with
    | true =>
      refine ⟨by rw [List.filter_cons_of_neg (by simp [hm])]; exact ih.1, ?_⟩
      intro a ha
      rcases List.mem_cons.mp ha with rfl | ha
      · exact ⟨m, hm, rfl⟩
      · exact ih.2 a ha
    | false =>
      refine ⟨?_, ih.2⟩
      rw [List.filter_cons_of_pos (by simp [hm]), ← ih.1]
      rfl

/-! ## Mail -/

theorem delivered_ne_nil {J : CJson} {p : Pass} {d : Desk} {a : Str} (h : (receive J p d a).1 ≠ []) :
    delivered J p d a ≠ [] ∧ ∀ f ∈ delivered J p d a, f ∉ (receive J p d a).2 := by
  unfold receive at h ⊢
  split at h
  · rename_i hopen
    rw [if_pos hopen]
    unfold messengerReceive delivered at *
    dsimp only at h ⊢
    constructor
    · obtain ⟨msg, hmsg⟩ := List.exists_mem_of_ne_nil _ h
      obtain ⟨x, hx, hread⟩ := List.mem_filterMap.mp hmsg
      obtain ⟨f, hf, rfl⟩ := List.mem_map.mp hx
      dsimp only at hread
      split at hread
      · rename_i hmail
        refine List.ne_nil_of_mem (List.mem_filter.mpr ⟨hf, ?_⟩)
        rw [hmail, hread]
        rfl
      · cases hread
    · intro f hf hleft
      have hmail := (List.mem_filter.mp hf).2
      have hnot := (List.mem_filter.mp hleft).2
      rw [Bool.and_eq_true] at hmail
      rw [hmail.1] at hnot
      cases hnot
  · exact absurd rfl h

/-! ## Tasks -/

theorem mem_schedGetDue {J : CJson} {Z : Zone} {now : Int} {f : File} {task : Json} :
    task ∈ schedGetDue J Z now f ↔ task ∈ stored J f ∧ isDue Z now task = true := List.mem_filter

/-- `sched_mark_done` on the due tasks of a stored schedule: unsaved it changes nothing,
    saved it leaves none of them pending. -/
theorem markDone_pending {J : CJson} {Z : Zone} {now markNow : Int} (hle : now ≤ markNow) {saved : Bool} {f : File}
    (hf : Stored J f) {task : Json} (ht : task ∈ schedGetDue J Z now f) :
    StillDue J Z now ((schedMarkDone J Z markNow saved (dueIds (schedGetDue J Z now f)) f).getD f) task ↔
      saved = false := by
  obtain ⟨hd, hrec⟩ := hf
  obtain ⟨hmem, hdue⟩ := mem_schedGetDue.mp ht
  have h0 : 0 < now := by
    unfold isDue at hdue
    simp only [Bool.and_eq_true, decide_eq_true_eq] at hdue
    omega
  obtain ⟨tasks, hload⟩ : ∃ tasks, loadTasks J f = some tasks := by
    cases hl : loadTasks J f with
    | some tasks => exact ⟨tasks, rfl⟩
    | none =>
      unfold stored at hmem
      rw [hl] at hmem
      cases hmem
  have hst : stored J f = tasks := stored_of_loads hload
  rw [hst] at hd hrec hmem
  have hids : (dueIds (schedGetDue J Z now f)).Nodup := by
    apply dueIds_nodup
    unfold schedGetDue Scheduler.Distinct
    rw [hload]
    exact hd.sublist (List.filter_sublist.map _)
  have hfold := @foldlM_markDoneOne Z markNow _ hids _ hd fun task ht => (hrec task ht).1
  unfold schedMarkDone
  rw [hload]
  dsimp only
  rw [hfold, Option.map_some, Option.getD_some]
  cases saved with
  | false =>
    refine iff_of_true ⟨task, ?_, rfl, fun _ => hdue⟩ rfl
    rw [saveTasks_failed, hst]
    exact hmem
  | true =>
    refine iff_of_false ?_ (by decide)
    rintro ⟨x, hx, hid, hstill⟩
    rw [stored_of_loads (loadTasks_saved J _ f)] at hx
    obtain ⟨y, hy, hyx⟩ := List.mem_filterMap.mp hx
    have hyt : y = task := by
      have := (doneTask_id (hrec y hy).1 hyx).2
      exact List.inj_on_of_nodup_map hd hy hmem (this.symm.trans hid)
    subst hyt
    obtain ⟨id, hyid⟩ := Option.isSome_iff_exists.mp (hrec y hy).2
    rcases doneTask_cases Z markNow (dueIds (schedGetDue J Z now f)) y with ⟨hno, -⟩ | ⟨-, ⟨-, hgone⟩ | ⟨hpos, t, -, hlt, hmoved⟩⟩
    · have := hno id (mem_dueIds.mpr ⟨y, ht, hyid⟩)
      rw [isTask_iff.mpr hyid] at this
      cases this
    · rw [hgone] at hyx
      cases hyx
    · -- moved to a run still to come, or to one that does not parse
      rw [hmoved] at hyx
      cases hyx
      have hlate := hstill hpos
      unfold isDue at hlate
      rw [runTime_setString Z (hrec y hy).1] at hlate
      simp only [Bool.and_eq_true, decide_eq_true_eq] at hlate
      rcases parse_format_cases Z (show 0 ≤ t by omega) with h | h <;> rw [h] at hlate <;> omega

/-! ## The agents -/

section Agents

variable {J : CJson} {Z : Zone} {p : Pass}

theorem poll_frame (d : Desk) (a : Str) : (poll J Z p d a).1.queue = d.queue ∧
    ∀ b, b ≠ a → (poll J Z p d a).1.inbox b = d.inbox b ∧ (poll J Z p d a).1.schedule b = d.schedule b := by
  unfold poll
  dsimp only
  repeat' split
  all_goals
    refine ⟨rfl, fun b hb => ?_⟩
    simp [Function.update_of_ne hb]

theorem pollAll_frame (agents : List Str) (d : Desk) : (pollAll J Z p agents d).1.queue = d.queue ∧
    ∀ b, b ∉ agents → (pollAll J Z p agents d).1.inbox b = d.inbox b ∧
      (pollAll J Z p agents d).1.schedule b = d.schedule b := by
  induction agents generalizing d with
  | nil => exact ⟨rfl, fun _ _ => ⟨rfl, rfl⟩⟩
  | cons a rest ih =>
    obtain ⟨hq, hother⟩ := poll_frame (J := J) (Z := Z) (p := p) d a
    obtain ⟨hq', hother'⟩ := ih (poll J Z p d a).1
    refine ⟨hq'.trans hq, fun b hb => ?_⟩
    rw [List.mem_cons, not_or] at hb
    exact ⟨(hother' b hb.2).1.trans (hother b hb.1).1, (hother' b hb.2).2.trans (hother b hb.1).2⟩

/-- A start of the second loop, of the agent it looks at. -/
theorem poll_pending (hclock : ∀ a, p.dueAt a ≤ p.markAt a) {d : Desk} {a : Str}
    (hs : Stored J (d.schedule a)) {x : Attempt} (hx : (poll J Z p d a).2 = some x) :
    x.agent = a ∧ (∀ m, x.load ≠ .owner m) ∧ (Pending J Z (poll J Z p d a).1 x ↔ Unsaved p x) := by
  unfold poll at hx ⊢
  dsimp only at hx ⊢
  split at hx
  · cases hx
  rename_i hgo
  rw [if_neg hgo]
  split at hx
  · rename_i hmail
    cases hx
    rw [if_pos hmail]
    refine ⟨rfl, nofun, iff_of_false (fun hp => ?_) nofun⟩
    obtain ⟨hne, hgone⟩ := delivered_ne_nil hmail
    obtain ⟨f, hf⟩ := List.exists_mem_of_ne_nil _ hne
    have hkept : f ∈ Function.update d.inbox a (receive J p d a).2 a := hp f hf
    rw [Function.update_self] at hkept
    exact hgone f hf hkept
  rename_i hmail
  split at hx
  · rename_i hcheck
    split at hx
    · rename_i hdue
      cases hx
      rw [if_neg hmail, if_pos hcheck, if_pos hdue]
      refine ⟨rfl, nofun, ?_⟩
      have htask : ∀ task ∈ schedGetDue J Z (p.dueAt a) (d.schedule a), _ ↔ p.saves a = false :=
        fun task ht => markDone_pending (hclock a) hs ht
      unfold Pending Unsaved
      dsimp only
      rw [Function.update_self]
      constructor
      · intro hp
        obtain ⟨task, ht⟩ := List.exists_mem_of_ne_nil _ hdue
        exact (htask task ht).mp (hp task ht)
      · intro hsave task ht
        exact (htask task ht).mpr hsave
    · cases hx
  · cases hx

theorem pending_of_eq {d d' : Desk} {x : Attempt} (hq : d'.queue = d.queue) (hi : d'.inbox x.agent = d.inbox x.agent)
    (hs : d'.schedule x.agent = d.schedule x.agent) : Pending J Z d' x ↔ Pending J Z d x := by
  unfold Pending
  rw [hq, hi, hs]

theorem pollAll_pending (hclock : ∀ a, p.dueAt a ≤ p.markAt a) {agents : List Str} (hnd : agents.Nodup)
    {d : Desk} (hs : ∀ a ∈ agents, Stored J (d.schedule a)) :
    ∀ x ∈ (pollAll J Z p agents d).2, Pending J Z (pollAll J Z p agents d).1 x ↔ Unsaved p x := by
  induction agents generalizing d with
  | nil => nofun
  | cons a rest ih =>
    rw [List.nodup_cons] at hnd
    obtain ⟨hq, hother⟩ := poll_frame (J := J) (Z := Z) (p := p) d a
    obtain ⟨hq', hrest⟩ := pollAll_frame (J := J) (Z := Z) (p := p) rest (poll J Z p d a).1
    intro x hx
    unfold pollAll at hx ⊢
    rcases List.mem_append.mp hx with hx | hx
    · -- the agents polled later leave this one's triggers alone
      obtain ⟨rfl, -, hiff⟩ := poll_pending hclock (hs a List.mem_cons_self) (Option.mem_toList.mp hx)
      exact (pending_of_eq hq' (hrest x.agent hnd.1).1 (hrest x.agent hnd.1).2).trans hiff
    · refine ih hnd.2 (fun b hb => ?_) x hx
      rw [(hother b (fun h => hnd.1 (h ▸ hb))).2]
      exact hs b (List.mem_cons_of_mem _ hb)

/-- For every pass over the registered agents, from any queue, inboxes and schedules. -/
theorem triggers_kept (J : CJson) (Z : Zone) (reg : Registry) (p : Pass) (d : Desk)
    (hclock : ∀ a, p.dueAt a ≤ p.markAt a) (hs : ∀ a, Stored J (d.schedule a)) :
    Kept J Z (dispatch J Z p reg.names d) ↔
      ∀ a ∈ (dispatch J Z p reg.names d).2, a.created = false → Unsaved p a := by
  obtain ⟨hqueue, howner⟩ := walkQueue_spec p d.queue
  have hframe := (pollAll_frame (J := J) (Z := Z) (p := p) reg.names { d with queue := (walkQueue p d.queue).1 }).1
  have hiff : ∀ a ∈ (dispatch J Z p reg.names d).2, Pending J Z (dispatch J Z p reg.names d).1 a ↔ Unsaved p a := by
    intro a ha
    unfold dispatch at ha ⊢
    rcases List.mem_append.mp ha with ha | ha
    · -- what was started is out of the queue
      obtain ⟨m, hm, hload⟩ := howner a ha
      unfold Pending Unsaved
      rw [hload]
      refine iff_of_false (fun hin => ?_) not_false
      dsimp only at hin
      rw [hframe] at hin
      dsimp only at hin
      rw [hqueue, List.mem_filter, hm] at hin
      exact absurd hin.2 (by decide)
    · exact pollAll_pending (d := { d with queue := (walkQueue p d.queue).1 }) hclock reg.nodup (fun a _ => hs a) a ha
  unfold Kept
  exact forall₂_congr fun a ha => imp_congr_right fun _ => hiff a ha

end Agents

/-- The schedule of every run of the scheduler's calls is one. -/
theorem stored_of_reach {J : CJson} {Z : Zone} {path : Str} {s : Check} (h : (checks J Z path).Reach Fresh s) :
    Stored J s.file := by
  have hs := reach_sound J Z path (fun _ _ hok => hok) h
  refine ⟨hs.distinct, fun task ht => ⟨hs.records task ht, ?_⟩⟩
  obtain ⟨id, -, hid⟩ := Sound.stored_used J hs task ht
  rw [hid]
  rfl

/-- One agent, idle, for whose session there is neither memory nor thread. -/
def eve : Registry := ⟨[lit "eve"], by decide, by decide, by decide⟩

def starved (saves : Bool) : Pass where
  checkSchedule := true
  idleFor _ := true
  idle _ := true
  startsFor _ := false
  starts _ := false
  opens _ := true
  reads f := some f.2.length
  dueAt _ := 100
  markAt _ := 100
  saves _ := saves

/-- A one-shot task of the first minute. -/
def dueTask : Json := newTask Zone.utc 0 (lit "t1") (lit "1970-01-01T00:01:00Z") (lit "wake up") none none

def deskOf (queue : List Queued) : Desk :=
  ⟨queue, fun _ => [], fun _ => saveTasks CJson.compact true [dueTask] none⟩

theorem deskOf_stored (queue : List Queued) (a : Str) : Stored CJson.compact ((deskOf queue).schedule a) := by
  have hst : stored CJson.compact ((deskOf queue).schedule a) = [dueTask] :=
    stored_of_loads (loadTasks_saved CJson.compact [dueTask] none)
  unfold Stored
  rw [hst]
  refine ⟨List.nodup_singleton _, fun task ht => ?_⟩
  rw [List.mem_singleton.mp ht]
  exact ⟨newTask_isRecord .., rfl⟩

/-- The due task's session does not start, and its mark is not saved. -/
theorem triggers_kept_unsaved : Kept CJson.compact Zone.utc
    (dispatch CJson.compact Zone.utc (starved false) eve.names (deskOf [])) := by
  refine (triggers_kept CJson.compact Zone.utc eve (starved false) (deskOf []) (fun _ => le_refl _)
    (deskOf_stored [])).mpr ?_
  have hrun : (dispatch CJson.compact Zone.utc (starved false) eve.names (deskOf [])).2.map
      (fun a => match a.load with | .tasks _ due => due.length | _ => 0) = [1] := by decide +kernel
  intro a ha _
  have hlen := List.mem_map_of_mem (f := fun a : Attempt => match a.load with | .tasks _ due => due.length | _ => 0) ha
  rw [hrun, List.mem_singleton] at hlen
  unfold Unsaved
  cases hl : a.load with
  | tasks now due => rfl
  | owner m => rw [hl] at hlen; cases hlen
  | mail files => rw [hl] at hlen; cases hlen

/-- A message whose session does not start leaves the queue. -/
theorem message_lost : ¬ ∀ (p : Pass) (d : Desk), (∀ a, p.dueAt a ≤ p.markAt a) →
    (∀ a, Stored CJson.compact (d.schedule a)) →
      Kept CJson.compact Zone.utc (dispatch CJson.compact Zone.utc p eve.names d) := by
  intro hall
  have h := hall (starved true) (deskOf [⟨0, lit "eve", lit "hello"⟩]) (fun _ => le_refl _) (deskOf_stored _)
    ⟨lit "eve", .irc, lit "hello", lit "owner", .owner ⟨0, lit "eve", lit "hello"⟩, false⟩ List.mem_cons_self rfl
  have hrun : (dispatch CJson.compact Zone.utc (starved true) eve.names
      (deskOf [⟨0, lit "eve", lit "hello"⟩])).1.queue = [] := by decide +kernel
  have hin : (⟨0, lit "eve", lit "hello"⟩ : Queued) ∈ (dispatch CJson.compact Zone.utc (starved true) eve.names
      (deskOf [⟨0, lit "eve", lit "hello"⟩])).1.queue := h
  rw [hrun] at hin
  cases hin

end Shclaw.Daemon
