/-
  Shclaw.Scheduler.Races — the dispatcher's schedule check against the session
  threads (`src/daemon.c`: `dispatch`; `src/scheduler.c`).

  The main thread reads the due tasks, hands them to a session, then marks their ids
  done: three steps, between which a session thread may add, update and cancel tasks
  of the same scheduler. Each call is atomic under the scheduler's lock; `sched_get_due`
  and `sched_add` read the clock before they take it, so their reading may be old.

  `fired` records what was handed to a session: the task's id and the instant its
  run time denoted. `pinned` records the run times an update set that have not come
  due: the id and the instant.

  `fires_once`: no pair is handed out twice. A run time that a call sets is later than
  the clock, and so later than every instant that fired; a task that did fire keeps
  its run time only until it is marked done.

  `mark_done_keeps`: `sched_mark_done` works by id on whatever the file holds by then.
  It keeps the tasks that are not due and the updates with a run time to come exactly
  when every such task it names is recurring; a one-shot task updated in between is
  deleted (`reschedule_lost`).
-/

import Mathlib.Data.List.Nodup
import Shclaw.Scheduler.Invariant

namespace Shclaw.Scheduler

open Lib

/-! ## Lists with distinct ids -/

/-- No two tasks have the same id. -/
def Distinct (tasks : List Json) : Prop := (tasks.map (·.jStr (lit "id"))).Nodup

theorem isTask_iff {id : Str} {task : Json} : isTask id task = true ↔ task.jStr (lit "id") = some id := by
  simp [isTask]

/-- Only the head can carry the head's id. -/
theorem Distinct.tail_ne {task : Json} {tasks : List Json} (h : Distinct (task :: tasks)) {id : Str}
    (ht : isTask id task = true) : ∀ x ∈ tasks, isTask id x = false := by
  intro x hx
  by_contra hne
  have hid := isTask_iff.mp (Bool.not_eq_false _ ▸ hne)
  exact (List.nodup_cons.mp h).1 (List.mem_map.mpr ⟨x, hx, hid.trans (isTask_iff.mp ht).symm⟩)

theorem Distinct.tail {task : Json} {tasks : List Json} (h : Distinct (task :: tasks)) : Distinct tasks :=
  (List.nodup_cons.mp h).2

theorem onTask_eq {tasks : List Json} (h : Distinct tasks) (id : Str) (g : Json → Json) :
    onTask id g tasks = tasks.map fun task => if isTask id task then g task else task := by
  induction tasks with
  | nil => rfl
  | cons task tasks ih =>
    by_cases ht : isTask id task = true
    · have hrest : tasks.map (fun task => if isTask id task then g task else task) = tasks := by
        rw [List.map_congr_left (g := fun x => x) fun x hx => by simp [h.tail_ne ht x hx]]
        exact List.map_id' _
      simp only [onTask, List.replaceF_cons, ht, if_true, List.map_cons, hrest]
    · have := ih h.tail
      simp only [onTask] at this
      simp only [onTask, List.replaceF_cons, List.map_cons, ht, this]
      rfl

theorem removeTask_eq {tasks : List Json} (h : Distinct tasks) (id : Str) :
    removeTask id tasks = tasks.filter fun task => !isTask id task := by
  induction tasks with
  | nil => rfl
  | cons task tasks ih =>
    by_cases ht : isTask id task = true
    · have hrest : tasks.filter (fun task => !isTask id task) = tasks :=
        List.filter_eq_self.mpr fun x hx => by simp [h.tail_ne ht x hx]
      simp [removeTask, ht, hrest]
    · have := ih h.tail
      simp only [removeTask] at this
      simp [removeTask, ht, this]

theorem findTask_eq_some {tasks : List Json} (h : Distinct tasks) {id : Str} {task : Json} :
    findTask tasks id = some task ↔ task ∈ tasks ∧ isTask id task = true := by
  refine ⟨findTask_mem, fun ⟨hmem, ht⟩ => ?_⟩
  induction tasks with
  | nil => cases hmem
  | cons x tasks ih =>
    rcases List.mem_cons.mp hmem with rfl | hmem
    · simp [findTask, ht]
    · by_cases hx : isTask id x = true
      · have := h.tail_ne hx task hmem
        rw [ht] at this
        cases this
      · have := ih h.tail ⟨hmem, ht⟩ hmem
        simpa [findTask, hx] using this

/-! ## What `sched_mark_done` does to one task -/

/-- The task as `sched_mark_done` leaves it; `none` when it goes. -/
def doneTask (Z : Zone) (now : Int) (ids : List Str) (task : Json) : Option Json :=
  if ids.any (isTask · task) then
    if intervalSeconds (task.jStr (lit "recurring")) ≤ 0 then none
    else (nextRun Z now task).map fun t => task.setString (lit "run_at") (formatTime Z t false)
  else some task

/-- An id no task carries marks nothing. -/
theorem doneTask_of_ne {Z : Zone} {now : Int} {ids : List Str} {task : Json} (h : ∀ id ∈ ids, isTask id task = false) :
    doneTask Z now ids task = some task := by
  rw [doneTask, if_neg]
  simpa using h

theorem markDoneOne_eq {Z : Zone} {now : Int} {tasks : List Json} (h : Distinct tasks) (id : Str) :
    markDoneOne Z now tasks id = some (tasks.filterMap (doneTask Z now [id])) := by
  have hself : ∀ task, findTask tasks id = some task → ∀ x ∈ tasks, isTask id x = true → x = task := by
    intro task hf x hx hxt
    have := (findTask_eq_some h).mpr ⟨hx, hxt⟩
    rw [hf] at this
    exact (Option.some.inj this).symm
  rcases markDoneOne_cases Z now tasks id with ⟨hf, hm⟩ | ⟨task, hf, ⟨h0, hm⟩ | ⟨t, hpos, hn, -, hm⟩⟩
  · rw [hm, List.filterMap_congr (g := some) fun x hx => doneTask_of_ne fun i hi => ?_, List.filterMap_some]
    rw [List.mem_singleton.mp hi]
    simpa using List.find?_eq_none.mp hf x hx
  · rw [hm, removeTask_eq h, ← List.filterMap_eq_filter]
    refine congrArg some (List.filterMap_congr fun x hx => ?_)
    by_cases hx' : isTask id x = true
    · obtain rfl := hself task hf x hx hx'
      simp [doneTask, hx', h0]
    · simp [doneTask, hx']
  · rw [hm, onTask_eq h, ← List.filterMap_eq_map]
    refine congrArg some (List.filterMap_congr fun x hx => ?_)
    by_cases hx' : isTask id x = true
    · obtain rfl := hself task hf x hx hx'
      simp [doneTask, hx', hn, show ¬ intervalSeconds (x.jStr (lit "recurring")) ≤ 0 by omega]
    · simp [doneTask, hx']

/-- A task is not named and stays, is named and one-shot and goes, or is named and
    recurring and moves to its next run. -/
theorem doneTask_cases (Z : Zone) (now : Int) (ids : List Str) (task : Json) :
    (∀ id ∈ ids, isTask id task = false) ∧ doneTask Z now ids task = some task ∨
    (∃ id ∈ ids, isTask id task = true) ∧
      (intervalSeconds (task.jStr (lit "recurring")) = 0 ∧ doneTask Z now ids task = none ∨
       0 < intervalSeconds (task.jStr (lit "recurring")) ∧ ∃ t, nextRun Z now task = some t ∧ now < t ∧
        doneTask Z now ids task = some (task.setString (lit "run_at") (formatTime Z t false))) := by
  by_cases hn : ∃ id ∈ ids, isTask id task = true
  · refine Or.inr ⟨hn, ?_⟩
    have hany : ids.any (isTask · task) = true := by simpa using hn
    rcases intervalSeconds_cases (task.jStr (lit "recurring")) with h0 | hpos
    · exact Or.inl ⟨h0, by simp [doneTask, hany, h0]⟩
    · obtain ⟨t, ht, hlt⟩ := nextRun_spec Z now hpos
      refine Or.inr ⟨hpos, t, ht, hlt, ?_⟩
      simp [doneTask, hany, ht, show ¬ intervalSeconds (task.jStr (lit "recurring")) ≤ 0 by omega]
  · have hne : ∀ id ∈ ids, isTask id task = false := by simpa using hn
    exact Or.inl ⟨hne, doneTask_of_ne hne⟩

theorem doneTask_id {Z : Zone} {now : Int} {ids : List Str} {task x : Json} (hr : task.IsRecord)
    (h : doneTask Z now ids task = some x) : x.IsRecord ∧ x.jStr (lit "id") = task.jStr (lit "id") := by
  rcases doneTask_cases Z now ids task with ⟨-, hd⟩ | ⟨-, ⟨-, hd⟩ | ⟨-, t, -, -, hd⟩⟩
  · rw [hd] at h
    cases h
    exact ⟨hr, rfl⟩
  · rw [hd] at h
    cases h
  · rw [hd] at h
    cases h
    refine ⟨Json.isRecord_setItem hr _ _, ?_⟩
    rw [Json.jStr_setString hr]
    rfl

theorem Distinct.filterMap {tasks : List Json} (h : Distinct tasks) {g : Json → Option Json}
    (hg : ∀ task ∈ tasks, ∀ x, g task = some x → x.jStr (lit "id") = task.jStr (lit "id")) :
    Distinct (tasks.filterMap g) := by
  induction tasks with
  | nil => exact List.nodup_nil
  | cons task tasks ih =>
    have ih := ih h.tail fun x hx => hg x (List.mem_cons_of_mem _ hx)
    cases hgt : g task with
    | none => simpa [hgt] using ih
    | some x =>
      rw [List.filterMap_cons_some hgt]
      refine List.nodup_cons.mpr ⟨fun hmem => ?_, ih⟩
      obtain ⟨y, hy, hyid⟩ := List.mem_map.mp hmem
      obtain ⟨z, hz, hzy⟩ := List.mem_filterMap.mp hy
      have hz' := hg z (List.mem_cons_of_mem _ hz) y hzy
      have hx := hg task List.mem_cons_self x hgt
      exact (List.nodup_cons.mp h).1 (List.mem_map.mpr ⟨z, hz, hz'.symm.trans (hyid.trans hx)⟩)

/-- On records with distinct ids, `sched_mark_done` works task by task. -/
theorem foldlM_markDoneOne {Z : Zone} {now : Int} {ids : List Str} (hids : ids.Nodup) :
    ∀ {tasks : List Json}, Distinct tasks → (∀ task ∈ tasks, task.IsRecord) →
      ids.foldlM (markDoneOne Z now) tasks = some (tasks.filterMap (doneTask Z now ids)) := by
  induction ids with
  | nil =>
    intro tasks _ _
    rw [List.filterMap_congr (g := some) fun x _ => doneTask_of_ne (by simp), List.filterMap_some]
    rfl
  | cons id ids ih =>
    intro tasks hd hr
    have hstep : ∀ task ∈ tasks, ∀ x, doneTask Z now [id] task = some x →
        x.IsRecord ∧ x.jStr (lit "id") = task.jStr (lit "id") := fun task ht x hx => doneTask_id (hr task ht) hx
    have ih := ih hids.of_cons (hd.filterMap fun task ht x hx => (hstep task ht x hx).2) (fun x hx => by
      obtain ⟨task, ht, hx⟩ := List.mem_filterMap.mp hx
      exact (hstep task ht x hx).1)
    rw [List.foldlM_cons, markDoneOne_eq hd id]
    refine ih.trans (congrArg some ?_)
    rw [List.filterMap_filterMap]
    refine List.filterMap_congr fun task ht => ?_
    by_cases hid : isTask id task = true
    · -- the other ids do not name this task
      have hrest : ∀ x, x.jStr (lit "id") = task.jStr (lit "id") → ∀ i ∈ ids, isTask i x = false := by
        intro x hx i hi
        by_contra hne
        have := isTask_iff.mp (Bool.not_eq_false _ ▸ hne)
        rw [hx, isTask_iff.mp hid] at this
        exact (List.nodup_cons.mp hids).1 (Option.some.inj this ▸ hi)
      have hsame : doneTask Z now (id :: ids) task = doneTask Z now [id] task := by
        simp [doneTask, hid]
      rw [hsame]
      cases hdt : doneTask Z now [id] task with
      | none => rfl
      | some x => exact doneTask_of_ne (hrest x (hstep task ht x hdt).2)
    · have hne : doneTask Z now [id] task = some task := doneTask_of_ne (by simpa using hid)
      rw [hne]
      simp [doneTask, hid]

/-! ## The schedule check and the sessions -/

/-- Where the main thread stands: `sched_get_due` returned these tasks; a session was
    started for them, or failed to start. -/
inductive Phase where
  | idle
  | due (tasks : List Json)
  | started (tasks : List Json)

/-- A task's id and the instant its run time denotes. -/
abbrev Firing := Option Str × Int

def firing (Z : Zone) (task : Json) : Firing := (task.jStr (lit "id"), runTime Z task)

structure Check where
  now : Nat
  file : File
  phase : Phase
  used : List Str
  fired : List Firing
  pinned : List Firing

inductive Ev where
  | tick (d : Nat)
  | add (read : Nat) (tid : Str) (saved : Bool) (runAt desc prompt interval : Option Str)
  | update (saved : Bool) (id runAt desc prompt interval : Option Str)
  | cancel (saved : Bool) (id : Option Str)
  | getDue (read : Nat)
  | start (created : Bool)
  | markDone (saved : Bool)

variable (J : CJson) (Z : Zone) (path : Str)

def stored (f : File) : List Json := (loadTasks J f).getD []

/-- The pins after an update of `id` that returned `updated` and left the file `f`: a run
    time it set is pinned if it is to come. -/
def repin (s : Check) (id runAt : Option Str) (f : File) : List Firing :=
  if given runAt then
    s.pinned.filter (·.1 ≠ id) ++
      (((stored J f).filter (isTask (id.getD []))).map (firing Z)).filter (decide <| (s.now : Int) < ·.2)
  else s.pinned

/-- The ids `dispatch` collects from the due tasks. -/
def dueIds (tasks : List Json) : List Str := tasks.filterMap (·.jStr (lit "id"))

def checkStep (s : Check) : Ev → Option Check
  | .tick d => some { s with now := s.now + d }
  | .add seen tid saved runAt desc prompt interval =>
    if seen ≤ s.now then
      (schedAdd J Z path seen tid saved runAt desc prompt interval s.file).map fun r =>
        { s with file := r.1, used := tid :: s.used }
    else none
  | .update saved id runAt desc prompt interval =>
    (schedUpdate J Z path s.now saved id runAt desc prompt interval s.file).map fun r =>
      { s with file := r.1, pinned := if startsWith r.2 (lit "Error") then s.pinned else repin J Z s id runAt r.1 }
  | .cancel saved id =>
    let r := schedCancel J path saved id s.file
    some { s with
      file := r.1, pinned := if startsWith r.2 (lit "Error") then s.pinned else s.pinned.filter (·.1 ≠ id) }
  | .getDue seen =>
    match s.phase with
    | .idle =>
      if seen ≤ s.now then
        let tasks := schedGetDue J Z seen s.file
        -- a pin that came due is the session's now
        some { s with
          phase := if tasks.length > 0 then .due tasks else .idle, pinned := s.pinned.filter ((seen : Int) < ·.2) }
      else none
    | _ => none
  | .start created =>
    match s.phase with
    | .due tasks =>
      some { s with phase := .started tasks, fired := if created then s.fired ++ tasks.map (firing Z) else s.fired }
    | _ => none
  | .markDone saved =>
    match s.phase with
    | .started tasks =>
      (schedMarkDone J Z s.now saved (dueIds tasks) s.file).map fun f =>
        { s with file := f, phase := .idle, pinned := s.pinned.filter (· ∈ (stored J f).map (firing Z)) }
    | _ => none

/-- From a missing file. -/
def checks : System Check Ev where
  init := ⟨0, none, .idle, [], [], []⟩
  step := checkStep J Z path

/-- `uuid_short` returns no id twice. -/
def Fresh (s : Check) : Ev → Prop
  | .add _ tid _ _ _ _ _ => tid ∉ s.used
  | _ => True

/-- The tasks the main thread holds. -/
def Phase.tasks : Phase → List Json
  | .idle => []
  | .due tasks => tasks
  | .started tasks => tasks

/-! ## The file is a list of records with distinct ids -/

structure Sound (s : Check) : Prop where
  loads : loadTasks J s.file = some (stored J s.file)
  records : ∀ task ∈ stored J s.file, task.IsRecord
  distinct : Distinct (stored J s.file)
  used : ∀ task ∈ stored J s.file ++ s.phase.tasks, ∃ id ∈ s.used, task.jStr (lit "id") = some id
  held : Distinct s.phase.tasks

theorem stored_of_loads {J : CJson} {f : File} {tasks : List Json} (h : loadTasks J f = some tasks) :
    stored J f = tasks := by
  rw [stored, h]
  rfl

theorem dueIds_nodup {tasks : List Json} (h : Distinct tasks) : (dueIds tasks).Nodup := by
  have : dueIds tasks = (tasks.map (·.jStr (lit "id"))).filterMap id := by
    rw [dueIds, List.filterMap_map]
    rfl
  rw [this]
  exact List.Nodup.filterMap (fun a b c hb hc => by
    simp only [id_eq, Option.mem_def] at hb hc
    rw [hb, hc]) h

theorem mem_dueIds {tasks : List Json} {id : Str} : id ∈ dueIds tasks ↔ ∃ x ∈ tasks, x.jStr (lit "id") = some id :=
  List.mem_filterMap

/-! ## What each call does to the list -/

theorem newTask_id (now : Int) (tid runAt desc : Str) (prompt interval : Option Str) :
    (newTask Z now tid runAt desc prompt interval).jStr (lit "id") = some tid := rfl

/-- `sched_add` changes nothing or appends one task. -/
theorem add_stored {s : Check} {now : Int} {tid : Str} {saved : Bool}
    {runAt desc prompt interval : Option Str} {r : File × Str}
    (h : schedAdd J Z path now tid saved runAt desc prompt interval s.file = some r) :
    r.1 = s.file ∨ ∃ task, loadTasks J r.1 = some (stored J s.file ++ [task]) ∧ task.IsRecord ∧
      task.jStr (lit "id") = some tid := by
  rcases schedAdd_cases J h with ⟨hsame, -⟩ | ⟨tasks, r', hl, -, -, -, hsave, -⟩
  · exact Or.inl hsame
  · rw [stored_of_loads hl, hsave]
    exact Or.inr ⟨_, loadTasks_saved .., newTask_isRecord .., newTask_id ..⟩

/-- `sched_update` fails and changes nothing, or sets the fields of one task. A run time
    it sets is to come, or invalid. -/
theorem update_stored {s : Check} (hs : Sound J s) {saved : Bool} {id runAt desc prompt interval : Option Str}
    {r : File × Str} (h : schedUpdate J Z path s.now saved id runAt desc prompt interval s.file = some r) :
    r.1 = s.file ∧ startsWith r.2 (lit "Error") = true ∨
    ∃ g : Json → Json, some (id.getD []) = id ∧ startsWith r.2 (lit "Error") = false ∧
      loadTasks J r.1 = some ((stored J s.file).map fun task => if isTask (id.getD []) task then g task else task) ∧
      ∀ task : Json, task.IsRecord → (g task).IsRecord ∧ (g task).jStr (lit "id") = task.jStr (lit "id") ∧
        if given runAt then (s.now : Int) < runTime Z (g task) ∨ runTime Z (g task) = 0
        else runTime Z (g task) = runTime Z task := by
  rcases schedUpdate_cases J h with hsame | ⟨tasks, task, r', hl, hg, hf, hc, hsave, htext⟩
  · exact Or.inl hsame
  · have hst := stored_of_loads hl
    refine Or.inr ⟨updateTask r' desc prompt interval, (getD_of_given hg).1, by rw [htext]; rfl, ?_, ?_⟩
    · rw [hsave, loadTasks_saved, onTask_eq (hst ▸ hs.distinct), hst]
    · intro x hx
      obtain ⟨hrec, hget⟩ := updateTask_spec hx r' desc prompt interval
      refine ⟨hrec, by simp +decide [Json.jStr, hget], ?_⟩
      by_cases hr : given runAt = true
      · obtain ⟨hgr, ht⟩ := checkTask_time (by omega) hc hr
        have hrt : runTime Z (updateTask r' desc prompt interval x) = schedParseTime Z r' := by
          simp +decide [runTime, Json.jStr, hget, hgr, (getD_of_given hgr).1]
        rw [if_pos hr, hrt]
        exact ht.imp_right And.left
      · have hgr := checkTask_absent hc (by simpa using hr)
        rw [if_neg hr]
        simp +decide [runTime, Json.jStr, hget, hgr]

/-- `sched_cancel` changes nothing or removes one task. -/
theorem cancel_stored {s : Check} (hs : Sound J s) (saved : Bool) (id : Option Str) :
    (schedCancel J path saved id s.file).1 = s.file ∧
      startsWith (schedCancel J path saved id s.file).2 (lit "Error") = true ∨
    some (id.getD []) = id ∧ startsWith (schedCancel J path saved id s.file).2 (lit "Error") = false ∧
      loadTasks J (schedCancel J path saved id s.file).1 =
        some ((stored J s.file).filter fun task => !isTask (id.getD []) task) := by
  rcases schedCancel_cases J path saved id s.file with hsame | ⟨tasks, task, hl, hg, -, hsave, htext⟩
  · exact Or.inl hsame
  · have hst := stored_of_loads hl
    exact Or.inr ⟨(getD_of_given hg).1, by rw [htext]; rfl, by rw [hsave, loadTasks_saved, removeTask_eq (hst ▸ hs.distinct), hst]⟩

/-- `sched_mark_done` fails to save, or leaves each task as `doneTask` says. -/
theorem markDone_stored {s : Check} (hs : Sound J s) {tasks : List Json} (hph : s.phase = .started tasks)
    {saved : Bool} {f : File} (h : schedMarkDone J Z s.now saved (dueIds tasks) s.file = some f) :
    saved = false ∧ f = s.file ∨ saved = true ∧
      loadTasks J f = some ((stored J s.file).filterMap (doneTask Z s.now (dueIds tasks))) := by
  have hd : Distinct tasks := by
    have := hs.held
    rwa [hph] at this
  simp only [schedMarkDone, hs.loads] at h
  rw [foldlM_markDoneOne (dueIds_nodup hd) hs.distinct hs.records, Option.map_some, Option.some.injEq] at h
  cases saved with
  | false => exact Or.inl ⟨rfl, h.symm⟩
  | true =>
    rw [← h]
    exact Or.inr ⟨rfl, loadTasks_saved J _ s.file⟩

theorem Sound.of_loads {s : Check} (tasks : List Json) (hl : loadTasks J s.file = some tasks)
    (hr : ∀ task ∈ tasks, task.IsRecord) (hd : Distinct tasks)
    (hu : ∀ task ∈ tasks, ∃ id ∈ s.used, task.jStr (lit "id") = some id)
    (hh : ∀ task ∈ s.phase.tasks, ∃ id ∈ s.used, task.jStr (lit "id") = some id) (hp : Distinct s.phase.tasks) :
    Sound J s := by
  have hst := stored_of_loads hl
  refine ⟨by rw [hst]; exact hl, by rw [hst]; exact hr, by rw [hst]; exact hd, ?_, hp⟩
  intro task ht
  rw [hst] at ht
  rcases List.mem_append.mp ht with ht | ht
  · exact hu task ht
  · exact hh task ht

theorem Sound.stored_used {s : Check} (hs : Sound J s) :
    ∀ task ∈ stored J s.file, ∃ id ∈ s.used, task.jStr (lit "id") = some id :=
  fun task ht => hs.used task (List.mem_append_left _ ht)

theorem Sound.held_used {s : Check} (hs : Sound J s) :
    ∀ task ∈ s.phase.tasks, ∃ id ∈ s.used, task.jStr (lit "id") = some id :=
  fun task ht => hs.used task (List.mem_append_right _ ht)

/-- A step of the check, by what it does to the stored tasks. -/
inductive CheckStep (s : Check) : Ev → Check → Prop where
  | tick (d : Nat) : CheckStep s (.tick d) { s with now := s.now + d }
  | add {f : File} {read : Nat} {tid : Str} {saved : Bool} {runAt desc prompt interval : Option Str}
      (new : Option Json) (hl : loadTasks J f = some (stored J s.file ++ new.toList))
      (hnew : ∀ task ∈ new.toList, task.IsRecord ∧ task.jStr (lit "id") = some tid) :
      CheckStep s (.add read tid saved runAt desc prompt interval) { s with file := f, used := tid :: s.used }
  | updateFails {saved : Bool} {id runAt desc prompt interval : Option Str} :
      CheckStep s (.update saved id runAt desc prompt interval) s
  | update {f : File} {saved : Bool} {id runAt desc prompt interval : Option Str} (g : Json → Json)
      (hid : some (id.getD []) = id)
      (hl : loadTasks J f = some ((stored J s.file).map fun task => if isTask (id.getD []) task then g task else task))
      (hg : ∀ task ∈ stored J s.file, (g task).IsRecord ∧ (g task).jStr (lit "id") = task.jStr (lit "id") ∧
        if given runAt then (s.now : Int) < runTime Z (g task) ∨ runTime Z (g task) = 0
        else runTime Z (g task) = runTime Z task) :
      CheckStep s (.update saved id runAt desc prompt interval) { s with file := f, pinned := repin J Z s id runAt f }
  | cancelFails {saved : Bool} {id : Option Str} : CheckStep s (.cancel saved id) s
  | cancel {f : File} {saved : Bool} {id : Option Str} (hid : some (id.getD []) = id)
      (hl : loadTasks J f = some ((stored J s.file).filter fun task => !isTask (id.getD []) task)) :
      CheckStep s (.cancel saved id) { s with file := f, pinned := s.pinned.filter (·.1 ≠ id) }
  | getDue {read : Nat} (phase : Phase) (hidle : s.phase = .idle) (hread : read ≤ s.now)
      (hphase : phase = .idle ∨ phase = .due ((stored J s.file).filter (isDue Z read))) :
      CheckStep s (.getDue read) { s with phase, pinned := s.pinned.filter ((read : Int) < ·.2) }
  | start {created : Bool} {tasks : List Json} (hph : s.phase = .due tasks) :
      CheckStep s (.start created)
        { s with phase := .started tasks, fired := if created then s.fired ++ tasks.map (firing Z) else s.fired }
  | markFails {tasks : List Json} (hph : s.phase = .started tasks) :
      CheckStep s (.markDone false)
        { s with phase := .idle, pinned := s.pinned.filter (· ∈ (stored J s.file).map (firing Z)) }
  | mark {f : File} {tasks : List Json} (hph : s.phase = .started tasks)
      (hl : loadTasks J f = some ((stored J s.file).filterMap (doneTask Z s.now (dueIds tasks)))) :
      CheckStep s (.markDone true)
        { s with file := f, phase := .idle, pinned := s.pinned.filter (· ∈ (stored J f).map (firing Z)) }

theorem checkStep_cases {s s' : Check} {e : Ev} (hs : Sound J s) (h : checkStep J Z path s e = some s') :
    CheckStep J Z s e s' := by
  cases e with
  | tick d =>
    cases h
    exact .tick d
  | add read tid saved runAt desc prompt interval =>
    simp only [checkStep] at h
    split at h
    swap
    · cases h
    obtain ⟨r, hr, rfl⟩ := Option.map_eq_some_iff.mp h
    rcases add_stored J Z path hr with hsame | ⟨task, hl, hrec, hid⟩
    · refine .add none ?_ (by simp)
      rw [hsame, hs.loads]
      simp
    · exact .add (some task) hl fun x hx => List.mem_singleton.mp hx ▸ ⟨hrec, hid⟩
  | update saved id runAt desc prompt interval =>
    obtain ⟨r, hr, rfl⟩ := Option.map_eq_some_iff.mp h
    rcases update_stored J Z path hs hr with ⟨hsame, herr⟩ | ⟨g, hid, herr, hl, hg⟩
    · simp only [hsame, herr, if_true]
      exact .updateFails
    · simp only [herr, Bool.false_eq_true, if_false]
      exact .update g hid hl fun task ht => hg task (hs.records task ht)
  | cancel saved id =>
    cases h
    rcases cancel_stored J path hs saved id with ⟨hsame, herr⟩ | ⟨hid, herr, hl⟩
    · simp only [hsame, herr, if_true]
      exact .cancelFails
    · simp only [herr, Bool.false_eq_true, if_false]
      exact .cancel hid hl
  | getDue read =>
    simp only [checkStep] at h
    split at h
    swap
    · cases h
    rename_i hidle
    split at h
    swap
    · cases h
    rename_i hread
    cases h
    refine .getDue _ hidle hread ?_
    split
    · exact Or.inr rfl
    · exact Or.inl rfl
  | start created =>
    simp only [checkStep] at h
    split at h
    swap
    · cases h
    rename_i tasks hph
    cases h
    exact .start hph
  | markDone saved =>
    simp only [checkStep] at h
    split at h
    swap
    · cases h
    rename_i tasks hph
    obtain ⟨f, hm, rfl⟩ := Option.map_eq_some_iff.mp h
    rcases markDone_stored J Z hs hph hm with ⟨rfl, rfl⟩ | ⟨rfl, hl⟩
    · exact .markFails hph
    · exact .mark hph hl

theorem checkStep_sound {s s' : Check} {e : Ev} (hs : Sound J s) (hfresh : Fresh s e)
    (h : checkStep J Z path s e = some s') : Sound J s' := by
  have hstored := hs.stored_used J
  have hheld := hs.held_used J
  cases checkStep_cases J Z path hs h with
  | tick d => exact ⟨hs.loads, hs.records, hs.distinct, hs.used, hs.held⟩
  | @add f _ tid _ _ _ _ _ new hl hnew =>
    have weaken : ∀ {task : Json}, (∃ id ∈ s.used, task.jStr (lit "id") = some id) →
        ∃ id ∈ tid :: s.used, task.jStr (lit "id") = some id :=
      fun ⟨id, hid, ht⟩ => ⟨id, List.mem_cons_of_mem _ hid, ht⟩
    refine Sound.of_loads J _ hl ?_ ?_ ?_ (fun task ht => weaken (hheld task ht)) hs.held
    · intro x hx
      rcases List.mem_append.mp hx with hx | hx
      · exact hs.records x hx
      · exact (hnew x hx).1
    · -- its id is new
      rw [Distinct, List.map_append, List.nodup_append]
      refine ⟨hs.distinct, by cases new <;> simp, fun a ha b hb hab => ?_⟩
      obtain ⟨x, hx, rfl⟩ := List.mem_map.mp ha
      obtain ⟨y, hy, rfl⟩ := List.mem_map.mp hb
      obtain ⟨id, hidu, hxid⟩ := hstored x hx
      rw [hab, (hnew y hy).2] at hxid
      exact hfresh (Option.some.inj hxid ▸ hidu)
    · intro x hx
      rcases List.mem_append.mp hx with hx | hx
      · exact weaken (hstored x hx)
      · exact ⟨tid, List.mem_cons_self, (hnew x hx).2⟩
  | updateFails | cancelFails => exact hs
  | @update f saved id runAt desc prompt interval g hid hl hg =>
    have hone : ∀ task ∈ stored J s.file, (if isTask (id.getD []) task then g task else task).IsRecord ∧
        (if isTask (id.getD []) task then g task else task).jStr (lit "id") = task.jStr (lit "id") := by
      intro task ht
      split
      · exact ⟨(hg task ht).1, (hg task ht).2.1⟩
      · exact ⟨hs.records task ht, rfl⟩
    refine Sound.of_loads J _ hl ?_ ?_ ?_ hheld hs.held
    · intro x hx
      obtain ⟨task, ht, rfl⟩ := List.mem_map.mp hx
      exact (hone task ht).1
    · have hmap := List.map_congr_left fun task ht => (hone task ht).2
      rw [Distinct, List.map_map]
      exact hmap ▸ hs.distinct
    · intro x hx
      obtain ⟨task, ht, rfl⟩ := List.mem_map.mp hx
      rw [(hone task ht).2]
      exact hstored task ht
  | cancel hid hl =>
    exact Sound.of_loads J _ hl (fun x hx => hs.records x (List.mem_of_mem_filter hx))
      (hs.distinct.sublist (List.filter_sublist.map _)) (fun x hx => hstored x (List.mem_of_mem_filter hx))
      hheld hs.held
  | getDue phase hidle hread hphase =>
    rcases hphase with rfl | rfl
    · exact Sound.of_loads J _ hs.loads hs.records hs.distinct hstored (by simp [Phase.tasks]) List.nodup_nil
    · exact Sound.of_loads J _ hs.loads hs.records hs.distinct hstored
        (fun x hx => hstored x (List.mem_of_mem_filter hx)) (hs.distinct.sublist (List.filter_sublist.map _))
  | start hph =>
    have hd := hs.held
    rw [hph] at hheld hd
    exact Sound.of_loads J _ hs.loads hs.records hs.distinct hstored hheld hd
  | markFails hph =>
    exact Sound.of_loads J _ hs.loads hs.records hs.distinct hstored (by simp [Phase.tasks]) List.nodup_nil
  | mark hph hl =>
    refine Sound.of_loads J _ hl ?_ ?_ ?_ (by simp [Phase.tasks]) List.nodup_nil
    · intro x hx
      obtain ⟨task, ht, hx⟩ := List.mem_filterMap.mp hx
      exact (doneTask_id (hs.records task ht) hx).1
    · exact hs.distinct.filterMap fun task ht x hx => (doneTask_id (hs.records task ht) hx).2
    · intro x hx
      obtain ⟨task, ht, hx⟩ := List.mem_filterMap.mp hx
      rw [(doneTask_id (hs.records task ht) hx).2]
      exact hstored task ht

theorem reach_sound {ok : Check → Ev → Prop} (hok : ∀ s e, ok s e → Fresh s e) {s : Check}
    (h : (checks J Z path).Reach ok s) : Sound J s :=
  h.invariant (I := Sound J)
    (Sound.of_loads J (s := ⟨0, none, .idle, [], [], []⟩) [] rfl (by simp) List.nodup_nil (by simp)
      (by simp [Phase.tasks]) List.nodup_nil)
    fun s e s' hs he hstep => checkStep_sound J Z path hs (hok s e he) hstep

/-! ## No occurrence fires twice -/

/-- The call's save succeeds. -/
def Saved : Ev → Prop
  | .add _ _ saved _ _ _ _ => saved = true
  | .update saved _ _ _ _ _ => saved = true
  | .cancel saved _ => saved = true
  | .markDone saved => saved = true
  | _ => True

/-- What fired is past, and only a task the main thread is about to mark done still has
    the run time that fired. -/
structure Fires (s : Check) : Prop where
  past : ∀ p ∈ s.fired, (∃ id ∈ s.used, p.1 = some id) ∧ 0 < p.2 ∧ p.2 ≤ s.now
  nodup : s.fired.Nodup
  stale : ∀ task ∈ stored J s.file, firing Z task ∈ s.fired →
    ∃ tasks, s.phase = .started tasks ∧ ∃ x ∈ tasks, x.jStr (lit "id") = task.jStr (lit "id")
  due : ∀ tasks, s.phase = .due tasks → ∀ x ∈ tasks, firing Z x ∉ s.fired ∧ 0 < runTime Z x ∧ runTime Z x ≤ s.now

/-- A run time to come did not fire, nor did an invalid one. -/
theorem Fires.not_fired {s : Check} (hi : Fires J Z s) {task : Json}
    (h : (s.now : Int) < runTime Z task ∨ runTime Z task = 0) : firing Z task ∉ s.fired := by
  intro hmem
  obtain ⟨-, h0, h1⟩ := hi.past _ hmem
  simp only [firing] at h0 h1
  omega

/-- Unless the main thread is about to mark tasks done, nothing stored has fired. -/
theorem Fires.none_fired {s : Check} (hi : Fires J Z s) (hph : ∀ tasks, s.phase ≠ .started tasks) :
    ∀ task ∈ stored J s.file, firing Z task ∉ s.fired :=
  fun task ht hf =>
    have ⟨tasks, hst, _⟩ := hi.stale task ht hf
    hph tasks hst

theorem runTime_setString {task : Json} (hr : task.IsRecord) (t : Int) :
    runTime Z (task.setString (lit "run_at") (formatTime Z t false)) = schedParseTime Z (some (formatTime Z t false)) := by
  rw [runTime, Json.jStr_setString hr]
  simp

/-- The next run of a task that was marked done is to come, or prints as no time. -/
theorem runTime_doneTask {now t : Int} {task : Json} (hr : task.IsRecord) (hnow : 0 ≤ now) (hlt : now < t) :
    now < runTime Z (task.setString (lit "run_at") (formatTime Z t false)) ∨
      runTime Z (task.setString (lit "run_at") (formatTime Z t false)) = 0 := by
  rw [runTime_setString Z hr]
  rcases parse_format_cases Z (show 0 ≤ t by omega) with hp | hp
  · exact Or.inl (by omega)
  · exact Or.inr hp

theorem checkStep_fires {s s' : Check} {e : Ev} (hs : Sound J s) (hi : Fires J Z s) (hfresh : Fresh s e)
    (hsaved : Saved e) (h : checkStep J Z path s e = some s') : Fires J Z s' := by
  cases checkStep_cases J Z path hs h with
  | tick d =>
    refine ⟨fun p hp => ?_, hi.nodup, hi.stale, fun tasks ht x hx => ?_⟩
    · obtain ⟨hu, h0, h1⟩ := hi.past p hp
      exact ⟨hu, h0, by push_cast; omega⟩
    · obtain ⟨hn, h0, h1⟩ := hi.due tasks ht x hx
      exact ⟨hn, h0, by push_cast; omega⟩
  | add new hl hnew =>
    refine ⟨fun p hp => ?_, hi.nodup, fun x hx hf => ?_, hi.due⟩
    · obtain ⟨⟨id, hid, he⟩, hrest⟩ := hi.past p hp
      exact ⟨⟨id, List.mem_cons_of_mem _ hid, he⟩, hrest⟩
    · rw [stored_of_loads hl] at hx
      rcases List.mem_append.mp hx with hx | hx
      · exact hi.stale x hx hf
      · -- a new id has not fired
        obtain ⟨⟨id, hidu, he⟩, -⟩ := hi.past _ hf
        rw [firing, (hnew x hx).2] at he
        exact absurd (Option.some.inj he ▸ hidu) hfresh
  | updateFails | cancelFails => exact hi
  | @update f saved id runAt desc prompt interval g hid hl hg =>
    refine ⟨hi.past, hi.nodup, fun x hx hf => ?_, hi.due⟩
    rw [stored_of_loads hl] at hx
    obtain ⟨task, ht, rfl⟩ := List.mem_map.mp hx
    obtain ⟨-, hgid, hrt⟩ := hg task ht
    by_cases hnamed : isTask (id.getD []) task = true
    · rw [if_pos hnamed] at hf ⊢
      rw [hgid]
      split at hrt
      · exact absurd hf (hi.not_fired J Z hrt)
      · rw [firing, hgid, hrt] at hf
        exact hi.stale task ht hf
    · rw [if_neg hnamed] at hf ⊢
      exact hi.stale task ht hf
  | cancel hid hl =>
    refine ⟨hi.past, hi.nodup, fun x hx hf => ?_, hi.due⟩
    rw [stored_of_loads hl] at hx
    exact hi.stale x (List.mem_of_mem_filter hx) hf
  | getDue phase hidle hread hphase =>
    have hnone := hi.none_fired J Z (by simp [hidle])
    refine ⟨hi.past, hi.nodup, fun x hx hf => absurd hf (hnone x hx), fun tasks ht x hx => ?_⟩
    obtain rfl : phase = .due tasks := ht
    rcases hphase with hphase | hphase
    · cases hphase
    · cases hphase
      obtain ⟨hxs, hdue⟩ := List.mem_filter.mp hx
      simp only [isDue, Bool.and_eq_true, decide_eq_true_eq] at hdue
      refine ⟨hnone x hxs, hdue.1, ?_⟩
      show runTime Z x ≤ s.now
      omega
  | @start created tasks hph =>
    have hheld := hs.held_used J
    have hd := hs.held
    rw [hph] at hheld hd
    have hnone := hi.none_fired J Z (by simp [hph])
    cases created with
    | false => exact ⟨hi.past, hi.nodup, fun x hx hf => absurd hf (hnone x hx), fun _ ht => by cases ht⟩
    | true =>
      refine ⟨fun p hp => ?_, ?_, fun x hx hf => ⟨tasks, rfl, ?_⟩, fun _ ht => by cases ht⟩
      · rcases List.mem_append.mp hp with hp | hp
        · exact hi.past p hp
        · obtain ⟨x, hx, rfl⟩ := List.mem_map.mp hp
          exact ⟨hheld x hx, (hi.due tasks hph x hx).2⟩
      · simp only [if_true]
        rw [List.nodup_append]
        refine ⟨hi.nodup, ?_, fun p hp q hq hpq => ?_⟩
        · -- distinct ids, so distinct pairs
          exact List.Nodup.of_map Prod.fst (by rw [List.map_map]; exact hd)
        · obtain ⟨x, hx, rfl⟩ := List.mem_map.mp hq
          exact (hi.due tasks hph x hx).1 (hpq ▸ hp)
      · rcases List.mem_append.mp hf with hf | hf
        · exact absurd hf (hnone x hx)
        · obtain ⟨y, hy, heq⟩ := List.mem_map.mp hf
          exact ⟨y, hy, congrArg Prod.fst heq⟩
  | markFails hph => cases hsaved
  | @mark f tasks hph hl =>
    refine ⟨hi.past, hi.nodup, fun x hx hf => ?_, fun _ ht => by cases ht⟩
    rw [stored_of_loads hl] at hx
    obtain ⟨task, ht, hx⟩ := List.mem_filterMap.mp hx
    rcases doneTask_cases Z s.now (dueIds tasks) task with ⟨hne, hd⟩ | ⟨-, ⟨-, hd⟩ | ⟨-, t, -, hlt, hd⟩⟩
    · -- not named: had it fired, it would be
      obtain rfl : task = x := Option.some.inj (hd.symm.trans hx)
      obtain ⟨tasks', hst, y, hy, hyid⟩ := hi.stale task ht hf
      rw [hph] at hst
      cases hst
      obtain ⟨id, -, hid⟩ := hs.stored_used J task ht
      have := hne id (mem_dueIds.mpr ⟨y, hy, hyid.trans hid⟩)
      rw [isTask_iff.mpr hid] at this
      cases this
    · rw [hd] at hx
      cases hx
    · rw [hd] at hx
      cases hx
      exact absurd hf (hi.not_fired J Z (runTime_doneTask Z (hs.records task ht) (by omega) hlt))

/-- In every run with fresh ids and successful saves, each pair of a task id and an instant
    is handed to at most one session. -/
theorem fires_once {s : Check} (h : (checks J Z path).Reach (fun s e => Fresh s e ∧ Saved e) s) : s.fired.Nodup := by
  have hi : Fires J Z s := System.Reach.invariant_of (J := Sound J)
    (fun s hs => reach_sound J Z path (fun _ _ hok => hok.1) hs)
    ⟨by simp [checks], List.nodup_nil, by simp [checks], by simp [checks]⟩
    (fun s e s' hs hi hok hstep => checkStep_fires J Z path hs hi hok.1 hok.2 hstep) h
  exact hi.nodup

/-- Add a task for one minute past the epoch. -/
def addTask (interval : Option Str) : Ev :=
  .add 0 (lit "t1") true (some (lit "1970-01-01T00:01:00Z")) (some (lit "x")) none interval

instance (s : Check) (e : Ev) : Decidable (Fresh s e) :=
  match e with
  | .add _ tid _ _ _ _ _ => inferInstanceAs (Decidable (tid ∉ s.used))
  | .tick _ | .update .. | .cancel .. | .getDue _ | .start _ | .markDone _ => inferInstanceAs (Decidable True)

instance (e : Ev) : Decidable (Saved e) :=
  match e with
  | .add _ _ saved _ _ _ _ | .update saved _ _ _ _ _ | .cancel saved _ | .markDone saved =>
    inferInstanceAs (Decidable (saved = true))
  | .tick _ | .getDue _ | .start _ => inferInstanceAs (Decidable True)

def twoDays : List Ev :=
  [.tick 60, .getDue 60, .start true, .markDone true, .tick 86400, .getDue 86460, .start true]

/-- A daily task fires on two days. -/
theorem fires_once_daily : ∃ s, (checks CJson.compact Zone.utc []).Reach (fun s e => Fresh s e ∧ Saved e) s ∧
    s.fired = [(some (lit "t1"), 60), (some (lit "t1"), 86460)] ∧ s.fired.Nodup := by
  have hrun : ((checks CJson.compact Zone.utc []).replay (fun s e => Fresh s e ∧ Saved e)
      ⟨0, none, .idle, [], [], []⟩ (addTask (some (lit "daily")) :: twoDays)).map (·.fired) =
        some [(some (lit "t1"), 60), (some (lit "t1"), 86460)] := by decide +kernel
  obtain ⟨s, hs, hfired⟩ := Option.map_eq_some_iff.mp hrun
  have hreach := System.Reach.init.replay hs
  exact ⟨s, hreach, hfired, fires_once CJson.compact Zone.utc [] hreach⟩

/-! ## Updates between the check and the mark -/

/-- Everything but the run time is the same. -/
def SameFields (task task' : Json) : Prop :=
  ∀ k, strcaseeq (lit "run_at") k = false → task'.getObjectItem k = task.getObjectItem k

/-- From `s` to `s'`, every task that is not due is still stored, a run time to come
    included, and every pinned run time is in force. -/
def Kept (s s' : Check) : Prop :=
  (∀ task ∈ stored J s.file, isDue Z s.now task = false → ∃ task' ∈ stored J s'.file, SameFields task task' ∧
    ((s.now : Int) < runTime Z task → runTime Z task' = runTime Z task)) ∧
  ∀ p ∈ s.pinned, ∃ task ∈ stored J s.file, firing Z task = p ∧
    ∃ task' ∈ stored J s'.file, SameFields task task' ∧ runTime Z task' = runTime Z task

/-- A task that was due at the check and is not any more, or whose run time was set since, is
    recurring, and a run time to come lies before the year 10000. -/
def Reschedules (s : Check) : Prop :=
  ∀ task ∈ stored J s.file, (∃ id ∈ dueIds s.phase.tasks, isTask id task = true) →
    (isDue Z s.now task = false → 0 < intervalSeconds (task.jStr (lit "recurring")) ∧
      ((s.now : Int) < runTime Z task → runTime Z task < year10000)) ∧
    (firing Z task ∈ s.pinned → 0 < intervalSeconds (task.jStr (lit "recurring")) ∧
      (s.now : Int) < runTime Z task ∧ runTime Z task < year10000)

/-- What `sched_mark_done` keeps of one task; `c` asks for the run time too. -/
theorem doneTask_keeps {task : Json} (hr : task.IsRecord) {now : Int} (hnow : 0 ≤ now) (ids : List Str) {c : Prop}
    (hc : c → 0 < runTime Z task) :
    (∃ x, doneTask Z now ids task = some x ∧ SameFields task x ∧ (c → runTime Z x = runTime Z task)) ↔
      ((∃ id ∈ ids, isTask id task = true) → 0 < intervalSeconds (task.jStr (lit "recurring")) ∧
        (c → now < runTime Z task ∧ runTime Z task < year10000)) := by
  rcases doneTask_cases Z now ids task with ⟨hne, hd⟩ | ⟨hn, ⟨h0, hd⟩ | ⟨hpos, t, ht, hlt, hd⟩⟩
  · refine iff_of_true ⟨task, hd, fun _ _ => rfl, fun _ => rfl⟩ ?_
    rintro ⟨id, hid, hnamed⟩
    rw [hne id hid] at hnamed
    cases hnamed
  · refine iff_of_false (fun ⟨x, hx, _⟩ => ?_) (fun h => ?_)
    · rw [hd] at hx
      cases hx
    · have := (h hn).1
      omega
  · have hfields : SameFields task (task.setString (lit "run_at") (formatTime Z t false)) := by
      intro k hk
      rw [Json.setString, Json.getObjectItem_setItem hr, hk]
      simp
    constructor
    · rintro ⟨x, hx, -, hrt⟩ -
      obtain rfl := Option.some.inj (hd.symm.trans hx)
      refine ⟨hpos, fun hcc => ?_⟩
      have h0 := hc hcc
      have := hrt hcc
      rw [runTime_setString Z hr] at this
      by_cases hlate : t < year10000
      · rw [parse_format Z (by omega) hlate] at this
        omega
      · rw [parse_format_late Z (by omega)] at this
        omega
    · intro h
      refine ⟨_, hd, hfields, fun hcc => ?_⟩
      obtain ⟨hfut, hlate⟩ := (h hn).2 hcc
      rw [nextRun, advance_future hfut] at ht
      obtain rfl := Option.some.inj ht
      rw [runTime_setString Z hr, parse_format Z (by omega) hlate]

/-- A pinned run time is a stored task's. -/
def Pins (s : Check) : Prop := ∀ p ∈ s.pinned, 0 < p.2 ∧ p ∈ (stored J s.file).map (firing Z)

/-- A pin of another id is another task's. -/
theorem not_named_of_firing {id : Option Str} (hid : some (id.getD []) = id) {task : Json}
    (hne : decide ((firing Z task).1 ≠ id) = true) : isTask (id.getD []) task = false := by
  by_contra hcon
  have := isTask_iff.mp (Bool.not_eq_false _ ▸ hcon)
  rw [hid] at this
  simp [firing, this] at hne

theorem checkStep_pins {s s' : Check} {e : Ev} (hs : Sound J s) (hi : Pins J Z s)
    (h : checkStep J Z path s e = some s') : Pins J Z s' := by
  cases checkStep_cases J Z path hs h with
  | tick d => exact hi
  | add new hl hnew =>
    intro p hp
    obtain ⟨h0, hmem⟩ := hi p hp
    refine ⟨h0, ?_⟩
    rw [stored_of_loads hl, List.map_append]
    exact List.mem_append_left _ hmem
  | updateFails | cancelFails => exact hi
  | @update f saved id runAt desc prompt interval g hid hl hg =>
    intro p hp
    simp only [repin] at hp
    split at hp
    · rcases List.mem_append.mp hp with hp | hp
      · -- another task's pin
        obtain ⟨hp, hne⟩ := List.mem_filter.mp hp
        obtain ⟨h0, hmem⟩ := hi p hp
        obtain ⟨task, ht, rfl⟩ := List.mem_map.mp hmem
        refine ⟨h0, ?_⟩
        rw [stored_of_loads hl, List.map_map]
        refine List.mem_map.mpr ⟨task, ht, ?_⟩
        simp [not_named_of_firing Z hid hne]
      · obtain ⟨hp, hlt⟩ := List.mem_filter.mp hp
        have hlt : (s.now : Int) < p.2 := by simpa using hlt
        obtain ⟨task, ht, rfl⟩ := List.mem_map.mp hp
        exact ⟨by omega, List.mem_map_of_mem (List.mem_of_mem_filter ht)⟩
    · rename_i hgiven
      obtain ⟨h0, hmem⟩ := hi p hp
      obtain ⟨task, ht, rfl⟩ := List.mem_map.mp hmem
      refine ⟨h0, ?_⟩
      rw [stored_of_loads hl, List.map_map]
      refine List.mem_map.mpr ⟨task, ht, ?_⟩
      obtain ⟨-, hgid, hrt⟩ := hg task ht
      rw [if_neg hgiven] at hrt
      simp only [Function.comp_apply]
      split
      · rw [firing, hgid, hrt, firing]
      · rfl
  | cancel hid hl =>
    intro p hp
    obtain ⟨hp, hne⟩ := List.mem_filter.mp hp
    obtain ⟨h0, hmem⟩ := hi p hp
    obtain ⟨task, ht, rfl⟩ := List.mem_map.mp hmem
    refine ⟨h0, ?_⟩
    rw [stored_of_loads hl]
    exact List.mem_map_of_mem (List.mem_filter.mpr ⟨ht, by simp [not_named_of_firing Z hid hne]⟩)
  | getDue phase hidle hread hphase => exact fun p hp => hi p (List.mem_of_mem_filter hp)
  | start hph => exact hi
  | markFails hph | mark hph hl =>
    intro p hp
    obtain ⟨hp, hmem⟩ := List.mem_filter.mp hp
    exact ⟨(hi p hp).1, of_decide_eq_true hmem⟩

theorem reach_pins {s : Check} (h : (checks J Z path).Reach Fresh s) : Pins J Z s :=
  System.Reach.invariant_of (J := Sound J) (fun _ hs => reach_sound J Z path (fun _ _ hok => hok) hs)
    (by simp [Pins, checks]) (fun _ _ _ hs hi _ hstep => checkStep_pins J Z path hs hi hstep) h

/-- A stored task that still has a task's fields after the mark is what became of it. -/
theorem doneTask_of_sameFields {s : Check} (hs : Sound J s) {now : Int} {ids : List Str} {task x : Json}
    (ht : task ∈ stored J s.file) (hx : x ∈ (stored J s.file).filterMap (doneTask Z now ids)) (h : SameFields task x) :
    doneTask Z now ids task = some x := by
  obtain ⟨y, hy, hyx⟩ := List.mem_filterMap.mp hx
  have hid : y.jStr (lit "id") = task.jStr (lit "id") := by
    rw [← (doneTask_id (hs.records y hy) hyx).2, Json.jStr, Json.jStr, h (lit "id") (by decide)]
  rwa [List.inj_on_of_nodup_map hs.distinct hy ht hid] at hyx

/-- Whatever the session did since the check: the mark keeps the tasks that are not due and
    the run times updates set exactly when its save fails or it finds those tasks recurring. -/
theorem mark_done_keeps {s s' : Check} {saved : Bool} (h : (checks J Z path).Reach Fresh s)
    (hstep : (checks J Z path).step s (.markDone saved) = some s') :
    Kept J Z s s' ↔ saved = false ∨ Reschedules J Z s := by
  have hs := reach_sound J Z path (fun _ _ hok => hok) h
  have hpins := reach_pins J Z path h
  have hstep : checkStep J Z path s (.markDone saved) = some s' := hstep
  cases checkStep_cases J Z path hs hstep with
  | markFails hph =>
    refine iff_of_true ⟨fun task ht _ => ⟨task, ht, fun _ _ => rfl, fun _ => rfl⟩, fun p hp => ?_⟩ (Or.inl rfl)
    obtain ⟨task, ht, rfl⟩ := List.mem_map.mp (hpins p hp).2
    exact ⟨task, ht, rfl, task, ht, fun _ _ => rfl, rfl⟩
  | @mark f tasks hph hl =>
    have hst := stored_of_loads hl
    have hids : dueIds s.phase.tasks = dueIds tasks := by rw [hph]; rfl
    simp only [Bool.true_eq_false, false_or, Kept, Reschedules, hst, hids]
    constructor
    · rintro ⟨hkeep, hpin⟩ task ht hn
      constructor
      · intro hdue
        obtain ⟨x, hx, hf, hrt⟩ := hkeep task ht hdue
        have := (doneTask_keeps Z (hs.records task ht) (by omega) (dueIds tasks)
          (c := (s.now : Int) < runTime Z task) (by omega)).mp
          ⟨x, doneTask_of_sameFields J Z hs ht hx hf, hf, hrt⟩ hn
        exact ⟨this.1, fun hlt => (this.2 hlt).2⟩
      · intro hp
        obtain ⟨task', ht', heq, x, hx, hf, hrt⟩ := hpin _ hp
        obtain rfl := List.inj_on_of_nodup_map hs.distinct ht' ht (congrArg Prod.fst heq)
        have := (doneTask_keeps Z (hs.records task' ht) (by omega) (dueIds tasks) (c := True)
          (fun _ => (hpins _ hp).1)).mp ⟨x, doneTask_of_sameFields J Z hs ht hx hf, hf, fun _ => hrt⟩ hn
        exact ⟨this.1, this.2 trivial⟩
    · intro hcond
      constructor
      · intro task ht hdue
        obtain ⟨x, hx, hf, hrt⟩ := (doneTask_keeps Z (hs.records task ht) (by omega) (dueIds tasks)
          (c := (s.now : Int) < runTime Z task) (by omega)).mpr fun hn =>
            ⟨((hcond task ht hn).1 hdue).1, fun hlt => ⟨hlt, ((hcond task ht hn).1 hdue).2 hlt⟩⟩
        exact ⟨x, List.mem_filterMap.mpr ⟨task, ht, hx⟩, hf, hrt⟩
      · intro p hp
        obtain ⟨h0, hmem⟩ := hpins p hp
        obtain ⟨task, ht, rfl⟩ := List.mem_map.mp hmem
        obtain ⟨x, hx, hf, hrt⟩ := (doneTask_keeps Z (hs.records task ht) (by omega) (dueIds tasks) (c := True)
          (fun _ => h0)).mpr fun hn => ⟨((hcond task ht hn).2 hp).1, fun _ => ((hcond task ht hn).2 hp).2⟩
        exact ⟨task, ht, rfl, x, List.mem_filterMap.mpr ⟨task, ht, hx⟩, hf, hrt trivial⟩

/-- The session moves the task it was started for to 2030, before it is marked done. -/
def reschedule : List Ev :=
  [.tick 60, .getDue 60, .start true,
   .update true (some (lit "t1")) (some (lit "2030-01-01T00:00:00Z")) none none none]

/-- A daily task keeps the new time. -/
theorem mark_done_keeps_daily : ∃ s s', (checks CJson.compact Zone.utc []).Reach Fresh s ∧
    (checks CJson.compact Zone.utc []).step s (.markDone true) = some s' ∧
    s.pinned = [(some (lit "t1"), 1893456000)] ∧ Kept CJson.compact Zone.utc s s' := by
  have hrun : ((checks CJson.compact Zone.utc []).replay Fresh ⟨0, none, .idle, [], [], []⟩
      (addTask (some (lit "daily")) :: reschedule)).map (fun s => (s.pinned,
        ((checks CJson.compact Zone.utc []).step s (.markDone true)).isSome)) =
      some ([(some (lit "t1"), 1893456000)], true) := by decide +kernel
  have htask : ((checks CJson.compact Zone.utc []).replay Fresh ⟨0, none, .idle, [], [], []⟩
      (addTask (some (lit "daily")) :: reschedule)).map (fun s => (s.now,
        (stored CJson.compact s.file).map fun task =>
          (intervalSeconds (task.jStr (lit "recurring")), runTime Zone.utc task))) =
      some (60, [(86400, 1893456000)]) := by decide +kernel
  obtain ⟨s, hs, heq⟩ := Option.map_eq_some_iff.mp hrun
  rw [hs, Option.map_some, Option.some.injEq, Prod.mk.injEq] at htask
  obtain ⟨hpin, hsome⟩ := Prod.mk.injEq .. ▸ heq
  obtain ⟨hnow, hst⟩ := htask
  obtain ⟨s', hs'⟩ := Option.isSome_iff_exists.mp hsome
  have hreach := System.Reach.init.replay hs
  refine ⟨s, s', hreach, hs', hpin, (mark_done_keeps CJson.compact Zone.utc [] hreach hs').mpr (Or.inr ?_)⟩
  intro task ht _
  have hmem := List.mem_map_of_mem (f := fun task : Json =>
    (intervalSeconds (task.jStr (lit "recurring")), runTime Zone.utc task)) ht
  rw [hst, List.mem_singleton, Prod.mk.injEq] at hmem
  obtain ⟨hsecs, hrt⟩ := hmem
  rw [hsecs, hrt, hnow]
  exact ⟨fun _ => by decide, fun _ => by decide⟩

/-- A one-shot task is deleted: the update that returned `updated` is lost. -/
theorem reschedule_lost : ¬ ∀ s s' saved, (checks CJson.compact Zone.utc []).Reach Fresh s →
    (checks CJson.compact Zone.utc []).step s (.markDone saved) = some s' → Kept CJson.compact Zone.utc s s' := by
  intro hall
  have hrun : ((checks CJson.compact Zone.utc []).replay Fresh ⟨0, none, .idle, [], [], []⟩
      (addTask none :: reschedule)).map (fun s => (s.pinned,
        ((checks CJson.compact Zone.utc []).step s (.markDone true)).map fun s' => stored CJson.compact s'.file)) =
      some ([(some (lit "t1"), 1893456000)], some []) := by decide +kernel
  obtain ⟨s, hs, heq⟩ := Option.map_eq_some_iff.mp hrun
  simp only [Prod.mk.injEq] at heq
  obtain ⟨hpin, hdone⟩ := heq
  obtain ⟨s', hs', hst⟩ := Option.map_eq_some_iff.mp hdone
  have hkept := hall s s' true (System.Reach.init.replay hs) hs'
  obtain ⟨-, -, -, task', ht', -⟩ := hkept.2 (some (lit "t1"), 1893456000) (by rw [hpin]; exact List.mem_cons_self)
  rw [hst] at ht'
  cases ht'

end Shclaw.Scheduler
