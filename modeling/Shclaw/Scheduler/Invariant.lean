/-
  Shclaw.Scheduler.Invariant — what the task store holds after any calls.

  A run starts from a missing file and makes any calls of `sched_add`,
  `sched_update`, `sched_cancel` and `sched_mark_done`, with any arguments, under a
  clock that does not run backwards; any save may fail. `TaskOk` says what every
  stored task is: a record with an id and a description, a run time to come or past
  but never invalid, and an interval that is null or one of the six.

  `store_invariant`: the stored tasks are `TaskOk` as long as no operation rewrites a
  run time to the year 10000 or later. `format_time` then prints a five-digit year,
  which `sched_parse_time` rejects: the task stays in the file and is never due
  (`rewritten_past_9999`). Both advancing loops end in every state.
-/

import Shclaw.JsonText
import Shclaw.Lib.Runs
import Shclaw.Scheduler.Store

namespace Shclaw.Scheduler

open Lib

/-! ## Stored tasks -/

structure TaskOk (Z : Zone) (task : Json) : Prop where
  record : task.IsRecord
  id : (task.jStr (lit "id")).isSome = true
  description : given (task.jStr (lit "description")) = true
  runAt : 0 < runTime Z task
  recurring : task.getObjectItem (lit "recurring") = some .null ∨
    ∃ name ∈ intervals.map (·.1), task.getObjectItem (lit "recurring") = some (.str name)

theorem mem_onTask {id : Str} {g : Json → Json} {tasks : List Json} {x : Json} (h : x ∈ onTask id g tasks) :
    x ∈ tasks ∨ ∃ task, findTask tasks id = some task ∧ x = g task := by
  induction tasks with
  | nil => cases h
  | cons task tasks ih =>
    by_cases ht : isTask id task = true
    · simp only [onTask, List.replaceF_cons, ht, if_true, List.mem_cons] at h
      rcases h with rfl | h
      · exact Or.inr ⟨task, by simp [findTask, ht], rfl⟩
      · exact Or.inl (List.mem_cons_of_mem _ h)
    · simp only [onTask, List.replaceF_cons, ht] at h
      rcases List.mem_cons.mp h with rfl | h
      · exact Or.inl List.mem_cons_self
      · rcases ih h with h | ⟨t, hf, rfl⟩
        · exact Or.inl (List.mem_cons_of_mem _ h)
        · exact Or.inr ⟨t, by simp [findTask, ht]; exact hf, rfl⟩

theorem findTask_mem {tasks : List Json} {id : Str} {task : Json} (h : findTask tasks id = some task) :
    task ∈ tasks ∧ isTask id task = true :=
  ⟨List.mem_of_find?_eq_some h, List.find?_some h⟩

theorem getD_of_given {s : Option Str} (h : given s = true) : some (s.getD []) = s ∧ s.getD [] ≠ [] := by
  cases s with
  | none => cases h
  | some s => exact ⟨rfl, by simpa [given] using h⟩

/-- A given interval that passes the check is one of the names. -/
theorem interval_name {name : Option Str} (h : 0 < intervalSeconds name) : name.getD [] ∈ intervals.map (·.1) := by
  unfold intervalSeconds at h
  split at h
  · omega
  split at h
  · omega
  rename_i n _
  cases hf : intervals.find? (·.1 == n) with
  | none => simp [hf] at h
  | some p =>
    have hp := List.find?_some hf
    simp only [beq_iff_eq] at hp
    exact List.mem_map.mpr ⟨p, List.mem_of_find?_eq_some hf, hp⟩

theorem newTask_isRecord (Z : Zone) (now : Int) (tid runAt desc : Str) (prompt interval : Option Str) :
    (newTask Z now tid runAt desc prompt interval).IsRecord := by
  simp only [newTask, Json.IsRecord, List.map_cons, List.map_nil]
  decide

/-- Setting a member under a condition. -/
theorem setItem_if {j : Json} (h : j.IsRecord) (c : Bool) (k : Str) (v : Json) :
    (if c then j.setItem k v else j).IsRecord ∧ ∀ l, (if c then j.setItem k v else j).getObjectItem l =
      if c && strcaseeq k l then some v else j.getObjectItem l := by
  cases c with
  | false => exact ⟨h, fun l => rfl⟩
  | true => exact ⟨Json.isRecord_setItem h k v, fun l => by simp [Json.getObjectItem_setItem h]⟩

/-- The fields of an updated task. -/
theorem updateTask_spec {task : Json} (h : task.IsRecord) (runAt desc prompt interval : Option Str) :
    (updateTask runAt desc prompt interval task).IsRecord ∧
    ∀ k, (updateTask runAt desc prompt interval task).getObjectItem k =
      if interval.isSome && strcaseeq (lit "recurring") k then
        some (if given interval then .str (interval.getD []) else .null)
      else if prompt.isSome && strcaseeq (lit "prompt") k then some (.str (prompt.getD []))
      else if given desc && strcaseeq (lit "description") k then some (.str (desc.getD []))
      else if given runAt && strcaseeq (lit "run_at") k then some (.str (runAt.getD []))
      else task.getObjectItem k := by
  have h1 := setItem_if h (given runAt) (lit "run_at") (.str (runAt.getD []))
  have h2 := setItem_if h1.1 (given desc) (lit "description") (.str (desc.getD []))
  have h3 := setItem_if h2.1 prompt.isSome (lit "prompt") (.str (prompt.getD []))
  have h4 := setItem_if h3.1 interval.isSome (lit "recurring")
    (if given interval then .str (interval.getD []) else .null)
  refine ⟨h4.1, fun k => ?_⟩
  rw [← h1.2 k, ← h2.2 k, ← h3.2 k]
  exact h4.2 k

/-! ## The run time a call stores -/

theorem formatTime_given (Z : Zone) (t : Int) : given (some (formatTime Z t false)) = true := by
  simp [given, formatTime, cut, isoText]

/-- A given time that passes the check is to come, unless it was moved past 9999. -/
theorem checkTask_time {Z : Zone} {now : Int} (hnow : 0 ≤ now) {runAt interval r : Option Str}
    (h : checkTask Z now runAt interval = some (.ok r)) (hg : given runAt = true) :
    given r = true ∧ (now < schedParseTime Z r ∨
      schedParseTime Z r = 0 ∧ ∃ t, moved Z now runAt interval = some t ∧ year10000 ≤ t) := by
  obtain ⟨-, ⟨rfl, ht⟩ | ⟨t, hm, hlt, rfl⟩⟩ := checkTask_ok h
  · exact ⟨hg, Or.inl (ht hg).1⟩
  · refine ⟨formatTime_given Z t, ?_⟩
    by_cases hlate : t < year10000
    · rw [parse_format Z (by omega) hlate]
      exact Or.inl hlt
    · exact Or.inr ⟨parse_format_late Z (by omega), t, hm, by omega⟩

theorem checkTask_absent {Z : Zone} {now : Int} {runAt interval r : Option Str}
    (h : checkTask Z now runAt interval = some (.ok r)) (hg : given runAt = false) : given r = false := by
  obtain ⟨-, ⟨rfl, -⟩ | ⟨t, hm, -⟩⟩ := checkTask_ok h
  · exact hg
  · simp [moved, askedTime, hg] at hm

theorem newTask_ok {Z : Zone} {now : Int} (hnow : 0 ≤ now) {tid : Str} {runAt desc prompt interval r : Option Str}
    (h : checkTask Z now runAt interval = some (.ok r)) (hr : given runAt = true) (hd : given desc = true)
    (hm : ∀ t, moved Z now runAt interval = some t → t < year10000) :
    TaskOk Z (newTask Z now tid (r.getD []) (desc.getD []) prompt interval) := by
  obtain ⟨hgr, ht⟩ := checkTask_time hnow h hr
  refine ⟨newTask_isRecord .., rfl, ?_, ?_, ?_⟩
  · show given (some (desc.getD [])) = true
    rw [(getD_of_given hd).1]
    exact hd
  · show 0 < schedParseTime Z (some (r.getD []))
    rw [(getD_of_given hgr).1]
    rcases ht with ht | ⟨-, t, hmt, hlate⟩
    · omega
    · have := hm t hmt
      omega
  · by_cases hi : given interval = true
    · refine Or.inr ⟨interval.getD [], interval_name ((checkTask_ok h).1 hi), ?_⟩
      show some (if given interval then Json.str (interval.getD []) else .null) = _
      rw [if_pos hi]
    · left
      show some (if given interval then Json.str (interval.getD []) else .null) = _
      rw [if_neg hi]

theorem updateTask_ok {Z : Zone} {now : Int} (hnow : 0 ≤ now) {task : Json} (hok : TaskOk Z task)
    {runAt desc prompt interval r : Option Str}
    (h : checkTask Z now runAt (interval.or (task.jStr (lit "recurring"))) = some (.ok r))
    (hm : ∀ t, moved Z now runAt (interval.or (task.jStr (lit "recurring"))) = some t → t < year10000) :
    TaskOk Z (updateTask r desc prompt interval task) := by
  obtain ⟨hrec, hget⟩ := updateTask_spec hok.record r desc prompt interval
  refine ⟨hrec, ?_, ?_, ?_, ?_⟩
  · have := hok.id
    simpa +decide [Json.jStr, hget] using this
  · have := hok.description
    by_cases hd : given desc = true
    · simp +decide [Json.jStr, hget, hd, (getD_of_given hd).1]
    · simpa +decide [Json.jStr, hget, hd] using this
  · by_cases hr : given runAt = true
    · obtain ⟨hgr, ht⟩ := checkTask_time hnow h hr
      have hrt : runTime Z (updateTask r desc prompt interval task) = schedParseTime Z r := by
        simp +decide [runTime, Json.jStr, hget, hgr, (getD_of_given hgr).1]
      rw [hrt]
      rcases ht with ht | ⟨-, t, hmt, hlate⟩
      · omega
      · have := hm t hmt
        omega
    · have hgr := checkTask_absent h (by simpa using hr)
      have := hok.runAt
      simpa +decide [runTime, Json.jStr, hget, hgr] using this
  · by_cases hi : given interval = true
    · obtain ⟨i, rfl⟩ : ∃ i, interval = some i := by
        cases interval with
        | none => cases hi
        | some i => exact ⟨i, rfl⟩
      refine Or.inr ⟨i, interval_name ((checkTask_ok h).1 hi), ?_⟩
      simp +decide [hget, hi]
    · cases interval with
      | none => simpa +decide [hget] using hok.recurring
      | some i => left; simp +decide [hget, hi]

/-- Moving a task to its next run. -/
theorem movedTask_ok {Z : Zone} {task : Json} (hok : TaskOk Z task) {t : Int} (h0 : 0 < t) (h1 : t < year10000) :
    TaskOk Z (task.setString (lit "run_at") (formatTime Z t false)) ∧
    runTime Z (task.setString (lit "run_at") (formatTime Z t false)) = t := by
  have hget := Json.getObjectItem_setItem hok.record (lit "run_at")
  have hrt : runTime Z (task.setString (lit "run_at") (formatTime Z t false)) = t := by
    rw [runTime, Json.jStr_setString hok.record]
    simp [parse_format Z (by omega) h1]
  refine ⟨⟨Json.isRecord_setItem hok.record _ _, ?_, ?_, by omega, ?_⟩, hrt⟩
  · have := hok.id
    simpa +decide [Json.jStr_setString hok.record] using this
  · have := hok.description
    simpa +decide [Json.jStr_setString hok.record] using this
  · simpa +decide [Json.setString, hget] using hok.recurring

/-! ## Runs of the store -/

structure Store where
  now : Nat
  file : File

inductive Op where
  | tick (d : Nat)
  | add (tid : Str) (saved : Bool) (runAt desc prompt interval : Option Str)
  | update (saved : Bool) (id runAt desc prompt interval : Option Str)
  | cancel (saved : Bool) (id : Option Str)
  | markDone (saved : Bool) (ids : List Str)

variable (J : CJson) (Z : Zone) (path : Str)

/-- `none`: the call does not return. -/
def storeStep (s : Store) : Op → Option Store
  | .tick d => some { s with now := s.now + d }
  | .add tid saved runAt desc prompt interval =>
    (schedAdd J Z path s.now tid saved runAt desc prompt interval s.file).map fun r => { s with file := r.1 }
  | .update saved id runAt desc prompt interval =>
    (schedUpdate J Z path s.now saved id runAt desc prompt interval s.file).map fun r => { s with file := r.1 }
  | .cancel saved id => some { s with file := (schedCancel J path saved id s.file).1 }
  | .markDone saved ids => (schedMarkDone J Z s.now saved ids s.file).map fun f => { s with file := f }

/-- From a missing file. -/
def store : System Store Op where
  init := ⟨0, none⟩
  step := storeStep J Z path

/-- The file holds a list of sound tasks. -/
def StoreOk (f : File) : Prop := ∃ tasks, loadTasks J f = some tasks ∧ ∀ task ∈ tasks, TaskOk Z task

/-- If one of `ids` names the task and it recurs, its next run is before the year 10000. -/
def MovesInTime (now : Int) (ids : List Str) (task : Json) : Prop :=
  ∀ id ∈ ids, isTask id task = true → 0 < intervalSeconds (task.jStr (lit "recurring")) →
    ∀ t, nextRun Z now task = some t → t < year10000

/-- The run times a call rewrites lie before the year 10000. -/
def InTime (s : Store) : Op → Prop
  | .add _ _ runAt _ _ interval => ∀ t, moved Z s.now runAt interval = some t → t < year10000
  | .update _ id runAt _ _ interval => ∀ tasks task, loadTasks J s.file = some tasks →
      findTask tasks (id.getD []) = some task →
      ∀ t, moved Z s.now runAt (interval.or (task.jStr (lit "recurring"))) = some t → t < year10000
  | .markDone _ ids => ∀ tasks, loadTasks J s.file = some tasks → ∀ task ∈ tasks, MovesInTime Z s.now ids task
  | _ => True

/-- One id of `sched_mark_done`, among tasks none of which moves past 9999. -/
theorem markDoneOne_ok {Z : Zone} {now : Int} (hnow : 0 ≤ now) {ids : List Str} {tasks : List Json}
    (hok : ∀ task ∈ tasks, TaskOk Z task ∧ MovesInTime Z now ids task) {id : Str} (hid : id ∈ ids) :
    ∃ tasks', markDoneOne Z now tasks id = some tasks' ∧ ∀ task ∈ tasks', TaskOk Z task ∧ MovesInTime Z now ids task := by
  rcases markDoneOne_cases Z now tasks id with ⟨-, h⟩ | ⟨task, hf, ⟨-, h⟩ | ⟨t, hpos, hn, hlt, h⟩⟩
  · exact ⟨tasks, h, hok⟩
  · exact ⟨_, h, fun x hx => hok x (List.mem_of_mem_eraseP hx)⟩
  · refine ⟨_, h, fun x hx => ?_⟩
    rcases mem_onTask hx with hx | ⟨task', hf', rfl⟩
    · exact hok x hx
    · obtain rfl : task = task' := by rw [hf] at hf'; exact Option.some.inj hf'
      obtain ⟨hmem, hid'⟩ := findTask_mem hf
      have hlate := (hok task hmem).2 id hid hid' hpos t hn
      obtain ⟨hok', hrt⟩ := movedTask_ok (hok task hmem).1 (show 0 < t by omega) hlate
      refine ⟨hok', fun _ _ _ _ t' ht' => ?_⟩
      -- it is past `now` already: a second mark leaves it there
      rw [nextRun, hrt, advance_future hlt] at ht'
      have := Option.some.inj ht'
      omega

theorem storeStep_ok {s s' : Store} {e : Op} (hs : StoreOk J Z s.file) (hin : InTime J Z s e)
    (h : storeStep J Z path s e = some s') : StoreOk J Z s'.file := by
  obtain ⟨tasks, hl, hok⟩ := hs
  cases e with
  | tick d => cases h; exact ⟨tasks, hl, hok⟩
  | add tid saved runAt desc prompt interval =>
    obtain ⟨⟨f, text⟩, hr, rfl⟩ := Option.map_eq_some_iff.mp h
    rcases schedAdd_cases J hr with ⟨rfl, -⟩ | ⟨tasks', r, hl', hgr, hgd, hc, rfl, -⟩
    · exact ⟨tasks, hl, hok⟩
    · rw [hl] at hl'
      cases hl'
      refine ⟨_, loadTasks_saved _ _ s.file, fun x hx => ?_⟩
      rcases List.mem_append.mp hx with hx | hx
      · exact hok x hx
      · rw [List.mem_singleton.mp hx]
        exact newTask_ok (by omega) hc hgr hgd hin
  | update saved id runAt desc prompt interval =>
    obtain ⟨⟨f, text⟩, hr, rfl⟩ := Option.map_eq_some_iff.mp h
    rcases schedUpdate_cases J hr with ⟨rfl, -⟩ | ⟨tasks', task, r, hl', -, hf, hc, rfl, -⟩
    · exact ⟨tasks, hl, hok⟩
    · rw [hl] at hl'
      cases hl'
      refine ⟨_, loadTasks_saved _ _ s.file, fun x hx => ?_⟩
      rcases mem_onTask hx with hx | ⟨task', hf', rfl⟩
      · exact hok x hx
      · rw [hf] at hf'
        cases hf'
        exact updateTask_ok (by omega) (hok task (findTask_mem hf).1) hc (hin tasks task hl hf)
  | cancel saved id =>
    cases h
    rcases schedCancel_cases J path saved id s.file with ⟨hsame, -⟩ | ⟨tasks', task, hl', -, -, hsave, -⟩
    · exact ⟨tasks, by rw [hsame]; exact hl, hok⟩
    · rw [hl] at hl'
      cases hl'
      refine ⟨removeTask (id.getD []) tasks, ?_, fun x hx => hok x (List.mem_of_mem_eraseP hx)⟩
      rw [hsave, loadTasks_saved]
  | markDone saved ids =>
    obtain ⟨f, hr, rfl⟩ := Option.map_eq_some_iff.mp h
    simp only [schedMarkDone, hl] at hr
    obtain ⟨tasks', hf, rfl⟩ := Option.map_eq_some_iff.mp hr
    obtain ⟨tasks'', hf', hok'⟩ := foldlM_markDone
      (fun tasks => ∀ task ∈ tasks, TaskOk Z task ∧ MovesInTime Z s.now ids task)
      (fun tasks hP id hid => markDoneOne_ok (by omega) hP hid) tasks
      (fun task ht => ⟨hok task ht, hin tasks hl task ht⟩)
    rw [hf] at hf'
    cases hf'
    cases saved with
    | false => exact ⟨tasks, hl, hok⟩
    | true => exact ⟨tasks', loadTasks_saved J _ s.file, fun task ht => (hok' task ht).1⟩

/-- Every call returns: both advancing loops end. -/
theorem storeStep_isSome (s : Store) (e : Op) : (storeStep J Z path s e).isSome = true := by
  cases e with
  | tick d => rfl
  | add tid saved runAt desc prompt interval =>
    simp only [storeStep, Option.isSome_map]
    exact schedAdd_isSome ..
  | update saved id runAt desc prompt interval =>
    simp only [storeStep, Option.isSome_map]
    exact schedUpdate_isSome ..
  | cancel saved id => rfl
  | markDone saved ids =>
    simp only [storeStep, Option.isSome_map]
    exact schedMarkDone_isSome ..

/-- A sound task is due at some time. -/
theorem due_some_time {f : File} {tasks : List Json} (hl : loadTasks J f = some tasks) {task : Json} (ht : task ∈ tasks)
    (hok : TaskOk Z task) : task ∈ schedGetDue J Z (runTime Z task) f := by
  have := hok.runAt
  simp [schedGetDue, hl, isDue, ht, this]

/-- In every run whose calls rewrite no run time to the year 10000 or later, every stored
    task is sound and due at some time, and every next call returns. -/
theorem store_invariant {s : Store} (h : (store J Z path).Reach (InTime J Z) s) :
    (∃ tasks, loadTasks J s.file = some tasks ∧
      ∀ task ∈ tasks, TaskOk Z task ∧ ∃ now, task ∈ schedGetDue J Z now s.file) ∧
    ∀ e, ((store J Z path).step s e).isSome = true := by
  have hok : StoreOk J Z s.file := h.invariant (I := fun s => StoreOk J Z s.file)
    ⟨[], rfl, fun _ hx => absurd hx (by simp)⟩ (fun s e s' hI hin hs => storeStep_ok J Z path hI hin hs)
  obtain ⟨tasks, hl, hall⟩ := hok
  exact ⟨⟨tasks, hl, fun task ht => ⟨hall task ht, _, due_some_time J Z hl ht (hall task ht)⟩⟩,
    storeStep_isSome J Z path s⟩

def Zone.utc : Zone := ⟨timegm, gmtime⟩

def dailyTask : Op :=
  .add (lit "t1") true (some (lit "2030-01-01T00:00:00Z")) (some (lit "x")) none (some (lit "daily"))

/-- A store with one daily task. -/
theorem store_invariant_daily : ∃ s, (store CJson.compact Zone.utc []).Reach (InTime CJson.compact Zone.utc) s ∧
    (loadTasks CJson.compact s.file).map (·.length) = some 1 ∧
    ∃ tasks, loadTasks CJson.compact s.file = some tasks ∧
      ∀ task ∈ tasks, TaskOk Zone.utc task ∧ ∃ now, task ∈ schedGetDue CJson.compact Zone.utc now s.file := by
  obtain ⟨s, hs⟩ := Option.isSome_iff_exists.mp (storeStep_isSome CJson.compact Zone.utc [] ⟨0, none⟩ dailyTask)
  have hin : InTime CJson.compact Zone.utc ⟨0, none⟩ dailyTask := by
    intro t ht
    have : moved Zone.utc 0 (some (lit "2030-01-01T00:00:00Z")) (some (lit "daily")) = none := by decide +kernel
    exact absurd (this.symm.trans ht) (by simp)
  have hreach := System.Reach.step (M := store CJson.compact Zone.utc []) dailyTask .init hin hs
  refine ⟨s, hreach, ?_, (store_invariant CJson.compact Zone.utc [] hreach).1⟩
  have hlen : (storeStep CJson.compact Zone.utc [] ⟨0, none⟩ dailyTask).map
      (fun s => (loadTasks CJson.compact s.file).map (·.length)) = some (some 1) := by decide +kernel
  rw [hs] at hlen
  exact Option.some.inj hlen

/-! ## A task that is never due -/

/-- The daily task is moved to the last second of 9999 in a zone behind UTC, then marked done. -/
def lastSecond : List Op :=
  [dailyTask, .update true (some (lit "t1")) (some (lit "9999-12-31T23:59:59-01:00")) none none none,
   .markDone true [lit "t1"]]

/-- Its run time is rewritten to `10000-01-01T00:59:59Z`, which denotes no instant. -/
theorem rewritten_past_9999 : ¬ ∀ s, (store CJson.compact Zone.utc []).Reach (fun _ _ => True) s →
    ∃ tasks, loadTasks CJson.compact s.file = some tasks ∧
      ∀ task ∈ tasks, TaskOk Zone.utc task ∧ ∃ now, task ∈ schedGetDue CJson.compact Zone.utc now s.file := by
  intro hall
  have hrun : ((store CJson.compact Zone.utc []).replay (fun _ _ => True) ⟨0, none⟩ lastSecond).map
      (fun s => (loadTasks CJson.compact s.file).map (·.map (runTime Zone.utc))) = some (some [0]) := by
    decide +kernel
  obtain ⟨s, hs, hload⟩ := Option.map_eq_some_iff.mp hrun
  obtain ⟨tasks, hl, hmap⟩ := Option.map_eq_some_iff.mp hload
  obtain ⟨tasks', hl', hok⟩ := hall s (System.Reach.init.replay hs)
  rw [hl] at hl'
  cases hl'
  obtain ⟨task, rfl, h0⟩ := List.map_eq_singleton_iff.mp hmap
  have := (hok task List.mem_cons_self).1.runAt
  omega

end Shclaw.Scheduler
