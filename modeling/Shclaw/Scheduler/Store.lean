/-
  Shclaw.Scheduler.Store — the task store (`src/scheduler.c`): `check_task`,
  `sched_add`, `sched_update`, `sched_cancel`, `sched_get_due`, `sched_mark_done`.

  `scheduler.json` is missing (`none`) or holds a text. Every operation loads the
  whole file (`json_load`), works on the task list, and saves it (`json_save_atomic`,
  which replaces the file or, when `saved` is false, leaves it). The clock, the new
  task's id and the outcome of the save are arguments. A null pointer is `none`: for
  the optional arguments, null, empty and present are three different things.

  The two advancing loops (`while (t <= now) t += secs`) are `advance`; `none` is a
  loop that never ends, and an operation that enters one does not return (`none`).

  Texts are whole: the caller's buffer cuts them.
-/

import Mathlib.Tactic.Ring
import Shclaw.Scheduler.Time

namespace Shclaw.Scheduler

open Lib

/-- `INTERVALS`. -/
def intervals : List (Str × Int) :=
  [(lit "every_30min", 1800), (lit "hourly", 3600), (lit "every_6h", 21600), (lit "every_12h", 43200),
   (lit "daily", 86400), (lit "weekly", 604800)]

def timeHelp : Str := lit "Use local time as YYYY-MM-DDTHH:MM:SS, e.g. 2026-01-31T18:30:00"

def intervalHelp : Str := lit "every_30min, hourly, every_6h, every_12h, daily, weekly"

/-- `s && s[0]`. -/
def given (s : Option Str) : Bool := s.any (· ≠ [])

def intervalSeconds (name : Option Str) : Int :=
  match name with
  | none => 0
  | some n => if n = [] then 0 else ((intervals.find? (·.1 == n)).map (·.2)).getD 0

/-! ## The advancing loop -/

/-- `while (t <= now) t += secs`, stopped after `n` rounds. -/
def advanceLoop (secs now : Int) : Nat → Int → Option Int
  | 0, t => if t ≤ now then none else some t
  | n + 1, t => if t ≤ now then advanceLoop secs now n (t + secs) else some t

/-- The loop; `none` when it never ends. A round adds at least a second or none ever
    does, so `now - t + 1` rounds decide. -/
def advance (t secs now : Int) : Option Int := advanceLoop secs now (now - t + 1).toNat t

/-! ## Checking the arguments -/

/-- `t` of `check_task`: 0 without a run time. -/
def askedTime (Z : Zone) (runAt : Option Str) : Int := if given runAt then schedParseTime Z runAt else 0

def checkTask (Z : Zone) (now : Int) (runAt interval : Option Str) : Option (Except Str (Option Str)) :=
  let t := askedTime Z runAt
  if given runAt ∧ t = 0 then
    some (.error (lit "Error: invalid run_at '" ++ runAt.getD [] ++ lit "'. " ++ timeHelp))
  else if given interval ∧ intervalSeconds interval = 0 then
    some (.error (lit "Error: invalid interval '" ++ interval.getD [] ++ lit "'. Use one of: " ++ intervalHelp))
  else if t ≠ 0 ∧ t ≤ now then
    if !given interval then
      some (.error (lit "Error: run_at " ++ runAt.getD [] ++ lit " is not in the future (local time is now " ++
        formatTime Z now true ++ lit "). Pick a later time, or do the task now instead of scheduling it."))
    else (advance t (intervalSeconds interval) now).map fun t => .ok (some (formatTime Z t false))
  else some (.ok runAt)

/-! ## The file -/

abbrev File := Option Str

variable (J : CJson)

/-- `load_tasks`: `none` for a file that is not a JSON array. -/
def loadTasks (f : File) : Option (List Json) :=
  match f with
  | none => some []
  | some text =>
    match J.parse text with
    | some (.arr tasks) => some tasks
    | _ => none

/-- `json_save_atomic`. -/
def saveTasks (saved : Bool) (tasks : List Json) (f : File) : File :=
  if saved then some (J.printFormatted (.arr tasks)) else f

def corrupt (path : Str) : Str := lit "Error: " ++ path ++ lit " is not valid JSON: fix or delete it"

/-! ## The operations -/

def isTask (id : Str) (task : Json) : Bool := task.jStr (lit "id") = some id

def findTask (tasks : List Json) (id : Str) : Option Json := tasks.find? (isTask id)

/-- Change the task with this id in place. -/
def onTask (id : Str) (g : Json → Json) (tasks : List Json) : List Json :=
  tasks.replaceF fun task => if isTask id task then some (g task) else none

/-- `cJSON_DetachItemViaPointer`. -/
def removeTask (id : Str) (tasks : List Json) : List Json := tasks.eraseP (isTask id)

def newTask (Z : Zone) (now : Int) (tid runAt desc : Str) (prompt interval : Option Str) : Json :=
  .obj [(lit "id", .str tid), (lit "run_at", .str runAt), (lit "description", .str desc),
    (lit "prompt", .str (prompt.getD [])),
    (lit "recurring", if given interval then .str (interval.getD []) else .null),
    (lit "created_at", .str (formatTime Z now false))]

def schedAdd (Z : Zone) (path : Str) (now : Int) (tid : Str) (saved : Bool) (runAt desc prompt interval : Option Str)
    (f : File) : Option (File × Str) :=
  if !given runAt || !given desc then some (f, lit "Error: run_at and description are required")
  else (checkTask Z now runAt interval).map fun
    | .error e => (f, e)
    | .ok runAt =>
      let task := newTask Z now tid (runAt.getD []) (desc.getD []) prompt interval
      match loadTasks J f with
      | none => (f, corrupt path)
      | some tasks =>
        (saveTasks J saved (tasks ++ [task]) f,
          if saved then
            lit "Task scheduled (id=" ++ tid ++ lit "): " ++ desc.getD [] ++ lit " at " ++ runAt.getD [] ++
              (if given interval then lit ", recurring " ++ interval.getD [] else [])
          else lit "Error: cannot save the task")

/-- The fields `sched_update` sets. -/
def updateTask (runAt desc prompt interval : Option Str) (task : Json) : Json :=
  let task := if given runAt then task.setString (lit "run_at") (runAt.getD []) else task
  let task := if given desc then task.setString (lit "description") (desc.getD []) else task
  let task := if prompt.isSome then task.setString (lit "prompt") (prompt.getD []) else task
  if interval.isSome then
    task.setItem (lit "recurring") (if given interval then .str (interval.getD []) else .null)
  else task

def schedUpdate (Z : Zone) (path : Str) (now : Int) (saved : Bool) (id runAt desc prompt interval : Option Str)
    (f : File) : Option (File × Str) :=
  if !given id then some (f, lit "Error: task_id is required")
  else
    match loadTasks J f with
    | none => some (f, corrupt path)
    | some tasks =>
      match findTask tasks (id.getD []) with
      | none => some (f, lit "Error: task " ++ id.getD [] ++ lit " not found.")
      | some task =>
        -- the past-time rule follows the interval the task will have
        (checkTask Z now runAt (interval.or (task.jStr (lit "recurring")))).map fun
          | .error e => (f, e)
          | .ok runAt =>
            (saveTasks J saved (onTask (id.getD []) (updateTask runAt desc prompt interval) tasks) f,
              if saved then lit "Task " ++ id.getD [] ++ lit " updated." else lit "Error: cannot save the task")

def schedCancel (path : Str) (saved : Bool) (id : Option Str) (f : File) : File × Str :=
  if !given id then (f, lit "Error: task_id is required")
  else
    match loadTasks J f with
    | none => (f, corrupt path)
    | some tasks =>
      match findTask tasks (id.getD []) with
      | none => (f, lit "Error: task " ++ id.getD [] ++ lit " not found.")
      | some _ =>
        (saveTasks J saved (removeTask (id.getD []) tasks) f,
          if saved then lit "Task " ++ id.getD [] ++ lit " cancelled." else lit "Error: cannot save the task list")

/-- The instant a task's `run_at` denotes. -/
def runTime (Z : Zone) (task : Json) : Int := schedParseTime Z (task.jStr (lit "run_at"))

def isDue (Z : Zone) (now : Int) (task : Json) : Bool := 0 < runTime Z task && runTime Z task ≤ now

def schedGetDue (Z : Zone) (now : Int) (f : File) : List Json := ((loadTasks J f).getD []).filter (isDue Z now)

/-- One id of `sched_mark_done`: a one-shot task goes away, a recurring one moves on. -/
def markDoneOne (Z : Zone) (now : Int) (tasks : List Json) (id : Str) : Option (List Json) :=
  match findTask tasks id with
  | none => some tasks
  | some task =>
    let secs := intervalSeconds (task.jStr (lit "recurring"))
    if secs ≤ 0 then some (removeTask id tasks)
    else (advance (runTime Z task) secs now).map fun next =>
      onTask id (·.setString (lit "run_at") (formatTime Z next false)) tasks

def schedMarkDone (Z : Zone) (now : Int) (saved : Bool) (ids : List Str) (f : File) : Option File :=
  match loadTasks J f with
  | none => some f
  | some tasks => (ids.foldlM (markDoneOne Z now) tasks).map fun tasks => saveTasks J saved tasks f

/-! ## Loading what was saved -/

@[simp] theorem loadTasks_none : loadTasks J none = some [] := rfl

@[simp] theorem loadTasks_saved (tasks : List Json) (f : File) :
    loadTasks J (saveTasks J true tasks f) = some tasks := by
  simp [saveTasks, loadTasks, J.parse_printFormatted]

@[simp] theorem saveTasks_failed (tasks : List Json) (f : File) : saveTasks J false tasks f = f := rfl

/-! ## The loop ends with a positive interval -/

theorem advanceLoop_spec {secs now : Int} (hs : 0 < secs) :
    ∀ (n : Nat) (t : Int), now - t < n → ∃ r, advanceLoop secs now n t = some r ∧ now < r ∧
      ∃ k : Nat, r = t + k * secs ∧ (k = 0 ∨ r - secs ≤ now) := by
  intro n
  induction n with
  | zero =>
    intro t h
    exact ⟨t, by simp only [advanceLoop]; rw [if_neg (by omega)], by omega, 0, by simp⟩
  | succ n ih =>
    intro t h
    simp only [advanceLoop]
    by_cases ht : t ≤ now
    · obtain ⟨r, hr, hlt, k, hk, hk'⟩ := ih (t + secs) (by omega)
      refine ⟨r, by rw [if_pos ht, hr], hlt, k + 1, by rw [hk]; push_cast; ring, Or.inr ?_⟩
      rcases hk' with rfl | hk'
      · have : r = t + secs := by simpa using hk
        omega
      · exact hk'
    · exact ⟨t, by rw [if_neg ht], by omega, 0, by simp⟩

/-- The loop ends past `now`, on the first round that gets there. -/
theorem advance_spec {secs : Int} (hs : 0 < secs) (t now : Int) : ∃ r, advance t secs now = some r ∧ now < r ∧
    ∃ k : Nat, r = t + k * secs ∧ (k = 0 ∨ r - secs ≤ now) :=
  advanceLoop_spec hs _ t (by omega)

/-- A time still to come is left as it is. -/
theorem advance_future {t secs now : Int} (h : now < t) : advance t secs now = some t := by
  unfold advance
  cases (now - t + 1).toNat <;> simp only [advanceLoop] <;> rw [if_neg (by omega)]

theorem intervalSeconds_cases (name : Option Str) : intervalSeconds name = 0 ∨ 0 < intervalSeconds name := by
  unfold intervalSeconds
  split
  · exact Or.inl rfl
  · split
    · exact Or.inl rfl
    · cases h : intervals.find? (·.1 == _) with
      | none => exact Or.inl rfl
      | some p =>
        have hall : ∀ p ∈ intervals, 0 < p.2 := by decide
        exact Or.inr (hall p (List.mem_of_find?_eq_some h))

/-- `none` is a loop that no number of rounds ends. -/
theorem advance_eq_none {t secs now : Int} : advance t secs now = none ↔ ∀ n, advanceLoop secs now n t = none := by
  refine ⟨fun h => ?_, fun h => h _⟩
  have hs : secs ≤ 0 := by
    by_contra hpos
    obtain ⟨r, hr, -⟩ := advance_spec (show 0 < secs by omega) t now
    rw [hr] at h
    cases h
  have ht : t ≤ now := by
    by_contra hlate
    rw [advance_future (by omega)] at h
    cases h
  intro n
  clear h
  induction n generalizing t with
  | zero => simp [advanceLoop, ht]
  | succ n ih => simp only [advanceLoop, if_pos ht]; exact ih (by omega)

/-! ## What an operation can do -/

/-- Where `check_task` moves a past recurring start to. -/
def moved (Z : Zone) (now : Int) (runAt interval : Option Str) : Option Int :=
  if askedTime Z runAt ≠ 0 ∧ askedTime Z runAt ≤ now ∧ 0 < intervalSeconds interval then
    advance (askedTime Z runAt) (intervalSeconds interval) now
  else none

/-- What `check_task` lets through: no run time, a time to come as given, or the text of
    the next occurrence. -/
theorem checkTask_ok {Z : Zone} {now : Int} {runAt interval r : Option Str}
    (h : checkTask Z now runAt interval = some (.ok r)) :
    (given interval = true → 0 < intervalSeconds interval) ∧
      (r = runAt ∧ (given runAt = true → now < schedParseTime Z runAt ∧ schedParseTime Z runAt ≠ 0) ∨
       ∃ t, moved Z now runAt interval = some t ∧ now < t ∧ r = some (formatTime Z t false)) := by
  have hsecs := intervalSeconds_cases interval
  unfold checkTask at h
  simp only at h
  split at h
  · cases h
  rename_i hrun
  split at h
  · cases h
  rename_i hint
  have hgood : given interval = true → 0 < intervalSeconds interval := by
    intro hg
    rcases hsecs with h0 | hpos
    · exact absurd ⟨hg, h0⟩ hint
    · exact hpos
  refine ⟨hgood, ?_⟩
  split at h
  · rename_i hpast
    split at h
    · cases h
    · rename_i hg
      have hpos := hgood (by simpa using hg)
      obtain ⟨t, ht, hlt, -⟩ := advance_spec hpos (askedTime Z runAt) now
      rw [ht, Option.map_some, Option.some.injEq, Except.ok.injEq] at h
      refine Or.inr ⟨t, ?_, hlt, h.symm⟩
      simp only [moved]
      rw [if_pos ⟨hpast.1, hpast.2, hpos⟩, ht]
  · rename_i hpast
    simp only [Option.some.injEq, Except.ok.injEq] at h
    refine Or.inl ⟨h.symm, fun hg => ?_⟩
    simp only [askedTime, hg, true_and, if_true] at hrun hpast
    omega

/-- `check_task` returns. -/
theorem checkTask_isSome (Z : Zone) (now : Int) (runAt interval : Option Str) :
    (checkTask Z now runAt interval).isSome = true := by
  unfold checkTask
  simp only
  split
  · rfl
  split
  · rfl
  rename_i hint
  split
  · split
    · rfl
    · rename_i hg
      rcases intervalSeconds_cases interval with h0 | hpos
      · exact absurd ⟨by simpa using hg, h0⟩ hint
      · obtain ⟨t, ht, -⟩ := advance_spec hpos (askedTime Z runAt) now
        simp [ht]
  · rfl

theorem checkTask_error {Z : Zone} {now : Int} {runAt interval : Option Str} {e : Str}
    (h : checkTask Z now runAt interval = some (.error e)) : startsWith e (lit "Error") = true := by
  unfold checkTask at h
  simp only at h
  split at h
  · cases h
    rfl
  split at h
  · cases h
    rfl
  split at h
  · split at h
    · cases h
      rfl
    · obtain ⟨t, -, ht⟩ := Option.map_eq_some_iff.mp h
      cases ht
  · cases h

/-- A call fails and leaves the file, or saves the list with the task it built. -/
theorem schedAdd_cases {Z : Zone} {path tid : Str} {now : Int} {saved : Bool} {runAt desc prompt interval : Option Str}
    {f f' : File} {text : Str} (h : schedAdd J Z path now tid saved runAt desc prompt interval f = some (f', text)) :
    f' = f ∧ startsWith text (lit "Error") = true ∨
    ∃ tasks r, loadTasks J f = some tasks ∧ given runAt = true ∧ given desc = true ∧
      checkTask Z now runAt interval = some (.ok r) ∧
      f' = saveTasks J true (tasks ++ [newTask Z now tid (r.getD []) (desc.getD []) prompt interval]) f ∧
      startsWith text (lit "Error") = false := by
  unfold schedAdd at h
  split at h
  · cases h
    exact Or.inl ⟨rfl, rfl⟩
  rename_i hg
  simp only [Bool.or_eq_true, Bool.not_eq_true', not_or, Bool.not_eq_false] at hg
  obtain ⟨c, hc, hres⟩ := Option.map_eq_some_iff.mp h
  cases c with
  | error e =>
    cases hres
    exact Or.inl ⟨rfl, checkTask_error hc⟩
  | ok r =>
    simp only at hres
    split at hres
    · cases hres
      exact Or.inl ⟨rfl, rfl⟩
    · rename_i tasks hl
      cases hres
      cases saved with
      | false => exact Or.inl ⟨rfl, rfl⟩
      | true => exact Or.inr ⟨tasks, r, hl, hg.1, hg.2, hc, rfl, rfl⟩

/-- A call fails and leaves the file, or saves the list with the task it found changed;
    `updated` says it did. -/
theorem schedUpdate_cases {Z : Zone} {path : Str} {now : Int} {saved : Bool} {id runAt desc prompt interval : Option Str}
    {f f' : File} {text : Str} (h : schedUpdate J Z path now saved id runAt desc prompt interval f = some (f', text)) :
    f' = f ∧ startsWith text (lit "Error") = true ∨
    ∃ tasks task r, loadTasks J f = some tasks ∧ given id = true ∧ findTask tasks (id.getD []) = some task ∧
      checkTask Z now runAt (interval.or (task.jStr (lit "recurring"))) = some (.ok r) ∧
      f' = saveTasks J true (onTask (id.getD []) (updateTask r desc prompt interval) tasks) f ∧
      text = lit "Task " ++ id.getD [] ++ lit " updated." := by
  unfold schedUpdate at h
  split at h
  · cases h
    exact Or.inl ⟨rfl, rfl⟩
  rename_i hg
  split at h
  · cases h
    exact Or.inl ⟨rfl, rfl⟩
  rename_i tasks hl
  split at h
  · cases h
    exact Or.inl ⟨rfl, rfl⟩
  rename_i task hf
  obtain ⟨c, hc, hres⟩ := Option.map_eq_some_iff.mp h
  cases c with
  | error e =>
    cases hres
    exact Or.inl ⟨rfl, checkTask_error hc⟩
  | ok r =>
    cases hres
    cases saved with
    | false => exact Or.inl ⟨rfl, rfl⟩
    | true => exact Or.inr ⟨tasks, task, r, hl, by simpa using hg, hf, hc, rfl, rfl⟩

/-- A call fails and leaves the file, or saves the list without the task it found. -/
theorem schedCancel_cases (path : Str) (saved : Bool) (id : Option Str) (f : File) :
    (schedCancel J path saved id f).1 = f ∧ startsWith (schedCancel J path saved id f).2 (lit "Error") = true ∨
    ∃ tasks task, loadTasks J f = some tasks ∧ given id = true ∧ findTask tasks (id.getD []) = some task ∧
      (schedCancel J path saved id f).1 = saveTasks J true (removeTask (id.getD []) tasks) f ∧
      (schedCancel J path saved id f).2 = lit "Task " ++ id.getD [] ++ lit " cancelled." := by
  unfold schedCancel
  split
  · exact Or.inl ⟨rfl, rfl⟩
  rename_i hg
  split
  · exact Or.inl ⟨rfl, rfl⟩
  rename_i tasks hl
  split
  · exact Or.inl ⟨rfl, rfl⟩
  rename_i task hf
  cases saved with
  | false => exact Or.inl ⟨rfl, rfl⟩
  | true => exact Or.inr ⟨tasks, task, hl, by simpa using hg, hf, rfl, rfl⟩

/-- Where `sched_mark_done` moves a recurring task to. -/
def nextRun (Z : Zone) (now : Int) (task : Json) : Option Int :=
  advance (runTime Z task) (intervalSeconds (task.jStr (lit "recurring"))) now

theorem nextRun_spec (Z : Zone) (now : Int) {task : Json} (h : 0 < intervalSeconds (task.jStr (lit "recurring"))) :
    ∃ t, nextRun Z now task = some t ∧ now < t := by
  obtain ⟨t, ht, hlt, -⟩ := advance_spec h (runTime Z task) now
  exact ⟨t, ht, hlt⟩

/-- One id: its task is not there, is one-shot and goes, or is recurring and moves. -/
theorem markDoneOne_cases (Z : Zone) (now : Int) (tasks : List Json) (id : Str) :
    findTask tasks id = none ∧ markDoneOne Z now tasks id = some tasks ∨
    ∃ task, findTask tasks id = some task ∧
      (intervalSeconds (task.jStr (lit "recurring")) = 0 ∧ markDoneOne Z now tasks id = some (removeTask id tasks) ∨
       ∃ t, 0 < intervalSeconds (task.jStr (lit "recurring")) ∧ nextRun Z now task = some t ∧ now < t ∧
        markDoneOne Z now tasks id = some (onTask id (·.setString (lit "run_at") (formatTime Z t false)) tasks)) := by
  unfold markDoneOne
  cases hf : findTask tasks id with
  | none => exact Or.inl ⟨rfl, rfl⟩
  | some task =>
    refine Or.inr ⟨task, rfl, ?_⟩
    rcases intervalSeconds_cases (task.jStr (lit "recurring")) with h0 | hpos
    · exact Or.inl ⟨h0, by simp [h0]⟩
    · obtain ⟨t, ht, hlt⟩ := nextRun_spec Z now hpos
      refine Or.inr ⟨t, hpos, ht, hlt, ?_⟩
      simp only
      rw [if_neg (by omega), show advance _ _ _ = some t from ht]
      rfl

/-- A property every id keeps holds of the list `sched_mark_done` saves, and it saves one. -/
theorem foldlM_markDone {Z : Zone} {now : Int} (P : List Json → Prop) {ids : List Str}
    (hstep : ∀ tasks, P tasks → ∀ id ∈ ids, ∃ tasks', markDoneOne Z now tasks id = some tasks' ∧ P tasks') :
    ∀ tasks, P tasks → ∃ tasks', ids.foldlM (markDoneOne Z now) tasks = some tasks' ∧ P tasks' := by
  induction ids with
  | nil => exact fun tasks h => ⟨tasks, rfl, h⟩
  | cons id ids ih =>
    intro tasks h
    obtain ⟨tasks1, h1, hP⟩ := hstep tasks h id List.mem_cons_self
    obtain ⟨tasks2, h2, hP'⟩ := ih (fun t ht i hi => hstep t ht i (List.mem_cons_of_mem _ hi)) tasks1 hP
    exact ⟨tasks2, by simp [List.foldlM_cons, h1, h2], hP'⟩

theorem markDoneOne_isSome (Z : Zone) (now : Int) (tasks : List Json) (id : Str) :
    (markDoneOne Z now tasks id).isSome = true := by
  rcases markDoneOne_cases Z now tasks id with ⟨-, h⟩ | ⟨_, -, ⟨-, h⟩ | ⟨_, -, -, -, h⟩⟩ <;> simp [h]

/-! ## Every call returns -/

theorem schedAdd_isSome (Z : Zone) (path : Str) (now : Int) (tid : Str) (saved : Bool)
    (runAt desc prompt interval : Option Str) (f : File) :
    (schedAdd J Z path now tid saved runAt desc prompt interval f).isSome = true := by
  unfold schedAdd
  split
  · rfl
  · rw [Option.isSome_map]
    exact checkTask_isSome ..

theorem schedUpdate_isSome (Z : Zone) (path : Str) (now : Int) (saved : Bool)
    (id runAt desc prompt interval : Option Str) (f : File) :
    (schedUpdate J Z path now saved id runAt desc prompt interval f).isSome = true := by
  unfold schedUpdate
  split
  · rfl
  split
  · rfl
  split
  · rfl
  · rw [Option.isSome_map]
    exact checkTask_isSome ..

theorem schedMarkDone_isSome (Z : Zone) (now : Int) (saved : Bool) (ids : List Str) (f : File) :
    (schedMarkDone J Z now saved ids f).isSome = true := by
  unfold schedMarkDone
  split
  · rfl
  · rename_i tasks _
    rw [Option.isSome_map]
    obtain ⟨_, h, -⟩ := foldlM_markDone (fun _ => True)
      (fun tasks _ id (_ : id ∈ ids) => (Option.isSome_iff_exists.mp (markDoneOne_isSome Z now tasks id)).imp
        fun _ h => ⟨h, trivial⟩) tasks trivial
    rw [h]
    rfl

end Shclaw.Scheduler
