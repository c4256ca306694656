/-
  Shclaw.Tools.Pointers — the calls of `src/scheduler.c` with their pointers read where
  the code reads them.

  A tool hands over what `j_str` finds, which is null for an argument that is missing or
  no string. `sched_add`, `sched_update` and `sched_cancel` test what they are given
  before they read it: the calls here, which stop at the first null pointer read
  (`deref`), return what those of `Shclaw.Scheduler.Store` do, whatever they are given.
-/

import Shclaw.Scheduler.Invariant

namespace Shclaw.Tools

open Lib Scheduler

/-- What keeps a call from returning. -/
inductive Fault where
  /-- A null pointer is read. -/
  | null
  /-- A loop never ends. -/
  | hang
  deriving DecidableEq

abbrev Ran (α : Type) := Except Fault α

/-- A string is read. -/
def deref : Option Str → Ran Str
  | some s => .ok s
  | none => .error .null

/-- A loop that may never end. -/
def ended {α : Type} : Option α → Ran α
  | some a => .ok a
  | none => .error .hang

@[simp] theorem ok_bind {α β : Type} (a : α) (g : α → Ran β) : ((.ok a : Ran α) >>= g) = g a := rfl

@[simp] theorem deref_some (s : Str) : deref (some s) = .ok s := rfl

@[simp] theorem ended_some {α : Type} (a : α) : ended (some a) = .ok a := rfl

theorem ended_map {α β : Type} (o : Option α) (g : α → β) : ended (o.map g) = ended o >>= fun a => .ok (g a) := by
  cases o <;> rfl

/-- A string that passed the test `s && s[0]`. -/
theorem deref_of_given {s : Option Str} (h : given s = true) : deref s = .ok (s.getD []) := by
  rw [← (getD_of_given h).1]
  rfl

variable (J : CJson)

def readCheckTask (Z : Zone) (now : Int) (runAt interval : Option Str) : Ran (Except Str (Option Str)) :=
  let t := askedTime Z runAt
  if given runAt ∧ t = 0 then do
    let runAt ← deref runAt
    .ok (.error (lit "Error: invalid run_at '" ++ runAt ++ lit "'. " ++ timeHelp))
  else if given interval ∧ intervalSeconds interval = 0 then do
    let interval ← deref interval
    .ok (.error (lit "Error: invalid interval '" ++ interval ++ lit "'. Use one of: " ++ intervalHelp))
  else if t ≠ 0 ∧ t ≤ now then
    if !given interval then do
      let runAt ← deref runAt
      .ok (.error (lit "Error: run_at " ++ runAt ++ lit " is not in the future (local time is now " ++
        formatTime Z now true ++ lit "). Pick a later time, or do the task now instead of scheduling it."))
    else do
      let t ← ended (advance t (intervalSeconds interval) now)
      .ok (.ok (some (formatTime Z t false)))
  else .ok (.ok runAt)

/-- `recurring ? interval : ""`. -/
def readInterval (interval : Option Str) : Ran Str := if given interval then deref interval else .ok []

def readSchedAdd (Z : Zone) (path : Str) (now : Int) (tid : Str) (saved : Bool) (runAt desc prompt interval : Option Str)
    (f : File) : Ran (File × Str) :=
  if !given runAt || !given desc then .ok (f, lit "Error: run_at and description are required")
  else do
    match ← readCheckTask Z now runAt interval with
    | .error e => .ok (f, e)
    | .ok runAt => do
      let runAt ← deref runAt
      let desc ← deref desc
      let recurring ← readInterval interval
      match loadTasks J f with
      | none => .ok (f, corrupt path)
      | some tasks =>
        .ok (saveTasks J saved (tasks ++ [newTask Z now tid runAt desc prompt interval]) f,
          if saved then
            lit "Task scheduled (id=" ++ tid ++ lit "): " ++ desc ++ lit " at " ++ runAt ++
              (if given interval then lit ", recurring " ++ recurring else [])
          else lit "Error: cannot save the task")

def readSchedUpdate (Z : Zone) (path : Str) (now : Int) (saved : Bool) (id runAt desc prompt interval : Option Str)
    (f : File) : Ran (File × Str) :=
  if !given id then .ok (f, lit "Error: task_id is required")
  else
    match loadTasks J f with
    | none => .ok (f, corrupt path)
    | some tasks => do
      let id ← deref id
      match findTask tasks id with
      | none => .ok (f, lit "Error: task " ++ id ++ lit " not found.")
      | some task => do
        match ← readCheckTask Z now runAt (interval.or (task.jStr (lit "recurring"))) with
        | .error e => .ok (f, e)
        | .ok runAt =>
          .ok (saveTasks J saved (onTask id (updateTask runAt desc prompt interval) tasks) f,
            if saved then lit "Task " ++ id ++ lit " updated." else lit "Error: cannot save the task")

def readSchedCancel (path : Str) (saved : Bool) (id : Option Str) (f : File) : Ran (File × Str) :=
  if !given id then .ok (f, lit "Error: task_id is required")
  else
    match loadTasks J f with
    | none => .ok (f, corrupt path)
    | some tasks => do
      let id ← deref id
      match findTask tasks id with
      | none => .ok (f, lit "Error: task " ++ id ++ lit " not found.")
      | some _ =>
        .ok (saveTasks J saved (removeTask id tasks) f,
          if saved then lit "Task " ++ id ++ lit " cancelled." else lit "Error: cannot save the task list")

/-! ## No null pointer is read -/

theorem readCheckTask_eq (Z : Zone) (now : Int) (runAt interval : Option Str) :
    readCheckTask Z now runAt interval = ended (checkTask Z now runAt interval) := by
  unfold readCheckTask checkTask
  dsimp only
  split
  · rename_i hrun
    rw [deref_of_given hrun.1]
    rfl
  rename_i hrun
  split
  · rename_i hint
    rw [deref_of_given hint.1]
    rfl
  split
  · rename_i hpast
    split
    · -- a time that was read was given
      have hgiven : given runAt = true := by
        by_contra hno
        exact hpast.1 (if_neg hno)
      rw [deref_of_given hgiven]
      rfl
    · rw [ended_map]
  · rfl

variable {J}

/-- A task that passed the check has a run time when one was given. -/
theorem checkTask_given {Z : Zone} {now : Int} {runAt interval r : Option Str}
    (h : checkTask Z now runAt interval = some (.ok r)) (hg : given runAt = true) : given r = true := by
  obtain ⟨-, ⟨rfl, -⟩ | ⟨t, -, -, rfl⟩⟩ := checkTask_ok h
  · exact hg
  · exact formatTime_given Z t

theorem readSchedAdd_eq (Z : Zone) (path : Str) (now : Int) (tid : Str) (saved : Bool)
    (runAt desc prompt interval : Option Str) (f : File) :
    readSchedAdd J Z path now tid saved runAt desc prompt interval f =
      ended (schedAdd J Z path now tid saved runAt desc prompt interval f) := by
  unfold readSchedAdd schedAdd
  split
  · rfl
  rename_i hgiven
  simp only [Bool.or_eq_true, Bool.not_eq_true', not_or, Bool.not_eq_false] at hgiven
  rw [readCheckTask_eq, ended_map]
  cases hcheck : checkTask Z now runAt interval with
  | none => rfl
  | some r =>
    cases r with
    | error e => rfl
    | ok r =>
      have hr : given r = true := checkTask_given hcheck hgiven.1
      have hint : readInterval interval = .ok (if given interval then interval.getD [] else []) := by
        unfold readInterval
        split
        · rename_i hg
          exact deref_of_given hg
        · rfl
      simp only [ended_some, ok_bind, deref_of_given hr, deref_of_given hgiven.2, hint]
      cases hload : loadTasks J f with
      | none => rfl
      | some tasks =>
        by_cases hg : given interval = true
        · simp only [hg, if_true]
        · simp only [hg, Bool.false_eq_true, if_false]

theorem readSchedUpdate_eq (Z : Zone) (path : Str) (now : Int) (saved : Bool) (id runAt desc prompt interval : Option Str)
    (f : File) : readSchedUpdate J Z path now saved id runAt desc prompt interval f =
      ended (schedUpdate J Z path now saved id runAt desc prompt interval f) := by
  unfold readSchedUpdate schedUpdate
  split
  · rfl
  rename_i hgiven
  have hid : given id = true := by simpa using hgiven
  cases hload : loadTasks J f with
  | none => rfl
  | some tasks =>
    simp only [deref_of_given hid, ok_bind]
    cases hfind : findTask tasks (id.getD []) with
    | none => rfl
    | some task =>
      simp only [readCheckTask_eq, ended_map]
      cases hcheck : checkTask Z now runAt (interval.or (task.jStr (lit "recurring"))) with
      | none => rfl
      | some r => cases r <;> rfl

theorem readSchedCancel_eq (path : Str) (saved : Bool) (id : Option Str) (f : File) :
    readSchedCancel J path saved id f = .ok (schedCancel J path saved id f) := by
  unfold readSchedCancel schedCancel
  split
  · rfl
  rename_i hgiven
  have hid : given id = true := by simpa using hgiven
  cases hload : loadTasks J f with
  | none => rfl
  | some tasks =>
    simp only [deref_of_given hid, ok_bind]
    cases hfind : findTask tasks (id.getD []) <;> rfl

end Shclaw.Tools
