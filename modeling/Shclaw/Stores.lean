/-
  Shclaw.Stores — the two files an agent's tools rewrite: `scheduler.json`
  (`src/scheduler.c`) and `facts.json` (`src/memory.c`), both read by `json_load` and
  replaced by `json_save_atomic` (`src/util.c`).

  `writes_change_target`: whatever the file holds, a call that returns an error leaves
  it byte for byte, and one that succeeds changes one task, or adds or removes one; an
  update keeps every member of the task's object it was not given.

  `damaged_kept`: a text that is not one JSON array (for the facts, one object) is left
  alone by every sequence of calls exactly when `json_load` rejects it. It does not
  always: `cJSON_Parse` stops after the first value, so a text that goes on behind a
  closed array is accepted and cut at the next save (`early_bracket_overwritten`).
-/

import Shclaw.Agent.History
import Shclaw.JsonText
import Shclaw.Memory.Facts
import Shclaw.Scheduler.Invariant

namespace Shclaw.Stores

open Lib Scheduler Memory

/-! ## The list of tasks -/

/-- Where `sched_list` puts one more task, in a list with the last run first: equal run
    times stay in the order of the file. -/
def insertByTime (Z : Zone) (task : Json) : List Json → List Json
  | [] => [task]
  | x :: xs => if runTime Z task < runTime Z x then x :: insertByTime Z task xs else task :: x :: xs

def taskLine (task : Json) : Str :=
  let recur := task.jStr (lit "recurring")
  let prompt := (task.jStr (lit "prompt")).getD []
  lit "- [" ++ (task.jStr (lit "id")).getD (lit "?") ++ lit "] " ++ (task.jStr (lit "description")).getD [] ++ lit ", at " ++
    (task.jStr (lit "run_at")).getD (lit "?") ++ (if recur.isSome then lit ", recurring " else []) ++ recur.getD [] ++
    lit "\n" ++
    if prompt ≠ [] then lit "  prompt: " ++ prompt.take (Agent.utf8Prefix prompt 300) ++ lit "\n" else []

/-- `sched_list`. -/
def schedList (J : CJson) (Z : Zone) (path : Str) (f : File) : Str :=
  match loadTasks J f with
  | none => corrupt path
  | some tasks => (tasks.foldl (fun sorted task => insertByTime Z task sorted) []).reverse.flatMap taskLine

/-! ## The task an operation finds -/

theorem findTask_split {tasks : List Json} {id : Str} {task : Json} (h : findTask tasks id = some task) :
    isTask id task = true ∧ ∃ pre post, tasks = pre ++ task :: post ∧
      (∀ g, onTask id g tasks = pre ++ g task :: post) ∧ removeTask id tasks = pre ++ post := by
  refine ⟨(findTask_mem h).2, ?_⟩
  induction tasks with
  | nil => cases h
  | cons x tasks ih =>
    by_cases hx : isTask id x = true
    · obtain rfl : x = task := by simpa [findTask, hx] using h
      exact ⟨[], tasks, rfl, fun g => by simp [onTask, hx], by simp [removeTask, hx]⟩
    · obtain ⟨pre, post, hsplit, hon, hrm⟩ := ih (by simpa [findTask, hx] using h)
      refine ⟨x :: pre, post, by rw [hsplit]; rfl, fun g => ?_, ?_⟩
      · have := hon g
        simp only [onTask] at this
        simp [onTask, hx, this]
      · simp only [removeTask] at hrm
        simp [removeTask, hx, hrm]

/-! ## Calls that fail, calls that succeed -/

/-- The fields an update was given. -/
def givenFields (runAt desc prompt interval : Option Str) : List Str :=
  (if given runAt then [lit "run_at"] else []) ++ (if given desc then [lit "description"] else []) ++
    (if prompt.isSome then [lit "prompt"] else []) ++ (if interval.isSome then [lit "recurring"] else [])

/-- Both are objects, and the members with other keys than `ks` are the same, in order. -/
def OnlyFields (ks : List Str) (old new : Json) : Prop :=
  old.isObject = true ∧ new.isObject = true ∧ new.others ks = old.others ks

theorem OnlyFields.refl {ks : List Str} {j : Json} (h : j.isObject = true) : OnlyFields ks j j := ⟨h, h, rfl⟩

theorem OnlyFields.setItem {ks : List Str} {old new : Json} (h : OnlyFields ks old new) {k : Str} (hk : k ∈ ks) (v : Json) :
    OnlyFields ks old (new.setItem k v) :=
  ⟨h.1, (Json.isObject_setItem new k v).trans h.2.1, (Json.others_setItem hk new v).trans h.2.2⟩

/-- A step that sets a given field or does nothing. -/
theorem OnlyFields.setItem_if {ks : List Str} {old new : Json} (h : OnlyFields ks old new) {k : Str} {c : Prop}
    [Decidable c] (hk : c → k ∈ ks) (v : Json) : OnlyFields ks old (if c then new.setItem k v else new) := by
  split
  · rename_i hc
    exact h.setItem (hk hc) v
  · exact h

theorem isTask_isObject {id : Str} {task : Json} (h : isTask id task = true) : task.isObject = true := by
  cases task with
  | obj kvs => rfl
  | _ => simp [isTask, Json.jStr, Json.getObjectItem] at h

theorem updateTask_onlyFields {r runAt : Option Str} (hr : given r = true → given runAt = true)
    (desc prompt interval : Option Str) {task : Json} (h : task.isObject = true) :
    OnlyFields (givenFields runAt desc prompt interval) task (updateTask r desc prompt interval task) := by
  have h0 : OnlyFields (givenFields runAt desc prompt interval) task task := .refl h
  have h1 := h0.setItem_if (k := lit "run_at") (c := given r = true) (fun hc => by simp [givenFields, hr hc]) (.str (r.getD []))
  have h2 := h1.setItem_if (k := lit "description") (c := given desc = true)
    (fun hc => by simp [givenFields, hc]) (.str (desc.getD []))
  have h3 := h2.setItem_if (k := lit "prompt") (c := prompt.isSome = true)
    (fun hc => by simp [givenFields, hc]) (.str (prompt.getD []))
  exact h3.setItem_if (k := lit "recurring") (c := interval.isSome = true) (fun hc => by simp [givenFields, hc]) _

/-- What a call may do to `scheduler.json`: nothing, when its text says so, or replace the
    tasks loaded by tasks that are in the relation `R` to them. -/
def Outcome (J : CJson) (R : List Json → List Json → Prop) (f f' : File) (text : Str) : Prop :=
  (startsWith text (lit "Error") = true → f' = f) ∧
  (startsWith text (lit "Error") = false → ∃ tasks tasks', loadTasks J f = some tasks ∧ R tasks tasks' ∧
    f' = some (J.printFormatted (.arr tasks')))

theorem Outcome.of_error {J : CJson} {R : List Json → List Json → Prop} {f : File} {text : Str}
    (h : startsWith text (lit "Error") = true) : Outcome J R f f text :=
  ⟨fun _ => rfl, fun hok => absurd (h.symm.trans hok) (by simp)⟩

theorem Outcome.of_saved {J : CJson} {R : List Json → List Json → Prop} {f f' : File} {text : Str}
    (h : startsWith text (lit "Error") = false) {tasks tasks' : List Json} (hl : loadTasks J f = some tasks)
    (hR : R tasks tasks') (hf : f' = saveTasks J true tasks' f) : Outcome J R f f' text :=
  ⟨fun herr => absurd (h.symm.trans herr) (by simp), fun _ => ⟨tasks, tasks', hl, hR, hf⟩⟩

/-- Every call returns; an error leaves the file as it was, and a success changes its target
    alone: the task appended, the first task with the id, the key. -/
theorem writes_change_target (J : CJson) (Z : Zone) (path : Str) (f facts : File) :
    (∀ now tid saved runAt desc prompt interval, ∃ f' text,
      schedAdd J Z path now tid saved runAt desc prompt interval f = some (f', text) ∧
      Outcome J (fun tasks tasks' => ∃ task, tasks' = tasks ++ [task]) f f' text) ∧
    (∀ now saved id runAt desc prompt interval, ∃ f' text,
      schedUpdate J Z path now saved id runAt desc prompt interval f = some (f', text) ∧
      Outcome J (fun tasks tasks' => ∃ pre old new post, tasks = pre ++ old :: post ∧ tasks' = pre ++ new :: post ∧
        isTask (id.getD []) old = true ∧ OnlyFields (givenFields runAt desc prompt interval) old new) f f' text) ∧
    (∀ saved id, Outcome J (fun tasks tasks' => ∃ pre old post, tasks = pre ++ old :: post ∧ tasks' = pre ++ post ∧
        isTask (id.getD []) old = true) f (schedCancel J path saved id f).1 (schedCancel J path saved id f).2) ∧
    (∀ saved key value,
      (startsWith (factsSet J saved key value facts).2 (lit "Error") = true → (factsSet J saved key value facts).1 = facts) ∧
      (startsWith (factsSet J saved key value facts).2 (lit "Error") = false → ∃ old new, loadFacts J facts = some old ∧
        OnlyFields [key.getD []] old new ∧ (factsSet J saved key value facts).1 = some (J.printFormatted new))) := by
  refine ⟨?_, ?_, ?_, ?_⟩
  · intro now tid saved runAt desc prompt interval
    obtain ⟨⟨f', text⟩, h⟩ := Option.isSome_iff_exists.mp (schedAdd_isSome J Z path now tid saved runAt desc prompt interval f)
    refine ⟨f', text, h, ?_⟩
    rcases schedAdd_cases J h with ⟨rfl, herr⟩ | ⟨tasks, r, hl, -, -, -, hf, hok⟩
    · exact .of_error herr
    · exact .of_saved hok hl ⟨_, rfl⟩ hf
  · intro now saved id runAt desc prompt interval
    obtain ⟨⟨f', text⟩, h⟩ := Option.isSome_iff_exists.mp (schedUpdate_isSome J Z path now saved id runAt desc prompt interval f)
    refine ⟨f', text, h, ?_⟩
    rcases schedUpdate_cases J h with ⟨rfl, herr⟩ | ⟨tasks, task, r, hl, -, hfind, hc, hf, rfl⟩
    · exact .of_error herr
    · obtain ⟨htask, pre, post, hsplit, hon, -⟩ := findTask_split hfind
      have hr : given r = true → given runAt = true := by
        intro hgr
        by_contra hne
        rw [checkTask_absent hc (by simpa using hne)] at hgr
        cases hgr
      exact .of_saved rfl hl ⟨pre, task, _, post, hsplit, hon _, htask,
        updateTask_onlyFields hr desc prompt interval (isTask_isObject htask)⟩ hf
  · intro saved id
    rcases schedCancel_cases J path saved id f with ⟨hsame, herr⟩ | ⟨tasks, task, hl, -, hfind, hf, htext⟩
    · rw [hsame]
      exact .of_error herr
    · obtain ⟨htask, pre, post, hsplit, -, hrm⟩ := findTask_split hfind
      exact .of_saved (by rw [htext]; rfl) hl ⟨pre, task, post, hsplit, hrm, htask⟩ hf
  · intro saved key value
    rcases factsSet_cases J saved key value facts with ⟨hsame, herr⟩ | ⟨old, k, v, rfl, rfl, hl, hf, hok⟩
    · exact ⟨fun _ => hsame, fun hok => absurd (herr.symm.trans hok) (by simp)⟩
    · refine ⟨fun herr => absurd (hok.symm.trans herr) (by simp), fun _ => ⟨old, _, hl, ?_, hf⟩⟩
      exact (OnlyFields.refl (loadFacts_isObject J hl)).setItem List.mem_cons_self _

/-- A task for the next cup. -/
def cup : Json := newTask Zone.utc 0 (lit "1b2c3d4e") (lit "2026-01-31T18:30:00Z") (lit "tea") none none

/-- The task is added to no file, and its description changed in a file of its own. -/
theorem writes_change_target_tea :
    (∃ f' text task, schedAdd CJson.compact Zone.utc (lit "scheduler.json") 0 (lit "1b2c3d4e") true
        (some (lit "2026-01-31T18:30:00Z")) (some (lit "tea")) none none none = some (f', text) ∧
      text = lit "Task scheduled (id=1b2c3d4e): tea at 2026-01-31T18:30:00Z" ∧
      f' = some (CJson.compact.printFormatted (.arr [task]))) ∧
    ∃ f' text new, schedUpdate CJson.compact Zone.utc (lit "scheduler.json") 0 true (some (lit "1b2c3d4e")) none
        (some (lit "coffee")) none none (some (CJson.compact.printFormatted (.arr [cup]))) = some (f', text) ∧
      text = lit "Task 1b2c3d4e updated." ∧ f' = some (CJson.compact.printFormatted (.arr [new])) ∧
      OnlyFields [lit "description"] cup new := by
  have hload : loadTasks CJson.compact (some (CJson.compact.printFormatted (.arr [cup]))) = some [cup] := by
    unfold loadTasks
    simp only [CJson.compact.parse_printFormatted]
  constructor
  · obtain ⟨f', text, h, -, hsaved⟩ := (writes_change_target CJson.compact Zone.utc (lit "scheduler.json") none none).1
      0 (lit "1b2c3d4e") true (some (lit "2026-01-31T18:30:00Z")) (some (lit "tea")) none none
    have htext : (schedAdd CJson.compact Zone.utc (lit "scheduler.json") 0 (lit "1b2c3d4e") true
        (some (lit "2026-01-31T18:30:00Z")) (some (lit "tea")) none none none).map (·.2) =
          some (lit "Task scheduled (id=1b2c3d4e): tea at 2026-01-31T18:30:00Z") := by decide +kernel
    rw [h, Option.map_some] at htext
    obtain rfl := Option.some.inj htext
    obtain ⟨tasks, tasks', hl, ⟨task, rfl⟩, hf⟩ := hsaved (by decide)
    obtain rfl : tasks = [] := (Option.some.inj hl).symm
    exact ⟨f', _, task, h, rfl, hf⟩
  · obtain ⟨f', text, h, -, hsaved⟩ := (writes_change_target CJson.compact Zone.utc (lit "scheduler.json")
      (some (CJson.compact.printFormatted (.arr [cup]))) none).2.1 0 true (some (lit "1b2c3d4e")) none (some (lit "coffee")) none none
    have htext : (schedUpdate CJson.compact Zone.utc (lit "scheduler.json") 0 true (some (lit "1b2c3d4e")) none
        (some (lit "coffee")) none none (some (CJson.compact.printFormatted (.arr [cup])))).map (·.2) =
          some (lit "Task 1b2c3d4e updated.") := by
      unfold schedUpdate
      rw [hload]
      decide +kernel
    rw [h, Option.map_some] at htext
    obtain rfl := Option.some.inj htext
    obtain ⟨tasks, tasks', hl, ⟨pre, old, new, post, htasks, rfl, -, honly⟩, hf⟩ := hsaved (by decide)
    obtain rfl : tasks = [cup] := Option.some.inj (hl.symm.trans hload)
    cases pre with
    | nil =>
      cases htasks
      exact ⟨f', _, new, h, rfl, hf, honly⟩
    | cons x pre => simp at htasks

/-! ## A file that is not one value -/

/-- JSON's white space. -/
def isSpace (c : UInt8) : Bool := c = 32 || c = 9 || c = 10 || c = 13

/-- As a whole, up to white space, the text is one JSON array. -/
def WholeArray (R : CJsonReader) (text : Str) : Prop :=
  ∃ tasks rest, R.value text = some (.arr tasks, rest) ∧ rest.all isSpace = true

def WholeObject (R : CJsonReader) (text : Str) : Prop :=
  ∃ kvs rest, R.value text = some (.obj kvs, rest) ∧ rest.all isSpace = true

/-- The store and what its two read-only calls have answered. -/
structure Desk where
  store : Store
  listed : List Str
  due : List (List Json)

inductive TaskCall where
  | write (op : Op)
  | list
  | getDue

/-- The calls of the scheduler on a file that holds `text`. -/
def taskCalls (J : CJson) (Z : Zone) (path text : Str) : System Desk TaskCall where
  init := ⟨⟨0, some text⟩, [], []⟩
  step s
    | .write op => (storeStep J Z path s.store op).map fun store => { s with store }
    | .list => some { s with listed := s.listed ++ [schedList J Z path s.store.file] }
    | .getDue => some { s with due := s.due ++ [schedGetDue J Z s.store.now s.store.file] }

/-- No sequence of calls changes a `scheduler.json` that holds `text`. -/
def TasksKept (J : CJson) (Z : Zone) (path text : Str) : Prop :=
  ∀ s, (taskCalls J Z path text).Reach (fun _ _ => True) s → s.store.file = some text

structure Notebook where
  file : Option Str
  read : List Str

inductive FactsCall where
  | set (saved : Bool) (key value : Option Str)
  | get (key : Option Str)

def factsCalls (J : CJson) (text : Str) : System Notebook FactsCall where
  init := ⟨some text, []⟩
  step s
    | .set saved key value => some { s with file := (factsSet J saved key value s.file).1 }
    | .get key => some { s with read := s.read ++ [factsGet J key s.file] }

def FactsKept (J : CJson) (text : Str) : Prop :=
  ∀ s, (factsCalls J text).Reach (fun _ _ => True) s → s.file = some text

/-- A call on a file that does not load leaves it. -/
theorem storeStep_rejected {J : CJson} {Z : Zone} {path : Str} {s s' : Store} {op : Op} (hl : loadTasks J s.file = none)
    (h : storeStep J Z path s op = some s') : s'.file = s.file := by
  cases op with
  | tick d =>
    cases h
    rfl
  | add tid saved runAt desc prompt interval =>
    obtain ⟨⟨f', text⟩, hr, rfl⟩ := Option.map_eq_some_iff.mp h
    rcases schedAdd_cases J hr with ⟨hf, -⟩ | ⟨tasks, r, hl', -⟩
    · exact hf
    · rw [hl] at hl'
      cases hl'
  | update saved id runAt desc prompt interval =>
    obtain ⟨⟨f', text⟩, hr, rfl⟩ := Option.map_eq_some_iff.mp h
    rcases schedUpdate_cases J hr with ⟨hf, -⟩ | ⟨tasks, task, r, hl', -⟩
    · exact hf
    · rw [hl] at hl'
      cases hl'
  | cancel saved id =>
    cases h
    rcases schedCancel_cases J path saved id s.file with ⟨hf, -⟩ | ⟨tasks, task, hl', -⟩
    · exact hf
    · rw [hl] at hl'
      cases hl'
  | markDone saved ids =>
    simp only [storeStep, schedMarkDone, hl, Option.map_some, Option.some.injEq] at h
    rw [← h]

theorem loadTasks_rejected {J : CJson} {text : Str} (h : ∀ tasks, J.parse text ≠ some (.arr tasks)) :
    loadTasks J (some text) = none := by
  simp only [loadTasks]

theorem tasksKept_of_rejected {J : CJson} {Z : Zone} {path text : Str} (h : ∀ tasks, J.parse text ≠ some (.arr tasks)) :
    TasksKept J Z path text := by
  intro s hs
  refine hs.invariant (I := fun s => s.store.file = some text) rfl ?_
  intro s c s' hfile _ hstep
  cases c with
  | write op =>
    obtain ⟨store, hop, rfl⟩ := Option.map_eq_some_iff.mp hstep
    exact (storeStep_rejected (hfile ▸ loadTasks_rejected h) hop).trans hfile
  | list =>
    cases hstep
    exact hfile
  | getDue =>
    cases hstep
    exact hfile

/-- Marking nothing done still saves what was loaded: a text that is kept was printed. -/
theorem whole_of_tasksKept {R : CJsonReader} {Z : Zone} {path text : Str} {tasks : List Json}
    (h : R.parse text = some (.arr tasks)) (hkept : TasksKept R.toCJson Z path text) : WholeArray R text := by
  have hstep : (taskCalls R.toCJson Z path text).step (taskCalls R.toCJson Z path text).init (.write (.markDone true [])) =
      some ⟨⟨0, some (R.printFormatted (.arr tasks))⟩, [], []⟩ := by
    simp [taskCalls, storeStep, schedMarkDone, loadTasks, h, saveTasks]
  have hsame : some (R.printFormatted (.arr tasks)) = some text := hkept _ (.step _ .init trivial hstep)
  refine ⟨tasks, [], ?_, rfl⟩
  rw [← Option.some.inj hsame]
  exact R.value_printFormatted _

theorem tasksKept_iff (R : CJsonReader) (Z : Zone) (path text : Str) :
    (¬ WholeArray R text → TasksKept R.toCJson Z path text) ↔
      WholeArray R text ∨ ∀ tasks, R.parse text ≠ some (.arr tasks) := by
  constructor
  · intro h
    by_cases hw : WholeArray R text
    · exact Or.inl hw
    · exact Or.inr fun tasks hp => hw (whole_of_tasksKept hp (h hw))
  · rintro (hw | hrej) hne
    · exact absurd hw hne
    · exact tasksKept_of_rejected hrej

theorem loadFacts_rejected {J : CJson} {text : Str} (h : ∀ kvs, J.parse text ≠ some (.obj kvs)) :
    loadFacts J (some text) = none := by
  simp only [loadFacts]

theorem factsKept_of_rejected {J : CJson} {text : Str} (h : ∀ kvs, J.parse text ≠ some (.obj kvs)) : FactsKept J text := by
  intro s hs
  refine hs.invariant (I := fun s => s.file = some text) rfl ?_
  intro s c s' hfile _ hstep
  cases c with
  | set saved key value =>
    cases hstep
    rcases factsSet_cases J saved key value s.file with ⟨hsame, -⟩ | ⟨facts, k, v, -, -, hl, -⟩
    · exact hsame.trans hfile
    · rw [hfile, loadFacts_rejected h] at hl
      cases hl
  | get key =>
    cases hstep
    exact hfile

/-- A fact that is set is printed with all the others. -/
theorem whole_of_factsKept {R : CJsonReader} {text : Str} {kvs : List (Str × Json)} (h : R.parse text = some (.obj kvs))
    (hkept : FactsKept R.toCJson text) : WholeObject R text := by
  have hl : loadFacts R.toCJson (some text) = some (.obj kvs) := by simp [loadFacts, h]
  obtain ⟨new, hnew⟩ : ∃ new, (Json.obj kvs).setString [ch 'k'] [] = .obj new := ⟨_, rfl⟩
  have hset : (factsSet R.toCJson true (some [ch 'k']) (some []) (some text)).1 = some (R.printFormatted (.obj new)) := by
    simp only [factsSet, hl, saveFacts, if_true, hnew]
  have hsame := hkept _ (.step (.set true (some [ch 'k']) (some [])) .init trivial rfl)
  rw [show (factsCalls R.toCJson text).init.file = some text from rfl, hset] at hsame
  refine ⟨new, [], ?_, rfl⟩
  rw [← Option.some.inj hsame]
  exact R.value_printFormatted _

theorem factsKept_iff (R : CJsonReader) (text : Str) :
    (¬ WholeObject R text → FactsKept R.toCJson text) ↔
      WholeObject R text ∨ ∀ kvs, R.parse text ≠ some (.obj kvs) := by
  constructor
  · intro h
    by_cases hw : WholeObject R text
    · exact Or.inl hw
    · exact Or.inr fun kvs hp => hw (whole_of_factsKept hp (h hw))
  · rintro (hw | hrej) hne
    · exact absurd hw hne
    · exact factsKept_of_rejected hrej

/-- A text that is not one array (one object) survives every sequence of calls exactly when
    the first value in it is not an array (an object). -/
theorem damaged_kept (R : CJsonReader) (Z : Zone) (path text : Str) :
    ((¬ WholeArray R text → TasksKept R.toCJson Z path text) ↔
      WholeArray R text ∨ ∀ tasks, R.parse text ≠ some (.arr tasks)) ∧
    ((¬ WholeObject R text → FactsKept R.toCJson text) ↔
      WholeObject R text ∨ ∀ kvs, R.parse text ≠ some (.obj kvs)) :=
  ⟨tasksKept_iff R Z path text, factsKept_iff R text⟩

/-- Two tasks, after a hand edit that closed the array behind the first. -/
def closedEarly : Str := lit "[\x7b\"id\":\"t1\"\x7d],\x7b\"id\":\"t2\"\x7d]"

theorem early_bracket_overwritten : ¬ ∀ text, ¬ WholeArray CJsonReader.compact text →
    TasksKept CJsonReader.compact.toCJson Zone.utc [] text := by
  intro hall
  have hvalue : CJsonReader.compact.value closedEarly =
      some (.arr [.obj [(lit "id", .str (lit "t1"))]], lit ",\x7b\"id\":\"t2\"\x7d]") := by decide +kernel
  have hparse : CJsonReader.compact.parse closedEarly = some (.arr [.obj [(lit "id", .str (lit "t1"))]]) := by
    rw [CJsonReader.compact.parse_value, hvalue]
    rfl
  have hbroken : ¬ WholeArray CJsonReader.compact closedEarly := by
    rintro ⟨tasks, rest, hv, hspace⟩
    rw [hvalue] at hv
    cases hv
    exact absurd hspace (by decide)
  exact hbroken (whole_of_tasksKept hparse (hall closedEarly hbroken))

end Shclaw.Stores
