/-
  Shclaw.Scheduler.Phase — where recurring tasks move to (`src/scheduler.c`:
  `sched_mark_done`, `check_task`).

  A task that recurs every `s` seconds and was due at `t` keeps its phase: it moves to
  the least `t + k * s`, `k` at least 1, that is still to come (`IsNext`), and the text
  written for it denotes that instant again, before the year 10000 (`phase_kept`).
  `now` is what `time(NULL)` gives: not before 1970. `sched_mark_done` works on the list
  as the ids before left it; the tasks no id names stay as they are, in their order.
-/

import Shclaw.Scheduler.Invariant

namespace Shclaw.Scheduler

open Lib

/-- The next occurrence after `now`. -/
def IsNext (t s now r : Int) : Prop :=
  (∃ k : Nat, 1 ≤ k ∧ r = t + k * s) ∧ now < r ∧ ∀ k : Nat, 1 ≤ k → now < t + k * s → r ≤ t + k * s

/-- The text of an instant, which denotes it. -/
def Denotes (Z : Zone) (r : Int) (text : Str) : Prop := r < year10000 → schedParseTime Z (some text) = r

/-- No id names the task. -/
def unlisted (ids : List Str) (task : Json) : Bool := !ids.any (isTask · task)

/-- The loop stops at the next occurrence. -/
theorem advance_isNext {t s now : Int} (hs : 0 < s) (ht : t ≤ now) : ∃ r, advance t s now = some r ∧ IsNext t s now r := by
  obtain ⟨r, hr, hlt, k, hk, hmin⟩ := advance_spec hs t now
  have hk1 : 1 ≤ k := by
    rcases Nat.eq_zero_or_pos k with rfl | hpos
    · rw [hk] at hlt
      push_cast at hlt
      omega
    · exact hpos
  refine ⟨r, hr, ⟨k, hk1, hk⟩, hlt, fun j _ hj => ?_⟩
  have hprev : r - s ≤ now := by
    rcases hmin with h0 | h
    · omega
    · exact h
  -- an occurrence after `now` is not before `r`
  have hkj : k ≤ j := by
    by_contra hlt'
    have hle : (j : Int) + 1 ≤ k := by omega
    have hmul := Int.mul_le_mul_of_nonneg_right hle (Int.le_of_lt hs)
    rw [Int.add_mul, Int.one_mul] at hmul
    omega
  have hmul := Int.mul_le_mul_of_nonneg_right (Int.ofNat_le.mpr hkj) (Int.le_of_lt hs)
  rw [hk]
  omega

theorem IsNext.unique {t s now r r' : Int} (h : IsNext t s now r) (h' : IsNext t s now r') : r = r' := by
  obtain ⟨⟨k, hk, rfl⟩, hlt, hmin⟩ := h
  obtain ⟨⟨k', hk', rfl⟩, hlt', hmin'⟩ := h'
  exact Int.le_antisymm (hmin k' hk' hlt') (hmin' k hk hlt)

/-! ## One id -/

theorem jStr_setString_ne (j : Json) {k l : Str} (v : Str) (h : strcaseeq k l = false) :
    (j.setString k v).jStr l = j.jStr l := by
  cases j with
  | obj kvs =>
    unfold Json.jStr Json.setString Json.setItem
    simp only [Json.deleteItem, Json.addItem, Json.getObjectItem, List.find?_append]
    rw [Json.find?_eraseP_ne kvs h]
    simp [h]
  | _ => rfl

/-- A new run time leaves the id. -/
theorem isTask_setRunAt (id : Str) (task : Json) (text : Str) :
    isTask id (task.setString (lit "run_at") text) = isTask id task := by
  unfold isTask
  rw [jStr_setString_ne task text (by decide)]

/-- A recurring task that was due moves to its next occurrence. -/
theorem markDoneOne_next {Z : Zone} {now : Int} {tasks : List Json} {id : Str} {task : Json}
    (hf : findTask tasks id = some task) (hs : 0 < intervalSeconds (task.jStr (lit "recurring")))
    (h0 : 0 < runTime Z task) (hnow : runTime Z task ≤ now) : ∃ r text,
      IsNext (runTime Z task) (intervalSeconds (task.jStr (lit "recurring"))) now r ∧ Denotes Z r text ∧
      markDoneOne Z now tasks id = some (onTask id (·.setString (lit "run_at") text) tasks) := by
  obtain ⟨r, hr, hnext⟩ := advance_isNext hs hnow
  refine ⟨r, formatTime Z r false, hnext, fun hlate => parse_format Z ?_ hlate, ?_⟩
  · have := hnext.2.1
    omega
  · unfold markDoneOne
    rw [hf]
    simp only
    rw [if_neg (by omega), hr]
    rfl

theorem onTask_cons_pos {id : Str} {x : Json} (g : Json → Json) (tasks : List Json) (h : isTask id x = true) :
    onTask id g (x :: tasks) = g x :: tasks := by
  unfold onTask
  simp [List.replaceF, h]

theorem onTask_cons_neg {id : Str} {x : Json} (g : Json → Json) (tasks : List Json) (h : ¬ isTask id x = true) :
    onTask id g (x :: tasks) = x :: onTask id g tasks := by
  unfold onTask
  simp [List.replaceF, h]

/-- The task changed is the one found. -/
theorem findTask_onTask {tasks : List Json} {id : Str} {task : Json} {g : Json → Json} (hg : isTask id (g task) = true)
    (hf : findTask tasks id = some task) : findTask (onTask id g tasks) id = some (g task) := by
  unfold findTask at *
  induction tasks with
  | nil => cases hf
  | cons x tasks ih =>
    by_cases hx : isTask id x = true
    · rw [List.find?_cons_of_pos hx] at hf
      cases hf
      rw [onTask_cons_pos g tasks hx, List.find?_cons_of_pos hg]
    · rw [List.find?_cons_of_neg hx] at hf
      rw [onTask_cons_neg g tasks hx, List.find?_cons_of_neg hx, ih hf]

/-- A test no named task passes finds and keeps the same in the list `sched_mark_done` leaves. -/
theorem test_markDoneOne {Z : Zone} {now : Int} {tasks tasks' : List Json} {id : Str} {q : Json → Bool}
    (hq : ∀ x, isTask id x = true → q x = false) (h : markDoneOne Z now tasks id = some tasks') :
    tasks'.find? q = tasks.find? q ∧ tasks'.filter q = tasks.filter q := by
  rcases markDoneOne_cases Z now tasks id with ⟨-, hm⟩ | ⟨task, -, ⟨-, hm⟩ | ⟨t, -, -, -, hm⟩⟩
  · rw [hm] at h
    cases h
    exact ⟨rfl, rfl⟩
  · rw [hm] at h
    cases h
    clear hm
    unfold removeTask
    induction tasks with
    | nil => exact ⟨rfl, rfl⟩
    | cons x tasks ih =>
      by_cases hx : isTask id x = true
      · have hno : ¬ q x = true := by rw [hq x hx]; decide
        rw [List.eraseP_cons_of_pos hx, List.find?_cons_of_neg hno, List.filter_cons_of_neg hno]
        exact ⟨rfl, rfl⟩
      · rw [List.eraseP_cons_of_neg hx, List.find?_cons, List.find?_cons, List.filter_cons, List.filter_cons, ih.1, ih.2]
        exact ⟨rfl, rfl⟩
  · rw [hm] at h
    cases h
    clear hm
    induction tasks with
    | nil => exact ⟨rfl, rfl⟩
    | cons x tasks ih =>
      by_cases hx : isTask id x = true
      · have hno : ¬ q x = true := by rw [hq x hx]; decide
        have hno' : ¬ q (x.setString (lit "run_at") (formatTime Z t false)) = true := by
          rw [hq _ ((isTask_setRunAt id x _).trans hx)]
          decide
        rw [onTask_cons_pos _ tasks hx, List.find?_cons_of_neg hno, List.filter_cons_of_neg hno,
          List.find?_cons_of_neg hno', List.filter_cons_of_neg hno']
        exact ⟨rfl, rfl⟩
      · rw [onTask_cons_neg _ tasks hx, List.find?_cons, List.find?_cons, List.filter_cons, List.filter_cons, ih.1, ih.2]
        exact ⟨rfl, rfl⟩

theorem isTask_ne {id id' : Str} (hne : id ≠ id') {x : Json} (h : isTask id' x = true) : isTask id x = false := by
  unfold isTask at *
  rw [of_decide_eq_true h]
  exact decide_eq_false fun heq => hne (Option.some.inj heq).symm

/-- The ids behind leave the task another one moved. -/
theorem findTask_foldlM {Z : Zone} {now : Int} {id : Str} {ids : List Str} (h : id ∉ ids) :
    ∀ {tasks tasks' : List Json}, ids.foldlM (markDoneOne Z now) tasks = some tasks' →
      findTask tasks' id = findTask tasks id := by
  induction ids with
  | nil =>
    intro tasks tasks' hf
    cases hf
    rfl
  | cons i ids ih =>
    intro tasks tasks' hf
    rw [List.mem_cons, not_or] at h
    rw [List.foldlM_cons] at hf
    obtain ⟨tasks₁, h₁, h₂⟩ := Option.bind_eq_some_iff.mp hf
    rw [ih h.2 h₂]
    exact (test_markDoneOne (fun x hx => isTask_ne h.1 hx) h₁).1

/-- The tasks no id names stay, in their order. -/
theorem unlisted_foldlM {Z : Zone} {now : Int} {all ids : List Str} (h : ∀ id ∈ ids, id ∈ all) :
    ∀ {tasks tasks' : List Json}, ids.foldlM (markDoneOne Z now) tasks = some tasks' →
      tasks'.filter (unlisted all) = tasks.filter (unlisted all) := by
  induction ids with
  | nil =>
    intro tasks tasks' hf
    cases hf
    rfl
  | cons i ids ih =>
    intro tasks tasks' hf
    rw [List.foldlM_cons] at hf
    obtain ⟨tasks₁, h₁, h₂⟩ := Option.bind_eq_some_iff.mp hf
    have hlisted : ∀ x, isTask i x = true → unlisted all x = false := by
      intro x hx
      unfold unlisted
      rw [List.any_eq_true.mpr ⟨i, h i List.mem_cons_self, hx⟩]
      rfl
    rw [ih (fun id hid => h id (List.mem_cons_of_mem _ hid)) h₂]
    exact (test_markDoneOne hlisted h₁).2

/-! ## The calls -/

/-- What `sched_mark_done` makes of a list: the tasks not named stay, and a recurring task
    that was due when its id came moves to its next occurrence. -/
structure MarksDone (Z : Zone) (now : Int) (ids : List Str) (tasks tasks' : List Json) : Prop where
  others : tasks'.filter (unlisted ids) = tasks.filter (unlisted ids)
  moved : ∀ pre id post, ids = pre ++ id :: post → id ∉ post → ∀ tasks₁ task,
    pre.foldlM (markDoneOne Z now) tasks = some tasks₁ → findTask tasks₁ id = some task →
    0 < intervalSeconds (task.jStr (lit "recurring")) → 0 < runTime Z task → runTime Z task ≤ now →
    ∃ r text, IsNext (runTime Z task) (intervalSeconds (task.jStr (lit "recurring"))) now r ∧ Denotes Z r text ∧
      findTask tasks' id = some (task.setString (lit "run_at") text)

theorem marksDone {Z : Zone} {now : Int} {ids : List Str} {tasks tasks' : List Json}
    (h : ids.foldlM (markDoneOne Z now) tasks = some tasks') : MarksDone Z now ids tasks tasks' := by
  refine ⟨unlisted_foldlM (fun id hid => hid) h, ?_⟩
  intro pre id post hids hpost tasks₁ task hpre hf hs h0 hnow
  obtain ⟨r, text, hnext, hdenotes, hone⟩ := markDoneOne_next hf hs h0 hnow
  refine ⟨r, text, hnext, hdenotes, ?_⟩
  rw [hids, List.foldlM_append] at h
  obtain ⟨t₁, h₁, h₂⟩ := Option.bind_eq_some_iff.mp h
  rw [hpre] at h₁
  cases h₁
  rw [List.foldlM_cons] at h₂
  obtain ⟨t₂, h₃, h₄⟩ := Option.bind_eq_some_iff.mp h₂
  rw [hone] at h₃
  cases h₃
  rw [findTask_foldlM hpost h₄]
  refine findTask_onTask ?_ hf
  rw [isTask_setRunAt]
  exact List.find?_some hf

/-- A past start moves to its next occurrence. -/
theorem checkTask_next {Z : Zone} {now : Int} {runAt interval : Option Str} (hclock : 0 ≤ now)
    (hs : 0 < intervalSeconds interval) (hne : schedParseTime Z runAt ≠ 0) (hnow : schedParseTime Z runAt ≤ now) :
    ∃ r text, IsNext (schedParseTime Z runAt) (intervalSeconds interval) now r ∧ Denotes Z r text ∧
      checkTask Z now runAt interval = some (.ok (some text)) := by
  obtain ⟨r, hr, hnext⟩ := advance_isNext hs hnow
  have hpos : 0 ≤ r := Int.le_of_lt (lt_of_le_of_lt hclock hnext.2.1)
  refine ⟨r, formatTime Z r false, hnext, fun hlate => parse_format Z hpos hlate, ?_⟩
  have hgiven : given runAt = true := by
    by_contra hno
    apply hne
    cases runAt with
    | none => rfl
    | some text =>
      have hnil : text = [] := by simpa [given] using hno
      rw [hnil]
      rfl
  have hinterval : given interval = true := by
    by_contra hno
    cases interval with
    | none => exact absurd hs (by decide)
    | some name =>
      have hnil : name = [] := by simpa [given] using hno
      rw [hnil] at hs
      exact absurd hs (by decide)
  have hasked : askedTime Z runAt = schedParseTime Z runAt := if_pos hgiven
  unfold checkTask
  simp only [hasked]
  rw [if_neg (fun h => hne h.2), if_neg (fun h => by omega), if_pos ⟨hne, hnow⟩, hinterval, hr]
  rfl

variable (J : CJson)

theorem phase_kept (Z : Zone) (now : Int) :
    (∀ saved ids f tasks, loadTasks J f = some tasks → ∃ tasks',
      schedMarkDone J Z now saved ids f = some (saveTasks J saved tasks' f) ∧ MarksDone Z now ids tasks tasks') ∧
    (0 ≤ now → ∀ runAt interval, 0 < intervalSeconds interval → schedParseTime Z runAt ≠ 0 →
      schedParseTime Z runAt ≤ now →
      ∃ r text, IsNext (schedParseTime Z runAt) (intervalSeconds interval) now r ∧ Denotes Z r text ∧
        checkTask Z now runAt interval = some (.ok (some text))) := by
  constructor
  · intro saved ids f tasks hl
    obtain ⟨tasks', h, -⟩ := foldlM_markDone (fun _ => True)
      (fun tasks _ id (_ : id ∈ ids) => (Option.isSome_iff_exists.mp (markDoneOne_isSome Z now tasks id)).imp fun _ h => ⟨h, trivial⟩)
      tasks trivial
    refine ⟨tasks', ?_, marksDone h⟩
    unfold schedMarkDone
    rw [hl]
    simp only
    rw [h]
    rfl
  · intro hclock runAt interval hs hne hnow
    exact checkTask_next hclock hs hne hnow

/-- A daily task, due on the last of January. -/
def januaryTask : Json :=
  newTask Zone.utc 0 (lit "1b2c3d4e") (lit "2026-01-31T18:30:00Z") (lit "tea") none (some (lit "daily"))

/-- A day and an hour later. -/
def february : Int := 1769974200

theorem phase_kept_daily :
    (∃ tasks', schedMarkDone CJson.compact Zone.utc february true [lit "1b2c3d4e"]
        (some (CJson.compact.printFormatted (.arr [januaryTask]))) =
          some (saveTasks CJson.compact true tasks' (some (CJson.compact.printFormatted (.arr [januaryTask])))) ∧
      ∃ r text, IsNext (runTime Zone.utc januaryTask) 86400 february r ∧ Denotes Zone.utc r text ∧
        findTask tasks' (lit "1b2c3d4e") = some (januaryTask.setString (lit "run_at") text)) ∧
    ∃ r, IsNext 1769884200 86400 february r ∧ Denotes Zone.utc r (lit "2026-02-02T18:30:00Z") := by
  have hload : loadTasks CJson.compact (some (CJson.compact.printFormatted (.arr [januaryTask]))) = some [januaryTask] := by
    unfold loadTasks
    simp only [CJson.compact.parse_printFormatted]
  have htime : runTime Zone.utc januaryTask = 1769884200 := by decide +kernel
  have hasked : schedParseTime Zone.utc (some (lit "2026-01-31T18:30:00Z")) = 1769884200 := by decide +kernel
  constructor
  · obtain ⟨tasks', h, hmarks⟩ := (phase_kept CJson.compact Zone.utc february).1 true [lit "1b2c3d4e"]
      (some (CJson.compact.printFormatted (.arr [januaryTask]))) [januaryTask] hload
    refine ⟨tasks', h, ?_⟩
    exact hmarks.moved [] (lit "1b2c3d4e") [] rfl (fun hmem => by cases hmem) [januaryTask] januaryTask rfl
      (by decide +kernel) (by decide +kernel) (by rw [htime]; decide) (by rw [htime]; decide)
  · obtain ⟨r, text, hnext, hdenotes, hcheck⟩ := (phase_kept CJson.compact Zone.utc february).2 (by decide)
      (some (lit "2026-01-31T18:30:00Z")) (some (lit "daily")) (by decide +kernel) (by rw [hasked]; decide)
      (by rw [hasked]; decide)
    have hwritten : checkTask Zone.utc february (some (lit "2026-01-31T18:30:00Z")) (some (lit "daily")) =
        some (.ok (some (lit "2026-02-02T18:30:00Z"))) := by
      rfl
    rw [hwritten] at hcheck
    cases hcheck
    rw [hasked] at hnext
    exact ⟨r, hnext, hdenotes⟩

end Shclaw.Scheduler
