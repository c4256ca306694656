/-
  Shclaw.Tools.Recurring — what `schedule_recurring` leaves in the schedule
  (`src/tools.c`: `tool_check_args`, `execute_tool`; `src/scheduler.c`: `check_task`,
  `sched_add`).

  `recurs_iff`: with accepted arguments the call fails and leaves the schedule, or adds
  one task that recurs and is still to run, exactly when it is refused or got an
  interval, and a start in the past has its next occurrence in the years 0 to 9999.
  Trace: the check takes an empty interval, for which `sched_add` makes a task that runs
  once (`empty_interval_runs_once`).
-/

import Shclaw.Scheduler.Phase
import Shclaw.Tools.Execute

namespace Shclaw.Tools

open Lib Scheduler

/-- The task recurs and is still to run. -/
structure Recurs (m : Moment) (task : Json) : Prop where
  interval : ∃ name ∈ intervals.map (·.1), task.jStr (lit "recurring") = some name
  future : m.now < runTime m.zone task ∧ runTime m.zone task ≠ 0

/-- The file holds the tasks it held and one more, which recurs. -/
def AddsRecurring (J : CJson) (m : Moment) (f f' : File) : Prop :=
  ∃ tasks task, loadTasks J f = some tasks ∧ f' = some (J.printFormatted (.arr (tasks ++ [task]))) ∧ Recurs m task

/-- What the call is for. -/
def SchedulesRecurring (J : CJson) (m : Moment) (f f' : File) (text : Str) : Prop :=
  startsWith text (lit "Error") = true ∧ f' = f ∨ startsWith text (lit "Error") = false ∧ AddsRecurring J m f f'

/-- The instant the first run is asked for; 0 when it is none. -/
def start (m : Moment) (input : Json) : Int := askedTime m.zone (startText m input)

def interval (input : Json) : Option Str := input.jStr (lit "interval")

/-- The call is answered with an error: no time or description, a time or an interval that is none, a
    start in the past that does not recur, a schedule that cannot be read or saved. -/
def Refused (J : CJson) (m : Moment) (input : Json) (f : File) : Prop :=
  given (startText m input) = false ∨ given (input.jStr (lit "description")) = false ∨ start m input = 0 ∨
    (given (interval input) = true ∧ intervalSeconds (interval input) = 0) ∨
    (given (interval input) = false ∧ start m input ≤ m.now) ∨ loadTasks J f = none ∨ m.saved = false

/-- The next occurrence of a start in the past can be written. -/
def NextWritable (m : Moment) (input : Json) : Prop :=
  start m input ≤ m.now → ∀ r, IsNext (start m input) (intervalSeconds (interval input)) m.now r →
    (year0 ≤ r ∧ r < year10000) ∧ r ≠ 0

/-! ## The two ways a call ends -/

section Ends

variable {J : CJson} {m : Moment} {input : Json}

theorem startText_date (h : ¬ 0 < jInt input (lit "in_minutes") 0) : startText m input = input.jStr (lit "run_at") := by
  unfold startText
  simp only [if_neg h]

/-- Without an interval nothing recurs. -/
theorem intervalSeconds_none {name : Option Str} (h : given name = false) : intervalSeconds name = 0 := by
  cases name with
  | none => rfl
  | some name =>
    have hnil : name = [] := by simpa [given] using h
    rw [hnil]
    rfl

/-- `sched_add` is answered with an error. -/
theorem schedAdd_refused {path tid : Str} {prompt : Option Str} {f f' : File} {text : Str} (hr : Refused J m input f)
    (h : schedAdd J m.zone path m.now tid m.saved (startText m input) (input.jStr (lit "description")) prompt
      (interval input) f = some (f', text)) : startsWith text (lit "Error") = true ∧ f' = f := by
  rcases schedAdd_cases J h with ⟨hf, htext⟩ | ⟨tasks, r, hload, hstart, hdesc, hcheck, -, htext⟩
  · exact ⟨htext, hf⟩
  exfalso
  obtain ⟨hgood, htime⟩ := checkTask_ok hcheck
  have hasked : start m input = schedParseTime m.zone (startText m input) := if_pos hstart
  have hne : start m input ≠ 0 := by
    rcases htime with ⟨-, ht⟩ | ⟨t, hmoved, -⟩
    · rw [hasked]
      exact (ht hstart).2
    · unfold moved at hmoved
      split at hmoved
      · rename_i hpast
        exact hpast.1
      · cases hmoved
  rcases hr with hno | hno | hno | ⟨hg, hno⟩ | ⟨hg, hpast⟩ | hno | hno
  · rw [hstart] at hno
    cases hno
  · rw [hdesc] at hno
    cases hno
  · exact hne hno
  · have := hgood hg
    omega
  · rcases htime with ⟨-, ht⟩ | ⟨t, hmoved, -⟩
    · have := (ht hstart).1
      omega
    · unfold moved at hmoved
      rw [if_neg fun hpos => by rw [intervalSeconds_none hg] at hpos; omega] at hmoved
      cases hmoved
  · rw [hload] at hno
    cases hno
  · -- a list that is not saved is an error
    unfold schedAdd at h
    rw [if_neg (by simp [hstart, hdesc]), hcheck] at h
    simp only [Option.map_some, hload, hno, Option.some.injEq, Prod.mk.injEq] at h
    rw [← h.2] at htext
    cases htext

/-- The instant that is stored: the one asked for, or the next occurrence of a start in the past. -/
def Stored (m : Moment) (input : Json) (runAt : Str) : Prop :=
  m.now < start m input ∧ schedParseTime m.zone (some runAt) = start m input ∨
    start m input ≤ m.now ∧ ∃ r, IsNext (start m input) (intervalSeconds (interval input)) m.now r ∧
      runAt = formatTime m.zone r false

/-- `sched_add` adds its task. -/
theorem schedAdd_added (path : Str) (prompt : Option Str) {f : File} (hr : ¬ Refused J m input f) :
    ∃ tasks runAt text, loadTasks J f = some tasks ∧ Stored m input runAt ∧ startsWith text (lit "Error") = false ∧
      schedAdd J m.zone path m.now m.id m.saved (startText m input) (input.jStr (lit "description")) prompt
        (interval input) f =
      some (some (J.printFormatted (.arr (tasks ++ [newTask m.zone m.now m.id runAt
        ((input.jStr (lit "description")).getD []) prompt (interval input)]))), text) := by
  unfold Refused at hr
  simp only [not_or, Bool.not_eq_false, not_and] at hr
  obtain ⟨hstart, hdesc, hne, hknown, hfuture, hload, hsaved⟩ := hr
  obtain ⟨tasks, htasks⟩ := Option.ne_none_iff_exists'.mp hload
  -- what `check_task` makes of the run time
  have hcheck : ∃ r, checkTask m.zone m.now (startText m input) (interval input) = some (.ok (some r)) ∧ Stored m input r := by
    have hasked : start m input = schedParseTime m.zone (startText m input) := if_pos hstart
    unfold checkTask
    change ∃ r, (if given (startText m input) = true ∧ start m input = 0 then _ else _) = _ ∧ _
    rw [if_neg fun h => hne h.2, if_neg fun h => hknown h.1 h.2]
    by_cases hpast : start m input ≤ m.now
    · have hgiven : given (interval input) = true := by
        by_contra hno
        exact hfuture (by simpa using hno) hpast
      have hpos : 0 < intervalSeconds (interval input) := by
        rcases intervalSeconds_cases (interval input) with h0 | hpos
        · exact absurd h0 (hknown hgiven)
        · exact hpos
      obtain ⟨r, hadvance, hnext⟩ := advance_isNext hpos hpast
      refine ⟨formatTime m.zone r false, ?_, Or.inr ⟨hpast, r, hnext, rfl⟩⟩
      change (if start m input ≠ 0 ∧ start m input ≤ m.now then _ else _) = _
      rw [if_pos ⟨hne, hpast⟩, if_neg (by simp [hgiven])]
      change (advance (start m input) _ _).map _ = _
      rw [hadvance]
      rfl
    · obtain ⟨htext, -⟩ := getD_of_given hstart
      refine ⟨(startText m input).getD [], ?_, Or.inl ⟨by omega, by rw [htext, hasked]⟩⟩
      change (if start m input ≠ 0 ∧ start m input ≤ m.now then _ else _) = _
      rw [if_neg fun h => hpast h.2, htext]
  obtain ⟨runAt, hcheck, hstored⟩ := hcheck
  refine ⟨tasks, runAt, lit "Task scheduled (id=" ++ m.id ++ lit "): " ++ (input.jStr (lit "description")).getD [] ++
    lit " at " ++ runAt ++ (if given (interval input) then lit ", recurring " ++ (interval input).getD [] else []),
    htasks, hstored, rfl, ?_⟩
  unfold schedAdd
  rw [if_neg (by simp [hstart, hdesc]), hcheck]
  simp only [Option.map_some, htasks, hsaved, saveTasks, if_true, Option.getD_some]

/-- The task that is added recurs and is still to run with an interval, unless its next occurrence cannot be written. -/
theorem newTask_recurs {runAt : Str} (desc : Str) (prompt : Option Str) {f : File} (hr : ¬ Refused J m input f)
    (hs : Stored m input runAt) : Recurs m (newTask m.zone m.now m.id runAt desc prompt (interval input)) ↔
      given (interval input) = true ∧ NextWritable m input := by
  have htime : runTime m.zone (newTask m.zone m.now m.id runAt desc prompt (interval input)) =
      schedParseTime m.zone (some runAt) := rfl
  have hrecurring : (newTask m.zone m.now m.id runAt desc prompt (interval input)).jStr (lit "recurring") =
      if given (interval input) then some ((interval input).getD []) else none := by
    unfold newTask
    split <;> rfl
  unfold Refused at hr
  simp only [not_or] at hr
  obtain ⟨-, -, hne, hknown, -⟩ := hr
  constructor
  · intro h
    obtain ⟨name, -, hname⟩ := h.interval
    have hgiven : given (interval input) = true := by
      by_contra hno
      rw [hrecurring, if_neg hno] at hname
      cases hname
    refine ⟨hgiven, fun hpast r hnext => ?_⟩
    rcases hs with ⟨hlater, -⟩ | ⟨-, r', hnext', htext⟩
    · omega
    · rw [hnext.unique hnext']
      apply (parse_format_ne_zero m.zone r').mp
      rw [← htext, ← htime]
      exact h.future.2
  · intro ⟨hgiven, hwritable⟩
    have hpos : 0 < intervalSeconds (interval input) := by
      rcases intervalSeconds_cases (interval input) with h0 | hpos
      · exact absurd ⟨hgiven, h0⟩ hknown
      · exact hpos
    refine ⟨⟨(interval input).getD [], interval_name hpos, by rw [hrecurring, if_pos hgiven]⟩, ?_⟩
    rw [htime]
    rcases hs with ⟨hlater, hparse⟩ | ⟨hpast, r, hnext, htext⟩
    · rw [hparse]
      exact ⟨hlater, hne⟩
    · obtain ⟨⟨hfrom, hlate⟩, h0⟩ := hwritable hpast r hnext
      rw [htext, parse_format_from0 m.zone hfrom hlate]
      exact ⟨hnext.2.1, h0⟩

/-- What was added is the task of the file. -/
theorem addsRecurring_iff {f : File} {tasks : List Json} {task : Json} (hload : loadTasks J f = some tasks) :
    AddsRecurring J m f (some (J.printFormatted (.arr (tasks ++ [task])))) ↔ Recurs m task := by
  constructor
  · intro ⟨tasks', task', hload', htext, hrecurs⟩
    obtain rfl : tasks = tasks' := Option.some.inj (hload.symm.trans hload')
    -- a text is printed for one value
    have hval := congrArg J.parse (Option.some.inj htext)
    rw [J.parse_printFormatted, J.parse_printFormatted] at hval
    obtain rfl : task = task' := by simpa using hval
    exact hrecurs
  · intro h
    exact ⟨tasks, task, hload, rfl, h⟩

variable (J m input) in
/-- When the call does what it is for. -/
theorem schedule_iff (d : Daemon) : (∃ d' text, schedule J true input m d = .ok (d', text) ∧
      SchedulesRecurring J m d.self.schedule d'.self.schedule text) ↔
    Refused J m input d.self.schedule ∨ given (interval input) = true ∧ NextWritable m input := by
  unfold schedule
  by_cases hno : jInt input (lit "in_minutes") 0 ≤ 0 ∧ given (input.jStr (lit "run_at")) = false
  · rw [if_pos hno]
    refine iff_of_true ⟨d, _, rfl, Or.inl ⟨rfl, rfl⟩⟩ (Or.inl (Or.inl ?_))
    rw [startText_date (by omega)]
    exact hno.2
  rw [if_neg hno, if_pos rfl, readSchedAdd_eq]
  by_cases hr : Refused J m input d.self.schedule
  · obtain ⟨⟨f', text⟩, hadd⟩ := Option.isSome_iff_exists.mp (schedAdd_isSome J m.zone d.self.schedulePath m.now m.id m.saved
      (startText m input) (input.jStr (lit "description")) (input.jStr (lit "prompt")) (interval input) d.self.schedule)
    refine iff_of_true ⟨_, text, by rw [show input.jStr (lit "interval") = interval input from rfl, hadd]; rfl, ?_⟩ (Or.inl hr)
    exact Or.inl (schedAdd_refused hr hadd)
  · obtain ⟨tasks, runAt, text, hload, hstored, htext, hadd⟩ :=
      schedAdd_added d.self.schedulePath (input.jStr (lit "prompt")) hr
    rw [show input.jStr (lit "interval") = interval input from rfl, hadd]
    have hiff := newTask_recurs ((input.jStr (lit "description")).getD []) (input.jStr (lit "prompt")) hr hstored
    constructor
    · intro ⟨d', text', heq, h⟩
      obtain ⟨rfl, rfl⟩ := Prod.mk.inj (Except.ok.inj heq)
      rcases h with ⟨herr, -⟩ | ⟨-, hadds⟩
      · rw [htext] at herr
        cases herr
      · exact Or.inr (hiff.mp ((addsRecurring_iff hload).mp hadds))
    · intro h
      rcases h with h | h
      · exact absurd h hr
      · exact ⟨_, text, rfl, Or.inr ⟨htext, (addsRecurring_iff hload).mpr (hiff.mpr h)⟩⟩

end Ends

/-- With accepted arguments the call fails and leaves the schedule, or adds one task that recurs and is still to
    run, unless the interval is empty or the next occurrence of a past start cannot be written. -/
theorem recurs_iff (T : Plugin.Tcc) (R : CJsonReader) (outSz : Nat) (args input : Json) (m : Moment) (d : Daemon)
    (h : toolCheckArgs R.toCJson .scheduleRecurring args = (input, none)) :
    (∃ d' text, executeTool T R outSz .scheduleRecurring input m d = .ok (d', text) ∧
      SchedulesRecurring R.toCJson m d.self.schedule d'.self.schedule text) ↔
    Refused R.toCJson m input d.self.schedule ∨ interval input ≠ some [] ∧ NextWritable m input := by
  obtain ⟨name, hname⟩ := accepted_text h (lit "interval") (by decide)
  have hgiven : given (interval input) = true ↔ interval input ≠ some [] := by
    rw [show interval input = some name from hname]
    simp [given]
  rw [← hgiven]
  exact schedule_iff R.toCJson m input d

/-- Every day from a time that has passed. -/
def daily : Json :=
  .obj [(lit "run_at", .str (lit "2026-01-31T18:30:00Z")), (lit "interval", .str (lit "daily")),
    (lit "description", .str (lit "stretch"))]

/-- An interval that is no interval. -/
def emptyInterval : Json :=
  .obj [(lit "in_minutes", .num 5 0), (lit "interval", .str []), (lit "description", .str (lit "stretch"))]

/-- The task is added, for the second day after its start. -/
theorem recurs_iff_daily : ∃ d' text, executeTool (fun _ => ([], none)) CJsonReader.compact 32768 .scheduleRecurring daily
      (calm 1770000000) alone = .ok (d', text) ∧
    SchedulesRecurring CJsonReader.compact.toCJson (calm 1770000000) none d'.self.schedule text := by
  have hstart : start (calm 1770000000) daily = 1769884200 := by decide +kernel
  have hinterval : intervalSeconds (interval daily) = 86400 := by decide
  refine (recurs_iff _ _ 32768 daily daily (calm 1770000000) alone (by decide +kernel)).mpr
    (.inr ⟨by decide, fun _ r hnext => ?_⟩)
  rw [hstart, hinterval] at hnext
  have hlater : 1770000000 < r := hnext.2.1
  have hleast := hnext.2.2 2 (by decide) (by decide)
  unfold year0 year10000
  omega

/-- An empty interval passes the check, and the task added runs once. -/
theorem empty_interval_runs_once : ¬ ∀ (T : Plugin.Tcc) (R : CJsonReader) (outSz : Nat) (args input : Json) (m : Moment)
    (d : Daemon), toolCheckArgs R.toCJson .scheduleRecurring args = (input, none) →
    ∃ d' text, executeTool T R outSz .scheduleRecurring input m d = .ok (d', text) ∧
      SchedulesRecurring R.toCJson m d.self.schedule d'.self.schedule text := by
  intro h
  have hall := h (fun _ => ([], none)) CJsonReader.compact 32768 emptyInterval emptyInterval (calm 1770000000) alone
    (by decide +kernel)
  have hstart : start (calm 1770000000) emptyInterval = 1770000300 := by decide +kernel
  have htaken : ¬ Refused CJsonReader.compact.toCJson (calm 1770000000) emptyInterval none := by
    unfold Refused
    rw [hstart]
    simp only [not_or]
    exact ⟨by decide +kernel, by decide, by decide, by decide, by decide, Option.some_ne_none _, by decide⟩
  rcases (schedule_iff CJsonReader.compact.toCJson (calm 1770000000) emptyInterval alone).mp hall with hr | hgiven
  · exact htaken hr
  · exact absurd hgiven.1 (by decide)

end Shclaw.Tools
