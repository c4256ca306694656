/-
  Shclaw.Logger — the log files (`src/log.c`), for every thread of every process that
  writes to them.

  A thread stamps its line and takes the lock, turns the day if its line is of another,
  prints, flushes and gives the lock back. A process forks under the lock; the child has
  a copy of what `log.c` keeps and writes to the same files. `exit` writes out what stdio
  holds back, a signal or an `exec` does not. A line that `log_fp` has no room for may go
  out in parts, and other processes write in between.

  `files` is what was appended to the file of a path since `log_init`. Each byte carries
  the tag of its line, ghost state like `lines`, `rest` and `seen`. The copy of a line
  on stderr is left out, and so are writes that fail.

  `lines_kept`, in every run in which no process goes 364 days without a line: what a
  process sent to a file are its lines of that date, whole, in the order they were
  printed and each once, but for the end of one line that is still held back or was lost
  with the process; a line `log_fp` has room for is in one piece, whoever else writes;
  and a process starts with the lock free and nothing to write, whenever its parent forked.
-/

import Mathlib.Logic.Function.Basic
import Shclaw.Lib.CString
import Shclaw.Lib.Civil
import Shclaw.Lib.Runs
import Shclaw.Lib.Tagged

namespace Shclaw.Logger

open Lib Function

/-! ## Lines -/

inductive Level where
  | info
  | warn
  | error
  | debug

def Level.text : Level → Str
  | .info => lit "INFO"
  | .warn => lit "WARN"
  | .error => lit "ERROR"
  | .debug => lit "DEBUG"

/-- What a thread brings to the lock; the text is as the format has it. -/
structure Line where
  time : Int
  level : Level
  msg : Str

/-- `TC_BUF_LG`. -/
def msgSize : Nat := 4096

def timebuf (tm : Tm) : Str :=
  cut 32 (paddedInt 4 (tm.year + 1900) ++ [ch '-'] ++ paddedInt 2 (tm.mon + 1) ++ [ch '-'] ++ paddedInt 2 tm.mday ++
    [ch ' '] ++ paddedInt 2 tm.hour ++ [ch ':'] ++ paddedInt 2 tm.min ++ [ch ':'] ++ paddedInt 2 tm.sec)

def Line.text (l : Line) : Str :=
  timebuf (gmtime l.time) ++ lit " [" ++ l.level.text ++ lit "] " ++ cut msgSize l.msg ++ lit "\n"

/-- The path of `log_open_day`. -/
def logPath (dir : Str) (tm : Tm) : Str :=
  cut 4200 (dir ++ lit "/shclaw_" ++ paddedInt 4 (tm.year + 1900) ++ [ch '-'] ++ paddedInt 2 (tm.mon + 1) ++ [ch '-'] ++
    paddedInt 2 tm.mday ++ lit ".log")

/-! ## The system -/

structure Tag where
  proc : Nat
  line : Nat
  deriving DecidableEq

/-- A line that was printed, and the file that was open for it. -/
structure Entry where
  tag : Tag
  line : Line
  path : Option Str

def Entry.bytes (e : Entry) : List (Tag × UInt8) := tagged e.tag e.line.text

/-- Where a thread stands in `log_write`. -/
inductive Site where
  | out
  | stamped (l : Line)
  | inside (l : Line)
  | turned (l : Line)
  | printed (k : Tag)

/-- A process. -/
structure Proc where
  dir : Str
  day : Int
  fp : Option Str
  /-- What stdio holds back of `log_fp`. -/
  buf : List (Tag × UInt8)
  /-- Of `log_mutex`. -/
  owner : Option Nat
  site : Nat → Site
  /-- When the last line was written, or the day opened. -/
  seen : Int

structure St where
  files : Str → List (Tag × UInt8)
  procs : Nat → Option Proc
  made : Nat
  lines : List Entry
  /-- What a process had not written when it was killed. -/
  rest : Nat → Str → List (Tag × UInt8)

inductive Ev where
  | stamp (p t : Nat) (l : Line)
  | lock (p t : Nat)
  /-- `fopen` works or does not. -/
  | turn (p t : Nat) (opens : Bool)
  | print (p t : Nat)
  | spill (p t n : Nat)
  | flush (p t : Nat)
  /-- `log_close`. -/
  | close (p t : Nat)
  | fork (p t : Nat)
  | exit (p : Nat)
  | kill (p : Nat)

def Proc.goTo (q : Proc) (t : Nat) (x : Site) : Proc := { q with site := update q.site t x }

/-- `log_open_day`, once the file before is closed. -/
def Proc.openDay (q : Proc) (time : Int) (opens : Bool) : Proc :=
  { q with
    fp := if opens then some (logPath q.dir (gmtime time)) else none
    day := yday time
    seen := time }

/-- What a process has for the file of a path. -/
def Proc.held (q : Proc) (x : Str) : List (Tag × UInt8) := if q.fp = some x then q.buf else []

def Proc.drop (q : Proc) (n : Nat) : Proc := { q with buf := q.buf.drop n }

/-- Of what stdio holds back, `n` bytes go to the file. -/
def St.write (s : St) (q : Proc) (n : Nat) : St :=
  match q.fp with
  | none => s
  | some x => { s with files := update s.files x (s.files x ++ q.buf.take n) }

def St.set (s : St) (p : Nat) (q : Proc) : St := { s with procs := update s.procs p (some q) }

/-- `fclose` and `fflush`. -/
def St.drain (s : St) (q : Proc) : St := s.write q q.buf.length

def Proc.drained (q : Proc) : Proc := q.drop q.buf.length

def St.stamp (s : St) (p t : Nat) (l : Line) (q : Proc) : Option St :=
  match q.site t with
  | .out => some (s.set p (q.goTo t (.stamped l)))
  | _ => none

def St.lock (s : St) (p t : Nat) (q : Proc) : Option St :=
  match q.site t with
  | .stamped l => if q.owner = none then some (s.set p { q.goTo t (.inside l) with owner := some t }) else none
  | _ => none

def St.turn (s : St) (p t : Nat) (opens : Bool) (q : Proc) : Option St :=
  match q.site t with
  | .inside l =>
    if q.dir ≠ [] ∧ yday l.time ≠ q.day then
      some ((s.drain q).set p ((q.drained.openDay l.time opens).goTo t (.turned l)))
    else some (s.set p ({ q with seen := l.time }.goTo t (.turned l)))
  | _ => none

/-- `fprintf` of a line, to the buffer of the open file. -/
def Proc.fprintf (q : Proc) (e : Entry) : Proc := { q with buf := if e.path.isSome then q.buf ++ e.bytes else q.buf }

def St.print (s : St) (p t : Nat) (q : Proc) : Option St :=
  match q.site t with
  | .turned l =>
    let e : Entry := ⟨⟨p, s.lines.length⟩, l, q.fp⟩
    some ({ s with lines := s.lines ++ [e] }.set p ((q.fprintf e).goTo t (.printed e.tag)))
  | _ => none

/-- Of a line that does not fit, `n` bytes go out before the rest. -/
def St.spill (room : Nat) (s : St) (p t n : Nat) (q : Proc) : Option St :=
  match q.site t with
  | .printed k =>
    if (s.lines[k.line]?).any fun e => room ≤ e.line.text.length then some ((s.write q n).set p (q.drop n)) else none
  | _ => none

def St.flush (s : St) (p t : Nat) (q : Proc) : Option St :=
  match q.site t with
  | .printed _ => some ((s.drain q).set p { q.drained.goTo t .out with owner := none })
  | _ => none

def St.close (s : St) (p t : Nat) (q : Proc) : Option St :=
  match q.site t with
  | .out => if q.owner = none then some ((s.drain q).set p { q.drained with fp := none, dir := [] }) else none
  | _ => none

/-- Under the lock, which the child has free again like its parent; of the threads it
    has the one that forked. -/
def St.fork (s : St) (t : Nat) (q : Proc) : Option St :=
  match q.site t with
  | .out =>
    if q.owner = none then some { s.set s.made { q with site := fun _ => .out } with made := s.made + 1 } else none
  | _ => none

def St.exit (s : St) (p : Nat) (q : Proc) : St :=
  let s := s.drain q
  { s with procs := update s.procs p none }

def St.kill (s : St) (p : Nat) (q : Proc) : St :=
  { s with procs := update s.procs p none, rest := update s.rest p q.held }

def step (room : Nat) (s : St) : Ev → Option St
  | .stamp p t l => (s.procs p).bind (s.stamp p t l)
  | .lock p t => (s.procs p).bind (s.lock p t)
  | .turn p t opens => (s.procs p).bind (s.turn p t opens)
  | .print p t => (s.procs p).bind (s.print p t)
  | .spill p t n => (s.procs p).bind (s.spill room p t n)
  | .flush p t => (s.procs p).bind (s.flush p t)
  | .close p t => (s.procs p).bind (s.close p t)
  | .fork p t => (s.procs p).bind (s.fork t)
  | .exit p => (s.procs p).map (s.exit p)
  | .kill p => (s.procs p).map (s.kill p)

/-- `log_init`; `room` is what a line must be shorter than to go out at once. With an empty
    name for its directory `log_write` would never turn the day. -/
structure Boot where
  logDir : Str
  time : Int
  opens : Bool
  room : Nat
  named : logDir ≠ []

def Boot.dir (b : Boot) : Str := cut 4096 b.logDir

def Boot.proc (b : Boot) : Proc :=
  Proc.openDay ⟨b.dir, -1, none, [], none, fun _ => .out, b.time⟩ b.time b.opens

def Boot.log (b : Boot) : System St Ev where
  init := ⟨fun _ => [], update (fun _ => none) 0 (some b.proc), 1, [], fun _ _ => []⟩
  step := step b.room

def Site.inLock : Site → Bool
  | .inside _ | .turned _ | .printed _ => true
  | .out | .stamped _ => false

/-- What is still held back, or was lost. -/
def St.pending (s : St) (p : Nat) (x : Str) : List (Tag × UInt8) :=
  match s.procs p with
  | some q => q.held x
  | none => s.rest p x

/-- The lines of a process for the file of a path. -/
def St.owed (s : St) (p : Nat) (x : Str) : List (Tag × UInt8) :=
  (s.lines.filter fun e : Entry => e.tag.proc = p ∧ e.path = some x).flatMap Entry.bytes

/-! ## What every step keeps -/

/-- What holds of a process. -/
structure ProcOk (b : Boot) (lines : List Entry) (p : Nat) (q : Proc) : Prop where
  lock : ∀ t, q.owner = some t ↔ (q.site t).inLock = true
  shut : q.fp = none → q.buf = []
  idle : (∀ t k, q.site t ≠ .printed k) → q.buf = []
  underway : ∀ t k, q.site t = .printed k → ∃ e : Entry, lines[k.line]? = some e ∧ e.tag = k ∧ k.proc = p ∧ e.path = q.fp ∧
    q.buf <:+ e.bytes ∧ (e.line.text.length < b.room → q.buf = e.bytes ∨ q.buf = [])
  dir : q.dir = b.dir ∨ q.dir = [] ∧ q.fp = none
  day : q.dir ≠ [] → q.day = yday q.seen
  path : ∀ x, q.fp = some x → x = logPath b.dir (gmtime q.seen)
  turned : ∀ t l, q.site t = .turned l → q.seen = l.time

structure Good (b : Boot) (s : St) : Prop where
  procs : ∀ p q, s.procs p = some q → p < s.made ∧ ProcOk b s.lines p q
  tags : ∀ (i : Nat) (e : Entry), s.lines[i]? = some e → e.tag.line = i ∧ e.tag.proc < s.made
  dated : ∀ e ∈ s.lines, ∀ x, e.path = some x → x = logPath b.dir (gmtime e.line.time)
  sent : ∀ p x, own Tag.proc p (s.files x) ++ s.pending p x = s.owed p x
  rest : ∀ p x, s.rest p x = [] ∨ (p < s.made ∧ s.procs p = none ∧
    ∃ e ∈ s.lines, e.tag.proc = p ∧ e.path = some x ∧ s.rest p x <:+ e.bytes)
  whole : ∀ e ∈ s.lines, e.line.text.length < b.room → ∀ x, e.path = some x → InOnePiece e.bytes e.tag (s.files x)

variable {b : Boot} {s s' : St} {p t : Nat} {q q' : Proc} {x : Str}

theorem Boot.dir_ne (b : Boot) : b.dir ≠ [] := by
  unfold Boot.dir cut
  intro hnil
  have hlen := congrArg List.length hnil
  have hpos := List.length_pos_iff.mpr b.named
  rw [List.length_take, List.length_nil] at hlen
  omega

/-- Two threads cannot both have the lock. -/
theorem ProcOk.alone (h : ProcOk b s.lines p q) {t u : Nat} (ht : (q.site t).inLock = true) (hu : (q.site u).inLock = true) :
    u = t := by
  have hboth := ((h.lock t).mpr ht).symm.trans ((h.lock u).mpr hu)
  cases hboth
  rfl

/-- Nothing is printed, so nothing is held back. -/
def Proc.Quiet (q : Proc) : Prop := q.buf = [] ∧ ∀ t k, q.site t ≠ .printed k

theorem ProcOk.quiet_of_site (h : ProcOk b s.lines p q) (ht : (q.site t).inLock = true) (hsite : ∀ k, q.site t ≠ .printed k) :
    q.Quiet := by
  have hnone : ∀ u k, q.site u ≠ .printed k := by
    intro u k hu
    have hut := h.alone ht (by rw [hu]; rfl)
    subst hut
    exact hsite k hu
  exact ⟨h.idle hnone, hnone⟩

theorem ProcOk.outside_of_free (h : ProcOk b s.lines p q) (hfree : q.owner = none) (u : Nat) : (q.site u).inLock = false := by
  cases hu : (q.site u).inLock with
  | false => rfl
  | true =>
    have howner := (h.lock u).mpr hu
    rw [hfree] at howner
    cases howner

theorem ProcOk.quiet_of_free (h : ProcOk b s.lines p q) (hfree : q.owner = none) : q.Quiet := by
  have hnone : ∀ u k, q.site u ≠ .printed k := by
    intro u k hu
    have hout := h.outside_of_free hfree u
    rw [hu] at hout
    cases hout
  exact ⟨h.idle hnone, hnone⟩

theorem held_of_empty (h : q.buf = []) (x : Str) : q.held x = [] := by
  unfold Proc.held
  split
  · exact h
  · rfl

@[simp] theorem drop_fp (q : Proc) (n : Nat) : (q.drop n).fp = q.fp := rfl

/-- No byte is written where nothing is held back. -/
theorem write_of_empty (h : q.buf = []) (n : Nat) : s.write q n = s := by
  unfold St.write
  split
  · rfl
  · rw [h, List.take_nil, List.append_nil, update_eq_self]

theorem drained_of_empty (h : q.buf = []) : q.drained = q := by
  unfold Proc.drained Proc.drop
  rw [h]
  cases q
  subst h
  rfl

@[simp] theorem set_procs (s : St) (p : Nat) (q : Proc) : (s.set p q).procs p = some q := update_self ..

theorem set_procs_other (s : St) (q : Proc) {r : Nat} (h : r ≠ p) : (s.set p q).procs r = s.procs r := update_of_ne h ..

/-- What holds of the process that changes and of the others holds of all. -/
theorem set_procs_forall {P : Nat → Proc → Prop} (hold : ∀ r q, s.procs r = some q → P r q) (hnew : P p q') {r : Nat} {q : Proc}
    (hr : (s.set p q').procs r = some q) : P r q := by
  by_cases hrp : r = p
  · subst hrp
    rw [set_procs] at hr
    cases hr
    exact hnew
  · rw [set_procs_other s q' hrp] at hr
    exact hold r q hr

/-- A process that is gone stays gone. -/
theorem set_procs_none (hp : s.procs p = some q) (q' : Proc) {r : Nat} (hnone : s.procs r = none) :
    (s.set p q').procs r = none := by
  rw [set_procs_other s q', hnone]
  rintro rfl
  rw [hp] at hnone
  cases hnone

theorem set_set (s : St) (p : Nat) (q q' : Proc) : (s.set p q).set p q' = s.set p q' := by
  unfold St.set
  rw [update_idem]

theorem pending_some (h : s.procs p = some q) (x : Str) : s.pending p x = q.held x := by
  unfold St.pending
  rw [h]

theorem pending_none (h : s.procs p = none) (x : Str) : s.pending p x = s.rest p x := by
  unfold St.pending
  rw [h]

/-! ## Steps that write nothing -/

/-- A process does something that is no writing. -/
theorem Good.set (h : Good b s) (hp : s.procs p = some q) (hok : ProcOk b s.lines p q') (hheld : ∀ x, q'.held x = q.held x) :
    Good b (s.set p q') := by
  refine ⟨fun r q₁ => set_procs_forall h.procs ⟨(h.procs p q hp).1, hok⟩, h.tags, h.dated, fun r x => ?_, fun r x => ?_, h.whole⟩
  · refine Eq.trans ?_ (h.sent r x)
    refine congrArg (own Tag.proc r (s.files x) ++ ·) ?_
    by_cases hrp : r = p
    · subst hrp
      rw [pending_some (set_procs s r q'), pending_some hp, hheld]
    · unfold St.pending
      rw [set_procs_other s q' hrp]
      rfl
  · exact (h.rest r x).imp id fun ⟨hlt, hnone, hex⟩ => ⟨hlt, set_procs_none hp q' hnone, hex⟩

theorem goTo_site (q : Proc) (t u : Nat) (x : Site) : (q.goTo t x).site u = if u = t then x else q.site u := by
  unfold Proc.goTo
  by_cases h : u = t
  · subst h
    rw [if_pos rfl]
    exact update_self ..
  · rw [if_neg h]
    exact update_of_ne h ..

/-- A thread outside the lock goes to another place outside it. -/
theorem ProcOk.goTo {ls : List Entry} (h : ProcOk b ls p q) {y : Site} (hfrom : (q.site t).inLock = false)
    (hto : y.inLock = false) : ProcOk b ls p (q.goTo t y) := by
  have hsite : ∀ u z, (q.goTo t y).site u = z → z.inLock = true → q.site u = z := by
    intro u z hu hz
    rw [goTo_site] at hu
    split at hu
    · rw [hu] at hto
      rw [hto] at hz
      cases hz
    · exact hu
  refine ⟨fun u => ?_, h.shut, fun hnone => h.idle fun u k hu => ?_, fun u k hu => h.underway u k (hsite u _ hu rfl), h.dir, h.day,
    h.path, fun u l hu => h.turned u l (hsite u _ hu rfl)⟩
  · rw [goTo_site]
    split
    · rename_i hut
      subst hut
      rw [hto, ← hfrom]
      exact h.lock u
    · exact h.lock u
  · refine hnone u k ?_
    rw [goTo_site, if_neg, hu]
    rintro rfl
    rw [hu] at hfrom
    cases hfrom

theorem ProcOk.quiet {ls : List Entry} (hq : q.Quiet) (hlock : ∀ t, q.owner = some t ↔ (q.site t).inLock = true)
    (hdir : q.dir = b.dir ∨ q.dir = [] ∧ q.fp = none) (hday : q.dir ≠ [] → q.day = yday q.seen)
    (hpath : ∀ x, q.fp = some x → x = logPath b.dir (gmtime q.seen))
    (hturned : ∀ t l, q.site t = .turned l → q.seen = l.time) : ProcOk b ls p q :=
  ⟨hlock, fun _ => hq.1, fun _ => hq.1, fun t k ht => absurd ht (hq.2 t k), hdir, hday, hpath, hturned⟩

theorem Proc.Quiet.goTo (h : q.Quiet) {y : Site} (hy : ∀ k, y ≠ .printed k) : (q.goTo t y).Quiet := by
  refine ⟨h.1, fun u k hu => ?_⟩
  rw [goTo_site] at hu
  split at hu
  · exact hy k hu
  · exact h.2 u k hu

theorem ProcOk.lockOk (h : ProcOk b s.lines p q) (hfree : q.owner = none) (l : Line) :
    ProcOk b s.lines p { q.goTo t (.inside l) with owner := some t } := by
  refine .quiet ((h.quiet_of_free hfree).goTo fun k hk => by cases hk) (fun u => ?_) h.dir h.day h.path fun u l' hu => ?_
  · change some t = some u ↔ ((q.goTo t (.inside l)).site u).inLock = true
    rw [goTo_site]
    by_cases hut : u = t
    · rw [if_pos hut, hut]
      exact iff_of_true rfl rfl
    · rw [if_neg hut, h.outside_of_free hfree u]
      exact iff_of_false (fun heq => hut (Option.some.inj heq).symm) Bool.false_ne_true
  · have hout := h.outside_of_free hfree u
    change (q.goTo t (.inside l)).site u = .turned l' at hu
    rw [goTo_site] at hu
    split at hu
    · cases hu
    · rw [hu] at hout
      cases hout

/-- The thread that has the lock turns to its line, with a file of the line's date. -/
theorem ProcOk.turnOk (h : ProcOk b s.lines p q) {l : Line} (ht : q.site t = .inside l) (hq' : q'.Quiet)
    (howner : q'.owner = q.owner) (hsite : q'.site = q.site) (hdir : q'.dir = b.dir ∨ q'.dir = [] ∧ q'.fp = none)
    (hseen : q'.seen = l.time) (hday : q'.dir ≠ [] → q'.day = yday l.time)
    (hpath : ∀ x, q'.fp = some x → x = logPath b.dir (gmtime l.time)) : ProcOk b s.lines p (q'.goTo t (.turned l)) := by
  have hin : (q.site t).inLock = true := by
    rw [ht]
    rfl
  refine .quiet (hq'.goTo fun k hk => by cases hk) (fun u => ?_) hdir (fun hne => ?_) (fun x hx => ?_) fun u l' hu => ?_
  · rw [goTo_site, hsite]
    refine (iff_of_eq (congrArg (· = some u) howner)).trans ((h.lock u).trans ?_)
    by_cases hut : u = t
    · rw [if_pos hut, hut, hin]
      exact iff_of_true rfl rfl
    · rw [if_neg hut]
  · exact (hday hne).trans (congrArg yday hseen.symm)
  · exact (hpath x hx).trans (congrArg (fun a => logPath b.dir (gmtime a)) hseen.symm)
  · rw [goTo_site, hsite] at hu
    split at hu
    · cases hu
      exact hseen
    · rename_i hut
      exact absurd (h.alone hin (by rw [hu]; rfl)) hut

/-! ## The day of a line -/

/-- Less than a year passed since the last line of the process. -/
def InTime (s : St) : Ev → Prop
  | .turn p t _ => ∀ q l, s.procs p = some q → q.site t = .inside l →
      q.seen ≤ l.time + 364 * 86400 ∧ l.time ≤ q.seen + 364 * 86400
  | _ => True

theorem logPath_day {t u : Int} (h : t / 86400 = u / 86400) (dir : Str) : logPath dir (gmtime t) = logPath dir (gmtime u) := by
  obtain ⟨hy, hm, hd⟩ := gmtime_day h
  unfold logPath
  rw [hy, hm, hd]

/-- The file stays open for a line of its day. -/
theorem ProcOk.sameDay (h : ProcOk b s.lines p q) {l : Line} (hsame : ¬ (q.dir ≠ [] ∧ yday l.time ≠ q.day))
    (hfrom : q.seen ≤ l.time + 364 * 86400) (hto : l.time ≤ q.seen + 364 * 86400) :
    (q.dir ≠ [] → q.day = yday l.time) ∧ ∀ x, q.fp = some x → x = logPath b.dir (gmtime l.time) := by
  have hday : q.dir ≠ [] → q.day = yday l.time := fun hdir => by
    by_contra hne
    exact hsame ⟨hdir, fun heq => hne heq.symm⟩
  refine ⟨hday, fun x hx => ?_⟩
  have hdir : q.dir ≠ [] := by
    rcases h.dir with hdir | ⟨-, hnone⟩
    · rw [hdir]
      exact b.dir_ne
    · rw [hx] at hnone
      cases hnone
  have hyday : yday q.seen = yday l.time := (h.day hdir).symm.trans (hday hdir)
  rw [h.path x hx]
  exact logPath_day (day_of_yday hyday hto hfrom) b.dir

theorem Good.turn (h : Good b s) (hp : s.procs p = some q) {opens : Bool} (htime : InTime s (.turn p t opens))
    (hs : s.turn p t opens q = some s') : Good b s' := by
  obtain ⟨-, hok⟩ := h.procs p q hp
  unfold St.turn at hs
  split at hs
  · rename_i l hl
    obtain ⟨hfrom, hto⟩ := htime q l hp hl
    have hquiet : q.Quiet := hok.quiet_of_site (by rw [hl]; rfl) fun k hk => by rw [hl] at hk; cases hk
    split at hs
    · rename_i hturn
      cases hs
      have hdir : q.dir = b.dir := hok.dir.resolve_right fun hnil => hturn.1 hnil.1
      rw [St.drain, write_of_empty hquiet.1, drained_of_empty hquiet.1]
      refine h.set hp (hok.turnOk hl hquiet rfl rfl (.inl hdir) rfl (fun _ => rfl) fun x hx => ?_) fun x => ?_
      · change (if opens then some (logPath q.dir (gmtime l.time)) else none) = some x at hx
        split at hx
        · cases hx
          rw [hdir]
        · cases hx
      · rw [held_of_empty hquiet.1]
        refine held_of_empty ?_ x
        exact hquiet.1
    · rename_i hsame
      cases hs
      obtain ⟨hday, hpath⟩ := hok.sameDay hsame hfrom hto
      exact h.set hp (hok.turnOk hl hquiet rfl rfl hok.dir rfl hday hpath) fun x => rfl
  · cases hs

theorem Good.stamp (h : Good b s) (hp : s.procs p = some q) {l : Line} (hs : s.stamp p t l q = some s') : Good b s' := by
  obtain ⟨-, hok⟩ := h.procs p q hp
  unfold St.stamp at hs
  split at hs
  · rename_i hout
    cases hs
    exact h.set hp (hok.goTo (by rw [hout]; rfl) rfl) fun x => rfl
  · cases hs

theorem Good.lock (h : Good b s) (hp : s.procs p = some q) (hs : s.lock p t q = some s') : Good b s' := by
  obtain ⟨-, hok⟩ := h.procs p q hp
  unfold St.lock at hs
  split at hs
  · rename_i l hl
    split at hs
    · rename_i hfree
      cases hs
      exact h.set hp (hok.lockOk hfree l) fun x => rfl
    · cases hs
  · cases hs

theorem Good.close (h : Good b s) (hp : s.procs p = some q) (hs : s.close p t q = some s') : Good b s' := by
  obtain ⟨-, hok⟩ := h.procs p q hp
  unfold St.close at hs
  split at hs
  · split at hs
    · rename_i hfree
      cases hs
      have hquiet := hok.quiet_of_free hfree
      rw [St.drain, write_of_empty hquiet.1, drained_of_empty hquiet.1]
      refine h.set hp (.quiet hquiet hok.lock (.inr ⟨rfl, rfl⟩) (fun hne => absurd rfl hne) (fun x hx => by cases hx) hok.turned)
        fun x => ?_
      rw [held_of_empty hquiet.1]
      refine held_of_empty ?_ x
      exact hquiet.1
    · cases hs
  · cases hs

/-! ## Printing and writing -/

theorem Good.mem_tags (h : Good b s) {e : Entry} (he : e ∈ s.lines) : s.lines[e.tag.line]? = some e ∧ e.tag.proc < s.made := by
  obtain ⟨i, hi⟩ := List.mem_iff_getElem?.mp he
  obtain ⟨hline, hlt⟩ := h.tags i e hi
  exact ⟨hline.symm ▸ hi, hlt⟩

/-- A byte in a file is of a line that was printed there. -/
theorem Good.known (h : Good b s) {c : Tag × UInt8} (hc : c ∈ s.files x) : ∃ e ∈ s.lines, c.1 = e.tag ∧ e.path = some x := by
  have hin : c ∈ s.owed c.1.proc x := by
    rw [← h.sent]
    exact List.mem_append_left _ (mem_own hc)
  obtain ⟨e, he, hce⟩ := List.mem_flatMap.mp hin
  obtain ⟨hmem, hwhere⟩ := List.mem_filter.mp he
  exact ⟨e, hmem, tag_of_mem hce, (of_decide_eq_true hwhere).2⟩

theorem ProcOk.mono {ls : List Entry} (h : ProcOk b ls p q) (e : Entry) : ProcOk b (ls ++ [e]) p q := by
  refine ⟨h.lock, h.shut, h.idle, fun t k ht => ?_, h.dir, h.day, h.path, h.turned⟩
  obtain ⟨e₀, hget, hrest⟩ := h.underway t k ht
  refine ⟨e₀, ?_, hrest⟩
  rw [List.getElem?_append_left (List.getElem?_eq_some_iff.mp hget).1]
  exact hget

theorem owed_print (s : St) (e : Entry) (p : Nat) (x : Str) :
    St.owed { s with lines := s.lines ++ [e] } p x = s.owed p x ++ if e.tag.proc = p ∧ e.path = some x then e.bytes else [] := by
  unfold St.owed
  rw [List.filter_append, List.flatMap_append]
  refine congrArg _ ?_
  by_cases hmine : e.tag.proc = p ∧ e.path = some x
  · rw [if_pos hmine, List.filter_singleton, decide_eq_true hmine]
    exact List.flatMap_singleton ..
  · rw [if_neg hmine, List.filter_singleton, decide_eq_false hmine]
    rfl

theorem getElem?_concat_some {ls : List Entry} {e e' : Entry} {i : Nat} (h : (ls ++ [e])[i]? = some e') :
    ls[i]? = some e' ∨ i = ls.length ∧ e' = e := by
  rw [List.getElem?_append] at h
  split at h
  · exact .inl h
  · obtain ⟨hi, he⟩ := List.getElem?_eq_some_iff.mp h
    rw [List.length_singleton] at hi
    refine .inr ⟨by omega, ?_⟩
    rw [← he, List.getElem_singleton]

/-- A process after its line is printed. -/
theorem ProcOk.printOk {ls : List Entry} (h : ProcOk b ls p q) {l : Line} (ht : q.site t = .turned l) (hquiet : q.Quiet)
    {e : Entry} (hline : e.tag.line = ls.length) (hproc : e.tag.proc = p) (hpath : e.path = q.fp) :
    ProcOk b (ls ++ [e]) p ((q.fprintf e).goTo t (.printed e.tag)) := by
  have hin : (q.site t).inLock = true := by
    rw [ht]
    rfl
  have hsite : ∀ u, ((q.fprintf e).goTo t (.printed e.tag)).site u = if u = t then .printed e.tag else q.site u :=
    fun u => goTo_site (q.fprintf e) t u _
  have hbuf : ((q.fprintf e).goTo t (.printed e.tag)).buf = if e.path.isSome then e.bytes else [] := by
    change (if e.path.isSome then q.buf ++ e.bytes else q.buf) = _
    rw [hquiet.1, List.nil_append]
  refine ⟨fun u => ?_, fun hnone => ?_, fun hnone => ?_, fun u k hu => ?_, h.dir, h.day, h.path, fun u l' hu => ?_⟩
  · rw [hsite]
    refine (h.lock u).trans ?_
    by_cases hut : u = t
    · rw [if_pos hut, hut, hin]
      exact iff_of_true rfl rfl
    · rw [if_neg hut]
  · have hshut : e.path = none := hpath.trans hnone
    rw [hbuf, hshut]
    rfl
  · refine absurd ?_ (hnone t e.tag)
    rw [hsite, if_pos rfl]
  · rw [hsite] at hu
    split at hu
    · cases hu
      refine ⟨e, ?_, rfl, hproc, hpath, ?_, fun _ => ?_⟩
      · rw [hline, List.getElem?_concat_length]
      · rw [hbuf]
        split
        · exact List.suffix_refl _
        · exact List.nil_suffix
      · rw [hbuf]
        split
        · exact .inl rfl
        · exact .inr rfl
    · exact absurd hu (hquiet.2 u k)
  · rw [hsite] at hu
    split at hu
    · cases hu
    · exact h.turned u l' hu

theorem held_fprintf (hquiet : q.Quiet) {e : Entry} (hpath : e.path = q.fp) (x : Str) :
    (q.fprintf e).held x = if e.path = some x then e.bytes else [] := by
  unfold Proc.held Proc.fprintf
  rw [← hpath, hquiet.1]
  by_cases hx : e.path = some x
  · rw [if_pos hx, if_pos hx, if_pos (by rw [hx]; rfl), List.nil_append]
  · rw [if_neg hx, if_neg hx]

/-- A line is printed by a process that has the lock. -/
theorem Good.printed (h : Good b s) (hp : s.procs p = some q) (hquiet : q.Quiet) {e : Entry} (hline : e.tag.line = s.lines.length)
    (hproc : e.tag.proc = p) (hpath : e.path = q.fp) (hdated : ∀ x, e.path = some x → x = logPath b.dir (gmtime e.line.time))
    (hok : ProcOk b (s.lines ++ [e]) p q') (hheld : ∀ x, q'.held x = if e.path = some x then e.bytes else []) :
    Good b ({ s with lines := s.lines ++ [e] }.set p q') := by
  have hlt := (h.procs p q hp).1
  have hall : ∀ r q₁, ({ s with lines := s.lines ++ [e] }.set p q').procs r = some q₁ →
      r < s.made ∧ ProcOk b (s.lines ++ [e]) r q₁ := fun r q₁ =>
    set_procs_forall (P := fun r q₁ => r < s.made ∧ ProcOk b (s.lines ++ [e]) r q₁)
      (fun r q₁ hr => ⟨(h.procs r q₁ hr).1, (h.procs r q₁ hr).2.mono e⟩) ⟨hlt, hok⟩
  refine ⟨hall, fun i e₁ hi => ?_, fun e₁ he₁ x hx => ?_, fun r x => ?_, fun r x => ?_, fun e₁ he₁ hfits x hx => ?_⟩
  · rcases getElem?_concat_some hi with hold | ⟨hlast, rfl⟩
    · exact h.tags i e₁ hold
    · exact ⟨hline.trans hlast.symm, hproc ▸ hlt⟩
  · rcases List.mem_append.mp he₁ with hold | hnew
    · exact h.dated e₁ hold x hx
    · rw [List.mem_singleton.mp hnew] at hx ⊢
      exact hdated x hx
  · change own Tag.proc r (s.files x) ++ _ = St.owed { s with lines := s.lines ++ [e] } r x
    rw [owed_print, ← h.sent, List.append_assoc]
    refine congrArg _ ?_
    by_cases hrp : r = p
    · rw [hrp, pending_some (set_procs _ p q'), pending_some hp, held_of_empty hquiet.1, hheld, List.nil_append]
      simp only [hproc, true_and]
    · rw [if_neg fun hmine => hrp (hmine.1.symm.trans hproc), List.append_nil]
      unfold St.pending
      rw [set_procs_other _ _ hrp]
      rfl
  · exact (h.rest r x).imp id fun ⟨hr, hnone, e₁, hmem, hmine⟩ =>
      ⟨hr, set_procs_none (s := { s with lines := s.lines ++ [e] }) hp q' hnone, e₁, List.mem_append_left _ hmem, hmine⟩
  · rcases List.mem_append.mp he₁ with hold | hnew
    · exact h.whole e₁ hold hfits x hx
    · refine .inr fun c hc hce => ?_
      obtain ⟨e₂, hmem, htag, -⟩ := h.known hc
      have hget := (h.mem_tags hmem).1
      rw [← htag, hce, List.mem_singleton.mp hnew, hline] at hget
      exact absurd (List.getElem?_eq_some_iff.mp hget).1 (Nat.lt_irrefl _)

theorem Good.print (h : Good b s) (hp : s.procs p = some q) (hs : s.print p t q = some s') : Good b s' := by
  obtain ⟨-, hok⟩ := h.procs p q hp
  unfold St.print at hs
  split at hs
  · rename_i l hl
    cases hs
    have hquiet : q.Quiet := hok.quiet_of_site (by rw [hl]; rfl) fun k hk => by rw [hl] at hk; cases hk
    refine h.printed hp hquiet rfl rfl rfl (fun x hx => ?_) (hok.printOk hl hquiet rfl rfl rfl) (held_fprintf hquiet rfl)
    rw [hok.path x hx, hok.turned t l hl]
  · cases hs

/-- What goes out is of one line. -/
theorem ProcOk.one (h : ProcOk b s.lines p q) (hne : q.buf ≠ []) :
    ∃ (e : Entry) (x : Str), s.lines[e.tag.line]? = some e ∧ e.tag.proc = p ∧ e.path = some x ∧ q.fp = some x ∧ q.buf <:+ e.bytes ∧
      (∃ t, q.site t = .printed e.tag) ∧ (e.line.text.length < b.room → q.buf = e.bytes) := by
  have hprinted : ∃ t k, q.site t = .printed k := by
    by_contra hnone
    exact hne (h.idle fun t k ht => hnone ⟨t, k, ht⟩)
  obtain ⟨t, k, ht⟩ := hprinted
  obtain ⟨e, hget, rfl, hproc, hpath, hsuffix, hfits⟩ := h.underway t k ht
  cases hfp : q.fp with
  | none => exact absurd (h.shut hfp) hne
  | some x =>
    exact ⟨e, x, hget, hproc, hpath.trans hfp, rfl, hsuffix, ⟨t, ht⟩, fun hlt => (hfits hlt).resolve_right hne⟩

theorem ProcOk.drop {ls : List Entry} (h : ProcOk b ls p q) {n : Nat}
    (hn : q.buf.length ≤ n ∨ ∀ t k (e : Entry), q.site t = .printed k → ls[k.line]? = some e → b.room ≤ e.line.text.length) :
    ProcOk b ls p (q.drop n) := by
  have hempty : q.buf = [] → (q.drop n).buf = [] := by
    intro hnil
    change q.buf.drop n = []
    rw [hnil, List.drop_nil]
  refine ⟨h.lock, fun hnone => hempty (h.shut hnone), fun hnone => hempty (h.idle hnone), fun t k ht => ?_, h.dir, h.day, h.path,
    h.turned⟩
  obtain ⟨e, hget, htag, hproc, hpath, hsuffix, hfits⟩ := h.underway t k ht
  refine ⟨e, hget, htag, hproc, hpath, (List.drop_suffix n q.buf).trans hsuffix, fun hlt => ?_⟩
  rcases hn with hall | hlong
  · exact .inr (List.drop_eq_nil_of_le hall)
  · exact absurd (hlong t k e ht hget) (by omega)

/-- Bytes go to the file of a process: all it holds back, or some of a line that is too
    long. -/
theorem Good.write (h : Good b s) (hp : s.procs p = some q) {n : Nat}
    (hn : q.buf.length ≤ n ∨ ∀ t k (e : Entry), q.site t = .printed k → s.lines[k.line]? = some e → b.room ≤ e.line.text.length) :
    Good b ((s.write q n).set p (q.drop n)) := by
  obtain ⟨hlt, hok⟩ := h.procs p q hp
  by_cases hempty : q.buf = []
  · rw [write_of_empty hempty]
    refine h.set hp (hok.drop hn) fun x => ?_
    rw [held_of_empty hempty]
    refine held_of_empty ?_ x
    change q.buf.drop n = []
    rw [hempty, List.drop_nil]
  · obtain ⟨e, y, hget, hproc, hpath, hfp, hsuffix, ⟨t, ht⟩, hfits⟩ := hok.one hempty
    have hwrite : s.write q n = { s with files := update s.files y (s.files y ++ q.buf.take n) } := by
      unfold St.write
      rw [hfp]
    have htag : ∀ c ∈ q.buf.take n, c.1 = e.tag := fun c hc => tag_of_mem (hsuffix.subset (List.mem_of_mem_take hc))
    have hpart : ∀ c ∈ q.buf.take n, c.1.proc = p := fun c hc => (congrArg Tag.proc (htag c hc)).trans hproc
    rw [hwrite]
    refine ⟨fun r q₁ => set_procs_forall (s := { s with files := _ }) h.procs ⟨hlt, hok.drop hn⟩, h.tags, h.dated, fun r x => ?_,
      fun r x => ?_, fun e₁ he₁ hshort x hx => ?_⟩
    · refine Eq.trans ?_ (h.sent r x)
      change own Tag.proc r (update s.files y (s.files y ++ q.buf.take n) x) ++ _ = _
      by_cases hrp : r = p
      · subst hrp
        rw [pending_some (set_procs _ r _), pending_some hp]
        by_cases hxy : x = y
        · subst hxy
          unfold Proc.held
          rw [update_self, own_append_self _ hpart, drop_fp, if_pos hfp, if_pos hfp, List.append_assoc]
          exact congrArg _ (List.take_append_drop n q.buf)
        · have hshut : q.fp ≠ some x := by
            rw [hfp]
            exact fun heq => hxy (Option.some.inj heq).symm
          unfold Proc.held
          rw [update_of_ne hxy, drop_fp, if_neg hshut, if_neg hshut]
      · unfold St.pending
        rw [set_procs_other _ _ hrp]
        refine congrArg (· ++ _) ?_
        by_cases hxy : x = y
        · subst hxy
          rw [update_self, own_append_other _ hpart (Ne.symm hrp)]
        · rw [update_of_ne hxy]
    · exact (h.rest r x).imp id fun ⟨hr, hnone, hex⟩ => ⟨hr, set_procs_none (s := { s with files := _ }) hp _ hnone, hex⟩
    · have hold := h.whole e₁ he₁ hshort x hx
      change InOnePiece e₁.bytes e₁.tag (update s.files y (s.files y ++ q.buf.take n) x)
      by_cases hxy : x = y
      · subst hxy
        rw [update_self]
        by_cases hsame : e₁.tag = e.tag
        · have heq : e₁ = e := by
            have hget₁ := (h.mem_tags he₁).1
            rw [hsame, hget] at hget₁
            exact (Option.some.inj hget₁).symm
          subst heq
          have hall : q.buf.length ≤ n := hn.resolve_right fun hlong => absurd (hlong t e₁.tag e₁ ht hget) (by omega)
          rw [List.take_of_length_le hall, hfits hshort]
          exact inOnePiece_append_self _ _ _
        · exact hold.append fun c hc heq => hsame (heq.symm.trans (htag c hc))
      · rw [update_of_ne hxy]
        exact hold

theorem Good.spill (h : Good b s) (hp : s.procs p = some q) {n : Nat} (hs : s.spill b.room p t n q = some s') : Good b s' := by
  obtain ⟨-, hok⟩ := h.procs p q hp
  unfold St.spill at hs
  split at hs
  · rename_i k hk
    split at hs
    · rename_i hlong
      cases hs
      refine h.write hp (.inr fun u k' e hu hget => ?_)
      have hut := hok.alone (t := t) (by rw [hk]; rfl) (by rw [hu]; rfl)
      rw [hut, hk] at hu
      cases hu
      rw [hget] at hlong
      exact of_decide_eq_true hlong
    · cases hs
  · cases hs

theorem drained_buf (q : Proc) : q.drained.buf = [] := List.drop_length

theorem Good.drain (h : Good b s) (hp : s.procs p = some q) : Good b ((s.drain q).set p q.drained) :=
  h.write hp (.inl (Nat.le_refl _))

theorem Good.flush (h : Good b s) (hp : s.procs p = some q) (hs : s.flush p t q = some s') : Good b s' := by
  unfold St.flush at hs
  split at hs
  · rename_i k hk
    cases hs
    have hgood := h.drain hp
    have hp' := set_procs (s.drain q) p q.drained
    obtain ⟨-, hok⟩ := hgood.procs p _ hp'
    have hin : (q.drained.site t).inLock = true := by
      change (q.site t).inLock = true
      rw [hk]
      rfl
    have hout : ∀ u, ((q.drained.goTo t .out).site u).inLock = false := by
      intro u
      rw [goTo_site]
      split
      · rfl
      · rename_i hut
        cases hu : (q.drained.site u).inLock with
        | false => rfl
        | true => exact absurd (hok.alone hin hu) hut
    rw [← set_set (s.drain q) p q.drained]
    refine hgood.set hp' (.quiet ⟨drained_buf q, fun u k' hu => ?_⟩ (fun u => ?_) hok.dir hok.day hok.path fun u l hu => ?_) fun x => ?_
    · have hfalse := hout u
      rw [hu] at hfalse
      cases hfalse
    · change none = some u ↔ ((q.drained.goTo t .out).site u).inLock = true
      rw [hout u]
      exact iff_of_false (fun heq => by cases heq) Bool.false_ne_true
    · have hfalse := hout u
      rw [hu] at hfalse
      cases hfalse
    · rw [held_of_empty (drained_buf q)]
      exact held_of_empty (q := { q.drained.goTo t .out with owner := none }) (drained_buf q) x
  · cases hs

/-! ## Processes begin and end -/

theorem Good.fork (h : Good b s) (hp : s.procs p = some q) (hs : s.fork t q = some s') : Good b s' := by
  obtain ⟨hlt, hok⟩ := h.procs p q hp
  unfold St.fork at hs
  split at hs
  · split at hs
    · rename_i hfree
      cases hs
      have hquiet := hok.quiet_of_free hfree
      have hnew : s.procs s.made = none := by
        cases hmade : s.procs s.made with
        | none => rfl
        | some q₁ => exact absurd (h.procs _ _ hmade).1 (Nat.lt_irrefl _)
      have hold : ∀ r q₁, s.procs r = some q₁ → r < s.made + 1 ∧ ProcOk b s.lines r q₁ := fun r q₁ hr =>
        ⟨Nat.lt_succ_of_lt (h.procs r q₁ hr).1, (h.procs r q₁ hr).2⟩
      refine ⟨fun r q₁ => set_procs_forall hold ⟨Nat.lt_succ_self _, ?_⟩, fun i e he => ?_, h.dated, fun r x => ?_, fun r x => ?_,
        h.whole⟩
      · refine .quiet ⟨hquiet.1, fun u k hu => by cases hu⟩ (fun u => ?_) hok.dir hok.day hok.path fun u l hu => by cases hu
        rw [hfree]
        exact iff_of_false (fun heq => by cases heq) Bool.false_ne_true
      · exact ⟨(h.tags i e he).1, Nat.lt_succ_of_lt (h.tags i e he).2⟩
      · refine Eq.trans ?_ (h.sent r x)
        refine congrArg (own Tag.proc r (s.files x) ++ ·) ?_
        by_cases hrm : r = s.made
        · subst hrm
          have hnone : s.rest s.made x = [] := (h.rest s.made x).resolve_right fun hr => absurd hr.1 (Nat.lt_irrefl _)
          rw [pending_none hnew, hnone]
          refine (pending_some (set_procs s s.made _) x).trans (held_of_empty ?_ x)
          exact hquiet.1
        · unfold St.pending
          change (match (s.set s.made _).procs r with | some q => q.held x | none => s.rest r x) = _
          rw [set_procs_other _ _ hrm]
      · refine (h.rest r x).imp id fun ⟨hr, hnone, hex⟩ => ⟨Nat.lt_succ_of_lt hr, ?_, hex⟩
        rw [set_procs_other _ _ (Nat.ne_of_lt hr)]
        exact hnone
    · cases hs
  · cases hs

theorem Good.kill (h : Good b s) (hp : s.procs p = some q) : Good b (s.kill p q) := by
  obtain ⟨hlt, hok⟩ := h.procs p q hp
  refine ⟨fun r q₁ hr => ?_, h.tags, h.dated, fun r x => ?_, fun r x => ?_, h.whole⟩
  · change update s.procs p none r = some q₁ at hr
    by_cases hrp : r = p
    · rw [hrp, update_self] at hr
      cases hr
    · rw [update_of_ne hrp] at hr
      exact h.procs r q₁ hr
  · refine Eq.trans ?_ (h.sent r x)
    refine congrArg (own Tag.proc r (s.files x) ++ ·) ?_
    unfold St.pending St.kill
    by_cases hrp : r = p
    · subst hrp
      simp only [update_self, hp]
    · simp only [update_of_ne hrp]
  · change update s.rest p q.held r x = [] ∨ (r < s.made ∧ update s.procs p none r = none ∧
      ∃ e ∈ s.lines, e.tag.proc = r ∧ e.path = some x ∧ update s.rest p q.held r x <:+ e.bytes)
    by_cases hrp : r = p
    · subst hrp
      rw [update_self, update_self]
      by_cases hempty : q.buf = []
      · exact .inl (held_of_empty hempty x)
      · obtain ⟨e, y, hget, hproc, hpath, hfp, hsuffix, -⟩ := hok.one hempty
        unfold Proc.held
        rw [hfp]
        by_cases hxy : y = x
        · subst hxy
          rw [if_pos rfl]
          exact .inr ⟨hlt, rfl, e, List.mem_of_getElem? hget, hproc, hpath, hsuffix⟩
        · exact .inl (if_neg fun heq => hxy (Option.some.inj heq))
    · rw [update_of_ne hrp, update_of_ne hrp]
      exact h.rest r x

/-- What `exit` leaves is what a signal leaves that finds nothing held back. -/
theorem exit_eq (h : Good b s) (hp : s.procs p = some q) : s.exit p q = ((s.drain q).set p q.drained).kill p q.drained := by
  have hrest : (s.drain q).rest p = q.drained.held := by
    funext x
    have hnone : s.rest p x = [] := by
      refine (h.rest p x).resolve_right fun ⟨_, hnone, _⟩ => ?_
      rw [hp] at hnone
      cases hnone
    rw [held_of_empty (drained_buf q)]
    unfold St.drain St.write
    split
    · exact hnone
    · exact hnone
  unfold St.exit St.kill St.set
  simp only [update_idem]
  rw [← hrest, update_eq_self]

theorem Good.exit (h : Good b s) (hp : s.procs p = some q) : Good b (s.exit p q) := by
  rw [exit_eq h hp]
  exact (h.drain hp).kill (set_procs _ _ _)

/-! ## Every run -/

theorem Boot.proc_ok (b : Boot) (ls : List Entry) : ProcOk b ls 0 b.proc := by
  refine .quiet ⟨rfl, fun t k ht => by cases ht⟩ (fun t => iff_of_false (fun heq => by cases heq) Bool.false_ne_true) (.inl rfl)
    (fun _ => rfl) (fun x hx => ?_) fun t l ht => by cases ht
  change (if b.opens then some (logPath b.dir (gmtime b.time)) else none) = some x at hx
  split at hx
  · cases hx
    rfl
  · cases hx

theorem good_init (b : Boot) : Good b b.log.init := by
  refine ⟨fun p q hp => ?_, fun i e he => ?_, fun e he => ?_, fun p x => ?_, fun p x => .inl rfl, fun e he => ?_⟩
  · change update (fun _ => none) 0 (some b.proc) p = some q at hp
    by_cases h0 : p = 0
    · subst h0
      rw [update_self] at hp
      cases hp
      exact ⟨Nat.one_pos, b.proc_ok _⟩
    · rw [update_of_ne h0] at hp
      cases hp
  · cases he
  · cases he
  · by_cases h0 : p = 0
    · subst h0
      have hboot : b.log.init.procs 0 = some b.proc := by
        change update (fun _ => none) 0 (some b.proc) 0 = some b.proc
        rw [update_self]
      rw [pending_some hboot, held_of_empty rfl]
      rfl
    · have hnone : b.log.init.procs p = none := by
        change update (fun _ => none) 0 (some b.proc) p = none
        rw [update_of_ne h0]
      rw [pending_none hnone]
      rfl
  · cases he

theorem Good.step (h : Good b s) {e : Ev} (htime : InTime s e) (hs : step b.room s e = some s') : Good b s' := by
  cases e with
  | stamp p t l =>
    obtain ⟨q, hp, hs⟩ := Option.bind_eq_some_iff.mp hs
    exact h.stamp hp hs
  | lock p t =>
    obtain ⟨q, hp, hs⟩ := Option.bind_eq_some_iff.mp hs
    exact h.lock hp hs
  | turn p t opens =>
    obtain ⟨q, hp, hs⟩ := Option.bind_eq_some_iff.mp hs
    exact h.turn hp htime hs
  | print p t =>
    obtain ⟨q, hp, hs⟩ := Option.bind_eq_some_iff.mp hs
    exact h.print hp hs
  | spill p t n =>
    obtain ⟨q, hp, hs⟩ := Option.bind_eq_some_iff.mp hs
    exact h.spill hp hs
  | flush p t =>
    obtain ⟨q, hp, hs⟩ := Option.bind_eq_some_iff.mp hs
    exact h.flush hp hs
  | close p t =>
    obtain ⟨q, hp, hs⟩ := Option.bind_eq_some_iff.mp hs
    exact h.close hp hs
  | fork p t =>
    obtain ⟨q, hp, hs⟩ := Option.bind_eq_some_iff.mp hs
    exact h.fork hp hs
  | exit p =>
    obtain ⟨q, hp, hs⟩ := Option.map_eq_some_iff.mp hs
    exact hs ▸ h.exit hp
  | kill p =>
    obtain ⟨q, hp, hs⟩ := Option.map_eq_some_iff.mp hs
    exact hs ▸ h.kill hp

/-- The log files are right. -/
structure Kept (b : Boot) (s : St) : Prop where
  /-- What a process wrote to a file, and what it still has for it, are its lines. -/
  sent : ∀ p x, own Tag.proc p (s.files x) ++ s.pending p x = s.owed p x
  /-- Whose bytes they are. -/
  known : ∀ x, ∀ c ∈ s.files x, ∃ e ∈ s.lines, c.1 = e.tag ∧ e.path = some x
  once : (s.lines.map Entry.tag).Nodup
  dated : ∀ e ∈ s.lines, ∀ x, e.path = some x → x = logPath b.dir (gmtime e.line.time)
  /-- No more than the end of one line is held back or was lost. -/
  late : ∀ p x, s.pending p x ≠ [] → ∃ e ∈ s.lines, e.tag.proc = p ∧ e.path = some x ∧ s.pending p x <:+ e.bytes
  whole : ∀ e ∈ s.lines, e.line.text.length < b.room → ∀ x, e.path = some x → InOnePiece e.bytes e.tag (s.files x)
  /-- A process has the lock through a thread of its own that is in `log_write`. -/
  lock : ∀ p q, s.procs p = some q → ∀ t, q.owner = some t ↔ (q.site t).inLock = true
  free : ∀ p q, s.procs p = some q → q.owner = none → ∀ x, s.pending p x = []

theorem Good.once (h : Good b s) : (s.lines.map Entry.tag).Nodup := by
  refine List.pairwise_iff_getElem.mpr fun i j hi hj hlt heq => ?_
  rw [List.length_map] at hi hj
  rw [List.getElem_map, List.getElem_map] at heq
  have hfirst := (h.tags i _ (List.getElem?_eq_getElem hi)).1
  have hsecond := (h.tags j _ (List.getElem?_eq_getElem hj)).1
  rw [heq] at hfirst
  omega

theorem Good.late (h : Good b s) (hne : s.pending p x ≠ []) :
    ∃ e ∈ s.lines, e.tag.proc = p ∧ e.path = some x ∧ s.pending p x <:+ e.bytes := by
  cases hp : s.procs p with
  | none =>
    rw [pending_none hp] at hne ⊢
    exact ((h.rest p x).resolve_left hne).2.2
  | some q =>
    rw [pending_some hp] at hne ⊢
    unfold Proc.held at hne ⊢
    split at hne
    · rename_i hx
      obtain ⟨e, y, hget, hproc, hpath, hfp, hsuffix, -⟩ := (h.procs p q hp).2.one hne
      rw [if_pos hx]
      exact ⟨e, List.mem_of_getElem? hget, hproc, hpath.trans (hfp.symm.trans hx), hsuffix⟩
    · exact absurd rfl hne

/-- In every run, whatever the threads and the processes do between each other's steps. -/
theorem lines_kept (b : Boot) {s : St} (h : b.log.Reach InTime s) : Kept b s := by
  have hgood : Good b s := h.invariant (good_init b) fun s e s' hs htime hstep => hs.step htime hstep
  refine ⟨hgood.sent, fun x c hc => hgood.known hc, hgood.once, hgood.dated, fun p x => hgood.late, hgood.whole,
    fun p q hp => (hgood.procs p q hp).2.lock, fun p q hp hfree x => ?_⟩
  rw [pending_some hp]
  exact held_of_empty ((hgood.procs p q hp).2.quiet_of_free hfree).1 x

def bootLogs : Boot := ⟨lit "logs", 0, true, 4096, by decide⟩

def firstLine : Line := ⟨60, .info, lit "Goodbye."⟩

/-- A line is written, then a child is forked. -/
theorem lines_kept_forked : ∃ s, bootLogs.log.Reach InTime s ∧ s.lines.map Entry.line = [firstLine] ∧ s.made = 2 ∧ Kept bootLogs s := by
  have hstamp : bootLogs.log.Reach InTime _ := .step (.stamp 0 0 firstLine) .init trivial rfl
  have hlock : bootLogs.log.Reach InTime _ := .step (.lock 0 0) hstamp trivial rfl
  have hturn : bootLogs.log.Reach InTime _ := .step (.turn 0 0 true) hlock (by rintro q l ⟨⟩ ⟨⟩; decide) rfl
  have hprint : bootLogs.log.Reach InTime _ := .step (.print 0 0) hturn trivial rfl
  have hflush : bootLogs.log.Reach InTime _ := .step (.flush 0 0) hprint trivial rfl
  have hfork : bootLogs.log.Reach InTime _ := .step (.fork 0 0) hflush trivial rfl
  exact ⟨_, hfork, rfl, rfl, lines_kept bootLogs hfork⟩

end Shclaw.Logger
