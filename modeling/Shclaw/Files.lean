/-
  Shclaw.Files — files replaced whole (`src/util.c`: `write_all`, `atomic_write`,
  `file_slurp`).

  Actors. Calls of `atomic_write` and of `file_slurp`, by any threads of any processes, on
  the same paths or others, and the rest of the program deleting files. A step is one
  system call of one of them, with any result it can have: a write of part of the bytes,
  EINTR, a failure. A process can die between two steps; its calls end where they stand. A
  power cut is left out.

  `notes` records each change of a path: a rename by a call, a deletion. `Target` paths are
  those no temporary file is named like; a path with an ending of its own is one
  (`target_of_ending`).

  Proved (`replaced_whole`), for every run on targets:
  - a target holds what its last change left, whole: never part of a call's data, whichever
    calls are under way;
  - a call that returned 0 changed its path once, to its data; one that returned -1 or died
    changed nothing;
  - a read returns text a path held when it was opened, as far as `fread` got;
  - a temporary file belongs to a call under way, to one that died or could not delete it,
    or was there before.
-/

import Mathlib.Data.List.Infix
import Shclaw.Lib.Disk
import Shclaw.Lib.Runs

namespace Shclaw.Files

open Lib

/-! ## The system -/

/-- `tmp`: `seq` is the process's counter, an `int`. -/
def tmpName (path : Str) (pid seq : Nat) : Str :=
  cut 4200 (path ++ lit ".tmp." ++ decimal pid ++ lit "." ++ paddedInt 1 (asInt seq))

/-- No temporary file has this name. -/
def Target (p : Str) : Prop := ∀ path pid seq, tmpName path pid seq ≠ p

/-- Where a call of `atomic_write` stands; the open file is given by its number. -/
inductive Stage where
  | starting
  | writing (file : Nat) (rest : Str)
  | failed (file : Nat)
  | returned (ok : Bool)
  /-- Dead, or returned -1 without its `unlink`. -/
  | left
  deriving DecidableEq

structure Call where
  pid : Nat
  path : Str
  data : Str
  tmp : Str
  stage : Stage

/-- The result of a system call. -/
inductive Sys where
  | done
  | wrote (n : Nat)
  | eintr
  | error

/-- The next system call of `atomic_write`; `write_all` is its loop of `write`s. -/
def callStep (d : Disk) (c : Call) : Sys → Option (Disk × Stage)
  | .done =>
    match c.stage with
    | .starting =>
      match d.create c.tmp with
      | some d' => some (d', .writing d.files.length c.data)
      | none => some (d, .returned false)
    | .writing i [] =>
      match d.rename c.tmp c.path with
      | some d' => some (d', .returned true)
      | none => some (d, .failed i)
    | .failed _ => some (d.unlink c.tmp, .returned false)
    | _ => none
  | .wrote n =>
    match c.stage with
    | .writing i (b :: rest) =>
      if n = 0 then some (d, .failed i)
      else if n ≤ (b :: rest).length then some (d.append i ((b :: rest).take n), .writing i ((b :: rest).drop n))
      else none
    | _ => none
  | .eintr =>
    match c.stage with
    | .writing i (b :: rest) => some (d, .writing i (b :: rest))
    | _ => none
  | .error =>
    match c.stage with
    | .starting => some (d, .returned false)
    | .writing i _ => some (d, .failed i)
    | .failed _ => some (d, .left)
    | _ => none

/-- A change of a path: by which call, to which text. -/
structure Note where
  call : Option Nat
  path : Str
  text : Option Str

inductive ReadStage where
  | starting
  | opened (file : Nat)
  | sized (file : Nat) (size : Nat)
  /-- The buffer, and the number of bytes read. -/
  | returned (res : Option (Nat × Str))

/-- A call of `file_slurp`; `seen` are the changes made before its `fopen`. -/
structure Read where
  path : Str
  seen : List Note
  stage : ReadStage

inductive ReadSys where
  | done
  | got (n : Nat)
  | error

/-- `fopen`, then the size, then `fread`. -/
def readStep (d : Disk) (notes : List Note) (r : Read) : ReadSys → Option Read
  | .done =>
    match r.stage with
    | .starting => some { r with
        seen := notes
        stage := (d.dir r.path).elim (.returned none) .opened }
    | .opened i => some { r with stage := .sized i ((d.files[i]?).getD []).length }
    | _ => none
  | .got n =>
    match r.stage with
    | .sized i size =>
      if n ≤ size ∧ n ≤ ((d.files[i]?).getD []).length then
        some { r with stage := .returned (some (n, ((d.files[i]?).getD []).take n)) }
      else none
    | _ => none
  | .error =>
    match r.stage with
    | .starting | .opened _ => some { r with stage := .returned none }
    | _ => none

structure St where
  disk : Disk
  seq : Nat → Nat
  calls : List Call
  reads : List Read
  notes : List Note

inductive Ev where
  | call (pid : Nat) (path data : Str)
  | write (k : Nat) (o : Sys)
  | slurp (path : Str)
  | read (k : Nat) (o : ReadSys)
  | unlink (path : Str)
  | die (pid : Nat)

/-- What a call's return leaves in the notes. -/
def Call.note (k : Nat) (c : Call) : Stage → List Note
  | .returned true => [⟨some k, c.path, some c.data⟩]
  | _ => []

def Call.die (pid : Nat) (c : Call) : Call :=
  match c.stage with
  | .returned _ => c
  | _ => if c.pid = pid then { c with stage := .left } else c

def step (s : St) : Ev → Option St
  | .call pid path data => some { s with
      seq := Function.update s.seq pid (s.seq pid + 1)
      calls := s.calls ++ [⟨pid, path, data, tmpName path pid (s.seq pid), .starting⟩] }
  | .write k o =>
    (s.calls[k]?).bind fun c => (callStep s.disk c o).map fun r => { s with
      disk := r.1
      calls := s.calls.set k { c with stage := r.2 }
      notes := s.notes ++ c.note k r.2 }
  | .slurp path => some { s with reads := s.reads ++ [⟨path, [], .starting⟩] }
  | .read k o =>
    (s.reads[k]?).bind fun r => (readStep s.disk s.notes r o).map fun r' => { s with reads := s.reads.set k r' }
  | .unlink path => some { s with
      disk := s.disk.unlink path
      notes := s.notes ++ [⟨none, path, none⟩] }
  | .die pid => some { s with
      seq := Function.update s.seq pid 0
      calls := s.calls.map (Call.die pid) }

def files (d₀ : Disk) : System St Ev where
  init := ⟨d₀, fun _ => 0, [], [], []⟩
  step := step

/-- The path a step is given. -/
def Ev.path : Ev → Option Str
  | .call _ path _ | .slurp path | .unlink path => some path
  | _ => none

def OnTargets (_ : St) (e : Ev) : Prop := ∀ p ∈ e.path, Target p

/-! ## What the runs keep -/

/-- The text a path holds after the changes noted, with `before` in front of them. -/
def after (before : Option Str) : List Note → Str → Option Str
  | [], _ => before
  | n :: notes, p => after (if n.path = p then n.text else before) notes p

/-- The file a call has open. -/
def Call.file (c : Call) : Option Nat :=
  match c.stage with
  | .writing i _ | .failed i => some i
  | _ => none

structure Whole (d₀ : Disk) (s : St) : Prop where
  text : ∀ p, Target p → s.disk.text p = after (d₀.text p) s.notes p
  noted : ∀ n ∈ s.notes, ∀ k, n.call = some k → ∃ c, s.calls[k]? = some c ∧ n.path = c.path ∧ n.text = some c.data
  once : ∀ k c, s.calls[k]? = some c →
    s.notes.countP (fun n => n.call = some k) = if c.stage = .returned true then 1 else 0
  reads : ∀ r ∈ s.reads, r.seen <+: s.notes ∧ ∀ n buf, r.stage = .returned (some (n, buf)) →
    ∃ text, after (d₀.text r.path) r.seen r.path = some text ∧ n ≤ text.length ∧ buf = text.take n
  tidy : ∀ p, ¬Target p → s.disk.dir p ≠ none →
    d₀.dir p ≠ none ∨ ∃ c ∈ s.calls, c.tmp = p ∧ (c.file ≠ none ∨ c.stage = .left)

/-! ## Targets -/

theorem paddedInt_ending (n : Int) : ∃ c, (paddedInt 1 n).getLast? = some c ∧ isDigit c = true := by
  unfold paddedInt
  split
  · have hne : n.natAbs ≠ 0 := by omega
    rw [show padded (1 - 1) n.natAbs = decimal n.natAbs from if_neg hne]
    have hlast := List.getLast?_eq_some_getLast (decimal_ne_nil n.natAbs)
    refine ⟨_, by rw [List.getLast?_cons, hlast, Option.getD_some], ?_⟩
    exact decimalAux_digits _ _ _ (List.getLast_mem (decimal_ne_nil _))
  · exact ⟨_, List.getLast?_concat, isDigit_digit (Nat.mod_lt _ (by decide))⟩

/-- A temporary name ends with a digit, or is as long as the buffer. -/
theorem target_of_ending {p : Str} {c : UInt8} (h : p.getLast? = some c) (hc : isDigit c = false) (hlen : p.length < 4199) :
    Target p := by
  rintro path pid seq rfl
  unfold tmpName at h hlen
  rw [cut, List.length_take] at hlen
  rw [cut, List.take_of_length_le (by omega), List.getLast?_append] at h
  obtain ⟨x, hx, hdigit⟩ := paddedInt_ending (asInt seq)
  rw [hx] at h
  cases h
  rw [hdigit] at hc
  cases hc

/-! ## One step of a call -/

/-- The only name of its file. -/
def Sole (d : Disk) (p : Str) (i : Nat) : Prop := d.dir p = some i ∧ ∀ q, d.dir q = some i → q = p

structure CallOk (d : Disk) (c : Call) : Prop where
  tmp : ¬Target c.tmp
  path : Target c.path
  sole : ∀ i, c.file = some i → Sole d c.tmp i
  sofar : ∀ i rest, c.stage = .writing i rest → ∃ done, d.files[i]? = some done ∧ done ++ rest = c.data

/-- Only file `i` and the targets are touched. -/
structure Frame (d d' : Disk) (i : Nat) : Prop where
  kept : ∀ p j, j ≠ i → ¬Target p → d.dir p = some j → d'.dir p = some j
  back : ∀ p j, j ≠ i → d'.dir p = some j → d.dir p = some j
  file : ∀ j, j ≠ i → j < d.files.length → d'.files[j]? = d.files[j]?

/-- What a step of a call may do. -/
structure StepOk (d d' : Disk) (c : Call) (st : Stage) : Prop where
  own : CallOk d' { c with stage := st }
  frame : ∃ i, (i = d.files.length ∨ c.file = some i) ∧ Frame d d' i ∧
    ∀ j, ({ c with stage := st } : Call).file = some j → j = i
  text : ∀ p, Target p → d'.text p = if st = .returned true ∧ p = c.path then some c.data else d.text p
  tidy : ∀ p, ¬Target p → d'.dir p ≠ none →
    (p = c.tmp ∧ (({ c with stage := st } : Call).file ≠ none ∨ st = .left)) ∨
    (d.dir p ≠ none ∧ (p = c.tmp → c.file = none))
  under : c.stage ≠ .returned true

variable {d d' : Disk} {c : Call} {st : Stage} {i : Nat}

theorem Frame.rfl (d : Disk) (i : Nat) : Frame d d i := ⟨fun _ _ _ _ h => h, fun _ _ _ h => h, fun _ _ _ => Eq.refl _⟩

theorem Frame.sole (hf : Frame d d' i) {p : Str} {j : Nat} (hp : ¬Target p) (hj : j ≠ i) (h : Sole d p j) : Sole d' p j :=
  ⟨hf.kept p j hj hp h.1, fun q hq => h.2 q (hf.back q j hj hq)⟩

theorem Frame.callOk (hf : Frame d d' i) (h : CallOk d c) (hc : c.file ≠ some i) : CallOk d' c := by
  refine ⟨h.tmp, h.path, fun j hj => ?_, fun j rest hst => ?_⟩
  · have hne : j ≠ i := fun he => hc (he ▸ hj)
    exact hf.sole h.tmp hne (h.sole j hj)
  · have hj : c.file = some j := by rw [Call.file, hst]
    have hne : j ≠ i := fun he => hc (he ▸ hj)
    obtain ⟨done, hdone, hdata⟩ := h.sofar j rest hst
    exact ⟨done, by rw [hf.file j hne (d.inside _ j (h.sole j hj).1), hdone], hdata⟩

theorem frame_create {p : Str} (h : d.create p = some d') : Frame d d' d.files.length := by
  obtain ⟨hnone, hdir, -⟩ := Disk.create_eq h
  refine ⟨fun q j _ _ hq => ?_, fun q j hj hq => ?_, fun j _ hj => Disk.file_create h hj⟩
  · have hqp : q ≠ p := by
      rintro rfl
      rw [hnone] at hq
      cases hq
    rw [hdir, Function.update_of_ne hqp, hq]
  · rw [hdir] at hq
    by_cases hqp : q = p
    · rw [hqp, Function.update_self] at hq
      exact absurd (Option.some.inj hq).symm hj
    · rwa [Function.update_of_ne hqp] at hq

theorem frame_append (d : Disk) (i : Nat) (bs : Str) : Frame d (d.append i bs) i :=
  ⟨fun _ _ _ _ h => h, fun _ _ _ h => h, fun _ hj _ => Disk.file_append_ne d bs hj.symm⟩

theorem frame_unlink {p : Str} (h : Target p ∨ d.dir p = some i) : Frame d (d.unlink p) i := by
  refine ⟨fun q j hj hq hd => ?_, fun q j _ hd => ?_, fun _ _ _ => Eq.refl _⟩
  · have hqp : q ≠ p := by
      rintro rfl
      rcases h with h | h
      · exact hq h
      · rw [hd] at h
        exact hj (Option.some.inj h)
    rw [Disk.unlink_dir, Function.update_of_ne hqp, hd]
  · rw [Disk.unlink_dir] at hd
    by_cases hqp : q = p
    · rw [hqp, Function.update_self] at hd
      cases hd
    · rwa [Function.update_of_ne hqp] at hd

/-- No target is a temporary file, nor has it the number of one. -/
theorem CallOk.apart (h : CallOk d c) (hi : c.file = some i) {p : Str} (hp : Target p) : p ≠ c.tmp ∧ d.dir p ≠ some i := by
  refine ⟨fun he => h.tmp (he ▸ hp), fun hd => h.tmp ?_⟩
  rw [← (h.sole i hi).2 p hd]
  exact hp

/-- A step that leaves the disk alone and does not begin or finish anything. -/
theorem stepOk_same (h : CallOk d c) (hst : c.stage ≠ .returned true) (hne : st ≠ .returned true)
    (hfile : ∀ j, ({ c with stage := st } : Call).file = some j → c.file = some j)
    (hrest : ∀ j rest, st = .writing j rest → c.stage = .writing j rest)
    (hleft : c.file ≠ none → ({ c with stage := st } : Call).file ≠ none ∨ st = .left) : StepOk d d c st := by
  refine ⟨⟨h.tmp, h.path, fun j hj => h.sole j (hfile j hj), fun j rest hj => h.sofar j rest (hrest j rest hj)⟩, ?_,
    fun p _ => ?_, fun p _ hd => ?_, hst⟩
  · cases hc : c.file with
    | none => exact ⟨d.files.length, .inl (Eq.refl _), Frame.rfl d _, fun j hj => by simpa [hc] using hfile j hj⟩
    | some i => exact ⟨i, .inr (Eq.refl _), Frame.rfl d _, fun j hj => by simpa [hc] using (hfile j hj).symm⟩
  · rw [if_neg fun hand => hne hand.1]
  · by_cases hp : p = c.tmp ∧ c.file ≠ none
    · exact .inl ⟨hp.1, hleft hp.2⟩
    · exact .inr ⟨hd, fun he => by simpa [he] using hp⟩

theorem stepOk_open (h : CallOk d c) (hst : c.stage = .starting) (hd : d.create c.tmp = some d') :
    StepOk d d' c (.writing d.files.length c.data) := by
  obtain ⟨hnone, hdir, hfiles⟩ := Disk.create_eq hd
  have hnew : d'.dir c.tmp = some d.files.length := by rw [hdir, Function.update_self]
  have hother : ∀ p, p ≠ c.tmp → d'.dir p = d.dir p := fun p hp => by rw [hdir, Function.update_of_ne hp]
  refine ⟨⟨h.tmp, h.path, fun j hj => ?_, fun j rest hj => ?_⟩, ⟨d.files.length, .inl (Eq.refl _), frame_create hd, ?_⟩,
    fun p hp => ?_, fun p _ hp => ?_, by rw [hst]; decide⟩
  · cases hj
    refine ⟨hnew, fun q hq => by_contra fun hne => ?_⟩
    rw [hother q hne] at hq
    exact Nat.lt_irrefl _ (d.inside q _ hq)
  · cases hj
    exact ⟨[], by rw [hfiles, List.getElem?_append_right (Nat.le_refl _), Nat.sub_self]; rfl, Eq.refl _⟩
  · intro j hj
    cases hj
    exact Eq.refl _
  · have hne : p ≠ c.tmp := fun he => h.tmp (he ▸ hp)
    rw [if_neg (by simp), Disk.text_create hd hne]
  · by_cases hne : p = c.tmp
    · exact .inl ⟨hne, .inl (by simp [Call.file])⟩
    · exact .inr ⟨by rwa [hother p hne] at hp, fun he => absurd he hne⟩

theorem stepOk_wrote (h : CallOk d c) {rest : Str} (hst : c.stage = .writing i rest) (n : Nat) :
    StepOk d (d.append i (rest.take n)) c (.writing i (rest.drop n)) := by
  have hi : c.file = some i := by rw [Call.file, hst]
  refine ⟨⟨h.tmp, h.path, fun j hj => ?_, fun j rest' hj => ?_⟩, ⟨i, .inr hi, frame_append d i _, ?_⟩,
    fun p hp => ?_, fun p _ hp => ?_, by rw [hst]; simp⟩
  · cases hj
    exact h.sole i hi
  · cases hj
    obtain ⟨done, hdone, hdata⟩ := h.sofar i rest hst
    refine ⟨done ++ rest.take n, by rw [Disk.file_append, hdone]; rfl, ?_⟩
    rw [List.append_assoc, List.take_append_drop, hdata]
  · intro j hj
    cases hj
    exact Eq.refl _
  · rw [if_neg (by simp), Disk.text_append _ (h.apart hi hp).2]
  · by_cases hne : p = c.tmp
    · exact .inl ⟨hne, .inl (by simp [Call.file])⟩
    · exact .inr ⟨hp, fun he => absurd he hne⟩

theorem stepOk_renamed (h : CallOk d c) (hst : c.stage = .writing i []) (hd : d.rename c.tmp c.path = some d') :
    StepOk d d' c (.returned true) := by
  have hi : c.file = some i := by rw [Call.file, hst]
  obtain ⟨htmp, hsole⟩ := h.sole i hi
  have hpath := h.apart hi h.path
  obtain ⟨hdir, hfiles⟩ := Disk.rename_eq hd htmp hpath.2
  have hother : ∀ p, p ≠ c.tmp → p ≠ c.path → d'.dir p = d.dir p := fun p h1 h2 => by
    rw [hdir, Function.update_of_ne h1, Function.update_of_ne h2]
  have hgone : d'.dir c.tmp = none := by rw [hdir, Function.update_self]
  have hmoved : d'.dir c.path = some i := by rw [hdir, Function.update_of_ne hpath.1, Function.update_self]
  refine ⟨⟨h.tmp, h.path, fun j hj => (by cases hj), fun j rest hj => (by cases hj)⟩,
    ⟨i, .inr hi, ⟨?_, ?_, ?_⟩, fun j hj => (by cases hj)⟩,
    fun p hp => ?_, fun p hp hin => ?_, by rw [hst]; simp⟩
  · intro p j hj hp hpd
    have h1 : p ≠ c.tmp := by
      rintro rfl
      rw [htmp] at hpd
      exact hj (Option.some.inj hpd).symm
    have h2 : p ≠ c.path := by
      rintro rfl
      exact hp h.path
    rw [hother p h1 h2, hpd]
  · intro p j hj hpd
    have h1 : p ≠ c.tmp := by
      rintro rfl
      rw [hgone] at hpd
      cases hpd
    have h2 : p ≠ c.path := by
      rintro rfl
      rw [hmoved] at hpd
      exact hj (Option.some.inj hpd).symm
    rwa [hother p h1 h2] at hpd
  · intro j _ _
    rw [hfiles]
  · obtain ⟨done, hdone, hdata⟩ := h.sofar i [] hst
    rw [Disk.text_rename hd htmp hpath.2 (h.apart hi hp).1, hdone, ← hdata, List.append_nil]
    simp
  · have h1 : p ≠ c.tmp := by
      rintro rfl
      exact hin hgone
    have h2 : p ≠ c.path := by
      rintro rfl
      exact hp h.path
    exact .inr ⟨by rwa [hother p h1 h2] at hin, fun he => absurd he h1⟩

theorem stepOk_unlinked (h : CallOk d c) (hst : c.stage = .failed i) : StepOk d (d.unlink c.tmp) c (.returned false) := by
  have hi : c.file = some i := by rw [Call.file, hst]
  refine ⟨⟨h.tmp, h.path, fun j hj => (by cases hj), fun j rest hj => (by cases hj)⟩,
    ⟨i, .inr hi, frame_unlink (.inr (h.sole i hi).1), fun j hj => (by cases hj)⟩, fun p hp => ?_, fun p _ hin => ?_, by rw [hst]; simp⟩
  · rw [if_neg (by simp), Disk.text_unlink, if_neg (h.apart hi hp).1]
  · have h1 : p ≠ c.tmp := by
      rintro rfl
      exact hin (by rw [Disk.unlink_dir, Function.update_self])
    rw [Disk.unlink_dir, Function.update_of_ne h1] at hin
    exact .inr ⟨hin, fun he => absurd he h1⟩

/-- Every system call of `atomic_write`. -/
theorem callStep_ok (h : CallOk d c) {o : Sys} (hs : callStep d c o = some (d', st)) : StepOk d d' c st := by
  unfold callStep at hs
  cases o with
  | done =>
    simp only at hs
    split at hs
    · rename_i hst
      split at hs
      · cases hs
        exact stepOk_open h hst ‹_›
      · cases hs
        exact stepOk_same h (by rw [hst]; simp) (by simp) (by simp [Call.file]) (by simp) (by simp [Call.file, hst])
    · rename_i i hst
      split at hs
      · cases hs
        exact stepOk_renamed h hst ‹_›
      · cases hs
        exact stepOk_same h (by rw [hst]; simp) (by simp) (by simp [Call.file, hst]) (by simp) (by simp [Call.file])
    · rename_i i hst
      cases hs
      exact stepOk_unlinked h hst
    · cases hs
  | wrote n =>
    simp only at hs
    split at hs
    · rename_i i b rest hst
      split at hs
      · cases hs
        exact stepOk_same h (by rw [hst]; simp) (by simp) (by simp [Call.file, hst]) (by simp) (by simp [Call.file])
      · split at hs
        · cases hs
          exact stepOk_wrote h hst n
        · cases hs
    · cases hs
  | eintr =>
    simp only at hs
    split at hs
    · rename_i i b rest hst
      cases hs
      exact stepOk_same h (by rw [hst]; simp) (by simp) (by simp [Call.file, hst]) (by simp [hst]) (by simp [Call.file])
    · cases hs
  | error =>
    simp only at hs
    split at hs
    · rename_i hst
      cases hs
      exact stepOk_same h (by rw [hst]; simp) (by simp) (by simp [Call.file]) (by simp) (by simp [Call.file, hst])
    · rename_i i rest hst
      cases hs
      exact stepOk_same h (by rw [hst]; simp) (by simp) (by simp [Call.file, hst]) (by simp) (by simp [Call.file])
    · rename_i i hst
      cases hs
      exact stepOk_same h (by rw [hst]; simp) (by simp) (by simp [Call.file]) (by simp) (by simp)
    · cases hs

/-! ## In every run -/

def Read.file (r : Read) : Option Nat :=
  match r.stage with
  | .opened i | .sized i _ => some i
  | _ => none

/-- An open read has the text its path led to, and no call writes that file. -/
def ReadOk (d₀ : Disk) (s : St) (r : Read) : Prop :=
  ∀ i, r.file = some i → (∃ text, s.disk.files[i]? = some text ∧ after (d₀.text r.path) r.seen r.path = some text) ∧
    ∀ c ∈ s.calls, c.file ≠ some i

structure Inv (d₀ : Disk) (s : St) : Prop extends Whole d₀ s where
  calls : ∀ c ∈ s.calls, CallOk s.disk c
  apart : ∀ (k l : Nat) (c c' : Call) (i : Nat), s.calls[k]? = some c → s.calls[l]? = some c' → c.file = some i → c'.file = some i → k = l
  opened : ∀ r ∈ s.reads, ReadOk d₀ s r
  targets : ∀ r ∈ s.reads, Target r.path

variable {d₀ : Disk} {s : St}

theorem after_append (before : Option Str) (notes : List Note) (n : Note) (p : Str) :
    after before (notes ++ [n]) p = if n.path = p then n.text else after before notes p := by
  induction notes generalizing before with
  | nil => rfl
  | cons m notes ih => exact ih _

theorem note_returned (k : Nat) (c : Call) : c.note k (.returned true) = [⟨some k, c.path, some c.data⟩] := rfl

theorem note_of_ne (h : st ≠ .returned true) (k : Nat) (c : Call) : c.note k st = [] := by
  unfold Call.note
  split
  · exact absurd rfl h
  · rfl

/-- No note is of a call still to come. -/
theorem Whole.count_new (h : Whole d₀ s) : s.notes.countP (fun n => n.call = some s.calls.length) = 0 := by
  rw [List.countP_eq_zero]
  intro n hn hcall
  obtain ⟨c, hc, -, -⟩ := h.noted n hn _ (of_decide_eq_true hcall)
  rw [List.getElem?_eq_none (Nat.le_refl _)] at hc
  cases hc

theorem inv_init (d₀ : Disk) : Inv d₀ (files d₀).init where
  text _ _ := rfl
  noted n hn := absurd hn List.not_mem_nil
  once k c hc := by cases hc
  reads r hr := absurd hr List.not_mem_nil
  tidy p _ hp := .inl hp
  calls c hc := absurd hc List.not_mem_nil
  apart k l c c' i hc := by cases hc
  opened r hr := absurd hr List.not_mem_nil
  targets r hr := absurd hr List.not_mem_nil

theorem inv_call (h : Inv d₀ s) {pid : Nat} {path data : Str} (ht : Target path) {s' : St}
    (hs : step s (.call pid path data) = some s') : Inv d₀ s' := by
  cases hs
  have hold : ∀ k c, (s.calls ++ [⟨pid, path, data, tmpName path pid (s.seq pid), .starting⟩])[k]? = some c →
      s.calls[k]? = some c ∨ (k = s.calls.length ∧ c = ⟨pid, path, data, tmpName path pid (s.seq pid), .starting⟩) := by
    intro k c hc
    rw [List.getElem?_append] at hc
    split at hc
    · exact .inl hc
    · rename_i hk
      rw [List.getElem?_singleton] at hc
      split at hc
      · cases hc
        exact .inr ⟨by omega, rfl⟩
      · cases hc
  refine ⟨⟨h.text, fun n hn k hk => ?_, fun k c hc => ?_, h.reads, fun p hp hd => ?_⟩, fun c hc => ?_,
    fun k l c c' i hc hc' hi hi' => ?_, fun r hr i hi => ?_, h.targets⟩
  · obtain ⟨c, hc, hn⟩ := h.noted n hn k hk
    exact ⟨c, by rw [List.getElem?_append_left (List.getElem?_eq_some_iff.mp hc).1, hc], hn⟩
  · rcases hold k c hc with hc | ⟨rfl, rfl⟩
    · exact h.once k c hc
    · simpa using h.count_new
  · refine (h.tidy p hp hd).imp_right fun ⟨c, hc, hcp⟩ => ⟨c, List.mem_append_left _ hc, hcp⟩
  · rcases List.mem_append.mp hc with hc | hc
    · exact h.calls c hc
    · rw [List.mem_singleton.mp hc]
      exact ⟨fun htmp => htmp _ _ _ rfl, ht, fun i hi => (by cases hi), fun i rest hst => (by cases hst)⟩
  · rcases hold k c hc with hc | ⟨-, rfl⟩
    · rcases hold l c' hc' with hc' | ⟨-, rfl⟩
      · exact h.apart k l c c' i hc hc' hi hi'
      · cases hi'
    · cases hi
  · obtain ⟨htext, hnone⟩ := h.opened r hr i hi
    refine ⟨htext, fun c hc => ?_⟩
    rcases List.mem_append.mp hc with hc | hc
    · exact hnone c hc
    · rw [List.mem_singleton.mp hc]
      simp [Call.file]

/-- A new number is nobody's. -/
theorem Inv.file_lt (h : Inv d₀ s) {c : Call} (hc : c ∈ s.calls) {i : Nat} (hi : c.file = some i) : i < s.disk.files.length :=
  s.disk.inside _ i ((h.calls c hc).sole i hi).1

theorem inv_write (h : Inv d₀ s) {k : Nat} {o : Sys} {s' : St} (hs : step s (.write k o) = some s') : Inv d₀ s' := by
  obtain ⟨c, hc, hs⟩ := Option.bind_eq_some_iff.mp hs
  obtain ⟨⟨d', st⟩, hcall, hs⟩ := Option.map_eq_some_iff.mp hs
  subst hs
  obtain ⟨hk, hck⟩ := List.getElem?_eq_some_iff.mp hc
  have hmem : c ∈ s.calls := hck ▸ List.getElem_mem hk
  have hok := callStep_ok (h.calls c hmem) hcall
  obtain ⟨i, hi, hframe, hown⟩ := hok.frame
  -- the file of another call is not touched, nor one that is read
  have hother : ∀ l c', s.calls[l]? = some c' → l ≠ k → c'.file ≠ some i := by
    intro l c' hc' hl hf
    rcases hi with rfl | hi
    · exact Nat.lt_irrefl _ (h.file_lt (List.mem_of_getElem? hc') hf)
    · exact hl (h.apart l k c' c i hc' hc hf hi)
  have hset : ∀ l c', (s.calls.set k { c with stage := st })[l]? = some c' →
      (l = k ∧ c' = { c with stage := st }) ∨ (l ≠ k ∧ s.calls[l]? = some c') := by
    intro l c' hc'
    rw [List.getElem?_set, if_pos hk] at hc'
    split at hc'
    · rename_i hkl
      cases hc'
      exact .inl ⟨hkl.symm, rfl⟩
    · exact .inr ⟨Ne.symm ‹_›, hc'⟩
  have hnote : ∀ n ∈ c.note k st, n = ⟨some k, c.path, some c.data⟩ := by
    intro n hn
    by_cases hst : st = .returned true
    · subst hst
      exact List.mem_singleton.mp hn
    · rw [note_of_ne hst] at hn
      cases hn
  refine ⟨⟨fun p hp => ?_, fun n hn l hl => ?_, fun l c' hc' => ?_, fun r hr => ?_, fun p hp hd => ?_⟩, fun c' hc' => ?_,
    fun l m c' c'' j hc' hc'' hj hj' => ?_, fun r hr j hj => ?_, h.targets⟩
  · dsimp only
    rw [hok.text p hp]
    by_cases hst : st = .returned true
    · subst hst
      rw [note_returned, after_append, h.text p hp]
      simp only [true_and, eq_comm]
    · rw [note_of_ne hst, List.append_nil, if_neg fun hand => hst hand.1, h.text p hp]
  · have hset_k : (s.calls.set k { c with stage := st })[k]? = some { c with stage := st } := by
      rw [List.getElem?_set, if_pos rfl, if_pos hk]
    rcases List.mem_append.mp hn with hn | hn
    · obtain ⟨c', hc', hn'⟩ := h.noted n hn l hl
      by_cases hlk : l = k
      · subst hlk
        rw [hc] at hc'
        cases hc'
        exact ⟨_, hset_k, hn'⟩
      · exact ⟨c', by rw [List.getElem?_set, if_neg (Ne.symm hlk), hc'], hn'⟩
    · obtain rfl := hnote n hn
      cases hl
      exact ⟨_, hset_k, rfl, rfl⟩
  · rw [List.countP_append]
    rcases hset l c' hc' with ⟨rfl, rfl⟩ | ⟨hlk, hc'⟩
    · rw [h.once l c hc, if_neg hok.under]
      by_cases hst : st = .returned true
      · subst hst
        simp [note_returned]
      · rw [note_of_ne hst, List.countP_nil, if_neg hst]
    · have hzero : (c.note k st).countP (fun n => n.call = some l) = 0 := by
        rw [List.countP_eq_zero]
        intro n hn hcall
        obtain rfl := hnote n hn
        exact hlk (Option.some.inj (of_decide_eq_true hcall)).symm
      rw [hzero, h.once l c' hc', Nat.add_zero]
  · obtain ⟨hseen, hres⟩ := h.reads r hr
    exact ⟨hseen.trans (List.prefix_append _ _), hres⟩
  · rcases hok.tidy p hp hd with ⟨rfl, hleft⟩ | ⟨hd, hnone⟩
    · exact .inr ⟨_, List.mem_set hk _, rfl, hleft⟩
    · refine (h.tidy p hp hd).imp_right fun ⟨c', hc', hp', hleft⟩ => ?_
      obtain ⟨l, hl⟩ := List.getElem?_of_mem hc'
      by_cases hlk : l = k
      · subst hlk
        rw [hc] at hl
        cases hl
        rcases hleft with hleft | hleft
        · exact absurd (hnone hp'.symm) hleft
        · unfold callStep at hcall
          cases o <;> simp [hleft] at hcall
      · exact ⟨c', List.mem_of_getElem? (by rw [List.getElem?_set, if_neg (Ne.symm hlk), hl]), hp', hleft⟩
  · obtain ⟨l, hl⟩ := List.getElem?_of_mem hc'
    rcases hset l c' hl with ⟨-, rfl⟩ | ⟨hlk, hl⟩
    · exact hok.own
    · exact hframe.callOk (h.calls c' (List.mem_of_getElem? hl)) (hother l c' hl hlk)
  · rcases hset l c' hc' with ⟨rfl, rfl⟩ | ⟨hlk, hl⟩
    · rcases hset m c'' hc'' with ⟨rfl, -⟩ | ⟨hmk, hm⟩
      · rfl
      · rw [hown j hj] at hj'
        exact absurd hj' (hother m c'' hm hmk)
    · rcases hset m c'' hc'' with ⟨rfl, rfl⟩ | ⟨hmk, hm⟩
      · rw [hown j hj'] at hj
        exact absurd hj (hother l c' hl hlk)
      · exact h.apart l m c' c'' j hl hm hj hj'
  · obtain ⟨⟨text, htext, hafter⟩, hnone⟩ := h.opened r hr j hj
    have hji : j ≠ i := by
      rintro rfl
      rcases hi with rfl | hi
      · rw [List.getElem?_eq_none (Nat.le_refl _)] at htext
        cases htext
      · exact hnone c hmem hi
    have hjlt : j < s.disk.files.length := (List.getElem?_eq_some_iff.mp htext).1
    refine ⟨⟨text, by rw [hframe.file j hji hjlt, htext], hafter⟩, fun c' hc' => ?_⟩
    rcases List.mem_or_eq_of_mem_set hc' with hc' | rfl
    · exact hnone c' hc'
    · exact fun hf => hji (hown j hf)

theorem inv_slurp (h : Inv d₀ s) {path : Str} (ht : Target path) {s' : St} (hs : step s (.slurp path) = some s') :
    Inv d₀ s' := by
  cases hs
  refine ⟨⟨h.text, h.noted, h.once, fun r hr => ?_, h.tidy⟩, h.calls, h.apart, fun r hr => ?_, fun r hr => ?_⟩
  all_goals rcases List.mem_append.mp hr with hr | hr
  · exact h.reads r hr
  · rw [List.mem_singleton.mp hr]
    exact ⟨List.nil_prefix, fun n buf hres => by cases hres⟩
  · exact h.opened r hr
  · rw [List.mem_singleton.mp hr]
    exact fun i hi => by cases hi
  · exact h.targets r hr
  · rw [List.mem_singleton.mp hr]
    exact ht

/-- What a step of a read may do. -/
theorem readStep_ok (h : Inv d₀ s) {r r' : Read} (hr : r ∈ s.reads) {o : ReadSys} (hs : readStep s.disk s.notes r o = some r') :
    r'.path = r.path ∧ r'.seen <+: s.notes ∧ ReadOk d₀ s r' ∧ ∀ n buf, r'.stage = .returned (some (n, buf)) →
      ∃ text, after (d₀.text r'.path) r'.seen r'.path = some text ∧ n ≤ text.length ∧ buf = text.take n := by
  have hseen := (h.reads r hr).1
  have hopen := h.opened r hr
  unfold readStep at hs
  cases o with
  | done =>
    simp only at hs
    split at hs
    · cases hs
      refine ⟨rfl, List.prefix_rfl, fun i hi => ?_, fun n buf hres => ?_⟩
      · -- what the path leads to now, and no call's file
        cases hd : s.disk.dir r.path with
        | none => simp [Read.file, hd] at hi
        | some j =>
          obtain rfl : j = i := by simpa [Read.file, hd] using hi
          have htext := h.text r.path (h.targets r hr)
          rw [Disk.text_eq _ hd] at htext
          refine ⟨⟨_, List.getElem?_eq_getElem (s.disk.inside _ j hd), ?_⟩, fun c hc hf => ?_⟩
          · rw [← htext, List.getElem?_eq_getElem (s.disk.inside _ j hd)]
          · exact ((h.calls c hc).apart hf (h.targets r hr)).2 hd
      · cases hd : s.disk.dir r.path with
        | none => simp [hd] at hres
        | some j => simp [hd] at hres
    · rename_i i hst
      cases hs
      refine ⟨rfl, hseen, fun j hj => hopen j ?_, fun n buf hres => by cases hres⟩
      rw [Read.file, hst]
      exact hj
    · cases hs
  | got n =>
    simp only at hs
    split at hs
    · rename_i i size hst
      split at hs
      · rename_i hle
        cases hs
        refine ⟨rfl, hseen, fun j hj => (by cases hj), fun m buf hres => ?_⟩
        cases hres
        obtain ⟨⟨text, htext, hafter⟩, -⟩ := hopen i (by rw [Read.file, hst])
        rw [htext, Option.getD_some] at hle
        exact ⟨text, hafter, hle.2, by rw [htext, Option.getD_some]⟩
      · cases hs
    · cases hs
  | error =>
    simp only at hs
    split at hs
    all_goals cases hs
    all_goals exact ⟨rfl, hseen, fun j hj => (by cases hj), fun n buf hres => (by cases hres)⟩

theorem inv_read (h : Inv d₀ s) {k : Nat} {o : ReadSys} {s' : St} (hs : step s (.read k o) = some s') : Inv d₀ s' := by
  obtain ⟨r, hr, hs⟩ := Option.bind_eq_some_iff.mp hs
  obtain ⟨r', hread, rfl⟩ := Option.map_eq_some_iff.mp hs
  obtain ⟨hpath, hseen, hopen, hres⟩ := readStep_ok h (List.mem_of_getElem? hr) hread
  refine ⟨⟨h.text, h.noted, h.once, fun x hx => ?_, h.tidy⟩, h.calls, h.apart, fun x hx => ?_, fun x hx => ?_⟩
  all_goals rcases List.mem_or_eq_of_mem_set hx with hx | rfl
  · exact h.reads x hx
  · exact ⟨hseen, hres⟩
  · exact h.opened x hx
  · exact hopen
  · exact h.targets x hx
  · exact hpath ▸ h.targets r (List.mem_of_getElem? hr)

theorem inv_unlink (h : Inv d₀ s) {path : Str} (ht : Target path) {s' : St} (hs : step s (.unlink path) = some s') :
    Inv d₀ s' := by
  cases hs
  have hframe := fun i => frame_unlink (d := s.disk) (i := i) (.inl ht)
  refine ⟨⟨fun p hp => ?_, fun n hn k hk => ?_, fun k c hc => ?_, fun r hr => ?_, fun p hp hd => ?_⟩, fun c hc => ?_,
    h.apart, fun r hr i hi => ?_, h.targets⟩
  · dsimp only
    rw [after_append, Disk.text_unlink, h.text p hp]
    simp only [eq_comm]
  · rcases List.mem_append.mp hn with hn | hn
    · exact h.noted n hn k hk
    · rw [List.mem_singleton.mp hn] at hk
      cases hk
  · rw [List.countP_append, h.once k c hc]
    rfl
  · obtain ⟨hseen, hres⟩ := h.reads r hr
    exact ⟨hseen.trans (List.prefix_append _ _), hres⟩
  · refine h.tidy p hp ?_
    rw [Disk.unlink_dir] at hd
    by_cases hpp : p = path
    · exact absurd ht (hpp ▸ hp)
    · rwa [Function.update_of_ne hpp] at hd
  · exact (hframe s.disk.files.length).callOk (h.calls c hc) fun hf => Nat.lt_irrefl _ (h.file_lt hc hf)
  · exact h.opened r hr i hi

theorem Call.die_cases (pid : Nat) (c : Call) :
    c.die pid = c ∨ (c.stage ≠ .returned true ∧ c.die pid = { c with stage := .left }) := by
  unfold Call.die
  split
  · exact .inl rfl
  · rename_i hne
    split
    · exact .inr ⟨fun he => hne true he, rfl⟩
    · exact .inl rfl

theorem inv_die (h : Inv d₀ s) {pid : Nat} {s' : St} (hs : step s (.die pid) = some s') : Inv d₀ s' := by
  cases hs
  have hfile : ∀ (c : Call) i, (c.die pid).file = some i → c.file = some i := by
    intro c i hi
    rcases c.die_cases pid with he | ⟨-, he⟩
    · rwa [he] at hi
    · rw [he] at hi
      cases hi
  have hmap : ∀ (k : Nat) (c : Call), (s.calls.map (Call.die pid))[k]? = some c → ∃ c₀, s.calls[k]? = some c₀ ∧ c₀.die pid = c := by
    intro k c hc
    rw [List.getElem?_map] at hc
    exact Option.map_eq_some_iff.mp hc
  refine ⟨⟨h.text, fun n hn k hk => ?_, fun k c hc => ?_, h.reads, fun p hp hd => ?_⟩, fun c hc => ?_,
    fun k l c c' i hc hc' hi hi' => ?_, fun r hr i hi => ?_, h.targets⟩
  · obtain ⟨c, hc, hpath, htext⟩ := h.noted n hn k hk
    refine ⟨c.die pid, by rw [List.getElem?_map, hc]; rfl, ?_⟩
    rcases c.die_cases pid with he | ⟨-, he⟩
    · rw [he]
      exact ⟨hpath, htext⟩
    · rw [he]
      exact ⟨hpath, htext⟩
  · obtain ⟨c₀, hc₀, rfl⟩ := hmap k c hc
    rcases c₀.die_cases pid with he | ⟨hne, he⟩
    · rw [he, h.once k c₀ hc₀]
    · rw [he, h.once k c₀ hc₀, if_neg hne]
      rfl
  · refine (h.tidy p hp hd).imp_right fun ⟨c, hc, hcp, hleft⟩ => ⟨_, List.mem_map_of_mem hc, ?_⟩
    rcases c.die_cases pid with he | ⟨-, he⟩
    · rw [he]
      exact ⟨hcp, hleft⟩
    · rw [he]
      exact ⟨hcp, .inr rfl⟩
  · obtain ⟨c₀, hc₀, rfl⟩ := List.mem_map.mp hc
    have hok := h.calls c₀ hc₀
    rcases c₀.die_cases pid with he | ⟨-, he⟩
    · rw [he]
      exact hok
    · rw [he]
      exact ⟨hok.tmp, hok.path, fun i hi => (by cases hi), fun i rest hst => (by cases hst)⟩
  · obtain ⟨c₀, hc₀, rfl⟩ := hmap k c hc
    obtain ⟨c₁, hc₁, rfl⟩ := hmap l c' hc'
    exact h.apart k l c₀ c₁ i hc₀ hc₁ (hfile c₀ i hi) (hfile c₁ i hi')
  · obtain ⟨htext, hnone⟩ := h.opened r hr i hi
    refine ⟨htext, fun c hc hf => ?_⟩
    obtain ⟨c₀, hc₀, rfl⟩ := List.mem_map.mp hc
    exact hnone c₀ hc₀ (hfile c₀ i hf)

theorem inv_step (h : Inv d₀ s) {e : Ev} (hok : OnTargets s e) {s' : St} (hs : step s e = some s') : Inv d₀ s' := by
  cases e with
  | call pid path data => exact inv_call h (hok _ rfl) hs
  | write k o => exact inv_write h hs
  | slurp path => exact inv_slurp h (hok _ rfl) hs
  | read k o => exact inv_read h hs
  | unlink path => exact inv_unlink h (hok _ rfl) hs
  | die pid => exact inv_die h hs

/-- Files are replaced whole, by the calls that return 0 and no others, and read whole. -/
theorem replaced_whole (d₀ : Disk) (s : St) (h : (files d₀).Reach OnTargets s) : Whole d₀ s :=
  (h.invariant (I := Inv d₀) (inv_init d₀) fun _ _ _ hI hok hs => inv_step hI hok hs).toWhole

/-- A new file, written in two pieces and read while a second call begins. -/
def twoPieces : List Ev :=
  [.call 7 (lit "facts.json") (lit "\x7b\x7d"), .write 0 .done, .write 0 (.wrote 1), .write 0 .eintr, .write 0 (.wrote 1),
    .write 0 .done, .slurp (lit "facts.json"), .read 0 .done, .call 7 (lit "facts.json") (lit "[]"), .write 1 .done,
    .read 0 .done, .read 0 (.got 2), .die 7]

theorem replaced_whole_pieces : ∃ s, (files Disk.empty).Reach OnTargets s ∧
    s.disk.text (lit "facts.json") = some (lit "\x7b\x7d") ∧ Whole Disk.empty s := by
  have ht : Target (lit "facts.json") := target_of_ending (c := ch 'n') (by decide) (by decide) (by decide)
  have hrun : ((files Disk.empty).replay (fun _ e => ∀ p ∈ e.path, p = lit "facts.json") (files Disk.empty).init twoPieces).map
      (fun s => s.disk.text (lit "facts.json")) = some (some (lit "\x7b\x7d")) := by decide
  obtain ⟨s, hs, htext⟩ := Option.map_eq_some_iff.mp hrun
  have hreach : (files Disk.empty).Reach OnTargets s :=
    (System.Reach.replay .init hs).mono fun _ _ hok p hp => hok p hp ▸ ht
  exact ⟨s, hreach, htext, replaced_whole _ _ hreach⟩

end Shclaw.Files
