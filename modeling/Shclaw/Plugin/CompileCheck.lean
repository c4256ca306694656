/-
  Shclaw.Plugin.CompileCheck — the compiler's child (`src/plugin.c`: `compile_check`,
  `diag`).

  The child builds the source, prints each diagnostic as a line and exits with 0 if the
  build worked. The parent gathers the lines as it does a command's (`Tools.Children`),
  takes the newlines from their end and says what became of the child. Reads and writes
  are checked against `err`.

  `compile_says`: whatever the reads and the child's end, nothing outside `err` is read or
  written; the answer is 0 only for a child that exited with 0, and `err` has the
  diagnostics as far as it holds them, or what went wrong (`outcome`). A child that gets to
  the end of its build leaves what `Plugin.pluginCompile` takes it to leave: the answer of
  `build`, and `diagnostics`.
-/

import Mathlib.Data.List.DropRight
import Shclaw.Tools.Children

namespace Shclaw.Plugin.CompileCheck

open Lib Util Tools.Children

/-! ## The check -/

def checkTimeout : Int := 30

/-- `diag` of each message, in the child. -/
def diag (msgs : List Str) : Str := msgs.flatMap fun m => m ++ lit "\n"

/-- The loop over the newlines at the end. -/
def trimEnd : Nat → Str → Option (Str × Nat)
  | 0, err => some (err, 0)
  | len + 1, err =>
    (Lib.read err len 1).bind fun c =>
      if c = [ch '\n'] then (write err len [0]).bind (trimEnd len) else some (err, len + 1)

def crashed (len sig : Nat) : Str :=
  (if len ≠ 0 then lit "\n" else []) ++ lit "compiler crashed (signal " ++ decimal sig ++ lit ")"

/-- `snprintf(err + i, err_sz - i, ..)` and -1. -/
def fail (V : Unsaid) (errSz : Nat) (err : Str) (i : Nat) (text : Str) : Option (Int × Str) :=
  (vsnprintf V err i (errSz - i) text).map fun r => (-1, r.1)

/-- What comes behind the loop. -/
def told (V : Unsaid) (errSz : Nat) (status : Int) (err : Str × Nat) : Option (Int × Str) :=
  if status = -1 then fail V errSz err.1 0 (lit "compiler timed out")
  else if wIfSignaled status then fail V errSz err.1 err.2 (crashed err.2 (wTermSig status))
  else if wIfExited status = false ∨ wExitStatus status ≠ 0 then
    if err.2 = 0 then fail V errSz err.1 0 (lit "compilation failed") else some (-1, err.1)
  else some (0, err.1)

/-- `compile_check` behind `child_collect`; the inner `none` is a child still at it. -/
def collected (V : Unsaid) (errSz : Nat) : Option Tools.Children.Child → Option (Option (Int × Str))
  | none => some none
  | some c => ((trimEnd c.o.len c.o.mem).bind (told V errSz c.status)).map some

def compileCheck (V : Unsaid) (err : Str) (errSz : Nat) (start : Start) (c : Life) : Option (Option (Int × Str)) :=
  match start with
  | .noPipe => (fail V errSz err 0 (lit "pipe() failed")).map some
  | .noFork => (fail V errSz err 0 (lit "fork() failed")).map some
  | .forked => (childCollect c checkTimeout err (errSz - 1)).bind (collected V errSz)

/-! ## What it says -/

/-- A text without the newlines at its end. -/
def unlined (text : Str) : Str := text.rdropWhile (· = ch '\n')

/-- The answer and the text for what a child printed and its status. -/
def verdict (output : Str) (status : Int) : Int × Str :=
  if status = -1 then (-1, lit "compiler timed out")
  else if wIfSignaled status then (-1, unlined output ++ crashed (unlined output).length (wTermSig status))
  else if wIfExited status = false ∨ wExitStatus status ≠ 0 then
    (-1, if unlined output = [] then lit "compilation failed" else unlined output)
  else (0, unlined output)

def outcome (errSz : Nat) (start : Start) (output : Str) (status : Int) : Int × Str :=
  match start with
  | .noPipe => (-1, lit "pipe() failed")
  | .noFork => (-1, lit "fork() failed")
  | .forked => verdict (output.take (errSz - 1)) status

theorem unlined_newline (text : Str) : unlined (text ++ [ch '\n']) = unlined text := List.rdropWhile_concat_pos _ _ _ rfl

theorem unlined_other {c : UInt8} (hc : c ≠ ch '\n') (text : Str) : unlined (text ++ [c]) = text ++ [c] :=
  List.rdropWhile_concat_neg _ _ _ (by simpa using hc)

theorem length_unlined (text : Str) : (unlined text).length ≤ text.length := (List.rdropWhile_prefix _ _).length_le

/-- The loop leaves the text without its newlines, and a NUL behind it. -/
theorem trimEnd_ok (text : Str) {err : Str} (h : err.take (text.length + 1) = text ++ [0]) :
    ∃ err', trimEnd text.length err = some (err', (unlined text).length) ∧ err'.length = err.length ∧
      (∀ k, text.length < k → err'.drop k = err.drop k) ∧
      err'.take ((unlined text).length + 1) = unlined text ++ [0] := by
  induction text using List.reverseRecOn generalizing err with
  | nil => exact ⟨err, rfl, rfl, fun _ _ => rfl, h⟩
  | append_singleton text c ih =>
    have hsize := congrArg List.length h
    rw [List.length_take, List.length_append, List.length_append, List.length_singleton, List.length_singleton] at hsize
    have hlen : (text ++ [c]).length = text.length + 1 := by
      rw [List.length_append, List.length_singleton]
    have hfront : err.take text.length = text := by
      have hcut := congrArg (List.take text.length) h
      rw [List.take_take, hlen, Nat.min_eq_left (by omega), List.append_assoc, List.take_left] at hcut
      exact hcut
    have hread : Lib.read err text.length 1 = some [c] := by
      have hcut := congrArg (fun l => (l.drop text.length).take 1) h
      rw [List.drop_take, List.take_take, hlen, Nat.min_eq_left (by omega), List.append_assoc, List.drop_left] at hcut
      unfold Lib.read
      rw [if_pos (by omega), hcut]
      rfl
    rw [hlen]
    unfold trimEnd
    rw [hread, Option.bind_some]
    by_cases hc : c = ch '\n'
    · subst hc
      have hfits : text.length + ([0] : Str).length ≤ err.length := by
        rw [List.length_singleton]
        omega
      rw [if_pos rfl, write_eq hfits, Option.bind_some, unlined_newline]
      obtain ⟨err', htrim, hsame, hbehind, hheld⟩ := ih ((written_take hfits).trans (congrArg (· ++ [0]) hfront))
      refine ⟨err', htrim, hsame.trans (written_length hfits), fun k hk => ?_, hheld⟩
      rw [hbehind k (by omega)]
      exact written_drop hfits (by rw [List.length_singleton]; omega)
    · rw [if_neg (by simpa using hc), unlined_other hc, hlen]
      exact ⟨err, rfl, rfl, fun _ _ => rfl, hlen ▸ h⟩

theorem counted_crashed (len : Nat) (status : Int) : counted (crashed len (wTermSig status)) = true := by
  have hsig : wTermSig status < 128 := by
    unfold wTermSig
    omega
  have hdigits := length_decimal_le (n := wTermSig status) (w := 2) (by omega)
  have hline : (if len ≠ 0 then lit "\n" else []).length ≤ 1 := by
    split
    · decide
    · exact Nat.zero_le _
  have hfirst : (lit "compiler crashed (signal ").length = 25 := rfl
  have hlast : (lit ")").length = 1 := rfl
  refine decide_eq_true ?_
  unfold crashed
  simp only [List.length_append]
  omega

/-- What a call leaves: an answer, and a text inside `err`. -/
structure Says (err : Object) (errSz : Nat) (v : Int × Str) (r : Int × Str) : Prop where
  answer : r.1 = v.1
  size : r.2.length = err.bytes.length
  behind : r.2.drop errSz = err.bytes.drop errSz
  text : cstr r.2 = cstr (cut errSz v.2)

variable {V : Unsaid} {err : Object} {errSz : Nat}

theorem fail_says {mem front text : Str} {i : Nat} (hfront : mem.take i = front) (hi : i = front.length) (hin : front.length < errSz)
    (herr : errSz ≤ err.bytes.length) (hsize : mem.length = err.bytes.length) (hbehind : mem.drop errSz = err.bytes.drop errSz)
    (htext : counted text = true) : ∃ r, fail V errSz mem i text = some r ∧ Says err errSz (-1, front ++ text) r := by
  subst hi
  obtain ⟨err', hrun, hlen, hdrop, hread⟩ := vsnprintf_behind V hfront hin (by omega) htext
  have hfail : fail V errSz mem front.length text = some (-1, err') := by
    unfold fail
    rw [hrun]
    rfl
  exact ⟨_, hfail, rfl, hlen.trans hsize, hdrop.trans hbehind, hread⟩

theorem told_says {mem output : Str} (status : Int) (hheld : mem.take ((unlined output).length + 1) = unlined output ++ [0])
    (hin : (unlined output).length < errSz) (herr : errSz ≤ err.bytes.length) (hsize : mem.length = err.bytes.length)
    (hbehind : mem.drop errSz = err.bytes.drop errSz) :
    ∃ r, told V errSz status (mem, (unlined output).length) = some r ∧ Says err errSz (verdict output status) r := by
  have hfront : mem.take (unlined output).length = unlined output := by
    have hcut := congrArg (List.take (unlined output).length) hheld
    rw [List.take_take, Nat.min_eq_left (Nat.le_succ _), List.take_left] at hcut
    exact hcut
  have hkeep : cstr mem = cstr (cut errSz (unlined output)) := by
    rw [cstr_of_take hheld, (cut_eq_self (by omega)).mpr (by omega)]
  unfold told verdict
  dsimp only
  by_cases hlate : status = -1
  · rw [if_pos hlate, if_pos hlate]
    exact fail_says rfl (i := 0) rfl (show ([] : Str).length < errSz by rw [List.length_nil]; omega) herr hsize hbehind (by decide)
  rw [if_neg hlate, if_neg hlate]
  by_cases hsig : wIfSignaled status = true
  · rw [if_pos hsig, if_pos hsig]
    exact fail_says hfront rfl hin herr hsize hbehind (counted_crashed _ _)
  rw [if_neg hsig, if_neg hsig]
  by_cases hexit : wIfExited status = false ∨ wExitStatus status ≠ 0
  · rw [if_pos hexit, if_pos hexit]
    by_cases hnil : unlined output = []
    · rw [if_pos (List.length_eq_zero_iff.mpr hnil), if_pos hnil]
      exact fail_says rfl (i := 0) rfl (show ([] : Str).length < errSz by rw [List.length_nil]; omega) herr hsize hbehind (by decide)
    · rw [if_neg (mt List.length_eq_zero_iff.mp hnil), if_neg hnil]
      exact ⟨_, rfl, rfl, hsize, hbehind, hkeep⟩
  · rw [if_neg hexit, if_neg hexit]
    exact ⟨_, rfl, rfl, hsize, hbehind, hkeep⟩

/-- Whatever the reads and the child's end. -/
theorem compile_checked (V : Unsaid) (err : Object) (hpos : 0 < errSz) (herr : errSz ≤ err.bytes.length) (start : Start) (c : Life) :
    ∃ r, compileCheck V err.bytes errSz start c = some r ∧ ∀ r', r = some r' →
      ∃ n status, (start = .forked → Ends c checkTimeout n status) ∧
        Says err errSz (outcome errSz start (c.stream.take n) status) r' := by
  -- no child
  have hnone : ∀ {text : Str}, counted text = true → (∀ output status, outcome errSz start output status = (-1, text)) →
      start ≠ .forked → ∃ r, (fail V errSz err.bytes 0 text).map some = some r ∧ ∀ r', r = some r' →
        ∃ n status, (start = .forked → Ends c checkTimeout n status) ∧
          Says err errSz (outcome errSz start (c.stream.take n) status) r' := by
    intro text htext hout hstart
    have hfail : ∃ r, fail V errSz err.bytes 0 text = some r ∧ Says err errSz (-1, [] ++ text) r :=
      fail_says rfl rfl (by rw [List.length_nil]; omega) herr rfl rfl htext
    obtain ⟨r, hfail, hsays⟩ := hfail
    rw [hfail]
    refine ⟨_, rfl, fun r' hr' => ⟨0, 0, fun heq => absurd heq hstart, ?_⟩⟩
    cases hr'
    rw [hout]
    exact hsays
  cases start with
  | noPipe => exact hnone (by decide) (fun _ _ => rfl) (by decide)
  | noFork => exact hnone (by decide) (fun _ _ => rfl) (by decide)
  | forked =>
    obtain ⟨r, hr, hgather⟩ := childCollect_ok c checkTimeout err.bytes (show errSz - 1 < err.bytes.length by omega)
    unfold compileCheck
    dsimp only
    rw [hr, Option.bind_some]
    cases r with
    | none => exact ⟨_, rfl, fun r' hr' => by cases hr'⟩
    | some child =>
      obtain ⟨n, h⟩ := hgather child rfl
      have hcome := h.come
      have hlen := h.len
      have htake : (c.stream.take child.o.len).length = child.o.len := by
        rw [List.length_take]
        omega
      have hkept : (c.stream.take n).take (errSz - 1) = c.stream.take child.o.len := by
        rw [List.take_take, h.len, Nat.min_comm]
      have hshort := length_unlined (c.stream.take child.o.len)
      have hends : child.o.mem.take ((c.stream.take child.o.len).length + 1) = c.stream.take child.o.len ++ [0] := by
        rw [htake]
        exact h.text
      obtain ⟨mem, htrim, hsize, hbehind, hheld⟩ := trimEnd_ok (c.stream.take child.o.len) hends
      rw [htake] at htrim hbehind
      obtain ⟨r, htold, hsays⟩ := told_says (V := V) child.status hheld (show _ < errSz by omega) herr (hsize.trans h.size)
        ((hbehind errSz (by omega)).trans (h.behind errSz (by omega)))
      unfold collected
      dsimp only
      rw [htrim, Option.bind_some, htold]
      refine ⟨_, rfl, fun r' hr' => ⟨n, child.status, fun _ => h.toEnds, ?_⟩⟩
      cases hr'
      unfold outcome
      dsimp only
      rw [hkept]
      exact hsays

/-! ## A build that comes to its end -/

/-- What the child prints, and its exit status. -/
def said (T : Tcc) (code : Str) : List Str × Nat :=
  match build T code with
  | .ok _ => ((T code).1, 0)
  | .error msgs => (msgs, 1)

/-- The child builds the source, prints and exits; no call of the parent fails. -/
structure Finishes (T : Tcc) (code : Str) (c : Life) : Prop where
  stream : c.stream = diag (said T code).1
  smooth : ∀ r ∈ c.rounds, Smooth r
  waited : ∀ w ∈ c.waited, w ≠ .failed ∧ ∀ status, w = .ended status → status = 256 * (said T code).2

/-- The answer and the text are those of the build. -/
def AsBuilt (T : Tcc) (code : Str) (r : Int × Str) : Prop :=
  (r.1 = 0 ∧ ∃ built, build T code = .ok built) ∨
    (r.1 = -1 ∧ ∃ msgs, build T code = .error msgs ∧ cstr r.2 = cstr (diagnostics msgs))

theorem reapLoop_exit {deadline : Int} (ws : List Waited) {k : Nat} {status : Int}
    (hws : ∀ w ∈ ws, w ≠ .failed ∧ ∀ s, w = .ended s → s = k) (h : reapLoop deadline ws = some status) :
    status = -1 ∨ status = k := by
  induction ws with
  | nil => cases h
  | cons w ws ih =>
    obtain ⟨hw, hrest⟩ := List.forall_mem_cons.mp hws
    have hnext : ∀ {now : Int}, (if deadline ≤ now then some (-1) else reapLoop deadline ws) = some status →
        status = -1 ∨ status = k := by
      intro now hnow
      split at hnow
      · exact .inl (Option.some.inj hnow).symm
      · exact ih hrest hnow
    cases w with
    | alive now => exact hnext h
    | eintr now => exact hnext h
    | failed => exact absurd rfl hw.1
    | ended s =>
      cases h
      exact .inr (congrArg Nat.cast (hw.2 s rfl))

theorem verdict_exit {output : Str} (k : Nat) (hk : k < 2) : verdict output ((256 * k : Nat) : Int) =
    if k = 0 then (0, unlined output) else (-1, if unlined output = [] then lit "compilation failed" else unlined output) := by
  have hlate : ((256 * k : Nat) : Int) ≠ -1 := by omega
  have hsig : wIfSignaled ((256 * k : Nat) : Int) = false := by
    unfold wIfSignaled
    have : ((256 * k : Nat) : Int) % 128 = 0 := by omega
    rw [this]
    rfl
  have hexited : wIfExited ((256 * k : Nat) : Int) = true := decide_eq_true (by omega)
  have hcode : wExitStatus ((256 * k : Nat) : Int) = k := by
    unfold wExitStatus
    omega
  unfold verdict
  rw [if_neg hlate, hsig, if_neg Bool.false_ne_true, hexited, hcode]
  by_cases h0 : k = 0
  · rw [if_neg (by simpa using h0), if_pos h0]
  · rw [if_pos (.inr h0), if_neg h0]

/-- A child that gets to its end leaves what its build says, or is late. -/
theorem Says.asBuilt {T : Tcc} {code : Str} {c : Life} {n : Nat} {status : Int} {r : Int × Str} (hc : Finishes T code c)
    (hends : Ends c checkTimeout n status)
    (h : Says err Agent.bufLg (verdict ((c.stream.take n).take (Agent.bufLg - 1)) status) r) :
    AsBuilt T code r ∨ r.1 = -1 ∧ cstr r.2 = lit "compiler timed out" ∧ Late c (c.started + checkTimeout * 1000) := by
  have hanswer := h.answer
  have htext := h.text
  rcases hends.ended with ⟨hlate, hlate'⟩ | ⟨hpos, hreap⟩
  · subst hlate
    exact .inr ⟨hanswer, htext.trans (show cstr (cut Agent.bufLg (lit "compiler timed out")) = _ by decide), hlate'⟩
  have hstatus : status = ((256 * (said T code).2 : Nat) : Int) :=
    (reapLoop_exit c.waited hc.waited hreap).resolve_left (by omega)
  have hwhole : c.stream.take n = diag (said T code).1 := by
    rw [hends.whole hc.smooth (by omega), List.take_length, hc.stream]
  rw [hwhole, hstatus] at hanswer htext
  refine .inl ?_
  cases hbuild : build T code with
  | ok built =>
    have hsaid : (said T code).2 = 0 := by
      unfold said
      rw [hbuild]
    rw [hsaid, verdict_exit 0 (by decide)] at hanswer
    exact .inl ⟨hanswer, built, hbuild⟩
  | error msgs =>
    have hsaid : said T code = (msgs, 1) := by
      unfold said
      rw [hbuild]
    rw [hsaid, verdict_exit 1 (by decide), if_neg Nat.one_ne_zero] at hanswer htext
    refine .inr ⟨hanswer, msgs, hbuild, htext.trans ?_⟩
    have hdiag : (if unlined ((diag msgs).take (Agent.bufLg - 1)) = [] then lit "compilation failed"
        else unlined ((diag msgs).take (Agent.bufLg - 1))) = diagnostics msgs := rfl
    have hfit : (unlined ((diag msgs).take (Agent.bufLg - 1))).length < Agent.bufLg := by
      have hshort := length_unlined ((diag msgs).take (Agent.bufLg - 1))
      rw [List.length_take] at hshort
      have hbuf : Agent.bufLg = 4096 := rfl
      omega
    rw [← hdiag]
    split
    · decide
    · exact congrArg cstr ((cut_eq_self (by decide)).mpr hfit)

/-- Whatever the reads and the child's end, `err` says what became of it; and for a child
    that gets to its end the check says what the build says, or that time ran out. -/
theorem compile_says (V : Unsaid) (T : Tcc) (code : Str) (err : Object) (herr : Agent.bufLg ≤ err.bytes.length) (start : Start)
    (c : Life) : ∃ r, compileCheck V err.bytes Agent.bufLg start c = some r ∧ ∀ r', r = some r' →
      (∃ n status, (start = .forked → Ends c checkTimeout n status) ∧
        Says err Agent.bufLg (outcome Agent.bufLg start (c.stream.take n) status) r') ∧
      (start = .forked → Finishes T code c → AsBuilt T code r' ∨
        r'.1 = -1 ∧ cstr r'.2 = lit "compiler timed out" ∧ Late c (c.started + checkTimeout * 1000)) := by
  obtain ⟨r, hrun, hall⟩ := compile_checked V err (show 0 < Agent.bufLg by decide) herr start c
  refine ⟨r, hrun, fun r' hr' => ⟨hall r' hr', fun hstart hc => ?_⟩⟩
  subst hstart
  obtain ⟨n, status, hends, hsays⟩ := hall r' hr'
  exact Says.asBuilt hc (hends rfl) hsays

/-- A compiler that rejects every source with two messages. -/
def twoErrors : Tcc := fun _ => ([lit "x.c:1: error: ';' expected", lit "x.c:2: error: unknown"], none)

def rejected : Life where
  stream := diag (said twoErrors []).1
  small := by decide
  started := 0
  rounds := [⟨0, .ready, .bytes 40⟩, ⟨1, .idle, .eintr⟩, ⟨2, .ready, .bytes 4096⟩, ⟨3, .ready, .bytes 4096⟩]
  waited := [.ended 256]

def errBuffer : Object := ⟨List.replicate 4096 0, by rw [List.length_replicate]; decide⟩

theorem rejected_finishes : Finishes twoErrors [] rejected := by
  refine ⟨rfl, fun r hr => ?_, fun w hw => ?_⟩
  · simp only [rejected, List.mem_cons, List.not_mem_nil, or_false] at hr
    rcases hr with rfl | rfl | rfl | rfl <;> exact ⟨by decide, by decide, by decide⟩
  · rw [List.mem_singleton.mp hw]
    exact ⟨by decide, fun status hstatus => by cases hstatus; rfl⟩

theorem compile_says_rejected : ∃ r, compileCheck untouched errBuffer.bytes Agent.bufLg .forked rejected = some r ∧
    ∀ r', r = some r' → AsBuilt twoErrors [] r' ∨
      r'.1 = -1 ∧ cstr r'.2 = lit "compiler timed out" ∧ Late rejected (rejected.started + checkTimeout * 1000) := by
  have herr : Agent.bufLg ≤ errBuffer.bytes.length := by
    rw [show errBuffer.bytes.length = 4096 from List.length_replicate]
    decide
  obtain ⟨r, hrun, hall⟩ := compile_says untouched twoErrors [] errBuffer herr .forked rejected
  exact ⟨r, hrun, fun r' hr' => (hall r' hr').2 rfl rejected_finishes⟩

end Shclaw.Plugin.CompileCheck
