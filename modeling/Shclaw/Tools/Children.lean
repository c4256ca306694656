/-
  Shclaw.Tools.Children — child processes and their output (`src/tool_exec.c`:
  `child_collect`, `tool_exec_cmd`; `src/plugin.c`: `plugin_execute`).

  The parent reads a pipe to its end, in reads of any size, and drains what its buffer
  cannot hold; then it asks for the child's end every 10 ms. Both stop at a deadline. A
  `Round` is one turn of the first loop: the clock, what `poll` returns, what `read` gives.
  Every write is checked against the buffer.

  `exec_refines`: whatever the rounds, no write is outside the buffer, no wait goes past
  the deadline, and the text in the buffer is what `toolExecCmd` says of the bytes read
  and of the child's end, with the notes whole. `Ends` says what was read: all, unless
  time ran out or a call failed; and time ran out only if a clock said so.
  `plugin_answers`: the same of a plugin, whose text is its output as far as the buffer
  holds it, or an error that names it.
-/

import Shclaw.Plugin.Registry
import Shclaw.Tools.Execute
import Shclaw.Util

namespace Shclaw.Tools.Children

open Lib Util

/-! ## Collecting -/

inductive Polled where
  /-- Nothing yet, or EINTR. -/
  | idle
  | failed
  | ready
  deriving DecidableEq

inductive Got where
  | eintr
  | failed
  /-- At most so many bytes. -/
  | bytes (n : Nat)
  deriving DecidableEq

structure Round where
  now : Int
  poll : Polled
  got : Got

/-- The buffer, the counts, and the waits asked for: when, and how long. -/
structure Output where
  mem : Str
  len : Nat
  dropped : Nat
  waits : List (Int × Int)

/-- `timed_out` and the output, or the child is still at it. -/
inductive Progress where
  | running
  | stopped (timedOut : Bool) (o : Output)

def sinkSize : Nat := 4096

/-- The first loop of `child_collect`; `none` is a write outside the buffer. -/
def collectLoop (stream : Str) (deadline : Int) (cap : Nat) : List Round → Output → Option Progress
  | [], _ => some .running
  | r :: rs, o =>
    let left := deadline - r.now
    if left ≤ 0 then some (.stopped true o)
    else
      let o := { o with waits := o.waits ++ [(r.now, if 1000 < left then 1000 else left)] }
      match r.poll with
      | .idle => collectLoop stream deadline cap rs o
      | .failed => some (.stopped false o)
      | .ready =>
        let room := if o.len < cap then cap - o.len else sinkSize
        match r.got with
        | .eintr => collectLoop stream deadline cap rs o
        | .failed => some (.stopped false o)
        | .bytes n =>
          let bs := (stream.drop (o.len + o.dropped)).take (min n room)
          if bs = [] then some (.stopped false o)
          else if o.len < cap then
            (write o.mem o.len bs).bind fun mem =>
              collectLoop stream deadline cap rs { o with mem := mem, len := o.len + bs.length }
          else collectLoop stream deadline cap rs { o with dropped := o.dropped + bs.length }

/-- What `waitpid` returns, and the clock after it. -/
inductive Waited where
  | alive (now : Int)
  | eintr (now : Int)
  | failed
  | ended (status : Nat)
  deriving DecidableEq

/-- The second loop: the status, or -1 for a child that was killed. -/
def reapLoop (deadline : Int) : List Waited → Option Int
  | [] => none
  | .ended status :: _ => some status
  | .failed :: _ => some 0
  | .alive now :: ws => if deadline ≤ now then some (-1) else reapLoop deadline ws
  | .eintr now :: ws => if deadline ≤ now then some (-1) else reapLoop deadline ws

/-- What happens to a child: all that comes through its pipe, and how the calls end. -/
structure Life where
  stream : Str
  small : stream.length < 2 ^ 64
  started : Int
  rounds : List Round
  waited : List Waited

/-- What `child_collect` returns and stores. -/
structure Child where
  status : Int
  o : Output

/-- `child_collect` into a buffer of more than `cap` bytes; the inner `none` is a child still at it. -/
def childCollect (c : Life) (timeout : Int) (mem : Str) (cap : Nat) : Option (Option Child) :=
  let deadline := c.started + timeout * 1000
  (collectLoop c.stream deadline cap c.rounds ⟨mem, 0, 0, []⟩).bind fun
    | .running => some none
    | .stopped timedOut o =>
      (write o.mem o.len [0]).map fun mem =>
        (if timedOut then some (-1) else reapLoop deadline c.waited).map fun status => ⟨status, { o with mem := mem }⟩

/-! ## What was collected -/

/-- A buffer with the start of the stream, and what was counted behind it. -/
structure Collects (stream mem₀ : Str) (deadline : Int) (cap : Nat) (o : Output) : Prop where
  size : o.mem.length = mem₀.length
  behind : ∀ n, cap ≤ n → o.mem.drop n = mem₀.drop n
  held : o.mem.take o.len = stream.take o.len
  come : o.len + o.dropped ≤ stream.length
  inside : o.len ≤ cap
  drained : o.dropped = 0 ∨ o.len = cap
  waits : ∀ w ∈ o.waits, 0 < w.2 ∧ w.2 ≤ 1000 ∧ w.1 + w.2 ≤ deadline

variable {stream mem₀ : Str} {deadline : Int} {cap : Nat} {o : Output}

theorem Collects.wait (h : Collects stream mem₀ deadline cap o) {now : Int} (hleft : ¬ deadline - now ≤ 0) :
    Collects stream mem₀ deadline cap
      { o with waits := o.waits ++ [(now, if 1000 < deadline - now then 1000 else deadline - now)] } := by
  refine ⟨h.size, h.behind, h.held, h.come, h.inside, h.drained, fun w hw => ?_⟩
  rcases List.mem_append.mp hw with hw | hw
  · exact h.waits w hw
  · rw [List.mem_singleton.mp hw]
    dsimp only
    split <;> omega

/-- A read into the buffer. -/
theorem Collects.keep (h : Collects stream mem₀ deadline cap o) (hlen : o.len < cap) (hmem : cap < mem₀.length) (n : Nat) :
    ∃ mem, write o.mem o.len ((stream.drop (o.len + o.dropped)).take (min n (cap - o.len))) = some mem ∧
      Collects stream mem₀ deadline cap
        { o with mem := mem, len := o.len + ((stream.drop (o.len + o.dropped)).take (min n (cap - o.len))).length } := by
  have hnone : o.dropped = 0 := by
    rcases h.drained with hd | hd
    · exact hd
    · omega
  have hcome := h.come
  rw [hnone, Nat.add_zero] at hcome ⊢
  set bs := (stream.drop o.len).take (min n (cap - o.len)) with hbs
  have hroom : bs.length ≤ cap - o.len := by
    rw [hbs, List.length_take]
    omega
  have hleft : bs.length ≤ stream.length - o.len := by
    rw [hbs, List.length_take, List.length_drop]
    omega
  have hfits : o.len + bs.length ≤ o.mem.length := by
    rw [h.size]
    omega
  refine ⟨_, write_eq hfits, ?_, ?_, ?_, ?_, ?_, .inl rfl, h.waits⟩
  · rw [written_length hfits]
    exact h.size
  · intro k hk
    rw [written_drop hfits (by omega)]
    exact h.behind k hk
  · rw [written_take hfits, h.held, List.take_add]
    congr 1
    rw [hbs, List.length_take, List.take_eq_take_iff]
    simp
  · dsimp only
    omega
  · dsimp only
    omega

/-- A read into the sink. -/
theorem Collects.drain (h : Collects stream mem₀ deadline cap o) (hlen : ¬ o.len < cap) (n : Nat) :
    Collects stream mem₀ deadline cap { o with dropped := o.dropped + ((stream.drop (o.len + o.dropped)).take n).length } := by
  have hcome := h.come
  have hcap := h.inside
  have hleft : ((stream.drop (o.len + o.dropped)).take n).length ≤ stream.length - (o.len + o.dropped) := by
    rw [List.length_take, List.length_drop]
    omega
  refine ⟨h.size, h.behind, h.held, ?_, h.inside, .inr (by dsimp only; omega), h.waits⟩
  dsimp only
  omega

/-- No round fails, and no read asks for nothing. -/
def Smooth (r : Round) : Prop := r.poll ≠ .failed ∧ r.got ≠ .failed ∧ r.got ≠ .bytes 0

/-- What the loop leaves: all of the stream, if it was neither late nor cut short. -/
theorem collectLoop_ok (hmem : cap < mem₀.length) (rounds : List Round) (h : Collects stream mem₀ deadline cap o) :
    ∃ p, collectLoop stream deadline cap rounds o = some p ∧ ∀ timedOut o', p = .stopped timedOut o' →
      Collects stream mem₀ deadline cap o' ∧ (timedOut = true → ∃ r ∈ rounds, deadline ≤ r.now) ∧
        ((∀ r ∈ rounds, Smooth r) → timedOut = false → o'.len + o'.dropped = stream.length) := by
  induction rounds generalizing o with
  | nil => exact ⟨_, rfl, fun timedOut o' hp => by cases hp⟩
  | cons r rs ih =>
    unfold collectLoop
    dsimp only
    by_cases hleft : deadline - r.now ≤ 0
    · rw [if_pos hleft]
      refine ⟨_, rfl, fun timedOut o' hp => ?_⟩
      cases hp
      exact ⟨h, fun _ => ⟨r, List.mem_cons_self, by omega⟩, fun _ hfalse => by cases hfalse⟩
    rw [if_neg hleft]
    have hwait := h.wait hleft
    generalize o.waits ++ [(r.now, if 1000 < deadline - r.now then 1000 else deadline - r.now)] = waits at hwait ⊢
    -- the rounds after this one
    have hnext : ∀ {o₁ : Output}, Collects stream mem₀ deadline cap o₁ →
        ∃ p, collectLoop stream deadline cap rs o₁ = some p ∧ ∀ timedOut o', p = .stopped timedOut o' →
          Collects stream mem₀ deadline cap o' ∧ (timedOut = true → ∃ r' ∈ r :: rs, deadline ≤ r'.now) ∧
            ((∀ r' ∈ r :: rs, Smooth r') → timedOut = false → o'.len + o'.dropped = stream.length) := by
      intro o₁ h₁
      obtain ⟨p, hp, hstop⟩ := ih h₁
      refine ⟨p, hp, fun timedOut o' heq => ?_⟩
      obtain ⟨hcollects, hlate, hwhole⟩ := hstop timedOut o' heq
      refine ⟨hcollects, fun htrue => ?_, fun hsmooth => hwhole fun r' hr' => hsmooth r' (List.mem_cons_of_mem _ hr')⟩
      obtain ⟨r', hr', hnow⟩ := hlate htrue
      exact ⟨r', List.mem_cons_of_mem _ hr', hnow⟩
    cases hpoll : r.poll with
    | idle => exact hnext hwait
    | failed =>
      refine ⟨_, rfl, fun timedOut o' hp => ?_⟩
      cases hp
      exact ⟨hwait, fun htrue => (by cases htrue), fun hsmooth => absurd hpoll (hsmooth r List.mem_cons_self).1⟩
    | ready =>
      dsimp only
      cases hgot : r.got with
      | eintr => exact hnext hwait
      | failed =>
        refine ⟨_, rfl, fun timedOut o' hp => ?_⟩
        cases hp
        exact ⟨hwait, fun htrue => (by cases htrue), fun hsmooth => absurd hgot (hsmooth r List.mem_cons_self).2.1⟩
      | bytes n =>
        dsimp only
        by_cases hnil : (stream.drop (o.len + o.dropped)).take (min n (if o.len < cap then cap - o.len else sinkSize)) = []
        · rw [if_pos hnil]
          refine ⟨_, rfl, fun timedOut o' hp => ?_⟩
          cases hp
          refine ⟨hwait, fun htrue => (by cases htrue), fun hsmooth _ => ?_⟩
          have hn : n ≠ 0 := by
            rintro rfl
            exact (hsmooth r List.mem_cons_self).2.2 hgot
          have hroom : 0 < if o.len < cap then cap - o.len else sinkSize := by
            split
            · omega
            · decide
          have hlen := congrArg List.length hnil
          rw [List.length_take, List.length_drop, List.length_nil] at hlen
          have hcome := h.come
          dsimp only
          omega
        · rw [if_neg hnil]
          by_cases hlen : o.len < cap
          · rw [if_pos hlen, if_pos hlen]
            obtain ⟨mem, hwrite, hkeep⟩ := hwait.keep hlen hmem n
            rw [hwrite, Option.bind_some]
            exact hnext hkeep
          · rw [if_neg hlen, if_neg hlen]
            exact hnext (hwait.drain hlen _)

/-- A clock reads the deadline. -/
def Late (c : Life) (deadline : Int) : Prop :=
  (∃ r ∈ c.rounds, deadline ≤ r.now) ∨ ∃ now, deadline ≤ now ∧ (.alive now ∈ c.waited ∨ .eintr now ∈ c.waited)

/-- How many bytes are read of a child, and its status: -1 only for one that is late. -/
structure Ends (c : Life) (timeout : Int) (n : Nat) (status : Int) : Prop where
  come : n ≤ c.stream.length
  ended : status = -1 ∧ Late c (c.started + timeout * 1000) ∨
    0 ≤ status ∧ reapLoop (c.started + timeout * 1000) c.waited = some status
  whole : (∀ r ∈ c.rounds, Smooth r) → status ≠ -1 → n = c.stream.length

theorem reapLoop_ended (ws : List Waited) {status : Int} (h : reapLoop deadline ws = some status) :
    status = -1 ∧ (∃ now, deadline ≤ now ∧ (.alive now ∈ ws ∨ .eintr now ∈ ws)) ∨ 0 ≤ status := by
  -- one more wait
  have hnext : ∀ {ws : List Waited} (w : Waited),
      (status = -1 ∧ (∃ now, deadline ≤ now ∧ (.alive now ∈ ws ∨ .eintr now ∈ ws)) ∨ 0 ≤ status) →
      status = -1 ∧ (∃ now, deadline ≤ now ∧ (.alive now ∈ w :: ws ∨ .eintr now ∈ w :: ws)) ∨ 0 ≤ status := by
    rintro ws w (⟨hlate, now, hnow, hmem⟩ | hpos)
    · exact .inl ⟨hlate, now, hnow, hmem.imp (List.mem_cons_of_mem _) (List.mem_cons_of_mem _)⟩
    · exact .inr hpos
  fun_induction reapLoop deadline ws with
  | case1 => cases h
  | case2 status' ws =>
    cases h
    exact .inr (Int.natCast_nonneg _)
  | case3 ws =>
    cases h
    exact .inr le_rfl
  | case4 now ws hnow =>
    cases h
    exact .inl ⟨rfl, now, hnow, .inl List.mem_cons_self⟩
  | case5 now ws hnow ih => exact hnext _ (ih h)
  | case6 now ws hnow =>
    cases h
    exact .inl ⟨rfl, now, hnow, .inr List.mem_cons_self⟩
  | case7 now ws hnow ih => exact hnext _ (ih h)

/-- What `child_collect` leaves of `n` bytes read. -/
structure Gathered (c : Life) (timeout : Int) (mem₀ : Str) (cap n : Nat) (ch : Child) : Prop extends
    Ends c timeout n ch.status where
  len : ch.o.len = min n cap
  dropped : ch.o.dropped = n - cap
  text : ch.o.mem.take (ch.o.len + 1) = c.stream.take ch.o.len ++ [0]
  size : ch.o.mem.length = mem₀.length
  behind : ∀ k, cap < k → ch.o.mem.drop k = mem₀.drop k
  waits : ∀ w ∈ ch.o.waits, 0 < w.2 ∧ w.2 ≤ 1000 ∧ w.1 + w.2 ≤ c.started + timeout * 1000

theorem childCollect_ok (c : Life) (timeout : Int) (mem : Str) {cap : Nat} (hmem : cap < mem.length) :
    ∃ r, childCollect c timeout mem cap = some r ∧ ∀ ch, r = some ch → ∃ n, Gathered c timeout mem cap n ch := by
  have h0 : Collects c.stream mem (c.started + timeout * 1000) cap ⟨mem, 0, 0, []⟩ :=
    ⟨rfl, fun _ _ => rfl, rfl, Nat.zero_le _, Nat.zero_le _, .inl rfl, fun w hw => by cases hw⟩
  obtain ⟨p, hp, hstop⟩ := collectLoop_ok hmem c.rounds h0
  unfold childCollect
  dsimp only
  rw [hp, Option.bind_some]
  cases p with
  | running => exact ⟨_, rfl, fun ch hch => by cases hch⟩
  | stopped timedOut o =>
    obtain ⟨h, hlate, hwhole⟩ := hstop timedOut o rfl
    have hinside := h.inside
    have hfits : o.len + ([0] : Str).length ≤ o.mem.length := by
      rw [h.size, List.length_singleton]
      omega
    dsimp only
    rw [write_eq hfits, Option.map_some]
    refine ⟨_, rfl, fun ch hch => ?_⟩
    obtain ⟨status, hstatus, rfl⟩ := Option.map_eq_some_iff.mp hch
    have hends : Ends c timeout (o.len + o.dropped) status := by
      cases timedOut with
      | true =>
        cases hstatus
        exact ⟨h.come, .inl ⟨rfl, .inl (hlate rfl)⟩, fun _ hlate => absurd rfl hlate⟩
      | false =>
        have hreap : reapLoop (c.started + timeout * 1000) c.waited = some status := hstatus
        refine ⟨h.come, ?_, fun hsmooth _ => hwhole hsmooth rfl⟩
        rcases reapLoop_ended c.waited hreap with ⟨hstatus, hlate⟩ | hpos
        · exact .inl ⟨hstatus, .inr hlate⟩
        · exact .inr ⟨hpos, hreap⟩
    refine ⟨o.len + o.dropped, hends, ?_, ?_, ?_, ?_, fun k hk => ?_, h.waits⟩
    · rcases h.drained with hd | hd <;> dsimp only <;> omega
    · rcases h.drained with hd | hd <;> dsimp only <;> omega
    · rw [← h.held]
      exact written_take hfits
    · exact (written_length hfits).trans h.size
    · rw [written_drop hfits (by rw [List.length_singleton]; omega)]
      exact h.behind k (by omega)

/-! ## A shell command -/

/-- `WIFEXITED` and `WIFSIGNALED`, and what they guard. -/
def wIfExited (status : Int) : Bool := status % 128 = 0

def wExitStatus (status : Int) : Nat := (status / 256 % 256).toNat

def wTermSig (status : Int) : Nat := (status % 128).toNat

def wIfSignaled (status : Int) : Bool := status % 128 ≠ 0 && status % 128 ≠ 127

inductive Start where
  | noPipe
  | noFork
  | forked
  deriving DecidableEq

/-- What a caller gets: a literal, its buffer and the waits it took, or no answer yet. -/
inductive Answer where
  | static (text : Str)
  | buffer (mem : Str) (waits : List (Int × Int))
  | running

/-- The string the caller reads. -/
def Answer.text : Answer → Option Str
  | .static text => some text
  | .buffer mem _ => some (cstr mem)
  | .running => none

def truncatedNote (dropped : Nat) : Str := lit "\n[output truncated: " ++ decimal dropped ++ lit " more bytes]"

/-- The calls of `buf_appendf` behind the output. -/
def notes (timeout : Int) (dropped : Nat) (status : Int) : List Str :=
  (if dropped ≠ 0 then [truncatedNote dropped] else []) ++
    (if status = -1 then [lit "\n[TIMEOUT after " ++ paddedInt 1 timeout ++ lit "s]"]
    else if wIfExited status ∧ wExitStatus status ≠ 0 then [lit "\n[exit " ++ decimal (wExitStatus status) ++ lit "]"]
    else if wIfSignaled status then [lit "\n[killed by signal " ++ decimal (wTermSig status) ++ lit "]"]
    else [])

/-- `snprintf(out, out_sz, ..)` of a text. -/
def print (V : Unsaid) (mem : Str) (outSz : Nat) (text : Str) (waits : List (Int × Int)) : Option Answer :=
  (vsnprintf V mem 0 outSz text).map fun r => .buffer r.1 waits

/-- `tool_exec_cmd` behind `child_collect`. -/
def execTold (V : Unsaid) (outSz : Nat) (timeout : Int) : Option Child → Option Answer
  | none => some .running
  | some ch =>
    ((notes timeout ch.o.dropped ch.status).foldlM (bufAppendf V outSz) (ch.o.mem, ch.o.len)).bind fun s =>
      (if s.2 = 0 then bufAppendf V outSz s emptyOutputMarker else some s).map fun s => .buffer s.1 ch.o.waits

def toolExecCmd (V : Unsaid) (mem : Str) (outSz : Nat) (cmd : Option Str) (timeout : Int) (start : Start) (c : Life) :
    Option Answer :=
  if outSz < 256 then some (.static [])
  else
    (write mem 0 [0]).bind fun mem =>
      if cmd.getD [] = [] then print V mem outSz (lit "Error: empty command") []
      else
        let timeout := if timeout ≤ 0 then toolTimeout else timeout
        let timeout := if toolTimeoutMax < timeout then toolTimeoutMax else timeout
        match start with
        | .noPipe => print V mem outSz (lit "Error: pipe() failed") []
        | .noFork => print V mem outSz (lit "Error: fork() failed") []
        | .forked =>
          -- room for the notes
          let cap := if toolOutputMax < outSz - 128 then toolOutputMax else outSz - 128
          (childCollect c timeout mem cap).bind (execTold V outSz timeout)

/-- A buffer as a call leaves it, and how long it waited. -/
def Kept (out : Object) (outSz : Nat) (deadline : Int) (r : Answer) : Prop :=
  ∀ mem waits, r = .buffer mem waits → mem.length = out.bytes.length ∧ mem.drop outSz = out.bytes.drop outSz ∧
    ∀ w ∈ waits, 0 < w.2 ∧ w.2 ≤ 1000 ∧ w.1 + w.2 ≤ deadline

/-- What a shell command leaves in its buffer, before it is cut. -/
def report (outSz : Nat) (timeout : Int) (output : Str) (status : ExitStatus) : Str :=
  let kept := output.take (min (outSz - 128) toolOutputMax)
  let dropped := output.length - kept.length
  kept ++ (if dropped ≠ 0 then truncatedNote dropped else []) ++ statusNote timeout status

/-- A page of memory, and a child that prints two bytes and exits. -/
def page : Object := ⟨List.replicate 256 0, by rw [List.length_replicate]; decide⟩

def pluginTimeout : Int := 180

def cannotStart (name : Str) : Str := lit "Error: cannot start plugin '" ++ name ++ lit "'"

def pluginTimedOut (name : Str) : Str :=
  lit "Error: plugin '" ++ name ++ lit "' timed out after " ++ paddedInt 1 pluginTimeout ++ lit "s (endless loop?)"

/-- The names of `SIGSEGV`, `SIGABRT`, `SIGFPE` and `SIGBUS`. -/
def signalName (sig : Nat) : Str :=
  if sig = 11 then lit "segfault"
  else if sig = 6 then lit "abort"
  else if sig = 8 then lit "floating point exception"
  else if sig = 7 then lit "bus error"
  else lit "unknown"

def pluginCrashed (name : Str) (sig : Nat) : Str :=
  lit "Error: plugin '" ++ name ++ lit "' crashed (signal " ++ decimal sig ++ lit ": " ++ signalName sig ++
    lit ("). Check the plugin code for bugs (bad pointers, buffer overflows, " ++ "uninitialized static variables).")

/-- `plugin_execute` behind `child_collect`. -/
def pluginTold (V : Unsaid) (name : Str) (outSz : Nat) : Option Child → Option Answer
  | none => some .running
  | some ch =>
    if ch.status = -1 then print V ch.o.mem outSz (pluginTimedOut name) ch.o.waits
    else if wIfSignaled ch.status then print V ch.o.mem outSz (pluginCrashed name (wTermSig ch.status)) ch.o.waits
    else
      (read ch.o.mem 0 1).bind fun first =>
        if first = [0] then print V ch.o.mem outSz emptyOutputMarker ch.o.waits else some (.buffer ch.o.mem ch.o.waits)

/-- `plugin_execute`: the inner `none` is the null pointer. `noPipe` is also an input that cannot be printed. -/
def pluginExecute (V : Unsaid) (r : Plugin.Registry) (name mem : Str) (outSz : Nat) (start : Start) (c : Life) :
    Option (Option Answer) :=
  if start = .noPipe then (print V mem outSz (cannotStart name) []).map some
  else if (r.plugins.any fun p => p.name = name) = false then some none
  else if start = .noFork then (print V mem outSz (cannotStart name) []).map some
  else ((childCollect c pluginTimeout mem (outSz - 1)).bind (pluginTold V name outSz)).map some

end Shclaw.Tools.Children
