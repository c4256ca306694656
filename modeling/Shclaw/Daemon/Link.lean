/-
  Shclaw.Daemon.Link — the IRC link over time (`src/daemon.c`: `irc_lost`,
  `irc_maintain`, the loop of `daemon_run`; `src/irc.c`: `irc_connect`, `irc_poll`,
  `irc_keepalive` as far as they decide whether the link stands).

  One turn of the loop polls the link and then maintains it. What the turn finds is a
  `Turn`: the clock, the reads of `irc_poll`, how `irc_connect` ends. The clock is
  monotonic; a turn whose clocks go back is not a step.

  `tries` is ghost state: when `irc_connect` was called since a turn last found the link
  registered.

  `link_kept`, after every turn of every run: a link that stands was heard of in the
  last seven minutes, and in the last four unless it was asked once; a link that is down
  is tried again, within five minutes but not yet; and the tries are spaced by delays
  that double from 5 s to 300 s, whatever broke the links (`Spaced`). So a server that
  accepts and drops us is called at most seven times in the first 315 s and once in
  300 s from then on.
-/

import Mathlib.Data.List.Basic
import Mathlib.Tactic.Ring
import Shclaw.Lib.Runs

namespace Shclaw.Daemon.Link

open Lib

/-! ## The loop -/

/-- What of `irc_t` says whether the link works. -/
structure Irc where
  /-- There is a descriptor. -/
  up : Bool
  lastRx : Int
  pinged : Bool
  registered : Bool

structure St where
  irc : Irc
  /-- In seconds. -/
  backoff : Int
  retryAt : Int
  now : Int
  /-- The latest first. -/
  tries : List Int
  /-- The PINGs since the last bytes. -/
  pings : Nat

/-- What `irc_poll` reads: when, and whether a welcome is in it; and how it ends. -/
structure Poll where
  reads : List (Int × Bool)
  broken : Bool

inductive Try where
  | refused
  | linked
  deriving DecidableEq

/-- `later` is the clock in `irc_keepalive`, in `irc_connect` or after it failed. -/
structure Turn where
  now : Int
  polled : Option Poll
  outcome : Try
  later : Int

def Turn.clocks (t : Turn) : List Int := t.now :: ((t.polled.elim [] fun p => p.reads.map Prod.fst) ++ [t.later])

/-- The next delay, `first` after none. -/
def slower (first backoff : Int) : Int :=
  let backoff := if backoff ≠ 0 then backoff * 2 else first
  if 300 < backoff then 300 else backoff

/-- `irc_lost`. -/
def ircLost (s : St) (now : Int) : St :=
  let backoff := slower 5 s.backoff
  { s with irc := { s.irc with up := false }, backoff := backoff, retryAt := now + backoff * 1000 }

def ircPoll (s : St) (p : Poll) : St :=
  { s with
    irc := p.reads.foldl (fun i r => { i with lastRx := r.1, pinged := false, registered := i.registered || r.2 }) s.irc
    pings := if p.reads = [] then s.pings else 0 }

/-- `irc_maintain`. -/
def ircMaintain (s : St) (now later : Int) (outcome : Try) : St :=
  if s.irc.up then
    let s := if s.irc.registered then { s with backoff := 0, tries := [] } else s
    -- `irc_keepalive`
    let idle := later - s.irc.lastRx
    if 420000 < idle then ircLost s now
    else if 240000 < idle ∧ s.irc.pinged = false then
      { s with irc := { s.irc with pinged := true }, pings := s.pings + 1 }
    else s
  else if now < s.retryAt then s
  else
    let s := { s with tries := now :: s.tries }
    match outcome with
    | .linked => { s with irc := ⟨true, later, false, false⟩, pings := 0 }
    | .refused =>
      let backoff := slower 30 s.backoff
      { s with backoff := backoff, retryAt := later + backoff * 1000 }

/-- The poll of a turn. -/
def polledLink (s : St) (t : Turn) : St :=
  match t.polled with
  | none => s
  | some p =>
    if s.irc.up then
      let s := ircPoll s p
      if p.broken then ircLost s t.now else s
    else s

def turn (s : St) (t : Turn) : Option St :=
  if (s.now :: t.clocks).Pairwise (· ≤ ·) then
    some { ircMaintain (polledLink s t) t.now t.later t.outcome with now := t.later }
  else none

def loop (start : Nat) : System St Turn where
  init := ⟨⟨false, 0, false, false⟩, 0, 0, start, [], 0⟩
  step := turn

/-! ## What is kept -/

/-- The shortest delay behind `n + 1` tries, in seconds. -/
def delay (n : Nat) : Int := min 300 (5 * 2 ^ n)

/-- Each try waits for the one before it. -/
def Spaced : List Int → Prop
  | [] => True
  | [_] => True
  | t :: u :: ts => u + 1000 * delay ts.length ≤ t ∧ Spaced (u :: ts)

/-- What `n + 1` tries take. -/
def waited : Nat → Int
  | 0 => 0
  | n + 1 => waited n + 1000 * delay n

/-- Between the turns. -/
structure Inv (s : St) (now : Int) : Prop where
  backoff : s.backoff = 0 ∨ 5 ≤ s.backoff ∧ s.backoff ≤ 300
  spaced : Spaced s.tries
  past : ∀ t ∈ s.tries.head?, t ≤ now
  due : s.retryAt ≤ now + 300000
  down : s.irc.up = false → ∀ u ts, s.tries = u :: ts → delay ts.length ≤ s.backoff ∧ u + 1000 * s.backoff ≤ s.retryAt
  standing : s.irc.up = true → ∀ u v ts, s.tries = u :: v :: ts → delay ts.length ≤ s.backoff
  asked : s.irc.up = true → s.pings = if s.irc.pinged then 1 else 0

/-- What a turn leaves. -/
structure Maintained (s : St) (now later : Int) : Prop where
  heard : s.irc.up = true → later - s.irc.lastRx ≤ 420000
  asked : s.irc.up = true → s.pings ≤ 1 ∧ (240000 < later - s.irc.lastRx → s.pings = 1)
  next : s.irc.up = false → now < s.retryAt ∧ s.retryAt ≤ later + 300000

theorem one_le_pow (n : Nat) : (1 : Int) ≤ 2 ^ n := by
  exact_mod_cast Nat.one_le_two_pow

theorem delay_pos (n : Nat) : 5 ≤ delay n := by
  have hpow := one_le_pow n
  unfold delay
  omega

theorem delay_le (n : Nat) : delay n ≤ 300 := min_le_left _ _

theorem slower_range (first : Int) {backoff : Int} (hfirst : 5 ≤ first) (hlast : first ≤ 300)
    (h : backoff = 0 ∨ 5 ≤ backoff ∧ backoff ≤ 300) : 5 ≤ slower first backoff ∧ slower first backoff ≤ 300 := by
  unfold slower
  dsimp only
  split <;> split <;> omega

/-- The delay after a try that failed. -/
theorem delay_slower {first backoff : Int} {n : Nat} (h : delay n ≤ backoff) : delay (n + 1) ≤ slower first backoff := by
  have hpos := delay_pos n
  have hdouble : delay (n + 1) ≤ delay n * 2 := by
    unfold delay
    rw [pow_succ]
    omega
  have hcap := delay_le (n + 1)
  have hne : backoff ≠ 0 := by omega
  unfold slower
  simp only [if_pos hne]
  split <;> omega

theorem Inv.later {s : St} {now later : Int} (h : Inv s now) (hle : now ≤ later) : Inv s later := by
  refine ⟨h.backoff, h.spaced, fun t ht => (h.past t ht).trans hle, ?_, h.down, h.standing, h.asked⟩
  have hdue := h.due
  omega

/-- The link breaks. -/
theorem ircLost_inv {s : St} {now : Int} (h : Inv s now) (hup : s.irc.up = true) : Inv (ircLost s now) now := by
  have hrange := slower_range 5 le_rfl (by decide) h.backoff
  refine ⟨.inr hrange, h.spaced, h.past, ?_, fun _ u ts htries => ⟨?_, ?_⟩, fun hstand => (by cases hstand),
    fun hstand => by cases hstand⟩
  · show now + slower 5 s.backoff * 1000 ≤ now + 300000
    omega
  · show delay ts.length ≤ slower 5 s.backoff
    cases ts with
    | nil => exact le_trans (by decide) hrange.1
    | cons v ts => exact delay_slower (h.standing hup u v ts htries)
  · have htries' : s.tries = u :: ts := htries
    have hu : u ≤ now := h.past u (by rw [htries']; rfl)
    show u + 1000 * slower 5 s.backoff ≤ now + slower 5 s.backoff * 1000
    omega

theorem reads_irc (reads : List (Int × Bool)) (i : Irc) :
    (reads.foldl (fun i r => { i with lastRx := r.1, pinged := false, registered := i.registered || r.2 }) i).up = i.up ∧
    (reads.foldl (fun i r => { i with lastRx := r.1, pinged := false, registered := i.registered || r.2 }) i).pinged =
      if reads = [] then i.pinged else false := by
  induction reads generalizing i with
  | nil => exact ⟨rfl, rfl⟩
  | cons r reads ih =>
    obtain ⟨hup, hpinged⟩ := ih { i with lastRx := r.1, pinged := false, registered := i.registered || r.2 }
    rw [List.foldl_cons]
    refine ⟨hup, hpinged.trans ?_⟩
    rw [if_neg (List.cons_ne_nil _ _)]
    exact ite_self _

theorem ircPoll_inv {s : St} {now : Int} (h : Inv s now) (p : Poll) : Inv (ircPoll s p) now ∧ (ircPoll s p).irc.up = s.irc.up := by
  obtain ⟨hup, hpinged⟩ := reads_irc p.reads s.irc
  refine ⟨⟨h.backoff, h.spaced, h.past, h.due, fun hdown => h.down (hup.symm.trans hdown),
    fun hstand => h.standing (hup.symm.trans hstand), fun hstand => ?_⟩, hup⟩
  have hasked := h.asked (hup.symm.trans hstand)
  show (if p.reads = [] then s.pings else 0) = _
  unfold ircPoll
  dsimp only
  rw [hpinged]
  split
  · exact hasked
  · rfl

theorem polledLink_inv {s : St} (t : Turn) (h : Inv s t.now) : Inv (polledLink s t) t.now := by
  unfold polledLink
  split
  · exact h
  · rename_i p hp
    by_cases hup : s.irc.up = true
    · obtain ⟨hinv, hsame⟩ := ircPoll_inv h p
      rw [if_pos hup]
      dsimp only
      split
      · exact ircLost_inv hinv (hsame.trans hup)
      · exact hinv
    · rw [if_neg hup]
      exact h

/-- A link that is found registered. -/
theorem working_inv {s : St} {now : Int} (h : Inv s now) (hup : s.irc.up = true) :
    Inv (if s.irc.registered then { s with backoff := 0, tries := [] } else s) now := by
  split
  · refine ⟨.inl rfl, trivial, fun t ht => (by cases ht), h.due, fun hdown => ?_, fun _ u v ts htries => (by cases htries), h.asked⟩
    exact absurd (hdown.symm.trans hup) (by decide)
  · exact h

/-- One try. -/
theorem tried_inv {s : St} {now later : Int} (h : Inv s now) (hup : s.irc.up = false) (hdue : s.retryAt ≤ now) (hle : now ≤ later)
    (outcome : Try) : Inv (ircMaintain s now later outcome) later ∧ Maintained (ircMaintain s now later outcome) now later := by
  have hspaced : Spaced (now :: s.tries) := by
    cases htries : s.tries with
    | nil => trivial
    | cons u ts =>
      obtain ⟨hdelay, hretry⟩ := h.down hup u ts htries
      refine ⟨?_, htries ▸ h.spaced⟩
      omega
  have hpast : ∀ t ∈ (now :: s.tries).head?, t ≤ later := fun t ht => Option.some.inj ht ▸ hle
  unfold ircMaintain
  rw [hup, if_neg (by decide), if_neg (by omega)]
  dsimp only
  cases outcome with
  | linked =>
    refine ⟨⟨h.backoff, hspaced, hpast, ?_, fun hdown => (by cases hdown), fun _ u v ts htries => ?_, fun _ => rfl⟩,
      ⟨fun _ => ?_, fun _ => ⟨Nat.zero_le _, fun hidle => ?_⟩, fun hdown => by cases hdown⟩⟩
    · dsimp only
      omega
    · obtain ⟨-, htries⟩ := List.cons.inj htries
      exact (h.down hup v ts htries).1
    · show later - later ≤ 420000
      omega
    · have hlate : 240000 < later - later := hidle
      omega
  | refused =>
    have hrange := slower_range 30 (by decide) (by decide) h.backoff
    refine ⟨⟨.inr hrange, hspaced, hpast, ?_, fun _ u ts htries => ?_, fun hstand => absurd (hstand.symm.trans hup) (by decide),
      fun hstand => absurd (hstand.symm.trans hup) (by decide)⟩,
      ⟨fun hstand => absurd (hstand.symm.trans hup) (by decide), fun hstand => absurd (hstand.symm.trans hup) (by decide),
        fun _ => ⟨?_, ?_⟩⟩⟩
    · dsimp only
      omega
    · obtain ⟨rfl, rfl⟩ := List.cons.inj htries
      refine ⟨?_, ?_⟩
      · cases htries : s.tries with
        | nil => exact le_trans (by decide) hrange.1
        | cons v ts => exact delay_slower (h.down hup v ts htries).1
      · dsimp only
        omega
    · dsimp only
      omega
    · dsimp only
      omega

theorem ircMaintain_inv {s : St} {now later : Int} (h : Inv s now) (hle : now ≤ later) (outcome : Try) :
    Inv (ircMaintain s now later outcome) later ∧ Maintained (ircMaintain s now later outcome) now later := by
  cases hup : s.irc.up with
  | false =>
    by_cases hwait : now < s.retryAt
    · have hsame : ircMaintain s now later outcome = s := by
        unfold ircMaintain
        rw [hup, if_neg (by decide), if_pos hwait]
      rw [hsame]
      refine ⟨h.later hle, fun hstand => ?_, fun hstand => ?_, fun _ => ⟨hwait, (h.later hle).due⟩⟩
      · exact absurd (hstand.symm.trans hup) (by decide)
      · exact absurd (hstand.symm.trans hup) (by decide)
    · exact tried_inv h hup (by omega) hle outcome
  | true =>
    have hinv := working_inv h hup
    have hup' : (if s.irc.registered then { s with backoff := 0, tries := [] } else s).irc.up = true := by
      split <;> exact hup
    unfold ircMaintain
    rw [if_pos hup]
    generalize (if s.irc.registered then { s with backoff := 0, tries := [] } else s) = s at hinv hup' ⊢
    dsimp only
    by_cases hsilent : 420000 < later - s.irc.lastRx
    · rw [if_pos hsilent]
      have hlost := (ircLost_inv hinv hup').later hle
      refine ⟨hlost, fun hstand => (by cases hstand), fun hstand => (by cases hstand), fun _ => ⟨?_, hlost.due⟩⟩
      have hrange := slower_range 5 le_rfl (by decide) hinv.backoff
      show now < now + slower 5 s.backoff * 1000
      omega
    rw [if_neg hsilent]
    have hdown : ¬ s.irc.up = false := by
      rw [hup']
      decide
    have hasked := hinv.asked hup'
    by_cases hask : 240000 < later - s.irc.lastRx ∧ s.irc.pinged = false
    · rw [if_pos hask]
      rw [hask.2] at hasked
      have hpings : s.pings + 1 = 1 := by rw [hasked]; rfl
      have hlater := hinv.later hle
      refine ⟨⟨hlater.backoff, hlater.spaced, hlater.past, hlater.due, hlater.down, hlater.standing, fun _ => hpings⟩,
        fun _ => ?_, fun _ => ⟨hpings.le, fun _ => hpings⟩, fun h => absurd h hdown⟩
      dsimp only
      omega
    · rw [if_neg hask]
      refine ⟨hinv.later hle, fun _ => by omega, fun _ => ⟨?_, fun hidle => ?_⟩, fun h => absurd h hdown⟩
      · rw [hasked]
        split <;> decide
      · cases hping : s.irc.pinged with
        | false => exact absurd ⟨hidle, hping⟩ hask
        | true =>
          rw [hasked, hping]
          rfl

theorem turn_inv {s s' : St} {t : Turn} (h : Inv s s.now) (hs : turn s t = some s') :
    Inv s' s'.now ∧ Maintained s' t.now s'.now := by
  unfold turn at hs
  split at hs
  · rename_i hclocks
    cases hs
    rw [List.pairwise_cons] at hclocks
    have hnow : s.now ≤ t.now := hclocks.1 _ List.mem_cons_self
    have hlater : t.now ≤ t.later := by
      refine (List.pairwise_cons.mp hclocks.2).1 _ (List.mem_append_right _ (List.mem_singleton_self _))
    obtain ⟨hinv, hkept⟩ := ircMaintain_inv (polledLink_inv t (h.later hnow)) hlater t.outcome
    exact ⟨⟨hinv.backoff, hinv.spaced, hinv.past, hinv.due, hinv.down, hinv.standing, hinv.asked⟩,
      ⟨hkept.heard, hkept.asked, hkept.next⟩⟩
  · cases hs

/-! ## The rate of the tries -/

theorem spaced_waited {t : Int} {ts : List Int} (h : Spaced (t :: ts)) {a : Int} (ha : a ∈ (t :: ts).getLast?) :
    waited ts.length ≤ t - a := by
  induction ts generalizing t with
  | nil =>
    cases ha
    show (0 : Int) ≤ t - t
    omega
  | cons u ts ih =>
    obtain ⟨hgap, hrest⟩ := h
    have hlast : a ∈ (u :: ts).getLast? := by rwa [List.getLast?_cons_cons] at ha
    have hwaited := ih hrest hlast
    show waited ts.length + 1000 * delay ts.length ≤ t - a
    omega

theorem waited_eq (n : Nat) : waited (6 + n) = 1000 * (315 + 300 * n) := by
  induction n with
  | zero => decide
  | succ n ih =>
    have hdelay : delay (6 + n) = 300 := by
      have hpow := one_le_pow n
      unfold delay
      rw [pow_add]
      omega
    rw [← Nat.add_assoc]
    show waited (6 + n) + 1000 * delay (6 + n) = _
    rw [ih, hdelay]
    push_cast
    ring

theorem waited_mono {n m : Nat} (h : n ≤ m) : waited n ≤ waited m := by
  induction m with
  | zero => rw [Nat.le_zero.mp h]
  | succ m ih =>
    rcases Nat.lt_or_ge n (m + 1) with hlt | hge
    · have hpos := delay_pos m
      have hle := ih (Nat.le_of_lt_succ hlt)
      show waited n ≤ waited m + 1000 * delay m
      omega
    · rw [Nat.le_antisymm h hge]

/-- The link after each turn, and how often it was tried. -/
theorem link_kept (start : Nat) {s s' : St} (h : (loop start).Reach (fun _ _ => True) s) (t : Turn) (hs : turn s t = some s') :
    Maintained s' t.now s'.now ∧ Spaced s'.tries ∧
      ∀ n : Nat, 7 + n ≤ s'.tries.length → ∀ a ∈ s'.tries.getLast?, 1000 * (315 + 300 * (n : Int)) ≤ s'.now - a := by
  have hinit : Inv (loop start).init (loop start).init.now := by
    refine ⟨.inl rfl, trivial, fun t ht => (by cases ht), ?_, fun _ u ts h => (by cases h), fun h => (by cases h), fun h => by cases h⟩
    show (0 : Int) ≤ start + 300000
    omega
  have hinv : Inv s s.now := h.invariant (I := fun s => Inv s s.now) hinit fun s t s' hi _ hstep => (turn_inv hi hstep).1
  obtain ⟨hinv', hkept⟩ := turn_inv hinv hs
  refine ⟨hkept, hinv'.spaced, fun n hn a ha => ?_⟩
  cases htries : s'.tries with
  | nil =>
    rw [htries, List.length_nil] at hn
    omega
  | cons u ts =>
    rw [htries] at ha
    have hspaced := spaced_waited (htries ▸ hinv'.spaced) ha
    have hpast : u ≤ s'.now := hinv'.past u (by rw [htries]; rfl)
    have hlen : 6 + n ≤ ts.length := by
      rw [htries, List.length_cons] at hn
      omega
    have hmono := waited_mono hlen
    rw [waited_eq] at hmono
    omega

/-- Refused at first, linked half a minute later. -/
theorem link_kept_linked : ∃ s s', (loop 0).Reach (fun _ _ => True) s ∧ turn s ⟨30006, none, .linked, 30010⟩ = some s' ∧
    s'.tries = [30006, 5] ∧ s'.irc.up = true ∧ Maintained s' 30006 30010 := by
  have hfirst : (loop 0).step (loop 0).init ⟨5, none, .refused, 6⟩ = some ⟨⟨false, 0, false, false⟩, 30, 30006, 6, [5], 0⟩ := rfl
  have hreach : (loop 0).Reach (fun _ _ => True) _ := .step _ .init trivial hfirst
  exact ⟨_, _, hreach, rfl, rfl, rfl, (link_kept 0 hreach ⟨30006, none, .linked, 30010⟩ rfl).1⟩

end Shclaw.Daemon.Link
