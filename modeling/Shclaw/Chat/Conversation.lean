/-
  Shclaw.Chat.Conversation — when an agent's history goes on (`src/agent.c`:
  `agent_run_session`; `src/session.c`: `chat_id`, `chat_add`).

  One agent `A`, its sessions one after the other, and the log it shares with the
  others. A session that talks to the owner takes the log's id first (`start`), then
  renders the log into its opening turn (`render`) and ends later (`finish`), with its
  history kept or not. Lines of any agent come at any moment (`add`), and so do the
  other agents' sessions, which take the id too (`touch`).

  Ghosts: `recorded` is every line with the clock it was recorded at and the number of
  conversations closed before it; `closings` counts these; `prev` is A's previous
  session that talked to the owner; `turns` what each such session rendered.

  `lifetime`: a session goes on with the kept history exactly when the previous one
  kept its own and the log was never `idle` seconds silent since that one started. The
  id is taken at the start of a session, so a silence in the middle of it counts, and
  one that began before it; a log without a line never closes (`long_reply_closes`).
-/

import Shclaw.Agent.Appends
import Shclaw.Chat.Log
import Shclaw.Scheduler.Invariant

namespace Shclaw.Chat

open Lib Scheduler Agent

structure Entry where
  line : Line
  /-- The clock under the lock. -/
  time : Int
  /-- The clock `chat_add` read before it. -/
  stamp : Int
  era : Nat

structure Prev where
  start : Int
  finish : Int
  kept : Bool
  /-- The lines recorded before it started. -/
  count : Nat
  era : Nat

/-- What a session's opening turn shows of the channel. -/
structure Turn where
  resumed : Bool
  lines : List Line
  channel : Str
  /-- The lines recorded before it was rendered. -/
  upto : Nat
  era : Nat

inductive Phase where
  | free
  | started (W : World)
  | running (W : World)

structure St where
  now : Int
  log : ChatLog
  conv : Option Conv
  phase : Phase
  recorded : List Entry
  closings : Nat
  prev : Option Prev
  turns : List Turn

inductive Ev where
  | tick (d : Nat)
  | add (t : Int) (agent who text : Str)
  | touch
  | start (W : World)
  | render (pre post : Str)
  | finish
  | other (W : World)

section

variable (J : CJson) (A : Config) (Z : Zone) (idle : Idle)

/-- `chat_expire`, counted. -/
def St.access (s : St) : St :=
  { s with
    log := chatExpire idle s.log s.now
    closings := if silent idle s.log s.now then s.closings + 1 else s.closings }

def step (s : St) : Ev → Option St
  | .tick d => some { s with now := s.now + d }
  | .add t agent who text =>
    if s.now < t then none
    else if text = [] then some s
    else
      let a := s.access idle
      some { a with
        log := chatAdd idle Z s.log s.now t agent who text
        recorded := s.recorded ++ [⟨newLine Z s.log t agent who text, s.now, t, a.closings⟩] }
  | .touch => some (s.access idle)
  | .start W =>
    match s.phase with
    | .free =>
      if talks J A W then
        let a := s.access idle
        some { a with
          phase := .started { W with chatId := (chatId idle s.log s.now).2 }
          prev := some ⟨s.now, s.now, false, s.recorded.length, a.closings⟩ }
      else none
    | _ => none
  | .render pre post =>
    match s.phase with
    | .started W =>
      let c := resumed J A W s.conv
      let after := (c.map (·.seq)).getD 0
      let skip := c.map fun _ => A.name
      some { s with
        phase := .running { W with seq := (chatRender s.log after skip chatSize).2, opening := pre ++ channel s.log after skip ++ post }
        turns := s.turns ++ [⟨c.isSome, linesAfter s.log after skip, channel s.log after skip, s.recorded.length, s.closings⟩] }
    | _ => none
  | .finish =>
    match s.phase with
    | .running W =>
      let conv := (runSession J A W s.conv).2.2
      some { s with
        phase := .free
        conv
        prev := s.prev.map fun p => { p with finish := s.now, kept := conv.isSome } }
    | _ => none
  | .other W =>
    match s.phase with
    | .free => if talks J A W then none else some { s with conv := (runSession J A W s.conv).2.2 }
    | _ => none

def conversation : System St Ev where
  init := ⟨0, chatInit, none, .free, [], 0, none, []⟩
  step := step J A Z idle

/-- The session just started goes on with the kept history. -/
def continues (s : St) : Bool :=
  match s.phase with
  | .started W => (resumed J A W s.conv).isSome
  | _ => false

end

/-! ## Silence -/

section

variable (idle : Idle)

/-- The lines since the previous session started, and the last one before it when that was
    not yet silent for `idle` seconds. -/
def watched (p : Prev) (recorded : List Entry) : List Entry :=
  ((recorded.take p.count).getLast?.filter fun e => p.start < e.stamp + idle.secs).toList ++ recorded.drop p.count

/-- No line is followed by `idle` seconds without another, up to now. -/
def Unbroken (lines : List Entry) (now : Int) : Prop :=
  lines.IsChain (fun a b => b.time < a.stamp + idle.secs) ∧ ∀ e ∈ lines.getLast?, now < e.stamp + idle.secs

/-! ## The log and its eras -/

/-- Neighbours: a conversation goes on from line to line exactly when the next line comes in time. -/
def EraLink (a b : Entry) : Prop := a.era ≤ b.era ∧ (a.era = b.era ↔ b.time < a.stamp + idle.secs)

/-- What the log says of the lines recorded. -/
structure LogOk (s : St) : Prop where
  id : s.log.id = s.closings % uintMax
  past : ∀ e ∈ s.recorded, e.stamp ≤ s.now ∧ e.era ≤ s.closings
  /-- The last line is of the open conversation, or that was silent for long enough. -/
  last : ∀ e ∈ s.recorded.getLast?, if e.era = s.closings then s.log.ring.n ≠ 0 ∧ s.log.last = e.stamp
    else s.log.ring.n = 0 ∧ e.stamp + idle.secs ≤ s.now
  none : s.recorded = [] → s.log.ring.n = 0
  links : s.recorded.IsChain (EraLink idle)
  /-- Every conversation that closed had a line. -/
  used : ∀ k < s.closings, ∃ e ∈ s.recorded, e.era = k

theorem logOk_tick {s : St} (h : LogOk idle s) (d : Nat) : LogOk idle { s with now := s.now + d } := by
  refine ⟨h.id, fun e he => ?_, fun e he => ?_, h.none, h.links, h.used⟩
  · have := h.past e he
    refine ⟨?_, this.2⟩
    show e.stamp ≤ s.now + d
    omega
  · have := h.last e he
    split
    · rename_i heq
      rwa [if_pos heq] at this
    · rename_i hne
      rw [if_neg hne] at this
      refine ⟨this.1, ?_⟩
      show e.stamp + idle.secs ≤ s.now + d
      omega

/-- The log after `chat_expire`. -/
theorem logOk_access {s : St} (h : LogOk idle s) : LogOk idle (s.access idle) ∧
    ∀ e ∈ s.recorded.getLast?, e.era = (s.access idle).closings ↔ s.now < e.stamp + idle.secs := by
  unfold St.access chatExpire
  by_cases hs : silent idle s.log s.now = true
  · -- the open conversation closes
    simp only [if_pos hs]
    simp only [silent, ne_eq, Bool.and_eq_true, decide_eq_true_eq] at hs
    have hlast : ∃ e, s.recorded.getLast? = some e ∧ e.era = s.closings ∧ s.log.last = e.stamp := by
      cases hg : s.recorded.getLast? with
      | none => exact absurd (h.none (List.getLast?_eq_none_iff.mp hg)) hs.1
      | some e =>
        have := h.last e hg
        split at this
        · exact ⟨e, rfl, ‹_›, this.2⟩
        · exact absurd this.1 hs.1
    obtain ⟨e, hg, hera, hstamp⟩ := hlast
    refine ⟨⟨?_, fun x hx => ?_, fun x hx => ?_, fun _ => rfl, h.links, fun k hk => ?_⟩, fun x hx => ?_⟩
    · show (s.log.id + 1) % uintMax = (s.closings + 1) % uintMax
      rw [h.id, Nat.mod_add_mod]
    · have := h.past x hx
      exact ⟨this.1, Nat.le_succ_of_le this.2⟩
    · rw [hg] at hx
      cases hx
      have hne : e.era ≠ s.closings + 1 := by omega
      rw [if_neg hne]
      refine ⟨rfl, ?_⟩
      show e.stamp + idle.secs ≤ s.now
      omega
    · rcases Nat.lt_succ_iff_lt_or_eq.mp hk with hk | rfl
      · exact h.used k hk
      · exact ⟨e, List.mem_of_getLast? hg, hera⟩
    · rw [hg] at hx
      cases hx
      exact iff_of_false (by omega) (by omega)
  · simp only [if_neg hs]
    simp only [silent, ne_eq, Bool.and_eq_true, decide_eq_true_eq, not_and] at hs
    refine ⟨h, fun x hx => ?_⟩
    have := h.last x hx
    split at this
    · rename_i heq
      have := hs this.1
      exact iff_of_true heq (by omega)
    · rename_i hne
      exact iff_of_false hne (by omega)

theorem logOk_add {s : St} (h : LogOk idle s) (Z : Zone) {t : Int} (ht : t ≤ s.now) (agent who : Str) {text : Str}
    (htext : text ≠ []) : LogOk idle { s.access idle with
      log := chatAdd idle Z s.log s.now t agent who text
      recorded := s.recorded ++ [⟨newLine Z s.log t agent who text, s.now, t, (s.access idle).closings⟩] } := by
  obtain ⟨ha, hera⟩ := logOk_access idle h
  refine ⟨?_, fun e he => ?_, fun e he => ?_, fun hnil => ?_, ?_, fun k hk => ?_⟩
  · rw [← ha.id]
    unfold chatAdd
    rw [if_neg htext]
    rfl
  · rcases List.mem_append.mp he with he | he
    · exact ha.past e he
    · rw [List.mem_singleton.mp he]
      exact ⟨ht, Nat.le_refl _⟩
  · rw [List.getLast?_concat] at he
    cases he
    rw [if_pos rfl]
    unfold chatAdd
    rw [if_neg htext]
    refine ⟨?_, rfl⟩
    show (Ring.push _ _).n ≠ 0
    unfold Ring.push
    dsimp only
    split
    · omega
    · rename_i hfull
      have : chatLines = 20 := rfl
      omega
  · exact absurd hnil (by simp)
  · refine List.isChain_append.mpr ⟨h.links, .singleton _, fun a ha' b hb => ?_⟩
    cases hb
    refine ⟨(ha.past a (List.mem_of_getLast? ha')).2, ?_⟩
    exact hera a ha'
  · obtain ⟨e, he, hk'⟩ := ha.used k hk
    exact ⟨e, List.mem_append_left _ he, hk'⟩

/-! ## The previous session -/

structure PrevOk (s : St) (p : Prev) : Prop where
  count : p.count ≤ s.recorded.length
  era : p.era ≤ s.closings
  /-- The last line before it was of its conversation when that was still open. -/
  before : ∀ e ∈ (s.recorded.take p.count).getLast?, e.era ≤ p.era ∧ (e.era = p.era ↔ p.start < e.stamp + idle.secs)
  after : ∀ e ∈ s.recorded.drop p.count, p.era ≤ e.era

theorem prevOk_new {s : St} (h : LogOk idle s) :
    PrevOk idle (s.access idle) ⟨s.now, s.now, false, s.recorded.length, (s.access idle).closings⟩ := by
  obtain ⟨ha, hera⟩ := logOk_access idle h
  refine ⟨Nat.le_refl _, Nat.le_refl _, fun e he => ?_, fun e he => ?_⟩
  · rw [show (s.access idle).recorded.take s.recorded.length = s.recorded from List.take_length] at he
    exact ⟨(ha.past e (List.mem_of_getLast? he)).2, hera e he⟩
  · rw [show (s.access idle).recorded.drop s.recorded.length = [] from List.drop_length] at he
    cases he

/-- More lines, of this era or later ones. -/
theorem PrevOk.mono {s s' : St} {p : Prev} (h : PrevOk idle s p) {more : List Entry} (hrec : s'.recorded = s.recorded ++ more)
    (hmore : ∀ e ∈ more, s.closings ≤ e.era) (hclose : s.closings ≤ s'.closings) : PrevOk idle s' p := by
  refine ⟨?_, h.era.trans hclose, fun e he => ?_, fun e he => ?_⟩
  · rw [hrec, List.length_append]
    exact Nat.le_add_right_of_le h.count
  · rw [hrec, List.take_append_of_le_length h.count] at he
    exact h.before e he
  · rw [hrec, List.drop_append_of_le_length h.count] at he
    rcases List.mem_append.mp he with he | he
    · exact h.after e he
    · exact h.era.trans (hmore e he)

/-- The watched lines are the end of those recorded. -/
theorem watched_suffix (p : Prev) (recorded : List Entry) : watched idle p recorded <:+ recorded := by
  unfold watched
  conv_rhs => rw [← List.take_append_drop p.count recorded]
  cases hg : (recorded.take p.count).getLast? with
  | none => exact List.suffix_append _ _
  | some e =>
    obtain ⟨before, hb⟩ := List.getLast?_eq_some_iff.mp hg
    rw [hb, Option.filter_some]
    split
    · rw [Option.toList_some, List.append_assoc]
      exact List.suffix_append _ _
    · exact List.suffix_append _ _

/-- In a chain of a preorder every element is related to the last. -/
theorem chain_last {R : Entry → Entry → Prop} {l : List Entry} (h : l.IsChain R) (hrefl : ∀ a, R a a)
    (htrans : ∀ a b c, R a b → R b c → R a c) {x : Entry} (hx : x ∈ l) : ∃ e, l.getLast? = some e ∧ R x e := by
  induction l generalizing x with
  | nil => cases hx
  | cons a l ih =>
    cases l with
    | nil =>
      rw [List.mem_singleton.mp hx]
      exact ⟨a, rfl, hrefl a⟩
    | cons b l =>
      obtain ⟨hab, hrest⟩ := List.isChain_cons_cons.mp h
      rcases List.mem_cons.mp hx with rfl | hx
      · obtain ⟨e, he, hbe⟩ := ih hrest List.mem_cons_self
        exact ⟨e, by rw [List.getLast?_cons_cons]; exact he, htrans _ _ _ hab hbe⟩
      · obtain ⟨e, he, hxe⟩ := ih hrest hx
        exact ⟨e, by rw [List.getLast?_cons_cons]; exact he, hxe⟩

/-- The id is the one the previous session took exactly when no silence broke the lines
    since then. -/
theorem unbroken_iff {s : St} (h : LogOk idle s) {p : Prev} (hp : PrevOk idle s p) :
    (s.access idle).closings = p.era ↔ Unbroken idle (watched idle p s.recorded) s.now := by
  obtain ⟨ha, hera⟩ := logOk_access idle h
  obtain ⟨front, hsuf⟩ := watched_suffix idle p s.recorded
  have hlinks : (watched idle p s.recorded).IsChain (EraLink idle) := by
    have := h.links
    rw [← hsuf] at this
    exact (List.isChain_append.mp this).2.1
  have hmem : ∀ e ∈ watched idle p s.recorded, e ∈ s.recorded := fun e he => hsuf ▸ List.mem_append_right _ he
  have hlast : ∀ e ∈ (watched idle p s.recorded).getLast?, e ∈ s.recorded.getLast? := by
    intro e he
    rw [← hsuf, List.getLast?_append, he]
    rfl
  have hlow : ∀ e ∈ watched idle p s.recorded, p.era ≤ e.era := by
    intro e he
    rcases List.mem_append.mp he with he | he
    · rw [Option.mem_toList, Option.filter_eq_some_iff] at he
      exact ((hp.before e he.1).2.mpr (by simpa using he.2)).ge
    · exact hp.after e he
  constructor
  · intro hsame
    -- every watched line is of the open conversation
    have heq : ∀ e ∈ watched idle p s.recorded, e.era = p.era := by
      intro e he
      have h1 := hlow e he
      have h2 := (ha.past e (hmem e he)).2
      omega
    refine ⟨List.isChain_iff_getElem.mpr fun i hi => ?_, fun e he => ?_⟩
    · have hlink := List.isChain_iff_getElem.mp hlinks i hi
      refine hlink.2.mp ?_
      rw [heq _ (List.getElem_mem _), heq _ (List.getElem_mem _)]
    · refine (hera e (hlast e he)).mp ?_
      rw [heq e (List.mem_of_getLast? he), hsame]
  · rintro ⟨hchain, hend⟩
    by_contra hne
    have hlt : p.era < (s.access idle).closings := by
      have h1 := hp.era
      have h2 : s.closings ≤ (s.access idle).closings := by
        unfold St.access
        dsimp only
        split <;> omega
      omega
    -- the conversation of the previous session had a line, and one is watched
    obtain ⟨x, hx, hxera⟩ : ∃ e ∈ s.recorded, e.era = p.era := ha.used p.era hlt
    obtain ⟨y, hy, hyera⟩ : ∃ y ∈ watched idle p s.recorded, y.era = p.era := by
      rw [← List.take_append_drop p.count s.recorded] at hx
      rcases List.mem_append.mp hx with hx | hx
      · have hchain : (s.recorded.take p.count).IsChain fun a b => a.era ≤ b.era := by
          have := h.links.imp fun _ _ h => h.1
          rw [← List.take_append_drop p.count s.recorded] at this
          exact (List.isChain_append.mp this).1
        obtain ⟨e, he, hle⟩ := chain_last hchain (fun _ => Nat.le_refl _) (fun _ _ _ => Nat.le_trans) hx
        obtain ⟨hera', hlive⟩ := hp.before e he
        have heq : e.era = p.era := by omega
        refine ⟨e, List.mem_append_left _ ?_, heq⟩
        rw [Option.mem_toList, Option.filter_eq_some_iff]
        exact ⟨he, by simpa using hlive.mp heq⟩
      · exact ⟨x, List.mem_append_right _ hx, hxera⟩
    -- no silence after it: the last line is of the same conversation
    have hsame : (watched idle p s.recorded).IsChain fun a b => a.era = b.era := by
      refine List.isChain_iff_getElem.mpr fun i hi => ?_
      exact (List.isChain_iff_getElem.mp hlinks i hi).2.mpr (List.isChain_iff_getElem.mp hchain i hi)
    obtain ⟨e, he, heq⟩ := chain_last hsame (fun _ => rfl) (fun _ _ _ => Eq.trans) hy
    have := (hera e (hlast e he)).mpr (hend e he)
    omega

/-! ## Runs -/

variable (J : CJson) (A : Config)

/-- The history kept is the previous session's, under the id that took. -/
def ConvOk (s : St) : Prop :=
  match s.phase with
  | .free => s.conv = none ∧ (∀ p ∈ s.prev, p.kept = false) ∨
      ∃ c p, s.conv = some c ∧ s.prev = some p ∧ p.kept = true ∧ c.id = p.era % uintMax
  | .started W => talks J A W = true ∧ ∃ p, s.prev = some p ∧ W.chatId = p.era % uintMax
  | .running W => talks J A W = true ∧ ∃ p, s.prev = some p ∧ W.chatId = p.era % uintMax

structure Inv (s : St) : Prop where
  log : LogOk idle s
  prev : ∀ p ∈ s.prev, PrevOk idle s p
  conv : ConvOk J A s

/-- A session that does not talk to the owner leaves the history; one that does keeps its
    own, under the id it took, or none. -/
theorem runSession_conv (W : World) (conv : Option Conv) :
    (talks J A W = false → (runSession J A W conv).2.2 = conv) ∧
    (talks J A W = true → ∀ c ∈ (runSession J A W conv).2.2, c.id = W.chatId ∧ c.seq = W.seq) := by
  obtain ⟨x, -, -, -, -, hconv⟩ := runSession_turns J A W conv
  rw [hconv]
  unfold keepConv
  refine ⟨fun h => by rw [h]; rfl, fun h c hc => ?_⟩
  rw [h] at hc
  dsimp only at hc
  rw [if_pos rfl] at hc
  split at hc
  · cases hc
    exact ⟨rfl, rfl⟩
  · cases hc

/-- A step that records no line and changes neither clock nor log. -/
theorem Inv.of_eq {s s' : St} (hi : Inv idle J A s) (hnow : s'.now = s.now) (hlog : s'.log = s.log)
    (hrec : s'.recorded = s.recorded) (hclose : s'.closings = s.closings) (hprev : ∀ p ∈ s'.prev, ∃ q ∈ s.prev,
      p.start = q.start ∧ p.count = q.count ∧ p.era = q.era) (hconv : ConvOk J A s') : Inv idle J A s' := by
  refine ⟨?_, fun p hp => ?_, hconv⟩
  · have h := hi.log
    constructor
    all_goals simp only [hnow, hlog, hrec, hclose]
    exacts [h.id, h.past, h.last, h.none, h.links, h.used]
  · obtain ⟨q, hq, hstart, hcount, hera⟩ := hprev p hp
    have h := hi.prev q hq
    constructor
    all_goals simp only [hrec, hclose, hstart, hcount, hera]
    exacts [h.count, h.era, h.before, h.after]

theorem access_inv {s : St} (hi : Inv idle J A s) : Inv idle J A (s.access idle) := by
  refine ⟨(logOk_access idle hi.log).1, fun p hp => ?_, hi.conv⟩
  refine (hi.prev p hp).mono idle (List.append_nil _).symm (fun e he => by cases he) ?_
  unfold St.access
  dsimp only
  split <;> omega

theorem step_inv (Z : Zone) {s s' : St} {e : Ev} (hi : Inv idle J A s) (h : step J A Z idle s e = some s') : Inv idle J A s' := by
  cases e with
  | tick d =>
    cases h
    refine ⟨logOk_tick idle hi.log d, fun p hp => ?_, hi.conv⟩
    exact (hi.prev p hp).mono idle (List.append_nil _).symm (fun e he => by cases he) (Nat.le_refl _)
  | add t agent who text =>
    simp only [step] at h
    split at h
    · cases h
    rename_i ht
    split at h
    · cases h
      exact hi
    rename_i htext
    cases h
    have hacc := access_inv idle J A hi
    refine ⟨logOk_add idle hi.log Z (by omega) agent who htext, fun p hp => ?_, hi.conv⟩
    refine (hacc.prev p hp).mono idle rfl (fun e he => ?_) (Nat.le_refl _)
    rw [List.mem_singleton.mp he]
  | touch =>
    cases h
    exact access_inv idle J A hi
  | start W =>
    simp only [step] at h
    split at h
    · split at h
      · rename_i htalk
        cases h
        have hlog := (logOk_access idle hi.log).1
        refine ⟨⟨hlog.id, hlog.past, hlog.last, hlog.none, hlog.links, hlog.used⟩, fun p hp => ?_, htalk, _, rfl, hlog.id⟩
        cases hp
        have h := prevOk_new idle hi.log
        exact ⟨h.count, h.era, h.before, h.after⟩
      · cases h
    · cases h
  | render pre post =>
    simp only [step] at h
    split at h
    · rename_i W hphase
      cases h
      have hconv := hi.conv
      unfold ConvOk at hconv
      rw [hphase] at hconv
      exact hi.of_eq idle J A rfl rfl rfl rfl (fun p hp => ⟨p, hp, rfl, rfl, rfl⟩) hconv
    · cases h
  | finish =>
    simp only [step] at h
    split at h
    · rename_i W hphase
      cases h
      have hconv := hi.conv
      unfold ConvOk at hconv
      rw [hphase] at hconv
      obtain ⟨htalk, p, hp, hid⟩ := hconv
      refine hi.of_eq idle J A rfl rfl rfl rfl ?_ ?_
      · intro q hq
        rw [hp] at hq
        cases hq
        exact ⟨p, hp, rfl, rfl, rfl⟩
      · unfold ConvOk
        dsimp only
        rw [hp]
        cases hc : (runSession J A W s.conv).2.2 with
        | none => exact Or.inl ⟨rfl, fun q hq => by cases hq; rfl⟩
        | some c =>
          refine Or.inr ⟨c, _, rfl, rfl, rfl, ?_⟩
          rw [((runSession_conv J A W s.conv).2 htalk c hc).1]
          exact hid
    · cases h
  | other W =>
    simp only [step] at h
    split at h
    · split at h
      · cases h
      · rename_i hphase htalk
        cases h
        have hsame := (runSession_conv J A W s.conv).1 (by simpa using htalk)
        refine hi.of_eq idle J A rfl rfl rfl rfl (fun p hp => ⟨p, hp, rfl, rfl, rfl⟩) ?_
        have hconv := hi.conv
        unfold ConvOk at hconv ⊢
        rw [hphase] at hconv
        dsimp only
        rw [hphase, hsame]
        exact hconv
    · cases h

variable (Z : Zone)

theorem reach_inv {ok : St → Ev → Prop} {s : St} (h : (conversation J A Z idle).Reach ok s) : Inv idle J A s := by
  refine h.invariant (I := Inv idle J A) ⟨?_, fun p hp => ?_, ?_⟩ fun s e s' hi _ hs => step_inv idle J A Z hi hs
  · exact ⟨rfl, nofun, nofun, fun _ => rfl, .nil, nofun⟩
  · cases hp
  · exact Or.inl ⟨rfl, nofun⟩

/-- A session just started goes on with a history kept under the log's id. -/
theorem continues_started {s : St} (hi : Inv idle J A s) {W : World} (htalk : talks J A W = true)
    (hids : (s.access idle).closings < uintMax) (prev : Option Prev) :
    continues J A { s.access idle with phase := .started { W with chatId := (chatId idle s.log s.now).2 }, prev } = true ↔
      ∃ c, s.conv = some c ∧ c.id = (s.access idle).closings := by
  have hid : (s.access idle).log.id = (s.access idle).closings := by
    rw [(logOk_access idle hi.log).1.id]
    exact Nat.mod_eq_of_lt hids
  have hres : ∀ conv, resumed J A { W with chatId := (chatId idle s.log s.now).2 } conv =
      conv.filter fun c => c.id = (s.access idle).closings := by
    intro conv
    unfold resumed
    rw [if_pos (by exact htalk), ← hid]
    rfl
  unfold continues
  dsimp only
  rw [hres, show (s.access idle).conv = s.conv from rfl]
  cases s.conv with
  | none =>
    refine iff_of_false (by simp) ?_
    rintro ⟨c, hc, -⟩
    cases hc
  | some c => simp [Option.filter_some]

/-- A session of the agent that talks to the owner goes on with the kept history exactly when
    the previous one kept its own and no line recorded since that one started, counting the
    last one before it when that was not silent for `idle` seconds yet, was followed by
    `idle` seconds without another, up to this start. The id, an `unsigned`, has not wrapped. -/
theorem lifetime {s s' : St} (h : (conversation J A Z idle).Reach (fun _ _ => True) s) (W : World)
    (hstart : (conversation J A Z idle).step s (.start W) = some s') (hids : s'.closings < uintMax) :
    continues J A s' = true ↔ ∃ p, s.prev = some p ∧ p.kept = true ∧ Unbroken idle (watched idle p s.recorded) s.now := by
  have hi := reach_inv idle J A Z h
  simp only [conversation, step] at hstart
  split at hstart
  · rename_i hphase
    split at hstart
    · rename_i htalk
      cases hstart
      have hconv := hi.conv
      unfold ConvOk at hconv
      rw [hphase] at hconv
      rw [continues_started idle J A hi htalk hids]
      rcases hconv with ⟨hnone, hno⟩ | ⟨c, p, hc, hp, hkept, hera⟩
      · refine iff_of_false ?_ ?_
        · rintro ⟨c, hc, -⟩
          rw [hnone] at hc
          cases hc
        · rintro ⟨p, hp, hkept, -⟩
          rw [hno p hp] at hkept
          cases hkept
      · have hprev := hi.prev p hp
        have hle : p.era < uintMax := by
          have h1 := ((access_inv idle J A hi).prev p hp).era
          exact Nat.lt_of_le_of_lt h1 hids
        rw [Nat.mod_eq_of_lt hle] at hera
        have hkey := unbroken_iff idle hi.log hprev
        constructor
        · rintro ⟨c', hc', hid'⟩
          rw [hc] at hc'
          cases hc'
          exact ⟨p, hp, hkept, hkey.mp (by omega)⟩
        · rintro ⟨q, hq, -, hunb⟩
          rw [hp] at hq
          cases hq
          exact ⟨c, hc, by rw [hera, hkey.mpr hunb]⟩
    · cases hstart
  · cases hstart

end

/-! ## A short exchange and a long reply -/

def minute : Idle := ⟨60, by decide⟩

/-- A message of the owner, answered within the minute. -/
def answered : List Ev :=
  [.start recallThenText, .render [] [], .add 0 (lit "ada") (lit "owner") (lit "hello"), .tick 5,
   .add 5 (lit "ada") (lit "ada") (lit "done"), .finish, .tick 30]

theorem lifetime_answered : ∃ s s', (conversation CJson.compact ada Zone.utc minute).Reach (fun _ _ => True) s ∧
    (conversation CJson.compact ada Zone.utc minute).step s (.start recallThenText) = some s' ∧
    ∃ p, s.prev = some p ∧ p.kept = true ∧ Unbroken minute (watched minute p s.recorded) s.now := by
  have hrun : ((conversation CJson.compact ada Zone.utc minute).replay (fun _ _ => True)
      (conversation CJson.compact ada Zone.utc minute).init answered).map (fun s =>
        ((conversation CJson.compact ada Zone.utc minute).step s (.start recallThenText)).map fun s' =>
          (continues CJson.compact ada s', s'.closings)) = some (some (true, 0)) := by decide +kernel
  obtain ⟨s, hs, hstep⟩ := Option.map_eq_some_iff.mp hrun
  obtain ⟨s', hs', hboth⟩ := Option.map_eq_some_iff.mp hstep
  obtain ⟨hcont, hids⟩ := Prod.mk.inj hboth
  have hreach := System.Reach.init.replay hs
  exact ⟨s, s', hreach, hs', (lifetime minute CJson.compact ada Zone.utc hreach recallThenText hs'
    (by rw [hids]; decide)).mp hcont⟩

/-- The answer takes more than the minute; the owner writes again at once. -/
def longReply : List Ev :=
  [.start recallThenText, .render [] [], .add 0 (lit "ada") (lit "owner") (lit "hello"), .tick 100,
   .add 100 (lit "ada") (lit "ada") (lit "done"), .finish, .tick 1]

/-- No silence after the session's end, and still it is not gone on with: the id it took at
    its start was closed when its own answer came. -/
theorem long_reply_closes : ¬ ∀ s s', (conversation CJson.compact ada Zone.utc minute).Reach (fun _ _ => True) s →
    (conversation CJson.compact ada Zone.utc minute).step s (.start recallThenText) = some s' →
    (continues CJson.compact ada s' = true ↔ ∃ p, s.prev = some p ∧ p.kept = true ∧ ∀ x y, p.finish ≤ x →
      x + minute.secs ≤ y → y ≤ s.now → ∃ e ∈ s.recorded, x ≤ e.time ∧ e.time ≤ y) := by
  intro hall
  have hrun : ((conversation CJson.compact ada Zone.utc minute).replay (fun _ _ => True)
      (conversation CJson.compact ada Zone.utc minute).init longReply).map (fun s =>
        (((conversation CJson.compact ada Zone.utc minute).step s (.start recallThenText)).map (continues CJson.compact ada),
          s.prev.map fun p => (p.kept, p.finish), s.now)) = some (some false, some (true, 100), 101) := by decide +kernel
  obtain ⟨s, hs, heq⟩ := Option.map_eq_some_iff.mp hrun
  obtain ⟨hstep, hrest⟩ := Prod.mk.inj heq
  obtain ⟨hprev, hnow⟩ := Prod.mk.inj hrest
  obtain ⟨s', hs', hcont⟩ := Option.map_eq_some_iff.mp hstep
  obtain ⟨p, hp, hpair⟩ := Option.map_eq_some_iff.mp hprev
  obtain ⟨hkept, hfinish⟩ := Prod.mk.inj hpair
  have hgoes := (hall s s' (System.Reach.init.replay hs) hs').mpr ⟨p, hp, hkept, fun x y hx hy hend => ?_⟩
  · rw [hcont] at hgoes
    cases hgoes
  · -- one second is no span of sixty
    exfalso
    rw [hfinish] at hx
    rw [hnow] at hend
    have : minute.secs = 60 := rfl
    omega

end Shclaw.Chat
