/-
  Shclaw.Chat.Heard — what the other agents said reaches an agent once (`src/agent.c`:
  `agent_run_session`; `src/session.c`: `chat_add`, `chat_render`).

  A session that goes on with the kept history renders the lines since the last one it
  rendered, the agent's own left out: the number of that line is taken at `render` and
  kept with the history at the end of the session, while lines keep coming.

  `heard_once`: over sessions of which each goes on with the one before, a line another
  agent recorded after the first rendered the log is shown by the next session to
  render it, and by no other; it is missing there exactly when twenty newer lines or
  the end of a conversation came in between. Lines are shown in the order recorded.
-/

import Shclaw.Chat.Conversation

namespace Shclaw.Chat

open Lib Scheduler Agent

/-! ## The ring holds the newest lines of the open conversation -/

structure LinesOk (s : St) : Prop where
  ring : ∃ old cur, s.recorded = old ++ cur ∧ (∀ e ∈ old, e.era < s.closings) ∧ (∀ e ∈ cur, e.era = s.closings) ∧
    s.log.ring.contents = lastN chatLines (cur.map (·.line))
  seq : s.log.seq = s.recorded.length % uintMax
  numbered : ∀ i e, s.recorded[i]? = some e → e.line.seq = (i + 1) % uintMax ∧ e.line.text.length < chatLine

theorem linesOk_access (idle : Idle) {s : St} (h : LinesOk s) : LinesOk (s.access idle) := by
  obtain ⟨old, cur, hrec, hold, hcur, hring⟩ := h.ring
  refine ⟨?_, (chatExpire_seq _ _ _).trans h.seq, h.numbered⟩
  unfold St.access chatExpire
  by_cases hs : silent idle s.log s.now = true
  · simp only [if_pos hs]
    refine ⟨s.recorded, [], (List.append_nil _).symm, fun e he => ?_, nofun, rfl⟩
    rw [hrec] at he
    rcases List.mem_append.mp he with he | he
    · have := hold e he
      omega
    · have := hcur e he
      omega
  · simp only [if_neg hs]
    exact ⟨old, cur, hrec, hold, hcur, hring⟩

theorem linesOk_add (idle : Idle) {s : St} (h : LinesOk s) (Z : Zone) (t : Int) (agent who : Str) {text : Str}
    (htext : text ≠ []) : LinesOk { s.access idle with
      log := chatAdd idle Z s.log s.now t agent who text
      recorded := s.recorded ++ [⟨newLine Z s.log t agent who text, s.now, t, (s.access idle).closings⟩] } := by
  obtain ⟨old, cur, hrec, hold, hcur, hring⟩ := (linesOk_access idle h).ring
  have hseq : (chatAdd idle Z s.log s.now t agent who text).seq = (s.recorded.length + 1) % uintMax := by
    unfold chatAdd
    rw [if_neg htext]
    dsimp only
    rw [chatExpire_seq, h.seq, Nat.mod_add_mod]
  refine ⟨⟨old, cur ++ [⟨newLine Z s.log t agent who text, s.now, t, (s.access idle).closings⟩], ?_, hold, ?_, ?_⟩, ?_, ?_⟩
  · show s.recorded ++ _ = _
    rw [show s.recorded = old ++ cur from hrec, List.append_assoc]
  · intro e he
    rcases List.mem_append.mp he with he | he
    · exact hcur e he
    · rw [List.mem_singleton.mp he]
  · show (chatAdd idle Z s.log s.now t agent who text).ring.contents = _
    rw [chatAdd_contents idle Z s.log s.now t htext, show (chatExpire idle s.log s.now).ring.contents = _ from hring,
      lastN_lastN_concat, List.map_append]
    rfl
  · rw [hseq]
    simp
  · intro i e he
    rcases Nat.lt_or_ge i s.recorded.length with hi | hi
    · rw [List.getElem?_append_left hi] at he
      exact h.numbered i e he
    · rw [List.getElem?_append_right hi] at he
      obtain ⟨hi0, rfl⟩ := List.getElem?_eq_some_iff.mp he
      have hlen : i = s.recorded.length := by
        rw [List.length_singleton] at hi0
        omega
      simp only [List.getElem_singleton]
      refine ⟨?_, length_lineText ..⟩
      show (s.log.seq + 1) % uintMax = (i + 1) % uintMax
      rw [h.seq, Nat.mod_add_mod, hlen]

/-- The ring, by the numbers of the lines. -/
theorem contents_eq {s : St} (h : LinesOk s) : s.log.ring.contents =
    ((s.recorded.drop (s.recorded.length - chatLines)).filter fun e => e.era = s.closings).map (·.line) := by
  obtain ⟨old, cur, hrec, hold, hcur, hring⟩ := h.ring
  have hself : ∀ k, (cur.drop k).filter (fun e => e.era = s.closings) = cur.drop k := fun k =>
    List.filter_eq_self.mpr fun e he => by simpa using hcur e (List.mem_of_mem_drop he)
  have hgone : ∀ k, (old.drop k).filter (fun e => e.era = s.closings) = [] := fun k =>
    List.filter_eq_nil_iff.mpr fun e he => by
      have := hold e (List.mem_of_mem_drop he)
      simp only [decide_eq_true_eq]
      omega
  rw [hring, hrec, List.drop_append, List.filter_append, hgone, hself, List.nil_append]
  unfold lastN
  rw [List.length_map, List.length_append, ← List.map_drop]
  congr 2
  omega

/-! ## What a turn shows -/

section

variable (name : Str)

/-- The lines numbered from `after` on and below `upto` that the ring still holds, without
    the agent's own when the session goes on with its history. -/
def shown (recorded : List Entry) (after : Nat) (t : Turn) : List Line :=
  (((recorded.take t.upto).drop (max after (t.upto - chatLines))).filter fun e =>
    e.era = t.era && (!t.resumed || e.line.agent ≠ name)).map (·.line)

/-- More lines do not change what was shown. -/
theorem shown_append {recorded : List Entry} {t : Turn} (h : t.upto ≤ recorded.length) (after : Nat) (more : List Entry) :
    shown name (recorded ++ more) after t = shown name recorded after t := by
  unfold shown
  rw [List.take_append_of_le_length h]

/-- The lines are numbered from one. -/
def Numbered (recorded : List Entry) : Prop := ∀ i e, recorded[i]? = some e → e.line.seq = i + 1

theorem mem_drop_iff {recorded : List Entry} {k : Nat} {e : Entry} : e ∈ recorded.drop k ↔ ∃ i, k ≤ i ∧ recorded[i]? = some e := by
  rw [List.mem_iff_getElem?]
  constructor
  · rintro ⟨i, hi⟩
    exact ⟨k + i, by omega, by rw [← hi, List.getElem?_drop]⟩
  · rintro ⟨i, hk, hi⟩
    exact ⟨i - k, by rw [List.getElem?_drop, show k + (i - k) = i by omega, hi]⟩

theorem numbered {s : St} (h : LinesOk s) (hseq : s.recorded.length < uintMax) : Numbered s.recorded := by
  intro i e hi
  have hlt := (List.getElem?_eq_some_iff.mp hi).1
  rw [(h.numbered i e hi).1]
  exact Nat.mod_eq_of_lt (by omega)

/-- Numbers from `k` on. -/
theorem filter_seq {recorded : List Entry} (hnum : Numbered recorded) (k m : Nat) :
    (recorded.drop m).filter (fun e => k < e.line.seq) = recorded.drop (max k m) := by
  have hsplit : recorded.drop m = (recorded.drop m).take (k - m) ++ recorded.drop (max k m) := by
    conv_lhs => rw [← List.take_append_drop (k - m) (recorded.drop m)]
    rw [List.drop_drop, show m + (k - m) = max k m by omega]
  have hlow : ((recorded.drop m).take (k - m)).filter (fun e => k < e.line.seq) = [] := by
    refine List.filter_eq_nil_iff.mpr fun e he => ?_
    obtain ⟨i, hi⟩ := List.mem_iff_getElem?.mp he
    have hlt : i < k - m := by
      have := (List.getElem?_eq_some_iff.mp hi).1
      rw [List.length_take] at this
      omega
    rw [List.getElem?_take_of_lt hlt, List.getElem?_drop] at hi
    have := hnum _ _ hi
    simp only [decide_eq_true_eq]
    omega
  have hhigh : (recorded.drop (max k m)).filter (fun e => k < e.line.seq) = recorded.drop (max k m) := by
    refine List.filter_eq_self.mpr fun e he => ?_
    obtain ⟨i, hle, hi⟩ := mem_drop_iff.mp he
    have := hnum _ _ hi
    simp only [decide_eq_true_eq]
    omega
  rw [hsplit, List.filter_append, hlow, hhigh, List.nil_append]

theorem mem_shown {recorded : List Entry} {after : Nat} {t : Turn} {l : Line} : l ∈ shown name recorded after t ↔
    ∃ i e, recorded[i]? = some e ∧ e.line = l ∧ after ≤ i ∧ t.upto ≤ i + chatLines ∧ i < t.upto ∧ e.era = t.era ∧
      (t.resumed = true → e.line.agent ≠ name) := by
  unfold shown
  simp only [List.mem_map, List.mem_filter, mem_drop_iff, Bool.and_eq_true, Bool.or_eq_true, Bool.not_eq_true',
    decide_eq_true_eq]
  constructor
  · rintro ⟨e, ⟨⟨i, hle, hi⟩, hera, hown⟩, hl⟩
    have hlt : i < t.upto := by
      have := (List.getElem?_eq_some_iff.mp hi).1
      rw [List.length_take] at this
      omega
    rw [List.getElem?_take_of_lt hlt] at hi
    refine ⟨i, e, hi, hl, by omega, by omega, hlt, hera, fun hres => ?_⟩
    rcases hown with hno | hne
    · rw [hres] at hno
      cases hno
    · exact hne
  · rintro ⟨i, e, hi, hl, hafter, hnew, hlt, hera, hown⟩
    refine ⟨e, ⟨⟨i, by omega, by rw [List.getElem?_take_of_lt hlt, hi]⟩, hera, ?_⟩, hl⟩
    cases hres : t.resumed with
    | false => exact Or.inl rfl
    | true => exact Or.inr (hown hres)

theorem numbered_sorted {recorded : List Entry} (hnum : Numbered recorded) : (recorded.map (·.line)).Pairwise (·.seq < ·.seq) := by
  rw [List.pairwise_map]
  refine List.pairwise_iff_getElem.mpr fun i j hi hj hij => ?_
  rw [hnum i _ (List.getElem?_eq_getElem hi), hnum j _ (List.getElem?_eq_getElem hj)]
  omega

theorem shown_sublist (recorded : List Entry) (after : Nat) (t : Turn) :
    (shown name recorded after t).Sublist (((recorded.take t.upto).drop after).map (·.line)) := by
  unfold shown
  refine List.Sublist.map _ (List.filter_sublist.trans ?_)
  rw [show max after (t.upto - chatLines) = after + (max after (t.upto - chatLines) - after) by omega, ← List.drop_drop]
  exact List.drop_sublist _ _

/-- A turn and the one before it: one that goes on starts where the other ended. -/
def Follows (recorded : List Entry) (t t' : Turn) : Prop :=
  t.upto ≤ t'.upto ∧ t'.upto ≤ recorded.length ∧ (t'.resumed = true → t'.lines = shown name recorded t.upto t')

theorem Follows.append {recorded : List Entry} {t t' : Turn} (h : Follows name recorded t t') (more : List Entry) :
    Follows name (recorded ++ more) t t' := by
  refine ⟨h.1, ?_, ?_⟩
  · rw [List.length_append]
    exact Nat.le_add_right_of_le h.2.1
  · rw [shown_append name h.2.1]
    exact h.2.2

/-- What resumed turns show, one after the other, are lines behind the first, in their order. -/
theorem shown_behind {recorded : List Entry} {first : Turn} {rest : List Turn}
    (hchain : (first :: rest).IsChain (Follows name recorded)) (hres : ∀ t ∈ rest, t.resumed = true) :
    (rest.flatMap (·.lines)).Sublist ((recorded.drop first.upto).map (·.line)) := by
  induction rest generalizing first with
  | nil => exact List.nil_sublist _
  | cons t rest ih =>
    obtain ⟨⟨hle, -, hlines⟩, hrest⟩ := List.isChain_cons_cons.mp hchain
    have hsplit : recorded.drop first.upto = (recorded.take t.upto).drop first.upto ++ recorded.drop t.upto := by
      rw [List.drop_take, show recorded.drop t.upto = (recorded.drop first.upto).drop (t.upto - first.upto) by
        rw [List.drop_drop, Nat.add_sub_cancel' hle], List.take_append_drop]
    rw [List.flatMap_cons, hsplit, List.map_append, hlines (hres t List.mem_cons_self)]
    exact (shown_sublist name recorded first.upto t).append (ih hrest fun u hu => hres u (List.mem_cons_of_mem _ hu))

theorem behind_seq {recorded : List Entry} (hnum : Numbered recorded) {k : Nat} {l : Line}
    (h : l ∈ (recorded.drop k).map (·.line)) : k < l.seq := by
  obtain ⟨e, he, rfl⟩ := List.mem_map.mp h
  obtain ⟨i, hk, hi⟩ := mem_drop_iff.mp he
  have := hnum i e hi
  omega

/-- The first turn behind a line shows it, unless the ring lost it, and no other does. -/
theorem shown_next {recorded : List Entry} (hnum : Numbered recorded) {i : Nat} {e : Entry} (hi : recorded[i]? = some e)
    (hother : e.line.agent ≠ name) {first : Turn} {rest : List Turn} (hchain : (first :: rest).IsChain (Follows name recorded))
    (hres : ∀ t ∈ rest, t.resumed = true) (hfirst : first.upto ≤ i) (hlast : ∃ u ∈ rest, i < u.upto) :
    ∃ pre t post, rest = pre ++ t :: post ∧ (∀ u ∈ pre, u.upto ≤ i) ∧ i < t.upto ∧
      e.line ∉ (pre ++ post).flatMap (·.lines) ∧ (e.line ∈ t.lines ↔ t.upto ≤ i + chatLines ∧ e.era = t.era) := by
  induction rest generalizing first with
  | nil =>
    obtain ⟨u, hu, -⟩ := hlast
    cases hu
  | cons t rest ih =>
    obtain ⟨⟨hle, -, hlines⟩, hrest⟩ := List.isChain_cons_cons.mp hchain
    have hbehind := shown_behind name hrest fun u hu => hres u (List.mem_cons_of_mem _ hu)
    -- the line is shown here exactly when it is numbered here and not lost
    have hmem : e.line ∈ t.lines ↔ i < t.upto ∧ t.upto ≤ i + chatLines ∧ e.era = t.era := by
      rw [hlines (hres t List.mem_cons_self), mem_shown]
      constructor
      · rintro ⟨j, x, hj, hline, -, hnew, hlt, hera, -⟩
        have h1 := hnum j x hj
        have h2 := hnum i e hi
        obtain rfl : j = i := by rw [hline] at h1; omega
        rw [hi] at hj
        cases hj
        exact ⟨hlt, hnew, hera⟩
      · rintro ⟨hlt, hnew, hera⟩
        exact ⟨i, e, hi, rfl, hfirst, hnew, hlt, hera, fun _ => hother⟩
    by_cases hlt : i < t.upto
    · refine ⟨[], t, rest, rfl, nofun, hlt, fun hin => ?_, ?_⟩
      · have h1 := behind_seq hnum (hbehind.subset hin)
        have h2 := hnum i e hi
        omega
      · rw [hmem]
        exact and_iff_right hlt
    · obtain ⟨u, hu, hupto⟩ := hlast
      have hin : u ∈ rest := by
        rcases List.mem_cons.mp hu with rfl | hu
        · exact absurd hupto hlt
        · exact hu
      obtain ⟨pre, v, post, hsplit, hpre, hv, hno, hiff⟩ := ih hrest (fun u hu => hres u (List.mem_cons_of_mem _ hu))
        (by omega) ⟨u, hin, hupto⟩
      refine ⟨t :: pre, v, post, by rw [hsplit]; rfl, ?_, hv, ?_, hiff⟩
      · intro w hw
        rcases List.mem_cons.mp hw with rfl | hw
        · omega
        · exact hpre w hw
      · rw [List.cons_append, List.flatMap_cons, List.mem_append, hmem]
        rintro (⟨hlt', -⟩ | hin)
        · exact hlt hlt'
        · exact hno hin

/-- What `chat_render` gives a turn. -/
theorem linesAfter_shown {s : St} (h : LinesOk s) (hseq : s.recorded.length < uintMax) (after : Nat) {t : Turn}
    (hupto : t.upto = s.recorded.length) (hera : t.era = s.closings) {skip : Option Str}
    (hskip : skip = if t.resumed then some name else none) : linesAfter s.log after skip = shown name s.recorded after t := by
  unfold linesAfter shown
  rw [contents_eq h, hupto, List.take_length, ← filter_seq (numbered h hseq), List.filter_map, List.filter_filter, List.filter_filter]
  congr 1
  refine List.filter_congr fun e _ => ?_
  rw [hskip, hera]
  cases t.resumed
  · simp [Function.comp, Bool.and_comm]
  · simp only [Function.comp, Bool.not_true, Bool.false_or, if_true, ne_eq, Option.some.injEq, decide_not, eq_comm (a := name)]
    rw [Bool.and_comm (decide (after < e.line.seq)), Bool.and_right_comm, Bool.and_comm (!_)]

end

/-! ## Runs -/

section

variable (J : CJson) (A : Config) (Z : Zone) (idle : Idle)

/-- The history kept, and the session that runs, hold the number at which the log was last rendered. -/
def CursorOk (s : St) : Prop :=
  match s.phase with
  | .running W => ∃ t, s.turns.getLast? = some t ∧ W.seq = t.upto % uintMax
  | _ => ∀ c ∈ s.conv, ∃ t, s.turns.getLast? = some t ∧ c.seq = t.upto % uintMax

structure HeardOk (s : St) : Prop where
  lines : LinesOk s
  turn : ∀ t ∈ s.turns, t.upto ≤ s.recorded.length ∧
    t.channel = if t.lines = [] then [] else chatHeader (t.lines.flatMap fun l => l.text ++ lit "\n")
  cursor : CursorOk s
  chain : s.recorded.length < uintMax → s.turns.IsChain (Follows A.name s.recorded)
  rendered : s.recorded.length < uintMax → ∀ t ∈ s.turns, ∃ after, t.lines = shown A.name s.recorded after t ∧
    (t.resumed = false → after = 0)

/-- A step that renders nothing. -/
theorem HeardOk.frame {s s' : St} (h : HeardOk A s) (hlines : LinesOk s') {more : List Entry}
    (hrec : s'.recorded = s.recorded ++ more) (hturns : s'.turns = s.turns) (hcursor : CursorOk s') : HeardOk A s' := by
  refine ⟨hlines, fun t ht => ?_, hcursor, fun hlt => ?_, fun hlt t ht => ?_⟩
  · rw [hturns] at ht
    rw [hrec, List.length_append]
    exact ⟨Nat.le_add_right_of_le (h.turn t ht).1, (h.turn t ht).2⟩
  · rw [hrec, List.length_append] at hlt
    rw [hrec, hturns]
    exact (h.chain (by omega)).imp fun _ _ hf => hf.append A.name more
  · rw [hturns] at ht
    rw [hrec, List.length_append] at hlt
    obtain ⟨after, hshown, hfresh⟩ := h.rendered (by omega) t ht
    exact ⟨after, by rw [hrec, shown_append A.name (h.turn t ht).1, hshown], hfresh⟩

theorem render_heard {s : St} (h : HeardOk A s) {W : World} (hphase : s.phase = .started W) (pre post : Str) {s' : St}
    (hs : step J A Z idle s (.render pre post) = some s') : HeardOk A s' := by
  have hcur := h.cursor
  unfold CursorOk at hcur
  rw [hphase] at hcur
  simp only [step, hphase, Option.some.injEq] at hs
  subst hs
  have hkept : ∀ c, resumed J A W s.conv = some c → ∃ t, s.turns.getLast? = some t ∧ c.seq = t.upto % uintMax := by
    intro c hc
    unfold resumed at hc
    split at hc
    · exact hcur c (Option.filter_eq_some_iff.mp hc).1
    · cases hc
  refine ⟨⟨h.lines.ring, h.lines.seq, h.lines.numbered⟩, fun t ht => ?_, ?_, fun hlt => ?_, fun hlt t ht => ?_⟩
  · rcases List.mem_append.mp ht with ht | ht
    · exact h.turn t ht
    · rw [List.mem_singleton.mp ht]
      refine ⟨Nat.le_refl _, channel_whole (fun l hl => ?_) _ _⟩
      rw [contents_eq h.lines] at hl
      obtain ⟨e, he, rfl⟩ := List.mem_map.mp hl
      obtain ⟨i, -, hi⟩ := mem_drop_iff.mp (List.mem_of_mem_filter he)
      exact (h.lines.numbered i e hi).2
  · exact ⟨_, List.getLast?_concat, h.lines.seq⟩
  · refine List.isChain_append.mpr ⟨h.chain hlt, .singleton _, fun t ht u hu => ?_⟩
    cases hu
    have hle := (h.turn t (List.mem_of_getLast? ht)).1
    refine ⟨hle, Nat.le_refl _, fun hres => ?_⟩
    dsimp only at hres ⊢
    cases hc : resumed J A W s.conv with
    | none =>
      rw [hc] at hres
      cases hres
    | some c =>
      obtain ⟨u, hu, hseq⟩ := hkept c hc
      rw [hu] at ht
      cases ht
      rw [Nat.mod_eq_of_lt (Nat.lt_of_le_of_lt hle hlt)] at hseq
      simp only [Option.map_some, Option.getD_some, Option.isSome_some, hseq]
      exact linesAfter_shown A.name h.lines hlt _ rfl rfl rfl
  · rcases List.mem_append.mp ht with ht | ht
    · exact h.rendered hlt t ht
    · rw [List.mem_singleton.mp ht]
      cases resumed J A W s.conv with
      | none => exact ⟨0, linesAfter_shown A.name h.lines hlt 0 rfl rfl rfl, fun _ => rfl⟩
      | some c => exact ⟨c.seq, linesAfter_shown A.name h.lines hlt c.seq rfl rfl rfl, fun hno => by cases hno⟩

theorem step_heard {s s' : St} {e : Ev} (hi : Inv idle J A s) (h : HeardOk A s) (hs : step J A Z idle s e = some s') :
    HeardOk A s' := by
  have hcur := h.cursor
  cases e with
  | tick d =>
    cases hs
    exact h.frame A ⟨h.lines.ring, h.lines.seq, h.lines.numbered⟩ (List.append_nil _).symm rfl hcur
  | add t agent who text =>
    simp only [step] at hs
    split at hs
    · cases hs
    split at hs
    · cases hs
      exact h
    · rename_i htext
      cases hs
      exact h.frame A (linesOk_add idle h.lines Z t agent who htext) rfl rfl hcur
  | touch =>
    cases hs
    exact h.frame A (linesOk_access idle h.lines) (List.append_nil _).symm rfl hcur
  | start W =>
    simp only [step] at hs
    split at hs
    · rename_i hphase
      split at hs
      · cases hs
        have hlines := linesOk_access idle h.lines
        unfold CursorOk at hcur
        rw [hphase] at hcur
        exact h.frame A ⟨hlines.ring, hlines.seq, hlines.numbered⟩ (List.append_nil _).symm rfl hcur
      · cases hs
    · cases hs
  | render pre post =>
    cases hphase : s.phase with
    | started W => exact render_heard J A Z idle h hphase pre post hs
    | free =>
      simp only [step, hphase] at hs
      cases hs
    | running W =>
      simp only [step, hphase] at hs
      cases hs
  | finish =>
    simp only [step] at hs
    split at hs
    · rename_i W hphase
      cases hs
      have htalk := hi.conv
      unfold ConvOk at htalk
      unfold CursorOk at hcur
      rw [hphase] at htalk hcur
      refine h.frame A ⟨h.lines.ring, h.lines.seq, h.lines.numbered⟩ (List.append_nil _).symm rfl fun c hc => ?_
      rw [((runSession_conv J A W s.conv).2 htalk.1 c hc).2]
      exact hcur
    · cases hs
  | other W =>
    simp only [step] at hs
    split at hs
    · rename_i hphase
      split at hs
      · cases hs
      · rename_i htalk
        cases hs
        refine h.frame A ⟨h.lines.ring, h.lines.seq, h.lines.numbered⟩ (List.append_nil _).symm rfl ?_
        unfold CursorOk at hcur ⊢
        rw [hphase] at hcur
        simp only [hphase, (runSession_conv J A W s.conv).1 (by simpa using htalk)]
        exact hcur
    · cases hs

theorem reach_heard {s : St} (h : (conversation J A Z idle).Reach (fun _ _ => True) s) : HeardOk A s := by
  refine h.invariant_of (I := HeardOk A) (fun s hr => reach_inv idle J A Z hr) ⟨⟨⟨[], [], rfl, nofun, nofun, rfl⟩, rfl, nofun⟩,
    nofun, nofun, fun _ => .nil, fun _ => nofun⟩ fun s e s' hi hh _ hs => step_heard J A Z idle hi hh hs

/-- Sessions each of which goes on with the one before it, from one that started afresh: a line
    another agent recorded after the first rendered the log, and before the last, is shown
    once, by the next session to render the log, and only there; or not at all, exactly when
    twenty newer lines were recorded by then or its conversation was closed. Lines are shown
    in the order recorded, none of the agent's own in a session that goes on, and the turn
    holds them whole. Line numbers, `unsigned`, have not wrapped. -/
theorem heard_once {s : St} (h : (conversation J A Z idle).Reach (fun _ _ => True) s) (hseq : s.recorded.length < uintMax)
    {before rest after : List Turn} {first : Turn} (hturns : s.turns = before ++ first :: rest ++ after)
    (hfirst : first.resumed = false) (hrest : ∀ t ∈ rest, t.resumed = true) :
    (∀ i e, s.recorded[i]? = some e → first.upto ≤ i → (∃ u ∈ rest, i < u.upto) → e.line.agent ≠ A.name →
      ∃ pre t post, rest = pre ++ t :: post ∧ (∀ u ∈ pre, u.upto ≤ i) ∧ i < t.upto ∧
        (first.lines ++ (pre ++ post).flatMap (·.lines)).count e.line = 0 ∧
        t.lines.count e.line = if t.upto ≤ i + chatLines ∧ e.era = t.era then 1 else 0) ∧
    ((first :: rest).flatMap (·.lines)).Sublist (s.recorded.map (·.line)) ∧
    (∀ t ∈ rest, ∀ l ∈ t.lines, l.agent ≠ A.name) ∧
    ∀ t ∈ first :: rest, t.channel = if t.lines = [] then [] else chatHeader (t.lines.flatMap fun l => l.text ++ lit "\n") := by
  have hh := reach_heard J A Z idle h
  have hin : ∀ t ∈ first :: rest, t ∈ s.turns := by
    intro t ht
    rw [hturns]
    exact List.mem_append_left _ (List.mem_append_right _ ht)
  have hchain : (first :: rest).IsChain (Follows A.name s.recorded) := by
    have := hh.chain hseq
    rw [hturns] at this
    exact this.left_of_append.right_of_append
  have hnum := numbered hh.lines hseq
  have hlines : first.lines = shown A.name s.recorded 0 first := by
    obtain ⟨after, hshown, hfresh⟩ := hh.rendered hseq first (hin first List.mem_cons_self)
    rwa [hfresh hfirst] at hshown
  have hfront : first.lines.Sublist ((s.recorded.take first.upto).map (·.line)) := by
    rw [hlines]
    exact shown_sublist A.name s.recorded 0 first
  have hall : ((first :: rest).flatMap (·.lines)).Sublist (s.recorded.map (·.line)) := by
    conv_rhs => rw [← List.take_append_drop first.upto s.recorded, List.map_append]
    exact hfront.append (shown_behind A.name hchain hrest)
  refine ⟨fun i e hi hafter hlast hother => ?_, hall, fun t ht l hl => ?_, fun t ht => (hh.turn t (hin t ht)).2⟩
  · obtain ⟨pre, t, post, hsplit, hpre, hlt, hno, hiff⟩ := shown_next A.name hnum hi hother hchain hrest hafter hlast
    refine ⟨pre, t, post, hsplit, hpre, hlt, List.count_eq_zero.mpr fun hmem => ?_, ?_⟩
    · rcases List.mem_append.mp hmem with hmem | hmem
      · -- the first session's lines were there before
        obtain ⟨x, hx, hline⟩ := List.mem_map.mp (hfront.subset hmem)
        obtain ⟨j, hj, hget⟩ := List.mem_take_iff_getElem.mp hx
        have h1 := hnum i e hi
        have h2 := hnum j x (by rw [List.getElem?_eq_getElem (by omega), hget])
        rw [hline] at h2
        omega
      · exact hno hmem
    · have hsub : t.lines.Sublist (s.recorded.map (·.line)) := by
        refine (List.Sublist.trans ?_ hall)
        rw [hsplit, List.flatMap_cons, List.flatMap_append, List.flatMap_cons]
        exact ((List.sublist_append_left _ _).trans (List.sublist_append_right _ _)).trans (List.sublist_append_right _ _)
      have hnodup : t.lines.Nodup := ((numbered_sorted hnum).sublist hsub).imp fun hlt heq => by
        rw [heq] at hlt
        exact Nat.lt_irrefl _ hlt
      rw [hnodup.count]
      exact if_congr hiff rfl rfl
  · obtain ⟨after, hshown, -⟩ := hh.rendered hseq t (hin t (List.mem_cons_of_mem _ ht))
    rw [hshown] at hl
    obtain ⟨i, e, -, rfl, -, -, -, -, hother⟩ := (mem_shown A.name).mp hl
    exact hother (hrest t ht)

end

/-- Another agent speaks while the first session runs; the second goes on with it. -/
def overheard : List Ev :=
  [.start recallThenText, .render [] [], .tick 5, .add 5 (lit "bob") (lit "bob") (lit "built"), .finish, .tick 30,
   .start recallThenText, .render [] []]

theorem heard_once_overheard : ∃ s first t e, (conversation CJson.compact ada Zone.utc minute).Reach (fun _ _ => True) s ∧
    s.turns = [first, t] ∧ s.recorded = [e] ∧ e.line.agent = lit "bob" ∧ first.lines.count e.line = 0 ∧
    t.lines.count e.line = 1 := by
  have hrun : ((conversation CJson.compact ada Zone.utc minute).replay (fun _ _ => True)
      (conversation CJson.compact ada Zone.utc minute).init overheard).map (fun s =>
        (s.turns.map fun t => (t.resumed, t.upto, t.era), s.recorded.map fun e => (e.line.agent, e.era))) =
      some ([(false, 0, 0), (true, 1, 0)], [(lit "bob", 0)]) := by decide +kernel
  obtain ⟨s, hs, heq⟩ := Option.map_eq_some_iff.mp hrun
  obtain ⟨hturns, hrec⟩ := Prod.mk.inj heq
  have hreach := System.Reach.init.replay hs
  obtain ⟨first, rest, hcons, hfirst, hrest⟩ := List.map_eq_cons_iff.mp hturns
  obtain ⟨t, nothing, rfl, ht, hnothing⟩ := List.map_eq_cons_iff.mp hrest
  obtain rfl := List.map_eq_nil_iff.mp hnothing
  obtain ⟨e, none, hone, he, hnone⟩ := List.map_eq_cons_iff.mp hrec
  obtain rfl := List.map_eq_nil_iff.mp hnone
  simp only [Prod.mk.injEq] at hfirst ht he
  obtain ⟨hfresh, hupto, -⟩ := hfirst
  obtain ⟨hres, hupto', hera⟩ := ht
  have hall := heard_once CJson.compact ada Zone.utc minute hreach (by rw [hone]; exact Nat.one_lt_two_pow (by decide))
    (show s.turns = [] ++ first :: [t] ++ [] by rw [hcons]; rfl) hfresh fun u hu => by rw [List.mem_singleton.mp hu, hres]
  obtain ⟨pre, u, post, hsplit, -, -, hno, hcount⟩ := hall.1 0 e (by rw [hone]; rfl) (by omega)
    ⟨t, List.mem_singleton_self t, by omega⟩ (by rw [he.1]; decide)
  cases pre with
  | cons _ pre => simp at hsplit
  | nil =>
    cases hsplit
    rw [if_pos ⟨by rw [hupto']; decide, by rw [he.2, hera]⟩] at hcount
    exact ⟨s, first, t, e, hreach, hcons, hone, he.1, by simpa using hno, hcount⟩

end Shclaw.Chat
