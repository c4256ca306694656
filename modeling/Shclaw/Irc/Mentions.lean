/-
  Shclaw.Irc.Mentions — who gets which text of a message (`src/irc_parse.c`:
  `parse_mentions`).

  `mentionsOf` and `routed` say what is wanted: the mentions by where they stand, and
  for each of them the first text at or after it. `parse_mentions` keeps an index of
  the mentions still without a text, but looks at no more mentions than `out` has room
  for: `routed_iff` says when that is enough. It is not when the last of them has to
  borrow a text from behind it (`pending_dropped`).
-/

import Mathlib.Data.List.GetD
import Shclaw.Irc.Parse

namespace Shclaw.Irc

open Lib

/-! ## The mentions -/

/-- `name:` or `name,` at the start. -/
def leading (agents : List Str) (msg : Str) : Option Mark :=
  let word := firstWord msg
  let next := byte msg word.length
  if word ≠ [] ∧ (next = ch ':' ∨ next = ch ',') then
    (namedBy agents word).map fun name => ⟨0, word.length, cut 32 name⟩
  else none

/-- `@name` at `p`. -/
def mentionAt (agents : List Str) (msg : Str) (p : Nat) : Option Mark :=
  if byte msg p = ch '@' ∧ ¬ (0 < p ∧ isWordChar (byte msg (p - 1)) = true) then
    let word := firstWord (msg.drop (p + 1))
    (namedBy agents word).map fun name => ⟨p, p + 1 + word.length, cut 32 name⟩
  else none

def mentionsOf (agents : List Str) (msg : Str) : List Mark :=
  (leading agents msg).toList ++ (List.range msg.length).filterMap (mentionAt agents msg)

/-- The mentions from `p` on. -/
def mentionsFrom (agents : List Str) (msg : Str) (p : Nat) : List Mark :=
  (List.range' p (msg.length - p)).filterMap (mentionAt agents msg)

/-- No word has an `@`. -/
theorem firstWord_at {s : Str} {i : Nat} (hi : i < (firstWord s).length) : byte s i ≠ ch '@' := by
  intro h
  have hmem : byte s i ∈ firstWord s := by
    rw [byte, List.getD_eq_getElem _ _ (Nat.lt_of_lt_of_le hi (List.takeWhile_prefix _).length_le),
      ← (List.takeWhile_prefix _).getElem hi]
    exact List.getElem_mem hi
  rw [h] at hmem
  have := List.all_eq_true.mp List.all_takeWhile _ hmem
  exact absurd this (by decide)

/-- Positions without an `@` have no mention. -/
theorem mentionsFrom_skip {agents : List Str} {msg : Str} {p n : Nat} (hn : p + n ≤ msg.length)
    (h : ∀ i < n, byte msg (p + i) ≠ ch '@') : mentionsFrom agents msg p = mentionsFrom agents msg (p + n) := by
  have hsplit : msg.length - p = n + (msg.length - (p + n)) := by omega
  have hnone : (List.range' p n).filterMap (mentionAt agents msg) = [] := by
    rw [List.filterMap_eq_nil_iff]
    intro q hq
    rw [List.mem_range'_1] at hq
    rw [mentionAt, if_neg]
    rintro ⟨hat, -⟩
    refine h (q - p) (by omega) ?_
    rw [show p + (q - p) = q by omega]
    exact hat
  rw [mentionsFrom, hsplit, ← List.range'_append_1, List.filterMap_append, hnone, List.nil_append, mentionsFrom]

theorem mentionsFrom_cons {agents : List Str} {msg : Str} {p : Nat} (hp : p < msg.length) :
    mentionsFrom agents msg p = (mentionAt agents msg p).toList ++ mentionsFrom agents msg (p + 1) := by
  rw [mentionsFrom, show msg.length - p = msg.length - (p + 1) + 1 by omega, List.range'_succ, List.filterMap_cons,
    mentionsFrom]
  cases mentionAt agents msg p <;> rfl

theorem firstWord_end (msg : Str) (p : Nat) : p + (firstWord (msg.drop p)).length ≤ max p msg.length := by
  have := (List.takeWhile_prefix (!endsWord ·) (l := msg.drop p)).length_le
  rw [List.length_drop] at this
  unfold firstWord
  omega

theorem mentionsFrom_end {agents : List Str} {msg : Str} {p : Nat} (h : msg.length ≤ p) :
    mentionsFrom agents msg p = [] := by
  rw [mentionsFrom, Nat.sub_eq_zero_of_le h]
  rfl

/-- The scan finds the mentions, up to sixteen. -/
theorem scan_eq (agents : List Str) (msg : Str) {n p : Nat} {marks : List Mark} (hn : msg.length - p ≤ n)
    (hmarks : marks.length ≤ 16) : scan agents msg n p marks = (marks ++ mentionsFrom agents msg p).take 16 := by
  induction n generalizing p marks with
  | zero => rw [scan, mentionsFrom_end (by omega), List.append_nil, List.take_of_length_le hmarks]
  | succ n ih =>
    rw [scan]
    by_cases hp : msg.length ≤ p
    · rw [if_pos (.inl hp), mentionsFrom_end hp, List.append_nil, List.take_of_length_le hmarks]
    by_cases hfull : 16 ≤ marks.length
    · rw [if_pos (.inr hfull), List.take_append_of_le_length hfull, List.take_of_length_le hmarks]
    rw [if_neg (by omega), mentionsFrom_cons (by omega), mentionAt]
    by_cases hat : byte msg p ≠ ch '@' ∨ 0 < p ∧ isWordChar (byte msg (p - 1)) = true
    · rw [if_pos hat, if_neg fun h => hat.elim (· h.1) h.2]
      exact ih (by omega) hmarks
    · rw [if_neg hat, if_pos (by rwa [not_or, not_not] at hat)]
      simp only
      cases namedBy agents (firstWord (msg.drop (p + 1))) with
      | none => exact ih (by omega) hmarks
      | some name =>
        have hend := firstWord_end msg (p + 1)
        have hskip := @mentionsFrom_skip agents msg (p + 1)
          (firstWord (msg.drop (p + 1))).length (by omega)
          (fun i hi => byte_drop msg (p + 1) i ▸ firstWord_at hi)
        rw [hskip]
        simp only [Option.map_some, Option.toList_some]
        rw [ih (by omega) (by rw [List.length_append, List.length_singleton]; omega), List.append_assoc]

theorem marksOf_eq (agents : List Str) (msg : Str) : marksOf agents msg = (mentionsOf agents msg).take 16 := by
  have hall : (List.range msg.length).filterMap (mentionAt agents msg) = mentionsFrom agents msg 0 := by
    rw [mentionsFrom, List.range_eq_range', Nat.sub_zero]
  rw [mentionsOf, hall, marksOf, leading]
  by_cases hword : firstWord msg ≠ [] ∧
      (byte msg (firstWord msg).length = ch ':' ∨ byte msg (firstWord msg).length = ch ',')
  · simp only [if_pos hword]
    cases namedBy agents (firstWord msg) with
    | none => exact scan_eq agents msg (Nat.sub_le _ _) (Nat.zero_le _)
    | some name =>
      have hend := firstWord_end msg 0
      rw [List.drop_zero] at hend
      have hskip := @mentionsFrom_skip agents msg 0 (firstWord msg).length (by omega)
        (fun i hi => (Nat.zero_add i).symm ▸ firstWord_at hi)
      rw [Nat.zero_add] at hskip
      rw [hskip]
      exact scan_eq agents msg (Nat.sub_le _ _) (Nat.le_add_left 1 15)
  · simp only [if_neg hword]
    exact scan_eq agents msg (Nat.sub_le _ _) (Nat.zero_le _)

/-! ## Who gets which text -/

/-- `set_text` without its limit. -/
def trim (s : Str) : Str :=
  let s := s.dropWhile fun c => c = ch ' ' || c = ch '\t' || c = ch ':' || c = ch ','
  (s.reverse.dropWhile fun c => c = ch ' ' || c = ch '\t').reverse

theorem setText_eq {s : Str} (h : s.length < lineMax) : setText s = trim s := by
  have hleft := (List.dropWhile_suffix (fun c => c = ch ' ' || c = ch '\t' || c = ch ':' || c = ch ',') (l := s)).length_le
  have hright := (List.dropWhile_suffix (fun c => c = ch ' ' || c = ch '\t')
    (l := (s.dropWhile fun c => c = ch ' ' || c = ch '\t' || c = ch ':' || c = ch ',').reverse)).length_le
  rw [List.length_reverse] at hright
  apply List.take_of_length_le
  rw [List.length_reverse]
  omega

/-- A segment runs to the next mention. -/
def segment (msg : Str) (m : Mark) (rest : List Mark) : Str :=
  let stop := (rest.head?.map (·.start)).getD msg.length
  (msg.drop m.stop).take (stop - m.stop)

/-- Each mention and its own text. -/
def texts (msg : Str) : List Mark → List (Str × Str)
  | [] => []
  | m :: rest => (m.name, trim (segment msg m rest)) :: texts msg rest

/-- The first text that is there. -/
def nextText (ps : List (Str × Str)) : Option Str := (ps.find? fun p => p.2 ≠ []).map (·.2)

/-- Each mention with the first text at or after it. -/
def assign : List (Str × Str) → List Mention
  | [] => []
  | p :: rest =>
    match nextText (p :: rest) with
    | some text => ⟨p.1, text⟩ :: assign rest
    | none => assign rest

/-- The text before the first mention goes to the hub. -/
def forHub (hub msg : Str) (marks : List Mark) : List Mention :=
  match marks with
  | [] => []
  | m :: _ => if trim (msg.take m.start) ≠ [] then [⟨cut 32 hub, trim (msg.take m.start)⟩] else []

/-- What is wanted of a message with these mentions. -/
def routed (agents : List Str) (hub : Str) (max : Nat) (msg : Str) : List Mention :=
  let marks := mentionsOf agents msg
  (forHub hub msg marks ++ assign (texts msg marks)).take max

/-! ## Borrowed texts -/

theorem nextText_cons (p : Str × Str) (ps : List (Str × Str)) :
    nextText (p :: ps) = if p.2 ≠ [] then some p.2 else nextText ps := by
  unfold nextText
  by_cases h : p.2 = []
  · rw [List.find?_cons_of_neg (by simpa using h), if_neg (not_not.mpr h)]
  · rw [List.find?_cons_of_pos (by simpa using h), if_pos h]
    rfl

theorem length_assign_le (ps : List (Str × Str)) : (assign ps).length ≤ ps.length := by
  induction ps with
  | nil => exact Nat.le_refl 0
  | cons p ps ih =>
    rw [assign]
    split
    · exact Nat.succ_le_succ ih
    · exact Nat.le_succ_of_le ih

theorem nextText_blank {ps : List (Str × Str)} (h : ∀ p ∈ ps, p.2 = []) : nextText ps = none := by
  induction ps with
  | nil => rfl
  | cons p ps ih =>
    rw [nextText_cons, if_neg (not_not.mpr (h p List.mem_cons_self)), ih fun q hq => h q (List.mem_cons_of_mem _ hq)]

theorem nextText_append (xs ys : List (Str × Str)) : nextText (xs ++ ys) = (nextText xs).or (nextText ys) := by
  unfold nextText
  rw [List.find?_append]
  cases xs.find? fun p => decide (p.2 ≠ []) <;> rfl

/-- Mentions without a text behind the last text are dropped. -/
theorem assign_append_blank (xs : List (Str × Str)) {ys : List (Str × Str)} (h : ∀ p ∈ ys, p.2 = []) :
    assign (xs ++ ys) = assign xs := by
  induction xs with
  | nil =>
    induction ys with
    | nil => rfl
    | cons y ys ih =>
      rw [List.nil_append, assign.eq_def (y :: ys)]
      simp only [nextText_blank h]
      exact ih fun p hp => h p (List.mem_cons_of_mem _ hp)
  | cons x xs ih =>
    rw [List.cons_append, assign, assign, ← List.cons_append, nextText_append, nextText_blank h, Option.or_none, ih]

/-- What follows a text matters to no mention before it. -/
theorem assign_append_text (xs : List (Str × Str)) {p : Str × Str} (hp : p.2 ≠ []) (ys : List (Str × Str)) :
    assign (xs ++ p :: ys) = assign (xs ++ [p]) ++ assign ys := by
  induction xs with
  | nil => simp only [List.nil_append, assign, nextText_cons, if_pos hp, List.cons_append]
  | cons x xs ih =>
    have hnext : nextText (x :: xs ++ p :: ys) = nextText (x :: xs ++ [p]) := by
      rw [nextText_append, nextText_append, nextText_cons p, if_pos hp, nextText_cons p, if_pos hp]
    rw [List.cons_append, assign, List.cons_append, assign, ← List.cons_append, ← List.cons_append, hnext, ih]
    split <;> rfl

/-- All mentions before a text have one. -/
theorem le_length_assign (xs : List (Str × Str)) {ys : List (Str × Str)} (h : nextText ys ≠ none) :
    xs.length ≤ (assign (xs ++ ys)).length := by
  induction xs with
  | nil => exact Nat.zero_le _
  | cons x xs ih =>
    rw [List.cons_append, assign, ← List.cons_append, nextText_append]
    cases nextText (x :: xs) with
    | some text => exact Nat.succ_le_succ ih
    | none =>
      rw [Option.none_or]
      split
      · exact Nat.succ_le_succ ih
      · exact absurd ‹_› h

theorem length_assign_text (xs : List (Str × Str)) {p : Str × Str} (hp : p.2 ≠ []) :
    (assign (xs ++ [p])).length = xs.length + 1 := by
  induction xs with
  | nil =>
    rw [List.nil_append, assign, nextText_cons, if_pos hp]
    rfl
  | cons x xs ih =>
    have hnext : nextText (x :: xs ++ [p]) = some ((nextText (x :: xs)).getD p.2) := by
      rw [nextText_append, nextText_cons p, if_pos hp]
      cases nextText (x :: xs) <;> rfl
    rw [List.cons_append, assign, ← List.cons_append, hnext]
    exact congrArg (· + 1) ih

/-- Looking at `k` mentions is enough: none is left without a text, or there is none to borrow. -/
theorem assign_take_iff (ps : List (Str × Str)) (k : Nat) : assign (ps.take k) = (assign ps).take k ↔
    k = 0 ∨ (∀ p ∈ ps.drop k, p.2 = []) ∨ ∀ p ∈ (ps.take k).getLast?, p.2 ≠ [] := by
  have hlen := length_assign_le (ps.take k)
  constructor
  · intro heq
    by_contra hnot
    rw [not_or, not_or] at hnot
    obtain ⟨hk, hdrop, hlast⟩ := hnot
    simp only [not_forall, not_not] at hdrop hlast
    obtain ⟨q, hq, hqtext⟩ := hdrop
    obtain ⟨p, hp, hptext⟩ := hlast
    -- the last one looked at has no text, one behind it has
    obtain ⟨xs, hxs⟩ := List.getLast?_eq_some_iff.mp hp
    have hlong := @le_length_assign (ps.take k) (ps.drop k) (by
      intro hnone
      unfold nextText at hnone
      rw [Option.map_eq_none_iff, List.find?_eq_none] at hnone
      exact hnone q hq (by simpa using hqtext))
    rw [List.take_append_drop] at hlong
    have hshort : (assign (ps.take k)).length ≤ xs.length := by
      rw [hxs, assign_append_blank xs (by simpa using hptext)]
      exact length_assign_le xs
    have hxlen := congrArg List.length hxs
    rw [List.length_append, List.length_singleton] at hxlen
    have htake := congrArg List.length heq
    rw [List.length_take] at htake
    have := List.length_take_le k ps
    omega
  · have hsplit : assign ps = assign (ps.take k ++ ps.drop k) := by rw [List.take_append_drop]
    have hk := List.length_take_le k ps
    rintro (rfl | hblank | hlast)
    · rfl
    · rw [hsplit, assign_append_blank _ hblank, List.take_of_length_le (l := assign (ps.take k)) (by omega)]
    · by_cases hall : ps.length ≤ k
      · have := length_assign_le ps
        rw [List.take_of_length_le hall, List.take_of_length_le (by omega)]
      · cases htake : (ps.take k).getLast? with
        | none =>
          have hnil := congrArg List.length (List.getLast?_eq_none_iff.mp htake)
          rw [List.length_take, List.length_nil] at hnil
          rw [show k = 0 by omega]
          rfl
        | some p =>
          obtain ⟨xs, hxs⟩ := List.getLast?_eq_some_iff.mp htake
          have hp := hlast p htake
          have hlen := congrArg List.length hxs
          rw [List.length_take, List.length_append, List.length_singleton] at hlen
          have hps : assign ps = assign (xs ++ [p]) ++ assign (ps.drop k) := by
            rw [hsplit, hxs, List.append_assoc, List.singleton_append, assign_append_text xs hp]
          rw [hps, hxs, List.take_append_of_le_length, List.take_of_length_le]
          · rw [length_assign_text xs hp]
            omega
          · rw [length_assign_text xs hp]
            omega

/-! ## The loop -/

/-- A text fills the mentions that wait for one. -/
theorem assign_pending (pend : List Mention) {name text : Str} (htext : text ≠ []) (ps : List (Str × Str)) :
    assign (pend.map (fun m => (m.agent, [])) ++ (name, text) :: ps) =
      pend.map (fun m => { m with text }) ++ ⟨name, text⟩ :: assign ps := by
  have hnext : ∀ xs : List Mention, nextText (xs.map (fun m => (m.agent, [])) ++ (name, text) :: ps) = some text := by
    intro xs
    rw [nextText_append, nextText_blank (by simp), nextText_cons, if_pos htext]
    rfl
  induction pend with
  | nil =>
    have := hnext []
    rw [List.map_nil, List.nil_append] at this ⊢
    rw [assign, this]
    rfl
  | cons m pend ih =>
    have := hnext (m :: pend)
    rw [List.map_cons, List.cons_append] at this ⊢
    rw [assign, this]
    simp only [ih, List.map_cons, List.cons_append]

theorem assign_waiting (pend : List Mention) : assign (pend.map fun m => (m.agent, [])) = [] := by
  rw [← List.nil_append (pend.map _), assign_append_blank [] (by simp)]
  rfl

theorem segment_length_le (msg : Str) (m : Mark) (rest : List Mark) : (segment msg m rest).length ≤ msg.length := by
  unfold segment
  rw [List.length_take, List.length_drop]
  omega

/-- `done` mentions have a text; the loop looks at as many more as `out` has room for. -/
theorem segmentsOf_eq {msg : Str} (hmsg : msg.length < lineMax) (max : Nat) {marks : List Mark} {done pend : List Mention}
    (hpend : ∀ m ∈ pend, m.text = []) : segmentsOf msg max marks (done ++ pend) done.length =
      done ++ assign (pend.map (fun m => (m.agent, [])) ++ (texts msg marks).take (max - (done ++ pend).length)) := by
  induction marks generalizing done pend with
  | nil => rw [segmentsOf, List.take_left, texts, List.take_nil, List.append_nil, assign_waiting, List.append_nil]
  | cons m rest ih =>
    rw [segmentsOf]
    by_cases hmax : max ≤ (done ++ pend).length
    · rw [if_pos hmax, List.take_left, Nat.sub_eq_zero_of_le hmax, List.take_zero, List.append_nil, assign_waiting,
        List.append_nil]
    have hroom : max - (done ++ pend).length = max - ((done ++ pend).length + 1) + 1 := by omega
    have hseg := segment_length_le msg m rest
    have htext : setText (segment msg m rest) = trim (segment msg m rest) := setText_eq (by omega)
    rw [if_neg hmax, texts, hroom, List.take_succ_cons]
    simp only
    rw [show (msg.drop m.stop).take ((rest.head?.map (·.start)).getD msg.length - m.stop) = segment msg m rest from rfl,
      htext]
    generalize trim (segment msg m rest) = text
    by_cases hempty : text = []
    · -- one more waits
      have hmore : ∀ x ∈ pend ++ [⟨m.name, text⟩], x.text = [] := by
        intro x hx
        rcases List.mem_append.mp hx with hx | hx
        · exact hpend x hx
        · rw [List.mem_singleton.mp hx]
          exact hempty
      rw [if_neg (not_not.mpr hempty), List.append_assoc, ih hmore, hempty, List.map_append, List.append_assoc,
        ← List.append_assoc done, @List.length_append _ (done ++ pend)]
      rfl
    · -- the waiting ones get it too
      have hfill : fillText done.length text (done ++ pend ++ [⟨m.name, text⟩]) =
          done ++ pend.map (fun x => { x with text }) ++ [⟨m.name, text⟩] := by
        unfold fillText
        rw [List.append_assoc, List.take_left, List.drop_left, List.map_append, List.append_assoc]
        rfl
      have hlen : (done ++ pend ++ [(⟨m.name, text⟩ : Mention)]).length =
          (done ++ pend.map (fun x : Mention => { x with text }) ++ [(⟨m.name, text⟩ : Mention)]).length := by
        simp only [List.length_append, List.length_map]
      have ih := @ih (done ++ pend.map (fun x => { x with text }) ++ [⟨m.name, text⟩]) []
        fun x hx => (List.not_mem_nil hx).elim
      rw [List.append_nil, List.map_nil, List.nil_append] at ih
      rw [if_pos hempty, hfill, hlen, ih, assign_pending pend hempty, ← hlen, @List.length_append _ (done ++ pend)]
      simp only [List.append_assoc, List.singleton_append, List.length_singleton]

/-! ## The whole message -/

theorem forHub_length (hub msg : Str) (marks : List Mark) : (forHub hub msg marks).length ≤ 1 := by
  unfold forHub
  split
  · exact Nat.zero_le 1
  · split
    · exact Nat.le_refl 1
    · exact Nat.zero_le 1

/-- The mentions that `out` has room for, all of which are looked at. -/
theorem parseMentions_eq {agents : List Str} {hub msg : Str} {max : Nat} (hmax : max ≠ 0) (hmsg : msg.length < lineMax)
    (hsixteen : (mentionsOf agents msg).length ≤ 16) (hall : ∀ m ∈ mentionsOf agents msg, m.name ≠ lit "all")
    (hsome : mentionsOf agents msg ≠ []) : parseMentions agents hub max msg =
      forHub hub msg (mentionsOf agents msg) ++ assign ((texts msg (mentionsOf agents msg)).take
        (max - (forHub hub msg (mentionsOf agents msg)).length)) := by
  have hne : msg ≠ [] := by
    rintro rfl
    exact hsome rfl
  rw [parseMentions, if_neg (not_or.mpr ⟨hne, hmax⟩), marksOf_eq, List.take_of_length_le hsixteen]
  cases hmarks : mentionsOf agents msg with
  | nil => exact absurd hmarks hsome
  | cons m ms =>
    have hnone : (m :: ms).find? (fun x => decide (x.name = lit "all")) = none := by
      rw [List.find?_eq_none]
      intro x hx
      rw [decide_eq_true_eq]
      exact hall x (hmarks ▸ hx)
    have hbefore : setText (msg.take m.start) = trim (msg.take m.start) := by
      apply setText_eq
      rw [List.length_take]
      omega
    simp only [hnone, hbefore]
    have hout : (if 0 < m.start ∧ trim (msg.take m.start) ≠ [] then [(⟨cut 32 hub, trim (msg.take m.start)⟩ : Mention)]
        else []) = forHub hub msg (m :: ms) := by
      rw [forHub]
      by_cases hstart : 0 < m.start
      · simp only [hstart, true_and]
      · rw [show m.start = 0 by omega]
        rfl
    have hloop := @segmentsOf_eq msg hmsg max (m :: ms) (forHub hub msg (m :: ms)) []
      fun x hx => (List.not_mem_nil hx).elim
    rw [hout]
    rw [List.append_nil, List.map_nil, List.nil_append] at hloop
    exact hloop

/-- The mentions that fit are left with no text to borrow from behind them. -/
def Enough (agents : List Str) (hub : Str) (max : Nat) (msg : Str) : Prop :=
  let marks := mentionsOf agents msg
  let k := max - (forHub hub msg marks).length
  k = 0 ∨ (∀ p ∈ (texts msg marks).drop k, p.2 = []) ∨ ∀ p ∈ ((texts msg marks).take k).getLast?, p.2 ≠ []

/-- A message is routed as wanted exactly when the last mention that fits has a text of its own, or there is none
    behind it. -/
theorem routed_iff (agents : List Str) (hub : Str) (max : Nat) (msg : Str) (hmsg : msg.length < lineMax)
    (hsixteen : (mentionsOf agents msg).length ≤ 16) (hall : ∀ m ∈ mentionsOf agents msg, m.name ≠ lit "all")
    (hsome : mentionsOf agents msg ≠ []) :
    parseMentions agents hub max msg = routed agents hub max msg ↔ Enough agents hub max msg := by
  by_cases hmax : max = 0
  · rw [hmax]
    apply iff_of_true
    · simp only [parseMentions, or_true, if_true, routed, List.take_zero]
    · exact .inl (Nat.zero_sub _)
  · have hhub := forHub_length hub msg (mentionsOf agents msg)
    rw [parseMentions_eq hmax hmsg hsixteen hall hsome]
    simp only [routed]
    rw [List.take_append, List.take_of_length_le (l := forHub hub msg _) (by omega), List.append_right_inj]
    exact assign_take_iff _ _

theorem routed_iff_oracle : parseMentions [lit "jarvis", lit "Oracle"] (lit "jarvis") 8 (lit "hi @oracle X") =
    [⟨lit "jarvis", lit "hi"⟩, ⟨lit "Oracle", lit "X"⟩] := by
  have hmentions : mentionsOf [lit "jarvis", lit "Oracle"] (lit "hi @oracle X") ≠ [] := by decide
  have henough : Enough [lit "jarvis", lit "Oracle"] (lit "jarvis") 8 (lit "hi @oracle X") := .inr (.inl (by decide))
  rw [(routed_iff _ _ _ _ (by decide) (by decide) (by decide) hmentions).mpr henough]
  rfl

/-- Nine mentions and the text behind the last: there is room for eight, and none gets it. -/
theorem pending_dropped : ¬ ∀ (agents : List Str) (hub : Str) (max : Nat) (msg : Str), msg.length < lineMax →
    (mentionsOf agents msg).length ≤ 16 → (∀ m ∈ mentionsOf agents msg, m.name ≠ lit "all") →
    mentionsOf agents msg ≠ [] → parseMentions agents hub max msg = routed agents hub max msg := by
  intro h
  have := h [lit "a"] (lit "hub") 8 (lit "@a @a @a @a @a @a @a @a @a do X") (by decide) (by decide) (by decide) (by decide)
  have hlen := congrArg List.length this
  exact absurd hlen (by decide)

end Shclaw.Irc
