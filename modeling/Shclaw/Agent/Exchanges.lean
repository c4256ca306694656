/-
  Shclaw.Agent.Exchanges — what `conv_fit` (`src/agent.c`) leaves of a conversation.

  `findExchange` and `deleteItems` are its two loops over the array, by index;
  `deleteExchange_eq` says that they drop what `dropExchange` does. `Round` is its
  `for (;;)`, a rule for each way through it.

  `conv_fit_exact`: the loop ends; what is dropped is one block (`Block`) from the first
  user text after the opening turn to a later one, the shortest that makes the array
  fit; and it gives up only with no more than one user text left to drop from.
-/

import Shclaw.Agent.History

namespace Shclaw.Agent

open Lib

/-! ## The loops of one round -/

/-- `from` and `to`, scanning from index `i`. -/
def findExchange : List Json → Nat → Option Nat → Option Nat × Option Nat
  | [], _, first => (first, none)
  | m :: rest, i, first =>
    if !isUserText m then findExchange rest (i + 1) first
    else match first with
      | none => findExchange rest (i + 1) (some i)
      | some first => (some first, some i)

/-- `cJSON_DeleteItemFromArray(messages, from)`, `n` times. -/
def deleteItems (first : Nat) : Nat → List Json → List Json
  | 0, msgs => msgs
  | n + 1, msgs => deleteItems first n (msgs.eraseIdx first)

/-- One round: no exchange, or the array without it. -/
def deleteExchange (msgs : List Json) : Option (List Json) :=
  match findExchange (msgs.drop 1) 1 none with
  | (some first, some last) => some (deleteItems first (last - first) msgs)
  | _ => none

theorem deleteItems_append (a b c : List Json) : deleteItems a.length b.length (a ++ b ++ c) = a ++ c := by
  induction b with
  | nil => rw [List.append_nil]; rfl
  | cons x b ih =>
    rw [List.append_assoc, List.length_cons, deleteItems, List.eraseIdx_append_of_length_le (Nat.le_refl _),
      Nat.sub_self, List.cons_append, List.eraseIdx_cons_zero, ← List.append_assoc]
    exact ih

/-- The second user text. -/
theorem findExchange_some (msgs : List Json) (i first : Nat) : findExchange msgs i (some first) =
    match msgs.dropWhile (!isUserText ·) with
    | [] => (some first, none)
    | _ :: _ => (some first, some (i + (msgs.takeWhile (!isUserText ·)).length)) := by
  induction msgs generalizing i with
  | nil => rfl
  | cons m msgs ih =>
    rw [findExchange]
    cases hm : isUserText m with
    | true => simp [hm]
    | false =>
      simp only [Bool.not_false, if_true, ih, List.dropWhile_cons, List.takeWhile_cons, hm, List.length_cons]
      split
      · rfl
      · rw [Nat.add_assoc, Nat.add_comm 1]

/-- The first. -/
theorem findExchange_none (msgs : List Json) (i : Nat) : findExchange msgs i none =
    match msgs.dropWhile (!isUserText ·) with
    | [] => (none, none)
    | _ :: more => findExchange more (i + (msgs.takeWhile (!isUserText ·)).length + 1)
        (some (i + (msgs.takeWhile (!isUserText ·)).length)) := by
  induction msgs generalizing i with
  | nil => rfl
  | cons m msgs ih =>
    rw [findExchange]
    cases hm : isUserText m with
    | true => simp [hm]
    | false =>
      simp only [Bool.not_false, if_true, ih, List.dropWhile_cons, List.takeWhile_cons, hm, List.length_cons]
      split
      · rfl
      · rw [Nat.add_assoc i 1, Nat.add_comm 1]

/-- One round deletes the exchange between the first two user texts. -/
theorem deleteExchange_eq (msgs : List Json) : deleteExchange msgs = dropExchange msgs := by
  apply Eq.symm
  cases msgs with
  | nil => rfl
  | cons m rest =>
    rw [deleteExchange, List.drop_one, List.tail_cons, findExchange_none, dropExchange]
    cases hrest : rest.dropWhile (!isUserText ·) with
    | nil => rfl
    | cons u more =>
      simp only [findExchange_some]
      cases hmore : more.dropWhile (!isUserText ·) with
      | nil => rfl
      | cons next later =>
        -- the array, cut where the loops cut it
        have hsplit : m :: rest = m :: rest.takeWhile (!isUserText ·) ++
            u :: more.takeWhile (!isUserText ·) ++ next :: later := by
          rw [← hmore, List.append_assoc, List.cons_append, List.cons_append, List.takeWhile_append_dropWhile, ← hrest,
            List.takeWhile_append_dropWhile]
        have hdelete := deleteItems_append (m :: rest.takeWhile (!isUserText ·)) (u :: more.takeWhile (!isUserText ·))
          (next :: later)
        rw [← hsplit, List.length_cons, List.length_cons] at hdelete
        simp only
        rw [show 1 + (rest.takeWhile (!isUserText ·)).length + 1 + (more.takeWhile (!isUserText ·)).length -
            (1 + (rest.takeWhile (!isUserText ·)).length) = (more.takeWhile (!isUserText ·)).length + 1 by omega,
          Nat.add_comm 1, hdelete]
        rfl

/-! ## The loop -/

variable (J : CJson)

/-- The printed size of an array. -/
def size (msgs : List Json) : Nat := (J.print (.arr msgs)).length

/-- The `for (;;)` of `conv_fit`: what it returns and the array after it. -/
inductive Round (max : Nat) : List Json → Bool × List Json → Prop
  | fits {msgs : List Json} : size J msgs ≤ max → Round max msgs (true, msgs)
  | stuck {msgs : List Json} : max < size J msgs → deleteExchange msgs = none → Round max msgs (false, msgs)
  | again {msgs msgs' : List Json} {r : Bool × List Json} : max < size J msgs → deleteExchange msgs = some msgs' →
      Round max msgs' r → Round max msgs r

theorem convFit_round (max : Nat) (msgs : List Json) : convFit J max msgs =
    if size J msgs ≤ max then (true, msgs)
    else match deleteExchange msgs with
      | none => (false, msgs)
      | some msgs => convFit J max msgs := by
  rw [convFit_eq, deleteExchange_eq]
  rfl

theorem round_convFit (max : Nat) (msgs : List Json) : Round J max msgs (convFit J max msgs) := by
  induction hlen : msgs.length using Nat.strong_induction_on generalizing msgs with
  | _ n ih =>
    rw [convFit_round]
    by_cases hfits : size J msgs ≤ max
    · rw [if_pos hfits]
      exact .fits hfits
    · rw [if_neg hfits]
      have hover : max < size J msgs := Nat.lt_of_not_le hfits
      cases hdrop : deleteExchange msgs with
      | none => exact .stuck hover hdrop
      | some msgs' =>
        have hshort := dropExchange_length (deleteExchange_eq msgs ▸ hdrop)
        exact .again hover hdrop (ih _ (hlen ▸ hshort) msgs' rfl)

/-! ## What it drops -/

/-- `kept` is `msgs` without `block`, which starts at the first user text after the opening turn and
    ends before a later one; or nothing is dropped. -/
def Block (msgs block kept : List Json) : Prop :=
  block = [] ∧ kept = msgs ∨
    ∃ m before u between next later, msgs = m :: before ++ (u :: between) ++ next :: later ∧
      (∀ x ∈ before, isUserText x = false) ∧ isUserText u = true ∧ isUserText next = true ∧
      block = u :: between ∧ kept = m :: before ++ next :: later

/-- A list that is empty or starts with a user text. -/
def StartsTurn (l : List Json) : Prop := ∀ m ∈ l.head?, isUserText m = true

/-- The loop works on what follows the turns before the first user text: it keeps the longest end of it that
    starts with a user text and fits. -/
structure Keeps (max : Nat) (head turns : List Json) (r : Bool × List Json) (kept : List Json) : Prop where
  result : r.2 = head ++ kept
  suffix : kept <:+ turns
  starts : StartsTurn kept
  nonempty : kept = [] → turns = []
  fits : r.1 = true ↔ size J r.2 ≤ max
  longest : ∀ l, l <:+ turns → StartsTurn l → l ≠ [] → kept.length < l.length → max < size J (head ++ l)
  last : r.1 = false → kept.countP isUserText ≤ 1

theorem dropExchange_head (m : Json) {before turns : List Json} (hbefore : ∀ x ∈ before, isUserText x = false)
    (hturns : StartsTurn turns) : dropExchange (m :: before ++ turns) =
      match turns.tail.dropWhile (!isUserText ·) with
      | [] => none
      | next :: later => some (m :: before ++ next :: later) := by
  have hskip : ∀ x ∈ before, (!isUserText x) = true := by
    intro x hx
    rw [hbefore x hx]
    rfl
  rw [List.cons_append, dropExchange, List.dropWhile_append_of_pos hskip, List.takeWhile_append_of_pos hskip]
  cases turns with
  | nil => rfl
  | cons u more =>
    have hu : isUserText u = true := hturns u rfl
    simp only [List.dropWhile_cons, List.takeWhile_cons, hu, Bool.not_true, Bool.false_eq_true, if_false, List.tail_cons,
      List.append_nil]
    rfl

theorem startsTurn_dropWhile (l : List Json) : StartsTurn (l.dropWhile (!isUserText ·)) := by
  intro m hm
  have := List.head?_dropWhile_not (!isUserText ·) l
  rw [hm] at this
  simpa using this

/-- An end that starts with a user text lies behind what comes before the first one. -/
theorem suffix_dropWhile {l rest : List Json} (h : l <:+ rest) (hl : StartsTurn l) (hne : l ≠ []) :
    l <:+ rest.dropWhile (!isUserText ·) := by
  obtain ⟨pre, rfl⟩ := h
  induction pre with
  | nil =>
    cases l with
    | nil => exact absurd rfl hne
    | cons m l =>
      have hm : isUserText m = true := hl m rfl
      rw [List.nil_append, List.dropWhile_cons_of_neg (by simp [hm])]
  | cons x pre ih =>
    rw [List.cons_append, List.dropWhile_cons]
    split
    · exact ih
    · exact List.suffix_cons_iff.mpr (.inr (List.suffix_append pre l))

theorem takeWhile_other {l : List Json} : ∀ x ∈ l.takeWhile (!isUserText ·), isUserText x = false := by
  intro x hx
  have := List.all_eq_true.mp (List.all_takeWhile (p := (!isUserText ·)) (l := l)) x hx
  simpa using this

theorem dropWhile_nil_count {l : List Json} (h : l.dropWhile (!isUserText ·) = []) : l.countP isUserText = 0 := by
  rw [List.countP_eq_zero]
  intro m hm
  have hsplit := List.takeWhile_append_dropWhile (p := (!isUserText ·)) (l := l)
  rw [h, List.append_nil] at hsplit
  have := takeWhile_other m (hsplit.symm ▸ hm)
  simp [this]

theorem keeps (max : Nat) (m : Json) {before : List Json} (hbefore : ∀ x ∈ before, isUserText x = false)
    {msgs : List Json} {r : Bool × List Json} (h : Round J max msgs r) :
    ∀ turns, StartsTurn turns → msgs = m :: before ++ turns → ∃ kept, Keeps J max (m :: before) turns r kept := by
  induction h with
  | fits hfits =>
    intro turns hturns heq
    refine ⟨turns, heq, List.suffix_refl _, hturns, id, iff_of_true rfl hfits, ?_, ?_⟩
    · intro l hl _ _ hlen
      have := hl.length_le
      omega
    · intro hf
      cases hf
  | stuck hover hdrop =>
    intro turns hturns heq
    refine ⟨turns, heq, List.suffix_refl _, hturns, id, ?_, ?_, ?_⟩
    · exact iff_of_false Bool.false_ne_true (Nat.not_le_of_lt hover)
    · intro l hl _ _ hlen
      have := hl.length_le
      omega
    · intro _
      rw [heq, deleteExchange_eq, dropExchange_head m hbefore hturns] at hdrop
      cases turns with
      | nil => exact Nat.zero_le _
      | cons u more =>
        have hmore : more.dropWhile (!isUserText ·) = [] := by
          cases hd : more.dropWhile (!isUserText ·) with
          | nil => rfl
          | cons next later =>
            rw [List.tail_cons, hd] at hdrop
            cases hdrop
        rw [List.countP_cons, dropWhile_nil_count hmore]
        split <;> omega
  | again hover hdrop _ ih =>
    intro turns hturns heq
    rw [heq, deleteExchange_eq, dropExchange_head m hbefore hturns] at hdrop
    cases turns with
    | nil => cases hdrop
    | cons u more =>
      rw [List.tail_cons] at hdrop
      cases hd : more.dropWhile (!isUserText ·) with
      | nil =>
        rw [hd] at hdrop
        cases hdrop
      | cons next later =>
        rw [hd] at hdrop
        have hnext : StartsTurn (next :: later) := hd ▸ startsTurn_dropWhile more
        obtain ⟨kept, hk⟩ := ih (next :: later) hnext (Option.some.inj hdrop).symm
        have hmore : next :: later <:+ more := hd ▸ List.dropWhile_suffix _
        refine ⟨kept, hk.result, ?_, hk.starts, ?_, hk.fits, ?_, hk.last⟩
        · exact hk.suffix.trans (hmore.trans (List.suffix_cons u more))
        · intro hnil
          cases hk.nonempty hnil
        · intro l hl hstart hne hlen
          rcases List.suffix_cons_iff.mp hl with rfl | hl
          · rw [← heq]
            exact hover
          · exact hk.longest l (hd ▸ suffix_dropWhile hl hstart hne) hstart hne hlen

/-! ## The whole call -/

/-- What the caller is promised of a call on `msgs` that returned `r`. -/
structure DropsOldest (max : Nat) (msgs : List Json) (r : Bool × List Json) : Prop where
  block : ∃ block, Block msgs block r.2
  /-- The opening turn and everything up to the first later user text. -/
  opening : ∀ m before after, msgs = m :: before ++ after → (∀ x ∈ before, isUserText x = false) →
    m :: before <+: r.2
  /-- The last user text after the opening turn and everything after it. -/
  newest : ∀ m pre u post, msgs = m :: pre ++ u :: post → isUserText u = true →
    (∀ x ∈ post, isUserText x = false) → u :: post <:+ r.2
  fits : r.1 = true ↔ size J r.2 ≤ max
  shortest : ∀ block block' kept', r.1 = true → Block msgs block r.2 → Block msgs block' kept' →
    size J kept' ≤ max → block.length ≤ block'.length
  stuck : r.1 = false → max < size J r.2 ∧ r.2.tail.countP isUserText ≤ 1

theorem Block.length_add {msgs block kept : List Json} (h : Block msgs block kept) :
    kept.length + block.length = msgs.length := by
  rcases h with ⟨rfl, rfl⟩ | ⟨m, before, u, between, next, later, rfl, -, -, -, rfl, rfl⟩
  · rfl
  · simp only [List.length_append, List.length_cons]
    omega

/-- Two ways to cut at the first user text are one. -/
theorem first_cut {before turns before' turns' : List Json} (heq : before ++ turns = before' ++ turns')
    (hb : ∀ x ∈ before, isUserText x = false) (hb' : ∀ x ∈ before', isUserText x = false)
    (ht : StartsTurn turns) (ht' : StartsTurn turns') :
    before' = before ∧ turns' = turns := by
  induction before generalizing before' with
  | nil =>
    cases before' with
    | nil => exact ⟨rfl, heq.symm⟩
    | cons x before' =>
      rw [List.nil_append] at heq
      have := ht x (by rw [heq]; rfl)
      rw [hb' x (List.mem_cons_self)] at this
      cases this
  | cons y before ih =>
    cases before' with
    | nil =>
      rw [List.nil_append] at heq
      have := ht' y (by rw [← heq]; rfl)
      rw [hb y (List.mem_cons_self)] at this
      cases this
    | cons x before' =>
      obtain ⟨rfl, hrest⟩ := List.cons.inj heq
      obtain ⟨rfl, rfl⟩ := ih hrest (fun z hz => hb z (List.mem_cons_of_mem _ hz))
        (fun z hz => hb' z (List.mem_cons_of_mem _ hz))
      exact ⟨rfl, rfl⟩

/-- A block of the array leaves an end of its turns. -/
theorem Block.turns {m : Json} {before turns block kept : List Json} (h : Block (m :: before ++ turns) block kept)
    (hb : ∀ x ∈ before, isUserText x = false) (ht : StartsTurn turns) :
    ∃ l, kept = m :: before ++ l ∧ l <:+ turns ∧ StartsTurn l ∧ (l = [] → turns = []) := by
  rcases h with ⟨-, rfl⟩ | ⟨m', before', u, between, next, later, heq, hb', hu, hnext, -, rfl⟩
  · exact ⟨turns, rfl, List.suffix_refl _, ht, id⟩
  · rw [List.cons_append, List.cons_append, List.cons_append, List.append_assoc] at heq
    obtain ⟨rfl, hrest⟩ := List.cons.inj heq
    have hstart : StartsTurn (u :: between ++ next :: later) := by
      intro x hx
      cases hx
      exact hu
    obtain ⟨rfl, rfl⟩ := first_cut hrest hb hb' ht hstart
    refine ⟨next :: later, rfl, List.suffix_append _ _, ?_, ?_⟩
    · intro x hx
      cases hx
      exact hnext
    · intro hnil
      cases hnil

theorem Keeps.block {max : Nat} {m : Json} {before turns kept : List Json} {r : Bool × List Json}
    (h : Keeps J max (m :: before) turns r kept) (hb : ∀ x ∈ before, isUserText x = false) (ht : StartsTurn turns) :
    ∃ block, Block (m :: before ++ turns) block r.2 := by
  rw [h.result]
  obtain ⟨dropped, rfl⟩ := h.suffix
  cases dropped with
  | nil => exact ⟨[], .inl ⟨rfl, rfl⟩⟩
  | cons u between =>
    cases kept with
    | nil => cases h.nonempty rfl
    | cons next later =>
      refine ⟨u :: between, .inr ⟨m, before, u, between, next, later, ?_, hb, ht u rfl, h.starts next rfl, rfl, rfl⟩⟩
      rw [List.append_assoc]

/-- What is kept reaches back to the last user text. -/
theorem Keeps.newest {max : Nat} {head turns kept post : List Json} {u : Json} {r : Bool × List Json}
    (h : Keeps J max head turns r kept) (hu : u :: post <:+ turns) (hpost : ∀ x ∈ post, isUserText x = false) :
    u :: post <:+ kept := by
  by_cases hlen : (u :: post).length ≤ kept.length
  · exact List.suffix_of_suffix_length_le hu h.suffix hlen
  · have hkept : kept <:+ u :: post := List.suffix_of_suffix_length_le h.suffix hu (by omega)
    cases kept with
    | nil =>
      rw [h.nonempty rfl] at hu
      cases List.eq_nil_of_suffix_nil hu
    | cons x kept =>
      -- it would start with a user text of `post`
      rcases List.suffix_cons_iff.mp hkept with heq | hin
      · rw [heq] at hlen
        omega
      · have hx := hpost x (hin.subset (List.mem_cons_self))
        rw [h.starts x rfl] at hx
        cases hx

theorem dropsOldest (max : Nat) (msgs : List Json) (r : Bool × List Json) (h : Round J max msgs r) :
    DropsOldest J max msgs r := by
  cases msgs with
  | nil =>
    -- nothing to drop from
    obtain ⟨b, msgs⟩ := r
    have hr : msgs = [] ∧ (b = true ↔ size J [] ≤ max) := by
      cases h with
      | fits h => exact ⟨rfl, iff_of_true rfl h⟩
      | stuck h _ => exact ⟨rfl, iff_of_false Bool.false_ne_true (Nat.not_le_of_lt h)⟩
      | again _ hdrop _ => cases hdrop
    obtain ⟨rfl, hfits⟩ := hr
    refine ⟨⟨[], .inl ⟨rfl, rfl⟩⟩, ?_, ?_, hfits, ?_, ?_⟩
    · intro m before after heq _
      cases heq
    · intro m pre u post heq _ _
      cases heq
    · intro block block' kept' _ hblock _ _
      have := hblock.length_add
      simp only [List.length_nil] at this
      omega
    · intro hr
      refine ⟨?_, Nat.zero_le _⟩
      rw [← Nat.not_le, ← hfits, Bool.not_eq_true]
      exact hr
  | cons m rest =>
    have hb : ∀ x ∈ rest.takeWhile (!isUserText ·), isUserText x = false := takeWhile_other
    have ht : StartsTurn (rest.dropWhile (!isUserText ·)) := startsTurn_dropWhile rest
    have hmsgs : m :: rest = m :: rest.takeWhile (!isUserText ·) ++ rest.dropWhile (!isUserText ·) := by
      rw [List.cons_append, List.takeWhile_append_dropWhile]
    obtain ⟨kept, hk⟩ := keeps J max m hb h _ ht hmsgs
    refine ⟨hmsgs ▸ hk.block J hb ht, ?_, ?_, hk.fits, ?_, ?_⟩
    · -- what comes before the first user text is cut from `takeWhile`
      intro m' before after heq hbefore
      obtain ⟨rfl, hrest⟩ := List.cons.inj heq
      have hskip : ∀ x ∈ before, (!isUserText x) = true := by simpa using hbefore
      rw [hk.result, hrest, List.append_eq, List.takeWhile_append_of_pos hskip, ← List.cons_append, List.append_assoc]
      apply List.prefix_append
    · intro m' pre u post heq hu hpost
      obtain ⟨rfl, rfl⟩ := List.cons.inj heq
      have hstart : StartsTurn (u :: post) := by
        intro x hx
        cases hx
        exact hu
      have hsuffix := suffix_dropWhile (List.suffix_append pre (u :: post)) hstart (List.cons_ne_nil _ _)
      rw [hk.result]
      exact (hk.newest J hsuffix hpost).trans (List.suffix_append _ kept)
    · intro block block' kept' hr hblock hblock' hsize
      rw [hmsgs] at hblock hblock'
      obtain ⟨l, rfl, hl, hstart, hnil⟩ := hblock'.turns hb ht
      have hsum := hblock.length_add
      have hsum' := hblock'.length_add
      rw [hk.result] at hsum
      simp only [List.length_append] at hsum hsum'
      by_contra hshort
      have hlen : kept.length < l.length := by omega
      have hne : l ≠ [] := by
        intro h
        rw [h] at hlen
        cases hlen
      exact absurd hsize (Nat.not_le_of_lt (hk.longest l hl hstart hne hlen))
    · intro hr
      refine ⟨?_, ?_⟩
      · rw [← Nat.not_le, ← hk.fits, hr]
        exact Bool.false_ne_true
      rw [hk.result, List.cons_append, List.tail_cons, List.countP_append, List.countP_eq_zero.mpr, Nat.zero_add]
      · exact hk.last hr
      · intro x hx
        rw [hb x hx]
        exact Bool.false_ne_true

theorem round_unique {max : Nat} {msgs : List Json} {r : Bool × List Json} (h : Round J max msgs r) :
    r = convFit J max msgs := by
  induction h with
  | fits hfits => rw [convFit_round, if_pos hfits]
  | stuck hover hdrop => rw [convFit_round, if_neg (Nat.not_le_of_lt hover), hdrop]
  | again hover hdrop _ ih =>
    rw [convFit_round, if_neg (Nat.not_le_of_lt hover), hdrop]
    exact ih

/-- `conv_fit` ends, with one outcome, and drops the oldest exchanges and nothing else. -/
theorem conv_fit_exact (max : Nat) (msgs : List Json) :
    (∀ r, Round J max msgs r ↔ r = convFit J max msgs) ∧ DropsOldest J max msgs (convFit J max msgs) := by
  refine ⟨?_, dropsOldest J max msgs _ (round_convFit J max msgs)⟩
  intro r
  constructor
  · exact round_unique J
  · rintro rfl
    exact round_convFit J max msgs

end Shclaw.Agent
