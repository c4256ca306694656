/-
  Shclaw.Agent.Trim — what `trim_history` (`src/agent.c`) shortens, and its accounts.

  The loops run over the messages and, inside, over the blocks of each; what they do
  is one pass over the blocks of all messages but the newest (`oldBlocks`), which stops
  when the running total is small enough. `trimChecked` is the function with every
  `size_t` subtraction checked: that it never fails is that none wraps around.
-/

import Mathlib.Data.List.Forall2
import Shclaw.Agent.History

namespace Shclaw.Agent

open Lib

/-! ## One block -/

theorem length_elided {n : Nat} (hn : n < 2 ^ 64) : (elided n).length ≤ 100 := by
  have hdigits : (decimal n).length ≤ 19 + 1 := length_decimal_le (by omega)
  have hnote : (lit " bytes of old tool output removed to fit the context budget]").length = 60 := by decide
  have hopen : (lit "\n[... ").length = 6 := by decide
  unfold elided
  rw [List.length_append, List.length_append, hnote, hopen]
  omega

/-- The buffer holds the note whole. -/
theorem shorter_eq {c : Str} (hc : c.length < 2 ^ 64) :
    shorter c = c.take (utf8Prefix c 200) ++ elided (c.length - utf8Prefix c 200) := by
  have hkeep := utf8Prefix_le c 200
  have hnote := length_elided (n := c.length - utf8Prefix c 200) (by omega)
  unfold shorter
  rw [cut_eq_self (by decide), List.length_append, List.length_take]
  omega

theorem length_shorter_lt (c : Str) : (shorter c).length < 400 := by
  apply Nat.lt_of_le_of_lt (length_cut_le 400 _)
  decide

/-- A block after its turn in the loop. -/
def shortenBlock (block : Json) : Json :=
  if 400 < contentLen block then
    block.replaceItem (lit "content") (.str (shorter ((block.jStr (lit "content")).getD [])))
  else block

theorem shortenBlock_of_le {block : Json} (h : contentLen block ≤ 400) : shortenBlock block = block :=
  if_neg (Nat.not_lt_of_le h)

theorem jStr_of_contentLen {block : Json} (h : 0 < contentLen block) :
    ∃ c, block.jStr (lit "content") = some c ∧ contentLen block = c.length := by
  unfold contentLen at h ⊢
  cases hc : block.jStr (lit "content") with
  | none =>
    rw [hc] at h
    cases h
  | some c => exact ⟨c, rfl, rfl⟩

theorem jStr_shortenBlock {block : Json} {c : Str} (h : block.jStr (lit "content") = some c) (hlong : 400 < c.length) :
    (shortenBlock block).jStr (lit "content") = some (shorter c) := by
  have hlen : contentLen block = c.length := by
    unfold contentLen
    rw [h]
    rfl
  rw [shortenBlock, hlen, if_pos hlong, h, Option.getD_some, Json.jStr, Json.getObjectItem_replaceItem, strcaseeq_refl,
    if_pos rfl]
  unfold Json.jStr at h
  cases hitem : block.getObjectItem (lit "content") with
  | none =>
    rw [hitem] at h
    cases h
  | some j => rfl

theorem contentLen_shortenBlock {block : Json} (h : 400 < contentLen block) :
    contentLen (shortenBlock block) = (shorter ((block.jStr (lit "content")).getD [])).length := by
  obtain ⟨c, hc, hlen⟩ := @jStr_of_contentLen block (by omega)
  rw [contentLen, jStr_shortenBlock hc (hlen ▸ h), hc]
  rfl

theorem contentLen_shortenBlock_le (block : Json) : contentLen (shortenBlock block) ≤ 400 := by
  by_cases h : 400 < contentLen block
  · rw [contentLen_shortenBlock h]
    exact Nat.le_of_lt (length_shorter_lt _)
  · rw [shortenBlock, if_neg h]
    omega

/-! ## Checked subtraction -/

def checkedSub (a b : Nat) : Option Nat := if b ≤ a then some (a - b) else none

theorem checkedSub_eq {a b : Nat} (h : b ≤ a) : checkedSub a b = some (a - b) := if_pos h

theorem sizeSub_eq {a b : Nat} (h : b ≤ a) (ha : a < 2 ^ 64) : sizeSub a b = a - b := by
  rw [sizeSub, show a + 2 ^ 64 - b = a - b + 2 ^ 64 by omega, Nat.add_mod_right, Nat.mod_eq_of_lt (by omega)]

/-- `total -= len - strlen(shorter)`, after `len - keep`. -/
def accountChecked (total : Nat) (c : Str) : Option (Str × Nat) := do
  let removed ← checkedSub c.length (utf8Prefix c 200)
  let shorter := cut 400 (c.take (utf8Prefix c 200) ++ elided removed)
  let freed ← checkedSub c.length shorter.length
  let total ← checkedSub total freed
  return (shorter, total)

def trimBlocksChecked (budget : Nat) : Nat → List Json → Option (List Json × Nat)
  | total, [] => some ([], total)
  | total, block :: rest =>
    if total ≤ budget ∨ contentLen block ≤ 400 then do
      let r ← trimBlocksChecked budget total rest
      return (block :: r.1, r.2)
    else do
      let (c, total) ← accountChecked total ((block.jStr (lit "content")).getD [])
      let r ← trimBlocksChecked budget total rest
      return (block.replaceItem (lit "content") (.str c) :: r.1, r.2)

def trimMessagesChecked (budget : Nat) : Nat → List Json → Option (List Json × Nat)
  | total, [] => some ([], total)
  | total, [newest] => some ([newest], total)
  | total, m :: m' :: rest =>
    if total ≤ budget then some (m :: m' :: rest, total)
    else do
      let r ← trimBlocksChecked budget total (blocks m)
      let rest ← trimMessagesChecked budget r.2 (m' :: rest)
      return (onItem m (lit "content") (setChildren · r.1) :: rest.1, rest.2)

/-- The messages and the running total at the end; `none` when a subtraction went below zero. -/
def trimChecked (budget : Nat) (msgs : List Json) : Option (List Json × Nat) :=
  if outputLen msgs ≤ budget then some (msgs, outputLen msgs)
  else trimMessagesChecked (budget / 2) (outputLen msgs) msgs

/-! ## One pass over the blocks -/

/-- What the blocks add up to, counted afresh. -/
def lens (bs : List Json) : Nat := (bs.map contentLen).sum

@[simp] theorem lens_nil : lens [] = 0 := rfl

@[simp] theorem lens_cons (b : Json) (bs : List Json) : lens (b :: bs) = contentLen b + lens bs := rfl

@[simp] theorem lens_append (xs ys : List Json) : lens (xs ++ ys) = lens xs + lens ys := by
  simp only [lens, List.map_append, List.sum_append]

theorem outputLen_eq (msgs : List Json) : outputLen msgs = lens (msgs.flatMap blocks) := by
  have hfold : ∀ (bs : List Json) (n : Nat), bs.foldl (fun n b => n + contentLen b) n = n + lens bs := by
    intro bs
    induction bs with
    | nil => exact fun n => rfl
    | cons b bs ih =>
      intro n
      rw [List.foldl_cons, ih, lens_cons, Nat.add_assoc]
  rw [outputLen, hfold, Nat.zero_add]

theorem trimBlocks_under {budget total : Nat} (h : total ≤ budget) (bs : List Json) :
    trimBlocks budget total bs = (bs, total) := by
  induction bs with
  | nil => rfl
  | cons b bs ih => rw [trimBlocks, if_pos (.inl h), ih]

theorem trimBlocks_append (budget total : Nat) (xs ys : List Json) : trimBlocks budget total (xs ++ ys) =
    ((trimBlocks budget total xs).1 ++ (trimBlocks budget (trimBlocks budget total xs).2 ys).1,
      (trimBlocks budget (trimBlocks budget total xs).2 ys).2) := by
  induction xs generalizing total with
  | nil => rfl
  | cons x xs ih =>
    simp only [List.cons_append, trimBlocks]
    split
    · simp only [ih, List.cons_append]
    · simp only [ih, List.cons_append]

/-- The subtraction for a long block is exact. -/
theorem accountChecked_eq {total : Nat} {block : Json} (hlong : 400 < contentLen block) (hle : contentLen block ≤ total) :
    accountChecked total ((block.jStr (lit "content")).getD []) =
      some (shorter ((block.jStr (lit "content")).getD []),
        total - (contentLen block - contentLen (shortenBlock block))) := by
  rw [contentLen_shortenBlock hlong]
  obtain ⟨c, hc, hlen⟩ := @jStr_of_contentLen block (by omega)
  have hshort := length_shorter_lt c
  rw [hc, Option.getD_some, hlen]
  unfold accountChecked
  rw [checkedSub_eq (utf8Prefix_le_length c 200), Option.bind_eq_bind, Option.bind_some]
  change (checkedSub c.length (shorter c).length >>= fun freed => checkedSub total freed >>= fun total =>
    some (shorter c, total)) = _
  rw [checkedSub_eq (by omega), Option.bind_eq_bind, Option.bind_some, checkedSub_eq (by omega), Option.bind_some]

theorem contentLen_shortenBlock_le_self (block : Json) : contentLen (shortenBlock block) ≤ contentLen block := by
  by_cases h : 400 < contentLen block
  · exact Nat.le_trans (contentLen_shortenBlock_le block) (Nat.le_of_lt h)
  · rw [shortenBlock_of_le (Nat.le_of_not_lt h)]

/-- A turn of the inner loop while the total is over the budget. -/
theorem trimBlocks_over {budget total : Nat} {block : Json} (rest : List Json) (hover : budget < total)
    (hle : contentLen block ≤ total) (htotal : total < 2 ^ 64) : trimBlocks budget total (block :: rest) =
      (shortenBlock block :: (trimBlocks budget (total - (contentLen block - contentLen (shortenBlock block))) rest).1,
        (trimBlocks budget (total - (contentLen block - contentLen (shortenBlock block))) rest).2) := by
  rw [trimBlocks]
  by_cases hshort : contentLen block ≤ 400
  · rw [if_pos (.inr hshort), shortenBlock_of_le hshort, Nat.sub_self, Nat.sub_zero]
  · have hlong : 400 < contentLen block := by omega
    rw [if_neg (by omega)]
    simp only [← contentLen_shortenBlock hlong]
    rw [sizeSub_eq (by omega) htotal, shortenBlock, if_pos hlong]

theorem trimBlocksChecked_over {budget total : Nat} {block : Json} (rest : List Json) (hover : budget < total)
    (hle : contentLen block ≤ total) : trimBlocksChecked budget total (block :: rest) =
      (trimBlocksChecked budget (total - (contentLen block - contentLen (shortenBlock block))) rest).map
        fun r => (shortenBlock block :: r.1, r.2) := by
  rw [trimBlocksChecked]
  by_cases hshort : contentLen block ≤ 400
  · rw [if_pos (.inr hshort), shortenBlock_of_le hshort, Nat.sub_self, Nat.sub_zero]
    cases trimBlocksChecked budget total rest <;> rfl
  · rw [if_neg (by omega), accountChecked_eq (by omega) hle, shortenBlock, if_pos (by omega)]
    exact Option.map_eq_bind.symm

/-- The running total is what a recount gives, and no subtraction wraps around. -/
theorem trimBlocks_exact {budget total : Nat} {bs : List Json} (hle : lens bs ≤ total) (htotal : total < 2 ^ 64) :
    trimBlocksChecked budget total bs = some (trimBlocks budget total bs) ∧
      (trimBlocks budget total bs).2 + lens bs = total + lens (trimBlocks budget total bs).1 := by
  induction bs generalizing total with
  | nil => exact ⟨rfl, rfl⟩
  | cons b bs ih =>
    rw [lens_cons] at hle
    by_cases hover : budget < total
    · have hless := contentLen_shortenBlock_le_self b
      obtain ⟨hchecked, hsum⟩ := @ih (total - (contentLen b - contentLen (shortenBlock b))) (by omega) (by omega)
      rw [trimBlocks_over bs hover (by omega) htotal, trimBlocksChecked_over bs hover (by omega), hchecked]
      refine ⟨rfl, ?_⟩
      simp only [lens_cons]
      omega
    · obtain ⟨hchecked, -⟩ := ih (by omega) htotal
      rw [trimBlocksChecked, if_pos (.inl (by omega)), hchecked, trimBlocks_under (by omega), trimBlocks_under (by omega)]
      exact ⟨rfl, rfl⟩

theorem lens_trimBlocks_le (budget total : Nat) (bs : List Json) : lens (trimBlocks budget total bs).1 ≤ lens bs := by
  induction bs generalizing total with
  | nil => exact Nat.le_refl 0
  | cons b bs ih =>
    rw [trimBlocks]
    split
    · rw [lens_cons, lens_cons]
      exact Nat.add_le_add_left (ih total) _
    · rename_i h
      have hshort := contentLen_shortenBlock_le_self b
      rw [shortenBlock, if_pos (by omega)] at hshort
      rw [lens_cons, lens_cons]
      exact Nat.add_le_add hshort (ih _)

/-- The pass shortens from the oldest on and stops as soon as the total is within the budget. -/
theorem trimBlocks_oldest {budget total : Nat} {bs : List Json} (hle : lens bs ≤ total) (htotal : total < 2 ^ 64) :
    ∃ n, (trimBlocks budget total bs).1 = (bs.take n).map shortenBlock ++ bs.drop n ∧
      ((trimBlocks budget total bs).2 ≤ budget ∨ n = bs.length) ∧
      ∀ k < n, budget < total - lens bs + lens ((bs.take k).map shortenBlock ++ bs.drop k) := by
  induction bs generalizing total with
  | nil =>
    refine ⟨0, rfl, .inr rfl, ?_⟩
    intro k hk
    cases hk
  | cons b bs ih =>
    rw [lens_cons] at hle
    by_cases hover : budget < total
    · have hless := contentLen_shortenBlock_le_self b
      obtain ⟨n, hpass, hstop, hneed⟩ :=
        @ih (total - (contentLen b - contentLen (shortenBlock b))) (by omega) (by omega)
      rw [trimBlocks_over bs hover (by omega) htotal]
      refine ⟨n + 1, ?_, ?_, ?_⟩
      · rw [hpass, List.take_succ_cons, List.drop_succ_cons, List.map_cons, List.cons_append]
      · rw [List.length_cons]
        exact hstop.imp_right (congrArg (· + 1))
      · intro k hk
        cases k with
        | zero =>
          rw [List.take_zero, List.map_nil, List.nil_append, List.drop_zero, lens_cons]
          omega
        | succ k =>
          have := hneed k (by omega)
          simp only [List.take_succ_cons, List.drop_succ_cons, List.map_cons, List.cons_append, lens_cons]
          omega
    · rw [trimBlocks_under (by omega)]
      refine ⟨0, rfl, .inl (by omega), ?_⟩
      intro k hk
      cases hk

/-! ## The messages -/

/-- The blocks of all messages but the newest. -/
def oldBlocks (msgs : List Json) : List Json := msgs.dropLast.flatMap blocks

theorem length_trimBlocks (budget total : Nat) (bs : List Json) : (trimBlocks budget total bs).1.length = bs.length := by
  induction bs generalizing total with
  | nil => rfl
  | cons b bs ih =>
    rw [trimBlocks]
    split <;> rw [List.length_cons, ih, List.length_cons]

theorem blocks_onItem {m : Json} {bs : List Json} (h : bs.length = (blocks m).length) :
    blocks (onItem m (lit "content") (setChildren · bs)) = bs := by
  unfold blocks at h ⊢
  rw [getObjectItem_onItem, strcaseeq_refl, if_pos rfl]
  cases hc : m.getObjectItem (lit "content") with
  | none =>
    rw [hc] at h
    exact (List.length_eq_zero_iff.mp h).symm
  | some c =>
    rw [hc] at h
    exact children_setChildren h

theorem blocks_trimMessage (budget total : Nat) (m : Json) :
    blocks (trimMessage budget total m).1 = (trimBlocks budget total (blocks m)).1 :=
  blocks_onItem (length_trimBlocks budget total (blocks m))

/-- The nested loops are one pass. -/
theorem oldBlocks_trimMessages (budget total : Nat) (msgs : List Json) :
    oldBlocks (trimMessages budget total msgs) = (trimBlocks budget total (oldBlocks msgs)).1 := by
  fun_induction trimMessages budget total msgs with
  | case1 => rfl
  | case2 => rfl
  | case3 total m m' rest hunder => rw [trimBlocks_under hunder]
  | case4 total m m' rest hover r ih =>
    have hne : trimMessages budget r.2 (m' :: rest) ≠ [] := by
      cases rest with
      | nil => exact List.cons_ne_nil _ _
      | cons _ _ =>
        rw [trimMessages]
        split <;> exact List.cons_ne_nil _ _
    unfold oldBlocks at ih ⊢
    rw [List.dropLast_cons_of_ne_nil hne, List.flatMap_cons, ih, blocks_trimMessage,
      List.dropLast_cons_of_ne_nil (List.cons_ne_nil m' rest), List.flatMap_cons, trimBlocks_append]
    rfl

theorem getLast?_trimMessages (budget total : Nat) (msgs : List Json) :
    (trimMessages budget total msgs).getLast? = msgs.getLast? := by
  fun_induction trimMessages budget total msgs with
  | case1 => rfl
  | case2 => rfl
  | case3 => rfl
  | case4 total m m' rest _ r ih =>
    rw [List.getLast?_cons, ih, List.getLast?_cons_cons]
    cases hlast : (m' :: rest).getLast? with
    | none => cases List.getLast?_eq_none_iff.mp hlast
    | some newest => rfl

theorem flatMap_blocks (msgs : List Json) :
    msgs.flatMap blocks = oldBlocks msgs ++ (msgs.getLast?.map blocks).getD [] := by
  cases msgs using List.reverseRec with
  | nil => rfl
  | append_singleton old newest =>
    rw [oldBlocks, List.dropLast_concat, List.getLast?_concat, List.flatMap_append, List.flatMap_singleton]
    rfl

/-- A message with other blocks in the place of its own, or the same. -/
def SameBut (m m' : Json) : Prop :=
  m' = m ∨ (blocks m').length = (blocks m).length ∧ m' = onItem m (lit "content") (setChildren · (blocks m'))

theorem sameBut_trimMessages (budget total : Nat) (msgs : List Json) :
    List.Forall₂ SameBut msgs (trimMessages budget total msgs) := by
  fun_induction trimMessages budget total msgs with
  | case1 => exact .nil
  | case2 => exact List.forall₂_same.mpr fun _ _ => .inl rfl
  | case3 => exact List.forall₂_same.mpr fun _ _ => .inl rfl
  | case4 total m m' rest _ r ih =>
    refine .cons (.inr ⟨?_, ?_⟩) ih
    · rw [blocks_trimMessage, length_trimBlocks]
    · rw [blocks_trimMessage]
      rfl

/-- The nested loops in checked arithmetic. -/
theorem trimMessages_exact {budget total : Nat} {msgs : List Json} (hle : lens (msgs.flatMap blocks) ≤ total)
    (htotal : total < 2 ^ 64) :
    ∃ left, trimMessagesChecked budget total msgs = some (trimMessages budget total msgs, left) ∧
      left + lens (msgs.flatMap blocks) = total + lens ((trimMessages budget total msgs).flatMap blocks) := by
  fun_induction trimMessages budget total msgs with
  | case1 => exact ⟨_, rfl, rfl⟩
  | case2 => exact ⟨_, rfl, rfl⟩
  | case3 total m m' rest hunder => exact ⟨total, if_pos hunder, rfl⟩
  | case4 total m m' rest hover r ih =>
    rw [List.flatMap_cons, lens_append] at hle
    obtain ⟨hblocks, hsum⟩ := @trimBlocks_exact budget total (blocks m) (by omega) htotal
    have hfreed : lens (trimBlocks budget total (blocks m)).1 ≤ lens (blocks m) := lens_trimBlocks_le budget total _
    have hr : r.2 = (trimBlocks budget total (blocks m)).2 := rfl
    obtain ⟨left, hrest, hsum'⟩ := ih (by omega) (by omega)
    refine ⟨left, ?_, ?_⟩
    · rw [trimMessagesChecked, if_neg hover, hblocks, Option.bind_eq_bind, Option.bind_some, ← hr, hrest,
        Option.bind_some]
      rfl
    · have hr' : blocks r.1 = (trimBlocks budget total (blocks m)).1 := blocks_trimMessage budget total m
      rw [List.flatMap_cons (x := m), lens_append, List.flatMap_cons (x := r.1), lens_append, hr']
      omega

/-! ## Later calls -/

/-- A short string stays as it is, and a string that changes becomes short. -/
theorem trimBlocks_settled (budget total : Nat) (bs : List Json) (i : Nat) :
    (trimBlocks budget total bs).1[i]? = bs[i]? ∨
      (∃ b, bs[i]? = some b ∧ 400 < contentLen b) ∧
        ∃ b', (trimBlocks budget total bs).1[i]? = some b' ∧ contentLen b' ≤ 400 := by
  induction bs generalizing total i with
  | nil => exact .inl rfl
  | cons b bs ih =>
    rw [trimBlocks]
    split
    · cases i with
      | zero => exact .inl rfl
      | succ i => exact ih total i
    · rename_i h
      have hlong : 400 < contentLen b := by omega
      cases i with
      | zero =>
        refine .inr ⟨⟨b, rfl, hlong⟩, shortenBlock b, ?_, contentLen_shortenBlock_le b⟩
        rw [shortenBlock, if_pos hlong]
        rfl
      | succ i => exact ih _ i

theorem trimHistory_settled (budget : Nat) (msgs : List Json) (i : Nat) :
    ((trimHistory budget msgs).flatMap blocks)[i]? = (msgs.flatMap blocks)[i]? ∨
      (∃ b, (msgs.flatMap blocks)[i]? = some b ∧ 400 < contentLen b) ∧
        ∃ b', ((trimHistory budget msgs).flatMap blocks)[i]? = some b' ∧ contentLen b' ≤ 400 := by
  unfold trimHistory
  split
  · exact .inl rfl
  · rw [flatMap_blocks (trimMessages _ _ _), flatMap_blocks msgs, getLast?_trimMessages, oldBlocks_trimMessages]
    by_cases hi : i < (oldBlocks msgs).length
    · rw [List.getElem?_append_left (by rw [length_trimBlocks]; exact hi), List.getElem?_append_left hi]
      exact trimBlocks_settled _ _ _ i
    · rw [List.getElem?_append_right (by rw [length_trimBlocks]; omega), List.getElem?_append_right (by omega),
        length_trimBlocks]
      exact .inl rfl

/-- Later calls, each on a history that has grown. -/
def grow (msgs : List Json) (calls : List (List Json × Nat)) : List Json :=
  calls.foldl (fun msgs c => trimHistory c.2 (msgs ++ c.1)) msgs

theorem grow_settled {b : Json} (hb : contentLen b ≤ 400) (calls : List (List Json × Nat)) :
    ∀ {msgs : List Json} {i : Nat}, (msgs.flatMap blocks)[i]? = some b → ((grow msgs calls).flatMap blocks)[i]? = some b := by
  induction calls with
  | nil => exact fun h => h
  | cons c calls ih =>
    intro msgs i hi
    apply ih
    have hmore : ((msgs ++ c.1).flatMap blocks)[i]? = some b := by
      obtain ⟨hlt, -⟩ := List.getElem?_eq_some_iff.mp hi
      rw [List.flatMap_append, List.getElem?_append_left hlt]
      exact hi
    rcases trimHistory_settled c.2 (msgs ++ c.1) i with hsame | ⟨⟨b', hb', hlong⟩, -⟩
    · rw [hsame]
      exact hmore
    · rw [hmore] at hb'
      cases hb'
      omega

/-! ## The whole call -/

/-- What a call leaves of `msgs`. -/
structure Trims (budget : Nat) (msgs msgs' : List Json) : Prop where
  unchanged : outputLen msgs ≤ budget → msgs' = msgs
  messages : List.Forall₂ SameBut msgs msgs'
  newest : msgs'.getLast? = msgs.getLast?
  /-- The first `n` old blocks had their turn, and no more of them than needed. -/
  oldest : ∃ n, oldBlocks msgs' = ((oldBlocks msgs).take n).map shortenBlock ++ (oldBlocks msgs).drop n ∧
    (budget < outputLen msgs → outputLen msgs' ≤ budget / 2 ∨ n = (oldBlocks msgs).length) ∧
    ∀ k < n, budget / 2 < outputLen msgs - lens (oldBlocks msgs) +
      lens (((oldBlocks msgs).take k).map shortenBlock ++ (oldBlocks msgs).drop k)
  short : ∀ b ∈ oldBlocks msgs, contentLen b ≤ 400 → shortenBlock b = b
  long : ∀ b ∈ oldBlocks msgs, 400 < contentLen b → ∃ c text, b.jStr (lit "content") = some c ∧
    text = c.take (utf8Prefix c 200) ++ elided (c.length - utf8Prefix c 200) ∧ utf8Prefix c 200 ≤ 200 ∧
    text.length < c.length ∧ shortenBlock b = b.replaceItem (lit "content") (.str text)

theorem contentLen_le_lens {b : Json} {bs : List Json} (h : b ∈ bs) : contentLen b ≤ lens bs := by
  obtain ⟨before, after, rfl⟩ := List.append_of_mem h
  rw [lens_append, lens_cons]
  omega

theorem lens_oldBlocks_le (msgs : List Json) : lens (oldBlocks msgs) ≤ outputLen msgs := by
  rw [outputLen_eq, flatMap_blocks, lens_append]
  omega

theorem shortenBlock_long {b : Json} (hlong : 400 < contentLen b) (hmem : contentLen b < 2 ^ 64) :
    ∃ c text, b.jStr (lit "content") = some c ∧
      text = c.take (utf8Prefix c 200) ++ elided (c.length - utf8Prefix c 200) ∧ utf8Prefix c 200 ≤ 200 ∧
      text.length < c.length ∧ shortenBlock b = b.replaceItem (lit "content") (.str text) := by
  obtain ⟨c, hc, hlen⟩ := @jStr_of_contentLen b (by omega)
  have hshort := length_shorter_lt c
  refine ⟨c, shorter c, hc, shorter_eq (by omega), utf8Prefix_le c 200, by omega, ?_⟩
  rw [shortenBlock, if_pos hlong, hc]
  rfl

theorem trims_trimHistory (budget : Nat) {msgs : List Json} (hmem : outputLen msgs < 2 ^ 64) :
    Trims budget msgs (trimHistory budget msgs) := by
  have hold := lens_oldBlocks_le msgs
  have hlong : ∀ b ∈ oldBlocks msgs, contentLen b < 2 ^ 64 := by
    intro b hb
    have := contentLen_le_lens hb
    omega
  by_cases hunder : outputLen msgs ≤ budget
  · have hsame : trimHistory budget msgs = msgs := if_pos hunder
    rw [hsame]
    refine ⟨fun _ => rfl, List.forall₂_same.mpr fun _ _ => .inl rfl, rfl, ⟨0, rfl, ?_, ?_⟩, ?_, ?_⟩
    · intro hover
      omega
    · intro k hk
      cases hk
    · exact fun b _ => shortenBlock_of_le
    · exact fun b hb h => shortenBlock_long h (hlong b hb)
  · have htrim : trimHistory budget msgs = trimMessages (budget / 2) (outputLen msgs) msgs := if_neg hunder
    rw [htrim]
    refine ⟨fun h => absurd h hunder, sameBut_trimMessages _ _ msgs, getLast?_trimMessages _ _ msgs, ?_, ?_, ?_⟩
    · obtain ⟨n, hpass, hstop, hneed⟩ := @trimBlocks_oldest (budget / 2) _ _ hold hmem
      obtain ⟨-, hsum⟩ := @trimBlocks_exact (budget / 2) _ _ hold hmem
      refine ⟨n, by rw [oldBlocks_trimMessages, hpass], ?_, hneed⟩
      -- the running total is the recount
      have hrecount : outputLen (trimMessages (budget / 2) (outputLen msgs) msgs) =
          (trimBlocks (budget / 2) (outputLen msgs) (oldBlocks msgs)).2 := by
        have houtput := outputLen_eq msgs
        rw [flatMap_blocks, lens_append] at houtput
        rw [outputLen_eq, flatMap_blocks, lens_append, oldBlocks_trimMessages, getLast?_trimMessages]
        omega
      rw [hrecount]
      exact fun _ => hstop
    · exact fun b _ => shortenBlock_of_le
    · exact fun b hb h => shortenBlock_long h (hlong b hb)

theorem trimChecked_eq (budget : Nat) {msgs : List Json} (hmem : outputLen msgs < 2 ^ 64) :
    trimChecked budget msgs = some (trimHistory budget msgs, outputLen (trimHistory budget msgs)) := by
  unfold trimChecked trimHistory
  split
  · rfl
  · have htotal := outputLen_eq msgs
    obtain ⟨left, hchecked, hsum⟩ := @trimMessages_exact (budget / 2) _ _ (Nat.le_of_eq htotal.symm) hmem
    have hleft : left = outputLen (trimMessages (budget / 2) (outputLen msgs) msgs) := by
      rw [outputLen_eq]
      omega
    rw [hchecked, hleft]

/-- Exact accounts, the oldest outputs first, and what was shortened stays as it is. -/
theorem trim_history_exact (budget : Nat) (msgs : List Json) (hmem : outputLen msgs < 2 ^ 64) :
    trimChecked budget msgs = some (trimHistory budget msgs, outputLen (trimHistory budget msgs)) ∧
      Trims budget msgs (trimHistory budget msgs) ∧
      ∀ (calls : List (List Json × Nat)) (i : Nat),
        ((trimHistory budget msgs).flatMap blocks)[i]? ≠ (msgs.flatMap blocks)[i]? →
          ((grow (trimHistory budget msgs) calls).flatMap blocks)[i]? =
            ((trimHistory budget msgs).flatMap blocks)[i]? := by
  refine ⟨trimChecked_eq budget hmem, trims_trimHistory budget hmem, ?_⟩
  intro calls i hchanged
  rcases trimHistory_settled budget msgs i with hsame | ⟨-, b', hb', hshort⟩
  · exact absurd hsame hchanged
  · rw [hb']
    exact grow_settled hshort calls hb'

/-- A tool output of 500 bytes, then the owner again. -/
def afterOutput : List Json :=
  [.obj [(lit "role", .str (lit "user")),
     (lit "content", .arr [.obj [(lit "content", .str (List.replicate 500 97))]])], userText (lit "and?")]

theorem trim_history_exact_output :
    trimChecked 450 afterOutput = some (trimHistory 450 afterOutput, outputLen (trimHistory 450 afterOutput)) ∧
      Trims 450 afterOutput (trimHistory 450 afterOutput) :=
  have h := trim_history_exact 450 afterOutput (by decide +kernel)
  ⟨h.1, h.2.1⟩

end Shclaw.Agent
