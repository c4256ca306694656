/-
  Shclaw.Memory.Matching — which words of a query a memory has (`match_score` of
  `src/memory.c`).

  The fields of an entry are joined in a buffer of 4096 bytes, a blank between them. No
  word has a blank, so none is found across two fields; but what the buffer has no room
  for is not searched (`visible`). The score is the number of words that occur in what
  is left of the fields (`matchScore_eq`), and that of the words that occur in the
  fields exactly when none occurs only behind it (`match_score_exact`).
  Trace: the tag of a long memory is not found (`long_memory_hides_tag`).
-/

import Shclaw.Lib.Pieces
import Shclaw.Memory.Search

namespace Shclaw.Memory

open Lib

/-- A word as `memory_search` extracts it. -/
structure QueryWord (w : Str) : Prop where
  some : w ≠ []
  chars : ∀ c ∈ w, isWordChar c = true
  lower : w.map toLower = w

/-- The fields of a memory: content, category and tags. -/
def storedFields (a : Args) (content : Str) : List Str :=
  content :: (a.category.filter (· ≠ [])).getD (lit "general") :: extractTags content (csvTags (a.tagsCsv.getD []))

/-- The word is in one of the fields, up to case. -/
def occursIn (fields : List Str) (w : Str) : Bool := fields.any fun f => w <:+: f.map toLower

/-- The fields as far as `room` bytes hold them, with a blank between two. -/
def visible : Nat → List Str → List Str
  | _, [] => []
  | room, f :: fields => f.take room :: visible (room - (f.length + 1)) fields

/-! ## The buffer -/

/-- The fields, a blank between two. -/
def joined : List Str → Str
  | [] => []
  | f :: fields => f ++ fields.flatMap (ch ' ' :: ·)

theorem occursIn_cons (f : Str) (fields : List Str) (w : Str) :
    occursIn (f :: fields) w = true ↔ w <:+: f.map toLower ∨ occursIn fields w = true := by
  simp [occursIn]

/-- Nothing is left of fields there is no room for. -/
theorem occursIn_visible_zero {w : Str} (hw : w ≠ []) (fields : List Str) : occursIn (visible 0 fields) w = false := by
  induction fields with
  | nil => rfl
  | cons f fields ih =>
    rw [visible, Nat.zero_sub, ← Bool.not_eq_true, occursIn_cons, ih]
    simp [hw]

/-- A word is found in the buffer exactly when it is in what the buffer holds of a field. -/
theorem infix_joined {w : Str} (hw : w ≠ []) (hblank : ch ' ' ∉ w) (room : Nat) (fields : List Str) :
    w <:+: ((joined fields).take room).map toLower ↔ occursIn (visible room fields) w = true := by
  induction fields generalizing room with
  | nil => simp [joined, visible, occursIn, hw]
  | cons f fields ih =>
    rw [visible, occursIn_cons, ← ih]
    cases fields with
    | nil => simp [joined, hw]
    | cons g fields =>
      have hjoined : joined (f :: g :: fields) = f ++ ch ' ' :: joined (g :: fields) := by simp [joined]
      rw [hjoined]
      by_cases hroom : room ≤ f.length
      · have hzero : room - (f.length + 1) = 0 := by omega
        rw [List.take_append_of_le_length hroom, hzero, List.take_zero, List.map_nil]
        simp [hw]
      · have hsucc : room - f.length = (room - (f.length + 1)) + 1 := by omega
        rw [List.take_append, List.take_of_length_le (by omega), hsucc, List.take_succ_cons, List.map_append, List.map_cons]
        exact infix_append_cons hblank

/-! ## The score -/

theorem hay_entryOf (a : Args) (content : Str) :
    hay (entryOf a content) = ((joined (storedFields a content)).take 4095).map toLower := by
  have hcontent : (entryOf a content).jStr (lit "content") = some content := rfl
  have hcategory : (entryOf a content).jStr (lit "category") =
      some ((a.category.filter (· ≠ [])).getD (lit "general")) := rfl
  have htags : (entryOf a content).getObjectItem (lit "tags") =
      some (.arr ((extractTags content (csvTags (a.tagsCsv.getD []))).map .str)) := rfl
  have hjoined : ∀ (shown : Json → Str), (∀ tag, shown (.str tag) = lit " " ++ tag) → ∀ (category : Str) (tags : List Str),
      content ++ lit " " ++ category ++ (tags.map Json.str).flatMap shown = joined (content :: category :: tags) := by
    intro shown hshown category tags
    rw [List.flatMap_map, joined, List.flatMap_cons, List.append_assoc, List.append_assoc]
    simp only [hshown]
    rfl
  unfold hay
  rw [hcontent, hcategory, htags]
  exact congrArg (fun s : Str => (s.take 4095).map toLower) (hjoined _ (fun _ => rfl) _ _)

/-- The score is the number of words that the buffer holds. -/
theorem matchScore_eq (a : Args) (content : Str) {words : List Str} (hwords : ∀ w ∈ words, QueryWord w) :
    matchScore words (entryOf a content) = (words.filter (occursIn (visible 4095 (storedFields a content)))).length := by
  unfold matchScore
  congr 1
  apply List.filter_congr
  intro w hw
  have hblank : ch ' ' ∉ w := fun hc => absurd ((hwords w hw).chars _ hc) (by decide)
  rw [Bool.eq_iff_iff, strstr_isSome, hay_entryOf, infix_joined (hwords w hw).some hblank]

/-- What is left of a field has no more words than the field. -/
theorem occursIn_of_visible {room : Nat} {fields : List Str} {w : Str} (h : occursIn (visible room fields) w = true) :
    occursIn fields w = true := by
  induction fields generalizing room with
  | nil => exact h
  | cons f fields ih =>
    rw [visible, occursIn_cons] at h
    rw [occursIn_cons]
    rcases h with h | h
    · refine .inl (h.trans ?_)
      rw [List.map_take]
      exact (List.take_prefix room _).isInfix
    · exact .inr (ih h)

/-- Short fields are searched whole. -/
theorem visible_eq {room : Nat} {fields : List Str} (h : (joined fields).length ≤ room) : visible room fields = fields := by
  induction fields generalizing room with
  | nil => rfl
  | cons f fields ih =>
    cases fields with
    | nil => simpa [visible, joined] using h
    | cons g fields =>
      have hjoined : joined (f :: g :: fields) = f ++ ch ' ' :: joined (g :: fields) := by simp [joined]
      rw [hjoined, List.length_append, List.length_cons] at h
      rw [visible, List.take_of_length_le (by omega), ih (by omega)]

/-- The score counts the words that occur in the fields exactly when each of them occurs in
    what the buffer holds of one. -/
theorem match_score_exact (a : Args) (content : Str) {words : List Str}
    (hwords : ∀ w ∈ words, QueryWord w) :
    matchScore words (entryOf a content) = (words.filter (occursIn (storedFields a content))).length ↔
      ∀ w ∈ words, occursIn (storedFields a content) w = true →
        occursIn (visible 4095 (storedFields a content)) w = true := by
  rw [matchScore_eq a content hwords]
  have hsublist : words.filter (occursIn (visible 4095 (storedFields a content))) =
      (words.filter (occursIn (storedFields a content))).filter (occursIn (visible 4095 (storedFields a content))) := by
    rw [List.filter_filter]
    apply List.filter_congr
    intro w _
    rw [Bool.eq_iff_iff, Bool.and_eq_true]
    exact ⟨fun h => ⟨h, occursIn_of_visible h⟩, fun h => h.1⟩
  rw [hsublist, List.length_filter_eq_length_iff]
  simp only [List.mem_filter, and_imp]

theorem queryWord_tea : ∀ w ∈ [lit "tea"], QueryWord w := by
  rw [List.forall_mem_singleton]
  exact ⟨by decide, List.all_eq_true.mp (by decide), by decide⟩

def teaArgs (content : Str) : Args where
  content := some content
  category := none
  importance := 0
  tagsCsv := some (lit "tea")
  id := lit "0"
  now := []

/-- The tag of a short memory. -/
theorem match_score_exact_tea :
    matchScore [lit "tea"] (entryOf (teaArgs (lit "Milk")) (lit "Milk")) =
      ([lit "tea"].filter (occursIn (storedFields (teaArgs (lit "Milk")) (lit "Milk")))).length := by
  apply (match_score_exact (teaArgs (lit "Milk")) (lit "Milk") queryWord_tea).mpr
  have hshort : (joined (storedFields (teaArgs (lit "Milk")) (lit "Milk"))).length ≤ 4095 := by decide +kernel
  rw [visible_eq hshort]
  exact fun w _ h => h

/-- A content of 4095 bytes leaves no room for other fields. -/
theorem occursIn_long {content w : Str} (hlong : 4095 ≤ content.length) (hw : w ≠ []) (fields : List Str) :
    occursIn (visible 4095 (content :: fields)) w = true ↔ w <:+: (content.take 4095).map toLower := by
  rw [visible, occursIn_cons, show 4095 - (content.length + 1) = 0 by omega, occursIn_visible_zero hw]
  simp

theorem mem_flush {w : Words} {t : Str} (h : t ∈ w.tags) : t ∈ w.flush.tags := by
  unfold Words.flush
  split
  · exact List.mem_append_left _ h
  · exact h

/-- The tags that were given stay. -/
theorem mem_extractTags {content : Str} {tags : List Str} {t : Str} (h : t ∈ tags) : t ∈ extractTags content tags := by
  apply mem_flush
  have hread : ∀ w : Words, t ∈ w.tags → t ∈ (content.foldl Words.read w).tags := by
    induction content with
    | nil => exact fun _ hw => hw
    | cons c content ih =>
      intro w hw
      apply ih
      unfold Words.read
      split
      · exact hw
      · exact mem_flush hw
  exact hread _ h

/-- The tag of a long memory is not found. -/
theorem long_memory_hides_tag : ¬ ∀ (a : Args) (content : Str) (words : List Str), content ≠ [] →
    (∀ w ∈ words, QueryWord w) →
    matchScore words (entryOf a content) = (words.filter (occursIn (storedFields a content))).length := by
  intro hall
  obtain ⟨n, hn⟩ : ∃ n, n = 4095 := ⟨_, rfl⟩
  have hne : List.replicate n (ch 'a') ≠ [] := by
    rw [ne_eq, List.replicate_eq_nil_iff]
    omega
  have h := hall (teaArgs (List.replicate n (ch 'a'))) (List.replicate n (ch 'a')) [lit "tea"] hne queryWord_tea
  rw [matchScore_eq _ _ queryWord_tea] at h
  -- only the content is in the buffer, and the tag is not in it
  have hhidden : occursIn (visible 4095 (storedFields (teaArgs (List.replicate n (ch 'a'))) (List.replicate n (ch 'a'))))
      (lit "tea") = false := by
    rw [← Bool.not_eq_true, storedFields, occursIn_long (by rw [List.length_replicate]; omega) (by decide),
      List.take_replicate, List.map_replicate]
    intro hin
    have := List.eq_of_mem_replicate (hin.subset (List.mem_cons_self (a := ch 't')))
    exact absurd this (by decide)
  have hgiven : lit "tea" ∈ csvTags (lit "tea") := by decide +kernel
  have htag : lit "tea" ∈ storedFields (teaArgs (List.replicate n (ch 'a'))) (List.replicate n (ch 'a')) :=
    List.mem_cons_of_mem _ (List.mem_cons_of_mem _ (mem_extractTags hgiven))
  have hfound : occursIn (storedFields (teaArgs (List.replicate n (ch 'a'))) (List.replicate n (ch 'a')))
      (lit "tea") = true :=
    List.any_eq_true.mpr ⟨_, htag, by decide⟩
  rw [List.filter_cons_of_pos hfound, List.filter_cons_of_neg (by rw [hhidden]; decide)] at h
  cases h

end Shclaw.Memory
