/-
  Shclaw.Chat.Cuts — texts are cut between characters.

  `utf8_prefix` (`src/util.c`) backs up over continuation bytes, so what it keeps of a
  text is the longest text that fits (`utf8Prefix_fit`, `utf8Prefix_longest`). So are
  the lines `chat_add` stores: texts, on one line, in their field.
-/

import Shclaw.Chat.Log
import Shclaw.Lib.Utf8Valid

namespace Shclaw.Chat

open Lib Scheduler Agent

/-! ## `utf8_prefix` -/

/-- Back over continuation bytes to the byte before them. -/
theorem charStart_to {s : Str} {m n : Nat} (hmn : m ≤ n) (hlead : isCont (byte s m) = false)
    (hcont : ∀ i, m < i → i ≤ n → isCont (byte s i) = true) : charStart s n = m := by
  induction n with
  | zero => exact (Nat.le_zero.mp hmn).symm
  | succ n ih =>
    by_cases heq : m = n + 1
    · subst heq
      have hstop : ¬ byte s (n + 1) &&& 0xC0 = 0x80 := by simpa [isCont] using hlead
      rw [charStart, if_neg hstop]
    · have hback : byte s (n + 1) &&& 0xC0 = 0x80 := by simpa [isCont] using hcont (n + 1) (by omega) (Nat.le_refl _)
      rw [charStart, if_pos hback]
      exact ih (by omega) fun i hi hle => hcont i hi (by omega)

/-- What it keeps of a text are the characters that fit. -/
theorem utf8Prefix_fit (cs : List Char) (max : Nat) :
    utf8Prefix (encode cs) max = (encode (takeFit max cs)).length := by
  obtain ⟨hle, hall | ⟨c, rest, hsplit, hover⟩⟩ := takeFit_spec max cs
  · rw [hall] at hle ⊢
    unfold utf8Prefix
    split
    · rfl
    · rename_i hmax
      have hlead := byte_lead cs []
      rw [List.append_nil] at hlead
      exact charStart_to (by omega) hlead fun i hi hmax => by omega
  · have hlong : ¬ (encode cs).length < max := by
      have hlen := congrArg (fun l => (encode l).length) hsplit
      simp only [encode_append, encode_cons, List.length_append] at hlen
      omega
    have hlead := byte_lead (takeFit max cs) (c :: rest)
    have hcont : ∀ i, (encode (takeFit max cs)).length < i → i ≤ max →
        isCont (byte (encode (takeFit max cs ++ c :: rest)) i) = true := fun i hi hmax => byte_cont hi (by omega)
    rw [← hsplit] at hlead hcont
    unfold utf8Prefix
    rw [if_neg hlong]
    exact charStart_to hle hlead hcont

theorem length_takeFit {ps cs : List Char} {max : Nat} (hpre : encode ps <+: encode cs) (hmax : (encode ps).length ≤ max) :
    (encode ps).length ≤ (encode (takeFit max cs)).length := by
  induction cs generalizing ps max with
  | nil => exact hpre.length_le
  | cons y cs ih =>
    cases ps with
    | nil => exact Nat.zero_le _
    | cons x ps =>
      obtain ⟨rest, heq⟩ := hpre
      rw [encode_cons, encode_cons, List.append_assoc] at heq
      have hchar := (isChar_encodeChar x).unique (isChar_encodeChar y) heq
      rw [hchar, List.append_cancel_left_eq] at heq
      rw [encode_cons, List.length_append, hchar] at hmax ⊢
      have hrest := @ih ps (max - (String.utf8EncodeChar y).length) ⟨rest, heq⟩ (by omega)
      rw [takeFit, if_pos (by omega), encode_cons, List.length_append]
      omega

theorem utf8Prefix_longest {s p : Str} {max : Nat} (hs : Valid s) (hpre : p <+: s) (hp : Valid p) (hmax : p.length ≤ max) :
    p.length ≤ utf8Prefix s max := by
  obtain ⟨cs, rfl⟩ := hs
  obtain ⟨ps, rfl⟩ := hp
  rw [utf8Prefix_fit]
  exact length_takeFit hpre hmax

theorem take_utf8Prefix (cs : List Char) (max : Nat) :
    (encode cs).take (utf8Prefix (encode cs) max) = encode (takeFit max cs) := by
  rw [utf8Prefix_fit]
  rcases (takeFit_spec max cs).2 with hall | ⟨c, rest, hsplit, -⟩
  · rw [hall, List.take_length]
  · have hencode : encode cs = encode (takeFit max cs) ++ encode (c :: rest) := by
      rw [← encode_append, ← hsplit]
    conv_lhs => rw [hencode]
    exact List.take_left

/-! ## The lines -/

/-- What `localtime_r` says of the time of day. -/
def Clock (Z : Zone) : Prop := ∀ t,
  (0 ≤ (Z.localtime t).hour ∧ (Z.localtime t).hour ≤ 23) ∧ 0 ≤ (Z.localtime t).min ∧ (Z.localtime t).min ≤ 59

/-- One line of text, in its field. -/
structure LineOk (line : Str) : Prop where
  valid : Valid line
  cr : 13 ∉ line
  lf : 10 ∉ line
  fits : line.length < chatLine

theorem twoDigits_text {n : Int} (h : 0 ≤ n ∧ n ≤ 59) : Valid (paddedInt 2 n) ∧ (paddedInt 2 n).length = 2 := by
  obtain ⟨hlo, hhi⟩ := h
  have hpadded : paddedInt 2 n = padded 2 n.toNat := if_neg (by omega)
  rw [hpadded]
  constructor
  · apply valid_ascii
    intro c hc
    exact forall_byte (P := fun c => isDigit c = true → c < 0x80) (by decide +kernel) c (padded_digits 2 _ c hc)
  · rw [padded_two (by omega)]
    rfl

theorem flat_byte {P : UInt8 → Prop} (b : UInt8) (hblank : P (ch ' ')) (hother : b ≠ 10 → b ≠ 13 → P b) :
    P (if b = 10 ∨ b = 13 then ch ' ' else b) := by
  split
  · exact hblank
  · rename_i h
    rw [not_or] at h
    exact hother h.1 h.2

theorem lineText_ok {Z : Zone} (hZ : Clock Z) (t : Int) {who text : Str} (hwho : Valid who) (hlen : who.length ≤ 47)
    (htext : Valid text) : LineOk (lineText Z t who text) := by
  refine ⟨?_, ?_, ?_, length_lineText Z t who text⟩
  · obtain ⟨hhour, hmin⟩ := hZ t
    obtain ⟨hhourText, hhourLen⟩ := twoDigits_text ⟨hhour.1, hhour.2.trans (by decide)⟩
    obtain ⟨hminText, hminLen⟩ := twoDigits_text hmin
    have hcolon : Valid (lit ":") := valid_ascii (List.forall_mem_singleton.mpr (by decide))
    have hblank : Valid (lit " ") := valid_ascii (List.forall_mem_singleton.mpr (by decide))
    have hmark : Valid (lit ": ") := hcolon.append hblank
    have hhead := ((((hhourText.append hcolon).append hminText).append hblank).append hwho).append hmark
    unfold lineText
    dsimp only
    apply Valid.map
    · rw [List.take_of_length_le]
      · obtain ⟨cs, rfl⟩ := htext
        rw [take_utf8Prefix]
        exact hhead.append (valid_encode _)
      · have : (lit ":").length = 1 ∧ (lit " ").length = 1 ∧ (lit ": ").length = 2 := by decide
        simp only [List.length_append, hhourLen, hminLen, this, chatLine]
        omega
    · intro c hc
      exact flat_byte (P := (· < 0x80)) c (by decide) fun _ _ => hc
    · intro c hc
      rw [if_neg]
      rintro (rfl | rfl)
      · exact absurd hc (by decide)
      · exact absurd hc (by decide)
  · intro h
    obtain ⟨b, -, hb⟩ := List.mem_map.mp h
    exact flat_byte (P := (· ≠ 13)) b (by decide) (fun _ h => h) hb
  · intro h
    obtain ⟨b, -, hb⟩ := List.mem_map.mp h
    exact flat_byte (P := (· ≠ 10)) b (by decide) (fun h _ => h) hb

/-! ## Every line of a log -/

/-- A call of `chat_add`, or one that only looks at the clock. -/
inductive Call where
  | add (now t : Int) (agent who text : Str)
  | look (now : Int)

def chatCall (idle : Idle) (Z : Zone) (c : ChatLog) : Call → ChatLog
  | .add now t agent who text => chatAdd idle Z c now t agent who text
  | .look now => chatExpire idle c now

/-- A call with texts, the speaker's in 47 bytes. -/
def Call.Texts : Call → Prop
  | .add _ _ _ who text => Valid who ∧ who.length ≤ 47 ∧ Valid text
  | .look _ => True

theorem chatCall_ok (idle : Idle) {Z : Zone} (hZ : Clock Z) {c : ChatLog} (hc : ∀ l ∈ c.ring.contents, LineOk l.text)
    {call : Call} (h : call.Texts) : ∀ l ∈ (chatCall idle Z c call).ring.contents, LineOk l.text := by
  cases call with
  | look now => exact fun l hl => hc l (chatExpire_contents idle c now hl)
  | add now t agent who text =>
    obtain ⟨hwho, hlen, htext⟩ := h
    intro l hl
    by_cases hnil : text = []
    · rw [chatCall, chatAdd, if_pos hnil] at hl
      exact hc l hl
    · rw [chatCall, chatAdd_contents idle Z c now t hnil] at hl
      rcases List.mem_append.mp (List.mem_of_mem_drop hl) with hl | hl
      · exact hc l (chatExpire_contents idle c now hl)
      · rw [List.mem_singleton.mp hl]
        exact lineText_ok hZ t hwho hlen htext

/-- `utf8_prefix` keeps the longest text that fits, and every line of a log of texts is one. -/
theorem utf8_prefix_longest :
    (∀ (s : Str) (max : Nat), Valid s →
      Valid (s.take (utf8Prefix s max)) ∧ utf8Prefix s max ≤ s.length ∧ utf8Prefix s max ≤ max ∧
        ∀ p, p <+: s → Valid p → p.length ≤ max → p.length ≤ utf8Prefix s max) ∧
      ∀ (idle : Idle) (Z : Zone) (calls : List Call), Clock Z → (∀ call ∈ calls, call.Texts) →
        ∀ l ∈ (calls.foldl (chatCall idle Z) chatInit).ring.contents, LineOk l.text := by
  constructor
  · intro s max hs
    refine ⟨?_, utf8Prefix_le_length s max, utf8Prefix_le s max, fun p => utf8Prefix_longest hs⟩
    obtain ⟨cs, rfl⟩ := hs
    rw [take_utf8Prefix]
    exact valid_encode _
  · intro idle Z calls hZ
    induction calls using List.reverseRec with
    | nil =>
      intro _ l hl
      cases hl
    | append_singleton calls call ih =>
      intro htexts
      rw [List.foldl_append]
      have hbefore := ih fun x hx => htexts x (List.mem_append_left _ hx)
      exact chatCall_ok idle hZ hbefore (htexts call (List.mem_append_right _ (List.mem_singleton_self call)))

/-- A euro sign is not cut, and one is said. -/
theorem utf8_prefix_longest_euro :
    (∀ p, p <+: lit "a€" → Valid p → p.length ≤ 3 → p.length ≤ 1) ∧
      ∀ l ∈ (chatCall ⟨60, by decide⟩ ⟨timegm, gmtime⟩ chatInit (.add 0 0 (lit "ivy") (lit "ann") (lit "€\n"))).ring.contents,
        LineOk l.text := by
  have hclock : Clock ⟨timegm, gmtime⟩ := by
    intro t
    have htm := gmtime_inRange t
    exact ⟨⟨htm.hour.1, htm.hour.2⟩, ⟨htm.min.1, htm.min.2⟩⟩
  have hkept : utf8Prefix (lit "a€") 3 = 1 := by decide
  refine ⟨hkept ▸ (utf8_prefix_longest.1 (lit "a€") 3 ⟨_, rfl⟩).2.2.2, ?_⟩
  apply utf8_prefix_longest.2 ⟨60, by decide⟩ ⟨timegm, gmtime⟩ [.add 0 0 (lit "ivy") (lit "ann") (lit "€\n")] hclock
  rw [List.forall_mem_singleton]
  exact ⟨⟨_, rfl⟩, by decide, ⟨_, rfl⟩⟩

end Shclaw.Chat
