/-
  Shclaw.Lib.Utf8Valid — which byte strings are texts.

  `IsChar` is the syntax of one character in UTF-8 (RFC 3629: no overlong forms, no
  surrogates, nothing above U+10FFFF); `isChar_iff`: it holds of what encodes a
  character. `Valid` is a text of them.
-/

import Shclaw.Lib.Percent
import Shclaw.Lib.Utf8

namespace Shclaw.Lib

/-- `UTF8-char`: its first byte says how many follow, and may narrow the second. -/
inductive IsChar : Str → Prop
  | one {a : UInt8} (ha : a < 0x80) : IsChar [a]
  | two {a b : UInt8} (ha : 0xC2 ≤ a ∧ a < 0xE0) (hb : isCont b = true) : IsChar [a, b]
  | three {a b c : UInt8} (ha : 0xE0 ≤ a ∧ a < 0xF0) (hb : isCont b = true) (hc : isCont c = true)
      (hshort : a = 0xE0 → 0xA0 ≤ b) (hsurrogate : a = 0xED → b ≤ 0x9F) : IsChar [a, b, c]
  | four {a b c d : UInt8} (ha : 0xF0 ≤ a ∧ a < 0xF5) (hb : isCont b = true) (hc : isCont c = true)
      (hd : isCont d = true) (hshort : a = 0xF0 → 0x90 ≤ b) (hlast : a = 0xF4 → b ≤ 0x8F) : IsChar [a, b, c, d]

/-- A text in UTF-8. -/
def Valid (s : Str) : Prop := ∃ cs, s = encode cs

/-! ## Bytes as numbers -/

theorem isCont_iff (c : UInt8) : isCont c = true ↔ 128 ≤ c.toNat ∧ c.toNat < 192 :=
  forall_byte (P := fun c => isCont c = true ↔ 128 ≤ c.toNat ∧ c.toNat < 192) (by decide +kernel) c

theorem toNat_ofNat {n : Nat} (h : n < 256) : (UInt8.ofNat n).toNat = n := by
  rw [UInt8.toNat_ofNat']
  exact Nat.mod_eq_of_lt h

theorem ofNat_eq {n : Nat} {c : UInt8} (h : n = c.toNat) : UInt8.ofNat n = c := by
  rw [h, UInt8.ofNat_toNat]

/-! ## The characters -/

/-- A first byte in a range. -/
theorem lead_range {n lo hi : Nat} (h : lo ≤ n ∧ n < hi) (hhi : hi < 256) :
    UInt8.ofNat lo ≤ UInt8.ofNat n ∧ UInt8.ofNat n < UInt8.ofNat hi := by
  rw [UInt8.le_iff_toNat_le, UInt8.lt_iff_toNat_lt, toNat_ofNat (by omega), toNat_ofNat (by omega), toNat_ofNat hhi]
  exact h

theorem isChar_encodeChar (x : Char) : IsChar (String.utf8EncodeChar x) := by
  have hscalar := x.valid
  unfold UInt32.isValidChar Nat.isValidChar at hscalar
  unfold String.utf8EncodeChar
  simp only
  generalize x.val.toNat = v at *
  split
  · apply IsChar.one
    exact (@lead_range v 0 128 (by omega) (by decide)).2
  split
  · apply IsChar.two
    · exact @lead_range _ 194 224 (by omega) (by decide)
    · exact (cont_byte _).1
  split
  · apply IsChar.three
    · exact @lead_range _ 224 240 (by omega) (by decide)
    · exact (cont_byte _).1
    · exact (cont_byte _).1
    · rw [← UInt8.toNat_inj, UInt8.le_iff_toNat_le, toNat_ofNat (by omega), toNat_ofNat (by omega)]
      simp only [UInt8.reduceToNat]
      omega
    · rw [← UInt8.toNat_inj, UInt8.le_iff_toNat_le, toNat_ofNat (by omega), toNat_ofNat (by omega)]
      simp only [UInt8.reduceToNat]
      omega
  · apply IsChar.four
    · exact @lead_range _ 240 245 (by omega) (by decide)
    · exact (cont_byte _).1
    · exact (cont_byte _).1
    · exact (cont_byte _).1
    · rw [← UInt8.toNat_inj, UInt8.le_iff_toNat_le, toNat_ofNat (by omega), toNat_ofNat (by omega)]
      simp only [UInt8.reduceToNat]
      omega
    · rw [← UInt8.toNat_inj, UInt8.le_iff_toNat_le, toNat_ofNat (by omega), toNat_ofNat (by omega)]
      simp only [UInt8.reduceToNat]
      omega

theorem exists_char {v : Nat} (h : v.isValidChar) : ∃ x : Char, x.val.toNat = v :=
  ⟨Char.ofNatAux v h, rfl⟩

theorem exists_of_isChar {bs : Str} (h : IsChar bs) : ∃ x : Char, bs = String.utf8EncodeChar x := by
  cases h with
  | @one a ha =>
    have ha : a.toNat < 128 := ha
    obtain ⟨x, hx⟩ := @exists_char a.toNat (.inl (by omega))
    refine ⟨x, ?_⟩
    unfold String.utf8EncodeChar
    simp only [hx]
    rw [if_pos (by omega), UInt8.ofNat_toNat]
  | @two a b ha hb =>
    obtain ⟨hlo, hhi⟩ : 194 ≤ a.toNat ∧ a.toNat < 224 := ha
    rw [isCont_iff] at hb
    obtain ⟨x, hx⟩ := @exists_char ((a.toNat - 192) * 64 + (b.toNat - 128)) (.inl (by omega))
    refine ⟨x, ?_⟩
    unfold String.utf8EncodeChar
    simp only [hx]
    rw [if_neg (by omega), if_pos (by omega), @ofNat_eq _ a (by omega), @ofNat_eq _ b (by omega)]
  | @three a b c ha hb hc hshort hsurrogate =>
    obtain ⟨hlo, hhi⟩ : 224 ≤ a.toNat ∧ a.toNat < 240 := ha
    rw [isCont_iff] at hb hc
    rw [← UInt8.toNat_inj, UInt8.le_iff_toNat_le] at hshort hsurrogate
    simp only [UInt8.reduceToNat] at hshort hsurrogate
    obtain ⟨x, hx⟩ := @exists_char ((a.toNat - 224) * 4096 + (b.toNat - 128) * 64 + (c.toNat - 128)) (by
      unfold Nat.isValidChar
      omega)
    refine ⟨x, ?_⟩
    unfold String.utf8EncodeChar
    simp only [hx]
    rw [if_neg (by omega), if_neg (by omega), if_pos (by omega), @ofNat_eq _ a (by omega), @ofNat_eq _ b (by omega),
      @ofNat_eq _ c (by omega)]
  | @four a b c d ha hb hc hd hshort hlast =>
    obtain ⟨hlo, hhi⟩ : 240 ≤ a.toNat ∧ a.toNat < 245 := ha
    rw [isCont_iff] at hb hc hd
    rw [← UInt8.toNat_inj, UInt8.le_iff_toNat_le] at hshort hlast
    simp only [UInt8.reduceToNat] at hshort hlast
    obtain ⟨x, hx⟩ := @exists_char ((a.toNat - 240) * 262144 + (b.toNat - 128) * 4096 + (c.toNat - 128) * 64 +
      (d.toNat - 128)) (.inr (by omega))
    refine ⟨x, ?_⟩
    unfold String.utf8EncodeChar
    simp only [hx]
    rw [if_neg (by omega), if_neg (by omega), if_neg (by omega), @ofNat_eq _ a (by omega), @ofNat_eq _ b (by omega),
      @ofNat_eq _ c (by omega), @ofNat_eq _ d (by omega)]

/-- The syntax is what encodes a character. -/
theorem isChar_iff {bs : Str} : IsChar bs ↔ ∃ x : Char, bs = String.utf8EncodeChar x := by
  constructor
  · exact exists_of_isChar
  · rintro ⟨x, rfl⟩
    exact isChar_encodeChar x

/-! ## The first byte says how long -/

/-- The continuation bytes a first byte asks for. -/
def trailing (c : UInt8) : Option Nat :=
  if c < 0x80 then some 0
  else if c < 0xC2 then none
  else if c < 0xE0 then some 1
  else if c < 0xF0 then some 2
  else if c < 0xF5 then some 3
  else none

theorem trailing_lead : ∀ c : UInt8, (c < 0x80 → trailing c = some 0) ∧ (0xC2 ≤ c ∧ c < 0xE0 → trailing c = some 1) ∧
    (0xE0 ≤ c ∧ c < 0xF0 → trailing c = some 2) ∧ (0xF0 ≤ c ∧ c < 0xF5 → trailing c = some 3) :=
  forall_byte (by decide +kernel)

theorem lead_trailing : ∀ c : UInt8, (trailing c = some 0 → c < 0x80) ∧ (trailing c = some 1 → 0xC2 ≤ c ∧ c < 0xE0) ∧
    (trailing c = some 2 → 0xE0 ≤ c ∧ c < 0xF0) ∧ (trailing c = some 3 → 0xF0 ≤ c ∧ c < 0xF5) ∧
    (∀ n ∈ trailing c, n < 4) :=
  forall_byte (by decide +kernel)

theorem IsChar.trailing {c : UInt8} {conts : Str} (h : IsChar (c :: conts)) : trailing c = some conts.length := by
  cases h with
  | one ha => exact (trailing_lead c).1 ha
  | two ha => exact (trailing_lead c).2.1 ha
  | three ha => exact (trailing_lead c).2.2.1 ha
  | four ha => exact (trailing_lead c).2.2.2 ha

/-- No character starts another. -/
theorem IsChar.unique {bs bs' rest rest' : Str} (h : IsChar bs) (h' : IsChar bs') (heq : bs ++ rest = bs' ++ rest') :
    bs = bs' := by
  cases bs with
  | nil => cases h
  | cons c conts =>
    cases bs' with
    | nil => cases h'
    | cons c' conts' =>
      obtain ⟨rfl, htail⟩ := List.cons.inj heq
      have hlen := h.trailing.symm.trans h'.trailing
      rw [(List.append_inj htail (Option.some.inj hlen)).1]

/-! ## Texts -/

theorem valid_encode (cs : List Char) : Valid (encode cs) := ⟨cs, rfl⟩

theorem valid_nil : Valid [] := valid_encode []

theorem Valid.append {a b : Str} (ha : Valid a) (hb : Valid b) : Valid (a ++ b) := by
  obtain ⟨as, rfl⟩ := ha
  obtain ⟨bs, rfl⟩ := hb
  rw [← encode_append]
  exact valid_encode _

theorem IsChar.valid {bs : Str} (h : IsChar bs) : Valid bs := by
  obtain ⟨x, rfl⟩ := exists_of_isChar h
  exact ⟨[x], (List.append_nil _).symm⟩

/-- ASCII is a text. -/
theorem valid_ascii {s : Str} (h : ∀ c ∈ s, c < 0x80) : Valid s := by
  induction s with
  | nil => exact valid_nil
  | cons c s ih =>
    rw [List.forall_mem_cons] at h
    exact (IsChar.one h.1).valid.append (ih h.2)

/-- A character over ASCII is bytes over ASCII. -/
theorem IsChar.high {bs : Str} (h : IsChar bs) : (∃ c, bs = [c] ∧ c < 0x80) ∨ ∀ c ∈ bs, 0x80 ≤ c := by
  have hcont : ∀ {c : UInt8}, isCont c = true → 0x80 ≤ c := fun hc => (isCont_iff _).mp hc |>.1
  have hlead : ∀ {a lo : UInt8}, 0x80 ≤ lo → lo ≤ a → 0x80 ≤ a := UInt8.le_trans
  cases h with
  | one ha => exact .inl ⟨_, rfl, ha⟩
  | two ha hb =>
    simp only [List.mem_cons, List.not_mem_nil, or_false, forall_eq_or_imp, forall_eq]
    exact .inr ⟨hlead (by decide) ha.1, hcont hb⟩
  | three ha hb hc =>
    simp only [List.mem_cons, List.not_mem_nil, or_false, forall_eq_or_imp, forall_eq]
    exact .inr ⟨hlead (by decide) ha.1, hcont hb, hcont hc⟩
  | four ha hb hc hd =>
    simp only [List.mem_cons, List.not_mem_nil, or_false, forall_eq_or_imp, forall_eq]
    exact .inr ⟨hlead (by decide) ha.1, hcont hb, hcont hc, hcont hd⟩

/-- Other ASCII for ASCII leaves a text. -/
theorem Valid.map {s : Str} (hs : Valid s) {f : UInt8 → UInt8} (hlow : ∀ c, c < 0x80 → f c < 0x80)
    (hhigh : ∀ c, 0x80 ≤ c → f c = c) : Valid (s.map f) := by
  obtain ⟨cs, rfl⟩ := hs
  induction cs with
  | nil => exact valid_nil
  | cons x cs ih =>
    rw [encode_cons, List.map_append]
    refine Valid.append ?_ ih
    rcases (isChar_encodeChar x).high with ⟨c, hc, hascii⟩ | hbytes
    · rw [hc]
      exact (IsChar.one (hlow c hascii)).valid
    · rw [List.map_congr_left fun c hc => hhigh c (hbytes c hc), List.map_id']
      exact (isChar_encodeChar x).valid

end Shclaw.Lib
