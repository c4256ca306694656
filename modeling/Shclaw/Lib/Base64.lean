/-
  Shclaw.Lib.Base64 — bytes in base64, padded to groups of four digits.
-/

import Shclaw.Lib.CString

namespace Shclaw.Lib

def base64Alphabet : Str := lit "ABCDEFGHIJKLMNOPQRSTUVWXYZabcdefghijklmnopqrstuvwxyz0123456789+/"

def base64Digit (n : Nat) : UInt8 := base64Alphabet.getD n 0

/-- Three bytes in four digits; `=` stands for the bytes that are missing. -/
def base64 : Str → Str
  | [] => []
  | [x] => [base64Digit (x.toNat / 4), base64Digit (x.toNat % 4 * 16), ch '=', ch '=']
  | [x, y] => [base64Digit (x.toNat / 4), base64Digit (x.toNat % 4 * 16 + y.toNat / 16), base64Digit (y.toNat % 16 * 4), ch '=']
  | x :: y :: z :: s =>
    base64Digit (x.toNat / 4) :: base64Digit (x.toNat % 4 * 16 + y.toNat / 16) ::
      base64Digit (y.toNat % 16 * 4 + z.toNat / 64) :: base64Digit (z.toNat % 64) :: base64 s

/-- The bytes of a base64 text. -/
def IsBase64 (c : UInt8) : Prop := c = ch '=' ∨ ∃ n < 64, c = base64Digit n

theorem isBase64_digit {n : Nat} (h : n < 64) : IsBase64 (base64Digit n) := Or.inr ⟨n, h, rfl⟩

theorem mem_base64 (s : Str) : ∀ c ∈ base64 s, IsBase64 c := by
  have hbyte := fun x : UInt8 => x.toNat_lt
  fun_induction base64 s with
  | case1 => simp
  | case2 x =>
    have := hbyte x
    simp only [List.mem_cons, List.not_mem_nil, or_false]
    rintro c (rfl | rfl | rfl | rfl)
    · exact isBase64_digit (by omega)
    · exact isBase64_digit (by omega)
    · exact Or.inl rfl
    · exact Or.inl rfl
  | case3 x y =>
    have := hbyte x
    have := hbyte y
    simp only [List.mem_cons, List.not_mem_nil, or_false]
    rintro c (rfl | rfl | rfl | rfl)
    · exact isBase64_digit (by omega)
    · exact isBase64_digit (by omega)
    · exact isBase64_digit (by omega)
    · exact Or.inl rfl
  | case4 x y z s ih =>
    have := hbyte x
    have := hbyte y
    have := hbyte z
    simp only [List.mem_cons]
    rintro c (rfl | rfl | rfl | rfl | hc)
    · exact isBase64_digit (by omega)
    · exact isBase64_digit (by omega)
    · exact isBase64_digit (by omega)
    · exact isBase64_digit (by omega)
    · exact ih c hc

/-- No digit is the byte, and neither is the pad. -/
theorem ne_of_isBase64 {c d : UInt8} (h : IsBase64 c) (hpad : d ≠ ch '=') (hdigit : d ∉ base64Alphabet) : c ≠ d := by
  rcases h with rfl | ⟨n, hn, rfl⟩
  · exact hpad.symm
  · rintro rfl
    apply hdigit
    have hlen : n < base64Alphabet.length := by
      rw [base64Alphabet, length_lit]
      exact hn
    unfold base64Digit
    rw [List.getD_eq_getElem?_getD, List.getElem?_eq_getElem hlen]
    exact List.getElem_mem hlen

end Shclaw.Lib
