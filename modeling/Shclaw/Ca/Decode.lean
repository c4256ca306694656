/-
  Shclaw.Ca.Decode — the base64 of a certificate (`src/ca.c`: `B64` and the loop over a
  line of `load_pem_file`).

  Four digits a turn go into a buffer that is doubled when three bytes do not fit. A write
  at or behind `der_cap` fails (`Der.put`); none does (`decodeLine_eq`), whatever the bytes
  of the line. A byte that is no digit counts as 0, and as no byte where it is the pad.
  Memory is always there.
-/

import Shclaw.Lib.Base64

namespace Shclaw.Ca

open Lib

/-! ## The buffer -/

/-- `der`, of which `der_len` bytes are written; no buffer has room for nothing. -/
structure Der where
  bytes : Str
  cap : Nat

/-- A write at `der_len`. -/
def Der.put (d : Der) (c : UInt8) : Option Der :=
  if d.bytes.length < d.cap then some { d with bytes := d.bytes ++ [c] } else none

def Der.grow (d : Der) : Der := if d.cap < d.bytes.length + 3 then { d with cap := d.cap * 2 } else d

/-! ## Base64 -/

/-- The decode table; a byte that is no digit is 0 in it. -/
def B64 (c : UInt8) : Nat :=
  if ch 'A' ≤ c ∧ c ≤ ch 'Z' then c.toNat - 65
  else if ch 'a' ≤ c ∧ c ≤ ch 'z' then c.toNat - 97 + 26
  else if ch '0' ≤ c ∧ c ≤ ch '9' then c.toNat - 48 + 52
  else if c = ch '+' then 62
  else if c = ch '/' then 63
  else 0

/-- The loop over a line, four digits a turn. -/
def decodeLine (d : Der) : Str → Option Der
  | c0 :: c1 :: c2 :: c3 :: rest => do
    let d ← d.grow.put (UInt8.ofNat (B64 c0 <<< 2 ||| B64 c1 >>> 4))
    let d ← if c2 ≠ ch '=' then d.put (UInt8.ofNat (B64 c1 <<< 4 ||| B64 c2 >>> 2)) else some d
    let d ← if c3 ≠ ch '=' then d.put (UInt8.ofNat (B64 c2 <<< 6 ||| B64 c3)) else some d
    decodeLine d rest
  | _ => some d

/-! ## Decoding -/

/-- The bytes of four digits. -/
def quad (c0 c1 c2 c3 : UInt8) : Str :=
  UInt8.ofNat (B64 c0 <<< 2 ||| B64 c1 >>> 4) ::
    ((if c2 ≠ ch '=' then [UInt8.ofNat (B64 c1 <<< 4 ||| B64 c2 >>> 2)] else []) ++
      (if c3 ≠ ch '=' then [UInt8.ofNat (B64 c2 <<< 6 ||| B64 c3)] else []))

def decoded : Str → Str
  | c0 :: c1 :: c2 :: c3 :: rest => quad c0 c1 c2 c3 ++ decoded rest
  | _ => []

@[simp] theorem decoded_nil : decoded [] = [] := rfl

/-- A buffer that is there, and what is written of it. -/
structure Der.Ok (d : Der) : Prop where
  there : 3 ≤ d.cap
  fits : d.bytes.length ≤ d.cap

theorem put_eq {d : Der} {n : Nat} (h : d.bytes.length + n ≤ d.cap) (hn : 0 < n) (c : UInt8) :
    d.put c = some { d with bytes := d.bytes ++ [c] } := if_pos (by omega)

theorem grow_room {d : Der} (h : d.Ok) : d.grow.bytes = d.bytes ∧ d.bytes.length + 3 ≤ d.grow.cap := by
  obtain ⟨hthere, hfits⟩ := h
  unfold Der.grow
  split
  · exact ⟨rfl, by simp only; omega⟩
  · exact ⟨rfl, by omega⟩

/-- The four digits of a turn are written. -/
theorem decodeLine_cons {d : Der} (h : d.Ok) (c0 c1 c2 c3 : UInt8) (rest : Str) :
    ∃ cap, decodeLine d (c0 :: c1 :: c2 :: c3 :: rest) = decodeLine ⟨d.bytes ++ quad c0 c1 c2 c3, cap⟩ rest ∧
      Der.Ok ⟨d.bytes ++ quad c0 c1 c2 c3, cap⟩ := by
  obtain ⟨hbytes, hroom⟩ := grow_room h
  generalize hg : d.grow = g at *
  rw [← hbytes] at hroom ⊢
  refine ⟨g.cap, ?_, ?_⟩
  · rw [decodeLine, hg, put_eq (n := 3) (by omega) (by decide)]
    unfold quad
    by_cases h2 : c2 = ch '='
    · by_cases h3 : c3 = ch '='
      · simp [h2, h3]
      · simp only [h2, h3, ne_eq, not_true, not_false_eq_true, if_true, if_false, Option.bind_eq_bind, Option.bind_some]
        rw [put_eq (n := 2) (by simp only [List.length_append, List.length_singleton]; omega) (by decide)]
        simp
    · by_cases h3 : c3 = ch '='
      · simp only [h2, h3, ne_eq, not_true, not_false_eq_true, if_true, if_false, Option.bind_eq_bind, Option.bind_some]
        rw [put_eq (n := 2) (by simp only [List.length_append, List.length_singleton]; omega) (by decide)]
        simp
      · simp only [h2, h3, ne_eq, not_false_eq_true, if_true, Option.bind_eq_bind, Option.bind_some]
        rw [put_eq (n := 2) (by simp only [List.length_append, List.length_singleton]; omega) (by decide), Option.bind_some,
          put_eq (n := 1) (by simp only [List.length_append, List.length_singleton]; omega) (by decide)]
        simp
  · have hquad : (quad c0 c1 c2 c3).length ≤ 3 := by
      unfold quad
      split <;> split <;> simp
    exact ⟨by simp only; omega, by simp only [List.length_append]; omega⟩

theorem decodeLine_eq {d : Der} (h : d.Ok) (s : Str) :
    ∃ cap, decodeLine d s = some ⟨d.bytes ++ decoded s, cap⟩ ∧ Der.Ok ⟨d.bytes ++ decoded s, cap⟩ := by
  fun_induction decoded s generalizing d with
  | case1 c0 c1 c2 c3 rest ih =>
    obtain ⟨cap, hstep, hok⟩ := decodeLine_cons h c0 c1 c2 c3 rest
    obtain ⟨cap', hrest, hok'⟩ := ih hok
    rw [List.append_assoc] at hrest hok'
    exact ⟨cap', hstep.trans hrest, hok'⟩
  | case2 s hs =>
    rw [List.append_nil]
    refine ⟨d.cap, ?_, h⟩
    unfold decodeLine
    split
    · exact absurd rfl (hs _ _ _ _ _)
    · rfl

theorem B64_digit : ∀ n < 64, B64 (base64Digit n) = n := by decide +kernel

theorem digit_ne_pad : ∀ n < 64, base64Digit n ≠ ch '=' := by decide +kernel

theorem ofNat_add_toNat (k : Nat) (x : UInt8) : UInt8.ofNat (k * 256 + x.toNat) = x := by
  have := x.toNat_lt
  rw [← UInt8.toNat_inj, UInt8.toNat_ofNat']
  omega

/-- The digits on both sides of a byte. -/
theorem first_byte (x : UInt8) {r : Nat} (hr : r < 16) :
    UInt8.ofNat ((x.toNat / 4) <<< 2 ||| (x.toNat % 4 * 16 + r) >>> 4) = x := by
  have hlow : (x.toNat % 4 * 16 + r) >>> 4 = x.toNat % 4 := by
    rw [Nat.shiftRight_eq_div_pow]
    omega
  rw [hlow, ← Nat.shiftLeft_add_eq_or_of_lt (by omega), Nat.shiftLeft_eq,
    show x.toNat / 4 * 2 ^ 2 + x.toNat % 4 = 0 * 256 + x.toNat by omega, ofNat_add_toNat]

theorem second_byte (x y : UInt8) {r : Nat} (hr : r < 4) :
    UInt8.ofNat ((x.toNat % 4 * 16 + y.toNat / 16) <<< 4 ||| (y.toNat % 16 * 4 + r) >>> 2) = y := by
  have hlow : (y.toNat % 16 * 4 + r) >>> 2 = y.toNat % 16 := by
    rw [Nat.shiftRight_eq_div_pow]
    omega
  rw [hlow, ← Nat.shiftLeft_add_eq_or_of_lt (by omega), Nat.shiftLeft_eq,
    show (x.toNat % 4 * 16 + y.toNat / 16) * 2 ^ 4 + y.toNat % 16 = x.toNat % 4 * 256 + y.toNat by omega, ofNat_add_toNat]

theorem third_byte (y z : UInt8) : UInt8.ofNat ((y.toNat % 16 * 4 + z.toNat / 64) <<< 6 ||| z.toNat % 64) = z := by
  rw [← Nat.shiftLeft_add_eq_or_of_lt (by omega), Nat.shiftLeft_eq,
    show (y.toNat % 16 * 4 + z.toNat / 64) * 2 ^ 6 + z.toNat % 64 = y.toNat % 16 * 256 + z.toNat by omega, ofNat_add_toNat]

theorem decoded_base64 (s : Str) : decoded (base64 s) = s := by
  have hbyte := fun x : UInt8 => x.toNat_lt
  fun_induction base64 s with
  | case1 => rfl
  | case2 x =>
    have hx := hbyte x
    rw [decoded, decoded_nil, quad, B64_digit _ (by omega), B64_digit _ (by omega), if_neg (by simp), if_neg (by simp)]
    simpa using first_byte x (r := 0) (by decide)
  | case3 x y =>
    have hx := hbyte x
    have hy := hbyte y
    rw [decoded, decoded_nil, quad, B64_digit _ (by omega), B64_digit _ (by omega), B64_digit _ (by omega),
      if_pos (digit_ne_pad _ (by omega)), if_neg (by simp), first_byte x (by omega)]
    simpa using second_byte x y (r := 0) (by decide)
  | case4 x y z s ih =>
    have hx := hbyte x
    have hy := hbyte y
    have hz := hbyte z
    rw [decoded, quad, B64_digit _ (by omega), B64_digit _ (by omega), B64_digit _ (by omega), B64_digit _ (by omega),
      if_pos (digit_ne_pad _ (by omega)), if_pos (digit_ne_pad _ (by omega)), first_byte x (by omega), second_byte x y (by omega),
      third_byte y z, ih]
    rfl

theorem decoded_append {a : Str} (h : 4 ∣ a.length) (b : Str) : decoded (a ++ b) = decoded a ++ decoded b := by
  fun_induction decoded a with
  | case1 c0 c1 c2 c3 rest ih =>
    simp only [List.length_cons] at h
    rw [List.cons_append, List.cons_append, List.cons_append, List.cons_append, decoded, ih (by omega), List.append_assoc]
  | case2 a ha =>
    rcases a with _ | ⟨c0, _ | ⟨c1, _ | ⟨c2, _ | ⟨c3, rest⟩⟩⟩⟩
    · rfl
    · simp at h
    · simp at h
    · simp at h
    · exact absurd rfl (ha _ _ _ _ _)

/-- Groups of digits that are cut off are missing. -/
theorem length_decoded_take {s : Str} (h : 4 ∣ s.length) {m : Nat} (hm : m < s.length) :
    (decoded (s.take m)).length < (decoded s).length := by
  fun_induction decoded s generalizing m with
  | case1 c0 c1 c2 c3 rest ih =>
    simp only [List.length_cons] at h hm
    have hquad : 0 < (quad c0 c1 c2 c3).length := by simp [quad]
    rcases m with _ | _ | _ | _ | m
    · simp [hquad]
    · simp [decoded, hquad]
    · simp [decoded, hquad]
    · simp [decoded, hquad]
    · simp only [List.take_succ_cons, decoded, List.length_append]
      have := ih (by omega) (m := m) (by omega)
      omega
  | case2 s hs =>
    rcases s with _ | ⟨c0, _ | ⟨c1, _ | ⟨c2, _ | ⟨c3, rest⟩⟩⟩⟩
    · simp at hm
    · simp at h
    · simp at h
    · simp at h
    · exact absurd rfl (hs _ _ _ _ _)

end Shclaw.Ca
