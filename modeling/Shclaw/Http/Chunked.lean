/-
  Shclaw.Http.Chunked — the body of a chunked response (`src/http.c`: `http_dechunk`).

  `dechunkLoop` is the loop in its memory: the `len` bytes of the body and the NUL behind
  them, every access checked. `dechunk` is what it makes of the bytes still to be read.
  The two agree since `out` never passes `p` (`dechunkLoop_eq`).

  `dechunk_undoes`: an encoding decodes to its data, any prefix of it to a prefix of the
  data, and on any body the loop ends and stays in the region.
-/

import Shclaw.Http.Request
import Shclaw.Lib.Percent
import Shclaw.Lib.Region

namespace Shclaw.Http

open Lib

/-! ## The code -/

/-- `memmem(s, n, "\r\n", 2)`: where it is. -/
def crlfAt : Str → Option Nat
  | [] => none
  | c :: cs => if c = 13 ∧ byte cs 0 = 10 then some 0 else (crlfAt cs).map (· + 1)

def hexNum (digits : Str) : Nat := digits.foldl (fun n c => 16 * n + (hexVal c).getD 0) 0

/-- `strtoul(s, NULL, 16)`: blanks, a sign, `0x`, and what does not fit is `ULONG_MAX`. -/
def strtoul16 (s : Str) : Nat :=
  let s := s.dropWhile isSpace
  let neg := byte s 0 = ch '-'
  let s := if byte s 0 = ch '-' ∨ byte s 0 = ch '+' then s.drop 1 else s
  let s := if byte s 0 = ch '0' ∧ (byte s 1 = ch 'x' ∨ byte s 1 = ch 'X') ∧ isHex (byte s 2) then s.drop 2 else s
  let v := hexNum (s.takeWhile isHex)
  if 2 ^ 64 ≤ v then 2 ^ 64 - 1 else if neg then (2 ^ 64 - v) % 2 ^ 64 else v

/-- The loop, for at most so many rounds: the region and `out` at its end. -/
def dechunkLoop (len : Nat) : Nat → Str → Nat → Nat → Option (Str × Nat)
  | n, mem, p, out =>
    if ¬ p < len then some (mem, out)
    else match n with
      | 0 => none
      | n + 1 => do
        let rest ← read mem p (len - p)
        match crlfAt rest with
        | none => return (mem, out)
        | some eol =>
          let chunk := strtoul16 (← readString mem p)
          let p := p + eol + 2
          if chunk = 0 then return (mem, out)
          let chunk := if len - p < chunk then len - p else chunk
          let data ← read mem p chunk
          let mem ← write mem out data
          let p := p + chunk
          if 2 ≤ len - p then
            let two ← read mem p 2
            dechunkLoop len n mem (if two = lit "\r\n" then p + 2 else p) (out + chunk)
          else dechunkLoop len n mem p (out + chunk)

/-- The body, a NUL behind it: the region and the length returned. -/
def httpDechunk (body : Str) : Option (Str × Nat) := do
  let (mem, out) ← dechunkLoop body.length body.length (body ++ [0]) 0 0
  let mem ← write mem out [0]
  return (mem, out)

/-! ## On the bytes that are left -/

def skipCrlf (s : Str) : Str := if (lit "\r\n").isPrefixOf s then s.drop 2 else s

def dechunk : Nat → Str → Str
  | 0, _ => []
  | n + 1, rest =>
    match crlfAt rest with
    | none => []
    | some eol =>
      let chunk := strtoul16 (rest.takeWhile (· ≠ 0))
      if chunk = 0 then []
      else
        let after := rest.drop (eol + 2)
        after.take chunk ++ dechunk n (skipCrlf (after.drop chunk))

theorem crlfAt_le {s : Str} {i : Nat} (h : crlfAt s = some i) : i + 2 ≤ s.length := by
  induction s generalizing i with
  | nil => cases h
  | cons c s ih =>
    rw [crlfAt] at h
    split at h
    · cases h
      cases s with
      | nil => exact absurd ‹_ ∧ _›.2 (by decide)
      | cons d s => simp
    · obtain ⟨j, hj, rfl⟩ := Option.map_eq_some_iff.mp h
      have := ih hj
      rw [List.length_cons]
      omega

/-- The region while the loop runs: `out` is behind `p`, and what is to be read is as it was. -/
structure Reading (len : Nat) (mem : Str) (p out : Nat) (rest : Str) : Prop where
  size : mem.length = len + 1
  behind : out ≤ p
  left : mem.drop p = rest ++ [0]

theorem takeWhile_nul (rest : Str) : (rest ++ [0]).takeWhile (· ≠ 0) = rest.takeWhile (· ≠ 0) := by
  induction rest with
  | nil => rfl
  | cons c rest ih =>
    rw [List.cons_append, List.takeWhile_cons, List.takeWhile_cons, ih]

theorem Reading.bounds {len p out : Nat} {mem rest : Str} (h : Reading len mem p out rest) :
    p + rest.length = len := by
  have hlen := congrArg List.length h.left
  rw [List.length_drop, h.size, List.length_append, List.length_singleton] at hlen
  omega

theorem Reading.nul {len p out : Nat} {mem rest : Str} (h : Reading len mem p out rest) :
    readString mem p = some (rest.takeWhile (· ≠ 0)) := by
  rw [readString_eq, h.left, takeWhile_nul]
  rw [h.left]
  exact List.mem_append_right _ (List.mem_singleton_self 0)

theorem Reading.drop {len p out : Nat} {mem rest : Str} (h : Reading len mem p out rest) {n : Nat} (hn : n ≤ rest.length) :
    Reading len mem (p + n) out (rest.drop n) := by
  refine ⟨h.size, Nat.le_add_right_of_le h.behind, ?_⟩
  rw [← List.drop_drop, h.left, List.drop_append_of_le_length hn]

theorem Reading.read {len p out : Nat} {mem rest : Str} (h : Reading len mem p out rest) {n : Nat} (hn : n ≤ rest.length) :
    read mem p n = some (rest.take n) := by
  have := h.bounds
  rw [read_eq (by rw [h.size]; omega), h.left, List.take_append_of_le_length hn]

/-- Copying what is read next to `out` leaves what is read after it. -/
theorem Reading.copy {len p out : Nat} {mem rest : Str} (h : Reading len mem p out rest) {n : Nat} (hn : n ≤ rest.length) :
    ∃ mem', write mem out (rest.take n) = some mem' ∧ Reading len mem' (p + n) (out + n) (rest.drop n) ∧
      mem'.take (out + n) = mem.take out ++ rest.take n := by
  have hbounds := h.bounds
  have hbehind := h.behind
  have hlen : (rest.take n).length = n := List.length_take_of_le hn
  have hfits : out + (rest.take n).length ≤ mem.length := by
    rw [hlen, h.size]
    omega
  refine ⟨_, write_eq hfits, ⟨?_, by omega, ?_⟩, ?_⟩
  · rw [written_length hfits]
    exact h.size
  · rw [written_drop hfits (by omega)]
    exact (h.drop hn).left
  · have htake := written_take hfits
    rw [hlen] at htake ⊢
    exact htake

theorem Reading.skip {len p out : Nat} {mem rest : Str} (h : Reading len mem p out rest) (htwo : 2 ≤ rest.length) :
    Reading len mem (if rest.take 2 = lit "\r\n" then p + 2 else p) out (skipCrlf rest) := by
  have hiff : (lit "\r\n").isPrefixOf rest = true ↔ rest.take 2 = lit "\r\n" := by
    rw [List.isPrefixOf_iff_prefix, List.prefix_iff_eq_take]
    exact eq_comm
  unfold skipCrlf
  by_cases hcrlf : rest.take 2 = lit "\r\n"
  · rw [if_pos hcrlf, if_pos (hiff.mpr hcrlf)]
    exact h.drop htwo
  · rw [if_neg hcrlf, if_neg (mt hiff.mp hcrlf)]
    exact h

theorem skipCrlf_short {rest : Str} (h : rest.length < 2) : skipCrlf rest = rest := by
  unfold skipCrlf
  rw [if_neg]
  intro hprefix
  have := (List.isPrefixOf_iff_prefix.mp hprefix).length_le
  rw [show (lit "\r\n").length = 2 from rfl] at this
  omega

theorem length_skipCrlf_le (rest : Str) : (skipCrlf rest).length ≤ rest.length := by
  unfold skipCrlf
  split
  · rw [List.length_drop]
    omega
  · exact Nat.le_refl _

/-- Where the loop ends. -/
theorem Reading.stop {len p out : Nat} {mem rest : Str} (h : Reading len mem p out rest) :
    ∃ mem' out', some (mem, out) = some (mem', out') ∧ mem'.length = len + 1 ∧ out' ≤ len ∧
      mem'.take out' = mem.take out ++ [] := by
  have hbounds := h.bounds
  have hbehind := h.behind
  exact ⟨mem, out, rfl, h.size, by omega, (List.append_nil _).symm⟩

/-- The loop in its memory makes what is wanted of the bytes left, and touches nothing else. -/
theorem dechunkLoop_eq {len n p out : Nat} {mem rest : Str} (h : Reading len mem p out rest) (hn : rest.length ≤ n) :
    ∃ mem' out', dechunkLoop len n mem p out = some (mem', out') ∧ mem'.length = len + 1 ∧ out' ≤ len ∧
      mem'.take out' = mem.take out ++ dechunk n rest := by
  induction n generalizing p out mem rest with
  | zero =>
    have hbounds := h.bounds
    rw [dechunkLoop, if_pos (by omega)]
    exact h.stop
  | succ n ih =>
    have hbounds := h.bounds
    rw [dechunkLoop, dechunk]
    by_cases hend : ¬ p < len
    · have hnil : rest = [] := List.length_eq_zero_iff.mp (by omega)
      rw [if_pos hend, hnil]
      exact h.stop
    rw [if_neg hend, show len - p = rest.length by omega, h.read (Nat.le_refl _), List.take_length]
    simp only [Option.bind_eq_bind, Option.bind_some]
    cases heol : crlfAt rest with
    | none => exact h.stop
    | some eol =>
      have hle := crlfAt_le heol
      simp only [h.nul, Option.bind_some]
      by_cases hzero : strtoul16 (rest.takeWhile (· ≠ 0)) = 0
      · rw [if_pos hzero, if_pos hzero]
        exact h.stop
      rw [if_neg hzero, if_neg hzero]
      have hafter := h.drop hle
      have hlen := hafter.bounds
      rw [← Nat.add_assoc] at hafter hlen
      rw [show len - (p + eol + 2) = (rest.drop (eol + 2)).length by omega]
      have hshort : (rest.drop (eol + 2)).length ≤ n := by
        rw [List.length_drop]
        omega
      generalize rest.drop (eol + 2) = after at hafter hlen hshort ⊢
      generalize strtoul16 (rest.takeWhile (· ≠ 0)) = chunk
      -- the clamp
      obtain ⟨k, hk, hkle, htake, hdrop⟩ : ∃ k, (if after.length < chunk then after.length else chunk) = k ∧
          k ≤ after.length ∧ after.take chunk = after.take k ∧ after.drop chunk = after.drop k := by
        by_cases hover : after.length < chunk
        · refine ⟨after.length, if_pos hover, Nat.le_refl _, ?_, ?_⟩
          · rw [List.take_of_length_le (Nat.le_of_lt hover), List.take_length]
          · rw [List.drop_of_length_le (Nat.le_of_lt hover), List.drop_length]
        · exact ⟨chunk, if_neg hover, Nat.le_of_not_lt hover, rfl, rfl⟩
      obtain ⟨mem', hwrite, hcopied, htaken⟩ := hafter.copy hkle
      simp only [hk, hafter.read hkle, Option.bind_some, hwrite]
      rw [htake, hdrop]
      have hleft : len - (p + eol + 2 + k) = (after.drop k).length := by
        have := hcopied.bounds
        omega
      have hskip := length_skipCrlf_le (after.drop k)
      have hrest : (after.drop k).length ≤ n := by
        rw [List.length_drop]
        omega
      rw [hleft]
      by_cases htwo : 2 ≤ (after.drop k).length
      · rw [if_pos htwo, hcopied.read htwo]
        simp only [Option.bind_some]
        obtain ⟨mem'', out'', hloop, hsize, hout, htext⟩ := ih (hcopied.skip htwo) (by omega)
        exact ⟨mem'', out'', hloop, hsize, hout, by rw [htext, htaken, List.append_assoc]⟩
      · rw [if_neg htwo]
        obtain ⟨mem'', out'', hloop, hsize, hout, htext⟩ := ih hcopied hrest
        rw [skipCrlf_short (by omega)]
        exact ⟨mem'', out'', hloop, hsize, hout, by rw [htext, htaken, List.append_assoc]⟩

theorem httpDechunk_eq (body : Str) : ∃ mem out, httpDechunk body = some (mem, out) ∧ mem.length = body.length + 1 ∧
    out ≤ body.length ∧ mem.take (out + 1) = dechunk body.length body ++ [0] ∧ out = (dechunk body.length body).length := by
  have hstart : Reading body.length (body ++ [0]) 0 0 body := ⟨by simp, Nat.le_refl 0, rfl⟩
  obtain ⟨mem, out, hloop, hsize, hout, htext⟩ := dechunkLoop_eq hstart (Nat.le_refl _)
  have hfits : out + ([0] : Str).length ≤ mem.length := by
    rw [List.length_singleton]
    omega
  rw [List.take_zero, List.nil_append] at htext
  refine ⟨mem.take out ++ [0] ++ mem.drop (out + 1), out, ?_, ?_, hout, ?_, ?_⟩
  · rw [httpDechunk, hloop]
    simp only [Option.bind_eq_bind, Option.bind_some, write_eq hfits]
    rfl
  · rw [← hsize]
    exact written_length hfits
  · rw [← htext]
    exact written_take hfits
  · rw [← htext, List.length_take]
    omega

/-! ## Encodings -/

/-- A size line: a hexadecimal number and an extension. -/
structure SizeLine (n : Nat) where
  digits : Str
  ext : Str
  nonempty : digits ≠ []
  hex : ∀ c ∈ digits, isHex c = true
  value : hexNum digits = n
  extension : ext = [] ∨ byte ext 0 = ch ';'
  oneLine : ¬ lit "\r\n" <:+: ext

def SizeLine.text {n : Nat} (l : SizeLine n) : Str := l.digits ++ l.ext

structure Chunk where
  data : Str
  nonempty : data ≠ []
  line : SizeLine data.length

def Chunk.text (c : Chunk) : Str := c.line.text ++ lit "\r\n" ++ c.data ++ lit "\r\n"

/-- The chunks, a zero chunk and whatever follows it: trailers and an empty line. -/
def encoding (cs : List Chunk) (last : SizeLine 0) (tail : Str) : Str :=
  cs.flatMap Chunk.text ++ (last.text ++ lit "\r\n" ++ tail)

def payload (cs : List Chunk) : Str := cs.flatMap Chunk.data

/-! ## Size lines -/

/-- What a hexadecimal digit is not. -/
theorem isHex_plain {c : UInt8} (h : isHex c = true) :
    isSpace c = false ∧ c ≠ 0 ∧ c ≠ 13 ∧ c ≠ ch '-' ∧ c ≠ ch '+' ∧ c ≠ ch 'x' ∧ c ≠ ch 'X' := by
  have hall := forall_byte (P := fun c => isHex c = true → isSpace c = false ∧ c ≠ 0 ∧ c ≠ 13 ∧ c ≠ ch '-' ∧
    c ≠ ch '+' ∧ c ≠ ch 'x' ∧ c ≠ ch 'X') (by decide +kernel)
  exact hall c h

/-- What may follow the digits. -/
def EndsNumber (t : Str) : Prop := isHex (byte t 0) = false ∧ byte t 0 ≠ ch 'x' ∧ byte t 0 ≠ ch 'X'

theorem endsNumber_takeWhile {c : UInt8} (hc : isHex c = false ∧ c ≠ ch 'x' ∧ c ≠ ch 'X') (hnul : c ≠ 0) (t : Str) :
    EndsNumber ((c :: t).takeWhile (· ≠ 0)) := by
  rw [List.takeWhile_cons_of_pos (by simpa using hnul)]
  exact hc

theorem strtoul16_digits {digits t : Str} (hne : digits ≠ []) (hhex : ∀ c ∈ digits, isHex c = true) (ht : EndsNumber t)
    (hsize : hexNum digits < 2 ^ 64) : strtoul16 (digits ++ t) = hexNum digits := by
  obtain ⟨d, ds, rfl⟩ := List.exists_cons_of_ne_nil hne
  obtain ⟨hspace, -, -, hminus, hplus, -, -⟩ := isHex_plain (hhex d List.mem_cons_self)
  have hsecond : byte (d :: ds ++ t) 1 ≠ ch 'x' ∧ byte (d :: ds ++ t) 1 ≠ ch 'X' := by
    cases ds with
    | nil => exact ht.2
    | cons e ds =>
      have he := isHex_plain (hhex e (List.mem_cons_of_mem _ List.mem_cons_self))
      exact ⟨he.2.2.2.2.2.1, he.2.2.2.2.2.2⟩
  have htake : (d :: ds ++ t).takeWhile isHex = d :: ds := by
    rw [List.takeWhile_append_of_pos hhex]
    cases t with
    | nil => exact List.append_nil _
    | cons c t =>
      rw [List.takeWhile_cons_of_neg (by simpa [byte] using ht.1), List.append_nil]
  unfold strtoul16
  have hdrop : (d :: ds ++ t).dropWhile isSpace = d :: ds ++ t := by
    rw [List.cons_append, List.dropWhile_cons_of_neg (by simp [hspace])]
  have hd : byte (d :: ds ++ t) 0 = d := rfl
  simp only [hdrop, hd, hminus, hplus, or_self, if_false, hsecond.1, hsecond.2, false_and, and_false, htake]
  rw [if_neg (by omega)]

variable {n : Nat} (l : SizeLine n)

theorem SizeLine.noCrlf : ¬ lit "\r\n" <:+: l.text := by
  have hall : ∀ digits : Str, (∀ c ∈ digits, isHex c = true) → ¬ lit "\r\n" <:+: digits ++ l.ext := by
    intro digits
    induction digits with
    | nil => exact fun _ => l.oneLine
    | cons d digits ih =>
      intro hhex
      rw [List.cons_append, List.infix_cons_iff, not_or]
      refine ⟨?_, ih fun c hc => hhex c (List.mem_cons_of_mem _ hc)⟩
      intro hprefix
      have hd : (13 : UInt8) = d := (List.cons_prefix_cons.mp hprefix).1
      exact (isHex_plain (hhex d List.mem_cons_self)).2.2.1 hd.symm
  exact hall _ l.hex

/-- The number of the line, read from its start. -/
theorem SizeLine.size (hn : n < 2 ^ 64) (rest : Str) :
    strtoul16 ((l.text ++ lit "\r\n" ++ rest).takeWhile (· ≠ 0)) = n := by
  have hdigits : ∀ c ∈ l.digits, decide (c ≠ 0) = true := by
    intro c hc
    rw [decide_eq_true_eq]
    exact (isHex_plain (l.hex c hc)).2.1
  rw [SizeLine.text, List.append_assoc, List.append_assoc, List.takeWhile_append_of_pos hdigits,
    strtoul16_digits l.nonempty l.hex, l.value]
  · rcases l.extension with hext | hext
    · rw [hext]
      exact endsNumber_takeWhile (by decide) (by decide) _
    · cases hcons : l.ext with
      | nil =>
        rw [hcons] at hext
        exact absurd hext (by decide)
      | cons c ext =>
        rw [hcons] at hext
        have hc : c = ch ';' := hext
        rw [hc]
        exact endsNumber_takeWhile (by decide) (by decide) _
  · rw [l.value]
    exact hn

theorem crlfAt_first {line : Str} (h : ¬ lit "\r\n" <:+: line) (rest : Str) :
    crlfAt (line ++ lit "\r\n" ++ rest) = some line.length := by
  induction line with
  | nil => rfl
  | cons c line ih =>
    rw [List.infix_cons_iff, not_or] at h
    rw [List.cons_append, List.cons_append, crlfAt, if_neg, ih h.2]
    · rfl
    · rintro ⟨rfl, hnext⟩
      cases line with
      | nil => exact absurd (show (13 : UInt8) = 10 from hnext) (by decide)
      | cons d line =>
        have hd : d = 10 := hnext
        exact h.1 ⟨line, by rw [hd]; rfl⟩

/-- A line that has not ended. -/
theorem crlfAt_open {line pre : Str} (h : ¬ lit "\r\n" <:+: line) (hpre : pre <+: line ++ [13]) : crlfAt pre = none := by
  induction line generalizing pre with
  | nil =>
    cases pre with
    | nil => rfl
    | cons c pre =>
      obtain ⟨rfl, hnil⟩ := List.cons_prefix_cons.mp hpre
      rw [List.prefix_nil.mp hnil]
      rfl
  | cons c line ih =>
    rw [List.infix_cons_iff, not_or] at h
    cases pre with
    | nil => rfl
    | cons d pre =>
      obtain ⟨rfl, hrest⟩ := List.cons_prefix_cons.mp hpre
      rw [crlfAt, if_neg, ih h.2 hrest]
      · rfl
      · rintro ⟨rfl, hnext⟩
        cases pre with
        | nil => exact absurd hnext (by decide)
        | cons e pre =>
          have he : e = 10 := hnext
          cases line with
          | nil =>
            have hcr := (List.cons_prefix_cons.mp hrest).1
            exact absurd (hcr.symm.trans he) (by decide)
          | cons f line =>
            have hf := (List.cons_prefix_cons.mp hrest).1
            exact h.1 ⟨line, by rw [← hf, he]; rfl⟩

/-! ## Decoding -/

/-- A size line that has ended. -/
theorem dechunk_line (hn : n < 2 ^ 64) (k : Nat) (after : Str) : dechunk (k + 1) (l.text ++ lit "\r\n" ++ after) =
    if n = 0 then [] else after.take n ++ dechunk k (skipCrlf (after.drop n)) := by
  have hdrop : (l.text ++ lit "\r\n" ++ after).drop (l.text.length + 2) = after := by
    apply List.drop_left'
    rw [List.length_append]
    rfl
  rw [dechunk, crlfAt_first l.noCrlf]
  simp only [l.size hn, hdrop]

theorem dechunk_open {line pre : Str} (h : ¬ lit "\r\n" <:+: line) (hpre : pre <+: line ++ [13]) (k : Nat) :
    dechunk k pre = [] := by
  cases k with
  | zero => rfl
  | succ k => rw [dechunk, crlfAt_open h hpre]

theorem prefix_cases {pre a b : Str} (h : pre <+: a ++ b) : pre <+: a ∨ ∃ more, pre = a ++ more ∧ more <+: b := by
  by_cases hle : pre.length ≤ a.length
  · exact .inl (List.prefix_of_prefix_length_le h (List.prefix_append a b) hle)
  · obtain ⟨more, rfl⟩ := List.prefix_of_prefix_length_le (List.prefix_append a b) h (by omega)
    exact .inr ⟨more, rfl, (List.prefix_append_right_inj a).mp h⟩

/-- A line and its CR LF: they have ended, or not. -/
theorem line_cases {pre line rest : Str} (h : pre <+: line ++ lit "\r\n" ++ rest) :
    pre <+: line ++ [13] ∨ ∃ more, pre = line ++ lit "\r\n" ++ more ∧ more <+: rest := by
  rw [show line ++ lit "\r\n" ++ rest = line ++ [13] ++ (10 :: rest) by
    rw [List.append_assoc, List.append_assoc]
    rfl] at h
  rcases prefix_cases h with h | ⟨more, rfl, hmore⟩
  · exact .inl h
  · cases more with
    | nil => exact .inl (by rw [List.append_nil])
    | cons c more =>
      obtain ⟨rfl, hrest⟩ := List.cons_prefix_cons.mp hmore
      refine .inr ⟨more, ?_, hrest⟩
      rw [List.append_assoc, List.append_assoc]
      rfl

theorem encoding_cons (c : Chunk) (cs : List Chunk) (last : SizeLine 0) (tail : Str) : encoding (c :: cs) last tail =
    c.line.text ++ lit "\r\n" ++ (c.data ++ (lit "\r\n" ++ encoding cs last tail)) := by
  simp only [encoding, List.flatMap_cons, Chunk.text, List.append_assoc]

theorem dechunk_encoding {cs : List Chunk} (hcs : ∀ c ∈ cs, c.data.length < 2 ^ 64) (last : SizeLine 0) (tail : Str)
    {k : Nat} (hk : (encoding cs last tail).length ≤ k) : dechunk k (encoding cs last tail) = payload cs := by
  induction cs generalizing k with
  | nil =>
    cases k with
    | zero => rfl
    | succ k => exact dechunk_line last (by decide) k tail
  | cons c cs ih =>
    rw [encoding_cons] at hk ⊢
    cases k with
    | zero =>
      simp only [List.length_append, Nat.le_zero, Nat.add_eq_zero_iff] at hk
      exact absurd (List.length_eq_zero_iff.mp hk.2.1) c.nonempty
    | succ k =>
      have hpos : c.data.length ≠ 0 := fun h => c.nonempty (List.length_eq_zero_iff.mp h)
      rw [dechunk_line c.line (hcs c List.mem_cons_self), if_neg hpos, List.take_left, List.drop_left]
      rw [show skipCrlf (lit "\r\n" ++ encoding cs last tail) = encoding cs last tail from rfl]
      rw [ih (fun x hx => hcs x (List.mem_cons_of_mem _ hx))]
      · rfl
      · simp only [List.length_append] at hk
        have : (lit "\r\n").length = 2 := rfl
        omega

theorem dechunk_prefix {cs : List Chunk} (hcs : ∀ c ∈ cs, c.data.length < 2 ^ 64) (last : SizeLine 0) (tail : Str)
    (k : Nat) {pre : Str} (hpre : pre <+: encoding cs last tail) : dechunk k pre <+: payload cs := by
  induction cs generalizing k pre with
  | nil =>
    rcases line_cases hpre with hopen | ⟨after, rfl, -⟩
    · rw [dechunk_open last.noCrlf hopen]
      exact List.nil_prefix
    · cases k with
      | zero => exact List.nil_prefix
      | succ k =>
        rw [dechunk_line last (by decide), if_pos rfl]
        exact List.nil_prefix
  | cons c cs ih =>
    have ih := fun k pre => @ih (fun x hx => hcs x (List.mem_cons_of_mem _ hx)) k pre
    rw [encoding_cons] at hpre
    rcases line_cases hpre with hopen | ⟨after, rfl, hafter⟩
    · rw [dechunk_open c.line.noCrlf hopen]
      exact List.nil_prefix
    cases k with
    | zero => exact List.nil_prefix
    | succ k =>
      have hpos : c.data.length ≠ 0 := fun h => c.nonempty (List.length_eq_zero_iff.mp h)
      have hempty : ∀ s : Str, s <+: [13] → dechunk k s = [] := fun s hs => @dechunk_open [] s (by decide) hs k
      rw [dechunk_line c.line (hcs c List.mem_cons_self), if_neg hpos, payload, List.flatMap_cons]
      rcases prefix_cases hafter with hdata | ⟨more, rfl, hmore⟩
      · -- cut in the data
        have hle := hdata.length_le
        rw [List.take_of_length_le hle, List.drop_of_length_le hle, show skipCrlf [] = [] from rfl,
          hempty [] List.nil_prefix, List.append_nil]
        exact hdata.trans (List.prefix_append _ _)
      · rw [List.take_left, List.drop_left, List.prefix_append_right_inj]
        rcases @line_cases more [] (encoding cs last tail) hmore with hopen | ⟨rest, rfl, hrest⟩
        · have hshort : more.length < 2 := Nat.lt_succ_of_le hopen.length_le
          rw [skipCrlf_short hshort, hempty more hopen]
          exact List.nil_prefix
        · exact ih k rest hrest

/-- An encoding decodes to its data, a part of it to a part of the data; and any body is decoded in place. -/
theorem dechunk_undoes (cs : List Chunk) (last : SizeLine 0) (tail : Str)
    (hsize : (encoding cs last tail).length < 2 ^ 64) :
    (∃ mem, httpDechunk (encoding cs last tail) = some (mem, (payload cs).length) ∧
      mem.take ((payload cs).length + 1) = payload cs ++ [0]) ∧
    (∀ pre, pre <+: encoding cs last tail → ∃ mem out, httpDechunk pre = some (mem, out) ∧ mem.take out <+: payload cs ∧
      out = (mem.take out).length) ∧
    ∀ body, ∃ mem out, httpDechunk body = some (mem, out) ∧ mem.length = body.length + 1 ∧ out ≤ body.length := by
  have hcs : ∀ c ∈ cs, c.data.length < 2 ^ 64 := by
    intro c hc
    obtain ⟨a, b, rfl⟩ := List.append_of_mem hc
    simp only [encoding, List.flatMap_append, List.flatMap_cons, Chunk.text, List.length_append] at hsize
    omega
  refine ⟨?_, ?_, ?_⟩
  · obtain ⟨mem, out, hrun, -, -, htext, hout⟩ := httpDechunk_eq (encoding cs last tail)
    rw [dechunk_encoding hcs last tail (Nat.le_refl _)] at htext hout
    rw [hout] at hrun htext
    exact ⟨mem, hrun, htext⟩
  · intro pre hpre
    obtain ⟨mem, out, hrun, hmem, hle, htext, hout⟩ := httpDechunk_eq pre
    have htake : mem.take out = dechunk pre.length pre := by
      have := congrArg (List.take out) htext
      rw [List.take_take, Nat.min_eq_left (Nat.le_succ out), hout, List.take_left, ← hout] at this
      exact this
    refine ⟨mem, out, hrun, ?_, ?_⟩
    · rw [htake]
      exact dechunk_prefix hcs last tail _ hpre
    · rw [htake]
      exact hout
  · intro body
    obtain ⟨mem, out, hrun, hmem, hle, -, -⟩ := httpDechunk_eq body
    exact ⟨mem, out, hrun, hmem, hle⟩

/-- `4;x`, `Wiki`, `05`, `pedia`, and the zero chunk. -/
def wikipedia : List Chunk :=
  [⟨lit "Wiki", by decide, ⟨lit "4", lit ";x", by decide, List.all_eq_true.mp (by decide), by decide, by decide, by decide⟩⟩,
   ⟨lit "pedia", by decide, ⟨lit "05", [], by decide, List.all_eq_true.mp (by decide), by decide, by decide, by decide⟩⟩]

def zeroSize : SizeLine 0 := ⟨lit "0", [], by decide, List.all_eq_true.mp (by decide), by decide, by decide, by decide⟩

theorem dechunk_undoes_wikipedia : ∃ mem, httpDechunk (lit "4;x\r\nWiki\r\n05\r\npedia\r\n0\r\n\r\n") = some (mem, 9) ∧
    mem.take 10 = lit "Wikipedia" ++ [0] :=
  (dechunk_undoes wikipedia zeroSize (lit "\r\n") (by decide)).1

end Shclaw.Http
