/-
  Shclaw.Ca.Pem — trust anchors read from a PEM file (`src/ca.c`: `load_pem_file`).

  `load_pem_file` goes through the lines of the file and decodes those of a certificate.
  The calls of `add_trust_anchor` are a list. The length of a line is an `int`.

  `pem_exact`: no write fails on any file, and a file of certificate blocks gives exactly
  their certificates if and only if no line of a block has 2^31 bytes or more. A longer line
  is read as another length, and its certificate is not the one that was written.
-/

import Mathlib.Algebra.Order.BigOperators.Group.List
import Mathlib.Data.List.TakeWhile
import Shclaw.Ca.Decode
import Shclaw.Lib.Lines

namespace Shclaw.Ca

open Lib

/-! ## The file -/

def beginMark : Str := lit "-----BEGIN CERTIFICATE-----"

def endMark : Str := lit "-----END CERTIFICATE-----"

structure PemState where
  der : Der
  inCert : Bool
  anchors : List Str

/-- `ll`: the length of a line as an `int`, less a CR at its end. -/
def lineLen (line : Str) : Int :=
  let ll := asInt line.length
  if 0 < ll ∧ byte line (ll.toNat - 1) = ch '\r' then ll - 1 else ll

def pemLine (st : PemState) (line : Str) : Option PemState :=
  let ll := lineLen line
  if 27 ≤ ll ∧ startsWith line beginMark = true then
    some { st with inCert := true, der := ⟨[], if st.der.cap = 0 then 4096 else st.der.cap⟩ }
  else if st.inCert = true ∧ 25 ≤ ll ∧ startsWith line endMark = true then
    some ⟨⟨[], st.der.cap⟩, false, if 0 < st.der.bytes.length then st.anchors ++ [st.der.bytes] else st.anchors⟩
  else if st.inCert = true ∧ 0 < ll then
    (decodeLine st.der (line.take ll.toNat)).map fun der => { st with der }
  else some st

/-- The lines of a text, the last one with an LF or without. -/
def pemLines (s : Str) : List Str :=
  let r := segments (ch '\n') s
  r.1 ++ if r.2 = [] then [] else [r.2]

/-- `load_pem_file`: the calls of `add_trust_anchor`, unless a write fails. The text ends at a NUL. -/
def loadPemFile (file : Option Str) : Option (List Str) :=
  match file with
  | none => some []
  | some s => ((pemLines (s.takeWhile (· ≠ 0))).foldlM pemLine ⟨⟨[], 0⟩, false, []⟩).map (·.anchors)

/-! ## No write fails -/

/-- A buffer is there inside a certificate, and is in order once it is there. -/
structure PemState.Ok (st : PemState) : Prop where
  inside : st.inCert = true → st.der.Ok
  der : st.der.cap = 0 ∨ st.der.Ok

theorem begin_ok {d : Der} (h : d.cap = 0 ∨ d.Ok) : Der.Ok ⟨[], if d.cap = 0 then 4096 else d.cap⟩ := by
  refine ⟨?_, Nat.zero_le _⟩
  split
  · decide
  · rename_i hcap
    exact (h.resolve_left hcap).there

theorem pemLine_ok {st : PemState} (h : st.Ok) (line : Str) : ∃ st', pemLine st line = some st' ∧ st'.Ok := by
  obtain ⟨hinside, hder⟩ := h
  unfold pemLine
  simp only
  split
  · exact ⟨_, rfl, fun _ => begin_ok hder, Or.inr (begin_ok hder)⟩
  split
  · rename_i hend
    have hok := hinside hend.1
    exact ⟨_, rfl, fun h => (Bool.false_ne_true h).elim, Or.inr ⟨hok.there, Nat.zero_le _⟩⟩
  split
  · rename_i hbody
    obtain ⟨cap, hdecode, hok⟩ := decodeLine_eq (hinside hbody.1) (line.take (lineLen line).toNat)
    rw [hdecode]
    exact ⟨_, rfl, fun _ => hok, Or.inr hok⟩
  · exact ⟨st, rfl, hinside, hder⟩

theorem run_ok {st : PemState} (h : st.Ok) (lines : List Str) : ∃ st', lines.foldlM pemLine st = some st' ∧ st'.Ok := by
  induction lines generalizing st with
  | nil => exact ⟨st, rfl, h⟩
  | cons line lines ih =>
    obtain ⟨st', hline, hok⟩ := pemLine_ok h line
    rw [List.foldlM_cons, hline]
    exact ih hok

theorem init_ok : PemState.Ok ⟨⟨[], 0⟩, false, []⟩ := ⟨fun h => (Bool.false_ne_true h).elim, Or.inl rfl⟩

theorem loadPemFile_isSome (file : Option Str) : (loadPemFile file).isSome = true := by
  cases file with
  | none => rfl
  | some s =>
    obtain ⟨st, hrun, -⟩ := run_ok init_ok (pemLines (s.takeWhile (· ≠ 0)))
    unfold loadPemFile
    simp only
    rw [hrun]
    rfl

/-! ## Files of certificates -/

/-- A line, with a CR before its LF or without. -/
structure TextLine where
  text : Str
  cr : Bool

def TextLine.raw (l : TextLine) : Str := if l.cr then l.text ++ [ch '\r'] else l.text

/-- A line that is no line of a block. -/
structure Other (s : Str) : Prop where
  line : ch '\n' ∉ s
  nul : 0 ∉ s
  mark : startsWith s beginMark = false

/-- The lines between the marks of a certificate, each of whole groups of digits. -/
structure Body (der : Str) (body : List TextLine) : Prop where
  text : body.flatMap (·.text) = base64 der
  groups : ∀ l ∈ body, l.text ≠ [] ∧ 4 ∣ l.text.length

/-- The lines of a file and its certificates, each with the lines it is in. -/
inductive Pem : List TextLine → List (Str × List TextLine) → Prop
  | nil : Pem [] []
  | text {line lines blocks} : Other line.text → Pem lines blocks → Pem (line :: lines) blocks
  | block {first last der body lines blocks} : first.text = beginMark → der ≠ [] → Body der body → last.text = endMark →
      Pem lines blocks → Pem (first :: (body ++ last :: lines)) ((der, body) :: blocks)

/-- With a final newline or without. -/
def fileOf (lines : List TextLine) (final : Bool) : Str :=
  let s := lines.flatMap fun l => l.raw ++ [ch '\n']
  if final then s else s.dropLast

/-! ## One line -/

/-- What a line of a block is decoded to. -/
def bodyBytes (l : TextLine) : Str := decoded (l.text.take (lineLen l.raw).toNat)

theorem byte_last (s : Str) (c : UInt8) : byte (s ++ [c]) s.length = c := by
  simp [byte]

theorem getLast?_byte {s : Str} (h : s ≠ []) : s.getLast? = some (byte s (s.length - 1)) := by
  have hpos := List.length_pos_iff.mpr h
  rw [List.getLast?_eq_getElem?, List.getElem?_eq_getElem (by omega), byte, List.getD_eq_getElem?_getD,
    List.getElem?_eq_getElem (by omega), Option.getD_some]

/-- A line that is not too long has its own length. -/
theorem lineLen_raw {l : TextLine} (hlast : l.text.getLast? ≠ some (ch '\r')) (h : l.text.length + 1 < 2 ^ 31) :
    lineLen l.raw = l.text.length := by
  unfold lineLen TextLine.raw
  by_cases hcr : l.cr = true
  · rw [if_pos hcr]
    simp only
    rw [List.length_append, List.length_singleton, asInt_eq h, if_pos]
    · omega
    · refine ⟨by omega, ?_⟩
      rw [show ((l.text.length + 1 : Nat) : Int).toNat - 1 = l.text.length by omega]
      exact byte_last l.text (ch '\r')
  · rw [if_neg hcr]
    simp only
    rw [asInt_eq (by omega), if_neg]
    rintro ⟨hpos, hbyte⟩
    rw [Int.toNat_natCast] at hbyte
    apply hlast
    rw [getLast?_byte (List.ne_nil_of_length_pos (by omega)), hbyte]

theorem lineLen_lt (line : Str) : lineLen line < 2 ^ 31 := by
  have := asInt_lt line.length
  unfold lineLen
  simp only
  split <;> omega

theorem startsWith_raw {l : TextLine} {p : Str} (h : l.text = p) : startsWith l.raw p = true := by
  unfold startsWith TextLine.raw
  rw [List.isPrefixOf_iff_prefix, h]
  split
  · exact List.prefix_append _ _
  · exact List.prefix_refl _

/-- A mark is as long as it looks. -/
theorem lineLen_mark {l : TextLine} {p : Str} (h : l.text = p) (hlast : p.getLast? = some (ch '-')) (hlen : p.length < 1000) :
    lineLen l.raw = p.length := by
  rw [lineLen_raw, h]
  · rw [h, hlast]
    decide
  · rw [h]
    omega

theorem mark_spec : beginMark.length = 27 ∧ endMark.length = 25 ∧ beginMark.getLast? = some (ch '-') ∧
    endMark.getLast? = some (ch '-') ∧ startsWith endMark beginMark = false := by decide +kernel

/-- A mark is on one line. -/
theorem mark_bytes {p : Str} (h : p = beginMark ∨ p = endMark) : 0 ∉ p ∧ ch '\n' ∉ p ∧ ch '\r' ∉ p := by
  rcases h with rfl | rfl <;> decide +kernel

/-- A byte of base64 ends no line and begins no mark. -/
theorem base64_byte {c : UInt8} (h : IsBase64 c) : c ≠ 0 ∧ c ≠ ch '\n' ∧ c ≠ ch '\r' ∧ c ≠ ch '-' := by
  have hnone : 0 ∉ base64Alphabet ∧ ch '\n' ∉ base64Alphabet ∧ ch '\r' ∉ base64Alphabet ∧ ch '-' ∉ base64Alphabet := by
    decide +kernel
  obtain ⟨hnul, hline, hcr, hdash⟩ := hnone
  exact ⟨ne_of_isBase64 h (by decide) hnul, ne_of_isBase64 h (by decide) hline, ne_of_isBase64 h (by decide) hcr,
    ne_of_isBase64 h (by decide) hdash⟩

theorem pemLine_begin {st : PemState} {l : TextLine} (h : l.text = beginMark) :
    pemLine st l.raw = some { st with inCert := true, der := ⟨[], if st.der.cap = 0 then 4096 else st.der.cap⟩ } := by
  obtain ⟨hlen, -, hlast, -, -⟩ := mark_spec
  have hll := lineLen_mark h hlast (by omega)
  unfold pemLine
  simp only
  rw [if_pos ⟨by omega, startsWith_raw h⟩]

/-- A line that a mark starts starts with no other byte. -/
theorem startsWith_dash {s p : Str} {c : UInt8} {t : Str} (hs : s = c :: t) (hc : c ≠ ch '-') (hp : p.head? = some (ch '-')) :
    startsWith s p = false := by
  obtain ⟨q, rfl⟩ := List.head?_eq_some_iff.mp hp
  rw [hs, startsWith, List.isPrefixOf_cons_cons, Bool.and_eq_false_iff]
  exact Or.inl (by simpa using hc.symm)

theorem startsWith_cr {s p : Str} (hp : ch '\r' ∉ p) (h : startsWith s p = false) : startsWith (s ++ [ch '\r']) p = false := by
  unfold startsWith at h ⊢
  rw [Bool.eq_false_iff, ne_eq, List.isPrefixOf_iff_prefix] at h ⊢
  intro hpre
  rcases List.prefix_concat_iff.mp hpre with heq | hpre
  · exact hp (heq ▸ List.mem_append_right _ (List.mem_singleton.mpr rfl))
  · exact h hpre

theorem startsWith_raw_false {l : TextLine} {p : Str} (hp : ch '\r' ∉ p) (h : startsWith l.text p = false) :
    startsWith l.raw p = false := by
  unfold TextLine.raw
  split
  · exact startsWith_cr hp h
  · exact h

theorem pemLine_other {st : PemState} {l : TextLine} (hcert : st.inCert = false) (h : Other l.text) :
    pemLine st l.raw = some st := by
  have hmark := startsWith_raw_false (mark_bytes (Or.inl rfl)).2.2 h.mark
  unfold pemLine
  simp only
  rw [if_neg (by simp [hmark]), if_neg (by simp [hcert]), if_neg (by simp [hcert])]

theorem pemLine_end {st : PemState} {l : TextLine} (hcert : st.inCert = true) (h : l.text = endMark) :
    pemLine st l.raw =
      some ⟨⟨[], st.der.cap⟩, false, if 0 < st.der.bytes.length then st.anchors ++ [st.der.bytes] else st.anchors⟩ := by
  obtain ⟨-, hlen, -, hlast, hother⟩ := mark_spec
  have hll := lineLen_mark h hlast (by omega)
  have hmark := startsWith_raw_false (l := l) (mark_bytes (Or.inl rfl)).2.2 (h ▸ hother)
  unfold pemLine
  simp only
  rw [if_neg (by simp [hmark]), if_pos ⟨hcert, by omega, startsWith_raw h⟩]

/-- A line of a block. -/
structure BodyLine (l : TextLine) : Prop where
  some : l.text ≠ []
  groups : 4 ∣ l.text.length
  bytes : ∀ c ∈ l.text, IsBase64 c

theorem BodyLine.last {l : TextLine} (h : BodyLine l) : l.text.getLast? ≠ Option.some (ch '\r') := by
  intro hlast
  exact (base64_byte (h.bytes _ (List.mem_of_getLast? hlast))).2.2.1 rfl

theorem lineLen_toNat_le {l : TextLine} (h : BodyLine l) : (lineLen l.raw).toNat ≤ l.text.length := by
  by_cases hlen : l.text.length + 1 < 2 ^ 31
  · rw [lineLen_raw h.last hlen]
    omega
  · have := lineLen_lt l.raw
    omega

theorem bodyBytes_short {l : TextLine} (h : BodyLine l) (hlen : l.text.length < 2 ^ 31) : bodyBytes l = decoded l.text := by
  have hgroups := h.groups
  rw [bodyBytes, lineLen_raw h.last (by omega), Int.toNat_natCast, List.take_length]

theorem bodyBytes_long {l : TextLine} (h : BodyLine l) (hlen : 2 ^ 31 ≤ l.text.length) :
    (bodyBytes l).length < (decoded l.text).length := by
  have := lineLen_lt l.raw
  exact length_decoded_take h.groups (by omega)

theorem take_raw {l : TextLine} {n : Nat} (h : n ≤ l.text.length) : l.raw.take n = l.text.take n := by
  unfold TextLine.raw
  split
  · exact List.take_append_of_le_length h
  · rfl

theorem pemLine_body {st : PemState} {l : TextLine} (hcert : st.inCert = true) (hok : st.der.Ok) (h : BodyLine l) :
    ∃ cap, pemLine st l.raw = some { st with der := ⟨st.der.bytes ++ bodyBytes l, cap⟩ } ∧
      Der.Ok ⟨st.der.bytes ++ bodyBytes l, cap⟩ := by
  obtain ⟨c, t, htext⟩ := List.exists_cons_of_ne_nil h.some
  have hdash : c ≠ ch '-' := (base64_byte (h.bytes c (htext ▸ List.mem_cons_self))).2.2.2
  have hbegin := startsWith_raw_false (mark_bytes (Or.inl rfl)).2.2 (startsWith_dash htext hdash (by decide))
  have hend := startsWith_raw_false (mark_bytes (Or.inr rfl)).2.2 (startsWith_dash htext hdash (by decide))
  by_cases hpos : 0 < lineLen l.raw
  · obtain ⟨cap, hdecode, hok'⟩ := decodeLine_eq hok (l.text.take (lineLen l.raw).toNat)
    refine ⟨cap, ?_, hok'⟩
    unfold pemLine
    simp only
    rw [if_neg (by simp [hbegin]), if_neg (by simp [hend]), if_pos ⟨hcert, hpos⟩, take_raw (lineLen_toNat_le h), hdecode]
    rfl
  · -- a length that came out as 0 or less
    have hnil : bodyBytes l = [] := by
      rw [bodyBytes, show (lineLen l.raw).toNat = 0 by omega]
      rfl
    rw [hnil, List.append_nil]
    refine ⟨st.der.cap, ?_, hok⟩
    unfold pemLine
    simp only
    rw [if_neg (by simp [hbegin]), if_neg (by simp [hend]), if_neg fun hbody => hpos hbody.2]

/-! ## Whole files -/

theorem run_body {st : PemState} {body : List TextLine} (hcert : st.inCert = true) (hok : st.der.Ok)
    (h : ∀ l ∈ body, BodyLine l) : ∃ cap, (body.map TextLine.raw).foldlM pemLine st =
      some { st with der := ⟨st.der.bytes ++ body.flatMap bodyBytes, cap⟩ } ∧
      Der.Ok ⟨st.der.bytes ++ body.flatMap bodyBytes, cap⟩ := by
  induction body generalizing st with
  | nil =>
    rw [List.flatMap_nil, List.append_nil]
    exact ⟨st.der.cap, rfl, hok⟩
  | cons l body ih =>
    obtain ⟨cap, hline, hok'⟩ := pemLine_body hcert hok (h l List.mem_cons_self)
    obtain ⟨cap', hrest, hok''⟩ := @ih { st with der := ⟨st.der.bytes ++ bodyBytes l, cap⟩ } hcert hok'
      fun x hx => h x (List.mem_cons_of_mem _ hx)
    rw [List.map_cons, List.foldlM_cons, hline, List.flatMap_cons]
    simp only [List.append_assoc] at hrest hok''
    exact ⟨cap', hrest, hok''⟩

theorem Body.lines {der : Str} {body : List TextLine} (h : Body der body) : ∀ l ∈ body, BodyLine l := by
  intro l hl
  obtain ⟨hsome, hgroups⟩ := h.groups l hl
  refine ⟨hsome, hgroups, fun c hc => mem_base64 der c ?_⟩
  rw [← h.text]
  exact List.mem_flatMap.mpr ⟨l, hl, hc⟩

/-- The certificates of a file as they are read, those without a byte left out. -/
theorem run_blocks {lines : List TextLine} {blocks : List (Str × List TextLine)} (h : Pem lines blocks) {st : PemState}
    (hcert : st.inCert = false) (hder : st.der.cap = 0 ∨ st.der.Ok) :
    ∃ der, (lines.map TextLine.raw).foldlM pemLine st =
      some ⟨der, false, st.anchors ++ (blocks.map fun b => b.2.flatMap bodyBytes).filter (0 < ·.length)⟩ := by
  induction h generalizing st with
  | nil => exact ⟨st.der, by simp [← hcert]⟩
  | text hother _ ih =>
    obtain ⟨der, hrest⟩ := ih hcert hder
    refine ⟨der, ?_⟩
    rw [List.map_cons, List.foldlM_cons, pemLine_other hcert hother]
    exact hrest
  | @block first last der body lines blocks hfirst _ hbody hlast _ ih =>
    have hbegin := begin_ok hder
    obtain ⟨cap, hrun, hok⟩ := @run_body { st with inCert := true, der := ⟨[], if st.der.cap = 0 then 4096 else st.der.cap⟩ } body
      rfl hbegin hbody.lines
    obtain ⟨der', hrest⟩ := @ih ⟨⟨[], cap⟩, false, if 0 < (body.flatMap bodyBytes).length then st.anchors ++ [body.flatMap bodyBytes]
      else st.anchors⟩ rfl (Or.inr ⟨hok.there, Nat.zero_le _⟩)
    refine ⟨der', ?_⟩
    rw [List.map_cons, List.foldlM_cons, pemLine_begin hfirst, List.map_append, List.map_cons]
    simp only [Option.bind_eq_bind, Option.bind_some, List.foldlM_append, hrun]
    rw [List.foldlM_cons, pemLine_end rfl hlast]
    simp only [Option.bind_eq_bind, Option.bind_some, List.nil_append] at hrest ⊢
    rw [hrest, List.map_cons, List.filter_cons]
    simp only
    generalize body.flatMap bodyBytes = bytes
    by_cases hpos : 0 < bytes.length
    · simp [hpos]
    · simp [hpos]

/-! ## The lines of a file -/

theorem Pem.clean {lines : List TextLine} {blocks : List (Str × List TextLine)} (h : Pem lines blocks) :
    ∀ l ∈ lines, ch '\n' ∉ l.text ∧ 0 ∉ l.text := by
  have hmark : ∀ p, p = beginMark ∨ p = endMark → ch '\n' ∉ p ∧ 0 ∉ p := fun p hp => ⟨(mark_bytes hp).2.1, (mark_bytes hp).1⟩
  induction h with
  | nil => simp
  | text hother _ ih => simpa using ⟨⟨hother.line, hother.nul⟩, ih⟩
  | block hfirst _ hbody hlast _ ih =>
    intro l hl
    simp only [List.mem_cons, List.mem_append] at hl
    rcases hl with rfl | hl | rfl | hl
    · exact hmark _ (Or.inl hfirst)
    · have hbytes := (hbody.lines l hl).bytes
      exact ⟨fun hc => (base64_byte (hbytes _ hc)).2.1 rfl, fun hc => (base64_byte (hbytes _ hc)).1 rfl⟩
    · exact hmark _ (Or.inr hlast)
    · exact ih l hl

theorem not_mem_raw {l : TextLine} {c : UInt8} (hc : c ≠ ch '\r') (h : c ∉ l.text) : c ∉ l.raw := by
  unfold TextLine.raw
  split
  · simpa using ⟨h, hc⟩
  · exact h

theorem segments_lines {lines : List TextLine} (h : ∀ l ∈ lines, ch '\n' ∉ l.text) (b : Str) :
    segments (ch '\n') (lines.flatMap (fun l => l.raw ++ [ch '\n']) ++ b) =
      (lines.map TextLine.raw ++ (segments (ch '\n') b).1, (segments (ch '\n') b).2) := by
  induction lines with
  | nil => rfl
  | cons l lines ih =>
    have hl := not_mem_raw (by decide) (h l List.mem_cons_self)
    rw [List.flatMap_cons, List.append_assoc, List.append_assoc, List.singleton_append, segments_first hl,
      ih fun x hx => h x (List.mem_cons_of_mem _ hx)]
    rfl

theorem pemLine_nil (st : PemState) : pemLine st [] = some st := by
  have hlen : lineLen [] = 0 := by decide
  unfold pemLine
  rw [hlen]
  simp

/-- A last line without its newline is read like one with it. -/
theorem run_file {lines : List TextLine} (h : ∀ l ∈ lines, ch '\n' ∉ l.text) (final : Bool) (st : PemState) :
    (pemLines (fileOf lines final)).foldlM pemLine st = (lines.map TextLine.raw).foldlM pemLine st := by
  unfold fileOf pemLines
  cases final with
  | true =>
    have := segments_lines h []
    rw [List.append_nil] at this
    simp [this, segments]
  | false =>
    cases lines using List.reverseRecOn with
    | nil => rfl
    | append_singleton lines l =>
      have hl := not_mem_raw (c := ch '\n') (by decide) (h l (by simp))
      have := segments_lines (fun x hx => h x (List.mem_append_left _ hx)) l.raw
      rw [segments_of_not_mem hl, List.append_nil] at this
      simp only [List.flatMap_append, List.flatMap_cons, List.flatMap_nil, List.append_nil, Bool.false_eq_true, if_false]
      rw [← List.append_assoc, List.dropLast_concat, this]
      by_cases hnil : l.raw = []
      · simp [hnil, pemLine_nil]
      · simp [hnil]

theorem load_file {lines : List TextLine} {blocks : List (Str × List TextLine)} (h : Pem lines blocks) (final : Bool) :
    loadPemFile (some (fileOf lines final)) = some ((blocks.map fun b => b.2.flatMap bodyBytes).filter (0 < ·.length)) := by
  have hnul : (fileOf lines final).takeWhile (· ≠ 0) = fileOf lines final := by
    rw [List.takeWhile_eq_self_iff]
    intro c hc
    have hmem : c ∈ lines.flatMap fun l => l.raw ++ [ch '\n'] := by
      unfold fileOf at hc
      cases final with
      | true => exact hc
      | false => exact List.mem_of_mem_dropLast hc
    obtain ⟨l, hl, hc⟩ := List.mem_flatMap.mp hmem
    apply decide_eq_true
    rintro rfl
    rcases List.mem_append.mp hc with hc | hc
    · exact not_mem_raw (by decide) (h.clean l hl).2 hc
    · exact absurd (List.mem_singleton.mp hc) (by decide)
  obtain ⟨der, hrun⟩ := @run_blocks lines blocks h ⟨⟨[], 0⟩, false, []⟩ rfl (Or.inl rfl)
  unfold loadPemFile
  simp only
  rw [hnul, run_file (fun l hl => (h.clean l hl).1), hrun]
  rfl

/-! ## Whole certificates -/

theorem Pem.bodies {lines : List TextLine} {blocks : List (Str × List TextLine)} (h : Pem lines blocks) :
    ∀ b ∈ blocks, b.1 ≠ [] ∧ Body b.1 b.2 := by
  induction h with
  | nil => simp
  | text _ _ ih => exact ih
  | block _ hder hbody _ _ ih =>
    intro b hb
    rcases List.mem_cons.mp hb with rfl | hb
    · exact ⟨hder, hbody⟩
    · exact ih b hb

theorem decoded_body {der : Str} {body : List TextLine} (h : Body der body) : body.flatMap (fun l => decoded l.text) = der := by
  have hlines : ∀ lines : List TextLine, (∀ l ∈ lines, 4 ∣ l.text.length) →
      decoded (lines.flatMap (·.text)) = lines.flatMap fun l => decoded l.text := by
    intro lines hgroups
    induction lines with
    | nil => rfl
    | cons l lines ih =>
      rw [List.flatMap_cons, List.flatMap_cons, decoded_append (hgroups l List.mem_cons_self),
        ih fun x hx => hgroups x (List.mem_cons_of_mem _ hx)]
  rw [← hlines body fun l hl => (h.groups l hl).2, h.text, decoded_base64]

theorem body_short {der : Str} {body : List TextLine} (h : Body der body) (hshort : ∀ l ∈ body, l.text.length < 2 ^ 31) :
    body.flatMap bodyBytes = der := by
  rw [← decoded_body h]
  exact List.flatMap_congr fun l hl => bodyBytes_short (h.lines l hl) (hshort l hl)

theorem bodyBytes_le {l : TextLine} (h : BodyLine l) : (bodyBytes l).length ≤ (decoded l.text).length := by
  by_cases hlen : l.text.length < 2 ^ 31
  · rw [bodyBytes_short h hlen]
  · exact Nat.le_of_lt (bodyBytes_long h (by omega))

theorem body_le {der : Str} {body : List TextLine} (h : Body der body) : (body.flatMap bodyBytes).length ≤ der.length := by
  rw [← decoded_body h, List.length_flatMap, List.length_flatMap]
  exact List.sum_le_sum fun l hl => bodyBytes_le (h.lines l hl)

theorem body_long {der : Str} {body : List TextLine} (h : Body der body) (hlong : ∃ l ∈ body, 2 ^ 31 ≤ l.text.length) :
    (body.flatMap bodyBytes).length < der.length := by
  obtain ⟨l, hl, hlen⟩ := hlong
  rw [← decoded_body h, List.length_flatMap, List.length_flatMap]
  exact List.sum_lt_sum _ _ (fun l hl => bodyBytes_le (h.lines l hl)) ⟨l, hl, bodyBytes_long (h.lines l hl) hlen⟩

theorem flatten_filter_pos (xs : List Str) : (xs.filter (0 < ·.length)).flatten = xs.flatten := by
  induction xs with
  | nil => rfl
  | cons x xs ih =>
    rw [List.filter_cons]
    cases x with
    | nil => simpa using ih
    | cons c x => simp [ih]

/-- A block with a line that is too long is not the certificate that was written. -/
theorem short_of_load {lines : List TextLine} {blocks : List (Str × List TextLine)} (h : Pem lines blocks)
    (heq : (blocks.map fun b => b.2.flatMap bodyBytes).filter (0 < ·.length) = blocks.map Prod.fst) :
    ∀ b ∈ blocks, ∀ l ∈ b.2, l.text.length < 2 ^ 31 := by
  by_contra hno
  push Not at hno
  obtain ⟨b, hb, hlong⟩ := hno
  have hsum := congrArg (fun ls : List Str => ls.flatten.length) heq
  simp only [flatten_filter_pos, List.length_flatten, List.map_map] at hsum
  apply Nat.lt_irrefl (blocks.map (List.length ∘ Prod.fst)).sum
  conv_lhs => rw [← hsum]
  exact List.sum_lt_sum _ _ (fun b hb => body_le (h.bodies b hb).2) ⟨b, hb, body_long (h.bodies b hb).2 hlong⟩

/-- No write fails on any file. A file of certificates gives them, in order, exactly when an
    `int` holds the length of every line of a block. -/
theorem pem_exact {lines : List TextLine} {blocks : List (Str × List TextLine)} (h : Pem lines blocks) (final : Bool) :
    (loadPemFile (some (fileOf lines final)) = some (blocks.map Prod.fst) ↔
      ∀ b ∈ blocks, ∀ l ∈ b.2, l.text.length < 2 ^ 31) ∧
    ∀ file, (loadPemFile file).isSome = true := by
  refine ⟨?_, loadPemFile_isSome⟩
  rw [load_file h final, Option.some_inj]
  refine ⟨short_of_load h, fun hshort => ?_⟩
  have hders : (blocks.map fun b => b.2.flatMap bodyBytes) = blocks.map Prod.fst :=
    List.map_congr_left fun b hb => body_short (h.bodies b hb).2 (hshort b hb)
  rw [hders, List.filter_eq_self]
  intro der hder
  obtain ⟨b, hb, rfl⟩ := List.mem_map.mp hder
  exact decide_eq_true (List.length_pos_iff.mpr (h.bodies b hb).1)

/-- The lines of a certificate of three bytes, behind a line of other text. -/
def oneCertificate : List TextLine :=
  [⟨lit "subject", false⟩, ⟨beginMark, false⟩, ⟨lit "AQID", true⟩, ⟨endMark, false⟩]

theorem pem_oneCertificate : Pem oneCertificate [([1, 2, 3], [⟨lit "AQID", true⟩])] := by
  have hother : Other (lit "subject") := ⟨by decide, by decide, by decide +kernel⟩
  have hbody : Body [1, 2, 3] [⟨lit "AQID", true⟩] := by
    refine ⟨by decide +kernel, ?_⟩
    intro l hl
    cases List.mem_singleton.mp hl
    exact ⟨by decide, by decide⟩
  exact Pem.text hother (Pem.block rfl (by decide) hbody rfl Pem.nil)

theorem pem_exact_three : loadPemFile (some (fileOf oneCertificate false)) = some [[1, 2, 3]] :=
  (pem_exact pem_oneCertificate false).1.mpr fun b hb l hl => by
    cases List.mem_singleton.mp hb
    cases List.mem_singleton.mp hl
    decide

/-- The base64 of zeros. -/
theorem base64_zeros (n : Nat) : base64 (List.replicate (3 * n) 0) = List.replicate (4 * n) (ch 'A') := by
  induction n with
  | zero => rfl
  | succ n ih =>
    change base64 (0 :: 0 :: 0 :: List.replicate (3 * n) 0) = ch 'A' :: ch 'A' :: ch 'A' :: ch 'A' :: List.replicate (4 * n) (ch 'A')
    rw [base64, ih]
    rfl

/-- A certificate of 3 * 2^29 bytes on one line is not read. -/
theorem long_line_lost : ¬ ∀ (lines : List TextLine) (blocks : List (Str × List TextLine)), Pem lines blocks →
    loadPemFile (some (fileOf lines true)) = some (blocks.map Prod.fst) := by
  intro hall
  obtain ⟨n, hn⟩ : ∃ n, n = 2 ^ 29 := ⟨_, rfl⟩
  have hbody : Body (List.replicate (3 * n) 0) [⟨List.replicate (4 * n) (ch 'A'), false⟩] := by
    refine ⟨by simp [base64_zeros], ?_⟩
    intro l hl
    cases List.mem_singleton.mp hl
    refine ⟨?_, by simp⟩
    apply List.ne_nil_of_length_pos
    rw [List.length_replicate]
    omega
  have hder : List.replicate (3 * n) (0 : UInt8) ≠ [] := by
    apply List.ne_nil_of_length_pos
    rw [List.length_replicate]
    omega
  have hpem : Pem (⟨beginMark, false⟩ :: ([⟨List.replicate (4 * n) (ch 'A'), false⟩] ++ [⟨endMark, false⟩]))
      [(List.replicate (3 * n) 0, [⟨List.replicate (4 * n) (ch 'A'), false⟩])] :=
    Pem.block rfl hder hbody rfl Pem.nil
  have hload := hall _ _ hpem
  rw [load_file hpem true, Option.some_inj] at hload
  have hshort := short_of_load hpem hload _ List.mem_cons_self _ List.mem_cons_self
  simp only [List.length_replicate] at hshort
  omega

end Shclaw.Ca
