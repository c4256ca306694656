/-
  Shclaw.Plugin.SchemaQuotes — the repair of a schema that is raw JSON in a C string
  (`src/tools.c`: `fix_schema_quotes`).

  `SchemaText` is a code cut where the repair looks: up to the quote behind the first
  `TC_PLUGIN_SCHEMA`, the text of the string, and from the quote before the last semicolon
  of the line on. `schema_quotes_exact`: a code that is not cut so, or whose text is no raw
  JSON with quotes, stays as it is; of another only the text is replaced, by one that C
  reads as the same JSON. The new code fits its buffer and stays as it is from then on.
-/

import Mathlib.Data.Bool.AllAny
import Shclaw.JsonLines
import Shclaw.Lib.Region
import Shclaw.Plugin.Create

namespace Shclaw.Plugin

open Lib

/-! ## The parts of a code -/

def schemaMark : Str := lit "TC_PLUGIN_SCHEMA"

structure SchemaText where
  before : Str
  between : Str
  raw : Str
  blanks : Str
  rest : Str

namespace SchemaText

variable (t : SchemaText)

/-- Up to the opening quote. -/
def pre : Str := t.before ++ (schemaMark ++ (t.between ++ [ch '"']))

/-- From the closing quote on. -/
def close : Str := ch '"' :: (t.blanks ++ ch ';' :: t.rest)

def code : Str := t.pre ++ t.raw ++ t.close

/-- What follows the mark. -/
def behind : Str := t.between ++ ch '"' :: (t.raw ++ t.close)

/-- The first mark, the first quote behind it on its line, and the quote before the last semicolon
    of that line. -/
structure Line : Prop where
  first : strstr (t.before ++ (schemaMark ++ t.behind)) schemaMark = some (schemaMark ++ t.behind)
  between : ∀ c ∈ t.between, c ≠ ch '"' ∧ c ≠ ch '\n'
  raw : ch '\n' ∉ t.raw
  blanks : ∀ c ∈ t.blanks, c = ch ' ' ∨ c = ch '\t'
  rest : ch ';' ∉ t.rest.takeWhile (· ≠ ch '\n')

theorem code_eq : t.code = t.before ++ (schemaMark ++ t.behind) := by
  simp [code, pre, close, behind]

end SchemaText

/-- The repair that is made of a code. -/
structure Repairs (R : CJsonReader) (code : Str) (t : SchemaText) (json : Json) : Prop where
  line : t.Line
  code : code = t.code
  quotes : t.raw.contains (ch '"') = true
  escapes : (strstr t.raw (lit "\\\"")).isSome = false
  value : parseWhole R t.raw = some json

/-- The body of a string literal as C reads it, of escaped quotes and backslashes. -/
def literal : Str → Str
  | [] => []
  | [c] => [c]
  | c :: d :: s =>
    if c = ch '\\' ∧ (d = ch '"' ∨ d = ch '\\') then d :: literal s else c :: literal (d :: s)

/-! ## The buffer -/

/-- The loop that escapes the text, from `off` on. -/
def escapeInto (mem : Str) (off : Nat) : Str → Option (Str × Nat)
  | [] => some (mem, off)
  | c :: s => do
    let r ← if c = ch '"' ∨ c = ch '\\' then (write mem off [ch '\\']).map (·, off + 1) else some (mem, off)
    let mem ← write r.1 r.2 [c]
    escapeInto mem (r.2 + 1) s

/-- What is written of the new code: the text up to `open`, `text`, and `close` with its NUL. -/
def fixInto (mem pre text close : Str) : Option Str := do
  let mem ← write mem 0 pre
  let r ← escapeInto mem pre.length text
  write r.1 r.2 (close ++ [0])

/-- `cap`; `open` is the last byte of `pre`. -/
def fixedCap (pre text close : Str) : Nat := (pre.length - 1) + 2 * text.length + close.length + 2

/-! ## The new text -/

theorem quoted_cons (c : UInt8) (s : Str) :
    quoted (c :: s) = (if c = ch '"' ∨ c = ch '\\' then [ch '\\', c] else [c]) ++ quoted s := rfl

theorem length_quoted_le (s : Str) : (quoted s).length ≤ 2 * s.length := by
  induction s with
  | nil => simp [quoted]
  | cons c s ih =>
    rw [quoted_cons, List.length_append, List.length_cons]
    split <;> simp only [List.length_cons, List.length_nil] <;> omega

theorem literal_escaped {c : UInt8} (h : c = ch '"' ∨ c = ch '\\') (s : Str) : literal (ch '\\' :: c :: s) = c :: literal s :=
  if_pos ⟨rfl, h⟩

theorem literal_plain {c : UInt8} (h : c ≠ ch '\\') (s : Str) : literal (c :: s) = c :: literal s := by
  cases s with
  | nil => rfl
  | cons d s => exact if_neg fun hc => h hc.1

theorem literal_quoted (s : Str) : literal (quoted s) = s := by
  induction s with
  | nil => rfl
  | cons c s ih =>
    rw [quoted_cons]
    split
    · rename_i hc
      rw [List.cons_append, List.cons_append, List.nil_append, literal_escaped hc, ih]
    · rename_i hc
      rw [List.singleton_append, literal_plain (fun h => hc (Or.inr h)), ih]

/-- Where the new text has a quote, a backslash is before it. -/
theorem quoted_escapes {s : Str} (h : (quoted s).contains (ch '"') = true) : (strstr (quoted s) (lit "\\\"")).isSome = true := by
  rw [strstr_isSome]
  rw [List.contains_iff_mem] at h
  induction s with
  | nil => cases h
  | cons c s ih =>
    rw [quoted_cons] at h ⊢
    by_cases hc : c = ch '"'
    · subst hc
      rw [if_pos (Or.inl rfl)]
      exact (List.prefix_append _ _).isInfix
    · refine (ih ?_).trans (List.suffix_append _ _).isInfix
      rcases List.mem_append.mp h with h | h
      · split at h
        · rcases List.mem_cons.mp h with h | h
          · exact absurd h (by decide)
          · exact absurd (List.mem_singleton.mp h).symm hc
        · exact absurd (List.mem_singleton.mp h).symm hc
      · exact h

theorem mem_quoted {c : UInt8} {s : Str} (h : c ∈ quoted s) (hc : c ≠ ch '\\') : c ∈ s := by
  obtain ⟨d, hd, hcd⟩ := List.mem_flatMap.mp h
  split at hcd
  · rcases List.mem_cons.mp hcd with h | h
    · exact absurd h hc
    · exact List.mem_singleton.mp h ▸ hd
  · exact List.mem_singleton.mp hcd ▸ hd

/-! ## The buffer is large enough -/

/-- A write that goes on where the one before ended. -/
theorem write_next {mem bs : Str} {off : Nat} (h : off + bs.length ≤ mem.length) :
    ∃ mem', write mem off bs = some mem' ∧ mem'.length = mem.length ∧ mem'.take (off + bs.length) = mem.take off ++ bs :=
  ⟨_, write_eq h, written_length h, written_take h⟩

theorem escapeInto_eq {mem : Str} {off : Nat} (text : Str) (h : off + (quoted text).length ≤ mem.length) :
    ∃ mem', escapeInto mem off text = some (mem', off + (quoted text).length) ∧ mem'.length = mem.length ∧
      mem'.take (off + (quoted text).length) = mem.take off ++ quoted text := by
  induction text generalizing mem off with
  | nil => exact ⟨mem, rfl, rfl, by simp [quoted]⟩
  | cons c text ih =>
    by_cases hc : c = ch '"' ∨ c = ch '\\'
    · have hquoted : quoted (c :: text) = ch '\\' :: c :: quoted text := by
        rw [quoted_cons, if_pos hc]
        rfl
      rw [hquoted] at h ⊢
      simp only [List.length_cons] at h ⊢
      obtain ⟨mem1, hw1, hlen1, htake1⟩ := @write_next mem [ch '\\'] off (by simp; omega)
      obtain ⟨mem2, hw2, hlen2, htake2⟩ := @write_next mem1 [c] (off + 1) (by simp; omega)
      obtain ⟨mem', hrest, hlen, htake⟩ := @ih mem2 (off + 1 + 1) (by omega)
      rw [List.length_singleton] at htake1 htake2
      rw [show off + ((quoted text).length + 1 + 1) = off + 1 + 1 + (quoted text).length by omega]
      refine ⟨mem', ?_, by omega, ?_⟩
      · rw [escapeInto, if_pos hc, hw1]
        simp only [Option.map_some, Option.bind_eq_bind, Option.bind_some]
        rw [hw2]
        exact hrest
      · rw [htake, htake2, htake1]
        simp
    · have hquoted : quoted (c :: text) = c :: quoted text := by
        rw [quoted_cons, if_neg hc]
        rfl
      rw [hquoted] at h ⊢
      simp only [List.length_cons] at h ⊢
      obtain ⟨mem1, hw1, hlen1, htake1⟩ := @write_next mem [c] off (by simp; omega)
      obtain ⟨mem', hrest, hlen, htake⟩ := @ih mem1 (off + 1) (by omega)
      rw [List.length_singleton] at htake1
      rw [show off + ((quoted text).length + 1) = off + 1 + (quoted text).length by omega]
      refine ⟨mem', ?_, by omega, ?_⟩
      · rw [escapeInto, if_neg hc]
        simp only [Option.bind_eq_bind, Option.bind_some]
        rw [hw1]
        exact hrest
      · rw [htake, htake1]
        simp

/-- The new code and its NUL fit. -/
theorem fixInto_eq {mem pre text close : Str} (hpre : pre ≠ []) (h : mem.length = fixedCap pre text close) :
    ∃ mem', fixInto mem pre text close = some mem' ∧ pre ++ quoted text ++ close ++ [0] <+: mem' := by
  have hquoted := length_quoted_le text
  have hpos := List.length_pos_iff.mpr hpre
  unfold fixedCap at h
  obtain ⟨mem1, hw1, hlen1, htake1⟩ := @write_next mem pre 0 (by omega)
  obtain ⟨mem2, hw2, hlen2, htake2⟩ := @escapeInto_eq mem1 pre.length text (by omega)
  obtain ⟨mem3, hw3, hlen3, htake3⟩ := @write_next mem2 (close ++ [0]) (pre.length + (quoted text).length)
    (by rw [List.length_append, List.length_singleton]; omega)
  refine ⟨mem3, ?_, ?_⟩
  · unfold fixInto
    rw [hw1]
    simp only [Option.bind_eq_bind, Option.bind_some]
    rw [hw2]
    exact hw3
  · rw [Nat.zero_add, List.take_zero, List.nil_append] at htake1
    rw [htake2, htake1] at htake3
    rw [List.append_assoc, ← htake3]
    exact List.take_prefix _ _

/-! ## What the repair looks at -/

namespace SchemaText

variable (t : SchemaText)

/-- The mark and what is between it and the opening quote. -/
def opening : Str := schemaMark ++ t.between

/-- The line of the mark, up to the closing quote. -/
def head : Str := t.opening ++ ch '"' :: (t.raw ++ [ch '"'])

theorem behind_eq : schemaMark ++ t.behind = t.head ++ (t.blanks ++ ch ';' :: t.rest) := by
  simp [behind, head, opening, close]

end SchemaText

theorem schemaMark_bytes : ∀ c ∈ schemaMark, c ≠ ch '"' ∧ c ≠ ch '\n' := by
  intro c hc
  have hall : schemaMark.all (fun c => c ≠ ch '"' ∧ c ≠ ch '\n') = true := by decide +kernel
  exact List.all_iff_forall_prop.mp hall c hc

variable {t : SchemaText}

theorem opening_bytes (h : t.Line) : ∀ c ∈ t.opening, c ≠ ch '"' ∧ c ≠ ch '\n' := by
  intro c hc
  rcases List.mem_append.mp hc with hc | hc
  · exact schemaMark_bytes c hc
  · exact h.between c hc

theorem head_line (h : t.Line) : ∀ c ∈ t.head ++ (t.blanks ++ [ch ';']), c ≠ ch '\n' := by
  intro c hc hline
  subst hline
  simp only [SchemaText.head, List.mem_append, List.mem_cons, List.not_mem_nil, or_false] at hc
  rcases hc with (hc | hc | hc | hc) | hc | hc
  · exact (opening_bytes h _ hc).2 rfl
  · exact absurd hc (by decide)
  · exact h.raw hc
  · exact absurd hc (by decide)
  · rcases h.blanks _ hc with hc | hc <;> exact absurd hc (by decide)
  · exact absurd hc (by decide)

/-- The line of the mark. -/
theorem takeWhile_line (h : t.Line) : (schemaMark ++ t.behind).takeWhile (· ≠ ch '\n') =
    t.head ++ (t.blanks ++ ch ';' :: t.rest.takeWhile (· ≠ ch '\n')) := by
  have hwhole : schemaMark ++ t.behind = (t.head ++ (t.blanks ++ [ch ';'])) ++ t.rest := by
    rw [t.behind_eq]
    simp
  rw [hwhole, List.takeWhile_append_of_pos fun c hc => decide_eq_true (head_line h c hc)]
  simp

theorem takeWhile_quote (h : t.Line) (s : Str) : (t.head ++ s).takeWhile (· ≠ ch '"') = t.opening := by
  unfold SchemaText.head
  rw [List.append_assoc, List.cons_append, List.takeWhile_append_of_pos fun c hc => decide_eq_true (opening_bytes h c hc).1,
    List.takeWhile_cons_of_neg (by simp), List.append_nil]

/-- The line up to its last semicolon, without the blanks before that. -/
theorem head_of_line (h : t.Line) :
    ((((t.head ++ (t.blanks ++ ch ';' :: t.rest.takeWhile (· ≠ ch '\n'))).reverse.dropWhile (· ≠ ch ';')).drop 1).dropWhile
      fun c => c = ch ' ' || c = ch '\t').reverse = t.head := by
  generalize hrest : t.rest.takeWhile (· ≠ ch '\n') = rest
  have hsemi : ∀ c ∈ rest.reverse, (decide (c ≠ ch ';')) = true := by
    intro c hc
    apply decide_eq_true
    rintro rfl
    exact h.rest (hrest ▸ List.mem_reverse.mp hc)
  have hblank : ∀ c ∈ t.blanks.reverse, (decide (c = ch ' ') || decide (c = ch '\t')) = true := by
    intro c hc
    rcases h.blanks c (List.mem_reverse.mp hc) with rfl | rfl <;> decide
  have hlast : t.head.reverse = ch '"' :: (t.opening ++ ch '"' :: t.raw).reverse := by
    simp [SchemaText.head]
  have hreverse : (t.head ++ (t.blanks ++ ch ';' :: rest)).reverse = rest.reverse ++ ch ';' :: (t.blanks.reverse ++ t.head.reverse) := by
    simp
  rw [hreverse, List.dropWhile_append_of_pos hsemi, List.dropWhile_cons_of_neg (by simp), List.drop_succ_cons, List.drop_zero,
    List.dropWhile_append_of_pos hblank, hlast, List.dropWhile_cons_of_neg (by decide), ← hlast, List.reverse_reverse]

/-- What the repair makes of a code that is cut so. -/
theorem fix_of_line (R : CJsonReader) (h : t.Line) : fixSchemaQuotes R t.code =
    if t.raw.contains (ch '"') = false ∨ (strstr t.raw (lit "\\\"")).isSome = true then t.code
    else (parseWhole R t.raw).elim t.code fun json => t.pre ++ quoted (R.print json) ++ t.close := by
  have hfind : strstr t.code (lit "TC_PLUGIN_SCHEMA") = some (schemaMark ++ t.behind) := by
    rw [t.code_eq]
    exact h.first
  have hquote : (t.head ++ (t.blanks ++ ch ';' :: t.rest.takeWhile (· ≠ ch '\n'))).contains (ch '"') = true := by
    rw [List.contains_iff_mem]
    simp [SchemaText.head]
  have hlen : t.head.length = t.opening.length + 1 + (t.raw.length + 1) := by
    simp [SchemaText.head]
    omega
  have hlast : t.head.getLast? = some (ch '"') := by
    unfold SchemaText.head
    rw [← List.cons_append, ← List.append_assoc]
    exact List.getLast?_concat
  have hraw : (t.head.drop (t.opening.length + 1)).dropLast = t.raw := by
    unfold SchemaText.head
    rw [← List.drop_drop, List.drop_left, List.drop_succ_cons, List.drop_zero, List.dropLast_concat]
  have hpre : t.code.take (t.code.length - (schemaMark ++ t.behind).length) ++ (schemaMark ++ t.behind).take (t.opening.length + 1) = t.pre := by
    have hbefore : t.code.length - (schemaMark ++ t.behind).length = t.before.length := by
      rw [t.code_eq, List.length_append]
      omega
    have hsplit : schemaMark ++ t.behind = (t.opening ++ [ch '"']) ++ (t.raw ++ t.close) := by
      simp [SchemaText.behind, SchemaText.opening]
    rw [hbefore, t.code_eq, List.take_left, hsplit, List.take_left' (by simp)]
    simp [SchemaText.pre, SchemaText.opening]
  have hclose : (schemaMark ++ t.behind).drop (t.head.length - 1) = t.close := by
    rw [t.behind_eq, hlen]
    unfold SchemaText.head SchemaText.close
    rw [show t.opening.length + 1 + (t.raw.length + 1) - 1 = (t.opening ++ ch '"' :: t.raw).length by simp; omega]
    rw [show t.opening ++ ch '"' :: (t.raw ++ [ch '"']) ++ (t.blanks ++ ch ';' :: t.rest) =
      (t.opening ++ ch '"' :: t.raw) ++ ch '"' :: (t.blanks ++ ch ';' :: t.rest) by simp, List.drop_left]
  unfold fixSchemaQuotes
  rw [hfind]
  simp only
  rw [takeWhile_line h, takeWhile_quote h, head_of_line h, if_neg, hraw, hpre, hclose]
  · cases parseWhole R t.raw <;> rfl
  · rintro (hno | hno | hno)
    · rw [hquote] at hno
      cases hno
    · omega
    · exact hno hlast

/-! ## Where the repair looks -/

/-- A byte that is in a text, the last one of it. -/
theorem last_of_mem {c : UInt8} {s : Str} (h : c ∈ s) : ∃ a b, s = a ++ c :: b ∧ c ∉ b := by
  obtain ⟨b, a, heq, hb⟩ := List.eq_append_cons_of_mem (List.mem_reverse.mpr h)
  refine ⟨a.reverse, b.reverse, ?_, fun hc => hb (List.mem_reverse.mp hc)⟩
  rw [← List.reverse_reverse s, heq]
  simp

/-- The line up to its last semicolon is the head and blanks. -/
theorem head_split {line head : Str} (h : (((line.reverse.dropWhile (· ≠ ch ';')).drop 1).dropWhile
    fun c => c = ch ' ' || c = ch '\t').reverse = head) (hne : head ≠ []) :
    ∃ blanks rest, line = head ++ (blanks ++ ch ';' :: rest) ∧ (∀ c ∈ blanks, c = ch ' ' ∨ c = ch '\t') ∧ ch ';' ∉ rest := by
  by_cases hsemi : ch ';' ∈ line
  · obtain ⟨a, rest, rfl, hrest⟩ := last_of_mem hsemi
    have hdrop : (a ++ ch ';' :: rest).reverse.dropWhile (· ≠ ch ';') = ch ';' :: a.reverse := by
      rw [List.reverse_append, List.reverse_cons, List.append_assoc, List.dropWhile_append_of_pos]
      · rw [List.singleton_append, List.dropWhile_cons_of_neg (by simp)]
      · intro c hc
        apply decide_eq_true
        rintro rfl
        exact hrest (List.mem_reverse.mp hc)
    rw [hdrop, List.drop_succ_cons, List.drop_zero] at h
    refine ⟨(a.reverse.takeWhile fun c => c = ch ' ' || c = ch '\t').reverse, rest, ?_, ?_, hrest⟩
    · rw [← h, ← List.append_assoc, ← List.reverse_append, List.takeWhile_append_dropWhile, List.reverse_reverse]
    · intro c hc
      have := List.mem_takeWhile_imp (List.mem_reverse.mp hc)
      simpa using this
  · have hdrop : line.reverse.dropWhile (· ≠ ch ';') = [] := by
      rw [List.dropWhile_eq_nil_iff]
      intro c hc
      apply decide_eq_true
      rintro rfl
      exact hsemi (List.mem_reverse.mp hc)
    rw [hdrop] at h
    exact absurd h.symm hne

/-- A code stays as it is, or is cut where the repair looks. -/
theorem fix_cases (R : CJsonReader) (code : Str) : fixSchemaQuotes R code = code ∨ ∃ t : SchemaText, t.Line ∧ code = t.code := by
  by_contra hno
  rw [not_or] at hno
  obtain ⟨hchanged, hno⟩ := hno
  apply hchanged
  unfold fixSchemaQuotes
  split
  · rfl
  rename_i decl hfind
  simp only
  generalize hhead : ((((decl.takeWhile (· ≠ ch '\n')).reverse.dropWhile (· ≠ ch ';')).drop 1).dropWhile
    fun c => c = ch ' ' || c = ch '\t').reverse = head
  split
  · rfl
  rename_i hcut
  simp only [not_or, Bool.not_eq_false, Nat.not_le, Classical.not_not] at hcut
  obtain ⟨hquote, hlen, hlast⟩ := hcut
  exfalso
  apply hno
  obtain ⟨before, b, rfl, rfl⟩ := strstr_eq_some hfind
  -- the line of the mark, and what follows it
  have hmark : (schemaMark ++ b).takeWhile (· ≠ ch '\n') = schemaMark ++ b.takeWhile (· ≠ ch '\n') :=
    List.takeWhile_append_of_pos fun c hc => decide_eq_true (schemaMark_bytes c hc).2
  change ((schemaMark ++ b).takeWhile (· ≠ ch '\n')).contains (ch '"') = true at hquote
  change (((schemaMark ++ b).takeWhile (· ≠ ch '\n')).takeWhile (· ≠ ch '"')).length + 1 < head.length at hlen
  change ((((schemaMark ++ b).takeWhile (· ≠ ch '\n')).reverse.dropWhile (· ≠ ch ';')).drop 1 |>.dropWhile
    fun c => c = ch ' ' || c = ch '\t').reverse = head at hhead
  obtain ⟨blanks, rest, hline, hblanks, hrest⟩ := head_split hhead (List.ne_nil_of_length_pos (by omega))
  have hb := List.takeWhile_append_dropWhile (p := (· ≠ ch '\n')) (l := b)
  have hnoline : ∀ c ∈ b.takeWhile (· ≠ ch '\n'), c ≠ ch '\n' := fun c hc => by simpa using List.mem_takeWhile_imp hc
  have htail : (b.dropWhile (· ≠ ch '\n')).takeWhile (· ≠ ch '\n') = [] := by
    have hfirst := List.head?_dropWhile_not (· ≠ ch '\n') b
    cases htail : b.dropWhile (· ≠ ch '\n') with
    | nil => rfl
    | cons c tail =>
      rw [htail] at hfirst
      exact List.takeWhile_cons_of_neg (by simpa using hfirst)
  rw [hmark] at hquote hlen hline
  generalize b.takeWhile (· ≠ ch '\n') = line at *
  generalize b.dropWhile (· ≠ ch '\n') = tail at *
  subst hb
  -- the opening quote
  have hmem : ch '"' ∈ line := by
    rw [List.contains_iff_mem] at hquote
    exact (List.mem_append.mp hquote).resolve_left fun hc => (schemaMark_bytes _ hc).1 rfl
  obtain ⟨between, after, rfl, hbetween⟩ := List.eq_append_cons_of_mem hmem
  have hopening : (schemaMark ++ (between ++ ch '"' :: after)).takeWhile (· ≠ ch '"') = schemaMark ++ between := by
    rw [← List.append_assoc, List.takeWhile_append_of_pos, List.takeWhile_cons_of_neg (by simp), List.append_nil]
    intro c hc
    apply decide_eq_true
    rintro rfl
    rcases List.mem_append.mp hc with hc | hc
    · exact (schemaMark_bytes _ hc).1 rfl
    · exact hbetween hc
  rw [hopening] at hlen
  -- the closing quote, behind it
  obtain ⟨front, rfl⟩ := List.getLast?_eq_some_iff.mp hlast
  rw [List.length_append, List.length_append, List.length_singleton] at hlen
  rw [← List.append_assoc, List.append_assoc front, List.append_eq_append_iff] at hline
  rcases hline with ⟨mid, hfront, hafter⟩ | ⟨mid, hopen, -⟩
  · cases mid with
    | nil =>
      rw [List.append_nil] at hfront
      rw [hfront, List.length_append] at hlen
      omega
    | cons c raw =>
      obtain ⟨rfl, rfl⟩ := List.cons.inj hafter
      refine ⟨⟨before, between, raw, blanks, rest ++ tail⟩, ⟨?_, ?_, ?_, hblanks, ?_⟩, ?_⟩
      · simpa [SchemaText.behind, SchemaText.close, schemaMark] using hfind
      · intro c hc
        exact ⟨fun h => hbetween (h ▸ hc), hnoline c (by simp [hc])⟩
      · exact fun hc => hnoline _ (by simp [hc]) rfl
      · rw [List.takeWhile_append_of_pos, htail, List.append_nil]
        · exact hrest
        · intro c hc
          exact decide_eq_true (hnoline c (by simp [hc]))
      · rw [SchemaText.code_eq]
        simp [SchemaText.behind, SchemaText.close, schemaMark]
  · have := congrArg List.length hopen
    rw [List.length_append, List.length_append] at this
    omega

/-! ## The repair -/

/-- A new text in the place of the raw one is found where that was. -/
theorem quoted_line (h : t.Line) {text : Str} (htext : ch '\n' ∉ text) : SchemaText.Line { t with raw := quoted text } where
  first := strstr_append h.first _
  between := h.between
  raw hline := htext (mem_quoted hline (by decide))
  blanks := h.blanks
  rest := h.rest

theorem parse_of_whole {R : CJsonReader} {s : Str} {json : Json} (h : parseWhole R s = some json) : R.parse s = some json := by
  obtain ⟨v, hv, hwhole⟩ := Option.bind_eq_some_iff.mp h
  rw [R.parse_value, hv]
  split at hwhole
  · exact hwhole
  · cases hwhole

/-- The repaired code is repaired no further. -/
theorem fix_quoted (R : CJsonReader) (h : t.Line) {text : Str} (htext : ch '\n' ∉ text) :
    fixSchemaQuotes R (t.pre ++ quoted text ++ t.close) = t.pre ++ quoted text ++ t.close := by
  have hfix := fix_of_line R (quoted_line h htext)
  rw [if_pos] at hfix
  · exact hfix
  · by_cases hquote : (quoted text).contains (ch '"') = true
    · exact Or.inr (quoted_escapes hquote)
    · exact Or.inl (by simpa using hquote)

/-- The repair touches no other text, keeps the meaning of the one it changes, fits its buffer
    and changes nothing the second time. -/
theorem schema_quotes_exact (R : CJsonReader) (hprint : ∀ j, ch '\n' ∉ R.print j) (code : Str) :
    ((∀ t json, ¬ Repairs R code t json) → fixSchemaQuotes R code = code) ∧
    (∀ t json, Repairs R code t json →
      fixSchemaQuotes R code = t.pre ++ quoted (R.print json) ++ t.close ∧
      R.parse t.raw = some json ∧ R.parse (literal (quoted (R.print json))) = some json ∧
      ∀ mem, mem.length = fixedCap t.pre (R.print json) t.close →
        ∃ mem', fixInto mem t.pre (R.print json) t.close = some mem' ∧ fixSchemaQuotes R code ++ [0] <+: mem') ∧
    fixSchemaQuotes R (fixSchemaQuotes R code) = fixSchemaQuotes R code := by
  have hrepair : ∀ t json, Repairs R code t json → fixSchemaQuotes R code = t.pre ++ quoted (R.print json) ++ t.close := by
    intro t json h
    rw [h.code, fix_of_line R h.line, if_neg, h.value, Option.elim_some]
    rintro (hno | hno)
    · rw [h.quotes] at hno
      cases hno
    · rw [h.escapes] at hno
      cases hno
  have hkeep : (∀ t json, ¬ Repairs R code t json) → fixSchemaQuotes R code = code := by
    intro hno
    rcases fix_cases R code with hsame | ⟨t, hline, rfl⟩
    · exact hsame
    · rw [fix_of_line R hline]
      split
      · rfl
      rename_i hraw
      simp only [not_or, Bool.not_eq_false, Bool.not_eq_true] at hraw
      cases hvalue : parseWhole R t.raw with
      | none => rfl
      | some json =>
        exact absurd ⟨hline, rfl, hraw.1, hraw.2, hvalue⟩ (hno t json)
  refine ⟨hkeep, fun t json h => ?_, ?_⟩
  · have hpre : t.pre ≠ [] := by simp [SchemaText.pre]
    refine ⟨hrepair t json h, parse_of_whole h.value, ?_, fun mem hmem => ?_⟩
    · rw [literal_quoted]
      exact R.parse_print json
    · rw [hrepair t json h]
      exact fixInto_eq hpre hmem
  · by_cases hany : ∃ t json, Repairs R code t json
    · obtain ⟨t, json, h⟩ := hany
      rw [hrepair t json h]
      exact fix_quoted R h.line (hprint json)
    · push Not at hany
      rw [hkeep hany, hkeep hany]

/-- The quotes inside the literal are escaped, once. -/
theorem schema_quotes_exact_city :
    fixSchemaQuotes CJsonReader.compact (lit "TC_PLUGIN_SCHEMA = \"\x7b\"city\":1\x7d\";") =
        lit "TC_PLUGIN_SCHEMA = \"\x7b\\\"city\\\":1\x7d\";" ∧
      fixSchemaQuotes CJsonReader.compact (lit "TC_PLUGIN_SCHEMA = \"\x7b\\\"city\\\":1\x7d\";") =
        lit "TC_PLUGIN_SCHEMA = \"\x7b\\\"city\\\":1\x7d\";" := by
  have hfixed : fixSchemaQuotes CJsonReader.compact (lit "TC_PLUGIN_SCHEMA = \"\x7b\"city\":1\x7d\";") =
      lit "TC_PLUGIN_SCHEMA = \"\x7b\\\"city\\\":1\x7d\";" := by
    decide +kernel
  have hagain := (schema_quotes_exact CJsonReader.compact JsonText.text_line
    (lit "TC_PLUGIN_SCHEMA = \"\x7b\"city\":1\x7d\";")).2.2
  rw [hfixed] at hagain
  exact ⟨hfixed, hagain⟩

end Shclaw.Plugin
