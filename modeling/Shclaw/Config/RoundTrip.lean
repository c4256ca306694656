/-
  Shclaw.Config.RoundTrip — entries written to a file and loaded again.

  `iniWrite` writes a section header and a `key = value` line for each entry, on one
  physical line each, the header for every entry (`repeats`) or where the section changes.
  `load_write_exact`: `ini_load` gives the entries back, in order, exactly when each value
  reads back (`readsBack`) from the column it starts in. A value that does not comes back
  as another, whatever happens to the lines behind it.
-/

import Mathlib.Data.Bool.AllAny
import Shclaw.Config.Values

namespace Shclaw.Config

open Lib

/-! ## Writing -/

def headerText (name : Str) : Str := lit "[" ++ name ++ lit "]"

def entryText (e : IniEntry) : Str := e.key ++ lit " = " ++ escaped e.value

/-- The entries behind one of section `cur`. -/
def iniWriteFrom (repeats : Bool) (cur : Str) : List IniEntry → Str
  | [] => []
  | e :: es =>
    (if repeats = true ∨ e.section_ ≠ cur then headerText e.section_ ++ lit "\n" else []) ++
      (entryText e ++ lit "\n" ++ iniWriteFrom repeats e.section_ es)

theorem iniWriteFrom_cons (repeats : Bool) (cur : Str) (e : IniEntry) (es : List IniEntry) :
    iniWriteFrom repeats cur (e :: es) =
      (if repeats = true ∨ e.section_ ≠ cur then headerText e.section_ ++ lit "\n" else []) ++
        (entryText e ++ lit "\n" ++ iniWriteFrom repeats e.section_ es) := rfl

def iniWrite (repeats : Bool) (es : List IniEntry) : Str := iniWriteFrom repeats [] es

/-- A section or a key. -/
structure IsName (s : Str) : Prop where
  some : s ≠ []
  short : s.length ≤ 63
  bytes : ∀ c ∈ s, c ≠ ch '=' ∧ c ≠ ch ']' ∧ c ≠ ch '\n' ∧ c ≠ 0
  first : ∀ c ∈ s.head?, isBlank c = false
  last : ∀ c ∈ s.getLast?, isBlank c = false

/-- An entry that can be written; a tab is escaped in a value. -/
structure Writable (e : IniEntry) : Prop where
  section_ : IsName e.section_
  key : IsName e.key
  keyFirst : ∀ c ∈ e.key.head?, c ≠ ch '[' ∧ c ≠ ch ';' ∧ c ≠ ch '#'
  short : (escaped e.value).length ≤ 32000
  first : e.value.head? ≠ Option.some (ch ' ')
  last : e.value.getLast? ≠ Option.some (ch ' ')
  nul : ∀ c ∈ e.value, c ≠ 0

theorem isName_letter {c : UInt8} (h : c = ch 's' ∨ c = ch 'k' ∨ c = ch 'l') : IsName [c] := by
  rcases h with rfl | rfl | rfl <;>
    exact ⟨by decide, by decide, List.forall_mem_singleton.mpr (by decide), by simp; decide, by simp; decide⟩

theorem writable_letter {k : UInt8} {v : Str} (hk : k = ch 'k' ∨ k = ch 'l') (hshort : (escaped v).length ≤ 32000)
    (hfirst : v.head? ≠ some (ch ' ')) (hlast : v.getLast? ≠ some (ch ' ')) (hnul : v.all (· ≠ 0) = true) :
    Writable ⟨lit "s", [k], v⟩ := by
  refine ⟨isName_letter (.inl rfl), isName_letter (.inr hk), ?_, hshort, hfirst, hlast, ?_⟩
  · rcases hk with rfl | rfl <;> simp <;> decide
  · exact List.all_iff_forall_prop.mp hnul

/-- Every value reads back behind its key. -/
def ReadsBack : List IniEntry → Prop
  | [] => True
  | e :: es => readsBack es.isEmpty (e.key.length + 3) false e.value = true ∧ ReadsBack es

/-! ## Clean text -/

theorem clean_newline {p : Nat} {t : Str} (h : Clean 0 t) : Clean p (ch '\n' :: t) := by
  unfold Clean
  rwa [if_pos rfl]

/-- A run of bytes within a piece. -/
theorem clean_append {p : Nat} {a t : Str} (hbytes : ∀ c ∈ a, c ≠ ch '\n' ∧ c ≠ 0) (hp : p + a.length ≤ 4094)
    (hlast : a.getLast? ≠ some (ch '\r')) (h : Clean (p + a.length) t) : Clean p (a ++ t) := by
  induction a generalizing p with
  | nil => exact h
  | cons c a ih =>
    obtain ⟨hline, hnul⟩ := hbytes c List.mem_cons_self
    rw [List.length_cons] at hp h
    rw [List.cons_append]
    unfold Clean
    rw [if_neg hline, if_neg (by omega)]
    refine ⟨hnul, fun hc => ?_, ih (fun d hd => hbytes d (List.mem_cons_of_mem _ hd)) (by omega) ?_ ?_⟩
    · cases a with
      | nil => exact absurd (congrArg some hc) hlast
      | cons d a => exact fun hd => (hbytes d (List.mem_cons_of_mem _ List.mem_cons_self)).1 (Option.some.inj hd)
    · cases a with
      | nil => exact fun h => by cases h
      | cons d a => rwa [List.getLast?_cons_cons] at hlast
    · rwa [show p + 1 + a.length = p + (a.length + 1) by omega]

/-- A line without CR, however long. -/
theorem clean_line {p : Nat} {a t : Str} (hbytes : ∀ c ∈ a, c ≠ ch '\n' ∧ c ≠ ch '\r' ∧ c ≠ 0) (h : Clean 0 t) :
    Clean p (a ++ ch '\n' :: t) := by
  induction a generalizing p with
  | nil => exact clean_newline h
  | cons c a ih =>
    obtain ⟨hline, hcr, hnul⟩ := hbytes c List.mem_cons_self
    have ih := fun {p} => ih (p := p) fun d hd => hbytes d (List.mem_cons_of_mem _ hd)
    rw [List.cons_append]
    unfold Clean
    rw [if_neg hline]
    split
    · exact ⟨hnul, hcr, ih⟩
    · exact ⟨hnul, fun hc => absurd hc hcr, ih⟩

theorem mem_escaped {v : Str} (hnul : ∀ c ∈ v, c ≠ 0) : ∀ c ∈ escaped v, c ≠ ch '\n' ∧ c ≠ ch '\r' ∧ c ≠ 0 := by
  intro c hc
  obtain ⟨d, hd, hc⟩ := List.mem_flatMap.mp hc
  have hall := forall_byte (P := fun d => d ≠ 0 → (escapeByte d).all (fun c => c ≠ ch '\n' ∧ c ≠ ch '\r' ∧ c ≠ 0) = true)
    (by decide +kernel) d (hnul d hd)
  exact of_decide_eq_true (List.all_eq_true.mp hall c hc)

/-! ## Loading line by line -/

theorem read_shorter {sz : Nat} {out line : Str} {h : Bool} {piece : Str} {pieces rest : List Str}
    (hread : iniReadLogicalLine sz out h (piece :: pieces) = some (line, rest)) : rest.length ≤ pieces.length := by
  induction pieces generalizing out h piece with
  | nil =>
    simp only [iniReadLogicalLine] at hread
    split at hread
    · simp only [if_true, Option.some.injEq, Prod.mk.injEq] at hread
      simp [← hread.2]
    · cases hread
      exact Nat.le_refl _
  | cons next pieces ih =>
    unfold iniReadLogicalLine at hread
    simp only at hread
    split at hread
    · exact Nat.le_succ_of_le (ih hread)
    · cases hread
      exact Nat.le_refl _

theorem iniLoadFrom_nil (n : Nat) (section_ : Str) : iniLoadFrom n section_ [] = [] := by
  cases n <;> rfl

/-- Turns enough are enough. -/
theorem iniLoadFrom_fuel {n m : Nat} {section_ : Str} {pieces : List Str} (hn : pieces.length ≤ n) (hm : pieces.length ≤ m) :
    iniLoadFrom n section_ pieces = iniLoadFrom m section_ pieces := by
  induction n generalizing m section_ pieces with
  | zero =>
    rw [List.length_eq_zero_iff.mp (Nat.le_zero.mp hn), iniLoadFrom_nil, iniLoadFrom_nil]
  | succ n ih =>
    cases pieces with
    | nil => rw [iniLoadFrom_nil, iniLoadFrom_nil]
    | cons piece pieces =>
      rw [List.length_cons] at hn hm
      obtain ⟨m, rfl⟩ := Nat.exists_eq_add_of_le' (show 1 ≤ m by omega)
      unfold iniLoadFrom
      cases hread : iniReadLogicalLine 32768 [] false (piece :: pieces) with
      | none => rfl
      | some read =>
        obtain ⟨line, rest⟩ := read
        have hrest := read_shorter hread
        have ih := fun name => @ih m name rest (by omega) (by omega)
        cases hparse : iniParseLine line with
        | nothing => simp only [hparse, ih]
        | header name => simp only [hparse, ih]
        | entry key value => simp only [hparse, ih]

/-- `ini_load` from a section on. -/
def loadFrom (section_ s : Str) : List IniEntry := iniLoadFrom (fgetsFrom 4096 [] s).length section_ (fgetsFrom 4096 [] s)

theorem fgetsFrom_ne_nil {sz : Nat} {cur s : Str} (h : cur ≠ [] ∨ s ≠ []) : fgetsFrom sz cur s ≠ [] := by
  induction s generalizing cur with
  | nil =>
    unfold fgetsFrom
    rw [if_neg (h.resolve_right fun h => h rfl)]
    exact List.cons_ne_nil _ _
  | cons c s ih =>
    unfold fgetsFrom
    split
    · exact List.cons_ne_nil _ _
    · exact ih (Or.inl (List.append_ne_nil_of_right_ne_nil _ (List.cons_ne_nil _ _)))

/-- One turn of the loop. -/
theorem loadFrom_eq {section_ s : Str} (hs : s ≠ []) (hclean : Clean 0 s) : loadFrom section_ s =
    match iniParseLine ((logical 0 s).1.take 32767) with
    | .nothing => loadFrom section_ (logical 0 s).2
    | .header name => loadFrom name (logical 0 s).2
    | .entry key value => ⟨cut 64 section_, key, value⟩ :: loadFrom section_ (logical 0 s).2 := by
  have hread := @read_logical [] [] s false (by simp) (by simp) (by simp) (by simp) hclean (Or.inr hs)
  obtain ⟨piece, pieces, hpieces⟩ := List.exists_cons_of_ne_nil (@fgetsFrom_ne_nil 4096 [] s (Or.inr hs))
  unfold loadFrom
  rw [hpieces] at hread ⊢
  have hrest := read_shorter hread
  have hfuel := fun name => @iniLoadFrom_fuel _ _ name _ hrest (Nat.le_refl _)
  rw [List.length_cons]
  conv_lhs => unfold iniLoadFrom
  rw [hread]
  simp only [List.nil_append, List.length_nil] at hfuel ⊢
  cases hparse : iniParseLine ((logical 0 s).1.take 32767) with
  | nothing => simp only [hfuel]
  | header name => simp only [hfuel]
  | entry key value => simp only [hfuel]

/-! ## The lines written -/

theorem cut_name {s : Str} (h : IsName s) : cut 64 s = s := (cut_eq_self (by decide)).mpr (Nat.lt_succ_of_le h.short)

theorem parse_header {name : Str} (h : IsName name) : iniParseLine (headerText name) = .header name := by
  have hstrip : iniRstrip (headerText name) = headerText name := by
    apply iniRstrip_eq_self
    intro c hc
    rw [headerText, show lit "]" = [ch ']'] from rfl, List.getLast?_concat] at hc
    cases Option.some.inj hc
    rfl
  have hblank : (headerText name).dropWhile isBlank = ch '[' :: (name ++ [ch ']']) := List.dropWhile_cons_of_neg (by decide)
  have hchr : strchr (ch '[' :: (name ++ [ch ']'])) (ch ']') = some [ch ']'] := by
    rw [← List.cons_append]
    refine strchr_append (fun c hc => ?_) []
    rcases List.mem_cons.mp hc with rfl | hc
    · decide
    · exact (h.bytes c hc).2.1
  unfold iniParseLine
  rw [hstrip, hblank, if_neg (by simp [byte, ch]), if_pos (show byte (ch '[' :: _) 0 = ch '[' from rfl), hchr]
  simp [cut_name h]

/-- The stripped text behind the key. -/
def behindKey (rest : Str) : Str := if iniRstrip rest = [] then [] else ch ' ' :: iniRstrip rest

theorem strip_entry (key rest : Str) : iniRstrip (key ++ lit " = " ++ rest) = (key ++ [ch ' ']) ++ ch '=' :: behindKey rest := by
  unfold behindKey
  rw [iniRstrip_append]
  split
  · rw [iniRstrip_append, if_neg (by decide), List.append_assoc]
    rfl
  · simp only [List.append_assoc]
    rfl

theorem dropWhile_behindKey (rest : Str) : (behindKey rest).dropWhile isBlank = (iniRstrip rest).dropWhile isBlank := by
  unfold behindKey
  split
  · rename_i hnil
    rw [hnil]
  · exact List.dropWhile_cons_of_pos (by decide)

theorem parse_entry {key : Str} (h : IsName key) (hfirst : ∀ c ∈ key.head?, c ≠ ch '[' ∧ c ≠ ch ';' ∧ c ≠ ch '#') (rest : Str) :
    iniParseLine (key ++ lit " = " ++ rest) = .entry key (iniUnescape 32768 0 ((iniRstrip rest).dropWhile isBlank)) := by
  have hchr : strchr ((key ++ [ch ' ']) ++ ch '=' :: behindKey rest) (ch '=') = some (ch '=' :: behindKey rest) := by
    refine strchr_append (fun c hc => ?_) _
    rcases List.mem_append.mp hc with hc | hc
    · exact (h.bytes c hc).1
    · rw [List.mem_singleton.mp hc]
      decide
  have hkey : ((key ++ [ch ' ']).reverse.dropWhile isBlank).reverse = key := by
    rw [List.reverse_concat, List.dropWhile_cons_of_pos (by decide)]
    cases hrev : key.reverse with
    | nil => exact absurd (List.reverse_eq_nil_iff.mp hrev) h.some
    | cons c t =>
      have hc : c ∈ key.getLast? := by rw [← List.head?_reverse, hrev]; rfl
      rw [List.dropWhile_cons_of_neg (by simp [h.last c hc]), ← hrev, List.reverse_reverse]
  obtain ⟨c, t, rfl⟩ := List.exists_cons_of_ne_nil h.some
  have hblank := h.first c rfl
  obtain ⟨hbracket, hsemi, hhash⟩ := hfirst c rfl
  have hstart : ((c :: t ++ [ch ' ']) ++ ch '=' :: behindKey rest).dropWhile isBlank = (c :: t ++ [ch ' ']) ++ ch '=' :: behindKey rest :=
    List.dropWhile_cons_of_neg (by simp [hblank])
  have hfirst : byte ((c :: t ++ [ch ' ']) ++ ch '=' :: behindKey rest) 0 = c := rfl
  unfold iniParseLine
  rw [strip_entry, hstart]
  simp only [hfirst]
  rw [if_neg (by simp [hsemi, hhash]), if_neg hbracket, hchr]
  simp only [@List.length_append _ (c :: t ++ [ch ' ']) (ch '=' :: behindKey rest), Nat.add_sub_cancel, List.take_left, hkey, cut_name h,
    List.drop_succ_cons, List.drop_zero, dropWhile_behindKey]

theorem headerText_bytes {name : Str} (h : IsName name) :
    (∀ c ∈ headerText name, c ≠ ch '\n' ∧ c ≠ 0) ∧ (headerText name).length ≤ 65 ∧ (headerText name).getLast? = some (ch ']') := by
  have hshort := h.short
  have hlen : (headerText name).length = name.length + 2 := by
    unfold headerText
    rw [List.length_append, List.length_append, show (lit "[").length = 1 from rfl, show (lit "]").length = 1 from rfl]
    omega
  refine ⟨fun c hc => ?_, by omega, List.getLast?_concat⟩
  rcases List.mem_append.mp hc with hc | hc
  · rcases List.mem_append.mp hc with hc | hc
    · rw [List.mem_singleton.mp hc]
      decide
    · exact (h.bytes c hc).2.2
  · rw [List.mem_singleton.mp hc]
    decide

/-! ## The lines loaded -/

theorem loadFrom_empty {section_ s : Str} (hclean : Clean 0 s) : loadFrom section_ (ch '\n' :: s) = loadFrom section_ s := by
  rw [loadFrom_eq (List.cons_ne_nil _ _) (clean_newline hclean), logical_newline]
  rfl

theorem loadFrom_header {section_ name s : Str} (h : IsName name) (hclean : Clean 0 s) :
    loadFrom section_ (headerText name ++ lit "\n" ++ s) = loadFrom name s := by
  obtain ⟨hbytes, hlen, hlast⟩ := headerText_bytes h
  have hline : headerText name ++ lit "\n" ++ s = headerText name ++ ch '\n' :: s := List.append_assoc _ _ _
  have hlogical : logical 0 (headerText name ++ ch '\n' :: s) = (headerText name, s) := by
    rw [logical_append (fun c hc => (hbytes c hc).1) (by omega) (by rw [hlast]; decide), logical_newline, List.append_nil]
  have hclean' : Clean 0 (headerText name ++ ch '\n' :: s) :=
    clean_append hbytes (by omega) (by rw [hlast]; decide) (clean_newline hclean)
  rw [hline, loadFrom_eq (List.append_ne_nil_of_right_ne_nil _ (List.cons_ne_nil _ _)) hclean', hlogical,
    List.take_of_length_le (show (headerText name).length ≤ 32767 by omega), parse_header h]

/-- The key, its mark and the blanks about it. -/
theorem keyText_bytes {key : Str} (h : IsName key) :
    (∀ c ∈ key ++ lit " = ", c ≠ ch '\n' ∧ c ≠ 0) ∧ (key ++ lit " = ").length = key.length + 3 ∧
      (key ++ lit " = ").getLast? = some (ch ' ') := by
  refine ⟨fun c hc => ?_, List.length_append, ?_⟩
  · rcases List.mem_append.mp hc with hc | hc
    · exact (h.bytes c hc).2.2
    · exact List.all_iff_forall_prop.mp (show (lit " = ").all (fun c => c ≠ ch '\n' ∧ c ≠ 0) = true by decide) c hc
  · rw [List.getLast?_append]
    rfl

/-- No blank comes to stand first. -/
theorem kept_dropWhile {v tail : Str} {m p : Nat} (hfirst : v.head? ≠ some (ch ' ')) (hp : p < 4093) (hm : 2 ≤ m) :
    (kept tail m p v).dropWhile isBlank = kept tail m p v := by
  obtain ⟨m, rfl⟩ := Nat.exists_eq_add_of_le' hm
  cases v with
  | nil =>
    rw [kept_nil]
    rfl
  | cons c r =>
    by_cases hc : c = ch '\\'
    · subst hc
      by_cases hr : r = []
      · subst hr
        rw [kept_slash_end tail (m + 1) hp]
        exact List.dropWhile_cons_of_neg (by decide)
      · rw [kept_slash tail m hr hp]
        exact List.dropWhile_cons_of_neg (by decide)
    cases hx : escapeLetter c with
    | some x =>
      rw [kept_letter tail m hc hx r hp]
      exact List.dropWhile_cons_of_neg (by decide)
    | none =>
      have hblank : isBlank c = false := by
        have hspace : c ≠ ch ' ' := fun h => hfirst (congrArg some h)
        have htab : c ≠ ch '\t' := by
          rintro rfl
          exact absurd hx (by decide)
        simp [isBlank, hspace, htab]
      rw [kept_plain tail (m + 1) r hx (by omega)]
      split
      · rfl
      · exact List.dropWhile_cons_of_neg (by simp [hblank])

/-- The entry that comes of a line, and the text left behind it. -/
theorem loadFrom_entry {section_ tail : Str} {e : IniEntry} (h : Writable e) (hsection : IsName section_) (hclean : Clean 0 tail) :
    loadFrom section_ (entryText e ++ lit "\n" ++ tail) =
      ⟨section_, e.key, decode false (kept tail (32767 - (e.key.length + 3)) (e.key.length + 3) e.value)⟩ ::
        loadFrom section_ (logical (e.key.length + 3) (escaped e.value ++ ch '\n' :: tail)).2 := by
  obtain ⟨hbytes, hlen, hlast⟩ := keyText_bytes h.key
  have hshort := h.key.short
  have hline : entryText e ++ lit "\n" ++ tail = (e.key ++ lit " = ") ++ (escaped e.value ++ ch '\n' :: tail) := by
    unfold entryText
    simp only [List.append_assoc]
    rfl
  have hclean' : Clean 0 ((e.key ++ lit " = ") ++ (escaped e.value ++ ch '\n' :: tail)) :=
    clean_append hbytes (by omega) (by rw [hlast]; decide) (clean_line (mem_escaped h.nul) hclean)
  have hne : (e.key ++ lit " = ") ++ (escaped e.value ++ ch '\n' :: tail) ≠ [] :=
    List.append_ne_nil_of_right_ne_nil _ (List.append_ne_nil_of_right_ne_nil _ (List.cons_ne_nil _ _))
  have hlogical := logical_append (p := 0) (t := escaped e.value ++ ch '\n' :: tail) (fun c hc => (hbytes c hc).1) (by omega)
    (by rw [hlast]; decide)
  rw [Nat.zero_add, hlen] at hlogical
  have hkept : (kept tail (32767 - (e.key.length + 3)) (e.key.length + 3) e.value).length ≤ 32767 - (e.key.length + 3) :=
    (length_iniRstrip_le _).trans (List.length_take_le _ _)
  rw [hline, loadFrom_eq hne hclean', hlogical]
  simp only [@List.take_append _ (e.key ++ lit " = "), hlen]
  rw [List.take_of_length_le (by omega), parse_entry h.key h.keyFirst]
  change (⟨_, _, iniUnescape 32768 0 ((kept tail _ _ e.value).dropWhile isBlank)⟩ : IniEntry) :: _ = _
  rw [kept_dropWhile h.first (by omega) (by omega), iniUnescape_eq (by omega), cut_name hsection]

theorem eq_nil_of_restReads {last : Bool} {r : Str} (h : restReads last 0 r = true) : r = [] := by
  unfold restReads at h
  simpa using (Bool.and_eq_true_iff.mp h).1

/-- A value that reads back leaves the text behind its line: all of it, or an LF first. -/
theorem logical_left {tail r : Str} {p : Nat} {owed : Bool} (hp : p ≤ 4094) (h : readsBack tail.isEmpty p owed r = true) :
    (logical p (escaped r ++ ch '\n' :: tail)).2 = tail ∨ (logical p (escaped r ++ ch '\n' :: tail)).2 = ch '\n' :: tail := by
  induction r generalizing p owed with
  | nil =>
    left
    exact congrArg (·.2) (logical_newline p tail)
  | cons c r ih =>
    by_cases hc : c = ch '\\'
    · subst hc
      rw [readsBack_slash, Bool.and_eq_true] at h
      rw [escaped_letter rfl]
      by_cases hr : r = []
      · subst hr
        rcases Nat.lt_trichotomy p 4093 with hlt | rfl | hgt
        · -- the line is joined to nothing
          have htail : tail = [] := by
            rw [Nat.mod_eq_of_lt (by omega)] at h
            have hlast : tail = [] ∧ owed = false ∧ ¬p = 4094 := by simpa using h.2
            exact hlast.1
          left
          rw [logical_keep_slash (by omega) (by decide), htail]
          change (logical (p + 1) (ch '\\' :: ch '\n' :: [])).2 = []
          rw [logical_continued (by omega)]
          rfl
        · left
          rw [logical_keep_slash (by decide) (by decide), logical_full_slash]
          exact congrArg (·.2) (logical_newline 0 tail)
        · obtain rfl : p = 4094 := by omega
          simp at h
      · rw [if_neg fun hand => hr hand.1] at h
        rcases Nat.lt_trichotomy p 4093 with hlt | rfl | hgt
        · obtain ⟨d, r, rfl⟩ := List.exists_cons_of_ne_nil hr
          rw [Nat.mod_eq_of_lt (by omega)] at h
          rw [logical_keep_slash (by omega) (by decide), logical_keep (by omega) (by decide) fun _ => head_escaped _ _]
          exact ih (by omega) h.2
        · rw [logical_keep_slash (by decide) (by decide), logical_full_slash]
          exact ih (by decide) h.2
        · obtain rfl : p = 4094 := by omega
          obtain ⟨d, r, rfl⟩ := List.exists_cons_of_ne_nil hr
          rw [logical_full_slash, logical_keep (by decide) (by decide) fun _ => head_escaped _ _]
          exact ih (by decide) h.2
    cases hx : escapeLetter c with
    | some x =>
      obtain ⟨hslash, hline, -⟩ := letter_spec hc hx
      rw [readsBack_letter _ _ _ _ hc hx, Bool.and_eq_true] at h
      rw [escaped_letter hx]
      rcases Nat.lt_trichotomy p 4093 with hlt | rfl | hgt
      · rw [Nat.mod_eq_of_lt (by omega)] at h
        rw [logical_keep_slash (by omega) hline, logical_keep_other (by omega) hline hslash]
        exact ih (by omega) (Bool.and_eq_true_iff.mp h.1).2
      · right
        rw [logical_keep_slash (by decide) hline, logical_full hline hslash, eq_nil_of_restReads h.1]
        rfl
      · obtain rfl : p = 4094 := by omega
        rw [logical_full_slash, logical_keep_other (by decide) hline hslash]
        exact ih (by decide) (Bool.and_eq_true_iff.mp h.1).2
    | none =>
      obtain ⟨hslash, hline, -⟩ := plain_spec hx
      rw [readsBack_plain _ _ _ _ hx, Bool.and_eq_true] at h
      rw [escaped_plain hx]
      by_cases hlast : p = 4094
      · subst hlast
        right
        rw [logical_full hline hslash, eq_nil_of_restReads h.1]
        rfl
      · rw [logical_keep_other hlast hline hslash]
        rw [Nat.mod_eq_of_lt (by omega)] at h
        exact ih (by omega) (Bool.and_eq_true_iff.mp h.1).2

/-! ## The file -/

theorem clean_entry {e : IniEntry} (h : Writable e) {tail : Str} (hclean : Clean 0 tail) : Clean 0 (entryText e ++ lit "\n" ++ tail) := by
  obtain ⟨hbytes, hlen, hlast⟩ := keyText_bytes h.key
  have hshort := h.key.short
  have hline : entryText e ++ lit "\n" ++ tail = (e.key ++ lit " = ") ++ (escaped e.value ++ ch '\n' :: tail) := by
    unfold entryText
    simp only [List.append_assoc]
    rfl
  rw [hline]
  exact clean_append hbytes (by omega) (by rw [hlast]; decide) (clean_line (mem_escaped h.nul) hclean)

theorem clean_header {name : Str} (h : IsName name) {tail : Str} (hclean : Clean 0 tail) : Clean 0 (headerText name ++ lit "\n" ++ tail) := by
  obtain ⟨hbytes, hlen, hlast⟩ := headerText_bytes h
  rw [List.append_assoc]
  exact clean_append hbytes (by omega) (by rw [hlast]; decide) (clean_newline hclean)

theorem clean_write {repeats : Bool} {cur : Str} {es : List IniEntry} (h : ∀ e ∈ es, Writable e) : Clean 0 (iniWriteFrom repeats cur es) := by
  induction es generalizing cur with
  | nil => rfl
  | cons e es ih =>
    have he := h e List.mem_cons_self
    have hentry := clean_entry he (@ih e.section_ fun d hd => h d (List.mem_cons_of_mem _ hd))
    unfold iniWriteFrom
    split
    · exact clean_header he.section_ hentry
    · exact hentry

theorem marked_header {name : Str} (h : IsName name) : Marked (headerText name) := by
  obtain ⟨hbytes, hlen, hlast⟩ := headerText_bytes h
  refine ⟨fun c hc => (hbytes c hc).1, by omega, by rw [hlast]; decide, ch ']', ?_, Or.inr rfl⟩
  exact List.mem_append_right _ List.mem_cons_self

theorem marked_key {key : Str} (h : IsName key) : Marked (key ++ lit " = ") := by
  obtain ⟨hbytes, hlen, hlast⟩ := keyText_bytes h
  have hshort := h.short
  refine ⟨fun c hc => (hbytes c hc).1, by omega, by rw [hlast]; decide, ch '=', ?_, Or.inl rfl⟩
  exact List.mem_append_right _ (by decide)

theorem follows_write {repeats : Bool} {cur : Str} {es : List IniEntry} (h : ∀ e ∈ es, Writable e) :
    Follows (iniWriteFrom repeats cur es) := by
  cases es with
  | nil => exact Or.inl rfl
  | cons e es =>
    have he := h e List.mem_cons_self
    right
    unfold iniWriteFrom
    split
    · exact ⟨headerText e.section_, _, List.append_assoc _ _ _, marked_header he.section_⟩
    · refine ⟨e.key ++ lit " = ", escaped e.value ++ (lit "\n" ++ iniWriteFrom repeats e.section_ es), ?_, marked_key he.key⟩
      simp only [entryText, List.nil_append, List.append_assoc]

theorem isEmpty_write (repeats : Bool) (cur : Str) (es : List IniEntry) : (iniWriteFrom repeats cur es).isEmpty = es.isEmpty := by
  cases es with
  | nil => rfl
  | cons e es =>
    rw [List.isEmpty_cons, List.isEmpty_eq_false_iff]
    unfold iniWriteFrom entryText
    simp [lit]

/-- From the section that was written last. -/
theorem loadFrom_write {repeats : Bool} {cur : Str} {es : List IniEntry} (h : ∀ e ∈ es, Writable e) :
    loadFrom cur (iniWriteFrom repeats cur es) = es ↔ ReadsBack es := by
  induction es generalizing cur with
  | nil => exact iff_of_true rfl trivial
  | cons e es ih =>
    have he := h e List.mem_cons_self
    have hes := fun d hd => h d (List.mem_cons_of_mem e hd)
    have hclean := @clean_write repeats e.section_ es hes
    have hheader : loadFrom cur (iniWriteFrom repeats cur (e :: es)) =
        loadFrom e.section_ (entryText e ++ lit "\n" ++ iniWriteFrom repeats e.section_ es) := by
      rw [iniWriteFrom_cons]
      split
      · exact loadFrom_header he.section_ (clean_entry he hclean)
      · rename_i hsame
        rw [not_or, not_not] at hsame
        rw [List.nil_append, hsame.2]
    have hshort := he.key.short
    have hvalue := decode_kept (@follows_write repeats e.section_ es hes) he.last (m := 32767 - (e.key.length + 3))
      (p := e.key.length + 3) (by omega) (by have := he.short; omega)
    rw [isEmpty_write] at hvalue
    -- nothing of the line is left for the next
    have hleft : readsBack es.isEmpty (e.key.length + 3) false e.value = true →
        loadFrom e.section_ (logical (e.key.length + 3) (escaped e.value ++ ch '\n' :: iniWriteFrom repeats e.section_ es)).2 =
          loadFrom e.section_ (iniWriteFrom repeats e.section_ es) := by
      intro hreads
      rw [← isEmpty_write repeats e.section_ es] at hreads
      rcases logical_left (by omega) hreads with hall | hnewline
      · rw [hall]
      · rw [hnewline, loadFrom_empty hclean]
    rw [hheader, loadFrom_entry he he.section_ hclean, List.cons.injEq]
    unfold ReadsBack
    constructor
    · rintro ⟨hentry, hrest⟩
      have hreads := hvalue.mp (congrArg IniEntry.value hentry)
      rw [hleft hreads] at hrest
      exact ⟨hreads, (ih hes).mp hrest⟩
    · rintro ⟨hreads, hrest⟩
      rw [hvalue.mpr hreads, hleft hreads]
      exact ⟨rfl, (ih hes).mpr hrest⟩

/-- What is written is loaded again exactly when every value reads back. -/
theorem load_write_exact (repeats : Bool) (es : List IniEntry) (h : ∀ e ∈ es, Writable e) :
    iniLoad (some (iniWrite repeats es)) = some es ↔ ReadsBack es := by
  change some (loadFrom [] (iniWrite repeats es)) = some es ↔ _
  rw [Option.some.injEq]
  exact loadFrom_write h

theorem load_write_exact_quotes :
    iniLoad (some (iniWrite false [⟨lit "s", lit "k", lit "a\n\"b\""⟩, ⟨lit "s", lit "l", lit "c\\"⟩])) =
      some [⟨lit "s", lit "k", lit "a\n\"b\""⟩, ⟨lit "s", lit "l", lit "c\\"⟩] := by
  refine (load_write_exact _ _ ?_).mpr ⟨by decide, by decide, trivial⟩
  intro e he
  rcases List.mem_pair.mp he with rfl | rfl
  · exact writable_letter (.inl rfl) (by decide) (by decide) (by decide) (by decide)
  · exact writable_letter (.inr rfl) (by decide) (by decide) (by decide) (by decide)

/-- A backslash at the end of a value: the next header becomes part of it. -/
theorem trailing_backslash_joins :
    (∀ e ∈ ([⟨lit "s", lit "k", lit "a\\"⟩, ⟨lit "s", lit "l", lit "b"⟩] : List IniEntry), Writable e) ∧
      iniLoad (some (iniWrite true [⟨lit "s", lit "k", lit "a\\"⟩, ⟨lit "s", lit "l", lit "b"⟩])) =
        some [⟨lit "s", lit "k", lit "a\\[s]"⟩, ⟨lit "s", lit "l", lit "b"⟩] ∧
      iniLoad (some (iniWrite true [⟨lit "s", lit "k", lit "a\\"⟩, ⟨lit "s", lit "l", lit "b"⟩])) ≠
        some [⟨lit "s", lit "k", lit "a\\"⟩, ⟨lit "s", lit "l", lit "b"⟩] := by
  refine ⟨fun e he => ?_, by decide +kernel, by decide +kernel⟩
  rcases List.mem_pair.mp he with rfl | rfl
  · exact writable_letter (.inl rfl) (by decide) (by decide) (by decide) (by decide)
  · exact writable_letter (.inr rfl) (by decide) (by decide) (by decide) (by decide)

end Shclaw.Config
