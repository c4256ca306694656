/-
  Shclaw.Config.Comments — what a comment does to a configuration (`src/ini.c`).

  A text put in at some place of a file changes the lines that are read from there to the
  end of the line behind it (`Trades`), and nothing else. `comments_exact`: a comment that
  is a line of its own keeps the entries if it fits the buffer of `fgets` and no backslash
  ends it, and otherwise exactly when the lines it falls into trade for those it replaces.
  A comment behind a value is part of the value wherever its semicolon is read.
-/

import Shclaw.Config.Scan
import Shclaw.Config.Values

namespace Shclaw.Config

open Lib

/-! ## Putting in a text -/

/-- The lines that end in `s`, read from the place on, and the one it leaves open. -/
def Place.read (p : Place) (s : Str) : List Str × Option Str := joined.run p.line (p.fgets s)

/-- The line that comes next, behind an open one or as a line of its own. -/
def nextLine (line : Option Str) (b : Str) : List Str := (linesFrom line (fgetsFrom 4096 [] b)).take 1

/-- The lines behind that one. -/
def laterLines (b : Str) : List Str := (linesFrom none (fgetsFrom 4096 [] b)).drop 1

/-- Whether a header comes before the first entry. -/
def headed : List Str → Bool
  | [] => true
  | line :: lines =>
    match iniParseLine line with
    | .nothing => headed lines
    | .header _ => true
    | .entry _ _ => false

/-- With the line behind them, the new lines hold the entries of the old ones and leave the
    same section, or one that no entry is in. -/
structure Trades (section_ : Str) (new old : List Str × Option Str) (b : Str) : Prop where
  entries : (loaded.run section_ (new.1 ++ nextLine new.2 b)).1 = (loaded.run section_ (old.1 ++ nextLine old.2 b)).1
  sections : cut 64 (loaded.run section_ (new.1 ++ nextLine new.2 b)).2 =
    cut 64 (loaded.run section_ (old.1 ++ nextLine old.2 b)).2 ∨ headed (laterLines b) = true

/-- Whether a piece ends with the text, or the file does. -/
def Place.Ends (p : Place) (s b : Str) : Prop := b = [] ∨ (pieces.run p.piece s).2 = []

theorem pieces_of_ends {p : Place} {s b : Str} (h : p.Ends s b) : p.fgets (s ++ b) = p.fgets s ++ fgetsFrom 4096 [] b := by
  unfold Place.fgets
  rcases h with rfl | h
  · simp [fgetsFrom]
  · rw [fgetsFrom_append, fgetsFrom_eq p.piece s, h]
    simp [fgetsFrom]

/-- An open line has no effect behind the next one. -/
theorem drop_linesFrom (line line' : Option Str) (ps : List Str) :
    (linesFrom line ps).drop 1 = (linesFrom line' ps).drop 1 := by
  induction ps generalizing line line' with
  | nil => cases line <;> cases line' <;> rfl
  | cons piece ps ih =>
    rw [linesFrom_cons, linesFrom_cons]
    split
    · exact ih _ _
    · rfl

theorem linesFrom_eq (line : Option Str) (b : Str) :
    linesFrom line (fgetsFrom 4096 [] b) = nextLine line b ++ laterLines b := by
  unfold nextLine laterLines
  rw [drop_linesFrom none line, List.take_append_drop]

theorem even_loaded : loaded.Even := by
  intro s t line
  simp only [loaded]
  cases iniParseLine line <;> rfl

/-- Lines read in two sections. -/
theorem loaded_sections (s t : Str) (lines : List Str) :
    (loaded.run s lines).1 = (loaded.run t lines).1 ↔ cut 64 s = cut 64 t ∨ headed lines = true := by
  induction lines with
  | nil => simp [headed]
  | cons line lines ih =>
    rw [Transducer.run_cons, Transducer.run_cons]
    cases hparse : iniParseLine line with
    | nothing => simpa [loaded, headed, hparse] using ih
    | header name => simp [loaded, headed, hparse]
    | entry key value =>
      simp only [loaded, headed, hparse, List.singleton_append, List.cons.injEq, IniEntry.mk.injEq, and_true, Bool.false_eq_true,
        or_false]
      exact ⟨fun h => h.1, fun h => ⟨h, ih.mpr (Or.inl h)⟩⟩

/-- One text in the place of another. -/
theorem load_eq_iff {a x y b : Str} (hx : (placeOf a).Ends x b) (hy : (placeOf a).Ends y b) :
    iniLoad (some (a ++ (x ++ b))) = iniLoad (some (a ++ (y ++ b))) ↔
      Trades (placeOf a).section_ ((placeOf a).read x) ((placeOf a).read y) b := by
  rw [iniLoad_at, iniLoad_at, Option.some_inj, List.append_cancel_left_eq, pieces_of_ends hx, pieces_of_ends hy,
    linesFrom_append, linesFrom_append, linesFrom_eq, linesFrom_eq, ← List.append_assoc, ← List.append_assoc,
    even_loaded.run_append_inj, loaded_sections]
  exact ⟨fun h => ⟨h.1, h.2⟩, fun h => ⟨h.entries, h.sections⟩⟩

/-! ## What a place has so far -/

theorem length_run_joined {line : Option Str} (h : (line.getD []).length ≤ 32767) (ps : List Str) :
    ((joined.run line ps).2.getD []).length ≤ 32767 := by
  induction ps generalizing line with
  | nil => exact h
  | cons piece ps ih =>
    rw [Transducer.run_cons]
    apply ih
    simp only [joined]
    split
    · rw [Option.getD_some, iniAppend_eq h]
      exact List.length_take_le _ _
    · simp

theorem length_run_pieces {cur : Str} (h : cur.length ≤ 4094) (s : Str) : (pieces.run cur s).2.length ≤ 4094 := by
  induction s generalizing cur with
  | nil => exact h
  | cons c s ih =>
    rw [Transducer.run_cons]
    apply ih
    simp only [pieces]
    split
    · simp
    · rw [List.length_append, List.length_singleton]
      omega

theorem length_line (a : Str) : ((placeOf a).line.getD []).length ≤ 32767 := length_run_joined (by simp) _

theorem length_piece (a : Str) : (placeOf a).piece.length ≤ 4094 := length_run_pieces (by simp) a

/-! ## Pieces -/

theorem run_pieces_short {cur s : Str} (hline : ch '\n' ∉ s) (hlen : cur.length + s.length ≤ 4094) :
    pieces.run cur s = ([], cur ++ s) := by
  induction s generalizing cur with
  | nil => simp
  | cons c s ih =>
    rw [List.length_cons] at hlen
    rw [List.mem_cons, not_or] at hline
    have hstep : pieces.step cur c = ([], cur ++ [c]) := if_neg fun h => h.elim (fun hc => hline.1 hc.symm) (by omega)
    rw [Transducer.run_cons, hstep, ih hline.2 (by rw [List.length_append, List.length_singleton]; omega)]
    simp

theorem run_pieces_newline (cur s : Str) : (pieces.run cur (s ++ [ch '\n'])).2 = [] := by
  rw [Transducer.run_append]
  simp [pieces]

/-- The first piece goes on with the text. -/
theorem fgetsFrom_first (cur : Str) (c : UInt8) (s : Str) : ∃ z ps, fgetsFrom 4096 cur (c :: s) = (cur ++ c :: z) :: ps := by
  induction s generalizing cur c with
  | nil =>
    by_cases h : c = ch '\n' ∨ 4096 ≤ cur.length + 2
    · exact ⟨[], [], fgetsFrom_piece h []⟩
    · rw [fgetsFrom_cons (fun hc => h (Or.inl hc)) (by omega)]
      exact ⟨[], [], by simp [fgetsFrom]⟩
  | cons d s ih =>
    by_cases h : c = ch '\n' ∨ 4096 ≤ cur.length + 2
    · exact ⟨[], _, fgetsFrom_piece h _⟩
    · rw [fgetsFrom_cons (fun hc => h (Or.inl hc)) (by omega)]
      obtain ⟨z, ps, hz⟩ := ih (cur ++ [c]) d
      exact ⟨d :: z, ps, by rw [hz]; simp⟩

theorem stripEol_isPrefix (s : Str) : stripEol s <+: s := by
  unfold stripEol
  rw [← List.reverse_suffix, List.reverse_reverse]
  exact (List.dropWhile_suffix _).trans (List.reverse_suffix.mpr (List.takeWhile_prefix _))

/-- The end of the line is no part of it. -/
theorem stripEol_eol {e : Str} (he : ∀ c ∈ e, c = ch '\n' ∨ c = ch '\r') (s : Str) : stripEol (s ++ e) = stripEol s := by
  unfold stripEol
  rw [List.takeWhile_append]
  split
  · rename_i hall
    have htext : s.takeWhile (· ≠ 0) = s := (List.takeWhile_prefix _).eq_of_length hall
    have hend : e.takeWhile (· ≠ 0) = e := by
      rw [List.takeWhile_eq_self_iff]
      intro c hc
      rcases he c hc with rfl | rfl <;> decide
    rw [htext, hend, List.reverse_append, List.dropWhile_append_of_pos]
    intro c hc
    rcases he c (List.mem_reverse.mp hc) with rfl | rfl <;> decide
  · rfl

theorem pieceText_eol {e : Str} (he : ∀ c ∈ e, c = ch '\n' ∨ c = ch '\r') (s : Str) :
    continued (s ++ e) = continued s ∧ pieceText (s ++ e) = pieceText s := by
  simp [continued, pieceText, stripEol_eol he]

/-- Text up to a byte that is no line end and no backslash stays. -/
theorem pieceText_append {s : Str} {x : UInt8} (hnul : ∀ c ∈ s ++ [x], c ≠ 0) (hx : x ≠ ch '\n' ∧ x ≠ ch '\r' ∧ x ≠ ch '\\')
    (z : Str) : ∃ t, pieceText (s ++ [x] ++ z) = s ++ [x] ++ t := by
  have hstrip : ∃ t, stripEol (s ++ [x] ++ z) = s ++ [x] ++ t := by
    unfold stripEol
    rw [List.takeWhile_append_of_pos (by simpa using hnul), List.reverse_append, List.dropWhile_append]
    split
    · refine ⟨[], ?_⟩
      rw [List.reverse_concat, List.dropWhile_cons_of_neg (by simp [hx.1, hx.2.1])]
      simp
    · exact ⟨_, by rw [List.reverse_append, List.reverse_reverse]⟩
  obtain ⟨t, ht⟩ := hstrip
  unfold pieceText
  rw [ht]
  split
  · rename_i hcontinued
    rw [continued, ht, decide_eq_true_iff] at hcontinued
    cases t using List.reverseRecOn with
    | nil =>
      rw [List.append_nil, List.getLast?_concat] at hcontinued
      exact absurd (Option.some.inj hcontinued) hx.2.2
    | append_singleton t c => exact ⟨t, by rw [← List.append_assoc, List.dropLast_concat]⟩
  · exact ⟨t, rfl⟩

/-- An open line stays as it is, as far as it goes. -/
theorem linesFrom_open {out : Str} (hout : out.length ≤ 32767) (ps : List Str) :
    ∃ more lines, linesFrom (some out) ps = (out ++ more).take 32767 :: lines := by
  induction ps generalizing out with
  | nil => exact ⟨[], [], by simp [List.take_of_length_le hout]⟩
  | cons piece ps ih =>
    rw [linesFrom_cons, Option.getD_some, iniAppend_eq hout]
    split
    · obtain ⟨more, lines, hlines⟩ := @ih ((out ++ pieceText piece).take 32767) (List.length_take_le _ _)
      rw [take_append_take, List.append_assoc] at hlines
      exact ⟨_, lines, hlines⟩
    · exact ⟨pieceText piece, _, rfl⟩

/-! ## Lines -/

def IsMark (c : UInt8) : Prop := c = ch ';' ∨ c = ch '#'

theorem parse_mark {c : UInt8} (hc : IsMark c) (s : Str) : iniParseLine (c :: s) = .nothing := by
  have htrail : isTrail c = false := by rcases hc with rfl | rfl <;> rfl
  have hblank : isBlank c = false := by rcases hc with rfl | rfl <;> rfl
  have hstart : (iniRstrip (c :: s)).dropWhile isBlank = c :: iniRstrip s := by
    rw [iniRstrip_cons, if_neg (by simp [htrail]), List.dropWhile_cons_of_neg (by simp [hblank])]
  unfold iniParseLine
  rw [hstart]
  apply if_pos
  exact Or.inr hc

/-- A line with a key, from its first byte that is no blank. -/
theorem parse_key {s k v : Str} (hsplit : (iniRstrip s).dropWhile isBlank = k ++ ch '=' :: v) (hkey : ∀ c ∈ k, c ≠ ch '=')
    (hfirst : ∀ c ∈ k.head?, c ≠ ch '[' ∧ ¬IsMark c) :
    iniParseLine s = .entry (cut 64 ((k.reverse.dropWhile isBlank).reverse)) (iniUnescape 32768 0 (v.dropWhile isBlank)) := by
  have hbyte : ¬(k ++ ch '=' :: v = [] ∨ byte (k ++ ch '=' :: v) 0 = ch ';' ∨ byte (k ++ ch '=' :: v) 0 = ch '#') ∧
      byte (k ++ ch '=' :: v) 0 ≠ ch '[' := by
    cases k with
    | nil => exact ⟨by simp [byte, ch], by simp [byte, ch]⟩
    | cons c k =>
      obtain ⟨hbracket, hmark⟩ := hfirst c rfl
      refine ⟨?_, hbracket⟩
      rintro (h | h | h)
      · cases h
      · exact hmark (Or.inl h)
      · exact hmark (Or.inr h)
  unfold iniParseLine
  rw [hsplit]
  simp only [if_neg hbyte.1, if_neg hbyte.2, strchr_append hkey, List.length_append, Nat.add_sub_cancel, List.take_left, List.drop_succ_cons,
    List.drop_zero]

theorem parse_entry_inv {s key value : Str} (h : iniParseLine s = .entry key value) :
    ∃ k v, (iniRstrip s).dropWhile isBlank = k ++ ch '=' :: v ∧ (∀ c ∈ k, c ≠ ch '=') ∧ (∀ c ∈ k.head?, c ≠ ch '[' ∧ ¬IsMark c) ∧
      key = cut 64 ((k.reverse.dropWhile isBlank).reverse) ∧ value = iniUnescape 32768 0 (v.dropWhile isBlank) := by
  unfold iniParseLine at h
  simp only at h
  split at h
  · cases h
  rename_i hmark
  split at h
  · split at h <;> cases h
  rename_i hbracket
  split at h
  · cases h
  rename_i eq heq
  obtain ⟨k, v, hsplit, rfl, hkey⟩ := strchr_eq_some heq
  rw [hsplit] at h hmark hbracket
  simp only [List.length_append, Nat.add_sub_cancel, List.take_left, List.drop_succ_cons, List.drop_zero, IniLine.entry.injEq] at h
  refine ⟨k, v, hsplit, hkey, fun c hc => ?_, h.1.symm, h.2.symm⟩
  obtain ⟨t, rfl⟩ := List.head?_eq_some_iff.mp hc
  exact ⟨hbracket, fun hm => hmark (Or.inr hm)⟩

/-- The semicolons of a text are those of its value. -/
theorem count_decode (b : Bool) (s : Str) : (decode b s).count (ch ';') = s.count (ch ';') := by
  induction s generalizing b with
  | nil => cases b <;> rfl
  | cons c s ih =>
    cases b with
    | false =>
      unfold decode
      split
      · rename_i hc
        rw [ih, hc, List.count_cons_of_ne (by decide)]
      · rw [List.count_cons, List.count_cons, ih]
    | true =>
      change (((unescapeLetter c).map fun d => [d]).getD [ch '\\', c] ++ decode false s).count (ch ';') = _
      rw [List.count_append, ih, List.count_cons, Nat.add_comm]
      congr 1
      exact forall_byte (P := fun c => (((unescapeLetter c).map fun d => [d]).getD [ch '\\', c]).count (ch ';') =
        if (c == ch ';') = true then 1 else 0) (by decide +kernel) c

theorem count_dropWhile_isBlank (s : Str) : (s.dropWhile isBlank).count (ch ';') = s.count (ch ';') := by
  induction s with
  | nil => rfl
  | cons c s ih =>
    by_cases hc : isBlank c = true
    · have hne : c ≠ ch ';' := by
        rintro rfl
        cases hc
      rw [List.dropWhile_cons_of_pos hc, ih, List.count_cons_of_ne hne]
    · rw [List.dropWhile_cons_of_neg hc]

/-- A semicolon behind an entry changes its value. -/
theorem parse_longer {s key value : Str} (h : iniParseLine s = .entry key value) (t m : Str)
    (hlen : (s ++ (t ++ ch ';' :: m)).length ≤ 32767) :
    ∃ value', iniParseLine (s ++ (t ++ ch ';' :: m)) = .entry key value' ∧ value' ≠ value := by
  obtain ⟨k, v, hsplit, hkey, hfirst, rfl, rfl⟩ := parse_entry_inv h
  have hsemi : iniRstrip (ch ';' :: m) = ch ';' :: iniRstrip m := by
    rw [iniRstrip_cons, if_neg fun h => absurd h.2 (by decide)]
  obtain ⟨trail, htrail⟩ : iniRstrip s <+: s := by
    unfold iniRstrip
    rw [← List.reverse_suffix, List.reverse_reverse]
    exact List.dropWhile_suffix _
  have hlonger : (iniRstrip (s ++ (t ++ ch ';' :: m))).dropWhile isBlank =
      k ++ ch '=' :: (v ++ (trail ++ (t ++ ch ';' :: iniRstrip m))) := by
    rw [iniRstrip_append, iniRstrip_append, hsemi, if_neg (by simp), if_neg (by simp)]
    conv_lhs => rw [← htrail]
    rw [List.append_assoc, List.dropWhile_append, hsplit, if_neg (by simp)]
    simp
  refine ⟨_, parse_key hlonger hkey hfirst, fun heq => ?_⟩
  have hlong := (List.dropWhile_suffix isBlank (l := iniRstrip (s ++ (t ++ ch ';' :: m)))).length_le
  have hstrip := length_iniRstrip_le (s ++ (t ++ ch ';' :: m))
  rw [hlonger, List.length_append, List.length_cons, List.length_append] at hlong
  have hvalue := (List.dropWhile_suffix isBlank (l := v ++ (trail ++ (t ++ ch ';' :: iniRstrip m)))).length_le
  have hvalue' := (List.dropWhile_suffix isBlank (l := v)).length_le
  rw [List.length_append] at hvalue
  rw [iniUnescape_eq (by omega), iniUnescape_eq (by omega)] at heq
  have hcount := congrArg (List.count (ch ';')) heq
  rw [count_decode, count_decode, count_dropWhile_isBlank, count_dropWhile_isBlank, List.count_append, List.count_append, List.count_append,
    List.count_cons_self] at hcount
  omega

/-! ## Comments -/

/-- Between two logical lines. -/
structure Place.Fresh (p : Place) : Prop where
  line : p.line = none
  piece : p.piece = []

/-- The comment fits the buffer, and its line ends with it. -/
structure Short (comment : Str) : Prop where
  fits : comment.length ≤ 4094
  ends : continued comment = false

/-- The line is not read as far as a semicolon behind a blank: it is cut by a NUL, by `fgets`,
    or where the logical line is full. -/
def Place.Full (p : Place) : Prop :=
  0 ∈ p.piece ∨ p.piece.length = 4094 ∨ 32766 ≤ (p.line.getD []).length + p.piece.length

/-- What the line is, if it ends here. -/
def Place.endsAs (p : Place) : IniLine := iniParseLine (iniAppend 32768 (p.line.getD []) (stripEol p.piece))

/-- The end of a line, or of the file. -/
def LineEnd (e b : Str) : Prop := e = lit "\n" ∨ e = lit "\r\n" ∨ e = [] ∧ b = []

theorem loaded_nothing {line : Str} (h : iniParseLine line = .nothing) (section_ : Str) (lines : List Str) :
    loaded.run section_ (line :: lines) = loaded.run section_ lines := by
  simp [loaded, h]

theorem ends_newline (p : Place) (s b : Str) : p.Ends (s ++ [ch '\n']) b := Or.inr (run_pieces_newline _ _)

theorem ends_lineEnd (p : Place) (s : Str) {e b : Str} (h : LineEnd e b) : p.Ends (s ++ e) b := by
  rcases h with rfl | rfl | ⟨rfl, rfl⟩
  · exact ends_newline p s b
  · exact (List.append_assoc s [ch '\r'] [ch '\n']) ▸ ends_newline p (s ++ [ch '\r']) b
  · exact Or.inl rfl

theorem read_nothing {p : Place} (h : p.Fresh) : p.read [] = ([], none) := by
  simp [Place.read, Place.fgets, h.line, h.piece, fgetsFrom]

/-- A short comment is one line that holds nothing. -/
theorem read_short {p : Place} (h : p.Fresh) {c : UInt8} (hc : IsMark c) {text : Str} (hline : ch '\n' ∉ text)
    (hshort : Short (c :: text)) : ∃ line, p.read (c :: text ++ [ch '\n']) = ([line], none) ∧ iniParseLine line = .nothing := by
  have hplain : c ≠ 0 ∧ c ≠ ch '\n' ∧ c ≠ ch '\r' ∧ c ≠ ch '\\' := by rcases hc with rfl | rfl <;> decide
  obtain ⟨t, ht⟩ := pieceText_append (s := []) (x := c) (by simpa using hplain.1) hplain.2 text
  have hpieces : p.fgets (c :: text ++ [ch '\n']) = [c :: text ++ [ch '\n']] := by
    unfold Place.fgets
    rw [h.piece, fgetsFrom_append, run_pieces_short (by simpa using ⟨fun hc => hplain.2.1 hc.symm, hline⟩) (by simpa using hshort.fits)]
    simp [fgetsFrom]
  have heol := pieceText_eol (e := [ch '\n']) (by simp) (c :: text)
  refine ⟨iniAppend 32768 [] (pieceText (c :: text)), ?_, ?_⟩
  · have hstep : joined.step none (c :: text ++ [ch '\n']) = ([iniAppend 32768 [] (pieceText (c :: text))], none) := by
      simp only [joined]
      rw [heol.1, heol.2, hshort.ends]
      rfl
    unfold Place.read
    rw [hpieces, h.line, Transducer.run_cons, hstep]
    rfl
  · rw [List.nil_append, List.singleton_append] at ht
    rw [ht, iniAppend_eq (by simp)]
    exact parse_mark hc _

theorem trades_short {p : Place} (h : p.Fresh) {c : UInt8} (hc : IsMark c) {text : Str} (hline : ch '\n' ∉ text)
    (hshort : Short (c :: text)) (section_ b : Str) : Trades section_ (p.read (c :: text ++ [ch '\n'])) (p.read []) b := by
  obtain ⟨line, hread, hnothing⟩ := read_short h hc hline hshort
  rw [hread, read_nothing h]
  have hrun : loaded.run section_ ([line] ++ nextLine none b) = loaded.run section_ ([] ++ nextLine none b) :=
    loaded_nothing hnothing _ _
  exact ⟨congrArg Prod.fst hrun, Or.inl (congrArg (fun r => cut 64 r.2) hrun)⟩

/-- The line that ends at the place. -/
theorem lines_old {p : Place} {key value e b : Str} (he : LineEnd e b) (hentry : p.endsAs = .entry key value)
    (hends : continued p.piece = false) :
    ∃ lines, linesFrom p.line (p.fgets (e ++ b)) = iniAppend 32768 (p.line.getD []) (stripEol p.piece) :: lines := by
  have hpiece : ∀ (e' : Str) (ps : List Str), (∀ c ∈ e', c = ch '\n' ∨ c = ch '\r') →
      linesFrom p.line ((p.piece ++ e') :: ps) = iniAppend 32768 (p.line.getD []) (stripEol p.piece) :: linesFrom none ps := by
    intro e' ps he'
    obtain ⟨hcontinued, htext⟩ := pieceText_eol he' p.piece
    rw [linesFrom_cons, hcontinued, htext, hends, if_neg (by simp), pieceText, hends, if_neg (by simp)]
  unfold Place.fgets
  rcases he with rfl | rfl | ⟨rfl, rfl⟩
  · change ∃ lines, linesFrom p.line (fgetsFrom 4096 p.piece (ch '\n' :: b)) = _ :: lines
    rw [fgetsFrom_piece (Or.inl rfl)]
    exact ⟨_, hpiece [ch '\n'] _ (by simp)⟩
  · change ∃ lines, linesFrom p.line (fgetsFrom 4096 p.piece (ch '\r' :: ch '\n' :: b)) = _ :: lines
    by_cases hfull : 4096 ≤ p.piece.length + 2
    · rw [fgetsFrom_piece (Or.inr hfull)]
      exact ⟨_, hpiece [ch '\r'] _ (by simp)⟩
    · rw [fgetsFrom_cons (by decide) (by omega), fgetsFrom_piece (Or.inl rfl), List.append_assoc]
      exact ⟨_, hpiece [ch '\r', ch '\n'] _ (by simp)⟩
  · rw [List.append_nil, fgetsFrom]
    by_cases hnil : p.piece = []
    · -- a line that was continued to the end of the file
      rw [if_pos hnil]
      unfold Place.endsAs at hentry
      rw [hnil] at hentry ⊢
      cases hline : p.line with
      | none =>
        rw [hline] at hentry
        cases hentry
      | some out => exact ⟨[], by simp [iniAppend, stripEol, cut]⟩
    · rw [if_neg hnil]
      have := hpiece [] [] (by simp)
      rw [List.append_nil] at this
      exact ⟨_, this⟩

/-- The line with a semicolon behind it, where there is room for one. -/
theorem lines_new {p : Place} (hout : (p.line.getD []).length ≤ 32767) (hpiece : p.piece.length ≤ 4094) (hroom : ¬p.Full)
    {blank : UInt8} (hblank : isBlank blank = true) (s : Str) :
    ∃ more lines, linesFrom p.line (p.fgets (blank :: ch ';' :: s)) =
      (p.line.getD [] ++ (p.piece ++ [blank, ch ';']) ++ more).take 32767 :: lines := by
  unfold Place.Full at hroom
  simp only [not_or] at hroom
  obtain ⟨hnul, hlen, -⟩ := hroom
  have hplain : blank ≠ 0 ∧ blank ≠ ch '\n' := by
    unfold isBlank at hblank
    rw [Bool.or_eq_true, decide_eq_true_iff, decide_eq_true_iff] at hblank
    rcases hblank with rfl | rfl <;> decide
  obtain ⟨z, ps, hz⟩ := fgetsFrom_first (p.piece ++ [blank]) (ch ';') s
  have hnul' : ∀ c ∈ p.piece ++ [blank] ++ [ch ';'], c ≠ 0 := by
    intro c hc h0
    subst h0
    simp only [List.mem_append, List.mem_singleton] at hc
    rcases hc with (hc | hc) | hc
    · exact hnul hc
    · exact hplain.1 hc.symm
    · exact absurd hc (by decide)
  obtain ⟨t, ht⟩ := pieceText_append hnul' (by decide) z
  have hfgets : p.fgets (blank :: ch ';' :: s) = (p.piece ++ [blank] ++ [ch ';'] ++ z) :: ps := by
    unfold Place.fgets
    rw [fgetsFrom_cons hplain.2 (by omega), hz]
    simp
  rw [hfgets, linesFrom_cons, ht, iniAppend_eq hout]
  split
  · obtain ⟨more, lines, hlines⟩ := linesFrom_open (List.length_take_le 32767 (p.line.getD [] ++ (p.piece ++ [blank] ++ [ch ';'] ++ t))) ps
    rw [hlines, take_append_take]
    exact ⟨t ++ more, lines, by simp⟩
  · exact ⟨t, linesFrom none ps, by simp⟩

/-- A comment behind a value is read as part of it. -/
theorem entry_changed {a e b key value : Str} {blank : UInt8} (he : LineEnd e b) (hentry : (placeOf a).endsAs = .entry key value)
    (hends : continued (placeOf a).piece = false) (hblank : isBlank blank = true) (hroom : ¬(placeOf a).Full) (s : Str) :
    iniLoad (some (a ++ (blank :: ch ';' :: s))) ≠ iniLoad (some (a ++ (e ++ b))) := by
  obtain ⟨lines, hold⟩ := lines_old he hentry hends
  obtain ⟨more, lines', hnew⟩ := lines_new (length_line a) (length_piece a) hroom hblank s
  generalize hp : placeOf a = p at *
  have hlen : (p.line.getD []).length + p.piece.length < 32766 := by
    unfold Place.Full at hroom
    omega
  obtain ⟨eol, heol⟩ := stripEol_isPrefix p.piece
  have hlen' := congrArg List.length heol
  rw [List.length_append] at hlen'
  have hbase : iniAppend 32768 (p.line.getD []) (stripEol p.piece) = p.line.getD [] ++ stripEol p.piece := by
    rw [iniAppend_eq (by omega), List.take_of_length_le (by rw [List.length_append]; omega)]
  obtain ⟨m, hlonger⟩ : ∃ m, (p.line.getD [] ++ (p.piece ++ [blank, ch ';']) ++ more).take 32767 =
      (p.line.getD [] ++ stripEol p.piece) ++ ((eol ++ [blank]) ++ ch ';' :: m) := by
    refine ⟨more.take (32767 - (p.line.getD [] ++ (p.piece ++ [blank, ch ';'])).length), ?_⟩
    rw [List.take_append, List.take_of_length_le (by simp; omega)]
    generalize more.take _ = m
    conv_lhs => rw [← heol]
    simp
  rw [hbase] at hold
  rw [hlonger] at hnew
  unfold Place.endsAs at hentry
  rw [hbase] at hentry
  obtain ⟨value', hparse, hne⟩ := parse_longer hentry (eol ++ [blank]) m (by
    rw [← hlonger]
    exact List.length_take_le _ _)
  rw [iniLoad_at, iniLoad_at, hp, hold, hnew, ne_eq, Option.some_inj, List.append_cancel_left_eq, Transducer.run_cons, Transducer.run_cons]
  simp only [loaded, hparse, hentry, List.singleton_append, List.cons.injEq, IniEntry.mk.injEq, hne, and_false, false_and,
    not_false_eq_true]

/-- A comment of its own keeps the entries if it is short, and otherwise exactly when its lines
    trade for the one it runs into; a comment behind a value exactly when the line is full
    before it and the lines it is cut into trade. -/
theorem comments_exact (a b text : Str) (hline : ch '\n' ∉ text) :
    (∀ c, (placeOf a).Fresh → IsMark c →
      (iniLoad (some (a ++ (c :: text ++ lit "\n" ++ b))) = iniLoad (some (a ++ b)) ↔
        Short (c :: text) ∨ Trades (placeOf a).section_ ((placeOf a).read (c :: text ++ lit "\n")) ([], none) b)) ∧
    (∀ blank e key value, isBlank blank = true → LineEnd e b → (placeOf a).endsAs = .entry key value →
      continued (placeOf a).piece = false →
      (iniLoad (some (a ++ (blank :: ch ';' :: text ++ e ++ b))) = iniLoad (some (a ++ (e ++ b))) ↔
        (placeOf a).Full ∧
          Trades (placeOf a).section_ ((placeOf a).read (blank :: ch ';' :: text ++ e)) ((placeOf a).read e) b)) := by
  constructor
  · intro c hfresh hc
    have hnone : (placeOf a).Ends [] b := Or.inr hfresh.piece
    have hiff := load_eq_iff (ends_newline (placeOf a) (c :: text) b) hnone
    rw [read_nothing hfresh] at hiff
    rw [show lit "\n" = [ch '\n'] from rfl]
    refine hiff.trans ⟨Or.inr, fun h => ?_⟩
    rcases h with hshort | htrades
    · exact read_nothing hfresh ▸ trades_short hfresh hc hline hshort _ b
    · exact htrades
  · intro blank e key value hblank he hentry hends
    have hold : (placeOf a).Ends e b := ends_lineEnd (placeOf a) [] he
    have hiff := load_eq_iff (ends_lineEnd (placeOf a) (blank :: ch ';' :: text) he) hold
    rw [List.append_assoc] at hiff ⊢
    refine hiff.trans ⟨fun htrades => ⟨?_, htrades⟩, fun h => h.2⟩
    by_contra hroom
    exact entry_changed he hentry hends hblank hroom (text ++ (e ++ b)) (hiff.mpr htrades)

theorem comments_exact_note : iniLoad (some (lit "k=v\n;note\n")) = iniLoad (some (lit "k=v\n")) :=
  ((comments_exact (lit "k=v\n") [] (lit "note") (by decide)).1 (ch ';') ⟨rfl, rfl⟩ (Or.inl rfl)).mpr
    (Or.inl ⟨by decide, by decide +kernel⟩)

/-- A comment behind a value, as the README has them. -/
theorem comment_joins_value : ¬ ∀ (a b text e key value : Str), ch '\n' ∉ text → LineEnd e b →
    (placeOf a).endsAs = .entry key value → continued (placeOf a).piece = false →
    iniLoad (some (a ++ (ch ' ' :: ch ';' :: text ++ e ++ b))) = iniLoad (some (a ++ (e ++ b))) := by
  intro h
  have := h (lit "timeout = 900") [] (lit " seconds") (lit "\n") (lit "timeout") (lit "900") (by decide) (Or.inl rfl)
    (by decide +kernel) (by decide +kernel)
  exact absurd this (by decide +kernel)

end Shclaw.Config
