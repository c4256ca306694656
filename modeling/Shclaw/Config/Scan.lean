/-
  Shclaw.Config.Scan — `ini_load` as three machines, one behind the other.

  `pieces` turns bytes into what `fgets` returns, `joined` pieces into logical lines, and
  `loaded` logical lines into entries. `iniLoad_eq`: together they are `ini_load`, on any
  bytes. `Place` is where the three stand in the middle of a file (`iniLoad_at`).
-/

import Shclaw.Config.LogicalLine
import Shclaw.Lib.Transducer

namespace Shclaw.Config

open Lib

/-! ## The machines -/

/-- `fgets` with the bytes it has so far. -/
def pieces : Transducer Str UInt8 Str where
  step cur c := if c = ch '\n' ∨ 4096 ≤ cur.length + 2 then ([cur ++ [c]], []) else ([], cur ++ [c])

/-- Whether the line goes on behind the piece. -/
def continued (piece : Str) : Bool := (stripEol piece).getLast? = some (ch '\\')

def pieceText (piece : Str) : Str := if continued piece then (stripEol piece).dropLast else stripEol piece

/-- `ini_read_logical_line` with the line it has so far. -/
def joined : Transducer (Option Str) Str Str where
  step line piece :=
    let out := iniAppend 32768 (line.getD []) (pieceText piece)
    if continued piece then ([], some out) else ([out], none)

/-- `ini_load` with the section it is in. -/
def loaded : Transducer Str Str IniEntry where
  step section_ line :=
    match iniParseLine line with
    | .nothing => ([], section_)
    | .header name => ([], name)
    | .entry key value => ([⟨cut 64 section_, key, value⟩], section_)

/-- The lines read from a piece on, to the end of the file. -/
def linesFrom (line : Option Str) (ps : List Str) : List Str := (joined.run line ps).1 ++ (joined.run line ps).2.toList

/-! ## They are the code -/

theorem fgetsFrom_eq (cur s : Str) :
    fgetsFrom 4096 cur s = (pieces.run cur s).1 ++ fgetsFrom 4096 (pieces.run cur s).2 [] := by
  induction s generalizing cur with
  | nil => simp
  | cons c s ih =>
    by_cases h : c = ch '\n' ∨ 4096 ≤ cur.length + 2
    · have hstep : pieces.step cur c = ([cur ++ [c]], []) := if_pos h
      rw [Transducer.run_cons, hstep, fgetsFrom_piece h, ih []]
      rfl
    · have hstep : pieces.step cur c = ([], cur ++ [c]) := if_neg h
      rw [Transducer.run_cons, hstep, fgetsFrom_cons (fun hc => h (Or.inl hc)) (by omega), ih (cur ++ [c])]
      rfl

theorem fgetsFrom_append (cur a s : Str) :
    fgetsFrom 4096 cur (a ++ s) = (pieces.run cur a).1 ++ fgetsFrom 4096 (pieces.run cur a).2 s := by
  rw [fgetsFrom_eq, Transducer.run_append, fgetsFrom_eq (pieces.run cur a).2 s, List.append_assoc]

@[simp] theorem linesFrom_nil (line : Option Str) : linesFrom line [] = line.toList := rfl

theorem linesFrom_cons (line : Option Str) (piece : Str) (ps : List Str) : linesFrom line (piece :: ps) =
    if continued piece then linesFrom (some (iniAppend 32768 (line.getD []) (pieceText piece))) ps
    else iniAppend 32768 (line.getD []) (pieceText piece) :: linesFrom none ps := by
  simp only [linesFrom, Transducer.run_cons]
  by_cases h : continued piece
  · simp [joined, h]
  · simp [joined, h]

theorem linesFrom_append (line : Option Str) (ps qs : List Str) :
    linesFrom line (ps ++ qs) = (joined.run line ps).1 ++ linesFrom (joined.run line ps).2 qs := by
  simp [linesFrom, Transducer.run_append]

/-- A call reads the first of the lines. -/
theorem read_lines (line : Option Str) (ps : List Str) (h : line ≠ none ∨ ps ≠ []) :
    ∃ out rest, iniReadLogicalLine 32768 (line.getD []) line.isSome ps = some (out, rest) ∧
      linesFrom line ps = out :: linesFrom none rest ∧ rest.length ≤ ps.length - 1 := by
  induction ps generalizing line with
  | nil =>
    obtain ⟨out, rfl⟩ := Option.ne_none_iff_exists'.mp (h.resolve_right fun hne => hne rfl)
    exact ⟨out, [], by simp [iniReadLogicalLine], by simp, Nat.le_refl _⟩
  | cons piece ps ih =>
    rw [linesFrom_cons]
    by_cases hc : (stripEol piece).getLast? = some (ch '\\')
    · obtain ⟨out, rest, hread, hlines, hlen⟩ :=
        ih (some (iniAppend 32768 (line.getD []) (pieceText piece))) (Or.inl (by simp))
      refine ⟨out, rest, ?_, ?_, ?_⟩
      · rw [← hread]
        simp [iniReadLogicalLine, pieceText, continued, hc]
      · rw [← hlines]
        simp [continued, hc]
      · rw [List.length_cons]
        omega
    · refine ⟨iniAppend 32768 (line.getD []) (pieceText piece), ps, ?_, ?_, ?_⟩
      · simp [iniReadLogicalLine, pieceText, continued, hc]
      · simp [continued, hc]
      · simp

theorem iniLoadFrom_lines {n : Nat} {ps : List Str} (h : ps.length ≤ n) (section_ : Str) :
    iniLoadFrom n section_ ps = (loaded.run section_ (linesFrom none ps)).1 := by
  induction n generalizing ps section_ with
  | zero =>
    rw [List.length_eq_zero_iff.mp (Nat.le_zero.mp h)]
    rfl
  | succ n ih =>
    cases ps with
    | nil => rfl
    | cons piece ps =>
      obtain ⟨out, rest, hread, hlines, hlen⟩ := read_lines none (piece :: ps) (Or.inr (List.cons_ne_nil _ _))
      rw [List.length_cons] at h hlen
      have ih := fun name => @ih rest (by omega) name
      rw [Option.getD_none, Option.isSome_none] at hread
      rw [hlines, Transducer.run_cons, iniLoadFrom, hread]
      cases hparse : iniParseLine out <;> simp [loaded, hparse, ih]

theorem iniLoad_eq (s : Str) : iniLoad (some s) = some (loaded.run [] (linesFrom none (fgetsFrom 4096 [] s))).1 := by
  rw [iniLoad, Option.map_some, iniLoadFrom_lines (Nat.le_refl _)]

/-! ## In the middle of a file -/

/-- The section, the logical line and the piece so far. -/
structure Place where
  section_ : Str
  line : Option Str
  piece : Str

/-- The lines that are whole where a text ends. -/
def linesBefore (a : Str) : List Str := (joined.run none (pieces.run [] a).1).1

def placeOf (a : Str) : Place where
  section_ := (loaded.run [] (linesBefore a)).2
  line := (joined.run none (pieces.run [] a).1).2
  piece := (pieces.run [] a).2

/-- The pieces of a text that is read from the place on. -/
def Place.fgets (p : Place) (s : Str) : List Str := fgetsFrom 4096 p.piece s

/-- What is read behind a text. -/
theorem iniLoad_at (a s : Str) : iniLoad (some (a ++ s)) =
    some ((loaded.run [] (linesBefore a)).1 ++
      (loaded.run (placeOf a).section_ (linesFrom (placeOf a).line ((placeOf a).fgets s))).1) := by
  rw [iniLoad_eq, fgetsFrom_append, linesFrom_append, Transducer.run_append]
  rfl

end Shclaw.Config
