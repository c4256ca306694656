/-
  Shclaw.Tui.Screen — the state of the terminal client and its scrollback (`src/tui.c`:
  `sb_push`, `add_text`, `add_system_msg`, `add_agent_line`).

  A text is split on newlines and wrapped at the terminal width. The loop takes at least
  a byte a round when there is a column to draw in, so `add_text` returns, and it changes
  nothing but the scrollback (`addText_spec`). Drawing itself is not modelled.
-/

import Shclaw.Lib.CString
import Shclaw.Lib.Utf8

namespace Shclaw.Tui

open Lib

def maxLines : Nat := 1024

def maxLineLen : Nat := 512

/-- `scrollback_t`; `lines` has `count` lines. -/
structure Scrollback where
  lines : List Str
  scrollOffset : Int
  deriving DecidableEq

/-- `tui_state_t`. -/
structure TuiState where
  sb : Scrollback
  /-- `char input[512]` -/
  input : Str
  inputLen : Int
  inputPos : Int
  rows : Int
  cols : Int
  target : Str
  /-- `event_fd >= 0` -/
  attached : Bool
  quit : Bool
  dirty : Bool
  /-- what it wrote to the connection `event_fd` -/
  wrote : Str
  deriving DecidableEq

/-- `CSI`: ESC and a bracket. -/
def csi (s : String) : Str := 27 :: lit "[" ++ lit s

def dim : Str := csi "2m"

def reset : Str := csi "0m"

def cyan : Str := csi "36m"

def green : Str := csi "32m"

/-! ## The scrollback -/

def sbPush (sb : Scrollback) (line : Str) : Scrollback :=
  let lines := if maxLines ≤ sb.lines.length then (sb.lines.drop 1).take (maxLines - 1) else sb.lines
  ⟨lines ++ [cut maxLineLen line], 0⟩

/-- The inner loop of `add_text`: continuation bytes join the row, `take` bytes so far. -/
def takeConts (take : Nat) : Str → Nat
  | [] => take
  | c :: s => if take < maxLineLen - 1 ∧ isCont c then takeConts (take + 1) s else take

/-- The loop over the characters of a row, with so many columns left. -/
def rowLen (s : Str) : Nat → Nat → Nat
  | 0, take => take
  | left + 1, take =>
    if take < s.length ∧ byte s take ≠ ch '\n' ∧ take < maxLineLen - 64 then
      rowLen s left (takeConts (take + 1) (s.drop (take + 1)))
    else take

/-- A control byte is drawn as a blank. -/
def cleanByte (c : UInt8) : UInt8 := if c < 0x20 ∨ c = 0x7f then ch ' ' else c

/-- The row of some bytes at `pos`; the first `hl` of the text are drawn with `style`. -/
def rowText (style : Str) (hl pos : Nat) (bytes : Str) : Str :=
  let clean := bytes.map cleanByte
  let h := if pos < hl then min (hl - pos) bytes.length else 0
  if 0 < h then cut maxLineLen (style ++ clean.take h ++ reset ++ clean.drop h) else cut maxLineLen clean

/-- Behind a row, and the newline that ended it. -/
def behindRow (s : Str) (take : Nat) : Nat := if take < s.length ∧ byte s take = ch '\n' then take + 1 else take

/-- The `do` loop of `add_text` at `pos`, where `s` is the rest of the text, stopped after
    `n` rounds. The row is built in an array of `maxLineLen` bytes. -/
def addRows (width : Int) (style : Str) (hl : Nat) : Nat → Nat → Str → Scrollback → Option Scrollback
  | 0, _, _, _ => none
  | n + 1, pos, s, sb =>
    let take := rowLen s width.toNat 0
    if maxLineLen < take then none
    else
      let sb := sbPush sb (rowText style hl pos (s.take take))
      let next := behindRow s take
      if next < s.length then addRows width style hl n (pos + next) (s.drop next) sb else some sb

/-- `add_text`. -/
def addText (st : TuiState) (style : Str) (hl : Nat) (text : Str) : Option TuiState :=
  (addRows (st.cols - 1) style hl (text.length + 1) 0 text st.sb).map fun sb => { st with sb, dirty := true }

def addSystemMsg (st : TuiState) (text : Str) : Option TuiState :=
  let line := cut maxLineLen (lit "--- " ++ text ++ lit " ---")
  addText st dim line.length line

/-- "agent: text", or "* agent calls tool(...)". -/
def addAgentLine (st : TuiState) (line : Str) : Option TuiState :=
  if byte line 0 = ch '*' then addText st dim line.length line
  else
    match strchr line (ch ':') with
    | none => addText st cyan 0 line
    | some colon => addText st cyan (line.length - colon.length) line

/-! ## What they return -/

theorem le_takeConts (take : Nat) (s : Str) : take ≤ takeConts take s := by
  induction s generalizing take with
  | nil => exact Nat.le_refl _
  | cons c s ih =>
    unfold takeConts
    split
    · exact Nat.le_of_succ_le (ih (take + 1))
    · exact Nat.le_refl _

theorem takeConts_lt {take : Nat} (h : take < maxLineLen) (s : Str) : takeConts take s < maxLineLen := by
  induction s generalizing take with
  | nil => exact h
  | cons c s ih =>
    unfold takeConts
    split
    · rename_i hcont
      exact ih (Nat.lt_pred_iff.mp hcont.1)
    · exact h

theorem le_rowLen (s : Str) (left take : Nat) : take ≤ rowLen s left take := by
  induction left generalizing take with
  | zero => exact Nat.le_refl _
  | succ left ih =>
    unfold rowLen
    split
    · have hconts := le_takeConts (take + 1) (s.drop (take + 1))
      have hrow := ih (takeConts (take + 1) (s.drop (take + 1)))
      omega
    · exact Nat.le_refl _

/-- A row fits its array. -/
theorem rowLen_lt (s : Str) (left : Nat) {take : Nat} (h : take < maxLineLen) : rowLen s left take < maxLineLen := by
  induction left generalizing take with
  | zero => exact h
  | succ left ih =>
    unfold rowLen
    split
    · rename_i hmore
      refine ih (takeConts_lt ?_ _)
      unfold maxLineLen at hmore ⊢
      omega
    · exact h

/-- With a column to draw in, a row of a text that does not begin with a newline has a byte. -/
theorem rowLen_pos {s : Str} (hs : s ≠ []) (hline : byte s 0 ≠ ch '\n') {left : Nat} (h : 0 < left) : 0 < rowLen s left 0 := by
  obtain ⟨left, rfl⟩ := Nat.exists_eq_succ_of_ne_zero (Nat.pos_iff_ne_zero.mp h)
  have hmore : 0 < s.length ∧ byte s 0 ≠ ch '\n' ∧ 0 < maxLineLen - 64 := ⟨List.length_pos_iff.mpr hs, hline, by decide⟩
  rw [rowLen, if_pos hmore]
  have hconts := le_takeConts (0 + 1) (s.drop (0 + 1))
  have hrow := le_rowLen s left (takeConts (0 + 1) (s.drop (0 + 1)))
  omega

/-- A round takes a byte of the row, or the newline. -/
theorem behindRow_pos {s : Str} (hs : s ≠ []) {left : Nat} (h : 0 < left) : 0 < behindRow s (rowLen s left 0) := by
  unfold behindRow
  split
  · exact Nat.succ_pos _
  · rename_i hline
    by_contra hzero
    have h0 : rowLen s left 0 = 0 := by omega
    rw [h0] at hline
    have hne : byte s 0 ≠ ch '\n' := fun heq => hline ⟨List.length_pos_iff.mpr hs, heq⟩
    exact absurd h0 (Nat.pos_iff_ne_zero.mp (rowLen_pos hs hne h))

/-- The loop ends, and the view is at the newest line. -/
theorem addRows_spec {width : Int} (hwidth : 0 < width) (style : Str) (hl : Nat) {n : Nat} {s : Str} (hn : s.length < n)
    (pos : Nat) (sb : Scrollback) : ∃ sb', addRows width style hl n pos s sb = some sb' ∧ sb'.scrollOffset = 0 := by
  induction n generalizing pos s sb with
  | zero => omega
  | succ n ih =>
    have hfits := rowLen_lt s width.toNat (by decide : 0 < maxLineLen)
    unfold addRows
    simp only
    rw [if_neg (by omega)]
    split
    · rename_i hmore
      have hs : s ≠ [] := by
        rintro rfl
        simp at hmore
      have hprogress := behindRow_pos hs (show 0 < width.toNat by omega)
      refine ih ?_ _ _
      rw [List.length_drop]
      have hpos := List.length_pos_iff.mpr hs
      omega
    · exact ⟨_, rfl, rfl⟩

/-- `add_text` returns, and changes nothing but the scrollback. -/
theorem addText_spec {st : TuiState} (h : 1 < st.cols) (style : Str) (hl : Nat) (text : Str) :
    ∃ sb, addText st style hl text = some { st with sb, dirty := true } ∧ sb.scrollOffset = 0 := by
  obtain ⟨sb, hrows, hscroll⟩ := addRows_spec (show 0 < st.cols - 1 by omega) style hl (Nat.lt_succ_self text.length) 0 st.sb
  refine ⟨sb, ?_, hscroll⟩
  unfold addText
  rw [hrows]
  rfl

end Shclaw.Tui
