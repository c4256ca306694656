/-
  Shclaw.Tui.Editor — the line editor of the terminal client and its main loop
  (`src/tui.c`: `handle_submit`, `delete_range`, `prev_char`, `next_char`, `handle_csi`,
  `handle_input`, `poll_events`, `tui_run`).

  The line is `inputLen` bytes of an array of 512, the cursor the index `inputPos`; both
  are signed, and every access to the array is checked: a `memmove` of a negative length
  or past the array is `none`. So is a loop that does not end.
-/

import Shclaw.Lib.Region
import Shclaw.Socket
import Shclaw.Tui.Screen

namespace Shclaw.Tui

open Lib

/-- `sizeof(st->input)`. -/
def inputSize : Nat := 512

/-! ## Submitting a line -/

/-- What the sockets do while a line is submitted. -/
structure Net where
  /-- the write to the daemon fails after so many bytes -/
  breaks : Option Nat
  /-- `sock_client_connect`, for the status -/
  connects : Bool
  /-- the request for the status is written -/
  asks : Bool
  /-- what the daemon answers -/
  answer : Str

def fetchStatus (net : Net) (st : TuiState) : Option TuiState :=
  if !net.connects then addSystemMsg st (lit "Cannot connect to daemon")
  else if !net.asks then addSystemMsg st (lit "No response")
  else
    match Socket.sockReadCmd Socket.bufLg net.answer with
    | none => addSystemMsg st (lit "No response")
    | some (c, _) => if c.ret < 0 then addSystemMsg st (lit "No response") else addSystemMsg st (c.data.takeWhile (· ≠ 0))

/-- `send_to_agent`, and whether it succeeds. -/
def sendToAgent (net : Net) (st : TuiState) (text : Str) : TuiState × Bool :=
  match Socket.sendToAgent st.attached st.target text with
  | none => (st, false)
  | some w =>
    match net.breaks with
    | none => ({ st with wrote := st.wrote ++ w }, true)
    | some n => ({ st with wrote := st.wrote ++ w.take n }, false)

def help : List Str :=
  [lit "Commands:", lit "  /agent <name>    Switch target agent", lit "  /status          Show daemon status",
    lit "  /quit or /q      Exit", lit "  Up/Down PgUp/PgDn  Scroll messages", lit "  Ctrl-C/D         Exit"]

/-- The slash commands of `handle_submit`. -/
def slashCommand (net : Net) (st : TuiState) (text : Str) : Option TuiState :=
  if text = lit "/quit" ∨ text = lit "/q" then some { st with quit := true }
  else if startsWith text (lit "/agent ") then
    let target := cut 64 (text.drop 7)
    addSystemMsg { st with target } (cut 128 (lit "Target changed to @" ++ target))
  else if text = lit "/status" then fetchStatus net st
  else if text = lit "/help" then help.foldlM addSystemMsg st
  else addSystemMsg st (lit "Unknown command. Type /help")

/-- Any other line: shown and sent. -/
def sendLine (net : Net) (st : TuiState) (text : Str) : Option TuiState := do
  let st ← addText st green 3 (cut maxLineLen (lit "you: " ++ text))
  let (st, sent) := sendToAgent net st text
  if sent then some st else addSystemMsg st (lit "Send failed (daemon not running?)")

def handleSubmit (net : Net) (st : TuiState) : Option TuiState :=
  if st.inputLen = 0 then some st
  else do
    let input ← writeAt st.input st.inputLen [0]
    let text ← readString input 0
    let st := { st with input }
    (if byte text 0 = ch '/' then slashCommand net st text else sendLine net st text).map fun st =>
      { st with inputLen := 0, inputPos := 0 }

/-! ## Editing -/

def deleteRange (st : TuiState) (start stop : Int) : Option TuiState := do
  let input ← memmove st.input start stop (st.inputLen - stop)
  let st := { st with input, inputLen := st.inputLen - (stop - start) }
  if st.inputPos > start then some { st with inputPos := start } else some st

/-- The loop of `prev_char`, `pos` decremented. -/
def backFrom (input : Str) : Nat → Option Nat
  | 0 => some 0
  | pos + 1 => do
    let c ← input[pos + 1]?
    if isCont c then backFrom input pos else some (pos + 1)

def prevChar (st : TuiState) (pos : Int) : Option Int :=
  if pos - 1 > 0 then (backFrom st.input (pos - 1).toNat).map (↑) else some (pos - 1)

/-- The loop of `next_char`, `pos` incremented, with so many bytes left of the line. -/
def onFrom (input : Str) : Nat → Nat → Option Nat
  | 0, pos => some pos
  | left + 1, pos => do
    let c ← input[pos]?
    if isCont c then onFrom input left (pos + 1) else some pos

def nextChar (st : TuiState) (pos : Int) : Option Int :=
  if pos + 1 < st.inputLen then
    if pos + 1 < 0 then none else (onFrom st.input (st.inputLen - (pos + 1)).toNat (pos + 1).toNat).map (↑)
  else some (pos + 1)

/-- The keys of `handle_csi`. -/
def csiKey (st : TuiState) (key : UInt8) (tilde : Bool) : Option TuiState :=
  let page := st.rows - 3
  let scroll (n : Int) : TuiState := { st with sb := { st.sb with scrollOffset := st.sb.scrollOffset + n } }
  if key = ch 'A' then some (scroll 1)
  else if key = ch 'B' then some (scroll (-1))
  else if key = ch 'C' then
    if st.inputPos < st.inputLen then (nextChar st st.inputPos).map fun pos => { st with inputPos := pos } else some st
  else if key = ch 'D' then
    if st.inputPos > 0 then (prevChar st st.inputPos).map fun pos => { st with inputPos := pos } else some st
  else if key = ch 'H' then some { st with inputPos := 0 }
  else if key = ch 'F' then some { st with inputPos := st.inputLen }
  else if key = ch '5' then if tilde then some (scroll page) else some st
  else if key = ch '6' then if tilde then some (scroll (-page)) else some st
  else if key = ch '3' then
    if tilde ∧ st.inputPos < st.inputLen then (nextChar st st.inputPos).bind (deleteRange st st.inputPos) else some st
  else some st

/-- The view stays within the scrollback. -/
def clampScroll (st : TuiState) : TuiState :=
  let max := (st.sb.lines.length : Int) - (st.rows - 2)
  let max := if max < 0 then 0 else max
  let off := if st.sb.scrollOffset > max then max else st.sb.scrollOffset
  let off := if off < 0 then 0 else off
  { st with sb := { st.sb with scrollOffset := off } }

def handleCsi (st : TuiState) (key : UInt8) (tilde : Bool) : Option TuiState := (csiKey st key tilde).map clampScroll

/-- A byte from 32 on, at the cursor, while there is room. -/
def insertByte (st : TuiState) (c : UInt8) : Option TuiState :=
  if 32 ≤ c ∧ st.inputLen < (inputSize : Int) - 1 then do
    let input ← memmove st.input (st.inputPos + 1) st.inputPos (st.inputLen - st.inputPos)
    let input ← writeAt input st.inputPos [c]
    some { st with input, inputPos := st.inputPos + 1, inputLen := st.inputLen + 1 }
  else some st

/-- The `switch` of `handle_input`. -/
def handleKey (net : Net) (st : TuiState) (c : UInt8) : Option TuiState :=
  if c = 3 ∨ c = 4 then some { st with quit := true }
  else if c = 13 ∨ c = 10 then handleSubmit net st
  else if c = 127 ∨ c = 8 then
    if st.inputPos > 0 then (prevChar st st.inputPos).bind fun pos => deleteRange st pos st.inputPos else some st
  else if c = 1 then some { st with inputPos := 0 }
  else if c = 5 then some { st with inputPos := st.inputLen }
  else if c = 21 then some { st with inputLen := 0, inputPos := 0 }
  else if c = 11 then some { st with inputLen := st.inputPos }
  else if c = 12 then some st
  else insertByte st c

/-- The loop of `handle_input` at byte `i`, stopped after `n` rounds; `net i` is what the
    sockets do at that byte. -/
def inputLoop (net : Nat → Net) (buf : Str) : Nat → Nat → TuiState → Option TuiState
  | 0, _, _ => none
  | n + 1, i, st =>
    if i < buf.length ∧ st.quit = false then
      if byte buf i = 27 then
        if i + 2 < buf.length ∧ byte buf (i + 1) = ch '[' then
          let tilde := decide (i + 3 < buf.length ∧ byte buf (i + 3) = ch '~')
          (handleCsi st (byte buf (i + 2)) tilde).bind (inputLoop net buf n (i + (if tilde then 3 else 2) + 1))
        else inputLoop net buf n (i + 1) st
      else (handleKey (net i) st (byte buf i)).bind (inputLoop net buf n (i + 1))
    else some st

def handleInput (net : Nat → Net) (buf : Str) (st : TuiState) : Option TuiState :=
  (inputLoop net buf (buf.length + 1) 0 st).map fun st => { st with dirty := true }

/-! ## The main loop -/

/-- `poll_events`, as long as the connection has something; `none` is a read that fails. -/
def pollEvents (st : TuiState) : List (Option Socket.Cmd) → Option TuiState
  | [] => some st
  | event :: events =>
    if !st.attached then some st
    else
      match event.filter (0 ≤ ·.ret) with
      | none => addSystemMsg { st with attached := false } (lit "Lost connection to daemon")
      | some c =>
        if c.type = 1 then (addAgentLine st (c.data.takeWhile (· ≠ 0))).bind (pollEvents · events)
        else if c.type = 5 then (addSystemMsg st (lit "Daemon shutting down")).map fun st => { st with attached := false }
        else pollEvents st events

/-- `get_terminal_size`: rows and columns, from what `ioctl` says. -/
def getTerminalSize : Option (UInt16 × UInt16) → Int × Int
  | some (rows, cols) => if rows > 2 ∧ cols > 10 then (rows.toNat, cols.toNat) else (24, 80)
  | none => (24, 80)

/-- What a round of the main loop gets. -/
structure Round where
  events : List (Option Socket.Cmd)
  /-- the bytes read from the terminal, none when there are none -/
  keys : Str
  net : Nat → Net
  size : Option (UInt16 × UInt16)

/-- The terminal as it is now. -/
def resize (size : Option (UInt16 × UInt16)) (st : TuiState) : TuiState :=
  let (rows, cols) := getTerminalSize size
  if rows ≠ st.rows ∨ cols ≠ st.cols then { st with rows, cols, dirty := true } else st

/-- The body of the main loop, behind `redraw`. -/
def tuiRound (st : TuiState) (r : Round) : Option TuiState := do
  let st ← pollEvents { st with dirty := false } r.events
  (if r.keys = [] then some st else handleInput r.net r.keys st).map (resize r.size)

/-- `while (!st.quit)`. -/
def tuiLoop (st : TuiState) : List Round → Option TuiState
  | [] => some st
  | r :: rounds => if st.quit then some st else (tuiRound st r).bind (tuiLoop · rounds)

/-- `tui_run` up to the loop, on a connection. -/
def tuiStart (size : Option (UInt16 × UInt16)) (targetAgent : Option Str) : Option TuiState := do
  let target := cut 64 (targetAgent.getD (lit "jarvis"))
  let (rows, cols) := getTerminalSize size
  let st : TuiState :=
    { sb := ⟨[], 0⟩, input := List.replicate inputSize 0, inputLen := 0, inputPos := 0, rows, cols, target,
      attached := true, quit := false, dirty := false, wrote := Socket.sockSend ⟨1, [], by decide⟩ }
  let st ← addSystemMsg st (lit "Connected to shclaw")
  addSystemMsg st (cut 128 (lit "Target: @" ++ target ++ lit " — Type /help for commands"))

def tuiRun (size : Option (UInt16 × UInt16)) (targetAgent : Option Str) (rounds : List Round) : Option TuiState :=
  (tuiStart size targetAgent).bind (tuiLoop · rounds)

end Shclaw.Tui
