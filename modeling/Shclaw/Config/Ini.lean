/-
  Shclaw.Config.Ini — the configuration file (`src/ini.c`): `ini_load` and what it reads
  with.

  A file is the bytes of it; `fgetsLines` is what `fgets` returns one call after the other.
  Memory is always there: the entries are a list, and `strdup` never fails.
-/

import Shclaw.Lib.CString

namespace Shclaw.Config

open Lib

/-- `ini_entry_t`. -/
structure IniEntry where
  section_ : Str
  key : Str
  value : Str
  deriving DecidableEq

def isBlank (c : UInt8) : Bool := c = ch ' ' || c = ch '\t'

/-- What `ini_rstrip` takes off. -/
def isTrail (c : UInt8) : Bool := c = ch '\n' || c = ch '\r' || c = ch ' ' || c = ch '\t'

def iniRstrip (s : Str) : Str := (s.reverse.dropWhile isTrail).reverse

def iniAppend (sz : Nat) (dst src : Str) : Str := if sz ≤ dst.length + 1 then dst else dst ++ cut (sz - dst.length) src

/-! ## Lines -/

/-- `fgets(line, sz, f)` to the end of the file, with `cur` already in the buffer. -/
def fgetsFrom (sz : Nat) (cur : Str) : Str → List Str
  | [] => if cur = [] then [] else [cur]
  | c :: s =>
    if c = ch '\n' ∨ sz ≤ cur.length + 2 then (cur ++ [c]) :: fgetsFrom sz [] s else fgetsFrom sz (cur ++ [c]) s

/-- The line without its end: what `strlen` sees of it, less the CR and LF it ends with. -/
def stripEol (line : Str) : Str :=
  ((line.takeWhile (· ≠ 0)).reverse.dropWhile fun c => c = ch '\n' || c = ch '\r').reverse

/-- The loop of `ini_read_logical_line`: `out` so far, `have_line`, and what `fgets` will return. -/
def iniReadLogicalLine (sz : Nat) (out : Str) (haveLine : Bool) : List Str → Option (Str × List Str)
  | [] => if haveLine then some (out, []) else none
  | piece :: rest =>
    let line := stripEol piece
    let continued := line.getLast? = some (ch '\\')
    let line := if continued then line.dropLast else line
    let out := iniAppend sz out line
    if continued then iniReadLogicalLine sz out true rest else some (out, rest)

/-! ## Values -/

/-- The escapes of `ini_unescape`. -/
def unescapeLetter (x : UInt8) : Option UInt8 :=
  if x = ch 'n' then some (ch '\n')
  else if x = ch 'r' then some (ch '\r')
  else if x = ch 't' then some (ch '\t')
  else if x = ch '\\' then some (ch '\\')
  else if x = ch '"' then some (ch '"')
  else none

/-- `ini_unescape`, with `di` bytes written so far. -/
def iniUnescape (sz di : Nat) : Str → Str
  | [] => []
  | c :: s =>
    if sz ≤ di + 1 then []
    else if c ≠ ch '\\' then c :: iniUnescape sz (di + 1) s
    else
      match s with
      | [] => [c]
      | x :: t =>
        match unescapeLetter x with
        | some d => d :: iniUnescape sz (di + 1) t
        | none => ch '\\' :: (if di + 2 < sz then x :: iniUnescape sz (di + 2) t else iniUnescape sz (di + 1) t)

/-! ## Loading -/

/-- What a logical line is. -/
inductive IniLine where
  | nothing
  | header (name : Str)
  | entry (key value : Str)
  deriving DecidableEq

def iniParseLine (line : Str) : IniLine :=
  let p := (iniRstrip line).dropWhile isBlank
  if p = [] ∨ byte p 0 = ch ';' ∨ byte p 0 = ch '#' then .nothing
  else if byte p 0 = ch '[' then
    match strchr p (ch ']') with
    | some close => .header (cut 64 ((p.take (p.length - close.length)).drop 1))
    | none => .nothing
  else
    match strchr p (ch '=') with
    | none => .nothing
    | some eq =>
      let key := ((p.take (p.length - eq.length)).reverse.dropWhile isBlank).reverse
      .entry (cut 64 key) (iniUnescape 32768 0 ((eq.drop 1).dropWhile isBlank))

/-- The loop of `ini_load`: at most one turn for each line that is left. -/
def iniLoadFrom : Nat → Str → List Str → List IniEntry
  | 0, _, _ => []
  | n + 1, section_, lines =>
    match iniReadLogicalLine 32768 [] false lines with
    | none => []
    | some (line, rest) =>
      match iniParseLine line with
      | .nothing => iniLoadFrom n section_ rest
      | .header name => iniLoadFrom n name rest
      | .entry key value => ⟨cut 64 section_, key, value⟩ :: iniLoadFrom n section_ rest

/-- `ini_load`: the file, when there is one. -/
def iniLoad (file : Option Str) : Option (List IniEntry) :=
  file.map fun s => iniLoadFrom (fgetsFrom 4096 [] s).length [] (fgetsFrom 4096 [] s)

end Shclaw.Config
