/-
  Shclaw.Irc.Parse — one line from the server (`src/irc.c`: `parse_line`,
  `handle_line`, `irc_sendf`; `src/irc_parse.c`: `parse_mentions`).

  A line is a command with an optional prefix that names its sender. `handle_line`
  answers PING, joins after 001, takes another nick on 433, sets the channel's modes on
  JOIN, and hands the text of the owner's PRIVMSG to the agents it mentions. What is
  written to the socket is `sent`, what goes to `on_trigger` is `triggers`, and `log`
  the lines themselves (`log_debug`).

  `handleLine_triggers`: with an owner configured, a line triggers only if its prefix
  names the owner, up to ASCII case.
-/

import Shclaw.Lib.CString

namespace Shclaw.Irc

open Lib

/-- `TC_IRC_LINE_MAX`. -/
def lineMax : Nat := 480

/-! ## Mentions -/

/-- `strchr(" \t@,:.!?;", c)`. -/
def endsWord (c : UInt8) : Bool := (lit " \t@,:.!?;").contains c

/-- `is_word_char`. -/
def isWordChar (c : UInt8) : Bool :=
  (97 ≤ c && c ≤ 122) || (65 ≤ c && c ≤ 90) || isDigit c || c = ch '_' || c = ch '-' || c = ch '.'

/-- The word `s` starts with. -/
def firstWord (s : Str) : Str := s.takeWhile (!endsWord ·)

/-- The agent or `all` that a word names; `find_agent` ignores case, and the name is the
    configuration's. -/
def namedBy (agents : List Str) (word : Str) : Option Str :=
  if strcaseeq word (lit "all") then some (lit "all") else agents.find? (strcaseeq · word)

/-- `set_text`. -/
def setText (s : Str) : Str :=
  let s := s.dropWhile fun c => c = ch ' ' || c = ch '\t' || c = ch ':' || c = ch ','
  let s := (s.reverse.dropWhile fun c => c = ch ' ' || c = ch '\t').reverse
  s.take (lineMax - 1)

/-- Where a mention stands in the message. -/
structure Mark where
  start : Nat
  stop : Nat
  name : Str

/-- The loop from position `p`; at most sixteen mentions. -/
def scan (agents : List Str) (msg : Str) : Nat → Nat → List Mark → List Mark
  | 0, _, marks => marks
  | n + 1, p, marks =>
    if msg.length ≤ p ∨ 16 ≤ marks.length then marks
    else if byte msg p ≠ ch '@' ∨ (0 < p ∧ isWordChar (byte msg (p - 1)) = true) then scan agents msg n (p + 1) marks
    else
      let word := firstWord (msg.drop (p + 1))
      match namedBy agents word with
      | none => scan agents msg n (p + 1) marks
      | some name =>
        let stop := p + 1 + word.length
        scan agents msg n stop (marks ++ [⟨p, stop, cut 32 name⟩])

/-- The mentions of a message. A message may open with one: `builder: do X`. -/
def marksOf (agents : List Str) (msg : Str) : List Mark :=
  let word := firstWord msg
  let next := byte msg word.length
  let first := if word ≠ [] ∧ (next = ch ':' ∨ next = ch ',') then namedBy agents word else none
  match first with
  | some name => scan agents msg msg.length word.length [⟨0, word.length, cut 32 name⟩]
  | none => scan agents msg msg.length 0 []

structure Mention where
  agent : Str
  text : Str

/-- `memcpy(out[j].text, ..)`: the mentions still without a text get this one. -/
def fillText (done : Nat) (text : Str) (out : List Mention) : List Mention :=
  out.take done ++ (out.drop done).map fun m => { m with text }

/-- The loop over the mentions: what is out, and how many of them have a text. -/
def segmentsOf (msg : Str) (max : Nat) : List Mark → List Mention → Nat → List Mention
  | [], out, done => out.take done
  | m :: rest, out, done =>
    if max ≤ out.length then out.take done
    else
      let stop := (rest.head?.map (·.start)).getD msg.length
      let text := setText ((msg.drop m.stop).take (stop - m.stop))
      let out := out ++ [⟨m.name, text⟩]
      if text ≠ [] then segmentsOf msg max rest (fillText done text out) out.length
      else segmentsOf msg max rest out done

def parseMentions (agents : List Str) (hub : Str) (max : Nat) (msg : Str) : List Mention :=
  if msg = [] ∨ max = 0 then []
  else
    match marksOf agents msg with
    | [] => [⟨cut 32 hub, setText msg⟩]
    | m :: ms =>
      match (m :: ms).find? (·.name = lit "all") with
      | some all =>
        let clean := setText (cut lineMax (msg.take all.start ++ lit " " ++ msg.drop all.stop))
        [⟨lit "all", if clean = [] then setText msg else clean⟩]
      | none =>
        -- the text before the first mention goes to the hub
        let before := setText (msg.take m.start)
        let out := if 0 < m.start ∧ before ≠ [] then [⟨cut 32 hub, before⟩] else []
        segmentsOf msg max (m :: ms) out out.length

/-! ## Lines -/

structure Line where
  nick : Str
  cmd : Str
  params : Str

/-- A command and its parameters. -/
def parseCommand (nick s : Str) : Option Line :=
  let cmd := s.takeWhile (· ≠ ch ' ')
  if cmd = [] then none else some ⟨nick, cmd, (s.drop cmd.length).drop 1⟩

def parseLine (line : Str) : Option Line :=
  if byte line 0 = ch ':' then
    (strchr line (ch ' ')).bind fun sp =>
      let source := (line.take (line.length - sp.length)).drop 1
      parseCommand (source.takeWhile (· ≠ ch '!')) (sp.dropWhile (· = ch ' '))
  else parseCommand [] line

/-- The client's settings. -/
structure Config where
  channel : Str
  channelKey : Str
  owner : Str
  hub : Str
  agents : List Str
  /-- `on_trigger` is set. -/
  routes : Bool

structure Trigger where
  agent : Str
  sender : Str
  text : Str

/-- A connection. -/
structure Conn where
  nick : Str
  registered : Bool
  log : List Str
  sent : List Str
  triggers : List Trigger

/-- `irc_sendf`: no more than 512 bytes, and one line. -/
def sendf (c : Conn) (text : Str) : Conn :=
  { c with sent := c.sent ++ [(text.take 509).map (fun b => if b = 13 ∨ b = 10 then ch ' ' else b) ++ [13, 10]] }

/-- The nick after `ERR_NICKNAMEINUSE`. -/
def nextNick (nick : Str) : Str :=
  if nick.length < 9 then nick ++ lit "_"
  else
    let c := byte nick 8
    nick.take 8 ++ [if ch '0' ≤ c ∧ c < ch '9' then c + 1 else ch '0']

/-- What the owner's PRIVMSG triggers. -/
def triggersOf (cfg : Config) (line : Line) : List Trigger :=
  match strstr line.params (lit " :") with
  | none => []
  | some t =>
    let text := t.drop 2
    if cfg.owner ≠ [] ∧ !strcaseeq line.nick cfg.owner then []
    else if byte text 0 = 1 ∨ !cfg.routes then []
    else (parseMentions cfg.agents cfg.hub 8 text).map fun m => ⟨m.agent, line.nick, m.text⟩

/-- A line that parsed. -/
def handleCommand (cfg : Config) (c : Conn) (line : Line) : Conn :=
  if line.cmd = lit "PING" then sendf c (lit "PONG " ++ line.params)
  else if line.cmd = lit "001" then
    sendf { c with registered := true }
      (lit "JOIN " ++ cfg.channel ++ if cfg.channelKey ≠ [] then lit " " ++ cfg.channelKey else [])
  else if line.cmd = lit "433" then
    sendf { c with nick := nextNick c.nick } (lit "NICK " ++ nextNick c.nick)
  else if line.cmd = lit "JOIN" then
    if strcaseeq line.nick c.nick then
      if cfg.channelKey ≠ [] then sendf c (lit "MODE " ++ cfg.channel ++ lit " +k " ++ cfg.channelKey) else c
    else if cfg.owner ≠ [] ∧ strcaseeq line.nick cfg.owner then
      sendf c (lit "MODE " ++ cfg.channel ++ lit " +o " ++ cfg.owner)
    else c
  else if line.cmd = lit "PRIVMSG" then { c with triggers := c.triggers ++ triggersOf cfg line }
  else c

def handleLine (cfg : Config) (c : Conn) (line : Str) : Conn :=
  let c := { c with log := c.log ++ [line] }
  match parseLine line with
  | none => c
  | some l => handleCommand cfg c l

/-! ## What a line can do -/

/-- The line triggers what its PRIVMSG mentions, or nothing. -/
theorem handleCommand_spec (cfg : Config) (c : Conn) (line : Line) :
    (handleCommand cfg c line).log = c.log ∧
    ((handleCommand cfg c line).triggers = c.triggers ∨
     (handleCommand cfg c line).triggers = c.triggers ++ triggersOf cfg line) := by
  unfold handleCommand
  split
  · exact ⟨rfl, Or.inl rfl⟩
  split
  · exact ⟨rfl, Or.inl rfl⟩
  split
  · exact ⟨rfl, Or.inl rfl⟩
  split
  · split
    · split <;> exact ⟨rfl, Or.inl rfl⟩
    · split <;> exact ⟨rfl, Or.inl rfl⟩
  split
  · exact ⟨rfl, Or.inr rfl⟩
  · exact ⟨rfl, Or.inl rfl⟩

/-- Only the owner's lines trigger. -/
theorem triggersOf_owner {cfg : Config} (howner : cfg.owner ≠ []) {line : Line} {t : Trigger}
    (h : t ∈ triggersOf cfg line) : strcaseeq line.nick cfg.owner = true ∧ t.sender = line.nick := by
  unfold triggersOf at h
  split at h
  · cases h
  dsimp only at h
  split at h
  · cases h
  rename_i hnick
  split at h
  · cases h
  · obtain ⟨m, -, rfl⟩ := List.mem_map.mp h
    refine ⟨?_, rfl⟩
    by_contra hne
    exact hnick ⟨howner, by simpa using hne⟩

theorem handleLine_log (cfg : Config) (c : Conn) (line : Str) : (handleLine cfg c line).log = c.log ++ [line] := by
  unfold handleLine
  dsimp only
  split
  · rfl
  · exact (handleCommand_spec ..).1

theorem handleLine_triggers {cfg : Config} (howner : cfg.owner ≠ []) (c : Conn) {line : Str} {t : Trigger}
    (h : t ∈ (handleLine cfg c line).triggers) : t ∈ c.triggers ∨ ∃ l, parseLine line = some l ∧
      strcaseeq l.nick cfg.owner = true ∧ t.sender = l.nick := by
  unfold handleLine at h
  dsimp only at h
  split at h
  · exact Or.inl h
  · rename_i l hl
    rcases (handleCommand_spec cfg { c with log := c.log ++ [line] } l).2 with hsame | hnew
    · rw [hsame] at h
      exact Or.inl h
    · rw [hnew] at h
      rcases List.mem_append.mp h with h | h
      · exact Or.inl h
      · exact Or.inr ⟨l, hl, triggersOf_owner howner h⟩

end Shclaw.Irc
