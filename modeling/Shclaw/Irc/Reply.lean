/-
  Shclaw.Irc.Reply — what the client writes (`src/irc.c`: `irc_connect`, `irc_keepalive`,
  `irc_reply`, `irc_action`, `irc_disconnect`).

  Every write goes through `irc_sendf`; `calls` logs its calls, on a closed connection
  too, by the command word of the format and what follows it. `irc_reply` cuts a text
  into pieces of at most 400 bytes of one line each, backing up to the start of a
  character. A socket that takes only a part of a line is not modelled, nor the `sleep`
  between the lines of a reply.

  `no_injection`: in any sequence of calls the bytes written split at CR LF into one
  line for each call of `irc_sendf`, with its command word.
-/

import Mathlib.Data.List.Forall2
import Shclaw.Irc.Parse
import Shclaw.Lib.Lines

namespace Shclaw.Irc

open Lib

/-! ## The connection -/

/-- The command words of the format strings. -/
inductive Word where
  | privmsg | pong | nick | user | join | mode | ping | quit
  deriving DecidableEq

def Word.text : Word → Str
  | .privmsg => lit "PRIVMSG"
  | .pong => lit "PONG"
  | .nick => lit "NICK"
  | .user => lit "USER"
  | .join => lit "JOIN"
  | .mode => lit "MODE"
  | .ping => lit "PING"
  | .quit => lit "QUIT"

/-- A call of `irc_sendf`: the word, and what the format makes behind it and a blank. -/
structure Sendf where
  word : Word
  rest : Str

def Sendf.text (s : Sendf) : Str := s.word.text ++ lit " " ++ s.rest

structure Link where
  conn : Conn
  /-- `fd >= 0`. -/
  isOpen : Bool
  baseNick : Str
  pinged : Bool
  /-- What went to the TUI clients; nothing does without a daemon. -/
  tui : Option (List (Option Str × Str))
  calls : List Sendf

def Link.sendf (l : Link) (s : Sendf) : Link :=
  { l with conn := if l.isOpen then Irc.sendf l.conn s.text else l.conn, calls := l.calls ++ [s] }

/-- `daemon_tui_broadcast`. -/
def Link.broadcast (l : Link) (agent : Option Str) (text : Str) : Link :=
  { l with tui := l.tui.map (· ++ [(agent, text)]) }

/-- `irc_connect`, when the server is reached. -/
def connect (l : Link) : Link :=
  let l := { l with isOpen := true, pinged := false, conn := { l.conn with registered := false, nick := l.baseNick } }
  (l.sendf ⟨.nick, l.conn.nick⟩).sendf ⟨.user, l.conn.nick ++ lit " 0 * :shclaw"⟩

/-- `irc_keepalive`, `idle` milliseconds after the last byte from the server. -/
def keepalive (l : Link) (idle : Int) : Link :=
  if !l.isOpen then l
  else if 420000 < idle then l
  else if 240000 < idle ∧ !l.pinged then { l.sendf ⟨.ping, lit ":shclaw"⟩ with pinged := true }
  else l

def disconnect (l : Link) : Link :=
  if !l.isOpen then l else { l.sendf ⟨.quit, lit ":shclaw shutting down"⟩ with isOpen := false }

/-! ## Lines from the server -/

/-- The call of `irc_sendf` in `handle_line`. -/
def answer (cfg : Config) (c : Conn) (line : Line) : Option Sendf :=
  if line.cmd = lit "PING" then some ⟨.pong, line.params⟩
  else if line.cmd = lit "001" then
    some ⟨.join, cfg.channel ++ if cfg.channelKey ≠ [] then lit " " ++ cfg.channelKey else []⟩
  else if line.cmd = lit "433" then some ⟨.nick, nextNick c.nick⟩
  else if line.cmd = lit "JOIN" then
    if strcaseeq line.nick c.nick then
      if cfg.channelKey ≠ [] then some ⟨.mode, cfg.channel ++ lit " +k " ++ cfg.channelKey⟩ else none
    else if cfg.owner ≠ [] ∧ strcaseeq line.nick cfg.owner then
      some ⟨.mode, cfg.channel ++ lit " +o " ++ cfg.owner⟩
    else none
  else none

/-- A line that `irc_poll` read; it reads from an open connection. -/
def hear (cfg : Config) (l : Link) (line : Str) : Link :=
  if l.isOpen then
    { l with
      conn := handleLine cfg l.conn line
      pinged := false
      calls := l.calls ++ ((parseLine line).bind (answer cfg l.conn)).toList }
  else l

/-! ## Replies -/

/-- `while (chunk > 1 && chunk < len && ..) chunk--`. -/
def backUp (p : Str) (len : Nat) : Nat → Nat
  | chunk + 2 => if chunk + 2 < len ∧ byte p (chunk + 2) &&& 0xC0 = 0x80 then backUp p len (chunk + 1) else chunk + 2
  | chunk => chunk

/-- The bytes up to the end of the line. -/
def lineLen (p : Str) : Nat := (p.takeWhile (· ≠ 10)).length

/-- `chunk`. -/
def chunkLen (p : Str) : Nat := backUp p (lineLen p) (min (lineLen p) 400)

/-- `p` after the round. -/
def afterChunk (p : Str) : Str :=
  let rest := p.drop (chunkLen p)
  if chunkLen p = lineLen p ∧ byte rest 0 = 10 then rest.drop 1 else rest

/-- The prefix and its colon; the hub has none. -/
def label (cfg : Config) : Option Str → Str
  | none => []
  | some agent => if agent = [] ∨ agent = cfg.hub then [] else agent ++ lit ": "

def privmsg (cfg : Config) (label payload : Str) : Sendf := ⟨.privmsg, cfg.channel ++ lit " :" ++ label ++ payload⟩

def truncated : Str := lit "[... truncated, full reply in the TUI and logs]"

/-- The `while (*p)` of `irc_reply`, for at most so many rounds. -/
def replyLoop (cfg : Config) (label : Str) : Nat → Nat → Str → Link → Option Link
  | n, lines, p, l =>
    if p = [] then some l
    else match n with
      | 0 => none
      | n + 1 =>
        if 0 < chunkLen p then
          if 20 < lines + 1 then some (l.sendf (privmsg cfg label truncated))
          else replyLoop cfg label n (lines + 1) (afterChunk p) (l.sendf (privmsg cfg label (p.take (chunkLen p))))
        else replyLoop cfg label n lines (afterChunk p) l

def reply (cfg : Config) (l : Link) (agent : Option Str) (text : Str) : Option Link :=
  if text = [] then some l
  else
    let l := l.broadcast agent text
    if !l.isOpen then some l else replyLoop cfg (label cfg agent) text.length 0 text l

def action (cfg : Config) (l : Link) (agent : Option Str) (text : Str) : Link :=
  if text = [] then l
  else
    let line := cut 512 (lit "* " ++ agent.getD (lit "system") ++ lit " " ++ text)
    let l := l.broadcast none line
    if !l.isOpen then l
    else l.sendf ⟨.privmsg, cfg.channel ++ lit " :" ++ [1] ++ lit "ACTION " ++ (line.drop 2).take 400 ++ [1]⟩

/-! ## A reply ends -/

theorem backUp_le (p : Str) (len n : Nat) : backUp p len n ≤ n := by
  induction n with
  | zero => exact Nat.le_refl 0
  | succ n ih =>
    cases n with
    | zero => exact Nat.le_refl 1
    | succ n =>
      rw [backUp]
      split
      · exact Nat.le_succ_of_le ih
      · exact Nat.le_refl _

theorem backUp_pos (p : Str) (len : Nat) {n : Nat} (h : 0 < n) : 0 < backUp p len n := by
  induction n with
  | zero => cases h
  | succ n ih =>
    cases n with
    | zero => exact Nat.one_pos
    | succ n =>
      rw [backUp]
      split
      · exact ih (Nat.succ_pos n)
      · exact Nat.succ_pos _

theorem chunkLen_le (p : Str) : chunkLen p ≤ lineLen p :=
  Nat.le_trans (backUp_le _ _ _) (Nat.min_le_left _ _)

/-- A round without a piece is one on an empty line. -/
theorem chunkLen_pos {p : Str} : 0 < chunkLen p ↔ 0 < lineLen p := by
  constructor
  · intro h
    exact Nat.lt_of_lt_of_le h (chunkLen_le p)
  · intro h
    apply backUp_pos
    omega

theorem afterChunk_length {p : Str} (h : p ≠ []) : (afterChunk p).length < p.length := by
  simp only [afterChunk]
  by_cases hpos : 0 < lineLen p
  · have hchunk := chunkLen_pos.mpr hpos
    have hlen := List.length_pos_iff.mpr h
    split
    · rw [List.length_drop, List.length_drop]
      omega
    · rw [List.length_drop]
      omega
  · -- the line is empty: `p` starts with its LF
    have hzero : lineLen p = 0 := by omega
    have hchunk : chunkLen p = 0 := by
      have := chunkLen_le p
      omega
    cases p with
    | nil => exact absurd rfl h
    | cons b p =>
      have hb : b = 10 := by
        by_contra hne
        unfold lineLen at hzero
        rw [List.takeWhile_cons_of_pos (by simpa using hne)] at hzero
        cases hzero
      rw [hchunk, hzero, List.drop_zero, if_pos ⟨rfl, hb⟩]
      exact Nat.lt_succ_self _

theorem replyLoop_isSome (cfg : Config) (label : Str) (n lines : Nat) (p : Str) (l : Link) (h : p.length ≤ n) :
    (replyLoop cfg label n lines p l).isSome := by
  induction n generalizing lines p l with
  | zero =>
    rw [replyLoop, if_pos (List.length_eq_zero_iff.mp (Nat.le_zero.mp h))]
    rfl
  | succ n ih =>
    rw [replyLoop]
    split
    · rfl
    rename_i hne
    have hless := afterChunk_length hne
    split
    · split
      · rfl
      · exact ih _ _ _ (by omega)
    · exact ih _ _ _ (by omega)

theorem reply_isSome (cfg : Config) (l : Link) (agent : Option Str) (text : Str) : (reply cfg l agent text).isSome := by
  unfold reply
  split
  · rfl
  · simp only
    split
    · rfl
    · exact replyLoop_isSome _ _ _ _ _ _ (Nat.le_refl _)

/-! ## One line for each call -/

/-- What `irc_sendf` writes, without its CR LF. -/
def Sendf.line (s : Sendf) : Str := (s.text.take 509).map fun b => if b = 13 ∨ b = 10 then ch ' ' else b

theorem sent_sendf (c : Conn) (s : Sendf) : (Irc.sendf c s.text).sent = c.sent ++ [s.line ++ [13, 10]] := rfl

theorem not_mem_line (s : Sendf) : 13 ∉ s.line ∧ 10 ∉ s.line := by
  unfold Sendf.line
  simp only [List.mem_map, not_exists, not_and]
  constructor
  · intro b _
    split
    · decide
    · rename_i h
      exact fun hb => h (.inl hb)
  · intro b _
    split
    · decide
    · rename_i h
      exact fun hb => h (.inr hb)

theorem length_line (s : Sendf) : s.line.length ≤ 509 := by
  unfold Sendf.line
  rw [List.length_map]
  exact List.length_take_le 509 _

theorem prefix_word (s : Sendf) : s.word.text ++ lit " " <+: s.line := by
  have hword : ∀ w : Word, (w.text ++ lit " ").length ≤ 509 ∧
      (w.text ++ lit " ").map (fun b => if b = 13 ∨ b = 10 then ch ' ' else b) = w.text ++ lit " " := by
    intro w
    cases w <;> decide
  obtain ⟨hlen, hclean⟩ := hword s.word
  unfold Sendf.line Sendf.text
  rw [List.take_append, List.take_of_length_le hlen, List.map_append, hclean]
  exact List.prefix_append _ _

/-- The calls between two connections, and a line for each of them. -/
def Wrote (l l' : Link) (more : List Sendf) : Prop :=
  l'.calls = l.calls ++ more ∧ l'.conn.sent = l.conn.sent ++ more.map fun s => s.line ++ [13, 10]

theorem Wrote.none {l l' : Link} (hcalls : l'.calls = l.calls) (hsent : l'.conn.sent = l.conn.sent) : Wrote l l' [] :=
  ⟨by rw [hcalls, List.append_nil], by rw [hsent, List.map_nil, List.append_nil]⟩

theorem Wrote.trans {l l' l'' : Link} {a b : List Sendf} (h : Wrote l l' a) (h' : Wrote l' l'' b) :
    Wrote l l'' (a ++ b) := by
  constructor
  · rw [h'.1, h.1, List.append_assoc]
  · rw [h'.2, h.2, List.map_append, List.append_assoc]

theorem wrote_sendf {l : Link} (hopen : l.isOpen = true) (s : Sendf) : Wrote l (l.sendf s) [s] := by
  constructor
  · rfl
  · rw [Link.sendf, hopen]
    rfl

theorem wrote_connect (l : Link) : ∃ more, Wrote l (connect l) more :=
  ⟨_, (wrote_sendf (l := { l with isOpen := true, pinged := false, conn := _ }) rfl _).trans (wrote_sendf rfl _)⟩

theorem wrote_keepalive (l : Link) (idle : Int) : ∃ more, Wrote l (keepalive l idle) more := by
  unfold keepalive
  split
  · exact ⟨[], .none rfl rfl⟩
  rename_i hopen
  split
  · exact ⟨[], .none rfl rfl⟩
  split
  · exact ⟨_, wrote_sendf (by simpa using hopen) _⟩
  · exact ⟨[], .none rfl rfl⟩

theorem wrote_disconnect (l : Link) : ∃ more, Wrote l (disconnect l) more := by
  unfold disconnect
  split
  · exact ⟨[], .none rfl rfl⟩
  · rename_i hopen
    exact ⟨_, wrote_sendf (by simpa using hopen) _⟩

/-- `handle_line` answers with one call, or none. -/
theorem sent_handleCommand (cfg : Config) (c : Conn) (line : Line) : (handleCommand cfg c line).sent =
    c.sent ++ (answer cfg c line).toList.map fun s => s.line ++ [13, 10] := by
  have hsent : ∀ (c : Conn) (s : Sendf) {text : Str}, text = s.text → (Irc.sendf c text).sent =
      c.sent ++ (some s).toList.map fun s => s.line ++ [13, 10] := by
    intro c s text htext
    rw [htext, sent_sendf]
    rfl
  have hnone : c.sent = c.sent ++ (none : Option Sendf).toList.map fun s => s.line ++ [13, 10] :=
    (List.append_nil _).symm
  unfold handleCommand answer
  split
  · exact hsent c _ rfl
  split
  · exact hsent { c with registered := true } _ rfl
  split
  · exact hsent { c with nick := nextNick c.nick } _ rfl
  split
  · split
    · split
      · exact hsent c _ rfl
      · exact hnone
    · split
      · exact hsent c _ rfl
      · exact hnone
  split
  · exact hnone
  · exact hnone

theorem wrote_hear (cfg : Config) (l : Link) (line : Str) : ∃ more, Wrote l (hear cfg l line) more := by
  unfold hear
  split
  · refine ⟨_, rfl, ?_⟩
    unfold handleLine
    cases parseLine line with
    | none => exact (List.append_nil _).symm
    | some line => exact sent_handleCommand cfg _ line
  · exact ⟨[], .none rfl rfl⟩

theorem wrote_replyLoop (cfg : Config) (label : Str) {n lines : Nat} {p : Str} {l l' : Link} (hopen : l.isOpen = true)
    (h : replyLoop cfg label n lines p l = some l') : ∃ more, Wrote l l' more := by
  induction n generalizing lines p l with
  | zero =>
    rw [replyLoop] at h
    split at h
    · cases h
      exact ⟨[], .none rfl rfl⟩
    · cases h
  | succ n ih =>
    rw [replyLoop] at h
    split at h
    · cases h
      exact ⟨[], .none rfl rfl⟩
    split at h
    · split at h
      · cases h
        exact ⟨_, wrote_sendf hopen _⟩
      · obtain ⟨more, hmore⟩ := ih (l := l.sendf _) hopen h
        exact ⟨_, (wrote_sendf hopen _).trans hmore⟩
    · exact ih hopen h

theorem wrote_reply (cfg : Config) {l l' : Link} {agent : Option Str} {text : Str} (h : reply cfg l agent text = some l') :
    ∃ more, Wrote l l' more := by
  simp only [reply] at h
  split at h
  · cases h
    exact ⟨[], .none rfl rfl⟩
  split at h
  · cases h
    exact ⟨[], .none rfl rfl⟩
  · rename_i hopen
    exact wrote_replyLoop cfg _ (l := l.broadcast agent text) (by simpa using hopen) h

theorem wrote_action (cfg : Config) (l : Link) (agent : Option Str) (text : Str) :
    ∃ more, Wrote l (action cfg l agent text) more := by
  simp only [action]
  split
  · exact ⟨[], .none rfl rfl⟩
  split
  · exact ⟨[], .none rfl rfl⟩
  · rename_i hopen
    exact ⟨_, wrote_sendf (l := l.broadcast none _) (by simpa using hopen) _⟩

/-! ## Every sequence of calls -/

inductive Event where
  | connect
  | keepalive (idle : Int)
  | line (line : Str)
  | reply (agent : Option Str) (text : Str)
  | action (agent : Option Str) (text : Str)
  | disconnect

def step (cfg : Config) (l : Link) : Event → Option Link
  | .connect => some (connect l)
  | .keepalive idle => some (keepalive l idle)
  | .line line => some (hear cfg l line)
  | .reply agent text => reply cfg l agent text
  | .action agent text => some (action cfg l agent text)
  | .disconnect => some (disconnect l)

def run (cfg : Config) (l : Link) (events : List Event) : Option Link := events.foldlM (step cfg) l

theorem wrote_step (cfg : Config) (l : Link) (e : Event) : ∃ l' more, step cfg l e = some l' ∧ Wrote l l' more := by
  cases e with
  | connect => exact ⟨_, _, rfl, (wrote_connect l).choose_spec⟩
  | keepalive idle => exact ⟨_, _, rfl, (wrote_keepalive l idle).choose_spec⟩
  | line line => exact ⟨_, _, rfl, (wrote_hear cfg l line).choose_spec⟩
  | reply agent text =>
    obtain ⟨l', hl'⟩ := Option.isSome_iff_exists.mp (reply_isSome cfg l agent text)
    exact ⟨l', _, hl', (wrote_reply cfg hl').choose_spec⟩
  | action agent text => exact ⟨_, _, rfl, (wrote_action cfg l agent text).choose_spec⟩
  | disconnect => exact ⟨_, _, rfl, (wrote_disconnect l).choose_spec⟩

theorem wrote_run (cfg : Config) (l : Link) (events : List Event) :
    ∃ l' more, run cfg l events = some l' ∧ Wrote l l' more := by
  induction events generalizing l with
  | nil => exact ⟨l, [], rfl, .none rfl rfl⟩
  | cons e events ih =>
    obtain ⟨l', more, hstep, hmore⟩ := wrote_step cfg l e
    obtain ⟨l'', rest, hrun, hrest⟩ := ih l'
    refine ⟨l'', more ++ rest, ?_, hmore.trans hrest⟩
    rw [run, List.foldlM_cons, hstep]
    exact hrun

/-- No text of a model, no name and no server line makes a line of its own. -/
theorem no_injection (cfg : Config) (l : Link) (events : List Event) :
    ∃ l' more bytes lines, run cfg l events = some l' ∧ l'.calls = l.calls ++ more ∧
      l'.conn.sent.flatten = l.conn.sent.flatten ++ bytes ∧ lineSegments 13 10 bytes = (lines, []) ∧
      List.Forall₂ (fun (s : Sendf) line => s.word.text ++ lit " " <+: line ∧ line.length + 2 ≤ 512 ∧
        13 ∉ line ∧ 10 ∉ line) more lines := by
  obtain ⟨l', more, hrun, hcalls, hsent⟩ := wrote_run cfg l events
  refine ⟨l', more, (more.map Sendf.line).flatMap (· ++ [13, 10]), more.map Sendf.line, hrun, hcalls, ?_, ?_, ?_⟩
  · rw [hsent, List.flatten_append, List.flatMap_map, List.flatMap_def]
  · apply lineSegments_flatMap
    intro line hline
    obtain ⟨s, -, rfl⟩ := List.mem_map.mp hline
    exact (not_mem_line s).1
  · rw [List.forall₂_map_right_iff, List.forall₂_same]
    intro s _
    have hlen := length_line s
    exact ⟨prefix_word s, by omega, not_mem_line s⟩

def oneChannel : Config where
  channel := lit "#c"
  channelKey := []
  owner := lit "gov"
  hub := lit "hub"
  agents := [lit "ann"]
  routes := true

def opened : Link where
  conn := { nick := lit "shclaw", registered := true, log := [], sent := [], triggers := [] }
  isOpen := true
  baseNick := lit "shclaw"
  pinged := false
  tui := none
  calls := []

/-- A reply of two lines, the second of which looks like a command. -/
theorem no_injection_quit : ∃ l' lines, run oneChannel opened [.reply (some (lit "ann")) (lit "hi\nQUIT :x")] = some l' ∧
    lineSegments 13 10 l'.conn.sent.flatten = (lines, []) ∧
    lines = [lit "PRIVMSG #c :ann: hi", lit "PRIVMSG #c :ann: QUIT :x"] := by
  obtain ⟨l', more, bytes, lines, hrun, -, hsent, hlines, -⟩ :=
    no_injection oneChannel opened [.reply (some (lit "ann")) (lit "hi\nQUIT :x")]
  have hbytes : (run oneChannel opened [.reply (some (lit "ann")) (lit "hi\nQUIT :x")]).map (·.conn.sent.flatten) =
      some (lit "PRIVMSG #c :ann: hi\r\nPRIVMSG #c :ann: QUIT :x\r\n") := by decide +kernel
  rw [hrun, Option.map_some] at hbytes
  have hwritten : bytes = lit "PRIVMSG #c :ann: hi\r\nPRIVMSG #c :ann: QUIT :x\r\n" :=
    hsent.symm.trans (Option.some.inj hbytes)
  refine ⟨l', lines, hrun, hsent ▸ hlines, ?_⟩
  have hsegments : (lineSegments 13 10 (lit "PRIVMSG #c :ann: hi\r\nPRIVMSG #c :ann: QUIT :x\r\n")).1 =
      [lit "PRIVMSG #c :ann: hi", lit "PRIVMSG #c :ann: QUIT :x"] := by decide +kernel
  rw [← hsegments, ← hwritten, hlines]

end Shclaw.Irc
