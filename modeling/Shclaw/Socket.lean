/-
  Shclaw.Socket — the control socket (`src/sock.c`: `sock_send`, `sock_read_cmd`) and
  what the command line and the terminal send over it (`src/main.c`: `cmd_msg`;
  `src/tui.c`: `send_to_agent`; `src/daemon.c`: `handle_new_client`,
  `handle_tui_client`, `route_msg`).

  A connection is the stream of the bytes written to it. A message is a header (type
  and length, 32 bits each, little-endian on both ends of a local socket) and that many
  bytes. The reader keeps what fits its buffer, discards the rest in pieces of 256
  bytes and returns the number of bytes kept as an `int`.

  `frames_read_back`: into a buffer of 2 to 2^31 bytes, the messages written are the
  messages read, each cut to the buffer, and the reader ends where the last one does.
  A larger buffer can keep 2^31 bytes, a number no `int` holds: it comes back negative,
  which callers take for a failure (`huge_payload_negative`).
  `message_delivered`: what `cmd_msg` and `send_to_agent` frame, `route_msg` delivers.
  `messages_cross` is both.
-/

import Mathlib.Data.List.TakeWhile
import Shclaw.Lib.CString
import Shclaw.Lib.Wire

namespace Shclaw.Socket

open Lib

/-! ## Frames -/

/-- A message: its length fits the header. -/
structure Msg where
  type : UInt32
  payload : Str
  fits : payload.length < 2 ^ 32

/-- `sock_send`: what is written. -/
def sockSend (m : Msg) : Str := leBytes 4 m.type.toNat ++ leBytes 4 m.payload.length ++ m.payload

/-- What `sock_read_cmd` leaves in `type` and `data`, and what it returns. -/
structure Cmd where
  type : UInt32
  data : Str
  ret : Int
  deriving DecidableEq

/-- The discarding loop, stopped after `n` rounds. -/
def discard : Nat → Nat → Str → Option Str
  | 0, remaining, s => if remaining = 0 then some s else none
  | n + 1, remaining, s =>
    if remaining = 0 then some s
    else
      let chunk := min remaining 256
      (readFull chunk s).bind fun r => discard n (remaining - chunk) r.2

/-- `sock_read_cmd` into a buffer of `maxLen` bytes: the message and the stream after it;
    `none` is a failure. -/
def sockReadCmd (maxLen : Nat) (s : Str) : Option (Cmd × Str) :=
  (readFull 8 s).bind fun hdr =>
    let type := UInt32.ofNat (leNat (hdr.1.take 4))
    let len := leNat (hdr.1.drop 4)
    if len = 0 then some (⟨type, [], 0⟩, hdr.2)
    else
      let toRead := min len (maxLen - 1)
      (readFull toRead hdr.2).bind fun data =>
        -- discard what does not fit; a round takes at least a byte
        (discard (len - toRead) (len - toRead) data.2).map fun rest => (⟨type, data.1, asInt toRead⟩, rest)

/-- Successive calls. -/
def readCmds (maxLen : Nat) : Nat → Str → Option (List Cmd × Str)
  | 0, s => some ([], s)
  | n + 1, s =>
    (sockReadCmd maxLen s).bind fun c => (readCmds maxLen n c.2).map fun cs => (c.1 :: cs.1, cs.2)

/-- A message as a reader with a buffer of `maxLen` bytes gets it. -/
def Msg.received (maxLen : Nat) (m : Msg) : Cmd :=
  ⟨m.type, m.payload.take (maxLen - 1), (m.payload.take (maxLen - 1)).length⟩

/-! ## Reading back -/

/-- The loop takes exactly the bytes it was asked to. -/
theorem discard_eq (n remaining : Nat) (h : remaining ≤ n) (s : Str) :
    discard n remaining s = (readFull remaining s).map (·.2) := by
  induction n generalizing remaining s with
  | zero =>
    have h0 : remaining = 0 := by omega
    subst h0
    rfl
  | succ n ih =>
    unfold discard
    by_cases h0 : remaining = 0
    · subst h0
      rfl
    · rw [if_neg h0]
      dsimp only
      have hsplit : remaining = min remaining 256 + (remaining - min remaining 256) := by omega
      conv_rhs => rw [hsplit, readFull_add]
      cases readFull (min remaining 256) s with
      | none => rfl
      | some r =>
        rw [Option.bind_some, Option.bind_some, ih _ (by omega), Option.map_map]
        rfl

/-- What one call makes of a message, whatever its buffer. -/
theorem sockReadCmd_send (maxLen : Nat) (m : Msg) (rest : Str) :
    sockReadCmd maxLen (sockSend m ++ rest) =
      some (⟨m.type, m.payload.take (maxLen - 1), asInt (m.payload.take (maxLen - 1)).length⟩, rest) := by
  have hhdr : (leBytes 4 m.type.toNat ++ leBytes 4 m.payload.length).length = 8 := by simp
  have htype : UInt32.ofNat (leNat ((leBytes 4 m.type.toNat ++ leBytes 4 m.payload.length).take 4)) = m.type := by
    rw [List.take_left' (length_leBytes _ _), leNat_leBytes m.type.toNat_lt, UInt32.ofNat_toNat]
  have hlen : leNat ((leBytes 4 m.type.toNat ++ leBytes 4 m.payload.length).drop 4) = m.payload.length := by
    rw [List.drop_left' (length_leBytes _ _), leNat_leBytes m.fits]
  unfold sockReadCmd sockSend
  rw [List.append_assoc, readFull_append hhdr, Option.bind_some]
  dsimp only
  rw [htype, hlen]
  by_cases h0 : m.payload.length = 0
  · rw [if_pos h0, List.length_eq_zero_iff.mp h0, List.take_nil]
    rfl
  · have hsplit : m.payload ++ rest =
        m.payload.take (maxLen - 1) ++ (m.payload.drop (maxLen - 1) ++ rest) := by
      rw [← List.append_assoc, List.take_append_drop]
    have hkept : (m.payload.take (maxLen - 1)).length = min m.payload.length (maxLen - 1) := by
      rw [List.length_take, Nat.min_comm]
    have hleft : (m.payload.drop (maxLen - 1)).length = m.payload.length - min m.payload.length (maxLen - 1) := by
      rw [List.length_drop]
      omega
    rw [if_neg h0, hsplit, readFull_append hkept, Option.bind_some, discard_eq _ _ (Nat.le_refl _),
      readFull_append hleft, hkept]
    rfl

theorem received_eq {maxLen : Nat} (h : maxLen ≤ 2 ^ 31) (m : Msg) :
    m.received maxLen = ⟨m.type, m.payload.take (maxLen - 1), asInt (m.payload.take (maxLen - 1)).length⟩ := by
  have hlt : (m.payload.take (maxLen - 1)).length < 2 ^ 31 := by
    rw [List.length_take]
    omega
  rw [asInt_eq hlt]
  rfl

/-- Successive calls return the messages written, each cut to the buffer, and stay in
    step with the stream. -/
theorem frames_read_back (maxLen : Nat) (h : maxLen ≤ 2 ^ 31) (msgs : List Msg) (rest : Str) :
    readCmds maxLen msgs.length (msgs.flatMap sockSend ++ rest) = some (msgs.map (Msg.received maxLen), rest) := by
  induction msgs with
  | nil => rfl
  | cons m msgs ih =>
    rw [List.flatMap_cons, List.append_assoc, List.length_cons]
    unfold readCmds
    rw [sockReadCmd_send, ← received_eq h, Option.bind_some, ih]
    rfl

/-- A payload of 2^31 bytes. -/
def huge : Msg := ⟨5, List.replicate (2 ^ 31) 0, by rw [List.length_replicate]; decide⟩

theorem huge_payload_negative : ¬ ∀ (maxLen : Nat), 2 ≤ maxLen → ∀ (msgs : List Msg) (rest : Str),
    readCmds maxLen msgs.length (msgs.flatMap sockSend ++ rest) = some (msgs.map (Msg.received maxLen), rest) := by
  intro hall
  -- of the returned number alone, for any message
  have hret : ∀ (maxLen : Nat) (m : Msg), 2 ≤ maxLen →
      asInt (m.payload.take (maxLen - 1)).length = (m.payload.take (maxLen - 1)).length := by
    intro maxLen m h2
    have hread := hall maxLen h2 [m] []
    rw [List.flatMap_cons, List.append_assoc, List.length_singleton] at hread
    unfold readCmds at hread
    rw [sockReadCmd_send, Option.bind_some] at hread
    exact congrArg Cmd.ret (List.cons.inj (congrArg Prod.fst (Option.some.inj hread))).1
  have hlen : (huge.payload.take (2 ^ 31 + 1 - 1)).length = 2 ^ 31 := by
    rw [List.length_take, show huge.payload.length = 2 ^ 31 from List.length_replicate]
    exact Nat.min_eq_right (by decide)
  have hneg := hret (2 ^ 31 + 1) huge (by decide)
  rw [hlen] at hneg
  exact absurd hneg (by decide)

/-! ## Messages to an agent -/

/-- `TC_BUF_LG`, the buffer of both ends. -/
def bufLg : Nat := 4096

def cmdDetach : UInt32 := 3

def cmdMsgType : UInt32 := 5

/-- `agent\0text`, when it fits the buffer. -/
def frame (agent text : Str) : Option Msg :=
  if h : agent.length + 1 + text.length < bufLg then
    some ⟨cmdMsgType, agent ++ 0 :: text, by
      unfold bufLg at h
      simp only [List.length_append, List.length_cons]
      omega⟩
  else none

/-- `cmd_msg`: what the command line writes, on a connection of its own. -/
def cmdMsg (agent text : Str) : Option Str := (frame agent text).map sockSend

/-- `send_to_agent`: what the terminal writes, on the connection it is attached by. -/
def sendToAgent (attached : Bool) (agent text : Str) : Option Str :=
  if !attached then none else (frame agent text).map sockSend

/-- A message as `on_trigger` gets it. -/
structure Trigger where
  agent : Str
  sender : Str
  text : Str
  deriving DecidableEq

/-- `route_msg`: `data` holds `len` bytes and a NUL. -/
def routeMsg (data : Str) (len : Int) (sender : Str) : Option Trigger :=
  if len > 0 then
    match strchr (data.take len.toNat) 0 with
    | none => none
    | some sep => some ⟨data.takeWhile (· ≠ 0), sender, (sep.drop 1).takeWhile (· ≠ 0)⟩
  else none

/-- `handle_new_client`, as far as a message goes. -/
def handleNewClient (s : Str) : Option Trigger :=
  (sockReadCmd bufLg s).bind fun c =>
    if 0 ≤ c.1.ret ∧ c.1.type = cmdMsgType then routeMsg c.1.data c.1.ret (lit "socket") else none

/-- `handle_tui_client`: the message, and whether the client stays attached with the
    rest of its stream. -/
def handleTuiClient (s : Str) : Option Trigger × Option Str :=
  match sockReadCmd bufLg s with
  | none => (none, none)
  | some (c, rest) =>
    if c.ret < 0 ∨ c.type = cmdDetach then (none, none)
    else if c.type = cmdMsgType then (routeMsg c.data c.ret (lit "tui"), some rest)
    else (none, some rest)

/-- Agent and text come apart at the first NUL. -/
theorem routeMsg_frame {agent text : Str} (ha : (0 : UInt8) ∉ agent) (ht : (0 : UInt8) ∉ text) (sender : Str) :
    routeMsg (agent ++ 0 :: text) ((agent ++ 0 :: text).length : Nat) sender = some ⟨agent, sender, text⟩ := by
  have hsep : ∀ a : Str, (0 : UInt8) ∉ a → strchr (a ++ 0 :: text) 0 = some (0 :: text) := by
    intro a
    induction a with
    | nil => exact fun _ => rfl
    | cons c a ih =>
      intro hmem
      rw [List.mem_cons, not_or] at hmem
      rw [List.cons_append, strchr, if_neg (Ne.symm hmem.1)]
      exact ih hmem.2
  have hagent : (agent ++ 0 :: text).takeWhile (· ≠ 0) = agent := by
    rw [List.takeWhile_append_of_pos (p := fun c => decide (c ≠ 0)) fun c hc => decide_eq_true fun h : c = 0 => ha (h ▸ hc)]
    simp
  have htext : text.takeWhile (· ≠ 0) = text :=
    List.takeWhile_eq_self_iff.mpr fun c hc => decide_eq_true fun h : c = 0 => ht (h ▸ hc)
  unfold routeMsg
  rw [if_pos (by simp only [List.length_append, List.length_cons]; omega), Int.toNat_natCast, List.take_length, hsep agent ha]
  dsimp only
  rw [hagent, List.drop_one, List.tail_cons, htext]

/-- What either sender frames, the daemon delivers: that agent and that text. -/
theorem message_delivered {agent text : Str} (ha : (0 : UInt8) ∉ agent) (ht : (0 : UInt8) ∉ text)
    (hlen : agent.length + 1 + text.length < bufLg) :
    (∃ w, cmdMsg agent text = some w ∧ handleNewClient w = some ⟨agent, lit "socket", text⟩) ∧
    (∃ w, sendToAgent true agent text = some w ∧
      ∀ rest, handleTuiClient (w ++ rest) = (some ⟨agent, lit "tui", text⟩, some rest)) := by
  have hlarge : (agent ++ 0 :: text).length ≤ bufLg - 1 := by
    unfold bufLg at hlen ⊢
    simp only [List.length_append, List.length_cons]
    omega
  obtain ⟨m, hm, htype, hpay⟩ : ∃ m, frame agent text = some m ∧ m.type = cmdMsgType ∧ m.payload = agent ++ 0 :: text := by
    unfold frame
    rw [dif_pos hlen]
    exact ⟨_, rfl, rfl, rfl⟩
  have hread : ∀ rest, sockReadCmd bufLg (sockSend m ++ rest) =
      some (⟨cmdMsgType, agent ++ 0 :: text, ((agent ++ 0 :: text).length : Nat)⟩, rest) := by
    intro rest
    have hint : (agent ++ 0 :: text).length < 2 ^ 31 := by
      unfold bufLg at hlarge
      omega
    rw [sockReadCmd_send, htype, hpay, List.take_of_length_le hlarge, asInt_eq hint]
  refine ⟨⟨sockSend m, by rw [cmdMsg, hm]; rfl, ?_⟩, ⟨sockSend m, by rw [sendToAgent, hm]; rfl, fun rest => ?_⟩⟩
  · have hself := hread []
    rw [List.append_nil] at hself
    unfold handleNewClient
    rw [hself, Option.bind_some]
    dsimp only
    rw [if_pos ⟨Int.natCast_nonneg _, rfl⟩]
    exact routeMsg_frame ha ht _
  · unfold handleTuiClient
    rw [hread]
    dsimp only
    rw [if_neg (not_or.mpr ⟨not_lt.mpr (Int.natCast_nonneg _), by decide⟩), if_pos rfl, routeMsg_frame ha ht]

/-- The control socket: framed messages come back one for one, and a message to an agent
    arrives as that agent and that text. -/
theorem messages_cross :
    (∀ maxLen, 2 ≤ maxLen → maxLen ≤ 2 ^ 31 → ∀ (msgs : List Msg) (rest : Str),
      readCmds maxLen msgs.length (msgs.flatMap sockSend ++ rest) = some (msgs.map (Msg.received maxLen), rest)) ∧
    ∀ agent text : Str, (0 : UInt8) ∉ agent → (0 : UInt8) ∉ text → agent.length + 1 + text.length < bufLg →
      (∃ w, cmdMsg agent text = some w ∧ handleNewClient w = some ⟨agent, lit "socket", text⟩) ∧
      (∃ w, sendToAgent true agent text = some w ∧
        ∀ rest, handleTuiClient (w ++ rest) = (some ⟨agent, lit "tui", text⟩, some rest)) :=
  ⟨fun maxLen _ h msgs rest => frames_read_back maxLen h msgs rest, fun _ _ ha ht hlen => message_delivered ha ht hlen⟩

/-- A short message and one longer than the buffer. -/
def shortAndLong : List Msg := [⟨5, lit "hi", by decide⟩, ⟨1, lit "abcdef", by decide⟩]

theorem messages_cross_cut :
    readCmds 4 2 (shortAndLong.flatMap sockSend ++ lit "next") = some ([⟨5, lit "hi", 2⟩, ⟨1, lit "abc", 3⟩], lit "next") ∧
    ∃ w, cmdMsg (lit "ada") (lit "hello") = some w ∧
      handleNewClient w = some ⟨lit "ada", lit "socket", lit "hello"⟩ :=
  ⟨messages_cross.1 4 (by decide) (by decide) shortAndLong (lit "next"),
    (messages_cross.2 (lit "ada") (lit "hello") (by decide) (by decide) (by decide)).1⟩

end Shclaw.Socket
