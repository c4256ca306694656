/-
  Shclaw.Messenger.Inbox — the file-based inboxes (`src/messenger.c`) and the agents
  registered with them (`src/daemon.c`: `load_agent`).

  `load_agent` refuses a name that is not `[A-Za-z0-9_-]{1,31}`, is `all` or `owner`,
  or is taken, up to case; `Registry` carries what that leaves. The messenger's own
  table holds `owner` first, then the agents.

  `messenger_send` first decides whom it writes to (`plan`), then `send_one` writes
  one file a recipient. What one `send_one` draws is a `Draw`: the random id, the
  time, and whether the write succeeded; a write replaces the file or leaves nothing
  (`atomic_write`). `messenger_receive` reads every `.json` file of the inbox and
  deletes it, whatever came of the read.
-/

import Shclaw.Tools

namespace Shclaw.Messenger

open Lib

/-! ## Names -/

def maxAgents : Nat := 16

/-- The test of `load_agent`. -/
def nameOk (name : Str) : Bool :=
  toolNameValid name && name.length < 32 && !strcaseeq name (lit "all") && !strcaseeq name (lit "owner")

/-- The agents of the daemon, in the order loaded. -/
structure Registry where
  names : List Str
  ok : ∀ name ∈ names, nameOk name = true
  distinct : names.Pairwise fun a b => strcaseeq a b = false
  few : names.length ≤ maxAgents

/-- `load_agent`; `resolved` is whether the rest of the agent's configuration loads. -/
def Registry.loadAgent (r : Registry) (name : Str) (resolved : Bool) : Registry :=
  if h : r.names.length < maxAgents ∧ nameOk name = true ∧ (∀ a ∈ r.names, strcaseeq a name = false) ∧ resolved then
    { names := r.names ++ [name]
      ok := by
        intro a ha
        rcases List.mem_append.mp ha with ha | ha
        · exact r.ok a ha
        · exact List.mem_singleton.mp ha ▸ h.2.1
      distinct := by
        rw [List.pairwise_append]
        refine ⟨r.distinct, List.pairwise_singleton .., fun a ha b hb => ?_⟩
        exact List.mem_singleton.mp hb ▸ h.2.2.1 a ha
      few := by
        have := h.1
        simp only [List.length_append, List.length_singleton]
        omega }
  else r

/-- `m->agents`. -/
def Registry.agents (r : Registry) : List Str := lit "owner" :: r.names

def messengerResolve (agents : List Str) (name : Option Str) : Option Str :=
  match name with
  | none => none
  | some n =>
    let n := if byte n 0 = ch '@' then n.drop 1 else n
    agents.find? fun a => strcaseeq a n

/-- `messenger_register`, for a name shorter than the table's fields. -/
def messengerRegister (agents : List Str) (name : Str) : List Str :=
  if (messengerResolve agents (some name)).isSome then agents
  else if agents.length ≥ maxAgents + 1 then agents
  else agents ++ [cut 32 name]

/-! ## Sending -/

/-- One `send_one`: the id of `uuid_short`, the time, and whether the write succeeded. -/
structure Draw where
  mid : Str
  now : Str
  written : Bool

/-- A write into an inbox. -/
structure Put where
  recipient : Str
  msg : Json
  written : Bool
  deriving DecidableEq

/-- What a caller of `messenger_send` passes. -/
structure Envelope where
  sender : Str
  content : Str
  thread : Option Str
  reply : Bool

def Envelope.message (e : Envelope) (recipient mid now : Str) : Json :=
  .obj ([(lit "id", .str mid), (lit "from", .str e.sender), (lit "to", .str recipient), (lit "content", .str e.content),
    (lit "thread_id", .str (e.thread.getD [])), (lit "timestamp", .str now)] ++
    if e.reply then [(lit "reply", .bool true)] else [])

def sendOne (e : Envelope) (recipient : Str) (d : Draw) : Put := ⟨recipient, e.message recipient d.mid d.now, d.written⟩

/-- The text `send_one` returns. -/
def Put.text (p : Put) : Str :=
  if p.written then lit "Message sent to " ++ p.recipient ++ lit "."
  else lit "Error: cannot deliver the message to " ++ p.recipient

inductive Plan where
  | refuse (text : Str)
  | one (name : Str)
  | everyone (names : List Str)

/-- Whom `messenger_send` writes to. -/
def plan (agents : List Str) (sender : Str) (recipient : Option Str) : Plan :=
  if recipient.any (strcaseeq · (lit "all")) then
    .everyone (agents.filter fun a => a ≠ sender && a ≠ lit "owner")
  else
    let unknown := Plan.refuse (lit "Error: unknown recipient '" ++ recipient.getD [] ++ lit "'. Valid:" ++
      agents.flatMap (fun a => lit " " ++ a ++ lit ",") ++ lit " all")
    match messengerResolve agents recipient with
    | none => unknown
    | some name =>
      if name = lit "owner" then unknown
      else if name = sender then
        .refuse (lit "Error: you cannot send a message to yourself. Reply in text to answer the owner.")
      else .one name

def broadcastText (n : Nat) : Str := lit "Broadcast sent to " ++ decimal n ++ lit " agents."

/-- `messenger_send`, undisturbed: the text and the writes. `draws i` is the `i`-th `send_one`. -/
def messengerSend (agents : List Str) (recipient : Option Str) (e : Envelope) (draws : Nat → Draw) : Str × List Put :=
  match plan agents e.sender recipient with
  | .refuse text => (text, [])
  | .one name => ((sendOne e name (draws 0)).text, [sendOne e name (draws 0)])
  | .everyone names => (broadcastText names.length, names.mapIdx fun i name => sendOne e name (draws i))

/-! ## Receiving -/

/-- A file of an inbox: its name and its bytes. -/
abbrev Entry := Str × Str

/-- The file `send_one` writes. -/
def mailFile (J : CJson) (msg : Json) : Entry := ((msg.jStr (lit "id")).getD [] ++ lit ".json", J.print msg)

def isMail (name : Str) : Bool :=
  byte name 0 ≠ ch '.' && 5 ≤ name.length && name.drop (name.length - 5) = lit ".json"

/-- `file_slurp`: `none` when the file cannot be opened, else the number of bytes read. -/
def slurp (text : Str) (read : Option Nat) : Option Str := read.map fun n => text.take n

/-- `messenger_receive` over the entries in the order `readdir` lists them: the messages
    returned and the files left. -/
def messengerReceive (J : CJson) (listing : List (Entry × Option Nat)) : List Json × List Entry :=
  (listing.filterMap fun f => if isMail f.1.1 then (slurp f.1.2 f.2).bind J.parse else none,
    (listing.map (·.1)).filter fun f => !isMail f.1)

/-! ## Names and recipients -/

theorem resolve_mem {agents : List Str} {recipient : Option Str} {name : Str}
    (h : messengerResolve agents recipient = some name) :
    name ∈ agents := by
  unfold messengerResolve at h
  split at h
  · cases h
  · exact List.mem_of_find?_eq_some h

theorem nameOk_spec {name : Str} (h : nameOk name = true) : nameChar (byte name 0) = true ∧ name.length < 32 ∧
    strcaseeq name (lit "all") = false ∧ strcaseeq name (lit "owner") = false := by
  unfold nameOk toolNameValid at h
  cases name with
  | nil => simp at h
  | cons c t =>
    simp only [List.all_cons, Bool.and_eq_true, Bool.not_eq_true', decide_eq_true_eq] at h
    exact ⟨h.1.1.1.1.1.1, h.1.1.2, h.1.2, h.2⟩

/-- A name starts with no `@`, so only the `@` of a mention is dropped. -/
theorem resolve_name {agents : List Str} {name : Str} (h : nameOk name = true) :
    messengerResolve agents (some name) = agents.find? fun a => strcaseeq a name := by
  unfold messengerResolve
  simp only
  rw [if_neg]
  intro hat
  have hc := (nameOk_spec h).1
  rw [hat] at hc
  exact absurd hc (by decide)

theorem Registry.owner_of_name (r : Registry) {name : Str} (h : name ∈ r.names) : strcaseeq (lit "owner") name = false :=
  strcaseeq_comm _ _ ▸ (nameOk_spec (r.ok name h)).2.2.2

theorem Registry.all_of_name (r : Registry) {name : Str} (h : name ∈ r.names) : strcaseeq name (lit "all") = false :=
  (nameOk_spec (r.ok name h)).2.2.1

theorem Registry.length_of_name (r : Registry) {name : Str} (h : name ∈ r.names) : name.length < 32 :=
  (nameOk_spec (r.ok name h)).2.1

theorem Registry.nodup (r : Registry) : r.names.Nodup := by
  refine r.distinct.imp fun h hab => ?_
  rw [hab, strcaseeq_refl] at h
  cases h

/-- A registered name resolves to itself. -/
theorem Registry.resolve_self (r : Registry) {name : Str} (h : name ∈ r.names) :
    messengerResolve r.agents (some name) = some name := by
  have hfind : ∀ {names : List Str}, names.Pairwise (fun a b => strcaseeq a b = false) → name ∈ names →
      names.find? (fun a => strcaseeq a name) = some name := by
    intro names hd hm
    induction names with
    | nil => cases hm
    | cons a names ih =>
      rw [List.pairwise_cons] at hd
      rcases List.mem_cons.mp hm with rfl | hm
      · rw [List.find?_cons_of_pos (by simp)]
      · rw [List.find?_cons_of_neg (by simp [hd.1 name hm])]
        exact ih hd.2 hm
  rw [resolve_name (r.ok name h)]
  unfold Registry.agents
  rw [List.find?_cons_of_neg (by simp [r.owner_of_name h])]
  exact hfind r.distinct h

theorem nameChar_toLower (c : UInt8) : nameChar (toLower c) = nameChar c := by
  have hall : ∀ n < 256, nameChar (toLower (UInt8.ofNat n)) = nameChar (UInt8.ofNat n) := by decide +kernel
  have hc := hall c.toNat c.toNat_lt
  rwa [UInt8.ofNat_toNat] at hc

/-- What resolves starts with a letter of a name or an `@`. -/
theorem Registry.resolve_first (r : Registry) {t name : Str} (h : messengerResolve r.agents (some t) = some name) :
    byte t 0 = ch '@' ∨ nameChar (byte t 0) = true := by
  by_cases hat : byte t 0 = ch '@'
  · exact .inl hat
  right
  unfold messengerResolve at h
  simp only [if_neg hat] at h
  have hsame : strcaseeq name t = true := by simpa using List.find?_some h
  have hfirst : nameChar (byte name 0) = true := by
    rcases List.mem_cons.mp (List.mem_of_find?_eq_some h) with rfl | hm
    · decide
    · exact (nameOk_spec (r.ok name hm)).1
  have hlower : toLower (byte name 0) = toLower (byte t 0) := by
    unfold strcaseeq at hsame
    have hmap := congrArg (·.head?) (beq_iff_eq.mp hsame)
    simp only [List.head?_map] at hmap
    unfold byte
    cases name <;> cases t <;> simp_all
  rw [← nameChar_toLower, ← hlower, nameChar_toLower]
  exact hfirst

/-- `all` is nobody. -/
theorem Registry.resolve_all (r : Registry) {t : Str} (h : strcaseeq t (lit "all") = true) :
    messengerResolve r.agents (some t) = none := by
  have hat : byte t 0 ≠ ch '@' := by
    intro hat
    unfold strcaseeq at h
    have hmap := congrArg (·.head?) (beq_iff_eq.mp h)
    cases t with
    | nil => cases hmap
    | cons c t =>
      simp only [List.map_cons, List.head?_cons] at hmap
      rw [show c = ch '@' from hat] at hmap
      exact absurd hmap (by decide)
  unfold messengerResolve
  simp only [if_neg hat, List.find?_eq_none]
  intro a ha hat
  have hall := strcaseeq_trans hat h
  rcases List.mem_cons.mp ha with rfl | ha
  · exact absurd hall (by decide)
  · rw [r.all_of_name ha] at hall
    cases hall

/-- Registering a loaded agent appends it: no other has its name. -/
theorem register_loadAgent (r : Registry) {name : Str} (hfew : r.names.length < maxAgents) (hok : nameOk name = true)
    (hnew : ∀ a ∈ r.names, strcaseeq a name = false) :
    messengerRegister r.agents name = (r.loadAgent name true).agents := by
  have hload : (r.loadAgent name true).agents = r.agents ++ [name] := by
    unfold Registry.loadAgent Registry.agents
    rw [dif_pos ⟨hfew, hok, hnew, rfl⟩]
    rfl
  have hnone : messengerResolve r.agents (some name) = none := by
    rw [resolve_name hok, List.find?_eq_none]
    intro a ha
    rcases List.mem_cons.mp ha with rfl | ha
    · rw [strcaseeq_comm, (nameOk_spec hok).2.2.2]
      exact Bool.false_ne_true
    · simp [hnew a ha]
  have hlen : name.length < 32 := (nameOk_spec hok).2.1
  unfold messengerRegister
  rw [hnone, hload, (cut_eq_self (by omega)).mpr hlen]
  simp only [Option.isSome_none, Bool.false_eq_true, if_false]
  rw [if_neg]
  unfold Registry.agents
  simp only [List.length_cons]
  omega

end Shclaw.Messenger
