/-
  Shclaw.Sessions — the session log (`src/session.c`: `session_create`,
  `session_add_message`, `session_set_status`) and who writes it (`src/daemon.c`:
  `start_session`, `session_worker`).

  A session is a JSON object in a file of its own. Every call loads it, changes it and
  replaces the file, under the store's lock, so a call is one step; its ids and its time
  were drawn before it got the lock and may be out of order. A read may fail or stop
  short, a save may fail.

  `Session` is what the object says, with the agents involved computed from its messages.
  `done` lists the calls that returned 0.

  Proved, in every run:
  - `store_exact`: a file holds the session its successful calls make, in their order, and
    no file is there without a create; a call that returns -1 changes nothing.
  - `status_follows`: a session is "active" until its thread ended or could not be
    created, then "closed" or "failed" as the outcome says; it stays "active" when that
    last call failed, and a session whose create failed leaves no file. The owner's
    message, when it was saved, comes first.
-/

import Shclaw.Agent.Trigger
import Shclaw.JsonLines
import Shclaw.Lib.Runs
import Shclaw.Messenger.Inbox

namespace Shclaw.Sessions

open Lib Agent Messenger

/-! ## The calls -/

/-- `session_status_t`. -/
inductive Status where
  | active
  | closed
  | failed
  deriving DecidableEq

/-- `status_str`. -/
def statusStr : Status → Str
  | .active => lit "active"
  | .closed => lit "closed"
  | .failed => lit "failed"

/-- `msg_type_t`. -/
inductive MsgType where
  | text
  | thinking
  | toolCall
  | toolResult
  | delegation
  deriving DecidableEq

/-- `msgtype_str`. -/
def msgtypeStr : MsgType → Str
  | .text => lit "text"
  | .thinking => lit "thinking"
  | .toolCall => lit "tool_call"
  | .toolResult => lit "tool_result"
  | .delegation => lit "delegation"

/-- The directory as `session_store_init` keeps it. -/
structure Dir where
  path : Str
  short : path.length < 4096

def sessionStoreInit (dir : Str) : Dir :=
  ⟨cut 4096 dir, Nat.lt_succ_of_le (length_cut_le 4096 dir)⟩

/-- `session_file`. -/
def sessionFile (d : Dir) (sid : Str) : Str := cut 4200 (d.path ++ lit "/" ++ sid ++ lit ".json")

abbrev Files := Str → Option Str

section Calls

variable (J : CJson) (d : Dir)

/-- `load_session`; `read` is how far `fread` got, `none` when the file cannot be opened. -/
def loadSession (fs : Files) (sid : Str) (read : Option Nat) : Option Json :=
  if sid = [] then none else ((fs (sessionFile d sid)).bind fun text => slurp text read).bind J.parse

/-- `json_save_atomic`, unformatted: the files and whether it returned 0. -/
def saveSession (fs : Files) (sid : Str) (saved : Bool) (session : Json) : Files × Bool :=
  if saved then (Function.update fs (sessionFile d sid) (some (J.print session)), true) else (fs, false)

def newSession (sid type title : Str) (initiator : Option Str) (now : Str) : Json :=
  .obj [(lit "id", .str sid), (lit "trigger_type", .str type), (lit "title", .str title),
    (lit "initiator", .str (initiator.getD (lit "system"))), (lit "created_at", .str now), (lit "updated_at", .str now),
    (lit "status", .str (lit "active")), (lit "agents_involved", .arr []), (lit "messages", .arr [])]

/-- A message of a session. -/
structure Message where
  id : Str
  sender : Str
  recipient : Option Str
  content : Str
  type : MsgType
  timestamp : Str

def Message.json (m : Message) : Json :=
  .obj [(lit "id", .str m.id), (lit "sender", .str m.sender), (lit "recipient", .str (m.recipient.getD [])),
    (lit "content", .str m.content), (lit "type", .str (msgtypeStr m.type)), (lit "timestamp", .str m.timestamp)]

/-- `cJSON_AddItemToArray`; on an object the item has no key, a scalar is printed without it. -/
def addChild (v : Json) : Json → Json
  | .arr xs => .arr (xs ++ [v])
  | .obj kvs => .obj (kvs ++ [([], v)])
  | j => j

/-- The member `cJSON_GetObjectItem` finds, changed in place. -/
def onItem (k : Str) (f : Json → Json) : Json → Json
  | .obj kvs => .obj (kvs.replaceF fun kv => if strcaseeq kv.1 k then some (kv.1, f kv.2) else none)
  | j => j

def ignored : List Str := [lit "owner", lit "system", lit "all"]

/-- The body of the loop over sender and recipient. -/
def trackAgent (agents : Json) (name : Option Str) : Json :=
  match name with
  | none => agents
  | some name =>
    if name = [] then agents
    else if name ∈ ignored ∨ Json.str name ∈ agents.children then agents
    else addChild (.str name) agents

/-- What `session_add_message` makes of the session it loaded. -/
def withMessage (m : Message) (session : Json) : Json :=
  onItem (lit "agents_involved") (fun agents => [some m.sender, m.recipient].foldl trackAgent agents)
    ((onItem (lit "messages") (addChild m.json) session).setString (lit "updated_at") m.timestamp)

inductive Op where
  | create (sid type title : Str) (initiator : Option Str)
  | addMessage (sid mid sender : Str) (recipient : Option Str) (content : Str) (type : MsgType)
  | setStatus (sid : Str) (status : Status)

/-- What a call meets: the time it drew, how far its read gets, whether its save succeeds. -/
structure Chance where
  now : Str
  read : Option Nat
  saved : Bool

/-- A call: the files after it, and whether it returned 0 (for `session_create`: an id). -/
def Op.run (fs : Files) (c : Chance) : Op → Files × Bool
  | .create sid type title initiator => saveSession J d fs sid c.saved (newSession sid type title initiator c.now)
  | .addMessage sid mid sender recipient content type =>
    match loadSession J d fs sid c.read with
    | none => (fs, false)
    | some session => saveSession J d fs sid c.saved (withMessage ⟨mid, sender, recipient, content, type, c.now⟩ session)
  | .setStatus sid status =>
    match loadSession J d fs sid c.read with
    | none => (fs, false)
    | some session => saveSession J d fs sid c.saved
        ((session.setString (lit "status") (statusStr status)).setString (lit "updated_at") c.now)

def Op.sid : Op → Str
  | .create sid .. | .addMessage sid .. | .setStatus sid _ => sid

/-- The files, and the calls that returned 0 with their times. -/
@[ext]
structure Store where
  files : Files
  done : List (Op × Str)

def Store.call (s : Store) (c : Chance) (op : Op) : Store × Bool :=
  let r := op.run J d s.files c
  (⟨r.1, if r.2 then s.done ++ [(op, c.now)] else s.done⟩, r.2)

/-- Calls by any threads, in the order they get the lock. -/
def store : System Store (Op × Chance) where
  init := ⟨fun _ => none, []⟩
  step s e := some (s.call J d e.2 e.1).1

end Calls

/-! ## What a file says -/

/-- What a session is. -/
structure Session where
  id : Str
  triggerType : Str
  title : Str
  initiator : Str
  createdAt : Str
  updatedAt : Str
  status : Status
  messages : List Message

/-- A name not met before and not ignored is one more agent. -/
def involve (agents : List Str) (name : Str) : List Str :=
  if name = [] ∨ name ∈ ignored ∨ name ∈ agents then agents else agents ++ [name]

/-- The agents involved: senders and recipients as they first appear. -/
def Session.agents (s : Session) : List Str :=
  (s.messages.flatMap fun m => m.sender :: m.recipient.toList).foldl involve []

def Session.add (s : Session) (m : Message) : Session :=
  { s with
    updatedAt := m.timestamp
    messages := s.messages ++ [m] }

def Session.mark (s : Session) (status : Status) (now : Str) : Session :=
  { s with
    updatedAt := now
    status }

/-- A call that returned 0, on the session `sid`. -/
def Session.after (sid : Str) (cur : Option Session) (e : Op × Str) : Option Session :=
  if e.1.sid = sid then
    match e.1 with
    | .create _ type title initiator => some ⟨sid, type, title, initiator.getD (lit "system"), e.2, e.2, .active, []⟩
    | .addMessage _ mid sender recipient content type => cur.map (·.add ⟨mid, sender, recipient, content, type, e.2⟩)
    | .setStatus _ status => cur.map (·.mark status e.2)
  else cur

/-- The session the calls make. -/
def sessionOf (done : List (Op × Str)) (sid : Str) : Option Session := done.foldl (Session.after sid) none

/-- The object says what the session is. -/
structure Encodes (j : Json) (s : Session) : Prop where
  record : j.IsRecord
  id : j.jStr (lit "id") = some s.id
  triggerType : j.jStr (lit "trigger_type") = some s.triggerType
  title : j.jStr (lit "title") = some s.title
  initiator : j.jStr (lit "initiator") = some s.initiator
  createdAt : j.jStr (lit "created_at") = some s.createdAt
  updatedAt : j.jStr (lit "updated_at") = some s.updatedAt
  status : j.jStr (lit "status") = some (statusStr s.status)
  agents : j.getObjectItem (lit "agents_involved") = some (.arr (s.agents.map .str))
  messages : j.getObjectItem (lit "messages") = some (.arr (s.messages.map Message.json))

/-- The text of a session's file. -/
def Holds (J : CJson) (text : Option Str) (s : Option Session) : Prop :=
  text = none ∧ s = none ∨ ∃ kvs a, text = some (J.print (.obj kvs)) ∧ s = some a ∧ Encodes (.obj kvs) a

/-! ## One change of the object -/

theorem getObjectItem_onItem (j : Json) (k l : Str) (f : Json → Json) : (onItem k f j).getObjectItem l =
    if strcaseeq k l then (j.getObjectItem l).map f else j.getObjectItem l := by
  cases j with
  | obj kvs =>
    simp only [onItem, Json.getObjectItem]
    rw [Json.find?_replaceF kvs (g := fun kv => (kv.1, f kv.2)) (fun _ h => h)]
    split
    · rw [Option.map_map, Option.map_map]
      rfl
    · rfl
  | _ => simp [onItem, Json.getObjectItem]

theorem isRecord_onItem {j : Json} (h : j.IsRecord) (k : Str) (f : Json → Json) : (onItem k f j).IsRecord := by
  cases j with
  | obj kvs =>
    have hkeys : (kvs.replaceF fun kv => if strcaseeq kv.1 k then some (kv.1, f kv.2) else none).map
        (fun kv => kv.1.map toLower) = kvs.map fun kv => kv.1.map toLower := by
      clear h
      induction kvs with
      | nil => rfl
      | cons kv kvs ih =>
        by_cases hk : strcaseeq kv.1 k = true
        · simp [List.replaceF, hk]
        · simp [List.replaceF, hk, ih]
    simp only [onItem, Json.IsRecord, hkeys]
    exact h
  | _ => exact h.elim

theorem jStr_onItem {j : Json} {k l : Str} (hkl : strcaseeq k l = false) (f : Json → Json) :
    (onItem k f j).jStr l = j.jStr l := by
  unfold Json.jStr
  rw [getObjectItem_onItem, if_neg (by simp [hkl])]

theorem getObjectItem_setString {j : Json} (h : j.IsRecord) {k l : Str} (hkl : strcaseeq k l = false) (v : Str) :
    (j.setString k v).getObjectItem l = j.getObjectItem l := by
  rw [Json.setString, Json.getObjectItem_setItem h, if_neg (by simp [hkl])]

theorem mem_names {agents : List Str} {name : Str} : Json.str name ∈ (Json.arr (agents.map .str)).children ↔ name ∈ agents := by
  simp [Json.children]

/-- The loop over names is the computed list of agents. -/
theorem trackAgent_names (agents : List Str) (name : Option Str) :
    trackAgent (.arr (agents.map .str)) name = .arr ((name.toList.foldl involve agents).map .str) := by
  cases name with
  | none => rfl
  | some name =>
    simp only [trackAgent, Option.toList_some, List.foldl_cons, List.foldl_nil, involve, mem_names]
    by_cases h0 : name = []
    · simp [h0]
    · by_cases hold : name ∈ ignored ∨ name ∈ agents
      · simp [h0, hold]
      · simp [h0, hold, addChild]

/-- A new session is written as it is. -/
theorem encodes_new (sid type title : Str) (initiator : Option Str) (now : Str) :
    Encodes (newSession sid type title initiator now)
      ⟨sid, type, title, initiator.getD (lit "system"), now, now, .active, []⟩ where
  record := by
    simp only [newSession, Json.IsRecord, List.map_cons, List.map_nil]
    decide
  id := rfl
  triggerType := rfl
  title := rfl
  initiator := rfl
  createdAt := rfl
  updatedAt := rfl
  status := rfl
  agents := rfl
  messages := rfl

theorem agents_add (a : Session) (m : Message) : (a.add m).agents =
    [some m.sender, m.recipient].foldl (fun agents name => name.toList.foldl involve agents) a.agents := by
  unfold Session.agents Session.add
  simp only [List.flatMap_append, List.foldl_append, List.flatMap_singleton, List.foldl_cons, List.foldl_nil,
    Option.toList_some]

variable {j : Json} {a : Session}

theorem Encodes.withMessage (h : Encodes j a) (m : Message) :
    Encodes (withMessage m j) (a.add m) := by
  have hrec := isRecord_onItem h.record (lit "messages") (addChild m.json)
  have hset := Json.isRecord_setItem hrec (lit "updated_at") (.str m.timestamp)
  -- a string member that is none of the three touched
  have hkept : ∀ l, strcaseeq (lit "messages") l = false → strcaseeq (lit "updated_at") l = false →
      strcaseeq (lit "agents_involved") l = false → (Sessions.withMessage m j).jStr l = j.jStr l := by
    intro l h1 h2 h3
    unfold Sessions.withMessage
    rw [jStr_onItem h3, Json.jStr_setString hrec, if_neg (by simp [h2]), jStr_onItem h1]
  refine ⟨isRecord_onItem hset _ _, ?_, ?_, ?_, ?_, ?_, ?_, ?_, ?_, ?_⟩
  · exact (hkept _ (by decide) (by decide) (by decide)).trans h.id
  · exact (hkept _ (by decide) (by decide) (by decide)).trans h.triggerType
  · exact (hkept _ (by decide) (by decide) (by decide)).trans h.title
  · exact (hkept _ (by decide) (by decide) (by decide)).trans h.initiator
  · exact (hkept _ (by decide) (by decide) (by decide)).trans h.createdAt
  · unfold Sessions.withMessage
    rw [jStr_onItem (by decide), Json.jStr_setString hrec, if_pos (by decide)]
    rfl
  · exact (hkept _ (by decide) (by decide) (by decide)).trans h.status
  · unfold Sessions.withMessage
    rw [getObjectItem_onItem, if_pos (by decide), getObjectItem_setString hrec (by decide), getObjectItem_onItem,
      if_neg (by decide), h.agents, agents_add]
    simp only [Option.map_some, List.foldl_cons, List.foldl_nil, trackAgent_names]
  · unfold Sessions.withMessage
    rw [getObjectItem_onItem, if_neg (by decide), getObjectItem_setString hrec (by decide), getObjectItem_onItem,
      if_pos (by decide), h.messages, Option.map_some, addChild, Session.add, List.map_append]
    rfl

theorem Encodes.withStatus (h : Encodes j a) (status : Status) (now : Str) :
    Encodes ((j.setString (lit "status") (statusStr status)).setString (lit "updated_at") now) (a.mark status now) := by
  have hrec : (j.setString (lit "status") (statusStr status)).IsRecord := Json.isRecord_setItem h.record _ _
  have hkept : ∀ l, strcaseeq (lit "status") l = false → strcaseeq (lit "updated_at") l = false →
      ((j.setString (lit "status") (statusStr status)).setString (lit "updated_at") now).jStr l = j.jStr l := by
    intro l h1 h2
    rw [Json.jStr_setString hrec, if_neg (by simp [h2]), Json.jStr_setString h.record, if_neg (by simp [h1])]
  refine ⟨Json.isRecord_setItem hrec _ _, ?_, ?_, ?_, ?_, ?_, ?_, ?_, ?_, ?_⟩
  · exact (hkept _ (by decide) (by decide)).trans h.id
  · exact (hkept _ (by decide) (by decide)).trans h.triggerType
  · exact (hkept _ (by decide) (by decide)).trans h.title
  · exact (hkept _ (by decide) (by decide)).trans h.initiator
  · exact (hkept _ (by decide) (by decide)).trans h.createdAt
  · rw [Json.jStr_setString hrec, if_pos (by decide)]
    rfl
  · rw [Json.jStr_setString hrec, if_neg (by decide), Json.jStr_setString h.record, if_pos (by decide)]
    rfl
  · rw [getObjectItem_setString hrec (by decide), getObjectItem_setString h.record (by decide)]
    exact h.agents
  · rw [getObjectItem_setString hrec (by decide), getObjectItem_setString h.record (by decide)]
    exact h.messages

/-! ## One call -/

/-- Ids of 11 bytes at most have paths of their own: nothing is cut. -/
theorem sessionFile_inj (d : Dir) {sid sid' : Str} (h : sid.length < 12) (h' : sid'.length < 12)
    (he : sessionFile d sid = sessionFile d sid') : sid = sid' := by
  have hd := d.short
  have hfit : ∀ x : Str, x.length < 12 → (d.path ++ lit "/" ++ x ++ lit ".json").length < 4200 := by
    intro x hx
    simp only [List.length_append, length_lit]
    have h1 : ("/" : String).utf8ByteSize = 1 := by decide
    have h2 : (".json" : String).utf8ByteSize = 5 := by decide
    omega
  unfold sessionFile at he
  rw [(cut_eq_self (by decide)).mpr (hfit sid h), (cut_eq_self (by decide)).mpr (hfit sid' h')] at he
  exact List.append_cancel_left (List.append_cancel_right he)

section Step

variable {J : CJsonLines} {d : Dir} {fs : Files} {sid : Str}

/-- A read that stops short loads nothing. -/
theorem loadSession_eq {kvs : List (Str × Json)} (h : fs (sessionFile d sid) = some (J.print (.obj kvs)))
    {read : Option Nat} {session : Json} (hl : loadSession J.toCJson d fs sid read = some session) : session = .obj kvs := by
  unfold loadSession at hl
  split at hl
  · cases hl
  · rw [h, Option.bind_some] at hl
    obtain ⟨text, htext, hparse⟩ := Option.bind_eq_some_iff.mp hl
    obtain ⟨n, -, rfl⟩ := Option.map_eq_some_iff.mp htext
    by_cases hn : n < (J.print (.obj kvs)).length
    · rw [J.parse_cut kvs n hn] at hparse
      cases hparse
    · rw [List.take_of_length_le (by omega), J.parse_print] at hparse
      exact (Option.some.inj hparse).symm

theorem loadSession_some {read : Option Nat} {session : Json} (hl : loadSession J.toCJson d fs sid read = some session) :
    ∃ text, fs (sessionFile d sid) = some text := by
  unfold loadSession at hl
  split at hl
  · cases hl
  · cases hfs : fs (sessionFile d sid) with
    | none =>
      rw [hfs] at hl
      cases hl
    | some text => exact ⟨text, rfl⟩

/-- A call that loads its session finds the one the file holds. -/
theorem load_holds {cur : Option Session} (h : Holds J.toCJson (fs (sessionFile d sid)) cur) {read : Option Nat}
    {session : Json} (hl : loadSession J.toCJson d fs sid read = some session) :
    ∃ kvs a, session = .obj kvs ∧ cur = some a ∧ Encodes (.obj kvs) a := by
  rcases h with ⟨hnone, -⟩ | ⟨kvs, a, htext, hcur, henc⟩
  · obtain ⟨text, htext⟩ := loadSession_some hl
    rw [hnone] at htext
    cases htext
  · exact ⟨kvs, a, loadSession_eq htext hl, hcur, henc⟩

/-- What a call does to the files. -/
structure RunOk (J : CJson) (d : Dir) (fs : Files) (op : Op) (now : Str) (cur : Option Session) (r : Files × Bool) : Prop where
  failed : r.2 = false → r.1 = fs
  others : ∀ p, p ≠ sessionFile d op.sid → r.1 p = fs p
  held : r.2 = true → Holds J (r.1 (sessionFile d op.sid)) (Session.after op.sid cur (op, now))

/-- The save of an object that says what the call makes of the session. -/
theorem runOk_save (op : Op) {now : Str} {cur : Option Session} {a : Session} (ha : Session.after op.sid cur (op, now) = some a)
    {kvs : List (Str × Json)} (henc : Encodes (.obj kvs) a) (saved : Bool) :
    RunOk J.toCJson d fs op now cur (saveSession J.toCJson d fs op.sid saved (.obj kvs)) := by
  unfold saveSession
  cases saved with
  | false => exact ⟨fun _ => rfl, fun _ _ => rfl, fun h => by cases h⟩
  | true =>
    refine ⟨fun h => (by cases h), fun p hp => Function.update_of_ne hp _ _, fun _ => .inr ⟨kvs, a, ?_, ha, henc⟩⟩
    exact Function.update_self _ _ _

theorem run_ok (op : Op) (c : Chance) {cur : Option Session} (h : Holds J.toCJson (fs (sessionFile d op.sid)) cur) :
    RunOk J.toCJson d fs op c.now cur (op.run J.toCJson d fs c) := by
  cases op with
  | create sid type title initiator =>
    exact runOk_save (.create sid type title initiator) (by simp [Session.after, Op.sid]) (encodes_new ..) _
  | addMessage sid mid sender recipient content type =>
    unfold Op.run
    dsimp only
    split
    · exact ⟨fun _ => rfl, fun _ _ => rfl, fun h => by cases h⟩
    · rename_i session hl
      obtain ⟨kvs, a, rfl, rfl, henc⟩ := load_holds h hl
      exact runOk_save (.addMessage sid mid sender recipient content type) (by simp [Session.after, Op.sid])
        (henc.withMessage ⟨mid, sender, recipient, content, type, c.now⟩) _
  | setStatus sid status =>
    unfold Op.run
    dsimp only
    split
    · exact ⟨fun _ => rfl, fun _ _ => rfl, fun h => by cases h⟩
    · rename_i session hl
      obtain ⟨kvs, a, rfl, rfl, henc⟩ := load_holds h hl
      exact runOk_save (.setStatus sid status) (by simp [Session.after, Op.sid]) (henc.withStatus status c.now) _

end Step

/-! ## The store in every run -/

theorem sessionOf_append (done : List (Op × Str)) (e : Op × Str) (sid : Str) :
    sessionOf (done ++ [e]) sid = Session.after sid (sessionOf done sid) e := by
  unfold sessionOf
  rw [List.foldl_append]
  rfl

theorem after_other {sid : Str} {e : Op × Str} (h : e.1.sid ≠ sid) (cur : Option Session) : Session.after sid cur e = cur :=
  if_neg h

/-- Every file holds the session of its calls. -/
def Exact (J : CJson) (d : Dir) (s : Store) : Prop :=
  ∀ sid : Str, sid.length < 12 → Holds J (s.files (sessionFile d sid)) (sessionOf s.done sid)

section Runs

variable {J : CJsonLines} {d : Dir} {s : Store}

theorem call_done (c : Chance) (op : Op) : (s.call J.toCJson d c op).1.done =
    if (s.call J.toCJson d c op).2 then s.done ++ [(op, c.now)] else s.done := rfl

theorem call_exact (h : Exact J.toCJson d s) (op : Op) (hlen : op.sid.length < 12) (c : Chance) :
    Exact J.toCJson d (s.call J.toCJson d c op).1 := by
  have hok := run_ok op c (h op.sid hlen)
  intro sid hsid
  rw [call_done]
  by_cases hsame : op.sid = sid
  · subst hsame
    split
    · rw [sessionOf_append]
      exact hok.held ‹_›
    · rename_i hfail
      have hf : (s.call J.toCJson d c op).2 = false := by simpa using hfail
      have hfiles : (s.call J.toCJson d c op).1.files = s.files := hok.failed hf
      rw [hfiles]
      exact h op.sid hsid
  · have hpath : sessionFile d sid ≠ sessionFile d op.sid := fun he => hsame (sessionFile_inj d hsid hlen he).symm
    have hfiles : (s.call J.toCJson d c op).1.files (sessionFile d sid) = s.files (sessionFile d sid) := hok.others _ hpath
    rw [hfiles]
    split
    · rw [sessionOf_append, after_other hsame]
      exact h sid hsid
    · exact h sid hsid

theorem after_add (sid mid sender : Str) (recipient : Option Str) (content : Str) (type : MsgType) (now : Str) (a : Session) :
    Session.after sid (some a) (.addMessage sid mid sender recipient content type, now) =
      some (a.add ⟨mid, sender, recipient, content, type, now⟩) := if_pos rfl

theorem after_mark (sid : Str) (status : Status) (now : Str) (a : Session) :
    Session.after sid (some a) (.setStatus sid status, now) = some (a.mark status now) := if_pos rfl

theorem exact_init (J : CJson) (d : Dir) : Exact J d (store J d).init := fun _ _ => .inl ⟨rfl, rfl⟩

end Runs

theorem mem_involve {agents : List Str} {name n : Str} :
    n ∈ involve agents name ↔ n ∈ agents ∨ (n = name ∧ n ≠ [] ∧ n ∉ ignored) := by
  unfold involve
  split
  · rename_i h
    refine ⟨.inl, ?_⟩
    rintro (hn | ⟨rfl, h0, hi⟩)
    · exact hn
    · exact (h.resolve_left h0).resolve_left hi
  · rename_i h
    rw [List.mem_append, List.mem_singleton]
    refine or_congr_right ⟨fun he => ?_, And.left⟩
    subst he
    exact ⟨rfl, fun h0 => h (.inl h0), fun hi => h (.inr (.inl hi))⟩

theorem involve_nodup {agents : List Str} (h : agents.Nodup) (name : Str) : (involve agents name).Nodup := by
  unfold involve
  split
  · exact h
  · rename_i hnew
    rw [List.nodup_append]
    refine ⟨h, List.nodup_singleton _, fun a ha b hb => ?_⟩
    rw [List.mem_singleton.mp hb]
    rintro rfl
    exact hnew (.inr (.inr ha))

theorem foldl_involve (names : List Str) {agents : List Str} (h : agents.Nodup) :
    (names.foldl involve agents).Nodup ∧
      ∀ n, n ∈ names.foldl involve agents ↔ n ∈ agents ∨ (n ∈ names ∧ n ≠ [] ∧ n ∉ ignored) := by
  induction names generalizing agents with
  | nil => exact ⟨h, fun n => by simp⟩
  | cons name names ih =>
    obtain ⟨hnodup, hmem⟩ := ih (involve_nodup h name)
    refine ⟨hnodup, fun n => (hmem n).trans ?_⟩
    rw [mem_involve, List.mem_cons]
    tauto

/-- Each agent that sent or received a message once, and nobody else. -/
theorem agents_exact (a : Session) : a.agents.Nodup ∧ ∀ n, n ∈ a.agents ↔
    (∃ m ∈ a.messages, n = m.sender ∨ m.recipient = some n) ∧ n ≠ [] ∧ n ∉ ignored := by
  obtain ⟨hnodup, hmem⟩ := foldl_involve (a.messages.flatMap fun m => m.sender :: m.recipient.toList) List.nodup_nil
  refine ⟨hnodup, fun n => (hmem n).trans ?_⟩
  simp [List.mem_flatMap, Option.mem_toList]

/-- The files are what the calls that returned 0 make, in the order they got the lock. -/
theorem store_exact (J : CJsonLines) (d : Dir) (s : Store)
    (h : (store J.toCJson d).Reach (fun _ e => e.1.sid.length < 12) s) :
    Exact J.toCJson d s ∧
    (∀ c op, op.sid.length < 12 → (s.call J.toCJson d c op).2 = false → (s.call J.toCJson d c op).1 = s) ∧
    ∀ sid a, sessionOf s.done sid = some a → a.agents.Nodup ∧ ∀ n, n ∈ a.agents ↔
      (∃ m ∈ a.messages, n = m.sender ∨ m.recipient = some n) ∧ n ≠ [] ∧ n ∉ ignored := by
  have hexact : Exact J.toCJson d s := by
    refine h.invariant (I := Exact J.toCJson d) (exact_init _ _) fun s e s' hI hok hs => ?_
    cases hs
    exact call_exact hI e.1 hok e.2
  refine ⟨hexact, fun c op hlen hfail => ?_, fun _ a _ => agents_exact a⟩
  have hfiles : (s.call J.toCJson d c op).1.files = s.files := (run_ok op c (hexact op.sid hlen)).failed hfail
  have hdone : (s.call J.toCJson d c op).1.done = s.done := by rw [call_done, if_neg (by simp [hfail])]
  exact Store.ext hfiles hdone

/-- A call with the whole file read and the save done. -/
def calm (now : Str) : Chance := ⟨now, some 4096, true⟩

def logDir : Dir := sessionStoreInit (lit "data/sessions")

/-- A session, a message that cannot be saved and one that can. -/
def twoMessages : List (Op × Chance) :=
  [(.create (lit "a1") (lit "irc") (lit "irc from owner for ada") (some (lit "owner")), calm (lit "t0")),
    (.addMessage (lit "a1") (lit "m1") (lit "owner") (some (lit "ada")) (lit "hi") .text, ⟨lit "t1", some 4096, false⟩),
    (.addMessage (lit "a1") (lit "m2") (lit "ada") (some []) (lit "hello") .text, calm (lit "t2"))]

theorem store_exact_messages : ∃ s, (store CJson.compact logDir).Reach (fun _ e => e.1.sid.length < 12) s ∧
    (sessionOf s.done (lit "a1")).map (·.agents) = some [lit "ada"] ∧ Exact CJson.compact logDir s := by
  have hrun : ((store CJson.compact logDir).replay (fun _ e => e.1.sid.length < 12) (store CJson.compact logDir).init
      twoMessages).map (fun s => (sessionOf s.done (lit "a1")).map (·.agents)) = some (some [lit "ada"]) := by decide +kernel
  obtain ⟨s, hs, hagents⟩ := Option.map_eq_some_iff.mp hrun
  have hreach := System.Reach.replay .init hs
  exact ⟨s, hreach, hagents, (store_exact CJsonLines.compact logDir s hreach).1⟩

/-! ## The daemon's sessions -/

/-- `agent_run_session`'s outcome, or that its thread could not be created. -/
inductive Outcome where
  | completed
  | failed
  | noThread
  deriving DecidableEq

inductive Stage where
  | created
  | told
  | running
  /-- `session_set_status` was called (not without an id) and returned 0 or not. -/
  | over (outcome : Outcome) (saved : Bool)
  deriving DecidableEq

/-- A session as the daemon knows it: `sid` is empty when it could not be created. -/
structure Run where
  sid : Str
  agent : Str
  type : TriggerType
  text : Str
  /-- The owner's message was saved. -/
  told : Bool
  stage : Stage

structure Daemon where
  store : Store
  runs : List Run

/-- `kinds`. -/
def kind : TriggerType → Str
  | .irc => lit "irc"
  | .schedule => lit "schedule"
  | .agentMsg => lit "agent_message"

def title (type : TriggerType) (initiator agent : Str) : Str :=
  cut 128 (kind type ++ lit " from " ++ initiator ++ lit " for " ++ agent)

inductive Ev where
  /-- `start_session`, to its `session_create`, then to its message, then its thread. -/
  | begin (agent : Str) (type : TriggerType) (data initiator sid : Str) (c : Chance)
  | tell (k : Nat) (mid : Str) (c : Chance)
  | spawn (k : Nat) (thread : Bool) (c : Chance)
  /-- A message of the session's thread. -/
  | message (k : Nat) (mid sender : Str) (recipient : Option Str) (content : Str) (type : MsgType) (c : Chance)
  | finish (k : Nat) (completed : Bool) (c : Chance)

section

variable (J : CJson) (d : Dir)

/-- The last call for a session: `SESS_CLOSED` only for a completed one. -/
def Daemon.close (s : Daemon) (k : Nat) (r : Run) (outcome : Outcome) (c : Chance) : Daemon :=
  if r.sid = [] then { s with runs := s.runs.set k { r with stage := .over outcome false } }
  else
    let q := s.store.call J d c (.setStatus r.sid (if outcome = .completed then .closed else .failed))
    ⟨q.1, s.runs.set k { r with stage := .over outcome q.2 }⟩

def Daemon.step (s : Daemon) : Ev → Option Daemon
  | .begin agent type data initiator sid c =>
    let q := s.store.call J d c (.create sid (kind type) (title type initiator agent) (some initiator))
    some ⟨q.1, s.runs ++ [⟨if q.2 then sid else [], agent, type, data, false, .created⟩]⟩
  | .tell k mid c =>
    (s.runs[k]?).bind fun r =>
      if r.stage ≠ .created then none
      else if r.type ≠ .irc then some { s with runs := s.runs.set k { r with stage := .told } }
      else
        let q := s.store.call J d c (.addMessage r.sid mid (lit "owner") (some r.agent) r.text .text)
        some ⟨q.1, s.runs.set k { r with
          told := q.2
          stage := .told }⟩
  | .spawn k thread c =>
    (s.runs[k]?).bind fun r =>
      if r.stage ≠ .told then none
      else if thread then some { s with runs := s.runs.set k { r with stage := .running } }
      else some (s.close J d k r .noThread c)
  | .message k mid sender recipient content type c =>
    (s.runs[k]?).bind fun r =>
      if r.stage ≠ .running then none
      else some { s with store := (s.store.call J d c (.addMessage r.sid mid sender recipient content type)).1 }
  | .finish k completed c =>
    (s.runs[k]?).bind fun r =>
      if r.stage ≠ .running then none else some (s.close J d k r (if completed then .completed else .failed) c)

def daemon : System Daemon Ev where
  init := ⟨(Sessions.store J d).init, []⟩
  step s e := s.step J d e

end

/-- `uuid_short` draws ids of ten digits and none twice. -/
def FreshIds (s : Daemon) : Ev → Prop
  | .begin _ _ _ _ sid _ => sid ≠ [] ∧ sid.length < 12 ∧ ∀ r ∈ s.runs, r.sid ≠ sid
  | _ => True

/-- The status a session's record has. -/
def Run.status (r : Run) : Status :=
  match r.stage with
  | .over outcome true => if outcome = .completed then .closed else .failed
  | _ => .active

/-- The owner's message to the session. -/
def Run.opening (r : Run) (m : Message) : Prop :=
  m.sender = lit "owner" ∧ m.recipient = some r.agent ∧ m.content = r.text ∧ m.type = .text

/-- The record is that of the session. -/
structure Follows (r : Run) (a : Session) : Prop where
  status : a.status = r.status
  kind : a.triggerType = kind r.type
  opening : r.told = true → ∃ m, a.messages.head? = some m ∧ r.opening m
  fresh : r.stage = .created → a.messages = [] ∧ r.told = false

structure Inv (J : CJson) (d : Dir) (s : Daemon) : Prop where
  exact : Exact J d s.store
  short : ∀ r ∈ s.runs, r.sid.length < 12
  apart : ∀ (k l : Nat) (r r' : Run), s.runs[k]? = some r → s.runs[l]? = some r' → r.sid ≠ [] → r.sid = r'.sid → k = l
  holds : ∀ r ∈ s.runs, r.sid ≠ [] → ∃ a, sessionOf s.store.done r.sid = some a ∧ Follows r a
  owned : ∀ sid, sessionOf s.store.done sid ≠ none → sid ≠ [] ∧ ∃ r ∈ s.runs, r.sid = sid

section Daemon

variable {J : CJsonLines} {d : Dir} {s : Daemon}

theorem sessionOf_call (st : Store) (c : Chance) (op : Op) (sid : Str) : sessionOf (st.call J.toCJson d c op).1.done sid =
    if (st.call J.toCJson d c op).2 = true ∧ op.sid = sid then Session.after sid (sessionOf st.done sid) (op, c.now)
    else sessionOf st.done sid := by
  rw [call_done]
  by_cases hret : (st.call J.toCJson d c op).2 = true
  · rw [if_pos hret, sessionOf_append]
    by_cases hsid : op.sid = sid
    · rw [if_pos ⟨hret, hsid⟩]
    · rw [if_neg fun h => hsid h.2, after_other hsid]
  · rw [if_neg hret, if_neg fun h => hret h.1]

/-- A run changes, and the store at most at its session. -/
theorem inv_set (h : Inv J.toCJson d s) {k : Nat} {r r' : Run} (hr : s.runs[k]? = some r) (hsid : r'.sid = r.sid)
    {store' : Store} (hexact : Exact J.toCJson d store')
    (hother : ∀ sid, sid ≠ r.sid ∨ sid = [] → sessionOf store'.done sid = sessionOf s.store.done sid)
    (hown : ∀ a, sessionOf s.store.done r.sid = some a → Follows r a →
      ∃ a', sessionOf store'.done r.sid = some a' ∧ Follows r' a') :
    Inv J.toCJson d ⟨store', s.runs.set k r'⟩ := by
  obtain ⟨hk, hrk⟩ := List.getElem?_eq_some_iff.mp hr
  have hmem : r ∈ s.runs := hrk ▸ List.getElem_mem hk
  have hset : ∀ l x, (s.runs.set k r')[l]? = some x → (l = k ∧ x = r') ∨ (l ≠ k ∧ s.runs[l]? = some x) := by
    intro l x hx
    rw [List.getElem?_set, if_pos hk] at hx
    split at hx
    · rename_i hkl
      cases hx
      exact .inl ⟨hkl.symm, rfl⟩
    · exact .inr ⟨Ne.symm ‹_›, hx⟩
  refine ⟨hexact, fun x hx => ?_, fun l m x y hx hy hne hxy => ?_, fun x hx hne => ?_, fun sid hsome => ?_⟩
  · rcases List.mem_or_eq_of_mem_set hx with hx | rfl
    · exact h.short x hx
    · exact hsid ▸ h.short r hmem
  · rcases hset l x hx with ⟨rfl, rfl⟩ | ⟨hlk, hx⟩
    · rcases hset m y hy with ⟨rfl, -⟩ | ⟨-, hy⟩
      · rfl
      · exact h.apart l m r y hr hy (hsid ▸ hne) (hsid.symm.trans hxy)
    · rcases hset m y hy with ⟨hmk, hyr⟩ | ⟨-, hy⟩
      · rw [hmk]
        exact h.apart l k x r hx hr hne (by rw [hxy, hyr, hsid])
      · exact h.apart l m x y hx hy hne hxy
  · obtain ⟨l, hl⟩ := List.getElem?_of_mem hx
    rcases hset l x hl with ⟨-, rfl⟩ | ⟨hlk, hl⟩
    · rw [hsid] at hne ⊢
      obtain ⟨a, ha, hfollows⟩ := h.holds r hmem hne
      exact hown a ha hfollows
    · have hxr : x.sid ≠ r.sid := fun he => hlk (h.apart l k x r hl hr hne he)
      obtain ⟨a, ha, hfollows⟩ := h.holds x (List.mem_of_getElem? hl) hne
      exact ⟨a, by rw [hother x.sid (.inl hxr), ha], hfollows⟩
  · by_cases hr0 : sid = r.sid ∧ sid ≠ []
    · exact ⟨hr0.2, r', List.mem_set hk _, hsid.trans hr0.1.symm⟩
    · have hsame : sid ≠ r.sid ∨ sid = [] := by tauto
      rw [hother sid hsame] at hsome
      obtain ⟨hne, x, hx, hxs⟩ := h.owned sid hsome
      obtain ⟨l, hl⟩ := List.getElem?_of_mem hx
      have hlk : k ≠ l := by
        rintro rfl
        rw [hr] at hl
        cases hl
        exact hr0 ⟨hxs.symm, hne⟩
      exact ⟨hne, x, List.mem_of_getElem? (by rw [List.getElem?_set, if_neg hlk, hl]), hxs⟩

/-- A call for a run's session, other than a create: it returns 0 and the session follows the run's
    change, or it does not and the session is as it was. -/
theorem inv_call (h : Inv J.toCJson d s) {k : Nat} {r r' : Run} (hr : s.runs[k]? = some r) (hsid : r'.sid = r.sid)
    (op : Op) (hop : op.sid = r.sid) (hcreate : ∀ sid type title initiator, op ≠ .create sid type title initiator) (c : Chance)
    (hfail : (s.store.call J.toCJson d c op).2 = false → ∀ a, Follows r a → Follows r' a)
    (hdone : (s.store.call J.toCJson d c op).2 = true → ∀ a, Follows r a →
      ∃ a', Session.after r.sid (some a) (op, c.now) = some a' ∧ Follows r' a') :
    Inv J.toCJson d ⟨(s.store.call J.toCJson d c op).1, s.runs.set k r'⟩ := by
  have hmem : r ∈ s.runs := List.mem_of_getElem? hr
  refine inv_set h hr hsid (call_exact h.exact op (hop ▸ h.short r hmem) c) (fun sid hne => ?_) (fun a ha hfollows => ?_)
  · rw [sessionOf_call]
    split
    · rename_i hret
      rcases hne with hne | rfl
      · exact absurd (hret.2.symm.trans hop) hne
      · -- without an id nothing is loaded
        have hempty : (op.run J.toCJson d s.store.files c).2 = true := hret.1
        have h0 := hret.2
        cases op with
        | create sid type title initiator => exact absurd rfl (hcreate sid type title initiator)
        | addMessage sid mid sender recipient content type =>
          simp only [Op.sid] at h0
          simp [Op.run, loadSession, h0] at hempty
        | setStatus sid status =>
          simp only [Op.sid] at h0
          simp [Op.run, loadSession, h0] at hempty
    · rfl
  · rw [sessionOf_call]
    cases hret : (s.store.call J.toCJson d c op).2 with
    | false => exact ⟨a, by rw [if_neg (by simp), ha], hfail hret a hfollows⟩
    | true =>
      obtain ⟨a', ha', hfollows'⟩ := hdone hret a hfollows
      exact ⟨a', by rw [if_pos ⟨rfl, hop⟩, ha, ha'], hfollows'⟩

theorem inv_runs (h : Inv J.toCJson d s) {k : Nat} {r r' : Run} (hr : s.runs[k]? = some r) (hsid : r'.sid = r.sid)
    (hkeep : ∀ a, Follows r a → Follows r' a) : Inv J.toCJson d { s with runs := s.runs.set k r' } :=
  inv_set h hr hsid h.exact (fun _ _ => rfl) fun a ha hfollows => ⟨a, ha, hkeep a hfollows⟩

/-- The last call of a session that was active. -/
theorem inv_close (h : Inv J.toCJson d s) {k : Nat} {r : Run} (hr : s.runs[k]? = some r) (hactive : r.status = .active)
    (outcome : Outcome) (c : Chance) : Inv J.toCJson d (s.close J.toCJson d k r outcome c) := by
  unfold Daemon.close
  split
  · refine inv_runs h hr rfl fun a hf => ⟨?_, hf.kind, hf.opening, fun hst => by cases hst⟩
    rw [hf.status, hactive]
    rfl
  · dsimp only
    refine inv_call h hr (by rfl) (.setStatus r.sid (if outcome = .completed then .closed else .failed)) rfl
      (fun _ _ _ _ he => by cases he) c (fun hret a hf => ?_) (fun hret a hf => ?_)
    · rw [hret]
      refine ⟨?_, hf.kind, hf.opening, fun hst => by cases hst⟩
      rw [hf.status, hactive]
      rfl
    · rw [hret]
      refine ⟨_, after_mark .., ⟨?_, hf.kind, hf.opening, fun hst => by cases hst⟩⟩
      simp [Run.status, Session.mark]

theorem inv_begin (h : Inv J.toCJson d s) {agent data initiator sid : Str} {type : TriggerType} {c : Chance}
    (hfresh : FreshIds s (.begin agent type data initiator sid c)) {s' : Daemon}
    (hs : s.step J.toCJson d (.begin agent type data initiator sid c) = some s') : Inv J.toCJson d s' := by
  obtain ⟨hne, hlen, hnew⟩ := hfresh
  cases hs
  set op : Op := .create sid (kind type) (title type initiator agent) (some initiator)
  have hold : ∀ x ∈ s.runs, x.sid ≠ [] → sessionOf (s.store.call J.toCJson d c op).1.done x.sid =
      sessionOf s.store.done x.sid := by
    intro x hx _
    rw [sessionOf_call, if_neg fun hret => hnew x hx hret.2.symm]
  have hfree : sessionOf s.store.done sid = none := by
    by_contra hsome
    obtain ⟨-, x, hx, hxs⟩ := h.owned sid hsome
    exact hnew x hx hxs
  have hget : ∀ (k : Nat) (x : Run), (s.runs ++
      [⟨if (s.store.call J.toCJson d c op).2 then sid else [], agent, type, data, false, .created⟩])[k]? = some x →
      s.runs[k]? = some x ∨ (k = s.runs.length ∧ x.sid = (if (s.store.call J.toCJson d c op).2 then sid else [])) := by
    intro k x hx
    rw [List.getElem?_append] at hx
    split at hx
    · exact .inl hx
    · rw [List.getElem?_singleton] at hx
      split at hx
      · cases hx
        exact .inr ⟨by omega, rfl⟩
      · cases hx
  have hnewsid : ∀ x ∈ s.runs, ∀ y : Run, y.sid = (if (s.store.call J.toCJson d c op).2 then sid else []) → y.sid ≠ [] →
      x.sid ≠ y.sid := by
    intro x hx y hy hy0 hxy
    split at hy
    · exact hnew x hx (hxy.trans hy)
    · exact hy0 hy
  refine ⟨call_exact h.exact op hlen c, fun x hx => ?_, fun k l x y hx hy hx0 hxy => ?_, fun x hx hx0 => ?_, fun sid' hsome => ?_⟩
  · rcases List.mem_append.mp hx with hx | hx
    · exact h.short x hx
    · rw [List.mem_singleton.mp hx]
      dsimp only
      split
      · exact hlen
      · exact Nat.zero_lt_succ _
  · rcases hget k x hx with hx | ⟨hk, hx⟩
    · rcases hget l y hy with hy | ⟨hl, hy⟩
      · exact h.apart k l x y hx hy hx0 hxy
      · exact absurd hxy (hnewsid x (List.mem_of_getElem? hx) y hy (hxy ▸ hx0))
    · rcases hget l y hy with hy | ⟨hl, hy⟩
      · exact absurd hxy.symm (hnewsid y (List.mem_of_getElem? hy) x hx hx0)
      · rw [hk, hl]
  · rcases List.mem_append.mp hx with hx | hx
    · obtain ⟨a, ha, hf⟩ := h.holds x hx hx0
      exact ⟨a, by rw [hold x hx hx0, ha], hf⟩
    · rw [List.mem_singleton.mp hx] at hx0 ⊢
      cases hret : (s.store.call J.toCJson d c op).2 with
      | false =>
        rw [hret] at hx0
        exact absurd rfl hx0
      | true =>
        refine ⟨⟨sid, kind type, title type initiator agent, initiator, c.now, c.now, .active, []⟩, ?_, rfl, rfl,
          fun htold => (by cases htold), fun _ => ⟨rfl, rfl⟩⟩
        rw [sessionOf_call, hret]
        simp [Session.after, op, Op.sid]
  · dsimp only at hsome
    rw [sessionOf_call] at hsome
    split at hsome
    · rename_i hret
      obtain rfl : sid = sid' := hret.2
      refine ⟨hne, _, List.mem_append_right _ (List.mem_singleton_self _), ?_⟩
      simp [hret.1]
    · obtain ⟨hne', x, hx, hxs⟩ := h.owned sid' hsome
      exact ⟨hne', x, List.mem_append_left _ hx, hxs⟩

theorem inv_step (h : Inv J.toCJson d s) {e : Ev} (hok : FreshIds s e) {s' : Daemon} (hs : s.step J.toCJson d e = some s') :
    Inv J.toCJson d s' := by
  cases e with
  | begin agent type data initiator sid c => exact inv_begin h hok hs
  | tell k mid c =>
    obtain ⟨r, hr, hs⟩ := Option.bind_eq_some_iff.mp hs
    split at hs
    · cases hs
    rename_i hst
    have hst : r.stage = .created := by simpa using hst
    have hactive : r.status = .active := by rw [Run.status, hst]
    split at hs
    · cases hs
      refine inv_runs h hr rfl fun a hf => ⟨?_, hf.kind, hf.opening, fun hst => by cases hst⟩
      rw [hf.status, hactive]
      rfl
    · cases hs
      refine inv_call h hr (by rfl) (.addMessage r.sid mid (lit "owner") (some r.agent) r.text .text) rfl
        (fun _ _ _ _ he => by cases he) c (fun hret a hf => ?_) (fun hret a hf => ?_)
      · rw [hret]
        refine ⟨?_, hf.kind, fun htold => (by cases htold), fun hst => (by cases hst)⟩
        rw [hf.status, hactive]
        rfl
      · refine ⟨_, after_add .., ⟨hf.status.trans hactive, hf.kind, fun _ => ?_, fun hst => (by cases hst)⟩⟩
        rw [Session.add, (hf.fresh hst).1]
        exact ⟨_, rfl, rfl, rfl, rfl, rfl⟩
  | spawn k thread c =>
    obtain ⟨r, hr, hs⟩ := Option.bind_eq_some_iff.mp hs
    split at hs
    · cases hs
    rename_i hst
    have hst : r.stage = .told := by simpa using hst
    have hactive : r.status = .active := by rw [Run.status, hst]
    split at hs
    · cases hs
      refine inv_runs h hr rfl fun a hf => ⟨?_, hf.kind, hf.opening, fun hst => by cases hst⟩
      rw [hf.status, hactive]
      rfl
    · cases hs
      exact inv_close h hr hactive _ c
  | message k mid sender recipient content type c =>
    obtain ⟨r, hr, hs⟩ := Option.bind_eq_some_iff.mp hs
    split at hs
    · cases hs
    rename_i hst
    have hst : r.stage = .running := by simpa using hst
    cases hs
    have hset : s.runs.set k r = s.runs := by
      obtain ⟨hk, rfl⟩ := List.getElem?_eq_some_iff.mp hr
      exact List.set_getElem_self hk
    rw [← hset]
    refine inv_call h hr rfl (.addMessage r.sid mid sender recipient content type) rfl (fun _ _ _ _ he => by cases he) c
      (fun _ a hf => hf) (fun _ a hf => ?_)
    refine ⟨_, after_add .., ⟨hf.status, hf.kind, fun htold => ?_, fun hc => ?_⟩⟩
    · obtain ⟨m, hm, hopening⟩ := hf.opening htold
      exact ⟨m, by rw [Session.add, List.head?_append, hm]; rfl, hopening⟩
    · rw [hst] at hc
      cases hc
  | finish k completed c =>
    obtain ⟨r, hr, hs⟩ := Option.bind_eq_some_iff.mp hs
    split at hs
    · cases hs
    rename_i hst
    have hst : r.stage = .running := by simpa using hst
    cases hs
    exact inv_close h hr (by rw [Run.status, hst]) _ c

theorem inv_init (J : CJson) (d : Dir) : Inv J d (daemon J d).init where
  exact := exact_init J d
  short r hr := absurd hr List.not_mem_nil
  apart k l r r' hr := by cases hr
  holds r hr := absurd hr List.not_mem_nil
  owned sid hsome := absurd rfl hsome

end Daemon

/-- Every session's file has the status its thread came to, and every file is a session's. -/
theorem status_follows (J : CJsonLines) (d : Dir) (s : Daemon) (h : (daemon J.toCJson d).Reach FreshIds s) :
    (∀ r ∈ s.runs, r.sid ≠ [] → ∃ kvs a, s.store.files (sessionFile d r.sid) = some (J.print (.obj kvs)) ∧
      Encodes (.obj kvs) a ∧ Follows r a) ∧
    ∀ sid : Str, sid.length < 12 → s.store.files (sessionFile d sid) ≠ none → ∃ r ∈ s.runs, r.sid = sid := by
  have hI : Inv J.toCJson d s := h.invariant (I := Inv J.toCJson d) (inv_init _ _) fun _ _ _ hI hok hs => inv_step hI hok hs
  refine ⟨fun r hr hne => ?_, fun sid hlen hsome => ?_⟩
  · obtain ⟨a, ha, hf⟩ := hI.holds r hr hne
    rcases hI.exact r.sid (hI.short r hr) with ⟨-, hnone⟩ | ⟨kvs, a', htext, ha', henc⟩
    · rw [ha] at hnone
      cases hnone
    · rw [ha] at ha'
      cases ha'
      exact ⟨kvs, a, htext, henc, hf⟩
  · rcases hI.exact sid hlen with ⟨hnone, -⟩ | ⟨kvs, a, -, ha, -⟩
    · exact absurd hnone hsome
    · exact (hI.owned sid (by rw [ha]; simp)).2

/-- The owner's message and its answer, in a session that completes. -/
def answered : List Ev :=
  [.begin (lit "ada") .irc (lit "hi") (lit "owner") (lit "a1") (calm (lit "t0")), .tell 0 (lit "m1") (calm (lit "t1")),
    .spawn 0 true (calm (lit "t1")), .message 0 (lit "m2") (lit "ada") (some []) (lit "hello") .text (calm (lit "t2")),
    .finish 0 true (calm (lit "t3"))]

/-- One session, with the id `a1`. -/
def OnlyA1 (s : Daemon) : Ev → Bool
  | .begin _ _ _ _ sid _ => sid = lit "a1" && s.runs.isEmpty
  | _ => true

theorem status_follows_closed : ∃ s, (daemon CJson.compact logDir).Reach FreshIds s ∧
    (s.runs.map fun r => (r.status, r.told)) = [(.closed, true)] ∧
    ∀ r ∈ s.runs, r.sid ≠ [] → ∃ kvs a, s.store.files (sessionFile logDir r.sid) = some (CJson.compact.print (.obj kvs)) ∧
      Encodes (.obj kvs) a ∧ Follows r a := by
  have hrun : ((daemon CJson.compact logDir).replay (fun s e => OnlyA1 s e = true) (daemon CJson.compact logDir).init
      answered).map (fun s => s.runs.map fun r => (r.status, r.told)) = some [(.closed, true)] := by decide +kernel
  obtain ⟨s, hs, hruns⟩ := Option.map_eq_some_iff.mp hrun
  have hreach : (daemon CJson.compact logDir).Reach FreshIds s := by
    refine (System.Reach.replay .init hs).mono fun s e hok => ?_
    cases e with
    | begin agent type data initiator sid c =>
      simp only [OnlyA1, Bool.and_eq_true, decide_eq_true_eq, List.isEmpty_iff] at hok
      rw [FreshIds, hok.1, hok.2]
      exact ⟨by decide, by decide, fun r hr => absurd hr List.not_mem_nil⟩
    | _ => trivial
  exact ⟨s, hreach, hruns, (status_follows CJsonLines.compact logDir s hreach).1⟩

end Shclaw.Sessions
