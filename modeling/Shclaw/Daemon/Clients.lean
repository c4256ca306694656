/-
  Shclaw.Daemon.Clients — the descriptors of the main loop (`src/daemon.c`: the loop of
  `daemon_run`, `handle_new_client`, `handle_tui_client`, `remove_tui_client`,
  `daemon_tui_broadcast`; `irc_lost` and `irc_maintain` as far as they open and close).

  Actors. The main thread polls the IRC link, the listening socket and the attached
  clients, and goes through what `poll` reported. Session threads open and close
  descriptors of their own and write lines to the attached clients, at any point of a
  pass but under `tui_lock`. A number is free again once its descriptor is closed, and
  any descriptor opened next can get it.

  A client is kept as a number. Its connection is ghost state, and so is how many lines
  were broadcast before it attached. `touched` logs each use of a client's number:
  the connection meant, and the file the number named then. What is read of a client is
  an argument of the step, a result of `sock_read_cmd`.

  `clients_safe`, in every run: at most eight clients; every use of a number reaches the
  connection meant, in the poll set of a pass too; each client attached was sent every
  line broadcast since, in order and once; the descriptors open are those of the link,
  the socket, the clients, the connection being greeted and the rest of the process, and
  after the shutdown those of the rest of the process only.
-/

import Shclaw.Lib.Descriptors
import Shclaw.Lib.Runs
import Shclaw.Socket

namespace Shclaw.Daemon

open Lib Socket

namespace Clients

/-! ## The system -/

structure Client where
  fd : Nat
  conn : Nat
  since : Nat
  deriving DecidableEq

/-- What `poll` reports: the clients with events, and whether there is input. -/
structure Ready where
  irc : Bool
  sock : Bool
  clients : List (Client × Bool)

/-- Where the main thread stands. -/
inductive Site where
  | top
  | polling (set : List Client)
  | link (r : Ready)
  | listen (rest : List (Client × Bool))
  | greet (fd conn : Nat) (rest : List (Client × Bool))
  | serve (rest : List (Client × Bool))
  | closing
  | ended

structure St where
  fds : Descriptors
  irc : Option Nat
  sock : Option Nat
  clients : List Client
  /-- Of the rest of the process. -/
  others : List Nat
  shutdown : Bool
  site : Site
  told : List Trigger
  touched : List (Nat × Option Nat)
  lines : List Str
  /-- What was written, by the file that got it. -/
  sent : List (Option Nat × Str)

/-- `irc_maintain`: the link is left alone, lost, or a new one stands. -/
inductive Upkeep where
  | keep
  | lost
  | linked (fd : Nat)

inductive Ev where
  | collect
  | poll (r : Ready)
  /-- `irc_poll`. -/
  | heard (ok : Bool)
  | accept (fd : Option Nat)
  | command (cmd : Option Cmd)
  | maintain (u : Upkeep)
  | finish
  | openOther (fd : Nat)
  | closeOther (fd : Nat)
  | broadcast (agent : Option Str) (text : Str)

def cmdAttach : UInt32 := 1

def cmdStop : UInt32 := 6

def maxClients : Nat := 8

/-- A new descriptor, if the number is free. -/
def St.openFd (s : St) (fd : Nat) : Option St :=
  if h : s.fds.file fd = none then some { s with fds := s.fds.opened fd h } else none

def St.closeFd (s : St) (fd : Nat) : St := { s with fds := s.fds.close fd }

/-- A client's number is used. -/
def St.touch (s : St) (conn fd : Nat) : St := { s with touched := s.touched ++ [(conn, s.fds.file fd)] }

/-- `irc_disconnect`. -/
def St.hangUp (s : St) : St :=
  match s.irc with
  | none => s
  | some fd => { s.closeFd fd with irc := none }

/-- `remove_tui_client`. -/
def St.remove (s : St) (i : Nat) : St :=
  match s.clients[i]? with
  | none => s
  | some c => { (s.touch c.conn c.fd).closeFd c.fd with clients := fillGap s.clients i }

/-- The connection being greeted is closed. -/
def St.dismiss (s : St) (fd conn : Nat) : St := (s.touch conn fd).closeFd fd

/-- `handle_new_client`, from what `sock_read_cmd` made of the connection. -/
def St.greeted (s : St) (fd conn : Nat) (cmd : Option Cmd) : St :=
  match cmd with
  | none => s.dismiss fd conn
  | some c =>
    if c.ret < 0 then s.dismiss fd conn
    else if c.type = cmdStop then { s.dismiss fd conn with shutdown := true }
    else if c.type = cmdAttach ∧ s.clients.length < maxClients then
      { s with clients := s.clients ++ [⟨fd, conn, s.lines.length⟩] }
    else if c.type = cmdMsgType then { s.dismiss fd conn with told := s.told ++ (routeMsg c.data c.ret (lit "socket")).toList }
    else s.dismiss fd conn

/-- `handle_tui_client`, for a client that was polled. -/
def St.served (s : St) (c : Client) (input : Bool) (cmd : Option Cmd) : St :=
  let i := s.clients.findIdx fun d => d.fd = c.fd
  if s.clients.length ≤ i then s
  else
    let s := s.touch c.conn c.fd
    match if input then cmd else none with
    | none => s.remove i
    | some m =>
      if m.ret < 0 ∨ m.type = cmdDetach then s.remove i
      else if m.type = cmdMsgType then { s with told := s.told ++ (routeMsg m.data m.ret (lit "tui")).toList }
      else s

/-- The line of `daemon_tui_broadcast`. -/
def broadcastLine (agent : Option Str) (text : Str) : Str :=
  cut bufLg (match agent with | some a => a ++ lit ": " ++ text | none => text)

/-- Each write, and the `shutdown` after one that fails. -/
def St.broadcast (s : St) (line : Str) : St :=
  { s with
    lines := s.lines ++ [line]
    sent := s.sent ++ s.clients.map fun (c : Client) => (s.fds.file c.fd, line)
    touched := s.touched ++ s.clients.map fun (c : Client) => (c.conn, s.fds.file c.fd) }

/-- The last part of `daemon_run`. -/
def St.finished (s : St) : St :=
  let s := s.hangUp
  let s := { s.clients.foldl (fun t c => t.dismiss c.fd c.conn) s with clients := [] }
  match s.sock with
  | none => s
  | some fd => { s.closeFd fd with sock := none }

/-- The poll set is built, under `tui_lock`. -/
def St.collect (s : St) : Option St :=
  match s.site with
  | .top => some { s with site := if s.shutdown then .closing else .polling s.clients }
  | _ => none

/-- `poll` returns. -/
def St.poll (s : St) (r : Ready) : Option St :=
  match s.site with
  | .polling set =>
    if (r.clients.map Prod.fst).Sublist set ∧ (r.irc → s.irc.isSome) ∧ (r.sock → s.sock.isSome) then
      some { s with site := .link r }
    else none
  | _ => none

/-- `irc_poll`, and `irc_lost` if it fails. -/
def St.heard (s : St) (ok : Bool) : Option St :=
  match s.site with
  | .link r =>
    let s := if r.irc && !ok then s.hangUp else s
    some { s with site := if r.sock then .listen r.clients else .serve r.clients }
  | _ => none

/-- `accept`, and its result. -/
def St.accept (s : St) (fd : Option Nat) : Option St :=
  match s.site with
  | .listen rest =>
    match fd with
    | none => some { s with site := .serve rest }
    | some fd => (s.openFd fd).map fun t => { t with site := .greet fd s.fds.made rest }
  | _ => none

/-- `sock_read_cmd` returns, for the connection being greeted or the next client polled. -/
def St.command (s : St) (cmd : Option Cmd) : Option St :=
  match s.site with
  | .greet fd conn rest => some { s.greeted fd conn cmd with site := .serve rest }
  | .serve ((c, input) :: rest) => some { s.served c input cmd with site := .serve rest }
  | _ => none

/-- `irc_maintain`, and on to the next pass. -/
def St.maintain (ircEnabled : Bool) (s : St) (u : Upkeep) : Option St :=
  match s.site with
  | .serve [] =>
    match u with
    | .keep => some { s with site := .top }
    | .lost => if ircEnabled ∧ s.irc.isSome then some { s.hangUp with site := .top } else none
    | .linked fd =>
      if ircEnabled ∧ s.irc = none then (s.openFd fd).map fun t => { t with irc := some fd, site := .top } else none
  | _ => none

def St.finish (s : St) : Option St :=
  match s.site with
  | .closing => some { s.finished with site := .ended }
  | _ => none

def St.openOther (s : St) (fd : Nat) : Option St := (s.openFd fd).map fun t => { t with others := fd :: t.others }

def St.closeOther (s : St) (fd : Nat) : Option St :=
  if fd ∈ s.others then some { s.closeFd fd with others := s.others.erase fd } else none

def step (ircEnabled : Bool) (s : St) : Ev → Option St
  | .collect => s.collect
  | .poll r => s.poll r
  | .heard ok => s.heard ok
  | .accept fd => s.accept fd
  | .command cmd => s.command cmd
  | .maintain u => s.maintain ircEnabled u
  | .finish => s.finish
  | .openOther fd => s.openOther fd
  | .closeOther fd => s.closeOther fd
  | .broadcast agent text => some (if text = [] then s else s.broadcast (broadcastLine agent text))

/-- What is open when the loop begins. -/
structure Boot where
  sock : Option Nat
  others : List Nat
  ircEnabled : Bool
  distinct : (sock.toList ++ others).Nodup

def Boot.daemon (b : Boot) : System St Ev where
  init := {
    fds := .start _ b.distinct
    irc := none
    sock := b.sock
    clients := []
    others := b.others
    shutdown := false
    site := .top
    told := []
    touched := []
    lines := []
    sent := [] }
  step := step b.ircEnabled

/-! ## Numbers in use -/

/-- Numbers the code keeps, the connection being greeted aside. -/
def St.numbers (s : St) : List Nat := s.irc.toList ++ (s.sock.toList ++ (s.clients.map Client.fd ++ s.others))

/-- Whether a number is open, as a count. -/
def opens (t : Descriptors) (n : Nat) : Nat := if (t.file n).isSome then 1 else 0

theorem opens_le (t : Descriptors) (n : Nat) : opens t n ≤ 1 := by
  unfold opens
  split <;> omega

theorem opens_opened (t : Descriptors) {fd : Nat} (h : t.file fd = none) (n : Nat) :
    opens (t.opened fd h) n = opens t n + if fd = n then 1 else 0 := by
  unfold opens
  by_cases hn : fd = n
  · subst hn
    rw [t.file_opened h, h, if_pos rfl]
    rfl
  · rw [t.file_opened_other h (Ne.symm hn), if_neg hn, Nat.add_zero]

theorem opens_close (t : Descriptors) {fd k : Nat} (h : t.file fd = some k) (n : Nat) :
    opens (t.close fd) n + (if fd = n then 1 else 0) = opens t n := by
  unfold opens
  by_cases hn : fd = n
  · subst hn
    rw [t.file_close, h, if_pos rfl]
    rfl
  · rw [t.file_close_other (Ne.symm hn), if_neg hn, Nat.add_zero]

/-- What every thread keeps; `hand` are the numbers in use for the moment. -/
structure Kept (s : St) (hand : List Nat) : Prop where
  numbers : ∀ n, (hand ++ s.numbers).count n = opens s.fds n
  mine : ∀ c ∈ s.clients, s.fds.file c.fd = some c.conn
  few : s.clients.length ≤ maxClients
  touched : ∀ x ∈ s.touched, x.2 = some x.1
  since : ∀ c ∈ s.clients, c.since ≤ s.lines.length ∧
    (s.sent.filter fun x => x.1 = some c.conn).map Prod.snd = s.lines.drop c.since
  known : ∀ x ∈ s.sent, ∃ k, x.1 = some k ∧ k < s.fds.made

variable {s : St} {hand : List Nat} {fd k : Nat}

/-- A number in use is open. -/
theorem Kept.isOpen (h : Kept s hand) (hfd : fd ∈ hand ++ s.numbers) : ∃ k, s.fds.file fd = some k := by
  have hcount := h.numbers fd
  have hpos := List.count_pos_iff.mpr hfd
  unfold opens at hcount
  split at hcount
  · exact Option.isSome_iff_exists.mp ‹_›
  · omega

theorem Kept.nodup (h : Kept s hand) : (hand ++ s.numbers).Nodup := by
  rw [List.nodup_iff_count_le_one]
  intro n
  rw [h.numbers n]
  exact opens_le s.fds n

theorem Kept.nodup_clients (h : Kept s hand) : (s.clients.map Client.fd).Nodup := by
  have hnum : s.numbers.Nodup := (List.nodup_append.mp h.nodup).2.1
  unfold St.numbers at hnum
  exact (List.nodup_append.mp (List.nodup_append.mp (List.nodup_append.mp hnum).2.1).2.1).1

/-- A number in hand is no client's. -/
theorem Kept.not_client (h : Kept s (fd :: hand)) {c : Client} (hc : c ∈ s.clients) : c.fd ≠ fd := by
  rintro rfl
  have hin : c.fd ∈ s.numbers :=
    List.mem_append_right _ (List.mem_append_right _ (List.mem_append_left _ (List.mem_map_of_mem (f := Client.fd) hc)))
  exact (List.nodup_append.mp h.nodup).2.2 c.fd List.mem_cons_self c.fd hin rfl

/-- Two clients have two connections. -/
theorem Kept.conn_inj (h : Kept s hand) {c d : Client} (hc : c ∈ s.clients) (hd : d ∈ s.clients) (hconn : c.conn = d.conn) :
    c = d := by
  have hfile := h.mine d hd
  rw [← hconn] at hfile
  exact List.inj_on_of_nodup_map h.nodup_clients hc hd (s.fds.file_inj (h.mine c hc) hfile)

theorem Kept.openFd (h : Kept s hand) {t : St} (ht : s.openFd fd = some t) :
    ∃ hfree : s.fds.file fd = none, t = { s with fds := s.fds.opened fd hfree } ∧ Kept t (fd :: hand) := by
  unfold St.openFd at ht
  split at ht
  · rename_i hfree
    cases ht
    refine ⟨hfree, rfl, ⟨fun n => ?_, fun c hc => ?_, h.few, h.touched, h.since, fun x hx => ?_⟩⟩
    · have hcount := h.numbers n
      rw [opens_opened, ← hcount, List.cons_append, List.count_cons]
      simp only [beq_iff_eq]
      rfl
    · have hne : c.fd ≠ fd := by
        rintro rfl
        rw [h.mine c hc] at hfree
        cases hfree
      rw [s.fds.file_opened_other hfree hne]
      exact h.mine c hc
    · obtain ⟨k, hk, hlt⟩ := h.known x hx
      exact ⟨k, hk, by rw [s.fds.made_opened hfree]; omega⟩
  · cases ht

/-- A number in hand is closed. -/
theorem Kept.closeFd (h : Kept s (fd :: hand)) : Kept (s.closeFd fd) hand := by
  obtain ⟨k, hk⟩ := h.isOpen (List.mem_append_left _ List.mem_cons_self)
  refine ⟨fun n => ?_, fun c hc => ?_, h.few, h.touched, h.since, fun x hx => ?_⟩
  · have hcount := h.numbers n
    have hclose := opens_close s.fds hk n
    rw [List.cons_append, List.count_cons] at hcount
    simp only [beq_iff_eq] at hcount
    change (hand ++ s.numbers).count n = opens (s.fds.close fd) n
    omega
  · have hne := h.not_client hc
    exact (s.fds.file_close_other hne).trans (h.mine c hc)
  · obtain ⟨k, hk, hlt⟩ := h.known x hx
    exact ⟨k, hk, by rw [show (s.closeFd fd).fds.made = s.fds.made from s.fds.made_close]; exact hlt⟩

theorem Kept.touch (h : Kept s hand) {conn : Nat} (hfile : s.fds.file fd = some conn) : Kept (s.touch conn fd) hand := by
  refine ⟨h.numbers, h.mine, h.few, fun x hx => ?_, h.since, h.known⟩
  rcases List.mem_append.mp hx with hx | hx
  · exact h.touched x hx
  · rw [List.mem_singleton.mp hx]
    exact hfile

theorem Kept.dismiss (h : Kept s (fd :: hand)) {conn : Nat} (hfile : s.fds.file fd = some conn) :
    Kept (s.dismiss fd conn) hand :=
  (h.touch hfile).closeFd

/-- The link's number is taken in hand. -/
theorem Kept.takeLink (h : Kept s hand) (hirc : s.irc = some fd) : Kept { s with irc := none } (fd :: hand) := by
  refine ⟨fun n => ?_, h.mine, h.few, h.touched, h.since, h.known⟩
  have hcount := h.numbers n
  simp only [St.numbers, hirc, Option.toList_some, Option.toList_none, List.count_append, List.count_cons,
    List.cons_append, List.nil_append] at hcount ⊢
  omega

theorem Kept.takeSock (h : Kept s hand) (hsock : s.sock = some fd) : Kept { s with sock := none } (fd :: hand) := by
  refine ⟨fun n => ?_, h.mine, h.few, h.touched, h.since, h.known⟩
  have hcount := h.numbers n
  simp only [St.numbers, hsock, Option.toList_some, Option.toList_none, List.count_append, List.count_cons,
    List.cons_append, List.nil_append] at hcount ⊢
  omega

theorem Kept.takeClient (h : Kept s hand) {i : Nat} {c : Client} (hc : s.clients[i]? = some c) :
    Kept { s with clients := fillGap s.clients i } (c.fd :: hand) := by
  have hperm := fillGap_perm hc
  have hmem : ∀ d ∈ fillGap s.clients i, d ∈ s.clients := fun d hd => hperm.mem_iff.mpr (List.mem_cons_of_mem _ hd)
  refine ⟨fun n => ?_, fun d hd => h.mine d (hmem d hd), ?_, h.touched, fun d hd => h.since d (hmem d hd), h.known⟩
  · have hcount := h.numbers n
    have hnum := (hperm.map Client.fd).count_eq n
    simp only [St.numbers, List.count_append, List.count_cons, List.map_cons, List.cons_append] at hcount hnum ⊢
    omega
  · have := hperm.length_eq
    have hfew := h.few
    rw [List.length_cons] at this
    change (fillGap s.clients i).length ≤ maxClients
    omega

theorem Kept.hangUp (h : Kept s hand) : Kept s.hangUp hand := by
  unfold St.hangUp
  split
  · exact h
  · rename_i fd hirc
    exact (h.takeLink hirc).closeFd

theorem Kept.remove (h : Kept s hand) (i : Nat) : Kept (s.remove i) hand := by
  unfold St.remove
  split
  · exact h
  · rename_i c hc
    exact (h.takeClient hc).dismiss (h.mine c (List.mem_of_getElem? hc))

/-! ## One pass -/

theorem Kept.attach (h : Kept s (fd :: hand)) {conn : Nat} (hfile : s.fds.file fd = some conn)
    (hfew : s.clients.length < maxClients) (hunsent : ∀ x ∈ s.sent, x.1 ≠ some conn) :
    Kept { s with clients := s.clients ++ [⟨fd, conn, s.lines.length⟩] } hand := by
  refine ⟨fun n => ?_, fun c hc => ?_, ?_, h.touched, fun c hc => ?_, h.known⟩
  · have hcount := h.numbers n
    simp only [St.numbers, List.count_append, List.count_cons, List.map_append, List.map_cons, List.map_nil,
      List.cons_append, List.count_nil] at hcount ⊢
    omega
  · rcases List.mem_append.mp hc with hc | hc
    · exact h.mine c hc
    · rw [List.mem_singleton.mp hc]
      exact hfile
  · rw [List.length_append, List.length_singleton]
    omega
  · rcases List.mem_append.mp hc with hc | hc
    · exact h.since c hc
    · rw [List.mem_singleton.mp hc]
      refine ⟨Nat.le_refl _, ?_⟩
      rw [List.drop_length, List.filter_eq_nil_iff.mpr fun x hx => by simpa using hunsent x hx]
      rfl

theorem Kept.greeted (h : Kept s (fd :: hand)) {conn : Nat} (hfile : s.fds.file fd = some conn)
    (hunsent : ∀ x ∈ s.sent, x.1 ≠ some conn) (cmd : Option Cmd) : Kept (s.greeted fd conn cmd) hand := by
  have hgone := h.dismiss hfile
  unfold St.greeted
  split
  · exact hgone
  split
  · exact hgone
  split
  · exact ⟨hgone.numbers, hgone.mine, hgone.few, hgone.touched, hgone.since, hgone.known⟩
  split
  · exact h.attach hfile (by rename_i hattach; exact hattach.2) hunsent
  split
  · exact ⟨hgone.numbers, hgone.mine, hgone.few, hgone.touched, hgone.since, hgone.known⟩
  · exact hgone

/-- A client that was polled is still there, under its number. -/
theorem Kept.findIdx (h : Kept s hand) {c : Client} (hc : c ∈ s.clients) :
    s.clients[s.clients.findIdx fun d => d.fd = c.fd]? = some c := by
  have hlt : (s.clients.findIdx fun d => d.fd = c.fd) < s.clients.length :=
    List.findIdx_lt_length_of_exists ⟨c, hc, by simp⟩
  have hfound := List.findIdx_getElem (w := hlt)
  rw [List.getElem?_eq_getElem hlt]
  congr 1
  exact List.inj_on_of_nodup_map h.nodup_clients (List.getElem_mem hlt) hc (of_decide_eq_true hfound)

/-- Serving a client touches its own connection and leaves the others. -/
theorem Kept.served (h : Kept s hand) {c : Client} (hc : c ∈ s.clients) (input : Bool) (cmd : Option Cmd) :
    Kept (s.served c input cmd) hand ∧ ∀ d ∈ s.clients, d ≠ c → d ∈ (s.served c input cmd).clients := by
  have hfind := h.findIdx hc
  have hlt : ¬ s.clients.length ≤ s.clients.findIdx fun d => d.fd = c.fd := by
    rw [Nat.not_le]
    exact (List.getElem?_eq_some_iff.mp hfind).1
  have htouch := h.touch (h.mine c hc)
  -- its place is where its number was found
  have hremove : Kept ((s.touch c.conn c.fd).remove (s.clients.findIdx fun d => d.fd = c.fd)) hand ∧
      ∀ d ∈ s.clients, d ≠ c → d ∈ ((s.touch c.conn c.fd).remove (s.clients.findIdx fun d => d.fd = c.fd)).clients := by
    refine ⟨htouch.remove _, fun d hd hne => ?_⟩
    have hperm := (fillGap_perm hfind).mem_iff.mp hd
    unfold St.remove
    rw [show (s.touch c.conn c.fd).clients = s.clients from rfl, hfind]
    exact (List.mem_cons.mp hperm).resolve_left hne
  unfold St.served
  dsimp only
  rw [if_neg hlt]
  split
  · exact hremove
  split
  · exact hremove
  split
  · exact ⟨⟨htouch.numbers, htouch.mine, htouch.few, htouch.touched, htouch.since, htouch.known⟩, fun d hd _ => hd⟩
  · exact ⟨htouch, fun d hd _ => hd⟩

/-- Of a line, each client gets its own copy only. -/
theorem Kept.copy_once (h : Kept s hand) {c : Client} (hc : c ∈ s.clients) (line : Str) :
    ((s.clients.map fun c => (some c.conn, line)).filter fun x => x.1 = some c.conn) = [(some c.conn, line)] := by
  obtain ⟨a, b, hab⟩ := List.append_of_mem hc
  have hother : ∀ d ∈ a ++ b, d.conn ≠ c.conn := by
    intro d hd heq
    have hnodup := h.nodup_clients
    have hd' : d ∈ s.clients := by
      rw [hab]
      exact List.mem_append.mpr ((List.mem_append.mp hd).imp_right (List.mem_cons_of_mem _))
    obtain rfl := h.conn_inj hd' hc heq
    rw [hab, List.map_append, List.map_cons] at hnodup
    have hnot : d.fd ∉ a.map Client.fd ++ b.map Client.fd := (List.nodup_cons.mp (List.nodup_middle.mp hnodup)).1
    rw [← List.map_append] at hnot
    exact hnot (List.mem_map_of_mem (f := Client.fd) hd)
  have hnone : ∀ l : List Client, (∀ d ∈ l, d ∈ a ++ b) →
      ((l.map fun c => (some c.conn, line)).filter fun x => x.1 = some c.conn) = [] := by
    intro l hl
    rw [List.filter_eq_nil_iff]
    intro x hx
    obtain ⟨d, hd, rfl⟩ := List.mem_map.mp hx
    simpa using hother d (hl d hd)
  rw [hab, List.map_append, List.map_cons, List.filter_append, List.filter_cons_of_pos (by simp),
    hnone a fun d hd => List.mem_append_left _ hd, hnone b fun d hd => List.mem_append_right _ hd]
  rfl

/-- A line goes to every client once. -/
theorem Kept.broadcast (h : Kept s hand) (line : Str) : Kept (s.broadcast line) hand := by
  have hmine : (s.clients.map fun (c : Client) => (s.fds.file c.fd, line)) = s.clients.map fun c => (some c.conn, line) :=
    List.map_congr_left fun c hc => by rw [h.mine c hc]
  refine ⟨h.numbers, h.mine, h.few, fun x hx => ?_, fun c hc => ?_, fun x hx => ?_⟩
  · rcases List.mem_append.mp hx with hx | hx
    · exact h.touched x hx
    · obtain ⟨c, hc, rfl⟩ := List.mem_map.mp hx
      exact h.mine c hc
  · obtain ⟨hle, hsent⟩ := h.since c hc
    have hlen : (s.lines ++ [line]).length = s.lines.length + 1 := by rw [List.length_append, List.length_singleton]
    refine ⟨by change c.since ≤ (s.lines ++ [line]).length; omega, ?_⟩
    change ((s.sent ++ s.clients.map fun (c : Client) => (s.fds.file c.fd, line)).filter fun x => x.1 = some c.conn).map Prod.snd =
      (s.lines ++ [line]).drop c.since
    rw [hmine, List.filter_append, h.copy_once hc line, List.map_append, hsent, List.drop_append_of_le_length hle]
    rfl
  · rcases List.mem_append.mp hx with hx | hx
    · exact h.known x hx
    · rw [hmine] at hx
      obtain ⟨c, hc, rfl⟩ := List.mem_map.mp hx
      exact ⟨c.conn, rfl, s.fds.file_lt_made (h.mine c hc)⟩

/-- Nothing was written to a connection that is not attached. -/
theorem Kept.unsent_broadcast (h : Kept s (fd :: hand)) {conn : Nat} (hfile : s.fds.file fd = some conn)
    (hunsent : ∀ x ∈ s.sent, x.1 ≠ some conn) (line : Str) : ∀ x ∈ (s.broadcast line).sent, x.1 ≠ some conn := by
  intro x hx heq
  rcases List.mem_append.mp hx with hx | hx
  · exact hunsent x hx heq
  · obtain ⟨c, hc, rfl⟩ := List.mem_map.mp hx
    exact h.not_client hc (s.fds.file_inj heq hfile)

/-- All clients are dismissed, in order. -/
theorem Kept.dismissAll (l : List Client) : ∀ {s : St}, Kept { s with clients := [] } (l.map Client.fd ++ hand) →
    (∀ c ∈ l, s.fds.file c.fd = some c.conn) →
    Kept { l.foldl (fun t c => t.dismiss c.fd c.conn) s with clients := [] } hand ∧
      (l.foldl (fun t c => t.dismiss c.fd c.conn) s).irc = s.irc ∧ (l.foldl (fun t c => t.dismiss c.fd c.conn) s).sock = s.sock := by
  induction l with
  | nil => exact fun h _ => ⟨h, rfl, rfl⟩
  | cons c l ih =>
    intro s h hmine
    have hnodup := h.nodup
    rw [List.map_cons, List.cons_append] at h hnodup
    have hgone := h.dismiss (hmine c List.mem_cons_self)
    refine ih (s := s.dismiss c.fd c.conn) hgone fun d hd => ?_
    have hne : d.fd ≠ c.fd := by
      intro heq
      refine (List.nodup_cons.mp hnodup).1 (List.mem_append_left _ (List.mem_append_left _ ?_))
      rw [← heq]
      exact List.mem_map_of_mem hd
    exact (s.fds.file_close_other hne).trans (hmine d (List.mem_cons_of_mem _ hd))

theorem Kept.finished (h : Kept s hand) : Kept s.finished hand ∧ s.finished.irc = none ∧ s.finished.sock = none ∧
    s.finished.clients = [] := by
  have hang := h.hangUp
  have hirc : s.hangUp.irc = none := by
    unfold St.hangUp
    split
    · assumption
    · rfl
  have htake : Kept { s.hangUp with clients := [] } (s.hangUp.clients.map Client.fd ++ hand) := by
    refine ⟨fun n => ?_, fun c hc => (by cases hc), Nat.zero_le _, hang.touched, fun c hc => (by cases hc), hang.known⟩
    have hcount := hang.numbers n
    simp only [St.numbers, List.count_append, List.map_nil, List.count_nil] at hcount ⊢
    omega
  obtain ⟨hall, hirc', hsock'⟩ := Kept.dismissAll s.hangUp.clients htake hang.mine
  unfold St.finished
  dsimp only
  split
  · rename_i hnone
    exact ⟨hall, hirc'.trans hirc, hnone, rfl⟩
  · rename_i fd hsome
    exact ⟨(hall.takeSock hsome).closeFd, hirc'.trans hirc, rfl, rfl⟩

/-! ## Every run -/

/-- The number the main thread has in hand. -/
def Site.held : Site → List Nat
  | .greet fd _ _ => [fd]
  | _ => []

/-- The clients of the poll set still to be looked at. -/
def Site.polled : Site → List Client
  | .polling set => set
  | .link r => r.clients.map Prod.fst
  | .listen rest => rest.map Prod.fst
  | .greet _ _ rest => rest.map Prod.fst
  | .serve rest => rest.map Prod.fst
  | _ => []

structure Inv (s : St) : Prop where
  kept : Kept s s.site.held
  polled : ∀ c ∈ s.site.polled, c ∈ s.clients
  once : s.site.polled.Nodup
  greeting : ∀ fd conn rest, s.site = .greet fd conn rest → s.fds.file fd = some conn ∧ ∀ x ∈ s.sent, x.1 ≠ some conn
  closed : s.site = .ended → s.irc = none ∧ s.sock = none ∧ s.clients = []

theorem Kept.nodup_list (h : Kept s hand) : s.clients.Nodup := List.Nodup.of_map Client.fd h.nodup_clients

/-- The main thread goes on to another place, with nothing in hand. -/
theorem Kept.goTo (h : Kept s []) {site : Site} (hhand : site.held = []) (hpolled : ∀ c ∈ site.polled, c ∈ s.clients)
    (honce : site.polled.Nodup) (hnot : site ≠ .ended) (hgreet : ∀ fd conn rest, site ≠ .greet fd conn rest) :
    Inv { s with site := site } := by
  refine ⟨?_, hpolled, honce, fun fd conn rest hsite => absurd hsite (hgreet fd conn rest), fun hsite => absurd hsite hnot⟩
  rw [show ({ s with site := site } : St).site = site from rfl, hhand]
  exact ⟨h.numbers, h.mine, h.few, h.touched, h.since, h.known⟩

theorem hangUp_clients (s : St) : s.hangUp.clients = s.clients := by
  unfold St.hangUp
  split <;> rfl

/-- The greeting adds a client at most. -/
theorem greeted_clients (s : St) (fd conn : Nat) (cmd : Option Cmd) {c : Client} (hc : c ∈ s.clients) : c ∈ (s.greeted fd conn cmd).clients := by
  unfold St.greeted
  split
  · exact hc
  split
  · exact hc
  split
  · exact hc
  split
  · exact List.mem_append_left _ hc
  split
  · exact hc
  · exact hc

section Steps

variable {s' : St} {ircEnabled : Bool} (hi : Inv s)
include hi

theorem collect_inv (hs : s.collect = some s') : Inv s' := by
  have hkept := hi.kept
  unfold St.collect at hs
  split at hs
  · rename_i hsite
    cases hs
    rw [hsite] at hkept
    split
    · exact hkept.goTo rfl (fun c hc => (by cases hc)) List.nodup_nil (by simp) (by simp)
    · exact hkept.goTo rfl (fun c hc => hc) hkept.nodup_list (by simp) (by simp)
  · cases hs

theorem poll_inv {r : Ready} (hs : s.poll r = some s') : Inv s' := by
  have hkept := hi.kept
  unfold St.poll at hs
  split at hs
  · rename_i set hsite
    obtain ⟨⟨hsub, -⟩, hs⟩ := Option.ite_none_right_eq_some.mp hs
    cases hs
    have hpolled := hi.polled
    have honce := hi.once
    rw [hsite] at hkept hpolled honce
    exact hkept.goTo rfl (fun c hc => hpolled c (hsub.subset hc)) (honce.sublist hsub) (by simp) (by simp)
  · cases hs

theorem heard_inv {ok : Bool} (hs : s.heard ok = some s') : Inv s' := by
  have hkept := hi.kept
  unfold St.heard at hs
  split at hs
  · rename_i r hsite
    cases hs
    have hpolled := hi.polled
    have honce := hi.once
    rw [hsite] at hkept hpolled honce
    have hafter : Kept (if (r.irc && !ok) = true then s.hangUp else s) [] ∧
        (if (r.irc && !ok) = true then s.hangUp else s).clients = s.clients := by
      split
      · exact ⟨hkept.hangUp, hangUp_clients s⟩
      · exact ⟨hkept, rfl⟩
    generalize (if (r.irc && !ok) = true then s.hangUp else s) = t at hafter ⊢
    obtain ⟨hafter, hclients⟩ := hafter
    split
    · exact hafter.goTo rfl (fun c hc => by rw [hclients]; exact hpolled c hc) honce (by simp) (by simp)
    · exact hafter.goTo rfl (fun c hc => by rw [hclients]; exact hpolled c hc) honce (by simp) (by simp)
  · cases hs

theorem accept_inv {fd : Option Nat} (hs : s.accept fd = some s') : Inv s' := by
  have hkept := hi.kept
  have hpolled := hi.polled
  have honce := hi.once
  unfold St.accept at hs
  split at hs
  · rename_i rest hsite
    rw [hsite] at hkept hpolled honce
    cases fd with
    | none =>
      cases hs
      exact hkept.goTo rfl hpolled honce (by simp) (by simp)
    | some fd =>
      obtain ⟨t, ht, rfl⟩ := Option.map_eq_some_iff.mp hs
      obtain ⟨hfree, rfl, hopen⟩ := hkept.openFd ht
      refine ⟨⟨hopen.numbers, hopen.mine, hopen.few, hopen.touched, hopen.since, hopen.known⟩, hpolled, honce, ?_, by simp⟩
      intro fd' conn rest' hgreet
      cases hgreet
      -- the connection is new
      refine ⟨s.fds.file_opened hfree, fun x hx heq => ?_⟩
      obtain ⟨k, hk, hlt⟩ := hkept.known x hx
      rw [hk] at heq
      cases heq
      exact absurd hlt (Nat.lt_irrefl _)
  · cases hs

theorem command_inv {cmd : Option Cmd} (hs : s.command cmd = some s') : Inv s' := by
  have hkept := hi.kept
  have hpolled := hi.polled
  have honce := hi.once
  unfold St.command at hs
  split at hs
  · rename_i fd conn rest hsite
    cases hs
    obtain ⟨hfile, hunsent⟩ := hi.greeting fd conn rest hsite
    rw [hsite] at hkept hpolled honce
    exact (hkept.greeted hfile hunsent cmd).goTo rfl (fun c hc => greeted_clients s fd conn cmd (hpolled c hc)) honce
      (by simp) (by simp)
  · rename_i c input rest hsite
    cases hs
    rw [hsite] at hkept hpolled honce
    obtain ⟨hserved, hothers⟩ := hkept.served (hpolled c List.mem_cons_self) input cmd
    obtain ⟨hnot, honce⟩ := List.nodup_cons.mp honce
    refine hserved.goTo rfl (fun d hd => hothers d (hpolled d (List.mem_cons_of_mem _ hd)) ?_) honce (by simp) (by simp)
    rintro rfl
    exact hnot hd
  · cases hs

theorem maintain_inv {u : Upkeep} (hs : s.maintain ircEnabled u = some s') : Inv s' := by
  have hkept := hi.kept
  unfold St.maintain at hs
  split at hs
  · rename_i hsite
    rw [hsite] at hkept
    cases u with
    | keep =>
      cases hs
      exact hkept.goTo rfl (fun c hc => (by cases hc)) List.nodup_nil (by simp) (by simp)
    | lost =>
      obtain ⟨-, hs⟩ := Option.ite_none_right_eq_some.mp hs
      cases hs
      exact hkept.hangUp.goTo rfl (fun c hc => (by cases hc)) List.nodup_nil (by simp) (by simp)
    | linked fd =>
      obtain ⟨⟨-, hirc⟩, hs⟩ := Option.ite_none_right_eq_some.mp hs
      obtain ⟨t, ht, rfl⟩ := Option.map_eq_some_iff.mp hs
      obtain ⟨hfree, rfl, hopen⟩ := hkept.openFd ht
      have hlink : Kept { s with fds := s.fds.opened fd hfree, irc := some fd } [] := by
        refine ⟨fun n => ?_, hopen.mine, hopen.few, hopen.touched, hopen.since, hopen.known⟩
        have hcount := hopen.numbers n
        simp only [St.numbers, hirc, Option.toList_none, Option.toList_some, List.cons_append, List.nil_append] at hcount ⊢
        exact hcount
      exact hlink.goTo rfl (fun c hc => (by cases hc)) List.nodup_nil (by simp) (by simp)
  · cases hs

theorem finish_inv (hs : s.finish = some s') : Inv s' := by
  have hkept := hi.kept
  unfold St.finish at hs
  split at hs
  · rename_i hsite
    cases hs
    rw [hsite] at hkept
    obtain ⟨hdone, hirc, hsock, hclients⟩ := hkept.finished
    exact ⟨⟨hdone.numbers, hdone.mine, hdone.few, hdone.touched, hdone.since, hdone.known⟩, fun c hc => (by cases hc),
      List.nodup_nil, by simp, fun _ => ⟨hirc, hsock, hclients⟩⟩
  · cases hs

/-- What the other threads do, at any place of the main thread. -/
theorem openOther_inv {fd : Nat} (hs : s.openOther fd = some s') : Inv s' := by
  obtain ⟨t, ht, rfl⟩ := Option.map_eq_some_iff.mp hs
  obtain ⟨hfree, rfl, hopen⟩ := hi.kept.openFd ht
  refine ⟨⟨fun n => ?_, hopen.mine, hopen.few, hopen.touched, hopen.since, hopen.known⟩, hi.polled, hi.once, ?_, hi.closed⟩
  · have hcount := hopen.numbers n
    simp only [St.numbers, List.count_append, List.cons_append, List.count_cons] at hcount ⊢
    omega
  · intro fd' conn rest hsite
    obtain ⟨hfile, hunsent⟩ := hi.greeting fd' conn rest hsite
    have hne : fd' ≠ fd := by
      rintro rfl
      rw [hfile] at hfree
      cases hfree
    exact ⟨(s.fds.file_opened_other hfree hne).trans hfile, hunsent⟩

theorem closeOther_inv {fd : Nat} (hs : s.closeOther fd = some s') : Inv s' := by
  obtain ⟨hmem, hs⟩ := Option.ite_none_right_eq_some.mp hs
  cases hs
  have hkept := hi.kept
  have htake : Kept { s with others := s.others.erase fd } (fd :: s.site.held) := by
    refine ⟨fun n => ?_, hkept.mine, hkept.few, hkept.touched, hkept.since, hkept.known⟩
    have hcount := hkept.numbers n
    have hperm := (List.perm_cons_erase hmem).count_eq n
    simp only [St.numbers, List.count_append, List.cons_append, List.count_cons] at hcount hperm ⊢
    omega
  refine ⟨htake.closeFd, hi.polled, hi.once, ?_, hi.closed⟩
  intro fd' conn rest hsite
  have hsite : s.site = .greet fd' conn rest := hsite
  obtain ⟨hfile, hunsent⟩ := hi.greeting fd' conn rest hsite
  have hne : fd' ≠ fd := by
    have hnodup := htake.nodup
    rw [show s.site.held = [fd'] by rw [hsite]; rfl] at hnodup
    rintro rfl
    exact (List.nodup_cons.mp hnodup).1 (List.mem_append_left _ List.mem_cons_self)
  exact ⟨(s.fds.file_close_other hne).trans hfile, hunsent⟩

theorem broadcast_inv (agent : Option Str) (text : Str) : Inv (if text = [] then s else s.broadcast (broadcastLine agent text)) := by
  split
  · exact hi
  · refine ⟨hi.kept.broadcast _, hi.polled, hi.once, ?_, hi.closed⟩
    intro fd conn rest hsite
    obtain ⟨hfile, hunsent⟩ := hi.greeting fd conn rest hsite
    have hkept := hi.kept
    rw [show s.site.held = [fd] by rw [show s.site = .greet fd conn rest from hsite]; rfl] at hkept
    exact ⟨hfile, hkept.unsent_broadcast hfile hunsent _⟩

theorem step_inv {e : Ev} (hs : step ircEnabled s e = some s') : Inv s' := by
  cases e with
  | collect => exact collect_inv hi hs
  | poll r => exact poll_inv hi hs
  | heard ok => exact heard_inv hi hs
  | accept fd => exact accept_inv hi hs
  | command cmd => exact command_inv hi hs
  | maintain u => exact maintain_inv hi hs
  | finish => exact finish_inv hi hs
  | openOther fd => exact openOther_inv hi hs
  | closeOther fd => exact closeOther_inv hi hs
  | broadcast agent text =>
    cases hs
    exact broadcast_inv hi agent text

end Steps

theorem init_inv (b : Boot) : Inv b.daemon.init := by
  refine ⟨⟨fun n => ?_, fun c hc => (by cases hc), Nat.zero_le _, fun x hx => (by cases hx), fun c hc => (by cases hc),
    fun x hx => (by cases hx)⟩, fun c hc => (by cases hc), List.nodup_nil, by simp [Boot.daemon], by simp [Boot.daemon]⟩
  have hnumbers : [] ++ b.daemon.init.numbers = b.sock.toList ++ b.others := rfl
  change ([] ++ b.daemon.init.numbers).count n = opens (.start _ b.distinct) n
  rw [hnumbers]
  unfold opens
  by_cases hn : n ∈ b.sock.toList ++ b.others
  · rw [List.count_eq_one_of_mem b.distinct hn, if_pos]
    rw [Option.isSome_iff_ne_none]
    intro hnone
    have hout := (Descriptors.file_eq_none _).mp hnone
    rw [Descriptors.start, List.zipIdx_map_fst] at hout
    exact hout hn
  · rw [List.count_eq_zero_of_not_mem hn, if_neg]
    rw [Option.not_isSome_iff_eq_none, Descriptors.file_eq_none, Descriptors.start, List.zipIdx_map_fst]
    exact hn

/-- What holds of the clients and of the descriptors. -/
structure Safe (s : St) : Prop where
  few : s.clients.length ≤ 8
  /-- No use of a number reaches another file. -/
  touched : ∀ x ∈ s.touched, x.2 = some x.1
  /-- A client that was polled is not gone before its turn. -/
  polled : ∀ c ∈ s.site.polled, c ∈ s.clients
  lines : ∀ c ∈ s.clients, (s.sent.filter fun x => x.1 = some c.conn).map Prod.snd = s.lines.drop c.since
  /-- No descriptor leaks, none is closed that is in use. -/
  used : (s.site.held ++ s.numbers).Nodup ∧ ∀ n, n ∈ s.site.held ++ s.numbers ↔ (s.fds.file n).isSome = true
  closed : s.site = .ended → ∀ n, (s.fds.file n).isSome = true ↔ n ∈ s.others

theorem Inv.safe (h : Inv s) : Safe s := by
  have hused : ∀ n, n ∈ s.site.held ++ s.numbers ↔ (s.fds.file n).isSome = true := by
    intro n
    rw [← List.count_pos_iff, h.kept.numbers n]
    unfold opens
    split
    · exact iff_of_true Nat.zero_lt_one ‹_›
    · exact iff_of_false (Nat.lt_irrefl 0) ‹_›
  refine ⟨h.kept.few, h.kept.touched, h.polled, fun c hc => (h.kept.since c hc).2, ⟨h.kept.nodup, hused⟩, fun hend n => ?_⟩
  obtain ⟨hirc, hsock, hclients⟩ := h.closed hend
  rw [← hused n, hend]
  simp [Site.held, St.numbers, hirc, hsock, hclients]

/-- In every run: whatever the clients send, whenever other threads open and close descriptors or broadcast. -/
theorem clients_safe (b : Boot) {s : St} (h : b.daemon.Reach (fun _ _ => True) s) : Safe s :=
  (h.invariant (I := Inv) (init_inv b) fun _ _ _ hi _ hs => step_inv hi hs).safe

/-- A client attaches as 4 and is sent a line. Its hangup is polled with another's events, and once it is closed a
    thread of the process gets its number. -/
def boot : Boot := ⟨some 3, [0, 1, 2], true, by decide⟩

def attached : Option Cmd := some ⟨cmdAttach, [], 0⟩

def reuse : List Ev := [
  .collect, .poll ⟨false, true, []⟩, .heard true, .accept (some 4), .command attached, .maintain (.linked 5),
  .collect, .poll ⟨false, true, []⟩, .heard true, .accept (some 6), .command attached, .broadcast none (lit "up"), .maintain .keep,
  .collect, .poll ⟨true, false, [(⟨4, 4, 0⟩, false), (⟨6, 6, 0⟩, true)]⟩, .openOther 7, .heard false,
  .command none, .openOther 4, .command (some ⟨cmdMsgType, lit "ann\x00hi", 6⟩), .closeOther 4, .broadcast none (lit "on"), .maintain .keep]

theorem clients_safe_reuse : ∃ s, boot.daemon.Reach (fun _ _ => True) s ∧
    s.touched.length = 6 ∧ s.clients = [⟨6, 6, 0⟩] ∧ s.told = [⟨lit "ann", lit "tui", lit "hi"⟩] ∧ Safe s := by
  have hrun : ((boot.daemon.replay (fun _ _ => True) boot.daemon.init reuse).map fun s => (s.touched.length, s.clients, s.told)) =
      some (6, [⟨6, 6, 0⟩], [⟨lit "ann", lit "tui", lit "hi"⟩]) := by decide +kernel
  obtain ⟨s, hs, heq⟩ := Option.map_eq_some_iff.mp hrun
  have hreach := System.Reach.init.replay hs
  exact ⟨s, hreach, congrArg Prod.fst heq, congrArg (fun x => x.2.1) heq, congrArg (fun x => x.2.2) heq, clients_safe boot hreach⟩

end Clients

end Shclaw.Daemon
