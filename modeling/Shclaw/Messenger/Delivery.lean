/-
  Shclaw.Messenger.Delivery — messages between agents, under every interleaving of
  `messenger_send` and `messenger_receive`.

  The messenger's lock is held for one write and for one whole receive, so a
  broadcast is as many steps as it has recipients. Any write may fail, an inbox may
  not open, and a file of it may fail to open or be read short. `acked` holds the
  messages of the sends that returned a text other than an error, `received` what the
  receives returned.

  `no_message_lost`: an acknowledged message is in its recipient's inbox and was not
  returned, or was returned exactly once and its file is gone, in every run in which
  no write of a broadcast fails and every file is read whole. The two conditions are
  where the code loses mail: a broadcast does not look at what `send_one` returned
  (`broadcast_drops`), and a receive deletes a file it could not read.
-/

import Mathlib.Data.List.Count
import Mathlib.Data.List.Nodup
import Shclaw.JsonText
import Shclaw.Lib.Runs
import Shclaw.Messenger.Inbox

namespace Shclaw.Messenger

open Lib

/-! ## The system -/

/-- A `messenger_send` that has not returned. -/
structure Call where
  env : Envelope
  everyone : Bool
  todo : List Str
  puts : List Put

/-- What it returns. -/
def Call.text (c : Call) : Str :=
  if c.everyone then broadcastText c.puts.length else (c.puts.head?.map Put.text).getD []

/-- A recipient and a message. -/
abbrev Letter := Str × Json

instance : DecidableEq Letter := inferInstanceAs (DecidableEq (Str × Json))

def Put.letter (p : Put) : Letter := (p.recipient, p.msg)

structure Mail where
  inbox : Str → List Entry
  calls : List Call
  used : List Str
  acked : List Letter
  received : List Letter

inductive Ev where
  | send (recipient : Option Str) (env : Envelope)
  | write (i : Nat) (d : Draw)
  | finish (i : Nat)
  | receive (agent : Str) (opened : Bool) (listing : List (Entry × Option Nat))

def isHex (c : UInt8) : Bool := isDigit c || (ch 'a' ≤ c && c ≤ ch 'f')

/-- What `uuid_short(mid, 8)` can return. -/
def isMid (mid : Str) : Bool := mid.length = 8 && mid.all isHex

def put (inbox : Str → List Entry) (agent : Str) (files : List Entry) : Str → List Entry :=
  fun a => if a = agent then files else inbox a

variable (J : CJson) (agents : List Str)

def mailStep (s : Mail) : Ev → Option Mail
  | .send recipient env =>
    match plan agents env.sender recipient with
    | .refuse _ => some s
    | .one name => some { s with calls := s.calls ++ [⟨env, false, [name], []⟩] }
    | .everyone names => some { s with calls := s.calls ++ [⟨env, true, names, []⟩] }
  | .write i d =>
    match s.calls[i]? with
    | some c =>
      match c.todo with
      | [] => none
      | name :: todo =>
        if isMid d.mid then
          let p := sendOne c.env name d
          some { s with
            inbox := if d.written then put s.inbox name (s.inbox name ++ [mailFile J p.msg]) else s.inbox
            calls := s.calls.set i { c with todo := todo, puts := c.puts ++ [p] }
            used := d.mid :: s.used }
        else none
    | none => none
  | .finish i =>
    match s.calls[i]? with
    | some c =>
      if c.todo = [] then
        some { s with
          calls := s.calls.eraseIdx i
          acked := if startsWith c.text (lit "Error") then s.acked else s.acked ++ c.puts.map Put.letter }
      else none
    | none => none
  | .receive agent opened listing =>
    if opened then
      -- `readdir` lists the inbox in any order
      if (listing.map (·.1)).isPerm (s.inbox agent) then
        let r := messengerReceive J listing
        some { s with inbox := put s.inbox agent r.2, received := s.received ++ r.1.map fun msg => (agent, msg) }
      else none
    else some s

/-- Empty inboxes. -/
def mail : System Mail Ev where
  init := ⟨fun _ => [], [], [], [], []⟩
  step := mailStep J agents

/-- Message ids are distinct. -/
def Distinct (s : Mail) : Ev → Prop
  | .write _ d => d.mid ∉ s.used
  | _ => True

/-- No write of a broadcast fails and every file is read whole. -/
def Whole (s : Mail) : Ev → Prop
  | .write i d => s.calls[i]?.any (·.everyone) = true → d.written = true
  | .receive _ _ listing => ∀ f ∈ listing, f.2.any (f.1.2.length ≤ ·) = true
  | _ => True

/-- The letter is in the inbox and was not returned, or was returned once and is gone. -/
def Accounted (s : Mail) (l : Letter) : Prop :=
  mailFile J l.2 ∈ s.inbox l.1 ∧ s.received.count l = 0 ∨ mailFile J l.2 ∉ s.inbox l.1 ∧ s.received.count l = 1

/-! ## Files and messages -/

theorem mailFile_injective : Function.Injective (mailFile J) := by
  intro a b h
  have hp : J.print a = J.print b := congrArg Prod.snd h
  have := J.parse_print a
  rw [hp, J.parse_print b] at this
  exact (Option.some.inj this).symm

theorem message_id (e : Envelope) (recipient mid now : Str) : (e.message recipient mid now).jStr (lit "id") = some mid :=
  rfl

/-- The receive takes the files that `send_one` writes. -/
theorem isMail_mid {mid : Str} (h : isMid mid = true) : isMail (mid ++ lit ".json") = true := by
  unfold isMid at h
  simp only [Bool.and_eq_true, decide_eq_true_eq, List.all_eq_true] at h
  obtain ⟨hlen, hhex⟩ := h
  have hj : (lit ".json").length = 5 := by decide
  unfold isMail
  simp only [Bool.and_eq_true, decide_eq_true_eq, List.length_append, hlen, hj]
  refine ⟨⟨?_, by omega⟩, ?_⟩
  · cases mid with
    | nil => simp at hlen
    | cons c t =>
      intro hdot
      have hc := hhex c List.mem_cons_self
      rw [show c = ch '.' from hdot] at hc
      exact absurd hc (by decide)
  · rw [show 8 + 5 - 5 = mid.length by omega, List.drop_left]

/-- A message a file of the inboxes can hold. -/
def Posted (used : List Str) (msg : Json) : Prop :=
  ∃ mid ∈ used, isMid mid = true ∧ msg.jStr (lit "id") = some mid

/-- Reading every file whole returns every message, and leaves nothing. -/
theorem receive_whole {listing : List (Entry × Option Nat)} {msgs : List Json} {used : List Str}
    (hperm : (listing.map (·.1)).Perm (msgs.map (mailFile J))) (hp : ∀ msg ∈ msgs, Posted used msg)
    (hw : ∀ f ∈ listing, f.2.any (f.1.2.length ≤ ·) = true) :
    (messengerReceive J listing).1.Perm msgs ∧ (messengerReceive J listing).2 = [] := by
  have hmail : ∀ f ∈ listing, ∃ msg, f.1 = mailFile J msg ∧ isMail f.1.1 = true := by
    intro f hf
    obtain ⟨msg, hm, heq⟩ := List.mem_map.mp (hperm.subset (List.mem_map_of_mem hf))
    obtain ⟨mid, -, hmid, hid⟩ := hp msg hm
    refine ⟨msg, heq.symm, ?_⟩
    rw [← heq]
    unfold mailFile
    rw [hid]
    exact isMail_mid hmid
  have hread : (messengerReceive J listing).1 = (listing.map (·.1)).filterMap fun f => J.parse f.2 := by
    unfold messengerReceive
    rw [List.filterMap_map]
    refine List.filterMap_congr fun f hf => ?_
    obtain ⟨msg, -, hm⟩ := hmail f hf
    obtain ⟨n, hn, hle⟩ : ∃ n, f.2 = some n ∧ f.1.2.length ≤ n := by simpa [Option.any_eq_true] using hw f hf
    simp only [hm, if_true, slurp, hn, Option.map_some, Option.bind_some, Function.comp_apply]
    rw [List.take_of_length_le hle]
  have hparse : (msgs.map (mailFile J)).filterMap (fun f => J.parse f.2) = msgs := by
    rw [List.filterMap_map]
    exact (List.filterMap_congr fun msg _ => J.parse_print msg).trans List.filterMap_some
  constructor
  · rw [hread]
    exact (hperm.filterMap _).trans (by rw [hparse])
  · unfold messengerReceive
    rw [List.filter_eq_nil_iff]
    intro f hf
    obtain ⟨g, hg, rfl⟩ := List.mem_map.mp hf
    obtain ⟨-, -, hm⟩ := hmail g hg
    simp [hm]

/-! ## Every step accounts for what was written -/

/-- The letters a call has put in an inbox so far. -/
def Call.letters (c : Call) : List Letter := (c.puts.filter (·.written)).map Put.letter

structure Tidy (s : Mail) : Prop where
  files : ∀ a, ∃ msgs : List Json, s.inbox a = msgs.map (mailFile J) ∧ (msgs.map (·.jStr (lit "id"))).Nodup ∧
    ∀ msg ∈ msgs, Posted s.used msg
  returned : ∀ l ∈ s.received, Posted s.used l.2
  whole : ∀ c ∈ s.calls, c.everyone = true → ∀ p ∈ c.puts, p.written = true
  single : ∀ c ∈ s.calls, c.everyone = false → c.puts.length + c.todo.length ≤ 1
  letters : ∀ l ∈ s.acked ++ s.calls.flatMap Call.letters, Posted s.used l.2 ∧ Accounted J s l

theorem Posted.mono {used used' : List Str} {msg : Json} (h : Posted used msg) (hsub : used ⊆ used') :
    Posted used' msg := by
  obtain ⟨mid, hmem, hrest⟩ := h
  exact ⟨mid, hsub hmem, hrest⟩

/-- A fresh message is none of the posted ones. -/
theorem Posted.ne {used : List Str} {msg : Json} (h : Posted used msg) {mid : Str} (hmid : mid ∉ used) {msg' : Json}
    (hid : msg'.jStr (lit "id") = some mid) : msg ≠ msg' := by
  rintro rfl
  obtain ⟨mid', hmem, -, hid'⟩ := h
  rw [hid] at hid'
  exact hmid (Option.some.inj hid' ▸ hmem)

/-- A call that returned no error wrote all its letters. -/
theorem Tidy.finished {s : Mail} (ht : Tidy J s) {c : Call} (hc : c ∈ s.calls)
    (htext : startsWith c.text (lit "Error") = false) : c.puts.map Put.letter = c.letters := by
  have hall : ∀ p ∈ c.puts, p.written = true := by
    cases he : c.everyone with
    | true => exact ht.whole c hc he
    | false =>
      have hlen := ht.single c hc he
      intro p hp
      obtain ⟨q, hq⟩ := List.length_eq_one_iff.mp (by
        have := List.length_pos_of_mem hp
        omega : c.puts.length = 1)
      rw [hq, List.mem_singleton] at hp
      subst hp
      by_contra hw
      unfold Call.text at htext
      rw [he, hq] at htext
      have : p.text = lit "Error: cannot deliver the message to " ++ p.recipient := by
        unfold Put.text
        rw [if_neg hw]
      simp only [Bool.false_eq_true, if_false, List.head?_cons, Option.map_some, Option.getD_some, this] at htext
      exact absurd htext (by simp [startsWith, lit])
  unfold Call.letters
  rw [List.filter_eq_self.mpr hall]

theorem mem_put_append {inbox : Str → List Entry} {name a : Str} {f x : Entry} (hne : x ≠ f) :
    x ∈ put inbox name (inbox name ++ [f]) a ↔ x ∈ inbox a := by
  unfold put
  split
  · rename_i h
    subst h
    simp [hne]
  · rfl

/-- One `send_one` of a call. -/
theorem write_tidy {s s' : Mail} {i : Nat} {d : Draw} (ht : Tidy J s) (hfresh : d.mid ∉ s.used)
    (hw : Whole s (.write i d)) (h : mailStep J agents s (.write i d) = some s') : Tidy J s' := by
  simp only [mailStep] at h
  split at h
  swap
  · cases h
  rename_i c hc
  split at h
  · cases h
  rename_i name todo htodo
  split at h
  swap
  · cases h
  rename_i hmid
  cases h
  have hmem : c ∈ s.calls := List.mem_of_getElem? hc
  have hsub : s.used ⊆ d.mid :: s.used := List.subset_cons_self ..
  have hnew : Posted (d.mid :: s.used) (sendOne c.env name d).msg := ⟨d.mid, List.mem_cons_self, hmid, rfl⟩
  have hne : ∀ msg, Posted s.used msg → mailFile J msg ≠ mailFile J (sendOne c.env name d).msg :=
    fun msg hp heq => hp.ne hfresh (message_id ..) (mailFile_injective J heq)
  refine ⟨fun a => ?_, fun l hl => (ht.returned l hl).mono hsub, fun c' hc' => ?_, fun c' hc' => ?_, fun l hl => ?_⟩
  · obtain ⟨msgs, hin, hnd, hp⟩ := ht.files a
    have hold : ∀ msg ∈ msgs, Posted (d.mid :: s.used) msg := fun msg hm => (hp msg hm).mono hsub
    simp only
    split
    swap
    · exact ⟨msgs, hin, hnd, hold⟩
    unfold put
    split
    swap
    · exact ⟨msgs, hin, hnd, hold⟩
    rename_i ha
    subst ha
    refine ⟨msgs ++ [(sendOne c.env a d).msg], by rw [hin, List.map_append]; rfl, ?_, ?_⟩
    · rw [List.map_append, List.map_singleton, List.nodup_append]
      refine ⟨hnd, List.nodup_singleton _, fun x hx y hy hxy => ?_⟩
      obtain ⟨msg, hm, rfl⟩ := List.mem_map.mp hx
      obtain ⟨mid, hused, -, hid⟩ := hp msg hm
      rw [hxy, List.mem_singleton.mp hy] at hid
      exact hfresh (Option.some.inj ((message_id ..).symm.trans hid) ▸ hused)
    · intro msg hm
      rcases List.mem_append.mp hm with hm | hm
      · exact hold msg hm
      · exact List.mem_singleton.mp hm ▸ hnew
  · intro he p hp
    rcases List.mem_or_eq_of_mem_set hc' with hc' | rfl
    · exact ht.whole c' hc' he p hp
    · rcases List.mem_append.mp hp with hp | hp
      · exact ht.whole c hmem he p hp
      · rw [List.mem_singleton.mp hp]
        exact hw (by rw [hc]; exact he)
  · intro he
    rcases List.mem_or_eq_of_mem_set hc' with hc' | rfl
    · exact ht.single c' hc' he
    · have := ht.single c hmem he
      rw [htodo] at this
      simp only [List.length_append, List.length_cons, List.length_nil] at this ⊢
      omega
  · -- a letter from before, or the one this step wrote
    have hcases : l ∈ s.acked ++ s.calls.flatMap Call.letters ∨
        d.written = true ∧ l = (sendOne c.env name d).letter := by
      rcases List.mem_append.mp hl with hl | hl
      · exact Or.inl (List.mem_append_left _ hl)
      obtain ⟨c', hc', hl⟩ := List.mem_flatMap.mp hl
      rcases List.mem_or_eq_of_mem_set hc' with hc' | rfl
      · exact Or.inl (List.mem_append_right _ (List.mem_flatMap.mpr ⟨c', hc', hl⟩))
      · unfold Call.letters at hl
        rw [List.filter_append, List.map_append] at hl
        rcases List.mem_append.mp hl with hl | hl
        · exact Or.inl (List.mem_append_right _ (List.mem_flatMap.mpr ⟨c, hmem, hl⟩))
        · obtain ⟨p, hp, rfl⟩ := List.mem_map.mp hl
          obtain ⟨hp, hpw⟩ := List.mem_filter.mp hp
          rw [List.mem_singleton.mp hp] at hpw ⊢
          exact Or.inr ⟨hpw, rfl⟩
    rcases hcases with hl | ⟨hwr, rfl⟩
    · obtain ⟨hp, hacc⟩ := ht.letters l hl
      refine ⟨hp.mono hsub, ?_⟩
      unfold Accounted at hacc ⊢
      simp only
      split
      · rw [mem_put_append (hne l.2 hp)]
        exact hacc
      · exact hacc
    · refine ⟨hnew, Or.inl ⟨?_, ?_⟩⟩
      · simp only [hwr, if_true]
        unfold put
        rw [if_pos (show (sendOne c.env name d).letter.1 = name from rfl)]
        exact List.mem_append_right _ List.mem_cons_self
      · rw [List.count_eq_zero]
        intro hrec
        exact (ht.returned _ hrec).ne hfresh (message_id ..) rfl

/-- One `messenger_receive`. -/
theorem receive_tidy {s s' : Mail} {agent : Str} {opened : Bool} {listing : List (Entry × Option Nat)} (ht : Tidy J s)
    (hw : Whole s (.receive agent opened listing))
    (h : mailStep J agents s (.receive agent opened listing) = some s') : Tidy J s' := by
  simp only [mailStep] at h
  split at h
  swap
  · cases h
    exact ht
  split at h
  swap
  · cases h
  rename_i hperm
  cases h
  obtain ⟨msgs, hin, hnd, hp⟩ := ht.files agent
  rw [List.isPerm_iff, hin] at hperm
  obtain ⟨hret, hleft⟩ := receive_whole J hperm hp hw
  have hnodup : msgs.Nodup := hnd.of_map
  refine ⟨fun a => ?_, fun l hl => ?_, ht.whole, ht.single, fun l hl => ?_⟩
  · simp only [put, hleft]
    split
    · exact ⟨[], rfl, List.nodup_nil, by simp⟩
    · exact ht.files a
  · rcases List.mem_append.mp hl with hl | hl
    · exact ht.returned l hl
    · obtain ⟨msg, hm, rfl⟩ := List.mem_map.mp hl
      exact hp msg (hret.subset hm)
  · obtain ⟨hpost, hacc⟩ := ht.letters l hl
    refine ⟨hpost, ?_⟩
    unfold Accounted at hacc ⊢
    simp only [List.count_append]
    by_cases ha : l.1 = agent
    · -- its own inbox: every file goes, and its message is returned once
      have hcount : ((messengerReceive J listing).1.map fun msg => (agent, msg)).count l = msgs.count l.2 := by
        rw [show l = (agent, l.2) from Prod.ext ha rfl, List.count_map_of_injective _ _ (fun a b h => by simpa using h)]
        exact hret.count_eq _
      have hmem : mailFile J l.2 ∈ s.inbox l.1 ↔ l.2 ∈ msgs := by
        rw [ha, hin]
        exact List.mem_map_of_injective (mailFile_injective J)
      rw [hcount]
      right
      simp only [put, ha, if_true, hleft]
      refine ⟨by simp, ?_⟩
      rcases hacc with ⟨hf, h0⟩ | ⟨hf, h1⟩
      · rw [h0, List.count_eq_one_of_mem hnodup (hmem.mp hf)]
      · rw [h1, List.count_eq_zero.mpr (fun hm => hf (hmem.mpr hm))]
    · have hcount : ((messengerReceive J listing).1.map fun msg => (agent, msg)).count l = 0 := by
        rw [List.count_eq_zero]
        intro hm
        obtain ⟨msg, -, rfl⟩ := List.mem_map.mp hm
        exact ha rfl
      rw [hcount]
      simp only [put, if_neg ha, Nat.add_zero]
      exact hacc

theorem mailStep_tidy {s s' : Mail} {e : Ev} (ht : Tidy J s) (hd : Distinct s e) (hw : Whole s e)
    (h : mailStep J agents s e = some s') : Tidy J s' := by
  cases e with
  | send recipient env =>
    -- a new call has written nothing
    have hcall : ∀ c : Call, c.puts = [] → (c.everyone = false → c.todo.length ≤ 1) →
        Tidy J { s with calls := s.calls ++ [c] } := by
      intro c hputs hsingle
      refine ⟨ht.files, ht.returned, fun c' hc' => ?_, fun c' hc' => ?_, fun l hl => ht.letters l ?_⟩
      · rcases List.mem_append.mp hc' with hc' | hc'
        · exact ht.whole c' hc'
        · rw [List.mem_singleton.mp hc', hputs]
          simp
      · rcases List.mem_append.mp hc' with hc' | hc'
        · exact ht.single c' hc'
        · rw [List.mem_singleton.mp hc', hputs]
          simpa using hsingle
      · have hnil : c.letters = [] := by
          unfold Call.letters
          rw [hputs]
          rfl
        simpa [hnil] using hl
    simp only [mailStep] at h
    split at h
    · cases h
      exact ht
    · cases h
      exact hcall _ rfl (by simp)
    · cases h
      exact hcall _ rfl (by simp)
  | write i d => exact write_tidy J agents ht hd hw h
  | finish i =>
    simp only [mailStep] at h
    split at h
    swap
    · cases h
    rename_i c hc
    split at h
    swap
    · cases h
    cases h
    have hmem : c ∈ s.calls := List.mem_of_getElem? hc
    have hsub : s.calls.eraseIdx i ⊆ s.calls := (List.eraseIdx_sublist ..).subset
    refine ⟨ht.files, ht.returned, fun c' hc' => ht.whole c' (hsub hc'), fun c' hc' => ht.single c' (hsub hc'),
      fun l hl => ht.letters l ?_⟩
    rcases List.mem_append.mp hl with hl | hl
    · simp only at hl
      split at hl
      · exact List.mem_append_left _ hl
      · rename_i htext
        rcases List.mem_append.mp hl with hl | hl
        · exact List.mem_append_left _ hl
        · rw [ht.finished J hmem (by simpa using htext)] at hl
          exact List.mem_append_right _ (List.mem_flatMap.mpr ⟨c, hmem, hl⟩)
    · obtain ⟨c', hc', hl⟩ := List.mem_flatMap.mp hl
      exact List.mem_append_right _ (List.mem_flatMap.mpr ⟨c', hsub hc', hl⟩)
  | receive agent opened listing => exact receive_tidy J agents ht hw h

/-- In every run with distinct ids in which no write of a broadcast fails and every file is
    read whole, an acknowledged message is in the inbox or was returned exactly once. -/
theorem no_message_lost {s : Mail} (h : (mail J agents).Reach (fun s e => Distinct s e ∧ Whole s e) s) :
    ∀ l ∈ s.acked, Accounted J s l := by
  have ht : Tidy J s := h.invariant (I := Tidy J)
    ⟨fun _ => ⟨[], rfl, List.nodup_nil, by simp⟩, by simp [mail], by simp [mail], by simp [mail], by simp [mail]⟩
    (fun s e s' ht hok hs => mailStep_tidy J agents ht hok.1 hok.2 hs)
  exact fun l hl => (ht.letters l (List.mem_append_left _ hl)).2

/-! ## Runs with two agents -/

def twoAgents : List Str := [lit "owner", lit "ann", lit "bob"]

def hello : Envelope := ⟨lit "ann", lit "hello", none, false⟩

def helloDraw (written : Bool) : Draw := ⟨lit "00c0ffee", lit "2026-01-01T00:00:00Z", written⟩

def helloLetter : Letter := (lit "bob", hello.message (lit "bob") (lit "00c0ffee") (lit "2026-01-01T00:00:00Z"))

instance (s : Mail) (e : Ev) : Decidable (Distinct s e) :=
  match e with
  | .write _ d => inferInstanceAs (Decidable (d.mid ∉ s.used))
  | .send .. | .finish _ | .receive .. => inferInstanceAs (Decidable True)

instance (s : Mail) (e : Ev) : Decidable (Whole s e) :=
  match e with
  | .write i d => inferInstanceAs (Decidable (s.calls[i]?.any (·.everyone) = true → d.written = true))
  | .receive _ _ listing => inferInstanceAs (Decidable (∀ f ∈ listing, f.2.any (f.1.2.length ≤ ·) = true))
  | .send .. | .finish _ => inferInstanceAs (Decidable True)

/-- `ann` writes to `@Bob`, who receives the message. -/
def sendHello : List Ev :=
  [.send (some (lit "@Bob")) hello, .write 0 (helloDraw true), .finish 0,
   .receive (lit "bob") true [(mailFile CJson.compact helloLetter.2, some 4096)]]

theorem no_message_lost_hello : ∃ s, (mail CJson.compact twoAgents).Reach (fun s e => Distinct s e ∧ Whole s e) s ∧
    s.acked = [helloLetter] ∧ s.received = [helloLetter] ∧ Accounted CJson.compact s helloLetter := by
  have hrun : ((mail CJson.compact twoAgents).replay (fun s e => Distinct s e ∧ Whole s e) ⟨fun _ => [], [], [], [], []⟩
      sendHello).map (fun s => (s.acked, s.received)) = some ([helloLetter], [helloLetter]) := by decide +kernel
  obtain ⟨s, hs, heq⟩ := Option.map_eq_some_iff.mp hrun
  obtain ⟨hacked, hreceived⟩ := Prod.mk.injEq .. ▸ heq
  have hreach := System.Reach.init.replay hs
  refine ⟨s, hreach, hacked, hreceived, no_message_lost CJson.compact twoAgents hreach helloLetter ?_⟩
  rw [hacked]
  exact List.mem_cons_self

/-- A broadcast whose only write fails still says it was sent. -/
theorem broadcast_drops : ¬ ∀ s, (mail CJson.compact twoAgents).Reach Distinct s →
    ∀ l ∈ s.acked, Accounted CJson.compact s l := by
  intro hall
  have hrun : ((mail CJson.compact twoAgents).replay Distinct ⟨fun _ => [], [], [], [], []⟩
      [.send (some (lit "all")) hello, .write 0 (helloDraw false), .finish 0]).map
        (fun s => (s.acked, s.inbox (lit "bob"), s.received)) = some ([helloLetter], [], []) := by decide +kernel
  obtain ⟨s, hs, heq⟩ := Option.map_eq_some_iff.mp hrun
  simp only [Prod.mk.injEq] at heq
  obtain ⟨hacked, hinbox, hreceived⟩ := heq
  have hacc := hall s (System.Reach.init.replay hs) helloLetter (by rw [hacked]; exact List.mem_cons_self)
  unfold Accounted at hacc
  rw [hreceived, show helloLetter.1 = lit "bob" from rfl, hinbox] at hacc
  simp at hacc

/-- A receive deletes a message it could not open. -/
example : ((mail CJson.compact twoAgents).replay Distinct ⟨fun _ => [], [], [], [], []⟩
    [.send (some (lit "bob")) hello, .write 0 (helloDraw true), .finish 0,
     .receive (lit "bob") true [(mailFile CJson.compact helloLetter.2, none)]]).map
      (fun s => (s.acked, s.inbox (lit "bob"), s.received)) = some ([helloLetter], [], []) := by decide +kernel

end Shclaw.Messenger
