/-
  Shclaw.Agent.Trigger — who a session answers to (`src/agent.c`: `parse_trigger`,
  `is_requester`).

  A batch of agent messages makes requesters of the senders of its messages not
  marked `reply`, in order of first appearance, at most sixteen, each name cut to its
  field.
-/

import Mathlib.Data.List.Nodup
import Mathlib.Data.List.Perm.Subperm
import Shclaw.Messenger.Inbox

namespace Shclaw.Agent

open Lib Messenger

inductive TriggerType where
  | irc
  | schedule
  | agentMsg
  deriving DecidableEq

structure TriggerInfo where
  requesters : List Str
  replyBatch : Bool
  relay : Bool

def isReply (m : Json) : Bool := (m.getObjectItem (lit "reply")).any Json.isTrue

/-- One message of the batch. -/
def addRequester (requesters : List Str) (m : Json) : List Str :=
  match m.jStr (lit "from") with
  | none => requesters
  | some sender =>
    if isReply m then requesters
    else if sender ∈ requesters then requesters
    else if requesters.length < maxAgents then requesters ++ [cut 32 sender]
    else requesters

variable (J : CJson)

def batch (data : Str) : List Json := ((J.parse data).map Json.children).getD []

def parseTrigger (type : TriggerType) (data : Str) : TriggerInfo :=
  if type = .agentMsg then
    let requesters := (batch J data).foldl addRequester []
    ⟨requesters, requesters.isEmpty, requesters.isEmpty⟩
  else ⟨[], false, true⟩

def isRequester (trig : TriggerInfo) (name : Option Str) : Bool := name.any (· ∈ trig.requesters)

/-! ## Requesters -/

/-- The requesters a batch adds come from its messages that are not replies. -/
theorem mem_foldl_addRequester {ms : List Json} : ∀ {rs : List Str} {r : Str}, r ∈ ms.foldl addRequester rs →
    r ∈ rs ∨ ∃ m ∈ ms, ∃ sender, m.jStr (lit "from") = some sender ∧ r = cut 32 sender ∧
      isReply m = false := by
  induction ms with
  | nil => exact fun h => Or.inl h
  | cons m ms ih =>
    intro rs r h
    rcases ih h with h | ⟨x, hx, hrest⟩
    · unfold addRequester at h
      split at h
      · exact Or.inl h
      rename_i sender hs
      split at h
      · exact Or.inl h
      rename_i hreply
      split at h
      · exact Or.inl h
      split at h
      · rcases List.mem_append.mp h with h | h
        · exact Or.inl h
        · exact Or.inr ⟨m, List.mem_cons_self, sender, hs, List.mem_singleton.mp h, by simpa using hreply⟩
      · exact Or.inl h
    · exact Or.inr ⟨x, List.mem_cons_of_mem _ hx, hrest⟩

/-- With senders that fit their field, the requesters are distinct. -/
theorem nodup_foldl_addRequester {ms : List Json}
    (hfit : ∀ m ∈ ms, ∀ sender, m.jStr (lit "from") = some sender → sender.length < 32) :
    ∀ {rs : List Str}, rs.Nodup → (ms.foldl addRequester rs).Nodup := by
  induction ms with
  | nil => exact fun h => h
  | cons m ms ih =>
    intro rs h
    apply ih fun x hx => hfit x (List.mem_cons_of_mem _ hx)
    unfold addRequester
    split
    · exact h
    rename_i sender hs
    split
    · exact h
    split
    · exact h
    rename_i hnew
    split
    · rw [(cut_eq_self (by omega)).mpr (hfit m List.mem_cons_self sender hs), List.nodup_append]
      refine ⟨h, List.nodup_singleton _, fun a ha b hb hab => hnew ?_⟩
      rw [← List.mem_singleton.mp hb, ← hab]
      exact ha
    · exact h

/-- `R` asks something in a batch. -/
def Asks (ms : List Json) (R : Str) : Prop := ∃ m ∈ ms, m.jStr (lit "from") = some R ∧ isReply m = false

section Registered

variable {reg : Registry} {ms : List Json}

theorem addRequester_keeps {rs : List Str} (m : Json) : ∀ r ∈ rs, r ∈ addRequester rs m := by
  intro r hr
  unfold addRequester
  split
  · exact hr
  split
  · exact hr
  split
  · exact hr
  split
  · exact List.mem_append_left _ hr
  · exact hr

/-- Sixteen fields are enough for the registered agents. -/
theorem addRequester_adds {rs : List Str} (hnd : rs.Nodup) (hrs : ∀ r ∈ rs, r ∈ reg.names) {m : Json} {R : Str}
    (hR : R ∈ reg.names) (hm : m.jStr (lit "from") = some R) (hreply : isReply m = false) : R ∈ addRequester rs m := by
  unfold addRequester
  simp only [hm, hreply, Bool.false_eq_true, if_false]
  split
  · assumption
  rename_i hnew
  have hroom : rs.length < maxAgents := by
    have hsub : R :: rs ⊆ reg.names := by
      intro x hx
      rcases List.mem_cons.mp hx with rfl | hx
      · exact hR
      · exact hrs x hx
    have hlen := (List.subperm_of_subset (List.nodup_cons.mpr ⟨hnew, hnd⟩) hsub).length_le
    have := reg.few
    simp only [List.length_cons] at hlen
    omega
  rw [if_pos hroom, (cut_eq_self (by omega)).mpr (reg.length_of_name hR)]
  exact List.mem_append_right _ List.mem_cons_self

/-- In a batch of registered agents the requesters are those who ask. -/
theorem mem_requesters (hfrom : ∀ m ∈ ms, ∀ sender, m.jStr (lit "from") = some sender → sender ∈ reg.names) {R : Str} :
    R ∈ ms.foldl addRequester [] ↔ Asks ms R := by
  have hfit : ∀ m ∈ ms, ∀ sender, m.jStr (lit "from") = some sender → sender.length < 32 :=
    fun m hm sender hs => reg.length_of_name (hfrom m hm sender hs)
  constructor
  · intro h
    obtain h | ⟨m, hm, sender, hs, rfl, hreply⟩ := mem_foldl_addRequester h
    · cases h
    · rw [(cut_eq_self (by omega)).mpr (hfit m hm sender hs)]
      exact ⟨m, hm, hs, hreply⟩
  · -- over any start whose names are registered and distinct
    suffices hgen : ∀ rs : List Str, rs.Nodup → (∀ r ∈ rs, r ∈ reg.names) → R ∈ rs ∨ Asks ms R →
        R ∈ ms.foldl addRequester rs from fun h => hgen [] List.nodup_nil (by simp) (.inr h)
    induction ms with
    | nil =>
      rintro rs - - (h | ⟨m, hm, -⟩)
      · exact h
      · cases hm
    | cons m ms ih =>
      intro rs hnd hrs h
      have hnd' : (addRequester rs m).Nodup :=
        @nodup_foldl_addRequester [m] (fun x hx => hfit x (by simp_all)) rs hnd
      have hrs' : ∀ r ∈ addRequester rs m, r ∈ reg.names := by
        intro r hr
        obtain h | ⟨x, hx, sender, hs, rfl, -⟩ := @mem_foldl_addRequester [m] rs r hr
        · exact hrs r h
        · rw [List.mem_singleton] at hx
          subst hx
          rw [(cut_eq_self (by omega)).mpr (hfit x List.mem_cons_self sender hs)]
          exact hfrom x List.mem_cons_self sender hs
      refine ih (fun x hx => hfrom x (List.mem_cons_of_mem _ hx)) (fun x hx => hfit x (List.mem_cons_of_mem _ hx))
        (addRequester rs m) hnd' hrs' ?_
      obtain h | ⟨x, hx, hs, hreply⟩ := h
      · exact .inl (addRequester_keeps m R h)
      rcases List.mem_cons.mp hx with rfl | hx
      · exact .inl (addRequester_adds hnd hrs (hfrom x List.mem_cons_self R hs) hs hreply)
      · exact .inr ⟨x, hx, hs, hreply⟩

theorem nodup_requesters (hfrom : ∀ m ∈ ms, ∀ sender, m.jStr (lit "from") = some sender → sender ∈ reg.names) :
    (ms.foldl addRequester []).Nodup :=
  nodup_foldl_addRequester (fun m hm sender hs => reg.length_of_name (hfrom m hm sender hs)) List.nodup_nil

end Registered

end Shclaw.Agent
