/-
  Shclaw.Chat.Log — the lines of the owner's conversation (`src/session.c`:
  `chat_expire`, `chat_add`, `chat_id`, `chat_render`), shared by all agents.

  The log keeps the newest twenty lines in a ring. It is closed by the first call that
  finds it silent for `idle` seconds: its lines go and its id changes. `chat_add` reads
  the clock before it takes the lock, so a line's time (`t`) may lie behind the clock
  at which the log is checked (`now`).

  `channel_whole`: every line fits its field and twenty of them the caller's buffer, so
  what is rendered is whole.
-/

import Shclaw.Agent.History
import Shclaw.Lib.Ring
import Shclaw.Scheduler.Time

namespace Shclaw.Chat

open Lib Scheduler

/-- `TC_CHAT_LINES`. -/
def chatLines : Nat := 20

/-- `TC_CHAT_LINE`. -/
def chatLine : Nat := 320

/-- `chat_sz` of `agent_run_session`. -/
def chatSize : Nat := chatLines * chatLine + 64

/-- `unsigned` wraps here. -/
def uintMax : Nat := 2 ^ 32

structure Line where
  seq : Nat
  agent : Str
  text : Str
  deriving DecidableEq

/-- `chat_log_t`. -/
structure ChatLog where
  ring : Ring Line chatLines
  seq : Nat
  id : Nat
  last : Int

/-- The seconds of silence that close a conversation; agents have a log only if there are some. -/
structure Idle where
  secs : Int
  pos : 0 < secs

/-- `chat_init`. -/
def chatInit : ChatLog where
  ring := ⟨fun _ => ⟨0, [], []⟩, 0, 0, by decide, by decide, fun _ => rfl⟩
  seq := 0
  id := 0
  last := 0

/-- The log is closed by the next call. -/
def silent (idle : Idle) (c : ChatLog) (now : Int) : Bool := c.ring.n ≠ 0 && idle.secs ≤ now - c.last

def chatExpire (idle : Idle) (c : ChatLog) (now : Int) : ChatLog :=
  if silent idle c now then { c with ring := c.ring.clear, id := (c.id + 1) % uintMax } else c

/-- `HH:MM who: text`, on one line and cut to its field. -/
def lineText (Z : Zone) (t : Int) (who text : Str) : Str :=
  let tm := Z.localtime t
  let head := paddedInt 2 tm.hour ++ lit ":" ++ paddedInt 2 tm.min ++ lit " " ++ who ++ lit ": "
  let off := min head.length (chatLine - 1)
  let line := head.take off ++ text.take (Agent.utf8Prefix text (chatLine - 1 - off))
  line.map fun b => if b = 10 ∨ b = 13 then ch ' ' else b

/-- The line `chat_add` writes. -/
def newLine (Z : Zone) (c : ChatLog) (t : Int) (agent who text : Str) : Line :=
  ⟨(c.seq + 1) % uintMax, cut 32 agent, lineText Z t who text⟩

def chatAdd (idle : Idle) (Z : Zone) (c : ChatLog) (now t : Int) (agent who text : Str) : ChatLog :=
  if text = [] then c
  else
    let c := chatExpire idle c now
    { c with
      last := t
      seq := (c.seq + 1) % uintMax
      ring := c.ring.push (newLine Z c t agent who text) }

def chatId (idle : Idle) (c : ChatLog) (now : Int) : ChatLog × Nat :=
  (chatExpire idle c now, (chatExpire idle c now).id)

/-- The lines `chat_render` writes: newer than `after`, and not `skip`'s. -/
def linesAfter (c : ChatLog) (after : Nat) (skip : Option Str) : List Line :=
  c.ring.contents.filter fun l => after < l.seq && skip ≠ some l.agent

/-- Their text in a buffer of `sz` bytes, and the last line's number. -/
def chatRender (c : ChatLog) (after : Nat) (skip : Option Str) (sz : Nat) : Str × Nat :=
  (cut sz ((linesAfter c after skip).flatMap fun l => l.text ++ lit "\n"), c.seq)

def chatHeader (lines : Str) : Str := lit "## On the channel (oldest first)\n" ++ lines ++ lit "\n"

/-- What the turn shows of the channel. -/
def channel (c : ChatLog) (after : Nat) (skip : Option Str) : Str :=
  let lines := (chatRender c after skip chatSize).1
  if lines = [] then [] else cut chatSize (chatHeader lines)

/-! ## The two steps of a call -/

@[simp] theorem chatExpire_seq (idle : Idle) (c : ChatLog) (now : Int) : (chatExpire idle c now).seq = c.seq := by
  unfold chatExpire
  split <;> rfl

theorem chatAdd_contents (idle : Idle) (Z : Zone) (c : ChatLog) (now t : Int) {agent who text : Str} (h : text ≠ []) :
    (chatAdd idle Z c now t agent who text).ring.contents =
      lastN chatLines ((chatExpire idle c now).ring.contents ++ [newLine Z c t agent who text]) := by
  unfold chatAdd
  rw [if_neg h]
  dsimp only
  rw [Ring.contents_push]
  simp only [newLine, chatExpire_seq]

/-! ## What is rendered is whole -/

theorem length_lineText (Z : Zone) (t : Int) (who text : Str) : (lineText Z t who text).length < chatLine := by
  unfold lineText
  simp only [List.length_map, List.length_append, List.length_take]
  have := Agent.utf8Prefix_le text (chatLine - 1 - min (paddedInt 2 (Z.localtime t).hour ++ lit ":" ++
    paddedInt 2 (Z.localtime t).min ++ lit " " ++ who ++ lit ": ").length (chatLine - 1))
  simp only [List.length_append] at this
  unfold chatLine at *
  omega

/-- At most twenty lines that fit their field are rendered whole. -/
theorem channel_whole {c : ChatLog} (h : ∀ l ∈ c.ring.contents, l.text.length < chatLine) (after : Nat) (skip : Option Str) :
    channel c after skip = if linesAfter c after skip = [] then []
      else chatHeader ((linesAfter c after skip).flatMap fun l => l.text ++ lit "\n") := by
  have hlines : ∀ ls : List Line, (∀ l ∈ ls, l.text.length < chatLine) →
      (ls.flatMap fun l => l.text ++ lit "\n").length ≤ ls.length * chatLine := by
    intro ls hls
    induction ls with
    | nil => exact Nat.le_refl _
    | cons l ls ih =>
      have hl := hls l List.mem_cons_self
      have := ih fun x hx => hls x (List.mem_cons_of_mem _ hx)
      rw [List.flatMap_cons, List.length_append, List.length_append, List.length_cons, Nat.add_one_mul,
        show (lit "\n").length = 1 by decide]
      omega
  have hcount : (linesAfter c after skip).length ≤ chatLines := by
    refine (List.length_filter_le _ _).trans ?_
    rw [Ring.length_contents]
    exact c.ring.n_le
  have hlen := hlines (linesAfter c after skip) fun l hl => h l (List.mem_of_mem_filter hl)
  have hmul := Nat.mul_le_mul_right chatLine hcount
  have hrender : (chatRender c after skip chatSize).1 = (linesAfter c after skip).flatMap fun l => l.text ++ lit "\n" := by
    refine (cut_eq_self (by decide)).mpr ?_
    unfold chatSize
    omega
  have hnil : (linesAfter c after skip).flatMap (fun l => l.text ++ lit "\n") = [] ↔ linesAfter c after skip = [] := by
    cases linesAfter c after skip with
    | nil => exact iff_of_true rfl rfl
    | cons l ls => simp [lit]
  unfold channel
  dsimp only
  rw [hrender]
  by_cases hempty : linesAfter c after skip = []
  · rw [if_pos hempty, if_pos (hnil.mpr hempty)]
  · rw [if_neg hempty, if_neg (mt hnil.mp hempty)]
    refine (cut_eq_self (by decide)).mpr ?_
    unfold chatHeader chatSize
    rw [List.length_append, List.length_append, show (lit "\n").length = 1 by decide,
      show (lit "## On the channel (oldest first)\n").length = 33 by decide]
    omega

/-! ## The log as its fields hold it -/

/-- A log whose lines fit `char text[TC_CHAT_LINE]`. -/
structure FieldLog extends ChatLog where
  fits : ∀ l ∈ ring.contents, l.text.length < chatLine

def FieldLog.init : FieldLog := ⟨chatInit, fun l hl => by cases hl⟩

theorem chatExpire_contents (idle : Idle) (c : ChatLog) (now : Int) {l : Line} (h : l ∈ (chatExpire idle c now).ring.contents) :
    l ∈ c.ring.contents := by
  unfold chatExpire at h
  split at h
  · rw [show c.ring.clear.contents = [] from rfl] at h
    cases h
  · exact h

def FieldLog.expire (idle : Idle) (c : FieldLog) (now : Int) : FieldLog :=
  ⟨chatExpire idle c.toChatLog now, fun l hl => c.fits l (chatExpire_contents idle c.toChatLog now hl)⟩

theorem chatAdd_fits (idle : Idle) (Z : Zone) (c : FieldLog) (now t : Int) (agent who text : Str) :
    ∀ l ∈ (chatAdd idle Z c.toChatLog now t agent who text).ring.contents, l.text.length < chatLine := by
  intro l hl
  by_cases htext : text = []
  · unfold chatAdd at hl
    rw [if_pos htext] at hl
    exact c.fits l hl
  · rw [chatAdd_contents idle Z c.toChatLog now t htext] at hl
    rcases List.mem_append.mp (List.mem_of_mem_drop hl) with hl | hl
    · exact c.fits l (chatExpire_contents idle c.toChatLog now hl)
    · rw [List.mem_singleton.mp hl]
      exact length_lineText ..

def FieldLog.add (idle : Idle) (Z : Zone) (c : FieldLog) (now t : Int) (agent who text : Str) : FieldLog :=
  ⟨chatAdd idle Z c.toChatLog now t agent who text, chatAdd_fits idle Z c now t agent who text⟩

end Shclaw.Chat
