/-
  Shclaw.Agent.History — the messages array of a conversation and the two ways it is
  shortened (`src/agent.c`: `add_user_text`, `conv_fit`, `trim_history`;
  `src/util.c`: `utf8_prefix`).

  `conv_fit` drops whole exchanges: from the first user text after the opening turn to
  the next one, as often as the printed array is over its limit. `trim_history` cuts
  old tool outputs where they stand: it changes only `content` strings of blocks, of
  every message but the newest.
-/

import Shclaw.Json

namespace Shclaw.Agent

open Lib

/-! ## Messages -/

def userText (text : Str) : Json := .obj [(lit "role", .str (lit "user")), (lit "content", .str text)]

/-- A user turn with a string for its content; tool results are user turns too, as arrays. -/
def isUserText (m : Json) : Bool :=
  m.jStr (lit "role") = some (lit "user") && (m.getObjectItem (lit "content")).any Json.isString

/-- The blocks of a message: the children of its content. -/
def blocks (m : Json) : List Json := ((m.getObjectItem (lit "content")).map Json.children).getD []

/-! ## `conv_fit` -/

/-- Without the exchange from the first user text after the opening turn to the next; `none`
    when there is no next. -/
def dropExchange : List Json → Option (List Json)
  | [] => none
  | m :: rest =>
    match rest.dropWhile (!isUserText ·) with
    | [] => none
    | _ :: more =>
      match more.dropWhile (!isUserText ·) with
      | [] => none
      | next :: later => some (m :: (rest.takeWhile (!isUserText ·) ++ next :: later))

variable (J : CJson)

/-- `n` rounds of the loop. -/
def convFitLoop (max : Nat) : Nat → List Json → Bool × List Json
  | 0, msgs => (decide ((J.print (.arr msgs)).length ≤ max), msgs)
  | n + 1, msgs =>
    if (J.print (.arr msgs)).length ≤ max then (true, msgs)
    else
      match dropExchange msgs with
      | none => (false, msgs)
      | some msgs => convFitLoop max n msgs

/-- A round shortens the array, so as many rounds as messages are enough. -/
def convFit (max : Nat) (msgs : List Json) : Bool × List Json := convFitLoop J max msgs.length msgs

/-! ## `trim_history` -/

/-- Drop the bytes at the end of `p` up to the start of a character. -/
def charStart (s : Str) : Nat → Nat
  | 0 => 0
  | n + 1 => if byte s (n + 1) &&& 0xC0 = 0x80 then charStart s n else n + 1

def utf8Prefix (s : Str) (max : Nat) : Nat := if s.length < max then s.length else charStart s max

theorem charStart_le (s : Str) (n : Nat) : charStart s n ≤ n := by
  induction n with
  | zero => exact Nat.le_refl 0
  | succ n ih =>
    unfold charStart
    split
    · exact Nat.le_succ_of_le ih
    · exact Nat.le_refl _

theorem utf8Prefix_le (s : Str) (max : Nat) : utf8Prefix s max ≤ max := by
  unfold utf8Prefix
  split
  · omega
  · exact charStart_le s max

theorem utf8Prefix_le_length (s : Str) (max : Nat) : utf8Prefix s max ≤ s.length := by
  have := charStart_le s max
  unfold utf8Prefix
  split <;> omega

/-- `size_t` subtraction. -/
def sizeSub (a b : Nat) : Nat := (a + 2 ^ 64 - b) % 2 ^ 64

def elided (n : Nat) : Str :=
  lit "\n[... " ++ decimal n ++ lit " bytes of old tool output removed to fit the context budget]"

/-- The text that replaces an old tool output. -/
def shorter (c : Str) : Str :=
  let keep := utf8Prefix c 200
  cut 400 (c.take keep ++ elided (c.length - keep))

def contentLen (block : Json) : Nat := ((block.jStr (lit "content")).map List.length).getD 0

def trimBlocks (budget : Nat) : Nat → List Json → List Json × Nat
  | total, [] => ([], total)
  | total, block :: rest =>
    if total ≤ budget ∨ contentLen block ≤ 400 then
      let r := trimBlocks budget total rest
      (block :: r.1, r.2)
    else
      let c := shorter ((block.jStr (lit "content")).getD [])
      let r := trimBlocks budget (sizeSub total (contentLen block - c.length)) rest
      (block.replaceItem (lit "content") (.str c) :: r.1, r.2)

/-- The same value with other children. -/
def setChildren : Json → List Json → Json
  | .arr _, xs => .arr xs
  | .obj kvs, xs => .obj (kvs.zipWith (fun kv x => (kv.1, x)) xs)
  | j, _ => j

/-- Change the first member with this key where it stands. -/
def onItem (j : Json) (k : Str) (g : Json → Json) : Json :=
  match j with
  | .obj kvs => .obj (kvs.replaceF fun kv => if strcaseeq kv.1 k then some (kv.1, g kv.2) else none)
  | j => j

def trimMessage (budget total : Nat) (m : Json) : Json × Nat :=
  let r := trimBlocks budget total (blocks m)
  (onItem m (lit "content") (setChildren · r.1), r.2)

/-- The loop over the messages; the last is the newest. -/
def trimMessages (budget : Nat) : Nat → List Json → List Json
  | _, [] => []
  | _, [newest] => [newest]
  | total, m :: m' :: rest =>
    if total ≤ budget then m :: m' :: rest
    else
      let r := trimMessage budget total m
      r.1 :: trimMessages budget r.2 (m' :: rest)

def outputLen (msgs : List Json) : Nat := (msgs.flatMap blocks).foldl (fun n b => n + contentLen b) 0

def trimHistory (budget : Nat) (msgs : List Json) : List Json :=
  if outputLen msgs ≤ budget then msgs else trimMessages (budget / 2) (outputLen msgs) msgs

/-! ## What `trim_history` writes in -/

theorem getObjectItem_onItem (j : Json) (k l : Str) (g : Json → Json) : (onItem j k g).getObjectItem l =
    if strcaseeq k l then (j.getObjectItem l).map g else j.getObjectItem l := by
  cases j with
  | obj kvs =>
    simp only [onItem, Json.getObjectItem]
    rw [Json.find?_replaceF kvs (g := fun kv => (kv.1, g kv.2)) (fun _ h => h)]
    split
    · rw [Option.map_map, Option.map_map]
      rfl
    · rfl
  | _ => simp [onItem, Json.getObjectItem]

theorem children_setChildren {c : Json} {xs : List Json} (h : xs.length = c.children.length) :
    (setChildren c xs).children = xs := by
  cases c with
  | arr _ => rfl
  | obj kvs =>
    simp only [Json.children, List.length_map] at h
    simp only [setChildren, Json.children, List.map_zipWith]
    induction kvs generalizing xs with
    | nil => rw [List.length_eq_zero_iff.mp h]; rfl
    | cons kv kvs ih =>
      cases xs with
      | nil => cases h
      | cons x xs =>
        rw [List.zipWith_cons_cons, ih (by simpa using h)]
  | _ =>
    rw [List.length_eq_zero_iff.mp h]
    rfl

/-! ## Every round of `conv_fit` shortens the array -/

theorem dropExchange_cases {msgs msgs' : List Json} (h : dropExchange msgs = some msgs') :
    ∃ m before u between next later, msgs = m :: before ++ u :: (between ++ next :: later) ∧
      isUserText u = true ∧ isUserText next = true ∧ msgs' = m :: before ++ next :: later := by
  have found : ∀ {l : List Json} {u : Json} {more : List Json}, l.dropWhile (!isUserText ·) = u :: more →
      l = l.takeWhile (!isUserText ·) ++ u :: more ∧ isUserText u = true := by
    intro l u more hl
    refine ⟨by rw [← hl, List.takeWhile_append_dropWhile], ?_⟩
    have hne : l.dropWhile (!isUserText ·) ≠ [] := by rw [hl]; exact List.cons_ne_nil _ _
    have := List.head_dropWhile_not (p := (!isUserText ·)) hne
    simp only [hl, List.head_cons] at this
    simpa using this
  unfold dropExchange at h
  split at h
  · cases h
  rename_i m rest
  split at h
  · cases h
  rename_i u more hrest
  split at h
  · cases h
  rename_i next later hmore
  cases h
  obtain ⟨h1, hu⟩ := found hrest
  obtain ⟨h2, hnext⟩ := found hmore
  refine ⟨m, _, u, more.takeWhile (!isUserText ·), next, later, ?_, hu, hnext, by rw [List.cons_append]⟩
  rw [← h2, List.cons_append, ← h1]

theorem dropExchange_length {msgs msgs' : List Json} (h : dropExchange msgs = some msgs') :
    msgs'.length < msgs.length := by
  obtain ⟨m, before, u, between, next, later, rfl, -, -, rfl⟩ := dropExchange_cases h
  simp only [List.length_append, List.length_cons]
  omega

/-- More rounds than messages change nothing. -/
theorem convFitLoop_enough (max : Nat) :
    ∀ {n : Nat} {msgs : List Json}, msgs.length ≤ n → convFitLoop J max n msgs = convFit J max msgs := by
  have key : ∀ (k n : Nat) (msgs : List Json), msgs.length ≤ k → msgs.length ≤ n →
      convFitLoop J max n msgs = convFitLoop J max k msgs := by
    intro k
    induction k with
    | zero =>
      intro n msgs hk _
      obtain rfl := List.length_eq_zero_iff.mp (Nat.le_zero.mp hk)
      cases n with
      | zero => rfl
      | succ n =>
        simp only [convFitLoop, dropExchange]
        split <;> simp [*]
    | succ k ih =>
      intro n msgs hk hn
      cases n with
      | zero =>
        obtain rfl := List.length_eq_zero_iff.mp (Nat.le_zero.mp hn)
        simp only [convFitLoop, dropExchange]
        split <;> simp [*]
      | succ n =>
        simp only [convFitLoop]
        split
        · rfl
        split
        · rfl
        · rename_i hd
          have := dropExchange_length hd
          exact ih n _ (by omega) (by omega)
  intro n msgs h
  exact key _ _ _ (Nat.le_refl _) h

/-- `conv_fit`, one round at a time. -/
theorem convFit_eq (max : Nat) (msgs : List Json) : convFit J max msgs =
    if (J.print (.arr msgs)).length ≤ max then (true, msgs)
    else match dropExchange msgs with
      | none => (false, msgs)
      | some msgs => convFit J max msgs := by
  rw [← convFitLoop_enough J max (Nat.le_succ msgs.length)]
  simp only [convFitLoop]
  split
  · rfl
  split
  · rfl
  · rename_i hd
    exact convFitLoop_enough J max (by have := dropExchange_length hd; omega)

/-- What a dropped exchange leaves intact, `conv_fit` does. -/
theorem convFit_invariant {P : List Json → Prop} (hstep : ∀ msgs msgs', P msgs → dropExchange msgs = some msgs' → P msgs')
    (max : Nat) {msgs : List Json} (h : P msgs) : P (convFit J max msgs).2 := by
  unfold convFit
  generalize msgs.length = n
  induction n generalizing msgs with
  | zero => exact h
  | succ n ih =>
    simp only [convFitLoop]
    split
    · exact h
    split
    · exact h
    · rename_i hd
      exact ih (hstep _ _ h hd)

end Shclaw.Agent
