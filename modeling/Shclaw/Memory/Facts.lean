/-
  Shclaw.Memory.Facts — the facts of an agent (`src/memory.c`: `facts_set`,
  `facts_get`).

  `facts.json` is missing (`none`) or holds a text. Both calls load the whole file
  (`json_load`); `facts_set` saves it (`json_save_atomic`, which replaces the file or,
  when `saved` is false, leaves it). A null pointer is `none`. Texts are whole: the
  caller's buffer cuts them.
-/

import Shclaw.Json

namespace Shclaw.Memory

open Lib

variable (J : CJson)

/-- `json_load` of an object: `none` for a file that is not one. -/
def loadFacts (f : Option Str) : Option Json :=
  match f with
  | none => some (.obj [])
  | some text =>
    match J.parse text with
    | some (.obj kvs) => some (.obj kvs)
    | _ => none

/-- `json_save_atomic`. -/
def saveFacts (saved : Bool) (facts : Json) (f : Option Str) : Option Str :=
  if saved then some (J.printFormatted facts) else f

def factsSet (saved : Bool) (key value : Option Str) (f : Option Str) : Option Str × Str :=
  match key, value with
  | some (c :: k), some v =>
    match loadFacts J f with
    | none => (f, lit "Error: cannot save fact")
    | some facts =>
      (saveFacts J saved (facts.setString (c :: k) v) f,
        if saved then lit "Fact saved: " ++ (c :: k) ++ lit " = " ++ v else lit "Error: cannot save fact")
  | _, _ => (f, lit "Error: key and value are required")

def factLine (kv : Str × Json) : Str :=
  match kv.2 with
  | .str v => lit "- " ++ kv.1 ++ lit ": " ++ v ++ lit "\n"
  | _ => []

/-- Without a key: every fact that is a string, a line each. -/
def factsGet (key : Option Str) (f : Option Str) : Str :=
  let facts := loadFacts J f
  match key with
  | some (c :: k) => ((facts.bind (·.jStr (c :: k))).getD (lit "(not found)"))
  | _ =>
    match facts with
    | some (.obj kvs) => kvs.flatMap factLine
    | _ => []

/-! ## What a call can do -/

theorem loadFacts_isObject {f : Option Str} {facts : Json} (h : loadFacts J f = some facts) : facts.isObject = true := by
  unfold loadFacts at h
  split at h
  · cases h
    rfl
  · split at h
    · cases h
      rfl
    · cases h

/-- A call fails and leaves the file, or saves the facts with its key set. -/
theorem factsSet_cases (saved : Bool) (key value : Option Str) (f : Option Str) :
    (factsSet J saved key value f).1 = f ∧ startsWith (factsSet J saved key value f).2 (lit "Error") = true ∨
    ∃ facts k v, key = some k ∧ value = some v ∧ loadFacts J f = some facts ∧
      (factsSet J saved key value f).1 = saveFacts J true (facts.setString k v) f ∧
      startsWith (factsSet J saved key value f).2 (lit "Error") = false := by
  unfold factsSet
  split
  · rename_i c k v
    split
    · exact Or.inl ⟨rfl, rfl⟩
    · rename_i facts hl
      cases saved with
      | false => exact Or.inl ⟨rfl, rfl⟩
      | true => exact Or.inr ⟨facts, c :: k, v, rfl, rfl, hl, rfl, rfl⟩
  · exact Or.inl ⟨rfl, rfl⟩

end Shclaw.Memory
