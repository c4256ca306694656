/-
  Shclaw.Memory.ReadBack — a fact that was set, read again.

  `facts_set` (`src/memory.c`) deletes the first fact with the key and adds the new one
  at the end; `facts_get` reads the first. Keys are compared up to case, and a file that
  was edited by hand can have several that are equal: then the second one of them comes
  before the new fact. So a fact reads back exactly when that one is missing or reads as
  the same (`facts_read_back`); other facts stay in any case.
-/

import Shclaw.JsonText
import Shclaw.Memory.Facts

namespace Shclaw.Memory

open Lib

variable {J : CJson}

/-- What `facts_get` makes of an item. -/
def readsAs : Json → Str
  | .str s => s
  | _ => lit "(not found)"

/-- The second fact with the key. -/
def secondOf (key : Str) (kvs : List (Str × Json)) : Option (Str × Json) :=
  ((kvs.filter fun kv => strcaseeq kv.1 key).drop 1).head?

theorem filter_eraseP (p : Str × Json → Bool) (kvs : List (Str × Json)) :
    (kvs.eraseP p).filter p = (kvs.filter p).drop 1 := by
  induction kvs with
  | nil => rfl
  | cons kv kvs ih =>
    by_cases h : p kv = true
    · simp [h]
    · simp [h, ih]

/-- Behind the first fact with the key comes the second. -/
theorem find?_eraseP (key : Str) (kvs : List (Str × Json)) :
    (kvs.eraseP fun kv => strcaseeq kv.1 key).find? (fun kv => strcaseeq kv.1 key) = secondOf key kvs := by
  rw [← List.head?_filter, filter_eraseP]
  rfl

theorem factsGet_key {key : Str} (hkey : key ≠ []) {f : Option Str} {kvs : List (Str × Json)}
    (hf : loadFacts J f = some (.obj kvs)) : factsGet J (some key) f =
      ((kvs.find? fun kv => strcaseeq kv.1 key).map fun kv => readsAs kv.2).getD (lit "(not found)") := by
  cases key with
  | nil => exact absurd rfl hkey
  | cons c k =>
    unfold factsGet
    rw [hf]
    simp only [Option.bind_some, Json.jStr, Json.getObjectItem]
    cases kvs.find? fun kv => strcaseeq kv.1 (c :: k) with
    | none => rfl
    | some kv => cases h : kv.2 <;> simp [h, readsAs]

theorem loadFacts_set {key value : Str} {f : Option Str} {kvs : List (Str × Json)} {saved : Bool}
    (hf : loadFacts J f = some (.obj kvs))
    (hok : startsWith (factsSet J saved (some key) (some value) f).2 (lit "Error") = false) :
    key ≠ [] ∧ loadFacts J (factsSet J saved (some key) (some value) f).1 =
      some (.obj ((kvs.eraseP fun kv => strcaseeq kv.1 key) ++ [(key, .str value)])) := by
  constructor
  · rintro rfl
    have herror : startsWith (factsSet J saved (some []) (some value) f).2 (lit "Error") = true := rfl
    rw [hok] at herror
    cases herror
  · rcases factsSet_cases J saved (some key) (some value) f with ⟨-, herror⟩ | ⟨facts, k, v, hk, hv, hfacts, hfile, -⟩
    · rw [hok] at herror
      cases herror
    · cases hk
      cases hv
      cases hf.symm.trans hfacts
      rw [hfile, saveFacts, if_pos rfl, loadFacts, J.parse_printFormatted]
      rfl

/-- A fact that was set reads back exactly when the second one with its key in the file, if
    there is one, reads as the same; the facts with other keys read as before. -/
theorem facts_read_back (J : CJson) {key value : Str} {f : Option Str} {kvs : List (Str × Json)} {saved : Bool}
    (hf : loadFacts J f = some (.obj kvs))
    (hok : startsWith (factsSet J saved (some key) (some value) f).2 (lit "Error") = false) :
    (factsGet J (some key) (factsSet J saved (some key) (some value) f).1 = value ∧
      ∀ k, k ≠ [] → strcaseeq key k = false →
        factsGet J (some k) (factsSet J saved (some key) (some value) f).1 = factsGet J (some k) f) ↔
      ∀ kv ∈ secondOf key kvs, readsAs kv.2 = value := by
  obtain ⟨hkey, hset⟩ := loadFacts_set hf hok
  have hothers : ∀ k, k ≠ [] → strcaseeq key k = false →
      factsGet J (some k) (factsSet J saved (some key) (some value) f).1 = factsGet J (some k) f := by
    intro k hk hne
    rw [factsGet_key hk hset, factsGet_key hk hf, List.find?_append, Json.find?_eraseP_ne kvs hne]
    simp [hne]
  rw [and_iff_left hothers, factsGet_key hkey hset, List.find?_append, find?_eraseP]
  cases secondOf key kvs with
  | none => simp [readsAs]
  | some kv => simp

/-- A file with another fact, and the one that is set under another case. -/
def twoFacts : Str := CJson.compact.printFormatted
  (.obj [(lit "Tea", .str (lit "black")), (lit "milk", .str (lit "no"))])

theorem facts_read_back_tea :
    factsGet CJson.compact (some (lit "tea")) (factsSet CJson.compact true (some (lit "tea")) (some (lit "green")) (some twoFacts)).1 =
        lit "green" ∧
      factsGet CJson.compact (some (lit "milk")) (factsSet CJson.compact true (some (lit "tea")) (some (lit "green")) (some twoFacts)).1 =
        lit "no" := by
  have hload : loadFacts CJson.compact (some twoFacts) =
      some (.obj [(lit "Tea", .str (lit "black")), (lit "milk", .str (lit "no"))]) := by
    rw [loadFacts, twoFacts, CJson.parse_printFormatted]
  obtain ⟨htea, hothers⟩ := (@facts_read_back CJson.compact (lit "tea") (lit "green") (some twoFacts) _ true hload
    (by decide +kernel)).mpr (by decide)
  refine ⟨htea, (hothers (lit "milk") (by decide) (by decide)).trans ?_⟩
  rw [factsGet_key (by decide) hload]
  rfl

/-- What a fact that is saved answers. -/
theorem factsSet_answer {c : UInt8} {k key value : Str} {f : Option Str} {facts : Json} (hkey : key = c :: k)
    (hload : loadFacts J f = some facts) :
    (factsSet J true (some key) (some value) f).2 = lit "Fact saved: " ++ key ++ lit " = " ++ value := by
  subst hkey
  unfold factsSet
  rw [hload]
  rfl

/-- A file with two keys that are equal up to case: the old value is read. -/
theorem twin_fact_reads_old : ¬ ∀ (key value : Str) (f : Option Str) (kvs : List (Str × Json)),
    loadFacts CJson.compact f = some (.obj kvs) →
    startsWith (factsSet CJson.compact true (some key) (some value) f).2 (lit "Error") = false →
    factsGet CJson.compact (some key) (factsSet CJson.compact true (some key) (some value) f).1 = value := by
  intro h
  have hload : loadFacts CJson.compact (some (CJson.compact.printFormatted
      (.obj [(lit "Tea", .str (lit "black")), (lit "tea", .str (lit "white"))]))) =
      some (.obj [(lit "Tea", .str (lit "black")), (lit "tea", .str (lit "white"))]) := by
    rw [loadFacts, CJson.parse_printFormatted]
  have hok : startsWith (factsSet CJson.compact true (some (lit "tea")) (some (lit "green")) (some (CJson.compact.printFormatted
      (.obj [(lit "Tea", .str (lit "black")), (lit "tea", .str (lit "white"))])))).2 (lit "Error") = false := by
    have hkey : lit "tea" = ch 't' :: lit "ea" := rfl
    rw [factsSet_answer hkey hload]
    rfl
  have hread := h _ _ _ _ hload hok
  obtain ⟨hkey, hset⟩ := loadFacts_set hload hok
  rw [factsGet_key hkey hset] at hread
  exact absurd hread (by decide)

end Shclaw.Memory
