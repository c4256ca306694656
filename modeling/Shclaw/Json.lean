/-
  Shclaw.Json — the cJSON values the program works on, and its own helpers over them
  (`src/util.c`: `j_str`; `src/scheduler.c` and `src/session.c`: `set_string`).

  cJSON is fetched by `vendor.sh` and is not in the repository. Its trees and the
  accessors on them are modelled as cJSON documents them: an object keeps its members
  in order and may hold a key twice; lookups, deletions and replacements act on the
  first key equal up to ASCII case; `cJSON_ArrayForEach` walks the children of an
  array or of an object. Its parser and printer are a parameter (`CJson`), of which
  the code relies on little: what was printed parses back to the same tree, and the
  text of an array or an object starts with its bracket.

  A number is `m * 10^-e`, a decimal literal.
-/

import Shclaw.Lib.CString

namespace Shclaw

open Lib

inductive Json where
  | null
  | bool (b : Bool)
  | num (m : Int) (e : Nat)
  | str (s : Str)
  | arr (xs : List Json)
  | obj (kvs : List (Str × Json))
  deriving Repr, Inhabited

namespace Json

/-! ## Equality is decidable -/

mutual

def decEq : (a b : Json) → Decidable (a = b)
  | .null, .null => isTrue rfl
  | .bool a, .bool b => decidable_of_iff (a = b) (by simp)
  | .num a c, .num b d => decidable_of_iff (a = b ∧ c = d) (by simp)
  | .str a, .str b => decidable_of_iff (a = b) (by simp)
  | .arr a, .arr b => @decidable_of_iff _ (a = b) (by simp) (decEqArr a b)
  | .obj a, .obj b => @decidable_of_iff _ (a = b) (by simp) (decEqObj a b)
  | .null, .bool _ | .null, .num _ _ | .null, .str _ | .null, .arr _ | .null, .obj _
  | .bool _, .null | .bool _, .num _ _ | .bool _, .str _ | .bool _, .arr _ | .bool _, .obj _
  | .num _ _, .null | .num _ _, .bool _ | .num _ _, .str _ | .num _ _, .arr _ | .num _ _, .obj _
  | .str _, .null | .str _, .bool _ | .str _, .num _ _ | .str _, .arr _ | .str _, .obj _
  | .arr _, .null | .arr _, .bool _ | .arr _, .num _ _ | .arr _, .str _ | .arr _, .obj _
  | .obj _, .null | .obj _, .bool _ | .obj _, .num _ _ | .obj _, .str _ | .obj _, .arr _ => isFalse (by simp)

def decEqArr : (a b : List Json) → Decidable (a = b)
  | [], [] => isTrue rfl
  | x :: a, y :: b =>
    @decidable_of_iff _ (x = y ∧ a = b) (by simp) (@instDecidableAnd _ _ (decEq x y) (decEqArr a b))
  | [], _ :: _ | _ :: _, [] => isFalse (by simp)

def decEqObj : (a b : List (Str × Json)) → Decidable (a = b)
  | [], [] => isTrue rfl
  | (k, x) :: a, (l, y) :: b =>
    @decidable_of_iff _ (k = l ∧ x = y ∧ a = b) (by simp [and_assoc])
      (@instDecidableAnd _ _ _ (@instDecidableAnd _ _ (decEq x y) (decEqObj a b)))
  | [], _ :: _ | _ :: _, [] => isFalse (by simp)

end

instance : DecidableEq Json := decEq

/-! ## cJSON -/

/-- What `cJSON_ArrayForEach` walks. -/
def children : Json → List Json
  | .arr xs => xs
  | .obj kvs => kvs.map (·.2)
  | _ => []

def isArray : Json → Bool
  | .arr _ => true
  | _ => false

def isObject : Json → Bool
  | .obj _ => true
  | _ => false

def isString : Json → Bool
  | .str _ => true
  | _ => false

/-- `cJSON_IsTrue`. -/
def isTrue : Json → Bool
  | .bool b => b
  | _ => false

/-- `cJSON_GetObjectItem`. -/
def getObjectItem : Json → Str → Option Json
  | .obj kvs, k => (kvs.find? fun kv => strcaseeq kv.1 k).map (·.2)
  | _, _ => none

/-- `cJSON_DeleteItemFromObject`. -/
def deleteItem : Json → Str → Json
  | .obj kvs, k => .obj (kvs.eraseP fun kv => strcaseeq kv.1 k)
  | j, _ => j

/-- `cJSON_AddItemToObject`. -/
def addItem : Json → Str → Json → Json
  | .obj kvs, k, v => .obj (kvs ++ [(k, v)])
  | j, _, _ => j

/-- `cJSON_ReplaceItemInObject`: the new item also takes the given key. -/
def replaceItem : Json → Str → Json → Json
  | .obj kvs, k, v => .obj (kvs.replaceF fun kv => if strcaseeq kv.1 k then some (k, v) else none)
  | j, _, _ => j

/-- `j_str`. -/
def jStr (j : Json) (k : Str) : Option Str :=
  match j.getObjectItem k with
  | some (.str s) => some s
  | _ => none

/-- `cJSON_DeleteItemFromObject`, then `cJSON_AddItemToObject`. -/
def setItem (j : Json) (k : Str) (v : Json) : Json := (j.deleteItem k).addItem k v

/-- `set_string`. -/
def setString (j : Json) (k v : Str) : Json := j.setItem k (.str v)

end Json

/-- cJSON's parser and printers, with what the code relies on. -/
structure CJson where
  /-- `cJSON_Parse`. -/
  parse : Str → Option Json
  /-- `cJSON_PrintUnformatted`. -/
  print : Json → Str
  /-- `cJSON_Print`. -/
  printFormatted : Json → Str
  parse_print : ∀ j, parse (print j) = some j
  parse_printFormatted : ∀ j, parse (printFormatted j) = some j
  print_arr : ∀ xs, (print (.arr xs)).head? = some (ch '[')
  print_obj : ∀ kvs, (print (.obj kvs)).head? = some (ch '\x7b')

/-- `cJSON_Parse` as it is documented: it reads the first value of the text and ignores
    what follows it. What `cJSON_Print` printed is one value. -/
structure CJsonReader extends CJson where
  /-- The first value, and what follows it. -/
  value : Str → Option (Json × Str)
  parse_value : ∀ s, parse s = (value s).map (·.1)
  value_printFormatted : ∀ j, value (printFormatted j) = some (j, [])

/-- What a file of lines relies on: an unformatted text is one line, and an object whose text
    was cut is no value. -/
structure CJsonLines extends CJson where
  print_line : ∀ j, 10 ∉ print j
  parse_cut : ∀ kvs n, n < (print (.obj kvs)).length → parse ((print (.obj kvs)).take n) = none

namespace Json

mutual

/-- The bytes of the strings in a tree, keys aside. -/
def textSize : Json → Nat
  | .str s => s.length
  | .arr xs => textSizeArr xs
  | .obj kvs => textSizeObj kvs
  | .null | .bool _ | .num _ _ => 0

def textSizeArr : List Json → Nat
  | [] => 0
  | x :: xs => x.textSize + textSizeArr xs

def textSizeObj : List (Str × Json) → Nat
  | [] => 0
  | (_, x) :: kvs => x.textSize + textSizeObj kvs

end

end Json

/-- What a buffer sized by its source relies on: no string is longer than the text it is
    written with, escapes and all. -/
structure CJsonSized extends CJson where
  parse_size : ∀ s v, parse s = some v → v.textSize ≤ s.length

/-! ## Objects with distinct keys -/

namespace Json

theorem jStr_cons (key : Str) (v : Json) (kvs : List (Str × Json)) (k : Str) :
    (obj ((key, v) :: kvs)).jStr k = if strcaseeq key k then (match v with | .str s => some s | _ => none) else (obj kvs).jStr k := by
  unfold jStr getObjectItem
  by_cases h : strcaseeq key k = true
  · simp only [List.find?_cons, h, Option.map_some, if_true]
    cases v <;> rfl
  · simp only [List.find?_cons, h, if_false, Bool.false_eq_true]

theorem length_str_le (v : Json) : ((match v with | .str s => some s | _ => none : Option Str).getD []).length ≤ v.textSize := by
  cases v <;> simp [textSize]

theorem length_jStr_le (kvs : List (Str × Json)) (k : Str) : (((obj kvs).jStr k).getD []).length ≤ textSizeObj kvs := by
  induction kvs with
  | nil => exact Nat.le_refl _
  | cons kv kvs ih =>
    rw [jStr_cons, textSizeObj]
    split
    · exact (length_str_le kv.2).trans (Nat.le_add_right _ _)
    · exact ih.trans (Nat.le_add_left _ _)

/-- Two keys find two members. -/
theorem length_jStr_add_le (j : Json) {k l : Str} (h : strcaseeq k l = false) :
    ((j.jStr k).getD []).length + ((j.jStr l).getD []).length ≤ j.textSize := by
  cases j with
  | obj kvs =>
    rw [textSize]
    induction kvs with
    | nil => exact Nat.le_refl _
    | cons kv kvs ih =>
      rw [jStr_cons, jStr_cons, textSizeObj]
      have hv := length_str_le kv.2
      split
      · rename_i hk
        have hl : ¬strcaseeq kv.1 l = true := fun hl => by
          rw [strcaseeq_trans (strcaseeq_comm kv.1 k ▸ hk) hl] at h
          cases h
        rw [if_neg hl]
        exact Nat.add_le_add hv (length_jStr_le kvs l)
      · split
        · rw [Nat.add_comm kv.2.textSize]
          exact Nat.add_le_add (length_jStr_le kvs k) hv
        · omega
  | _ => exact Nat.zero_le _

/-- An object no two keys of which are equal up to case. -/
def IsRecord : Json → Prop
  | .obj kvs => (kvs.map fun kv => kv.1.map toLower).Nodup
  | _ => False

theorem find?_eraseP_ne (kvs : List (Str × Json)) {k l : Str} (h : strcaseeq k l = false) :
    (kvs.eraseP fun kv => strcaseeq kv.1 k).find? (fun kv => strcaseeq kv.1 l) =
      kvs.find? fun kv => strcaseeq kv.1 l := by
  induction kvs with
  | nil => rfl
  | cons kv kvs ih =>
    by_cases hk : strcaseeq kv.1 k = true
    · have hl : strcaseeq kv.1 l = false := by
        by_contra hne
        have hkl := strcaseeq_trans (strcaseeq_comm kv.1 k ▸ hk) (Bool.not_eq_false _ ▸ hne)
        rw [hkl] at h
        cases h
      simp [hk, hl]
    · simp only [List.eraseP_cons, hk, cond_false, List.find?_cons, ih]

/-- Once its first `k` is gone, a record has no other. -/
theorem find?_eraseP_self {kvs : List (Str × Json)} {k : Str} (h : (kvs.map fun kv => kv.1.map toLower).Nodup) :
    (kvs.eraseP fun kv => strcaseeq kv.1 k).find? (fun kv => strcaseeq kv.1 k) = none := by
  induction kvs with
  | nil => rfl
  | cons kv kvs ih =>
    simp only [List.map_cons, List.nodup_cons] at h
    by_cases hk : strcaseeq kv.1 k = true
    · simp only [List.eraseP_cons, hk, cond_true, List.find?_eq_none]
      intro x hx hxk
      apply h.1
      have : kv.1.map toLower = x.1.map toLower := by
        simp only [strcaseeq, beq_iff_eq] at hk hxk
        rw [hk, hxk]
      rw [this]
      exact List.mem_map_of_mem (f := fun kv : Str × Json => kv.1.map toLower) hx
    · simp only [List.eraseP_cons, hk, cond_false, List.find?_cons, ih h.2]

theorem getObjectItem_setItem {j : Json} (h : j.IsRecord) (k l : Str) (v : Json) :
    (j.setItem k v).getObjectItem l = if strcaseeq k l then some v else j.getObjectItem l := by
  cases j with
  | obj kvs =>
    simp only [setItem, deleteItem, addItem, getObjectItem, List.find?_append]
    by_cases hkl : strcaseeq k l = true
    · have hfun : (fun kv : Str × Json => strcaseeq kv.1 l) = fun kv => strcaseeq kv.1 k := by
        funext kv
        simp only [strcaseeq, beq_iff_eq] at hkl ⊢
        rw [hkl]
      rw [hfun, find?_eraseP_self h]
      simp [hkl]
    · rw [find?_eraseP_ne kvs (by simpa using hkl)]
      simp [hkl]
  | _ => exact h.elim

theorem isRecord_setItem {j : Json} (h : j.IsRecord) (k : Str) (v : Json) : (j.setItem k v).IsRecord := by
  cases j with
  | obj kvs =>
    simp only [setItem, deleteItem, addItem, IsRecord, List.map_append, List.map_cons, List.map_nil]
    rw [List.nodup_append]
    refine ⟨h.sublist (List.eraseP_sublist.map _), by simp, ?_⟩
    intro a ha b hb hab
    obtain ⟨kv, hkv, rfl⟩ := List.mem_map.mp ha
    simp only [List.mem_singleton] at hb
    have hnone := List.find?_eq_none.mp (find?_eraseP_self (k := k) h) kv hkv
    simp only [strcaseeq, beq_iff_eq] at hnone
    exact hnone (hab.trans hb)
  | _ => exact h.elim

theorem jStr_setString {j : Json} (h : j.IsRecord) (k l v : Str) :
    (j.setString k v).jStr l = if strcaseeq k l then some v else j.jStr l := by
  simp only [setString, jStr, getObjectItem_setItem h]
  by_cases hkl : strcaseeq k l = true
  · simp [hkl]
  · simp [hkl]

/-- The members whose keys are none of `ks`. -/
def others (ks : List Str) : Json → List (Str × Json)
  | .obj kvs => kvs.filter fun kv => !ks.any fun k => strcaseeq kv.1 k
  | _ => []

theorem others_setItem {ks : List Str} {k : Str} (hk : k ∈ ks) (j : Json) (v : Json) :
    (j.setItem k v).others ks = j.others ks := by
  have hany : ∀ l : Str, strcaseeq l k = true → ks.any (fun k => strcaseeq l k) = true :=
    fun l hl => List.any_eq_true.mpr ⟨k, hk, hl⟩
  cases j with
  | obj kvs =>
    simp only [setItem, deleteItem, addItem, others, List.filter_append]
    have hnew : [(k, v)].filter (fun kv => !ks.any fun k => strcaseeq kv.1 k) = [] := by
      simp [hany k (strcaseeq_refl k)]
    rw [hnew, List.append_nil]
    induction kvs with
    | nil => rfl
    | cons kv kvs ih =>
      by_cases hkv : strcaseeq kv.1 k = true
      · simp [hkv, hany kv.1 hkv]
      · simp only [List.eraseP_cons, hkv, cond_false, List.filter_cons, ih]
  | _ => rfl

theorem isObject_setItem (j : Json) (k : Str) (v : Json) : (j.setItem k v).isObject = j.isObject := by
  cases j <;> rfl

/-- A lookup after the first member with key `k` was changed. -/
theorem find?_replaceF (kvs : List (Str × Json)) {k : Str} {g : Str × Json → Str × Json}
    (hg : ∀ kv, strcaseeq kv.1 k = true → strcaseeq (g kv).1 k = true) (l : Str) :
    (kvs.replaceF fun kv => if strcaseeq kv.1 k then some (g kv) else none).find? (fun kv => strcaseeq kv.1 l) =
      if strcaseeq k l then (kvs.find? fun kv => strcaseeq kv.1 l).map g else kvs.find? fun kv => strcaseeq kv.1 l := by
  have hkl : ∀ a : Str, strcaseeq a k = true → strcaseeq a l = strcaseeq k l := by
    intro a ha
    simp only [strcaseeq, beq_iff_eq] at ha ⊢
    rw [ha]
  induction kvs with
  | nil => simp
  | cons kv kvs ih =>
    by_cases hk : strcaseeq kv.1 k = true
    · simp only [List.replaceF, hk, if_true, List.find?_cons, hkl _ hk, hkl _ (hg kv hk)]
      cases strcaseeq k l <;> simp
    · simp only [List.replaceF, hk, List.find?_cons, ih, Bool.false_eq_true, if_false]
      by_cases hl : strcaseeq kv.1 l = true
      · have hne : strcaseeq k l = false := by
          by_contra hc
          exact hk (strcaseeq_trans hl (strcaseeq_comm k l ▸ Bool.not_eq_false _ ▸ hc))
        simp [hl, hne]
      · simp [hl]

theorem getObjectItem_replaceItem (j : Json) (k l : Str) (v : Json) : (j.replaceItem k v).getObjectItem l =
    if strcaseeq k l then (j.getObjectItem l).map fun _ => v else j.getObjectItem l := by
  cases j with
  | obj kvs =>
    simp only [replaceItem, getObjectItem]
    rw [find?_replaceF kvs (g := fun _ => (k, v)) (fun _ _ => strcaseeq_refl k)]
    split
    · rw [Option.map_map, Option.map_map]
      rfl
    · rfl
  | _ => simp [replaceItem, getObjectItem]

end Json

end Shclaw
