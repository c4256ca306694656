/-
  Shclaw.Tools.Schema — the check of a tool's arguments and the schema the model is
  shown for it (`src/tools.c`: `tool_check_args`, `tools_to_json`).

  `Accepts` reads a published schema: which parameters it requires, the type of each and
  the values of its `enum`. `check_agrees`: `tool_check_args` finds nothing wrong exactly
  with the arguments the schema accepts, where a number stands for an integer or a
  boolean, an integer or a boolean may come as a string, and an object or an array for a
  string without choices.

  Two kinds of values are left out (`Plain`). The choices are searched as one text, so
  two of them with their comma pass (`Joins`); and an integer that reads as `INT32_MIN` is
  taken for one that is missing (`Least`).
-/

import Mathlib.Data.List.TakeWhile
import Shclaw.Lib.Pieces
import Shclaw.JsonText
import Shclaw.Tools

namespace Shclaw.Tools

open Lib

/-! ## Values -/

def number (digits : Str) : Int := digits.foldl (fun n c => 10 * n + digitVal c) 0

/-- An integer as a string: blanks, a sign and digits. -/
def IntegerText (s : Str) (n : Int) : Prop :=
  ∃ blanks sign digits, s = blanks ++ (sign ++ digits) ∧ (∀ c ∈ blanks, isSpace c = true) ∧
    (sign = [] ∨ sign = [ch '+'] ∨ sign = [ch '-']) ∧ digits ≠ [] ∧ (∀ c ∈ digits, isDigit c = true) ∧
    n = if sign = [ch '-'] then -number digits else number digits

/-- A boolean as a string. -/
def BooleanText (s : Str) : Prop :=
  (strcaseeq s (lit "true") ∨ strcaseeq s (lit "yes") ∨ s = lit "1") ∨
    strcaseeq s (lit "false") ∨ strcaseeq s (lit "no") ∨ s = lit "0"

/-- An integer, as a number or a string. -/
def IsInteger (v : Json) : Prop :=
  (∃ m e, v = .num m e ∧ (10 : Int) ^ e ∣ m) ∨ ∃ s n, v = .str s ∧ IntegerText s n

def IsBoolean (v : Json) : Prop := (∃ b, v = .bool b) ∨ ∃ s, v = .str s ∧ BooleanText s

/-- What is taken for an integer: any number, of which the integer part counts, and a string within an `int`. -/
def IntegerLike (v : Json) : Prop :=
  (∃ m e, v = .num m e) ∨ ∃ s n, v = .str s ∧ IntegerText s n ∧ intMin ≤ n ∧ n ≤ intMax

/-- What is taken for a boolean: any number too. -/
def BooleanLike (v : Json) : Prop := IsBoolean v ∨ ∃ m e, v = .num m e

/-! ## Schemas -/

/-- A value fits a property of the schema. -/
def Conforms (integer boolean : Json → Prop) (prop v : Json) : Prop :=
  if prop.jStr (lit "type") = some (lit "integer") then integer v
  else if prop.jStr (lit "type") = some (lit "boolean") then boolean v
  else
    match prop.getObjectItem (lit "enum") with
    | some choices => ∃ s, v = .str s ∧ (s = [] ∨ .str s ∈ choices.children)
    | none => v.isString = true ∨ v.isObject = true ∨ v.isArray = true

def inputSchema (tool : Json) : Json := (tool.getObjectItem (lit "input_schema")).getD .null

def stringOf : Json → Option Str
  | .str s => some s
  | _ => none

def requiredNames (schema : Json) : List Str :=
  (((schema.getObjectItem (lit "required")).map Json.children).getD []).filterMap stringOf

def properties (schema : Json) : List (Str × Json) :=
  match schema.getObjectItem (lit "properties") with
  | some (.obj kvs) => kvs
  | _ => []

/-- An argument that is there and not null. -/
def Present (args : Json) (name : Str) (v : Json) : Prop := args.getObjectItem name = some v ∧ v.isNull = false

structure Accepts (conforms : Json → Json → Prop) (schema args : Json) : Prop where
  required : ∀ name ∈ requiredNames schema, ∃ v, Present args name v
  typed : ∀ prop ∈ properties schema, ∀ v, Present args prop.1 v → conforms prop.2 v

/-! ## The values left out -/

/-- Two choices or more, with their commas. -/
def Joins (choices : List Str) (s : Str) : Prop :=
  ∃ xs, 2 ≤ xs.length ∧ xs <:+: choices ∧ s = [ch ','].intercalate xs

/-- An integer that reads as `INT32_MIN`. -/
def Least (v : Json) : Prop :=
  (∃ m e, v = .num m e ∧ m.tdiv (10 ^ e) ≤ intMin) ∨ ∃ s, v = .str s ∧ IntegerText s intMin

structure Plain (t : ToolId) (args : Json) : Prop where
  choices : ∀ p ∈ (tools t).params, ∀ c ∈ p.choices, ∀ s, args.getObjectItem p.name = some (.str s) →
    ¬ Joins (commaPieces c) s
  ints : ∀ p ∈ (tools t).params, p.type = .int → ∀ v, args.getObjectItem p.name = some v → ¬ Least v

/-! ## What is published -/

section Published

variable (t : ToolDef) (p : Param)

theorem requiredNames_toJson : requiredNames (inputSchema t.toJson) = (t.params.filter (·.required)).map (·.name) := by
  have hitem : (inputSchema t.toJson).getObjectItem (lit "required") =
      some (.arr ((t.params.filter (·.required)).map fun p => .str p.name)) := rfl
  unfold requiredNames
  rw [hitem]
  simp only [Option.map_some, Option.getD_some, Json.children, List.filterMap_map]
  exact List.filterMap_eq_map_iff_forall_eq_some.mpr fun _ _ => rfl

theorem properties_toJson : properties (inputSchema t.toJson) = t.params.map fun p => (p.name, p.schema) := rfl

theorem schema_type : p.schema.jStr (lit "type") = some (typeName p.type) := rfl

theorem schema_enum : p.schema.getObjectItem (lit "enum") = p.choices.map fun c => .arr ((commaPieces c).map .str) := by
  unfold Param.schema
  cases p.choices <;> rfl

/-- The schema of a property, by the parameter's type. -/
theorem conforms_schema (integer boolean : Json → Prop) (v : Json) : Conforms integer boolean p.schema v ↔
    match p.type with
    | .int => integer v
    | .bool => boolean v
    | .string =>
      match p.choices with
      | some c => ∃ s, v = .str s ∧ (s = [] ∨ s ∈ commaPieces c)
      | none => v.isString = true ∨ v.isObject = true ∨ v.isArray = true := by
  unfold Conforms
  rw [schema_type, schema_enum]
  cases p.type with
  | int =>
    rw [if_pos (by decide)]
  | bool =>
    rw [if_neg (by decide), if_pos (by decide)]
  | string =>
    rw [if_neg (by decide), if_neg (by decide)]
    cases p.choices with
    | none => exact Iff.rfl
    | some c => simp [Json.children]

end Published

/-- Every tool is published, to builders or to the others. -/
theorem published (t : ToolId) : ∃ isBuilder, (tools t).toJson ∈ toolsToJson isBuilder := by
  refine ⟨decide (t = .createPlugin), List.mem_map.mpr ⟨t, List.mem_filter.mpr ⟨?_, ?_⟩, rfl⟩⟩ <;> cases t <;> decide

/-! ## Reading a number -/

/-- A digit is neither a blank nor a sign. -/
theorem isDigit_only {c : UInt8} (h : isDigit c = true) : isSpace c = false ∧ c ≠ ch '-' ∧ c ≠ ch '+' := by
  have hall : ∀ n : Fin 256, isDigit (UInt8.ofNat n) = true →
      isSpace (UInt8.ofNat n) = false ∧ UInt8.ofNat n ≠ ch '-' ∧ UInt8.ofNat n ≠ ch '+' := by decide +kernel
  have hc : UInt8.ofNat c.toNat = c := UInt8.ofNat_toNat
  have h' := hall ⟨c.toNat, c.toNat_lt⟩
  simp only [hc] at h'
  exact h' h

/-- Behind the blanks and the sign, digits are read to the end. -/
theorem strtol_digits {s rest digits : Str} (hrest : s.dropWhile isSpace = rest)
    (hdigits : (if byte rest 0 = ch '-' ∨ byte rest 0 = ch '+' then rest.drop 1 else rest) = digits) (hne : digits ≠ [])
    (hd : ∀ c ∈ digits, isDigit c = true) :
    strtol s = some (if byte rest 0 = ch '-' then -number digits else number digits, []) := by
  unfold strtol
  dsimp only
  rw [hrest, hdigits, List.takeWhile_eq_self_iff.mpr hd, List.dropWhile_eq_nil_iff.mpr hd, if_neg hne]
  rfl

/-- What `strtol` reads to its end is an integer. -/
theorem integerText_of_strtol {s : Str} {n : Int} (h : strtol s = some (n, [])) : IntegerText s n := by
  unfold strtol at h
  dsimp only at h
  have hsplit : s.takeWhile isSpace ++ s.dropWhile isSpace = s := List.takeWhile_append_dropWhile
  have hspaces : ∀ c ∈ s.takeWhile isSpace, isSpace c = true := fun c hc => List.mem_takeWhile_imp hc
  generalize hrest : s.dropWhile isSpace = rest at h hsplit
  generalize hdigits : (if byte rest 0 = ch '-' ∨ byte rest 0 = ch '+' then rest.drop 1 else rest) = digits at h
  split at h
  · cases h
  rename_i hne
  simp only [Option.some.injEq, Prod.mk.injEq] at h
  have hall : digits.takeWhile isDigit = digits := by
    have := List.takeWhile_append_dropWhile (p := isDigit) (l := digits)
    rwa [h.2, List.append_nil] at this
  have hd : ∀ c ∈ digits, isDigit c = true := List.takeWhile_eq_self_iff.mp hall
  rw [hall] at hne h
  by_cases hsign : byte rest 0 = ch '-' ∨ byte rest 0 = ch '+'
  · rw [if_pos hsign] at hdigits
    cases rest with
    | nil => exact absurd hdigits.symm hne
    | cons c cs =>
      obtain rfl : cs = digits := hdigits
      refine ⟨s.takeWhile isSpace, [c], cs, hsplit.symm, hspaces, ?_, hne, hd, ?_⟩
      · rcases hsign with hc | hc
        · exact Or.inr (Or.inr (congrArg ([·]) hc))
        · exact Or.inr (Or.inl (congrArg ([·]) hc))
      · rw [← h.1]
        by_cases hc : c = ch '-'
        · rw [if_pos (show byte (c :: cs) 0 = ch '-' from hc), if_pos (congrArg ([·]) hc)]
          rfl
        · rw [if_neg (show ¬ byte (c :: cs) 0 = ch '-' from hc), if_neg fun he => hc (List.singleton_inj.mp he)]
          rfl
  · rw [if_neg hsign] at hdigits
    obtain rfl : rest = digits := hdigits
    refine ⟨s.takeWhile isSpace, [], rest, hsplit.symm, hspaces, Or.inl rfl, hne, hd, ?_⟩
    rw [← h.1, if_neg fun hc => hsign (Or.inl hc), if_neg (by simp)]
    rfl

theorem strtol_of_integerText {s : Str} {n : Int} (h : IntegerText s n) : strtol s = some (n, []) := by
  obtain ⟨blanks, sign, digits, hs, hblanks, hsign, hne, hd, hn⟩ := h
  obtain ⟨c, cs, hcs⟩ := List.exists_cons_of_ne_nil hne
  obtain ⟨hspace, hminus, hplus⟩ := isDigit_only (hd c (hcs ▸ List.mem_cons_self))
  have hbyte : byte digits 0 = c := by rw [hcs]; rfl
  have hrest : s.dropWhile isSpace = sign ++ digits := by
    rw [hs, List.dropWhile_append_of_pos hblanks]
    rcases hsign with rfl | rfl | rfl
    · rw [hcs]
      exact List.dropWhile_cons_of_neg (by rw [hspace]; decide)
    · rfl
    · rfl
  rw [hn]
  rcases hsign with rfl | rfl | rfl
  · rw [strtol_digits hrest (if_neg (by simp [hbyte, hminus, hplus])) hne hd]
    rw [if_neg (by simp [hbyte, hminus]), if_neg (by simp)]
    rfl
  · exact strtol_digits hrest (if_pos (Or.inr rfl)) hne hd
  · exact strtol_digits hrest (if_pos (Or.inl rfl)) hne hd

/-- `strtol` reads a string whole when it is an integer. -/
theorem strtol_iff {s : Str} {n : Int} : strtol s = some (n, []) ↔ IntegerText s n :=
  ⟨integerText_of_strtol, strtol_of_integerText⟩

/-! ## What one parameter takes -/

section Takes

variable {J : CJson} {p : Param} {input v : Json}

/-- `j_int`, with the sentinel of the check. -/
theorem jInt_iff {k : Str} (hv : input.getObjectItem k = some v) : jInt input k intMin ≠ intMin ↔ IntegerLike v ∧ ¬ Least v := by
  unfold jInt
  rw [hv]
  cases v with
  | num m e =>
    have hleast : Least (.num m e) ↔ m.tdiv (10 ^ e) ≤ intMin := by
      constructor
      · rintro (⟨m', e', h, hle⟩ | ⟨s, h, -⟩)
        · cases h
          exact hle
        · cases h
      · intro h
        exact Or.inl ⟨m, e, rfl, h⟩
    have hlike : IntegerLike (.num m e) := Or.inl ⟨m, e, rfl⟩
    rw [hleast]
    dsimp only
    unfold valueInt
    have h0 : intMin < intMax := by decide
    refine ⟨fun h => ⟨hlike, fun hle => h ?_⟩, fun h he => h.2 ?_⟩ <;> omega
  | str s =>
    constructor
    · intro h
      dsimp only at h
      split at h
      · rename_i n hn
        have htext := strtol_iff.mp hn
        split at h
        · rename_i hrange
          refine ⟨Or.inr ⟨s, n, rfl, htext, hrange⟩, ?_⟩
          rintro (⟨m, e, he, -⟩ | ⟨s', hs, hmin⟩)
          · cases he
          · cases hs
            rw [strtol_iff.mpr hmin] at hn
            exact h (by simpa using hn.symm)
        · exact absurd rfl h
      · exact absurd rfl h
    · intro ⟨hlike, hleast⟩
      rcases hlike with ⟨m, e, he⟩ | ⟨s', n, hs, htext, hrange⟩
      · cases he
      · cases hs
        dsimp only
        rw [strtol_iff.mpr htext]
        dsimp only
        rw [if_pos hrange]
        intro hn
        exact hleast (Or.inr ⟨s, rfl, hn ▸ htext⟩)
  | _ =>
    refine iff_of_false (fun h => h rfl) ?_
    rintro ⟨⟨m, e, h⟩ | ⟨s, n, h, -⟩, -⟩ <;> cases h

/-- `j_bool`, with the sentinel of the check. -/
theorem jBool_iff {k : Str} (hv : input.getObjectItem k = some v) : jBool input k (-1) ≠ -1 ↔ BooleanLike v := by
  unfold jBool
  rw [hv]
  cases v with
  | bool b =>
    refine iff_of_true ?_ (Or.inl (Or.inl ⟨b, rfl⟩))
    cases b <;> decide
  | num m e =>
    refine iff_of_true ?_ (Or.inr ⟨m, e, rfl⟩)
    dsimp only
    split <;> decide
  | str s =>
    have hlike : BooleanLike (.str s) ↔ BooleanText s := by
      constructor
      · rintro ((⟨b, h⟩ | ⟨s', h, htext⟩) | ⟨m, e, h⟩) <;> cases h
        exact htext
      · intro h
        exact Or.inl (Or.inr ⟨s, rfl, h⟩)
    rw [hlike]
    dsimp only
    unfold BooleanText
    split
    · rename_i h
      exact iff_of_true (by decide) (Or.inl h)
    rename_i hno
    split
    · rename_i h
      exact iff_of_true (by decide) (Or.inr h)
    · rename_i hno'
      exact iff_of_false (fun h => h rfl) (not_or.mpr ⟨hno, hno'⟩)
  | _ =>
    refine iff_of_false (fun h => h rfl) ?_
    rintro ((⟨b, h⟩ | ⟨s, h, -⟩) | ⟨m, e, h⟩) <;> cases h

/-- What a parameter takes that is there. -/
def Takes (p : Param) (v : Json) : Prop :=
  match p.type with
  | .int => IntegerLike v ∧ ¬ Least v
  | .bool => BooleanLike v
  | .string =>
    match p.choices with
    | some c => ∃ s, v = .str s ∧ chosen c s = true
    | none => v.isString = true ∨ v.isObject = true ∨ v.isArray = true

/-- A parameter that is missing is fine unless it is required. -/
theorem absent_iff (h : ∀ v, ¬ Present input p.name v) : (!p.required) = true ↔
    (p.required = true → ∃ v, Present input p.name v) ∧ ∀ v, Present input p.name v → Takes p v := by
  constructor
  · intro hreq
    refine ⟨fun hr => ?_, fun v hv => absurd hv (h v)⟩
    rw [hr] at hreq
    cases hreq
  · intro ⟨hreq, _⟩
    by_contra hno
    obtain ⟨v, hv⟩ := hreq (by simpa using hno)
    exact h v hv

/-- One that is there, when the parameter takes its value. -/
theorem present_iff (h : Present input p.name v) :
    ((p.required = true → ∃ v, Present input p.name v) ∧ ∀ v, Present input p.name v → Takes p v) ↔ Takes p v := by
  constructor
  · intro hall
    exact hall.2 v h
  · intro htakes
    refine ⟨fun _ => ⟨v, h⟩, ?_⟩
    intro v' hv'
    cases Option.some.inj (hv'.1.symm.trans h.1)
    exact htakes

/-- The check of one parameter. -/
theorem checkParam_iff : (checkParam J p input).2 = true ↔
    (p.required = true → ∃ v, Present input p.name v) ∧ ∀ v, Present input p.name v → Takes p v := by
  unfold checkParam
  cases hv : input.getObjectItem p.name with
  | none => exact absent_iff fun v h => by rw [h.1] at hv; cases hv
  | some v =>
    dsimp only
    by_cases hnull : v.isNull = true
    · rw [if_pos hnull]
      refine absent_iff fun v' h => ?_
      have hvv := h.1.symm.trans hv
      cases hvv
      exact absurd (hnull.symm.trans h.2) (by simp)
    rw [if_neg hnull]
    have hpresent : Present input p.name v := ⟨hv, by simpa using hnull⟩
    rw [present_iff hpresent]
    unfold Takes
    cases p.type with
    | int => exact decide_eq_true_iff.trans (jInt_iff hv)
    | bool => exact decide_eq_true_iff.trans (jBool_iff hv)
    | string =>
      dsimp only
      have hset : ∀ v' : Json, (input.replaceItem p.name v').getObjectItem p.name = some v' := by
        intro v'
        rw [Json.getObjectItem_replaceItem, strcaseeq_refl, hv]
        rfl
      cases p.choices with
      | none =>
        by_cases hnested : v.isObject || v.isArray
        · rw [if_pos (by simpa using hnested), hset]
          exact iff_of_true rfl (Or.inr (by simpa using hnested))
        · rw [if_neg (by simpa using hnested), hv]
          cases v with
          | str s => exact iff_of_true rfl (Or.inl rfl)
          | _ => simp_all [Json.isString, Json.isObject, Json.isArray]
      | some c =>
        rw [if_neg (by simp), hv]
        cases v with
        | str s => simp
        | _ => simp

/-- The loop: each parameter is checked as if alone. -/
theorem checkParams_iff {ps : List Param} : ∀ {input : Json}, (ps.Pairwise fun p q => strcaseeq q.name p.name = false) →
    ((checkParams J ps input).2 = none ↔ ∀ p ∈ ps, (checkParam J p input).2 = true) := by
  induction ps with
  | nil => exact fun _ => iff_of_true rfl fun p hp => by cases hp
  | cons p ps ih =>
    intro input hdistinct
    obtain ⟨hp, hps⟩ := List.pairwise_cons.mp hdistinct
    -- the check of `p` leaves the others' arguments
    have hothers : ∀ q ∈ ps, ((checkParam J q (checkParam J p input).1).2 = true ↔ (checkParam J q input).2 = true) := by
      intro q hq
      rw [checkParam_iff, checkParam_iff]
      unfold Present
      rw [checkParam_item (by rw [strcaseeq_comm]; exact hp q hq)]
    unfold checkParams
    dsimp only
    rw [List.forall_mem_cons]
    by_cases hok : (checkParam J p input).2 = true
    · rw [if_pos hok, ih hps]
      constructor
      · intro h
        exact ⟨hok, fun q hq => (hothers q hq).mp (h q hq)⟩
      · intro h q hq
        exact (hothers q hq).mpr (h.2 q hq)
    · rw [if_neg hok]
      exact iff_of_false (by simp) fun h => hok h.1

end Takes

/-! ## Choices -/

/-- The choices of a parameter are names between commas, and fit their buffer. -/
structure Choices (c : Str) : Prop where
  pieces : commaPieces c = c.splitOn (ch ',')
  names : ∀ name ∈ commaPieces c, ch ',' ∉ name
  fits : c.length + 3 < bufSm

theorem choices_ok (t : ToolId) : ∀ p ∈ (tools t).params, ∀ c ∈ p.choices, p.type = .string ∧ Choices c := by
  have hstrings : ∀ p ∈ (tools t).params, ∀ c ∈ p.choices, p.type = .string ∧
      commaPieces c = c.splitOn (ch ',') ∧ (∀ name ∈ commaPieces c, ch ',' ∉ name) ∧ c.length + 3 < bufSm := by
    cases t <;> decide +kernel
  intro p hp c hc
  obtain ⟨htype, hpieces, hnames, hfits⟩ := hstrings p hp c hc
  exact ⟨htype, hpieces, hnames, hfits⟩

/-- The search finds the empty string and runs of choices. -/
theorem chosen_iff {c s : Str} (hc : Choices c) : chosen c s = true ↔ s = [] ∨ s.splitOn (ch ',') <:+: commaPieces c := by
  have henclosed (x : Str) : lit "," ++ x ++ lit "," = ch ',' :: x ++ [ch ','] := rfl
  have hwhole : cut (bufSm + 2) (ch ',' :: c ++ [ch ',']) = ch ',' :: c ++ [ch ','] := by
    have := hc.fits
    rw [cut_eq_self (by decide)]
    simp only [List.length_append, List.length_cons, List.length_nil]
    omega
  unfold chosen
  rw [Bool.or_eq_true, decide_eq_true_iff, strstr_isSome, henclosed, henclosed, hwhole, hc.pieces, ← infix_pieces]
  refine or_congr_right ?_
  by_cases hlong : s.length + 2 < bufSm
  · rw [(cut_eq_self (by decide)).mpr (by simpa using hlong)]
  · -- a text that is cut is longer than the choices
    have hfits := hc.fits
    have hcut : (cut bufSm (ch ',' :: s ++ [ch ','])).length = bufSm - 1 := by
      unfold cut
      rw [List.length_take]
      simp only [List.length_append, List.length_cons, List.length_nil]
      omega
    have hc2 : (ch ',' :: c ++ [ch ',']).length = c.length + 2 := by simp
    have hs2 : (ch ',' :: s ++ [ch ',']).length = s.length + 2 := by simp
    refine iff_of_false (fun h => ?_) fun h => ?_
    · have := h.length_le
      rw [hcut, hc2] at this
      omega
    · have := h.length_le
      omega

/-- Such a value has a comma. -/
theorem Joins.comma {choices : List Str} {s : Str} (h : Joins choices s) : ch ',' ∈ s := by
  obtain ⟨xs, hlen, -, rfl⟩ := h
  match xs, hlen with
  | x :: y :: xs, _ =>
    rw [List.intercalate_cons_cons]
    simp

/-- Unless it joins several choices, what is found is one of them. -/
theorem chosen_plain {c s : Str} (hc : Choices c) (h : ¬ Joins (commaPieces c) s) :
    chosen c s = true ↔ s = [] ∨ s ∈ commaPieces c := by
  rw [chosen_iff hc]
  refine or_congr_right ⟨fun hrun => ?_, fun hmem => ?_⟩
  · have hpos := List.length_pos_of_ne_nil (List.splitOn_ne_nil (ch ',') s)
    have hone : (s.splitOn (ch ',')).length = 1 := by
      by_contra hmany
      exact h ⟨s.splitOn (ch ','), by omega, hrun, (List.intercalate_splitOn (ch ',')).symm⟩
    obtain ⟨x, hx⟩ := List.length_eq_one_iff.mp hone
    rw [(splitOn_eq_singleton_iff.mp hx).1]
    exact hrun.subset (hx ▸ List.mem_singleton_self x)
  · rw [List.splitOn_eq_singleton (hc.names s hmem)]
    obtain ⟨before, after, hsplit⟩ := List.append_of_mem hmem
    exact ⟨before, after, by rw [hsplit]; simp⟩

/-! ## The check and the schema agree -/

/-- A value that is neither of the two kinds left out. -/
theorem takes_iff {t : ToolId} {args v : Json} (h : Plain t args) {p : Param} (hp : p ∈ (tools t).params)
    (hv : Present args p.name v) : Takes p v ↔ Conforms IntegerLike BooleanLike p.schema v := by
  rw [conforms_schema]
  unfold Takes
  cases htype : p.type with
  | int => exact and_iff_left (h.ints p hp htype v hv.1)
  | bool => exact Iff.rfl
  | string =>
    cases hchoices : p.choices with
    | none => exact Iff.rfl
    | some c =>
      refine exists_congr fun s => and_congr_right fun hs => ?_
      exact chosen_plain (choices_ok t p hp c hchoices).2 (h.choices p hp c hchoices s (hs ▸ hv.1))

/-- `tool_check_args` finds nothing wrong exactly with what the published schema accepts. -/
theorem check_agrees (J : CJson) (t : ToolId) (args : Json) (h : Plain t args) :
    (∃ isBuilder, (tools t).toJson ∈ toolsToJson isBuilder) ∧ ((toolCheckArgs J t args).2 = none ↔
      Accepts (Conforms IntegerLike BooleanLike) (inputSchema (tools t).toJson) args) := by
  refine ⟨published t, ?_⟩
  have hcheck : (toolCheckArgs J t args).2 = none ↔ (checkParams J (tools t).params args).2 = none :=
    Option.map_eq_none_iff
  rw [hcheck, checkParams_iff (params_distinct t)]
  constructor
  · intro hall
    constructor
    · intro name hname
      rw [requiredNames_toJson] at hname
      obtain ⟨p, hp, rfl⟩ := List.mem_map.mp hname
      obtain ⟨hp, hreq⟩ := List.mem_filter.mp hp
      exact (checkParam_iff.mp (hall p hp)).1 hreq
    · intro prop hprop v hv
      rw [properties_toJson] at hprop
      obtain ⟨p, hp, rfl⟩ := List.mem_map.mp hprop
      exact (takes_iff h hp hv).mp ((checkParam_iff.mp (hall p hp)).2 v hv)
  · intro haccepts p hp
    refine checkParam_iff.mpr ⟨fun hreq => ?_, fun v hv => ?_⟩
    · apply haccepts.required p.name
      rw [requiredNames_toJson]
      exact List.mem_map.mpr ⟨p, List.mem_filter.mpr ⟨hp, hreq⟩, rfl⟩
    · refine (takes_iff h hp hv).mpr (haccepts.typed (p.name, p.schema) ?_ v hv)
      rw [properties_toJson]
      exact List.mem_map.mpr ⟨p, hp, rfl⟩

/-- The facts of every agent are to be cleared. -/
def clearFacts : Json := .obj [(lit "agent", .str (lit "all")), (lit "what", .str (lit "facts"))]

theorem plain_clearFacts : Plain .clearMemory clearFacts := by
  refine ⟨?_, ?_⟩
  · intro p hp c hc s hs hjoins
    have hcomma := hjoins.comma
    obtain rfl | rfl : p = param "agent" .string "Agent name, or 'all' for every agent" true ∨
        p = choice "what" "What to clear (default 'both')" false "memory,facts,both" := by
      simpa [tools, toolDef] using hp
    · cases hc
    · obtain rfl : lit "facts" = s := Json.str.inj (Option.some.inj hs)
      exact absurd hcomma (by decide)
  · have hnone : ∀ p ∈ (tools .clearMemory).params, p.type ≠ .int := by decide
    exact fun p hp htype => absurd htype (hnone p hp)

theorem check_agrees_facts : (∃ isBuilder, (tools .clearMemory).toJson ∈ toolsToJson isBuilder) ∧
    Accepts (Conforms IntegerLike BooleanLike) (inputSchema (tools .clearMemory).toJson) clearFacts := by
  obtain ⟨hpublished, hagrees⟩ := check_agrees CJson.compact .clearMemory clearFacts plain_clearFacts
  exact ⟨hpublished, hagrees.mp (by decide +kernel)⟩

/-- A boolean that comes as a number. -/
def appendOne : Json :=
  .obj [(lit "path", .str (lit "a")), (lit "content", .str (lit "b")), (lit "append", .num 1 0)]

/-- A number is taken for a boolean. -/
theorem number_for_boolean : ¬ ∀ (J : CJson) (t : ToolId) (args : Json),
    (∃ isBuilder, (tools t).toJson ∈ toolsToJson isBuilder) ∧ ((toolCheckArgs J t args).2 = none ↔
      Accepts (Conforms IsInteger IsBoolean) (inputSchema (tools t).toJson) args) := by
  intro h
  have haccepts := (h CJson.compact .writeFile appendOne).2.mp (by decide +kernel)
  have hprop : (lit "append", (param "append" .bool "Append instead of overwrite (default false)" false).schema) ∈
      properties (inputSchema (tools .writeFile).toJson) := by
    rw [properties_toJson]
    simp [tools, toolDef, param]
  have hconforms := haccepts.typed _ hprop (.num 1 0) ⟨rfl, rfl⟩
  have hboolean : IsBoolean (.num 1 0) := (conforms_schema _ IsInteger IsBoolean _).mp hconforms
  rcases hboolean with ⟨b, hb⟩ | ⟨s, hs, -⟩
  · cases hb
  · cases hs

end Shclaw.Tools
