/-
  Shclaw.Memory.Log — the memories of an agent and the cache of them (`src/memory.c`:
  `memory_add`, `load_cache`, `memory_clear`, and the reading side of `memory_search`).

  `memory.jsonl` is missing (`none`) or holds a text, a memory a line. A call of
  `memory_add` appends its line in two writes and a close: what reached the file when
  one of them fails is a prefix of the line, and nothing is undone. The cache is filled
  from the file by the first call that needs it; a restart drops it. Reads and `unlink`
  succeed.

  `remembered` counts the memories a call said it had remembered, since the last clear.

  `log_agrees`: as long as a successful append finds the last line ended and what a
  failed one left is no memory (`Clean`), the cache and the file hold exactly those,
  after every call and after a restart. A failed append that left less than its JSON
  text on a line of its own leaves none (`cut_append_clean`).
  Trace: a failed append of one byte, a memory, a restart: the memory is gone
  (`torn_line_loses_next`).
-/

import Shclaw.JsonLines
import Shclaw.Tools
import Shclaw.Lib.Lines
import Mathlib.Data.List.DropRight

namespace Shclaw.Memory

open Lib

/-! ## An entry -/

/-- `is_word_char`. -/
def isWordChar (c : UInt8) : Bool :=
  (ch 'a' ≤ c && c ≤ ch 'z') || (ch 'A' ≤ c && c ≤ ch 'Z') || isDigit c || c = ch '-' || c = ch '_' || c = ch '@' ||
  c = ch '.' || 128 ≤ c

/-- `extract_tags`: the word being read, the tags so far and how many it added. -/
structure Words where
  word : Str
  tags : List Str
  count : Nat

/-- The end of a word. -/
def Words.flush (w : Words) : Words :=
  if 4 ≤ w.word.length ∧ w.count < 10 ∧ w.word ∉ w.tags then ⟨[], w.tags ++ [w.word], w.count + 1⟩
  else { w with word := [] }

def Words.read (w : Words) (c : UInt8) : Words :=
  if isWordChar c ∧ w.word.length < 62 then { w with word := w.word ++ [toLower c] } else w.flush

def extractTags (content : Str) (tags : List Str) : List Str :=
  (content.foldl Words.read ⟨[], tags, 0⟩).flush.tags

def trimSpaces (s : Str) : Str := (s.dropWhile (· = ch ' ')).rdropWhile (· = ch ' ')

/-- The tags the caller gave. -/
def csvTags (csv : Str) : List Str :=
  ((commaPieces (cut 512 csv)).map fun tok => (trimSpaces tok).map toLower).filter (· ≠ [])

/-- The arguments of `memory_add`, the id drawn and the clock's text; a null pointer is `none`. -/
structure Args where
  content : Option Str
  category : Option Str
  importance : Int
  tagsCsv : Option Str
  id : Str
  now : Str

def importanceOf (n : Int) : Int := if n ≤ 0 then 5 else if 10 < n then 10 else n

/-- The entry of a memory with a content. -/
def entryOf (a : Args) (content : Str) : Json :=
  let category := (a.category.filter (· ≠ [])).getD (lit "general")
  let tags := extractTags content (csvTags (a.tagsCsv.getD []))
  .obj [(lit "id", .str a.id), (lit "content", .str content), (lit "category", .str category),
    (lit "importance", .num (importanceOf a.importance) 0), (lit "timestamp", .str a.now),
    (lit "tags", .arr (tags.map .str))]

/-! ## The calls -/

/-- `memory_t` and its file. -/
structure Log where
  file : Option Str
  cache : Option (List Json)

/-- How an append ends. -/
inductive Append where
  /-- There is no line to write, or the file cannot be opened. -/
  | unopened
  /-- A write or the close failed, with the first `n` bytes in the file. -/
  | failed (n : Nat)
  | wrote
  deriving DecidableEq

variable (J : CJson)

/-- The entries of a text: the lines that parse. -/
def entries (text : Str) : List Json :=
  (((segments 10 text).1 ++ [(segments 10 text).2]).filter (· ≠ [])).filterMap J.parse

/-- `load_cache`. -/
def loadCache (l : Log) : List Json := l.cache.getD (entries J (l.file.getD []))

/-- The bytes that reach the file. -/
def written (entry : Json) : Append → Str
  | .unopened => []
  | .failed n => (J.print entry ++ [10]).take n
  | .wrote => J.print entry ++ [10]

/-- The file after an append. -/
def appended (entry : Json) (w : Append) (file : Option Str) : Option Str :=
  if w = .unopened then file else some (file.getD [] ++ written J entry w)

def memoryAdd (a : Args) (w : Append) (l : Log) : Log × Str :=
  match a.content with
  | some (c :: content) =>
    let entry := entryOf a (c :: content)
    let cache := loadCache J l
    let file := appended J entry w l.file
    -- cache only what reached the disk
    if w = .wrote then
      (⟨file, some (cache ++ [entry])⟩, lit "Remembered (id=" ++ a.id ++ lit "): " ++ (c :: content).take 80)
    else (⟨file, some cache⟩, lit "Error: cannot append memory log")
  | _ => (l, lit "Error: content is required")

def memoryClear : Log := ⟨none, none⟩

/-- `memory_search`: what it reads. -/
def memorySearch (l : Log) : Log := { l with cache := some (loadCache J l) }

/-- The cache is dropped. -/
def restart (l : Log) : Log := { l with cache := none }

/-! ## Runs -/

inductive Call where
  | add (a : Args) (w : Append)
  | clear
  | search
  | restart

structure St where
  log : Log
  /-- The entries remembered since the last clear. -/
  remembered : List Json

def step (s : St) : Call → St
  | .add a w =>
    let r := memoryAdd J a w s.log
    ⟨r.1, s.remembered ++
      if startsWith r.2 (lit "Remembered") then [entryOf a (a.content.getD [])] else []⟩
  | .clear => ⟨memoryClear, []⟩
  | .search => { s with log := memorySearch J s.log }
  | .restart => { s with log := restart s.log }

def init : St := ⟨⟨none, none⟩, []⟩

def run (calls : List Call) (s : St) : St := calls.foldl (step J) s

/-- The cache holds what was remembered, and so does a cache loaded anew. -/
structure Agrees (s : St) : Prop where
  cache : loadCache J s.log = s.remembered
  reloaded : loadCache J (restart s.log) = s.remembered

/-- The last line of a text, when it has not ended. -/
def lastOf (text : Str) : Str := (segments 10 text).2

def lastLine (l : Log) : Str := lastOf (l.file.getD [])

/-- A call that leaves no line but memories: a successful append starts a line, and the
    lines a failed one makes of the last line and its bytes do not parse. -/
def Clean (s : St) : Call → Prop
  | .add a .wrote => a.content.getD [] ≠ [] → lastLine s.log = []
  | .add a (.failed n) =>
    a.content.getD [] ≠ [] → entries J (lastLine s.log ++ written J (entryOf a (a.content.getD [])) (.failed n)) = []
  | _ => True

/-- Every call of a run is clean in the state it is made in. -/
def CleanRun : St → List Call → Prop
  | _, [] => True
  | s, c :: calls => Clean J s c ∧ CleanRun (step J s c) calls

/-! ## What a call can do -/

variable {J}

/-- A call of `memory_add` without a content does nothing. -/
theorem memoryAdd_error {a : Args} (h : a.content.getD [] = []) (w : Append) (l : Log) :
    memoryAdd J a w l = (l, lit "Error: content is required") := by
  unfold memoryAdd
  split
  · rename_i c content hc
    rw [hc] at h
    cases h
  · rfl

/-- With one it appends a line, and reports whether it did. -/
theorem memoryAdd_append {a : Args} (h : a.content.getD [] ≠ []) (w : Append) (l : Log) :
    (memoryAdd J a w l).1 = ⟨appended J (entryOf a (a.content.getD [])) w l.file,
      some (loadCache J l ++ if w = .wrote then [entryOf a (a.content.getD [])] else [])⟩ ∧
    (startsWith (memoryAdd J a w l).2 (lit "Remembered") = true ↔ w = .wrote) := by
  cases hc : a.content with
  | none => rw [hc] at h; exact absurd rfl h
  | some text =>
    cases text with
    | nil => rw [hc] at h; exact absurd rfl h
    | cons c content =>
      unfold memoryAdd
      rw [hc]
      by_cases hw : w = .wrote
      · simp only [hw, if_true]
        exact ⟨rfl, iff_of_true rfl trivial⟩
      · simp only [hw, if_false, List.append_nil]
        exact ⟨rfl, iff_of_false (by decide) not_false⟩

/-! ## Lines -/

/-- Only the last line matters for what comes next. -/
theorem entries_append (a b : Str) : entries J (a ++ b) =
    ((segments 10 a).1.filter (· ≠ [])).filterMap J.parse ++ entries J (lastOf a ++ b) := by
  unfold entries lastOf
  rw [segments_append]
  simp only [List.filter_append, List.filterMap_append, List.append_assoc]

theorem lastOf_append (a b : Str) : lastOf (a ++ b) = lastOf (lastOf a ++ b) := by
  unfold lastOf
  rw [segments_append]

/-- A text whose last line is no entry. -/
theorem entries_of_last {a : Str} (h : entries J (lastOf a) = []) (b : Str) :
    entries J (a ++ b) = entries J a ++ entries J (lastOf a ++ b) := by
  have ha := entries_append (J := J) a []
  rw [List.append_nil, List.append_nil, h, List.append_nil] at ha
  rw [entries_append, ha]

/-- The last line of a text that has no entry is none. -/
theorem last_of_entries {a : Str} (h : entries J a = []) : entries J (lastOf a) = [] := by
  have ha := entries_append (J := J) a []
  rw [List.append_nil, List.append_nil, h] at ha
  exact (List.append_eq_nil_iff.mp ha.symm).2

section Lines

variable {J : CJsonLines}

/-- A line written whole is an entry. -/
theorem entries_line (entry : Json) (h : entry.isObject = true) :
    entries J.toCJson (J.print entry ++ [10]) = [entry] ∧ lastOf (J.print entry ++ [10]) = [] := by
  have hseg : segments 10 (J.print entry ++ [10]) = ([J.print entry], []) := segments_first (J.print_line entry) []
  have hne : J.print entry ≠ [] := by
    cases entry with
    | obj kvs =>
      intro hnil
      have hhead := J.print_obj kvs
      rw [hnil] at hhead
      cases hhead
    | _ => cases h
  constructor
  · unfold entries
    rw [hseg]
    simp [hne, J.parse_print]
  · unfold lastOf
    rw [hseg]

/-! ## The invariant -/

/-- The file holds what was remembered, its last line is no entry, and the cache, once it
    is filled, holds the same. -/
structure Inv (J : CJson) (s : St) : Prop where
  file : entries J (s.log.file.getD []) = s.remembered
  last : entries J (lastLine s.log) = []
  cache : ∀ c ∈ s.log.cache, c = s.remembered

theorem Inv.loaded {J : CJson} {s : St} (h : Inv J s) : loadCache J s.log = s.remembered := by
  unfold loadCache
  cases hc : s.log.cache with
  | none => exact h.file
  | some c => exact h.cache c hc

theorem inv_init (J : CJson) : Inv J init := ⟨rfl, rfl, fun c hc => by cases hc⟩

/-- A clean append keeps the file and the cache in step. -/
theorem inv_add {s : St} (h : Inv J.toCJson s) (a : Args) (w : Append) (hc : Clean J.toCJson s (.add a w)) :
    Inv J.toCJson (step J.toCJson s (.add a w)) := by
  by_cases hcontent : a.content.getD [] = []
  · have hsame : step J.toCJson s (.add a w) = s := by
      unfold step
      simp only [memoryAdd_error hcontent]
      rw [if_neg (by decide), List.append_nil]
    rw [hsame]
    exact h
  obtain ⟨hlog, htext⟩ := memoryAdd_append (J := J.toCJson) hcontent w s.log
  have hlast : entries J.toCJson (lastOf (s.log.file.getD [])) = [] := h.last
  unfold step
  simp only
  rw [hlog, h.loaded]
  cases w with
  | unopened =>
    rw [if_neg (by decide), if_neg (mt htext.mp (by decide)), List.append_nil]
    exact ⟨h.file, h.last, fun c hc => (Option.some.inj hc).symm⟩
  | failed n =>
    rw [if_neg (by intro hw; cases hw), if_neg (mt htext.mp (by intro hw; cases hw)), List.append_nil]
    have hbytes := hc hcontent
    refine ⟨?_, ?_, fun c hc => (Option.some.inj hc).symm⟩
    · show entries J.toCJson (s.log.file.getD [] ++ written J.toCJson (entryOf a (a.content.getD [])) (.failed n)) =
        s.remembered
      rw [entries_of_last hlast, h.file]
      exact (congrArg (s.remembered ++ ·) hbytes).trans (List.append_nil _)
    · show entries J.toCJson (lastOf (s.log.file.getD [] ++ written J.toCJson (entryOf a (a.content.getD [])) (.failed n))) = []
      rw [lastOf_append]
      exact last_of_entries hbytes
  | wrote =>
    rw [if_pos rfl, if_pos (htext.mpr rfl)]
    have hended : lastOf (s.log.file.getD []) = [] := hc hcontent
    obtain ⟨hentry, hend⟩ := entries_line (J := J) (entryOf a (a.content.getD [])) rfl
    refine ⟨?_, ?_, fun c hc => (Option.some.inj hc).symm⟩
    · show entries J.toCJson (s.log.file.getD [] ++ (J.print (entryOf a (a.content.getD [])) ++ [10])) = _
      rw [entries_of_last hlast, h.file, hended, List.nil_append, hentry]
    · show entries J.toCJson (lastOf (s.log.file.getD [] ++ (J.print (entryOf a (a.content.getD [])) ++ [10]))) = []
      rw [lastOf_append, hended, List.nil_append, hend]
      rfl

theorem inv_step {s : St} (h : Inv J.toCJson s) {c : Call} (hc : Clean J.toCJson s c) :
    Inv J.toCJson (step J.toCJson s c) := by
  cases c with
  | add a w => exact inv_add h a w hc
  | clear => exact ⟨rfl, rfl, fun c hc => by cases hc⟩
  | search =>
    refine ⟨h.file, h.last, fun c hc => ?_⟩
    obtain rfl := Option.some.inj hc
    exact h.loaded
  | restart => exact ⟨h.file, h.last, fun c hc => by cases hc⟩

theorem inv_run {calls : List Call} :
    ∀ {s : St}, Inv J.toCJson s → CleanRun J.toCJson s calls → Inv J.toCJson (run J.toCJson calls s) := by
  induction calls with
  | nil => intro s h _; exact h
  | cons c calls ih => intro s h hc; exact ih (inv_step h hc.1) hc.2

/-- What is left of a line that was cut before its JSON text ended is no entry. -/
theorem cut_append_clean {s : St} (a : Args) {n : Nat} (hlast : lastLine s.log = [])
    (hn : n < (J.print (entryOf a (a.content.getD []))).length) : Clean J.toCJson s (.add a (.failed n)) := by
  intro _
  have hcut : written J.toCJson (entryOf a (a.content.getD [])) (.failed n) =
      (J.print (entryOf a (a.content.getD []))).take n :=
    List.take_append_of_le_length (Nat.le_of_lt hn)
  have hline : 10 ∉ (J.print (entryOf a (a.content.getD []))).take n := fun hm =>
    J.print_line _ (List.mem_of_mem_take hm)
  rw [hlast, hcut, List.nil_append]
  unfold entries
  rw [segments_of_not_mem hline, List.nil_append]
  refine List.filterMap_eq_nil_iff.mpr fun line hl => ?_
  obtain rfl := List.mem_singleton.mp (List.mem_of_mem_filter hl)
  exact J.parse_cut _ n hn

/-- The cache and the file hold exactly what was remembered. -/
theorem log_agrees (J : CJsonLines) (calls : List Call) (h : CleanRun J.toCJson init calls) :
    Agrees J.toCJson (run J.toCJson calls init) := by
  have hinv := inv_run (inv_init J.toCJson) h
  exact ⟨hinv.loaded, hinv.file⟩

end Lines

/-- A memory. -/
def tea : Args := ⟨some (lit "tea"), none, 0, none, lit "1b2c3d4e", lit "2026-01-02T03:04:05Z"⟩

theorem log_agrees_tea : Agrees CJson.compact
    (run CJson.compact [.add tea (.failed 0), .add tea .wrote, .restart, .search] init) :=
  log_agrees .compact [.add tea (.failed 0), .add tea .wrote, .restart, .search]
    ⟨fun _ => rfl, fun _ => rfl, trivial, trivial, trivial⟩

/-- One byte of a line that failed, then a memory: after a restart it is gone. -/
theorem torn_line_loses_next : ¬ ∀ calls, Agrees CJson.compact (run CJson.compact calls init) := by
  intro h
  have hreloaded := (h [.add tea (.failed 1), .add tea .wrote]).reloaded
  have hgone : loadCache CJson.compact
      (restart (run CJson.compact [.add tea (.failed 1), .add tea .wrote] init).log) = [] := by
    decide +kernel
  have hkept : (run CJson.compact [.add tea (.failed 1), .add tea .wrote] init).remembered =
      [entryOf tea (lit "tea")] := rfl
  rw [hgone, hkept] at hreloaded
  cases hreloaded

end Shclaw.Memory
