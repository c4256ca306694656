/-
  Shclaw.Tools.Pages — a file read page by page (`src/tools.c`: `execute_tool` of
  `read_file`).

  A reply is a page of the file and, when bytes remain, a note that announces the offset
  to go on from. `read_pages`: the calls from offset 0 on, each at the offset that the one
  before announced, come to an end, their pages make the file, and a page has a note
  exactly when bytes remain after it.
-/

import Shclaw.Tools.Execute

namespace Shclaw.Tools

open Lib

/-! ## Calls -/

/-- An input of `read_file`. -/
structure Asks (input : Json) (path : Str) (offset : Nat) (limit : Int) : Prop where
  path : input.jStr (lit "path") = some path
  offset : jInt input (lit "offset") 0 = offset
  limit : jInt input (lit "limit") Agent.bufXl = limit

def note (offset : Nat) : Str := lit "\n[truncated: call read_file with offset=" ++ decimal offset ++ lit " for more]"

/-- What a reply shows of the file, and the offset that its note announces. -/
structure Page where
  content : Str
  next : Option Nat

def Page.reply (p : Page) : Str := p.content ++ (p.next.map note).getD []

/-- Calls from an offset on, each at the offset that the one before announced, to a reply
    without a note. -/
inductive Follows (call : Nat → Option Str) : Nat → List Page → Prop
  | last {offset p} : call offset = some p.reply → p.next = none → Follows call offset [p]
  | more {offset p next ps} : call offset = some p.reply → p.next = some next → Follows call next ps →
      Follows call offset (p :: ps)

/-- A note exactly where bytes remain. -/
def Noted : List Page → Prop
  | [] => True
  | p :: ps => (p.next.isSome = true ↔ ps.flatMap (·.content) ≠ []) ∧ Noted ps

/-! ## One reply -/

theorem length_note {offset : Nat} (h : offset < 2 ^ 31) : (note offset).length ≤ 100 := by
  have hdecimal := length_decimal_le (n := offset) (w := 9) (by omega)
  have hbefore : (lit "\n[truncated: call read_file with offset=").length = 40 := by rw [length_lit]; rfl
  have hbehind : (lit " for more]").length = 10 := by rw [length_lit]; rfl
  unfold note
  rw [List.length_append, List.length_append, hbefore, hbehind]
  omega

theorem contains_zero {s t : Str} (h : 0 ∉ t) (hs : ∀ c ∈ s, c ∈ t) : s.contains 0 = false := by
  rw [Bool.eq_false_iff, ne_eq, List.contains_iff_mem]
  exact fun h0 => h (hs 0 h0)

/-- What `read_file` answers inside a file. -/
theorem readFile_page {outSz : Nat} (hsz : 512 ≤ outSz) {m : Moment} (hseek : m.seeks = true) {files : Str → Option Str}
    {path text : Str} (hfile : files path = some text) (hnul : 0 ∉ text) (hlen : text.length < 2 ^ 31) {offset limit : Nat}
    (hoffset : offset < text.length) (hlimit : 1 ≤ limit) :
    ∃ n, 1 ≤ n ∧ offset + n ≤ text.length ∧ readFile outSz m files path offset limit =
      Page.reply ⟨(text.drop offset).take n, if offset + n < text.length then some (offset + n) else none⟩ := by
  have hpage : ((text.drop offset).take (min (min limit Agent.bufXl) (outSz - 160))).length =
      min (min (min limit Agent.bufXl) (outSz - 160)) (text.length - offset) := by
    rw [List.length_take, List.length_drop]
  have hmax : 0 < Agent.bufXl := by decide
  generalize hk : min (min limit Agent.bufXl) (outSz - 160) = k at hpage
  have hk1 : 1 ≤ k ∧ k ≤ outSz - 160 := by omega
  have htake : (text.drop offset).take k = (text.drop offset).take (min k (text.length - offset)) := by
    rw [List.take_eq_take_iff, List.length_drop]
    omega
  refine ⟨min k (text.length - offset), by omega, by omega, ?_⟩
  unfold readFile
  rw [hfile]
  simp only
  rw [if_neg (by simp [hseek]), hk, if_neg, hpage]
  · unfold Page.reply
    split
    · rename_i hmore
      have hnote := @length_note (offset + min k (text.length - offset)) (by omega)
      have htext : ∀ page : Str, page ++ lit "\n[truncated: call read_file with offset=" ++
          decimal (offset + min k (text.length - offset)) ++ lit " for more]" = page ++ note (offset + min k (text.length - offset)) := by
        intro page
        simp [note]
      rw [htext, cut_eq_self (by omega) |>.mpr, ← htake]
      · rfl
      · rw [List.length_append, hpage]
        omega
    · rw [if_neg, htake]
      · simp
      · apply List.ne_nil_of_length_pos
        omega
  · rw [contains_zero hnul fun c hc => List.mem_of_mem_drop (List.mem_of_mem_take hc)]
    simp

/-! ## All of them -/

variable (T : Plugin.Tcc) (R : CJsonReader)

/-- What the model sees of a call. -/
def readReply (outSz : Nat) (input : Json) (m : Moment) (d : Daemon) : Option Str :=
  (executeTool T R outSz .readFile input m d).toOption.map (·.2)

theorem readReply_eq (outSz : Nat) {input : Json} {path : Str} {offset : Nat} {limit : Int} (h : Asks input path offset limit)
    (hlimit : 1 ≤ limit) (m : Moment) (d : Daemon) :
    readReply T R outSz input m d = some (readFile outSz m d.files path offset limit.toNat) := by
  unfold readReply executeTool
  simp only
  rw [h.offset, h.limit, h.path, if_neg (by omega), if_neg (by omega), deref_some, ok_bind, Int.toNat_natCast]
  rfl

theorem pages_from {outSz : Nat} (hsz : 512 ≤ outSz) {path text : Str} (hnul : 0 ∉ text) (hlen : text.length < 2 ^ 31)
    {limit : Int} (hlimit : 1 ≤ limit) {ask : Nat → Json} {m : Nat → Moment} {d : Nat → Daemon}
    (hask : ∀ offset < text.length, Asks (ask offset) path offset limit) (hseek : ∀ offset, (m offset).seeks = true)
    (hfile : ∀ offset, (d offset).files path = some text) {offset : Nat} (hoffset : offset < text.length) :
    ∃ pages, Follows (fun o => readReply T R outSz (ask o) (m o) (d o)) offset pages ∧
      pages.flatMap (·.content) = text.drop offset ∧ Noted pages := by
  induction hn : text.length - offset using Nat.strongRecOn generalizing offset with
  | ind left ih =>
    have hpos : 1 ≤ limit.toNat := by omega
    obtain ⟨n, hn1, hend, hreply⟩ := readFile_page hsz (hseek offset) (hfile offset) hnul hlen hoffset hpos
    have hcall := readReply_eq T R outSz (hask offset hoffset) hlimit (m offset) (d offset)
    rw [hreply] at hcall
    by_cases hmore : offset + n < text.length
    · rw [if_pos hmore] at hcall
      obtain ⟨pages, hfollows, hcontent, hnoted⟩ := ih (text.length - (offset + n)) (by omega) hmore rfl
      refine ⟨_ :: pages, Follows.more hcall rfl hfollows, ?_, ?_, hnoted⟩
      · rw [List.flatMap_cons, hcontent, ← List.drop_drop, List.take_append_drop]
      · rw [hcontent]
        simpa using hmore
    · rw [if_neg hmore] at hcall
      refine ⟨[_], Follows.last hcall rfl, ?_, ?_, trivial⟩
      · rw [List.flatMap_singleton, List.take_of_length_le (by rw [List.length_drop]; omega)]
      · simp

/-- The pages of a file cover it once. -/
theorem read_pages {outSz : Nat} (hsz : 512 ≤ outSz) {path text : Str} (hsome : text ≠ []) (hnul : 0 ∉ text)
    (hlen : text.length < 2 ^ 31) {limit : Int} (hlimit : 1 ≤ limit) {ask : Nat → Json} {m : Nat → Moment} {d : Nat → Daemon}
    (hask : ∀ offset < text.length, Asks (ask offset) path offset limit) (hseek : ∀ offset, (m offset).seeks = true)
    (hfile : ∀ offset, (d offset).files path = some text) :
    ∃ pages, Follows (fun o => readReply T R outSz (ask o) (m o) (d o)) 0 pages ∧
      pages.flatMap (·.content) = text ∧ Noted pages :=
  pages_from T R hsz hnul hlen hlimit hask hseek hfile (List.length_pos_iff.mpr hsome)

/-- A daemon that finds one file. -/
def withTea : Daemon := { alone with files := fun path => if path = lit "tea" then some (lit "green") else none }

def teaInput (offset : Nat) : Json :=
  .obj [(lit "path", .str (lit "tea")), (lit "offset", .num offset 0), (lit "limit", .num 2 0)]

theorem asks_tea : ∀ offset < (lit "green").length, Asks (teaInput offset) (lit "tea") offset 2 := by
  intro offset hoffset
  have h5 : offset < 5 := hoffset
  interval_cases offset <;> exact ⟨by decide +kernel, by decide +kernel, by decide +kernel⟩

theorem read_pages_tea : ∃ pages,
    Follows (fun o => readReply (fun _ => ([], none)) CJsonReader.compact 512 (teaInput o) (calm 0) withTea) 0 pages ∧
      pages.flatMap (·.content) = lit "green" ∧ Noted pages :=
  read_pages (fun _ => ([], none)) CJsonReader.compact (Nat.le_refl 512) (by decide) (by decide) (by decide) (by decide) asks_tea
    (fun _ => rfl) (fun _ => by decide)

end Shclaw.Tools
