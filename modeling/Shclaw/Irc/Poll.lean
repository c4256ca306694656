/-
  Shclaw.Irc.Poll — lines from reads (`src/irc.c`: `irc_poll`).

  The server's bytes come in reads of at most 2048. `readbuf` carries a line that has
  not ended yet; a read that does not fit behind it clears it first. `irc_poll` reads
  once, or as often as the TLS engine has data: over its calls the reads of a
  connection form one sequence.

  `cut_independent`: the lines handled do not depend on how a stream is cut, and are
  the lines of the stream, exactly when no line is `Torn`: none that ends has 2048
  bytes or more with 4096 bytes or more of the stream from its start. Whether a longer
  line is dropped, kept or cut in two is otherwise up to the reads: the buffer is
  cleared when a read does not fit, though the line may, and what the read brings is
  then taken for the start of a line (`torn_line_obeyed`).
-/

import Mathlib.Data.List.TakeWhile
import Shclaw.Irc.Parse
import Shclaw.Lib.Lines

namespace Shclaw.Irc

open Lib

/-- `sizeof(irc->readbuf)`. -/
def bufSize : Nat := 4096

/-- `sizeof(buf)`. -/
def readMax : Nat := 2048

/-- The string a line's bytes hold, its CR removed. -/
def chomp (line : Str) : Str := (if line.getLast? = some 13 then line.dropLast else line).takeWhile (· ≠ 0)

/-- What `handle_line` is called on. -/
def nonEmpty (lines : List Str) : List Str := (lines.map chomp).filter (· ≠ [])

/-- What `readbuf` keeps when `n` more bytes come. -/
def keep (buf : Str) (n : Nat) : Str := if bufSize - buf.length - 1 < n then [] else buf

/-- One read of `irc_poll`: the connection and the carried bytes after it. -/
def pollRead (cfg : Config) (s : Conn × Str) (r : Str) : Conn × Str :=
  let p := segments 10 (keep s.2 r.length ++ r)
  ((nonEmpty p.1).foldl (handleLine cfg) s.1, p.2)

/-- The reads of a connection. -/
def poll (cfg : Config) (c : Conn) (reads : List Str) : Conn := (reads.foldl (pollRead cfg) (c, [])).1

/-! ## What a stream holds -/

/-- A way of cutting a stream into reads. -/
def Cut (stream : Str) (reads : List Str) : Prop := reads.flatten = stream ∧ ∀ r ∈ reads, r ≠ [] ∧ r.length ≤ readMax

/-- The line, its LF and a NUL fit the buffer. -/
def fits (line : Str) : Bool := line.length + 1 < bufSize

/-- The lines to handle. -/
def linesOf (stream : Str) : List Str := nonEmpty ((segments 10 stream).1.filter fits)

/-- However the stream is cut, its lines are handled, and only the owner's trigger. -/
structure CutIndependent (stream : Str) : Prop where
  lines : ∀ cfg c reads, Cut stream reads → (poll cfg c reads).log = c.log ++ linesOf stream
  owner : ∀ cfg c reads, Cut stream reads → cfg.owner ≠ [] → ∀ t ∈ (poll cfg c reads).triggers, t ∈ c.triggers ∨
    ∃ line ∈ linesOf stream, ∃ l, parseLine line = some l ∧ strcaseeq l.nick cfg.owner = true ∧ t.sender = l.nick

/-- A line that ends, of 2048 bytes or more, with 4096 or more of the stream from its start. -/
def Torn (stream : Str) : Prop := ∃ pre line post, stream = pre ++ line ++ 10 :: post ∧ AtStart 10 pre ∧ 10 ∉ line ∧
  readMax ≤ line.length ∧ bufSize ≤ (line ++ 10 :: post).length

/-! ## Reads without their effects -/

/-- The lines that reads complete behind `buf`, and what is carried after them. -/
def lineReads (buf : Str) : List Str → List Str × Str
  | [] => ([], buf)
  | r :: rs =>
    let p := segments 10 (keep buf r.length ++ r)
    let q := lineReads p.2 rs
    (p.1 ++ q.1, q.2)

theorem nonEmpty_append (a b : List Str) : nonEmpty (a ++ b) = nonEmpty a ++ nonEmpty b := by
  unfold nonEmpty
  rw [List.map_append, List.filter_append]

theorem foldl_handleLine_log (cfg : Config) (c : Conn) (lines : List Str) :
    (lines.foldl (handleLine cfg) c).log = c.log ++ lines := by
  induction lines generalizing c with
  | nil => exact (List.append_nil _).symm
  | cons line lines ih => rw [List.foldl_cons, ih, handleLine_log, List.append_assoc, List.singleton_append]

theorem foldl_handleLine_triggers {cfg : Config} (howner : cfg.owner ≠ []) (c : Conn) {lines : List Str} {t : Trigger}
    (h : t ∈ (lines.foldl (handleLine cfg) c).triggers) : t ∈ c.triggers ∨ ∃ line ∈ lines, ∃ l,
      parseLine line = some l ∧ strcaseeq l.nick cfg.owner = true ∧ t.sender = l.nick := by
  induction lines generalizing c with
  | nil => exact Or.inl h
  | cons line lines ih =>
    rcases ih _ h with h | ⟨x, hx, hrest⟩
    · rcases handleLine_triggers howner c h with h | hl
      · exact Or.inl h
      · exact Or.inr ⟨line, List.mem_cons_self, hl⟩
    · exact Or.inr ⟨x, List.mem_cons_of_mem _ hx, hrest⟩

/-- The connection handles the completed lines, one after the other. -/
theorem foldl_pollRead (cfg : Config) (c : Conn) (buf : Str) (reads : List Str) :
    reads.foldl (pollRead cfg) (c, buf) =
      ((nonEmpty (lineReads buf reads).1).foldl (handleLine cfg) c, (lineReads buf reads).2) := by
  induction reads generalizing c buf with
  | nil => rfl
  | cons r rs ih =>
    rw [List.foldl_cons, pollRead, ih]
    simp only [lineReads, nonEmpty_append, List.foldl_append]

theorem poll_log (cfg : Config) (c : Conn) (reads : List Str) :
    (poll cfg c reads).log = c.log ++ nonEmpty (lineReads [] reads).1 := by
  unfold poll
  rw [foldl_pollRead, foldl_handleLine_log]

theorem lineReads_append (buf : Str) (a b : List Str) : lineReads buf (a ++ b) =
    ((lineReads buf a).1 ++ (lineReads (lineReads buf a).2 b).1, (lineReads (lineReads buf a).2 b).2) := by
  induction a generalizing buf with
  | nil => rfl
  | cons r rs ih => simp only [List.cons_append, lineReads, ih, List.append_assoc]

/-! ## Without a torn line, every cut gives the lines -/

/-- The lines of a stream that tears none all fit. -/
theorem filter_fits {stream : Str} (h : ¬ Torn stream) : (segments 10 stream).1.filter fits = (segments 10 stream).1 := by
  refine List.filter_eq_self.mpr fun line hline => ?_
  obtain ⟨pre, post, hs, hpre, hnot⟩ := mem_segments hline
  by_contra hlong
  have hbig : bufSize ≤ line.length + 1 := by simpa [fits] using hlong
  refine h ⟨pre, line, post, hs, hpre, hnot, ?_, ?_⟩
  · unfold bufSize readMax at *
    omega
  · rw [List.length_append, List.length_cons]
    omega

/-- What is left of the stream after the reads so far: the tail is carried, or was lost and
    no line ends any more. -/
theorem lineReads_untorn {done rest : Str} (h : ¬ Torn (done ++ rest)) {buf : Str}
    (hbuf : buf = (segments 10 done).2 ∨ 10 ∉ buf ∧ 10 ∉ rest) {reads : List Str} (hcut : Cut rest reads) :
    (segments 10 done).1 ++ (lineReads buf reads).1 = (segments 10 (done ++ rest)).1 := by
  induction reads generalizing done rest buf with
  | nil =>
    obtain rfl : rest = [] := hcut.1.symm
    rw [List.append_nil]
    exact List.append_nil _
  | cons r rs ih =>
    obtain ⟨rfl, hsize⟩ := hcut
    rw [List.flatten_cons] at h hbuf ⊢
    have hcut' : Cut rs.flatten rs := ⟨rfl, fun x hx => hsize x (List.mem_cons_of_mem _ hx)⟩
    have hr := (hsize r List.mem_cons_self).2
    rw [← List.append_assoc] at h ⊢
    simp only [lineReads]
    -- the buffer is kept and is the tail, or nothing ends any more
    have hcases : keep buf r.length = (segments 10 done).2 ∨ 10 ∉ keep buf r.length ∧ 10 ∉ r ++ rs.flatten := by
      unfold keep
      split
      · rename_i hover
        right
        refine ⟨by simp, ?_⟩
        rcases hbuf with rfl | ⟨-, hrest⟩
        · intro hmem
          obtain ⟨pre, hdone, hpre, hnot⟩ := segments_tail 10 done
          obtain ⟨a, post, hend, ha⟩ := List.eq_append_cons_of_mem hmem
          refine h ⟨pre, (segments 10 done).2 ++ a, post, ?_, hpre, by simp [hnot, ha], ?_, ?_⟩
          · rw [List.append_assoc, hend]
            conv_lhs => rw [hdone]
            simp
          · rw [List.length_append]
            unfold bufSize readMax at *
            omega
          · have hlen := congrArg List.length hend
            simp only [List.length_append, List.length_cons] at hlen ⊢
            unfold bufSize at *
            omega
        · exact hrest
      · exact hbuf
    rcases hcases with hkeep | ⟨hno, hrest⟩
    · rw [hkeep, ← List.append_assoc, ← ih h (Or.inl ?_) hcut', segments_append done r]
      rw [segments_append done r]
    · rw [List.mem_append, not_or] at hrest
      have hr0 : 10 ∉ keep buf r.length ++ r := by simp [hno, hrest.1]
      have hstep : _ ++ (lineReads (keep buf r.length ++ r) rs).1 = _ := ih h (Or.inr ⟨hr0, hrest.2⟩) hcut'
      rw [segments_of_not_mem hr0, List.nil_append, ← hstep]
      congr 1
      -- no line ends in `r`
      obtain ⟨-, -, -, htail⟩ := segments_tail 10 done
      have hnone : segments 10 ((segments 10 done).2 ++ r) = ([], _) := segments_of_not_mem (by simp [htail, hrest.1])
      rw [segments_append done r, hnone, List.append_nil]

/-! ## A torn line can be handled in two ways -/

theorem keep_fits {buf : Str} {n : Nat} (h : buf.length + n < bufSize) : keep buf n = buf := by
  unfold keep
  rw [if_neg (by omega)]

theorem keep_over {buf : Str} {n : Nat} (hn : 0 < n) (h : bufSize ≤ buf.length + n) : keep buf n = [] := by
  unfold keep
  rw [if_pos (by omega)]

theorem keep_not_mem {buf : Str} (h : 10 ∉ buf) (n : Nat) : 10 ∉ keep buf n := by
  unfold keep
  split
  · exact List.not_mem_nil
  · exact h

/-- A read that ends no line. -/
theorem lineReads_quiet {buf r : Str} (hbuf : 10 ∉ buf) (hr : 10 ∉ r) (rs : List Str) :
    lineReads buf (r :: rs) = lineReads (keep buf r.length ++ r) rs := by
  have hno : 10 ∉ keep buf r.length ++ r := by simp [keep_not_mem hbuf, hr]
  simp only [lineReads, segments_of_not_mem hno, List.nil_append]

/-- A read that ends the carried line. -/
theorem lineReads_ends {buf r x q : Str} (h : keep buf r.length ++ r = x ++ 10 :: q) (hx : 10 ∉ x) :
    lineReads buf [r] = (x :: (segments 10 q).1, (segments 10 q).2) := by
  simp only [lineReads, h, segments_first hx, List.append_nil]

theorem lineReads_end {buf r x : Str} (h : keep buf r.length ++ r = x ++ [10]) (hx : 10 ∉ x) :
    lineReads buf [r] = ([x], []) := lineReads_ends h hx

theorem lineReads_start {p : Str} (hp : 10 ∉ p) (rs : List Str) : lineReads [] (p :: rs) = lineReads p rs := by
  have hnil : keep [] p.length = [] := by
    unfold keep
    split <;> rfl
  rw [lineReads_quiet List.not_mem_nil hp, hnil, List.nil_append]

theorem lineReads_one (q : Str) : lineReads [] [q] = segments 10 q := by
  have hnil : keep [] q.length = [] := by
    unfold keep
    split <;> rfl
  simp only [lineReads, hnil, List.nil_append, List.append_nil]

def singles (s : Str) : List Str := s.map fun b => [b]

theorem cut_singles (s : Str) : Cut s (singles s) := by
  unfold singles
  refine ⟨by induction s <;> simp_all, fun r hr => ?_⟩
  obtain ⟨b, -, rfl⟩ := List.mem_map.mp hr
  exact ⟨by simp, by simp [readMax]⟩

theorem Cut.append {s t : Str} {a b : List Str} (h : Cut s a) (h' : Cut t b) : Cut (s ++ t) (a ++ b) := by
  refine ⟨by rw [List.flatten_append, h.1, h'.1], fun r hr => ?_⟩
  rcases List.mem_append.mp hr with hr | hr
  · exact h.2 r hr
  · exact h'.2 r hr

theorem Cut.one {r : Str} (h : 0 < r.length ∧ r.length ≤ readMax) : Cut r [r] :=
  ⟨by simp, fun x hx => by rw [List.mem_singleton.mp hx]; exact ⟨List.length_pos_iff.mp h.1, h.2⟩⟩

theorem Cut.cons {r s : Str} {rs : List Str} (h : 0 < r.length ∧ r.length ≤ readMax) (hs : Cut s rs) :
    Cut (r ++ s) (r :: rs) := (Cut.one h).append hs

/-- Reads of a line's bytes one by one end no line. -/
theorem lineReads_singles {s buf : Str} (hs : 10 ∉ s) (hbuf : 10 ∉ buf) (rs : List Str) :
    ∃ buf', 10 ∉ buf' ∧ lineReads buf (singles s ++ rs) = lineReads buf' rs := by
  induction s generalizing buf with
  | nil => exact ⟨buf, hbuf, rfl⟩
  | cons b s ih =>
    rw [List.mem_cons, not_or] at hs
    have hb : 10 ∉ [b] := by simpa using hs.1
    have hnext : 10 ∉ keep buf 1 ++ [b] := by simp [keep_not_mem hbuf, hs.1]
    obtain ⟨buf', hbuf', heq⟩ := ih hs.2 hnext
    exact ⟨buf', hbuf', (lineReads_quiet hbuf hb _).trans heq⟩

/-- Two full reads leave the second. -/
theorem lineReads_full {buf p q : Str} (hbuf : 10 ∉ buf) (hp : 10 ∉ p) (hq : 10 ∉ q) (hlp : p.length = readMax)
    (hlq : q.length = readMax) (rs : List Str) : lineReads buf (p :: q :: rs) = lineReads q rs := by
  have hmid : 10 ∉ keep buf p.length ++ p := by simp [keep_not_mem hbuf, hp]
  rw [lineReads_quiet hbuf hp, lineReads_quiet hmid hq, keep_over, List.nil_append]
  · rw [hlq]
    decide
  · rw [List.length_append, hlp, hlq]
    unfold bufSize readMax
    omega

/-- What is carried when a line starts. -/
theorem lineReads_atStart {pre : Str} (h : AtStart 10 pre) : (lineReads [] (singles pre)).2 = [] := by
  rcases h with rfl | ⟨p, rfl⟩
  · rfl
  · unfold singles
    rw [List.map_append, lineReads_append]
    exact segments_of_atStart (Or.inr ⟨_, rfl⟩)

theorem chomp_length {x : Str} (h : 0 ∉ x) : x.length ≤ (chomp x).length + 1 ∧ (chomp x).length ≤ x.length := by
  have hall : ∀ y : Str, (∀ b ∈ y, b ∈ x) → y.takeWhile (· ≠ 0) = y := fun y hy =>
    List.takeWhile_eq_self_iff.mpr fun b hb => by
      have := hy b hb
      simp only [ne_eq, decide_eq_true_eq]
      rintro rfl
      exact h this
  unfold chomp
  split
  · rw [hall _ fun b hb => List.mem_of_mem_dropLast hb, List.length_dropLast]
    omega
  · rw [hall _ fun b hb => hb]
    omega

/-- One more byte in front. -/
theorem chomp_cons {b : UInt8} {q : Str} (hb : b ≠ 0) (hq : q ≠ []) : chomp (b :: q) = b :: chomp q := by
  obtain ⟨c, q, rfl⟩ := List.exists_cons_of_ne_nil hq
  unfold chomp
  rw [List.getLast?_cons_cons]
  split
  · rw [List.dropLast_cons_cons, List.takeWhile_cons_of_pos (by simpa using hb)]
  · rw [List.takeWhile_cons_of_pos (by simpa using hb)]

theorem nonEmpty_flatten (x : Str) : (nonEmpty [x]).flatten = chomp x := by
  unfold nonEmpty
  by_cases h : chomp x = [] <;> simp [h]

/-- Two ways of reading the first bytes of `s` that handle different lines and carry the
    same bytes on. -/
def Forks (s : Str) : Prop := ∃ a b first rest x y segs t, s = first ++ rest ∧ Cut first a ∧ Cut first b ∧
  lineReads [] a = (x :: segs, t) ∧ lineReads [] b = (y :: segs, t) ∧ chomp x ≠ chomp y

theorem split_length {n : Nat} {s : Str} (h : n ≤ s.length) : ∃ p q, s = p ++ q ∧ p.length = n :=
  ⟨s.take n, s.drop n, (List.take_append_drop n s).symm, List.length_take_of_le h⟩

section Forks

variable {line : Str} (hno : 10 ∉ line) (h0 : 0 ∉ line)

include hno h0

/-- The line fits; behind its first 2048 bytes a full read does not. -/
theorem forks_fits (post : Str) (hlo : readMax ≤ line.length) (hhi : line.length + 1 < bufSize)
    (hlen : bufSize ≤ (line ++ 10 :: post).length) : Forks (line ++ 10 :: post) := by
  have hmax : readMax = 2048 := rfl
  have hbuf : bufSize = 4096 := rfl
  obtain ⟨p, q, rfl, hp⟩ := split_length hlo
  obtain ⟨r, rest, rfl, hr⟩ : ∃ r rest, post = r ++ rest ∧ r.length = bufSize - 1 - (p ++ q).length := by
    apply split_length
    simp only [List.length_append, List.length_cons] at hlen ⊢
    omega
  rw [List.mem_append, not_or] at hno
  rw [List.length_append] at hhi hr
  have hlast : (q ++ [10]).length = q.length + 1 := by simp
  have hfull : (q ++ 10 :: r).length = readMax := by
    rw [List.length_append, List.length_cons]
    omega
  refine ⟨[p, q ++ [10], r], [p, q ++ 10 :: r], p ++ (q ++ 10 :: r), rest, p ++ q, q, (segments 10 r).1,
    (segments 10 r).2, by simp, ?_, ?_, ?_, ?_, ?_⟩
  · rw [show q ++ 10 :: r = (q ++ [10]) ++ r by simp]
    exact .cons (by omega) (.cons (by omega) (.one (by omega)))
  · exact .cons (by omega) (.one (by omega))
  · have hkeep : keep p (q ++ [10]).length = p := keep_fits (by omega)
    rw [lineReads_start hno.1, ← List.singleton_append, lineReads_append,
      lineReads_end (by rw [hkeep, List.append_assoc]) (by simp [hno]), lineReads_one]
    rfl
  · have hkeep : keep p (q ++ 10 :: r).length = [] := keep_over (by omega) (by omega)
    rw [lineReads_start hno.1]
    exact lineReads_ends (by rw [hkeep, List.nil_append]) hno.2
  · intro heq
    have h1 := chomp_length h0
    have h2 := chomp_length (x := q) fun h => h0 (List.mem_append_right _ h)
    rw [heq, List.length_append] at h1
    omega

/-- A read of the LF alone clears the buffer of a line that would fit without it. -/
theorem forks_full (post : Str) (hlen : line.length + 1 = bufSize) : Forks (line ++ 10 :: post) := by
  have hmax : readMax = 2048 := rfl
  have hbuf : bufSize = 4096 := rfl
  obtain ⟨p, q, rfl, hp⟩ : ∃ p q, line = p ++ q ∧ p.length = readMax := split_length (by omega)
  rw [List.mem_append, not_or] at hno
  rw [List.length_append] at hlen
  have hlast : (q ++ [10]).length = readMax := by
    rw [List.length_append, List.length_singleton]
    omega
  have hone : ([10] : Str).length = 1 := rfl
  refine ⟨[p, q, [10]], [p, q ++ [10]], p ++ (q ++ [10]), post, [], q, [], [], by simp, ?_, ?_, ?_, ?_, ?_⟩
  · exact .cons (by omega) (.cons (by omega) (.one (by omega)))
  · exact .cons (by omega) (.one (by omega))
  · have hkeep : keep (p ++ q) 1 = [] := keep_over (by omega) (by rw [List.length_append]; omega)
    rw [lineReads_start hno.1, lineReads_quiet hno.1 hno.2, keep_fits (by omega)]
    exact lineReads_end (by rw [hone, hkeep]) List.not_mem_nil
  · have hkeep : keep p (q ++ [10]).length = [] := keep_over (by omega) (by omega)
    rw [lineReads_start hno.1]
    exact lineReads_end (by rw [hkeep, List.nil_append]) hno.2
  · intro heq
    have h2 := chomp_length (x := q) fun h => h0 (List.mem_append_right _ h)
    rw [← heq, show chomp [] = [] from rfl, List.length_nil] at h2
    omega

/-- Its last byte comes alone, or with the LF behind a buffer that is full. -/
theorem forks_one (post : Str) (hlen : line.length = bufSize) : Forks (line ++ 10 :: post) := by
  have hmax : readMax = 2048 := rfl
  have hbuf : bufSize = 4096 := rfl
  obtain ⟨p, m, rfl, hp⟩ : ∃ p m, line = p ++ m ∧ p.length = readMax := split_length (by omega)
  rw [List.length_append] at hlen
  obtain ⟨q, r, rfl, hq⟩ : ∃ q r, m = q ++ r ∧ q.length = readMax - 1 := split_length (by omega)
  simp only [List.mem_append, not_or] at hno
  have hm : (q ++ r).length = q.length + r.length := List.length_append
  have hlast : (r ++ [10]).length = r.length + 1 := by simp
  have hone : ([10] : Str).length = 1 := rfl
  refine ⟨[p, q ++ r, [10]], [p, q, r ++ [10]], p ++ (q ++ r ++ [10]), post, q ++ r, r, [], [], by simp, ?_, ?_, ?_, ?_, ?_⟩
  · exact .cons (by omega) (.cons (by omega) (.one (by omega)))
  · rw [List.append_assoc q]
    exact .cons (by omega) (.cons (by omega) (.one (by omega)))
  · have hkeep : keep (q ++ r) 1 = q ++ r := keep_fits (by omega)
    rw [lineReads_full List.not_mem_nil hno.1 (by simp [hno]) hp (by omega)]
    exact lineReads_end (by rw [hone, hkeep]) (by simp [hno])
  · have hkeep : keep (p ++ q) (r ++ [10]).length = [] := keep_over (by omega) (by rw [List.length_append]; omega)
    rw [lineReads_start hno.1, lineReads_quiet hno.1 hno.2.1, keep_fits (by omega)]
    exact lineReads_end (by rw [hkeep, List.nil_append]) hno.2.2
  · intro heq
    have h1 := chomp_length (x := q ++ r) fun h => h0 (List.mem_append_right _ h)
    have h2 := chomp_length (x := r) fun h => h0 (List.mem_append_right _ (List.mem_append_right _ h))
    rw [heq] at h1
    omega

/-- Two full reads leave the last 2048 bytes, before the LF or before one more byte. -/
theorem forks_long (post : Str) (hlen : bufSize < line.length) : Forks (line ++ 10 :: post) := by
  have hmax : readMax = 2048 := rfl
  have hbuf : bufSize = 4096 := rfl
  obtain ⟨x, m, rfl, hx⟩ : ∃ x m, line = x ++ m ∧ x.length = line.length - 1 - bufSize := split_length (by omega)
  rw [List.length_append] at hlen hx
  obtain ⟨u, v, rfl, hu⟩ : ∃ u v, m = u ++ v ∧ u.length = readMax := split_length (by omega)
  rw [List.length_append] at hlen hx
  obtain ⟨b, u, rfl⟩ := List.exists_cons_of_length_pos (l := u) (by omega)
  obtain ⟨d, q, rfl⟩ := List.exists_cons_of_length_pos (l := v) (by omega)
  simp only [List.length_cons] at hlen hx hu
  obtain ⟨q', w, hqw, hq'⟩ : ∃ q' w, d :: q = q' ++ w ∧ q'.length = readMax := split_length (by rw [List.length_cons]; omega)
  have hw := congrArg List.length hqw
  rw [List.length_cons, List.length_append] at hw
  have hnq : 10 ∉ q' ++ w := hqw ▸ fun h => hno (List.mem_append_right _ (List.mem_append_right _ h))
  have hone : ([10] : Str).length = 1 := rfl
  have hlast : (w ++ [10]).length = w.length + 1 := by simp
  have hmid : (u ++ [d]).length = readMax := by simp [← hu]
  have hfst : (b :: u).length = readMax := hu
  simp only [List.mem_append, List.mem_cons, not_or] at hno h0 hnq
  refine ⟨singles (x ++ [b]) ++ [u ++ [d], q, [10]], singles x ++ [b :: u, q', w ++ [10]],
    x ++ (b :: u ++ (d :: q ++ [10])), post, q, d :: q, [], [], by simp, ?_, ?_, ?_, ?_, ?_⟩
  · rw [show x ++ (b :: u ++ (d :: q ++ [10])) = (x ++ [b]) ++ ((u ++ [d]) ++ (q ++ [10])) by simp]
    exact (cut_singles _).append (.cons (by omega) (.cons (by omega) (.one (by omega))))
  · rw [hqw, List.append_assoc q']
    exact (cut_singles _).append (.cons (by omega) (.cons (by omega) (.one (by omega))))
  · obtain ⟨buf, hbuf, heq⟩ := lineReads_singles (s := x ++ [b]) (by simp [hno]) List.not_mem_nil [u ++ [d], q, [10]]
    have hkeep : keep q 1 = q := keep_fits (by omega)
    rw [heq, lineReads_full hbuf (by simp [hno]) hno.2.2.2 hmid (by omega)]
    exact lineReads_end (by rw [hone, hkeep]) hno.2.2.2
  · obtain ⟨buf, hbuf, heq⟩ := lineReads_singles (s := x) hno.1 List.not_mem_nil [b :: u, q', w ++ [10]]
    have hkeep : keep q' (w ++ [10]).length = q' := keep_fits (by omega)
    rw [heq, lineReads_full hbuf (by simp [hno]) hnq.1 hfst hq', hqw]
    exact lineReads_end (by rw [hkeep, List.append_assoc]) (by simp [hnq])
  · intro heq
    have hne : q ≠ [] := by
      rintro rfl
      rw [List.length_nil] at hw
      omega
    rw [chomp_cons (Ne.symm h0.2.2.1) hne] at heq
    have := congrArg List.length heq
    rw [List.length_cons] at this
    omega

end Forks

/-! ## The lines of a stream, whatever its reads -/

/-- Two ways of reading the first bytes behind `pre` are two ways of reading the stream. -/
theorem not_cutIndependent_of_forks {pre s : Str} (hpre : AtStart 10 pre) (h : Forks s) : ¬ CutIndependent (pre ++ s) := by
  obtain ⟨a, b, first, rest, x, y, segs, t, rfl, ha, hb, hra, hrb, hne⟩ := h
  intro hind
  have hlog : ∀ reads, Cut (pre ++ (first ++ rest)) reads →
      nonEmpty (lineReads [] reads).1 = linesOf (pre ++ (first ++ rest)) := by
    intro reads hcut
    have := hind.lines ⟨[], [], [], [], [], false⟩ ⟨[], false, [], [], []⟩ reads hcut
    rwa [poll_log, List.nil_append, List.nil_append] at this
  have hboth := fun reads (hcut : Cut first reads) =>
    hlog (singles pre ++ (reads ++ singles rest)) ((cut_singles pre).append (hcut.append (cut_singles rest)))
  have heq := (hboth a ha).trans (hboth b hb).symm
  simp only [lineReads_append, lineReads_atStart hpre, hra, hrb, nonEmpty_append] at heq
  have hsame := List.append_cancel_left heq
  have hcons : ∀ z : Str, nonEmpty (z :: segs) = nonEmpty [z] ++ nonEmpty segs := fun z => nonEmpty_append [z] segs
  rw [hcons, hcons, List.append_assoc, List.append_assoc] at hsame
  have hxy := congrArg List.flatten (List.append_cancel_right hsame)
  rw [nonEmpty_flatten, nonEmpty_flatten] at hxy
  exact hne hxy

/-- Every way of cutting a NUL-free stream gives its lines, and the owner's triggers alone,
    exactly when no line of it is torn. -/
theorem cut_independent (stream : Str) (h0 : 0 ∉ stream) : CutIndependent stream ↔ ¬ Torn stream := by
  constructor
  · rintro hind ⟨pre, line, post, rfl, hpre, hno, hlo, hlen⟩
    have h0' : 0 ∉ line := fun h => h0 (by simp [h])
    rw [List.append_assoc] at hind
    refine not_cutIndependent_of_forks hpre ?_ hind
    rcases Nat.lt_trichotomy (line.length + 1) bufSize with hlt | heq | hgt
    · exact forks_fits hno h0' post hlo hlt hlen
    · exact forks_full hno h0' post heq
    · rcases Nat.lt_or_ge bufSize line.length with hlong | hone
      · exact forks_long hno h0' post hlong
      · exact forks_one hno h0' post (by omega)
  · intro htorn
    have hlines : ∀ reads, Cut stream reads → nonEmpty (lineReads [] reads).1 = linesOf stream := by
      intro reads hcut
      have hstart : ¬ Torn ([] ++ stream) := htorn
      have hall : (segments 10 []).1 ++ (lineReads [] reads).1 = (segments 10 ([] ++ stream)).1 :=
        lineReads_untorn hstart (Or.inl rfl) hcut
      unfold linesOf
      rw [filter_fits htorn, ← List.nil_append stream, ← hall]
      rfl
    constructor
    · intro cfg c reads hcut
      rw [poll_log, hlines reads hcut]
    · intro cfg c reads hcut howner t ht
      unfold poll at ht
      rw [foldl_pollRead, hlines reads hcut] at ht
      exact foldl_handleLine_triggers howner c ht

def ping : Str := lit "PING :x\r\nPING :y\r\n"

theorem cut_independent_ping : CutIndependent ping := by
  refine (cut_independent ping (by decide)).mpr ?_
  rintro ⟨pre, line, post, hs, -, -, -, hlen⟩
  have := congrArg List.length hs
  rw [List.append_assoc, List.length_append, show ping.length = 18 by decide] at this
  unfold bufSize at hlen
  omega

/-! ## A stranger's line taken for the owner's -/

def padding (n : Nat) : Str := List.replicate n (ch 'a')

/-- The words at the end of a long line. -/
def order : Str := lit ":gov!u@h PRIVMSG #c :rm"

def client : Config where
  channel := lit "#c"
  channelKey := []
  owner := lit "gov"
  hub := lit "ada"
  agents := [lit "ada"]
  routes := true

/-- One line of 2071 bytes and the start of the next. -/
def longLine : Str := padding 2048 ++ order ++ 10 :: padding 2024

/-- The second read does not fit and clears the line's first 2048 bytes: the rest is obeyed. -/
theorem torn_line_obeyed : ¬ ∀ stream, 0 ∉ stream → CutIndependent stream := by
  intro hall
  have hpad : ∀ n b, b ≠ ch 'a' → b ∉ padding n := fun n b hb h => hb (List.eq_of_mem_replicate h)
  have hlen : ∀ n, (padding n).length = n := fun n => List.length_replicate
  have horder : 10 ∉ order ∧ 0 ∉ order ∧ order.length = 23 := by decide
  have hread : (order ++ 10 :: padding 2024).length = readMax := by
    rw [List.length_append, List.length_cons, hlen, horder.2.2]
    rfl
  have hnext : segments 10 (padding 2024) = ([], padding 2024) := segments_of_not_mem (hpad _ _ (by decide))
  have h0 : 0 ∉ longLine := by
    simp only [longLine, List.mem_append, List.mem_cons, not_or]
    exact ⟨⟨hpad _ _ (by decide), horder.2.1⟩, by decide, hpad _ _ (by decide)⟩
  have hcut : Cut longLine [padding 2048, order ++ 10 :: padding 2024] := by
    rw [longLine, List.append_assoc]
    exact .cons ⟨by rw [hlen]; omega, by rw [hlen]; decide⟩ (.one ⟨by rw [hread]; decide, by rw [hread]⟩)
  have hreads : lineReads [] [padding 2048, order ++ 10 :: padding 2024] = ([order], padding 2024) := by
    have hkeep : keep (padding 2048) (order ++ 10 :: padding 2024).length = [] := by
      rw [hread]
      exact keep_over (by decide) (by rw [hlen]; decide)
    rw [lineReads_start (hpad _ _ (by decide)), lineReads_ends (by rw [hkeep, List.nil_append]) horder.1, hnext]
  -- the words trigger
  have htrig : ((poll client ⟨[], false, [], [], []⟩ [padding 2048, order ++ 10 :: padding 2024]).triggers.map
      (·.sender)) = [lit "gov"] := by
    unfold poll
    rw [foldl_pollRead, hreads]
    decide +kernel
  obtain ⟨t, ht⟩ : ∃ t, t ∈ (poll client ⟨[], false, [], [], []⟩ [padding 2048, order ++ 10 :: padding 2024]).triggers := by
    apply List.exists_mem_of_ne_nil
    intro hnil
    rw [hnil] at htrig
    cases htrig
  rcases (hall longLine h0).owner client ⟨[], false, [], [], []⟩ _ hcut (by decide) t ht with h | ⟨line, hline, l, hl, hnick, -⟩
  · cases h
  -- the stream's one line does not name a sender
  have hlines : linesOf longLine = nonEmpty [padding 2048 ++ order] := by
    have hnot : 10 ∉ padding 2048 ++ order := by
      simp only [List.mem_append, not_or]
      exact ⟨hpad _ _ (by decide), horder.1⟩
    have hfits : fits (padding 2048 ++ order) = true := by
      unfold fits
      rw [List.length_append, hlen, horder.2.2]
      decide
    rw [linesOf, longLine, segments_first hnot, hnext, List.filter_cons_of_pos hfits, List.filter_nil]
  have hchomp : line = ch 'a' :: chomp (padding 2047 ++ order) := by
    rw [hlines] at hline
    have : [line].flatten = (nonEmpty [padding 2048 ++ order]).flatten := by
      unfold nonEmpty at hline ⊢
      by_cases h : chomp (padding 2048 ++ order) = [] <;> simp_all
    rw [nonEmpty_flatten, show padding 2048 ++ order = ch 'a' :: (padding 2047 ++ order) from rfl,
      chomp_cons (by decide) (by simp [order, lit])] at this
    simpa using this
  rw [hchomp] at hl
  have hnil : l.nick = [] := by
    unfold parseLine parseCommand at hl
    rw [if_neg (by simp [byte, ch])] at hl
    dsimp only at hl
    split at hl
    · cases hl
    · cases hl
      rfl
  rw [hnil] at hnick
  exact absurd hnick (by decide)

end Shclaw.Irc
