/-
  Shclaw.Http.Answer — reading a response (`src/http.c`: `do_request` from the first read
  on, `find_header`).

  The buffer grows from 64 KiB to 4 MiB by doubling; what the connection gives comes in
  reads of any size until it ends, fails or waits too long (`Turn`). Every write is
  checked against the buffer. Then the text up to the first NUL is searched for the end
  of the headers, and what follows them, NULs included, is the body, decoded if it is
  chunked.

  A server's response is a `Reply`: a status line, headers, and a body as it is or in
  chunks.

  `answer_read`: however the stream is cut into reads and wherever the connection ends
  it, no write is outside the buffer, and the answer is an error or the reply's status,
  location and `Retry-After` (a number of seconds that an `int` holds) with the body as far as the stream came. It is the whole body
  when the stream came through and is shorter than 4 MiB. A longer one, or one whose
  connection ended early, is not told from a whole one.
-/

import Mathlib.Data.List.TakeWhile
import Shclaw.Http.Chunked
import Shclaw.JsonText
import Shclaw.Lib.Uri

namespace Shclaw.Http

open Lib

/-! ## The buffer -/

def bufStart : Nat := 65536

def bufMax : Nat := 4 * 1024 * 1024

/-- New memory holds anything. -/
structure Heap where
  fresh : Nat → Str
  size : ∀ n, (fresh n).length = n

/-- A round of the loop: whether `realloc` succeeds, if it is called, and what the read returns at
    most; 0 is the end, an error or a wait too long. -/
structure Turn where
  grows : Bool
  got : Nat

inductive Loaded where
  | waiting
  | noMemory
  | loaded (mem : Str) (total : Nat)

/-- The buffer with room for a read: doubled when there is little left. -/
def grow (H : Heap) (mem : Str) (total : Nat) : Str :=
  if mem.length < total + 8192 then
    let newCap := min (mem.length * 2) bufMax
    mem.take newCap ++ H.fresh (newCap - mem.length)
  else mem

/-- The rounds of the reading loop on a connection that gives `stream`; `none` is a write
    outside the buffer. -/
def readLoop (H : Heap) (stream : Str) : List Turn → Str → Nat → Option Loaded
  | turns, mem, total =>
    if ¬ total < bufMax then some (.loaded mem total)
    else
      match turns with
      | [] => some .waiting
      | t :: turns =>
        if mem.length < total + 8192 ∧ t.grows = false then some .noMemory
        else
          let mem := grow H mem total
          let room := asSize ((mem.length : Int) - total - 1)
          let bytes := (stream.drop total).take (min t.got room)
          if bytes = [] then some (.loaded mem total)
          else (write mem total bytes).bind fun mem => readLoop H stream turns mem (total + bytes.length)

/-- From `malloc` to the NUL behind what was read. -/
def readBuffer (H : Heap) (stream : Str) (turns : List Turn) : Option Loaded :=
  (readLoop H stream turns (H.fresh bufStart) 0).bind fun
    | .loaded mem total => (write mem total [0]).map fun mem => .loaded mem total
    | other => some other

/-- A buffer that is being filled: its size and what is in it. -/
structure Filling (stream mem : Str) (total : Nat) : Prop where
  start : bufStart ≤ mem.length
  cap : mem.length ≤ bufMax
  room : total < mem.length
  held : mem.take total = stream.take total
  come : total ≤ stream.length

section Filling

variable {H : Heap} {stream mem : Str} {total : Nat}

theorem length_grow (H : Heap) (mem : Str) (total : Nat) (hcap : mem.length ≤ bufMax) : (grow H mem total).length =
    if mem.length < total + 8192 then min (mem.length * 2) bufMax else mem.length := by
  unfold grow
  split
  · rw [List.length_append, H.size, List.length_take]
    omega
  · rfl

theorem Filling.grow (h : Filling stream mem total) : Filling stream (grow H mem total) total := by
  have hstart := h.start
  have hcap := h.cap
  have hroom := h.room
  have hlen := length_grow H mem total hcap
  refine ⟨?_, ?_, ?_, ?_, h.come⟩
  · rw [hlen]
    split <;> omega
  · rw [hlen]
    split <;> omega
  · rw [hlen]
    split <;> omega
  · unfold Http.grow
    split
    · dsimp only
      rw [List.take_of_length_le (l := mem) (by omega), List.take_append_of_le_length (by omega)]
      exact h.held
    · exact h.held

/-- There is room for a read of 8 KiB, or the buffer is as large as it gets. -/
theorem Filling.space (h : Filling stream mem total) :
    total + 8192 ≤ (Http.grow H mem total).length ∨ (Http.grow H mem total).length = bufMax := by
  have hstart := h.start
  have hroom := h.room
  have hbig : 8192 * 2 ≤ bufStart := by decide
  rw [length_grow H mem total h.cap]
  split <;> omega

theorem Filling.room_eq (h : Filling stream mem total) : asSize ((mem.length : Int) - total - 1) = mem.length - total - 1 := by
  have hroom := h.room
  have hcap : mem.length < 2 ^ 64 := Nat.lt_of_le_of_lt h.cap (by decide)
  rw [show (mem.length : Int) - total - 1 = ((mem.length - total - 1 : Nat) : Int) by omega, asSize_natCast (by omega)]

/-- What a read brings fits, and the NUL behind it. -/
theorem Filling.fill (h : Filling stream mem total) (n : Nat) :
    ∃ mem', write mem total ((stream.drop total).take (min n (asSize ((mem.length : Int) - total - 1)))) = some mem' ∧
      Filling stream mem' (total + ((stream.drop total).take (min n (asSize ((mem.length : Int) - total - 1)))).length) := by
  have hroom := h.room
  have hcome := h.come
  rw [h.room_eq]
  set bytes := (stream.drop total).take (min n (mem.length - total - 1)) with hbytes
  have hlen : bytes.length ≤ mem.length - total - 1 := by
    rw [hbytes, List.length_take]
    omega
  have hleft : bytes.length ≤ stream.length - total := by
    rw [hbytes, List.length_take, List.length_drop]
    omega
  have hfits : total + bytes.length ≤ mem.length := by omega
  refine ⟨_, write_eq hfits, ?_, ?_, ?_, ?_, by omega⟩
  · rw [written_length hfits]
    exact h.start
  · rw [written_length hfits]
    exact h.cap
  · rw [written_length hfits]
    omega
  · rw [written_take hfits, h.held, List.take_add]
    congr 1
    rw [hbytes, List.length_take, List.take_eq_take_iff]
    simp

/-- The loop stays in its buffer, whatever the connection does. -/
theorem readLoop_ok (h : Filling stream mem total) (turns : List Turn) :
    ∃ r, readLoop H stream turns mem total = some r ∧ ∀ mem' total', r = .loaded mem' total' → Filling stream mem' total' := by
  induction turns generalizing mem total with
  | nil =>
    unfold readLoop
    split
    · exact ⟨_, rfl, fun mem' total' hr => by cases hr; exact h⟩
    · exact ⟨_, rfl, fun mem' total' hr => by cases hr⟩
  | cons t turns ih =>
    unfold readLoop
    split
    · exact ⟨_, rfl, fun mem' total' hr => by cases hr; exact h⟩
    · dsimp only
      split
      · exact ⟨_, rfl, fun mem' total' hr => by cases hr⟩
      · split
        · exact ⟨_, rfl, fun mem' total' hr => by cases hr; exact h.grow⟩
        · obtain ⟨mem', hwrite, hfill⟩ := h.grow.fill t.got
          rw [hwrite, Option.bind_some]
          exact ih hfill

/-- It ends with the stream or with a full buffer of 4 MiB, unless the connection ends before. -/
theorem readLoop_whole (h : Filling stream mem total) (turns : List Turn) (hgot : ∀ t ∈ turns, 0 < t.got) {mem' : Str}
    {total' : Nat} (hr : readLoop H stream turns mem total = some (.loaded mem' total')) :
    total' = stream.length ∨ total' + 1 = bufMax := by
  induction turns generalizing mem total with
  | nil =>
    have := h.room
    have := h.cap
    unfold readLoop at hr
    rw [if_neg (by omega)] at hr
    cases hr
  | cons t turns ih =>
    have hroom := h.room
    have hcap := h.cap
    unfold readLoop at hr
    rw [if_neg (by omega)] at hr
    dsimp only at hr
    split at hr
    · cases hr
    · split at hr
      · rename_i hnil
        cases hr
        have hspace := h.space (H := H)
        have hcome := h.come
        have hlen := congrArg List.length hnil
        have hpos := hgot t List.mem_cons_self
        rw [h.grow.room_eq, List.length_take, List.length_drop, List.length_nil] at hlen
        omega
      · obtain ⟨mem1, hwrite, hfill⟩ := h.grow.fill t.got
        rw [hwrite, Option.bind_some] at hr
        exact ih hfill (fun t ht => hgot t (List.mem_cons_of_mem _ ht)) hr

/-- What was read is a start of the stream, with a NUL behind it. -/
theorem readBuffer_ok (H : Heap) (stream : Str) (turns : List Turn) : ∃ r, readBuffer H stream turns = some r ∧
    ∀ mem total, r = .loaded mem total → mem.take (total + 1) = stream.take total ++ [0] ∧ total ≤ stream.length ∧
      total < bufMax ∧ ((∀ t ∈ turns, 0 < t.got) → total = stream.length ∨ total + 1 = bufMax) := by
  have h0 : Filling stream (H.fresh bufStart) 0 := by
    refine ⟨Nat.le_of_eq (H.size _).symm, ?_, ?_, rfl, Nat.zero_le _⟩
    · rw [H.size]
      decide
    · rw [H.size]
      decide
  obtain ⟨r, hr, hloaded⟩ := readLoop_ok (H := H) h0 turns
  unfold readBuffer
  rw [hr, Option.bind_some]
  cases r with
  | waiting => exact ⟨_, rfl, fun mem total h => by cases h⟩
  | noMemory => exact ⟨_, rfl, fun mem total h => by cases h⟩
  | loaded mem total =>
    have hfill := hloaded mem total rfl
    have hroom := hfill.room
    have hfits : total + ([0] : Str).length ≤ mem.length := hroom
    refine ⟨_, by dsimp only; rw [write_eq hfits, Option.map_some], fun mem' total' h => ?_⟩
    cases h
    refine ⟨?_, hfill.come, Nat.lt_of_lt_of_le hroom hfill.cap, fun hgot => readLoop_whole h0 turns hgot hr⟩
    rw [← hfill.held]
    exact written_take hfits

end Filling

/-! ## The answer in it -/

structure Answer where
  status : Int
  retryAfter : Int
  location : Str
  body : Option Str
  deriving DecidableEq

/-- Whether the value of a `Transfer-Encoding` has the word in it. -/
def namesChunked (te : Str) : Bool :=
  match strstr te (lit "\r\n") with
  | none => false
  | some eol => (te.take (te.length - eol.length)).tails.any fun p => lowerEq p (lit "chunked")

/-- What is made of the bytes read. -/
def parseAnswer (buf : Str) (timedOut tlsError : Bool) : Option Answer :=
  let text := buf.takeWhile (· ≠ 0)
  match strstr text (lit "\r\n\r\n"), statusOf text with
  | some headerEnd, some status =>
    let header := fun name => findHeader name headerEnd.length text
    let retryAfter := ((header (lit "Retry-After")).map atoi).getD 0
    let location := cut 1024 (((header (lit "Location")).map (before (lit "\r\n"))).getD [])
    let body := buf.drop (text.length - headerEnd.length + 4)
    if ((header (lit "Transfer-Encoding")).map namesChunked).getD false then
      (httpDechunk body).map fun r => ⟨status, retryAfter, location, some (r.1.take r.2)⟩
    else some ⟨status, retryAfter, location, some body⟩
  | _, _ => some ⟨if timedOut then errTimeout else if buf = [] && tlsError then errTls else errProto, 0, [], none⟩

/-- The status and the location are those of `readResponse`. -/
theorem parseAnswer_response (buf : Str) (timedOut tlsError : Bool) :
    (parseAnswer buf timedOut tlsError).map (fun a => (⟨a.status, a.location⟩ : Response)) =
      some (readResponse buf timedOut tlsError) := by
  unfold parseAnswer readResponse
  dsimp only
  cases strstr (buf.takeWhile (· ≠ 0)) (lit "\r\n\r\n") with
  | none => rfl
  | some headerEnd =>
    cases statusOf (buf.takeWhile (· ≠ 0)) with
    | none => rfl
    | some status =>
      dsimp only
      split
      · obtain ⟨mem, out, hrun, -⟩ := httpDechunk_eq (buf.drop ((buf.takeWhile (· ≠ 0)).length - headerEnd.length + 4))
        rw [hrun]
        rfl
      · rfl

/-! ## What a server sends -/

def blank (c : UInt8) : Bool := c = ch ' ' || c = ch '\t'

structure Header where
  name : Str
  value : Str
  nonempty : name ≠ []
  nameBytes : ∀ c ∈ name, c ≠ 0 ∧ c ≠ 13 ∧ c ≠ ch ':'
  valueBytes : ∀ c ∈ value, c ≠ 0 ∧ c ≠ 13 ∧ c ≠ 10

def Header.line (h : Header) : Str := lit "\r\n" ++ (h.name ++ (ch ':' :: h.value))

/-- The value without the blanks before it. -/
def Header.trimmed (h : Header) : Str := h.value.dropWhile blank

inductive Body where
  | plain (data : Str)
  | chunked (cs : List Chunk) (last : SizeLine 0) (tail : Str) (sizes : ∀ c ∈ cs, c.data.length < 2 ^ 64)

def Body.data : Body → Str
  | .plain data => data
  | .chunked cs .. => payload cs

def Body.wire : Body → Str
  | .plain data => data
  | .chunked cs last tail _ => encoding cs last tail

def Body.isChunked : Body → Bool
  | .plain _ => false
  | .chunked .. => true

/-- The value of the first header of that name. -/
def lookup (name : Str) (hs : List Header) : Option Str := (hs.find? fun h => strcaseeq h.name name).map Header.trimmed

/-- The word `chunked` in a value. -/
def hasChunked (value : Str) : Bool := value.tails.any fun p => lowerEq p (lit "chunked")

/-- A response; its `Transfer-Encoding` tells how its body is sent. -/
structure Reply where
  version : Str
  code : Nat
  reason : Str
  headers : List Header
  body : Body
  versioned : version ≠ []
  versionBytes : ∀ c ∈ version, c ≠ 0 ∧ isSpace c = false
  codeRange : code < 2 ^ 31
  reasonBytes : ∀ c ∈ reason, c ≠ 0 ∧ c ≠ 13
  reasonStart : isDigit (byte reason 0) = false
  framed : body.isChunked = ((lookup (lit "Transfer-Encoding") headers).map hasChunked).getD false

def Reply.statusLine (q : Reply) : Str := lit "HTTP/" ++ (q.version ++ (ch ' ' :: (decimal q.code ++ q.reason)))

/-- The status line and the headers, without the empty line. -/
def Reply.lines (q : Reply) : Str := q.statusLine ++ q.headers.flatMap Header.line

def Reply.head (q : Reply) : Str := q.lines ++ lit "\r\n\r\n"

def Reply.stream (q : Reply) : Str := q.head ++ q.body.wire

/-! ## Reading it back -/

theorem strstr_plain {a p : Str} (ha : ∀ c ∈ a, c ≠ 13) (t : Str) : strstr (a ++ t) (13 :: p) = strstr t (13 :: p) := by
  induction a with
  | nil => rfl
  | cons c a ih =>
    rw [List.cons_append, strstr, if_neg, ih fun d hd => ha d (List.mem_cons_of_mem _ hd)]
    intro hpre
    exact ha c List.mem_cons_self (List.cons_prefix_cons.mp (List.isPrefixOf_iff_prefix.mp hpre)).1.symm

theorem findHeader_plain (name : Str) {a : Str} {after : Nat} (ha : ∀ c ∈ a, c ≠ 13) {t : Str} (ht : after ≤ t.length) :
    findHeader name after (a ++ t) = findHeader name after t := by
  induction a with
  | nil => rfl
  | cons c a ih =>
    have hstart : startsWith (c :: (a ++ t)) (lit "\r\n") = false := by
      have hc : ¬ ((13 : UInt8) = c) := fun h => ha c List.mem_cons_self h.symm
      unfold startsWith
      rw [Bool.eq_false_iff]
      intro hpre
      exact hc (List.cons_prefix_cons.mp (List.isPrefixOf_iff_prefix.mp hpre)).1
    rw [List.cons_append, findHeader, if_neg]
    · simp only [hstart, Bool.false_and, Bool.false_eq_true, if_false]
      exact ih fun d hd => ha d (List.mem_cons_of_mem _ hd)
    · rw [List.length_cons, List.length_append]
      omega

/-- A field line has a CR at its start only. -/
theorem Header.field_plain (h : Header) : ∀ c ∈ h.name ++ (ch ':' :: h.value), c ≠ 13 := by
  intro c hc
  rcases List.mem_append.mp hc with hc | hc
  · exact (h.nameBytes c hc).2.1
  · rcases List.mem_cons.mp hc with rfl | hc
    · decide
    · exact (h.valueBytes c hc).2.1

theorem Header.line_nul (h : Header) : ∀ c ∈ h.line, c ≠ 0 := by
  intro c hc
  rcases List.mem_append.mp hc with hc | hc
  · exact forall_mem (P := fun c => c ≠ 0) (by decide) c hc
  rcases List.mem_append.mp hc with hc | hc
  · exact (h.nameBytes c hc).1
  · rcases List.mem_cons.mp hc with rfl | hc
    · decide
    · exact (h.valueBytes c hc).1

/-- The empty line is the first of its kind. -/
theorem strstr_fields (hs : List Header) (t : Str) :
    strstr (hs.flatMap Header.line ++ (lit "\r\n\r\n" ++ t)) (lit "\r\n\r\n") = some (lit "\r\n\r\n" ++ t) := by
  induction hs with
  | nil =>
    unfold strstr
    exact if_pos rfl
  | cons h hs ih =>
    obtain ⟨c, name, hname⟩ := List.exists_cons_of_ne_nil h.nonempty
    have hc : c ≠ 13 := (h.nameBytes c (by rw [hname]; exact List.mem_cons_self)).2.1
    rw [List.flatMap_cons, List.append_assoc, Header.line, List.append_assoc]
    -- neither the CR nor the LF of the field starts an empty line
    have hcr : ∀ u : Str, strstr (lit "\r\n" ++ (c :: u)) (lit "\r\n\r\n") = strstr (c :: u) (lit "\r\n\r\n") := by
      intro u
      have h1 : (lit "\r\n\r\n").isPrefixOf (13 :: 10 :: c :: u) = false := by
        have hne : ((13 : UInt8) == c) = false := by simpa using fun h => hc h.symm
        change (true && (true && ((13 : UInt8) == c && _))) = false
        rw [hne]
        rfl
      change strstr (13 :: 10 :: c :: u) (lit "\r\n\r\n") = _
      rw [strstr, h1, if_neg Bool.false_ne_true, strstr, if_neg]
      exact fun h => Bool.false_ne_true h
    have hplain := strstr_plain (p := [10, 13, 10]) h.field_plain (hs.flatMap Header.line ++ (lit "\r\n\r\n" ++ t))
    rw [hname] at hplain ⊢
    exact (hcr _).trans (hplain.trans ih)

theorem Reply.statusLine_plain (q : Reply) : ∀ c ∈ q.statusLine, c ≠ 0 ∧ c ≠ 13 := by
  intro c hc
  rcases List.mem_append.mp hc with hc | hc
  · exact forall_mem (P := fun c => c ≠ 0 ∧ c ≠ 13) (by decide) c hc
  rcases List.mem_append.mp hc with hc | hc
  · obtain ⟨hnul, hspace⟩ := q.versionBytes c hc
    refine ⟨hnul, fun h => ?_⟩
    rw [h] at hspace
    exact absurd hspace (by decide)
  rcases List.mem_cons.mp hc with rfl | hc
  · decide
  rcases List.mem_append.mp hc with hc | hc
  · have hdigit := decimalAux_digits _ _ c hc
    constructor
    · rintro rfl
      exact absurd hdigit (by decide)
    · rintro rfl
      exact absurd hdigit (by decide)
  · exact q.reasonBytes c hc

theorem Reply.strstr_head (q : Reply) (t : Str) :
    strstr (q.head ++ t) (lit "\r\n\r\n") = some (lit "\r\n\r\n" ++ t) := by
  rw [Reply.head, Reply.lines, List.append_assoc, List.append_assoc]
  exact (strstr_plain (p := [10, 13, 10]) (fun c hc => (q.statusLine_plain c hc).2) _).trans (strstr_fields q.headers t)

theorem Reply.head_nul (q : Reply) : ∀ c ∈ q.head, c ≠ 0 := by
  intro c hc
  rcases List.mem_append.mp hc with hc | hc
  · rcases List.mem_append.mp hc with hc | hc
    · exact (q.statusLine_plain c hc).1
    · obtain ⟨h, -, hc⟩ := List.mem_flatMap.mp hc
      exact h.line_nul c hc
  · exact forall_mem (P := fun c => c ≠ 0) (by decide) c hc

/-- A text in which what is found ends is at least as long as up to its end. -/
theorem strstr_first {s p t pre : Str} (h : strstr s p = some t) (hpre : pre <+: s) (hin : p <:+: pre) :
    s.length + p.length ≤ pre.length + t.length := by
  obtain ⟨a, b, rfl⟩ := hin
  induction a generalizing s with
  | nil =>
    obtain ⟨u, rfl⟩ := hpre
    have hp : p.isPrefixOf (([] ++ p ++ b) ++ u) = true :=
      List.isPrefixOf_iff_prefix.mpr (by rw [List.nil_append, List.append_assoc]; exact List.prefix_append _ _)
    unfold strstr at h
    rw [if_pos hp] at h
    cases h
    simp only [List.length_append]
    omega
  | cons c a ih =>
    obtain ⟨u, rfl⟩ := hpre
    rw [List.cons_append, List.cons_append, List.cons_append] at h ⊢
    unfold strstr at h
    split at h
    · cases h
      simp only [List.length_cons, List.length_append]
      omega
    · have := ih h (List.prefix_append _ _)
      simp only [List.length_cons, List.length_append] at this ⊢
      omega

/-- The digits of a number, as `strtol` adds them up. -/
theorem foldl_digitVal (ds : Str) (hds : ∀ c ∈ ds, isDigit c = true) (n : Nat) :
    ds.foldl (fun n c => 10 * n + digitVal c) (n : Int) = (ds.foldl (fun n c => 10 * n + (c.toNat - 48)) n : Nat) := by
  induction ds generalizing n with
  | nil => rfl
  | cons c ds ih =>
    have hc : 48 ≤ c.toNat := by
      have := hds c List.mem_cons_self
      rw [isDigit, Bool.and_eq_true, decide_eq_true_eq, UInt8.le_iff_toNat_le] at this
      exact this.1
    have hstep : 10 * (n : Int) + digitVal c = ((10 * n + (c.toNat - 48) : Nat) : Int) := by
      unfold digitVal
      omega
    rw [List.foldl_cons, List.foldl_cons, hstep]
    exact ih (fun c hc => hds c (List.mem_cons_of_mem _ hc)) _

/-- A number and what ends it. -/
theorem strtol_decimal (n : Nat) {t : Str} (ht : isDigit (byte t 0) = false) : strtol (decimal n ++ t) = some ((n : Int), t) := by
  obtain ⟨c, ds, hds⟩ := List.exists_cons_of_ne_nil (decimal_ne_nil n)
  have hdigit : ∀ c ∈ decimal n, isDigit c = true := decimalAux_digits _ _
  have hc : isDigit c = true := hdigit c (by rw [hds]; exact List.mem_cons_self)
  have hplain : isSpace c = false ∧ c ≠ ch '-' ∧ c ≠ ch '+' := by
    have hall := forall_byte (P := fun c => isDigit c = true → isSpace c = false ∧ c ≠ ch '-' ∧ c ≠ ch '+') (by decide +kernel)
    exact hall c hc
  have hfirst : byte (decimal n ++ t) 0 = c := by rw [hds]; rfl
  have hskip : (decimal n ++ t).dropWhile isSpace = decimal n ++ t := by
    rw [hds, List.cons_append, List.dropWhile_cons_of_neg (by simp [hplain.1])]
  obtain ⟨htake, hdrop⟩ := JsonText.takeWhile_decimal n ht
  have hval : (decimal n).foldl (fun n c => 10 * n + digitVal c) (0 : Int) = n :=
    (foldl_digitVal _ hdigit 0).trans (congrArg Nat.cast (JsonText.natVal_decimalAux n n (Nat.le_refl n)))
  unfold strtol
  simp only [hskip, hfirst, hplain.2.1, hplain.2.2, or_self, if_false, htake, hdrop, hval, decimal_ne_nil]

theorem Reply.status_head (q : Reply) (t : Str) : statusOf (q.head ++ t) = some (q.code : Int) := by
  set rest := q.headers.flatMap Header.line ++ (lit "\r\n\r\n" ++ t) with hrest
  have hhead : q.head ++ t = lit "HTTP/" ++ (q.version ++ (ch ' ' :: (decimal q.code ++ (q.reason ++ rest)))) := by
    simp only [Reply.head, Reply.lines, Reply.statusLine, List.append_assoc, List.cons_append, hrest]
  obtain ⟨c, v, hv⟩ := List.exists_cons_of_ne_nil q.versioned
  have hspace : ∀ c ∈ q.version, isSpace c = false := fun c hc => (q.versionBytes c hc).2
  have hstart : ∀ u : Str, (q.version ++ u).dropWhile isSpace = q.version ++ u := by
    intro u
    rw [hv, List.cons_append, List.dropWhile_cons_of_neg]
    rw [hspace c (by rw [hv]; exact List.mem_cons_self)]
    exact Bool.false_ne_true
  have hend : ∀ u : Str, (q.version ++ (ch ' ' :: u)).dropWhile (!isSpace ·) = ch ' ' :: u := by
    intro u
    rw [List.dropWhile_append_of_pos fun c hc => by rw [hspace c hc]; rfl]
    rfl
  have hbreak : isDigit (byte (q.reason ++ rest) 0) = false := by
    have hreason := q.reasonStart
    cases hr : q.reason with
    | cons d r =>
      rw [hr] at hreason
      exact hreason
    | nil =>
      rw [hrest]
      cases q.headers with
      | nil => rfl
      | cons h hs => rfl
  unfold statusOf
  rw [hhead, if_pos (by rfl)]
  dsimp only
  rw [show (lit "HTTP/" ++ (q.version ++ (ch ' ' :: (decimal q.code ++ (q.reason ++ rest))))).drop 5 =
    q.version ++ (ch ' ' :: (decimal q.code ++ (q.reason ++ rest))) from rfl, hstart, if_neg (by rw [hv]; exact List.cons_ne_nil _ _),
    hend]
  have hblank : strtol (ch ' ' :: (decimal q.code ++ (q.reason ++ rest))) = strtol (decimal q.code ++ (q.reason ++ rest)) := by
    unfold strtol
    rw [List.dropWhile_cons_of_pos (by rfl)]
  have hint : intMin ≤ (q.code : Int) ∧ (q.code : Int) ≤ intMax := by
    have := q.codeRange
    unfold intMin intMax
    omega
  rw [hblank, strtol_decimal q.code hbreak]
  exact congrArg some (longAsInt_eq hint)

theorem strcaseeq_length {a b : Str} (h : strcaseeq a b = true) : a.length = b.length := by
  unfold strcaseeq at h
  have := congrArg List.length (beq_iff_eq.mp h)
  rwa [List.length_map, List.length_map] at this

/-- Whether a header has the name looked for. -/
theorem Header.matches_name (h : Header) {name : Str} (hname : ch ':' ∉ name) (t : Str) :
    (lowerEq (h.name ++ (ch ':' :: t)) name && decide (byte (h.name ++ (ch ':' :: t)) name.length = ch ':')) =
      strcaseeq h.name name := by
  rw [Bool.eq_iff_iff, Bool.and_eq_true, decide_eq_true_eq, lowerEq]
  constructor
  · rintro ⟨heq, hcolon⟩
    rcases Nat.lt_trichotomy name.length h.name.length with hlt | hlen | hgt
    · exfalso
      unfold byte at hcolon
      rw [List.getD_eq_getElem?_getD, List.getElem?_append_left hlt, List.getElem?_eq_getElem hlt, Option.getD_some] at hcolon
      exact (h.nameBytes _ (List.getElem_mem hlt)).2.2 hcolon
    · rwa [hlen, List.take_left] at heq
    · -- the colon would be in the name looked for
      exfalso
      have hin : ch ':' ∈ (h.name ++ (ch ':' :: t)).take name.length := by
        rw [List.take_append, List.take_cons (by omega)]
        exact List.mem_append_right _ List.mem_cons_self
      unfold strcaseeq at heq
      have hlower := List.mem_map_of_mem (f := toLower) hin
      rw [beq_iff_eq.mp heq] at hlower
      obtain ⟨d, hd, hcol⟩ := List.mem_map.mp hlower
      have hall := forall_byte (P := fun d => toLower d = ch ':' → d = ch ':') (by decide +kernel)
      rw [hall d hcol] at hd
      exact hname hd
  · intro heq
    have hlen := strcaseeq_length heq
    rw [← hlen, List.take_left]
    refine ⟨heq, ?_⟩
    unfold byte
    rw [List.getD_eq_getElem?_getD, List.getElem?_append_right (Nat.le_refl _), Nat.sub_self]
    rfl

theorem Header.trimmed_append (h : Header) (rest : Str) :
    (h.value ++ (lit "\r\n" ++ rest)).dropWhile (fun b => b = ch ' ' || b = ch '\t') = h.trimmed ++ (lit "\r\n" ++ rest) := by
  have hstop : (lit "\r\n" ++ rest).dropWhile (fun b => b = ch ' ' || b = ch '\t') = lit "\r\n" ++ rest := rfl
  rw [List.dropWhile_append, hstop]
  split
  · rename_i hnil
    rw [show h.trimmed = [] from List.isEmpty_iff.mp hnil, List.nil_append]
  · rfl

theorem Header.trimmed_plain (h : Header) : ∀ c ∈ h.trimmed, c ≠ 13 ∧ c ≠ 10 := by
  intro c hc
  exact (h.valueBytes c ((List.dropWhile_sublist _).subset hc)).2

/-- The first header of that name, or none. -/
theorem findHeader_fields {name : Str} (hname : ch ':' ∉ name) (hs : List Header) (t : Str) :
    (lookup name hs = none ∧ findHeader name (lit "\r\n\r\n" ++ t).length (hs.flatMap Header.line ++ (lit "\r\n\r\n" ++ t)) = none) ∨
    ∃ v rest, lookup name hs = some v ∧ (∀ c ∈ v, c ≠ 13 ∧ c ≠ 10) ∧
      findHeader name (lit "\r\n\r\n" ++ t).length (hs.flatMap Header.line ++ (lit "\r\n\r\n" ++ t)) =
        some (v ++ (lit "\r\n" ++ rest)) := by
  induction hs with
  | nil => exact .inl ⟨rfl, if_pos (Nat.le_refl _)⟩
  | cons h hs ih =>
    set more := hs.flatMap Header.line ++ (lit "\r\n\r\n" ++ t) with hmore
    have hlen : (lit "\r\n\r\n" ++ t).length ≤ more.length := by
      rw [hmore]
      exact (List.suffix_append _ _).length_le
    have hline : (h :: hs).flatMap Header.line ++ (lit "\r\n\r\n" ++ t) =
        13 :: 10 :: ((h.name ++ (ch ':' :: h.value)) ++ more) := by
      rw [List.flatMap_cons, Header.line, List.append_assoc, List.append_assoc]
      rfl
    have hshape : (h.name ++ (ch ':' :: h.value)) ++ more = h.name ++ (ch ':' :: (h.value ++ more)) := by
      rw [List.append_assoc, List.cons_append]
    obtain ⟨rest, hrest⟩ : ∃ rest, more = lit "\r\n" ++ rest := by
      rw [hmore]
      cases hs with
      | nil => exact ⟨lit "\r\n" ++ t, rfl⟩
      | cons h' hs => exact ⟨_, by rw [List.flatMap_cons, Header.line, List.append_assoc, List.append_assoc]⟩
    have hover : ¬ (13 :: 10 :: ((h.name ++ (ch ':' :: h.value)) ++ more)).length ≤ (lit "\r\n\r\n" ++ t).length := by
      rw [List.length_cons, List.length_cons, List.length_append]
      omega
    have hstart : startsWith (13 :: 10 :: (h.name ++ (ch ':' :: (h.value ++ more)))) (lit "\r\n") = true := rfl
    rw [hline, findHeader, if_neg hover, List.drop_succ_cons, List.drop_zero, hshape]
    simp only [hstart, Bool.true_and, h.matches_name hname]
    by_cases heq : strcaseeq h.name name = true
    · rw [if_pos heq]
      refine .inr ⟨h.trimmed, rest, ?_, h.trimmed_plain, ?_⟩
      · unfold lookup
        rw [List.find?_cons_of_pos (by exact heq)]
        rfl
      · have hcolon : (h.name ++ (ch ':' :: (h.value ++ more))).drop (name.length + 1) = h.value ++ more := by
          rw [← strcaseeq_length heq, List.append_cons]
          apply List.drop_left'
          rw [List.length_append]
          rfl
        rw [hcolon, hrest]
        exact congrArg some (h.trimmed_append rest)
    · rw [if_neg heq]
      have hskip := findHeader_plain name (a := 10 :: (h.name ++ (ch ':' :: h.value))) (t := more) ?_ hlen
      · rw [List.cons_append, hshape] at hskip
        rw [hskip]
        have hlook : lookup name (h :: hs) = lookup name hs := by
          unfold lookup
          rw [List.find?_cons_of_neg (by exact heq)]
        rw [hlook]
        exact ih
      · intro c hc
        rcases List.mem_cons.mp hc with rfl | hc
        · decide
        · exact h.field_plain c hc

theorem Reply.findHeader_head (q : Reply) (name : Str) (hname : ch ':' ∉ name) (t : Str) :
    (lookup name q.headers = none ∧ findHeader name (lit "\r\n\r\n" ++ t).length (q.head ++ t) = none) ∨
    ∃ v rest, lookup name q.headers = some v ∧ (∀ c ∈ v, c ≠ 13 ∧ c ≠ 10) ∧
      findHeader name (lit "\r\n\r\n" ++ t).length (q.head ++ t) = some (v ++ (lit "\r\n" ++ rest)) := by
  rw [Reply.head, Reply.lines, List.append_assoc, List.append_assoc,
    findHeader_plain name (fun c hc => (q.statusLine_plain c hc).2)]
  · exact findHeader_fields hname q.headers t
  · exact (List.suffix_append _ _).length_le

/-- The line break that ends a value. -/
theorem strstr_value {v : Str} (hv : ∀ c ∈ v, c ≠ 13 ∧ c ≠ 10) (rest : Str) :
    strstr (v ++ (lit "\r\n" ++ rest)) (lit "\r\n") = some (lit "\r\n" ++ rest) := by
  refine (strstr_plain (p := [10]) (fun c hc => (hv c hc).1) _).trans ?_
  unfold strstr
  exact if_pos rfl

theorem namesChunked_value {v : Str} (hv : ∀ c ∈ v, c ≠ 13 ∧ c ≠ 10) (rest : Str) :
    namesChunked (v ++ (lit "\r\n" ++ rest)) = hasChunked v := by
  unfold namesChunked
  rw [strstr_value hv]
  dsimp only
  rw [List.length_append, Nat.add_sub_cancel, List.take_left]
  rfl

theorem before_value {v : Str} (hv : ∀ c ∈ v, c ≠ 13 ∧ c ≠ 10) (rest : Str) :
    before (lit "\r\n") (v ++ (lit "\r\n" ++ rest)) = v := by
  have hplain : ∀ c ∈ v, (lit "\r\n").contains c = false := by
    intro c hc
    obtain ⟨hcr, hlf⟩ := hv c hc
    rw [Bool.eq_false_iff]
    intro hin
    rcases List.mem_cons.mp (List.contains_iff_mem.mp hin) with h | h
    · exact hcr h
    · exact hlf (List.mem_singleton.mp h)
  change before (lit "\r\n") _ = v
  rw [before_append hplain]
  exact List.append_nil v

/-- A number an `int` holds. -/
theorem atoi_decimal {n : Nat} (hn : n < 2 ^ 31) (rest : Str) : atoi (decimal n ++ (lit "\r\n" ++ rest)) = n := by
  have hint : intMin ≤ (n : Int) ∧ (n : Int) ≤ intMax := by
    unfold intMin intMax
    omega
  unfold atoi
  rw [strtol_decimal n (by rfl)]
  exact longAsInt_eq hint

/-- What the answer is, from the headers of a reply. -/
structure Reads (q : Reply) (a : Answer) : Prop where
  status : a.status = q.code
  location : a.location = cut 1024 ((lookup (lit "Location") q.headers).getD [])
  retryAfter : ∀ n < 2 ^ 31, lookup (lit "Retry-After") q.headers = some (decimal n) → a.retryAfter = n
  noRetry : lookup (lit "Retry-After") q.headers = none → a.retryAfter = 0

section Headers

variable (q : Reply) (t : Str)

theorem Reply.location_head : ((findHeader (lit "Location") (lit "\r\n\r\n" ++ t).length (q.head ++ t)).map (before (lit "\r\n"))).getD [] =
    (lookup (lit "Location") q.headers).getD [] := by
  rcases q.findHeader_head (lit "Location") (by decide) t with ⟨hnone, hfind⟩ | ⟨v, rest, hsome, hv, hfind⟩
  · rw [hnone, hfind]
    rfl
  · rw [hsome, hfind]
    exact before_value hv rest

theorem Reply.chunked_head :
    ((findHeader (lit "Transfer-Encoding") (lit "\r\n\r\n" ++ t).length (q.head ++ t)).map namesChunked).getD false =
      q.body.isChunked := by
  rw [q.framed]
  rcases q.findHeader_head (lit "Transfer-Encoding") (by decide) t with ⟨hnone, hfind⟩ | ⟨v, rest, hsome, hv, hfind⟩
  · rw [hnone, hfind]
    rfl
  · rw [hsome, hfind]
    exact namesChunked_value hv rest

/-- The number of seconds, from a header that is one. -/
theorem Reply.retry_head {n : Nat} (hn : n < 2 ^ 31) (h : lookup (lit "Retry-After") q.headers = some (decimal n)) :
    ((findHeader (lit "Retry-After") (lit "\r\n\r\n" ++ t).length (q.head ++ t)).map atoi).getD 0 = n := by
  rcases q.findHeader_head (lit "Retry-After") (by decide) t with ⟨hnone, -⟩ | ⟨v, rest, hsome, -, hfind⟩
  · rw [hnone] at h
    cases h
  · rw [h] at hsome
    cases hsome
    rw [hfind]
    exact atoi_decimal hn rest

theorem Reply.noRetry_head (h : lookup (lit "Retry-After") q.headers = none) :
    ((findHeader (lit "Retry-After") (lit "\r\n\r\n" ++ t).length (q.head ++ t)).map atoi).getD 0 = 0 := by
  rcases q.findHeader_head (lit "Retry-After") (by decide) t with ⟨-, hfind⟩ | ⟨v, rest, hsome, -, -⟩
  · rw [hfind]
    rfl
  · rw [h] at hsome
    cases hsome

end Headers

/-- What `do_request` keeps of a body that is sent in chunks, or as it is. -/
theorem Body.read (b : Body) {came : Str} (hcame : came <+: b.wire) :
    if b.isChunked then ∃ mem out, httpDechunk came = some (mem, out) ∧ mem.take out <+: b.data ∧ (came = b.wire → mem.take out = b.data)
    else came <+: b.data ∧ (came = b.wire → came = b.data) := by
  cases b with
  | plain data => exact ⟨hcame, id⟩
  | chunked cs last tail sizes =>
    obtain ⟨mem, out, hrun, -, hle, htext, hout⟩ := httpDechunk_eq came
    have htake : mem.take out = dechunk came.length came := by
      have := congrArg (List.take out) htext
      rw [List.take_take, Nat.min_eq_left (Nat.le_succ out), hout, List.take_left, ← hout] at this
      exact this
    refine ⟨mem, out, hrun, ?_, ?_⟩
    · rw [htake]
      exact dechunk_prefix sizes last tail _ hcame
    · rintro rfl
      rw [htake]
      exact dechunk_encoding sizes last tail (Nat.le_refl _)

/-- A body as far as it came. -/
theorem Reply.parseAnswer_head (q : Reply) {came : Str} (hcame : came <+: q.body.wire) (timedOut tlsError : Bool) :
    ∃ a, parseAnswer (q.head ++ came) timedOut tlsError = some a ∧ Reads q a ∧
      ∃ body, a.body = some body ∧ body <+: q.body.data ∧ (came = q.body.wire → body = q.body.data) := by
  have htext : (q.head ++ came).takeWhile (· ≠ 0) = q.head ++ came.takeWhile (· ≠ 0) :=
    List.takeWhile_append_of_pos fun c hc => by simpa using q.head_nul c hc
  have hbody : (q.head ++ came).drop
      ((q.head ++ came.takeWhile (· ≠ 0)).length - (lit "\r\n\r\n" ++ came.takeWhile (· ≠ 0)).length + 4) = came := by
    apply List.drop_left'
    have hfour : (lit "\r\n\r\n").length = 4 := rfl
    simp only [Reply.head, List.length_append, hfour]
    omega
  unfold parseAnswer
  simp only [htext, q.strstr_head, q.status_head, q.chunked_head, q.location_head, hbody]
  have hread := q.body.read hcame
  split at hread
  · rename_i hchunked
    obtain ⟨mem, out, hrun, hpre, hwhole⟩ := hread
    rw [if_pos hchunked, hrun]
    exact ⟨_, rfl, ⟨rfl, rfl, fun n hn h => q.retry_head _ hn h, fun hn => q.noRetry_head _ hn⟩, _, rfl, hpre, hwhole⟩
  · rename_i hplain
    rw [if_neg hplain]
    exact ⟨_, rfl, ⟨rfl, rfl, fun n hn h => q.retry_head _ hn h, fun hn => q.noRetry_head _ hn⟩, _, rfl, hread.1, hread.2⟩

/-- Before the end of the headers there is no answer. -/
theorem Reply.parseAnswer_short (q : Reply) {pre : Str} (hpre : pre <+: q.head) (hshort : pre.length < q.head.length)
    (timedOut tlsError : Bool) : ∃ a, parseAnswer pre timedOut tlsError = some a ∧ a.status < 0 ∧ a.body = none := by
  have htext : pre.takeWhile (· ≠ 0) = pre :=
    List.takeWhile_eq_self_iff.mpr fun c hc => by simpa using q.head_nul c (hpre.subset hc)
  have hfind : strstr pre (lit "\r\n\r\n") = none := by
    by_contra hne
    have hin := strstr_isSome.mp (Option.ne_none_iff_isSome.mp hne)
    have hhead := q.strstr_head []
    rw [List.append_nil, List.append_nil] at hhead
    have := strstr_first hhead hpre hin
    omega
  unfold parseAnswer
  simp only [htext, hfind]
  refine ⟨_, rfl, ?_, rfl⟩
  dsimp only
  split
  · decide
  · split <;> decide

/-- However a response is cut into reads and wherever the connection ends it, the reading stays in its buffer.
    Before the end of the headers the answer is an error; from there on it has the status and the headers, and
    as much of the body as came: all of it when the connection did not end before and the buffer is not full. -/
theorem answer_read (q : Reply) (H : Heap) (turns : List Turn) (timedOut tlsError : Bool) :
    ∃ r, readBuffer H q.stream turns = some r ∧ ∀ mem total, r = .loaded mem total →
      ∃ a, parseAnswer (mem.take total) timedOut tlsError = some a ∧
        (total < q.head.length → a.status < 0 ∧ a.body = none) ∧
        (q.head.length ≤ total → Reads q a ∧ ∃ body, a.body = some body ∧ body <+: q.body.data) ∧
        ((∀ t ∈ turns, 0 < t.got) → q.stream.length < bufMax → Reads q a ∧ a.body = some q.body.data) := by
  obtain ⟨r, hr, hloaded⟩ := readBuffer_ok H q.stream turns
  refine ⟨r, hr, fun mem total hmem => ?_⟩
  obtain ⟨hheld, hcome, hmax, hend⟩ := hloaded mem total hmem
  have hbuf : mem.take total = q.stream.take total := by
    have := congrArg (List.take total) hheld
    rw [List.take_take, Nat.min_eq_left (Nat.le_succ total), List.take_left' (List.length_take_of_le hcome)] at this
    exact this
  rw [hbuf]
  have hwhole : (∀ t ∈ turns, 0 < t.got) → q.stream.length < bufMax → total = q.stream.length := by
    intro hgot hfits
    rcases hend hgot with h | h
    · exact h
    · omega
  have hlen : q.stream.length = q.head.length + q.body.wire.length := List.length_append
  by_cases hshort : total < q.head.length
  · have htake : q.stream.take total = q.head.take total := List.take_append_of_le_length (Nat.le_of_lt hshort)
    rw [htake]
    obtain ⟨a, ha, herror⟩ := q.parseAnswer_short (List.take_prefix total q.head)
      (by rw [List.length_take]; omega) timedOut tlsError
    refine ⟨a, ha, fun _ => herror, fun hle => absurd hshort (by omega), fun hgot hfits => ?_⟩
    have := hwhole hgot hfits
    omega
  · have htake : q.stream.take total = q.head ++ q.body.wire.take (total - q.head.length) := by
      rw [Reply.stream, List.take_append, List.take_of_length_le (by omega)]
    rw [htake]
    obtain ⟨a, ha, hreads, body, hbody, hpre, hall⟩ := q.parseAnswer_head (List.take_prefix (total - q.head.length) q.body.wire)
      timedOut tlsError
    refine ⟨a, ha, fun h => absurd h hshort, fun _ => ⟨hreads, body, hbody, hpre⟩, fun hgot hfits => ⟨hreads, ?_⟩⟩
    have htotal := hwhole hgot hfits
    rw [hbody, hall (List.take_of_length_le (by omega))]

/-- A `503` with its body in chunks. -/
def busy : Reply where
  version := lit "1.1"
  code := 503
  reason := lit " Busy"
  headers := [⟨lit "retry-after", lit " 17", by decide, forall_mem (by decide), forall_mem (by decide)⟩,
    ⟨lit "Transfer-Encoding", lit " gzip, Chunked", by decide, forall_mem (by decide), forall_mem (by decide)⟩]
  body := .chunked wikipedia zeroSize (lit "\r\n") (by decide)
  versioned := by decide
  versionBytes := forall_mem (by decide)
  codeRange := by decide
  reasonBytes := forall_mem (by decide)
  reasonStart := by decide
  framed := by decide +kernel

/-- Read five bytes at a time. -/
theorem answer_read_busy (H : Heap) : ∃ r, readBuffer H busy.stream (List.replicate 40 ⟨true, 5⟩) = some r ∧
    ∀ mem total, r = .loaded mem total → ∃ a, parseAnswer (mem.take total) false false = some a ∧ a.retryAfter = 17 ∧
      a.body = some (lit "Wikipedia") := by
  obtain ⟨r, hr, hload⟩ := answer_read busy H (List.replicate 40 ⟨true, 5⟩) false false
  refine ⟨r, hr, fun mem total hmem => ?_⟩
  obtain ⟨a, ha, -, -, hwhole⟩ := hload mem total hmem
  obtain ⟨hreads, hbody⟩ := hwhole (fun t ht => by rw [List.eq_of_mem_replicate ht]; decide) (by decide +kernel)
  exact ⟨a, ha, hreads.retryAfter 17 (by decide) (by decide +kernel), hbody⟩

end Shclaw.Http
