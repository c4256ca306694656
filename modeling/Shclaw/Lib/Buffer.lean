/-
  Shclaw.Lib.Buffer — text appended to a buffer of fixed size.

  `appendf` is one call, `appends` a sequence of them: what is in the buffer is the text
  as far as the buffer holds it, however it was cut into calls (`appends_eq`).
-/

import Shclaw.Lib.CString

namespace Shclaw.Lib

/-- One call: what is in a buffer of `sz` bytes, before its NUL. -/
def appendf (sz : Nat) (buf text : Str) : Str :=
  if sz = 0 ∨ sz - 1 ≤ buf.length then buf else (buf ++ text).take (sz - 1)

def appends (sz : Nat) (texts : List Str) : Str := texts.foldl (appendf sz) []

theorem appendf_eq {sz : Nat} {buf : Str} (h : buf.length ≤ sz - 1) (text : Str) :
    appendf sz buf text = (buf ++ text).take (sz - 1) := by
  unfold appendf
  split
  · rw [List.take_append_of_le_length (by omega), List.take_of_length_le h]
  · rfl

theorem appendf_fit {sz : Nat} {buf text : Str} (h : (buf ++ text).length < sz) : appendf sz buf text = buf ++ text := by
  have hbuf : buf.length ≤ sz - 1 := by
    rw [List.length_append] at h
    omega
  rw [appendf_eq hbuf, List.take_of_length_le (by omega)]

theorem length_appendf {sz : Nat} {buf : Str} (h : buf.length ≤ sz - 1) (text : Str) :
    (appendf sz buf text).length ≤ sz - 1 := by
  rw [appendf_eq h]
  exact List.length_take_le _ _

theorem foldl_appendf {sz : Nat} {buf : Str} (h : buf.length ≤ sz - 1) (texts : List Str) :
    texts.foldl (appendf sz) buf = (buf ++ texts.flatten).take (sz - 1) := by
  induction texts generalizing buf with
  | nil => rw [List.foldl_nil, List.flatten_nil, List.append_nil, List.take_of_length_le h]
  | cons text texts ih =>
    rw [List.foldl_cons, ih (length_appendf h text), appendf_eq h, List.flatten_cons, ← List.append_assoc]
    by_cases hfull : sz - 1 ≤ (buf ++ text).length
    · have hlen : ((buf ++ text).take (sz - 1)).length = sz - 1 := List.length_take_of_le hfull
      rw [List.take_append_of_le_length (by omega), List.take_append_of_le_length hfull, List.take_take, Nat.min_self]
    · rw [List.take_of_length_le (l := buf ++ text) (by omega)]

/-- The buffer holds the start of the text. -/
theorem appends_eq (sz : Nat) (texts : List Str) : appends sz texts = texts.flatten.take (sz - 1) := by
  rw [appends, foldl_appendf (Nat.zero_le _), List.nil_append]

end Shclaw.Lib
