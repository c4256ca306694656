/-
  Shclaw.Lib.Runs — guarded transition systems and their runs.

  A system has one initial state and a step function that is `none` where an event is
  not enabled. `Reach M ok s`: a run of `M` ends in `s` and every one of its steps met
  `ok` in the state it was taken in. `fun _ _ => True` is every run.
-/

import Mathlib.Logic.Basic

namespace Shclaw.Lib

structure System (σ ε : Type) where
  init : σ
  step : σ → ε → Option σ

namespace System

variable {σ ε : Type} (M : System σ ε)

inductive Reach (ok : σ → ε → Prop) : σ → Prop
  | init : Reach ok M.init
  | step {s s' : σ} (e : ε) : Reach ok s → ok s e → M.step s e = some s' → Reach ok s'

/-- Replay of a list of events; `none` if one of them is not enabled or does not meet `ok`. -/
def replay (ok : σ → ε → Prop) [∀ s e, Decidable (ok s e)] (s : σ) : List ε → Option σ
  | [] => some s
  | e :: es => if ok s e then (M.step s e).bind fun s' => replay ok s' es else none

variable {M} {ok : σ → ε → Prop}

/-- What holds initially and is kept by every step that meets `ok` holds in every
    state such a run reaches. -/
theorem Reach.invariant {I : σ → Prop} (h0 : I M.init)
    (hstep : ∀ s e s', I s → ok s e → M.step s e = some s' → I s') {s : σ} (h : M.Reach ok s) : I s := by
  induction h with
  | init => exact h0
  | step e _ hok hs ih => exact hstep _ e _ ih hok hs

/-- `I` may rest on another invariant `J` of the same runs. -/
theorem Reach.invariant_of {I J : σ → Prop} (hJ : ∀ s, M.Reach ok s → J s) (h0 : I M.init)
    (hstep : ∀ s e s', J s → I s → ok s e → M.step s e = some s' → I s') {s : σ} (h : M.Reach ok s) : I s := by
  induction h with
  | init => exact h0
  | step e hr hok hs ih => exact hstep _ e _ (hJ _ hr) ih hok hs

theorem Reach.mono {ok' : σ → ε → Prop} (h : ∀ s e, ok s e → ok' s e) {s : σ} (hr : M.Reach ok s) :
    M.Reach ok' s := by
  induction hr with
  | init => exact .init
  | step e _ hok hs ih => exact .step e ih (h _ _ hok) hs

/-- A replay from a reached state ends in one. -/
theorem Reach.replay [∀ s e, Decidable (ok s e)] {es : List ε} :
    ∀ {s t : σ}, M.Reach ok s → M.replay ok s es = some t → M.Reach ok t := by
  induction es with
  | nil =>
    intro s t hs h
    simp only [System.replay, Option.some.injEq] at h
    exact h ▸ hs
  | cons e es ih =>
    intro s t hs h
    simp only [System.replay] at h
    split at h
    · rename_i hok
      obtain ⟨s1, h1, h2⟩ := Option.bind_eq_some_iff.mp h
      exact ih (.step e hs hok h1) h2
    · cases h

end System

end Shclaw.Lib
