/-
  Shclaw.Lib.Transducer — machines that read one input at a time and write outputs.

  A run over `xs ++ ys` is the run over `xs` and the run over `ys` from where that one
  ended (`run_append`). Where the state has no say in how much is written (`Even`), two
  inputs with the same end write the same exactly when they write the same up to that
  end, and the end writes the same from both states (`run_append_inj`).
-/

import Mathlib.Data.List.Basic

namespace Shclaw.Lib

structure Transducer (σ ι ο : Type) where
  step : σ → ι → List ο × σ

namespace Transducer

variable {σ ι ο : Type} (m : Transducer σ ι ο)

/-- What is written, and the state at the end. -/
def run (s : σ) : List ι → List ο × σ
  | [] => ([], s)
  | x :: xs => ((m.step s x).1 ++ (run (m.step s x).2 xs).1, (run (m.step s x).2 xs).2)

@[simp] theorem run_nil (s : σ) : m.run s [] = ([], s) := rfl

@[simp] theorem run_cons (s : σ) (x : ι) (xs : List ι) :
    m.run s (x :: xs) = ((m.step s x).1 ++ (m.run (m.step s x).2 xs).1, (m.run (m.step s x).2 xs).2) := rfl

theorem run_append (s : σ) (xs ys : List ι) :
    m.run s (xs ++ ys) = ((m.run s xs).1 ++ (m.run (m.run s xs).2 ys).1, (m.run (m.run s xs).2 ys).2) := by
  induction xs generalizing s with
  | nil => simp
  | cons x xs ih => simp [ih]

/-- How much a step writes is up to the input alone. -/
def Even : Prop := ∀ s t x, (m.step s x).1.length = (m.step t x).1.length

variable {m}

theorem Even.length_run (h : m.Even) (s t : σ) (xs : List ι) : (m.run s xs).1.length = (m.run t xs).1.length := by
  induction xs generalizing s t with
  | nil => rfl
  | cons x xs ih => simp [h s t x, ih (m.step s x).2 (m.step t x).2]

theorem Even.run_append_inj (h : m.Even) (s : σ) (xs ys zs : List ι) :
    (m.run s (xs ++ zs)).1 = (m.run s (ys ++ zs)).1 ↔
      (m.run s xs).1 = (m.run s ys).1 ∧ (m.run (m.run s xs).2 zs).1 = (m.run (m.run s ys).2 zs).1 := by
  rw [run_append, run_append]
  constructor
  · intro heq
    exact List.append_inj' heq (h.length_run _ _ zs)
  · rintro ⟨hleft, hright⟩
    rw [hleft, hright]

end Transducer

end Shclaw.Lib
