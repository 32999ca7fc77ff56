import Mathlib.Logic.Basic

/-!
# States reached step by step

A system moves from state to state by labelled steps.  `Reach step ok s₀` are the states it reaches
from `s₀` when every label satisfies `ok` in the state in which the step is taken.  An invariant is
proved once per step (`Reach.inv`); what a condition on the steps buys is an invariant proved under
that condition.
-/

set_option autoImplicit false

variable {σ κ : Type}

/-- The states reached from `s₀` by steps whose labels satisfy `ok`. -/
inductive Reach (step : σ → κ → σ → Prop) (ok : σ → κ → Prop) (s₀ : σ) : σ → Prop where
  | refl : Reach step ok s₀ s₀
  | tail {s s' : σ} {a : κ} (run : Reach step ok s₀ s) (good : ok s a) (move : step s a s') :
      Reach step ok s₀ s'

namespace Reach

variable {step : σ → κ → σ → Prop} {ok ok' : σ → κ → Prop} {s₀ s : σ}

/-- What holds first and is kept by every step holds throughout. -/
theorem inv {I : σ → Prop} (h : Reach step ok s₀ s) (h₀ : I s₀)
    (hstep : ∀ s a s', I s → ok s a → step s a s' → I s') : I s := by
  induction h with
  | refl => exact h₀
  | tail _ good move ih => exact hstep _ _ _ ih good move

theorem trans {t : σ} (h : Reach step ok s₀ s) (h' : Reach step ok s t) : Reach step ok s₀ t := by
  induction h' with
  | refl => exact h
  | tail _ good move ih => exact tail ih good move

/-- Steps that another system allows too make a run of that system. -/
theorem mono {step' : σ → κ → σ → Prop} (h : Reach step ok s₀ s)
    (hstep : ∀ s a s', ok s a → step s a s' → ok' s a ∧ step' s a s') : Reach step' ok' s₀ s := by
  induction h with
  | refl => exact refl
  | tail _ good move ih => exact tail ih (hstep _ _ _ good move).1 (hstep _ _ _ good move).2

end Reach
