import Mathlib.Logic.Basic

/-!
# Steps that emit events

A system moves from state to state and lets events be seen on the way.  `Trail step s l t` are the
runs from `s` to `t` in which exactly the events `l` are seen, in this order.  A concrete system
implements an abstract one if each of its steps is matched by a run of the abstract system with the
same events (`Trail.simulate`): then whatever is seen of the concrete system can be seen of the
abstract one.
-/

set_option autoImplicit false

variable {σ τ κ : Type}

/-- `t` is reached from `s` by steps that emit the events `l`. -/
inductive Trail (step : σ → List κ → σ → Prop) (s : σ) : List κ → σ → Prop where
  | refl : Trail step s [] s
  | tail {l l' : List κ} {t t' : σ} (run : Trail step s l t) (move : step t l' t') :
      Trail step s (l ++ l') t'

namespace Trail

variable {step : σ → List κ → σ → Prop} {s t u : σ} {l l' : List κ}

theorem single (move : step s l t) : Trail step s l t := tail (l := []) refl move

theorem trans (h : Trail step s l t) (h' : Trail step t l' u) : Trail step s (l ++ l') u := by
  induction h' with
  | refl => rwa [List.append_nil]
  | tail _ move ih =>
    rw [← List.append_assoc]
    exact tail ih move

/-- What holds first and is kept by every step holds throughout. -/
theorem inv {I : List κ → σ → Prop} (h : Trail step s l t) (h₀ : I [] s)
    (hstep : ∀ l t l' t', I l t → step t l' t' → I (l ++ l') t') : I l t := by
  induction h with
  | refl => exact h₀
  | tail _ move ih => exact hstep _ _ _ _ ih move

/-- **Simulation.**  The relation holds first, and each step is matched. -/
theorem simulate {step' : τ → List κ → τ → Prop} {R : σ → τ → Prop} {a : τ} (h : Trail step s l t)
    (h₀ : R s a)
    (hstep : ∀ t l' t' b, R t b → step t l' t' → ∃ b', Trail step' b l' b' ∧ R t' b') :
    ∃ b, Trail step' a l b ∧ R t b := by
  induction h with
  | refl => exact ⟨a, refl, h₀⟩
  | tail _ move ih =>
    obtain ⟨b, hb, hR⟩ := ih
    obtain ⟨b', hb', hR'⟩ := hstep _ _ _ b hR move
    exact ⟨b', hb.trans hb', hR'⟩

/-- A system with fewer steps. -/
theorem mono {step' : σ → List κ → σ → Prop} (h : Trail step s l t)
    (hstep : ∀ t l t', step t l t' → step' t l t') : Trail step' s l t := by
  induction h with
  | refl => exact refl
  | tail _ move ih => exact tail ih (hstep _ _ _ move)

end Trail
