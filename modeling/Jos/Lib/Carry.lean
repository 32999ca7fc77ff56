import Jos.Lib.Command

/-!
# Commands that work on part of the state

A command that is written for any state with certain operations does the same thing wherever the
operations do.  `Carries h x y` says so of a map `h` between two states: `y`, started in `h s`, ends
in `h s'` if `x`, started in `s`, ends in `s'`, and with the same value or exit.  It is closed under
sequencing, so that a command is carried over if its basic steps are.

Two uses: a command does not look at the part of the state that `h` changes; and a command that
hands its results to a function given to it can be understood by what it hands to one that collects
them.
-/

set_option autoImplicit false

namespace Command

variable {ε σ τ α β : Type}

/-- An outcome, in the other state. -/
def mapState (h : σ → τ) : EStateM.Result ε σ α → EStateM.Result ε τ α
  | .ok a s => .ok a (h s)
  | .error e s => .error e (h s)

/-- In the states that `h` leads to, `y` does what `x` does. -/
def Carries (h : σ → τ) (x : EStateM ε σ α) (y : EStateM ε τ α) : Prop :=
  ∀ s, y.run (h s) = mapState h (x.run s)

namespace Carries

variable {h : σ → τ} {x x' : EStateM ε σ α} {y y' : EStateM ε τ α}

theorem of_ok (hxy : Carries h x y) {s s' : σ} {a : α} (hr : x.run s = .ok a s') :
    y.run (h s) = .ok a (h s') := by
  rw [hxy s, hr]
  rfl

theorem of_error (hxy : Carries h x y) {s s' : σ} {e : ε} (hr : x.run s = .error e s') :
    y.run (h s) = .error e (h s') := by
  rw [hxy s, hr]
  rfl

theorem pure (a : α) : Carries h (Pure.pure a : EStateM ε σ α) (Pure.pure a) := fun _ => rfl

theorem throw (e : ε) : Carries h (MonadExcept.throw e : EStateM ε σ α) (MonadExcept.throw e) :=
  fun _ => rfl

theorem of_modify {f : σ → σ} {g : τ → τ} (hfg : ∀ s, g (h s) = h (f s)) :
    Carries h (modify f : EStateM ε σ PUnit) (modify g) := by
  intro s
  show EStateM.Result.ok PUnit.unit (g (h s)) = .ok PUnit.unit (h (f s))
  rw [hfg]

theorem bind {f : α → EStateM ε σ β} {g : α → EStateM ε τ β} (hxy : Carries h x y)
    (hfg : ∀ a, Carries h (f a) (g a)) : Carries h (x >>= f) (y >>= g) := by
  intro s
  cases hr : x.run s with
  | ok a s' =>
    rw [run_bind_ok hr, run_bind_ok (hxy.of_ok hr)]
    exact hfg a s'
  | error e s' =>
    rw [run_bind_error hr, run_bind_error (hxy.of_error hr)]
    rfl

theorem ite {c : Prop} [Decidable c] (hx : Carries h x y) (hx' : Carries h x' y') :
    Carries h (if c then x else x') (if c then y else y') := by
  split
  · exact hx
  · exact hx'

end Carries

end Command
