import Jos.Lib.Command

/-!
# Commands that leave a trace

What a command did on its way is not in the state it ends in.  A command over `Traced σ τ` also
keeps a list of what it did, in order; an early exit keeps it too.  `Erases t m` says that `t` is
the command `m` with such notes added: without them it does what `m` does.
-/

set_option autoImplicit false

namespace Command

variable {ε σ τ α β : Type}

/-- A state, and what was done so far. -/
structure Traced (σ τ : Type) where
  state : σ
  trace : List τ

namespace Traced

/-- The outcome without the trace. -/
def forget : EStateM.Result ε (Traced σ τ) α → EStateM.Result ε σ α
  | .ok a g => .ok a g.state
  | .error e g => .error e g.state

/-- A command that notes nothing. -/
def lift (m : EStateM ε σ α) : EStateM ε (Traced σ τ) α := fun g =>
  match m.run g.state with
  | .ok a s => .ok a ⟨s, g.trace⟩
  | .error e s => .error e ⟨s, g.trace⟩

/-- Note `x`. -/
def tell (x : τ) : EStateM ε (Traced σ τ) Unit :=
  modify fun g => ⟨g.state, g.trace ++ [x]⟩

variable {s s' : σ} {l : List τ}

theorem lift_ok {m : EStateM ε σ α} {a : α} (h : m.run s = .ok a s') :
    (lift m : EStateM ε (Traced σ τ) α).run ⟨s, l⟩ = .ok a ⟨s', l⟩ := by
  show (match m.run s with
    | .ok a s => EStateM.Result.ok a (⟨s, l⟩ : Traced σ τ)
    | .error e s => .error e ⟨s, l⟩) = _
  rw [h]

theorem lift_error {m : EStateM ε σ α} {e : ε} (h : m.run s = .error e s') :
    (lift m : EStateM ε (Traced σ τ) α).run ⟨s, l⟩ = .error e ⟨s', l⟩ := by
  show (match m.run s with
    | .ok a s => EStateM.Result.ok a (⟨s, l⟩ : Traced σ τ)
    | .error e s => .error e ⟨s, l⟩) = _
  rw [h]

theorem tell_run (x : τ) : (tell x : EStateM ε (Traced σ τ) Unit).run ⟨s, l⟩ =
    .ok () ⟨s, l ++ [x]⟩ := rfl

end Traced

open Traced

/-- But for its notes, `t` does what `m` does. -/
def Erases (t : EStateM ε (Traced σ τ) α) (m : EStateM ε σ α) : Prop :=
  ∀ g, forget (t.run g) = m.run g.state

namespace Erases

theorem lift (m : EStateM ε σ α) : Erases (Traced.lift m : EStateM ε (Traced σ τ) α) m := by
  intro g
  cases h : m.run g.state with
  | ok a s =>
    rw [lift_ok h]
    rfl
  | error e s =>
    rw [lift_error h]
    rfl

theorem pure (a : α) : Erases (Pure.pure a : EStateM ε (Traced σ τ) α) (Pure.pure a) := fun _ => rfl

theorem bind {t : EStateM ε (Traced σ τ) α} {m : EStateM ε σ α}
    {f : α → EStateM ε (Traced σ τ) β} {k : α → EStateM ε σ β} (h : Erases t m)
    (hf : ∀ a, Erases (f a) (k a)) : Erases (t >>= f) (m >>= k) := by
  intro g
  have hg := h g
  cases hr : t.run g with
  | ok a g' =>
    rw [hr] at hg
    rw [run_bind_ok hr, run_bind_ok hg.symm]
    exact hf a g'
  | error e g' =>
    rw [hr] at hg
    rw [run_bind_error hr, run_bind_error hg.symm]
    rfl

theorem tell {x : τ} {f : Unit → EStateM ε (Traced σ τ) β} {m : EStateM ε σ β}
    (h : Erases (f ()) m) : Erases (Traced.tell x >>= f) m := fun g => h ⟨g.state, g.trace ++ [x]⟩

theorem ite {c : Prop} [Decidable c] {t t' : EStateM ε (Traced σ τ) α} {m m' : EStateM ε σ α}
    (h : Erases t m) (h' : Erases t' m') :
    Erases (if c then t else t') (if c then m else m') := by
  split
  · exact h
  · exact h'

variable {t : EStateM ε (Traced σ τ) α} {m : EStateM ε σ α}

/-- The command with notes returns if the one without does. -/
theorem ok_iff (h : Erases t m) {s s' : σ} {l : List τ} {a : α} :
    m.run s = .ok a s' ↔ ∃ l', t.run ⟨s, l⟩ = .ok a ⟨s', l'⟩ := by
  have hs := h ⟨s, l⟩
  constructor
  · intro hm
    cases hr : t.run ⟨s, l⟩ with
    | ok b g =>
      obtain ⟨rfl, rfl⟩ := EStateM.Result.ok.inj ((congrArg forget hr).symm.trans (hs.trans hm))
      exact ⟨g.trace, rfl⟩
    | error e g => exact absurd ((congrArg forget hr).symm.trans (hs.trans hm)) (by simp [forget])
  · rintro ⟨l', hr⟩
    exact hs.symm.trans (congrArg forget hr)

theorem error (h : Erases t m) {s s' : σ} {l l' : List τ} {e : ε}
    (hr : t.run ⟨s, l⟩ = .error e ⟨s', l'⟩) : m.run s = .error e s' :=
  (h ⟨s, l⟩).symm.trans (congrArg forget hr)

end Erases

/-- What the command notes. -/
def traceOf (t : EStateM ε (Traced σ τ) α) (s : σ) : List τ := (final t ⟨s, []⟩).trace

theorem traceOf_ok {t : EStateM ε (Traced σ τ) α} {s s' : σ} {l : List τ} {a : α}
    (h : t.run ⟨s, []⟩ = .ok a ⟨s', l⟩) : traceOf t s = l := by
  rw [traceOf, final_of_ok h]

theorem traceOf_error {t : EStateM ε (Traced σ τ) α} {s s' : σ} {l : List τ} {e : ε}
    (h : t.run ⟨s, []⟩ = .error e ⟨s', l⟩) : traceOf t s = l := by
  rw [traceOf, final_of_error h]

end Command
