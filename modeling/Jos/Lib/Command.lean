import Mathlib.Logic.Basic

/-!
# Commands with an early exit

A command over a state `σ` runs to completion with a value, or leaves early with an exit `ε`; in
both cases it leaves a state behind.  Lean's `EStateM ε σ` is exactly that.  Core provides what
`run` does to `pure`, `bind`, `get` and `modify`; here are the rules of pre- and postconditions.

`Triple P m Q E` says that `m`, started in a state satisfying `P`, either returns with `Q` or exits
with `E`.  An exit is as much an outcome as a return here, so both get a postcondition.  `Always`
is the special case of a relation between the first state and whatever state the command ends in;
for a transitive relation it is closed under sequencing, and it carries frame conditions.
-/

set_option autoImplicit false

namespace Command

variable {ε σ α β : Type}

/-- The state a command ends in, whichever way it ends. -/
def final (m : EStateM ε σ α) (s : σ) : σ :=
  match m.run s with
  | .ok _ s' => s'
  | .error _ s' => s'

@[simp] theorem run_throw (e : ε) (s : σ) :
    EStateM.run (throw e : EStateM ε σ α) s = .error e s := rfl

@[simp] theorem run_map (f : α → β) (m : EStateM ε σ α) (s : σ) :
    (f <$> m).run s = match m.run s with
      | .ok a s' => .ok (f a) s'
      | .error e s' => .error e s' := rfl

theorem final_of_ok {m : EStateM ε σ α} {s s' : σ} {a : α} (h : m.run s = .ok a s') :
    final m s = s' := by
  rw [final, h]

theorem final_of_error {m : EStateM ε σ α} {s s' : σ} {e : ε} (h : m.run s = .error e s') :
    final m s = s' := by
  rw [final, h]

/-- What a sequence does, once what its first part does is known. -/
theorem run_bind_ok {m : EStateM ε σ α} {f : α → EStateM ε σ β} {s s' : σ} {a : α}
    (h : m.run s = .ok a s') : (m >>= f).run s = (f a).run s' := by
  rw [EStateM.run_bind, h]

theorem run_bind_error {m : EStateM ε σ α} {f : α → EStateM ε σ β} {s s' : σ} {e : ε}
    (h : m.run s = .error e s') : (m >>= f).run s = .error e s' := by
  rw [EStateM.run_bind, h]

/-- A sequence that returns has returned from its first part. -/
theorem ok_of_bind {m : EStateM ε σ α} {f : α → EStateM ε σ β} {s u : σ} {b : β}
    (h : (m >>= f).run s = .ok b u) : ∃ a t, m.run s = .ok a t ∧ (f a).run t = .ok b u := by
  cases hm : m.run s with
  | ok a t =>
    rw [run_bind_ok hm] at h
    exact ⟨a, t, rfl, h⟩
  | error e t =>
    rw [run_bind_error hm] at h
    cases h

/-! ## Pre- and postconditions -/

/-- Started in `P`, the command returns with `Q` or exits with `E`. -/
def Triple (P : σ → Prop) (m : EStateM ε σ α) (Q : α → σ → Prop) (E : ε → σ → Prop) : Prop :=
  ∀ s, P s → match m.run s with
    | .ok a s' => Q a s'
    | .error e s' => E e s'

namespace Triple

variable {P P' : σ → Prop} {Q Q' : α → σ → Prop} {R : β → σ → Prop} {E E' : ε → σ → Prop}
variable {m : EStateM ε σ α}

theorem of_ok (h : Triple P m Q E) {s s' : σ} {a : α} (hp : P s) (hr : m.run s = .ok a s') :
    Q a s' := by
  have := h s hp
  rwa [hr] at this

theorem of_error (h : Triple P m Q E) {s s' : σ} {e : ε} (hp : P s)
    (hr : m.run s = .error e s') : E e s' := by
  have := h s hp
  rwa [hr] at this

/-- However the command ends, what both postconditions say holds at the end. -/
theorem final {Q : σ → Prop} (h : Triple P m (fun _ => Q) fun _ => Q) {s : σ} (hp : P s) :
    Q (final m s) := by
  have := h s hp
  cases hr : m.run s with
  | ok a s' => rw [hr] at this; rwa [final_of_ok hr]
  | error e s' => rw [hr] at this; rwa [final_of_error hr]

theorem conseq (h : Triple P m Q E) (hP : ∀ s, P' s → P s) (hQ : ∀ a s, Q a s → Q' a s)
    (hE : ∀ e s, E e s → E' e s) : Triple P' m Q' E' := by
  intro s hs
  have := h s (hP s hs)
  cases hr : m.run s with
  | ok a s' => rw [hr] at this; exact hQ a s' this
  | error e s' => rw [hr] at this; exact hE e s' this

/-- Only what happens if the command returns matters. -/
theorem of_returns (h : ∀ s a s', P s → m.run s = .ok a s' → Q a s') :
    Triple P m Q fun _ _ => True := by
  intro s hs
  cases hr : m.run s with
  | ok a s' => exact h s a s' hs hr
  | error e s' => trivial

theorem top : Triple P m (fun _ _ => True) fun _ _ => True := by
  intro s _
  cases m.run s <;> trivial

theorem pure {a : α} (h : ∀ s, P s → Q a s) : Triple P (Pure.pure a : EStateM ε σ α) Q E := h

theorem throw {e : ε} (h : ∀ s, P s → E e s) :
    Triple P (MonadExcept.throw e : EStateM ε σ α) Q E := h

theorem modify {f : σ → σ} {Q : PUnit → σ → Prop} (h : ∀ s, P s → Q ⟨⟩ (f s)) :
    Triple P (modify f : EStateM ε σ PUnit) Q E := h

theorem bind {f : α → EStateM ε σ β} (hm : Triple P m Q E) (hf : ∀ a, Triple (Q a) (f a) R E) :
    Triple P (m >>= f) R E := by
  intro s hs
  rw [EStateM.run_bind]
  have := hm s hs
  cases hr : m.run s with
  | ok a s' => rw [hr] at this; exact hf a s' this
  | error e s' => rw [hr] at this; exact this

/-- Reading the state: the rest may assume it was the state read. -/
theorem get_bind {f : σ → EStateM ε σ β} (h : ∀ s₀, P s₀ → Triple (fun s => s = s₀) (f s₀) R E) :
    Triple P (get >>= f) R E := by
  intro s hs
  exact h s hs s rfl

theorem ite {c : Prop} [Decidable c] {m₁ m₂ : EStateM ε σ α} (h₁ : c → Triple P m₁ Q E)
    (h₂ : ¬ c → Triple P m₂ Q E) : Triple P (if c then m₁ else m₂) Q E := by
  split
  · exact h₁ ‹_›
  · exact h₂ ‹_›

/-- A loop keeps what its body keeps. -/
theorem forM {ι : Type} {I : σ → Prop} {f : ι → EStateM ε σ PUnit} {l : List ι}
    (h : ∀ i ∈ l, Triple I (f i) (fun _ => I) E) : Triple I (l.forM f) (fun _ => I) E := by
  induction l with
  | nil => exact pure fun _ hs => hs
  | cons i l ih =>
    exact bind (h i (by simp)) fun _ => ih fun j hj => h j (by simp [hj])

/-- A loop whose invariant mentions the elements already dealt with. -/
theorem forM_prefix {ι : Type} {I : List ι → σ → Prop} {f : ι → EStateM ε σ PUnit} (l : List ι)
    (h : ∀ pre i post, l = pre ++ i :: post → Triple (I pre) (f i) (fun _ => I (pre ++ [i])) E) :
    Triple (I []) (l.forM f) (fun _ => I l) E := by
  -- generalised to a loop that has already dealt with `pre`
  have hrest : ∀ rest pre, l = pre ++ rest → Triple (I pre) (rest.forM f) (fun _ => I l) E := by
    intro rest
    induction rest with
    | nil =>
      intro pre hl
      rw [List.append_nil] at hl
      exact pure fun s hs => hl ▸ hs
    | cons i rest ih =>
      intro pre hl
      exact bind (h pre i rest hl) fun _ => ih (pre ++ [i]) (by simp [hl])
  exact hrest l [] rfl

end Triple

/-! ## Relations between the first and the last state -/

/-- However the command ends, its last state is related to its first by `R`. -/
def Always (R : σ → σ → Prop) (m : EStateM ε σ α) : Prop := ∀ s, R s (final m s)

namespace Always

variable {R : σ → σ → Prop} {m : EStateM ε σ α}

theorem of_ok (h : Always R m) {s s' : σ} {a : α} (hr : m.run s = .ok a s') : R s s' := by
  have := h s
  rwa [final_of_ok hr] at this

theorem of_error (h : Always R m) {s s' : σ} {e : ε} (hr : m.run s = .error e s') : R s s' := by
  have := h s
  rwa [final_of_error hr] at this

theorem triple (h : Always R m) (s : σ) :
    Triple (fun t => t = s) m (fun _ t => R s t) fun _ t => R s t := by
  rintro t rfl
  cases hr : m.run t with
  | ok a s' => exact h.of_ok hr
  | error e s' => exact h.of_error hr

theorem mono {R' : σ → σ → Prop} (h : Always R m) (hR : ∀ s s', R s s' → R' s s') :
    Always R' m := fun s => hR _ _ (h s)

theorem pure (hrefl : ∀ s, R s s) (a : α) : Always R (Pure.pure a : EStateM ε σ α) :=
  fun s => hrefl s

theorem throw (hrefl : ∀ s, R s s) (e : ε) :
    Always R (MonadExcept.throw e : EStateM ε σ α) := fun s => hrefl s

theorem modify {f : σ → σ} (h : ∀ s, R s (f s)) : Always R (modify f : EStateM ε σ PUnit) := h

theorem bind (htrans : ∀ s t u, R s t → R t u → R s u) {f : α → EStateM ε σ β}
    (hm : Always R m) (hf : ∀ a, Always R (f a)) : Always R (m >>= f) := by
  intro s
  have h1 := hm s
  cases hr : m.run s with
  | ok a s' =>
    rw [final_of_ok hr] at h1
    have h2 := hf a s'
    rw [final, run_bind_ok hr]
    exact htrans _ _ _ h1 h2
  | error e s' =>
    rw [final_of_error hr] at h1
    rwa [final_of_error (run_bind_error hr)]

theorem ite {c : Prop} [Decidable c] {m₁ m₂ : EStateM ε σ α} (h₁ : Always R m₁)
    (h₂ : Always R m₂) : Always R (if c then m₁ else m₂) := by
  split
  · exact h₁
  · exact h₂

end Always

/-! ## Commands that may fail

A relation between two states that a command is to keep, unless it ends with an exception that is
not of interest.  What follows a command starts from a state that is related to the first one. -/

/-- Run in state `s`, the command ends in a state to which `R` leads, or with an exception in
`bad`. -/
structure LeadsTo (R : σ → σ → Prop) (bad : ε → Prop) (s : σ) (m : EStateM ε σ α) : Prop where
  ret : ∀ a t, m.run s = .ok a t → R s t
  exit : ∀ x t, m.run s = .error x t → bad x ∨ R s t

namespace LeadsTo

variable {R : σ → σ → Prop} {bad : ε → Prop} {s t : σ} {m : EStateM ε σ α}

theorem of_final (h : R s (final m s)) : LeadsTo R bad s m where
  ret a t hr := by rwa [final_of_ok hr] at h
  exit x t hr := by
    rw [final_of_error hr] at h
    exact Or.inr h

theorem of_error {x : ε} (hr : m.run s = .error x t) (h : R s t) : LeadsTo R bad s m :=
  of_final (by rwa [final_of_error hr])

theorem throw {x : ε} (h : bad x) : LeadsTo R bad s (MonadExcept.throw x : EStateM ε σ α) where
  ret a t hr := by cases hr
  exit y t hr := by
    cases hr
    exact Or.inl h

theorem pure (h : R s s) (a : α) : LeadsTo R bad s (Pure.pure a : EStateM ε σ α) := of_final h

theorem modify {f : σ → σ} (h : R s (f s)) : LeadsTo R bad s (modify f : EStateM ε σ PUnit) :=
  of_final h

theorem bind (htrans : ∀ s t u, R s t → R t u → R s u) {f : α → EStateM ε σ β}
    (h : LeadsTo R bad s m) (hf : ∀ a t, m.run s = .ok a t → R s t → LeadsTo R bad t (f a)) :
    LeadsTo R bad s (m >>= f) where
  ret b u hr := by
    obtain ⟨a, t, hm, hfa⟩ := ok_of_bind hr
    exact htrans _ _ _ (h.ret a t hm) ((hf a t hm (h.ret a t hm)).ret b u hfa)
  exit x u hr := by
    cases hm : m.run s with
    | error y t =>
      rw [run_bind_error hm] at hr
      cases hr
      exact h.exit x u hm
    | ok a t =>
      rw [run_bind_ok hm] at hr
      have ht := h.ret a t hm
      exact ((hf a t hm ht).exit x u hr).imp_right (htrans _ _ _ ht)

theorem get_bind {f : σ → EStateM ε σ β} (h : LeadsTo R bad s (f s)) :
    LeadsTo R bad s (get >>= f) := ⟨h.ret, h.exit⟩

theorem pure_bind {a : α} {f : α → EStateM ε σ β} (h : LeadsTo R bad s (f a)) :
    LeadsTo R bad s (Pure.pure a >>= f) := ⟨h.ret, h.exit⟩

theorem ite {c : Prop} [Decidable c] {m₁ m₂ : EStateM ε σ α} (h₁ : c → LeadsTo R bad s m₁)
    (h₂ : ¬ c → LeadsTo R bad s m₂) : LeadsTo R bad s (if c then m₁ else m₂) := by
  split
  · exact h₁ ‹_›
  · exact h₂ ‹_›

/-- A loop whose body leads to related states from wherever it starts. -/
theorem forM {ι : Type} (hrefl : ∀ s, R s s) (htrans : ∀ s t u, R s t → R t u → R s u)
    {f : ι → EStateM ε σ PUnit} (l : List ι) (h : ∀ i ∈ l, ∀ s, LeadsTo R bad s (f i)) (s : σ) :
    LeadsTo R bad s (l.forM f) := by
  induction l generalizing s with
  | nil => exact pure (hrefl s) _
  | cons i l ih =>
    exact bind htrans (h i List.mem_cons_self s) fun _ t _ _ =>
      ih (fun j hj => h j (List.mem_cons_of_mem _ hj)) t

/-- Running it in an equal way, from a related state. -/
theorem congr (htrans : ∀ s t u, R s t → R t u → R s u) {m' : EStateM ε σ α}
    (h : LeadsTo R bad t m') (ht : R s t) (hr : m.run s = m'.run t) : LeadsTo R bad s m where
  ret a u hu := htrans _ _ _ ht (h.ret a u (hr ▸ hu))
  exit x u hu := (h.exit x u (hr ▸ hu)).imp_right (htrans _ _ _ ht)

end LeadsTo

end Command
