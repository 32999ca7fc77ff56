import Mathlib.Logic.Function.Basic

/-!
# Memories that are copied

A family of processes, each with a memory of its own.  A process stores in its memory, and it can
make another process, which starts with a copy of it.  `memory` is what they have stored in the end.
-/

set_option autoImplicit false

universe u v w

namespace Copies

/-- What processes do: `x` stores `b` at `a`, or makes `c`. -/
inductive Event (ι : Type u) (α : Type v) (β : Type w) where
  | store (x : ι) (a : α) (b : β)
  | fork (x c : ι)

variable {ι : Type u} {α : Type v} {β : Type w}

/-- The processes there are, if `e` was the first one. -/
def Member (e : ι) (l : List (Event ι α β)) (x : ι) : Prop := x = e ∨ ∃ y, Event.fork y x ∈ l

/-- The event does not put anything into the memory of `x` at `a`. -/
def Event.Spares (x : ι) (a : α) : Event ι α β → Prop
  | store y a' _ => y ≠ x ∨ a' ≠ a
  | fork _ c => c ≠ x

variable {e x y c : ι} {a : α} {b : β} {l : List (Event ι α β)} {ev : Event ι α β}

theorem member_first : Member e l e := Or.inl rfl

theorem member_concat_store : Member e (l ++ [.store x a b]) y ↔ Member e l y := by
  simp [Member]

theorem member_concat_fork : Member e (l ++ [.fork x c]) y ↔ Member e l y ∨ y = c := by
  simp only [Member, List.mem_append, List.mem_singleton, Event.fork.injEq]
  constructor
  · rintro (h | ⟨z, h | ⟨-, h⟩⟩)
    · exact Or.inl (Or.inl h)
    · exact Or.inl (Or.inr ⟨z, h⟩)
    · exact Or.inr h
  · rintro ((h | ⟨z, h⟩) | rfl)
    · exact Or.inl h
    · exact Or.inr ⟨z, Or.inl h⟩
    · exact Or.inr ⟨x, Or.inr ⟨rfl, rfl⟩⟩

variable [DecidableEq ι] [DecidableEq α] {m : ι → α → β}

def Event.apply (m : ι → α → β) : Event ι α β → ι → α → β
  | store x a b => Function.update m x (Function.update (m x) a b)
  | fork x c => Function.update m c (m x)

/-- The memories after the events `l`. -/
def memory (m : ι → α → β) (l : List (Event ι α β)) : ι → α → β := l.foldl Event.apply m

theorem memory_concat : memory m (l ++ [ev]) = ev.apply (memory m l) := by
  rw [memory, List.foldl_append]
  rfl

theorem memory_store_self : memory m (l ++ [.store x a b]) x a = b := by
  rw [memory_concat]
  simp only [Event.apply, Function.update_self]

/-- A new process has what its parent has. -/
theorem memory_fork_self : memory m (l ++ [.fork x c]) c = memory m l x := by
  rw [memory_concat]
  exact Function.update_self _ _ _

theorem memory_spares (h : ev.Spares x a) : memory m (l ++ [ev]) x a = memory m l x a := by
  rw [memory_concat]
  cases ev with
  | store y a' b =>
    by_cases hyx : y = x
    · subst hyx
      have ha : a ≠ a' := fun hh => h.elim (fun hne => hne rfl) fun hne => hne hh.symm
      simp only [Event.apply, Function.update_self, Function.update_of_ne ha]
    · simp only [Event.apply, Function.update_of_ne (Ne.symm hyx)]
  | fork y c => simp only [Event.apply, Function.update_of_ne (Ne.symm h)]

/-- **No process sees what another one stores**, and it sees what it has stored itself until it
stores something else. -/
theorem memory_append {l' : List (Event ι α β)} (h : ∀ ev ∈ l', ev.Spares x a) :
    memory m (l ++ l') x a = memory m l x a := by
  induction l' generalizing l with
  | nil => rw [List.append_nil]
  | cons ev l' ih =>
    have hrest := ih (l := l ++ [ev]) fun ev' hev' => h ev' (List.mem_cons_of_mem _ hev')
    rw [List.append_cons, hrest, memory_spares (h ev List.mem_cons_self)]

/-- What a process has stored last. -/
theorem memory_last {l' : List (Event ι α β)} (h : ∀ ev ∈ l', ev.Spares x a) :
    memory m (l ++ .store x a b :: l') x a = b := by
  rw [List.append_cons, memory_append h, memory_store_self]

/-- What it has got from its parent. -/
theorem memory_inherited {l' : List (Event ι α β)} (h : ∀ ev ∈ l', ev.Spares x a) :
    memory m (l ++ .fork y x :: l') x a = memory m l y a := by
  rw [List.append_cons, memory_append h, memory_fork_self]

/-- What the first process has had from the start. -/
theorem memory_unchanged (h : ∀ ev ∈ l, ev.Spares x a) : memory m l x a = m x a :=
  memory_append (l := []) h

end Copies
