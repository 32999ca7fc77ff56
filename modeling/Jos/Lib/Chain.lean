import Mathlib.Data.List.Nodup
import Mathlib.Logic.Function.Basic

/-!
# Null-terminated linked lists

A linked list in memory is a head pointer and a `next` field in every cell.  `Chain next p l` says
that following `next` from the pointer `p` visits exactly the cells of `l`, in order, and then
reaches the null pointer (`none`).

Because the walk ends, such a list is automatically free of repetitions (`Chain.nodup`): a cell
met twice would have to be followed by two suffixes of different lengths.
-/

set_option autoImplicit false

universe u

variable {α : Type u}

/-- Following `next` from `p` visits exactly the cells of `l` and then stops. -/
def Chain (next : α → Option α) : Option α → List α → Prop
  | p, [] => p = none
  | p, a :: l => p = some a ∧ Chain next (next a) l

namespace Chain

variable {next next' : α → Option α} {p : Option α} {a : α} {l l' : List α}

theorem nil_iff : Chain next p [] ↔ p = none := Iff.rfl

/-- The head pointer is the first cell. -/
theorem head_eq (h : Chain next p l) : p = l.head? := by
  cases l with
  | nil => exact h
  | cons a l => exact h.1

/-- A null head pointer is the empty list. -/
theorem eq_nil (h : Chain next none l) : l = [] := by
  cases l with
  | nil => rfl
  | cons a l => exact absurd h.1 (by simp)

/-- A list with a non-null head has that cell in front. -/
theorem exists_cons (h : Chain next (some a) l) : ∃ t, l = a :: t ∧ Chain next (next a) t := by
  cases l with
  | nil => exact absurd h (by simp [Chain])
  | cons b t =>
    obtain ⟨hb, ht⟩ := h
    cases hb
    exact ⟨t, rfl, ht⟩

/-- The cells a head pointer leads to are determined by the memory. -/
theorem unique (h : Chain next p l) (h' : Chain next p l') : l = l' := by
  induction l generalizing p l' with
  | nil => subst h; exact h'.eq_nil.symm
  | cons a l ih =>
    obtain ⟨rfl, hl⟩ := h
    obtain ⟨t, rfl, ht⟩ := h'.exists_cons
    rw [ih hl ht]

/-- Every cell of the list starts the rest of the list. -/
theorem suffix {s t : List α} (h : Chain next p (s ++ a :: t)) : Chain next (next a) t := by
  induction s generalizing p with
  | nil => exact h.2
  | cons b s ih => exact ih h.2

/-- **A list that ends has no cell twice.** -/
theorem nodup (h : Chain next p l) : l.Nodup := by
  induction l generalizing p with
  | nil => exact List.nodup_nil
  | cons a l ih =>
    refine List.nodup_cons.2 ⟨fun ha => ?_, ih h.2⟩
    -- the second occurrence would be followed by a proper suffix of what follows the first
    obtain ⟨s, t, rfl⟩ := List.append_of_mem ha
    have ht := (show Chain next (next a) t from h.2.suffix).unique h.2
    have := congrArg List.length ht
    simp at this
    omega

/-- Only the `next` fields of the cells on the list matter. -/
theorem congr (h : Chain next p l) (hn : ∀ b ∈ l, next' b = next b) : Chain next' p l := by
  induction l generalizing p with
  | nil => exact h
  | cons a l ih =>
    refine ⟨h.1, ?_⟩
    rw [hn a (by simp)]
    exact ih h.2 fun b hb => hn b (by simp [hb])

/-- Pushing a cell in front: its `next` field is set to the old head. -/
theorem push [DecidableEq α] (h : Chain next p l) (ha : a ∉ l) :
    Chain (Function.update next a p) (some a) (a :: l) := by
  refine ⟨rfl, ?_⟩
  rw [Function.update_self]
  refine h.congr fun b hb => Function.update_of_ne ?_ _ _
  rintro rfl
  exact ha hb

/-- Writing the `next` field of a cell that is not on the list leaves the list alone. -/
theorem update [DecidableEq α] (h : Chain next p l) (ha : a ∉ l) (q : Option α) :
    Chain (Function.update next a q) p l := by
  refine h.congr fun b hb => Function.update_of_ne ?_ _ _
  rintro rfl
  exact ha hb

end Chain
