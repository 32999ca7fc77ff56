import Jos.Lib.Trail
import Mathlib.Data.List.Induction
import Mathlib.Data.Option.Basic

/-!
# A lock as one object

A lock that an agent takes and gives back in one step each, and that knows who holds it.  It refuses
to be taken by its holder and to be given back by anyone else; these refusals are events too.

An implementation whose events are always those of this lock excludes others between taking and
giving back (`Mutex.Obeys.exclusive`) and refuses exactly the calls that it should.
-/

set_option autoImplicit false

variable {ι : Type}

/-- What is seen of a lock. -/
inductive LockEvent (ι : Type) where
  /-- The agent takes the lock, -/
  | acquire (i : ι)
  /-- and gives it back. -/
  | release (i : ι)
  /-- The agent asks for the lock and has it already. -/
  | again (i : ι)
  /-- The agent gives back a lock that it does not have. -/
  | stranger (i : ι)

namespace LockEvent

/-- The holder after an event. -/
def after (h : Option ι) : LockEvent ι → Option ι
  | .acquire i => some i
  | .release _ => none
  | .again _ => h
  | .stranger _ => h

/-- Whether the lock lets the event happen. -/
def Allowed (h : Option ι) : LockEvent ι → Prop
  | .acquire _ => h = none
  | .release i => h = some i
  | .again i => h = some i
  | .stranger i => h ≠ some i

end LockEvent

namespace Mutex

/-- One step of the lock; its state is its holder. -/
inductive Step : Option ι → List (LockEvent ι) → Option ι → Prop where
  | acquire (i : ι) : Step none [.acquire i] (some i)
  | release (i : ι) : Step (some i) [.release i] none
  | again (i : ι) : Step (some i) [.again i] (some i)
  | stranger (i : ι) (h : Option ι) (ne : h ≠ some i) : Step h [.stranger i] h

/-- Who holds the lock after the events, if nobody does at first. -/
def holder (l : List (LockEvent ι)) : Option ι := l.foldl LockEvent.after none

theorem holder_append (l l' : List (LockEvent ι)) :
    holder (l ++ l') = l'.foldl LockEvent.after (holder l) := List.foldl_append

variable {l l₁ l₂ l₃ : List (LockEvent ι)} {h : Option ι} {i j : ι} {ev : LockEvent ι}

/-- Each event is one that the lock lets happen. -/
def Obeys (l : List (LockEvent ι)) : Prop :=
  ∀ l₁ ev l₂, l = l₁ ++ ev :: l₂ → ev.Allowed (holder l₁)

theorem obeys_nil : Obeys ([] : List (LockEvent ι)) := fun l₁ ev l₂ h => by
  have := congrArg List.length h
  simp at this

theorem Obeys.concat (h : Obeys l) (hev : ev.Allowed (holder l)) : Obeys (l ++ [ev]) := by
  intro l₁ ev' l₂ heq
  rcases List.eq_nil_or_concat l₂ with rfl | ⟨l₃, x, rfl⟩
  · obtain ⟨rfl, hx⟩ := List.append_inj' heq rfl
    obtain rfl : ev = ev' := List.head_eq_of_cons_eq hx
    exact hev
  · rw [List.concat_eq_append, ← List.cons_append, ← List.append_assoc] at heq
    exact h l₁ ev' l₃ (List.append_inj' heq rfl).1

theorem Step.spec {h' : Option ι} (hs : Step h l h') :
    ∃ ev, l = [ev] ∧ ev.Allowed h ∧ h' = ev.after h := by
  cases hs with
  | acquire i => exact ⟨_, rfl, rfl, rfl⟩
  | release i => exact ⟨_, rfl, rfl, rfl⟩
  | again i => exact ⟨_, rfl, rfl, rfl⟩
  | stranger i _ ne => exact ⟨_, rfl, ne, rfl⟩

/-- Unseen, nothing happens to it. -/
theorem trail_nil {h' : Option ι} (hr : Trail Step h [] h') : h' = h := by
  have hinv := hr.inv (I := fun l t => l = [] → t = h) (fun _ => rfl)
      fun l t l' t' _ hstep hnil => by
    obtain ⟨ev, rfl, -⟩ := hstep.spec
    simp at hnil
  exact hinv rfl

/-- The state of the lock is what its events say, and they are allowed ones. -/
theorem trail_obeys (hr : Trail Step none l h) : h = holder l ∧ Obeys l := by
  refine hr.inv (I := fun l h => h = holder l ∧ Obeys l) ⟨rfl, obeys_nil⟩ ?_
  rintro l t l' t' ⟨rfl, hobeys⟩ hstep
  obtain ⟨ev, rfl, hallowed, rfl⟩ := hstep.spec
  exact ⟨(holder_append l [ev]).symm, hobeys.concat hallowed⟩

/-- Until it gives the lock back, an agent that has it keeps it. -/
theorem Obeys.held (hobeys : Obeys (l₁ ++ l₂)) (hi : holder l₁ = some i)
    (hno : .release i ∉ l₂) : holder (l₁ ++ l₂) = some i := by
  induction l₂ using List.reverseRecOn with
  | nil => rwa [List.append_nil]
  | append_singleton l₂ ev ih =>
    rw [← List.append_assoc] at hobeys ⊢
    have hev := hobeys (l₁ ++ l₂) ev [] rfl
    have hheld : holder (l₁ ++ l₂) = some i := by
      refine ih (fun l' ev' l'' heq => ?_) fun hm => hno (List.mem_append_left _ hm)
      exact hobeys l' ev' (l'' ++ [ev]) (by rw [heq, List.append_assoc, List.cons_append])
    rw [holder_append, hheld]
    rw [hheld] at hev
    cases ev with
    | acquire j => exact absurd hev (by simp [LockEvent.Allowed])
    | release j =>
      obtain rfl : i = j := Option.some_inj.1 hev
      exact absurd (List.mem_append_right _ (List.mem_singleton_self _)) hno
    | again j => rfl
    | stranger j => rfl

/-- **Mutual exclusion**: between two events in which the lock is taken, the agent that took it
first has given it back. -/
theorem Obeys.exclusive (hobeys : Obeys (l₁ ++ .acquire i :: l₂ ++ .acquire j :: l₃)) :
    .release i ∈ l₂ := by
  by_contra hno
  have hprefix : Obeys (l₁ ++ [.acquire i] ++ l₂) := fun l ev l' heq =>
    hobeys l ev (l' ++ .acquire j :: l₃) (by
      rw [show l₁ ++ LockEvent.acquire i :: l₂ = l₁ ++ [.acquire i] ++ l₂ by simp, heq]
      simp)
  have hheld := hprefix.held (i := i) (holder_append _ _) hno
  have hfree := hobeys (l₁ ++ .acquire i :: l₂) (.acquire j) l₃ rfl
  rw [show l₁ ++ LockEvent.acquire i :: l₂ = l₁ ++ [.acquire i] ++ l₂ by simp] at hfree
  exact absurd (hheld.symm.trans hfree) (by simp)

end Mutex
