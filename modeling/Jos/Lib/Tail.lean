import Jos.Lib.Chain

/-!
# Lists that are built at the end

A linked list can be extended at the end with a pointer to its last link: to the `next` field of its
last cell, or to the head pointer as long as there is no cell.  Here the head pointers and the
`next` fields are locations of one memory.  `Segment val x l y` says that following the links from
the location `x` one comes by the cells of `l` and then to the location `y`; what is in `y` does not
matter.
-/

set_option autoImplicit false

universe u v

/-- A place for a pointer: a head pointer, or the `next` field of a cell. -/
inductive Loc (ι : Type u) (α : Type v) where
  | head (i : ι)
  | link (a : α)
deriving DecidableEq

variable {ι : Type u} {α : Type v}

theorem Loc.head_ne_link (i : ι) (a : α) : (.head i : Loc ι α) ≠ .link a :=
  nofun

/-- From the location `x` one comes by the cells of `l` to the location `y`. -/
def Segment (val : Loc ι α → Option α) : Loc ι α → List α → Loc ι α → Prop
  | x, [], y => x = y
  | x, a :: l, y => val x = some a ∧ Segment val (.link a) l y

namespace Segment

variable {val : Loc ι α → Option α} {x y z : Loc ι α} {a : α} {l l' : List α}

/-- Where it ends. -/
theorem end_mem (h : Segment val x l y) : y = x ∨ ∃ a ∈ l, y = .link a := by
  induction l generalizing x with
  | nil => exact Or.inl h.symm
  | cons a l ih =>
    rcases ih h.2 with rfl | ⟨b, hb, rfl⟩
    · exact Or.inr ⟨a, List.mem_cons_self, rfl⟩
    · exact Or.inr ⟨b, List.mem_cons_of_mem _ hb, rfl⟩

/-- A segment and the list from its end on. -/
theorem chain (h : Segment val x l y) (h' : Chain (fun a => val (.link a)) (val y) l') :
    Chain (fun a => val (.link a)) (val x) (l ++ l') := by
  induction l generalizing x with
  | nil =>
    obtain rfl : x = y := h
    exact h'
  | cons a l ih => exact ⟨h.1, ih h.2⟩

/-- The next cell. -/
theorem extend (h : Segment val x l y) (hy : val y = some a) :
    Segment val x (l ++ [a]) (.link a) := by
  induction l generalizing x with
  | nil =>
    obtain rfl : x = y := h
    exact ⟨hy, rfl⟩
  | cons b l ih => exact ⟨h.1, ih h.2⟩

/-- The end of a list is no place on another one, if they have no cell in common. -/
theorem end_apart {i j : ι} {y' : Loc ι α} (h : Segment val (.head j) l' y') (hij : j ≠ i)
    (hl : ∀ a ∈ l', a ∉ l) : y' ≠ .head i ∧ ∀ a ∈ l, y' ≠ .link a := by
  rcases h.end_mem with rfl | ⟨b, hb, rfl⟩
  · exact ⟨fun hh => hij (Loc.head.inj hh), fun a _ => Loc.head_ne_link j a⟩
  · refine ⟨(Loc.head_ne_link i b).symm, fun a ha hh => hl b hb ?_⟩
    rw [Loc.link.inj hh]
    exact ha

variable [DecidableEq ι] [DecidableEq α]

/-- Writing to a location that is not on it. -/
theorem update (h : Segment val x l y) (hx : z ≠ x) (hl : ∀ a ∈ l, z ≠ .link a) (p : Option α) :
    Segment (Function.update val z p) x l y := by
  induction l generalizing x with
  | nil => exact h
  | cons a l ih =>
    refine ⟨?_, ih h.2 (hl a List.mem_cons_self) fun b hb => hl b (List.mem_cons_of_mem _ hb)⟩
    rw [Function.update_of_ne hx.symm]
    exact h.1

/-- Writing to its end. -/
theorem update_end (h : Segment val x l y) (hx : ∀ a ∈ l, x ≠ .link a) (hl : l.Nodup)
    (p : Option α) : Segment (Function.update val y p) x l y := by
  induction l generalizing x with
  | nil => exact h
  | cons b l ih =>
    obtain ⟨hb, hl'⟩ := List.nodup_cons.1 hl
    have hlink : ∀ c ∈ l, (.link b : Loc ι α) ≠ .link c := by
      rintro c hc heq
      exact hb (Loc.link.inj heq ▸ hc)
    have hxy : x ≠ y := by
      rcases h.2.end_mem with rfl | ⟨c, hc, rfl⟩
      · exact hx b List.mem_cons_self
      · exact hx c (List.mem_cons_of_mem _ hc)
    refine ⟨?_, ih h.2 hlink hl'⟩
    rw [Function.update_of_ne hxy]
    exact h.1

/-- Writing another cell to its end. -/
theorem snoc (h : Segment val x l y) (hx : ∀ a ∈ l, x ≠ .link a) (hl : l.Nodup) (a : α) :
    Segment (Function.update val y (some a)) x (l ++ [a]) (.link a) :=
  (h.update_end hx hl (some a)).extend (Function.update_self ..)

/-- One list is closed, and another one goes on with it. -/
theorem join {i j : ι} {y' : Loc ι α} {val₁ val₂ : Loc ι α → Option α}
    (h : Segment val (.head i) l y) (h' : Segment val (.head j) l' y') (hij : i ≠ j)
    (hl : (l ++ l').Nodup) (h₁ : val₁ = Function.update val y' none)
    (h₂ : val₂ = Function.update val₁ y (val₁ (.head j))) :
    Chain (fun a => val₂ (.link a)) (val₂ (.head i)) (l ++ l') := by
  obtain ⟨hnodup, hnodup', hne⟩ := List.nodup_append.1 hl
  have hapart := h'.end_apart hij.symm fun a ha ha' => hne a ha' a ha rfl
  have hapart' := h.end_apart hij fun a ha ha' => hne a ha a ha' rfl
  -- the second list ends
  have hseg' : Segment val₁ (.head j) l' y' := by
    rw [h₁]
    exact h'.update_end (fun a _ => Loc.head_ne_link j a) hnodup' none
  have hchain : Chain (fun a => val₁ (.link a)) (val₁ (.head j)) l' := by
    have hnil : Chain (fun a => val₁ (.link a)) (val₁ y') [] := by
      rw [h₁]
      exact Function.update_self ..
    have happend := hseg'.chain hnil
    rwa [List.append_nil] at happend
  -- and the first one goes on with it
  have hseg : Segment val₂ (.head i) l y := by
    rw [h₂]
    refine Segment.update_end ?_ (fun a _ => Loc.head_ne_link i a) hnodup _
    rw [h₁]
    exact h.update hapart.1 hapart.2 none
  refine hseg.chain ?_
  have hlast : val₂ y = val₁ (.head j) := by
    rw [h₂]
    exact Function.update_self ..
  rw [hlast]
  refine hchain.congr fun a ha => ?_
  rw [h₂, Function.update_of_ne (hapart'.2 a ha).symm]

end Segment
