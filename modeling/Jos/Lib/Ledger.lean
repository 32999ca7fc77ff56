import Mathlib.Data.Fintype.Card
import Mathlib.Data.Finset.Card
import Mathlib.Data.Set.Card
import Mathlib.Logic.Function.Basic

/-!
# Reference counts and a free list

An allocator that counts references keeps three things in step: the slots that may point at a
resource, the count stored with each resource, and the list of resources nobody points at.
`Ledger K F` is that picture with everything else forgotten: slots `K`, resources `F`, what each
slot points at, the stored counts, and the free list.

`Ledger.Ok` is the accounting invariant.  Some slots are *nodes*: what they point at may be
pointed at by nothing else, which is how a tree of tables is kept free of sharing.  Some resources
are *reserved*: outside the accounting altogether, never free and never pointed at.

The three moves of such an allocator — take a resource off the free list, make an empty slot point
at a resource, make a slot empty and give its resource back when the count reaches zero — are
`take`, `link` and `unlink`, and each keeps the invariant.
-/

set_option autoImplicit false

universe u v

/-- What each slot points at, the stored counts and the free list. -/
structure Ledger (K : Type u) (F : Type v) where
  /-- The resource a slot points at, if any. -/
  target : K → Option F
  /-- The stored reference count. -/
  ref : F → ℕ
  /-- The free list. -/
  free : List F

namespace Ledger

variable {K : Type u} {F : Type v} [Fintype K] [DecidableEq F]

/-- How many slots point at `f`. -/
def refs (t : K → Option F) (f : F) : ℕ := (Finset.univ.filter fun k => t k = some f).card

theorem refs_eq_zero_iff {t : K → Option F} {f : F} : refs t f = 0 ↔ ∀ k, t k ≠ some f := by
  simp [refs, Finset.filter_eq_empty_iff]

theorem refs_pos {t : K → Option F} {f : F} {k : K} (h : t k = some f) : 0 < refs t f :=
  Finset.card_pos.2 ⟨k, by simp [h]⟩

/-- Distinct slots that point at `f` are counted. -/
theorem le_refs {n : ℕ} {t : K → Option F} {f : F} (g : ℕ → K) (hg : ∀ i < n, t (g i) = some f)
    (hinj : ∀ i < n, ∀ j < n, g i = g j → i = j) : n ≤ refs t f := by
  rw [← Finset.card_range n, refs]
  refine Finset.card_le_card_of_injOn g (fun i hi => ?_) fun i hi j hj => ?_
  · rw [Finset.mem_coe, Finset.mem_filter]
    exact ⟨Finset.mem_univ _, hg i (Finset.mem_range.1 hi)⟩
  · exact hinj i (Finset.mem_range.1 hi) j (Finset.mem_range.1 hj)

theorem length_le_refs [DecidableEq K] {t : K → Option F} {f : F} {ks : List K} (hnodup : ks.Nodup)
    (hks : ∀ k ∈ ks, t k = some f) : ks.length ≤ refs t f := by
  rw [← List.toFinset_card_of_nodup hnodup, refs]
  refine Finset.card_le_card fun k hk => ?_
  rw [Finset.mem_filter]
  exact ⟨Finset.mem_univ k, hks k (List.mem_toFinset.1 hk)⟩

/-- At most as many slots point at `f` as have been named. -/
theorem refs_le_card {ι : Type*} [Fintype ι] {t : K → Option F} {f : F} (g : ι → K)
    (h : ∀ k, t k = some f → ∃ i, g i = k) : refs t f ≤ Fintype.card ι := by
  classical
  have hsub : (Finset.univ.filter fun k => t k = some f) ⊆ Finset.univ.image g := by
    intro k hk
    obtain ⟨i, hi⟩ := h k (Finset.mem_filter.1 hk).2
    exact Finset.mem_image.2 ⟨i, Finset.mem_univ i, hi⟩
  exact (Finset.card_le_card hsub).trans Finset.card_image_le

/-- Some of the slots count for at most as much as all of them. -/
theorem refs_comp_le {K' : Type u} [Fintype K'] {g : K' → K} (hg : Function.Injective g)
    (t : K → Option F) (f : F) : refs (fun k => t (g k)) f ≤ refs t f := by
  rw [refs, refs]
  refine Finset.card_le_card_of_injOn g (fun k hk => ?_) hg.injOn
  rw [Finset.mem_coe, Finset.mem_filter] at hk ⊢
  exact ⟨Finset.mem_univ _, hk.2⟩

/-- A resource is pointed at exactly once when one slot does and no other. -/
theorem refs_eq_one {t : K → Option F} {f : F} {k : K} (h : t k = some f)
    (hu : ∀ k', t k' = some f → k' = k) : refs t f = 1 := by
  rw [refs, Finset.card_eq_one]
  refine ⟨k, Finset.ext fun k' => ?_⟩
  simp only [Finset.mem_filter, Finset.mem_univ, true_and, Finset.mem_singleton]
  exact ⟨hu k', fun hk => hk ▸ h⟩

/-- When a resource is pointed at exactly once, the slot is unique. -/
theorem eq_of_refs_eq_one {t : K → Option F} {f : F} {k k' : K} (h1 : refs t f = 1)
    (h : t k = some f) (h' : t k' = some f) : k' = k := by
  rw [refs, Finset.card_eq_one] at h1
  obtain ⟨a, ha⟩ := h1
  have hk : k ∈ Finset.univ.filter fun k => t k = some f := by simp [h]
  have hk' : k' ∈ Finset.univ.filter fun k => t k = some f := by simp [h']
  rw [ha, Finset.mem_singleton] at hk hk'
  rw [hk, hk']

section

variable [DecidableEq K]

/-- Filling an empty slot adds one reference to what it now points at. -/
theorem refs_update_some {t : K → Option F} {k : K} (hk : t k = none) (f g : F) :
    refs (Function.update t k (some f)) g = refs t g + if f = g then 1 else 0 := by
  rw [refs, refs]
  by_cases hfg : f = g
  · subst hfg
    have hset : (Finset.univ.filter fun k' => Function.update t k (some f) k' = some f)
        = insert k (Finset.univ.filter fun k' => t k' = some f) := by
      ext k'
      by_cases hkk : k' = k
      · simp [hkk]
      · simp [hkk]
    rw [hset, Finset.card_insert_of_notMem (by simp [hk])]
    simp
  · have hset : (Finset.univ.filter fun k' => Function.update t k (some f) k' = some g)
        = Finset.univ.filter fun k' => t k' = some g := by
      ext k'
      by_cases hkk : k' = k
      · simp [hkk, hfg, hk]
      · simp [Function.update_of_ne hkk]
    rw [hset, if_neg hfg, Nat.add_zero]

/-- Emptying a slot takes one reference from what it pointed at. -/
theorem refs_update_none {t : K → Option F} {k : K} {f : F} (hk : t k = some f) (g : F) :
    refs (Function.update t k none) g + (if f = g then 1 else 0) = refs t g := by
  have h := refs_update_some (t := Function.update t k none) (k := k) (by simp) f g
  rw [Function.update_idem, ← hk, Function.update_eq_self] at h
  exact h.symm

end

/-- How many of the slots in `own` point at `f`. -/
def refsIn (own : K → Prop) [DecidablePred own] (t : K → Option F) (f : F) : ℕ :=
  (Finset.univ.filter fun k => own k ∧ t k = some f).card

theorem refsIn_pos {own : K → Prop} [DecidablePred own] {t : K → Option F} {f : F} :
    0 < refsIn own t f ↔ ∃ k, own k ∧ t k = some f := by
  rw [refsIn, Finset.card_pos]
  constructor
  · rintro ⟨k, hk⟩
    exact ⟨k, (Finset.mem_filter.1 hk).2⟩
  · rintro ⟨k, hk⟩
    exact ⟨k, Finset.mem_filter.2 ⟨Finset.mem_univ k, hk⟩⟩

/-- Distinct slots in `own` that point at `f` are counted. -/
theorem ncard_le_refsIn {ι : Type*} {own : K → Prop} [DecidablePred own] {t : K → Option F} {f : F}
    {S : Set ι} (g : ι → K) (hinj : Set.InjOn g S) (hS : ∀ x ∈ S, own (g x) ∧ t (g x) = some f) :
    S.ncard ≤ refsIn own t f := by
  rw [← hinj.ncard_image, refsIn, ← Set.ncard_coe_finset]
  refine Set.ncard_le_ncard (fun k hk => ?_) (Finset.finite_toSet _)
  obtain ⟨x, hx, rfl⟩ := hk
  rw [Finset.mem_coe, Finset.mem_filter]
  exact ⟨Finset.mem_univ _, hS x hx⟩

theorem refs_mono {t t' : K → Option F} {f : F} (h : ∀ k, t' k = some f → t k = some f) :
    refs t' f ≤ refs t f := by
  refine Finset.card_le_card fun k hk => ?_
  exact Finset.mem_filter.2 ⟨Finset.mem_univ k, h k (Finset.mem_filter.1 hk).2⟩

theorem refsIn_mono {own : K → Prop} [DecidablePred own] {t t' : K → Option F} {f : F}
    (h : ∀ k, own k → t' k = some f → t k = some f) : refsIn own t' f ≤ refsIn own t f := by
  refine Finset.card_le_card fun k hk => ?_
  obtain ⟨hown, hf⟩ := (Finset.mem_filter.1 hk).2
  exact Finset.mem_filter.2 ⟨Finset.mem_univ k, hown, h k hown hf⟩

/-- The slot `k` points at `f` no more, and nothing else changes for `f`. -/
theorem refs_of_other [DecidableEq K] {t t' : K → Option F} {f : F} (k : K) (hk : t' k ≠ some f)
    (hother : ∀ k', k' ≠ k → (t' k' = some f ↔ t k' = some f)) :
    refs t' f + (if t k = some f then 1 else 0) = refs t f := by
  have hset : (Finset.univ.filter fun k' => t' k' = some f) =
      (Finset.univ.filter fun k' => t k' = some f).erase k := by
    ext k'
    by_cases hkk : k' = k
    · simp [hkk, hk]
    · simp [hkk, hother k' hkk]
  rw [refs, refs, hset]
  split
  · next h => exact Finset.card_erase_add_one (Finset.mem_filter.2 ⟨Finset.mem_univ k, h⟩)
  · next h => rw [Finset.erase_eq_of_notMem (by simp [h]), Nat.add_zero]

theorem refs_congr {t t' : K → Option F} {f : F} (h : ∀ k, t' k = some f ↔ t k = some f) :
    refs t' f = refs t f :=
  (refs_mono fun k => (h k).1).antisymm (refs_mono fun k => (h k).2)

theorem refsIn_le_refs (own : K → Prop) [DecidablePred own] (t : K → Option F) (f : F) :
    refsIn own t f ≤ refs t f := by
  refine Finset.card_le_card fun k hk => ?_
  exact Finset.mem_filter.2 ⟨Finset.mem_univ k, (Finset.mem_filter.1 hk).2.2⟩

/-- If `g` takes the slots in `own'` that point at `f` to slots in `own` that do, and misses one of
those, there are more of them. -/
theorem refsIn_lt [DecidableEq K] {own own' : K → Prop} [DecidablePred own]
    [DecidablePred own'] {t t' : K → Option F} {f : F} (g : K → K)
    (hg : ∀ k, own' k → t' k = some f → own (g k) ∧ t (g k) = some f)
    (hinj : ∀ k k', own' k → own' k' → g k = g k' → k = k') {k₀ : K} (hk₀ : own k₀)
    (hf : t k₀ = some f) (hmiss : ∀ k, own' k → t' k = some f → g k ≠ k₀) :
    refsIn own' t' f < refsIn own t f := by
  have himage : refsIn own' t' f =
      ((Finset.univ.filter fun k => own' k ∧ t' k = some f).image g).card :=
    (Finset.card_image_of_injOn fun k hk k' hk' => hinj k k' (Finset.mem_filter.1 hk).2.1
      (Finset.mem_filter.1 hk').2.1).symm
  rw [himage]
  refine Finset.card_lt_card ⟨fun k hk => ?_, fun hsub => ?_⟩
  · obtain ⟨k', hk', rfl⟩ := Finset.mem_image.1 hk
    obtain ⟨hown, hf'⟩ := (Finset.mem_filter.1 hk').2
    exact Finset.mem_filter.2 ⟨Finset.mem_univ _, hg k' hown hf'⟩
  · obtain ⟨k, hk, hkk⟩ :=
      Finset.mem_image.1 (hsub (Finset.mem_filter.2 ⟨Finset.mem_univ k₀, hk₀, hf⟩))
    obtain ⟨hown, hf'⟩ := (Finset.mem_filter.1 hk).2
    exact hmiss k hown hf' hkk

/-- Emptying the slots in `own` takes their references away and no others. -/
theorem refs_add_refsIn {own : K → Prop} [DecidablePred own] {t t' : K → Option F}
    (hown : ∀ k, own k → t' k = none) (hother : ∀ k, ¬ own k → t' k = t k) (f : F) :
    refs t' f + refsIn own t f = refs t f := by
  have hset : (Finset.univ.filter fun k => t' k = some f) =
      Finset.univ.filter fun k => ¬ own k ∧ t k = some f := by
    ext k
    by_cases hk : own k
    · simp [hown k hk, hk]
    · simp [hother k hk, hk]
  have hsplit := Finset.card_filter_add_card_filter_not
    (s := Finset.univ.filter fun k => t k = some f) (p := own)
  rw [Finset.filter_filter, Finset.filter_filter] at hsplit
  rw [refs, refsIn, refs, hset, ← hsplit, Nat.add_comm]
  simp only [and_comm]

/-! ## The accounting invariant -/

/-- The accounting invariant, for a set `node` of slots that share with nobody and a set `res` of
resources kept out of the accounting. -/
structure Ok (node : K → Prop) (res : F → Prop) (L : Ledger K F) : Prop where
  /-- The free list has no repetition. -/
  nodup : L.free.Nodup
  /-- Nothing points at a free resource. -/
  free_unref : ∀ f ∈ L.free, ∀ k, L.target k ≠ some f
  /-- A reserved resource is never free. -/
  free_res : ∀ f ∈ L.free, ¬ res f
  /-- Nothing points at a reserved resource. -/
  target_res : ∀ k f, L.target k = some f → ¬ res f
  /-- The stored count is the number of references. -/
  ref_eq : ∀ f, ¬ res f → L.ref f = refs L.target f
  /-- What a node points at, nothing else does. -/
  node_unique : ∀ k f, node k → L.target k = some f → ∀ k', L.target k' = some f → k' = k

variable {node : K → Prop} {res : F → Prop} {L : Ledger K F}

theorem Ok.ref_free (h : Ok node res L) {f : F} (hf : f ∈ L.free) : L.ref f = 0 := by
  rw [h.ref_eq f (h.free_res f hf), refs_eq_zero_iff]
  exact h.free_unref f hf

theorem Ok.refs_node (h : Ok node res L) {k : K} {f : F} (hk : node k)
    (hf : L.target k = some f) : refs L.target f = 1 :=
  refs_eq_one hf (h.node_unique k f hk hf)

/-- Take the first resource off the free list. -/
def take (L : Ledger K F) : Ledger K F := { L with free := L.free.tail }

theorem Ok.take (h : Ok node res L) : Ok node res L.take where
  nodup := h.nodup.tail
  free_unref f hf := h.free_unref f (List.mem_of_mem_tail hf)
  free_res f hf := h.free_res f (List.mem_of_mem_tail hf)
  target_res := h.target_res
  ref_eq := h.ref_eq
  node_unique := h.node_unique

variable [DecidableEq K]

/-- Make the slot `k` point at `f` and count the reference. -/
def link (L : Ledger K F) (k : K) (f : F) : Ledger K F where
  target := Function.update L.target k (some f)
  ref := Function.update L.ref f (L.ref f + 1)
  free := L.free

/-- Filling an empty slot keeps the accounts, provided the resource is neither free nor reserved,
and provided no node is made to share. -/
theorem Ok.link (h : Ok node res L) {k : K} {f : F} (hk : L.target k = none) (hfree : f ∉ L.free)
    (hres : ¬ res f) (hnode : ∀ k', L.target k' = some f → ¬ node k' ∧ ¬ node k) :
    Ok node res (L.link k f) where
  nodup := h.nodup
  free_unref g hg k' := by
    show Function.update L.target k (some f) k' ≠ some g
    by_cases hkk : k' = k
    · subst hkk
      rw [Function.update_self]
      rintro ⟨⟩
      exact hfree hg
    · rw [Function.update_of_ne hkk]
      exact h.free_unref g hg k'
  free_res := h.free_res
  target_res k' g hg := by
    change Function.update L.target k (some f) k' = some g at hg
    by_cases hkk : k' = k
    · subst hkk
      rw [Function.update_self] at hg
      cases hg
      exact hres
    · rw [Function.update_of_ne hkk] at hg
      exact h.target_res k' g hg
  ref_eq g hg := by
    show Function.update L.ref f (L.ref f + 1) g = refs (Function.update L.target k (some f)) g
    rw [refs_update_some hk]
    by_cases hfg : f = g
    · subst hfg
      rw [Function.update_self, h.ref_eq f hg, if_pos rfl]
    · rw [Function.update_of_ne (Ne.symm hfg), h.ref_eq g hg, if_neg hfg, Nat.add_zero]
  node_unique k₁ g hn h1 k₂ h2 := by
    change Function.update L.target k (some f) k₁ = some g at h1
    change Function.update L.target k (some f) k₂ = some g at h2
    by_cases hk1 : k₁ = k <;> by_cases hk2 : k₂ = k
    · rw [hk1, hk2]
    · rw [hk1, Function.update_self] at h1
      cases h1
      rw [Function.update_of_ne hk2] at h2
      exact absurd (hk1 ▸ hn) (hnode k₂ h2).2
    · rw [hk2, Function.update_self] at h2
      cases h2
      rw [Function.update_of_ne hk1] at h1
      exact absurd hn (hnode k₁ h1).1
    · rw [Function.update_of_ne hk1] at h1
      rw [Function.update_of_ne hk2] at h2
      exact h.node_unique k₁ g hn h1 k₂ h2

/-- Empty the slot `k`, which points at `f`, and free `f` if that was its last reference. -/
def unlink (L : Ledger K F) (k : K) (f : F) : Ledger K F where
  target := Function.update L.target k none
  ref := Function.update L.ref f (L.ref f - 1)
  free := if L.ref f = 1 then f :: L.free else L.free

theorem Ok.unlink (h : Ok node res L) {k : K} {f : F} (hk : L.target k = some f) :
    Ok node res (L.unlink k f) := by
  have hres : ¬ res f := h.target_res k f hk
  have href : L.ref f = refs L.target f := h.ref_eq f hres
  have hnot : f ∉ L.free := fun hf => h.free_unref f hf k hk
  have hold : ∀ {k' : K} {g : F}, Function.update L.target k none k' = some g →
      L.target k' = some g := by
    intro k' g hg
    by_cases hkk : k' = k
    · rw [hkk, Function.update_self] at hg
      exact absurd hg (by simp)
    · rwa [Function.update_of_ne hkk] at hg
  have hmem : ∀ {g : F}, g ∈ (L.unlink k f).free → g ∈ L.free ∨ (g = f ∧ L.ref f = 1) := by
    intro g hg
    simp only [Ledger.unlink] at hg
    split at hg
    · rename_i h1
      rcases List.mem_cons.1 hg with rfl | hg
      · exact Or.inr ⟨rfl, h1⟩
      · exact Or.inl hg
    · exact Or.inl hg
  refine ⟨?_, ?_, ?_, ?_, ?_, ?_⟩
  · simp only [Ledger.unlink]
    split
    · exact List.nodup_cons.2 ⟨hnot, h.nodup⟩
    · exact h.nodup
  · intro g hg k' hk'
    rcases hmem hg with hg | ⟨rfl, h1⟩
    · exact h.free_unref g hg k' (hold hk')
    · -- the last reference is the one just removed
      have hz := refs_update_none hk g
      rw [if_pos rfl, ← href, h1] at hz
      have hzero : refs (Function.update L.target k none) g = 0 := by omega
      exact refs_eq_zero_iff.1 hzero k' hk'
  · intro g hg
    rcases hmem hg with hg | ⟨rfl, -⟩
    · exact h.free_res g hg
    · exact hres
  · exact fun k' g hg => h.target_res k' g (hold hg)
  · intro g hg
    have hz := refs_update_none hk g
    show Function.update L.ref f (L.ref f - 1) g = refs (Function.update L.target k none) g
    by_cases hfg : f = g
    · subst hfg
      rw [if_pos rfl] at hz
      rw [Function.update_self, href]
      omega
    · rw [if_neg hfg] at hz
      rw [Function.update_of_ne (Ne.symm hfg), h.ref_eq g hg]
      omega
  · exact fun k₁ g hn h1 k₂ h2 => h.node_unique k₁ g hn (hold h1) k₂ (hold h2)

/-! ## Dropping many references -/

/-- `L'` is what is left of `L` after some slots have been emptied, one by one: their resources have
lost references, and those that lost their last one are now free. -/
structure Shed (L L' : Ledger K F) : Prop where
  target : ∀ k f, L'.target k = some f → L.target k = some f
  ref_le : ∀ f, L'.ref f ≤ L.ref f
  /-- Nothing happens to what nothing points at. -/
  ref_eq : ∀ f, (∀ k, L.target k ≠ some f) → L'.ref f = L.ref f
  free : ∃ new, L'.free = new ++ L.free ∧ ∀ f, f ∈ new ↔ L'.ref f = 0 ∧ L.ref f ≠ 0

omit [Fintype K] [DecidableEq F] [DecidableEq K] in
theorem Shed.refl (L : Ledger K F) : Shed L L :=
  ⟨fun _ _ h => h, fun _ => Nat.le_refl _, fun _ _ => rfl, [], rfl, fun f => by simp⟩

omit [Fintype K] in
/-- Emptying one more slot. -/
theorem Shed.unlink {L' : Ledger K F} (h : Shed L L') {k : K} {f : F} (hk : L'.target k = some f)
    (hpos : 0 < L'.ref f) : Shed L (L'.unlink k f) := by
  have href : ∀ g, (L'.unlink k f).ref g = if g = f then L'.ref f - 1 else L'.ref g := fun g => by
    simp [Ledger.unlink, Function.update_apply]
  refine ⟨fun k' g hg => h.target k' g ?_, fun g => ?_, fun g hg => ?_, ?_⟩
  · by_cases hkk : k' = k
    · rw [hkk] at hg
      simp [Ledger.unlink] at hg
    · simpa [Ledger.unlink, Function.update_of_ne hkk] using hg
  · rw [href]
    have hle := h.ref_le g
    split
    · rename_i hgf
      rw [hgf] at hle ⊢
      omega
    · exact hle
  · have hne : g ≠ f := by
      rintro rfl
      exact hg k (h.target k g hk)
    rw [href, if_neg hne]
    exact h.ref_eq g hg
  · obtain ⟨new, hfree, hnew⟩ := h.free
    have hle := h.ref_le f
    by_cases h1 : L'.ref f = 1
    · refine ⟨f :: new, by simp [Ledger.unlink, h1, hfree], fun g => ?_⟩
      rw [List.mem_cons, href, hnew]
      by_cases hgf : g = f
      · subst hgf
        simp only [true_or, if_pos, true_iff]
        omega
      · simp [hgf]
    · refine ⟨new, by simp [Ledger.unlink, h1, hfree], fun g => ?_⟩
      rw [href, hnew]
      by_cases hgf : g = f
      · subst hgf
        simp only [if_pos]
        omega
      · simp [hgf]

end Ledger
