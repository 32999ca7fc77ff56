import Jos.Boot
import Jos.Alloc.Syscall

/-!
# The free list that `page_init` builds

`page_init` makes one pass over `pages` and writes every entry: it puts the page at the front of the
list, or takes it for used.  So the list ends up in decreasing order and holds what is not kept
back, whatever the array held before.
-/

set_option autoImplicit false

namespace Jos

open Kernel Command

variable {basemem : Nat} {nextfree : Word}

/-- The pages that are kept back: page 0, the entry code of the other CPUs, the I/O hole, the
kernel, and what `boot_alloc` handed out. -/
def KeptBack (basemem : Nat) (nextfree : Word) (i : Nat) : Prop :=
  i = 0 ∨ i = pgnum mpentryPaddr ∨ basemem ≤ i ∧
    (i ≤ pgnum extphysmem ∨ i < pgnum (nextfree - kernbase))

instance (basemem : Nat) (nextfree : Word) (i : Nat) : Decidable (KeptBack basemem nextfree i) := by
  unfold KeptBack; infer_instance

/-- The pages of `l` that are not, the last one first. -/
def initFree (basemem : Nat) (nextfree : Word) (l : List Nat) : List Nat :=
  (l.filter fun i => ¬ KeptBack basemem nextfree i).reverse

theorem mem_initFree {l : List Nat} {i : Nat} :
    i ∈ initFree basemem nextfree l ↔ i ∈ l ∧ ¬ KeptBack basemem nextfree i := by
  simp [initFree]

theorem initFree_keep {i : Nat} (h : KeptBack basemem nextfree i) (l : List Nat) :
    initFree basemem nextfree (l ++ [i]) = initFree basemem nextfree l := by
  simp [initFree, h]

theorem initFree_free {i : Nat} (h : ¬ KeptBack basemem nextfree i) (l : List Nat) :
    initFree basemem nextfree (l ++ [i]) = i :: initFree basemem nextfree l := by
  simp [initFree, h]

/-- The list is in decreasing order. -/
theorem initFree_sorted (basemem : Nat) (nextfree : Word) (n : Nat) :
    (initFree basemem nextfree (List.range n)).Pairwise (· > ·) :=
  List.pairwise_reverse.2 (List.pairwise_lt_range.filter _)

/-! ## The loop -/

theorem links_setPage (s : Kernel) (p : Nat) (info : PageInfo) :
    (s.setPage p info).links = Function.update s.links p info.ppLink := by
  funext q
  by_cases hq : q = p
  · subst hq; simp [links]
  · simp [links, hq]

/-- The invariant of the loop of `page_init`, once it has dealt with `pre`. -/
structure PageInit (basemem : Nat) (nextfree : Word) (s : Kernel) (pre : List Nat) (t : Kernel) :
    Prop where
  memOnly : MemOnly s t
  mem : t.mem = s.mem
  chain : Chain t.links t.pageFreeList (initFree basemem nextfree pre)
  zero : ∀ p ∈ initFree basemem nextfree pre, (t.pages p).ppRef = 0#16

namespace PageInit

variable {s t : Kernel} {pre : List Nat} {i : Nat}

theorem not_mem (hi : i ∉ pre) : i ∉ initFree basemem nextfree pre :=
  fun h => hi (mem_initFree.1 h).1

/-- A page that is kept back. -/
theorem keep (h : PageInit basemem nextfree s pre t) (hi : i ∉ pre)
    (hk : KeptBack basemem nextfree i) (ref : BitVec 16) :
    PageInit basemem nextfree s (pre ++ [i]) (t.setPage i ⟨none, ref⟩) where
  memOnly := MemOnly.trans _ _ _ h.memOnly rfl
  mem := h.mem
  chain := by
    rw [links_setPage, initFree_keep hk]
    exact h.chain.update (not_mem hi) none
  zero p hp := by
    rw [initFree_keep hk] at hp
    have hne : p ≠ i := fun hpi => not_mem hi (hpi ▸ hp)
    rw [setPage_pages, Function.update_of_ne hne]
    exact h.zero p hp

/-- A page that is put on the list. -/
theorem free (h : PageInit basemem nextfree s pre t) (hi : i ∉ pre)
    (hk : ¬ KeptBack basemem nextfree i) :
    PageInit basemem nextfree s (pre ++ [i])
      { t.setPage i ⟨t.pageFreeList, 0#16⟩ with pageFreeList := some i } where
  memOnly := MemOnly.trans _ _ _ h.memOnly rfl
  mem := h.mem
  chain := by
    have hl : ({ t.setPage i ⟨t.pageFreeList, 0#16⟩ with pageFreeList := some i } : Kernel).links =
        Function.update t.links i t.pageFreeList := links_setPage t i _
    rw [hl, initFree_free hk]
    exact h.chain.push (not_mem hi)
  zero p hp := by
    rw [initFree_free hk] at hp
    by_cases hpi : p = i
    · subst hpi
      simp
    · simpa [hpi] using h.zero p ((List.mem_cons.1 hp).resolve_left hpi)

/-- The two ways `page_init` deals with a page. -/
theorem step (hi : i ∉ pre) :
    Triple (PageInit basemem nextfree s pre) (pageInitOne basemem nextfree i)
      (fun _ => PageInit basemem nextfree s (pre ++ [i])) fun _ _ => False := by
  have hkeep : ∀ f : Kernel → BitVec 16, KeptBack basemem nextfree i →
      Triple (PageInit basemem nextfree s pre)
        (modify fun s => s.setPage i ⟨none, f s⟩ : KernelM Unit)
        (fun _ => PageInit basemem nextfree s (pre ++ [i])) fun _ _ => False :=
    fun f hr => Triple.modify fun t ht => ht.keep hi hr (f t)
  have hfree : ¬ KeptBack basemem nextfree i →
      Triple (PageInit basemem nextfree s pre) (pageInitFree i)
        (fun _ => PageInit basemem nextfree s (pre ++ [i])) fun _ _ => False := by
    intro hr t ht
    exact ht.free hi hr
  refine Triple.ite (fun h0 => ?_) fun h0 => Triple.ite (fun h1 => ?_) fun h1 =>
    Triple.ite (fun h2 => ?_) fun h2 => Triple.ite (fun h3 => ?_) fun h3 => ?_
  · subst h0
    exact hkeep _ (Or.inl rfl)
  · exact hkeep _ (Or.inr (Or.inl h1))
  · refine hfree ?_
    rintro (hr | hr | hr)
    · exact h0 hr
    · exact h1 hr
    · omega
  · exact hkeep _ (Or.inr (Or.inr ⟨Nat.not_lt.1 h2, h3⟩))
  · refine hfree ?_
    rintro (hr | hr | hr)
    · exact h0 hr
    · exact h1 hr
    · exact h3 hr.2

end PageInit

/-- `page_init` returns, with everything that is not kept back on the free list. -/
theorem pageInit_run (basemem : Nat) (nextfree : Word) (s : Kernel) :
    ∃ t, (pageInit basemem nextfree).run s = .ok () t ∧ MemOnly s t ∧ t.mem = s.mem ∧
      Chain t.links t.pageFreeList (initFree basemem nextfree (List.range s.npages)) ∧
      ∀ p ∈ initFree basemem nextfree (List.range s.npages), (t.pages p).ppRef = 0#16 := by
  have hloop := Triple.forM_prefix (E := fun _ _ => False)
    (I := PageInit basemem nextfree { s with pageFreeList := none })
    (List.range s.npages) fun pre i post hl => by
      refine PageInit.step fun hi => ?_
      have hnd := List.nodup_range (n := s.npages)
      rw [hl] at hnd
      exact (List.nodup_append.1 hnd).2.2 i hi i List.mem_cons_self rfl
  have hstart : PageInit basemem nextfree { s with pageFreeList := none } []
      { s with pageFreeList := none } :=
    ⟨rfl, rfl, rfl, fun p hp => absurd hp (by simp [initFree])⟩
  have hrun : (pageInit basemem nextfree).run s =
      ((List.range s.npages).forM (pageInitOne basemem nextfree)).run
        { s with pageFreeList := none } := rfl
  have h := hloop _ hstart
  rw [hrun]
  cases hr : ((List.range s.npages).forM (pageInitOne basemem nextfree)).run
    { s with pageFreeList := none } with
  | error x t =>
    rw [hr] at h
    exact h.elim
  | ok a t =>
    rw [hr] at h
    exact ⟨t, rfl, MemOnly.trans s { s with pageFreeList := none } t rfl h.memOnly, h.mem, h.chain,
      h.zero⟩

/-! ## What is on the list -/

/-- What is not kept back, with the kernel's memory ending at `nextfree`. -/
theorem not_keptBack_iff (h : kernbase ≤ nextfree) (i : Nat) : ¬ KeptBack basemem nextfree i ↔
    i ≠ 0 ∧ i ≠ pgnum mpentryPaddr ∧ (i < basemem ∨
      (pgnum extphysmem < i ∧ (nextfree.toNat - kernbase.toNat) / 4096 ≤ i)) := by
  have hend : pgnum (nextfree - kernbase) = (nextfree.toNat - kernbase.toNat) / 4096 := by
    rw [pgnum_eq, BitVec.toNat_sub_of_le h]
  rw [KeptBack, hend]
  omega

/-- **`page_init` builds the right free list**: without a repetition and in decreasing order, the
pages from 1 to `npages` without that of the entry code, the I/O hole and the kernel's memory. -/
theorem pageInit_freeList (s : Kernel) (npagesBasemem : Nat) (hnext : kernbase < nextfree) :
    ∃ t fl, (pageInit npagesBasemem nextfree).run s = .ok () t ∧
      Chain t.links t.pageFreeList fl ∧ fl.Pairwise (· > ·) ∧
      (∀ i, i ∈ fl ↔ i < s.npages ∧ i ≠ 0 ∧ i ≠ pgnum mpentryPaddr ∧ (i < npagesBasemem ∨
        (pgnum extphysmem < i ∧ (nextfree.toNat - kernbase.toNat) / 4096 ≤ i))) ∧
      ∀ i ∈ fl, (t.pages i).ppRef = 0#16 := by
  obtain ⟨t, hrun, -, -, hchain, hzero⟩ := pageInit_run npagesBasemem nextfree s
  refine ⟨t, _, hrun, hchain, initFree_sorted _ _ _, fun i => ?_, hzero⟩
  rw [mem_initFree, List.mem_range, not_keptBack_iff (BitVec.le_of_lt hnext)]

theorem pageInit_freeList_small : ∃ t fl, (pageInit 160 0xF0400000#32).run oneEnv = .ok () t ∧
    Chain t.links t.pageFreeList fl ∧ fl.Pairwise (· > ·) ∧
    (∀ i, i ∈ fl ↔ i < 4 ∧ i ≠ 0 ∧ i ≠ pgnum mpentryPaddr ∧ (i < 160 ∨
      (pgnum extphysmem < i ∧ ((0xF0400000#32 : Word).toNat - kernbase.toNat) / 4096 ≤ i))) ∧
    ∀ i ∈ fl, (t.pages i).ppRef = 0#16 :=
  pageInit_freeList oneEnv 160 (by decide)

end Jos
