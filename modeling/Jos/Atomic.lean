import Jos.Syscall
import Jos.Alloc.Inv
import Jos.Env.Effect

/-!
# A failed system call changes nothing

A system call that returns an error leaves the environments, the page descriptors, the free list,
every page directory and page table, and the contents of every page that is not free as they were.
What it may have done in between, it has undone: `sys_page_alloc` takes a page and clears it before
it finds out that there is no room for a page table, and gives the page back.

All that is assumed of the state is that the free list is a list of pages nobody refers to.  Memory
may otherwise be in any shape at all; where that makes the call panic, it does not return.
-/

set_option autoImplicit false

namespace Jos

open Kernel Command

variable {s s' : Kernel} {fl : List Nat}

/-! ## What is to stay the same -/

namespace Kernel

/-- The pages in use as page directories. -/
def IsDirectory (s : Kernel) (d : Nat) : Prop :=
  d = s.kernPgdir ∨ ∃ e, (s.envs e).envPgdir = some d

/-- The pages in use as page tables. -/
def IsPageTable (s : Kernel) (t : Nat) : Prop :=
  ∃ d, s.IsDirectory d ∧ ∃ i, framed (s.mem d i) = some t

/-- The pages mapped below `UTOP`. -/
def IsMapped (s : Kernel) (p : Nat) : Prop :=
  ∃ d, s.IsDirectory d ∧ ∃ i : Index, i.val < userPdes ∧ ∃ t, framed (s.mem d i) = some t ∧
    ∃ j, framed (s.mem t j) = some p

end Kernel

/-- `page_free_list` leads through the pages `fl`, and nothing refers to any of them. -/
structure FreeListOk (fl : List Nat) (s : Kernel) : Prop where
  chain : Chain s.links s.pageFreeList fl
  lt : ∀ p ∈ fl, p < s.npages
  not_directory : ∀ p ∈ fl, ¬ s.IsDirectory p
  not_pageTable : ∀ p ∈ fl, ¬ s.IsPageTable p
  not_mapped : ∀ p ∈ fl, ¬ s.IsMapped p

/-- Nothing a caller could tell apart: only pages on the free list may differ in contents. -/
structure Unchanged (fl : List Nat) (s s' : Kernel) : Prop where
  envs : s'.envs = s.envs
  envFreeList : s'.envFreeList = s.envFreeList
  pageFreeList : Chain s'.links s'.pageFreeList fl
  ppRef : ∀ p, (s'.pages p).ppRef = (s.pages p).ppRef
  directory : ∀ d, s.IsDirectory d → s'.mem d = s.mem d
  pageTable : ∀ t, s.IsPageTable t → s'.mem t = s.mem t
  mem : ∀ p, p ∉ fl → s'.mem p = s.mem p

theorem Unchanged.refl (h : FreeListOk fl s) : Unchanged fl s s :=
  ⟨rfl, rfl, h.chain, fun _ => rfl, fun _ _ => rfl, fun _ _ => rfl, fun _ _ => rfl⟩

/-- Taking a page off the free list, clearing it and putting it back. -/
theorem Unchanged.put_back {pp : Nat} (h : FreeListOk fl s) (hpp : s.pageFreeList = some pp) :
    Unchanged fl s (((s.pop pp).fill pp fun _ => 0#32).push pp) := by
  obtain ⟨l, rfl, -⟩ := (hpp ▸ h.chain : Chain s.links (some pp) fl).exists_cons
  have hmem : ∀ p, p ≠ pp → (((s.pop pp).fill pp fun _ => 0#32).push pp).mem p = s.mem p := by
    intro p hp
    show Function.update s.mem pp _ p = s.mem p
    exact Function.update_of_ne hp _ _
  have hpages : (((s.pop pp).fill pp fun _ => 0#32).push pp).pages = s.pages := by
    show Function.update s.pages pp { s.pages pp with ppLink := (s.pages pp).ppLink } = s.pages
    exact Function.update_eq_self _ _
  refine ⟨rfl, rfl, ?_, fun p => by rw [hpages], fun d hd => hmem d ?_, fun t ht => hmem t ?_,
    fun p hp => hmem p ?_⟩
  · have hlinks : (((s.pop pp).fill pp fun _ => 0#32).push pp).links = s.links := by
      funext p
      rw [links, hpages]
      rfl
    rw [hlinks]
    exact ⟨rfl, h.chain.2⟩
  · rintro rfl
    exact h.not_directory d List.mem_cons_self hd
  · rintro rfl
    exact h.not_pageTable t List.mem_cons_self ht
  · rintro rfl
    exact hp List.mem_cons_self

/-! ## The ways to fail -/

/-- `page_alloc`: the page returned was the head of the list. -/
theorem pageAlloc_exact (h : FreeListOk fl s) :
    Triple (fun t => t = s) (pageAlloc true)
      (fun r t => (r = none ∧ t = s) ∨ ∃ pp, r = some pp ∧ s.pageFreeList = some pp ∧
        t = (s.pop pp).fill pp fun _ => 0#32) fun _ _ => True := by
  rintro t rfl
  cases hf : t.pageFreeList with
  | none =>
    rw [pageAlloc_none hf]
    exact Or.inl ⟨rfl, rfl⟩
  | some pp =>
    obtain ⟨l, rfl, -⟩ := (hf ▸ h.chain : Chain t.links (some pp) fl).exists_cons
    rw [pageAlloc_zero hf (h.lt pp List.mem_cons_self)]
    exact Or.inr ⟨pp, rfl, rfl, rfl⟩

/-- `page_alloc` fails before it does anything. -/
theorem pageAlloc_fail (s : Kernel) :
    Triple (fun t => t = s) (pageAlloc true) (fun r t => r = none → t = s) fun _ _ => True := by
  refine Triple.get_bind fun s₀ hs₀ => ?_
  subst hs₀
  split
  · exact Triple.pure fun t ht _ => ht
  · refine Triple.bind Triple.top fun _ => Triple.ite (fun _ => ?_) fun _ => ?_
    · exact Triple.bind Triple.top fun _ => Triple.bind Triple.top fun _ =>
        Triple.pure fun _ _ hn => absurd hn (by simp)
    · exact Triple.pure fun _ _ hn => absurd hn (by simp)

/-- `pgdir_walk` fails before it does anything. -/
theorem pgdirWalk_fail (s : Kernel) (pgdir : Nat) (va : Word) :
    Triple (fun t => t = s) (pgdirWalk pgdir va true) (fun r t => r = none → t = s)
      fun _ _ => True := by
  refine Triple.bind ((loadWord_reads _ _).triple s) fun pde => Triple.ite (fun _ => ?_) fun _ => ?_
  · exact Triple.bind Triple.top fun _ => Triple.pure fun _ _ hn => absurd hn (by simp)
  · refine Triple.ite (fun hc => absurd hc (by simp)) fun _ => ?_
    refine Triple.bind (pageAlloc_fail s) fun r => ?_
    cases r with
    | none => exact Triple.pure fun t ht _ => ht rfl
    | some pp =>
      refine Triple.bind Triple.top fun _ => Triple.bind Triple.top fun _ =>
        Triple.bind Triple.top fun _ => ?_
      exact Triple.pure fun _ _ hn => absurd hn (by simp)

/-- `page_insert` succeeds, or has done nothing: it only fails for want of a page table. -/
theorem pageInsert_fail (s : Kernel) (pgdir pp : Nat) (va perm : Word) :
    Triple (fun t => t = s) (pageInsert pgdir pp va perm)
      (fun r t => r = 0#32 ∨ r = -eNoMem ∧ t = s) fun _ _ => True := by
  have hat : ∀ pte, Triple (fun _ => True) (pageInsertAt pgdir pp va perm pte)
      (fun r t => r = 0#32 ∨ r = -eNoMem ∧ t = s) fun _ _ => True := fun pte =>
    Triple.bind Triple.top fun _ => Triple.bind Triple.top fun _ => Triple.bind Triple.top fun _ =>
      Triple.pure fun _ _ => Or.inl rfl
  refine Triple.bind ((pgdirWalk_reads _ _).triple s) fun r => ?_
  cases r with
  | none =>
    refine Triple.bind (pgdirWalk_fail s pgdir va) fun r => ?_
    cases r with
    | none => exact Triple.pure fun t ht => Or.inr ⟨rfl, ht rfl⟩
    | some pte => exact (hat pte).conseq (fun _ _ => trivial) (fun _ _ h => h) fun _ _ h => h
  | some pte =>
    have htail : Triple (fun _ => True) (do
        if (← get).pageFreeList = some pp then
          modify fun s => { s with pageFreeList := (s.pages pp).ppLink }
        pageInsertAt pgdir pp va perm pte : KernelM Word)
        (fun r t => r = 0#32 ∨ r = -eNoMem ∧ t = s) fun _ _ => True := by
      refine Triple.bind Triple.top fun s₀ => Triple.ite (fun _ => ?_) fun _ => hat pte
      exact Triple.bind Triple.top fun _ => hat pte
    refine Triple.bind Triple.top fun w => Triple.ite (fun _ => ?_) fun _ => htail
    exact Triple.bind Triple.top fun _ => htail

/-! ## The system calls -/

section

variable (s fl) in
/-- The outcomes allowed: no error, or nothing changed. -/
def Atomic (r : Word) (t : Kernel) : Prop := r.toInt < 0 → Unchanged fl s t

theorem atomic_zero (t : Kernel) : Atomic s fl 0#32 t := fun h => absurd h (by decide)

theorem atomic_refl (h : FreeListOk fl s) (r : Word) {t : Kernel} (ht : t = s) : Atomic s fl r t :=
  fun _ => ht.symm ▸ Unchanged.refl h

theorem sysPageAlloc_atomic (h : FreeListOk fl s) (envid va perm : Word) :
    Triple (fun t => t = s) (sysPageAlloc envid va perm) (Atomic s fl) fun _ _ => True := by
  refine Triple.bind ((envid2env_reads _ _).triple s) fun r => ?_
  have hret : ∀ w, Triple (fun t => t = s) (pure w : KernelM Word) (Atomic s fl) fun _ _ => True :=
    fun w => Triple.pure fun t ht => atomic_refl h w ht
  refine Triple.ite (fun _ => hret _) fun _ => Triple.ite (fun _ => hret _) fun _ =>
    Triple.ite (fun _ => hret _) fun _ => Triple.ite (fun _ => hret _) fun _ => ?_
  refine Triple.bind (pageAlloc_exact h) fun o => ?_
  cases o with
  | none =>
    refine Triple.pure fun t ht => ?_
    rcases ht with ⟨-, ht⟩ | ⟨pp, hpp, -⟩
    · exact atomic_refl h _ ht
    · exact absurd hpp (by simp)
  | some pp =>
    refine fun t ht => ?_
    rcases ht with ⟨hn, -⟩ | ⟨pp', hpp, hf, rfl⟩
    · exact absurd hn (by simp)
    obtain rfl : pp = pp' := Option.some_inj.1 hpp
    generalize hs₁ : ((s.pop pp).fill pp fun _ => 0#32) = s₁
    refine (Triple.bind ((derefEnv_reads _).triple s₁) fun e => ?_ :
      Triple (fun t => t = s₁) _ (Atomic s fl) fun _ _ => True) s₁ rfl
    refine Triple.get_bind fun s₂ hs₂ => ?_
    subst hs₂
    refine Triple.bind ((derefPgdir_reads _).triple s₂) fun d => ?_
    refine Triple.bind (pageInsert_fail s₂ d pp va perm) fun r => Triple.ite (fun hr => ?_)
      fun _ => ?_
    · -- no page table could be had: the page goes back where it came from
      refine Triple.bind (Q := fun _ t => Unchanged fl s t) ?_ fun _ =>
        Triple.pure fun t ht _ => ht
      rintro t (rfl | ⟨-, rfl⟩)
      · exact absurd hr (by decide)
      · cases hfree : (pageFree pp).run t with
        | error x t' => trivial
        | ok a t' =>
          rw [pageFree_ok hfree, ← hs₁]
          exact Unchanged.put_back h hf
    · exact Triple.pure fun t _ => atomic_zero t

theorem sysPageMap_atomic (h : FreeListOk fl s) (srcenvid srcva dstenvid dstva perm : Word) :
    Triple (fun t => t = s) (sysPageMap srcenvid srcva dstenvid dstva perm) (Atomic s fl)
      fun _ _ => True := by
  have hret : ∀ w, Triple (fun t => t = s) (pure w : KernelM Word) (Atomic s fl) fun _ _ => True :=
    fun w => Triple.pure fun t ht => atomic_refl h w ht
  refine Triple.bind ((envid2env_reads _ _).triple s) fun r => Triple.ite (fun _ => hret _)
    fun _ => ?_
  refine Triple.bind ((envid2env_reads _ _).triple s) fun r => Triple.ite (fun _ => hret _)
    fun _ => ?_
  refine Triple.ite (fun _ => hret _) fun _ => Triple.ite (fun _ => hret _) fun _ => ?_
  refine Triple.bind ((derefEnv_reads _).triple s) fun e => Triple.get_bind fun s₀ hs₀ => ?_
  subst hs₀
  refine Triple.bind ((derefPgdir_reads _).triple s₀) fun d => ?_
  refine Triple.bind ((pageLookup_reads _ _).triple s₀) fun o => ?_
  cases o with
  | none => exact hret _
  | some o =>
    refine Triple.bind ((loadWord_reads _ _).triple s₀) fun w => Triple.ite (fun _ => hret _)
      fun _ => ?_
    refine Triple.bind ((derefEnv_reads _).triple s₀) fun e => Triple.get_bind fun s₁ hs₁ => ?_
    subst hs₁
    refine Triple.bind ((derefPgdir_reads _).triple s₁) fun d' => ?_
    refine Triple.bind (pageInsert_fail s₁ d' o.1 dstva perm) fun r => Triple.ite (fun hr => ?_)
      fun _ => Triple.pure fun t _ => atomic_zero t
    refine Triple.pure fun t ht => ?_
    rcases ht with ht | ⟨-, ht⟩
    · exact absurd ht hr
    · exact atomic_refl h _ ht

theorem sysPageUnmap_atomic (h : FreeListOk fl s) (envid va : Word) :
    Triple (fun t => t = s) (sysPageUnmap envid va) (Atomic s fl) fun _ _ => True := by
  refine Triple.bind ((envid2env_reads _ _).triple s) fun r =>
    Triple.ite (fun _ => Triple.pure fun t ht => atomic_refl h _ ht) fun _ =>
      Triple.ite (fun _ => Triple.pure fun t ht => atomic_refl h _ ht) fun _ => ?_
  refine Triple.bind Triple.top fun e => Triple.bind Triple.top fun s₀ =>
    Triple.bind Triple.top fun d => Triple.bind Triple.top fun _ => ?_
  exact Triple.pure fun t _ => atomic_zero t

theorem sysEnvDestroy_atomic (h : FreeListOk fl s) (envid : Word) :
    Triple (fun t => t = s) (sysEnvDestroy envid) (Atomic s fl) fun _ _ => True := by
  refine Triple.bind ((envid2env_reads _ _).triple s) fun r =>
    Triple.ite (fun _ => Triple.pure fun t ht => atomic_refl h _ ht) fun _ => ?_
  exact Triple.bind Triple.top fun e => Triple.bind Triple.top fun _ =>
    Triple.pure fun t _ => atomic_zero t

theorem sysEnvSetStatus_atomic (h : FreeListOk fl s) (envid status : Word) :
    Triple (fun t => t = s) (sysEnvSetStatus envid status) (Atomic s fl) fun _ _ => True := by
  refine Triple.bind ((envid2env_reads _ _).triple s) fun r =>
    Triple.ite (fun _ => Triple.pure fun t ht => atomic_refl h _ ht) fun _ => ?_
  split
  · exact Triple.pure fun t ht => atomic_refl h _ ht
  · exact Triple.bind Triple.top fun e => Triple.bind Triple.top fun _ =>
      Triple.pure fun t _ => atomic_zero t

theorem sysEnvSetPgfaultUpcall_atomic (h : FreeListOk fl s) (envid func : Word) :
    Triple (fun t => t = s) (sysEnvSetPgfaultUpcall envid func) (Atomic s fl) fun _ _ => True := by
  refine Triple.bind ((envid2env_reads _ _).triple s) fun r =>
    Triple.ite (fun _ => Triple.pure fun t ht => atomic_refl h _ ht) fun _ => ?_
  refine Triple.bind Triple.top fun e => ?_
  generalize userMemAssert e func 4#32 0#32 = check
  exact Triple.bind Triple.top fun _ => Triple.bind Triple.top fun _ =>
    Triple.pure fun t _ => atomic_zero t

/-! ### `sys_exofork` -/

/-- An environment id is a positive number. -/
theorem nextEnvId_toInt (old : Word) (e : EnvIndex) : 0 ≤ (nextEnvId old e).toInt := by
  have hlt : (nextEnvId old e).toNat < 2 ^ 31 := by
    have he : (BitVec.ofNat 32 e.val).toNat < 2 ^ 31 := by
      have := e.isLt
      rw [BitVec.toNat_ofNat]
      omega
    rw [nextEnvId, BitVec.toNat_or]
    refine Nat.or_lt_two_pow ?_ he
    split
    · decide
    · rename_i hpos
      rw [BitVec.toInt_eq_toNat_cond] at hpos
      split at hpos
      · omega
      · omega
  rw [BitVec.toInt_eq_toNat_cond, if_pos (by omega)]
  exact Int.natCast_nonneg _

theorem envSetupVm_fail (s : Kernel) (e : EnvIndex) :
    Triple (fun t => t = s) (envSetupVm e) (fun r t => r = 0#32 ∨ t = s) fun _ _ => True := by
  refine Triple.bind (pageAlloc_fail s) fun o => ?_
  cases o with
  | none => exact Triple.pure fun t ht => Or.inr (ht rfl)
  | some p =>
    exact Triple.bind Triple.top fun _ => Triple.bind Triple.top fun _ =>
      Triple.bind Triple.top fun _ => Triple.bind Triple.top fun _ =>
        Triple.bind Triple.top fun _ => Triple.pure fun t _ => Or.inl rfl

/-- `env_alloc` fails without a trace, or returns a slot with a proper id. -/
theorem envAlloc_fail (s : Kernel) (parentId : Word) :
    Triple (fun t => t = s) (envAlloc parentId)
      (fun r t => (r.1.toInt < 0 ∧ t = s) ∨
        (¬ r.1.toInt < 0 ∧ ∀ e, r.2 = some e → 0 ≤ (t.envs e).envId.toInt)) fun _ _ => True := by
  refine Triple.get_bind fun s₀ hs₀ => ?_
  subst hs₀
  cases s₀.envFreeList with
  | none => exact Triple.pure fun t ht => Or.inl ⟨by decide, ht⟩
  | some e =>
    refine Triple.bind (envSetupVm_fail s₀ e) fun r => Triple.ite (fun hr => ?_) fun hr => ?_
    · refine Triple.pure fun t ht => ?_
      rcases ht with rfl | ht
      · exact absurd hr (by decide)
      · exact Or.inl ⟨hr, ht⟩
    · refine Triple.bind (Q := fun _ t => 0 ≤ (t.envs e).envId.toInt)
        (Triple.modify fun t _ => ?_) fun _ => ?_
      · simp [nextEnvId_toInt]
      · refine Triple.bind (Q := fun _ t => 0 ≤ (t.envs e).envId.toInt)
          (Triple.modify fun t ht => ht) fun _ => Triple.pure fun t ht =>
            Or.inr ⟨fun h0 => absurd h0 (by decide : ¬ (0#32).toInt < 0), ?_⟩
        rintro e' ⟨⟩
        exact ht

theorem sysExofork_atomic (h : FreeListOk fl s) :
    Triple (fun t => t = s) sysExofork (Atomic s fl) fun _ _ => True := by
  refine Triple.get_bind fun s₀ hs₀ => ?_
  subst hs₀
  refine Triple.bind ((derefEnv_reads _).triple s₀) fun cur => Triple.get_bind fun s₁ hs₁ => ?_
  subst hs₁
  refine Triple.bind (envAlloc_fail s₁ _) fun r => Triple.ite (fun hr => ?_) fun hr => ?_
  · refine Triple.pure fun t ht => ?_
    rcases ht with ⟨-, ht⟩ | ⟨hr', -⟩
    · exact atomic_refl h _ ht
    · exact absurd hr hr'
  · -- from here on the id of the new environment does not change
    refine Triple.bind (Q := fun e t => 0 ≤ (t.envs e).envId.toInt) ?_ fun e => ?_
    · rintro t (⟨hr', -⟩ | ⟨-, hid⟩)
      · exact absurd hr' hr
      · cases h2 : r.2 with
        | none => trivial
        | some e => exact hid e h2
    · refine Triple.bind (Q := fun _ t => 0 ≤ (t.envs e).envId.toInt)
        (Triple.modify fun t ht => by simpa using ht) fun _ => ?_
      refine Triple.bind (Q := fun _ t => 0 ≤ (t.envs e).envId.toInt)
        (Triple.modify fun t ht => by simpa using ht) fun _ => ?_
      refine Triple.bind (Q := fun _ t => 0 ≤ (t.envs e).envId.toInt)
        (Triple.modify fun t ht => by simpa using ht) fun _ => ?_
      refine Triple.get_bind fun s₂ hs₂ => Triple.pure fun t _ hneg => ?_
      omega

end

/-- **A failed system call is atomic.**  Whatever the state of memory, the current environment and
the arguments, if the free list is a list of unreferenced pages and the call returns a negative
value, then nothing has changed but, at most, the contents of free pages. -/
theorem failed_syscall_unchanged (h : FreeListOk fl s) (c : Syscall) {r : Word}
    (hrun : c.handle.run s = .ok r s') (hneg : r.toInt < 0) : Unchanged fl s s' := by
  suffices hc : Triple (fun t => t = s) c.handle (Atomic s fl) fun _ _ => True from
    hc.of_ok rfl hrun hneg
  cases c with
  | cputs p len => exact Triple.bind Triple.top fun _ => Triple.pure fun t _ => atomic_zero t
  | cgetc => exact Triple.get_bind fun s₀ hs₀ => Triple.pure fun t ht =>
      atomic_refl h _ (ht.trans hs₀)
  | getenvid =>
    refine Triple.get_bind fun s₀ hs₀ => ?_
    subst hs₀
    exact Triple.bind ((derefEnv_reads _).triple s₀) fun e => Triple.get_bind fun s₁ hs₁ =>
      Triple.pure fun t ht => atomic_refl h _ (ht.trans hs₁)
  | envDestroy envid => exact sysEnvDestroy_atomic h envid
  | pageAlloc envid va perm => exact sysPageAlloc_atomic h envid va perm
  | pageMap srcenvid srcva dstenvid dstva perm =>
    exact sysPageMap_atomic h srcenvid srcva dstenvid dstva perm
  | pageUnmap envid va => exact sysPageUnmap_atomic h envid va
  | exofork => exact sysExofork_atomic h
  | envSetStatus envid status => exact sysEnvSetStatus_atomic h envid status
  | envSetPgfaultUpcall envid func => exact sysEnvSetPgfaultUpcall_atomic h envid func
  | yield => exact Triple.bind Triple.top fun _ => Triple.pure fun t _ => atomic_zero t

/-- `sys_page_alloc` finds a page, but none for the page table. -/
theorem failed_syscall_unchanged_page_alloc :
    ∃ s', (Syscall.pageAlloc 0#32 utext (pteU ||| pteP)).handle.run threePages = .ok (-eNoMem) s' ∧
      Unchanged [2] threePages s' := by
  have hzero : ∀ (d : Nat) (i : Index), framed (threePages.mem d i) = none := fun _ _ => framed_zero
  have hfl : FreeListOk [2] threePages := by
    refine ⟨⟨rfl, rfl⟩, by decide, ?_, ?_, ?_⟩
    · rintro p hp (hd | ⟨e, he⟩)
      · simp at hp
        subst hp
        exact absurd hd (by decide)
      · simp at hp
        subst hp
        exact absurd he (by simp [threePages])
    · rintro p - ⟨d, -, i, hi⟩
      rw [hzero] at hi
      exact absurd hi (by simp)
    · rintro p - ⟨d, -, i, -, t, ht, -⟩
      rw [hzero] at ht
      exact absurd ht (by simp)
  have hrun : (Syscall.pageAlloc 0#32 utext (pteU ||| pteP)).handle.run threePages =
      .ok (-eNoMem) _ := rfl
  exact ⟨_, hrun, failed_syscall_unchanged hfl _ hrun (by decide)⟩

end Jos
