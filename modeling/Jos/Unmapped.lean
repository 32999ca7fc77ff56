import Jos.Alloc.Run

/-!
# Addresses where nothing is mapped

The comment above `page_lookup` says that it returns `NULL` where no page is mapped, and
`page_remove` and `sys_page_map` rely on that.  It does so only where there is no page table: an
entry of a page table is taken at its word even if it is absent, and a cleared entry names page 0.
`inert_iff` says that system calls leave an unmapped address alone exactly where no page table
covers it.
-/

set_option autoImplicit false

namespace Jos

open Kernel Command

variable {s s' : Kernel} {cur e : EnvIndex} {d : Nat} {envid va : Word}

/-- Reference counts, the free list and every page table are as they were. -/
structure Untouched (s s' : Kernel) : Prop where
  pages : s'.pages = s.pages
  pageFreeList : s'.pageFreeList = s.pageFreeList
  mem : s'.mem = s.mem

/-- Unmapping the address does nothing, and mapping from it is refused. -/
structure Inert (s : Kernel) (cur : EnvIndex) (envid va : Word) : Prop where
  unmap : ∃ s', (sysPageUnmap envid va).run s = .ok 0#32 s' ∧ Untouched s s'
  map : ∀ dstenvid dstva perm, s.resolve cur dstenvid ≠ none → UserPage dstva → PermOk perm →
    ∃ s', (sysPageMap envid va dstenvid dstva perm).run s = .ok (-eInval) s' ∧ Untouched s s'

/-- No page is mapped at `va` under the directory in page `d`. -/
def Kernel.Unmapped (s : Kernel) (d : Nat) (va : Word) : Prop :=
  ∀ w, s.walk d va = some w → framed w = none

/-! ## The calls, up to the page functions -/

theorem sysPageUnmap_eq (hc : s.curenv = some cur) (he : s.resolve cur envid = some e)
    (hd : (s.envs e).envPgdir = some d) (hva : UserPage va) :
    (sysPageUnmap envid va).run s = EStateM.run (do pageRemove d va; return 0#32) s := by
  have henv := envid2env_run hc envid
  rw [he] at henv
  have hzero : ¬ (0#32).toInt < 0 := by decide
  have hva' : ¬ (utop ≤ va ∨ va % pgsize ≠ 0#32) := by
    simp only [not_or, not_not, BitVec.not_le]
    exact hva
  simp only [sysPageUnmap, EStateM.run_bind, henv, resolved, if_neg hzero, if_neg hva', derefEnv,
    EStateM.run_pure, EStateM.run_get, hd, derefPgdir]

theorem sysPageMap_missing (hc : s.curenv = some cur) (he : s.resolve cur envid = some e)
    (hd : (s.envs e).envPgdir = some d) (hva : UserPage va)
    (hnone : framed (s.mem d (pdx va)) = none) {dstenvid dstva perm : Word}
    (hdst : s.resolve cur dstenvid ≠ none) (hdva : UserPage dstva) (hperm : PermOk perm) :
    (sysPageMap envid va dstenvid dstva perm).run s = .ok (-eInval) s := by
  obtain ⟨dst, hdst⟩ := Option.ne_none_iff_exists'.1 hdst
  have hsrcenv := envid2env_run hc envid
  have hdstenv := envid2env_run hc dstenvid
  rw [he] at hsrcenv
  rw [hdst] at hdstenv
  have hzero : ¬ (0#32).toInt < 0 := by decide
  have hva' : ¬ (utop ≤ va ∨ va % pgsize ≠ 0#32 ∨ utop ≤ dstva ∨ dstva % pgsize ≠ 0#32) := by
    simp only [not_or, not_not, BitVec.not_le]
    exact ⟨hva.1, hva.2, hdva⟩
  have hp : ¬ (perm &&& pteU = 0#32 ∨ perm &&& pteP = 0#32 ∨ perm &&& ~~~pteSyscall ≠ 0#32) := by
    simp only [not_or, not_not]
    exact hperm
  simp only [sysPageMap, EStateM.run_bind, hsrcenv, hdstenv, resolved, if_neg hzero, if_neg hva',
    if_neg hp, derefEnv, EStateM.run_pure, EStateM.run_get, hd, derefPgdir,
    pageLookup_missing hnone]

/-! ## With a page table -/

/-- Taking a reference from a page shows. -/
theorem decref_pages_ne (s : Kernel) (pp : Nat) : (s.decref pp).pages ≠ s.pages := by
  intro h
  have href : ((s.decref pp).pages pp).ppRef = (s.pages pp).ppRef - 1#16 := by
    rw [decref]
    split <;> simp [push, unref]
  rw [h] at href
  have := congrArg BitVec.toNat href
  have hlt := (s.pages pp).ppRef.isLt
  rw [BitVec.toNat_sub] at this
  simp at this
  omega

/-- Where there is a page table, `page_remove` does not return with everything as it was. -/
theorem pageRemove_touches {t : Nat} (ht : framed (s.mem d (pdx va)) = some t)
    (hrun : (pageRemove d va).run s = .ok () s') : s'.pages ≠ s.pages := by
  by_cases hlt : t < s.npages
  · by_cases hp : pgnum (pteAddr (s.mem t (ptx va))) < s.npages
    · rw [pageRemove_found ht hlt hp] at hrun
      cases hrun
      rw [unmapAt_pages]
      exact decref_pages_ne s _
    · have hlook : (pageLookup d va).run s =
          .error (.panic "pa2page called with invalid pa") s := by
        simp only [pageLookup, EStateM.run_bind, pgdirWalk_found ht hlt, loadWord, EStateM.run_get,
          EStateM.run_pure, pa2page, if_pos (Nat.not_lt.1 hp), run_throw]
      rw [pageRemove, run_bind_ok (pgdirWalk_found ht hlt false), run_bind_error hlook] at hrun
      exact absurd hrun (by simp)
  · rw [pageRemove, run_bind_error (pgdirWalk_beyond ht hlt false)] at hrun
    exact absurd hrun (by simp)

theorem not_inert_of_table (hc : s.curenv = some cur) (he : s.resolve cur envid = some e)
    (hd : (s.envs e).envPgdir = some d) (hva : UserPage va) {t : Nat}
    (ht : framed (s.mem d (pdx va)) = some t) : ¬ Inert s cur envid va := by
  intro h
  obtain ⟨s', hrun, hsame⟩ := h.unmap
  rw [sysPageUnmap_eq hc he hd hva] at hrun
  cases hr : (pageRemove d va).run s with
  | error x s₁ =>
    rw [run_bind_error hr] at hrun
    exact absurd hrun (by simp)
  | ok a s₁ =>
    rw [run_bind_ok hr] at hrun
    cases hrun
    exact pageRemove_touches ht hr hsame.pages

/-- **When an address is inert.**  In any state, for any address space the caller may name and any
user page, in particular one at which nothing is mapped: `sys_page_unmap` leaves everything alone
and `sys_page_map` refuses it as a source exactly when no page table covers it. -/
theorem inert_iff (hc : s.curenv = some cur) (he : s.resolve cur envid = some e)
    (hd : (s.envs e).envPgdir = some d) (hva : UserPage va) :
    Inert s cur envid va ↔ s.mem d (pdx va) &&& pteP = 0#32 := by
  rw [← framed_eq_none]
  constructor
  · intro h
    by_contra hne
    obtain ⟨t, ht⟩ := Option.ne_none_iff_exists'.1 hne
    exact not_inert_of_table hc he hd hva ht h
  · intro hnone
    have hself : Untouched s s := ⟨rfl, rfl, rfl⟩
    refine ⟨⟨s, ?_, hself⟩, fun dstenvid dstva perm hdst hdva hperm => ⟨s, ?_, hself⟩⟩
    · rw [sysPageUnmap_eq hc he hd hva, run_bind_ok (pageRemove_missing hnone)]
      rfl
    · exact sysPageMap_missing hc he hd hva hnone hdst hdva hperm

/-- In a fresh address space every user address is inert. -/
theorem inert_iff_utext : threePages.curenv = some 0 ∧ Inert threePages 0 0#32 utext :=
  ⟨rfl, (inert_iff (e := 0) (d := 1) rfl rfl rfl (by decide)).2 rfl⟩

/-- **Not where a page has been unmapped before**: after an allocation at `UTEXT` and an unmapping,
another unmapping takes a reference from page 0. -/
theorem not_inert : ∃ s₀ s cur d, (i386Init smallMachine).run smallMachine.powerOn = .ok () s₀ ∧
    Reach Kernel.Calls (fun _ _ => True) s₀ s ∧ (s.envs cur).envPgdir = some d ∧
    UserPage utext ∧ s.Unmapped d utext ∧ ¬ Inert (s.setCurenv (some cur)) cur 0#32 utext := by
  obtain ⟨s₀, s, res, fl, e, t, hrun, hreach, hinv, -, hlive, ht, hentry⟩ := reaches_unmapped
  obtain ⟨d, hd, hpg⟩ := hinv.dir_isSome hlive
  have hfr : framed (s.mem d (pdx utext)) = some t :=
    (table_of_dir hd (by decide)).symm.trans ht
  rw [entry_of_table ht] at hentry
  refine ⟨s₀, s, e, d, hrun, hreach, hpg, by decide, fun w hw => ?_, ?_⟩
  · rw [Kernel.walk, hfr, Option.map_some, hentry] at hw
    obtain rfl := Option.some_inj.1 hw
    exact framed_zero
  · exact not_inert_of_table (s := s.setCurenv (some e)) (setCurenv_curenv s _) rfl hpg (by decide)
      hfr

end Jos
