import Jos.Alloc.Syscall

/-!
# No system call makes a page writable

A page that is mapped writable after a system call was mapped writable before it, or was free.
`sys_page_alloc` maps a free page; `sys_page_map` asks the source entry for the right it hands out;
everything else only takes mappings away.  The test in `sys_page_map` is on the flag of the entry,
which need not be present: an absent entry is zero, and zero has no flags.
-/

set_option autoImplicit false

namespace Jos

open Kernel Command

variable {res : Nat → Prop} {fl : List Nat} {s s' : Kernel} {cur e : EnvIndex}

/-- Some environment maps page `p` with `PTE_W` at an address below `UTOP`. -/
def Kernel.MapsWritable (s : Kernel) (p : Nat) : Prop :=
  ∃ e d va w, s.dir e = some d ∧ va < utop ∧ s.walk d va = some w ∧ framed w = some p ∧
    w &&& pteW ≠ 0#32

theorem mapsWritable_iff {p : Nat} : s.MapsWritable p ↔
    ∃ e i j, framed (s.entry e i j) = some p ∧ s.entry e i j &&& pteW ≠ 0#32 := by
  constructor
  · rintro ⟨e, d, va, w, hd, hva, hwalk, hp, hw⟩
    have htab := table_of_dir hd ((lt_utop_iff va).1 hva)
    rw [Kernel.walk, Option.map_eq_some_iff] at hwalk
    obtain ⟨t, ht, rfl⟩ := hwalk
    refine ⟨e, pdx va, ptx va, ?_⟩
    rw [entry_of_table (htab.trans ht)]
    exact ⟨hp, hw⟩
  · rintro ⟨e, i, j, hp, hw⟩
    cases ht : s.table e i with
    | none =>
      rw [entry_of_none ht, framed_zero] at hp
      exact absurd hp (by simp)
    | some t =>
      obtain ⟨hi, d, hd, hf⟩ := table_eq_some.1 ht
      rw [entry_of_table ht] at hp hw
      refine ⟨e, d, pgaddr i j 0#32, s.mem t j, hd, (lt_utop_iff _).2 (by rwa [pdx_pgaddr]), ?_,
        hp, hw⟩
      rw [Kernel.walk, pdx_pgaddr, ptx_pgaddr, hf]
      rfl

/-- No new writable mappings but of the pages in `new`. -/
def Escalates (new : Nat → Prop) (s s' : Kernel) : Prop :=
  ∀ p, s'.MapsWritable p → s.MapsWritable p ∨ new p

theorem Escalates.of_entry {new : Nat → Prop} (h : s'.entry = s.entry) : Escalates new s s' := by
  intro p hp
  rw [mapsWritable_iff, h, ← mapsWritable_iff] at hp
  exact Or.inl hp

/-- Replacing an entry escalates at most what the new entry says. -/
theorem Escalates.of_setEntry {new : Nat → Prop} {i j : Index} {w : Word}
    (h : s'.entry = setEntry s.entry e i j w)
    (hw : ∀ p, framed w = some p → w &&& pteW ≠ 0#32 → s.MapsWritable p ∨ new p) :
    Escalates new s s' := by
  intro p hp
  obtain ⟨e', i', j', hf, hpw⟩ := mapsWritable_iff.1 hp
  rw [h, setEntry] at hf hpw
  split at hf
  · rename_i hk
    rw [if_pos hk] at hpw
    exact hw p hf hpw
  · rename_i hk
    rw [if_neg hk] at hpw
    exact Or.inl (mapsWritable_iff.2 ⟨e', i', j', hf, hpw⟩)

/-- Freeing an environment takes mappings away. -/
theorem Escalates.of_freed {new : Nat → Prop} (hf : Frame res (· = e) s s')
    (hd : s'.dir e = none) : Escalates new s s' := by
  intro p hp
  obtain ⟨e', i, j, hfr, hw⟩ := mapsWritable_iff.1 hp
  by_cases he : e' = e
  · subst he
    rw [entry_of_none (table_eq_none hd i), framed_zero] at hfr
    exact absurd hfr (by simp)
  · rw [hf.entry he] at hfr hw
    exact Or.inl (mapsWritable_iff.2 ⟨e', i, j, hfr, hw⟩)

/-! ## The system calls -/

/-- The system calls that change address spaces. -/
inductive Syscall.IsMemory : Syscall → Prop where
  | pageAlloc (envid va perm : Word) : IsMemory (.pageAlloc envid va perm)
  | pageMap (srcenvid srcva dstenvid dstva perm : Word) :
      IsMemory (.pageMap srcenvid srcva dstenvid dstva perm)
  | pageUnmap (envid va : Word) : IsMemory (.pageUnmap envid va)
  | exofork : IsMemory .exofork
  | envDestroy (envid : Word) : IsMemory (.envDestroy envid)

namespace Inv

theorem pageAlloc_escalates (h : Inv res fl s) (hc : s.curenv = some cur)
    (hlive : (s.envs cur).envStatus ≠ .free) (envid va perm : Word) :
    Escalates (· ∈ fl) s (final (sysPageAlloc envid va perm) s) := by
  obtain ⟨r, s', hrun, hspec⟩ := h.sysPageAlloc_spec hc hlive envid va perm
  rw [final_of_ok hrun]
  rcases hspec with ⟨-, rfl | ⟨pp, hpp, rfl⟩, -⟩ | ⟨-, e, pp, -, -, hperm, hpa⟩
  · exact Escalates.of_entry rfl
  · exact Escalates.of_entry (entry_fill (h.ok.free_unref pp hpp) _)
  · refine Escalates.of_setEntry hpa.edited.entry fun p hp _ => Or.inr ?_
    rw [framed_entry (lt_pow s (h.free_lt hpa.free)) hperm.isPerm] at hp
    cases hp
    exact hpa.free

theorem pageMap_escalates (h : Inv res fl s) (hc : s.curenv = some cur)
    (hlive : (s.envs cur).envStatus ≠ .free) (srcenvid srcva dstenvid dstva perm : Word) :
    Escalates (· ∈ fl) s (final (sysPageMap srcenvid srcva dstenvid dstva perm) s) := by
  obtain ⟨r, s', hrun, hspec⟩ := h.sysPageMap_spec hc hlive srcenvid srcva dstenvid dstva perm
  rw [final_of_ok hrun]
  rcases hspec with ⟨-, rfl, -⟩ | ⟨-, src, dst, -, -, -, -, hperm, ⟨t, ht⟩, hwrite, hins⟩
  · exact Escalates.of_entry rfl
  · refine Escalates.of_setEntry hins.edited.entry fun p hp hw => Or.inl ?_
    have hlt := lt_pow s (h.entry_lt ht (ptx srcva))
    rw [← entry_of_table ht] at hlt
    rw [framed_entry hlt hperm.isPerm] at hp
    rw [entry_and (by decide) (by decide)] at hw
    obtain ⟨q, hq⟩ := h.leaf_of_write (hwrite hw)
    rw [leaf_eq_framed] at hq
    refine mapsWritable_iff.2 ⟨src, pdx srcva, ptx srcva, ?_, hwrite hw⟩
    rw [hq, ← hp]
    exact congrArg some (framed_eq_some.1 hq).2.symm

theorem pageUnmap_escalates (h : Inv res fl s) (hc : s.curenv = some cur)
    (hlive : (s.envs cur).envStatus ≠ .free) (envid va : Word) :
    Escalates (· ∈ fl) s (final (sysPageUnmap envid va) s) := by
  obtain ⟨r, s', hrun, hspec⟩ := h.sysPageUnmap_spec hc hlive envid va
  rw [final_of_ok hrun]
  rcases hspec with ⟨-, rfl, -⟩ | ⟨-, e, d, -, -, -, ⟨-, rfl⟩ | ⟨t, ht, rfl⟩⟩
  · exact Escalates.of_entry rfl
  · exact Escalates.of_entry rfl
  · refine Escalates.of_setEntry (h.unmapAt_edited ht _ _ _ _).entry fun p hp _ => ?_
    rw [framed_zero] at hp
    exact absurd hp (by simp)

theorem exofork_escalates (h : Inv res fl s) (hc : s.curenv = some cur)
    (hlive : (s.envs cur).envStatus ≠ .free) : Escalates (· ∈ fl) s (final sysExofork s) := by
  obtain ⟨r, s', hrun, hspec⟩ := h.sysExofork_spec hc hlive
  rw [final_of_ok hrun]
  rcases hspec with ⟨-, rfl⟩ | ⟨e, p, fl', rfl, he, -, rfl⟩
  · exact Escalates.of_entry rfl
  · exact Escalates.of_entry (h.forked he cur).2.1

theorem envDestroy_escalates (h : Inv res fl s) (hlive : (s.envs e).envStatus ≠ .free) :
    Escalates (· ∈ fl) s (final (envDestroy e) s) := by
  have hgone : ∀ s₁, MemOnly (s.freed e) s₁ → s₁.dir e = none := by
    intro s₁ hmo
    rw [Kernel.dir, hmo.envs]
    simp [freed, freedEnv]
  rcases h.envDestroy_spec hlive with ⟨hst, -, hrun⟩ | ⟨s₁, fl₁, -, hinv, hframe, hmo, hend⟩
  · rw [final_of_ok hrun]
    refine Escalates.of_entry (funext fun e' => ?_)
    have hdir : ∀ e', (s.setEnv e { s.envs e with envStatus := .dying }).dir e' = s.dir e' := by
      intro e'
      by_cases he : e' = e
      · subst he
        simp [Kernel.dir, hst]
      · exact dir_congr (Function.update_of_ne he _ _)
    funext i j
    simp only [Kernel.entry, table, hdir]
    rfl
  · rcases hend with ⟨-, hrun⟩ | ⟨-, x, s', hrun, hl⟩
    · rw [final_of_ok hrun]
      exact Escalates.of_freed hframe (hgone s₁ hmo)
    · rw [final_of_error hrun]
      intro p hp
      refine Escalates.of_freed hframe (hgone s₁ hmo) p ?_
      rw [mapsWritable_iff, hl.handover.entry] at hp
      exact mapsWritable_iff.2 hp

end Inv

/-- **No write-permission escalation.**  If a system call that changes address spaces leaves a page
mapped writable below `UTOP`, the page was so mapped before, or it was on the free list. -/
theorem no_write_escalation (h : Inv res fl s) (hc : s.curenv = some cur)
    (hlive : (s.envs cur).envStatus ≠ .free) {c : Syscall} (hmem : c.IsMemory) {p : Nat}
    (hp : (final c.handle s).MapsWritable p) : s.MapsWritable p ∨ p ∈ fl := by
  cases hmem with
  | pageAlloc envid va perm => exact h.pageAlloc_escalates hc hlive envid va perm p hp
  | pageMap srcenvid srcva dstenvid dstva perm =>
    exact h.pageMap_escalates hc hlive srcenvid srcva dstenvid dstva perm p hp
  | pageUnmap envid va => exact h.pageUnmap_escalates hc hlive envid va p hp
  | exofork => exact h.exofork_escalates hc hlive p hp
  | envDestroy envid =>
    cases hr : s.resolve cur envid with
    | none =>
      have hfinal : (Syscall.envDestroy envid).handle.run s = .ok (-eBadEnv) s :=
        sysEnvDestroy_none hc hr
      rw [final_of_ok hfinal] at hp
      exact Or.inl hp
    | some e =>
      have hfinal : final (Syscall.envDestroy envid).handle s = final (envDestroy e) s :=
        sysEnvDestroy_final hc hr
      rw [hfinal] at hp
      exact h.envDestroy_escalates (resolve_live hlive hr) p hp

/-- `sys_page_alloc` maps page 2 writable; it was free. -/
theorem no_write_escalation_page_alloc :
    (final (Syscall.pageAlloc 0#32 utext (pteU ||| pteP ||| pteW)).handle oneEnv).MapsWritable 2 ∧
      (oneEnv.MapsWritable 2 ∨ 2 ∈ [2, 3]) := by
  have hp : (final (Syscall.pageAlloc 0#32 utext (pteU ||| pteP ||| pteW)).handle
      oneEnv).MapsWritable 2 :=
    ⟨0, 1, utext, page2pa 2 ||| pteP ||| (pteU ||| pteP ||| pteW), rfl, by decide, rfl, by decide,
      by decide⟩
  have hcur : oneEnv.curenv = some 0 := by decide
  exact ⟨hp, no_write_escalation oneEnv_inv hcur (by decide) (.pageAlloc _ _ _) hp⟩

end Jos
