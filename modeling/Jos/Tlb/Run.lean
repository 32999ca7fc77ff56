import Jos.Tlb

/-!
# The TLB over whole runs

What the functions of `kern/env.c` and the system calls do to the page directory that is loaded.
`env_free` of the current environment is the delicate one: it loads the kernel's directory first, so
that nothing of what it takes apart is remembered, and until the environment is no longer current
its directory is not the loaded one.
-/

set_option autoImplicit false

namespace Jos

open Kernel Command

variable {s s' t u : Kernel} {e c cur : EnvIndex} {d p : Nat} {ok ok' : EnvIndex → Prop}

/-! ## Environments -/

namespace Kernel.Tidy

/-- Less may be asked. -/
theorem mono (h : s.Tidy ok) (hok : ∀ e, s.curenv = some e → ok' e → ok e) : s.Tidy ok' :=
  ⟨h.apart, h.below, fun e he he' => h.synced e he (hok e he he')⟩

/-- Memory is as it was, and there are no new page directories. -/
theorem of_dirs (h : s.Tidy ok) (hmem : s'.mem = s.mem) (hkern : s'.kernPgdir = s.kernPgdir)
    (hdir : ∀ e d, s'.dir e = some d → s.dir e = some d) (hbelow : s'.ListBelow)
    (hsync : ∀ e, s'.curenv = some e → ok' e → s'.Synced e) : s'.Tidy ok' := by
  refine ⟨h.apart.of_target hkern (by rw [hmem]) fun k hk p hp => ?_, hbelow, hsync⟩
  cases k with
  | dir e => exact hdir e p hp
  | table e i =>
    obtain ⟨hi, d, hd, hf⟩ := table_eq_some.1 hp
    rw [hmem] at hf
    exact table_eq_some.2 ⟨hi, d, hdir e d hd, hf⟩
  | page => exact hk.elim

/-- Environments change, but not their page directories. -/
theorem of_envs (h : s.Tidy ok) (hmem : s'.mem = s.mem) (hkern : s'.kernPgdir = s.kernPgdir)
    (hdir : ∀ e, s'.dir e = s.dir e) (hcur : s'.curenv = s.curenv) (hcpu : s'.cpunum = s.cpunum)
    (hcr3 : s'.cr3 = s.cr3) (htlb : s'.tlb = s.tlb) (hbelow : s'.ListBelow) : s'.Tidy ok := by
  refine h.of_data hdir hcur hcpu (by rw [hcr3]) hkern (fun _ _ => by rw [hmem]) ?_ hbelow
  intro n w hw
  rw [htlb] at hw
  exact tlb_remember hw

/-- An environment is written that has no page directory any more. -/
theorem setEnv_gone (h : s.Tidy (· ≠ e)) {env : Env} (hgone : (s.setEnv e env).dir e = none) :
    (s.setEnv e env).Tidy (· ≠ e) := by
  have hother : ∀ e', e' ≠ e → (s.setEnv e env).dir e' = s.dir e' := fun e' hne =>
    dir_congr (Function.update_of_ne hne _ _)
  refine h.of_dirs rfl rfl (fun e' d' hd' => ?_) (h.below.of_eq rfl rfl rfl) fun e' he' hne => ?_
  · by_cases hee : e' = e
    · subst hee
      exact absurd (hgone.symm.trans hd') (by simp)
    · exact (hother e' hee).symm.trans hd'
  · have hs := h.synced e' he' hne
    refine ⟨(hother e' hne).trans hs.loaded, hs.cached⟩

end Kernel.Tidy

/-! ## `env_free` -/

/-- In the course of freeing `e`. -/
structure Kernel.Closing (e : EnvIndex) (d : Nat) (s : Kernel) : Prop where
  tidy : s.Tidy (· ≠ e)
  dir : s.dir e = some d

theorem Kernel.Closing.of_memOnly (h : s.Closing e d) (ht : t.Tidy (· ≠ e)) (hmo : MemOnly s t) :
    t.Closing e d :=
  ⟨ht, (dir_of_envs hmo.envs e).trans h.dir⟩

theorem envFreePte_closing (t : Nat) {i : Index} (hi : i.val < userPdes) (j : Index) :
    Triple (Kernel.Closing e d) (envFreePte d t i j) (fun _ => Kernel.Closing e d)
      fun _ _ => True := by
  refine Triple.bind ((loadWord_reads t j).keeps _) fun w => ?_
  refine Triple.ite (fun _ => Triple.of_returns fun s a s' hs hr => ?_) fun _ =>
    Triple.pure fun _ hs => hs
  have hva : pgaddr i j 0#32 < utop := (lt_utop_iff _).2 (by rwa [pdx_pgaddr])
  exact hs.of_memOnly (hs.tidy.pageRemove hs.dir hva hr) ((pageRemove_quiet _ _).of_ok hr)

theorem envFreePde_closing {i : Index} (hi : i.val < userPdes) :
    Triple (Kernel.Closing e d) (envFreePde e i) (fun _ => Kernel.Closing e d)
      fun _ _ => True := by
  refine Triple.get_bind fun s hs => ?_
  simp only [envPgdir_of_dir hs.dir, derefPgdir, pure_bind]
  refine Triple.conseq (P := Kernel.Closing e d) ?_ (fun t ht => ht ▸ hs) (fun _ _ h => h)
    fun _ _ h => h
  refine Triple.bind ((loadWord_reads d i).keeps _) fun pde => ?_
  refine Triple.ite (fun _ => ?_) fun _ => Triple.pure fun _ hs => hs
  refine Triple.bind ((kaddr_reads _).keeps _) fun pt => ?_
  generalize indices = l
  refine Triple.bind (Triple.forM fun j _ => envFreePte_closing pt hi j) fun _ => ?_
  -- the directory is not the loaded one
  refine Triple.bind (Q := fun _ => Kernel.Closing e d) (Triple.modify fun t ht => ?_) fun _ => ?_
  · refine ht.of_memOnly (ht.tidy.setPde ht.dir hi (fun q hq => ?_) (Or.inr fun _ _ hne => hne)) rfl
    rw [framed_zero] at hq
    exact absurd hq (by simp)
  · refine Triple.of_returns fun t a t' ht hr => ?_
    obtain ⟨q, t₁, hpa, hr'⟩ := ok_of_bind hr
    obtain ⟨hq, rfl⟩ := pa2page_ok hpa
    rw [pageDecref_run] at hr'
    cases hr'
    exact ht.of_memOnly (ht.tidy.decref hq) (Inv.decref_memOnly _ _)

theorem unloadPgdir_closing (hd : s.dir e = some d) (h : s.Tidy (· ≠ e)) :
    Triple (fun t => t = s) (unloadPgdir e) (fun _ => Kernel.Closing e d) fun _ _ => True := by
  refine Triple.get_bind fun s' hs' => ?_
  subst hs'
  refine Triple.ite (fun hc => Triple.modify fun t ht => ?_) fun _ => Triple.pure fun t ht => ?_
  · subst ht
    refine ⟨h.of_dirs rfl rfl (fun _ _ hd => hd) (h.below.of_eq rfl rfl rfl) fun c hc' hne => ?_,
      hd⟩
    exact absurd (Option.some_inj.1 (hc'.symm.trans hc)) hne
  · subst ht
    exact ⟨h, hd⟩

/-- The end of `env_free`, from where the directory is dropped. -/
theorem dropDir_tidy : Triple (fun t => t.Tidy (· ≠ e) ∧ (t.envs e).envPgdir = none)
    (do
      pageDecref (← pa2page (page2pa d))
      updateEnv e fun env => { env with envStatus := .free }
      modify fun s => s.setEnv e { s.envs e with envLink := s.envFreeList }
      modify fun s => { s with envFreeList := some e } : KernelM Unit)
    (fun _ t => t.Tidy (· ≠ e)) fun _ _ => True := by
  have hnone : ∀ {t : Kernel}, (t.envs e).envPgdir = none → t.dir e = none := by
    intro t h
    rw [Kernel.dir, h]
    split <;> rfl
  refine Triple.bind (Q := fun q t => (t.Tidy (· ≠ e) ∧ (t.envs e).envPgdir = none) ∧ q < t.npages)
    (Triple.of_returns fun t q t' ht hr => ?_) fun q => ?_
  · obtain ⟨hq, rfl⟩ := pa2page_ok hr
    exact ⟨ht, hq⟩
  refine Triple.bind (Q := fun _ t => t.Tidy (· ≠ e) ∧ (t.envs e).envPgdir = none)
    (Triple.of_returns fun t a t' ht hr => ?_) fun _ => ?_
  · rw [pageDecref_run] at hr
    cases hr
    exact ⟨ht.1.1.decref ht.2, by rw [decref_envs]; exact ht.1.2⟩
  refine Triple.bind (Q := fun _ t => t.Tidy (· ≠ e) ∧ (t.envs e).envPgdir = none)
    (Triple.modify fun t ht => ?_) fun _ => ?_
  · have hpg : ((t.setEnv e { t.envs e with envStatus := .free }).envs e).envPgdir = none := by
      simp [ht.2]
    exact ⟨ht.1.setEnv_gone (hnone hpg), hpg⟩
  refine Triple.bind (Q := fun _ t => t.Tidy (· ≠ e)) (Triple.modify fun t ht => ?_) fun _ => ?_
  · refine ht.1.setEnv_gone (hnone ?_)
    simp [ht.2]
  · exact Triple.modify fun t ht =>
      ht.of_envs rfl rfl (fun _ => rfl) rfl rfl rfl rfl (ht.below.of_eq rfl rfl rfl)

/-- **`env_free`**: the page directory goes, and what is remembered of others is as good as
before. -/
theorem Kernel.Tidy.of_envFree {a : Unit} (h : s.Tidy (· ≠ e)) (hd : s.dir e = some d)
    (hr : (envFree e).run s = .ok a s') : s'.Tidy (· ≠ e) := by
  have hmem : ∀ i ∈ userPdeList, i.val < userPdes := fun i hi => by
    simpa using (List.mem_filter.1 hi).2
  refine Triple.of_ok (P := fun t => t = s) (Q := fun _ t => t.Tidy (· ≠ e)) (E := fun _ _ => True)
    ?_ rfl hr
  rw [Jos.envFree]
  generalize userPdeList = l at hmem
  refine Triple.bind (unloadPgdir_closing hd h) fun _ => ?_
  refine Triple.bind (Triple.forM fun i hi => envFreePde_closing (hmem i hi)) fun _ => ?_
  refine Triple.get_bind fun t ht => ?_
  simp only [envPgdir_of_dir ht.dir, paddr, pure_bind]
  refine Triple.bind (Q := fun _ t => t.Tidy (· ≠ e) ∧ (t.envs e).envPgdir = none)
    (Triple.modify fun t' ht' => ?_) fun _ => dropDir_tidy
  subst ht'
  have hpg : ((t'.setEnv e { t'.envs e with envPgdir := none }).envs e).envPgdir = none := by simp
  refine ⟨ht.tidy.setEnv_gone ?_, hpg⟩
  rw [Kernel.dir, hpg]
  split <;> rfl

/-! ## `env_alloc` -/

namespace Kernel.Tidy

/-- A page that is not in use becomes the directory of a new environment, and has no page tables. -/
theorem newDir (h : s.Tidy ok) (hnone : s.dir e = none) (hcur : s.curenv ≠ some e)
    (hp : ¬ s.InUse p) (huser : ∀ i : Index, i.val < userPdes → framed (s.mem p i) = none)
    {env : Env} (hdir : (s.setEnv e env).dir e = some p) : (s.setEnv e env).Tidy ok := by
  have hother : ∀ e', e' ≠ e → (s.setEnv e env).dir e' = s.dir e' := fun e' hne =>
    dir_congr (Function.update_of_ne hne _ _)
  have htgt : ∀ k : Slot, k.IsNode → ∀ q, (s.setEnv e env).target k = some q →
      (k = .dir e ∧ q = p) ∨ s.target k = some q := by
    intro k hk q hq
    cases k with
    | dir e' =>
      by_cases hee : e' = e
      · subst hee
        exact Or.inl ⟨rfl, Option.some_inj.1 (hq.symm.trans hdir)⟩
      · exact Or.inr ((hother e' hee).symm.trans hq)
    | table e' i =>
      obtain ⟨hi, d', hd', hf⟩ := table_eq_some.1 hq
      by_cases hee : e' = e
      · subst hee
        obtain rfl : p = d' := Option.some_inj.1 (hdir.symm.trans hd')
        exact absurd ((huser i hi).symm.trans hf) (by simp)
      · exact Or.inr (table_eq_some.2 ⟨hi, d', (hother e' hee).symm.trans hd', hf⟩)
    | page => exact hk.elim
  refine ⟨⟨fun k k' q hk hk' hq hq' => ?_, fun k hk hq => ?_, h.apart.user⟩,
    h.below.of_eq rfl rfl rfl, fun c hc hok => ?_⟩
  · rcases htgt k hk q hq with ⟨rfl, rfl⟩ | hq
    · rcases htgt k' hk' q hq' with ⟨rfl, -⟩ | hq'
      · rfl
      · exact absurd (Or.inr ⟨k', hk', hq'⟩) hp
    · rcases htgt k' hk' q hq' with ⟨rfl, rfl⟩ | hq'
      · exact absurd (Or.inr ⟨k, hk, hq⟩) hp
      · exact h.apart.unique k k' q hk hk' hq hq'
  · rcases htgt k hk _ hq with ⟨-, hkern⟩ | hq
    · exact hp (Or.inl hkern.symm)
    · exact h.apart.kern k hk hq
  · have hne : c ≠ e := by
      rintro rfl
      exact hcur hc
    have hs := h.synced c hc hok
    exact ⟨(hother c hne).trans hs.loaded, hs.cached⟩

omit ok in
theorem not_inUse_fill (hp : ¬ s.InUse p) (pg : Page) : ¬ (s.fill p pg).InUse p := by
  rw [InUse, target_fill hp pg]
  exact hp

/-- **`env_alloc`.** -/
theorem newEnv (h : s.Tidy ok) (hfree : (s.envs e).envStatus = .free) (hcur : s.curenv ≠ some e)
    (hlist : s.pageFreeList = some p) (hp : ¬ s.InUse p) (parentId : Word) :
    (s.newEnv e p parentId).Tidy ok := by
  have hkern : s.kernPgdir ≠ p := by
    rintro rfl
    exact hp (Or.inl rfl)
  have huser : ∀ i : Index, i.val < userPdes →
      framed ((s.newEnv e p parentId).mem p i) = none := by
    intro i hi
    have hne : i ≠ pdx uvpt := by
      rintro rfl
      exact absurd hi (by decide)
    rw [newEnv_mem_dir s e p parentId hkern hne]
    exact h.apart.user i hi
  -- the page is cleared, then the kernel's directory is copied into it
  let s₁ := ((s.pop p).fill p fun _ => 0#32).incref p
  have h₁ : s₁.Tidy ok := (@fill (s.pop p) p ok (h.pop hlist) hp fun _ => 0#32).incref p
  have hp₁ : ¬ s₁.InUse p := @not_inUse_fill (s.pop p) p hp fun _ => 0#32
  let s₂ := s₁.fill p (s₁.mem s₁.kernPgdir)
  have h₂ : s₂.Tidy ok := h₁.fill hp₁ _
  have hp₂ : ¬ s₂.InUse p := not_inUse_fill hp₁ _
  -- the environment gets it, but is still free
  let s₃ := s₂.setEnv e { s₂.envs e with envPgdir := some p }
  have hfree₃ : (s₃.envs e).envStatus = .free := by simpa [s₃, s₂, s₁] using hfree
  have hnone : ∀ {t : Kernel}, (t.envs e).envStatus = .free → t.dir e = none := by
    intro t ht
    rw [Kernel.dir, if_pos ht]
  have hdir₃ : ∀ e', s₃.dir e' = s₂.dir e' := by
    intro e'
    by_cases hee : e' = e
    · rw [hee, hnone hfree₃, hnone (t := s₂) hfree]
    · exact dir_congr (Function.update_of_ne hee _ _)
  have h₃ : s₃.Tidy ok :=
    h₂.of_envs rfl rfl hdir₃ rfl rfl rfl rfl (h₂.below.of_eq rfl rfl rfl)
  have hp₃ : ¬ s₃.InUse p := by
    have htgt : s₃.target = s₂.target :=
      target_congr hdir₃ (fun _ _ _ _ _ => rfl) fun _ _ _ _ => rfl
    rw [InUse, htgt]
    exact hp₂
  let s₄ := s₃.store p (pdx uvpt) (page2pa p ||| pteP ||| pteU)
  have h₄ : s₄.Tidy ok := h₃.fill hp₃ _
  have hp₄ : ¬ s₄.InUse p := not_inUse_fill hp₃ _
  have hdir : (s₄.setEnv e (s.allocatedEnv e p parentId)).dir e = some p := by
    rw [Kernel.dir, setEnv_envs, Function.update_self]
    simp [allocatedEnv]
  have h₅ := h₄.newDir (hnone (t := s₄) hfree₃) hcur hp₄ huser hdir
  exact h₅.of_envs rfl rfl (fun _ => rfl) rfl rfl rfl rfl (h₅.below.of_eq rfl rfl rfl)

end Kernel.Tidy

/-! ## System calls on memory -/

/-- The environment a system call works on has a page directory. -/
theorem dir_of_pgdir (hlive : (s.envs e).envStatus ≠ .free) (hpg : (s.envs e).envPgdir = some d) :
    s.dir e = some d := by
  rw [Kernel.dir, if_neg hlive, hpg]

theorem derefPgdir_ok {o : Option Nat} (hr : (derefPgdir o).run s = .ok d s') :
    o = some d ∧ s' = s := by
  cases o with
  | none => cases hr
  | some d' =>
    cases hr
    exact ⟨rfl, rfl⟩

section

variable (h : s.Tidy ok) (hs : s.Sane) (hc : s.curenv = some cur)
include h hs hc

/-- **`sys_page_unmap`.** -/
theorem Kernel.Tidy.of_sysPageUnmap {envid va r : Word}
    (hr : (sysPageUnmap envid va).run s = .ok r s') : s'.Tidy ok := by
  rw [sysPageUnmap, run_bind_ok (envid2env_run hc envid)] at hr
  cases hres : s.resolve cur envid with
  | none =>
    simp only [hres, resolved, if_pos eBadEnv_neg] at hr
    cases hr
    exact h
  | some e =>
    simp only [hres, resolved, if_neg zero_not_neg] at hr
    split at hr
    · cases hr
      exact h
    rename_i hva
    simp only [derefEnv, pure_bind] at hr
    rw [run_bind_ok (EStateM.run_get _)] at hr
    obtain ⟨d, t, hd, hr'⟩ := ok_of_bind hr
    obtain ⟨hpg, rfl⟩ := derefPgdir_ok hd
    obtain ⟨_, u, hrem, hr''⟩ := ok_of_bind hr'
    cases hr''
    refine h.pageRemove (dir_of_pgdir (resolve_live (hs.cur cur hc) hres) hpg) ?_ hrem
    exact BitVec.not_le.1 fun hle => hva (Or.inl hle)

omit h hs hc in
/-- The page taken off the free list is followed by another one that is not in use. -/
theorem Kernel.TablesKept.next (hkept : s.TablesKept) {pp : Nat} (hpp : s.pageFreeList = some pp)
    (pg : Page) : ∀ q, ((s.pop pp).fill pp pg).pageFreeList = some q →
      ¬ ((s.pop pp).fill pp pg).InUse q := by
  intro q hq
  have hno : ¬ (s.pop pp).InUse pp := hkept pp (.head hpp)
  rw [InUse, Tidy.target_fill hno]
  exact hkept q (.next (.head hpp) hq)

/-- **`sys_page_alloc`.** -/
theorem Kernel.Tidy.of_sysPageAlloc (hkept : s.TablesKept) {envid va perm r : Word}
    (hr : (sysPageAlloc envid va perm).run s = .ok r s') : s'.Tidy ok := by
  rw [sysPageAlloc, run_bind_ok (envid2env_run hc envid)] at hr
  cases hres : s.resolve cur envid with
  | none =>
    simp only [hres, resolved, if_pos eBadEnv_neg] at hr
    cases hr
    exact h
  | some e =>
    simp only [hres, resolved, if_neg zero_not_neg] at hr
    split at hr
    · cases hr
      exact h
    rename_i hva
    split at hr
    · cases hr
      exact h
    split at hr
    · cases hr
      exact h
    obtain ⟨o, t, hal, hr'⟩ := ok_of_bind hr
    rcases pageAlloc_ok h.below.head hal with ⟨rfl, rfl⟩ | ⟨pp, hpp, rfl, rfl⟩
    · cases hr'
      exact h
    simp only [derefEnv, pure_bind] at hr'
    rw [run_bind_ok (EStateM.run_get _)] at hr'
    obtain ⟨d, t, hd, hr₁⟩ := ok_of_bind hr'
    obtain ⟨hpg, rfl⟩ := derefPgdir_ok hd
    obtain ⟨r', u, hins, hr₂⟩ := ok_of_bind hr₁
    -- the page is cleared; it is not in use
    have hno : ¬ s.InUse pp := hkept pp (.head hpp)
    have h₁ : ((s.pop pp).fill pp fun _ => 0#32).Tidy ok := (h.pop hpp).fill hno _
    have hdir : ((s.pop pp).fill pp fun _ => 0#32).dir e = some d :=
      dir_of_pgdir (resolve_live (hs.cur cur hc) hres) hpg
    have hlt : va < utop := BitVec.not_le.1 fun hle => hva (Or.inl hle)
    have h₂ : u.Tidy ok := h₁.pageInsert hdir hlt (hkept.next hpp _) hins
    split at hr₂
    · obtain ⟨_, v, hfree, hr₃⟩ := ok_of_bind hr₂
      cases hr₃
      rw [pageFree_ok hfree]
      refine h₂.push ?_
      rw [((pageInsert_quiet _ _ _ _).of_ok hins).npages]
      exact h.below.head pp hpp
    · cases hr₂
      exact h₂

/-- **`sys_page_map`.** -/
theorem Kernel.Tidy.of_sysPageMap (hkept : s.TablesKept)
    {srcenvid srcva dstenvid dstva perm r : Word}
    (hr : (sysPageMap srcenvid srcva dstenvid dstva perm).run s = .ok r s') : s'.Tidy ok := by
  rw [sysPageMap, run_bind_ok (envid2env_run hc srcenvid)] at hr
  cases hres : s.resolve cur srcenvid with
  | none =>
    simp only [hres, resolved, if_pos eBadEnv_neg] at hr
    cases hr
    exact h
  | some src =>
    simp only [hres, resolved, if_neg zero_not_neg] at hr
    rw [run_bind_ok (envid2env_run hc dstenvid)] at hr
    cases hres' : s.resolve cur dstenvid with
    | none =>
      simp only [hres', resolved, if_pos eBadEnv_neg] at hr
      cases hr
      exact h
    | some dst =>
      simp only [hres', resolved, if_neg zero_not_neg] at hr
      split at hr
      · cases hr
        exact h
      rename_i hva
      split at hr
      · cases hr
        exact h
      simp only [derefEnv, pure_bind] at hr
      rw [run_bind_ok (EStateM.run_get _)] at hr
      obtain ⟨d, t, hd, hr₁⟩ := ok_of_bind hr
      obtain ⟨-, rfl⟩ := derefPgdir_ok hd
      obtain ⟨o, t', hlook, hr₂⟩ := ok_of_bind hr₁
      obtain rfl : t' = t := Always.of_ok (pageLookup_reads _ _) hlook
      cases o with
      | none =>
        cases hr₂
        exact h
      | some x =>
        obtain ⟨pp, pte⟩ := x
        obtain ⟨w, u, hload, hr₃⟩ := ok_of_bind hr₂
        obtain rfl : u = t' := Always.of_ok (loadWord_reads _ _) hload
        split at hr₃
        · cases hr₃
          exact h
        rw [run_bind_ok (EStateM.run_get _)] at hr₃
        obtain ⟨d', v, hd', hr₄⟩ := ok_of_bind hr₃
        obtain ⟨hpg, rfl⟩ := derefPgdir_ok hd'
        obtain ⟨r', v', hins, hr₅⟩ := ok_of_bind hr₄
        have hdir := dir_of_pgdir (resolve_live (hs.cur cur hc) hres') hpg
        have hlt : dstva < utop := BitVec.not_le.1 fun hle => hva (Or.inr (Or.inr (Or.inl hle)))
        have h₁ := h.pageInsert hdir hlt (fun p hp => hkept p (.head hp)) hins
        split at hr₅
        · cases hr₅
          exact h₁
        · cases hr₅
          exact h₁

end

/-! ## Leaving the kernel -/

theorem Kernel.Tidy.of_peek (h : s.Tidy ok) (hp : Peek s s') : s'.Tidy ok := by
  obtain ⟨addr, out, rfl⟩ := hp.exists_eq
  exact h.of_envs rfl rfl (fun _ => rfl) rfl rfl rfl rfl (h.below.of_eq rfl rfl rfl)

/-- Writing an environment that keeps its directory. -/
theorem Kernel.Tidy.of_setEnv (h : s.Tidy ok) {env : Env}
    (hdir : env.envPgdir = (s.envs e).envPgdir)
    (hst : env.envStatus = .free ↔ (s.envs e).envStatus = .free) : (s.setEnv e env).Tidy ok := by
  refine h.of_envs rfl rfl (fun e' => ?_) rfl rfl rfl rfl (h.below.of_eq rfl rfl rfl)
  by_cases hee : e' = e
  · subst hee
    simp [Kernel.dir, hdir, hst]
  · exact dir_congr (Function.update_of_ne hee _ _)

/-- What every kernel operation keeps. -/
structure Kernel.Coherent (s : Kernel) : Prop where
  sane : s.Sane
  list : s.EnvList
  tidy : s.Tidy fun _ => True

/-- Running an environment loads its directory, and forgets all translations. -/
theorem Kernel.Tidy.dispatch (h : s.Tidy ok) (hd : s.dir e = some d) :
    (s.dispatch e d).Tidy ok' := by
  have hslot := sameSlot_dispatch (live_of_dir hd) d
  have hdir : ∀ e', (s.dispatch e d).dir e' = s.dir e' := by
    intro e'
    rw [Kernel.dir, Kernel.dir, (hslot e').2.2.1]
    simp only [(hslot e').2.2.2]
  refine h.of_dirs rfl rfl (fun e' d' hd' => (hdir e').symm.trans hd') (h.below.of_eq rfl rfl rfl)
    fun c hc _ => ⟨?_, fun va _ w hw => ?_⟩
  · obtain rfl : e = c := Option.some_inj.1 ((dispatch_curenv s e d).symm.trans hc)
    rw [hdir, hd]
    simp [Kernel.dispatch, lcr3]
  · simp [Kernel.dispatch, lcr3] at hw

namespace Kernel.Coherent

/-- Only memory has changed. -/
theorem of_memOnly (h : s.Coherent) (ht : s'.Tidy fun _ => True) (hmo : MemOnly s s') :
    s'.Coherent :=
  ⟨h.sane.act (.mem hmo), h.list.act h.sane (.mem hmo), ht⟩

/-- **`env_run`.** -/
theorem dispatch (h : s.Coherent) (hd : s.dir e = some d) : (s.dispatch e d).Coherent :=
  have hslot := sameSlot_dispatch (live_of_dir hd) d
  ⟨h.sane.of_slots hslot (dispatch_live s e d), h.list.of_slots rfl hslot, h.tidy.dispatch hd⟩

/-- **`sched_halt`.** -/
theorem halt (h : s.Coherent) : s.halt.Coherent := by
  have hcur : ∀ e, s.halt.curenv ≠ some e := by
    intro e he
    exact absurd ((halt_curenv s).symm.trans he) (by simp)
  exact ⟨⟨h.sane.dirs, fun e he => absurd he (hcur e)⟩, h.list,
    h.tidy.of_dirs rfl rfl (fun _ _ hd => hd) (h.tidy.below.of_eq rfl rfl rfl)
      fun e he => absurd he (hcur e)⟩

theorem departs {x : Exit} (h : u.Coherent) (hd : u.Departs x s') : s'.Coherent := by
  cases hd with
  | run e d who dir =>
    refine h.dispatch (dir_of_pgdir ?_ dir)
    rcases who with hst | hc
    · simp [hst]
    · exact h.sane.cur e hc
  | halt none idle => exact h.halt
  | monitor => exact h

end Kernel.Coherent

/-- Run in state `s`, the command ends in a coherent state, unless the kernel panics. -/
def Kernel.Settles {α : Type} (s : Kernel) (m : KernelM α) : Prop :=
  Triple (fun t => t = s) m (fun _ => Kernel.Coherent) fun x t => ¬ x.IsPanic → t.Coherent

-- so that nothing is tempted to run its loop
attribute [local irreducible] userMemCheck cprintS

namespace Kernel.Settles

variable {α β : Type} {m : KernelM α}

theorem pure (h : s.Coherent) (a : α) : s.Settles (Pure.pure a : KernelM α) :=
  Triple.pure fun _ ht => ht ▸ h

theorem bind {f : α → KernelM β} (h : s.Settles m)
    (hf : ∀ a t, m.run s = .ok a t → t.Coherent → t.Settles (f a)) : s.Settles (m >>= f) := by
  rintro s rfl
  cases hr : m.run s with
  | error x t =>
    rw [run_bind_error hr]
    exact h.of_error rfl hr
  | ok a t =>
    rw [run_bind_ok hr]
    exact hf a t hr (h.of_ok rfl hr) t rfl

/-- Running it in an equal way. -/
theorem congr {m' : KernelM α} (h : t.Settles m') (hr : m.run s = m'.run t) : s.Settles m := by
  rintro s rfl
  rw [hr]
  exact h t rfl

/-- A command that works on memory only. -/
theorem quiet (h : s.Coherent) (hq : Quiet m)
    (ht : ∀ a t, m.run s = .ok a t → t.Tidy fun _ => True) : s.Settles m := by
  rintro s rfl
  cases hr : m.run s with
  | error x t => exact fun hx => absurd (hq.of_error hr).2 hx
  | ok a t => exact h.of_memOnly (ht a t hr) (hq.of_ok hr)

/-- **`sched_yield`.** -/
theorem schedYield (h : s.Coherent) : s.Settles Jos.schedYield := by
  rintro s rfl
  obtain ⟨x, s', hrun, hl⟩ := schedYield_leaves h.sane.dirs
  rw [hrun]
  exact fun _ => h.departs hl.departs

/-- **`env_destroy`.** -/
theorem envDestroy (h : s.Coherent) (hlive : (s.envs e).envStatus ≠ .free) :
    s.Settles (Jos.envDestroy e) := by
  rintro s rfl
  obtain ⟨d, hpg⟩ := h.sane.dirs e hlive
  have hd := dir_of_pgdir hlive hpg
  have hpanic : ∀ {x t}, (envFree e).run s = .error x t → x.IsPanic := fun hr =>
    (envFree_effect s e).of_error rfl hr
  have htidy : ∀ {a t}, (envFree e).run s = .ok a t → t.Tidy (· ≠ e) := fun hr =>
    (h.tidy.mono fun _ _ _ => trivial).of_envFree hd hr
  by_cases hc : s.curenv = some e
  · rw [envDestroy_current hc]
    cases hr : (envFree e).run s with
    | error x t =>
      rw [run_bind_error hr]
      exact fun hx => absurd (hpanic hr) hx
    | ok a t =>
      rw [run_bind_ok hr, run_bind_ok (EStateM.run_modify _ _)]
      have hp : Path (fun _ => True) s (t.setCurenv none) := exit_path hc trivial trivial hr
      refine schedYield ⟨hp.sane h.sane, hp.list h.sane h.list, ?_⟩ _ rfl
      refine (htidy hr).of_dirs rfl rfl (fun _ _ hd => hd) ((htidy hr).below.of_eq rfl rfl rfl) ?_
      intro c hc'
      exact absurd ((setCurenv_curenv t none).symm.trans hc') (by simp)
  · rw [Jos.envDestroy, run_bind_ok (EStateM.run_get s)]
    by_cases hrun : (s.envs e).envStatus = .running ∧ s.curenv ≠ some e
    · -- it runs elsewhere, and is only marked
      simp only [if_pos hrun]
      have hact : s.Acts (.dying e) (s.setEnv e { s.envs e with envStatus := .dying }) :=
        .dying e hrun.1 hrun.2
      refine ⟨h.sane.act hact, h.list.act h.sane hact, ?_⟩
      exact h.tidy.of_setEnv rfl (iff_of_false (by simp) hlive)
    · simp only [if_neg hrun]
      cases hr : (envFree e).run s with
      | error x t =>
        rw [run_bind_error hr]
        exact fun hx => absurd (hpanic hr) hx
      | ok a t =>
        have hmo := (envFree_effect s e).of_ok rfl hr
        have hc' : t.curenv ≠ some e := by
          rw [hmo.curenv]
          exact hc
        have hidle : (s.envs e).envStatus ≠ .running := fun hst => hrun ⟨hst, hc⟩
        have hp : Path (fun _ => True) s t :=
          (Path.act (.free e hlive hidle hc) trivial).trans (Path.act (.mem hmo) trivial)
        rw [run_bind_ok hr, run_bind_ok (EStateM.run_get t)]
        simp only [if_neg hc']
        refine ⟨hp.sane h.sane, hp.list h.sane h.list, (htidy hr).mono ?_⟩
        rintro c hcur - rfl
        exact hc' hcur

/-- **`user_mem_assert`.** -/
theorem userMemAssert (h : s.Coherent) (hlive : (s.envs e).envStatus ≠ .free) (va len perm : Word) :
    s.Settles (Jos.userMemAssert e va len perm) := by
  have hpeek := userMemCheck_peek e va len (perm ||| pteU)
  refine bind (quiet h (userMemCheck_quiet e va len (perm ||| pteU)) fun r t hr => ?_)
    fun r t hr ht => ?_
  · exact h.tidy.of_peek (hpeek.of_ok hr)
  · split
    · refine envDestroy ht ?_
      rw [((userMemCheck_quiet e va len (perm ||| pteU)).of_ok hr).envs]
      exact hlive
    · exact pure ht _

end Kernel.Settles

/-! ## System calls -/

/-- **`sys_exofork`.** -/
theorem Kernel.Tidy.of_sysExofork (h : s.Tidy ok) (hs : s.Sane) (hl : s.EnvList)
    (hc : s.curenv = some cur) (hkept : s.TablesKept) :
    Triple (fun t => t = s) sysExofork (fun _ t => t.Tidy ok) fun x _ => x.IsPanic := by
  refine Triple.get_bind fun s' hs' => ?_
  subst hs'
  simp only [hc, derefEnv, pure_bind]
  refine Triple.get_bind fun s₁ hs₁ => ?_
  subst hs₁
  refine Triple.bind
    (Q := fun r t => t.Tidy ok ∧ ∀ e, r.2 = some e → (t.envs e).envStatus ≠ .free) ?_
    fun r => ?_
  · rintro t rfl
    cases he : t.envFreeList with
    | none =>
      rw [envAlloc_noSlot he]
      exact ⟨h, by simp⟩
    | some e =>
      cases hp : t.pageFreeList with
      | none =>
        rw [envAlloc_noPage he hp]
        exact ⟨h, by simp⟩
      | some p =>
        have hfree := hl.head_free he
        rw [envAlloc_run he hp (h.below.head p hp)]
        refine ⟨h.newEnv hfree (fun hcur => hs.cur e hcur hfree) hp (hkept p (.head hp)) _, ?_⟩
        rintro e' he'
        obtain rfl : e = e' := Option.some_inj.1 he'
        rw [(newEnv_memOnly t e p _).envs]
        simp [allocated, allocatedEnv]
  · refine Triple.ite (fun _ => Triple.pure fun t ht => ht.1) fun _ => ?_
    cases hr : r.2 with
    | none =>
      exact Triple.bind (Q := fun _ _ => False) (Triple.throw fun _ _ => trivial)
        fun _ _ => False.elim
    | some e =>
      simp only [pure_bind]
      refine Triple.bind (Q := fun _ t => t.Tidy ok ∧ (t.envs e).envStatus ≠ .free)
        (Triple.modify fun t ht => ?_) fun _ => ?_
      · exact ⟨ht.1.of_setEnv rfl (iff_of_false (by simp) (ht.2 e rfl)), by simp⟩
      refine Triple.bind (Q := fun _ t => t.Tidy ok) (Triple.modify fun t ht => ?_) fun _ => ?_
      · exact ht.1.of_setEnv rfl Iff.rfl
      refine Triple.bind (Q := fun _ t => t.Tidy ok) (Triple.modify fun t ht => ?_) fun _ => ?_
      · exact ht.of_setEnv rfl Iff.rfl
      exact Triple.get_bind fun t ht => Triple.pure fun u hu => hu ▸ ht

/-- **Every system call.** -/
theorem Kernel.Settles.handle (h : s.Coherent) (hkept : s.TablesKept) (hc : s.curenv = some cur)
    (c : Syscall) : s.Settles c.handle := by
  have hlive := h.sane.cur cur hc
  cases c with
  | cputs p len =>
    refine bind ?_ fun _ t _ ht => pure ht _
    have hprint :
        s.Settles (do Jos.userMemAssert cur p len pteU; cprintS p len : KernelM Unit) := by
      refine bind (userMemAssert h hlive p len pteU) fun _ t _ ht => ?_
      exact quiet ht (cprintS_quiet p len) fun a u hr =>
        ht.tidy.of_peek ((cprintS_peek p len).of_ok hr)
    refine hprint.congr ?_
    rw [sysCputs, run_bind_ok (EStateM.run_get s), hc]
    rfl
  | cgetc => exact (pure h s.consIn).congr rfl
  | getenvid =>
    refine (pure h (s.envs cur).envId).congr ?_
    simp [Syscall.handle, sysGetenvid, hc, derefEnv]
  | envDestroy envid =>
    cases hr : s.resolve cur envid with
    | none => exact (pure h _).congr (sysEnvDestroy_none hc hr)
    | some e =>
      refine congr ?_ (sysEnvDestroy_some hc hr)
      exact bind (envDestroy h (resolve_live hlive hr)) fun _ t _ ht => pure ht _
  | pageAlloc envid va perm =>
    exact quiet h (sysPageAlloc_quiet _ _ _) fun a t hr => h.tidy.of_sysPageAlloc h.sane hc hkept hr
  | pageMap srcenvid srcva dstenvid dstva perm =>
    exact quiet h (sysPageMap_quiet _ _ _ _ _) fun a t hr =>
      h.tidy.of_sysPageMap h.sane hc hkept hr
  | pageUnmap envid va =>
    exact quiet h (sysPageUnmap_quiet _ _) fun a t hr => h.tidy.of_sysPageUnmap h.sane hc hr
  | exofork =>
    have ht := h.tidy.of_sysExofork h.sane h.list hc hkept
    rintro s rfl
    cases hr : Syscall.exofork.handle.run s with
    | error x t => exact fun hx => absurd (ht.of_error rfl hr) hx
    | ok a t =>
      have hp := (Syscall.handle_runs h.sane hc .exofork).ret a t hr
      exact ⟨hp.sane h.sane, hp.list h.sane h.list, ht.of_ok rfl hr⟩
  | envSetStatus envid status =>
    rcases sysEnvSetStatus_spec hc envid status with ⟨r, -, hrun⟩ | ⟨e, st, hr, hst, hrun⟩
    · exact (pure h r).congr hrun
    · have hp := (sysEnvSetStatus_runs h.sane hc envid status).ret _ _ hrun
      refine (pure ⟨hp.sane h.sane, hp.list h.sane h.list, ?_⟩ 0#32).congr hrun
      exact h.tidy.of_setEnv rfl (iff_of_false (settableStatus_live hst) (resolve_live hlive hr))
  | envSetPgfaultUpcall envid func =>
    cases hr : s.resolve cur envid with
    | none => exact (pure h _).congr (sysEnvSetPgfaultUpcall_none hc hr)
    | some e =>
      have hact : s.Acts (.regs e) (s.setEnv e { s.envs e with envPgfaultUpcall := func }) :=
        .regs e (s.envs e).envTf func
      have h₁ : (s.setEnv e { s.envs e with envPgfaultUpcall := func }).Coherent :=
        ⟨h.sane.act hact, h.list.act h.sane hact, h.tidy.of_setEnv rfl Iff.rfl⟩
      refine congr ?_ (sysEnvSetPgfaultUpcall_some hc hr)
      refine bind (userMemAssert h₁ ?_ func 4#32 0#32) fun _ t _ ht => pure ht _
      simpa using resolve_live hlive hr
  | yield =>
    have hyield : s.Settles sysYield := schedYield h
    exact hyield.bind fun _ t _ ht => pure ht _

/-! ## Kernel operations -/

/-- An operation of the kernel, or what user programs do in between. -/
inductive Op where
  /-- `env_create`, with `load_icode`. -/
  | create (elf : Elf) (type : EnvType)
  /-- `page_insert`. -/
  | insert (e : EnvIndex) (pp : Nat) (va perm : Word)
  /-- `page_remove`. -/
  | remove (e : EnvIndex) (va : Word)
  /-- `pgdir_walk`, which may create a page table. -/
  | walk (e : EnvIndex) (va : Word)
  /-- `env_free`. -/
  | free (e : EnvIndex)
  /-- `env_destroy`, which frees the current environment and calls the scheduler. -/
  | destroy (e : EnvIndex)
  /-- `env_run`. -/
  | run (e : EnvIndex)
  /-- `sched_halt`. -/
  | halt
  /-- A system call of the current environment. -/
  | call (c : Syscall)
  /-- A page is written that is no page table. -/
  | write (p : Nat) (pg : Page)

/-- The page directory of `e`. -/
def envDir (e : EnvIndex) : KernelM Nat := do
  derefPgdir ((← get).envs e).envPgdir

/-- What an operation does. -/
def Op.code : Op → KernelM Unit
  | create elf type => envCreate elf type
  | insert e pp va perm => do
    let _ ← pageInsert (← envDir e) pp va perm
    return ()
  | remove e va => do pageRemove (← envDir e) va
  | walk e va => do
    let _ ← pgdirWalk (← envDir e) va true
    return ()
  | free e => envFree e
  | destroy e => envDestroy e
  | run e => envRun e
  | halt => schedHalt
  | call c => do
    let _ ← c.handle
    return ()
  | write p pg => modify (·.fill p pg)

/-- The kernel, and whether it is still creating the first environments. -/
structure Stage where
  kernel : Kernel
  booting : Bool

/-- Environments are created before the first one is run.  The current environment is freed by
`env_destroy` only, which takes it off the CPU. -/
def Op.Enabled (g : Stage) : Op → Prop
  | create _ _ => g.booting
  | insert e _ va _ | remove e va | walk e va => (g.kernel.envs e).envStatus ≠ .free ∧ va < utop
  | free e => (g.kernel.envs e).envStatus ≠ .free ∧ g.kernel.curenv ≠ some e
  | destroy e | run e => (g.kernel.envs e).envStatus ≠ .free
  | halt => True
  | call _ => g.kernel.curenv ≠ none
  | write p _ => ¬ g.kernel.InUse p

/-- Whether an operation belongs to boot. -/
def Op.Boots : Op → Bool
  | create _ _ => true
  | _ => false

/-- One step of a run on one CPU: the operation returns, or ends in user mode or in `sched_halt`. -/
structure Stage.Step (g : Stage) (op : Op) (g' : Stage) : Prop where
  enabled : op.Enabled g
  run : op.code.run g.kernel = .ok () g'.kernel ∨
    ∃ x, x.GoesOn ∧ op.code.run g.kernel = .error x g'.kernel
  booting : g'.booting = (g.booting && op.Boots)

/-- The kernel is coherent; as long as it boots, it is in the state of boot. -/
structure Stage.Ok (g : Stage) : Prop where
  coherent : g.kernel.Coherent
  booted : g.booting → ∃ m res fl, Booted m res fl g.kernel

/-! ## Whole runs -/

/-- Where the accounts are in order, only free pages are on the free list. -/
theorem Inv.mem_of_onFreeList {res : Nat → Prop} {fl : List Nat} (h : Inv res fl s)
    (hp : s.OnFreeList p) : p ∈ fl := (onFreeList_iff h.chain).1 hp

theorem Inv.apart {res : Nat → Prop} {fl : List Nat} (h : Inv res fl s) : s.Apart where
  unique k k' p hk _ ht ht' := (h.ok.node_unique k p hk ht k' ht').symm
  kern k _ ht := h.kern_ne ht rfl
  user i hi := by rw [h.kern_user i hi, framed_zero]

theorem Inv.tablesKept {res : Nat → Prop} {fl : List Nat} (h : Inv res fl s) : s.TablesKept := by
  rintro p hp (rfl | ⟨k, -, hk⟩)
  · exact h.ok.free_res _ (h.mem_of_onFreeList hp) h.kern_res
  · exact h.ok.free_unref p (h.mem_of_onFreeList hp) k hk

/-- In the state of boot no environment is current. -/
theorem Booted.coherent {m : Machine} {res : Nat → Prop} {fl : List Nat} (h : Booted m res fl s) :
    s.Coherent := by
  have hcur : ∀ e, s.curenv ≠ some e := by
    intro e he
    exact absurd ((h.cpus s.cpunum).symm.trans he) (by simp)
  exact ⟨⟨h.inv.live_dir, fun e he => absurd he (hcur e)⟩, h.inv.env_list,
    h.inv.apart, fun p hp => h.inv.free_lt (h.inv.mem_of_onFreeList hp),
    fun e he => absurd he (hcur e)⟩

variable {g g' : Stage} {op : Op}

theorem envDir_run (hd : s.dir e = some d) : (envDir e).run s = .ok d s := by
  rw [envDir, run_bind_ok (EStateM.run_get s), envPgdir_of_dir hd]
  rfl

/-- `env_create` returns, or the kernel panics. -/
theorem envCreate_panics (elf : Elf) (type : EnvType) :
    Triple (fun _ => True) (envCreate elf type) (fun _ _ => True) fun x _ => x.IsPanic := by
  have hquiet : ∀ {α : Type} {m : KernelM α}, Quiet m →
      Triple (fun _ => True) m (fun _ _ => True) fun x _ => x.IsPanic := by
    intro α m hq s _
    cases hr : m.run s with
    | ok a t => trivial
    | error x t => exact (hq.of_error hr).2
  have hregion : ∀ e va len, Quiet (regionAlloc e va len) := by
    intro e va len
    refine Quiet.forM _ fun k => Quiet.bind (pageAlloc_quiet _) fun o => ?_
    cases o with
    | none => exact Quiet.panic _
    | some pp =>
      exact Quiet.bind Quiet.get fun _ => Quiet.bind (derefPgdir_quiet _) fun d =>
        Quiet.bind (pageInsert_quiet _ _ _ _) fun _ => Quiet.ite (Quiet.panic _) (Quiet.pure _)
  have hcopy : ∀ va src n, Quiet (copyIn va src n) := fun va src n =>
    Quiet.forM _ fun k => kstoreByte_quiet _ _
  have hsegment : ∀ e ph, Quiet (loadSegment e elf ph) := fun e ph =>
    Quiet.ite (Quiet.ite (Quiet.panic _) (Quiet.bind (hregion _ _ _) fun _ =>
      Quiet.bind (hcopy _ _ _) fun _ => hcopy _ _ _)) (Quiet.pure _)
  have hicode : ∀ e, Triple (fun _ => True) (loadIcode e elf) (fun _ _ => True)
      fun x _ => x.IsPanic := by
    intro e
    have hpaddr : ∀ o, Quiet (paddr o) := by
      intro o
      cases o with
      | none => exact Quiet.panic _
      | some d => exact Quiet.pure _
    refine Triple.ite (fun _ => hquiet (Quiet.panic _)) fun _ => ?_
    refine Triple.get_bind fun s _ => Triple.bind (Q := fun _ _ => True)
      ((hquiet (hpaddr _)).conseq (fun _ _ => trivial) (fun _ _ h => h) fun _ _ h => h) fun d => ?_
    refine Triple.bind (Q := fun _ _ => True) (Triple.modify fun _ _ => trivial) fun _ => ?_
    refine Triple.bind (hquiet (Quiet.forM _ (hsegment e))) fun _ => ?_
    refine Triple.bind (Q := fun _ _ => True) (Triple.modify fun _ _ => trivial) fun _ => ?_
    refine Triple.bind (Q := fun _ _ => True) (Triple.modify fun _ _ => trivial) fun _ => ?_
    exact hquiet (hregion _ _ _)
  refine Triple.bind (Q := fun _ _ => True) ?_ fun r => Triple.ite (fun _ => ?_) fun _ => ?_
  · intro s _
    cases hr : (envAlloc 0#32).run s with
    | ok a t => trivial
    | error x t => exact (envAlloc_effect s 0#32).of_error rfl hr
  · exact hquiet (Quiet.panic _)
  · refine Triple.bind (hquiet (derefEnv_quiet _)) fun e => Triple.bind (hicode e) fun _ => ?_
    exact Triple.modify fun _ _ => trivial

theorem Booted.of_envCreate {m : Machine} {res : Nat → Prop} {fl : List Nat} {elf : Elf}
    {type : EnvType} {a : Unit} (h : Booted m res fl s)
    (hr : (envCreate elf type).run s = .ok a t) :
    ∃ fl', Booted m res fl' t := by
  obtain ⟨e, p, fl', hcr, -⟩ :=
    (@Inv.envCreate _ _ _ False h.inv elf type 0 False.elim False.elim).of_ok rfl hr
  exact ⟨fl', hcr.booted h⟩

/-- **Every operation** ends in a coherent state, unless the kernel panics. -/
theorem Stage.Ok.settles (h : g.Ok) (hkept : g.kernel.TablesKept) (hen : op.Enabled g) :
    g.kernel.Settles op.code := by
  have hc := h.coherent
  have hdir : ∀ e, (g.kernel.envs e).envStatus ≠ .free → ∃ d, g.kernel.dir e = some d := by
    intro e he
    obtain ⟨d, hd⟩ := hc.sane.dirs e he
    exact ⟨d, dir_of_pgdir he hd⟩
  cases op with
  | create elf type =>
    obtain ⟨m, res, fl, hb⟩ := h.booted hen
    rintro s rfl
    rw [Op.code]
    cases hr : (envCreate elf type).run g.kernel with
    | error x t => exact fun hx => absurd ((envCreate_panics elf type).of_error trivial hr) hx
    | ok a t =>
      obtain ⟨fl', ht⟩ := hb.of_envCreate hr
      exact ht.coherent
  | insert e pp va perm =>
    obtain ⟨d, hd⟩ := hdir e hen.1
    refine Settles.congr (t := g.kernel) ?_ (run_bind_ok (envDir_run hd))
    refine .bind (.quiet hc (pageInsert_quiet d pp va perm) fun _ t hr => ?_)
      fun _ t _ ht => .pure ht _
    exact hc.tidy.pageInsert hd hen.2 (fun p hp => hkept p (.head hp)) hr
  | remove e va =>
    obtain ⟨d, hd⟩ := hdir e hen.1
    refine Settles.congr (t := g.kernel) ?_ (run_bind_ok (envDir_run hd))
    exact .quiet hc (pageRemove_quiet d va) fun _ t hr => hc.tidy.pageRemove hd hen.2 hr
  | walk e va =>
    obtain ⟨d, hd⟩ := hdir e hen.1
    refine Settles.congr (t := g.kernel) ?_ (run_bind_ok (envDir_run hd))
    refine .bind (.quiet hc (pgdirWalk_quiet d va true) fun _ t hr => ?_) fun _ t _ ht => .pure ht _
    exact hc.tidy.pgdirWalk hd hen.2 (fun p hp => hkept p (.head hp)) hr
  | free e =>
    obtain ⟨d, hd⟩ := hdir e hen.1
    rintro s rfl
    rw [Op.code]
    cases hr : (envFree e).run g.kernel with
    | error x t => exact fun hx => absurd ((envFree_effect _ e).of_error rfl hr) hx
    | ok a t =>
      have hmo := (envFree_effect _ e).of_ok rfl hr
      have hsane := hc.sane.freed hen.2
      refine ⟨hsane.act (.mem hmo), (hc.list.freed hen.1).act hsane (.mem hmo), ?_⟩
      refine ((hc.tidy.mono fun _ _ _ => trivial).of_envFree hd hr).mono ?_
      rintro c hcur - rfl
      rw [hmo.curenv] at hcur
      exact hen.2 hcur
  | destroy e => exact .envDestroy hc hen
  | run e =>
    obtain ⟨d, hd⟩ := hdir e hen
    rintro s rfl
    rw [Op.code, envRun_run (envPgdir_of_dir hd)]
    exact fun _ => hc.dispatch hd
  | halt =>
    rintro s rfl
    rw [Op.code, schedHalt_run]
    cases g.kernel.noneActive with
    | true => exact fun _ => hc
    | false => exact fun _ => hc.halt
  | call c =>
    obtain ⟨cur, hcur⟩ := Option.ne_none_iff_exists'.1 hen
    exact .bind (.handle hc hkept hcur c) fun _ t _ ht => .pure ht _
  | write p pg =>
    refine .quiet hc (Quiet.modify fun _ => rfl) fun _ t hr => ?_
    cases hr
    exact hc.tidy.fill hen pg

theorem Stage.Ok.step (h : g.Ok) (hkept : g.kernel.TablesKept) (hstep : g.Step op g') : g'.Ok := by
  have hsettles := h.settles hkept hstep.enabled
  refine ⟨?_, fun hboot => ?_⟩
  · rcases hstep.run with hr | ⟨x, hx, hr⟩
    · exact hsettles.of_ok rfl hr
    · refine hsettles.of_error rfl hr ?_
      rcases hx with rfl | rfl
      · exact id
      · exact id
  · rw [hstep.booting, Bool.and_eq_true] at hboot
    obtain ⟨hboot, hop⟩ := hboot
    cases op with
    | create elf type =>
      obtain ⟨m, res, fl, hb⟩ := h.booted hboot
      rcases hstep.run with hr | ⟨x, hx, hr⟩
      · obtain ⟨fl', ht⟩ := hb.of_envCreate hr
        exact ⟨m, res, fl', ht⟩
      · have hpanic := (envCreate_panics elf type).of_error trivial hr
        rcases hx with rfl | rfl
        · exact hpanic.elim
        · exact hpanic.elim
    | _ => exact absurd hop (by simp [Op.Boots])

/-- **The TLB is consistent.**  In every run of kernel operations on one CPU, along which no page in
use as a page table or page directory is on the free list, whenever there is a current environment
its directory is loaded, and whatever the CPU may have cached of user memory is what the page tables
say. -/
theorem reaches_synced {m : Machine} {s₀ : Kernel}
    (hboot : (i386Init m).run m.powerOn = .ok () s₀)
    (hr : Reach Stage.Step (fun g _ => g.kernel.TablesKept) ⟨s₀, true⟩ g)
    (hc : g.kernel.curenv = some e) :
    (g.kernel.envs e).envPgdir = some (g.kernel.cr3 g.kernel.cpunum) ∧
      ∀ va < utop, ∀ w ∈ g.kernel.tlb g.kernel.cpunum (pgnum va),
        g.kernel.walk (g.kernel.cr3 g.kernel.cpunum) va = some w := by
  obtain ⟨res, fl, hb⟩ := i386Init_booted hboot
  have hok : g.Ok := hr.inv (I := Stage.Ok) ⟨hb.coherent, fun _ => ⟨m, res, fl, hb⟩⟩
    fun _ _ _ h hkept hstep => h.step hkept hstep
  have hs := hok.coherent.tidy.synced e hc trivial
  exact ⟨envPgdir_of_dir hs.loaded, hs.cached⟩

/-- A machine boots, runs its first environment, and that maps a page. -/
theorem reaches_synced_boot : ∃ s₀ g, (i386Init smallMachine).run smallMachine.powerOn = .ok () s₀ ∧
    Reach Stage.Step (fun g _ => g.kernel.TablesKept) ⟨s₀, true⟩ g ∧ g.kernel.curenv = some 0 ∧
    (g.kernel.envs 0).envPgdir = some (g.kernel.cr3 g.kernel.cpunum) ∧
    ∀ va < utop, ∀ w ∈ g.kernel.tlb g.kernel.cpunum (pgnum va),
      g.kernel.walk (g.kernel.cr3 g.kernel.cpunum) va = some w := by
  have hfree := smallMachine_free
  obtain ⟨s₁, fl₁, s₀, fl, p, -, hcr, hrun, -⟩ :=
    i386Init_first (m := smallMachine) (n := 0) rfl rfl rfl (by omega)
  have hd := hcr.dir
  have hrun₁ := envRun_run (envPgdir_of_dir hd)
  have hslot := sameSlot_dispatch (live_of_dir hd) p
  have hinv : Inv (fun p => p ∉ fl₁) fl (s₀.dispatch 0 p) :=
    hcr.inv.of_envs rfl rfl rfl rfl rfl rfl (fun e => (hslot e).2.2.1) (fun e => (hslot e).2.1)
      fun e => (hslot e).2.2.2
  have hc₁ := dispatch_curenv s₀ 0 p
  obtain ⟨r, s₂, hrun₂, -⟩ :=
    hinv.sysPageAlloc_spec hc₁ (dispatch_live s₀ 0 p 0 hc₁) 0#32 utext (pteP ||| pteU ||| pteW)
  have hstep₁ : Stage.Step ⟨s₀, true⟩ (.run 0) ⟨s₀.dispatch 0 p, false⟩ :=
    ⟨live_of_dir hd, Or.inr ⟨_, Or.inl rfl, hrun₁⟩, rfl⟩
  have hstep₂ : Stage.Step ⟨s₀.dispatch 0 p, false⟩
      (.call (.pageAlloc 0#32 utext (pteP ||| pteU ||| pteW))) ⟨s₂, false⟩ :=
    ⟨Option.ne_none_iff_exists'.2 ⟨0, hc₁⟩, Or.inl (run_bind_ok hrun₂), rfl⟩
  have hreach : Reach Stage.Step (fun g _ => g.kernel.TablesKept) ⟨s₀, true⟩ ⟨s₂, false⟩ :=
    .tail (.tail .refl hcr.inv.tablesKept hstep₁) hinv.tablesKept hstep₂
  have hc₂ : s₂.curenv = some 0 := ((sysPageAlloc_quiet _ _ _).of_ok hrun₂).curenv.trans hc₁
  exact ⟨s₀, _, hrun, hreach, hc₂, reaches_synced hrun hreach hc₂⟩

end Jos
