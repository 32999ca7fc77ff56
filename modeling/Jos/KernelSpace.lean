import Jos.BootMap
import Jos.Tlb
import Mathlib.Order.Interval.Finset.Nat

/-!
# The kernel's part of the address space

`mem_init` calls `boot_map_region` six times.  Each call writes its own range over what the calls
before it have mapped, so what is left is one range after the other: the windows through which
programs read `pages` and `envs`, the kernel stack, and all of physical memory at `KERNBASE`.  The
two calls that map `pages` and `envs` where the kernel uses them leave nothing behind, because that
is physical memory, too.

Between the windows nothing is mapped, and so a kernel stack that grows too large faults.
-/

set_option autoImplicit false

namespace Jos

open Kernel Command

variable {s s' t : Kernel} {fl fl' : List Nat} {d p q n k : Nat} {va size pa perm a : Word}
variable {i j : Index} {new : List (Index × Nat)} {m : Machine}

/-! ## One region -/

instance (va size a : Word) : Decidable (InRegion va size a) := by unfold InRegion; infer_instance

/-- The page that `a` is mapped to, by a region at `va` that is mapped to `pa`. -/
def regionPage (va pa a : Word) : Nat := pgnum (pa + (roundDown a pgsize - va))

/-- The page tables are still distinct, and what is left of the free list is still free. -/
theorem Building.distinctTables (h : Building s d fl va pa perm n k new fl' t)
    (hs : s.DistinctTables d fl) : t.DistinctTables d fl' := by
  have hsub : ∀ p ∈ fl', p ∈ fl := fun p hp => h.split ▸ List.mem_append_right _ hp
  have hnd := hs.chain.nodup
  rw [h.split, List.nodup_append] at hnd
  have hnew : ∀ p ∈ fl', p ∉ new.map Prod.snd := fun p hp hm => hnd.2.2 p hm p hp rfl
  refine ⟨h.chain, fun p hp => ?_, fun p hp => ?_, fun hd => hs.dir (hsub d hd), fun i q hq => ?_,
    fun i i' q hq hq' => h.table_inj hs hq hq'⟩
  · rw [h.npages]
    exact hs.below p (hsub p hp)
  · rw [h.refs p (hnew p hp)]
    exact hs.zero p (hsub p hp)
  · refine ⟨h.table_lt hs hq, fun hfl => ?_⟩
    rcases h.table_cases hs hq with hip | ⟨-, hold⟩
    · exact hnew q hfl (List.mem_map_of_mem hip)
    · exact (hs.table i q hold).2 (hsub q hfl)

/-- How many directory entries a region extends over. -/
def regionTables (va size : Word) : Nat :=
  (va.toNat + size.toNat - 1) / 4194304 - va.toNat / 4194304 + 1

theorem missing_ncard_le (s : Kernel) (d : Nat) (va size : Word) :
    {i | s.Missing d va size i}.ncard ≤ regionTables va size := by
  have hsub : {i : Index | s.Missing d va size i}.ncard ≤
      (Finset.Icc (va.toNat / 4194304)
        ((va.toNat + size.toNat - 1) / 4194304) : Set Nat).ncard := by
    refine Set.ncard_le_ncard_of_injOn Fin.val ?_ Fin.val_injective.injOn (Finset.finite_toSet _)
    rintro i ⟨-, a, ⟨hlo, hhi⟩, rfl⟩
    rw [Finset.mem_coe, Finset.mem_Icc, pdx_val]
    omega
  refine hsub.trans ?_
  rw [Set.ncard_coe_finset, Nat.card_Icc, regionTables]
  omega

/-- What the calls of `boot_map_region` rely on: the directory `d` maps itself at `UVPT`. -/
structure Mapping (d : Nat) (fl : List Nat) (s : Kernel) : Prop where
  tables : s.DistinctTables d fl
  self : framed (s.mem d (pdx uvpt)) = some d
  /-- A page table grants everything: it is up to its entries. -/
  open_ : ∀ i t, i ≠ pdx uvpt → framed (s.mem d i) = some t →
    s.mem d i = page2pa t ||| pteP ||| pteW ||| pteU

/-- **One call of `boot_map_region`**: the region is mapped, and the other addresses are mapped as
they were. -/
theorem Mapping.region (h : Mapping d fl s) (va size pa : Word) (hperm : IsPerm perm)
    (hva : va.toNat % 4096 = 0) (hsize : size.toNat % 4096 = 0)
    (hend : va.toNat + size.toNat ≤ 2 ^ 32) (hself : ∀ a, InRegion va size a → pdx a ≠ pdx uvpt)
    (hroom : regionTables va size ≤ fl.length) :
    ∃ fl' s', (bootMapRegion d va size pa perm).run s = .ok () s' ∧ Mapping d fl' s' ∧
      fl.length ≤ fl'.length + regionTables va size ∧
      ∀ a, pdx a ≠ pdx uvpt → s'.mapping d a =
        if InRegion va size a then some (regionPage va pa a, perm ||| pteP) else s.mapping d a := by
  have hn : (size / pgsize).toNat = size.toNat / 4096 := by
    rw [BitVec.toNat_udiv]
    rfl
  have havoid : ∀ a, InRegion va size a → framed (s.mem d (pdx a)) ≠ some d := fun a ha hf =>
    hself a ha (h.tables.distinct _ _ d hf h.self)
  have hmissing := (missing_ncard_le s d va size).trans hroom
  obtain ⟨new, fl', s', hrun, hb⟩ :=
    bootMapRegion_exact h.tables pa perm hva hsize hend havoid hmissing
  -- the same run once more, for what it leaves of the free list
  obtain ⟨new', fl₁, t, hrun', hbuild⟩ :=
    (Building.start h.tables va pa perm (size.toNat / 4096)).loop
    h.tables (by omega) (fun k hk => havoid _ (pageAfter_inRegion hva hsize hend hk))
    (by simpa only [missing_iff hva hsize hend] using hmissing) (Nat.zero_add _)
  rw [pageAfter_zero, pageAfter_zero, ← hn] at hrun'
  obtain rfl : s' = t := (EStateM.Result.ok.inj (hrun.symm.trans hrun')).2
  obtain rfl : fl' = fl₁ := hb.chain.unique hbuild.chain
  refine ⟨fl', s', hrun, ⟨hbuild.distinctTables h.tables, hbuild.framed_old h.self,
    fun i q hi hq => ?_⟩, ?_, fun a ha => ?_⟩
  · rcases hbuild.table_cases h.tables hq with hip | ⟨hold, hf⟩
    · exact hbuild.made i q hip
    · rw [hbuild.kept i hold]
      exact h.open_ i q hi hf
  · have hcount : (new.map Prod.fst).length ≤ {i | s.Missing d va size i}.ncard := by
      rw [← List.toFinset_card_of_nodup hb.once, ← Set.ncard_coe_finset]
      refine Set.ncard_le_ncard (fun i hi => ?_) (Set.toFinite _)
      exact (hb.missing i).1 (List.mem_toFinset.1 hi)
    have hlen := congrArg List.length hb.split
    have hle := missing_ncard_le s d va size
    rw [List.length_append, List.length_map] at hlen
    rw [List.length_map] at hcount
    omega
  · split
    · next hin =>
      obtain ⟨hlo, hhi⟩ := hin
      have hdown := roundDown_toNat a
      have hk : (roundDown a pgsize - va).toNat = a.toNat / 4096 * 4096 - va.toNat := by
        rw [BitVec.toNat_sub_of_le (by rw [BitVec.le_def]; omega), hdown]
      have hmap := hb.mapped hperm (roundDown a pgsize - va) (by omega) (by omega)
      rw [show va + (roundDown a pgsize - va) = roundDown a pgsize from by
        rw [BitVec.add_comm, BitVec.sub_add_cancel]] at hmap
      have hpage : pgnum a = pgnum (roundDown a pgsize) := by
        rw [pgnum_eq, pgnum_eq, hdown]
        omega
      rw [mapping, walk_page hpage]
      exact hmap
    · next hout =>
      exact hb.others a hout fun hf => absurd (h.tables.distinct _ _ d hf h.self) ha

/-! ## All of them -/

/-- Physical memory from `KERNBASE` to the end of the address space. -/
def kernSize : Word := roundUp (0xFFFFFFFF#32 - kernbase) pgsize

/-- Where `mem_init` maps an address above `UTOP`, and with which flags. -/
def Machine.kernelMapping (m : Machine) (a : Word) : Option (Nat × Word) :=
  if InRegion kernbase kernSize a then
    some (regionPage kernbase 0#32 a, pteW ||| pteP)
  else if InRegion (kstacktop - kstksize) kstksize a then
    some (regionPage (kstacktop - kstksize) (m.bootstack - kernbase) a, pteW ||| pteP)
  else if InRegion uenvs envsSize a then
    some (regionPage uenvs (m.bootLayout.envs - kernbase) a, pteU ||| pteP)
  else if InRegion upages m.pagesSize a then
    some (regionPage upages (m.bootLayout.pages - kernbase) a, pteU ||| pteP)
  else
    none

theorem pdx_ne_uvpt (h : a.toNat < uvpt.toNat ∨ ulim.toNat ≤ a.toNat) : pdx a ≠ pdx uvpt := by
  have h1 : uvpt.toNat = 957 * 4194304 := by decide
  have h2 : ulim.toNat = 958 * 4194304 := by decide
  rw [pdx_uvpt]
  intro hp
  have hv := congrArg Fin.val hp
  rw [pdx_val] at hv
  have h957 : ((957 : Fin 1024) : Nat) = 957 := rfl
  omega

/-- **The kernel's mappings**, if there are pages enough for the page tables. -/
theorem Mapping.mapKernel (h : Mapping m.kernPage fl s)
    (hnone : ∀ a, pdx a ≠ pdx uvpt → s.mapping m.kernPage a = none) (hroom : 71 ≤ fl.length) :
    ∃ fl' s', (mapKernel m m.kernPage).run s = .ok () s' ∧ Mapping m.kernPage fl' s' ∧
      ∀ a, pdx a ≠ pdx uvpt → s'.mapping m.kernPage a = m.kernelMapping a := by
  have h1 := m.kernPgdir_ge
  have h2 := m.kernPgdir_le
  have hkp := m.kernPgdir_toNat
  have hn := m.npages_le
  have hps := m.pagesSize_toNat
  have hp := m.pages_toNat
  have he := m.envs_toNat
  have hes := Machine.envsSize_toNat
  have hkb : kernbase.toNat = 4026531840 := by decide
  have huv : uvpt.toNat = 4013948928 := by decide
  have hul : ulim.toNat = 4018143232 := by decide
  have hup : upages.toNat = 4009754624 := by decide
  have hue : uenvs.toNat = 4005560320 := by decide
  have hks : kstksize.toNat = 32768 := by decide
  have hkt : (kstacktop - kstksize).toNat = 4026499072 := by decide
  have hall : kernSize.toNat = 268435456 := by decide
  have hU : (pteU ||| pteP) ||| pteP = pteU ||| pteP := by decide
  have hW : (pteW ||| pteP) ||| pteP = pteW ||| pteP := by decide
  obtain ⟨fl₁, s₁, r₁, l₁, n₁, q₁⟩ := h.region upages m.pagesSize
    (m.bootLayout.pages - kernbase) (show IsPerm (pteU ||| pteP) by decide) (by omega) (by omega)
    (by omega) (fun a ha => pdx_ne_uvpt (Or.inl (by have := ha.2; omega)))
    (by rw [regionTables]; omega)
  rw [regionTables] at n₁
  obtain ⟨fl₂, s₂, r₂, l₂, n₂, q₂⟩ := l₁.region m.bootLayout.pages m.pagesSize
    (m.bootLayout.pages - kernbase) (show IsPerm (pteW ||| pteP) by decide) (by omega) (by omega)
    (by omega) (fun a ha => pdx_ne_uvpt (Or.inr (by have := ha.1; omega)))
    (by rw [regionTables]; omega)
  rw [regionTables] at n₂
  obtain ⟨fl₃, s₃, r₃, l₃, n₃, q₃⟩ := l₂.region uenvs envsSize
    (m.bootLayout.envs - kernbase) (show IsPerm (pteU ||| pteP) by decide) (by omega) (by omega)
    (by omega) (fun a ha => pdx_ne_uvpt (Or.inl (by have := ha.2; omega)))
    (by rw [regionTables]; omega)
  rw [regionTables] at n₃
  obtain ⟨fl₄, s₄, r₄, l₄, n₄, q₄⟩ := l₃.region m.bootLayout.envs envsSize
    (m.bootLayout.envs - kernbase) (show IsPerm (pteW ||| pteP) by decide) (by omega) (by omega)
    (by omega) (fun a ha => pdx_ne_uvpt (Or.inr (by have := ha.1; omega)))
    (by rw [regionTables]; omega)
  rw [regionTables] at n₄
  obtain ⟨fl₅, s₅, r₅, l₅, n₅, q₅⟩ := l₄.region (kstacktop - kstksize) kstksize
    (m.bootstack - kernbase) (show IsPerm (pteW ||| pteP) by decide) (by omega) (by omega)
    (by omega) (fun a ha => pdx_ne_uvpt (Or.inr (by have := ha.1; omega)))
    (by rw [regionTables]; omega)
  rw [regionTables] at n₅
  obtain ⟨fl₆, s₆, r₆, l₆, -, q₆⟩ := l₅.region kernbase kernSize
    0#32 (show IsPerm (pteW ||| pteP) by decide) (by omega) (by omega)
    (by omega) (fun a ha => pdx_ne_uvpt (Or.inr (by have := ha.1; omega)))
    (by rw [regionTables]; omega)
  have p₁ : kernbase ≤ m.bootLayout.pages := by rw [BitVec.le_def]; omega
  have p₂ : kernbase ≤ m.bootLayout.envs := by rw [BitVec.le_def]; omega
  refine ⟨fl₆, s₆, ?_, l₆, fun a ha => ?_⟩
  · rw [Jos.mapKernel, run_bind_ok (paddrKva_run p₁ s), run_bind_ok r₁, run_bind_ok r₂,
      run_bind_ok (paddrKva_run p₂ s₂), run_bind_ok r₃, run_bind_ok r₄,
      run_bind_ok (paddrKva_run m.bootstackGe s₄), run_bind_ok r₅]
    exact r₆
  · rw [q₆ a ha, Machine.kernelMapping, hW]
    split
    · rfl
    · next hout =>
      -- where the kernel uses them, `pages` and `envs` are physical memory
      have hpages : ¬ InRegion m.bootLayout.pages m.pagesSize a := fun hin =>
        hout ⟨by have := hin.1; omega, by have := hin.2; omega⟩
      have henvs : ¬ InRegion m.bootLayout.envs envsSize a := fun hin =>
        hout ⟨by have := hin.1; omega, by have := hin.2; omega⟩
      rw [q₅ a ha, q₄ a ha, if_neg henvs, q₃ a ha, q₂ a ha, if_neg hpages, q₁ a ha, hnone a ha, hW,
        hU]

/-- The page directory when `page_init` has been run: empty, but for the entry that maps it. -/
theorem memInit_start (hmem : m.kernPage < m.npages) : ∃ s, Mapping m.kernPage m.initialFree s ∧
    s.kernPgdir = m.kernPage ∧ (∀ a, pdx a ≠ pdx uvpt → s.mapping m.kernPage a = none) ∧
    ∀ s', (mapKernel m m.kernPage).run s = .ok () s' →
      (memInit m).run m.powerOn = .ok () (s'.lcr3 m.kernPage) := by
  have hk : kernbase ≤ m.bootLayout.kernPgdir := by
    have h1 := m.kernPgdir_ge
    have hkb : kernbase.toNat = 4026531840 := by decide
    rw [BitVec.le_def]
    omega
  have hkern : m.kernPage < 2 ^ 20 := by
    have hlt := (m.bootLayout.kernPgdir - kernbase).isLt
    rw [Machine.kernPage, pgnum_eq]
    omega
  let s₁ : Kernel := (({ m.powerOn with kernPgdir := m.kernPage }).fill m.kernPage
    fun _ => 0#32).store m.kernPage (pdx uvpt) (page2pa m.kernPage ||| pteU ||| pteP)
  obtain ⟨s, hrun, hmo, hpages, hchain, hzero⟩ := pageInit_spec m (s := s₁) rfl
  have hself : framed (s.mem m.kernPage (pdx uvpt)) = some m.kernPage := by
    have hword : s₁.mem m.kernPage (pdx uvpt) = page2pa m.kernPage ||| pteU ||| pteP :=
      store_mem_self _ _ _ _
    rw [hpages, hword, BitVec.or_assoc, BitVec.or_comm pteU, ← BitVec.or_assoc]
    exact framed_entry hkern (by decide)
  have hdir : ∀ i, i ≠ pdx uvpt → framed (s.mem m.kernPage i) = none := by
    intro i hi
    have hword : s₁.mem m.kernPage i = 0#32 := by
      show ((({ m.powerOn with kernPgdir := m.kernPage } : Kernel).fill m.kernPage
        fun _ => 0#32).store m.kernPage (pdx uvpt) _).mem m.kernPage i = 0#32
      rw [store_mem_idx _ _ _ _ hi, fill_mem_self]
    rw [hpages, hword, framed_zero]
  have huvpt : ∀ i q, framed (s.mem m.kernPage i) = some q → i = pdx uvpt ∧ q = m.kernPage := by
    intro i q hq
    have hi : i = pdx uvpt := by
      by_contra hi
      rw [hdir i hi] at hq
      exact absurd hq (by simp)
    refine ⟨hi, ?_⟩
    rw [hi, hself] at hq
    exact (Option.some_inj.1 hq).symm
  have hfree : m.kernPage ∉ m.initialFree := fun hfl =>
    (m.mem_initialFree.1 hfl).2 m.kernPage_reserved
  refine ⟨s, ⟨⟨hchain, fun p hp => ?_, hzero, hfree, fun i q hq => ?_, fun i i' q hq hq' => ?_⟩,
    hself, fun i q hi hq => absurd (huvpt i q hq).1 hi⟩, hmo.kernPgdir, fun a ha => ?_,
    fun s' hmap => ?_⟩
  · rw [hmo.npages]
    exact (m.mem_initialFree.1 hp).1
  · rw [(huvpt i q hq).2, hmo.npages]
    exact ⟨hmem, hfree⟩
  · rw [(huvpt i q hq).1, (huvpt i' q hq').1]
  · rw [mapping, walk, hdir _ ha]
    rfl
  · rw [memInit, run_bind_ok (paddrKva_run hk _)]
    rw [show pgnum (m.bootLayout.kernPgdir - kernbase) = m.kernPage from rfl]
    rw [run_bind_ok (EStateM.run_modify _ _), run_bind_ok (EStateM.run_modify _ _), storeWord,
      run_bind_ok (EStateM.run_modify _ _)]
    refine (run_bind_ok hrun).trans ?_
    rw [run_bind_ok hmap]
    rfl

/-- Nothing of it is below `UTOP`. -/
theorem kernelMapping_user (h : a < utop) : m.kernelMapping a = none := by
  rw [BitVec.lt_def] at h
  have hut : utop.toNat = 4005560320 := by decide
  have hkb : kernbase.toNat = 4026531840 := by decide
  have hup : upages.toNat = 4009754624 := by decide
  have hue : uenvs.toNat = 4005560320 := by decide
  have hkt : (kstacktop - kstksize).toNat = 4026499072 := by decide
  rw [Machine.kernelMapping, if_neg (fun hin => by have := hin.1; omega),
    if_neg (fun hin => by have := hin.1; omega), if_neg (fun hin => by have := hin.1; omega),
    if_neg (fun hin => by have := hin.1; omega)]

/-- The directory `d` has the kernel's part of the address space. -/
structure Kernel.HasKernel (s : Kernel) (m : Machine) (d : Nat) : Prop where
  /-- An address is mapped where it should be, -/
  mapping : ∀ a, utop ≤ a → pdx a ≠ pdx uvpt → s.mapping d a = m.kernelMapping a
  /-- and what can be done there is up to the page tables. -/
  open_ : ∀ i t, KernPde i → framed (s.mem d i) = some t →
    s.mem d i = page2pa t ||| pteP ||| pteW ||| pteU

/-- **`mem_init` lays out the address space**: but for the view of the page tables at `UVPT`, an
address is mapped where `Machine.kernelMapping` says, and nowhere else. -/
theorem memInit_maps (hmem : m.kernPage < m.npages) (hroom : 71 ≤ m.initialFree.length) :
    ∃ s, (memInit m).run m.powerOn = .ok () s ∧ s.kernPgdir = m.kernPage ∧
      s.cr3 s.cpunum = m.kernPage ∧ s.HasKernel m m.kernPage ∧
      ∀ a, a < utop → s.mapping m.kernPage a = none := by
  obtain ⟨s, h, hkern, hnone, hrun⟩ := memInit_start hmem
  obtain ⟨fl, s', hmap, h', hall⟩ := h.mapKernel hnone hroom
  refine ⟨_, hrun s' hmap, ?_, Function.update_self _ _ _, ⟨fun a _ ha => hall a ha,
    fun i t hi ht => h'.open_ i t hi.2 ht⟩, fun a ha => ?_⟩
  · obtain ⟨fl₁, s₁, hrun₁, hlaid, -⟩ := memInit_spec m
    obtain rfl := (EStateM.Result.ok.inj ((hrun s' hmap).symm.trans hrun₁)).2
    exact hlaid.kern
  · have hne : pdx a ≠ pdx uvpt := by
      refine pdx_ne_uvpt (Or.inl ?_)
      have hut : utop.toNat = 4005560320 := by decide
      have huv : uvpt.toNat = 4013948928 := by decide
      rw [BitVec.lt_def] at ha
      omega
    exact (hall a hne).trans (kernelMapping_user ha)

theorem smallMachine_fits : smallMachine.kernPage < smallMachine.npages ∧
    71 ≤ smallMachine.initialFree.length :=
  ⟨by decide, Nat.le_trans (by decide) smallMachine_free⟩

theorem memInit_maps_small : ∃ s,
    (memInit smallMachine).run smallMachine.powerOn = .ok () s ∧
    s.HasKernel smallMachine smallMachine.kernPage ∧
    ∀ a, a < utop → s.mapping smallMachine.kernPage a = none := by
  obtain ⟨s, hrun, -, -, hk, huser⟩ := memInit_maps smallMachine_fits.1 smallMachine_fits.2
  exact ⟨s, hrun, hk, huser⟩

end Jos
