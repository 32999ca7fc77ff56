import Jos.Alloc.PageInit

/-!
# Boot establishes the allocator invariant

`page_init` puts every page on the free list that it does not keep back, and it keeps back what the
I/O hole, the kernel and the structures of `boot_alloc` occupy.  Mapping the kernel then takes a
page off the list for each page table it needs.  `Laid` is the state of affairs in between: the
free list, and where the pages that are neither on it nor kept back have gone.

Once `env_init` has emptied the environment table there is nothing to account for, so the
allocator invariant holds with everything off the list reserved, and creating the first
environments keeps it.
-/

set_option autoImplicit false

namespace Jos

open Kernel Command

/-! ## Where things are -/

namespace Machine

variable (m : Machine)

/-- The page of `kern_pgdir`. -/
def kernPage : Nat := pgnum (m.bootLayout.kernPgdir - kernbase)

/-- The pages `page_init` keeps back: page 0, the entry code of the other CPUs, the I/O hole, the
kernel, and what `boot_alloc` handed out. -/
def Reserved (i : Nat) : Prop :=
  i = 0 ∨ i = pgnum mpentryPaddr ∨ m.npagesBasemem ≤ i ∧
    (i ≤ pgnum extphysmem ∨ i < pgnum (m.bootLayout.nextfree - kernbase))

instance (i : Nat) : Decidable (m.Reserved i) := by unfold Reserved; infer_instance

/-- The free list `page_init` makes. -/
def initialFree : List Nat := ((List.range m.npages).filter fun i => ¬ m.Reserved i).reverse

theorem npagesBasemem_le : m.npagesBasemem ≤ 160 := by
  have := m.baseLe
  rw [npagesBasemem]
  omega

theorem pagesSize_toNat : m.pagesSize.toNat = (m.npages * 8 + 4095) / 4096 * 4096 := by
  have := m.npages_le
  rw [pagesSize, roundUp_toNat, BitVec.toNat_ofNat]
  omega

theorem envsSize_toNat : envsSize.toNat = 126976 := by decide

theorem kernPgdir_toNat :
    m.bootLayout.kernPgdir.toNat = (m.kernEnd.toNat + 4095) / 4096 * 4096 := by
  have h : m.kernEnd.toNat ≤ 4030726144 := m.kernEndLe
  show (roundUp m.kernEnd pgsize).toNat = _
  rw [roundUp_toNat]
  omega

theorem kernPgdir_ge : 4027580416 ≤ m.bootLayout.kernPgdir.toNat := by
  have h : 4027580416 ≤ m.kernEnd.toNat := m.kernEndGe
  rw [kernPgdir_toNat]
  omega

theorem kernPgdir_le : m.bootLayout.kernPgdir.toNat ≤ 4030726144 := by
  have h : m.kernEnd.toNat ≤ 4030726144 := m.kernEndLe
  rw [kernPgdir_toNat]
  omega

theorem pages_toNat : m.bootLayout.pages.toNat = m.bootLayout.kernPgdir.toNat + 4096 := by
  have h := m.kernPgdir_le
  have hp : (roundUp pgsize pgsize).toNat = 4096 := by decide
  show (m.bootLayout.kernPgdir + roundUp pgsize pgsize).toNat = _
  rw [BitVec.toNat_add, hp]
  omega

theorem envs_toNat :
    m.bootLayout.envs.toNat = m.bootLayout.kernPgdir.toNat + 4096 + m.pagesSize.toNat := by
  have h := m.kernPgdir_le
  have hn := m.npages_le
  show (m.bootLayout.pages + roundUp m.pagesSize pgsize).toNat = _
  rw [BitVec.toNat_add, roundUp_toNat, pages_toNat, pagesSize_toNat]
  omega

theorem nextfree_toNat : m.bootLayout.nextfree.toNat =
    m.bootLayout.kernPgdir.toNat + 4096 + m.pagesSize.toNat + 126976 := by
  have h := m.kernPgdir_le
  have hn := m.npages_le
  have he : (roundUp envsSize pgsize).toNat = 126976 := by decide
  show (m.bootLayout.envs + roundUp envsSize pgsize).toNat = _
  rw [BitVec.toNat_add, he, envs_toNat, pagesSize_toNat]
  omega

theorem kernPage_reserved : m.Reserved m.kernPage := by
  have h1 := m.kernPgdir_ge
  have h2 := m.kernPgdir_le
  have hn := m.npages_le
  have hb := m.npagesBasemem_le
  have hp := m.pagesSize_toNat
  have hk : kernbase.toNat = 4026531840 := by decide
  have hsub : ∀ w : Word, 4026531840 ≤ w.toNat → (w - kernbase).toNat = w.toNat - 4026531840 := by
    intro w hw
    rw [BitVec.toNat_sub_of_le (by rw [BitVec.le_def, hk]; exact hw), hk]
  have hnext := m.nextfree_toNat
  refine Or.inr (Or.inr ⟨?_, Or.inr ?_⟩)
  · rw [kernPage, pgnum_eq, hsub _ (by omega)]
    omega
  · rw [kernPage, pgnum_eq, pgnum_eq, hsub _ (by omega), hsub _ (by omega)]
    omega

theorem mem_initialFree {p : Nat} : p ∈ m.initialFree ↔ p < m.npages ∧ ¬ m.Reserved p := by
  simp [initialFree]

end Machine

/-! ## `page_init` -/

theorem Machine.initialFree_eq (m : Machine) :
    m.initialFree = initFree m.npagesBasemem m.bootLayout.nextfree (List.range m.npages) :=
  congrArg List.reverse (List.filter_congr fun _ _ => decide_eq_decide.2 Iff.rfl)

/-- **`page_init`** puts on the free list exactly what it does not keep back. -/
theorem pageInit_spec (m : Machine) {s : Kernel} (hn : s.npages = m.npages) :
    ∃ t, (pageInit m.npagesBasemem m.bootLayout.nextfree).run s = .ok () t ∧ MemOnly s t ∧
      t.mem = s.mem ∧ Chain t.links t.pageFreeList m.initialFree ∧
      ∀ p ∈ m.initialFree, (t.pages p).ppRef = 0#16 := by
  rw [m.initialFree_eq, ← hn]
  exact pageInit_run m.npagesBasemem m.bootLayout.nextfree s

/-! ## Mapping the kernel -/

/-- A directory entry that is the kernel's: above user memory, and not the one that maps the
directory itself. -/
def KernPde (i : Index) : Prop := ¬ i.val < userPdes ∧ i ≠ pdx uvpt

/-- The state of affairs while the kernel is being mapped. -/
structure Laid (m : Machine) (fl : List Nat) (s : Kernel) : Prop where
  npages : s.npages = m.npages
  kern : s.kernPgdir = m.kernPage
  chain : Chain s.links s.pageFreeList fl
  zero : ∀ p ∈ fl, (s.pages p).ppRef = 0#16
  free : ∀ p ∈ fl, p < m.npages ∧ ¬ m.Reserved p
  /-- A page that is neither kept back nor free has become a page table of the kernel. -/
  cover : ∀ p, p < m.npages → ¬ m.Reserved p →
    p ∈ fl ∨ ∃ i, KernPde i ∧ framed (s.mem m.kernPage i) = some p
  user : ∀ i : Index, i.val < userPdes → s.mem m.kernPage i = 0#32
  table : ∀ i t, KernPde i → framed (s.mem m.kernPage i) = some t →
    t ∉ fl ∧ t < m.npages ∧ ¬ m.Reserved t

namespace Laid

variable {m : Machine} {fl : List Nat} {s : Kernel} {t : Nat}

theorem table_ne (h : Laid m fl s) {i : Index} (hi : KernPde i)
    (ht : framed (s.mem m.kernPage i) = some t) : m.kernPage ≠ t := by
  rintro rfl
  exact (h.table i _ hi ht).2.2 m.kernPage_reserved

/-- Writing an entry of a kernel page table. -/
theorem store (h : Laid m fl s) (ht : m.kernPage ≠ t) (j : Index) (w : Word) :
    Laid m fl (s.store t j w) := by
  have hmem := s.store_mem_ne t j w ht
  exact
    { npages := h.npages
      kern := h.kern
      chain := h.chain
      zero := h.zero
      free := h.free
      cover := by rw [hmem]; exact h.cover
      user := by rw [hmem]; exact h.user
      table := by rw [hmem]; exact h.table }

/-- Making a new page table. -/
theorem newTable (h : Laid m (t :: fl) s) {va : Word} (hva : KernPde (pdx va))
    (hnone : framed (s.mem m.kernPage (pdx va)) = none) :
    Laid m fl (s.newTable m.kernPage va t) := by
  have htfree := h.free t List.mem_cons_self
  have hnd := List.nodup_cons.1 h.chain.nodup
  have hkt : m.kernPage ≠ t := fun hk => htfree.2 (hk ▸ m.kernPage_reserved)
  have hlt : t < 2 ^ 20 := Nat.lt_of_lt_of_le htfree.1 (Nat.le_trans m.npages_le (by decide))
  have hself : framed ((s.newTable m.kernPage va t).mem m.kernPage (pdx va)) = some t := by
    rw [Kernel.newTable, store_mem_self, BitVec.or_assoc (page2pa t ||| pteP)]
    exact framed_entry hlt (by decide)
  have hother : ∀ i, i ≠ pdx va →
      (s.newTable m.kernPage va t).mem m.kernPage i = s.mem m.kernPage i := by
    intro i hi
    rw [Kernel.newTable, store_mem_idx _ _ _ _ hi, incref_mem, fill_mem_ne _ _ _ hkt, pop_mem]
  have hpages : (s.newTable m.kernPage va t).pages = (s.incref t).pages := rfl
  refine
    { npages := h.npages
      kern := h.kern
      chain := ?_
      zero := fun p hp => ?_
      free := fun p hp => h.free p (List.mem_cons_of_mem _ hp)
      cover := fun p hp hr => ?_
      user := fun i hi => ?_
      table := fun i t' hi ht' => ?_ }
  · rw [links_congr hpages, links_incref]
    exact h.chain.2
  · have hne : p ≠ t := fun hpt => hnd.1 (hpt ▸ hp)
    rw [hpages, incref, setPage_pages, Function.update_of_ne hne]
    exact h.zero p (List.mem_cons_of_mem _ hp)
  · rcases h.cover p hp hr with hmem | ⟨i, hi, hf⟩
    · rcases List.mem_cons.1 hmem with rfl | hmem
      · exact Or.inr ⟨pdx va, hva, hself⟩
      · exact Or.inl hmem
    · have hne : i ≠ pdx va := by
        rintro rfl
        exact absurd (hnone.symm.trans hf) (by simp)
      exact Or.inr ⟨i, hi, by rw [hother i hne]; exact hf⟩
  · have hne : i ≠ pdx va := by
      rintro rfl
      exact hva.1 hi
    rw [hother i hne]
    exact h.user i hi
  · by_cases hiv : i = pdx va
    · subst hiv
      obtain rfl : t = t' := Option.some_inj.1 (hself.symm.trans ht')
      exact ⟨hnd.1, htfree⟩
    · rw [hother i hiv] at ht'
      obtain ⟨h1, h2⟩ := h.table i t' hi ht'
      exact ⟨fun hm => h1 (List.mem_cons_of_mem _ hm), h2⟩

/-- `pgdir_walk` for an address of the kernel. -/
theorem walk (h : Laid m fl s) {va : Word} (hva : KernPde (pdx va)) :
    (pgdirWalk m.kernPage va true).run s = .ok none s ∨
      ∃ t fl' s', (pgdirWalk m.kernPage va true).run s = .ok (some ⟨t, ptx va⟩) s' ∧
        m.kernPage ≠ t ∧ Laid m fl' s' ∧ MemOnly s s' := by
  cases hf : framed (s.mem m.kernPage (pdx va)) with
  | some t =>
    have ht := (h.table _ t hva hf).2.1
    exact Or.inr ⟨t, fl, s, pgdirWalk_found hf (h.npages ▸ ht) true, h.table_ne hva hf, h,
      MemOnly.refl s⟩
  | none =>
    cases fl with
    | nil => exact Or.inl (pgdirWalk_full hf h.chain)
    | cons t fl' =>
      have ht := h.free t List.mem_cons_self
      refine Or.inr ⟨t, fl', _, pgdirWalk_create hf h.chain.1 (h.npages ▸ ht.1), ?_,
        h.newTable hva hf, rfl⟩
      rintro hk
      exact ht.2 (hk ▸ m.kernPage_reserved)

/-- **`boot_map_region`** above user memory. -/
theorem bootMapPages (n : Nat) (va pa perm : Word)
    (hva : ∀ k < n, KernPde (pdx (va + BitVec.ofNat 32 (k * 4096)))) (h : Laid m fl s) :
    ∃ fl' s', (bootMapPages m.kernPage perm n va pa).run s = .ok () s' ∧ Laid m fl' s' ∧
      MemOnly s s' := by
  induction n generalizing va pa fl s with
  | zero => exact ⟨fl, s, rfl, h, MemOnly.refl s⟩
  | succ n ih =>
    have h0 : KernPde (pdx va) := by simpa using hva 0 (by omega)
    rcases h.walk h0 with hrun | ⟨t, fl₁, s₁, hrun, hkt, h₁, hmo₁⟩
    · exact ⟨fl, s, run_bind_ok hrun, h, MemOnly.refl s⟩
    · obtain ⟨fl₂, s₂, hrun₂, h₂, hmo₂⟩ := ih (va + pgsize) (pa + pgsize) (fun k hk => by
        have := hva (k + 1) (by omega)
        rwa [show va + BitVec.ofNat 32 ((k + 1) * 4096) =
          va + pgsize + BitVec.ofNat 32 (k * 4096) from by
            rw [BitVec.add_assoc]
            congr 1
            apply BitVec.eq_of_toNat_eq
            simp [pgsize, Nat.add_mul, Nat.add_comm]] at this)
        (h₁.store hkt (ptx va) (pteAddr pa ||| perm ||| pteP))
      refine ⟨fl₂, s₂, ?_, h₂, MemOnly.trans _ _ _ hmo₁
        (MemOnly.trans _ (s₁.store t (ptx va) (pteAddr pa ||| perm ||| pteP)) _ rfl hmo₂)⟩
      rw [Jos.bootMapPages, run_bind_ok hrun]
      exact hrun₂

theorem kernPde_of_ge {va : Word} (hlo : utop.toNat ≤ va.toNat)
    (hself : va.toNat < uvpt.toNat ∨ ulim.toNat ≤ va.toNat) : KernPde (pdx va) := by
  have h1 : utop.toNat = 955 * 4194304 := by decide
  have h2 : uvpt.toNat = 957 * 4194304 := by decide
  have h3 : ulim.toNat = 958 * 4194304 := by decide
  constructor
  · rw [pdx_val, userPdes]
    omega
  · rw [pdx_uvpt]
    intro h
    have := congrArg Fin.val h
    rw [pdx_val] at this
    have h957 : ((957 : Fin 1024) : Nat) = 957 := rfl
    omega

theorem bootMapRegion (h : Laid m fl s) (va size pa perm : Word)
    (hlo : utop.toNat ≤ va.toNat) (hhi : va.toNat + size.toNat ≤ 2 ^ 32)
    (hself : va.toNat + size.toNat ≤ uvpt.toNat ∨ ulim.toNat ≤ va.toNat) :
    ∃ fl' s', (bootMapRegion m.kernPage va size pa perm).run s = .ok () s' ∧ Laid m fl' s' ∧
      MemOnly s s' := by
  have hsize : (size / pgsize).toNat = size.toNat / 4096 := by
    rw [BitVec.toNat_udiv]
    rfl
  refine h.bootMapPages _ va pa perm fun k hk => ?_
  rw [hsize] at hk
  have hk' : (va + BitVec.ofNat 32 (k * 4096)).toNat = va.toNat + k * 4096 := by
    rw [BitVec.toNat_add, BitVec.toNat_ofNat]
    omega
  refine kernPde_of_ge ?_ ?_
  · omega
  · omega

end Laid

theorem paddrKva_run {kva : Word} (h : kernbase ≤ kva) (s : Kernel) :
    (paddrKva kva).run s = .ok (kva - kernbase) s := by
  have hn : ¬ kva < kernbase := BitVec.not_lt.2 h
  simp only [paddrKva, if_neg hn, EStateM.run_pure]

/-- **The kernel's mappings** are all above user memory, and take pages only for page tables. -/
theorem Laid.mapKernel {m : Machine} {fl : List Nat} {s : Kernel} (h : Laid m fl s) :
    ∃ fl' s', (mapKernel m m.kernPage).run s = .ok () s' ∧ Laid m fl' s' ∧ MemOnly s s' := by
  have h1 := m.kernPgdir_ge
  have h2 := m.kernPgdir_le
  have hn := m.npages_le
  have hps := m.pagesSize_toNat
  have hp := m.pages_toNat
  have he := m.envs_toNat
  have hes := Machine.envsSize_toNat
  have hkb : kernbase.toNat = 4026531840 := by decide
  have hut : utop.toNat = 4005560320 := by decide
  have huv : uvpt.toNat = 4013948928 := by decide
  have hul : ulim.toNat = 4018143232 := by decide
  have hup : upages.toNat = 4009754624 := by decide
  have hue : uenvs.toNat = 4005560320 := by decide
  have hks : kstksize.toNat = 32768 := by decide
  have hkt : (kstacktop - kstksize).toNat = 4026499072 := by decide
  have hall : (roundUp (0xFFFFFFFF#32 - kernbase) pgsize).toNat = 268435456 := by decide
  obtain ⟨fl₁, s₁, r₁, l₁, q₁⟩ := h.bootMapRegion upages m.pagesSize
    (m.bootLayout.pages - kernbase) (pteU ||| pteP) (by omega) (by omega) (by omega)
  obtain ⟨fl₂, s₂, r₂, l₂, q₂⟩ := l₁.bootMapRegion m.bootLayout.pages m.pagesSize
    (m.bootLayout.pages - kernbase) (pteW ||| pteP) (by omega) (by omega) (by omega)
  obtain ⟨fl₃, s₃, r₃, l₃, q₃⟩ := l₂.bootMapRegion uenvs envsSize
    (m.bootLayout.envs - kernbase) (pteU ||| pteP) (by omega) (by omega) (by omega)
  obtain ⟨fl₄, s₄, r₄, l₄, q₄⟩ := l₃.bootMapRegion m.bootLayout.envs envsSize
    (m.bootLayout.envs - kernbase) (pteW ||| pteP) (by omega) (by omega) (by omega)
  obtain ⟨fl₅, s₅, r₅, l₅, q₅⟩ := l₄.bootMapRegion (kstacktop - kstksize) kstksize
    (m.bootstack - kernbase) (pteW ||| pteP) (by omega) (by omega) (by omega)
  obtain ⟨fl₆, s₆, r₆, l₆, q₆⟩ := l₅.bootMapRegion kernbase
    (roundUp (0xFFFFFFFF#32 - kernbase) pgsize) 0#32 (pteW ||| pteP) (by omega) (by omega)
    (by omega)
  have p₁ : kernbase ≤ m.bootLayout.pages := by rw [BitVec.le_def]; omega
  have p₂ : kernbase ≤ m.bootLayout.envs := by rw [BitVec.le_def]; omega
  refine ⟨fl₆, s₆, ?_, l₆, ?_⟩
  · rw [Jos.mapKernel, run_bind_ok (paddrKva_run p₁ s), run_bind_ok r₁, run_bind_ok r₂,
      run_bind_ok (paddrKva_run p₂ s₂), run_bind_ok r₃, run_bind_ok r₄,
      run_bind_ok (paddrKva_run m.bootstackGe s₄), run_bind_ok r₅, r₆]
  · exact MemOnly.trans _ _ _ q₁ (MemOnly.trans _ _ _ q₂ (MemOnly.trans _ _ _ q₃
      (MemOnly.trans _ _ _ q₄ (MemOnly.trans _ _ _ q₅ q₆))))

/-- **`mem_init`** succeeds on every machine. -/
theorem memInit_spec (m : Machine) : ∃ fl s, (memInit m).run m.powerOn = .ok () s ∧ Laid m fl s ∧
    s.cpus = m.powerOn.cpus ∧ s.cpunum = m.bootcpu := by
  have hk : kernbase ≤ m.bootLayout.kernPgdir := by
    have h1 := m.kernPgdir_ge
    have hkb : kernbase.toNat = 4026531840 := by decide
    rw [BitVec.le_def]
    omega
  -- the page directory: empty, but for the entry that maps the directory itself
  let s₁ : Kernel := (({ m.powerOn with kernPgdir := m.kernPage }).fill m.kernPage
    fun _ => 0#32).store m.kernPage (pdx uvpt) (page2pa m.kernPage ||| pteU ||| pteP)
  have hdir : ∀ i, i ≠ pdx uvpt → s₁.mem m.kernPage i = 0#32 := by
    intro i hi
    show ((({ m.powerOn with kernPgdir := m.kernPage } : Kernel).fill m.kernPage
      fun _ => 0#32).store m.kernPage (pdx uvpt) _).mem m.kernPage i = 0#32
    rw [store_mem_idx _ _ _ _ hi, fill_mem_self]
  obtain ⟨s₂, hrun₂, hmo₂, hmem₂, hchain, hzero⟩ := pageInit_spec m (s := s₁) rfl
  have hlaid : Laid m m.initialFree s₂ := by
    refine
      { npages := hmo₂.npages
        kern := hmo₂.kernPgdir
        chain := hchain
        zero := hzero
        free := fun p hp => m.mem_initialFree.1 hp
        cover := fun p hp hr => Or.inl (m.mem_initialFree.2 ⟨hp, hr⟩)
        user := fun i hi => ?_
        table := fun i t hi ht => ?_ }
    · rw [hmem₂, hdir i]
      rintro rfl
      exact absurd hi (by decide)
    · rw [hmem₂, hdir i hi.2, framed_zero] at ht
      exact absurd ht (by simp)
  obtain ⟨fl, s₃, hrun₃, hlaid₃, hmo₃⟩ := hlaid.mapKernel
  refine ⟨fl, s₃.lcr3 m.kernPage, ?_, ?_, hmo₃.cpus.trans hmo₂.cpus, hmo₃.cpunum.trans hmo₂.cpunum⟩
  · rw [memInit, run_bind_ok (paddrKva_run hk _)]
    rw [show pgnum (m.bootLayout.kernPgdir - kernbase) = m.kernPage from rfl]
    rw [run_bind_ok (EStateM.run_modify _ _), run_bind_ok (EStateM.run_modify _ _), storeWord,
      run_bind_ok (EStateM.run_modify _ _)]
    refine (run_bind_ok hrun₂).trans ?_
    rw [run_bind_ok hrun₃]
    rfl
  · exact ⟨hlaid₃.npages, hlaid₃.kern, hlaid₃.chain, hlaid₃.zero, hlaid₃.free, hlaid₃.cover,
      hlaid₃.user, hlaid₃.table⟩

/-! ## `env_init` -/

/-- The invariant of the loop of `env_init`, once it has dealt with `pre`. -/
structure EnvInit (s : Kernel) (pre : List EnvIndex) (t : Kernel) : Prop where
  rest : t = { s with envs := t.envs, envFreeList := t.envFreeList }
  chain : Chain (fun e => (t.envs e).envLink) t.envFreeList pre.reverse
  free : ∀ e ∈ pre, (t.envs e).envStatus = .free ∧ (t.envs e).envId = 0#32

/-- The environment `env_init` makes of `env`. -/
def initEnv (env : Env) (link : Option EnvIndex) : Env :=
  { env with
    envId := 0#32
    envParentId := 0#32
    envType := .user
    envStatus := .free
    envRuns := 0#32
    envPgdir := none
    envLink := link }

theorem envInitOne_run (t : Kernel) (i : EnvIndex) : (envInitOne i).run t =
    .ok () { t.setEnv i (initEnv (t.envs i) t.envFreeList) with envFreeList := some i } := by
  simp [envInitOne, updateEnv, initEnv, setEnv]

theorem EnvInit.step {s : Kernel} {pre : List EnvIndex} {i : EnvIndex} (hi : i ∉ pre) :
    Triple (EnvInit s pre) (envInitOne i) (fun _ => EnvInit s (pre ++ [i])) fun _ _ => False := by
  intro t ht
  rw [envInitOne_run]
  refine ⟨?_, ?_, fun e he => ?_⟩
  · rw [ht.rest]
    rfl
  · have hl : (fun e => ((t.setEnv i (initEnv (t.envs i) t.envFreeList)).envs e).envLink) =
        Function.update (fun e => (t.envs e).envLink) i t.envFreeList := by
      funext e
      by_cases he : e = i
      · subst he; simp [initEnv]
      · simp [he]
    rw [List.reverse_append]
    show Chain (fun e => ((t.setEnv i (initEnv (t.envs i) t.envFreeList)).envs e).envLink)
      (some i) (i :: pre.reverse)
    rw [hl]
    exact ht.chain.push (by simpa using hi)
  · by_cases hei : e = i
    · subst hei
      simp [initEnv]
    · simpa [hei] using ht.free e (by simpa [hei] using he)

/-- **`env_init`** frees every environment, and takes its id away. -/
theorem envInit_spec (s : Kernel) : ∃ t, envInit.run s = .ok () t ∧
    t = { s with envs := t.envs, envFreeList := t.envFreeList } ∧
    Chain (fun e => (t.envs e).envLink) t.envFreeList indices ∧
    ∀ e, (t.envs e).envStatus = .free ∧ (t.envs e).envId = 0#32 := by
  have hnd : indices.reverse.Nodup := List.nodup_reverse.2 nodup_indices
  have hmem : ∀ e : EnvIndex, e ∈ indices.reverse := fun e => List.mem_reverse.2 (mem_indices e)
  have hrev : indices.reverse.reverse = indices := List.reverse_reverse _
  rw [envInit]
  generalize indices.reverse = l at hnd hmem hrev
  have h := Triple.forM_prefix (E := fun _ _ => False)
    (I := EnvInit { s with envFreeList := none }) (f := envInitOne) l (fun pre i post hl => by
      refine EnvInit.step fun hi => ?_
      rw [hl] at hnd
      exact (List.nodup_append.1 hnd).2.2 i hi i List.mem_cons_self rfl)
    { s with envFreeList := none } ⟨rfl, rfl, fun e he => absurd he (by simp)⟩
  rw [run_bind_ok (EStateM.run_modify _ _)]
  cases hr : (l.forM envInitOne).run { s with envFreeList := none } with
  | error x t =>
    rw [hr] at h
    exact h.elim
  | ok a t =>
    rw [hr] at h
    exact ⟨t, rfl, h.rest, hrev ▸ h.chain, fun e => h.free e (hmem e)⟩

/-- With no environment there is nothing to account for. -/
theorem Laid.inv {m : Machine} {fl : List Nat} {s : Kernel} (h : Laid m fl s)
    (hlist : ∃ el, Chain (fun e => (s.envs e).envLink) s.envFreeList el ∧ ∀ e, e ∈ el)
    (hfree : ∀ e, (s.envs e).envStatus = .free) : Inv (fun p => p ∉ fl) fl s := by
  have hdir : ∀ e, s.dir e = none := fun e => by rw [Kernel.dir, if_pos (hfree e)]
  have htgt : ∀ k, s.target k = none := by
    intro k
    cases k with
    | dir e => exact hdir e
    | table e i => exact table_eq_none (hdir e) i
    | page e i j => exact leaf_eq_none (table_eq_none (hdir e) i) j
  have hnone : ∀ {e d}, s.dir e ≠ some d := fun {e d} => by rw [hdir]; simp
  have hkern : s.kernPgdir ∉ fl := by
    rw [h.kern]
    exact fun hm => (h.free _ hm).2 m.kernPage_reserved
  exact
    { chain := h.chain
      ok :=
        { nodup := h.chain.nodup
          free_unref := fun f _ k hk => absurd ((htgt k).symm.trans hk) (by simp)
          free_res := fun f hf hn => hn hf
          target_res := fun k f hk => absurd ((htgt k).symm.trans hk) (by simp)
          ref_eq := fun f hf => by
            have h0 : Ledger.refs s.target f = 0 :=
              Ledger.refs_eq_zero_iff.2 fun k => by rw [htgt k]; simp
            show s.counts f = Ledger.refs s.target f
            rw [h0, counts, h.zero f (not_not.1 hf)]
            rfl
          node_unique := fun k f _ hk => absurd ((htgt k).symm.trans hk) (by simp) }
      res_ge := fun p hp hm => absurd (h.free p hm).1 (by rw [← h.npages]; omega)
      zero_pde := fun e d hd => absurd hd hnone
      zero_pte := fun e i t ht => absurd ((table_eq_none (hdir e) i).symm.trans ht) (by simp)
      live_dir := fun e he => absurd (hfree e) he
      kern_res := hkern
      kern_user := by rw [h.kern]; exact h.user
      kern_table := fun i t hi hne ht => by
        rw [h.kern] at ht
        exact (h.table i t ⟨hi, hne⟩ ht).1
      dir_kern := fun e d hd => absurd hd hnone
      dir_self := fun e d hd => absurd hd hnone
      env_list := by
        obtain ⟨el, hc, hall⟩ := hlist
        exact ⟨el, hc, fun e => ⟨fun _ => hfree e, fun _ => hall e⟩⟩ }

end Jos
