import Jos.Alloc.Boot
import Jos.Alloc.Store

/-!
# The first environments

`env_create` allocates an environment, maps its segments and its stack, and copies the program in
through the new page directory.  All of it keeps the allocator invariant: `region_alloc` maps pages
fresh from the free list, and the copying writes through user addresses, which lead to user pages.

`Booted` is what the first call of the scheduler finds.
-/

set_option autoImplicit false

namespace Jos

open Kernel Command

variable {m : Machine} {res : Nat → Prop} {fl : List Nat} {s s' : Kernel} {e : EnvIndex}
variable {d : Nat}

/-! ## What boot leaves behind -/

/-- The state in which the scheduler is called for the first time. -/
structure Booted (m : Machine) (res : Nat → Prop) (fl : List Nat) (s : Kernel) : Prop where
  inv : Inv res fl s
  npages : s.npages = m.npages
  reserved : ∀ p, m.Reserved p → res p
  /-- Apart from what `page_init` keeps back, only the kernel's page tables are reserved. -/
  cover : ∀ p, p < m.npages → res p →
    m.Reserved p ∨ ∃ i, KernPde i ∧ framed (s.mem s.kernPgdir i) = some p
  idle : ∀ e, (s.envs e).envStatus = .free ∨ (s.envs e).envStatus = .runnable
  cpus : ∀ c, (s.cpus c).cpuEnv = none

theorem Booted.of_frame {fl' : List Nat} (h : Booted m res fl s) (hinv : Inv res fl' s')
    (hf : Frame res (fun _ => True) s s')
    (hidle : ∀ e, (s'.envs e).envStatus = .free ∨ (s'.envs e).envStatus = .runnable)
    (hcpus : s'.cpus = s.cpus) : Booted m res fl' s' where
  inv := hinv
  npages := hf.npages.trans h.npages
  reserved := h.reserved
  cover p hp hr := by
    rw [hf.kernPgdir, hf.mem _ fun hpriv => hpriv.1 h.inv.kern_res]
    exact h.cover p hp hr
  idle := hidle
  cpus c := by rw [hcpus]; exact h.cpus c

/-- Before the first environment is created. -/
theorem Laid.booted (h : Laid m fl s)
    (hlist : ∃ el, Chain (fun e => (s.envs e).envLink) s.envFreeList el ∧ ∀ e, e ∈ el)
    (hfree : ∀ e, (s.envs e).envStatus = .free) (hcpus : ∀ c, (s.cpus c).cpuEnv = none) :
    Booted m (fun p => p ∉ fl) fl s where
  inv := h.inv hlist hfree
  npages := h.npages
  reserved p hr hm := (h.free p hm).2 hr
  cover p hp hn := by
    rw [h.kern]
    by_cases hr : m.Reserved p
    · exact Or.inl hr
    · rcases h.cover p hp hr with hm | hi
      · exact absurd hm hn
      · exact Or.inr hi
  idle e := Or.inl (hfree e)
  cpus := hcpus

/-! ## While an environment is being loaded -/

/-- The state with the registers and the type of `e` replaced, and with other directories loaded. -/
def Kernel.retyped (s : Kernel) (e : EnvIndex) (tf : Trapframe) (type : EnvType) (cr3 : Cpu → Nat) :
    Kernel :=
  { s with
    envs := Function.update s.envs e { s.envs e with envTf := tf, envType := type }
    cr3 := cr3 }

/-- Environment `e`, allocated in `s₀`, is being loaded: its directory is in page `d`, and the CPU
uses the directory in page `c`. -/
structure Loading (res : Nat → Prop) (s₀ : Kernel) (e : EnvIndex) (d c : Nat) (fl : List Nat)
    (s : Kernel) : Prop where
  inv : Inv res fl s
  frame : Frame res (fun _ => True) s₀ s
  /-- Apart from memory, only the registers and the type of `e` have changed. -/
  only : ∃ tf type cr3, MemOnly (s₀.retyped e tf type cr3) s
  dir : s.dir e = some d
  loaded : s.cr3 s.cpunum = c

namespace Loading

variable {s₀ : Kernel} {c : Nat}

/-- Right after `env_alloc`. -/
theorem start (h : Inv res fl s) (hd : s.dir e = some d) :
    Loading res s e d (s.cr3 s.cpunum) fl s where
  inv := h
  frame := Frame.refl _ _ _
  only := by
    refine ⟨(s.envs e).envTf, (s.envs e).envType, s.cr3, ?_⟩
    have : s.retyped e (s.envs e).envTf (s.envs e).envType s.cr3 = s := by
      rw [Kernel.retyped, Function.update_eq_self]
    rw [this]
    exact MemOnly.refl s
  dir := hd
  loaded := rfl

theorem of_memOnly {fl' : List Nat} (h : Loading res s₀ e d c fl s) (hinv : Inv res fl' s')
    (hf : Frame res (fun _ => True) s s') (hmo : MemOnly s s') : Loading res s₀ e d c fl' s' where
  inv := hinv
  frame := h.frame.trans hf
  only := by
    obtain ⟨tf, type, cr3, hs⟩ := h.only
    exact ⟨tf, type, cr3, MemOnly.trans _ _ _ hs hmo⟩
  dir := by rw [dir_of_envs hmo.envs]; exact h.dir
  loaded := by rw [hmo.cr3, hmo.cpunum]; exact h.loaded

theorem envPgdir (h : Loading res s₀ e d c fl s) : (s.envs e).envPgdir = some d := by
  have := h.dir
  rw [Kernel.dir] at this
  split at this
  · exact absurd this (by simp)
  · exact this

/-! ## `region_alloc`

The proposition `enough` stands for there being pages enough.  When it is true nothing fails; when
it is false nothing is said about failing. -/

variable {enough : Prop}

theorem regionAllocPage {va : Word} (hva : va < utop) (n : Nat) :
    Triple (fun s => ∃ fl, Loading res s₀ e d c fl s ∧ (enough → n + 2 ≤ fl.length))
      (regionAllocPage e va)
      (fun _ s => ∃ fl, Loading res s₀ e d c fl s ∧ (enough → n ≤ fl.length))
      fun _ _ => ¬ enough := by
  rintro s ⟨fl, h, hn⟩
  have hinv := h.inv
  cases fl with
  | nil =>
    have hrun : (Jos.regionAllocPage e va).run s = .error (.panic "region_alloc failed\n") s := by
      rw [Jos.regionAllocPage, run_bind_ok (pageAlloc_none hinv.chain false)]
      rfl
    rw [hrun]
    intro hen
    have := hn hen
    simp at this
  | cons pp fl' =>
    have hfr := Inv.fresh_pop hinv
    have hd : (s.pop pp).dir e = some d := h.dir
    have hpg : ((s.pop pp).envs e).envPgdir = some d := h.envPgdir
    have hstart : (Jos.regionAllocPage e va).run s = EStateM.run (do
        if (← pageInsert d pp va (pteU ||| pteW ||| pteP)) ≠ 0#32 then
          throw (.panic "region_alloc failed\n") : KernelM Unit) (s.pop pp) := by
      rw [Jos.regionAllocPage, run_bind_ok (pageAlloc_raw hinv.chain.1)]
      simp only [EStateM.run_bind, EStateM.run_get, hpg, derefPgdir, EStateM.run_pure]
    have hmap : Mappable res fl' (s.pop pp) e (pdx va) (ptx va) pp :=
      ⟨hfr.not_free, hfr.not_res, fun k hk => absurd hk (hfr.unref k), Or.inl (by
        rw [counts, hfr.count]; decide)⟩
    rcases hinv.pop.pageInsert_spec hd hva pp (pteU ||| pteW ||| pteP) with
      ⟨hrun, rfl, -⟩ | ⟨s', hrun, hins⟩
    · have hne : (-eNoMem) ≠ 0#32 := by decide
      rw [hstart, run_bind_ok hrun, if_pos hne]
      intro hen
      have := hn hen
      simp at this
    · obtain ⟨fl₂, hinv₂, hlen⟩ := hins.inv hmap (by decide)
      rw [hstart, run_bind_ok hrun, if_neg (by simp)]
      refine ⟨fl₂, h.of_memOnly hinv₂ ?_ ?_, fun hen => ?_⟩
      · have hpop : Frame res (fun _ => True) s (s.pop pp) := Frame.of_eq rfl rfl rfl rfl
        exact hpop.trans (hins.edited.frame.mono fun _ _ => trivial)
      · exact MemOnly.trans s (s.pop pp) s' rfl hins.edited.memOnly
      · have := hn hen
        simp only [List.length_cons] at this
        omega

theorem regionAlloc {va len : Word} (n : Nat)
    (hva : ∀ k < (roundUp len pgsize / pgsize).toNat,
      roundDown va pgsize + BitVec.ofNat 32 (k * 4096) < utop) :
    Triple (fun s => ∃ fl, Loading res s₀ e d c fl s ∧
        (enough → n + 2 * (roundUp len pgsize / pgsize).toNat ≤ fl.length))
      (regionAlloc e va len)
      (fun _ s => ∃ fl, Loading res s₀ e d c fl s ∧ (enough → n ≤ fl.length))
      fun _ _ => ¬ enough := by
  rw [Jos.regionAlloc]
  generalize (roundUp len pgsize / pgsize).toNat = N at hva
  have hloop := Triple.forM_prefix (E := fun (_ : Exit) (_ : Kernel) => ¬ enough)
    (I := fun pre s => ∃ fl, Loading res s₀ e d c fl s ∧
      (enough → n + 2 * (N - pre.length) ≤ fl.length))
    (f := fun k => Jos.regionAllocPage e (roundDown va pgsize + BitVec.ofNat 32 (k * 4096)))
    (List.range N) fun pre k post hl => by
      have hlen := congrArg List.length hl
      simp only [List.length_range, List.length_append, List.length_cons] at hlen
      have hk : k < N := List.mem_range.1 (by rw [hl]; simp)
      refine (regionAllocPage (hva k hk) (n + 2 * (N - (pre ++ [k]).length))).conseq ?_
        (fun _ _ h => h) fun _ _ h => h
      rintro s ⟨fl, h, hn⟩
      refine ⟨fl, h, fun hen => ?_⟩
      have := hn hen
      simp only [List.length_append, List.length_cons, List.length_nil] at this ⊢
      omega
  refine hloop.conseq (fun s hs => hs) (fun _ s hs => ?_) fun _ _ h => h
  obtain ⟨fl, h, hn⟩ := hs
  refine ⟨fl, h, fun hen => ?_⟩
  have := hn hen
  omega

/-! ## `load_icode` -/

/-- Copying through the environment's own directory, below `UTOP`. -/
theorem copyIn {va : Word} (src : Nat → Byte) {n : Nat} (hva : va.toNat + n ≤ utop.toNat) :
    Triple (fun s => ∃ fl, Loading res s₀ e d d fl s) (copyIn va src n)
      (fun _ s => ∃ fl, Loading res s₀ e d d fl s) fun _ _ => True := by
  have hut := utop_toNat
  refine Triple.forM fun k hk => ?_
  have hlt : va + BitVec.ofNat 32 k < utop := by
    have := List.mem_range.1 hk
    rw [BitVec.lt_def, BitVec.toNat_add, BitVec.toNat_ofNat]
    omega
  refine Triple.get_bind fun s₁ hs₁ => ?_
  obtain ⟨fl, h⟩ := hs₁
  rw [h.loaded]
  cases htr : s₁.translate d (pteP ||| pteW) (va + BitVec.ofNat 32 k) with
  | none => exact Triple.throw fun _ _ => trivial
  | some fo =>
    obtain ⟨f, o⟩ := fo
    refine Triple.modify fun s hs => ?_
    subst hs
    have hf := leaf_of_translate h.dir hlt htr
    have hres := h.inv.target_res (k := .page e _ _) hf
    refine ⟨fl, h.of_memOnly (h.inv.fill_leaf hf _) ?_ rfl⟩
    exact Frame.of_page (f := f) ⟨hres, fun _ _ => trivial⟩ (fun p hp => fill_mem_ne _ _ _ hp) rfl
      rfl rfl

theorem loadSegment (elf : Elf) {ph : Proghdr} (hph : ph ∈ elf.proghdrs) :
    Triple (fun s => ∃ fl, Loading res s₀ e d d fl s) (loadSegment e elf ph)
      (fun _ s => ∃ fl, Loading res s₀ e d d fl s) fun _ _ => True := by
  refine Triple.ite (fun hload => ?_) fun _ => Triple.pure fun _ h => h
  have hbelow := elf.below ph hph hload
  have hut := utop_toNat
  refine Triple.ite (fun _ => ?_) fun hsz => ?_
  · exact Triple.bind (Q := fun _ _ => False) (Triple.throw fun _ _ => trivial)
      fun _ _ h => h.elim
  have hsz' : ph.pFilesz.toNat ≤ ph.pMemsz.toNat := Nat.not_lt.1 hsz
  have hcount : (roundUp ph.pMemsz pgsize / pgsize).toNat = (ph.pMemsz.toNat + 4095) / 4096 := by
    rw [BitVec.toNat_udiv, roundUp_toNat]
    show (ph.pMemsz.toNat + 4095) % 2 ^ 32 / 4096 * 4096 / 4096 = _
    omega
  have hregion := @regionAlloc res e d s₀ d False ph.pVa ph.pMemsz 0 fun k hk => by
    rw [hcount] at hk
    rw [BitVec.lt_def, BitVec.toNat_add, roundDown_toNat, BitVec.toNat_ofNat]
    omega
  refine Triple.bind (Q := fun _ s => ∃ fl, Loading res s₀ e d d fl s)
    (hregion.conseq ?_ ?_ fun _ _ _ => trivial) fun _ => Triple.bind (copyIn _ ?_) fun _ =>
      copyIn _ ?_
  · rintro s ⟨fl, h⟩
    exact ⟨fl, h, fun hf => hf.elim⟩
  · rintro _ s ⟨fl, h, -⟩
    exact ⟨fl, h⟩
  · omega
  · rw [BitVec.toNat_add, BitVec.toNat_sub_of_le (by rw [BitVec.le_def]; omega)]
    omega

/-- Writing the registers and the type of `e`. -/
theorem setEnv (h : Loading res s₀ e d c fl s) (tf : Trapframe) (type : EnvType) :
    Loading res s₀ e d c fl (s.setEnv e { s.envs e with envTf := tf, envType := type }) where
  inv := h.inv.of_setEnv rfl rfl Iff.rfl
  frame := h.frame.trans ⟨fun _ hn => absurd trivial hn, fun _ _ => rfl, rfl, rfl⟩
  only := by
    obtain ⟨tf', type', cr3, hs⟩ := h.only
    obtain ⟨m, pg, fl, tl, a, o, rfl⟩ := hs.exists_eq
    refine ⟨tf, type, cr3, ?_⟩
    simp [MemOnly, Kernel.setEnv, Kernel.retyped]
  dir := by
    rw [← h.dir, Kernel.dir, Kernel.dir]
    simp
  loaded := h.loaded

theorem lcr3 (h : Loading res s₀ e d c fl s) (c' : Nat) :
    Loading res s₀ e d c' fl (s.lcr3 c') where
  inv := h.inv.of_cpus s.cpus _ _
  frame := h.frame.trans (Frame.of_eq rfl rfl rfl rfl)
  only := by
    obtain ⟨tf, type, cr3, hs⟩ := h.only
    obtain ⟨m, pg, fl, tl, a, o, rfl⟩ := hs.exists_eq
    exact ⟨tf, type, _, rfl⟩
  dir := h.dir
  loaded := by simp [Kernel.lcr3]

/-- **`load_icode`.** -/
theorem loadIcode (elf : Elf) (n : Nat) (hen : enough → elf.eMagic = elfMagic ∧ elf.proghdrs = []) :
    Triple (fun s => ∃ fl, Loading res s₀ e d c fl s ∧ (enough → n + 2 ≤ fl.length))
      (loadIcode e elf)
      (fun _ s => ∃ c fl, Loading res s₀ e d c fl s ∧ (enough → n ≤ fl.length))
      fun _ _ => ¬ enough := by
  refine Triple.ite (fun hm => ?_) fun hm => ?_
  · refine Triple.bind (Q := fun _ _ => False) (Triple.throw fun _ _ hen' => hm (hen hen').1)
      fun _ _ h => h.elim
  refine Triple.get_bind fun s₁ hs₁ => ?_
  obtain ⟨fl₀, h₀, hn₀⟩ := hs₁
  rw [h₀.envPgdir]
  refine Triple.bind (Q := fun a t => a = d ∧ t = s₁) (Triple.pure fun t ht => ⟨rfl, ht⟩)
    fun a => ?_
  refine Triple.bind
    (Q := fun _ s => ∃ fl, Loading res s₀ e d d fl s ∧ (enough → n + 2 ≤ fl.length))
    (Triple.modify ?_) fun _ => ?_
  · rintro t ⟨rfl, rfl⟩
    exact ⟨fl₀, h₀.lcr3 _, hn₀⟩
  refine Triple.bind
    (Q := fun _ s => ∃ fl, Loading res s₀ e d d fl s ∧ (enough → n + 2 ≤ fl.length)) ?_ fun _ => ?_
  · -- either there is nothing to load, or nothing is promised about the pages left
    by_cases hp : enough
    · rw [(hen hp).2]
      exact Triple.pure fun _ h => h
    · refine (Triple.forM (I := fun s => ∃ fl, Loading res s₀ e d d fl s) fun ph hph =>
        loadSegment elf hph).conseq (fun s hs => ?_) (fun _ s hs => ?_) fun _ _ _ => hp
      · obtain ⟨fl, h, -⟩ := hs
        exact ⟨fl, h⟩
      · obtain ⟨fl, h⟩ := hs
        exact ⟨fl, h, fun h' => absurd h' hp⟩
  refine Triple.bind (Q := fun _ s => ∃ c fl, Loading res s₀ e d c fl s ∧
    (enough → n + 2 ≤ fl.length)) (Triple.modify ?_) fun _ => ?_
  · rintro s ⟨fl, h, hn⟩
    exact ⟨s.kernPgdir, fl, h.lcr3 _, hn⟩
  refine Triple.bind (Q := fun _ s => ∃ c fl, Loading res s₀ e d c fl s ∧
    (enough → n + 2 ≤ fl.length)) (Triple.modify ?_) fun _ => ?_
  · rintro s ⟨c', fl, h, hn⟩
    exact ⟨c', fl, h.setEnv _ (s.envs e).envType, hn⟩
  rintro s ⟨c', fl, h, hn⟩
  have hstack := @regionAlloc res e d s₀ c' enough (ustacktop - pgsize) pgsize n fun k hk => by
    have h1 : (roundUp pgsize pgsize / pgsize).toNat = 1 := by decide
    obtain rfl : k = 0 := by omega
    decide
  exact hstack.conseq (fun _ h => h) (fun _ s hs => ⟨c', hs⟩) (fun _ _ h => h) s ⟨fl, h, hn⟩

end Loading

/-! ## `env_create` -/

/-- What `env_create` does when it returns: slot `e`, with its directory in page `p`, has been
allocated and loaded. -/
structure Created (res : Nat → Prop) (s : Kernel) (e : EnvIndex) (p : Nat) (fl' : List Nat)
    (s' : Kernel) : Prop where
  slot : s.envFreeList = some e
  inv : Inv res fl' s'
  frame : Frame res (fun _ => True) s s'
  only : ∃ tf type cr3, MemOnly ((s.allocated e p 0#32).retyped e tf type cr3) s'

/-- **`env_create`.** -/
theorem Inv.envCreate {enough : Prop} (h : Inv res fl s) (elf : Elf) (type : EnvType) (n : Nat)
    (hen : enough → elf.eMagic = elfMagic ∧ elf.proghdrs = [])
    (hn : enough → n + 3 ≤ fl.length ∧ s.envFreeList ≠ none) :
    Triple (fun t => t = s) (envCreate elf type)
      (fun _ s' => ∃ e p fl', Created res s e p fl' s' ∧ (enough → n ≤ fl'.length))
      fun _ _ => ¬ enough := by
  have hzero : ¬ (0#32).toInt < 0 := by decide
  have hfail : ∀ {s₀ : Kernel} {ret : Word}, (envAlloc 0#32).run s₀ = .ok (ret, none) s₀ →
      ret.toInt < 0 → (Jos.envCreate elf type).run s₀ = .error (.panic "env_create") s₀ := by
    intro s₀ ret hrun hret
    rw [Jos.envCreate, run_bind_ok hrun]
    simp only [if_pos hret]
    rfl
  rintro t rfl
  cases he : t.envFreeList with
  | none =>
    rw [hfail (envAlloc_noSlot he 0#32) (by decide)]
    exact fun hen' => (hn hen').2 he
  | some e =>
  cases fl with
  | nil =>
    rw [hfail (envAlloc_noPage he h.chain 0#32) (by decide)]
    intro hen'
    have := (hn hen').1
    simp at this
  | cons p fl' =>
    have hmo := newEnv_memOnly t e p 0#32
    have hload : Loading res (t.newEnv e p 0#32) e p
        ((t.newEnv e p 0#32).cr3 (t.newEnv e p 0#32).cpunum) fl' (t.newEnv e p 0#32) := by
      refine Loading.start (h.newEnv he 0#32) ?_
      have henvs : (t.newEnv e p 0#32).envs =
          Function.update t.envs e (t.allocatedEnv e p 0#32) := hmo.envs
      rw [Kernel.dir, henvs]
      simp [allocatedEnv]
    have hicode := @Loading.loadIcode res e p (t.newEnv e p 0#32)
      ((t.newEnv e p 0#32).cr3 (t.newEnv e p 0#32).cpunum) enough elf n hen
    have hrest : Triple (fun u => u = t.newEnv e p 0#32)
        (do
          Jos.loadIcode e elf
          updateEnv e fun env => { env with envType := type } : KernelM Unit)
        (fun _ s' => ∃ e p fl', Created res t e p fl' s' ∧ (enough → n ≤ fl'.length))
        fun _ _ => ¬ enough := by
      refine Triple.bind (hicode.conseq ?_ (fun _ _ h => h) fun _ _ h => h) fun _ =>
        Triple.modify ?_
      · rintro u rfl
        refine ⟨fl', hload, fun hen' => ?_⟩
        have := (hn hen').1
        simp only [List.length_cons] at this
        omega
      · rintro u ⟨c, fl₁, hl, hlen⟩
        have hset := hl.setEnv (u.envs e).envTf type
        refine ⟨e, p, fl₁, ⟨he, hset.inv, ?_, ?_⟩, hlen⟩
        · exact ((h.newEnv_frame 0#32).mono fun _ _ => trivial).trans hset.frame
        · obtain ⟨tf, type', cr3, hs⟩ := hset.only
          refine ⟨tf, type', cr3, MemOnly.trans _ _ _ ?_ hs⟩
          obtain ⟨m, pg, fl, tl, a, o, ho⟩ := hmo.exists_eq
          rw [ho]
          rfl
    have hrun : (Jos.envCreate elf type).run t = EStateM.run (do
        Jos.loadIcode e elf
        updateEnv e fun env => { env with envType := type } : KernelM Unit)
          (t.newEnv e p 0#32) := by
      rw [Jos.envCreate, run_bind_ok (envAlloc_run he h.chain.1
        (h.free_lt List.mem_cons_self) 0#32)]
      simp only [if_neg hzero]
      rfl
    rw [hrun]
    exact hrest _ rfl

theorem Created.envs {p : Nat} {fl' : List Nat} (h : Created res s e p fl' s') :
    ∃ tf type, s'.envs = Function.update s.envs e
      { s.allocatedEnv e p 0#32 with envTf := tf, envType := type } := by
  obtain ⟨tf, type, cr3, hs⟩ := h.only
  refine ⟨tf, type, ?_⟩
  rw [hs.envs]
  simp [Kernel.retyped, allocated]

theorem Created.dir {p : Nat} {fl' : List Nat} (h : Created res s e p fl' s') :
    s'.dir e = some p := by
  obtain ⟨tf, type, henvs⟩ := h.envs
  rw [Kernel.dir, henvs]
  simp [allocatedEnv]

/-- The new environment can be run. -/
theorem Created.runnable {p : Nat} {fl' : List Nat} (h : Created res s e p fl' s') :
    (s'.envs e).envStatus = .runnable := by
  obtain ⟨tf, type, henvs⟩ := h.envs
  rw [henvs]
  simp [allocatedEnv]

theorem Created.cpus {p : Nat} {fl' : List Nat} (h : Created res s e p fl' s') :
    s'.cpus = s.cpus ∧ s'.cpunum = s.cpunum := by
  obtain ⟨tf, type, cr3, hs⟩ := h.only
  exact ⟨hs.cpus, hs.cpunum⟩

theorem Created.booted {p : Nat} {fl' : List Nat} (h : Created res s e p fl' s')
    (hb : Booted m res fl s) : Booted m res fl' s' := by
  obtain ⟨tf, type, henvs⟩ := h.envs
  refine hb.of_frame h.inv h.frame (fun e' => ?_) ?_
  · rw [henvs]
    by_cases hee : e' = e
    · subst hee
      simp [allocatedEnv]
    · rw [Function.update_of_ne hee]
      exact hb.idle e'
  · exact h.cpus.1

/-! ## Boot as a whole -/

/-- Where `mem_init`, `env_init` and `mp_init` leave the machine. -/
structure Initialised (m : Machine) (fl : List Nat) (s : Kernel) : Prop where
  booted : Booted m (fun p => p ∉ fl) fl s
  laid : Laid m fl s
  cpunum : s.cpunum = m.bootcpu
  cpus : s.cpus = Function.update (fun _ => ⟨.unused, none⟩) m.bootcpu ⟨.started, none⟩
  list : Chain (fun e => (s.envs e).envLink) s.envFreeList indices
  envs : ∀ e, (s.envs e).envStatus = .free ∧ (s.envs e).envId = 0#32

/-- The first slot is the first to be filled. -/
theorem Initialised.head {fl : List Nat} (h : Initialised m fl s) : s.envFreeList = some 0 :=
  h.list.head_eq

/-- Boot, up to the creation of the first environment. -/
theorem kernelInit_spec (m : Machine) : ∃ fl s,
    (∀ rest : KernelM Unit,
      EStateM.run (do memInit m; envInit; mpInit; rest) m.powerOn = rest.run s) ∧
    Initialised m fl s := by
  obtain ⟨fl, s₁, hrun₁, hlaid, hcpus, hnum⟩ := memInit_spec m
  obtain ⟨s₂, hrun₂, hrest, hlist, hfree⟩ := envInit_spec s₁
  have hlaid₂ : Laid m fl s₂ := by
    rw [hrest]
    exact ⟨hlaid.npages, hlaid.kern, hlaid.chain, hlaid.zero, hlaid.free, hlaid.cover, hlaid.user,
      hlaid.table⟩
  have hcpus₂ : s₂.cpus = fun _ => ⟨.unused, none⟩ := by
    rw [hrest]
    exact hcpus
  have hnum₂ : s₂.cpunum = m.bootcpu := by
    rw [hrest]
    exact hnum
  let s₃ := s₂.setCpu s₂.cpunum { s₂.cpus s₂.cpunum with cpuStatus := .started }
  have hlaid₃ : Laid m fl s₃ :=
    ⟨hlaid₂.npages, hlaid₂.kern, hlaid₂.chain, hlaid₂.zero, hlaid₂.free, hlaid₂.cover,
      hlaid₂.user, hlaid₂.table⟩
  have hcpus₃ :
      s₃.cpus = Function.update (fun _ => ⟨.unused, none⟩) m.bootcpu ⟨.started, none⟩ := by
    simp [s₃, setCpu, hcpus₂, hnum₂]
  have hidle : ∀ c, (s₃.cpus c).cpuEnv = none := by
    intro c
    rw [hcpus₃]
    by_cases hc : c = m.bootcpu
    · simp [hc]
    · simp [hc]
  refine ⟨fl, s₃, fun rest => ?_, ?_, hlaid₃, hnum₂, hcpus₃, hlist, hfree⟩
  · rw [run_bind_ok hrun₁, run_bind_ok hrun₂, mpInit, run_bind_ok (EStateM.run_modify _ _)]
  · exact hlaid₃.booted ⟨_, hlist, mem_indices⟩ (fun e => (hfree e).1) hidle

/-- What holds before the first environment is created and is kept by creating one holds at the end
of boot. -/
theorem i386Init_induct {m : Machine} {I : Kernel → Prop} {s : Kernel}
    (h : (i386Init m).run m.powerOn = .ok () s)
    (hinit : ∀ fl t, Initialised m fl t → I t)
    (hcreate : ∀ res fl t e p fl' t', Booted m res fl t → I t → Created res t e p fl' t' → I t') :
    ∃ res fl, Booted m res fl s ∧ I s := by
  obtain ⟨fl, s₀, hrun, hs₀⟩ := kernelInit_spec m
  rw [i386Init, hrun] at h
  have hloop := Triple.forM (E := fun _ _ => True)
    (I := fun s => ∃ fl', Booted m (fun p => p ∉ fl) fl' s ∧ I s)
    (f := fun b : Elf × EnvType => envCreate b.1 b.2) (l := m.binaries) fun b _ => by
      rintro t ⟨fl', ht, hI⟩
      refine (@Inv.envCreate _ _ _ False ht.inv b.1 b.2 0 False.elim False.elim).conseq
        (fun _ h => h) (fun _ t' ht' => ?_) (fun _ _ _ => trivial) t rfl
      obtain ⟨e, p, fl'', hc, -⟩ := ht'
      exact ⟨fl'', hc.booted ht, hcreate _ _ t e p fl'' t' ht hI hc⟩
  obtain ⟨fl', hs, hI⟩ := hloop.of_ok ⟨fl, hs₀.booted, hinit fl s₀ hs₀⟩ h
  exact ⟨_, fl', hs, hI⟩

/-- **Boot establishes the allocator invariant**, with every environment waiting to be run. -/
theorem i386Init_booted {m : Machine} {s : Kernel} (h : (i386Init m).run m.powerOn = .ok () s) :
    ∃ res fl, Booted m res fl s := by
  obtain ⟨res, fl, hs, -⟩ := i386Init_induct (I := fun _ => True) h (fun _ _ _ => trivial)
    fun _ _ _ _ _ _ _ _ _ _ => trivial
  exact ⟨res, fl, hs⟩

/-- How much of memory the kernel's page tables can take. -/
theorem Laid.length_le {fl : List Nat} {s : Kernel} (h : Laid m fl s) :
    m.initialFree.length ≤ fl.length + 1024 := by
  have hsub : m.initialFree ⊆ fl ++ indices.filterMap fun i => framed (s.mem m.kernPage i) := by
    intro p hp
    obtain ⟨hlt, hr⟩ := m.mem_initialFree.1 hp
    rw [List.mem_append]
    rcases h.cover p hlt hr with hm | ⟨i, -, hi⟩
    · exact Or.inl hm
    · exact Or.inr (List.mem_filterMap.2 ⟨i, mem_indices i, hi⟩)
  have hnd : m.initialFree.Nodup :=
    List.nodup_reverse.2 (List.Nodup.filter _ List.nodup_range)
  have hle := (List.subperm_of_subset hnd hsub).length_le
  have hlen : indices.length = 1024 := by rw [indices, length_indicesFrom]
  have hmap := List.length_filterMap_le (fun i => framed (s.mem m.kernPage i)) indices
  rw [List.length_append] at hle
  omega

/-- A machine with enough memory boots, if it has one program and that has no segments: the program
is in the first slot. -/
theorem i386Init_first {m : Machine} {elf : Elf} {type : EnvType} (hb : m.binaries = [(elf, type)])
    (hmagic : elf.eMagic = elfMagic) (hseg : elf.proghdrs = []) {n : Nat}
    (hlen : n + 1027 ≤ m.initialFree.length) :
    ∃ s₁ fl₁ s fl p, Initialised m fl₁ s₁ ∧ Created (fun p => p ∉ fl₁) s₁ 0 p fl s ∧
      (i386Init m).run m.powerOn = .ok () s ∧ n ≤ fl.length := by
  obtain ⟨fl₁, s₁, hrun, hinit⟩ := kernelInit_spec m
  have hfree := hinit.laid.length_le
  have hcreate := @Inv.envCreate _ _ _ True hinit.booted.inv elf type n (fun _ => ⟨hmagic, hseg⟩)
    (fun _ => ⟨by omega, by rw [hinit.head]; simp⟩) s₁ rfl
  rw [i386Init, hrun, hb]
  cases hr : (envCreate elf type).run s₁ with
  | error x s =>
    rw [hr] at hcreate
    exact absurd trivial hcreate
  | ok a s =>
    rw [hr] at hcreate
    obtain ⟨e, p, fl, hc, hn⟩ := hcreate
    obtain rfl : 0 = e := Option.some_inj.1 (hinit.head.symm.trans hc.slot)
    refine ⟨s₁, fl₁, s, fl, p, hinit, hc, ?_, hn trivial⟩
    show EStateM.run (do envCreate elf type; pure () : KernelM Unit) s₁ = _
    rw [run_bind_ok hr]
    rfl

theorem i386Init_run {m : Machine} {elf : Elf} {type : EnvType} (hb : m.binaries = [(elf, type)])
    (hmagic : elf.eMagic = elfMagic) (hseg : elf.proghdrs = []) {n : Nat}
    (hlen : n + 1027 ≤ m.initialFree.length) :
    ∃ s res fl e d, (i386Init m).run m.powerOn = .ok () s ∧ Booted m res fl s ∧
      s.dir e = some d ∧ n ≤ fl.length := by
  obtain ⟨s₁, fl₁, s, fl, p, hinit, hc, hrun, hn⟩ := i386Init_first hb hmagic hseg hlen
  exact ⟨s, _, fl, 0, p, hrun, hc.booted hinit.booted, hc.dir, hn⟩

/-- The first `k` slots have been filled, in order. -/
structure Filled (m : Machine) (res : Nat → Prop) (k : Nat) (fl : List Nat) (s : Kernel) :
    Prop where
  booted : Booted m res fl s
  cpunum : s.cpunum = m.bootcpu
  cpus : s.cpus = Function.update (fun _ => ⟨.unused, none⟩) m.bootcpu ⟨.started, none⟩
  list : Chain (fun e => (s.envs e).envLink) s.envFreeList (indicesFrom k (1024 - k))
  free : ∀ e, k ≤ e.val → (s.envs e).envStatus = .free ∧ (s.envs e).envId = 0#32
  filled : ∀ e, e.val < k →
    (s.envs e).envStatus = .runnable ∧ (s.envs e).envId = nextEnvId 0#32 e

theorem Initialised.filled {fl : List Nat} (h : Initialised m fl s) :
    Filled m (fun p => p ∉ fl) 0 fl s :=
  ⟨h.booted, h.cpunum, h.cpus, h.list, fun e _ => h.envs e, fun _ he => absurd he (by omega)⟩

/-- The next slot to be filled. -/
theorem Filled.head {k : Nat} {fl : List Nat} (h : Filled m res k fl s) (hk : k < 1024) :
    s.envFreeList = some (Fin.ofNat 1024 k) := by
  have hlist := h.list
  rw [show 1024 - k = (1024 - (k + 1)) + 1 by omega, indicesFrom] at hlist
  exact hlist.1

theorem Filled.created {k p : Nat} {fl fl' : List Nat} (h : Filled m res k fl s) (hk : k < 1024)
    (hc : Created res s e p fl' s') : Filled m res (k + 1) fl' s' := by
  have hhead := h.head hk
  obtain rfl : Fin.ofNat 1024 k = e := Option.some_inj.1 (hhead.symm.trans hc.slot)
  have hval : (Fin.ofNat 1024 k).val = k := Nat.mod_eq_of_lt hk
  obtain ⟨tf, type, henvs⟩ := hc.envs
  obtain ⟨tf', type', cr3, hs⟩ := hc.only
  have hfl : s'.envFreeList = (s.envs (Fin.ofNat 1024 k)).envLink := hs.envFreeList
  have hlist := h.list
  rw [show 1024 - k = (1024 - (k + 1)) + 1 by omega, indicesFrom, hhead] at hlist
  refine ⟨hc.booted h.booted, hc.cpus.2.trans h.cpunum, hc.cpus.1.trans h.cpus, ?_,
    fun e' he' => ?_, fun e' he' => ?_⟩
  · rw [hfl]
    refine hlist.2.congr fun b hb => ?_
    have hbk := le_of_mem_indicesFrom (by omega) hb
    have hne : b ≠ Fin.ofNat 1024 k := by
      rintro rfl
      omega
    rw [henvs, Function.update_of_ne hne]
  · have hne : e' ≠ Fin.ofNat 1024 k := by
      rintro rfl
      omega
    rw [henvs, Function.update_of_ne hne]
    exact h.free e' (by omega)
  · by_cases hee : e' = Fin.ofNat 1024 k
    · subst hee
      rw [henvs, Function.update_self]
      refine ⟨rfl, ?_⟩
      show nextEnvId (s.envs (Fin.ofNat 1024 k)).envId _ = _
      rw [(h.free _ (by omega)).2]
    · have hne : e'.val ≠ k := fun hv => hee (Fin.ext (hv.trans hval.symm))
      rw [henvs, Function.update_of_ne hee]
      exact h.filled e' (by omega)

/-- Creating environments, one after the other. -/
theorem Filled.create_run {elf : Elf} (type : EnvType) (hmagic : elf.eMagic = elfMagic)
    (hseg : elf.proghdrs = []) (n j : Nat) {k : Nat} {fl : List Nat} (h : Filled m res k fl s)
    (hk : k + j ≤ 1024) (hlen : n + 3 * j ≤ fl.length) :
    ∃ s' fl', ((List.replicate j (elf, type)).forM fun b => envCreate b.1 b.2).run s = .ok () s' ∧
      Filled m res (k + j) fl' s' ∧ n ≤ fl'.length := by
  induction j generalizing k fl s with
  | zero => exact ⟨s, fl, rfl, h, by omega⟩
  | succ j ih =>
    have hcreate := @Inv.envCreate _ _ _ True h.booted.inv elf type (n + 3 * j)
      (fun _ => ⟨hmagic, hseg⟩) (fun _ => ⟨by omega, by rw [h.head (by omega)]; simp⟩) s rfl
    cases hr : (envCreate elf type).run s with
    | error x t =>
      rw [hr] at hcreate
      exact absurd trivial hcreate
    | ok a t =>
      rw [hr] at hcreate
      obtain ⟨e, p, fl₁, hc, hn⟩ := hcreate
      obtain ⟨s', fl', hrun, hs', hlen'⟩ := ih (h.created (by omega) hc) (by omega) (hn trivial)
      refine ⟨s', fl', ?_, by rwa [show k + (j + 1) = k + 1 + j by omega], hlen'⟩
      rw [List.replicate_succ]
      exact (run_bind_ok hr).trans hrun

/-- A machine with enough memory boots, if its programs have no segments: they are in the first
slots. -/
theorem i386Init_filled {m : Machine} {elf : Elf} {type : EnvType} {k n : Nat}
    (hb : m.binaries = List.replicate k (elf, type)) (hmagic : elf.eMagic = elfMagic)
    (hseg : elf.proghdrs = []) (hk : k ≤ 1024) (hlen : n + 3 * k + 1024 ≤ m.initialFree.length) :
    ∃ res fl s, (i386Init m).run m.powerOn = .ok () s ∧ Filled m res k fl s ∧ n ≤ fl.length := by
  obtain ⟨fl₁, s₁, hrun, hinit⟩ := kernelInit_spec m
  have hfree := hinit.laid.length_le
  obtain ⟨s, fl, hloop, hfilled, hn⟩ := hinit.filled.create_run type hmagic hseg n k (by omega)
    (by omega)
  rw [Nat.zero_add] at hfilled
  refine ⟨_, fl, s, ?_, hfilled, hn⟩
  rw [i386Init, hrun, hb, hloop]

/-! ## A machine that boots -/

/-- A program without segments: an environment with a stack and nothing to run. -/
def emptyElf : Elf where
  eMagic := elfMagic
  eEntry := utext
  proghdrs := []
  binary := fun _ => 0#8
  below := fun _ h => absurd h (by simp)

/-- A machine with 640 KB of base memory, 16 MB of extended memory and a kernel of 512 KB. -/
def smallMachine : Machine where
  nvramBase := 640#16
  nvramExt := 16384#16
  baseLe := by decide
  kernEnd := 0xF0180000#32
  kernEndGe := by decide
  kernEndLe := by decide
  bootstack := 0xF0110000#32
  bootstackGe := by decide
  entryPgdir := 272
  bootcpu := 0
  binaries := [(emptyElf, .user)]
  pages := fun _ => ⟨none, 0#16⟩
  envs := fun _ => ⟨Trapframe.zero, none, 0#32, 0#32, .user, .free, 0#32, 0, none, 0#32, false⟩
  mem := fun _ _ => 0#32

/-- The same machine with `k` such programs. -/
def busyMachine (k : Nat) : Machine :=
  { smallMachine with binaries := List.replicate k (emptyElf, .user) }

theorem smallMachine_free : 3852 ≤ smallMachine.initialFree.length := by
  have hnext : pgnum (smallMachine.bootLayout.nextfree - kernbase) = 425 := by decide
  have hmp : pgnum mpentryPaddr = 7 := by decide
  have hext : pgnum extphysmem = 256 := by decide
  have hnp : smallMachine.npages = 4352 := by decide
  have hsub : List.range' 500 3852 ⊆ smallMachine.initialFree := by
    intro p hp
    rw [List.mem_range'_1] at hp
    rw [Machine.mem_initialFree, hnp, Machine.Reserved, hnext, hmp, hext]
    omega
  have hle := (List.subperm_of_subset List.nodup_range' hsub).length_le
  rwa [List.length_range'] at hle

theorem busyMachine_run {k : Nat} (hk : k ≤ 64) : ∃ res fl s,
    (i386Init (busyMachine k)).run (busyMachine k).powerOn = .ok () s ∧
      Filled (busyMachine k) res k fl s ∧ 1024 ≤ fl.length := by
  have hfree : 3852 ≤ (busyMachine k).initialFree.length := smallMachine_free
  exact i386Init_filled rfl rfl rfl (by omega) (by omega)

end Jos
