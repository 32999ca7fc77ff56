import Jos.Alloc.Call
import Jos.KernelSpace
import Jos.Load
import Jos.Protection

/-!
# Protection over whole runs

Boot leaves the kernel's part of the address space behind, and shut: above `UTOP` a program can read
`pages`, `envs` and its own page tables, and write nothing.  In every state of every run of the
whole machine it is as boot left it, in every environment's directory, and so are all the pages that
boot set aside.

The runs are those of all CPUs together: traps, page faults and system calls, programs that store
between them, environments that end while they are on another CPU.
-/

set_option autoImplicit false

namespace Jos

open Kernel Command

variable {res : Nat → Prop} {fl : List Nat} {s s' s₀ s₁ : Kernel} {e : EnvIndex} {d p : Nat}
    {a : Word}
variable {m : Machine}

/-! ## The kernel's part of the address space -/

/-- Two windows for programs, and the rest for the kernel alone. -/
theorem kernelMapping_flags {flags : Word} (h : m.kernelMapping a = some (p, flags)) :
    flags = pteW ||| pteP ∨ flags = pteU ||| pteP := by
  rw [Machine.kernelMapping] at h
  split at h
  · exact Or.inl (congrArg Prod.snd (Option.some_inj.1 h)).symm
  · split at h
    · exact Or.inl (congrArg Prod.snd (Option.some_inj.1 h)).symm
    · split at h
      · exact Or.inr (congrArg Prod.snd (Option.some_inj.1 h)).symm
      · split at h
        · exact Or.inr (congrArg Prod.snd (Option.some_inj.1 h)).symm
        · cases h

theorem utop_le_iff : utop ≤ a ↔ ¬ (pdx a).val < userPdes := by
  rw [← lt_utop_iff, BitVec.not_lt]

namespace Kernel.HasKernel

/-- It stays as long as the pages that it takes stay. -/
theorem frame (h : s.HasKernel m s.kernPgdir) (hkern : res s.kernPgdir)
    (htable : ∀ i t, KernPde i → framed (s.mem s.kernPgdir i) = some t → res t)
    (hf : Frame res (fun _ => True) s s') : s'.HasKernel m s'.kernPgdir := by
  have hkept : ∀ p, res p → s'.mem p = s.mem p := fun p hp => hf.mem p fun hpriv => hpriv.1 hp
  rw [hf.kernPgdir]
  refine ⟨fun a ha hne => ?_, fun i t hi ht => ?_⟩
  · rw [← h.mapping a ha hne]
    refine mapping_congr (by rw [hkept _ hkern]) fun t ht => ?_
    rw [hkept t (htable _ t ⟨utop_le_iff.1 ha, hne⟩ ht)]
  · rw [hkept _ hkern] at ht ⊢
    exact h.open_ i t hi ht

/-- Every environment has it. -/
theorem dir (h : s.HasKernel m s.kernPgdir) (hinv : Inv res fl s) (hd : s.dir e = some d) :
    s.HasKernel m d := by
  refine ⟨fun a ha hne => ?_, fun i t hi ht => ?_⟩
  · have hsame := hinv.dir_kern e d hd _ (utop_le_iff.1 ha) hne
    rw [← h.mapping a ha hne, Kernel.mapping, Kernel.mapping, Kernel.walk, Kernel.walk, hsame]
  · rw [hinv.dir_kern e d hd i hi.1 hi.2] at ht ⊢
    exact h.open_ i t hi ht

/-- It is shut. -/
theorem shut (h : s.HasKernel m s.kernPgdir) : s.Shut := by
  intro i t hi ht j hw
  have hpa := pdx_pgaddr i j
  have hpt := ptx_pgaddr i j
  have hpres : s.mem t j &&& pteP = pteP := by
    have hsub : (pteP ||| pteU ||| pteW) &&& pteP = pteP := by decide
    rw [← hsub, ← BitVec.and_assoc, hw]
  obtain ⟨p, hp⟩ : ∃ p, framed (s.mem t j) = some p :=
    ⟨_, framed_eq_some.2 ⟨by rw [hpres]; decide, rfl⟩⟩
  have hmap :=
    h.mapping (pgaddr i j 0#32) (utop_le_iff.2 (by rw [hpa]; exact hi.1)) (by rw [hpa]; exact hi.2)
  rw [Kernel.mapping, Kernel.walk, hpa, hpt, ht, Option.map_some, Option.bind_some, hp,
    Option.map_some] at hmap
  have hall : (s.mem t j &&& 0xFFF#32) &&& (pteP ||| pteU ||| pteW) = pteP ||| pteU ||| pteW := by
    have hsub : 0xFFF#32 &&& (pteP ||| pteU ||| pteW) = pteP ||| pteU ||| pteW := by decide
    rw [BitVec.and_assoc, hsub, hw]
  rcases kernelMapping_flags hmap.symm with hf | hf
  · rw [hf] at hall
    exact absurd hall (by decide)
  · rw [hf] at hall
    exact absurd hall (by decide)

/-- **What an access finds there.** -/
theorem translate (h : s.HasKernel m d) {need : Word}
    (hneed : (pteP ||| pteW ||| pteU) &&& need = need) (ha : utop ≤ a) (hne : pdx a ≠ pdx uvpt) :
    s.translate d need a = (m.kernelMapping a).bind fun x =>
      if x.2 &&& need = need then some (x.1, pgoff a) else none := by
  rw [← h.mapping a ha hne, Kernel.mapping, Kernel.walk, Kernel.translate]
  cases ht : framed (s.mem d (pdx a)) with
  | none => simp
  | some t =>
    have hpde : s.mem d (pdx a) &&& need = need := by
      rw [h.open_ _ t ⟨utop_le_iff.1 ha, hne⟩ ht, BitVec.or_assoc, BitVec.or_assoc]
      exact or_and_of_and _ (by rwa [← BitVec.or_assoc])
    have hlow : (s.mem t (ptx a) &&& 0xFFF#32) &&& need = s.mem t (ptx a) &&& need := by
      have hsub : 0xFFF#32 &&& (pteP ||| pteW ||| pteU) = pteP ||| pteW ||| pteU := by decide
      rw [← hneed, BitVec.and_assoc, ← BitVec.and_assoc 0xFFF#32, hsub]
    rw [if_neg (not_not.2 hpde), Option.bind_some, Option.map_some, Option.bind_some]
    cases hp : framed (s.mem t (ptx a)) with
    | none => simp
    | some p =>
      rw [Option.map_some, Option.map_some, Option.bind_some]
      simp only [hlow]
      by_cases hyes : s.mem t (ptx a) &&& need = need
      · rw [if_neg (not_not.2 hyes), if_pos hyes]
      · rw [if_pos hyes, if_neg hyes]

end Kernel.HasKernel

/-! ## What boot leaves behind -/

/-- Creating the first environments keeps what `mem_init` has set aside. -/
theorem i386Init_frame (hboot : (i386Init m).run m.powerOn = .ok () s) : ∃ res fl s₁,
    Booted m res fl s ∧ (memInit m).run m.powerOn = .ok () s₁ ∧ Frame res (fun _ => True) s₁ s := by
  obtain ⟨fl, s₀, hrun, hs₀⟩ := kernelInit_spec m
  -- `env_init` and `mp_init` leave memory alone
  have hinit : ∃ s₁, (memInit m).run m.powerOn = .ok () s₁ ∧
      Frame (fun p => p ∉ fl) (fun _ => True) s₁ s₀ := by
    obtain ⟨-, s₁, hrun₁, -, -⟩ := memInit_spec m
    obtain ⟨s₂, hrun₂, hrest, -⟩ := envInit_spec s₁
    have hpure := hrun (pure ())
    rw [run_bind_ok hrun₁, run_bind_ok hrun₂, mpInit, run_bind_ok (EStateM.run_modify _ _)] at hpure
    obtain rfl := (EStateM.Result.ok.inj hpure).2
    refine ⟨s₁, hrun₁, fun _ he => absurd trivial he, fun p _ => ?_, ?_, ?_⟩
    · rw [hrest]
      rfl
    · rw [hrest]
      rfl
    · rw [hrest]
      rfl
  obtain ⟨s₁, hrun₁, hf⟩ := hinit
  rw [i386Init, hrun] at hboot
  have hloop := Triple.forM (E := fun _ _ => True)
    (I := fun s => ∃ fl', Booted m (fun p => p ∉ fl) fl' s ∧
      Frame (fun p => p ∉ fl) (fun _ => True) s₁ s)
    (f := fun b : Elf × EnvType => envCreate b.1 b.2) (l := m.binaries) fun b _ => by
      rintro t ⟨fl', ht, hft⟩
      refine (@Inv.envCreate _ _ _ False ht.inv b.1 b.2 0 False.elim False.elim).conseq
        (fun _ h => h) (fun _ t' ht' => ?_) (fun _ _ _ => trivial) t rfl
      obtain ⟨e, p, fl'', hc, -⟩ := ht'
      exact ⟨fl'', hc.booted ht, hft.trans hc.frame⟩
  obtain ⟨fl', hs, hfs⟩ := hloop.of_ok ⟨fl, hs₀.booted, hf⟩ hboot
  exact ⟨_, fl', s₁, hs, hrun₁, hfs⟩

/-- **Boot leaves the kernel's part of the address space behind.** -/
theorem i386Init_hasKernel (hboot : (i386Init m).run m.powerOn = .ok () s)
    (hmem : m.kernPage < m.npages) (hroom : 71 ≤ m.initialFree.length) :
    ∃ res fl, Booted m res fl s ∧ s.HasKernel m s.kernPgdir := by
  obtain ⟨res, fl, s₁, hb, hrun, hf⟩ := i386Init_frame hboot
  obtain ⟨t, hrun', hkern, -, hk, -⟩ := memInit_maps hmem hroom
  obtain rfl : s₁ = t := (EStateM.Result.ok.inj (hrun.symm.trans hrun')).2
  have hkept : ∀ p, res p → s.mem p = s₁.mem p := fun p hp => hf.mem p fun hpriv => hpriv.1 hp
  have hres : res s₁.kernPgdir := by
    rw [← hf.kernPgdir]
    exact hb.inv.kern_res
  rw [← hkern] at hk
  refine ⟨res, fl, hb, hk.frame hres (fun i p hi hp => ?_) hf⟩
  refine hb.inv.kern_table i p hi.1 hi.2 ?_
  rwa [hf.kernPgdir, hkept _ hres]

/-! ## Runs -/

/-- An entry as the kernel relies on: no CPU takes away what another one runs, programs have stored
only where they may, and a system call is a sound one. -/
structure Entry.Trusted (n : Entry) (s : Kernel) : Prop where
  careful : n.Careful s
  stored : n.Stored s
  sound : n.Sound s

/-- **Every state of every run is protected.** -/
theorem reaches_protected (hboot : (i386Init m).run m.powerOn = .ok () s₀)
    (hmem : m.kernPage < m.npages) (hroom : 71 ≤ m.initialFree.length)
    (hr : Reach Kernel.Step (fun s n => n.Trusted s) s₀ s) :
    ∃ res fl₀, Booted m res fl₀ s₀ ∧ s₀.HasKernel m s₀.kernPgdir ∧ Protected res s₀ s := by
  obtain ⟨res, fl₀, hb, hk⟩ := i386Init_hasKernel hboot hmem hroom
  refine ⟨res, fl₀, hb, hk, hr.inv (I := Protected res s₀) ?_ fun _ _ _ h hok hstep =>
    h.step hok.careful hok.stored hok.sound hstep⟩
  exact ⟨hb.parted, fun c e he => absurd ((hb.cpus c).symm.trans he) (by simp), hk.shut,
    Upheld.refl hb.inv⟩

/-! ### A run -/

theorem emptyElf_loadable : emptyElf.Loadable := by
  have hnone : emptyElf.segments = [] := rfl
  refine ⟨rfl, ?_, ?_, ?_, ?_⟩
  all_goals
    rw [hnone]
    simp

/-- The small machine boots, and its program is run; it has a stack to write to. -/
theorem boot_running : ∃ s₀ n s p, (i386Init smallMachine).run smallMachine.powerOn = .ok () s₀ ∧
    s₀.Step n s ∧ n.Trusted s₀ ∧ (s.cpus 0).cpuEnv = some 0 ∧
    s.translate (s.cr3 0) (pteP ||| pteU ||| pteW) stackPage = some (p, 0) ∧
    (s.envs 0).envStatus = .running := by
  obtain ⟨fl₁, s₁, hrun, hinit⟩ := kernelInit_spec smallMachine
  have hlen : 3852 ≤ fl₁.length + 1024 := Nat.le_trans smallMachine_free hinit.laid.length_le
  obtain ⟨d, fl, rfl⟩ := List.exists_cons_of_length_pos (show 0 < fl₁.length by omega)
  have hinv := hinit.booted.inv
  -- the environment, and its stack
  have hfree : s₁.dir 0 = none := if_pos (hinit.envs 0).1
  obtain ⟨htgt, -⟩ := hinv.newEnv_target hinit.head 0#32
  have hd : (s₁.newEnv 0 d 0#32).dir 0 = some d :=
    (congrFun htgt (.dir 0)).trans (Function.update_self _ _ _)
  have hnew : ∀ i, (s₁.newEnv 0 d 0#32).table 0 i = none := fun i =>
    (congrFun htgt (.table 0 i)).trans
      ((Function.update_of_ne (by simp) _ _).trans (table_eq_none hfree i))
  have hpages : emptyElf.pages.length = 1 := rfl
  rw [List.length_cons] at hlen
  obtain ⟨t, hload, hfaith⟩ := Inv.loadIcode_faithful (hinv.newEnv hinit.head 0#32) hd hnew
    emptyElf_loadable (.of_le (by omega))
  have hcreate : (envCreate emptyElf .user).run s₁ =
      .ok () (t.setEnv 0 { t.envs 0 with envType := .user }) := by
    have hzero : ¬ (0#32).toInt < 0 := by decide
    rw [envCreate, run_bind_ok (envAlloc_run hinit.head hinv.chain.1
      (hinv.free_lt List.mem_cons_self) 0#32)]
    simp only [if_neg hzero]
    exact run_bind_ok hload
  have hboot : (i386Init smallMachine).run smallMachine.powerOn =
      .ok () (t.setEnv 0 { t.envs 0 with envType := .user }) := by
    rw [i386Init, hrun]
    exact run_bind_ok hcreate
  have hspec := @Inv.envCreate _ _ _ True hinv emptyElf .user 0 (fun _ => ⟨rfl, rfl⟩)
    (fun _ => ⟨by rw [List.length_cons]; omega, by rw [hinit.head]; simp⟩) s₁ rfl
  rw [hcreate] at hspec
  obtain ⟨e, q, fl', hc, -⟩ := hspec
  obtain rfl : 0 = e := Option.some_inj.1 (hinit.head.symm.trans hc.slot)
  generalize hs₀ : t.setEnv 0 { t.envs 0 with envType := .user } = s₀ at hboot hc
  have hd₀ : s₀.dir 0 = some d := by
    rw [← hs₀, Kernel.dir, setEnv_envs, Function.update_self]
    exact hfaith.dir
  have hmem₀ : s₀.mem = t.mem := by
    rw [← hs₀]
    rfl
  -- the first dispatch
  have hcpu : s₀.cpus 0 = ⟨.started, none⟩ := by
    rw [hc.cpus.1, hinit.cpus]
    rfl
  let n : Entry := ⟨0, .boot, 0#32, 0#32, s₀.mem⟩
  have hother : ∀ e, e ≠ 0 → (s₀.envs e).envStatus = .free := by
    intro e he
    obtain ⟨tf, type, henvs⟩ := hc.envs
    rw [henvs, Function.update_of_ne he]
    exact (hinit.envs e).1
  obtain ⟨e, d', hst, hdir, -, hyield⟩ :=
    schedYield_runnable (s := n.enter s₀) (e := 0) hc.inv.live_dir hc.runnable
  obtain rfl : e = 0 := by
    by_contra hne
    exact absurd ((hother e hne).symm.trans hst) (by simp)
  obtain rfl : d = d' := Option.some_inj.1 ((envPgdir_of_dir hd₀).symm.trans hdir)
  have hstack : stackPage ≤ stackPage ∧ stackPage < ustacktop := by decide
  obtain ⟨p, htr⟩ := hfaith.stack stackPage hstack.1 hstack.2
  refine ⟨s₀, n, (n.enter s₀).dispatch 0 d, p, hboot, Or.inl ⟨⟨by rw [hcpu], by rw [hcpu]⟩, hyield⟩,
    ⟨fun e _ => ⟨id, id⟩, ⟨s₀, .refl, rfl⟩, fun tf cur c hcause => ?_⟩, ?_, ?_, ?_⟩
  · exact absurd hcause (by simp [n])
  · exact dispatch_curenv (n.enter s₀) 0 d
  · have hcr3 : ((n.enter s₀).dispatch 0 d).cr3 0 = d := dispatch_cr3 _ _ _
    have hmem : ((n.enter s₀).dispatch 0 d).mem = t.mem := hmem₀
    have hoff : pgoff stackPage = 0 := by decide
    rw [Kernel.translate] at htr
    rw [hcr3, Kernel.translate, hmem, htr, hoff]
  · rw [dispatch_self]
    rfl

theorem boot_trusted : ∃ s₀ s p, (i386Init smallMachine).run smallMachine.powerOn = .ok () s₀ ∧
    Reach Kernel.Step (fun s n => n.Trusted s) s₀ s ∧ (s.cpus 0).cpuEnv = some 0 ∧
    s.translate (s.cr3 0) (pteP ||| pteU ||| pteW) stackPage = some (p, 0) ∧
    (s.envs 0).envStatus = .running := by
  obtain ⟨s₀, n, s, p, hboot, hstep, hok, hcpu, htr, hrun⟩ := boot_running
  exact ⟨s₀, s, p, hboot, .tail .refl hok hstep, hcpu, htr, hrun⟩

/-! ## What holds in every run -/

/-- **The accounts of the page allocator are in order**, whatever the CPUs do. -/
theorem runs_accounted (hboot : (i386Init m).run m.powerOn = .ok () s₀)
    (hmem : m.kernPage < m.npages) (hroom : 71 ≤ m.initialFree.length)
    (hr : Reach Kernel.Step (fun s n => n.Trusted s) s₀ s) : ∃ fl, Accounted m s₀ fl s := by
  obtain ⟨res, fl₀, hb, -, h⟩ := reaches_protected hboot hmem hroom hr
  obtain ⟨fl, hinv⟩ := h.guarded.inv
  exact ⟨fl, hb.accounted hinv⟩

theorem runs_accounted_small : ∃ s₀ s,
    (i386Init smallMachine).run smallMachine.powerOn = .ok () s₀ ∧
    Reach Kernel.Step (fun s n => n.Trusted s) s₀ s ∧ (s.cpus 0).cpuEnv = some 0 ∧
    ∃ fl, Accounted smallMachine s₀ fl s := by
  obtain ⟨s₀, s, p, hboot, hr, hcpu, -⟩ := boot_trusted
  exact ⟨s₀, s, hboot, hr, hcpu, runs_accounted hboot smallMachine_fits.1 smallMachine_fits.2 hr⟩

theorem Booted.res_atBoot (h : Booted m res fl s₀) (hp : AtBoot m s₀ p) : res p := by
  rcases hp with hp | ⟨i, hi, hp⟩
  · exact h.reserved p hp
  · exact h.inv.kern_table i p hi.1 hi.2 hp

/-- **What a program can write to** is a page below `UTOP`, and none that the kernel relies on: not
one that boot sets aside, not one that is free, and not a page directory or a page table. -/
theorem runs_writable (hboot : (i386Init m).run m.powerOn = .ok () s₀)
    (hmem : m.kernPage < m.npages) (hroom : 71 ≤ m.initialFree.length)
    (hr : Reach Kernel.Step (fun s n => n.Trusted s) s₀ s) {c : Cpu}
    (hc : (s.cpus c).cpuEnv = some e)
    {va : Word} {o : Nat} (htr : s.translate (s.cr3 c) (pteP ||| pteU ||| pteW) va = some (p, o)) :
    va < utop ∧ p < m.npages ∧ ¬ AtBoot m s₀ p ∧
      (∃ fl, Chain s.links s.pageFreeList fl ∧ p ∉ fl) ∧
      ∀ e', s.dir e' ≠ some p ∧ ∀ i, s.table e' i ≠ some p := by
  obtain ⟨res, fl₀, hb, -, h⟩ := reaches_protected hboot hmem hroom hr
  obtain ⟨fl, hinv⟩ := h.guarded.inv
  obtain ⟨hlt, hleaf⟩ := hinv.writable_leaf h.shut (h.dir hc) htr
  have hpage : s.target (.page e (pdx va) (ptx va)) = some p := hleaf
  have hdata := hinv.isData_leaf hleaf
  refine ⟨hlt, ?_, fun hboot => hinv.target_res hpage (hb.res_atBoot hboot),
    ⟨fl, hinv.chain, hdata.1⟩, fun e' => ⟨fun hd => ?_, fun i ht => ?_⟩⟩
  · rw [← hb.npages, ← h.guarded.frame.npages]
    exact hinv.target_lt hpage
  · exact hdata.2 (.dir e') trivial hd
  · exact hdata.2 (.table e' i) trivial ht

theorem runs_writable_stack : ∃ s₀ s p,
    (i386Init smallMachine).run smallMachine.powerOn = .ok () s₀ ∧
    Reach Kernel.Step (fun s n => n.Trusted s) s₀ s ∧
    s.translate (s.cr3 0) (pteP ||| pteU ||| pteW) stackPage = some (p, 0) ∧
    ¬ AtBoot smallMachine s₀ p ∧ s.dir 0 ≠ some p := by
  obtain ⟨s₀, s, p, hboot, hr, hcpu, htr, -⟩ := boot_trusted
  obtain ⟨-, -, hp, -, hnode⟩ :=
    runs_writable hboot smallMachine_fits.1 smallMachine_fits.2 hr hcpu htr
  exact ⟨s₀, s, p, hboot, hr, htr, hp, (hnode 0).1⟩

/-- What a program can read above `UTOP`, but for its page tables: the copies of `envs` and
`pages`. -/
def Machine.readable (m : Machine) (a : Word) : Option (Nat × Nat) :=
  if InRegion uenvs envsSize a then
    some (regionPage uenvs (m.bootLayout.envs - kernbase) a, pgoff a)
  else if InRegion upages m.pagesSize a then
    some (regionPage upages (m.bootLayout.pages - kernbase) a, pgoff a)
  else
    none

theorem kernelMapping_write (m : Machine) (a : Word) : ((m.kernelMapping a).bind fun x =>
    if x.2 &&& (pteP ||| pteU ||| pteW) = pteP ||| pteU ||| pteW then some (x.1, pgoff a)
    else none) =
      none := by
  cases h : m.kernelMapping a with
  | none => rfl
  | some x =>
    rcases kernelMapping_flags h with hf | hf
    · rw [Option.bind_some, hf, if_neg (by decide)]
    · rw [Option.bind_some, hf, if_neg (by decide)]

theorem kernelMapping_read (m : Machine) (a : Word) : ((m.kernelMapping a).bind fun x =>
    if x.2 &&& (pteP ||| pteU) = pteP ||| pteU then some (x.1, pgoff a) else none) =
      m.readable a := by
  have hps := m.pagesSize_toNat
  have hn := m.npages_le
  have hes := Machine.envsSize_toNat
  have hkb : kernbase.toNat = 4026531840 := by decide
  have hup : upages.toNat = 4009754624 := by decide
  have hue : uenvs.toNat = 4005560320 := by decide
  have hks : kstksize.toNat = 32768 := by decide
  have hkt : (kstacktop - kstksize).toNat = 4026499072 := by decide
  have hW : (pteW ||| pteP) &&& (pteP ||| pteU) ≠ pteP ||| pteU := by decide
  have hU : (pteU ||| pteP) &&& (pteP ||| pteU) = pteP ||| pteU := by decide
  have hwindows : InRegion uenvs envsSize a ∨ InRegion upages m.pagesSize a →
      ¬ InRegion kernbase kernSize a ∧ ¬ InRegion (kstacktop - kstksize) kstksize a := by
    intro h
    have hlt : a.toNat < 4026499072 := by
      rcases h with h | h
      · have := h.2
        omega
      · have := h.2
        omega
    exact ⟨fun h => by have := h.1; omega, fun h => by have := h.1; omega⟩
  rw [Machine.readable, Machine.kernelMapping]
  by_cases he : InRegion uenvs envsSize a
  · obtain ⟨h1, h2⟩ := hwindows (Or.inl he)
    rw [if_neg h1, if_neg h2, if_pos he, if_pos he, Option.bind_some, if_pos hU]
  · by_cases hp : InRegion upages m.pagesSize a
    · obtain ⟨h1, h2⟩ := hwindows (Or.inr hp)
      rw [if_neg h1, if_neg h2, if_neg he, if_neg he, if_pos hp, if_pos hp, Option.bind_some,
        if_pos hU]
    · rw [if_neg he, if_neg hp, if_neg he, if_neg hp]
      split
      · rw [Option.bind_some, if_neg hW]
      · split
        · rw [Option.bind_some, if_neg hW]
        · rfl

/-- **The kernel's part of every address space is what boot made it**: above `UTOP`, but for the
page tables at `UVPT`, a program can read the copies of `envs` and `pages`, and write nothing. -/
theorem runs_kernelMapping (hboot : (i386Init m).run m.powerOn = .ok () s₀)
    (hmem : m.kernPage < m.npages) (hroom : 71 ≤ m.initialFree.length)
    (hr : Reach Kernel.Step (fun s n => n.Trusted s) s₀ s) (hd : s.dir e = some d) (ha : utop ≤ a)
    (hne : pdx a ≠ pdx uvpt) : s.mapping d a = m.kernelMapping a ∧
      s.translate d (pteP ||| pteU) a = m.readable a ∧
      s.translate d (pteP ||| pteU ||| pteW) a = none := by
  obtain ⟨res, fl₀, hb, hk, h⟩ := reaches_protected hboot hmem hroom hr
  obtain ⟨fl, hinv⟩ := h.guarded.inv
  have hkern := (hk.frame hb.inv.kern_res (fun i t hi ht => hb.inv.kern_table i t hi.1 hi.2 ht)
    h.guarded.frame).dir hinv hd
  refine ⟨hkern.mapping a ha hne, ?_, ?_⟩
  · rw [hkern.translate (by decide) ha hne, kernelMapping_read]
  · rw [hkern.translate (by decide) ha hne, kernelMapping_write]

theorem runs_kernelMapping_uenvs : ∃ s₀ s d,
    (i386Init smallMachine).run smallMachine.powerOn = .ok () s₀ ∧
    Reach Kernel.Step (fun s n => n.Trusted s) s₀ s ∧ s.dir 0 = some d ∧
    s.translate d (pteP ||| pteU) uenvs = smallMachine.readable uenvs ∧
    s.translate d (pteP ||| pteU ||| pteW) uenvs = none := by
  obtain ⟨s₀, s, p, hboot, hr, hcpu, -⟩ := boot_trusted
  obtain ⟨hmem, hroom⟩ := smallMachine_fits
  obtain ⟨res, fl₀, -, -, h⟩ := reaches_protected hboot hmem hroom hr
  have hd := h.dir hcpu
  obtain ⟨-, hread, hwrite⟩ :=
    runs_kernelMapping (a := uenvs) hboot hmem hroom hr hd (by decide) (by decide)
  exact ⟨s₀, s, _, hboot, hr, hd, hread, hwrite⟩

end Jos
