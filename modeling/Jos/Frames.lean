import Jos.RoundRobin
import Jos.Trapentry
import Jos.Zombie

/-!
# The saved frames over whole runs

`env_pop_tf` takes what it loads from the environment's `env_tf`, and `iret` faults if the segments
or the flags there are not those of a program.  They always are: the kernel makes them up once, in
`env_alloc`; all that it ever does to them is to copy them, when a trap saves them and when
`sys_exofork` hands them to a child; and a program cannot load others.

So the programs and the kernel are run together here, with the registers of each CPU that is in user
mode.  Between two entries a program changes its registers as it pleases, as far as the processor
lets it; an entry starts with the frame that the processor and `kern/trapentry.S` make of them, and
ends with the registers that `env_pop_tf` loads.
-/

set_option autoImplicit false

namespace Jos

open X86 Kernel Command

variable {s s' t u : Kernel} {cur : Option EnvIndex} {e : EnvIndex} {α β : Type} {m : KernelM α}

/-! ## What the kernel does to frames -/

/-- The segments and the flags are the same. -/
structure Trapframe.SameMode (tf tf' : Trapframe) : Prop where
  cs : tf'.tfCs = tf.tfCs
  ss : tf'.tfSs = tf.tfSs
  ds : tf'.tfDs = tf.tfDs
  es : tf'.tfEs = tf.tfEs
  eflags : tf'.tfEflags = tf.tfEflags

theorem Trapframe.SameMode.refl (tf : Trapframe) : tf.SameMode tf := ⟨rfl, rfl, rfl, rfl, rfl⟩

theorem Trapframe.SameMode.trans {tf tf' tf'' : Trapframe} (h : tf.SameMode tf')
    (h' : tf'.SameMode tf'') : tf.SameMode tf'' :=
  ⟨h'.cs.trans h.cs, h'.ss.trans h.ss, h'.ds.trans h.ds, h'.es.trans h.es, h'.eflags.trans h.eflags⟩

/-- Every slot of `t` still has its environment, with the segments and the flags it had; or they are
those of a new environment; or those of `cur`. -/
def Descends (cur : Option EnvIndex) (s t : Kernel) : Prop :=
  ∀ e, ((t.envs e).envId = (s.envs e).envId ∧ (s.envs e).envTf.SameMode (t.envs e).envTf) ∨
    initialTf.SameMode (t.envs e).envTf ∨
      ∃ c, cur = some c ∧ (s.envs c).envTf.SameMode (t.envs e).envTf

theorem Descends.of_envs (h : t.envs = s.envs) : Descends cur s t := by
  intro e
  rw [h]
  exact Or.inl ⟨rfl, .refl _⟩

theorem Descends.refl (s : Kernel) : Descends cur s s := .of_envs rfl

theorem Descends.trans (h : Descends cur s t) (h' : Descends cur t u) : Descends cur s u := by
  intro e
  rcases h' e with ⟨hid, hmode⟩ | hnew | ⟨c, hc, hmode⟩
  · rcases h e with ⟨hid', hmode'⟩ | hnew | ⟨c, hc, hmode'⟩
    · exact Or.inl ⟨hid.trans hid', hmode'.trans hmode⟩
    · exact Or.inr (Or.inl (hnew.trans hmode))
    · exact Or.inr (Or.inr ⟨c, hc, hmode'.trans hmode⟩)
  · exact Or.inr (Or.inl hnew)
  · rcases h c with ⟨-, hmode'⟩ | hnew | ⟨c', hc', hmode'⟩
    · exact Or.inr (Or.inr ⟨c, hc, hmode'.trans hmode⟩)
    · exact Or.inr (Or.inl (hnew.trans hmode))
    · exact Or.inr (Or.inr ⟨c', hc', hmode'.trans hmode⟩)

theorem Descends.setEnv {env : Env} (hid : env.envId = (s.envs e).envId)
    (hmode : (s.envs e).envTf.SameMode env.envTf) : Descends cur s (s.setEnv e env) := by
  intro e'
  by_cases hee : e' = e
  · subst hee
    rw [setEnv_envs, Function.update_self]
    exact Or.inl ⟨hid, hmode⟩
  · rw [setEnv_envs, Function.update_of_ne hee]
    exact Or.inl ⟨rfl, .refl _⟩

/-- The command makes no other segments and flags up, unless it panics. -/
abbrev Kernel.Hands (cur : Option EnvIndex) (s : Kernel) (m : KernelM α) : Prop :=
  LeadsTo (Descends cur) Exit.IsPanic s m

theorem hands_bind {f : α → KernelM β} (h : s.Hands cur m)
    (hf : ∀ a t, m.run s = .ok a t → t.Hands cur (f a)) : s.Hands cur (m >>= f) :=
  LeadsTo.bind (R := Descends cur) (fun _ _ _ h h' => h.trans h') h fun a t hr _ => hf a t hr

theorem Quiet.hands (h : Quiet m) : s.Hands cur m where
  ret _ _ hr := .of_envs (h.of_ok hr).envs
  exit _ _ hr := Or.inl (h.of_error hr).2

theorem throw_hands (x : Exit) : s.Hands cur (throw x : KernelM α) := .of_final (.refl s)

/-- What follows an exit is not reached. -/
theorem throw_bind_hands (x : Exit) (f : α → KernelM β) : s.Hands cur (throw x >>= f) :=
  hands_bind (throw_hands x) fun _ _ h => by cases h

theorem forM_hands {ι : Type} {f : ι → KernelM PUnit} (l : List ι)
    (h : ∀ i s, Kernel.Hands cur s (f i)) (s : Kernel) : s.Hands cur (l.forM f) :=
  LeadsTo.forM Descends.refl (fun _ _ _ h h' => h.trans h') l (fun i _ => h i) s

theorem pure_hands (a : α) : s.Hands cur (pure a : KernelM α) := .of_final (.refl s)

theorem modify_hands {f : Kernel → Kernel} (h : (f s).envs = s.envs) :
    s.Hands cur (modify f : KernelM PUnit) := .of_final (.of_envs h)

theorem updateEnv_hands {g : Env → Env} (hid : (g (s.envs e)).envId = (s.envs e).envId)
    (hmode : (s.envs e).envTf.SameMode (g (s.envs e)).envTf) : s.Hands cur (updateEnv e g) :=
  .of_final (.setEnv hid hmode)

/-! ### Environments -/

theorem envAlloc_hands (s : Kernel) (parentId : Word) : s.Hands cur (envAlloc parentId) where
  ret a t hr := by
    rcases (envAlloc_effect s parentId).of_ok rfl hr with ⟨-, -, hmo⟩ | ⟨e, p, -, -, hmo⟩
    · exact .of_envs hmo.envs
    · intro e'
      rw [hmo.envs]
      by_cases hee : e' = e
      · subst hee
        refine Or.inr (Or.inl ?_)
        simp only [allocated, Function.update_self]
        exact .refl _
      · simp only [allocated, Function.update_of_ne hee]
        exact Or.inl ⟨trivial, .refl _⟩
  exit x t hr := Or.inl ((envAlloc_effect s parentId).of_error rfl hr)

theorem envFree_hands (s : Kernel) (e : EnvIndex) : s.Hands cur (envFree e) where
  ret a t hr := by
    have hmo := (envFree_effect s e).of_ok rfl hr
    have hfreed : Descends cur s (s.setEnv e (s.freedEnv e)) := .setEnv rfl (.refl _)
    refine hfreed.trans (.of_envs ?_)
    rw [hmo.envs]
    rfl
  exit x t hr := Or.inl ((envFree_effect s e).of_error rfl hr)

theorem deschedule_hands (s : Kernel) : s.Hands cur deschedule := by
  refine LeadsTo.get_bind ?_
  split
  · exact LeadsTo.get_bind (.ite (fun _ => updateEnv_hands rfl (.refl _)) fun _ => pure_hands _)
  · exact pure_hands _

theorem envPopTf_hands (s : Kernel) : s.Hands cur envPopTf :=
  LeadsTo.get_bind (hands_bind (derefEnv_quiet _).hands fun _ _ _ =>
    hands_bind (.of_final (.setEnv rfl (.refl _))) fun _ _ _ => throw_hands _)

theorem paddr_quiet (d : Option Nat) : Quiet (paddr d) := by
  cases d with
  | none => exact Quiet.panic _
  | some d => exact Quiet.pure d

theorem envRun_hands (s : Kernel) (e : EnvIndex) : s.Hands cur (envRun e) :=
  hands_bind (deschedule_hands s) fun _ _ _ => hands_bind (modify_hands rfl) fun _ _ _ =>
    hands_bind (updateEnv_hands rfl (.refl _)) fun _ _ _ =>
      hands_bind (updateEnv_hands rfl (.refl _)) fun _ _ _ =>
        LeadsTo.get_bind (hands_bind (paddr_quiet _).hands fun _ _ _ =>
          hands_bind (modify_hands rfl) fun _ t _ => envPopTf_hands t)

theorem schedHalt_hands (s : Kernel) : s.Hands cur schedHalt := by
  refine LeadsTo.get_bind (hands_bind ?_ fun _ t _ => ?_)
  · exact .ite (fun _ => throw_hands _) fun _ => pure_hands _
  · exact hands_bind (modify_hands rfl) fun _ _ _ => hands_bind (modify_hands rfl) fun _ _ _ =>
      hands_bind (modify_hands rfl) fun _ _ _ => throw_hands _

theorem schedYield_hands (s : Kernel) : s.Hands cur schedYield := by
  have hloop : ∀ start : EnvIndex, s.Hands cur ((schedOrder start).forM schedTry) := fun start =>
    forM_hands _
      (fun i t => LeadsTo.get_bind (.ite (fun _ => envRun_hands t i) fun _ => pure_hands _)) s
  refine LeadsTo.get_bind ?_
  cases s.curenv with
  | none => exact LeadsTo.pure_bind (hands_bind (hloop 0) fun _ t _ => schedHalt_hands t)
  | some e =>
    refine LeadsTo.get_bind
      (LeadsTo.pure_bind (hands_bind (hloop _) fun _ t _ => LeadsTo.get_bind ?_))
    exact .ite (fun _ => hands_bind (envRun_hands t e) fun _ u _ => schedHalt_hands u) fun _ =>
      schedHalt_hands t

theorem envDestroy_hands (s : Kernel) (e : EnvIndex) : s.Hands cur (envDestroy e) := by
  refine LeadsTo.get_bind (.ite (fun _ => updateEnv_hands rfl (.refl _)) fun _ => ?_)
  refine hands_bind (envFree_hands s e) fun _ t _ =>
    LeadsTo.get_bind (.ite (fun _ => ?_) fun _ => ?_)
  · exact hands_bind (modify_hands rfl) fun _ u _ => schedYield_hands u
  · exact pure_hands _

attribute [local irreducible] userMemCheck cprintS

theorem userMemAssert_hands (s : Kernel) (e : EnvIndex) (va len perm : Word) :
    s.Hands cur (userMemAssert e va len perm) := by
  refine hands_bind (userMemCheck_quiet e va len (perm ||| pteU)).hands fun r t _ => ?_
  exact .ite (fun _ => envDestroy_hands t e) fun _ => pure_hands _

/-! ### System calls -/

theorem sysEnvDestroy_hands (s : Kernel) (envid : Word) : s.Hands cur (sysEnvDestroy envid) := by
  refine hands_bind (envid2env_quiet envid true).hands fun p t _ =>
    .ite (fun _ => pure_hands _) fun _ => ?_
  exact hands_bind (derefEnv_quiet _).hands fun e u _ =>
    hands_bind (envDestroy_hands u e) fun _ _ _ => pure_hands _

theorem sysEnvSetStatus_hands (s : Kernel) (envid status : Word) :
    s.Hands cur (sysEnvSetStatus envid status) := by
  refine hands_bind (envid2env_quiet envid true).hands fun p t _ =>
    .ite (fun _ => pure_hands _) fun _ => ?_
  split
  · exact pure_hands _
  · exact hands_bind (derefEnv_quiet _).hands fun e u _ =>
      hands_bind (updateEnv_hands rfl (.refl _)) fun _ _ _ => pure_hands _

theorem sysEnvSetPgfaultUpcall_hands (s : Kernel) (envid func : Word) :
    s.Hands cur (sysEnvSetPgfaultUpcall envid func) := by
  refine hands_bind (envid2env_quiet envid true).hands fun p t _ =>
    .ite (fun _ => pure_hands _) fun _ => ?_
  exact hands_bind (derefEnv_quiet _).hands fun e u _ =>
    hands_bind (updateEnv_hands rfl (.refl _)) fun _ u _ =>
      hands_bind (userMemAssert_hands u e _ _ _) fun _ _ _ => pure_hands _

theorem sysCputs_hands (s : Kernel) (p len : Word) : s.Hands cur (sysCputs p len) :=
  LeadsTo.get_bind (hands_bind (derefEnv_quiet _).hands fun e t _ =>
    hands_bind (userMemAssert_hands t e p len pteU) fun _ _ _ => (cprintS_quiet p len).hands)

/-- **`sys_exofork`** hands the caller's segments and flags to the child. -/
theorem sysExofork_hands {cur : EnvIndex} (hc : s.curenv = some cur) :
    s.Hands (some cur) sysExofork := by
  refine LeadsTo.get_bind ?_
  rw [hc]
  refine LeadsTo.pure_bind (LeadsTo.get_bind (hands_bind (envAlloc_hands s _) fun p t hr => ?_))
  refine .ite (fun _ => pure_hands _) fun hpos => ?_
  rcases (envAlloc_effect s _).of_ok rfl hr with ⟨hneg, -, -⟩ | ⟨e, q, rfl, -, hmo⟩
  · exact absurd hneg hpos
  refine LeadsTo.pure_bind (hands_bind (updateEnv_hands rfl (.refl _)) fun _ u hu => ?_)
  refine hands_bind (LeadsTo.modify ?_) fun _ _ _ =>
    hands_bind (updateEnv_hands rfl ⟨rfl, rfl, rfl, rfl, rfl⟩) fun _ _ _ =>
      LeadsTo.get_bind (pure_hands _)
  intro e'
  by_cases hee : e' = e
  · subst hee
    refine Or.inr (Or.inr ⟨cur, rfl, ?_⟩)
    rw [setEnv_envs, Function.update_self]
    exact .refl _
  · rw [setEnv_envs, Function.update_of_ne hee]
    exact Or.inl ⟨rfl, .refl _⟩

theorem handle_hands {cur : EnvIndex} (hc : s.curenv = some cur) (c : Syscall) :
    s.Hands (some cur) c.handle := by
  cases c with
  | cputs p len => exact hands_bind (sysCputs_hands s p len) fun _ _ _ => pure_hands _
  | cgetc => exact LeadsTo.get_bind (pure_hands _)
  | getenvid =>
    exact LeadsTo.get_bind (hands_bind (derefEnv_quiet _).hands fun _ _ _ =>
      LeadsTo.get_bind (pure_hands _))
  | envDestroy envid => exact sysEnvDestroy_hands s envid
  | pageAlloc envid va perm => exact (sysPageAlloc_quiet _ _ _).hands
  | pageMap srcenvid srcva dstenvid dstva perm => exact (sysPageMap_quiet _ _ _ _ _).hands
  | pageUnmap envid va => exact (sysPageUnmap_quiet _ _).hands
  | exofork => exact sysExofork_hands hc
  | envSetStatus envid status => exact sysEnvSetStatus_hands s envid status
  | envSetPgfaultUpcall envid func => exact sysEnvSetPgfaultUpcall_hands s envid func
  | yield => exact hands_bind (schedYield_hands s) fun _ _ _ => pure_hands _

/-! ### Traps -/

theorem pageFaultHandler_hands (s : Kernel) (tf : Trapframe) :
    s.Hands cur (pageFaultHandler tf) := by
  refine LeadsTo.get_bind (.ite (fun _ => ?_) fun _ => ?_)
  · exact throw_bind_hands _ _
  refine LeadsTo.get_bind (hands_bind (derefEnv_quiet _).hands fun e t _ => LeadsTo.get_bind ?_)
  refine .ite (fun _ => envDestroy_hands t e) fun _ => ?_
  refine hands_bind (userMemAssert_hands t e _ _ _) fun _ u _ => ?_
  refine hands_bind (Quiet.forM _ fun _ => kstoreWord_quiet _ _).hands fun _ u _ => ?_
  refine hands_bind (userMemAssert_hands u e _ _ _) fun _ u _ => ?_
  exact hands_bind (updateEnv_hands rfl ⟨rfl, rfl, rfl, rfl, rfl⟩) fun _ u _ => envRun_hands u e

theorem trapDispatch_hands (s : Kernel) (tf : Trapframe) : s.Hands s.curenv (trapDispatch tf) := by
  refine .ite (fun _ => pure_hands _) fun _ => .ite (fun _ => pageFaultHandler_hands s tf) fun _ =>
    .ite (fun _ => throw_hands _) fun _ => .ite (fun _ => ?_) fun _ =>
      .ite (fun _ => schedYield_hands s) fun _ => .ite (fun _ => throw_hands _) fun _ => ?_
  · refine LeadsTo.get_bind ?_
    cases hc : s.curenv with
    | none => exact throw_bind_hands _ _
    | some cur =>
      refine LeadsTo.pure_bind
        (hands_bind ?_ fun r t _ => updateEnv_hands rfl ⟨rfl, rfl, rfl, rfl, rfl⟩)
      rw [syscall]
      split
      · exact handle_hands hc _
      · exact .ite (fun _ => throw_hands _) fun _ => .ite (fun _ => throw_hands _)
          fun _ => throw_hands _
  · exact LeadsTo.get_bind (hands_bind (derefEnv_quiet _).hands fun e t _ => envDestroy_hands t e)

theorem trapReturn_hands (s : Kernel) : s.Hands cur trapReturn := by
  refine LeadsTo.get_bind ?_
  split
  · exact LeadsTo.get_bind (.ite (fun _ => envRun_hands s _) fun _ => schedYield_hands s)
  · exact schedYield_hands s

/-! ### Boot -/

theorem regionAlloc_hands (s : Kernel) (e : EnvIndex) (va len : Word) :
    s.Hands cur (regionAlloc e va len) := by
  refine forM_hands _ (fun k t => ?_) s
  refine hands_bind (pageAlloc_quiet _).hands fun pp t _ => ?_
  cases pp with
  | none => exact throw_hands _
  | some pp =>
    refine LeadsTo.get_bind (hands_bind (derefPgdir_quiet _).hands fun d t _ => ?_)
    exact hands_bind (pageInsert_quiet _ _ _ _).hands fun r t _ =>
      .ite (fun _ => throw_hands _) fun _ => pure_hands _

theorem copyIn_hands (s : Kernel) (va : Word) (src : Nat → Byte) (n : Nat) :
    s.Hands cur (copyIn va src n) := (Quiet.forM _ fun _ => kstoreByte_quiet _ _).hands

theorem loadSegment_hands (s : Kernel) (e : EnvIndex) (elf : Elf) (ph : Proghdr) :
    s.Hands cur (loadSegment e elf ph) := by
  refine .ite (fun _ => .ite (fun _ => throw_bind_hands _ _) fun _ => ?_) fun _ => pure_hands _
  refine hands_bind (regionAlloc_hands s e _ _) fun _ t _ => ?_
  exact hands_bind (copyIn_hands t _ _ _) fun _ u _ => copyIn_hands u _ _ _

theorem loadIcode_hands (s : Kernel) (e : EnvIndex) (elf : Elf) :
    s.Hands cur (loadIcode e elf) := by
  refine .ite (fun _ => throw_bind_hands _ _) fun _ => ?_
  refine LeadsTo.get_bind (hands_bind (paddr_quiet _).hands fun d t _ => ?_)
  refine hands_bind (modify_hands rfl) fun _ t _ => ?_
  refine hands_bind (forM_hands _ (fun ph u => loadSegment_hands u e elf ph) t) fun _ t _ => ?_
  refine hands_bind (modify_hands rfl) fun _ t _ => ?_
  exact hands_bind (updateEnv_hands rfl ⟨rfl, rfl, rfl, rfl, rfl⟩) fun _ t _ =>
    regionAlloc_hands t e _ _

theorem envCreate_hands (s : Kernel) (elf : Elf) (type : EnvType) :
    s.Hands cur (envCreate elf type) := by
  refine hands_bind (envAlloc_hands s _) fun p t _ => .ite (fun _ => throw_bind_hands _ _)
    fun _ => ?_
  refine hands_bind (derefEnv_quiet _).hands fun e t _ => ?_
  exact hands_bind (loadIcode_hands t e elf) fun _ t _ => updateEnv_hands rfl (.refl _)

/-! ## Frames that can be loaded -/

variable {I : Image} {f f' : RegFile} {tf tf' : Trapframe}

/-- The registers of a program that is no danger: it has the privileges of a program, interrupts are
enabled, and `iret` can load them. -/
structure Image.Confined (I : Image) (f : RegFile) : Prop where
  fits : I.processor.Fits f
  level : f.cpl = 3#2
  enabled : f.regs.eflags &&& flagIF ≠ 0#32

/-- Only the segments and the flags matter. -/
theorem Image.Confined.of_eq (h : I.Confined f) (hsegs : f'.segs = f.segs)
    (hflags : f'.regs.eflags = f.regs.eflags) : I.Confined f' := by
  have hcpl : f'.cpl = f.cpl := by rw [RegFile.cpl, hsegs, RegFile.cpl]
  obtain ⟨⟨hcode, hstack, hdata, hok, hiopl, hvm⟩, hlevel, hif⟩ := h
  refine ⟨⟨?_, ?_, ?_, ?_, ?_, ?_⟩, hcpl.trans hlevel, ?_⟩
  · rwa [hsegs]
  · rwa [hsegs, hcpl]
  · rwa [hsegs, hcpl]
  · rwa [hflags]
  · rwa [hflags, hcpl]
  · rwa [hflags]
  · rwa [hflags]

theorem Trapframe.SameMode.confined (h : tf.SameMode tf') (hc : I.Confined tf.file) :
    I.Confined tf'.file := by
  refine hc.of_eq ?_ ?_
  · simp only [Trapframe.file, h.cs, h.ss, h.ds, h.es]
  · simp only [Trapframe.file, h.eflags]

theorem initialTf_confined (I : Image) : I.Confined initialTf.file :=
  ⟨initialTf_fits I, by decide, by decide⟩

/-- What the processor saves of such a program can be loaded again. -/
theorem Image.Confined.frame (h : I.Confined f) (ev : Event) : I.Confined (I.frame f ev).file := by
  rw [frame_file h.fits]
  refine ⟨h.fits.saved ev, h.level, ?_⟩
  rw [ev.saved_eflags (by decide)]
  exact h.enabled

theorem Image.Confined.resumed (h : I.Confined f) : I.Confined (resumed f) :=
  ⟨fits_resumed h.fits, h.level, h.enabled⟩

/-- A program cannot load others. -/
theorem Image.Confined.moves (h : I.Confined f) (hm : I.processor.Moves f f') : I.Confined f' := by
  obtain ⟨hfits, hcpl, hif⟩ := hm.fits h.fits (by rw [h.level]; exact I.closed)
  refine ⟨hfits, hcpl.trans h.level, ?_⟩
  rw [hif]
  exact h.enabled

/-! ## Entries -/

/-- Every slot that has ever been filled has such a frame. -/
def Kernel.Framed (s : Kernel) (I : Image) : Prop :=
  ∀ e, (s.envs e).envId ≠ 0#32 → I.Confined (s.envs e).envTf.file

theorem Descends.framed (h : Descends cur s t) (hs : s.Framed I)
    (hcur : ∀ c, cur = some c → I.Confined (s.envs c).envTf.file) : t.Framed I := by
  intro e he
  rcases h e with ⟨hid, hmode⟩ | hnew | ⟨c, hc, hmode⟩
  · exact hmode.confined (hs e (hid ▸ he))
  · exact hnew.confined (initialTf_confined I)
  · exact hmode.confined (hcur c hc)

theorem Kernel.Framed.live (h : s.Framed I) (hids : s.IdsOk)
    (hlive : (s.envs e).envStatus ≠ .free) :
    I.Confined (s.envs e).envTf.file := by
  refine h e fun hid => ?_
  have hpos := (hids e hlive).1
  rw [hid] at hpos
  exact absurd hpos (by decide)

/-- **Every entry keeps them**, when the frame of a program that it comes with is one that can be
loaded. -/
theorem Kernel.Framed.enters {n : Entry} {x : Exit} (h : s.Framed I) (hen : s.Enters n x s')
    (hs : s.Ready n.cpu) (hids : s.IdsOk) (hx : ¬ x.IsPanic)
    (hfrom : ∀ tf, n.cause = .user tf → I.Confined tf.file) : s'.Framed I := by
  have hsane : (n.enter s).Sane := ⟨hs.dirs, hs.cur⟩
  have hcur : ∀ c, (n.enter s).curenv = some c → I.Confined (s.envs c).envTf.file :=
    fun c hc => h.live hids (hs.cur c hc)
  have hends : ∀ {t : Kernel} {m : KernelM Unit}, n.code.run (n.enter s) = m.run t →
      t.Hands t.curenv m → t.Framed I →
        (∀ c, t.curenv = some c → I.Confined (t.envs c).envTf.file) →
      s'.Framed I := by
    intro t m hrun hm ht hc
    rcases hm.exit x s' (hrun ▸ hen.run) with hpanic | hdesc
    · exact absurd hpanic hx
    · exact hdesc.framed ht hc
  have htail : ∀ (t : Kernel) (tf : Trapframe), t.Hands t.curenv (do trapDispatch tf; trapReturn) :=
    fun t tf => hands_bind (trapDispatch_hands t tf) fun _ u _ => trapReturn_hands u
  have hstarted : ∀ c, (n.enter s).started.curenv = some c → I.Confined (s.envs c).envTf.file :=
    fun c hc => hcur c ((started_curenv _).symm.trans hc)
  have hen' := hen.enabled
  rw [Entry.Enabled] at hen'
  rw [Entry.code] at hends
  cases hcause : n.cause with
  | boot =>
    rw [hcause] at hends
    exact hends rfl (schedYield_hands _) h hcur
  | mpMain =>
    rw [hcause] at hends
    exact hends (t := ((n.enter s).lcr3 (n.enter s).kernPgdir).started) (m := schedYield) rfl
      (schedYield_hands _) h
      hstarted
  | wake tf =>
    rw [hcause] at hends hen'
    exact hends (trap_wake hen'.2 _) (htail _ tf) h hstarted
  | user tf =>
    rw [hcause] at hends hen'
    obtain ⟨cur, hc⟩ := Option.ne_none_iff_exists'.1 hen'.1
    have hc₁ : (n.enter s).curenv = some cur := hc
    have hc₂ : (n.enter s).started.curenv = some cur := (started_curenv _).trans hc
    by_cases hd : (s.envs cur).envStatus = .dying
    · -- what comes after the scheduler is not reached
      have hgone := trapFromUser_dying (s := (n.enter s).started) hc₂ hd tf
      have hnever := exit_never hsane.started hc₂
      refine hends (trap_user hen'.2 _) (hands_bind ?_ fun a u hr => ?_) h hstarted
      · refine LeadsTo.congr (fun _ _ _ h h' => h.trans h') ?_ (.refl _) hgone
        refine hands_bind (hands_bind (envFree_hands _ _) fun _ u _ => ?_) fun a u hr =>
          absurd hr (hnever a u)
        exact hands_bind (modify_hands rfl) fun _ u _ => schedYield_hands u
      · rw [hgone] at hr
        obtain ⟨b, u', hb, -⟩ := ok_of_bind hr
        exact absurd hb (hnever b u')
    · have hrun : (trap tf).run (n.enter s) =
          EStateM.run (do trapDispatch tf; trapReturn : KernelM Unit)
            ((n.enter s).saved cur tf) := by
        rw [trap_user hen'.2, run_bind_ok (trapFromUser_saved hc₁ hd tf)]
      have htf : I.Confined tf.file := hfrom tf hcause
      have hself : ((n.enter s).saved cur tf).envs cur = { s.envs cur with envTf := tf } :=
        Function.update_self _ _ _
      have hother : ∀ e, e ≠ cur → ((n.enter s).saved cur tf).envs e = s.envs e :=
        fun e he => Function.update_of_ne he _ _
      refine hends hrun (htail _ tf) (fun e he => ?_) fun c hc' => ?_
      · by_cases hee : e = cur
        · subst hee
          rw [hself]
          exact htf
        · rw [hother e hee] at he ⊢
          exact h e he
      · obtain rfl : cur = c := Option.some_inj.1 (hc₂.symm.trans hc')
        rw [hself]
        exact htf

/-! ## Programs and the kernel -/

/-- The kernel, and the registers of the program on each CPU. -/
structure System where
  kernel : Kernel
  files : Cpu → RegFile

/-- What happens: an instruction of a program, or an entry into the kernel. -/
inductive Happening where
  | program (c : Cpu)
  | entry (n : Entry)

/-- The frame of an entry is what the processor and `kern/trapentry.S` make of the registers. -/
def System.From (S : System) (I : Image) (n : Entry) : Prop :=
  ∀ tf, n.cause = .user tf → ∃ ev, Remapped ev ∧ tf = I.frame (S.files n.cpu) ev

inductive System.Step (I : Image) (S : System) : Happening → System → Prop where
  /-- A program is on the CPU. -/
  | program {c : Cpu} {f : RegFile} (runs : (S.kernel.cpus c).cpuEnv ≠ none)
      (moves : I.processor.Moves (S.files c) f) :
      Step I S (.program c) ⟨S.kernel, Function.update S.files c f⟩
  /-- The entry ends with `env_pop_tf`. -/
  | popTf {n : Entry} {s' : Kernel} {e : EnvIndex} (entry : S.From I n)
      (enters : S.kernel.Enters n .popTf s') (current : (s'.cpus n.cpu).cpuEnv = some e) :
      Step I S (.entry n) ⟨s', Function.update S.files n.cpu (resumed (s'.envs e).envTf.file)⟩
  /-- The CPU waits. -/
  | halt {n : Entry} {s' : Kernel} (entry : S.From I n) (enters : S.kernel.Enters n .halt s') :
      Step I S (.entry n) ⟨s', S.files⟩

/-- No entry makes an environment runnable, or frees it, while it is on another CPU. -/
def Happening.Careful (h : Happening) (S : System) : Prop :=
  ∀ n, h = .entry n → n.Careful S.kernel

/-- Between two steps: the programs that are on a CPU, and those that wait, are confined. -/
structure System.Safe (S : System) (I : Image) : Prop where
  parted : S.kernel.Parted
  ids : S.kernel.IdsOk
  framed : S.kernel.Framed I
  files : ∀ c, (S.kernel.cpus c).cpuEnv ≠ none → I.Confined (S.files c)

variable {S S' : System}

/-- The ids stay in order. -/
theorem Kernel.Enters.ids {n : Entry} {x : Exit} (h : s.Enters n x s') (hp : s.Parted)
    (hids : s.IdsOk) (hx : x.GoesOn) : s'.IdsOk := by
  obtain ⟨u, hpath, hdep, -, -⟩ := h.departs (hp.ready n.cpu) hx.not_panic
  have hsane : (n.enter s).Sane := (hp.enter n).sane
  have hinv := hpath.inv (I := fun t => t.Sane ∧ t.EnvList ∧ t.IdsOk) ⟨hsane, hp.list, hids⟩
    fun _ _ _ ht _ ha => ⟨ht.1.act ha, ht.2.1.act ht.1 ha, ht.2.2.act ht.2.1 ha⟩
  refine hinv.2.2.of_envs fun e he => Or.inl ?_
  obtain ⟨hid, -, -, hst⟩ := hdep.env hinv.1 e
  exact ⟨mt hst.2 he, hid⟩

/-- An entry leaves the other CPUs what they have. -/
theorem Kernel.Enters.others {n : Entry} {x : Exit} (h : s.Enters n x s') (hp : s.Parted)
    (hx : x.GoesOn) {c : Cpu} (hc : c ≠ n.cpu) : s'.cpus c = s.cpus c := by
  obtain ⟨u, hpath, hdep, hn, -⟩ := h.departs (hp.ready n.cpu) hx.not_panic
  have hsame : u.cpus c = s.cpus c := hpath.sameCpus.2.1 c hc
  have hcu : c ≠ u.cpunum := by rwa [hn]
  rw [← hsame]
  cases hdep with
  | run e d who dir => rw [dispatch_cpus, Function.update_of_ne hcu]
  | halt none idle => simp [Kernel.halt, setCpu, setCurenv, lcr3, hcu]
  | monitor => rfl

/-- A CPU that waits has no program. -/
theorem Kernel.Enters.halted {n : Entry} (h : s.Enters n .halt s') (hp : s.Parted) :
    (s'.cpus n.cpu).cpuEnv = none := by
  obtain ⟨u, -, hdep, hn, -⟩ := h.departs (hp.ready n.cpu) id
  cases hdep with
  | halt none idle =>
    rw [← hn]
    exact halt_curenv u

/-- A CPU that leaves the kernel has one. -/
theorem Kernel.Enters.resumes {n : Entry} (h : s.Enters n .popTf s') (hp : s.Parted) :
    ∃ e, (s'.cpus n.cpu).cpuEnv = some e := by
  obtain ⟨u, -, hdep, hn, -⟩ := h.departs (hp.ready n.cpu) id
  cases hdep with
  | run e d who dir =>
    rw [← hn]
    exact ⟨e, dispatch_curenv u e d⟩

/-- **A trap of a program** comes with a frame that can be loaded. -/
theorem System.Safe.from {n : Entry} {x : Exit} (h : S.Safe I) (hfrom : S.From I n)
    (hen : S.kernel.Enters n x s') : ∀ tf, n.cause = .user tf → I.Confined tf.file := by
  intro tf hcause
  obtain ⟨ev, -, rfl⟩ := hfrom tf hcause
  have hen' := hen.enabled
  rw [Entry.Enabled, hcause] at hen'
  exact (h.files n.cpu hen'.1).frame ev

/-- **Whatever happens**, programs stay confined. -/
theorem System.Safe.step {a : Happening} (h : S.Safe I) (hcareful : a.Careful S)
    (hstep : S.Step I a S') : S'.Safe I := by
  cases hstep with
  | @program c f runs moves =>
    refine ⟨h.parted, h.ids, h.framed, fun c' hc' => ?_⟩
    by_cases hcc : c' = c
    · subst hcc
      simp only [Function.update_self]
      exact (h.files c' runs).moves moves
    · simp only [Function.update_of_ne hcc]
      exact h.files c' hc'
  | @popTf n s' e entry enters current =>
    have hx : Exit.GoesOn .popTf := Or.inl rfl
    have hparted := h.parted.step (hcareful n rfl) (Or.inl enters)
    have hids := enters.ids h.parted h.ids hx
    have hframed := h.framed.enters enters (h.parted.ready n.cpu) h.ids hx.not_panic
      (h.from entry enters)
    refine ⟨hparted, hids, hframed, fun c hc => ?_⟩
    by_cases hcn : c = n.cpu
    · subst hcn
      simp only [Function.update_self]
      exact (hframed.live hids (hparted.busy _ e current).1).resumed
    · simp only [Function.update_of_ne hcn]
      refine h.files c ?_
      rwa [enters.others h.parted hx hcn] at hc
  | @halt n s' entry enters =>
    have hx : Exit.GoesOn .halt := Or.inr rfl
    refine ⟨h.parted.step (hcareful n rfl) (Or.inr enters), enters.ids h.parted h.ids hx,
      h.framed.enters enters (h.parted.ready n.cpu) h.ids hx.not_panic (h.from entry enters),
      fun c hc => ?_⟩
    by_cases hcn : c = n.cpu
    · subst hcn
      exact absurd (enters.halted h.parted) hc
    · refine h.files c ?_
      rwa [enters.others h.parted hx hcn] at hc

/-! ## Whole runs -/

variable {m : Machine} {s₀ : Kernel} {files : Cpu → RegFile}

/-- Boot fills slots, and nothing else has been there. -/
theorem i386Init_framed (hboot : (i386Init m).run m.powerOn = .ok () s₀) (I : Image) :
    s₀.Framed I := by
  obtain ⟨fl, s, hrun, hs⟩ := kernelInit_spec m
  rw [i386Init, hrun] at hboot
  have hcreate : s.Hands none (m.binaries.forM fun b => envCreate b.1 b.2) :=
    forM_hands _ (fun b t => envCreate_hands t b.1 b.2) s
  refine (hcreate.ret () s₀ hboot).framed (fun e he => absurd (hs.envs e).2 he) ?_
  simp

theorem i386Init_safe (hboot : (i386Init m).run m.powerOn = .ok () s₀) (I : Image)
    (files : Cpu → RegFile) : System.Safe ⟨s₀, files⟩ I := by
  obtain ⟨res, fl, hb⟩ := i386Init_booted hboot
  exact ⟨hb.parted, (i386Init_turning hboot).ids, i386Init_framed hboot I,
    fun c hc => absurd (hb.cpus c) hc⟩

theorem reaches_safe (hboot : (i386Init m).run m.powerOn = .ok () s₀)
    (hr : Reach (System.Step I) (fun S a => a.Careful S) ⟨s₀, files⟩ S) : S.Safe I :=
  hr.inv (I := fun S => S.Safe I) (i386Init_safe hboot I files) fun _ _ _ h hc hstep =>
    h.step hc hstep

/-- The first environment is run, and executes an instruction of two bytes. -/
theorem boot_program : ∃ s₀ S, (i386Init (busyMachine 1)).run (busyMachine 1).powerOn = .ok () s₀ ∧
    Reach (System.Step smallImage) (fun S a => a.Careful S) ⟨s₀, fun _ => initialTf.file⟩ S ∧
    (S.kernel.cpus 0).cpuEnv = some 0 ∧ (S.kernel.envs 0).envStatus ≠ .free := by
  obtain ⟨s₀, n, s, hboot, hstep, hcareful, hs⟩ := boot_single
  obtain ⟨res, fl, hb⟩ := i386Init_booted hboot
  have hcur : (s.cpus 0).cpuEnv = some 0 := by rw [hs.cpu]
  have hfrom : System.From ⟨s₀, fun _ => initialTf.file⟩ smallImage n := by
    intro tf hcause
    obtain ⟨x, -, hen⟩ := hstep.goesOn
    have hen' := hen.enabled
    rw [Entry.Enabled, hcause] at hen'
    exact absurd (hb.cpus n.cpu) hen'.1
  have hfirst : ∃ files a, System.Step smallImage ⟨s₀, fun _ => initialTf.file⟩ a ⟨s, files⟩ ∧
      a.Careful ⟨s₀, fun _ => initialTf.file⟩ := by
    have hc : (Happening.entry n).Careful ⟨s₀, fun _ => initialTf.file⟩ := by
      rintro n' hn
      cases hn
      exact hcareful
    rcases hstep with hen | hen
    · obtain ⟨e, he⟩ := hen.resumes hb.parted
      exact ⟨_, _, .popTf hfrom hen he, hc⟩
    · exact ⟨_, _, .halt hfrom hen, hc⟩
  obtain ⟨files, a, hfirst, hc⟩ := hfirst
  have hsame : ∀ (cpl : BitVec 2) (flags : Word), flags = loadFlags cpl flags flags := by
    intro cpl flags
    rw [loadFlags, ← BitVec.and_or_distrib_left, BitVec.not_or_self, BitVec.and_allOnes]
  have hmoves : smallImage.processor.Moves (files 0)
      ⟨{ (files 0).regs with eip := (files 0).regs.eip + 2#32 }, (files 0).segs⟩ :=
    .plain (files 0).regs.eflags (hsame _ _)
  have hruns : (s.cpus 0).cpuEnv ≠ none := by
    rw [hcur]
    simp
  have hsecond := System.Step.program (S := ⟨s, files⟩) hruns hmoves
  have hc' : (Happening.program 0).Careful ⟨s, files⟩ := by
    intro n hn
    cases hn
  have hlive : (s.envs 0).envStatus ≠ .free := by
    rw [hs.parent]
    simp
  have hrun : Reach (System.Step smallImage) (fun S a => a.Careful S) ⟨s₀, fun _ => initialTf.file⟩
      ⟨s, files⟩ := .tail .refl hc hfirst
  exact ⟨s₀, _, hboot, hrun.tail hc' hsecond, hcur, hlive⟩

/-- **Programs are confined.**  Whatever the programs and the kernel do, on any CPUs in any order, a
program runs at level 3 and with interrupts enabled, and what the kernel has saved of a live
environment is such. -/
theorem reaches_confined (hboot : (i386Init m).run m.powerOn = .ok () s₀)
    (hr : Reach (System.Step I) (fun S a => a.Careful S) ⟨s₀, files⟩ S) :
    (∀ c, (S.kernel.cpus c).cpuEnv ≠ none → I.Confined (S.files c)) ∧
      ∀ e, (S.kernel.envs e).envStatus ≠ .free → I.Confined (S.kernel.envs e).envTf.file := by
  have h := reaches_safe hboot hr
  exact ⟨h.files, fun e he => h.framed.live h.ids he⟩

theorem reaches_confined_program : ∃ s₀ S,
    Reach (System.Step smallImage) (fun S a => a.Careful S) ⟨s₀, fun _ => initialTf.file⟩ S ∧
    smallImage.Confined (S.files 0) ∧ smallImage.Confined (S.kernel.envs 0).envTf.file := by
  obtain ⟨s₀, S, hboot, hr, hcur, hlive⟩ := boot_program
  obtain ⟨hfiles, hlives⟩ := reaches_confined hboot hr
  exact ⟨s₀, S, hr, hfiles 0 (by rw [hcur]; simp), hlives 0 hlive⟩

/-- **The kernel and the programs meet.**  Whatever makes the processor leave the program on CPU
`k`, `trap` is called, with a frame that stands for the registers that the program is left with; and
the frame of any live environment, wherever it is kept, is one that `env_pop_tf` loads. -/
theorem reaches_crosses (hboot : (i386Init m).run m.powerOn = .ok () s₀)
    (hr : Reach (System.Step I) (fun S a => a.Careful S) ⟨s₀, files⟩ S) {r : Rights} :
    (∀ (k : Cpu) (mem : ByteMem) (ev : Event), (S.kernel.cpus k).cpuEnv ≠ none →
      kernelTs.At mem I.ts → Remapped ev → r.Stack kstacktop 19 →
        ∃ c, I.enter r ⟨S.files k, mem⟩ ev = some c ∧
          I.Called ⟨S.files k, mem⟩ c (I.frame (S.files k) ev) ∧
          (I.frame (S.files k) ev).file = ev.saved I.processor (S.files k)) ∧
    ∀ (e : EnvIndex) (c : Core) (a : Word), (S.kernel.envs e).envStatus ≠ .free →
      c.file.cpl = 0#2 → FlagsOk c.regs.eflags → c.regs.eflags &&& flagNT = 0#32 →
      (S.kernel.envs e).envTf.At c.mem a → (∀ k < 17, r.Word (a + BitVec.ofNat 32 (4 * k))) →
        sysRun I.processor r (envPopTfCode a) c =
          some ⟨resumed (S.kernel.envs e).envTf.file, c.mem⟩ := by
  have h := reaches_safe hboot hr
  refine ⟨fun k mem ev hrun hts hev hstack => ?_, fun e c a hlive hcpl hflags hnt htf ha => ?_⟩
  · have hf := h.files k hrun
    obtain ⟨c, hc, hcalled⟩ := enter_called (c := ⟨S.files k, mem⟩) hf.level hts hev hstack
    exact ⟨c, hc, hcalled, frame_file hf.fits ev⟩
  · have hf := h.framed.live h.ids hlive
    exact envPopTf_run hcpl hflags hnt htf ha hf.fits hf.level

theorem reaches_crosses_program : ∃ s₀ S,
    Reach (System.Step smallImage) (fun S a => a.Careful S) ⟨s₀, fun _ => initialTf.file⟩ S ∧
    ∃ c, smallImage.enter kernelRights ⟨S.files 0, smallMem⟩ (.interrupt 32#8 false) = some c ∧
      smallImage.Called ⟨S.files 0, smallMem⟩ c
        (smallImage.frame (S.files 0) (.interrupt 32#8 false)) ∧
      (smallImage.frame (S.files 0) (.interrupt 32#8 false)).file =
        (Event.interrupt 32#8 false).saved smallImage.processor (S.files 0) := by
  obtain ⟨s₀, S, hboot, hr, hcur, -⟩ := boot_program
  exact ⟨s₀, S, hr, (reaches_crosses hboot hr).1 0 smallMem (.interrupt 32#8 false)
    (by rw [hcur]; simp) smallMem_ts (BitVec.le_refl 32#8) fun _ _ => kernelRights_word _⟩

end Jos
