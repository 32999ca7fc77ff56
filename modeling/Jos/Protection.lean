import Jos.Exclusive
import Jos.Fault
import Jos.Isolation
import Jos.Alloc.Run

/-!
# Protection

Whatever programs do, and on however many CPUs, the pages that boot has set aside for the kernel are
never written to by a program, and never by the kernel on a program's behalf.  The argument has two
halves.  An entry into the kernel keeps the allocator invariant and the reserved pages: `Upheld`
says so of two states, and `Kernel.Guards` of a command.  Between the entries programs store where
the page tables let them, and a page that a program may write to is one that is mapped for it, and
that is never a page directory, a page table or a page of the kernel.

As for the allocator, it takes sound system calls: none that maps from, or unmaps, where nothing is
mapped, and none that overflows a count.
-/

set_option autoImplicit false

namespace Jos

open Kernel Command

variable {res : Nat → Prop} {fl : List Nat} {s s' t u s₀ : Kernel} {e cur : EnvIndex} {d : Nat}

/-! ## What an entry keeps -/

/-- The accounts are in order, and the reserved pages are as they were. -/
structure Upheld (res : Nat → Prop) (s₀ s : Kernel) : Prop where
  inv : ∃ fl, Inv res fl s
  frame : Frame res (fun _ => True) s₀ s

theorem Upheld.refl (h : Inv res fl s) : Upheld res s s := ⟨⟨fl, h⟩, .refl _ _ _⟩

theorem Upheld.trans (h : Upheld res s t) (h' : Upheld res t u) : Upheld res s u :=
  ⟨h'.inv, h.frame.trans h'.frame⟩

/-- Going on with what neither memory nor the accounts can tell from before. -/
theorem Upheld.handover (h : Upheld res s₀ s) (ho : Handover s s') : Upheld res s₀ s' := by
  obtain ⟨fl, hinv⟩ := h.inv
  refine ⟨⟨fl, hinv.handover ho⟩, h.frame.trans ⟨fun _ he => absurd trivial he, fun p _ => ?_,
    ho.kernPgdir, ho.npages⟩⟩
  rw [ho.mem]

theorem Confined.guarded {E : EnvIndex → Prop} (h : Confined res E s s')
    (hinv : ∃ fl, Inv res fl s') :
    Upheld res s s' := by
  obtain ⟨t, hf, ho, -⟩ := h
  refine ⟨hinv, (hf.mono fun _ _ => trivial).trans ⟨fun _ he => absurd trivial he, fun p _ => ?_,
    ho.kernPgdir, ho.npages⟩⟩
  rw [ho.mem]

variable {α β : Type} {m : KernelM α}

/-- The command keeps them, unless it panics. -/
def Kernel.Guards (res : Nat → Prop) (s : Kernel) (m : KernelM α) : Prop :=
  LeadsTo (Upheld res) Exit.IsPanic s m

namespace Kernel.Guards

theorem panic (msg : String) : s.Guards res (throw (.panic msg) : KernelM α) :=
  LeadsTo.throw trivial

theorem bind {f : α → KernelM β} (h : s.Guards res m)
    (hf : ∀ a t, m.run s = .ok a t → Upheld res s t → t.Guards res (f a)) :
    s.Guards res (m >>= f) := LeadsTo.bind (R := Upheld res) (fun _ _ _ h h' => h.trans h') h hf

theorem get_bind {f : Kernel → KernelM β} (h : s.Guards res (f s)) : s.Guards res (get >>= f) :=
  LeadsTo.get_bind h

theorem pure_bind {a : α} {f : α → KernelM β} (h : s.Guards res (f a)) :
    s.Guards res (Pure.pure a >>= f) := LeadsTo.pure_bind h

theorem ite {c : Prop} [Decidable c] {m₁ m₂ : KernelM α} (h₁ : c → s.Guards res m₁)
    (h₂ : ¬ c → s.Guards res m₂) : s.Guards res (if c then m₁ else m₂) := LeadsTo.ite h₁ h₂

/-- Running it in an equal way, from a state that keeps them. -/
theorem congr {m' : KernelM α} (h : t.Guards res m') (ht : Upheld res s t)
    (hr : m.run s = m'.run t) : s.Guards res m :=
  LeadsTo.congr (R := Upheld res) (fun _ _ _ h h' => h.trans h') h ht hr

end Kernel.Guards

/-! ## The scheduler and `env_destroy` -/

section

variable (h : Inv res fl s)
include h

theorem Inv.of_peek_guarded (hp : Peek s t) : Upheld res s t := ⟨⟨fl, hp.inv h⟩, hp.frame⟩

theorem Inv.setCpus_guarded (cpus : Cpu → CpuInfo) (cr3 : Cpu → Nat) (tlb : Cpu → Nat → List Word) :
    Upheld res s { s with cpus := cpus, cr3 := cr3, tlb := tlb } :=
  ⟨⟨fl, h.of_cpus cpus cr3 tlb⟩, .of_eq rfl rfl rfl rfl⟩

theorem Inv.schedYield_guards : s.Guards res schedYield := by
  obtain ⟨x, s', hrun, hl⟩ := schedYield_leaves h.live_dir
  exact .of_error hrun ((Upheld.refl h).handover hl.handover)

/-- The environment that is current goes on, or one that is runnable is run. -/
theorem Inv.envRun_guards (hst : (s.envs e).envStatus = .runnable ∨
    s.curenv = some e ∧ (s.envs e).envStatus = .running) : s.Guards res (envRun e) := by
  have hlive : (s.envs e).envStatus ≠ .free := by
    rcases hst with hst | ⟨-, hst⟩
    · rw [hst]
      simp
    · rw [hst]
      simp
  obtain ⟨d, hd⟩ := h.live_dir e hlive
  exact .of_error (envRun_run hd)
    ((Upheld.refl h).handover (Leaves.run (s := s) e d hst hd).handover)

/-- The current environment ends. -/
theorem Inv.envDestroy_guards (hc : s.curenv = some e) (hlive : (s.envs e).envStatus ≠ .free) :
    s.Guards res (envDestroy e) := by
  refine .of_final (Confined.guarded (E := fun _ => True) ?_ ?_)
  · exact Inv.envDestroy_confined hc trivial h hlive trivial
  · exact (envDestroy_triple e).final ⟨fl, h, hlive⟩

theorem Inv.userMemAssert_guards (hc : s.curenv = some e) (hlive : (s.envs e).envStatus ≠ .free)
    (va len perm : Word) : s.Guards res (userMemAssert e va len perm) := by
  refine .of_final ?_
  rcases Inv.userMemAssert_confined (E := fun _ => True) hc trivial h hlive trivial va len perm with
    ⟨t, hrun, hp⟩ | hconf
  · rw [final_of_ok hrun]
    exact h.of_peek_guarded hp
  · exact hconf.guarded (h.userMemAssert_inv hlive va len perm)

/-- **A sound system call.** -/
theorem Inv.handle_guards (hc : s.curenv = some cur) (hlive : (s.envs cur).envStatus ≠ .free)
    {c : Syscall} (hsound : c.Sound s cur) : s.Guards res c.handle :=
  .of_final ((h.handle_confined hc hlive c).guarded (h.handle_inv hc hlive hsound))

end

/-! ## Traps -/

-- so that nothing is tempted to run its loop
attribute [local irreducible] userMemCheck cprintS

section

variable (h : Inv res fl s)
include h

/-- The current environment goes on, whatever its status. -/
theorem Inv.resume_guards (hc : s.curenv = some e) (hlive : (s.envs e).envStatus ≠ .free) :
    s.Guards res (envRun e) := by
  obtain ⟨d, hd⟩ := h.live_dir e hlive
  refine .of_error (envRun_run hd) ?_
  have henvs : (s.dispatch e d).envs = (s.setEnv e (s.dispatchedEnv e)).envs := by
    funext e'
    by_cases hee : e' = e
    · subst hee
      rw [dispatch_self]
      simp
    · have hcur : ¬ (s.curenv = some e' ∧ (s.envs e').envStatus = .running) := fun hh =>
        hee (Option.some_inj.1 (hh.1.symm.trans hc))
      rw [dispatch_other s hee, descheduled, if_neg hcur, setEnv_envs, Function.update_of_ne hee]
  have hset : Inv res fl (s.setEnv e (s.dispatchedEnv e)) :=
    h.of_setEnv rfl rfl (iff_of_false (by simp [dispatchedEnv]) hlive)
  have heq : s.dispatch e d = { s.setEnv e (s.dispatchedEnv e) with
      cpus := (s.dispatch e d).cpus, cr3 := (s.dispatch e d).cr3,
      tlb := (s.dispatch e d).tlb } := by
    show ({ s.dispatch e d with envs := (s.dispatch e d).envs } : Kernel) = _
    rw [henvs]
    rfl
  rw [heq]
  exact Upheld.trans ⟨⟨fl, hset⟩, Frame.setEnv trivial _⟩ (hset.setCpus_guarded _ _ _)

theorem Inv.trapReturn_guards : s.Guards res trapReturn := by
  refine .get_bind ?_
  split
  · next cur hc =>
    refine .get_bind (.ite (fun hst => ?_) fun _ => h.schedYield_guards)
    exact h.envRun_guards (Or.inr ⟨hc, hst⟩)
  · exact h.schedYield_guards

omit h in
/-- Writing the registers of an environment. -/
theorem Upheld.setEnv (h : Inv res fl s) {env : Env} (hpg : env.envPgdir = (s.envs e).envPgdir)
    (hlink : env.envLink = (s.envs e).envLink) (hst : env.envStatus = (s.envs e).envStatus) :
    Upheld res s (s.setEnv e env) :=
  ⟨⟨fl, h.of_setEnv hpg hlink (by rw [hst])⟩, Frame.setEnv trivial _⟩

/-- Stores to user memory. -/
theorem Inv.storeBytes_guards (hd : s.dir e = some d) (hcr3 : s.cr3 s.cpunum = d)
    {l : List (Word × Byte)} (hl : ∀ x ∈ l, x.1 < utop) : s.Guards res (storeBytes l) ∧
      ∀ a t, (storeBytes l).run s = .ok a t → MemOnly s t := by
  rcases storeBytes_run hd hl h hcr3 with ⟨-, s', hfault⟩ | ⟨-, s', hok, hst, hbytes⟩
  · refine ⟨⟨fun a t hr => ?_, fun x t hr => Or.inl ?_⟩, fun a t hr => ?_⟩
    · rw [hfault] at hr
      cases hr
    · rw [hfault] at hr
      cases hr
      trivial
    · rw [hfault] at hr
      cases hr
  · refine ⟨.of_final ?_, fun a t hr => ?_⟩
    · rw [final_of_ok hok]
      refine ⟨⟨fl, hst.inv⟩, fun _ he => absurd trivial he, fun p hp => ?_, hst.only.kernPgdir,
        hst.only.npages⟩
      -- no address leads to a reserved page
      have hres : res p := not_not.1 fun hno => hp ⟨hno, fun _ _ => trivial⟩
      refine page_ext fun o ho => hbytes p o ho fun x hx htr => ?_
      exact h.target_res (k := .page e _ _) (leaf_of_translate hd (hl x hx) htr) hres
    · rw [hok] at hr
      cases hr
      exact hst.only

/-- **`page_fault_handler`** stores only on the user's exception stack. -/
theorem Inv.pageFaultHandler_guards {tf : Trapframe} (hcs : tf.tfCs &&& 3#32 = 3#32)
    (hc : s.curenv = some e) (hd : s.dir e = some d) (hcr3 : s.cr3 s.cpunum = d) :
    s.Guards res (pageFaultHandler tf) := by
  have hlive := live_of_dir hd
  by_cases hup : (s.envs e).envPgfaultUpcall = 0#32
  · refine (h.envDestroy_guards hc hlive).congr (Upheld.refl h) ?_
    have hkt : tf.tfCs ≠ gdKt := by
      intro hkt
      rw [hkt] at hcs
      exact absurd hcs (by decide)
    simp only [pageFaultHandler, run_bind_ok (EStateM.run_get s), if_neg hkt, hc, derefEnv,
      run_bind_ok (EStateM.run_pure _ _), if_pos hup]
  refine Kernel.Guards.congr ?_ (Upheld.refl h) (pageFaultHandler_run hcs hc hup)
  refine .bind (h.userMemAssert_guards hc hlive _ _ _) fun _ t hr ht => ?_
  have hp : Peek s t := by
    rcases topCheck_run h hd with ⟨-, t', hp, hrun⟩ | ⟨-, t', hp, hrun⟩
    · rw [hrun] at hr
      cases hr
      exact hp
    · obtain ⟨a, o, rfl⟩ := hp.exists_eq
      obtain ⟨x, s', hdes, -⟩ := (hp.inv h).envDestroy_leaves hc hlive
      rw [hrun, hdes] at hr
      cases hr
  have hinv := hp.inv h
  obtain ⟨a, o, rfl⟩ := hp.exists_eq
  -- the frame, and then the second check
  have hlt : ∀ x ∈ frameBytes (exstack tf.tfEsp) (.ofTrapframe tf s.cr2), x.1 < utop := by
    intro x hx
    obtain ⟨n, hn, hx⟩ := mem_frameBytes hx
    rw [hx]
    exact frame_lt_utop tf.tfEsp hn
  obtain ⟨hstore, hsame⟩ := hinv.storeBytes_guards (e := e) hd hcr3 hlt
  refine .bind hstore fun _ u hr hu => ?_
  have hmo := hsame _ u hr
  obtain ⟨fl', hinv'⟩ := hu.inv
  have hc' : u.curenv = some e := by
    rw [hmo.curenv]
    exact hc
  have hlive' : (u.envs e).envStatus ≠ .free := by
    rw [hmo.envs]
    exact hlive
  rw [pageFaultTail]
  refine .bind (hinv'.userMemAssert_guards hc' hlive' _ _ _) fun _ v hr hv => ?_
  have hmo' := userMemAssert_current ⟨hinv'.live_dir, fun e' he' => ?_⟩ hc' hr
  · obtain ⟨fl₂, hinv₂⟩ := hv.inv
    have hlive₂ : (v.envs e).envStatus ≠ .free := by
      rw [hmo'.envs]
      exact hlive'
    have hset : Upheld res v (v.setEnv e { v.envs e with
        envTf := { (v.envs e).envTf with
          tfEsp := exstack tf.tfEsp, tfEip := (v.envs e).envPgfaultUpcall } }) :=
      Upheld.setEnv hinv₂ rfl rfl rfl
    obtain ⟨fl₃, hinv₃⟩ := hset.inv
    refine (hinv₃.resume_guards (e := e) ?_ ?_).congr hset rfl
    · rw [setEnv_curenv, hmo'.curenv]
      exact hc'
    · simpa using hlive₂
  · obtain rfl : e = e' := Option.some_inj.1 (hc'.symm.trans he')
    exact hlive'

/-- The current environment does not survive `env_destroy`. -/
theorem Inv.envDestroy_never (hc : s.curenv = some e) (hlive : (s.envs e).envStatus ≠ .free)
    {a : Unit} (hr : (envDestroy e).run s = .ok a t) : False := by
  obtain ⟨x, s', hdes, -⟩ := h.envDestroy_leaves hc hlive
  rw [hdes] at hr
  cases hr

/-- **`trap_dispatch`**, for a trap from user mode. -/
theorem Inv.trapDispatch_guards {tf : Trapframe} (hcs : tf.tfCs &&& 3#32 = 3#32)
    (hc : s.curenv = some cur) (hd : s.dir cur = some d) (hcr3 : s.cr3 s.cpunum = d)
    (hsound : ∀ c, tf.call = some c → c.Sound s cur) : s.Guards res (trapDispatch tf) := by
  have hlive := live_of_dir hd
  refine .ite (fun _ => .of_final (Upheld.refl h)) fun _ => .ite (fun _ => ?_) fun _ =>
    .ite (fun _ => .of_final (Upheld.refl h)) fun _ => .ite (fun hsys => ?_) fun _ =>
      .ite (fun _ => h.schedYield_guards) fun _ => .ite (fun _ => .panic _) fun _ => ?_
  · exact h.pageFaultHandler_guards hcs hc hd hcr3
  · refine .get_bind ?_
    rw [hc]
    refine .pure_bind (.bind ?_ fun r t _ ht => ?_)
    · rw [syscall]
      cases hdec : Syscall.decode tf.tfRegs.regEax tf.tfRegs.regEdx tf.tfRegs.regEcx
        tf.tfRegs.regEbx tf.tfRegs.regEdi tf.tfRegs.regEsi with
      | none => exact .ite (fun _ => .panic _) fun _ => .ite (fun _ => .panic _) fun _ => .panic _
      | some c =>
        refine h.handle_guards hc hlive (hsound c ?_)
        rw [Trapframe.call, if_pos hsys, hdec]
    · obtain ⟨fl', hinv⟩ := ht.inv
      exact .of_final (Upheld.setEnv hinv rfl rfl rfl)
  · refine .get_bind ?_
    rw [hc]
    exact .pure_bind (h.envDestroy_guards hc hlive)

theorem Inv.started_guarded : Upheld res s s.started := h.setCpus_guarded _ _ _

/-- **A trap from user mode.** -/
theorem Inv.trap_user_guards {tf : Trapframe} (hcs : tf.tfCs &&& 3#32 = 3#32)
    (hc : s.curenv = some cur) (hd : s.dir cur = some d) (hcr3 : s.cr3 s.cpunum = d)
    (hsound : (s.envs cur).envStatus ≠ .dying → ∀ c, tf.call = some c →
      c.Sound (s.saved cur tf) cur) :
    s.Guards res (trap tf) := by
  have hlive := live_of_dir hd
  obtain ⟨fl₁, h₁⟩ := h.started_guarded.inv
  have hc₁ : s.started.curenv = some cur := (started_curenv s).trans hc
  refine Kernel.Guards.congr ?_ h.started_guarded (trap_user hcs s)
  by_cases hdying : (s.envs cur).envStatus = .dying
  · -- a zombie is collected
    have hcollect : (trapFromUser tf).run s.started = EStateM.run (do
        envDestroy cur
        updateEnv cur fun env => { env with envTf := tf } : KernelM Unit) s.started := by
      have hdying' : (s.started.envs cur).envStatus = .dying := hdying
      rw [trapFromUser, run_bind_ok (EStateM.run_get _), EStateM.run_bind (envDestroy cur),
        envDestroy_current hc₁]
      simp only [hc₁, EStateM.run_bind, EStateM.run_get, if_pos hdying', EStateM.run_modify]
      cases (envFree cur).run s.started with
      | error x t => rfl
      | ok a t => rfl
    refine .bind (Kernel.Guards.congr (.bind (h₁.envDestroy_guards hc₁ hlive) fun _ t hr _ => ?_)
      (Upheld.refl h₁) hcollect) fun _ t hr _ => ?_
    · exact (h₁.envDestroy_never hc₁ hlive hr).elim
    · rw [hcollect] at hr
      obtain ⟨a, u, hr', -⟩ := ok_of_bind hr
      exact (h₁.envDestroy_never hc₁ hlive hr').elim
  · have hsave : Upheld res s.started (s.saved cur tf) := Upheld.setEnv h₁ rfl rfl rfl
    obtain ⟨fl₂, h₂⟩ := hsave.inv
    have hd₂ : (s.saved cur tf).dir cur = some d := by
      rw [Kernel.dir, Kernel.saved, setEnv_envs, Function.update_self]
      exact hd
    refine Kernel.Guards.congr ?_ hsave (run_bind_ok (trapFromUser_saved hc hdying tf))
    refine .bind (h₂.trapDispatch_guards hcs hc₁ hd₂ hcr3 (hsound hdying)) fun _ t _ ht => ?_
    obtain ⟨fl₃, h₃⟩ := ht.inv
    exact h₃.trapReturn_guards

/-- **A trap taken while the CPU waits.** -/
theorem Inv.trap_wake_guards {tf : Trapframe} (hcs : tf.tfCs = gdKt) (hc : s.curenv = none) :
    s.Guards res (trap tf) := by
  obtain ⟨fl₁, h₁⟩ := h.started_guarded.inv
  have hc₁ : s.started.curenv = none := (started_curenv s).trans hc
  refine Kernel.Guards.congr ?_ h.started_guarded (trap_wake hcs s)
  refine .bind ?_ fun _ t _ ht => ?_
  · refine .ite (fun _ => .of_final (Upheld.refl h₁)) fun _ => .ite (fun _ => ?_) fun _ =>
      .ite (fun _ => .of_final (Upheld.refl h₁)) fun _ => .ite (fun _ => ?_) fun _ =>
        .ite (fun _ => h₁.schedYield_guards) fun _ => .ite (fun _ => .panic _)
          fun hk => absurd hcs hk
    · refine .get_bind (.ite (fun _ => ?_) fun hk => absurd hcs hk)
      exact .bind (.panic _) fun a t h => by cases h
    · refine .get_bind ?_
      rw [hc₁]
      exact .bind (.panic _) fun a t h => by cases h
  · obtain ⟨fl₂, h₂⟩ := ht.inv
    exact h₂.trapReturn_guards

end

/-! ## The loaded directories -/

/-- A CPU that has an environment has its page directory loaded. -/
def Kernel.Loaded (s : Kernel) : Prop :=
  ∀ c e, (s.cpus c).cpuEnv = some e → (s.envs e).envPgdir = some (s.cr3 c)

/-- The other CPUs have. -/
def Kernel.LoadedElsewhere (s : Kernel) : Prop :=
  ∀ c e, c ≠ s.cpunum → (s.cpus c).cpuEnv = some e → (s.envs e).envPgdir = some (s.cr3 c)

/-- No act loads a page directory on another CPU. -/
theorem Kernel.Acts.cr3 {a : Act} (ha : s.Acts a s') {c : Cpu} (hc : c ≠ s.cpunum) :
    s'.cr3 c = s.cr3 c := by
  have hfreed : ∀ e, (s.freed e).cr3 c = s.cr3 c := by
    intro e
    show s.unloaded e c = s.cr3 c
    rw [unloaded]
    split
    · exact Function.update_of_ne hc _ _
    · rfl
  cases ha with
  | mem only => rw [only.cr3]
  | free e live idle other => exact hfreed e
  | exit e current => exact hfreed e
  | unload => exact Function.update_of_ne hc _ _
  | _ => rfl

/-- An environment that is on another CPU keeps its page directory, if it is not freed. -/
theorem Kernel.Exclusive.pgdir (h : s.Exclusive) {a : Act} (ha : s.Acts a s')
    (he : s.Elsewhere s.cpunum e) (hfree : a ≠ .free e) :
    (s'.envs e).envPgdir = (s.envs e).envPgdir := by
  have hset : ∀ (e' : EnvIndex) (env : Env), env.envPgdir = (s.envs e').envPgdir →
      ((s.setEnv e' env).envs e).envPgdir = (s.envs e).envPgdir := by
    intro e' env hpg
    by_cases hee : e = e'
    · subst hee
      simp [hpg]
    · simp [hee]
  cases ha with
  | mem only => rw [only.envs]
  | regs e' tf upcall => exact hset e' _ rfl
  | status e' live settable => exact hset e' _ rfl
  | dying e' running other => exact hset e' _ rfl
  | alloc e' p parentId head =>
    -- a slot on the free list is on no CPU
    have hee : e ≠ e' := by
      rintro rfl
      exact (h.busy e he).1 (h.list.head_free head)
    simp [allocated, hee]
  | free e' live idle other =>
    have hee : e ≠ e' := by
      rintro rfl
      exact hfree rfl
    simp [freed, hee]
  | exit e' current =>
    have hee : e ≠ e' := by
      rintro rfl
      obtain ⟨c, hc, hce⟩ := he
      exact hc (h.alone c s.cpunum e hce current)
    simp [freed, hee]
  | started => rfl
  | unload => rfl

theorem Kernel.LoadedElsewhere.act (h : s.LoadedElsewhere) (hex : s.Exclusive) {a : Act}
    (ha : s.Acts a s') (hfree : ∀ e, s.Elsewhere s.cpunum e → a ≠ .free e) :
    s'.LoadedElsewhere := by
  intro c e hc he
  have hcpus := ha.sameCpus
  rw [hcpus.1] at hc
  rw [hcpus.2.1 c hc] at he
  rw [hex.pgdir ha ⟨c, hc, he⟩ (hfree e ⟨c, hc, he⟩), ha.cr3 hc]
  exact h c e hc he

theorem Kernel.LoadedElsewhere.path {ok : Act → Prop} (h : s.LoadedElsewhere) (hex : s.Exclusive)
    (hp : Path ok s t)
    (hcareful : ∀ e, s.Elsewhere s.cpunum e → ¬ ok (.status e .runnable) ∧ ¬ ok (.free e)) :
    t.LoadedElsewhere := by
  have hinv := hp.inv (I := fun t => t.LoadedElsewhere ∧ t.Exclusive ∧ s.SameCpus t)
    ⟨h, hex, SameCpus.refl s⟩ ?_
  · exact hinv.1
  · rintro t a t' ⟨hl, ht, hcpus⟩ good ha
    have hno : ∀ e, t.Elsewhere t.cpunum e → a ≠ .status e .runnable ∧ a ≠ .free e := by
      intro e he
      rw [hcpus.elsewhere] at he
      refine ⟨?_, ?_⟩
      · rintro rfl
        exact (hcareful e he).1 good
      · rintro rfl
        exact (hcareful e he).2 good
    exact ⟨hl.act ht ha fun e he => (hno e he).2, ht.act ha hno, hcpus.trans ha.sameCpus⟩

/-- **Leaving the kernel.** -/
theorem Kernel.LoadedElsewhere.departs {x : Exit} (h : u.LoadedElsewhere) (hex : u.Exclusive)
    (hd : u.Departs x s') (hx : x.GoesOn) : s'.Loaded := by
  cases hd with
  | run e d who dir =>
    intro c e' he'
    rw [dispatch_cpus] at he'
    by_cases hc : c = u.cpunum
    · subst hc
      rw [Function.update_self] at he'
      obtain rfl : e = e' := Option.some_inj.1 he'
      rw [dispatch_self, show (u.dispatch e d).cr3 u.cpunum = d from dispatch_cr3 u e d]
      exact dir
    · rw [Function.update_of_ne hc] at he'
      rw [(hex.dispatch (d := d) who hc he').2, h c e' hc he']
      exact congrArg some (Function.update_of_ne hc _ _).symm
  | halt none idle =>
    intro c e' he'
    by_cases hc : c = u.cpunum
    · subst hc
      exact absurd ((halt_curenv u).symm.trans he') (by simp)
    · have hsame : u.halt.cpus c = u.cpus c := by
        simp [Kernel.halt, setCpu, setCurenv, lcr3, hc]
      rw [hsame] at he'
      show (u.envs e').envPgdir = some (Function.update u.cr3 u.cpunum u.kernPgdir c)
      rw [h c e' hc he', Function.update_of_ne hc]
  | monitor => exact absurd hx (by simp [Exit.GoesOn])

/-! ## What programs do between the entries -/

/-- A program stores, at an address that the page tables which its CPU has loaded let it write to;
`pg` is what the page holds then. -/
def Kernel.UserStore (s s' : Kernel) : Prop :=
  ∃ c e va p o pg, (s.cpus c).cpuEnv = some e ∧
    s.translate (s.cr3 c) (pteP ||| pteU ||| pteW) va = some (p, o) ∧ s' = s.fill p pg

/-- Programs have left memory as it is at the entry. -/
def Entry.Stored (n : Entry) (s : Kernel) : Prop :=
  ∃ t, Relation.ReflTransGen Kernel.UserStore s t ∧ n.mem = t.mem

/-- If it is a system call, it is a sound one. -/
def Entry.Sound (n : Entry) (s : Kernel) : Prop :=
  ∀ tf cur c, n.cause = .user tf → (s.cpus n.cpu).cpuEnv = some cur → tf.call = some c →
    c.Sound ((n.enter s).saved cur tf) cur

/-- No entry of a page table of the kernel lets a program write. -/
def Kernel.Shut (s : Kernel) : Prop :=
  ∀ i t, KernPde i → framed (s.mem s.kernPgdir i) = some t →
    ∀ j, s.mem t j &&& (pteP ||| pteU ||| pteW) ≠ pteP ||| pteU ||| pteW

/-- The page tables of the kernel stay. -/
theorem Kernel.Shut.frame (h : s.Shut) (hinv : Inv res fl s) (hf : Frame res (fun _ => True) s s') :
    s'.Shut := by
  have hkept : ∀ p, res p → s'.mem p = s.mem p := fun p hp => hf.mem p fun hpriv => hpriv.1 hp
  intro i t hi ht
  rw [hf.kernPgdir, hkept _ hinv.kern_res] at ht
  rw [hkept t (hinv.kern_table i t hi.1 hi.2 ht)]
  exact h i t hi ht

/-- **Where a program can write**: below `UTOP`, to a page that is mapped for it. -/
theorem Inv.writable_leaf (h : Inv res fl s) (hshut : s.Shut) (hd : s.dir e = some d) {va : Word}
    {p o : Nat} (htr : s.translate d (pteP ||| pteU ||| pteW) va = some (p, o)) :
    va < utop ∧ s.leaf e (pdx va) (ptx va) = some p := by
  have hlt : va < utop := by
    rw [lt_utop_iff]
    by_contra hi
    rw [Kernel.translate] at htr
    split at htr
    · cases htr
    · next hpde =>
      obtain ⟨t, ht, htr⟩ := Option.bind_eq_some_iff.1 htr
      split at htr
      · cases htr
      · next hpte =>
        by_cases hu : pdx va = pdx uvpt
        · -- through itself, a directory can be read only
          refine hpde fun hflags => ?_
          have hw : s.mem d (pdx va) &&& pteW = pteW := by
            have hsub : (pteP ||| pteU ||| pteW) &&& pteW = pteW := by decide
            rw [← hsub, ← BitVec.and_assoc, hflags]
          rw [hu, h.dir_self e d hd, entry_and (by decide) (by decide)] at hw
          exact absurd hw (by decide)
        · rw [h.dir_kern e d hd _ hi hu] at ht
          exact hpte (fun hpte => hshut _ t ⟨hi, hu⟩ ht _ hpte)
  exact ⟨hlt, leaf_of_translate hd hlt htr⟩

/-- What one store keeps. -/
theorem Kernel.UserStore.guarded (h : s.UserStore t) (hinv : Inv res fl s) (hshut : s.Shut)
    (hloaded : s.Loaded) (hlive : ∀ c e, (s.cpus c).cpuEnv = some e →
      (s.envs e).envStatus ≠ .free) :
    Upheld res s t := by
  obtain ⟨c, e, va, p, o, pg, hc, htr, rfl⟩ := h
  have hd : s.dir e = some (s.cr3 c) := by
    rw [Kernel.dir, if_neg (hlive c e hc), hloaded c e hc]
  obtain ⟨-, hleaf⟩ := hinv.writable_leaf hshut hd htr
  have hres : ¬ res p := hinv.target_res (k := .page e _ _) hleaf
  exact ⟨⟨fl, hinv.fill_leaf hleaf pg⟩,
    Frame.of_page (f := p) ⟨hres, fun _ _ => trivial⟩ (fun q hq => fill_mem_ne _ _ _ hq)
      rfl rfl rfl⟩

/-! ## Runs -/

/-- Between two entries. -/
structure Protected (res : Nat → Prop) (s₀ s : Kernel) : Prop where
  parted : s.Parted
  loaded : s.Loaded
  shut : s.Shut
  guarded : Upheld res s₀ s

namespace Protected

variable (h : Protected res s₀ s)
include h

theorem live {c : Cpu} (hc : (s.cpus c).cpuEnv = some e) : (s.envs e).envStatus ≠ .free :=
  (h.parted.busy c e hc).1

theorem dir {c : Cpu} (hc : (s.cpus c).cpuEnv = some e) : s.dir e = some (s.cr3 c) := by
  rw [Kernel.dir, if_neg (h.live hc), h.loaded c e hc]

/-- Programs store, one after the other, on any CPUs. -/
theorem stores (hst : Relation.ReflTransGen Kernel.UserStore s t) :
    Upheld res s t ∧ t.Shut ∧ t = { s with mem := t.mem, tlb := t.tlb } := by
  obtain ⟨fl, hinv⟩ := h.guarded.inv
  induction hst with
  | refl => exact ⟨Upheld.refl hinv, h.shut, rfl⟩
  | @tail t u _ hstep ih =>
    obtain ⟨hg, hshut, heq⟩ := ih
    obtain ⟨fl', hinv'⟩ := hg.inv
    have hg' : Upheld res t u := by
      rw [heq] at hstep hinv' hshut ⊢
      exact hstep.guarded hinv' hshut h.loaded fun c e => h.live
    refine ⟨hg.trans hg', hshut.frame hinv' hg'.frame, ?_⟩
    obtain ⟨c, e, va, p, o, pg, -, -, rfl⟩ := hstep
    rw [heq]
    rfl

/-- The state in which the kernel starts to run. -/
theorem enter {n : Entry} (hst : n.Stored s) : Upheld res s (n.enter s) := by
  obtain ⟨t, hreach, hmem⟩ := hst
  obtain ⟨hg, -, heq⟩ := h.stores hreach
  obtain ⟨fl, hinv⟩ := hg.inv
  have henter : n.enter s = { t with
      cpunum := n.cpu, cr2 := n.cr2, consIn := n.consIn, tlb := s.tlb } := by
    rw [heq, Entry.enter, hmem]
  rw [henter]
  exact hg.trans ⟨⟨fl, hinv.of_mem rfl rfl rfl rfl rfl hinv.chain hinv.ok⟩, .of_eq rfl rfl rfl rfl⟩

/-- The kernel's code. -/
theorem code {n : Entry} (hen : n.Enabled s) (hst : n.Stored s) (hsound : n.Sound s) :
    (n.enter s).Guards res n.code := by
  obtain ⟨fl, hinv⟩ := (h.enter hst).inv
  rw [Entry.Enabled] at hen
  rw [Entry.code]
  cases hcause : n.cause with
  | boot => exact hinv.schedYield_guards
  | mpMain =>
    have hup : Upheld res (n.enter s) ((n.enter s).lcr3 (n.enter s).kernPgdir).started :=
      hinv.setCpus_guarded _ _ _
    obtain ⟨fl', hinv'⟩ := hup.inv
    exact hinv'.schedYield_guards.congr hup rfl
  | user tf =>
    rw [hcause] at hen
    obtain ⟨cur, hcur⟩ := Option.ne_none_iff_exists'.1 hen.1
    exact hinv.trap_user_guards hen.2 hcur (h.dir hcur) rfl fun _ c hc =>
      hsound tf cur c hcause hcur hc
  | wake tf =>
    rw [hcause] at hen
    exact hinv.trap_wake_guards hen.2 (h.parted.halted n.cpu hen.1)

/-- **An entry keeps the kernel protected.** -/
theorem step {n : Entry} (hcareful : n.Careful s) (hst : n.Stored s) (hsound : n.Sound s)
    (hstep : s.Step n s') : Protected res s₀ s' := by
  obtain ⟨x, hx, hen⟩ : ∃ x : Exit, x.GoesOn ∧ s.Enters n x s' := by
    rcases hstep with hen | hen
    · exact ⟨_, Or.inl rfl, hen⟩
    · exact ⟨_, Or.inr rfl, hen⟩
  have hpanic : ¬ x.IsPanic := by
    rcases hx with rfl | rfl
    · exact id
    · exact id
  obtain ⟨fl, hinv⟩ := h.guarded.inv
  have hg : Upheld res s s' := (h.enter hst).trans
    (((h.code hen.enabled hst hsound).exit x s' hen.run).resolve_left hpanic)
  obtain ⟨u, hp, hd, -, -⟩ := hen.departs (h.parted.ready n.cpu) hpanic
  have hex := h.parted.enter n
  have helse : (n.enter s).LoadedElsewhere := fun c e _ hc => h.loaded c e hc
  exact ⟨h.parted.step hcareful hstep, (helse.path hex hp hcareful).departs
    (hex.path hp hcareful) hd hx, h.shut.frame hinv hg.frame, h.guarded.trans hg⟩

end Protected

end Jos
