import Jos.Solo
import Jos.Env.Id

/-!
# Stale ids

An id outlives its environment: whoever holds it may still use it.  `envid2env` turns it away, as
long as the slot is free or carries another id, and `env_alloc` gives a slot the same id again only
after `2 ^ 19 - 1` allocations.

A run is watched by a counter for each slot, which goes up when the slot is filled.  In every entry
a slot keeps its id, or it was free and has been filled and has the next id.
-/

set_option autoImplicit false

namespace Jos

open Kernel Command

variable {s s' t u : Kernel} {e : EnvIndex} {ok : Act → Prop}

/-! ## Slots -/

/-- The slot keeps its id, and is not filled. -/
def Kernel.Keeps (s : Kernel) (e : EnvIndex) (s' : Kernel) : Prop :=
  (s'.envs e).envId = (s.envs e).envId ∧
    ((s.envs e).envStatus = .free → (s'.envs e).envStatus = .free)

/-- The slot is filled. -/
def Kernel.Fills (s : Kernel) (e : EnvIndex) (s' : Kernel) : Prop :=
  (s.envs e).envStatus = .free ∧ (s'.envs e).envStatus ≠ .free ∧
    (s'.envs e).envId = nextEnvId (s.envs e).envId e

theorem Kernel.Keeps.trans (h : s.Keeps e t) (h' : t.Keeps e u) : s.Keeps e u :=
  ⟨h'.1.trans h.1, fun hf => h'.2 (h.2 hf)⟩

/-- **What an act does to a slot**: the slot is freed only by the two acts that free, and filled
only by the one that allocates. -/
theorem Kernel.Acts.slot {a : Act} (ha : s.Acts a s') (hl : s.EnvList) (e : EnvIndex) :
    (s.Keeps e s' ∧ ((s.envs e).envStatus ≠ .free → (s'.envs e).envStatus = .free →
      a = .free e ∨ a = .exit e)) ∨ (a = .alloc e ∧ s.Fills e s') := by
  have hset : ∀ (e' : EnvIndex) (env : Env), env.envId = (s.envs e').envId →
      (env.envStatus = .free ↔ (s.envs e').envStatus = .free) →
      s.Keeps e (s.setEnv e' env) ∧ ((s.envs e).envStatus ≠ .free →
        ((s.setEnv e' env).envs e).envStatus = .free → a = .free e ∨ a = .exit e) := by
    intro e' env hid hst
    by_cases hee : e = e'
    · subst hee
      simp [Keeps, hid, hst]
      tauto
    · simp [Keeps, hee]
      tauto
  cases ha with
  | mem only =>
    refine Or.inl ⟨?_, fun h h' => ?_⟩
    · simp [Keeps, only.envs]
    · rw [only.envs] at h'
      exact absurd h' h
  | regs e' tf upcall =>
    refine Or.inl (hset e' _ ?_ ?_)
    · rfl
    · rfl
  | status e' live settable =>
    refine Or.inl (hset e' _ ?_ (iff_of_false ?_ live))
    · rfl
    · rcases settable with rfl | rfl
      · simp
      · simp
  | dying e' running other =>
    refine Or.inl (hset e' _ ?_ (iff_of_false ?_ ?_))
    · rfl
    · simp
    · simp [running]
  | alloc e' p parentId head =>
    by_cases hee : e = e'
    · subst hee
      refine Or.inr ⟨rfl, hl.head_free head, ?_, ?_⟩
      · simp [allocated, allocatedEnv]
      · simp [allocated, allocatedEnv]
    · refine Or.inl ⟨?_, fun h h' => ?_⟩
      · simp [Keeps, allocated, hee]
      · simp only [allocated, Function.update_of_ne hee] at h'
        exact absurd h' h
  | free e' live idle other =>
    by_cases hee : e = e'
    · subst hee
      exact Or.inl ⟨by simp [Keeps, freed, freedEnv], fun _ _ => Or.inl rfl⟩
    · refine Or.inl ⟨?_, fun h h' => ?_⟩
      · simp [Keeps, freed, hee]
      · simp only [freed, Function.update_of_ne hee] at h'
        exact absurd h' h
  | exit e' current =>
    by_cases hee : e = e'
    · subst hee
      exact Or.inl ⟨by simp [Keeps, freed, freedEnv], fun _ _ => Or.inr rfl⟩
    · refine Or.inl ⟨?_, fun h h' => ?_⟩
      · simp [Keeps, freed, hee]
      · simp only [setCurenv_envs, freed, Function.update_of_ne hee] at h'
        exact absurd h' h
  | started => exact Or.inl ⟨⟨rfl, id⟩, fun h h' => absurd h' h⟩
  | unload => exact Or.inl ⟨⟨rfl, id⟩, fun h h' => absurd h' h⟩

/-- A sequence of acts in which nothing is allocated, or nothing is freed: a slot is filled once at
most. -/
theorem Kernel.Path.slot (hp : Path ok s t) (hs : s.Sane) (hl : s.EnvList)
    (hno : (∀ e, ¬ ok (.alloc e)) ∨ ∀ e, ¬ ok (.free e) ∧ ¬ ok (.exit e)) (e : EnvIndex) :
    s.Keeps e t ∨ s.Fills e t := by
  have hlist : ∀ {t a t'}, (t : Kernel).Sane ∧ t.EnvList → t.Acts a t' → t'.Sane ∧ t'.EnvList :=
    fun h ha => ⟨h.1.act ha, h.2.act h.1 ha⟩
  rcases hno with hno | hno
  · have hinv := hp.inv (I := fun t => (t.Sane ∧ t.EnvList) ∧ s.Keeps e t) ⟨⟨hs, hl⟩, rfl, id⟩
      fun t a t' h good ha => by
        obtain ⟨ht, h⟩ := h
        refine ⟨hlist ht ha, ?_⟩
        rcases ha.slot ht.2 e with ⟨hk, -⟩ | ⟨rfl, -⟩
        · exact h.trans hk
        · exact absurd good (hno e)
    exact Or.inl hinv.2
  · -- a slot that is live stays live
    have hinv := hp.inv (I := fun t => (t.Sane ∧ t.EnvList) ∧
      ((s.Keeps e t ∧ ((t.envs e).envStatus = .free → (s.envs e).envStatus = .free)) ∨ s.Fills e t))
      ⟨⟨hs, hl⟩, Or.inl ⟨⟨rfl, id⟩, id⟩⟩ fun t a t' h good ha => by
        obtain ⟨ht, h⟩ := h
        refine ⟨hlist ht ha, ?_⟩
        rcases ha.slot ht.2 e with ⟨hk, hf⟩ | ⟨-, hf⟩
        · have hstays : (t'.envs e).envStatus = .free → (t.envs e).envStatus = .free := by
            intro hfree
            by_contra hlive
            rcases hf hlive hfree with rfl | rfl
            · exact (hno e).1 good
            · exact (hno e).2 good
          rcases h with ⟨h, hback⟩ | h
          · exact Or.inl ⟨h.trans hk, fun hfree => hback (hstays hfree)⟩
          · exact Or.inr ⟨h.1, fun hfree => h.2.1 (hstays hfree), hk.1.trans h.2.2⟩
        · rcases h with ⟨h, hback⟩ | h
          · refine Or.inr ⟨hback hf.1, hf.2.1, ?_⟩
            rw [hf.2.2, h.1]
          · exact absurd hf.1 h.2.1
    exact hinv.2.imp_left And.left

/-! ## Entries -/

/-- No entry both allocates and frees. -/
theorem Entry.causes_one (n : Entry) (s : Kernel) :
    (∀ e, ¬ n.Causes s (.alloc e)) ∨ ∀ e, ¬ n.Causes s (.free e) ∧ ¬ n.Causes s (.exit e) := by
  simp only [Entry.Causes]
  cases n.cause with
  | user tf =>
    by_cases hfork : (∃ cur, (n.enter s).curenv = some cur ∧
        ((n.enter s).envs cur).envStatus ≠ .dying) ∧ tf.call = some .exofork
    · obtain ⟨⟨cur, hcur, hdying⟩, hcall⟩ := hfork
      refine Or.inr fun e => ⟨?_, ?_⟩
      · rintro (h | ⟨cur', c, -, -, hc, h⟩)
        · exact h
        · rw [hcall] at hc
          cases hc
          simp [Syscall.Causes, Syscall.Dooms] at h
      · rintro ⟨hc, hd | hd⟩
        · cases hcur.symm.trans hc
          exact hdying hd
        · exact hd hcall
    · refine Or.inl fun e => ?_
      rintro (h | ⟨cur, c, hcur, hd, hc, rfl⟩)
      · exact h
      · exact hfork ⟨⟨cur, hcur, hd⟩, hc⟩
  | boot => exact Or.inl fun e => id
  | mpMain => exact Or.inl fun e => id
  | wake tf => exact Or.inl fun e => id

/-- **An entry on the only CPU** leaves a slot its id, or fills it once. -/
theorem Kernel.SoloOn.slot {n : Entry} (h : s.SoloOn n.cpu) (hstep : s.Step n s') (e : EnvIndex) :
    s.Keeps e s' ∨ s.Fills e s' := by
  obtain ⟨x, hen, hx⟩ : ∃ x, s.Enters n x s' ∧ ¬ x.IsPanic := by
    rcases hstep with hen | hen
    · exact ⟨_, hen, id⟩
    · exact ⟨_, hen, id⟩
  obtain ⟨u, hp, hd, -⟩ := hen.departs h.ready hx
  obtain ⟨hid, -, -, hst⟩ := hd.env (hp.sane h.enter.sane) e
  rcases hp.slot h.enter.sane h.enter.list (n.causes_one s) e with hk | hf
  · exact Or.inl ⟨hid.trans hk.1, fun hfree => hst.2 (hk.2 hfree)⟩
  · exact Or.inr ⟨hf.1, mt hst.1 hf.2.1, hid.trans hf.2.2⟩

/-! ## Whole runs -/

/-- A machine, and how often each slot has been allocated. -/
structure Watched where
  kernel : Kernel
  allocs : EnvIndex → Nat

/-- One step: a slot that was free and is not any more has been allocated. -/
structure Watched.Step (w : Watched) (n : Entry) (w' : Watched) : Prop where
  move : w.kernel.Step n w'.kernel
  count : ∀ e, w'.allocs e = w.allocs e +
    if (w.kernel.envs e).envStatus = .free ∧ (w'.kernel.envs e).envStatus ≠ .free then 1 else 0

/-- The end of boot, which has allocated the live environments. -/
def Watched.boot (s : Kernel) : Watched :=
  ⟨s, fun e => if (s.envs e).envStatus = .free then 0 else 1⟩

/-- The ids are the ones the counters say, and a live environment has been allocated. -/
structure Watched.Ok (w : Watched) (c : Cpu) : Prop where
  solo : w.kernel.SoloOn c
  id : ∀ e, (w.kernel.envs e).envId = envIdAfter e (w.allocs e)
  live : ∀ e, (w.kernel.envs e).envStatus ≠ .free → 0 < w.allocs e

variable {w w' : Watched} {c : Cpu}

theorem Watched.boot_ok {m : Machine} {s : Kernel} (h : (i386Init m).run m.powerOn = .ok () s)
    (c : Cpu) : (Watched.boot s).Ok c := by
  have hcreate : ∀ res fl (t : Kernel) e p fl' (t' : Kernel), Booted m res fl t →
      (∀ e, (t.envs e).envId = envIdAfter e ((Watched.boot t).allocs e)) →
      Created res t e p fl' t' →
      ∀ e, (t'.envs e).envId = envIdAfter e ((Watched.boot t').allocs e) := by
    intro res fl t e p fl' t' hb ht hc e'
    obtain ⟨tf, type, henvs⟩ := hc.envs
    simp only [Watched.boot] at ht ⊢
    by_cases hee : e' = e
    · subst hee
      have hfree : (t.envs e').envStatus = .free := hb.inv.free_head hc.slot
      have hid := ht e'
      rw [if_pos hfree] at hid
      simp [henvs, allocatedEnv, envIdAfter, hid]
    · simp only [henvs, Function.update_of_ne hee]
      exact ht e'
  obtain ⟨res, fl, hb, hids⟩ := i386Init_induct h
    (fun fl t ht e => by simp [Watched.boot, ht.envs, envIdAfter]) hcreate
  refine ⟨hb.soloOn c, hids, fun e he => ?_⟩
  simp only [Watched.boot] at he ⊢
  rw [if_neg he]
  exact Nat.one_pos

/-- **A step keeps the counters right.** -/
theorem Watched.Ok.step {n : Entry} (h : w.Ok n.cpu) (hstep : w.Step n w') : w'.Ok n.cpu := by
  refine ⟨h.solo.step hstep.move, fun e => ?_, fun e he => ?_⟩
  · rcases h.solo.slot hstep.move e with hk | hf
    · have hno : ¬ ((w.kernel.envs e).envStatus = .free ∧ (w'.kernel.envs e).envStatus ≠ .free) :=
        fun h => h.2 (hk.2 h.1)
      rw [hstep.count, if_neg hno, hk.1]
      exact h.id e
    · rw [hstep.count, if_pos ⟨hf.1, hf.2.1⟩, hf.2.2, h.id e]
      rfl
  · rw [hstep.count]
    by_cases hfree : (w.kernel.envs e).envStatus = .free
    · rw [if_pos ⟨hfree, he⟩]
      omega
    · have := h.live e hfree
      omega

theorem Watched.Ok.reach (h : w.Ok c) (hr : Reach Watched.Step (fun _ n => n.cpu = c) w w') :
    w'.Ok c := by
  refine hr.inv (I := fun w => w.Ok c) h ?_
  rintro w n w' hw rfl hstep
  exact hw.step hstep

theorem Watched.allocs_mono {ok : Watched → Entry → Prop} (hr : Reach Watched.Step ok w w')
    (e : EnvIndex) : w.allocs e ≤ w'.allocs e := by
  refine hr.inv (I := fun w' => w.allocs e ≤ w'.allocs e) (le_refl _) ?_
  intro w₁ n w₂ h _ hstep
  rw [hstep.count]
  omega

/-- A slot that is free stays free until it is allocated. -/
theorem Watched.free_of_allocs {ok : Watched → Entry → Prop} (hr : Reach Watched.Step ok w w')
    (hfree : (w.kernel.envs e).envStatus = .free) (hcount : w'.allocs e = w.allocs e) :
    (w'.kernel.envs e).envStatus = .free := by
  have hinv := hr.inv (I := fun w' => w.allocs e ≤ w'.allocs e ∧
    (w'.allocs e = w.allocs e → (w'.kernel.envs e).envStatus = .free)) ⟨le_refl _, fun _ => hfree⟩
    fun w₁ n w₂ h _ hstep => by
      obtain ⟨hle, h⟩ := h
      have hc := hstep.count e
      refine ⟨by omega, fun heq => ?_⟩
      by_contra hlive
      by_cases hf : (w₁.kernel.envs e).envStatus = .free
      · rw [if_pos ⟨hf, hlive⟩] at hc
        omega
      · exact hf (h (by omega))
  exact hinv.2 hcount

/-- An id that its slot does not carry is turned away. -/
theorem envid2env_stale {envid : Word} (hid : envid ≠ 0#32)
    (h : (s.envs (envx envid)).envStatus = .free ∨ (s.envs (envx envid)).envId ≠ envid)
    (checkperm : Bool) : (envid2env envid checkperm).run s = .ok (-eBadEnv, none) s := by
  simp only [envid2env, EStateM.run_bind, EStateM.run_get, if_neg hid, if_pos h, EStateM.run_pure]

/-- **Stale ids are turned away.**  The ids of a slot over `2 ^ 19 - 1` consecutive allocations are
positive and different.  In every run on one CPU, the id of a slot is the one that the number of its
allocations says, and the id of an environment that has been freed since is not resolved, as long as
its slot has been allocated less than `2 ^ 19 - 1` times since. -/
theorem reaches_stale :
    (∀ (e : EnvIndex) (n a : Nat), a < 2 ^ 19 - 1 → 0 < (envIdAfter e (n + a + 1)).toInt ∧
      ∀ b < 2 ^ 19 - 1, a ≠ b → envIdAfter e (n + a + 1) ≠ envIdAfter e (n + b + 1)) ∧
    ∀ (m : Machine) (s₀ : Kernel), (i386Init m).run m.powerOn = .ok () s₀ → ∀ w₁,
      Reach Watched.Step (fun _ n => n.cpu = m.bootcpu) (.boot s₀) w₁ → ∀ e,
        (w₁.kernel.envs e).envId = envIdAfter e (w₁.allocs e) ∧
        ((w₁.kernel.envs e).envStatus ≠ .free → ∀ w₂ w₃,
          Reach Watched.Step (fun _ n => n.cpu = m.bootcpu) w₁ w₂ →
          (w₂.kernel.envs e).envStatus = .free →
          Reach Watched.Step (fun _ n => n.cpu = m.bootcpu) w₂ w₃ →
          w₃.allocs e < w₁.allocs e + (2 ^ 19 - 1) → ∀ checkperm,
            (envid2env (w₁.kernel.envs e).envId checkperm).run w₃.kernel =
              .ok (-eBadEnv, none) w₃.kernel) := by
  refine ⟨fun e n a ha => ⟨envIdAfter_pos e _, fun b hb hne => ?_⟩, ?_⟩
  · rcases Nat.lt_or_gt_of_ne hne with hab | hab
    · exact envIdAfter_ne e (by omega) (by omega)
    · exact (envIdAfter_ne e (by omega) (by omega)).symm
  · intro m s₀ hboot w₁ hr₁ e
    have hok₁ := (Watched.boot_ok hboot m.bootcpu).reach hr₁
    refine ⟨hok₁.id e, fun hlive w₂ w₃ hr₂ hfree hr₃ hlt checkperm => ?_⟩
    have hok₃ := (hok₁.reach hr₂).reach hr₃
    have hpos := hok₁.live e hlive
    obtain ⟨a, ha⟩ : ∃ a, w₁.allocs e = a + 1 := ⟨w₁.allocs e - 1, by omega⟩
    have hid₁ : (w₁.kernel.envs e).envId = envIdAfter e (a + 1) := by rw [hok₁.id e, ha]
    have hx : envx (w₁.kernel.envs e).envId = e := by rw [hid₁, envx_envIdAfter]
    refine envid2env_stale ?_ ?_ checkperm
    · intro hzero
      have := envIdAfter_pos e a
      rw [← hid₁, hzero] at this
      exact absurd this (by decide)
    · rw [hx]
      by_cases hcount : w₃.allocs e = w₂.allocs e
      · exact Or.inl (Watched.free_of_allocs hr₃ hfree hcount)
      · -- the slot has been filled again, but not often enough
        have h₁ := Watched.allocs_mono hr₂ e
        have h₂ := Watched.allocs_mono hr₃ e
        obtain ⟨b, hb⟩ : ∃ b, w₃.allocs e = b + 1 := ⟨w₃.allocs e - 1, by omega⟩
        refine Or.inr ?_
        rw [hok₃.id e, hb, hid₁]
        exact (envIdAfter_ne e (by omega) (by omega)).symm

/-! ## A slot that is used again -/

/-- Back to the environment that made the call. -/
theorem trapReturn_current (hc : s.curenv = some e) (hst : (s.envs e).envStatus = .running)
    {d : Nat}
    (hd : (s.envs e).envPgdir = some d) : trapReturn.run s = .error .popTf (s.dispatch e d) := by
  rw [trapReturn, run_bind_ok (EStateM.run_get _)]
  simp only [hc, EStateM.run_bind, EStateM.run_get, if_pos hst, envRun_run hd]

/-- The state with the result of a system call in `eax`. -/
def Kernel.answered (s : Kernel) (cur : EnvIndex) (r : Word) : Kernel :=
  s.setEnv cur { s.envs cur with
    envTf := { (s.envs cur).envTf with
      tfRegs := { (s.envs cur).envTf.tfRegs with regEax := r } } }

/-- A system call that returns to its caller, from the trap to the return to user mode: the other
environments are as the call has left them. -/
theorem trap_returns {cur : EnvIndex} {tf : Trapframe} {c : Syscall} {r : Word} {d : Nat}
    (hcs : tf.tfCs &&& 3#32 = 3#32) (hcall : tf.call = some c) (hc : s.curenv = some cur)
    (hst : (s.envs cur).envStatus = .running) (hrun : c.handle.run (s.saved cur tf) = .ok r t)
    (hc' : t.curenv = some cur) (hst' : (t.envs cur).envStatus = .running)
    (hd : (t.envs cur).envPgdir = some d) : ∃ s', (trap tf).run s = .error .popTf s' ∧
      s'.cpus = t.cpus ∧ (∀ e, e ≠ cur → s'.envs e = t.envs e) ∧
      ∃ tf runs cpu, s'.envs cur =
        { t.envs cur with envTf := tf, envRuns := runs, envCpunum := cpu } := by
  have hret := trap_call hcs hcall hc (by simp [hst])
    (show (c.perform cur).run (s.saved cur tf) = .ok () (t.answered cur r) from run_bind_ok hrun)
  have hself : (t.answered cur r).envs cur = _ := Function.update_self _ _ _
  rw [trapReturn_current (s := t.answered cur r) hc' (by rw [hself]; exact hst')
    (by rw [hself]; exact hd)] at hret
  refine ⟨_, hret, ?_, fun e he => ?_, ?_⟩
  · rw [dispatch_cpus]
    show Function.update t.cpus t.cpunum { t.cpus t.cpunum with cpuEnv := some cur } = t.cpus
    rw [← hc', curenv]
    exact Function.update_eq_self _ _
  · have hcur : (t.answered cur r).curenv ≠ some e := by
      rw [show (t.answered cur r).curenv = some cur from hc']
      simpa using Ne.symm he
    rw [dispatch_other _ he, descheduled, if_neg fun h => hcur h.1]
    exact Function.update_of_ne he _ _
  · rw [dispatch_self, dispatchedEnv, hself]
    exact ⟨_, _, _, by rw [← hst']⟩

/-- The registers of a program that makes a system call with two arguments. -/
def callOf (no a1 a2 : Word) : Trapframe :=
  { Trapframe.zero with
    tfTrapno := tSyscall
    tfCs := gdUt ||| 3#32
    tfRegs := { Trapframe.zero.tfRegs with regEax := no, regEdx := a1, regEcx := a2 } }


theorem callOf_user (no a1 a2 : Word) : (callOf no a1 a2).tfCs &&& 3#32 = 3#32 := by
  show (gdUt ||| 3#32) &&& 3#32 = 3#32
  decide

/-- Without a current environment, the scheduler starts from the first slot. -/
theorem schedRank_none (hc : u.curenv = none) (e : EnvIndex) : u.schedRank e = e := by
  apply Fin.ext
  rw [schedRank, schedStart, hc, Fin.val_sub]
  show (1024 - 0 + e.val) % 1024 = e.val
  omega

theorem schedYield_first (hdirs : u.LiveDirs) (hc : u.curenv = none)
    (h0 : (u.envs 0).envStatus = .runnable) :
    ∃ d, schedYield.run u = .error .popTf (u.dispatch 0 d) := by
  obtain ⟨e, d, -, -, hmin, hrun⟩ := schedYield_runnable hdirs h0
  have hle := hmin 0 h0
  rw [schedRank_none hc, schedRank_none hc] at hle
  obtain rfl : e = 0 := Fin.le_zero_iff.1 hle
  exact ⟨d, hrun⟩

/-- The first CPU runs environment `e`, and there is a free page. -/
structure OnCpu (s : Kernel) (e : EnvIndex) : Prop where
  cpu : s.cpus 0 = ⟨.started, some e⟩
  running : (s.envs e).envStatus = .running
  inv : ∃ res p fl, Inv res (p :: fl) s

/-- The first of two programs gets the CPU, -/
theorem boot_first : ∃ s₀ n s, (i386Init (busyMachine 2)).run (busyMachine 2).powerOn = .ok () s₀ ∧
    n.cpu = 0 ∧ s₀.Step n s ∧ OnCpu s 0 ∧ (s.envs 0).envId = 4096#32 ∧
    (s.envs 1).envStatus = .runnable ∧ ∀ e, e ≠ 0 → e ≠ 1 → (s.envs e).envStatus = .free := by
  obtain ⟨res, fl, s₀, hboot, hf, hlen⟩ := busyMachine_run (k := 2) (by decide)
  obtain ⟨p, fl', rfl⟩ := List.exists_cons_of_length_pos (show 0 < fl.length by omega)
  have hcpus : s₀.cpus = Function.update (fun _ => ⟨.unused, none⟩) 0 ⟨.started, none⟩ := hf.cpus
  have hcpu : s₀.cpus 0 = ⟨.started, none⟩ := by rw [hcpus, Function.update_self]
  let n : Entry := ⟨0, .boot, 0#32, 0#32, s₀.mem⟩
  have hcu : (n.enter s₀).curenv = none := by
    show (s₀.cpus 0).cpuEnv = none
    rw [hcpu]
  have hst : ((n.enter s₀).envs 0).envStatus = .runnable := (hf.filled 0 (by decide)).1
  obtain ⟨d, hyield⟩ := schedYield_first (u := n.enter s₀) hf.booted.inv.live_dir hcu hst
  have hinv : Inv res (p :: fl') (n.enter s₀) :=
    hf.booted.inv.of_mem rfl rfl rfl rfl rfl hf.booted.inv.chain hf.booted.inv.ok
  have hother : ∀ e, e ≠ 0 → ((n.enter s₀).dispatch 0 d).envs e = s₀.envs e := by
    intro e he
    rw [dispatch_other _ he, descheduled, if_neg (by simp [hcu])]
    rfl
  refine ⟨s₀, n, (n.enter s₀).dispatch 0 d, hboot, rfl,
    Or.inl ⟨⟨by rw [hcpu], by rw [hcpu]⟩, hyield⟩, ⟨?_, ?_, res, p, fl', ?_⟩, ?_, ?_,
    fun e h0 h1 => ?_⟩
  · rw [dispatch_cpus]
    show Function.update s₀.cpus 0 { s₀.cpus 0 with cpuEnv := some 0 } 0 = _
    rw [Function.update_self, hcpu]
  · rw [dispatch_self]
    rfl
  · exact hinv.handover (dispatch_handover (Or.inl hst) d)
  · rw [dispatch_self]
    show (s₀.envs 0).envId = 4096#32
    rw [(hf.filled 0 (by decide)).2]
    decide
  · rw [hother 1 (by decide)]
    exact (hf.filled 1 (by decide)).1
  · rw [hother e h0]
    refine (hf.free e ?_).1
    by_contra hlt
    have h0' : e.val ≠ 0 := fun hv => h0 (Fin.ext hv)
    have h1' : e.val ≠ 1 := fun hv => h1 (Fin.ext hv)
    omega

/-- The state in which the kernel handles a system call of environment `e`. -/
def called (s : Kernel) (e : EnvIndex) (tf : Trapframe) : Kernel :=
  ((⟨0, .user tf, 0#32, 0#32, s.mem⟩ : Entry).enter s).saved e tf

namespace OnCpu

variable {tf : Trapframe}

theorem curenv (h : OnCpu s e) (tf : Trapframe) :
    ((⟨0, .user tf, 0#32, 0#32, s.mem⟩ : Entry).enter s).curenv = some e := by
  show (s.cpus 0).cpuEnv = some e
  rw [h.cpu]

theorem called_curenv (h : OnCpu s e) (tf : Trapframe) : (called s e tf).curenv = some e :=
  (started_curenv _).trans (h.curenv tf)

theorem called_inv (h : OnCpu s e) (tf : Trapframe) :
    ∃ res p fl, Inv res (p :: fl) (called s e tf) := by
  obtain ⟨res, p, fl, hinv⟩ := h.inv
  have hinv' : Inv res (p :: fl) ((⟨0, .user tf, 0#32, 0#32, s.mem⟩ : Entry).enter s).started :=
    hinv.of_mem rfl rfl rfl rfl rfl hinv.chain hinv.ok
  exact ⟨res, p, fl, hinv'.of_setEnv rfl rfl Iff.rfl⟩

/-- It destroys itself, so that the other program gets the CPU, -/
theorem exit (h : OnCpu s 0) (h1 : (s.envs 1).envStatus = .runnable)
    (hrest : ∀ e, e ≠ 0 → e ≠ 1 → (s.envs e).envStatus = .free) : ∃ n s', n.cpu = 0 ∧
    s.Step n s' ∧ OnCpu s' 1 ∧ (s'.envs 0).envStatus = .free ∧ s'.envFreeList = some 0 := by
  obtain ⟨tf, htf⟩ : ∃ tf, tf = callOf 3#32 0#32 0#32 := ⟨_, rfl⟩
  have huser : tf.tfCs &&& 3#32 = 3#32 := htf ▸ callOf_user _ _ _
  have hcall : tf.call = some (.envDestroy 0#32) := by
    rw [htf]
    rfl
  obtain ⟨res, p, fl, hinv⟩ := h.called_inv tf
  have hcu := h.called_curenv tf
  have henvs : (called s 0 tf).envs = Function.update s.envs 0 { s.envs 0 with envTf := tf } := rfl
  have hlive : ((called s 0 tf).envs 0).envStatus ≠ .free := by
    rw [henvs, Function.update_self, h.running]
    simp
  obtain ⟨t, fl', hfree, hinvt, -, hshed, -⟩ := hinv.envFree_run hlive
  have hmo := (envFree_effect (called s 0 tf) 0).of_ok rfl hfree
  have henvt : (t.setCurenv none).envs =
      Function.update (called s 0 tf).envs 0 ((called s 0 tf).freedEnv 0) := hmo.envs
  have hst₁ : ((t.setCurenv none).envs 1).envStatus = .runnable := by
    rw [henvt, Function.update_of_ne (by decide), henvs, Function.update_of_ne (by decide), h1]
  have hfree₀ : ((t.setCurenv none).envs 0).envStatus = .free := by
    rw [henvt, Function.update_self, freedEnv]
  -- nothing else can run
  obtain ⟨e, d, hst, -, -, hyield⟩ :=
    schedYield_runnable (s := t.setCurenv none) hinvt.live_dir hst₁
  have he0 : e ≠ 0 := by
    rintro rfl
    rw [hfree₀] at hst
    simp at hst
  obtain rfl : e = 1 := by
    by_contra he1
    rw [henvt, Function.update_of_ne he0, henvs, Function.update_of_ne he0, hrest e he0 he1] at hst
    simp at hst
  have hdestroy : ((Syscall.envDestroy 0#32).perform 0).run (called s 0 tf) =
      .error .popTf ((t.setCurenv none).dispatch 1 d) := by
    refine run_bind_error ?_
    show (sysEnvDestroy 0#32).run _ = _
    rw [sysEnvDestroy_some hcu (show (called s 0 tf).resolve 0 0#32 = some 0 from if_pos rfl)]
    refine run_bind_error ?_
    rw [envDestroy_current hcu, run_bind_ok hfree, run_bind_ok (EStateM.run_modify _ _), hyield]
  have hrun := (trap_user huser ((⟨0, .user tf, 0#32, 0#32, s.mem⟩ : Entry).enter s)).trans
    ((run_bind_ok (trapFromUser_saved (h.curenv tf) (by simp [Entry.enter, h.running]) tf)).trans
      (run_bind_error ((trapDispatch_call hcall hcu).trans hdestroy)))
  refine ⟨⟨0, .user tf, 0#32, 0#32, s.mem⟩, _, rfl, Or.inl ⟨⟨by rw [h.cpu]; simp, huser⟩, hrun⟩,
    ⟨?_, ?_, ?_⟩, ?_, ?_⟩
  · have hcpus : t.cpus = (called s 0 tf).cpus := hmo.cpus
    have hnum : t.cpunum = 0 := hmo.cpunum
    rw [dispatch_cpus, setCurenv_cpunum, hnum, Function.update_self]
    simp only [setCurenv, setCpu, hnum, hcpus, Function.update_self]
    rfl
  · rw [dispatch_self]
    rfl
  · obtain ⟨new, hnew, -⟩ := hshed.free
    have hfl : fl' = new ++ p :: fl := hnew
    have hinv' : Inv res fl' (t.setCurenv none) := hinvt.of_cpus _ _ _
    have hend := hinv'.handover (dispatch_handover (Or.inl hst) d)
    cases new with
    | nil => exact ⟨res, p, fl, by rwa [hfl] at hend⟩
    | cons q new => exact ⟨res, q, new ++ p :: fl, by rwa [hfl] at hend⟩
  · rw [dispatch_other _ (by decide), descheduled, if_neg (by simp)]
    exact hfree₀
  · exact hmo.envFreeList

/-- and that one makes a child, which gets the free slot. -/
theorem refill (h : OnCpu s 1) (hl : s.envFreeList = some 0) :
    ∃ n s', n.cpu = 0 ∧ s.Step n s' ∧ (s'.envs 0).envStatus = .notRunnable := by
  obtain ⟨tf, htf⟩ : ∃ tf, tf = callOf 7#32 0#32 0#32 := ⟨_, rfl⟩
  have huser : tf.tfCs &&& 3#32 = 3#32 := htf ▸ callOf_user _ _ _
  have hcall : tf.call = some .exofork := by
    rw [htf]
    rfl
  obtain ⟨res, p, fl, hinv⟩ := h.called_inv tf
  have hcu := h.called_curenv tf
  have hrun : Syscall.exofork.handle.run (called s 1 tf) = .ok _ ((called s 1 tf).forked 1 0 p) :=
    sysExofork_run hcu hl hinv.chain.1 (hinv.free_lt List.mem_cons_self) (by decide)
  have henvs := forked_envs (called s 1 tf) 1 0 p
  have hself : ((called s 1 tf).forked 1 0 p).envs 1 = { s.envs 1 with envTf := tf } := by
    rw [henvs, Function.update_of_ne (by decide)]
    exact Function.update_self (1 : EnvIndex) _ s.envs
  have hlive : (((called s 1 tf).forked 1 0 p).envs 1).envStatus ≠ .free := by
    rw [hself]
    simp [h.running]
  obtain ⟨d, hd⟩ := (hinv.forked hl 1).1.live_dir 1 hlive
  obtain ⟨s', hret, -, hother, -⟩ := trap_returns huser hcall (h.curenv tf) h.running hrun
    ((forked_curenv _ _ _ _).trans hcu) (by rw [hself]; exact h.running) hd
  refine ⟨⟨0, .user tf, 0#32, 0#32, s.mem⟩, s', rfl,
    Or.inl ⟨⟨by rw [h.cpu]; simp, huser⟩, hret⟩, ?_⟩
  rw [hother 0 (by decide), henvs, Function.update_self]
  rfl

end OnCpu

theorem Watched.exists_step {n : Entry} (h : w.kernel.Step n s') : ∃ w', w.Step n w' ∧
    w'.kernel = s' ∧ ∀ e, w'.allocs e ≤ w.allocs e + 1 := by
  refine ⟨⟨s', fun e => w.allocs e +
    if (w.kernel.envs e).envStatus = .free ∧ (s'.envs e).envStatus ≠ .free then 1 else 0⟩,
    ⟨h, fun _ => rfl⟩, rfl, fun e => ?_⟩
  dsimp only
  split
  · exact Nat.le_refl _
  · exact Nat.le_succ _

/-- A machine with two programs: the first one destroys itself, and then the second one makes a
child in its slot.  The id of the first one is turned away before and after that. -/
theorem reaches_stale_refilled : ∃ s₀ w₁ w₂ w₃,
    (i386Init (busyMachine 2)).run (busyMachine 2).powerOn = .ok () s₀ ∧
    Reach Watched.Step (fun _ n => n.cpu = (busyMachine 2).bootcpu) (.boot s₀) w₁ ∧
    (w₁.kernel.envs 0).envStatus = .running ∧ (w₁.kernel.envs 0).envId = 4096#32 ∧
    Reach Watched.Step (fun _ n => n.cpu = (busyMachine 2).bootcpu) w₁ w₂ ∧
    (w₂.kernel.envs 0).envStatus = .free ∧
    (∀ checkperm, (envid2env 4096#32 checkperm).run w₂.kernel = .ok (-eBadEnv, none) w₂.kernel) ∧
    Reach Watched.Step (fun _ n => n.cpu = (busyMachine 2).bootcpu) w₂ w₃ ∧
    (w₃.kernel.envs 0).envStatus = .notRunnable ∧
    ∀ checkperm, (envid2env 4096#32 checkperm).run w₃.kernel = .ok (-eBadEnv, none) w₃.kernel := by
  obtain ⟨s₀, n₁, s₁, hboot, hn₁, hstep₁, h₁, hid, hone, hrest⟩ := boot_first
  obtain ⟨n₂, s₂, hn₂, hstep₂, h₂, hfree, hlist⟩ := h₁.exit hone hrest
  obtain ⟨n₃, s₃, hn₃, hstep₃, hchild⟩ := h₂.refill hlist
  obtain ⟨w₁, hw₁, rfl, hle₁⟩ := Watched.exists_step (w := .boot s₀) hstep₁
  obtain ⟨w₂, hw₂, rfl, hle₂⟩ := Watched.exists_step hstep₂
  obtain ⟨w₃, hw₃, rfl, hle₃⟩ := Watched.exists_step hstep₃
  have hr₁ : Reach Watched.Step (fun _ n => n.cpu = (busyMachine 2).bootcpu) (.boot s₀) w₁ :=
    .tail .refl hn₁ hw₁
  have hr₂ : Reach Watched.Step (fun _ n => n.cpu = (busyMachine 2).bootcpu) w₁ w₂ :=
    .tail .refl hn₂ hw₂
  have hr₃ : Reach Watched.Step (fun _ n => n.cpu = (busyMachine 2).bootcpu) w₂ w₃ :=
    .tail .refl hn₃ hw₃
  have hlive : (w₁.kernel.envs 0).envStatus ≠ .free := by simp [h₁.running]
  have hstale := (reaches_stale.2 (busyMachine 2) s₀ hboot w₁ hr₁ 0).2 hlive w₂
  rw [hid] at hstale
  have h2 := hle₂ 0
  have h3 := hle₃ 0
  exact ⟨s₀, w₁, w₂, w₃, hboot, hr₁, h₁.running, hid, hr₂, hfree,
    hstale w₂ hr₂ hfree .refl (by omega), hr₃, hchild, hstale w₃ hr₂ hfree hr₃ (by omega)⟩

end Jos
