import Jos.Protection

/-!
# Zombies

`env_destroy` does not free an environment that runs on another CPU.  It marks it as
`ENV_DYING`, and the CPU that has it frees it when it traps into the kernel the next time.  This
only works if an environment that is marked is on a CPU, and if nothing is done to it until that
CPU traps.

The scheduler never takes a zombie.  `sys_env_set_status` could turn one back into an environment
that lives, and a second `sys_env_destroy` would free it under the CPU that runs it, so both are
excluded here.
-/

set_option autoImplicit false

namespace Jos

open Kernel Command

variable {s s' t u : Kernel} {e : EnvIndex} {ok : Act → Prop}

/-- The entry leaves the environments of other CPUs to them: none is made runnable or freed, and
none that is dying gets another status. -/
structure Entry.Tidy (n : Entry) (s : Kernel) : Prop where
  careful : n.Careful s
  dying : ∀ e, s.Elsewhere n.cpu e → (s.envs e).envStatus = .dying →
    ∀ st, ¬ n.Causes s (.status e st)

theorem Exit.GoesOn.not_panic {x : Exit} (h : x.GoesOn) : ¬ x.IsPanic := by
  rcases h with rfl | rfl
  · exact id
  · exact id

theorem Kernel.Step.goesOn {n : Entry} (h : s.Step n s') :
    ∃ x : Exit, x.GoesOn ∧ s.Enters n x s' := by
  rcases h with hen | hen
  · exact ⟨_, Or.inl rfl, hen⟩
  · exact ⟨_, Or.inr rfl, hen⟩

/-! ## What is running is on a CPU -/

/-- An environment that is running, or dying, is on a CPU. -/
def Kernel.Held (s : Kernel) : Prop :=
  ∀ e, (s.envs e).envStatus = .running ∨ (s.envs e).envStatus = .dying →
    ∃ c, (s.cpus c).cpuEnv = some e

/-- The current environment is not dying. -/
def Kernel.Attended (s : Kernel) : Prop :=
  ∀ e, s.curenv = some e → (s.envs e).envStatus ≠ .dying

theorem Kernel.Held.update (h : s.Held) {env : Env} (hcpus : s'.cpus = s.cpus)
    (henvs : s'.envs = Function.update s.envs e env)
    (hself : env.envStatus = .running ∨ env.envStatus = .dying →
      (s.envs e).envStatus = .running ∨ (s.envs e).envStatus = .dying) : s'.Held := by
  intro e' he'
  rw [henvs] at he'
  rw [hcpus]
  by_cases hee : e' = e
  · subst hee
    rw [Function.update_self] at he'
    exact h e' (hself he')
  · rw [Function.update_of_ne hee] at he'
    exact h e' he'

/-- **Every act keeps the invariant.** -/
theorem Kernel.Held.act (h : s.Held) {a : Act} (ha : s.Acts a s') : s'.Held := by
  cases ha with
  | mem only =>
    intro e he
    rw [only.envs] at he
    rw [only.cpus]
    exact h e he
  | regs e tf upcall => exact h.update rfl rfl id
  | status e live settable =>
    refine h.update rfl rfl fun he => ?_
    rcases settable with rfl | rfl
    · simp at he
    · simp at he
  | dying e running other => exact h.update rfl rfl fun _ => Or.inl running
  | alloc e p parentId head => exact h.update rfl rfl fun he => by simp [allocatedEnv] at he
  | free e live idle other => exact h.update rfl rfl fun he => by simp [freedEnv] at he
  | exit e current =>
    intro e' he'
    have hee : e' ≠ e := by
      rintro rfl
      simp [freed, freedEnv] at he'
    have hkept : ((s.freed e).setCurenv none).envs e' = s.envs e' := Function.update_of_ne hee _ _
    rw [hkept] at he'
    obtain ⟨c, hc⟩ := h e' he'
    -- the current environment is the one that goes
    have hcn : c ≠ s.cpunum := by
      rintro rfl
      exact hee (Option.some_inj.1 (hc.symm.trans current))
    refine ⟨c, ?_⟩
    rw [show ((s.freed e).setCurenv none).cpus c = s.cpus c from Function.update_of_ne hcn _ _]
    exact hc
  | started =>
    intro e he
    obtain ⟨c, hc⟩ := h e he
    refine ⟨c, ?_⟩
    by_cases hcn : c = s.cpunum
    · subst hcn
      simpa [setCpu] using hc
    · rw [show (s.setCpu s.cpunum _).cpus c = s.cpus c from Function.update_of_ne hcn _ _]
      exact hc
  | unload => exact h

/-- Only environments of other CPUs are marked. -/
theorem Kernel.Attended.act (h : s.Attended) {a : Act} (ha : s.Acts a s') : s'.Attended := by
  have hset : ∀ (e : EnvIndex) (env : Env), (s.curenv = some e → env.envStatus ≠ .dying) →
      ∀ e', s.curenv = some e' → (Function.update s.envs e env e').envStatus ≠ .dying := by
    intro e env hself e' he'
    by_cases hee : e' = e
    · subst hee
      rw [Function.update_self]
      exact hself he'
    · rw [Function.update_of_ne hee]
      exact h e' he'
  cases ha with
  | mem only =>
    intro e he
    rw [only.curenv] at he
    rw [only.envs]
    exact h e he
  | regs e tf upcall => exact hset e _ (h e)
  | status e live settable =>
    refine hset e _ fun _ => ?_
    rcases settable with rfl | rfl
    · simp
    · simp
  | dying e running other => exact hset e _ fun hc => absurd hc other
  | alloc e p parentId head => exact hset e _ fun _ => by simp [allocatedEnv]
  | free e live idle other => exact hset e _ fun _ => by simp [freedEnv]
  | exit e current =>
    intro e' he'
    rw [setCurenv_curenv] at he'
    exact absurd he' (by simp)
  | started =>
    intro e he
    exact h e ((started_curenv s).symm.trans he)
  | unload => exact h

theorem Kernel.Held.path (h : s.Held) (ha : s.Attended) (hp : Path ok s t) :
    t.Held ∧ t.Attended :=
  hp.inv (I := fun t => t.Held ∧ t.Attended) ⟨h, ha⟩ fun _ _ _ h _ hact =>
    ⟨h.1.act hact, h.2.act hact⟩

/-- **Leaving the kernel.**  The environment that loses the CPU is neither running nor dying
then. -/
theorem Kernel.Held.departs {x : Exit} (h : u.Held) (ha : u.Attended) (hd : u.Departs x s')
    (hx : x.GoesOn) : s'.Held := by
  cases hd with
  | run e d who dir =>
    intro e' he'
    by_cases hee : e' = e
    · subst hee
      exact ⟨u.cpunum, dispatch_curenv u e' d⟩
    · rw [dispatch_other u hee, Kernel.descheduled] at he'
      split at he'
      · simp at he'
      · rename_i hno
        obtain ⟨c, hc⟩ := h e' he'
        have hcn : c ≠ u.cpunum := by
          rintro rfl
          rcases he' with hr | hdy
          · exact hno ⟨hc, hr⟩
          · exact ha e' hc hdy
        refine ⟨c, ?_⟩
        rw [dispatch_cpus, Function.update_of_ne hcn]
        exact hc
  | halt none idle =>
    intro e he
    obtain ⟨c, hc⟩ := h e he
    have hcn : c ≠ u.cpunum := by
      rintro rfl
      rcases he with hr | hdy
      · exact idle e hc hr
      · exact ha e hc hdy
    refine ⟨c, ?_⟩
    rw [show u.halt.cpus c = u.cpus c by simp [Kernel.halt, setCpu, setCurenv, lcr3, hcn]]
    exact hc
  | monitor => exact absurd hx (by simp [Exit.GoesOn])

/-! ## The trap of a zombie -/

/-- `trap` frees the environment, and the scheduler takes over. -/
theorem trapFromUser_dying (hc : s.curenv = some e) (hd : (s.envs e).envStatus = .dying)
    (tf : Trapframe) : (trapFromUser tf).run s = EStateM.run (do
      (do envFree e; modify (·.setCurenv none); schedYield)
      updateEnv e fun env => { env with envTf := tf } : KernelM Unit) s := by
  rw [trapFromUser, run_bind_ok (EStateM.run_get _)]
  simp only [hc, EStateM.run_bind, EStateM.run_get, if_pos hd, EStateM.run_modify]
  cases (envFree e).run s with
  | error x t => rfl
  | ok a t => rfl

/-- The state without the current environment. -/
def Kernel.collected (s : Kernel) (e : EnvIndex) : Kernel := (s.freed e).setCurenv none

/-- **A CPU whose environment is dying** frees it, whatever the trap is, and runs another one or
waits. -/
theorem Kernel.Enters.collects {n : Entry} {x : Exit} (h : s.Enters n x s') (hs : s.Ready n.cpu)
    (hx : ¬ x.IsPanic) (he : (s.cpus n.cpu).cpuEnv = some e)
    (hd : (s.envs e).envStatus = .dying) :
    ∃ u, MemOnly ((n.enter s).started.collected e) u ∧ u.Departs x s' := by
  have hsane : (n.enter s).started.Sane := Sane.started ⟨hs.dirs, hs.cur⟩
  have hc : (n.enter s).started.curenv = some e := (started_curenv _).trans he
  have hen := h.enabled
  have hrun := h.run
  rw [Entry.Enabled] at hen
  rw [Entry.code] at hrun
  cases hcause : n.cause with
  | boot =>
    rw [hcause] at hen
    exact absurd (he.symm.trans hen.1) (by simp)
  | mpMain =>
    rw [hcause] at hen
    exact absurd (he.symm.trans hen.1) (by simp)
  | wake tf =>
    rw [hcause] at hen
    exact absurd (he.symm.trans (hs.halted hen.1)) (by simp)
  | user tf =>
    rw [hcause] at hen hrun
    replace hrun : (trap tf).run (n.enter s) = .error x s' := hrun
    rw [trap_user hen.2] at hrun
    have hcoll := trapFromUser_dying hc hd tf
    cases hr : (envFree e).run (n.enter s).started with
    | error y t =>
      have hpanic := (envFree_effect _ e).of_error rfl hr
      rw [run_bind_error (run_bind_error hr)] at hcoll
      rw [run_bind_error hcoll] at hrun
      cases hrun
      exact absurd hpanic hx
    | ok a t =>
      have hmo := (envFree_effect _ e).of_ok rfl hr
      have hp : Path (fun _ => True) (n.enter s).started (t.setCurenv none) :=
        exit_path hc trivial trivial hr
      obtain ⟨y, s'', hyield, hl⟩ := schedYield_leaves (hp.sane hsane).dirs
      have hinner : EStateM.run (do envFree e; modify (·.setCurenv none); schedYield : KernelM Unit)
          (n.enter s).started = .error y s'' := by
        rw [run_bind_ok hr, run_bind_ok (EStateM.run_modify _ _), hyield]
      rw [run_bind_error hinner] at hcoll
      rw [run_bind_error hcoll] at hrun
      cases hrun
      refine ⟨t.setCurenv none, ?_, hl.departs⟩
      obtain ⟨m, pg, fl, tl, ad, o, rfl⟩ := hmo.exists_eq
      rfl

theorem Kernel.Held.collected (h : s.Held) (hc : s.curenv = some e) :
    (s.collected e).Held ∧ (s.collected e).Attended := by
  refine ⟨h.act (.exit e hc), fun e' he' => ?_⟩
  rw [Kernel.collected, setCurenv_curenv] at he'
  exact absurd he' (by simp)

/-- **Every entry keeps what is running on a CPU.** -/
theorem Kernel.Held.step {n : Entry} (h : s.Held) (hp : s.Parted) (hstep : s.Step n s') :
    s'.Held := by
  obtain ⟨x, hx, hen⟩ := hstep.goesOn
  have henter : (n.enter s).Held := h
  by_cases hd : ∃ e, (s.cpus n.cpu).cpuEnv = some e ∧ (s.envs e).envStatus = .dying
  · obtain ⟨e, he, hst⟩ := hd
    obtain ⟨u, hmo, hdep⟩ := hen.collects (hp.ready n.cpu) hx.not_panic he hst
    have hcur : (n.enter s).started.curenv = some e := (started_curenv _).trans he
    obtain ⟨hheld, hatt⟩ := Held.collected (henter.act .started) hcur
    exact (hheld.act (.mem hmo)).departs (hatt.act (.mem hmo)) hdep hx
  · obtain ⟨u, hpath, hdep, -, -⟩ := hen.departs (hp.ready n.cpu) hx.not_panic
    have hatt : (n.enter s).Attended := fun e he hst => hd ⟨e, he, hst⟩
    obtain ⟨hheld, hatt'⟩ := henter.path hatt hpath
    exact hheld.departs hatt' hdep hx

/-! ## A zombie waits for its CPU -/

/-- The environment is dying, and has the id and the page directory that it had. -/
structure Kernel.Waits (s : Kernel) (e : EnvIndex) (s' : Kernel) : Prop where
  dying : (s'.envs e).envStatus = .dying
  id : (s'.envs e).envId = (s.envs e).envId
  dir : (s'.envs e).envPgdir = (s.envs e).envPgdir

theorem Kernel.Waits.trans (h : s.Waits e t) (h' : t.Waits e u) : s.Waits e u :=
  ⟨h'.dying, h'.id.trans h.id, h'.dir.trans h.dir⟩

/-- No act of another CPU ends the wait, as long as it does not free the environment or set its
status. -/
theorem Kernel.Exclusive.waits (h : s.Exclusive) {a : Act} (ha : s.Acts a s')
    (he : s.Elsewhere s.cpunum e) (hd : (s.envs e).envStatus = .dying) (hfree : a ≠ .free e)
    (hst : ∀ st, a ≠ .status e st) : s.Waits e s' := by
  have hset : ∀ (e' : EnvIndex) (env : Env), (e = e' → env.envStatus = .dying ∧
      env.envId = (s.envs e).envId ∧ env.envPgdir = (s.envs e).envPgdir) →
      ∀ {t : Kernel}, t.envs = Function.update s.envs e' env → s.Waits e t := by
    intro e' env hself t ht
    by_cases hee : e = e'
    · obtain ⟨h₁, h₂, h₃⟩ := hself hee
      subst hee
      refine ⟨?_, ?_, ?_⟩ <;> rw [ht, Function.update_self] <;> assumption
    · refine ⟨?_, ?_, ?_⟩ <;> rw [ht, Function.update_of_ne hee]
      exact hd
  have hother : ∀ (e' : EnvIndex) (env : Env), e ≠ e' → ∀ {t : Kernel},
      t.envs = Function.update s.envs e' env → s.Waits e t :=
    fun e' env hee t ht => hset e' env (fun h => absurd h hee) ht
  have hstill : s'.envs = s.envs → s.Waits e s' := by
    intro henvs
    refine ⟨?_, ?_, ?_⟩ <;> rw [henvs]
    exact hd
  cases ha with
  | mem only => exact hstill only.envs
  | regs e' tf upcall =>
    refine hset e' _ ?_ rfl
    rintro rfl
    exact ⟨hd, rfl, rfl⟩
  | @status e' st live settable =>
    refine hother e' _ ?_ rfl
    rintro rfl
    exact hst st rfl
  | dying e' running other =>
    refine hother e' _ ?_ rfl
    rintro rfl
    exact absurd (hd.symm.trans running) (by simp)
  | alloc e' p parentId head =>
    refine hother e' _ ?_ rfl
    rintro rfl
    exact (h.busy e he).1 (h.list.head_free head)
  | free e' live idle other =>
    refine hother e' _ ?_ rfl
    rintro rfl
    exact hfree rfl
  | exit e' current =>
    refine hother e' _ ?_ rfl
    rintro rfl
    obtain ⟨c, hc, hce⟩ := he
    exact hc (h.alone c s.cpunum e hce current)
  | started => exact hstill rfl
  | unload => exact hstill rfl

theorem Kernel.Exclusive.waits_path (h : s.Exclusive) (hp : Path ok s t)
    (hcareful : ∀ e, s.Elsewhere s.cpunum e → ¬ ok (.status e .runnable) ∧ ¬ ok (.free e))
    (he : s.Elsewhere s.cpunum e) (hd : (s.envs e).envStatus = .dying)
    (hst : ∀ st, ¬ ok (.status e st)) : s.Waits e t := by
  have hinv := hp.inv (I := fun t => s.Waits e t ∧ t.Exclusive ∧ s.SameCpus t)
    ⟨⟨hd, rfl, rfl⟩, h, SameCpus.refl s⟩ ?_
  · exact hinv.1
  · rintro t a t' ⟨hw, ht, hcpus⟩ good ha
    have hno : ∀ e, t.Elsewhere t.cpunum e → a ≠ .status e .runnable ∧ a ≠ .free e := by
      intro e he
      rw [hcpus.elsewhere] at he
      refine ⟨?_, ?_⟩
      · rintro rfl
        exact (hcareful e he).1 good
      · rintro rfl
        exact (hcareful e he).2 good
    have he' : t.Elsewhere t.cpunum e := hcpus.elsewhere.2 he
    refine ⟨hw.trans (ht.waits ha he' hw.dying (hno e he').2 ?_), ht.act ha hno,
      hcpus.trans ha.sameCpus⟩
    rintro st rfl
    exact hst st good

/-- Leaving the kernel changes no environment of another CPU. -/
theorem Kernel.Exclusive.departs_other {x : Exit} (h : u.Exclusive) (hd : u.Departs x s') {c : Cpu}
    (hc : c ≠ u.cpunum) (he : (u.cpus c).cpuEnv = some e) :
    s'.envs e = u.envs e ∧ s'.cpus c = u.cpus c := by
  cases hd with
  | run e' d who dir =>
    refine ⟨(h.dispatch who hc he).2, ?_⟩
    rw [dispatch_cpus, Function.update_of_ne hc]
  | halt none idle => exact ⟨rfl, by simp [Kernel.halt, setCpu, setCurenv, lcr3, hc]⟩
  | monitor => exact ⟨rfl, rfl⟩

/-- **A zombie waits**, whatever other CPUs do. -/
theorem Kernel.Parted.waits {n : Entry} (h : s.Parted) (htidy : n.Tidy s) (hstep : s.Step n s')
    {c : Cpu} (hc : n.cpu ≠ c) (he : (s.cpus c).cpuEnv = some e)
    (hd : (s.envs e).envStatus = .dying) : s.Waits e s' ∧ (s'.cpus c).cpuEnv = some e := by
  obtain ⟨x, hx, hen⟩ := hstep.goesOn
  obtain ⟨u, hp, hdep, hn, -⟩ := hen.departs (h.ready n.cpu) hx.not_panic
  have helse : (n.enter s).Elsewhere (n.enter s).cpunum e := ⟨c, hc.symm, he⟩
  have hex := (h.enter n).path hp htidy.careful
  have hw := (h.enter n).waits_path hp htidy.careful helse hd (htidy.dying e ⟨c, hc.symm, he⟩ hd)
  have hcu : c ≠ u.cpunum := by
    rw [hn]
    exact hc.symm
  have hcpu : u.cpus c = s.cpus c := hp.sameCpus.2.1 c hc.symm
  have hleft := hex.departs_other hdep hcu (by rwa [hcpu])
  refine ⟨⟨?_, ?_, ?_⟩, ?_⟩
  · rw [hleft.1]
    exact hw.dying
  · rw [hleft.1]
    exact hw.id
  · rw [hleft.1]
    exact hw.dir
  · rw [hleft.2, hcpu]
    exact he

/-! ## The end of a zombie -/

/-- The slot is free, it is the next one that is filled, and no CPU has the environment. -/
structure Kernel.Buried (s : Kernel) (e : EnvIndex) : Prop where
  free : (s.envs e).envStatus = .free
  dir : (s.envs e).envPgdir = none
  next : s.envFreeList = some e
  gone : ∀ c, (s.cpus c).cpuEnv ≠ some e

theorem Kernel.collected_buried (hc : s.curenv = some e)
    (halone : ∀ c c' e, (s.cpus c).cpuEnv = some e → (s.cpus c').cpuEnv = some e → c = c') :
    (s.collected e).Buried e := by
  have hself : (s.collected e).envs e = s.freedEnv e := Function.update_self _ _ _
  refine ⟨?_, ?_, rfl, fun c he => ?_⟩
  · rw [hself]
    rfl
  · rw [hself]
    rfl
  · by_cases hcn : c = s.cpunum
    · subst hcn
      have hnone : (s.collected e).curenv = none := setCurenv_curenv _ _
      exact absurd (hnone.symm.trans he) (by simp)
    · rw [show (s.collected e).cpus c = s.cpus c from Function.update_of_ne hcn _ _] at he
      exact hcn (halone c s.cpunum e he hc)

theorem Kernel.Buried.mem (h : s.Buried e) (hmo : MemOnly s t) : t.Buried e := by
  refine ⟨?_, ?_, ?_, ?_⟩
  · rw [hmo.envs]
    exact h.free
  · rw [hmo.envs]
    exact h.dir
  · rw [hmo.envFreeList]
    exact h.next
  · rw [hmo.cpus]
    exact h.gone

/-- The CPU goes on with another environment. -/
theorem Kernel.Buried.departs {x : Exit} (h : u.Buried e) (hc : u.curenv = none)
    (hd : u.Departs x s') : s'.Buried e := by
  cases hd with
  | run e' d who dir =>
    have hne : e ≠ e' := by
      rintro rfl
      rcases who with hst | hcur
      · exact absurd (h.free.symm.trans hst) (by simp)
      · exact absurd (hc.symm.trans hcur) (by simp)
    have hkept : (u.dispatch e' d).envs e = u.envs e := by
      rw [dispatch_other u hne, descheduled, if_neg (by simp [hc])]
    refine ⟨?_, ?_, h.next, fun c he => ?_⟩
    · rw [hkept]
      exact h.free
    · rw [hkept]
      exact h.dir
    · rw [dispatch_cpus] at he
      by_cases hcn : c = u.cpunum
      · subst hcn
        rw [Function.update_self] at he
        exact hne (Option.some_inj.1 he).symm
      · rw [Function.update_of_ne hcn] at he
        exact h.gone c he
  | halt none idle =>
    refine ⟨h.free, h.dir, h.next, fun c he => ?_⟩
    by_cases hcn : c = u.cpunum
    · subst hcn
      exact absurd ((halt_curenv u).symm.trans he) (by simp)
    · rw [show u.halt.cpus c = u.cpus c by simp [Kernel.halt, setCpu, setCurenv, lcr3, hcn]] at he
      exact h.gone c he
  | monitor => exact h

/-- **The next trap of its CPU ends a zombie.** -/
theorem Kernel.Parted.buried {n : Entry} (h : s.Parted) (hstep : s.Step n s')
    (he : (s.cpus n.cpu).cpuEnv = some e) (hd : (s.envs e).envStatus = .dying) : s'.Buried e := by
  obtain ⟨x, hx, hen⟩ := hstep.goesOn
  obtain ⟨u, hmo, hdep⟩ := hen.collects (h.ready n.cpu) hx.not_panic he hd
  have hstarted := SameCpus.alone (Acts.started (s := n.enter s)).sameCpus h.alone
  have hcur : (n.enter s).started.curenv = some e := (started_curenv _).trans he
  refine ((collected_buried hcur hstarted).mem hmo).departs ?_ hdep
  rw [hmo.curenv]
  exact setCurenv_curenv _ _

/-! ## Whole runs -/

variable {m : Machine} {s₀ : Kernel}

theorem Booted.held {res : Nat → Prop} {fl : List Nat} (h : Booted m res fl s) : s.Held := by
  intro e he
  rcases h.idle e with hst | hst
  · rw [hst] at he
    exact absurd he (by simp)
  · rw [hst] at he
    exact absurd he (by simp)

theorem reaches_parted (hboot : (i386Init m).run m.powerOn = .ok () s₀)
    (hr : Reach Kernel.Step (fun s n => n.Careful s) s₀ s) : s.Parted ∧ s.Held := by
  obtain ⟨res, fl, hb⟩ := i386Init_booted hboot
  exact hr.inv (I := fun s => s.Parted ∧ s.Held) ⟨hb.parted, hb.held⟩ fun _ _ _ h hc hstep =>
    ⟨h.1.step hc hstep, h.2.step h.1 hstep⟩

/-- **What is running or dying is on exactly one CPU**, in every run on any CPUs in any order, as
long as no entry makes an environment runnable or frees it while it is on another CPU; and what is
on a CPU is alive and is not free to run on another one. -/
theorem reaches_held (hboot : (i386Init m).run m.powerOn = .ok () s₀)
    (hr : Reach Kernel.Step (fun s n => n.Careful s) s₀ s) (e : EnvIndex) :
    ((s.envs e).envStatus = .running ∨ (s.envs e).envStatus = .dying →
      ∃! c, (s.cpus c).cpuEnv = some e) ∧
    ∀ c, (s.cpus c).cpuEnv = some e → (s.envs e).envStatus = .running ∨
      (s.envs e).envStatus = .dying ∨ (s.envs e).envStatus = .notRunnable := by
  obtain ⟨hp, hheld⟩ := reaches_parted hboot hr
  refine ⟨fun he => ?_, fun c hc => ?_⟩
  · obtain ⟨c, hc⟩ := hheld e he
    exact ⟨c, hc, fun c' hc' => hp.alone c' c e hc' hc⟩
  · have hbusy := hp.busy c e hc
    cases hst : (s.envs e).envStatus with
    | free => exact absurd hst hbusy.1
    | runnable => exact absurd hst hbusy.2
    | running => exact Or.inl rfl
    | dying => exact Or.inr (Or.inl rfl)
    | notRunnable => exact Or.inr (Or.inr rfl)

theorem reaches_held_spread : ∃ s₀ s,
    (i386Init (busyMachine 1)).run (busyMachine 1).powerOn = .ok () s₀ ∧
    Reach Kernel.Step (fun s n => n.Careful s) s₀ s ∧ ∃! c, (s.cpus c).cpuEnv = some 1 := by
  obtain ⟨s₀, s, hboot, hr, hf, -, -⟩ := boot_spread
  exact ⟨s₀, s, hboot, hr, (reaches_held hboot hr 1).1 (Or.inl hf.child)⟩

/-- Where nothing on a CPU is dying, it is enough to be careful. -/
theorem Entry.Careful.tidy {n : Entry} (h : n.Careful s)
    (hno : ∀ c e, (s.cpus c).cpuEnv = some e → (s.envs e).envStatus ≠ .dying) : n.Tidy s :=
  ⟨h, fun e ⟨c, _, he⟩ hd => absurd hd (hno c e he)⟩

/-- **The first environment destroys its child**, which is on the second CPU. -/
theorem Family.doom (h : Family s .running) (hone : (s.cpus 1).cpuEnv = some 1)
    (hrest : ∀ c, c ≠ 0 → c ≠ 1 → s.cpus c = ⟨.unused, none⟩) :
    ∃ n s', n.Tidy s ∧ s.Step n s' ∧ (s'.envs 1).envStatus = .dying := by
  let id := (s.envs 1).envId
  have hcur : ((callEntry s 3#32 id 0#32).enter s).curenv = some 0 := by
    show (s.cpus 0).cpuEnv = some 0
    rw [h.cpu]
  have hcu := calling_curenv h.cpu 3#32 id 0#32
  have henvs := calling_envs s 3#32 id 0#32
  have hchild : (calling s 3#32 id 0#32).envs 1 = s.envs 1 := by
    rw [henvs, Function.update_of_ne (by decide)]
  have hres : (calling s 3#32 id 0#32).resolve 0 id = some 1 := by
    simp [resolve, id, h.nonzero, h.index, henvs, h.child, h.family]
  -- the child runs, and is not the current environment
  have hmarks : ((calling s 3#32 id 0#32).envs 1).envStatus = .running ∧
      (calling s 3#32 id 0#32).curenv ≠ some 1 := by
    rw [hchild, hcu]
    exact ⟨h.child, by decide⟩
  let t := (calling s 3#32 id 0#32).setEnv 1
    { (calling s 3#32 id 0#32).envs 1 with envStatus := .dying }
  have hrun : (Syscall.envDestroy id).handle.run (calling s 3#32 id 0#32) = .ok 0#32 t := by
    show (sysEnvDestroy id).run _ = _
    rw [sysEnvDestroy_some hcu hres, EStateM.run_bind, envDestroy, run_bind_ok (EStateM.run_get _)]
    simp only [if_pos hmarks]
    rfl
  have hcall : (callOf 3#32 id 0#32).call = some (.envDestroy id) := rfl
  have huser : (callOf 3#32 id 0#32).tfCs &&& 3#32 = 3#32 := by
    show (gdUt ||| 3#32) &&& 3#32 = 3#32
    decide
  have hself : t.envs 0 = { s.envs 0 with envTf := callOf 3#32 id 0#32 } := by
    rw [setEnv_envs, Function.update_of_ne (by decide), henvs, Function.update_self]
  obtain ⟨d, hd⟩ := h.dirs 0 (by simp [h.parent])
  obtain ⟨s', hret, -, hother, -⟩ :=
    trap_returns (s := (callEntry s 3#32 id 0#32).enter s) huser hcall
    hcur h.parent hrun hcu (by rw [hself]; exact h.parent) (by rw [hself]; exact hd)
  have hen : (callEntry s 3#32 id 0#32).Enabled s := ⟨by simp [callEntry, h.cpu], huser⟩
  have hcareful : (callEntry s 3#32 id 0#32).Careful s := by
    rintro e ⟨c, hc, he⟩
    obtain rfl : e = 1 := by
      by_cases hc1 : c = 1
      · subst hc1
        exact Option.some_inj.1 (he.symm.trans hone)
      · rw [hrest c hc hc1] at he
        exact absurd he (by simp)
    refine ⟨?_, ?_⟩
    · rintro (hharm | ⟨cur, c, -, -, hcall', envid, rfl, -⟩)
      · exact hharm.elim
      · exact absurd (hcall.symm.trans hcall') (by simp)
    · rintro (hharm | ⟨cur, c, hcur', -, -, -, hidle⟩)
      · exact hharm.elim
      · obtain rfl : 0 = cur := Option.some_inj.1 (hcur.symm.trans hcur')
        exact hidle hmarks.1
  refine ⟨callEntry s 3#32 id 0#32, s', hcareful.tidy fun c e he => ?_, Or.inl ⟨hen, hret⟩, ?_⟩
  · by_cases hc0 : c = 0
    · subst hc0
      rw [h.cpu] at he
      obtain rfl : 0 = e := Option.some_inj.1 he
      simp [h.parent]
    · by_cases hc1 : c = 1
      · subst hc1
        obtain rfl : 1 = e := Option.some_inj.1 (hone.symm.trans he)
        simp [h.child]
      · rw [hrest c hc0 hc1] at he
        exact absurd he (by simp)
  · rw [hother 1 (by decide), setEnv_envs, Function.update_self]

/-- A child is destroyed while it runs on the second CPU. -/
theorem boot_zombie : ∃ s₀ s, (i386Init (busyMachine 1)).run (busyMachine 1).powerOn = .ok () s₀ ∧
    Reach Kernel.Step (fun s n => n.Tidy s) s₀ s ∧ (s.envs 1).envStatus = .dying := by
  obtain ⟨s₀, n₁, s₁, hboot, hstep₁, hcareful₁, h₁⟩ := boot_single
  obtain ⟨res, fl, hb⟩ := i386Init_booted hboot
  obtain ⟨n₂, s₂, hn₂, hstep₂, h₂, hcpus₂⟩ := h₁.fork
  obtain ⟨n₃, s₃, hn₃, hstep₃, h₃, hcpus₃⟩ := h₂.wake (by simp)
  have hrest : ∀ c, c ≠ 0 → s₃.cpus c = ⟨.unused, none⟩ := by
    intro c hc
    rw [hcpus₃, hcpus₂]
    exact h₁.rest c hc
  obtain ⟨n₄, s₄, hcareful₄, hstep₄, h₄, hone, hcpus₄⟩ :=
    h₃.spread (c := 1) (by decide) (hrest 1 (by decide))
  obtain ⟨n₅, s₅, htidy₅, hstep₅, hd⟩ := h₄.doom hone fun c h0 h1 => by
    rw [hcpus₄ c h1]
    exact hrest c h0
  -- until the child is destroyed, the first environment is the only one that is on a CPU
  have hno : ∀ s : Kernel, s.cpus = s₁.cpus → (s.envs 0).envStatus = .running →
      ∀ c e, (s.cpus c).cpuEnv = some e → (s.envs e).envStatus ≠ .dying := by
    intro s hcpus hrun c e he
    rw [hcpus] at he
    by_cases hc : c = 0
    · subst hc
      rw [h₁.cpu] at he
      obtain rfl : 0 = e := Option.some_inj.1 he
      simp [hrun]
    · rw [h₁.rest c hc] at he
      exact absurd he (by simp)
  have hcareful₂ : n₂.Careful s₁ := careful_alone hn₂ fun c hc => by rw [h₁.rest c hc]
  have hcareful₃ : n₃.Careful s₂ :=
    careful_alone hn₃ fun c hc => by rw [hcpus₂, h₁.rest c hc]
  have hr₁ : Reach Kernel.Step (fun s n => n.Tidy s) s₀ s₁ :=
    .tail .refl (hcareful₁.tidy fun c e he => absurd ((hb.cpus c).symm.trans he) (by simp)) hstep₁
  have hr₂ := hr₁.tail (hcareful₂.tidy (hno s₁ rfl h₁.parent)) hstep₂
  have hr₃ := hr₂.tail (hcareful₃.tidy (hno s₂ hcpus₂ h₂.parent)) hstep₃
  have hr₄ := hr₃.tail (hcareful₄.tidy (hno s₃ (hcpus₃.trans hcpus₂) h₃.parent)) hstep₄
  exact ⟨s₀, s₅, hboot, hr₄.tail htidy₅ hstep₅, hd⟩

end Jos
