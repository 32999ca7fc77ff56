import Jos.Stale

/-!
# Several CPUs

The scheduler takes an environment for free to run if its status is `ENV_RUNNABLE`, so an
environment stays on one CPU as long as no CPU makes another one's environment runnable, or frees
it.  `sys_env_set_status` does the first without asking.  `env_destroy` frees an environment that is
on another CPU when it is not marked as running there, and the slot may be allocated again.

As long as no entry does either of these, no two CPUs have the same environment.
-/

set_option autoImplicit false

namespace Jos

open Kernel Command

variable {s s' t u : Kernel} {e : EnvIndex} {ok : Act → Prop}

/-! ## Environments of other CPUs -/

/-- The environment is on another CPU than `c`. -/
def Kernel.Elsewhere (s : Kernel) (c : Cpu) (e : EnvIndex) : Prop :=
  ∃ c', c' ≠ c ∧ (s.cpus c').cpuEnv = some e

/-- What the kernel relies on: an environment that is on another CPU is not made runnable, and not
freed. -/
def Entry.Careful (n : Entry) (s : Kernel) : Prop :=
  ∀ e, s.Elsewhere n.cpu e → ¬ n.Causes s (.status e .runnable) ∧ ¬ n.Causes s (.free e)

/-- In the middle of an entry. -/
structure Kernel.Exclusive (s : Kernel) : Prop where
  sane : s.Sane
  list : s.EnvList
  /-- What is on another CPU is neither free nor free to run. -/
  busy : ∀ e, s.Elsewhere s.cpunum e →
    (s.envs e).envStatus ≠ .free ∧ (s.envs e).envStatus ≠ .runnable
  /-- No environment is on two CPUs. -/
  alone : ∀ c c' e, (s.cpus c).cpuEnv = some e → (s.cpus c').cpuEnv = some e → c = c'

/-- Other CPUs have what they had, and this one has what it had or nothing. -/
def Kernel.SameCpus (s s' : Kernel) : Prop :=
  s'.cpunum = s.cpunum ∧ (∀ c, c ≠ s.cpunum → s'.cpus c = s.cpus c) ∧
    ∀ e, s'.curenv = some e → s.curenv = some e

theorem Kernel.SameCpus.refl (s : Kernel) : s.SameCpus s := ⟨rfl, fun _ _ => rfl, fun _ h => h⟩

theorem Kernel.SameCpus.trans (h : s.SameCpus t) (h' : t.SameCpus u) : s.SameCpus u := by
  refine ⟨h'.1.trans h.1, fun c hc => ?_, fun e he => h.2.2 e (h'.2.2 e he)⟩
  rw [h'.2.1 c (by rwa [h.1]), h.2.1 c hc]

theorem Kernel.SameCpus.elsewhere (h : s.SameCpus s') :
    s'.Elsewhere s'.cpunum e ↔ s.Elsewhere s.cpunum e := by
  rw [Elsewhere, Elsewhere, h.1]
  refine exists_congr fun c => and_congr_right fun hc => ?_
  rw [h.2.1 c hc]

theorem Kernel.SameCpus.alone (h : s.SameCpus s')
    (halone : ∀ c c' e, (s.cpus c).cpuEnv = some e → (s.cpus c').cpuEnv = some e → c = c') :
    ∀ c c' e, (s'.cpus c).cpuEnv = some e → (s'.cpus c').cpuEnv = some e → c = c' := by
  have hback : ∀ c e, (s'.cpus c).cpuEnv = some e → (s.cpus c).cpuEnv = some e := by
    intro c e he
    by_cases hc : c = s.cpunum
    · subst hc
      refine h.2.2 e ?_
      rw [curenv, h.1]
      exact he
    · rwa [h.2.1 c hc] at he
  exact fun c c' e he he' => halone c c' e (hback c e he) (hback c' e he')

/-- No act touches another CPU. -/
theorem Kernel.Acts.sameCpus {a : Act} (ha : s.Acts a s') : s.SameCpus s' := by
  cases ha with
  | mem only =>
    exact ⟨only.cpunum, fun c _ => by rw [only.cpus], fun e he => by rwa [only.curenv] at he⟩
  | exit e current =>
    refine ⟨rfl, fun c hc => Function.update_of_ne hc _ _, fun e' he' => ?_⟩
    rw [setCurenv_curenv] at he'
    exact absurd he' (by simp)
  | started =>
    exact ⟨rfl, fun c hc => Function.update_of_ne hc _ _, fun e' he' =>
      (started_curenv s).symm.trans he'⟩
  | _ => exact SameCpus.refl s

theorem Kernel.Path.sameCpus (h : Path ok s t) : s.SameCpus t :=
  h.inv (I := fun t => s.SameCpus t) (SameCpus.refl s) fun _ _ _ hs _ ha => hs.trans ha.sameCpus

/-! ## Acts -/

/-- A change to one environment, which is on no other CPU or keeps away from being runnable. -/
theorem Kernel.Exclusive.update (h : s.Exclusive) {a : Act} (ha : s.Acts a s') {env : Env}
    (henvs : s'.envs = Function.update s.envs e env)
    (hself : s.Elsewhere s.cpunum e → env.envStatus ≠ .free ∧ env.envStatus ≠ .runnable) :
    s'.Exclusive := by
  refine ⟨h.sane.act ha, h.list.act h.sane ha, fun e' he' => ?_, ha.sameCpus.alone h.alone⟩
  rw [ha.sameCpus.elsewhere] at he'
  rw [henvs]
  by_cases hee : e' = e
  · subst hee
    rw [Function.update_self]
    exact hself he'
  · rw [Function.update_of_ne hee]
    exact h.busy e' he'

/-- **Every careful act keeps the invariant.** -/
theorem Kernel.Exclusive.act (h : s.Exclusive) {a : Act} (ha : s.Acts a s')
    (hcareful : ∀ e, s.Elsewhere s.cpunum e → a ≠ .status e .runnable ∧ a ≠ .free e) :
    s'.Exclusive := by
  have hstill : s'.envs = s.envs → s'.Exclusive := by
    intro henvs
    refine ⟨h.sane.act ha, h.list.act h.sane ha, fun e' he' => ?_, ha.sameCpus.alone h.alone⟩
    rw [ha.sameCpus.elsewhere] at he'
    rw [henvs]
    exact h.busy e' he'
  cases ha with
  | mem only => exact hstill only.envs
  | regs e tf upcall => exact h.update (.regs e tf upcall) rfl (h.busy e)
  | @status e st live settable =>
    refine h.update (.status e live settable) rfl fun he => ?_
    rcases settable with rfl | rfl
    · exact absurd rfl (hcareful e he).1
    · simp
  | dying e running other =>
    refine h.update (.dying e running other) rfl fun _ => ?_
    simp
  | alloc e p parentId head =>
    -- a slot on the free list is on no CPU
    refine h.update (.alloc e p parentId head) rfl fun he => ?_
    exact absurd (h.list.head_free head) (h.busy e he).1
  | free e live idle other =>
    refine h.update (.free e live idle other) rfl fun he => ?_
    exact absurd rfl (hcareful e he).2
  | exit e current =>
    refine h.update (.exit e current) rfl fun he => ?_
    obtain ⟨c, hc, hce⟩ := he
    exact absurd (h.alone c s.cpunum e hce current) hc
  | started => exact hstill rfl
  | unload => exact hstill rfl

theorem Kernel.Exclusive.path (h : s.Exclusive) (hp : Path ok s t)
    (hcareful : ∀ e, s.Elsewhere s.cpunum e → ¬ ok (.status e .runnable) ∧ ¬ ok (.free e)) :
    t.Exclusive := by
  have hinv := hp.inv (I := fun t => t.Exclusive ∧ s.SameCpus t) ⟨h, SameCpus.refl s⟩ ?_
  · exact hinv.1
  · rintro t a t' ⟨ht, hcpus⟩ good ha
    refine ⟨ht.act ha fun e he => ?_, hcpus.trans ha.sameCpus⟩
    rw [hcpus.elsewhere] at he
    refine ⟨?_, ?_⟩
    · rintro rfl
      exact (hcareful e he).1 good
    · rintro rfl
      exact (hcareful e he).2 good

/-! ## Entries -/

/-- Between two entries. -/
structure Kernel.Parted (s : Kernel) : Prop where
  dirs : s.LiveDirs
  list : s.EnvList
  busy : ∀ c e, (s.cpus c).cpuEnv = some e →
    (s.envs e).envStatus ≠ .free ∧ (s.envs e).envStatus ≠ .runnable
  alone : ∀ c c' e, (s.cpus c).cpuEnv = some e → (s.cpus c').cpuEnv = some e → c = c'
  halted : ∀ c, (s.cpus c).cpuStatus = .halted → (s.cpus c).cpuEnv = none

theorem Kernel.Parted.ready (h : s.Parted) (c : Cpu) : s.Ready c :=
  ⟨h.dirs, fun e he => (h.busy c e he).1, h.halted c⟩

theorem Kernel.Parted.enter (h : s.Parted) (n : Entry) : (n.enter s).Exclusive :=
  ⟨⟨h.dirs, fun e he => (h.busy n.cpu e he).1⟩, h.list, fun e ⟨c, _, hc⟩ => h.busy c e hc, h.alone⟩

/-- The environment that is run is on no other CPU, and those that are keep their status. -/
theorem Kernel.Exclusive.dispatch (h : s.Exclusive) {d : Nat}
    (who : (s.envs e).envStatus = .runnable ∨ s.curenv = some e) {c : Cpu} (hc : c ≠ s.cpunum)
    {e' : EnvIndex} (he' : (s.cpus c).cpuEnv = some e') :
    e' ≠ e ∧ (s.dispatch e d).envs e' = s.envs e' := by
  have hbusy := h.busy e' ⟨c, hc, he'⟩
  have hcur : s.curenv ≠ some e' := fun hcur => hc (h.alone c s.cpunum e' he' hcur)
  have hne : e' ≠ e := by
    rintro rfl
    rcases who with hst | hst
    · exact hbusy.2 hst
    · exact hcur hst
  refine ⟨hne, ?_⟩
  rw [dispatch_other s hne, descheduled, if_neg fun h => hcur h.1]

/-- **Leaving the kernel.** -/
theorem Kernel.Exclusive.departs {x : Exit} (h : u.Exclusive) (hd : u.Departs x s')
    (hx : x.GoesOn) (hst : (u.cpus u.cpunum).cpuStatus = .started)
    (hhalted : ∀ c, c ≠ u.cpunum → (u.cpus c).cpuStatus = .halted → (u.cpus c).cpuEnv = none) :
    s'.Parted := by
  have hsane := h.sane.departs hd
  have hlist := h.list.departs h.sane hd
  cases hd with
  | run e d who dir =>
    have hself : ((u.dispatch e d).cpus u.cpunum).cpuEnv = some e := by
      rw [dispatch_cpus, Function.update_self]
    have hother : ∀ c, c ≠ u.cpunum → (u.dispatch e d).cpus c = u.cpus c := fun c hc => by
      rw [dispatch_cpus, Function.update_of_ne hc]
    refine ⟨hsane.dirs, hlist, fun c e' he' => ?_, fun c c' e' he' hce' => ?_, fun c hc => ?_⟩
    · by_cases hc : c = u.cpunum
      · subst hc
        obtain rfl : e = e' := Option.some_inj.1 (hself.symm.trans he')
        simp [dispatch_self, dispatchedEnv]
      · rw [hother c hc] at he'
        rw [(h.dispatch who hc he').2]
        exact h.busy e' ⟨c, hc, he'⟩
    · by_cases hc : c = u.cpunum
      · by_cases hc' : c' = u.cpunum
        · rw [hc, hc']
        · subst hc
          rw [hother c' hc'] at hce'
          obtain rfl : e = e' := Option.some_inj.1 (hself.symm.trans he')
          exact absurd rfl (h.dispatch (d := d) who hc' hce').1
      · rw [hother c hc] at he'
        by_cases hc' : c' = u.cpunum
        · subst hc'
          obtain rfl : e = e' := Option.some_inj.1 (hself.symm.trans hce')
          exact absurd rfl (h.dispatch (d := d) who hc he').1
        · rw [hother c' hc'] at hce'
          exact h.alone c c' e' he' hce'
    · by_cases hcn : c = u.cpunum
      · subst hcn
        rw [dispatch_cpus, Function.update_self, hst] at hc
        exact absurd hc (by simp)
      · rw [hother c hcn] at hc ⊢
        exact hhalted c hcn hc
  | halt none idle =>
    have hself : (u.halt.cpus u.cpunum).cpuEnv = .none := halt_curenv u
    have hother : ∀ c, c ≠ u.cpunum → u.halt.cpus c = u.cpus c := fun c hc => by
      simp [Kernel.halt, setCpu, setCurenv, lcr3, hc]
    have hback : ∀ c e', (u.halt.cpus c).cpuEnv = some e' →
        c ≠ u.cpunum ∧ (u.cpus c).cpuEnv = some e' := by
      intro c e' he'
      have hc : c ≠ u.cpunum := by
        rintro rfl
        exact absurd (hself.symm.trans he') (by simp)
      rw [hother c hc] at he'
      exact ⟨hc, he'⟩
    refine ⟨hsane.dirs, hlist, fun c e' he' => ?_, fun c c' e' he' hce' => ?_, fun c hc => ?_⟩
    · exact h.busy e' ⟨c, hback c e' he'⟩
    · exact h.alone c c' e' (hback c e' he').2 (hback c' e' hce').2
    · by_cases hcn : c = u.cpunum
      · rw [hcn]
        exact hself
      · rw [hother c hcn] at hc ⊢
        exact hhalted c hcn hc
  | monitor => exact absurd hx (by simp [Exit.GoesOn])

/-- **A careful entry keeps the CPUs apart.** -/
theorem Kernel.Parted.step {n : Entry} (h : s.Parted) (hcareful : n.Careful s)
    (hstep : s.Step n s') : s'.Parted := by
  obtain ⟨x, hx, hen⟩ : ∃ x : Exit, x.GoesOn ∧ s.Enters n x s' := by
    rcases hstep with hen | hen
    · exact ⟨_, Or.inl rfl, hen⟩
    · exact ⟨_, Or.inr rfl, hen⟩
  have hpanic : ¬ x.IsPanic := by
    rcases hx with rfl | rfl
    · exact id
    · exact id
  obtain ⟨u, hp, hd, hn, hst⟩ := hen.departs (h.ready n.cpu) hpanic
  refine ((h.enter n).path hp hcareful).departs hd hx hst fun c hc hh => ?_
  have hsame := hp.sameCpus.2.1 c (by rwa [hn] at hc)
  rw [hsame] at hh ⊢
  exact h.halted c hh

theorem Booted.parted {m : Machine} {res : Nat → Prop} {fl : List Nat} (h : Booted m res fl s) :
    s.Parted where
  dirs := h.inv.live_dir
  list := h.inv.env_list
  busy c e he := absurd ((h.cpus c).symm.trans he) (by simp)
  alone c _ e he := absurd ((h.cpus c).symm.trans he) (by simp)
  halted c _ := h.cpus c

/-- **No environment is on two CPUs**, in every run on any CPUs in any order, as long as no entry
makes an environment runnable or frees it while it is on another CPU. -/
theorem reaches_alone {m : Machine} {s₀ : Kernel} (hboot : (i386Init m).run m.powerOn = .ok () s₀)
    (hr : Reach Kernel.Step (fun s n => n.Careful s) s₀ s) {c c' : Cpu}
    (he : (s.cpus c).cpuEnv = some e) (he' : (s.cpus c').cpuEnv = some e) : c = c' := by
  obtain ⟨res, fl, hb⟩ := i386Init_booted hboot
  have h : s.Parted := hr.inv (I := Kernel.Parted) hb.parted fun _ _ _ h hc hstep => h.step hc hstep
  exact h.alone c c' e he he'

/-! ## An environment on two CPUs -/

/-- The first environment has the first CPU, and the second is its child. -/
structure Family (s : Kernel) (st : EnvStatus) : Prop where
  cpu : s.cpus 0 = ⟨.started, some 0⟩
  dirs : s.LiveDirs
  parent : (s.envs 0).envStatus = .running
  child : (s.envs 1).envStatus = st
  only : ∀ e, (s.envs e).envStatus = .runnable → e = 1
  index : envx (s.envs 1).envId = 1
  nonzero : (s.envs 1).envId ≠ 0#32
  family : (s.envs 1).envParentId = (s.envs 0).envId

/-- The first CPU enters the kernel with a system call. -/
def callEntry (s : Kernel) (no a1 a2 : Word) : Entry :=
  ⟨0, .user (callOf no a1 a2), 0#32, 0#32, s.mem⟩

variable {st : EnvStatus}

/-- The state in which the kernel handles a system call of the first environment. -/
def calling (s : Kernel) (no a1 a2 : Word) : Kernel :=
  ((callEntry s no a1 a2).enter s).saved 0 (callOf no a1 a2)

theorem calling_envs (s : Kernel) (no a1 a2 : Word) : (calling s no a1 a2).envs =
    Function.update s.envs 0 { s.envs 0 with envTf := callOf no a1 a2 } := rfl

theorem calling_cpus (hcpu : s.cpus 0 = ⟨.started, some 0⟩) (no a1 a2 : Word) :
    (calling s no a1 a2).cpus = s.cpus := by
  show Function.update s.cpus 0 { s.cpus 0 with cpuStatus := .started } = s.cpus
  rw [hcpu]
  simp [← hcpu]

theorem calling_curenv (hcpu : s.cpus 0 = ⟨.started, some 0⟩) (no a1 a2 : Word) :
    (calling s no a1 a2).curenv = some 0 := by
  rw [curenv, calling_cpus hcpu]
  show (s.cpus 0).cpuEnv = some 0
  rw [hcpu]

/-- The family after a system call of the first environment. -/
theorem Family.of_call (hcpu₀ : s.cpus 0 = ⟨.started, some 0⟩)
    (hpar₀ : (s.envs 0).envStatus = .running) {no a1 a2 r : Word} {c : Syscall} {st' : EnvStatus}
    (hcall : (callOf no a1 a2).call = some c)
    (hrun : c.handle.run (calling s no a1 a2) = .ok r t)
    (hcpus : t.cpus = s.cpus) (hcpu : t.cpunum = 0) (hdirs : t.LiveDirs)
    (hpar : (t.envs 0).envStatus = .running) (hst : (t.envs 1).envStatus = st')
    (honly : ∀ e, (t.envs e).envStatus = .runnable → e = 1) (hidx : envx (t.envs 1).envId = 1)
    (hne : (t.envs 1).envId ≠ 0#32) (hfam : (t.envs 1).envParentId = (t.envs 0).envId) :
    ∃ n s', n.cpu = 0 ∧ s.Step n s' ∧ Family s' st' ∧ s'.cpus = s.cpus := by
  have hc : ((callEntry s no a1 a2).enter s).curenv = some 0 := by
    show (s.cpus 0).cpuEnv = some 0
    rw [hcpu₀]
  have hc' : t.curenv = some 0 := by
    rw [curenv, hcpus, hcpu, hcpu₀]
  have huser : (callOf no a1 a2).tfCs &&& 3#32 = 3#32 := by
    show (gdUt ||| 3#32) &&& 3#32 = 3#32
    decide
  obtain ⟨d, hd⟩ := hdirs 0 (by simp [hpar])
  obtain ⟨s', hret, hcpus', hother, tf, runs, cpu, hself⟩ :=
    trap_returns (s := (callEntry s no a1 a2).enter s) huser hcall hc hpar₀ hrun hc' hpar hd
  have h1 : s'.envs 1 = t.envs 1 := hother 1 (by decide)
  have hen : (callEntry s no a1 a2).Enabled s := ⟨by simp [callEntry, hcpu₀], huser⟩
  refine ⟨callEntry s no a1 a2, s', rfl, Or.inl ⟨hen, hret⟩,
    ⟨by rw [hcpus', hcpus, hcpu₀], ?_, ?_, ?_, ?_, ?_, ?_, ?_⟩, hcpus'.trans hcpus⟩
  · intro e he
    by_cases he0 : e = 0
    · subst he0
      rw [hself]
      exact ⟨d, hd⟩
    · rw [hother e he0] at he ⊢
      exact hdirs e he
  · rw [hself]
    exact hpar
  · rw [h1, hst]
  · intro e he
    by_cases he0 : e = 0
    · subst he0
      rw [hself] at he
      exact absurd (hpar.symm.trans he) (by simp)
    · rw [hother e he0] at he
      exact honly e he
  · rw [h1, hidx]
  · rw [h1]
    exact hne
  · rw [h1, hself]
    exact hfam

/-- **The first environment makes its child runnable**, whatever that is doing. -/
theorem Family.wake (h : Family s st) (hlive : st ≠ .free) : ∃ n s', n.cpu = 0 ∧ s.Step n s' ∧
    Family s' .runnable ∧ s'.cpus = s.cpus := by
  have hcu := calling_curenv h.cpu 8#32 (s.envs 1).envId 2#32
  have hcpus := calling_cpus h.cpu 8#32 (s.envs 1).envId 2#32
  have henvs := calling_envs s 8#32 (s.envs 1).envId 2#32
  have hres : (calling s 8#32 (s.envs 1).envId 2#32).resolve 0 (s.envs 1).envId = some 1 := by
    simp [resolve, h.nonzero, h.index, henvs, h.child, hlive, h.family]
  have hset : (Syscall.envSetStatus (s.envs 1).envId 2#32).handle.run
      (calling s 8#32 (s.envs 1).envId 2#32) = _ :=
    sysEnvSetStatus_run hcu hres (show settableStatus 2#32 = some .runnable from rfl)
  have hcall : (callOf 8#32 (s.envs 1).envId 2#32).call =
      some (.envSetStatus (s.envs 1).envId 2#32) := rfl
  refine Family.of_call h.cpu h.parent hcall hset hcpus rfl (fun e he => ?_) ?_ ?_
    (fun e he => ?_) ?_ ?_ ?_
  · by_cases h1 : e = 1
    · subst h1
      simpa [henvs] using h.dirs 1 (by simpa [h.child] using hlive)
    · by_cases h0 : e = 0
      · subst h0
        simpa [henvs] using h.dirs 0 (by simp [h.parent])
      · simp [henvs, h1, h0] at he ⊢
        exact h.dirs e he
  · simp [henvs, h.parent]
  · simp
  · by_cases h1 : e = 1
    · exact h1
    · by_cases h0 : e = 0
      · subst h0
        simp [henvs, h.parent] at he
      · simp [henvs, h1, h0] at he
        exact h.only e he
  · simp [henvs, h.index]
  · simpa [henvs] using h.nonzero
  · simp [henvs, h.family]

/-- **Another CPU comes up** and runs the child, since that is runnable. -/
theorem Family.spread (h : Family s .runnable) {c : Cpu} (hc : c ≠ 0)
    (hcpu : s.cpus c = ⟨.unused, none⟩) : ∃ n s', n.Careful s ∧ s.Step n s' ∧ Family s' .running ∧
      (s'.cpus c).cpuEnv = some 1 ∧ ∀ c', c' ≠ c → s'.cpus c' = s.cpus c' := by
  let n : Entry := ⟨c, .mpMain, 0#32, 0#32, s.mem⟩
  let u := ((n.enter s).lcr3 s.kernPgdir).started
  have hcu : u.curenv = none := by
    refine (started_curenv _).trans ?_
    show (s.cpus c).cpuEnv = none
    rw [hcpu]
  have hdirs : u.LiveDirs := h.dirs
  obtain ⟨e, d, hst, -, -, hrun⟩ := schedYield_runnable (s := u) (e := 1) hdirs h.child
  obtain rfl : e = 1 := h.only e hst
  have hen : n.Enabled s := ⟨by simp [n, hcpu], by simp [n, hcpu]⟩
  have hcpus : ∀ c', c' ≠ c → (u.dispatch 1 d).cpus c' = s.cpus c' := by
    intro c' hc'
    rw [dispatch_cpus, Function.update_of_ne (show c' ≠ u.cpunum from hc')]
    exact Function.update_of_ne hc' _ _
  have hother : ∀ e, e ≠ 1 → (u.dispatch 1 d).envs e = s.envs e := by
    intro e he
    have hno : ¬ (u.curenv = some e ∧ (u.envs e).envStatus = .running) := by simp [hcu]
    rw [dispatch_other u he, descheduled, if_neg hno]
    rfl
  have hself : (u.dispatch 1 d).envs 1 = u.dispatchedEnv 1 := dispatch_self u 1 d
  refine ⟨n, u.dispatch 1 d, fun e _ => ⟨id, id⟩, Or.inl ⟨hen, hrun⟩,
    ⟨?_, ?_, ?_, ?_, ?_, ?_, ?_, ?_⟩, ?_, hcpus⟩
  · rw [hcpus 0 (Ne.symm hc), h.cpu]
  · intro e he
    have hslot := sameSlot_dispatch (s := u) (e := 1) (by rw [hst]; simp) d e
    rw [hslot.2.2.1]
    exact hdirs e (mt hslot.2.2.2.2 he)
  · rw [hother 0 (by decide), h.parent]
  · rw [hself]
    rfl
  · intro e he
    by_contra hne
    rw [hother e hne] at he
    exact hne (h.only e he)
  · rw [hself]
    exact h.index
  · rw [hself]
    exact h.nonzero
  · rw [hself, hother 0 (by decide)]
    exact h.family
  · exact dispatch_curenv u 1 d

/-- The first environment has the CPU, and no other one lives. -/
structure Single (s : Kernel) : Prop where
  cpu : s.cpus 0 = ⟨.started, some 0⟩
  rest : ∀ c, c ≠ 0 → s.cpus c = ⟨.unused, none⟩
  parent : (s.envs 0).envStatus = .running
  only : ∀ e, e ≠ 0 → (s.envs e).envStatus = .free ∧ (s.envs e).envId = 0#32
  dirs : s.LiveDirs
  slot : s.envFreeList = some 1
  page : ∃ p, s.pageFreeList = some p ∧ p < s.npages

/-- Boot, and the first dispatch. -/
theorem boot_single : ∃ s₀ n s, (i386Init (busyMachine 1)).run (busyMachine 1).powerOn = .ok () s₀ ∧
    s₀.Step n s ∧ n.Careful s₀ ∧ Single s := by
  obtain ⟨res, fl, s₀, hboot, hf, hlen⟩ := busyMachine_run (k := 1) (by decide)
  have hcpus : s₀.cpus = Function.update (fun _ => ⟨.unused, none⟩) 0 ⟨.started, none⟩ := hf.cpus
  have hcpu : s₀.cpus 0 = ⟨.started, none⟩ := by rw [hcpus, Function.update_self]
  let n : Entry := ⟨0, .boot, 0#32, 0#32, s₀.mem⟩
  have hdirs : (n.enter s₀).LiveDirs := hf.booted.inv.live_dir
  have hfree : ∀ e : EnvIndex, e ≠ 0 → (s₀.envs e).envStatus = .free ∧ (s₀.envs e).envId = 0#32 :=
    fun e he => hf.free e (Nat.one_le_iff_ne_zero.2 fun h0 => he (Fin.ext h0))
  have hst₀ : ((n.enter s₀).envs 0).envStatus = .runnable := (hf.filled 0 (by decide)).1
  obtain ⟨e, d, hst, -, -, hyield⟩ := schedYield_runnable hdirs hst₀
  obtain rfl : e = 0 := by
    by_contra hne
    exact absurd ((hfree e hne).1.symm.trans hst) (by simp)
  have hcu : (n.enter s₀).curenv = none := by
    show (s₀.cpus 0).cpuEnv = none
    rw [hcpu]
  have hother : ∀ e, e ≠ 0 → ((n.enter s₀).dispatch 0 d).envs e = s₀.envs e := by
    intro e he
    rw [dispatch_other _ he, descheduled, if_neg (by simp [hcu])]
    rfl
  have hself : ((n.enter s₀).dispatch 0 d).envs 0 = (n.enter s₀).dispatchedEnv 0 :=
    dispatch_self _ 0 d
  have hcpus' : ((n.enter s₀).dispatch 0 d).cpus =
      Function.update s₀.cpus 0 { s₀.cpus 0 with cpuEnv := some 0 } := rfl
  refine ⟨s₀, n, (n.enter s₀).dispatch 0 d, hboot, Or.inl ⟨⟨by rw [hcpu], by rw [hcpu]⟩, hyield⟩,
    fun e _ => ⟨id, id⟩, ⟨?_, fun c hc => ?_, ?_, fun e he => ?_, fun e he => ?_, ?_, ?_⟩⟩
  · rw [hcpus', Function.update_self, hcpu]
  · rw [hcpus', Function.update_of_ne hc, hcpus, Function.update_of_ne hc]
  · rw [hself]
    rfl
  · rw [hother e he]
    exact hfree e he
  · have hslot := sameSlot_dispatch (s := n.enter s₀) (e := 0) (by rw [hst]; simp) d e
    rw [hslot.2.2.1]
    exact hdirs e (mt hslot.2.2.2.2 he)
  · exact hf.head (by decide)
  · obtain ⟨p, fl', rfl⟩ := List.exists_cons_of_length_pos (show 0 < fl.length by omega)
    exact ⟨p, hf.booted.inv.chain.1, hf.booted.inv.free_lt List.mem_cons_self⟩

/-- **`sys_exofork`** of the first environment. -/
theorem Single.fork (h : Single s) : ∃ n s', n.cpu = 0 ∧ s.Step n s' ∧ Family s' .notRunnable ∧
    s'.cpus = s.cpus := by
  obtain ⟨p, hp, hlt⟩ := h.page
  obtain ⟨u, hu⟩ : ∃ u, u = calling s 7#32 0#32 0#32 := ⟨_, rfl⟩
  have henvs := calling_envs s 7#32 0#32 0#32
  rw [← hu] at henvs
  have hcpus : (u.forked 0 1 p).cpus = s.cpus := by
    rw [forked_cpus, hu, calling_cpus h.cpu]
  have hcpunum : (u.forked 0 1 p).cpunum = 0 := by
    rw [forked_cpunum, hu]
    rfl
  have hrun : Syscall.exofork.handle.run (calling s 7#32 0#32 0#32) =
      .ok (nextEnvId (u.envs 1).envId 1) (u.forked 0 1 p) := by
    rw [hu]
    exact sysExofork_run (calling_curenv h.cpu 7#32 0#32 0#32) h.slot hp hlt (by decide)
  have hcall : (callOf 7#32 0#32 0#32).call = some .exofork := rfl
  have hforked := forked_envs u 0 1 p
  have h1 : (u.forked 0 1 p).envs 1 =
      u.childEnv 0 1 p := by
    rw [hforked, Function.update_self]
  have h0 : (u.forked 0 1 p).envs 0 =
      { s.envs 0 with envTf := callOf 7#32 0#32 0#32 } := by
    rw [hforked, Function.update_of_ne (by decide), henvs, Function.update_self]
  have hother : ∀ e, e ≠ 0 → e ≠ 1 →
      (u.forked 0 1 p).envs e = s.envs e := by
    intro e he0 he1
    rw [hforked, Function.update_of_ne he1, henvs, Function.update_of_ne he0]
  refine Family.of_call h.cpu h.parent hcall hrun hcpus hcpunum (fun e he => ?_) ?_ ?_
    (fun e he => ?_)
    ?_ ?_ ?_
  · by_cases he1 : e = 1
    · subst he1
      rw [h1]
      exact ⟨p, rfl⟩
    · by_cases he0 : e = 0
      · subst he0
        rw [h0]
        exact h.dirs 0 (by simp [h.parent])
      · rw [hother e he0 he1] at he ⊢
        exact h.dirs e he
  · rw [h0]
    exact h.parent
  · rw [h1]
    rfl
  · by_contra he1
    by_cases he0 : e = 0
    · subst he0
      rw [h0] at he
      exact absurd (h.parent.symm.trans he) (by simp)
    · rw [hother e he0 he1] at he
      exact absurd ((h.only e he0).1.symm.trans he) (by simp)
  · rw [h1]
    exact envx_nextEnvId _ 1
  · rw [h1]
    intro hz
    have hpos := nextEnvId_pos (u.envs 1).envId 1
    rw [show nextEnvId (u.envs 1).envId 1 = 0#32 from hz] at hpos
    exact absurd hpos (by decide)
  · rw [h1, h0]
    show (u.envs 0).envId = (s.envs 0).envId
    rw [henvs, Function.update_self]

/-- An entry of the first CPU is careful while no other CPU has an environment. -/
theorem careful_alone {n : Entry} (hn : n.cpu = 0) (h : ∀ c, c ≠ 0 → (s.cpus c).cpuEnv = none) :
    n.Careful s := by
  rintro e ⟨c, hc, he⟩
  rw [hn] at hc
  exact absurd ((h c hc).symm.trans he) (by simp)

/-- Two environments on two CPUs: the first environment makes a child and lets it run, and the
second CPU takes it. -/
theorem boot_spread : ∃ s₀ s, (i386Init (busyMachine 1)).run (busyMachine 1).powerOn = .ok () s₀ ∧
    Reach Kernel.Step (fun s n => n.Careful s) s₀ s ∧ Family s .running ∧
    (s.cpus 1).cpuEnv = some 1 ∧ ∀ c, c ≠ 0 → c ≠ 1 → s.cpus c = ⟨.unused, none⟩ := by
  obtain ⟨s₀, n₁, s₁, hboot, hstep₁, hcareful₁, h₁⟩ := boot_single
  obtain ⟨n₂, s₂, hn₂, hstep₂, h₂, hcpus₂⟩ := h₁.fork
  obtain ⟨n₃, s₃, hn₃, hstep₃, h₃, hcpus₃⟩ := h₂.wake (by simp)
  have hrest : ∀ c, c ≠ 0 → s₃.cpus c = ⟨.unused, none⟩ := by
    intro c hc
    rw [hcpus₃, hcpus₂]
    exact h₁.rest c hc
  have hcareful₂ : n₂.Careful s₁ := careful_alone hn₂ fun c hc => by rw [h₁.rest c hc]
  have hcareful₃ : n₃.Careful s₂ :=
    careful_alone hn₃ fun c hc => by rw [hcpus₂, h₁.rest c hc]
  obtain ⟨n₄, s₄, hcareful₄, hstep₄, h₄, hone, hcpus₄⟩ :=
    h₃.spread (c := 1) (by decide) (hrest 1 (by decide))
  refine ⟨s₀, s₄, hboot, ?_, h₄, hone, fun c h0 h1 => ?_⟩
  · have hr₁ : Reach Kernel.Step (fun s n => n.Careful s) s₀ s₁ := .tail .refl hcareful₁ hstep₁
    have hr₃ := (hr₁.tail hcareful₂ hstep₂).tail hcareful₃ hstep₃
    exact hr₃.tail hcareful₄ hstep₄
  · rw [hcpus₄ c h1]
    exact hrest c h0

theorem reaches_alone_spread : ∃ s₀ s,
    (i386Init (busyMachine 1)).run (busyMachine 1).powerOn = .ok () s₀ ∧
    Reach Kernel.Step (fun s n => n.Careful s) s₀ s ∧ (s.cpus 1).cpuEnv = some 1 ∧
    ∀ c, (s.cpus c).cpuEnv = some 1 → 1 = c := by
  obtain ⟨s₀, s, hboot, hr, -, hone, -⟩ := boot_spread
  exact ⟨s₀, s, hboot, hr, hone, fun c hc => reaches_alone hboot hr hone hc⟩

/-- **An environment on two CPUs.**  The first environment makes its child runnable once more, while
that is on the second CPU: the third CPU takes it as well. -/
theorem reaches_twice : ∃ (m : Machine) (s₀ s : Kernel),
    (i386Init m).run m.powerOn = .ok () s₀ ∧ Reach Kernel.Step (fun _ _ => True) s₀ s ∧
      (s.cpus 1).cpuEnv = some 1 ∧ (s.cpus 2).cpuEnv = some 1 := by
  obtain ⟨s₀, s₁, hboot, hr, h₁, hone, hrest⟩ := boot_spread
  obtain ⟨n₂, s₂, -, hstep₂, h₂, hcpus₂⟩ := h₁.wake (by simp)
  have hunused : s₂.cpus 2 = ⟨.unused, none⟩ := by
    rw [hcpus₂]
    exact hrest 2 (by decide) (by decide)
  obtain ⟨n₃, s₃, -, hstep₃, -, htwo, hcpus₃⟩ := h₂.spread (c := 2) (by decide) hunused
  refine ⟨busyMachine 1, s₀, s₃, hboot, ?_, ?_, htwo⟩
  · have hany := hr.mono fun _ _ _ _ hstep => (⟨trivial, hstep⟩ : True ∧ _)
    exact (hany.tail trivial hstep₂).tail trivial hstep₃
  · rw [hcpus₃ 1 (by decide), hcpus₂]
    exact hone

end Jos
