import Jos.Act
import Jos.Alloc.Create

/-!
# One CPU

A run on one CPU.  At any moment, also in the middle of an entry, an environment that is running is
the current one, and none is dying: `env_destroy` marks only what runs elsewhere.  So when
`env_pop_tf` is reached, exactly the current environment is running.

What is said here about `env_free_list` holds on any number of CPUs.
-/

set_option autoImplicit false

namespace Jos

open Kernel Command

variable {s s' t u : Kernel} {e cur : EnvIndex} {ok : Act → Prop}

/-! ## The free list -/

/-- `env_free_list` leads through exactly the free environments. -/
def Kernel.EnvList (s : Kernel) : Prop :=
  ∃ el, Chain (fun e => (s.envs e).envLink) s.envFreeList el ∧
    ∀ e, e ∈ el ↔ (s.envs e).envStatus = .free

namespace Kernel.EnvList

theorem of_envs (h : s.EnvList) (hlist : s'.envFreeList = s.envFreeList)
    (henvs : ∀ e, (s'.envs e).envLink = (s.envs e).envLink ∧
      ((s'.envs e).envStatus = .free ↔ (s.envs e).envStatus = .free)) : s'.EnvList := by
  obtain ⟨el, hc, hm⟩ := h
  refine ⟨el, ?_, fun e => (hm e).trans (henvs e).2.symm⟩
  rw [hlist]
  exact hc.congr fun e _ => (henvs e).1

theorem setEnv (h : s.EnvList) {env : Env} (hlink : env.envLink = (s.envs e).envLink)
    (hst : env.envStatus = .free ↔ (s.envs e).envStatus = .free) : (s.setEnv e env).EnvList := by
  refine h.of_envs rfl fun e' => ?_
  by_cases hee : e' = e
  · subst hee
    simp [hlink, hst]
  · simp [hee]

theorem head_free (h : s.EnvList) (he : s.envFreeList = some e) : (s.envs e).envStatus = .free := by
  obtain ⟨el, hc, hm⟩ := h
  rw [he] at hc
  obtain ⟨l, rfl, -⟩ := hc.exists_cons
  exact (hm e).1 List.mem_cons_self

theorem allocated (h : s.EnvList) (he : s.envFreeList = some e) (p : Nat) (parentId : Word) :
    (s.allocated e p parentId).EnvList := by
  obtain ⟨el, hc, hm⟩ := h
  rw [he] at hc
  obtain ⟨l, rfl, hc'⟩ := hc.exists_cons
  have hel : e ∉ l := (List.nodup_cons.1 hc.nodup).1
  refine ⟨l, hc'.congr fun b hb => ?_, fun e' => ?_⟩
  · have hbe : b ≠ e := by
      rintro rfl
      exact hel hb
    simp [Kernel.allocated, hbe]
  · by_cases hee : e' = e
    · subst hee
      simp [Kernel.allocated, allocatedEnv, hel]
    · simp only [Kernel.allocated, Function.update_of_ne hee, ← hm e', List.mem_cons, hee,
        false_or]

theorem freed (h : s.EnvList) (hlive : (s.envs e).envStatus ≠ .free) : (s.freed e).EnvList := by
  obtain ⟨el, hc, hm⟩ := h
  have hel : e ∉ el := mt (hm e).1 hlive
  have hlink : (fun e' => ((s.freed e).envs e').envLink) =
      Function.update (fun e' => (s.envs e').envLink) e s.envFreeList := by
    funext e'
    by_cases hee : e' = e
    · subst hee
      simp [Kernel.freed, freedEnv]
    · simp [Kernel.freed, hee]
  refine ⟨e :: el, ?_, fun e' => ?_⟩
  · rw [hlink]
    exact hc.push hel
  · by_cases hee : e' = e
    · subst hee
      simp [Kernel.freed, freedEnv]
    · simp only [Kernel.freed, Function.update_of_ne hee, ← hm e', List.mem_cons, hee, false_or]

/-- **Every act keeps `env_free_list` in order.** -/
theorem act (h : s.EnvList) (hs : s.Sane) {a : Act} (ha : s.Acts a s') : s'.EnvList := by
  cases ha with
  | mem only =>
    obtain ⟨m, pg, fl, tl, ad, o, rfl⟩ := only.exists_eq
    exact h
  | regs e tf upcall => exact h.setEnv rfl Iff.rfl
  | @status e st live settable =>
    refine h.setEnv rfl (iff_of_false ?_ live)
    rcases settable with rfl | rfl
    · simp
    · simp
  | dying e running other => exact h.setEnv rfl (iff_of_false (by simp) (by simp [running]))
  | alloc e p parentId head => exact h.allocated head p parentId
  | free e live idle other => exact h.freed live
  | exit e current => exact h.freed (hs.cur e current)
  | started => exact h
  | unload => exact h

end Kernel.EnvList

theorem Kernel.Path.list (h : Path ok s t) (hs : s.Sane) (hl : s.EnvList) : t.EnvList :=
  (h.inv (I := fun t => t.Sane ∧ t.EnvList) ⟨hs, hl⟩ fun _ _ _ ht _ ha =>
    ⟨ht.1.act ha, ht.2.act ht.1 ha⟩).2

/-! ## The invariant -/

/-- In the middle of an entry on the only CPU. -/
structure Kernel.Solo (s : Kernel) : Prop where
  sane : s.Sane
  list : s.EnvList
  /-- Only the current environment may be running. -/
  running : ∀ e, (s.envs e).envStatus = .running → s.curenv = some e
  dying : ∀ e, (s.envs e).envStatus ≠ .dying

/-- A change to one environment. -/
theorem Kernel.Solo.update (h : s.Solo) (hsane : s'.Sane) (hlist : s'.EnvList) {env : Env}
    (henvs : s'.envs = Function.update s.envs e env)
    (hself : env.envStatus = .running → s'.curenv = some e) (hdying : env.envStatus ≠ .dying)
    (hother : ∀ e', e' ≠ e → s.curenv = some e' → s'.curenv = some e') : s'.Solo where
  sane := hsane
  list := hlist
  running e' he' := by
    rw [henvs] at he'
    by_cases hee : e' = e
    · subst hee
      rw [Function.update_self] at he'
      exact hself he'
    · rw [Function.update_of_ne hee] at he'
      exact hother e' hee (h.running e' he')
  dying e' := by
    rw [henvs]
    by_cases hee : e' = e
    · subst hee
      rwa [Function.update_self]
    · rw [Function.update_of_ne hee]
      exact h.dying e'

/-- **Every act keeps the invariant.** -/
theorem Kernel.Solo.act (h : s.Solo) {a : Act} (ha : s.Acts a s') : s'.Solo := by
  have hsane := h.sane.act ha
  have hlist := h.list.act h.sane ha
  cases ha with
  | mem only =>
    obtain ⟨m, pg, fl, tl, ad, o, rfl⟩ := only.exists_eq
    exact ⟨hsane, hlist, h.running, h.dying⟩
  | regs e tf upcall => exact h.update hsane hlist rfl (h.running e) (h.dying e) fun _ _ hc => hc
  | status e live settable =>
    refine h.update hsane hlist rfl (fun hr => ?_) ?_ fun _ _ hc => hc
    · rcases settable with rfl | rfl
      · exact absurd hr (by simp)
      · exact absurd hr (by simp)
    · rcases settable with rfl | rfl
      · simp
      · simp
  | dying e running other => exact absurd (h.running e running) other
  | alloc e p parentId head =>
    refine h.update hsane hlist rfl (fun hr => ?_) ?_ fun _ _ hc => hc
    · simp [allocatedEnv] at hr
    · simp [allocatedEnv]
  | free e live idle other =>
    refine h.update hsane hlist rfl (fun hr => ?_) ?_ fun _ _ hc => hc
    · simp [freedEnv] at hr
    · simp [freedEnv]
  | exit e current =>
    -- what was running is gone
    refine h.update hsane hlist rfl (fun hr => ?_) ?_ fun e' hne hc => ?_
    · simp [freedEnv] at hr
    · simp [freedEnv]
    · exact absurd (Option.some_inj.1 (hc.symm.trans current)) hne
  | started => exact ⟨hsane, hlist, fun e he => (started_curenv s).trans (h.running e he), h.dying⟩
  | unload => exact ⟨hsane, hlist, h.running, h.dying⟩

theorem Kernel.Solo.path (h : s.Solo) (hp : Path ok s t) : t.Solo :=
  hp.inv h fun _ _ _ h _ ha => h.act ha

/-! ## Leaving the kernel -/

/-- What holds when `env_pop_tf` is reached. -/
structure Kernel.Resumes (s : Kernel) (e : EnvIndex) : Prop where
  /-- The environment that is resumed is the current one. -/
  cur : s.curenv = some e
  running : (s.envs e).envStatus = .running
  alone : ∀ e', (s.envs e').envStatus = .running → e' = e
  dying : ∀ e', (s.envs e').envStatus ≠ .dying
  /-- Its page directory is loaded. -/
  dir : (s.envs e).envPgdir = some (s.cr3 s.cpunum)
  /-- `env_free_list` is a list, and the environment is not on it. -/
  list : ∃ el, Chain (fun e => (s.envs e).envLink) s.envFreeList el ∧ e ∉ el

theorem dispatch_self (s : Kernel) (e : EnvIndex) (d : Nat) :
    (s.dispatch e d).envs e = s.dispatchedEnv e := Function.update_self _ _ _

theorem dispatch_other (s : Kernel) {e e' : EnvIndex} (hne : e' ≠ e) (d : Nat) :
    (s.dispatch e d).envs e' = s.descheduled e' := Function.update_of_ne hne _ _

theorem dispatch_cpus (s : Kernel) (e : EnvIndex) (d : Nat) : (s.dispatch e d).cpus =
    Function.update s.cpus s.cpunum { s.cpus s.cpunum with cpuEnv := some e } := rfl

/-- The environment is as before, up to registers and status, and it is free if it was. -/
def Kernel.SameSlot (s s' : Kernel) (e : EnvIndex) : Prop :=
  (s'.envs e).envId = (s.envs e).envId ∧ (s'.envs e).envLink = (s.envs e).envLink ∧
    (s'.envs e).envPgdir = (s.envs e).envPgdir ∧
    ((s'.envs e).envStatus = .free ↔ (s.envs e).envStatus = .free)

/-- Running a live environment. -/
theorem sameSlot_dispatch (hlive : (s.envs e).envStatus ≠ .free) (d : Nat) (e' : EnvIndex) :
    s.SameSlot (s.dispatch e d) e' := by
  by_cases hee : e' = e
  · subst hee
    simp [SameSlot, dispatch_self, dispatchedEnv, hlive]
  · rw [SameSlot, dispatch_other s hee, Kernel.descheduled]
    split
    · rename_i hc
      simp [hc.2]
    · exact ⟨rfl, rfl, rfl, Iff.rfl⟩

/-- Leaving the kernel. -/
theorem Kernel.Departs.env {x : Exit} (hd : u.Departs x s') (hs : u.Sane) (e : EnvIndex) :
    u.SameSlot s' e := by
  cases hd with
  | run e' d who dir =>
    refine sameSlot_dispatch ?_ d e
    rcases who with hst | hc
    · simp [hst]
    · exact hs.cur e' hc
  | halt none idle => exact ⟨rfl, rfl, rfl, Iff.rfl⟩
  | monitor => exact ⟨rfl, rfl, rfl, Iff.rfl⟩

theorem Kernel.EnvList.of_slots (h : s.EnvList) (hlist : s'.envFreeList = s.envFreeList)
    (hslot : ∀ e, s.SameSlot s' e) : s'.EnvList :=
  h.of_envs hlist fun e => ⟨(hslot e).2.1, (hslot e).2.2.2⟩

theorem Kernel.Sane.of_slots (h : s.Sane) (hslot : ∀ e, s.SameSlot s' e)
    (hcur : ∀ e, s'.curenv = some e → (s'.envs e).envStatus ≠ .free) : s'.Sane := by
  refine ⟨fun e he => ?_, hcur⟩
  rw [(hslot e).2.2.1]
  exact h.dirs e (mt (hslot e).2.2.2.2 he)

theorem dispatch_live (s : Kernel) (e : EnvIndex) (d : Nat) :
    ∀ c, (s.dispatch e d).curenv = some c → ((s.dispatch e d).envs c).envStatus ≠ .free := by
  intro c hc
  obtain rfl : e = c := Option.some_inj.1 ((dispatch_curenv s e d).symm.trans hc)
  simp [dispatch_self, dispatchedEnv]

theorem Kernel.EnvList.departs {x : Exit} (h : u.EnvList) (hs : u.Sane) (hd : u.Departs x s') :
    s'.EnvList := by
  refine h.of_slots ?_ (hd.env hs)
  cases hd with
  | run e d who dir => rfl
  | halt none idle => rfl
  | monitor => rfl

theorem halt_curenv (s : Kernel) : s.halt.curenv = none := by
  simp [Kernel.halt, curenv, setCpu, setCurenv, lcr3]

theorem Kernel.Sane.departs {x : Exit} (h : u.Sane) (hd : u.Departs x s') : s'.Sane := by
  refine h.of_slots (hd.env h) ?_
  cases hd with
  | run e d who dir => exact dispatch_live u e d
  | halt none idle => exact fun e he => absurd ((halt_curenv u).symm.trans he) (by simp)
  | monitor => exact h.cur

/-- An environment that has lost the CPU is not running any more. -/
theorem Kernel.Solo.descheduled (h : s.Solo) (e : EnvIndex) :
    (s.descheduled e).envStatus ≠ .running ∧ (s.descheduled e).envStatus ≠ .dying := by
  rw [Kernel.descheduled]
  split
  · simp
  · rename_i hc
    exact ⟨fun hr => hc ⟨h.running e hr, hr⟩, h.dying e⟩

/-- **Running an environment.** -/
theorem Kernel.Solo.dispatch (h : s.Solo) {d : Nat}
    (who : (s.envs e).envStatus = .runnable ∨ s.curenv = some e)
    (hd : (s.envs e).envPgdir = some d) :
    (s.dispatch e d).Solo ∧ (s.dispatch e d).Resumes e := by
  have hcur := dispatch_curenv s e d
  have hrunning : ∀ e', ((s.dispatch e d).envs e').envStatus = .running → e' = e := by
    intro e' he'
    by_contra hne
    rw [dispatch_other s hne] at he'
    exact (h.descheduled e').1 he'
  have hdying : ∀ e', ((s.dispatch e d).envs e').envStatus ≠ .dying := by
    intro e'
    by_cases hee : e' = e
    · subst hee
      simp [dispatch_self, dispatchedEnv]
    · rw [dispatch_other s hee]
      exact (h.descheduled e').2
  have hdep : s.Departs .popTf (s.dispatch e d) := .run e d who hd
  have hlist := h.list.departs h.sane hdep
  refine ⟨⟨h.sane.departs hdep, hlist, fun e' he' => ?_, hdying⟩,
    ⟨hcur, ?_, hrunning, hdying, ?_, ?_⟩⟩
  · rw [hrunning e' he', hcur]
  · simp [dispatch_self, dispatchedEnv]
  · rw [dispatch_self]
    show (s.envs e).envPgdir = some (Function.update s.cr3 s.cpunum d s.cpunum)
    rw [hd, Function.update_self]
  · obtain ⟨el, hc, hm⟩ := hlist
    refine ⟨el, hc, fun he => ?_⟩
    have := (hm e).1 he
    simp [dispatch_self, dispatchedEnv] at this

/-- Waiting for an interrupt. -/
theorem Kernel.Solo.halt (h : s.Solo)
    (hidle : ∀ e, s.curenv = some e → (s.envs e).envStatus ≠ .running) : s.halt.Solo := by
  refine ⟨⟨h.sane.dirs, fun e he => ?_⟩, h.list, fun e he => ?_, h.dying⟩
  · exact absurd ((halt_curenv s).symm.trans he) (by simp)
  · exact absurd he (hidle e (h.running e he))

/-! ## Whole runs -/

/-- Between two entries of the only CPU. -/
structure Kernel.SoloOn (s : Kernel) (c : Cpu) : Prop where
  solo : ({ s with cpunum := c } : Kernel).Solo
  halted : (s.cpus c).cpuStatus = .halted → (s.cpus c).cpuEnv = none

namespace Kernel.SoloOn

theorem ready {c : Cpu} (h : s.SoloOn c) : s.Ready c :=
  ⟨h.solo.sane.dirs, h.solo.sane.cur, h.halted⟩

theorem enter {n : Entry} (h : s.SoloOn n.cpu) : (n.enter s).Solo :=
  ⟨⟨h.solo.sane.dirs, h.solo.sane.cur⟩, h.solo.list, h.solo.running, h.solo.dying⟩

/-- Where an entry ends. -/
theorem departs {n : Entry} {x : Exit} (hu : u.Solo) (hd : u.Departs x s') (hn : u.cpunum = n.cpu)
    (hst : (u.cpus u.cpunum).cpuStatus = .started) (hx : x = .popTf ∨ x = .halt) :
    s'.SoloOn n.cpu := by
  cases hd with
  | run e d who dir =>
    have hs := (hu.dispatch who dir).1
    have hcpu : ({ u.dispatch e d with cpunum := n.cpu } : Kernel) = u.dispatch e d := by
      rw [← hn]
      rfl
    refine ⟨by rwa [hcpu], fun hh => ?_⟩
    rw [← hn] at hh
    have : ((u.dispatch e d).cpus u.cpunum).cpuStatus = .started := by
      simpa [Kernel.dispatch, lcr3, setCurenv, setCpu] using hst
    exact absurd (this.symm.trans hh) (by simp)
  | halt none idle =>
    have hs := hu.halt idle
    have hcpu : ({ u.halt with cpunum := n.cpu } : Kernel) = u.halt := by
      rw [← hn]
      rfl
    refine ⟨by rwa [hcpu], fun _ => ?_⟩
    rw [← hn]
    simp [Kernel.halt, setCpu, setCurenv, lcr3]
  | monitor => simp at hx

/-- **An entry on the only CPU keeps the invariant.** -/
theorem step {n : Entry} (h : s.SoloOn n.cpu) (hstep : s.Step n s') : s'.SoloOn n.cpu := by
  rcases hstep with hen | hen
  · obtain ⟨u, hp, hd, hn, hst⟩ := hen.departs h.ready id
    exact departs (h.enter.path hp) hd hn hst (Or.inl rfl)
  · obtain ⟨u, hp, hd, hn, hst⟩ := hen.departs h.ready id
    exact departs (h.enter.path hp) hd hn hst (Or.inr rfl)

end Kernel.SoloOn

theorem Booted.soloOn {m : Machine} {res : Nat → Prop} {fl : List Nat} (h : Booted m res fl s)
    (c : Cpu) : s.SoloOn c := by
  have hcur : ∀ e, ({ s with cpunum := c } : Kernel).curenv ≠ some e := by
    intro e he
    exact absurd ((h.cpus c).symm.trans he) (by simp)
  refine ⟨⟨⟨h.inv.live_dir, fun e he => absurd he (hcur e)⟩, h.inv.env_list, fun e he => ?_,
    fun e he => ?_⟩, fun _ => h.cpus c⟩
  · rcases h.idle e with hst | hst
    · exact absurd (hst.symm.trans he) (by simp)
    · exact absurd (hst.symm.trans he) (by simp)
  · rcases h.idle e with hst | hst
    · exact absurd (hst.symm.trans he) (by simp)
    · exact absurd (hst.symm.trans he) (by simp)

theorem reaches_soloOn {m : Machine} {s₀ : Kernel} (hboot : (i386Init m).run m.powerOn = .ok () s₀)
    (h : Reach Kernel.Step (fun _ n => n.cpu = m.bootcpu) s₀ s) : s.SoloOn m.bootcpu := by
  obtain ⟨res, fl, hb⟩ := i386Init_booted hboot
  refine h.inv (I := fun s => s.SoloOn m.bootcpu) (hb.soloOn _) ?_
  intro s n s' hs hn hstep
  rw [← hn] at hs ⊢
  exact hs.step hstep

/-- **Scheduling on one CPU.**  In every run on one CPU, every time `env_pop_tf` is reached, the
environment that is resumed is the current one, it is the only one that is running, none is dying,
its page directory is loaded, and it is not on `env_free_list`. -/
theorem reaches_resumes {m : Machine} {s₀ : Kernel}
    (hboot : (i386Init m).run m.powerOn = .ok () s₀)
    (h : Reach Kernel.Step (fun _ n => n.cpu = m.bootcpu) s₀ s) {n : Entry}
    (hn : n.cpu = m.bootcpu) (hen : s.Enters n .popTf s') : ∃ e, s'.Resumes e := by
  have hs : s.SoloOn n.cpu := hn ▸ reaches_soloOn hboot h
  obtain ⟨u, hp, hd, -, -⟩ := hen.departs hs.ready id
  cases hd with
  | run e d who dir => exact ⟨e, ((hs.enter.path hp).dispatch who dir).2⟩

/-- A machine boots, and the scheduler runs the first environment. -/
theorem reaches_resumes_boot : ∃ (s₀ s : Kernel) (n : Entry),
    (i386Init smallMachine).run smallMachine.powerOn = .ok () s₀ ∧
    n.cpu = smallMachine.bootcpu ∧ s₀.Enters n .popTf s ∧ ∃ e, s.Resumes e := by
  have hfree := smallMachine_free
  obtain ⟨s₁, fl₁, s₀, fl, p, hinit, hc, hrun, -⟩ :=
    i386Init_first (m := smallMachine) (n := 0) rfl rfl rfl (by omega)
  let n : Entry := ⟨smallMachine.bootcpu, .boot, 0#32, 0#32, s₀.mem⟩
  have hdirs : (n.enter s₀).LiveDirs := hc.inv.live_dir
  have hst : ((n.enter s₀).envs 0).envStatus = .runnable := hc.runnable
  obtain ⟨e, d, -, -, -, hyield⟩ := schedYield_runnable hdirs hst
  have hcpu : s₀.cpus n.cpu = ⟨.started, none⟩ := by
    rw [hc.cpus.1, hinit.cpus]
    exact Function.update_self _ _ _
  have hen : s₀.Enters n .popTf ((n.enter s₀).dispatch e d) :=
    ⟨⟨by rw [hcpu], by rw [hcpu]⟩, hyield⟩
  exact ⟨s₀, _, n, hrun, rfl, hen, reaches_resumes hrun .refl rfl hen⟩

end Jos
