import Jos.Smp
import Jos.Alloc.Syscall

/-!
# What an entry does to the environment table

The kernel changes the environments and the CPUs in few ways: it writes registers, sets a status,
marks an environment that runs elsewhere, allocates a slot, frees one, or takes the current
environment away from the CPU and frees it.  These are the acts.  Whatever an entry does, it is a
sequence of acts, and then the CPU leaves the kernel: it runs an environment, or it waits.

What has to be said about the code is said here, once for each function.  An invariant of the
environment table is then proved by looking at the acts.
-/

set_option autoImplicit false

namespace Jos

open Kernel Command

variable {s s' t : Kernel} {e cur : EnvIndex}

/-! ## Acts -/

/-- One change to the environments and the CPUs. -/
inductive Act where
  /-- Memory and the console only. -/
  | mem
  /-- The registers or the page fault upcall of an environment are written. -/
  | regs (e : EnvIndex)
  /-- A live environment is made runnable, or not runnable. -/
  | status (e : EnvIndex) (st : EnvStatus)
  /-- An environment that runs on another CPU is marked. -/
  | dying (e : EnvIndex)
  /-- The first free slot is filled. -/
  | alloc (e : EnvIndex)
  /-- An environment other than the current one is freed. -/
  | free (e : EnvIndex)
  /-- The current environment is freed. -/
  | exit (e : EnvIndex)
  /-- The CPU is marked as started, or loads the kernel's directory. -/
  | cpu

/-- What an act does. -/
inductive Kernel.Acts (s : Kernel) : Act → Kernel → Prop where
  | mem {s' : Kernel} (only : MemOnly s s') : Acts s .mem s'
  | regs (e : EnvIndex) (tf : Trapframe) (upcall : Word) :
      Acts s (.regs e) (s.setEnv e { s.envs e with envTf := tf, envPgfaultUpcall := upcall })
  | status (e : EnvIndex) {st : EnvStatus} (live : (s.envs e).envStatus ≠ .free)
      (settable : st = .runnable ∨ st = .notRunnable) :
      Acts s (.status e st) (s.setEnv e { s.envs e with envStatus := st })
  | dying (e : EnvIndex) (running : (s.envs e).envStatus = .running) (other : s.curenv ≠ some e) :
      Acts s (.dying e) (s.setEnv e { s.envs e with envStatus := .dying })
  | alloc (e : EnvIndex) (p : Nat) (parentId : Word) (head : s.envFreeList = some e) :
      Acts s (.alloc e) (s.allocated e p parentId)
  | free (e : EnvIndex) (live : (s.envs e).envStatus ≠ .free)
      (idle : (s.envs e).envStatus ≠ .running) (other : s.curenv ≠ some e) :
      Acts s (.free e) (s.freed e)
  | exit (e : EnvIndex) (current : s.curenv = some e) :
      Acts s (.exit e) ((s.freed e).setCurenv none)
  | started : Acts s .cpu (s.setCpu s.cpunum { s.cpus s.cpunum with cpuStatus := .started })
  | unload : Acts s .cpu (s.lcr3 s.kernPgdir)

/-- The kernel gives the CPU to an environment, or waits for an interrupt. -/
def Exit.GoesOn (x : Exit) : Prop := x = .popTf ∨ x = .halt

/-- The ways a CPU leaves the kernel. -/
inductive Kernel.Departs (s : Kernel) : Exit → Kernel → Prop where
  /-- It runs a runnable environment, or goes on with the current one. -/
  | run (e : EnvIndex) (d : Nat) (who : (s.envs e).envStatus = .runnable ∨ s.curenv = some e)
      (dir : (s.envs e).envPgdir = some d) : Departs s .popTf (s.dispatch e d)
  /-- There is nothing to run. -/
  | halt (none : ∀ e, (s.envs e).envStatus ≠ .runnable)
      (idle : ∀ e, s.curenv = some e → (s.envs e).envStatus ≠ .running) : Departs s .halt s.halt
  /-- The kernel monitor takes over. -/
  | monitor : Departs s .monitor s

theorem Leaves.departs {x : Exit} (h : Leaves s x s') : s.Departs x s' := by
  cases h with
  | run e d status dir => exact .run e d (status.imp_right And.left) dir
  | halt none idle => exact .halt none idle
  | monitor => exact .monitor

/-! ## What every act keeps -/

/-- The current environment is live, and every live environment has a page directory. -/
structure Kernel.Sane (s : Kernel) : Prop where
  dirs : s.LiveDirs
  cur : ∀ e, s.curenv = some e → (s.envs e).envStatus ≠ .free

/-- Writing an environment that is and stays live, and keeps its directory. -/
theorem Kernel.Sane.setEnv (h : s.Sane) {env : Env}
    (hdir : env.envPgdir = (s.envs e).envPgdir)
    (hst : env.envStatus ≠ .free ↔ (s.envs e).envStatus ≠ .free) : (s.setEnv e env).Sane := by
  refine ⟨fun e' he' => ?_, fun e' he' => ?_⟩
  · by_cases hee : e' = e
    · subst hee
      simp only [setEnv_envs, Function.update_self] at he' ⊢
      rw [hdir]
      exact h.dirs e' (hst.1 he')
    · simp only [setEnv_envs, Function.update_of_ne hee] at he' ⊢
      exact h.dirs e' he'
  · by_cases hee : e' = e
    · subst hee
      simp only [setEnv_envs, Function.update_self]
      exact hst.2 (h.cur e' he')
    · simp only [setEnv_envs, Function.update_of_ne hee]
      exact h.cur e' he'

theorem Kernel.LiveDirs.freed (h : s.LiveDirs) (e : EnvIndex) : (s.freed e).LiveDirs := by
  intro e' he'
  by_cases hee : e' = e
  · subst hee
    simp [Kernel.freed, freedEnv] at he'
  · simp only [Kernel.freed, Function.update_of_ne hee] at he' ⊢
    exact h e' he'

/-- An environment is freed that is not the current one. -/
theorem Kernel.Sane.freed (h : s.Sane) (hother : s.curenv ≠ some e) : (s.freed e).Sane := by
  refine ⟨h.dirs.freed e, fun e' he' => ?_⟩
  have hee : e' ≠ e := by
    rintro rfl
    exact hother he'
  simp only [Kernel.freed, Function.update_of_ne hee]
  exact h.cur e' he'

theorem Kernel.Sane.act (h : s.Sane) {a : Act} (ha : s.Acts a s') : s'.Sane := by
  cases ha with
  | mem only =>
    obtain ⟨m, pg, fl, tl, ad, o, rfl⟩ := only.exists_eq
    exact ⟨h.dirs, h.cur⟩
  | regs e tf upcall => exact h.setEnv rfl Iff.rfl
  | @status e st live settable =>
    refine h.setEnv rfl ⟨fun _ => live, fun _ => ?_⟩
    rcases settable with rfl | rfl
    · simp
    · simp
  | dying e running other => exact h.setEnv rfl ⟨fun _ => by simp [running], fun _ => by simp⟩
  | alloc e p parentId head =>
    refine ⟨fun e' he' => ?_, fun e' he' => ?_⟩
    · by_cases hee : e' = e
      · subst hee
        exact ⟨p, by simp [allocated, allocatedEnv]⟩
      · simp only [allocated, Function.update_of_ne hee] at he' ⊢
        exact h.dirs e' he'
    · by_cases hee : e' = e
      · subst hee
        simp [allocated, allocatedEnv]
      · simp only [allocated, Function.update_of_ne hee]
        exact h.cur e' he'
  | free e live idle other => exact h.freed other
  | exit e current =>
    refine ⟨h.dirs.freed e, fun e' he' => ?_⟩
    rw [setCurenv_curenv] at he'
    exact absurd he' (by simp)
  | started =>
    refine ⟨h.dirs, fun e he => h.cur e ?_⟩
    rw [← he]
    simp [curenv, setCpu]
  | unload => exact ⟨h.dirs, h.cur⟩

/-! ## Sequences of acts -/

/-- The states reached from `s` by acts that satisfy `ok`. -/
abbrev Kernel.Path (ok : Act → Prop) : Kernel → Kernel → Prop := Reach Kernel.Acts fun _ a => ok a

variable {ok ok' : Act → Prop} {α β : Type} {m : KernelM α}

theorem Kernel.Path.act {a : Act} (ha : s.Acts a t) (hok : ok a) : Path ok s t :=
  .tail .refl hok ha

theorem Kernel.Path.sane (h : Path ok s t) (hs : s.Sane) : t.Sane :=
  h.inv hs fun _ _ _ hs _ ha => hs.act ha

/-- Run in state `s`, the command goes through acts that satisfy `ok`; if it does not return, then
it panics or leaves the kernel. -/
structure Kernel.Runs (ok : Act → Prop) (s : Kernel) (m : KernelM α) : Prop where
  ret : ∀ a t, m.run s = .ok a t → Path ok s t
  exit : ∀ x t, m.run s = .error x t → x.IsPanic ∨ ∃ u, Path ok s u ∧ u.Departs x t

namespace Kernel.Runs

theorem mono (h : Runs ok s m) (hok : ∀ a, ok a → ok' a) : Runs ok' s m where
  ret a t hr := (h.ret a t hr).mono fun _ _ _ good move => ⟨hok _ good, move⟩
  exit x t hr := by
    rcases h.exit x t hr with hp | ⟨u, hu, hd⟩
    · exact Or.inl hp
    · exact Or.inr ⟨u, hu.mono fun _ _ _ good move => ⟨hok _ good, move⟩, hd⟩

theorem pure (a : α) : Runs ok s (Pure.pure a : KernelM α) where
  ret b t hr := by
    cases hr
    exact .refl
  exit x t hr := by cases hr

theorem panic (msg : String) : Runs ok s (throw (.panic msg) : KernelM α) where
  ret b t hr := by cases hr
  exit x t hr := by
    cases hr
    exact Or.inl trivial

theorem bind {f : α → KernelM β} (h : Runs ok s m)
    (hf : ∀ a t, m.run s = .ok a t → Path ok s t → Runs ok t (f a)) : Runs ok s (m >>= f) where
  ret b u hr := by
    cases hm : m.run s with
    | error x t =>
      rw [run_bind_error hm] at hr
      cases hr
    | ok a t =>
      rw [run_bind_ok hm] at hr
      exact (h.ret a t hm).trans ((hf a t hm (h.ret a t hm)).ret b u hr)
  exit x u hr := by
    cases hm : m.run s with
    | error y t =>
      rw [run_bind_error hm] at hr
      cases hr
      exact h.exit x u hm
    | ok a t =>
      have hpath := h.ret a t hm
      rw [run_bind_ok hm] at hr
      rcases (hf a t hm hpath).exit x u hr with hp | ⟨v, hv, hd⟩
      · exact Or.inl hp
      · exact Or.inr ⟨v, hpath.trans hv, hd⟩

/-- What follows a command that does not return is never reached. -/
theorem bind_never {f : α → KernelM β} (h : Runs ok s m) (hno : ∀ a t, m.run s ≠ .ok a t) :
    Runs ok s (m >>= f) :=
  h.bind fun a t hr => absurd hr (hno a t)

theorem get_bind {f : Kernel → KernelM β} (h : Runs ok s (f s)) : Runs ok s (get >>= f) :=
  ⟨h.ret, h.exit⟩

theorem pure_bind {a : α} {f : α → KernelM β} (h : Runs ok s (f a)) :
    Runs ok s (Pure.pure a >>= f) :=
  ⟨h.ret, h.exit⟩

theorem ite {c : Prop} [Decidable c] {m₁ m₂ : KernelM α} (h₁ : c → Runs ok s m₁)
    (h₂ : ¬ c → Runs ok s m₂) : Runs ok s (if c then m₁ else m₂) := by
  split
  · exact h₁ ‹_›
  · exact h₂ ‹_›

/-- A single act. -/
theorem act {f : Kernel → Kernel} {a : Act} (ha : s.Acts a (f s)) (hok : ok a) :
    Runs ok s (modify f : KernelM PUnit) where
  ret b t hr := by
    cases hr
    exact .act ha hok
  exit x t hr := by cases hr

theorem quiet (h : Quiet m) (hok : ok .mem) : Runs ok s m where
  ret _ _ hr := .act (.mem (h.of_ok hr)) hok
  exit _ _ hr := Or.inl (h.of_error hr).2

theorem departs {x : Exit} {t : Kernel} (hr : m.run s = .error x t) (hd : s.Departs x t) :
    Runs ok s m where
  ret a u hr' := absurd (hr.symm.trans hr') (by simp)
  exit y u hr' := by
    rw [hr] at hr'
    cases hr'
    exact Or.inr ⟨s, .refl, hd⟩

/-- Running it in an equal way. -/
theorem congr {m' : KernelM α} {t : Kernel} (h : Runs ok t m') (hp : Path ok s t)
    (hr : m.run s = m'.run t) : Runs ok s m where
  ret a u hu := hp.trans (h.ret a u (hr ▸ hu))
  exit x u hu := by
    rcases h.exit x u (hr ▸ hu) with hx | ⟨v, hv, hd⟩
    · exact Or.inl hx
    · exact Or.inr ⟨v, hp.trans hv, hd⟩

end Kernel.Runs

/-! ## The scheduler and `env_destroy` -/

theorem schedYield_runs (hs : s.Sane) : Runs ok s schedYield := by
  obtain ⟨x, s', hrun, hl⟩ := schedYield_leaves hs.dirs
  exact .departs hrun hl.departs

/-- Going on with the current environment. -/
theorem envRun_runs (hs : s.Sane) (hc : s.curenv = some e) : Runs ok s (envRun e) := by
  obtain ⟨d, hd⟩ := hs.dirs e (hs.cur e hc)
  exact .departs (envRun_run hd) (.run e d (Or.inr hc) hd)

theorem schedYield_never (hs : s.Sane) (a : Unit) (t : Kernel) : schedYield.run s ≠ .ok a t := by
  obtain ⟨x, s', hrun, -⟩ := schedYield_leaves hs.dirs
  rw [hrun]
  simp

/-- The state in which the scheduler is called once the current environment has been freed. -/
theorem exit_path (hc : s.curenv = some e) (hok : ok .mem) (hexit : ok (.exit e))
    (hr : (envFree e).run s = .ok () t) : Path ok s (t.setCurenv none) := by
  have hmo := (envFree_effect s e).of_ok rfl hr
  refine (Path.act (.exit e hc) hexit).trans (Path.act (.mem ?_) hok)
  obtain ⟨m, pg, fl, tl, ad, o, rfl⟩ := hmo.exists_eq
  rfl

/-- The end of the current environment: it is freed, and the scheduler takes over. -/
theorem exit_runs (hs : s.Sane) (hc : s.curenv = some e) (hok : ok .mem) (hexit : ok (.exit e)) :
    Runs ok s (do envFree e; modify (·.setCurenv none); schedYield : KernelM Unit) := by
  cases hr : (envFree e).run s with
  | error x t =>
    refine ⟨fun a u hu => ?_, fun y u hu => Or.inl ?_⟩
    · rw [run_bind_error hr] at hu
      cases hu
    · rw [run_bind_error hr] at hu
      cases hu
      exact (envFree_effect s e).of_error rfl hr
  | ok a t =>
    have hp := exit_path hc hok hexit hr
    refine (schedYield_runs (hp.sane hs)).congr hp ?_
    rw [run_bind_ok hr, run_bind_ok (EStateM.run_modify _ _)]

theorem exit_never (hs : s.Sane) (hc : s.curenv = some e) (a : Unit) (t : Kernel) :
    EStateM.run (do envFree e; modify (·.setCurenv none); schedYield : KernelM Unit) s ≠
      .ok a t := by
  intro h
  cases hr : (envFree e).run s with
  | error x u =>
    rw [run_bind_error hr] at h
    cases h
  | ok b u =>
    rw [run_bind_ok hr, run_bind_ok (EStateM.run_modify _ _)] at h
    have hp : Path (fun _ => True) s (u.setCurenv none) := exit_path hc trivial trivial hr
    exact schedYield_never (hp.sane hs) a t h

/-- `env_destroy` of the current environment. -/
theorem envDestroy_current (hc : s.curenv = some e) : (envDestroy e).run s =
    EStateM.run (do envFree e; modify (·.setCurenv none); schedYield : KernelM Unit) s := by
  have hno : ¬ ((s.envs e).envStatus = .running ∧ s.curenv ≠ some e) := fun h => h.2 hc
  rw [envDestroy, run_bind_ok (EStateM.run_get s)]
  simp only [if_neg hno]
  cases hr : (envFree e).run s with
  | error x t => rw [run_bind_error hr, run_bind_error hr]
  | ok a t =>
    have hmo := (envFree_effect s e).of_ok rfl hr
    have hc' : t.curenv = some e := by
      rw [hmo.curenv]
      exact hc
    rw [run_bind_ok hr, run_bind_ok hr, run_bind_ok (EStateM.run_get t)]
    simp only [if_pos hc']

/-- What `env_destroy` does to an environment that is not the current one: if that is running, it is
marked, and otherwise it is freed. -/
def Kernel.Ends (s : Kernel) (ok : Act → Prop) (e : EnvIndex) : Prop :=
  ((s.envs e).envStatus = .running → ok (.dying e)) ∧
    ((s.envs e).envStatus ≠ .running → ok (.free e))

/-- **`env_destroy`.** -/
theorem envDestroy_runs (hs : s.Sane) (hlive : (s.envs e).envStatus ≠ .free) (hok : ok .mem)
    (hcur : s.curenv = some e → ok (.exit e)) (hother : s.curenv ≠ some e → s.Ends ok e) :
    Runs ok s (envDestroy e) := by
  by_cases hc : s.curenv = some e
  · exact (exit_runs hs hc hok (hcur hc)).congr .refl (envDestroy_current hc)
  refine .get_bind (.ite (fun hrun => ?_) fun hrun => ?_)
  · exact .act (.dying e hrun.1 hc) ((hother hc).1 hrun.1)
  · have hidle : (s.envs e).envStatus ≠ .running := fun h => hrun ⟨h, hc⟩
    refine .bind ⟨fun a t hr => ?_, fun x t hr => Or.inl ?_⟩ fun a t hr _ => ?_
    · exact (Path.act (.free e hlive hidle hc) ((hother hc).2 hidle)).trans
        (Path.act (.mem ((envFree_effect s e).of_ok rfl hr)) hok)
    · exact (envFree_effect s e).of_error rfl hr
    · have hc' : t.curenv ≠ some e := by
        rw [((envFree_effect s e).of_ok rfl hr).curenv]
        exact hc
      exact .get_bind (.ite (fun h => absurd h hc') fun _ => .pure _)

/-! ## `user_mem_assert` -/

-- so that nothing is tempted to run its loop
attribute [local irreducible] userMemCheck cprintS

/-- **`user_mem_assert`.** -/
theorem userMemAssert_runs (hs : s.Sane) (hlive : (s.envs e).envStatus ≠ .free) (va len perm : Word)
    (hok : ok .mem) (hcur : s.curenv = some e → ok (.exit e))
    (hother : s.curenv ≠ some e → ∀ r t, (userMemCheck e va len (perm ||| pteU)).run s = .ok r t →
      r.toInt < 0 → s.Ends ok e) : Runs ok s (userMemAssert e va len perm) := by
  refine .bind (.quiet (userMemCheck_quiet e va len (perm ||| pteU)) hok) fun r t hr hp => ?_
  have hmo := (userMemCheck_quiet e va len (perm ||| pteU)).of_ok hr
  refine .ite (fun hneg => ?_) fun _ => .pure _
  refine envDestroy_runs (hp.sane hs) ?_ hok (fun hc => ?_) fun hc => ?_
  · rw [hmo.envs]
    exact hlive
  · rw [hmo.curenv] at hc
    exact hcur hc
  · rw [hmo.curenv] at hc
    rw [Ends, hmo.envs]
    exact hother hc r t hr hneg

/-- The current environment survives a check only if it passes. -/
theorem userMemAssert_current (hs : s.Sane) (hc : s.curenv = some e) {va len perm : Word} {a : Unit}
    (hr : (userMemAssert e va len perm).run s = .ok a t) : MemOnly s t := by
  cases hm : (userMemCheck e va len (perm ||| pteU)).run s with
  | error x u =>
    rw [userMemAssert, run_bind_error hm] at hr
    cases hr
  | ok r u =>
    have hmo := (userMemCheck_quiet e va len (perm ||| pteU)).of_ok hm
    have hp : Path (fun _ => True) s u := .act (.mem hmo) trivial
    rw [userMemAssert, run_bind_ok hm] at hr
    split at hr
    · have hc' : u.curenv = some e := by
        rw [hmo.curenv]
        exact hc
      rw [envDestroy_current hc'] at hr
      exact absurd hr (exit_never (hp.sane hs) hc' _ _)
    · cases hr
      exact hmo

/-! ## System calls -/

/-- The acts that do not touch another environment's status. -/
def Act.Harmless : Act → Prop
  | .mem | .regs _ | .cpu | .status _ .notRunnable => True
  | _ => False

/-- The check of `sys_env_set_pgfault_upcall` fails. -/
def Kernel.UpcallFails (s : Kernel) (e : EnvIndex) (func : Word) : Prop :=
  ∃ r t, (userMemCheck e func 4#32 (0#32 ||| pteU)).run
    (s.setEnv e { s.envs e with envPgfaultUpcall := func }) = .ok r t ∧ r.toInt < 0

/-- A system call of the environment `cur` that is the end of `e`: `sys_env_destroy`, or
`sys_env_set_pgfault_upcall` with an upcall that fails the check. -/
def Syscall.Dooms (s : Kernel) (cur : EnvIndex) (c : Syscall) (e : EnvIndex) : Prop :=
  (∃ envid, c = .envDestroy envid ∧ s.resolve cur envid = some e) ∨
    ∃ envid func, c = .envSetPgfaultUpcall envid func ∧ s.resolve cur envid = some e ∧
      s.UpcallFails e func

/-- The acts that a system call of the environment `cur` may cause. -/
def Syscall.Causes (s : Kernel) (cur : EnvIndex) (c : Syscall) : Act → Prop
  | .status e .runnable => ∃ envid, c = .envSetStatus envid 2#32 ∧ s.resolve cur envid = some e
  | .dying e => c.Dooms s cur e ∧ (s.envs e).envStatus = .running
  | .free e => c.Dooms s cur e ∧ (s.envs e).envStatus ≠ .running
  | .alloc _ => c = .exofork
  | .exit e => e = cur ∧ c ≠ .exofork
  | a => a.Harmless

theorem Act.Harmless.causes {a : Act} (h : a.Harmless) (s : Kernel) (cur : EnvIndex) (c : Syscall) :
    c.Causes s cur a := by
  cases a with
  | mem => exact h
  | regs e => exact h
  | cpu => exact h
  | status e st =>
    cases st with
    | notRunnable => exact h
    | _ => exact h.elim
  | _ => exact h.elim

/-- What a user may ask for. -/
theorem settableStatus_eq_some {status : Word} {st : EnvStatus}
    (h : settableStatus status = some st) :
    (status = 2#32 ∧ st = .runnable) ∨ st = .notRunnable := by
  rw [settableStatus] at h
  split at h
  · exact Or.inl ⟨‹_›, (Option.some_inj.1 h).symm⟩
  · split at h
    · exact Or.inr (Option.some_inj.1 h).symm
    · exact absurd h (by simp)

section

variable (hs : s.Sane) (hc : s.curenv = some cur)
include hs hc

omit hs in
/-- **`sys_exofork`** fills a slot and makes it the copy of the caller. -/
theorem sysExofork_runs : Runs (Syscall.exofork.Causes s cur) s sysExofork := by
  refine .get_bind ?_
  rw [hc]
  refine .pure_bind
    (.get_bind (.bind ⟨fun r t hr => ?_, fun x t hr => Or.inl ?_⟩ fun r t hr _ => ?_))
  · rcases (envAlloc_effect s _).of_ok rfl hr with ⟨-, -, hmo⟩ | ⟨e, p, -, hhead, hmo⟩
    · exact .act (.mem hmo) trivial
    · have hp : Path (Syscall.exofork.Causes s cur) s (s.allocated e p (s.envs cur).envId) :=
        .act (.alloc e p _ hhead) rfl
      exact hp.trans (Path.act (.mem hmo) trivial)
  · exact (envAlloc_effect s _).of_error rfl hr
  · refine .ite (fun _ => .pure _) fun hpos => ?_
    rcases (envAlloc_effect s _).of_ok rfl hr with ⟨hneg, -, -⟩ | ⟨e, p, rfl, -, hmo⟩
    · exact absurd hneg hpos
    · have hlive : (t.envs e).envStatus ≠ .free := by
        rw [hmo.envs]
        simp [allocated, allocatedEnv]
      refine .pure_bind (.bind (.act (.status e hlive (Or.inr rfl)) trivial) fun _ t _ _ => ?_)
      refine .bind (.act (.regs e _ (t.envs e).envPgfaultUpcall) trivial) fun _ t _ _ => ?_
      refine .bind (.act (.regs e _ (t.envs e).envPgfaultUpcall) trivial) fun _ t _ _ => ?_
      exact .get_bind (.pure _)

/-- **`sys_env_destroy`.** -/
theorem sysEnvDestroy_runs (envid : Word) :
    Runs ((Syscall.envDestroy envid).Causes s cur) s (sysEnvDestroy envid) := by
  cases hr : s.resolve cur envid with
  | none => exact (Runs.pure (-eBadEnv)).congr .refl (sysEnvDestroy_none hc hr)
  | some e =>
    have hlive := resolve_live (hs.cur cur hc) hr
    have hd : Runs ((Syscall.envDestroy envid).Causes s cur) s (envDestroy e) := by
      refine envDestroy_runs hs hlive trivial (fun he => ⟨?_, by simp⟩) fun _ => ?_
      · exact Option.some_inj.1 (he.symm.trans hc)
      · have hdoom : (Syscall.envDestroy envid).Dooms s cur e := Or.inl ⟨envid, rfl, hr⟩
        exact ⟨fun hst => ⟨hdoom, hst⟩, fun hst => ⟨hdoom, hst⟩⟩
    exact (hd.bind fun _ _ _ _ => .pure 0#32).congr .refl (sysEnvDestroy_some hc hr)

/-- **`sys_env_set_status`.** -/
theorem sysEnvSetStatus_runs (envid status : Word) :
    Runs ((Syscall.envSetStatus envid status).Causes s cur) s (sysEnvSetStatus envid status) := by
  rcases sysEnvSetStatus_spec hc envid status with ⟨r, -, hrun⟩ | ⟨e, st, hr, hst, hrun⟩
  · exact (Runs.pure r).congr .refl hrun
  · have hlive := resolve_live (hs.cur cur hc) hr
    have hset := settableStatus_eq_some hst
    have hcause : (Syscall.envSetStatus envid status).Causes s cur (.status e st) := by
      rcases hset with ⟨rfl, rfl⟩ | rfl
      · exact ⟨envid, rfl, hr⟩
      · trivial
    exact (Runs.pure 0#32).congr (.act (.status e hlive (hset.imp_left And.right)) hcause) hrun

/-- **`sys_env_set_pgfault_upcall`.** -/
theorem sysEnvSetPgfaultUpcall_runs (envid func : Word) :
    Runs ((Syscall.envSetPgfaultUpcall envid func).Causes s cur) s
      (sysEnvSetPgfaultUpcall envid func) := by
  cases hr : s.resolve cur envid with
  | none => exact (Runs.pure (-eBadEnv)).congr .refl (sysEnvSetPgfaultUpcall_none hc hr)
  | some e =>
    have hlive := resolve_live (hs.cur cur hc) hr
    have hp : Path ((Syscall.envSetPgfaultUpcall envid func).Causes s cur) s
        (s.setEnv e { s.envs e with envPgfaultUpcall := func }) :=
      .act (.regs e (s.envs e).envTf func) trivial
    have ha : Runs ((Syscall.envSetPgfaultUpcall envid func).Causes s cur)
        (s.setEnv e { s.envs e with envPgfaultUpcall := func })
        (userMemAssert e func 4#32 0#32) := by
      refine userMemAssert_runs (hp.sane hs) (by simpa using hlive) func 4#32 0#32 trivial
        (fun he => ⟨?_, by simp⟩) fun _ r t hrun hneg => ?_
      · exact Option.some_inj.1 (he.symm.trans hc)
      · have hdoom : (Syscall.envSetPgfaultUpcall envid func).Dooms s cur e :=
          Or.inr ⟨envid, func, rfl, hr, r, t, hrun, hneg⟩
        simp only [Ends, setEnv_envs, Function.update_self]
        exact ⟨fun hst => ⟨hdoom, hst⟩, fun hst => ⟨hdoom, hst⟩⟩
    exact (ha.bind fun _ _ _ _ => .pure 0#32).congr hp (sysEnvSetPgfaultUpcall_some hc hr)

/-- **`sys_cputs`.** -/
theorem sysCputs_runs (p len : Word) :
    Runs ((Syscall.cputs p len).Causes s cur) s (sysCputs p len) := by
  refine .get_bind ?_
  rw [hc]
  refine .pure_bind (.bind (userMemAssert_runs hs (hs.cur cur hc) p len pteU trivial
    (fun _ => ⟨rfl, by simp⟩) fun hne => absurd hc hne) fun _ t _ _ => ?_)
  exact .quiet (cprintS_quiet p len) trivial

/-- **Every system call** goes through acts it may cause. -/
theorem Syscall.handle_runs (c : Syscall) : Runs (c.Causes s cur) s c.handle := by
  cases c with
  | cputs p len => exact (sysCputs_runs hs hc p len).bind fun _ _ _ _ => .pure 0#32
  | cgetc => exact .get_bind (.pure _)
  | getenvid => exact .quiet (Quiet.bind Quiet.get fun _ => Quiet.bind (derefEnv_quiet _) fun _ =>
      Quiet.bind Quiet.get fun _ => Quiet.pure _) trivial
  | envDestroy envid => exact sysEnvDestroy_runs hs hc envid
  | pageAlloc envid va perm => exact .quiet (sysPageAlloc_quiet _ _ _) trivial
  | pageMap srcenvid srcva dstenvid dstva perm =>
    exact .quiet (sysPageMap_quiet _ _ _ _ _) trivial
  | pageUnmap envid va => exact .quiet (sysPageUnmap_quiet _ _) trivial
  | exofork => exact sysExofork_runs hc
  | envSetStatus envid status => exact sysEnvSetStatus_runs hs hc envid status
  | envSetPgfaultUpcall envid func => exact sysEnvSetPgfaultUpcall_runs hs hc envid func
  | yield => exact (schedYield_runs hs).bind_never (schedYield_never hs)

end

/-! ## Traps -/

/-- The system call a trap asks for. -/
def Trapframe.call (tf : Trapframe) : Option Syscall :=
  if tf.tfTrapno = tSyscall then
    Syscall.decode tf.tfRegs.regEax tf.tfRegs.regEdx tf.tfRegs.regEcx tf.tfRegs.regEbx
      tf.tfRegs.regEdi tf.tfRegs.regEsi
  else none

/-- A system call, with its result in the caller's `eax`. -/
def Syscall.perform (c : Syscall) (cur : EnvIndex) : KernelM Unit := do
  let r ← c.handle
  updateEnv cur fun env =>
    { env with envTf := { env.envTf with tfRegs := { env.envTf.tfRegs with regEax := r } } }

/-- The CPU is running. -/
def Kernel.started (s : Kernel) : Kernel :=
  s.setCpu s.cpunum { s.cpus s.cpunum with cpuStatus := .started }

/-- The state in which a trap of `cur` is dispatched: its registers have been saved. -/
def Kernel.saved (s : Kernel) (cur : EnvIndex) (tf : Trapframe) : Kernel :=
  s.started.setEnv cur { s.envs cur with envTf := tf }

/-- The acts that a trap from user mode may cause. -/
def Kernel.TrapCauses (s : Kernel) (tf : Trapframe) : Act → Prop
  | .exit e => s.curenv = some e ∧ ((s.envs e).envStatus = .dying ∨ tf.call ≠ some .exofork)
  | a => a.Harmless ∨ ∃ cur c, s.curenv = some cur ∧ (s.envs cur).envStatus ≠ .dying ∧
      tf.call = some c ∧ c.Causes (s.saved cur tf) cur a

theorem started_curenv (s : Kernel) : s.started.curenv = s.curenv := by
  simp [started, curenv, setCpu]

section

variable (hs : s.Sane)
include hs

theorem trapReturn_runs : Runs ok s trapReturn := by
  refine .get_bind ?_
  split
  · rename_i cur hc
    exact .get_bind (.ite (fun _ => envRun_runs hs hc) fun _ => schedYield_runs hs)
  · exact schedYield_runs hs

variable (hc : s.curenv = some cur) (hok : ∀ a : Act, a.Harmless → ok a)
include hc hok

/-- **`page_fault_handler`.** -/
theorem pageFaultHandler_runs (tf : Trapframe) (hexit : ok (.exit cur)) :
    Runs ok s (pageFaultHandler tf) := by
  have hmem : ok .mem := hok .mem trivial
  refine .get_bind (.ite (fun _ => .bind_never (.panic _) fun a t h => by cases h) fun _ => ?_)
  refine .get_bind ?_
  rw [hc]
  refine .pure_bind (.get_bind (.ite (fun _ => ?_) fun _ => ?_))
  · exact envDestroy_runs hs (hs.cur cur hc) hmem (fun _ => hexit) fun h => absurd hc h
  -- the first check, the frame, the second check
  refine .bind (userMemAssert_runs hs (hs.cur cur hc) _ _ _ hmem (fun _ => hexit)
    fun h => absurd hc h) fun _ t₁ hr₁ hp₁ => ?_
  have hmo₁ := userMemAssert_current hs hc hr₁
  refine .bind (.quiet (Quiet.forM _ fun _ => kstoreWord_quiet _ _) hmem) fun _ t₂ hr₂ hp₂ => ?_
  have hmo₂ := (Quiet.forM _ fun _ => kstoreWord_quiet _ _).of_ok hr₂
  have hs₂ := hp₂.sane (hp₁.sane hs)
  have hc₂ : t₂.curenv = some cur := by rw [hmo₂.curenv, hmo₁.curenv, hc]
  refine .bind (userMemAssert_runs hs₂ (hs₂.cur cur hc₂) _ _ _ hmem (fun _ => hexit)
    fun h => absurd hc₂ h) fun _ t₃ hr₃ hp₃ => ?_
  have hmo₃ := userMemAssert_current hs₂ hc₂ hr₃
  have hc₃ : t₃.curenv = some cur := by rw [hmo₃.curenv, hc₂]
  refine .bind (.act (.regs cur _ (t₃.envs cur).envPgfaultUpcall) (hok _ trivial))
    fun _ t₄ hr₄ hp₄ => ?_
  cases hr₄
  exact envRun_runs (hp₄.sane (hp₃.sane hs₂)) hc₃

/-- **`trap_dispatch`.** -/
theorem trapDispatch_runs (tf : Trapframe) (hexit : tf.call ≠ some .exofork → ok (.exit cur))
    (hcall : ∀ c, tf.call = some c → ∀ a, c.Causes s cur a → ok a) :
    Runs ok s (trapDispatch tf) := by
  have hexit' : tf.tfTrapno ≠ tSyscall → ok (.exit cur) := by
    intro hno
    refine hexit ?_
    rw [Trapframe.call, if_neg hno]
    simp
  refine .ite (fun _ => .pure _) fun _ => .ite (fun hpg => ?_) fun _ => .ite (fun _ => ?_) fun _ =>
    .ite (fun hsys => ?_) fun hsys => .ite (fun _ => schedYield_runs hs) fun _ =>
      .ite (fun _ => .panic _) fun _ => ?_
  · refine pageFaultHandler_runs hs hc hok tf (hexit' ?_)
    rw [hpg]
    decide
  · exact .departs rfl .monitor
  · refine .get_bind ?_
    rw [hc]
    refine .pure_bind (.bind ?_ fun r t _ _ => ?_)
    · rw [syscall]
      cases hd : Syscall.decode tf.tfRegs.regEax tf.tfRegs.regEdx tf.tfRegs.regEcx
        tf.tfRegs.regEbx tf.tfRegs.regEdi tf.tfRegs.regEsi with
      | none =>
        exact .ite (fun _ => .panic _) fun _ => .ite (fun _ => .panic _) fun _ => .panic _
      | some c =>
        refine (Syscall.handle_runs hs hc c).mono (hcall c ?_)
        rw [Trapframe.call, if_pos hsys, hd]
    · exact .act (.regs cur _ (t.envs cur).envPgfaultUpcall) (hok _ trivial)
  · refine .get_bind ?_
    rw [hc]
    exact .pure_bind (envDestroy_runs hs (hs.cur cur hc) (hok .mem trivial)
      (fun _ => hexit' hsys) fun h => absurd hc h)

end

theorem trap_user {tf : Trapframe} (hcs : tf.tfCs &&& 3#32 = 3#32) (s : Kernel) :
    (trap tf).run s = EStateM.run (do
      trapFromUser tf
      trapDispatch tf
      trapReturn : KernelM Unit) s.started := by
  rw [trap, run_bind_ok (EStateM.run_modify _ _)]
  simp only [if_pos hcs]
  rfl

/-- The registers of the environment are saved, unless it is a zombie. -/
theorem trapFromUser_saved (hc : s.curenv = some cur) (hdying : (s.envs cur).envStatus ≠ .dying)
    (tf : Trapframe) : (trapFromUser tf).run s.started = .ok () (s.saved cur tf) := by
  have hc' : s.started.curenv = some cur := (started_curenv s).trans hc
  have hdying' : ¬ (s.started.envs cur).envStatus = .dying := hdying
  rw [trapFromUser, run_bind_ok (EStateM.run_get _)]
  simp only [hc', EStateM.run_bind, EStateM.run_get, if_neg hdying']
  rfl

/-- A trap for a system call. -/
theorem trapDispatch_call {tf : Trapframe} {c : Syscall} (hcall : tf.call = some c)
    (hc : s.curenv = some cur) : (trapDispatch tf).run s = (c.perform cur).run s := by
  rw [Trapframe.call] at hcall
  split at hcall
  · rename_i hno
    simp only [trapDispatch, hno, syscall, hcall, Syscall.perform]
    rw [if_neg (by decide), if_neg (by decide), if_neg (by decide), if_pos trivial,
      run_bind_ok (EStateM.run_get _), hc]
    rfl
  · exact absurd hcall (by simp)

/-- A system call, from the trap to the return to user mode. -/
theorem trap_call {tf : Trapframe} {c : Syscall} (hcs : tf.tfCs &&& 3#32 = 3#32)
    (hcall : tf.call = some c) (hc : s.curenv = some cur)
    (hdying : (s.envs cur).envStatus ≠ .dying) {a : Unit}
    (hrun : (c.perform cur).run (s.saved cur tf) = .ok a t) :
    (trap tf).run s = trapReturn.run t := by
  have hc' : (s.saved cur tf).curenv = some cur := (started_curenv s).trans hc
  rw [trap_user hcs, run_bind_ok (trapFromUser_saved hc hdying tf),
    run_bind_ok ((trapDispatch_call hcall hc').trans hrun)]

theorem Act.Harmless.trapCauses {a : Act} (h : a.Harmless) (s : Kernel) (tf : Trapframe) :
    s.TrapCauses tf a := by
  cases a with
  | exit e => exact h.elim
  | _ => exact Or.inl h

theorem Kernel.Sane.started (hs : s.Sane) : s.started.Sane := hs.act .started

/-- **A trap from user mode** goes through acts it may cause. -/
theorem trap_user_runs (hs : s.Sane) (hc : s.curenv = some cur) (tf : Trapframe) :
    Runs (s.TrapCauses tf) s.started (do
      trapFromUser tf
      trapDispatch tf
      trapReturn : KernelM Unit) := by
  have hok : ∀ a : Act, a.Harmless → s.TrapCauses tf a := fun a ha => ha.trapCauses s tf
  have hs₁ := hs.started
  have hc₁ : s.started.curenv = some cur := (started_curenv s).trans hc
  -- either the environment is a zombie, and that is all, or its registers are saved
  by_cases hdying : (s.envs cur).envStatus = .dying
  · have hexit : s.TrapCauses tf (.exit cur) := ⟨hc, Or.inl hdying⟩
    have hcollect : (trapFromUser tf).run s.started = EStateM.run (do
        (do envFree cur; modify (·.setCurenv none); schedYield)
        updateEnv cur fun env => { env with envTf := tf } : KernelM Unit) s.started := by
      have hdying' : (s.started.envs cur).envStatus = .dying := hdying
      rw [trapFromUser, run_bind_ok (EStateM.run_get _)]
      simp only [hc₁, EStateM.run_bind, EStateM.run_get, if_pos hdying', EStateM.run_modify]
      cases (envFree cur).run s.started with
      | error x t => rfl
      | ok a t => rfl
    have hcoll : Runs (s.TrapCauses tf) s.started (trapFromUser tf) :=
      ((exit_runs hs₁ hc₁ (hok _ trivial) hexit).bind_never (exit_never hs₁ hc₁)).congr .refl
        hcollect
    refine hcoll.bind_never fun a t h => ?_
    rw [hcollect] at h
    cases hr : EStateM.run (do envFree cur; modify (·.setCurenv none); schedYield : KernelM Unit)
        s.started with
    | error x u =>
      rw [run_bind_error hr] at h
      cases h
    | ok b u => exact exit_never hs₁ hc₁ b u hr
  · have hp₂ : Path (s.TrapCauses tf) s.started (s.saved cur tf) :=
      .act (.regs cur tf (s.envs cur).envPgfaultUpcall) (hok _ trivial)
    have hs₂ := hp₂.sane hs₁
    refine Runs.congr ?_ hp₂ (run_bind_ok (trapFromUser_saved hc hdying tf))
    refine .bind (trapDispatch_runs hs₂ hc₁ hok tf (fun h => ⟨hc, Or.inr h⟩) ?_) fun _ t _ hp =>
      trapReturn_runs (hp.sane hs₂)
    intro c hcall a ha
    cases a with
    | exit e => exact ⟨by rw [ha.1, hc], Or.inr (by rw [hcall]; simpa using ha.2)⟩
    | _ => exact Or.inr ⟨cur, c, hc, hdying, hcall, ha⟩

/-- An interrupt that wakes a CPU that waits. -/
theorem trap_wake {tf : Trapframe} (hcs : tf.tfCs = gdKt) (s : Kernel) :
    (trap tf).run s = EStateM.run (do trapDispatch tf; trapReturn : KernelM Unit) s.started := by
  have hno : ¬ tf.tfCs &&& 3#32 = 3#32 := by
    rw [hcs]
    decide
  rw [trap, run_bind_ok (EStateM.run_modify _ _)]
  simp only [if_neg hno]
  rfl

/-- **A trap taken while the CPU waits** only calls the scheduler, or the kernel does not survive
it. -/
theorem trap_wake_runs (hs : s.Sane) (hc : s.curenv = none) {tf : Trapframe}
    (hcs : tf.tfCs = gdKt) :
    Runs Act.Harmless s.started (do trapDispatch tf; trapReturn : KernelM Unit) := by
  have hs₁ := hs.started
  have hc₁ : s.started.curenv = none := (started_curenv s).trans hc
  refine .bind ?_ fun _ t _ hp => trapReturn_runs (hp.sane hs₁)
  refine .ite (fun _ => .pure _) fun _ => .ite (fun _ => ?_) fun _ => .ite (fun _ => ?_) fun _ =>
    .ite (fun _ => ?_) fun _ => .ite (fun _ => schedYield_runs hs₁) fun _ =>
      .ite (fun _ => .panic _) fun hk => absurd hcs hk
  · refine .get_bind (.ite (fun _ => .bind_never (.panic _) fun a t h => by cases h) fun hk => ?_)
    exact absurd hcs hk
  · exact .departs rfl .monitor
  · refine .get_bind ?_
    rw [hc₁]
    exact .bind_never (.panic _) fun a t h => by cases h

/-! ## Entries -/

/-- What an entry of CPU `c` needs: the environment on it is live, live environments have page
directories, and if the CPU waits then it has no environment. -/
structure Kernel.Ready (s : Kernel) (c : Cpu) : Prop where
  dirs : s.LiveDirs
  cur : ∀ e, (s.cpus c).cpuEnv = some e → (s.envs e).envStatus ≠ .free
  halted : (s.cpus c).cpuStatus = .halted → (s.cpus c).cpuEnv = none

/-- The acts that an entry may cause. -/
def Entry.Causes (n : Entry) (s : Kernel) (a : Act) : Prop :=
  match n.cause with
  | .user tf => (n.enter s).TrapCauses tf a
  | _ => a.Harmless

theorem Act.Harmless.entryCauses {a : Act} (h : a.Harmless) (n : Entry) (s : Kernel) :
    n.Causes s a := by
  rw [Entry.Causes]
  split
  · exact h.trapCauses _ _
  · exact h

/-- Once the CPU is started, it stays so. -/
theorem Kernel.Path.status (h : Path ok s t) (hs : (s.cpus s.cpunum).cpuStatus = .started) :
    t.cpunum = s.cpunum ∧ (t.cpus t.cpunum).cpuStatus = .started := by
  refine h.inv (I := fun t => t.cpunum = s.cpunum ∧ (t.cpus t.cpunum).cpuStatus = .started)
    ⟨rfl, hs⟩ ?_
  rintro t a t' ⟨hn, hst⟩ _ ha
  cases ha with
  | mem only =>
    obtain ⟨m, pg, fl, tl, ad, o, rfl⟩ := only.exists_eq
    exact ⟨hn, hst⟩
  | exit e current => exact ⟨hn, by simpa [setCurenv, setCpu, freed] using hst⟩
  | started => exact ⟨hn, by simp [setCpu]⟩
  | _ => exact ⟨hn, hst⟩

/-- **What an entry does**: acts that it may cause, and then the CPU, which is started by now,
leaves the kernel. -/
theorem Kernel.Enters.departs {n : Entry} {x : Exit} (h : s.Enters n x s') (hs : s.Ready n.cpu)
    (hx : ¬ x.IsPanic) : ∃ u, Path (n.Causes s) (n.enter s) u ∧ u.Departs x s' ∧
      u.cpunum = n.cpu ∧ (u.cpus u.cpunum).cpuStatus = .started := by
  have hsane : (n.enter s).Sane := ⟨hs.dirs, hs.cur⟩
  -- it is enough to look at what happens once the CPU is marked as started
  have hfrom : ∀ (t : Kernel) (m : KernelM Unit), Path (n.Causes s) (n.enter s) t →
      t.cpunum = n.cpu → (t.cpus t.cpunum).cpuStatus = .started →
      n.code.run (n.enter s) = m.run t → Runs (n.Causes s) t m →
      ∃ u, Path (n.Causes s) (n.enter s) u ∧ u.Departs x s' ∧
        u.cpunum = n.cpu ∧ (u.cpus u.cpunum).cpuStatus = .started := by
    intro t m hp hn hst hrun hm
    rcases hm.exit x s' (hrun ▸ h.run) with hpanic | ⟨u, hu, hd⟩
    · exact absurd hpanic hx
    · obtain ⟨hn', hst'⟩ := hu.status hst
      exact ⟨u, hp.trans hu, hd, hn'.trans hn, hst'⟩
  have hcpu : n.Causes s .cpu := Act.Harmless.entryCauses (a := .cpu) trivial n s
  have hstarted : Path (n.Causes s) (n.enter s) (n.enter s).started := .act .started hcpu
  have hstat : ∀ t : Kernel, (t.started.cpus t.started.cpunum).cpuStatus = .started := by
    intro t
    simp [Kernel.started, setCpu]
  have hen := h.enabled
  rw [Entry.Enabled] at hen
  rw [Entry.code] at hfrom
  cases hcause : n.cause with
  | boot =>
    rw [hcause] at hen hfrom
    exact hfrom (n.enter s) schedYield .refl rfl hen.2 rfl (schedYield_runs hsane)
  | mpMain =>
    rw [hcause] at hfrom
    have hp : Path (n.Causes s) (n.enter s) ((n.enter s).lcr3 (n.enter s).kernPgdir).started :=
      (Path.act .unload hcpu).trans (Path.act .started hcpu)
    exact hfrom _ schedYield hp rfl (hstat _) rfl (schedYield_runs (hp.sane hsane))
  | user tf =>
    rw [hcause] at hen hfrom
    obtain ⟨cur, hcur⟩ := Option.ne_none_iff_exists'.1 hen.1
    refine hfrom _ _ hstarted rfl (hstat _) (trap_user hen.2 _) ?_
    refine (trap_user_runs hsane hcur tf).mono fun a ha => ?_
    rw [Entry.Causes, hcause]
    exact ha
  | wake tf =>
    rw [hcause] at hen hfrom
    refine hfrom _ _ hstarted rfl (hstat _) (trap_wake hen.2 _) ?_
    exact (trap_wake_runs hsane (hs.halted hen.1) hen.2).mono fun a ha => ha.entryCauses n s

end Jos
