import Jos.Env
import Jos.Pmap.Effect

/-!
# Leaving the kernel

`env_run`, `sched_yield` and `sched_halt` never return.  `env_run` takes the CPU from the current
environment, gives it to another, loads that one's page directory and drops to user mode; in
`Kernel.dispatch` this is one update.  `sched_yield` looks for a runnable environment, falls back
on the one that is still running, and halts the CPU if there is neither.

An environment without a page directory cannot be run; `LiveDirs` says that there is none.
-/

set_option autoImplicit false

namespace Jos

open Command

variable {s : Kernel} {e : EnvIndex} {d : Nat}

namespace Kernel

/-- The environments once the current one has been put back among the runnable. -/
def descheduled (s : Kernel) (e : EnvIndex) : Env :=
  if s.curenv = some e ∧ (s.envs e).envStatus = .running then
    { s.envs e with envStatus := .runnable }
  else s.envs e

/-- The environment that is being run. -/
def dispatchedEnv (s : Kernel) (e : EnvIndex) : Env :=
  { s.envs e with
    envStatus := .running
    envRuns := (s.envs e).envRuns + 1#32
    envCpunum := s.cpunum }

/-- The state in which `env_run e` enters user mode, with the page directory in page `d`. -/
def dispatch (s : Kernel) (e : EnvIndex) (d : Nat) : Kernel :=
  ({ s.setCurenv (some e) with
    envs := Function.update s.descheduled e (s.dispatchedEnv e) }).lcr3 d

/-- The state of a CPU that waits for an interrupt. -/
def halt (s : Kernel) : Kernel :=
  let t := (s.setCurenv none).lcr3 s.kernPgdir
  t.setCpu t.cpunum { t.cpus t.cpunum with cpuStatus := .halted }

/-- Only its status can tell. -/
theorem descheduled_eq (s : Kernel) (e : EnvIndex) :
    ∃ st, s.descheduled e = { s.envs e with envStatus := st } := by
  rw [descheduled]
  split
  · exact ⟨_, rfl⟩
  · exact ⟨(s.envs e).envStatus, rfl⟩

end Kernel

open Kernel

theorem deschedule_run (s : Kernel) :
    deschedule.run s = .ok () { s with envs := s.descheduled } := by
  have hsame : (∀ e, ¬ (s.curenv = some e ∧ (s.envs e).envStatus = .running)) →
      s = { s with envs := s.descheduled } := by
    intro h
    have : s.descheduled = s.envs := funext fun e => by rw [descheduled, if_neg (h e)]
    rw [this]
  cases hc : s.curenv with
  | none =>
    simp only [deschedule, EStateM.run_bind, EStateM.run_get, hc, EStateM.run_pure]
    rw [← hsame fun e h => absurd (hc.symm.trans h.1) (by simp)]
  | some cur =>
    by_cases hr : (s.envs cur).envStatus = .running
    · have : s.descheduled =
          Function.update s.envs cur { s.envs cur with envStatus := .runnable } := by
        funext e
        by_cases he : e = cur
        · subst he
          rw [descheduled, if_pos ⟨hc, hr⟩, Function.update_self]
        · have hne : ¬ (s.curenv = some e ∧ (s.envs e).envStatus = .running) := by
            rintro ⟨h1, -⟩
            exact he (Option.some_inj.1 (h1.symm.trans hc))
          rw [descheduled, if_neg hne, Function.update_of_ne he]
      simp only [deschedule, EStateM.run_bind, EStateM.run_get, hc, if_pos hr, updateEnv,
        EStateM.run_modify, this]
      rfl
    · simp only [deschedule, EStateM.run_bind, EStateM.run_get, hc, if_neg hr, EStateM.run_pure]
      rw [← hsame]
      rintro e ⟨h1, h2⟩
      obtain rfl : cur = e := Option.some_inj.1 (hc.symm.trans h1)
      exact hr h2

/-- **`env_run` enters user mode** in the environment it was given. -/
theorem envRun_run (hd : (s.envs e).envPgdir = some d) :
    (envRun e).run s = .error .popTf (s.dispatch e d) := by
  obtain ⟨st, hst⟩ := s.descheduled_eq e
  simp only [envRun, EStateM.run_bind, deschedule_run, EStateM.run_modify, EStateM.run_get,
    updateEnv, setCurenv_envs, setEnv_envs, Function.update_self, hst, hd, paddr, EStateM.run_pure,
    envPopTf, lcr3_curenv, setEnv_curenv, setCurenv_curenv, derefEnv, lcr3_envs, run_throw]
  simp [dispatch, dispatchedEnv, setEnv, lcr3, setCurenv, setCpu, hd]

theorem dispatch_curenv (s : Kernel) (e : EnvIndex) (d : Nat) : (s.dispatch e d).curenv = some e :=
  setCurenv_curenv s (some e)

theorem dispatch_cr3 (s : Kernel) (e : EnvIndex) (d : Nat) :
    (s.dispatch e d).cr3 (s.dispatch e d).cpunum = d := Function.update_self _ _ _

/-! ## The scheduler -/

/-- The ways the scheduler gives up the CPU in state `s`. -/
inductive Leaves (s : Kernel) : Exit → Kernel → Prop where
  /-- A runnable environment is run, or the current one goes on. -/
  | run (e : EnvIndex) (d : Nat)
      (status : (s.envs e).envStatus = .runnable ∨
        s.curenv = some e ∧ (s.envs e).envStatus = .running)
      (dir : (s.envs e).envPgdir = some d) : Leaves s .popTf (s.dispatch e d)
  /-- There is nothing to run. -/
  | halt (none : ∀ e, (s.envs e).envStatus ≠ .runnable)
      (idle : ∀ e, s.curenv = some e → (s.envs e).envStatus ≠ .running) : Leaves s .halt s.halt
  /-- There will never be anything to run again. -/
  | monitor : Leaves s .monitor s

/-- Every live environment has a page directory. -/
def Kernel.LiveDirs (s : Kernel) : Prop :=
  ∀ e, (s.envs e).envStatus ≠ .free → ∃ d, (s.envs e).envPgdir = some d

theorem envRun_leaves (hdirs : s.LiveDirs) (hst : (s.envs e).envStatus = .runnable ∨
    s.curenv = some e ∧ (s.envs e).envStatus = .running) :
    ∃ x s', (envRun e).run s = .error x s' ∧ Leaves s x s' := by
  have hlive : (s.envs e).envStatus ≠ .free := by
    rcases hst with hst | ⟨-, hst⟩
    · simp [hst]
    · simp [hst]
  obtain ⟨d, hd⟩ := hdirs e hlive
  exact ⟨_, _, envRun_run hd, .run e d hst hd⟩

theorem schedHalt_run (s : Kernel) :
    schedHalt.run s = if s.noneActive then .error .monitor s else .error .halt s.halt := by
  -- for any outcome of the search, so that it is never carried out
  have hany : ∀ b, EStateM.run (do
      monitorIf b
      modify (·.setCurenv none)
      modify fun s => s.lcr3 s.kernPgdir
      modify fun s => s.setCpu s.cpunum { s.cpus s.cpunum with cpuStatus := .halted }
      throw .halt : KernelM Unit) s = if b then .error .monitor s else .error .halt s.halt := by
    intro b
    cases b with
    | true => rfl
    | false => rfl
  exact (run_bind_ok (EStateM.run_get s)).trans (hany s.noneActive)

theorem schedHalt_leaves (hnone : ∀ e, (s.envs e).envStatus ≠ .runnable)
    (hidle : ∀ e, s.curenv = some e → (s.envs e).envStatus ≠ .running) :
    ∃ x s', schedHalt.run s = .error x s' ∧ Leaves s x s' := by
  rw [schedHalt_run]
  cases s.noneActive with
  | true => exact ⟨.monitor, s, rfl, .monitor⟩
  | false => exact ⟨.halt, s.halt, rfl, .halt hnone hidle⟩

/-- Where the search of `sched_yield` starts. -/
def Kernel.schedStart (s : Kernel) : EnvIndex :=
  match s.curenv with
  | some e => envx (s.envs e).envId
  | none => 0

/-- How far an environment is from where the search of `sched_yield` starts. -/
def Kernel.schedRank (s : Kernel) (e : EnvIndex) : EnvIndex := e - s.schedStart

theorem slot_add_sub (a b : EnvIndex) : a + (b - a) = b := by
  apply Fin.ext
  rw [Fin.val_add, Fin.val_sub]
  omega

theorem slot_add_sub_left (a k : EnvIndex) : a + k - a = k := by
  apply Fin.ext
  rw [Fin.val_sub, Fin.val_add]
  omega

/-- The search of `sched_yield`, over any list of distances from `start`: the first runnable
environment is run. -/
theorem schedLoop_run (hdirs : s.LiveDirs) (start : EnvIndex) {l : List Index}
    (hl : l.Pairwise (· < ·)) :
    (((l.map (start + ·)).forM schedTry).run s = .ok () s ∧
      ∀ k ∈ l, (s.envs (start + k)).envStatus ≠ .runnable) ∨
    ∃ k ∈ l, (s.envs (start + k)).envStatus = .runnable ∧
      (∀ k' ∈ l, (s.envs (start + k')).envStatus = .runnable → k ≤ k') ∧
      ((l.map (start + ·)).forM schedTry).run s = (envRun (start + k)).run s := by
  induction l with
  | nil => exact Or.inl ⟨rfl, by simp⟩
  | cons i l ih =>
    obtain ⟨hlt, hl⟩ := List.pairwise_cons.1 hl
    rw [show ((i :: l).map (start + ·)).forM schedTry =
      (schedTry (start + i) >>= fun _ => (l.map (start + ·)).forM schedTry) from rfl]
    by_cases hi : (s.envs (start + i)).envStatus = .runnable
    · have htry : (schedTry (start + i)).run s = (envRun (start + i)).run s := by
        simp only [schedTry, EStateM.run_bind, EStateM.run_get, if_pos hi]
      obtain ⟨x, s', hrun, -⟩ := envRun_leaves hdirs (Or.inl hi)
      refine Or.inr ⟨i, List.mem_cons_self, hi, fun k' hk' _ => ?_, ?_⟩
      · rcases List.mem_cons.1 hk' with rfl | hk'
        · exact Fin.le_refl _
        · exact Fin.le_of_lt (hlt k' hk')
      · rw [hrun]
        exact run_bind_error (htry.trans hrun)
    · have hskip : (schedTry (start + i)).run s = .ok () s := by
        simp only [schedTry, EStateM.run_bind, EStateM.run_get, if_neg hi, EStateM.run_pure]
      rw [run_bind_ok hskip]
      rcases ih hl with ⟨hrun, hno⟩ | ⟨k, hk, hst, hmin, hrun⟩
      · refine Or.inl ⟨hrun, fun k hk => ?_⟩
        rcases List.mem_cons.1 hk with rfl | hk
        · exact hi
        · exact hno k hk
      · refine Or.inr ⟨k, List.mem_cons_of_mem _ hk, hst, fun k' hk' hst' => ?_, hrun⟩
        rcases List.mem_cons.1 hk' with rfl | hk'
        · exact absurd hst' hi
        · exact hmin k' hk' hst'

/-- **Round-robin**: `sched_yield` runs the runnable environment closest to where its search starts;
if there is none it goes on with the current one, and if that is not running either it halts. -/
theorem schedYield_spec (hdirs : s.LiveDirs) :
    (∃ e d, (s.envs e).envStatus = .runnable ∧ (s.envs e).envPgdir = some d ∧
      (∀ e', (s.envs e').envStatus = .runnable → s.schedRank e ≤ s.schedRank e') ∧
      schedYield.run s = .error .popTf (s.dispatch e d)) ∨
    (∀ e, (s.envs e).envStatus ≠ .runnable) ∧
      ((∃ e d, s.curenv = some e ∧ (s.envs e).envStatus = .running ∧
        (s.envs e).envPgdir = some d ∧ schedYield.run s = .error .popTf (s.dispatch e d)) ∨
      (∀ e, s.curenv = some e → (s.envs e).envStatus ≠ .running) ∧
        schedYield.run s = schedHalt.run s) := by
  have hcancel : ∀ e, s.schedStart + (e - s.schedStart) = e := slot_add_sub s.schedStart
  -- the search, and what follows if it finds nothing
  have hyield : schedYield.run s = EStateM.run (do
      (schedOrder s.schedStart).forM schedTry
      match s.curenv with
      | some e => if ((← get).envs e).envStatus = .running then envRun e
      | none => pure ()
      schedHalt : KernelM Unit) s := by
    rw [schedYield, schedStart]
    cases hc : s.curenv with
    | none => simp only [EStateM.run_bind, EStateM.run_get, hc, EStateM.run_pure]
    | some e => simp only [EStateM.run_bind, EStateM.run_get, hc, EStateM.run_pure]
  rw [hyield]
  have hmem : ∀ e, e - s.schedStart ∈ indices := fun e => mem_indices _
  have hsorted := sorted_indices
  rw [schedOrder]
  generalize indices = l at hmem hsorted
  rcases schedLoop_run hdirs s.schedStart hsorted with ⟨hrun, hno⟩ | ⟨k, hk, hst, hmin, hrun⟩
  · have hnone : ∀ e, (s.envs e).envStatus ≠ .runnable := by
      intro e
      have := hno _ (hmem e)
      rwa [hcancel] at this
    refine Or.inr ⟨hnone, ?_⟩
    rw [run_bind_ok hrun]
    cases hc : s.curenv with
    | none => exact Or.inr ⟨fun e he => absurd he (by simp), rfl⟩
    | some e =>
      by_cases hr : (s.envs e).envStatus = .running
      · obtain ⟨d, hd⟩ := hdirs e (by simp [hr])
        refine Or.inl ⟨e, d, rfl, hr, hd, ?_⟩
        simp only [EStateM.run_bind, EStateM.run_get, if_pos hr, envRun_run hd]
      · refine Or.inr ⟨fun e' he' => ?_, ?_⟩
        · obtain rfl : e = e' := Option.some_inj.1 he'
          exact hr
        · simp only [EStateM.run_bind, EStateM.run_get, if_neg hr]
  · obtain ⟨d, hd⟩ := hdirs (s.schedStart + k) (by simp [hst])
    refine Or.inl ⟨s.schedStart + k, d, hst, hd, fun e' he' => ?_, ?_⟩
    · have := hmin _ (hmem e') (by rwa [hcancel])
      rw [schedRank, slot_add_sub_left]
      exact this
    · exact run_bind_error (hrun.trans (envRun_run hd))

/-- With an environment to run, `sched_yield` runs one. -/
theorem schedYield_runnable (hdirs : s.LiveDirs) (hst : (s.envs e).envStatus = .runnable) :
    ∃ e' d, (s.envs e').envStatus = .runnable ∧ (s.envs e').envPgdir = some d ∧
      (∀ e'', (s.envs e'').envStatus = .runnable → s.schedRank e' ≤ s.schedRank e'') ∧
      schedYield.run s = .error .popTf (s.dispatch e' d) := by
  rcases schedYield_spec hdirs with h | ⟨hnone, -⟩
  · exact h
  · exact absurd hst (hnone e)

/-- **`sched_yield` does not return.** -/
theorem schedYield_leaves (hdirs : s.LiveDirs) :
    ∃ x s', schedYield.run s = .error x s' ∧ Leaves s x s' := by
  rcases schedYield_spec hdirs with
    ⟨e, d, hst, hd, -, hrun⟩ | ⟨hnone, ⟨e, d, hc, hst, hd, hrun⟩ | ⟨hidle, hrun⟩⟩
  · exact ⟨_, _, hrun, .run e d (Or.inl hst) hd⟩
  · exact ⟨_, _, hrun, .run e d (Or.inr ⟨hc, hst⟩) hd⟩
  · rw [hrun]
    exact schedHalt_leaves hnone hidle

/-! ## What a handover leaves alone -/

/-- Giving the CPU from one environment to another: memory stays, and of an environment only its
status, its run count and its CPU change, the status only in the two ways named. -/
structure Handover (s s' : Kernel) : Prop where
  mem : s'.mem = s.mem
  pages : s'.pages = s.pages
  pageFreeList : s'.pageFreeList = s.pageFreeList
  npages : s'.npages = s.npages
  kernPgdir : s'.kernPgdir = s.kernPgdir
  envFreeList : s'.envFreeList = s.envFreeList
  env : ∀ e, ∃ status runs cpu,
    s'.envs e = { s.envs e with envStatus := status, envRuns := runs, envCpunum := cpu } ∧
      (status = (s.envs e).envStatus ∨
        ((s.envs e).envStatus = .runnable ∧ status = .running) ∨
        (s.curenv = some e ∧ (s.envs e).envStatus = .running ∧ status = .runnable))

theorem Handover.refl (s : Kernel) : Handover s s :=
  ⟨rfl, rfl, rfl, rfl, rfl, rfl, fun e => ⟨_, (s.envs e).envRuns, (s.envs e).envCpunum, rfl,
    Or.inl rfl⟩⟩

theorem Handover.free_iff {s' : Kernel} (h : Handover s s') (e : EnvIndex) :
    (s'.envs e).envStatus = .free ↔ (s.envs e).envStatus = .free := by
  obtain ⟨st, runs, cpu, he, hst⟩ := h.env e
  rw [he]
  rcases hst with h1 | ⟨h1, h2⟩ | ⟨-, h1, h2⟩
  · simp [h1]
  · simp [h1, h2]
  · simp [h1, h2]

theorem dispatch_handover (hst : (s.envs e).envStatus = .runnable ∨
    s.curenv = some e ∧ (s.envs e).envStatus = .running) (d : Nat) :
    Handover s (s.dispatch e d) := by
  refine ⟨rfl, rfl, rfl, rfl, rfl, rfl, fun e' => ?_⟩
  have henvs : (s.dispatch e d).envs = Function.update s.descheduled e (s.dispatchedEnv e) := rfl
  by_cases he : e' = e
  · subst he
    rw [henvs, Function.update_self]
    refine ⟨.running, _, _, rfl, ?_⟩
    rcases hst with hst | ⟨-, hst⟩
    · exact Or.inr (Or.inl ⟨hst, rfl⟩)
    · exact Or.inl hst.symm
  · rw [henvs, Function.update_of_ne he, descheduled]
    split
    · rename_i hc
      exact ⟨.runnable, _, _, rfl, Or.inr (Or.inr ⟨hc.1, hc.2, rfl⟩)⟩
    · exact ⟨_, (s.envs e').envRuns, (s.envs e').envCpunum, rfl, Or.inl rfl⟩

theorem Leaves.handover {x : Exit} {s' : Kernel} (h : Leaves s x s') : Handover s s' := by
  cases h with
  | run e d hst hd => exact dispatch_handover hst d
  | halt _ _ =>
    exact ⟨rfl, rfl, rfl, rfl, rfl, rfl, fun e => ⟨_, (s.envs e).envRuns, (s.envs e).envCpunum,
      rfl, Or.inl rfl⟩⟩
  | monitor => exact Handover.refl s

end Jos
