import Jos.Stale
import Jos.Table

/-!
# Round-robin

`sched_yield` searches the environments in circular order from the one that has the CPU.  So one
that waits is not passed over twice: the position of the search moves towards it, and cannot go past
it.

When an environment exits, `curenv` is null and the search starts from the first slot.  The position
jumps back.  This does no harm as long as the environments that can run are all above the one that
exits, or all below it, since then the search finds the same one from either place.

When an environment declares itself runnable, the search finds it first, in the slot where it
starts, and those that wait are passed over.
-/

set_option autoImplicit false

namespace Jos

open Kernel Command

variable {s s' t u : Kernel} {e i j cur : EnvIndex}

/-! ## Runs -/

/-- What happens on a CPU between two scheduling decisions, and what leads to the next. -/
inductive Turn where
  /-- The program computes, until it enters the kernel with its registers saved. -/
  | user
  /-- A system call returns to its caller, which is still running. -/
  | call (c : Syscall)
  /-- `sys_yield`, or a timer interrupt. -/
  | yield
  /-- The environment makes itself not runnable, by `sys_env_set_status`. -/
  | block
  /-- It makes itself runnable, while it is running. -/
  | ready
  /-- The environment is destroyed, whatever the reason. -/
  | exit

/-- One step of a run on one CPU. -/
inductive Kernel.Turns (s : Kernel) : Turn → Kernel → Prop where
  | user {cur : EnvIndex} {tf : Trapframe} {s' : Kernel} (current : s.curenv = some cur)
      (only : MemOnly (s.setEnv cur { s.envs cur with envTf := tf }) s') : Turns s .user s'
  | call {cur : EnvIndex} {c : Syscall} {t s' : Kernel} {x : Exit} (current : s.curenv = some cur)
      (run : (c.perform cur).run s = .ok () t) (still : (t.envs cur).envStatus = .running)
      (back : trapReturn.run t = .error x s') : Turns s (.call c) s'
  | yield {s' : Kernel} {x : Exit} (run : schedYield.run s = .error x s') (on : x.GoesOn) :
      Turns s .yield s'
  | block {cur : EnvIndex} {envid : Word} {t s' : Kernel} {x : Exit} (current : s.curenv = some cur)
      (self : s.resolve cur envid = some cur)
      (run : ((Syscall.envSetStatus envid 4#32).perform cur).run s = .ok () t)
      (back : trapReturn.run t = .error x s') (on : x.GoesOn) : Turns s .block s'
  | ready {cur : EnvIndex} {envid : Word} {t s' : Kernel} {x : Exit} (current : s.curenv = some cur)
      (self : s.resolve cur envid = some cur)
      (run : ((Syscall.envSetStatus envid 2#32).perform cur).run s = .ok () t)
      (back : trapReturn.run t = .error x s') (on : x.GoesOn) : Turns s .ready s'
  | exit {cur : EnvIndex} {s' : Kernel} {x : Exit} (current : s.curenv = some cur)
      (run : (envDestroy cur).run s = .error x s') (on : x.GoesOn) : Turns s .exit s'

/-- The steps in which `sched_yield` is called. -/
def Turn.Schedules : Turn → Prop
  | .yield | .block | .ready | .exit => True
  | _ => False

/-- `sched_yield` gives the CPU to `e`. -/
def Kernel.Dispatches (s : Kernel) (op : Turn) (e : EnvIndex) (s' : Kernel) : Prop :=
  s.Turns op s' ∧ op.Schedules ∧ s'.curenv = some e

def Kernel.Runnable (s : Kernel) (e : EnvIndex) : Prop := (s.envs e).envStatus = .runnable

/-- In a run from `s₀` whose steps satisfy `ok`, the environment `i` is dispatched twice, and from
the first time to the second `j` is runnable. -/
def Kernel.Overtakes (ok : Kernel → Turn → Prop) (s₀ : Kernel) (i j : EnvIndex) : Prop :=
  ∃ s op s₁ t op' t', Reach Kernel.Turns ok s₀ s ∧ ok s op ∧ s.Dispatches op i s₁ ∧
    Reach Kernel.Turns (fun u op => ok u op ∧ u.Runnable j) s₁ t ∧
    t.Runnable j ∧ ok t op' ∧ t.Dispatches op' i t' ∧ t'.Runnable j

/-- When an environment exits, the ones that can run are all above it, or all below it. -/
def Kernel.OneSided (s : Kernel) : Prop :=
  ∀ cur, s.curenv = some cur → (∀ e, s.Runnable e → cur < e) ∨ ∀ e, s.Runnable e → e < cur

/-- The steps that leave the others their turn: no environment exits between two that wait, and none
declares itself runnable while another one waits. -/
def Kernel.InTurn (s : Kernel) : Turn → Prop
  | .exit => s.OneSided
  | .ready => ∀ e, ¬ s.Runnable e
  | _ => True

/-! ## What the scheduler relies on -/

theorem Kernel.IdsOk.act (h : s.IdsOk) (hl : s.EnvList) {a : Act} (ha : s.Acts a s') :
    s'.IdsOk := by
  refine h.of_envs fun e he => ?_
  rcases ha.slot hl e with ⟨⟨hid, hfree⟩, -⟩ | ⟨-, -, -, hid⟩
  · exact Or.inl ⟨mt hfree he, hid⟩
  · exact Or.inr ⟨_, hid⟩

/-- Between two steps: the current environment is running. -/
structure Kernel.Turning (s : Kernel) : Prop where
  solo : s.Solo
  ids : s.IdsOk
  cur : ∀ e, s.curenv = some e → (s.envs e).envStatus = .running

theorem solo_ids_path {ok : Act → Prop} (h : s.Solo) (hids : s.IdsOk) (hp : Path ok s t) :
    t.Solo ∧ t.IdsOk :=
  hp.inv (I := fun t => t.Solo ∧ t.IdsOk) ⟨h, hids⟩
    fun _ _ _ h _ ha => ⟨h.1.act ha, h.2.act h.1.list ha⟩

/-- When the kernel has given the CPU away, whoever has it is running. -/
theorem Kernel.Departs.turning {x : Exit} (hd : u.Departs x s') (h : u.Solo) (hids : u.IdsOk)
    (hx : x.GoesOn) : s'.Turning := by
  have hids' : s'.IdsOk := by
    refine hids.of_envs fun e he => Or.inl ?_
    obtain ⟨hid, -, -, hst⟩ := hd.env h.sane e
    exact ⟨mt hst.2 he, hid⟩
  cases hd with
  | run e d who dir =>
    obtain ⟨hsolo, hres⟩ := h.dispatch who dir
    refine ⟨hsolo, hids', fun e' he' => ?_⟩
    obtain rfl : e = e' := Option.some_inj.1 (hres.cur.symm.trans he')
    exact hres.running
  | halt none idle =>
    exact ⟨h.halt idle, hids', fun e he => absurd ((halt_curenv u).symm.trans he) (by simp)⟩
  | monitor => exact absurd hx (by simp [Exit.GoesOn])

theorem schedYield_turning {x : Exit} (h : u.Solo) (hids : u.IdsOk)
    (hrun : schedYield.run u = .error x s') (hx : x.GoesOn) : s'.Turning := by
  have hruns : Runs (fun _ => True) u schedYield := schedYield_runs h.sane
  rcases hruns.exit x s' hrun with hp | ⟨v, hv, hd⟩
  · rcases hx with rfl | rfl
    · exact hp.elim
    · exact hp.elim
  · obtain ⟨hsolo, hids'⟩ := solo_ids_path h hids hv
    exact hd.turning hsolo hids' hx

/-- The search starts from the current environment. -/
theorem schedStart_some (hs : u.Sane) (hids : u.IdsOk) (hc : u.curenv = some cur) :
    u.schedStart = cur := by
  rw [schedStart, hc]
  exact (hids cur (hs.cur cur hc)).2

/-! ## The steps -/

theorem Syscall.perform_runs (c : Syscall) (hs : s.Sane) (hc : s.curenv = some cur) :
    Runs (c.Causes s cur) s (c.perform cur) :=
  (c.handle_runs hs hc).bind fun _ t _ _ =>
    .act (.regs cur _ (t.envs cur).envPgfaultUpcall)
      (Act.Harmless.causes (a := .regs cur) trivial s cur c)

/-- A system call that returns to its caller leaves it the CPU. -/
theorem Kernel.Turning.call {c : Syscall} {x : Exit} (h : s.Turning) (hc : s.curenv = some cur)
    (hrun : (c.perform cur).run s = .ok () t) (still : (t.envs cur).envStatus = .running)
    (back : trapReturn.run t = .error x s') : s'.Turning ∧ s'.curenv = some cur := by
  obtain ⟨hsolo, hids⟩ := solo_ids_path h.solo h.ids
    ((c.perform_runs h.solo.sane hc).ret () t hrun)
  have hct : t.curenv = some cur := hsolo.running cur still
  obtain ⟨d, hd⟩ := hsolo.sane.dirs cur (by simp [still])
  have hret : trapReturn.run t = (envRun cur).run t := by
    rw [trapReturn, run_bind_ok (EStateM.run_get t), hct]
    simp only [run_bind_ok (EStateM.run_get t), if_pos still]
  rw [hret, envRun_run hd] at back
  cases back
  exact ⟨(Departs.run cur d (Or.inr hct) hd).turning hsolo hids (Or.inl rfl),
    dispatch_curenv t cur d⟩

/-- The program computes. -/
theorem Kernel.Turning.user {tf : Trapframe} (h : s.Turning) (hc : s.curenv = some cur)
    (only : MemOnly (s.setEnv cur { s.envs cur with envTf := tf }) s') :
    s'.Turning ∧ s'.curenv = some cur := by
  have hp : Path (fun _ => True) s s' :=
    (Path.act (.regs cur tf (s.envs cur).envPgfaultUpcall) trivial).trans
      (Path.act (.mem only) trivial)
  obtain ⟨hsolo, hids⟩ := solo_ids_path h.solo h.ids hp
  have hcur : s'.curenv = s.curenv := only.curenv
  refine ⟨⟨hsolo, hids, fun e he => ?_⟩, hcur.trans hc⟩
  rw [hcur] at he
  rw [only.envs]
  obtain rfl : cur = e := Option.some_inj.1 (hc.symm.trans he)
  simpa using h.cur cur hc

/-- `sys_env_set_status` of the caller itself, which then leaves the CPU. -/
theorem Kernel.Turning.setStatus {envid status : Word} {st : EnvStatus} {x : Exit} (h : s.Turning)
    (hc : s.curenv = some cur) (hself : s.resolve cur envid = some cur)
    (hst : settableStatus status = some st)
    (hrun : ((Syscall.envSetStatus envid status).perform cur).run s = .ok () t)
    (hback : trapReturn.run t = .error x s') :
    schedYield.run t = .error x s' ∧ t.Solo ∧ t.IdsOk ∧ t.curenv = s.curenv ∧
      (t.envs cur).envStatus = st ∧ ∀ e, e ≠ cur → t.envs e = s.envs e := by
  obtain ⟨hsolo, hids⟩ := solo_ids_path h.solo h.ids
    ((Syscall.perform_runs _ h.solo.sane hc).ret () t hrun)
  have hset : (Syscall.envSetStatus envid status).handle.run s = .ok 0#32
      (s.setEnv cur { s.envs cur with envStatus := st }) := sysEnvSetStatus_run hc hself hst
  have ht : t.curenv = s.curenv ∧ (t.envs cur).envStatus = st ∧
      ∀ e, e ≠ cur → t.envs e = s.envs e := by
    rw [Syscall.perform, run_bind_ok hset, updateEnv, EStateM.run_modify] at hrun
    cases hrun
    exact ⟨rfl, by simp, fun e he => by simp [he]⟩
  obtain ⟨hct, hstatus, hother⟩ := ht
  have hnot : ¬ (t.envs cur).envStatus = .running := by
    rw [hstatus]
    rcases settableStatus_eq_some hst with ⟨-, rfl⟩ | rfl <;> decide
  refine ⟨?_, hsolo, hids, hct, hstatus, hother⟩
  rw [← hback, trapReturn, run_bind_ok (EStateM.run_get t), hct, hc]
  simp only [run_bind_ok (EStateM.run_get t), if_neg hnot]

/-- **A step that schedules**: when `sched_yield` is called, the same environments can run as before
the step, if the one that had the CPU has not just said that it can, and the search starts from
that, unless it has exited. -/
theorem Kernel.Turning.schedules {op : Turn} (h : s.Turning) (hop : op.Schedules)
    (hstep : s.Turns op s') : ∃ u x, schedYield.run u = .error x s' ∧ x.GoesOn ∧ u.Solo ∧ u.IdsOk ∧
      (op ≠ .ready → ∀ e, u.Runnable e ↔ s.Runnable e) ∧
      (u.curenv = s.curenv ∨ op = .exit ∧ u.curenv = none) := by
  cases hstep with
  | user => exact hop.elim
  | call => exact hop.elim
  | @yield s' x run on =>
    exact ⟨s, x, run, on, h.solo, h.ids, fun _ _ => Iff.rfl, Or.inl rfl⟩
  | @block cur envid t s' x current self run back on =>
    have hset : settableStatus 4#32 = some .notRunnable := by decide
    obtain ⟨hyield, hsolo, hids, hct, hst, hother⟩ := h.setStatus current self hset run back
    refine ⟨t, x, hyield, on, hsolo, hids, fun _ e => ?_, Or.inl hct⟩
    by_cases hee : e = cur
    · subst hee
      simp [Runnable, hst, h.cur e current]
    · rw [Runnable, hother e hee, Runnable]
  | @ready cur envid t s' x current self run back on =>
    have hset : settableStatus 2#32 = some .runnable := by decide
    obtain ⟨hyield, hsolo, hids, hct, -, -⟩ := h.setStatus current self hset run back
    exact ⟨t, x, hyield, on, hsolo, hids, fun hne => absurd rfl hne, Or.inl hct⟩
  | @exit cur s' x current run on =>
    rw [envDestroy_current current] at run
    cases hfree : (envFree cur).run s with
    | error y t =>
      rw [run_bind_error hfree] at run
      cases run
      have hp := (envFree_effect s cur).of_error rfl hfree
      rcases on with rfl | rfl
      · exact hp.elim
      · exact hp.elim
    | ok a t =>
      rw [run_bind_ok hfree, run_bind_ok (EStateM.run_modify _ _)] at run
      have hpath : Path (fun _ => True) s (t.setCurenv none) :=
        exit_path current trivial trivial hfree
      obtain ⟨hsolo, hids⟩ := solo_ids_path h.solo h.ids hpath
      refine ⟨_, x, run, on, hsolo, hids, fun _ e => ?_, Or.inr ⟨rfl, setCurenv_curenv t none⟩⟩
      rw [Runnable, setCurenv_envs, ((envFree_effect s cur).of_ok rfl hfree).envs, Runnable]
      by_cases hee : e = cur
      · subst hee
        simp [freed, freedEnv, h.cur e current]
      · simp [freed, hee]

/-- **Every step keeps the invariant.** -/
theorem Kernel.Turning.step {op : Turn} (h : s.Turning) (hstep : s.Turns op s') : s'.Turning := by
  by_cases hop : op.Schedules
  · obtain ⟨u, x, hrun, hx, hsolo, hids, -⟩ := h.schedules hop hstep
    exact schedYield_turning hsolo hids hrun hx
  · cases hstep with
    | user current only => exact (h.user current only).1
    | call current run still back => exact (h.call current run still back).1
    | yield => exact absurd trivial hop
    | block => exact absurd trivial hop
    | ready => exact absurd trivial hop
    | exit => exact absurd trivial hop

/-! ## The position of the search

Seen from `i`, the slots are ordered by their distance from it.  While `j` waits, the slot that has
the CPU is closer to `i` than `j` is, and it moves away from `i`. -/

/-- The search goes from `c` to `e`, and `j` is not before `e`. -/
theorem position_next {c : EnvIndex} (hc : c - i < j - i) (hle : e - c ≤ j - c) (hec : e ≠ c)
    (hej : e ≠ j) : e - i < j - i ∧ e ≠ i := by
  have hec' : e.val ≠ c.val := fun h => hec (Fin.ext h)
  have hej' : e.val ≠ j.val := fun h => hej (Fin.ext h)
  rw [Fin.lt_def, Fin.val_sub, Fin.val_sub] at hc
  rw [Fin.le_def, Fin.val_sub, Fin.val_sub] at hle
  refine ⟨?_, ?_⟩
  · rw [Fin.lt_def, Fin.val_sub, Fin.val_sub]
    omega
  · rintro rfl
    omega

/-- The search goes from the first slot to `e`, and both `e` and `j` are on the same side of `c`. -/
theorem position_exit {c : EnvIndex} (hc : c - i < j - i) (hle : e ≤ j) (hej : e ≠ j)
    (hside : (c < e ∧ c < j) ∨ (e < c ∧ j < c)) : e - i < j - i ∧ e ≠ i := by
  have hej' : e.val ≠ j.val := fun h => hej (Fin.ext h)
  rw [Fin.lt_def, Fin.val_sub, Fin.val_sub] at hc
  rw [Fin.le_def] at hle
  simp only [Fin.lt_def] at hside
  refine ⟨?_, ?_⟩
  · rw [Fin.lt_def, Fin.val_sub, Fin.val_sub]
    omega
  · rintro rfl
    omega

/-- **While `j` waits, no step gives the CPU to `i`.** -/
theorem Kernel.Turning.approach {op : Turn} {c : EnvIndex} (h : s.Turning) (hstep : s.Turns op s')
    (hc : s.curenv = some c) (hpos : c - i < j - i) (hj : s.Runnable j) (hj' : s'.Runnable j)
    (hturn : s.InTurn op) :
    ∃ c', s'.curenv = some c' ∧ c' - i < j - i ∧ (op.Schedules → c' ≠ i) := by
  by_cases hop : op.Schedules
  · obtain ⟨u, x, hrun, -, hsolo, hids, hkept, hcur⟩ := h.schedules hop hstep
    have hsame := hkept fun hready => by
      subst hready
      exact hturn j hj
    obtain ⟨e, d, hst, -, hmin, hrun'⟩ :=
      schedYield_runnable hsolo.sane.dirs ((hsame j).2 hj)
    cases hrun.symm.trans hrun'
    have he : s.Runnable e := (hsame e).1 hst
    have hej : e ≠ j := by
      rintro rfl
      rw [Runnable, dispatch_self] at hj'
      simp [dispatchedEnv] at hj'
    have hec : e ≠ c := by
      rintro rfl
      rw [Runnable, h.cur e hc] at he
      simp at he
    have hrank := hmin j ((hsame j).2 hj)
    refine ⟨e, dispatch_curenv u e d, ?_⟩
    rcases hcur with hcur | ⟨rfl, hcur⟩
    · rw [schedRank, schedRank, schedStart_some hsolo.sane hids (hcur.trans hc)] at hrank
      exact (position_next hpos hrank hec hej).imp_right fun hne _ => hne
    · rw [schedRank_none hcur, schedRank_none hcur] at hrank
      refine (position_exit hpos hrank hej ?_).imp_right fun hne _ => hne
      rcases hturn c hc with hup | hdown
      · exact Or.inl ⟨hup e he, hup j hj⟩
      · exact Or.inr ⟨hdown e he, hdown j hj⟩
  · -- the same environment goes on
    refine ⟨c, ?_, hpos, fun hs => absurd hs hop⟩
    cases hstep with
    | user current only => exact hc ▸ current ▸ (h.user current only).2
    | call current run still back => exact hc ▸ current ▸ (h.call current run still back).2
    | yield => exact absurd trivial hop
    | block => exact absurd trivial hop
    | ready => exact absurd trivial hop
    | exit => exact absurd trivial hop

/-! ## Whole runs -/

theorem i386Init_turning {m : Machine} {s₀ : Kernel}
    (hboot : (i386Init m).run m.powerOn = .ok () s₀) : s₀.Turning := by
  obtain ⟨res, fl, hb, hids⟩ := i386Init_induct (I := fun s => s.IdsOk) hboot
    (fun fl t ht e he => absurd (ht.envs e).1 he) fun res fl t e p fl' t' _ ht hc => by
      obtain ⟨tf, type, henvs⟩ := hc.envs
      exact ht.alloc ⟨_, rfl⟩ henvs
  refine ⟨(hb.soloOn s₀.cpunum).solo, hids, fun e he => ?_⟩
  exact absurd ((hb.cpus s₀.cpunum).symm.trans he) (by simp)

/-- **No environment is passed over twice.**  In every run on one CPU in which, whenever an
environment exits, the environments that can run are all above it or all below it, and none declares
itself runnable while another one waits, no environment is dispatched twice while another one is
runnable all the time. -/
theorem reaches_not_overtakes {m : Machine} {s₀ : Kernel}
    (hboot : (i386Init m).run m.powerOn = .ok () s₀) (i j : EnvIndex) :
    ¬ s₀.Overtakes Kernel.InTurn i j := by
  rintro ⟨s, op, s₁, t, op', t', hreach, -, ⟨hstep, -, hcur⟩, hrun, hj, hturn,
    ⟨hstep', hop', hcur'⟩, hj'⟩
  have hs : s.Turning := hreach.inv (i386Init_turning hboot) fun _ _ _ h _ hstep => h.step hstep
  have hs₁ := hs.step hstep
  -- as long as `j` can run, the current environment is closer to `i`
  have ht := hrun.inv (I := fun t => t.Turning ∧
    (t.Runnable j → ∃ c, t.curenv = some c ∧ c - i < j - i)) ⟨hs₁, fun hj₁ => ⟨i, hcur, ?_⟩⟩
    fun u op u' h good hstep => ⟨h.1.step hstep, fun hj' => by
      obtain ⟨c, hc, hpos⟩ := h.2 good.2
      obtain ⟨c', hc', hpos', -⟩ := h.1.approach hstep hc hpos good.2 hj' good.1
      exact ⟨c', hc', hpos'⟩⟩
  · obtain ⟨c, hc, hpos⟩ := ht.2 hj
    obtain ⟨c', hc', -, hne⟩ := ht.1.approach hstep' hc hpos hj hj' hturn
    exact hne hop' (Option.some_inj.1 (hc'.symm.trans hcur'))
  · have hne : j.val ≠ i.val := by
      intro hij
      obtain rfl : j = i := Fin.ext hij
      rw [Runnable, hs₁.cur j hcur] at hj₁
      simp at hj₁
    rw [Fin.lt_def, Fin.val_sub, Fin.val_sub]
    omega

/-- Three programs, of which none has exited yet. -/
theorem reaches_not_overtakes_three : ∃ s₀,
    (i386Init (busyMachine 3)).run (busyMachine 3).powerOn = .ok () s₀ ∧
      ¬ s₀.Overtakes Kernel.InTurn 0 2 := by
  obtain ⟨-, -, s₀, hboot, -⟩ := busyMachine_run (k := 3) (by decide)
  exact ⟨s₀, hboot, reaches_not_overtakes hboot 0 2⟩

theorem Kernel.Runnable.dispatch (h : s.Runnable e) {e' : EnvIndex} (hne : e ≠ e') (d : Nat) :
    (s.dispatch e' d).Runnable e := by
  rw [Runnable, dispatch_other s hne, descheduled]
  split
  · rfl
  · exact h

/-- The second slot, when the first has the CPU. -/
theorem schedYield_second (h : u.Turning) (hc : u.curenv = some 0) (h1 : u.Runnable 1) :
    ∃ d, schedYield.run u = .error .popTf (u.dispatch 1 d) := by
  obtain ⟨e, d, hst, -, hmin, hrun⟩ := schedYield_runnable h.solo.sane.dirs h1
  have hle := hmin 1 h1
  rw [schedRank, schedRank, schedStart_some h.solo.sane h.ids hc] at hle
  have hne : e ≠ 0 := by
    rintro rfl
    rw [h.cur 0 hc] at hst
    simp at hst
  obtain rfl : e = 1 := by
    have h0 : e.val ≠ 0 := fun hv => hne (Fin.ext hv)
    rw [Fin.le_def, Fin.val_sub, Fin.val_sub] at hle
    apply Fin.ext
    show e.val = 1
    have hz : (0 : EnvIndex).val = 0 := rfl
    have ho : (1 : EnvIndex).val = 1 := rfl
    omega
  exact ⟨d, hrun⟩

/-- Three programs: the first is dispatched, and then the second, which exits.  The first is
dispatched again, and the third has been waiting all the time. -/
theorem overtakes_exit : ∃ s₀, (i386Init (busyMachine 3)).run (busyMachine 3).powerOn = .ok () s₀ ∧
    s₀.Overtakes (fun _ _ => True) 0 2 := by
  obtain ⟨res, fl, s₀, hboot, hf, -⟩ := busyMachine_run (k := 3) (by decide)
  refine ⟨s₀, hboot, ?_⟩
  have h₀ := i386Init_turning hboot
  have hc₀ : s₀.curenv = none := hf.booted.cpus s₀.cpunum
  have hst₀ : ∀ e : EnvIndex, e.val < 3 → s₀.Runnable e := fun e he => (hf.filled e he).1
  -- the first
  obtain ⟨d₁, hrun₁⟩ := schedYield_first h₀.solo.sane.dirs hc₀ (hst₀ 0 (by decide))
  generalize hs₁ : s₀.dispatch 0 d₁ = s₁ at hrun₁
  have hstep₁ : s₀.Turns .yield s₁ := .yield hrun₁ (Or.inl rfl)
  have h₁ := h₀.step hstep₁
  have hc₁ : s₁.curenv = some 0 := by rw [← hs₁, dispatch_curenv]
  have hst₁ : ∀ e : EnvIndex, e ≠ 0 → e.val < 3 → s₁.Runnable e := by
    intro e hne he
    rw [← hs₁]
    exact (hst₀ e he).dispatch hne d₁
  have hinv₁ : Inv res fl s₁ := by
    rw [← hs₁]
    exact hf.booted.inv.handover (dispatch_handover (Or.inl (hst₀ 0 (by decide))) d₁)
  -- the second
  obtain ⟨d₂, hrun₂⟩ := schedYield_second h₁ hc₁ (hst₁ 1 (by decide) (by decide))
  generalize hs₂ : s₁.dispatch 1 d₂ = s₂ at hrun₂
  have hstep₂ : s₁.Turns .yield s₂ := .yield hrun₂ (Or.inl rfl)
  have h₂ := h₁.step hstep₂
  have hc₂ : s₂.curenv = some 1 := by rw [← hs₂, dispatch_curenv]
  have h2₂ : s₂.Runnable 2 := by
    rw [← hs₂]
    exact (hst₁ 2 (by decide) (by decide)).dispatch (by decide) d₂
  have h0₂ : s₂.Runnable 0 := by
    rw [← hs₂, Runnable, dispatch_other s₁ (by decide), descheduled, if_pos ⟨hc₁, h₁.cur 0 hc₁⟩]
  have hinv₂ : Inv res fl s₂ := by
    rw [← hs₂]
    exact hinv₁.handover (dispatch_handover (Or.inl (hst₁ 1 (by decide) (by decide))) d₂)
  -- it exits
  obtain ⟨t, fl', hfree, hinv, -⟩ := hinv₂.envFree_run (h₂.solo.sane.cur 1 hc₂)
  have hsame : ∀ e : EnvIndex, e ≠ 1 → s₂.Runnable e → (t.setCurenv none).Runnable e := by
    intro e hne he
    rw [Runnable, setCurenv_envs, ((envFree_effect s₂ 1).of_ok rfl hfree).envs]
    simpa [freed, hne, Runnable] using he
  obtain ⟨d₃, hrun₃⟩ := schedYield_first (u := t.setCurenv none) hinv.live_dir
    (setCurenv_curenv t none) (hsame 0 (by decide) h0₂)
  have hstep₃ : s₂.Turns .exit ((t.setCurenv none).dispatch 0 d₃) := by
    refine .exit hc₂ ?_ (Or.inl rfl)
    rw [envDestroy_current hc₂, run_bind_ok hfree, run_bind_ok (EStateM.run_modify _ _), hrun₃]
  refine ⟨s₀, .yield, s₁, s₂, .exit, _, .refl, trivial, ⟨hstep₁, trivial, hc₁⟩,
    .tail .refl ⟨trivial, hst₁ 2 (by decide) (by decide)⟩ hstep₂, h2₂, trivial,
    ⟨hstep₃, trivial, dispatch_curenv _ 0 d₃⟩, ?_⟩
  exact (hsame 2 (by decide) h2₂).dispatch (by decide) d₃

end Jos
