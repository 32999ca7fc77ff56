import Jos.Lib.Trace
import Jos.RoundRobin

/-!
# The search of `sched_yield`

The loop starts at the slot of the current environment and not at the one after it, and goes on
until it is back there; a flag lets it into the first round.  Written out like that, with a note for
every slot it looks at and for what it ends in, it looks at every slot at most once, and what it
finds is the first runnable environment after the current one as long as the current one is not
runnable itself.
-/

set_option autoImplicit false

namespace Jos

open Kernel Command Traced

variable {s : Kernel} {e : EnvIndex}

/-! ## The loop with notes -/

/-- The calls that `sched_yield` ends in. -/
inductive Choice where
  | run (e : EnvIndex)
  | halt

def Choice.call : Choice → KernelM Unit
  | run e => envRun e
  | halt => schedHalt

/-- What `sched_yield` does: it reads the status of a slot, or makes the call. -/
inductive SchedNote where
  | look (i : EnvIndex)
  | choose (c : Choice)

namespace Scan

/-- The loop body of `sched_yield`. -/
def schedTry (i : EnvIndex) : EStateM Exit (Traced Kernel SchedNote) Unit := do
  tell (.look i)
  if ((← lift get).envs i).envStatus = .runnable then
    tell (.choose (.run i))
    lift (envRun i)

/-- The loop of `sched_yield`: `for (; i != start || first; i = (i+1) % NENV, first = false)`. -/
def schedLoop (start i : EnvIndex) (first : Bool) : EStateM Exit (Traced Kernel SchedNote) Unit :=
  if i ≠ start ∨ first = true then do
    schedTry i
    schedLoop start (i + 1) false
  else
    pure ()
termination_by if first = true then 1024 else (start - i).val
decreasing_by
  rename_i h
  rw [if_neg (by decide)]
  split
  · exact (start - (i + 1)).isLt
  · rename_i hf
    have hne : i ≠ start := h.resolve_right hf
    have := start.isLt
    have := i.isLt
    have hval : i.val ≠ start.val := fun hv => hne (Fin.ext hv)
    rw [Fin.val_sub, Fin.val_sub, Fin.val_add]
    simp only [Fin.val_one]
    omega

/-- The slot at which `sched_yield` starts. -/
def schedStart : Option EnvIndex → EStateM Exit (Traced Kernel SchedNote) EnvIndex
  | some e => do return envx ((← lift get).envs e).envId
  | none => return 0

/-- What `sched_yield` does if the search finds nothing. -/
def schedIdle : Option EnvIndex → EStateM Exit (Traced Kernel SchedNote) Unit
  | some e => do
    if ((← lift get).envs e).envStatus = .running then
      tell (.choose (.run e))
      lift (envRun e)
    tell (.choose .halt)
    lift schedHalt
  | none => do
    tell (.choose .halt)
    lift schedHalt

/-- `sched_yield`. -/
def schedYield : EStateM Exit (Traced Kernel SchedNote) Unit := do
  let idle := (← lift get).curenv
  let start ← schedStart idle
  schedLoop start start true
  schedIdle idle

/-! ## Without the notes -/

theorem schedTry_erases (i : EnvIndex) : Erases (schedTry i) (Jos.schedTry i) := by
  refine Erases.tell ((Erases.lift get).bind fun s => Erases.ite ?_ (Erases.pure ()))
  exact Erases.tell (Erases.lift (envRun i))

/-- The slot at distance `k`. -/
theorem slot_val (start : EnvIndex) (k : Nat) :
    (start + Fin.ofNat 1024 k).val = (start.val + k) % 1024 := by
  rw [Fin.val_add, Fin.val_ofNat, Nat.add_mod_mod]

theorem slot_round (start : EnvIndex) {k : Nat} (hk : k ≤ 1024) :
    start + Fin.ofNat 1024 k = start ↔ k = 0 ∨ k = 1024 := by
  have hlt := start.isLt
  rw [Fin.ext_iff, slot_val]
  omega

theorem slot_succ (start : EnvIndex) (k : Nat) :
    start + Fin.ofNat 1024 k + 1 = start + Fin.ofNat 1024 (k + 1) := by
  have hlt := start.isLt
  rw [Fin.ext_iff, Fin.val_add, slot_val, slot_val, Fin.val_one]
  omega

/-- From the `k`-th round on, the loop visits the slots at the distances from `k` to 1023. -/
theorem schedLoop_from (start : EnvIndex) {k n : Nat} (h : k + n = 1024) :
    schedLoop start (start + Fin.ofNat 1024 k) (decide (k = 0)) =
      ((indicesFrom k n).map (start + ·)).forM schedTry := by
  induction n generalizing k with
  | zero =>
    have hback := (slot_round start (k := k) (by omega)).2 (Or.inr h)
    have hfirst : ¬ k = 0 := by omega
    rw [schedLoop, hback, if_neg (by simp [hfirst])]
    rfl
  | succ n ih =>
    have henter : start + Fin.ofNat 1024 k ≠ start ∨ decide (k = 0) = true := by
      rw [Ne, slot_round start (by omega), decide_eq_true_iff]
      omega
    have hfirst : false = decide (k + 1 = 0) := by simp
    rw [schedLoop, if_pos henter, slot_succ, hfirst, ih (by omega)]
    rfl

/-- **The loop goes round once.** -/
theorem schedLoop_eq (start : EnvIndex) :
    schedLoop start start true = (schedOrder start).forM schedTry := by
  have h := schedLoop_from start (k := 0) (n := 1024) rfl
  rwa [(slot_round start (by omega)).2 (Or.inl rfl)] at h

theorem forM_erases (l : List EnvIndex) : Erases (l.forM schedTry) (l.forM Jos.schedTry) := by
  induction l with
  | nil => exact Erases.pure ()
  | cons i l ih => exact (schedTry_erases i).bind fun _ => ih

theorem schedYield_erases : Erases schedYield Jos.schedYield := by
  refine (Erases.lift get).bind fun s => ?_
  cases s.curenv with
  | none =>
    refine (Erases.pure 0).bind fun start => ?_
    rw [schedLoop_eq]
    exact (forM_erases _).bind fun _ => Erases.tell (Erases.lift schedHalt)
  | some e =>
    simp only [schedStart, bind_assoc]
    refine (Erases.lift get).bind fun s' => (Erases.pure _).bind fun start => ?_
    rw [schedLoop_eq]
    refine (forM_erases _).bind fun _ => (Erases.lift get).bind fun s'' => ?_
    refine Erases.ite ?_ (Erases.tell (Erases.lift schedHalt))
    exact Erases.tell ((Erases.lift (envRun e)).bind fun _ => Erases.tell (Erases.lift schedHalt))

end Scan

/-! ## What the search finds -/

/-- `env_run` does not come back, even for an environment without a page directory. -/
theorem envRun_error (s : Kernel) (e : EnvIndex) : ∃ x s', (envRun e).run s = .error x s' := by
  cases hd : (s.envs e).envPgdir with
  | some d => exact ⟨_, _, envRun_run hd⟩
  | none =>
    obtain ⟨st, hst⟩ := s.descheduled_eq e
    simp only [envRun, EStateM.run_bind, deschedule_run, EStateM.run_modify, EStateM.run_get,
      updateEnv, setCurenv_envs, setEnv_envs, Function.update_self, hst, hd, paddr, run_throw]
    exact ⟨_, _, rfl⟩

namespace Scan

variable {l : List EnvIndex} {tr : List SchedNote}

theorem schedTry_look (h : (s.envs e).envStatus ≠ .runnable) :
    (schedTry e).run ⟨s, tr⟩ = .ok () ⟨s, tr ++ [.look e]⟩ := by
  rw [schedTry, run_bind_ok (tell_run _), run_bind_ok (lift_ok (EStateM.run_get s)), if_neg h]
  rfl

theorem schedTry_choose {x : Exit} {s' : Kernel} (h : (s.envs e).envStatus = .runnable)
    (hrun : (envRun e).run s = .error x s') :
    (schedTry e).run ⟨s, tr⟩ = .error x ⟨s', tr ++ [.look e] ++ [.choose (.run e)]⟩ := by
  rw [schedTry, run_bind_ok (tell_run _), run_bind_ok (lift_ok (EStateM.run_get s)), if_pos h,
    run_bind_ok (tell_run _), lift_error hrun]

/-- The search over any list of slots ends at the first that is runnable. -/
theorem forM_run (s : Kernel) (l : List EnvIndex) (tr : List SchedNote) :
    ((∀ i ∈ l, ¬ s.Runnable i) ∧ (l.forM schedTry).run ⟨s, tr⟩ = .ok () ⟨s, tr ++ l.map .look⟩) ∨
    ∃ l₁ e l₂, l = l₁ ++ e :: l₂ ∧ (∀ i ∈ l₁, ¬ s.Runnable i) ∧ s.Runnable e ∧
      ∃ x s', (envRun e).run s = .error x s' ∧ (l.forM schedTry).run ⟨s, tr⟩ =
        .error x ⟨s', tr ++ (l₁ ++ [e]).map .look ++ [.choose (.run e)]⟩ := by
  induction l generalizing tr with
  | nil => exact Or.inl ⟨by simp, by rw [List.map_nil, List.append_nil]; rfl⟩
  | cons i l ih =>
    rw [show (i :: l).forM schedTry = (schedTry i >>= fun _ => l.forM schedTry) from rfl]
    by_cases hi : s.Runnable i
    · obtain ⟨x, s', hrun⟩ := envRun_error s i
      exact Or.inr ⟨[], i, l, rfl, by simp, hi, x, s', hrun,
        run_bind_error (schedTry_choose hi hrun)⟩
    · rw [run_bind_ok (schedTry_look hi)]
      rcases ih (tr ++ [.look i]) with ⟨hno, hrun⟩ | ⟨l₁, e, l₂, rfl, hno, he, x, s', hx, hrun⟩
      · refine Or.inl ⟨List.forall_mem_cons.2 ⟨hi, hno⟩, ?_⟩
        rw [hrun, List.map_cons, List.append_assoc, List.singleton_append]
      · refine Or.inr ⟨i :: l₁, e, l₂, rfl, List.forall_mem_cons.2 ⟨hi, hno⟩, he, x, s', hx, ?_⟩
        rw [hrun, List.append_assoc tr, List.singleton_append, ← List.map_cons, List.cons_append]

end Scan

/-- The order of the search is that of the distances from its start. -/
theorem schedOrder_sorted (start : EnvIndex) :
    (schedOrder start).Pairwise fun a b => a - start < b - start := by
  rw [schedOrder, List.pairwise_map]
  refine sorted_indices.imp fun {a b} h => ?_
  rwa [slot_add_sub_left, slot_add_sub_left]

theorem schedOrder_nodup (start : EnvIndex) : (schedOrder start).Nodup := by
  refine (schedOrder_sorted start).imp fun {a b} h => ?_
  rintro rfl
  exact lt_irrefl _ h

theorem mem_schedOrder (start e : EnvIndex) : e ∈ schedOrder start :=
  List.mem_map.2 ⟨e - start, mem_indices _, slot_add_sub start e⟩

/-! ## The next environment -/

namespace Kernel

/-- What a round-robin scheduler does that counts from slot `start`. -/
inductive Picks (s : Kernel) (start : EnvIndex) : Choice → Prop where
  /-- The nearest runnable environment is run, going round. -/
  | next {e : EnvIndex} (runnable : s.Runnable e)
      (nearest : ∀ e', s.Runnable e' → e - start ≤ e' - start) : Picks s start (.run e)
  /-- There is none, and the current one goes on. -/
  | again {e : EnvIndex} (none : ∀ e', ¬ s.Runnable e') (current : s.curenv = some e)
      (running : (s.envs e).envStatus = .running) : Picks s start (.run e)
  /-- There is nothing to run. -/
  | halt (none : ∀ e', ¬ s.Runnable e')
      (idle : ∀ e, s.curenv = some e → (s.envs e).envStatus ≠ .running) : Picks s start .halt

/-- The slot just after that of the current environment. -/
def nextSlot (s : Kernel) : EnvIndex :=
  match s.curenv with
  | some e => e + 1
  | none => 0

end Kernel

/-- An environment that is running and not the current one is not picked. -/
theorem Kernel.Picks.current {start : EnvIndex} (h : s.Picks start (.run e))
    (hrun : (s.envs e).envStatus = .running) : s.curenv = some e := by
  cases h with
  | next hst _ => exact absurd (hst.symm.trans hrun) (by decide)
  | again _ hc _ => exact hc

/-- Counted from a slot or from the one after it, the order of all the others is the same. -/
theorem distance_le {c a b : EnvIndex} (ha : a ≠ c) (hb : b ≠ c) (h : a - c ≤ b - c) :
    a - (c + 1) ≤ b - (c + 1) := by
  have hav : a.val ≠ c.val := fun hv => ha (Fin.ext hv)
  have hbv : b.val ≠ c.val := fun hv => hb (Fin.ext hv)
  have := a.isLt
  have := b.isLt
  have := c.isLt
  rw [Fin.le_def, Fin.val_sub, Fin.val_sub] at h
  rw [Fin.le_def, Fin.val_sub, Fin.val_sub, Fin.val_add, Fin.val_one]
  omega

/-- A scan that begins with a slot which is not runnable might as well begin with the next. -/
theorem Kernel.Picks.succ {c : EnvIndex} {p : Choice} (h : s.Picks c p) (hc : ¬ s.Runnable c) :
    s.Picks (c + 1) p := by
  have hne : ∀ e, s.Runnable e → e ≠ c := fun e he hec => hc (hec ▸ he)
  cases h with
  | next hst hmin =>
    exact .next hst fun e' he' => distance_le (hne _ hst) (hne _ he') (hmin e' he')
  | again hnone hcur hrun => exact .again hnone hcur hrun
  | halt hnone hidle => exact .halt hnone hidle

namespace Scan

variable {tr : List SchedNote}

theorem schedStart_run (s : Kernel) :
    (schedStart s.curenv).run ⟨s, tr⟩ = .ok s.schedStart ⟨s, tr⟩ := by
  rw [Kernel.schedStart]
  cases s.curenv with
  | none => rfl
  | some e => rfl

/-- With nothing runnable, the current environment goes on if it is running, and the CPU halts if
not. -/
theorem schedIdle_run (hnone : ∀ e, ¬ s.Runnable e) (start : EnvIndex) (tr : List SchedNote) :
    ∃ p, s.Picks start p ∧ ∃ x s', p.call.run s = .error x s' ∧
      (schedIdle s.curenv).run ⟨s, tr⟩ = .error x ⟨s', tr ++ [.choose p]⟩ := by
  have hhalt (hidle : ∀ e, s.curenv = some e → (s.envs e).envStatus ≠ .running) :
      ∃ x s', schedHalt.run s = .error x s' ∧ (do
        tell (.choose .halt)
        lift schedHalt : EStateM Exit (Traced Kernel SchedNote) Unit).run ⟨s, tr⟩ =
        .error x ⟨s', tr ++ [.choose .halt]⟩ := by
    obtain ⟨x, s', hx, -⟩ := schedHalt_leaves hnone hidle
    exact ⟨x, s', hx, by rw [run_bind_ok (tell_run _), lift_error hx]⟩
  cases hc : s.curenv with
  | none =>
    have hidle : ∀ e, s.curenv = some e → (s.envs e).envStatus ≠ .running := by simp [hc]
    exact ⟨.halt, .halt hnone hidle, hhalt hidle⟩
  | some e =>
    rw [schedIdle, run_bind_ok (lift_ok (EStateM.run_get s))]
    by_cases hrun : (s.envs e).envStatus = .running
    · obtain ⟨x, s', hx⟩ := envRun_error s e
      refine ⟨.run e, .again hnone hc hrun, x, s', hx, ?_⟩
      rw [if_pos hrun, run_bind_ok (tell_run _), run_bind_error (lift_error hx)]
    · have hidle : ∀ e, s.curenv = some e → (s.envs e).envStatus ≠ .running := by simp [hc, hrun]
      rw [if_neg hrun]
      exact ⟨.halt, .halt hnone hidle, hhalt hidle⟩

/-- The scan, from wherever it starts. -/
theorem schedYield_run (s : Kernel) : ∃ (looks : List EnvIndex) (p : Choice), looks.Nodup ∧
    s.Picks s.schedStart p ∧ ∃ x s', p.call.run s = .error x s' ∧
      schedYield.run ⟨s, []⟩ = .error x ⟨s', looks.map .look ++ [.choose p]⟩ := by
  rw [schedYield, run_bind_ok (lift_ok (EStateM.run_get s)), run_bind_ok (schedStart_run s),
    schedLoop_eq]
  have hmem := mem_schedOrder s.schedStart
  have hsorted := schedOrder_sorted s.schedStart
  have hnodup := schedOrder_nodup s.schedStart
  generalize schedOrder s.schedStart = l at hmem hsorted hnodup
  rcases forM_run s l [] with ⟨hno, hrun⟩ | ⟨l₁, e, l₂, rfl, hno, he, x, s', hx, hrun⟩
  · obtain ⟨p, hp, hcall⟩ := schedIdle_run (fun e => hno e (hmem e)) s.schedStart (l.map .look)
    rw [run_bind_ok hrun]
    exact ⟨l, p, hnodup, hp, hcall⟩
  · have hsplit : l₁ ++ e :: l₂ = l₁ ++ [e] ++ l₂ := by simp
    rw [hsplit] at hnodup
    refine ⟨l₁ ++ [e], .run e, (List.nodup_append.1 hnodup).1, .next he fun e' he' => ?_,
      x, s', hx, run_bind_error hrun⟩
    rcases List.mem_append.1 (hmem e') with h1 | h2
    · exact absurd he' (hno e' h1)
    · rcases List.mem_cons.1 h2 with rfl | h2
      · exact le_refl _
      · have htail := (List.pairwise_append.1 hsorted).2.1
        exact le_of_lt (List.rel_of_pairwise_cons htail h2)

end Scan

/-- **`sched_yield` is a round-robin scheduler.**  It looks at no slot twice, and calls `env_run` or
`sched_halt`.  If the current environment is not runnable, the environment it runs is the nearest
runnable one from the slot after the current one; without a runnable one it is the current one, if
that is running; otherwise the CPU halts.  It never runs one that is running on another CPU. -/
theorem schedYield_picks (s : Kernel)
    (hslot : ∀ c, s.curenv = some c → envx (s.envs c).envId = c) :
    ∃ (looks : List EnvIndex) (p : Choice),
      traceOf Scan.schedYield s = looks.map .look ++ [.choose p] ∧
      schedYield.run s = p.call.run s ∧ looks.Nodup ∧
      (∀ e, p = .run e → (s.envs e).envStatus = .running → s.curenv = some e) ∧
      ((∀ c, s.curenv = some c → ¬ s.Runnable c) → s.Picks s.nextSlot p) := by
  obtain ⟨looks, p, hnodup, hp, x, s', hcall, hrun⟩ := Scan.schedYield_run s
  refine ⟨looks, p, traceOf_error hrun, ?_, hnodup, ?_, fun hidle => ?_⟩
  · rw [hcall, Scan.schedYield_erases.error hrun]
  · rintro e rfl
    exact hp.current
  · rw [schedStart] at hp
    rw [nextSlot]
    cases hc : s.curenv with
    | none => rwa [hc] at hp
    | some c =>
      rw [hc] at hp
      have hpc : s.Picks c p := hslot c hc ▸ hp
      exact hpc.succ (hidle c hc)

/-! ## A choice among three -/

/-- Slots 2, 9 and 1000 are runnable, slot 3 runs on the other CPU, and this CPU's environment, in
slot 5, has just blocked. -/
def severalEnvs : Kernel :=
  { oneEnv with
    envs := fun e => { oneEnv.envs 0 with
      envId := BitVec.ofNat 32 (4096 + e.val)
      envStatus :=
        if e = 2 ∨ e = 9 ∨ e = 1000 then .runnable else if e = 3 then .running else .notRunnable }
    cpus := fun c => ⟨.started, some (if c = 0 then 5 else 3)⟩ }

theorem severalEnvs_runnable : severalEnvs.Runnable e ↔ e = 2 ∨ e = 9 ∨ e = 1000 := by
  rw [Runnable, severalEnvs]
  dsimp only
  split
  · exact iff_of_true rfl ‹_›
  · split
    · exact iff_of_false (by decide) ‹_›
    · exact iff_of_false (by decide) ‹_›

/-- From the slot after 5, the nearest of the three is 9: it is dispatched. -/
theorem schedYield_picks_severalEnvs : ∃ looks : List EnvIndex,
    traceOf Scan.schedYield severalEnvs = looks.map .look ++ [.choose (.run 9)] ∧
    schedYield.run severalEnvs = (envRun 9).run severalEnvs ∧ looks.Nodup := by
  have hcur : severalEnvs.curenv = some 5 := rfl
  obtain ⟨looks, p, htrace, hrun, hnodup, -, hpicks⟩ := schedYield_picks severalEnvs fun c hc => by
    obtain rfl : 5 = c := Option.some_inj.1 (hcur.symm.trans hc)
    decide
  have hblocked : ∀ c, severalEnvs.curenv = some c → ¬ severalEnvs.Runnable c := fun c hc => by
    obtain rfl : 5 = c := Option.some_inj.1 (hcur.symm.trans hc)
    rw [severalEnvs_runnable]
    decide
  have hp : p = .run 9 := by
    have hnine : severalEnvs.Runnable 9 := severalEnvs_runnable.2 (Or.inr (Or.inl rfl))
    cases hpicks hblocked with
    | @next e he hnear =>
      have hle : e - 6 ≤ 9 - 6 := hnear 9 hnine
      rcases severalEnvs_runnable.1 he with rfl | rfl | rfl
      · exact absurd hle (by decide)
      · rfl
      · exact absurd hle (by decide)
    | again hnone => exact absurd hnine (hnone 9)
    | halt hnone => exact absurd hnine (hnone 9)
  subst hp
  exact ⟨looks, htrace, hrun, hnodup⟩

end Jos
