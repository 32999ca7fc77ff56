import Jos.Alloc.Run
import Jos.Env.Id

/-!
# The environment table over whole runs

A run starts where `env_init` ends.  Each step creates an environment, or is taken by a live
environment that has the CPU: it forks, sets a status, destroys an environment, or is destroyed
because of a fault.  `TableOk` holds in every state of every such run: `env_free_list` is a list of
exactly the free slots, and every other slot holds an environment with an id of its own and a page
directory of its own.

Most of it is in the allocator invariant.  What that does not speak about are the ids, which
`env_alloc` makes from the slot's previous id and nothing else changes.
-/

set_option autoImplicit false

namespace Jos

open Kernel Command

variable {res : Nat → Prop} {fl : List Nat} {s s' : Kernel} {e cur : EnvIndex}

/-! ## The property -/

/-- The environment table is in order. -/
structure Kernel.TableOk (s : Kernel) : Prop where
  /-- `env_free_list` ends, has no slot twice, and leads through exactly the free slots. -/
  free : ∃ el, Chain (fun e => (s.envs e).envLink) s.envFreeList el ∧ el.Nodup ∧
    ∀ e, e ∈ el ↔ (s.envs e).envStatus = .free
  /-- The id of a live environment is positive and names its slot. -/
  id : ∀ e, (s.envs e).envStatus ≠ .free →
    0 < (s.envs e).envId.toInt ∧ envx (s.envs e).envId = e
  /-- A live environment has a page directory, which no other live environment has. -/
  dir : ∀ e, (s.envs e).envStatus ≠ .free → ∃ d, (s.envs e).envPgdir = some d ∧
    ∀ e', (s.envs e').envStatus ≠ .free → (s.envs e').envPgdir = some d → e' = e
  /-- Live environments have different ids. -/
  distinct : ∀ e e', (s.envs e).envStatus ≠ .free → (s.envs e').envStatus ≠ .free →
    (s.envs e).envId = (s.envs e').envId → e = e'
  /-- An id is resolved to the live environment that carries it, -/
  found : ∀ envid e, envid ≠ 0#32 → ((envid2env envid false).run s = .ok (0#32, some e) s ↔
    (s.envs e).envStatus ≠ .free ∧ (s.envs e).envId = envid)
  /-- and is an error if there is none. -/
  missing : ∀ envid, envid ≠ 0#32 →
    (∀ e, (s.envs e).envStatus ≠ .free → (s.envs e).envId ≠ envid) →
      (envid2env envid false).run s = .ok (-eBadEnv, none) s

/-! ## Runs -/

/-- What changes the environment table. -/
inductive TableOp where
  | create (elf : Elf) (type : EnvType)
  | exofork (caller : EnvIndex)
  | setStatus (caller : EnvIndex) (envid status : Word)
  | destroy (caller : EnvIndex) (envid : Word)
  | fault (caller : EnvIndex)

/-- One step: `env_create` returns, or a live environment has the CPU and makes a call or causes a
fault that it does not survive. -/
inductive Kernel.TableStep (s : Kernel) : TableOp → Kernel → Prop where
  | create {elf : Elf} {type : EnvType} {s' : Kernel}
      (run : (envCreate elf type).run s = .ok () s') :
      TableStep s (.create elf type) s'
  | exofork {caller : EnvIndex} (live : (s.envs caller).envStatus ≠ .free) :
      TableStep s (.exofork caller) (final sysExofork (s.setCurenv (some caller)))
  | setStatus {caller : EnvIndex} (envid status : Word)
      (live : (s.envs caller).envStatus ≠ .free) :
      TableStep s (.setStatus caller envid status)
        (final (sysEnvSetStatus envid status) (s.setCurenv (some caller)))
  | destroy {caller : EnvIndex} (envid : Word) (live : (s.envs caller).envStatus ≠ .free) :
      TableStep s (.destroy caller envid)
        (final (sysEnvDestroy envid) (s.setCurenv (some caller)))
  | fault {caller : EnvIndex} (live : (s.envs caller).envStatus ≠ .free) :
      TableStep s (.fault caller) (final (envDestroy caller) (s.setCurenv (some caller)))

/-! ## The ids -/

/-- Every live environment has an id that is positive and names its slot. -/
def Kernel.IdsOk (s : Kernel) : Prop :=
  ∀ e, (s.envs e).envStatus ≠ .free → 0 < (s.envs e).envId.toInt ∧ envx (s.envs e).envId = e

/-- The ids stay in order if every live environment has kept its id or got a new one. -/
theorem Kernel.IdsOk.of_envs (h : s.IdsOk)
    (henvs : ∀ e, (s'.envs e).envStatus ≠ .free →
      ((s.envs e).envStatus ≠ .free ∧ (s'.envs e).envId = (s.envs e).envId) ∨
        ∃ old, (s'.envs e).envId = nextEnvId old e) : s'.IdsOk := by
  intro e he
  rcases henvs e he with ⟨hlive, hid⟩ | ⟨old, hid⟩
  · rw [hid]
    exact h e hlive
  · rw [hid]
    exact ⟨nextEnvId_pos old e, envx_nextEnvId old e⟩

/-- Filling one slot with a new environment. -/
theorem Kernel.IdsOk.alloc (h : s.IdsOk) {env : Env} (hid : ∃ old, env.envId = nextEnvId old e)
    (henvs : s'.envs = Function.update s.envs e env) : s'.IdsOk := by
  refine h.of_envs fun e' he' => ?_
  rw [henvs] at he' ⊢
  by_cases hee : e' = e
  · subst hee
    rw [Function.update_self]
    exact Or.inr hid
  · rw [Function.update_of_ne hee] at he' ⊢
    exact Or.inl ⟨he', rfl⟩

/-- Writing the status of a live environment. -/
theorem Kernel.IdsOk.setStatus (h : s.IdsOk) (hlive : (s.envs e).envStatus ≠ .free)
    (status : EnvStatus) : (s.setEnv e { s.envs e with envStatus := status }).IdsOk := by
  refine h.of_envs fun e' he' => Or.inl ?_
  by_cases hee : e' = e
  · subst hee
    exact ⟨hlive, by simp⟩
  · simpa [hee] using he'

theorem Kernel.IdsOk.handover (h : s.IdsOk) (ho : Handover s s') : s'.IdsOk := by
  refine h.of_envs fun e he => Or.inl ⟨mt (ho.free_iff e).2 he, ?_⟩
  obtain ⟨st, runs, cpu, heq, -⟩ := ho.env e
  rw [heq]

theorem Kernel.IdsOk.freed (h : s.IdsOk) (e : EnvIndex) : (s.freed e).IdsOk := by
  refine h.of_envs fun e' he' => Or.inl ?_
  by_cases hee : e' = e
  · subst hee
    simp [Kernel.freed, freedEnv] at he'
  · simpa [Kernel.freed, hee] using he'

/-- `env_destroy`, however it ends. -/
theorem Inv.envDestroy_ids (h : Inv res fl s) (hids : s.IdsOk)
    (hlive : (s.envs e).envStatus ≠ .free) : (final (envDestroy e) s).IdsOk := by
  rcases h.envDestroy_spec hlive with
    ⟨-, -, hrun⟩ | ⟨s₁, fl₁, -, -, -, hmo, ⟨-, hrun⟩ | ⟨-, x, s', hrun, hl⟩⟩
  · rw [final_of_ok hrun]
    exact hids.setStatus hlive _
  · rw [final_of_ok hrun, IdsOk, hmo.envs]
    exact hids.freed e
  · rw [final_of_error hrun]
    have hids₁ : (s₁.setCurenv none).IdsOk := by
      rw [IdsOk, setCurenv_envs, hmo.envs]
      exact hids.freed e
    exact hids₁.handover hl.handover

/-! ## One step -/

/-- **Every step keeps the allocator invariant and the ids in order.** -/
theorem Inv.tableStep (h : Inv res fl s) (hids : s.IdsOk) {op : TableOp}
    (hstep : s.TableStep op s') :
    (∃ fl', Inv res fl' s') ∧ s'.IdsOk := by
  have hset : ∀ caller, Inv res fl (s.setCurenv (some caller)) := fun _ => h.of_cpus _ _ _
  have hset' : ∀ caller, (s.setCurenv (some caller)).IdsOk := fun _ => hids
  cases hstep with
  | @create elf type s' hrun =>
    obtain ⟨e, p, fl', hc, -⟩ :=
      (@Inv.envCreate _ _ _ False h elf type 0 False.elim False.elim).of_ok rfl hrun
    obtain ⟨tf, type, henvs⟩ := hc.envs
    exact ⟨⟨fl', hc.inv⟩, hids.alloc ⟨_, rfl⟩ henvs⟩
  | @exofork caller hlive =>
    have hcur := setCurenv_curenv s (some caller)
    obtain ⟨r, s', hrun, hspec⟩ := (hset caller).sysExofork_spec hcur hlive
    refine ⟨(hset caller).exofork_inv hcur hlive, ?_⟩
    rw [final_of_ok hrun]
    rcases hspec with ⟨-, rfl⟩ | ⟨e, p, fl', -, -, -, rfl⟩
    · exact hids
    · refine @IdsOk.alloc _ _ e (hset' caller) ((s.setCurenv (some caller)).childEnv caller e p)
        ⟨_, rfl⟩ (forked_envs _ _ _ _)
  | @setStatus caller envid status hlive =>
    have hcur := setCurenv_curenv s (some caller)
    refine ⟨(hset caller).setStatus_inv hcur hlive envid status, ?_⟩
    rcases sysEnvSetStatus_spec hcur envid status with ⟨r, -, hrun⟩ | ⟨e, st, hr, -, hrun⟩
    · rw [final_of_ok hrun]
      exact hids
    · rw [final_of_ok hrun]
      exact (hset' caller).setStatus (resolve_live hlive hr) st
  | @destroy caller envid hlive =>
    have hcur := setCurenv_curenv s (some caller)
    refine ⟨(hset caller).envDestroy_inv hcur hlive envid, ?_⟩
    cases hr : (s.setCurenv (some caller)).resolve caller envid with
    | none =>
      rw [final_of_ok (sysEnvDestroy_none hcur hr)]
      exact hids
    | some e =>
      rw [sysEnvDestroy_final hcur hr]
      exact (hset caller).envDestroy_ids (hset' caller) (resolve_live hlive hr)
  | @fault caller hlive =>
    exact ⟨(Inv.envDestroy_triple caller).final ⟨fl, hset caller, hlive⟩,
      (hset caller).envDestroy_ids (hset' caller) hlive⟩

/-! ## Whole runs -/

/-- What `envid2env` does with an id that is not zero, when it need not check who asks. -/
theorem envid2env_unchecked (s : Kernel) {envid : Word} (hid : envid ≠ 0#32) :
    (envid2env envid false).run s =
      if (s.envs (envx envid)).envStatus = .free ∨ (s.envs (envx envid)).envId ≠ envid then
        .ok (-eBadEnv, none) s
      else .ok (0#32, some (envx envid)) s := by
  simp only [envid2env, EStateM.run_bind, EStateM.run_get, if_neg hid]
  by_cases h : (s.envs (envx envid)).envStatus = .free ∨ (s.envs (envx envid)).envId ≠ envid
  · simp only [if_pos h, EStateM.run_pure]
  · simp only [if_neg h]
    rfl

theorem Inv.tableOk (h : Inv res fl s) (hids : s.IdsOk) : s.TableOk where
  free := by
    obtain ⟨el, hc, hm⟩ := h.env_list
    exact ⟨el, hc, hc.nodup, hm⟩
  id := hids
  dir e he := by
    obtain ⟨d, hd, hpg⟩ := h.dir_isSome he
    refine ⟨d, hpg, fun e' he' hpg' => ?_⟩
    have hd' : s.dir e' = some d := by rw [Kernel.dir, if_neg he', hpg']
    have := h.ok.node_unique (.dir e) d trivial hd (.dir e') hd'
    simpa using this
  distinct e e' he he' heq := by
    rw [← (hids e he).2, ← (hids e' he').2, heq]
  found envid e hne := by
    rw [envid2env_unchecked s hne]
    constructor
    · intro hrun
      split at hrun
      · exact absurd hrun (by simp)
      · rename_i hok
        obtain rfl : envx envid = e := by simpa using hrun
        exact not_or.1 hok |>.imp_right not_not.1
    · rintro ⟨hlive, rfl⟩
      rw [(hids e hlive).2, if_neg (by simp [hlive])]
  missing envid hne hno := by
    rw [envid2env_unchecked s hne, if_pos]
    by_contra hok
    exact hno _ (not_or.1 hok).1 (not_not.1 (not_or.1 hok).2)

/-- **The environment table over whole runs.**  From where `env_init` ends, in every state reached
by creating, forking and destroying environments and by setting their status, the table is in
order. -/
theorem reaches_tableOk {m : Machine} {s₀ s : Kernel}
    (hboot : EStateM.run (do memInit m; envInit; mpInit) m.powerOn = .ok () s₀)
    (h : Reach Kernel.TableStep (fun _ _ => True) s₀ s) : s.TableOk := by
  obtain ⟨fl, s₁, hrun, hinit⟩ := kernelInit_spec m
  have hrun₁ : EStateM.run (do memInit m; envInit; mpInit) m.powerOn = .ok () s₁ := hrun (pure ())
  obtain rfl : s₁ = s₀ := by
    rw [hrun₁] at hboot
    simpa using hboot
  obtain ⟨⟨fl', hinv⟩, hids⟩ := h.inv
    (I := fun s => (∃ fl', Inv (fun p => p ∉ fl) fl' s) ∧ s.IdsOk)
    ⟨⟨fl, hinit.booted.inv⟩, fun e he => absurd (hinit.envs e).1 he⟩
    fun s op s' hI _ hstep => by
      obtain ⟨⟨fl', hinv⟩, hids⟩ := hI
      exact hinv.tableStep hids hstep
  exact hinv.tableOk hids

/-- A machine sets up its table, creates an environment, and that one forks. -/
theorem reaches_tableOk_fork : ∃ (s₀ s : Kernel) (e : EnvIndex),
    EStateM.run (do memInit smallMachine; envInit; mpInit) smallMachine.powerOn = .ok () s₀ ∧
    (s₀.envs e).envStatus = .free ∧ (s.envs e).envStatus ≠ .free ∧
    Reach Kernel.TableStep (fun _ _ => True) s₀ (final sysExofork (s.setCurenv (some e))) ∧
    (final sysExofork (s.setCurenv (some e))).TableOk := by
  have hmem := smallMachine_free
  obtain ⟨fl, s₀, hrun, hinit⟩ := kernelInit_spec smallMachine
  have hlen := hinit.laid.length_le
  have hrun₀ : EStateM.run (do memInit smallMachine; envInit; mpInit) smallMachine.powerOn =
    .ok () s₀ := hrun (pure ())
  have hcreate := @Inv.envCreate _ _ _ True hinit.booted.inv emptyElf .user 0
    (fun _ => ⟨rfl, rfl⟩) (fun _ => ⟨by omega, by rw [hinit.head]; simp⟩) s₀ rfl
  cases hr : (envCreate emptyElf .user).run s₀ with
  | error x s =>
    rw [hr] at hcreate
    exact absurd trivial hcreate
  | ok a s =>
    rw [hr] at hcreate
    obtain ⟨e, p, fl', hc, -⟩ := hcreate
    obtain ⟨tf, type, henvs⟩ := hc.envs
    have hlive : (s.envs e).envStatus ≠ .free := by
      rw [henvs]
      simp [allocatedEnv]
    have hreach : Reach Kernel.TableStep (fun _ _ => True) s₀
        (final sysExofork (s.setCurenv (some e))) :=
      (Reach.refl.tail trivial (.create hr)).tail trivial (.exofork hlive)
    exact ⟨s₀, s, e, hrun₀, (hinit.envs e).1, hlive, hreach, reaches_tableOk hrun₀ hreach⟩

end Jos
