import Jos.Env
import Jos.Pmap.Effect

/-!
# What creating and freeing environments does to the environment table

`env_alloc` and `env_free` work through the page functions, which touch no environment, so their
effect on `envs` and `env_free_list` can be read off without knowing anything about memory: in
every state in which they return at all, `env_alloc` has filled in the slot at the head of the list
and `env_free` has put its slot there.
-/

set_option autoImplicit false

namespace Jos

open Command

variable {s s' : Kernel}

namespace Kernel

/-- The slot `env_alloc` fills in, with its page directory in page `p`. -/
def allocatedEnv (s : Kernel) (e : EnvIndex) (p : Nat) (parentId : Word) : Env :=
  { s.envs e with
    envPgdir := some p
    envId := nextEnvId (s.envs e).envId e
    envParentId := parentId
    envType := .user
    envStatus := .runnable
    envRuns := 0#32
    envTf := initialTf
    envPgfaultUpcall := 0#32
    envIpcRecving := false }

/-- The state after `env_alloc`, up to memory. -/
def allocated (s : Kernel) (e : EnvIndex) (p : Nat) (parentId : Word) : Kernel :=
  { s with
    envs := Function.update s.envs e (s.allocatedEnv e p parentId)
    envFreeList := (s.envs e).envLink }

/-- The slot `env_free` leaves behind. -/
def freedEnv (s : Kernel) (e : EnvIndex) : Env :=
  { s.envs e with envPgdir := none, envStatus := .free, envLink := s.envFreeList }

/-- The page directories loaded once `e`'s is not in use on this CPU. -/
def unloaded (s : Kernel) (e : EnvIndex) : Cpu → Nat :=
  if s.curenv = some e then Function.update s.cr3 s.cpunum s.kernPgdir else s.cr3

/-- The state after `env_free`, up to memory. -/
def freed (s : Kernel) (e : EnvIndex) : Kernel :=
  { s with
    envs := Function.update s.envs e (s.freedEnv e)
    envFreeList := some e
    cr3 := s.unloaded e }

end Kernel

/-! ## Finding an environment -/

theorem derefEnv_reads (e : Option EnvIndex) : Reads (derefEnv e) := by
  cases e with
  | none => exact Reads.throw _
  | some e => exact Reads.pure e

theorem envid2env_reads (envid : Word) (checkperm : Bool) : Reads (envid2env envid checkperm) := by
  refine Reads.bind Reads.get fun s => Reads.ite (Reads.pure _) (Reads.ite (Reads.pure _) ?_)
  refine Reads.ite (Reads.bind (derefEnv_reads _) fun cur => ?_) (Reads.pure _)
  exact Reads.ite (Reads.pure _) (Reads.pure _)

/-! ## `env_alloc` -/

/-- What `env_setup_vm` returns, and what it does to the table. -/
theorem envSetupVm_effect (s : Kernel) (e : EnvIndex) :
    Triple (fun t => t = s) (envSetupVm e)
      (fun r t => (r.toInt < 0 ∧ MemOnly s t) ∨
        (r = 0#32 ∧ ∃ p, MemOnly (s.setEnv e { s.envs e with envPgdir := some p }) t))
      fun x _ => x.IsPanic := by
  refine Triple.bind (((pageAlloc_quiet true).triple s).conseq ?_ (fun _ _ h => h) fun _ _ h => h)
    fun r => ?_
  · rintro t rfl
    exact MemOnly.refl t
  cases r with
  | none => exact Triple.pure fun t ht => Or.inl ⟨by decide, ht⟩
  | some p =>
    refine Triple.bind ((incRef_quiet p).triple s) fun _ => ?_
    refine Triple.bind ((kaddr_quiet (page2pa p)).triple s) fun d => ?_
    refine Triple.bind ((Quiet.modify (f := fun s => s.fill d (s.mem s.kernPgdir))
      fun _ => rfl).triple s) fun _ => ?_
    refine Triple.bind (Q := fun _ t => MemOnly (s.setEnv e { s.envs e with envPgdir := some d }) t)
      (Triple.modify fun t ht => ?_) fun _ => ?_
    · obtain ⟨m, pg, fl, tl, a, o, rfl⟩ := ht.exists_eq
      rfl
    · refine Triple.bind ((storeWord_quiet _ _ _).triple _) fun _ => ?_
      exact Triple.pure fun t ht => Or.inr ⟨rfl, d, ht⟩

/-- What `env_alloc` returns, and what it does to the table. -/
theorem envAlloc_effect (s : Kernel) (parentId : Word) :
    Triple (fun t => t = s) (envAlloc parentId)
      (fun r t => (r.1.toInt < 0 ∧ r.2 = none ∧ MemOnly s t) ∨
        ∃ e p, r = (0#32, some e) ∧ s.envFreeList = some e ∧
          MemOnly (s.allocated e p parentId) t)
      fun x _ => x.IsPanic := by
  refine Triple.get_bind fun s₀ hs₀ => ?_
  subst hs₀
  cases hl : s₀.envFreeList with
  | none => exact Triple.pure fun t ht => Or.inl ⟨by decide, rfl, ht ▸ MemOnly.refl _⟩
  | some e =>
    refine Triple.bind (envSetupVm_effect s₀ e) fun r => ?_
    refine Triple.ite (fun hr => ?_) fun hr => ?_
    · refine Triple.pure fun t ht => ?_
      rcases ht with ⟨-, ht⟩ | ⟨rfl, -⟩
      · exact Or.inl ⟨hr, rfl, ht⟩
      · exact absurd hr (by decide)
    · refine Triple.bind
        (Q := fun _ t => ∃ p, MemOnly (s₀.setEnv e (s₀.allocatedEnv e p parentId)) t)
        (Triple.modify fun t ht => ?_) fun _ => ?_
      · rcases ht with ⟨hr', -⟩ | ⟨-, p, ht⟩
        · exact absurd hr' hr
        · obtain ⟨m, pg, fl, tl, a, o, rfl⟩ := ht.exists_eq
          refine ⟨p, ?_⟩
          simp [MemOnly, Kernel.setEnv, Kernel.allocatedEnv]
      · refine Triple.bind (Q := fun _ t => ∃ p, MemOnly (s₀.allocated e p parentId) t)
          (Triple.modify fun t ht => ?_) fun _ => ?_
        · obtain ⟨p, ht⟩ := ht
          obtain ⟨m, pg, fl, tl, a, o, rfl⟩ := ht.exists_eq
          refine ⟨p, ?_⟩
          simp [MemOnly, Kernel.setEnv, Kernel.allocated, Kernel.allocatedEnv]
        · refine Triple.pure fun t ht => ?_
          obtain ⟨p, ht⟩ := ht
          exact Or.inr ⟨e, p, rfl, rfl, ht⟩

/-! ## `env_free` -/

theorem envFreePte_quiet (pgdir pt : Nat) (pdeno pteno : Index) :
    Quiet (envFreePte pgdir pt pdeno pteno) :=
  Quiet.bind (loadWord_quiet _ _) fun _ => Quiet.ite (pageRemove_quiet _ _) (Quiet.pure _)

theorem envFreePde_quiet (e : EnvIndex) (pdeno : Index) : Quiet (envFreePde e pdeno) := by
  refine Quiet.bind Quiet.get fun _ => Quiet.bind (derefPgdir_quiet _) fun d =>
    Quiet.bind (loadWord_quiet _ _) fun pde => Quiet.ite ?_ (Quiet.pure _)
  refine Quiet.bind (kaddr_quiet _) fun t => ?_
  generalize indices = l
  refine Quiet.bind (Quiet.forM l fun j => envFreePte_quiet _ _ _ j) fun _ => ?_
  exact Quiet.bind (storeWord_quiet _ _ _) fun _ => Quiet.bind (pa2page_quiet _) fun _ =>
    pageDecref_quiet _

theorem unloadPgdir_effect (s : Kernel) (e : EnvIndex) :
    Triple (fun t => t = s) (unloadPgdir e)
      (fun _ t => MemOnly { s with cr3 := s.unloaded e } t) fun x _ => x.IsPanic := by
  refine Triple.get_bind fun s₀ hs₀ => ?_
  subst hs₀
  refine Triple.ite (fun hc => Triple.modify fun t ht => ?_) fun hc => Triple.pure fun t ht => ?_
  · rw [ht, Kernel.unloaded, if_pos hc]
    rfl
  · rw [ht, Kernel.unloaded, if_neg hc]
    exact MemOnly.refl _

/-- **`env_free`** puts its slot on the free list and leaves the other environments alone. -/
theorem envFree_effect (s : Kernel) (e : EnvIndex) :
    Triple (fun t => t = s) (envFree e) (fun _ t => MemOnly (s.freed e) t)
      fun x _ => x.IsPanic := by
  rw [envFree]
  generalize userPdeList = l
  refine Triple.bind (unloadPgdir_effect s e) fun _ => ?_
  generalize hs : ({ s with cr3 := s.unloaded e } : Kernel) = s₁
  refine Triple.bind ((Quiet.forM l (envFreePde_quiet e)).triple s₁) fun _ => ?_
  refine Triple.get_bind fun s₂ hs₂ => ?_
  cases hd : (s₂.envs e).envPgdir with
  | none =>
    exact Triple.bind (Q := fun _ _ => False) (Triple.throw fun _ _ => trivial)
      fun _ _ h => h.elim
  | some d =>
    refine Triple.bind (Q := fun a t => MemOnly s₁ t) (Triple.pure fun t ht => ht ▸ hs₂)
      fun d' => ?_
    refine Triple.bind (Q := fun _ t => MemOnly (s₁.setEnv e { s₁.envs e with envPgdir := none }) t)
      (Triple.modify fun t ht => ?_) fun _ => ?_
    · obtain ⟨m, pg, fl, tl, a, o, rfl⟩ := ht.exists_eq
      rfl
    refine Triple.bind ((pa2page_quiet _).triple _) fun _ => ?_
    refine Triple.bind ((pageDecref_quiet _).triple _) fun _ => ?_
    refine Triple.bind (Q := fun _ t => MemOnly (s₁.setEnv e
      { s₁.envs e with envPgdir := none, envStatus := .free }) t)
      (Triple.modify fun t ht => ?_) fun _ => ?_
    · obtain ⟨m, pg, fl, tl, a, o, rfl⟩ := ht.exists_eq
      simp [MemOnly, Kernel.setEnv]
    refine Triple.bind (Q := fun _ t => MemOnly (s₁.setEnv e (s.freedEnv e)) t)
      (Triple.modify fun t ht => ?_) fun _ => ?_
    · obtain ⟨m, pg, fl, tl, a, o, rfl⟩ := ht.exists_eq
      subst hs
      simp [MemOnly, Kernel.setEnv, Kernel.freedEnv]
    · refine Triple.modify fun t ht => ?_
      obtain ⟨m, pg, fl, tl, a, o, rfl⟩ := ht.exists_eq
      subst hs
      simp [MemOnly, Kernel.setEnv, Kernel.freed]

end Jos
