import Jos.Pmap

/-!
# `kern/env.c` and `kern/sched.c`: environments and the scheduler

Creating, destroying, choosing and running environments.  `env_run` and `sched_halt` do not
return; everything that ends in one of them ends in the corresponding `Exit`.  The functions appear
in the order of their calls, so `env_run` and `sched_yield` come before `env_destroy`, which calls
them, and `user_mem_assert`, which destroys the environment that fails the check, comes last.
-/

set_option autoImplicit false

namespace Jos

/-- Follow an environment pointer; reading through `NULL` faults. -/
def derefEnv : Option EnvIndex → KernelM EnvIndex
  | some e => pure e
  | none => kernelFault

/-- `PADDR` of a page directory pointer. -/
def paddr : Option Nat → KernelM Nat
  | some d => pure d
  | none => throw (.panic "PADDR called with invalid kva")

/-- Write one field of an environment. -/
def updateEnv (e : EnvIndex) (f : Env → Env) : KernelM Unit :=
  modify fun s => s.setEnv e (f (s.envs e))

/-- `envid2env`: the result code and `*env_store`. -/
def envid2env (envid : Word) (checkperm : Bool) : KernelM (Word × Option EnvIndex) := do
  let s ← get
  if envid = 0#32 then
    return (0#32, s.curenv)
  let e := envx envid
  if (s.envs e).envStatus = .free ∨ (s.envs e).envId ≠ envid then
    return (-eBadEnv, none)
  if checkperm ∧ some e ≠ s.curenv then
    let cur ← derefEnv s.curenv
    if (s.envs e).envParentId ≠ (s.envs cur).envId then
      return (-eBadEnv, none)
  return (0#32, some e)

/-! ## Allocating environments -/

/-- `env_setup_vm`. -/
def envSetupVm (e : EnvIndex) : KernelM Word := do
  match ← pageAlloc true with
  | none => return -eNoMem
  | some p =>
    incRef p
    let pageDir ← page2kva p
    modify fun s => s.fill pageDir (s.mem s.kernPgdir)
    updateEnv e fun env => { env with envPgdir := some pageDir }
    storeWord pageDir (pdx uvpt) (page2pa pageDir ||| pteP ||| pteU)
    return 0#32

/-- The id `env_alloc` gives to slot `e` when the slot's previous id was `old`. -/
def nextEnvId (old : Word) (e : EnvIndex) : Word :=
  let generation := (old + 1#32 <<< 12) &&& ~~~1023#32
  let generation := if generation.toInt ≤ 0 then 1#32 <<< 12 else generation
  generation ||| BitVec.ofNat 32 e

/-- The saved registers of a fresh environment. -/
def initialTf : Trapframe :=
  { Trapframe.zero with
    tfDs := gdUd ||| 3#32
    tfEs := gdUd ||| 3#32
    tfSs := gdUd ||| 3#32
    tfEsp := ustacktop
    tfCs := gdUt ||| 3#32
    tfEflags := flIf }

/-- `env_alloc`: the result code and `*newenv_store`. -/
def envAlloc (parentId : Word) : KernelM (Word × Option EnvIndex) := do
  match (← get).envFreeList with
  | none => return (-eNoFreeEnv, none)
  | some e =>
    let r ← envSetupVm e
    if r.toInt < 0 then
      return (r, none)
    updateEnv e fun env =>
      { env with
        envId := nextEnvId env.envId e
        envParentId := parentId
        envType := .user
        envStatus := .runnable
        envRuns := 0#32
        envTf := initialTf
        envPgfaultUpcall := 0#32
        envIpcRecving := false }
    modify fun s => { s with envFreeList := (s.envs e).envLink }
    return (0#32, some e)

/-! ## Freeing environments -/

/-- The inner loop body of `env_free`: unmap entry `pteno` of the page table `pt`. -/
def envFreePte (pgdir pt : Nat) (pdeno pteno : Index) : KernelM Unit := do
  if (← loadWord pt pteno) &&& pteP ≠ 0#32 then
    pageRemove pgdir (pgaddr pdeno pteno 0#32)

/-- The outer loop body of `env_free`: flush and free one page table. -/
def envFreePde (e : EnvIndex) (pdeno : Index) : KernelM Unit := do
  let pgdir ← derefPgdir ((← get).envs e).envPgdir
  let pde ← loadWord pgdir pdeno
  if pde &&& pteP ≠ 0#32 then
    let pa := pteAddr pde
    let pt ← kaddr pa
    indices.forM (envFreePte pgdir pt pdeno)
    storeWord pgdir pdeno 0#32
    pageDecref (← pa2page pa)

/-- The page directory entries of user memory, in order. -/
def userPdeList : List Index := indices.filter (·.val < userPdes)

/-- The start of `env_free`: leave the page directory that is about to go away. -/
def unloadPgdir (e : EnvIndex) : KernelM Unit := do
  if (← get).curenv = some e then
    modify fun s => s.lcr3 s.kernPgdir

/-- `env_free`. -/
def envFree (e : EnvIndex) : KernelM Unit := do
  unloadPgdir e
  userPdeList.forM (envFreePde e)
  let pa ← paddr ((← get).envs e).envPgdir
  updateEnv e fun env => { env with envPgdir := none }
  pageDecref (← pa2page (page2pa pa))
  updateEnv e fun env => { env with envStatus := .free }
  modify fun s => s.setEnv e { s.envs e with envLink := s.envFreeList }
  modify fun s => { s with envFreeList := some e }

/-! ## Running environments -/

/-- `env_pop_tf`: leave the kernel for user mode. -/
def envPopTf : KernelM Unit := do
  let e ← derefEnv (← get).curenv
  modify fun s => s.setEnv e { s.envs e with envCpunum := s.cpunum }
  throw .popTf

/-- The start of `env_run`: the current environment, if it is running, becomes runnable. -/
def deschedule : KernelM Unit := do
  match (← get).curenv with
  | some cur =>
    if ((← get).envs cur).envStatus = .running then
      updateEnv cur fun env => { env with envStatus := .runnable }
  | none => pure ()

/-- `env_run`. -/
def envRun (e : EnvIndex) : KernelM Unit := do
  deschedule
  modify (·.setCurenv (some e))
  updateEnv e fun env => { env with envStatus := .running }
  updateEnv e fun env => { env with envRuns := env.envRuns + 1#32 }
  let dir ← paddr ((← get).envs e).envPgdir
  modify (·.lcr3 dir)
  envPopTf

/-- The search of `sched_halt` finds no environment that may still run. -/
def Kernel.noneActive (s : Kernel) : Bool :=
  indices.all fun i =>
    (s.envs i).envStatus ≠ .runnable ∧ (s.envs i).envStatus ≠ .running ∧
      (s.envs i).envStatus ≠ .dying

/-- The start of `sched_halt`: with no environment left, the kernel monitor takes over. -/
def monitorIf (noneActive : Bool) : KernelM Unit := do
  if noneActive then
    throw .monitor

/-- `sched_halt`, up to `unlock_kernel`.  The exit stands for getting there: this source takes the
lock nowhere before, so that `spin_unlock`, which finds that the CPU does not hold it, panics.  What
the CPU would do after it, waiting for an interrupt, is the entry `Cause.wake`. -/
def schedHalt : KernelM Unit := do
  monitorIf (← get).noneActive
  modify (·.setCurenv none)
  modify fun s => s.lcr3 s.kernPgdir
  modify fun s => s.setCpu s.cpunum { s.cpus s.cpunum with cpuStatus := .halted }
  throw .halt

/-- The slots `sched_yield` looks at, in order: all of them, circularly from `start`. -/
def schedOrder (start : EnvIndex) : List EnvIndex :=
  indices.map fun k => start + k

/-- The loop body of `sched_yield`. -/
def schedTry (i : EnvIndex) : KernelM Unit := do
  if ((← get).envs i).envStatus = .runnable then
    envRun i

/-- `sched_yield`. -/
def schedYield : KernelM Unit := do
  let idle := (← get).curenv
  let start ← match idle with
    | some e => do pure (envx ((← get).envs e).envId)
    | none => pure 0
  (schedOrder start).forM schedTry
  match idle with
  | some e => if ((← get).envs e).envStatus = .running then envRun e
  | none => pure ()
  schedHalt

/-- `env_destroy`. -/
def envDestroy (e : EnvIndex) : KernelM Unit := do
  let s ← get
  if (s.envs e).envStatus = .running ∧ s.curenv ≠ some e then
    updateEnv e fun env => { env with envStatus := .dying }
  else
    envFree e
    if (← get).curenv = some e then
      modify (·.setCurenv none)
      schedYield

/-- `user_mem_assert`. -/
def userMemAssert (env : EnvIndex) (va len perm : Word) : KernelM Unit := do
  if (← userMemCheck env va len (perm ||| pteU)).toInt < 0 then
    envDestroy env

end Jos
