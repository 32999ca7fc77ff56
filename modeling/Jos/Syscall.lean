import Jos.Env

/-!
# `kern/syscall.c`: the system calls

Every system call that is implemented, and the dispatcher.  The two IPC calls panic, and so does an
unknown call number.  Arguments and results are the words that travel in the registers; an error is
a negative result.
-/

set_option autoImplicit false

namespace Jos

/-! ## Console -/

/-- The loop of `vprintfmt` for `%.*s`, at `p` with `precision` characters to go.  It reads a
character before it looks at the precision; a negative precision is no bound at all.  The fuel is
the size of the address space. -/
def printfmtS : Nat → Word → Int → KernelM Unit
  | 0, _, _ => return ()
  | fuel + 1, p, precision => do
    let ch ← kloadByte p
    if ch = 0#8 then
      return ()
    if precision < 0 then
      modify fun s => { s with consOut := ch :: s.consOut }
      printfmtS fuel (p + 1#32) precision
    else if 0 ≤ precision - 1 then
      modify fun s => { s with consOut := ch :: s.consOut }
      printfmtS fuel (p + 1#32) (precision - 1)
    else
      return ()

/-- What `vprintfmt` prints for a `NULL` string. -/
def nullString : List Byte := [0x28#8, 0x6e#8, 0x75#8, 0x6c#8, 0x6c#8, 0x29#8]

/-- `cprintf("%.*s", len, p)`. -/
def cprintS (p len : Word) : KernelM Unit := do
  if p = 0#32 then
    let out := if len.toInt < 0 then nullString else nullString.take len.toNat
    modify fun s => { s with consOut := out.reverse ++ s.consOut }
  else
    printfmtS (2 ^ 32) p len.toInt

/-- `sys_cputs`. -/
def sysCputs (p len : Word) : KernelM Unit := do
  let e ← derefEnv (← get).curenv
  userMemAssert e p len pteU
  cprintS p len

/-- `sys_cgetc`. -/
def sysCgetc : KernelM Word := do
  return (← get).consIn

/-! ## Environments -/

/-- `sys_getenvid`. -/
def sysGetenvid : KernelM Word := do
  let e ← derefEnv (← get).curenv
  return ((← get).envs e).envId

/-- `sys_env_destroy`. -/
def sysEnvDestroy (envid : Word) : KernelM Word := do
  let (r, e) ← envid2env envid true
  if r.toInt < 0 then
    return r
  envDestroy (← derefEnv e)
  return 0#32

/-- `sys_yield`. -/
def sysYield : KernelM Unit := schedYield

/-- `sys_exofork`. -/
def sysExofork : KernelM Word := do
  let cur ← derefEnv (← get).curenv
  let (err, e) ← envAlloc ((← get).envs cur).envId
  if err.toInt < 0 then
    return err
  let e ← derefEnv e
  updateEnv e fun env => { env with envStatus := .notRunnable }
  modify fun s => s.setEnv e { s.envs e with envTf := (s.envs cur).envTf }
  updateEnv e fun env =>
    { env with envTf := { env.envTf with tfRegs := { env.envTf.tfRegs with regEax := 0#32 } } }
  return ((← get).envs e).envId

/-- The statuses a user may ask for. -/
def settableStatus (status : Word) : Option EnvStatus :=
  if status = 2#32 then some .runnable
  else if status = 4#32 then some .notRunnable
  else none

/-- `sys_env_set_status`. -/
def sysEnvSetStatus (envid status : Word) : KernelM Word := do
  let (r, e) ← envid2env envid true
  if r.toInt < 0 then
    return -eBadEnv
  match settableStatus status with
  | none => return -eInval
  | some status =>
    let e ← derefEnv e
    updateEnv e fun env => { env with envStatus := status }
    return 0#32

/-- `sys_env_set_pgfault_upcall`. -/
def sysEnvSetPgfaultUpcall (envid func : Word) : KernelM Word := do
  let (r, e) ← envid2env envid true
  if r.toInt < 0 then
    return -eBadEnv
  let e ← derefEnv e
  updateEnv e fun env => { env with envPgfaultUpcall := func }
  userMemAssert e func 4#32 0#32
  return 0#32

/-! ## Memory -/

/-- `sys_page_alloc`. -/
def sysPageAlloc (envid va perm : Word) : KernelM Word := do
  let (r, e) ← envid2env envid true
  if r.toInt < 0 then
    return -eBadEnv
  if utop ≤ va ∨ va % pgsize ≠ 0#32 then
    return -eInval
  if perm &&& pteU = 0#32 ∨ perm &&& pteP = 0#32 then
    return -eInval
  if perm &&& ~~~(pteU ||| pteP ||| pteW ||| pteAvail) ≠ 0#32 then
    return -eNoMem
  match ← pageAlloc true with
  | none => return -eNoMem
  | some pp =>
    let e ← derefEnv e
    let pgdir ← derefPgdir ((← get).envs e).envPgdir
    if (← pageInsert pgdir pp va perm).toInt < 0 then
      pageFree pp
      return -eNoMem
    return 0#32

/-- `sys_page_map`. -/
def sysPageMap (srcenvid srcva dstenvid dstva perm : Word) : KernelM Word := do
  let (r, srcenv) ← envid2env srcenvid true
  if r.toInt < 0 then
    return -eBadEnv
  let (r, dstenv) ← envid2env dstenvid true
  if r.toInt < 0 then
    return -eBadEnv
  if utop ≤ srcva ∨ srcva % pgsize ≠ 0#32 ∨ utop ≤ dstva ∨ dstva % pgsize ≠ 0#32 then
    return -eInval
  if perm &&& pteU = 0#32 ∨ perm &&& pteP = 0#32 ∨ perm &&& ~~~pteSyscall ≠ 0#32 then
    return -eInval
  let srcenv ← derefEnv srcenv
  let srcdir ← derefPgdir ((← get).envs srcenv).envPgdir
  match ← pageLookup srcdir srcva with
  | none => return -eInval
  | some (pp, pte) =>
    if perm &&& pteW ≠ 0#32 ∧ (← loadWord pte.page pte.idx) &&& pteW = 0#32 then
      return -eInval
    let dstenv ← derefEnv dstenv
    let dstdir ← derefPgdir ((← get).envs dstenv).envPgdir
    if (← pageInsert dstdir pp dstva perm) ≠ 0#32 then
      return -eNoMem
    return 0#32

/-- `sys_page_unmap`. -/
def sysPageUnmap (envid va : Word) : KernelM Word := do
  let (r, e) ← envid2env envid true
  if r.toInt < 0 then
    return -eBadEnv
  if utop ≤ va ∨ va % pgsize ≠ 0#32 then
    return -eInval
  let e ← derefEnv e
  let pgdir ← derefPgdir ((← get).envs e).envPgdir
  pageRemove pgdir va
  return 0#32

/-! ## Dispatch -/

/-- The implemented system calls, with their arguments. -/
inductive Syscall where
  | cputs (p len : Word)
  | cgetc
  | getenvid
  | envDestroy (envid : Word)
  | pageAlloc (envid va perm : Word)
  | pageMap (srcenvid srcva dstenvid dstva perm : Word)
  | pageUnmap (envid va : Word)
  | exofork
  | envSetStatus (envid status : Word)
  | envSetPgfaultUpcall (envid func : Word)
  | yield
deriving DecidableEq

/-- The body of each case of `syscall`. -/
def Syscall.handle : Syscall → KernelM Word
  | cputs p len => do sysCputs p len; return 0#32
  | cgetc => sysCgetc
  | getenvid => sysGetenvid
  | envDestroy envid => sysEnvDestroy envid
  | pageAlloc envid va perm => sysPageAlloc envid va perm
  | pageMap srcenvid srcva dstenvid dstva perm => sysPageMap srcenvid srcva dstenvid dstva perm
  | pageUnmap envid va => sysPageUnmap envid va
  | exofork => sysExofork
  | envSetStatus envid status => sysEnvSetStatus envid status
  | envSetPgfaultUpcall envid func => sysEnvSetPgfaultUpcall envid func
  | yield => do sysYield; return 0#32

/-- The call a number and five argument registers ask for, if it is implemented. -/
def Syscall.decode (syscallno a1 a2 a3 a4 a5 : Word) : Option Syscall :=
  match syscallno.toNat with
  | 0 => some (.cputs a1 a2)
  | 1 => some .cgetc
  | 2 => some .getenvid
  | 3 => some (.envDestroy a1)
  | 4 => some (.pageAlloc a1 a2 a3)
  | 5 => some (.pageMap a1 a2 a3 a4 a5)
  | 6 => some (.pageUnmap a1 a2)
  | 7 => some .exofork
  | 8 => some (.envSetStatus a1 a2)
  | 9 => some (.envSetPgfaultUpcall a1 a2)
  | 10 => some .yield
  | _ => none

/-- `syscall`. -/
def syscall (syscallno a1 a2 a3 a4 a5 : Word) : KernelM Word :=
  match Syscall.decode syscallno a1 a2 a3 a4 a5 with
  | some c => c.handle
  | none =>
    if syscallno = 11#32 then throw (.panic "sys_ipc_try_send not implemented")
    else if syscallno = 12#32 then throw (.panic "sys_ipc_recv not implemented")
    else throw (.panic "syscall not impelmented\n")

end Jos
