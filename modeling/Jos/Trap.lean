import Jos.Syscall

/-!
# `kern/trap.c`: entering the kernel

A trap from user mode saves the registers in the current environment, dispatches on the trap
number, and goes back to user mode through the scheduler or `env_run`; it never returns to its
caller.  The only trap taken in kernel mode that the kernel survives is the timer interrupt that
wakes a halted CPU.

`page_fault_handler` builds a `struct UTrapframe` on the user's exception stack.  Its layout,
`UTrapframe.words`, is shared with the model of the assembly code that unwinds it.
-/

set_option autoImplicit false

namespace Jos

/-- `struct UTrapframe`. -/
structure UTrapframe where
  /-- The faulting address. -/
  utfFaultVa : Word
  utfErr : Word
  utfRegs : PushRegs
  utfEip : Word
  utfEflags : Word
  /-- The trap-time stack to return to. -/
  utfEsp : Word
deriving DecidableEq

/-- The words of a `struct UTrapframe`, lowest address first. -/
def UTrapframe.words (u : UTrapframe) : List Word :=
  [u.utfFaultVa, u.utfErr, u.utfRegs.regEdi, u.utfRegs.regEsi, u.utfRegs.regEbp,
    u.utfRegs.regOesp, u.utfRegs.regEbx, u.utfRegs.regEdx, u.utfRegs.regEcx, u.utfRegs.regEax,
    u.utfEip, u.utfEflags, u.utfEsp]

/-- `sizeof(struct UTrapframe)`. -/
def utfSize : Word := 52#32

/-- Where `page_fault_handler` puts the frame: below a gap of one word when the fault happened on
the exception stack, and at its top otherwise. -/
def exstack (esp : Word) : Word :=
  if uxstacktop - pgsize ≤ esp ∧ esp ≤ uxstacktop - 1#32 then esp - utfSize - 4#32
  else uxstacktop - utfSize

/-- The record of a fault at `faultVa` with the registers `tf`. -/
def UTrapframe.ofTrapframe (tf : Trapframe) (faultVa : Word) : UTrapframe where
  utfFaultVa := faultVa
  utfErr := tf.tfErr
  utfRegs := tf.tfRegs
  utfEip := tf.tfEip
  utfEflags := tf.tfEflags
  utfEsp := tf.tfEsp

/-- `page_fault_handler`. -/
def pageFaultHandler (tf : Trapframe) : KernelM Unit := do
  let faultVa := (← get).cr2
  if tf.tfCs = gdKt then
    kernelFault
  let e ← derefEnv (← get).curenv
  if ((← get).envs e).envPgfaultUpcall = 0#32 then
    envDestroy e
  else
    userMemAssert e (uxstacktop - 4#32) 4#32 0#32
    let utf := exstack tf.tfEsp
    (UTrapframe.ofTrapframe tf faultVa).words.zipIdx.forM fun (w, k) =>
      kstoreWord (utf + BitVec.ofNat 32 (4 * k)) w
    userMemAssert e utf utfSize (pteP ||| pteW ||| pteU)
    updateEnv e fun env =>
      { env with envTf := { env.envTf with tfEsp := utf, tfEip := env.envPgfaultUpcall } }
    envRun e

def tPgflt : Word := 14#32
def tBrkpt : Word := 3#32
def tSyscall : Word := 48#32
def irqOffset : Word := 32#32
def irqTimer : Word := 0#32
def irqSpurious : Word := 7#32

/-- `trap_dispatch`.  No command makes the kernel monitor return, so a breakpoint is the last
thing that happens. -/
def trapDispatch (tf : Trapframe) : KernelM Unit := do
  if tf.tfTrapno = irqOffset + irqSpurious then
    return ()
  else if tf.tfTrapno = tPgflt then
    pageFaultHandler tf
  else if tf.tfTrapno = tBrkpt then
    throw .monitor
  else if tf.tfTrapno = tSyscall then
    let cur ← derefEnv (← get).curenv
    let r ← syscall tf.tfRegs.regEax tf.tfRegs.regEdx tf.tfRegs.regEcx tf.tfRegs.regEbx
      tf.tfRegs.regEdi tf.tfRegs.regEsi
    updateEnv cur fun env =>
      { env with envTf := { env.envTf with tfRegs := { env.envTf.tfRegs with regEax := r } } }
  else if tf.tfTrapno = irqOffset + irqTimer then
    schedYield
  else if tf.tfCs = gdKt then
    throw (.panic "unhandled trap in kernel")
  else
    envDestroy (← derefEnv (← get).curenv)

/-- The part of `trap` for traps from user mode. -/
def trapFromUser (tf : Trapframe) : KernelM Unit := do
  match (← get).curenv with
  | none => throw (.panic "assertion failed: curenv")
  | some cur =>
    if ((← get).envs cur).envStatus = .dying then
      envFree cur
      modify (·.setCurenv none)
      schedYield
    updateEnv cur fun env => { env with envTf := tf }

/-- The end of `trap`: back to the current environment if it may still run. -/
def trapReturn : KernelM Unit := do
  match (← get).curenv with
  | some cur =>
    if ((← get).envs cur).envStatus = .running then
      envRun cur
    else
      schedYield
  | none => schedYield

/-- `trap`. -/
def trap (tf : Trapframe) : KernelM Unit := do
  modify fun s => s.setCpu s.cpunum { s.cpus s.cpunum with cpuStatus := .started }
  if tf.tfCs &&& 3#32 = 3#32 then
    trapFromUser tf
  trapDispatch tf
  trapReturn

end Jos
