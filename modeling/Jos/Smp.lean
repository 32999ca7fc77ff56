import Jos.Boot
import Jos.Trap
import Jos.Lib.Reach

/-!
# Runs of the whole machine

Between one kernel entry and the next, each CPU is in user mode, running the environment that its
`cpu_env` names, or it waits in `sched_halt`, or it has not called the scheduler yet.  An `Entry` is
one CPU's way from there into the kernel and out again.

It is taken as one step.  That is a premise of every result about runs, and what the big kernel lock
is for: this source takes the lock only when an interrupt wakes a CPU, so that nothing in it keeps
two CPUs from being in the kernel at once.  Likewise `mp_main` starts behind `lapic_init`, taken to
have returned.

What user programs do between the entries shows in three places: the registers with which they
enter, the faulting address in `cr2`, and memory, which `Entry.mem` replaces as a whole.  The
console is the other input from outside.

An entry ends in user mode or in `sched_halt`, which is taken to get past `unlock_kernel`.  The
kernel monitor and `_panic` do not return, so a run ends with them.
-/

set_option autoImplicit false

namespace Jos

/-- `mp_main`, the first code of the other CPUs, from where `lapic_init` has returned. -/
def mpMain : KernelM Unit := do
  modify fun s => s.lcr3 s.kernPgdir
  modify fun s => s.setCpu s.cpunum { s.cpus s.cpunum with cpuStatus := .started }
  schedYield

/-- Why a CPU enters the kernel. -/
inductive Cause where
  /-- The first CPU reaches the end of `i386_init`. -/
  | boot
  /-- Another CPU comes up. -/
  | mpMain
  /-- A trap from user mode. -/
  | user (tf : Trapframe)
  /-- An interrupt while the CPU waits in `sched_halt`. -/
  | wake (tf : Trapframe)

/-- One CPU's way into the kernel and out, with no other CPU in the kernel meanwhile. -/
structure Entry where
  cpu : Cpu
  cause : Cause
  /-- The faulting address. -/
  cr2 : Word
  /-- The next character on the console. -/
  consIn : Word
  /-- Memory, as user programs have left it. -/
  mem : Nat → Page

namespace Entry

/-- The state in which the kernel starts to run. -/
def enter (n : Entry) (s : Kernel) : Kernel :=
  { s with cpunum := n.cpu, cr2 := n.cr2, consIn := n.consIn, mem := n.mem }

/-- The kernel code that is run. -/
def code (n : Entry) : KernelM Unit :=
  match n.cause with
  | .boot => schedYield
  | .mpMain => Jos.mpMain
  | .user tf => trap tf
  | .wake tf => trap tf

/-- Whether the CPU is where the entry starts from. -/
def Enabled (n : Entry) (s : Kernel) : Prop :=
  match n.cause with
  | .boot => (s.cpus n.cpu).cpuEnv = none ∧ (s.cpus n.cpu).cpuStatus = .started
  | .mpMain => (s.cpus n.cpu).cpuEnv = none ∧ (s.cpus n.cpu).cpuStatus = .unused
  | .user tf => (s.cpus n.cpu).cpuEnv ≠ none ∧ tf.tfCs &&& 3#32 = 3#32
  | .wake tf => (s.cpus n.cpu).cpuStatus = .halted ∧ tf.tfCs = gdKt

end Entry

/-- The entry takes the machine from `s` to `s'`, and ends with `x`. -/
structure Kernel.Enters (s : Kernel) (n : Entry) (x : Exit) (s' : Kernel) : Prop where
  enabled : n.Enabled s
  run : n.code.run (n.enter s) = .error x s'

/-- One step of a run: an entry that ends in user mode or in `sched_halt`. -/
def Kernel.Step (s : Kernel) (n : Entry) (s' : Kernel) : Prop :=
  s.Enters n .popTf s' ∨ s.Enters n .halt s'

end Jos
