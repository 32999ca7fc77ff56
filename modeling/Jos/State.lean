import Jos.Layout
import Jos.Lib.Command
import Mathlib.Logic.Function.Basic

/-!
# The kernel's state

The data the kernel works on: the page descriptors of `inc/memlayout.h`, the environments of
`inc/env.h`, the per-CPU data of `kern/cpu.h`, and physical memory, page by page.

Pointers become indices.  A `struct PageInfo *` is a page number, a `struct Env *` an index into
`envs`, a page directory is named by the page it occupies (the kernel reaches it at `KERNBASE` plus
its physical address), and a `pte_t *` is a page together with an index into it; `NULL` is `none`.
Page directories and page tables are not separate objects: they are pages of `mem`, read as words,
so that two tables in one page, or a table in a user's page, are states like any other.  The
kernel's own variables — `pages`, `envs`, the lists, the CPUs — live in the pages reserved at boot
and are fields of their own.

The TLB is not modelled as hardware, which may cache or forget as it likes; `tlb` collects, for
each CPU, every translation the CPU *could* still have cached: what its page directory said at
some moment since the last `lcr3`, except what `invlpg` removed.

Kernel code runs in `KernelM`: it returns, or leaves for good through one of the `Exit`s.
-/

set_option autoImplicit false

namespace Jos

/-- `struct PageInfo`. -/
structure PageInfo where
  /-- Next page on the free list. -/
  ppLink : Option Nat
  /-- The count of pointers to this page, a `uint16_t`. -/
  ppRef : BitVec 16

/-- `struct PushRegs`: registers as pushed by `pusha`. -/
structure PushRegs where
  regEdi : Word
  regEsi : Word
  regEbp : Word
  /-- Useless: `popa` skips it. -/
  regOesp : Word
  regEbx : Word
  regEdx : Word
  regEcx : Word
  regEax : Word
deriving DecidableEq

/-- `struct Trapframe`, without its padding. -/
structure Trapframe where
  tfRegs : PushRegs
  tfEs : Word
  tfDs : Word
  tfTrapno : Word
  tfErr : Word
  tfEip : Word
  tfCs : Word
  tfEflags : Word
  tfEsp : Word
  tfSs : Word
deriving DecidableEq

/-- The all-zero trap frame `memset` leaves. -/
def Trapframe.zero : Trapframe :=
  ⟨⟨0, 0, 0, 0, 0, 0, 0, 0⟩, 0, 0, 0, 0, 0, 0, 0, 0, 0⟩

/-- Values of `env_status`. -/
inductive EnvStatus where
  | free
  | dying
  | runnable
  | running
  | notRunnable
deriving DecidableEq

/-- Special environment types. -/
inductive EnvType where
  | user
  | idle
  | yield
deriving DecidableEq

/-- An index into `envs`, which has `NENV` entries. -/
abbrev EnvIndex := Fin 1024

/-- `struct Env`, up to the fields of the unimplemented IPC calls. -/
structure Env where
  /-- Saved registers. -/
  envTf : Trapframe
  /-- Next free environment. -/
  envLink : Option EnvIndex
  /-- Unique environment identifier. -/
  envId : Word
  /-- `env_id` of this environment's parent. -/
  envParentId : Word
  envType : EnvType
  envStatus : EnvStatus
  /-- Number of times the environment has run. -/
  envRuns : Word
  /-- The CPU that the environment is running on. -/
  envCpunum : Fin 8
  /-- The page directory. -/
  envPgdir : Option Nat
  /-- Page fault upcall entry point; `0` is none. -/
  envPgfaultUpcall : Word
  envIpcRecving : Bool

/-- `ENVX`: the index part of an environment id. -/
def envx (envid : Word) : EnvIndex :=
  ⟨(envid &&& 1023#32).toNat, by
    rw [BitVec.toNat_and]
    exact Nat.lt_of_le_of_lt Nat.and_le_right (by decide)⟩

/-- Values of `cpu_status`. -/
inductive CpuStatus where
  | unused
  | started
  | halted
deriving DecidableEq

/-- One of the at most `NCPU` processors. -/
abbrev Cpu := Fin 8

instance neZero_ncpu : NeZero 8 := ⟨by decide⟩

/-- `struct CpuInfo`, as far as the scheduler uses it. -/
structure CpuInfo where
  cpuStatus : CpuStatus
  /-- The currently running environment. -/
  cpuEnv : Option EnvIndex

/-- The contents of a page, as words. -/
abbrev Page := Index → Word

/-- The state of the kernel and of the hardware it manages. -/
structure Kernel where
  /-- Amount of physical memory, in pages. -/
  npages : Nat
  /-- Physical addresses are 32 bits wide. -/
  npagesLe : npages ≤ 2 ^ 20
  /-- The page holding the kernel's page directory. -/
  kernPgdir : Nat
  /-- Page descriptors. -/
  pages : Nat → PageInfo
  pageFreeList : Option Nat
  /-- Physical memory. -/
  mem : Nat → Page
  envs : EnvIndex → Env
  envFreeList : Option EnvIndex
  cpus : Cpu → CpuInfo
  /-- The CPU the kernel is running on. -/
  cpunum : Cpu
  /-- The page directory each CPU has loaded. -/
  cr3 : Cpu → Nat
  /-- The translations each CPU may have cached, by virtual page number. -/
  tlb : Cpu → Nat → List Word
  /-- The faulting address of the trap being handled. -/
  cr2 : Word
  /-- The first address `user_mem_check` rejected. -/
  userMemCheckAddr : Word
  /-- What `cons_getc` would return now: the next input character, or `0`. -/
  consIn : Word
  /-- What user programs have printed, latest first. -/
  consOut : List Byte

/-- The ways control leaves the kernel other than by returning. -/
inductive Exit where
  /-- `_panic`: the kernel stops. -/
  | panic (msg : String)
  /-- `env_pop_tf`: user mode in the current environment. -/
  | popTf
  /-- `sched_halt` has come to `unlock_kernel`, after which this CPU waits for an interrupt. -/
  | halt
  /-- No environment is left: the kernel monitor loops for good. -/
  | monitor
deriving DecidableEq

/-- Kernel code. -/
abbrev KernelM := EStateM Exit Kernel

namespace Kernel

/-- `curenv`. -/
def curenv (s : Kernel) : Option EnvIndex := (s.cpus s.cpunum).cpuEnv

/-- The page-table entry for `va` under the directory in page `dir`, when there is a page table. -/
def walk (s : Kernel) (dir : Nat) (va : Word) : Option Word :=
  (framed (s.mem dir (pdx va))).map fun t => s.mem t (ptx va)

/-- The translations that may be cached once the page tables change: those of before, and the
current ones. -/
def remember (s : Kernel) : Cpu → Nat → List Word := fun c n =>
  match s.walk (s.cr3 c) (BitVec.ofNat 32 (n * 4096)) with
  | some w => if w &&& pteP = 0#32 then s.tlb c n else w :: s.tlb c n
  | none => s.tlb c n

/-- Write a whole page: `memset` and `memcpy`. -/
def fill (s : Kernel) (f : Nat) (p : Page) : Kernel :=
  { s with mem := Function.update s.mem f p, tlb := s.remember }

/-- Write one word of a page. -/
def store (s : Kernel) (f : Nat) (i : Index) (w : Word) : Kernel :=
  s.fill f (Function.update (s.mem f) i w)

def setPage (s : Kernel) (p : Nat) (info : PageInfo) : Kernel :=
  { s with pages := Function.update s.pages p info }

def setEnv (s : Kernel) (e : EnvIndex) (env : Env) : Kernel :=
  { s with envs := Function.update s.envs e env }

def setCpu (s : Kernel) (c : Cpu) (info : CpuInfo) : Kernel :=
  { s with cpus := Function.update s.cpus c info }

/-- Assignment to `curenv`. -/
def setCurenv (s : Kernel) (e : Option EnvIndex) : Kernel :=
  s.setCpu s.cpunum { s.cpus s.cpunum with cpuEnv := e }

/-- `lcr3`: load a page directory and forget every cached translation. -/
def lcr3 (s : Kernel) (dir : Nat) : Kernel :=
  { s with
    cr3 := Function.update s.cr3 s.cpunum dir
    tlb := Function.update s.tlb s.cpunum fun _ => [] }

/-- `invlpg`: forget the cached translations of one page. -/
def invlpg (s : Kernel) (va : Word) : Kernel :=
  { s with
    tlb := Function.update s.tlb s.cpunum
      (Function.update (s.tlb s.cpunum) (pgnum va) []) }

/-! ### What an update leaves alone -/

section

variable (s : Kernel) (f p : Nat) (i : Index) (w : Word) (pg : Page) (info : PageInfo)
variable (e : EnvIndex) (env : Env)

@[simp] theorem fill_mem : (s.fill f pg).mem = Function.update s.mem f pg := rfl
@[simp] theorem fill_npages : (s.fill f pg).npages = s.npages := rfl
@[simp] theorem fill_kernPgdir : (s.fill f pg).kernPgdir = s.kernPgdir := rfl
@[simp] theorem fill_pages : (s.fill f pg).pages = s.pages := rfl
@[simp] theorem fill_pageFreeList : (s.fill f pg).pageFreeList = s.pageFreeList := rfl
@[simp] theorem fill_envs : (s.fill f pg).envs = s.envs := rfl
@[simp] theorem fill_envFreeList : (s.fill f pg).envFreeList = s.envFreeList := rfl
@[simp] theorem fill_cpus : (s.fill f pg).cpus = s.cpus := rfl
@[simp] theorem fill_cpunum : (s.fill f pg).cpunum = s.cpunum := rfl

@[simp] theorem store_npages : (s.store f i w).npages = s.npages := rfl
@[simp] theorem store_kernPgdir : (s.store f i w).kernPgdir = s.kernPgdir := rfl
@[simp] theorem store_pages : (s.store f i w).pages = s.pages := rfl
@[simp] theorem store_pageFreeList : (s.store f i w).pageFreeList = s.pageFreeList := rfl
@[simp] theorem store_envs : (s.store f i w).envs = s.envs := rfl
@[simp] theorem store_envFreeList : (s.store f i w).envFreeList = s.envFreeList := rfl
@[simp] theorem store_cpus : (s.store f i w).cpus = s.cpus := rfl
@[simp] theorem store_cpunum : (s.store f i w).cpunum = s.cpunum := rfl

@[simp] theorem store_mem_self : (s.store f i w).mem f i = w := by
  simp [store]

theorem store_mem_idx {j : Index} (h : j ≠ i) : (s.store f i w).mem f j = s.mem f j := by
  simp [store, h]

theorem store_mem_ne {g : Nat} (h : g ≠ f) : (s.store f i w).mem g = s.mem g := by
  simp [store, h]

@[simp] theorem fill_mem_self : (s.fill f pg).mem f = pg := by simp

theorem fill_mem_ne {g : Nat} (h : g ≠ f) : (s.fill f pg).mem g = s.mem g := by simp [h]

@[simp] theorem setPage_npages : (s.setPage p info).npages = s.npages := rfl
@[simp] theorem setPage_kernPgdir : (s.setPage p info).kernPgdir = s.kernPgdir := rfl
@[simp] theorem setPage_pages : (s.setPage p info).pages = Function.update s.pages p info := rfl
@[simp] theorem setPage_pageFreeList : (s.setPage p info).pageFreeList = s.pageFreeList := rfl
@[simp] theorem setPage_mem : (s.setPage p info).mem = s.mem := rfl
@[simp] theorem setPage_envs : (s.setPage p info).envs = s.envs := rfl
@[simp] theorem setPage_envFreeList : (s.setPage p info).envFreeList = s.envFreeList := rfl
@[simp] theorem setPage_cpus : (s.setPage p info).cpus = s.cpus := rfl
@[simp] theorem setPage_cpunum : (s.setPage p info).cpunum = s.cpunum := rfl

@[simp] theorem setEnv_npages : (s.setEnv e env).npages = s.npages := rfl
@[simp] theorem setEnv_kernPgdir : (s.setEnv e env).kernPgdir = s.kernPgdir := rfl
@[simp] theorem setEnv_pages : (s.setEnv e env).pages = s.pages := rfl
@[simp] theorem setEnv_pageFreeList : (s.setEnv e env).pageFreeList = s.pageFreeList := rfl
@[simp] theorem setEnv_mem : (s.setEnv e env).mem = s.mem := rfl
@[simp] theorem setEnv_envs : (s.setEnv e env).envs = Function.update s.envs e env := rfl
@[simp] theorem setEnv_envFreeList : (s.setEnv e env).envFreeList = s.envFreeList := rfl
@[simp] theorem setEnv_cpus : (s.setEnv e env).cpus = s.cpus := rfl
@[simp] theorem setEnv_cpunum : (s.setEnv e env).cpunum = s.cpunum := rfl
@[simp] theorem setEnv_curenv : (s.setEnv e env).curenv = s.curenv := rfl

variable (o : Option EnvIndex)

@[simp] theorem setCurenv_curenv : (s.setCurenv o).curenv = o := by
  simp [curenv, setCurenv, setCpu]

@[simp] theorem setCurenv_envs : (s.setCurenv o).envs = s.envs := rfl
@[simp] theorem setCurenv_cpunum : (s.setCurenv o).cpunum = s.cpunum := rfl
@[simp] theorem lcr3_curenv : (s.lcr3 f).curenv = s.curenv := rfl
@[simp] theorem lcr3_envs : (s.lcr3 f).envs = s.envs := rfl
@[simp] theorem lcr3_cpunum : (s.lcr3 f).cpunum = s.cpunum := rfl

end

end Kernel

/-- A small machine: three pages, of which the last is free, and every environment with its
directory in the second. -/
def threePages : Kernel where
  npages := 3
  npagesLe := by decide
  kernPgdir := 0
  pages := fun _ => ⟨none, 0#16⟩
  pageFreeList := some 2
  mem := fun _ _ => 0#32
  envs := fun _ =>
    ⟨Trapframe.zero, none, 4096#32, 0#32, .user, .running, 0#32, 0, some 1, 0#32, false⟩
  envFreeList := none
  cpus := fun _ => ⟨.started, some 0⟩
  cpunum := 0
  cr3 := fun _ => 1
  tlb := fun _ _ => []
  cr2 := 0#32
  userMemCheckAddr := 0#32
  consIn := 0#32
  consOut := []

end Jos
