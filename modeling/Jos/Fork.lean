import Jos.User

/-!
# `lib/fork.c` and `lib/pgfault.c`

`fork` and `sfork` make a child with `sys_exofork`, go through the pages of the address space from
`UTEXT` up to the exception stack and map each of them into the child, and set up the child's
exception stack.  They differ in what they do with a page: `fork` makes it copy-on-write on both
sides, `sfork` shares it, all but the stack page.

`pgfault` is the handler they install: it replaces a copy-on-write page by a private copy.
-/

set_option autoImplicit false

namespace Jos

open Kernel

/-- `PTE_COW`: one of the bits that the kernel leaves to user programs. -/
def pteCow : Word := 0x800#32

/-- What a program that uses the library has set up. -/
structure Program where
  /-- `_pgfault_handler`; `0` is none. -/
  pgfaultHandler : Word
  /-- The address of `_pgfault_upcall`. -/
  pgfaultUpcall : Word

/-! ## The page fault handler -/

/-- `pgfault`. -/
def pgfault (addr err : Word) : UserM Unit := do
  if err &&& fecWr = 0#32 then
    throw (.panic "pgfault: page fault was not caused by write; %x.\n")
  if (← uloadWord (uvptEntry (pgnum addr))) &&& pteCow = 0#32 then
    throw (.panic "pgfault: page fault on page which is not COW %x.\n")
  let envid ← trapInto sysGetenvid
  if (← checked (sysPageAlloc envid pftemp (pteU ||| pteP ||| pteW))).toInt < 0 then
    throw (.panic "pgfault: can't allocate temp page.\n")
  memmove pftemp (roundDown addr pgsize) pgsize
  if (← checked (sysPageMap envid pftemp envid (roundDown addr pgsize)
      (pteU ||| pteP ||| pteW))).toInt < 0 then
    throw (.panic "pgfault: can't map temp page to old page.\n")
  if (← checked (sysPageUnmap envid pftemp)).toInt < 0 then
    throw (.panic "pgfault: couldn't unmap page.\n")

/-- A store by a program that has installed `pgfault`: a page that cannot be written to is handed to
the handler, and the store is tried once more. -/
def storeHandled (va : Word) (write : Page → Nat → Page) : UserM Unit := do
  if (← get).writable va = none then
    pgfault va fecWr
  ustore va write

/-- `set_pgfault_handler`; `thisenv` points at the current environment. -/
def setPgfaultHandler (prog : Program) : UserM Unit := do
  if prog.pgfaultHandler = 0#32 then
    let thisenv ← trapInto sysGetenvid
    if (← checked (sysPageAlloc thisenv (uxstacktop - pgsize) (pteP ||| pteU ||| pteW))) ≠ 0#32 then
      throw (.panic "Unable to allocate memory for pgfault expected\n")
    let _ ← checked (sysEnvSetPgfaultUpcall thisenv prog.pgfaultUpcall)

/-! ## One page -/

/-- The flags that `duppage` maps a page with. -/
def dupPerm (pte : Word) : Word :=
  if pte &&& pteW ≠ 0#32 ∨ pte &&& pteCow ≠ 0#32 then pteU ||| pteP ||| pteCow else pteU ||| pteP

/-- `duppage`. -/
def duppage (envid : Word) (pn : Nat) : UserM Word := do
  let myenvid ← trapInto sysGetenvid
  let pte ← uloadWord (uvptEntry pn)
  let va := BitVec.ofNat 32 (pn * 4096)
  let perm := dupPerm pte
  let r ← checked (sysPageMap myenvid va envid va perm)
  if r.toInt < 0 then
    return r
  if perm &&& pteCow ≠ 0#32 then
    let r ← checked (sysPageMap myenvid va myenvid va perm)
    if r.toInt < 0 then
      return r
  return 0#32

/-- The innermost loop body of `fork`; the result of `duppage` is not looked at. -/
def forkPage (envid : Word) (pn : Nat) : UserM Bool := do
  if (← uloadWord (uvptEntry pn)) &&& pteP ≠ 0#32 then
    let _ ← duppage envid pn
  return true

/-- The flags that `sfork` maps a page with. -/
def sharePerm (pte : Word) : Word :=
  pte &&& ~~~(pte &&& ~~~(pteP ||| pteU ||| pteW ||| pteAvail))

/-- The innermost loop body of `sfork`; `false` stands for `return -1`. -/
def sforkPage (envid : Word) (pn : Nat) : UserM Bool := do
  if pn = pgnum (ustacktop - pgsize) then
    let _ ← duppage envid pn
    return true
  let pte ← uloadWord (uvptEntry pn)
  if pte &&& pteP ≠ 0#32 then
    let myenvid ← trapInto sysGetenvid
    let va := BitVec.ofNat 32 (pn * 4096)
    if (← checked (sysPageMap myenvid va envid va (sharePerm pte))).toInt < 0 then
      return false
  return true

/-! ## All pages -/

/-- The loop over the entries of page table `i`.  It leaves off at the exception stack. -/
def scanPtes (body : Nat → UserM Bool) (i : Index) : List Index → UserM Bool
  | [] => return true
  | j :: js => do
    let pn := pgnum (pgaddr i j 0#32)
    if pn = pgnum (uxstacktop - pgsize) then
      return true
    if ← body pn then
      scanPtes body i js
    else
      return false

/-- The loop over the page tables. -/
def scanPdes (body : Nat → UserM Bool) : List Index → UserM Bool
  | [] => return true
  | i :: is => do
    if (← uloadWord (uvpdEntry i)) &&& pteP ≠ 0#32 then
      if ← scanPtes body i indices then
        scanPdes body is
      else
        return false
    else
      scanPdes body is

/-- The page tables from `PDX(UTEXT)` up to `PDX(UXSTACKTOP)`. -/
def scanRange : List Index := indices.filter fun i => pdx utext ≤ i ∧ i < pdx uxstacktop

/-! ## `fork` and `sfork` -/

/-- The end of `fork` and of `sfork`: the child's exception stack and its page fault handler, and
the child may run. -/
def startChild (prog : Program) (myenvid envid : Word) : UserM Word := do
  let uxstack := uxstacktop - pgsize
  let perm := pteU ||| pteP ||| pteW
  if (← checked (sysPageAlloc envid uxstack perm)).toInt < 0 then
    return -1#32
  if (← checked (sysPageMap envid uxstack myenvid pftemp perm)).toInt < 0 then
    return -1#32
  memmove uxstack pftemp pgsize
  if (← checked (sysPageUnmap myenvid pftemp)).toInt < 0 then
    return -1#32
  if (← checked (sysEnvSetPgfaultUpcall envid prog.pgfaultUpcall)).toInt < 0 then
    return -1#32
  if (← checked (sysEnvSetStatus envid 2#32)).toInt < 0 then
    return -1#32
  return envid

/-- What `fork` and `sfork` have in common; `page` is the innermost loop body.  What they push on
their own stack is left out; `Process.fork` has the pushes that take a page. -/
def forkWith (page : Word → Nat → UserM Bool) (prog : Program) : UserM Word := do
  let myenvid ← trapInto sysGetenvid
  setPgfaultHandler prog
  let envid ← trapInto sysExofork
  if envid.toInt < 0 then
    return -1#32
  if envid = 0#32 then
    -- the child: only `thisenv` is to be set
    return envid
  if ← scanPdes (page envid) scanRange then
    startChild prog myenvid envid
  else
    return -1#32

/-- `fork`. -/
def fork (prog : Program) : UserM Word := forkWith forkPage prog

/-- `sfork`. -/
def sfork (prog : Program) : UserM Word := forkWith sforkPage prog

end Jos
