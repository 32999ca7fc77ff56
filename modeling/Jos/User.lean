import Jos.Syscall
import Jos.Uvpt

/-!
# User programs

A user program computes with its variables, makes system calls, and loads and stores through its own
page tables.  Its variables and its stack frames are variables here too, as they are in C; the
memory of the model is the rest of its address space.

A system call runs the kernel's function; if the kernel does not return to the program, the program
is over.  So it is after a page fault that is not survived.
-/

set_option autoImplicit false

namespace Jos

open Kernel

/-- The ways a user program ends other than by returning. -/
inductive Stop where
  /-- `panic` of the user library: the program prints the message and hits a breakpoint. -/
  | panic (msg : String)
  /-- A page fault that is not survived. -/
  | fault (va : Word)
  /-- The kernel did not return to the program. -/
  | left (x : Exit)
deriving DecidableEq

/-- Code of the user library, run by the current environment. -/
abbrev UserM := EStateM Stop Kernel

/-- What the kernel does when it is called with `int T_SYSCALL`. -/
def trapInto {α : Type} (m : KernelM α) : UserM α := EStateM.adaptExcept Stop.left m

/-- `syscall` of the user library with `check` set: no result but an error or zero is expected. -/
def checked (m : KernelM Word) : UserM Word := do
  let ret ← trapInto m
  if 0 < ret.toInt then
    throw (.panic "syscall returned (> 0)")
  return ret

/-! ## Memory accesses -/

namespace Kernel

/-- The page a user's store at `va` goes to, and the offset in it. -/
def writable (s : Kernel) (va : Word) : Option (Nat × Nat) :=
  s.translate (s.cr3 s.cpunum) (pteP ||| pteU ||| pteW) va

/-- A page with the word at offset `o` replaced. -/
def setWord (w : Word) (p : Page) (o : Nat) : Page := Function.update p (Fin.ofNat 1024 (o / 4)) w

end Kernel

/-- Load a word, at a word-aligned address. -/
def uloadWord (va : Word) : UserM Word := do
  let s ← get
  match s.loadAt (s.cr3 s.cpunum) (pteP ||| pteU) va with
  | some w => return w
  | none => throw (.fault va)

/-- Load a byte. -/
def uloadByte (va : Word) : UserM Byte := do
  let s ← get
  match s.translate (s.cr3 s.cpunum) (pteP ||| pteU) va with
  | some (f, o) => return byteAt (s.mem f) o
  | none => throw (.fault va)

/-- Store at `va`: `write` is what the store makes of the page, given the offset. -/
def ustore (va : Word) (write : Page → Nat → Page) : UserM Unit := do
  match (← get).writable va with
  | some (f, o) => modify fun s => s.fill f (write (s.mem f) o)
  | none => throw (.fault va)

/-! ## `lib/string.c` -/

/-- One step of `rep movsl`. -/
def movsl (dst src : Word) : UserM Unit := do
  let w ← uloadWord src
  ustore dst (setWord w)

/-- One step of `rep movsb`. -/
def movsb (dst src : Word) : UserM Unit := do
  let b ← uloadByte src
  ustore dst fun p o => setByte p o b

/-- The offsets that `memmove` visits, in steps of `k` bytes: from the end if the destination starts
inside the source. -/
def moveOrder (dst src n : Word) (k : Nat) : List Word :=
  let l := (List.range (n.toNat / k)).map fun i => BitVec.ofNat 32 (k * i)
  if src < dst ∧ dst < src + n then l.reverse else l

/-- `memmove`. -/
def memmove (dst src n : Word) : UserM Unit :=
  if src.toNat % 4 = 0 ∧ dst.toNat % 4 = 0 ∧ n.toNat % 4 = 0 then
    (moveOrder dst src n 4).forM fun k => movsl (dst + k) (src + k)
  else
    (moveOrder dst src n 1).forM fun k => movsb (dst + k) (src + k)

end Jos
