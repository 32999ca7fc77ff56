import Jos.UserMem
import Jos.Syscall
import Jos.Lib.Trace

/-!
# What `user_mem_check` and `cprintf` look at

The check of user memory and the printing of a user string once more, with a note of every address
that is looked up in the page tables, of every byte that is read, and of a `NULL` entry pointer that
is followed.  Without the notes they are the functions of `kern/pmap.c` and `lib/printfmt.c`.
-/

set_option autoImplicit false

namespace Jos

open Kernel Command Traced

/-- What is noted. -/
inductive Access where
  /-- The entry for the address is looked up. -/
  | walk (va : Word)
  /-- A `NULL` entry pointer is followed. -/
  | null
  /-- The byte at the address is read. -/
  | byte (va : Word)
deriving DecidableEq

/-- A kernel command with notes. -/
abbrev Watch := EStateM Exit (Traced Kernel Access)

namespace Watch

/-! ## `user_mem_check` -/

/-- The loop of `user_mem_check`. -/
def userMemCheckLoop (pgdir : Nat) (endVa perm : Word) : Nat → Watch (Option (Option PtePtr))
  | 0 => return none
  | fuel + 1 => do
    let addr := (← lift get).userMemCheckAddr
    if ¬ addr < endVa then
      return none
    tell (.walk addr)
    match ← lift (pgdirWalk pgdir addr false) with
    | none => return some none
    | some pte =>
      if ulim < addr then
        return some (some pte)
      if (← lift (loadWord pte.page pte.idx)) &&& perm ≠ perm then
        return some (some pte)
      lift (modify fun s => { s with userMemCheckAddr := s.userMemCheckAddr + pgsize })
      userMemCheckLoop pgdir endVa perm fuel

def userMemCheckPages (env : EnvIndex) (endVa perm : Word) : Watch (Option (Option PtePtr)) := do
  if (← lift get).userMemCheckAddr < endVa then
    let pgdir ← lift (derefPgdir ((← lift get).envs env).envPgdir)
    userMemCheckLoop pgdir endVa perm (2 ^ 20)
  else
    return none

/-- `*pte`. -/
def derefPte : Option PtePtr → Watch Word
  | some pte => lift (loadWord pte.page pte.idx)
  | none => do
    tell .null
    lift (kloadWord 0#32)

def userMemCheckErr (va : Word) (pte : Option PtePtr) : Watch Word := do
  if (← lift get).userMemCheckAddr ≠ va then
    let w ← derefPte pte
    lift (modify fun s => { s with userMemCheckAddr := w })
  return -eFault

/-- `user_mem_check`. -/
def userMemCheck (env : EnvIndex) (va len perm : Word) : Watch Word := do
  let endVa := roundUp (va + len) pgsize
  let perm := perm ||| pteP
  lift (modify fun s => { s with userMemCheckAddr := va })
  match ← userMemCheckPages env endVa perm with
  | none => return 0#32
  | some pte => userMemCheckErr va pte

/-! ## `cprintf` -/

/-- The loop of `vprintfmt` for `%.*s`. -/
def printfmtS : Nat → Word → Int → Watch Unit
  | 0, _, _ => return ()
  | fuel + 1, p, precision => do
    tell (.byte p)
    let ch ← lift (kloadByte p)
    if ch = 0#8 then
      return ()
    if precision < 0 then
      lift (modify fun s => { s with consOut := ch :: s.consOut })
      printfmtS fuel (p + 1#32) precision
    else if 0 ≤ precision - 1 then
      lift (modify fun s => { s with consOut := ch :: s.consOut })
      printfmtS fuel (p + 1#32) (precision - 1)
    else
      return ()

/-- `cprintf("%.*s", len, p)`. -/
def cprintS (p len : Word) : Watch Unit := do
  if p = 0#32 then
    let out := if len.toInt < 0 then nullString else nullString.take len.toNat
    lift (modify fun s => { s with consOut := out.reverse ++ s.consOut })
  else
    printfmtS (2 ^ 32) p len.toInt

/-! ## Without the notes -/

theorem userMemCheckLoop_erases (d : Nat) (endVa perm : Word) (fuel : Nat) :
    Erases (userMemCheckLoop d endVa perm fuel) (Jos.userMemCheckLoop d endVa perm fuel) := by
  induction fuel with
  | zero => exact Erases.pure none
  | succ fuel ih =>
    refine (Erases.lift get).bind fun s => Erases.ite (Erases.pure none) (Erases.tell ?_)
    refine (Erases.lift (pgdirWalk d s.userMemCheckAddr false)).bind fun r => ?_
    cases r with
    | none => exact Erases.pure _
    | some pte =>
      refine Erases.ite (Erases.pure _) ((Erases.lift (loadWord _ _)).bind fun w => ?_)
      exact Erases.ite (Erases.pure _) ((Erases.lift (modify _)).bind fun _ => ih)

theorem derefPte_erases (pte : Option PtePtr) : Erases (derefPte pte) (Jos.derefPte pte) := by
  cases pte with
  | none => exact Erases.tell (Erases.lift _)
  | some pte => exact Erases.lift (loadWord pte.page pte.idx)

theorem userMemCheckPages_erases (e : EnvIndex) (endVa perm : Word) :
    Erases (userMemCheckPages e endVa perm) (Jos.userMemCheckPages e endVa perm) := by
  refine (Erases.lift get).bind fun _ => Erases.ite ?_ (Erases.pure none)
  refine (Erases.lift get).bind fun s => (Erases.lift (derefPgdir _)).bind fun d => ?_
  exact userMemCheckLoop_erases d endVa perm (2 ^ 20)

theorem userMemCheckErr_erases (va : Word) (pte : Option PtePtr) :
    Erases (userMemCheckErr va pte) (Jos.userMemCheckErr va pte) := by
  refine (Erases.lift get).bind fun s => Erases.ite ?_ (Erases.pure _)
  refine (derefPte_erases pte).bind fun w => (Erases.lift (modify _)).bind fun _ => Erases.pure _

theorem userMemCheck_erases (e : EnvIndex) (va len perm : Word) :
    Erases (userMemCheck e va len perm) (Jos.userMemCheck e va len perm) := by
  refine (Erases.lift (modify _)).bind fun _ => ?_
  refine (userMemCheckPages_erases e _ _).bind fun r => ?_
  cases r with
  | none => exact Erases.pure _
  | some pte => exact userMemCheckErr_erases va pte

theorem printfmtS_erases (fuel : Nat) (p : Word) (precision : Int) :
    Erases (printfmtS fuel p precision) (Jos.printfmtS fuel p precision) := by
  induction fuel generalizing p precision with
  | zero => exact Erases.pure ()
  | succ fuel ih =>
    refine Erases.tell ((Erases.lift (kloadByte p)).bind fun ch => Erases.ite (Erases.pure ()) ?_)
    refine Erases.ite ((Erases.lift (modify _)).bind fun _ => ih _ _) ?_
    exact Erases.ite ((Erases.lift (modify _)).bind fun _ => ih _ _) (Erases.pure ())

theorem cprintS_erases (p len : Word) : Erases (cprintS p len) (Jos.cprintS p len) :=
  Erases.ite (Erases.lift (modify _)) (printfmtS_erases _ _ _)

end Watch

end Jos
