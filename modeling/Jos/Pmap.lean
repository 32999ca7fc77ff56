import Jos.State

/-!
# `kern/pmap.c`: pages, page tables and the user-memory check

The functions of `kern/pmap.c` that run after boot, and the inline helpers of `kern/pmap.h`, as
commands on the kernel's state.  `KADDR` and `pa2page` panic on a physical address beyond the end
of memory, a `NULL` page directory faults, and a fault in kernel mode is the panic of
`page_fault_handler`.

Nothing here is tidied up.  `page_lookup` returns the page of an entry without asking whether the
entry is present, `page_alloc` leaves `pp_link` as it was, `page_insert` notices a page it has just
freed only at the head of the free list, and `user_mem_check` reads through its `NULL` pointer on
the error path.
-/

set_option autoImplicit false

namespace Jos

/-- A `pte_t *`: a page and an index into it. -/
structure PtePtr where
  page : Nat
  idx : Index
deriving DecidableEq

/-- A fault taken in kernel mode ends in `page_fault_handler`'s panic. -/
def kernelFault {α : Type} : KernelM α := throw (.panic "Page fault in kernel")

/-- `KADDR`, for a page-aligned address: the page it names. -/
def kaddr (pa : Word) : KernelM Nat := do
  let s ← get
  if s.npages ≤ pgnum pa then
    throw (.panic "KADDR called with invalid pa")
  return pgnum pa

/-- `pa2page`. -/
def pa2page (pa : Word) : KernelM Nat := do
  let s ← get
  if s.npages ≤ pgnum pa then
    throw (.panic "pa2page called with invalid pa")
  return pgnum pa

/-- `page2kva`. -/
def page2kva (pp : Nat) : KernelM Nat := kaddr (page2pa pp)

/-- Read a word of a page. -/
def loadWord (page : Nat) (i : Index) : KernelM Word := do
  return (← get).mem page i

/-- Write a word of a page. -/
def storeWord (page : Nat) (i : Index) (w : Word) : KernelM Unit := modify (·.store page i w)

/-- Follow `env_pgdir`; reading through `NULL` faults. -/
def derefPgdir : Option Nat → KernelM Nat
  | some d => pure d
  | none => kernelFault

/-! ## Page allocation -/

/-- `page_alloc`; `zero` is the flag `ALLOC_ZERO`. -/
def pageAlloc (zero : Bool) : KernelM (Option Nat) := do
  match (← get).pageFreeList with
  | none => return none
  | some pp =>
    modify fun s => { s with pageFreeList := (s.pages pp).ppLink }
    if zero then
      let kva ← page2kva pp
      modify (·.fill kva fun _ => 0#32)
    return some pp

/-- `page_free`. -/
def pageFree (pp : Nat) : KernelM Unit := do
  let s ← get
  if ¬ ((s.pages pp).ppRef = 0#16 ∨ (s.pages pp).ppLink = none) then
    throw (.panic "assertion failed: pp->pp_ref == 0 || pp->pp_link == NULL")
  modify fun s => s.setPage pp { s.pages pp with ppLink := s.pageFreeList }
  modify fun s => { s with pageFreeList := some pp }

/-- `pp->pp_ref++`. -/
def incRef (pp : Nat) : KernelM Unit :=
  modify fun s => s.setPage pp { s.pages pp with ppRef := (s.pages pp).ppRef + 1#16 }

/-- `page_decref`. -/
def pageDecref (pp : Nat) : KernelM Unit := do
  modify fun s => s.setPage pp { s.pages pp with ppRef := (s.pages pp).ppRef - 1#16 }
  if ((← get).pages pp).ppRef = 0#16 then
    pageFree pp

/-! ## Page tables -/

/-- `pgdir_walk`. -/
def pgdirWalk (pgdir : Nat) (va : Word) (create : Bool) : KernelM (Option PtePtr) := do
  let pde ← loadWord pgdir (pdx va)
  if pde &&& pteP ≠ 0#32 then
    let pgtable ← kaddr (pteAddr pde)
    return some ⟨pgtable, ptx va⟩
  else if !create then
    return none
  else
    match ← pageAlloc true with
    | none => return none
    | some pp =>
      let pgtable ← page2kva pp
      incRef pp
      storeWord pgdir (pdx va) (page2pa pgtable ||| pteP ||| pteW ||| pteU)
      return some ⟨pgtable, ptx va⟩

/-- `tlb_invalidate`: flush only if the tables being edited may be the ones in use. -/
def tlbInvalidate (pgdir : Nat) (va : Word) : KernelM Unit := do
  let s ← get
  match s.curenv with
  | none => modify (·.invlpg va)
  | some e => if (s.envs e).envPgdir = some pgdir then modify (·.invlpg va)

/-- `page_lookup`; the entry is returned along with the page it names, present or not. -/
def pageLookup (pgdir : Nat) (va : Word) : KernelM (Option (Nat × PtePtr)) := do
  match ← pgdirWalk pgdir va false with
  | none => return none
  | some pte =>
    let pp ← pa2page (pteAddr (← loadWord pte.page pte.idx))
    return some (pp, pte)

/-- `page_remove`. -/
def pageRemove (pgdir : Nat) (va : Word) : KernelM Unit := do
  let _ ← pgdirWalk pgdir va false
  match ← pageLookup pgdir va with
  | none => return ()
  | some (pp, pte) =>
    pageDecref pp
    storeWord pte.page pte.idx 0#32
    tlbInvalidate pgdir va

/-- The end of `page_insert`, once the entry is at hand. -/
def pageInsertAt (pgdir pp : Nat) (va perm : Word) (pte : PtePtr) : KernelM Word := do
  storeWord pte.page pte.idx (page2pa pp ||| pteP ||| perm)
  incRef pp
  tlbInvalidate pgdir va
  return 0#32

/-- `page_insert`. -/
def pageInsert (pgdir pp : Nat) (va perm : Word) : KernelM Word := do
  match ← pgdirWalk pgdir va false with
  | some pte =>
    if (← loadWord pte.page pte.idx) &&& pteP ≠ 0#32 then
      pageRemove pgdir va
    if (← get).pageFreeList = some pp then
      modify fun s => { s with pageFreeList := (s.pages pp).ppLink }
    pageInsertAt pgdir pp va perm pte
  | none =>
    match ← pgdirWalk pgdir va true with
    | none => return -eNoMem
    | some pte => pageInsertAt pgdir pp va perm pte

/-! ## Memory as the running CPU sees it -/

namespace Kernel

/-- The two-level translation of the hardware under the directory in page `dir`: the page and the
offset in it, when both entries are present and carry the flags `need`. -/
def translate (s : Kernel) (dir : Nat) (need va : Word) : Option (Nat × Nat) :=
  if s.mem dir (pdx va) &&& need ≠ need then none
  else (framed (s.mem dir (pdx va))).bind fun t =>
    if s.mem t (ptx va) &&& need ≠ need then none
    else (framed (s.mem t (ptx va))).map fun f => (f, pgoff va)

/-- The byte at offset `o` of a page; words are little-endian. -/
def byteAt (p : Page) (o : Nat) : Byte :=
  (p (Fin.ofNat 1024 (o / 4)) >>> (8 * (o % 4))).setWidth 8

/-- A page with the byte at offset `o` replaced. -/
def setByte (p : Page) (o : Nat) (b : Byte) : Page :=
  let i : Index := Fin.ofNat 1024 (o / 4)
  let sh := 8 * (o % 4)
  Function.update p i ((p i &&& ~~~(0xFF#32 <<< sh)) ||| (b.setWidth 32 <<< sh))

end Kernel

/-- The kernel reads a byte through the loaded page directory. -/
def kloadByte (va : Word) : KernelM Byte := do
  let s ← get
  match s.translate (s.cr3 s.cpunum) pteP va with
  | some (f, o) => return Kernel.byteAt (s.mem f) o
  | none => kernelFault

/-- The kernel writes a byte through the loaded page directory; with `CR0_WP` set, read-only pages
are read-only for the kernel too. -/
def kstoreByte (va : Word) (b : Byte) : KernelM Unit := do
  let s ← get
  match s.translate (s.cr3 s.cpunum) (pteP ||| pteW) va with
  | some (f, o) => modify fun s => s.fill f (Kernel.setByte (s.mem f) o b)
  | none => kernelFault

/-- The kernel reads a word at a virtual address, little-endian. -/
def kloadWord (va : Word) : KernelM Word := do
  let b0 ← kloadByte va
  let b1 ← kloadByte (va + 1#32)
  let b2 ← kloadByte (va + 2#32)
  let b3 ← kloadByte (va + 3#32)
  return b3 ++ b2 ++ b1 ++ b0

/-- The kernel writes a word at a virtual address, little-endian. -/
def kstoreWord (va w : Word) : KernelM Unit := do
  kstoreByte va (w.setWidth 8)
  kstoreByte (va + 1#32) ((w >>> 8).setWidth 8)
  kstoreByte (va + 2#32) ((w >>> 16).setWidth 8)
  kstoreByte (va + 3#32) ((w >>> 24).setWidth 8)

/-! ## Checking user memory -/

/-- The loop of `user_mem_check`, from `user_mem_check_addr` on: `none` when every page passed,
and otherwise the entry pointer at hand when the loop gave up.  `fuel` bounds the number of
rounds; `2 ^ 20` pages are all there are. -/
def userMemCheckLoop (pgdir : Nat) (endVa perm : Word) : Nat → KernelM (Option (Option PtePtr))
  | 0 => return none
  | fuel + 1 => do
    let addr := (← get).userMemCheckAddr
    if ¬ addr < endVa then
      return none
    match ← pgdirWalk pgdir addr false with
    | none => return some none
    | some pte =>
      if ulim < addr then
        return some (some pte)
      if (← loadWord pte.page pte.idx) &&& perm ≠ perm then
        return some (some pte)
      modify fun s => { s with userMemCheckAddr := s.userMemCheckAddr + pgsize }
      userMemCheckLoop pgdir endVa perm fuel

/-- The loop of `user_mem_check`; `env->env_pgdir` is followed only if it is entered at all. -/
def userMemCheckPages (env : EnvIndex) (endVa perm : Word) :
    KernelM (Option (Option PtePtr)) := do
  if (← get).userMemCheckAddr < endVa then
    let pgdir ← derefPgdir ((← get).envs env).envPgdir
    userMemCheckLoop pgdir endVa perm (2 ^ 20)
  else
    return none

/-- `*pte`, also where `pte` is `NULL`. -/
def derefPte : Option PtePtr → KernelM Word
  | some pte => loadWord pte.page pte.idx
  | none => kloadWord 0#32

/-- The code at `err:` in `user_mem_check`. -/
def userMemCheckErr (va : Word) (pte : Option PtePtr) : KernelM Word := do
  if (← get).userMemCheckAddr ≠ va then
    let w ← derefPte pte
    modify fun s => { s with userMemCheckAddr := w }
  return -eFault

/-- `user_mem_check`. -/
def userMemCheck (env : EnvIndex) (va len perm : Word) : KernelM Word := do
  let endVa := roundUp (va + len) pgsize
  let perm := perm ||| pteP
  modify fun s => { s with userMemCheckAddr := va }
  match ← userMemCheckPages env endVa perm with
  | none => return 0#32
  | some pte => userMemCheckErr va pte

end Jos
