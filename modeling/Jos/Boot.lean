import Jos.Env

/-!
# Boot

What `i386_init` does before it calls the scheduler for the first time: `mem_init` finds out how
much memory there is, sets up `page_free_list` and maps the kernel; `env_init` sets up
`env_free_list`; `env_create` makes the first environments from the programs linked into the
kernel.

`Machine` is what boot finds: the memory sizes in the NVRAM, the addresses the linker chose, the
programs, and whatever memory holds at power-on.  Its proof fields are what the hardware and the
linker scripts promise: base memory ends at the I/O hole, the kernel is linked above `EXTPHYSMEM`
and fits into the 4 MB that the entry page directory maps, and user programs are linked below
`UTOP`.

Not modelled are the kernel's own messages, the self-tests between the steps, and `lapic_init`.
They are not harmless: `check_page` always comes to `mmio_map_region`, which is not written yet and
panics, and so does `lapic_init` where `mp_init` has found a local APIC; `check_page_free_list`
reorders the free list and overwrites free pages.  The boot modelled here is the one of a source
without them.
-/

set_option autoImplicit false

namespace Jos

/-! ## What boot finds -/

/-- `struct Proghdr`, as far as the loader reads it. -/
structure Proghdr where
  pType : Word
  pOffset : Word
  pVa : Word
  pFilesz : Word
  pMemsz : Word

def elfMagic : Word := 0x464C457F#32
def elfProgLoad : Word := 1#32

/-- A program linked into the kernel. -/
structure Elf where
  eMagic : Word
  eEntry : Word
  /-- The `e_phnum` headers at `e_phoff`. -/
  proghdrs : List Proghdr
  /-- The bytes of the image, by offset. -/
  binary : Word → Byte
  /-- User programs are linked to run below `UTOP`. -/
  below : ∀ ph ∈ proghdrs, ph.pType = elfProgLoad → ph.pVa.toNat + ph.pMemsz.toNat ≤ utop.toNat

/-- The machine and the kernel image on it. -/
structure Machine where
  /-- Kilobytes of base memory, from the NVRAM. -/
  nvramBase : BitVec 16
  /-- Kilobytes of extended memory, from the NVRAM. -/
  nvramExt : BitVec 16
  /-- Base memory ends where the I/O hole starts. -/
  baseLe : nvramBase.toNat ≤ 640
  /-- The end of the kernel image, the linker's symbol `end`. -/
  kernEnd : Word
  kernEndGe : kernbase + extphysmem ≤ kernEnd
  kernEndLe : kernEnd ≤ kernbase + ptsize
  /-- The kernel stack of the first CPU. -/
  bootstack : Word
  bootstackGe : kernbase ≤ bootstack
  /-- The page of the entry page directory. -/
  entryPgdir : Nat
  /-- The first CPU. -/
  bootcpu : Cpu
  /-- The programs to start, and their types. -/
  binaries : List (Elf × EnvType)
  /-- What the memory of `pages` holds before `page_init`. -/
  pages : Nat → PageInfo
  /-- What the memory of `envs` holds before `env_init`. -/
  envs : EnvIndex → Env
  /-- What memory holds at power-on. -/
  mem : Nat → Page

namespace Machine

variable (m : Machine)

/-- `npages_basemem`, as `i386_detect_memory` computes it. -/
def npagesBasemem : Nat := m.nvramBase.toNat * 1024 / 4096

/-- `npages_extmem`. -/
def npagesExtmem : Nat := m.nvramExt.toNat * 1024 / 4096

/-- `npages`. -/
def npages : Nat :=
  if m.npagesExtmem ≠ 0 then 1048576 / 4096 + m.npagesExtmem else m.npagesBasemem

theorem npages_le : m.npages ≤ 16639 := by
  have h1 := m.nvramBase.isLt
  have h2 := m.nvramExt.isLt
  rw [npages, npagesExtmem, npagesBasemem]
  split
  · omega
  · omega

/-- The kernel's variables and the hardware when `i386_init` starts. -/
def powerOn : Kernel where
  npages := m.npages
  npagesLe := Nat.le_trans m.npages_le (by decide)
  kernPgdir := 0
  pages := m.pages
  pageFreeList := none
  mem := m.mem
  envs := m.envs
  envFreeList := none
  cpus := fun _ => ⟨.unused, none⟩
  cpunum := m.bootcpu
  cr3 := fun _ => m.entryPgdir
  tlb := fun _ _ => []
  cr2 := 0#32
  userMemCheckAddr := 0#32
  consIn := 0#32
  consOut := []

end Machine

/-! ## `mem_init` -/

/-- `boot_alloc`, with its static variable `nextfree` passed in and out. -/
def bootAlloc (nextfree n : Word) : Word × Word := (nextfree, nextfree + roundUp n pgsize)

/-- The kernel's data structures, as `boot_alloc` lays them out. -/
structure BootLayout where
  kernPgdir : Word
  pages : Word
  envs : Word
  nextfree : Word

/-- The size of `pages`: eight bytes for each page. -/
def Machine.pagesSize (m : Machine) : Word := roundUp (BitVec.ofNat 32 (m.npages * 8)) pgsize

/-- The size of `envs`: `NENV` times `sizeof(struct Env)`. -/
def envsSize : Word := roundUp (BitVec.ofNat 32 (1024 * 124)) pgsize

/-- The calls of `boot_alloc` in `mem_init`. -/
def Machine.bootLayout (m : Machine) : BootLayout :=
  let (kernPgdir, nextfree) := bootAlloc (roundUp m.kernEnd pgsize) pgsize
  let (pages, nextfree) := bootAlloc nextfree m.pagesSize
  let (envs, nextfree) := bootAlloc nextfree envsSize
  ⟨kernPgdir, pages, envs, nextfree⟩

/-- `PADDR` of a kernel address. -/
def paddrKva (kva : Word) : KernelM Word := do
  if kva < kernbase then
    throw (.panic "PADDR called with invalid kva")
  return kva - kernbase

/-- Put page `i` on the free list. -/
def pageInitFree (i : Nat) : KernelM Unit := do
  modify fun s => s.setPage i ⟨s.pageFreeList, 0#16⟩
  modify fun s => { s with pageFreeList := some i }

/-- The loop body of `page_init`.  The I/O hole and the kernel are one case. -/
def pageInitOne (npagesBasemem : Nat) (nextfree : Word) (i : Nat) : KernelM Unit := do
  if i = 0 then
    modify fun s => s.setPage 0 ⟨none, 1#16⟩
  else if i = pgnum mpentryPaddr then
    modify fun s => s.setPage i ⟨none, 1#16⟩
  else if i < npagesBasemem then
    pageInitFree i
  else if i ≤ pgnum extphysmem ∨ i < pgnum (nextfree - kernbase) then
    modify fun s => s.setPage i ⟨none, (s.pages i).ppRef + 1#16⟩
  else
    pageInitFree i

/-- `page_init`. -/
def pageInit (npagesBasemem : Nat) (nextfree : Word) : KernelM Unit := do
  modify fun s => { s with pageFreeList := none }
  (List.range (← get).npages).forM (pageInitOne npagesBasemem nextfree)

/-- The loop of `boot_map_region`, with `n` pages to go; it gives up silently when there is no page
for a page table. -/
def bootMapPages (pgdir : Nat) (perm : Word) : Nat → Word → Word → KernelM Unit
  | 0, _, _ => return ()
  | n + 1, va, pa => do
    match ← pgdirWalk pgdir va true with
    | none => return ()
    | some pte =>
      storeWord pte.page pte.idx (pteAddr pa ||| perm ||| pteP)
      bootMapPages pgdir perm n (va + pgsize) (pa + pgsize)

/-- `boot_map_region`. -/
def bootMapRegion (pgdir : Nat) (va size pa perm : Word) : KernelM Unit :=
  bootMapPages pgdir perm (size / pgsize).toNat va pa

/-- The mappings `mem_init` makes above `UTOP`. -/
def mapKernel (m : Machine) (pgdir : Nat) : KernelM Unit := do
  let pages ← paddrKva m.bootLayout.pages
  bootMapRegion pgdir upages m.pagesSize pages (pteU ||| pteP)
  bootMapRegion pgdir m.bootLayout.pages m.pagesSize pages (pteW ||| pteP)
  let envs ← paddrKva m.bootLayout.envs
  bootMapRegion pgdir uenvs envsSize envs (pteU ||| pteP)
  bootMapRegion pgdir m.bootLayout.envs envsSize envs (pteW ||| pteP)
  let bootstack ← paddrKva m.bootstack
  bootMapRegion pgdir (kstacktop - kstksize) kstksize bootstack (pteW ||| pteP)
  bootMapRegion pgdir kernbase (roundUp (0xFFFFFFFF#32 - kernbase) pgsize) 0#32 (pteW ||| pteP)

/-- `mem_init` without its self-tests. -/
def memInit (m : Machine) : KernelM Unit := do
  let kernPgdir := pgnum (← paddrKva m.bootLayout.kernPgdir)
  modify fun s => { s with kernPgdir := kernPgdir }
  modify (·.fill kernPgdir fun _ => 0#32)
  storeWord kernPgdir (pdx uvpt) (page2pa kernPgdir ||| pteU ||| pteP)
  pageInit m.npagesBasemem m.bootLayout.nextfree
  mapKernel m kernPgdir
  modify (·.lcr3 kernPgdir)

/-! ## `env_init` and the first environments -/

/-- The loop body of `env_init`. -/
def envInitOne (i : EnvIndex) : KernelM Unit := do
  updateEnv i fun env =>
    { env with
      envId := 0#32
      envParentId := 0#32
      envType := .user
      envStatus := .free
      envRuns := 0#32
      envPgdir := none }
  modify fun s => s.setEnv i { s.envs i with envLink := s.envFreeList }
  modify fun s => { s with envFreeList := some i }

/-- `env_init`: the last environment goes on the list first. -/
def envInit : KernelM Unit := do
  modify fun s => { s with envFreeList := none }
  indices.reverse.forM envInitOne

/-- The loop body of `region_alloc`. -/
def regionAllocPage (e : EnvIndex) (va : Word) : KernelM Unit := do
  match ← pageAlloc false with
  | none => throw (.panic "region_alloc failed\n")
  | some pp =>
    let pgdir ← derefPgdir ((← get).envs e).envPgdir
    if (← pageInsert pgdir pp va (pteU ||| pteW ||| pteP)) ≠ 0#32 then
      throw (.panic "region_alloc failed\n")

/-- `region_alloc`. -/
def regionAlloc (e : EnvIndex) (va len : Word) : KernelM Unit :=
  (List.range (roundUp len pgsize / pgsize).toNat).forM fun k =>
    regionAllocPage e (roundDown va pgsize + BitVec.ofNat 32 (k * 4096))

/-- `memmove` from the image of a program. -/
def copyIn (va : Word) (src : Nat → Byte) (n : Nat) : KernelM Unit :=
  (List.range n).forM fun k => kstoreByte (va + BitVec.ofNat 32 k) (src k)

/-- The loop body of `load_icode`. -/
def loadSegment (e : EnvIndex) (elf : Elf) (ph : Proghdr) : KernelM Unit := do
  if ph.pType = elfProgLoad then
    if ph.pMemsz < ph.pFilesz then
      throw (.panic "file size is great than memory size\n")
    regionAlloc e ph.pVa ph.pMemsz
    copyIn ph.pVa (fun k => elf.binary (ph.pOffset + BitVec.ofNat 32 k)) ph.pFilesz.toNat
    copyIn (ph.pVa + ph.pFilesz) (fun _ => 0#8) (ph.pMemsz - ph.pFilesz).toNat

/-- `load_icode`. -/
def loadIcode (e : EnvIndex) (elf : Elf) : KernelM Unit := do
  if elf.eMagic ≠ elfMagic then
    throw (.panic "elf header's magic is not correct\n")
  let dir ← paddr ((← get).envs e).envPgdir
  modify (·.lcr3 dir)
  elf.proghdrs.forM (loadSegment e elf)
  modify fun s => s.lcr3 s.kernPgdir
  updateEnv e fun env => { env with envTf := { env.envTf with tfEip := elf.eEntry } }
  regionAlloc e (ustacktop - pgsize) pgsize

/-- `env_create`. -/
def envCreate (elf : Elf) (type : EnvType) : KernelM Unit := do
  let (ret, e) ← envAlloc 0#32
  if ret.toInt < 0 then
    throw (.panic "env_create")
  let e ← derefEnv e
  loadIcode e elf
  updateEnv e fun env => { env with envType := type }

/-- `mp_init`, as far as it concerns the first CPU. -/
def mpInit : KernelM Unit :=
  modify fun s => s.setCpu s.cpunum { s.cpus s.cpunum with cpuStatus := .started }

/-- `i386_init`, up to the call of `sched_yield`, without `lapic_init` and the self-tests. -/
def i386Init (m : Machine) : KernelM Unit := do
  memInit m
  envInit
  mpInit
  m.binaries.forM fun b => envCreate b.1 b.2

end Jos
