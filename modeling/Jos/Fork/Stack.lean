import Jos.Fork.Cow
import Jos.Fork.Return

/-!
# What `fork` itself stores

`Jos.fork` keeps its variables and its stack frames to itself.  That is enough to say what becomes
of the memory of others, but not how many pages are taken: two stores of the parent may be page
faults.  `set_pgfault_handler` ends with a store to `_pgfault_handler`, and the page of that
variable may be copy-on-write since an earlier `fork`.  And `duppage` makes the page of the stack
copy-on-write, like any other, so that the next push is a fault, and `pgfault` takes a page.

`Process.fork` is `fork` with these two stores.  All other pushes go to a page that is the parent's
own by then.
-/

set_option autoImplicit false

namespace Jos

open Kernel Command

variable {res : Nat → Prop} {fl fl' fl₁ : List Nat} {s s' s₁ : Kernel} {e x : EnvIndex}
variable {d p g : Nat} {va : Word} {i j : Index} {V : Set (Index × Index)}

/-- A program that calls `fork`, and the addresses of what that stores to. -/
structure Process extends Program where
  /-- The address of `_pgfault_handler`. -/
  handlerVar : Word
  /-- Programs are linked at `UTEXT`. -/
  linked : utext ≤ handlerVar ∧ handlerVar < uxstacktop - pgsize
  /-- The address of `pgfault`. -/
  handler : Word
  /-- Where on the stack `fork` pushes the arguments of the functions that it calls. -/
  esp : Word

namespace Process

/-- `set_pgfault_handler(pgfault)`.  While no handler is set, a page fault is not survived. -/
def setPgfaultHandler (P : Process) : UserM Unit := do
  Jos.setPgfaultHandler P.toProgram
  if P.pgfaultHandler = 0#32 then
    ustore P.handlerVar (setWord P.handler)
  else
    storeHandled P.handlerVar (setWord P.handler)

/-- The innermost loop body of `fork`.  When it has dealt with the page of the stack, the program
goes on to push the arguments of the next call. -/
def forkPage (P : Process) (envid : Word) (pn : Nat) : UserM Bool := do
  let _ ← Jos.forkPage envid pn
  if pn = pgnum P.esp then
    storeHandled P.esp (setWord envid)
  return true

/-- `fork`. -/
def fork (P : Process) : UserM Word := do
  let myenvid ← trapInto sysGetenvid
  P.setPgfaultHandler
  forkChild P.forkPage P.toProgram myenvid

end Process

/-! ## How many pages that takes -/

/-- A copy of the page of `_pgfault_handler` is made. -/
def Kernel.CopiesHandler (s : Kernel) (P : Process) : Prop :=
  P.pgfaultHandler ≠ 0#32 ∧ s.writable P.handlerVar = none

instance (s : Kernel) (P : Process) : Decidable (s.CopiesHandler P) :=
  inferInstanceAs (Decidable (_ ∧ _))

/-- How many of the pages `fl` are free when `sys_exofork` is called: what the new exception stack
takes, or the copy of the page of `_pgfault_handler`, is gone, and the pages that were mapped there
and at `PFTEMP` are free if they are mapped nowhere else. -/
def Kernel.freeForChild (s : Kernel) (e : EnvIndex) (P : Process) (fl : List Nat) : Nat :=
  if s.CopiesHandler P then
    fl.length + s.freedAt e pftemp + s.freedAfter e pftemp P.handlerVar - (1 + s.tablesFor e pftemp)
  else s.freeWithHandler e P.toProgram fl

/-- How many page tables `PFTEMP` needs then. -/
def Kernel.tempTables (s : Kernel) (e : EnvIndex) (P : Process) : Nat :=
  if s.CopiesHandler P then 0 else s.tablesFor e pftemp

/-- How many pages are freed when a page is mapped at `PFTEMP` then. -/
def Kernel.tempFreed (s : Kernel) (e : EnvIndex) (P : Process) : Nat :=
  if s.CopiesHandler P then 0
  else if P.pgfaultHandler = 0#32 then s.freedAfter e uxstack pftemp
  else s.freedAt e pftemp

/-- The page that `va` is on. -/
def pageIdx (va : Word) : Index × Index := (pdx va, ptx va)

/-- The pages that it takes to make a child: those that it takes as such (`forkPages`), and a copy
of the page of the stack, if that is in the range, in place of a page that was mapped at `PFTEMP`
only. -/
noncomputable def Kernel.pagesForChild (s : Kernel) (e : EnvIndex) (P : Process) : Nat :=
  1 + tablesOf (insert (pageIdx uxstack) (s.copiedPages e)) + 1 + s.tempTables e P +
    ({pageIdx P.esp} ∩ s.copiedPages e).ncard * (1 - s.tempFreed e P)

/-! ## Stores -/

/-- The same pages are copied. -/
theorem copiedPages_congr
    (h : ∀ i j, (i, j) ∈ forkRange → (s'.leaf e i j = none ↔ s.leaf e i j = none)) :
    s'.copiedPages e = s.copiedPages e := by
  ext ⟨i, j⟩
  exact and_congr_right fun hij => not_congr (h i j hij)

theorem UserStores.leaf (hu : UserStores res fl s s') (x : EnvIndex) (i j : Index) :
    s'.leaf x i j = s.leaf x i j := congrFun hu.target (.page x i j)

theorem UserStores.roomIn (hu : UserStores res fl s s') (h : Inv res fl s) (hroom : s.RoomIn e V) :
    s'.RoomIn e V :=
  hroom.step h hu.inv fun p i j _ => Or.inl fun k hk => by rwa [hu.target] at hk

theorem UserStores.freedAt (hu : UserStores res fl s s') (h : Inv res fl s) (va : Word) :
    s'.freedAt e va = s.freedAt e va :=
  freedAt_congr h hu.inv (hu.leaf e _ _) fun q _ k => by rw [hu.target]

/-- A page that is not mapped is not freed. -/
theorem freedAt_unmapped (h : s.leaf e (pdx va) (ptx va) = none) : s.freedAt e va = 0 := by
  rw [Kernel.freedAt, h]

theorem tablesFor_present (h : s.table e (pdx va) ≠ none) : s.tablesFor e va = 0 := if_neg h

theorem Running.writable_eq (h : Running res fl s e d) (va : Word) :
    s.writable va = s.translate d userWrite va := by
  rw [Kernel.writable, h.loaded]
  rfl

/-- A store that does not fail. -/
theorem Running.ustore_inv (h : Running res fl s e d) (hva : va < utop) {write : Page → Nat → Page}
    (hrun : (ustore va write).run s = .ok () s') : UserStores res fl s s' := by
  cases hf : s.translate d userWrite va with
  | some fo =>
    rw [h.ustore_run write (f := fo.1) (o := fo.2) hf] at hrun
    cases hrun
    exact UserStores.fill h.inv (leaf_of_translate (o := fo.2) h.dir hva hf) _
  | none =>
    simp only [ustore, EStateM.run_bind, EStateM.run_get, h.writable_eq, hf] at hrun
    cases hrun

namespace Privatized

variable (hpriv : Privatized res fl s e d va p g fl' s')
include hpriv

theorem leaf_temp : s'.leaf e (pdx pftemp) (ptx pftemp) = none := by
  rw [leaf_eq_framed, hpriv.temp, framed_zero]

/-- The same pages are mapped, but for the one at `PFTEMP`. -/
theorem leaf_eq_none_iff (h : Inv res fl s) (hp : s.leaf e (pdx va) (ptx va) = some p)
    (hij : ¬ IsPage pftemp i j) : s'.leaf e i j = none ↔ s.leaf e i j = none := by
  by_cases hva : IsPage va i j
  · obtain ⟨rfl, rfl⟩ := hva
    have hg : g < 2 ^ 20 := Inv.lt_pow s (h.free_lt hpriv.fresh)
    rw [leaf_eq_framed s', hpriv.entry, framed_entry hg (by decide), hp]
    simp
  · rw [leaf_eq_framed, hpriv.same i j hva hij, leaf_eq_framed]

theorem roomIn (h : Inv res fl s) (hroom : s.RoomIn e V) : s'.RoomIn e V := by
  have hg : g < 2 ^ 20 := Inv.lt_pow s (h.free_lt hpriv.fresh)
  refine hroom.step h hpriv.run.inv fun q i j hq => ?_
  rcases hpriv.leaf_cases hg hq with ⟨-, ⟨rfl, rfl⟩, rfl⟩ | ⟨-, -, hold⟩
  · refine Or.inr fun k hk => ?_
    obtain ⟨y, i', j', rfl⟩ := hpriv.run.inv.page_of_leaf hq hk
    rcases hpriv.leaf_cases hg hk with ⟨rfl, ⟨rfl, rfl⟩, -⟩ | ⟨-, -, hold⟩
    · rfl
    · exact absurd hold (h.ok.free_unref q hpriv.fresh (.page y i' j'))
  · refine Or.inl fun k hk => ?_
    obtain ⟨y, i', j', rfl⟩ := hpriv.run.inv.page_of_leaf hq hk
    rcases hpriv.leaf_cases hg hk with ⟨-, -, rfl⟩ | ⟨-, -, hold'⟩
    · exact absurd hold (h.ok.free_unref q hpriv.fresh (.page e i j))
    · exact hold'

end Privatized

/-! ## `set_pgfault_handler` -/

/-- The handler has been set and stored. -/
structure HandlerStored (res : Nat → Prop) (fl : List Nat) (s : Kernel) (e : EnvIndex) (d : Nat)
    (P : Process) (fl' : List Nat) (s' : Kernel) : Prop where
  run : Running res fl' s' e d
  room : s'.RoomIn e forkRange
  envFree : s'.envFreeList = s.envFreeList
  status : ∀ x, (s'.envs x).envStatus = (s.envs x).envStatus
  id : (s'.envs e).envId = (s.envs e).envId
  copied : s'.copiedPages e = s.copiedPages e
  free : fl'.length = s.freeForChild e P fl
  tempTables : s'.tablesFor e pftemp = s.tempTables e P
  tempFreed : s'.freedAt e pftemp = s.tempFreed e P

section

variable {P : Process}

theorem HandlerStored.stores (h : HandlerStored res fl s e d P fl₁ s₁)
    (hu : UserStores res fl₁ s₁ s') : HandlerStored res fl s e d P fl₁ s' where
  run := h.run.of_stores hu
  room := hu.roomIn h.run.inv h.room
  envFree := hu.only.envFreeList.trans h.envFree
  status x := by rw [hu.only.envs, h.status]
  id := by rw [hu.only.envs, h.id]
  copied := (copiedPages_congr fun i j _ => by rw [hu.leaf]).trans h.copied
  free := h.free
  tempTables := by rw [Kernel.tablesFor, (hu.sameSpace e).table]; exact h.tempTables
  tempFreed := (hu.freedAt h.run.inv pftemp).trans h.tempFreed

/-- The page of `_pgfault_handler` is writable. -/
theorem Handled.stored (h : Handled res fl s e d P.toProgram fl₁ s₁) (hno : ¬ s.CopiesHandler P) :
    HandlerStored res fl s e d P fl₁ s₁ where
  run := h.run
  room := h.room
  envFree := h.envFree
  status := h.status
  id := h.self.1
  copied := h.copiedPages
  free := by rw [Kernel.freeForChild, if_neg hno, h.free]
  tempTables := by rw [Kernel.tempTables, if_neg hno, h.tempTable]
  tempFreed := by rw [Kernel.tempFreed, if_neg hno, h.tempFreed]

theorem Process.handlerVar_range (P : Process) : pageIdx P.handlerVar ∈ forkRange :=
  mem_forkRange_of_va P.linked.1 P.linked.2

theorem Process.handlerVar_lt (P : Process) : P.handlerVar < utop := by
  have htop : (uxstacktop - pgsize).toNat ≤ utop.toNat := by decide
  have hlt := P.linked.2
  rw [BitVec.lt_def] at hlt ⊢
  omega

/-- The program has got a copy of it. -/
theorem Privatized.stored (h : Running res fl s e d) (hroom : s.RoomIn e forkRange)
    (hyes : s.CopiesHandler P) (hp : s.leaf e (pdx P.handlerVar) (ptx P.handlerVar) = some p)
    (hpriv : Privatized res fl s e d P.handlerVar p g fl₁ s₁) :
    HandlerStored res fl s e d P fl₁ s₁ where
  run := hpriv.run
  room := hpriv.roomIn h.inv hroom
  envFree := hpriv.only.envFreeList
  status x := by rw [hpriv.only.envs]
  id := by rw [hpriv.only.envs]
  copied := copiedPages_congr fun i j hij => hpriv.leaf_eq_none_iff h.inv hp (pftemp_out hij)
  free := by
    have hfree := hpriv.free
    rw [Kernel.freeForChild, if_pos hyes]
    omega
  tempTables := by rw [Kernel.tempTables, if_pos hyes, tablesFor_present hpriv.tempTable]
  tempFreed := by rw [Kernel.tempFreed, if_pos hyes, freedAt_unmapped hpriv.leaf_temp]

/-- **`set_pgfault_handler`**, when it returns. -/
theorem Running.setPgfaultHandler_stored (h : Running res fl s e d) (hroom : s.RoomIn e forkRange)
    (hrun : P.setPgfaultHandler.run s = .ok () s') :
    ∃ fl', HandlerStored res fl s e d P fl' s' := by
  have hva := P.handlerVar_lt
  obtain ⟨⟨⟩, s₀, hset, hstore⟩ := ok_of_bind hrun
  obtain ⟨fl₀, hh⟩ := h.setPgfaultHandler hroom hset
  by_cases h0 : P.pgfaultHandler = 0#32
  · rw [if_pos h0] at hstore
    exact ⟨fl₀, (hh.stored fun hyes => hyes.1 h0).stores (hh.run.ustore_inv hva hstore)⟩
  rw [if_neg h0] at hstore
  obtain ⟨-, rfl⟩ | ⟨hh0, -⟩ := hh.stack
  · have hwr := h.writable_eq P.handlerVar
    rcases h.storeHandled_run hva (pftemp_out P.handlerVar_range) (setWord P.handler) with
      ⟨f, hf, hok⟩ | ⟨-, -, x, t, hfail⟩ | ⟨p, g, fl', t, hno, -, hp, hpriv, htr, hok⟩
    · rw [hok] at hstore
      cases hstore
      have hnot : ¬ s₀.CopiesHandler P := fun hyes =>
        absurd ((hwr.trans hf).symm.trans hyes.2) (by simp)
      exact ⟨fl₀, (hh.stored hnot).stores
        (UserStores.fill hh.run.inv (leaf_of_translate h.dir hva hf) _)⟩
    · rw [hfail] at hstore
      cases hstore
    · rw [hok] at hstore
      cases hstore
      have hleaf := leaf_of_translate hpriv.run.dir hva htr
      exact ⟨fl', (Privatized.stored h hroom ⟨h0, hwr.trans hno⟩ hp hpriv).stores
        (UserStores.fill hpriv.run.inv hleaf _)⟩
  · exact absurd hh0 h0

end

end Jos
