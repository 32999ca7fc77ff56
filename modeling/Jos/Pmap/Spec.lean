import Jos.Pmap

/-!
# What the page functions do

One equation for each function of `kern/pmap.c` and each way through it: under the conditions of
that way, the function returns this value in that state.  The states are spelled with the updates
below, so that a proof about a caller never looks inside a callee.

`decref` cannot fail: `page_free` is only reached with a count of zero, which its assertion accepts.
-/

set_option autoImplicit false

namespace Jos

namespace Kernel

/-- The state after `page_alloc` has taken `pp` off the free list. -/
def pop (s : Kernel) (pp : Nat) : Kernel := { s with pageFreeList := (s.pages pp).ppLink }

/-- The state after `page_free pp`. -/
def push (s : Kernel) (pp : Nat) : Kernel :=
  { s.setPage pp { s.pages pp with ppLink := s.pageFreeList } with pageFreeList := some pp }

/-- The state after `pp->pp_ref++`. -/
def incref (s : Kernel) (pp : Nat) : Kernel :=
  s.setPage pp { s.pages pp with ppRef := (s.pages pp).ppRef + 1#16 }

/-- The state after `--pp->pp_ref`. -/
def unref (s : Kernel) (pp : Nat) : Kernel :=
  s.setPage pp { s.pages pp with ppRef := (s.pages pp).ppRef - 1#16 }

/-- The state after `page_decref pp`. -/
def decref (s : Kernel) (pp : Nat) : Kernel :=
  if (s.pages pp).ppRef - 1#16 = 0#16 then (s.unref pp).push pp else s.unref pp

/-- The state after `tlb_invalidate`. -/
def flush (s : Kernel) (pgdir : Nat) (va : Word) : Kernel :=
  match s.curenv with
  | none => s.invlpg va
  | some e => if (s.envs e).envPgdir = some pgdir then s.invlpg va else s

/-- The state after `pgdir_walk` has made `pp` the page table for `va`. -/
def newTable (s : Kernel) (pgdir : Nat) (va : Word) (pp : Nat) : Kernel :=
  (((s.pop pp).fill pp fun _ => 0#32).incref pp).store pgdir (pdx va)
    (page2pa pp ||| pteP ||| pteW ||| pteU)

/-- The state after the end of `page_insert`. -/
def mapAt (s : Kernel) (pgdir pp : Nat) (va perm : Word) (pte : PtePtr) : Kernel :=
  ((s.store pte.page pte.idx (page2pa pp ||| pteP ||| perm)).incref pp).flush pgdir va

/-- The state after `page_remove` has dropped the page `pp` from the entry `pte`. -/
def unmapAt (s : Kernel) (pgdir pp : Nat) (va : Word) (pte : PtePtr) : Kernel :=
  ((s.decref pp).store pte.page pte.idx 0#32).flush pgdir va

/-! ### What `flush` leaves alone -/

section

variable (s : Kernel) (pgdir : Nat) (va : Word)

theorem flush_eq (s : Kernel) (pgdir : Nat) (va : Word) :
    ∃ tlb, s.flush pgdir va = { s with tlb := tlb } := by
  rw [flush]
  split
  · exact ⟨_, rfl⟩
  · split
    · exact ⟨_, rfl⟩
    · exact ⟨s.tlb, rfl⟩

@[simp] theorem flush_npages : (s.flush pgdir va).npages = s.npages := by
  obtain ⟨t, h⟩ := flush_eq s pgdir va; rw [h]
@[simp] theorem flush_kernPgdir : (s.flush pgdir va).kernPgdir = s.kernPgdir := by
  obtain ⟨t, h⟩ := flush_eq s pgdir va; rw [h]
@[simp] theorem flush_pages : (s.flush pgdir va).pages = s.pages := by
  obtain ⟨t, h⟩ := flush_eq s pgdir va; rw [h]
@[simp] theorem flush_pageFreeList : (s.flush pgdir va).pageFreeList = s.pageFreeList := by
  obtain ⟨t, h⟩ := flush_eq s pgdir va; rw [h]
@[simp] theorem flush_mem : (s.flush pgdir va).mem = s.mem := by
  obtain ⟨t, h⟩ := flush_eq s pgdir va; rw [h]
@[simp] theorem flush_envs : (s.flush pgdir va).envs = s.envs := by
  obtain ⟨t, h⟩ := flush_eq s pgdir va; rw [h]
@[simp] theorem flush_envFreeList : (s.flush pgdir va).envFreeList = s.envFreeList := by
  obtain ⟨t, h⟩ := flush_eq s pgdir va; rw [h]

end

/-! ### What the other updates leave alone -/

section

variable (s : Kernel) (pp : Nat)

@[simp] theorem pop_mem : (s.pop pp).mem = s.mem := rfl
@[simp] theorem pop_pages : (s.pop pp).pages = s.pages := rfl
@[simp] theorem pop_npages : (s.pop pp).npages = s.npages := rfl
@[simp] theorem pop_kernPgdir : (s.pop pp).kernPgdir = s.kernPgdir := rfl
@[simp] theorem pop_envs : (s.pop pp).envs = s.envs := rfl
@[simp] theorem pop_envFreeList : (s.pop pp).envFreeList = s.envFreeList := rfl
@[simp] theorem pop_pageFreeList : (s.pop pp).pageFreeList = (s.pages pp).ppLink := rfl

@[simp] theorem incref_mem : (s.incref pp).mem = s.mem := rfl
@[simp] theorem incref_npages : (s.incref pp).npages = s.npages := rfl
@[simp] theorem incref_kernPgdir : (s.incref pp).kernPgdir = s.kernPgdir := rfl
@[simp] theorem incref_envs : (s.incref pp).envs = s.envs := rfl
@[simp] theorem incref_envFreeList : (s.incref pp).envFreeList = s.envFreeList := rfl
@[simp] theorem incref_pageFreeList : (s.incref pp).pageFreeList = s.pageFreeList := rfl

@[simp] theorem decref_mem : (s.decref pp).mem = s.mem := by rw [decref]; split <;> rfl
@[simp] theorem decref_npages : (s.decref pp).npages = s.npages := by rw [decref]; split <;> rfl
@[simp] theorem decref_kernPgdir : (s.decref pp).kernPgdir = s.kernPgdir := by
  rw [decref]; split <;> rfl
@[simp] theorem decref_envs : (s.decref pp).envs = s.envs := by rw [decref]; split <;> rfl
@[simp] theorem decref_envFreeList : (s.decref pp).envFreeList = s.envFreeList := by
  rw [decref]; split <;> rfl

end

/-! ### What mapping and unmapping change -/

section

variable (s : Kernel) (pgdir pp : Nat) (va perm : Word) (pte : PtePtr)

@[simp] theorem mapAt_mem : (s.mapAt pgdir pp va perm pte).mem =
    (s.store pte.page pte.idx (page2pa pp ||| pteP ||| perm)).mem := by simp [mapAt]
@[simp] theorem mapAt_pages : (s.mapAt pgdir pp va perm pte).pages = (s.incref pp).pages := by
  simp [mapAt, incref]
@[simp] theorem mapAt_npages : (s.mapAt pgdir pp va perm pte).npages = s.npages := by simp [mapAt]
@[simp] theorem mapAt_kernPgdir : (s.mapAt pgdir pp va perm pte).kernPgdir = s.kernPgdir := by
  simp [mapAt]
@[simp] theorem mapAt_envs : (s.mapAt pgdir pp va perm pte).envs = s.envs := by simp [mapAt]
@[simp] theorem mapAt_envFreeList : (s.mapAt pgdir pp va perm pte).envFreeList = s.envFreeList := by
  simp [mapAt]
@[simp] theorem mapAt_pageFreeList :
    (s.mapAt pgdir pp va perm pte).pageFreeList = s.pageFreeList := by simp [mapAt]

@[simp] theorem unmapAt_mem : (s.unmapAt pgdir pp va pte).mem =
    (s.store pte.page pte.idx 0#32).mem := by simp [unmapAt, store]
@[simp] theorem unmapAt_pages : (s.unmapAt pgdir pp va pte).pages = (s.decref pp).pages := by
  simp [unmapAt]
@[simp] theorem unmapAt_npages : (s.unmapAt pgdir pp va pte).npages = s.npages := by
  simp [unmapAt]
@[simp] theorem unmapAt_kernPgdir : (s.unmapAt pgdir pp va pte).kernPgdir = s.kernPgdir := by
  simp [unmapAt]
@[simp] theorem unmapAt_envs : (s.unmapAt pgdir pp va pte).envs = s.envs := by simp [unmapAt]
@[simp] theorem unmapAt_envFreeList : (s.unmapAt pgdir pp va pte).envFreeList = s.envFreeList := by
  simp [unmapAt]
@[simp] theorem unmapAt_pageFreeList :
    (s.unmapAt pgdir pp va pte).pageFreeList = (s.decref pp).pageFreeList := by simp [unmapAt]

end

end Kernel

open Kernel

/-! ## The equations -/

section

variable {s : Kernel} {pgdir pp t : Nat} {va perm : Word}

theorem kaddr_run (h : pgnum (pteAddr perm) < s.npages) :
    (kaddr (pteAddr perm)).run s = .ok (pgnum (pteAddr perm)) s := by
  simp [kaddr, Nat.not_le.2 h]

theorem pa2page_run {pa : Word} (h : pgnum pa < s.npages) :
    (pa2page pa).run s = .ok (pgnum pa) s := by
  simp [pa2page, Nat.not_le.2 h]

theorem page2kva_run (h : pp < s.npages) : (page2kva pp).run s = .ok pp s := by
  have hp : pgnum (page2pa pp) = pp := pgnum_page2pa (Nat.lt_of_lt_of_le h s.npagesLe)
  simp [page2kva, kaddr, hp, Nat.not_le.2 h]

theorem pageAlloc_none (h : s.pageFreeList = none) (z : Bool) :
    (pageAlloc z).run s = .ok none s := by
  simp [pageAlloc, h]

theorem pageAlloc_zero (h : s.pageFreeList = some pp) (hp : pp < s.npages) :
    (pageAlloc true).run s = .ok (some pp) ((s.pop pp).fill pp fun _ => 0#32) := by
  have h2 := page2kva_run (s := s.pop pp) hp
  simp only [pop] at h2
  simp only [pageAlloc, EStateM.run_bind, EStateM.run_get, h, EStateM.run_modify, if_true, h2,
    EStateM.run_pure, pop]

theorem pageAlloc_raw (h : s.pageFreeList = some pp) :
    (pageAlloc false).run s = .ok (some pp) (s.pop pp) := by
  simp only [pageAlloc, EStateM.run_bind, EStateM.run_get, h, EStateM.run_modify,
    Bool.false_eq_true, if_false, EStateM.run_pure, pop]

theorem pageFree_run (h : (s.pages pp).ppRef = 0#16 ∨ (s.pages pp).ppLink = none) :
    (pageFree pp).run s = .ok () (s.push pp) := by
  simp only [pageFree, EStateM.run_bind, EStateM.run_get, h, not_true, if_false,
    EStateM.run_modify]
  rfl

/-- Where `page_free` returns, it has put the page on the list. -/
theorem pageFree_ok {s' : Kernel} (h : (pageFree pp).run s = .ok () s') : s' = s.push pp := by
  by_cases ha : (s.pages pp).ppRef = 0#16 ∨ (s.pages pp).ppLink = none
  · rw [pageFree_run ha] at h
    cases h
    rfl
  · simp only [pageFree, EStateM.run_bind, EStateM.run_get, ha, not_false_eq_true, if_true,
      Command.run_throw] at h
    cases h

theorem pageDecref_run (s : Kernel) (pp : Nat) : (pageDecref pp).run s = .ok () (s.decref pp) := by
  have hz : ((s.unref pp).pages pp).ppRef = (s.pages pp).ppRef - 1#16 := by simp [unref]
  simp only [pageDecref, EStateM.run_bind, EStateM.run_get, EStateM.run_modify]
  change EStateM.run (if ((s.unref pp).pages pp).ppRef = 0#16 then pageFree pp else pure ())
    (s.unref pp) = _
  rw [hz, decref]
  split
  · exact pageFree_run (Or.inl (by rwa [hz]))
  · rfl

theorem tlbInvalidate_run (s : Kernel) (pgdir : Nat) (va : Word) :
    (tlbInvalidate pgdir va).run s = .ok () (s.flush pgdir va) := by
  simp only [tlbInvalidate, EStateM.run_bind, EStateM.run_get]
  cases hc : s.curenv with
  | none => simp [flush, hc]
  | some e =>
    by_cases hd : (s.envs e).envPgdir = some pgdir
    · simp [flush, hc, hd]
    · simp [flush, hc, hd]

theorem pgdirWalk_found (h : framed (s.mem pgdir (pdx va)) = some t) (ht : t < s.npages)
    (create : Bool) : (pgdirWalk pgdir va create).run s = .ok (some ⟨t, ptx va⟩) s := by
  obtain ⟨hp, rfl⟩ := framed_eq_some.1 h
  simp only [pgdirWalk, loadWord, EStateM.run_bind, EStateM.run_get, EStateM.run_pure, if_pos hp,
    kaddr_run ht]

theorem pgdirWalk_beyond (h : framed (s.mem pgdir (pdx va)) = some t) (ht : ¬ t < s.npages)
    (create : Bool) : (pgdirWalk pgdir va create).run s =
      .error (.panic "KADDR called with invalid pa") s := by
  obtain ⟨hp, rfl⟩ := framed_eq_some.1 h
  have hk : (kaddr (pteAddr (s.mem pgdir (pdx va)))).run s =
      .error (.panic "KADDR called with invalid pa") s := by
    simp only [kaddr, EStateM.run_bind, EStateM.run_get, if_pos (Nat.not_lt.1 ht),
      Command.run_throw]
  simp only [pgdirWalk, loadWord, EStateM.run_bind, EStateM.run_get, EStateM.run_pure, if_pos hp,
    hk]

theorem pgdirWalk_missing (h : framed (s.mem pgdir (pdx va)) = none) :
    (pgdirWalk pgdir va false).run s = .ok none s := by
  rw [framed_eq_none] at h
  simp [pgdirWalk, loadWord, h]

theorem pgdirWalk_full (h : framed (s.mem pgdir (pdx va)) = none) (hf : s.pageFreeList = none) :
    (pgdirWalk pgdir va true).run s = .ok none s := by
  rw [framed_eq_none] at h
  simp [pgdirWalk, loadWord, h, pageAlloc_none hf]

theorem pgdirWalk_create (h : framed (s.mem pgdir (pdx va)) = none)
    (hf : s.pageFreeList = some pp) (hp : pp < s.npages) :
    (pgdirWalk pgdir va true).run s = .ok (some ⟨pp, ptx va⟩) (s.newTable pgdir va pp) := by
  rw [framed_eq_none] at h
  have h2 := page2kva_run (s := (s.pop pp).fill pp fun _ => 0#32) hp
  simp only [pgdirWalk, loadWord, EStateM.run_bind, EStateM.run_get, EStateM.run_pure, h,
    ne_eq, not_true, if_false, Bool.not_true, Bool.false_eq_true, pageAlloc_zero hf hp, h2, incRef,
    storeWord, EStateM.run_modify]
  rfl

theorem pageLookup_missing (h : framed (s.mem pgdir (pdx va)) = none) :
    (pageLookup pgdir va).run s = .ok none s := by
  simp [pageLookup, pgdirWalk_missing h]

theorem pageLookup_found (h : framed (s.mem pgdir (pdx va)) = some t) (ht : t < s.npages)
    (hp : pgnum (pteAddr (s.mem t (ptx va))) < s.npages) :
    (pageLookup pgdir va).run s =
      .ok (some (pgnum (pteAddr (s.mem t (ptx va))), ⟨t, ptx va⟩)) s := by
  simp [pageLookup, pgdirWalk_found h ht, loadWord, pa2page_run hp]

theorem pageRemove_missing (h : framed (s.mem pgdir (pdx va)) = none) :
    (pageRemove pgdir va).run s = .ok () s := by
  simp [pageRemove, pgdirWalk_missing h, pageLookup_missing h]

theorem pageRemove_found (h : framed (s.mem pgdir (pdx va)) = some t) (ht : t < s.npages)
    (hp : pgnum (pteAddr (s.mem t (ptx va))) < s.npages) :
    (pageRemove pgdir va).run s =
      .ok () (s.unmapAt pgdir (pgnum (pteAddr (s.mem t (ptx va)))) va ⟨t, ptx va⟩) := by
  simp only [pageRemove, EStateM.run_bind, pgdirWalk_found h ht, pageLookup_found h ht hp,
    pageDecref_run, storeWord, EStateM.run_modify, tlbInvalidate_run, unmapAt]

theorem pageRemove_beyond (h : framed (s.mem pgdir (pdx va)) = some t) (ht : t < s.npages)
    (hp : ¬ pgnum (pteAddr (s.mem t (ptx va))) < s.npages) :
    (pageRemove pgdir va).run s = .error (.panic "pa2page called with invalid pa") s := by
  have hfail : (pageLookup pgdir va).run s =
      .error (.panic "pa2page called with invalid pa") s := by
    simp [pageLookup, pgdirWalk_found h ht, loadWord, pa2page, Nat.not_lt.1 hp]
  rw [pageRemove, Command.run_bind_ok (pgdirWalk_found h ht false), Command.run_bind_error hfail]

theorem pageInsertAt_run (s : Kernel) (pgdir pp : Nat) (va perm : Word) (pte : PtePtr) :
    (pageInsertAt pgdir pp va perm pte).run s = .ok 0#32 (s.mapAt pgdir pp va perm pte) := by
  simp only [pageInsertAt, EStateM.run_bind, storeWord, EStateM.run_modify, incRef,
    tlbInvalidate_run, EStateM.run_pure, mapAt, incref]

/-- The free list loses its head if that is the page being inserted. -/
def Kernel.unfree (s : Kernel) (pp : Nat) : Kernel :=
  if s.pageFreeList = some pp then s.pop pp else s

theorem pageInsert_full (h : framed (s.mem pgdir (pdx va)) = none) (hf : s.pageFreeList = none) :
    (pageInsert pgdir pp va perm).run s = .ok (-eNoMem) s := by
  simp [pageInsert, pgdirWalk_missing h, pgdirWalk_full h hf]

theorem pageInsert_create (h : framed (s.mem pgdir (pdx va)) = none)
    (hf : s.pageFreeList = some t) (ht : t < s.npages) :
    (pageInsert pgdir pp va perm).run s =
      .ok 0#32 ((s.newTable pgdir va t).mapAt pgdir pp va perm ⟨t, ptx va⟩) := by
  simp [pageInsert, pgdirWalk_missing h, pgdirWalk_create h hf ht, pageInsertAt_run]

/-- The tail of `page_insert` when the page table exists: skip the head of the free list if it is
the page being inserted, then write the entry. -/
theorem pageInsert_tail (s : Kernel) (pgdir pp : Nat) (va perm : Word) (pte : PtePtr) :
    EStateM.run (do
      if (← get).pageFreeList = some pp then
        modify fun s => { s with pageFreeList := (s.pages pp).ppLink }
      pageInsertAt pgdir pp va perm pte : KernelM Word) s =
      .ok 0#32 ((s.unfree pp).mapAt pgdir pp va perm pte) := by
  by_cases h : s.pageFreeList = some pp
  · simp only [EStateM.run_bind, EStateM.run_get, if_pos h, EStateM.run_modify, pageInsertAt_run,
      Kernel.unfree, pop]
  · simp only [EStateM.run_bind, EStateM.run_get, if_neg h, pageInsertAt_run, Kernel.unfree]

theorem pageInsert_absent (h : framed (s.mem pgdir (pdx va)) = some t) (ht : t < s.npages)
    (hn : framed (s.mem t (ptx va)) = none) :
    (pageInsert pgdir pp va perm).run s =
      .ok 0#32 ((s.unfree pp).mapAt pgdir pp va perm ⟨t, ptx va⟩) := by
  rw [framed_eq_none] at hn
  have hu := pageInsert_tail s pgdir pp va perm ⟨t, ptx va⟩
  simp only [EStateM.run_bind, EStateM.run_get] at hu
  simp only [pageInsert, EStateM.run_bind, pgdirWalk_found h ht, loadWord, EStateM.run_get,
    EStateM.run_pure, hn, ne_eq, not_true, if_false, hu]

theorem pageInsert_present {q : Nat} (h : framed (s.mem pgdir (pdx va)) = some t)
    (ht : t < s.npages) (hn : framed (s.mem t (ptx va)) = some q) (hq : q < s.npages) :
    (pageInsert pgdir pp va perm).run s =
      .ok 0#32 (((s.unmapAt pgdir q va ⟨t, ptx va⟩).unfree pp).mapAt pgdir pp va perm
        ⟨t, ptx va⟩) := by
  obtain ⟨hp, rfl⟩ := framed_eq_some.1 hn
  have hu := pageInsert_tail
    (s.unmapAt pgdir (pgnum (pteAddr (s.mem t (ptx va)))) va ⟨t, ptx va⟩) pgdir pp va perm
    ⟨t, ptx va⟩
  simp only [EStateM.run_bind, EStateM.run_get] at hu
  simp only [pageInsert, EStateM.run_bind, pgdirWalk_found h ht, loadWord, EStateM.run_get,
    EStateM.run_pure, if_pos hp, pageRemove_found h ht hq, hu]

/-! ## Where they return -/

/-- Where `pa2page` returns. -/
theorem pa2page_ok {s' : Kernel} {pa : Word} {q : Nat} (hr : (pa2page pa).run s = .ok q s') :
    q < s.npages ∧ s' = s := by
  by_cases hq : pgnum pa < s.npages
  · rw [pa2page_run hq] at hr
    cases hr
    exact ⟨hq, rfl⟩
  · simp only [pa2page, EStateM.run_bind, EStateM.run_get, if_pos (Nat.le_of_not_lt hq)] at hr
    cases hr

/-- Where `page_remove` returns. -/
theorem pageRemove_ok {s' : Kernel} (hr : (pageRemove pgdir va).run s = .ok () s') :
    (framed (s.mem pgdir (pdx va)) = none ∧ s' = s) ∨
      ∃ t q, framed (s.mem pgdir (pdx va)) = some t ∧ q < s.npages ∧
        s' = s.unmapAt pgdir q va ⟨t, ptx va⟩ := by
  cases hf : framed (s.mem pgdir (pdx va)) with
  | none =>
    rw [pageRemove_missing hf] at hr
    cases hr
    exact Or.inl ⟨rfl, rfl⟩
  | some t =>
    by_cases ht : t < s.npages
    · by_cases hq : pgnum (pteAddr (s.mem t (ptx va))) < s.npages
      · rw [pageRemove_found hf ht hq] at hr
        cases hr
        exact Or.inr ⟨t, _, rfl, hq, rfl⟩
      · rw [pageRemove_beyond hf ht hq] at hr
        cases hr
    · rw [pageRemove, Command.run_bind_error (pgdirWalk_beyond hf ht false)] at hr
      cases hr

section

variable (hlist : ∀ p, s.pageFreeList = some p → p < s.npages)
include hlist

/-- Where `page_alloc` returns: there is no page, or the first is taken and cleared. -/
theorem pageAlloc_ok {s' : Kernel} {r : Option Nat} (hr : (pageAlloc true).run s = .ok r s') :
    (r = none ∧ s' = s) ∨
      ∃ p, s.pageFreeList = some p ∧ r = some p ∧ s' = (s.pop p).fill p fun _ => 0#32 := by
  cases hf : s.pageFreeList with
  | none =>
    rw [pageAlloc_none hf] at hr
    cases hr
    exact Or.inl ⟨rfl, rfl⟩
  | some p =>
    rw [pageAlloc_zero hf (hlist p hf)] at hr
    cases hr
    exact Or.inr ⟨p, rfl, rfl, rfl⟩

/-- Where `pgdir_walk` returns, having been asked to create a page table. -/
theorem pgdirWalk_ok {s' : Kernel} {r : Option PtePtr}
    (hr : (pgdirWalk pgdir va true).run s = .ok r s') : s' = s ∨
      ∃ p, framed (s.mem pgdir (pdx va)) = none ∧ s.pageFreeList = some p ∧
        s' = s.newTable pgdir va p := by
  cases hf : framed (s.mem pgdir (pdx va)) with
  | some t =>
    by_cases ht : t < s.npages
    · rw [pgdirWalk_found hf ht] at hr
      cases hr
      exact Or.inl rfl
    · rw [pgdirWalk_beyond hf ht] at hr
      cases hr
  | none =>
    cases hp : s.pageFreeList with
    | none =>
      rw [pgdirWalk_full hf hp] at hr
      cases hr
      exact Or.inl rfl
    | some p =>
      rw [pgdirWalk_create hf hp (hlist p hp)] at hr
      cases hr
      exact Or.inr ⟨p, rfl, rfl, rfl⟩

/-- Where `page_insert` returns. -/
theorem pageInsert_ok {s' : Kernel} {r : Word}
    (hr : (pageInsert pgdir pp va perm).run s = .ok r s') :
    (framed (s.mem pgdir (pdx va)) = none ∧ (s' = s ∨ ∃ p, s.pageFreeList = some p ∧
      s' = (s.newTable pgdir va p).mapAt pgdir pp va perm ⟨p, ptx va⟩)) ∨
    ∃ t, framed (s.mem pgdir (pdx va)) = some t ∧
      (s' = (s.unfree pp).mapAt pgdir pp va perm ⟨t, ptx va⟩ ∨ ∃ q, q < s.npages ∧
        s' = ((s.unmapAt pgdir q va ⟨t, ptx va⟩).unfree pp).mapAt pgdir pp va perm
          ⟨t, ptx va⟩) := by
  cases hf : framed (s.mem pgdir (pdx va)) with
  | none =>
    refine Or.inl ⟨rfl, ?_⟩
    cases hp : s.pageFreeList with
    | none =>
      rw [pageInsert_full hf hp] at hr
      cases hr
      exact Or.inl rfl
    | some p =>
      rw [pageInsert_create hf hp (hlist p hp)] at hr
      cases hr
      exact Or.inr ⟨p, rfl, rfl⟩
  | some t =>
    refine Or.inr ⟨t, rfl, ?_⟩
    by_cases ht : t < s.npages
    · cases hq : framed (s.mem t (ptx va)) with
      | none =>
        rw [pageInsert_absent hf ht hq] at hr
        cases hr
        exact Or.inl rfl
      | some q =>
        by_cases hlt : q < s.npages
        · rw [pageInsert_present hf ht hq hlt] at hr
          cases hr
          exact Or.inr ⟨q, hlt, rfl⟩
        · obtain ⟨hpres, rfl⟩ := framed_eq_some.1 hq
          have hfail := pageRemove_beyond hf ht hlt
          simp only [pageInsert, EStateM.run_bind, pgdirWalk_found hf ht, loadWord, EStateM.run_get,
            EStateM.run_pure, if_pos hpres, hfail] at hr
          cases hr
    · rw [pageInsert, Command.run_bind_error (pgdirWalk_beyond hf ht false)] at hr
      cases hr

end

end

end Jos
