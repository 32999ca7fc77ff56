import Jos.Alloc.Insert
import Jos.Alloc.Syscall

/-!
# The memory system calls, exactly

What `sys_page_alloc`, `sys_page_map` and `sys_page_unmap` do when they are called with arguments
that pass the checks, down to the free list: a program that makes many calls in a row has to know
how many pages each of them takes.
-/

set_option autoImplicit false

namespace Jos

open Kernel Command

variable {res : Nat → Prop} {fl fl' rest : List Nat} {s s' : Kernel} {cur e src dst : EnvIndex}
variable {d d' p pp q : Nat} {va srcva dstva perm envid srcenvid dstenvid : Word} {i j : Index}

/-! ## What a call does to one address space -/

/-- The page tables of `e`, whose directory is in page `d`, have been linked in by `pgdir_walk`. -/
def Kernel.Linked (s : Kernel) (e : EnvIndex) (d : Nat) : Prop :=
  ∀ i t, s.table e i = some t → s.mem d i &&& (pteP ||| pteU ||| pteW) = pteP ||| pteU ||| pteW

/-- A page that is mapped is neither free nor a table. -/
theorem Inv.isData_leaf (h : Inv res fl s) (hp : s.leaf e i j = some p) : s.IsData fl p := by
  refine ⟨fun hm => h.ok.free_unref p hm (.page e i j) hp, fun k hk hkp => ?_⟩
  have heq : Slot.page e i j = k := h.ok.node_unique k p hk hkp (.page e i j) hp
  exact (heq ▸ hk : Slot.IsNode (.page e i j))

/-- Environment `x` has the address space that it had. -/
structure SameSpace (s s' : Kernel) (x : EnvIndex) : Prop where
  pde : ∀ d, s.dir x = some d → s'.mem d = s.mem d
  table : ∀ i, s'.table x i = s.table x i
  entry : ∀ i j, s'.entry x i j = s.entry x i j

namespace SameSpace

variable {x : EnvIndex}

theorem trans {s'' : Kernel} (henvs : s'.envs = s.envs) (h : SameSpace s s' x)
    (h' : SameSpace s' s'' x) : SameSpace s s'' x where
  pde d hd := (h'.pde d ((dir_of_envs henvs x).trans hd)).trans (h.pde d hd)
  table i := (h'.table i).trans (h.table i)
  entry i j := (h'.entry i j).trans (h.entry i j)

theorem linked (h : SameSpace s s' x) (hd : s.dir x = some d) (hl : s.Linked x d) :
    s'.Linked x d := by
  intro i t ht
  rw [h.pde d hd]
  exact hl i t ((h.table i).symm.trans ht)

/-- A change that concerns another environment. -/
theorem of_frame {E : EnvIndex → Prop} (hf : Frame res E s s') (hx : ¬ E x) : SameSpace s s' x where
  pde d hd := hf.mem d fun hpriv => hx (hpriv.2 (.dir x) hd)
  table i := hf.target (k := .table x i) hx
  entry i j := hf.entry hx i j

end SameSpace

/-- An address space depends on the directory and on memory only. -/
theorem target_of_dir (hmem : s'.mem = s.mem) (hdir : ∀ x, s'.dir x = s.dir x) :
    s'.target = s.target :=
  target_congr hdir (fun _ _ _ _ _ => by rw [hmem]) fun _ _ _ _ => by rw [hmem]

theorem SameSpace.of_dir (hmem : s'.mem = s.mem) (hdir : ∀ x, s'.dir x = s.dir x) (x : EnvIndex) :
    SameSpace s s' x where
  pde d _ := by rw [hmem]
  table i := congrFun (target_of_dir hmem hdir) (.table x i)
  entry i j := by
    rw [Kernel.entry, Kernel.entry, show s'.table x i = s.table x i from
      congrFun (target_of_dir hmem hdir) (.table x i), hmem]

theorem SameSpace.leaf {x : EnvIndex} (h : SameSpace s s' x) (i j : Index) :
    s'.leaf x i j = s.leaf x i j := by
  rw [leaf_eq_framed, h.entry, leaf_eq_framed]

namespace PagePut

variable (hput : PagePut res fl s e d va perm pp fl' s')
include hput

theorem entry_self : s'.entry e (pdx va) (ptx va) = page2pa pp ||| pteP ||| perm := by
  rw [hput.inserted.edited.entry, setEntry_self]

theorem entry_other {x : EnvIndex} (hne : ¬ (x = e ∧ i = pdx va ∧ j = ptx va)) :
    s'.entry x i j = s.entry x i j := by
  rw [hput.inserted.edited.entry, setEntry, if_neg hne]

variable (hd : s.dir e = some d)
include hd

/-- The page tables there were stay where they are. -/
theorem table_kept {t : Nat} (ht : s.table e i = some t) :
    s'.table e i = some t ∧ s'.mem d i = s.mem d i := by
  have hi : i = pdx va → s.table e (pdx va) ≠ none := by
    rintro rfl
    simp [ht]
  exact ⟨(hput.table hd hi).trans ht, hput.pde i hi⟩

theorem linked (hl : s.Linked e d) : s'.Linked e d := by
  intro i t ht
  by_cases hi : i = pdx va → s.table e (pdx va) ≠ none
  · rw [hput.pde i hi]
    exact hl i t ((hput.table hd hi).symm.trans ht)
  · simp only [Classical.not_imp, not_not] at hi
    obtain ⟨rfl, hmiss⟩ := hi
    obtain ⟨t', -, hpde, -⟩ := hput.missing hmiss
    rw [hpde, BitVec.or_assoc, BitVec.or_assoc]
    exact or_and_of_and _ (by decide)

variable (h : Inv res fl s) (hva : va < utop)
include h hva

/-- Where nothing was mapped, the free list loses no more than a page for a page table. -/
theorem free_absent (hnone : s.leaf e (pdx va) (ptx va) = none) :
    ∃ ts, fl = ts ++ fl' ∧ ts.length = s.tablesFor e va ∧
      ∀ t, s'.table e (pdx va) = some t → s.table e (pdx va) = some t ∨ t ∈ ts := by
  rw [Kernel.tablesFor]
  cases ht : s.table e (pdx va) with
  | none =>
    obtain ⟨t, hfl, hnew⟩ := hput.table_new hd h hva ht
    refine ⟨[t], hfl, rfl, fun t' ht' => Or.inr ?_⟩
    rw [Option.some_inj.1 (ht'.symm.trans hnew)]
    exact List.mem_singleton_self t
  | some t =>
    have hsome : s.table e (pdx va) ≠ none := by simp [ht]
    refine ⟨[], ?_, rfl, fun t' ht' => Or.inl ?_⟩
    · rw [(hput.present hsome).2, hnone]
      rfl
    · rw [← ht, ← ht', hput.table hd fun _ => hsome]

omit hd h hva in
/-- The page gains a reference. -/
theorem count_absent (hfree : pp ∉ fl) (hnone : s.leaf e (pdx va) (ptx va) = none) :
    s'.counts pp = s.counts pp + 1 := by
  cases ht : s.table e (pdx va) with
  | none =>
    obtain ⟨t, rfl, -, -, hc⟩ := hput.missing ht
    have hne : pp ≠ t := fun hpt => hfree (hpt ▸ List.mem_cons_self)
    rw [hc, Function.update_of_ne hne, recount, if_pos rfl, if_neg (by simp)]
    rfl
  | some t =>
    rw [(hput.present (by simp [ht])).1, hnone, recount, if_pos rfl, if_neg (by simp)]
    rfl

/-- A page table comes from the free list. -/
theorem table_origin {t : Nat} (ht : s'.table e (pdx va) = some t) :
    s.table e (pdx va) = some t ∨ t ∈ fl := by
  by_cases hmiss : s.table e (pdx va) = none
  · obtain ⟨t', hfl, hnew⟩ := hput.table_new hd h hva hmiss
    rw [Option.some_inj.1 (ht.symm.trans hnew), hfl]
    exact Or.inr List.mem_cons_self
  · exact Or.inl ((hput.table hd fun _ => hmiss).symm.trans ht)

/-- What was neither free nor a table is still neither. -/
theorem isData (hnone : s.leaf e (pdx va) (ptx va) = none) (hp : s.IsData fl p) :
    s'.IsData fl' p := by
  obtain ⟨ts, rfl, -, hts⟩ := hput.free_absent hd h hva hnone
  have hedit := hput.inserted.edited
  refine ⟨fun hm => hp.1 (List.mem_append_right ts hm), fun k hk hkp => ?_⟩
  cases k with
  | dir x => exact hp.2 (.dir x) trivial ((dir_of_envs hedit.memOnly.envs x).symm.trans hkp)
  | page x i j => exact hk
  | table x i =>
    by_cases hx : x = e
    · subst hx
      by_cases hi : i = pdx va → s.table x (pdx va) ≠ none
      · exact hp.2 (.table x i) trivial ((hput.table hd hi).symm.trans hkp)
      · simp only [Classical.not_imp, not_not] at hi
        obtain ⟨rfl, hmiss⟩ := hi
        rcases hts p hkp with hold | hnew
        · exact hp.2 (.table x (pdx va)) trivial hold
        · exact hp.1 (List.mem_append_left fl' hnew)
    · exact hp.2 (.table x i) trivial ((hedit.frame.target (k := .table x i) hx).symm.trans hkp)

end PagePut

/-! ## `sys_page_alloc` -/

/-- The state in which `sys_page_alloc` inserts page `pp`. -/
def Kernel.cleared (s : Kernel) (pp : Nat) : Kernel := (s.pop pp).fill pp fun _ => 0#32

theorem Inv.cleared (h : Inv res (pp :: rest) s) : Inv res rest (s.cleared pp) ∧
    Inv.Fresh res rest (s.cleared pp) pp ∧ (s.cleared pp).target = s.target ∧
    (s.cleared pp).entry = s.entry := by
  have hfr := Inv.fresh_pop h
  refine ⟨h.pop.fill hfr.not_res (fun k _ => hfr.unref k) _, hfr.fill h.pop _, ?_, ?_⟩
  · exact h.pop.target_fill (fun k _ => hfr.unref k) _
  · exact (entry_fill (fun k => hfr.unref k) _).trans (entry_of_mem rfl rfl)

theorem SameSpace.cleared (h : Inv res (pp :: rest) s) (x : EnvIndex) :
    SameSpace s (s.cleared pp) x where
  pde _ hd := fill_mem_ne _ _ _ (h.free_ne (k := .dir x) List.mem_cons_self hd)
  table i := congrFun h.cleared.2.2.1 (.table x i)
  entry i j := congrFun (congrFun (congrFun h.cleared.2.2.2 x) i) j

/-! ## The calls -/

section

variable (h : Inv res fl s) (hc : s.curenv = some cur)
include h hc

/-- **`sys_page_alloc`** takes the first free page, and another one for a page table. -/
theorem Inv.sysPageAlloc_put (hr : s.resolve cur envid = some e) (hd : s.dir e = some d)
    (huser : UserPage va) (hperm : PermOk perm) :
    (∃ s', (sysPageAlloc envid va perm).run s = .ok (-eNoMem) s' ∧
      (s' = s ∨ ∃ pp ∈ fl, s' = s.fill pp fun _ => 0#32) ∧ fl.length < 1 + s.tablesFor e va) ∨
    ∃ pp rest fl' s', fl = pp :: rest ∧ (sysPageAlloc envid va perm).run s = .ok 0#32 s' ∧
      PagePut res rest (s.cleared pp) e d va perm pp fl' s' := by
  have hrun := sysPageAlloc_checked hc hr huser ⟨hperm.1, hperm.2.1⟩
  rw [if_neg (not_not.2 hperm.2.2)] at hrun
  cases fl with
  | nil =>
    refine Or.inl ⟨s, ?_, Or.inl rfl, by rw [List.length_nil]; omega⟩
    rw [hrun, run_bind_ok (pageAlloc_none h.chain true)]
    rfl
  | cons pp rest =>
    have hlt := h.free_lt List.mem_cons_self
    obtain ⟨hinv, hfr, htgt, -⟩ := h.cleared
    have hd' : (s.cleared pp).dir e = some d := hd
    have hpg : ((s.cleared pp).envs e).envPgdir = some d := envPgdir_of_dir hd
    have halloc : (pageAlloc true).run s = .ok (some pp) (s.cleared pp) :=
      pageAlloc_zero h.chain.1 hlt
    rw [run_bind_ok halloc] at hrun
    simp only [run_bind_ok (EStateM.run_get _), hpg, derefPgdir, pure_bind] at hrun
    rcases hinv.pageInsert_put hd' huser.1 hperm.isPerm (hfr.mappable e _ _) with
      ⟨hins, rfl, ht⟩ | ⟨s', fl', hins, hput⟩
    · have hneg : (-eNoMem).toInt < 0 := by decide
      rw [run_bind_ok hins, if_pos hneg, run_bind_ok (pageFree_run (Or.inl hfr.count)),
        Kernel.cleared, push_fill_pop h.chain.1] at hrun
      refine Or.inl ⟨_, hrun, Or.inr ⟨pp, List.mem_cons_self, rfl⟩, ?_⟩
      have ht' : s.table e (pdx va) = none := (congrFun htgt (.table e (pdx va))).symm.trans ht
      rw [Kernel.tablesFor, if_pos ht']
      exact Nat.lt_succ_self 1
    · rw [run_bind_ok hins, if_neg zero_not_neg] at hrun
      exact Or.inr ⟨pp, rest, fl', s', rfl, hrun, hput⟩

/-- **`sys_page_map`** takes a free page for a page table. -/
theorem Inv.sysPageMap_put (hr : s.resolve cur srcenvid = some src)
    (hr' : s.resolve cur dstenvid = some dst) (hd : s.dir src = some d)
    (hd' : s.dir dst = some d') (hsva : UserPage srcva) (hdva : UserPage dstva)
    (hperm : PermOk perm) (hp : s.leaf src (pdx srcva) (ptx srcva) = some p)
    (hw : perm &&& pteW ≠ 0#32 → s.entry src (pdx srcva) (ptx srcva) &&& pteW ≠ 0#32)
    (hm : Mappable res fl s dst (pdx dstva) (ptx dstva) p) :
    ((sysPageMap srcenvid srcva dstenvid dstva perm).run s = .ok (-eNoMem) s ∧ fl = [] ∧
      s.table dst (pdx dstva) = none) ∨
    ∃ s' fl', (sysPageMap srcenvid srcva dstenvid dstva perm).run s = .ok 0#32 s' ∧
      PagePut res fl s dst d' dstva perm p fl' s' := by
  obtain ⟨t, ht, hpte⟩ := leaf_eq_some.1 hp
  have hentry := entry_of_table ht (ptx srcva)
  have hpp := (framed_eq_some.1 hpte).2
  have hlookup := pageLookup_found ((table_of_dir hd ((lt_utop_iff srcva).1 hsva.1)).symm.trans ht)
    (h.target_lt (k := .table src (pdx srcva)) ht) (h.entry_lt ht (ptx srcva))
  rw [hpp] at hlookup
  have hno : ¬ (perm &&& pteW ≠ 0#32 ∧ s.mem t (ptx srcva) &&& pteW = 0#32) := fun hh =>
    hw hh.1 (hentry ▸ hh.2)
  have hrun := sysPageMap_eq hc hr hr' hsva hdva hperm (envPgdir_of_dir hd) (envPgdir_of_dir hd')
    hlookup hno
  rcases h.pageInsert_put hd' hdva.1 hperm.isPerm hm with ⟨hins, hfl, ht'⟩ | ⟨s', fl', hins, hput⟩
  · have hne : (-eNoMem) ≠ 0#32 := by decide
    rw [run_bind_ok hins, if_pos hne] at hrun
    exact Or.inl ⟨hrun, hfl, ht'⟩
  · rw [run_bind_ok hins, if_neg (not_not_intro rfl)] at hrun
    exact Or.inr ⟨s', fl', hrun, hput⟩

/-- What `sys_page_unmap` does to memory and to the free list: page `q` was mapped. -/
structure PageDropped (res : Nat → Prop) (fl : List Nat) (s : Kernel) (e : EnvIndex) (d : Nat)
    (va : Word) (q : Nat) (s' : Kernel) : Prop where
  inv : Inv res (if s.counts q = 1 then q :: fl else fl) s'
  edited : Edited res fl s e (pdx va) (ptx va) 0#32 s'
  pde : s'.mem d = s.mem d
  table : ∀ e' i, s'.table e' i = s.table e' i
  mem : ∀ p, s.table e (pdx va) ≠ some p → s'.mem p = s.mem p

/-- **`sys_page_unmap`.** -/
theorem Inv.sysPageUnmap_dropped (hlive : (s.envs cur).envStatus ≠ .free)
    (hr : s.resolve cur envid = some e) (hd : s.dir e = some d) (huser : UserPage va)
    (hq : s.leaf e (pdx va) (ptx va) = some q) :
    ∃ s', (sysPageUnmap envid va).run s = .ok 0#32 s' ∧ PageDropped res fl s e d va q s' := by
  obtain ⟨t, ht, hpte⟩ := leaf_eq_some.1 hq
  have hentry := entry_of_table ht (ptx va)
  have hqq := (framed_eq_some.1 hpte).2
  obtain ⟨r, s', hrun, ⟨-, -, hbad⟩ | ⟨rfl, e', d₁, hr', -, hd₁, hno | ⟨t', ht', rfl⟩⟩⟩ :=
    h.sysPageUnmap_spec hc hlive envid va
  · rcases hbad with hbad | hbad
    · exact absurd (hbad.symm.trans hr) (by simp)
    · exact absurd huser hbad
  · obtain rfl : e' = e := Option.some_inj.1 (hr'.symm.trans hr)
    exact absurd (hno.1.symm.trans ht) (by simp)
  · obtain rfl : e' = e := Option.some_inj.1 (hr'.symm.trans hr)
    obtain rfl : t = t' := Option.some_inj.1 (ht.symm.trans ht')
    obtain rfl : d = d₁ := Option.some_inj.1 (hd.symm.trans hd₁)
    rw [hentry, hqq] at hrun
    refine ⟨_, hrun, h.unmapAt ht hq d va, h.unmapAt_edited ht d q va (ptx va), ?_, ?_, ?_⟩
    · have hne : d ≠ t := h.node_ne (k := .table e' (pdx va)) (l := .dir e') trivial ht hd (by simp)
      rw [unmapAt_mem, store_mem_ne _ _ _ _ hne]
    · intro e₂ i
      exact (congrFun (h.unmapAt_target ht d q va (ptx va)) (.table e₂ i)).trans
        (Function.update_of_ne (by simp) _ _)
    · intro p hp
      have hpt : p ≠ t := by
        rintro rfl
        exact hp ht
      rw [unmapAt_mem, store_mem_ne _ _ _ _ hpt]

end

end Jos
