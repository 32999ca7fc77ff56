import Jos.Alloc.Free
import Jos.Alloc.Insert
import Jos.Syscall.Effect

/-!
# What the memory system calls do

One specification for each of `sys_page_alloc`, `sys_page_map`, `sys_page_unmap` and `sys_exofork`,
in a state that satisfies the allocator invariant: the call returns, and either it fails without
touching anything that matters, or it succeeds and this is what it did.  Every later argument about
these calls starts from here.
-/

set_option autoImplicit false

namespace Jos

open Kernel Command

variable {res : Nat → Prop} {fl : List Nat} {s s' : Kernel} {cur e : EnvIndex}

/-! ## Whom an environment id means -/

namespace Kernel

/-- The environment that `envid2env` finds for `cur`: itself or a child, and a live one. -/
def resolve (s : Kernel) (cur : EnvIndex) (envid : Word) : Option EnvIndex :=
  if envid = 0#32 then some cur
  else
    let e := envx envid
    if (s.envs e).envStatus = .free ∨ (s.envs e).envId ≠ envid then none
    else if e ≠ cur ∧ (s.envs e).envParentId ≠ (s.envs cur).envId then none
    else some e

/-- What `envid2env` returns. -/
def resolved : Option EnvIndex → Word × Option EnvIndex
  | some e => (0#32, some e)
  | none => (-eBadEnv, none)

end Kernel

/-- An error is negative, -/
theorem eBadEnv_neg : (-eBadEnv).toInt < 0 := by decide

/-- and success is not. -/
theorem zero_not_neg : ¬ (0#32).toInt < 0 := by decide

theorem envid2env_run (hc : s.curenv = some cur) (envid : Word) :
    (envid2env envid true).run s = .ok (resolved (s.resolve cur envid)) s := by
  rw [Kernel.resolve]
  by_cases h0 : envid = 0#32
  · simp only [envid2env, EStateM.run_bind, EStateM.run_get, if_pos h0, EStateM.run_pure, hc,
      resolved]
  by_cases h1 : (s.envs (envx envid)).envStatus = .free ∨ (s.envs (envx envid)).envId ≠ envid
  · simp only [envid2env, EStateM.run_bind, EStateM.run_get, if_neg h0, if_pos h1,
      EStateM.run_pure, resolved]
  simp only [not_or, not_not] at h1
  obtain ⟨hst, hid⟩ := h1
  by_cases h2 : envx envid = cur
  · subst h2
    simp [envid2env, h0, hst, hid, hc, resolved]
  · by_cases h3 : (s.envs (envx envid)).envParentId = (s.envs cur).envId
    · simp [envid2env, h0, hst, hid, hc, h2, h3, derefEnv, resolved]
    · simp [envid2env, h0, hst, hid, hc, h2, h3, derefEnv, resolved]

/-- The environment found is the caller or a live child of the caller. -/
theorem resolve_eq_some {envid : Word} (h : s.resolve cur envid = some e) :
    e = cur ∨ ((s.envs e).envStatus ≠ .free ∧ (s.envs e).envParentId = (s.envs cur).envId) := by
  rw [Kernel.resolve] at h
  split at h
  · exact Or.inl (Option.some_inj.1 h).symm
  · dsimp only at h
    split at h
    · exact absurd h (by simp)
    · rename_i h1
      split at h
      · exact absurd h (by simp)
      · rename_i h2
        obtain rfl := Option.some_inj.1 h
        by_cases hcur : envx envid = cur
        · exact Or.inl hcur
        · refine Or.inr ⟨fun hf => h1 (Or.inl hf), ?_⟩
          by_contra hp
          exact h2 ⟨hcur, hp⟩

theorem resolve_live {envid : Word} (hlive : (s.envs cur).envStatus ≠ .free)
    (h : s.resolve cur envid = some e) : (s.envs e).envStatus ≠ .free := by
  rcases resolve_eq_some h with rfl | ⟨hl, -⟩
  · exact hlive
  · exact hl

/-! ## `sys_page_alloc` -/

/-- A page that was taken off the free list, cleared and given back. -/
theorem push_fill_pop {pp : Nat} (h : s.pageFreeList = some pp) (pg : Page) :
    ((s.pop pp).fill pp pg).push pp = s.fill pp pg := by
  have hp : Function.update s.pages pp { s.pages pp with ppLink := (s.pages pp).ppLink } =
      s.pages := Function.update_eq_self _ _
  have hpush : ((s.pop pp).fill pp pg).push pp =
      { s.fill pp pg with
        pages := Function.update s.pages pp { s.pages pp with ppLink := (s.pages pp).ppLink }
        pageFreeList := some pp } := rfl
  rw [hpush, hp, ← h]
  rfl

/-- The permissions a system call accepts. -/
def PermOk (perm : Word) : Prop :=
  perm &&& pteU ≠ 0#32 ∧ perm &&& pteP ≠ 0#32 ∧ perm &&& ~~~pteSyscall = 0#32

instance (perm : Word) : Decidable (PermOk perm) := by unfold PermOk; infer_instance

theorem PermOk.isPerm {perm : Word} (h : PermOk perm) : IsPerm perm :=
  isPerm_of_and (by decide) h.2.2

/-- A page-aligned address in user memory. -/
def UserPage (va : Word) : Prop := va < utop ∧ va % pgsize = 0#32

instance (va : Word) : Decidable (UserPage va) := by unfold UserPage; infer_instance

/-- What `sys_page_alloc` does when it succeeds: the free page `pp`, cleared, is mapped. -/
structure PageAllocated (res : Nat → Prop) (fl : List Nat) (s : Kernel) (e : EnvIndex)
    (va perm : Word) (pp : Nat) (s' : Kernel) : Prop where
  free : pp ∈ fl
  edited : Edited res fl s e (pdx va) (ptx va) (page2pa pp ||| pteP ||| perm) s'
  zero : s'.mem pp = fun _ => 0#32
  count : s'.counts pp = 1
  inv : ∃ fl', Inv res fl' s' ∧ fl.length ≤ fl'.length + 2

theorem Inv.pageAllocated {fl' : List Nat} {pp d : Nat} {va perm : Word}
    (h : Inv res (pp :: fl') s) (hd : s.dir e = some d) (hva : va < utop) (hperm : IsPerm perm) :
    ((pageInsert d pp va perm).run ((s.pop pp).fill pp fun _ => 0#32) =
        .ok (-eNoMem) ((s.pop pp).fill pp fun _ => 0#32) ∧ fl' = [] ∧ s.table e (pdx va) = none) ∨
      ∃ s', (pageInsert d pp va perm).run ((s.pop pp).fill pp fun _ => 0#32) = .ok 0#32 s' ∧
        PageAllocated res (pp :: fl') s e va perm pp s' := by
  have hfr := fresh_pop h
  have hfr' := Fresh.fill h.pop hfr fun _ => 0#32
  have hfill := h.pop.fill hfr.not_res (fun k _ => hfr.unref k) fun _ => 0#32
  have htgt : ((s.pop pp).fill pp fun _ => 0#32).target = s.target :=
    (h.pop.target_fill (fun k _ => hfr.unref k) _).trans (target_of_mem rfl rfl)
  have hframe : Frame res (· = e) s ((s.pop pp).fill pp fun _ => 0#32) :=
    Frame.of_page (f := pp) (h.private_free List.mem_cons_self)
      (fun p hp => by rw [fill_mem_ne _ _ _ hp, pop_mem]) rfl rfl rfl
  have hentry : ((s.pop pp).fill pp fun _ => 0#32).entry = s.entry :=
    entry_fill (s := s.pop pp) (fun k => hfr.unref k) _
  have hdata : ∀ p, s.IsData (pp :: fl') p → ((s.pop pp).fill pp fun _ => 0#32).IsData fl' p :=
    fun p hp => ⟨fun hm => hp.1 (List.mem_cons_of_mem _ hm), fun k hk => by
      rw [htgt]; exact hp.2 k hk⟩
  have hcount : ((s.pop pp).fill pp fun _ => 0#32).counts pp = 0 := by
    rw [counts, hfr'.count]
    rfl
  rcases hfill.pageInsert_spec (d := d) (e := e) hd hva pp perm with hfail | ⟨s', hrun, hins⟩
  · refine Or.inl ⟨hfail.1, hfail.2.1, ?_⟩
    rw [← show ((s.pop pp).fill pp fun _ => 0#32).table e (pdx va) = s.table e (pdx va) from
      congrFun htgt (.table e (pdx va))]
    exact hfail.2.2
  · refine Or.inr ⟨s', hrun, List.mem_cons_self, ?_, ?_, ?_, ?_⟩
    · refine ⟨hframe.trans hins.edited.frame, ?_, fun p hp => ?_, ?_⟩
      · rw [hins.edited.entry, hentry]
      · have hne : p ≠ pp := fun hpp => hp.1 (hpp ▸ List.mem_cons_self)
        rw [hins.edited.data p (hdata p hp), fill_mem_ne _ _ _ hne, pop_mem]
      · exact MemOnly.trans _ ((s.pop pp).fill pp fun _ => 0#32) _ rfl hins.edited.memOnly
    · rw [hins.edited.data pp ⟨hfr'.not_free, fun k _ => hfr'.unref k⟩, fill_mem_self]
    · rcases hfill.pageInsert_exact (d := d) (e := e) hd hva hperm hfr'.not_free hfr'.not_res
        (fun k hk => absurd hk (hfr'.unref k)) (by omega) with hfail | ⟨s'', fl'', hrun', hex⟩
      · rw [hrun] at hfail
        cases hfail
      · obtain rfl : s' = s'' := by
          rw [hrun] at hrun'
          cases hrun'
          rfl
        have hunref : ((s.pop pp).fill pp fun _ => 0#32).leaf e (pdx va) (ptx va) ≠ some pp :=
          hfr'.unref (.page e (pdx va) (ptx va))
        have hnew := hex.count hfr'.not_free
        rw [if_neg hunref, hcount] at hnew
        exact hnew
    · have hmap : Mappable res fl' ((s.pop pp).fill pp fun _ => 0#32) e (pdx va) (ptx va) pp :=
        ⟨hfr'.not_free, hfr'.not_res, fun k hk => absurd hk (hfr'.unref k), Or.inl (by omega)⟩
      obtain ⟨fl₂, hinv, hlen⟩ := hins.inv hmap hperm
      exact ⟨fl₂, hinv, by rw [List.length_cons]; omega⟩

section

variable {envid va perm : Word} (hc : s.curenv = some cur)
include hc

theorem sysPageAlloc_badEnv (hr : s.resolve cur envid = none) :
    (sysPageAlloc envid va perm).run s = .ok (-eBadEnv) s := by
  have henv := envid2env_run hc envid
  rw [hr] at henv
  simp only [sysPageAlloc, EStateM.run_bind, henv, resolved, if_pos eBadEnv_neg, EStateM.run_pure]

variable (hr : s.resolve cur envid = some e)
include hr

theorem sysPageAlloc_inval (h : ¬ UserPage va ∨ perm &&& pteU = 0#32 ∨ perm &&& pteP = 0#32) :
    (sysPageAlloc envid va perm).run s = .ok (-eInval) s := by
  have henv := envid2env_run hc envid
  rw [hr] at henv
  by_cases hva : utop ≤ va ∨ va % pgsize ≠ 0#32
  · simp only [sysPageAlloc, EStateM.run_bind, henv, resolved, if_neg zero_not_neg, if_pos hva,
      EStateM.run_pure]
  · have huser : UserPage va := by
      simp only [not_or, not_not, BitVec.not_le] at hva
      exact hva
    have hp := h.resolve_left (not_not_intro huser)
    simp only [sysPageAlloc, EStateM.run_bind, henv, resolved, if_neg zero_not_neg, if_neg hva,
      if_pos hp, EStateM.run_pure]

variable (huser : UserPage va) (hup : perm &&& pteU ≠ 0#32 ∧ perm &&& pteP ≠ 0#32)
include huser hup

/-- The checks of `sys_page_alloc`, but for the last one. -/
theorem sysPageAlloc_checked : (sysPageAlloc envid va perm).run s = EStateM.run (do
    if perm &&& ~~~pteSyscall ≠ 0#32 then
      return -eNoMem
    match ← pageAlloc true with
    | none => return -eNoMem
    | some pp =>
      let pgdir ← derefPgdir ((← get).envs e).envPgdir
      if (← pageInsert pgdir pp va perm).toInt < 0 then
        pageFree pp
        return -eNoMem
      return 0#32) s := by
  have henv := envid2env_run hc envid
  rw [hr] at henv
  have hva : ¬ (utop ≤ va ∨ va % pgsize ≠ 0#32) := by
    simp only [not_or, not_not, BitVec.not_le]
    exact huser
  have hp : ¬ (perm &&& pteU = 0#32 ∨ perm &&& pteP = 0#32) := by
    simp only [not_or]
    exact hup
  have hmask : pteU ||| pteP ||| pteW ||| pteAvail = pteSyscall := by decide
  have hrun : (sysPageAlloc envid va perm).run s = (sysPageAlloc envid va perm).run s := rfl
  conv_rhs at hrun =>
    rw [sysPageAlloc, run_bind_ok henv, hmask]
    simp only [resolved, if_neg zero_not_neg, if_neg hva, if_neg hp, derefEnv, pure_bind]
  exact hrun

/-- A bit that no system call may set is reported as lack of memory. -/
theorem sysPageAlloc_extra (hx : perm &&& ~~~pteSyscall ≠ 0#32) :
    (sysPageAlloc envid va perm).run s = .ok (-eNoMem) s := by
  rw [sysPageAlloc_checked hc hr huser hup, if_pos hx]
  rfl

end

/-- **`sys_page_alloc`** returns; it fails, having cleared at most a free page, or it maps a cleared
page at the address it was given. -/
theorem Inv.sysPageAlloc_spec (h : Inv res fl s) (hc : s.curenv = some cur)
    (hlive : (s.envs cur).envStatus ≠ .free) (envid va perm : Word) :
    ∃ r s', (sysPageAlloc envid va perm).run s = .ok r s' ∧
      ((r.toInt < 0 ∧ (s' = s ∨ ∃ pp ∈ fl, s' = s.fill pp fun _ => 0#32) ∧
          (s.resolve cur envid = none ∨ ¬ UserPage va ∨ ¬ PermOk perm ∨
            ∃ e, s.resolve cur envid = some e ∧ fl.length < 1 + s.tablesFor e va)) ∨
        (r = 0#32 ∧ ∃ e pp, s.resolve cur envid = some e ∧ UserPage va ∧ PermOk perm ∧
          PageAllocated res fl s e va perm pp s')) := by
  cases hr : s.resolve cur envid with
  | none =>
    exact ⟨-eBadEnv, s, sysPageAlloc_badEnv hc hr, Or.inl ⟨by decide, Or.inl rfl, Or.inl rfl⟩⟩
  | some e =>
    by_cases hinv : ¬ UserPage va ∨ perm &&& pteU = 0#32 ∨ perm &&& pteP = 0#32
    · refine ⟨-eInval, s, sysPageAlloc_inval hc hr hinv,
        Or.inl ⟨by decide, Or.inl rfl, Or.inr ?_⟩⟩
      rcases hinv with hva | hp | hp
      · exact Or.inl hva
      · exact Or.inr (Or.inl fun hok => hok.1 hp)
      · exact Or.inr (Or.inl fun hok => hok.2.1 hp)
    simp only [not_or, not_not] at hinv
    obtain ⟨huser, hup⟩ := hinv
    by_cases hx : perm &&& ~~~pteSyscall ≠ 0#32
    · exact ⟨-eNoMem, s, sysPageAlloc_extra hc hr huser hup hx,
        Or.inl ⟨by decide, Or.inl rfl, Or.inr (Or.inr (Or.inl fun hok => hx hok.2.2))⟩⟩
    have hok : PermOk perm := ⟨hup.1, hup.2, not_not.1 hx⟩
    have hrun := sysPageAlloc_checked hc hr huser hup
    rw [if_neg hx] at hrun
    obtain ⟨d, hd, hpg⟩ := h.dir_isSome (resolve_live hlive hr)
    cases fl with
    | nil =>
      refine ⟨-eNoMem, s, ?_, Or.inl ⟨by decide, Or.inl rfl, Or.inr (Or.inr (Or.inr ⟨e, rfl, ?_⟩))⟩⟩
      · rw [hrun, run_bind_ok (pageAlloc_none h.chain true)]
        rfl
      · rw [List.length_nil]
        omega
    | cons pp fl' =>
      have halloc := pageAlloc_zero h.chain.1 (h.free_lt List.mem_cons_self)
      have hpg' : (((s.pop pp).fill pp fun _ => 0#32).envs e).envPgdir = some d := hpg
      rw [run_bind_ok halloc] at hrun
      simp only [run_bind_ok (EStateM.run_get _), hpg', derefPgdir, pure_bind] at hrun
      rcases h.pageAllocated hd huser.1 hok.isPerm with ⟨hins, rfl, ht⟩ | ⟨s', hins, hpa⟩
      · have hcount : (((s.pop pp).fill pp fun _ => 0#32).pages pp).ppRef = 0#16 :=
          (fresh_pop h).count
        have hneg : (-eNoMem).toInt < 0 := by decide
        rw [run_bind_ok hins, if_pos hneg, run_bind_ok (pageFree_run (Or.inl hcount)),
          push_fill_pop h.chain.1] at hrun
        refine ⟨-eNoMem, s.fill pp fun _ => 0#32, hrun, Or.inl ⟨by decide,
          Or.inr ⟨pp, List.mem_cons_self, rfl⟩, Or.inr (Or.inr (Or.inr ⟨e, rfl, ?_⟩))⟩⟩
        rw [Kernel.tablesFor, if_pos ht]
        exact Nat.lt_succ_self 1
      · rw [run_bind_ok hins, if_neg zero_not_neg] at hrun
        exact ⟨0#32, s', hrun, Or.inr ⟨rfl, e, pp, rfl, huser, hok, hpa⟩⟩

/-! ## `sys_page_map` -/

/-- What `sys_page_map` does when it succeeds: the page named by the source entry, present or not,
is mapped at the destination. -/
structure PageMapped (res : Nat → Prop) (fl : List Nat) (s : Kernel) (src dst : EnvIndex)
    (srcva dstva perm : Word) (s' : Kernel) : Prop where
  table : ∃ t, s.table src (pdx srcva) = some t
  write : perm &&& pteW ≠ 0#32 → s.entry src (pdx srcva) (ptx srcva) &&& pteW ≠ 0#32
  inserted : Inv.Inserted res fl s dst (pdx dstva) (ptx dstva)
    (pgnum (pteAddr (s.entry src (pdx srcva) (ptx srcva)))) perm s'

/-- An entry with `PTE_W` maps something: an absent entry is zero. -/
theorem Inv.leaf_of_write (h : Inv res fl s) {i j : Index} (hw : s.entry e i j &&& pteW ≠ 0#32) :
    ∃ p, s.leaf e i j = some p := by
  cases ht : s.table e i with
  | none =>
    rw [entry_of_none ht] at hw
    exact absurd rfl hw
  | some t =>
    cases hf : framed (s.mem t j) with
    | none =>
      rw [entry_of_table ht, h.zero_pte e i t ht j hf] at hw
      exact absurd rfl hw
    | some p => exact ⟨p, (leaf_of_table ht).trans hf⟩

section

variable {srcenvid srcva dstenvid dstva perm : Word} (hc : s.curenv = some cur)
include hc

theorem sysPageMap_badEnv (h : s.resolve cur srcenvid = none ∨ s.resolve cur dstenvid = none) :
    (sysPageMap srcenvid srcva dstenvid dstva perm).run s = .ok (-eBadEnv) s := by
  have hsrc := envid2env_run hc srcenvid
  have hdst := envid2env_run hc dstenvid
  cases hr : s.resolve cur srcenvid with
  | none =>
    rw [hr] at hsrc
    simp only [sysPageMap, EStateM.run_bind, hsrc, resolved, if_pos eBadEnv_neg, EStateM.run_pure]
  | some src =>
    rw [hr] at hsrc
    rw [h.resolve_left (by simp [hr])] at hdst
    simp only [sysPageMap, EStateM.run_bind, hsrc, hdst, resolved, if_neg zero_not_neg,
      if_pos eBadEnv_neg, EStateM.run_pure]

variable {src dst : EnvIndex} (hr : s.resolve cur srcenvid = some src)
  (hr' : s.resolve cur dstenvid = some dst)
include hr hr'

theorem sysPageMap_inval (h : ¬ UserPage srcva ∨ ¬ UserPage dstva ∨ ¬ PermOk perm) :
    (sysPageMap srcenvid srcva dstenvid dstva perm).run s = .ok (-eInval) s := by
  have hsrc := envid2env_run hc srcenvid
  have hdst := envid2env_run hc dstenvid
  rw [hr] at hsrc
  rw [hr'] at hdst
  by_cases hva : utop ≤ srcva ∨ srcva % pgsize ≠ 0#32 ∨ utop ≤ dstva ∨ dstva % pgsize ≠ 0#32
  · simp only [sysPageMap, EStateM.run_bind, hsrc, hdst, resolved, if_neg zero_not_neg, if_pos hva,
      EStateM.run_pure]
  · have hp : perm &&& pteU = 0#32 ∨ perm &&& pteP = 0#32 ∨ perm &&& ~~~pteSyscall ≠ 0#32 := by
      simp only [not_or, not_not, BitVec.not_le] at hva
      by_contra hno
      simp only [not_or, not_not] at hno
      rcases h with h | h | h
      · exact h ⟨hva.1, hva.2.1⟩
      · exact h hva.2.2
      · exact h hno
    simp only [sysPageMap, EStateM.run_bind, hsrc, hdst, resolved, if_neg zero_not_neg, if_neg hva,
      if_pos hp, EStateM.run_pure]

variable {d : Nat} (hsva : UserPage srcva) (hdva : UserPage dstva) (hperm : PermOk perm)
  (hd : (s.envs src).envPgdir = some d)
include hsva hdva hperm hd

/-- The checks of the arguments of `sys_page_map`. -/
theorem sysPageMap_checked : (sysPageMap srcenvid srcva dstenvid dstva perm).run s =
    EStateM.run (do
      match ← pageLookup d srcva with
      | none => return -eInval
      | some (pp, pte) =>
        if perm &&& pteW ≠ 0#32 ∧ (← loadWord pte.page pte.idx) &&& pteW = 0#32 then
          return -eInval
        let dstdir ← derefPgdir ((← get).envs dst).envPgdir
        if (← pageInsert dstdir pp dstva perm) ≠ 0#32 then
          return -eNoMem
        return 0#32) s := by
  have hsrcenv := envid2env_run hc srcenvid
  have hdstenv := envid2env_run hc dstenvid
  rw [hr] at hsrcenv
  rw [hr'] at hdstenv
  have hva : ¬ (utop ≤ srcva ∨ srcva % pgsize ≠ 0#32 ∨ utop ≤ dstva ∨ dstva % pgsize ≠ 0#32) := by
    simp only [not_or, not_not, BitVec.not_le]
    exact ⟨hsva.1, hsva.2, hdva⟩
  have hp : ¬ (perm &&& pteU = 0#32 ∨ perm &&& pteP = 0#32 ∨ perm &&& ~~~pteSyscall ≠ 0#32) := by
    simp only [not_or, not_not]
    exact hperm
  simp only [sysPageMap, EStateM.run_bind, hsrcenv, hdstenv, resolved, if_neg zero_not_neg,
    if_neg hva, if_neg hp, derefEnv, EStateM.run_pure, EStateM.run_get, hd, derefPgdir]
  rfl

end

/-- `sys_page_map`, up to `page_insert`. -/
theorem sysPageMap_eq (hc : s.curenv = some cur) {srcenvid srcva dstenvid dstva perm : Word}
    {src dst : EnvIndex} {d d' pp : Nat} {pte : PtePtr} (hsrc : s.resolve cur srcenvid = some src)
    (hdst : s.resolve cur dstenvid = some dst) (hsva : UserPage srcva) (hdva : UserPage dstva)
    (hperm : PermOk perm) (hd : (s.envs src).envPgdir = some d)
    (hd' : (s.envs dst).envPgdir = some d')
    (hlook : (pageLookup d srcva).run s = .ok (some (pp, pte)) s)
    (hw : ¬ (perm &&& pteW ≠ 0#32 ∧ s.mem pte.page pte.idx &&& pteW = 0#32)) :
    (sysPageMap srcenvid srcva dstenvid dstva perm).run s = EStateM.run (do
      if (← pageInsert d' pp dstva perm) ≠ 0#32 then
        return -eNoMem
      return 0#32) s := by
  rw [sysPageMap_checked hc hsrc hdst hsva hdva hperm hd, run_bind_ok hlook]
  simp only [run_bind_ok (show (loadWord pte.page pte.idx).run s = .ok _ s from rfl), if_neg hw,
    run_bind_ok (EStateM.run_get s), hd', derefPgdir, pure_bind]

/-- What `sys_page_map` asks for, and a page for a page table. -/
structure Kernel.CanMap (s : Kernel) (cur : EnvIndex) (srcenvid srcva dstenvid dstva perm : Word) :
    Prop where
  dst : s.resolve cur dstenvid ≠ none
  srcPage : UserPage srcva
  dstPage : UserPage dstva
  permOk : PermOk perm
  src : ∃ src t, s.resolve cur srcenvid = some src ∧ s.table src (pdx srcva) = some t ∧
    (perm &&& pteW ≠ 0#32 → s.mem t (ptx srcva) &&& pteW ≠ 0#32)
  free : s.pageFreeList ≠ none

/-- **`sys_page_map`** returns; it fails without a trace, or it maps the page. -/
theorem Inv.sysPageMap_spec (h : Inv res fl s) (hc : s.curenv = some cur)
    (hlive : (s.envs cur).envStatus ≠ .free) (srcenvid srcva dstenvid dstva perm : Word) :
    ∃ r s', (sysPageMap srcenvid srcva dstenvid dstva perm).run s = .ok r s' ∧
      ((r.toInt < 0 ∧ s' = s ∧ ¬ s.CanMap cur srcenvid srcva dstenvid dstva perm) ∨
        (r = 0#32 ∧ ∃ src dst, s.resolve cur srcenvid = some src ∧
          s.resolve cur dstenvid = some dst ∧ UserPage srcva ∧ UserPage dstva ∧ PermOk perm ∧
          PageMapped res fl s src dst srcva dstva perm s')) := by
  by_cases hbad : s.resolve cur srcenvid = none ∨ s.resolve cur dstenvid = none
  · refine ⟨-eBadEnv, s, sysPageMap_badEnv hc hbad, Or.inl ⟨by decide, rfl, fun hcan => ?_⟩⟩
    obtain ⟨src, t, hs, -⟩ := hcan.src
    rcases hbad with hbad | hbad
    · exact absurd (hbad.symm.trans hs) (by simp)
    · exact hcan.dst hbad
  simp only [not_or, Option.ne_none_iff_exists'] at hbad
  obtain ⟨⟨src, hr⟩, dst, hr'⟩ := hbad
  by_cases hinv : ¬ UserPage srcva ∨ ¬ UserPage dstva ∨ ¬ PermOk perm
  · refine ⟨-eInval, s, sysPageMap_inval hc hr hr' hinv, Or.inl ⟨by decide, rfl, fun hcan => ?_⟩⟩
    rcases hinv with hinv | hinv | hinv
    · exact hinv hcan.srcPage
    · exact hinv hcan.dstPage
    · exact hinv hcan.permOk
  simp only [not_or, not_not] at hinv
  obtain ⟨hsva, hdva, hok⟩ := hinv
  obtain ⟨d, hd, hpg⟩ := h.dir_isSome (resolve_live hlive hr)
  obtain ⟨d', hd', hpg'⟩ := h.dir_isSome (resolve_live hlive hr')
  have htab := table_of_dir hd ((lt_utop_iff srcva).1 hsva.1)
  have hrun := sysPageMap_checked hc hr hr' hsva hdva hok hpg
  cases ht : s.table src (pdx srcva) with
  | none =>
    rw [run_bind_ok (pageLookup_missing (htab.symm.trans ht))] at hrun
    refine ⟨-eInval, s, hrun, Or.inl ⟨by decide, rfl, fun hcan => ?_⟩⟩
    obtain ⟨src', t, hs, ht', -⟩ := hcan.src
    obtain rfl : src = src' := Option.some_inj.1 (hr.symm.trans hs)
    exact absurd (ht.symm.trans ht') (by simp)
  | some t =>
  have hentry := entry_of_table ht (ptx srcva)
  have hlookup := pageLookup_found (htab.symm.trans ht)
    (h.target_lt (k := .table src (pdx srcva)) ht) (h.entry_lt ht (ptx srcva))
  by_cases hw : perm &&& pteW ≠ 0#32 ∧ s.mem t (ptx srcva) &&& pteW = 0#32
  · rw [run_bind_ok hlookup] at hrun
    simp only [run_bind_ok (show (loadWord t (ptx srcva)).run s = .ok _ s from rfl), if_pos hw]
      at hrun
    refine ⟨-eInval, s, hrun, Or.inl ⟨by decide, rfl, fun hcan => ?_⟩⟩
    obtain ⟨src', t', hs, ht', hwr⟩ := hcan.src
    obtain rfl : src = src' := Option.some_inj.1 (hr.symm.trans hs)
    obtain rfl : t = t' := Option.some_inj.1 (ht.symm.trans ht')
    exact hwr hw.1 hw.2
  have hrun := sysPageMap_eq hc hr hr' hsva hdva hok hpg hpg' hlookup hw
  rcases h.pageInsert_spec hd' hdva.1 (pgnum (pteAddr (s.mem t (ptx srcva)))) perm with
    ⟨hins, hfull, -⟩ | ⟨s', hins, hinserted⟩
  · have hne : (-eNoMem) ≠ 0#32 := by decide
    rw [run_bind_ok hins, if_pos hne] at hrun
    exact ⟨-eNoMem, s, hrun, Or.inl ⟨by decide, rfl, fun hcan =>
      hcan.free (Chain.nil_iff.1 (hfull ▸ h.chain))⟩⟩
  · rw [run_bind_ok hins, if_neg (not_not_intro rfl)] at hrun
    refine ⟨0#32, s', hrun, Or.inr ⟨rfl, src, dst, hr, hr', hsva, hdva, hok, ⟨t, ht⟩, ?_, ?_⟩⟩
    · intro hpw h0
      rw [hentry] at h0
      exact hw ⟨hpw, h0⟩
    · rw [hentry]
      exact hinserted

/-! ## `sys_page_unmap` -/

/-- **`sys_page_unmap`** returns; it fails without a trace, or there was no page table and nothing
to do, or it drops the entry, and the page the entry names, present or not, loses a reference. -/
theorem Inv.sysPageUnmap_spec (h : Inv res fl s) (hc : s.curenv = some cur)
    (hlive : (s.envs cur).envStatus ≠ .free) (envid va : Word) :
    ∃ r s', (sysPageUnmap envid va).run s = .ok r s' ∧
      ((r.toInt < 0 ∧ s' = s ∧ (s.resolve cur envid = none ∨ ¬ UserPage va)) ∨
        (r = 0#32 ∧ ∃ e d, s.resolve cur envid = some e ∧ UserPage va ∧ s.dir e = some d ∧
          ((s.table e (pdx va) = none ∧ s' = s) ∨ ∃ t, s.table e (pdx va) = some t ∧
            s' = s.unmapAt d (pgnum (pteAddr (s.entry e (pdx va) (ptx va)))) va ⟨t, ptx va⟩))) := by
  have henv := envid2env_run hc envid
  have hneg : (-eBadEnv).toInt < 0 := by decide
  have hzero : ¬ (0#32).toInt < 0 := by decide
  cases hr : s.resolve cur envid with
  | none =>
    rw [hr] at henv
    refine ⟨-eBadEnv, s, ?_, Or.inl ⟨by decide, rfl, Or.inl rfl⟩⟩
    simp only [sysPageUnmap, EStateM.run_bind, henv, resolved, if_pos hneg, EStateM.run_pure]
  | some e =>
  rw [hr] at henv
  by_cases hva : utop ≤ va ∨ va % pgsize ≠ 0#32
  · refine ⟨-eInval, s, ?_, Or.inl ⟨by decide, rfl, Or.inr ?_⟩⟩
    · simp only [sysPageUnmap, EStateM.run_bind, henv, resolved, if_neg hzero, if_pos hva,
        EStateM.run_pure]
    · rintro ⟨h1, h2⟩
      rcases hva with hva | hva
      · exact absurd h1 (BitVec.not_lt.2 hva)
      · exact hva h2
  have huser : UserPage va := by
    simp only [not_or, not_not, BitVec.not_le] at hva
    exact hva
  obtain ⟨d, hd, hpg⟩ := h.dir_isSome (resolve_live hlive hr)
  cases ht : s.table e (pdx va) with
  | none =>
    refine ⟨0#32, s, ?_, Or.inr ⟨rfl, e, d, rfl, huser, hd, Or.inl ⟨ht, rfl⟩⟩⟩
    simp only [sysPageUnmap, EStateM.run_bind, henv, resolved, if_neg hzero, if_neg hva, derefEnv,
      EStateM.run_pure, EStateM.run_get, hpg, derefPgdir, Inv.pageRemove_none hd huser.1 ht]
  | some t =>
    refine ⟨0#32, _, ?_, Or.inr ⟨rfl, e, d, rfl, huser, hd, Or.inr ⟨t, ht, rfl⟩⟩⟩
    rw [entry_of_table ht]
    simp only [sysPageUnmap, EStateM.run_bind, henv, resolved, if_neg hzero, if_neg hva, derefEnv,
      EStateM.run_pure, EStateM.run_get, hpg, derefPgdir, h.pageRemove_some hd huser.1 ht]

/-! ## `sys_exofork` -/

/-- The child `sys_exofork` makes: a copy of the parent's registers, with zero as the result. -/
def Kernel.childEnv (s : Kernel) (cur e : EnvIndex) (p : Nat) : Env :=
  { s.allocatedEnv e p (s.envs cur).envId with
    envStatus := .notRunnable
    envTf := { (s.envs cur).envTf with
      tfRegs := { (s.envs cur).envTf.tfRegs with regEax := 0#32 } } }

/-- The state after `sys_exofork`. -/
def Kernel.forked (s : Kernel) (cur e : EnvIndex) (p : Nat) : Kernel :=
  (s.newEnv e p (s.envs cur).envId).setEnv e (s.childEnv cur e p)

/-- Apart from the child's slot, only memory changes. -/
theorem forked_memOnly (s : Kernel) (cur e : EnvIndex) (p : Nat) :
    MemOnly ((s.allocated e p (s.envs cur).envId).setEnv e (s.childEnv cur e p))
      (s.forked cur e p) :=
  (newEnv_memOnly s e p _).setEnv e _

theorem forked_envs (s : Kernel) (cur e : EnvIndex) (p : Nat) :
    (s.forked cur e p).envs = Function.update s.envs e (s.childEnv cur e p) := by
  rw [(forked_memOnly s cur e p).envs]
  exact Function.update_idem _ _ _

theorem forked_curenv (s : Kernel) (cur e : EnvIndex) (p : Nat) :
    (s.forked cur e p).curenv = s.curenv := (forked_memOnly s cur e p).curenv

theorem forked_cpus (s : Kernel) (cur e : EnvIndex) (p : Nat) :
    (s.forked cur e p).cpus = s.cpus := (forked_memOnly s cur e p).cpus

theorem forked_cpunum (s : Kernel) (cur e : EnvIndex) (p : Nat) :
    (s.forked cur e p).cpunum = s.cpunum := (forked_memOnly s cur e p).cpunum

theorem forked_cr3 (s : Kernel) (cur e : EnvIndex) (p : Nat) :
    (s.forked cur e p).cr3 = s.cr3 := (forked_memOnly s cur e p).cr3

/-- `sys_exofork` when there is a slot and a page. -/
theorem sysExofork_run {p : Nat} (hc : s.curenv = some cur) (he : s.envFreeList = some e)
    (hp : s.pageFreeList = some p) (hlt : p < s.npages) (hne : cur ≠ e) :
    sysExofork.run s = .ok (nextEnvId (s.envs e).envId e) (s.forked cur e p) := by
  have hrun := envAlloc_run he hp hlt (s.envs cur).envId
  have hzero : ¬ (0#32).toInt < 0 := by decide
  have henvs : (s.newEnv e p (s.envs cur).envId).envs =
      Function.update s.envs e (s.allocatedEnv e p (s.envs cur).envId) :=
    (newEnv_memOnly s e p _).envs
  simp only [sysExofork, EStateM.run_bind, EStateM.run_get, hc, derefEnv, EStateM.run_pure,
    hrun, if_neg hzero, updateEnv, EStateM.run_modify, setEnv_envs, Function.update_self,
    henvs, Function.update_of_ne hne]
  simp [forked, childEnv, setEnv, henvs, allocatedEnv]

/-- **`sys_exofork`** returns; it fails without a trace, or it makes a child. -/
theorem Inv.sysExofork_spec (h : Inv res fl s) (hc : s.curenv = some cur)
    (hlive : (s.envs cur).envStatus ≠ .free) :
    ∃ r s', sysExofork.run s = .ok r s' ∧
      ((r.toInt < 0 ∧ s' = s) ∨
        ∃ e p fl', fl = p :: fl' ∧ s.envFreeList = some e ∧
          r = nextEnvId (s.envs e).envId e ∧ s' = s.forked cur e p) := by
  cases he : s.envFreeList with
  | none =>
    have hneg : (-eNoFreeEnv).toInt < 0 := by decide
    have hrun := envAlloc_noSlot he (s.envs cur).envId
    refine ⟨-eNoFreeEnv, s, ?_, Or.inl ⟨by decide, rfl⟩⟩
    simp only [sysExofork, EStateM.run_bind, EStateM.run_get, hc, derefEnv, EStateM.run_pure, hrun,
      if_pos hneg]
  | some e =>
    cases fl with
    | nil =>
      have hneg : (-eNoMem).toInt < 0 := by decide
      have hrun := envAlloc_noPage he h.chain (s.envs cur).envId
      refine ⟨-eNoMem, s, ?_, Or.inl ⟨by decide, rfl⟩⟩
      simp only [sysExofork, EStateM.run_bind, EStateM.run_get, hc, derefEnv, EStateM.run_pure,
        hrun, if_pos hneg]
    | cons p fl' =>
      have hne : cur ≠ e := by
        rintro rfl
        exact hlive (h.free_head he)
      exact ⟨_, s.forked cur e p,
        sysExofork_run hc he h.chain.1 (h.free_lt List.mem_cons_self) hne,
        Or.inr ⟨e, p, fl', rfl, rfl, rfl, rfl⟩⟩

theorem Inv.forked {p : Nat} {fl' : List Nat} (h : Inv res (p :: fl') s)
    (he : s.envFreeList = some e) (cur : EnvIndex) :
    Inv res fl' (s.forked cur e p) ∧ (s.forked cur e p).entry = s.entry ∧
      Frame res (· = e) s (s.forked cur e p) := by
  have henvs : (s.newEnv e p (s.envs cur).envId).envs =
      Function.update s.envs e (s.allocatedEnv e p (s.envs cur).envId) :=
    (newEnv_memOnly s e p _).envs
  have hsame : ∀ e', ((s.forked cur e p).envs e').envPgdir =
        ((s.newEnv e p (s.envs cur).envId).envs e').envPgdir ∧
      ((s.forked cur e p).envs e').envLink =
        ((s.newEnv e p (s.envs cur).envId).envs e').envLink ∧
      (((s.forked cur e p).envs e').envStatus = .free ↔
        ((s.newEnv e p (s.envs cur).envId).envs e').envStatus = .free) := by
    intro e'
    by_cases hee : e' = e
    · subst hee
      simp [Kernel.forked, childEnv, henvs, allocatedEnv]
    · simp [Kernel.forked, hee]
  have hinv : Inv res fl' (s.forked cur e p) :=
    (h.newEnv he (s.envs cur).envId).of_envs rfl rfl rfl rfl rfl rfl (fun e' => (hsame e').1)
      (fun e' => (hsame e').2.1) fun e' => (hsame e').2.2
  have hdir : ∀ e', (s.forked cur e p).dir e' = (s.newEnv e p (s.envs cur).envId).dir e' := by
    intro e'
    rw [dir, dir, (hsame e').1]
    simp only [(hsame e').2.2]
  refine ⟨hinv, ?_, (h.newEnv_frame (s.envs cur).envId).trans
    ⟨fun e' hne => ?_, fun _ _ => rfl, rfl, rfl⟩⟩
  · rw [← (h.newEnv_target he (s.envs cur).envId).2]
    funext e' i j
    simp only [entry, table, hdir]
    rfl
  · exact Function.update_of_ne hne _ _

/-! ## `env_destroy` -/

/-- The invariant does not look at the CPUs. -/
theorem Inv.of_cpus (h : Inv res fl s) (cpus : Cpu → CpuInfo) (cr3 : Cpu → Nat)
    (tlb : Cpu → Nat → List Word) :
    Inv res fl { s with cpus := cpus, cr3 := cr3, tlb := tlb } :=
  h.of_mem rfl rfl rfl rfl rfl h.chain h.ok

/-- Nor does it look at what `user_mem_check` and the console leave behind. -/
theorem Peek.inv (hp : Peek s s') (h : Inv res fl s) : Inv res fl s' := by
  obtain ⟨a, o, rfl⟩ := hp.exists_eq
  exact h.of_mem rfl rfl rfl rfl rfl h.chain h.ok

/-- Nor does it mind which environment runs. -/
theorem Inv.handover (h : Inv res fl s) (ho : Handover s s') : Inv res fl s' := by
  refine h.of_envs ho.mem ho.pages ho.pageFreeList ho.npages ho.kernPgdir ho.envFreeList
    (fun e => ?_) (fun e => ?_) ho.free_iff
  · obtain ⟨st, runs, cpu, he, -⟩ := ho.env e
    rw [he]
  · obtain ⟨st, runs, cpu, he, -⟩ := ho.env e
    rw [he]

theorem Handover.dir (ho : Handover s s') (e : EnvIndex) : s'.dir e = s.dir e := by
  have hpg : (s'.envs e).envPgdir = (s.envs e).envPgdir := by
    obtain ⟨st, runs, cpu, he, -⟩ := ho.env e
    rw [he]
  rw [Kernel.dir, Kernel.dir, hpg]
  simp only [ho.free_iff]

theorem Handover.entry (ho : Handover s s') : s'.entry = s.entry := by
  funext e i j
  simp only [Kernel.entry, table, ho.dir, ho.mem]

/-- **`env_destroy`** marks an environment that runs elsewhere, and frees any other; if that is
the current one, the scheduler takes over. -/
theorem Inv.envDestroy_spec (h : Inv res fl s) (hlive : (s.envs e).envStatus ≠ .free) :
    ((s.envs e).envStatus = .running ∧ s.curenv ≠ some e ∧
      (envDestroy e).run s = .ok () (s.setEnv e { s.envs e with envStatus := .dying })) ∨
    ∃ s₁ fl₁, ¬ ((s.envs e).envStatus = .running ∧ s.curenv ≠ some e) ∧ Inv res fl₁ s₁ ∧
      Frame res (· = e) s s₁ ∧ MemOnly (s.freed e) s₁ ∧
      ((s.curenv ≠ some e ∧ (envDestroy e).run s = .ok () s₁) ∨
        (s.curenv = some e ∧ ∃ x s', (envDestroy e).run s = .error x s' ∧
          Leaves (s₁.setCurenv none) x s')) := by
  by_cases hrun : (s.envs e).envStatus = .running ∧ s.curenv ≠ some e
  · refine Or.inl ⟨hrun.1, hrun.2, ?_⟩
    simp only [envDestroy, EStateM.run_bind, EStateM.run_get, if_pos hrun, updateEnv,
      EStateM.run_modify]
  · obtain ⟨s₁, fl₁, hfree, hinv, hframe, -⟩ := h.envFree_run hlive
    have hmo := (envFree_effect s e).of_ok rfl hfree
    have hcur : s₁.curenv = s.curenv := by
      rw [hmo.curenv]
      rfl
    refine Or.inr ⟨s₁, fl₁, hrun, hinv, hframe, hmo, ?_⟩
    by_cases hc : s.curenv = some e
    · refine Or.inr ⟨hc, ?_⟩
      have hinv' : Inv res fl₁ (s₁.setCurenv none) := hinv.of_cpus _ _ _
      obtain ⟨x, s', hy, hl⟩ := schedYield_leaves (s := s₁.setCurenv none) hinv'.live_dir
      refine ⟨x, s', ?_, hl⟩
      simp only [envDestroy, EStateM.run_bind, EStateM.run_get, if_neg hrun, hfree,
        if_pos (hcur.trans hc), EStateM.run_modify, hy]
    · refine Or.inl ⟨hc, ?_⟩
      have hc₁ : ¬ s₁.curenv = some e := by rwa [hcur]
      simp only [envDestroy, EStateM.run_bind, EStateM.run_get, if_neg hrun, hfree, if_neg hc₁,
        EStateM.run_pure]

/-- `sys_env_destroy` of an environment that is not found. -/
theorem sysEnvDestroy_none (hc : s.curenv = some cur) {envid : Word}
    (hr : s.resolve cur envid = none) : (sysEnvDestroy envid).run s = .ok (-eBadEnv) s := by
  have hrun := envid2env_run hc envid
  have hneg : (-eBadEnv).toInt < 0 := by decide
  rw [hr] at hrun
  simp only [sysEnvDestroy, EStateM.run_bind, hrun, resolved, if_pos hneg, EStateM.run_pure]

/-- `sys_env_destroy` of an environment that is. -/
theorem sysEnvDestroy_some (hc : s.curenv = some cur) {envid : Word}
    (hr : s.resolve cur envid = some e) :
    (sysEnvDestroy envid).run s = EStateM.run (do envDestroy e; return 0#32) s := by
  have hrun := envid2env_run hc envid
  have hzero : ¬ (0#32).toInt < 0 := by decide
  rw [hr] at hrun
  simp only [sysEnvDestroy, EStateM.run_bind, hrun, resolved, if_neg hzero, derefEnv,
    EStateM.run_pure]

theorem sysEnvDestroy_final (hc : s.curenv = some cur) {envid : Word}
    (hr : s.resolve cur envid = some e) :
    final (sysEnvDestroy envid) s = final (envDestroy e) s := by
  rw [final, sysEnvDestroy_some hc hr, EStateM.run_bind, final]
  cases (envDestroy e).run s <;> rfl

/-! ## `sys_env_set_status` and `sys_env_set_pgfault_upcall` -/

theorem settableStatus_live {status : Word} {st : EnvStatus} (h : settableStatus status = some st) :
    st ≠ .free := by
  rw [settableStatus] at h
  split at h
  · rw [← Option.some_inj.1 h]
    simp
  · split at h
    · rw [← Option.some_inj.1 h]
      simp
    · exact absurd h (by simp)

theorem sysEnvSetStatus_run (hc : s.curenv = some cur) {envid status : Word} {st : EnvStatus}
    (hr : s.resolve cur envid = some e) (hst : settableStatus status = some st) :
    (sysEnvSetStatus envid status).run s =
      .ok 0#32 (s.setEnv e { s.envs e with envStatus := st }) := by
  have hrun := envid2env_run hc envid
  have hzero : ¬ (0#32).toInt < 0 := by decide
  rw [hr] at hrun
  simp only [sysEnvSetStatus, EStateM.run_bind, hrun, resolved, if_neg hzero, hst, derefEnv,
    EStateM.run_pure, updateEnv, EStateM.run_modify]

/-- **`sys_env_set_status`** fails without a trace, or writes the status. -/
theorem sysEnvSetStatus_spec (hc : s.curenv = some cur) (envid status : Word) :
    (∃ r, r.toInt < 0 ∧ (sysEnvSetStatus envid status).run s = .ok r s) ∨
    ∃ e st, s.resolve cur envid = some e ∧ settableStatus status = some st ∧
      (sysEnvSetStatus envid status).run s =
        .ok 0#32 (s.setEnv e { s.envs e with envStatus := st }) := by
  have hrun := envid2env_run hc envid
  cases hr : s.resolve cur envid with
  | none =>
    have hneg : (-eBadEnv).toInt < 0 := by decide
    rw [hr] at hrun
    refine Or.inl ⟨-eBadEnv, hneg, ?_⟩
    simp only [sysEnvSetStatus, EStateM.run_bind, hrun, resolved, if_pos hneg, EStateM.run_pure]
  | some e =>
    have hzero : ¬ (0#32).toInt < 0 := by decide
    rw [hr] at hrun
    cases hst : settableStatus status with
    | none =>
      refine Or.inl ⟨-eInval, by decide, ?_⟩
      simp only [sysEnvSetStatus, EStateM.run_bind, hrun, resolved, if_neg hzero, hst,
        EStateM.run_pure]
    | some st => exact Or.inr ⟨e, st, rfl, rfl, sysEnvSetStatus_run hc hr hst⟩

/-- `sys_env_set_pgfault_upcall` for an environment that is not found. -/
theorem sysEnvSetPgfaultUpcall_none (hc : s.curenv = some cur) {envid func : Word}
    (hr : s.resolve cur envid = none) :
    (sysEnvSetPgfaultUpcall envid func).run s = .ok (-eBadEnv) s := by
  have hrun := envid2env_run hc envid
  have hneg : (-eBadEnv).toInt < 0 := by decide
  rw [hr] at hrun
  simp only [sysEnvSetPgfaultUpcall, EStateM.run_bind, hrun, resolved, if_pos hneg,
    EStateM.run_pure]

/-- Otherwise the upcall is set, then checked. -/
theorem sysEnvSetPgfaultUpcall_some (hc : s.curenv = some cur) {envid func : Word}
    (hr : s.resolve cur envid = some e) :
    (sysEnvSetPgfaultUpcall envid func).run s =
      EStateM.run (do userMemAssert e func 4#32 0#32; return 0#32)
        (s.setEnv e { s.envs e with envPgfaultUpcall := func }) := by
  have hrun := envid2env_run hc envid
  have hzero : ¬ (0#32).toInt < 0 := by decide
  rw [hr] at hrun
  simp only [sysEnvSetPgfaultUpcall, EStateM.run_bind, hrun, resolved, if_neg hzero, derefEnv,
    EStateM.run_pure, updateEnv, EStateM.run_modify]

theorem sysEnvSetPgfaultUpcall_final (hc : s.curenv = some cur) {envid func : Word}
    (hr : s.resolve cur envid = some e) :
    final (sysEnvSetPgfaultUpcall envid func) s = final (userMemAssert e func 4#32 0#32)
      (s.setEnv e { s.envs e with envPgfaultUpcall := func }) := by
  rw [final, sysEnvSetPgfaultUpcall_some hc hr, EStateM.run_bind, final]
  cases (userMemAssert e func 4#32 0#32).run
    (s.setEnv e { s.envs e with envPgfaultUpcall := func }) <;> rfl

end Jos
