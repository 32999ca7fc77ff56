import Jos.Fork.Scan

/-!
# Starting the child

The second half of `fork` and of `sfork`.  The child gets a fresh page as its exception stack, which
the parent maps at `PFTEMP` for the time being; then the page at `PFTEMP` is copied *to* the
parent's exception stack.  So both exception stacks are zero in the end, and whatever the parent had
mapped at `PFTEMP` is gone: that is what `Staged` says of the parent.
-/

set_option autoImplicit false

namespace Jos

open Kernel Command

variable {res : Nat → Prop} {fl fl' fl₁ : List Nat} {s s' s₁ : Kernel} {e c : EnvIndex}
variable {d dc f g p pp t : Nat} {va cid : Word} {i j : Index}

/-- The exception stack. -/
def uxstack : Word := uxstacktop - pgsize

/-- The flags of a page that a program may read and write. -/
def userPerm : Word := pteU ||| pteP ||| pteW

theorem userPage_uxstack : UserPage uxstack := by decide

theorem userPage_pftemp : UserPage pftemp := by decide

/-- `i`, `j` is the page at `va`. -/
def IsPage (va : Word) (i j : Index) : Prop := i = pdx va ∧ j = ptx va

theorem uxstack_ne_pftemp : ¬ IsPage pftemp (pdx uxstack) (ptx uxstack) := by
  rintro ⟨h, -⟩
  exact absurd h (by decide)

/-- The hardware lets a program write to the page of such an entry. -/
theorem translate_userPerm (hd : s.dir e = some d) (hl : s.Linked e d)
    (hentry : s.entry e (pdx va) (ptx va) = page2pa p ||| pteP ||| userPerm) (hp : p < 2 ^ 20)
    {need : Word} (hneed : (pteP ||| pteU ||| pteW) &&& need = need) :
    s.translate d need va = some (p, pgoff va) := by
  have hframed : framed (s.entry e (pdx va) (ptx va)) = some p := by
    rw [hentry]
    exact framed_entry hp (by decide)
  obtain ⟨t, ht, -⟩ := leaf_eq_some.1 ((leaf_eq_framed s e _ _).trans hframed)
  refine translate_of_entry hd ht ?_ ?_ hframed
  · rw [← hneed, ← BitVec.and_assoc, hl _ t ht]
  · have hall : (page2pa p ||| pteP ||| userPerm) &&& (pteP ||| pteU ||| pteW) =
        pteP ||| pteU ||| pteW := by
      rw [BitVec.or_assoc]
      exact or_and_of_and _ (by decide)
    rw [hentry, ← hneed, ← BitVec.and_assoc, hall]

/-! ## The exception stack -/

/-- What the first calls of `startChild` make of state `s`: page `pp` is the exception stack of the
child, and page `g`, that of the parent, has been overwritten. -/
structure Staged (res : Nat → Prop) (fl : List Nat) (s : Kernel) (e c : EnvIndex)
    (d dc g pp : Nat) (s' : Kernel) : Prop where
  inv : ∃ fl', Inv res fl' s'
  only : MemOnly s s'
  others : ∀ x, x ≠ e → x ≠ c → SameSpace s s' x
  data : ∀ p, s.IsData fl p → p ≠ g → s'.mem p = s.mem p
  parent : ∀ i j, ¬ IsPage pftemp i j → s'.entry e i j = s.entry e i j
  temp : s'.entry e (pdx pftemp) (ptx pftemp) = 0#32
  child : ∀ i j, ¬ IsPage uxstack i j → s'.entry c i j = s.entry c i j
  stack : s'.entry c (pdx uxstack) (ptx uxstack) = page2pa pp ||| pteP ||| userPerm
  kept : ∀ i t, s.table e i = some t → s'.table e i = some t ∧ s'.mem d i = s.mem d i
  tempTable : s'.table e (pdx pftemp) ≠ none
  linked : s'.Linked e d
  linkedChild : s'.Linked c dc
  fresh : pp ∈ fl
  zero : s'.mem pp = fun _ => 0#32
  parentStack : s.leaf e (pdx uxstack) (ptx uxstack) = some g
  writable : s.translate d userWrite uxstack = some (g, 0)
  erased : s'.mem g = fun _ => 0#32

/-- The rest of `startChild`. -/
def finishChild (prog : Program) (envid : Word) : UserM Word := do
  if (← checked (sysEnvSetPgfaultUpcall envid prog.pgfaultUpcall)).toInt < 0 then
    return -1#32
  if (← checked (sysEnvSetStatus envid 2#32)).toInt < 0 then
    return -1#32
  return envid

section

variable (h : Running res fl s e d)
include h

/-- Page `pp` has been mapped at `PFTEMP`: it is copied to the exception stack and unmapped. -/
theorem Running.borrow {fl₂ : List Nat} {s₂ : Kernel}
    (hput : PagePut res fl s e d pftemp userPerm pp fl₂ s₂) (hpp : pp < 2 ^ 20) :
    (s.translate d userWrite uxstack = none ∧
      ∃ x s', (memmove uxstack pftemp pgsize).run s₂ = .error x s') ∨
    ∃ g s₃ s₄, s.translate d userWrite uxstack = some (g, 0) ∧
      (memmove uxstack pftemp pgsize).run s₂ = .ok () s₃ ∧
      (sysPageUnmap (s.envs e).envId pftemp).run s₃ = .ok 0#32 s₄ ∧
      (∃ fl₄, Running res fl₄ s₄ e d ∧ fl₂.length ≤ fl₄.length) ∧ MemOnly s s₄ ∧
        (∀ x, x ≠ e → SameSpace s₂ s₄ x) ∧
      (∀ i j, ¬ IsPage pftemp i j → s₄.entry e i j = s.entry e i j) ∧
      s₄.entry e (pdx pftemp) (ptx pftemp) = 0#32 ∧
      (∀ i, s₄.table e i = s₂.table e i) ∧ s₄.mem d = s₂.mem d ∧ s₄.mem g = s₂.mem pp ∧
      ∀ p, p ≠ g → s₂.table e (pdx pftemp) ≠ some p → s₄.mem p = s₂.mem p := by
  have hmo := hput.inserted.edited.memOnly
  have h₂ : Running res fl₂ s₂ e d :=
    h.of_memOnly hmo hput.inv (hput.linked h.dir h.tables)
  have htemp : s₂.translate d userRead pftemp = some (pp, 0) := by
    rw [← pgoff_user userPage_pftemp]
    exact translate_userPerm h₂.dir h₂.tables hput.entry_self hpp (by decide)
  have hkept : ∀ t, s.table e (pdx uxstack) = some t →
      s₂.table e (pdx uxstack) = some t ∧ s₂.mem d (pdx uxstack) = s.mem d (pdx uxstack) :=
    fun t ht => hput.table_kept h.dir ht
  have hwrite : s₂.translate d userWrite uxstack = s.translate d userWrite uxstack :=
    translate_congr h.dir h₂.dir userPage_uxstack.1 hkept
      (hput.entry_other fun hh => uxstack_ne_pftemp hh.2)
  rcases h₂.memmove_page userPage_uxstack userPage_pftemp with
    ⟨hno | hno, hfault⟩ | ⟨g, g', s₃, hg, hg', hmove, hu, hmem⟩
  · exact Or.inl ⟨hwrite.symm.trans hno, hfault⟩
  · exact absurd (hno.symm.trans htemp) (by simp)
  have hpg : (pp, 0) = (g', 0) := Option.some_inj.1 (htemp.symm.trans hg')
  obtain rfl : pp = g' := congrArg Prod.fst hpg
  have h₃ := h₂.of_stores hu
  have hleaf : s₃.leaf e (pdx pftemp) (ptx pftemp) = some pp :=
    (congrFun hu.target (.page e (pdx pftemp) (ptx pftemp))).trans
      (leaf_of_translate h₂.dir userPage_pftemp.1 hg')
  obtain ⟨s₄, hunmap, hdrop⟩ := h₃.inv.sysPageUnmap_dropped h₃.current h₃.live h₃.resolve_self
    h₃.dir userPage_pftemp hleaf
  have hid : (s₃.envs e).envId = (s.envs e).envId := by rw [hu.only.envs, hmo.envs]
  rw [hid] at hunmap
  have hedit := hdrop.edited
  have hentry₃ : ∀ x i j, s₃.entry x i j = s₂.entry x i j := fun x => (hu.sameSpace x).entry
  have htable₄ : ∀ x i, s₄.table x i = s₂.table x i := fun x i =>
    (hdrop.table x i).trans (congrFun hu.target (.table x i))
  have hdmem : s₄.mem d = s₂.mem d := hdrop.pde.trans (hu.node (.dir e) trivial d h₂.dir)
  refine Or.inr ⟨g, s₃, s₄, hwrite.symm.trans hg, hmove, hunmap,
    ⟨_, h₃.of_memOnly hedit.memOnly hdrop.inv fun i t ht => ?_, ?_⟩,
    MemOnly.trans _ _ _ hmo (MemOnly.trans _ _ _ hu.only hedit.memOnly), fun x hx => ?_,
    fun i j hij => ?_, ?_, htable₄ e, hdmem, ?_, fun p hp hpt => ?_⟩
  · rw [hdmem]
    exact h₂.tables i t ((htable₄ e i).symm.trans ht)
  · split
    · exact Nat.le_succ _
    · exact Nat.le_refl _
  · refine ⟨fun d' hd' => ?_, htable₄ x, fun i j => ?_⟩
    · exact (hedit.frame.mem d' fun hpriv => hx (hpriv.2 (.dir x) ((hu.dir x).trans hd'))).trans
        (hu.node (.dir x) trivial d' hd')
    · exact (hedit.frame.entry hx i j).trans (hentry₃ x i j)
  · rw [hedit.entry, setEntry, if_neg fun hh => hij hh.2, hentry₃,
      hput.entry_other fun hh => hij hh.2]
  · rw [hedit.entry, setEntry_self]
  · have hgt : s₃.table e (pdx pftemp) ≠ some g := fun hh => by
      have hgl : s₃.leaf e (pdx uxstack) (ptx uxstack) = some g :=
        (congrFun hu.target (.page e (pdx uxstack) (ptx uxstack))).trans
          (leaf_of_translate h₂.dir userPage_uxstack.1 hg)
      exact (h₃.inv.isData_leaf hgl).2 (.table e (pdx pftemp)) trivial hh
    rw [hdrop.mem g hgt, hmem, Function.update_self]
  · rw [hdrop.mem p fun hh => hpt ((congrFun hu.target (.table e (pdx pftemp))).symm.trans hh),
      hmem, Function.update_of_ne hp]

/-- **The first half of `startChild`** fails for lack of memory, or because the parent has no
exception stack that it may write to, or it has run. -/
theorem Running.startChild_stack (prog : Program) (hne : c ≠ e) (hdc : s.dir c = some dc)
    (hid : s.resolve e cid = some c) (hl : s.Linked c dc)
    (habs : s.leaf c (pdx uxstack) (ptx uxstack) = none) :
    (fl.length < 1 + s.tablesFor c uxstack + s.tablesFor e pftemp ∧
      ∃ s', (startChild prog (s.envs e).envId cid).run s = .ok (-1#32) s' ∧ MemOnly s s') ∨
    (s.translate d userWrite uxstack = none ∧
      ∃ x s', (startChild prog (s.envs e).envId cid).run s = .error x s') ∨
    (1 + s.tablesFor c uxstack + s.tablesFor e pftemp ≤ fl.length ∧
      ∃ g pp s', Staged res fl s e c d dc g pp s' ∧
        (∃ fl', Inv res fl' s' ∧
          fl.length ≤ fl'.length + (1 + s.tablesFor c uxstack + s.tablesFor e pftemp)) ∧
        (startChild prog (s.envs e).envId cid).run s = (finishChild prog cid).run s') := by
  have hperm : PermOk userPerm := by decide
  rcases h.inv.sysPageAlloc_put h.current hid hdc userPage_uxstack hperm with
    ⟨s', hrun, hs', hlt⟩ | ⟨pp, rest, fl₁, s₁, rfl, hrun, hput⟩
  · refine Or.inl ⟨by omega, s', ?_, ?_⟩
    · rw [startChild, ← uxstack, ← userPerm, run_bind_ok (checked_ok hrun eNoMem_not_pos),
        if_pos eNoMem_neg]
      rfl
    · rcases hs' with rfl | ⟨q, -, rfl⟩
      · exact MemOnly.refl s'
      · rfl
  -- the child has its exception stack
  obtain ⟨hinv₀, hfresh, htgt₀, hentry₀⟩ := h.inv.cleared
  have hsame₀ := SameSpace.cleared h.inv
  have hpp : pp < 2 ^ 20 := Inv.lt_pow s (h.inv.free_lt List.mem_cons_self)
  have hnone₀ : (s.cleared pp).leaf c (pdx uxstack) (ptx uxstack) = none :=
    (congrFun htgt₀ (.page c (pdx uxstack) (ptx uxstack))).trans habs
  have hdc₀ : (s.cleared pp).dir c = some dc := hdc
  have hedit := hput.inserted.edited
  have hmo₀ : MemOnly s (s.cleared pp) := rfl
  have hmo : MemOnly s s₁ := MemOnly.trans _ _ _ hmo₀ hedit.memOnly
  have hec : ¬ e = c := fun hh => hne hh.symm
  have hsame₁ : ∀ x, x ≠ c → SameSpace s s₁ x := fun x hx =>
    (hsame₀ x).trans hmo₀.envs (SameSpace.of_frame hedit.frame hx)
  have h₁ : Running res fl₁ s₁ e d :=
    h.of_memOnly hmo hput.inv ((hsame₁ e hec).linked h.dir h.tables)
  have hdc₁ : s₁.dir c = some dc := (dir_of_envs hmo.envs c).trans hdc
  have hid₁ : s₁.resolve e cid = some c := by
    rw [← hid]
    simp only [Kernel.resolve, hmo.envs]
  have hself₁ := h₁.resolve_self
  rw [hmo.envs] at hself₁
  have hleaf₁ : s₁.leaf c (pdx uxstack) (ptx uxstack) = some pp := by
    rw [leaf_eq_framed, hput.entry_self]
    exact framed_entry hpp (by decide)
  obtain ⟨ts, rfl, hts, -⟩ := hput.free_absent hdc₀ hinv₀ userPage_uxstack.1 hnone₀
  have hlen : ts.length = s.tablesFor c uxstack := by
    rw [hts, Kernel.tablesFor, (hsame₀ c).table, Kernel.tablesFor]
  have htab : ∀ i, s₁.table e i = s.table e i := (hsame₁ e hec).table
  have hcount : s₁.counts pp = 1 := by
    rw [hput.count_absent hfresh.not_free hnone₀, Kernel.counts, hfresh.count]
    rfl
  have hdata₁ := hput.inv.isData_leaf hleaf₁
  have hm : Mappable res fl₁ s₁ e (pdx pftemp) (ptx pftemp) pp :=
    ⟨hdata₁.1, hput.inv.target_res (k := .page c (pdx uxstack) (ptx uxstack)) hleaf₁,
      fun k hk hn => hdata₁.2 k hn hk, Or.inl (by rw [hcount]; decide)⟩
  have hstart : (startChild prog (s.envs e).envId cid).run s = EStateM.run (do
      if (← checked (sysPageMap cid uxstack (s.envs e).envId pftemp userPerm)).toInt < 0 then
        return -1#32
      memmove uxstack pftemp pgsize
      if (← checked (sysPageUnmap (s.envs e).envId pftemp)).toInt < 0 then
        return -1#32
      finishChild prog cid) s₁ := by
    rw [startChild, ← uxstack, ← userPerm, run_bind_ok (checked_ok hrun zero_not_pos),
      if_neg zero_not_neg]
    rfl
  rw [hstart]
  rcases h₁.inv.sysPageMap_put h₁.current hid₁ hself₁ hdc₁ h₁.dir userPage_uxstack userPage_pftemp
      hperm hleaf₁ (fun _ => by rw [hput.entry_self, entry_and (by decide) (by decide)]; decide) hm
    with ⟨hmap, rfl, ht⟩ | ⟨s₂, fl₂, hmap, hput₂⟩
  · refine Or.inl ⟨?_, s₁, ?_, hmo⟩
    · rw [htab] at ht
      rw [List.append_nil, List.length_cons, hlen, Kernel.tablesFor, Kernel.tablesFor, if_pos ht]
      omega
    · rw [run_bind_ok (checked_ok hmap eNoMem_not_pos), if_pos eNoMem_neg]
      rfl
  have hedit₂ := hput₂.inserted.edited
  have hwrite : s₁.translate d userWrite uxstack = s.translate d userWrite uxstack :=
    translate_congr h.dir h₁.dir userPage_uxstack.1
      (fun t ht => ⟨(htab _).trans ht, congrFun ((hsame₁ e hec).pde d h.dir) _⟩)
      ((hsame₁ e hec).entry _ _)
  rw [run_bind_ok (checked_ok hmap zero_not_pos), if_neg zero_not_neg, ← hwrite]
  rcases h₁.borrow hput₂ hpp with ⟨hno, x, s', hfault⟩ | ⟨g, s₃, s₄, hg, hmove, hunmap,
    ⟨fl₄, h₄, hle₄⟩,
      hmo₄, hsame₄, hentry₄, htemp₄, htab₄, hmem₄, hg₄, hrest₄⟩
  · exact Or.inr (Or.inl ⟨hno, x, s', run_bind_error hfault⟩)
  rw [hmo.envs] at hunmap
  have hgs : s.translate d userWrite uxstack = some (g, 0) := hwrite.symm.trans hg
  have hgl := leaf_of_translate h.dir userPage_uxstack.1 hgs
  have hgp : pp ≠ g := (h.inv.free_ne (k := .page e (pdx uxstack) (ptx uxstack))
    List.mem_cons_self hgl).symm
  have hmem₂ : ∀ p, s₁.IsData fl₁ p → p ≠ g → s₄.mem p = s₁.mem p := by
    intro p hp hpg
    refine (hrest₄ p hpg fun ht => ?_).trans (hedit₂.data p hp)
    rcases hput₂.table_origin h₁.dir h₁.inv userPage_pftemp.1 ht with hold | hnew
    · exact hp.2 (.table e (pdx pftemp)) trivial hold
    · exact hp.1 hnew
  have hzero₁ : s₁.mem pp = fun _ => 0#32 := by
    rw [hedit.data pp ⟨hfresh.not_free, fun k _ => hfresh.unref k⟩, Kernel.cleared, fill_mem,
      Function.update_self]
  have hsame₂ : ∀ x, x ≠ e → SameSpace s₁ s₄ x := fun x hx =>
    (SameSpace.of_frame hedit₂.frame hx).trans hedit₂.memOnly.envs (hsame₄ x hx)
  refine Or.inr (Or.inr ⟨?_, g, pp, s₄,
    { inv := ⟨fl₄, h₄.inv⟩
      only := MemOnly.trans _ _ _ hmo hmo₄
      others := fun x hxe hxc => (hsame₁ x hxc).trans hmo.envs (hsame₂ x hxe)
      data := fun p hp hpg => ?_
      parent := fun i j hij => (hentry₄ i j hij).trans ((hsame₁ e hec).entry i j)
      temp := htemp₄
      child := fun i j hij => ?_
      stack := ((hsame₂ c hne).entry _ _).trans hput.entry_self
      kept := fun i t ht => ?_
      tempTable := ?_
      linked := h₄.tables
      linkedChild := ?_
      fresh := List.mem_cons_self
      zero := (hmem₂ pp hdata₁ hgp).trans hzero₁
      parentStack := hgl
      writable := hgs
      erased := hg₄.trans ((hedit₂.data pp hdata₁).trans hzero₁) }, ⟨fl₄, h₄.inv, ?_⟩, ?_⟩)
  · have hmore : s.tablesFor e pftemp ≤ fl₁.length := by
      rw [Kernel.tablesFor]
      split
      · next ht =>
        obtain ⟨t, hfl, -⟩ := hput₂.missing ((htab _).trans ht)
        rw [hfl, List.length_cons]
        omega
      · exact Nat.zero_le _
    rw [List.length_cons, List.length_append, hlen]
    omega
  · have hp₀ : (s.cleared pp).IsData (ts ++ fl₁) p :=
      ⟨fun hm => hp.1 (List.mem_cons_of_mem _ hm), fun k hk hkp =>
        hp.2 k hk ((congrFun htgt₀ k).symm.trans hkp)⟩
    have hne : p ≠ pp := fun hpp' => hp.1 (hpp' ▸ List.mem_cons_self)
    rw [hmem₂ p (hput.isData hdc₀ hinv₀ userPage_uxstack.1 hnone₀ hp₀) hpg, hedit.data p hp₀,
      Kernel.cleared, fill_mem_ne _ _ _ hne]
    rfl
  · rw [(hsame₂ c hne).entry, hput.entry_other fun hh => hij hh.2, hentry₀]
  · obtain ⟨ht₂, hm₂⟩ := hput₂.table_kept h₁.dir ((htab i).trans ht)
    exact ⟨(htab₄ i).trans ht₂, by rw [hmem₄, hm₂, (hsame₁ e hec).pde d h.dir]⟩
  · rw [htab₄]
    intro hn
    have h0 := hput₂.entry_self
    rw [entry_of_none hn] at h0
    exact absurd (framed_entry hpp (show IsPerm userPerm by decide)) (by simp [← h0, framed_zero])
  · refine (hsame₂ c hne).linked hdc₁ (hput.linked hdc₀ ?_)
    exact (hsame₀ c).linked hdc hl
  · have hle₂ := hput₂.length
    have htemp : s₁.tablesFor e pftemp = s.tablesFor e pftemp := by
      rw [Kernel.tablesFor, htab, Kernel.tablesFor]
    rw [List.length_cons, List.length_append, hlen]
    omega
  · rw [run_bind_ok hmove, run_bind_ok (checked_ok hunmap zero_not_pos), if_neg zero_not_neg]

end

/-! ## The page fault handler of the child -/

/-- `user_mem_check` lets `func` pass as a page fault handler under the directory in page `d`. -/
def Kernel.UpcallOk (s : Kernel) (d : Nat) (func : Word) : Prop :=
  ∀ k, func.toNat + 4096 * k < (roundUp (func + 4#32) pgsize).toNat →
    s.Passes d (pteU ||| pteP) (BitVec.ofNat 32 (func.toNat + 4096 * k))

theorem upcallOk_iff {func : Word} (hd : (s.envs c).envPgdir = some d) :
    (∃ s', (userMemCheck c func 4#32 (0#32 ||| pteU)).run s = .ok 0#32 s') ↔ s.UpcallOk d func :=
  userMemCheck_zero_iff hd

theorem upcallOk_congr (hmem : s'.mem = s.mem) (hnp : s'.npages = s.npages) (d : Nat)
    (func : Word) : s'.UpcallOk d func ↔ s.UpcallOk d func := by
  simp only [Kernel.UpcallOk, Kernel.Passes, grants_iff, hmem, hnp]

/-- The child has its handler and may run. -/
structure Started (s : Kernel) (c : EnvIndex) (func : Word) (s' : Kernel) : Prop where
  mem : s'.mem = s.mem
  envs : s'.envs = Function.update s.envs c
    { s.envs c with envPgfaultUpcall := func, envStatus := .runnable }
  curenv : s'.curenv = s.curenv
  cr3 : s'.cr3 = s.cr3
  cpunum : s'.cpunum = s.cpunum
  free : s'.pageFreeList = s.pageFreeList
  inv : ∀ {res : Nat → Prop} {fl : List Nat}, Inv res fl s → Inv res fl s'

/-- All directories stay. -/
theorem Started.dir {func : Word} (h : Started s c func s') (hdc : s.dir c = some dc)
    (x : EnvIndex) :
    s'.dir x = s.dir x := by
  by_cases hx : x = c
  · rw [hx, hdc, Kernel.dir, h.envs, Function.update_self]
    exact envPgdir_of_dir hdc
  · refine dir_congr ?_
    rw [h.envs, Function.update_of_ne hx]

/-- A relative that has been freed is not found any more. -/
theorem resolve_freed (hne : c ≠ e) (hid : s.resolve e cid = some c)
    (hfree : (s'.envs c).envStatus = .free) : s'.resolve e cid = none := by
  by_cases h0 : cid = 0#32
  · rw [Kernel.resolve, if_pos h0] at hid
    exact absurd (Option.some_inj.1 hid).symm hne
  · have hx : envx cid = c := by
      rw [Kernel.resolve, if_neg h0] at hid
      dsimp only at hid
      split at hid
      · exact absurd hid (by simp)
      · split at hid
        · exact absurd hid (by simp)
        · exact Option.some_inj.1 hid
    rw [Kernel.resolve, if_neg h0]
    dsimp only
    rw [hx, if_pos (Or.inl hfree)]

section

variable (h : Inv res fl s) (hc : s.curenv = some e) (hne : c ≠ e)
variable (hid : s.resolve e cid = some c) (hst : (s.envs c).envStatus = .notRunnable)
include h hc hne hid hst

/-- **The second half of `startChild`**: the child is started, or, if the handler is not mapped in
it, destroyed. -/
theorem finishChild_run (hdc : s.dir c = some dc) (prog : Program) :
    (¬ s.UpcallOk dc prog.pgfaultUpcall ∧ ∃ x s', (finishChild prog cid).run s = .error x s') ∨
    (¬ s.UpcallOk dc prog.pgfaultUpcall ∧ ∃ s', (finishChild prog cid).run s = .ok (-1#32) s' ∧
      (s'.envs c).envStatus = .free ∧ ∀ x, x ≠ c → s'.envs x = s.envs x) ∨
    ∃ s', (finishChild prog cid).run s = .ok cid s' ∧ Started s c prog.pgfaultUpcall s' := by
  let u : Kernel := s.setEnv c { s.envs c with envPgfaultUpcall := prog.pgfaultUpcall }
  have huc : u.envs c = { s.envs c with envPgfaultUpcall := prog.pgfaultUpcall } :=
    Function.update_self _ _ _
  have hux : ∀ x, x ≠ c → u.envs x = s.envs x := fun x hx => Function.update_of_ne hx _ _
  have hupd : (u.envs c).envPgdir = some dc := by
    rw [huc]
    exact envPgdir_of_dir hdc
  have huinv : Inv res fl u := h.of_setEnv rfl rfl (by rw [hst])
  have hcall : (sysEnvSetPgfaultUpcall cid prog.pgfaultUpcall).run s = EStateM.run
      (do userMemAssert c prog.pgfaultUpcall 4#32 0#32; return 0#32) u :=
    sysEnvSetPgfaultUpcall_some hc hid
  have humem : u.mem = s.mem := rfl
  have hunp : u.npages = s.npages := rfl
  have hsame := upcallOk_congr humem hunp dc prog.pgfaultUpcall
  have hok : (∃ s', (userMemCheck c prog.pgfaultUpcall 4#32 (0#32 ||| pteU)).run u = .ok 0#32 s') ↔
      s.UpcallOk dc prog.pgfaultUpcall := (upcallOk_iff hupd).trans hsame
  have hpeek := userMemCheck_peek c prog.pgfaultUpcall 4#32 (0#32 ||| pteU)
  cases hm : (userMemCheck c prog.pgfaultUpcall 4#32 (0#32 ||| pteU)).run u with
  | error x t =>
    refine Or.inl ⟨fun hh => ?_, .left x, t, ?_⟩
    · obtain ⟨s', hs'⟩ := hok.2 hh
      rw [hm] at hs'
      cases hs'
    · refine run_bind_error (checked_error ?_)
      rw [hcall]
      exact run_bind_error (run_bind_error hm)
  | ok r t =>
    have hp : Peek u t := hpeek.of_ok hm
    have htinv := Peek.inv hp huinv
    have hte : t.envs = u.envs := by rw [hp]
    have htc : t.curenv = some e := by
      rw [hp]
      exact hc
    have hassert : (userMemAssert c prog.pgfaultUpcall 4#32 0#32).run u = EStateM.run
        (if r.toInt < 0 then envDestroy c else pure ()) t := run_bind_ok hm
    by_cases hneg : r.toInt < 0
    · refine Or.inr (Or.inl ⟨fun hh => ?_, ?_⟩)
      · obtain ⟨s', hs'⟩ := hok.2 hh
        rw [hm] at hs'
        cases hs'
        exact zero_not_neg hneg
      · have htst : (t.envs c).envStatus = .notRunnable := by
          rw [hte, huc]
          exact hst
        rw [if_pos hneg] at hassert
        rcases htinv.envDestroy_spec (by rw [htst]; decide) with
          ⟨hrun, -, -⟩ | ⟨s₁, fl₁, -, -, -, hmo, ⟨-, hdestroy⟩ | ⟨hcur, -⟩⟩
        · exact absurd (htst.symm.trans hrun) (by decide)
        · have henvs : s₁.envs = Function.update t.envs c (t.freedEnv c) := hmo.envs
          have hfree : (s₁.envs c).envStatus = .free := by
            rw [henvs, Function.update_self, freedEnv]
          have hup : (sysEnvSetPgfaultUpcall cid prog.pgfaultUpcall).run s = .ok 0#32 s₁ := by
            rw [hcall]
            exact run_bind_ok (hassert.trans hdestroy)
          rcases sysEnvSetStatus_spec (hmo.curenv.trans htc) cid 2#32 with
            ⟨r', hr', hset⟩ | ⟨e', st, hr', -⟩
          · refine ⟨s₁, ?_, hfree, fun x hx => ?_⟩
            · rw [finishChild, run_bind_ok (checked_ok hup zero_not_pos), if_neg zero_not_neg,
                run_bind_ok (checked_ok hset (by omega)), if_pos hr']
              rfl
            · rw [henvs, Function.update_of_ne hx, hte]
              exact hux x hx
          · rw [resolve_freed hne hid hfree] at hr'
            cases hr'
        · exact absurd (Option.some_inj.1 (htc.symm.trans hcur)) fun hh => hne hh.symm
    · rw [if_neg hneg] at hassert
      have hup : (sysEnvSetPgfaultUpcall cid prog.pgfaultUpcall).run s = .ok 0#32 t := by
        rw [hcall]
        exact run_bind_ok hassert
      have hres : t.resolve e cid = some c := by
        have hsame : ∀ x, (t.envs x).envStatus = (s.envs x).envStatus ∧
            (t.envs x).envId = (s.envs x).envId ∧
            (t.envs x).envParentId = (s.envs x).envParentId := by
          intro x
          rw [hte]
          by_cases hx : x = c
          · subst hx
            rw [huc]
            exact ⟨rfl, rfl, rfl⟩
          · rw [hux x hx]
            exact ⟨rfl, rfl, rfl⟩
        rw [← hid]
        simp only [Kernel.resolve, (hsame _).1, (hsame _).2.1, (hsame _).2.2]
      have hset := sysEnvSetStatus_run htc hres (show settableStatus 2#32 = some .runnable from rfl)
      refine Or.inr (Or.inr ⟨t.setEnv c { t.envs c with envStatus := .runnable }, ?_, ?_⟩)
      · rw [finishChild, run_bind_ok (checked_ok hup zero_not_pos), if_neg zero_not_neg,
          run_bind_ok (checked_ok hset zero_not_pos), if_neg zero_not_neg]
        rfl
      · refine ⟨by rw [hp]; rfl, ?_, by rw [hp]; rfl, by rw [hp]; rfl, by rw [hp]; rfl,
          by rw [hp]; rfl, fun h' => ?_⟩
        · rw [setEnv_envs, hte]
          funext x
          by_cases hx : x = c
          · subst hx
            rw [Function.update_self, Function.update_self, huc]
          · rw [Function.update_of_ne hx, Function.update_of_ne hx]
            exact hux x hx
        · refine Inv.of_setEnv (Peek.inv hp (h'.of_setEnv rfl rfl (by rw [hst]))) rfl rfl ?_
          rw [hte, huc]
          simp [hst]

end

end Jos
