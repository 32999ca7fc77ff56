import Jos.Fork.Outcome

/-!
# A page of one's own

What `pgfault` does when it is called for a store to a copy-on-write page: it allocates a page at
`PFTEMP`, copies the page there, maps the copy in the place of the page, and unmaps `PFTEMP`.  All
but the allocation succeed.
-/

set_option autoImplicit false

namespace Jos

open Kernel Command

variable {res : Nat → Prop} {fl fl' fl₁ : List Nat} {s s' s₁ : Kernel} {e x : EnvIndex}
variable {d g p pp : Nat} {va w : Word} {i j : Index}

/-! ## Pages and rights -/

theorem pteW_of_write (h : w &&& userWrite = userWrite) : w &&& pteW ≠ 0#32 := by
  have hsub : userWrite &&& pteW = pteW := by decide
  rw [← hsub, ← BitVec.and_assoc, h]
  decide

theorem and_userWrite (hread : w &&& userRead = userRead) (hw : w &&& pteW ≠ 0#32) :
    w &&& userWrite = userWrite := by
  have hsplit : userWrite = userRead ||| pteW := by decide
  have hbit : w &&& pteW = pteW := by
    have hpow : pteW = BitVec.twoPow 32 1 := by decide
    rw [hpow, BitVec.and_twoPow] at hw ⊢
    by_contra hne
    split_ifs at hw hne
    · exact hne rfl
    · exact hw rfl
  rw [hsplit, BitVec.and_or_distrib_left, hread, hbit]

theorem lt_utop_of_leaf (hp : s.leaf x (pdx va) (ptx va) = some p) : va < utop :=
  (lt_utop_iff va).2 (table_eq_some.1 (leaf_eq_some.1 hp).choose_spec.1).1

/-- What refers to a page that is mapped is another mapping. -/
theorem Inv.page_of_leaf (h : Inv res fl s) (hp : s.leaf x i j = some p) {k : Slot}
    (hk : s.target k = some p) : ∃ y i' j', k = .page y i' j' := by
  have hdata := h.isData_leaf hp
  cases k with
  | dir y => exact absurd hk (hdata.2 (.dir y) trivial)
  | table y i' => exact absurd hk (hdata.2 (.table y i') trivial)
  | page y i' j' => exact ⟨y, i', j', rfl⟩

/-- The flags of a page that has been found. -/
theorem entry_of_translate {need : Word} (hd : s.dir x = some d) (hva : va < utop)
    (h : s.translate d need va ≠ none) : s.entry x (pdx va) (ptx va) &&& need = need := by
  obtain ⟨⟨p, o⟩, htr⟩ := Option.ne_none_iff_exists'.1 h
  obtain ⟨-, -, -, hpte, -⟩ := (translate_eq_some hd hva).1 htr
  exact hpte

/-! ## Copying a page -/

/-- The page that `va` is on. -/
theorem roundDown_page (va : Word) : roundDown va pgsize = pgaddr (pdx va) (ptx va) 0#32 := by
  apply BitVec.eq_of_toNat_eq
  rw [roundDown_toNat, pgaddr_toNat, pdx_val, ptx_val]
  have hlt := va.isLt
  omega

/-- An address leads to the page that it is on. -/
theorem translate_page (s : Kernel) (d : Nat) (need : Word)
    (huser : UserPage (roundDown va pgsize)) :
    s.translate d need va =
      (s.translate d need (roundDown va pgsize)).map fun fo => (fo.1, pgoff va) := by
  have hoff : pgoff va < 4096 := by
    rw [pgoff_eq]
    omega
  have hva : roundDown va pgsize + BitVec.ofNat 32 (pgoff va) = va := by
    apply BitVec.eq_of_toNat_eq
    rw [BitVec.toNat_add, roundDown_toNat, BitVec.toNat_ofNat, pgoff_eq]
    have hlt := va.isLt
    omega
  rw [← translate_add s d need huser hoff, hva]

/-- `pgfault` has put page `g`, which was free, in the place of page `p`, which `va` is on. -/
structure Privatized (res : Nat → Prop) (fl : List Nat) (s : Kernel) (e : EnvIndex) (d : Nat)
    (va : Word) (p g : Nat) (fl' : List Nat) (s' : Kernel) : Prop where
  run : Running res fl' s' e d
  only : MemOnly s s'
  fresh : g ∈ fl
  readable : s.translate d userRead va ≠ none
  entry : s'.entry e (pdx va) (ptx va) = page2pa g ||| pteP ||| userPerm
  temp : s'.entry e (pdx pftemp) (ptx pftemp) = 0#32
  same : ∀ i j, ¬ IsPage va i j → ¬ IsPage pftemp i j → s'.entry e i j = s.entry e i j
  kept : ∀ i t, s.table e i = some t → s'.table e i = some t
  tempTable : s'.table e (pdx pftemp) ≠ none
  others : ∀ x, x ≠ e → SameSpace s s' x
  copied : s'.mem g = s.mem p
  free : fl'.length + (1 + s.tablesFor e pftemp) =
    fl.length + s.freedAt e pftemp + s.freedAfter e pftemp va
  data : ∀ x i j q, s.leaf x i j = some q → ¬ (x = e ∧ IsPage pftemp i j) → s'.mem q = s.mem q

/-- The rest of `pgfault`, when it has allocated a page. -/
def pgfaultCopy (envid addr : Word) : UserM Unit := do
  memmove pftemp (roundDown addr pgsize) pgsize
  if (← checked (sysPageMap envid pftemp envid (roundDown addr pgsize)
      (pteU ||| pteP ||| pteW))).toInt < 0 then
    throw (.panic "pgfault: can't map temp page to old page.\n")
  if (← checked (sysPageUnmap envid pftemp)).toInt < 0 then
    throw (.panic "pgfault: couldn't unmap page.\n")

/-- A page that is mapped once can be mapped once more. -/
theorem Inv.mappable_sole (h : Inv res fl s) (hp : s.leaf x i j = some p)
    (hone : ∀ k, s.target k = some p → k = .page x i j) (e : EnvIndex) (i' j' : Index) :
    Mappable res fl s e i' j' p := by
  have hcount : s.counts p = Ledger.refs s.target p :=
    h.ok.ref_eq p (h.target_res (k := .page x i j) hp)
  refine h.mappable hp (Or.inl ?_)
  show s.counts p < 65535
  rw [hcount, Ledger.refs_eq_one (k := .page x i j) hp hone]
  decide

section

variable {rest : List Nat} (h : Running res (pp :: rest) s e d)
include h

/-- A new page is mapped once. -/
theorem Running.put_sole {perm : Word}
    (hput : PagePut res rest (s.cleared pp) e d va perm pp fl₁ s₁)
    (hperm : IsPerm perm) {k : Slot} (hk : s₁.target k = some pp) :
    k = .page e (pdx va) (ptx va) := by
  have hdata := hput.inv.isData_leaf (h.put_leaf hput hperm)
  by_contra hne
  have hold := h.put_target hput hperm (fun hn => hdata.2 k hn hk) hne
  exact h.inv.ok.free_unref pp List.mem_cons_self k (hold.symm.trans hk)

variable (hput : PagePut res rest (s.cleared pp) e d pftemp userPerm pp fl₁ s₁)
include hput

/-- **The copy** takes the place of the page, if the program may read that. -/
theorem Running.pgfaultCopy_run (hne : ¬ IsPage pftemp (pdx va) (ptx va))
    (hp : s.leaf e (pdx va) (ptx va) = some p) :
    (s.translate d userRead va = none ∧
      ∃ x s', (pgfaultCopy (s.envs e).envId va).run s₁ = .error x s') ∨
    ∃ fl' s', (pgfaultCopy (s.envs e).envId va).run s₁ = .ok () s' ∧
      Privatized res (pp :: rest) s e d va p pp fl' s' := by
  have hperm : PermOk userPerm := by decide
  have hpage := roundDown_page va
  have huser : UserPage (roundDown va pgsize) := hpage ▸ userPage_pgaddr hp
  have hpd : pdx (roundDown va pgsize) = pdx va := by rw [hpage, pdx_pgaddr]
  have hpt : ptx (roundDown va pgsize) = ptx va := by rw [hpage, ptx_pgaddr]
  have hpp : pp < 2 ^ 20 := Inv.lt_pow s (h.inv.free_lt List.mem_cons_self)
  have h₁ := h.put_running hput
  have hmo₁ := hput.memOnly_cleared
  have hne' : ¬ IsPage pftemp (pdx (roundDown va pgsize)) (ptx (roundDown va pgsize)) := by
    rwa [hpd, hpt]
  have htemp : s₁.translate d userWrite pftemp = some (pp, 0) := by
    rw [← pgoff_user userPage_pftemp]
    exact translate_userPerm h₁.dir h₁.tables hput.entry_self hpp (by decide)
  have hread : s₁.translate d userRead (roundDown va pgsize) =
      s.translate d userRead (roundDown va pgsize) :=
    translate_congr h.dir h₁.dir huser.1 (fun t ht => h.put_kept hput ht) (h.put_entry hput hne')
  rw [pgfaultCopy]
  rcases h₁.memmove_page userPage_pftemp huser with
    ⟨hno | hno, x, s', hfault⟩ | ⟨f, q, s₂, hf, hq, hmove, hu, hmem⟩
  · exact absurd (htemp.symm.trans hno) (by simp)
  · refine Or.inl ⟨?_, x, s', run_bind_error hfault⟩
    rw [translate_page s d userRead huser, ← hread, hno, Option.map_none]
  have hpg : (pp, 0) = (f, 0) := Option.some_inj.1 (htemp.symm.trans hf)
  obtain rfl : pp = f := congrArg Prod.fst hpg
  have hqs := leaf_of_translate h.dir huser.1 (hread.symm.trans hq)
  rw [hpd, hpt] at hqs
  obtain rfl : p = q := Option.some_inj.1 (hp.symm.trans hqs)
  -- the page has been copied
  have h₂ := h₁.of_stores hu
  have htgt₂ : ∀ k, s₂.target k = s₁.target k := congrFun hu.target
  have hentry₂ : ∀ x i j, s₂.entry x i j = s₁.entry x i j := fun x => (hu.sameSpace x).entry
  have hleaf₂ : s₂.leaf e (pdx pftemp) (ptx pftemp) = some pp :=
    (htgt₂ (.page e _ _)).trans (h.put_leaf hput hperm.isPerm)
  have hp₂ : s₂.leaf e (pdx (roundDown va pgsize)) (ptx (roundDown va pgsize)) = some p := by
    rw [leaf_eq_framed, hentry₂, h.put_entry hput hne', ← leaf_eq_framed, hpd, hpt, hp]
  have hsole : ∀ k, s₂.target k = some pp → k = .page e (pdx pftemp) (ptx pftemp) := fun k hk =>
    h.put_sole hput hperm.isPerm ((htgt₂ k).symm.trans hk)
  have hm := h₂.inv.mappable_sole hleaf₂ hsole e (pdx (roundDown va pgsize))
    (ptx (roundDown va pgsize))
  have hmo₂ := MemOnly.trans _ _ _ hmo₁ hu.only
  have hself₂ := h₂.resolve_self
  rw [hmo₂.envs] at hself₂
  have hw : userPerm &&& pteW ≠ 0#32 → s₂.entry e (pdx pftemp) (ptx pftemp) &&& pteW ≠ 0#32 := by
    intro _
    rw [hentry₂, hput.entry_self, entry_and (by decide) (by decide)]
    decide
  rcases h₂.inv.sysPageMap_put h₂.current hself₂ hself₂ h₂.dir h₂.dir userPage_pftemp huser hperm
    hleaf₂ hw hm with ⟨-, -, hnone⟩ | ⟨s₃, fl₃, hmap, hput₃⟩
  · exact absurd ((leaf_eq_none hnone _).symm.trans hp₂) (by simp)
  -- and mapped
  have hedit₃ := hput₃.inserted.edited
  have hsome₃ : s₂.table e (pdx (roundDown va pgsize)) ≠ none := fun hn =>
    absurd ((leaf_eq_none hn _).symm.trans hp₂) (by simp)
  have h₃ : Running res fl₃ s₃ e d :=
    h₂.of_memOnly hedit₃.memOnly hput₃.inv (hput₃.linked h₂.dir h₂.tables)
  have hout : ¬ (e = e ∧ pdx pftemp = pdx (roundDown va pgsize) ∧
      ptx pftemp = ptx (roundDown va pgsize)) := fun hh => hne' ⟨hh.2.1.symm, hh.2.2.symm⟩
  have hleaf₃ : s₃.leaf e (pdx pftemp) (ptx pftemp) = some pp := by
    rw [leaf_eq_framed, hput₃.entry_other hout, ← leaf_eq_framed, hleaf₂]
  have htab₃ : ∀ x i, s₃.table x i = s₂.table x i := by
    intro x i
    by_cases hx : x = e
    · subst hx
      exact hput₃.table h₂.dir fun _ => hsome₃
    · exact hedit₃.frame.target (k := .table x i) hx
  obtain ⟨s₄, hunmap, hdrop⟩ := h₃.inv.sysPageUnmap_dropped h₃.current h₃.live h₃.resolve_self
    h₃.dir userPage_pftemp hleaf₃
  have hmo₃ := MemOnly.trans _ _ _ hmo₂ hedit₃.memOnly
  rw [hmo₃.envs] at hunmap
  have hedit₄ := hdrop.edited
  have hdata : ∀ x i j q, s₂.leaf x i j = some q → s₄.mem q = s₂.mem q := by
    intro x i j q hq'
    have hd₂ := h₂.inv.isData_leaf hq'
    rw [hdrop.mem q fun hh => hd₂.2 (.table e _) trivial ((htab₃ e _).symm.trans hh),
      hedit₃.data q hd₂]
  have htempTable : s₄.table e (pdx pftemp) ≠ none := by
    rw [hdrop.table]
    exact fun hn => absurd ((leaf_eq_none hn _).symm.trans hleaf₃) (by simp)
  -- what the copy takes: the page that was mapped is freed if nothing else refers to it
  have hfreed : s₂.freedAt e va = s.freedAfter e pftemp va := by
    rw [← h.put_freedAt hput hperm.isPerm hne]
    exact freedAt_congr h₁.inv h₂.inv (htgt₂ (.page e _ _)) fun q _ k => by rw [htgt₂]
  have hpp₃ : s₃.counts pp ≠ 1 := by
    have hnew : s₃.leaf e (pdx va) (ptx va) = some pp := by
      rw [leaf_eq_framed, ← hpd, ← hpt, hput₃.entry_self]
      exact framed_entry hpp (by decide)
    intro hone
    rw [h₃.inv.counts_leaf hleaf₃] at hone
    have hslot : Slot.page e (pdx va) (ptx va) = .page e (pdx pftemp) (ptx pftemp) :=
      Ledger.eq_of_refs_eq_one hone (k := Slot.page e (pdx pftemp) (ptx pftemp)) hleaf₃ hnew
    exact hne ⟨(Slot.page.inj hslot).2.1, (Slot.page.inj hslot).2.2⟩
  have hfree₃ : fl₃.length = fl₁.length + s₂.freedAt e va := by
    rw [hpd, hpt] at hp₂
    rw [(hput₃.present hsome₃).2, hpd, hpt, Kernel.freedAt, hp₂, released]
    have hpne : p ≠ pp := h.inv.free_ne (k := .page e _ _) List.mem_cons_self hp
    by_cases hc : s₂.counts p = 1
    · rw [if_pos ⟨hpne, hc⟩, List.length_cons]
      simp only [if_pos hc]
    · rw [if_neg fun hh => hc hh.2]
      simp only [if_neg hc, Nat.add_zero]
  refine Or.inr ⟨_, s₄, ?_,
    { run := h₃.of_memOnly hedit₄.memOnly hdrop.inv fun i t ht => ?_
      only := MemOnly.trans _ _ _ hmo₃ hedit₄.memOnly
      fresh := List.mem_cons_self
      readable := fun hno => ?_
      entry := ?_
      temp := ?_
      same := fun i j hij htemp => ?_
      kept := fun i t ht => ?_
      tempTable := htempTable
      others := fun x hx => ?_
      copied := ?_
      free := ?_
      data := fun x i j q hq' hout' => ?_ }⟩
  · rw [run_bind_ok hmove, show pteU ||| pteP ||| pteW = userPerm from rfl,
      run_bind_ok (checked_ok hmap zero_not_pos), if_neg zero_not_neg,
      run_bind_ok (checked_ok hunmap zero_not_pos), if_neg zero_not_neg]
    rfl
  · rw [hdrop.pde]
    exact h₃.tables i t ((hdrop.table e i).symm.trans ht)
  · rw [translate_page s d userRead huser, ← hread, hq] at hno
    cases hno
  · rw [hedit₄.entry, setEntry, if_neg fun hh => hne hh.2, ← hpd, ← hpt, hput₃.entry_self]
  · rw [hedit₄.entry, setEntry_self]
  · rw [hedit₄.entry, setEntry, if_neg fun hh => htemp hh.2, hput₃.entry_other fun hh => hij ?_,
      hentry₂, h.put_entry hput htemp]
    rw [hpd, hpt] at hh
    exact hh.2
  · rw [hdrop.table, htab₃, hu.sameSpace e |>.table]
    exact (h.put_kept hput ht).1
  · have hcleared : (s.cleared pp).envs = s.envs := rfl
    exact ((((SameSpace.cleared h.inv x).trans hcleared
      (SameSpace.of_frame hput.inserted.edited.frame hx)).trans hmo₁.envs (hu.sameSpace x)).trans
      hmo₂.envs (SameSpace.of_frame hedit₃.frame hx)).trans hmo₃.envs
      (SameSpace.of_frame hedit₄.frame hx)
  · rw [hdata e _ _ pp hleaf₂, hmem, Function.update_self, h.put_data hput (h.inv.isData_leaf hp)]
  · have hfree := h.put_free hput
    rw [if_neg hpp₃, hfree₃, hfreed, List.length_cons]
    omega
  · have hq₁ : s₁.leaf x i j = some q :=
      (h.put_target hput hperm.isPerm (k := .page x i j) (fun hn => hn)
        (by simpa [IsPage] using hout')).trans hq'
    have hqp : q ≠ pp := h.inv.free_ne (k := .page x i j) List.mem_cons_self hq'
    rw [hdata x i j q ((htgt₂ (.page x i j)).trans hq₁), hmem, Function.update_of_ne hqp,
      h.put_data hput (h.inv.isData_leaf hq')]

end

/-! ## The handler -/

namespace Running

variable (h : Running res fl s e d)
include h

/-- Where there is no page table, there is nothing at `UVPT`. -/
theorem uvpt_fault (hva : va < utop) (ht : s.table e (pdx va) = none) :
    ∃ x s', (uloadWord (uvptEntry (pgnum va))).run s = .error x s' := by
  obtain ⟨hflags, hself⟩ := h.self_flags
  have hi := (lt_utop_iff va).1 hva
  have hpde : s.mem d (pdx va) &&& pteP = 0#32 :=
    framed_eq_none.1 ((table_of_dir h.dir hi).symm.trans ht)
  have hno : ¬ s.mem d (pdx va) &&& userRead = userRead := by
    intro hh
    have hsub : userRead &&& pteP = pteP := by decide
    rw [← hsub, ← BitVec.and_assoc, hh] at hpde
    exact absurd hpde (by decide)
  have hpn : pgnum va = pgnum (pgaddr (pdx va) (ptx va) 0#32) :=
    pgnum_inj (pdx_pgaddr _ _).symm (ptx_pgaddr _ _).symm
  have hlt := pgnum_pgaddr_lt (pdx va) (ptx va)
  have hload : s.loadAt (s.cr3 s.cpunum) (pteP ||| pteU) (uvptEntry (pgnum va)) = none := by
    rw [h.loaded, loadAt, ← userRead, Kernel.translate, hpn, pdx_uvptEntry hlt,
      if_neg (not_not.2 hflags), hself, Option.bind_some, ptx_uvptEntry hlt, pgaddr_pn, pdx_pgaddr,
      if_pos hno, Option.map_none]
  refine ⟨.fault (uvptEntry (pgnum va)), s, ?_⟩
  simp only [uloadWord, EStateM.run_bind, EStateM.run_get, hload]
  rfl

/-- `pgfault` panics if the page is not copy-on-write. -/
theorem pgfault_panics (hva : va < utop) (hcow : s.entry e (pdx va) (ptx va) &&& pteCow = 0#32) :
    ∃ x s', (pgfault va fecWr).run s = .error x s' := by
  have hwr : ¬ fecWr &&& fecWr = 0#32 := by decide
  have hpn : pgnum va = pgnum (pgaddr (pdx va) (ptx va) 0#32) :=
    pgnum_inj (pdx_pgaddr _ _).symm (ptx_pgaddr _ _).symm
  rw [pgfault, if_neg hwr]
  cases ht : s.table e (pdx va) with
  | none =>
    obtain ⟨x, s', hload⟩ := h.uvpt_fault hva ht
    exact ⟨x, s', run_bind_error hload⟩
  | some t =>
    have hload := h.uvpt_load ht (ptx va)
    rw [← hpn] at hload
    dsimp only
    rw [run_bind_ok hload, if_pos hcow]
    exact ⟨_, s, rfl⟩

/-- **`pgfault`**, called for a store, gives the program a page of its own, unless the page is not
copy-on-write, or cannot be read, or there is no page. -/
theorem pgfault_run (hva : va < utop) (hne : ¬ IsPage pftemp (pdx va) (ptx va)) :
    ((s.entry e (pdx va) (ptx va) &&& pteCow = 0#32 ∨ s.translate d userRead va = none ∨
        fl.length < 1 + s.tablesFor e pftemp) ∧
      ∃ x s', (pgfault va fecWr).run s = .error x s') ∨
    ∃ p g fl' s', s.entry e (pdx va) (ptx va) &&& pteCow ≠ 0#32 ∧
      s.leaf e (pdx va) (ptx va) = some p ∧ (pgfault va fecWr).run s = .ok () s' ∧
      Privatized res fl s e d va p g fl' s' := by
  by_cases hcow : s.entry e (pdx va) (ptx va) &&& pteCow = 0#32
  · exact Or.inl ⟨Or.inl hcow, h.pgfault_panics hva hcow⟩
  have hwr : ¬ fecWr &&& fecWr = 0#32 := by decide
  have hpn : pgnum va = pgnum (pgaddr (pdx va) (ptx va) 0#32) :=
    pgnum_inj (pdx_pgaddr _ _).symm (ptx_pgaddr _ _).symm
  have hperm : PermOk userPerm := by decide
  obtain ⟨t, ht⟩ : ∃ t, s.table e (pdx va) = some t := by
    refine Option.ne_none_iff_exists'.1 fun hn => hcow ?_
    rw [entry_of_none hn]
    exact BitVec.zero_and
  obtain ⟨p, hp⟩ : ∃ p, s.leaf e (pdx va) (ptx va) = some p := by
    refine Option.ne_none_iff_exists'.1 fun hn => hcow ?_
    rw [entry_of_table ht, h.inv.zero_pte e _ t ht _ ((leaf_of_table ht).symm.trans hn)]
    exact BitVec.zero_and
  have hload := h.uvpt_load ht (ptx va)
  rw [← hpn] at hload
  rw [pgfault, if_neg hwr]
  dsimp only
  rw [run_bind_ok hload, if_neg hcow, run_bind_ok h.getenvid, ← userPerm]
  rcases h.inv.sysPageAlloc_put h.current h.resolve_self h.dir userPage_pftemp hperm with
    ⟨s', halloc, -, hlack⟩ | ⟨pp, rest, fl₁, s₁, rfl, halloc, hput⟩
  · rw [run_bind_ok (checked_ok halloc eNoMem_not_pos), if_pos eNoMem_neg]
    exact Or.inl ⟨Or.inr (Or.inr hlack), _, s', rfl⟩
  rw [run_bind_ok (checked_ok halloc zero_not_pos), if_neg zero_not_neg]
  rcases h.pgfaultCopy_run hput hne hp with ⟨hno, hfault⟩ | ⟨fl', s', hcopy, hpriv⟩
  · exact Or.inl ⟨Or.inr (Or.inl hno), hfault⟩
  · exact Or.inr ⟨p, pp, fl', s', hcow, hp, hcopy, hpriv⟩

/-! ## Stores -/

theorem ustore_run (write : Page → Nat → Page) {f o : Nat}
    (hf : s.translate d userWrite va = some (f, o)) :
    (ustore va write).run s = .ok () (s.fill f (write (s.mem f) o)) := by
  have hwr : s.writable va = some (f, o) := by
    rw [Kernel.writable, h.loaded]
    exact hf
  simp only [ustore, EStateM.run_bind, EStateM.run_get, hwr, EStateM.run_modify]

/-- A store where the program may write. -/
theorem storeHandled_plain (write : Page → Nat → Page) {f o : Nat}
    (hf : s.translate d userWrite va = some (f, o)) :
    (storeHandled va write).run s = .ok () (s.fill f (write (s.mem f) o)) := by
  have hwr : s.writable va = some (f, o) := by
    rw [Kernel.writable, h.loaded]
    exact hf
  rw [storeHandled, EStateM.run_bind, EStateM.run_get]
  dsimp only
  rw [hwr, if_neg (by simp)]
  exact h.ustore_run write hf

/-- A store fails where there is no page. -/
theorem storeHandled_fails (hva : va < utop) (hzero : s.entry e (pdx va) (ptx va) = 0#32)
    (write : Page → Nat → Page) : ∃ x s', (storeHandled va write).run s = .error x s' := by
  have hwr : s.writable va = none := by
    refine Option.eq_none_iff_forall_ne_some.2 fun fo hfo => ?_
    rw [Kernel.writable, h.loaded] at hfo
    obtain ⟨-, -, -, hpte, -⟩ := (translate_eq_some (o := fo.2) h.dir hva).1 hfo
    rw [hzero] at hpte
    exact absurd hpte (by decide)
  obtain ⟨x, s', hfault⟩ := h.pgfault_panics hva (by rw [hzero]; exact BitVec.zero_and)
  refine ⟨x, s', ?_⟩
  rw [storeHandled, EStateM.run_bind, EStateM.run_get]
  dsimp only
  rw [hwr, if_pos rfl]
  exact run_bind_error hfault

/-- **A store** goes to the page, or to the program's own page in its place, or it fails. -/
theorem storeHandled_run (hva : va < utop) (hne : ¬ IsPage pftemp (pdx va) (ptx va))
    (write : Page → Nat → Page) :
    (∃ f, s.translate d userWrite va = some (f, pgoff va) ∧
      (storeHandled va write).run s = .ok () (s.fill f (write (s.mem f) (pgoff va)))) ∨
    (s.translate d userWrite va = none ∧ ((s.entry e (pdx va) (ptx va) &&& pteCow = 0#32 ∨
        s.translate d userRead va = none ∨ fl.length < 1 + s.tablesFor e pftemp) ∧
      ∃ x s', (storeHandled va write).run s = .error x s')) ∨
    ∃ p g fl' s', s.translate d userWrite va = none ∧
      s.entry e (pdx va) (ptx va) &&& pteCow ≠ 0#32 ∧ s.leaf e (pdx va) (ptx va) = some p ∧
      Privatized res fl s e d va p g fl' s' ∧ s'.translate d userWrite va = some (g, pgoff va) ∧
      (storeHandled va write).run s = .ok () (s'.fill g (write (s'.mem g) (pgoff va))) := by
  cases hf : s.translate d userWrite va with
  | some fo =>
    obtain ⟨f, o⟩ := fo
    obtain rfl : o = pgoff va := translate_offset hf
    exact Or.inl ⟨f, rfl, h.storeHandled_plain write hf⟩
  | none =>
    have hwr : s.writable va = none := by
      rw [Kernel.writable, h.loaded]
      exact hf
    rw [storeHandled, EStateM.run_bind, EStateM.run_get]
    dsimp only
    rw [if_pos hwr]
    rcases h.pgfault_run hva hne with ⟨hwhy, x, s', hfault⟩ | ⟨p, g, fl', s', hcow, hp, hrun, hpriv⟩
    · exact Or.inr (Or.inl ⟨rfl, hwhy, x, s', run_bind_error hfault⟩)
    · have hg : g < 2 ^ 20 := Inv.lt_pow s (h.inv.free_lt hpriv.fresh)
      have htr := translate_userPerm hpriv.run.dir hpriv.run.tables hpriv.entry hg
        (show (pteP ||| pteU ||| pteW) &&& userWrite = userWrite by decide)
      refine Or.inr (Or.inr ⟨p, g, fl', s', rfl, hcow, hp, hpriv, htr, ?_⟩)
      rw [run_bind_ok hrun]
      exact hpriv.run.ustore_run write htr

end Running

theorem uloadByte_state {b : Byte} (h : (uloadByte va).run s = .ok b s') : s' = s := by
  simp only [uloadByte, EStateM.run_bind, EStateM.run_get] at h
  split at h
  · cases h
    rfl
  · cases h

/-! ## Environments that take turns -/

/-- Environment `x`, with its directory in page `d`, can go on running a program when it is its
turn. -/
structure Alive (s : Kernel) (x : EnvIndex) (d : Nat) : Prop where
  dir : s.dir x = some d
  id : envx (s.envs x).envId = x ∧ (s.envs x).envId ≠ 0#32
  tables : s.Linked x d

theorem Running.alive (h : Running res fl s e d) : Alive s e d := ⟨h.dir, h.id, h.tables⟩

theorem Alive.running (h : Alive s x d) (hinv : Inv res fl s)
    (hc : s.curenv = some x) (hl : s.cr3 s.cpunum = d) : Running res fl s x d :=
  ⟨hinv, hc, h.dir, hl, h.id, h.tables⟩

/-- Where an environment finds what it maps. -/
theorem Alive.translate (h : Alive s x d) {need : Word} (hneed : userWrite &&& need = need)
    (hp : s.leaf x (pdx va) (ptx va) = some p)
    (hflags : s.entry x (pdx va) (ptx va) &&& need = need) :
    s.translate d need va = some (p, pgoff va) := by
  obtain ⟨t, ht, -⟩ := leaf_eq_some.1 hp
  refine translate_of_entry h.dir ht ?_ hflags ((leaf_eq_framed s x _ _).symm.trans hp)
  rw [← hneed, ← BitVec.and_assoc, userWrite, h.tables _ t ht]

theorem Alive.readByte (h : Alive s x d) (hp : s.leaf x (pdx va) (ptx va) = some p)
    (hflags : s.entry x (pdx va) (ptx va) &&& userRead = userRead) :
    s.readByte d userRead va = some (byteAt (s.mem p) (pgoff va)) := by
  rw [Kernel.readByte, h.translate (by decide) hp hflags, Option.map_some]

theorem Alive.of_same (h : Alive s x d) (hs : SameSpace s s' x)
    (henv : s'.envs x = s.envs x) : Alive s' x d :=
  ⟨(dir_congr henv).trans h.dir, by rw [henv]; exact h.id, hs.linked h.dir h.tables⟩

section

variable (ho : Handover s s')
include ho

theorem Handover.sameSpace (x : EnvIndex) : SameSpace s s' x :=
  SameSpace.of_dir ho.mem ho.dir x

theorem Handover.alive (h : Alive s x d) : Alive s' x d := by
  obtain ⟨st, runs, cpu, henv, -⟩ := ho.env x
  refine ⟨(ho.dir x).trans h.dir, ?_, (ho.sameSpace x).linked h.dir h.tables⟩
  rw [henv]
  exact h.id

end

/-- The environments `members` can go on running, and one of them is running. -/
structure Turns (res : Nat → Prop) (members : EnvIndex → Prop) (s : Kernel) : Prop where
  inv : ∃ fl, Inv res fl s
  current : ∃ x d, members x ∧ s.curenv = some x ∧ s.dir x = some d ∧ s.cr3 s.cpunum = d
  alive : ∀ x, members x → ∃ d, Alive s x d

namespace Turns

variable {members : EnvIndex → Prop} (h : Turns res members s)
include h

/-- The environment whose turn it is. -/
theorem running (hc : s.curenv = some x) : ∃ fl d, members x ∧ Running res fl s x d := by
  obtain ⟨fl, hinv⟩ := h.inv
  obtain ⟨x', d, hx, hc', hd, hl⟩ := h.current
  obtain rfl : x = x' := Option.some_inj.1 (hc.symm.trans hc')
  obtain ⟨d', ha⟩ := h.alive x hx
  obtain rfl : d = d' := Option.some_inj.1 (hd.symm.trans ha.dir)
  exact ⟨fl, d, hx, ha.running hinv hc hl⟩

/-- It is another one's turn, and all have the memory that they had. -/
theorem switch (hx : members x) (hst : (s.envs x).envStatus = .runnable ∨
    s.curenv = some x ∧ (s.envs x).envStatus = .running)
    (hrun : (envRun x).run s = .error .popTf s') :
    Turns res members s' ∧ s'.mem = s.mem ∧ s'.target = s.target ∧ ∀ y, SameSpace s s' y := by
  obtain ⟨fl, hinv⟩ := h.inv
  obtain ⟨d, ha⟩ := h.alive x hx
  rw [envRun_run (envPgdir_of_dir ha.dir)] at hrun
  cases hrun
  have ho := dispatch_handover hst d
  refine ⟨⟨⟨fl, hinv.handover ho⟩, ⟨x, d, hx, dispatch_curenv s x d, (ho.dir x).trans ha.dir,
    dispatch_cr3 s x d⟩, fun y hy => (h.alive y hy).imp fun _ ha => ho.alive ha⟩, ho.mem,
    target_of_dir ho.mem ho.dir, ho.sameSpace⟩

/-- One of them stores in its memory. -/
theorem stores (hu : UserStores res fl s s') : Turns res members s' := by
  obtain ⟨x, d, hx, hc, hd, hl⟩ := h.current
  refine ⟨⟨fl, hu.inv⟩, ⟨x, d, hx, hu.only.curenv.trans hc, (hu.dir x).trans hd, ?_⟩, fun y hy =>
    (h.alive y hy).imp fun _ ha => ha.of_same (hu.sameSpace y) (congrFun hu.only.envs y)⟩
  rw [hu.only.cr3, hu.only.cpunum, hl]

/-- One of them has got a page of its own. -/
theorem privatize (hx : members x) (hpriv : Privatized res fl s x d va p g fl' s') :
    Turns res members s' := by
  refine ⟨⟨fl', hpriv.run.inv⟩, ⟨x, d, hx, hpriv.run.current, hpriv.run.dir, hpriv.run.loaded⟩,
    fun y hy => ?_⟩
  by_cases hyx : y = x
  · exact ⟨d, hyx ▸ hpriv.run.alive⟩
  · exact (h.alive y hy).imp fun _ ha =>
      ha.of_same (hpriv.others y hyx) (congrFun hpriv.only.envs y)

end Turns

/-- The page that is new is mapped in one place. -/
theorem Privatized.leaf_cases (hpriv : Privatized res fl s e d va p g fl' s') (hg : g < 2 ^ 20)
    {q : Nat} (hq : s'.leaf x i j = some q) : (x = e ∧ IsPage va i j ∧ q = g) ∨
      ¬ (x = e ∧ IsPage va i j) ∧ ¬ (x = e ∧ IsPage pftemp i j) ∧ s.leaf x i j = some q := by
  by_cases hxe : x = e
  · subst hxe
    by_cases hij : IsPage va i j
    · obtain ⟨rfl, rfl⟩ := hij
      rw [leaf_eq_framed, hpriv.entry, framed_entry hg (by decide)] at hq
      exact Or.inl ⟨rfl, ⟨rfl, rfl⟩, (Option.some_inj.1 hq).symm⟩
    · by_cases htemp : IsPage pftemp i j
      · obtain ⟨rfl, rfl⟩ := htemp
        rw [leaf_eq_framed, hpriv.temp, framed_zero] at hq
        cases hq
      · refine Or.inr ⟨fun hh => hij hh.2, fun hh => htemp hh.2, ?_⟩
        rwa [leaf_eq_framed, hpriv.same i j hij htemp, ← leaf_eq_framed] at hq
  · refine Or.inr ⟨fun hh => hxe hh.1, fun hh => hxe hh.1, ?_⟩
    rwa [(hpriv.others x hxe).leaf] at hq

end Jos
