import Jos.Uvpt
import Jos.Alloc.Edit

/-!
# The whole effect of `page_insert`

`Inv.pageInsert_spec` says what a caller needs.  This file says everything: which translations
change, which counts, and what happens to the free list.

The page that was mapped before is removed first, so re-inserting a page where it is mapped already
may free it for a moment; it is then the head of the free list, and `page_insert` takes it off
again.  A missing page table comes off the same list.  `recount` and `released` are the net effect.

One translation changes besides the one asked for.  Page directories map themselves at `UVPT`, and
a new page table appears there.
-/

set_option autoImplicit false

namespace Jos

open Kernel

variable {res : Nat → Prop} {fl fl' : List Nat} {s s' : Kernel} {e : EnvIndex} {i j : Index}
variable {d t pp q : Nat} {va perm w : Word}

namespace Kernel

/-- The page an address is mapped to and the flags of its entry, under the directory in page `d`. -/
def mapping (s : Kernel) (d : Nat) (va : Word) : Option (Nat × Word) :=
  (s.walk d va).bind fun w => (framed w).map fun p => (p, w &&& 0xFFF#32)

/-- A user address is mapped to what its entry says. -/
theorem mapping_user (hd : s.dir e = some d) (hi : (pdx va).val < userPdes) :
    s.mapping d va = (framed (s.entry e (pdx va) (ptx va))).map fun p =>
      (p, s.entry e (pdx va) (ptx va) &&& 0xFFF#32) := by
  have htab := table_of_dir hd hi
  rw [mapping, walk, ← htab]
  cases ht : s.table e (pdx va) with
  | none => rw [entry_of_none ht, framed_zero]; rfl
  | some t => rw [entry_of_table ht]; rfl

/-- What `mapping` reads. -/
theorem mapping_congr (hpde : s'.mem d (pdx va) = s.mem d (pdx va))
    (hpte : ∀ t, framed (s.mem d (pdx va)) = some t → s'.mem t (ptx va) = s.mem t (ptx va)) :
    s'.mapping d va = s.mapping d va := by
  rw [mapping, mapping, walk, walk, hpde]
  cases ht : framed (s.mem d (pdx va)) with
  | none => rfl
  | some t => rw [Option.map_some, Option.map_some, hpte t ht]

end Kernel

/-- The flags of the entry built for a page. -/
theorem entry_flags (hperm : IsPerm perm) :
    (page2pa pp ||| pteP ||| perm) &&& 0xFFF#32 = perm ||| pteP := by
  have hpa : page2pa pp &&& 0xFFF#32 = 0#32 := by
    apply BitVec.eq_of_toNat_eq
    rw [BitVec.toNat_and, page2pa, BitVec.toNat_shiftLeft, Nat.shiftLeft_eq]
    refine (Nat.and_two_pow_sub_one_eq_mod _ 12).trans ?_
    show _ = 0
    omega
  have hp : perm &&& 0xFFF#32 = perm := by
    have hlt : perm.toNat < 4096 := by
      have h0 := congrArg BitVec.toNat hperm
      rw [BitVec.toNat_ushiftRight, Nat.shiftRight_eq_div_pow] at h0
      have : perm.toNat / 4096 = 0 := h0
      omega
    apply BitVec.eq_of_toNat_eq
    rw [BitVec.toNat_and]
    refine (Nat.and_two_pow_sub_one_eq_mod _ 12).trans ?_
    exact Nat.mod_eq_of_lt hlt
  have hP : pteP &&& 0xFFF#32 = pteP := by decide
  rw [BitVec.and_or_distrib_right, BitVec.and_or_distrib_right, hpa, hp, hP, BitVec.zero_or,
    BitVec.or_comm]

/-- The page tables that `page_insert` has to create. -/
def Kernel.tablesFor (s : Kernel) (e : EnvIndex) (va : Word) : Nat :=
  if s.table e (pdx va) = none then 1 else 0

theorem tablesFor_le (s : Kernel) (e : EnvIndex) (va : Word) : s.tablesFor e va ≤ 1 := by
  rw [Kernel.tablesFor]
  split
  · exact Nat.le_refl 1
  · exact Nat.zero_le 1

/-- What `page_insert` does to memory and to the free list when it returns zero. -/
structure PagePut (res : Nat → Prop) (fl : List Nat) (s : Kernel) (e : EnvIndex) (d : Nat)
    (va perm : Word) (pp : Nat) (fl' : List Nat) (s' : Kernel) : Prop where
  inv : Inv res fl' s'
  inserted : Inv.Inserted res fl s e (pdx va) (ptx va) pp perm s'
  /-- The directory stays, but for the entry of a page table that was missing. -/
  pde : ∀ i, (i = pdx va → s.table e (pdx va) ≠ none) → s'.mem d i = s.mem d i
  present : s.table e (pdx va) ≠ none →
    s'.counts = recount s.counts (s.leaf e (pdx va) (ptx va)) pp ∧
    fl' = released s.counts (s.leaf e (pdx va) (ptx va)) pp fl
  missing : s.table e (pdx va) = none →
    ∃ t, fl = t :: fl' ∧ s'.mem d (pdx va) = page2pa t ||| pteP ||| pteW ||| pteU ∧
      (∀ j, j ≠ ptx va → s'.mem t j = 0#32) ∧
      s'.counts = Function.update (recount s.counts none pp) t 1

namespace Inv

/-! ## Other translations -/

/-- The kernel half of a live directory. -/
theorem upper_mem (h : Inv res fl s) (h' : Inv res fl' s') (hf : Frame res (· = e) s s')
    (hd : s.dir e = some d) (hd' : s'.dir e = some d) (hi : ¬ i.val < userPdes) :
    s'.mem d i = s.mem d i := by
  by_cases hu : i = pdx uvpt
  · rw [hu, h.dir_self e d hd, h'.dir_self e d hd']
  · rw [h.dir_kern e d hd i hi hu, h'.dir_kern e d hd' i hi hu, hf.kernPgdir,
      hf.mem _ fun hp => hp.1 h.kern_res]

/-- When one entry of `e` is replaced and its directory stays as it is up to `gone`, all other
addresses are mapped as before, but for the page table `UVPT` shows for `gone`. -/
theorem mapping_other (h : Inv res fl s) (h' : Inv res fl' s')
    (hedit : Edited res fl s e i j w s') (hd : s.dir e = some d) (gone : Index → Prop)
    (hpde : ∀ i', ¬ gone i' → s'.mem d i' = s.mem d i')
    (hne : ¬ (pdx va = i ∧ ptx va = j)) (huvpt : pdx va = pdx uvpt → ¬ gone (ptx va)) :
    s'.mapping d va = s.mapping d va := by
  have hd' : s'.dir e = some d := (dir_of_envs hedit.memOnly.envs e).trans hd
  by_cases hi : (pdx va).val < userPdes
  · rw [mapping_user hd hi, mapping_user hd' hi, hedit.entry, setEntry,
      if_neg fun hk => hne hk.2]
  · have hpd := h.upper_mem h' hedit.frame hd hd' hi
    refine mapping_congr hpd fun t ht => ?_
    by_cases hu : pdx va = pdx uvpt
    · -- the directory serves as its own page table
      have hlt := lt_pow s (h.target_lt (k := .dir e) hd)
      rw [hu, h.dir_self e d hd, framed_entry hlt (by decide)] at ht
      obtain rfl := Option.some_inj.1 ht
      exact hpde _ (huvpt hu)
    · rw [h.dir_kern e d hd _ hi hu] at ht
      rw [hedit.frame.mem t fun hp => hp.1 (h.kern_table _ t hi hu ht)]

/-! ## The theorem -/

/-- What `page_insert` does when it returns zero: page `pp` is mapped at `va` of environment `e`,
whose directory is in page `d`, and `fl'` is now the free list. -/
structure PageInserted (res : Nat → Prop) (fl : List Nat) (s : Kernel) (e : EnvIndex) (d : Nat)
    (va perm : Word) (pp : Nat) (fl' : List Nat) (s' : Kernel) : Prop where
  /-- The allocator invariant holds. -/
  inv : Inv res fl' s'
  /-- The address is mapped as asked. -/
  mapped : s'.mapping d va = some (pp, perm ||| pteP)
  /-- Any other address of any directory is mapped as before, but for the place in `UVPT` where
  `e` sees a page table that was missing. -/
  others : ∀ e' d' va', s.dir e' = some d' → (e' = e → pgnum va' ≠ pgnum va) →
    (e' = e → pdx va' = pdx uvpt → ptx va' = pdx va → s.table e (pdx va) ≠ none) →
    s'.mapping d' va' = s.mapping d' va'
  /-- Where there was a page table, `pp` gains the reference that the page mapped before loses, and
  that page is freed if it has none left. -/
  present : s.table e (pdx va) ≠ none →
    s'.counts = recount s.counts (s.leaf e (pdx va) (ptx va)) pp ∧
    fl' = released s.counts (s.leaf e (pdx va) (ptx va)) pp fl
  /-- Where there was none, the first free page has become one. -/
  missing : s.table e (pdx va) = none →
    ∃ t, fl = t :: fl' ∧ s'.table e (pdx va) = some t ∧ (∀ j, j ≠ ptx va → s'.mem t j = 0#32) ∧
      s'.counts = Function.update (recount s.counts none pp) t 1

/-- The count of the page that is inserted. -/
theorem PageInserted.count (h : PageInserted res fl s e d va perm pp fl' s') (hpp : pp ∉ fl) :
    s'.counts pp + (if s.leaf e (pdx va) (ptx va) = some pp then 1 else 0) = s.counts pp + 1 := by
  cases ht : s.table e (pdx va) with
  | none =>
    obtain ⟨t, rfl, -, -, hc⟩ := h.missing ht
    have hne : pp ≠ t := fun hpt => hpp (hpt ▸ List.mem_cons_self)
    rw [hc, Function.update_of_ne hne, leaf_eq_none ht]
    simp [recount]
  | some t =>
    rw [(h.present (by simp [ht])).1, recount, if_pos rfl]
    split <;> rfl

/-- The free list is shorter only if a page table was missing. -/
theorem PageInserted.length (h : PageInserted res fl s e d va perm pp fl' s') :
    fl.length ≤ fl'.length + if s.table e (pdx va) = none then 1 else 0 := by
  cases ht : s.table e (pdx va) with
  | none =>
    obtain ⟨t, rfl, -⟩ := h.missing ht
    rw [if_pos rfl, List.length_cons]
  | some t =>
    rw [(h.present (by simp [ht])).2, if_neg (by simp)]
    cases s.leaf e (pdx va) (ptx va) with
    | none => exact Nat.le_refl _
    | some q =>
      rw [released]
      split
      · rw [List.length_cons]
        omega
      · exact Nat.le_refl _

/-- The translations, once the accounts are known. -/
theorem inserted_mapped (h : Inv res fl s) (h' : Inv res fl' s')
    (hins : Inserted res fl s e (pdx va) (ptx va) pp perm s') (hd : s.dir e = some d)
    (hva : va < utop) (hpp : pp < 2 ^ 20) (hperm : IsPerm perm)
    (hpde : ∀ i, (i = pdx va → s.table e (pdx va) ≠ none) → s'.mem d i = s.mem d i) :
    s'.mapping d va = some (pp, perm ||| pteP) ∧
    ∀ e' d' va', s.dir e' = some d' → (e' = e → pgnum va' ≠ pgnum va) →
      (e' = e → pdx va' = pdx uvpt → ptx va' = pdx va → s.table e (pdx va) ≠ none) →
      s'.mapping d' va' = s.mapping d' va' := by
  have hd' : s'.dir e = some d := (dir_of_envs hins.edited.memOnly.envs e).trans hd
  refine ⟨?_, fun e' d' va' hde hne huvpt => ?_⟩
  · rw [mapping_user hd' ((lt_utop_iff va).1 hva), hins.edited.entry, setEntry_self,
      framed_entry hpp hperm, Option.map_some, entry_flags hperm]
  · by_cases hee : e' = e
    · subst hee
      obtain rfl : d = d' := Option.some_inj.1 (hd.symm.trans hde)
      refine h.mapping_other h' hins.edited hd
        (fun i => i = pdx va ∧ s.table e' (pdx va) = none) (fun i hi => hpde i ?_) ?_ ?_
      · exact fun hi' hn => hi ⟨hi', hn⟩
      · rintro ⟨h1, h2⟩
        exact hne rfl (pgnum_inj h1 h2)
      · rintro hu ⟨h1, h2⟩
        exact huvpt rfl hu h1 h2
    · have hview := hins.edited.frame.sameView h hee hde
      rw [mapping, mapping, hview.walk]

/-- `page_insert` of a page that may be mapped. -/
theorem pageInsert_put (h : Inv res fl s) (hd : s.dir e = some d) (hva : va < utop)
    (hperm : IsPerm perm) (hm : Mappable res fl s e (pdx va) (ptx va) pp) :
    ((pageInsert d pp va perm).run s = .ok (-eNoMem) s ∧ fl = [] ∧ s.table e (pdx va) = none) ∨
    ∃ s' fl', (pageInsert d pp va perm).run s = .ok 0#32 s' ∧
      PagePut res fl s e d va perm pp fl' s' := by
  have htab := table_of_dir hd ((lt_utop_iff va).1 hva)
  cases ht : s.table e (pdx va) with
  | none =>
    have hnone : framed (s.mem d (pdx va)) = none := htab.symm.trans ht
    cases fl with
    | nil => exact Or.inl ⟨pageInsert_full hnone h.chain, rfl, rfl⟩
    | cons t fl' =>
      have hrun : (pageInsert d pp va perm).run s = _ :=
        pageInsert_create hnone h.chain.1 (h.free_lt List.mem_cons_self)
      obtain ⟨hinv, hcounts⟩ := h.newTable_accounts hd hva ht hm hperm
      have hdt : d ≠ t := h.free_ne (k := .dir e) List.mem_cons_self hd
      refine Or.inr ⟨_, fl', hrun, hinv, h.inserted_newTable hd hva ht pp perm, fun i hi => ?_,
        fun hn => absurd ht hn, fun _ => ⟨t, rfl, ?_, fun j hj => ?_, hcounts⟩⟩
      · have hii : i ≠ pdx va := fun hii => hi hii ht
        rw [mapAt_mem, store_mem_ne _ _ _ _ hdt, Kernel.newTable, store_mem_idx _ _ _ _ hii,
          incref_mem, fill_mem_ne _ _ _ hdt, pop_mem]
      · rw [mapAt_mem, store_mem_ne _ _ _ _ hdt, Kernel.newTable, store_mem_self]
      · rw [mapAt_mem, store_mem_idx _ _ _ _ hj, Kernel.newTable,
          store_mem_ne _ _ _ _ (Ne.symm hdt), incref_mem, fill_mem_self]
  | some t =>
    have hfound : framed (s.mem d (pdx va)) = some t := htab.symm.trans ht
    have htl : t < s.npages := h.target_lt (k := .table e (pdx va)) ht
    have hdt : d ≠ t := h.node_ne (k := .table e (pdx va)) (l := .dir e) trivial ht hd (by simp)
    cases hq : framed (s.mem t (ptx va)) with
    | none =>
      have hrun : (pageInsert d pp va perm).run s = _ := pageInsert_absent hfound htl hq
      obtain ⟨hinv, hcounts⟩ := h.absent_accounts ht hq d hm hperm
      have hleaf : s.leaf e (pdx va) (ptx va) = none := (leaf_of_table ht).trans hq
      refine Or.inr ⟨_, fl, hrun, hinv, h.inserted_absent ht hq d pp perm, fun i _ => ?_,
        fun _ => ?_, fun hn => absurd hn (by simp [ht])⟩
      · rw [mapAt_mem, store_mem_ne _ _ _ _ hdt, unfree_mem]
      · rw [hleaf]
        exact ⟨hcounts, rfl⟩
    | some q =>
      have hleaf : s.leaf e (pdx va) (ptx va) = some q := (leaf_of_table ht).trans hq
      have hql : q < s.npages := h.target_lt (k := .page e (pdx va) (ptx va)) hleaf
      have hrun : (pageInsert d pp va perm).run s = _ := pageInsert_present hfound htl hq hql
      obtain ⟨hinv, hcounts⟩ := h.present_accounts ht hq d hm hperm
      refine Or.inr ⟨_, _, hrun, hinv, h.inserted_present ht hq d pp perm, fun i _ => ?_,
        fun _ => ?_, fun hn => absurd hn (by simp [ht])⟩
      · rw [mapAt_mem, store_mem_ne _ _ _ _ hdt, unfree_mem, unmapAt_mem,
          store_mem_ne _ _ _ _ hdt]
      · rw [hleaf]
        exact ⟨hcounts, rfl⟩

end Inv

namespace PagePut

variable (hput : PagePut res fl s e d va perm pp fl' s') (hd : s.dir e = some d)
include hput hd

theorem dir : s'.dir e = some d := (dir_of_envs hput.inserted.edited.memOnly.envs e).trans hd

/-- The page tables stay. -/
theorem table {i : Index} (hi : i = pdx va → s.table e (pdx va) ≠ none) :
    s'.table e i = s.table e i := by
  by_cases hu : i.val < userPdes
  · rw [table_of_dir (hput.dir hd) hu, hput.pde i hi, table_of_dir hd hu]
  · rw [Kernel.table, Kernel.table, if_neg hu, if_neg hu]

/-- Or there is a new one. -/
theorem table_new (h : Inv res fl s) (hva : va < utop) (ht : s.table e (pdx va) = none) :
    ∃ t, fl = t :: fl' ∧ s'.table e (pdx va) = some t := by
  obtain ⟨t, hfl, hmem, -⟩ := hput.missing ht
  have hlt := Inv.lt_pow s (h.free_lt (hfl ▸ List.mem_cons_self))
  refine ⟨t, hfl, ?_⟩
  rw [table_of_dir (hput.dir hd) ((lt_utop_iff va).1 hva), hmem, framed_table hlt]

omit hd

/-- Of the pages mapped, one is new. -/
theorem target_page (hpp : pp < 2 ^ 20) (hperm : IsPerm perm) {k : Slot} (hk : ¬ k.IsNode) :
    s'.target k = if k = .page e (pdx va) (ptx va) then some pp else s.target k := by
  cases k with
  | dir e' => exact absurd trivial hk
  | table e' i => exact absurd trivial hk
  | page e' i j =>
    show s'.leaf e' i j = _
    rw [leaf_eq_framed, hput.inserted.edited.entry, setEntry]
    by_cases hkk : e' = e ∧ i = pdx va ∧ j = ptx va
    · obtain ⟨rfl, rfl, rfl⟩ := hkk
      rw [if_pos ⟨rfl, rfl, rfl⟩, if_pos rfl, framed_entry hpp hperm]
    · rw [if_neg hkk, if_neg (by simpa using hkk), ← leaf_eq_framed]
      rfl

theorem length : fl.length ≤ fl'.length + s.tablesFor e va := by
  rw [Kernel.tablesFor]
  cases ht : s.table e (pdx va) with
  | none =>
    obtain ⟨t, rfl, -⟩ := hput.missing ht
    rw [if_pos rfl, List.length_cons]
  | some t =>
    rw [(hput.present (by simp [ht])).2, if_neg (by simp)]
    cases s.leaf e (pdx va) (ptx va) with
    | none => exact Nat.le_refl _
    | some q =>
      rw [released]
      split
      · rw [List.length_cons]
        omega
      · exact Nat.le_refl _

end PagePut

namespace Inv

/-- **The whole effect of `page_insert`**, in a state that satisfies the allocator invariant, for a
page that is accounted for, neither free nor a directory or page table, and has room in its count:
it finds no page for a missing page table and changes nothing, or does what `PageInserted` says. -/
theorem pageInsert_exact (h : Inv res fl s) (hd : s.dir e = some d) (hva : va < utop)
    (hperm : IsPerm perm) (hfree : pp ∉ fl) (hres : ¬ res pp)
    (hnode : ∀ k, s.target k = some pp → ¬ k.IsNode) (hcount : s.counts pp < 65535) :
    (pageInsert d pp va perm).run s = .ok (-eNoMem) s ∨
    ∃ s' fl', (pageInsert d pp va perm).run s = .ok 0#32 s' ∧
      PageInserted res fl s e d va perm pp fl' s' := by
  have hm : Mappable res fl s e (pdx va) (ptx va) pp := ⟨hfree, hres, hnode, Or.inl hcount⟩
  have hpp := lt_pow s (h.lt_of_not_res hres)
  rcases h.pageInsert_put hd hva hperm hm with ⟨hrun, -⟩ | ⟨s', fl', hrun, hput⟩
  · exact Or.inl hrun
  · obtain ⟨hmap, hoth⟩ := h.inserted_mapped hput.inv hput.inserted hd hva hpp hperm hput.pde
    refine Or.inr ⟨s', fl', hrun, hput.inv, hmap, hoth, hput.present, fun hn => ?_⟩
    obtain ⟨t, rfl, hmem, hrest, hcounts⟩ := hput.missing hn
    obtain ⟨t', ht', htab⟩ := hput.table_new hd h hva hn
    obtain rfl : t = t' := (List.cons.inj ht').1
    exact ⟨t, rfl, htab, hrest, hcounts⟩

end Inv

/-! ## A first page -/

theorem oneEnv_mem (i : Index) : (oneEnv.pop 2).mem 1 i =
    if i = pdx uvpt then page2pa 1 ||| pteP ||| pteU else 0#32 := by
  simp [oneEnv]

theorem oneEnv_missing : framed ((oneEnv.pop 2).mem 1 (pdx utext)) = none := by
  rw [oneEnv_mem, if_neg (by decide), framed_zero]

/-- A page that has been allocated is inserted into an empty address space. -/
theorem oneEnv_insert : (pageInsert 1 2 utext (pteU ||| pteW)).run (oneEnv.pop 2) = .ok 0#32
    (((oneEnv.pop 2).newTable 1 utext 3).mapAt 1 2 utext (pteU ||| pteW) ⟨3, ptx utext⟩) :=
  pageInsert_create oneEnv_missing rfl (by decide)

theorem oneEnv_pop : Inv oneEnvRes [3] (oneEnv.pop 2) := oneEnv_inv.pop

theorem oneEnv_fresh : Inv.Fresh oneEnvRes [3] (oneEnv.pop 2) 2 := Inv.fresh_pop oneEnv_inv

theorem Inv.pageInsert_exact_oneEnv : ∃ s' fl',
    (pageInsert 1 2 utext (pteU ||| pteW)).run (oneEnv.pop 2) = .ok 0#32 s' ∧
      PageInserted oneEnvRes [3] (oneEnv.pop 2) 0 1 utext (pteU ||| pteW) 2 fl' s' := by
  have hfr := oneEnv_fresh
  have hva : utext < utop := by decide
  have hperm : IsPerm (pteU ||| pteW) := by decide
  rcases Inv.pageInsert_exact (d := 1) (e := 0) oneEnv_pop rfl hva hperm hfr.not_free hfr.not_res
    (fun k hk => absurd hk (hfr.unref k)) (by decide) with hrun | hins
  · rw [oneEnv_insert] at hrun
    cases hrun
  · exact hins

/-- **Another translation changes**: the new page table can be seen at `UVPT`, where there was
nothing. -/
theorem pageInsert_changes_uvpt : ∃ s', Inv oneEnvRes [3] (oneEnv.pop 2) ∧
    (oneEnv.pop 2).dir 0 = some 1 ∧ Inv.Fresh oneEnvRes [3] (oneEnv.pop 2) 2 ∧
    (pageInsert 1 2 utext (pteU ||| pteW)).run (oneEnv.pop 2) = .ok 0#32 s' ∧
    pgnum (uvptEntry 2048) ≠ pgnum utext ∧
    s'.mapping 1 (uvptEntry 2048) ≠ (oneEnv.pop 2).mapping 1 (uvptEntry 2048) := by
  refine ⟨_, oneEnv_pop, rfl, oneEnv_fresh, oneEnv_insert, by decide, ?_⟩
  have hpd : pdx (uvptEntry 2048) = pdx uvpt := by decide
  have hpt : ptx (uvptEntry 2048) = pdx utext := by decide
  have hself : (oneEnv.pop 2).mem 1 (pdx uvpt) = page2pa 1 ||| pteP ||| pteU := by
    rw [oneEnv_mem, if_pos rfl]
  have hframed : framed (page2pa 1 ||| pteP ||| pteU) = some 1 := by decide
  have hold : (oneEnv.pop 2).mapping 1 (uvptEntry 2048) = none := by
    rw [mapping, walk, hpd, hpt, hself, hframed, Option.map_some, Option.bind_some, oneEnv_missing]
    rfl
  rw [hold]
  intro hnew
  have hdir : ∀ i, ((oneEnv.pop 2).newTable 1 utext 3).mem 1 i =
      if i = pdx utext then page2pa 3 ||| pteP ||| pteW ||| pteU else (oneEnv.pop 2).mem 1 i := by
    intro i
    by_cases hi : i = pdx utext
    · rw [if_pos hi, hi]
      exact store_mem_self _ _ _ _
    · rw [if_neg hi, Kernel.newTable, store_mem_idx _ _ _ _ hi, incref_mem,
        fill_mem_ne _ _ _ (by decide), pop_mem]
  rw [mapping, walk, hpd, hpt, mapAt_mem, store_mem_ne _ _ _ _ (by decide), hdir,
    if_neg (by decide), hself, hframed, Option.map_some, Option.bind_some,
    store_mem_ne _ _ _ _ (by decide), hdir, if_pos rfl] at hnew
  exact absurd hnew (by decide)

end Jos
