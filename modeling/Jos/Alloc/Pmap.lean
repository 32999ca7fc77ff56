import Jos.Alloc.Frame

/-!
# The page functions keep the allocator invariant

Each update of `Jos.Pmap.Spec` is one move of the ledger: taking a page off the free list is
`take`, making it a page table or mapping it is `link`, dropping a mapping is `unlink`.  The
accounting is the library's; what is left is that the update writes only where it should.
-/

set_option autoImplicit false

namespace Jos

open Kernel

variable {res : Nat → Prop} {fl : List Nat} {s s' : Kernel}

namespace Kernel

theorem dir_of_envs (h : s'.envs = s.envs) (e : EnvIndex) : s'.dir e = s.dir e :=
  dir_congr (congrFun h e)

theorem target_of_mem (hm : s'.mem = s.mem) (he : s'.envs = s.envs) : s'.target = s.target :=
  target_congr (dir_of_envs he) (fun _ d _ i _ => by rw [hm]) fun _ _ t _ => by rw [hm]

theorem table_of_mem (hm : s'.mem = s.mem) (he : s'.envs = s.envs) (e : EnvIndex) (i : Index) :
    s'.table e i = s.table e i :=
  congrFun (target_of_mem hm he) (.table e i)

theorem links_congr (h : s'.pages = s.pages) : s'.links = s.links := by
  funext p
  simp only [links, h]

theorem counts_congr (h : s'.pages = s.pages) : s'.counts = s.counts := by
  funext p
  simp only [counts, h]

theorem links_incref (s : Kernel) (pp : Nat) : (s.incref pp).links = s.links := by
  funext p
  by_cases hp : p = pp
  · subst hp; simp [links, incref]
  · simp [links, incref, hp]

theorem links_unref (s : Kernel) (pp : Nat) : (s.unref pp).links = s.links := by
  funext p
  by_cases hp : p = pp
  · subst hp; simp [links, unref]
  · simp [links, unref, hp]

theorem links_push (s : Kernel) (pp : Nat) :
    (s.push pp).links = Function.update s.links pp s.pageFreeList := by
  funext p
  by_cases hp : p = pp
  · subst hp; simp [links, push]
  · simp [links, push, hp]

theorem counts_incref (s : Kernel) {pp : Nat} (h : s.counts pp < 65535) :
    (s.incref pp).counts = Function.update s.counts pp (s.counts pp + 1) := by
  rw [counts] at h
  funext p
  by_cases hp : p = pp
  · subst hp
    simp [counts, incref, BitVec.toNat_add]
    omega
  · simp [counts, incref, hp]

theorem counts_decref (s : Kernel) {pp : Nat} (h : 0 < s.counts pp) :
    (s.decref pp).counts = Function.update s.counts pp (s.counts pp - 1) := by
  rw [counts] at h
  have hlt := (s.pages pp).ppRef.isLt
  have hsub : ((s.pages pp).ppRef - 1#16).toNat = (s.pages pp).ppRef.toNat - 1 := by
    rw [BitVec.toNat_sub]
    simp
    omega
  funext p
  rw [decref]
  by_cases hp : p = pp
  · subst hp
    split <;> simp [counts, push, unref, hsub]
  · split <;> simp [counts, push, unref, hp]

/-- When the count is positive, `page_decref` frees the page exactly when the count was one. -/
theorem decref_free_iff {pp : Nat} (h : 0 < s.counts pp) :
    (s.pages pp).ppRef - 1#16 = 0#16 ↔ s.counts pp = 1 := by
  rw [counts] at h ⊢
  have hlt := (s.pages pp).ppRef.isLt
  rw [← BitVec.toNat_inj, BitVec.toNat_sub]
  simp
  omega

theorem chain_decref (hc : Chain s.links s.pageFreeList fl) {pp : Nat} (hpp : pp ∉ fl)
    (h : 0 < s.counts pp) :
    Chain (s.decref pp).links (s.decref pp).pageFreeList
      (if s.counts pp = 1 then pp :: fl else fl) := by
  rw [decref]
  by_cases h1 : s.counts pp = 1
  · rw [if_pos h1, if_pos ((decref_free_iff h).2 h1), links_push, links_unref]
    exact hc.push hpp
  · rw [if_neg h1, if_neg (fun h0 => h1 ((decref_free_iff h).1 h0)), links_unref]
    exact hc

end Kernel

namespace Inv

/-- An update of the page functions keeps the invariant when it keeps the accounts, leaves the
reserved pages and the kernel half of every directory alone, and writes no junk. -/
theorem of_accounts (h : Inv res fl s) {fl' : List Nat} (henvs : s'.envs = s.envs)
    (hlist : s'.envFreeList = s.envFreeList) (hnp : s'.npages = s.npages)
    (hkern : s'.kernPgdir = s.kernPgdir) (hchain : Chain s'.links s'.pageFreeList fl')
    (hok : (s'.ledger fl').Ok Slot.IsNode res) (hres : ∀ p, res p → s'.mem p = s.mem p)
    (hupper : ∀ e d, s.dir e = some d → ∀ i : Index, ¬ i.val < userPdes →
      s'.mem d i = s.mem d i)
    (hpde : ∀ e d, s.dir e = some d → ∀ i : Index, i.val < userPdes →
      framed (s'.mem d i) = none → s'.mem d i = 0#32)
    (hpte : ∀ e i t, s'.table e i = some t → ∀ j, framed (s'.mem t j) = none →
      s'.mem t j = 0#32) : Inv res fl' s' := by
  have hdir : ∀ {e d}, s'.dir e = some d → s.dir e = some d := by
    intro e d hd
    rwa [dir_of_envs henvs] at hd
  refine
    { chain := hchain
      ok := hok
      res_ge := fun p hp => h.res_ge p (hnp ▸ hp)
      zero_pde := fun e d hd => hpde e d (hdir hd)
      zero_pte := hpte
      live_dir := fun e => by rw [henvs]; exact h.live_dir e
      kern_res := by rw [hkern]; exact h.kern_res
      kern_user := fun i hi => by rw [hkern, hres _ h.kern_res]; exact h.kern_user i hi
      kern_table := fun i t => by rw [hkern, hres _ h.kern_res]; exact h.kern_table i t
      dir_kern := fun e d hd i hi hne => by
        rw [hkern, hres _ h.kern_res, hupper e d (hdir hd) i hi]
        exact h.dir_kern e d (hdir hd) i hi hne
      dir_self := fun e d hd => by
        rw [hupper e d (hdir hd) _ (by decide)]
        exact h.dir_self e d (hdir hd)
      env_list := by rw [henvs, hlist]; exact h.env_list }

/-- Updates that touch neither memory nor environments keep everything but the accounts. -/
theorem of_mem (h : Inv res fl s) {fl' : List Nat} (hmem : s'.mem = s.mem)
    (henvs : s'.envs = s.envs) (hlist : s'.envFreeList = s.envFreeList)
    (hnp : s'.npages = s.npages) (hkern : s'.kernPgdir = s.kernPgdir)
    (hchain : Chain s'.links s'.pageFreeList fl') (hok : (s'.ledger fl').Ok Slot.IsNode res) :
    Inv res fl' s' := by
  refine h.of_accounts henvs hlist hnp hkern hchain hok (fun p _ => by rw [hmem])
    (fun e d _ i _ => by rw [hmem]) (fun e d hd i hi => ?_) fun e i t ht => ?_
  · rw [hmem]; exact h.zero_pde e d hd i hi
  · rw [table_of_mem hmem henvs] at ht
    rw [hmem]; exact h.zero_pte e i t ht

/-! ## Taking a page off the free list -/

theorem pop {pp : Nat} (h : Inv res (pp :: fl) s) : Inv res fl (s.pop pp) := by
  refine h.of_mem rfl rfl rfl rfl rfl h.chain.2 ?_
  have hl : (s.pop pp).ledger fl = (s.ledger (pp :: fl)).take := by
    rw [ledger, ledger, Ledger.take, target_of_mem (pop_mem s pp) (pop_envs s pp)]
    rfl
  rw [hl]
  exact h.ok.take

/-- What is known of the page `page_alloc` returns. -/
structure Fresh (res : Nat → Prop) (fl : List Nat) (s : Kernel) (pp : Nat) : Prop where
  not_free : pp ∉ fl
  not_res : ¬ res pp
  unref : ∀ k, s.target k ≠ some pp
  count : (s.pages pp).ppRef = 0#16

theorem fresh_pop {pp : Nat} (h : Inv res (pp :: fl) s) : Fresh res fl (s.pop pp) pp where
  not_free := (List.nodup_cons.1 h.ok.nodup).1
  not_res := h.ok.free_res pp (by simp [ledger])
  unref k := by
    rw [target_of_mem (pop_mem s pp) (pop_envs s pp)]
    exact h.ok.free_unref pp (by simp [ledger]) k
  count := by
    have := h.ok.ref_free (f := pp) (by simp [ledger])
    exact BitVec.eq_of_toNat_eq this

/-- Overwriting a page that is no directory and no page table. -/
theorem fill (h : Inv res fl s) {pp : Nat} (hres : ¬ res pp)
    (hun : ∀ k, k.IsNode → s.target k ≠ some pp) (pg : Page) : Inv res fl (s.fill pp pg) := by
  have htgt := h.target_fill hun pg
  have hne : ∀ {k p}, k.IsNode → s.target k = some p → p ≠ pp := by
    rintro k p hn hk rfl
    exact hun k hn hk
  have htable : ∀ e i, (s.fill pp pg).table e i = s.table e i := fun e i =>
    congrFun htgt (.table e i)
  refine h.of_accounts rfl rfl rfl rfl h.chain ?_ (fun p hp => ?_) (fun e d hd i _ => ?_)
    (fun e d hd i hi => ?_) fun e i t ht => ?_
  · rw [ledger, htgt]; exact h.ok
  · exact fill_mem_ne _ _ _ fun hpp => hres (hpp ▸ hp)
  · rw [fill_mem_ne _ _ _ (hne (k := .dir e) trivial hd)]
  · rw [fill_mem_ne _ _ _ (hne (k := .dir e) trivial hd)]; exact h.zero_pde e d hd i hi
  · rw [htable] at ht
    rw [fill_mem_ne _ _ _ (hne (k := .table e i) trivial ht)]; exact h.zero_pte e i t ht

theorem Fresh.fill (h : Inv res fl s) {pp : Nat} (hf : Fresh res fl s pp) (pg : Page) :
    Fresh res fl (s.fill pp pg) pp where
  not_free := hf.not_free
  not_res := hf.not_res
  unref k := by rw [h.target_fill (fun k _ => hf.unref k) pg]; exact hf.unref k
  count := hf.count

/-! ## Mapping and unmapping -/

/-- Writing an entry of a page table writes to no page but that page table. -/
theorem store_leaf (h : Inv res fl s) {e : EnvIndex} {i : Index} {t : Nat}
    (ht : s.table e i = some t) {j : Index} {w : Word} (hw : framed w = none → w = 0#32)
    (hmem : s'.mem = (s.store t j w).mem) (henvs : s'.envs = s.envs)
    (hlist : s'.envFreeList = s.envFreeList) (hnp : s'.npages = s.npages)
    (hkern : s'.kernPgdir = s.kernPgdir) {fl' : List Nat}
    (hchain : Chain s'.links s'.pageFreeList fl') (hok : (s'.ledger fl').Ok Slot.IsNode res) :
    Inv res fl' s' := by
  have hdt : ∀ {e' d}, s.dir e' = some d → d ≠ t := fun {e' d} hd =>
    h.node_ne (k := .table e i) (l := .dir e') trivial ht hd (by simp)
  refine h.of_accounts henvs hlist hnp hkern hchain hok (fun p hp => ?_) (fun e' d hd i' _ => ?_)
    (fun e' d hd i' hi' => ?_) fun e' i' t' ht' => ?_
  · have hne : p ≠ t := fun hpt => h.target_res (k := .table e i) ht (hpt ▸ hp)
    rw [hmem, store_mem_ne _ _ _ _ hne]
  · rw [hmem, store_mem_ne _ _ _ _ (hdt hd)]
  · rw [hmem, store_mem_ne _ _ _ _ (hdt hd)]; exact h.zero_pde e' d hd i' hi'
  · rw [hmem]
    have hold : s.table e' i' = some t' := by
      have := congrFun (h.target_store_leaf ht j w) (.table e' i')
      rw [Function.update_of_ne (by simp)] at this
      rw [← ht']
      exact this.symm.trans (table_of_mem (s := s.store t j w) hmem henvs e' i').symm
    intro j'
    by_cases htt : t' = t
    · subst htt
      by_cases hjj : j' = j
      · subst hjj; rw [store_mem_self]; exact hw
      · rw [store_mem_idx _ _ _ _ hjj]; exact h.zero_pte e' i' t' hold j'
    · rw [store_mem_ne _ _ _ _ htt]; exact h.zero_pte e' i' t' hold j'

theorem mapAt_target (h : Inv res fl s) {e : EnvIndex} {i : Index} {t : Nat}
    (ht : s.table e i = some t) (d pp : Nat) (va perm : Word) (j : Index) (hpp : pp < 2 ^ 20)
    (hperm : IsPerm perm) :
    (s.mapAt d pp va perm ⟨t, j⟩).target = Function.update s.target (.page e i j) (some pp) := by
  rw [← framed_entry hpp hperm, ← h.target_store_leaf ht j]
  exact target_of_mem (mapAt_mem ..) (mapAt_envs ..)

/-- Mapping a page at an empty entry. -/
theorem mapAt (h : Inv res fl s) {e : EnvIndex} {i : Index} {t : Nat}
    (ht : s.table e i = some t) {j : Index} (hempty : s.leaf e i j = none) {pp : Nat}
    (hfree : pp ∉ fl) (hres : ¬ res pp) (hnode : ∀ k, s.target k = some pp → ¬ k.IsNode)
    (hcount : s.counts pp < 65535) (d : Nat) (va : Word) {perm : Word}
    (hperm : IsPerm perm) : Inv res fl (s.mapAt d pp va perm ⟨t, j⟩) := by
  have hpp := lt_pow s (h.lt_of_not_res hres)
  refine h.store_leaf ht (j := j) (w := page2pa pp ||| pteP ||| perm) (fun hn => ?_)
    (mapAt_mem ..) (mapAt_envs ..) (mapAt_envFreeList ..) (mapAt_npages ..)
    (mapAt_kernPgdir ..) ?_ ?_
  · rw [framed_entry hpp hperm] at hn
    exact absurd hn (by simp)
  · rw [links_congr (mapAt_pages ..), links_incref, mapAt_pageFreeList]
    exact h.chain
  · have hl : (s.mapAt d pp va perm ⟨t, j⟩).ledger fl = (s.ledger fl).link (.page e i j) pp := by
      rw [ledger, h.mapAt_target ht d pp va perm j hpp hperm, counts_congr (mapAt_pages ..),
        counts_incref s hcount]
      rfl
    rw [hl]
    exact h.ok.link hempty hfree hres fun k hk => ⟨hnode k hk, id⟩

theorem unmapAt_target (h : Inv res fl s) {e : EnvIndex} {i : Index} {t : Nat}
    (ht : s.table e i = some t) (d q : Nat) (va : Word) (j : Index) :
    (s.unmapAt d q va ⟨t, j⟩).target = Function.update s.target (.page e i j) none := by
  rw [← framed_zero, ← h.target_store_leaf ht j]
  exact target_of_mem (unmapAt_mem ..) (unmapAt_envs ..)

theorem counts_pos (h : Inv res fl s) {k : Slot} {q : Nat} (hq : s.target k = some q) :
    0 < s.counts q := by
  have hc : s.counts q = Ledger.refs s.target q := h.ok.ref_eq q (h.target_res hq)
  rw [hc]
  exact Ledger.refs_pos hq

/-- The accounts once the mapping at an entry has been dropped. -/
theorem unmapAt_ledger (h : Inv res fl s) {e : EnvIndex} {i : Index} {t : Nat}
    (ht : s.table e i = some t) {j : Index} {q : Nat} (hq : s.leaf e i j = some q) (d : Nat)
    (va : Word) :
    (s.unmapAt d q va ⟨t, j⟩).ledger (if s.counts q = 1 then q :: fl else fl) =
      (s.ledger fl).unlink (.page e i j) q := by
  rw [ledger, h.unmapAt_target ht d q va j, counts_congr (unmapAt_pages ..),
    counts_decref s (h.counts_pos (k := .page e i j) hq)]
  rfl

/-- Dropping the mapping at an entry. -/
theorem unmapAt (h : Inv res fl s) {e : EnvIndex} {i : Index} {t : Nat}
    (ht : s.table e i = some t) {j : Index} {q : Nat} (hq : s.leaf e i j = some q) (d : Nat)
    (va : Word) :
    Inv res (if s.counts q = 1 then q :: fl else fl) (s.unmapAt d q va ⟨t, j⟩) := by
  have hpos : 0 < s.counts q := h.counts_pos (k := .page e i j) hq
  have hnot : q ∉ fl := fun hf => h.ok.free_unref q hf (.page e i j) hq
  refine h.store_leaf ht (j := j) (w := 0#32) (fun _ => rfl) (unmapAt_mem ..) (unmapAt_envs ..)
    (unmapAt_envFreeList ..) (unmapAt_npages ..) (unmapAt_kernPgdir ..) ?_ ?_
  · rw [links_congr (unmapAt_pages ..), unmapAt_pageFreeList]
    exact chain_decref h.chain hnot hpos
  · rw [h.unmapAt_ledger ht hq d va]
    exact h.ok.unlink hq

/-! ## Page tables -/

/-- Making a fresh, zeroed page the page table at an empty directory entry. -/
theorem link_table (h : Inv res fl s) {e : EnvIndex} {d : Nat} (hd : s.dir e = some d)
    {i : Index} (hi : i.val < userPdes) (hnone : framed (s.mem d i) = none) {pp : Nat}
    (hf : Fresh res fl s pp) (hz : ∀ j, s.mem pp j = 0#32) {w : Word} (hw : framed w = some pp) :
    Inv res fl ((s.incref pp).store d i w) ∧
      ((s.incref pp).store d i w).target = Function.update s.target (.table e i) (some pp) ∧
      ((s.incref pp).store d i w).entry = s.entry := by
  have htab : s.table e i = none := by rw [table_of_dir hd hi, hnone]
  have hppd : pp ≠ d := fun hpd => hf.unref (.dir e) (hpd ▸ hd)
  have htgt : ((s.incref pp).store d i w).target =
      Function.update s.target (.table e i) (some pp) := by
    rw [← hw, ← h.target_store_pde hd hi w (fun j => leaf_eq_none htab j) fun t ht => ?_]
    · exact target_of_mem rfl rfl
    · obtain rfl : pp = t := Option.some_inj.1 (hw.symm.trans ht)
      exact ⟨hppd, fun j => by rw [hz, framed_zero]⟩
  have htable : ∀ e' i', ((s.incref pp).store d i w).table e' i' =
      if e' = e ∧ i' = i then some pp else s.table e' i' := by
    intro e' i'
    have := congrFun htgt (.table e' i')
    simpa [Function.update_apply, target] using this
  have hmem : ∀ p, p ≠ d → ((s.incref pp).store d i w).mem p = s.mem p := fun p hp =>
    store_mem_ne _ _ _ _ hp
  have hidx : ∀ i', i' ≠ i → ((s.incref pp).store d i w).mem d i' = s.mem d i' := fun i' hi' =>
    store_mem_idx _ _ _ _ hi'
  have htd : ∀ {e' i' t}, s.table e' i' = some t → t ≠ d := fun {e' i' t} ht =>
    h.node_ne (k := .dir e) (l := .table e' i') trivial hd ht (by simp)
  refine ⟨?_, htgt, ?_⟩
  · refine h.of_accounts rfl rfl rfl rfl ?_ ?_ (fun p hp => hmem p ?_) (fun e' d' hd' i' hi' => ?_)
      (fun e' d' hd' i' hi' => ?_) fun e' i' t ht j => ?_
    · rw [links_congr (store_pages ..), links_incref]
      exact h.chain
    · have hc : s.counts pp < 65535 := by
        rw [counts, hf.count]
        decide
      have hl : ((s.incref pp).store d i w).ledger fl = (s.ledger fl).link (.table e i) pp := by
        rw [ledger, htgt, counts_congr (store_pages ..), counts_incref s hc]
        rfl
      rw [hl]
      exact h.ok.link htab hf.not_free hf.not_res fun k hk => absurd hk (hf.unref k)
    · exact fun hpd => h.target_res (k := .dir e) hd (hpd ▸ hp)
    · by_cases hdd : d' = d
      · subst hdd
        exact hidx i' fun hii => hi' (hii ▸ hi)
      · rw [hmem d' hdd]
    · by_cases hdd : d' = d
      · subst hdd
        by_cases hii : i' = i
        · subst hii
          rw [store_mem_self, hw]
          exact fun hn => absurd hn (by simp)
        · rw [hidx i' hii]
          exact h.zero_pde e d' hd i' hi'
      · rw [hmem d' hdd]
        exact h.zero_pde e' d' hd' i' hi'
    · rw [htable] at ht
      by_cases hk : e' = e ∧ i' = i
      · rw [if_pos hk] at ht
        cases ht
        rw [hmem pp hppd, hz]
        exact fun _ => rfl
      · rw [if_neg hk] at ht
        rw [hmem t (htd ht)]
        exact h.zero_pte e' i' t ht j
  · funext e' i' j
    have ht := htable e' i'
    by_cases hk : e' = e ∧ i' = i
    · rw [if_pos hk] at ht
      obtain ⟨rfl, rfl⟩ := hk
      rw [entry_of_table ht, entry_of_none htab, hmem pp hppd, hz]
    · rw [if_neg hk] at ht
      cases ht' : s.table e' i' with
      | none => rw [entry_of_none ht', entry_of_none (ht.trans ht')]
      | some t' => rw [entry_of_table ht', entry_of_table (ht.trans ht'), hmem t' (htd ht')]

end Inv

end Jos
