import Jos.Alloc.Env

/-!
# `env_free` keeps the allocator invariant

`env_free` unmaps every page of a page table, then drops the page table, then goes on to the next
one, and at last drops the directory.  The invariant of the inner loop says which entries are gone,
that of the outer loop which page tables are; both hold together with the allocator invariant, so
that no step of the teardown can panic.
-/

set_option autoImplicit false

namespace Jos

open Kernel Command

variable {res : Nat → Prop} {fl : List Nat} {s s' : Kernel} {e : EnvIndex} {i : Index}
variable {d t : Nat}

namespace Inv

theorem counts_node (h : Inv res fl s) {k : Slot} (hn : k.IsNode) {p : Nat}
    (hk : s.target k = some p) : s.counts p = 1 := by
  have h1 : s.counts p = Ledger.refs s.target p := h.ok.ref_eq p (h.target_res hk)
  rw [h1]
  exact h.ok.refs_node hn hk

/-! ## Dropping a page table -/

/-- Dropping a page table that maps nothing. -/
theorem dropTable (h : Inv res fl s) (hd : s.dir e = some d) (hi : i.val < userPdes)
    (ht : s.table e i = some t) (hz : ∀ j, s.mem t j = 0#32) :
    Inv res (t :: fl) ((s.store d i 0#32).decref t) ∧
      ((s.store d i 0#32).decref t).target = Function.update s.target (.table e i) none ∧
      ((s.store d i 0#32).decref t).ledger (t :: fl) = (s.ledger fl).unlink (.table e i) t := by
  have hleaf : ∀ j, s.leaf e i j = none := fun j => by rw [leaf_of_table ht, hz, framed_zero]
  have htgt : ((s.store d i 0#32).decref t).target =
      Function.update s.target (.table e i) none := by
    rw [← framed_zero, ← h.target_store_pde hd hi 0#32 hleaf fun t ht => ?_]
    · exact target_of_mem (decref_mem ..) (decref_envs ..)
    · rw [framed_zero] at ht
      exact absurd ht (by simp)
  have hc : s.counts t = 1 := h.counts_node (k := .table e i) trivial ht
  have hc' : (s.store d i 0#32).counts t = 1 := hc
  have hnot : t ∉ fl := fun hf => h.ok.free_unref t hf (.table e i) ht
  have hmem : ∀ p, p ≠ d → ((s.store d i 0#32).decref t).mem p = s.mem p := fun p hp => by
    rw [decref_mem, store_mem_ne _ _ _ _ hp]
  have hidx : ∀ i', i' ≠ i → ((s.store d i 0#32).decref t).mem d i' = s.mem d i' := fun i' hi' => by
    rw [decref_mem, store_mem_idx _ _ _ _ hi']
  have hl : ((s.store d i 0#32).decref t).ledger (t :: fl) =
      (s.ledger fl).unlink (.table e i) t := by
    have h1 : (s.ledger fl).ref t = 1 := hc
    rw [ledger, htgt, counts_decref (s.store d i 0#32) (by rw [hc']; decide), Ledger.unlink,
      if_pos h1]
    rfl
  refine ⟨h.of_accounts (by simp) (by simp) (by simp) (by simp) ?_ ?_ (fun p hp => hmem p ?_)
    (fun e' d' hd' i' hi' => ?_) (fun e' d' hd' i' hi' => ?_) fun e' i' t' ht' j => ?_, htgt, hl⟩
  · have hchain := chain_decref (s := s.store d i 0#32) h.chain hnot (by rw [hc']; decide)
    rwa [if_pos hc'] at hchain
  · rw [hl]
    exact h.ok.unlink ht
  · exact fun hpd => h.target_res (k := .dir e) hd (hpd ▸ hp)
  · by_cases hdd : d' = d
    · subst hdd
      exact hidx i' fun hii => hi' (hii ▸ hi)
    · rw [hmem d' hdd]
  · by_cases hdd : d' = d
    · subst hdd
      by_cases hii : i' = i
      · subst hii
        rw [decref_mem, store_mem_self]
        exact fun _ => rfl
      · rw [hidx i' hii]
        exact h.zero_pde e d' hd i' hi'
    · rw [hmem d' hdd]
      exact h.zero_pde e' d' hd' i' hi'
  · have htab : s.table e' i' = some t' := by
      have := congrFun htgt (.table e' i')
      by_cases hk : (Slot.table e' i') = .table e i
      · rw [hk, Function.update_self] at this
        obtain ⟨rfl, rfl⟩ : e' = e ∧ i' = i := by simpa using hk
        exact absurd (this.symm.trans ht') (by simp)
      · rw [Function.update_of_ne hk] at this
        exact this.symm.trans ht'
    have hne : t' ≠ d := h.node_ne (k := .dir e) (l := .table e' i') trivial hd htab (by simp)
    rw [hmem t' hne]
    exact h.zero_pte e' i' t' htab j

/-! ## The inner loop -/

/-- A page that is no page directory and no page table does not become one, and its contents
stay. -/
def OffNodes (s s' : Kernel) : Prop :=
  ∀ p, (∀ k : Slot, k.IsNode → s.target k ≠ some p) →
    s'.mem p = s.mem p ∧ ∀ k : Slot, k.IsNode → s'.target k ≠ some p

theorem OffNodes.trans {s'' : Kernel} (h : OffNodes s s') (h' : OffNodes s' s'') :
    OffNodes s s'' := by
  intro p hp
  obtain ⟨hmem, hnode⟩ := h p hp
  obtain ⟨hmem', hnode'⟩ := h' p hnode
  exact ⟨hmem'.trans hmem, hnode'⟩

/-- Writing to a page directory or page table, without making a new one. -/
theorem OffNodes.of_write {k : Slot} {q : Nat} (hn : k.IsNode) (hk : s.target k = some q)
    (hmem : ∀ p, p ≠ q → s'.mem p = s.mem p)
    (htgt : ∀ l : Slot, l.IsNode → s'.target l = s.target l ∨ s'.target l = none) :
    OffNodes s s' := by
  intro p hp
  refine ⟨hmem p fun hpq => hp k hn (hpq ▸ hk), fun l hl hlp => ?_⟩
  rcases htgt l hl with h | h
  · exact hp l hl (h.symm.trans hlp)
  · exact absurd (h.symm.trans hlp) (by simp)

/-- In the course of freeing `e`: the accounts are in order and have lost nothing but references of
`e`, only `e` is concerned, and its page directory and page tables are still there, up to those in
`gone`. -/
structure Freeing (res : Nat → Prop) (fl : List Nat) (s : Kernel) (e : EnvIndex) (d : Nat)
    (gone : Index → Prop) (s' : Kernel) : Prop where
  inv : ∃ fl', Inv res fl' s' ∧ (s.ledger fl).Shed (s'.ledger fl')
  frame : Frame res (· = e) s s'
  dir : s'.dir e = some d
  memOnly : MemOnly s s'
  table : ∀ i, gone i → s'.table e i = none
  other : OffNodes s s'

/-- One round of the inner loop: entry `j` is gone. -/
theorem envFreePte_spec {gone : Index → Prop} {pre : List Index} (hi : i.val < userPdes)
    (j : Index) :
    Triple
      (fun s' => Freeing res fl s e d gone s' ∧ s'.table e i = some t ∧
        ∀ j ∈ pre, s'.mem t j = 0#32)
      (envFreePte d t i j)
      (fun _ s' => Freeing res fl s e d gone s' ∧ s'.table e i = some t ∧
        ∀ j' ∈ pre ++ [j], s'.mem t j' = 0#32)
      fun _ _ => False := by
  rintro s₁ ⟨hfr, ht, hz⟩
  obtain ⟨fl₁, h, hshed⟩ := hfr.inv
  simp only [envFreePte, loadWord, EStateM.run_bind, EStateM.run_get, EStateM.run_pure]
  have hlast : ∀ {s' : Kernel}, (∀ j' ∈ pre, s'.mem t j' = 0#32) → s'.mem t j = 0#32 →
      ∀ j' ∈ pre ++ [j], s'.mem t j' = 0#32 := by
    intro s' h1 h2 j' hj'
    rcases List.mem_append.1 hj' with hj' | hj'
    · exact h1 j' hj'
    · rw [List.mem_singleton.1 hj']
      exact h2
  by_cases hp : s₁.mem t j &&& pteP = 0#32
  · -- an absent entry is already zero
    rw [if_neg (by simpa using hp)]
    have hj : s₁.mem t j = 0#32 := h.zero_pte e i t ht j (framed_eq_none.2 hp)
    exact ⟨hfr, ht, hlast hz hj⟩
  · rw [if_pos hp]
    have hva : pgaddr i j 0#32 < utop := (lt_utop_iff _).2 (by rwa [pdx_pgaddr])
    have ht' : s₁.table e (pdx (pgaddr i j 0#32)) = some t := by rwa [pdx_pgaddr]
    have hrun := h.pageRemove_some hfr.dir hva ht'
    rw [ptx_pgaddr] at hrun
    obtain ⟨q, hq⟩ : ∃ q, pgnum (pteAddr (s₁.mem t j)) = q := ⟨_, rfl⟩
    have hleaf : s₁.leaf e i j = some q := by
      rw [leaf_of_table ht, ← hq]
      exact framed_eq_some.2 ⟨hp, rfl⟩
    rw [hq] at hrun
    have hedit := h.unmapAt_edited ht d q (pgaddr i j 0#32) j
    have htgt := h.unmapAt_target ht d q (pgaddr i j 0#32) j
    have htab : ∀ i', (s₁.unmapAt d q (pgaddr i j 0#32) ⟨t, j⟩).table e i' = s₁.table e i' := by
      intro i'
      have := congrFun htgt (.table e i')
      rwa [Function.update_of_ne (by simp)] at this
    have hshed' := hshed.unlink (k := .page e i j) hleaf
      (h.counts_pos (k := .page e i j) hleaf)
    rw [← h.unmapAt_ledger ht hleaf d (pgaddr i j 0#32)] at hshed'
    rw [hrun]
    refine ⟨⟨⟨_, h.unmapAt ht hleaf d _, hshed'⟩, hfr.frame.trans hedit.frame,
      (dir_of_envs (unmapAt_envs ..) e).trans hfr.dir,
      MemOnly.trans _ _ _ hfr.memOnly hedit.memOnly,
      fun i' hi' => (htab i').trans (hfr.table i' hi'), hfr.other.trans ?_⟩, (htab i).trans ht, ?_⟩
    · refine OffNodes.of_write (k := .table e i) trivial ht (fun p hp => ?_) fun l hl => Or.inl ?_
      · rw [unmapAt_mem, store_mem_ne _ _ _ _ hp]
      · rw [htgt, Function.update_of_ne]
        rintro rfl
        exact hl
    refine hlast (fun j' hj' => ?_) ?_
    · rw [unmapAt_mem]
      by_cases hjj : j' = j
      · rw [hjj]
        exact store_mem_self _ _ _ _
      · rw [store_mem_idx _ _ _ _ hjj]
        exact hz j' hj'
    · rw [unmapAt_mem]
      exact store_mem_self _ _ _ _

/-! ## The outer loop -/

/-- One round of the outer loop: page table `i` is gone. -/
theorem envFreePde_spec {gone : Index → Prop} (hi : i.val < userPdes) :
    Triple (Freeing res fl s e d gone) (envFreePde e i)
      (fun _ => Freeing res fl s e d fun i' => gone i' ∨ i' = i) fun _ _ => False := by
  intro s₁ hfr
  obtain ⟨fl₁, h, -⟩ := hfr.inv
  have hpg : (s₁.envs e).envPgdir = some d := by
    have hd := hfr.dir
    rw [dir] at hd
    split at hd
    · exact absurd hd (by simp)
    · exact hd
  have htab := table_of_dir hfr.dir hi
  simp only [envFreePde, EStateM.run_bind, EStateM.run_get, hpg, derefPgdir, EStateM.run_pure,
    loadWord]
  by_cases hp : s₁.mem d i &&& pteP = 0#32
  · rw [if_neg (by simpa using hp)]
    refine ⟨hfr.inv, hfr.frame, hfr.dir, hfr.memOnly, fun i' hi' => ?_, hfr.other⟩
    rcases hi' with hi' | rfl
    · exact hfr.table i' hi'
    · rw [htab, framed_eq_none.2 hp]
  · rw [if_pos hp]
    obtain ⟨t, ht⟩ : ∃ t, framed (s₁.mem d i) = some t := ⟨_, framed_eq_some.2 ⟨hp, rfl⟩⟩
    obtain ⟨-, hpt⟩ := framed_eq_some.1 ht
    have htl : t < s₁.npages := h.target_lt (k := .table e i) (htab.trans ht)
    have hk : (kaddr (pteAddr (s₁.mem d i))).run s₁ = .ok t s₁ := by
      rw [kaddr_run (by rwa [hpt]), hpt]
    obtain ⟨l, hl, hmem⟩ : ∃ l, indices = l ∧ ∀ j, j ∈ l :=
      ⟨_, rfl, mem_indices⟩
    have hloop := Triple.forM_prefix (E := fun _ _ => False)
      (I := fun pre s' => Freeing res fl s e d gone s' ∧ s'.table e i = some t ∧
        ∀ j ∈ pre, s'.mem t j = 0#32)
      (f := envFreePte d t i) l (fun pre j _ _ => envFreePte_spec hi j) s₁
      ⟨hfr, htab.trans ht, by simp⟩
    rw [hl, EStateM.run_bind, hk]
    dsimp only
    rw [EStateM.run_bind]
    cases hr : EStateM.run (l.forM (envFreePte d t i)) s₁ with
    | error x s₂ =>
      rw [hr] at hloop
      exact hloop.elim
    | ok a s₂ =>
      rw [hr] at hloop
      obtain ⟨hfr₂, ht₂, hz⟩ := hloop
      obtain ⟨fl₂, h₂, hshed⟩ := hfr₂.inv
      have hz' : ∀ j, s₂.mem t j = 0#32 := fun j => hz j (hmem j)
      obtain ⟨hinv, htgt, hledger⟩ := h₂.dropTable hfr₂.dir hi ht₂ hz'
      have hshed' := hshed.unlink (k := .table e i) ht₂ (h₂.counts_pos (k := .table e i) ht₂)
      rw [← hledger] at hshed'
      have hnp : pgnum (pteAddr (s₁.mem d i)) < s₂.npages := by
        rw [hpt]
        exact h₂.target_lt (k := .table e i) ht₂
      dsimp only
      have hpa : (pa2page (pteAddr (s₁.mem d i))).run (s₂.store d i 0#32) =
          .ok t (s₂.store d i 0#32) := by
        rw [pa2page_run (s := s₂.store d i 0#32) hnp, hpt]
      simp only [EStateM.run_bind, storeWord, EStateM.run_modify, hpa, pageDecref_run]
      have hmo : MemOnly s₂ ((s₂.store d i 0#32).decref t) :=
        MemOnly.trans _ (s₂.store d i 0#32) _ rfl (decref_memOnly _ t)
      refine ⟨⟨_, hinv, hshed'⟩, hfr₂.frame.trans ?_, (dir_of_envs hmo.envs e).trans hfr₂.dir,
        MemOnly.trans _ _ _ hfr₂.memOnly hmo, fun i' hi' => ?_, hfr₂.other.trans ?_⟩
      · refine Frame.of_page (f := d) (h₂.private_node (k := .dir e) trivial hfr₂.dir rfl)
          (fun p hp => ?_) hmo.envs hmo.kernPgdir hmo.npages
        rw [decref_mem, store_mem_ne _ _ _ _ hp]
      · have := congrFun htgt (.table e i')
        by_cases hii : i' = i
        · subst hii
          rwa [Function.update_self] at this
        · rw [Function.update_of_ne (by simpa using hii)] at this
          rcases hi' with hi' | hi'
          · exact this.trans (hfr₂.table i' hi')
          · exact absurd hi' hii
      · refine OffNodes.of_write (k := .dir e) trivial hfr₂.dir (fun p hp => ?_) fun l _ => ?_
        · rw [decref_mem, store_mem_ne _ _ _ _ hp]
        · rw [htgt]
          by_cases hl : l = .table e i
          · rw [hl, Function.update_self]
            exact Or.inr rfl
          · rw [Function.update_of_ne hl]
            exact Or.inl rfl

end Inv

/-! ## Dropping the directory -/

namespace Kernel

/-- The state after the last steps of `env_free`. -/
def dropEnv (s : Kernel) (e : EnvIndex) (d : Nat) : Kernel :=
  { s.decref d with
    envs := Function.update s.envs e (s.freedEnv e)
    envFreeList := some e }

theorem decref_setEnv (s : Kernel) (e : EnvIndex) (env : Env) (d : Nat) :
    (s.setEnv e env).decref d = (s.decref d).setEnv e env := by
  by_cases h : (s.pages d).ppRef - 1#16 = 0#16
  · rw [decref, decref, setEnv_pages, if_pos h, if_pos h]
    rfl
  · rw [decref, decref, setEnv_pages, if_neg h, if_neg h]
    rfl

variable (s : Kernel) (e : EnvIndex) (d : Nat)

theorem dropEnv_envs : (s.dropEnv e d).envs = Function.update s.envs e (s.freedEnv e) := rfl
theorem dropEnv_mem : (s.dropEnv e d).mem = s.mem := decref_mem s d
theorem dropEnv_npages : (s.dropEnv e d).npages = s.npages := decref_npages s d
theorem dropEnv_kernPgdir : (s.dropEnv e d).kernPgdir = s.kernPgdir := decref_kernPgdir s d

end Kernel

namespace Inv

theorem dropEnv_target (d : Nat) (htab : ∀ i, s.table e i = none) :
    (s.dropEnv e d).target = Function.update s.target (.dir e) none := by
  have hdir : (s.dropEnv e d).dir e = none := by
    rw [dir, dropEnv_envs, Function.update_self]
    simp [freedEnv]
  have hother : ∀ e', e' ≠ e → (s.dropEnv e d).dir e' = s.dir e' := fun e' hne =>
    dir_congr (by rw [dropEnv_envs, Function.update_of_ne hne])
  have htab' : ∀ e' i, (s.dropEnv e d).table e' i = s.table e' i := by
    intro e' i
    by_cases hee : e' = e
    · rw [hee, htab, table_eq_none hdir]
    · rw [table, table, hother e' hee, dropEnv_mem]
  funext k
  cases k with
  | dir e' =>
    by_cases hee : e' = e
    · rw [hee, Function.update_self]
      exact hdir
    · rw [Function.update_of_ne (by simpa using hee)]
      exact hother e' hee
  | table e' i => rw [Function.update_of_ne (by simp)]; exact htab' e' i
  | page e' i j =>
    rw [Function.update_of_ne (by simp)]
    show (s.dropEnv e d).leaf e' i j = s.leaf e' i j
    rw [leaf, leaf, htab', dropEnv_mem]

/-- The accounts once the directory has been dropped. -/
theorem dropEnv_ledger (h : Inv res fl s) (hd : s.dir e = some d)
    (htab : ∀ i, s.table e i = none) :
    (s.dropEnv e d).ledger (d :: fl) = (s.ledger fl).unlink (.dir e) d := by
  have hc : s.counts d = 1 := h.counts_node (k := .dir e) trivial hd
  have h1 : (s.ledger fl).ref d = 1 := hc
  have h2 : (s.dropEnv e d).counts = (s.decref d).counts := rfl
  rw [ledger, dropEnv_target d htab, h2, counts_decref s (by rw [hc]; decide), Ledger.unlink,
    if_pos h1]
  rfl

/-- Dropping the directory of an environment that has no page tables left. -/
theorem dropEnv (h : Inv res fl s) (hd : s.dir e = some d) (htab : ∀ i, s.table e i = none) :
    Inv res (d :: fl) (s.dropEnv e d) := by
  have htgt := dropEnv_target d htab
  have hc : s.counts d = 1 := h.counts_node (k := .dir e) trivial hd
  have hnot : d ∉ fl := fun hf => h.ok.free_unref d hf (.dir e) hd
  have hlive : (s.envs e).envStatus ≠ .free := by
    intro hf
    rw [dir, if_pos hf] at hd
    exact absurd hd (by simp)
  have hdir : ∀ {e' d'}, (s.dropEnv e d).dir e' = some d' → s.dir e' = some d' := by
    intro e' d' hd'
    have := congrFun htgt (.dir e')
    by_cases hee : e' = e
    · rw [hee, Function.update_self] at this
      rw [hee] at hd'
      exact absurd (this.symm.trans hd') (by simp)
    · rw [Function.update_of_ne (by simpa using hee)] at this
      exact this.symm.trans hd'
  refine
    { chain := ?_
      ok := ?_
      res_ge := fun p hp => h.res_ge p (by rwa [dropEnv_npages] at hp)
      zero_pde := fun e' d' hd' => by rw [dropEnv_mem]; exact h.zero_pde e' d' (hdir hd')
      zero_pte := fun e' i t ht => ?_
      live_dir := fun e' he' => ?_
      kern_res := by rw [dropEnv_kernPgdir]; exact h.kern_res
      kern_user := by rw [dropEnv_kernPgdir, dropEnv_mem]; exact h.kern_user
      kern_table := by rw [dropEnv_kernPgdir, dropEnv_mem]; exact h.kern_table
      dir_kern := fun e' d' hd' => by
        rw [dropEnv_kernPgdir, dropEnv_mem]
        exact h.dir_kern e' d' (hdir hd')
      dir_self := fun e' d' hd' => by rw [dropEnv_mem]; exact h.dir_self e' d' (hdir hd')
      env_list := ?_ }
  · have hchain := chain_decref h.chain hnot (by rw [hc]; decide)
    rwa [if_pos hc] at hchain
  · rw [h.dropEnv_ledger hd htab]
    exact h.ok.unlink hd
  · have := congrFun htgt (.table e' i)
    rw [Function.update_of_ne (by simp)] at this
    rw [dropEnv_mem]
    exact h.zero_pte e' i t (this.symm.trans ht)
  · rw [dropEnv_envs] at he' ⊢
    by_cases hee : e' = e
    · subst hee
      simp [freedEnv] at he'
    · rw [Function.update_of_ne hee] at he' ⊢
      exact h.live_dir e' he'
  · obtain ⟨el, hchain, hm⟩ := h.env_list
    have hel : e ∉ el := fun hme => hlive ((hm e).1 hme)
    refine ⟨e :: el, ⟨rfl, ?_⟩, fun e' => ?_⟩
    · have hlink : ((s.dropEnv e d).envs e).envLink = s.envFreeList := by
        rw [dropEnv_envs, Function.update_self]
        rfl
      show Chain _ ((s.dropEnv e d).envs e).envLink el
      rw [hlink, dropEnv_envs]
      refine hchain.congr fun b hb => ?_
      have hbe : b ≠ e := by
        rintro rfl
        exact hel hb
      simp [hbe]
    · rw [dropEnv_envs]
      by_cases hee : e' = e
      · subst hee
        simp [freedEnv]
      · rw [Function.update_of_ne hee, ← hm e']
        simp [hee]

/-! ## `env_free` -/

theorem unload (h : Inv res fl s) (e : EnvIndex) :
    ∃ s', (unloadPgdir e).run s = .ok () s' ∧ Inv res fl s' ∧ Frame res (· = e) s s' ∧
      s'.envs = s.envs ∧ s'.mem = s.mem ∧ s'.ledger fl = s.ledger fl := by
  by_cases hc : s.curenv = some e
  · refine ⟨s.lcr3 s.kernPgdir, ?_, h.of_mem rfl rfl rfl rfl rfl h.chain h.ok,
      Frame.of_eq rfl rfl rfl rfl, rfl, rfl, rfl⟩
    simp [unloadPgdir, hc]
  · refine ⟨s, ?_, h, Frame.refl _ _ _, rfl, rfl, rfl⟩
    simp [unloadPgdir, hc]

/-- **`env_free` returns and keeps the allocator invariant**; only the environment itself is
concerned, and the accounts lose nothing but references. -/
theorem envFree_run (h : Inv res fl s) (hlive : (s.envs e).envStatus ≠ .free) :
    ∃ s' fl', (envFree e).run s = .ok () s' ∧ Inv res fl' s' ∧ Frame res (· = e) s s' ∧
      (s.ledger fl).Shed (s'.ledger fl') ∧
      ∀ p, (∀ k : Slot, k.IsNode → s.target k ≠ some p) → s'.mem p = s.mem p := by
  obtain ⟨d, hd, hpg⟩ := h.dir_isSome hlive
  obtain ⟨s₁, hun, h₁, hf₁, he₁, hm₁, hl₁⟩ := h.unload e
  have hd₁ : s₁.dir e = some d := (dir_of_envs he₁ e).trans hd
  obtain ⟨l, hl, hmem, huser⟩ : ∃ l, userPdeList = l ∧ (∀ i : Index, i.val < userPdes → i ∈ l) ∧
      ∀ i ∈ l, i.val < userPdes :=
    ⟨_, rfl, fun i hi => List.mem_filter.2 ⟨mem_indices i, by simpa using hi⟩,
      fun i hi => by simpa using (List.mem_filter.1 hi).2⟩
  have hloop := Triple.forM_prefix (E := fun _ _ => False)
    (I := fun pre => Freeing res fl s₁ e d (· ∈ pre)) (f := envFreePde e) l
    (fun pre i post hpre => (envFreePde_spec (huser i (by simp [hpre]))).conseq (fun _ h => h)
      (fun _ _ h => ⟨h.inv, h.frame, h.dir, h.memOnly,
        fun i' hi' => h.table i' (by simpa using hi'), h.other⟩)
      fun _ _ h => h) s₁
    ⟨⟨fl, h₁, Ledger.Shed.refl _⟩, Frame.refl _ _ _, hd₁, MemOnly.refl _, by simp,
      fun _ hp => ⟨rfl, hp⟩⟩
  cases hr : (l.forM (envFreePde e)).run s₁ with
  | error x s₂ =>
    rw [hr] at hloop
    exact hloop.elim
  | ok a s₂ =>
    rw [hr] at hloop
    obtain ⟨⟨fl₂, h₂, hshed⟩, hf₂, hd₂, hmo, hgone, hoff⟩ := hloop
    have htab : ∀ i, s₂.table e i = none := by
      intro i
      by_cases hi : i.val < userPdes
      · exact hgone i (hmem i hi)
      · rw [table, if_neg hi]
    have hpg₂ : (s₂.envs e).envPgdir = some d := by rw [hmo.envs, he₁, hpg]
    have hdl : d < s₂.npages := h₂.target_lt (k := .dir e) hd₂
    have hpn : pgnum (page2pa d) = d := pgnum_page2pa (lt_pow s₂ hdl)
    have hshed' := hshed.unlink (k := .dir e) hd₂ (h₂.counts_pos (k := .dir e) hd₂)
    rw [hl₁, ← h₂.dropEnv_ledger hd₂ htab] at hshed'
    refine ⟨s₂.dropEnv e d, _, ?_, h₂.dropEnv hd₂ htab, (hf₁.trans hf₂).trans ?_, hshed', ?_⟩
    · have hpa : ∀ env, (pa2page (page2pa d)).run (s₂.setEnv e env) = .ok d (s₂.setEnv e env) := by
        intro env
        rw [pa2page_run (by rw [hpn]; exact hdl), hpn]
      rw [envFree, hl]
      simp only [EStateM.run_bind, hun, hr, EStateM.run_get, hpg₂, paddr, EStateM.run_pure,
        updateEnv, EStateM.run_modify, hpa, pageDecref_run, decref_setEnv]
      simp [Kernel.dropEnv, setEnv, freedEnv]
    · exact ⟨fun e' hne => by rw [dropEnv_envs, Function.update_of_ne hne],
        fun p _ => by rw [dropEnv_mem], dropEnv_kernPgdir s₂ e d, dropEnv_npages s₂ e d⟩
    · intro p hp
      have htgt : s₁.target = s.target :=
        target_congr (dir_of_envs he₁) (fun _ _ _ _ _ => by rw [hm₁]) fun _ _ _ _ => by rw [hm₁]
      rw [dropEnv_mem, (hoff p (htgt ▸ hp)).1, hm₁]

end Inv

/-! ## What `env_free` releases -/

/-- The number of references environment `e` holds to a page: its mappings below `UTOP`, its page
tables and its directory. -/
def Kernel.held (s : Kernel) (e : EnvIndex) (p : Nat) : Nat :=
  Ledger.refsIn (fun k : Slot => k.env = e) s.target p

/-- Environment `e` has been freed, and with it exactly what it held; `fl'` is now the free list. -/
structure EnvFreed (res : Nat → Prop) (fl : List Nat) (s : Kernel) (e : EnvIndex) (fl' : List Nat)
    (s' : Kernel) : Prop where
  inv : Inv res fl' s'
  /-- Every page has lost the references `e` held to it. -/
  counts : ∀ p, s'.counts p + s.held e p = s.counts p
  /-- The pages that lost their last reference have been added to the free list. -/
  free : ∃ new, fl' = new ++ fl ∧ new.Nodup ∧
    ∀ p, p ∈ new ↔ 0 < s.held e p ∧ s'.counts p = 0
  /-- Other environments are as they were, -/
  envs : ∀ e', e' ≠ e → s'.envs e' = s.envs e'
  /-- and see what they saw. -/
  view : ∀ e' d, e' ≠ e → s.dir e' = some d → SameView s s' d
  status : (s'.envs e).envStatus = .free
  head : s'.envFreeList = some e

/-- **`env_free` releases exactly what the environment held.** -/
theorem Inv.envFree_spec (h : Inv res fl s) (hlive : (s.envs e).envStatus ≠ .free) :
    ∃ s' fl', (envFree e).run s = .ok () s' ∧ EnvFreed res fl s e fl' s' := by
  obtain ⟨s', fl', hrun, hinv, hframe, hshed, -⟩ := h.envFree_run hlive
  have hmo := (envFree_effect s e).of_ok rfl hrun
  have henv : s'.envs e = s.freedEnv e := by
    rw [hmo.envs]
    exact Function.update_self _ _ _
  have hdir : s'.dir e = none := by
    rw [Kernel.dir, henv]
    rfl
  have hown : ∀ k : Slot, k.env = e → s'.target k = none := by
    rintro (e' | ⟨e', i⟩ | ⟨e', i, j⟩) he
    · rw [show e' = e from he]
      exact hdir
    · rw [show e' = e from he]
      exact table_eq_none hdir i
    · rw [show e' = e from he]
      exact leaf_eq_none (table_eq_none hdir i) j
  have hrefs := Ledger.refs_add_refsIn hown fun k hk => hframe.target hk
  have hcounts : ∀ p, s'.counts p + s.held e p = s.counts p := by
    intro p
    by_cases hp : ∃ k, s.target k = some p
    · -- a page that is referred to is accounted for, before and after
      obtain ⟨k, hk⟩ := hp
      have h1 : s.counts p = Ledger.refs s.target p := h.ok.ref_eq p (h.target_res hk)
      have h2 : s'.counts p = Ledger.refs s'.target p := hinv.ok.ref_eq p (h.target_res hk)
      rw [h1, h2]
      exact hrefs p
    · have hnone : ∀ k, s.target k ≠ some p := fun k hk => hp ⟨k, hk⟩
      have h0 : s.held e p = 0 := by
        by_contra hne
        obtain ⟨k, -, hk⟩ := Ledger.refsIn_pos.1 (Nat.pos_of_ne_zero hne)
        exact hnone k hk
      rw [h0, Nat.add_zero]
      exact hshed.ref_eq p hnone
  refine ⟨s', fl', hrun, hinv, hcounts, ?_, hframe.envs, fun e' d he hd => hframe.sameView h he hd,
    by rw [henv]; rfl, hmo.envFreeList⟩
  obtain ⟨new, hfree, hnew⟩ := hshed.free
  have hfl : fl' = new ++ fl := hfree
  refine ⟨new, hfl, ?_, fun p => ?_⟩
  · have hnd := hinv.ok.nodup
    rw [show (s'.ledger fl').free = new ++ fl from hfree] at hnd
    exact (List.nodup_append.1 hnd).1
  · rw [hnew]
    have hc := hcounts p
    show s'.counts p = 0 ∧ s.counts p ≠ 0 ↔ _
    omega

/-! ## An environment that shares a page -/

/-- A second environment, whose directory is page 2. -/
def sibling : Kernel := (roomy ⟨6, by decide⟩).newEnv 1 2 4096#32

/-- The first one has page 3 at `UTEXT`, with a page table in page 4. -/
def oneMapped : Kernel :=
  ((sibling.pop 3).newTable 1 utext 4).mapAt 1 3 utext (pteU ||| pteW) ⟨4, ptx utext⟩

/-- So has the second, with a page table in page 5. -/
def bothMapped : Kernel :=
  (oneMapped.newTable 2 utext 5).mapAt 2 3 utext (pteU ||| pteW) ⟨5, ptx utext⟩

/-- And the first has page 6 after that, which is its own. -/
def sharing : Kernel :=
  ((bothMapped.pop 6).unfree 6).mapAt 1 6 (utext + pgsize) (pteU ||| pteW)
    ⟨4, ptx (utext + pgsize)⟩

theorem sharing_inv : Inv (roomyRes 6) [7] sharing := by
  have hperm : IsPerm (pteU ||| pteW) := by decide
  have hsibling : Inv (roomyRes 6) [3, 4, 5, 6, 7] sibling := (roomy_inv 6).newEnv rfl _
  have hone : Inv (roomyRes 6) [5, 6, 7] oneMapped :=
    (hsibling.pop.newTable_accounts (e := 0) (by decide) (by decide) (by decide)
      ((Inv.fresh_pop hsibling).mappable _ _ _) hperm).1
  have hshared : oneMapped.leaf 0 (pdx utext) (ptx utext) = some 3 := by decide
  have hboth : Inv (roomyRes 6) [6, 7] bothMapped :=
    (hone.newTable_accounts (e := 1) (by decide) (by decide) (by decide)
      (hone.mappable hshared (Or.inl (by decide))) hperm).1
  exact (hboth.pop.absent_accounts (e := 0) (by decide) (by decide) 1
    ((Inv.fresh_pop hboth).mappable _ _ _) hperm).1

/-- The first environment is freed.  Its directory, its page table and its own page go to the free
list; the page that it shared stays where the other has it. -/
theorem Inv.envFree_spec_sharing : ∃ s' fl', (envFree 0).run sharing = .ok () s' ∧
    EnvFreed (roomyRes 6) [7] sharing 0 fl' s' ∧ (∀ p ∈ [1, 4, 6], p ∈ fl') ∧ 3 ∉ fl' ∧
    s'.counts 3 = 1 ∧ s'.translate 2 (pteP ||| pteU ||| pteW) utext = some (3, 0) := by
  obtain ⟨s', fl', hrun, h⟩ := sharing_inv.envFree_spec (e := 0) (by decide)
  have hheld {k : Slot} {p : Nat} (hk : k.env = 0) (hp : sharing.target k = some p) :
      0 < sharing.held 0 p := Ledger.refsIn_pos.2 ⟨k, hk, hp⟩
  -- a page with one reference, which was the environment's
  have hfreed {k : Slot} {p : Nat} (hk : k.env = 0) (hp : sharing.target k = some p)
      (hone : sharing.counts p = 1) : p ∈ fl' := by
    obtain ⟨new, rfl, -, hnew⟩ := h.free
    have hcount := h.counts p
    have hpos := hheld hk hp
    exact List.mem_append_left _ ((hnew p).2 ⟨hpos, by omega⟩)
  have hview := h.view 1 2 (by decide) (by decide)
  -- the other environment still has its reference
  have hleaf : s'.target (.page 1 (pdx utext) (ptx utext)) = some 3 := by
    have hdir : s'.dir 1 = some 2 := by
      rw [dir, h.envs 1 (by decide)]
      decide
    have hwalk : s'.leaf 1 (pdx utext) (ptx utext) = (s'.walk 2 utext).bind framed := by
      rw [leaf, table_of_dir hdir (by decide), Kernel.walk, Option.bind_map]
      rfl
    show s'.leaf 1 (pdx utext) (ptx utext) = some 3
    rw [hwalk, hview.walk]
    decide
  have hthree : s'.counts 3 = 1 := by
    have hpos := h.inv.counts_pos hleaf
    have hsum : s'.counts 3 + sharing.held 0 3 = 2 := h.counts 3
    have hshare : 0 < sharing.held 0 3 :=
      hheld (k := .page 0 (pdx utext) (ptx utext)) rfl (by decide)
    omega
  refine ⟨s', fl', hrun, h, fun p hp => ?_, fun hm => ?_, hthree, ?_⟩
  · simp only [List.mem_cons, List.not_mem_nil, or_false] at hp
    rcases hp with rfl | rfl | rfl
    · exact hfreed (k := .dir 0) rfl (by decide) (by decide)
    · exact hfreed (k := .table 0 (pdx utext)) rfl (by decide) (by decide)
    · exact hfreed (k := .page 0 (pdx utext) (ptx (utext + pgsize))) rfl (by decide) (by decide)
  · exact h.inv.ok.free_unref 3 hm (.page 1 (pdx utext) (ptx utext)) hleaf
  · rw [hview.translate]
    decide

end Jos
