import Jos.Fork.Stack

/-!
# The loop of `fork`, with the stack

`Filling` is what holds while `Process.fork` goes through the pages.  It says less than `Copying`
about what the pages hold and how they are mapped, but it allows for one of them to be the page of
the stack, of which the parent gets a copy as soon as the child has it.
-/

set_option autoImplicit false

namespace Jos

open Kernel Command

variable {res : Nat → Prop} {fl fl' fl₁ : List Nat} {s s' s₁ : Kernel} {e c : EnvIndex}
variable {d dc g p : Nat} {va cid perm : Word} {i j : Index} {S D V W : Set (Index × Index)}

/-- How many pages a copy of the page of the stack takes. -/
def Kernel.stackPages (s : Kernel) (e : EnvIndex) : Nat :=
  1 + s.tablesFor e pftemp - s.freedAt e pftemp

/-- The pages in the range that have not been copied and are mapped to page `p`. -/
def Kernel.pagesLeft (s : Kernel) (e : EnvIndex) (D : Set (Index × Index)) (p : Nat) :
    Set (Index × Index) := {x | x ∈ forkRange \ D ∧ s.leaf e x.1 x.2 = some p}

/-- From `s₁` on, the pages in `D` have been mapped into the child, and the parent has got copies of
those in `S` (of the stack, that is one page or none). -/
structure Filling (res : Nat → Prop) (fl₁ : List Nat) (s₁ : Kernel) (e c : EnvIndex) (d dc : Nat)
    (S D : Set (Index × Index)) (fl : List Nat) (s : Kernel) : Prop where
  run : Running res fl s e d
  only : MemOnly s₁ s
  linked : s.Linked c dc
  used : ∀ i, s.table c i ≠ none ↔ ∃ j, (i, j) ∈ D
  child : ∀ i j, s.leaf c i j ≠ none ↔ (i, j) ∈ D
  parent : ∀ i j, (i, j) ∈ forkRange → (s.leaf e i j = none ↔ s₁.leaf e i j = none)
  /-- The counts leave room for the mappings to come. -/
  room : ∀ i j p, (i, j) ∈ forkRange \ D → s.leaf e i j = some p →
    s.counts p + (s.pagesLeft e D p).ncard ≤ 65535
  free : fl₁.length = tablesOf D + S.ncard * s₁.stackPages e + fl.length
  paid : S.Nonempty → s.table e (pdx pftemp) ≠ none
  due : S = ∅ → s.tablesFor e pftemp = s₁.tablesFor e pftemp ∧
    s.freedAt e pftemp = s₁.freedAt e pftemp

theorem freedAt_le_one (s : Kernel) (e : EnvIndex) (va : Word) : s.freedAt e va ≤ 1 := by
  rw [Kernel.freedAt]
  split
  · split
    · exact Nat.le_refl 1
    · exact Nat.zero_le 1
  · exact Nat.zero_le 1

/-- A page that is mapped twice is not freed. -/
theorem freedAt_twice (h : Inv res fl s) {k : Slot}
    (hk : s.target k = s.target (.page e (pdx va) (ptx va)))
    (hne : k ≠ .page e (pdx va) (ptx va)) : s.freedAt e va = 0 := by
  rw [Kernel.freedAt]
  cases hq : s.leaf e (pdx va) (ptx va) with
  | none => rfl
  | some q =>
    dsimp only
    rw [if_neg fun hone => hne ?_]
    rw [h.counts_leaf hq] at hone
    exact Ledger.eq_of_refs_eq_one (k := Slot.page e (pdx va) (ptx va)) hone hq (hk.trans hq)

/-- Every mapping of a page counts. -/
theorem length_le_counts {ks : List Slot} (h : Inv res fl s) (hp : s.leaf e i j = some p)
    (hnodup : ks.Nodup) (hks : ∀ k ∈ ks, s.target k = some p) : ks.length ≤ s.counts p := by
  rw [h.counts_leaf hp]
  exact Ledger.length_le_refs hnodup hks

theorem lt_utop_of_range (hij : (i, j) ∈ forkRange) : pgaddr i j 0#32 < utop := by
  have hlt : pgaddr i j 0#32 < uxstacktop - pgsize := hij.2
  have hstack : (uxstacktop - pgsize).toNat = 0xEEBFF000 := rfl
  have hutop : utop.toNat = 0xEEC00000 := rfl
  rw [BitVec.lt_def] at hlt ⊢
  omega

theorem dupPerm_plain {w : Word} (h : dupPerm w &&& pteCow = 0#32) : w &&& pteW = 0#32 := by
  by_contra hw
  refine absurd h ?_
  rw [dupPerm, if_pos (Or.inl hw)]
  decide

theorem tablesOf_empty : tablesOf ∅ = 0 := by
  have hset : {i : Index | ∃ j, (i, j) ∈ (∅ : Set (Index × Index))} = ∅ := by
    ext i
    exact iff_of_false (fun hi => hi.elim fun j hj => hj) (Set.notMem_empty i)
  rw [tablesOf, hset, Set.ncard_empty]

/-- Nothing has been copied. -/
theorem Begun.filling (hb : Begun res fl₁ s₁ e c d dc cid) :
    Filling res fl₁ s₁ e c d dc ∅ ∅ fl₁ s₁ where
  run := hb.parent
  only := MemOnly.refl s₁
  linked i t ht := absurd ((hb.fresh i).symm.trans ht) (by simp)
  used i := by simp [hb.fresh i]
  child i j := by simp [leaf_eq_none (hb.fresh i) j]
  parent i j _ := Iff.rfl
  room i j p hij hp := by
    have hroom := hb.room i j p hij.1 hp
    have hinj : Set.InjOn (fun x : Index × Index => Slot.page e x.1 x.2) (s₁.pagesLeft e ∅ p) := by
      intro x _ y _ hxy
      exact Prod.ext (Slot.page.inj hxy).2.1 (Slot.page.inj hxy).2.2
    have hle : (s₁.pagesLeft e ∅ p).ncard ≤ Ledger.refsIn (Slot.IsPageOf e) s₁.target p :=
      Ledger.ncard_le_refsIn _ hinj fun x hx => ⟨rfl, hx.2⟩
    omega
  free := by rw [tablesOf_empty, Set.ncard_empty, Nat.zero_mul, Nat.zero_add]
  paid hS := absurd hS Set.not_nonempty_empty
  due _ := ⟨rfl, rfl⟩

/-! ## A page put into the child -/

namespace PagePut

variable (hput : PagePut res fl s c dc (pgaddr i j 0#32) perm p fl' s')
variable (h : Inv res fl s)
include hput h

/-- Of the pages mapped, one is new. -/
theorem target_sent (hperm : IsPerm perm) (hp : s.leaf e i j = some p) {k : Slot}
    (hk : ¬ k.IsNode) :
    s'.target k = if k = .page c i j then some p else s.target k := by
  have hpp : p < 2 ^ 20 := Inv.lt_pow s (h.target_lt (k := .page e i j) hp)
  have hpage := hput.target_page hpp hperm hk
  rwa [pdx_pgaddr, ptx_pgaddr] at hpage

/-- No other page gains a reference. -/
theorem slots_sent (hperm : IsPerm perm) (hp : s.leaf e i j = some p) (hnone : s.leaf c i j = none)
    {i' j' : Index} {q : Nat} (hqp : q ≠ p) (hq : s.leaf e i' j' = some q)
    (hq' : s'.leaf e i' j' = some q) (k : Slot) : s'.target k = some q ↔ s.target k = some q := by
  by_cases hk : k.IsNode
  · exact iff_of_false (fun hh => (hput.inv.isData_leaf hq').2 k hk hh)
      fun hh => (h.isData_leaf hq).2 k hk hh
  · rw [hput.target_sent h hperm hp hk]
    by_cases hkc : k = .page c i j
    · subst hkc
      rw [if_pos rfl, show s.target (.page c i j) = none from hnone]
      exact iff_of_false (fun hh => hqp (Option.some_inj.1 hh).symm) (by simp)
    · rw [if_neg hkc]

variable (hdc : s.dir c = some dc)
include hdc

/-- Of the page tables, one may be new. -/
theorem table_sent (hp : s.leaf e i j = some p) (i' : Index) :
    s'.table c i' ≠ none ↔ i' = i ∨ s.table c i' ≠ none := by
  have hva : pgaddr i j 0#32 < utop := (userPage_pgaddr hp).1
  by_cases hi : i' = pdx (pgaddr i j 0#32) → s.table c (pdx (pgaddr i j 0#32)) ≠ none
  · rw [hput.table hdc hi]
    refine ⟨Or.inr, fun hh => hh.elim (fun hi' => ?_) fun hh => hh⟩
    subst hi'
    have hsome := hi (pdx_pgaddr i' j).symm
    rwa [pdx_pgaddr] at hsome
  · rw [Classical.not_imp, not_not, pdx_pgaddr] at hi
    obtain ⟨rfl, hmiss⟩ := hi
    obtain ⟨t, -, hnew⟩ := hput.table_new hdc h hva (by rwa [pdx_pgaddr])
    rw [pdx_pgaddr] at hnew
    rw [hnew]
    exact iff_of_true (by simp) (Or.inl rfl)

/-- It takes a page for the page table, and the page gains a reference. -/
theorem spent (hp : s.leaf e i j = some p) (hnone : s.leaf c i j = none) :
    ∃ ts, fl = ts ++ fl' ∧ ts.length = (if s.table c i = none then 1 else 0) ∧
      s'.counts p = s.counts p + 1 := by
  have hva : pgaddr i j 0#32 < utop := (userPage_pgaddr hp).1
  have hnone' : s.leaf c (pdx (pgaddr i j 0#32)) (ptx (pgaddr i j 0#32)) = none := by
    rwa [pdx_pgaddr, ptx_pgaddr]
  obtain ⟨ts, hfl, hts, -⟩ := hput.free_absent hdc h hva hnone'
  rw [Kernel.tablesFor, pdx_pgaddr] at hts
  exact ⟨ts, hfl, hts, hput.count_absent (h.isData_leaf hp).1 hnone'⟩

end PagePut

/-! ## Steps of the loop -/

namespace Filling

variable (h : Filling res fl₁ s₁ e c d dc S D fl s)
include h

theorem dir (hb : Begun res fl₁ s₁ e c d dc cid) : s.dir c = some dc :=
  (dir_of_envs h.only.envs c).trans hb.dir

theorem id (hb : Begun res fl₁ s₁ e c d dc cid) : s.resolve e cid = some c := by
  have henvs := h.only.envs
  rw [← hb.id]
  simp only [Kernel.resolve, henvs]

/-- The same pages are mapped in the same places. -/
theorem same (hrun : Running res fl s' e d) (hmo : MemOnly s s') (hl : s'.Linked c dc)
    (htgt : s'.target = s.target) : Filling res fl₁ s₁ e c d dc S D fl s' := by
  have hleaf : ∀ x i j, s'.leaf x i j = s.leaf x i j := fun x i j => congrFun htgt (.page x i j)
  have htab : ∀ x i, s'.table x i = s.table x i := fun x i => congrFun htgt (.table x i)
  refine
    { run := hrun
      only := MemOnly.trans _ _ _ h.only hmo
      linked := hl
      used := fun i => by rw [htab]; exact h.used i
      child := fun i j => by rw [hleaf]; exact h.child i j
      parent := fun i j hij => by rw [hleaf]; exact h.parent i j hij
      room := fun i j p hij hp => ?_
      free := h.free
      paid := fun hS => by rw [htab]; exact h.paid hS
      due := fun hS => ⟨by rw [Kernel.tablesFor, htab]; exact (h.due hS).1, ?_⟩ }
  · have hp₀ : s.leaf e i j = some p := (hleaf e i j).symm.trans hp
    have hroom := h.room i j p hij hp₀
    rw [hrun.inv.counts_leaf hp, htgt, ← h.run.inv.counts_leaf hp₀]
    simpa only [Kernel.pagesLeft, hleaf] using hroom
  · rw [← (h.due hS).2]
    exact freedAt_congr h.run.inv hrun.inv (hleaf e _ _) fun q _ k => by rw [htgt]

theorem stores (hb : Begun res fl₁ s₁ e c d dc cid) (hu : UserStores res fl s s') :
    Filling res fl₁ s₁ e c d dc S D fl s' :=
  h.same (h.run.of_stores hu) hu.only ((hu.sameSpace c).linked (h.dir hb) h.linked) hu.target

/-- **A page is mapped into the child.** -/
theorem send (hb : Begun res fl₁ s₁ e c d dc cid) (hperm : IsPerm perm) (hij : (i, j) ∈ forkRange)
    (hp : s.leaf e i j = some p) (hD : (i, j) ∉ D)
    (hput : PagePut res fl s c dc (pgaddr i j 0#32) perm p fl' s') :
    Filling res fl₁ s₁ e c d dc S (insert (i, j) D) fl' s' ∧ s'.leaf c i j = some p ∧
      ∀ i' j', s'.entry e i' j' = s.entry e i' j' := by
  classical
  have hdc := h.dir hb
  have hec : ¬ e = c := fun hh => hb.ne hh.symm
  have hinv := h.run.inv
  have hedit := hput.inserted.edited
  have hsame : SameSpace s s' e := SameSpace.of_frame hedit.frame hec
  have hparent : ∀ i' j', s'.leaf e i' j' = s.leaf e i' j' := hsame.leaf
  have hnone : s.leaf c i j = none := by
    by_contra hne
    exact hD ((h.child i j).1 hne)
  have hleaf : ∀ i' j', s'.leaf c i' j' = if (i', j') = (i, j) then some p else s.leaf c i' j' :=
    fun i' j' => (hput.target_sent hinv hperm hp (k := .page c i' j') fun hn => hn).trans
      (if_congr (by simp) rfl rfl)
  have hslots : ∀ {i' j' q}, q ≠ p → s.leaf e i' j' = some q →
      ∀ k, s'.target k = some q ↔ s.target k = some q :=
    fun hqp hq k => hput.slots_sent hinv hperm hp hnone hqp hq ((hparent _ _).trans hq) k
  obtain ⟨ts, hfl, hts, hcount⟩ := hput.spent hinv hdc hp hnone
  refine ⟨
    { run := h.run.of_memOnly hedit.memOnly hput.inv (hsame.linked h.run.dir h.run.tables)
      only := MemOnly.trans _ _ _ h.only hedit.memOnly
      linked := hput.linked hdc h.linked
      used := fun i' => ?_
      child := fun i' j' => ?_
      parent := fun i' j' hr => by rw [hparent]; exact h.parent i' j' hr
      room := fun i' j' q hr hq => ?_
      free := ?_
      paid := fun hS => by rw [hsame.table]; exact h.paid hS
      due := fun hS => ?_ }, ?_, hsame.entry⟩
  · rw [hput.table_sent hinv hdc hp, h.used]
    constructor
    · rintro (rfl | ⟨j', hj⟩)
      · exact ⟨j, Or.inl rfl⟩
      · exact ⟨j', Or.inr hj⟩
    · rintro ⟨j', hj | hj⟩
      · exact Or.inl (Prod.mk.inj hj).1
      · exact Or.inr ⟨j', hj⟩
  · rw [hleaf]
    by_cases hij' : (i', j') = (i, j)
    · rw [if_pos hij']
      exact iff_of_true (by simp) (Or.inl hij')
    · rw [if_neg hij', h.child]
      exact ⟨Or.inr, fun hh => hh.resolve_left hij'⟩
  · -- the page has one mapping more, and one less is to come
    have hq₀ : s.leaf e i' j' = some q := (hparent i' j').symm.trans hq
    have hroom := h.room i' j' q ⟨hr.1, fun hh => hr.2 (Or.inr hh)⟩ hq₀
    have hsub : s'.pagesLeft e (insert (i, j) D) q ⊆ s.pagesLeft e D q := fun x hx =>
      ⟨⟨hx.1.1, fun hh => hx.1.2 (Or.inr hh)⟩, (hparent x.1 x.2).symm.trans hx.2⟩
    by_cases hqp : q = p
    · subst hqp
      have hmem : (i, j) ∈ s.pagesLeft e D q := ⟨⟨hij, hD⟩, hp⟩
      have hout : (i, j) ∉ s'.pagesLeft e (insert (i, j) D) q := fun hh => hh.1.2 (Or.inl rfl)
      have hlt := Set.ncard_lt_ncard ⟨hsub, fun hh => hout (hh hmem)⟩ (Set.toFinite _)
      omega
    · have hle := Set.ncard_le_ncard hsub (Set.toFinite _)
      have hsame' : s'.counts q = s.counts q := by
        rw [hput.inv.counts_leaf hq, hinv.counts_leaf hq₀]
        exact Ledger.refs_congr (hslots hqp hq₀)
      omega
  · have htables : ts.length = if ∃ j', (i, j') ∈ D then 0 else 1 := by
      rw [hts]
      by_cases ht : s.table c i = none
      · rw [if_pos ht, if_neg fun hh => (h.used i).2 hh ht]
      · rw [if_neg ht, if_pos ((h.used i).1 ht)]
    have hlen := h.free
    rw [hfl, List.length_append, htables] at hlen
    rw [tablesOf_insert, hlen]
    omega
  · obtain ⟨htab, hfreed⟩ := h.due hS
    refine ⟨by rw [Kernel.tablesFor, hsame.table]; exact htab, ?_⟩
    rw [← hfreed]
    by_cases htwice : s.leaf e (pdx pftemp) (ptx pftemp) = some p
    · -- the page at `PFTEMP` is this one, and not freed
      have hne : Slot.page e i j ≠ .page e (pdx pftemp) (ptx pftemp) := fun hh =>
        pftemp_out hij ⟨(Slot.page.inj hh).2.1, (Slot.page.inj hh).2.2⟩
      rw [freedAt_twice hinv (k := .page e i j) (hp.trans htwice.symm) hne,
        freedAt_twice hput.inv (k := .page e i j)
          ((hparent i j).trans (hp.trans (htwice.symm.trans (hparent _ _).symm))) hne]
    · refine freedAt_congr hinv hput.inv (hparent _ _) fun q hq => hslots ?_ hq
      rintro rfl
      exact htwice hq
  · rw [hleaf, if_pos rfl]

/-- **A page of the parent is mapped anew where it is.** -/
theorem keep (hb : Begun res fl₁ s₁ e c d dc cid) (hperm : IsPerm perm) (hp : s.leaf e i j = some p)
    (hput : PagePut res fl s e d (pgaddr i j 0#32) perm p fl' s') :
    Filling res fl₁ s₁ e c d dc S D fl' s' ∧ s'.entry e i j = page2pa p ||| pteP ||| perm ∧
      s'.target = s.target := by
  have hd := h.run.dir
  have hce : ¬ c = e := hb.ne
  have hedit := hput.inserted.edited
  have hpp : p < 2 ^ 20 := Inv.lt_pow s (h.run.inv.target_lt (k := .page e i j) hp)
  have hsome : s.table e (pdx (pgaddr i j 0#32)) ≠ none := by
    rw [pdx_pgaddr]
    exact fun hn => absurd ((leaf_eq_none hn j).symm.trans hp) (by simp)
  have hself := hput.entry_self
  have hfl : fl' = fl := by
    rw [(hput.present hsome).2, pdx_pgaddr, ptx_pgaddr, hp, released, if_neg fun hh => hh.1 rfl]
  have htgt : s'.target = s.target := by
    funext k
    cases k with
    | dir x => exact dir_of_envs hedit.memOnly.envs x
    | table x i' =>
      by_cases hx : x = e
      · rw [hx]
        exact hput.table hd fun _ => hsome
      · exact hedit.frame.target (k := .table x i') hx
    | page x i' j' =>
      rw [hput.target_page hpp hperm (k := .page x i' j') fun hn => hn, pdx_pgaddr, ptx_pgaddr]
      by_cases hk : Slot.page x i' j' = .page e i j
      · rw [if_pos hk, hk]
        exact hp.symm
      · rw [if_neg hk]
  rw [pdx_pgaddr, ptx_pgaddr] at hself
  subst hfl
  exact ⟨h.same (h.run.of_memOnly hedit.memOnly hput.inv (hput.linked hd h.run.tables))
    hedit.memOnly ((SameSpace.of_frame hedit.frame hce).linked (h.dir hb) h.linked) htgt, hself,
      htgt⟩

omit h in
/-- **The parent gets a copy** of a page that it shares with the child. -/
theorem privatize (hb : Begun res fl₁ s₁ e c d dc cid) (h : Filling res fl₁ s₁ e c d dc ∅ D fl s)
    (hva : pageIdx va ∈ forkRange ∩ D) (hp : s.leaf e (pdx va) (ptx va) = some p)
    (hpc : s.leaf c (pdx va) (ptx va) = some p) (hpriv : Privatized res fl s e d va p g fl' s') :
    Filling res fl₁ s₁ e c d dc {pageIdx va} D fl' s' := by
  have hce : ¬ c = e := hb.ne
  have hec : ¬ e = c := fun hh => hce hh.symm
  have hg : g < 2 ^ 20 := Inv.lt_pow s (h.run.inv.free_lt hpriv.fresh)
  have hchild := hpriv.others c hce
  have hout : ¬ (pdx va = pdx pftemp ∧ ptx va = ptx pftemp) := pftemp_out hva.1
  refine
    { run := hpriv.run
      only := MemOnly.trans _ _ _ h.only hpriv.only
      linked := hchild.linked (h.dir hb) h.linked
      used := fun i => by rw [hchild.table]; exact h.used i
      child := fun i j => by rw [hchild.leaf]; exact h.child i j
      parent := fun i j hij =>
        (hpriv.leaf_eq_none_iff h.run.inv hp (pftemp_out hij)).trans (h.parent i j hij)
      room := fun i j q hij hq => ?_
      free := ?_
      paid := fun _ => hpriv.tempTable
      due := fun hS => absurd hS (Set.singleton_ne_empty _) }
  · -- a page that is left is not this one, and gains no reference
    rcases hpriv.leaf_cases hg hq with ⟨-, ⟨rfl, rfl⟩, -⟩ | ⟨-, -, hq₀⟩
    · exact absurd hva.2 hij.2
    have hqg : q ≠ g := h.run.inv.free_ne (k := .page e i j) hpriv.fresh hq₀
    have hold : ∀ k, s'.target k = some q → s.target k = some q := by
      intro k hk
      obtain ⟨y, i', j', rfl⟩ := hpriv.run.inv.page_of_leaf hq hk
      rcases hpriv.leaf_cases hg hk with ⟨-, -, hqg'⟩ | ⟨-, -, hk₀⟩
      · exact absurd hqg' hqg
      · exact hk₀
    have hroom := h.room i j q hij hq₀
    have hsub : s'.pagesLeft e D q ⊆ s.pagesLeft e D q :=
      fun x hx => ⟨hx.1, hold (.page e _ _) hx.2⟩
    have hle := Set.ncard_le_ncard hsub (Set.toFinite _)
    have hrefs := Ledger.refs_mono hold
    rw [← hpriv.run.inv.counts_leaf hq, ← h.run.inv.counts_leaf hq₀] at hrefs
    omega
  · have hkept : s.freedAfter e pftemp va = 0 := by
      have hdup : [Slot.page e (pdx va) (ptx va), .page c (pdx va) (ptx va)].Nodup := by simp [hec]
      have hdup' : [Slot.page e (pdx va) (ptx va), .page c (pdx va) (ptx va),
          .page e (pdx pftemp) (ptx pftemp)].Nodup := by simpa [hec, hce] using hout
      have htwo := length_le_counts h.run.inv hp hdup
        (List.forall_mem_cons.2 ⟨hp, List.forall_mem_singleton.2 hpc⟩)
      have hthree : s.leaf e (pdx pftemp) (ptx pftemp) = some p → 3 ≤ s.counts p := fun hmore =>
        length_le_counts h.run.inv hp hdup' (List.forall_mem_cons.2
          ⟨hp, List.forall_mem_cons.2 ⟨hpc, List.forall_mem_singleton.2 hmore⟩⟩)
      rw [List.length_cons, List.length_singleton] at htwo
      rw [Kernel.freedAfter, hp]
      dsimp only
      split
      · next hmore =>
        have h3 := hthree hmore
        rw [if_neg (by omega)]
      · rw [if_neg (by omega)]
    obtain ⟨htab, hfreed⟩ := h.due rfl
    have hone := freedAt_le_one s e pftemp
    have hspent := hpriv.free
    have hlen := h.free
    rw [Set.ncard_empty, Nat.zero_mul] at hlen
    rw [Set.ncard_singleton, Kernel.stackPages, ← htab, ← hfreed]
    omega

/-- **`duppage`** fails only if the child lacks the page table and there is no page for it. -/
theorem duppage_run (hb : Begun res fl₁ s₁ e c d dc cid) (hij : (i, j) ∈ forkRange)
    (hp : s.leaf e i j = some p) (hD : (i, j) ∉ D) :
    ((duppage cid (pgnum (pgaddr i j 0#32))).run s = .ok (-eNoMem) s ∧ fl = [] ∧
      s.table c i = none) ∨
    ∃ fl' s', (duppage cid (pgnum (pgaddr i j 0#32))).run s = .ok 0#32 s' ∧
      Filling res fl₁ s₁ e c d dc S (insert (i, j) D) fl' s' ∧ s'.leaf e i j = some p ∧
      s'.leaf c i j = some p ∧ s'.entry e i j &&& pteW = 0#32 := by
  have hrun := h.run
  have hself := hrun.resolve_self
  obtain ⟨t, ht, -⟩ := leaf_eq_some.1 hp
  have huser := userPage_pgaddr hp
  have hagain := hrun.inv.mappable_again hp
  have hok := dupPerm_ok (s.entry e i j)
  have hm : Mappable res fl s c i j p := by
    refine ⟨hagain.not_free, hagain.not_res, hagain.not_node, Or.inl ?_⟩
    have hroom := h.room i j p ⟨hij, hD⟩ hp
    have hpos : 0 < (s.pagesLeft e D p).ncard :=
      (Set.ncard_pos (Set.toFinite _)).2 ⟨(i, j), ⟨hij, hD⟩, hp⟩
    omega
  rw [duppage, run_bind_ok hrun.getenvid, run_bind_ok (hrun.uvpt_load ht j)]
  dsimp only
  rw [pgaddr_pn]
  rcases hrun.inv.sysPageMap_put hrun.current hself (h.id hb) hrun.dir (h.dir hb) huser huser hok
      (by rwa [pdx_pgaddr, ptx_pgaddr]) (fun hh => absurd (dupPerm_read_only _) hh)
      (by rwa [pdx_pgaddr, ptx_pgaddr]) with ⟨hfail, hfl, htc⟩ | ⟨s', fl', hmap, hput⟩
  · refine Or.inl ⟨?_, hfl, by rwa [pdx_pgaddr] at htc⟩
    rw [run_bind_ok (checked_ok hfail eNoMem_not_pos), if_pos eNoMem_neg]
    rfl
  obtain ⟨h', hpc, hentry⟩ := h.send hb hok.isPerm hij hp hD hput
  have hp' : s'.leaf e i j = some p := by rw [leaf_eq_framed, hentry, ← leaf_eq_framed, hp]
  refine Or.inr ?_
  rw [run_bind_ok (checked_ok hmap zero_not_pos), if_neg zero_not_neg]
  by_cases hcow : dupPerm (s.entry e i j) &&& pteCow = 0#32
  · rw [if_neg (not_not.2 hcow)]
    exact ⟨fl', s', rfl, h', hp', hpc, by rw [hentry]; exact dupPerm_plain hcow⟩
  -- the page is made copy-on-write
  have hself' := h'.run.resolve_self
  have henvs : s'.envs = s.envs := (h'.only.envs).trans h.only.envs.symm
  rw [henvs] at hself'
  rw [if_pos hcow]
  rcases h'.run.inv.sysPageMap_put h'.run.current hself' hself' h'.run.dir h'.run.dir huser
    huser hok
      (by rwa [pdx_pgaddr, ptx_pgaddr]) (fun hh => absurd (dupPerm_read_only _) hh)
      (by rw [pdx_pgaddr, ptx_pgaddr]; exact h'.run.inv.mappable_again hp') with
    ⟨-, -, hnone⟩ | ⟨s'', fl'', hremap, hput'⟩
  · rw [pdx_pgaddr] at hnone
    exact absurd ((leaf_eq_none hnone j).symm.trans hp') (by simp)
  obtain ⟨h'', hself'', htgt⟩ := h'.keep hb hok.isPerm hp' hput'
  refine ⟨fl'', s'', ?_, h'', (congrFun htgt (.page e i j)).trans hp',
    (congrFun htgt (.page c i j)).trans hpc, ?_⟩
  · rw [run_bind_ok (checked_ok hremap zero_not_pos), if_neg zero_not_neg]
    rfl
  · rw [hself'', entry_and (by decide) (by decide)]
    exact dupPerm_read_only _

/-- **The loop body of `Jos.fork`.** -/
theorem forkPage_run (hb : Begun res fl₁ s₁ e c d dc cid) (hij : (i, j) ∈ forkRange)
    (hD : (i, j) ∉ D) :
    (s.table e i = none ∧
      ∃ x s', (Jos.forkPage cid (pgnum (pgaddr i j 0#32))).run s = .error x s') ∨
    ((Jos.forkPage cid (pgnum (pgaddr i j 0#32))).run s = .ok true s ∧
      (s.leaf e i j = none ∨ s.leaf e i j ≠ none ∧ fl = [] ∧ s.table c i = none)) ∨
    ∃ p fl' s', (Jos.forkPage cid (pgnum (pgaddr i j 0#32))).run s = .ok true s' ∧
      Filling res fl₁ s₁ e c d dc S (insert (i, j) D) fl' s' ∧ s.leaf e i j = some p ∧
      s'.leaf e i j = some p ∧ s'.leaf c i j = some p ∧ s'.entry e i j &&& pteW = 0#32 := by
  rw [Jos.forkPage]
  cases ht : s.table e i with
  | none =>
    have ht' : s.table e (pdx (pgaddr i j 0#32)) = none := by rwa [pdx_pgaddr]
    obtain ⟨x, s', hload⟩ := h.run.uvpt_fault (lt_utop_of_range hij) ht'
    exact Or.inl ⟨rfl, x, s', run_bind_error hload⟩
  | some t =>
    rw [run_bind_ok (h.run.uvpt_load ht j)]
    cases hp : s.leaf e i j with
    | none =>
      refine Or.inr (Or.inl ⟨?_, Or.inl rfl⟩)
      rw [leaf_eq_framed] at hp
      rw [if_neg (not_not.2 (framed_eq_none.1 hp))]
      rfl
    | some p =>
      have hpres := (framed_eq_some.1 ((leaf_eq_framed s e i j).symm.trans hp)).1
      rw [if_pos hpres]
      rcases h.duppage_run hb hij hp hD with ⟨hdup, hfl, htc⟩ | ⟨fl', s', hdup, h', hpe, hpc, hw⟩
      · refine Or.inr (Or.inl ⟨?_, Or.inr ⟨by simp, hfl, htc⟩⟩)
        rw [run_bind_ok hdup]
        rfl
      · refine Or.inr (Or.inr ⟨p, fl', s', ?_, h', rfl, hpe, hpc, hw⟩)
        rw [run_bind_ok hdup]
        rfl

end Filling

end Jos
