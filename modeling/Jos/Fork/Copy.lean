import Jos.Fork.Run
import Mathlib.Data.Set.Insert

/-!
# Copying an address space

`fork` and `sfork` go through the parent's pages and make two kinds of calls: a page is mapped into
the child at the same address, and a page of the parent is mapped where it is already, with other
flags.  `Copying` says where such a sequence of calls stands, in terms of the pages that the child
has by now and the pages of the parent whose flags are new.

The child starts without a page table, so what the calls take from the free list are its page
tables, one for each that it has by now.
-/

set_option autoImplicit false

namespace Jos

open Kernel Command

variable {res : Nat → Prop} {fl fl' fl₁ : List Nat} {s s' s₁ : Kernel} {e c : EnvIndex}
variable {d dc p t : Nat} {va cid perm w : Word} {i j : Index}

/-! ## Entries -/

/-- The entry that maps the page of `w` with the flags `perm`. -/
def remap (perm w : Word) : Word := page2pa (pgnum (pteAddr w)) ||| pteP ||| perm

/-- The flags of a page that is copy-on-write. -/
def cowPerm : Word := pteU ||| pteP ||| pteCow

theorem framed_remap (hperm : IsPerm perm) (h : framed w = some p) :
    framed (remap perm w) = some p := by
  obtain ⟨-, rfl⟩ := framed_eq_some.1 h
  exact framed_entry (framed_lt h) hperm

theorem remap_of_framed (h : framed w = some p) : remap perm w = page2pa p ||| pteP ||| perm := by
  rw [remap, (framed_eq_some.1 h).2]

/-- A page that is mapped has an address that the system calls accept. -/
theorem userPage_pgaddr (h : s.leaf e i j = some p) : UserPage (pgaddr i j 0#32) := by
  obtain ⟨t, ht, -⟩ := leaf_eq_some.1 h
  refine ⟨(lt_utop_iff _).2 (by rw [pdx_pgaddr]; exact (table_eq_some.1 ht).1), ?_⟩
  apply BitVec.eq_of_toNat_eq
  rw [BitVec.toNat_umod, pgaddr_toNat]
  show (i.val * 4194304 + j.val * 4096) % 4096 = 0
  omega

/-- A page can be mapped again where it is. -/
theorem Inv.mappable_again (h : Inv res fl s) (hp : s.leaf e i j = some p) :
    Mappable res fl s e i j p :=
  h.mappable hp (Or.inr hp)

/-- The slots for the pages of environment `e`. -/
def Slot.IsPageOf (e : EnvIndex) : Slot → Prop
  | page e' _ _ => e' = e
  | _ => False

instance (e : EnvIndex) : DecidablePred (Slot.IsPageOf e)
  | .dir _ => isFalse id
  | .table _ _ => isFalse id
  | .page e' _ _ => inferInstanceAs (Decidable (e' = e))

/-- Every page that the environment maps can be mapped as many times again before its reference
count overflows. -/
def Kernel.Room (s : Kernel) (e : EnvIndex) : Prop :=
  ∀ p, s.counts p + Ledger.refsIn (Slot.IsPageOf e) s.target p ≤ 65535

/-- Every page that it maps in `V` can be. -/
def Kernel.RoomIn (s : Kernel) (e : EnvIndex) (V : Set (Index × Index)) : Prop :=
  ∀ i j p, (i, j) ∈ V → s.leaf e i j = some p →
    s.counts p + Ledger.refsIn (Slot.IsPageOf e) s.target p ≤ 65535

theorem Kernel.Room.roomIn (h : s.Room e) (V : Set (Index × Index)) : s.RoomIn e V :=
  fun _ _ p _ _ => h p

/-- The pages in `[UTEXT, UXSTACKTOP-PGSIZE)`. -/
def forkRange : Set (Index × Index) :=
  {x | utext ≤ pgaddr x.1 x.2 0#32 ∧ pgaddr x.1 x.2 0#32 < uxstacktop - pgsize}

/-! ## The child -/

/-- Environment `e` has just made the child `c` with `sys_exofork`, and knows it as `cid`. -/
structure Begun (res : Nat → Prop) (fl₁ : List Nat) (s₁ : Kernel) (e c : EnvIndex) (d dc : Nat)
    (cid : Word) : Prop where
  parent : Running res fl₁ s₁ e d
  ne : c ≠ e
  dir : s₁.dir c = some dc
  fresh : ∀ i, s₁.table c i = none
  id : s₁.resolve e cid = some c
  room : s₁.RoomIn e forkRange

/-- From `s₁` on, the pages in `D` have been mapped into the child, page `i`, `j` with the flags
`sent i j`, and the pages in `K` of the parent have been made copy-on-write. -/
structure Copying (res : Nat → Prop) (fl₁ : List Nat) (s₁ : Kernel) (e c : EnvIndex) (d dc : Nat)
    (sent : Index → Index → Word) (K D : Set (Index × Index)) (fl : List Nat) (s : Kernel) :
    Prop where
  inv : Inv res fl s
  only : MemOnly s₁ s
  frame : Frame res (fun x => x = e ∨ x = c) s₁ s
  data : ∀ p, s₁.IsData fl₁ p → s.mem p = s₁.mem p
  parentDir : s.mem d = s₁.mem d
  kept : ∀ i j, (i, j) ∉ K → s.entry e i j = s₁.entry e i j
  marked : ∀ i j, (i, j) ∈ K → s.entry e i j = remap cowPerm (s₁.entry e i j)
  copied : ∀ i j, (i, j) ∈ D → s.entry c i j = remap (sent i j) (s₁.entry e i j)
  absent : ∀ i j, (i, j) ∉ D → s.entry c i j = 0#32
  /-- Only pages that the parent maps are dealt with. -/
  mapped : ∀ i j, (i, j) ∈ K ∪ D → s₁.leaf e i j ≠ none
  tables : ∀ i t, s.table c i = some t → s.mem dc i = page2pa t ||| pteP ||| pteW ||| pteU
  used : ∀ i, s.table c i ≠ none ↔ ∃ j, (i, j) ∈ D
  /-- The pages taken are the child's page tables. -/
  taken : ∃ ts, fl₁ = ts ++ fl ∧ ∀ t, t ∈ ts ↔ ∃ i, s.table c i = some t

namespace Begun

variable (hb : Begun res fl₁ s₁ e c d dc cid) {sent : Index → Index → Word}
include hb

/-- Nothing has been copied. -/
theorem start (sent : Index → Index → Word) :
    Copying res fl₁ s₁ e c d dc sent ∅ ∅ fl₁ s₁ where
  inv := hb.parent.inv
  only := MemOnly.refl s₁
  frame := Frame.refl _ _ _
  data p _ := rfl
  parentDir := rfl
  kept i j _ := rfl
  marked i j h := absurd h (Set.notMem_empty _)
  copied i j h := absurd h (Set.notMem_empty _)
  absent i j _ := entry_of_none (hb.fresh i) j
  mapped i j h := absurd h (by simp)
  tables i t ht := absurd ((hb.fresh i).symm.trans ht) (by simp)
  used i := by simp [hb.fresh i]
  taken := ⟨[], rfl, fun t => by simp [hb.fresh]⟩

end Begun

namespace Copying

variable {sent : Index → Index → Word} {K D : Set (Index × Index)}
variable (h : Copying res fl₁ s₁ e c d dc sent K D fl s)
include h

theorem dir (x : EnvIndex) : s.dir x = s₁.dir x := dir_of_envs h.only.envs x

/-- The parent's page tables stay where they are. -/
theorem table_parent (hd : s₁.dir e = some d) (i : Index) : s.table e i = s₁.table e i := by
  by_cases hi : i.val < userPdes
  · rw [table_of_dir ((h.dir e).trans hd) hi, table_of_dir hd hi, h.parentDir]
  · rw [Kernel.table, Kernel.table, if_neg hi, if_neg hi]

/-- The same pages stay mapped, -/
theorem leaf_parent (i j : Index) : s.leaf e i j = s₁.leaf e i j := by
  by_cases hK : (i, j) ∈ K
  · obtain ⟨p, hp⟩ := Option.ne_none_iff_exists'.1 (h.mapped i j (Or.inl hK))
    rw [leaf_eq_framed, h.marked i j hK, hp]
    exact framed_remap (by decide) ((leaf_eq_framed s₁ e i j).symm.trans hp)
  · rw [leaf_eq_framed, h.kept i j hK, leaf_eq_framed]

/-- in every environment but the child. -/
theorem leaf_other {x : EnvIndex} (hx : x ≠ c) (i j : Index) : s.leaf x i j = s₁.leaf x i j := by
  by_cases he : x = e
  · rw [he]
    exact h.leaf_parent i j
  · exact h.frame.target (k := .page x i j) fun hh => hh.elim he hx

theorem leaf_child (hperm : ∀ i j, IsPerm (sent i j)) (i j : Index) :
    s.leaf c i j = s₁.leaf e i j ∧ (i, j) ∈ D ∨ s.leaf c i j = none ∧ (i, j) ∉ D := by
  by_cases hD : (i, j) ∈ D
  · obtain ⟨p, hp⟩ := Option.ne_none_iff_exists'.1 (h.mapped i j (Or.inr hD))
    refine Or.inl ⟨?_, hD⟩
    rw [leaf_eq_framed, h.copied i j hD, hp]
    exact framed_remap (hperm i j) ((leaf_eq_framed s₁ e i j).symm.trans hp)
  · refine Or.inr ⟨?_, hD⟩
    rw [leaf_eq_framed, h.absent i j hD, framed_zero]

theorem free_subset : fl ⊆ fl₁ := by
  obtain ⟨ts, rfl, -⟩ := h.taken
  exact List.subset_append_right ts fl

/-- The parent can go on. -/
theorem running (hb : Begun res fl₁ s₁ e c d dc cid) : Running res fl s e d := by
  refine hb.parent.of_memOnly h.only h.inv fun i t ht => ?_
  rw [h.parentDir]
  exact hb.parent.tables i t ((h.table_parent hb.parent.dir i).symm.trans ht)

theorem id (hb : Begun res fl₁ s₁ e c d dc cid) : s.resolve e cid = some c := by
  have henvs := h.only.envs
  rw [← hb.id]
  simp only [Kernel.resolve, henvs]

/-- What is neither a table nor free stays so. -/
theorem isData (hb : Begun res fl₁ s₁ e c d dc cid) {p : Nat} (hp : s₁.IsData fl₁ p) :
    s.IsData fl p := by
  refine ⟨fun hm => hp.1 (h.free_subset hm), fun k hk hkp => ?_⟩
  cases k with
  | dir x => exact hp.2 (.dir x) trivial ((h.dir x).symm.trans hkp)
  | page x i j => exact hk
  | table x i =>
    by_cases hxe : x = e
    · subst hxe
      exact hp.2 (.table x i) trivial ((h.table_parent hb.parent.dir i).symm.trans hkp)
    · by_cases hxc : x = c
      · subst hxc
        obtain ⟨ts, rfl, hts⟩ := h.taken
        exact hp.1 (List.mem_append_left fl ((hts p).2 ⟨i, hkp⟩))
      · have htgt := h.frame.target (k := .table x i) fun hh => hh.elim hxe hxc
        exact hp.2 (.table x i) trivial (htgt.symm.trans hkp)

/-- The child has fewer mappings of a page than the parent as long as one is missing, so there is
room in its count. -/
theorem room (hb : Begun res fl₁ s₁ e c d dc cid) (hperm : ∀ i j, IsPerm (sent i j))
    (hij : (i, j) ∈ forkRange) (hp : s₁.leaf e i j = some p) (hD : (i, j) ∉ D) :
    s.counts p < 65535 := by
  have hpe : s.target (.page e i j) = some p := (h.leaf_parent i j).trans hp
  have hres := h.inv.target_res hpe
  have hcount : s.counts p = Ledger.refs s.target p := h.inv.ok.ref_eq p hres
  have hcount₁ : s₁.counts p = Ledger.refs s₁.target p := hb.parent.inv.ok.ref_eq p hres
  have hsplit : Ledger.refs (fun k => if k.IsPageOf c then none else s.target k) p +
      Ledger.refsIn (Slot.IsPageOf c) s.target p = Ledger.refs s.target p :=
    Ledger.refs_add_refsIn (fun k hk => if_pos hk) (fun k hk => if_neg hk) p
  have hless : Ledger.refs (fun k => if k.IsPageOf c then none else s.target k) p ≤
      Ledger.refs s₁.target p := by
    refine Ledger.refs_mono fun k hk => ?_
    by_cases hkc : k.IsPageOf c
    · rw [if_pos hkc] at hk
      cases hk
    · rw [if_neg hkc] at hk
      cases k with
      | page x i' j' => exact (h.leaf_other hkc i' j').symm.trans hk
      | dir x =>
        exact absurd (h.inv.ok.node_unique (.dir x) p trivial hk (.page e i j) hpe) (by simp)
      | table x i' =>
        exact absurd (h.inv.ok.node_unique (.table x i') p trivial hk (.page e i j) hpe) (by simp)
  have hlt : Ledger.refsIn (Slot.IsPageOf c) s.target p <
      Ledger.refsIn (Slot.IsPageOf e) s₁.target p := by
    let g : Slot → Slot := fun k => match k with
      | .page _ i j => .page e i j
      | k => k
    have hown : Slot.IsPageOf e (.page e i j) := rfl
    refine Ledger.refsIn_lt g (fun k hk hkp => ?_) (fun k k' hk hk' hg => ?_) hown hp
      fun k hk hkp hg => ?_
    · match k, hk with
      | .page x i' j', hk =>
        obtain rfl : x = c := hk
        rcases h.leaf_child hperm i' j' with ⟨hl, -⟩ | ⟨hl, -⟩
        · exact ⟨rfl, hl.symm.trans hkp⟩
        · exact absurd (hl.symm.trans hkp) (by simp)
    · match k, k', hk, hk' with
      | .page x i' j', .page x' i'' j'', hk, hk' =>
        obtain rfl : x = c := hk
        obtain rfl : x' = x := hk'
        cases hg
        rfl
    · match k, hk with
      | .page x i' j', hk =>
        obtain rfl : x = c := hk
        obtain ⟨rfl, rfl⟩ : i' = i ∧ j' = j := by simpa [g] using hg
        rcases h.leaf_child hperm i' j' with ⟨-, hl⟩ | ⟨hl, -⟩
        · exact hD hl
        · exact absurd (hl.symm.trans hkp) (by simp)
  have hroom := hb.room i j p hij hp
  omega

/-! ### One call -/

/-- **A page is mapped into the child.** -/
theorem send (hb : Begun res fl₁ s₁ e c d dc cid) (hp : s₁.leaf e i j = some p) (hD : (i, j) ∉ D)
    (hput : PagePut res fl s c dc (pgaddr i j 0#32) (sent i j) p fl' s') :
    Copying res fl₁ s₁ e c d dc sent K (insert (i, j) D) fl' s' := by
  have hd : s.dir c = some dc := (h.dir c).trans hb.dir
  have hedit := hput.inserted.edited
  have hec : ¬ e = c := fun hh => hb.ne hh.symm
  have hi : i.val < userPdes := (table_eq_some.1 (leaf_eq_some.1 hp).choose_spec.1).1
  have hva : pgaddr i j 0#32 < utop := (lt_utop_iff _).2 (by rwa [pdx_pgaddr])
  have hself : s'.entry c i j = page2pa p ||| pteP ||| sent i j := by
    have h0 := congrFun (congrFun (congrFun hedit.entry c) i) j
    rwa [pdx_pgaddr, ptx_pgaddr, setEntry_self] at h0
  have hother : ∀ i' j', (i', j') ≠ (i, j) → s'.entry c i' j' = s.entry c i' j' := by
    intro i' j' hne
    rw [hedit.entry, pdx_pgaddr, ptx_pgaddr, setEntry, if_neg fun hh => hne ?_]
    rw [hh.2.1, hh.2.2]
  -- the tables of the child, old and new
  have htables : s.table c i ≠ none ∧ fl' = fl ∧ s'.mem dc = s.mem dc ∧
        (∀ i', s'.table c i' = s.table c i') ∨
      ∃ t, fl = t :: fl' ∧ s.table c i = none ∧ s'.table c i = some t ∧
        s'.mem dc i = page2pa t ||| pteP ||| pteW ||| pteU ∧
        ∀ i', i' ≠ i → s'.mem dc i' = s.mem dc i' ∧ s'.table c i' = s.table c i' := by
    cases ht : s.table c i with
    | some t =>
      have hsome : s.table c (pdx (pgaddr i j 0#32)) ≠ none := by simp [pdx_pgaddr, ht]
      refine Or.inl ⟨by simp, ?_, funext fun i' => hput.pde i' fun _ => hsome, fun i' =>
        hput.table hd fun _ => hsome⟩
      have hnone : s.leaf c i j = none := by
        rw [leaf_eq_framed, h.absent i j hD, framed_zero]
      rw [(hput.present hsome).2, pdx_pgaddr, ptx_pgaddr, hnone, released]
    | none =>
      have hmiss : s.table c (pdx (pgaddr i j 0#32)) = none := by rw [pdx_pgaddr, ht]
      obtain ⟨t, hfl, hnew⟩ := hput.table_new hd h.inv hva hmiss
      obtain ⟨t', hfl', hpde, -⟩ := hput.missing hmiss
      obtain rfl : t = t' := (List.cons.inj (hfl.symm.trans hfl')).1
      rw [pdx_pgaddr] at hnew hpde
      refine Or.inr ⟨t, hfl, rfl, hnew, hpde, fun i' hne => ?_⟩
      have hout : i' = pdx (pgaddr i j 0#32) → s.table c (pdx (pgaddr i j 0#32)) ≠ none :=
        fun hh => absurd (hh.trans (pdx_pgaddr i j)) hne
      exact ⟨hput.pde i' hout, hput.table hd hout⟩
  refine
    { inv := hput.inv
      only := MemOnly.trans _ _ _ h.only hedit.memOnly
      frame := h.frame.trans (hedit.frame.mono fun x hx => Or.inr hx)
      data := fun p hp => (hedit.data p (h.isData hb hp)).trans (h.data p hp)
      parentDir := ?_
      kept := fun i' j' hK => (hedit.frame.entry hec i' j').trans (h.kept i' j' hK)
      marked := fun i' j' hK => (hedit.frame.entry hec i' j').trans (h.marked i' j' hK)
      copied := fun i' j' hD' => ?_
      absent := fun i' j' hD' => ?_
      mapped := fun i' j' hm => ?_
      tables := fun i' t ht => ?_
      used := fun i' => ?_
      taken := ?_ }
  · refine (hedit.frame.mem d fun hpriv => hec ?_).trans h.parentDir
    exact hpriv.2 (.dir e) ((h.dir e).trans hb.parent.dir)
  · by_cases hij : (i', j') = (i, j)
    · obtain ⟨rfl, rfl⟩ := Prod.mk.inj hij
      rw [hself, remap_of_framed ((leaf_eq_framed s₁ e i' j').symm.trans hp)]
    · rw [hother i' j' hij]
      exact h.copied i' j' (hD'.resolve_left hij)
  · rw [hother i' j' fun hh => hD' (Or.inl hh)]
    exact h.absent i' j' fun hh => hD' (Or.inr hh)
  · rcases hm with hK | hij | hD'
    · exact h.mapped i' j' (Or.inl hK)
    · obtain ⟨rfl, rfl⟩ := Prod.mk.inj hij
      simp [hp]
    · exact h.mapped i' j' (Or.inr hD')
  · rcases htables with ⟨-, -, hmem, htab⟩ | ⟨t', -, -, hnew, hpde, hrest⟩
    · rw [hmem]
      exact h.tables i' t ((htab i').symm.trans ht)
    · by_cases hii : i' = i
      · subst hii
        obtain rfl : t' = t := Option.some_inj.1 (hnew.symm.trans ht)
        exact hpde
      · rw [(hrest i' hii).1]
        exact h.tables i' t ((hrest i' hii).2.symm.trans ht)
  · have hins : (∃ j', (i', j') ∈ insert (i, j) D) ↔ i' = i ∨ s.table c i' ≠ none := by
      rw [h.used]
      constructor
      · rintro ⟨j', hj | hj⟩
        · exact Or.inl (Prod.mk.inj hj).1
        · exact Or.inr ⟨j', hj⟩
      · rintro (rfl | ⟨j', hj⟩)
        · exact ⟨j, Or.inl rfl⟩
        · exact ⟨j', Or.inr hj⟩
    rw [hins]
    rcases htables with ⟨hsome, -, -, htab⟩ | ⟨t', -, -, hnew, -, hrest⟩
    · rw [htab]
      exact ⟨Or.inr, fun hh => hh.elim (fun hii => hii ▸ hsome) fun hh => hh⟩
    · by_cases hii : i' = i
      · subst hii
        simp [hnew]
      · rw [(hrest i' hii).2]
        exact ⟨Or.inr, fun hh => hh.resolve_left hii⟩
  · obtain ⟨ts, hfl, hts⟩ := h.taken
    rcases htables with ⟨-, hfl', -, htab⟩ | ⟨t', hfl', hnone, hnew, -, hrest⟩
    · exact ⟨ts, by rw [hfl', hfl], fun t => by simp only [hts, htab]⟩
    · refine ⟨ts ++ [t'], by rw [hfl, hfl', List.append_assoc]; rfl, fun t => ?_⟩
      rw [List.mem_append, hts, List.mem_singleton]
      constructor
      · rintro (⟨i', hi'⟩ | rfl)
        · refine ⟨i', ?_⟩
          rwa [(hrest i' fun hii => by simp [hii, hnone] at hi').2]
        · exact ⟨i, hnew⟩
      · rintro ⟨i', hi'⟩
        by_cases hii : i' = i
        · subst hii
          exact Or.inr (Option.some_inj.1 (hi'.symm.trans hnew))
        · exact Or.inl ⟨i', (hrest i' hii).2.symm.trans hi'⟩

/-- **A page of the parent is mapped anew where it is**, which takes no page and frees none. -/
theorem keep (hb : Begun res fl₁ s₁ e c d dc cid) (hp : s₁.leaf e i j = some p)
    (hput : PagePut res fl s e d (pgaddr i j 0#32) cowPerm p fl' s') :
    fl' = fl ∧ Copying res fl₁ s₁ e c d dc sent (insert (i, j) K) D fl s' := by
  have hd : s.dir e = some d := (h.dir e).trans hb.parent.dir
  have hedit := hput.inserted.edited
  have hce : ¬ c = e := hb.ne
  have hps : s.leaf e i j = some p := (h.leaf_parent i j).trans hp
  have hsome : s.table e (pdx (pgaddr i j 0#32)) ≠ none := by
    rw [pdx_pgaddr]
    intro hn
    exact absurd ((leaf_eq_none hn j).symm.trans hps) (by simp)
  have hself : s'.entry e i j = page2pa p ||| pteP ||| cowPerm := by
    have h0 := congrFun (congrFun (congrFun hedit.entry e) i) j
    rwa [pdx_pgaddr, ptx_pgaddr, setEntry_self] at h0
  have hother : ∀ i' j', (i', j') ≠ (i, j) → s'.entry e i' j' = s.entry e i' j' := by
    intro i' j' hne
    rw [hedit.entry, pdx_pgaddr, ptx_pgaddr, setEntry, if_neg fun hh => hne ?_]
    rw [hh.2.1, hh.2.2]
  have hfl : fl' = fl := by
    rw [(hput.present hsome).2, pdx_pgaddr, ptx_pgaddr, hps, released, if_neg fun hh => hh.1 rfl]
  have htab : ∀ i', s'.table c i' = s.table c i' := fun i' =>
    hedit.frame.target (k := .table c i') hce
  have hdc : s'.mem dc = s.mem dc := hedit.frame.mem dc fun hpriv =>
    hce (hpriv.2 (.dir c) ((h.dir c).trans hb.dir))
  refine ⟨hfl,
    { inv := hfl ▸ hput.inv
      only := MemOnly.trans _ _ _ h.only hedit.memOnly
      frame := h.frame.trans (hedit.frame.mono fun x hx => Or.inl hx)
      data := fun p hp => (hedit.data p (h.isData hb hp)).trans (h.data p hp)
      parentDir := (funext fun i' => hput.pde i' fun _ => hsome).trans h.parentDir
      kept := fun i' j' hK => ?_
      marked := fun i' j' hK => ?_
      copied := fun i' j' hD => (hedit.frame.entry hce i' j').trans (h.copied i' j' hD)
      absent := fun i' j' hD => (hedit.frame.entry hce i' j').trans (h.absent i' j' hD)
      mapped := fun i' j' hm => ?_
      tables := fun i' t ht => ?_
      used := fun i' => by rw [htab]; exact h.used i'
      taken := ?_ }⟩
  · rw [hother i' j' fun hh => hK (Or.inl hh)]
    exact h.kept i' j' fun hh => hK (Or.inr hh)
  · by_cases hij : (i', j') = (i, j)
    · obtain ⟨rfl, rfl⟩ := Prod.mk.inj hij
      rw [hself, remap_of_framed ((leaf_eq_framed s₁ e i' j').symm.trans hp)]
    · rw [hother i' j' hij]
      exact h.marked i' j' (hK.resolve_left hij)
  · rcases hm with (hij | hK) | hD
    · obtain ⟨rfl, rfl⟩ := Prod.mk.inj hij
      simp [hp]
    · exact h.mapped i' j' (Or.inl hK)
    · exact h.mapped i' j' (Or.inr hD)
  · rw [hdc]
    exact h.tables i' t ((htab i').symm.trans ht)
  · simp only [htab]
    exact h.taken

/-- Such a call fails only if the child lacks the page table and there is no page for it. -/
theorem map_child (hb : Begun res fl₁ s₁ e c d dc cid) (hperm : ∀ i j, IsPerm (sent i j))
    (hok : PermOk (sent i j))
    (hw : sent i j &&& pteW ≠ 0#32 → s.entry e i j &&& pteW ≠ 0#32)
    (hij : (i, j) ∈ forkRange) (hp : s₁.leaf e i j = some p) (hD : (i, j) ∉ D) :
    ((sysPageMap (s₁.envs e).envId (pgaddr i j 0#32) cid (pgaddr i j 0#32) (sent i j)).run s =
        .ok (-eNoMem) s ∧ fl = [] ∧ s.table c i = none) ∨
    ∃ fl' s', (sysPageMap (s₁.envs e).envId (pgaddr i j 0#32) cid (pgaddr i j 0#32)
        (sent i j)).run s = .ok 0#32 s' ∧
      Copying res fl₁ s₁ e c d dc sent K (insert (i, j) D) fl' s' := by
  have hrun := h.running hb
  have henvs := h.only.envs
  have hself := hrun.resolve_self
  rw [henvs] at hself
  have hps : s.leaf e i j = some p := (h.leaf_parent i j).trans hp
  have huser := userPage_pgaddr hp
  have hagain := h.inv.mappable_again hps
  have hm : Mappable res fl s c i j p :=
    ⟨hagain.not_free, hagain.not_res, hagain.not_node,
      Or.inl (h.room hb hperm hij hp hD)⟩
  rcases h.inv.sysPageMap_put hrun.current hself (h.id hb) hrun.dir
    ((h.dir c).trans hb.dir) huser huser hok
      (by rwa [pdx_pgaddr, ptx_pgaddr]) (by rwa [pdx_pgaddr, ptx_pgaddr])
      (by rwa [pdx_pgaddr, ptx_pgaddr]) with ⟨hfail, hfl, ht⟩ | ⟨s', fl', hput, hp'⟩
  · exact Or.inl ⟨hfail, hfl, by rwa [pdx_pgaddr] at ht⟩
  · exact Or.inr ⟨fl', s', hput, h.send hb hp hD hp'⟩

/-- The other call does not fail. -/
theorem map_self (hb : Begun res fl₁ s₁ e c d dc cid) (hp : s₁.leaf e i j = some p) :
    ∃ s', (sysPageMap (s₁.envs e).envId (pgaddr i j 0#32) (s₁.envs e).envId (pgaddr i j 0#32)
        cowPerm).run s = .ok 0#32 s' ∧
      Copying res fl₁ s₁ e c d dc sent (insert (i, j) K) D fl s' := by
  have hrun := h.running hb
  have henvs := h.only.envs
  have hself := hrun.resolve_self
  rw [henvs] at hself
  have hps : s.leaf e i j = some p := (h.leaf_parent i j).trans hp
  have huser := userPage_pgaddr hp
  have hm : Mappable res fl s e i j p := h.inv.mappable_again hps
  have hok : PermOk cowPerm := by decide
  rcases h.inv.sysPageMap_put hrun.current hself hself hrun.dir hrun.dir huser huser hok
      (by rwa [pdx_pgaddr, ptx_pgaddr]) (fun hh => absurd (by decide) hh)
      (by rwa [pdx_pgaddr, ptx_pgaddr]) with ⟨-, -, ht⟩ | ⟨s', fl', hput, hp'⟩
  · rw [pdx_pgaddr] at ht
    exact absurd ((leaf_eq_none ht j).symm.trans hps) (by simp)
  · obtain ⟨rfl, hc⟩ := h.keep hb hp hp'
    exact ⟨s', hput, hc⟩

end Copying

end Jos
