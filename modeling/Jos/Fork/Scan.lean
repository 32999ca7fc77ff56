import Jos.Fork.Copy
import Mathlib.Data.Set.Card

/-!
# The loops of `fork` and `sfork`

Both go through the pages from `UTEXT` up to the exception stack, and handle each of them in one of
three ways: a page that is not mapped is passed over, a page is mapped into the child, or that
fails, because there is no page left for a page table of the child.  `Visiting` is what holds in
between, and `scan_run` what holds when the loops are through.

A failure does not stop `fork`.  It shows in the count: the child needs more page tables than there
were free pages.
-/

set_option autoImplicit false

namespace Jos

open Kernel Command

variable {res : Nat → Prop} {fl fl' fl₁ : List Nat} {s s' s₁ : Kernel} {e c : EnvIndex}
variable {d dc p t : Nat} {cid : Word} {i j : Index} {sent : Index → Index → Word}
variable {K D M V W : Set (Index × Index)}

/-! ## Pages -/

/-- The pages that environment `e` maps. -/
def Kernel.presentPages (s : Kernel) (e : EnvIndex) : Set (Index × Index) :=
  {x | s.leaf e x.1 x.2 ≠ none}

/-- The pages that `duppage` makes copy-on-write. -/
def Kernel.cowPages (s : Kernel) (e : EnvIndex) : Set (Index × Index) :=
  {x | dupPerm (s.entry e x.1 x.2) = cowPerm}

/-- How many page tables it takes to map the pages in `V`. -/
noncomputable def tablesOf (V : Set (Index × Index)) : Nat := {i : Index | ∃ j, (i, j) ∈ V}.ncard

theorem mem_scanRange : i ∈ scanRange ↔ pdx utext ≤ i ∧ i < pdx uxstacktop := by
  simp [scanRange, mem_indices]

theorem mem_forkRange : (i, j) ∈ forkRange ↔
    i ∈ scanRange ∧ pgnum (pgaddr i j 0#32) ≠ pgnum (uxstacktop - pgsize) := by
  have hi := i.isLt
  have hj := j.isLt
  have h0 : (pdx utext).val = 2 := by decide
  have h1 : (pdx uxstacktop).val = 955 := by decide
  have h2 : pgnum (uxstacktop - pgsize) = 977919 := by decide
  have h3 : (uxstacktop - pgsize).toNat = 977919 * 4096 := by decide
  have h4 : utext.toNat = 8388608 := by decide
  rw [mem_scanRange, pgnum_pgaddr, h2, Fin.le_def, Fin.lt_def, h0, h1]
  show utext.toNat ≤ (pgaddr i j 0#32).toNat ∧
    (pgaddr i j 0#32).toNat < (uxstacktop - pgsize).toNat ↔ _
  rw [pgaddr_toNat, h3, h4]
  omega

theorem tablesOf_mono (h : V ⊆ W) : tablesOf V ≤ tablesOf W :=
  Set.ncard_le_ncard (fun _ ⟨j, hj⟩ => ⟨j, h hj⟩) (Set.toFinite _)

theorem dupPerm_cases (w : Word) : dupPerm w = cowPerm ∨ dupPerm w = pteU ||| pteP := by
  rw [dupPerm]
  split
  · exact Or.inl rfl
  · exact Or.inr rfl

theorem dupPerm_ok (w : Word) : PermOk (dupPerm w) := by
  rcases dupPerm_cases w with h | h <;> rw [h] <;> decide

theorem dupPerm_read_only (w : Word) : dupPerm w &&& pteW = 0#32 := by
  rcases dupPerm_cases w with h | h <;> rw [h] <;> decide

theorem dupPerm_cow (w : Word) : dupPerm w &&& pteCow ≠ 0#32 ↔ dupPerm w = cowPerm := by
  rcases dupPerm_cases w with h | h <;> rw [h] <;> decide

/-- What has been taken from the free list are page tables. -/
theorem Copying.length (hb : Begun res fl₁ s₁ e c d dc cid)
    (h : Copying res fl₁ s₁ e c d dc sent K D fl s) : fl₁.length = tablesOf D + fl.length := by
  obtain ⟨ts, rfl, hts⟩ := h.taken
  have hnodup : ts.Nodup := (List.nodup_append.1 hb.parent.inv.ok.nodup).1
  have hset : {i : Index | ∃ j, (i, j) ∈ D} = {i | s.table c i ≠ none} := by
    ext i
    exact (h.used i).symm
  have himage : (fun i => (s.table c i).getD 0) '' {i | s.table c i ≠ none} = ↑ts.toFinset := by
    ext t
    rw [Finset.mem_coe, List.mem_toFinset, hts]
    constructor
    · rintro ⟨i, hi, rfl⟩
      obtain ⟨t, ht⟩ := Option.ne_none_iff_exists'.1 hi
      exact ⟨i, by simp [ht]⟩
    · rintro ⟨i, hi⟩
      exact ⟨i, by simp [hi], by simp [hi]⟩
  have hinj : Set.InjOn (fun i => (s.table c i).getD 0) {i | s.table c i ≠ none} := by
    intro i hi i' hi' heq
    obtain ⟨t, ht⟩ := Option.ne_none_iff_exists'.1 hi
    obtain ⟨t', ht'⟩ := Option.ne_none_iff_exists'.1 hi'
    simp only [ht, ht', Option.getD_some] at heq
    subst heq
    have heq : Slot.table c i' = .table c i :=
      h.inv.ok.node_unique (.table c i) t trivial ht (.table c i') ht'
    exact (Slot.table.inj heq).2.symm
  rw [List.length_append, tablesOf, hset, ← hinj.ncard_image, himage,
    Set.ncard_coe_finset, List.toFinset_card_of_nodup hnodup]

/-! ## The pages visited -/

/-- The pages of page table `i` that are to be visited, of those in `js`. -/
def tablePages (i : Index) (js : List Index) : Set (Index × Index) :=
  {x | x.1 = i ∧ x.2 ∈ js ∧ x ∈ forkRange}

/-- The pages to be visited of the page tables in `is`. -/
def rangePages (is : List Index) : Set (Index × Index) := {x | x.1 ∈ is ∧ x ∈ forkRange}

theorem union_tablePages_cons {js : List Index} (hij : (i, j) ∈ forkRange) :
    V ∪ tablePages i (j :: js) = insert (i, j) V ∪ tablePages i js := by
  ext ⟨i', j'⟩
  simp only [tablePages, Set.mem_union, Set.mem_ofPred_eq, Set.mem_insert_iff, Prod.mk.injEq,
    List.mem_cons]
  constructor
  · rintro (hV | ⟨rfl, rfl | hj', hr⟩)
    · exact Or.inl (Or.inr hV)
    · exact Or.inl (Or.inl ⟨rfl, rfl⟩)
    · exact Or.inr ⟨rfl, hj', hr⟩
  · rintro ((⟨rfl, rfl⟩ | hV) | ⟨rfl, hj', hr⟩)
    · exact Or.inr ⟨rfl, Or.inl rfl, hij⟩
    · exact Or.inl hV
    · exact Or.inr ⟨rfl, Or.inr hj', hr⟩

/-- The exception stack is the last page of the range. -/
theorem tablePages_last {js : List Index} (hi : i ∈ scanRange)
    (hexc : pgnum (pgaddr i j 0#32) = pgnum (uxstacktop - pgsize)) (hlt : ∀ j' ∈ js, j < j') :
    tablePages i (j :: js) = ∅ := by
  refine Set.eq_empty_iff_forall_notMem.2 fun x hx => ?_
  obtain ⟨hx1, hx2, hr⟩ := hx
  obtain ⟨i', j'⟩ := x
  obtain rfl : i' = i := hx1
  have hne := (mem_forkRange.1 hr).2
  rcases List.mem_cons.1 hx2 with rfl | hj'
  · exact absurd hexc hne
  · have h1 := hlt j' hj'
    have h2 := (mem_scanRange.1 hi).2
    have h3 : (pdx uxstacktop).val = 955 := by decide
    have h4 : pgnum (uxstacktop - pgsize) = 977919 := by decide
    have h5 := j'.isLt
    rw [pgnum_pgaddr, h4] at hexc
    rw [Fin.lt_def] at h1 h2
    omega

theorem union_rangePages_cons {is : List Index} :
    V ∪ rangePages (i :: is) = (V ∪ tablePages i indices) ∪ rangePages is := by
  ext ⟨i', j'⟩
  simp only [tablePages, rangePages, Set.mem_union, Set.mem_ofPred_eq, List.mem_cons, mem_indices,
    true_and]
  tauto

theorem union_rangePages : ∅ ∪ rangePages scanRange = forkRange := by
  ext ⟨i, j⟩
  rw [Set.empty_union, rangePages, Set.mem_ofPred_eq]
  exact ⟨And.right, fun hh => ⟨(mem_forkRange.1 hh).1, hh⟩⟩

/-- Page table `i` has not been visited before. -/
theorem unvisited_cons {is : List Index} (hnodup : (i :: is).Nodup)
    (hnew : ∀ i' ∈ i :: is, i' ∈ scanRange ∧ ∀ j, (i', j) ∉ V) :
    ∀ i' ∈ is, i' ∈ scanRange ∧ ∀ j, (i', j) ∉ V ∪ tablePages i indices := by
  intro i' hi'
  obtain ⟨hr, hV⟩ := hnew i' (List.mem_cons_of_mem _ hi')
  refine ⟨hr, fun j hh => hh.elim (hV j) fun hh => (List.nodup_cons.1 hnodup).1 ?_⟩
  obtain rfl : i' = i := hh.1
  exact hi'

theorem unvisited_insert {js : List Index} (hlt : ∀ j' ∈ js, j < j')
    (hnew : ∀ j' ∈ j :: js, (i, j') ∉ V) : ∀ j' ∈ js, (i, j') ∉ insert (i, j) V := by
  rintro j' hj' (hh | hh)
  · have hjj : j' = j := (Prod.mk.inj hh).2
    exact absurd (hjj ▸ hlt j' hj') (lt_irrefl j)
  · exact hnew j' (List.mem_cons_of_mem _ hj') hh

/-! ## Loops that go through all pages -/

section

variable {I : Set (Index × Index) → Kernel → Prop} {T : Index → Prop} {bad : Prop}
variable {body : Nat → UserM Bool}

/-- The loop body adds page `i`, `j` to those that `I` is about.  It may fail if `bad`. -/
def BodyKeeps (I : Set (Index × Index) → Kernel → Prop) (bad : Prop) (body : Nat → UserM Bool)
    (i j : Index) : Prop :=
  ∀ V s, I V s → (i, j) ∉ V →
    (bad ∧ ∃ x s', (body (pgnum (pgaddr i j 0#32))).run s = .error x s') ∨
    ∃ s', (body (pgnum (pgaddr i j 0#32))).run s = .ok true s' ∧ I (insert (i, j) V) s'

theorem scanPtes_keeps (hi : i ∈ scanRange)
    (hbody : ∀ j, (i, j) ∈ forkRange → BodyKeeps I bad body i j) :
    ∀ (js : List Index) (V : Set (Index × Index)) (s : Kernel), js.Pairwise (· < ·) →
      (∀ j ∈ js, (i, j) ∉ V) → I V s →
      (bad ∧ ∃ x s', (scanPtes body i js).run s = .error x s') ∨
      ∃ s', (scanPtes body i js).run s = .ok true s' ∧ I (V ∪ tablePages i js) s'
  | [], V, s, _, _, h => by
    have hnil : tablePages i [] = ∅ :=
      Set.eq_empty_iff_forall_notMem.2 fun x hx => absurd hx.2.1 List.not_mem_nil
    refine Or.inr ⟨s, rfl, ?_⟩
    rwa [hnil, Set.union_empty]
  | j :: js, V, s, hsort, hnew, h => by
    obtain ⟨hlt, hsort'⟩ := List.pairwise_cons.1 hsort
    by_cases hexc : pgnum (pgaddr i j 0#32) = pgnum (uxstacktop - pgsize)
    · refine Or.inr ⟨s, ?_, ?_⟩
      · rw [scanPtes, if_pos hexc]
        rfl
      · rwa [tablePages_last hi hexc hlt, Set.union_empty]
    · have hij : (i, j) ∈ forkRange := mem_forkRange.2 ⟨hi, hexc⟩
      rw [scanPtes, if_neg hexc, union_tablePages_cons hij]
      rcases hbody j hij V s h (hnew j List.mem_cons_self) with ⟨hbad, x, s', hrun⟩ | ⟨s', hrun, h'⟩
      · exact Or.inl ⟨hbad, x, s', run_bind_error hrun⟩
      · rw [run_bind_ok hrun]
        exact scanPtes_keeps hi hbody js _ s' hsort' (unvisited_insert hlt hnew) h'

variable (hrunning : ∀ V s, I V s → ∃ fl, Running res fl s e d)
variable (hskip : ∀ V s i, I V s → s.table e i = none → I (V ∪ tablePages i indices) s)
variable (hvisit : ∀ V s i, I V s → s.table e i ≠ none → T i)
variable (hbody : ∀ i j, (i, j) ∈ forkRange → T i → BodyKeeps I bad body i j)
include hrunning hskip hvisit hbody

theorem scanPdes_keeps : ∀ (is : List Index) (V : Set (Index × Index)) (s : Kernel), is.Nodup →
    (∀ i ∈ is, i ∈ scanRange ∧ ∀ j, (i, j) ∉ V) → I V s →
    (bad ∧ ∃ x s', (scanPdes body is).run s = .error x s') ∨
    ∃ s', (scanPdes body is).run s = .ok true s' ∧ I (V ∪ rangePages is) s'
  | [], V, s, _, _, h => by
    have hnil : rangePages [] = ∅ :=
      Set.eq_empty_iff_forall_notMem.2 fun x hx => absurd hx.1 List.not_mem_nil
    refine Or.inr ⟨s, rfl, ?_⟩
    rwa [hnil, Set.union_empty]
  | i :: is, V, s, hnodup, hnew, h => by
    obtain ⟨hi, hiV⟩ := hnew i List.mem_cons_self
    have hnodup' := (List.nodup_cons.1 hnodup).2
    have hnew' := unvisited_cons hnodup hnew
    obtain ⟨fl, hr⟩ := hrunning V s h
    have hiu : i.val < userPdes := by
      have h1 := (mem_scanRange.1 hi).2
      have h2 : (pdx uxstacktop).val = userPdes := by decide
      rw [Fin.lt_def] at h1
      omega
    have htab := table_of_dir hr.dir hiu
    rw [scanPdes, run_bind_ok (hr.uvpd i), union_rangePages_cons]
    by_cases hz : s.mem d i &&& pteP = 0#32
    · rw [if_neg (not_not.2 hz)]
      exact scanPdes_keeps is _ s hnodup' hnew' (hskip V s i h (htab.trans (framed_eq_none.2 hz)))
    · have hT := hvisit V s i h fun hn => hz (framed_eq_none.1 (htab.symm.trans hn))
      rw [if_pos hz]
      rcases scanPtes_keeps hi (fun j hij => hbody i j hij hT) indices V s sorted_indices
          (fun j _ => hiV j) h with ⟨hbad, x, s', hrun⟩ | ⟨s', hrun, h'⟩
      · exact Or.inl ⟨hbad, x, s', run_bind_error hrun⟩
      · rw [run_bind_ok hrun]
        exact scanPdes_keeps is _ s' hnodup' hnew' h'

/-- **Loops that do not give up** have been through the whole range in the end. -/
theorem scan_keeps (h : I ∅ s) : (bad ∧ ∃ x s', (scanPdes body scanRange).run s = .error x s') ∨
    ∃ s', (scanPdes body scanRange).run s = .ok true s' ∧ I forkRange s' := by
  rw [← union_rangePages]
  exact scanPdes_keeps hrunning hskip hvisit hbody scanRange ∅ s (nodup_indices.filter _)
    (fun i hi => ⟨hi, fun j => Set.notMem_empty _⟩) h

end

/-! ## One page -/

/-- Where the loops stand when they have been through the pages in `V`: all of them that the parent
maps have been copied, and those in `M` are copy-on-write, unless the memory has run out. -/
def Visiting (res : Nat → Prop) (fl₁ : List Nat) (s₁ : Kernel) (e c : EnvIndex) (d dc : Nat)
    (sent : Index → Index → Word) (M V : Set (Index × Index)) (s : Kernel) : Prop :=
  ∃ D fl, Copying res fl₁ s₁ e c d dc sent (D ∩ M) D fl s ∧ D ⊆ V ∧
    (D = V ∩ s₁.presentPages e ∨ fl = [] ∧ fl₁.length < tablesOf (V ∩ s₁.presentPages e))

/-- The memory has run out. -/
def Stuck (res : Nat → Prop) (fl₁ : List Nat) (s₁ : Kernel) (e c : EnvIndex) (d dc : Nat)
    (sent : Index → Index → Word) (M V : Set (Index × Index)) (s : Kernel) : Prop :=
  ∃ D, Copying res fl₁ s₁ e c d dc sent (D ∩ M) D [] s ∧ D ⊆ V ∧
    fl₁.length < tablesOf (V ∩ s₁.presentPages e)

theorem Stuck.mono (h : Stuck res fl₁ s₁ e c d dc sent M V s) (hVW : V ⊆ W) :
    Stuck res fl₁ s₁ e c d dc sent M W s := by
  obtain ⟨D, hc, hD, hlt⟩ := h
  exact ⟨D, hc, hD.trans hVW,
    hlt.trans_le (tablesOf_mono (Set.inter_subset_inter_left _ hVW))⟩

/-- Pages that are not mapped need not be visited. -/
theorem Visiting.skip (h : Visiting res fl₁ s₁ e c d dc sent M V s)
    (hW : ∀ x ∈ W, s₁.leaf e x.1 x.2 = none) :
    Visiting res fl₁ s₁ e c d dc sent M (V ∪ W) s := by
  have hset : (V ∪ W) ∩ s₁.presentPages e = V ∩ s₁.presentPages e := by
    ext x
    constructor
    · rintro ⟨hx | hx, hp⟩
      · exact ⟨hx, hp⟩
      · exact absurd (hW x hx) hp
    · exact fun ⟨hx, hp⟩ => ⟨Or.inl hx, hp⟩
  obtain ⟨D, fl, hc, hD, hrest⟩ := h
  exact ⟨D, fl, hc, hD.trans Set.subset_union_left, by rwa [hset]⟩

/-- Some page of `V` cannot be mapped with the flags wanted. -/
def Refused (s₁ : Kernel) (e : EnvIndex) (sent : Index → Index → Word) (V : Set (Index × Index)) :
    Prop :=
  ∃ x ∈ V ∩ s₁.presentPages e, ¬ PermOk (sent x.1 x.2)

/-- What holds after the pages in `V`, where `b` says whether the loops go on. -/
def Progress (res : Nat → Prop) (fl₁ : List Nat) (s₁ : Kernel) (e c : EnvIndex) (d dc : Nat)
    (sent : Index → Index → Word) (M V : Set (Index × Index)) (b : Bool) (s : Kernel) : Prop :=
  if b then Visiting res fl₁ s₁ e c d dc sent M V s
  else Stuck res fl₁ s₁ e c d dc sent M V s ∨ Refused s₁ e sent V

theorem Progress.stop (h : Progress res fl₁ s₁ e c d dc sent M V false s) (hVW : V ⊆ W) :
    Progress res fl₁ s₁ e c d dc sent M W false s := by
  rcases h with h | ⟨x, hx, hno⟩
  · exact Or.inl (h.mono hVW)
  · exact Or.inr ⟨x, ⟨hVW hx.1, hx.2⟩, hno⟩

/-- A step of the loops: `body` handles page `i`, `j`. -/
def PageStep (res : Nat → Prop) (fl₁ : List Nat) (s₁ : Kernel) (e c : EnvIndex) (d dc : Nat)
    (sent : Index → Index → Word) (M : Set (Index × Index)) (body : Nat → UserM Bool)
    (i j : Index) : Prop :=
  ∀ D fl s, Copying res fl₁ s₁ e c d dc sent (D ∩ M) D fl s → (i, j) ∉ D →
    (s₁.leaf e i j = none ∧ (body (pgnum (pgaddr i j 0#32))).run s = .ok true s) ∨
    (s₁.leaf e i j ≠ none ∧ ∃ b, (body (pgnum (pgaddr i j 0#32))).run s = .ok b s ∧
      (fl = [] ∧ s.table c i = none ∨ b = false ∧ ¬ PermOk (sent i j))) ∨
    (s₁.leaf e i j ≠ none ∧ ∃ fl' s', (body (pgnum (pgaddr i j 0#32))).run s = .ok true s' ∧
      Copying res fl₁ s₁ e c d dc sent (insert (i, j) D ∩ M) (insert (i, j) D) fl' s')

section

variable (hb : Begun res fl₁ s₁ e c d dc cid)
include hb

/-- When a page table of the child is missing and there is no page for it, there were not enough. -/
theorem lack (h : Copying res fl₁ s₁ e c d dc sent K D [] s) (hD : D ⊆ V)
    (hij : (i, j) ∈ V ∩ s₁.presentPages e) (ht : s.table c i = none) :
    fl₁.length < tablesOf (V ∩ s₁.presentPages e) := by
  have hlen := h.length hb
  rw [List.length_nil, Nat.add_zero] at hlen
  have hnot : i ∉ {i : Index | ∃ j, (i, j) ∈ D} := fun hh => (h.used i).2 hh ht
  have hsub : insert i {i : Index | ∃ j, (i, j) ∈ D} ⊆
      {i : Index | ∃ j, (i, j) ∈ V ∩ s₁.presentPages e} := by
    rintro i' (rfl | ⟨j', hj'⟩)
    · exact ⟨j, hij⟩
    · exact ⟨j', hD hj', h.mapped i' j' (Or.inr hj')⟩
  have hcard := Set.ncard_le_ncard hsub (Set.toFinite _)
  rw [Set.ncard_insert_of_notMem hnot (Set.toFinite _)] at hcard
  rw [hlen]
  exact hcard

theorem Visiting.page {body : Nat → UserM Bool}
    (hbody : PageStep res fl₁ s₁ e c d dc sent M body i j)
    (h : Visiting res fl₁ s₁ e c d dc sent M V s) (hV : (i, j) ∉ V) :
    ∃ b s', (body (pgnum (pgaddr i j 0#32))).run s = .ok b s' ∧
      Progress res fl₁ s₁ e c d dc sent M (insert (i, j) V) b s' := by
  have h₀ := h
  obtain ⟨D, fl, hc, hD, hrest⟩ := h
  have hsub : V ⊆ insert (i, j) V := Set.subset_insert _ _
  rcases hbody D fl s hc fun hh => hV (hD hh) with ⟨hn, hrun⟩ |
      ⟨hn, b, hrun, ⟨rfl, ht⟩ | ⟨rfl, hno⟩⟩ | ⟨hn, fl', s', hrun, hc'⟩
  · refine ⟨true, s, hrun, ?_⟩
    rw [← Set.union_singleton]
    refine h₀.skip fun x hx => ?_
    rw [Set.mem_singleton_iff.1 hx]
    exact hn
  · have hlack := lack hb hc (hD.trans hsub) ⟨Set.mem_insert _ _, hn⟩ ht
    refine ⟨b, s, hrun, ?_⟩
    cases b with
    | true => exact ⟨D, [], hc, hD.trans hsub, Or.inr ⟨rfl, hlack⟩⟩
    | false => exact Or.inl ⟨D, hc, hD.trans hsub, hlack⟩
  · exact ⟨false, s, hrun, Or.inr ⟨(i, j), ⟨Set.mem_insert _ _, hn⟩, hno⟩⟩
  · refine ⟨true, s', hrun, insert (i, j) D, fl', hc', Set.insert_subset_insert hD, ?_⟩
    rcases hrest with rfl | ⟨rfl, hlt⟩
    · refine Or.inl ?_
      rw [Set.insert_inter_of_mem hn]
    · refine Or.inr ⟨?_, hlt.trans_le (tablesOf_mono (Set.inter_subset_inter_left _ hsub))⟩
      have h1 := hc.length hb
      have h2 := hc'.length hb
      have h3 : tablesOf D ≤ tablesOf (insert (i, j) D) := tablesOf_mono (Set.subset_insert _ _)
      rw [List.length_nil] at h1
      exact List.eq_nil_of_length_eq_zero (by omega)

/-! ## All pages -/

theorem scanPtes_run {body : Nat → UserM Bool} (hi : i ∈ scanRange)
    (hbody : ∀ j, (i, j) ∈ forkRange → PageStep res fl₁ s₁ e c d dc sent M body i j) :
    ∀ (js : List Index) (V : Set (Index × Index)) (s : Kernel), js.Pairwise (· < ·) →
      (∀ j ∈ js, (i, j) ∉ V) → Visiting res fl₁ s₁ e c d dc sent M V s →
      ∃ b s', (scanPtes body i js).run s = .ok b s' ∧
        Progress res fl₁ s₁ e c d dc sent M (V ∪ tablePages i js) b s'
  | [], V, s, _, _, h => ⟨true, s, rfl, h.skip fun x hx => absurd hx.2.1 List.not_mem_nil⟩
  | j :: js, V, s, hsort, hnew, h => by
    obtain ⟨hlt, hsort'⟩ := List.pairwise_cons.1 hsort
    by_cases hexc : pgnum (pgaddr i j 0#32) = pgnum (uxstacktop - pgsize)
    · refine ⟨true, s, ?_, h.skip fun x hx => ?_⟩
      · rw [scanPtes, if_pos hexc]
        rfl
      · rw [tablePages_last hi hexc hlt] at hx
        exact absurd hx (Set.notMem_empty x)
    · have hij : (i, j) ∈ forkRange := mem_forkRange.2 ⟨hi, hexc⟩
      obtain ⟨b, s', hrun, hv⟩ := h.page hb (hbody j hij) (hnew j List.mem_cons_self)
      rw [scanPtes, if_neg hexc, run_bind_ok hrun, union_tablePages_cons hij]
      cases b with
      | false => exact ⟨false, s', rfl, hv.stop Set.subset_union_left⟩
      | true =>
        exact scanPtes_run hi hbody js (insert (i, j) V) s' hsort' (unvisited_insert hlt hnew) hv

theorem scanPdes_run {body : Nat → UserM Bool}
    (hbody : ∀ i j t, (i, j) ∈ forkRange → s₁.table e i = some t →
      PageStep res fl₁ s₁ e c d dc sent M body i j) :
    ∀ (is : List Index) (V : Set (Index × Index)) (s : Kernel), is.Nodup →
      (∀ i ∈ is, i ∈ scanRange ∧ ∀ j, (i, j) ∉ V) → Visiting res fl₁ s₁ e c d dc sent M V s →
      ∃ b s', (scanPdes body is).run s = .ok b s' ∧
        Progress res fl₁ s₁ e c d dc sent M (V ∪ rangePages is) b s'
  | [], V, s, _, _, h => ⟨true, s, rfl, h.skip fun x hx => absurd hx.1 List.not_mem_nil⟩
  | i :: is, V, s, hnodup, hnew, h => by
    have hnodup' := (List.nodup_cons.1 hnodup).2
    obtain ⟨hi, hiV⟩ := hnew i List.mem_cons_self
    have hnew' := unvisited_cons hnodup hnew
    have hD : ∃ D fl, Copying res fl₁ s₁ e c d dc sent (D ∩ M) D fl s := by
      obtain ⟨D, fl, hc, -⟩ := h
      exact ⟨D, fl, hc⟩
    obtain ⟨D, fl, hc⟩ := hD
    have hload := (hc.running hb).uvpd i
    have hiu : i.val < userPdes := by
      have h1 := (mem_scanRange.1 hi).2
      have h2 : (pdx uxstacktop).val = userPdes := by decide
      rw [Fin.lt_def] at h1
      omega
    rw [hc.parentDir] at hload
    rw [scanPdes, run_bind_ok hload, union_rangePages_cons]
    cases ht : s₁.table e i with
    | none =>
      have hz : s₁.mem d i &&& pteP = 0#32 :=
        framed_eq_none.1 ((table_of_dir hb.parent.dir hiu).symm.trans ht)
      rw [if_neg (not_not.2 hz)]
      refine scanPdes_run hbody is _ s hnodup' hnew' (h.skip fun x hx => ?_)
      obtain ⟨i', j'⟩ := x
      obtain rfl : i' = i := hx.1
      exact leaf_eq_none ht j'
    | some t =>
      have hz : s₁.mem d i &&& pteP ≠ 0#32 :=
        (framed_eq_some.1 ((table_of_dir hb.parent.dir hiu).symm.trans ht)).1
      rw [if_pos hz]
      obtain ⟨b, s', hrun, hv⟩ := scanPtes_run hb hi (fun j hr => hbody i j t hr ht)
        indices V s sorted_indices (fun j _ => hiV j) h
      rw [run_bind_ok hrun]
      cases b with
      | false => exact ⟨false, s', rfl, hv.stop Set.subset_union_left⟩
      | true => exact scanPdes_run hbody is _ s' hnodup' hnew' hv

/-- **The loops** end, and have been through the whole range, unless they gave up. -/
theorem scan_run {body : Nat → UserM Bool}
    (hbody : ∀ i j t, (i, j) ∈ forkRange → s₁.table e i = some t →
      PageStep res fl₁ s₁ e c d dc sent M body i j) :
    ∃ b s', (scanPdes body scanRange).run s₁ = .ok b s' ∧
      Progress res fl₁ s₁ e c d dc sent M forkRange b s' := by
  have hstart : Copying res fl₁ s₁ e c d dc sent (∅ ∩ M) ∅ fl₁ s₁ := by
    rw [Set.empty_inter]
    exact hb.start sent
  rw [← union_rangePages]
  exact scanPdes_run hb hbody scanRange ∅ s₁ (nodup_indices.filter _)
    (fun i hi => ⟨hi, fun j => Set.notMem_empty _⟩)
    ⟨∅, fl₁, hstart, Set.Subset.rfl, Or.inl (Set.empty_inter _).symm⟩

end

/-! ## `duppage` and the two loop bodies -/

/-- The page of the user stack. -/
def stackIdx : Index × Index := (pdx (ustacktop - pgsize), ptx (ustacktop - pgsize))

/-- The flags that `fork` maps pages with. -/
def forkPerm (s : Kernel) (e : EnvIndex) (i j : Index) : Word := dupPerm (s.entry e i j)

/-- The flags that `sfork` maps pages with. -/
def sforkPerm (s : Kernel) (e : EnvIndex) (i j : Index) : Word :=
  if (i, j) = stackIdx then dupPerm (s.entry e i j) else sharePerm (s.entry e i j)

theorem pgnum_eq_stack : pgnum (pgaddr i j 0#32) = pgnum (ustacktop - pgsize) ↔
    (i, j) = stackIdx := by
  constructor
  · intro h
    obtain ⟨h1, h2⟩ := pdx_ptx_of_pgnum h
    rw [pdx_pgaddr] at h1
    rw [ptx_pgaddr] at h2
    rw [stackIdx, h1, h2]
  · intro h
    obtain ⟨rfl, rfl⟩ := Prod.mk.inj h
    exact pgnum_inj (pdx_pgaddr _ _) (ptx_pgaddr _ _)

/-- `sfork` keeps the flags that a program may ask for. -/
theorem sharePerm_eq (w : Word) : sharePerm w = w &&& (pteP ||| pteU ||| pteW ||| pteAvail) := by
  rw [sharePerm]
  generalize pteP ||| pteU ||| pteW ||| pteAvail = mask
  ext k hk
  simp only [BitVec.getElem_and, BitVec.getElem_not]
  cases w[k] <;> simp

theorem sharePerm_and {flag : Word}
    (hflag : (pteP ||| pteU ||| pteW ||| pteAvail) &&& flag = flag) (w : Word) :
    sharePerm w &&& flag = w &&& flag := by
  rw [sharePerm_eq, BitVec.and_assoc, hflag]

theorem isPerm_share (w : Word) : IsPerm (sharePerm w) := by
  have hmask : IsPerm (pteP ||| pteU ||| pteW ||| pteAvail) := by decide
  refine isPerm_of_and hmask ?_
  rw [sharePerm_eq, BitVec.and_assoc, BitVec.and_not_self]
  exact BitVec.and_zero

theorem isPerm_sfork (s : Kernel) (e : EnvIndex) (i j : Index) : IsPerm (sforkPerm s e i j) := by
  rw [sforkPerm]
  split
  · exact (dupPerm_ok _).isPerm
  · exact isPerm_share _

section

variable (hb : Begun res fl₁ s₁ e c d dc cid)
include hb

/-- **`duppage`** maps the page into the child, and makes it copy-on-write in the parent if it is so
in the child. -/
theorem duppage_run (h : Copying res fl₁ s₁ e c d dc sent K D fl s)
    (hperm : ∀ i j, IsPerm (sent i j)) (hsent : sent i j = dupPerm (s₁.entry e i j))
    (hij : (i, j) ∈ forkRange) (hp : s₁.leaf e i j = some p) (hD : (i, j) ∉ D) (hK : (i, j) ∉ K) :
    ((duppage cid (pgnum (pgaddr i j 0#32))).run s = .ok (-eNoMem) s ∧ fl = [] ∧
      s.table c i = none) ∨
    ∃ fl' s', (duppage cid (pgnum (pgaddr i j 0#32))).run s = .ok 0#32 s' ∧
      Copying res fl₁ s₁ e c d dc sent (K ∪ {(i, j)} ∩ s₁.cowPages e) (insert (i, j) D) fl' s' := by
  have hrun := h.running hb
  have hid := hrun.getenvid
  rw [h.only.envs] at hid
  obtain ⟨t, ht, -⟩ := leaf_eq_some.1 hp
  have hload := hrun.uvpt_load ((h.table_parent hb.parent.dir i).trans ht) j
  rw [h.kept i j hK] at hload
  have hw : sent i j &&& pteW ≠ 0#32 → s.entry e i j &&& pteW ≠ 0#32 := by
    rw [hsent]
    exact fun hh => absurd (dupPerm_read_only _) hh
  rw [duppage, run_bind_ok hid, run_bind_ok hload]
  dsimp only
  rw [pgaddr_pn, ← hsent]
  rcases h.map_child hb hperm (hsent ▸ dupPerm_ok _) hw hij hp hD with
    ⟨hmap, hfl, htc⟩ | ⟨fl', s', hmap, hc⟩
  · refine Or.inl ⟨?_, hfl, htc⟩
    rw [run_bind_ok (checked_ok hmap eNoMem_not_pos), if_pos eNoMem_neg]
    rfl
  · refine Or.inr ?_
    rw [run_bind_ok (checked_ok hmap zero_not_pos), if_neg zero_not_neg]
    by_cases hcow : dupPerm (s₁.entry e i j) = cowPerm
    · rw [hsent, if_pos ((dupPerm_cow _).2 hcow), hcow]
      obtain ⟨s'', hself, hc'⟩ := hc.map_self hb hp
      refine ⟨fl', s'', ?_, ?_⟩
      · rw [run_bind_ok (checked_ok hself zero_not_pos), if_neg zero_not_neg]
        rfl
      · have hmem : (i, j) ∈ s₁.cowPages e := hcow
        rwa [Set.inter_eq_self_of_subset_left (Set.singleton_subset_iff.2 hmem),
          Set.union_singleton]
    · rw [hsent, if_neg fun hh => hcow ((dupPerm_cow _).1 hh)]
      refine ⟨fl', s', rfl, ?_⟩
      have hnot : (i, j) ∉ s₁.cowPages e := hcow
      rwa [Set.singleton_inter_eq_empty.2 hnot, Set.union_empty]

/-- The loop body of **`fork`**. -/
theorem forkPage_step (hij : (i, j) ∈ forkRange) (ht : s₁.table e i = some t) :
    PageStep res fl₁ s₁ e c d dc (forkPerm s₁ e) (s₁.cowPages e) (forkPage cid) i j := by
  intro D fl s h hD
  have hload := (h.running hb).uvpt_load ((h.table_parent hb.parent.dir i).trans ht) j
  rw [h.kept i j fun hh => hD hh.1] at hload
  rw [forkPage, run_bind_ok hload]
  cases hp : s₁.leaf e i j with
  | none =>
    refine Or.inl ⟨rfl, ?_⟩
    rw [leaf_eq_framed] at hp
    rw [if_neg (not_not.2 (framed_eq_none.1 hp))]
    rfl
  | some p =>
    have hpres := (framed_eq_some.1 ((leaf_eq_framed s₁ e i j).symm.trans hp)).1
    rw [if_pos hpres]
    rcases duppage_run hb h (fun i j => (dupPerm_ok _).isPerm) rfl hij hp hD fun hh => hD hh.1 with
      ⟨hdup, hfl, htc⟩ | ⟨fl', s', hdup, hc⟩
    · refine Or.inr (Or.inl ⟨by simp, true, ?_, Or.inl ⟨hfl, htc⟩⟩)
      rw [run_bind_ok hdup]
      rfl
    · refine Or.inr (Or.inr ⟨by simp, fl', s', ?_, ?_⟩)
      · rw [run_bind_ok hdup]
        rfl
      · rwa [Set.insert_eq, Set.union_inter_distrib_right, Set.union_comm ({(i, j)} ∩ _)]

/-- The loop body of **`sfork`**. -/
theorem sforkPage_step (hstack : s₁.leaf e stackIdx.1 stackIdx.2 ≠ none)
    (hr : (i, j) ∈ forkRange) (ht : s₁.table e i = some t) :
    PageStep res fl₁ s₁ e c d dc (sforkPerm s₁ e) ({stackIdx} ∩ s₁.cowPages e) (sforkPage cid)
      i j := by
  intro D fl s h hD
  have hrun := h.running hb
  rw [sforkPage]
  by_cases hij : (i, j) = stackIdx
  · rw [if_pos (pgnum_eq_stack.2 hij)]
    rw [← hij] at hstack
    obtain ⟨p, hp⟩ := Option.ne_none_iff_exists'.1 hstack
    rcases duppage_run hb h (isPerm_sfork s₁ e) (if_pos hij) hr hp hD fun hh => hD hh.1 with
      ⟨hdup, hfl, htc⟩ | ⟨fl', s', hdup, hc⟩
    · refine Or.inr (Or.inl ⟨hstack, true, ?_, Or.inl ⟨hfl, htc⟩⟩)
      rw [run_bind_ok hdup]
      rfl
    · refine Or.inr (Or.inr ⟨hstack, fl', s', ?_, ?_⟩)
      · rw [run_bind_ok hdup]
        rfl
      · have hset : insert (i, j) D ∩ ({stackIdx} ∩ s₁.cowPages e) =
            D ∩ ({stackIdx} ∩ s₁.cowPages e) ∪ {(i, j)} ∩ s₁.cowPages e := by
          rw [Set.insert_eq, Set.union_inter_distrib_right, Set.union_comm, ← hij,
            ← Set.inter_assoc {(i, j)}, Set.inter_self]
        rwa [hset]
  · rw [if_neg fun hh => hij (pgnum_eq_stack.1 hh)]
    have hsent : sforkPerm s₁ e i j = sharePerm (s₁.entry e i j) := if_neg hij
    have hkeep : insert (i, j) D ∩ ({stackIdx} ∩ s₁.cowPages e) =
        D ∩ ({stackIdx} ∩ s₁.cowPages e) := Set.insert_inter_of_notMem fun hh => hij hh.1
    have hload := hrun.uvpt_load ((h.table_parent hb.parent.dir i).trans ht) j
    rw [h.kept i j fun hh => hD hh.1] at hload
    rw [run_bind_ok hload]
    cases hp : s₁.leaf e i j with
    | none =>
      refine Or.inl ⟨rfl, ?_⟩
      rw [leaf_eq_framed] at hp
      rw [if_neg (not_not.2 (framed_eq_none.1 hp))]
      rfl
    | some p =>
      have hpres := (framed_eq_some.1 ((leaf_eq_framed s₁ e i j).symm.trans hp)).1
      have hid := hrun.getenvid
      rw [h.only.envs] at hid
      rw [if_pos hpres, run_bind_ok hid]
      dsimp only
      rw [pgaddr_pn, ← hsent]
      by_cases hok : PermOk (sforkPerm s₁ e i j)
      · have hw : sforkPerm s₁ e i j &&& pteW ≠ 0#32 → s.entry e i j &&& pteW ≠ 0#32 := by
          rw [h.kept i j fun hh => hD hh.1, hsent]
          rw [sharePerm_and (by decide)]
          exact fun hh => hh
        rcases h.map_child hb (isPerm_sfork s₁ e) hok hw hr hp hD with
          ⟨hmap, hfl, htc⟩ | ⟨fl', s', hmap, hc⟩
        · refine Or.inr (Or.inl ⟨by simp, false, ?_, Or.inl ⟨hfl, htc⟩⟩)
          rw [run_bind_ok (checked_ok hmap eNoMem_not_pos), if_pos eNoMem_neg]
          rfl
        · refine Or.inr (Or.inr ⟨by simp, fl', s', ?_, by rwa [hkeep]⟩)
          rw [run_bind_ok (checked_ok hmap zero_not_pos), if_neg zero_not_neg]
          rfl
      · refine Or.inr (Or.inl ⟨by simp, false, ?_, Or.inr ⟨rfl, hok⟩⟩)
        have hself := hrun.resolve_self
        rw [h.only.envs] at hself
        have hfail : (sysPageMap (s₁.envs e).envId (pgaddr i j 0#32) cid (pgaddr i j 0#32)
            (sforkPerm s₁ e i j)).run s = .ok (-eInval) s :=
          sysPageMap_inval hrun.current hself (h.id hb) (Or.inr (Or.inr hok))
        rw [run_bind_ok (checked_ok hfail eInval_not_pos), if_pos eInval_neg]
        rfl

end

end Jos
