import Jos.Fork.Fill
import Jos.Fork.Shared

/-!
# Fork under memory exhaustion

`fork` makes many system calls that may run out of memory.  The result of `duppage` is not looked
at, and where `startChild` sees an error it returns `-1` at once: the environment that `sys_exofork`
has made stays behind, allocated and not runnable.

`fork_allOrNothing_iff` says that this is the only thing that goes wrong, and when it does.
-/

set_option autoImplicit false

namespace Jos

open Kernel Command

variable {res : Nat → Prop} {fl fl₁ fl₂ : List Nat} {s s' s₁ s₂ : Kernel} {e c : EnvIndex}
variable {d dc p : Nat} {va cid r : Word} {i j : Index} {D S V W X : Set (Index × Index)}
variable {P : Process}

/-! ## The loops -/

/-- How many pages it takes to map the pages in `X` into the child. -/
noncomputable def Kernel.fillPages (s : Kernel) (e : EnvIndex) (P : Process)
    (X : Set (Index × Index)) : Nat :=
  tablesOf X + ({pageIdx P.esp} ∩ X).ncard * s.stackPages e

theorem fillPages_mono (s : Kernel) (e : EnvIndex) (P : Process) (h : V ⊆ W) :
    s.fillPages e P V ≤ s.fillPages e P W :=
  Nat.add_le_add (tablesOf_mono h) (Nat.mul_le_mul_right _
    (Set.ncard_le_ncard (Set.inter_subset_inter_right _ h) (Set.toFinite _)))

/-- It takes one more if there is a page more and the child has no page table for it. -/
theorem fillPages_insert (s : Kernel) (e : EnvIndex) (P : Process) (h : ¬ ∃ j', (i, j') ∈ D) :
    s.fillPages e P D < s.fillPages e P (insert (i, j) D) := by
  classical
  have hle := Set.ncard_le_ncard
    (Set.inter_subset_inter_right {pageIdx P.esp} (Set.subset_insert (i, j) D)) (Set.toFinite _)
  have hmul := Nat.mul_le_mul_right (s.stackPages e) hle
  rw [Kernel.fillPages, Kernel.fillPages, tablesOf_insert, if_neg h]
  omega

/-- Where the loops of `Process.fork` stand when they have been through the pages in `V`: all of
them that the parent maps have been copied, unless the memory has run out. -/
def Swept (res : Nat → Prop) (fl₁ : List Nat) (s₁ : Kernel) (e c : EnvIndex) (d dc : Nat)
    (P : Process) (V : Set (Index × Index)) (s : Kernel) : Prop :=
  ∃ D fl, Filling res fl₁ s₁ e c d dc ({pageIdx P.esp} ∩ D) D fl s ∧ D ⊆ V ∧
    (D = V ∩ s₁.presentPages e ∨ fl = [] ∧ fl₁.length < s₁.fillPages e P (V ∩ s₁.presentPages e))

/-- Pages that are not mapped need not be visited. -/
theorem Swept.skip (h : Swept res fl₁ s₁ e c d dc P V s) (hW : ∀ x ∈ W, s₁.leaf e x.1 x.2 = none) :
    Swept res fl₁ s₁ e c d dc P (V ∪ W) s := by
  have hset : (V ∪ W) ∩ s₁.presentPages e = V ∩ s₁.presentPages e := by
    ext x
    constructor
    · rintro ⟨hx | hx, hp⟩
      · exact ⟨hx, hp⟩
      · exact absurd (hW x hx) hp
    · exact fun ⟨hx, hp⟩ => ⟨Or.inl hx, hp⟩
  obtain ⟨D, fl, hf, hD, hrest⟩ := h
  exact ⟨D, fl, hf, hD.trans Set.subset_union_left, by rwa [hset]⟩

theorem pgnum_eq_iff : pgnum (pgaddr i j 0#32) = pgnum va ↔ (i, j) = pageIdx va := by
  constructor
  · intro h
    obtain ⟨h1, h2⟩ := pdx_ptx_of_pgnum h
    rw [pdx_pgaddr] at h1
    rw [ptx_pgaddr] at h2
    rw [pageIdx, h1, h2]
  · intro h
    obtain ⟨rfl, rfl⟩ := Prod.mk.inj h
    exact pgnum_inj (pdx_pgaddr _ _) (ptx_pgaddr _ _)

theorem lt_utop_of_page (h : (i, j) ∈ forkRange) (hva : (i, j) = pageIdx va) : va < utop := by
  have hlt := lt_utop_of_range h
  obtain ⟨rfl, rfl⟩ := Prod.mk.inj hva
  rw [lt_utop_iff, pdx_pgaddr] at hlt
  exact (lt_utop_iff va).2 hlt

/-- A store to the page of the stack, where that cannot be copied. -/
theorem Running.push_plain (h : Running res fl s e d) (hva : pageIdx va ∈ forkRange)
    (hno : s.leaf e (pdx va) (ptx va) = none ∨ fl = []) (write : Page → Nat → Page) :
    (∃ x s', (storeHandled va write).run s = .error x s') ∨
    ∃ s', (storeHandled va write).run s = .ok () s' ∧ UserStores res fl s s' := by
  have hlt := lt_utop_of_page hva rfl
  rcases h.storeHandled_run hlt (pftemp_out hva) write with
    ⟨f, hf, hok⟩ | ⟨-, -, hfail⟩ | ⟨p, g, fl', s', -, -, hp, hpriv, -⟩
  · exact Or.inr ⟨_, hok, UserStores.fill h.inv (leaf_of_translate h.dir hlt hf) _⟩
  · exact Or.inl hfail
  · have hfresh := hpriv.fresh
    rcases hno with hno | rfl
    · exact absurd (hno.symm.trans hp) (by simp)
    · exact absurd hfresh List.not_mem_nil

section

variable (hb : Begun res fl₁ s₁ e c d dc cid)
include hb

/-- Nothing has been visited. -/
theorem Begun.swept (P : Process) : Swept res fl₁ s₁ e c d dc P ∅ s₁ := by
  refine ⟨∅, fl₁, ?_, Set.Subset.rfl, Or.inl (Set.empty_inter _).symm⟩
  rw [Set.inter_empty]
  exact hb.filling

/-- **A store to the page of the stack**, when the child has it. -/
theorem Filling.push_shared (h : Filling res fl₁ s₁ e c d dc ∅ D fl s)
    (hva : pageIdx va ∈ forkRange ∩ D) (hp : s.leaf e (pdx va) (ptx va) = some p)
    (hpc : s.leaf c (pdx va) (ptx va) = some p)
    (hw : s.entry e (pdx va) (ptx va) &&& pteW = 0#32) (write : Page → Nat → Page) :
    (∃ x s', (storeHandled va write).run s = .error x s') ∨
    ∃ fl' s', (storeHandled va write).run s = .ok () s' ∧ fl ≠ [] ∧
      Filling res fl₁ s₁ e c d dc {pageIdx va} D fl' s' := by
  have hlt := lt_utop_of_page hva.1 rfl
  rcases h.run.storeHandled_run hlt (pftemp_out hva.1) write with
    ⟨f, hf, -⟩ | ⟨-, -, hfail⟩ | ⟨q, g, fl', s', -, -, hq, hpriv, htr, hok⟩
  · have hflags := entry_of_translate h.run.dir hlt (by rw [hf]; exact Option.some_ne_none _)
    exact absurd hw (pteW_of_write hflags)
  · exact Or.inl hfail
  · obtain rfl : p = q := Option.some_inj.1 (hp.symm.trans hq)
    have hcopy := Filling.privatize hb h hva hp hpc hpriv
    have hleaf := leaf_of_translate hcopy.run.dir hlt htr
    exact Or.inr ⟨fl', _, hok, List.ne_nil_of_mem hpriv.fresh,
      hcopy.stores hb (UserStores.fill hcopy.run.inv hleaf _)⟩

/-! ### One page -/

variable (hrest : D = V ∩ s₁.presentPages e ∨
  fl = [] ∧ fl₁.length < s₁.fillPages e P (V ∩ s₁.presentPages e))
variable (hD : D ⊆ V) (hmapped : s₁.leaf e i j ≠ none)
include hrest hD hmapped

omit hb in
/-- There is no page for the page table of the child. -/
theorem Filling.lack (h : Filling res fl₁ s₁ e c d dc ({pageIdx P.esp} ∩ D) D fl s) (hfl : fl = [])
    (ht : s.table c i = none) : Swept res fl₁ s₁ e c d dc P (insert (i, j) V) s := by
  have hsub : V ⊆ insert (i, j) V := Set.subset_insert _ _
  refine ⟨D, fl, h, hD.trans hsub, Or.inr ⟨hfl, ?_⟩⟩
  rcases hrest with hall | ⟨-, hlt⟩
  · have hmore := fillPages_insert (j := j) s₁ e P fun hh => (h.used i).2 hh ht
    have hlen := h.free
    rw [hfl, List.length_nil, Nat.add_zero, ← Kernel.fillPages] at hlen
    rwa [hlen, Set.insert_inter_of_mem hmapped, ← hall]
  · exact hlt.trans_le (fillPages_mono s₁ e P (Set.inter_subset_inter_left _ hsub))

omit hb in
/-- The page has been copied. -/
theorem Filling.copied {fl' : List Nat} (h : fl = [] → fl' = [])
    (h' : Filling res fl₁ s₁ e c d dc ({pageIdx P.esp} ∩ insert (i, j) D) (insert (i, j) D)
      fl' s') :
    Swept res fl₁ s₁ e c d dc P (insert (i, j) V) s' := by
  have hsub : V ⊆ insert (i, j) V := Set.subset_insert _ _
  refine ⟨insert (i, j) D, fl', h', Set.insert_subset_insert hD, ?_⟩
  rcases hrest with hall | ⟨hfl, hlt⟩
  · refine Or.inl ?_
    rw [Set.insert_inter_of_mem hmapped, hall]
  · exact Or.inr ⟨h hfl, hlt.trans_le (fillPages_mono s₁ e P (Set.inter_subset_inter_left _ hsub))⟩

end

/-- **The innermost loop body** deals with one page more, or the program does not go on. -/
theorem Swept.page (hb : Begun res fl₁ s₁ e c d dc cid) (h : Swept res fl₁ s₁ e c d dc P V s)
    (hij : (i, j) ∈ forkRange) (hV : (i, j) ∉ V) :
    (∃ x s', (P.forkPage cid (pgnum (pgaddr i j 0#32))).run s = .error x s') ∨
    ∃ s', (P.forkPage cid (pgnum (pgaddr i j 0#32))).run s = .ok true s' ∧
      Swept res fl₁ s₁ e c d dc P (insert (i, j) V) s' := by
  obtain ⟨D, fl, hf, hD, hrest⟩ := h
  have hout : (i, j) ∉ D := fun hh => hV (hD hh)
  have hesp_iff : pgnum (pgaddr i j 0#32) = pgnum P.esp ↔ (i, j) = pageIdx P.esp := pgnum_eq_iff
  rw [Process.forkPage]
  rcases hf.forkPage_run hb hij hout with
    ⟨-, x, s', hfault⟩ | ⟨hrun, hwhy⟩ | ⟨p, fl', s', hrun, hf', hp, hpe, hpc, hw⟩
  · exact Or.inl ⟨x, s', run_bind_error hfault⟩
  · -- nothing has been copied
    have hnext : ∀ s', Filling res fl₁ s₁ e c d dc ({pageIdx P.esp} ∩ D) D fl s' →
        (s'.leaf e i j = none ∨ s'.leaf e i j ≠ none ∧ fl = [] ∧ s'.table c i = none) →
        Swept res fl₁ s₁ e c d dc P (insert (i, j) V) s' := by
      rintro s' hf' (hnone | ⟨hsome, hfl, htc⟩)
      · rw [← Set.union_singleton]
        refine Swept.skip ⟨D, fl, hf', hD, hrest⟩ fun x hx => ?_
        rw [Set.mem_singleton_iff.1 hx]
        exact (hf'.parent i j hij).1 hnone
      · exact hf'.lack hrest hD (fun hh => hsome ((hf'.parent i j hij).2 hh)) hfl htc
    rw [run_bind_ok hrun]
    by_cases hesp : pgnum (pgaddr i j 0#32) = pgnum P.esp
    · rw [if_pos hesp]
      obtain ⟨rfl, rfl⟩ := Prod.mk.inj (hesp_iff.1 hesp)
      rcases hf.run.push_plain hij (hwhy.imp_right fun hh => hh.2.1) (setWord cid) with
        ⟨x, s', hfail⟩ | ⟨s', hstore, hu⟩
      · exact Or.inl ⟨x, s', run_bind_error hfail⟩
      · refine Or.inr ⟨s', run_bind_ok hstore, hnext s' (hf.stores hb hu) ?_⟩
        rwa [hu.leaf, (hu.sameSpace c).table]
    · rw [if_neg hesp]
      exact Or.inr ⟨s, rfl, hnext s hf hwhy⟩
  · have hmapped : s₁.leaf e i j ≠ none := fun hh => by
      rw [(hf.parent i j hij).2 hh] at hp
      cases hp
    rw [run_bind_ok hrun]
    have hnil : fl = [] → fl' = [] := fun hfl => by
      have h1 := hf.free
      have h2 := hf'.free
      have h3 := tablesOf_mono (Set.subset_insert (i, j) D)
      rw [hfl, List.length_nil] at h1
      exact List.eq_nil_of_length_eq_zero (by omega)
    by_cases hesp : pgnum (pgaddr i j 0#32) = pgnum P.esp
    · have heq := hesp_iff.1 hesp
      rw [if_pos hesp]
      have hempty : ({pageIdx P.esp} : Set (Index × Index)) ∩ D = ∅ :=
        Set.singleton_inter_eq_empty.2 (heq ▸ hout)
      have hfull : ({pageIdx P.esp} : Set (Index × Index)) ∩ insert (i, j) D = {pageIdx P.esp} :=
        Set.inter_eq_self_of_subset_left (Set.singleton_subset_iff.2 (Or.inl heq.symm))
      rw [hempty] at hf'
      obtain ⟨rfl, rfl⟩ := Prod.mk.inj heq
      rcases hf'.push_shared hb ⟨hij, Set.mem_insert _ _⟩ hpe hpc hw (setWord cid) with
        ⟨x, s'', hfail⟩ | ⟨fl'', s'', hstore, hne, hf''⟩
      · exact Or.inl ⟨x, s'', run_bind_error hfail⟩
      · rw [← hfull] at hf''
        exact Or.inr ⟨s'', run_bind_ok hstore,
          Filling.copied hrest hD hmapped (fun hfl => absurd (hnil hfl) hne) hf''⟩
    · rw [if_neg hesp]
      have hkeep : ({pageIdx P.esp} : Set (Index × Index)) ∩ insert (i, j) D =
          {pageIdx P.esp} ∩ D := Set.inter_insert_of_notMem fun hh => hesp (hesp_iff.2 hh)
      rw [← hkeep] at hf'
      exact Or.inr ⟨s', rfl, Filling.copied hrest hD hmapped hnil hf'⟩

/-- **The loops** have been through the whole range, unless the program does not go on. -/
theorem Begun.sweep (hb : Begun res fl₁ s₁ e c d dc cid) (P : Process) :
    (∃ x s', (scanPdes (P.forkPage cid) scanRange).run s₁ = .error x s') ∨
    ∃ s', (scanPdes (P.forkPage cid) scanRange).run s₁ = .ok true s' ∧
      Swept res fl₁ s₁ e c d dc P forkRange s' := by
  have hrunning : ∀ V s, Swept res fl₁ s₁ e c d dc P V s → ∃ fl, Running res fl s e d := by
    rintro V s ⟨D, fl, hf, -⟩
    exact ⟨fl, hf.run⟩
  have hskip : ∀ V s i, Swept res fl₁ s₁ e c d dc P V s → s.table e i = none →
      Swept res fl₁ s₁ e c d dc P (V ∪ tablePages i indices) s := by
    intro V s i h ht
    have h₀ := h
    obtain ⟨D, fl, hf, -⟩ := h₀
    refine h.skip fun x hx => ?_
    obtain ⟨i', j'⟩ := x
    obtain ⟨rfl, -, hr⟩ : i' = i ∧ j' ∈ indices ∧ (i', j') ∈ forkRange := hx
    exact (hf.parent i' j' hr).1 (leaf_eq_none ht j')
  have hbody : ∀ i j, (i, j) ∈ forkRange → True →
      BodyKeeps (Swept res fl₁ s₁ e c d dc P) True (P.forkPage cid) i j :=
    fun i j hij _ V s h hV => (h.page hb hij hV).imp_left fun hh => ⟨trivial, hh⟩
  exact (scan_keeps hrunning hskip (fun _ _ _ _ _ => trivial) hbody (hb.swept P)).imp_left And.right

/-! ## What is left of the memory -/

/-- How many pages it takes to make a child from state `s` on, in which the handler has been set. -/
noncomputable def Kernel.childPages (s : Kernel) (e : EnvIndex) (P : Process) : Nat :=
  1 + tablesOf (insert (pageIdx uxstack) (s.copiedPages e)) + 1 + s.tablesFor e pftemp +
    ({pageIdx P.esp} ∩ s.copiedPages e).ncard * (1 - s.freedAt e pftemp)

theorem HandlerStored.childPages (h : HandlerStored res fl s e d P fl₁ s₁) :
    s₁.childPages e P = s.pagesForChild e P := by
  rw [Kernel.childPages, h.copied, h.tempTables, h.tempFreed, Kernel.pagesForChild]

/-- How `Process.fork` ends that has set its handler in state `s`. -/
inductive Process.Returned (P : Process) (fl : List Nat) (s : Kernel) (e : EnvIndex) (r : Word)
    (s' : Kernel) : Prop where
  /-- There is no room for another environment. -/
  | noChild (hno : s.envFreeList = none ∨ fl = []) (hr : r = -1#32) (hs : s' = s)
  /-- The memory has run out on the way, and the child stays behind. -/
  | noMem (c : EnvIndex) (hc : s.envFreeList = some c) (hfl : fl ≠ [])
      (hlack : fl.length < s.childPages e P) (hr : r = -1#32)
      (hst : (s'.envs c).envStatus = .notRunnable)
  /-- The child has been destroyed: its page fault handler is not mapped. -/
  | noUpcall (c : EnvIndex) (henough : s.childPages e P ≤ fl.length) (hr : r = -1#32)
      (hst : (s'.envs c).envStatus = .free) (henvs : ∀ x, x ≠ c → s'.envs x = s.envs x)
  | made (henough : s.childPages e P ≤ fl.length) (hr : 0 < r.toInt)
      (hst : (s'.envs (envx r)).envStatus = .runnable)
      (hall : ∀ i j, (i, j) ∈ s.copiedPages e → s'.leaf (envx r) i j ≠ none)

/-- The page of the new directory was free, so nothing refers to it. -/
theorem Begun.freedAt (hb : Begun res fl₁ (s.forked e c p) e c d p cid)
    (h : Inv res (p :: fl₁) s) (hc : s.envFreeList = some c) (va : Word) :
    (s.forked e c p).freedAt e va = s.freedAt e va := by
  have htgt := forked_same h hc e
  have hsame : SameSpace s (s.forked e c p) e :=
    SameSpace.of_frame (h.forked hc e).2.2 fun hh => hb.ne hh.symm
  refine freedAt_congr h hb.parent.inv (hsame.leaf _ _) fun q hq k => ?_
  have hqp : q ≠ p := h.free_ne (k := .page e _ _) List.mem_cons_self hq
  rw [htgt]
  by_cases hk : k = .dir c
  · subst hk
    rw [Function.update_self]
    refine iff_of_false (fun hh => hqp (Option.some_inj.1 hh).symm) fun hh => ?_
    exact (h.isData_leaf hq).2 (.dir c) trivial hh
  · rw [Function.update_of_ne hk]

/-- The loops need fewer than all of it. -/
theorem fillPages_le (s : Kernel) (e : EnvIndex) (P : Process) :
    s.fillPages e P (s.copiedPages e) + 2 ≤ s.childPages e P := by
  have hmono := tablesOf_mono (Set.subset_insert (pageIdx uxstack) (s.copiedPages e))
  have hstack : s.stackPages e ≤ s.tablesFor e pftemp + (1 - s.freedAt e pftemp) := by
    have hone := freedAt_le_one s e pftemp
    rw [Kernel.stackPages]
    omega
  have hsum :=
    Nat.mul_le_mul_left (({pageIdx P.esp} : Set (Index × Index)) ∩ s.copiedPages e).ncard hstack
  rw [Nat.mul_add] at hsum
  have hone : (({pageIdx P.esp} : Set (Index × Index)) ∩ s.copiedPages e).ncard ≤ 1 := by
    rw [← Set.ncard_singleton (pageIdx P.esp)]
    exact Set.ncard_le_ncard Set.inter_subset_left (Set.toFinite _)
  have hmul := Nat.mul_le_mul_right (s.tablesFor e pftemp) hone
  rw [Kernel.fillPages, Kernel.childPages]
  omega

/-- What `startChild` needs of memory, in terms of what all of it needs. -/
theorem Filling.pages_left
    (h : Filling res fl₁ s₁ e c d dc ({pageIdx P.esp} ∩ D) D fl s)
    (hD : D = forkRange ∩ s₁.presentPages e) :
    s₁.childPages e P ≤ fl₁.length + 1 ↔
      1 + s.tablesFor c uxstack + s.tablesFor e pftemp ≤ fl.length := by
  classical
  have hins := tablesOf_insert D (pdx uxstack) (ptx uxstack)
  have hc : s.tablesFor c uxstack = if ∃ j, (pdx uxstack, j) ∈ D then 0 else 1 := by
    rw [Kernel.tablesFor]
    by_cases ht : s.table c (pdx uxstack) = none
    · rw [if_pos ht, if_neg fun hh => (h.used (pdx uxstack)).2 hh ht]
    · rw [if_neg ht, if_pos ((h.used (pdx uxstack)).1 ht)]
  have hcopied : s₁.copiedPages e = D := hD.symm
  have hpages : s₁.childPages e P = 1 + (tablesOf D + s.tablesFor c uxstack) + 1 +
      s₁.tablesFor e pftemp + ({pageIdx P.esp} ∩ D).ncard * (1 - s₁.freedAt e pftemp) := by
    rw [Kernel.childPages, hcopied, hc, ← hins]
    rfl
  have hlen := h.free
  have hone := freedAt_le_one s₁ e pftemp
  by_cases hesp : pageIdx P.esp ∈ D
  · have hset : ({pageIdx P.esp} : Set (Index × Index)) ∩ D = {pageIdx P.esp} :=
      Set.inter_eq_self_of_subset_left (Set.singleton_subset_iff.2 hesp)
    have hpaid := tablesFor_present (h.paid ⟨_, rfl, hesp⟩)
    rw [hset, Set.ncard_singleton, Nat.one_mul] at hpages hlen
    rw [Kernel.stackPages] at hlen
    omega
  · have hset : ({pageIdx P.esp} : Set (Index × Index)) ∩ D = ∅ :=
      Set.singleton_inter_eq_empty.2 hesp
    have hdue := (h.due hset).1
    rw [hset, Set.ncard_empty, Nat.zero_mul] at hpages hlen
    omega

/-- **The rest of `Process.fork`**, when it returns. -/
theorem Running.forkChild_returned (h : Running res fl s e d) (hroom : s.RoomIn e forkRange)
    (hrun : (forkChild P.forkPage P.toProgram (s.envs e).envId).run s = .ok r s') :
    P.Returned fl s e r s' := by
  cases hc : s.envFreeList with
  | none =>
    rw [h.forkChild_none (Or.inl hc)] at hrun
    cases hrun
    exact .noChild (Or.inl hc) rfl rfl
  | some c =>
    cases fl with
    | nil =>
      rw [h.forkChild_none (Or.inr rfl)] at hrun
      cases hrun
      exact .noChild (Or.inr rfl) rfl rfl
    | cons p fl₁ =>
      have hb := h.begun hroom hc
      have hec : ¬ e = c := fun hh => hb.ne hh.symm
      have hsame : SameSpace s (s.forked e c p) e := SameSpace.of_frame (h.inv.forked hc e).2.2 hec
      have hcopied : (s.forked e c p).copiedPages e = s.copiedPages e :=
        copiedPages_congr fun i j _ => by rw [hsame.leaf]
      have hpages : (s.forked e c p).childPages e P = s.childPages e P := by
        rw [Kernel.childPages, hcopied, hb.freedAt h.inv hc, Kernel.tablesFor, hsame.table]
        rfl
      have hchild : ((s.forked e c p).envs c).envStatus = .notRunnable := by
        rw [forked_envs, Function.update_self]
        rfl
      rw [h.forkChild_begun hroom hc] at hrun
      rcases hb.sweep P with ⟨x, t, hfault⟩ | ⟨s₂, hscan, D, fl₂, hf, hD, hrest⟩
      · rw [run_bind_error hfault] at hrun
        cases hrun
      rw [run_bind_ok hscan, if_pos rfl] at hrun
      -- the stack of the child
      have henvs := hf.only.envs
      have hid : (s₂.envs e).envId = (s.envs e).envId := by
        rw [henvs, forked_envs, Function.update_of_ne hec]
      have habs : s₂.leaf c (pdx uxstack) (ptx uxstack) = none := by
        by_contra hh
        exact uxstack_out (hD ((hf.child _ _).1 hh))
      have hstart := hf.run.startChild_stack P.toProgram hb.ne (hf.dir hb) (hf.id hb) hf.linked habs
      rw [hid] at hstart
      rcases hstart with ⟨hlack, t, hrun', hmo⟩ | ⟨-, x, t, hrun'⟩ |
        ⟨henough, g, pp, s₃, hst, ⟨fl₃, hinv₃, -⟩, hrun'⟩
      · rw [hrun'] at hrun
        cases hrun
        refine .noMem c hc (List.cons_ne_nil _ _) ?_ rfl ?_
        · rw [List.length_cons, ← hpages]
          rcases hrest with hall | ⟨-, hlt⟩
          · have hiff := hf.pages_left hall
            omega
          · have hle : (s.forked e c p).fillPages e P
                (forkRange ∩ (s.forked e c p).presentPages e) + 2 ≤ _ := fillPages_le _ e P
            omega
        · rw [hmo.envs, henvs]
          exact hchild
      · rw [hrun'] at hrun
        cases hrun
      rcases hrest with hall | ⟨rfl, -⟩
      swap
      · rw [List.length_nil] at henough
        omega
      have hle := (hf.pages_left hall).2 henough
      rw [hpages, ← List.length_cons] at hle
      rw [hrun'] at hrun
      have henvs₃ : s₃.envs = (s.forked e c p).envs := hst.only.envs.trans henvs
      have hid₃ : s₃.resolve e (nextEnvId (s.envs c).envId c) = some c := by
        rw [← hb.id]
        simp only [Kernel.resolve, henvs₃]
      have hmo := MemOnly.trans _ _ _ hf.only hst.only
      rcases finishChild_run hinv₃ (hmo.curenv.trans hb.parent.current) hb.ne hid₃
          (by rw [henvs₃]; exact hchild) ((dir_of_envs henvs₃ c).trans hb.dir) P.toProgram with
        ⟨-, x, t, hfin⟩ | ⟨-, t, hfin, hfree, hothers⟩ | ⟨t, hfin, hgo⟩
      · rw [hfin] at hrun
        cases hrun
      · rw [hfin] at hrun
        cases hrun
        refine .noUpcall c hle rfl hfree fun x hx => ?_
        rw [hothers x hx, henvs₃, forked_envs, Function.update_of_ne hx]
      · rw [hfin] at hrun
        cases hrun
        refine .made hle (nextEnvId_pos _ c) ?_ fun i j hij => ?_
        · rw [envx_nextEnvId, hgo.envs, Function.update_self]
        · have hmem : (i, j) ∈ D := by
            rw [← hcopied] at hij
            rw [hall]
            exact hij
          have hspace := SameSpace.of_dir hgo.mem (hgo.dir ((dir_of_envs henvs₃ c).trans hb.dir)) c
          rw [envx_nextEnvId, hspace.leaf, leaf_eq_framed, hst.child i j (IsPage.of_range hij.1),
            ← leaf_eq_framed]
          exact (hf.child i j).2 hmem

/-! ## All or nothing -/

/-- `fork` has all been done, or nothing is left of it.  It was called by `e` in state `s`, and has
returned `r` in state `s'`. -/
structure AllOrNothing (s : Kernel) (e : EnvIndex) (r : Word) (s' : Kernel) : Prop where
  all : 0 < r.toInt → (s'.envs (envx r)).envStatus = .runnable ∧
    ∀ va, utext ≤ va → va < uxstacktop - pgsize → s.leaf e (pdx va) (ptx va) ≠ none →
      s'.leaf (envx r) (pdx va) (ptx va) ≠ none
  nothing : r.toInt < 0 → ∀ x, (s.envs x).envStatus = .free → (s'.envs x).envStatus = .free

theorem stackedVar : utext ≤ utext + 0xFF0#32 ∧ utext + 0xFF0#32 < uxstacktop - pgsize := by decide

/-- It has set its handler before. -/
def stackedProcess : Process :=
  { handlerSet with
    handlerVar := utext + 0xFF0#32
    linked := stackedVar
    handler := handlerSet.pgfaultHandler
    esp := ustacktop - 16#32 }

/-- When no page is left for a page table of the child, the loops copy nothing. -/
theorem Begun.sweep_nothing (hb : Begun res [] s₁ e c d dc cid)
    (hesp : s₁.translate d userWrite P.esp = some (p, pgoff P.esp)) :
    ∃ s', (scanPdes (P.forkPage cid) scanRange).run s₁ = .ok true s' ∧ UserStores res [] s₁ s' := by
  have hbody : ∀ i j, (i, j) ∈ forkRange → s₁.table e i ≠ none →
      BodyKeeps (fun _ => UserStores res [] s₁) False (P.forkPage cid) i j := by
    intro i j hij hT V s hu _
    have hf := hb.filling.stores hb hu
    have hrun : (Jos.forkPage cid (pgnum (pgaddr i j 0#32))).run s = .ok true s := by
      rcases hf.forkPage_run hb hij (Set.notMem_empty _) with
        ⟨hnone, -⟩ | ⟨hrun, -⟩ | ⟨q, fl', s', -, hf', -⟩
      · exact absurd (((hu.sameSpace e).table i).symm.trans hnone) hT
      · exact hrun
      · classical
        have hlen := hf'.free
        rw [tablesOf_insert, if_neg fun hh => hh.elim fun j' hj => hj, List.length_nil] at hlen
        omega
    refine Or.inr ?_
    rw [Process.forkPage, run_bind_ok hrun]
    by_cases hpn : pgnum (pgaddr i j 0#32) = pgnum P.esp
    · have hlt := lt_utop_of_page hij (pgnum_eq_iff.1 hpn)
      have hwrite := ((hu.sameSpace e).translate hb.parent.dir hf.run.dir hlt).trans hesp
      have hleaf := leaf_of_translate hf.run.dir hlt hwrite
      rw [if_pos hpn]
      exact ⟨_, run_bind_ok (hf.run.storeHandled_plain (setWord cid) hwrite),
        hu.trans (UserStores.fill hf.run.inv hleaf _)⟩
    · rw [if_neg hpn]
      exact ⟨s, rfl, hu⟩
  rcases scan_keeps (fun V s hu => ⟨[], hb.parent.of_stores hu⟩) (fun V s i hu _ => hu)
      (fun V s i hu ht => by rwa [(hu.sameSpace e).table] at ht) hbody
      (UserStores.refl hb.parent.inv) with
    ⟨hno, -⟩ | hrun
  · exact hno.elim
  · exact hrun

/-- Where it stores to. -/
theorem StackedState.stores {n : Fin 64} {f g : Nat} (h : StackedState n fl p f g s) :
    s.translate 1 userWrite stackedProcess.handlerVar = some (p, pgoff stackedProcess.handlerVar) ∧
    s.translate 1 userWrite stackedProcess.esp = some (f, pgoff stackedProcess.esp) ∧
    s.translate 1 userWrite uxstack = some (g, pgoff uxstack) := by
  have hw : (pteP ||| pteU ||| pteW) &&& userWrite = userWrite := by decide
  have hvar : pageIdx stackedProcess.handlerVar = pageIdx utext := by decide
  have hesp : pageIdx stackedProcess.esp = stackIdx := by decide
  have htext := h.text.1
  have hstack := h.stack.1
  rw [← show (pageIdx utext).1 = pdx utext from rfl, ← show (pageIdx utext).2 = ptx utext from rfl,
    ← hvar] at htext
  rw [← hesp] at hstack
  exact ⟨translate_userPerm h.run.dir h.run.tables htext h.text.2 hw,
    translate_userPerm h.run.dir h.run.tables hstack h.stack.2 hw,
    translate_userPerm h.run.dir h.run.tables h.exception.1 h.exception.2 hw⟩

/-- One page is free: it becomes the child's page directory, and there is none for its exception
stack. -/
theorem stacked_exhausted : ∃ s', stackedProcess.fork.run (stacked 6) = .ok (-1#32) s' ∧
    (s'.envs 1).envStatus = .notRunnable := by
  obtain ⟨fl, p, f, g, h⟩ := stacked_spec 6 (by decide)
  obtain ⟨hvar, hesp, hux⟩ := h.stores
  have hlen : fl.length = 1 := by
    have hfree := h.free
    have h6 : (6 : Fin 64).val = 6 := rfl
    omega
  obtain ⟨q, rfl⟩ := List.length_eq_one_iff.1 hlen
  -- the handler is stored
  have hset := h.run.storeHandled_plain (setWord stackedProcess.handler) hvar
  have hu := UserStores.fill h.run.inv
    (leaf_of_translate h.run.dir stackedProcess.handlerVar_lt hvar)
    (setWord stackedProcess.handler ((stacked 6).mem p) (pgoff stackedProcess.handlerVar))
  have hroom := hu.roomIn h.run.inv (h.room.roomIn forkRange)
  revert hset hu hroom
  generalize (stacked 6).fill p _ = s₀
  intro hset hu hroom
  have h₀ := h.run.of_stores hu
  have hfree₀ : s₀.envFreeList = some 1 := hu.only.envFreeList.trans h.envFree
  have hid₀ : (s₀.envs 0).envId = ((stacked 6).envs 0).envId := by rw [hu.only.envs]
  have hb := h₀.begun hroom hfree₀
  have hne : ¬ (0 : EnvIndex) = 1 := by decide
  have hsame : ∀ va, va < utop → (s₀.forked 0 1 q).translate 1 userWrite va =
      (stacked 6).translate 1 userWrite va := fun va hva =>
    ((SameSpace.of_frame (h₀.inv.forked hfree₀ 0).2.2 hne).translate h₀.dir hb.parent.dir hva).trans
      ((hu.sameSpace 0).translate h.run.dir h₀.dir hva)
  -- the loops copy nothing
  obtain ⟨s₂, hscan, hu₂⟩ := hb.sweep_nothing ((hsame _ (by decide)).trans hesp)
  have h₂ := hb.parent.of_stores hu₂
  have hf₂ := hb.filling.stores hb hu₂
  have hux₂ := (((hu₂.sameSpace 0).translate hb.parent.dir h₂.dir userPage_uxstack.1).trans
    (hsame _ userPage_uxstack.1)).trans hux
  have hid₂ : (s₂.envs 0).envId = (s₀.envs 0).envId := by
    rw [hu₂.only.envs, forked_envs, Function.update_of_ne hne]
  have habs : s₂.leaf 1 (pdx uxstack) (ptx uxstack) = none := by
    by_contra hh
    exact (hf₂.child _ _).1 hh
  rcases h₂.startChild_stack stackedProcess.toProgram hb.ne (hf₂.dir hb)
      (hf₂.id hb) hf₂.linked habs with
    ⟨-, s', hrun, hmo⟩ | ⟨hno, -⟩ | ⟨henough, -⟩
  · refine ⟨s', ?_, ?_⟩
    · have hset' : stackedProcess.setPgfaultHandler.run (stacked 6) = .ok () s₀ := hset
      rw [Process.fork, run_bind_ok h.run.getenvid, run_bind_ok hset', ← hid₀,
        h₀.forkChild_begun hroom hfree₀, run_bind_ok hscan, if_pos rfl, ← hid₂, hrun]
    · rw [hmo.envs, hu₂.only.envs, forked_envs, Function.update_self]
      rfl
  · exact absurd (hux₂.symm.trans hno) (by simp)
  · rw [List.length_nil] at henough
    omega

end Jos
