import Jos.Alloc.Boot
import Jos.Alloc.Insert
import Mathlib.Data.Set.Card

/-!
# The whole effect of `boot_map_region`

`boot_map_region` takes its page tables from the memory that it maps, one whenever it comes to a
directory entry that has none.  `Building` says how far it has got: which tables are new, what their
entries are, and that nothing else has been touched.

A directory that maps itself shows its new tables at `UVPT`, so there the translation changes.
-/

set_option autoImplicit false

namespace Jos

open Kernel Command

variable {s t : Kernel} {fl fl' fl'' : List Nat} {d p q n k : Nat} {va size pa perm : Word}
    {i j : Index}
variable {new : List (Index × Nat)}

/-! ## The pages of a region -/

/-- The page `k` pages after `va`. -/
def pageAfter (va : Word) (k : Nat) : Word := va + BitVec.ofNat 32 (k * 4096)

theorem pageAfter_zero (va : Word) : pageAfter va 0 = va := by simp [pageAfter]

theorem pageAfter_succ (va : Word) (k : Nat) : pageAfter va k + pgsize = pageAfter va (k + 1) := by
  have hps : pgsize.toNat = 4096 := by decide
  apply BitVec.eq_of_toNat_eq
  simp only [pageAfter, BitVec.toNat_add, BitVec.toNat_ofNat, hps]
  omega

theorem pageAfter_toNat (h : va.toNat + k * 4096 < 2 ^ 32) :
    (pageAfter va k).toNat = va.toNat + k * 4096 := by
  rw [pageAfter, BitVec.toNat_add, BitVec.toNat_ofNat]
  omega

/-- Entry `j` of page table `i` belongs to one of the `k` pages from `va` on. -/
def Covers (va : Word) (k : Nat) (i j : Index) : Prop :=
  ∃ m < k, pdx (pageAfter va m) = i ∧ ptx (pageAfter va m) = j

/-- No entry belongs to two. -/
theorem covers_once (hn : va.toNat + n * 4096 ≤ 2 ^ 32) {m m' : Nat} (hm : m < n) (hm' : m' < n)
    (hd : pdx (pageAfter va m) = pdx (pageAfter va m'))
    (ht : ptx (pageAfter va m) = ptx (pageAfter va m')) : m = m' := by
  have h := pgnum_inj hd ht
  rw [pgnum_eq, pgnum_eq, pageAfter_toNat (by omega), pageAfter_toNat (by omega)] at h
  omega

/-! ## A new page table -/

section

variable (hdp : d ≠ p)
include hdp

theorem newTable_dir (t : Kernel) (va : Word) (i : Index) : (t.newTable d va p).mem d i =
    if i = pdx va then page2pa p ||| pteP ||| pteW ||| pteU else t.mem d i := by
  by_cases hi : i = pdx va
  · rw [if_pos hi, hi, Kernel.newTable, store_mem_self]
  · rw [if_neg hi, Kernel.newTable, store_mem_idx _ _ _ _ hi, incref_mem, fill_mem_ne _ _ _ hdp,
      pop_mem]

theorem newTable_page (t : Kernel) : (t.newTable d va p).mem p = fun _ => 0#32 := by
  rw [Kernel.newTable, store_mem_ne _ _ _ _ (Ne.symm hdp), incref_mem, fill_mem_self]

omit hdp in
theorem newTable_rest (t : Kernel) (hqd : q ≠ d) (hqp : q ≠ p) :
    (t.newTable d va p).mem q = t.mem q := by
  rw [Kernel.newTable, store_mem_ne _ _ _ _ hqd, incref_mem, fill_mem_ne _ _ _ hqp, pop_mem]

omit hdp in
theorem newTable_ppRef (t : Kernel) (q : Nat) : ((t.newTable d va p).pages q).ppRef =
    if q = p then (t.pages p).ppRef + 1#16 else (t.pages q).ppRef := by
  have hpages : (t.newTable d va p).pages = (t.incref p).pages := rfl
  by_cases hq : q = p
  · simp [hpages, incref, hq]
  · simp [hpages, incref, hq]

end

/-! ## What is there before -/

/-- A page directory whose page tables are distinct pages, and a list of pages that are free. -/
structure Kernel.DistinctTables (s : Kernel) (d : Nat) (fl : List Nat) : Prop where
  chain : Chain s.links s.pageFreeList fl
  below : ∀ p ∈ fl, p < s.npages
  zero : ∀ p ∈ fl, (s.pages p).ppRef = 0#16
  dir : d ∉ fl
  table : ∀ i t, framed (s.mem d i) = some t → t < s.npages ∧ t ∉ fl
  distinct : ∀ i i' t, framed (s.mem d i) = some t → framed (s.mem d i') = some t → i = i'

/-- Directory entry `i` has no page table, and one of the `n` pages from `va` on needs it. -/
def Kernel.Lacks (s : Kernel) (d : Nat) (va : Word) (n : Nat) (i : Index) : Prop :=
  framed (s.mem d i) = none ∧ ∃ m < n, pdx (pageAfter va m) = i

/-- The entry for page `k` of the region. -/
def bootEntry (pa perm : Word) (k : Nat) : Word := pteAddr (pageAfter pa k) ||| perm ||| pteP

/-- `boot_map_region` has dealt with `k` of the `n` pages from `va` on: the page tables `new` were
taken from the front of the free list, of which `fl'` is left. -/
structure Building (s : Kernel) (d : Nat) (fl : List Nat) (va pa perm : Word) (n k : Nat)
    (new : List (Index × Nat)) (fl' : List Nat) (t : Kernel) : Prop where
  split : fl = new.map Prod.snd ++ fl'
  chain : Chain t.links t.pageFreeList fl'
  npages : t.npages = s.npages
  once : (new.map Prod.fst).Nodup
  lacked : ∀ i ∈ new.map Prod.fst, s.Lacks d va n i
  supplied : ∀ m < k, framed (s.mem d (pdx (pageAfter va m))) = none →
    pdx (pageAfter va m) ∈ new.map Prod.fst
  /-- The directory changes where there was no page table. -/
  kept : ∀ i, i ∉ new.map Prod.fst → t.mem d i = s.mem d i
  made : ∀ i p, (i, p) ∈ new → t.mem d i = page2pa p ||| pteP ||| pteW ||| pteU
  one : ∀ i p, (i, p) ∈ new → (t.pages p).ppRef = 1#16
  refs : ∀ p, p ∉ new.map Prod.snd → (t.pages p).ppRef = (s.pages p).ppRef
  inside : ∀ m < k, ∃ q, framed (t.mem d (pdx (pageAfter va m))) = some q ∧
    t.mem q (ptx (pageAfter va m)) = bootEntry pa perm m
  /-- The rest of a new page table is zero. -/
  fresh : ∀ i p, (i, p) ∈ new → ∀ j, ¬ Covers va k i j → t.mem p j = 0#32
  /-- The rest of an old one stays. -/
  others : ∀ i q, framed (s.mem d i) = some q → q ≠ d → ∀ j, ¬ Covers va k i j →
    t.mem q j = s.mem q j

namespace Building

variable (hs : s.DistinctTables d fl)
variable (h : Building s d fl va pa perm n k new fl' t)

/-- Nothing has happened yet. -/
theorem start (hs : s.DistinctTables d fl) (va pa perm : Word) (n : Nat) :
    Building s d fl va pa perm n 0 [] fl s where
  split := rfl
  chain := hs.chain
  npages := rfl
  once := List.nodup_nil
  lacked := by simp
  supplied := by simp
  kept _ _ := rfl
  made := by simp
  one := by simp
  refs _ _ := rfl
  inside := by simp
  fresh := by simp
  others _ _ _ _ _ _ := rfl

include h

theorem mem_free (hip : (i, p) ∈ new) : p ∈ fl := by
  rw [h.split]
  exact List.mem_append_left _ (List.mem_map_of_mem hip)

include hs

theorem framed_made (hip : (i, p) ∈ new) : framed (t.mem d i) = some p := by
  rw [h.made i p hip]
  exact framed_table (Nat.lt_of_lt_of_le (hs.below p (h.mem_free hip)) s.npagesLe)

/-- A page table is new, or was there before. -/
theorem table_cases (hq : framed (t.mem d i) = some q) :
    (i, q) ∈ new ∨ i ∉ new.map Prod.fst ∧ framed (s.mem d i) = some q := by
  by_cases hi : i ∈ new.map Prod.fst
  · obtain ⟨⟨i', p⟩, hip, rfl⟩ := List.mem_map.1 hi
    obtain rfl : p = q := Option.some_inj.1 ((h.framed_made hs hip).symm.trans hq)
    exact Or.inl hip
  · rw [h.kept i hi] at hq
    exact Or.inr ⟨hi, hq⟩

theorem table_lt (hq : framed (t.mem d i) = some q) : q < t.npages := by
  rw [h.npages]
  rcases h.table_cases hs hq with hip | ⟨-, hf⟩
  · exact hs.below q (h.mem_free hip)
  · exact (hs.table i q hf).1

/-- The page tables are still distinct. -/
theorem table_inj {i' : Index} (hq : framed (t.mem d i) = some q)
    (hq' : framed (t.mem d i') = some q) : i = i' := by
  rcases h.table_cases hs hq with hip | ⟨-, hf⟩
  · rcases h.table_cases hs hq' with hip' | ⟨-, hf'⟩
    · have hnd : (new.map Prod.snd).Nodup := by
        have hfl := hs.chain.nodup
        rw [h.split] at hfl
        exact (List.nodup_append.1 hfl).1
      exact congrArg Prod.fst (List.inj_on_of_nodup_map hnd hip hip' rfl)
    · exact absurd (h.mem_free hip) (hs.table i' q hf').2
  · rcases h.table_cases hs hq' with hip' | ⟨-, hf'⟩
    · exact absurd (h.mem_free hip') (hs.table i q hf).2
    · exact hs.distinct i i' q hf hf'

theorem table_ne_dir (hi : framed (s.mem d i) ≠ some d) (hq : framed (t.mem d i) = some q) :
    q ≠ d := by
  rintro rfl
  rcases h.table_cases hs hq with hip | ⟨-, hf⟩
  · exact hs.dir (h.mem_free hip)
  · exact hi hf

omit hs in
/-- An old page table is where it was. -/
theorem framed_old (hq : framed (s.mem d i) = some q) : framed (t.mem d i) = some q := by
  have hi : i ∉ new.map Prod.fst := fun hi => by
    rw [(h.lacked i hi).1] at hq
    cases hq
  rw [h.kept i hi, hq]

/-- Writing the entry of the next page. -/
theorem store (hn : va.toNat + n * 4096 ≤ 2 ^ 32) (hk : k < n)
    (hq : framed (t.mem d (pdx (pageAfter va k))) = some q) (hqd : q ≠ d) :
    Building s d fl va pa perm n (k + 1) new fl'
      (t.store q (ptx (pageAfter va k)) (bootEntry pa perm k)) := by
  have hdir : (t.store q (ptx (pageAfter va k)) (bootEntry pa perm k)).mem d = t.mem d :=
    store_mem_ne _ _ _ _ (Ne.symm hqd)
  -- the entries of other pages
  have hrest : ∀ i q' j, framed (t.mem d i) = some q' →
      ¬ (pdx (pageAfter va k) = i ∧ ptx (pageAfter va k) = j) →
      (t.store q (ptx (pageAfter va k)) (bootEntry pa perm k)).mem q' j = t.mem q' j := by
    intro i q' j hq' hne
    by_cases hqq : q' = q
    · subst hqq
      have hi : pdx (pageAfter va k) = i := h.table_inj hs hq hq'
      exact store_mem_idx _ _ _ _ fun hj => hne ⟨hi, hj.symm⟩
    · rw [store_mem_ne _ _ _ _ hqq]
  have hmore : ∀ i j, ¬ Covers va (k + 1) i j →
      ¬ Covers va k i j ∧ ¬ (pdx (pageAfter va k) = i ∧ ptx (pageAfter va k) = j) := by
    intro i j hno
    exact ⟨fun ⟨m, hm, hc⟩ => hno ⟨m, by omega, hc⟩, fun hc => hno ⟨k, by omega, hc⟩⟩
  refine ⟨h.split, h.chain, h.npages, h.once, h.lacked, fun m hm hnone => ?_, ?_, ?_, h.one, h.refs,
    fun m hm => ?_, fun i p hip j hno => ?_, fun i q' hq' hqd' j hno => ?_⟩
  · rcases Nat.lt_succ_iff_lt_or_eq.1 hm with hm | rfl
    · exact h.supplied m hm hnone
    · rcases h.table_cases hs hq with hip | ⟨-, hf⟩
      · exact List.mem_map_of_mem hip
      · rw [hnone] at hf
        cases hf
  · rw [hdir]
    exact h.kept
  · rw [hdir]
    exact h.made
  · rw [hdir]
    rcases Nat.lt_succ_iff_lt_or_eq.1 hm with hm | rfl
    · obtain ⟨q', hq', hent⟩ := h.inside m hm
      refine ⟨q', hq', ?_⟩
      rw [hrest _ q' _ hq' fun hc => ?_, hent]
      exact absurd (covers_once hn hk (by omega) hc.1 hc.2) (by omega)
    · exact ⟨q, hq, store_mem_self _ _ _ _⟩
  · obtain ⟨hold, hne⟩ := hmore i j hno
    rw [hrest i p j (h.framed_made hs hip) hne, h.fresh i p hip j hold]
  · obtain ⟨hold, hne⟩ := hmore i j hno
    rw [hrest i q' j (h.framed_old hq') hne, h.others i q' hq' hqd' j hold]

/-- Where there is no page table, none has been made, and one is needed. -/
theorem lacks (hk : k < n) (hnone : framed (t.mem d (pdx (pageAfter va k))) = none) :
    pdx (pageAfter va k) ∉ new.map Prod.fst ∧ s.Lacks d va n (pdx (pageAfter va k)) := by
  have hinew : pdx (pageAfter va k) ∉ new.map Prod.fst := by
    intro hm
    obtain ⟨⟨i, q⟩, hiq, hi⟩ := List.mem_map.1 hm
    have hf := h.framed_made hs hiq
    rw [show i = pdx (pageAfter va k) from hi, hnone] at hf
    cases hf
  exact ⟨hinew, h.kept _ hinew ▸ hnone, k, hk, rfl⟩

/-- Making a page table for the next page. -/
theorem create (hk : k < n) (hfl : fl' = p :: fl'')
    (hnone : framed (t.mem d (pdx (pageAfter va k))) = none)
    (havoid : ∀ m < n, framed (s.mem d (pdx (pageAfter va m))) ≠ some d) :
    Building s d fl va pa perm n k (new ++ [(pdx (pageAfter va k), p)]) fl''
      (t.newTable d (pageAfter va k) p) := by
  subst hfl
  have hp : p ∈ fl := by
    rw [h.split]
    exact List.mem_append_right _ List.mem_cons_self
  have hdp : d ≠ p := fun hdp => hs.dir (hdp ▸ hp)
  have hplt : p < 2 ^ 20 := Nat.lt_of_lt_of_le (hs.below p hp) s.npagesLe
  have hnd := hs.chain.nodup
  rw [h.split] at hnd
  have hpnew : p ∉ new.map Prod.snd := fun hm =>
    (List.nodup_append.1 hnd).2.2 p hm p List.mem_cons_self rfl
  have hne : ∀ {i q}, (i, q) ∈ new → q ≠ p := fun hiq hqp =>
    hpnew (hqp ▸ List.mem_map_of_mem hiq)
  obtain ⟨hinew, hlack⟩ := h.lacks hs hk hnone
  have hdir := newTable_dir hdp t (pageAfter va k)
  have hother : ∀ i, i ≠ pdx (pageAfter va k) →
      (t.newTable d (pageAfter va k) p).mem d i = t.mem d i := by
    intro i hi
    rw [hdir, if_neg hi]
  have hpages : (t.newTable d (pageAfter va k) p).pages = (t.incref p).pages := rfl
  refine ⟨?_, ?_, h.npages, ?_, fun i hi => ?_, fun m hm hf => ?_, fun i hi => ?_,
    fun i q hiq => ?_, fun i q hiq => ?_, fun q hq => ?_, fun m hm => ?_, fun i q hiq j hno => ?_,
    fun i q hq hqd j hno => ?_⟩
  · rw [h.split, List.map_append, List.append_assoc]
    rfl
  · rw [links_congr hpages, links_incref]
    exact h.chain.2
  · rw [List.map_append]
    exact List.Nodup.append h.once (List.nodup_singleton _) (by simpa using hinew)
  · rw [List.map_append, List.mem_append] at hi
    rcases hi with hi | hi
    · exact h.lacked i hi
    · obtain rfl : i = pdx (pageAfter va k) := List.mem_singleton.1 hi
      exact hlack
  · rw [List.map_append]
    exact List.mem_append_left _ (h.supplied m hm hf)
  · rw [List.map_append, List.mem_append, not_or] at hi
    rw [hother i (by simpa using hi.2), h.kept i hi.1]
  · rcases List.mem_append.1 hiq with hiq | hiq
    · have hi : i ≠ pdx (pageAfter va k) := fun hi =>
        hinew (hi ▸ List.mem_map_of_mem (f := Prod.fst) hiq)
      rw [hother i hi, h.made i q hiq]
    · obtain ⟨rfl, rfl⟩ := Prod.mk.inj (List.mem_singleton.1 hiq)
      rw [hdir, if_pos rfl]
  · rw [newTable_ppRef]
    rcases List.mem_append.1 hiq with hiq | hiq
    · rw [if_neg (hne hiq), h.one i q hiq]
    · obtain ⟨rfl, rfl⟩ := Prod.mk.inj (List.mem_singleton.1 hiq)
      rw [if_pos rfl, h.refs q hpnew, hs.zero q hp]
      rfl
  · rw [List.map_append, List.mem_append, not_or] at hq
    rw [newTable_ppRef, if_neg (by simpa using hq.2), h.refs q hq.1]
  · obtain ⟨q, hq, hent⟩ := h.inside m hm
    have hi : pdx (pageAfter va m) ≠ pdx (pageAfter va k) := fun hi => by
      rw [hi, hnone] at hq
      cases hq
    have hqp : q ≠ p := by
      rcases h.table_cases hs hq with hiq | ⟨-, hf⟩
      · exact hne hiq
      · exact fun hqp => (hs.table _ q hf).2 (hqp ▸ hp)
    refine ⟨q, by rw [hother _ hi, hq], ?_⟩
    rw [newTable_rest t (h.table_ne_dir hs (havoid m (by omega)) hq) hqp, hent]
  · rcases List.mem_append.1 hiq with hiq | hiq
    · have hqd : q ≠ d := fun hqd => hs.dir (hqd ▸ h.mem_free hiq)
      rw [newTable_rest t hqd (hne hiq), h.fresh i q hiq j hno]
    · obtain ⟨rfl, rfl⟩ := Prod.mk.inj (List.mem_singleton.1 hiq)
      rw [newTable_page hdp]
  · have hqp : q ≠ p := fun hqp => (hs.table _ q hq).2 (hqp ▸ hp)
    rw [newTable_rest t hqd hqp, h.others i q hq hqd j hno]

/-- There is a free page for every page table that is lacking. -/
theorem room (hroom : {i | s.Lacks d va n i}.ncard ≤ fl.length) (hk : k < n)
    (hnone : framed (t.mem d (pdx (pageAfter va k))) = none) : ∃ p fl'', fl' = p :: fl'' := by
  obtain ⟨hinew, hlack⟩ := h.lacks hs hk hnone
  have hcount : (pdx (pageAfter va k) :: new.map Prod.fst).length ≤
      {i | s.Lacks d va n i}.ncard := by
    rw [← List.toFinset_card_of_nodup (List.nodup_cons.2 ⟨hinew, h.once⟩), ← Set.ncard_coe_finset]
    refine Set.ncard_le_ncard (fun i hi => ?_) (Set.toFinite _)
    rcases List.mem_cons.1 (List.mem_toFinset.1 hi) with rfl | hi
    · exact hlack
    · exact h.lacked i hi
  have hlen := congrArg List.length h.split
  rw [List.length_append, List.length_map] at hlen
  rw [List.length_cons, List.length_map] at hcount
  exact List.exists_cons_of_length_pos (by omega)

/-- The loop, from page `k` on. -/
theorem loop (hn : va.toNat + n * 4096 ≤ 2 ^ 32)
    (havoid : ∀ m < n, framed (s.mem d (pdx (pageAfter va m))) ≠ some d)
    (hroom : {i | s.Lacks d va n i}.ncard ≤ fl.length) {r : Nat} (hr : k + r = n) :
    ∃ new' fl'' t', (bootMapPages d perm r (pageAfter va k) (pageAfter pa k)).run t = .ok () t' ∧
      Building s d fl va pa perm n n new' fl'' t' := by
  induction r generalizing k new fl' t with
  | zero =>
    obtain rfl : k = n := hr
    exact ⟨new, fl', t, rfl, h⟩
  | succ r ih =>
    have hk : k < n := by omega
    -- once the walk has found a page table
    have hwrite : ∀ {new fl' t q}, Building s d fl va pa perm n k new fl' t →
        framed (t.mem d (pdx (pageAfter va k))) = some q →
        ∃ new' fl'' t', (bootMapPages d perm r (pageAfter va (k + 1)) (pageAfter pa (k + 1))).run
          (t.store q (ptx (pageAfter va k)) (bootEntry pa perm k)) = .ok () t' ∧
          Building s d fl va pa perm n n new' fl'' t' := fun h hq =>
      ih (h.store hs hn hk hq (h.table_ne_dir hs (havoid k hk) hq)) (by omega)
    cases hq : framed (t.mem d (pdx (pageAfter va k))) with
    | some q =>
      obtain ⟨new', fl'', t', hrun, hfin⟩ := hwrite h hq
      refine ⟨new', fl'', t', ?_, hfin⟩
      rw [bootMapPages, run_bind_ok (pgdirWalk_found hq (h.table_lt hs hq) true), pageAfter_succ,
        pageAfter_succ]
      exact hrun
    | none =>
      obtain ⟨p, fl₁, rfl⟩ := h.room hs hroom hk hq
      have hp : p < t.npages := by
        rw [h.npages]
        exact hs.below p (h.split ▸ List.mem_append_right _ List.mem_cons_self)
      have hnew := h.create hs hk rfl hq havoid
      have hfound := hnew.framed_made hs (List.mem_append_right _ (List.mem_singleton_self _))
      obtain ⟨new', fl'', t', hrun, hfin⟩ := hwrite hnew hfound
      refine ⟨new', fl'', t', ?_, hfin⟩
      rw [bootMapPages, run_bind_ok (pgdirWalk_create hq h.chain.1 hp), pageAfter_succ,
        pageAfter_succ]
      exact hrun

end Building

/-! ## The theorem -/

/-- An address of the region. -/
def InRegion (va size a : Word) : Prop :=
  va.toNat ≤ a.toNat ∧ a.toNat < va.toNat + size.toNat

/-- Directory entry `i` has no page table, and an address of the region needs it. -/
def Kernel.Missing (s : Kernel) (d : Nat) (va size : Word) (i : Index) : Prop :=
  framed (s.mem d i) = none ∧ ∃ a, InRegion va size a ∧ pdx a = i

section

variable (hva : va.toNat % 4096 = 0) (hsize : size.toNat % 4096 = 0)
variable (hend : va.toNat + size.toNat ≤ 2 ^ 32)

/-- Offset `k` is in page `k / 4096`. -/
theorem add_eq_pageAfter (va : Word) {k : Word} (hk : k.toNat % 4096 = 0) :
    va + k = pageAfter va (k.toNat / 4096) := by
  rw [pageAfter, Nat.div_mul_cancel (Nat.dvd_of_mod_eq_zero hk), BitVec.ofNat_toNat]
  rfl

include hva hsize hend

/-- The region is its pages. -/
theorem inRegion_iff (a : Word) :
    InRegion va size a ↔ Covers va (size.toNat / 4096) (pdx a) (ptx a) := by
  have ha := a.isLt
  constructor
  · rintro ⟨hlo, hhi⟩
    have hm : (pageAfter va ((a.toNat - va.toNat) / 4096)).toNat =
        va.toNat + (a.toNat - va.toNat) / 4096 * 4096 := pageAfter_toNat (by omega)
    refine ⟨(a.toNat - va.toNat) / 4096, by omega, Fin.ext ?_, Fin.ext ?_⟩
    · rw [pdx_val, pdx_val, hm]
      omega
    · rw [ptx_val, ptx_val, hm]
      omega
  · rintro ⟨m, hm, h1, h2⟩
    have hp := pgnum_inj h1 h2
    rw [pgnum_eq, pgnum_eq, pageAfter_toNat (by omega)] at hp
    exact ⟨by omega, by omega⟩

theorem pageAfter_inRegion {m : Nat} (hm : m < size.toNat / 4096) :
    InRegion va size (pageAfter va m) :=
  (inRegion_iff hva hsize hend _).2 ⟨m, hm, rfl, rfl⟩

theorem missing_iff (i : Index) :
    s.Missing d va size i ↔ s.Lacks d va (size.toNat / 4096) i := by
  refine and_congr_right fun _ => ⟨?_, ?_⟩
  · rintro ⟨a, ha, rfl⟩
    obtain ⟨m, hm, hi, -⟩ := (inRegion_iff hva hsize hend a).1 ha
    exact ⟨m, hm, hi⟩
  · rintro ⟨m, hm, rfl⟩
    exact ⟨_, pageAfter_inRegion hva hsize hend hm, rfl⟩

end

/-- What `boot_map_region` does: the page tables `new`, with the directory entries they are for,
were taken from the free list, of which `fl'` is left. -/
structure BootMapped (s : Kernel) (d : Nat) (fl : List Nat) (va size pa perm : Word)
    (new : List (Index × Nat)) (fl' : List Nat) (s' : Kernel) : Prop where
  /-- Every page of the region has the entry asked for. -/
  entry : ∀ k : Word, k.toNat < size.toNat → k.toNat % 4096 = 0 →
    s'.walk d (va + k) = some (pteAddr (pa + k) ||| perm ||| pteP)
  /-- So it is mapped to where it should be. -/
  mapped : IsPerm perm → ∀ k : Word, k.toNat < size.toNat → k.toNat % 4096 = 0 →
    s'.mapping d (va + k) = some (pgnum (pa + k), perm ||| pteP)
  /-- Any other address is mapped as before, but for the places where the directory that maps itself
  shows a new page table. -/
  others : ∀ a, ¬ InRegion va size a →
    (framed (s.mem d (pdx a)) = some d → ptx a ∉ new.map Prod.fst) →
    s'.mapping d a = s.mapping d a
  /-- There is one new page table for each that was missing, from the front of the free list. -/
  missing : ∀ i, i ∈ new.map Prod.fst ↔ s.Missing d va size i
  once : (new.map Prod.fst).Nodup
  split : fl = new.map Prod.snd ++ fl'
  chain : Chain s'.links s'.pageFreeList fl'
  /-- It is in the directory, and what the region does not need of it is zero. -/
  tables : ∀ i p, (i, p) ∈ new → s'.mem d i = page2pa p ||| pteP ||| pteW ||| pteU ∧
    (s'.pages p).ppRef = 1#16 ∧
    ∀ j, (∀ a, InRegion va size a → ¬ (pdx a = i ∧ ptx a = j)) → s'.mem p j = 0#32
  /-- No other page is referenced more or less than before. -/
  refs : ∀ p, p ∉ new.map Prod.snd → (s'.pages p).ppRef = (s.pages p).ppRef

/-- The address of an entry. -/
theorem pteAddr_eq (w : Word) : pteAddr w = page2pa (pgnum w) := by
  rw [pteAddr, page2pa, pgnum, BitVec.ofNat_toNat]
  apply BitVec.eq_of_getLsbD_eq
  intro i hi
  have hmask : (0xFFF#32).getLsbD i = decide (i < 12) := by
    rw [show 0xFFF#32 = BitVec.ofNat 32 (2 ^ 12 - 1) from rfl, BitVec.getLsbD_ofNat,
      Nat.testBit_two_pow_sub_one]
    simp [hi]
  simp only [BitVec.getLsbD_and, BitVec.getLsbD_not, BitVec.getLsbD_shiftLeft, hi, decide_true,
    Bool.true_and, hmask]
  by_cases hlow : i < 12
  · simp [hlow]
  · simp [hlow, BitVec.getLsbD_ushiftRight, show 12 + (i - 12) = i by omega]

/-- **`boot_map_region` maps its range**, and takes what page tables it needs. -/
theorem bootMapRegion_exact (hs : s.DistinctTables d fl) (pa perm : Word)
    (hva : va.toNat % 4096 = 0) (hsize : size.toNat % 4096 = 0)
    (hend : va.toNat + size.toNat ≤ 2 ^ 32)
    (havoid : ∀ a, InRegion va size a → framed (s.mem d (pdx a)) ≠ some d)
    (hroom : {i | s.Missing d va size i}.ncard ≤ fl.length) :
    ∃ new fl' s', (bootMapRegion d va size pa perm).run s = .ok () s' ∧
      BootMapped s d fl va size pa perm new fl' s' := by
  have hn : (size / pgsize).toNat = size.toNat / 4096 := by
    rw [BitVec.toNat_udiv]
    rfl
  have hreg := inRegion_iff hva hsize hend
  have hmiss : ∀ i, s.Missing d va size i ↔ s.Lacks d va (size.toNat / 4096) i :=
    missing_iff hva hsize hend
  obtain ⟨new, fl', s', hrun, h⟩ := (Building.start hs va pa perm (size.toNat / 4096)).loop hs
    (by omega) (fun m hm => havoid _ (pageAfter_inRegion hva hsize hend hm))
    (by simpa only [hmiss] using hroom) (Nat.zero_add _)
  rw [pageAfter_zero, pageAfter_zero, ← hn] at hrun
  have hentry : ∀ k : Word, k.toNat < size.toNat → k.toNat % 4096 = 0 →
      s'.walk d (va + k) = some (pteAddr (pa + k) ||| perm ||| pteP) := by
    intro k hk hal
    obtain ⟨q, hq, hent⟩ := h.inside (k.toNat / 4096) (by omega)
    rw [add_eq_pageAfter va hal, add_eq_pageAfter pa hal, walk, hq, Option.map_some, hent]
    rfl
  refine ⟨new, fl', s', hrun, hentry, fun hperm k hk hal => ?_, fun a ha hself => ?_, fun i => ?_,
    h.once, h.split, h.chain,
    fun i p hip => ⟨h.made i p hip, h.one i p hip, fun j hno => ?_⟩, h.refs⟩
  · have hlt : pgnum (pa + k) < 2 ^ 20 := by
      have := (pa + k).isLt
      rw [pgnum_eq]
      omega
    have hw : pteAddr (pa + k) ||| perm ||| pteP = page2pa (pgnum (pa + k)) ||| pteP ||| perm := by
      rw [pteAddr_eq, BitVec.or_assoc, BitVec.or_comm perm, ← BitVec.or_assoc]
    rw [mapping, hentry k hk hal, Option.bind_some, hw, framed_entry hlt hperm, Option.map_some,
      entry_flags hperm]
  · have hno : ¬ Covers va (size.toNat / 4096) (pdx a) (ptx a) := fun hc => ha ((hreg a).2 hc)
    cases hq : framed (s.mem d (pdx a)) with
    | some q =>
      have hi : pdx a ∉ new.map Prod.fst := fun hi => by
        rw [(h.lacked _ hi).1] at hq
        cases hq
      refine mapping_congr (h.kept _ hi) fun q' hq' => ?_
      obtain rfl : q = q' := Option.some_inj.1 (hq.symm.trans hq')
      by_cases hqd : q = d
      · subst hqd
        exact h.kept _ (hself hq)
      · exact h.others _ q hq hqd _ hno
    | none =>
      have hold : s.mapping d a = none := by
        rw [mapping, walk, hq]
        rfl
      rw [hold]
      by_cases hi : pdx a ∈ new.map Prod.fst
      · obtain ⟨⟨i, p⟩, hip, hpa⟩ := List.mem_map.1 hi
        have hia : i = pdx a := hpa
        rw [mapping, walk, ← hia, h.framed_made hs hip, Option.map_some, Option.bind_some,
          h.fresh i p hip _ (hia ▸ hno), framed_zero]
        rfl
      · rw [mapping, walk, h.kept _ hi, hq]
        rfl
  · rw [hmiss]
    refine ⟨h.lacked i, ?_⟩
    rintro ⟨hnone, m, hm, rfl⟩
    exact h.supplied m hm hnone
  · refine h.fresh i p hip j fun hc => ?_
    obtain ⟨m, hm, h1, h2⟩ := hc
    exact hno _ (pageAfter_inRegion hva hsize hend hm) ⟨h1, h2⟩

/-- A directory that maps itself and nothing else. -/
theorem oneEnv_framed (i : Index) :
    framed (oneEnv.mem 1 i) = if i = pdx uvpt then some 1 else none := by
  have hmem : oneEnv.mem 1 i = if i = pdx uvpt then page2pa 1 ||| pteP ||| pteU else 0#32 := by
    simp [oneEnv]
  rw [hmem]
  split
  · decide
  · exact framed_zero

theorem oneEnv_distinctTables : oneEnv.DistinctTables 1 [2, 3] where
  chain := ⟨rfl, rfl, rfl⟩
  below := by decide
  zero := by decide
  dir := by decide
  table i t ht := by
    rw [oneEnv_framed] at ht
    split at ht
    · obtain rfl := Option.some_inj.1 ht
      decide
    · cases ht
  distinct i i' t ht ht' := by
    rw [oneEnv_framed] at ht ht'
    split at ht
    · split at ht'
      · rename_i h h'
        rw [h, h']
      · cases ht'
    · cases ht

theorem pdx_upages {a : Word} (ha : InRegion upages pgsize a) : pdx a = pdx upages := by
  obtain ⟨hlo, hhi⟩ := ha
  have h1 : upages.toNat = 4009754624 := by decide
  have h2 : pgsize.toNat = 4096 := by decide
  refine Fin.ext ?_
  rw [pdx_val, pdx_val]
  omega

theorem oneEnv_room : {i | oneEnv.Missing 1 upages pgsize i}.ncard ≤ [2, 3].length := by
  refine (Set.ncard_le_ncard (t := {pdx upages}) ?_).trans (by rw [Set.ncard_singleton]; decide)
  rintro i ⟨-, a, ha, rfl⟩
  exact pdx_upages ha

theorem bootMapRegion_exact_oneEnv : ∃ new fl' s',
    (bootMapRegion 1 upages pgsize 0#32 (pteU ||| pteP)).run oneEnv = .ok () s' ∧
      BootMapped oneEnv 1 [2, 3] upages pgsize 0#32 (pteU ||| pteP) new fl' s' := by
  refine bootMapRegion_exact oneEnv_distinctTables _ _ (by decide) (by decide) (by decide)
    (fun a ha => ?_) oneEnv_room
  rw [pdx_upages ha, oneEnv_framed]
  decide

/-- **Another translation changes**: the directory shows the new page table at `UVPT`, where there
was nothing. -/
theorem bootMapRegion_changes_uvpt : oneEnv.DistinctTables 1 [2, 3] ∧
    {i | oneEnv.Missing 1 upages pgsize i}.ncard ≤ [2, 3].length ∧
    ¬ InRegion upages pgsize (uvptEntry 0xEF000) ∧
    ∃ s', (bootMapRegion 1 upages pgsize 0#32 (pteU ||| pteP)).run oneEnv = .ok () s' ∧
      s'.mapping 1 (uvptEntry 0xEF000) ≠ oneEnv.mapping 1 (uvptEntry 0xEF000) := by
  have hnone : framed (oneEnv.mem 1 (pdx upages)) = none := by
    rw [oneEnv_framed]
    decide
  have hwalk : (pgdirWalk 1 upages true).run oneEnv = _ := pgdirWalk_create hnone rfl (by decide)
  have hn : (pgsize / pgsize).toNat = 0 + 1 := by decide
  have hpd : pdx (uvptEntry 0xEF000) = pdx uvpt := by decide
  have hpt : ptx (uvptEntry 0xEF000) = pdx upages := by decide
  have hrun : (bootMapRegion 1 upages pgsize 0#32 (pteU ||| pteP)).run oneEnv = .ok ()
      ((oneEnv.newTable 1 upages 2).store 2 (ptx upages)
        (pteAddr 0#32 ||| (pteU ||| pteP) ||| pteP)) := by
    rw [bootMapRegion, hn, bootMapPages, run_bind_ok hwalk]
    rfl
  refine ⟨oneEnv_distinctTables, oneEnv_room, by unfold InRegion; decide, _, hrun, fun hnew => ?_⟩
  have hdir : ∀ i, (oneEnv.newTable 1 upages 2).mem 1 i =
      if i = pdx upages then page2pa 2 ||| pteP ||| pteW ||| pteU else oneEnv.mem 1 i :=
    newTable_dir (by decide) oneEnv upages
  have hold : oneEnv.mapping 1 (uvptEntry 0xEF000) = none := by
    rw [mapping, walk, hpd, hpt, oneEnv_framed, if_pos rfl, Option.map_some, Option.bind_some,
      hnone]
    rfl
  rw [hold, mapping, walk, hpd, hpt, store_mem_ne _ _ _ _ (by decide), hdir, if_neg (by decide),
    oneEnv_framed, if_pos rfl, Option.map_some, Option.bind_some, store_mem_ne _ _ _ _ (by decide),
    hdir, if_pos rfl] at hnew
  exact absurd hnew (by decide)

end Jos
