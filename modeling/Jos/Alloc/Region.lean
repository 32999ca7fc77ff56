import Jos.Boot
import Jos.Alloc.Insert

/-!
# `region_alloc`

`region_alloc` rounds the start of the region down and its length up, each for itself, and maps a
page of the free list at every page from the rounded start on.  What that comes to is said in two
steps: one page (`Inv.regionAllocPage_cases`), and the first `k` pages (`RegionAt`).

A region that does not start on a page boundary can need a page more than its length makes up, and
then its end is left out.  And where the environment has pages in the region already, each is
dropped in turn; one that nobody else maps goes on the free list, from where the next round takes
it.
-/

set_option autoImplicit false

namespace Jos

open Kernel Command

variable {res : Nat → Prop} {fl fl' rest fl₀ : List Nat} {s s' s₀ : Kernel} {e : EnvIndex}
variable {d k n pp : Nat} {va len perm w : Word} {i j : Index}

/-! ## Addresses -/

/-- The address of page `k` of the region. -/
def regionVa (va : Word) (k : Nat) : Word := roundDown va pgsize + BitVec.ofNat 32 (k * 4096)

/-- The number of pages that `region_alloc` maps. -/
def regionPages (len : Word) : Nat := (roundUp len pgsize / pgsize).toNat

/-- The flags of the pages it maps. -/
def regionPerm : Word := pteU ||| pteW ||| pteP

/-- The place of page `k` of the region. -/
def regionSlot (e : EnvIndex) (va : Word) (k : Nat) : Slot :=
  .page e (pdx (regionVa va k)) (ptx (regionVa va k))

theorem regionAlloc_eq (e : EnvIndex) (va len : Word) : regionAlloc e va len =
    (List.range (regionPages len)).forM fun k => regionAllocPage e (regionVa va k) := rfl

theorem regionVa_toNat (h : va.toNat / 4096 * 4096 + k * 4096 < 2 ^ 32) :
    (regionVa va k).toNat = va.toNat / 4096 * 4096 + k * 4096 := by
  rw [regionVa, BitVec.toNat_add, roundDown_toNat, BitVec.toNat_ofNat]
  omega

theorem regionPages_eq (h : len.toNat + 4096 ≤ 2 ^ 32) :
    regionPages len = (len.toNat + 4095) / 4096 := by
  have hp : pgsize.toNat = 4096 := rfl
  rw [regionPages, BitVec.toNat_udiv, roundUp_toNat, hp]
  omega

section

variable (hle : va.toNat + len.toNat ≤ utop.toNat)
include hle

theorem region_toNat (hk : k < regionPages len) :
    (regionVa va k).toNat = va.toNat / 4096 * 4096 + k * 4096 ∧
      va.toNat / 4096 * 4096 + k * 4096 < utop.toNat := by
  have hu := utop_toNat
  rw [regionPages_eq (by omega)] at hk
  exact ⟨regionVa_toNat (by omega), by omega⟩

theorem region_lt_utop (hk : k < regionPages len) : regionVa va k < utop := by
  obtain ⟨hva, hlt⟩ := region_toNat hle hk
  show (regionVa va k).toNat < utop.toNat
  rw [hva]
  exact hlt

theorem regionSlot_inj {k' : Nat} (hk : k < regionPages len) (hk' : k' < regionPages len)
    (heq : regionSlot e va k = regionSlot e va k') : k = k' := by
  injection heq with _ h1 h2
  have hp := pgnum_inj h1 h2
  rw [pgnum_eq, pgnum_eq, (region_toNat hle hk).1, (region_toNat hle hk').1] at hp
  omega

end

/-! ## One page -/

/-- The page is mapped, or there is no page for it or for its page table. -/
theorem Inv.regionAllocPage_cases (h : Inv res fl s) (hd : s.dir e = some d) (hva : va < utop) :
    (∃ x s', (regionAllocPage e va).run s = .error x s' ∧ fl.length < 1 + s.tablesFor e va) ∨
    ∃ pp rest fl' s', fl = pp :: rest ∧ (regionAllocPage e va).run s = .ok () s' ∧
      PagePut res rest (s.pop pp) e d va regionPerm pp fl' s' := by
  cases fl with
  | nil =>
    refine Or.inl ⟨.panic "region_alloc failed\n", s, ?_, by simp⟩
    rw [regionAllocPage, run_bind_ok (pageAlloc_none h.chain false)]
    rfl
  | cons pp rest =>
    have hfr := Inv.fresh_pop h
    have hpg : ((s.pop pp).envs e).envPgdir = some d := envPgdir_of_dir hd
    have hstart : (regionAllocPage e va).run s = EStateM.run (do
        if (← pageInsert d pp va regionPerm) ≠ 0#32 then
          throw (.panic "region_alloc failed\n") : KernelM Unit) (s.pop pp) := by
      rw [regionAllocPage, run_bind_ok (pageAlloc_raw h.chain.1)]
      simp only [EStateM.run_bind, EStateM.run_get, hpg, derefPgdir, EStateM.run_pure]
      rfl
    have hmap : Mappable res rest (s.pop pp) e (pdx va) (ptx va) pp :=
      ⟨hfr.not_free, hfr.not_res, fun k hk => absurd hk (hfr.unref k), Or.inl (by
        rw [counts, hfr.count]; decide)⟩
    rcases h.pop.pageInsert_put hd hva (show IsPerm regionPerm by decide) hmap with
      ⟨hrun, rfl, ht⟩ | ⟨s', fl', hrun, hput⟩
    · have hne : (-eNoMem) ≠ 0#32 := by decide
      refine Or.inl ⟨_, _, by rw [hstart, run_bind_ok hrun, if_pos hne]; rfl, ?_⟩
      have ht' : s.table e (pdx va) = none := ht
      rw [Kernel.tablesFor, if_pos ht']
      simp
    · refine Or.inr ⟨pp, rest, fl', s', rfl, ?_, hput⟩
      rw [hstart, run_bind_ok hrun, if_neg (by simp)]
      rfl

/-! ## The first pages of the region -/

/-- Some page is mapped among the first `k` pages of the region, and nowhere else. -/
def Kernel.Loses (s : Kernel) (e : EnvIndex) (va : Word) (k : Nat) : Prop :=
  ∃ q, (∃ j < k, s.target (regionSlot e va j) = some q) ∧
    ∀ key, s.target key = some q → ∃ j < k, key = regionSlot e va j

theorem not_loses_zero (s : Kernel) (e : EnvIndex) (va : Word) : ¬ s.Loses e va 0 := by
  rintro ⟨q, ⟨j, hj, -⟩, -⟩
  exact absurd hj (Nat.not_lt_zero j)

theorem Kernel.Loses.mono {k' : Nat} (h : s.Loses e va k) (hk : k ≤ k') : s.Loses e va k' := by
  obtain ⟨q, ⟨j, hj, hq⟩, hall⟩ := h
  refine ⟨q, ⟨j, Nat.lt_of_lt_of_le hj hk, hq⟩, fun key hkey => ?_⟩
  obtain ⟨j', hj', hkey'⟩ := hall key hkey
  exact ⟨j', Nat.lt_of_lt_of_le hj' hk, hkey'⟩

/-- The first `k` pages of the region, in order, have been mapped. -/
structure RegionAt (res : Nat → Prop) (fl₀ : List Nat) (s₀ : Kernel) (e : EnvIndex) (d : Nat)
    (va : Word) (k : Nat) (fl : List Nat) (s : Kernel) : Prop where
  inv : Inv res fl s
  dir : s.dir e = some d
  /-- What else is mapped has stayed. -/
  same : ∀ key : Slot, ¬ key.IsNode → (∀ j < k, key ≠ regionSlot e va j) →
    s.target key = s₀.target key
  mapped : ∀ j < k, ∃ p, p < 2 ^ 20 ∧
    s.entry e (pdx (regionVa va j)) (ptx (regionVa va j)) = page2pa p ||| pteP ||| regionPerm
  distinct : ∀ i < k, ∀ j < k,
    s.target (regionSlot e va i) = s.target (regionSlot e va j) → i = j
  /-- As long as nothing is lost, all these pages were free, -/
  kept : ¬ s₀.Loses e va (k - 1) → ∀ j < k, ∃ p ∈ fl₀, s.target (regionSlot e va j) = some p
  list : ¬ s₀.Loses e va k → fl <:+ fl₀
  /-- and once something is, one of them was not, or the next one will not have been. -/
  lost : s₀.Loses e va (k - 1) →
    ∃ j < k, ∃ p, p ∉ fl₀ ∧ s.target (regionSlot e va j) = some p
  head : s₀.Loses e va k → (∃ j < k, ∃ p, p ∉ fl₀ ∧ s.target (regionSlot e va j) = some p) ∨
    ∃ p, p ∉ fl₀ ∧ fl.head? = some p

theorem RegionAt.start (h : Inv res fl s) (hd : s.dir e = some d) (va : Word) :
    RegionAt res fl s e d va 0 fl s where
  inv := h
  dir := hd
  same _ _ _ := rfl
  mapped j hj := absurd hj (Nat.not_lt_zero j)
  distinct i hi := absurd hi (Nat.not_lt_zero i)
  kept _ j hj := absurd hj (Nat.not_lt_zero j)
  list _ := List.suffix_rfl
  lost h := absurd h (not_loses_zero s e va)
  head h := absurd h (not_loses_zero s e va)

namespace RegionAt

variable (hle : va.toNat + len.toNat ≤ utop.toNat) (hk : k < regionPages len)
  (h : RegionAt res fl₀ s₀ e d va k fl s)
include hle hk h

/-- The next page of the region is as it was. -/
theorem next : s.target (regionSlot e va k) = s₀.target (regionSlot e va k) :=
  h.same _ id fun _ hj heq => absurd (regionSlot_inj hle hk (Nat.lt_trans hj hk) heq)
    (Nat.ne_of_gt hj)

variable (h₀ : Inv res fl₀ s₀)
include h₀

/-- A page that is mapped elsewhere too is not freed. -/
theorem counts_next (hno : ¬ s₀.Loses e va (k + 1)) {q : Nat}
    (hq : s.target (regionSlot e va k) = some q) : s.counts q ≠ 1 := by
  intro h1
  have hq₀ := (h.next hle hk).symm.trans hq
  have hrefs : s.counts q = Ledger.refs s.target q := h.inv.ok.ref_eq q (h.inv.target_res hq)
  refine hno ⟨q, ⟨k, Nat.lt_succ_self k, hq₀⟩, fun key hkey => ?_⟩
  by_contra hout
  simp only [not_exists, not_and] at hout
  have hnode : ¬ key.IsNode := fun hn =>
    hout k (Nat.lt_succ_self k) (h₀.ok.node_unique key q hn hkey (regionSlot e va k) hq₀).symm
  have hkey' : s.target key = some q :=
    (h.same key hnode fun j hj => hout j (Nat.lt_succ_of_lt hj)).trans hkey
  exact hout k (Nat.lt_succ_self k) (Ledger.eq_of_refs_eq_one (hrefs.symm.trans h1) hq hkey')

/-- A page that was mapped nowhere else is freed. -/
theorem counts_last (hno : ¬ s₀.Loses e va k) (hlose : s₀.Loses e va (k + 1)) :
    ∃ q, s.target (regionSlot e va k) = some q ∧ q ∉ fl₀ ∧ s.counts q = 1 := by
  obtain ⟨q, ⟨j, hj, hjq⟩, hall⟩ := hlose
  have hfree : q ∉ fl₀ := fun hm => h₀.free_ne hm hjq rfl
  have hq₀ : s₀.target (regionSlot e va k) = some q := by
    by_contra hne
    have hlt : ∀ j' < k + 1, s₀.target (regionSlot e va j') = some q → j' < k := by
      intro j' hj' hq'
      rcases Nat.lt_or_eq_of_le (Nat.le_of_lt_succ hj') with hlt | rfl
      · exact hlt
      · exact absurd hq' hne
    refine hno ⟨q, ⟨j, hlt j hj hjq, hjq⟩, fun key hkey => ?_⟩
    obtain ⟨j', hj', rfl⟩ := hall key hkey
    exact ⟨j', hlt j' hj' hkey, rfl⟩
  have hq := (h.next hle hk).trans hq₀
  refine ⟨q, hq, hfree, ?_⟩
  have hrefs : s.counts q = Ledger.refs s.target q := h.inv.ok.ref_eq q (h.inv.target_res hq)
  rw [hrefs]
  refine Ledger.refs_eq_one hq fun key hkey => ?_
  by_cases hnode : key.IsNode
  · exact (h.inv.ok.node_unique key q hnode hkey (regionSlot e va k) hq).symm
  by_cases hin : ∃ j < k, key = regionSlot e va j
  · -- the pages mapped so far were free
    obtain ⟨j', hj', rfl⟩ := hin
    obtain ⟨p, hp, hp'⟩ := h.kept (fun hl => hno (hl.mono (Nat.sub_le k 1))) j' hj'
    obtain rfl : p = q := Option.some_inj.1 (hp'.symm.trans hkey)
    exact absurd hp hfree
  · simp only [not_exists, not_and] at hin
    obtain ⟨j', hj', rfl⟩ := hall key ((h.same key hnode hin).symm.trans hkey)
    rcases Nat.lt_or_eq_of_le (Nat.le_of_lt_succ hj') with hlt | rfl
    · exact absurd rfl (hin j' hlt)
    · rfl

/-- The free list after the page has been mapped, as long as nothing is lost. -/
theorem list_next (hno : ¬ s₀.Loses e va (k + 1)) (hfl : fl = pp :: rest)
    (hput : PagePut res rest (s.pop pp) e d (regionVa va k) regionPerm pp fl' s') :
    fl' <:+ rest := by
  cases ht : (s.pop pp).table e (pdx (regionVa va k)) with
  | none =>
    obtain ⟨t, rfl, -⟩ := hput.missing ht
    exact List.suffix_cons t fl'
  | some t =>
    rw [(hput.present (by simp [ht])).2]
    have htgt : s.target (regionSlot e va k) =
      (s.pop pp).leaf e (pdx (regionVa va k)) (ptx (regionVa va k)) := rfl
    cases hq : (s.pop pp).leaf e (pdx (regionVa va k)) (ptx (regionVa va k)) with
    | none => exact List.suffix_rfl
    | some q =>
      have hne : (s.pop pp).counts q ≠ 1 := h.counts_next hle hk h₀ hno (htgt.trans hq)
      rw [released, if_neg fun hand => hne hand.2]

/-- And when something is. -/
theorem head_next (hno : ¬ s₀.Loses e va k) (hlose : s₀.Loses e va (k + 1)) (hpp : pp ∈ fl₀)
    (hput : PagePut res rest (s.pop pp) e d (regionVa va k) regionPerm pp fl' s') :
    ∃ q, q ∉ fl₀ ∧ fl'.head? = some q := by
  obtain ⟨q, hq, hfree, hone⟩ := h.counts_last hle hk h₀ hno hlose
  have hleaf : (s.pop pp).leaf e (pdx (regionVa va k)) (ptx (regionVa va k)) = some q := hq
  have htab : (s.pop pp).table e (pdx (regionVa va k)) ≠ none := fun hn => by
    rw [leaf_eq_none hn] at hleaf
    exact absurd hleaf (by simp)
  have hne : q ≠ pp := fun hqp => hfree (hqp ▸ hpp)
  have hone' : (s.pop pp).counts q = 1 := hone
  refine ⟨q, hfree, ?_⟩
  rw [(hput.present htab).2, hleaf, released, if_pos ⟨hne, hone'⟩, List.head?_cons]

/-- **One more page of the region.** -/
theorem step (hfl : fl = pp :: rest)
    (hput : PagePut res rest (s.pop pp) e d (regionVa va k) regionPerm pp fl' s') :
    RegionAt res fl₀ s₀ e d va (k + 1) fl' s' := by
  have hinv : Inv res (pp :: rest) s := hfl ▸ h.inv
  have hmem : pp ∈ fl := hfl ▸ List.mem_cons_self
  have hlt := Inv.lt_pow s (h.inv.free_lt hmem)
  have htgt : ∀ key : Slot, ¬ key.IsNode →
      s'.target key = if key = regionSlot e va k then some pp else s.target key := fun key hn =>
    hput.target_page hlt (by decide) hn
  have hself : s'.target (regionSlot e va k) = some pp := (htgt _ id).trans (if_pos rfl)
  have hold : ∀ j < k, s'.target (regionSlot e va j) = s.target (regionSlot e va j) := by
    intro j hj
    refine (htgt _ id).trans (if_neg fun heq => ?_)
    exact absurd (regionSlot_inj hle (Nat.lt_trans hj hk) hk heq) (Nat.ne_of_lt hj)
  have hnew : ∀ j < k, s.target (regionSlot e va j) ≠ some pp := fun j _ =>
    h.inv.ok.free_unref pp hmem (regionSlot e va j)
  have hlast : ∀ j < k + 1, j < k ∨ j = k := fun j hj => Nat.lt_or_eq_of_le (Nat.le_of_lt_succ hj)
  have hpp : ¬ s₀.Loses e va k → pp ∈ fl₀ := fun hno => (h.list hno).subset hmem
  have hlost : s₀.Loses e va k →
      ∃ j < k + 1, ∃ p, p ∉ fl₀ ∧ s'.target (regionSlot e va j) = some p := by
    intro hlose
    rcases h.head hlose with ⟨j, hj, p, hp, hpj⟩ | ⟨p, hp, hhead⟩
    · exact ⟨j, Nat.lt_succ_of_lt hj, p, hp, (hold j hj).trans hpj⟩
    · rw [hfl, List.head?_cons] at hhead
      obtain rfl : pp = p := Option.some_inj.1 hhead
      exact ⟨k, Nat.lt_succ_self k, pp, hp, hself⟩
  refine ⟨hput.inv, hput.dir h.dir, fun key hn hout => ?_, fun j hj => ?_, fun i hi j hj heq => ?_,
    fun hno j hj => ?_, fun hno => ?_, hlost, fun hlose => ?_⟩
  · rw [htgt key hn, if_neg (hout k (Nat.lt_succ_self k))]
    exact h.same key hn fun j hj => hout j (Nat.lt_succ_of_lt hj)
  · have hentry := congrFun (congrFun (congrFun hput.inserted.edited.entry e)
      (pdx (regionVa va j))) (ptx (regionVa va j))
    rcases hlast j hj with hj | rfl
    · obtain ⟨p, hp, hpj⟩ := h.mapped j hj
      refine ⟨p, hp, (hentry.trans (if_neg ?_)).trans hpj⟩
      rintro ⟨-, h1, h2⟩
      have heq : regionSlot e va j = regionSlot e va k := by rw [regionSlot, h1, h2, regionSlot]
      exact absurd (regionSlot_inj hle (Nat.lt_trans hj hk) hk heq) (Nat.ne_of_lt hj)
    · exact ⟨pp, hlt, hentry.trans (setEntry_self _ _ _ _ _)⟩
  · rcases hlast i hi with hi | rfl
    · rcases hlast j hj with hj | rfl
      · rw [hold i hi, hold j hj] at heq
        exact h.distinct i hi j hj heq
      · rw [hold i hi, hself] at heq
        exact absurd heq (hnew i hi)
    · rcases hlast j hj with hj | rfl
      · rw [hold j hj, hself] at heq
        exact absurd heq.symm (hnew j hj)
      · rfl
  · rcases hlast j hj with hj | rfl
    · obtain ⟨p, hp, hpj⟩ := h.kept (fun hl => hno (hl.mono (Nat.sub_le k 1))) j hj
      exact ⟨p, hp, (hold j hj).trans hpj⟩
    · exact ⟨pp, hpp hno, hself⟩
  · have hno' : ¬ s₀.Loses e va k := fun hl => hno (hl.mono (Nat.le_succ k))
    have hrest : rest <:+ fl := hfl ▸ List.suffix_cons pp rest
    exact ((h.list_next hle hk h₀ hno hfl hput).trans hrest).trans (h.list hno')
  · by_cases hlose' : s₀.Loses e va k
    · exact Or.inl (hlost hlose')
    · exact Or.inr (h.head_next hle hk h₀ hlose' hlose (hpp hlose') hput)

end RegionAt

/-! ## Enough pages -/

/-- The page tables that mapping pages at the addresses `L` has to create. -/
def Kernel.tablesNeeded (s : Kernel) (e : EnvIndex) (L : List Word) : Nat :=
  (Finset.univ.filter fun i => s.table e i = none ∧ ∃ va ∈ L, pdx va = i).card

/-- There is a free page for each of the addresses, and for each page table that is missing. -/
def Room (e : EnvIndex) (L : List Word) (fl : List Nat) (s : Kernel) : Prop :=
  L.length + s.tablesNeeded e L ≤ fl.length

/-- Twice as many pages as addresses are enough. -/
theorem Room.of_le {L : List Word} (h : 2 * L.length ≤ fl.length) : Room e L fl s := by
  have himage : (Finset.univ.filter fun i => s.table e i = none ∧ ∃ va ∈ L, pdx va = i) ⊆
      (L.map pdx).toFinset := by
    intro i hi
    obtain ⟨-, -, va, hva, rfl⟩ := Finset.mem_filter.1 hi
    exact List.mem_toFinset.2 (List.mem_map_of_mem hva)
  have hcard := (Finset.card_le_card himage).trans (List.toFinset_card_le _)
  rw [List.length_map] at hcard
  rw [Room, Kernel.tablesNeeded]
  omega

theorem tablesFor_le_needed (s : Kernel) (e : EnvIndex) (va : Word) (L : List Word) :
    s.tablesFor e va ≤ s.tablesNeeded e (va :: L) := by
  rw [Kernel.tablesFor]
  split
  · rename_i hnone
    refine Finset.card_pos.2 ⟨pdx va, ?_⟩
    rw [Finset.mem_filter]
    exact ⟨Finset.mem_univ _, hnone, va, List.mem_cons_self, rfl⟩
  · exact Nat.zero_le _

/-- A page table that has been created is not needed any more. -/
theorem PagePut.tablesNeeded (hput : PagePut res fl s e d va perm pp fl' s') (h : Inv res fl s)
    (hd : s.dir e = some d) (hva : va < utop) (L : List Word) :
    s'.tablesNeeded e L + s.tablesFor e va ≤ s.tablesNeeded e (va :: L) := by
  have hsub : ∀ i, (s'.table e i = none ∧ ∃ va' ∈ L, pdx va' = i) →
      s.table e i = none ∧ (∃ va' ∈ va :: L, pdx va' = i) ∧
        (i = pdx va → s.tablesFor e va = 0) := by
    rintro i ⟨hnone, va', hmem, hi⟩
    cases ht : s.table e (pdx va) with
    | some t =>
      rw [hput.table hd fun _ => by simp [ht]] at hnone
      exact ⟨hnone, ⟨va', List.mem_cons_of_mem _ hmem, hi⟩, fun _ => by simp [Kernel.tablesFor, ht]⟩
    | none =>
      have hne : i ≠ pdx va := by
        rintro rfl
        obtain ⟨t, -, ht'⟩ := hput.table_new hd h hva ht
        exact absurd (hnone.symm.trans ht') (by simp)
      rw [hput.table hd fun hi => absurd hi hne] at hnone
      exact ⟨hnone, ⟨va', List.mem_cons_of_mem _ hmem, hi⟩, fun hi => absurd hi hne⟩
  rw [Kernel.tablesNeeded, Kernel.tablesNeeded]
  by_cases h0 : s.tablesFor e va = 0
  · rw [h0, Nat.add_zero]
    refine Finset.card_le_card fun i hi => ?_
    rw [Finset.mem_filter] at hi ⊢
    obtain ⟨hnone, hmem, -⟩ := hsub i hi.2
    exact ⟨Finset.mem_univ _, hnone, hmem⟩
  · have hone : s.tablesFor e va = 1 := by
      have := tablesFor_le s e va
      omega
    rw [hone]
    refine Finset.card_lt_card (Finset.ssubset_iff_of_subset (fun i hi => ?_) |>.2 ⟨pdx va, ?_, ?_⟩)
    · rw [Finset.mem_filter] at hi ⊢
      obtain ⟨hnone, hmem, -⟩ := hsub i hi.2
      exact ⟨Finset.mem_univ _, hnone, hmem⟩
    · rw [Finset.mem_filter]
      refine ⟨Finset.mem_univ _, ?_, va, List.mem_cons_self, rfl⟩
      by_contra hsome
      exact h0 (if_neg hsome)
    · intro hi
      rw [Finset.mem_filter] at hi
      exact h0 ((hsub _ hi.2).2.2 rfl)

theorem Room.step {L : List Word} (hroom : Room e (va :: L) (pp :: rest) s)
    (h : Inv res rest (s.pop pp)) (hd : s.dir e = some d) (hva : va < utop)
    (hput : PagePut res rest (s.pop pp) e d va perm pp fl' s') : Room e L fl' s' := by
  have hneed := hput.tablesNeeded h hd hva L
  have hlen := hput.length
  have hroom' : (va :: L).length + (s.pop pp).tablesNeeded e (va :: L) ≤ (pp :: rest).length :=
    hroom
  rw [List.length_cons, List.length_cons] at hroom'
  show L.length + s'.tablesNeeded e L ≤ fl'.length
  omega

/-! ## The loop -/

/-- The addresses of the pages of the region. -/
def regionList (va len : Word) : List Word := (List.range (regionPages len)).map (regionVa va)

/-- **`region_alloc`** maps the pages of the region one after the other, unless it panics; with
enough pages it does not, and leaves enough for the addresses `L`. -/
theorem Inv.regionAlloc_at {P : Prop} (h₀ : Inv res fl₀ s₀) (hd : s₀.dir e = some d)
    (hle : va.toNat + len.toNat ≤ utop.toNat) (L : List Word)
    (hroom : P → Room e (regionList va len ++ L) fl₀ s₀) :
    Triple (fun s => s = s₀) (regionAlloc e va len)
      (fun _ s => ∃ fl, RegionAt res fl₀ s₀ e d va (regionPages len) fl s ∧
        (P → Room e L fl s))
      fun _ _ => ¬ P := by
  have hloop := Triple.forM_prefix (E := fun (_ : Exit) (_ : Kernel) => ¬ P)
    (I := fun pre s => ∃ fl, RegionAt res fl₀ s₀ e d va pre.length fl s ∧
      (P → ∀ post, List.range (regionPages len) = pre ++ post →
        Room e (post.map (regionVa va) ++ L) fl s))
    (f := fun k => regionAllocPage e (regionVa va k)) (List.range (regionPages len))
    fun pre k post hl => by
      have hlen := congrArg List.length hl
      have hk : k = pre.length := by
        have hget := congrArg (fun l => l[pre.length]?) hl
        simp only [List.length_range, List.length_append, List.length_cons] at hlen
        simp only [List.getElem?_append_right (Nat.le_refl _), Nat.sub_self,
          List.getElem?_cons_zero]
          at hget
        rw [List.getElem?_range (by omega)] at hget
        exact (Option.some_inj.1 hget).symm
      subst hk
      simp only [List.length_range, List.length_append, List.length_cons] at hlen
      have hlt : pre.length < regionPages len := by omega
      have hva := region_lt_utop hle hlt
      rintro s ⟨fl, hreg, hneedP⟩
      rcases hreg.inv.regionAllocPage_cases hreg.dir hva with
        ⟨x, s', hrun, hfull⟩ | ⟨pp, rest, fl', s', rfl, hrun, hput⟩
      · rw [hrun]
        intro hen
        have hneed := hneedP hen _ hl
        rw [List.map_cons, List.cons_append] at hneed
        have := tablesFor_le_needed s e (regionVa va pre.length) (post.map (regionVa va) ++ L)
        rw [Room, List.length_cons] at hneed
        omega
      · rw [hrun]
        refine ⟨fl', ?_, fun hen post' hpost => ?_⟩
        · rw [List.length_append]
          exact hreg.step hle hlt h₀ rfl hput
        · rw [hl, List.append_assoc, List.append_cancel_left_eq] at hpost
          obtain rfl : post = post' := (List.cons.inj hpost).2
          have hneed := hneedP hen _ hl
          rw [List.map_cons, List.cons_append] at hneed
          exact hneed.step hreg.inv.pop hreg.dir hva hput
  rw [regionAlloc_eq]
  refine hloop.conseq ?_ ?_ fun _ _ h => h
  · rintro s rfl
    refine ⟨fl₀, .start h₀ hd va, fun hen post hpost => ?_⟩
    rw [List.nil_append] at hpost
    rw [← hpost]
    exact hroom hen
  · rintro - s ⟨fl, hreg, hneedP⟩
    rw [List.length_range] at hreg
    refine ⟨fl, hreg, fun hen => ?_⟩
    exact hneedP hen [] (List.append_nil _).symm

/-! ## What is covered -/

/-- Every byte of the region is mapped for the user to write, each page at a page of its own that is
in `fl`. -/
structure Backed (fl : List Nat) (d : Nat) (va len : Word) (s : Kernel) : Prop where
  mapped : ∀ a, va.toNat ≤ a → a < va.toNat + len.toNat →
    ∃ p ∈ fl, s.mapping d (BitVec.ofNat 32 a) = some (p, pteU ||| pteW ||| pteP)
  distinct : ∀ a b p f g, va.toNat ≤ a → a < va.toNat + len.toNat →
    va.toNat ≤ b → b < va.toNat + len.toNat →
    s.mapping d (BitVec.ofNat 32 a) = some (p, f) →
    s.mapping d (BitVec.ofNat 32 b) = some (p, g) → a / 4096 = b / 4096

section

variable (hle : va.toNat + len.toNat ≤ utop.toNat)
include hle

theorem byte_lt_utop {a : Nat} (hhi : a < va.toNat + len.toNat) : BitVec.ofNat 32 a < utop := by
  have hu := utop_toNat
  show (BitVec.ofNat 32 a).toNat < utop.toNat
  rw [BitVec.toNat_ofNat]
  omega

/-- The place of a byte of page `k` of the region. -/
theorem byte_slot {a : Nat} (hhi : a < va.toNat + len.toNat) (hk : k < regionPages len)
    (ha : a / 4096 = va.toNat / 4096 + k) (e : EnvIndex) :
    Slot.page e (pdx (BitVec.ofNat 32 a)) (ptx (BitVec.ofNat 32 a)) = regionSlot e va k := by
  have hu := utop_toNat
  have hp : pgnum (BitVec.ofNat 32 a) = pgnum (regionVa va k) := by
    rw [pgnum_eq, pgnum_eq, (region_toNat hle hk).1, BitVec.toNat_ofNat]
    omega
  obtain ⟨h1, h2⟩ := pdx_ptx_of_pgnum hp
  rw [regionSlot, h1, h2]

/-- Every page that `region_alloc` maps has a byte of the region. -/
theorem exists_byte (hk : k < regionPages len) : ∃ a, va.toNat ≤ a ∧ a < va.toNat + len.toNat ∧
    a / 4096 = va.toNat / 4096 + k := by
  have hu := utop_toNat
  rw [regionPages_eq (by omega)] at hk
  cases k with
  | zero => exact ⟨va.toNat, Nat.le_refl _, by omega, rfl⟩
  | succ k => exact ⟨(va.toNat / 4096 + (k + 1)) * 4096, by omega, by omega, by omega⟩

/-- The length makes up for the offset of the start. -/
def Fits (va len : Word) : Prop :=
  len = 0#32 ∨ va.toNat % 4096 + len.toNat ≤ (roundUp len pgsize).toNat

end

theorem target_of_mapping {f : Word} (hd : s.dir e = some d) (hva : va < utop)
    (h : s.mapping d va = some (pp, f)) : s.target (.page e (pdx va) (ptx va)) = some pp := by
  rw [mapping_user hd ((lt_utop_iff va).1 hva)] at h
  obtain ⟨q, hq, heq⟩ := Option.map_eq_some_iff.1 h
  obtain rfl : q = pp := congrArg Prod.fst heq
  exact (leaf_eq_framed _ _ _ _).trans hq

/-- A byte of a page that has been mapped. -/
theorem RegionAt.byte (h : RegionAt res fl₀ s₀ e d va n fl s)
    (hle : va.toNat + len.toNat ≤ utop.toNat) {a : Nat} (hhi : a < va.toNat + len.toNat)
    (hk : k < n) (hn : n ≤ regionPages len) (ha : a / 4096 = va.toNat / 4096 + k) :
    ∃ p, s.target (regionSlot e va k) = some p ∧
      s.mapping d (BitVec.ofNat 32 a) = some (p, pteU ||| pteW ||| pteP) := by
  obtain ⟨p, hp, hentry⟩ := h.mapped k hk
  have hlt := byte_lt_utop hle hhi
  have hslot := byte_slot hle hhi (Nat.lt_of_lt_of_le hk hn) ha e
  injection hslot with _ h1 h2
  have hmap : s.mapping d (BitVec.ofNat 32 a) = some (p, pteU ||| pteW ||| pteP) := by
    rw [mapping_user h.dir ((lt_utop_iff _).1 hlt), h1, h2, hentry,
      framed_entry hp (by decide), Option.map_some, entry_flags (by decide)]
    rfl
  refine ⟨p, ?_, hmap⟩
  rw [← byte_slot hle hhi (Nat.lt_of_lt_of_le hk hn) ha e]
  exact target_of_mapping h.dir hlt hmap

section

variable (hle : va.toNat + len.toNat ≤ utop.toNat)
  (h : RegionAt res fl s e d va (regionPages len) fl' s')
include hle h

/-- The region is covered, and nothing was lost before the last page. -/
theorem RegionAt.backed (hfits : Fits va len) (hno : ¬ s.Loses e va (regionPages len - 1)) :
    Backed fl d va len s' := by
  have hu := utop_toNat
  -- the page of a byte of the region
  have hpage : ∀ a, va.toNat ≤ a → a < va.toNat + len.toNat →
      a / 4096 - va.toNat / 4096 < regionPages len ∧
        a / 4096 = va.toNat / 4096 + (a / 4096 - va.toNat / 4096) := by
    intro a hlo hhi
    rcases hfits with rfl | hfits
    · have h0 : (0#32).toNat = 0 := rfl
      omega
    · rw [roundUp_toNat] at hfits
      rw [regionPages_eq (by omega)]
      omega
  refine ⟨fun a hlo hhi => ?_, fun a b p f g halo hahi hblo hbhi hma hmb => ?_⟩
  · obtain ⟨hk, ha⟩ := hpage a hlo hhi
    obtain ⟨p, htgt, hmap⟩ := h.byte hle hhi hk (Nat.le_refl _) ha
    obtain ⟨q, hq, hq'⟩ := h.kept hno _ hk
    obtain rfl : p = q := Option.some_inj.1 (htgt.symm.trans hq')
    exact ⟨p, hq, hmap⟩
  · obtain ⟨hka, ha⟩ := hpage a halo hahi
    obtain ⟨hkb, hb⟩ := hpage b hblo hbhi
    have hta := target_of_mapping h.dir (byte_lt_utop hle hahi) hma
    have htb := target_of_mapping h.dir (byte_lt_utop hle hbhi) hmb
    rw [byte_slot hle hahi hka ha] at hta
    rw [byte_slot hle hbhi hkb hb] at htb
    have := h.distinct _ hka _ hkb (hta.trans htb.symm)
    omega

/-- And the other way round. -/
theorem RegionAt.fits_of_backed (h₀ : Inv res fl s) (hb : Backed fl d va len s') :
    Fits va len ∧ ¬ s.Loses e va (regionPages len - 1) := by
  have hu := utop_toNat
  constructor
  · by_contra hno
    simp only [Fits, not_or, Nat.not_le] at hno
    obtain ⟨hlen, hno⟩ := hno
    have hpos : len.toNat ≠ 0 := fun h => hlen (BitVec.eq_of_toNat_eq h)
    -- the last byte is in a page that was not mapped
    obtain ⟨p, hp, hmap⟩ := hb.mapped (va.toNat + len.toNat - 1) (by omega) (by omega)
    have hlast := byte_lt_utop hle (a := va.toNat + len.toNat - 1) (by omega)
    have htgt := target_of_mapping h.dir hlast hmap
    rw [h.same _ id fun j hj heq => ?_] at htgt
    · exact h₀.free_ne hp htgt rfl
    · injection heq with _ h1 h2
      have hpg := pgnum_inj h1 h2
      rw [pgnum_eq, pgnum_eq, (region_toNat hle hj).1, BitVec.toNat_ofNat] at hpg
      rw [regionPages_eq (by omega)] at hj
      rw [roundUp_toNat] at hno
      omega
  · intro hlose
    obtain ⟨j, hj, p, hp, htgt⟩ := h.lost hlose
    obtain ⟨a, hlo, hhi, ha⟩ := exists_byte hle hj
    obtain ⟨q, hq, hmap⟩ := hb.mapped a hlo hhi
    have htgt' := target_of_mapping h.dir (byte_lt_utop hle hhi) hmap
    rw [byte_slot hle hhi hj ha, htgt] at htgt'
    exact hp (Option.some_inj.1 htgt' ▸ hq)

end

/-- **What `region_alloc` covers.**  With enough pages it returns.  Then every byte of the region is
mapped, at pages that were free and that are different, if and only if the region is empty or its
length, rounded up, makes up for the offset of its start, and every page that is mapped in the
region up to its last page is mapped somewhere else too. -/
theorem Inv.regionAlloc_backed_iff (h₀ : Inv res fl s) (hd : s.dir e = some d)
    (hle : va.toNat + len.toNat ≤ utop.toNat) :
    (Room e (regionList va len) fl s → ∃ s', (regionAlloc e va len).run s = .ok () s') ∧
    ∀ s', (regionAlloc e va len).run s = .ok () s' →
      (Backed fl d va len s' ↔ Fits va len ∧ ¬ s.Loses e va (regionPages len - 1)) := by
  constructor
  · intro hroom
    have hrun := h₀.regionAlloc_at (P := True) hd hle [] (fun _ => by rwa [List.append_nil]) s rfl
    cases hr : (regionAlloc e va len).run s with
    | ok u s' => exact ⟨s', rfl⟩
    | error x s' =>
      rw [hr] at hrun
      exact absurd trivial hrun
  · intro s' hrun
    obtain ⟨fl', h, -⟩ := (h₀.regionAlloc_at (P := False) hd hle [] False.elim).of_ok rfl hrun
    exact ⟨h.fits_of_backed hle h₀, fun hf => h.backed hle hf.1 hf.2⟩

theorem Inv.regionAlloc_backed_iff_oneEnv :
    ∃ s', (regionAlloc 0 utext pgsize).run oneEnv = .ok () s' ∧
      (Backed [2, 3] 1 utext pgsize s' ↔
        Fits utext pgsize ∧ ¬ oneEnv.Loses 0 utext (regionPages pgsize - 1)) := by
  have hd : oneEnv.dir 0 = some 1 := by decide
  obtain ⟨hret, hiff⟩ := oneEnv_inv.regionAlloc_backed_iff hd
    (show utext.toNat + pgsize.toNat ≤ utop.toNat by decide)
  obtain ⟨s', hrun⟩ := hret (.of_le (by decide))
  exact ⟨s', hrun, hiff s' hrun⟩

/-- **A page that starts at an odd address.**  User programs are linked at `0x800020`; `PGSIZE`
bytes from there are in two pages, and one is mapped. -/
theorem regionAlloc_short : ∃ s', (regionAlloc 0 0x800020#32 pgsize).run oneEnv = .ok () s' ∧
    ¬ Backed [2, 3] 1 0x800020#32 pgsize s' := by
  have hd : oneEnv.dir 0 = some 1 := by decide
  obtain ⟨hret, hiff⟩ := oneEnv_inv.regionAlloc_backed_iff hd
    (show (0x800020#32).toNat + pgsize.toNat ≤ utop.toNat by decide)
  obtain ⟨s', hrun⟩ := hret (.of_le (by decide))
  refine ⟨s', hrun, fun hb => ?_⟩
  rcases ((hiff s' hrun).1 hb).1 with h0 | hfits
  · exact absurd h0 (by decide)
  · exact absurd hfits (by decide)

end Jos
