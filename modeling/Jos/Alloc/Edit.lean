import Jos.Alloc.Pmap
import Jos.Pmap.Effect

/-!
# `page_insert` and `page_remove` as edits of one entry

Under the allocator invariant a call of `page_insert` or `page_remove` on the directory of an
environment does one thing: it replaces one entry of that environment's address space.  `Edited`
says so, together with all that stays: other environments, the contents of every page that is
neither free nor a table, everything that is not memory.

That much holds for any page number and any flags.  The accounts stay in order when the page handed
to `page_insert` is one that may be mapped: `Mappable`.
-/

set_option autoImplicit false

namespace Jos

open Kernel

variable {res : Nat → Prop} {fl : List Nat} {s s' s'' : Kernel} {e : EnvIndex} {i j : Index}
variable {d t pp q : Nat} {va perm w : Word}

/-- The pages whose contents an edit does not touch: neither free nor a directory or page table. -/
def Kernel.IsData (s : Kernel) (fl : List Nat) (p : Nat) : Prop :=
  p ∉ fl ∧ ∀ k : Slot, k.IsNode → s.target k ≠ some p

/-- Going from `s` to `s'` replaced the entry `i`, `j` of environment `e` by `w`. -/
structure Edited (res : Nat → Prop) (fl : List Nat) (s : Kernel) (e : EnvIndex) (i j : Index)
    (w : Word) (s' : Kernel) : Prop where
  frame : Frame res (· = e) s s'
  entry : s'.entry = setEntry s.entry e i j w
  data : ∀ p, s.IsData fl p → s'.mem p = s.mem p
  memOnly : MemOnly s s'

/-- A page that `page_insert` may map at the entry `i`, `j` of `e`: accounted for, no table, and
with room in its count, unless the entry maps it already. -/
structure Mappable (res : Nat → Prop) (fl : List Nat) (s : Kernel) (e : EnvIndex) (i j : Index)
    (pp : Nat) : Prop where
  not_free : pp ∉ fl
  not_res : ¬ res pp
  not_node : ∀ k, s.target k = some pp → ¬ k.IsNode
  room : s.counts pp < 65535 ∨ s.leaf e i j = some pp

/-- A page that has been taken off the free list can be mapped. -/
theorem Inv.Fresh.mappable (hf : Inv.Fresh res fl s pp) (e : EnvIndex) (i j : Index) :
    Mappable res fl s e i j pp :=
  ⟨hf.not_free, hf.not_res, fun k hk => absurd hk (hf.unref k), Or.inl (by
    rw [counts, hf.count]
    decide)⟩

/-- A mapped page may be mapped again. -/
theorem Inv.mappable (h : Inv res fl s) {src dst : EnvIndex} {i j i' j' : Index} {p : Nat}
    (hp : s.leaf src i j = some p)
    (hroom : (s.pages p).ppRef.toNat < 65535 ∨ s.leaf dst i' j' = some p) :
    Mappable res fl s dst i' j' p where
  not_free hm := h.free_ne (k := .page src i j) hm hp rfl
  not_res := h.target_res (k := .page src i j) hp
  not_node k hk hn := by
    have := h.ok.node_unique k p hn hk (.page src i j) hp
    rw [← this] at hn
    exact hn
  room := hroom

/-- The counts once page `pp` has taken the place of what an entry held. -/
def recount (c : Nat → Nat) (old : Option Nat) (pp : Nat) : Nat → Nat := fun p =>
  c p + (if p = pp then 1 else 0) - if old = some p then 1 else 0

/-- The free list then: the page that was replaced is on it if that was its last reference. -/
def released (c : Nat → Nat) (old : Option Nat) (pp : Nat) (fl : List Nat) : List Nat :=
  match old with
  | some q => if q ≠ pp ∧ c q = 1 then q :: fl else fl
  | none => fl

theorem setEntry_setEntry (f : EnvIndex → Index → Index → Word) (e : EnvIndex) (i j : Index)
    (w w' : Word) : setEntry (setEntry f e i j w) e i j w' = setEntry f e i j w' := by
  funext e' i' j'
  simp only [setEntry]
  split <;> rfl

theorem entry_of_mem (hm : s'.mem = s.mem) (he : s'.envs = s.envs) : s'.entry = s.entry := by
  funext e i j
  simp only [Kernel.entry, table_of_mem hm he, hm]

/-- Overwriting a page nothing refers to changes no entry. -/
theorem entry_fill {p : Nat} (hun : ∀ k, s.target k ≠ some p) (pg : Page) :
    (s.fill p pg).entry = s.entry := by
  have htab : ∀ e i, (s.fill p pg).table e i = s.table e i := by
    intro e i
    by_cases hi : i.val < userPdes
    · cases hd : s.dir e with
      | none => rw [table_eq_none hd, table_eq_none (show (s.fill p pg).dir e = none from hd)]
      | some d =>
        have hne : d ≠ p := fun hdp => hun (.dir e) (hdp ▸ hd)
        rw [table_of_dir hd hi, table_of_dir (show (s.fill p pg).dir e = some d from hd) hi,
          fill_mem_ne _ _ _ hne]
    · rw [Kernel.table, Kernel.table, if_neg hi, if_neg hi]
  funext e i j
  cases ht : s.table e i with
  | none => rw [entry_of_none ht, entry_of_none ((htab e i).trans ht)]
  | some t =>
    have hne : t ≠ p := fun htp => hun (.table e i) (htp ▸ ht)
    rw [entry_of_table ht, entry_of_table ((htab e i).trans ht), fill_mem_ne _ _ _ hne]

namespace Inv

/-! ## One entry -/

theorem edited_of_store (h : Inv res fl s) (ht : s.table e i = some t)
    (hm : s'.mem = (s.store t j w).mem) (hr : MemOnly s s') : Edited res fl s e i j w s' where
  frame := by
    refine Frame.of_page (f := t) (h.private_node (k := .table e i) trivial ht rfl) (fun p hp => ?_)
      hr.envs hr.kernPgdir hr.npages
    rw [hm, store_mem_ne _ _ _ _ hp]
  entry := by
    rw [← h.entry_store_leaf ht j w]
    exact entry_of_mem hm hr.envs
  data p hp := by
    have hne : p ≠ t := fun hpt => hp.2 (.table e i) trivial (hpt ▸ ht)
    rw [hm, store_mem_ne _ _ _ _ hne]
  memOnly := hr

theorem flush_memOnly (s : Kernel) (d : Nat) (va : Word) : MemOnly s (s.flush d va) := by
  obtain ⟨tlb, h⟩ := flush_eq s d va
  rw [h]
  rfl

theorem decref_memOnly (s : Kernel) (pp : Nat) : MemOnly s (s.decref pp) := by
  rw [decref]
  split <;> rfl

theorem mapAt_edited (h : Inv res fl s) (ht : s.table e i = some t) (d pp : Nat) (va perm : Word)
    (j : Index) :
    Edited res fl s e i j (page2pa pp ||| pteP ||| perm) (s.mapAt d pp va perm ⟨t, j⟩) :=
  h.edited_of_store ht (mapAt_mem ..) (flush_memOnly _ d va)

theorem unmapAt_edited (h : Inv res fl s) (ht : s.table e i = some t) (d q : Nat) (va : Word)
    (j : Index) : Edited res fl s e i j 0#32 (s.unmapAt d q va ⟨t, j⟩) := by
  refine h.edited_of_store ht (unmapAt_mem ..) ?_
  exact MemOnly.trans _ _ _ (decref_memOnly s q)
    (flush_memOnly ((s.decref q).store t j 0#32) d va)

/-! ## A new page table -/

/-- What making `pp` the page table for `va` does. -/
theorem newTable {fl' : List Nat} (h : Inv res (t :: fl') s) (hd : s.dir e = some d)
    (hva : va < utop) (hnone : framed (s.mem d (pdx va)) = none) :
    Inv res fl' (s.newTable d va t) ∧
      (s.newTable d va t).target = Function.update s.target (.table e (pdx va)) (some t) ∧
      (s.newTable d va t).entry = s.entry ∧ Frame res (· = e) s (s.newTable d va t) ∧
      (∀ p, s.IsData (t :: fl') p → (s.newTable d va t).mem p = s.mem p) := by
  have hi : (pdx va).val < userPdes := (lt_utop_iff va).1 hva
  have htn : t < 2 ^ 20 := lt_pow s (h.free_lt List.mem_cons_self)
  have hfr := fresh_pop h
  have hfill := h.pop.fill hfr.not_res (fun k _ => hfr.unref k) fun _ => 0#32
  have htgt : ((s.pop t).fill t fun _ => 0#32).target = s.target :=
    (h.pop.target_fill (fun k _ => hfr.unref k) _).trans (target_of_mem rfl rfl)
  have hne : d ≠ t := h.free_ne (k := .dir e) List.mem_cons_self hd
  have hentry : ((s.pop t).fill t fun _ => 0#32).entry = s.entry :=
    entry_fill (s := s.pop t) hfr.unref _
  obtain ⟨hinv, htgt', hentry'⟩ := hfill.link_table (d := d) (e := e) hd hi
    (by rw [fill_mem_ne _ _ _ hne]; exact hnone) (Fresh.fill h.pop hfr _)
    (fun j => by rw [fill_mem_self]) (framed_table htn)
  refine ⟨hinv, ?_, ?_, ?_, fun p hp => ?_⟩
  · rw [← htgt]
    exact htgt'
  · rw [← hentry]
    exact hentry'
  · have h1 : Frame res (· = e) s ((s.pop t).fill t fun _ => 0#32) :=
      Frame.of_page (f := t) (h.private_free List.mem_cons_self)
        (fun p hp => by rw [fill_mem_ne _ _ _ hp, pop_mem]) rfl rfl rfl
    have h2 : Frame res (· = e) ((s.pop t).fill t fun _ => 0#32) (s.newTable d va t) :=
      Frame.of_page (f := d) (hfill.private_node (k := .dir e) trivial hd rfl)
        (fun p hp => store_mem_ne _ _ _ _ hp) rfl rfl rfl
    exact h1.trans h2
  · have h1 : p ≠ d := fun hpd => hp.2 (.dir e) trivial (hpd ▸ hd)
    have h2 : p ≠ t := fun hpt => hp.1 (hpt ▸ List.mem_cons_self)
    rw [Kernel.newTable, store_mem_ne _ _ _ _ h1, incref_mem, fill_mem_ne _ _ _ h2, pop_mem]

theorem newTable_memOnly (s : Kernel) (d : Nat) (va : Word) (t : Nat) :
    MemOnly s (s.newTable d va t) := rfl

/-! ## The page just freed -/

/-- Taking `pp` off the free list again, if it is at its head. -/
theorem unfree (h : Inv res fl s) (pp : Nat) :
    Inv res (if fl.head? = some pp then fl.tail else fl) (s.unfree pp) := by
  have hhead := h.chain.head_eq
  rw [Kernel.unfree, hhead]
  split
  · rename_i hpp
    obtain ⟨l, rfl⟩ : ∃ l, fl = pp :: l := by
      cases fl with
      | nil => exact absurd hpp (by simp)
      | cons a l => exact ⟨l, by simpa using hpp⟩
    exact h.pop
  · exact h

theorem unfree_memOnly (s : Kernel) (pp : Nat) : MemOnly s (s.unfree pp) := by
  rw [Kernel.unfree]
  split <;> rfl

@[simp] theorem unfree_mem (s : Kernel) (pp : Nat) : (s.unfree pp).mem = s.mem := by
  rw [Kernel.unfree]
  split <;> rfl

@[simp] theorem unfree_pages (s : Kernel) (pp : Nat) : (s.unfree pp).pages = s.pages := by
  rw [Kernel.unfree]
  split <;> rfl

theorem unfree_target (s : Kernel) (pp : Nat) : (s.unfree pp).target = s.target :=
  target_of_mem (unfree_mem s pp) (unfree_memOnly s pp).envs

/-! ## `page_remove` -/

/-- `page_remove` where there is no page table does nothing. -/
theorem pageRemove_none (hd : s.dir e = some d) (hva : va < utop)
    (hn : s.table e (pdx va) = none) : (pageRemove d va).run s = .ok () s := by
  rw [table_of_dir hd ((lt_utop_iff va).1 hva)] at hn
  exact pageRemove_missing hn

/-- Any entry of a page table, present or not, names a page that exists. -/
theorem entry_lt (h : Inv res fl s) (ht : s.table e i = some t) (j : Index) :
    pgnum (pteAddr (s.mem t j)) < s.npages := by
  cases hf : framed (s.mem t j) with
  | none =>
    rw [h.zero_pte e i t ht j hf]
    exact Nat.lt_of_le_of_lt (Nat.zero_le _) (h.target_lt (k := .table e i) ht)
  | some q =>
    obtain ⟨-, rfl⟩ := framed_eq_some.1 hf
    exact h.target_lt (k := .page e i j) ((leaf_of_table ht).trans hf)

/-- `page_remove` drops the entry, whatever it holds, and the page it names loses a reference,
present or not. -/
theorem pageRemove_some (h : Inv res fl s) (hd : s.dir e = some d) (hva : va < utop)
    (ht : s.table e (pdx va) = some t) :
    (pageRemove d va).run s =
      .ok () (s.unmapAt d (pgnum (pteAddr (s.mem t (ptx va)))) va ⟨t, ptx va⟩) := by
  have hfound : framed (s.mem d (pdx va)) = some t := by
    rw [← table_of_dir hd ((lt_utop_iff va).1 hva), ht]
  exact pageRemove_found hfound (h.target_lt (k := .table e (pdx va)) ht) (h.entry_lt ht _)

/-! ## `page_insert` -/

/-- The outcome of mapping `pp` at an entry: the entry is replaced, and the accounts stay in order
if the page may be mapped there. -/
structure Inserted (res : Nat → Prop) (fl : List Nat) (s : Kernel) (e : EnvIndex) (i j : Index)
    (pp : Nat) (perm : Word) (s' : Kernel) : Prop where
  edited : Edited res fl s e i j (page2pa pp ||| pteP ||| perm) s'
  inv : Mappable res fl s e i j pp → IsPerm perm →
    ∃ fl', Inv res fl' s' ∧ fl.length ≤ fl'.length + 1

/-- The accounts after inserting where a page table has to be made first. -/
theorem newTable_accounts {fl' : List Nat} (h : Inv res (t :: fl') s) (hd : s.dir e = some d)
    (hva : va < utop) (ht : s.table e (pdx va) = none)
    (hm : Mappable res (t :: fl') s e (pdx va) (ptx va) pp) (hperm : IsPerm perm) :
    Inv res fl' ((s.newTable d va t).mapAt d pp va perm ⟨t, ptx va⟩) ∧
      ((s.newTable d va t).mapAt d pp va perm ⟨t, ptx va⟩).counts =
        Function.update (recount s.counts none pp) t 1 := by
  have hnone : framed (s.mem d (pdx va)) = none :=
    (table_of_dir hd ((lt_utop_iff va).1 hva)).symm.trans ht
  obtain ⟨hinv, htgt, hentry, -, -⟩ := h.newTable hd hva hnone
  have ht' : (s.newTable d va t).table e (pdx va) = some t := by
    have := congrFun htgt (.table e (pdx va))
    rwa [Function.update_self] at this
  have hne : pp ≠ t := fun hpt => hm.not_free (hpt ▸ List.mem_cons_self)
  have hempty : (s.newTable d va t).leaf e (pdx va) (ptx va) = none := by
    rw [leaf_eq_framed, hentry, entry_of_none ht, framed_zero]
  have hroom : s.counts pp < 65535 := by
    rcases hm.room with hr | hr
    · exact hr
    · rw [leaf_eq_none ht] at hr
      exact absurd hr (by simp)
  have hzero : s.counts t = 0 := h.ok.ref_free List.mem_cons_self
  have hcounts : (s.newTable d va t).counts = Function.update s.counts t 1 := by
    have hpop : ((s.pop t).fill t fun _ => 0#32).counts = s.counts := rfl
    have hlt : ((s.pop t).fill t fun _ => 0#32).counts t < 65535 := by
      rw [hpop, hzero]
      decide
    have hinc := counts_incref ((s.pop t).fill t fun _ => 0#32) hlt
    rw [hpop, hzero] at hinc
    exact hinc
  have hcount : (s.newTable d va t).counts pp = s.counts pp := by
    rw [hcounts, Function.update_of_ne hne]
  refine ⟨hinv.mapAt ht' hempty (fun hf => hm.not_free (List.mem_cons_of_mem _ hf)) hm.not_res
    (fun k hk => ?_) (hcount ▸ hroom) d va hperm, ?_⟩
  · rw [htgt] at hk
    by_cases hkk : k = .table e (pdx va)
    · rw [hkk, Function.update_self] at hk
      exact absurd (Option.some_inj.1 hk).symm hne
    · rw [Function.update_of_ne hkk] at hk
      exact hm.not_node k hk
  · rw [counts_congr (mapAt_pages ..), counts_incref _ (hcount ▸ hroom), hcount, hcounts]
    funext p
    by_cases hpt : p = t
    · subst hpt
      simp [Ne.symm hne]
    · by_cases hpp : p = pp
      · subst hpp
        simp [recount, hpt]
      · simp [recount, hpt, hpp]

/-- Inserting where a page table has to be made first. -/
theorem inserted_newTable {fl' : List Nat} (h : Inv res (t :: fl') s) (hd : s.dir e = some d)
    (hva : va < utop) (ht : s.table e (pdx va) = none) (pp : Nat) (perm : Word) :
    Inserted res (t :: fl') s e (pdx va) (ptx va) pp perm
      ((s.newTable d va t).mapAt d pp va perm ⟨t, ptx va⟩) := by
  have hnone : framed (s.mem d (pdx va)) = none :=
    (table_of_dir hd ((lt_utop_iff va).1 hva)).symm.trans ht
  obtain ⟨hinv, htgt, hentry, hframe, hdata⟩ := h.newTable hd hva hnone
  have ht' : (s.newTable d va t).table e (pdx va) = some t := by
    have := congrFun htgt (.table e (pdx va))
    rwa [Function.update_self] at this
  have hedit := hinv.mapAt_edited ht' d pp va perm (ptx va)
  refine ⟨⟨hframe.trans hedit.frame, ?_, fun p hp => ?_,
    MemOnly.trans _ _ _ (newTable_memOnly s d va t) hedit.memOnly⟩, fun hm hperm =>
      ⟨fl', (h.newTable_accounts hd hva ht hm hperm).1, by simp⟩⟩
  · rw [hedit.entry, hentry]
  · rw [hedit.data p ⟨fun hm => hp.1 (List.mem_cons_of_mem _ hm), fun k hk => ?_⟩, hdata p hp]
    rw [htgt]
    by_cases hkk : k = .table e (pdx va)
    · rw [hkk, Function.update_self]
      rintro ⟨⟩
      exact hp.1 List.mem_cons_self
    · rw [Function.update_of_ne hkk]
      exact hp.2 k hk

/-- The accounts after inserting at an empty entry. -/
theorem absent_accounts (h : Inv res fl s) (ht : s.table e (pdx va) = some t)
    (hq : framed (s.mem t (ptx va)) = none) (d : Nat)
    (hm : Mappable res fl s e (pdx va) (ptx va) pp) (hperm : IsPerm perm) :
    Inv res fl ((s.unfree pp).mapAt d pp va perm ⟨t, ptx va⟩) ∧
      ((s.unfree pp).mapAt d pp va perm ⟨t, ptx va⟩).counts = recount s.counts none pp := by
  have hinv := h.unfree pp
  have hhead : fl.head? ≠ some pp := fun hh => hm.not_free (List.mem_of_mem_head? hh)
  rw [if_neg hhead] at hinv
  have ht' : (s.unfree pp).table e (pdx va) = some t :=
    (congrFun (unfree_target s pp) (.table e (pdx va))).trans ht
  have hroom : (s.unfree pp).counts pp < 65535 := by
    rw [counts_congr (unfree_pages s pp)]
    rcases hm.room with hr | hr
    · exact hr
    · rw [leaf_of_table ht, hq] at hr
      exact absurd hr (by simp)
  refine ⟨hinv.mapAt ht' ?_ hm.not_free hm.not_res (fun k hk => ?_) hroom d va hperm, ?_⟩
  · rw [leaf_of_table ht', unfree_mem, hq]
  · rw [unfree_target] at hk
    exact hm.not_node k hk
  · rw [counts_congr (mapAt_pages ..), counts_incref _ hroom, counts_congr (unfree_pages s pp)]
    funext p
    by_cases hpp : p = pp
    · subst hpp
      simp [recount]
    · simp [recount, hpp]

/-- Inserting at an empty entry. -/
theorem inserted_absent (h : Inv res fl s) (ht : s.table e (pdx va) = some t)
    (hq : framed (s.mem t (ptx va)) = none) (d pp : Nat) (perm : Word) :
    Inserted res fl s e (pdx va) (ptx va) pp perm
      ((s.unfree pp).mapAt d pp va perm ⟨t, ptx va⟩) := by
  have ht' : (s.unfree pp).table e (pdx va) = some t :=
    (congrFun (unfree_target s pp) (.table e (pdx va))).trans ht
  have hedit := (h.unfree pp).mapAt_edited ht' d pp va perm (ptx va)
  refine ⟨?_, fun hm hperm => ⟨fl, (h.absent_accounts ht hq d hm hperm).1, Nat.le_succ _⟩⟩
  refine h.edited_of_store ht ?_ (MemOnly.trans _ _ _ (unfree_memOnly s pp) hedit.memOnly)
  rw [mapAt_mem]
  simp [store]

/-- The free list after `page_remove` and a look at its head. -/
theorem head_released {fl : List Nat} (hpp : pp ∉ fl) (c : Nat → Nat) (q : Nat) :
    (if (if c q = 1 then q :: fl else fl).head? = some pp
      then (if c q = 1 then q :: fl else fl).tail else if c q = 1 then q :: fl else fl) =
      released c (some q) pp fl := by
  have hhead : fl.head? ≠ some pp := fun hh => hpp (List.mem_of_mem_head? hh)
  rw [released]
  by_cases h1 : c q = 1
  · by_cases hqp : q = pp
    · subst hqp
      simp [h1]
    · simp [h1, hqp]
  · simp [h1, hhead]

/-- The accounts after inserting over a mapping, which is removed first.  If that was the last
mapping of the page being inserted, the page went to the head of the free list and is taken off it
again. -/
theorem present_accounts (h : Inv res fl s) (ht : s.table e (pdx va) = some t)
    (hq : framed (s.mem t (ptx va)) = some q) (d : Nat)
    (hm : Mappable res fl s e (pdx va) (ptx va) pp) (hperm : IsPerm perm) :
    Inv res (released s.counts (some q) pp fl)
        (((s.unmapAt d q va ⟨t, ptx va⟩).unfree pp).mapAt d pp va perm ⟨t, ptx va⟩) ∧
      (((s.unmapAt d q va ⟨t, ptx va⟩).unfree pp).mapAt d pp va perm ⟨t, ptx va⟩).counts =
        recount s.counts (some q) pp := by
  have hlq : s.leaf e (pdx va) (ptx va) = some q := (leaf_of_table ht).trans hq
  have hpos := h.counts_pos (k := .page e (pdx va) (ptx va)) hlq
  have hlt := (s.pages q).ppRef.isLt
  have hun := h.unmapAt ht hlq d va
  have htgt := h.unmapAt_target ht d q va (ptx va)
  have hcounts : (s.unmapAt d q va ⟨t, ptx va⟩).counts =
      Function.update s.counts q (s.counts q - 1) := by
    rw [counts_congr (unmapAt_pages ..), counts_decref s hpos]
  generalize s.unmapAt d q va ⟨t, ptx va⟩ = s₁ at hun htgt hcounts ⊢
  have hinv := hun.unfree pp
  rw [head_released hm.not_free] at hinv
  have hnot : pp ∉ released s.counts (some q) pp fl := by
    rw [released]
    split
    · rename_i hc
      simp [Ne.symm hc.1, hm.not_free]
    · exact hm.not_free
  have ht' : (s₁.unfree pp).table e (pdx va) = some t := by
    have := congrFun ((unfree_target s₁ pp).trans htgt) (.table e (pdx va))
    rw [Function.update_of_ne (by simp)] at this
    exact this.trans ht
  have hroom : (s₁.unfree pp).counts pp < 65535 := by
    rw [counts_congr (unfree_pages s₁ pp), hcounts]
    by_cases hqp : pp = q
    · rw [hqp, Function.update_self]
      rw [counts] at hpos ⊢
      omega
    · rw [Function.update_of_ne hqp]
      rcases hm.room with hr | hr
      · exact hr
      · exact absurd (Option.some_inj.1 (hr.symm.trans hlq)) hqp
  refine ⟨hinv.mapAt ht' ?_ hnot hm.not_res (fun k hk => ?_) hroom d va hperm, ?_⟩
  · have := congrFun ((unfree_target s₁ pp).trans htgt) (.page e (pdx va) (ptx va))
    rwa [Function.update_self] at this
  · rw [unfree_target, htgt] at hk
    by_cases hkk : k = .page e (pdx va) (ptx va)
    · rw [hkk]
      exact id
    · rw [Function.update_of_ne hkk] at hk
      exact hm.not_node k hk
  · rw [counts_congr (mapAt_pages ..), counts_incref _ hroom, counts_congr (unfree_pages s₁ pp),
      hcounts]
    funext p
    by_cases hpp : p = pp
    · subst hpp
      by_cases hqp : q = p
      · subst hqp
        simp [recount]
        omega
      · simp [recount, hqp, Ne.symm hqp]
    · by_cases hqp : q = p
      · subst hqp
        simp [recount, hpp]
      · simp [recount, hpp, hqp, Ne.symm hqp]

/-- Inserting over a mapping, which is removed first. -/
theorem inserted_present (h : Inv res fl s) (ht : s.table e (pdx va) = some t)
    (hq : framed (s.mem t (ptx va)) = some q) (d pp : Nat) (perm : Word) :
    Inserted res fl s e (pdx va) (ptx va) pp perm
      (((s.unmapAt d q va ⟨t, ptx va⟩).unfree pp).mapAt d pp va perm ⟨t, ptx va⟩) := by
  have hlq : s.leaf e (pdx va) (ptx va) = some q := (leaf_of_table ht).trans hq
  have hacc := fun (hm : Mappable res fl s e (pdx va) (ptx va) pp) (hperm : IsPerm perm) =>
    (h.present_accounts ht hq d hm hperm).1
  have hun := h.unmapAt ht hlq d va
  have hedit₁ := h.unmapAt_edited ht d q va (ptx va)
  have htgt := h.unmapAt_target ht d q va (ptx va)
  generalize s.unmapAt d q va ⟨t, ptx va⟩ = s₁ at hun hedit₁ htgt hacc ⊢
  have hmo := unfree_memOnly s₁ pp
  have ht' : (s₁.unfree pp).table e (pdx va) = some t := by
    have := congrFun ((unfree_target s₁ pp).trans htgt) (.table e (pdx va))
    rw [Function.update_of_ne (by simp)] at this
    exact this.trans ht
  have hedit₂ := (hun.unfree pp).mapAt_edited ht' d pp va perm (ptx va)
  refine ⟨⟨?_, ?_, fun p hp => ?_, MemOnly.trans _ _ _ (MemOnly.trans _ _ _ hedit₁.memOnly hmo)
    hedit₂.memOnly⟩, fun hm hperm => ⟨_, hacc hm hperm, ?_⟩⟩
  · exact (hedit₁.frame.trans (Frame.of_eq (unfree_mem s₁ pp) hmo.envs hmo.kernPgdir
      hmo.npages)).trans hedit₂.frame
  · rw [hedit₂.entry, entry_of_mem (unfree_mem s₁ pp) hmo.envs, hedit₁.entry, setEntry_setEntry]
  · have hne : p ≠ t := fun hpt => hp.2 (.table e (pdx va)) trivial (hpt ▸ ht)
    rw [mapAt_mem, store_mem_ne _ _ _ _ hne, unfree_mem, hedit₁.data p hp]
  · rw [released]
    split
    · rw [List.length_cons]
      omega
    · exact Nat.le_succ _

/-- **`page_insert`** fails, and then changes nothing, or it replaces the entry. -/
theorem pageInsert_spec (h : Inv res fl s) (hd : s.dir e = some d) (hva : va < utop) (pp : Nat)
    (perm : Word) :
    ((pageInsert d pp va perm).run s = .ok (-eNoMem) s ∧ fl = [] ∧ s.table e (pdx va) = none) ∨
    ∃ s', (pageInsert d pp va perm).run s = .ok 0#32 s' ∧
      Inserted res fl s e (pdx va) (ptx va) pp perm s' := by
  have htab := table_of_dir hd ((lt_utop_iff va).1 hva)
  cases ht : s.table e (pdx va) with
  | none =>
    have hnone : framed (s.mem d (pdx va)) = none := htab.symm.trans ht
    cases fl with
    | nil => exact Or.inl ⟨pageInsert_full hnone h.chain, rfl, rfl⟩
    | cons t fl' =>
      exact Or.inr ⟨_, pageInsert_create hnone h.chain.1 (h.free_lt List.mem_cons_self),
        h.inserted_newTable hd hva ht pp perm⟩
  | some t =>
    have hfound : framed (s.mem d (pdx va)) = some t := htab.symm.trans ht
    have htl : t < s.npages := h.target_lt (k := .table e (pdx va)) ht
    cases hq : framed (s.mem t (ptx va)) with
    | none =>
      exact Or.inr ⟨_, pageInsert_absent hfound htl hq, h.inserted_absent ht hq d pp perm⟩
    | some q =>
      have hql : q < s.npages :=
        h.target_lt (k := .page e (pdx va) (ptx va)) ((leaf_of_table ht).trans hq)
      exact Or.inr ⟨_, pageInsert_present hfound htl hq hql, h.inserted_present ht hq d pp perm⟩

end Inv

end Jos
