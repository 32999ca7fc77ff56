import Jos.Stale

/-!
# The TLB

A CPU may remember any translation of the loaded page directory that it has seen since the last
`lcr3`, until `invlpg` makes it forget.  `tlb_invalidate` flushes only if the directory being edited
is that of the current environment, or if there is none.  So it has to be known, at every edit,
which directory is loaded: it is that of the current environment.

Two page tables in one page would be another way to get a stale translation, since an edit of one is
an edit of the other.  No page becomes a second table as long as those in use are not on the free
list, and this is all that is asked of the allocator here.  In particular a page that is mapped may
be free, or a page table.
-/

set_option autoImplicit false

namespace Jos

open Kernel Command

variable {s s' t u : Kernel} {e c : EnvIndex} {d p : Nat} {va w : Word}

/-! ## Pages in use -/

/-- The page is a page directory, or a page table of an environment. -/
def Kernel.InUse (s : Kernel) (p : Nat) : Prop :=
  p = s.kernPgdir ∨ ∃ k : Slot, k.IsNode ∧ s.target k = some p

/-- The pages `page_free_list` leads through. -/
inductive Kernel.OnFreeList (s : Kernel) : Nat → Prop where
  | head {p : Nat} (h : s.pageFreeList = some p) : OnFreeList s p
  | next {p q : Nat} (h : OnFreeList s p) (link : (s.pages p).ppLink = some q) : OnFreeList s q

/-- No page in use as a page table or page directory is on the free list. -/
def Kernel.TablesKept (s : Kernel) : Prop := ∀ p, s.OnFreeList p → ¬ s.InUse p

/-- Every page directory and every page table has a page of its own. -/
structure Kernel.Apart (s : Kernel) : Prop where
  unique : ∀ k k' p, k.IsNode → k'.IsNode → s.target k = some p → s.target k' = some p → k = k'
  kern : ∀ k : Slot, k.IsNode → s.target k ≠ some s.kernPgdir
  /-- The kernel's directory maps no user memory. -/
  user : ∀ i : Index, i.val < userPdes → framed (s.mem s.kernPgdir i) = none

/-- Page directories and page tables are where they were, or fewer. -/
theorem Kernel.Apart.of_target (h : s.Apart) (hkern : s'.kernPgdir = s.kernPgdir)
    (hmem : s'.mem s.kernPgdir = s.mem s.kernPgdir)
    (htgt : ∀ k : Slot, k.IsNode → ∀ p, s'.target k = some p → s.target k = some p) : s'.Apart where
  unique k k' p hk hk' ht ht' := h.unique k k' p hk hk' (htgt k hk p ht) (htgt k' hk' p ht')
  kern k hk ht := h.kern k hk (htgt k hk _ (by rw [← hkern]; exact ht))
  user i hi := by
    rw [hkern, hmem]
    exact h.user i hi

/-- `page_free_list` leads through pages that exist. -/
def Kernel.ListBelow (s : Kernel) : Prop := ∀ p, s.OnFreeList p → p < s.npages

theorem Kernel.ListBelow.head (h : s.ListBelow) : ∀ p, s.pageFreeList = some p → p < s.npages :=
  fun p hp => h p (.head hp)

/-- A list that stays within the other. -/
theorem Kernel.OnFreeList.within {P : Nat → Prop} (h : s.OnFreeList p)
    (hhead : ∀ p, s.pageFreeList = some p → P p)
    (hnext : ∀ p q, P p → (s.pages p).ppLink = some q → P q) : P p := by
  induction h with
  | head hp => exact hhead _ hp
  | next _ hlink ih => exact hnext _ _ ih hlink

/-- On a list that ends, these are the pages of the list. -/
theorem Kernel.onFreeList_iff {fl : List Nat} (h : Chain s.links s.pageFreeList fl) :
    s.OnFreeList p ↔ p ∈ fl := by
  constructor
  · intro hp
    refine hp.within (fun q hq => ?_) fun q q' hq hlink => ?_
    · rw [hq] at h
      obtain ⟨l, rfl, -⟩ := h.exists_cons
      exact List.mem_cons_self
    · obtain ⟨l, l', rfl⟩ := List.append_of_mem hq
      have hrest := h.suffix
      rw [show s.links q = some q' from hlink] at hrest
      obtain ⟨l'', rfl, -⟩ := hrest.exists_cons
      simp
  · -- the pages of every part of the list that starts on the list
    have hpart : ∀ (l : List Nat) (q : Option Nat), (∀ r, q = some r → s.OnFreeList r) →
        Chain s.links q l → ∀ r ∈ l, s.OnFreeList r := by
      intro l
      induction l with
      | nil => simp
      | cons a l ih =>
        rintro q hq ⟨rfl, hl⟩ r hr
        have ha := hq a rfl
        rcases List.mem_cons.1 hr with rfl | hr
        · exact ha
        · exact ih _ (fun b hb => .next ha hb) hl r hr
    exact hpart fl s.pageFreeList (fun r hr => .head hr) h p

theorem Kernel.ListBelow.of_eq (h : s.ListBelow) (hpages : s'.pages = s.pages)
    (hhead : s'.pageFreeList = s.pageFreeList) (hnp : s'.npages = s.npages) : s'.ListBelow := by
  intro p hp
  rw [hnp]
  refine h p (hp.within (fun q hq => .head (hhead ▸ hq)) fun q q' hq hlink => .next hq ?_)
  rwa [hpages] at hlink

theorem Kernel.ListBelow.pop (h : s.ListBelow) (hp : s.pageFreeList = some p) :
    (s.pop p).ListBelow :=
  fun q hq => h q (hq.within (fun _ hlink => .next (.head hp) hlink) fun _ _ hr hlink =>
    .next hr hlink)

theorem Kernel.ListBelow.setRef (h : s.ListBelow) (p : Nat) (ref : BitVec 16) :
    (s.setPage p { s.pages p with ppRef := ref }).ListBelow := by
  intro q hq
  refine h q (hq.within (fun _ hr => .head hr) fun r r' hr hlink => .next hr ?_)
  by_cases hrp : r = p
  · subst hrp
    simpa using hlink
  · simpa [hrp] using hlink

theorem Kernel.ListBelow.push (h : s.ListBelow) (hp : p < s.npages) : (s.push p).ListBelow := by
  -- the pages of before, and the one that has been put back
  intro q hq
  have hor : q = p ∨ s.OnFreeList q := by
    refine hq.within (fun r hr => Or.inl (Option.some_inj.1 hr).symm) fun r r' hr hlink => ?_
    by_cases hrp : r = p
    · subst hrp
      exact Or.inr (.head (by simpa [Kernel.push] using hlink))
    · exact Or.inr (.next (hr.resolve_left hrp) (by simpa [Kernel.push, hrp] using hlink))
  rcases hor with rfl | hq
  · exact hp
  · exact h q hq

theorem Kernel.ListBelow.decref (h : s.ListBelow) (hp : p < s.npages) : (s.decref p).ListBelow := by
  rw [Kernel.decref]
  split
  · exact (h.setRef p _).push hp
  · exact h.setRef p _

/-! ## The loaded directory -/

/-- The directory of `e` is loaded, and what the CPU remembers of user memory is what the page
tables say. -/
structure Kernel.Synced (s : Kernel) (e : EnvIndex) : Prop where
  loaded : s.dir e = some (s.cr3 s.cpunum)
  cached : ∀ va < utop, ∀ w ∈ s.tlb s.cpunum (pgnum va), s.walk (s.cr3 s.cpunum) va = some w

theorem walk_page {a b : Word} (h : pgnum a = pgnum b) : s.walk d a = s.walk d b := by
  obtain ⟨h1, h2⟩ := pdx_ptx_of_pgnum h
  rw [Kernel.walk, Kernel.walk, h1, h2]

theorem walk_of_dir (hd : s.dir e = some d) (hva : va < utop) :
    s.walk d va = (s.table e (pdx va)).map fun t => s.mem t (ptx va) := by
  rw [Kernel.walk, table_of_dir hd ((lt_utop_iff va).1 hva)]

/-- A write lets the CPU remember the translations of before. -/
theorem mem_remember {cpu : Cpu} (h : w ∈ s.remember cpu (pgnum va)) :
    w ∈ s.tlb cpu (pgnum va) ∨ s.walk (s.cr3 cpu) va = some w := by
  have hpage : s.walk (s.cr3 cpu) (BitVec.ofNat 32 (pgnum va * 4096)) = s.walk (s.cr3 cpu) va := by
    apply walk_page
    have := va.isLt
    rw [pgnum_eq, pgnum_eq, BitVec.toNat_ofNat]
    omega
  rw [remember, hpage] at h
  split at h
  · rename_i w' hw
    split at h
    · exact Or.inl h
    · rcases List.mem_cons.1 h with rfl | h
      · exact Or.inr hw
      · exact Or.inl h
  · exact Or.inl h

/-- What is cached is a translation of before, and that one has not changed. -/
theorem Kernel.Synced.of_walk (h : s.Synced e) (hcpu : s'.cpunum = s.cpunum)
    (hcr3 : s'.cr3 s.cpunum = s.cr3 s.cpunum) (hdir : s'.dir e = s.dir e)
    (hwalk : ∀ va < utop, ∀ w ∈ s'.tlb s.cpunum (pgnum va), w ∈ s.remember s.cpunum (pgnum va) ∧
      (s.walk (s.cr3 s.cpunum) va = some w → s'.walk (s.cr3 s.cpunum) va = some w)) :
    s'.Synced e where
  loaded := by rw [hdir, hcpu, hcr3, h.loaded]
  cached va hva w hw := by
    rw [hcpu] at hw
    obtain ⟨hrem, hkeep⟩ := hwalk va hva w hw
    rw [hcpu, hcr3]
    rcases mem_remember hrem with hold | hnow
    · exact hkeep (h.cached va hva w hold)
    · exact hkeep hnow

/-- Page tables are apart, and the current environment, if it is one of `ok`, has its directory
loaded. -/
structure Kernel.Tidy (ok : EnvIndex → Prop) (s : Kernel) : Prop where
  apart : s.Apart
  below : s.ListBelow
  synced : ∀ e, s.curenv = some e → ok e → s.Synced e

variable {ok : EnvIndex → Prop}

namespace Kernel.Tidy

/-- Nothing happens to the pages in use. -/
theorem of_data (h : s.Tidy ok) (hdir : ∀ e, s'.dir e = s.dir e) (hcur : s'.curenv = s.curenv)
    (hcpu : s'.cpunum = s.cpunum) (hcr3 : s'.cr3 s.cpunum = s.cr3 s.cpunum)
    (hkern : s'.kernPgdir = s.kernPgdir) (hmem : ∀ p, s.InUse p → s'.mem p = s.mem p)
    (htlb : ∀ n, ∀ w ∈ s'.tlb s.cpunum n, w ∈ s.remember s.cpunum n) (hbelow : s'.ListBelow) :
    s'.Tidy ok := by
  have hnode : ∀ (k : Slot) (p : Nat), k.IsNode → s.target k = some p → s'.mem p = s.mem p :=
    fun k p hk hp => hmem p (Or.inr ⟨k, hk, hp⟩)
  have htgt : s'.target = s.target := by
    refine target_congr hdir (fun e d hd i _ => ?_) fun e i t ht => ?_
    · rw [hnode (.dir e) d trivial hd]
    · rw [hnode (.table e i) t trivial ht]
  refine ⟨h.apart.of_target hkern (hmem _ (Or.inl rfl)) fun k _ p hp => by rwa [htgt] at hp,
    hbelow, fun e he hok => ?_⟩
  have hs := h.synced e (hcur ▸ he) hok
  refine hs.of_walk hcpu hcr3 (hdir e) fun va hva w hw => ⟨htlb _ w hw, fun hwalk => ?_⟩
  have htab : s'.table e (pdx va) = s.table e (pdx va) := congrFun htgt (.table e (pdx va))
  rw [walk_of_dir hs.loaded hva] at hwalk
  rw [walk_of_dir ((hdir e).trans hs.loaded) hva, htab]
  obtain ⟨t, ht, rfl⟩ := Option.map_eq_some_iff.1 hwalk
  rw [ht, Option.map_some, hnode (.table e (pdx va)) t trivial ht]

theorem tlb_remember {cpu : Cpu} {n : Nat} (h : w ∈ s.tlb cpu n) : w ∈ s.remember cpu n := by
  rw [remember]
  split
  · split
    · exact h
    · exact List.mem_cons_of_mem _ h
  · exact h

/-- Reference counts and the free list do not matter. -/
theorem of_pages (h : s.Tidy ok) {pages : Nat → PageInfo} {head : Option Nat}
    (hbelow : ({ s with pages := pages, pageFreeList := head } : Kernel).ListBelow) :
    ({ s with pages := pages, pageFreeList := head } : Kernel).Tidy ok :=
  h.of_data (fun _ => rfl) rfl rfl rfl rfl (fun _ _ => rfl) (fun _ _ hw => tlb_remember hw) hbelow

theorem pop (h : s.Tidy ok) (hp : s.pageFreeList = some p) : (s.pop p).Tidy ok :=
  h.of_pages (h.below.pop hp)

theorem incref (h : s.Tidy ok) (p : Nat) : (s.incref p).Tidy ok := h.of_pages (h.below.setRef p _)

theorem push (h : s.Tidy ok) (hp : p < s.npages) : (s.push p).Tidy ok :=
  h.of_pages (h.below.push hp)

theorem decref (h : s.Tidy ok) (hp : p < s.npages) : (s.decref p).Tidy ok := by
  have hbelow := h.below.decref hp
  rw [Kernel.decref] at hbelow ⊢
  split
  · rename_i hz
    rw [if_pos hz] at hbelow
    exact h.of_pages hbelow
  · rename_i hz
    rw [if_neg hz] at hbelow
    exact h.of_pages hbelow

/-- Writing a page that is not in use. -/
theorem fill (h : s.Tidy ok) (hp : ¬ s.InUse p) (pg : Page) : (s.fill p pg).Tidy ok := by
  refine h.of_data (fun _ => rfl) rfl rfl rfl rfl (fun q hq => ?_) (fun _ _ hw => hw)
    (h.below.of_eq rfl rfl rfl)
  refine fill_mem_ne _ _ _ ?_
  rintro rfl
  exact hp hq

section

variable (h : s.Tidy ok) (hd : s.dir e = some d)
include h hd

/-- A directory is no page table, -/
theorem dir_ne_table {e' : EnvIndex} {i : Index} {t : Nat} (ht : s.table e' i = some t) :
    d ≠ t := by
  rintro rfl
  exact absurd (h.apart.unique (.dir e) (.table e' i) d trivial trivial hd ht) (by simp)

/-- and not that of another environment. -/
theorem dir_ne_dir {e' : EnvIndex} {d' : Nat} (hd' : s.dir e' = some d') (hne : e' ≠ e) :
    d' ≠ d := by
  rintro rfl
  have := h.apart.unique (.dir e') (.dir e) d' trivial trivial hd' hd
  exact hne (by simpa using this)

omit hd in
theorem table_inj {e e' : EnvIndex} {i i' : Index} {t : Nat} (ht : s.table e i = some t)
    (ht' : s.table e' i' = some t) : e = e' ∧ i = i' := by
  have := h.apart.unique (.table e i) (.table e' i') t trivial trivial ht ht'
  simpa using this

omit h hd in
theorem flush_own (hc : u.curenv = some c) (hpg : (u.envs c).envPgdir = some d) (va : Word) :
    (u.flush d va).tlb u.cpunum = Function.update (u.tlb u.cpunum) (pgnum va) [] := by
  rw [Kernel.flush, hc]
  simp only [if_pos hpg, invlpg, Function.update_self]

omit h hd in
theorem flush_other (hc : u.curenv = some c) (hpg : (u.envs c).envPgdir ≠ some d) (va : Word) :
    u.flush d va = u := by
  rw [Kernel.flush, hc]
  simp only [if_neg hpg]

/-- **Writing a page table entry**, with the flush that follows it. -/
theorem setPte {t : Nat} (ht : s.table e (pdx va) = some t) (w : Word) :
    ((s.store t (ptx va) w).flush d va).Tidy ok := by
  have hdir' : ∀ e', ((s.store t (ptx va) w).flush d va).dir e' = s.dir e' :=
    fun e' => dir_congr (by simp)
  have hmem : ∀ q, q ≠ t → ((s.store t (ptx va) w).flush d va).mem q = s.mem q := by
    intro q hq
    rw [flush_mem, store_mem_ne _ _ _ _ hq]
  have hkern : t ≠ s.kernPgdir := by
    rintro rfl
    exact h.apart.kern (.table e (pdx va)) trivial ht
  have htab : ∀ e' i', ((s.store t (ptx va) w).flush d va).table e' i' = s.table e' i' := by
    intro e' i'
    rw [table, table, hdir']
    cases hd' : s.dir e' with
    | none => rfl
    | some d' => simp only [Option.bind_some, hmem d' (h.dir_ne_table hd' ht)]
  refine ⟨h.apart.of_target (by simp) (hmem _ hkern.symm) fun k hk q hq => ?_,
    h.below.of_eq (by simp) (by simp) (by simp), fun c hc hok => ?_⟩
  · cases k with
    | dir e' => exact (hdir' e').symm.trans hq
    | table e' i' => exact (htab e' i').symm.trans hq
    | page => exact hk.elim
  · obtain ⟨tlb, htlb⟩ := flush_eq (s.store t (ptx va) w) d va
    have hc₀ : s.curenv = some c := by
      rw [htlb] at hc
      exact hc
    have hs := h.synced c hc₀ hok
    have hpg := envPgdir_of_dir hs.loaded
    have hcur : (s.store t (ptx va) w).curenv = some c := hc₀
    refine hs.of_walk (by rw [htlb]; rfl) (by rw [htlb]; rfl) (hdir' c) fun va' hva' w' hw' => ?_
    -- what matters is the entry that the walk ends in
    have hwalk : (∀ t', s.table c (pdx va') = some t' → t' = t → ptx va' ≠ ptx va) →
        s.walk (s.cr3 s.cpunum) va' = some w' →
        ((s.store t (ptx va) w).flush d va).walk (s.cr3 s.cpunum) va' = some w' := by
      intro hne hold
      rw [walk_of_dir hs.loaded hva'] at hold
      rw [walk_of_dir ((hdir' c).trans hs.loaded) hva', htab]
      obtain ⟨t', ht', rfl⟩ := Option.map_eq_some_iff.1 hold
      rw [ht', Option.map_some, flush_mem]
      by_cases htt : t' = t
      · rw [htt, store_mem_idx _ _ _ _ (hne t' ht' htt)]
      · rw [store_mem_ne _ _ _ _ htt]
    by_cases hce : c = e
    · subst hce
      obtain rfl : d = s.cr3 s.cpunum := Option.some_inj.1 (hd.symm.trans hs.loaded)
      have hown : ((s.store t (ptx va) w).flush (s.cr3 s.cpunum) va).tlb s.cpunum =
        Function.update (s.remember s.cpunum) (pgnum va) [] := flush_own hcur hpg va
      rw [hown] at hw'
      have hpage : pgnum va' ≠ pgnum va := by
        intro heq
        rw [heq, Function.update_self] at hw'
        exact absurd hw' (by simp)
      rw [Function.update_of_ne hpage] at hw'
      refine ⟨hw', hwalk fun t' ht' htt => ?_⟩
      subst htt
      have hpdx := (h.table_inj ht' ht).2
      exact fun hptx => hpage (pgnum_inj hpdx hptx)
    · have hne := h.dir_ne_dir hd hs.loaded hce
      have hno : ((s.store t (ptx va) w).envs c).envPgdir ≠ some d := by
        rw [store_envs, hpg]
        simpa using hne
      rw [flush_other hcur hno] at hw'
      refine ⟨hw', hwalk fun t' ht' htt => ?_⟩
      subst htt
      exact absurd (h.table_inj ht' ht).1 hce

/-- **Writing a page directory entry**: there was no page table, or the directory is not the loaded
one. -/
theorem setPde {i : Index} (hi : i.val < userPdes) {w : Word}
    (hnew : ∀ q, framed w = some q → ¬ s.InUse q)
    (hold : s.table e i = none ∨ ∀ c, s.curenv = some c → ok c → c ≠ e) :
    (s.store d i w).Tidy ok := by
  have hdir' : ∀ e', (s.store d i w).dir e' = s.dir e' := fun e' => dir_congr rfl
  have hkern : s.kernPgdir ≠ d := by
    rintro rfl
    exact h.apart.kern (.dir e) trivial hd
  have htab : ∀ e' i', (s.store d i w).table e' i' =
      if e' = e ∧ i' = i then framed w else s.table e' i' := by
    intro e' i'
    split
    · rename_i heq
      obtain ⟨rfl, rfl⟩ := heq
      rw [table_of_dir ((hdir' e').trans hd) hi, store_mem_self]
    · rename_i hne
      rw [table, table, hdir']
      cases hd' : s.dir e' with
      | none => rfl
      | some d' =>
        by_cases hee : e' = e
        · subst hee
          obtain rfl : d = d' := Option.some_inj.1 (hd.symm.trans hd')
          simp only [Option.bind_some, store_mem_idx _ _ _ _ fun hii => hne ⟨rfl, hii⟩]
        · simp only [Option.bind_some, store_mem_ne _ _ _ _ (h.dir_ne_dir hd hd' hee)]
  -- a page table is one of before, or it is the new one and was not in use
  have htgt : ∀ k : Slot, k.IsNode → ∀ q, (s.store d i w).target k = some q →
      (k = .table e i ∧ ¬ s.InUse q) ∨ s.target k = some q := by
    intro k hk q hq
    cases k with
    | dir e' => exact Or.inr ((hdir' e').symm.trans hq)
    | page => exact hk.elim
    | table e' i' =>
      have hq' : (s.store d i w).table e' i' = some q := hq
      rw [htab] at hq'
      split at hq'
      · rename_i heq
        obtain ⟨rfl, rfl⟩ := heq
        exact Or.inl ⟨rfl, hnew q hq'⟩
      · exact Or.inr hq'
  refine ⟨⟨fun k k' q hk hk' hq hq' => ?_, fun k hk hq => ?_, fun i' hi' => ?_⟩,
    h.below.of_eq rfl rfl rfl, fun c hc hok => ?_⟩
  · rcases htgt k hk q hq with ⟨rfl, hno⟩ | hq
    · rcases htgt k' hk' q hq' with ⟨rfl, -⟩ | hq'
      · rfl
      · exact absurd (Or.inr ⟨k', hk', hq'⟩) hno
    · rcases htgt k' hk' q hq' with ⟨rfl, hno⟩ | hq'
      · exact absurd (Or.inr ⟨k, hk, hq⟩) hno
      · exact h.apart.unique k k' q hk hk' hq hq'
  · rcases htgt k hk _ hq with ⟨-, hno⟩ | hq
    · exact hno (Or.inl rfl)
    · exact h.apart.kern k hk hq
  · rw [store_kernPgdir, store_mem_ne _ _ _ _ hkern]
    exact h.apart.user i' hi'
  · have hs := h.synced c hc hok
    refine hs.of_walk rfl rfl (hdir' c) fun va' hva' w' hw' => ⟨hw', fun hwalk => ?_⟩
    rw [walk_of_dir hs.loaded hva'] at hwalk
    obtain ⟨t', ht', rfl⟩ := Option.map_eq_some_iff.1 hwalk
    have hne : ¬ (c = e ∧ pdx va' = i) := by
      rintro ⟨rfl, rfl⟩
      rcases hold with hold | hold
      · exact absurd (hold.symm.trans ht') (by simp)
      · exact hold c hc hok rfl
    rw [walk_of_dir ((hdir' c).trans hs.loaded) hva', htab, if_neg hne, ht', Option.map_some,
      store_mem_ne _ _ _ _ (h.dir_ne_table hd ht').symm]

omit h hd in
/-- Writing a page that is not in use does not move page tables. -/
theorem target_fill (hp : ¬ s.InUse p) (pg : Page) : (s.fill p pg).target = s.target := by
  have hne : ∀ (k : Slot) (q : Nat), k.IsNode → s.target k = some q → q ≠ p := by
    rintro k q hk hq rfl
    exact hp (Or.inr ⟨k, hk, hq⟩)
  refine target_congr (fun _ => rfl) (fun e d hd i _ => ?_) fun e i t ht => ?_
  · rw [fill_mem_ne _ _ _ (hne (.dir e) d trivial hd)]
  · rw [fill_mem_ne _ _ _ (hne (.table e i) t trivial ht)]

/-- **A page from the free list becomes a page table.** -/
theorem newTable (hva : va < utop) (hnone : framed (s.mem d (pdx va)) = none)
    (hlist : s.pageFreeList = some p) (hp : ¬ s.InUse p) : (s.newTable d va p).Tidy ok := by
  have h₁ : (((s.pop p).fill p fun _ => 0#32).incref p).Tidy ok :=
    (@fill (s.pop p) p ok (h.pop hlist) hp fun _ => 0#32).incref p
  have htgt : (((s.pop p).fill p fun _ => 0#32).incref p).target = s.target :=
    @target_fill (s.pop p) p hp fun _ => 0#32
  have hi := (lt_utop_iff va).1 hva
  refine h₁.setPde hd hi (fun q hq => ?_) (Or.inl ?_)
  · rw [framed_table (Nat.lt_of_lt_of_le (h.below.head p hlist) s.npagesLe)] at hq
    obtain rfl : p = q := Option.some_inj.1 hq
    rw [InUse, htgt]
    exact hp
  · exact (congrFun htgt (.table e (pdx va))).trans ((table_of_dir hd hi).trans hnone)

end

/-! ## The page functions -/

section

variable (h : s.Tidy ok) (hd : s.dir e = some d) (hva : va < utop)
include h hd hva

omit hva in
theorem mapAt {t : Nat} (ht : s.table e (pdx va) = some t) (pp : Nat) (perm : Word) :
    (s.mapAt d pp va perm ⟨t, ptx va⟩).Tidy ok :=
  (h.incref pp).setPte hd ht _

omit hva in
theorem unfree_mapAt {t : Nat} (ht : s.table e (pdx va) = some t) (pp : Nat) (perm : Word) :
    ((s.unfree pp).mapAt d pp va perm ⟨t, ptx va⟩).Tidy ok := by
  rw [Kernel.unfree]
  split
  · exact (h.pop ‹_›).mapAt hd ht pp perm
  · exact h.mapAt hd ht pp perm

theorem unmapAt {t q : Nat} (ht : s.table e (pdx va) = some t) (hq : q < s.npages) :
    (s.unmapAt d q va ⟨t, ptx va⟩).Tidy ok := by
  have hd' : (s.decref q).dir e = some d := (dir_congr (by simp)).trans hd
  refine (h.decref hq).setPte hd' ?_ _
  rw [table_of_dir hd' ((lt_utop_iff va).1 hva), decref_mem,
    ← table_of_dir hd ((lt_utop_iff va).1 hva)]
  exact ht

/-- **`page_remove`.** -/
theorem pageRemove (hr : (pageRemove d va).run s = .ok () s') : s'.Tidy ok := by
  have htab := table_of_dir hd ((lt_utop_iff va).1 hva)
  rcases pageRemove_ok hr with ⟨-, rfl⟩ | ⟨t, q, ht, hq, rfl⟩
  · exact h
  · exact h.unmapAt hd hva (htab.trans ht) hq

variable (hhead : ∀ p, s.pageFreeList = some p → ¬ s.InUse p)
include hhead

/-- **`pgdir_walk`.** -/
theorem pgdirWalk {r : Option PtePtr} (hr : (pgdirWalk d va true).run s = .ok r s') :
    s'.Tidy ok := by
  rcases pgdirWalk_ok h.below.head hr with rfl | ⟨p, hnone, hp, rfl⟩
  · exact h
  · exact h.newTable hd hva hnone hp (hhead p hp)

/-- **`page_insert`.** -/
theorem pageInsert {pp : Nat} {perm r : Word} (hr : (pageInsert d pp va perm).run s = .ok r s') :
    s'.Tidy ok := by
  have hi := (lt_utop_iff va).1 hva
  have htab := table_of_dir hd hi
  rcases pageInsert_ok h.below.head hr with
    ⟨hnone, rfl | ⟨p, hp, rfl⟩⟩ | ⟨t, ht, rfl | ⟨q, hq, rfl⟩⟩
  · exact h
  · have h₁ := h.newTable hd hva hnone hp (hhead p hp)
    have hlt : p < 2 ^ 20 := Nat.lt_of_lt_of_le (h.below.head p hp) s.npagesLe
    refine h₁.mapAt hd ?_ pp perm
    rw [table_of_dir (s := s.newTable d va p) hd hi, Kernel.newTable, store_mem_self]
    exact framed_table hlt
  · exact h.unfree_mapAt hd (htab.trans ht) pp perm
  · have hu := h.unmapAt hd hva (htab.trans ht) hq
    have hdu : (s.unmapAt d q va ⟨t, ptx va⟩).dir e = some d := (dir_congr (by simp)).trans hd
    refine hu.unfree_mapAt hdu ?_ pp perm
    rw [table_of_dir hdu hi, unmapAt_mem, store_mem_ne _ _ _ _ (h.dir_ne_table hd (htab.trans ht)),
      ht]

end

end Kernel.Tidy

end Jos
