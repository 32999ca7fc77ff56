import Jos.Lib.Chain
import Jos.Lib.Ledger
import Jos.Pmap.Spec
import Mathlib.Tactic.DeriveFintype
import Mathlib.Data.Fintype.Sigma
import Mathlib.Data.Fintype.Sum

/-!
# The allocator invariant

The references the page allocator counts are of three kinds: the page directory of a live
environment, a user entry of such a directory (pointing at a page table), and an entry of such a
page table (pointing at a user's page).  `Slot` enumerates the places such a reference can sit, and
`Kernel.target` reads what each holds out of memory.  With the stored counts and the free list this
is a `Ledger`, and `Inv` is its accounting invariant together with what makes the reading stable:
directories and page tables are shared with nothing, so that a write to one of them changes the
slots of one environment and no others.

The second half of the file is that stability, one lemma for each kind of write.
-/

set_option autoImplicit false

namespace Jos

/-- A place that can hold a counted reference to a physical page. -/
inductive Slot where
  /-- `env_pgdir` of an environment. -/
  | dir (e : EnvIndex)
  /-- Entry `i` of its page directory. -/
  | table (e : EnvIndex) (i : Index)
  /-- Entry `j` of the page table at entry `i`. -/
  | page (e : EnvIndex) (i j : Index)
deriving DecidableEq, Fintype

/-- The slots whose page is a directory or a page table. -/
def Slot.IsNode : Slot → Prop
  | dir _ => True
  | table _ _ => True
  | page _ _ _ => False

namespace Kernel

/-- The page directory of a live environment. -/
def dir (s : Kernel) (e : EnvIndex) : Option Nat :=
  if (s.envs e).envStatus = .free then none else (s.envs e).envPgdir

/-- The page table at a user entry of a live environment's directory. -/
def table (s : Kernel) (e : EnvIndex) (i : Index) : Option Nat :=
  if i.val < userPdes then (s.dir e).bind fun d => framed (s.mem d i) else none

/-- The page mapped by entry `j` of that page table. -/
def leaf (s : Kernel) (e : EnvIndex) (i j : Index) : Option Nat :=
  (s.table e i).bind fun t => framed (s.mem t j)

/-- The entry itself: the word of the page table, or zero when there is no page table. -/
def entry (s : Kernel) (e : EnvIndex) (i j : Index) : Word :=
  match s.table e i with
  | some t => s.mem t j
  | none => 0#32

/-- Entries with one of them replaced. -/
def setEntry (f : EnvIndex → Index → Index → Word) (e : EnvIndex) (i j : Index) (w : Word) :
    EnvIndex → Index → Index → Word :=
  fun e' i' j' => if e' = e ∧ i' = i ∧ j' = j then w else f e' i' j'

/-- The counted references. -/
def target (s : Kernel) : Slot → Option Nat
  | .dir e => s.dir e
  | .table e i => s.table e i
  | .page e i j => s.leaf e i j

/-- The number of references to a page. -/
def refs (s : Kernel) (p : Nat) : Nat := Ledger.refs s.target p

/-- The `pp_ref` fields. -/
def counts (s : Kernel) : Nat → Nat := fun p => (s.pages p).ppRef.toNat

/-- The `pp_link` fields. -/
def links (s : Kernel) : Nat → Option Nat := fun p => (s.pages p).ppLink

/-- The accounts: references, counts, free list. -/
def ledger (s : Kernel) (fl : List Nat) : Ledger Slot Nat where
  target := s.target
  ref := s.counts
  free := fl

theorem table_eq_some {s : Kernel} {e : EnvIndex} {i : Index} {t : Nat} :
    s.table e i = some t ↔
      i.val < userPdes ∧ ∃ d, s.dir e = some d ∧ framed (s.mem d i) = some t := by
  rw [table]
  split
  · rename_i hi
    simp [hi, Option.bind_eq_some_iff]
  · rename_i hi
    simp [hi]

theorem leaf_eq_some {s : Kernel} {e : EnvIndex} {i j : Index} {p : Nat} :
    s.leaf e i j = some p ↔ ∃ t, s.table e i = some t ∧ framed (s.mem t j) = some p := by
  rw [leaf, Option.bind_eq_some_iff]

theorem table_of_dir {s : Kernel} {e : EnvIndex} {i : Index} {d : Nat} (hd : s.dir e = some d)
    (hi : i.val < userPdes) : s.table e i = framed (s.mem d i) := by
  rw [table, if_pos hi, hd, Option.bind_some]

theorem leaf_of_table {s : Kernel} {e : EnvIndex} {i j : Index} {t : Nat}
    (ht : s.table e i = some t) : s.leaf e i j = framed (s.mem t j) := by
  rw [leaf, ht, Option.bind_some]

theorem entry_of_table {s : Kernel} {e : EnvIndex} {i : Index} {t : Nat}
    (ht : s.table e i = some t) (j : Index) : s.entry e i j = s.mem t j := by
  rw [entry, ht]

theorem entry_of_none {s : Kernel} {e : EnvIndex} {i : Index} (ht : s.table e i = none)
    (j : Index) : s.entry e i j = 0#32 := by
  rw [entry, ht]

theorem leaf_eq_framed (s : Kernel) (e : EnvIndex) (i j : Index) :
    s.leaf e i j = framed (s.entry e i j) := by
  cases ht : s.table e i with
  | none => rw [leaf, ht, entry_of_none ht, framed_zero, Option.bind_none]
  | some t => rw [leaf_of_table ht, entry_of_table ht]

theorem setEntry_self (f : EnvIndex → Index → Index → Word) (e : EnvIndex) (i j : Index)
    (w : Word) : setEntry f e i j w e i j = w := if_pos ⟨rfl, rfl, rfl⟩

/-- The slots, when only an entry changes. -/
theorem target_setEntry {s s' : Kernel} {e : EnvIndex} {i j : Index} {w : Word}
    (hdir : ∀ e, s'.dir e = s.dir e) (htable : ∀ e i, s'.table e i = s.table e i)
    (hentry : s'.entry = setEntry s.entry e i j w) :
    s'.target = Function.update s.target (.page e i j) (framed w) := by
  funext k
  cases k with
  | dir e' => rw [Function.update_of_ne (by simp)]; exact hdir e'
  | table e' i' => rw [Function.update_of_ne (by simp)]; exact htable e' i'
  | page e' i' j' =>
    show s'.leaf e' i' j' = _
    rw [leaf_eq_framed, hentry, setEntry]
    by_cases hk : e' = e ∧ i' = i ∧ j' = j
    · obtain ⟨rfl, rfl, rfl⟩ := hk
      rw [if_pos ⟨rfl, rfl, rfl⟩, Function.update_self]
    · rw [if_neg hk, Function.update_of_ne (by simpa using hk), ← leaf_eq_framed]
      rfl

theorem live_of_dir {s : Kernel} {e : EnvIndex} {d : Nat} (hd : s.dir e = some d) :
    (s.envs e).envStatus ≠ .free := by
  intro hf
  rw [dir, if_pos hf] at hd
  exact absurd hd (by simp)

theorem envPgdir_of_dir {s : Kernel} {e : EnvIndex} {d : Nat} (hd : s.dir e = some d) :
    (s.envs e).envPgdir = some d := by
  rwa [dir, if_neg (live_of_dir hd)] at hd

theorem table_eq_none {s : Kernel} {e : EnvIndex} (hd : s.dir e = none) (i : Index) :
    s.table e i = none := by
  rw [table, hd]
  split <;> rfl

theorem leaf_eq_none {s : Kernel} {e : EnvIndex} {i : Index} (ht : s.table e i = none)
    (j : Index) : s.leaf e i j = none := by
  rw [leaf, ht, Option.bind_none]

/-- What `dir` reads: the environments' statuses and directories. -/
theorem dir_congr {s s' : Kernel} {e : EnvIndex} (h : s'.envs e = s.envs e) :
    s'.dir e = s.dir e := by
  rw [dir, dir, h]

/-- What `target` reads: the directories, their user entries, and the page tables. -/
theorem target_congr {s s' : Kernel} (hdir : ∀ e, s'.dir e = s.dir e)
    (hpde : ∀ e d, s.dir e = some d → ∀ i : Index, i.val < userPdes → s'.mem d i = s.mem d i)
    (hpte : ∀ e i t, s.table e i = some t → s'.mem t = s.mem t) : s'.target = s.target := by
  have htable : ∀ e i, s'.table e i = s.table e i := by
    intro e i
    by_cases hi : i.val < userPdes
    · cases hd : s.dir e with
      | none => rw [table_eq_none hd, table_eq_none ((hdir _).trans hd)]
      | some d =>
        rw [table_of_dir hd hi, table_of_dir ((hdir e).trans hd) hi, hpde e d hd i hi]
    · rw [table, table, if_neg hi, if_neg hi]
  funext k
  cases k with
  | dir e => exact hdir e
  | table e i => exact htable e i
  | page e i j =>
    show s'.leaf e i j = s.leaf e i j
    cases ht : s.table e i with
    | none => rw [leaf_eq_none ht, leaf_eq_none ((htable _ _).trans ht)]
    | some t => rw [leaf_of_table ht, leaf_of_table ((htable e i).trans ht), hpte e i t ht]

end Kernel

open Kernel

/-- The allocator invariant.  `res` are the pages kept out of the accounting: those reserved at
boot, and all numbers beyond the end of memory; `fl` is the free list. -/
structure Inv (res : Nat → Prop) (fl : List Nat) (s : Kernel) : Prop where
  /-- `page_free_list` leads through exactly `fl`. -/
  chain : Chain s.links s.pageFreeList fl
  /-- The accounts are in order. -/
  ok : (s.ledger fl).Ok Slot.IsNode res
  /-- There are no pages beyond the end of memory. -/
  res_ge : ∀ p, s.npages ≤ p → res p
  /-- An absent user entry of a directory is zero. -/
  zero_pde : ∀ e d, s.dir e = some d → ∀ i : Index, i.val < userPdes →
    framed (s.mem d i) = none → s.mem d i = 0#32
  /-- An absent entry of a page table is zero. -/
  zero_pte : ∀ e i t, s.table e i = some t → ∀ j, framed (s.mem t j) = none → s.mem t j = 0#32
  /-- A live environment has a page directory. -/
  live_dir : ∀ e, (s.envs e).envStatus ≠ .free → ∃ d, (s.envs e).envPgdir = some d
  /-- The kernel's directory is reserved. -/
  kern_res : res s.kernPgdir
  /-- The kernel's directory maps no user memory. -/
  kern_user : ∀ i : Index, i.val < userPdes → s.mem s.kernPgdir i = 0#32
  /-- The kernel's page tables are reserved. -/
  kern_table : ∀ (i : Index) t, ¬ i.val < userPdes → i ≠ pdx uvpt →
    framed (s.mem s.kernPgdir i) = some t → res t
  /-- Above `UTOP` every directory is the kernel's, -/
  dir_kern : ∀ e d, s.dir e = some d → ∀ i : Index, ¬ i.val < userPdes → i ≠ pdx uvpt →
    s.mem d i = s.mem s.kernPgdir i
  /-- except that at `UVPT` it maps itself. -/
  dir_self : ∀ e d, s.dir e = some d → s.mem d (pdx uvpt) = page2pa d ||| pteP ||| pteU
  /-- `env_free_list` leads through exactly the free environments. -/
  env_list : ∃ el, Chain (fun e => (s.envs e).envLink) s.envFreeList el ∧
    ∀ e, e ∈ el ↔ (s.envs e).envStatus = .free

namespace Inv

variable {res : Nat → Prop} {fl : List Nat} {s : Kernel}

theorem target_res (h : Inv res fl s) {k : Slot} {p : Nat} (hk : s.target k = some p) : ¬ res p :=
  h.ok.target_res k p hk

theorem lt_of_not_res (h : Inv res fl s) {p : Nat} (hp : ¬ res p) : p < s.npages := by
  by_contra hge
  exact hp (h.res_ge p (Nat.not_lt.1 hge))

theorem target_lt (h : Inv res fl s) {k : Slot} {p : Nat} (hk : s.target k = some p) :
    p < s.npages :=
  h.lt_of_not_res (h.target_res hk)

theorem free_lt (h : Inv res fl s) {p : Nat} (hp : p ∈ fl) : p < s.npages :=
  h.lt_of_not_res (h.ok.free_res p hp)

theorem lt_pow (s : Kernel) {p : Nat} (h : p < s.npages) : p < 2 ^ 20 :=
  Nat.lt_of_lt_of_le h s.npagesLe

/-- A free page is no slot's page. -/
theorem free_ne (h : Inv res fl s) {p q : Nat} {k : Slot} (hp : p ∈ fl) (hk : s.target k = some q) :
    q ≠ p := by
  rintro rfl
  exact h.ok.free_unref q hp k hk

/-- What a node holds, no other slot holds. -/
theorem node_ne (h : Inv res fl s) {k l : Slot} {p q : Nat} (hn : k.IsNode)
    (hk : s.target k = some p) (hl : s.target l = some q) (hne : l ≠ k) : q ≠ p := by
  rintro rfl
  exact hne (h.ok.node_unique k q hn hk l hl)

theorem kern_ne (h : Inv res fl s) {k : Slot} {p : Nat} (hk : s.target k = some p) :
    s.kernPgdir ≠ p := by
  rintro rfl
  exact h.target_res hk h.kern_res

/-- The user entries of a live directory, through the kernel's walk. -/
theorem dir_isSome (h : Inv res fl s) {e : EnvIndex} (he : (s.envs e).envStatus ≠ .free) :
    ∃ d, s.dir e = some d ∧ (s.envs e).envPgdir = some d := by
  obtain ⟨d, hd⟩ := h.live_dir e he
  exact ⟨d, by rw [dir, if_neg he, hd], hd⟩

/-! ## Writes, and the slots they change -/

/-- A page no node holds can be overwritten freely. -/
theorem target_fill (_ : Inv res fl s) {p : Nat} (hp : ∀ k, k.IsNode → s.target k ≠ some p)
    (pg : Page) : (s.fill p pg).target = s.target := by
  refine target_congr (fun e => rfl) (fun e d hd i _ => ?_) fun e i t ht => ?_
  · have hne : d ≠ p := fun hdp => hp (.dir e) trivial (hdp ▸ hd)
    rw [fill_mem_ne _ _ _ hne]
  · have hne : t ≠ p := fun htp => hp (.table e i) trivial (htp ▸ ht)
    rw [fill_mem_ne _ _ _ hne]

theorem table_store_leaf (h : Inv res fl s) {e : EnvIndex} {i : Index} {t : Nat}
    (ht : s.table e i = some t) (j : Index) (w : Word) (e' : EnvIndex) (i' : Index) :
    (s.store t j w).table e' i' = s.table e' i' := by
  have hdir : (s.store t j w).dir e' = s.dir e' := rfl
  by_cases hi : i'.val < userPdes
  · cases hd : s.dir e' with
    | none => rw [table_eq_none hd, table_eq_none (hdir.trans hd)]
    | some d =>
      have hne : d ≠ t := h.node_ne (k := .table e i) (l := .dir e') trivial ht hd (by simp)
      rw [table_of_dir hd hi, table_of_dir (hdir.trans hd) hi, store_mem_ne _ _ _ _ hne]
  · rw [table, table, if_neg hi, if_neg hi]

/-- Writing an entry of a page table changes that one entry. -/
theorem entry_store_leaf (h : Inv res fl s) {e : EnvIndex} {i : Index} {t : Nat}
    (ht : s.table e i = some t) (j : Index) (w : Word) :
    (s.store t j w).entry = setEntry s.entry e i j w := by
  funext e' i' j'
  have htab := h.table_store_leaf ht j w e' i'
  rw [setEntry]
  cases ht' : s.table e' i' with
  | none =>
    have hne : ¬ (e' = e ∧ i' = i ∧ j' = j) := by
      rintro ⟨rfl, rfl, -⟩
      exact absurd (ht'.symm.trans ht) (by simp)
    rw [if_neg hne, entry_of_none ht', entry_of_none (htab.trans ht')]
  | some t' =>
    rw [entry_of_table ht', entry_of_table (htab.trans ht')]
    by_cases hk : e' = e ∧ i' = i
    · obtain ⟨rfl, rfl⟩ := hk
      obtain rfl : t' = t := Option.some_inj.1 (ht'.symm.trans ht)
      by_cases hj : j' = j
      · subst hj
        rw [store_mem_self, if_pos ⟨rfl, rfl, rfl⟩]
      · rw [store_mem_idx _ _ _ _ hj, if_neg fun hk => hj hk.2.2]
    · have hne : t' ≠ t := h.node_ne (k := .table e i) (l := .table e' i') trivial ht ht'
        (by simp; tauto)
      rw [store_mem_ne _ _ _ _ hne, if_neg fun hk' => hk ⟨hk'.1, hk'.2.1⟩]

/-- Writing an entry of a page table changes that one slot. -/
theorem target_store_leaf (h : Inv res fl s) {e : EnvIndex} {i : Index} {t : Nat}
    (ht : s.table e i = some t) (j : Index) (w : Word) :
    (s.store t j w).target = Function.update s.target (.page e i j) (framed w) :=
  target_setEntry (fun _ => rfl) (h.table_store_leaf ht j w) (h.entry_store_leaf ht j w)

/-- Writing a user entry of a directory changes that slot and, through it, the slots of the page
table.  When the old and the new page table map nothing, only the one slot changes. -/
theorem target_store_pde (h : Inv res fl s) {e : EnvIndex} {d : Nat} (hd : s.dir e = some d)
    {i : Index} (hi : i.val < userPdes) (w : Word) (hold : ∀ j, s.leaf e i j = none)
    (hnew : ∀ t, framed w = some t → t ≠ d ∧ ∀ j, framed (s.mem t j) = none) :
    (s.store d i w).target = Function.update s.target (.table e i) (framed w) := by
  have hdir : ∀ e', (s.store d i w).dir e' = s.dir e' := fun e' => rfl
  have hne : ∀ e' d', s.dir e' = some d' → e' ≠ e → d' ≠ d := fun e' d' hd' hee =>
    h.node_ne (k := .dir e) (l := .dir e') trivial hd hd' (by simp [hee])
  have htable : ∀ e' i', ¬ (e' = e ∧ i' = i) → (s.store d i w).table e' i' = s.table e' i' := by
    intro e' i' hk
    by_cases hi' : i'.val < userPdes
    · cases hd' : s.dir e' with
      | none => rw [table_eq_none hd', table_eq_none ((hdir _).trans hd')]
      | some d' =>
        rw [table_of_dir hd' hi', table_of_dir ((hdir e').trans hd') hi']
        by_cases hee : e' = e
        · obtain rfl : d' = d := by subst hee; exact Option.some_inj.1 (hd'.symm.trans hd)
          rw [store_mem_idx _ _ _ _ fun hii => hk ⟨hee, hii⟩]
        · rw [store_mem_ne _ _ _ _ (hne e' d' hd' hee)]
    · rw [table, table, if_neg hi', if_neg hi']
  have hself : (s.store d i w).table e i = framed w := by
    rw [table_of_dir ((hdir e).trans hd) hi, store_mem_self]
  funext k
  cases k with
  | dir e' => rw [Function.update_of_ne (by simp)]; exact hdir e'
  | table e' i' =>
    by_cases hk : e' = e ∧ i' = i
    · obtain ⟨rfl, rfl⟩ := hk
      rw [Function.update_self]
      exact hself
    · rw [Function.update_of_ne (by simp; tauto)]
      exact htable e' i' hk
  | page e' i' j' =>
    rw [Function.update_of_ne (by simp)]
    show (s.store d i w).leaf e' i' j' = s.leaf e' i' j'
    by_cases hk : e' = e ∧ i' = i
    · obtain ⟨rfl, rfl⟩ := hk
      rw [hold]
      cases hw : framed w with
      | none => rw [leaf_eq_none (hself.trans hw)]
      | some t =>
        obtain ⟨htd, htz⟩ := hnew t hw
        rw [leaf_of_table (hself.trans hw), store_mem_ne _ _ _ _ htd, htz]
    · cases ht' : s.table e' i' with
      | none => rw [leaf_eq_none ht', leaf_eq_none ((htable e' i' hk).trans ht')]
      | some t' =>
        have hne' : t' ≠ d := h.node_ne (k := .dir e) (l := .table e' i') trivial hd ht' (by simp)
        rw [leaf_of_table ht', leaf_of_table ((htable e' i' hk).trans ht'),
          store_mem_ne _ _ _ _ hne']

end Inv

/-! ## A machine that satisfies it -/

/-- One running environment, which has mapped nothing yet, and two free pages. -/
def oneEnv : Kernel where
  npages := 4
  npagesLe := by decide
  kernPgdir := 0
  pages := fun p => ⟨if p = 2 then some 3 else none, if p = 1 then 1#16 else 0#16⟩
  pageFreeList := some 2
  mem := fun p i => if p = 1 ∧ i = pdx uvpt then page2pa 1 ||| pteP ||| pteU else 0#32
  envs := fun e =>
    if e = 0 then
      ⟨Trapframe.zero, none, 4096#32, 0#32, .user, .running, 1#32, 0, some 1, 0#32, false⟩
    else
      ⟨Trapframe.zero, if e = 1023 then none else some (e + 1), 0#32, 0#32, .user, .free, 0#32, 0,
        none, 0#32, false⟩
  envFreeList := some 1
  cpus := fun c => if c = 0 then ⟨.started, some 0⟩ else ⟨.unused, none⟩
  cpunum := 0
  cr3 := fun _ => 1
  tlb := fun _ _ => []
  cr2 := 0#32
  userMemCheckAddr := 0#32
  consIn := 0#32
  consOut := []

theorem oneEnv_chain (n i : Nat) (hi : i + n = 1023) (h0 : 0 < i) :
    Chain (fun e => (oneEnv.envs e).envLink) (some (Fin.ofNat 1024 i)) (indicesFrom i (n + 1)) := by
  have hne : ∀ i, i < 1024 → 0 < i → Fin.ofNat 1024 i ≠ 0 := by
    intro i hlt h0 h
    have := congrArg Fin.val h
    simp [Nat.mod_eq_of_lt hlt] at this
    omega
  induction n generalizing i with
  | zero =>
    obtain rfl : i = 1023 := by omega
    exact ⟨rfl, rfl⟩
  | succ n ih =>
    refine ⟨rfl, ?_⟩
    have hlast : Fin.ofNat 1024 i ≠ 1023 := by
      intro h
      have := congrArg Fin.val h
      simp [Nat.mod_eq_of_lt (show i < 1024 by omega)] at this
      omega
    have hnext : Fin.ofNat 1024 i + 1 = Fin.ofNat 1024 (i + 1) := by
      apply Fin.ext
      simp [Fin.val_add]
    have hlink : (oneEnv.envs (Fin.ofNat 1024 i)).envLink = some (Fin.ofNat 1024 (i + 1)) := by
      rw [oneEnv]
      simp only [if_neg (hne i (by omega) h0), if_neg hlast, hnext]
    show Chain _ (oneEnv.envs (Fin.ofNat 1024 i)).envLink (indicesFrom (i + 1) (n + 1))
    rw [hlink]
    exact ih (i + 1) (by omega) (by omega)

theorem oneEnv_target (k : Slot) : oneEnv.target k = if k = .dir 0 then some 1 else none := by
  have hdir : ∀ e, oneEnv.dir e = if e = 0 then some 1 else none := by
    intro e
    by_cases he : e = 0
    · simp [he, dir, oneEnv]
    · simp [he, dir, oneEnv]
  have htab : ∀ e i, oneEnv.table e i = none := by
    intro e i
    by_cases hi : i.val < userPdes
    · by_cases he : e = 0
      · have hne : i ≠ pdx uvpt := by
          rintro rfl
          exact absurd hi (by decide)
        rw [table_of_dir (d := 1) (by rw [hdir, if_pos he]) hi]
        simp [oneEnv, hne, framed_zero]
      · exact table_eq_none (by rw [hdir, if_neg he]) i
    · rw [table, if_neg hi]
  cases k with
  | dir e => simp [target, hdir]
  | table e i => simp [target, htab]
  | page e i j => simp [target, leaf_eq_none (htab e i)]

/-- The pages it keeps out of the accounting: that of the kernel's directory. -/
def oneEnvRes (p : Nat) : Prop := p = 0 ∨ 4 ≤ p

theorem oneEnv_ok : (oneEnv.ledger [2, 3]).Ok Slot.IsNode oneEnvRes := by
  have htgt : ∀ k p, oneEnv.target k = some p → k = .dir 0 ∧ p = 1 := by
    intro k p hk
    rw [oneEnv_target] at hk
    split at hk
    · rename_i h0
      exact ⟨h0, (Option.some_inj.1 hk).symm⟩
    · exact absurd hk (by simp)
  refine ⟨by decide, fun p hp k hk => ?_, fun p hp => ?_, fun k p hk => ?_, fun p hp => ?_,
    fun k p _ hk k' hk' => ?_⟩
  · obtain ⟨-, rfl⟩ := htgt k p hk
    exact absurd hp (by decide)
  · rcases List.mem_cons.1 hp with rfl | hp
    · simp [oneEnvRes]
    · obtain rfl := List.mem_singleton.1 hp
      simp [oneEnvRes]
  · obtain ⟨-, rfl⟩ := htgt k p hk
    simp [oneEnvRes]
  · show oneEnv.counts p = Ledger.refs oneEnv.target p
    by_cases h1 : p = 1
    · subst h1
      rw [Ledger.refs_eq_one (k := .dir 0) (by simp [oneEnv_target]) fun k hk => (htgt k 1 hk).1]
      rfl
    · rw [Ledger.refs_eq_zero_iff.2 fun k hk => h1 (htgt k p hk).2]
      simp [counts, oneEnv, h1]
  · rw [(htgt k p hk).1, (htgt k' p hk').1]

theorem oneEnv_inv : Inv oneEnvRes [2, 3] oneEnv := by
  have hdir : ∀ {e d}, oneEnv.dir e = some d → d = 1 := by
    intro e d hd
    have h : oneEnv.target (.dir e) = some d := hd
    rw [oneEnv_target] at h
    split at h
    · exact (Option.some_inj.1 h).symm
    · exact absurd h (by simp)
  have htab : ∀ e i, oneEnv.table e i = none := fun e i => by
    have h := oneEnv_target (.table e i)
    rwa [if_neg (by simp)] at h
  refine
    { chain := ⟨rfl, rfl, rfl⟩
      ok := oneEnv_ok
      res_ge := fun p hp => Or.inr hp
      zero_pde := fun e d hd i hi _ => ?_
      zero_pte := fun e i t ht => absurd (ht.symm.trans (htab e i)) (by simp)
      live_dir := fun e he => ?_
      kern_res := Or.inl rfl
      kern_user := fun i _ => by simp [oneEnv]
      kern_table := fun i t _ _ ht => absurd ht (by simp [oneEnv, framed_zero])
      dir_kern := fun e d hd i _ hne => by simp [oneEnv, hne]
      dir_self := fun e d hd => by rw [hdir hd]; simp [oneEnv]
      env_list := ⟨indicesFrom 1 1023, oneEnv_chain 1022 1 rfl (by decide), fun e => ?_⟩ }
  · have hne : i ≠ pdx uvpt := by
      rintro rfl
      exact absurd hi (by decide)
    simp [oneEnv, hne]
  · by_cases h0 : e = 0
    · exact ⟨1, by simp [oneEnv, h0]⟩
    · simp [oneEnv, h0] at he
  · by_cases h0 : e = 0
    · subst h0
      have hnot : ∀ (n i : Nat), 0 < i → i + n ≤ 1024 → (0 : Fin 1024) ∉ indicesFrom i n := by
        intro n
        induction n with
        | zero => intro i _ _ h; exact absurd h (by simp [indicesFrom])
        | succ n ih =>
          intro i hi hn h
          rcases List.mem_cons.1 h with h | h
          · have := congrArg Fin.val h
            simp [Nat.mod_eq_of_lt (show i < 1024 by omega)] at this
            omega
          · exact ih (i + 1) (by omega) (by omega) h
      exact ⟨fun h => absurd h (hnot 1023 1 (by decide) (by decide)),
        fun h => absurd h (by simp [oneEnv])⟩
    · have hpos : 0 < e.val := by
        rcases Nat.eq_zero_or_pos e.val with h | h
        · exact absurd (Fin.ext h) h0
        · exact h
      exact ⟨fun _ => by simp [oneEnv, h0], fun _ =>
        mem_indicesFrom hpos (by have := e.isLt; omega)⟩

theorem roomy_npages (n : Fin 64) : n.val + 2 ≤ 2 ^ 20 := by omega

/-- One running environment that maps nothing yet, and `n` free pages. -/
def roomy (n : Fin 64) : Kernel :=
  { oneEnv with
    npages := n.val + 2
    npagesLe := roomy_npages n
    pages := fun p => ⟨if 2 ≤ p ∧ p ≤ n.val then some (p + 1) else none,
      if p = 1 then 1#16 else 0#16⟩
    pageFreeList := if n = 0 then none else some 2 }

/-- The pages it keeps out of the accounting. -/
def roomyRes (n : Fin 64) (p : Nat) : Prop := p = 0 ∨ n.val + 2 ≤ p

theorem roomy_chain (n : Fin 64) (k p : Nat) (hp : 2 ≤ p) (hk : p + k = n.val + 2) :
    Chain (roomy n).links (if k = 0 then none else some p) (List.range' p k) := by
  induction k generalizing p with
  | zero => exact rfl
  | succ k ih =>
    refine ⟨rfl, ?_⟩
    have hlink : (roomy n).links p = if k = 0 then none else some (p + 1) := by
      show (if 2 ≤ p ∧ p ≤ n.val then some (p + 1) else none) = _
      by_cases hk0 : k = 0
      · rw [if_neg (by omega), if_pos hk0]
      · rw [if_pos (by omega), if_neg hk0]
    rw [hlink]
    exact ih (p + 1) (by omega) (by omega)

theorem roomy_inv (n : Fin 64) : Inv (roomyRes n) (List.range' 2 n.val) (roomy n) := by
  have htgt : ∀ k p, (roomy n).target k = some p → k = .dir 0 ∧ p = 1 := by
    intro k p hk
    have hk' : oneEnv.target k = some p := hk
    rw [oneEnv_target] at hk'
    split at hk'
    · next h0 => exact ⟨h0, (Option.some_inj.1 hk').symm⟩
    · exact absurd hk' (by simp)
  have hfree : ∀ p ∈ List.range' 2 n.val, 2 ≤ p ∧ p < n.val + 2 := fun p hp => by
    have hmem := List.mem_range'_1.1 hp
    omega
  have h1 : ¬ roomyRes n 1 := by
    rw [roomyRes]
    omega
  refine
    { oneEnv_inv with
      chain := ?_
      ok := ⟨List.nodup_range', fun p hp k hk => ?_, fun p hp => ?_, fun k p hk => ?_,
        fun p _ => ?_, fun k p _ hk k' hk' => ?_⟩
      res_ge := fun p hp => Or.inr hp
      kern_res := Or.inl rfl
      kern_table := fun i t hi hne ht => ?_ }
  · have hchain := roomy_chain n n.val 2 (Nat.le_refl 2) (Nat.add_comm ..)
    have hhead : (roomy n).pageFreeList = if n.val = 0 then none else some 2 :=
      if_congr (Fin.ext_iff) rfl rfl
    rwa [← hhead] at hchain
  · obtain ⟨-, rfl⟩ := htgt k p hk
    exact absurd (hfree 1 hp).1 (by decide)
  · have hbounds := hfree p hp
    rw [roomyRes]
    omega
  · obtain ⟨-, rfl⟩ := htgt k p hk
    exact h1
  · show (roomy n).counts p = Ledger.refs (roomy n).target p
    by_cases hp : p = 1
    · subst hp
      rw [Ledger.refs_eq_one (k := .dir 0) (oneEnv_target (.dir 0)) fun k hk => (htgt k 1 hk).1]
      rfl
    · rw [Ledger.refs_eq_zero_iff.2 fun k hk => hp (htgt k p hk).2]
      show (if p = 1 then 1#16 else 0#16).toNat = 0
      rw [if_neg hp]
      rfl
  · rw [(htgt k p hk).1, (htgt k' p hk').1]
  · exact absurd ht (by
      show framed ((roomy n).mem 0 i) ≠ some t
      exact fun hh => absurd hh (by simp [roomy, oneEnv, framed_zero]))

end Jos
