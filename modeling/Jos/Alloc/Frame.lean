import Jos.Alloc.Inv

/-!
# What an update can reach

`Frame res E s s'` says that going from `s` to `s'` concerned the environments in `E` and nobody
else: the other environments are as they were, and so is every page that is reserved or that one of
them refers to.  It follows that they see the same page directories, page tables and pages, which
is what `Frame.target` says, and that makes `Frame` a preorder.
-/

set_option autoImplicit false

namespace Jos

open Kernel

/-- The environment a slot belongs to. -/
def Slot.env : Slot → EnvIndex
  | dir e => e
  | table e _ => e
  | page e _ _ => e

/-- The pages that only environments in `E` can notice. -/
def Private (res : Nat → Prop) (E : EnvIndex → Prop) (s : Kernel) (p : Nat) : Prop :=
  ¬ res p ∧ ∀ k, s.target k = some p → E k.env

/-- Only environments in `E` are concerned by going from `s` to `s'`. -/
structure Frame (res : Nat → Prop) (E : EnvIndex → Prop) (s s' : Kernel) : Prop where
  /-- Other environments are untouched, -/
  envs : ∀ e, ¬ E e → s'.envs e = s.envs e
  /-- and so is what they refer to. -/
  mem : ∀ p, ¬ Private res E s p → s'.mem p = s.mem p
  kernPgdir : s'.kernPgdir = s.kernPgdir
  npages : s'.npages = s.npages

variable {res : Nat → Prop} {E E' : EnvIndex → Prop} {fl : List Nat} {s s' s'' : Kernel}

/-- A page on the free list is nobody's. -/
theorem Inv.private_free (h : Inv res fl s) {p : Nat} (hp : p ∈ fl) : Private res E s p :=
  ⟨h.ok.free_res p hp, fun k hk => absurd hk (h.ok.free_unref p hp k)⟩

/-- A directory or page table belongs to one environment. -/
theorem Inv.private_node (h : Inv res fl s) {k : Slot} {p : Nat} (hn : k.IsNode)
    (hk : s.target k = some p) (hE : E k.env) : Private res E s p := by
  refine ⟨h.target_res hk, fun k' hk' => ?_⟩
  rw [h.ok.node_unique k p hn hk k' hk']
  exact hE

namespace Frame

theorem refl (res : Nat → Prop) (E : EnvIndex → Prop) (s : Kernel) : Frame res E s s :=
  ⟨fun _ _ => rfl, fun _ _ => rfl, rfl, rfl⟩

/-- The slots of the other environments hold what they held. -/
theorem target (h : Frame res E s s') {k : Slot} (hk : ¬ E k.env) : s'.target k = s.target k := by
  have hseen : ∀ {l : Slot} {p}, l.env = k.env → s.target l = some p → s'.mem p = s.mem p := by
    intro l p he hp
    exact h.mem p fun hpriv => hk (he ▸ hpriv.2 l hp)
  have hdir : ∀ {e}, e = k.env → s'.dir e = s.dir e := by
    rintro e rfl
    exact dir_congr (h.envs _ hk)
  have htable : ∀ {e i}, e = k.env → s'.table e i = s.table e i := by
    intro e i he
    by_cases hi : i.val < userPdes
    · cases hd : s.dir e with
      | none => rw [table_eq_none hd, table_eq_none ((hdir he).trans hd)]
      | some d =>
        rw [table_of_dir hd hi, table_of_dir ((hdir he).trans hd) hi,
          hseen (l := .dir e) he hd]
    · rw [Kernel.table, Kernel.table, if_neg hi, if_neg hi]
  cases k with
  | dir e => exact hdir rfl
  | table e i => exact htable rfl
  | page e i j =>
    have hte : s'.table e i = s.table e i := htable rfl
    show s'.leaf e i j = s.leaf e i j
    cases ht : s.table e i with
    | none => rw [leaf_eq_none ht, leaf_eq_none (hte.trans ht)]
    | some t =>
      rw [leaf_of_table ht, leaf_of_table (hte.trans ht),
        hseen (l := .table e i) rfl ht]

/-- So do their entries. -/
theorem entry (h : Frame res E s s') {e : EnvIndex} (he : ¬ E e) (i j : Index) :
    s'.entry e i j = s.entry e i j := by
  have htab : s'.table e i = s.table e i := h.target (k := .table e i) he
  cases ht : s.table e i with
  | none => rw [entry_of_none ht, entry_of_none (htab.trans ht)]
  | some t =>
    have hmem : s'.mem t = s.mem t := h.mem t fun hp => he (hp.2 (.table e i) ht)
    rw [entry_of_table ht, entry_of_table (htab.trans ht), hmem]

theorem private_of (h : Frame res E s s') {p : Nat} (hp : Private res E s' p) :
    Private res E s p := by
  refine ⟨hp.1, fun k hk => ?_⟩
  by_contra hne
  exact hne (hp.2 k ((h.target hne).trans hk))

theorem trans (h : Frame res E s s') (h' : Frame res E s' s'') : Frame res E s s'' where
  envs e he := (h'.envs e he).trans (h.envs e he)
  mem p hp := (h'.mem p fun hp' => hp (h.private_of hp')).trans (h.mem p hp)
  kernPgdir := h'.kernPgdir.trans h.kernPgdir
  npages := h'.npages.trans h.npages

theorem mono (h : Frame res E s s') (hE : ∀ e, E e → E' e) : Frame res E' s s' where
  envs e he := h.envs e fun h' => he (hE e h')
  mem p hp := h.mem p fun h' => hp ⟨h'.1, fun k hk => hE _ (h'.2 k hk)⟩
  kernPgdir := h.kernPgdir
  npages := h.npages

/-- An update that writes no memory and no environment concerns nobody. -/
theorem of_eq (hmem : s'.mem = s.mem) (henvs : s'.envs = s.envs)
    (hkern : s'.kernPgdir = s.kernPgdir) (hnp : s'.npages = s.npages) : Frame res E s s' :=
  ⟨fun _ _ => by rw [henvs], fun _ _ => by rw [hmem], hkern, hnp⟩

/-- An update that writes to one page only concerns those who refer to it. -/
theorem of_page {f : Nat} (hf : Private res E s f) (hmem : ∀ p, p ≠ f → s'.mem p = s.mem p)
    (henvs : s'.envs = s.envs) (hkern : s'.kernPgdir = s.kernPgdir)
    (hnp : s'.npages = s.npages) : Frame res E s s' := by
  refine ⟨fun _ _ => by rw [henvs], fun p hp => hmem p ?_, hkern, hnp⟩
  rintro rfl
  exact hp hf

end Frame

/-! ## What an environment sees -/

/-- Under the directory in page `d`, every address translates as before, and every byte below `UTOP`
reads as before. -/
structure SameView (s s' : Kernel) (d : Nat) : Prop where
  walk : ∀ va, s'.walk d va = s.walk d va
  translate : ∀ need va, s'.translate d need va = s.translate d need va
  byte : ∀ va f o, va < utop → s.translate d pteP va = some (f, o) →
    byteAt (s'.mem f) o = byteAt (s.mem f) o

/-- A page table of `e`, of the kernel, or the directory itself: its contents are in view. -/
theorem Frame.table_mem {e : EnvIndex} (hf : Frame res E s s') (h : Inv res fl s)
    (he : ¬ E e) {d : Nat} (hd : s.dir e = some d) {i : Index} {t : Nat}
    (ht : framed (s.mem d i) = some t) : s'.mem t = s.mem t := by
  refine hf.mem t fun hp => ?_
  by_cases hi : i.val < userPdes
  · exact he (hp.2 (.table e i) ((table_of_dir hd hi).trans ht))
  · by_cases hu : i = pdx uvpt
    · have hlt := Inv.lt_pow s (h.target_lt (k := .dir e) hd)
      rw [hu, h.dir_self e d hd, framed_entry hlt (by decide)] at ht
      exact he (hp.2 (.dir e) (hd.trans ht))
    · rw [h.dir_kern e d hd i hi hu] at ht
      exact hp.1 (h.kern_table i t hi hu ht)

theorem Frame.sameView {e : EnvIndex} (hf : Frame res E s s') (h : Inv res fl s)
    (he : ¬ E e) {d : Nat} (hd : s.dir e = some d) : SameView s s' d := by
  have hdir : s'.mem d = s.mem d := hf.mem d fun hp => he (hp.2 (.dir e) hd)
  refine ⟨fun va => ?_, fun need va => ?_, fun va f o hva htr => ?_⟩
  · rw [Kernel.walk, Kernel.walk, hdir]
    cases ht : framed (s.mem d (pdx va)) with
    | none => rfl
    | some t => simp only [Option.map_some, hf.table_mem h he hd ht]
  · rw [Kernel.translate, Kernel.translate, hdir]
    cases ht : framed (s.mem d (pdx va)) with
    | none => rfl
    | some t => simp only [Option.bind_some, hf.table_mem h he hd ht]
  · -- a mapped page is one that `e` refers to
    have hleaf : s.target (.page e (pdx va) (ptx va)) = some f := by
      rw [Kernel.translate] at htr
      split at htr
      · exact absurd htr (by simp)
      · obtain ⟨t, ht, htr⟩ := Option.bind_eq_some_iff.1 htr
        split at htr
        · exact absurd htr (by simp)
        · obtain ⟨g, hg, hfo⟩ := Option.map_eq_some_iff.1 htr
          obtain rfl : g = f := congrArg Prod.fst hfo
          have htab := table_of_dir hd ((lt_utop_iff va).1 hva)
          exact (leaf_of_table (htab.trans ht)).trans hg
    rw [hf.mem f fun hp => he (hp.2 _ hleaf)]

end Jos
