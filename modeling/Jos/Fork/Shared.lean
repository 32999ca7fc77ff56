import Jos.Fork.Cow
import Jos.Fork.Lineage

/-!
# Shared pages

`sfork` maps the parent's pages into the child with the flags that they have, all but the stack.
What can be written to is written to for both from then on.  But a page that is copy-on-write stays
so: the first of the two to store there gets a page of its own from `pgfault`, and the other one
does not see what is stored.

`sfork_shares` says that all other pages are shared.
-/

set_option autoImplicit false

namespace Jos

open Kernel Command

variable {res : Nat → Prop} {fl fl₀ fl' : List Nat} {s s' s₀ s₁ s₂ : Kernel} {e x y c : EnvIndex}
variable {d dc f g p q : Nat} {va va' w r : Word} {i j : Index} {b b' : Byte} {prog : Program}
variable {l l₁ l₂ : List (Word × Byte)}

/-- From `s₁` on, `e` and `c` load and store; `l` is what they store. -/
inductive PairRun (s₁ : Kernel) (e c : EnvIndex) : List (Word × Byte) → Kernel → Prop where
  | start : PairRun s₁ e c [] s₁
  /-- It is somebody's turn. -/
  | switch {l : List (Word × Byte)} {s s' : Kernel} {x : EnvIndex} (h : PairRun s₁ e c l s)
      (hx : x = e ∨ x = c) (hst : (s.envs x).envStatus = .runnable ∨
        s.curenv = some x ∧ (s.envs x).envStatus = .running)
      (hrun : (envRun x).run s = .error .popTf s') : PairRun s₁ e c l s'
  | load {l : List (Word × Byte)} {s s' : Kernel} {va : Word} {b : Byte} (h : PairRun s₁ e c l s)
      (hrun : (uloadByte va).run s = .ok b s') : PairRun s₁ e c l s'
  | store {l : List (Word × Byte)} {s s' : Kernel} {va : Word} {b : Byte} (h : PairRun s₁ e c l s)
      (hva : va < utop)
      (hrun : (storeHandled va fun pg o => setByte pg o b).run s = .ok () s') :
      PairRun s₁ e c (l ++ [(va, b)]) s'

/-- A store at `va'` changes what is at `va`. -/
def Kernel.Meets (s₁ : Kernel) (e c : EnvIndex) (va va' : Word) : Prop :=
  pgoff va' = pgoff va ∧ ∃ x, (x = e ∨ x = c) ∧
    s₁.leaf x (pdx va') (ptx va') = s₁.leaf e (pdx va) (ptx va)

/-- What either of `e` and `c` stores at `va` is what both of them load from then on. -/
def Kernel.Shares (s₁ : Kernel) (e c : EnvIndex) (va : Word) : Prop :=
  ∀ l l₁ l₂ b s, PairRun s₁ e c l s → l = l₁ ++ (va, b) :: l₂ →
    (∀ ev ∈ l₂, ¬ s₁.Meets e c va ev.1) → (uloadByte va).run s = .ok b s

/-- A page that is not copy-on-write, or that can be written to nevertheless. -/
def Kernel.Shareable (s : Kernel) (e : EnvIndex) (i j : Index) : Prop :=
  s.entry e i j &&& pteCow = 0#32 ∨ s.entry e i j &&& pteW ≠ 0#32

/-- The pages that `sfork` means to share. -/
def sharedRange : Set (Index × Index) := {x | x ∈ forkRange ∧ x ≠ stackIdx}

/-! ## After `sfork` -/

/-- `sfork` returns the id of a child. -/
theorem sfork_born (h : Running res fl s e d) (hroom : s.RoomIn e forkRange)
    (hstack : s.leaf e stackIdx.1 stackIdx.2 ≠ none) (hrun : (sfork prog).run s = .ok r s')
    (hr : 0 < r.toInt) : ∃ fl₀ s₀ dc g, Handled res fl s e d prog fl₀ s₀ ∧
      Born res fl₀ s₀ e (envx r) d dc g (sforkPerm s₀ e) ({stackIdx} ∩ s₀.cowPages e) s' := by
  have hentry : ∀ u u' : Kernel, (∀ i j, u'.entry e i j = u.entry e i j) →
      sforkPerm u' e = sforkPerm u e ∧ {stackIdx} ∩ u'.cowPages e = {stackIdx} ∩ u.cowPages e := by
    intro u u' hsame
    refine ⟨?_, by rw [cowPages_congr hsame]⟩
    funext i j
    rw [sforkPerm, sforkPerm, hsame]
  obtain ⟨fl₀, s₀, hh, hend⟩ := forkWith_run (fun u => sforkPerm u e)
    (fun u => {stackIdx} ∩ u.cowPages e) h hroom hentry
    (fun u fl₁ c p cid hb hu i j t hij ht => sforkPage_step hb (hu ▸ hstack) hij ht) hrun
  obtain ⟨dc, g, hb⟩ := hend.child hr
  exact ⟨fl₀, s₀, dc, g, hh, hb⟩

/-- The flags that decide what can be done with a page. -/
def pageFlags : Word := pteU ||| pteW ||| pteCow

/-- Page `i`, `j` is mapped in `c` as it is in `e`. -/
structure Twin (s : Kernel) (e c : EnvIndex) (i j : Index) : Prop where
  leaf : s.leaf c i j = s.leaf e i j
  flags : s.entry c i j &&& pageFlags = s.entry e i j &&& pageFlags

theorem Twin.and (h : Twin s e c i j) {m : Word} (hm : pageFlags &&& m = m) :
    s.entry c i j &&& m = s.entry e i j &&& m := by
  rw [← hm, ← BitVec.and_assoc, h.flags, BitVec.and_assoc]

theorem Twin.refl (s : Kernel) (e : EnvIndex) (i j : Index) : Twin s e e i j := ⟨rfl, rfl⟩

theorem and_userRead_iff (hp : framed w = some p) :
    w &&& userRead = userRead ↔ w &&& pteU = pteU := by
  have hpres : w &&& pteP = pteP := by
    have hpow : pteP = BitVec.twoPow 32 0 := by decide
    have hne := (framed_eq_some.1 hp).1
    rw [hpow, BitVec.and_twoPow] at hne ⊢
    split_ifs at hne ⊢
    · rfl
    · exact absurd rfl hne
  have hsplit : userRead = pteP ||| pteU := by decide
  have hsub : userRead &&& pteU = pteU := by decide
  constructor
  · intro hread
    rw [← hsub, ← BitVec.and_assoc, hread]
  · intro hu
    rw [hsplit, BitVec.and_or_distrib_left, hpres, hu]

theorem Twin.read (h : Twin s e c i j) (hp : s.leaf e i j = some p) :
    s.entry c i j &&& userRead = userRead ↔ s.entry e i j &&& userRead = userRead := by
  rw [and_userRead_iff ((leaf_eq_framed s c i j).symm.trans (h.leaf.trans hp)),
    and_userRead_iff ((leaf_eq_framed s e i j).symm.trans hp), h.and (by decide)]

/-- What is not mapped has no flags. -/
theorem Inv.entry_zero (h : Inv res fl s) (hn : s.leaf e i j = none) : s.entry e i j = 0#32 := by
  cases ht : s.table e i with
  | none => exact entry_of_none ht j
  | some t =>
    rw [entry_of_table ht]
    exact h.zero_pte e i t ht j ((leaf_of_table ht).symm.trans hn)

section

variable (hb : Born res fl s e c d dc g (sforkPerm s e) ({stackIdx} ∩ s.cowPages e) s')
include hb

/-- The parent's pages stay as they are, -/
theorem Born.entry_shared (hij : (i, j) ∈ sharedRange) : s'.entry e i j = s.entry e i j :=
  hb.same i j (fun hh => hij.2 hh.2.1) (pftemp_out hij.1)

/-- and the child has them, too. -/
theorem Born.twin (hinv : Inv res fl s) (hij : (i, j) ∈ sharedRange) : Twin s' e c i j := by
  have hsame := hb.entry_shared hij
  have hleaf : s'.leaf e i j = s.leaf e i j := by
    rw [leaf_eq_framed, hsame, ← leaf_eq_framed]
  cases hp : s.leaf e i j with
  | none =>
    have hzero := hb.absent i j (fun hh => hh.2 hp) (IsPage.of_range hij.1)
    refine ⟨?_, ?_⟩
    · rw [hleaf, hp, leaf_eq_framed, hzero, framed_zero]
    · rw [hsame, hzero, hinv.entry_zero hp]
  | some p =>
    have hcopied := hb.copied i j ⟨hij.1, by rw [Kernel.presentPages]; simp [hp]⟩
    have hsent : sforkPerm s e i j = sharePerm (s.entry e i j) := if_neg hij.2
    rw [hsent] at hcopied
    refine ⟨?_, ?_⟩
    · rw [hleaf, hp, leaf_eq_framed, hcopied]
      exact framed_remap (isPerm_share _) ((leaf_eq_framed s e i j).symm.trans hp)
    · rw [hsame, hcopied, remap, entry_and (by decide) (by decide), sharePerm_and (by decide)]

end

/-! ## While they run -/

/-- Where the two stand in state `s`. -/
structure Sharing (res : Nat → Prop) (s₁ : Kernel) (e c : EnvIndex) (s : Kernel) : Prop where
  turns : Turns res (fun x => x = e ∨ x = c) s
  /-- Nothing is mapped at `PFTEMP`. -/
  temp : ∀ x, x = e ∨ x = c → s.entry x (pdx pftemp) (ptx pftemp) = 0#32
  same : ∀ x i j, x = e ∨ x = c → (i, j) ∈ sharedRange → s₁.Shareable e i j →
    s.entry x i j = s₁.entry x i j
  /-- A page that is shared is not mapped anew. -/
  old : ∀ x i j i' j' p, x = e ∨ x = c → (i, j) ∈ sharedRange → s₁.Shareable e i j →
    s₁.leaf e i j = some p → s.leaf x i' j' = some p → s₁.leaf x i' j' = some p

theorem Born.sharing (hb : Born res fl s e c d dc g (sforkPerm s e) ({stackIdx} ∩ s.cowPages e) s₁)
    (h : Running res fl s e d) : Sharing res s₁ e c s₁ where
  turns := by
    refine ⟨hb.inv, ⟨e, d, Or.inl rfl, hb.curenv.trans h.current, hb.dir_parent h.dir,
      hb.loaded.trans h.loaded⟩, ?_⟩
    rintro x (rfl | rfl)
    · exact ⟨d, hb.dir_parent h.dir, by rw [hb.envs x hb.ne.symm]; exact h.id, hb.linked.1⟩
    · exact ⟨dc, hb.dir, hb.id, hb.linked.2⟩
  temp := by
    rintro x (rfl | rfl)
    · exact hb.temp
    · exact hb.absent _ _ (fun hh => pftemp_out hh.1 ⟨rfl, rfl⟩) fun hh => absurd hh.1 (by decide)
  same x i j _ _ _ := rfl
  old x i j i' j' p _ _ _ _ hp := hp

namespace Sharing

variable (h : Sharing res s₁ e c s)
include h

theorem switch (hx : x = e ∨ x = c) (hst : (s.envs x).envStatus = .runnable ∨
    s.curenv = some x ∧ (s.envs x).envStatus = .running)
    (hrun : (envRun x).run s = .error .popTf s') : Sharing res s₁ e c s' ∧ s'.mem = s.mem := by
  obtain ⟨hturns, hmem, -, hspace⟩ := h.turns.switch hx hst hrun
  refine ⟨⟨hturns, fun y hy => ?_, fun y i j hy hij hs => ?_,
    fun y i j i' j' p hy hij hs hp hq => ?_⟩, hmem⟩
  · rw [(hspace y).entry]
    exact h.temp y hy
  · rw [(hspace y).entry]
    exact h.same y i j hy hij hs
  · exact h.old y i j i' j' p hy hij hs hp (((hspace y).leaf i' j').symm.trans hq)

theorem stores (hu : UserStores res fl s s') : Sharing res s₁ e c s' where
  turns := h.turns.stores hu
  temp y hy := by
    rw [(hu.sameSpace y).entry]
    exact h.temp y hy
  same y i j hy hij hs := by
    rw [(hu.sameSpace y).entry]
    exact h.same y i j hy hij hs
  old y i j i' j' p hy hij hs hp hq :=
    h.old y i j i' j' p hy hij hs hp (((hu.sameSpace y).leaf i' j').symm.trans hq)

/-- The frame of a shared page stays in use. -/
theorem leaf (hx : x = e ∨ x = c) (hij : (i, j) ∈ sharedRange) (hs : s₁.Shareable e i j) :
    s.leaf x i j = s₁.leaf x i j := by
  rw [leaf_eq_framed, h.same x i j hx hij hs, ← leaf_eq_framed]

/-- `pgfault` is for other pages. -/
theorem privatize (hinv : Inv res fl s) (hx : x = e ∨ x = c)
    (hnot : (pdx va, ptx va) ∈ sharedRange → ¬ s₁.Shareable e (pdx va) (ptx va))
    (hpriv : Privatized res fl s x d va p g fl' s') : Sharing res s₁ e c s' := by
  have hg : g < 2 ^ 20 := Inv.lt_pow s (hinv.free_lt hpriv.fresh)
  refine ⟨h.turns.privatize hx hpriv, fun y hy => ?_, fun y i j hy hij hs => ?_,
    fun y i j i' j' q hy hij hs hp hq => ?_⟩
  · by_cases hyx : y = x
    · rw [hyx]
      exact hpriv.temp
    · rw [(hpriv.others y hyx).entry]
      exact h.temp y hy
  · rw [← h.same y i j hy hij hs]
    by_cases hyx : y = x
    · subst hyx
      refine hpriv.same i j ?_ (pftemp_out hij.1)
      rintro ⟨rfl, rfl⟩
      exact hnot hij hs
    · exact (hpriv.others y hyx).entry i j
  · rcases hpriv.leaf_cases hg hq with ⟨-, -, rfl⟩ | ⟨-, -, hq'⟩
    · -- the copy is on a page that was free
      have hold := (h.leaf (Or.inl rfl) hij hs).trans hp
      exact absurd hold (hinv.ok.free_unref q hpriv.fresh (.page e i j))
    · exact h.old y i j i' j' q hy hij hs hp hq'

end Sharing

/-- What a store of `b` at `va` does to the pages that are shared. -/
structure SharedStore (s₁ : Kernel) (e c : EnvIndex) (va : Word) (b : Byte) (s s' : Kernel) :
    Prop where
  kept : ∀ va₀ p, (pdx va₀, ptx va₀) ∈ sharedRange → s₁.Shareable e (pdx va₀) (ptx va₀) →
    s₁.leaf e (pdx va₀) (ptx va₀) = some p → ¬ s₁.Meets e c va₀ va →
      byteAt (s'.mem p) (pgoff va₀) = byteAt (s.mem p) (pgoff va₀)
  done : (pdx va, ptx va) ∈ sharedRange → s₁.Shareable e (pdx va) (ptx va) → ∃ p,
    s₁.leaf e (pdx va) (ptx va) = some p ∧
      s₁.entry e (pdx va) (ptx va) &&& userRead = userRead ∧ byteAt (s'.mem p) (pgoff va) = b

namespace Sharing

variable (h : Sharing res s₁ e c s) (htwin : ∀ i j, (i, j) ∈ sharedRange → Twin s₁ e c i j)
include h htwin

omit h in
theorem twin (hx : x = e ∨ x = c) (hij : (i, j) ∈ sharedRange) : Twin s₁ e x i j := by
  rcases hx with rfl | rfl
  · exact Twin.refl s₁ x i j
  · exact htwin i j hij

/-- A store to a page that can be written to. -/
theorem fill (hx : x = e ∨ x = c) (hf : s.leaf x (pdx va) (ptx va) = some f)
    (hw : s.entry x (pdx va) (ptx va) &&& userWrite = userWrite) (b : Byte) :
    SharedStore s₁ e c va b s (s.fill f (setByte (s.mem f) (pgoff va) b)) := by
  have hoff : ∀ a : Word, pgoff a < 4096 := fun a => by
    rw [pgoff_eq]
    omega
  refine ⟨fun va₀ p hva₀ hs hp hno => ?_, fun hva hs => ⟨f, ?_, ?_, ?_⟩⟩
  · by_cases hpf : p = f
    · subst hpf
      have hold := h.old x _ _ _ _ p hx hva₀ hs hp hf
      have hne : pgoff va₀ ≠ pgoff va := fun ho => hno ⟨ho.symm, x, hx, hold.trans hp.symm⟩
      rw [fill_mem, Function.update_self, byteAt_setByte_ne _ _ (hoff va) (hoff va₀) hne]
    · rw [fill_mem_ne _ _ _ hpf]
  · rw [← (twin htwin hx hva).leaf, ← h.leaf hx hva hs, hf]
  · have hp : s₁.leaf e (pdx va) (ptx va) = some f := by
      rw [← (twin htwin hx hva).leaf, ← h.leaf hx hva hs, hf]
    rw [← (twin htwin hx hva).read hp, ← h.same x _ _ hx hva hs]
    exact userRead_of_write hw
  · rw [fill_mem, Function.update_self, byteAt_setByte_self]

/-- **A store.** -/
theorem store (hva : va < utop)
    (hrun : (storeHandled va fun pg o => setByte pg o b).run s = .ok () s') :
    Sharing res s₁ e c s' ∧ SharedStore s₁ e c va b s s' := by
  obtain ⟨x, -, -, hc, -⟩ := h.turns.current
  obtain ⟨fl, d, hx, hr⟩ := h.turns.running hc
  by_cases htemp : IsPage pftemp (pdx va) (ptx va)
  · obtain ⟨hi, hj⟩ := htemp
    obtain ⟨err, s₂, hfail⟩ := hr.storeHandled_fails hva (by rw [hi, hj]; exact h.temp x hx)
      fun pg o => setByte pg o b
    exact absurd (hfail.symm.trans hrun) (by simp)
  rcases hr.storeHandled_run hva htemp (fun pg o => setByte pg o b) with
    ⟨f, hf, hok⟩ | ⟨-, -, err, s₂, hfail⟩ | ⟨p, g, fl', s₂, hno, hcow, -, hpriv, htr, hok⟩
  · obtain rfl : _ = s' := (EStateM.Result.ok.inj (hok.symm.trans hrun)).2
    obtain ⟨-, -, -, hpte, hleaf, -⟩ := (translate_eq_some hr.dir hva).1 hf
    exact ⟨h.stores (UserStores.fill hr.inv hleaf _), h.fill htwin hx hleaf hpte b⟩
  · exact absurd (hfail.symm.trans hrun) (by simp)
  obtain rfl : _ = s' := (EStateM.Result.ok.inj (hok.symm.trans hrun)).2
  have hg : g < 2 ^ 20 := Inv.lt_pow s (hr.inv.free_lt hpriv.fresh)
  -- a page that is shared could have been written to
  have hnot : (pdx va, ptx va) ∈ sharedRange → ¬ s₁.Shareable e (pdx va) (ptx va) := by
    intro hij hs
    have ht := twin htwin hx hij
    have hread := entry_of_translate hr.dir hva hpriv.readable
    rw [h.same x _ _ hx hij hs] at hcow hread
    have hw : s₁.entry x (pdx va) (ptx va) &&& pteW ≠ 0#32 := by
      rw [ht.and (by decide)] at hcow ⊢
      exact hs.resolve_left hcow
    have hleaf : ∃ p, s.leaf x (pdx va) (ptx va) = some p := by
      obtain ⟨fo, hfo⟩ := Option.ne_none_iff_exists'.1 hpriv.readable
      exact ⟨fo.1, leaf_of_translate hr.dir hva hfo⟩
    obtain ⟨p, hp⟩ := hleaf
    have hall : s.entry x (pdx va) (ptx va) &&& userWrite = userWrite := by
      rw [h.same x _ _ hx hij hs]
      exact and_userWrite hread hw
    exact absurd (hno.symm.trans (hr.alive.translate (by decide) hp hall)) (by simp)
  have hshare := h.privatize hr.inv hx hnot hpriv
  have hleaf : s₂.leaf x (pdx va) (ptx va) = some g := by
    rw [leaf_eq_framed, hpriv.entry]
    exact framed_entry hg (by decide)
  refine ⟨hshare.stores (UserStores.fill hpriv.run.inv hleaf _), fun va₀ p hva₀ hs hp _ => ?_,
    fun hij hs => absurd hs (hnot hij)⟩
  have hps : s.leaf e (pdx va₀) (ptx va₀) = some p := (h.leaf (Or.inl rfl) hva₀ hs).trans hp
  have hpg : p ≠ g := by
    rintro rfl
    exact hr.inv.ok.free_unref p hpriv.fresh (.page e _ _) hps
  rw [fill_mem_ne _ _ _ hpg, hpriv.data e _ _ p hps fun hh => pftemp_out hva₀.1 hh.2]

/-- A load. -/
theorem load (hc : s.curenv = some x) (hva : (pdx va, ptx va) ∈ sharedRange)
    (hs : s₁.Shareable e (pdx va) (ptx va)) (hp : s₁.leaf e (pdx va) (ptx va) = some p)
    (hread : s₁.entry e (pdx va) (ptx va) &&& userRead = userRead) :
    (uloadByte va).run s = .ok (byteAt (s.mem p) (pgoff va)) s := by
  obtain ⟨fl, d, hx, hr⟩ := h.turns.running hc
  have ht := twin htwin hx hva
  have hps : s.leaf x (pdx va) (ptx va) = some p := by
    rw [h.leaf hx hva hs, ht.leaf, hp]
  have hflags : s.entry x (pdx va) (ptx va) &&& userRead = userRead := by
    rw [h.same x _ _ hx hva hs]
    exact (ht.read hp).2 hread
  have htr := hr.alive.translate (by decide) hps hflags
  rw [← hr.loaded, userRead] at htr
  simp only [uloadByte, EStateM.run_bind, EStateM.run_get, htr]
  rfl

end Sharing

/-! ## Runs -/

/-- Where the two stand after a run, and what is where they have stored something. -/
theorem PairRun.sharing (h : Sharing res s₁ e c s₁)
    (htwin : ∀ i j, (i, j) ∈ sharedRange → Twin s₁ e c i j) (hrun : PairRun s₁ e c l s) :
    Sharing res s₁ e c s ∧ ∀ l₁ l₂ va b, l = l₁ ++ (va, b) :: l₂ →
      (pdx va, ptx va) ∈ sharedRange → s₁.Shareable e (pdx va) (ptx va) →
      (∀ ev ∈ l₂, ¬ s₁.Meets e c va ev.1) → ∃ p, s₁.leaf e (pdx va) (ptx va) = some p ∧
        s₁.entry e (pdx va) (ptx va) &&& userRead = userRead ∧ byteAt (s.mem p) (pgoff va) = b := by
  induction hrun with
  | start => exact ⟨h, fun l₁ l₂ va b hl => absurd hl (by simp)⟩
  | switch _ hx hst hsw ih =>
    obtain ⟨hshare, hmem⟩ := ih.1.switch hx hst hsw
    rw [hmem]
    exact ⟨hshare, ih.2⟩
  | load _ hload ih => exact uloadByte_state hload ▸ ih
  | @store l s s' va' b' _ hva hstore ih =>
    obtain ⟨hshare, hstored⟩ := ih.1.store htwin hva hstore
    refine ⟨hshare, fun l₁ l₂ va b hl hij hs hl₂ => ?_⟩
    rcases List.eq_nil_or_concat l₂ with rfl | ⟨l₂, ev, rfl⟩
    · obtain ⟨rfl, heq⟩ := List.append_inj' hl rfl
      obtain ⟨rfl, rfl⟩ := Prod.mk.inj (List.cons.inj heq).1
      exact hstored.done hij hs
    · rw [List.concat_eq_append, ← List.cons_append, ← List.append_assoc] at hl
      obtain ⟨rfl, heq⟩ := List.append_inj' hl rfl
      obtain rfl := (List.cons.inj heq).1
      rw [List.concat_eq_append] at hl₂
      obtain ⟨p, hp, hread, hb⟩ := ih.2 l₁ l₂ va b rfl hij hs fun ev hev =>
        hl₂ ev (List.mem_append_left _ hev)
      refine ⟨p, hp, hread, ?_⟩
      rw [hstored.kept va p hij hs hp (hl₂ (va', b') (List.mem_append_right _ List.mem_cons_self)),
        hb]

/-! ## A machine where `sfork` succeeds -/

/-- A page of text, an exception stack and a page of stack, out of `n` free pages. -/
def stacked (n : Fin 64) : Kernel :=
  final (sysPageAlloc 4096#32 (ustacktop - pgsize) userPerm) (prepared n)

/-- What is mapped then, and how many pages are free. -/
structure StackedState (n : Fin 64) (fl : List Nat) (p f g : Nat) (s : Kernel) : Prop where
  run : Running (roomyRes n) fl s 0 1
  room : s.Room 0
  free : fl.length + 5 = n.val
  envFree : s.envFreeList = some 1
  text : s.entry 0 (pdx utext) (ptx utext) = page2pa p ||| pteP ||| userPerm ∧ p < 2 ^ 20
  stack : s.entry 0 stackIdx.1 stackIdx.2 = page2pa f ||| pteP ||| userPerm ∧ f < 2 ^ 20
  exception : s.entry 0 (pdx uxstack) (ptx uxstack) = page2pa g ||| pteP ||| userPerm ∧ g < 2 ^ 20
  others : ∀ i j, ¬ IsPage utext i j → (i, j) ≠ stackIdx → ¬ IsPage uxstack i j →
    s.entry 0 i j = 0#32

theorem stacked_spec (n : Fin 64) (hn : 5 ≤ n.val) :
    ∃ fl p f g, StackedState n fl p f g (stacked n) := by
  obtain ⟨p, fl₁, s₁, g, fl₂, -, h₁, -, h₂, -⟩ := prepared_steps n (by omega)
  obtain ⟨fl, p, g, h⟩ := prepared_spec n (by omega)
  have hfree := h.free
  have henv : ((prepared n).envs 0).envId = 4096#32 := by
    rw [h₂.only.envs, h₁.only.envs]
    rfl
  have htext : ¬ IsPage utext (pdx (ustacktop - pgsize)) (ptx (ustacktop - pgsize)) :=
    fun hh => absurd hh.1 (by decide)
  have hstack : ¬ IsPage uxstack (pdx (ustacktop - pgsize)) (ptx (ustacktop - pgsize)) :=
    fun hh => absurd hh.2 (by decide)
  have hnone :
      (prepared n).leaf 0 (pdx (ustacktop - pgsize)) (ptx (ustacktop - pgsize)) = none := by
    rw [leaf_eq_framed, h.others _ _ htext hstack]
    exact framed_zero
  -- the exception stack has the same page table
  have htab : (prepared n).tablesFor 0 (ustacktop - pgsize) = 0 := by
    refine if_neg fun hno => ?_
    have hno' : (prepared n).table 0 (pdx uxstack) = none := hno
    have hpres := congrArg framed (h.stack.1.symm.trans (entry_of_none hno' _))
    rw [framed_entry h.stack.2 (by decide), framed_zero] at hpres
    exact absurd hpres (by simp)
  obtain ⟨f, fl₃, s₃, hrun, hadd⟩ := h.run.alloc h.room (by decide) hnone (by omega)
  have hfree' := hadd.free
  have hs₃ : stacked n = s₃ := by
    rw [stacked, ← henv, final_of_ok hrun]
  rw [hs₃]
  have htext' : ¬ IsPage (ustacktop - pgsize) (pdx utext) (ptx utext) :=
    fun hh => absurd hh.1 (by decide)
  have hstack' : ¬ IsPage (ustacktop - pgsize) (pdx uxstack) (ptx uxstack) :=
    fun hh => absurd hh.2 (by decide)
  refine ⟨fl₃, p, f, g, hadd.run, hadd.room, by omega, ?_, ⟨?_, h.text.2⟩, ⟨hadd.entry, hadd.lt⟩,
    ⟨?_, h.stack.2⟩, fun i j hij hij' hij'' => ?_⟩
  · rw [hadd.only.envFreeList]
    exact h.envFree
  · rw [hadd.others _ _ htext']
    exact h.text.1
  · rw [hadd.others _ _ hstack']
    exact h.stack.1
  · rw [hadd.others _ _ fun hh => hij' (Prod.ext hh.1 hh.2)]
    exact h.others i j hij hij''

theorem sharePerm_user (p : Nat) :
    sharePerm (page2pa p ||| pteP ||| userPerm) = userPerm ||| pteP := by
  have hmask : (0xFFF#32 : Word) &&& (pteP ||| pteU ||| pteW ||| pteAvail) =
    pteP ||| pteU ||| pteW ||| pteAvail := by decide
  rw [sharePerm_eq, ← hmask, ← BitVec.and_assoc, entry_flags (by decide)]
  decide

namespace StackedState

variable {n : Fin 64} (h : StackedState n fl p f g s)
include h

theorem leaf_stack : s.leaf 0 stackIdx.1 stackIdx.2 ≠ none := by
  rw [leaf_eq_framed, h.stack.1, framed_entry h.stack.2 (by decide)]
  simp

theorem forkPages_le : s.forkPages 0 ≤ 5 := by
  have htables : tablesOf (insert (pdx uxstack, ptx uxstack) (forkRange ∩ s.presentPages 0)) ≤
      2 := by
    have htwo : ({pdx utext, pdx uxstack} : Set Index).ncard = 2 := Set.ncard_pair (by decide)
    rw [← htwo]
    refine Set.ncard_le_ncard ?_ (Set.toFinite _)
    rintro i ⟨j, heq | ⟨-, hpresent⟩⟩
    · exact Or.inr (congrArg Prod.fst heq)
    · by_contra hi
      refine hpresent ?_
      rw [leaf_eq_framed, h.others i j (fun hh => hi (Or.inl hh.1))
        (fun hh => hi (Or.inr (congrArg Prod.fst hh))) fun hh => hi (Or.inr hh.1)]
      exact framed_zero
  have htemp := tablesFor_le s 0 pftemp
  rw [Kernel.forkPages]
  omega

/-- Every page that is mapped can be mapped into the child. -/
theorem not_refused (u : Kernel) (hu : ∀ i j, u.entry 0 i j = s.entry 0 i j) :
    ¬ Refused u 0 (sforkPerm u 0) forkRange := by
  rintro ⟨⟨i, j⟩, ⟨hij, hpresent⟩, hno⟩
  refine hno ?_
  show PermOk (sforkPerm u 0 i j)
  rw [sforkPerm, hu]
  split
  · exact dupPerm_ok _
  · next hne =>
    by_cases hpage : IsPage utext i j
    · rw [hpage.1, hpage.2, h.text.1, sharePerm_user]
      decide
    · refine absurd ?_ hpresent
      show u.leaf 0 i j = none
      rw [leaf_eq_framed, hu, h.others i j hpage hne (IsPage.of_range hij)]
      exact framed_zero

theorem sforks (hn : 10 ≤ n.val) : ∃ r s', (sfork handlerSet).run s = .ok r s' ∧ 0 < r.toInt := by
  have hmapped : (pdx utext, ptx utext) ∈ s.copiedPages 0 := by
    refine ⟨mem_forkRange_of_va (by decide) (by decide), ?_⟩
    show s.leaf 0 (pdx utext) (ptx utext) ≠ none
    rw [leaf_eq_framed, h.text.1, framed_entry h.text.2 (by decide)]
    simp
  have hread : ∀ u : Kernel, (∀ i j, u.entry 0 i j = s.entry 0 i j) →
      sforkPerm u 0 (pdx utext) (ptx utext) &&& (pteU ||| pteP) = pteU ||| pteP := by
    intro u hu
    rw [sforkPerm, hu, if_neg (by decide), h.text.1, sharePerm_user]
    decide
  have hfree := h.free
  have hpages := h.forkPages_le
  have hux : s.translate 1 userWrite uxstack = some (g, 0) :=
    translate_userPerm h.run.dir h.run.tables h.exception.1 h.exception.2 (by decide)
  obtain ⟨r, s', hrun, hpos, -⟩ := forkWith_succeeds (fun u => sforkPerm u 0)
    (fun u => {stackIdx} ∩ u.cowPages 0) handlerSet h.run (h.room.roomIn _)
    (fun _ _ _ _ hb hsame _ _ _ hij ht => sforkPage_step hb (hsame _ _ ▸ h.leaf_stack) hij ht)
    (fun u hu => ⟨h.not_refused u hu, hread u hu⟩) (by decide) h.envFree (by omega) hux (by decide)
    hmapped
  exact ⟨r, s', hrun, hpos⟩

end StackedState

/-! ## What is shared, and what is not -/

theorem mem_sharedRange (hlo : utext ≤ va) (hhi : va < uxstacktop - pgsize)
    (hne : (pdx va, ptx va) ≠ stackIdx) : (pdx va, ptx va) ∈ sharedRange :=
  ⟨mem_forkRange_of_va hlo hhi, hne⟩

section

variable (hb : Born res fl s e c d dc g (sforkPerm s e) ({stackIdx} ∩ s.cowPages e) s₁)
include hb

theorem Born.shareable_iff (hij : (i, j) ∈ sharedRange) :
    s₁.Shareable e i j ↔ s.Shareable e i j := by
  rw [Kernel.Shareable, Kernel.Shareable, hb.entry_shared hij]

/-- What can be written to is shared. -/
theorem Born.shares (h : Running res fl s e d) (hva : (pdx va, ptx va) ∈ sharedRange)
    (hs : s₁.Shareable e (pdx va) (ptx va)) : s₁.Shares e c va := by
  have htwin : ∀ i j, (i, j) ∈ sharedRange → Twin s₁ e c i j := fun _ _ hij => hb.twin h.inv hij
  intro l l₁ l₂ b s' hrun hl hl₂
  obtain ⟨hshare, hdone⟩ := PairRun.sharing (hb.sharing h) htwin hrun
  obtain ⟨p, hp, hread, hbyte⟩ := hdone l₁ l₂ va b hl hva hs hl₂
  obtain ⟨x, -, -, hc, -⟩ := hshare.turns.current
  rw [hshare.load htwin hc hva hs hp hread, hbyte]

/-- What is copy-on-write is not: the parent stores there, on a page of its own, and the child finds
what has been there before. -/
theorem Born.not_shares (h : Running res fl s e d) (hva : (pdx va, ptx va) ∈ sharedRange)
    (hs : ¬ s₁.Shareable e (pdx va) (ptx va))
    (hread : s₁.entry e (pdx va) (ptx va) &&& userRead = userRead)
    (hfree : s₁.pageFreeList ≠ none) : ¬ s₁.Shares e c va := by
  intro hshares
  obtain ⟨hcow, hw⟩ := not_or.1 hs
  have hshare := hb.sharing h
  have hc : s₁.curenv = some e := hb.curenv.trans h.current
  obtain ⟨fl₁, d', hx, hr⟩ := hshare.turns.running hc
  have htwin := hb.twin h.inv hva
  obtain ⟨p, hp⟩ : ∃ p, s₁.leaf e (pdx va) (ptx va) = some p := by
    refine Option.ne_none_iff_exists'.1 fun hn => hcow ?_
    rw [hr.inv.entry_zero hn]
    exact BitVec.zero_and
  have hlt := lt_utop_of_leaf hp
  -- the parent stores something else
  let b := byteAt (s₁.mem p) (pgoff va) + 1#8
  have hroom : ¬ fl₁.length < 1 + s₁.tablesFor e pftemp := by
    have hzero : s₁.tablesFor e pftemp = 0 := if_neg hb.tempTable
    obtain ⟨q, hq⟩ := Option.ne_none_iff_exists'.1 hfree
    obtain ⟨fl₂, hcons, -⟩ := (hq ▸ hr.inv.chain).exists_cons
    rw [hzero, hcons, List.length_cons]
    omega
  rcases hr.storeHandled_run hlt (pftemp_out hva.1) (fun pg o => setByte pg o b) with
    ⟨f, hf, -⟩ | ⟨-, hwhy, -⟩ | ⟨p', f, fl', s₂, -, -, hp', hpriv, -, hok⟩
  · obtain ⟨-, -, -, hpte, -⟩ := (translate_eq_some hr.dir hlt).1 hf
    exact hw (pteW_of_write hpte)
  · rcases hwhy with hno | hno | hno
    · exact hcow hno
    · rw [hr.alive.translate (by decide) hp hread] at hno
      cases hno
    · exact hroom hno
  have hstored := PairRun.store (e := e) (c := c) .start hlt hok
  -- the child loads
  have hf : f < 2 ^ 20 := Inv.lt_pow s₁ (hr.inv.free_lt hpriv.fresh)
  have hleaf : s₂.leaf e (pdx va) (ptx va) = some f := by
    rw [leaf_eq_framed, hpriv.entry]
    exact framed_entry hf (by decide)
  have hu := UserStores.fill hpriv.run.inv hleaf (setByte (s₂.mem f) (pgoff va) b)
  have hturns := (hshare.turns.privatize (Or.inl rfl) hpriv).stores hu
  generalize hs₃ : s₂.fill f (setByte (s₂.mem f) (pgoff va) b) = s₃ at hu hturns hstored
  have henv : s₃.envs c = s₁.envs c := (congrFun hu.only.envs c).trans (congrFun hpriv.only.envs c)
  have hrunnable : (s₃.envs c).envStatus = .runnable := by
    rw [henv]
    exact hb.status.2
  obtain ⟨dc', ha⟩ := hturns.alive c (Or.inr rfl)
  have hsw := envRun_run (s := s₃) (envPgdir_of_dir ha.dir)
  obtain ⟨hturns', hmem, -, hspace⟩ := hturns.switch (Or.inr rfl) (Or.inl hrunnable) hsw
  have hload := hshares _ [] [] b _ (hstored.switch (Or.inr rfl) (Or.inl hrunnable) hsw) rfl
    fun ev hev => absurd hev List.not_mem_nil
  have hne : c ≠ e := hb.ne
  have hsame : SameSpace s₁ s₃ c := (hpriv.others c hne).trans hpriv.only.envs (hu.sameSpace c)
  obtain ⟨fl₃, dc'', -, hr'⟩ := hturns'.running (dispatch_curenv s₃ c dc')
  have hpc : (s₃.dispatch c dc').leaf c (pdx va) (ptx va) = some p := by
    rw [(hspace c).leaf, hsame.leaf, htwin.leaf, hp]
  have hflags : (s₃.dispatch c dc').entry c (pdx va) (ptx va) &&& userRead = userRead := by
    rw [(hspace c).entry, hsame.entry]
    exact (htwin.read hp).2 hread
  have htr := hr'.alive.translate (by decide) hpc hflags
  rw [← hr'.loaded, userRead] at htr
  have hpf : p ≠ f := by
    rintro rfl
    exact hr.inv.ok.free_unref p hpriv.fresh (.page e _ _) hp
  have hold : (s₃.dispatch c dc').mem p = s₁.mem p := by
    rw [hmem, ← hs₃, fill_mem_ne _ _ _ hpf]
    exact hpriv.data e _ _ p hp fun hh => pftemp_out hva.1 hh.2
  simp only [uloadByte, EStateM.run_bind, EStateM.run_get, htr] at hload
  have hbyte : byteAt ((s₃.dispatch c dc').mem p) (pgoff va) = b := (EStateM.Result.ok.inj hload).1
  rw [hold] at hbyte
  exact absurd hbyte (by simp [b])

end

/-- **What `sfork` shares.**  What one of parent and child stores on a page that could be written to
when `sfork` was called, or that was not copy-on-write, both of them load from then on, however they
take turns.  A page that was copy-on-write is not shared. -/
theorem sfork_shares (h : Running res fl s e d) (hroom : s.RoomIn e forkRange)
    (hstack : s.leaf e stackIdx.1 stackIdx.2 ≠ none) (hrun : (sfork prog).run s = .ok r s₁)
    (hr : 0 < r.toInt) (hlo : utext ≤ va) (hhi : va < uxstacktop - pgsize)
    (hne : (pdx va, ptx va) ≠ stackIdx) :
    (s.Shareable e (pdx va) (ptx va) → s₁.Shares e (envx r) va) ∧
      (¬ s.Shareable e (pdx va) (ptx va) → s.translate d userRead va ≠ none →
        s₁.pageFreeList ≠ none → ¬ s₁.Shares e (envx r) va) := by
  obtain ⟨fl₀, s₀, dc, g, hh, hb⟩ := sfork_born h hroom hstack hrun hr
  have hva := mem_sharedRange hlo hhi hne
  have hentry : s₀.entry e (pdx va) (ptx va) = s.entry e (pdx va) (ptx va) :=
    hh.entry _ _ (IsPage.of_range hva.1)
  have hsame : s₁.Shareable e (pdx va) (ptx va) ↔ s.Shareable e (pdx va) (ptx va) := by
    rw [hb.shareable_iff hva, Kernel.Shareable, Kernel.Shareable, hentry]
  refine ⟨fun hs => hb.shares hh.run hva (hsame.2 hs), fun hs hread hfree => ?_⟩
  refine hb.not_shares hh.run hva (mt hsame.1 hs) ?_ hfree
  rw [hb.entry_shared hva, hentry]
  exact entry_of_translate h.dir (va_lt_utop hhi) hread

/-- What is stored at `UTEXT` is shared then. -/
theorem sfork_shares_stacked :
    ∃ r s', (sfork handlerSet).run (stacked 10) = .ok r s' ∧ 0 < r.toInt ∧
    s'.Shares 0 (envx r) utext := by
  obtain ⟨fl, p, f, g, h⟩ := stacked_spec 10 (by decide)
  obtain ⟨r, s', hrun, hr⟩ := h.sforks (by decide)
  refine ⟨r, s', hrun, hr, (sfork_shares h.run (h.room.roomIn _) h.leaf_stack hrun hr (by decide)
    (by decide) (by decide)).1 (Or.inr ?_)⟩
  rw [h.text.1, entry_and (by decide) (by decide)]
  decide

end Jos
