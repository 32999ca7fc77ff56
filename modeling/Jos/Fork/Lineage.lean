import Jos.Fork.Cow
import Jos.Fork.Intact
import Jos.Lib.Copies

/-!
# Copy-on-write

An environment forks, its children fork, and all of them load and store.  To each of them, the pages
that the first one had are its own: it is as if every `fork` had copied all of them
(`fork_refines`).

What makes this work is that a page that two environments map is mapped at the same address in both,
and is writable in neither.  This is `Lineage.sole`.
-/

set_option autoImplicit false

namespace Jos

open Kernel Command Copies

variable {res : Nat → Prop} {fl fl₀ fl' : List Nat} {s₀ s s' s₁ : Kernel} {e₀ x y c : EnvIndex}
variable {d₀ d dc f g p q : Nat} {va w w' r : Word} {i j : Index} {b : Byte} {prog : Program}

/-- What the environments do to the memory that they have. -/
abbrev ForkEvent := Event EnvIndex Word Byte

/-- No page that `e` maps in the range is mapped anywhere else. -/
def Kernel.Sole (s : Kernel) (e : EnvIndex) : Prop :=
  ∀ i j p, (i, j) ∈ forkRange → s.leaf e i j = some p → ∀ k, s.target k = some p → k = .page e i j

/-- What the first environment reads at the start. -/
def Kernel.contents (s : Kernel) (d : Nat) (va : Word) : Byte := (s.readByte d userRead va).getD 0#8

/-- From `s₀` on, where `e₀` was running, the events `l` have led to `s`. -/
inductive ForkRun (s₀ : Kernel) (e₀ : EnvIndex) (d₀ : Nat) : List ForkEvent → Kernel → Prop where
  | start : ForkRun s₀ e₀ d₀ [] s₀
  /-- It is somebody else's turn. -/
  | switch {l : List ForkEvent} {s s' : Kernel} {x : EnvIndex} (h : ForkRun s₀ e₀ d₀ l s)
      (hx : Member e₀ l x) (hst : (s.envs x).envStatus = .runnable ∨
        s.curenv = some x ∧ (s.envs x).envStatus = .running)
      (hrun : (envRun x).run s = .error .popTf s') : ForkRun s₀ e₀ d₀ l s'
  | load {l : List ForkEvent} {s s' : Kernel} {va : Word} {b : Byte} (h : ForkRun s₀ e₀ d₀ l s)
      (hrun : (uloadByte va).run s = .ok b s') : ForkRun s₀ e₀ d₀ l s'
  /-- A store to a page that was writable at the start. -/
  | store {l : List ForkEvent} {s s' : Kernel} {x : EnvIndex} {va : Word} {b : Byte}
      (h : ForkRun s₀ e₀ d₀ l s) (hc : s.curenv = some x) (hlo : utext ≤ va)
      (hhi : va < uxstacktop - pgsize) (hw : s₀.translate d₀ userWrite va ≠ none)
      (hrun : (storeHandled va fun pg o => setByte pg o b).run s = .ok () s') :
      ForkRun s₀ e₀ d₀ (l ++ [.store x va b]) s'
  | fork {l : List ForkEvent} {s s' : Kernel} {x : EnvIndex} {r : Word} (prog : Program)
      (h : ForkRun s₀ e₀ d₀ l s) (hc : s.curenv = some x) (hrun : (fork prog).run s = .ok r s')
      (hr : 0 < r.toInt) : ForkRun s₀ e₀ d₀ (l ++ [.fork x (envx r)]) s'

/-! ## One page -/

/-- What is left, in `w'`, of what the first environment could do with the page of `w`. -/
structure Keeps (w w' : Word) : Prop where
  absent : framed w = none → framed w' = none
  read : w &&& userRead = userRead → w' &&& userRead = userRead
  write : w &&& userWrite = userWrite → w' &&& pteW ≠ 0#32 ∨ w' &&& pteCow ≠ 0#32

theorem Keeps.refl (w : Word) : Keeps w w := ⟨id, id, fun h => Or.inl (pteW_of_write h)⟩

/-- `duppage` takes away no more than the right to write without a fault. -/
theorem Keeps.dup (h : Keeps w w') (hp : framed w' = some p) : Keeps w (remap (dupPerm w') w') where
  absent hw := absurd ((h.absent hw).symm.trans hp) (by simp)
  read _ := remap_flags (by rcases dupPerm_cases w' with hd | hd <;> rw [hd] <;> decide)
  write hw := by
    have hcow : dupPerm w' = cowPerm := if_pos (h.write hw)
    refine Or.inr ?_
    rw [hcow, remap_flags (show cowPerm &&& pteCow = pteCow by decide)]
    decide

/-- A page of one's own can be read and written. -/
theorem Keeps.priv (h : Keeps w w') (hp : framed w' = some p) (g : Nat) :
    Keeps w (page2pa g ||| pteP ||| userPerm) where
  absent hw := absurd ((h.absent hw).symm.trans hp) (by simp)
  read _ := by
    rw [BitVec.or_assoc]
    exact or_and_of_and _ (by decide)
  write _ := by
    refine Or.inl ?_
    rw [entry_and (by decide) (by decide)]
    decide

theorem dup_readOnly (w : Word) : remap (dupPerm w) w &&& pteW = 0#32 := by
  rw [remap, entry_and (by decide) (by decide)]
  exact dupPerm_read_only w

/-- Nothing is left of a page that is not mapped any more. -/
theorem Keeps.gone (h : Keeps w w') (hn : framed w' = none) : Keeps w 0#32 := by
  have hno : w &&& userRead ≠ userRead := by
    intro hread
    have hpres : w' &&& pteP = 0#32 := framed_eq_none.1 hn
    have hsub : userRead &&& pteP = pteP := by decide
    rw [← hsub, ← BitVec.and_assoc, h.read hread] at hpres
    exact absurd hpres (by decide)
  exact ⟨fun _ => framed_zero, fun hread => absurd hread hno,
    fun hwrite => absurd (userRead_of_write hwrite) hno⟩

/-! ## What holds of the family -/

/-- What they have stored by now. -/
def Kernel.forkMemory (s₀ : Kernel) (d₀ : Nat) (l : List ForkEvent) : EnvIndex → Word → Byte :=
  memory (fun _ => s₀.contents d₀) l

/-- Where the family stands in state `s`. -/
structure Lineage (res : Nat → Prop) (s₀ : Kernel) (e₀ : EnvIndex) (d₀ : Nat) (l : List ForkEvent)
    (s : Kernel) : Prop where
  turns : Turns res (Member e₀ l) s
  keeps : ∀ x i j, Member e₀ l x → (i, j) ∈ forkRange → Keeps (s₀.entry e₀ i j) (s.entry x i j)
  /-- A page is shared within the family only, at one address, and if it is writable, with
  nobody. -/
  sole : ∀ x i j p, Member e₀ l x → (i, j) ∈ forkRange → s.leaf x i j = some p →
    ∀ k, s.target k = some p →
      ∃ y, Member e₀ l y ∧ k = .page y i j ∧ (s.entry x i j &&& pteW ≠ 0#32 → y = x)
  contents : ∀ x va p, Member e₀ l x → (pdx va, ptx va) ∈ forkRange →
    s.leaf x (pdx va) (ptx va) = some p →
    s₀.entry e₀ (pdx va) (ptx va) &&& userRead = userRead →
    byteAt (s.mem p) (pgoff va) = s₀.forkMemory d₀ l x va

/-- At the start there is one environment. -/
theorem Lineage.start (h : Running res fl s₀ e₀ d₀) (hsole : s₀.Sole e₀) :
    Lineage res s₀ e₀ d₀ [] s₀ := by
  have hone : ∀ x, Member e₀ ([] : List ForkEvent) x → x = e₀ := fun x hx =>
    hx.resolve_right fun hh => absurd hh.choose_spec List.not_mem_nil
  refine
    { turns := ⟨⟨fl, h.inv⟩, ⟨e₀, d₀, member_first, h.current, h.dir, h.loaded⟩,
        fun x hx => ⟨d₀, hone x hx ▸ h.alive⟩⟩
      keeps := fun x i j hx _ => hone x hx ▸ Keeps.refl _
      sole := fun x i j p hx hij hp k hk => ?_
      contents := fun x va p hx hva hp hread => ?_ }
  · obtain rfl := hone x hx
    exact ⟨x, hx, hsole i j p hij hp k hk, fun _ => rfl⟩
  · obtain rfl := hone x hx
    show _ = (s₀.readByte d₀ userRead va).getD 0#8
    rw [h.alive.readByte hp hread, Option.getD_some]

namespace Lineage

variable {l : List ForkEvent} (h : Lineage res s₀ e₀ d₀ l s)
include h

theorem switch (hx : Member e₀ l x) (hst : (s.envs x).envStatus = .runnable ∨
    s.curenv = some x ∧ (s.envs x).envStatus = .running)
    (hrun : (envRun x).run s = .error .popTf s') : Lineage res s₀ e₀ d₀ l s' := by
  obtain ⟨hturns, hmem, htgt, hspace⟩ := h.turns.switch hx hst hrun
  refine
    { turns := hturns
      keeps := fun y i j hy hij => by rw [(hspace y).entry]; exact h.keeps y i j hy hij
      sole := fun y i j p hy hij hp k hk => ?_
      contents := fun y va p hy hva hp hread => ?_ }
  · rw [(hspace y).entry]
    rw [htgt] at hk
    exact h.sole y i j p hy hij (((hspace y).leaf i j).symm.trans hp) k hk
  · rw [hmem]
    exact h.contents y va p hy hva (((hspace y).leaf _ _).symm.trans hp) hread

/-- A store to a writable page changes what one environment has at one address. -/
theorem write (hinv : Inv res fl s) (hx : Member e₀ l x) (hva : (pdx va, ptx va) ∈ forkRange)
    (hf : s.leaf x (pdx va) (ptx va) = some f)
    (hw : s.entry x (pdx va) (ptx va) &&& pteW ≠ 0#32) (b : Byte) :
    Lineage res s₀ e₀ d₀ (l ++ [.store x va b])
      (s.fill f (setByte (s.mem f) (pgoff va) b)) := by
  have hu := UserStores.fill hinv hf (setByte (s.mem f) (pgoff va) b)
  have hoff : ∀ a : Word, pgoff a < 4096 := fun a => by
    rw [pgoff_eq]
    omega
  have hmembers : Member e₀ (l ++ [.store x va b]) = Member e₀ l :=
    funext fun y => propext member_concat_store
  refine
    { turns := hmembers ▸ h.turns.stores hu
      keeps := fun y i j hy hij => by
        rw [(hu.sameSpace y).entry]
        exact h.keeps y i j (member_concat_store.1 hy) hij
      sole := fun y i j p hy hij hp k hk => ?_
      contents := fun y va' p hy hva' hp hread => ?_ }
  · rw [hu.target] at hk
    rw [(hu.sameSpace y).entry]
    obtain ⟨y', hy', hrest⟩ := h.sole y i j p (member_concat_store.1 hy) hij
      ((congrFun hu.target (.page y i j)).symm.trans hp) k hk
    exact ⟨y', member_concat_store.2 hy', hrest⟩
  · have hy' := member_concat_store.1 hy
    have hp' : s.leaf y (pdx va') (ptx va') = some p :=
      (congrFun hu.target (.page y _ _)).symm.trans hp
    have hold := h.contents y va' p hy' hva' hp' hread
    -- the page is mapped here only
    have hhere : p = f → y = x ∧ pdx va' = pdx va ∧ ptx va' = ptx va := by
      rintro rfl
      obtain ⟨y', -, heq, hyx⟩ := h.sole x _ _ p hx hva hf (.page y (pdx va') (ptx va')) hp'
      obtain ⟨rfl, hi, hj⟩ := Slot.page.inj heq
      exact ⟨hyx hw, hi, hj⟩
    by_cases hpf : p = f
    · obtain ⟨rfl, hi, hj⟩ := hhere hpf
      subst hpf
      rw [fill_mem, Function.update_self, forkMemory]
      by_cases hsame : va' = va
      · rw [hsame, memory_store_self, byteAt_setByte_self]
      · have hne : pgoff va' ≠ pgoff va := by
          intro ho
          refine hsame (BitVec.eq_of_toNat_eq ?_)
          have hpn : pgnum va' = pgnum va := pgnum_inj hi hj
          rw [pgnum_eq, pgnum_eq] at hpn
          rw [pgoff_eq, pgoff_eq] at ho
          omega
        have hsp : (Event.store y va b : ForkEvent).Spares y va' := Or.inr (Ne.symm hsame)
        rw [memory_spares hsp, byteAt_setByte_ne _ _ (hoff va) (hoff va') hne]
        exact hold
    · have hsp : (Event.store x va b : ForkEvent).Spares y va' := by
        refine not_and_or.1 ?_
        rintro ⟨rfl, rfl⟩
        exact hpf (Option.some_inj.1 (hp'.symm.trans hf))
      rw [fill_mem_ne _ _ _ hpf, hold, forkMemory, forkMemory, memory_spares hsp]

/-- `pgfault` changes nothing that the environments could see. -/
theorem privatize (hinv : Inv res fl s) (hx : Member e₀ l x)
    (hp : s.leaf x (pdx va) (ptx va) = some p)
    (hpriv : Privatized res fl s x d va p g fl' s') : Lineage res s₀ e₀ d₀ l s' := by
  have hg : g < 2 ^ 20 := Inv.lt_pow s (hinv.free_lt hpriv.fresh)
  have hnot : ∀ {k}, s.target k ≠ some g := fun {k} => hinv.ok.free_unref g hpriv.fresh k
  have hentry : ∀ y i j, (i, j) ∈ forkRange → ¬ (y = x ∧ IsPage va i j) →
      s'.entry y i j = s.entry y i j := by
    intro y i j hij hne
    by_cases hyx : y = x
    · subst hyx
      exact hpriv.same i j (fun hh => hne ⟨rfl, hh⟩) (pftemp_out hij)
    · exact (hpriv.others y hyx).entry i j
  refine
    { turns := h.turns.privatize hx hpriv
      keeps := fun y i j hy hij => ?_
      sole := fun y i j q hy hij hq k hk => ?_
      contents := fun y va' q hy hva' hq hread => ?_ }
  · by_cases hyx : y = x ∧ IsPage va i j
    · obtain ⟨rfl, rfl, rfl⟩ := hyx
      rw [hpriv.entry]
      exact (h.keeps y _ _ hy hij).priv ((leaf_eq_framed s y _ _).symm.trans hp) g
    · rw [hentry y i j hij hyx]
      exact h.keeps y i j hy hij
  · obtain ⟨z, i', j', rfl⟩ := hpriv.run.inv.page_of_leaf hq hk
    rcases hpriv.leaf_cases hg hq with ⟨rfl, ⟨rfl, rfl⟩, rfl⟩ | ⟨hne, -, hq'⟩
    · rcases hpriv.leaf_cases hg (x := z) hk with ⟨rfl, ⟨rfl, rfl⟩, -⟩ | ⟨-, -, hk'⟩
      · exact ⟨z, hy, rfl, fun _ => rfl⟩
      · exact absurd hk' (hnot (k := .page z i' j'))
    · rcases hpriv.leaf_cases hg (x := z) hk with ⟨-, -, rfl⟩ | ⟨-, -, hk'⟩
      · exact absurd hq' (hnot (k := .page y i j))
      · rw [hentry y i j hij hne]
        exact h.sole y i j q hy hij hq' (.page z i' j') hk'
  · rcases hpriv.leaf_cases hg hq with ⟨rfl, ⟨hi, hj⟩, rfl⟩ | ⟨hne, hne', hq'⟩
    · rw [hpriv.copied]
      exact h.contents y va' p hy hva' (by rw [hi, hj]; exact hp) hread
    · rw [hpriv.data y _ _ q hq' hne']
      exact h.contents y va' q hy hva' hq' hread

/-- There are so few environments that the reference counts do not overflow. -/
theorem roomIn (hinv : Inv res fl s) (hx : Member e₀ l x) : s.RoomIn x forkRange := by
  intro i j p hij hp
  have hcount : s.counts p = Ledger.refs s.target p :=
    hinv.ok.ref_eq p (hinv.target_res (k := .page x i j) hp)
  have hle : Ledger.refs s.target p ≤ Fintype.card EnvIndex :=
    Ledger.refs_le_card (fun y : EnvIndex => Slot.page y i j) fun k hk => by
      obtain ⟨y, -, rfl, -⟩ := h.sole x i j p hx hij hp k hk
      exact ⟨y, rfl⟩
  have hcard : Fintype.card EnvIndex = 1024 := Fintype.card_fin 1024
  have hin := Ledger.refsIn_le_refs (Slot.IsPageOf x) s.target p
  omega

/-- A handler for page faults takes an exception stack, which is out of the range. -/
theorem handled (hinv : Inv res fl s) (hx : Member e₀ l x)
    (hh : Handled res fl s x d prog fl₀ s₁) : Lineage res s₀ e₀ d₀ l s₁ := by
  rcases hh.stack with ⟨-, rfl⟩ | ⟨-, pp, hpp, hstack, -⟩
  · exact h
  have hpp' : pp < 2 ^ 20 := Inv.lt_pow s (hinv.free_lt hpp)
  have hleaf : s₁.leaf x (pdx uxstack) (ptx uxstack) = some pp := by
    rw [leaf_eq_framed, hstack]
    exact framed_entry hpp' (by decide)
  have hentry : ∀ y i j, ¬ (y = x ∧ IsPage uxstack i j) → s₁.entry y i j = s.entry y i j := by
    intro y i j hne
    by_cases hyx : y = x
    · subst hyx
      exact hh.entry i j fun hh => hne ⟨rfl, hh⟩
    · exact (hh.others y hyx).entry i j
  have hout : ∀ {y i j}, (i, j) ∈ forkRange → ¬ (y = x ∧ IsPage uxstack i j) :=
    fun hij hh => IsPage.of_range hij hh.2
  have hold : ∀ {y i j q}, ¬ (y = x ∧ IsPage uxstack i j) → s₁.leaf y i j = some q →
      s.leaf y i j = some q := by
    intro y i j q hne hq
    rwa [leaf_eq_framed, hentry y i j hne, ← leaf_eq_framed] at hq
  refine
    { turns := ⟨⟨fl₀, hh.run.inv⟩, ⟨x, d, hx, hh.run.current, hh.run.dir, hh.run.loaded⟩,
        fun y hy => ?_⟩
      keeps := fun y i j hy hij => by rw [hentry y i j (hout hij)]; exact h.keeps y i j hy hij
      sole := fun y i j q hy hij hq k hk => ?_
      contents := fun y va q hy hva hq hread => ?_ }
  · by_cases hyx : y = x
    · exact ⟨d, hyx ▸ hh.run.alive⟩
    · exact (h.turns.alive y hy).imp fun _ ha => ha.of_same (hh.others y hyx) (hh.envs y hyx)
  · have hq' := hold (hout hij) hq
    obtain ⟨z, i', j', rfl⟩ := hh.run.inv.page_of_leaf hq hk
    rw [hentry y i j (hout hij)]
    by_cases hz : z = x ∧ IsPage uxstack i' j'
    · -- the new stack was free
      obtain ⟨rfl, rfl, rfl⟩ := hz
      obtain rfl : q = pp := Option.some_inj.1 (Eq.trans hk.symm hleaf)
      exact absurd hq' (hinv.ok.free_unref q hpp (.page y i j))
    · exact h.sole y i j q hy hij hq' (.page z i' j') (hold hz hk)
  · have hq' := hold (hout hva) hq
    rw [hh.data q (hinv.isData_leaf hq')]
    exact h.contents y va q hy hva hq' hread

end Lineage

/-! ## A child is born -/

section

variable (hb : Born res fl s x c d dc g (forkPerm s x) (s.cowPages x) s')
include hb

/-- Afterwards the pages in the range are mapped in the parent as before, or copy-on-write. -/
theorem Born.entry_parent (hij : (i, j) ∈ forkRange) (hp : s.leaf x i j = some p) :
    (s'.entry x i j = s.entry x i j ∨
      s'.entry x i j = remap (dupPerm (s.entry x i j)) (s.entry x i j)) ∧
      s'.entry x i j &&& pteW = 0#32 := by
  have hcopied : (i, j) ∈ s.copiedPages x := ⟨hij, by rw [Kernel.presentPages]; simp [hp]⟩
  by_cases hcow : (i, j) ∈ s.cowPages x
  · have hdup : dupPerm (s.entry x i j) = cowPerm := hcow
    rw [hb.marked i j ⟨hcopied, hcow⟩, ← hdup]
    exact ⟨Or.inr rfl, dup_readOnly _⟩
  · rw [hb.same i j (fun hh => hcow hh.2) (pftemp_out hij)]
    refine ⟨Or.inl rfl, ?_⟩
    by_contra hw
    exact hcow (if_pos (Or.inl hw))

/-- The child maps what the parent maps, -/
theorem Born.entry_child (hij : (i, j) ∈ forkRange) (hp : s.leaf x i j = some p) :
    s'.entry c i j = remap (dupPerm (s.entry x i j)) (s.entry x i j) :=
  hb.copied i j ⟨hij, by rw [Kernel.presentPages]; simp [hp]⟩

/-- and what it does not, the child does not. -/
theorem Born.entry_absent (hij : (i, j) ∈ forkRange) (hn : s.leaf x i j = none) :
    s'.entry c i j = 0#32 :=
  hb.absent i j (fun hh => hh.2 hn) (IsPage.of_range hij)

theorem Born.entry_unmapped (hij : (i, j) ∈ forkRange) (hn : s.leaf x i j = none) :
    s'.entry x i j = s.entry x i j :=
  hb.same i j (fun hh => hh.1.2 hn) (pftemp_out hij)

/-- All mappings there are, the child's new stack apart, are old ones or copies of them. -/
theorem Born.leaf_old (hfree : ∀ q ∈ fl, q < 2 ^ 20) {y : EnvIndex}
    (hq : s'.leaf y i j = some q) :
    (IsPage uxstack i j ∧ q ∈ fl) ∨ (y = c ∧ s.leaf x i j = some q) ∨
      y ≠ c ∧ s.leaf y i j = some q := by
  by_cases hyc : y = c
  · subst hyc
    by_cases hcopied : (i, j) ∈ s.copiedPages x
    · exact Or.inr (Or.inl ⟨rfl, (hb.leaf hcopied).symm.trans hq⟩)
    · by_cases hstack : IsPage uxstack i j
      · obtain ⟨rfl, rfl⟩ := hstack
        obtain ⟨pp, hpp, hentry, -⟩ := hb.stack
        rw [leaf_eq_framed, hentry, framed_entry (hfree pp hpp) (by decide)] at hq
        exact Or.inl ⟨⟨rfl, rfl⟩, Option.some_inj.1 hq ▸ hpp⟩
      · rw [leaf_eq_framed, hb.absent i j hcopied hstack, framed_zero] at hq
        cases hq
  · refine Or.inr (Or.inr ⟨hyc, ?_⟩)
    by_cases hyx : y = x
    · subst hyx
      by_cases hmark : (i, j) ∈ s.copiedPages y ∩ s.cowPages y
      · have hsome : s.leaf y i j ≠ none := hmark.1.2
        obtain ⟨p, hp⟩ := Option.ne_none_iff_exists'.1 hsome
        rw [leaf_eq_framed, hb.marked i j hmark] at hq
        rw [hp, ← hq]
        exact (framed_remap (by decide) ((leaf_eq_framed s y i j).symm.trans hp)).symm
      · by_cases htemp : IsPage pftemp i j
        · obtain ⟨rfl, rfl⟩ := htemp
          rw [leaf_eq_framed, hb.temp, framed_zero] at hq
          cases hq
        · rwa [leaf_eq_framed, hb.same i j hmark htemp, ← leaf_eq_framed] at hq
    · rwa [(hb.others y hyx hyc).leaf] at hq

/-- **A child is born.**  Nothing that it shares with its parent can be written to by either. -/
theorem Born.lineage {l : List ForkEvent} (h : Lineage res s₀ e₀ d₀ l s) (hr : Running res fl s x d)
    (hx : Member e₀ l x) : Lineage res s₀ e₀ d₀ (l ++ [.fork x c]) s' := by
  have hnew : ∀ {y}, Member e₀ l y → y ≠ c := by
    rintro y hy rfl
    obtain ⟨d', ha⟩ := h.turns.alive y hy
    exact live_of_dir ha.dir hb.status.1
  have hfl : ∀ q ∈ fl, q < 2 ^ 20 := fun q hq => Inv.lt_pow s (hr.inv.free_lt hq)
  have hux : s.leaf x (pdx uxstack) (ptx uxstack) = some g :=
    leaf_of_translate hr.dir userPage_uxstack.1 hb.parentStack.1
  -- a page in the range has been in the hands of the family before
  have hfrom : ∀ y i j q, Member e₀ (l ++ [.fork x c]) y → (i, j) ∈ forkRange →
      s'.leaf y i j = some q → ∃ y₀, Member e₀ l y₀ ∧ s.leaf y₀ i j = some q ∧
        (y = c ∧ y₀ = x ∨ y ≠ c ∧ y₀ = y) := by
    intro y i j q hy hij hq
    rcases hb.leaf_old hfl hq with ⟨hstack, -⟩ | ⟨rfl, hq₀⟩ | ⟨hyc, hq₀⟩
    · exact absurd hstack (IsPage.of_range hij)
    · exact ⟨x, hx, hq₀, Or.inl ⟨rfl, rfl⟩⟩
    · exact ⟨y, (member_concat_fork.1 hy).resolve_right hyc, hq₀, Or.inr ⟨hyc, rfl⟩⟩
  -- and can be written to only if neither parent nor child has it
  have hwrite : ∀ y i j q, Member e₀ (l ++ [.fork x c]) y → (i, j) ∈ forkRange →
      s'.leaf y i j = some q → s'.entry y i j &&& pteW ≠ 0#32 →
        y ≠ c ∧ y ≠ x ∧ s.entry y i j &&& pteW ≠ 0#32 := by
    intro y i j q hy hij hq hw
    obtain ⟨y₀, -, hq₀, ⟨rfl, rfl⟩ | ⟨hyc, rfl⟩⟩ := hfrom y i j q hy hij hq
    · rw [hb.entry_child hij hq₀] at hw
      exact absurd (dup_readOnly _) hw
    · by_cases hyx : y₀ = x
      · subst hyx
        exact absurd (hb.entry_parent hij hq₀).2 hw
      · rw [(hb.others y₀ hyx hyc).entry] at hw
        exact ⟨hyc, hyx, hw⟩
  refine
    { turns := ⟨hb.inv, ⟨x, d, member_concat_fork.2 (Or.inl hx), hb.curenv.trans hr.current,
        hb.dir_parent hr.dir, hb.loaded.trans hr.loaded⟩, fun y hy => ?_⟩
      keeps := fun y i j hy hij => ?_
      sole := fun y i j q hy hij hq k hk => ?_
      contents := fun y va q hy hva hq hread => ?_ }
  · by_cases hyc : y = c
    · exact ⟨dc, hyc ▸ hb.dir, hyc ▸ hb.id, hyc ▸ hb.linked.2⟩
    by_cases hyx : y = x
    · subst hyx
      exact ⟨d, hb.dir_parent hr.dir, by rw [hb.envs y hyc]; exact hr.id, hb.linked.1⟩
    · exact (h.turns.alive y ((member_concat_fork.1 hy).resolve_right hyc)).imp fun _ ha =>
        ha.of_same (hb.others y hyx hyc) (hb.envs y hyc)
  · have hkeeps := h.keeps x i j hx hij
    by_cases hyc : y = c
    · subst hyc
      cases hp : s.leaf x i j with
      | none =>
        rw [hb.entry_absent hij hp]
        exact hkeeps.gone ((leaf_eq_framed s x i j).symm.trans hp)
      | some p =>
        rw [hb.entry_child hij hp]
        exact hkeeps.dup ((leaf_eq_framed s x i j).symm.trans hp)
    by_cases hyx : y = x
    · subst hyx
      cases hp : s.leaf y i j with
      | none => rwa [hb.entry_unmapped hij hp]
      | some p =>
        rcases (hb.entry_parent hij hp).1 with hent | hent
        · rwa [hent]
        · rw [hent]
          exact hkeeps.dup ((leaf_eq_framed s y i j).symm.trans hp)
    · rw [(hb.others y hyx hyc).entry]
      exact h.keeps y i j ((member_concat_fork.1 hy).resolve_right hyc) hij
  · obtain ⟨fl', hinv⟩ := hb.inv
    obtain ⟨y₀, hy₀, hq₀, hcase⟩ := hfrom y i j q hy hij hq
    obtain ⟨z, i', j', rfl⟩ := hinv.page_of_leaf hq hk
    have hsole := h.sole y₀ i j q hy₀ hij hq₀
    rcases hb.leaf_old hfl hk with ⟨-, hmem⟩ | ⟨rfl, hk'⟩ | ⟨hzc, hk'⟩
    · exact absurd hq₀ (hr.inv.ok.free_unref q hmem (.page y₀ i j))
    · obtain ⟨y', -, heq, hw'⟩ := hsole (.page x i' j') hk'
      obtain ⟨rfl, rfl, rfl⟩ := Slot.page.inj heq
      refine ⟨z, member_concat_fork.2 (Or.inr rfl), rfl, fun hw => ?_⟩
      obtain ⟨hyc, hyx, hw₀⟩ := hwrite y i' j' q hy hij hq hw
      rcases hcase with ⟨rfl, -⟩ | ⟨-, rfl⟩
      · exact absurd rfl hyc
      · exact absurd (hw' hw₀).symm hyx
    · obtain ⟨y', hy', heq, hw'⟩ := hsole (.page z i' j') hk'
      obtain ⟨rfl, rfl, rfl⟩ := Slot.page.inj heq
      refine ⟨z, member_concat_fork.2 (Or.inl hy'), rfl, fun hw => ?_⟩
      obtain ⟨hyc, hyx, hw₀⟩ := hwrite y i' j' q hy hij hq hw
      rcases hcase with ⟨rfl, -⟩ | ⟨-, rfl⟩
      · exact absurd rfl hyc
      · exact hw' hw₀
  · obtain ⟨y₀, hy₀, hq₀, hcase⟩ := hfrom y _ _ q hy hva hq
    -- the exception stack is out of the range
    have hqg : q ≠ g := by
      rintro rfl
      obtain ⟨y', -, heq, -⟩ := h.sole y₀ _ _ q hy₀ hva hq₀ (.page x _ _) hux
      obtain ⟨-, hi, hj⟩ := Slot.page.inj heq
      exact uxstack_out (by rw [hi, hj]; exact hva)
    rw [hb.data q (hr.inv.isData_leaf hq₀) hqg, h.contents y₀ va q hy₀ hva hq₀ hread, forkMemory,
      forkMemory]
    rcases hcase with ⟨rfl, rfl⟩ | ⟨hyc, rfl⟩
    · rw [memory_fork_self]
    · have hsp : (Event.fork x c : ForkEvent).Spares y₀ va := Ne.symm hyc
      rw [memory_spares hsp]

end

/-! ## Runs -/

theorem va_lt_utop (h : va < uxstacktop - pgsize) : va < utop := by
  have hstack : (uxstacktop - pgsize).toNat = 0xEEBFF000 := rfl
  have hutop : utop.toNat = 0xEEC00000 := rfl
  rw [BitVec.lt_def] at h ⊢
  omega

/-- Environment `x` has stored something, which has taken two pages at most. -/
structure MemberStored (res : Nat → Prop) (fl : List Nat) (s : Kernel) (x : EnvIndex)
    (fl' : List Nat) (s' : Kernel) : Prop where
  inv : Inv res fl' s'
  only : MemOnly s s'
  others : ∀ y, y ≠ x → SameSpace s s' y
  free : fl.length ≤ fl'.length + 2

/-- To a page that may be written to, -/
theorem MemberStored.plain (hinv : Inv res fl s) (hf : s.leaf x i j = some f) (pg : Page) :
    MemberStored res fl s x fl (s.fill f pg) :=
  have hu := UserStores.fill hinv hf pg
  ⟨hu.inv, hu.only, fun y _ => hu.sameSpace y, Nat.le_add_right ..⟩

/-- or to a copy. -/
theorem MemberStored.copy (hpriv : Privatized res fl s x d va p g fl' s') (hg : g < 2 ^ 20)
    (pg : Page) :
    MemberStored res fl s x fl' (s'.fill g pg) := by
  have hleaf : s'.leaf x (pdx va) (ptx va) = some g := by
    rw [leaf_eq_framed, hpriv.entry]
    exact framed_entry hg (by decide)
  have hu := UserStores.fill hpriv.run.inv hleaf pg
  have hfree := hpriv.free
  have htemp := tablesFor_le s x pftemp
  exact ⟨hu.inv, MemOnly.trans _ _ _ hpriv.only hu.only, fun y hy =>
    (hpriv.others y hy).trans hpriv.only.envs (hu.sameSpace y), by omega⟩

namespace Lineage

variable {l : List ForkEvent} (h : Lineage res s₀ e₀ d₀ l s)
include h

/-- What could be read at the start is there. -/
theorem mapped (hx : Member e₀ l x) (hij : (i, j) ∈ forkRange)
    (hread : s₀.entry e₀ i j &&& userRead = userRead) :
    s.entry x i j &&& userRead = userRead ∧ ∃ p, s.leaf x i j = some p := by
  have hr := (h.keeps x i j hx hij).read hread
  refine ⟨hr, Option.ne_none_iff_exists'.1 fun hn => ?_⟩
  have hpres : s.entry x i j &&& pteP = 0#32 :=
    framed_eq_none.1 ((leaf_eq_framed s x i j).symm.trans hn)
  have hsub : userRead &&& pteP = pteP := by decide
  rw [← hsub, ← BitVec.and_assoc, hr] at hpres
  exact absurd hpres (by decide)

/-- **A load** returns what the environment has in the memory that is its own. -/
theorem load (hc : s.curenv = some x) (hva : (pdx va, ptx va) ∈ forkRange)
    (hread : s₀.entry e₀ (pdx va) (ptx va) &&& userRead = userRead) :
    (uloadByte va).run s = .ok (s₀.forkMemory d₀ l x va) s := by
  obtain ⟨fl, d, hx, hr⟩ := h.turns.running hc
  obtain ⟨hflags, p, hp⟩ := h.mapped hx hva hread
  have htr := hr.alive.translate (by decide) hp hflags
  rw [← hr.loaded, userRead] at htr
  simp only [uloadByte, EStateM.run_bind, EStateM.run_get, htr]
  rw [h.contents x va p hx hva hp hread]
  rfl

/-- **A store** by one environment, unless there is no page for the copy. -/
theorem store (hinv : Inv res fl s) (hc : s.curenv = some x) (hva : (pdx va, ptx va) ∈ forkRange)
    (hw : s₀.entry e₀ (pdx va) (ptx va) &&& userWrite = userWrite) (b : Byte) :
    (fl.length < 1 + s.tablesFor x pftemp ∧
      ∃ err s', (storeHandled va fun pg o => setByte pg o b).run s = .error err s') ∨
    ∃ fl' s', (storeHandled va fun pg o => setByte pg o b).run s = .ok () s' ∧
      MemberStored res fl s x fl' s' ∧ Lineage res s₀ e₀ d₀ (l ++ [.store x va b]) s' := by
  obtain ⟨_, d, hx, hcur⟩ := h.turns.running hc
  have hr := hcur.alive.running hinv hc hcur.loaded
  obtain ⟨hflags, p, hp⟩ := h.mapped hx hva (userRead_of_write hw)
  have hlt := lt_utop_of_leaf hp
  rcases hr.storeHandled_run hlt (pftemp_out hva) (fun pg o => setByte pg o b) with
    ⟨f, hf, hrun⟩ | ⟨hno, hwhy, hfail⟩ | ⟨q, g, fl', s', -, -, hq, hpriv, htr, hrun⟩
  · obtain ⟨-, -, -, hpte, hleaf, -⟩ := (translate_eq_some hr.dir hlt).1 hf
    exact Or.inr ⟨fl, _, hrun, .plain hinv hleaf _,
      h.write hinv hx hva hleaf (pteW_of_write hpte) b⟩
  · refine Or.inl ⟨?_, hfail⟩
    rcases hwhy with hcow | hread | hlack
    · -- a page that is not copy-on-write can be written to
      have hwr := ((h.keeps x _ _ hx hva).write hw).resolve_right (not_not.2 hcow)
      have hall := and_userWrite hflags hwr
      rw [hr.alive.translate (by decide) hp hall] at hno
      cases hno
    · rw [hr.alive.translate (by decide) hp hflags] at hread
      cases hread
    · exact hlack
  · have hg : g < 2 ^ 20 := Inv.lt_pow s (hinv.free_lt hpriv.fresh)
    have hleaf : s'.leaf x (pdx va) (ptx va) = some g := by
      rw [leaf_eq_framed, hpriv.entry]
      exact framed_entry hg (by decide)
    have hpte : s'.entry x (pdx va) (ptx va) &&& pteW ≠ 0#32 := by
      rw [hpriv.entry, entry_and (by decide) (by decide)]
      decide
    exact Or.inr ⟨fl', _, hrun, .copy hpriv hg _,
      (h.privatize hinv hx hq hpriv).write hpriv.run.inv hx hva hleaf hpte b⟩

/-- **`fork`** makes another member. -/
theorem fork (hc : s.curenv = some x) (hrun : (Jos.fork prog).run s = .ok r s') (hr : 0 < r.toInt) :
    Lineage res s₀ e₀ d₀ (l ++ [.fork x (envx r)]) s' := by
  obtain ⟨fl, d, hx, hrunning⟩ := h.turns.running hc
  obtain ⟨fl₀, s₁, dc, g, hh, hb⟩ := fork_born hrunning (h.roomIn hrunning.inv hx) hrun hr
  exact hb.lineage (h.handled hrunning.inv hx hh) hh.run hx

end Lineage

/-- Where the family stands after a run. -/
theorem ForkRun.lineage {l : List ForkEvent} (h : Running res fl s₀ e₀ d₀) (hsole : s₀.Sole e₀)
    (hrun : ForkRun s₀ e₀ d₀ l s) : Lineage res s₀ e₀ d₀ l s := by
  induction hrun with
  | start => exact Lineage.start h hsole
  | switch _ hx hst hsw ih => exact ih.switch hx hst hsw
  | load _ hload ih => exact uloadByte_state hload ▸ ih
  | store _ hc hlo hhi hw hstore ih =>
    have hva := mem_forkRange_of_va hlo hhi
    have hentry := entry_of_translate h.dir (va_lt_utop hhi) hw
    obtain ⟨fl', hinv⟩ := ih.turns.inv
    rcases ih.store hinv hc hva hentry _ with ⟨-, err, s₁, herr⟩ | ⟨_, s₁, hok, -, hfam⟩
    · exact absurd (herr.symm.trans hstore) (by simp)
    · obtain rfl : s₁ = _ := (EStateM.Result.ok.inj (hok.symm.trans hstore)).2
      exact hfam
  | fork prog _ hc hfork hr ih => exact ih.fork hc hfork hr

/-! ## Copying -/

/-- At `va`, environment `x` has what it would have if each `fork` had copied the pages. -/
structure AsCopied (s₀ : Kernel) (d₀ : Nat) (l : List ForkEvent) (s : Kernel) (x : EnvIndex)
    (va : Word) : Prop where
  load : (uloadByte va).run s = .ok (s₀.forkMemory d₀ l x va) s
  /-- That is what `x` has stored there last, whatever the others have stored since, -/
  own : ∀ l₁ l₂ b, l = l₁ ++ .store x va b :: l₂ → (∀ ev ∈ l₂, ev.Spares x va) →
    (uloadByte va).run s = .ok b s
  /-- or what its parent had there when it made `x`, -/
  inherited : ∀ l₁ l₂ y, l = l₁ ++ .fork y x :: l₂ → (∀ ev ∈ l₂, ev.Spares x va) →
    (uloadByte va).run s = .ok (s₀.forkMemory d₀ l₁ y va) s
  /-- or what has been there from the start. -/
  first : ∀ b, s₀.readByte d₀ userRead va = some b → (∀ ev ∈ l, ev.Spares x va) →
    (uloadByte va).run s = .ok b s

/-- **`fork` is as good as copying.**  In every tree of environments, each of them finds on the
pages of the range what it has stored itself or has got from its parent, and it can store there as
long as there are free pages. -/
theorem fork_refines {l : List ForkEvent} (h : Running res fl s₀ e₀ d₀) (hsole : s₀.Sole e₀)
    (hrun : ForkRun s₀ e₀ d₀ l s) (hc : s.curenv = some x) (hlo : utext ≤ va)
    (hhi : va < uxstacktop - pgsize) :
    (s₀.readByte d₀ userRead va ≠ none → AsCopied s₀ d₀ l s x va) ∧
    (s₀.translate d₀ userWrite va ≠ none → ∀ b,
      (∃ s', (storeHandled va fun pg o => setByte pg o b).run s = .ok () s') ∨
        ∃ fl', Inv res fl' s ∧ fl'.length < 1 + s.tablesFor x pftemp) := by
  have hfam := hrun.lineage h hsole
  have hva := mem_forkRange_of_va hlo hhi
  refine ⟨fun hread => ?_, fun hw b => ?_⟩
  · have hfound : s₀.translate d₀ userRead va ≠ none := fun hn => hread (by
      rw [Kernel.readByte, hn, Option.map_none])
    have hload := hfam.load hc hva (entry_of_translate h.dir (va_lt_utop hhi) hfound)
    refine ⟨hload, ?_, ?_, fun b hb hl => ?_⟩
    · rintro l₁ l₂ b rfl hl₂
      rw [hload, Kernel.forkMemory, memory_last hl₂]
    · rintro l₁ l₂ y rfl hl₂
      rw [hload, Kernel.forkMemory, memory_inherited hl₂]
      rfl
    · rw [hload, Kernel.forkMemory, memory_unchanged hl, Kernel.contents, hb, Option.getD_some]
  · have hentry := entry_of_translate h.dir (va_lt_utop hhi) hw
    obtain ⟨fl', hinv⟩ := hfam.turns.inv
    rcases hfam.store hinv hc hva hentry b with ⟨hlack, -⟩ | ⟨_, s', hok, -⟩
    · exact Or.inr ⟨fl', hinv, hlack⟩
    · exact Or.inl ⟨s', hok⟩

/-- A new page is nobody else's. -/
theorem Kernel.Sole.alloc (hsole : s.Sole x) (h : Running res fl s x d) (huser : UserPage va)
    (hrun : (sysPageAlloc (s.envs x).envId va userPerm).run s = .ok 0#32 s') : s'.Sole x := by
  have hperm : PermOk userPerm := by decide
  rcases h.inv.sysPageAlloc_put h.current h.resolve_self h.dir huser hperm with
    ⟨s₁, hfail, -, -⟩ | ⟨pp, rest, fl₁, s₁, rfl, hput, hp⟩
  · exact absurd (EStateM.Result.ok.inj (hfail.symm.trans hrun)).1 (by decide)
  obtain rfl : s₁ = s' := (EStateM.Result.ok.inj (hput.symm.trans hrun)).2
  intro i j q hij hq k hk
  by_cases hpage : IsPage va i j
  · obtain ⟨rfl, rfl⟩ := hpage
    obtain rfl : pp = q := Option.some_inj.1 ((h.put_leaf hp hperm.isPerm).symm.trans hq)
    exact h.put_sole hp hperm.isPerm hk
  · rw [leaf_eq_framed, h.put_entry hp hpage, ← leaf_eq_framed] at hq
    obtain ⟨y, i', j', rfl⟩ := hp.inv.page_of_leaf (x := x) (i := i) (j := j)
      (by rw [leaf_eq_framed, h.put_entry hp hpage, ← leaf_eq_framed]; exact hq) hk
    by_cases hnew : Slot.page y i' j' = .page x (pdx va) (ptx va)
    · rw [hnew] at hk
      obtain rfl : pp = q := Option.some_inj.1 ((h.put_leaf hp hperm.isPerm).symm.trans hk)
      exact absurd hq (h.inv.ok.free_unref pp List.mem_cons_self (.page x i j))
    · rw [h.put_target hp hperm.isPerm id hnew] at hk
      exact hsole i j q hij hq _ hk

theorem prepared_sole (n : Fin 64) (hn : 4 ≤ n.val) : (prepared n).Sole 0 := by
  obtain ⟨p, fl₁, s₁, g, fl₂, hrun₁, h₁, hrun₂, -, -⟩ := prepared_steps n hn
  have h₀ : (roomy n).Sole 0 := fun i j p _ hp =>
    absurd ((oneEnv_target (.page 0 i j)).symm.trans hp) (by simp)
  have hutext : UserPage utext := by decide
  exact (h₀.alloc (roomy_running n).1 hutext hrun₁).alloc h₁.run userPage_uxstack hrun₂

/-! ## A parent and a child -/

/-- A store to a page that is not writable faults. -/
theorem Running.not_writable (h : Running res fl s e₀ d) (hva : va < utop)
    (hw : s.entry e₀ (pdx va) (ptx va) &&& pteW = 0#32) : s.writable va = none := by
  rw [Kernel.writable, h.loaded]
  by_contra hne
  exact absurd hw (pteW_of_write (entry_of_translate h.dir hva hne))

/-- It becomes the turn of a member that is waiting for it, and the one before it waits. -/
theorem ForkRun.turn {l : List ForkEvent} (hrun : ForkRun s₀ e₀ d₀ l s)
    (h : Lineage res s₀ e₀ d₀ l s) (hinv : Inv res fl s) (hx : Member e₀ l x)
    (hst : (s.envs x).envStatus = .runnable) : ∃ s', ForkRun s₀ e₀ d₀ l s' ∧ Inv res fl s' ∧
      s'.curenv = some x ∧ (∀ y, SameSpace s s' y) ∧
      ∀ y, y ≠ x → s.curenv = some y → (s.envs y).envStatus = .running →
        (s'.envs y).envStatus = .runnable := by
  obtain ⟨d, ha⟩ := h.turns.alive x hx
  have ho := dispatch_handover (Or.inl hst) d
  refine ⟨_, .switch hrun hx (Or.inl hst) (envRun_run (envPgdir_of_dir ha.dir)), hinv.handover ho,
    dispatch_curenv s x d, ho.sameSpace, fun y hy hc hrunning => ?_⟩
  have hother : (s.dispatch x d).envs y = s.descheduled y := Function.update_of_ne hy _ _
  rw [hother, Kernel.descheduled, if_pos ⟨hc, hrunning⟩]

theorem prepared_status (n : Fin 64) (hn : 4 ≤ n.val) :
    ((prepared n).envs 0).envStatus = .running := by
  obtain ⟨p, fl₁, s₁, g, fl₂, -, h₁, -, h₂, -⟩ := prepared_steps n hn
  rw [h₂.only.envs, h₁.only.envs]
  rfl

/-- Both of them store at `UTEXT`, where each has a page fault, and each finds what it has
stored. -/
theorem fork_refines_prepared : ∃ fl c s₁ s₃ s₄ s₅,
    Running (roomyRes 13) fl (prepared 13) 0 1 ∧ (prepared 13).Sole 0 ∧
    (ForkRun (prepared 13) 0 1 [.fork 0 c] s₁ ∧ s₁.writable utext = none) ∧
    (ForkRun (prepared 13) 0 1 [.fork 0 c, .store 0 utext 1#8] s₃ ∧ s₃.curenv = some c ∧
      s₃.writable utext = none) ∧
    (ForkRun (prepared 13) 0 1 [.fork 0 c, .store 0 utext 1#8, .store c utext 2#8] s₄ ∧
      s₄.curenv = some c ∧ (uloadByte utext).run s₄ = .ok 2#8 s₄) ∧
    ForkRun (prepared 13) 0 1 [.fork 0 c, .store 0 utext 1#8, .store c utext 2#8] s₅ ∧
      s₅.curenv = some 0 ∧ (uloadByte utext).run s₅ = .ok 1#8 s₅ := by
  obtain ⟨fl, p, g, h⟩ := prepared_spec 13 (by decide)
  have hsole := prepared_sole 13 (by decide)
  obtain ⟨r, s₁, hfork, hr, fl₁, hinv₁, hlen⟩ := h.forks (by decide)
  have h13 : (13 : Fin 64).val = 13 := rfl
  obtain ⟨fl₀, s₀, dc, g', hh, hb⟩ := fork_born h.run (h.room.roomIn _) hfork hr
  obtain rfl : s₀ = prepared 13 := hh.stack.elim (fun hs => hs.2) fun hs => absurd hs.1 (by decide)
  generalize hc : envx r = c at hb
  have hlo : utext ≤ utext := by decide
  have hhi : utext < uxstacktop - pgsize := by decide
  have hva := mem_forkRange_of_va hlo hhi
  have hleaf : (prepared 13).leaf 0 (pdx utext) (ptx utext) = some p := by
    rw [leaf_eq_framed, h.text.1]
    exact framed_entry h.text.2 (by decide)
  have hw : (prepared 13).entry 0 (pdx utext) (ptx utext) &&& userWrite = userWrite := by
    rw [h.text.1, BitVec.or_assoc]
    exact or_and_of_and _ (by decide)
  have hread : (prepared 13).readByte 1 userRead utext ≠ none := by
    rw [readByte_mapped h.run.dir h.run.tables rfl h.text.1 h.text.2]
    simp
  have hwrite : (prepared 13).translate 1 userWrite utext ≠ none := by
    rw [h.run.alive.translate (by decide) hleaf hw]
    simp
  -- the parent
  have hrun₁ : ForkRun (prepared 13) 0 1 [.fork 0 c] s₁ :=
    hc ▸ .fork handlerSet .start h.run.current hfork hr
  have hc₁ : s₁.curenv = some 0 := hb.curenv.trans h.run.current
  obtain ⟨_, d₁, -, hcur₁⟩ := (hrun₁.lineage h.run hsole).turns.running hc₁
  have hfault₁ := hcur₁.not_writable (va_lt_utop hhi) (hb.entry_parent hva hleaf).2
  have htab₁ := tablesFor_le s₁ 0 pftemp
  rcases (hrun₁.lineage h.run hsole).store hinv₁ hc₁ hva hw 1#8 with
    ⟨hlack, -⟩ | ⟨fl₂, s₂, hstore₂, hst₂, -⟩
  · omega
  have hrun₂ : ForkRun (prepared 13) 0 1 [.fork 0 c, .store 0 utext 1#8] s₂ :=
    .store hrun₁ hc₁ hlo hhi hwrite hstore₂
  have hfree₂ := hst₂.free
  -- the child
  have hmem {l : List ForkEvent} : Member (0 : EnvIndex) (.fork 0 c :: l) c :=
    Or.inr ⟨0, List.mem_cons_self⟩
  have hready : (s₂.envs c).envStatus = .runnable := by
    rw [hst₂.only.envs]
    exact hb.status.2
  obtain ⟨s₃, hrun₃, hinv₃, hc₃, hsame₃, hwait₃⟩ :=
    hrun₂.turn (hrun₂.lineage h.run hsole) hst₂.inv hmem hready
  have hentry : s₃.entry c (pdx utext) (ptx utext) &&& pteW = 0#32 := by
    rw [(hsame₃ c).entry, (hst₂.others c hb.ne).entry, hb.entry_child hva hleaf]
    exact dup_readOnly _
  obtain ⟨_, d₃, -, hcur₃⟩ := (hrun₃.lineage h.run hsole).turns.running hc₃
  have hfault₃ := hcur₃.not_writable (va_lt_utop hhi) hentry
  have htab₃ := tablesFor_le s₃ c pftemp
  rcases (hrun₃.lineage h.run hsole).store hinv₃ hc₃ hva hw 2#8 with
    ⟨hlack, -⟩ | ⟨fl₄, s₄, hstore₄, hst₄, -⟩
  · omega
  have hrun₄ : ForkRun (prepared 13) 0 1
      [.fork 0 c, .store 0 utext 1#8, .store c utext 2#8] s₄ :=
    .store hrun₃ hc₃ hlo hhi hwrite hstore₄
  have hc₄ : s₄.curenv = some c := hst₄.only.curenv.trans hc₃
  have hcopy₄ := (fork_refines h.run hsole hrun₄ hc₄ hlo hhi).1 hread
  have hload₄ : (uloadByte utext).run s₄ = .ok 2#8 s₄ :=
    hcopy₄.own [.fork 0 c, .store 0 utext 1#8] [] 2#8 rfl fun _ hev => absurd hev List.not_mem_nil
  -- the parent again
  have hwait : (s₄.envs 0).envStatus = .runnable := by
    rw [hst₄.only.envs]
    refine hwait₃ 0 hb.ne.symm (hst₂.only.curenv.trans hc₁) ?_
    rw [hst₂.only.envs, hb.envs 0 hb.ne.symm]
    exact prepared_status 13 (by decide)
  obtain ⟨s₅, hrun₅, -, hc₅, -⟩ :=
    hrun₄.turn (hrun₄.lineage h.run hsole) hst₄.inv member_first hwait
  have hcopy₅ := (fork_refines h.run hsole hrun₅ hc₅ hlo hhi).1 hread
  have hload₅ : (uloadByte utext).run s₅ = .ok 1#8 s₅ :=
    hcopy₅.own [.fork 0 c] [.store c utext 2#8] 1#8 rfl fun ev hev => by
      obtain rfl := List.mem_singleton.1 hev
      exact Or.inl hb.ne
  exact ⟨fl, c, s₁, s₃, s₄, s₅, h.run, hsole, ⟨hrun₁, hfault₁⟩, ⟨hrun₃, hc₃, hfault₃⟩,
    ⟨hrun₄, hc₄, hload₄⟩, hrun₅, hc₅, hload₅⟩

end Jos
