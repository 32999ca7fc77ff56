import Jos.Fork.Outcome

/-!
# Parent and child

`Born` collects what `fork` and `sfork` have made of the parent and of the child when they return
the child's id, and `forkWith_run` says what they have done otherwise.
-/

set_option autoImplicit false

namespace Jos

open Kernel Command

variable {res : Nat → Prop} {fl fl' fl₁ fl₂ : List Nat} {s s' s₀ s₁ s₂ s₃ : Kernel}
variable {e c : EnvIndex} {d dc g p pp t : Nat} {va cid r : Word} {i j : Index} {prog : Program}
variable {sent : Index → Index → Word} {M : Set (Index × Index)}

/-- The pages that are copied. -/
def Kernel.copiedPages (s : Kernel) (e : EnvIndex) : Set (Index × Index) :=
  forkRange ∩ s.presentPages e

/-- Environment `e` has made the child `c`: the pages in the range have been mapped into it with the
flags `sent`, and those in `M` are copy-on-write in the parent.  Page `g` is the exception stack of
the parent. -/
structure Born (res : Nat → Prop) (fl : List Nat) (s : Kernel) (e c : EnvIndex) (d dc g : Nat)
    (sent : Index → Index → Word) (M : Set (Index × Index)) (s' : Kernel) : Prop where
  inv : ∃ fl', Inv res fl' s'
  ne : c ≠ e
  status : (s.envs c).envStatus = .free ∧ (s'.envs c).envStatus = .runnable
  envs : ∀ x, x ≠ c → s'.envs x = s.envs x
  curenv : s'.curenv = s.curenv
  loaded : s'.cr3 s'.cpunum = s.cr3 s.cpunum
  dir : s'.dir c = some dc
  id : envx (s'.envs c).envId = c ∧ (s'.envs c).envId ≠ 0#32
  others : ∀ x, x ≠ e → x ≠ c → SameSpace s s' x
  kept : ∀ i t, s.table e i = some t → s'.table e i = some t ∧ s'.mem d i = s.mem d i
  tempTable : s'.table e (pdx pftemp) ≠ none
  linked : s'.Linked e d ∧ s'.Linked c dc
  marked : ∀ i j, (i, j) ∈ s.copiedPages e ∩ M → s'.entry e i j = remap cowPerm (s.entry e i j)
  same : ∀ i j, (i, j) ∉ s.copiedPages e ∩ M → ¬ IsPage pftemp i j →
    s'.entry e i j = s.entry e i j
  temp : s'.entry e (pdx pftemp) (ptx pftemp) = 0#32
  copied : ∀ i j, (i, j) ∈ s.copiedPages e → s'.entry c i j = remap (sent i j) (s.entry e i j)
  absent : ∀ i j, (i, j) ∉ s.copiedPages e → ¬ IsPage uxstack i j → s'.entry c i j = 0#32
  /-- The child's exception stack is a page of zeros. -/
  stack : ∃ pp ∈ fl, s'.entry c (pdx uxstack) (ptx uxstack) = page2pa pp ||| pteP ||| userPerm ∧
    s'.mem pp = fun _ => 0#32
  /-- So is the parent's, now. -/
  parentStack : s.translate d userWrite uxstack = some (g, 0) ∧ s'.mem g = fun _ => 0#32
  data : ∀ p, s.IsData fl p → p ≠ g → s'.mem p = s.mem p

theorem Born.of_steps (h : Running res (p :: fl₁) s e d) (hc : s.envFreeList = some c)
    (hb : Begun res fl₁ (s.forked e c p) e c d p cid)
    (hcopy : Copying res fl₁ (s.forked e c p) e c d p sent
      (forkRange ∩ (s.forked e c p).presentPages e ∩ M)
      (forkRange ∩ (s.forked e c p).presentPages e) fl₂ s₂)
    (hst : Staged res fl₂ s₂ e c d p g pp s₃) {func : Word} (hgo : Started s₃ c func s') :
    Born res (p :: fl₁) s e c d p g sent M s' := by
  have hframe := (h.inv.forked hc e).2.2
  have hec : ¬ e = c := fun hh => hb.ne hh.symm
  have hsame₁ : SameSpace s (s.forked e c p) e := SameSpace.of_frame hframe hec
  have hpresent : (s.forked e c p).presentPages e = s.presentPages e := by
    ext ⟨i, j⟩
    exact not_congr (by rw [hsame₁.leaf])
  rw [hpresent] at hcopy
  have hrange : ∀ {i j}, (i, j) ∈ s.copiedPages e → (i, j) ∈ forkRange := fun hh => hh.1
  have henvs₃ : s₃.envs = (s.forked e c p).envs := hst.only.envs.trans hcopy.only.envs
  have hs₁ : ∀ x, x ≠ c → (s.forked e c p).envs x = s.envs x := fun x hx => by
    rw [forked_envs, Function.update_of_ne hx]
  have hcc : s'.envs c = { (s.forked e c p).envs c with
      envPgfaultUpcall := func, envStatus := .runnable } := by
    rw [hgo.envs, Function.update_self, henvs₃]
  have hother : ∀ x, x ≠ c → s'.envs x = s₃.envs x := fun x hx => by
    rw [hgo.envs, Function.update_of_ne hx]
  have hdir₃ : ∀ x, s₃.dir x = (s.forked e c p).dir x := dir_of_envs henvs₃
  have hdir := hgo.dir ((hdir₃ c).trans hb.dir)
  have hde : s₃.dir e = some d := (hdir₃ e).trans hb.parent.dir
  have hdc : s₃.dir c = some p := (hdir₃ c).trans hb.dir
  have hspace := SameSpace.of_dir hgo.mem hdir
  have hcid : (s'.envs c).envId = nextEnvId (s.envs c).envId c := by
    rw [hcc, forked_envs, Function.update_self]
    rfl
  have hpos := nextEnvId_pos (s.envs c).envId c
  obtain ⟨fl₃, hinv₃⟩ := hst.inv
  refine
    { inv := ⟨fl₃, hgo.inv hinv₃⟩
      ne := hb.ne
      status := ⟨h.inv.free_head hc, by rw [hcc]⟩
      envs := fun x hx => by rw [hother x hx, henvs₃, hs₁ x hx]
      curenv := hgo.curenv.trans
        (hst.only.curenv.trans (hcopy.only.curenv.trans (forked_curenv ..)))
      loaded := ?_
      dir := (hdir c).trans hdc
      id := ⟨by rw [hcid, envx_nextEnvId], fun h0 => ?_⟩
      others := fun x hxe hxc => ?_
      kept := fun i t ht => ?_
      tempTable := by rw [(hspace e).table]; exact hst.tempTable
      linked := ⟨(hspace e).linked hde hst.linked, (hspace c).linked hdc hst.linkedChild⟩
      marked := fun i j hij => ?_
      same := fun i j hij htemp => ?_
      temp := by rw [(hspace e).entry]; exact hst.temp
      copied := fun i j hij => ?_
      absent := fun i j hij hstack => ?_
      stack := ⟨pp, List.mem_cons_of_mem p (hcopy.free_subset hst.fresh), ?_, ?_⟩
      parentStack := ⟨?_, by rw [hgo.mem]; exact hst.erased⟩
      data := fun q hq hqg => ?_ }
  · rw [hgo.cr3, hgo.cpunum, hst.only.cr3, hst.only.cpunum, hcopy.only.cr3, hcopy.only.cpunum,
      forked_cr3, forked_cpunum]
  · rw [hcid] at h0
    rw [h0] at hpos
    exact absurd hpos (by decide)
  · have h1 : SameSpace s (s.forked e c p) x := SameSpace.of_frame hframe hxc
    have h2 : SameSpace (s.forked e c p) s₂ x :=
      SameSpace.of_frame hcopy.frame fun hh => hh.elim hxe hxc
    have h3 := hst.others x hxe hxc
    refine ⟨fun d' hd' => ?_, fun i => ?_, fun i j => ?_⟩
    · have hd₁ : (s.forked e c p).dir x = some d' := (dir_congr (hs₁ x hxc)).trans hd'
      rw [hgo.mem, h3.pde d' ((hcopy.dir x).trans hd₁), h2.pde d' hd₁, h1.pde d' hd']
    · rw [(hspace x).table, h3.table, h2.table, h1.table]
    · rw [(hspace x).entry, h3.entry, h2.entry, h1.entry]
  · obtain ⟨ht₃, hm₃⟩ := hst.kept i t
      ((hcopy.table_parent hb.parent.dir i).trans ((hsame₁.table i).trans ht))
    exact ⟨((hspace e).table i).trans ht₃, by
      rw [hgo.mem, hm₃, hcopy.parentDir, hsame₁.pde d h.dir]⟩
  · rw [(hspace e).entry, hst.parent i j (pftemp_out (hrange hij.1)), hcopy.marked i j hij,
      hsame₁.entry]
  · rw [(hspace e).entry, hst.parent i j htemp, hcopy.kept i j hij, hsame₁.entry]
  · rw [(hspace c).entry, hst.child i j (IsPage.of_range (hrange hij)), hcopy.copied i j hij,
      hsame₁.entry]
  · rw [(hspace c).entry, hst.child i j hstack, hcopy.absent i j hij]
  · rw [(hspace c).entry]
    exact hst.stack
  · rw [hgo.mem]
    exact hst.zero
  · rw [← hsame₁.translate h.dir hb.parent.dir userPage_uxstack.1,
      ← hcopy.translate_stack hb.parent.dir fun hh => uxstack_out (hrange hh.1)]
    exact hst.writable
  · have hqp : q ≠ p := fun hh => hq.1 (by rw [hh]; exact List.mem_cons_self)
    have hq₁ : (s.forked e c p).IsData fl₁ q := by
      refine ⟨fun hm => hq.1 (List.mem_cons_of_mem p hm), fun k hk hkq => ?_⟩
      rw [forked_same h.inv hc e] at hkq
      by_cases hkc : k = .dir c
      · rw [hkc, Function.update_self] at hkq
        exact hqp (Option.some_inj.1 hkq).symm
      · rw [Function.update_of_ne hkc] at hkq
        exact hq.2 k hk hkq
    have hm₁ : (s.forked e c p).mem q = s.mem q := newEnv_mem_ne s c p (s.envs e).envId hqp
    rw [hgo.mem, hst.data q (hcopy.isData hb hq₁) hqg, hcopy.data q hq₁, hm₁]

/-! ## All the ways to return -/

theorem stack_ne_uxstack : ¬ IsPage uxstack stackIdx.1 stackIdx.2 := by
  rintro ⟨-, h⟩
  exact absurd h (by decide)

/-- How `fork` and `sfork` end that have set their handler in state `s`: they return `r` in `s'`. -/
inductive Ended (res : Nat → Prop) (fl : List Nat) (s : Kernel) (e : EnvIndex) (d : Nat)
    (sent : Index → Index → Word) (M : Set (Index × Index)) (r : Word) (s' : Kernel) : Prop where
  /-- There is no room for another environment. -/
  | noChild (hno : s.envFreeList = none ∨ fl = []) (hr : r = -1#32) (hs : s' = s)
  /-- The memory has run out on the way, and the child stays behind. -/
  | noMem (c : EnvIndex) (hc : s.envFreeList = some c) (hfl : fl ≠ [])
      (hlack : fl.length < s.forkPages e) (hr : r = -1#32)
      (hst : (s'.envs c).envStatus = .notRunnable)
  /-- Some page could not be mapped with its flags. -/
  | refused (hr : r = -1#32) (hno : Refused s e sent forkRange)
  /-- The child has been destroyed: its page fault handler is not mapped. -/
  | noUpcall (c : EnvIndex) (henough : s.forkPages e ≤ fl.length) (hr : r = -1#32)
      (hst : (s'.envs c).envStatus = .free) (henvs : ∀ x, x ≠ c → s'.envs x = s.envs x)
  | born (dc g : Nat) (henough : s.forkPages e ≤ fl.length) (hr : 0 < r.toInt)
      (hborn : Born res fl s e (envx r) d dc g sent M s')

/-- If the result is the id of a child, there is one. -/
theorem Ended.child (h : Ended res fl s e d sent M r s') (hr : 0 < r.toInt) :
    ∃ dc g, Born res fl s e (envx r) d dc g sent M s' := by
  cases h with
  | noChild hno hm => exact absurd hr (by rw [hm]; decide)
  | noMem c hc hfl hlack hm => exact absurd hr (by rw [hm]; decide)
  | refused hm => exact absurd hr (by rw [hm]; decide)
  | noUpcall c henough hm => exact absurd hr (by rw [hm]; decide)
  | born dc g henough hpos hb => exact ⟨dc, g, hb⟩

/-- **`fork` and `sfork`**, when they return. -/
theorem forkWith_run {page : Word → Nat → UserM Bool} (sent : Kernel → Index → Index → Word)
    (M : Kernel → Set (Index × Index)) (h : Running res fl s e d)
    (hroom : s.RoomIn e forkRange)
    (hentry : ∀ u u' : Kernel, (∀ i j, u'.entry e i j = u.entry e i j) →
      sent u' = sent u ∧ M u' = M u)
    (hpage : ∀ (s₀ : Kernel) (fl₁ : List Nat) (c : EnvIndex) (p : Nat) (cid : Word),
      Begun res fl₁ (s₀.forked e c p) e c d p cid →
        (s₀.forked e c p).leaf e stackIdx.1 stackIdx.2 = s.leaf e stackIdx.1 stackIdx.2 →
        ∀ i j t, (i, j) ∈ forkRange → (s₀.forked e c p).table e i = some t →
          PageStep res fl₁ (s₀.forked e c p) e c d p (sent (s₀.forked e c p))
            (M (s₀.forked e c p)) (page cid) i j)
    (hrun : (forkWith page prog).run s = .ok r s') :
    ∃ fl₀ s₀, Handled res fl s e d prog fl₀ s₀ ∧ Ended res fl₀ s₀ e d (sent s₀) (M s₀) r s' := by
  rw [forkWith, run_bind_ok h.getenvid] at hrun
  obtain ⟨⟨⟩, s₀, hset, hrest⟩ := ok_of_bind hrun
  obtain ⟨fl₀, hh⟩ := h.setPgfaultHandler hroom hset
  refine ⟨fl₀, s₀, hh, ?_⟩
  have hchild : (forkChild page prog (s₀.envs e).envId).run s₀ = .ok r s' := by
    rw [hh.self.1]
    exact hrest
  have hstack : s₀.leaf e stackIdx.1 stackIdx.2 = s.leaf e stackIdx.1 stackIdx.2 := by
    rw [leaf_eq_framed, hh.entry _ _ stack_ne_uxstack, leaf_eq_framed]
  rcases forkChild_run sent M hh.run hh.room prog fun fl₁ c p cid hb hleaf =>
      hpage s₀ fl₁ c p cid hb ((hleaf _ _).trans hstack) with
    ⟨hno, hfork⟩ | ⟨c, p, fl₁, rfl, hc, hb, hend⟩
  · rw [hfork] at hchild
    cases hchild
    exact .noChild hno rfl rfl
  have hsame : ∀ i j, (s₀.forked e c p).entry e i j = s₀.entry e i j :=
    (SameSpace.of_frame (hh.run.inv.forked hc e).2.2 fun hx => hb.ne hx.symm).entry
  obtain ⟨hsent, hM⟩ := hentry s₀ (s₀.forked e c p) hsame
  rw [hsent, hM] at hend
  rcases hend with ⟨hlack, s'', hfork, henvs⟩ | ⟨⟨x, hx, hno⟩, s'', hfork⟩ |
      ⟨-, x, s'', hfork⟩ | ⟨henough, fl₂, s₂, g, pp, s₃, hcopy, hst, -, hfork⟩
  · rw [hfork] at hchild
    cases hchild
    refine .noMem c hc (List.cons_ne_nil p fl₁) hlack rfl ?_
    rw [henvs, forked_envs, Function.update_self]
    rfl
  · rw [hfork] at hchild
    cases hchild
    refine .refused rfl ⟨x, ⟨hx.1, fun hn => hx.2 ?_⟩, hno⟩
    rw [leaf_eq_framed, hsame, ← leaf_eq_framed, hn]
  · rw [hfork] at hchild
    cases hchild
  · rw [hfork] at hchild
    obtain ⟨fl₃, hinv₃⟩ := hst.inv
    have hmo := MemOnly.trans _ _ _ hcopy.only hst.only
    have henvs₃ : s₃.envs = (s₀.forked e c p).envs := hmo.envs
    have hid₃ : s₃.resolve e (nextEnvId (s₀.envs c).envId c) = some c := by
      rw [← hb.id]
      simp only [Kernel.resolve, henvs₃]
    have hst₃ : (s₃.envs c).envStatus = .notRunnable := by
      rw [henvs₃, forked_envs, Function.update_self]
      rfl
    rcases finishChild_run hinv₃ (hmo.curenv.trans hb.parent.current) hb.ne hid₃ hst₃
        ((dir_of_envs henvs₃ c).trans hb.dir) prog with
      ⟨-, x, s'', hfin⟩ | ⟨-, s'', hfin, hfree, hothers⟩ | ⟨s'', hfin, hgo⟩
    · rw [hfin] at hchild
      cases hchild
    · rw [hfin] at hchild
      cases hchild
      refine .noUpcall c henough rfl hfree fun x hx => ?_
      rw [hothers x hx, henvs₃, forked_envs, Function.update_of_ne hx]
    · rw [hfin] at hchild
      cases hchild
      refine .born p g henough (nextEnvId_pos _ c) ?_
      rw [envx_nextEnvId]
      exact Born.of_steps hh.run hc hb hcopy hst hgo

end Jos
