import Jos.Alloc.Run
import Mathlib.Data.Fintype.Prod

/-!
# Sixteen bits of `pp_ref`

`struct PageInfo` counts the references to a page in a `uint16_t`, and `page_insert` increments it
without a look.  An address space has room for more than 900000 mappings of one page.

As long as no call of `sys_page_map` finds the count of its page at 65535, the count is the number
of references, and so there are fewer than `2 ^ 16` mappings of any page: `reaches_countsFit`.  But
nothing stops a program from mapping one page again and again.  `not_countsFit` is such a program.
-/

set_option autoImplicit false

namespace Jos

open Kernel Command

variable {res : Nat → Prop} {fl : List Nat} {s s' : Kernel} {e : EnvIndex} {pp k : Nat}

/-- The number of places in user memory where a page is mapped. -/
def Kernel.mappings (s : Kernel) (p : Nat) : Nat :=
  Ledger.refs (fun k : EnvIndex × Index × Index => s.leaf k.1 k.2.1 k.2.2) p

/-- No page is mapped more often than `pp_ref` can count. -/
def Kernel.CountsFit (s : Kernel) : Prop := ∀ p, s.mappings p < 2 ^ 16

/-! ## Sound runs -/

theorem mappings_le_refs (s : Kernel) (p : Nat) : s.mappings p ≤ s.refs p := by
  have hinj : Function.Injective fun k : EnvIndex × Index × Index => Slot.page k.1 k.2.1 k.2.2 := by
    rintro ⟨e, i, j⟩ ⟨e', i', j'⟩ h
    simpa using h
  exact Ledger.refs_comp_le hinj s.target p

theorem Inv.countsFit (h : Inv res fl s) : s.CountsFit := by
  intro p
  by_cases hp : res p
  · -- a reserved page is not mapped at all
    have hzero : s.mappings p = 0 := by
      rw [Kernel.mappings, Ledger.refs_eq_zero_iff]
      exact fun k hk => h.target_res (k := .page k.1 k.2.1 k.2.2) hk hp
    rw [hzero]
    decide
  · calc s.mappings p ≤ s.refs p := mappings_le_refs s p
      _ = s.counts p := (h.ok.ref_eq p hp).symm
      _ < 2 ^ 16 := (s.pages p).ppRef.isLt

/-- **The count does not wrap in a run of sound calls.**  From the state boot leaves behind, in
every state reached by system calls of live environments none of which maps a page whose count is
exhausted, or unmaps or maps from where nothing is mapped, every page is mapped fewer than `2 ^ 16`
times. -/
theorem reaches_countsFit {m : Machine} {s₀ s : Kernel}
    (hboot : (i386Init m).run m.powerOn = .ok () s₀)
    (h : Reach Kernel.SysCalls (fun s c => c.syscall.Sound s c.caller) s₀ s) : s.CountsFit := by
  obtain ⟨res, fl, h₀⟩ := i386Init_booted hboot
  obtain ⟨fl', hinv⟩ := h₀.inv.reach h
  exact hinv.countsFit

/-- A machine boots, and its first environment allocates a page. -/
theorem reaches_countsFit_alloc : ∃ s₀ s e p,
    (i386Init smallMachine).run smallMachine.powerOn = .ok () s₀ ∧
    Reach Kernel.SysCalls (fun s c => c.syscall.Sound s c.caller) s₀ s ∧
    s.leaf e (pdx utext) (ptx utext) = some p ∧ s.CountsFit := by
  have hfree := smallMachine_free
  obtain ⟨s₀, res, fl, e, d, hrun, hboot, hd, hlen⟩ :=
    i386Init_run (m := smallMachine) (n := 2) rfl rfl rfl (by omega)
  have hlive := live_of_dir hd
  obtain ⟨-, pp, -, -, hleaf, -⟩ := hboot.inv.alloc_utext hlive hlen rfl
  have hreach : Reach Kernel.SysCalls (fun s c => c.syscall.Sound s c.caller) s₀ _ :=
    .tail (a := ⟨e, .pageAlloc 0#32 utext (pteP ||| pteU ||| pteW)⟩) .refl trivial ⟨hlive, rfl⟩
  exact ⟨s₀, _, e, pp, hrun, hreach, hleaf, reaches_countsFit hrun hreach⟩

/-! ## Mapping one page again and again -/

/-- Where the page is mapped for the `k`-th time, counting from zero. -/
def copyVa (k : Nat) : Word := utext + BitVec.ofNat 32 (k * 4096)

theorem copyVa_toNat (hk : k < 65536) : (copyVa k).toNat = 2 * 4194304 + k * 4096 := by
  have hu : utext.toNat = 2 * 4194304 := by decide
  rw [copyVa, BitVec.toNat_add, hu, BitVec.toNat_ofNat]
  omega

theorem copyVa_user (hk : k < 65536) : UserPage (copyVa k) := by
  have hn := copyVa_toNat hk
  refine ⟨?_, BitVec.eq_of_toNat_eq ?_⟩
  · rw [BitVec.lt_def, utop_toNat, hn]
    omega
  · rw [BitVec.toNat_umod, hn]
    show (2 * 4194304 + k * 4096) % 4096 = 0
    omega

theorem copyVa_pdx (hk : k < 65536) : (pdx (copyVa k)).val = 2 + k / 1024 := by
  rw [pdx_val, copyVa_toNat hk]
  omega

theorem copyVa_ptx (hk : k < 65536) : (ptx (copyVa k)).val = k % 1024 := by
  rw [ptx_val, copyVa_toNat hk]
  omega

theorem copyVa_inj {i j : Nat} (hi : i < 65536) (hj : j < 65536)
    (h1 : pdx (copyVa i) = pdx (copyVa j))
    (h2 : ptx (copyVa i) = ptx (copyVa j)) : i = j := by
  have e1 := congrArg Fin.val h1
  have e2 := congrArg Fin.val h2
  rw [copyVa_pdx hi, copyVa_pdx hj] at e1
  rw [copyVa_ptx hi, copyVa_ptx hj] at e2
  omega

/-- The call that maps it there. -/
def copyCall (k : Nat) : Syscall := .pageMap 0#32 utext 0#32 (copyVa k) (pteP ||| pteU)

/-- What the call does, with a page at hand for a page table: it maps the page.  If its count has
room, the accounts are in order afterwards. -/
theorem Inv.copy (h : Inv res fl s) (hlive : (s.envs e).envStatus ≠ .free)
    (hpp : s.leaf e (pdx utext) (ptx utext) = some pp) (hlen : 1 ≤ fl.length) (hk : k < 65536) :
    ∃ s', s' = final (copyCall k).handle (s.setCurenv (some e)) ∧ s'.envs = s.envs ∧
      s'.entry = setEntry s.entry e (pdx (copyVa k)) (ptx (copyVa k))
        (page2pa pp ||| pteP ||| (pteP ||| pteU)) ∧
      (s.counts pp < 65535 → ∃ fl', Inv res fl' s' ∧ s'.counts pp ≤ s.counts pp + 1 ∧
        fl.length ≤ fl'.length + if s.table e (pdx (copyVa k)) = none then 1 else 0) := by
  have hcur : Inv res fl (s.setCurenv (some e)) := h.of_cpus _ _ _
  obtain ⟨d, hd, hpg⟩ := h.dir_isSome hlive
  obtain ⟨t, ht, hf⟩ := leaf_eq_some.1 hpp
  obtain ⟨-, hpn⟩ := framed_eq_some.1 hf
  have hfound : framed (s.mem d (pdx utext)) = some t := (table_of_dir hd (by decide)).symm.trans ht
  have hlook : (pageLookup d utext).run (s.setCurenv (some e)) =
      .ok (some (pp, ⟨t, ptx utext⟩)) (s.setCurenv (some e)) := by
    have := pageLookup_found (s := s.setCurenv (some e)) hfound
      (h.target_lt (k := .table e (pdx utext)) ht) (h.entry_lt ht (ptx utext))
    rwa [show (s.setCurenv (some e)).mem t (ptx utext) = s.mem t (ptx utext) from rfl, hpn] at this
  have hself : (s.setCurenv (some e)).resolve e 0#32 = some e := rfl
  have heq :
      (sysPageMap 0#32 utext 0#32 (copyVa k) (pteP ||| pteU)).run (s.setCurenv (some e)) = _ :=
    sysPageMap_eq (setCurenv_curenv s _) hself hself (by decide) (copyVa_user hk) (by decide)
      hpg hpg hlook (by simp [show (pteP ||| pteU) &&& pteW = 0#32 by decide])
  rcases hcur.pageInsert_spec hd (copyVa_user hk).1 pp (pteP ||| pteU) with
    ⟨-, hnil, -⟩ | ⟨s', hrun, hins⟩
  · rw [hnil] at hlen
    exact absurd hlen (by simp)
  have hfinal : (copyCall k).handle.run (s.setCurenv (some e)) = .ok 0#32 s' := by
    refine heq.trans ?_
    simp only [EStateM.run_bind, hrun, ne_eq, not_true, if_false, EStateM.run_pure]
  refine ⟨s', (final_of_ok hfinal).symm, hins.edited.memOnly.envs, hins.edited.entry,
    fun hroom => ?_⟩
  have hm : Mappable res fl s e (pdx (copyVa k)) (ptx (copyVa k)) pp :=
    h.mappable hpp (Or.inl hroom)
  have hperm : IsPerm (pteP ||| pteU) := by decide
  rcases hcur.pageInsert_exact hd (copyVa_user hk).1 hperm hm.not_free hm.not_res hm.not_node
    hroom with hfail | ⟨s'', fl', hrun', hex⟩
  · rw [hrun] at hfail
    cases hfail
  · obtain rfl : s' = s'' := by
      rw [hrun] at hrun'
      cases hrun'
      rfl
    have hcount := hex.count hm.not_free
    refine ⟨fl', hex.inv, ?_, hex.length⟩
    show s'.counts pp ≤ (s.setCurenv (some e)).counts pp + 1
    omega

/-- After `k` mappings: the count has room, and there are pages left for the page tables that are
still to come. -/
structure Copied (res : Nat → Prop) (e : EnvIndex) (pp k : Nat) (s : Kernel) : Prop where
  live : (s.envs e).envStatus ≠ .free
  mapped : ∀ i, i < k → s.leaf e (pdx (copyVa i)) (ptx (copyVa i)) = some pp
  count : s.counts pp ≤ k
  inv : ∃ fl, Inv res fl s ∧ 65 ≤ fl.length + (k + 1023) / 1024

theorem copyVa_zero : copyVa 0 = utext := by decide

theorem Copied.entry_mapped {i : Nat} (hpp : pp < 2 ^ 20)
    (hent : s'.entry = setEntry s.entry e (pdx (copyVa k)) (ptx (copyVa k))
      (page2pa pp ||| pteP ||| (pteP ||| pteU)))
    (hold : i < k → s.leaf e (pdx (copyVa i)) (ptx (copyVa i)) = some pp) (hi : i < k + 1) :
    s'.leaf e (pdx (copyVa i)) (ptx (copyVa i)) = some pp := by
  rw [leaf_eq_framed, hent, setEntry]
  split
  · exact framed_entry hpp (by decide)
  · rename_i hne
    have hik : i ≠ k := by
      rintro rfl
      exact hne ⟨rfl, rfl, rfl⟩
    rw [← leaf_eq_framed]
    exact hold (by omega)

/-- One more mapping. -/
theorem Copied.step (h : Copied res e pp k s) (hk1 : 1 ≤ k) (hk : k < 65535) :
    Copied res e pp (k + 1) (final (copyCall k).handle (s.setCurenv (some e))) := by
  obtain ⟨fl, hinv, hlen⟩ := h.inv
  have hsrc := h.mapped 0 (by omega)
  rw [copyVa_zero] at hsrc
  have hcount := h.count
  obtain ⟨s', hs', henvs, hent, hacc⟩ := hinv.copy h.live hsrc (by omega) (k := k) (by omega)
  obtain ⟨fl', hinv', hc', hlen'⟩ := hacc (by omega)
  have hpp := Inv.lt_pow s (hinv.target_lt (k := .page e _ _) hsrc)
  rw [← hs']
  refine ⟨by rw [henvs]; exact h.live, fun i hi => Copied.entry_mapped hpp hent (h.mapped i) hi,
    by omega, fl', hinv', ?_⟩
  by_cases htab : s.table e (pdx (copyVa k)) = none
  · -- a new page table is needed only where the last one was full
    have hnew : k % 1024 = 0 := by
      by_contra hne
      have hprev := h.mapped (k - 1) (by omega)
      have hpd : pdx (copyVa (k - 1)) = pdx (copyVa k) := by
        apply Fin.ext
        rw [copyVa_pdx (by omega), copyVa_pdx (by omega)]
        omega
      rw [hpd, leaf_eq_none htab] at hprev
      exact absurd hprev (by simp)
    rw [if_pos htab] at hlen'
    omega
  · rw [if_neg htab] at hlen'
    omega

/-- **The count wraps.**  A program allocates a page and maps it at 65535 more addresses. -/
theorem not_countsFit : ∃ s₀ s, (i386Init smallMachine).run smallMachine.powerOn = .ok () s₀ ∧
    Reach Kernel.SysCalls (fun _ _ => True) s₀ s ∧ ¬ s.CountsFit := by
  have hfree := smallMachine_free
  obtain ⟨s₀, res, fl, e, d, hrun, hboot, hd, hlen⟩ :=
    i386Init_run (m := smallMachine) (n := 100) rfl rfl rfl (by omega)
  have hlive := live_of_dir hd
  obtain ⟨fl₁, pp, hinv₁, hlen₁, hleaf₁, hcount₁, hlive₁⟩ :=
    hboot.inv.alloc_utext hlive (by omega) rfl
  have hreach₁ : Reach Kernel.SysCalls (fun _ _ => True) s₀ _ :=
    .tail (a := ⟨e, .pageAlloc 0#32 utext (pteP ||| pteU ||| pteW)⟩) .refl trivial ⟨hlive, rfl⟩
  dsimp only at hreach₁
  generalize final (Syscall.pageAlloc 0#32 utext (pteP ||| pteU ||| pteW)).handle
    (s₀.setCurenv (some e)) = s₁ at hinv₁ hleaf₁ hcount₁ hlive₁ hreach₁
  have hone : Copied res e pp 1 s₁ := by
    refine ⟨hlive₁, fun i hi => ?_, by omega, fl₁, hinv₁, by omega⟩
    obtain rfl : i = 0 := by omega
    rw [copyVa_zero]
    exact hleaf₁
  -- up to the last value the count can hold
  have hmany : ∀ n, n ≤ 65534 → ∃ s, Reach Kernel.SysCalls (fun _ _ => True) s₀ s ∧
      Copied res e pp (n + 1) s := by
    intro n
    induction n with
    | zero => exact fun _ => ⟨s₁, hreach₁, hone⟩
    | succ n ih =>
      intro hn
      obtain ⟨s, hr, hcop⟩ := ih (by omega)
      exact ⟨_, .tail (a := ⟨e, copyCall (n + 1)⟩) hr trivial ⟨hcop.live, rfl⟩,
        hcop.step (by omega) (by omega)⟩
  obtain ⟨s, hreach, hcop⟩ := hmany 65534 (Nat.le_refl _)
  -- and once more
  obtain ⟨fl₂, hinv₂, hlen₂⟩ := hcop.inv
  have hsrc := hcop.mapped 0 (by omega)
  rw [copyVa_zero] at hsrc
  have hpp := Inv.lt_pow s (hinv₂.target_lt (k := .page e _ _) hsrc)
  obtain ⟨s', hs', -, hent, -⟩ := hinv₂.copy hcop.live hsrc (by omega) (k := 65535) (by omega)
  refine ⟨s₀, s', hrun, .tail (a := ⟨e, copyCall 65535⟩) hreach trivial ⟨hcop.live, hs'⟩, ?_⟩
  intro hfit
  have hmapped : ∀ i, i < 65536 → s'.leaf e (pdx (copyVa i)) (ptx (copyVa i)) = some pp :=
    fun i hi => Copied.entry_mapped hpp hent (hcop.mapped i) hi
  have hle : 65536 ≤ s'.mappings pp := by
    refine Ledger.le_refs (fun i => (e, pdx (copyVa i), ptx (copyVa i))) hmapped ?_
    intro i hi j hj hij
    simp only [Prod.mk.injEq, true_and] at hij
    exact copyVa_inj hi hj hij.1 hij.2
  have hlt := hfit pp
  omega

end Jos
