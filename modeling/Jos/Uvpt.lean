import Jos.Pmap.Spec

/-!
# The user's view of its page tables

`lib/entry.S` gives user programs two arrays: `uvpt`, with one word for each page of the address
space, and `uvpd`, the page directory.  There is nothing behind them but the directory's entry at
`PDX(UVPT)`, which names the directory itself.  A walk that starts there uses the directory as a
page table and a page table as a page; a walk that stays there twice uses the directory as both.

`uvpt_eq_walk` is what user programs rely on: the words they read are the ones that `pgdir_walk`
finds, and a read faults where `pgdir_walk` finds no page table.
-/

set_option autoImplicit false

namespace Jos

open Kernel

variable {s : Kernel} {d : Nat}

/-- The word at a word-aligned address, read through the directory in page `dir`; `none` is a page
fault. -/
def Kernel.loadAt (s : Kernel) (dir : Nat) (need va : Word) : Option Word :=
  (s.translate dir need va).map fun fo => s.mem fo.1 (Fin.ofNat 1024 (fo.2 / 4))

/-- The address of `uvpt[pn]`. -/
def uvptEntry (pn : Nat) : Word := uvpt + 4#32 * BitVec.ofNat 32 pn

/-- `uvpd`. -/
def uvpd : Word := uvpt + (uvpt >>> 12) * 4#32

/-- The address of `uvpd[i]`. -/
def uvpdEntry (i : Index) : Word := uvpd + 4#32 * BitVec.ofNat 32 i

/-! ## Where the addresses lie -/

theorem uvptEntry_toNat {pn : Nat} (h : pn < 2 ^ 20) :
    (uvptEntry pn).toNat = 957 * 4194304 + 4 * pn := by
  have hu : uvpt.toNat = 957 * 4194304 := by decide
  have h4 : (4#32 * BitVec.ofNat 32 pn).toNat = 4 * pn := by
    rw [BitVec.toNat_mul, BitVec.toNat_ofNat, BitVec.toNat_ofNat]
    omega
  rw [uvptEntry, BitVec.toNat_add, hu, h4]
  omega

theorem pdx_uvptEntry {pn : Nat} (h : pn < 2 ^ 20) : pdx (uvptEntry pn) = pdx uvpt := by
  apply Fin.ext
  rw [pdx_uvpt, pdx_val, uvptEntry_toNat h]
  show _ = 957
  omega

/-- The page-table index of `uvpt[pn]` is the directory index of page `pn`. -/
theorem ptx_uvptEntry {pn : Nat} (h : pn < 2 ^ 20) :
    ptx (uvptEntry pn) = pdx (BitVec.ofNat 32 (pn * 4096)) := by
  apply Fin.ext
  rw [ptx_val, pdx_val, uvptEntry_toNat h, BitVec.toNat_ofNat]
  omega

/-- The offset of `uvpt[pn]` leads to the page-table index of page `pn`. -/
theorem pgoff_uvptEntry {pn : Nat} (h : pn < 2 ^ 20) :
    Fin.ofNat 1024 (pgoff (uvptEntry pn) / 4) = ptx (BitVec.ofNat 32 (pn * 4096)) := by
  apply Fin.ext
  rw [Fin.val_ofNat, pgoff_eq, ptx_val, uvptEntry_toNat h, BitVec.toNat_ofNat]
  omega

/-- `uvpd` is the part of `uvpt` that maps `uvpt` itself. -/
theorem uvpdEntry_eq (i : Index) : uvpdEntry i = uvptEntry (957 * 1024 + i.val) := by
  have hi := i.isLt
  have hu : uvpd.toNat = 957 * 4194304 + 957 * 4096 := by decide
  have h4 : (4#32 * BitVec.ofNat 32 i.val).toNat = 4 * i.val := by
    rw [BitVec.toNat_mul, BitVec.toNat_ofNat, BitVec.toNat_ofNat]
    omega
  apply BitVec.eq_of_toNat_eq
  rw [uvptEntry_toNat (by omega), uvpdEntry, BitVec.toNat_add, hu, h4]
  omega

/-! ## Walking -/

theorem and_pteP_of_framed {w : Word} {p : Nat} (h : framed w = some p) : w &&& pteP = pteP := by
  have hne := (framed_eq_some.1 h).1
  have hbit : w &&& pteP = 0#32 ∨ w &&& pteP = pteP := by
    have hmod : (w &&& pteP).toNat = w.toNat % 2 := by
      rw [BitVec.toNat_and]
      exact Nat.and_two_pow_sub_one_eq_mod _ 1
    rcases Nat.mod_two_eq_zero_or_one w.toNat with h0 | h1
    · exact Or.inl (BitVec.eq_of_toNat_eq (hmod.trans h0))
    · exact Or.inr (BitVec.eq_of_toNat_eq (hmod.trans h1))
  exact hbit.resolve_left hne

/-- With permissions set aside, a translation needs two present entries. -/
theorem translate_present (s : Kernel) (dir : Nat) (va : Word) :
    s.translate dir pteP va = (framed (s.mem dir (pdx va))).bind fun t =>
      (framed (s.mem t (ptx va))).map fun f => (f, pgoff va) := by
  rw [Kernel.translate]
  cases hd : framed (s.mem dir (pdx va)) with
  | none => simp
  | some t =>
    rw [if_neg (not_not_intro (and_pteP_of_framed hd)), Option.bind_some, Option.bind_some]
    cases ht : framed (s.mem t (ptx va)) with
    | none => simp
    | some f => rw [if_neg (not_not_intro (and_pteP_of_framed ht))]

/-- Through the self-map, the directory is the page table of `uvpt`. -/
theorem loadAt_uvptEntry (hself : framed (s.mem d (pdx uvpt)) = some d) {pn : Nat}
    (h : pn < 2 ^ 20) :
    s.loadAt d pteP (uvptEntry pn) = s.walk d (BitVec.ofNat 32 (pn * 4096)) := by
  rw [loadAt, translate_present, pdx_uvptEntry h, hself, Option.bind_some, ptx_uvptEntry h,
    Option.map_map, Kernel.walk]
  congr 1
  funext t
  show s.mem t (Fin.ofNat 1024 (pgoff (uvptEntry pn) / 4)) = _
  rw [pgoff_uvptEntry h]

/-- **The user's virtual page table agrees with the kernel's walk.**  For a directory that maps
itself at `UVPT`, reading `uvpt[pn]` faults exactly when `pgdir_walk` finds no page table for page
`pn`, and otherwise gives the entry `pgdir_walk` points at; `uvpd[i]` is entry `i` of the directory,
the entry at `UVPT` included. -/
theorem uvpt_eq_walk (hd : d < s.npages) (hself : s.mem d (pdx uvpt) = page2pa d ||| pteP ||| pteU)
    (hin : ∀ i t, framed (s.mem d i) = some t → t < s.npages) :
    (∀ pn < 2 ^ 20, ∃ r, (pgdirWalk d (BitVec.ofNat 32 (pn * 4096)) false).run s = .ok r s ∧
      s.loadAt d pteP (uvptEntry pn) = r.map fun pte => s.mem pte.page pte.idx) ∧
    ∀ i, s.loadAt d pteP (uvpdEntry i) = some (s.mem d i) := by
  have hframed : framed (s.mem d (pdx uvpt)) = some d := by
    rw [hself]
    exact framed_entry (Nat.lt_of_lt_of_le hd s.npagesLe) (by decide)
  refine ⟨fun pn hpn => ?_, fun i => ?_⟩
  · rw [loadAt_uvptEntry hframed hpn, Kernel.walk]
    cases hf : framed (s.mem d (pdx (BitVec.ofNat 32 (pn * 4096)))) with
    | none => exact ⟨none, pgdirWalk_missing hf, rfl⟩
    | some t => exact ⟨_, pgdirWalk_found hf (hin _ t hf) false, rfl⟩
  · -- page `957 * 1024 + i` is the one in which `uvpt` shows the directory's entry `i`
    have hi := i.isLt
    have hpd : pdx (BitVec.ofNat 32 ((957 * 1024 + i.val) * 4096)) = pdx uvpt := by
      apply Fin.ext
      rw [pdx_uvpt, pdx_val, BitVec.toNat_ofNat]
      show _ = 957
      omega
    have hpt : ptx (BitVec.ofNat 32 ((957 * 1024 + i.val) * 4096)) = i := by
      apply Fin.ext
      rw [ptx_val, BitVec.toNat_ofNat]
      omega
    rw [uvpdEntry_eq, loadAt_uvptEntry hframed (by omega), Kernel.walk, hpd, hframed, hpt]
    rfl

/-! ## A directory with a page table -/

/-- Page 1 holds a directory that maps itself and has a page table in page 2, in which page 5 of the
address space is mapped. -/
def selfMapped : Kernel :=
  ((threePages.store 1 (pdx uvpt) (page2pa 1 ||| pteP ||| pteU)).store 1 0
    (page2pa 2 ||| pteP ||| pteW ||| pteU)).store 2 5 (page2pa 0 ||| pteP ||| pteW ||| pteU)

theorem selfMapped_mem (i : Index) : selfMapped.mem 1 i =
    if i = pdx uvpt then page2pa 1 ||| pteP ||| pteU
    else if i = 0 then page2pa 2 ||| pteP ||| pteW ||| pteU else 0#32 := by
  rw [selfMapped, store_mem_ne _ _ _ _ (by decide)]
  by_cases h0 : i = 0
  · rw [h0, store_mem_self, if_neg (by decide), if_pos rfl]
  · rw [store_mem_idx _ _ _ _ h0, if_neg h0]
    by_cases hi : i = pdx uvpt
    · rw [hi, store_mem_self, if_pos rfl]
    · rw [store_mem_idx _ _ _ _ hi, if_neg hi]
      rfl

/-- There `uvpt[5]` is the entry, `uvpt[6]` is an empty one, `uvpt[1024]` faults and `uvpd` shows
both entries of the directory. -/
theorem uvpt_eq_walk_selfMapped :
    selfMapped.loadAt 1 pteP (uvptEntry 5) = some (page2pa 0 ||| pteP ||| pteW ||| pteU) ∧
    selfMapped.loadAt 1 pteP (uvptEntry 6) = some 0#32 ∧
    selfMapped.loadAt 1 pteP (uvptEntry 1024) = none ∧
    selfMapped.loadAt 1 pteP (uvpdEntry 0) = some (page2pa 2 ||| pteP ||| pteW ||| pteU) ∧
    selfMapped.loadAt 1 pteP (uvpdEntry (pdx uvpt)) = some (page2pa 1 ||| pteP ||| pteU) := by
  have hself : selfMapped.mem 1 (pdx uvpt) = page2pa 1 ||| pteP ||| pteU :=
    (selfMapped_mem _).trans (if_pos rfl)
  have hzero : selfMapped.mem 1 0 = page2pa 2 ||| pteP ||| pteW ||| pteU := by
    rw [selfMapped_mem, if_neg (by decide), if_pos rfl]
  have htable : framed (selfMapped.mem 1 0) = some 2 := by
    rw [hzero]
    decide
  have hin : ∀ i t, framed (selfMapped.mem 1 i) = some t → t < selfMapped.npages := by
    intro i t ht
    rw [selfMapped_mem] at ht
    split at ht
    · have hone : framed (page2pa 1 ||| pteP ||| pteU) = some 1 := by decide
      obtain rfl : 1 = t := Option.some_inj.1 (hone.symm.trans ht)
      decide
    · split at ht
      · have htwo : framed (page2pa 2 ||| pteP ||| pteW ||| pteU) = some 2 := by decide
        obtain rfl : 2 = t := Option.some_inj.1 (htwo.symm.trans ht)
        decide
      · rw [framed_zero] at ht
        exact absurd ht (by simp)
  obtain ⟨hpt, hpd⟩ := uvpt_eq_walk (s := selfMapped) (d := 1) (by decide) hself hin
  refine ⟨?_, ?_, ?_, (hpd 0).trans (congrArg some hzero), (hpd _).trans (congrArg some hself)⟩
  · obtain ⟨r, hrun, hload⟩ := hpt 5 (by decide)
    rw [pgdirWalk_found htable (by decide) false] at hrun
    cases hrun
    exact hload
  · obtain ⟨r, hrun, hload⟩ := hpt 6 (by decide)
    rw [pgdirWalk_found htable (by decide) false] at hrun
    cases hrun
    exact hload
  · obtain ⟨r, hrun, hload⟩ := hpt 1024 (by decide)
    have hmiss : framed (selfMapped.mem 1 (pdx (BitVec.ofNat 32 (1024 * 4096)))) = none := by
      rw [selfMapped_mem, if_neg (by decide), if_neg (by decide), framed_zero]
    rw [pgdirWalk_missing hmiss] at hrun
    cases hrun
    exact hload

end Jos
