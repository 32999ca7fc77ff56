import Jos.Pmap.Spec

/-!
# The user-memory gate

`user_mem_check` visits the addresses `va`, `va + PGSIZE`, ... below the rounded end of the range
and looks up each.  `userMemCheck_zero_iff` says that it returns zero exactly when every address
visited passes.  The end of the range is computed with 32-bit sums, and an address equal to `ULIM`
passes, so this is not yet what the comment above the function promises for every range:
`gateSound_iff` says for which it is.
-/

set_option autoImplicit false

namespace Jos

open Kernel Command

variable {s : Kernel} {d : Nat} {va len perm endVa : Word}

/-! ## One address -/

namespace Kernel

/-- The entry `pgdir_walk` finds for an address, with all the flags `perm`. -/
def Grants (s : Kernel) (d : Nat) (perm addr : Word) : Prop :=
  ∃ pte, (pgdirWalk d addr false).run s = .ok (some pte) s ∧ s.mem pte.page pte.idx &&& perm = perm

/-- An address that `user_mem_check` lets pass. -/
def Passes (s : Kernel) (d : Nat) (perm addr : Word) : Prop :=
  addr ≤ ulim ∧ s.Grants d perm addr

end Kernel

theorem grants_iff (addr : Word) : s.Grants d perm addr ↔
    ∃ t, framed (s.mem d (pdx addr)) = some t ∧ t < s.npages ∧
      s.mem t (ptx addr) &&& perm = perm := by
  constructor
  · rintro ⟨pte, hrun, hperm⟩
    cases hf : framed (s.mem d (pdx addr)) with
    | none =>
      rw [pgdirWalk_missing hf] at hrun
      exact absurd hrun (by simp)
    | some t =>
      by_cases ht : t < s.npages
      · rw [pgdirWalk_found hf ht] at hrun
        cases hrun
        exact ⟨t, rfl, ht, hperm⟩
      · rw [pgdirWalk_beyond hf ht] at hrun
        exact absurd hrun (by simp)
  · rintro ⟨t, hf, ht, hperm⟩
    exact ⟨⟨t, ptx addr⟩, pgdirWalk_found hf ht false, hperm⟩

/-- Addresses in one page share their entry. -/
theorem grants_page {a b : Word} (h : pgnum a = pgnum b) :
    s.Grants d perm a ↔ s.Grants d perm b := by
  obtain ⟨h1, h2⟩ := pdx_ptx_of_pgnum h
  rw [grants_iff, grants_iff, h1, h2]

/-! ## The loop -/

/-- The state of the loop at `addr`. -/
def Kernel.checkingAt (s : Kernel) (addr : Word) : Kernel := { s with userMemCheckAddr := addr }

/-- One round: the address at hand passes, and the rest of the loop does. -/
theorem userMemCheckLoop_round {addr : Word} (hlt : addr < endVa) (fuel : Nat) :
    (∃ s', (userMemCheckLoop d endVa perm (fuel + 1)).run (s.checkingAt addr) = .ok none s') ↔
      s.Passes d perm addr ∧
        ∃ s', (userMemCheckLoop d endVa perm fuel).run (s.checkingAt (addr + pgsize)) =
          .ok none s' := by
  have hget : (s.checkingAt addr).userMemCheckAddr = addr := rfl
  rw [userMemCheckLoop]
  simp only [EStateM.run_bind, EStateM.run_get, hget, if_neg (not_not_intro hlt)]
  rw [Kernel.Passes, grants_iff]
  cases hf : framed (s.mem d (pdx addr)) with
  | none =>
    rw [pgdirWalk_missing (s := s.checkingAt addr) hf]
    simp
  | some t =>
    by_cases ht : t < s.npages
    · rw [pgdirWalk_found (s := s.checkingAt addr) hf ht]
      by_cases hul : ulim < addr
      · simp [hul, BitVec.not_le.2 hul]
      · have hle : addr ≤ ulim := BitVec.not_lt.1 hul
        by_cases hp : s.mem t (ptx addr) &&& perm = perm
        · simp [hul, ht, hle, hp, loadWord, Kernel.checkingAt]
        · simp [hul, hp, loadWord, Kernel.checkingAt]
    · rw [pgdirWalk_beyond (s := s.checkingAt addr) hf ht]
      simp [ht]

/-- The loop runs to its end exactly when every address it visits passes; the fuel is enough. -/
theorem userMemCheckLoop_none_iff (hend : endVa.toNat + 4096 ≤ 2 ^ 32) (fuel : Nat) (addr : Word)
    (hfuel : endVa.toNat ≤ addr.toNat + 4096 * fuel) :
    (∃ s', (userMemCheckLoop d endVa perm fuel).run (s.checkingAt addr) = .ok none s') ↔
      ∀ k, addr.toNat + 4096 * k < endVa.toNat →
        s.Passes d perm (BitVec.ofNat 32 (addr.toNat + 4096 * k)) := by
  induction fuel generalizing addr with
  | zero =>
    refine ⟨fun _ k hk => absurd hk (by omega), fun _ => ⟨s.checkingAt addr, ?_⟩⟩
    rw [userMemCheckLoop, EStateM.run_pure]
  | succ fuel ih =>
    by_cases hlt : addr < endVa
    · have hlt' : addr.toNat < endVa.toNat := hlt
      have hnext : (addr + pgsize).toNat = addr.toNat + 4096 := by
        rw [BitVec.toNat_add]
        show (addr.toNat + 4096) % 2 ^ 32 = _
        omega
      have hself : BitVec.ofNat 32 addr.toNat = addr := by simp
      have hshift : ∀ k, addr.toNat + 4096 * (k + 1) = (addr + pgsize).toNat + 4096 * k := by
        intro k
        rw [hnext]
        omega
      rw [userMemCheckLoop_round hlt, ih (addr + pgsize) (by omega)]
      constructor
      · rintro ⟨h0, h⟩ k hk
        cases k with
        | zero => simpa [hself] using h0
        | succ k =>
          rw [hshift] at hk ⊢
          exact h k hk
      · intro h
        refine ⟨by simpa [hself] using h 0 (by omega), fun k hk => ?_⟩
        rw [← hshift] at hk ⊢
        exact h (k + 1) hk
    · have hge : ¬ addr.toNat < endVa.toNat := hlt
      refine ⟨fun _ k hk => absurd hk (by omega), fun _ => ⟨s.checkingAt addr, ?_⟩⟩
      have hget : (s.checkingAt addr).userMemCheckAddr = addr := rfl
      rw [userMemCheckLoop]
      simp only [EStateM.run_bind, EStateM.run_get, hget, if_pos hlt, EStateM.run_pure]

/-! ## The check -/

variable {e : EnvIndex}

theorem userMemCheckPages_none_iff (hd : (s.envs e).envPgdir = some d)
    (hend : endVa.toNat + 4096 ≤ 2 ^ 32) :
    (∃ s', (userMemCheckPages e endVa perm).run (s.checkingAt va) = .ok none s') ↔
      ∀ k, va.toNat + 4096 * k < endVa.toNat →
        s.Passes d perm (BitVec.ofNat 32 (va.toNat + 4096 * k)) := by
  have hget : (s.checkingAt va).userMemCheckAddr = va := rfl
  have henv : ((s.checkingAt va).envs e).envPgdir = some d := hd
  have hfuel : endVa.toNat ≤ va.toNat + 4096 * 2 ^ 20 := by omega
  rw [userMemCheckPages]
  by_cases hlt : va < endVa
  · simp only [EStateM.run_bind, EStateM.run_get, hget, if_pos hlt, henv, derefPgdir,
      EStateM.run_pure]
    exact userMemCheckLoop_none_iff hend (2 ^ 20) va hfuel
  · have hge : ¬ va.toNat < endVa.toNat := hlt
    simp only [EStateM.run_bind, EStateM.run_get, hget, if_neg hlt, EStateM.run_pure]
    exact ⟨fun _ k hk => absurd hk (by omega), fun _ => ⟨_, rfl⟩⟩

/-- The error path does not return zero. -/
theorem userMemCheckErr_ne (t t' : Kernel) (pte : Option PtePtr) :
    (userMemCheckErr va pte).run t ≠ .ok 0#32 t' := by
  have herr : Triple (fun _ => True) (userMemCheckErr va pte) (fun r _ => r = -eFault)
      fun _ _ => True := by
    refine Triple.bind Triple.top fun s₀ => Triple.ite (fun _ => ?_) fun _ =>
      Triple.pure fun _ _ => rfl
    exact Triple.bind Triple.top fun w => Triple.bind Triple.top fun _ =>
      Triple.pure fun _ _ => rfl
  intro hrun
  exact absurd (herr.of_ok trivial hrun) (by decide)

/-- **`user_mem_check` returns zero exactly when every address it visits passes.** -/
theorem userMemCheck_zero_iff (hd : (s.envs e).envPgdir = some d) :
    (∃ s', (userMemCheck e va len perm).run s = .ok 0#32 s') ↔
      ∀ k, va.toNat + 4096 * k < (roundUp (va + len) pgsize).toNat →
        s.Passes d (perm ||| pteP) (BitVec.ofNat 32 (va.toNat + 4096 * k)) := by
  have hend := roundUp_room (va + len)
  rw [userMemCheck]
  generalize roundUp (va + len) pgsize = endVa at hend ⊢
  rw [← userMemCheckPages_none_iff hd hend]
  simp only [EStateM.run_bind, EStateM.run_modify]
  rw [show ({ s with userMemCheckAddr := va } : Kernel) = s.checkingAt va from rfl]
  cases hr : (userMemCheckPages e endVa (perm ||| pteP)).run (s.checkingAt va) with
  | error x s' => simp
  | ok r s' =>
    cases r with
    | none => simp
    | some pte => simpa using fun t => userMemCheckErr_ne s' t pte

/-- The check fails at once if the first address it visits does not pass. -/
theorem userMemCheck_fail (hd : (s.envs e).envPgdir = some d) (hlt : va < roundUp (va + len) pgsize)
    (hpage : ∀ t, framed (s.mem d (pdx va)) = some t → t < s.npages)
    (hno : ¬ s.Passes d (perm ||| pteP) va) :
    (userMemCheck e va len perm).run s = .ok (-eFault) (s.checkingAt va) := by
  have hloop : ∃ pte, (userMemCheckPages e (roundUp (va + len) pgsize) (perm ||| pteP)).run
      (s.checkingAt va) = .ok (some pte) (s.checkingAt va) := by
    have hget : (s.checkingAt va).userMemCheckAddr = va := rfl
    have henv : ((s.checkingAt va).envs e).envPgdir = some d := hd
    rw [userMemCheckPages]
    simp only [EStateM.run_bind, EStateM.run_get, hget, if_pos hlt, henv, derefPgdir,
      EStateM.run_pure]
    rw [show (2 : Nat) ^ 20 = 1048575 + 1 from rfl, userMemCheckLoop]
    simp only [EStateM.run_bind, EStateM.run_get, hget, if_neg (not_not_intro hlt)]
    rw [Kernel.Passes, grants_iff] at hno
    cases hf : framed (s.mem d (pdx va)) with
    | none =>
      rw [pgdirWalk_missing (s := s.checkingAt va) hf]
      exact ⟨none, rfl⟩
    | some t =>
      have ht := hpage t hf
      rw [pgdirWalk_found (s := s.checkingAt va) hf ht]
      refine ⟨some ⟨t, ptx va⟩, ?_⟩
      by_cases hul : ulim < va
      · simp [hul]
      · have hp : s.mem t (ptx va) &&& (perm ||| pteP) ≠ perm ||| pteP := fun hp =>
          hno ⟨BitVec.not_lt.1 hul, t, hf, ht, hp⟩
        simp [hul, hp, loadWord, Kernel.checkingAt]
  obtain ⟨pte, hloop⟩ := hloop
  rw [userMemCheck]
  simp only [EStateM.run_bind, EStateM.run_modify]
  rw [show ({ s with userMemCheckAddr := va } : Kernel) = s.checkingAt va from rfl, hloop]
  simp [userMemCheckErr, Kernel.checkingAt]

/-! ## What the gate is for -/

/-- The environment may access the address `a` with permissions `perm`: it lies below `ULIM`, and
the page table says so. -/
def Kernel.Accessible (s : Kernel) (d : Nat) (perm : Word) (a : Nat) : Prop :=
  a < ulim.toNat ∧ s.Grants d perm (BitVec.ofNat 32 a)

/-- If the check lets the range `[va, va + len)` pass, the environment may access all of it. -/
def GateSound (s : Kernel) (e : EnvIndex) (d : Nat) (va len perm : Word) : Prop :=
  (∃ s', (userMemCheck e va len perm).run s = .ok 0#32 s') →
    ∀ a, va.toNat ≤ a → a < va.toNat + len.toNat → s.Accessible d (perm ||| pteP) a

theorem ulim_toNat : ulim.toNat = 958 * 4194304 := by decide

/-- Below `ULIM` nothing wraps, and every page of the range is visited. -/
theorem gateSound_of_le (hd : (s.envs e).envPgdir = some d)
    (hle : va.toNat + len.toNat ≤ ulim.toNat) : GateSound s e d va len perm := by
  intro hrun a hlo hhi
  rw [userMemCheck_zero_iff hd] at hrun
  have hul := ulim_toNat
  have hend : (roundUp (va + len) pgsize).toNat =
      (va.toNat + len.toNat + 4095) / 4096 * 4096 := by
    rw [roundUp_toNat, BitVec.toNat_add]
    omega
  -- the visited address in the page of `a`
  have hk : va.toNat + 4096 * (a / 4096 - va.toNat / 4096) < (roundUp (va + len) pgsize).toNat := by
    rw [hend]
    omega
  obtain ⟨-, hg⟩ := hrun _ hk
  refine ⟨by omega, (grants_page ?_).1 hg⟩
  rw [pgnum_eq, pgnum_eq, BitVec.toNat_ofNat, BitVec.toNat_ofNat]
  omega

/-- **When the gate is sound.**  The check can be relied on exactly when the range is empty, or ends
at or below `ULIM`, or one of the addresses the check visits is above `ULIM` or lacks the
permissions, so that it rejects the range. -/
theorem gateSound_iff (hd : (s.envs e).envPgdir = some d) (va len perm : Word) :
    GateSound s e d va len perm ↔
      len = 0#32 ∨ va.toNat + len.toNat ≤ ulim.toNat ∨
      ∃ k, va.toNat + 4096 * k < (roundUp (va + len) pgsize).toNat ∧
        ¬ s.Passes d (perm ||| pteP) (BitVec.ofNat 32 (va.toNat + 4096 * k)) := by
  constructor
  · intro h
    by_contra hno
    simp only [not_or, not_exists, not_and, not_not] at hno
    obtain ⟨hlen, hul, hpass⟩ := hno
    have hpos : 0 < len.toNat := by
      rcases Nat.eq_zero_or_pos len.toNat with h0 | h0
      · exact absurd (BitVec.eq_of_toNat_eq h0) hlen
      · exact h0
    -- the last byte of the range is out of bounds, but the check passes
    have hlast := h ((userMemCheck_zero_iff hd).2 hpass) (va.toNat + len.toNat - 1) (by omega)
      (by omega)
    have := hlast.1
    omega
  · rintro (rfl | hle | ⟨k, hk, hno⟩)
    · intro _ a hlo hhi
      have h0 : (0#32).toNat = 0 := rfl
      omega
    · exact gateSound_of_le hd hle
    · intro hrun
      exact absurd ((userMemCheck_zero_iff hd).1 hrun k hk) hno

/-- A range in user memory. -/
theorem gateSound_iff_user : (threePages.envs 0).envPgdir = some 1 ∧
    GateSound threePages 0 1 utext pgsize pteU :=
  ⟨rfl, (gateSound_iff rfl utext pgsize pteU).2 (Or.inr (Or.inl (by decide)))⟩

/-- The whole of kernel memory: `va + len` is `2 ^ 32`, which is zero, and no address is visited. -/
theorem not_gateSound_kernel : ¬ GateSound threePages 0 1 kernbase 0x10000000#32 pteU := by
  intro h
  have hrun : (userMemCheck 0 kernbase 0x10000000#32 pteU).run threePages = .ok 0#32 _ := rfl
  have hlow := (h ⟨_, hrun⟩ kernbase.toNat (Nat.le_refl _) (by decide)).1
  exact absurd hlow (by decide)

end Jos
