import Jos.Upcall
import Jos.Protection.Run
import Jos.Zombie

/-!
# What brings the kernel down

`_panic` stops the kernel for good, so a program that can make the kernel panic can stop the
machine.  There are few ways to do so.  A system call that is not implemented panics.
`user_mem_check` reads the entry of an address without a page table through a `NULL` pointer,
`sys_cputs` reads on to the end of the string, which may be after the range that it has checked, and
`page_fault_handler` stores the frame before it has checked that it may.

These are all that happen on the way: whatever else a program does, the kernel gets back to user
mode, ends up in the monitor, or has nothing to run and comes to `unlock_kernel` in `sched_halt`.
That one has no lock to give back in this source, and stops the kernel as well.
-/

set_option autoImplicit false

namespace Jos

open Kernel Command

variable {res : Nat → Prop} {fl : List Nat} {s t u s₀ : Kernel} {cur e : EnvIndex} {d : Nat}
variable {α β : Type} {m : KernelM α}

/-! ## Panics -/

/-- Run in state `s`, the command panics. -/
def Kernel.Dies (s : Kernel) (m : KernelM α) : Prop := ∃ x t, m.run s = .error x t ∧ x.IsPanic

namespace Kernel.Dies

theorem of_ok {a : α} (hr : m.run s = .ok a t) : ¬ s.Dies m := by
  rintro ⟨x, t', hr', -⟩
  rw [hr] at hr'
  cases hr'

theorem of_error {x : Exit} (hr : m.run s = .error x t) : s.Dies m ↔ x.IsPanic := by
  constructor
  · rintro ⟨y, t', hr', hy⟩
    rw [hr] at hr'
    cases hr'
    exact hy
  · exact fun hx => ⟨x, t, hr, hx⟩

theorem panic (msg : String) : s.Dies (throw (.panic msg) : KernelM α) := ⟨_, s, rfl, trivial⟩

theorem ite {c : Prop} [Decidable c] {m₁ m₂ : KernelM α} (h₁ : s.Dies m₁) (h₂ : s.Dies m₂) :
    s.Dies (if c then m₁ else m₂) := by
  split
  · exact h₁
  · exact h₂

theorem congr {m' : KernelM β} (h : ∀ x u, m.run s = .error x u ↔ m'.run t = .error x u) :
    s.Dies m ↔ t.Dies m' :=
  exists_congr fun x => exists_congr fun u => and_congr_left fun _ => h x u

/-- After a command that returns. -/
theorem bind_ok {a : α} {f : α → KernelM β} (hr : m.run s = .ok a t) :
    s.Dies (m >>= f) ↔ t.Dies (f a) :=
  congr fun x u => by rw [run_bind_ok hr]

/-- What follows it does not matter. -/
theorem bind_iff {f : α → KernelM β} (hf : ∀ a t, m.run s = .ok a t → ¬ t.Dies (f a)) :
    s.Dies (m >>= f) ↔ s.Dies m := by
  cases hr : m.run s with
  | ok a t =>
    rw [bind_ok hr]
    exact iff_of_false (hf a t hr) (of_ok hr)
  | error x t => rw [of_error (run_bind_error hr), of_error hr]

end Kernel.Dies

/-! ## Commands that survive -/

theorem Kernel.LiveDirs.schedYield_lives (h : s.LiveDirs) : ¬ s.Dies schedYield := by
  obtain ⟨x, s', hrun, hl⟩ := schedYield_leaves h
  rw [Dies.of_error hrun]
  cases hl with
  | run => exact id
  | halt => exact id
  | monitor => exact id

theorem Kernel.LiveDirs.envRun_lives (h : s.LiveDirs) (hlive : (s.envs e).envStatus ≠ .free) :
    ¬ s.Dies (envRun e) := by
  obtain ⟨d, hd⟩ := h e hlive
  rw [Dies.of_error (envRun_run hd)]
  exact id

theorem Kernel.Sane.trapReturn_lives (h : s.Sane) : ¬ s.Dies trapReturn := by
  rw [trapReturn, Dies.bind_ok (EStateM.run_get s)]
  split
  · next cur hc =>
    rw [Dies.bind_ok (EStateM.run_get s)]
    split
    · exact h.dirs.envRun_lives (h.cur cur hc)
    · exact h.dirs.schedYield_lives
  · exact h.dirs.schedYield_lives

theorem Kernel.Sane.trapReturn_never (h : s.Sane) (a : Unit) (t : Kernel) :
    trapReturn.run s ≠ .ok a t := by
  rw [trapReturn, run_bind_ok (EStateM.run_get s)]
  split
  · next cur hc =>
    rw [run_bind_ok (EStateM.run_get s)]
    split
    · obtain ⟨d, hd⟩ := h.dirs cur (h.cur cur hc)
      rw [envRun_run hd]
      simp
    · exact schedYield_never h a t
  · exact schedYield_never h a t

theorem Inv.envDestroy_lives (h : Inv res fl s) (hlive : (s.envs e).envStatus ≠ .free) :
    ¬ s.Dies (envDestroy e) := by
  rcases h.envDestroy_spec hlive with
    ⟨-, -, hrun⟩ | ⟨s₁, fl₁, -, -, -, -, ⟨-, hrun⟩ | ⟨-, x, s', hrun, hl⟩⟩
  · exact Dies.of_ok hrun
  · exact Dies.of_ok hrun
  · rw [Dies.of_error hrun]
    cases hl with
    | run => exact id
    | halt => exact id
    | monitor => exact id

/-! ## `user_mem_assert` -/

/-- The addresses that `user_mem_check` visits pass. -/
def Kernel.Allows (s : Kernel) (d : Nat) (va len perm : Word) : Prop :=
  ∀ k, va.toNat + 4096 * k < (roundUp (va + len) pgsize).toNat →
    s.Passes d (perm ||| pteP) (BitVec.ofNat 32 (va.toNat + 4096 * k))

-- so that nothing is tempted to run its loop
attribute [local irreducible] userMemCheck

/-- **`user_mem_assert`** lets pass, destroys the environment, or panics. -/
theorem Inv.userMemAssert_cases (hd : (s.envs e).envPgdir = some d) (va len perm : Word) :
    (¬ s.CheckPanics d va len (perm ||| pteU) ∧ s.Allows d va len (perm ||| pteU) ∧
      ∃ a, (userMemAssert e va len perm).run s = .ok () (s.checkingAt a)) ∨
    (¬ s.CheckPanics d va len (perm ||| pteU) ∧ ¬ s.Allows d va len (perm ||| pteU) ∧
      ∃ t, Peek s t ∧ (userMemAssert e va len perm).run s = (envDestroy e).run t) ∨
    (s.CheckPanics d va len (perm ||| pteU) ∧ s.Dies (userMemAssert e va len perm)) := by
  have hzero : (∃ t, (userMemCheck e va len (perm ||| pteU)).run s = .ok 0#32 t) ↔
      s.Allows d va len (perm ||| pteU) := userMemCheck_zero_iff hd
  rcases userMemCheck_cases hd va len (perm ||| pteU) with ⟨hno, a, hrun⟩ | ⟨hno, t, hrun⟩ |
    ⟨hyes, x, t, hrun⟩
  · refine Or.inl ⟨hno, hzero.1 ⟨_, hrun⟩, a, ?_⟩
    rw [userMemAssert, run_bind_ok hrun]
    rfl
  · refine Or.inr (Or.inl ⟨hno, fun hall => ?_, t, (userMemCheck_peek _ _ _ _).of_ok hrun, ?_⟩)
    · obtain ⟨t', hrun'⟩ := hzero.2 hall
      rw [hrun] at hrun'
      cases hrun'
    · rw [userMemAssert, run_bind_ok hrun, if_pos (by decide)]
  · have hx := ((userMemCheck_quiet e va len (perm ||| pteU)).of_error hrun).2
    have hrun' : (userMemAssert e va len perm).run s = .error x t := run_bind_error hrun
    exact Or.inr (Or.inr ⟨hyes, x, t, hrun', hx⟩)

/-! ## The string of `sys_cputs` -/

/-- The kernel comes to a byte of the string that it cannot read, before a NUL and no later than
right after the last one that it prints. -/
def Kernel.StringFaults (s : Kernel) (p len : Word) : Prop :=
  ∃ k < 2 ^ 32, (∀ j < k, ∃ b, s.kbyte (p + BitVec.ofNat 32 j) = some b ∧ b ≠ 0#8) ∧
    (len.toInt < 0 ∨ (k : Int) ≤ len.toInt) ∧ s.kbyte (p + BitVec.ofNat 32 k) = none

theorem kloadByte_dies {va : Word} (h : s.kbyte va = none) : s.Dies (kloadByte va) := by
  have ht := Option.map_eq_none_iff.1 h
  refine ⟨.panic "Page fault in kernel", s, ?_, trivial⟩
  simp only [kloadByte, EStateM.run_bind, EStateM.run_get, ht]
  rfl

/-- From the second byte on. -/
theorem exists_shift {fuel : Nat} {p : Word} {precision : Int} {b : Byte}
    (hb : s.kbyte p = some b) (hne : b ≠ 0#8) (precision' : Int)
    (hprec : ∀ k : Nat, (precision < 0 ∨ ((k + 1 : Nat) : Int) ≤ precision) ↔
      (precision' < 0 ∨ (k : Int) ≤ precision')) :
    (∃ k < fuel + 1, (∀ j < k, ∃ b, s.kbyte (p + BitVec.ofNat 32 j) = some b ∧ b ≠ 0#8) ∧
        (precision < 0 ∨ (k : Int) ≤ precision) ∧ s.kbyte (p + BitVec.ofNat 32 k) = none) ↔
      ∃ k < fuel, (∀ j < k, ∃ b, s.kbyte (p + 1#32 + BitVec.ofNat 32 j) = some b ∧ b ≠ 0#8) ∧
        (precision' < 0 ∨ (k : Int) ≤ precision') ∧
        s.kbyte (p + 1#32 + BitVec.ofNat 32 k) = none := by
  have hnext : ∀ k, p + 1#32 + BitVec.ofNat 32 k = p + BitVec.ofNat 32 (k + 1) := by
    intro k
    rw [BitVec.add_assoc, Nat.add_comm k 1, BitVec.ofNat_add]
  have hself : p + BitVec.ofNat 32 0 = p := by simp
  constructor
  · rintro ⟨k, hk, hall, hle, hnone⟩
    cases k with
    | zero =>
      rw [hself, hb] at hnone
      cases hnone
    | succ k =>
      refine ⟨k, by omega, fun j hj => ?_, (hprec k).1 hle, ?_⟩
      · rw [hnext]
        exact hall (j + 1) (by omega)
      · rw [hnext]
        exact hnone
  · rintro ⟨k, hk, hall, hle, hnone⟩
    refine ⟨k + 1, by omega, fun j hj => ?_, (hprec k).2 hle, ?_⟩
    · cases j with
      | zero =>
        rw [hself]
        exact ⟨b, hb, hne⟩
      | succ j =>
        rw [← hnext]
        exact hall j (by omega)
    · rw [← hnext]
      exact hnone

/-- The loop of `vprintfmt` for `%.*s`. -/
theorem printfmtS_dies_iff (fuel : Nat) (p : Word) (precision : Int) (s : Kernel) :
    s.Dies (printfmtS fuel p precision) ↔
      ∃ k < fuel, (∀ j < k, ∃ b, s.kbyte (p + BitVec.ofNat 32 j) = some b ∧ b ≠ 0#8) ∧
        (precision < 0 ∨ (k : Int) ≤ precision) ∧ s.kbyte (p + BitVec.ofNat 32 k) = none := by
  induction fuel generalizing p precision s with
  | zero =>
    rw [printfmtS]
    exact iff_of_false (Dies.of_ok (EStateM.run_pure _ _)) fun ⟨k, hk, _⟩ =>
      absurd hk (Nat.not_lt_zero k)
  | succ fuel ih =>
    have hself : p + BitVec.ofNat 32 0 = p := by simp
    rw [printfmtS]
    cases hb : s.kbyte p with
    | none =>
      obtain ⟨x, t, hr, hx⟩ := kloadByte_dies hb
      refine iff_of_true ⟨x, t, run_bind_error hr, hx⟩
        ⟨0, Nat.succ_pos _, fun j hj => absurd hj (Nat.not_lt_zero j), ?_, by rwa [hself]⟩
      exact (lt_or_ge precision 0).imp_right id
    | some b =>
      rw [Dies.bind_ok (kloadByte_run hb)]
      by_cases h0 : b = 0#8
      · rw [if_pos h0]
        refine iff_of_false (Dies.of_ok (EStateM.run_pure _ _)) fun ⟨k, hk, hall, _, hnone⟩ => ?_
        cases k with
        | zero =>
          rw [hself, hb] at hnone
          cases hnone
        | succ k =>
          obtain ⟨b', hb', hne⟩ := hall 0 (Nat.succ_pos k)
          rw [hself, hb] at hb'
          exact hne (Option.some_inj.1 hb' ▸ h0)
      rw [if_neg h0]
      by_cases hneg : precision < 0
      · rw [if_pos hneg, Dies.bind_ok (EStateM.run_modify _ _), exists_shift hb h0 precision]
        · exact ih (p + 1#32) precision (s.printed b)
        · intro k
          omega
      rw [if_neg hneg]
      by_cases hlast : 0 ≤ precision - 1
      · rw [if_pos hlast, Dies.bind_ok (EStateM.run_modify _ _), exists_shift hb h0 (precision - 1)]
        · exact ih (p + 1#32) (precision - 1) (s.printed b)
        · intro k
          omega
      · rw [if_neg hlast]
        refine iff_of_false (Dies.of_ok (EStateM.run_pure _ _)) fun ⟨k, hk, hall, hle, hnone⟩ => ?_
        obtain rfl : k = 0 := by omega
        rw [hself, hb] at hnone
        cases hnone

/-- **`cprintf("%.*s", len, p)`.** -/
theorem cprintS_dies_iff (p len : Word) :
    s.Dies (cprintS p len) ↔ p ≠ 0#32 ∧ s.StringFaults p len := by
  rw [cprintS]
  by_cases hp : p = 0#32
  · rw [if_pos hp]
    exact iff_of_false (Dies.of_ok (EStateM.run_modify _ _)) fun hh => hh.1 hp
  · rw [if_neg hp, printfmtS_dies_iff]
    exact (and_iff_right hp).symm

/-! ## System calls -/

/-- The system calls that make the kernel panic; `d` is the directory of the caller. -/
def Syscall.Crashes (s : Kernel) (cur : EnvIndex) (d : Nat) : Syscall → Prop
  | .cputs p len => s.CheckPanics d p len pteU ∨
      s.Allows d p len pteU ∧ p ≠ 0#32 ∧ s.StringFaults p len
  | .envSetPgfaultUpcall envid func =>
      ∃ e d', s.resolve cur envid = some e ∧ s.dir e = some d' ∧ s.CheckPanics d' func 4#32 pteU
  | _ => False

-- nor the one that prints
attribute [local irreducible] cprintS

section

variable (h : Inv res fl s) (hc : s.curenv = some cur) (hlive : (s.envs cur).envStatus ≠ .free)
include h hc hlive

theorem Inv.cputs_dies_iff (hd : s.dir cur = some d) (p len : Word) :
    s.Dies (Syscall.cputs p len).handle ↔ (Syscall.cputs p len).Crashes s cur d := by
  have hdir := envPgdir_of_dir hd
  have hUU : pteU ||| pteU = pteU := by decide
  have hrun : ∀ x u, (Syscall.cputs p len).handle.run s = .error x u ↔
      EStateM.run (do userMemAssert cur p len pteU; cprintS p len; return 0#32 : KernelM Word) s =
        .error x u := by
    intro x u
    rw [Syscall.handle, sysCputs, bind_assoc, run_bind_ok (EStateM.run_get s), hc]
    simp only [derefEnv, pure_bind, bind_assoc]
  rw [Dies.congr hrun]
  have hcases := Inv.userMemAssert_cases hdir p len pteU
  rw [hUU] at hcases
  rcases hcases with ⟨hno, hall, a, hok⟩ | ⟨hno, hnot, t, hp, hdes⟩ | ⟨hyes, hdies⟩
  · rw [Dies.bind_ok hok, Dies.bind_iff fun a t _ => Dies.of_ok (EStateM.run_pure _ _),
      cprintS_dies_iff]
    exact ⟨fun hh => Or.inr ⟨hall, hh⟩, fun hh => (hh.resolve_left hno).2⟩
  · refine iff_of_false ?_ fun hh => hnot (hh.resolve_left hno).1
    have hct : t.curenv = some cur := by
      rw [hp]
      exact hc
    have hlt : (t.envs cur).envStatus ≠ .free := by
      rw [hp]
      exact hlive
    obtain ⟨x, s', hleave, hx, -⟩ := (hp.inv h).envDestroy_leaves hct hlt
    rw [Dies.of_error (run_bind_error (hdes.trans hleave))]
    exact hx
  · refine iff_of_true ?_ (Or.inl hyes)
    obtain ⟨x, t, hr, hx⟩ := hdies
    exact ⟨x, t, run_bind_error hr, hx⟩

theorem Inv.setUpcall_dies_iff (envid func : Word) :
    s.Dies (Syscall.envSetPgfaultUpcall envid func).handle ↔
      (Syscall.envSetPgfaultUpcall envid func).Crashes s cur d := by
  rw [Syscall.handle]
  cases hr : s.resolve cur envid with
  | none =>
    refine iff_of_false (Dies.of_ok (sysEnvSetPgfaultUpcall_none hc hr)) ?_
    rintro ⟨e, d', he, -⟩
    rw [hr] at he
    cases he
  | some e =>
    have hlive' := resolve_live hlive hr
    obtain ⟨d', hdir⟩ := h.live_dir e hlive'
    have hd : s.dir e = some d' := by rw [Kernel.dir, if_neg hlive', hdir]
    have hcrash : (Syscall.envSetPgfaultUpcall envid func).Crashes s cur d ↔
        s.CheckPanics d' func 4#32 pteU := by
      constructor
      · rintro ⟨e', d'', he, hd'', hp⟩
        obtain rfl : e = e' := Option.some_inj.1 (hr.symm.trans he)
        obtain rfl : d' = d'' := Option.some_inj.1 (hd.symm.trans hd'')
        exact hp
      · exact fun hp => ⟨e, d', hr, hd, hp⟩
    have hself := withUpcall_self s e func
    have hdu : ((s.withUpcall e func).envs e).envPgdir = some d' := by
      rw [hself]
      exact hdir
    have hinv : Inv res fl (s.withUpcall e func) := h.of_setEnv rfl rfl Iff.rfl
    have hperm : (0#32 ||| pteU : Word) = pteU := by decide
    rw [hcrash, Dies.congr (t := s.withUpcall e func)
      fun x u => by rw [sysEnvSetPgfaultUpcall_some hc hr]; rfl]
    rw [Dies.bind_iff fun a t _ => Dies.of_ok (EStateM.run_pure _ _)]
    have hcases := Inv.userMemAssert_cases hdu func 4#32 0#32
    rw [hperm, checkPanics_withUpcall] at hcases
    rcases hcases with ⟨hno, -, a, hok⟩ | ⟨hno, -, t, hp, hdes⟩ | ⟨hyes, hdies⟩
    · exact iff_of_false (Dies.of_ok hok) hno
    · refine iff_of_false ?_ hno
      rw [Dies.congr (t := t) fun x u => by rw [hdes]]
      refine (hp.inv hinv).envDestroy_lives ?_
      rw [show t.envs = (s.withUpcall e func).envs by rw [hp], hself]
      exact hlive'
    · exact iff_of_true hdies hyes

/-- **Which system calls make the kernel panic.** -/
theorem Inv.handle_dies_iff (hd : s.dir cur = some d) (c : Syscall) :
    s.Dies c.handle ↔ c.Crashes s cur d := by
  cases c with
  | cputs p len => exact h.cputs_dies_iff hc hlive hd p len
  | envSetPgfaultUpcall envid func => exact h.setUpcall_dies_iff hc hlive envid func
  | cgetc => exact iff_of_false (Dies.of_ok (a := s.consIn) (t := s) rfl) id
  | getenvid =>
    have hrun : Syscall.getenvid.handle.run s = .ok (s.envs cur).envId s := by
      simp only [Syscall.handle, sysGetenvid, EStateM.run_bind, EStateM.run_get, hc, derefEnv,
        EStateM.run_pure]
    exact iff_of_false (Dies.of_ok hrun) id
  | envDestroy envid =>
    refine iff_of_false ?_ id
    cases hr : s.resolve cur envid with
    | none => exact Dies.of_ok (sysEnvDestroy_none hc hr)
    | some e =>
      have hsame : s.Dies (Syscall.envDestroy envid).handle ↔
          s.Dies (do envDestroy e; return 0#32 : KernelM Word) :=
        Dies.congr fun x u => by rw [Syscall.handle, sysEnvDestroy_some hc hr]
      rw [hsame, Dies.bind_iff fun a t _ => Dies.of_ok (EStateM.run_pure _ _)]
      exact h.envDestroy_lives (resolve_live hlive hr)
  | pageAlloc envid va perm =>
    obtain ⟨r, s', hrun, -⟩ := h.sysPageAlloc_spec hc hlive envid va perm
    exact iff_of_false (Dies.of_ok hrun) id
  | pageMap srcenvid srcva dstenvid dstva perm =>
    obtain ⟨r, s', hrun, -⟩ := h.sysPageMap_spec hc hlive srcenvid srcva dstenvid dstva perm
    exact iff_of_false (Dies.of_ok hrun) id
  | pageUnmap envid va =>
    obtain ⟨r, s', hrun, -⟩ := h.sysPageUnmap_spec hc hlive envid va
    exact iff_of_false (Dies.of_ok hrun) id
  | exofork =>
    obtain ⟨r, s', hrun, -⟩ := h.sysExofork_spec hc hlive
    exact iff_of_false (Dies.of_ok hrun) id
  | envSetStatus envid status =>
    rcases sysEnvSetStatus_spec hc envid status with ⟨r, -, hrun⟩ | ⟨e, st, -, -, hrun⟩
    · exact iff_of_false (Dies.of_ok hrun) id
    · exact iff_of_false (Dies.of_ok hrun) id
  | yield =>
    refine iff_of_false ?_ id
    rw [Syscall.handle, Dies.bind_iff fun a t _ => Dies.of_ok (EStateM.run_pure _ _)]
    exact LiveDirs.schedYield_lives h.live_dir

end

/-! ## Page faults -/

/-- The page fault of an environment with a handler makes the kernel panic: the top word of the
exception stack is readable, so the frame is stored, but not all of it can be. -/
def Kernel.FaultCrashes (s : Kernel) (cur : EnvIndex) (d : Nat) (tf : Trapframe) : Prop :=
  (s.envs cur).envPgfaultUpcall ≠ 0#32 ∧ s.Grants d (pteP ||| pteU) (uxstacktop - 4#32) ∧
    ∃ n < 52, s.translate d (pteP ||| pteW) (exstack tf.tfEsp + BitVec.ofNat 32 n) = none

section

variable (h : Inv res fl s) (hd : s.dir cur = some d)
include h hd

/-- Where the page tables are there, the second check does not panic. -/
theorem Inv.frame_checkPanics {utf perm : Word} (hlt : ∀ n < 52, utf + BitVec.ofNat 32 n < utop)
    (htab : ∀ n < 52, s.table cur (pdx (utf + BitVec.ofNat 32 n)) ≠ none) :
    ¬ s.CheckPanics d utf utfSize perm := by
  have htop : utop.toNat = 4005560320 := by decide
  have hlen : utfSize.toNat = 52 := by decide
  have hroom := roundUp_room (utf + utfSize)
  have hutf : utf.toNat < utop.toNat := by
    rw [← BitVec.lt_def]
    simpa using hlt 0 (by decide)
  rintro ⟨n, hn, hvis, hbad⟩
  -- the address visited has not wrapped
  have hwrap : utf.toNat + 4096 * n < 2 ^ 32 := by
    rcases Nat.eq_zero_or_pos n with rfl | hpos
    · omega
    · have := (hn.before (n - 1) (by omega)).1
      omega
  have hin : utf.toNat + 4096 * n < (roundUp (utf + utfSize) pgsize).toNat := by
    rw [← visited_toNat hwrap]
    exact hvis
  obtain ⟨b, hlo, hhi, hpage⟩ := visited_meets (by decide) (by omega) hin
  -- it is in a page of the frame
  obtain ⟨j, rfl⟩ := Nat.exists_eq_add_of_le hlo
  have hj : j < 52 := by omega
  have hnum : pgnum (visited utf n) = pgnum (utf + BitVec.ofNat 32 j) := by
    rw [pgnum_eq, pgnum_eq, visited_toNat hwrap, BitVec.toNat_add, BitVec.toNat_ofNat,
      Nat.mod_eq_of_lt (by omega : j < 2 ^ 32), Nat.mod_eq_of_lt (by omega), hpage]
  have hpdx := (pdx_ptx_of_pgnum hnum).1
  have heq := table_of_dir hd ((lt_utop_iff _).1 (hlt j hj))
  rw [hpdx, ← heq] at hbad
  rcases hbad with ⟨t, ht, hbeyond⟩ | ⟨-, hnone, -⟩
  · exact hbeyond (h.target_lt (k := .table cur _) ht)
  · exact htab j hj hnone

variable (hc : s.curenv = some cur)
include hc

/-- What follows the store. -/
theorem Inv.pageFaultTail_lives {utf : Word} (hlt : ∀ n < 52, utf + BitVec.ofNat 32 n < utop)
    (htab : ∀ n < 52, s.table cur (pdx (utf + BitVec.ofNat 32 n)) ≠ none) :
    ¬ s.Dies (pageFaultTail cur utf) := by
  have hlive := live_of_dir hd
  rw [pageFaultTail]
  rcases Inv.userMemAssert_cases (envPgdir_of_dir hd) utf utfSize (pteP ||| pteW ||| pteU) with
    ⟨-, -, a, hok⟩ | ⟨-, -, t, hp, hdes⟩ | ⟨hyes, -⟩
  · rw [Dies.bind_ok hok, updateEnv, Dies.bind_ok (EStateM.run_modify _ _)]
    have hset : Inv res fl ((s.checkingAt a).setEnv cur { s.envs cur with
        envTf := { (s.envs cur).envTf with
          tfEsp := utf, tfEip := (s.envs cur).envPgfaultUpcall } }) :=
      Inv.of_setEnv
        (h.of_mem rfl rfl rfl rfl rfl h.chain h.ok : Inv res fl (s.checkingAt a)) rfl rfl
        Iff.rfl
    refine LiveDirs.envRun_lives hset.live_dir ?_
    rw [setEnv_envs, Function.update_self]
    exact hlive
  · have hct : t.curenv = some cur := by
      rw [hp]
      exact hc
    have hlt : (t.envs cur).envStatus ≠ .free := by
      rw [hp]
      exact hlive
    obtain ⟨x, s', hleave, hx, -⟩ := (hp.inv h).envDestroy_leaves hct hlt
    rw [Dies.of_error (run_bind_error (hdes.trans hleave))]
    exact hx
  · exact absurd hyes (h.frame_checkPanics hd hlt htab)

/-- **When a page fault makes the kernel panic.** -/
theorem Inv.pageFaultHandler_dies_iff {tf : Trapframe} (hcs : tf.tfCs &&& 3#32 = 3#32)
    (hcr3 : s.cr3 s.cpunum = d) : s.Dies (pageFaultHandler tf) ↔ s.FaultCrashes cur d tf := by
  have hlive := live_of_dir hd
  by_cases hup : (s.envs cur).envPgfaultUpcall = 0#32
  · refine iff_of_false ?_ fun hh => hh.1 hup
    have hkt : tf.tfCs ≠ gdKt := by
      intro hkt
      rw [hkt] at hcs
      exact absurd hcs (by decide)
    have hrun : (pageFaultHandler tf).run s = (envDestroy cur).run s := by
      simp only [pageFaultHandler, run_bind_ok (EStateM.run_get s), if_neg hkt, hc, derefEnv,
        run_bind_ok (EStateM.run_pure _ _), if_pos hup]
    have hsame : s.Dies (pageFaultHandler tf) ↔ s.Dies (envDestroy cur) :=
      Dies.congr fun x u => by rw [hrun]
    exact fun hdies => h.envDestroy_lives hlive (hsame.1 hdies)
  have hsame : s.Dies (pageFaultHandler tf) ↔ s.Dies (do
      userMemAssert cur (uxstacktop - 4#32) 4#32 0#32
      storeBytes (frameBytes (exstack tf.tfEsp) (.ofTrapframe tf s.cr2))
      pageFaultTail cur (exstack tf.tfEsp)) :=
    Dies.congr fun x u => by rw [pageFaultHandler_run hcs hc hup]
  rw [hsame]
  rcases topCheck_run h hd with ⟨hg, t, hp, hok⟩ | ⟨hno, t, hp, hdes⟩
  · rw [Dies.bind_ok hok]
    have hdt : t.dir cur = some d := (dir_of_envs (by rw [hp]) cur).trans hd
    have hct : t.curenv = some cur := by
      rw [hp]
      exact hc
    have hcr3t : t.cr3 t.cpunum = d := by
      rw [hp]
      exact hcr3
    have htr : ∀ va, t.translate d (pteP ||| pteW) va = s.translate d (pteP ||| pteW) va := by
      intro va
      rw [Kernel.translate, Kernel.translate, show t.mem = s.mem by rw [hp]]
    have hlt : ∀ x ∈ frameBytes (exstack tf.tfEsp) (.ofTrapframe tf s.cr2), x.1 < utop := by
      intro x hx
      obtain ⟨n, hn, hx⟩ := mem_frameBytes hx
      rw [hx]
      exact frame_lt_utop tf.tfEsp hn
    rcases storeBytes_run hdt hlt (hp.inv h) hcr3t with
      ⟨⟨x, hx, hnone⟩, s', hfault⟩ | ⟨hall, s', hstore, hst, -⟩
    · refine iff_of_true ⟨_, s', run_bind_error hfault, trivial⟩ ⟨hup, hg, ?_⟩
      obtain ⟨n, hn, hxn⟩ := mem_frameBytes hx
      exact ⟨n, hn, by rw [← hxn, ← htr]; exact hnone⟩
    · rw [Dies.bind_ok hstore]
      refine iff_of_false (hst.inv.pageFaultTail_lives ((hst.dir cur).trans hdt)
        (hst.only.curenv.trans hct) (fun n hn => frame_lt_utop tf.tfEsp hn) fun n hn => ?_) ?_
      · -- a byte that has been stored is in a page, and that is in a page table
        obtain ⟨b, hb⟩ := frameBytes_mem (exstack tf.tfEsp) (.ofTrapframe tf s.cr2) hn
        obtain ⟨⟨p, o⟩, hpage⟩ := Option.ne_none_iff_exists'.1 (hall _ hb)
        have hleaf := leaf_of_translate hdt (frame_lt_utop tf.tfEsp hn) hpage
        obtain ⟨q, hq, -⟩ := leaf_eq_some.1 hleaf
        rw [show s'.table cur _ = t.table cur _ from congrFun hst.target (.table cur _), hq]
        simp
      · rintro ⟨-, -, n, hn, hnone⟩
        obtain ⟨b, hb⟩ := frameBytes_mem (exstack tf.tfEsp) (.ofTrapframe tf s.cr2) hn
        exact hall _ hb ((htr _).trans hnone)
  · refine iff_of_false ?_ fun hh => hno hh.2.1
    have hct : t.curenv = some cur := by
      rw [hp]
      exact hc
    have hlt : (t.envs cur).envStatus ≠ .free := by
      rw [hp]
      exact hlive
    obtain ⟨x, s', hleave, hx, -⟩ := (hp.inv h).envDestroy_leaves hct hlt
    rw [Dies.of_error (run_bind_error (hdes.trans hleave))]
    exact hx

end

/-! ## Traps -/

/-- A trap from user mode whose registers are saved makes the kernel panic: it is a page fault that
does, or a system call that does or is not implemented. -/
def Trapframe.Crashes (tf : Trapframe) (s : Kernel) (cur : EnvIndex) (d : Nat) : Prop :=
  tf.tfTrapno = tPgflt ∧ s.FaultCrashes cur d tf ∨
    tf.tfTrapno = tSyscall ∧ ∀ c, tf.call = some c → c.Crashes s cur d

section

variable (h : Inv res fl s) (hc : s.curenv = some cur) (hd : s.dir cur = some d)
include h hc hd

/-- **`trap_dispatch`.** -/
theorem Inv.trapDispatch_dies_iff {tf : Trapframe} (hcs : tf.tfCs &&& 3#32 = 3#32)
    (hcr3 : s.cr3 s.cpunum = d) : s.Dies (trapDispatch tf) ↔ tf.Crashes s cur d := by
  have hlive := live_of_dir hd
  have hno : ∀ no : Word, tf.tfTrapno = no → no ≠ tPgflt → no ≠ tSyscall →
      ¬ tf.Crashes s cur d := by
    rintro no rfl hpg hsys (hh | hh)
    · exact hpg hh.1
    · exact hsys hh.1
  rw [trapDispatch]
  by_cases hspur : tf.tfTrapno = irqOffset + irqSpurious
  · rw [if_pos hspur]
    exact iff_of_false (Dies.of_ok (EStateM.run_pure _ _)) (hno _ hspur (by decide) (by decide))
  rw [if_neg hspur]
  by_cases hpg : tf.tfTrapno = tPgflt
  · rw [if_pos hpg, h.pageFaultHandler_dies_iff hd hc hcs hcr3]
    refine ⟨fun hh => Or.inl ⟨hpg, hh⟩, fun hh => (hh.resolve_right fun hsys => ?_).2⟩
    exact absurd (hpg.symm.trans hsys.1) (by decide)
  rw [if_neg hpg]
  by_cases hbr : tf.tfTrapno = tBrkpt
  · rw [if_pos hbr]
    refine iff_of_false ?_ (hno _ hbr (by decide) (by decide))
    rintro ⟨x, t, hr, hx⟩
    cases hr
    exact hx
  rw [if_neg hbr]
  by_cases hsys : tf.tfTrapno = tSyscall
  · rw [if_pos hsys, Dies.bind_ok (EStateM.run_get s), hc]
    have hcrash : tf.Crashes s cur d ↔ ∀ c, tf.call = some c → c.Crashes s cur d :=
      ⟨fun hh => (hh.resolve_left fun hf => hpg hf.1).2, fun hh => Or.inr ⟨hsys, hh⟩⟩
    rw [derefEnv, Dies.bind_ok (EStateM.run_pure _ _)]
    refine (Dies.bind_iff fun r t _ => Dies.of_ok rfl).trans ?_
    rw [hcrash, syscall, Trapframe.call, if_pos hsys]
    cases Syscall.decode tf.tfRegs.regEax tf.tfRegs.regEdx tf.tfRegs.regEcx tf.tfRegs.regEbx
      tf.tfRegs.regEdi tf.tfRegs.regEsi with
    | some c =>
      rw [h.handle_dies_iff hc hlive hd c]
      exact ⟨fun hh c' hc' => Option.some_inj.1 hc' ▸ hh, fun hh => hh c rfl⟩
    | none =>
      exact iff_of_true (.ite (.panic _) (.ite (.panic _) (.panic _))) fun c hc' => by cases hc'
  rw [if_neg hsys]
  have hnot : ¬ tf.Crashes s cur d := hno _ rfl hpg hsys
  by_cases htimer : tf.tfTrapno = irqOffset + irqTimer
  · rw [if_pos htimer]
    exact iff_of_false (LiveDirs.schedYield_lives h.live_dir) hnot
  have hkt : tf.tfCs ≠ gdKt := by
    intro hkt
    rw [hkt] at hcs
    exact absurd hcs (by decide)
  rw [if_neg htimer, if_neg hkt, Dies.bind_ok (EStateM.run_get s), hc, derefEnv,
    Dies.bind_ok (EStateM.run_pure _ _)]
  exact iff_of_false (h.envDestroy_lives hlive) hnot

/-- **A trap from user mode** does not return, and makes the kernel panic unless the environment is
dying. -/
theorem Inv.trap_user_dies_iff {tf : Trapframe} (hcs : tf.tfCs &&& 3#32 = 3#32)
    (hcr3 : s.cr3 s.cpunum = d) :
    (∀ a t, (trap tf).run s ≠ .ok a t) ∧
      (s.Dies (trap tf) ↔ (s.envs cur).envStatus ≠ .dying ∧ tf.Crashes (s.saved cur tf) cur d) := by
  have hlive := live_of_dir hd
  have hc₁ : s.started.curenv = some cur := (started_curenv s).trans hc
  obtain ⟨fl₁, h₁⟩ := h.started_guarded.inv
  by_cases hdying : (s.envs cur).envStatus = .dying
  · -- a zombie is collected
    obtain ⟨x, t, hleave, hx, -⟩ := h₁.envDestroy_leaves hc₁ hlive
    rw [envDestroy_current hc₁] at hleave
    have hcoll : (trapFromUser tf).run s.started = .error x t :=
      (trapFromUser_dying hc₁ hdying tf).trans (run_bind_error hleave)
    have hrun : (trap tf).run s = .error x t := (trap_user hcs s).trans (run_bind_error hcoll)
    refine ⟨fun a t' hr => ?_, ?_⟩
    · rw [hrun] at hr
      cases hr
    · rw [Dies.of_error hrun]
      exact iff_of_false hx fun hh => hh.1 hdying
  have h₂ : Inv res fl₁ (s.saved cur tf) := Inv.of_setEnv h₁ rfl rfl Iff.rfl
  have hd₂ : (s.saved cur tf).dir cur = some d := by
    rw [Kernel.dir, Kernel.saved, setEnv_envs, Function.update_self]
    exact hd
  have hsane : (s.saved cur tf).Sane := ⟨h₂.live_dir, fun e he => by
    obtain rfl : cur = e := Option.some_inj.1 (hc₁.symm.trans he)
    exact live_of_dir hd₂⟩
  have hrun : (trap tf).run s =
      EStateM.run (do trapDispatch tf; trapReturn : KernelM Unit) (s.saved cur tf) :=
    (trap_user hcs s).trans (run_bind_ok (trapFromUser_saved hc hdying tf))
  have hruns : Runs (fun _ => True) (s.saved cur tf) (trapDispatch tf) :=
    trapDispatch_runs hsane hc₁ (fun _ _ => trivial) tf (fun _ => trivial) fun _ _ _ _ => trivial
  have hafter : ∀ a t, (trapDispatch tf).run (s.saved cur tf) = .ok a t → t.Sane := fun a t hr =>
    (hruns.ret a t hr).sane hsane
  refine ⟨fun a t hr => ?_, ?_⟩
  · rw [hrun] at hr
    obtain ⟨b, u, hr₁, hr₂⟩ := ok_of_bind hr
    exact (hafter b u hr₁).trapReturn_never a t hr₂
  · rw [Dies.congr (t := s.saved cur tf) fun x u => by rw [hrun],
      Dies.bind_iff fun a t hr => (hafter a t hr).trapReturn_lives,
      h₂.trapDispatch_dies_iff hc₁ hd₂ hcs hcr3]
    exact (and_iff_right hdying).symm

end

/-- **A trap taken while the CPU waits.** -/
theorem Inv.trap_wake_dies_iff (h : Inv res fl s) {tf : Trapframe} (hcs : tf.tfCs = gdKt)
    (hc : s.curenv = none) :
    (∀ a t, (trap tf).run s ≠ .ok a t) ∧
      (s.Dies (trap tf) ↔ tf.tfTrapno ≠ irqOffset + irqSpurious ∧ tf.tfTrapno ≠ tBrkpt ∧
        tf.tfTrapno ≠ irqOffset + irqTimer) := by
  obtain ⟨fl₁, h₁⟩ := h.started_guarded.inv
  have hc₁ : s.started.curenv = none := (started_curenv s).trans hc
  have hsane : s.started.Sane := ⟨h₁.live_dir, fun e he => absurd (hc₁.symm.trans he) (by simp)⟩
  have hrun := trap_wake hcs s
  have hdispatch : (tf.tfTrapno = irqOffset + irqSpurious ∧
        (trapDispatch tf).run s.started = .ok () s.started) ∨
      ∃ x t, (trapDispatch tf).run s.started = .error x t ∧
        (x.IsPanic ↔ tf.tfTrapno ≠ irqOffset + irqSpurious ∧ tf.tfTrapno ≠ tBrkpt ∧
          tf.tfTrapno ≠ irqOffset + irqTimer) := by
    rw [trapDispatch]
    by_cases hspur : tf.tfTrapno = irqOffset + irqSpurious
    · rw [if_pos hspur]
      exact Or.inl ⟨hspur, rfl⟩
    refine Or.inr ?_
    rw [if_neg hspur]
    by_cases hpg : tf.tfTrapno = tPgflt
    · rw [if_pos hpg, pageFaultHandler, run_bind_ok (EStateM.run_get _), if_pos hcs]
      exact ⟨_, _, rfl, iff_of_true trivial (by rw [hpg]; decide)⟩
    rw [if_neg hpg]
    by_cases hbr : tf.tfTrapno = tBrkpt
    · rw [if_pos hbr]
      exact ⟨_, _, rfl, iff_of_false id fun hh => hh.2.1 hbr⟩
    rw [if_neg hbr]
    by_cases hsys : tf.tfTrapno = tSyscall
    · rw [if_pos hsys, run_bind_ok (EStateM.run_get _), hc₁]
      exact ⟨_, _, rfl, iff_of_true trivial (by rw [hsys]; decide)⟩
    rw [if_neg hsys]
    by_cases htimer : tf.tfTrapno = irqOffset + irqTimer
    · rw [if_pos htimer]
      obtain ⟨x, t, hyield, hl⟩ := schedYield_leaves hsane.dirs
      refine ⟨x, t, hyield, iff_of_false (fun hx => ?_) fun hh => hh.2.2 htimer⟩
      exact LiveDirs.schedYield_lives hsane.dirs ⟨x, t, hyield, hx⟩
    · rw [if_neg htimer, if_pos hcs]
      exact ⟨_, _, rfl, iff_of_true trivial ⟨hspur, hbr, htimer⟩⟩
  rcases hdispatch with ⟨hspur, hok⟩ | ⟨x, t, herr, hx⟩
  · have hrun' : (trap tf).run s = trapReturn.run s.started := hrun.trans (run_bind_ok hok)
    refine ⟨fun a t hr => hsane.trapReturn_never a t (hrun'.symm.trans hr), ?_⟩
    have hsame : s.Dies (trap tf) ↔ s.started.Dies trapReturn :=
      Dies.congr fun x u => by rw [hrun']
    exact hsame.trans (iff_of_false hsane.trapReturn_lives fun hh => hh.1 hspur)
  · have hrun' : (trap tf).run s = .error x t := hrun.trans (run_bind_error herr)
    refine ⟨fun a t' hr => ?_, ?_⟩
    · rw [hrun'] at hr
      cases hr
    · rw [Dies.of_error hrun', hx]

/-! ## Runs -/

/-- The entry makes the kernel panic. -/
def Entry.Crashes (n : Entry) (s : Kernel) : Prop :=
  match n.cause with
  | .user tf => ∃ cur, (s.cpus n.cpu).cpuEnv = some cur ∧ (s.envs cur).envStatus ≠ .dying ∧
      tf.Crashes ((n.enter s).saved cur tf) cur (s.cr3 n.cpu)
  | .wake tf => tf.tfTrapno ≠ irqOffset + irqSpurious ∧ tf.tfTrapno ≠ tBrkpt ∧
      tf.tfTrapno ≠ irqOffset + irqTimer
  | _ => False

/-- **Every entry ends**, and it panics if and only if its cause says so. -/
theorem Protected.crashes_iff (h : Protected res s₀ s) {n : Entry} (hen : n.Enabled s)
    (hst : n.Stored s) : (∃ x s', s.Enters n x s') ∧
      ((∃ msg s', s.Enters n (.panic msg) s') ↔ n.Crashes s) := by
  obtain ⟨fl, hinv⟩ := (h.enter hst).inv
  have hdirs : (n.enter s).LiveDirs := hinv.live_dir
  have hall : (∀ a t, n.code.run (n.enter s) ≠ .ok a t) ∧
      ((n.enter s).Dies n.code ↔ n.Crashes s) := by
    rw [Entry.Enabled] at hen
    rw [Entry.code, Entry.Crashes]
    cases hcause : n.cause with
    | boot =>
      rw [hcause] at hen
      have hsane : (n.enter s).Sane := ⟨hdirs, fun e he => absurd (hen.1.symm.trans he) (by simp)⟩
      exact ⟨schedYield_never hsane, iff_of_false (LiveDirs.schedYield_lives hdirs) id⟩
    | mpMain =>
      rw [hcause] at hen
      have hsane : ((n.enter s).lcr3 (n.enter s).kernPgdir).started.Sane := by
        refine ⟨hdirs, fun e he => ?_⟩
        have hnone : (n.enter s).curenv = some e := (started_curenv _).symm.trans he
        exact absurd (hen.1.symm.trans hnone) (by simp)
      exact ⟨schedYield_never hsane, iff_of_false (LiveDirs.schedYield_lives hsane.dirs) id⟩
    | wake tf =>
      rw [hcause] at hen
      exact hinv.trap_wake_dies_iff hen.2 (h.parted.halted n.cpu hen.1)
    | user tf =>
      rw [hcause] at hen
      obtain ⟨cur, hcur⟩ := Option.ne_none_iff_exists'.1 hen.1
      obtain ⟨hnever, hiff⟩ := hinv.trap_user_dies_iff hcur (h.dir hcur) hen.2 rfl
      refine ⟨hnever, hiff.trans ⟨fun hh => ⟨cur, hcur, hh⟩, ?_⟩⟩
      rintro ⟨cur', hcur', hh⟩
      obtain rfl : cur = cur' := Option.some_inj.1 (hcur.symm.trans hcur')
      exact hh
  refine ⟨?_, ?_, fun hc => ?_⟩
  · cases hr : n.code.run (n.enter s) with
    | ok a t => exact absurd hr (hall.1 a t)
    | error x t => exact ⟨x, t, hen, hr⟩
  · rintro ⟨msg, s', hrun⟩
    exact hall.2.1 ⟨_, s', hrun.run, trivial⟩
  · obtain ⟨x, t, hr, hx⟩ := hall.2.2 hc
    cases x with
    | panic msg => exact ⟨msg, t, hen, hr⟩
    | _ => exact hx.elim

/-- A CPU waits only when there is nothing to run. -/
theorem Protected.waits_idle (h : Protected res s₀ s) {n : Entry} {s' : Kernel}
    (hw : s.Enters n .halt s') (x : EnvIndex) : (s'.envs x).envStatus ≠ .runnable := by
  obtain ⟨u, -, hd, -, -⟩ := hw.departs (h.parted.ready n.cpu) id
  cases hd with
  | halt none idle => exact none x

/-- **What brings the kernel down**, in every run of all CPUs.  Every entry comes to an end: in user
mode, in the monitor, in a panic, or with `unlock_kernel` in `sched_halt`, which stops the kernel
too.  It panics before that if and only if it is a system call that is not implemented, a check that
runs into a missing page table, a string that the kernel cannot read to its end, a page fault with a
frame that cannot be stored, or an interrupt that a waiting CPU does not expect; and it comes to
`unlock_kernel` only when no environment is runnable. -/
theorem runs_crash_iff {m : Machine} (hboot : (i386Init m).run m.powerOn = .ok () s₀)
    (hmem : m.kernPage < m.npages) (hroom : 71 ≤ m.initialFree.length)
    (hr : Reach Kernel.Step (fun s n => n.Trusted s) s₀ s) {n : Entry} (hen : n.Enabled s)
    (hst : n.Stored s) : (∃ x s', s.Enters n x s') ∧
      ((∃ msg s', s.Enters n (.panic msg) s') ↔ n.Crashes s) ∧
      ∀ s', s.Enters n .halt s' → ∀ x, (s'.envs x).envStatus ≠ .runnable := by
  obtain ⟨res, fl₀, -, -, h⟩ := reaches_protected hboot hmem hroom hr
  obtain ⟨hends, hiff⟩ := h.crashes_iff hen hst
  exact ⟨hends, hiff, fun s' hw => h.waits_idle hw⟩

/-- The IPC calls are not implemented. -/
theorem runs_crash_iff_ipc : ∃ s₀ s n,
    (i386Init smallMachine).run smallMachine.powerOn = .ok () s₀ ∧
    Reach Kernel.Step (fun s n => n.Trusted s) s₀ s ∧ n.cause = .user (callOf 11#32 0#32 0#32) ∧
    ∃ msg s', s.Enters n (.panic msg) s' := by
  obtain ⟨s₀, s, p, hboot, hr, hcpu, -, hrun⟩ := boot_trusted
  let n : Entry := ⟨0, .user (callOf 11#32 0#32 0#32), 0#32, 0#32, s.mem⟩
  have huser : (callOf 11#32 0#32 0#32).tfCs &&& 3#32 = 3#32 := by
    show (gdUt ||| 3#32) &&& 3#32 = 3#32
    decide
  have hcall : (callOf 11#32 0#32 0#32).call = none := rfl
  have hcrash : n.Crashes s := by
    refine ⟨0, hcpu, by rw [hrun]; simp, Or.inr ⟨rfl, fun c hc => ?_⟩⟩
    rw [hcall] at hc
    cases hc
  refine ⟨s₀, s, n, hboot, hr, rfl, ?_⟩
  exact ((runs_crash_iff hboot smallMachine_fits.1 smallMachine_fits.2 hr
    (n := n) ⟨by rw [hcpu]; simp, huser⟩ ⟨s, .refl, rfl⟩).2.1).2 hcrash

end Jos
