import Jos.Fork.Start
import Jos.Cputs

/-!
# What `sys_env_set_pgfault_upcall` says

The call stores the address first and checks it afterwards, and the check does not return an error:
it destroys the environment.  For the caller that is the end of the call; for a child the call goes
on, and returns 0.
-/

set_option autoImplicit false

namespace Jos

open Kernel Command

variable {res : Nat → Prop} {fl : List Nat} {s : Kernel} {cur e : EnvIndex} {d : Nat}
variable {va len perm envid func : Word}

/-! ## When the check panics -/

/-- The first page that does not pass has its page table beyond the memory there is, or is not the
first page of the range and has no page table, and nothing is mapped at address 0, where the kernel
then looks for the entry. -/
def Kernel.CheckPanics (s : Kernel) (d : Nat) (va len perm : Word) : Prop :=
  ∃ n, StopsAt s d (perm ||| pteP) va (roundUp (va + len) pgsize) n ∧
    visited va n < roundUp (va + len) pgsize ∧
    ((∃ t, framed (s.mem d (pdx (visited va n))) = some t ∧ ¬ t < s.npages) ∨
      (0 < n ∧ framed (s.mem d (pdx (visited va n))) = none ∧ s.kbyte 0#32 = none))

/-- The kernel reads a word at address 0 if it can read a byte there. -/
theorem kloadWord_null (s : Kernel) :
    (∃ w, (kloadWord 0#32).run s = .ok w s) ∧ s.kbyte 0#32 ≠ none ∨
    (∃ x, (kloadWord 0#32).run s = .error x s) ∧ s.kbyte 0#32 = none := by
  have hpage : ∀ va : Word, pdx va = pdx 0#32 → ptx va = ptx 0#32 →
      (s.kbyte va = none ↔ s.kbyte 0#32 = none) := by
    intro va hd ht
    simp only [Kernel.kbyte, Option.map_eq_none_iff, translate_present, hd, ht,
      Option.bind_eq_none_iff]
  cases h0 : s.kbyte 0#32 with
  | none =>
    obtain ⟨x, hx⟩ := kloadByte_fault h0
    exact Or.inr ⟨⟨x, run_bind_error hx⟩, rfl⟩
  | some b =>
    have hsome : ∀ va : Word, pdx va = pdx 0#32 → ptx va = ptx 0#32 →
        ∃ b, (kloadByte va).run s = .ok b s := by
      intro va hd ht
      obtain ⟨b, hb⟩ := Option.ne_none_iff_exists'.1 fun hn => by
        rw [(hpage va hd ht).1 hn] at h0
        cases h0
      exact ⟨b, kloadByte_run hb⟩
    obtain ⟨b1, h1⟩ := hsome (0#32 + 1#32) (by decide) (by decide)
    obtain ⟨b2, h2⟩ := hsome (0#32 + 2#32) (by decide) (by decide)
    obtain ⟨b3, h3⟩ := hsome (0#32 + 3#32) (by decide) (by decide)
    refine Or.inl ⟨?_, by simp⟩
    rw [kloadWord, run_bind_ok (kloadByte_run h0), run_bind_ok h1, run_bind_ok h2, run_bind_ok h3]
    exact ⟨_, rfl⟩

/-- A later address without a page table: its entry is read through the `NULL` pointer. -/
theorem userMemCheck_null {n : Nat} (hd : (s.envs e).envPgdir = some d)
    (hn : StopsAt s d (perm ||| pteP) va (roundUp (va + len) pgsize) n)
    (hlt : visited va n < roundUp (va + len) pgsize) (hn0 : 0 < n)
    (hf : framed (s.mem d (pdx (visited va n))) = none) :
    (s.kbyte 0#32 ≠ none ∧ ∃ t, (userMemCheck e va len perm).run s = .ok (-eFault) t) ∨
      (s.kbyte 0#32 = none ∧ ∃ x t, (userMemCheck e va len perm).run s = .error x t) := by
  obtain ⟨rest, hrun⟩ := Watch.userMemCheck_run (l := []) hd hn
  rw [run_bind_ok (Watch.userMemCheckLoop_missing hlt hf _), Watch.conclude,
    Watch.userMemCheckErr_later (Watch.visited_ne hn hn0), Watch.derefPte] at hrun
  simp only [bind_assoc] at hrun
  rw [run_bind_ok (Traced.tell_run _)] at hrun
  rcases kloadWord_null (s.checkingAt (visited va n)) with ⟨⟨w, hw⟩, hk⟩ | ⟨⟨x, hx⟩, hk⟩
  · rw [run_bind_ok (Traced.lift_ok hw)] at hrun
    exact Or.inl ⟨hk, _, userMemCheck_of_watch hrun⟩
  · rw [run_bind_error (Traced.lift_error hx)] at hrun
    exact Or.inr ⟨hk, x, _, (Watch.userMemCheck_erases e va len perm).error hrun⟩

/-- **`user_mem_check`** lets pass, refuses, or panics. -/
theorem userMemCheck_cases (hd : (s.envs e).envPgdir = some d) (va len perm : Word) :
    (¬ s.CheckPanics d va len perm ∧
        ∃ a, (userMemCheck e va len perm).run s = .ok 0#32 (s.checkingAt a)) ∨
      (¬ s.CheckPanics d va len perm ∧ ∃ t, (userMemCheck e va len perm).run s = .ok (-eFault) t) ∨
      (s.CheckPanics d va len perm ∧ ∃ x t, (userMemCheck e va len perm).run s = .error x t) := by
  obtain ⟨n, hn⟩ := exists_stopsAt s d (perm ||| pteP) va (roundUp (va + len) pgsize)
  by_cases hlt : visited va n < roundUp (va + len) pgsize
  · refine Or.inr ?_
    have hiff : s.CheckPanics d va len perm ↔
        (∃ t, framed (s.mem d (pdx (visited va n))) = some t ∧ ¬ t < s.npages) ∨
          (0 < n ∧ framed (s.mem d (pdx (visited va n))) = none ∧ s.kbyte 0#32 = none) := by
      constructor
      · rintro ⟨n', hn', -, hp⟩
        rwa [hn.unique hn']
      · exact fun hp => ⟨n, hn, hlt, hp⟩
    rw [hiff]
    cases hf : framed (s.mem d (pdx (visited va n))) with
    | some t =>
      by_cases ht : t < s.npages
      · refine Or.inl ⟨by simp [ht], ?_⟩
        rcases Nat.eq_zero_or_pos n with h0 | hpos
        · refine ⟨_, userMemCheck_of_watch (Watch.userMemCheck_first hd hn hlt h0 fun t' ht' => ?_)⟩
          rw [h0, visited_zero, ht'] at hf
          rwa [Option.some_inj.1 hf]
        · exact ⟨_, userMemCheck_of_watch (Watch.userMemCheck_later hd hn hlt hpos hf ht)⟩
      · exact Or.inr ⟨Or.inl ⟨t, rfl, ht⟩, _, _,
          (Watch.userMemCheck_erases e va len perm).error
          (Watch.userMemCheck_beyond hd hn hlt hf ht)⟩
    | none =>
      rcases Nat.eq_zero_or_pos n with h0 | hpos
      · refine Or.inl ⟨by simp [h0], _,
          userMemCheck_of_watch (Watch.userMemCheck_first hd hn hlt h0 fun t' ht' => ?_)⟩
        rw [h0, visited_zero, ht'] at hf
        cases hf
      · rcases userMemCheck_null hd hn hlt hpos hf with ⟨hk, hrun⟩ | ⟨hk, hrun⟩
        · exact Or.inl ⟨by simp [hk], hrun⟩
        · exact Or.inr ⟨by simp [hk, hpos], hrun⟩
  · refine Or.inl ⟨?_, _, userMemCheck_of_watch (Watch.userMemCheck_passed hd hn hlt)⟩
    rintro ⟨n', hn', hlt', -⟩
    rw [← hn.unique hn'] at hlt'
    exact hlt hlt'

/-! ## The call -/

/-- The four bytes at `func` may be read by an environment with the directory in page `d`. -/
def Kernel.Readable4 (s : Kernel) (d : Nat) (func : Word) : Prop :=
  ∀ a, func.toNat ≤ a → a < func.toNat + 4 → s.Accessible d (pteU ||| pteP) a

/-- What the caller is told is true: with 0, the environment is as alive as it was, with the page
fault handler asked for, which it may read; with an error, no environment has changed. -/
def TellsTruth (s : Kernel) (cur : EnvIndex) (envid func : Word) : Prop :=
  ∀ r s', (sysEnvSetPgfaultUpcall envid func).run s = .ok r s' →
    (r = 0#32 → ∃ e d, s.resolve cur envid = some e ∧
      (s'.envs e).envStatus = (s.envs e).envStatus ∧ (s'.envs e).envPgfaultUpcall = func ∧
      (s'.envs e).envPgdir = some d ∧ s'.Readable4 d func) ∧
    (r.toInt < 0 → s'.envs = s.envs)

/-- The state between the assignment and the check. -/
def Kernel.withUpcall (s : Kernel) (e : EnvIndex) (func : Word) : Kernel :=
  s.setEnv e { s.envs e with envPgfaultUpcall := func }

theorem withUpcall_self (s : Kernel) (e : EnvIndex) (func : Word) :
    (s.withUpcall e func).envs e = { s.envs e with envPgfaultUpcall := func } :=
  Function.update_self _ _ _

/-- The check does not look at the assignment. -/
theorem checkPanics_withUpcall (s : Kernel) (e : EnvIndex) (func : Word) (d : Nat)
    (va len perm : Word) :
    (s.withUpcall e func).CheckPanics d va len perm ↔ s.CheckPanics d va len perm := by
  have hpass : ∀ perm a, (s.withUpcall e func).Passes d perm a ↔ s.Passes d perm a :=
      fun perm a => by
    rw [Kernel.Passes, Kernel.Passes, grants_iff, grants_iff]
    rfl
  have hstops : ∀ perm va endVa n, StopsAt (s.withUpcall e func) d perm va endVa n ↔
      StopsAt s d perm va endVa n := by
    intro perm va endVa n
    constructor
    · exact fun h => ⟨fun k hk => ⟨(h.before k hk).1, (hpass _ _).1 (h.before k hk).2⟩,
        fun hin hp => h.stops hin ((hpass _ _).2 hp)⟩
    · exact fun h => ⟨fun k hk => ⟨(h.before k hk).1, (hpass _ _).2 (h.before k hk).2⟩,
        fun hin hp => h.stops hin ((hpass _ _).1 hp)⟩
  simp only [Kernel.CheckPanics, hstops]
  rfl

section

variable (h : Inv res fl s) (hc : s.curenv = some cur) (hlive : (s.envs cur).envStatus ≠ .free)
variable (hr : s.resolve cur envid = some e) (hd : s.dir e = some d)
include h hc hlive hr hd

/-- **The ways the call ends**, for an environment that is found: it returns 0 with the handler set;
it returns 0 and has destroyed the environment, or marked it; or it does not return. -/
theorem Inv.setUpcall_cases (func : Word) :
    (s.UpcallOk d func ∧ ¬ s.CheckPanics d func 4#32 pteU ∧
      ∃ a, (sysEnvSetPgfaultUpcall envid func).run s =
        .ok 0#32 ((s.withUpcall e func).checkingAt a)) ∨
    (¬ s.UpcallOk d func ∧ e ≠ cur ∧ ¬ s.CheckPanics d func 4#32 pteU ∧
      ∃ s', (sysEnvSetPgfaultUpcall envid func).run s = .ok 0#32 s' ∧
        (s'.envs e).envStatus ≠ (s.envs e).envStatus) ∨
    (¬ s.UpcallOk d func ∧ (e = cur ∨ s.CheckPanics d func 4#32 pteU) ∧
      ∃ x s', (sysEnvSetPgfaultUpcall envid func).run s = .error x s') := by
  have hcall : (sysEnvSetPgfaultUpcall envid func).run s = EStateM.run
      (do userMemAssert e func 4#32 0#32; return 0#32) (s.withUpcall e func) :=
    sysEnvSetPgfaultUpcall_some hc hr
  have hself := withUpcall_self s e func
  have hdu : ((s.withUpcall e func).envs e).envPgdir = some d := by
    rw [hself]
    exact envPgdir_of_dir hd
  have hmem : (s.withUpcall e func).mem = s.mem := rfl
  have hnp : (s.withUpcall e func).npages = s.npages := rfl
  have hsame := upcallOk_congr hmem hnp d func
  have hok : (∃ t, (userMemCheck e func 4#32 (0#32 ||| pteU)).run (s.withUpcall e func) =
      .ok 0#32 t) ↔ s.UpcallOk d func := (upcallOk_iff hdu).trans hsame
  have hperm : (0#32 ||| pteU : Word) = pteU := by decide
  rw [hperm] at hok
  have hinv : Inv res fl (s.withUpcall e func) := h.of_setEnv rfl rfl Iff.rfl
  rw [← checkPanics_withUpcall s e func]
  rcases userMemCheck_cases hdu func 4#32 pteU with ⟨hno, a, hcheck⟩ |
    ⟨hno, t, hcheck⟩ | ⟨hp, x, t, hcheck⟩
  · refine Or.inl ⟨hok.1 ⟨_, hcheck⟩, hno, a, ?_⟩
    have hassert : (userMemAssert e func 4#32 0#32).run (s.withUpcall e func) =
        .ok () ((s.withUpcall e func).checkingAt a) := by
      rw [userMemAssert, hperm, run_bind_ok hcheck]
      rfl
    rw [hcall, run_bind_ok hassert]
    rfl
  · have hbad : ¬ s.UpcallOk d func := fun hh => by
      obtain ⟨t', ht'⟩ := hok.2 hh
      rw [hcheck] at ht'
      cases ht'
    have hpeek := (userMemCheck_peek _ _ _ _).of_ok hcheck
    have hassert : (userMemAssert e func 4#32 0#32).run (s.withUpcall e func) =
        (envDestroy e).run t := by
      rw [userMemAssert, hperm, run_bind_ok hcheck, if_pos (by decide)]
    have hst : (t.envs e).envStatus = (s.envs e).envStatus := by
      rw [show t.envs = (s.withUpcall e func).envs by rw [hpeek], hself]
    have hct : t.curenv = some cur := by
      rw [hpeek]
      exact hc
    have hlive' := resolve_live hlive hr
    rw [hcall]
    rcases (Peek.inv hpeek hinv).envDestroy_spec (e := e) (by rwa [hst]) with
      ⟨hrun, hne, hdestroy⟩ | ⟨s₁, fl₁, -, -, -, hmo, ⟨hne, hdestroy⟩ | ⟨hcur, x, s', herr, -⟩⟩
    · have hec : e ≠ cur := fun hh => hne (hh ▸ hct)
      refine Or.inr (Or.inl ⟨hbad, hec, hno, _, run_bind_ok (hassert.trans hdestroy), ?_⟩)
      rw [setEnv_envs, Function.update_self, ← hst, hrun]
      exact fun hh : EnvStatus.dying = .running => absurd hh (by decide)
    · have hec : e ≠ cur := fun hh => hne (hh ▸ hct)
      refine Or.inr (Or.inl ⟨hbad, hec, hno, _, run_bind_ok (hassert.trans hdestroy), ?_⟩)
      have henvs : s₁.envs = Function.update t.envs e (t.freedEnv e) := hmo.envs
      rw [henvs, Function.update_self]
      exact fun hh => hlive' (hh.symm.trans rfl)
    · have hec : e = cur := Option.some_inj.1 (hcur.symm.trans hct)
      exact Or.inr (Or.inr ⟨hbad, Or.inl hec, x, s', run_bind_error (hassert.trans herr)⟩)
  · have hbad : ¬ s.UpcallOk d func := fun hh => by
      obtain ⟨t', ht'⟩ := hok.2 hh
      rw [hcheck] at ht'
      cases ht'
    refine Or.inr (Or.inr ⟨hbad, Or.inr hp, x, t, ?_⟩)
    have hassert : (userMemAssert e func 4#32 0#32).run (s.withUpcall e func) = .error x t := by
      rw [userMemAssert, hperm, run_bind_error hcheck]
    rw [hcall, run_bind_error hassert]

end

/-- The check lets pass what may be read. -/
theorem Kernel.Readable4.upcallOk (hread : s.Readable4 d func) : s.UpcallOk d func := by
  have hul := ulim_toNat
  have hlast := (hread (func.toNat + 3) (by omega) (by omega)).1
  intro k hk
  obtain ⟨b, hlo, hhi, hpage⟩ := visited_meets (by decide) (show func.toNat + (4#32).toNat + 4096 ≤
    2 ^ 32 by rw [BitVec.toNat_ofNat]; omega) hk
  rw [BitVec.toNat_ofNat] at hhi
  obtain ⟨hb, hg⟩ := hread b hlo (by omega)
  refine ⟨?_, (grants_samePage (by omega) (by omega) hpage).1 hg⟩
  rw [BitVec.le_def, BitVec.toNat_ofNat]
  omega

/-- What may be read after the assignment and the check could be read before. -/
theorem readable4_checked (s : Kernel) (e : EnvIndex) (func a : Word) (d : Nat) :
    ((s.withUpcall e func).checkingAt a).Readable4 d func ↔ s.Readable4 d func := by
  simp only [Kernel.Readable4, Kernel.Accessible, grants_iff]
  rfl

/-- **`sys_env_set_pgfault_upcall` tells the truth** if and only if the handler may be read, or the
call does not come back. -/
theorem tellsTruth_iff (h : Inv res fl s) (hc : s.curenv = some cur)
    (hlive : (s.envs cur).envStatus ≠ .free) (envid func : Word) :
    TellsTruth s cur envid func ↔
      ∀ e d, s.resolve cur envid = some e → s.dir e = some d →
        s.Readable4 d func ∨ (e = cur ∧ ¬ s.UpcallOk d func) ∨ s.CheckPanics d func 4#32 pteU := by
  constructor
  · intro htruth e d hr hd
    rcases h.setUpcall_cases hc hlive hr hd func with ⟨-, -, a, hrun⟩ | ⟨-, -, -, s', hrun, hst⟩ |
      ⟨hbad, hor, -⟩
    · obtain ⟨e', d', hr', -, -, hd', hread⟩ := (htruth _ _ hrun).1 rfl
      obtain rfl : e = e' := Option.some_inj.1 (hr.symm.trans hr')
      have hdir : ((s.withUpcall e func).envs e).envPgdir = some d' := hd'
      rw [withUpcall_self] at hdir
      obtain rfl : d = d' := Option.some_inj.1 ((envPgdir_of_dir hd).symm.trans hdir)
      exact Or.inl ((readable4_checked s e func a d).1 hread)
    · obtain ⟨e', d', hr', hst', -⟩ := (htruth _ _ hrun).1 rfl
      obtain rfl : e = e' := Option.some_inj.1 (hr.symm.trans hr')
      exact absurd hst' hst
    · exact Or.inr (hor.imp_left fun he => ⟨he, hbad⟩)
  · intro hall r s' hrun
    cases hr : s.resolve cur envid with
    | none =>
      obtain ⟨rfl, rfl⟩ :=
        EStateM.Result.ok.inj ((sysEnvSetPgfaultUpcall_none hc hr).symm.trans hrun)
      exact ⟨fun hh => absurd hh (by decide), fun _ => rfl⟩
    | some e =>
      obtain ⟨d, hdir⟩ := h.live_dir e (resolve_live hlive hr)
      have hd : s.dir e = some d := by
        rw [Kernel.dir, if_neg (resolve_live hlive hr), hdir]
      rcases h.setUpcall_cases hc hlive hr hd func with ⟨hup, hno, a, hok⟩ |
        ⟨hbad, hne, hno, -⟩ | ⟨-, -, x, t, herr⟩
      · obtain ⟨rfl, rfl⟩ := EStateM.Result.ok.inj (hok.symm.trans hrun)
        have hread : s.Readable4 d func := by
          rcases hall e d hr hd with hread | ⟨-, hbad⟩ | hp
          · exact hread
          · exact absurd hup hbad
          · exact absurd hp hno
        have hself : ((s.withUpcall e func).checkingAt a).envs e =
            { s.envs e with envPgfaultUpcall := func } := withUpcall_self s e func
        refine ⟨fun _ => ⟨e, d, rfl, by rw [hself], by rw [hself], ?_,
          (readable4_checked s e func a d).2 hread⟩, fun hneg => absurd hneg (by decide)⟩
        rw [hself]
        exact envPgdir_of_dir hd
      · rcases hall e d hr hd with hread | ⟨he, -⟩ | hp
        · exact absurd hread.upcallOk hbad
        · exact absurd he hne
        · exact absurd hp hno
      · rw [herr] at hrun
        cases hrun

/-- A parent that is running, and its new child. -/
def parentRunning : Kernel := oneEnv.forked 0 1 2

theorem parentRunning_inv : Inv oneEnvRes [3] parentRunning :=
  (oneEnv_inv.forked (e := 1) rfl 0).1

theorem tellsTruth_iff_parentRunning : TellsTruth parentRunning 0 4097#32 utext ↔
    ∀ e d, parentRunning.resolve 0 4097#32 = some e → parentRunning.dir e = some d →
      parentRunning.Readable4 d utext ∨ (e = 0 ∧ ¬ parentRunning.UpcallOk d utext) ∨
        parentRunning.CheckPanics d utext 4#32 pteU :=
  tellsTruth_iff parentRunning_inv rfl (by decide) _ _

/-- **A lie.**  The parent asks for a handler at an address where the child has nothing; the answer
is 0, and the child is gone. -/
theorem not_tellsTruth : Inv oneEnvRes [3] parentRunning ∧ parentRunning.curenv = some 0 ∧
    parentRunning.resolve 0 4097#32 = some 1 ∧ (parentRunning.envs 1).envParentId = 4096#32 ∧
    ¬ TellsTruth parentRunning 0 4097#32 0x1000#32 := by
  have hinv := parentRunning_inv
  have hr : parentRunning.resolve 0 4097#32 = some 1 := by decide
  have hd : parentRunning.dir 1 = some 2 := by decide
  refine ⟨hinv, rfl, hr, by decide, fun htruth => ?_⟩
  have hnone : framed (parentRunning.mem 2 (pdx 0x1000#32)) = none := by decide
  have hfail : ¬ parentRunning.Passes 2 (pteU ||| pteP) 0x1000#32 := by
    rintro ⟨-, hg⟩
    obtain ⟨t, ht, -⟩ := (grants_iff _).1 hg
    rw [hnone] at ht
    cases ht
  have hnoPanic : ¬ parentRunning.CheckPanics 2 0x1000#32 4#32 pteU := by
    rintro ⟨n, hn, -, hp⟩
    rcases Nat.eq_zero_or_pos n with rfl | hpos
    · rcases hp with ⟨t, ht, -⟩ | ⟨hlt, -⟩
      · rw [visited_zero, hnone] at ht
        cases ht
      · exact absurd hlt (lt_irrefl 0)
    · exact hfail (hn.before 0 hpos).2
  rcases hinv.setUpcall_cases rfl (by decide) hr hd 0x1000#32 with ⟨hup, -⟩ |
    ⟨-, -, -, s', hrun, hst⟩ | ⟨-, he | hp, -⟩
  · exact hfail (hup 0 (by decide))
  · obtain ⟨e, d, he, hst', -⟩ := (htruth _ _ hrun).1 rfl
    obtain rfl : 1 = e := Option.some_inj.1 (hr.symm.trans he)
    exact hst hst'
  · exact absurd he (by decide)
  · exact hnoPanic hp

end Jos
