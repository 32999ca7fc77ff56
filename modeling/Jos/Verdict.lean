import Jos.Alloc.Run

/-!
# What `sys_page_alloc` and `sys_page_map` answer

Both calls document the same checks of the environment, the address and the permissions, in the
same order and with the same codes.  `sys_page_map` makes them; `sys_page_alloc` answers
`-E_NO_MEM` instead of `-E_INVAL` where the permissions have a bit outside `PTE_SYSCALL`.
-/

set_option autoImplicit false

namespace Jos

open Kernel Command

variable {res : Nat → Prop} {fl : List Nat} {s : Kernel} {cur e : EnvIndex}
variable {srcenvid srcva envid va perm : Word}

/-- The call returns `r`. -/
def Answers (c : KernelM Word) (s : Kernel) (r : Word) : Prop := ∃ s', c.run s = .ok r s'

theorem Answers.unique {c : KernelM Word} {r r' : Word} (h : Answers c s r) (h' : Answers c s r') :
    r = r' := by
  obtain ⟨s', hrun⟩ := h
  obtain ⟨s'', hrun'⟩ := h'
  exact (EStateM.Result.ok.inj (hrun.symm.trans hrun')).1

namespace Kernel

/-- What the comments on both calls say they return, memory permitting. -/
def verdict (s : Kernel) (cur : EnvIndex) (envid va perm : Word) : Word :=
  if s.resolve cur envid = none then -eBadEnv
  else if ¬ UserPage va ∨ ¬ PermOk perm then -eInval
  else 0#32

theorem verdict_badEnv (hr : s.resolve cur envid = none) :
    s.verdict cur envid va perm = -eBadEnv := if_pos hr

variable (hr : s.resolve cur envid = some e)
include hr

theorem verdict_inval (h : ¬ UserPage va ∨ ¬ PermOk perm) :
    s.verdict cur envid va perm = -eInval := by
  rw [verdict, if_neg (by simp [hr]), if_pos h]

theorem verdict_zero (huser : UserPage va) (hok : PermOk perm) :
    s.verdict cur envid va perm = 0#32 := by
  have hno : ¬ (¬ UserPage va ∨ ¬ PermOk perm) := by
    rw [not_or, not_not, not_not]
    exact ⟨huser, hok⟩
  rw [verdict, if_neg (by simp [hr]), if_neg hno]

end Kernel

/-- A page that the caller may map elsewhere with these permissions. -/
structure Kernel.Source (s : Kernel) (cur : EnvIndex) (srcenvid srcva perm : Word) : Prop where
  user : UserPage srcva
  mapped : ∃ src p, s.resolve cur srcenvid = some src ∧
    s.leaf src (pdx srcva) (ptx srcva) = some p ∧
    (perm &&& pteW ≠ 0#32 → s.entry src (pdx srcva) (ptx srcva) &&& pteW ≠ 0#32)

/-- A free page, and one for a page table if there is none. -/
def Kernel.RoomFor (s : Kernel) (cur : EnvIndex) (fl : List Nat) (envid va : Word) : Prop :=
  ∀ e, s.resolve cur envid = some e → 1 + s.tablesFor e va ≤ fl.length

section

variable (h : Inv res fl s) (hc : s.curenv = some cur) (hlive : (s.envs cur).envStatus ≠ .free)
include h hc hlive

/-- `sys_page_map` answers as documented. -/
theorem Inv.sysPageMap_answers (hsrc : s.Source cur srcenvid srcva perm)
    (hroom : s.RoomFor cur fl envid va) :
    Answers (sysPageMap srcenvid srcva envid va perm) s (s.verdict cur envid va perm) := by
  obtain ⟨src, p, hs, hleaf, hw⟩ := hsrc.mapped
  cases hr : s.resolve cur envid with
  | none =>
    rw [verdict_badEnv hr]
    exact ⟨s, sysPageMap_badEnv hc (Or.inr hr)⟩
  | some e =>
    by_cases hbad : ¬ UserPage va ∨ ¬ PermOk perm
    · rw [verdict_inval hr hbad]
      exact ⟨s, sysPageMap_inval hc hs hr (Or.inr hbad)⟩
    rw [not_or, not_not, not_not] at hbad
    obtain ⟨huser, hok⟩ := hbad
    rw [verdict_zero hr huser hok]
    have hcan : s.CanMap cur srcenvid srcva envid va perm := by
      obtain ⟨t, ht, -⟩ := leaf_eq_some.1 hleaf
      refine ⟨by simp [hr], hsrc.user, huser, hok, ⟨src, t, hs, ht, fun hpw => ?_⟩, fun hnone => ?_⟩
      · rw [← entry_of_table ht]
        exact hw hpw
      · have hchain := h.chain
        rw [hnone] at hchain
        have := hroom e hr
        rw [hchain.eq_nil, List.length_nil] at this
        omega
    obtain ⟨r, s', hrun, hspec⟩ := h.sysPageMap_spec hc hlive srcenvid srcva envid va perm
    rcases hspec with ⟨-, -, hno⟩ | ⟨rfl, -⟩
    · exact absurd hcan hno
    · exact ⟨s', hrun⟩

/-- `sys_page_alloc` does, but for the bits that it does not know. -/
theorem Inv.sysPageAlloc_answers (hroom : s.RoomFor cur fl envid va)
    (hperm : s.resolve cur envid = none ∨ ¬ UserPage va ∨ perm &&& pteU = 0#32 ∨
      perm &&& pteP = 0#32 ∨ perm &&& ~~~pteSyscall = 0#32) :
    Answers (sysPageAlloc envid va perm) s (s.verdict cur envid va perm) := by
  cases hr : s.resolve cur envid with
  | none =>
    rw [verdict_badEnv hr]
    exact ⟨s, sysPageAlloc_badEnv hc hr⟩
  | some e =>
    by_cases hbad : ¬ UserPage va ∨ perm &&& pteU = 0#32 ∨ perm &&& pteP = 0#32
    · rw [verdict_inval hr (hbad.imp_right fun hup hok => hup.elim hok.1 hok.2.1)]
      exact ⟨s, sysPageAlloc_inval hc hr hbad⟩
    simp only [not_or, not_not] at hbad
    obtain ⟨huser, hu, hp⟩ := hbad
    have hx : perm &&& ~~~pteSyscall = 0#32 := by
      rcases hperm with hn | hn | hn | hn | hn
      · exact absurd (hr.symm.trans hn) (by simp)
      · exact absurd huser hn
      · exact absurd hn hu
      · exact absurd hn hp
      · exact hn
    rw [verdict_zero hr huser ⟨hu, hp, hx⟩]
    obtain ⟨r, s', hrun, hspec⟩ := h.sysPageAlloc_spec hc hlive envid va perm
    rcases hspec with ⟨-, -, hwhy⟩ | ⟨rfl, -⟩
    · rcases hwhy with hwhy | hwhy | hwhy | ⟨e', hr', hfull⟩
      · exact absurd (hr.symm.trans hwhy) (by simp)
      · exact absurd huser hwhy
      · exact absurd ⟨hu, hp, hx⟩ hwhy
      · have := hroom e' hr'
        omega
    · exact ⟨s', hrun⟩

/-- **The two calls give the documented verdict** on an environment, an address and permissions,
if and only if the environment, the address, `PTE_U` or `PTE_P` is already at fault, or no bit is
set outside `PTE_SYSCALL`. -/
theorem Inv.answers_iff (hsrc : s.Source cur srcenvid srcva perm)
    (hroom : s.RoomFor cur fl envid va) :
    (Answers (sysPageAlloc envid va perm) s (s.verdict cur envid va perm) ∧
        Answers (sysPageMap srcenvid srcva envid va perm) s (s.verdict cur envid va perm)) ↔
      (s.resolve cur envid = none ∨ ¬ UserPage va ∨ perm &&& pteU = 0#32 ∨
        perm &&& pteP = 0#32 ∨ perm &&& ~~~pteSyscall = 0#32) := by
  constructor
  · rintro ⟨halloc, -⟩
    by_contra hno
    simp only [not_or, not_not] at hno
    obtain ⟨hres, huser, hu, hp, hx⟩ := hno
    obtain ⟨e, hr⟩ := Option.ne_none_iff_exists'.1 hres
    have hextra : Answers (sysPageAlloc envid va perm) s (-eNoMem) :=
      ⟨s, sysPageAlloc_extra hc hr huser ⟨hu, hp⟩ hx⟩
    rw [verdict_inval hr (Or.inr fun hok => hx hok.2.2)] at halloc
    exact absurd (halloc.unique hextra) (by decide)
  · intro hperm
    exact ⟨h.sysPageAlloc_answers hc hlive hroom hperm, h.sysPageMap_answers hc hlive hsrc hroom⟩

end

/-- The first environment of a small machine, with a page at `UTEXT`. -/
theorem source_smallMachine : ∃ res fl s cur, Inv res fl s ∧ s.curenv = some cur ∧
    (s.envs cur).envStatus ≠ .free ∧ s.RoomFor cur fl 0#32 utext ∧
    ∀ perm, perm &&& pteW = 0#32 → s.Source cur 0#32 utext perm := by
  have hfree := smallMachine_free
  obtain ⟨s₀, res, fl, e, d, -, hboot, hd, hlen⟩ :=
    i386Init_run (m := smallMachine) (n := 4) rfl rfl rfl (by omega)
  obtain ⟨fl₁, p, hinv, hlen₁, hleaf, -, hlive⟩ :=
    hboot.inv.alloc_utext (live_of_dir hd) (by omega) rfl
  generalize final (Syscall.pageAlloc 0#32 utext (pteP ||| pteU ||| pteW)).handle
    (s₀.setCurenv (some e)) = s at hinv hleaf hlive
  refine ⟨res, fl₁, s.setCurenv (some e), e, hinv.of_cpus _ _ _, setCurenv_curenv s _, hlive,
    ?_, ?_⟩
  · intro e' _
    have := tablesFor_le (s.setCurenv (some e)) e' utext
    omega
  · intro perm hperm
    exact ⟨by decide, e, p, rfl, hleaf, fun hw => absurd hperm hw⟩

theorem Inv.answers_iff_smallMachine : ∃ res fl s cur, Inv res fl s ∧ s.curenv = some cur ∧
    ((Answers (sysPageAlloc 0#32 utext (pteU ||| pteP)) s
          (s.verdict cur 0#32 utext (pteU ||| pteP)) ∧
        Answers (sysPageMap 0#32 utext 0#32 utext (pteU ||| pteP)) s
          (s.verdict cur 0#32 utext (pteU ||| pteP))) ↔
      (s.resolve cur 0#32 = none ∨ ¬ UserPage utext ∨ (pteU ||| pteP) &&& pteU = 0#32 ∨
        (pteU ||| pteP) &&& pteP = 0#32 ∨ (pteU ||| pteP) &&& ~~~pteSyscall = 0#32)) := by
  obtain ⟨res, fl, s, cur, h, hc, hlive, hroom, hsrc⟩ := source_smallMachine
  exact ⟨res, fl, s, cur, h, hc, h.answers_iff hc hlive (hsrc _ (by decide)) hroom⟩

/-- **One bit, two verdicts.**  With memory to spare and a page to map, `sys_page_alloc` answers
`-E_NO_MEM` to `PTE_U|PTE_P|PTE_PWT`, and `sys_page_map` answers `-E_INVAL`. -/
theorem verdicts_differ : ∃ res fl s cur, Inv res fl s ∧ s.curenv = some cur ∧
    (s.envs cur).envStatus ≠ .free ∧ s.RoomFor cur fl 0#32 utext ∧
    s.Source cur 0#32 utext (pteU ||| pteP ||| 8#32) ∧
    s.verdict cur 0#32 utext (pteU ||| pteP ||| 8#32) = -eInval ∧
    Answers (sysPageMap 0#32 utext 0#32 utext (pteU ||| pteP ||| 8#32)) s (-eInval) ∧
    Answers (sysPageAlloc 0#32 utext (pteU ||| pteP ||| 8#32)) s (-eNoMem) ∧
    ¬ Answers (sysPageAlloc 0#32 utext (pteU ||| pteP ||| 8#32)) s (-eInval) := by
  obtain ⟨res, fl, s, cur, h, hc, hlive, hroom, hsrc⟩ := source_smallMachine
  have hself : s.resolve cur 0#32 = some cur := rfl
  have hmem : Answers (sysPageAlloc 0#32 utext (pteU ||| pteP ||| 8#32)) s (-eNoMem) :=
    ⟨s, sysPageAlloc_extra hc hself (by decide) (by decide) (by decide)⟩
  refine ⟨res, fl, s, cur, h, hc, hlive, hroom, hsrc _ (by decide),
    verdict_inval hself (Or.inr (by decide)), ?_, hmem, fun hinval => ?_⟩
  · exact ⟨s, sysPageMap_inval hc hself hself (Or.inr (Or.inr (by decide)))⟩
  · exact absurd (hmem.unique hinval) (by decide)

end Jos
