import Jos.Alloc.Create
import Jos.Escalation
import Jos.Lib.Reach

/-!
# The allocator over whole runs

A run starts in the state boot leaves behind, and at each step some live environment makes one of
the system calls that change address spaces.  `Accounted` is what the page allocator should
guarantee in every state of every run: the free list is a list, what is on it is not in use, the
counts are right, and what boot reserved stays out of it.

The kernel does not guarantee it.  `page_lookup` returns the page of an absent entry, which is
page 0: `sys_page_map` maps it, and `sys_page_unmap` takes a reference away from it.  And `pp_ref`
has sixteen bits, which `sys_page_map` can exhaust.  `Syscall.Sound` says that a call does neither;
in a run of sound calls every state is accounted for.
-/

set_option autoImplicit false

namespace Jos

open Kernel Command

variable {res : Nat → Prop} {fl : List Nat} {s : Kernel} {cur : EnvIndex}

/-! ## The property -/

/-- What boot reserved: what `page_init` keeps back, and the kernel's page tables. -/
def AtBoot (m : Machine) (s₀ : Kernel) (p : Nat) : Prop :=
  m.Reserved p ∨ ∃ i, KernPde i ∧ framed (s₀.mem s₀.kernPgdir i) = some p

/-- The page allocator's guarantee, for a machine that booted into `s₀`. -/
structure Accounted (m : Machine) (s₀ : Kernel) (fl : List Nat) (s : Kernel) : Prop where
  /-- `page_free_list` ends, having led through `fl`, -/
  chain : Chain s.links s.pageFreeList fl
  /-- which has no page twice. -/
  nodup : fl.Nodup
  /-- A free page has the count zero and is not referred to. -/
  free : ∀ p ∈ fl, (s.pages p).ppRef = 0#16 ∧ ∀ k, s.target k ≠ some p
  /-- The count of any other page is the number of references to it. -/
  count : ∀ p, p < m.npages → ¬ AtBoot m s₀ p → (s.pages p).ppRef.toNat = s.refs p
  /-- What `page_init` keeps back is neither free nor mapped. -/
  reserved : ∀ p, m.Reserved p → p ∉ fl ∧ ∀ e i j, s.leaf e i j ≠ some p

/-! ## Runs -/

/-- A call, and the environment that makes it. -/
structure Call where
  caller : EnvIndex
  syscall : Syscall

/-- A live environment has the CPU and makes one of the calls that change address spaces. -/
structure Kernel.Calls (s : Kernel) (c : Call) (s' : Kernel) : Prop where
  live : (s.envs c.caller).envStatus ≠ .free
  memory : c.syscall.IsMemory
  final : s' = final c.syscall.handle (s.setCurenv (some c.caller))

/-- A page table covers the address only if something is mapped there. -/
def Kernel.Settled (s : Kernel) (e : EnvIndex) (va : Word) : Prop :=
  ∀ t, s.table e (pdx va) = some t → s.leaf e (pdx va) (ptx va) ≠ none

/-- Another reference to the page mapped at one address can be counted, or replaces one to the
same page. -/
def Kernel.Countable (s : Kernel) (src : EnvIndex) (srcva : Word) (dst : EnvIndex) (dstva : Word) :
    Prop :=
  ∀ p, s.leaf src (pdx srcva) (ptx srcva) = some p →
    (s.pages p).ppRef.toNat < 65535 ∨ s.leaf dst (pdx dstva) (ptx dstva) = some p

/-- The calls that keep the accounts in order: `sys_page_unmap` does not unmap what is not mapped,
`sys_page_map` does not map from where nothing is mapped, and does not overflow a count. -/
def Syscall.Sound (s : Kernel) (cur : EnvIndex) : Syscall → Prop
  | .pageUnmap envid va => UserPage va → ∀ e, s.resolve cur envid = some e → s.Settled e va
  | .pageMap srcenvid srcva dstenvid dstva perm =>
    UserPage srcva → UserPage dstva → PermOk perm → ∀ src dst, s.resolve cur srcenvid = some src →
      s.resolve cur dstenvid = some dst →
        (perm &&& pteW = 0#32 → s.Settled src srcva) ∧ s.Countable src srcva dst dstva
  | _ => True

/-! ## One call -/

namespace Inv

theorem pageAlloc_inv (h : Inv res fl s) (hc : s.curenv = some cur)
    (hlive : (s.envs cur).envStatus ≠ .free) (envid va perm : Word) :
    ∃ fl', Inv res fl' (final (sysPageAlloc envid va perm) s) := by
  obtain ⟨r, s', hrun, hspec⟩ := h.sysPageAlloc_spec hc hlive envid va perm
  rw [final_of_ok hrun]
  rcases hspec with ⟨-, rfl | ⟨pp, hpp, rfl⟩, -⟩ | ⟨-, e, pp, -, -, -, hpa⟩
  · exact ⟨fl, h⟩
  · exact ⟨fl, h.fill (h.ok.free_res pp hpp) (fun k _ => h.ok.free_unref pp hpp k) _⟩
  · obtain ⟨fl', hinv, -⟩ := hpa.inv
    exact ⟨fl', hinv⟩

theorem pageMap_inv (h : Inv res fl s) (hc : s.curenv = some cur)
    (hlive : (s.envs cur).envStatus ≠ .free) {srcenvid srcva dstenvid dstva perm : Word}
    (hsound : (Syscall.pageMap srcenvid srcva dstenvid dstva perm).Sound s cur) :
    ∃ fl', Inv res fl' (final (sysPageMap srcenvid srcva dstenvid dstva perm) s) := by
  obtain ⟨r, s', hrun, hspec⟩ := h.sysPageMap_spec hc hlive srcenvid srcva dstenvid dstva perm
  rw [final_of_ok hrun]
  rcases hspec with ⟨-, rfl, -⟩ | ⟨-, src, dst, hrs, hrd, hsu, hdu, hperm, ⟨t, ht⟩, hwrite, hins⟩
  · exact ⟨fl, h⟩
  · obtain ⟨hset, hroom⟩ := hsound hsu hdu hperm src dst hrs hrd
    obtain ⟨p, hp⟩ : ∃ p, s.leaf src (pdx srcva) (ptx srcva) = some p := by
      by_cases hw : perm &&& pteW = 0#32
      · exact Option.ne_none_iff_exists'.1 (hset hw t ht)
      · exact h.leaf_of_write (hwrite hw)
    have hpp : pgnum (pteAddr (s.entry src (pdx srcva) (ptx srcva))) = p := by
      rw [leaf_eq_framed] at hp
      exact (framed_eq_some.1 hp).2
    rw [hpp] at hins
    obtain ⟨fl', hinv, -⟩ := hins.inv (h.mappable hp (hroom p hp)) hperm.isPerm
    exact ⟨fl', hinv⟩

theorem pageUnmap_inv (h : Inv res fl s) (hc : s.curenv = some cur)
    (hlive : (s.envs cur).envStatus ≠ .free) {envid va : Word}
    (hsound : (Syscall.pageUnmap envid va).Sound s cur) :
    ∃ fl', Inv res fl' (final (sysPageUnmap envid va) s) := by
  obtain ⟨r, s', hrun, hspec⟩ := h.sysPageUnmap_spec hc hlive envid va
  rw [final_of_ok hrun]
  rcases hspec with ⟨-, rfl, -⟩ | ⟨-, e, d, hr, huser, -, ⟨-, rfl⟩ | ⟨t, ht, rfl⟩⟩
  · exact ⟨fl, h⟩
  · exact ⟨fl, h⟩
  · obtain ⟨p, hp⟩ := Option.ne_none_iff_exists'.1 (hsound huser e hr t ht)
    have hpp : pgnum (pteAddr (s.entry e (pdx va) (ptx va))) = p := by
      rw [leaf_eq_framed] at hp
      exact (framed_eq_some.1 hp).2
    rw [hpp]
    exact ⟨_, h.unmapAt ht hp d va⟩

theorem exofork_inv (h : Inv res fl s) (hc : s.curenv = some cur)
    (hlive : (s.envs cur).envStatus ≠ .free) : ∃ fl', Inv res fl' (final sysExofork s) := by
  obtain ⟨r, s', hrun, hspec⟩ := h.sysExofork_spec hc hlive
  rw [final_of_ok hrun]
  rcases hspec with ⟨-, rfl⟩ | ⟨e, p, fl', rfl, he, -, rfl⟩
  · exact ⟨fl, h⟩
  · exact ⟨fl', (h.forked he cur).1⟩

/-- `env_destroy` keeps the invariant, however it ends. -/
theorem envDestroy_triple (e : EnvIndex) :
    Triple (fun s => ∃ fl, Inv res fl s ∧ (s.envs e).envStatus ≠ .free) (Jos.envDestroy e)
      (fun _ s => ∃ fl, Inv res fl s) fun _ s => ∃ fl, Inv res fl s := by
  rintro s ⟨fl, h, hlive⟩
  rcases h.envDestroy_spec hlive with
    ⟨hst, -, hrun⟩ | ⟨s₁, fl₁, -, hinv, -, -, ⟨-, hrun⟩ | ⟨-, x, s', hrun, hl⟩⟩
  · rw [hrun]
    refine ⟨fl, h.of_setEnv ?_ ?_ ?_⟩
    · rfl
    · rfl
    · simp [hst]
  · rw [hrun]
    exact ⟨fl₁, hinv⟩
  · rw [hrun]
    have hinv' : Inv res fl₁ (s₁.setCurenv none) := hinv.of_cpus _ _ _
    exact ⟨fl₁, hinv'.handover hl.handover⟩

theorem envDestroy_inv (h : Inv res fl s) (hc : s.curenv = some cur)
    (hlive : (s.envs cur).envStatus ≠ .free) (envid : Word) :
    ∃ fl', Inv res fl' (final (sysEnvDestroy envid) s) := by
  cases hr : s.resolve cur envid with
  | none =>
    rw [final_of_ok (sysEnvDestroy_none hc hr)]
    exact ⟨fl, h⟩
  | some e =>
    rw [sysEnvDestroy_final hc hr]
    exact (envDestroy_triple e).final ⟨fl, h, resolve_live hlive hr⟩

/-- A check of user memory keeps the invariant, also if the environment does not survive it. -/
theorem userMemAssert_inv (h : Inv res fl s) {e : EnvIndex} (hlive : (s.envs e).envStatus ≠ .free)
    (va len perm : Word) : ∃ fl', Inv res fl' (final (userMemAssert e va len perm) s) := by
  have hpeek := userMemCheck_peek e va len (perm ||| pteU)
  cases hr : (userMemCheck e va len (perm ||| pteU)).run s with
  | error x t =>
    have hrun : (userMemAssert e va len perm).run s = .error x t := run_bind_error hr
    rw [final_of_error hrun]
    exact ⟨fl, Peek.inv (hpeek.of_error hr) h⟩
  | ok r t =>
    have hp := hpeek.of_ok hr
    have hinv := Peek.inv hp h
    have hfinal : final (userMemAssert e va len perm) s =
        final (if r.toInt < 0 then Jos.envDestroy e else pure ()) t := by
      rw [final, final, userMemAssert, run_bind_ok hr]
    rw [hfinal]
    split
    · refine (envDestroy_triple e).final ⟨fl, hinv, ?_⟩
      obtain ⟨a, o, rfl⟩ := Peek.exists_eq hp
      exact hlive
    · exact ⟨fl, hinv⟩

theorem cputs_inv (h : Inv res fl s) (hc : s.curenv = some cur)
    (hlive : (s.envs cur).envStatus ≠ .free) (p len : Word) :
    ∃ fl', Inv res fl' (final (sysCputs p len) s) := by
  have hrun : (sysCputs p len).run s =
      EStateM.run (do userMemAssert cur p len pteU; cprintS p len) s := by
    simp only [sysCputs, EStateM.run_bind, EStateM.run_get, hc, derefEnv, EStateM.run_pure]
  obtain ⟨fl', h'⟩ := h.userMemAssert_inv hlive p len pteU
  rw [final, hrun]
  cases hr : (userMemAssert cur p len pteU).run s with
  | error x t =>
    rw [final_of_error hr] at h'
    rw [run_bind_error hr]
    exact ⟨fl', h'⟩
  | ok a t =>
    rw [final_of_ok hr] at h'
    rw [run_bind_ok hr]
    exact ⟨fl', Peek.inv (cprintS_peek p len t) h'⟩

theorem setStatus_inv (h : Inv res fl s) (hc : s.curenv = some cur)
    (hlive : (s.envs cur).envStatus ≠ .free) (envid status : Word) :
    ∃ fl', Inv res fl' (final (sysEnvSetStatus envid status) s) := by
  rcases sysEnvSetStatus_spec hc envid status with ⟨r, -, hrun⟩ | ⟨e, st, hr, hst, hrun⟩
  · rw [final_of_ok hrun]
    exact ⟨fl, h⟩
  · rw [final_of_ok hrun]
    refine ⟨fl, h.of_setEnv ?_ ?_ ?_⟩
    · rfl
    · rfl
    · have hne := settableStatus_live hst
      simp [resolve_live hlive hr, hne]

theorem setUpcall_inv (h : Inv res fl s) (hc : s.curenv = some cur)
    (hlive : (s.envs cur).envStatus ≠ .free) (envid func : Word) :
    ∃ fl', Inv res fl' (final (sysEnvSetPgfaultUpcall envid func) s) := by
  cases hr : s.resolve cur envid with
  | none =>
    rw [final_of_ok (sysEnvSetPgfaultUpcall_none hc hr)]
    exact ⟨fl, h⟩
  | some e =>
    rw [sysEnvSetPgfaultUpcall_final hc hr]
    have h₁ : Inv res fl (s.setEnv e { s.envs e with envPgfaultUpcall := func }) :=
      h.of_setEnv rfl rfl Iff.rfl
    refine h₁.userMemAssert_inv ?_ func 4#32 0#32
    simpa using resolve_live hlive hr

theorem yield_inv (h : Inv res fl s) : ∃ fl', Inv res fl' (final Syscall.yield.handle s) := by
  obtain ⟨x, s', hrun, hl⟩ := schedYield_leaves h.live_dir
  have hrun' : Syscall.yield.handle.run s = .error x s' := run_bind_error hrun
  rw [final_of_error hrun']
  exact ⟨fl, h.handover hl.handover⟩

/-- **A sound call keeps the allocator invariant.** -/
theorem handle_inv (h : Inv res fl s) (hc : s.curenv = some cur)
    (hlive : (s.envs cur).envStatus ≠ .free) {c : Syscall} (hsound : c.Sound s cur) :
    ∃ fl', Inv res fl' (final c.handle s) := by
  cases c with
  | cputs p len =>
    rw [cputs_final]
    exact h.cputs_inv hc hlive p len
  | cgetc => exact ⟨fl, h⟩
  | getenvid =>
    have hrun : Syscall.getenvid.handle.run s = .ok (s.envs cur).envId s := by
      simp only [Syscall.handle, sysGetenvid, EStateM.run_bind, EStateM.run_get, hc, derefEnv,
        EStateM.run_pure]
    rw [final_of_ok hrun]
    exact ⟨fl, h⟩
  | envDestroy envid => exact h.envDestroy_inv hc hlive envid
  | pageAlloc envid va perm => exact h.pageAlloc_inv hc hlive envid va perm
  | pageMap srcenvid srcva dstenvid dstva perm => exact h.pageMap_inv hc hlive hsound
  | pageUnmap envid va => exact h.pageUnmap_inv hc hlive hsound
  | exofork => exact h.exofork_inv hc hlive
  | envSetStatus envid status => exact h.setStatus_inv hc hlive envid status
  | envSetPgfaultUpcall envid func => exact h.setUpcall_inv hc hlive envid func
  | yield => exact h.yield_inv

end Inv

/-! ## Whole runs -/

/-- A live environment has the CPU and makes some system call. -/
structure Kernel.SysCalls (s : Kernel) (c : Call) (s' : Kernel) : Prop where
  live : (s.envs c.caller).envStatus ≠ .free
  final : s' = final c.syscall.handle (s.setCurenv (some c.caller))

/-- The invariant holds in every state of a run of sound calls. -/
theorem Inv.reach {s₀ : Kernel} (h₀ : Inv res fl s₀) {s : Kernel}
    (h : Reach Kernel.SysCalls (fun s c => c.syscall.Sound s c.caller) s₀ s) :
    ∃ fl', Inv res fl' s := by
  refine h.inv (I := fun s => ∃ fl', Inv res fl' s) ⟨fl, h₀⟩ ?_
  rintro s c s' ⟨fl', hinv⟩ hsound ⟨hlive, rfl⟩
  have hinv' : Inv res fl' (s.setCurenv (some c.caller)) := hinv.of_cpus _ _ _
  exact hinv'.handle_inv (setCurenv_curenv s _) hlive hsound

theorem Kernel.Calls.sysCalls {c : Call} {s' : Kernel} (h : s.Calls c s') : s.SysCalls c s' :=
  ⟨h.live, h.final⟩

theorem Booted.accounted {m : Machine} {s₀ : Kernel} {fl₀ : List Nat}
    (h₀ : Booted m res fl₀ s₀) (h : Inv res fl s) : Accounted m s₀ fl s where
  chain := h.chain
  nodup := h.ok.nodup
  free p hp := ⟨BitVec.eq_of_toNat_eq (h.ok.ref_free hp), h.ok.free_unref p hp⟩
  count p hp hn := h.ok.ref_eq p fun hr => hn (h₀.cover p hp hr)
  reserved p hr := ⟨fun hm => h.ok.free_res p hm (h₀.reserved p hr),
    fun e i j hl => h.target_res (k := .page e i j) hl (h₀.reserved p hr)⟩

/-- **The allocator over whole runs.**  From the state boot leaves behind, in every state reached by
calls of live environments none of which unmaps or maps from an address where nothing is mapped or
overflows a count, the page allocator's guarantee holds. -/
theorem reaches_accounted {m : Machine} {s₀ s : Kernel}
    (hboot : (i386Init m).run m.powerOn = .ok () s₀)
    (h : Reach Kernel.Calls (fun s c => c.syscall.Sound s c.caller) s₀ s) :
    ∃ fl, Accounted m s₀ fl s := by
  obtain ⟨res, fl₀, h₀⟩ := i386Init_booted hboot
  obtain ⟨fl, hinv⟩ := h₀.inv.reach (h.mono fun s c s' hok hstep => ⟨hok, hstep.sysCalls⟩)
  exact ⟨fl, h₀.accounted hinv⟩

/-- With two free pages, an environment can allocate a page at `UTEXT`. -/
theorem Inv.alloc_utext (h : Inv res fl s) {e : EnvIndex} (hlive : (s.envs e).envStatus ≠ .free)
    (hlen : 2 ≤ fl.length) {c : Syscall} (hc : c = .pageAlloc 0#32 utext (pteP ||| pteU ||| pteW)) :
    ∃ fl' pp, Inv res fl' (final c.handle (s.setCurenv (some e))) ∧ fl.length ≤ fl'.length + 2 ∧
      (final c.handle (s.setCurenv (some e))).leaf e (pdx utext) (ptx utext) = some pp ∧
      (final c.handle (s.setCurenv (some e))).counts pp = 1 ∧
      ((final c.handle (s.setCurenv (some e))).envs e).envStatus ≠ .free := by
  subst hc
  have hcur : Inv res fl (s.setCurenv (some e)) := h.of_cpus _ _ _
  have hself : (s.setCurenv (some e)).resolve e 0#32 = some e := rfl
  obtain ⟨r, s', hrun, hspec⟩ := hcur.sysPageAlloc_spec (setCurenv_curenv s _) hlive 0#32 utext
    (pteP ||| pteU ||| pteW)
  have hfinal : final (Syscall.pageAlloc 0#32 utext (pteP ||| pteU ||| pteW)).handle
    (s.setCurenv (some e)) = s' := final_of_ok hrun
  rw [hfinal]
  rcases hspec with ⟨-, -, hwhy⟩ | ⟨-, e', pp, hr, -, -, hpa⟩
  · rcases hwhy with hwhy | hwhy | hwhy | hwhy
    · exact absurd (hself.symm.trans hwhy) (by simp)
    · exact absurd (by decide) hwhy
    · exact absurd (by decide) hwhy
    · obtain ⟨e', -, hfull⟩ := hwhy
      have := tablesFor_le (s.setCurenv (some e)) e' utext
      omega
  · obtain rfl : e = e' := Option.some_inj.1 (hself.symm.trans hr)
    obtain ⟨fl', hinv, hlen'⟩ := hpa.inv
    refine ⟨fl', pp, hinv, hlen', ?_, hpa.count, ?_⟩
    · rw [leaf_eq_framed, hpa.edited.entry, setEntry_self]
      exact framed_entry (Inv.lt_pow s (h.free_lt hpa.free)) (by decide)
    · rw [hpa.edited.memOnly.envs]
      exact hlive

/-- An environment can unmap what it has mapped there; the page table stays. -/
theorem Inv.unmap_utext (h : Inv res fl s) {e : EnvIndex} (hlive : (s.envs e).envStatus ≠ .free)
    {p : Nat} (hp : s.leaf e (pdx utext) (ptx utext) = some p) {c : Syscall}
    (hc : c = .pageUnmap 0#32 utext) :
    ∃ fl' t, Inv res fl' (final c.handle (s.setCurenv (some e))) ∧ fl.length ≤ fl'.length ∧
      (final c.handle (s.setCurenv (some e))).table e (pdx utext) = some t ∧
      (final c.handle (s.setCurenv (some e))).entry e (pdx utext) (ptx utext) = 0#32 ∧
      ((final c.handle (s.setCurenv (some e))).envs e).envStatus ≠ .free := by
  subst hc
  have hcur : Inv res fl (s.setCurenv (some e)) := h.of_cpus _ _ _
  obtain ⟨t, ht, -⟩ := leaf_eq_some.1 hp
  have hpp : pgnum (pteAddr (s.entry e (pdx utext) (ptx utext))) = p := by
    rw [leaf_eq_framed] at hp
    exact (framed_eq_some.1 hp).2
  obtain ⟨r, s', hrun, hspec⟩ := hcur.sysPageUnmap_spec (setCurenv_curenv s _) hlive 0#32 utext
  have hfinal : final (Syscall.pageUnmap 0#32 utext).handle (s.setCurenv (some e)) = s' :=
    final_of_ok hrun
  rw [hfinal]
  rcases hspec with ⟨-, -, hwhy⟩ | ⟨-, e', d, hr, -, -, ⟨hnone, -⟩ | ⟨t', ht', rfl⟩⟩
  · rcases hwhy with hwhy | hwhy
    · exact absurd hwhy (by simp [resolve])
    · exact absurd (by decide) hwhy
  · obtain rfl : e = e' := Option.some_inj.1 hr
    exact absurd (ht.symm.trans hnone) (by simp)
  · obtain rfl : e = e' := Option.some_inj.1 hr
    obtain rfl : t = t' := Option.some_inj.1 (ht.symm.trans ht')
    have hinv := hcur.unmapAt ht' (j := ptx utext) hp d utext
    have hedit := hcur.unmapAt_edited ht' d p utext (ptx utext)
    have htgt := congrFun (hcur.unmapAt_target ht' d p utext (ptx utext)) (.table e (pdx utext))
    rw [show (s.setCurenv (some e)).entry e (pdx utext) (ptx utext) =
      s.entry e (pdx utext) (ptx utext) from rfl, hpp]
    refine ⟨_, t, hinv, ?_, ?_, ?_, ?_⟩
    · split
      · exact Nat.le_succ _
      · exact Nat.le_refl _
    · exact htgt.trans ((Function.update_of_ne (by simp) _ _).trans ht')
    · rw [hedit.entry, setEntry_self]
    · rw [hedit.memOnly.envs]
      exact hlive

/-- From there it can map page 0. -/
theorem Inv.map_zero (h : Inv res fl s) {e : EnvIndex} (hlive : (s.envs e).envStatus ≠ .free)
    (hlen : 1 ≤ fl.length) {t : Nat} (ht : s.table e (pdx utext) = some t)
    (hentry : s.entry e (pdx utext) (ptx utext) = 0#32) {c : Syscall}
    (hc : c = .pageMap 0#32 utext 0#32 (utext + pgsize) (pteP ||| pteU)) :
    (final c.handle (s.setCurenv (some e))).leaf e (pdx (utext + pgsize)) (ptx (utext + pgsize)) =
      some 0 := by
  subst hc
  have hcur : Inv res fl (s.setCurenv (some e)) := h.of_cpus _ _ _
  obtain ⟨r, s', hrun, hspec⟩ := hcur.sysPageMap_spec (setCurenv_curenv s _) hlive 0#32 utext 0#32
    (utext + pgsize) (pteP ||| pteU)
  have hfinal : final (Syscall.pageMap 0#32 utext 0#32 (utext + pgsize) (pteP ||| pteU)).handle
    (s.setCurenv (some e)) = s' := final_of_ok hrun
  rw [hfinal]
  rcases hspec with ⟨-, -, hwhy⟩ | ⟨-, src, dst, hrs, hrd, -, -, -, -, -, hins⟩
  · refine absurd ⟨by simp [resolve], by decide, by decide, by decide, ?_, fun hnone => ?_⟩ hwhy
    · exact ⟨e, t, by simp [resolve], ht, fun hw => absurd (by decide) hw⟩
    · have hchain := h.chain
      rw [show s.pageFreeList = none from hnone] at hchain
      rw [hchain.eq_nil] at hlen
      simp at hlen
  · obtain rfl : e = src := Option.some_inj.1 hrs
    obtain rfl : e = dst := Option.some_inj.1 hrd
    rw [leaf_eq_framed, hins.edited.entry, setEntry_self,
      show (s.setCurenv (some e)).entry e (pdx utext) (ptx utext) = 0#32 from hentry]
    decide

/-- A machine boots, and its first environment allocates a page. -/
theorem reaches_accounted_alloc : ∃ s₀ s, (i386Init smallMachine).run smallMachine.powerOn =
    .ok () s₀ ∧ Reach Kernel.Calls (fun s c => c.syscall.Sound s c.caller) s₀ s ∧
    (∃ e p, s.leaf e (pdx utext) (ptx utext) = some p) ∧ ∃ fl, Accounted smallMachine s₀ fl s := by
  have hfree := smallMachine_free
  obtain ⟨s₀, res, fl, e, d, hrun, hboot, hd, hlen⟩ :=
    i386Init_run (m := smallMachine) (n := 2) rfl rfl rfl (by omega)
  have hlive := live_of_dir hd
  obtain ⟨-, pp, -, -, hleaf, -⟩ := hboot.inv.alloc_utext hlive hlen rfl
  have hreach : Reach Kernel.Calls (fun s c => c.syscall.Sound s c.caller) s₀ _ :=
    .tail (a := ⟨e, .pageAlloc 0#32 utext (pteP ||| pteU ||| pteW)⟩) .refl trivial
      ⟨hlive, .pageAlloc _ _ _, rfl⟩
  exact ⟨s₀, _, hrun, hreach, ⟨e, pp, hleaf⟩, reaches_accounted hrun hreach⟩

/-- A machine boots, and its first environment allocates a page at `UTEXT` and unmaps it again. -/
theorem reaches_unmapped : ∃ s₀ s res fl e t,
    (i386Init smallMachine).run smallMachine.powerOn = .ok () s₀ ∧
    Reach Kernel.Calls (fun _ _ => True) s₀ s ∧ Inv res fl s ∧ 1 ≤ fl.length ∧
    (s.envs e).envStatus ≠ .free ∧ s.table e (pdx utext) = some t ∧
    s.entry e (pdx utext) (ptx utext) = 0#32 := by
  have hfree := smallMachine_free
  obtain ⟨s₀, res, fl, e, d, hrun, hboot, hd, hlen⟩ :=
    i386Init_run (m := smallMachine) (n := 3) rfl rfl rfl (by omega)
  have hlive := live_of_dir hd
  -- allocate
  obtain ⟨fl₁, pp, hinv₁, hlen₁, hleaf₁, -, hlive₁⟩ := hboot.inv.alloc_utext hlive (by omega) rfl
  have hreach₁ : Reach Kernel.Calls (fun _ _ => True) s₀ _ :=
    .tail (a := ⟨e, .pageAlloc 0#32 utext (pteP ||| pteU ||| pteW)⟩) .refl trivial
      ⟨hlive, .pageAlloc _ _ _, rfl⟩
  dsimp only at hreach₁
  generalize final (Syscall.pageAlloc 0#32 utext (pteP ||| pteU ||| pteW)).handle
    (s₀.setCurenv (some e)) = s₁ at hinv₁ hleaf₁ hlive₁ hreach₁
  -- unmap
  obtain ⟨fl₂, t, hinv₂, hlen₂, ht₂, hentry₂, hlive₂⟩ := hinv₁.unmap_utext hlive₁ hleaf₁ rfl
  have hreach₂ : Reach Kernel.Calls (fun _ _ => True) s₀ _ :=
    .tail (a := ⟨e, .pageUnmap 0#32 utext⟩) hreach₁ trivial ⟨hlive₁, .pageUnmap _ _, rfl⟩
  exact ⟨s₀, _, res, fl₂, e, t, hrun, hreach₂, hinv₂, by omega, hlive₂, ht₂, hentry₂⟩

/-- **An environment maps page 0.**  It allocates a page at `UTEXT`, unmaps it again, and maps the
next address from there. -/
theorem not_accounted : ∃ s₀ s, (i386Init smallMachine).run smallMachine.powerOn = .ok () s₀ ∧
    Reach Kernel.Calls (fun _ _ => True) s₀ s ∧ ¬ ∃ fl, Accounted smallMachine s₀ fl s := by
  obtain ⟨s₀, s, res, fl, e, t, hrun, hreach, hinv, hlen, hlive, ht, hentry⟩ := reaches_unmapped
  have hzero := hinv.map_zero hlive hlen ht hentry rfl
  have hreach' : Reach Kernel.Calls (fun _ _ => True) s₀ _ :=
    .tail (a := ⟨e, .pageMap 0#32 utext 0#32 (utext + pgsize) (pteP ||| pteU)⟩) hreach trivial
      ⟨hlive, .pageMap _ _ _ _ _, rfl⟩
  refine ⟨s₀, _, hrun, hreach', ?_⟩
  rintro ⟨fl', hacc⟩
  exact (hacc.reserved 0 (Or.inl rfl)).2 _ _ _ hzero

end Jos
