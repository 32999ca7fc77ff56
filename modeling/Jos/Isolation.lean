import Jos.Alloc.Syscall

/-!
# Isolation between unrelated environments

A system call can concern the environment that makes it, that environment's children, and slots
that are free.  Nobody else notices: another environment keeps its identity, its registers and its
upcall, every address translates as before, and every byte below `UTOP` reads as before.  The one
thing that can happen to it is to be given the CPU.

The argument is a frame argument, `Confined`: up to handing over the CPU, every system call stays
within the environments it `Concerns`, which are all `Related` to the caller.  That it does so even
when it tears down an address space that shares pages with others is the frame condition of
`env_free`.
-/

set_option autoImplicit false

namespace Jos

open Kernel Command

variable {res : Nat → Prop} {fl : List Nat} {s s' : Kernel} {cur e : EnvIndex}

/-! ## Whom a system call concerns -/

/-- The caller, its children, and free slots. -/
def Kernel.Related (s : Kernel) (cur e : EnvIndex) : Prop :=
  e = cur ∨ (s.envs e).envStatus = .free ∨ (s.envs e).envParentId = (s.envs cur).envId

/-- The environments a call may change: the caller, and the one it names or the free slots. -/
def Syscall.Concerns (s : Kernel) (cur : EnvIndex) (c : Syscall) (e : EnvIndex) : Prop :=
  e = cur ∨ match c with
    | .envDestroy envid | .pageAlloc envid _ _ | .pageMap _ _ envid _ _ | .pageUnmap envid _
    | .envSetStatus envid _ | .envSetPgfaultUpcall envid _ => s.resolve cur envid = some e
    | .exofork => (s.envs e).envStatus = .free
    | _ => False

/-- The environment an id resolves to is related to the caller. -/
theorem related_of_resolve {envid : Word} (hr : s.resolve cur envid = some e) :
    s.Related cur e := by
  rcases resolve_eq_some hr with rfl | ⟨-, hp⟩
  · exact Or.inl rfl
  · exact Or.inr (Or.inr hp)

theorem Syscall.Concerns.related {c : Syscall} (h : c.Concerns s cur e) : s.Related cur e := by
  rcases h with rfl | h
  · exact Or.inl rfl
  cases c with
  | exofork => exact Or.inr (Or.inl h)
  | cputs | cgetc | getenvid | yield => exact h.elim
  | _ => exact related_of_resolve h

/-- Up to handing over the CPU, only environments in `E` are concerned. -/
def Confined (res : Nat → Prop) (E : EnvIndex → Prop) (s s' : Kernel) : Prop :=
  ∃ t, Frame res E s t ∧ Handover t s' ∧ ∀ e, t.curenv = some e → E e

variable {E : EnvIndex → Prop}

theorem Confined.of_frame (hf : Frame res E s s') (hcur : ∀ e, s'.curenv = some e → E e) :
    Confined res E s s' :=
  ⟨s', hf, Handover.refl s', hcur⟩

theorem Confined.of_leaves {t : Kernel} {x : Exit} (hf : Frame res E s t)
    (hcur : ∀ e, t.curenv = some e → E e) (hl : Leaves t x s') : Confined res E s s' :=
  ⟨t, hf, hl.handover, hcur⟩

theorem Confined.of_frame_trans {t : Kernel} (hf : Frame res E s t) (h : Confined res E t s') :
    Confined res E s s' := by
  obtain ⟨u, hu, ho, hcur⟩ := h
  exact ⟨u, hf.trans hu, ho, hcur⟩

theorem Peek.frame (h : Peek s s') : Frame res E s s' := by
  obtain ⟨a, o, rfl⟩ := h.exists_eq
  exact Frame.of_eq rfl rfl rfl rfl

/-- Writing an environment concerns that environment. -/
theorem Frame.setEnv (he : E e) (env : Env) : Frame res E s (s.setEnv e env) :=
  ⟨fun e' hne => Function.update_of_ne (fun h : e' = e => hne (h ▸ he)) _ _, fun _ _ => rfl, rfl,
    rfl⟩

/-! ## The system calls -/

section

variable (hc : s.curenv = some cur) (hcur : E cur)

include hc hcur

theorem curenv_related (hs : s'.curenv = s.curenv) (e : EnvIndex) (h : s'.curenv = some e) :
    E e := by
  obtain rfl : cur = e := Option.some_inj.1 (hc.symm.trans (hs.symm.trans h))
  exact hcur

theorem Inv.envDestroy_confined (h : Inv res fl s) (hlive : (s.envs e).envStatus ≠ .free)
    (he : E e) : Confined res E s (final (envDestroy e) s) := by
  rcases h.envDestroy_spec hlive with ⟨-, -, hrun⟩ | ⟨s₁, fl₁, -, hinv, hframe, hmo, hend⟩
  · rw [final_of_ok hrun]
    exact Confined.of_frame (Frame.setEnv he _) (curenv_related hc hcur rfl)
  · have hframe' : Frame res E s s₁ := hframe.mono fun e' he' => he' ▸ he
    rcases hend with ⟨-, hrun⟩ | ⟨-, x, s', hrun, hl⟩
    · rw [final_of_ok hrun]
      exact Confined.of_frame hframe' (curenv_related hc hcur hmo.curenv)
    · rw [final_of_error hrun]
      have hframe₂ : Frame res E s (s₁.setCurenv none) :=
        hframe'.trans (Frame.of_eq rfl rfl rfl rfl)
      refine Confined.of_leaves hframe₂ (fun e' he' => ?_) hl
      rw [setCurenv_curenv] at he'
      exact absurd he' (by simp)

theorem Inv.userMemAssert_confined (h : Inv res fl s) (hlive : (s.envs e).envStatus ≠ .free)
    (he : E e) (va len perm : Word) :
    (∃ s', (userMemAssert e va len perm).run s = .ok () s' ∧ Peek s s') ∨
      Confined res E s (final (userMemAssert e va len perm) s) := by
  have hpeek := userMemCheck_peek e va len (perm ||| pteU)
  cases hr : (userMemCheck e va len (perm ||| pteU)).run s with
  | error x s₀ =>
    have hp := hpeek.of_error hr
    refine Or.inr ?_
    have hrun : (userMemAssert e va len perm).run s = .error x s₀ := run_bind_error hr
    rw [final_of_error hrun]
    obtain ⟨a, o, rfl⟩ := hp.exists_eq
    exact Confined.of_frame hp.frame (curenv_related hc hcur rfl)
  | ok r s₀ =>
    have hp := hpeek.of_ok hr
    have hrun : (userMemAssert e va len perm).run s =
        EStateM.run (if r.toInt < 0 then envDestroy e else pure ()) s₀ := run_bind_ok hr
    by_cases hneg : r.toInt < 0
    · refine Or.inr ?_
      rw [if_pos hneg] at hrun
      rw [final, hrun]
      obtain ⟨a, o, rfl⟩ := hp.exists_eq
      refine Confined.of_frame_trans hp.frame ?_
      exact Inv.envDestroy_confined (s := { s with userMemCheckAddr := a, consOut := o }) hc hcur
        (hp.inv h) hlive he
    · rw [if_neg hneg] at hrun
      exact Or.inl ⟨s₀, hrun, hp⟩

end

section

variable (h : Inv res fl s) (hc : s.curenv = some cur) (hlive : (s.envs cur).envStatus ≠ .free)
variable (hcur : E cur)

include h hc hlive hcur

theorem Inv.sysPageAlloc_confined (envid va perm : Word)
    (htgt : ∀ e, s.resolve cur envid = some e → E e) :
    Confined res E s (final (sysPageAlloc envid va perm) s) := by
  obtain ⟨r, s', hrun, hspec⟩ := h.sysPageAlloc_spec hc hlive envid va perm
  rw [final_of_ok hrun]
  rcases hspec with ⟨-, rfl | ⟨pp, hpp, rfl⟩, -⟩ | ⟨-, e, pp, hr, -, -, hpa⟩
  · exact Confined.of_frame (Frame.refl _ _ _) (curenv_related hc hcur rfl)
  · refine Confined.of_frame ?_ (curenv_related hc hcur rfl)
    exact Frame.of_page (f := pp) (h.private_free hpp) (fun p hp => fill_mem_ne _ _ _ hp)
      rfl rfl rfl
  · have he := htgt _ hr
    exact Confined.of_frame (hpa.edited.frame.mono fun e' he' => he' ▸ he)
      (curenv_related hc hcur hpa.edited.memOnly.curenv)

theorem Inv.sysPageMap_confined (srcenvid srcva dstenvid dstva perm : Word)
    (htgt : ∀ e, s.resolve cur dstenvid = some e → E e) :
    Confined res E s (final (sysPageMap srcenvid srcva dstenvid dstva perm) s) := by
  obtain ⟨r, s', hrun, hspec⟩ := h.sysPageMap_spec hc hlive srcenvid srcva dstenvid dstva perm
  rw [final_of_ok hrun]
  rcases hspec with ⟨-, rfl, -⟩ | ⟨-, src, dst, -, hr, -, -, -, hpm⟩
  · exact Confined.of_frame (Frame.refl _ _ _) (curenv_related hc hcur rfl)
  · have he := htgt _ hr
    have hedit := hpm.inserted.edited
    exact Confined.of_frame (hedit.frame.mono fun e' he' => he' ▸ he)
      (curenv_related hc hcur hedit.memOnly.curenv)

theorem Inv.sysPageUnmap_confined (envid va : Word)
    (htgt : ∀ e, s.resolve cur envid = some e → E e) :
    Confined res E s (final (sysPageUnmap envid va) s) := by
  obtain ⟨r, s', hrun, hspec⟩ := h.sysPageUnmap_spec hc hlive envid va
  rw [final_of_ok hrun]
  rcases hspec with ⟨-, rfl, -⟩ | ⟨-, e, d, hr, -, -, ⟨-, rfl⟩ | ⟨t, ht, rfl⟩⟩
  · exact Confined.of_frame (Frame.refl _ _ _) (curenv_related hc hcur rfl)
  · exact Confined.of_frame (Frame.refl _ _ _) (curenv_related hc hcur rfl)
  · have he := htgt _ hr
    have hedit := h.unmapAt_edited ht d (pgnum (pteAddr (s.entry e (pdx va) (ptx va)))) va (ptx va)
    exact Confined.of_frame (hedit.frame.mono fun e' he' => he' ▸ he)
      (curenv_related hc hcur hedit.memOnly.curenv)

theorem Inv.sysExofork_confined (hslot : ∀ e, (s.envs e).envStatus = .free → E e) :
    Confined res E s (final sysExofork s) := by
  obtain ⟨r, s', hrun, hspec⟩ := h.sysExofork_spec hc hlive
  rw [final_of_ok hrun]
  rcases hspec with ⟨-, rfl⟩ | ⟨e, p, fl', rfl, he, -, rfl⟩
  · exact Confined.of_frame (Frame.refl _ _ _) (curenv_related hc hcur rfl)
  · have hfree := hslot e (h.free_head he)
    exact Confined.of_frame ((h.forked he cur).2.2.mono fun e' he' => he' ▸ hfree)
      (curenv_related hc hcur rfl)

theorem Inv.sysEnvDestroy_confined (envid : Word)
    (htgt : ∀ e, s.resolve cur envid = some e → E e) :
    Confined res E s (final (sysEnvDestroy envid) s) := by
  cases hr : s.resolve cur envid with
  | none =>
    rw [final_of_ok (sysEnvDestroy_none hc hr)]
    exact Confined.of_frame (Frame.refl _ _ _) (curenv_related hc hcur rfl)
  | some e =>
    rw [sysEnvDestroy_final hc hr]
    exact Inv.envDestroy_confined hc hcur h (resolve_live hlive hr) (htgt _ hr)

omit h hlive in
theorem Inv.sysEnvSetStatus_confined (envid status : Word)
    (htgt : ∀ e, s.resolve cur envid = some e → E e) :
    Confined res E s (final (sysEnvSetStatus envid status) s) := by
  rcases sysEnvSetStatus_spec hc envid status with ⟨r, -, hrun⟩ | ⟨e, st, hr, -, hrun⟩
  · rw [final_of_ok hrun]
    exact Confined.of_frame (Frame.refl _ _ _) (curenv_related hc hcur rfl)
  · rw [final_of_ok hrun]
    exact Confined.of_frame (Frame.setEnv (htgt _ hr) _) (curenv_related hc hcur rfl)

theorem Inv.sysEnvSetPgfaultUpcall_confined (envid func : Word)
    (htgt : ∀ e, s.resolve cur envid = some e → E e) :
    Confined res E s (final (sysEnvSetPgfaultUpcall envid func) s) := by
  cases hr : s.resolve cur envid with
  | none =>
    rw [final_of_ok (sysEnvSetPgfaultUpcall_none hc hr)]
    exact Confined.of_frame (Frame.refl _ _ _) (curenv_related hc hcur rfl)
  | some e =>
    have he := htgt _ hr
    rw [sysEnvSetPgfaultUpcall_final hc hr]
    obtain ⟨s₁, hs₁⟩ : ∃ t, s.setEnv e { s.envs e with envPgfaultUpcall := func } = t := ⟨_, rfl⟩
    have h₁ : Inv res fl s₁ := by
      rw [← hs₁]
      exact h.of_setEnv rfl rfl Iff.rfl
    have hc₁ : s₁.curenv = some cur := by rw [← hs₁]; exact hc
    have hlive₁ : (s₁.envs e).envStatus ≠ .free := by
      rw [← hs₁]
      simpa using resolve_live hlive hr
    have hf₁ : Frame res E s s₁ := by rw [← hs₁]; exact Frame.setEnv he _
    rw [hs₁]
    rcases Inv.userMemAssert_confined hc₁ hcur h₁ hlive₁ he func 4#32 0#32 with ⟨s', hr', hp⟩ | hcon
    · rw [final_of_ok hr']
      refine Confined.of_frame (hf₁.trans hp.frame) ?_
      obtain ⟨a, o, rfl⟩ := hp.exists_eq
      exact curenv_related hc₁ hcur rfl
    · exact Confined.of_frame_trans hf₁ hcon

theorem Inv.sysCputs_confined (p len : Word) :
    Confined res E s (final (sysCputs p len) s) := by
  have hrun : ∀ {r}, (userMemAssert cur p len pteU).run s = r → (sysCputs p len).run s =
      match r with
      | .ok _ t => (cprintS p len).run t
      | .error x t => .error x t := by
    rintro r rfl
    simp only [sysCputs, EStateM.run_bind, EStateM.run_get, hc, derefEnv, EStateM.run_pure]
    cases (userMemAssert cur p len pteU).run s <;> rfl
  rcases Inv.userMemAssert_confined hc hcur h hlive hcur p len pteU with ⟨s₁, hr, hp⟩ | hcon
  · have hfinal : final (sysCputs p len) s = final (cprintS p len) s₁ := by
      rw [final, hrun hr]
      rfl
    rw [hfinal]
    have hp' := Peek.trans _ _ _ hp (cprintS_peek p len s₁)
    refine Confined.of_frame hp'.frame ?_
    obtain ⟨a, o, ho⟩ := hp'.exists_eq
    rw [ho]
    exact curenv_related hc hcur rfl
  · cases hr : (userMemAssert cur p len pteU).run s with
    | error x t =>
      rw [final_of_error hr] at hcon
      rw [final_of_error (hrun hr)]
      exact hcon
    | ok a t =>
      rw [final_of_ok hr] at hcon
      have hfinal : final (sysCputs p len) s = final (cprintS p len) t := by
        rw [final, hrun hr]
        rfl
      rw [hfinal]
      obtain ⟨u, hu, ho, hcu⟩ := hcon
      obtain ⟨a, o, hout⟩ := (cprintS_peek p len t).exists_eq
      refine ⟨u, hu, ?_, hcu⟩
      rw [hout]
      exact ⟨ho.mem, ho.pages, ho.pageFreeList, ho.npages, ho.kernPgdir, ho.envFreeList, ho.env⟩

omit hcur in
/-- **Every system call is confined** to the environments it concerns. -/
theorem Inv.handle_confined (c : Syscall) :
    Confined res (c.Concerns s cur) s (final c.handle s) := by
  have hself : c.Concerns s cur cur := Or.inl rfl
  have hstay : Confined res (c.Concerns s cur) s s :=
    Confined.of_frame (Frame.refl _ _ _) (curenv_related hc hself rfl)
  cases c with
  | cputs p len =>
    rw [cputs_final]
    exact h.sysCputs_confined hc hlive hself p len
  | cgetc => exact hstay
  | getenvid =>
    have hrun : Syscall.getenvid.handle.run s = .ok (s.envs cur).envId s := by
      simp only [Syscall.handle, sysGetenvid, EStateM.run_bind, EStateM.run_get, hc, derefEnv,
        EStateM.run_pure]
    rw [final_of_ok hrun]
    exact hstay
  | envDestroy envid => exact h.sysEnvDestroy_confined hc hlive hself envid fun _ => Or.inr
  | pageAlloc envid va perm =>
    exact h.sysPageAlloc_confined hc hlive hself envid va perm fun _ => Or.inr
  | pageMap srcenvid srcva dstenvid dstva perm =>
    exact h.sysPageMap_confined hc hlive hself srcenvid srcva dstenvid dstva perm fun _ => Or.inr
  | pageUnmap envid va => exact h.sysPageUnmap_confined hc hlive hself envid va fun _ => Or.inr
  | exofork => exact h.sysExofork_confined hc hlive hself fun _ => Or.inr
  | envSetStatus envid status =>
    exact Inv.sysEnvSetStatus_confined hc hself envid status fun _ => Or.inr
  | envSetPgfaultUpcall envid func =>
    exact h.sysEnvSetPgfaultUpcall_confined hc hlive hself envid func fun _ => Or.inr
  | yield =>
    obtain ⟨x, s', hrun, hl⟩ := schedYield_leaves h.live_dir
    have hfinal : Syscall.yield.handle.run s = .error x s' := run_bind_error hrun
    rw [final_of_error hfinal]
    exact Confined.of_leaves (Frame.refl _ _ _) (curenv_related hc hself rfl) hl

end

/-! ## Isolation -/

/-- What another environment may notice of a system call: that it has been given the CPU. -/
structure Isolated (s s' : Kernel) (b : EnvIndex) : Prop where
  envId : (s'.envs b).envId = (s.envs b).envId
  envParentId : (s'.envs b).envParentId = (s.envs b).envParentId
  envTf : (s'.envs b).envTf = (s.envs b).envTf
  envPgfaultUpcall : (s'.envs b).envPgfaultUpcall = (s.envs b).envPgfaultUpcall
  envPgdir : (s'.envs b).envPgdir = (s.envs b).envPgdir
  view : ∀ d, (s.envs b).envPgdir = some d → SameView s s' d
  envStatus : (s'.envs b).envStatus = (s.envs b).envStatus ∨
    ((s.envs b).envStatus = .runnable ∧ (s'.envs b).envStatus = .running)

/-- **Isolation.**  A system call by `cur` leaves every live environment that is neither `cur` nor a
child of `cur` alone. -/
theorem syscall_isolated (h : Inv res fl s) (hc : s.curenv = some cur)
    (hlive : (s.envs cur).envStatus ≠ .free) (c : Syscall) {b : EnvIndex}
    (hb : (s.envs b).envStatus ≠ .free) (hne : b ≠ cur)
    (hparent : (s.envs b).envParentId ≠ (s.envs cur).envId) :
    Isolated s (final c.handle s) b := by
  obtain ⟨t, hf, ho, hcur⟩ := h.handle_confined hc hlive c
  have hrel : ¬ c.Concerns s cur b := by
    intro hcon
    rcases hcon.related with h1 | h1 | h1
    · exact hne h1
    · exact hb h1
    · exact hparent h1
  have hsame : t.envs b = s.envs b := hf.envs b hrel
  obtain ⟨st, runs, cpu, henv, hst⟩ := ho.env b
  rw [hsame] at henv hst
  refine ⟨by rw [henv], by rw [henv], by rw [henv], by rw [henv], by rw [henv], fun d hd => ?_, ?_⟩
  · have hdir : s.dir b = some d := by rw [Kernel.dir, if_neg hb, hd]
    have hview := hf.sameView h hrel hdir
    refine ⟨fun va => ?_, fun need va => ?_, fun va f o hva htr => ?_⟩
    · rw [← hview.walk, Kernel.walk, Kernel.walk, ho.mem]
    · rw [← hview.translate, Kernel.translate, Kernel.translate, ho.mem]
    · rw [← hview.byte va f o hva htr, ho.mem]
  · rw [henv]
    rcases hst with h1 | ⟨h1, h2⟩ | ⟨h1, -, -⟩
    · exact Or.inl h1
    · exact Or.inr ⟨h1, h2⟩
    · exact absurd (hcur b h1) hrel

/-- A child that is running, and its parent. -/
def childRunning : Kernel := (oneEnv.forked 0 1 2).setCurenv (some 1)

theorem childRunning_inv : Inv oneEnvRes [3] childRunning :=
  (oneEnv_inv.forked (e := 1) rfl 0).1.of_cpus _ _ _

/-- The child is not the parent of its parent. -/
theorem syscall_isolated_parent :
    Isolated childRunning (final (Syscall.envDestroy 0#32).handle childRunning) 0 := by
  have hcur : childRunning.curenv = some 1 := by decide
  exact syscall_isolated childRunning_inv hcur (by decide) _ (by decide) (by decide) (by decide)

end Jos
