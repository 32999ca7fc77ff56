import Jos.Alloc.Call
import Jos.Fault
import Jos.Pfentry
import Jos.Upcall

/-!
# Pushing a frame on the exception stack

A fault that reaches the upcall has passed both checks of `page_fault_handler`.  If the stack
pointer leaves room, the frame lies in the page of the exception stack; then the fault has stored
the frame, which the program may read and write, and nothing else in that page has changed
(`Pushes.pushed`).  Conversely a program with an upcall and an exception stack gets that far
(`pageFaultHandler_enters`).
-/

set_option autoImplicit false

namespace Jos

open Kernel Command X86

variable {res : Nat → Prop} {fl : List Nat} {s s' : Kernel} {e : EnvIndex} {d : Nat}
variable {tf : Trapframe} {esp va need need' : Word}

/-! ## The program's memory -/

/-- An access that needs fewer flags finds the same byte. -/
theorem translate_of_flags {x : Nat × Nat} (hflags : need &&& need' = need')
    (h : s.translate d need va = some x) : s.translate d need' va = some x := by
  have hw : ∀ w : Word, w &&& need = need → w &&& need' = need' := by
    intro w hw
    rw [← hflags, ← BitVec.and_assoc, hw]
  rw [Kernel.translate] at h ⊢
  by_cases hpde : s.mem d (pdx va) &&& need = need
  · rw [if_neg (not_not.2 hpde)] at h
    rw [if_neg (not_not.2 (hw _ hpde))]
    obtain ⟨t, ht, h⟩ := Option.bind_eq_some_iff.1 h
    rw [ht, Option.bind_some]
    by_cases hpte : s.mem t (ptx va) &&& need = need
    · rw [if_neg (not_not.2 hpte)] at h
      rw [if_neg (not_not.2 (hw _ hpte)), h]
    · rw [if_pos hpte] at h
      cases h
  · rw [if_pos hpde] at h
    cases h

/-- The memory of the program whose page directory is in page `d`; at an address with nothing mapped
it does not matter what is there. -/
def Kernel.userMem (s : Kernel) (d : Nat) : ByteMem := fun va => (s.readByte d pteP va).getD 0#8

theorem userMem_of_translate {f o : Nat} (h : s.translate d pteP va = some (f, o)) :
    s.userMem d va = byteAt (s.mem f) o := by
  rw [Kernel.userMem, Kernel.readByte, h]
  rfl

/-- What the program may read and write. -/
def Kernel.userRights (s : Kernel) (d : Nat) : Rights where
  readable va := (s.translate d (pteP ||| pteU) va).isSome
  writable va := (s.translate d (pteP ||| pteU ||| pteW) va).isSome
  readable_of_writable va h := by
    obtain ⟨x, hx⟩ := Option.isSome_iff_exists.1 h
    rw [translate_of_flags (by decide) hx]
    rfl

/-! ## Where the frame is -/

/-- The trap-time stack pointers for which the frame has its place in the exception stack. -/
def FrameFits (esp : Word) : Prop :=
  (4#32 ≤ esp ∧ esp < uxstacktop - pgsize) ∨
    (uxstacktop - pgsize + 56#32 ≤ esp ∧ esp ≤ uxstacktop - 1#32)

/-- On the exception stack there is a gap of one word above the frame; otherwise the frame is at the
top. -/
theorem exstack_cases (h : FrameFits esp) :
    (4 ≤ esp.toNat ∧ esp.toNat < 4005556224 ∧ (exstack esp).toNat = 4005560268) ∨
      (4005556280 ≤ esp.toNat ∧ esp.toNat < 4005560320 ∧
        (exstack esp).toNat + 56 = esp.toNat) := by
  have htop : (uxstacktop - utfSize).toNat = 4005560268 := by decide
  rcases h with ⟨hlo, hhi⟩ | ⟨hlo, hhi⟩
  · have hlo' : 4 ≤ esp.toNat := hlo
    have hhi' : esp.toNat < 4005556224 := hhi
    have hout : ¬ (uxstacktop - pgsize ≤ esp ∧ esp ≤ uxstacktop - 1#32) := fun hin =>
      absurd (show 4005556224 ≤ esp.toNat from hin.1) (by omega)
    refine Or.inl ⟨hlo', hhi', ?_⟩
    rw [exstack, if_neg hout, htop]
  · have hlo' : 4005556280 ≤ esp.toNat := hlo
    have hhi' : esp.toNat ≤ 4005560319 := hhi
    have hin : uxstacktop - pgsize ≤ esp ∧ esp ≤ uxstacktop - 1#32 :=
      ⟨show 4005556224 ≤ esp.toNat by omega, hhi⟩
    refine Or.inr ⟨hlo', by omega, ?_⟩
    rw [exstack, if_pos hin, utfSize]
    bv_omega

/-- The frame is in the page of the exception stack. -/
theorem exstack_page (h : FrameFits esp) :
    4005556224 ≤ (exstack esp).toNat ∧ (exstack esp).toNat + 52 ≤ 4005560320 := by
  rcases exstack_cases h with ⟨-, -, h⟩ | ⟨hlo, hhi, h⟩
  · omega
  · omega

theorem frame_toNat (h : FrameFits esp) {n : Nat} (hn : n < 52) :
    (exstack esp + BitVec.ofNat 32 n).toNat = (exstack esp).toNat + n := by
  have := exstack_page h
  rw [BitVec.toNat_add, BitVec.toNat_ofNat]
  omega

theorem frame_pgnum (h : FrameFits esp) {n : Nat} (hn : n < 52) :
    pgnum (exstack esp + BitVec.ofNat 32 n) = pgnum (exstack esp) := by
  have := exstack_page h
  rw [pgnum_eq, pgnum_eq, frame_toNat h hn]
  omega

/-! ## Pushing the frame -/

/-- **A fault that reaches the upcall**: environment `e`, with its page directory in page `d`, has
trapped with the registers `tf`, and `page_fault_handler`, called in state `s`, enters `e` again. -/
structure Pushes (s s' : Kernel) (e : EnvIndex) (d : Nat) (tf : Trapframe) : Prop where
  inv : ∃ res fl, Inv res fl s
  curenv : s.curenv = some e
  dir : s.dir e = some d
  linked : s.Linked e d
  cr3 : s.cr3 s.cpunum = d
  user : tf.tfCs &&& 3#32 = 3#32
  saved : (s.envs e).envTf = tf
  run : (pageFaultHandler tf).run s = .error .popTf s'
  enters : s'.curenv = some e

/-- After the current environment has been destroyed another one is run. -/
theorem Inv.envDestroy_other {x : Exit} (h : Inv res fl s) (hc : s.curenv = some e)
    (hlive : (s.envs e).envStatus ≠ .free) (hrun : (envDestroy e).run s = .error x s') :
    s'.curenv ≠ some e ∨ x ≠ .popTf := by
  rcases h.envDestroy_spec hlive with ⟨-, hne, -⟩ |
    ⟨t, fl', -, -, -, hmo, ⟨hne, -⟩ | ⟨-, y, s'', hrun', hl⟩⟩
  · exact absurd hc hne
  · exact absurd hc hne
  · obtain ⟨rfl, rfl⟩ := EStateM.Result.error.inj (hrun'.symm.trans hrun)
    have hfree : (t.envs e).envStatus = .free := by
      have henvs : t.envs = Function.update s.envs e (s.freedEnv e) := hmo.envs
      rw [henvs, Function.update_self]
      rfl
    cases hl with
    | run e' d' hst hd =>
      refine Or.inl fun hcur => ?_
      obtain rfl : e' = e := Option.some_inj.1 ((setCurenv_curenv _ _).symm.trans hcur)
      rcases hst with hst | ⟨hnone, -⟩
      · exact absurd (hfree.symm.trans hst) (by decide)
      · exact absurd ((setCurenv_curenv t none).symm.trans hnone) (by simp)
    | halt => exact Or.inr (by decide)
    | monitor => exact Or.inr (by decide)

-- so that nothing is tempted to run its loop
attribute [local irreducible] userMemCheck

/-- A check of the current environment after which that environment is entered has passed. -/
theorem userMemAssert_enters {α : Type} {k : KernelM α} {len perm : Word} (h : Inv res fl s)
    (hc : s.curenv = some e) (hd : s.dir e = some d)
    (hrun : EStateM.run (do userMemAssert e va len perm; k) s = .error .popTf s')
    (henters : s'.curenv = some e) :
    ∃ a, (userMemCheck e va len (perm ||| pteU)).run s = .ok 0#32 (s.checkingAt a) ∧
      k.run (s.checkingAt a) = .error .popTf s' := by
  rw [userMemAssert, bind_assoc] at hrun
  rcases userMemCheck_cases (envPgdir_of_dir hd) va len (perm ||| pteU) with
    ⟨-, a, hcheck⟩ | ⟨-, t, hcheck⟩ | ⟨-, x, t, hcheck⟩
  · refine ⟨a, hcheck, ?_⟩
    rw [run_bind_ok hcheck, if_neg (by decide), run_bind_ok (EStateM.run_pure _ _)] at hrun
    exact hrun
  · have hpk := (userMemCheck_peek _ _ _ _).of_ok hcheck
    have hinv := Peek.inv hpk h
    obtain ⟨a, o, rfl⟩ := hpk.exists_eq
    obtain ⟨x, s'', hdes, -⟩ := hinv.envDestroy_leaves hc (live_of_dir hd)
    rw [run_bind_ok hcheck, if_pos (by decide), run_bind_error hdes] at hrun
    obtain ⟨rfl, rfl⟩ := EStateM.Result.error.inj hrun
    rcases hinv.envDestroy_other hc (live_of_dir hd) hdes with hne | hne
    · exact absurd henters hne
    · exact absurd rfl hne
  · rw [run_bind_error hcheck] at hrun
    obtain ⟨rfl, rfl⟩ := EStateM.Result.error.inj hrun
    exact ((userMemCheck_quiet _ _ _ _).of_error hcheck).2.elim

theorem roundUp_frame {utf : Word} (h : utf.toNat + 52 ≤ 4005560320) :
    (roundUp (utf + utfSize) pgsize).toNat = (utf.toNat + 52 + 4095) / 4096 * 4096 := by
  have hsize : utfSize.toNat = 52 := rfl
  rw [roundUp_add (by omega), hsize]

/-- The end of `page_fault_handler`, when it enters the environment: the user may write to the page
of the frame. -/
theorem pageFaultTail_enters (h : Inv res fl s) (hc : s.curenv = some e) (hd : s.dir e = some d)
    {utf : Word} (hutf : utf.toNat + 52 ≤ 4005560320)
    (hrun : (pageFaultTail e utf).run s = .error .popTf s') (henters : s'.curenv = some e) :
    s.Grants d (pteP ||| pteU ||| pteW) utf ∧ s'.mem = s.mem ∧ (s'.envs e).envTf =
      { (s.envs e).envTf with tfEsp := utf, tfEip := (s.envs e).envPgfaultUpcall } := by
  have hpgdir := envPgdir_of_dir hd
  have hperm : pteP ||| pteW ||| pteU ||| pteU ||| pteP = (pteP ||| pteU ||| pteW : Word) := by
    decide
  obtain ⟨a, hcheck, hrun⟩ := userMemAssert_enters h hc hd hrun henters
  have hgrants : s.Grants d (pteP ||| pteU ||| pteW) utf := by
    have hend := roundUp_frame hutf
    have hpass := (userMemCheck_zero_iff hpgdir).1 ⟨_, hcheck⟩ 0 (by rw [hend]; omega)
    rw [hperm, Nat.mul_zero, Nat.add_zero, BitVec.ofNat_toNat, BitVec.setWidth_eq] at hpass
    exact hpass.2
  obtain ⟨t, ht⟩ : ∃ t, t = (s.checkingAt a).setEnv e { s.envs e with
      envTf := { (s.envs e).envTf with tfEsp := utf, tfEip := (s.envs e).envPgfaultUpcall } } :=
    ⟨_, rfl⟩
  have hself : t.envs e = { s.envs e with
      envTf := { (s.envs e).envTf with tfEsp := utf, tfEip := (s.envs e).envPgfaultUpcall } } := by
    rw [ht, setEnv_envs, Function.update_self]
  have hleave : (envRun e).run t = .error .popTf s' := by
    rw [updateEnv, run_bind_ok (EStateM.run_modify _ _)] at hrun
    rw [ht]
    exact hrun
  rw [envRun_run (by rw [hself]; exact hpgdir)] at hleave
  obtain rfl := (EStateM.Result.error.inj hleave).2
  refine ⟨hgrants, ?_, ?_⟩
  · rw [ht]
    rfl
  · have henvs : (t.dispatch e d).envs e = t.dispatchedEnv e := Function.update_self _ _ _
    rw [henvs, dispatchedEnv, hself]

/-! ### The bytes of the frame -/

theorem frameBytes_fst (utf : Word) (u : UTrapframe) :
    (frameBytes utf u).map Prod.fst = (List.range 52).map fun n => utf + BitVec.ofNat 32 n := by
  simp [frameBytes, UTrapframe.words, wordBytes, BitVec.add_assoc, List.range_eq_range',
    List.range']

/-- Addresses in one page that the hardware takes to the same byte are the same. -/
theorem translate_inj {a b : Word} {f o : Nat} (hpg : pgnum a = pgnum b)
    (ha : s.translate d need a = some (f, o)) (hb : s.translate d need' b = some (f, o)) :
    a = b := by
  have hoff := (translate_offset ha).symm.trans (translate_offset hb)
  rw [pgoff_eq, pgoff_eq] at hoff
  rw [pgnum_eq, pgnum_eq] at hpg
  apply BitVec.eq_of_toNat_eq
  omega

theorem lt_utop_of_frame (h : FrameFits esp) (hva : pgnum va = pgnum (exstack esp)) :
    va < utop := by
  have hpage := exstack_page h
  rw [pgnum_eq, pgnum_eq] at hva
  rw [BitVec.lt_def, utop_toNat]
  omega

theorem frameBytes_pgnum (h : FrameFits esp) {u : UTrapframe} {x : Word × Byte}
    (hx : x ∈ frameBytes (exstack esp) u) : pgnum x.1 = pgnum (exstack esp) := by
  obtain ⟨n, hn, hx⟩ := mem_frameBytes hx
  rw [hx, frame_pgnum h hn]

/-- The bytes of the frame go to different places. -/
theorem frameBytes_nodup (h : FrameFits esp) {u : UTrapframe}
    (hw : ∀ x ∈ frameBytes (exstack esp) u, s.translate d need x.1 ≠ none) :
    ((frameBytes (exstack esp) u).map fun x => s.translate d need x.1).Nodup := by
  have haddr : ((frameBytes (exstack esp) u).map Prod.fst).Nodup := by
    rw [frameBytes_fst]
    refine List.Nodup.map_on (fun i hi j hj hij => ?_) List.nodup_range
    have hnat := congrArg BitVec.toNat hij
    rw [frame_toNat h (List.mem_range.1 hi), frame_toNat h (List.mem_range.1 hj)] at hnat
    omega
  have hmap : ((frameBytes (exstack esp) u).map fun x => s.translate d need x.1) =
      ((frameBytes (exstack esp) u).map Prod.fst).map (s.translate d need) := by
    rw [List.map_map]
    rfl
  rw [hmap]
  refine List.Nodup.map_on (fun a ha b hb hab => ?_) haddr
  obtain ⟨x, hx, rfl⟩ := List.mem_map.1 ha
  obtain ⟨y, hy, rfl⟩ := List.mem_map.1 hb
  obtain ⟨fo, hfo⟩ := Option.ne_none_iff_exists'.1 (hw x hx)
  exact translate_inj ((frameBytes_pgnum h hx).trans (frameBytes_pgnum h hy).symm) hfo
    (hab.symm.trans hfo)

/-- **Storing the frame.**  If the kernel does not fault, the frame is there, and the rest of the
page is as it was. -/
theorem storeFrame_stored (h : Inv res fl s) (hd : s.dir e = some d) (hcr3 : s.cr3 s.cpunum = d)
    (hfit : FrameFits esp) (u : UTrapframe) :
    ((∃ n < 52, s.translate d (pteP ||| pteW) (exstack esp + BitVec.ofNat 32 n) = none) ∧
      ∃ t, (storeBytes (frameBytes (exstack esp) u)).run s =
        .error (.panic "Page fault in kernel") t) ∨
    ∃ t, (storeBytes (frameBytes (exstack esp) u)).run s = .ok () t ∧ UserStores res fl s t ∧
      (∃ f, s.leaf e (pdx (exstack esp)) (ptx (exstack esp)) = some f) ∧
      u.At (t.userMem d) (exstack esp) ∧
      ∀ va, pgnum va = pgnum (exstack esp) → ¬ ByteMem.Within (exstack esp) 52 va →
        t.userMem d va = s.userMem d va := by
  have hl : ∀ x ∈ frameBytes (exstack esp) u, x.1 < utop := fun x hx =>
    lt_utop_of_frame hfit (frameBytes_pgnum hfit hx)
  rcases storeBytes_run hd hl h hcr3 with ⟨⟨x, hx, hnone⟩, hfault⟩ | ⟨hw, -⟩
  · obtain ⟨n, hn, hxn⟩ := mem_frameBytes hx
    exact Or.inl ⟨⟨n, hn, hxn ▸ hnone⟩, hfault⟩
  obtain ⟨t, hrun, hst, hstored, hkept⟩ :=
    storeBytes_stored hd hl h hcr3 hw (frameBytes_nodup hfit hw)
  refine Or.inr ⟨t, hrun, hst, ?_, fun w k hk => ?_, fun va hva hout => ?_⟩
  · obtain ⟨b, hb⟩ := frameBytes_mem (exstack esp) u (n := 0) (by decide)
    rw [BitVec.add_zero] at hb
    obtain ⟨⟨f, o⟩, hfo⟩ := Option.ne_none_iff_exists'.1 (hw _ hb)
    exact ⟨f, leaf_of_translate hd (hl _ hb) hfo⟩
  · refine ByteMem.word_of_bytes fun j hj => ?_
    have hmem : (exstack esp + BitVec.ofNat 32 (4 * k) + BitVec.ofNat 32 j, byteOf w j) ∈
        frameBytes (exstack esp) u :=
      List.mem_flatMap.2 ⟨(w, k), hk, wordBytes_byteOf _ _ hj⟩
    obtain ⟨⟨f, o⟩, hfo⟩ := Option.ne_none_iff_exists'.1 (hw _ hmem)
    rw [userMem_of_translate (f := f) (o := o)]
    · exact hstored _ hmem f o hfo
    · rw [hst.translate hd (hl _ hmem)]
      exact translate_of_flags (by decide) hfo
  · have hlt := lt_utop_of_frame hfit hva
    have htr := hst.translate hd hlt pteP
    cases hfo : s.translate d pteP va with
    | none =>
      rw [Kernel.userMem, Kernel.userMem, Kernel.readByte, Kernel.readByte, htr, hfo]
      rfl
    | some fo =>
      obtain ⟨f, o⟩ := fo
      rw [userMem_of_translate (htr.trans hfo), userMem_of_translate hfo]
      refine hkept f o (translate_lt hfo) fun x hx heq => hout ?_
      obtain ⟨n, hn, hxn⟩ := mem_frameBytes hx
      rw [translate_inj (hva.trans (frameBytes_pgnum hfit hx).symm) hfo heq]
      exact ByteMem.within_iff.2 ⟨n, hn, hxn⟩

/-- The user may write to the whole frame if the check passes. -/
theorem frame_writable (hd : s.dir e = some d) (hl : s.Linked e d) (hfit : FrameFits esp) {f : Nat}
    (hf : s.leaf e (pdx (exstack esp)) (ptx (exstack esp)) = some f)
    (hg : s.Grants d (pteP ||| pteU ||| pteW) (exstack esp)) {n : Nat} (hn : n < 52) :
    (s.userRights d).writable (exstack esp + BitVec.ofNat 32 n) = true := by
  have hpg := frame_pgnum hfit hn
  obtain ⟨hi, hj⟩ := pdx_ptx_of_pgnum hpg
  rw [← hi, ← hj] at hf
  obtain ⟨t, ht, -⟩ := leaf_eq_some.1 hf
  obtain ⟨t', ht', -, hpte⟩ := (grants_iff _).1 ((grants_page hpg).2 hg)
  have htab : s.table e (pdx (exstack esp + BitVec.ofNat 32 n)) = some t' :=
    (table_of_dir hd ((lt_utop_iff _).1 (lt_utop_of_frame hfit hpg))).trans ht'
  obtain rfl : t = t' := Option.some_inj.1 (ht.symm.trans htab)
  have htr := translate_of_entry hd ht (hl _ t ht) (by rwa [entry_of_table ht])
    ((leaf_eq_framed s e _ _).symm.trans hf)
  show (s.translate d (pteP ||| pteU ||| pteW) _).isSome = true
  rw [htr]
  rfl

/-- What a fault has done when the upcall is entered. -/
structure Pushed (s s' : Kernel) (e : EnvIndex) (d : Nat) (tf : Trapframe) : Prop where
  entered : (s'.envs e).envTf =
    { tf with tfEsp := exstack tf.tfEsp, tfEip := (s.envs e).envPgfaultUpcall }
  translate : ∀ va, va < utop → ∀ need, s'.translate d need va = s.translate d need va
  writable : ∀ n < 52, (s.userRights d).writable (exstack tf.tfEsp + BitVec.ofNat 32 n) = true
  frame : (UTrapframe.ofTrapframe tf s.cr2).At (s'.userMem d) (exstack tf.tfEsp)
  other : ∀ va, pgnum va = pgnum (exstack tf.tfEsp) →
    ¬ ByteMem.Within (exstack tf.tfEsp) 52 va → s'.userMem d va = s.userMem d va

/-- What a program sees is a matter of memory. -/
theorem translate_of_mem (hm : s'.mem = s.mem) (d : Nat) (need va : Word) :
    s'.translate d need va = s.translate d need va := by
  rw [Kernel.translate, Kernel.translate, hm]

theorem userMem_of_mem (hm : s'.mem = s.mem) (d : Nat) : s'.userMem d = s.userMem d := by
  funext va
  rw [Kernel.userMem, Kernel.userMem, Kernel.readByte, Kernel.readByte, translate_of_mem hm, hm]

/-- Without an upcall the environment is destroyed. -/
theorem pageFaultHandler_none (hcs : tf.tfCs &&& 3#32 = 3#32) (hc : s.curenv = some e)
    (hup : (s.envs e).envPgfaultUpcall = 0#32) :
    (pageFaultHandler tf).run s = (envDestroy e).run s := by
  have hkt : tf.tfCs ≠ gdKt := by
    intro hkt
    rw [hkt] at hcs
    exact absurd hcs (by decide)
  simp only [pageFaultHandler, run_bind_ok (EStateM.run_get s), if_neg hkt]
  rw [hc]
  simp only [derefEnv, run_bind_ok (EStateM.run_pure _ _), run_bind_ok (EStateM.run_get s),
    if_pos hup]

theorem Pushes.pushed (hp : Pushes s s' e d tf) (hfit : FrameFits tf.tfEsp) :
    Pushed s s' e d tf := by
  obtain ⟨⟨res, fl, h⟩, hc, hd, hlinked, hcr3, hcs, hsaved, hrun, henters⟩ := hp
  have hup : (s.envs e).envPgfaultUpcall ≠ 0#32 := fun hup => by
    rw [pageFaultHandler_none hcs hc hup] at hrun
    rcases h.envDestroy_other hc (live_of_dir hd) hrun with hne | hne
    · exact hne henters
    · exact hne rfl
  rw [pageFaultHandler_run hcs hc hup] at hrun
  obtain ⟨a, -, hrun⟩ := userMemAssert_enters h hc hd hrun henters
  have h' : Inv res fl (s.checkingAt a) := Peek.inv (rfl : Peek s (s.checkingAt a)) h
  rcases storeFrame_stored h' hd hcr3 hfit (.ofTrapframe tf s.cr2) with
    ⟨-, t, hfault⟩ | ⟨t, hok, hst, ⟨f, hf⟩, hframe, hother⟩
  · rw [run_bind_error hfault] at hrun
    cases hrun
  rw [run_bind_ok hok] at hrun
  have hct : t.curenv = some e := by
    rw [hst.only.curenv]
    exact hc
  have hdt : t.dir e = some d := (hst.dir e).trans hd
  obtain ⟨hg, hmem, htf⟩ := pageFaultTail_enters hst.inv hct hdt (exstack_page hfit).2 hrun henters
  rw [hst.grants hd (lt_utop_of_frame hfit rfl)] at hg
  refine ⟨?_, fun va hva need => ?_, fun n hn => ?_, ?_, fun va hva hout => ?_⟩
  · rw [htf, hst.only.envs, ← hsaved]
    rfl
  · rw [translate_of_mem hmem, hst.translate hd hva]
    rfl
  · exact frame_writable (s := s.checkingAt a) hd hlinked hfit hf hg hn
  · rw [userMem_of_mem hmem]
    exact hframe
  · rw [userMem_of_mem hmem, hother va hva hout]
    rfl

/-! ## A fault that is handled -/

theorem exstack_pgnum (h : FrameFits esp) :
    pgnum (exstack esp) = pgnum (uxstacktop - pgsize) := by
  have hpage := exstack_page h
  have hux : (uxstacktop - pgsize).toNat = 4005556224 := by decide
  rw [pgnum_eq, pgnum_eq, hux]
  omega

/-- A check of the current environment that passes. -/
theorem userMemAssert_passes {len perm : Word} (hd : (s.envs e).envPgdir = some d)
    (hpass : ∀ k, va.toNat + 4096 * k < (roundUp (va + len) pgsize).toNat →
      s.Passes d (perm ||| pteU ||| pteP) (BitVec.ofNat 32 (va.toNat + 4096 * k))) :
    ∃ t, (userMemAssert e va len perm).run s = .ok () t ∧ Peek s t := by
  obtain ⟨t, hrun⟩ := (userMemCheck_zero_iff hd).2 hpass
  refine ⟨t, ?_, (userMemCheck_peek _ _ _ _).of_ok hrun⟩
  rw [userMemAssert, run_bind_ok hrun]
  rfl

/-- Environment `e` is running a program that has an upcall and an exception stack. -/
structure Faultable (res : Nat → Prop) (fl : List Nat) (s : Kernel) (e : EnvIndex) (d : Nat) :
    Prop where
  run : Running res fl s e d
  status : (s.envs e).envStatus = .running
  upcall : (s.envs e).envPgfaultUpcall ≠ 0#32
  stack : s.leaf e (pdx uxstack) (ptx uxstack) ≠ none
  flags : s.entry e (pdx uxstack) (ptx uxstack) &&& (pteP ||| pteU ||| pteW) =
    pteP ||| pteU ||| pteW

namespace Faultable

theorem of_same (h : Faultable res fl s e d) (hrun : Running res fl s' e d)
    (hs : SameSpace s s' e) (hst : (s'.envs e).envStatus = .running)
    (hup : (s'.envs e).envPgfaultUpcall = (s.envs e).envPgfaultUpcall) :
    Faultable res fl s' e d where
  run := hrun
  status := hst
  upcall := hup ▸ h.upcall
  stack := (hs.leaf _ _).symm ▸ h.stack
  flags := (hs.entry _ _).symm ▸ h.flags

theorem peeked (h : Faultable res fl s e d) (hp : Peek s s') : Faultable res fl s' e d := by
  have hinv := Peek.inv hp h.run.inv
  obtain ⟨a, o, rfl⟩ := hp.exists_eq
  exact ⟨⟨hinv, h.run.current, h.run.dir, h.run.loaded, h.run.id, h.run.tables⟩, h.status, h.upcall,
    h.stack, h.flags⟩

theorem stored (h : Faultable res fl s e d) (hu : UserStores res fl s s') :
    Faultable res fl s' e d := by
  refine h.of_same (h.run.of_stores hu) (hu.sameSpace e) ?_ ?_
  · rw [hu.only.envs]
    exact h.status
  · rw [hu.only.envs]

theorem dispatched (h : Faultable res fl s e d) : Faultable res fl (s.dispatch e d) e d := by
  have ho := dispatch_handover (Or.inr ⟨h.run.current, h.status⟩) d
  have hs : SameSpace s (s.dispatch e d) e := .of_dir ho.mem ho.dir e
  have hself : (s.dispatch e d).envs e = s.dispatchedEnv e := Function.update_self _ _ _
  refine h.of_same ⟨h.run.inv.handover ho, dispatch_curenv s e d, (ho.dir e).trans h.run.dir,
    dispatch_cr3 s e d, ?_, hs.linked h.run.dir h.run.tables⟩ hs ?_ ?_
  · rw [hself]
    exact h.run.id
  · rw [hself]
    rfl
  · rw [hself]
    rfl

theorem entry_flags (h : Faultable res fl s e d) (hva : pgnum va = pgnum uxstack) {need : Word}
    (hneed : (pteP ||| pteU ||| pteW) &&& need = need) :
    s.entry e (pdx va) (ptx va) &&& need = need := by
  obtain ⟨hi, hj⟩ := pdx_ptx_of_pgnum hva
  rw [hi, hj, ← hneed, ← BitVec.and_assoc, h.flags]

theorem lt_utop (h : Faultable res fl s e d) (hva : pgnum va = pgnum uxstack) : va < utop := by
  obtain ⟨p, hp⟩ := Option.ne_none_iff_exists'.1 h.stack
  obtain ⟨t, ht, -⟩ := leaf_eq_some.1 hp
  exact (lt_utop_iff va).2 ((pdx_ptx_of_pgnum hva).1 ▸ (table_eq_some.1 ht).1)

theorem grants (h : Faultable res fl s e d) (hva : pgnum va = pgnum uxstack) {need : Word}
    (hneed : (pteP ||| pteU ||| pteW) &&& need = need) (hpos : need ≠ 0#32) :
    s.Grants d need va :=
  h.run.inv.grants_of_entry h.run.dir (h.lt_utop hva) (h.entry_flags hva hneed) hpos

/-- The exception stack can be used with any of a program's rights. -/
theorem mapped (h : Faultable res fl s e d) (hva : pgnum va = pgnum uxstack) {need : Word}
    (hneed : (pteP ||| pteU ||| pteW) &&& need = need) : s.translate d need va ≠ none := by
  obtain ⟨hi, hj⟩ := pdx_ptx_of_pgnum hva
  obtain ⟨p, hp⟩ := Option.ne_none_iff_exists'.1 h.stack
  rw [← hi, ← hj] at hp
  obtain ⟨t, ht, -⟩ := leaf_eq_some.1 hp
  have hpde : s.mem d (pdx va) &&& need = need := by
    rw [← hneed, ← BitVec.and_assoc, h.run.tables _ t ht]
  rw [translate_of_entry h.run.dir ht hpde (h.entry_flags hva hneed)
    ((leaf_eq_framed s e _ _).symm.trans hp)]
  simp

/-- It may write there. -/
theorem writable (h : Faultable res fl s e d) (hva : pgnum va = pgnum uxstack) :
    (s.userRights d).writable va = true :=
  Option.isSome_iff_ne_none.2 (h.mapped hva (by decide))

/-- The program traps: its registers are saved. -/
theorem trapped (h : Faultable res fl s e d) (tf : Trapframe) :
    Faultable res fl (s.setEnv e { s.envs e with envTf := tf }) e d := by
  obtain ⟨s', hs'⟩ : ∃ s', s' = s.setEnv e { s.envs e with envTf := tf } := ⟨_, rfl⟩
  rw [← hs']
  have hself : s'.envs e = { s.envs e with envTf := tf } := by
    rw [hs', setEnv_envs, Function.update_self]
  have hdir : ∀ x, s'.dir x = s.dir x := fun x => by
    by_cases hx : x = e
    · rw [hx, dir, dir, hself]
    · rw [dir, dir, hs', setEnv_envs, Function.update_of_ne hx]
  have hs : SameSpace s s' e := .of_dir (by rw [hs', setEnv_mem]) hdir e
  have hinv : Inv res fl s' := hs' ▸ h.run.inv.of_setEnv rfl rfl Iff.rfl
  refine h.of_same ⟨hinv, ?_, (hdir e).trans h.run.dir, ?_, ?_, hs.linked h.run.dir h.run.tables⟩ hs
    ?_ ?_
  · rw [hs']
    exact h.run.current
  · rw [hs']
    exact h.run.loaded
  · rw [hself]
    exact h.run.id
  · rw [hself]
    exact h.status
  · rw [hself]

/-- A fault reaches the upcall, and the program may fault again. -/
theorem enters (hf : Faultable res fl s e d) (hcs : tf.tfCs &&& 3#32 = 3#32)
    (hsaved : (s.envs e).envTf = tf) (hfit : FrameFits tf.tfEsp) :
    ∃ s', Pushes s s' e d tf ∧ Faultable res fl s' e d := by
  obtain ⟨h, hc, hd, hcr3, -, hl⟩ := hf.run
  have hup := hf.upcall
  have hpage := exstack_page hfit
  have hmapped : ∀ n < 52,
      s.translate d (pteP ||| pteW) (exstack tf.tfEsp + BitVec.ofNat 32 n) ≠ none := fun n hn =>
    hf.mapped ((frame_pgnum hfit hn).trans (exstack_pgnum hfit)) (by decide)
  obtain ⟨t, hpk, htop⟩ : ∃ t, Peek s t ∧
      (userMemAssert e (uxstacktop - 4#32) 4#32 0#32).run s = .ok () t := by
    rcases topCheck_run h hd with ⟨-, ht⟩ | ⟨hno, -⟩
    · exact ht
    · exact absurd (hf.grants (by decide) (by decide) (by decide)) hno
  have ht := Peek.inv hpk h
  have hpk₀ := hpk
  obtain ⟨a, o, rfl⟩ := hpk.exists_eq
  rcases storeFrame_stored ht hd hcr3 hfit (.ofTrapframe tf s.cr2) with
    ⟨⟨n, hn, hnone⟩, -⟩ | ⟨t, hok, hst, -⟩
  · exact absurd hnone (hmapped n hn)
  have henvs : t.envs = s.envs := hst.only.envs
  have hpass : ∀ k, (exstack tf.tfEsp).toNat + 4096 * k <
      (roundUp (exstack tf.tfEsp + utfSize) pgsize).toNat →
      t.Passes d (pteP ||| pteW ||| pteU ||| pteU ||| pteP)
        (BitVec.ofNat 32 ((exstack tf.tfEsp).toNat + 4096 * k)) := by
    intro k hk
    rw [roundUp_frame hpage.2] at hk
    obtain rfl : k = 0 := by omega
    rw [Nat.mul_zero, Nat.add_zero, BitVec.ofNat_toNat, BitVec.setWidth_eq]
    have hg : s.Grants d (pteP ||| pteW ||| pteU ||| pteU ||| pteP) (exstack tf.tfEsp) :=
      hf.grants (exstack_pgnum hfit) (by decide) (by decide)
    rw [grants_iff] at hg
    refine ⟨?_, (hst.grants hd (lt_utop_of_frame hfit rfl) _).2 ((grants_iff _).2 hg)⟩
    rw [BitVec.le_def, ulim_toNat]
    omega
  obtain ⟨t', hcheck, hpk'⟩ :=
    userMemAssert_passes (by rw [henvs]; exact envPgdir_of_dir hd) hpass
  have henvs' : t'.envs = s.envs := by rw [show t'.envs = t.envs by rw [hpk'], henvs]
  obtain ⟨u, hu⟩ : ∃ u, u = t'.setEnv e { t'.envs e with envTf := { (t'.envs e).envTf with
      tfEsp := exstack tf.tfEsp, tfEip := (t'.envs e).envPgfaultUpcall } } := ⟨_, rfl⟩
  have hself : (u.envs e).envPgdir = some d := by
    rw [hu, setEnv_envs, Function.update_self, henvs']
    exact envPgdir_of_dir hd
  have hrun : (pageFaultHandler tf).run s = .error .popTf (u.dispatch e d) := by
    rw [pageFaultHandler_run hcs hc hup, run_bind_ok htop, run_bind_ok hok, pageFaultTail,
      run_bind_ok hcheck, updateEnv, run_bind_ok (EStateM.run_modify _ _), ← hu, envRun_run hself]
  have hlast := (((hf.peeked hpk₀).stored hst).peeked hpk').trapped { (t'.envs e).envTf with
    tfEsp := exstack tf.tfEsp, tfEip := (t'.envs e).envPgfaultUpcall }
  rw [← hu] at hlast
  exact ⟨_, ⟨⟨res, fl, h⟩, hc, hd, hl, hcr3, hcs, hsaved, hrun, setCurenv_curenv _ _⟩,
    hlast.dispatched⟩

end Faultable

/-! ### An example -/

theorem oneStack_put : ∃ fl, PagePut oneEnvRes [3] (oneHandler.cleared 2) 0 1 (uxstacktop - pgsize)
    (pteP ||| pteU ||| pteW) 2 fl oneStack := by
  have hcur : oneHandler.curenv = some 0 := rfl
  have hself : oneHandler.resolve 0 0#32 = some 0 := rfl
  rcases oneHandler_inv.sysPageAlloc_put hcur hself (d := 1) rfl
    (show UserPage (uxstacktop - pgsize) by decide)
    (show PermOk (pteP ||| pteU ||| pteW) by decide) with
    ⟨-, -, -, hfull⟩ | ⟨pp, rest, fl, s', hfl, hrun, hput⟩
  · have hle := tablesFor_le oneHandler 0 (uxstacktop - pgsize)
    exact absurd (Nat.lt_of_lt_of_le hfull (Nat.add_le_add_left hle 1)) (by decide)
  · obtain ⟨rfl, rfl⟩ := List.cons.inj hfl
    have hs' : oneStack = s' := final_of_ok hrun
    rw [hs']
    exact ⟨fl, hput⟩

/-- The registers of a program that faults on its own stack. -/
def onStack : Trapframe := { Trapframe.zero with tfCs := 0x1b#32, tfEsp := ustacktop }

/-- A program that faults and has an exception stack. -/
def faultingOnce : Kernel := oneStack.setEnv 0 { oneStack.envs 0 with envTf := onStack }

theorem oneStack_faultable : ∃ fl, Faultable oneEnvRes fl oneStack 0 1 := by
  obtain ⟨fl, hput⟩ := oneStack_put
  have hmo := hput.inserted.edited.memOnly
  have hself : oneStack.envs 0 = oneHandler.envs 0 := by
    rw [hmo.envs]
    rfl
  have hl₀ : (oneHandler.cleared 2).Linked 0 1 := fun i t ht => by
    have hclear : (oneHandler.cleared 2).table 0 i = oneHandler.table 0 i :=
      congrFun oneHandler_inv.cleared.2.2.1 (.table 0 i)
    have hnone : oneEnv.table 0 i = none := oneEnv_target (.table 0 i)
    have heq : oneHandler.table 0 i = oneEnv.table 0 i := by simp [table, dir, oneHandler]
    rw [hclear, heq, hnone] at ht
    cases ht
  have hcr3 : oneStack.cr3 oneStack.cpunum = 1 := by
    rw [hmo.cr3]
    rfl
  have hput_entry : oneStack.entry 0 (pdx uxstack) (ptx uxstack) =
      page2pa 2 ||| pteP ||| (pteP ||| pteU ||| pteW) := hput.entry_self
  refine ⟨fl, ⟨hput.inv, ?_, dir_of_envs hmo.envs 0, hcr3, ?_, hput.linked rfl hl₀⟩, ?_, ?_, ?_, ?_⟩
  · rw [hmo.curenv]
    rfl
  · rw [hself]
    decide
  · rw [hself]
    decide
  · rw [hself]
    decide
  · rw [leaf_eq_framed, hput_entry, framed_entry (by decide) (by decide)]
    simp
  · rw [hput_entry]
    exact or_and_of_and _ (by decide)

theorem faultingOnce_pushes : ∃ fl s', Pushes faultingOnce s' 0 1 onStack ∧
    Faultable oneEnvRes fl s' 0 1 := by
  obtain ⟨fl, h⟩ := oneStack_faultable
  have hself : (faultingOnce.envs 0).envTf = onStack := by
    rw [faultingOnce, setEnv_envs, Function.update_self]
  obtain ⟨s', hpush, hs'⟩ := (h.trapped onStack).enters (by decide) hself (Or.inl (by decide))
  exact ⟨fl, s', hpush, hs'⟩

end Jos
