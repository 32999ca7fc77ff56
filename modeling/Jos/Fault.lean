import Jos.Act
import Jos.Alloc.Store
import Jos.Lib.Memory

/-!
# The user's exception stack

`page_fault_handler` stores a `struct UTrapframe` on the user's exception stack, at an address that
depends on the user's stack pointer.  It checks twice: that the top word of the exception stack is
readable before it stores, and that the frame is writable afterwards.

So the store is safe exactly when the first check fails, or the frame is writable anyway.  Otherwise
the store itself faults in the kernel, or it has happened when the second check fails.
-/

set_option autoImplicit false

namespace Jos

open Kernel Command

variable {res : Nat → Prop} {fl : List Nat} {s s' t : Kernel} {e : EnvIndex} {d : Nat}

/-! ## A sequence of stores -/

/-- The bytes of a word. -/
def wordBytes (va w : Word) : List (Word × Byte) :=
  [(va, w.setWidth 8), (va + 1#32, (w >>> 8).setWidth 8), (va + 2#32, (w >>> 16).setWidth 8),
    (va + 3#32, (w >>> 24).setWidth 8)]

theorem kstoreWord_eq (va w : Word) : kstoreWord va w = storeBytes (wordBytes va w) := by
  simp [kstoreWord, storeBytes, wordBytes]

/-- The bytes of a frame. -/
def frameBytes (utf : Word) (u : UTrapframe) : List (Word × Byte) :=
  u.words.zipIdx.flatMap fun x => wordBytes (utf + BitVec.ofNat 32 (4 * x.2)) x.1

/-- Storing a frame word by word is storing it byte by byte. -/
theorem storeFrame_eq (utf : Word) (l : List (Word × Nat)) :
    (l.forM fun x => kstoreWord (utf + BitVec.ofNat 32 (4 * x.2)) x.1) =
      storeBytes (l.flatMap fun x => wordBytes (utf + BitVec.ofNat 32 (4 * x.2)) x.1) := by
  induction l with
  | nil => rfl
  | cons x l ih =>
    rw [List.flatMap_cons, storeBytes_append, ← ih, ← kstoreWord_eq]
    rfl

theorem mem_wordBytes {va w : Word} {x : Word × Byte} (h : x ∈ wordBytes va w) :
    ∃ j < 4, x.1 = va + BitVec.ofNat 32 j := by
  simp only [wordBytes, List.mem_cons, List.not_mem_nil, or_false] at h
  rcases h with rfl | rfl | rfl | rfl
  · exact ⟨0, by decide, by simp⟩
  · exact ⟨1, by decide, rfl⟩
  · exact ⟨2, by decide, rfl⟩
  · exact ⟨3, by decide, rfl⟩

theorem wordBytes_byteOf (va w : Word) {j : Nat} (hj : j < 4) :
    (va + BitVec.ofNat 32 j, byteOf w j) ∈ wordBytes va w := by
  interval_cases j
  · simp [wordBytes, byteOf]
  · simp [wordBytes, byteOf]
  · simp [wordBytes, byteOf]
  · simp [wordBytes, byteOf]

theorem UTrapframe.length_words (u : UTrapframe) : u.words.length = 13 := rfl

/-- The bytes of a frame go to consecutive addresses, -/
theorem mem_frameBytes {utf : Word} {u : UTrapframe} {x : Word × Byte} (h : x ∈ frameBytes utf u) :
    ∃ n < 52, x.1 = utf + BitVec.ofNat 32 n := by
  obtain ⟨⟨w, k⟩, hk, hx⟩ := List.mem_flatMap.1 h
  obtain ⟨j, hj, hx⟩ := mem_wordBytes hx
  have hk13 : k < 13 := by
    have := (List.mem_zipIdx hk).2.1
    rw [UTrapframe.length_words] at this
    omega
  refine ⟨4 * k + j, by omega, ?_⟩
  rw [hx, BitVec.add_assoc, ← BitVec.ofNat_add]

/-- and to each of them. -/
theorem frameBytes_mem (utf : Word) (u : UTrapframe) {n : Nat} (hn : n < 52) :
    ∃ b, (utf + BitVec.ofNat 32 n, b) ∈ frameBytes utf u := by
  have hk : n / 4 < u.words.length := by
    rw [UTrapframe.length_words]
    omega
  have hb := wordBytes_byteOf (utf + BitVec.ofNat 32 (4 * (n / 4))) (u.words[n / 4])
    (Nat.mod_lt n (by decide : 4 > 0))
  refine ⟨byteOf u.words[n / 4] (n % 4), List.mem_flatMap.2 ⟨(u.words[n / 4], n / 4), ?_, ?_⟩⟩
  · exact List.mk_mem_zipIdx_iff_getElem?.2 (List.getElem?_eq_getElem hk)
  · rw [BitVec.add_assoc, ← BitVec.ofNat_add, Nat.div_add_mod] at hb
    exact hb

/-- The first of them is the lowest byte of the faulting address. -/
theorem frameBytes_head (utf : Word) (u : UTrapframe) : ∃ l,
    frameBytes utf u = (utf, u.utfFaultVa.setWidth 8) :: l ∧
      ∀ x ∈ l, ∃ n < 52, 0 < n ∧ x.1 = utf + BitVec.ofNat 32 n := by
  obtain ⟨ws, hws⟩ : ∃ ws, u.words = u.utfFaultVa :: ws := ⟨_, rfl⟩
  have hlen : ws.length = 12 := by
    have := u.length_words
    rw [hws, List.length_cons] at this
    omega
  refine ⟨(wordBytes utf u.utfFaultVa).tail ++ (ws.zipIdx 1).flatMap fun x =>
    wordBytes (utf + BitVec.ofNat 32 (4 * x.2)) x.1, ?_, fun x hx => ?_⟩
  · rw [frameBytes, hws, List.zipIdx_cons, List.flatMap_cons, Nat.mul_zero, BitVec.add_zero]
    rfl
  · rcases List.mem_append.1 hx with hx | hx
    · simp only [wordBytes, List.tail_cons]  at hx
      simp only [List.mem_cons, List.not_mem_nil, or_false] at hx
      rcases hx with rfl | rfl | rfl
      · exact ⟨1, by decide, by decide, rfl⟩
      · exact ⟨2, by decide, by decide, rfl⟩
      · exact ⟨3, by decide, by decide, rfl⟩
    · obtain ⟨⟨w, k⟩, hk, hx⟩ := List.mem_flatMap.1 hx
      obtain ⟨j, hj, hx⟩ := mem_wordBytes hx
      obtain ⟨hk1, hk2, -⟩ := List.mem_zipIdx hk
      refine ⟨4 * k + j, by omega, by omega, ?_⟩
      rw [hx, BitVec.add_assoc, ← BitVec.ofNat_add]

/-! ## The frame -/

/-- The frame lies in the exception stack, or overlaps the page below it. -/
theorem exstack_toNat (esp : Word) :
    (exstack esp).toNat + 52 ≤ utop.toNat ∧ utop.toNat ≤ (exstack esp).toNat + 4152 := by
  have htop : utop.toNat = 4005560320 := by decide
  rw [exstack, htop]
  split
  · rename_i h
    obtain ⟨hlo, hhi⟩ := h
    have hlo' : 4005556224 ≤ esp.toNat := hlo
    have hhi' : esp.toNat ≤ 4005560319 := hhi
    have heq : (esp - utfSize - 4#32).toNat = esp.toNat - 56 := by
      rw [utfSize]
      bv_omega
    omega
  · have heq : (uxstacktop - utfSize).toNat = 4005560268 := by decide
    omega

theorem frame_lt_utop (esp : Word) {n : Nat} (hn : n < 52) :
    exstack esp + BitVec.ofNat 32 n < utop := by
  have hle := (exstack_toNat esp).1
  have htop : utop.toNat = 4005560320 := by decide
  rw [BitVec.lt_def, BitVec.toNat_add, BitVec.toNat_ofNat]
  omega

/-- Two bytes of the frame are at different offsets in their pages. -/
theorem frame_pgoff_ne (va : Word) {n : Nat} (hn : n < 52) (hpos : 0 < n) :
    pgoff (va + BitVec.ofNat 32 n) ≠ pgoff va := by
  rw [pgoff_eq, pgoff_eq, BitVec.toNat_add, BitVec.toNat_ofNat]
  omega

/-- **Storing the frame**: the kernel faults, or the whole frame is stored, in user pages, and its
first byte is that of the faulting address. -/
theorem storeFrame_run (h : Inv res fl s) (hd : s.dir e = some d) (hcr3 : s.cr3 s.cpunum = d)
    (esp : Word) (u : UTrapframe) :
    (∃ s', (storeBytes (frameBytes (exstack esp) u)).run s =
      .error (.panic "Page fault in kernel") s') ∨
    ∃ s' f, (storeBytes (frameBytes (exstack esp) u)).run s = .ok () s' ∧ UserStores res fl s s' ∧
      s.leaf e (pdx (exstack esp)) (ptx (exstack esp)) = some f ∧
      byteAt (s'.mem f) (pgoff (exstack esp)) = u.utfFaultVa.setWidth 8 := by
  obtain ⟨l, hl, hrest⟩ := frameBytes_head (exstack esp) u
  have hlt : exstack esp < utop := by simpa using frame_lt_utop esp (n := 0) (by decide)
  have hcons : storeBytes (frameBytes (exstack esp) u) =
      (do kstoreByte (exstack esp) (u.utfFaultVa.setWidth 8); storeBytes l) := by
    rw [hl]
    rfl
  rw [hcons]
  cases htr : s.translate d (pteP ||| pteW) (exstack esp) with
  | none =>
    refine Or.inl ⟨s, ?_⟩
    rw [run_bind_error (kstoreByte_fault (by rw [hcr3]; exact htr) _)]
  | some fo =>
    obtain ⟨f, o⟩ := fo
    obtain rfl := translate_offset htr
    have hleaf := leaf_of_translate hd hlt htr
    generalize hpg : setByte (s.mem f) (pgoff (exstack esp)) (u.utfFaultVa.setWidth 8) = pg
    have hst := UserStores.fill h hleaf pg
    have hrun : (kstoreByte (exstack esp) (u.utfFaultVa.setWidth 8)).run s =
        .ok () (s.fill f pg) := by
      rw [← hpg]
      exact kstoreByte_run (by rw [hcr3]; exact htr) _
    rw [run_bind_ok hrun]
    have hl' : ∀ x ∈ l, x.1 < utop := by
      intro x hx
      obtain ⟨n, hn, -, hx⟩ := hrest x hx
      rw [hx]
      exact frame_lt_utop esp hn
    rcases storeBytes_run (s := s.fill f pg) hd hl' hst.inv hcr3 with
      ⟨-, s', hr⟩ | ⟨-, s', hr, hst', hbytes⟩
    · exact Or.inl ⟨s', hr⟩
    · refine Or.inr ⟨s', f, hr, hst.trans hst', hleaf, ?_⟩
      rw [hbytes f _ (by rw [pgoff_eq]; exact Nat.mod_lt _ (by decide)) fun x hx heq => ?_,
        fill_mem_self, ← hpg, byteAt_setByte_self]
      -- the other bytes have other offsets
      obtain ⟨n, hn, hpos, hx⟩ := hrest x hx
      have hoff := translate_offset heq
      rw [hx] at hoff
      exact frame_pgoff_ne _ hn hpos hoff.symm

/-! ## The end of the environment -/

/-- `env_destroy` of the current environment leaves the kernel, and writes to page directories and
page tables only. -/
theorem Inv.envDestroy_leaves (h : Inv res fl s) (hc : s.curenv = some e)
    (hlive : (s.envs e).envStatus ≠ .free) : ∃ x s', (envDestroy e).run s = .error x s' ∧
      ¬ x.IsPanic ∧ ∀ p, (∀ k : Slot, k.IsNode → s.target k ≠ some p) → s'.mem p = s.mem p := by
  obtain ⟨t, fl', hfree, hinv, -, -, hmem⟩ := h.envFree_run hlive
  obtain ⟨x, s', hy, hl⟩ := schedYield_leaves (s := t.setCurenv none) hinv.live_dir
  refine ⟨x, s', ?_, ?_, fun p hp => ?_⟩
  · rw [envDestroy_current hc, run_bind_ok hfree, run_bind_ok (EStateM.run_modify _ _), hy]
  · cases hl with
    | run => exact id
    | halt => exact id
    | monitor => exact id
  · rw [hl.handover.mem]
    exact hmem p hp

/-! ## The two checks -/

-- so that nothing is tempted to run its loop
attribute [local irreducible] userMemCheck

/-- The first check: the top word of the exception stack is readable, or the environment ends. -/
theorem topCheck_run (h : Inv res fl s) (hd : s.dir e = some d) :
    (s.Grants d (pteP ||| pteU) (uxstacktop - 4#32) ∧
      ∃ t, Peek s t ∧ (userMemAssert e (uxstacktop - 4#32) 4#32 0#32).run s = .ok () t) ∨
    (¬ s.Grants d (pteP ||| pteU) (uxstacktop - 4#32) ∧
      ∃ t, Peek s t ∧ (userMemAssert e (uxstacktop - 4#32) 4#32 0#32).run s =
        (envDestroy e).run t) := by
  have hpgdir := envPgdir_of_dir hd
  have hperm : 0#32 ||| pteU ||| pteP = pteP ||| pteU := by decide
  by_cases hg : s.Grants d (pteP ||| pteU) (uxstacktop - 4#32)
  · have hzero : ∃ t, (userMemCheck e (uxstacktop - 4#32) 4#32 (0#32 ||| pteU)).run s =
        .ok 0#32 t := by
      refine (userMemCheck_zero_iff hpgdir).2 fun k hk => ?_
      have hend : (roundUp (uxstacktop - 4#32 + 4#32) pgsize).toNat = 4005560320 := by decide
      have hva : (uxstacktop - 4#32).toNat = 4005560316 := by decide
      rw [hend, hva] at hk
      obtain rfl : k = 0 := by omega
      rw [hperm, Nat.mul_zero, Nat.add_zero, BitVec.ofNat_toNat, BitVec.setWidth_eq]
      exact ⟨by decide, hg⟩
    obtain ⟨t, hrun⟩ := hzero
    refine Or.inl ⟨hg, t, (userMemCheck_peek _ _ _ _).of_ok hrun, ?_⟩
    rw [userMemAssert, run_bind_ok hrun]
    rfl
  · have hfail : (userMemCheck e (uxstacktop - 4#32) 4#32 (0#32 ||| pteU)).run s =
        .ok (-eFault) (s.checkingAt (uxstacktop - 4#32)) := by
      refine userMemCheck_fail hpgdir (by decide) (fun t ht => ?_)
        (by rw [hperm]; exact fun hp => hg hp.2)
      have htab : s.table e (pdx (uxstacktop - 4#32)) = some t :=
        (table_of_dir hd (by decide)).trans ht
      exact h.target_lt (k := .table e _) htab
    refine Or.inr ⟨hg, _, (userMemCheck_peek _ _ _ _).of_ok hfail, ?_⟩
    rw [userMemAssert, run_bind_ok hfail, if_pos (by decide)]

/-- What follows the store: the second check, and the upcall.  It keeps user memory. -/
def pageFaultTail (e : EnvIndex) (utf : Word) : KernelM Unit := do
  userMemAssert e utf utfSize (pteP ||| pteW ||| pteU)
  updateEnv e fun env =>
    { env with envTf := { env.envTf with tfEsp := utf, tfEip := env.envPgfaultUpcall } }
  envRun e

theorem pageFaultTail_mem (h : Inv res fl s) (hc : s.curenv = some e)
    (hlive : (s.envs e).envStatus ≠ .free) (utf : Word) {p : Nat}
    (hp : ∀ k : Slot, k.IsNode → s.target k ≠ some p) :
    (final (pageFaultTail e utf) s).mem p = s.mem p := by
  have hpeek := userMemCheck_peek e utf utfSize (pteP ||| pteW ||| pteU ||| pteU)
  cases hr : (userMemCheck e utf utfSize (pteP ||| pteW ||| pteU ||| pteU)).run s with
  | error x t =>
    have hmem : t.mem = s.mem := by rw [hpeek.of_error hr]
    have hrun : (pageFaultTail e utf).run s = .error x t := by
      rw [pageFaultTail, userMemAssert, bind_assoc, run_bind_error hr]
    rw [final_of_error hrun, hmem]
  | ok r t =>
    have hpk := hpeek.of_ok hr
    have hinv := Peek.inv hpk h
    obtain ⟨a, o, rfl⟩ := hpk.exists_eq
    by_cases hneg : r.toInt < 0
    · obtain ⟨x, s', hdes, -, hmem⟩ := hinv.envDestroy_leaves hc hlive
      have hrun : (pageFaultTail e utf).run s = .error x s' := by
        rw [pageFaultTail, userMemAssert, bind_assoc, run_bind_ok hr, if_pos hneg,
          run_bind_error hdes]
      rw [final_of_error hrun]
      exact hmem p hp
    · obtain ⟨d, hd⟩ := h.live_dir e hlive
      obtain ⟨t', ht'⟩ : ∃ t', t' = Kernel.setEnv
          { s with userMemCheckAddr := a, consOut := o } e
          { s.envs e with envTf := { (s.envs e).envTf with
            tfEsp := utf, tfEip := (s.envs e).envPgfaultUpcall } } := ⟨_, rfl⟩
      have hd' : (t'.envs e).envPgdir = some d := by
        rw [ht', setEnv_envs, Function.update_self]
        exact hd
      have hrun : (pageFaultTail e utf).run s = .error .popTf (t'.dispatch e d) := by
        rw [pageFaultTail, userMemAssert, bind_assoc, run_bind_ok hr, if_neg hneg,
          run_bind_ok (EStateM.run_pure _ _), updateEnv, run_bind_ok (EStateM.run_modify _ _),
          ← envRun_run hd', ht']
      have hmem : (t'.dispatch e d).mem = s.mem := by
        rw [ht']
        rfl
      rw [final_of_error hrun, hmem]

/-! ## When the frame is stored safely -/

/-- Every byte of the frame is mapped for the user to write. -/
def Kernel.FrameWritable (s : Kernel) (d : Nat) (esp : Word) : Prop :=
  ∀ n < 52, s.translate d (pteP ||| pteU ||| pteW) (exstack esp + BitVec.ofNat 32 n) ≠ none

/-- `page_fault_handler` stores the frame only where the user may write; otherwise it does nothing
but check, and destroy the environment. -/
def Kernel.StoresSafely (s : Kernel) (e : EnvIndex) (d : Nat) (tf : Trapframe) : Prop :=
  s.FrameWritable d tf.tfEsp ∨ ∃ t, Peek s t ∧ (pageFaultHandler tf).run s = (envDestroy e).run t

/-- The part of `page_fault_handler` for a fault in user mode with an upcall. -/
theorem pageFaultHandler_run {tf : Trapframe} (hcs : tf.tfCs &&& 3#32 = 3#32)
    (hc : s.curenv = some e) (hup : (s.envs e).envPgfaultUpcall ≠ 0#32) :
    (pageFaultHandler tf).run s = EStateM.run (do
      userMemAssert e (uxstacktop - 4#32) 4#32 0#32
      storeBytes (frameBytes (exstack tf.tfEsp) (.ofTrapframe tf s.cr2))
      pageFaultTail e (exstack tf.tfEsp)) s := by
  have hkt : tf.tfCs ≠ gdKt := by
    intro hkt
    rw [hkt] at hcs
    exact absurd hcs (by decide)
  rw [frameBytes, ← storeFrame_eq]
  simp only [pageFaultHandler, run_bind_ok (EStateM.run_get s), if_neg hkt]
  rw [hc]
  simp only [derefEnv, run_bind_ok (EStateM.run_pure _ _), run_bind_ok (EStateM.run_get s),
    if_neg hup]
  rfl

/-- If the first check fails, the environment is destroyed before anything is stored. -/
theorem pageFaultHandler_destroys {tf : Trapframe} (h : Inv res fl s)
    (hcs : tf.tfCs &&& 3#32 = 3#32) (hc : s.curenv = some e) (hd : s.dir e = some d)
    (hup : (s.envs e).envPgfaultUpcall ≠ 0#32)
    (hno : ¬ s.Grants d (pteP ||| pteU) (uxstacktop - 4#32)) :
    ∃ t, Peek s t ∧ (pageFaultHandler tf).run s = (envDestroy e).run t := by
  rcases topCheck_run h hd with ⟨hg, -⟩ | ⟨-, t, hpk, hrun⟩
  · exact absurd hg hno
  refine ⟨t, hpk, ?_⟩
  have ht := Peek.inv hpk h
  obtain ⟨a, o, rfl⟩ := hpk.exists_eq
  obtain ⟨x, s', hdes, -⟩ := ht.envDestroy_leaves hc (live_of_dir hd)
  rw [pageFaultHandler_run hcs hc hup, run_bind_error (hrun.trans hdes), hdes]

/-- If it passes, the kernel faults, or the frame is stored and stays. -/
theorem pageFaultHandler_stores {tf : Trapframe} (h : Inv res fl s)
    (hcs : tf.tfCs &&& 3#32 = 3#32) (hc : s.curenv = some e) (hd : s.dir e = some d)
    (hcr3 : s.cr3 s.cpunum = d) (hup : (s.envs e).envPgfaultUpcall ≠ 0#32)
    (hg : s.Grants d (pteP ||| pteU) (uxstacktop - 4#32)) :
    (∃ s', (pageFaultHandler tf).run s = .error (.panic "Page fault in kernel") s') ∨
    ∃ f, s.leaf e (pdx (exstack tf.tfEsp)) (ptx (exstack tf.tfEsp)) = some f ∧
      byteAt ((final (pageFaultHandler tf) s).mem f) (pgoff (exstack tf.tfEsp)) =
        s.cr2.setWidth 8 := by
  rw [final, pageFaultHandler_run hcs hc hup]
  rcases topCheck_run h hd with ⟨-, t, hpk, hrun⟩ | ⟨hno, -⟩
  · rw [run_bind_ok hrun]
    have ht := Peek.inv hpk h
    obtain ⟨a, o, rfl⟩ := hpk.exists_eq
    rcases storeFrame_run ht hd hcr3 tf.tfEsp (.ofTrapframe tf s.cr2) with
      ⟨s', hfault⟩ | ⟨s', f, hok, hst, hleaf, hbyte⟩
    · refine Or.inl ⟨s', ?_⟩
      rw [run_bind_error hfault]
    · refine Or.inr ⟨f, hleaf, ?_⟩
      have hnode : ∀ k : Slot, k.IsNode → s'.target k ≠ some f := by
        intro k hk hf
        rw [hst.target] at hf
        have := h.ok.node_unique k f hk hf (.page e _ _) hleaf
        rw [← this] at hk
        exact hk
      have hmem := pageFaultTail_mem hst.inv (by rw [hst.only.curenv]; exact hc)
        (by rw [hst.only.envs]; exact live_of_dir hd) (exstack tf.tfEsp) hnode
      rw [run_bind_ok hok]
      rw [final] at hmem
      rw [hmem, hbyte]
      rfl
  · exact absurd hg hno

/-- **When the frame is stored safely.**  Whatever the faulting address and the registers other
than the stack pointer, `page_fault_handler` stores the frame only where the user may write exactly
when the top word of the exception stack is not readable, so that the environment is destroyed
before anything is stored, or the whole frame is writable. -/
theorem storesSafely_iff (h : Inv res fl s) (hc : s.curenv = some e)
    (hlive : (s.envs e).envStatus ≠ .free) (hd : (s.envs e).envPgdir = some d)
    (hcr3 : s.cr3 s.cpunum = d) (hup : (s.envs e).envPgfaultUpcall ≠ 0#32) (esp : Word) :
    (∀ (tf : Trapframe) (faultVa : Word), tf.tfCs &&& 3#32 = 3#32 → tf.tfEsp = esp →
      Kernel.StoresSafely { s with cr2 := faultVa } e d tf) ↔
      ¬ s.Grants d (pteP ||| pteU) (uxstacktop - 4#32) ∨ s.FrameWritable d esp := by
  have hdir : s.dir e = some d := by rw [dir, if_neg hlive, hd]
  have hinv : ∀ va, Inv res fl { s with cr2 := va } := fun va =>
    h.of_mem rfl rfl rfl rfl rfl h.chain h.ok
  have hgrants : ∀ va, Kernel.Grants { s with cr2 := va } d (pteP ||| pteU) (uxstacktop - 4#32) ↔
      s.Grants d (pteP ||| pteU) (uxstacktop - 4#32) := fun va => by rw [grants_iff, grants_iff]
  constructor
  · intro hall
    by_contra hno
    simp only [not_or, not_not] at hno
    obtain ⟨hg, hw⟩ := hno
    -- a faulting address whose first byte is not in memory yet
    obtain ⟨va, hva⟩ : ∃ va : Word, ∀ f, s.leaf e (pdx (exstack esp)) (ptx (exstack esp)) = some f →
        byteAt (s.mem f) (pgoff (exstack esp)) ≠ va.setWidth 8 := by
      cases s.leaf e (pdx (exstack esp)) (ptx (exstack esp)) with
      | none => exact ⟨0#32, by simp⟩
      | some f =>
        refine ⟨(byteAt (s.mem f) (pgoff (exstack esp)) + 1#8).setWidth 32, fun f' hf' => ?_⟩
        obtain rfl := Option.some_inj.1 hf'
        generalize byteAt (s.mem f) (pgoff (exstack esp)) = b
        rw [BitVec.setWidth_setWidth_of_le _ (by decide), BitVec.setWidth_eq]
        bv_omega
    obtain ⟨tf, hcs, hesp⟩ : ∃ tf : Trapframe, tf.tfCs &&& 3#32 = 3#32 ∧ tf.tfEsp = esp :=
      ⟨{ (s.envs e).envTf with tfCs := 3#32, tfEsp := esp }, by simp, rfl⟩
    rcases hall tf va hcs hesp with hsafe | ⟨t, hpk, hrun⟩
    · rw [hesp] at hsafe
      exact hw hsafe
    have ht := Peek.inv hpk (hinv va)
    obtain ⟨a, o, rfl⟩ := hpk.exists_eq
    obtain ⟨x, s', hdes, hx, hkept⟩ := ht.envDestroy_leaves hc hlive
    rcases pageFaultHandler_stores (hinv va) hcs hc hdir hcr3 hup
      ((hgrants va).2 hg) with
      ⟨s'', hpanic⟩ | ⟨f, hleaf, hbyte⟩
    · have hxs := hpanic.symm.trans (hrun.trans hdes)
      cases hxs
      exact hx trivial
    · rw [final_of_error (hrun.trans hdes), hkept f fun k hk hf => ?_, hesp] at hbyte
      · exact hva f (hesp ▸ hleaf) hbyte
      · have := h.ok.node_unique k f hk hf (.page e _ _) hleaf
        rw [← this] at hk
        exact hk
  · rintro (hg | hw) tf faultVa hcs rfl
    · exact Or.inr (pageFaultHandler_destroys (hinv faultVa) hcs hc hdir hup fun hp =>
        hg ((hgrants faultVa).1 hp))
    · exact Or.inl hw

/-- One running environment with a page fault upcall, which has mapped nothing yet. -/
def oneHandler : Kernel := oneEnv.setEnv 0 { oneEnv.envs 0 with envPgfaultUpcall := utext }

theorem oneHandler_inv : Inv oneEnvRes [2, 3] oneHandler := by
  refine oneEnv_inv.of_envs rfl rfl rfl rfl rfl rfl (fun e => ?_) (fun e => ?_) fun e => ?_
  all_goals
    rw [oneHandler, setEnv_envs]
    by_cases he : e = 0
    · subst he
      rw [Function.update_self]
    · rw [Function.update_of_ne he]

/-- An environment without an exception stack is destroyed. -/
theorem storesSafely_iff_oneHandler : Inv oneEnvRes [2, 3] oneHandler ∧
    oneHandler.curenv = some 0 ∧ (oneHandler.envs 0).envStatus ≠ .free ∧
    (oneHandler.envs 0).envPgdir = some 1 ∧ oneHandler.cr3 oneHandler.cpunum = 1 ∧
    (oneHandler.envs 0).envPgfaultUpcall ≠ 0#32 ∧
    ∀ (tf : Trapframe) (faultVa : Word), tf.tfCs &&& 3#32 = 3#32 → tf.tfEsp = ustacktop →
      Kernel.StoresSafely { oneHandler with cr2 := faultVa } 0 1 tf := by
  refine ⟨oneHandler_inv, rfl, by decide, rfl, rfl, by decide, ?_⟩
  refine (storesSafely_iff oneHandler_inv rfl (by decide) rfl rfl (by decide) ustacktop).2 ?_
  refine Or.inl fun hg => ?_
  rw [grants_iff] at hg
  obtain ⟨t, ht, -⟩ := hg
  have hnone : framed (oneHandler.mem 1 (pdx (uxstacktop - 4#32))) = none := by decide
  exact absurd (hnone.symm.trans ht) (by simp)

theorem oneHandler_entry (i j : Index) : oneHandler.entry 0 i j = 0#32 := by
  refine entry_of_none ?_ j
  have heq : oneHandler.table 0 i = oneEnv.table 0 i := by simp [table, dir, oneHandler]
  rw [heq]
  exact oneEnv_target (.table 0 i)

/-- It has allocated a page for its exception stack. -/
def oneStack : Kernel :=
  final (sysPageAlloc 0#32 (uxstacktop - pgsize) (pteP ||| pteU ||| pteW)) oneHandler

/-- The registers when the upcall has used up its stack. -/
def overflowing : Trapframe :=
  { Trapframe.zero with tfCs := 0x1b#32, tfEsp := uxstacktop - pgsize }

/-- The frame of an environment that faults with its exception stack used up goes to the page
below, which is not mapped: the kernel itself faults. -/
theorem not_storesSafely_overflowing : ∃ fl d, Inv oneEnvRes fl oneStack ∧
    oneStack.curenv = some 0 ∧ (oneStack.envs 0).envStatus = .running ∧
    (oneStack.envs 0).envPgdir = some d ∧ oneStack.cr3 oneStack.cpunum = d ∧
    (oneStack.envs 0).envPgfaultUpcall ≠ 0#32 ∧ overflowing.tfCs &&& 3#32 = 3#32 ∧
    ¬ oneStack.StoresSafely 0 d overflowing ∧
    ∃ s', (pageFaultHandler overflowing).run oneStack =
      .error (.panic "Page fault in kernel") s' := by
  have hcur : oneHandler.curenv = some 0 := rfl
  obtain ⟨r, s', hrun, hspec⟩ := oneHandler_inv.sysPageAlloc_spec hcur (by decide) 0#32
    (uxstacktop - pgsize) (pteP ||| pteU ||| pteW)
  have hself : oneHandler.resolve 0 0#32 = some 0 := rfl
  have hs' : oneStack = s' := final_of_ok hrun
  rw [hs']
  rcases hspec with ⟨-, -, hwhy⟩ | ⟨-, e', pp, hr, -, -, hpa⟩
  · rcases hwhy with hwhy | hwhy | hwhy | hwhy
    · exact absurd (hself.symm.trans hwhy) (by simp)
    · exact absurd (by decide) hwhy
    · exact absurd (by decide) hwhy
    · obtain ⟨e', -, hfull⟩ := hwhy
      have hle := tablesFor_le oneHandler e' (uxstacktop - pgsize)
      exact absurd (Nat.lt_of_lt_of_le hfull (Nat.add_le_add_left hle 1)) (by decide)
  obtain rfl : 0 = e' := Option.some_inj.1 (hself.symm.trans hr)
  obtain ⟨fl', hinv, -⟩ := hpa.inv
  have hmo := hpa.edited.memOnly
  have hc : s'.curenv = some 0 := by
    rw [hmo.curenv]
    rfl
  have hst : (s'.envs 0).envStatus = .running := by
    rw [hmo.envs]
    rfl
  have hpg : (s'.envs 0).envPgdir = some 1 := by
    rw [hmo.envs]
    rfl
  have hcr3 : s'.cr3 s'.cpunum = 1 := by
    obtain ⟨m, pg, f, tl, ad, o, rfl⟩ := hmo.exists_eq
    rfl
  have hup : (s'.envs 0).envPgfaultUpcall ≠ 0#32 := by
    rw [hmo.envs]
    decide
  have hdir : s'.dir 0 = some 1 := by
    rw [dir, if_neg (by rw [hst]; decide), hpg]
  have hcs : overflowing.tfCs &&& 3#32 = 3#32 := by decide
  -- the page of the frame is not mapped
  have hleaf : s'.leaf 0 (pdx (exstack overflowing.tfEsp)) (ptx (exstack overflowing.tfEsp)) =
      none := by
    have hne : ptx (exstack overflowing.tfEsp) ≠ ptx (uxstacktop - pgsize) := by decide
    rw [leaf_eq_framed, hpa.edited.entry, setEntry, if_neg fun h => hne h.2.2, oneHandler_entry]
    rfl
  have hg : s'.Grants 1 (pteP ||| pteU) (uxstacktop - 4#32) := by
    have hentry : s'.entry 0 (pdx (uxstacktop - 4#32)) (ptx (uxstacktop - 4#32)) =
        page2pa pp ||| pteP ||| (pteP ||| pteU ||| pteW) := by
      rw [hpa.edited.entry, setEntry, if_pos ⟨rfl, by decide, by decide⟩]
    refine hinv.grants_of_entry hdir (by decide) ?_ ?_
    · rw [hentry, BitVec.or_assoc]
      exact or_and_of_and _ (by decide)
    · decide
  have hpanic : ∃ s'', (pageFaultHandler overflowing).run s' =
      .error (.panic "Page fault in kernel") s'' := by
    rcases pageFaultHandler_stores hinv hcs hc hdir hcr3 hup hg with hp | ⟨f, hf, -⟩
    · exact hp
    · exact absurd (hleaf.symm.trans hf) (by simp)
  refine ⟨fl', 1, hinv, hc, hst, hpg, hcr3, hup, hcs, ?_, hpanic⟩
  rintro (hw | ⟨t, hpk, hdes⟩)
  · have hnone : s'.translate 1 (pteP ||| pteU ||| pteW) (exstack overflowing.tfEsp) = none := by
      cases htr : s'.translate 1 (pteP ||| pteU ||| pteW) (exstack overflowing.tfEsp) with
      | none => rfl
      | some fo =>
        have hf := leaf_of_translate hdir (by decide) htr
        exact absurd (hleaf.symm.trans hf) (by simp)
    exact hw 0 (by decide) (by simpa using hnone)
  · have ht := Peek.inv hpk hinv
    obtain ⟨a, o, rfl⟩ := hpk.exists_eq
    obtain ⟨x, u, hleaves, hx, -⟩ := ht.envDestroy_leaves hc (by rw [hst]; decide)
    obtain ⟨s'', hpanic⟩ := hpanic
    cases hpanic.symm.trans (hdes.trans hleaves)
    exact hx trivial

end Jos
