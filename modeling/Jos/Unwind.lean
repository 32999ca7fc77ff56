import Mathlib.Logic.Relation
import Jos.Fault.Push

/-!
# Faults within faults

A program that handles its page faults may fault again while it does, to any depth.  Every fault
pushes a frame below the frames of the faults before it, and leaves a word between for the return
address; every return of a handler takes the last frame away.  A run is a sequence of such steps,
with any other code of the program between them that leaves the last frame, and what is above it on
the exception stack, intact.

`Faulting.Ok` says that the frames of all pending faults are in place.  Every step keeps it, and so
`upcall_unwinds` holds in every state of every run: the frames and the scratch words are pairwise
disjoint, and returning from the last fault restores its trap-time registers.
-/

set_option autoImplicit false

namespace Jos

open Kernel X86

/-! ## The runs of a program -/

/-- A program: its registers and its memory, what it may access, and the trap-time registers of the
faults that it is handling, the last one first. -/
structure Faulting where
  ctx : Context
  rights : Rights
  pending : List Regs

/-- The stack pointers at which the next fault may happen: while a fault is being handled, those in
the exception stack, below the frame of that fault. -/
def RoomFor : List Regs → Word → Prop
  | [], esp => FrameFits esp
  | r :: _, esp => uxstacktop - pgsize + 56#32 ≤ esp ∧ esp ≤ exstack r.esp

/-- What a handler leaves intact: the frame of the last fault, and the exception stack above it. -/
def Guarded : List Regs → Word → Prop
  | [], _ => False
  | r :: _, a => exstack r.esp ≤ a ∧ a < uxstacktop

/-- **A program that handles its page faults**; `_pgfault_handler` is at `handlerVar`, and `back` is
where it returns to. -/
inductive Faulting.Step (handlerVar back : Word) : Faulting → Faulting → Prop where
  /-- The program faults, and the kernel enters `_pgfault_upcall`. -/
  | fault {s s' : Kernel} {e : EnvIndex} {d : Nat} {tf : Trapframe} {pending : List Regs}
      (push : Pushes s s' e d tf) (room : RoomFor pending tf.tfEsp) :
      Step handlerVar back ⟨⟨tf.userRegs, s.userMem d⟩, s.userRights d, pending⟩
        ⟨⟨(s'.envs e).envTf.userRegs, s'.userMem d⟩, s'.userRights d, tf.userRegs :: pending⟩
  /-- `_pgfault_upcall` calls the handler. -/
  | call {c c' : Context} {rights : Rights} {r : Regs} {rest : List Regs}
      (esp : c.regs.esp = exstack r.esp) (arg : rights.Word (c.regs.esp - 4#32))
      (ret : rights.Word (c.regs.esp - 8#32)) (var : rights.Word handlerVar)
      (run : run rights (upcallCall handlerVar back) c = some c') :
      Step handlerVar back ⟨c, rights, r :: rest⟩ ⟨c', rights, r :: rest⟩
  /-- Other code of the program: while a fault is being handled, that of the handler. -/
  | code {c c' : Context} {rights rights' : Rights} {pending : List Regs}
      (mem : ∀ a, Guarded pending a → c'.mem a = c.mem a)
      (keeps : ∀ a, Guarded pending a → rights'.writable a = rights.writable a) :
      Step handlerVar back ⟨c, rights, pending⟩ ⟨c', rights', pending⟩
  /-- The handler has returned, and `_pgfault_upcall` goes back to where the fault happened. -/
  | back {c c' : Context} {rights : Rights} {r : Regs} {rest : List Regs} (eip : c.regs.eip = back)
      (esp : c.regs.esp = exstack r.esp - 4#32) (word : rights.Word (r.esp - 4#32))
      (run : run rights upcallReturn c = some c') :
      Step handlerVar back ⟨c, rights, r :: rest⟩ ⟨c', rights, rest⟩

/-! ### Where the frames are -/

/-- Every fault has happened where there was room for it. -/
def Stacked : List Regs → Prop
  | [] => True
  | r :: rest => RoomFor rest r.esp ∧ Stacked rest

section

variable {r r' : Regs} {rest : List Regs}

theorem Stacked.fits (h : Stacked (r :: rest)) : FrameFits r.esp := by
  induction rest generalizing r with
  | nil => exact h.1
  | cons r' rest ih =>
    obtain ⟨⟨hlo, hhi⟩, hrest⟩ := h
    refine Or.inr ⟨hlo, ?_⟩
    have hpage := exstack_page (ih hrest)
    have hhi' : r.esp.toNat ≤ (exstack r'.esp).toNat := hhi
    show r.esp.toNat ≤ 4005560319
    omega

theorem Stacked.fits_of_mem (h : Stacked rest) (hr : r ∈ rest) : FrameFits r.esp := by
  induction rest with
  | nil => cases hr
  | cons r' rest ih =>
    rcases List.mem_cons.1 hr with rfl | hr
    · exact h.fits
    · exact ih h.2 hr

/-- A fault while others are being handled is on the exception stack, -/
theorem Stacked.inside (h : Stacked (r :: r' :: rest)) :
    4005556280 ≤ r.esp.toNat ∧ (exstack r.esp).toNat + 56 = r.esp.toNat := by
  have hlo : 4005556280 ≤ r.esp.toNat := h.1.1
  rcases exstack_cases h.fits with ⟨-, hout, -⟩ | ⟨-, -, heq⟩
  · omega
  · exact ⟨hlo, heq⟩

/-- below their frames. -/
theorem Stacked.below (h : Stacked (r :: rest)) (hr : r' ∈ rest) :
    4005556280 ≤ r.esp.toNat ∧ (exstack r.esp).toNat + 56 = r.esp.toNat ∧
      r.esp.toNat ≤ (exstack r'.esp).toNat := by
  induction rest generalizing r with
  | nil => cases hr
  | cons r₁ rest ih =>
    obtain ⟨hlo, heq⟩ := h.inside
    have hle : r.esp.toNat ≤ (exstack r₁.esp).toNat := h.1.2
    refine ⟨hlo, heq, ?_⟩
    rcases List.mem_cons.1 hr with rfl | hr
    · exact hle
    · have := ih h.2 hr
      omega

/-- The frames of all faults are guarded. -/
theorem Stacked.guarded (h : Stacked (r :: rest)) (hr : r' ∈ r :: rest) {a : Word}
    (ha : ByteMem.Within (exstack r'.esp) 52 a) : Guarded (r :: rest) a := by
  have hpage := exstack_page (h.fits_of_mem hr)
  rw [ByteMem.within_toNat (by omega)] at ha
  refine ⟨?_, show a.toNat < 4005560320 by omega⟩
  show (exstack r.esp).toNat ≤ a.toNat
  rcases List.mem_cons.1 hr with rfl | hr
  · exact ha.1
  · have := h.below hr
    omega

/-! ### The frames and the scratch words -/

/-- The frames of the faults, and the words that the return addresses are pushed to. -/
def regions (pending : List Regs) : List (Word × Nat) :=
  pending.flatMap fun r => [(exstack r.esp, 52), (r.esp - 4#32, 4)]

theorem scratch_toNat (h : FrameFits r.esp) : (r.esp - 4#32).toNat + 4 = r.esp.toNat := by
  have hcases := exstack_cases h
  rw [BitVec.toNat_sub, BitVec.toNat_ofNat]
  omega

theorem scratch_apart (h : FrameFits r.esp) :
    ByteMem.Apart (r.esp - 4#32) 4 (exstack r.esp) 52 := by
  have hscratch := scratch_toNat h
  rcases exstack_cases h with ⟨-, hout, heq⟩ | ⟨-, hin, heq⟩
  · exact ByteMem.apart_of_le (by omega) (by omega)
  · exact (ByteMem.apart_of_le (by omega) (by omega)).symm

/-- The regions of the earlier faults are above the trap-time stack, or off the exception stack. -/
theorem Stacked.regions_cases (h : Stacked (r :: rest)) {x : Word × Nat} (hx : x ∈ regions rest) :
    x.1.toNat + x.2 ≤ 4005560320 ∧ 4005556280 ≤ r.esp.toNat ∧
      (exstack r.esp).toNat + 56 = r.esp.toNat ∧
      (r.esp.toNat ≤ x.1.toNat ∨ x.1.toNat + x.2 ≤ 4005556224) := by
  obtain ⟨r', hr', hx⟩ := List.mem_flatMap.1 hx
  obtain ⟨hlo, heq, hle⟩ := h.below hr'
  have hfit := h.2.fits_of_mem hr'
  have hpage := exstack_page hfit
  have hscratch := scratch_toNat hfit
  simp only [List.mem_cons, List.not_mem_nil, or_false] at hx
  rcases hx with rfl | rfl
  · exact ⟨hpage.2, hlo, heq, Or.inl hle⟩
  · dsimp only
    rcases exstack_cases hfit with ⟨-, hout, -⟩ | ⟨-, hin, heq'⟩
    · exact ⟨by omega, hlo, heq, Or.inr (by omega)⟩
    · exact ⟨by omega, hlo, heq, Or.inl (by omega)⟩

/-- **The frames and the scratch words are pairwise disjoint.** -/
theorem Stacked.pairwise (h : Stacked rest) :
    (regions rest).Pairwise fun x y => ByteMem.Apart x.1 x.2 y.1 y.2 := by
  induction rest with
  | nil => exact List.Pairwise.nil
  | cons r rest ih =>
    have hscratch := scratch_toNat h.fits
    have happ : regions (r :: rest) =
        [(exstack r.esp, 52), (r.esp - 4#32, 4)] ++ regions rest := rfl
    rw [happ]
    refine List.pairwise_append.2 ⟨?_, ih h.2, fun x hx y hy => ?_⟩
    · exact List.pairwise_pair.2 (scratch_apart h.fits).symm
    · obtain ⟨hend, hlo, heq, hcases⟩ := h.regions_cases hy
      simp only [List.mem_cons, List.not_mem_nil, or_false] at hx
      obtain ⟨hxlo, hxhi⟩ : 4005556224 ≤ x.1.toNat ∧ x.1.toNat + x.2 ≤ r.esp.toNat := by
        rcases hx with rfl | rfl
        · dsimp only
          omega
        · dsimp only
          omega
      rcases hcases with habove | hoff
      · exact ByteMem.apart_of_le (by omega) (by omega)
      · exact (ByteMem.apart_of_le (by omega) (by omega)).symm

end

/-! ### The invariant -/

/-- The frame of every pending fault is in place, and may be written to. -/
structure Faulting.Ok (p : Faulting) : Prop where
  stacked : Stacked p.pending
  held : ∀ r ∈ p.pending, ∃ u : UTrapframe, u.regs = r ∧ u.At p.ctx.mem (exstack r.esp)
  writable : ∀ r ∈ p.pending, ∀ a, ByteMem.Within (exstack r.esp) 52 a →
    p.rights.writable a = true

namespace Faulting

variable {handlerVar back : Word} {p q : Faulting} {c c' : Context} {rights rights' : Rights}
variable {r : Regs} {rest pending : List Regs}

/-- Changes elsewhere. -/
theorem Ok.congr (h : Ok ⟨c, rights, pending⟩)
    (hkept : ∀ r ∈ pending, ∀ a, ByteMem.Within (exstack r.esp) 52 a →
      c'.mem a = c.mem a ∧ rights'.writable a = rights.writable a) : Ok ⟨c', rights', pending⟩ where
  stacked := h.stacked
  held r hr := by
    obtain ⟨u, hu, hat⟩ := h.held r hr
    exact ⟨u, hu, hat.congr fun a ha => (hkept r hr a ha).1⟩
  writable r hr a ha := (hkept r hr a ha).2.trans (h.writable r hr a ha)

theorem Ok.tail (h : Ok ⟨c, rights, r :: rest⟩) : Ok ⟨c, rights, rest⟩ where
  stacked := h.stacked.2
  held r' hr' := h.held r' (List.mem_cons_of_mem _ hr')
  writable r' hr' := h.writable r' (List.mem_cons_of_mem _ hr')

/-- The words of a writable frame. -/
theorem Ok.frameRights (h : Ok ⟨c, rights, r :: rest⟩) : FrameRights rights (exstack r.esp) := by
  intro k hk j hj
  refine h.writable r List.mem_cons_self _ (ByteMem.within_iff.2 ⟨4 * k + j, by omega, ?_⟩)
  rw [BitVec.add_assoc, ← BitVec.ofNat_add]

/-- The return from the last fault. -/
theorem Ok.return_run (h : Ok ⟨c, rights, r :: rest⟩) (hesp : c.regs.esp = exstack r.esp - 4#32)
    (hw : rights.Word (r.esp - 4#32)) : ∃ m, run rights upcallReturn c = some ⟨r, m⟩ ∧
      ∀ a, ¬ ByteMem.Within (exstack r.esp) 52 a → ¬ ByteMem.Within (r.esp - 4#32) 4 a →
        m a = c.mem a := by
  obtain ⟨u, hu, hat⟩ := h.held r List.mem_cons_self
  have hutf : u.utfEsp = r.esp := congrArg Regs.esp hu
  have hap := scratch_apart h.stacked.fits
  have hrun := upcallReturn_run hat hesp h.frameRights (by rwa [hutf]) (by rwa [hutf])
  rw [hu] at hrun
  refine ⟨_, hrun, fun a hframe hscratch => ?_⟩
  rw [ByteMem.store_apart fun ha => hframe (ByteMem.Within.of_add (i := 48) ha (by decide)),
    ByteMem.store_apart (by rwa [hutf])]

/-- A fault keeps the frames of the earlier faults, and adds its own. -/
theorem Ok.fault {s s' : Kernel} {e : EnvIndex} {d : Nat} {tf : Trapframe}
    (h : Ok ⟨⟨tf.userRegs, s.userMem d⟩, s.userRights d, pending⟩) (push : Pushes s s' e d tf)
    (room : RoomFor pending tf.tfEsp) :
    Ok ⟨⟨(s'.envs e).envTf.userRegs, s'.userMem d⟩, s'.userRights d, tf.userRegs :: pending⟩ := by
  have hst : Stacked (tf.userRegs :: pending) := ⟨room, h.stacked⟩
  have hp := push.pushed hst.fits
  have hrights : ∀ a, a < utop → (s'.userRights d).writable a = (s.userRights d).writable a :=
    fun a ha => congrArg Option.isSome (hp.translate a ha _)
  -- the frames of the earlier faults are in the same page
  have hold : ∀ r ∈ pending, ∀ a, ByteMem.Within (exstack r.esp) 52 a →
      pgnum a = pgnum (exstack tf.tfEsp) ∧ ¬ ByteMem.Within (exstack tf.tfEsp) 52 a := by
    intro r hr a ha
    have hpage := exstack_page (h.stacked.fits_of_mem hr)
    have hpage' := exstack_page hst.fits
    have hbelow := hst.below hr
    change 4005556224 ≤ (exstack tf.tfEsp).toNat ∧
      (exstack tf.tfEsp).toNat + 52 ≤ 4005560320 at hpage'
    change 4005556280 ≤ tf.tfEsp.toNat ∧ (exstack tf.tfEsp).toNat + 56 = tf.tfEsp.toNat ∧
      tf.tfEsp.toNat ≤ (exstack r.esp).toNat at hbelow
    rw [ByteMem.within_toNat (by omega)] at ha
    rw [ByteMem.within_toNat (by omega), pgnum_eq, pgnum_eq]
    omega
  refine ⟨hst, fun r hr => ?_, fun r hr a ha => ?_⟩
  · rcases List.mem_cons.1 hr with rfl | hr
    · exact ⟨_, UTrapframe.ofTrapframe_regs tf s.cr2, hp.frame⟩
    · obtain ⟨u, hu, hat⟩ := h.held r hr
      refine ⟨u, hu, hat.congr fun a ha => ?_⟩
      obtain ⟨hpg, hout⟩ := hold r hr a ha
      exact hp.other a hpg hout
  · rcases List.mem_cons.1 hr with rfl | hr
    · obtain ⟨n, hn, rfl⟩ := ByteMem.within_iff.1 ha
      exact (hrights _ (lt_utop_of_frame hst.fits (frame_pgnum hst.fits hn))).trans
        (hp.writable n hn)
    · rw [hrights a (lt_utop_of_frame hst.fits (hold r hr a ha).1)]
      exact h.writable r hr a ha

/-- **One step.** -/
theorem Ok.step (h : p.Ok) (hstep : Step handlerVar back p q) : q.Ok := by
  cases hstep with
  | fault push room => exact h.fault push room
  | @call c c' rights r rest hesp harg hret hvar hrun =>
    rw [upcallCall_run harg hret hvar rfl] at hrun
    obtain rfl := Option.some_inj.1 hrun
    refine h.congr fun r' hr' a ha => ⟨?_, rfl⟩
    -- the two words are below the frame
    have hpage := exstack_page h.stacked.fits
    have hguard : (exstack r.esp).toNat ≤ a.toNat := (h.stacked.guarded hr' ha).1
    have hsub : ∀ n : Nat, n ≤ 8 → (exstack r.esp - BitVec.ofNat 32 n).toNat =
        (exstack r.esp).toNat - n := fun n hn => by
      rw [BitVec.toNat_sub, BitVec.toNat_ofNat]
      omega
    have h4 := hsub 4 (by decide)
    have h8 := hsub 8 (by decide)
    dsimp only
    rw [hesp, ByteMem.store_apart, ByteMem.store_apart]
    · rw [ByteMem.within_toNat (by omega)]
      omega
    · rw [ByteMem.within_toNat (by omega)]
      omega
  | @code c c' rights rights' pending hmem hkeeps =>
    refine h.congr fun r hr a ha => ?_
    cases pending with
    | nil => cases hr
    | cons r' rest => exact ⟨hmem a (h.stacked.guarded hr ha), hkeeps a (h.stacked.guarded hr ha)⟩
  | @back c c' rights r rest _ hesp hw hrun =>
    obtain ⟨m, hrun', hm⟩ := h.return_run hesp hw
    obtain rfl := Option.some_inj.1 (hrun'.symm.trans hrun)
    refine h.tail.congr fun r' hr' a ha => ⟨hm a (fun hin => ?_) fun hin => ?_, rfl⟩
    all_goals
      have hfit := h.stacked.fits
      have hpage := exstack_page hfit
      have hpage' := exstack_page (h.stacked.2.fits_of_mem hr')
      have hscratch := scratch_toNat hfit
      have hbelow := h.stacked.below hr'
      rw [ByteMem.within_toNat (by omega)] at ha hin
      omega

/-- **Every run.** -/
theorem ok_of_run (h : Relation.ReflTransGen (Step handlerVar back) ⟨c, rights, []⟩ p) : p.Ok := by
  induction h with
  | refl => exact ⟨trivial, by simp, by simp⟩
  | tail _ hstep ih => exact ih.step hstep

end Faulting

/-- **Page faults are unwound.**  Whatever faults a program is handling: the frames that the kernel
has pushed for them and the words that the return addresses go to are pairwise disjoint, and once
the handler of the last fault has returned, `_pgfault_upcall` goes back with the trap-time
registers, having written to nothing but the frame and the word below the trap-time stack
pointer. -/
theorem upcall_unwinds {handlerVar back : Word} {c₀ c : Context} {rights₀ rights : Rights}
    {r : Regs} {rest : List Regs} (hrun : Relation.ReflTransGen (Faulting.Step handlerVar back)
      ⟨c₀, rights₀, []⟩ ⟨c, rights, r :: rest⟩) :
    ((regions (r :: rest)).Pairwise fun x y => ByteMem.Apart x.1 x.2 y.1 y.2) ∧
    (c.regs.esp = exstack r.esp - 4#32 → rights.Word (r.esp - 4#32) →
      ∃ m, run rights upcallReturn c = some ⟨r, m⟩ ∧
        ∀ a, ¬ ByteMem.Within (exstack r.esp) 52 a → ¬ ByteMem.Within (r.esp - 4#32) 4 a →
          m a = c.mem a) :=
  ⟨(Faulting.ok_of_run hrun).stacked.pairwise, fun hesp hw =>
    (Faulting.ok_of_run hrun).return_run hesp hw⟩

/-! ## A fault in the handler -/

/-- The registers of a handler that faults: two words below the frame that it handles. -/
def inHandler : Trapframe :=
  { Trapframe.zero with tfCs := 0x1b#32, tfEsp := exstack ustacktop - 8#32 }

/-- A program faults on its own stack, its handler faults, and the handler of that has returned: the
first handler goes on where it was, and the frame that it handles is as it was. -/
theorem upcall_unwinds_inHandler : ∃ (c₀ c : Context) (rights₀ rights : Rights),
    Relation.ReflTransGen (Faulting.Step 0#32 0#32) ⟨c₀, rights₀, []⟩
      ⟨c, rights, [inHandler.userRegs, onStack.userRegs]⟩ ∧
    ((regions [inHandler.userRegs, onStack.userRegs]).Pairwise fun x y =>
      ByteMem.Apart x.1 x.2 y.1 y.2) ∧
    ∃ m, run rights upcallReturn c = some ⟨inHandler.userRegs, m⟩ ∧
      ∀ a, ByteMem.Within (exstack ustacktop) 52 a → m a = c.mem a := by
  obtain ⟨fl, s₁, push₁, h₁⟩ := faultingOnce_pushes
  -- the handler traps, and the kernel saves its registers
  have htrap := h₁.trapped inHandler
  obtain ⟨s₂, hs₂⟩ : ∃ s, s = s₁.setEnv 0 { s₁.envs 0 with envTf := inHandler } := ⟨_, rfl⟩
  rw [← hs₂] at htrap
  have hsaved : (s₂.envs 0).envTf = inHandler := by
    rw [hs₂, setEnv_envs, Function.update_self]
  have hfit : FrameFits inHandler.tfEsp := Or.inr (by decide)
  obtain ⟨s₃, push₂, h₃⟩ := htrap.enters (by decide) hsaved hfit
  have hroom : RoomFor [onStack.userRegs] inHandler.tfEsp := ⟨by decide, by decide⟩
  have hmem : s₂.userMem 1 = s₁.userMem 1 := by
    rw [hs₂]
    rfl
  have hrights : s₂.userRights 1 = s₁.userRights 1 := by
    rw [hs₂]
    rfl
  have hroom₀ : RoomFor [] onStack.tfEsp := Or.inl (by decide)
  have hfault₁ : Faulting.Step 0#32 0#32 ⟨⟨onStack.userRegs, faultingOnce.userMem 1⟩,
      faultingOnce.userRights 1, []⟩ _ := .fault push₁ hroom₀
  have hcode₁ : Faulting.Step 0#32 0#32 ⟨⟨(s₁.envs 0).envTf.userRegs, s₁.userMem 1⟩,
      s₁.userRights 1, [onStack.userRegs]⟩
      ⟨⟨inHandler.userRegs, s₂.userMem 1⟩, s₂.userRights 1, [onStack.userRegs]⟩ :=
    .code (fun a _ => by rw [hmem]) fun a _ => by rw [hrights]
  have hfault₂ : Faulting.Step 0#32 0#32 ⟨⟨inHandler.userRegs, s₂.userMem 1⟩, s₂.userRights 1,
      [onStack.userRegs]⟩ _ := .fault push₂ hroom
  -- the second handler does nothing
  have hcode₂ : Faulting.Step 0#32 0#32 ⟨⟨(s₃.envs 0).envTf.userRegs, s₃.userMem 1⟩,
      s₃.userRights 1, [inHandler.userRegs, onStack.userRegs]⟩
      ⟨⟨{ (s₃.envs 0).envTf.userRegs with esp := exstack inHandler.tfEsp - 4#32 }, s₃.userMem 1⟩,
        s₃.userRights 1, [inHandler.userRegs, onStack.userRegs]⟩ :=
    .code (fun _ _ => rfl) fun _ _ => rfl
  have hrun := (((Relation.ReflTransGen.single hfault₁).tail hcode₁).tail hfault₂).tail hcode₂
  obtain ⟨hpw, hret⟩ := upcall_unwinds hrun
  have hword : (s₃.userRights 1).Word (inHandler.tfEsp - 4#32) := fun j hj =>
    h₃.writable (by interval_cases j <;> decide)
  obtain ⟨m, hm, hkept⟩ := hret rfl hword
  -- the frame above is out of the way
  have habove : ∀ a, ByteMem.Within (exstack ustacktop) 52 a → 4005560268 ≤ a.toNat := fun a ha =>
    ((ByteMem.within_toNat (by decide)).1 ha).1
  refine ⟨_, _, _, _, hrun, hpw, m, hm, fun a ha => hkept a (fun hin => ?_) fun hin => ?_⟩
  · have hlt : a.toNat < 4005560204 + 52 := ((ByteMem.within_toNat (by decide)).1 hin).2
    have hle := habove a ha
    omega
  · have hlt : a.toNat < 4005560256 + 4 := ((ByteMem.within_toNat (by decide)).1 hin).2
    have hle := habove a ha
    omega

end Jos
