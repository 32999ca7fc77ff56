import Jos.Lib.X86
import Jos.Trap

/-!
# `lib/pfentry.S`: the page fault upcall

The kernel enters `_pgfault_upcall` with the stack pointer at a `struct UTrapframe`.  The code calls
the handler, with the frame as its argument, and then goes back to where the fault happened: it
pushes the trap-time `eip` on the trap-time stack, takes the word it has used off the stack pointer
in the frame, pops the registers from the frame, and returns.

Memory is the program's own here: an address is a byte.
-/

set_option autoImplicit false

namespace Jos

open X86

/-- The registers that a program goes on with. -/
def Trapframe.userRegs (tf : Trapframe) : Regs where
  eax := tf.tfRegs.regEax
  ecx := tf.tfRegs.regEcx
  edx := tf.tfRegs.regEdx
  ebx := tf.tfRegs.regEbx
  esp := tf.tfEsp
  ebp := tf.tfRegs.regEbp
  esi := tf.tfRegs.regEsi
  edi := tf.tfRegs.regEdi
  eip := tf.tfEip
  eflags := tf.tfEflags

/-- The trap-time registers. -/
def UTrapframe.regs (u : UTrapframe) : Regs where
  eax := u.utfRegs.regEax
  ecx := u.utfRegs.regEcx
  edx := u.utfRegs.regEdx
  ebx := u.utfRegs.regEbx
  esp := u.utfEsp
  ebp := u.utfRegs.regEbp
  esi := u.utfRegs.regEsi
  edi := u.utfRegs.regEdi
  eip := u.utfEip
  eflags := u.utfEflags

theorem UTrapframe.ofTrapframe_regs (tf : Trapframe) (va : Word) :
    (UTrapframe.ofTrapframe tf va).regs = tf.userRegs := rfl

/-! ## The code -/

/-- `_pgfault_upcall` as far as the call; `_pgfault_handler` is at the address `handlerVar`, and
`back` is the address of the instruction after the call. -/
def upcallCall (handlerVar back : Word) : List Instr :=
  [.pushl .esp,
    .loadAbs handlerVar .eax,
    .call .eax back]

/-- It pushes the trap-time `eip` on the trap-time stack. -/
def upcallPush : List Instr :=
  [.addl 4#32 .esp,
    .movl .esp .ebx,
    .loadl 40#32 .esp .eax,
    .loadl 48#32 .esp .esp,
    .pushl .eax]

/-- It adjusts the trap-time stack pointer in the frame. -/
def upcallAdjust : List Instr :=
  [.movl .ebx .esp,
    .sublAt 4#32 48#32 .esp]

/-- It restores the registers, and returns. -/
def upcallRestore : List Instr :=
  [.popl .eax,
    .popl .eax,
    .popal,
    .addl 4#32 .esp,
    .popfl,
    .popl .esp,
    .ret]

/-- The rest of `_pgfault_upcall`. -/
def upcallReturn : List Instr := upcallPush ++ (upcallAdjust ++ upcallRestore)

/-! ## A frame in memory -/

/-- The frame `u` is at `utf`. -/
def UTrapframe.At (u : UTrapframe) (m : ByteMem) (utf : Word) : Prop :=
  ∀ w k, (w, k) ∈ u.words.zipIdx → m.word (utf + BitVec.ofNat 32 (4 * k)) = w

/-- Its words may be written. -/
def FrameRights (rights : Rights) (utf : Word) : Prop :=
  ∀ k < 13, rights.Word (utf + BitVec.ofNat 32 (4 * k))

variable {rights : Rights} {c : Context} {m m' : ByteMem} {u : UTrapframe} {utf p : Word}

theorem UTrapframe.At.congr (h : u.At m utf) (hm : ∀ x, ByteMem.Within utf 52 x → m' x = m x) :
    u.At m' utf := by
  intro w k hk
  have hk13 : k < 13 := (List.mem_zipIdx hk).2.1
  rw [← h w k hk]
  refine ByteMem.word_congr fun j hj => hm _ (ByteMem.within_iff.2 ⟨4 * k + j, by omega, ?_⟩)
  rw [BitVec.add_assoc, ← BitVec.ofNat_add]

/-! ## Running it -/

/-- **The call.**  The handler is entered with the frame as its argument and `back` as its return
address; two words below the frame are written. -/
theorem upcallCall_run {handlerVar back : Word} (harg : rights.Word (c.regs.esp - 4#32))
    (hback : rights.Word (c.regs.esp - 8#32)) (hvar : rights.Word handlerVar)
    (hm : m = c.mem.store (c.regs.esp - 4#32) c.regs.esp) :
    run rights (upcallCall handlerVar back) c =
      some ⟨{ c.regs with
        eax := m.word handlerVar
        esp := c.regs.esp - 8#32
        eip := m.word handlerVar }, m.store (c.regs.esp - 8#32) back⟩ := by
  subst hm
  have hsub : c.regs.esp - 4#32 - 4#32 = c.regs.esp - 8#32 := by bv_omega
  simp only [upcallCall, run, List.foldlM_cons, List.foldlM_nil, Instr.exec, Regs.get]
  rw [push_run harg]
  simp only [Option.bind_eq_bind, Option.bind_some]
  rw [hvar.load]
  simp only [Option.map_some, Option.bind_some, Context.set, Regs.set]
  rw [push_run (by rw [hsub]; exact hback)]
  simp [Regs.set, hsub]

/-- The trap-time `eip` is pushed on the trap-time stack. -/
theorem upcallPush_run (hesp : c.regs.esp = utf - 4#32) (heip : rights.Word (utf + 40#32))
    (hutfEsp : rights.Word (utf + 48#32)) (hp : c.mem.word (utf + 48#32) - 4#32 = p)
    (hw : rights.Word p) : ∃ regs, regs.ebx = utf ∧
      run rights upcallPush c = some ⟨regs, c.mem.store p (c.mem.word (utf + 40#32))⟩ := by
  have hadd : utf - 4#32 + 4#32 = utf := BitVec.sub_add_cancel _ _
  refine ⟨?_, ?_, ?_⟩
  rotate_left 2
  · simp only [upcallPush, run, List.foldlM_cons, List.foldlM_nil, Instr.exec, Regs.get,
      Context.set, Regs.set, hesp, hadd, Option.bind_eq_bind, Option.bind_some]
    rw [heip.load]
    simp only [Option.map_some, Option.bind_some]
    rw [hutfEsp.load]
    simp only [Option.map_some, Option.bind_some]
    rw [push_run (by rw [hp]; exact hw)]
    simp only [hp]
    rfl
  · rfl

/-- The stack pointer in the frame is adjusted. -/
theorem upcallAdjust_run (hebx : c.regs.ebx = utf) (hutfEsp : rights.Word (utf + 48#32)) :
    ∃ regs, regs.esp = utf ∧ run rights upcallAdjust c =
      some ⟨regs, c.mem.store (utf + 48#32) (c.mem.word (utf + 48#32) - 4#32)⟩ := by
  refine ⟨?_, ?_, ?_⟩
  rotate_left 2
  · simp only [upcallAdjust, run, List.foldlM_cons, List.foldlM_nil, Instr.exec, Regs.get,
      Context.set, Regs.set, hebx, Option.bind_eq_bind, Option.bind_some]
    rw [hutfEsp.load]
    simp only [Option.bind_some]
    rw [hutfEsp.store]
    simp only [Option.bind_some]
    rfl
  · rfl

/-- The registers are popped from the frame, the stack pointer last, and `eip` from the stack that
it points to. -/
theorem upcallRestore_run (hesp : c.regs.esp = utf) (hf : FrameRights rights utf)
    (hp : c.mem.word (utf + 48#32) = p) (hw : rights.Word p) :
    run rights upcallRestore c =
      some ⟨{ eax := c.mem.word (utf + 36#32)
              ecx := c.mem.word (utf + 32#32)
              edx := c.mem.word (utf + 28#32)
              ebx := c.mem.word (utf + 24#32)
              esp := p + 4#32
              ebp := c.mem.word (utf + 16#32)
              esi := c.mem.word (utf + 12#32)
              edi := c.mem.word (utf + 8#32)
              eip := c.mem.word p
              eflags := c.mem.word (utf + 44#32) }, c.mem⟩ := by
  have hadd : ∀ i j : Word, utf + i + j = utf + (i + j) := BitVec.add_assoc utf
  have h0 : rights.Word utf := by simpa using hf 0 (by decide)
  have h1 : rights.Word (utf + 4#32) := hf 1 (by decide)
  have h44 : rights.Word (utf + 44#32) := hf 11 (by decide)
  have h48 : rights.Word (utf + 48#32) := hf 12 (by decide)
  have h8 : ∀ k < 8, rights.Word (utf + 8#32 + BitVec.ofNat 32 (4 * k)) := by
    intro k hk
    rw [hadd, show 8#32 = BitVec.ofNat 32 (4 * 2) from rfl, ← BitVec.ofNat_add, ← Nat.mul_add]
    exact hf (2 + k) (by omega)
  simp only [upcallRestore, run, List.foldlM_cons, List.foldlM_nil, Instr.exec,
    Option.bind_eq_bind]
  rw [pop_run (by rw [hesp]; exact h0)]
  simp only [Option.map_some, Option.bind_some, Context.set, Regs.set, hesp]
  rw [pop_run h1]
  simp only [Option.map_some, Option.bind_some, Context.set, Regs.set, hadd, BitVec.reduceAdd]
  rw [popal_run (p := utf + 8#32) rfl h8]
  simp only [Option.bind_some, Regs.get, hadd, BitVec.reduceAdd]
  rw [pop_run (by exact h44)]
  simp only [Option.map_some, Option.bind_some, Context.set, Regs.set, hadd, BitVec.reduceAdd]
  rw [pop_run (by exact h48)]
  simp only [Option.map_some, Option.bind_some, Context.set, Regs.set, hp]
  rw [pop_run (by exact hw)]
  rfl

/-- **The return.**  The registers are the trap-time registers again, and what has been written is
the word below the trap-time stack pointer, and the stack pointer in the frame. -/
theorem upcallReturn_run (hu : u.At c.mem utf) (hesp : c.regs.esp = utf - 4#32)
    (hf : FrameRights rights utf) (hw : rights.Word (u.utfEsp - 4#32))
    (hap : ByteMem.Apart (u.utfEsp - 4#32) 4 utf 52) :
    run rights upcallReturn c = some ⟨u.regs,
      (c.mem.store (u.utfEsp - 4#32) u.utfEip).store (utf + 48#32) (u.utfEsp - 4#32)⟩ := by
  have h40 : c.mem.word (utf + 40#32) = u.utfEip := hu _ 10 (by simp [UTrapframe.words])
  have h48 : c.mem.word (utf + 48#32) = u.utfEsp := hu _ 12 (by simp [UTrapframe.words])
  obtain ⟨p, hp⟩ : ∃ p, p = u.utfEsp - 4#32 := ⟨_, rfl⟩
  rw [← hp] at hw hap ⊢
  obtain ⟨m₁, hm₁⟩ : ∃ m₁, m₁ = c.mem.store p u.utfEip := ⟨_, rfl⟩
  obtain ⟨m₂, hm₂⟩ : ∃ m₂, m₂ = m₁.store (utf + 48#32) p := ⟨_, rfl⟩
  rw [← hm₁, ← hm₂]
  have hap48 : ByteMem.Apart p 4 (utf + 48#32) 4 := hap.right (i := 48) (by decide)
  -- the frame, after each store
  have hframe₁ : u.At m₁ utf := hu.congr fun x hx => by
    rw [hm₁]
    exact ByteMem.store_apart fun hx' => hap x hx' hx
  have hframe₂ : ∀ w k, (w, k) ∈ u.words.zipIdx ∧ k < 12 →
      m₂.word (utf + BitVec.ofNat 32 (4 * k)) = w := by
    rintro w k ⟨hk, hlt⟩
    rw [hm₂, ByteMem.word_store_apart]
    · exact hframe₁ w k hk
    · exact (ByteMem.apart_add (i := 4 * k) (j := 48) (by omega) (by decide)).symm
  have hscratch : m₂.word p = u.utfEip := by
    rw [hm₂, ByteMem.word_store_apart hap48.symm, hm₁, ByteMem.word_store_self]
  have hsaved : m₂.word (utf + 48#32) = p := by rw [hm₂, ByteMem.word_store_self]
  obtain ⟨r₁, hebx, hrun₁⟩ := upcallPush_run hesp (hf 10 (by decide)) (hf 12 (by decide))
    (by rw [h48, hp]) hw
  obtain ⟨r₂, hesp₂, hrun₂⟩ := upcallAdjust_run (c := ⟨r₁, m₁⟩) hebx
    (hf 12 (by decide))
  have hold : m₁.word (utf + 48#32) - 4#32 = p := by
    rw [hp]
    exact congrArg (· - 4#32) (hframe₁ _ 12 (by simp [UTrapframe.words]))
  rw [hold, ← hm₂] at hrun₂
  have hrun₃ := upcallRestore_run (c := ⟨r₂, m₂⟩) hesp₂ hf hsaved hw
  rw [h40, ← hm₁] at hrun₁
  rw [upcallReturn, run_append, hrun₁, Option.bind_some, run_append, hrun₂, Option.bind_some,
    hrun₃]
  congr 2
  simp only [UTrapframe.regs, Regs.mk.injEq]
  refine ⟨hframe₂ _ 9 ?_, hframe₂ _ 8 ?_, hframe₂ _ 7 ?_, hframe₂ _ 6 ?_, ?_, hframe₂ _ 4 ?_,
    hframe₂ _ 3 ?_, hframe₂ _ 2 ?_, hscratch, hframe₂ _ 11 ?_⟩
  case refine_5 => rw [hp, BitVec.sub_add_cancel]
  all_goals exact ⟨by simp [UTrapframe.words], by decide⟩

end Jos
