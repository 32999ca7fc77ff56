import Jos.Lib.Interrupt
import Jos.Pfentry

/-!
# Into the kernel and out again

The segment descriptors of `kern/env.c`, the gates that `trap_init` sets up, the code of
`kern/trapentry.S` that runs behind them, and `env_pop_tf`.

Between them they turn what the processor does into what the rest of the kernel works with: whatever
makes the processor leave a program, `trap` is called with a `struct Trapframe` that holds the
program's registers, and `env_pop_tf` loads the registers of such a frame.

`%fs` and `%gs` are left out, which the kernel neither saves nor uses.
-/

set_option autoImplicit false

namespace Jos

open X86

/-! ## Segments -/

/-- `struct Segdesc`. -/
structure Segdesc where
  sdLim15_0 : BitVec 16
  sdBase15_0 : BitVec 16
  sdBase23_16 : BitVec 8
  sdType : BitVec 4
  sdS : BitVec 1
  sdDpl : BitVec 2
  sdP : BitVec 1
  sdLim19_16 : BitVec 4
  sdAvl : BitVec 1
  sdRsv1 : BitVec 1
  sdDb : BitVec 1
  sdG : BitVec 1
  sdBase31_24 : BitVec 8

/-- The bit fields, the first one lowest. -/
def Segdesc.bits (d : Segdesc) : Descriptor :=
  d.sdBase31_24 ++ d.sdG ++ d.sdDb ++ d.sdRsv1 ++ d.sdAvl ++ d.sdLim19_16 ++ d.sdP ++ d.sdDpl ++
    d.sdS ++ d.sdType ++ d.sdBase23_16 ++ d.sdBase15_0 ++ d.sdLim15_0

/-- `SEG_NULL`. -/
def segNull : Segdesc := ⟨0, 0, 0, 0, 0, 0, 0, 0, 0, 0, 0, 0, 0⟩

/-- `SEG`. -/
def seg (type : BitVec 4) (base lim : Word) (dpl : BitVec 2) : Segdesc :=
  ⟨(lim >>> 12).setWidth 16, base.setWidth 16, (base >>> 16).setWidth 8, type, 1, dpl, 1,
    (lim >>> 28).setWidth 4, 0, 0, 1, 1, (base >>> 24).setWidth 8⟩

/-- `SEG16`. -/
def seg16 (type : BitVec 4) (base lim : Word) (dpl : BitVec 2) : Segdesc :=
  ⟨lim.setWidth 16, base.setWidth 16, (base >>> 16).setWidth 8, type, 1, dpl, 1,
    (lim >>> 16).setWidth 4, 0, 0, 1, 0, (base >>> 24).setWidth 8⟩

def staX : BitVec 4 := 0x8#4
def staW : BitVec 4 := 0x2#4
def staR : BitVec 4 := 0x2#4
def stsT32a : BitVec 4 := 0x9#4
def stsIg32 : BitVec 4 := 0xE#4
def stsTg32 : BitVec 4 := 0xF#4

def gdKd : Word := 0x10#32
def gdTss0 : Word := 0x28#32

/-- `gdt`, as `kern/env.c` initializes its `NCPU + 5` entries. -/
def gdt : List Segdesc :=
  [segNull, seg (staX ||| staR) 0#32 0xffffffff#32 0#2, seg staW 0#32 0xffffffff#32 0#2,
    seg (staX ||| staR) 0#32 0xffffffff#32 3#2, seg staW 0#32 0xffffffff#32 3#2] ++
    List.replicate 8 segNull

/-- `sizeof(struct Taskstate)`. -/
def taskstateSize : Word := 104#32

/-- `struct Taskstate`, as far as it is set. -/
structure Taskstate where
  tsEsp0 : Word
  tsSs0 : BitVec 16
  tsIomb : BitVec 16

/-- It is at address `a`. -/
structure Taskstate.At (ts : Taskstate) (m : ByteMem) (a : Word) : Prop where
  esp0 : m.word (a + 4#32) = ts.tsEsp0
  ss0 : m.half (a + 8#32) = ts.tsSs0
  iomb : m.half (a + 102#32) = ts.tsIomb

/-- `ts`, as `trap_init_percpu` sets it. -/
def kernelTs : Taskstate := ⟨kstacktop, gdKd.setWidth 16, taskstateSize.setWidth 16⟩

/-- The descriptor of the task state segment, when `ts` is at `ts`. -/
def tssDesc (ts : Word) : Segdesc := { seg16 stsT32a ts (taskstateSize - 1#32) 0#2 with sdS := 0 }

/-- What `trap_init_percpu` makes of `gdt`. -/
def percpuGdt (ts : Word) : List Segdesc := gdt.set (gdTss0 >>> 3).toNat (tssDesc ts)

/-! ## Gates -/

/-- `struct Gatedesc`. -/
structure Gatedesc where
  gdOff15_0 : BitVec 16
  gdSel : BitVec 16
  gdArgs : BitVec 5
  gdRsv1 : BitVec 3
  gdType : BitVec 4
  gdS : BitVec 1
  gdDpl : BitVec 2
  gdP : BitVec 1
  gdOff31_16 : BitVec 16

/-- The bit fields, the first one lowest. -/
def Gatedesc.bits (g : Gatedesc) : Descriptor :=
  g.gdOff31_16 ++ g.gdP ++ g.gdDpl ++ g.gdS ++ g.gdType ++ g.gdRsv1 ++ g.gdArgs ++ g.gdSel ++
    g.gdOff15_0

/-- `SETGATE`. -/
def setgate (istrap : Bool) (sel off : Word) (dpl : BitVec 2) : Gatedesc where
  gdOff15_0 := (off &&& 0xffff#32).setWidth 16
  gdSel := sel.setWidth 16
  gdArgs := 0
  gdRsv1 := 0
  gdType := if istrap then stsTg32 else stsIg32
  gdS := 0
  gdDpl := dpl
  gdP := 1
  gdOff31_16 := (off >>> 16).setWidth 16

/-- The gate that `trap_init` makes for vector `v`. -/
def trapGate (idtEntries : BitVec 8 → Word) (v : BitVec 8) : Gatedesc :=
  if v.setWidth 32 = tBrkpt ∨ v.setWidth 32 = tSyscall then setgate false gdKt (idtEntries v) 3#2
  else setgate false gdKt (idtEntries v) 0#2

/-- `idt`, after `trap_init`. -/
def trapInit (idtEntries : BitVec 8 → Word) : List Gatedesc :=
  (List.range 256).map fun i => trapGate idtEntries (BitVec.ofNat 8 i)

/-! ## `kern/trapentry.S` -/

/-- `TRAPHANDLER`. -/
def traphandler (num alltraps : Word) : List SysInstr := [.pushi num, .jmp alltraps]

/-- `TRAPHANDLER_NOEC`. -/
def traphandlerNoec (num alltraps : Word) : List SysInstr :=
  [.pushi 0#32, .pushi num, .jmp alltraps]

/-- The vectors whose handler is a `TRAPHANDLER`: `T_DBLFLT`, `T_TSS`, `T_SEGNP`, `T_STACK`,
`T_GPFLT`, `T_PGFLT` and `T_ALIGN`. -/
def withErrorCode : List (BitVec 8) := [8#8, 10#8, 11#8, 12#8, 13#8, 14#8, 17#8]

/-- The handler that `idt_entries` has for vector `v`. -/
def handler (alltraps : Word) (v : BitVec 8) : List SysInstr :=
  if v ∈ withErrorCode then traphandler (v.setWidth 32) alltraps
  else traphandlerNoec (v.setWidth 32) alltraps

/-- `_alltraps` as far as the call; `next` is the address after the call, to which `trap` does not
return. -/
def alltraps (trap next : Word) : List SysInstr :=
  [.pushSeg .ds,
    .pushSeg .es,
    .pushal,
    .movi gdKd .eax,
    .movSeg .eax .ds,
    .movSeg .eax .es,
    .user (.pushl .esp),
    .movi 0#32 .ebp,
    .call trap next]

/-- The code of `env_pop_tf`. -/
def envPopTfCode (tf : Word) : List SysInstr :=
  [.movi tf .esp,
    .user .popal,
    .popSeg .es,
    .popSeg .ds,
    .user (.addl 8#32 .esp),
    .iret]

/-- The kernel as the linker has laid it out. -/
structure Image where
  /-- `idt_entries`. -/
  idtEntries : BitVec 8 → Word
  /-- The addresses of `_alltraps`, of `trap`, and of what follows the call of `trap`. -/
  alltraps : Word
  trap : Word
  next : Word
  /-- The address of `ts`. -/
  ts : Word
  /-- The code at an address. -/
  code : Word → List SysInstr
  code_handler : ∀ v, code (idtEntries v) = handler alltraps v
  code_alltraps : code alltraps = Jos.alltraps trap next
  /-- What pushing a selector leaves in the upper half of the word. -/
  upper : ByteMem → Word → BitVec 16

/-- The processor, after `env_init_percpu` and `trap_init`. -/
def Image.processor (I : Image) : Processor where
  gdt := (percpuGdt I.ts).map Segdesc.bits
  idt := (trapInit I.idtEntries).map Gatedesc.bits
  task := (tssDesc I.ts).bits
  upper := I.upper

/-- The code that is run from where the processor is. -/
def Image.block (I : Image) (r : Rights) (c : Core) : Option Core :=
  sysRun I.processor r (I.code c.regs.eip) c

/-- An event, and the code from the gate to the first instruction of `trap`. -/
def Image.enter (I : Image) (r : Rights) (c : Core) (ev : Event) : Option Core := do
  let c₁ ← c.raise I.processor r ev
  let c₂ ← I.block r c₁
  I.block r c₂

/-- The handlers are sixteen bytes apart. -/
def smallImage : Image where
  idtEntries v := 0xf0102000#32 + v.setWidth 32 <<< 4
  alltraps := 0xf0103000#32
  trap := 0xf0104000#32
  next := 0xf010301b#32
  ts := 0xf0120000#32
  code a :=
    if a = 0xf0103000#32 then Jos.alltraps 0xf0104000#32 0xf010301b#32
    else handler 0xf0103000#32 (((a - 0xf0102000#32) >>> 4).setWidth 8)
  code_handler v := by
    have hne : ¬ 0xf0102000#32 + v.setWidth 32 <<< 4 = 0xf0103000#32 := by
      revert v
      decide
    have hv : ((0xf0102000#32 + v.setWidth 32 <<< 4 - 0xf0102000#32) >>> 4).setWidth 8 = v := by
      revert v
      decide
    rw [if_neg hne, hv]
  code_alltraps := rfl
  upper _ _ := 0#16

/-- The kernel's memory, with `ts`. -/
def smallMem : ByteMem :=
  (((ByteMem.store (fun _ => 0#8) 0xf0120004#32 kstacktop).store 0xf0120008#32 gdKd).store
    0xf0120064#32 (taskstateSize <<< 16))

/-- The kernel may write everywhere. -/
def kernelRights : Rights := ⟨fun _ => true, fun _ => true, fun _ _ => rfl⟩

/-! ## The descriptors, as the processor reads them -/

section

variable (istrap : Bool) (sel off : Word) (dpl : BitVec 2)

theorem setgate_offset : (setgate istrap sel off dpl).bits.offset = off := by
  apply BitVec.eq_of_getLsbD_eq
  intro i hi
  simp only [Descriptor.offset, Gatedesc.bits, setgate, BitVec.getLsbD_append,
    BitVec.getLsbD_extractLsb', BitVec.getLsbD_setWidth, BitVec.getLsbD_and,
    BitVec.getLsbD_ushiftRight]
  interval_cases i <;> simp

theorem setgate_selector : (setgate istrap sel off dpl).bits.selector = sel.setWidth 16 := by
  apply BitVec.eq_of_getLsbD_eq
  intro i hi
  simp only [Descriptor.selector, Gatedesc.bits, setgate, BitVec.getLsbD_append,
    BitVec.getLsbD_extractLsb', BitVec.getLsbD_setWidth]
  interval_cases i <;> simp

theorem setgate_dpl : (setgate istrap sel off dpl).bits.dpl = dpl := by
  apply BitVec.eq_of_getLsbD_eq
  intro i hi
  simp only [Descriptor.dpl, Gatedesc.bits, setgate, BitVec.getLsbD_append,
    BitVec.getLsbD_extractLsb']
  interval_cases i <;> simp

theorem setgate_kind :
    (setgate istrap sel off dpl).bits.kind = if istrap then stsTg32 else stsIg32 := by
  apply BitVec.eq_of_getLsbD_eq
  intro i hi
  simp only [Descriptor.kind, Gatedesc.bits, setgate, BitVec.getLsbD_append,
    BitVec.getLsbD_extractLsb']
  interval_cases i <;> simp

theorem setgate_isGate : (setgate istrap sel off dpl).bits.isGate = true := by
  have hp : (setgate istrap sel off dpl).bits.present = true := by
    simp only [Descriptor.present, Gatedesc.bits, setgate, BitVec.getLsbD_append]
    simp
  have hs : (setgate istrap sel off dpl).bits.isSegment = false := by
    simp only [Descriptor.isSegment, Gatedesc.bits, setgate, BitVec.getLsbD_append]
    simp
  rw [Descriptor.isGate, hp, hs, setgate_kind]
  cases istrap <;> decide

end

theorem tssDesc_base (ts : Word) : (tssDesc ts).bits.base = ts := by
  apply BitVec.eq_of_getLsbD_eq
  intro i hi
  simp only [Descriptor.base, Segdesc.bits, tssDesc, seg16, BitVec.getLsbD_append,
    BitVec.getLsbD_extractLsb', BitVec.getLsbD_setWidth, BitVec.getLsbD_ushiftRight]
  interval_cases i <;> simp

/-! ## The processor, set up -/

namespace Image

variable (I : Image) (v : BitVec 8)

/-- The stack of level 0 is the one in `ts`. -/
theorem stackFor_zero {m : ByteMem} (hts : kernelTs.At m I.ts) :
    I.processor.stackFor m 0#2 = (gdKd.setWidth 16, kstacktop) := by
  have hbase : I.processor.task.base = I.ts := tssDesc_base I.ts
  have hss : m.half (I.ts + 8#32) = gdKd.setWidth 16 := hts.ss0
  have hesp : m.word (I.ts + 4#32) = kstacktop := hts.esp0
  simp only [Processor.stackFor, hbase]
  simp [hss, hesp]

theorem idt_getElem : I.processor.idt[v.toNat]? = some (trapGate I.idtEntries v).bits := by
  have hv : v.toNat < 256 := v.isLt
  simp [processor, trapInit, hv]

theorem trapGate_eq : ∃ dpl, trapGate I.idtEntries v = setgate false gdKt (I.idtEntries v) dpl := by
  rw [trapGate]
  split
  · exact ⟨3#2, rfl⟩
  · exact ⟨0#2, rfl⟩

theorem trapGate_selector : (trapGate I.idtEntries v).bits.selector = gdKt.setWidth 16 := by
  obtain ⟨dpl, hgate⟩ := I.trapGate_eq v
  rw [hgate, setgate_selector]

theorem trapGate_offset : (trapGate I.idtEntries v).bits.offset = I.idtEntries v := by
  obtain ⟨dpl, hgate⟩ := I.trapGate_eq v
  rw [hgate, setgate_offset]

/-- They are interrupt gates. -/
theorem trapGate_kind : (trapGate I.idtEntries v).bits.kind = stsIg32 := by
  obtain ⟨dpl, hgate⟩ := I.trapGate_eq v
  rw [hgate, setgate_kind]
  rfl

/-- Every gate leads to the kernel. -/
theorem leads : I.processor.Leads v (trapGate I.idtEntries v).bits 0#2 := by
  refine ⟨I.idt_getElem v, ?_, ⟨(seg (staX ||| staR) 0#32 0xffffffff#32 0#2).bits, ?_, ?_⟩, ?_⟩
  · obtain ⟨dpl, hgate⟩ := I.trapGate_eq v
    rw [hgate]
    exact setgate_isGate _ _ _ _
  · rw [trapGate_selector]
    rfl
  · decide
  · rw [trapGate_selector]
    decide

theorem stackOk_kd : I.processor.stackOk 0#2 (gdKd.setWidth 16) = true := by
  have hlookup : I.processor.lookup (gdKd.setWidth 16) =
      some (seg staW 0#32 0xffffffff#32 0#2).bits := rfl
  rw [Processor.stackOk, hlookup]
  decide

theorem dataOk_kd : I.processor.dataOk 0#2 (gdKd.setWidth 16) = true := by
  have hlookup : I.processor.lookup (gdKd.setWidth 16) =
      some (seg staW 0#32 0xffffffff#32 0#2).bits := rfl
  rw [Processor.dataOk, hlookup]
  decide

theorem tssDesc_dpl (ts : Word) : (tssDesc ts).bits.dpl = 0#2 := by
  apply BitVec.eq_of_getLsbD_eq
  intro i hi
  simp only [Descriptor.dpl, Segdesc.bits, tssDesc, seg16, BitVec.getLsbD_append,
    BitVec.getLsbD_extractLsb']
  interval_cases i <;> simp

/-- No gate and no task is open to programs. -/
theorem closed : I.processor.Closed 3#2 := by
  have hlist : I.processor.gdt = (gdt.take 5).map Segdesc.bits ++ (tssDesc I.ts).bits ::
      List.replicate 7 segNull.bits := rfl
  intro d hd hp hs
  rw [hlist, List.mem_append, List.mem_cons, List.mem_replicate] at hd
  rcases hd with hd | rfl | ⟨-, rfl⟩
  · have hall : ((gdt.take 5).map Segdesc.bits).all (fun d => !d.present || d.isSegment) = true :=
      rfl
    have hd' := List.all_eq_true.1 hall d hd
    rw [hp, hs] at hd'
    cases hd'
  · rw [tssDesc_dpl]
    decide
  · exact absurd hp (by decide)

/-- **The gates that a program may name.** -/
theorem intOk_iff : I.processor.intOk 3#2 v = true ↔ v = 3#8 ∨ v = 48#8 := by
  have hvec : (v.setWidth 32 = tBrkpt ∨ v.setWidth 32 = tSyscall) ↔ v = 3#8 ∨ v = 48#8 := by
    rw [tBrkpt, tSyscall]
    bv_omega
  rw [Processor.intOk, I.idt_getElem, trapGate, Option.any_some, decide_eq_true_eq, ← hvec]
  split
  · rw [setgate_dpl]
    exact iff_of_true (by decide) ‹_›
  · rw [setgate_dpl]
    exact iff_of_false (by decide) ‹_›

end Image

/-! ## A frame in memory -/

/-- The words of a `struct PushRegs`, lowest address first. -/
def PushRegs.words (p : PushRegs) : List Word :=
  [p.regEdi, p.regEsi, p.regEbp, p.regOesp, p.regEbx, p.regEdx, p.regEcx, p.regEax]

/-- The frame `tf` is at address `a`; the padding may hold anything. -/
structure Trapframe.At (tf : Trapframe) (m : ByteMem) (a : Word) : Prop where
  regs : ∀ w k, (w, k) ∈ tf.tfRegs.words.zipIdx → m.word (a + BitVec.ofNat 32 (4 * k)) = w
  es : (m.half (a + 32#32)).setWidth 32 = tf.tfEs
  ds : (m.half (a + 36#32)).setWidth 32 = tf.tfDs
  trapno : m.word (a + 40#32) = tf.tfTrapno
  err : m.word (a + 44#32) = tf.tfErr
  eip : m.word (a + 48#32) = tf.tfEip
  cs : (m.half (a + 52#32)).setWidth 32 = tf.tfCs
  eflags : m.word (a + 56#32) = tf.tfEflags
  esp : m.word (a + 60#32) = tf.tfEsp
  ss : (m.half (a + 64#32)).setWidth 32 = tf.tfSs

/-- The registers that a frame stands for. -/
def Trapframe.file (tf : Trapframe) : RegFile :=
  ⟨{ tf.userRegs with eflags := fixFlags tf.tfEflags },
    ⟨tf.tfCs.setWidth 16, tf.tfSs.setWidth 16, tf.tfDs.setWidth 16, tf.tfEs.setWidth 16⟩⟩

/-- `sizeof(struct Trapframe)`. -/
def tfSize : Word := 68#32

/-- The frame that `trap` finds after an event. -/
def Image.frame (I : Image) (f : RegFile) (ev : Event) : Trapframe :=
  let (v, err, flags, eip) := ev.delivery I.processor f
  { tfRegs := ⟨f.regs.edi, f.regs.esi, f.regs.ebp, kstacktop - 36#32, f.regs.ebx, f.regs.edx,
      f.regs.ecx, f.regs.eax⟩
    tfEs := f.segs.es.setWidth 32
    tfDs := f.segs.ds.setWidth 32
    tfTrapno := v.setWidth 32
    tfErr := err.getD 0#32
    tfEip := eip
    tfCs := f.segs.cs.setWidth 32
    tfEflags := flags
    tfEsp := f.regs.esp
    tfSs := f.segs.ss.setWidth 32 }

/-- Seventeen words on a stack, below two others, are a frame. -/
theorem Trapframe.at_pushed {tf : Trapframe} {m : ByteMem} {top w w' : Word}
    {hes hds hcs hss es ds cs ss : BitVec 16}
    (hsel : tf.tfEs = es.setWidth 32 ∧ tf.tfDs = ds.setWidth 32 ∧ tf.tfCs = cs.setWidth 32 ∧
      tf.tfSs = ss.setWidth 32) : tf.At (m.pushed top (w :: w' :: (tf.tfRegs.words ++
        [hes ++ es, hds ++ ds, tf.tfTrapno, tf.tfErr, tf.tfEip, hcs ++ cs, tf.tfEflags, tf.tfEsp,
          hss ++ ss]))) (top - tfSize) := by
  obtain ⟨l, hl⟩ : ∃ l, l = w :: w' :: (tf.tfRegs.words ++ [hes ++ es, hds ++ ds, tf.tfTrapno,
    tf.tfErr, tf.tfEip, hcs ++ cs, tf.tfEflags, tf.tfEsp, hss ++ ss]) := ⟨_, rfl⟩
  have hlen : l.length = 19 := by rw [hl]; rfl
  have hword : ∀ k (hk : k + 2 < l.length),
      (m.pushed top l).word (top - tfSize + BitVec.ofNat 32 (4 * k)) = l[k + 2] := by
    intro k hk
    have hpushed : (m.pushed top l).word (top - BitVec.ofNat 32 (4 * l.length) +
        BitVec.ofNat 32 (4 * (k + 2))) = l[k + 2] := ByteMem.word_pushed_add hk (by omega)
    rw [← hpushed, hlen, Nat.mul_add, Nat.add_comm, BitVec.ofNat_add, ← BitVec.add_assoc,
      ByteMem.sub_ofNat_add (by decide)]
    rfl
  have hhalf : ∀ k (hk : k + 2 < l.length) {hi sel : BitVec 16}, l[k + 2] = hi ++ sel →
      ((m.pushed top l).half (top - tfSize + BitVec.ofNat 32 (4 * k))).setWidth 32 =
        sel.setWidth 32 := by
    intro k hk hi sel heq
    rw [ByteMem.half_eq_word, hword k hk, heq, BitVec.setWidth_append_eq_right]
  obtain ⟨hsel₁, hsel₂, hsel₃, hsel₄⟩ := hsel
  rw [← hl]
  subst hl
  have hbound : ∀ k, k < 17 → k + 2 < _ := fun k hk => (by omega : k + 2 < 19).trans_eq hlen.symm
  refine ⟨fun x k hk => ?_, (hhalf 8 (hbound 8 (by decide)) rfl).trans hsel₁.symm,
    (hhalf 9 (hbound 9 (by decide)) rfl).trans hsel₂.symm, hword 10 (hbound 10 (by decide)),
    hword 11 (hbound 11 (by decide)), hword 12 (hbound 12 (by decide)),
    (hhalf 13 (hbound 13 (by decide)) rfl).trans hsel₃.symm, hword 14 (hbound 14 (by decide)),
    hword 15 (hbound 15 (by decide)), (hhalf 16 (hbound 16 (by decide)) rfl).trans hsel₄.symm⟩
  obtain ⟨-, hlt, hx⟩ := List.mem_zipIdx hk
  have hlt8 : k < 8 := by simpa [PushRegs.words] using hlt
  rw [hx, hword k (hbound k (by omega))]
  exact List.getElem_append_left hlt8

/-! ## Into the kernel -/

variable {I : Image} {r : Rights} {c : Core} {m : ByteMem} {top : Word} {l : List Word} {n : Nat}
variable {ev : Event} {v : BitVec 8}

/-- Devices interrupt from `IRQ_OFFSET` on, where no exceptions are. -/
def Remapped : Event → Prop
  | .interrupt v _ => 32#8 ≤ v
  | _ => True

theorem mem_withErrorCode : v ∈ withErrorCode ↔ hasErrorCode v = true := by
  simp [withErrorCode, hasErrorCode, or_assoc]

/-- **The processor pushes an error code if and only if the handler expects one.** -/
theorem delivery_err (hcpl : c.file.cpl = 3#2) (hev : Remapped ev) :
    (ev.delivery I.processor c.file).2.1.isSome ↔
      (ev.delivery I.processor c.file).1 ∈ withErrorCode := by
  cases ev with
  | exception v err rf =>
    rw [mem_withErrorCode]
    simp [Event.delivery]
  | interrupt v rf =>
    have hno : v ∉ withErrorCode := by
      intro hv
      have hlow : ∀ v ∈ withErrorCode, ¬ 32#8 ≤ v := by decide
      exact hlow v hv hev
    simp [Event.delivery, hno]
  | int v next =>
    simp only [Event.delivery, hcpl]
    split
    · have hno : v ∉ withErrorCode := by
        rcases (I.intOk_iff v).1 ‹_› with rfl | rfl <;> decide
      simp [hno]
    · simp [withErrorCode]

/-- A handler leaves an error code and the trap number on the stack. -/
theorem handler_run {T : Processor} {err : Option Word} (herr : err.isSome ↔ v ∈ withErrorCode)
    (hr : r.Stack top n) (hl : l.length + 2 ≤ n) (a : Word) :
    sysRun T r (handler a v) (c.stacked m top (err.toList ++ l)) =
      some ((c.jump a).stacked m top (v.setWidth 32 :: err.getD 0#32 :: l)) := by
  have hpush : ∀ (l' : List Word) (w : Word), l'.length < n →
      SysInstr.exec T r (c.stacked m top l') (.pushi w) = some (c.stacked m top (w :: l')) :=
    fun l' w hl' => push_stacked hr hl' w
  cases err with
  | none =>
    rw [handler, if_neg fun hv => absurd (herr.2 hv) (by simp), traphandlerNoec, Option.toList_none,
      List.nil_append, sysRun_step (hpush _ _ (by omega)), sysRun_step (hpush _ _ (by simp; omega))]
    rfl
  | some e =>
    rw [handler, if_pos (herr.1 rfl), traphandler, sysRun_step (hpush _ _ (by simp; omega))]
    rfl

/-- `_alltraps` saves the other registers, and calls `trap` with the kernel's segments loaded. -/
theorem alltraps_run (hcpl : c.file.cpl = 0#2) (hr : r.Stack top n) (hl : l.length + 12 ≤ n)
    (trap next : Word) : ∃ hes hds : BitVec 16,
      sysRun I.processor r (alltraps trap next) (c.stacked m top l) =
        some (Core.stacked ⟨⟨{ c.regs with eax := gdKd, ebp := 0#32, eip := trap },
          { c.segs with ds := gdKd.setWidth 16, es := gdKd.setWidth 16 }⟩, m⟩ m top
            (next :: (top - BitVec.ofNat 32 (4 * (l.length + 10))) ::
              ([c.regs.edi, c.regs.esi, c.regs.ebp, top - BitVec.ofNat 32 (4 * (l.length + 2)),
                c.regs.ebx, c.regs.edx, c.regs.ecx, c.regs.eax] ++
                (hes ++ c.segs.es) :: (hds ++ c.segs.ds) :: l))) := by
  obtain ⟨hds, hds_run⟩ :=
    pushSel_stacked (T := I.processor) (c := c) (m := m) (l := l) hr (by omega)
    c.segs.ds
  obtain ⟨l₁, hl₁⟩ : ∃ l₁ : List Word, l₁ = (hds ++ c.segs.ds) :: l := ⟨_, rfl⟩
  have hlen₁ : l₁.length = l.length + 1 := by simp [hl₁]
  obtain ⟨hes, hes_run⟩ :=
    pushSel_stacked (T := I.processor) (c := c) (m := m) (l := l₁) hr (by omega)
    c.segs.es
  obtain ⟨l₂, hl₂⟩ : ∃ l₂ : List Word, l₂ = (hes ++ c.segs.es) :: l₁ := ⟨_, rfl⟩
  have hlen₂ : l₂.length = l.length + 2 := by simp [hl₂, hlen₁]
  have hall := pushal_stacked (c := c) (m := m) (l := l₂) hr (by omega)
  obtain ⟨l₃, hl₃⟩ : ∃ l₃ : List Word, l₃ = [c.regs.edi, c.regs.esi, c.regs.ebp,
    top - BitVec.ofNat 32 (4 * l₂.length), c.regs.ebx, c.regs.edx, c.regs.ecx, c.regs.eax] ++ l₂ :=
    ⟨_, rfl⟩
  have hlen₃ : l₃.length = l.length + 10 := by simp [hl₃, hlen₂]
  rw [← hl₁] at hds_run
  rw [← hl₂] at hes_run
  rw [← hl₃] at hall
  -- the registers, one instruction after the other
  obtain ⟨k₁, hk₁⟩ : ∃ k : Core, k = ⟨⟨{ c.regs with eax := gdKd }, c.segs⟩, m⟩ := ⟨_, rfl⟩
  obtain ⟨k₂, hk₂⟩ : ∃ k : Core, k = ⟨⟨k₁.regs, { k₁.segs with ds := gdKd.setWidth 16 }⟩, m⟩ :=
    ⟨_, rfl⟩
  obtain ⟨k₃, hk₃⟩ : ∃ k : Core, k = ⟨⟨k₂.regs, { k₂.segs with es := gdKd.setWidth 16 }⟩, m⟩ :=
    ⟨_, rfl⟩
  have hmovi : SysInstr.exec I.processor r (c.stacked m top l₃) (.movi gdKd .eax) =
      some (k₁.stacked m top l₃) := by
    rw [hk₁]
    rfl
  have hds_load : SysInstr.exec I.processor r (k₁.stacked m top l₃) (.movSeg .eax .ds) =
      some (k₂.stacked m top l₃) := by
    have heax : (k₁.stacked m top l₃).regs.eax = gdKd := by rw [hk₁]; rfl
    have hcpl₁ : (k₁.stacked m top l₃).file.cpl = 0#2 := by rw [hk₁]; exact hcpl
    rw [SysInstr.exec, Regs.get, heax, loadSeg_run (by rw [hcpl₁]; exact I.dataOk_kd), hk₂]
    rfl
  have hes_load : SysInstr.exec I.processor r (k₂.stacked m top l₃) (.movSeg .eax .es) =
      some (k₃.stacked m top l₃) := by
    have heax : (k₂.stacked m top l₃).regs.eax = gdKd := by rw [hk₂, hk₁]; rfl
    have hcpl₂ : (k₂.stacked m top l₃).file.cpl = 0#2 := by rw [hk₂, hk₁]; exact hcpl
    rw [SysInstr.exec, Regs.get, heax, loadSeg_run (by rw [hcpl₂]; exact I.dataOk_kd), hk₃]
    rfl
  have hesp_push : SysInstr.exec I.processor r (k₃.stacked m top l₃) (.user (.pushl .esp)) =
      some (k₃.stacked m top ((top - BitVec.ofNat 32 (4 * l₃.length)) :: l₃)) :=
    push_stacked hr (by omega) _
  obtain ⟨l₄, hl₄⟩ : ∃ l₄ : List Word, l₄ = (top - BitVec.ofNat 32 (4 * l₃.length)) :: l₃ :=
    ⟨_, rfl⟩
  have hebp : SysInstr.exec I.processor r (k₃.stacked m top l₄) (.movi 0#32 .ebp) =
      some (Core.stacked ⟨⟨{ k₃.regs with ebp := 0#32 }, k₃.segs⟩, m⟩ m top l₄) := rfl
  have hcall : SysInstr.exec I.processor r
      (Core.stacked ⟨⟨{ k₃.regs with ebp := 0#32 }, k₃.segs⟩, m⟩ m top l₄) (.call trap next) =
        some ((Core.stacked ⟨⟨{ k₃.regs with ebp := 0#32 }, k₃.segs⟩, m⟩ m top
          (next :: l₄)).jump trap) := by
    rw [SysInstr.exec, push_stacked hr (by simp [hl₄]; omega)]
    rfl
  rw [← hl₄] at hesp_push
  refine ⟨hes, hds, ?_⟩
  rw [alltraps, sysRun_step (i := .pushSeg .ds) hds_run, sysRun_step (i := .pushSeg .es) hes_run,
    sysRun_step (i := .pushal) hall, sysRun_step hmovi, sysRun_step hds_load, sysRun_step hes_load,
    sysRun_step hesp_push, sysRun_step hebp, sysRun_step hcall, hl₄, hlen₃, hl₃, hlen₂, hl₂, hl₁,
    hk₃, hk₂, hk₁]
  rfl

/-- The processor is about to run `trap`, with the frame `tf` as its argument. -/
structure Image.Called (I : Image) (c c' : Core) (tf : Trapframe) : Prop where
  eip : c'.regs.eip = I.trap
  frame : tf.At c'.mem (kstacktop - tfSize)
  arg : c'.mem.word (c'.regs.esp + 4#32) = kstacktop - tfSize
  segs : c'.segs = ⟨gdKt.setWidth 16, gdKd.setWidth 16, gdKd.setWidth 16, gdKd.setWidth 16⟩
  /-- Interrupts are disabled, as `trap` asserts. -/
  disabled : c'.regs.eflags &&& flagIF = 0#32
  /-- The `iret` of `env_pop_tf` will not switch tasks. -/
  nested : c'.regs.eflags &&& flagNT = 0#32
  reserved : FlagsOk c.regs.eflags → FlagsOk c'.regs.eflags
  /-- Only the top of the kernel stack is written. -/
  others : ∀ x, ¬ ByteMem.Within (kstacktop - 76#32) 76 x → c'.mem x = c.mem x

theorem gateFlags_and {gate : Descriptor} (h : gate.kind = stsIg32) (flags mask : Word) :
    gateFlags gate flags &&& mask =
      flags &&& (~~~(flagTF ||| flagNT ||| flagRF ||| flagVM ||| flagIF) &&& mask) := by
  rw [gateFlags, h, stsIg32, beq_self_eq_true, if_pos rfl, BitVec.and_assoc]

theorem smallMem_ts : kernelTs.At smallMem smallImage.ts := by
  refine ⟨?_, ?_, ?_⟩ <;> decide

theorem kernelRights_word (a : Word) : kernelRights.Word a := fun _ _ => rfl

/-- The core at the first instruction of `trap`, but for the stack. -/
def Image.arrived (I : Image) (c : Core) (gate : Descriptor) : Core :=
  ⟨⟨{ c.regs with
      eax := gdKd
      ebp := 0#32
      eip := I.trap
      eflags := gateFlags gate c.regs.eflags },
    ⟨gdKt.setWidth 16, gdKd.setWidth 16, gdKd.setWidth 16, gdKd.setWidth 16⟩⟩, c.mem⟩

/-- From the event to the first instruction of `trap`: what has been pushed is a frame, its address,
and the return address. -/
theorem enter_run (hcpl : c.file.cpl = 3#2) (hts : kernelTs.At c.mem I.ts) (hev : Remapped ev)
    (hr : r.Stack kstacktop 19) : ∃ (gate : Descriptor) (hes hds hcs hss : BitVec 16),
      gate.kind = stsIg32 ∧ I.enter r c ev = some ((I.arrived c gate).stacked c.mem kstacktop
        (I.next :: (kstacktop - tfSize) :: ((I.frame c.file ev).tfRegs.words ++
          [hes ++ c.segs.es, hds ++ c.segs.ds, (I.frame c.file ev).tfTrapno,
            (I.frame c.file ev).tfErr, (I.frame c.file ev).tfEip, hcs ++ c.segs.cs,
            (I.frame c.file ev).tfEflags, (I.frame c.file ev).tfEsp, hss ++ c.segs.ss]))) := by
  have herr := delivery_err (I := I) hcpl hev
  obtain ⟨v, err, flags, eip, hdel⟩ : ∃ v err flags eip,
    ev.delivery I.processor c.file = (v, err, flags, eip) := ⟨_, _, _, _, rfl⟩
  rw [hdel] at herr
  have hlen : err.toList.length ≤ 1 := by cases err <;> simp
  -- the processor
  obtain ⟨hcs, hss, hraise⟩ : ∃ hcs hss : BitVec 16, c.deliver I.processor r v err flags eip =
      some ((c.entered (trapGate I.idtEntries v).bits 0#2 (gdKd.setWidth 16)).stacked c.mem
        kstacktop
        (err.toList ++ [eip, hcs ++ c.segs.cs, flags, c.regs.esp, hss ++ c.segs.ss])) :=
    deliver_inward (I.leads v) (by rw [hcpl]; decide) (I.stackFor_zero hts) I.stackOk_kd hr
      (by omega)
  obtain ⟨k, hk⟩ : ∃ k, k = c.entered (trapGate I.idtEntries v).bits 0#2 (gdKd.setWidth 16) :=
    ⟨_, rfl⟩
  rw [← hk] at hraise
  -- the handler
  have hcode : I.code k.regs.eip = handler I.alltraps v := by
    have heip : k.regs.eip = I.idtEntries v := by
      rw [hk]
      exact I.trapGate_offset v
    rw [heip, I.code_handler]
  obtain ⟨l, hl⟩ : ∃ l : List Word, l = v.setWidth 32 :: err.getD 0#32 ::
    [eip, hcs ++ c.segs.cs, flags, c.regs.esp, hss ++ c.segs.ss] := ⟨_, rfl⟩
  have hlen : l.length = 7 := by
    rw [hl]
    rfl
  have hstub := handler_run (T := I.processor) (c := k) (m := c.mem)
    (l := [eip, hcs ++ c.segs.cs, flags, c.regs.esp, hss ++ c.segs.ss]) herr hr (by simp) I.alltraps
  rw [← hl] at hstub
  -- `_alltraps`
  have hkcpl : (k.jump I.alltraps).file.cpl = 0#2 := by
    rw [hk]
    exact rpl_withRpl _ _
  obtain ⟨hes, hds, hall⟩ := alltraps_run (I := I) (c := k.jump I.alltraps) (m := c.mem)
    (l := l) hkcpl hr (by omega) I.trap I.next
  have hframe : kstacktop - BitVec.ofNat 32 (4 * (7 + 10)) = kstacktop - tfSize := by decide
  have hoesp : kstacktop - BitVec.ofNat 32 (4 * (7 + 2)) = kstacktop - 36#32 := by decide
  rw [hlen, hframe, hoesp] at hall
  have hcs' : withRpl (trapGate I.idtEntries v).bits.selector 0#2 = gdKt.setWidth 16 := by
    rw [I.trapGate_selector]
    decide
  refine ⟨(trapGate I.idtEntries v).bits, hes, hds, hcs, hss, I.trapGate_kind v, ?_⟩
  rw [Image.enter, Core.raise, Image.frame, hdel, Image.arrived, ← hcs']
  simp only [Option.bind_eq_bind]
  rw [hraise, Option.bind_some, Image.block, Core.stacked_eip, hcode, hstub, Option.bind_some,
    Image.block, Core.stacked_eip, Core.jump_eip, I.code_alltraps, hall, hk, hl]
  rfl

/-- **Into the kernel.**  Whatever makes the processor leave a program, `trap` is called with a
frame that holds the program's registers. -/
theorem enter_called (hcpl : c.file.cpl = 3#2) (hts : kernelTs.At c.mem I.ts) (hev : Remapped ev)
    (hr : r.Stack kstacktop 19) :
    ∃ c', I.enter r c ev = some c' ∧ I.Called c c' (I.frame c.file ev) := by
  obtain ⟨gate, hes, hds, hcs, hss, hkind, hrun⟩ := enter_run hcpl hts hev hr
  obtain ⟨l, hl⟩ : ∃ l, l = I.next :: (kstacktop - tfSize) :: ((I.frame c.file ev).tfRegs.words ++
    [hes ++ c.segs.es, hds ++ c.segs.ds, (I.frame c.file ev).tfTrapno, (I.frame c.file ev).tfErr,
      (I.frame c.file ev).tfEip, hcs ++ c.segs.cs, (I.frame c.file ev).tfEflags,
      (I.frame c.file ev).tfEsp, hss ++ c.segs.ss]) := ⟨_, rfl⟩
  have hlen : l.length = 19 := by
    rw [hl]
    rfl
  have hflags : ((I.arrived c gate).stacked c.mem kstacktop l).regs.eflags =
      gateFlags gate c.regs.eflags := rfl
  rw [← hl] at hrun
  refine ⟨_, hrun, rfl, ?_, ?_, rfl, ?_, ?_, fun hok => ?_, fun x hx => ?_⟩
  · rw [Core.stacked_mem, hl]
    exact Trapframe.at_pushed ⟨rfl, rfl, rfl, rfl⟩
  · have harg : (c.mem.pushed kstacktop l).word (kstacktop - BitVec.ofNat 32 (4 * l.length) +
        BitVec.ofNat 32 (4 * 1)) = l[1] := ByteMem.word_pushed_add (by omega) (by omega)
    rw [Core.stacked_mem, Core.stacked_esp]
    refine harg.trans ?_
    simp [hl]
  · rw [hflags, gateFlags_and hkind]
    exact BitVec.and_zero
  · rw [hflags, gateFlags_and hkind]
    exact BitVec.and_zero
  · have hkeep : ~~~(flagTF ||| flagNT ||| flagRF ||| flagVM ||| flagIF) &&& ~~~allFlags =
        ~~~allFlags := by
      decide
    rw [FlagsOk] at hok ⊢
    rw [hflags, gateFlags_and hkind, hkeep, hok]
  · rw [Core.stacked_mem]
    refine ByteMem.pushed_apart ?_
    rw [hlen]
    exact hx

theorem Taskstate.At.congr {ts : Taskstate} {m' : ByteMem} {a : Word} (h : ts.At m a)
    (hm : ∀ k < taskstateSize.toNat, m' (a + BitVec.ofNat 32 k) = m (a + BitVec.ofNat 32 k)) :
    ts.At m' a := by
  have hoff : ∀ i k, i + k < 104 →
      m' (a + BitVec.ofNat 32 i + BitVec.ofNat 32 k) =
        m (a + BitVec.ofNat 32 i + BitVec.ofNat 32 k) := by
    intro i k hk
    rw [BitVec.add_assoc, ← BitVec.ofNat_add]
    exact hm _ hk
  exact ⟨(ByteMem.word_congr fun k hk => hoff 4 k (by omega)).trans h.esp0,
    (ByteMem.half_congr fun k hk => hoff 8 k (by omega)).trans h.ss0,
    (ByteMem.half_congr fun k hk => hoff 102 k (by omega)).trans h.iomb⟩

/-- Nothing on the kernel stack is part of `ts`. -/
def Image.Apart (I : Image) : Prop :=
  ∀ k < taskstateSize.toNat, ¬ ByteMem.Within (kstacktop - 76#32) 76 (I.ts + BitVec.ofNat 32 k)

theorem smallImage_apart : smallImage.Apart := by
  rw [Image.Apart]
  decide

/-- An event leaves `ts` as it is. -/
theorem Image.Called.ts {c' : Core} {tf : Trapframe} (h : I.Called c c' tf) (hapart : I.Apart)
    (hts : kernelTs.At c.mem I.ts) : kernelTs.At c'.mem I.ts :=
  hts.congr fun k hk => h.others _ (hapart k hk)

/-- **All CPUs trap on one stack.**  A second CPU that leaves a program before the first one has
copied its frame writes over it: what the first `trap` has been given is the second program's
frame. -/
theorem enter_overwrites (hcpl : c.file.cpl = 3#2) (hts : kernelTs.At c.mem I.ts) (hapart : I.Apart)
    (hev : Remapped ev) (hr : r.Stack kstacktop 19) {f : RegFile} (hf : f.cpl = 3#2) {ev' : Event}
    (hev' : Remapped ev') :
    ∃ c' c'', I.enter r c ev = some c' ∧ I.enter r ⟨f, c'.mem⟩ ev' = some c'' ∧
      (I.frame f ev').At c''.mem (c'.mem.word (c'.regs.esp + 4#32)) := by
  obtain ⟨c', hc', hcalled⟩ := enter_called hcpl hts hev hr
  obtain ⟨c'', hc'', hcalled'⟩ := enter_called (c := ⟨f, c'.mem⟩) hf (hcalled.ts hapart hts) hev' hr
  refine ⟨c', c'', hc', hc'', ?_⟩
  rw [hcalled.arg]
  exact hcalled'.frame

theorem enter_overwrites_two : ∃ c' c'',
    smallImage.enter kernelRights ⟨initialTf.file, smallMem⟩ (.int 48#8 0x800022#32) = some c' ∧
    smallImage.enter kernelRights ⟨initialTf.file, c'.mem⟩ (.interrupt 32#8 false) = some c'' ∧
    (smallImage.frame initialTf.file (.interrupt 32#8 false)).At c''.mem
      (c'.mem.word (c'.regs.esp + 4#32)) :=
  enter_overwrites (by decide) smallMem_ts smallImage_apart (by trivial)
    (fun _ _ => kernelRights_word _) (by decide) (BitVec.le_refl 32#8)

/-! ## What a trap number means -/

/-- An exception comes in below `IRQ_OFFSET`.  A device does so above it, and not at `T_SYSCALL`:
the vectors are those of the 8259A and of the local APIC. -/
def Genuine : Event → Prop
  | .exception v _ _ => v < 32#8
  | .interrupt v _ => 32#8 ≤ v ∧ v ≠ 48#8
  | .int _ _ => True

theorem int_delivery {f : RegFile} (hf : f.cpl = 3#2) (v : BitVec 8) (next : Word) :
    (Event.int v next).delivery I.processor f =
      if v = 3#8 ∨ v = 48#8 then (v, none, f.regs.eflags, next)
      else (13#8, some (v.setWidth 32 <<< 3 ||| 2#32), withRF f.regs.eflags true, f.regs.eip) := by
  simp only [Event.delivery, hf, I.intOk_iff]

/-- **A program cannot feign a trap.**  The kernel sees a system call just when the program has
asked for one, a page fault just when there has been one, and an interrupt just when it is one of a
device.  A program that names any other gate than those for system calls and breakpoints is
destroyed. -/
theorem frame_genuine {f : RegFile} (hf : f.cpl = 3#2) (hev : Genuine ev) :
    ((I.frame f ev).tfTrapno = tSyscall ↔ ∃ next, ev = .int 48#8 next) ∧
    ((I.frame f ev).tfTrapno = tPgflt ↔ ∃ err rf, ev = .exception 14#8 err rf) ∧
    (irqOffset ≤ (I.frame f ev).tfTrapno ∧ (I.frame f ev).tfTrapno ≠ tSyscall ↔
      ∃ v rf, ev = .interrupt v rf) ∧
    ∀ v next, ev = .int v next → v ≠ 3#8 → v ≠ 48#8 → ∀ s, (trapDispatch (I.frame f ev)).run s =
      EStateM.run (do envDestroy (← derefEnv (← get).curenv) : KernelM Unit) s := by
  have htrapno : (I.frame f ev).tfTrapno = (ev.delivery I.processor f).1.setWidth 32 := rfl
  have hcs : ¬ (I.frame f ev).tfCs = gdKt := by
    intro hkt
    have hcs : f.segs.cs.setWidth 32 = 8#32 := hkt
    have hcs' : f.segs.cs = 8#16 := by bv_omega
    rw [RegFile.cpl, hcs'] at hf
    exact absurd hf (by decide)
  rw [htrapno, tSyscall, tPgflt, irqOffset]
  cases ev with
  | exception v err rf =>
    have hv : v < 32#8 := hev
    simp only [Event.delivery]
    refine ⟨iff_of_false (by bv_omega) (by simp), ⟨fun h => ⟨err, rf, ?_⟩, ?_⟩,
      iff_of_false (by bv_omega) (by simp), by simp⟩
    · have h14 : v = 14#8 := by bv_omega
      rw [h14]
    · rintro ⟨err', rf', h⟩
      cases h
      rfl
  | interrupt v rf =>
    obtain ⟨hv, hne⟩ : 32#8 ≤ v ∧ v ≠ 48#8 := hev
    simp only [Event.delivery]
    exact ⟨iff_of_false (by bv_omega) (by simp), iff_of_false (by bv_omega) (by simp),
      iff_of_true (by constructor <;> bv_omega) ⟨v, rf, rfl⟩, by simp⟩
  | int v next =>
    rw [int_delivery hf]
    by_cases hv : v = 3#8 ∨ v = 48#8
    · rw [if_pos hv]
      refine ⟨⟨fun h => ⟨next, ?_⟩, ?_⟩, iff_of_false (by bv_omega) (by simp),
        iff_of_false (by bv_omega) (by simp), ?_⟩
      · have h48 : v = 48#8 := by bv_omega
        rw [h48]
      · rintro ⟨next', h⟩
        cases h
        rfl
      · rintro v' next' h h3 h48
        cases h
        exact absurd hv (by simp [h3, h48])
    · rw [if_neg hv]
      dsimp only
      refine ⟨iff_of_false (by decide) ?_, iff_of_false (by decide) (by simp),
        iff_of_false (by decide) (by simp), fun v' next' h h3 h48 s => ?_⟩
      · rintro ⟨next', h⟩
        cases h
        exact hv (Or.inr rfl)
      · have hgp : (I.frame f (.int v next)).tfTrapno = 13#32 := by
          rw [htrapno, int_delivery hf, if_neg hv]
          rfl
        rw [trapDispatch, hgp, if_neg (by decide), if_neg (by decide), if_neg (by decide),
          if_neg (by decide), if_neg (by decide), if_neg hcs]

theorem frame_genuine_feigned :
    ((smallImage.frame initialTf.file (.int 14#8 0x800022#32)).tfTrapno = tSyscall ↔
      ∃ next, Event.int 14#8 0x800022#32 = .int 48#8 next) ∧
    ((smallImage.frame initialTf.file (.int 14#8 0x800022#32)).tfTrapno = tPgflt ↔
      ∃ err rf, Event.int 14#8 0x800022#32 = .exception 14#8 err rf) ∧
    (irqOffset ≤ (smallImage.frame initialTf.file (.int 14#8 0x800022#32)).tfTrapno ∧
      (smallImage.frame initialTf.file (.int 14#8 0x800022#32)).tfTrapno ≠ tSyscall ↔
        ∃ v rf, Event.int 14#8 0x800022#32 = .interrupt v rf) ∧
    ∀ v next, Event.int 14#8 0x800022#32 = .int v next → v ≠ 3#8 → v ≠ 48#8 → ∀ s,
      (trapDispatch (smallImage.frame initialTf.file (.int 14#8 0x800022#32))).run s =
        EStateM.run (do envDestroy (← derefEnv (← get).curenv) : KernelM Unit) s :=
  frame_genuine (by decide) trivial

/-! ## Out of the kernel -/

/-- A null selector is zero after `iret`. -/
def nullZero (sel : BitVec 16) : BitVec 16 := if isNull sel then 0#16 else sel

/-- What a program finds in its registers when it goes on. -/
def resumed (f : RegFile) : RegFile :=
  ⟨f.regs, { f.segs with ds := nullZero f.segs.ds, es := nullZero f.segs.es }⟩

theorem word_of_half {a w : Word} (h : (m.half a).setWidth 32 = w) :
    (m.word a).setWidth 16 = w.setWidth 16 := by
  rw [← h, ← ByteMem.half_eq_word]
  simp

theorem popal_frame {tf : Trapframe} {a : Word} {regs : Regs} (htf : tf.At m a)
    (ha : ∀ k < 17, r.Word (a + BitVec.ofNat 32 (4 * k))) (hesp : regs.esp = a) :
    (Context.mk regs m).popal r = some ⟨{ tf.userRegs with
      esp := a + 32#32
      eip := regs.eip
      eflags := regs.eflags }, m⟩ := by
  have hword : ∀ w k, (w, k) ∈ tf.tfRegs.words.zipIdx → m.word (a + BitVec.ofNat 32 (4 * k)) = w :=
    htf.regs
  have hedi : m.word a = tf.tfRegs.regEdi := by
    rw [← hword tf.tfRegs.regEdi 0 (by simp [PushRegs.words]), BitVec.add_zero]
  have hesi : m.word (a + 4#32) = tf.tfRegs.regEsi := hword _ 1 (by simp [PushRegs.words])
  have hebp : m.word (a + 8#32) = tf.tfRegs.regEbp := hword _ 2 (by simp [PushRegs.words])
  have hebx : m.word (a + 16#32) = tf.tfRegs.regEbx := hword _ 4 (by simp [PushRegs.words])
  have hedx : m.word (a + 20#32) = tf.tfRegs.regEdx := hword _ 5 (by simp [PushRegs.words])
  have hecx : m.word (a + 24#32) = tf.tfRegs.regEcx := hword _ 6 (by simp [PushRegs.words])
  have heax : m.word (a + 28#32) = tf.tfRegs.regEax := hword _ 7 (by simp [PushRegs.words])
  rw [popal_run hesp fun k hk => ha k (by omega), hedi, hesi, hebp, hebx, hedx, hecx, heax]
  rfl

/-- The `iret` of `env_pop_tf`, when the other registers have been loaded. -/
theorem iret_frame {tf : Trapframe} {a : Word} {k : RegFile} (hcpl : k.cpl = 0#2)
    (hflags : FlagsOk k.regs.eflags) (hnt : k.regs.eflags &&& flagNT = 0#32)
    (hesp : k.regs.esp = a + 48#32) (htf : tf.At m a)
    (ha : ∀ k < 17, r.Word (a + BitVec.ofNat 32 (4 * k))) (hfits : I.processor.Fits tf.file)
    (hlevel : tf.file.cpl = 3#2)
    (hregs : ({ k.regs with
      eip := tf.file.regs.eip
      eflags := tf.file.regs.eflags
      esp := tf.file.regs.esp } : Regs) = tf.file.regs)
    (hds : k.segs.ds = tf.file.segs.ds) (hes : k.segs.es = tf.file.segs.es) :
    SysInstr.exec I.processor r ⟨k, m⟩ .iret = some ⟨resumed tf.file, m⟩ := by
  have hcs : (m.word (a + 52#32)).setWidth 16 = tf.file.segs.cs := word_of_half htf.cs
  have hss : (m.word (a + 64#32)).setWidth 16 = tf.file.segs.ss := word_of_half htf.ss
  have hvm : tf.tfEflags &&& flagVM = 0#32 := by
    rw [← fixFlags_and (by decide)]
    exact hfits.vm
  have hlt : k.cpl < rpl tf.file.segs.cs := by
    rw [hcpl, show rpl tf.file.segs.cs = 3#2 from hlevel]
    decide
  have hp : ∀ k < 5, r.Word (a + 48#32 + BitVec.ofNat 32 (4 * k)) := by
    intro k hk
    have hword := ha (12 + k) (by omega)
    rw [Nat.mul_add, BitVec.ofNat_add, ← BitVec.add_assoc] at hword
    exact hword
  have h4 : a + 48#32 + 4#32 = a + 52#32 := BitVec.add_assoc a _ _
  have h8 : a + 48#32 + 8#32 = a + 56#32 := BitVec.add_assoc a _ _
  have h12 : a + 48#32 + 12#32 = a + 60#32 := BitVec.add_assoc a _ _
  have h16 : a + 48#32 + 16#32 = a + 64#32 := BitVec.add_assoc a _ _
  rw [SysInstr.exec, iret_outward (c := ⟨k, m⟩) hesp hp hnt (by rw [h8, htf.eflags, hvm])
    (by rw [h4, hcs]; exact hlt), h4, h8, h12, h16, htf.eip, hcs, htf.eflags, htf.esp, hss]
  have hfix : fixFlags tf.tfEflags = tf.file.regs.eflags := rfl
  have hout := hfits.outward hcpl hflags hfix
  have hkeepDs : I.processor.keep tf.file.cpl tf.file.segs.ds = nullZero tf.file.segs.ds :=
    keep_of_dataOk (hfits.data .ds)
  have hkeepEs : I.processor.keep tf.file.cpl tf.file.segs.es = nullZero tf.file.segs.es :=
    keep_of_dataOk (hfits.data .es)
  rw [hregs, hds, hes, hkeepDs, hkeepEs] at hout
  exact congrArg (Option.map _) hout

/-- **Out of the kernel.**  `env_pop_tf` loads the registers of a frame that a program may have. -/
theorem envPopTf_run {tf : Trapframe} {a : Word} (hcpl : c.file.cpl = 0#2)
    (hflags : FlagsOk c.regs.eflags) (hnt : c.regs.eflags &&& flagNT = 0#32)
    (htf : tf.At c.mem a) (ha : ∀ k < 17, r.Word (a + BitVec.ofNat 32 (4 * k)))
    (hfits : I.processor.Fits tf.file) (hlevel : tf.file.cpl = 3#2) :
    sysRun I.processor r (envPopTfCode a) c = some ⟨resumed tf.file, c.mem⟩ := by
  have hadd : ∀ i j : Word, a + i + j = a + (i + j) := BitVec.add_assoc a
  have hcpl' : ∀ (regs : Regs) (segs : Segs), segs.cs = c.segs.cs →
      RegFile.cpl ⟨regs, segs⟩ = 0#2 := by
    intro regs segs hcs
    rw [← hcpl, RegFile.cpl, RegFile.cpl, hcs]
  have hdata : ∀ reg, I.processor.dataOk 0#2 (tf.file.segs.get reg) = true := fun reg =>
    dataOk_of_le (hfits.data reg) (by rw [hlevel]; decide)
  have hes : (c.mem.word (a + 32#32)).setWidth 16 = tf.file.segs.es := word_of_half htf.es
  have hds : (c.mem.word (a + 36#32)).setWidth 16 = tf.file.segs.ds := word_of_half htf.ds
  obtain ⟨regs, hregs⟩ : ∃ regs, regs = ({ tf.userRegs with
      esp := a + 32#32
      eip := c.regs.eip
      eflags := c.regs.eflags } : Regs) := ⟨_, rfl⟩
  have hmovi : SysInstr.exec I.processor r c (.movi a .esp) =
      some ⟨⟨{ c.regs with esp := a }, c.segs⟩, c.mem⟩ := rfl
  have hpopal : SysInstr.exec I.processor r ⟨⟨{ c.regs with esp := a }, c.segs⟩, c.mem⟩
    (.user .popal) =
      some ⟨⟨regs, c.segs⟩, c.mem⟩ := by
    rw [SysInstr.exec, Core.lift, Instr.exec, popal_frame htf ha rfl, hregs]
    rfl
  have hpopEs : SysInstr.exec I.processor r ⟨⟨regs, c.segs⟩, c.mem⟩ (.popSeg .es) =
      some ⟨⟨{ regs with esp := a + 36#32 }, { c.segs with es := tf.file.segs.es }⟩, c.mem⟩ := by
    rw [popSeg_run (c := ⟨⟨regs, c.segs⟩, c.mem⟩) (p := a + 32#32) (by rw [hregs])
      (ha 8 (by decide))
      (hcpl' _ _ rfl) hes (hdata .es), hadd]
    rfl
  have hpopDs : SysInstr.exec I.processor r
      ⟨⟨{ regs with esp := a + 36#32 }, { c.segs with es := tf.file.segs.es }⟩, c.mem⟩
      (.popSeg .ds) =
      some ⟨⟨{ regs with esp := a + 40#32 },
        ⟨c.segs.cs, c.segs.ss, tf.file.segs.ds, tf.file.segs.es⟩⟩, c.mem⟩ := by
    rw [popSeg_run
      (c := ⟨⟨{ regs with esp := a + 36#32 }, { c.segs with es := tf.file.segs.es }⟩, c.mem⟩)
      (p := a + 36#32) rfl (ha 9 (by decide)) (hcpl' _ _ rfl) hds (hdata .ds), hadd]
    rfl
  obtain ⟨k, hk⟩ : ∃ k : RegFile, k = ⟨{ regs with
      esp := a + 48#32
      eflags := addFlags regs.eflags (a + 40#32) 8#32 },
    ⟨c.segs.cs, c.segs.ss, tf.file.segs.ds, tf.file.segs.es⟩⟩ := ⟨_, rfl⟩
  have haddl : SysInstr.exec I.processor r ⟨⟨{ regs with esp := a + 40#32 },
      ⟨c.segs.cs, c.segs.ss, tf.file.segs.ds, tf.file.segs.es⟩⟩, c.mem⟩ (.user (.addl 8#32 .esp)) =
        some ⟨k, c.mem⟩ := by
    have h48 : a + 40#32 + 8#32 = a + 48#32 := hadd _ _
    rw [hk, ← h48]
    rfl
  have hkflags : ∀ {mask : Word}, statusMask &&& mask = 0#32 →
      k.regs.eflags &&& mask = c.regs.eflags &&& mask := by
    intro mask hm
    rw [hk, addFlags_and hm, hregs]
  have hiret : SysInstr.exec I.processor r ⟨k, c.mem⟩ .iret = some ⟨resumed tf.file, c.mem⟩ := by
    have hkcpl : k.cpl = 0#2 := by
      rw [hk]
      exact hcpl' _ _ rfl
    refine iret_frame hkcpl ((hkflags (by decide)).trans hflags) ((hkflags (by decide)).trans hnt)
      ?_ htf ha
      hfits hlevel ?_ ?_ ?_
    · rw [hk]
    · rw [hk, hregs]
      rfl
    · rw [hk]
    · rw [hk]
  rw [envPopTfCode, sysRun_step hmovi, sysRun_step hpopal, sysRun_step hpopEs, sysRun_step hpopDs,
    sysRun_step haddl, sysRun_step hiret]
  rfl

/-! ## There and back -/

variable {f : RegFile}

/-- The frame stands for the registers that the event has saved. -/
theorem frame_file (hf : I.processor.Fits f) (ev : Event) :
    (I.frame f ev).file = ev.saved I.processor f := by
  have hsel : ∀ sel : BitVec 16, (sel.setWidth 32).setWidth 16 = sel := by
    intro sel
    simp
  have hflags := fixFlags_of_ok (hf.saved ev).flags
  simp only [Trapframe.file, Image.frame, Trapframe.userRegs, Event.saved, hsel] at hflags ⊢
  rw [hflags]

/-- A null selector fits. -/
theorem fits_resumed (hf : I.processor.Fits f) : I.processor.Fits (resumed f) where
  code := hf.code
  stack := hf.stack
  data reg := by
    have hzero : ∀ sel, I.processor.dataOk f.cpl sel = true →
        I.processor.dataOk f.cpl (nullZero sel) = true := by
      intro sel hsel
      rw [nullZero]
      split
      · rfl
      · exact hsel
    cases reg with
    | ds => exact hzero _ (hf.data .ds)
    | es => exact hzero _ (hf.data .es)
  flags := hf.flags
  iopl := hf.iopl
  vm := hf.vm

/-- **A program goes on with the registers it has been left with.**  Wherever the kernel keeps the
frame of an event, `env_pop_tf` of it gives the program all its registers back, save for a null
selector. -/
theorem envPopTf_frame {c' : Core} {a : Word} (hf : I.processor.Fits f) (hlevel : f.cpl = 3#2)
    (hcpl : c'.file.cpl = 0#2) (hflags : FlagsOk c'.regs.eflags)
    (hnt : c'.regs.eflags &&& flagNT = 0#32) (htf : (I.frame f ev).At c'.mem a)
    (ha : ∀ k < 17, r.Word (a + BitVec.ofNat 32 (4 * k))) :
    sysRun I.processor r (envPopTfCode a) c' =
      some ⟨resumed (ev.saved I.processor f), c'.mem⟩ := by
  have hfile := frame_file hf ev
  rw [← hfile]
  refine envPopTf_run hcpl hflags hnt htf ha ?_ ?_
  · rw [hfile]
    exact hf.saved ev
  · rw [hfile]
    exact hlevel

/-- The frame that `env_alloc` makes up can be loaded. -/
theorem initialTf_fits (I : Image) : I.processor.Fits initialTf.file := by
  have hcode : I.processor.lookup (initialTf.tfCs.setWidth 16) =
      some (seg (staX ||| staR) 0#32 0xffffffff#32 3#2).bits := rfl
  have hdata : I.processor.lookup (initialTf.tfDs.setWidth 16) =
      some (seg staW 0#32 0xffffffff#32 3#2).bits := rfl
  refine ⟨?_, ?_, fun reg => ?_, ?_, ?_, ?_⟩
  · rw [show initialTf.file.segs.cs = initialTf.tfCs.setWidth 16 from rfl, Processor.codeOk, hcode]
    decide
  · rw [show initialTf.file.segs.ss = initialTf.tfDs.setWidth 16 from rfl, Processor.stackOk, hdata]
    decide
  · have hreg : initialTf.file.segs.get reg = initialTf.tfDs.setWidth 16 := by cases reg <;> rfl
    rw [hreg, Processor.dataOk, hdata]
    decide
  all_goals decide

theorem envPopTf_frame_syscall : ∃ c',
    smallImage.enter kernelRights ⟨initialTf.file, smallMem⟩ (.int 48#8 0x800022#32) = some c' ∧
    sysRun smallImage.processor kernelRights (envPopTfCode (kstacktop - tfSize)) c' =
      some ⟨resumed ((Event.int 48#8 0x800022#32).saved smallImage.processor initialTf.file),
        c'.mem⟩ := by
  obtain ⟨c', hc', hcalled⟩ := enter_called (I := smallImage) (c := ⟨initialTf.file, smallMem⟩)
    (r := kernelRights) (by decide) smallMem_ts (show Remapped (.int 48#8 0x800022#32) from trivial)
    fun _ _ => kernelRights_word _
  have hcpl : c'.file.cpl = 0#2 := by
    rw [RegFile.cpl, show c'.file.segs = _ from hcalled.segs]
    decide
  exact ⟨c', hc', envPopTf_frame (initialTf_fits smallImage) (by decide) hcpl
    (hcalled.reserved (initialTf_fits smallImage).flags) hcalled.nested hcalled.frame
    fun _ _ => kernelRights_word _⟩

end Jos
