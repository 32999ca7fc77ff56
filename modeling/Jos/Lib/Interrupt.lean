import Jos.Lib.X86

/-!
# Privilege levels and interrupts of the x86

Descriptors, the checks the processor makes when a selector is loaded, the delivery of an interrupt
through a gate, and `iret`.  The segments are flat: an offset is an address, and no limit is
checked.  There is no local descriptor table.

A memory access below is one of privileged code.  Where an instruction, or a delivery, would cause a
further exception there is no result.  `iret` to virtual-8086 mode and to another task have none
either.

The processor pushes a selector as a word, or as a half word that leaves the upper half of the word
alone: `Processor.upper` is what is found there afterwards.
-/

set_option autoImplicit false

namespace X86

/-! ## Selectors and descriptors -/

/-- The privilege level that a selector asks for. -/
def rpl (sel : BitVec 16) : BitVec 2 := sel.setWidth 2

/-- The selector with privilege level `l`. -/
def withRpl (sel : BitVec 16) (l : BitVec 2) : BitVec 16 := sel &&& 0xfffc#16 ||| l.setWidth 16

/-- The selector names no segment. -/
def isNull (sel : BitVec 16) : Bool := sel &&& 0xfffc#16 == 0#16

/-- An entry of a descriptor table, as the processor reads it. -/
abbrev Descriptor := BitVec 64

namespace Descriptor

variable (d : Descriptor)

def present : Bool := d.getLsbD 47
def dpl : BitVec 2 := d.extractLsb' 45 2
def kind : BitVec 4 := d.extractLsb' 40 4

/-- A segment of code or data, not a gate or a task. -/
def isSegment : Bool := d.getLsbD 44

def isCode : Bool := d.isSegment && d.getLsbD 43
def conforming : Bool := d.isCode && d.getLsbD 42
def readable : Bool := d.isSegment && (!d.getLsbD 43 || d.getLsbD 41)
def writable : Bool := d.isSegment && !d.getLsbD 43 && d.getLsbD 41
def base : BitVec 32 := d.extractLsb' 56 8 ++ d.extractLsb' 16 24
def limit : BitVec 20 := d.extractLsb' 48 4 ++ d.extractLsb' 0 16

/-- Where a gate leads to. -/
def offset : BitVec 32 := d.extractLsb' 48 16 ++ d.extractLsb' 0 16
def selector : BitVec 16 := d.extractLsb' 16 16

/-- A 32-bit interrupt gate or trap gate. -/
def isGate : Bool := d.present && !d.isSegment && (d.kind == 14#4 || d.kind == 15#4)

end Descriptor

/-- What the processor has been set up with. -/
structure Processor where
  gdt : List Descriptor
  idt : List Descriptor
  /-- The task register: the descriptor of the task state segment. -/
  task : Descriptor
  upper : ByteMem → BitVec 32 → BitVec 16

namespace Processor

variable (T : Processor)

/-- The descriptor that a selector names; bit 2 would ask for the local table. -/
def lookup (sel : BitVec 16) : Option Descriptor :=
  if sel.getLsbD 2 then none else T.gdt[sel.toNat / 8]?

/-- May `ds` or `es` be loaded at level `cpl`? -/
def dataOk (cpl : BitVec 2) (sel : BitVec 16) : Bool :=
  isNull sel || (T.lookup sel).any fun d =>
    d.present && d.readable && (d.conforming || decide (cpl ≤ d.dpl ∧ rpl sel ≤ d.dpl))

/-- May `ss` be loaded at level `cpl`? -/
def stackOk (cpl : BitVec 2) (sel : BitVec 16) : Bool :=
  !isNull sel && rpl sel == cpl && (T.lookup sel).any fun d =>
    d.present && d.writable && d.dpl == cpl

/-- May `iret` return to the level that `cs` asks for? -/
def codeOk (sel : BitVec 16) : Bool :=
  !isNull sel && (T.lookup sel).any fun d =>
    d.present && d.isCode && (if d.conforming then decide (d.dpl ≤ rpl sel) else d.dpl == rpl sel)

/-- What becomes of `ds` and `es` on the way out to level `l`: a null selector, and one of a segment
that level `l` must not use, comes out as zero. -/
def keep (l : BitVec 2) (sel : BitVec 16) : BitVec 16 :=
  if isNull sel || (T.lookup sel).any fun d => !d.conforming && decide (d.dpl < l) then 0#16
  else sel

/-- The stack of level `l`, in the task state segment. -/
def stackFor (m : ByteMem) (l : BitVec 2) : BitVec 16 × BitVec 32 :=
  let a := T.task.base + BitVec.ofNat 32 (8 * l.toNat)
  (m.half (a + 8#32), m.word (a + 4#32))

end Processor

/-! ## The flags -/

/-- The flags there are.  Of the other bits, bit 1 is set and the rest are clear. -/
def allFlags : BitVec 32 := 0x3f7fd5#32

/-- `VIP`, `VIF`, `VM` and `IOPL`: a program leaves them alone. -/
def systemFlags : BitVec 32 := 0x1a3000#32

def flagTF : BitVec 32 := 0x100#32
def flagIF : BitVec 32 := 0x200#32
def flagNT : BitVec 32 := 0x4000#32
def flagRF : BitVec 32 := 0x10000#32
def flagVM : BitVec 32 := 0x20000#32

def iopl (flags : BitVec 32) : BitVec 2 := flags.extractLsb' 12 2

def FlagsOk (flags : BitVec 32) : Prop := flags &&& ~~~allFlags = 2#32

instance (flags : BitVec 32) : Decidable (FlagsOk flags) := inferInstanceAs (Decidable (_ = _))

/-- The flags, with the other bits as they are. -/
def fixFlags (flags : BitVec 32) : BitVec 32 := 2#32 ||| flags &&& allFlags

/-- The flags that level `cpl` can change. -/
def changeable (cpl : BitVec 2) (flags : BitVec 32) : BitVec 32 :=
  if cpl = 0#2 then allFlags
  else if cpl ≤ iopl flags then allFlags &&& ~~~systemFlags
  else allFlags &&& ~~~systemFlags &&& ~~~flagIF

/-- Loading the flags at level `cpl`. -/
def loadFlags (cpl : BitVec 2) (old new : BitVec 32) : BitVec 32 :=
  old &&& ~~~changeable cpl old ||| new &&& changeable cpl old

/-- The flags with the resume flag set, or clear. -/
def withRF (flags : BitVec 32) (rf : Bool) : BitVec 32 :=
  flags &&& ~~~flagRF ||| if rf then flagRF else 0#32

/-- The flags behind a gate.  An interrupt gate, unlike a trap gate, clears `IF`. -/
def gateFlags (gate : Descriptor) (flags : BitVec 32) : BitVec 32 :=
  flags &&& ~~~(flagTF ||| flagNT ||| flagRF ||| flagVM |||
    if gate.kind == 14#4 then flagIF else 0#32)

/-! ## A processor core -/

/-- The segment registers. -/
structure Segs where
  cs : BitVec 16
  ss : BitVec 16
  ds : BitVec 16
  es : BitVec 16
deriving DecidableEq

/-- The registers of a program, with the segment registers. -/
structure RegFile where
  regs : Regs
  segs : Segs
deriving DecidableEq

/-- The current privilege level. -/
def RegFile.cpl (f : RegFile) : BitVec 2 := rpl f.segs.cs

/-- The registers, and memory. -/
structure Core where
  file : RegFile
  mem : ByteMem

namespace Core

variable (T : Processor) (r : Rights)

abbrev regs (c : Core) : Regs := c.file.regs
abbrev segs (c : Core) : Segs := c.file.segs

/-- A piece of user-level code. -/
def lift (c : Core) (f : Context → Option Context) : Option Core :=
  (f ⟨c.regs, c.mem⟩).map fun k => ⟨⟨k.regs, c.segs⟩, k.mem⟩

def push (c : Core) (w : BitVec 32) : Option Core := c.lift fun k => k.push r w

/-- Pushing a selector. -/
def pushSel (c : Core) (sel : BitVec 16) : Option Core :=
  c.push r (T.upper c.mem (c.regs.esp - 4#32) ++ sel)

def pop (c : Core) : Option (BitVec 32 × Core) :=
  ((Context.mk c.regs c.mem).pop r).map fun (w, k) => (w, ⟨⟨k.regs, c.segs⟩, k.mem⟩)

/-- Switching to the stack of level `l`, and saving the old one there. -/
def switchStack (c : Core) (l : BitVec 2) : Option Core := do
  let (ss, esp) := T.stackFor c.mem l
  guard (T.stackOk l ss)
  let c' : Core := ⟨⟨{ c.regs with esp := esp }, { c.segs with ss := ss }⟩, c.mem⟩
  let c' ← c'.pushSel T r c.segs.ss
  c'.push r c.regs.esp

/-- An error code, if there is one. -/
def pushErr (c : Core) : Option (BitVec 32) → Option Core
  | some err => c.push r err
  | none => some c

/-- Delivery through gate `v`, where `flags` and `eip` are what is saved. -/
def deliver (c : Core) (v : BitVec 8) (err : Option (BitVec 32)) (flags eip : BitVec 32) :
    Option Core := do
  let gate ← T.idt[v.toNat]?
  guard gate.isGate
  let code ← T.lookup gate.selector
  guard (!isNull gate.selector && code.present && code.isCode && decide (code.dpl ≤ c.file.cpl))
  let level := if code.conforming then c.file.cpl else code.dpl
  let c₁ ← if level < c.file.cpl then c.switchStack T r level else some c
  let c₂ ← c₁.push r flags
  let c₃ ← c₂.pushSel T r c.segs.cs
  let c₄ ← c₃.push r eip
  let c₅ ← c₄.pushErr r err
  return ⟨⟨{ c₅.regs with eip := gate.offset, eflags := gateFlags gate c.regs.eflags },
    { c₅.segs with cs := withRpl gate.selector level }⟩, c₅.mem⟩

end Core

/-! ## Events -/

/-- The exceptions for which the processor pushes an error code. -/
def hasErrorCode (v : BitVec 8) : Bool :=
  v == 8#8 || v == 10#8 || v == 11#8 || v == 12#8 || v == 13#8 || v == 14#8 || v == 17#8

/-- What makes the processor leave a program. -/
inductive Event where
  /-- An exception; `rf` is the resume flag that is saved. -/
  | exception (v : BitVec 8) (err : BitVec 32) (rf : Bool)
  /-- An interrupt from a device. -/
  | interrupt (v : BitVec 8) (rf : Bool)
  /-- `int $v`, where `next` is the address of the next instruction. -/
  | int (v : BitVec 8) (next : BitVec 32)

/-- May a program at level `cpl` name gate `v` in an `int`? -/
def Processor.intOk (T : Processor) (cpl : BitVec 2) (v : BitVec 8) : Bool :=
  (T.idt[v.toNat]?).any fun gate => decide (cpl ≤ gate.dpl)

/-- The vector that an event is delivered through, the error code, and the flags and the address
that are saved.  An `int` that is not allowed is a general protection fault, whose error code names
the gate. -/
def Event.delivery (T : Processor) (f : RegFile) :
    Event → BitVec 8 × Option (BitVec 32) × BitVec 32 × BitVec 32
  | .exception v err rf =>
    (v, if hasErrorCode v then some err else none, withRF f.regs.eflags rf, f.regs.eip)
  | .interrupt v rf => (v, none, withRF f.regs.eflags rf, f.regs.eip)
  | .int v next =>
    if T.intOk f.cpl v then (v, none, f.regs.eflags, next)
    else (13#8, some (v.setWidth 32 <<< 3 ||| 2#32), withRF f.regs.eflags true, f.regs.eip)

/-- The event happens. -/
def Core.raise (T : Processor) (r : Rights) (c : Core) (ev : Event) : Option Core :=
  let (v, err, flags, eip) := ev.delivery T c.file
  c.deliver T r v err flags eip

/-! ## The instructions of privileged code -/

/-- `ds` and `es`. -/
inductive SegReg where
  | ds | es
deriving DecidableEq

def Segs.get (s : Segs) : SegReg → BitVec 16
  | .ds => s.ds
  | .es => s.es

def Segs.set (s : Segs) (reg : SegReg) (sel : BitVec 16) : Segs :=
  match reg with
  | .ds => { s with ds := sel }
  | .es => { s with es := sel }

inductive SysInstr where
  | user (i : Instr)
  /-- `pushl $imm` -/
  | pushi (imm : BitVec 32)
  /-- `movl $imm, %dst` -/
  | movi (imm : BitVec 32) (dst : Reg)
  | pushal
  /-- `pushl %src` -/
  | pushSeg (src : SegReg)
  /-- `popl %dst` -/
  | popSeg (dst : SegReg)
  /-- `movw %src, %dst` -/
  | movSeg (src : Reg) (dst : SegReg)
  | jmp (target : BitVec 32)
  /-- `call target`, where `next` is the address of the next instruction. -/
  | call (target next : BitVec 32)
  | iret

namespace Core

variable (T : Processor) (r : Rights)

def pushal (c : Core) : Option Core := do
  let t := c.regs
  let c ← c.push r t.eax
  let c ← c.push r t.ecx
  let c ← c.push r t.edx
  let c ← c.push r t.ebx
  let c ← c.push r t.esp
  let c ← c.push r t.ebp
  let c ← c.push r t.esi
  c.push r t.edi

/-- Loading `ds` or `es`. -/
def loadSeg (c : Core) (dst : SegReg) (sel : BitVec 16) : Option Core := do
  guard (T.dataOk c.file.cpl sel)
  return ⟨⟨c.regs, c.segs.set dst sel⟩, c.mem⟩

def jump (c : Core) (target : BitVec 32) : Core := ⟨⟨{ c.regs with eip := target }, c.segs⟩, c.mem⟩

end Core

/-- What `iret` makes of the registers on the way to an outer level. -/
def Processor.outward (T : Processor) (f : RegFile) (eip : BitVec 32) (cs : BitVec 16)
    (flags esp : BitVec 32) (ss : BitVec 16) : Option RegFile := do
  guard (T.codeOk cs && T.stackOk (rpl cs) ss)
  return ⟨{ f.regs with eip := eip, eflags := loadFlags f.cpl f.regs.eflags flags, esp := esp },
    ⟨cs, ss, T.keep (rpl cs) f.segs.ds, T.keep (rpl cs) f.segs.es⟩⟩

namespace Core

variable (T : Processor) (r : Rights)

def iret (c : Core) : Option Core := do
  guard (c.regs.eflags &&& flagNT == 0#32)
  let (eip, c₁) ← c.pop r
  let (cs, c₂) ← c₁.pop r
  let (flags, c₃) ← c₂.pop r
  guard (c.file.cpl != 0#2 || flags &&& flagVM == 0#32)
  let cs := cs.setWidth 16
  if c.file.cpl < rpl cs then
    let (esp, c₄) ← c₃.pop r
    let (ss, _) ← c₄.pop r
    let f ← T.outward c.file eip cs flags esp (ss.setWidth 16)
    return ⟨f, c.mem⟩
  else
    guard (T.codeOk cs && rpl cs == c.file.cpl)
    return ⟨⟨{ c₃.regs with eip := eip, eflags := loadFlags c.file.cpl c.regs.eflags flags },
      { c.segs with cs := cs }⟩, c.mem⟩

end Core

/-- One instruction. -/
def SysInstr.exec (T : Processor) (r : Rights) (c : Core) : SysInstr → Option Core
  | .user i => c.lift fun k => i.exec r k
  | .pushi imm => c.push r imm
  | .movi imm dst => some ⟨⟨c.regs.set dst imm, c.segs⟩, c.mem⟩
  | .pushal => c.pushal r
  | .pushSeg src => c.pushSel T r (c.segs.get src)
  | .popSeg dst => (c.pop r).bind fun (w, c') => c'.loadSeg T dst (w.setWidth 16)
  | .movSeg src dst => c.loadSeg T dst ((c.regs.get src).setWidth 16)
  | .jmp target => some (c.jump target)
  | .call target next => (c.push r next).map fun c' => c'.jump target
  | .iret => c.iret T r

/-- Straight-line code. -/
def sysRun (T : Processor) (r : Rights) (l : List SysInstr) (c : Core) : Option Core :=
  l.foldlM (fun c i => i.exec T r c) c

/-! ## Programs -/

/-- What one instruction of a program can do to its registers.  A program that gets through a gate
of the descriptor table may do anything. -/
inductive Processor.Moves (T : Processor) (f : RegFile) : RegFile → Prop where
  | plain {regs : Regs} (w : BitVec 32) (flags : regs.eflags = loadFlags f.cpl f.regs.eflags w) :
      Moves T f ⟨regs, f.segs⟩
  | data (dst : SegReg) {sel : BitVec 16} (ok : T.dataOk f.cpl sel = true) :
      Moves T f ⟨f.regs, f.segs.set dst sel⟩
  | stack {sel : BitVec 16} (ok : T.stackOk f.cpl sel = true) :
      Moves T f ⟨f.regs, { f.segs with ss := sel }⟩
  /-- A jump, a call or a return to another segment. -/
  | far {regs : Regs} (w : BitVec 32) (flags : regs.eflags = loadFlags f.cpl f.regs.eflags w)
      {sel : BitVec 16} {d : Descriptor} (named : T.lookup sel = some d) (null : isNull sel = false)
      (code : d.present = true ∧ d.isCode = true)
      (level : if d.conforming then d.dpl ≤ f.cpl else d.dpl = f.cpl) :
      Moves T f ⟨regs, { f.segs with cs := withRpl sel f.cpl }⟩
  | gate {sel : BitVec 16} {d : Descriptor} (named : T.lookup sel = some d)
      (system : d.isSegment = false) (present : d.present = true) (level : f.cpl ≤ d.dpl)
      (f' : RegFile) : Moves T f f'

/-- No gate and no task is open to level `cpl`. -/
def Processor.Closed (T : Processor) (cpl : BitVec 2) : Prop :=
  ∀ d ∈ T.gdt, d.present = true → d.isSegment = false → d.dpl < cpl

instance (T : Processor) (cpl : BitVec 2) : Decidable (T.Closed cpl) :=
  inferInstanceAs (Decidable (∀ d ∈ T.gdt, _))

/-- The registers of a program are such that `iret` can load them. -/
structure Processor.Fits (T : Processor) (f : RegFile) : Prop where
  code : T.codeOk f.segs.cs = true
  stack : T.stackOk f.cpl f.segs.ss = true
  data : ∀ reg, T.dataOk f.cpl (f.segs.get reg) = true
  flags : FlagsOk f.regs.eflags
  iopl : iopl f.regs.eflags < f.cpl
  vm : f.regs.eflags &&& flagVM = 0#32

/-! ## A stack -/

end X86

namespace ByteMem

/-- The lower half of a word. -/
theorem half_eq_word (m : ByteMem) (a : BitVec 32) : m.half a = (m.word a).setWidth 16 := by
  apply BitVec.eq_of_getLsbD_eq
  intro i hi
  simp only [half, word, BitVec.getLsbD_setWidth, BitVec.getLsbD_append]
  interval_cases i <;> simp

/-- Memory when the words `l` are on the stack whose top was `top`, the last that was pushed
first. -/
def pushed (m : ByteMem) (top : BitVec 32) : List (BitVec 32) → ByteMem
  | [] => m
  | w :: l => (m.pushed top l).store (top - BitVec.ofNat 32 (4 * (l.length + 1))) w

variable {m : ByteMem} {top x : BitVec 32} {l : List (BitVec 32)}

theorem sub_ofNat_add {i j : Nat} (h : j ≤ i) (a : BitVec 32) :
    a - BitVec.ofNat 32 i + BitVec.ofNat 32 j = a - BitVec.ofNat 32 (i - j) := by
  obtain ⟨k, rfl⟩ := Nat.exists_eq_add_of_le h
  rw [Nat.add_sub_cancel_left, BitVec.ofNat_add]
  generalize BitVec.ofNat 32 j = x
  bv_omega

/-- The words are found from the stack pointer upwards. -/
theorem word_pushed {k : Nat} (hk : k < l.length) (hl : 4 * l.length ≤ 2 ^ 32) :
    (m.pushed top l).word (top - BitVec.ofNat 32 (4 * (l.length - k))) = l[k] := by
  induction l generalizing k with
  | nil => simp at hk
  | cons w l ih =>
    rw [List.length_cons] at hk hl
    cases k with
    | zero => exact word_store_self _ _ _
    | succ k =>
      have hk' : k < l.length := by omega
      have hsub : 4 * ((w :: l).length - (k + 1)) = 4 * (l.length + 1) - 4 * (k + 1) := by
        rw [List.length_cons]
        omega
      have htail : 4 * (l.length + 1) - 4 * (k + 1) = 4 * (l.length - k) := by omega
      rw [hsub, pushed, word_store_apart, htail, ih hk' (by omega)]
      · rfl
      · rw [← sub_ofNat_add (by omega)]
        simpa using apart_add (a := top - BitVec.ofNat 32 (4 * (l.length + 1))) (i := 0)
          (j := 4 * (k + 1)) (n := 4) (k := 4) (by omega) (by omega)

theorem word_pushed_add {k : Nat} (hk : k < l.length) (hl : 4 * l.length ≤ 2 ^ 32) :
    (m.pushed top l).word (top - BitVec.ofNat 32 (4 * l.length) + BitVec.ofNat 32 (4 * k)) =
    l[k] := by
  have hsub : 4 * l.length - 4 * k = 4 * (l.length - k) := by omega
  rw [sub_ofNat_add (by omega), hsub]
  exact word_pushed hk hl

/-- Nothing else is written. -/
theorem pushed_apart (hx : ¬ Within (top - BitVec.ofNat 32 (4 * l.length)) (4 * l.length) x) :
    m.pushed top l x = m x := by
  induction l with
  | nil => rfl
  | cons w l ih =>
    rw [List.length_cons] at hx
    rw [pushed, store_apart, ih]
    · refine fun hw => hx (Within.of_add (i := 4) (k := 4 * l.length) ?_ (by omega))
      rw [sub_ofNat_add (by omega)]
      exact hw
    · refine fun hw => hx (Within.of_add (i := 0) (k := 4) ?_ (by omega))
      rw [BitVec.add_zero]
      exact hw

end ByteMem

namespace X86

/-- `n` words may be pushed on the stack. -/
def Rights.Stack (r : Rights) (top : BitVec 32) (n : Nat) : Prop :=
  ∀ k < n, r.Word (top - BitVec.ofNat 32 (4 * (k + 1)))

/-- The core with the words `l` on its stack. -/
def Core.stacked (c : Core) (m : ByteMem) (top : BitVec 32) (l : List (BitVec 32)) : Core :=
  ⟨⟨{ c.regs with esp := top - BitVec.ofNat 32 (4 * l.length) }, c.segs⟩, m.pushed top l⟩

section

variable (c : Core) (m : ByteMem) (top : BitVec 32) (l : List (BitVec 32))

theorem Core.stacked_eip : (c.stacked m top l).regs.eip = c.regs.eip := rfl

theorem Core.stacked_esp : (c.stacked m top l).regs.esp = top - BitVec.ofNat 32 (4 * l.length) :=
  rfl

theorem Core.stacked_mem : (c.stacked m top l).mem = m.pushed top l := rfl

theorem Core.jump_eip (target : BitVec 32) : (c.jump target).regs.eip = target := rfl

end

variable {T : Processor} {r : Rights} {c : Core} {m : ByteMem} {top w : BitVec 32}
variable {l : List (BitVec 32)} {n : Nat}

theorem push_stacked (h : r.Stack top n) (hl : l.length < n) (w : BitVec 32) :
    (c.stacked m top l).push r w = some (c.stacked m top (w :: l)) := by
  have hsub : top - BitVec.ofNat 32 (4 * l.length) - 4#32 =
      top - BitVec.ofNat 32 (4 * (l.length + 1)) := by
    rw [Nat.mul_succ, BitVec.ofNat_add, BitVec.sub_sub]
  rw [Core.push, Core.lift, push_run (by rw [Core.stacked, hsub]; exact h _ hl)]
  simp only [Core.stacked, Option.map_some, hsub]
  rfl

theorem pushSel_stacked (h : r.Stack top n) (hl : l.length < n) (sel : BitVec 16) :
    ∃ hi : BitVec 16, (c.stacked m top l).pushSel T r sel =
      some (c.stacked m top ((hi ++ sel) :: l)) :=
  ⟨_, push_stacked h hl _⟩

theorem pushal_stacked (h : r.Stack top n) (hl : l.length + 8 ≤ n) :
    (c.stacked m top l).pushal r = some (c.stacked m top ([c.regs.edi, c.regs.esi, c.regs.ebp,
      top - BitVec.ofNat 32 (4 * l.length), c.regs.ebx, c.regs.edx, c.regs.ecx,
      c.regs.eax] ++ l)) := by
  have hpush : ∀ (l' : List (BitVec 32)) (w : BitVec 32), l'.length < n →
      (c.stacked m top l').push r w = some (c.stacked m top (w :: l')) :=
    fun l' w hl' => push_stacked h hl' w
  simp only [Core.pushal, Option.bind_eq_bind]
  rw [hpush _ _ (by omega), Option.bind_some, hpush _ _ (by simp; omega), Option.bind_some,
    hpush _ _ (by simp; omega), Option.bind_some, hpush _ _ (by simp; omega), Option.bind_some,
    hpush _ _ (by simp; omega), Option.bind_some, hpush _ _ (by simp; omega), Option.bind_some,
    hpush _ _ (by simp; omega), Option.bind_some, hpush _ _ (by simp; omega)]
  rfl

theorem loadSeg_run {dst : SegReg} {sel : BitVec 16} (h : T.dataOk c.file.cpl sel = true) :
    c.loadSeg T dst sel = some ⟨⟨c.regs, c.segs.set dst sel⟩, c.mem⟩ := by
  rw [Core.loadSeg, h]
  rfl

/-- One instruction after the other. -/
theorem sysRun_step {i : SysInstr} {is : List SysInstr} {c' : Core} (h : i.exec T r c = some c') :
    sysRun T r (i :: is) c = sysRun T r is c' := by
  rw [sysRun, List.foldlM_cons, h]
  rfl

/-! ## Delivery -/

/-- Vector `v` leads through the interrupt gate `gate` to code of level `level`. -/
structure Processor.Leads (T : Processor) (v : BitVec 8) (gate : Descriptor) (level : BitVec 2) :
    Prop where
  idt : T.idt[v.toNat]? = some gate
  isGate : gate.isGate = true
  code : ∃ code, T.lookup gate.selector = some code ∧ code.present = true ∧ code.isCode = true ∧
    code.conforming = false ∧ code.dpl = level
  null : isNull gate.selector = false

/-- The core behind the gate, on the stack segment `ss`. -/
def Core.entered (c : Core) (gate : Descriptor) (level : BitVec 2) (ss : BitVec 16) : Core :=
  ⟨⟨{ c.regs with eip := gate.offset, eflags := gateFlags gate c.regs.eflags },
    { c.segs with cs := withRpl gate.selector level, ss := ss }⟩, c.mem⟩

/-- **Delivery to an inner level.**  The old stack pointer, the flags, the address and the error
code are on the stack of that level. -/
theorem deliver_inward {v : BitVec 8} {gate : Descriptor} {level : BitVec 2} {ss : BitVec 16}
    {err : Option (BitVec 32)} {flags eip : BitVec 32} (hv : T.Leads v gate level)
    (hlevel : level < c.file.cpl) (hstack : T.stackFor c.mem level = (ss, top))
    (hss : T.stackOk level ss = true) (hr : r.Stack top n) (hn : 5 + err.toList.length ≤ n) :
    ∃ hi hi' : BitVec 16, c.deliver T r v err flags eip =
      some ((c.entered gate level ss).stacked c.mem top
      (err.toList ++ [eip, hi ++ c.segs.cs, flags, c.regs.esp, hi' ++ c.segs.ss])) := by
  obtain ⟨code, hcode, hpresent, hiscode, hconf, rfl⟩ := hv.code
  obtain ⟨k, hk⟩ : ∃ k : Core, k = ⟨⟨c.regs, { c.segs with ss := ss }⟩, c.mem⟩ := ⟨_, rfl⟩
  have hempty : (⟨⟨{ c.regs with esp := top }, { c.segs with ss := ss }⟩, c.mem⟩ : Core) =
      k.stacked c.mem top [] := by
    simp [hk, Core.stacked, ByteMem.pushed]
  obtain ⟨hi', hsel'⟩ := pushSel_stacked (T := T) (c := k) (m := c.mem) (l := []) hr
    (by simp; omega) c.segs.ss
  have hesp := push_stacked (c := k) (m := c.mem) (l := [hi' ++ c.segs.ss]) hr (by simp; omega)
    c.regs.esp
  have hswitch : c.switchStack T r code.dpl =
      some (k.stacked c.mem top [c.regs.esp, hi' ++ c.segs.ss]) := by
    simp only [Core.switchStack, hstack, hss, guard_true, Option.bind_eq_bind]
    rw [hempty, hsel', Option.bind_some, hesp]
    rfl
  have hflags := push_stacked (c := k) (m := c.mem) (l := [c.regs.esp, hi' ++ c.segs.ss]) hr
    (by simp; omega) flags
  obtain ⟨hi, hsel⟩ := pushSel_stacked (T := T) (c := k) (m := c.mem)
    (l := [flags, c.regs.esp, hi' ++ c.segs.ss]) hr (by simp; omega) c.segs.cs
  have heip := push_stacked (c := k) (m := c.mem)
    (l := [hi ++ c.segs.cs, flags, c.regs.esp, hi' ++ c.segs.ss]) hr (by simp; omega) eip
  have herr :
      (k.stacked c.mem top [eip, hi ++ c.segs.cs, flags, c.regs.esp, hi' ++ c.segs.ss]).pushErr
      r err = some (k.stacked c.mem top (err.toList ++
        [eip, hi ++ c.segs.cs, flags, c.regs.esp, hi' ++ c.segs.ss])) := by
    cases err with
    | none => rfl
    | some w => exact push_stacked hr (by simp at hn ⊢; omega) w
  refine ⟨hi, hi', ?_⟩
  have hguard : (!isNull gate.selector && code.present && code.isCode &&
      decide (code.dpl ≤ c.file.cpl)) = true := by
    simp [hv.null, hpresent, hiscode, BitVec.le_of_lt hlevel]
  simp only [Core.deliver, hv.idt, hv.isGate, hcode, hguard, hconf, guard_true, Option.bind_eq_bind,
    Option.bind_some, Bool.false_eq_true, if_false]
  rw [if_pos hlevel, hswitch, Option.bind_some, hflags, Option.bind_some, hsel, Option.bind_some,
    heip, Option.bind_some, herr]
  simp [hk, Core.stacked, Core.entered]

/-! ## Return -/

theorem popWord_run {p : BitVec 32} (hesp : c.regs.esp = p) (h : r.Word p) :
    c.pop r = some (c.mem.word p, ⟨⟨{ c.regs with esp := p + 4#32 }, c.segs⟩, c.mem⟩) := by
  subst hesp
  rw [Core.pop, pop_run h]
  rfl

theorem popSeg_run {p : BitVec 32} {cpl : BitVec 2} {sel : BitVec 16} {dst : SegReg}
    (hesp : c.regs.esp = p) (h : r.Word p) (hcpl : c.file.cpl = cpl)
    (hsel : (c.mem.word p).setWidth 16 = sel) (hok : T.dataOk cpl sel = true) :
    SysInstr.exec T r c (.popSeg dst) =
      some ⟨⟨{ c.regs with esp := p + 4#32 }, c.segs.set dst sel⟩, c.mem⟩ := by
  subst hcpl hsel
  rw [SysInstr.exec, popWord_run hesp h]
  exact loadSeg_run hok

/-- **`iret` to an outer level.** -/
theorem iret_outward {p : BitVec 32} (hesp : c.regs.esp = p)
    (hp : ∀ k < 5, r.Word (p + BitVec.ofNat 32 (4 * k))) (hnt : c.regs.eflags &&& flagNT = 0#32)
    (hvm : c.mem.word (p + 8#32) &&& flagVM = 0#32)
    (hlevel : c.file.cpl < rpl ((c.mem.word (p + 4#32)).setWidth 16)) :
    c.iret T r = (T.outward c.file (c.mem.word p) ((c.mem.word (p + 4#32)).setWidth 16)
      (c.mem.word (p + 8#32)) (c.mem.word (p + 12#32)) ((c.mem.word (p + 16#32)).setWidth 16)).map
        fun f => ⟨f, c.mem⟩ := by
  have h0 : r.Word p := by simpa using hp 0 (by decide)
  have hpop : ∀ k < 5, ∀ regs : Regs, regs.esp = p + BitVec.ofNat 32 (4 * k) →
      (Core.mk ⟨regs, c.segs⟩ c.mem).pop r = some (c.mem.word (p + BitVec.ofNat 32 (4 * k)),
        ⟨⟨{ regs with esp := p + BitVec.ofNat 32 (4 * (k + 1)) }, c.segs⟩, c.mem⟩) := by
    intro k hk regs hregs
    rw [popWord_run hregs (hp k hk), BitVec.add_assoc, ← BitVec.ofNat_add]
    rfl
  have hvm' : (c.file.cpl != 0#2 || c.mem.word (p + 8#32) &&& flagVM == 0#32) = true := by
    rw [hvm]
    simp
  simp only [Core.iret, hnt, beq_self_eq_true, guard_true, Option.bind_eq_bind]
  rw [popWord_run hesp h0]
  simp only [Option.bind_some]
  rw [hpop 1 (by decide) _ rfl]
  simp only [Option.bind_some]
  rw [hpop 2 (by decide) _ rfl]
  simp only [Option.bind_some, hvm', guard_true, if_pos hlevel]
  rw [hpop 3 (by decide) _ rfl]
  simp only [Option.bind_some]
  rw [hpop 4 (by decide) _ rfl]
  simp only [Option.bind_some]
  rw [Option.map_eq_bind]
  rfl

/-! ## The flags -/

/-- Changing some bits leaves the others alone. -/
theorem mix_and {old new bits mask : BitVec 32} (h : bits &&& mask = 0#32) :
    (old &&& ~~~bits ||| new &&& bits) &&& mask = old &&& mask := by
  apply BitVec.eq_of_getLsbD_eq
  intro i hi
  have hbit : (bits.getLsbD i && mask.getLsbD i) = false := by
    rw [← BitVec.getLsbD_and, h, BitVec.getLsbD_zero]
  simp only [BitVec.getLsbD_and, BitVec.getLsbD_or, BitVec.getLsbD_not, hi]
  revert hbit
  cases bits.getLsbD i <;> cases mask.getLsbD i <;> simp

theorem withRF_and {flags mask : BitVec 32} (h : flagRF &&& mask = 0#32) (rf : Bool) :
    withRF flags rf &&& mask = flags &&& mask := by
  have hset : ∀ b : Bool,
      (if b then flagRF else 0#32) = (if b then flagRF else 0#32) &&& flagRF := by
    decide
  rw [withRF, hset]
  exact mix_and h

/-- Code of level 0 loads all the flags. -/
theorem loadFlags_zero {old : BitVec 32} (hold : FlagsOk old) (new : BitVec 32) :
    loadFlags 0#2 old new = fixFlags new := by
  rw [FlagsOk] at hold
  rw [loadFlags, changeable, if_pos rfl, hold, fixFlags]

theorem fixFlags_of_ok {flags : BitVec 32} (h : FlagsOk flags) : fixFlags flags = flags := by
  rw [FlagsOk] at h
  rw [fixFlags, ← h, ← BitVec.and_or_distrib_left, BitVec.not_or_self, BitVec.and_allOnes]

theorem fixFlags_and {mask : BitVec 32} (h : mask &&& allFlags = mask) (flags : BitVec 32) :
    fixFlags flags &&& mask = flags &&& mask := by
  have hlow : 2#32 &&& mask = 0#32 := by
    rw [← h, BitVec.and_comm, BitVec.and_assoc]
    have hzero : allFlags &&& 2#32 = 0#32 := by decide
    rw [hzero, BitVec.and_zero]
  rw [fixFlags, BitVec.and_or_distrib_right, hlow, BitVec.zero_or, BitVec.and_assoc,
    BitVec.and_comm allFlags, h]

/-- An addition leaves the other flags alone. -/
theorem addFlags_and {mask : BitVec 32} (h : statusMask &&& mask = 0#32) (flags a b : BitVec 32) :
    addFlags flags a b &&& mask = flags &&& mask := by
  have hbits : ∀ carry parity adjust zero sign overflow : Bool,
      bit 0 carry ||| bit 2 parity ||| bit 4 adjust ||| bit 6 zero ||| bit 7 sign |||
        bit 11 overflow =
        (bit 0 carry ||| bit 2 parity ||| bit 4 adjust ||| bit 6 zero ||| bit 7 sign |||
          bit 11 overflow) &&& statusMask := by
    decide
  rw [addFlags, statusFlags]
  simp only [BitVec.or_assoc] at hbits ⊢
  rw [hbits]
  exact mix_and h

theorem iopl_and (flags : BitVec 32) : iopl (flags &&& systemFlags) = iopl flags := by
  apply BitVec.eq_of_getLsbD_eq
  intro i hi
  simp only [iopl, systemFlags, BitVec.getLsbD_extractLsb', BitVec.getLsbD_and]
  interval_cases i <;> simp

/-- What a program cannot change while its level is above `IOPL`. -/
theorem loadFlags_program {cpl : BitVec 2} {old : BitVec 32} (h : iopl old < cpl)
    (new : BitVec 32) :
    loadFlags cpl old new &&& systemFlags = old &&& systemFlags ∧
      loadFlags cpl old new &&& flagIF = old &&& flagIF ∧
      loadFlags cpl old new &&& ~~~allFlags = old &&& ~~~allFlags := by
  have hch : changeable cpl old = allFlags &&& ~~~systemFlags &&& ~~~flagIF := by
    rw [changeable, if_neg, if_neg (BitVec.not_le.2 h)]
    rintro rfl
    exact BitVec.not_lt_zero h
  rw [loadFlags, hch]
  exact ⟨mix_and (by decide), mix_and (by decide), mix_and (by decide)⟩

/-! ## Programs keep to their level -/

variable {f f' : RegFile} {cpl l' : BitVec 2} {sel : BitVec 16}

theorem rpl_withRpl (sel : BitVec 16) (l : BitVec 2) : rpl (withRpl sel l) = l := by
  apply BitVec.eq_of_getLsbD_eq
  intro i hi
  simp only [rpl, withRpl, BitVec.getLsbD_setWidth, BitVec.getLsbD_or, BitVec.getLsbD_and]
  interval_cases i <;> simp

theorem isNull_withRpl (sel : BitVec 16) (l : BitVec 2) : isNull (withRpl sel l) = isNull sel := by
  have hlow : l.setWidth 16 &&& 0xfffc#16 = 0#16 := by
    revert l
    decide
  rw [isNull, isNull, withRpl, BitVec.and_or_distrib_right, hlow, BitVec.or_zero, BitVec.and_assoc,
    BitVec.and_self]

theorem lookup_withRpl (sel : BitVec 16) (l : BitVec 2) :
    T.lookup (withRpl sel l) = T.lookup sel := by
  have hhigh : withRpl sel l >>> 3 = sel >>> 3 := by
    apply BitVec.eq_of_getLsbD_eq
    intro i hi
    simp only [withRpl, BitVec.getLsbD_ushiftRight, BitVec.getLsbD_or, BitVec.getLsbD_and,
      BitVec.getLsbD_setWidth]
    interval_cases i <;> simp
  have hindex : (withRpl sel l).toNat / 8 = sel.toNat / 8 := by
    have hnat := congrArg BitVec.toNat hhigh
    simpa [BitVec.toNat_ushiftRight, Nat.shiftRight_eq_div_pow] using hnat
  have hlocal : (withRpl sel l).getLsbD 2 = sel.getLsbD 2 := by simp [withRpl]
  rw [Processor.lookup, Processor.lookup, hindex, hlocal]

/-- A segment that a level may use may be used by the levels within. -/
theorem dataOk_of_le (h : T.dataOk cpl sel = true) (hl : l' ≤ cpl) : T.dataOk l' sel = true := by
  rw [Processor.dataOk, Bool.or_eq_true, Option.any_eq_true_iff_get] at h ⊢
  refine h.imp_right ?_
  rintro ⟨hd, hok⟩
  refine ⟨hd, ?_⟩
  simp only [Bool.and_eq_true, Bool.or_eq_true, decide_eq_true_eq] at hok ⊢
  exact ⟨hok.1, hok.2.imp_right fun hle => ⟨BitVec.le_trans hl hle.1, hle.2⟩⟩

/-- It stays loaded on the way out to that level. -/
theorem keep_of_dataOk (h : T.dataOk cpl sel = true) :
    T.keep cpl sel = if isNull sel then 0#16 else sel := by
  rw [Processor.dataOk, Bool.or_eq_true] at h
  rw [Processor.keep]
  cases hnull : isNull sel with
  | true => rfl
  | false =>
    rcases h with h | h
    · rw [hnull] at h
      cases h
    · have hout : (T.lookup sel).any (fun d => !d.conforming && decide (d.dpl < cpl)) = false := by
        cases hd : T.lookup sel with
        | none => rfl
        | some d =>
          rw [hd] at h
          simp only [Option.any_some, Bool.and_eq_true, Bool.or_eq_true, decide_eq_true_eq] at h
          simp only [Option.any_some, Bool.and_eq_false_iff, Bool.not_eq_false',
            decide_eq_false_iff_not]
          exact h.2.imp_right fun hle => BitVec.not_lt.2 hle.1
      rw [hout]
      rfl

theorem mem_gdt_of_lookup {d : Descriptor} (h : T.lookup sel = some d) : d ∈ T.gdt := by
  rw [Processor.lookup] at h
  split at h
  · cases h
  · exact List.mem_of_getElem? h

/-- The program has loaded the flags. -/
theorem Processor.Fits.loaded (hf : T.Fits f) {new w : BitVec 32}
    (h : new = loadFlags f.cpl f.regs.eflags w) :
    FlagsOk new ∧ X86.iopl new < f.cpl ∧ new &&& flagVM = 0#32 ∧
      new &&& flagIF = f.regs.eflags &&& flagIF := by
  obtain ⟨hsystem, hif, hother⟩ := loadFlags_program hf.iopl w
  rw [← h] at hsystem hif hother
  have hvm : flagVM = systemFlags &&& flagVM := by decide
  refine ⟨hother.trans hf.flags, ?_, ?_, hif⟩
  · rw [← iopl_and, hsystem, iopl_and]
    exact hf.iopl
  · rw [hvm, ← BitVec.and_assoc, hsystem, BitVec.and_assoc, ← hvm]
    exact hf.vm

/-- **A program keeps to its level**, and leaves interrupts as they are. -/
theorem Processor.Moves.fits (h : T.Moves f f') (hf : T.Fits f) (hclosed : T.Closed f.cpl) :
    T.Fits f' ∧ f'.cpl = f.cpl ∧ f'.regs.eflags &&& flagIF = f.regs.eflags &&& flagIF := by
  cases h with
  | plain w flags =>
    obtain ⟨hok, hiopl, hvm, hif⟩ := hf.loaded flags
    exact ⟨⟨hf.code, hf.stack, hf.data, hok, hiopl, hvm⟩, rfl, hif⟩
  | @data dst sel ok =>
    have hcs : (f.segs.set dst sel).cs = f.segs.cs := by cases dst <;> rfl
    have hss : (f.segs.set dst sel).ss = f.segs.ss := by cases dst <;> rfl
    have hcpl : RegFile.cpl ⟨f.regs, f.segs.set dst sel⟩ = f.cpl := by
      rw [RegFile.cpl, hcs, RegFile.cpl]
    refine ⟨⟨?_, ?_, fun reg => ?_, hf.flags, ?_, hf.vm⟩, hcpl, rfl⟩
    · rw [hcs]
      exact hf.code
    · rw [hcpl, hss]
      exact hf.stack
    · rw [hcpl]
      have hreg : (f.segs.set dst sel).get reg = sel ∨
          (f.segs.set dst sel).get reg = f.segs.get reg := by
        cases dst <;> cases reg <;> simp [Segs.set, Segs.get]
      rcases hreg with hreg | hreg
      · rw [hreg]
        exact ok
      · rw [hreg]
        exact hf.data reg
    · rw [hcpl]
      exact hf.iopl
  | stack ok => exact ⟨⟨hf.code, ok, hf.data, hf.flags, hf.iopl, hf.vm⟩, rfl, rfl⟩
  | @far regs w flags sel d named null code level =>
    obtain ⟨hok, hiopl, hvm, hif⟩ := hf.loaded flags
    have hcpl : RegFile.cpl ⟨regs, { f.segs with cs := withRpl sel f.cpl }⟩ = f.cpl :=
      rpl_withRpl sel f.cpl
    refine ⟨⟨?_, ?_, ?_, hok, ?_, hvm⟩, hcpl, hif⟩
    · rw [Processor.codeOk, isNull_withRpl, null, lookup_withRpl, named, rpl_withRpl]
      simp only [Option.any_some, code.1, code.2, Bool.true_and, Bool.not_false]
      simpa using level
    · rw [hcpl]
      exact hf.stack
    · rw [hcpl]
      exact hf.data
    · rw [hcpl]
      exact hiopl
  | @gate sel d named system present level f' =>
    exact absurd (hclosed d (mem_gdt_of_lookup named) present system) (BitVec.not_lt.2 level)

/-! ## What an event saves -/

/-- The registers that the program is left with. -/
def Event.saved (T : Processor) (f : RegFile) (ev : Event) : RegFile :=
  ⟨{ f.regs with eflags := (ev.delivery T f).2.2.1, eip := (ev.delivery T f).2.2.2 }, f.segs⟩

/-- Only the resume flag differs. -/
theorem Event.saved_eflags (ev : Event) {mask : BitVec 32} (h : flagRF &&& mask = 0#32) :
    (ev.saved T f).regs.eflags &&& mask = f.regs.eflags &&& mask := by
  cases ev with
  | exception v err rf => exact withRF_and h rf
  | interrupt v rf => exact withRF_and h rf
  | int v next =>
    simp only [saved, delivery]
    split
    · rfl
    · exact withRF_and h true

theorem Processor.Fits.saved (hf : T.Fits f) (ev : Event) : T.Fits (ev.saved T f) where
  code := hf.code
  stack := hf.stack
  data := hf.data
  flags := (ev.saved_eflags (by decide)).trans hf.flags
  iopl := by
    have hiopl := hf.iopl
    rw [← iopl_and, ← ev.saved_eflags (T := T) (f := f) (by decide), iopl_and] at hiopl
    exact hiopl
  vm := (ev.saved_eflags (by decide)).trans hf.vm

/-- **What fits can be loaded**, by an `iret` at level 0. -/
theorem Processor.Fits.outward (hf : T.Fits f) {k : RegFile} (hk : k.cpl = 0#2)
    (hok : FlagsOk k.regs.eflags) {flags : BitVec 32} (hflags : fixFlags flags = f.regs.eflags) :
    T.outward k f.regs.eip f.segs.cs flags f.regs.esp f.segs.ss = some
      ⟨{ k.regs with eip := f.regs.eip, eflags := f.regs.eflags, esp := f.regs.esp },
        ⟨f.segs.cs, f.segs.ss, T.keep f.cpl k.segs.ds, T.keep f.cpl k.segs.es⟩⟩ := by
  have hsel : (T.codeOk f.segs.cs && T.stackOk (rpl f.segs.cs) f.segs.ss) = true := by
    rw [hf.code, Bool.true_and]
    exact hf.stack
  simp only [Processor.outward, hsel, guard_true, hk, loadFlags_zero hok, hflags]
  rfl

end X86
