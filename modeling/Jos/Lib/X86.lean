import Jos.Lib.Memory

/-!
# A piece of the x86

The instructions that move words between registers and the stack, as straight-line code in 32-bit
user mode.  Memory is as the program sees it: an address is a byte of its own, and the program may
read or write it or not.  An instruction that may not access its operand faults, and has done
nothing.

Addition and subtraction leave the six status flags; the other instructions leave the flags alone.
-/

set_option autoImplicit false

namespace X86

/-- The registers of a program. -/
structure Regs where
  eax : BitVec 32
  ecx : BitVec 32
  edx : BitVec 32
  ebx : BitVec 32
  esp : BitVec 32
  ebp : BitVec 32
  esi : BitVec 32
  edi : BitVec 32
  eip : BitVec 32
  eflags : BitVec 32
deriving DecidableEq

/-- The registers an instruction can name. -/
inductive Reg where
  | eax | ecx | edx | ebx | esp | ebp | esi | edi
deriving DecidableEq

def Regs.get (r : Regs) : Reg → BitVec 32
  | .eax => r.eax
  | .ecx => r.ecx
  | .edx => r.edx
  | .ebx => r.ebx
  | .esp => r.esp
  | .ebp => r.ebp
  | .esi => r.esi
  | .edi => r.edi

def Regs.set (r : Regs) (reg : Reg) (w : BitVec 32) : Regs :=
  match reg with
  | .eax => { r with eax := w }
  | .ecx => { r with ecx := w }
  | .edx => { r with edx := w }
  | .ebx => { r with ebx := w }
  | .esp => { r with esp := w }
  | .ebp => { r with ebp := w }
  | .esi => { r with esi := w }
  | .edi => { r with edi := w }

/-- The registers, and memory. -/
structure Context where
  regs : Regs
  mem : ByteMem

/-- What a program may read and write. -/
structure Rights where
  readable : BitVec 32 → Bool
  writable : BitVec 32 → Bool
  readable_of_writable : ∀ a, writable a = true → readable a = true

/-- All the bytes of the word may be written. -/
def Rights.Word (r : Rights) (a : BitVec 32) : Prop :=
  ∀ k < 4, r.writable (a + BitVec.ofNat 32 k) = true

inductive Instr where
  /-- `pushl %src` -/
  | pushl (src : Reg)
  /-- `popl %dst` -/
  | popl (dst : Reg)
  /-- `movl %src, %dst` -/
  | movl (src dst : Reg)
  /-- `movl disp(%base), %dst` -/
  | loadl (disp : BitVec 32) (base dst : Reg)
  /-- `movl addr, %dst` -/
  | loadAbs (addr : BitVec 32) (dst : Reg)
  /-- `addl $imm, %dst` -/
  | addl (imm : BitVec 32) (dst : Reg)
  /-- `subl $imm, disp(%base)` -/
  | sublAt (imm disp : BitVec 32) (base : Reg)
  | popal
  | popfl
  /-- `call *%dst`, where `next` is the address of the next instruction. -/
  | call (dst : Reg) (next : BitVec 32)
  | ret

/-! ## Flags -/

/-- Carry, parity, adjust, zero, sign and overflow. -/
def statusMask : BitVec 32 := 0x8d5#32

def bit (n : Nat) (b : Bool) : BitVec 32 := if b then 1#32 <<< n else 0#32

/-- The flags after an operation with the result `res`. -/
def statusFlags (eflags res : BitVec 32) (carry adjust overflow : Bool) : BitVec 32 :=
  let ones := (List.range 8).countP fun k => res.getLsbD k
  eflags &&& ~~~statusMask ||| bit 0 carry ||| bit 2 (ones % 2 == 0) ||| bit 4 adjust |||
    bit 6 (res == 0#32) ||| bit 7 res.msb ||| bit 11 overflow

def addFlags (eflags a b : BitVec 32) : BitVec 32 :=
  statusFlags eflags (a + b) (2 ^ 32 ≤ a.toNat + b.toNat) (16 ≤ a.toNat % 16 + b.toNat % 16)
    (BitVec.saddOverflow a b)

def subFlags (eflags a b : BitVec 32) : BitVec 32 :=
  statusFlags eflags (a - b) (a.toNat < b.toNat) (a.toNat % 16 < b.toNat % 16)
    (BitVec.ssubOverflow a b)

/-! ## Execution -/

variable (r : Rights)

/-- Reading a word of memory. -/
def Context.load (c : Context) (a : BitVec 32) : Option (BitVec 32) :=
  if (List.range 4).all fun k => r.readable (a + BitVec.ofNat 32 k) then some (c.mem.word a)
  else none

/-- Writing a word of memory. -/
def Context.store (c : Context) (a w : BitVec 32) : Option Context :=
  if (List.range 4).all fun k => r.writable (a + BitVec.ofNat 32 k) then
    some { c with mem := c.mem.store a w }
  else none

def Context.set (c : Context) (reg : Reg) (w : BitVec 32) : Context :=
  { c with regs := c.regs.set reg w }

/-- Pushing a word. -/
def Context.push (c : Context) (w : BitVec 32) : Option Context :=
  (c.store r (c.regs.esp - 4#32) w).map (·.set .esp (c.regs.esp - 4#32))

/-- Popping a word. -/
def Context.pop (c : Context) : Option (BitVec 32 × Context) :=
  (c.load r c.regs.esp).map fun w => (w, c.set .esp (c.regs.esp + 4#32))

/-- Popping the eight words of `popal`; the stack pointer's is skipped. -/
def Context.popal (c : Context) : Option Context := do
  let (edi, c) ← c.pop r
  let (esi, c) ← c.pop r
  let (ebp, c) ← c.pop r
  let (_, c) ← c.pop r
  let (ebx, c) ← c.pop r
  let (edx, c) ← c.pop r
  let (ecx, c) ← c.pop r
  let (eax, c) ← c.pop r
  return { c with
    regs := ⟨eax, ecx, edx, ebx, c.regs.esp, ebp, esi, edi, c.regs.eip, c.regs.eflags⟩ }

/-- One instruction. -/
def Instr.exec (c : Context) : Instr → Option Context
  | .pushl src => c.push r (c.regs.get src)
  | .popl dst => (c.pop r).map fun (w, c) => c.set dst w
  | .movl src dst => some (c.set dst (c.regs.get src))
  | .loadl disp base dst => (c.load r (c.regs.get base + disp)).map fun w => c.set dst w
  | .loadAbs addr dst => (c.load r addr).map fun w => c.set dst w
  | .addl imm dst =>
    let c' := c.set dst (c.regs.get dst + imm)
    some { c' with regs := { c'.regs with eflags := addFlags c.regs.eflags (c.regs.get dst) imm } }
  | .sublAt imm disp base => do
    let w ← c.load r (c.regs.get base + disp)
    let c' ← c.store r (c.regs.get base + disp) (w - imm)
    return { c' with regs := { c'.regs with eflags := subFlags c.regs.eflags w imm } }
  | .popal => c.popal r
  | .popfl => (c.pop r).map fun (w, c) => { c with regs := { c.regs with eflags := w } }
  | .call dst next =>
    (c.push r next).map fun c' => { c' with regs := { c'.regs with eip := c.regs.get dst } }
  | .ret => (c.pop r).map fun (w, c) => { c with regs := { c.regs with eip := w } }

/-- Straight-line code. -/
def run (l : List Instr) (c : Context) : Option Context := l.foldlM (fun c i => i.exec r c) c

/-! ## Rules -/

variable {r} {c c' : Context} {a w : BitVec 32}

theorem run_append (l l' : List Instr) (c : Context) :
    run r (l ++ l') c = (run r l c).bind (run r l') := List.foldlM_append

theorem Rights.Word.load (h : r.Word a) : c.load r a = some (c.mem.word a) := by
  refine if_pos (List.all_eq_true.2 fun k hk => ?_)
  exact r.readable_of_writable _ (h k (List.mem_range.1 hk))

theorem Rights.Word.store (h : r.Word a) :
    c.store r a w = some { c with mem := c.mem.store a w } := by
  refine if_pos (List.all_eq_true.2 fun k hk => ?_)
  exact h k (List.mem_range.1 hk)

theorem push_run (h : r.Word (c.regs.esp - 4#32)) : c.push r w =
    some ⟨c.regs.set .esp (c.regs.esp - 4#32), c.mem.store (c.regs.esp - 4#32) w⟩ := by
  rw [Context.push, h.store]
  rfl

theorem pop_run (h : r.Word c.regs.esp) :
    c.pop r = some (c.mem.word c.regs.esp, c.set .esp (c.regs.esp + 4#32)) := by
  rw [Context.pop, h.load]
  rfl

/-- Popping the registers from a stack. -/
theorem popal_run {m : ByteMem} {regs : Regs} {p : BitVec 32} (hp : regs.esp = p)
    (h : ∀ k < 8, r.Word (p + BitVec.ofNat 32 (4 * k))) :
    (Context.mk regs m).popal r = some ⟨⟨m.word (p + 28#32), m.word (p + 24#32), m.word (p + 20#32),
      m.word (p + 16#32), p + 32#32, m.word (p + 8#32), m.word (p + 4#32), m.word p, regs.eip,
      regs.eflags⟩, m⟩ := by
  subst hp
  have hpop : ∀ k < 8, ∀ regs' : Regs, regs'.esp = regs.esp + BitVec.ofNat 32 (4 * k) →
      (Context.mk regs' m).pop r = some (m.word (regs.esp + BitVec.ofNat 32 (4 * k)),
        ⟨{ regs' with esp := regs.esp + BitVec.ofNat 32 (4 * (k + 1)) }, m⟩) := by
    intro k hk regs' hesp
    rw [pop_run (by rw [hesp]; exact h k hk), hesp, Context.set, Regs.set, BitVec.add_assoc,
      ← BitVec.ofNat_add]
    rfl
  rw [Context.popal, hpop 0 (by decide) _ (by simp)]
  simp only [Option.bind_eq_bind, Option.bind_some]
  rw [hpop 1 (by decide) _ rfl]
  simp only [Option.bind_some]
  rw [hpop 2 (by decide) _ rfl]
  simp only [Option.bind_some]
  rw [hpop 3 (by decide) _ rfl]
  simp only [Option.bind_some]
  rw [hpop 4 (by decide) _ rfl]
  simp only [Option.bind_some]
  rw [hpop 5 (by decide) _ rfl]
  simp only [Option.bind_some]
  rw [hpop 6 (by decide) _ rfl]
  simp only [Option.bind_some]
  rw [hpop 7 (by decide) _ rfl]
  simp

end X86
