import Jos.Lib.Command
import Jos.Lib.Memory
import Jos.State

/-!
# The table of processors

`mp_init` of `kern/mpconfig.c` reads the table of processors that the BIOS left and fills in `cpus`.
For a processor that is flagged as the boot processor `bootcpu` is made to point to the next entry
of `cpus`, before it is tested whether there is one left.  With eight processors before it, the
pointer is to the end of `cpus`, and `cpu_status` is written there.

`mpInit_usable_iff` says that this is all that can go wrong.
-/

set_option autoImplicit false

namespace Jos

namespace Mp

open Command

/-! ## `kern/mpconfig.c` -/

/-- `struct CpuInfo`, as far as it is used here. -/
structure CpuInfo where
  cpuId : Byte
  cpuStatus : CpuStatus

/-- What is printed. -/
inductive Message where
  | defaultConfigurations
  | badSignature
  | badChecksum
  | badVersion (version : Byte)
  | badExtendedChecksum
  | tooMany (apicid : Byte)
  | unknownType (type : Byte)
  | notFound
  | found (cpuId : Byte) (ncpu : Nat)
  | settingImcr

/-- The variables of the file, and `lapicaddr`; `bootcpu` points to that entry of `cpus`. -/
structure MpState where
  cpus : Cpu → CpuInfo
  bootcpu : Nat
  ncpu : Nat
  ismp : Bool
  lapicaddr : Word
  log : List Message
  /-- The bytes written to ports. -/
  outb : List (Word × Byte)

/-- The variables as they start out. -/
def MpState.static : MpState := ⟨fun _ => ⟨0#8, .unused⟩, 0, 0, false, 0#32, [], []⟩

inductive MpFault where
  /-- `KADDR called with invalid pa %08lx` -/
  | kaddr (pa : Word)
  /-- A write to an entry of `cpus` that it does not have. -/
  | cpus (k : Nat)
  /-- A loop that goes on for longer than there are places to look at. -/
  | loop

abbrev MpM := EStateM MpFault MpState

def print (msg : Message) : MpM Unit := modify fun s => { s with log := s.log ++ [msg] }

def outb (port : Word) (b : Byte) : MpM Unit :=
  modify fun s => { s with outb := s.outb ++ [(port, b)] }

/-- `cpus[k].cpu_id = id`. -/
def setCpuId (k : Nat) (id : Byte) : MpM Unit := do
  if h : k < 8 then
    modify fun s =>
      { s with cpus := Function.update s.cpus ⟨k, h⟩ { s.cpus ⟨k, h⟩ with cpuId := id } }
  else
    throw (.cpus k)

/-- `cpus[k].cpu_status = status`. -/
def setCpuStatus (k : Nat) (status : CpuStatus) : MpM Unit := do
  if h : k < 8 then
    modify fun s =>
      { s with cpus := Function.update s.cpus ⟨k, h⟩ { s.cpus ⟨k, h⟩ with cpuStatus := status } }
  else
    throw (.cpus k)

section

variable (npages : Nat) (mem : ByteMem)

/-- `KADDR`. -/
def kaddr (pa : Word) : MpM Word := do
  if npages ≤ pgnum pa then
    throw (.kaddr pa)
  return pa + kernbase

/-- A `uint16_t`. -/
def half (a : Word) : BitVec 16 := mem (a + 1#32) ++ mem a

/-- `sum`. -/
def sum (addr : Word) (len : Nat) : Byte :=
  (List.range len).foldl (fun sum i => sum + mem (addr + BitVec.ofNat 32 i)) 0#8

/-- `memcmp` with a signature. -/
def signed (a : Word) (signature : List Byte) : Bool :=
  (List.range signature.length).map (fun i => mem (a + BitVec.ofNat 32 i)) == signature

/-- The loop of `mpsearch1`. -/
def mpsearchLoop : Nat → Word → Word → MpM (Option Word)
  | 0, _, _ => throw .loop
  | fuel + 1, mp, last =>
    if mp < last then
      -- `"_MP_"`
      if signed mem mp [0x5f#8, 0x4d#8, 0x50#8, 0x5f#8] ∧ sum mem mp 16 = 0#8 then
        return some mp
      else
        mpsearchLoop fuel (mp + 16#32) last
    else
      return none

/-- `mpsearch1`. -/
def mpsearch1 (a : Word) (len : Nat) : MpM (Option Word) := do
  let mp ← kaddr npages a
  let last ← kaddr npages (a + BitVec.ofNat 32 len)
  mpsearchLoop mem (len / 16 + 1) mp last

/-- `mpsearch`. -/
def mpsearch : MpM (Option Word) := do
  let bda ← kaddr npages 0x400#32
  let p : Word := (half mem (bda + 0x0E#32)).setWidth 32
  let found ←
    if p ≠ 0#32 then
      mpsearch1 npages mem (p <<< 4) 1024
    else
      mpsearch1 npages mem ((half mem (bda + 0x13#32)).setWidth 32 * 1024#32 - 1024#32) 1024
  if found.isSome then
    return found
  mpsearch1 npages mem 0xF0000#32 0x10000

/-- `mpconfig`: the floating pointer and the table, or nothing. -/
def mpconfig : MpM (Option (Word × Word)) := do
  match ← mpsearch npages mem with
  | none => return none
  | some mp =>
    let physaddr := mem.word (mp + 4#32)
    if physaddr = 0#32 ∨ mem (mp + 11#32) ≠ 0#8 then
      print .defaultConfigurations
      return none
    let conf ← kaddr npages physaddr
    let length := half mem (conf + 4#32)
    -- `"PCMP"`
    if ¬ signed mem conf [0x50#8, 0x43#8, 0x4d#8, 0x50#8] then
      print .badSignature
      return none
    if sum mem conf length.toNat ≠ 0#8 then
      print .badChecksum
      return none
    let version := mem (conf + 6#32)
    if version ≠ 1#8 ∧ version ≠ 4#8 then
      print (.badVersion version)
      return none
    let xlength := half mem (conf + 40#32)
    if sum mem (conf + length.setWidth 32) xlength.toNat + mem (conf + 42#32) ≠ 0#8 then
      print .badExtendedChecksum
      return none
    return some (mp, conf)

/-- `MPPROC_BOOT`. -/
def mpprocBoot : Byte := 0x02#8

/-- The loop of `mp_init`; the number is that of the entries left. -/
def mpEntries : Nat → Word → MpM Unit
  | 0, _ => return ()
  | n + 1, p => do
    if mem p = 0#8 then
      if mem (p + 3#32) &&& mpprocBoot ≠ 0#8 then
        modify fun s => { s with bootcpu := s.ncpu }
      let ncpu := (← get).ncpu
      if ncpu < 8 then
        setCpuId ncpu (BitVec.ofNat 8 ncpu)
        modify fun s => { s with ncpu := s.ncpu + 1 }
      else
        print (.tooMany (mem (p + 1#32)))
      mpEntries n (p + 20#32)
    else if mem p ≤ 4#8 then
      mpEntries n (p + 8#32)
    else
      -- `i = conf->entry`, and the loop is over
      print (.unknownType (mem p))
      modify fun s => { s with ismp := false }

/-- What `mp_init` does with a table; `in23` is what port `0x23` reads. -/
def mpUse (mp conf : Word) (in23 : Byte) : MpM Unit := do
  modify fun s => { s with ismp := true, lapicaddr := mem.word (conf + 36#32) }
  mpEntries mem (half mem (conf + 34#32)).toNat (conf + 44#32)
  setCpuStatus (← get).bootcpu .started
  let s ← get
  if ¬ s.ismp then
    modify fun s => { s with ncpu := 1, lapicaddr := 0#32 }
    print .notFound
  else
    if h : s.bootcpu < 8 then
      print (.found (s.cpus ⟨s.bootcpu, h⟩).cpuId s.ncpu)
    if mem (mp + 12#32) ≠ 0#8 then
      print .settingImcr
      outb 0x22#32 0x70#8
      outb 0x23#32 (in23 ||| 1#8)

/-- `mp_init`. -/
def mpInit (in23 : Byte) : MpM Unit := do
  modify fun s => { s with bootcpu := 0 }
  match ← mpconfig npages mem with
  | none => return ()
  | some (mp, conf) => mpUse mem mp conf in23

end

/-! ## Processors in the table -/

/-- The flags of the processors, in order, in the entries that are looked at. -/
def procFlags (mem : ByteMem) : Nat → Word → List Byte
  | 0, _ => []
  | n + 1, p =>
    if mem p = 0#8 then mem (p + 3#32) :: procFlags mem n (p + 20#32)
    else if mem p ≤ 4#8 then procFlags mem n (p + 8#32)
    else []

/-- Fewer than eight processors come before any that is flagged as the boot processor. -/
def BootInTime (flags : List Byte) : Prop :=
  ∀ k (hk : k < flags.length), flags[k] &&& mpprocBoot ≠ 0#8 → k < 8

/-- The table of processors is in order. -/
structure Usable (s : MpState) : Prop where
  ncpu : s.ncpu ≤ 8
  ids : ∀ i : Cpu, i.val < s.ncpu → (s.cpus i).cpuId = BitVec.ofNat 8 i.val
  boot : ∃ b : Cpu, s.bootcpu = b.val ∧ ∀ i, (s.cpus i).cpuStatus = .started ↔ i = b

variable {npages : Nat} {mem : ByteMem} {s s' : MpState} {p mp conf : Word}

/-! ## The loop over the table -/

/-- What is known while the processors are counted. -/
structure Counting (s : MpState) : Prop where
  ncpu : s.ncpu ≤ 8
  ids : ∀ i : Cpu, i.val < s.ncpu → (s.cpus i).cpuId = BitVec.ofNat 8 i.val
  first : (s.cpus 0).cpuId = 0#8
  unused : ∀ i, (s.cpus i).cpuStatus = .unused
  boot : s.bootcpu < 8 ∨ s.bootcpu = 8 ∧ s.ncpu = 8

theorem counting_static : Counting MpState.static :=
  ⟨Nat.zero_le _, fun _ h => absurd h (Nat.not_lt_zero _), rfl, fun _ => rfl, Or.inl (by decide)⟩

/-- The boot processor is the next entry of `cpus`. -/
def MpState.marked (s : MpState) (flags : Byte) : MpState :=
  if flags &&& mpprocBoot ≠ 0#8 then { s with bootcpu := s.ncpu } else s

/-- There is one processor more, if there is an entry left. -/
def MpState.counted (s : MpState) (apicid : Byte) : MpState :=
  if h : s.ncpu < 8 then
    { s with
      cpus := Function.update s.cpus ⟨s.ncpu, h⟩
        { s.cpus ⟨s.ncpu, h⟩ with cpuId := BitVec.ofNat 8 s.ncpu }
      ncpu := s.ncpu + 1 }
  else { s with log := s.log ++ [.tooMany apicid] }

/-- A processor in the table. -/
theorem mpEntries_proc (n : Nat) (hp : mem p = 0#8) (s : MpState) :
    (mpEntries mem (n + 1) p).run s =
    (mpEntries mem n (p + 20#32)).run ((s.marked (mem (p + 3#32))).counted (mem (p + 1#32))) := by
  have hcount : ∀ s : MpState, (show MpM Unit from do
      let ncpu := (← get).ncpu
      if ncpu < 8 then
        setCpuId ncpu (BitVec.ofNat 8 ncpu)
        modify fun s => { s with ncpu := s.ncpu + 1 }
      else
        print (.tooMany (mem (p + 1#32)))
      mpEntries mem n (p + 20#32)).run s =
        (mpEntries mem n (p + 20#32)).run (s.counted (mem (p + 1#32))) := by
    intro s
    rw [run_bind_ok (EStateM.run_get ..), MpState.counted]
    by_cases hn : s.ncpu < 8
    · rw [if_pos hn, setCpuId, dif_pos hn, dif_pos hn]
      rfl
    · rw [if_neg hn, dif_neg hn]
      rfl
  rw [mpEntries, if_pos hp, MpState.marked]
  by_cases hboot : mem (p + 3#32) &&& mpprocBoot ≠ 0#8
  · rw [if_pos hboot, if_pos hboot, run_bind_ok (EStateM.run_modify ..)]
    exact hcount _
  · rw [if_neg hboot, if_neg hboot]
    exact hcount s

theorem MpState.marked_ncpu (s : MpState) (flags : Byte) : (s.marked flags).ncpu = s.ncpu := by
  rw [MpState.marked]
  split <;> rfl

/-- The pointer is to an entry of `cpus` unless all are in use. -/
theorem Counting.marked (h : Counting s) (flags : Byte) : Counting (s.marked flags) ∧
    ((s.marked flags).bootcpu < 8 ↔
      s.bootcpu < 8 ∧ (flags &&& mpprocBoot ≠ 0#8 → s.ncpu < 8)) := by
  have hle := h.ncpu
  have hboot := h.boot
  rw [MpState.marked]
  by_cases hflag : flags &&& mpprocBoot ≠ 0#8
  · rw [if_pos hflag]
    refine ⟨⟨hle, h.ids, h.first, h.unused, ?_⟩, ?_⟩
    · dsimp only
      omega
    · simp only [hflag, ne_eq, not_false_eq_true, forall_const]
      omega
  · rw [if_neg hflag]
    exact ⟨h, fun hb => ⟨hb, fun hf => absurd hf hflag⟩, fun hb => hb.1⟩

theorem Counting.counted (h : Counting s) (apicid : Byte) : Counting (s.counted apicid) ∧
    (s.counted apicid).ncpu = min (s.ncpu + 1) 8 ∧ (s.counted apicid).bootcpu = s.bootcpu := by
  have hle := h.ncpu
  have hboot := h.boot
  rw [MpState.counted]
  by_cases hn : s.ncpu < 8
  · rw [dif_pos hn]
    refine ⟨⟨hn, fun i hi => ?_, ?_, fun i => ?_, ?_⟩, ?_, rfl⟩
    · by_cases heq : i = ⟨s.ncpu, hn⟩
      · subst heq
        dsimp only
        rw [Function.update_self]
      · dsimp only
        rw [Function.update_of_ne heq]
        have hne : i.val ≠ s.ncpu := fun hv => heq (Fin.ext hv)
        have hlt : i.val < s.ncpu + 1 := hi
        exact h.ids i (by omega)
    · dsimp only
      by_cases heq : (0 : Cpu) = ⟨s.ncpu, hn⟩
      · have hzero : s.ncpu = 0 := (congrArg Fin.val heq).symm
        rw [heq, Function.update_self]
        exact congrArg (BitVec.ofNat 8) hzero
      · rw [Function.update_of_ne heq]
        exact h.first
    · dsimp only
      by_cases heq : i = ⟨s.ncpu, hn⟩
      · rw [heq, Function.update_self]
        exact h.unused _
      · rw [Function.update_of_ne heq]
        exact h.unused i
    · dsimp only
      omega
    · dsimp only
      omega
  · rw [dif_neg hn]
    refine ⟨⟨hle, h.ids, h.first, h.unused, hboot⟩, ?_, rfl⟩
    dsimp only
    omega

/-- **The loop** keeps within `cpus`; `bootcpu` is in it if the boot processor comes in time. -/
theorem mpEntries_run (mem : ByteMem) (n : Nat) (h : Counting s) :
    ∃ s', (mpEntries mem n p).run s = .ok () s' ∧
    Counting s' ∧ (s'.bootcpu < 8 ↔ s.bootcpu < 8 ∧ ∀ k (hk : k < (procFlags mem n p).length),
      (procFlags mem n p)[k] &&& mpprocBoot ≠ 0#8 → s.ncpu + k < 8) := by
  induction n generalizing p s with
  | zero =>
    refine ⟨s, rfl, h, fun hb => ⟨hb, fun k hk => absurd hk (Nat.not_lt_zero k)⟩, fun hb => hb.1⟩
  | succ n ih =>
    by_cases hp : mem p = 0#8
    · obtain ⟨hmark, hb⟩ := h.marked (mem (p + 3#32))
      obtain ⟨hcount, hn, hboot⟩ := hmark.counted (mem (p + 1#32))
      obtain ⟨s', hrun, hs', hiff⟩ := ih (p := p + 20#32) hcount
      have hflags : procFlags mem (n + 1) p = mem (p + 3#32) :: procFlags mem n (p + 20#32) := by
        rw [procFlags, if_pos hp]
      refine ⟨s', (mpEntries_proc n hp s).trans hrun, hs', ?_⟩
      rw [hiff, hn, hboot, hb, MpState.marked_ncpu]
      simp only [hflags]
      have hle := h.ncpu
      constructor
      · rintro ⟨⟨hb, hfirst⟩, hrest⟩
        refine ⟨hb, fun k hk hflag => ?_⟩
        cases k with
        | zero => exact hfirst hflag
        | succ k =>
          have := hrest k (Nat.lt_of_succ_lt_succ hk) hflag
          omega
      · rintro ⟨hb, hall⟩
        refine ⟨⟨hb, fun hflag => hall 0 (Nat.zero_lt_succ _) hflag⟩, fun k hk hflag => ?_⟩
        have := hall (k + 1) (Nat.succ_lt_succ hk) hflag
        omega
    · by_cases hknown : mem p ≤ 4#8
      · have hflags : procFlags mem (n + 1) p = procFlags mem n (p + 8#32) := by
          rw [procFlags, if_neg hp, if_pos hknown]
        simp only [hflags]
        rw [mpEntries, if_neg hp, if_pos hknown]
        exact ih h
      · have hflags : procFlags mem (n + 1) p = [] := by
          rw [procFlags, if_neg hp, if_neg hknown]
        simp only [hflags]
        rw [mpEntries, if_neg hp, if_neg hknown]
        refine ⟨_, rfl, ⟨h.ncpu, h.ids, h.first, h.unused, h.boot⟩, ?_⟩
        exact ⟨fun hb => ⟨hb, fun k hk => absurd hk (Nat.not_lt_zero k)⟩, fun hb => hb.1⟩

/-- The search for a table changes nothing but what is printed. -/
structure Printed (s s' : MpState) : Prop where
  cpus : s'.cpus = s.cpus
  bootcpu : s'.bootcpu = s.bootcpu
  ncpu : s'.ncpu = s.ncpu

theorem Printed.refl (s : MpState) : Printed s s := ⟨rfl, rfl, rfl⟩

theorem Printed.trans {s'' : MpState} (h : Printed s s') (h' : Printed s' s'') : Printed s s'' :=
  ⟨h'.cpus.trans h.cpus, h'.bootcpu.trans h.bootcpu, h'.ncpu.trans h.ncpu⟩

theorem Printed.counting (h : Printed s s') (hs : Counting s) : Counting s' where
  ncpu := h.ncpu ▸ hs.ncpu
  ids := by
    rw [h.ncpu, h.cpus]
    exact hs.ids
  first := h.cpus ▸ hs.first
  unused := h.cpus ▸ hs.unused
  boot := by
    rw [h.bootcpu, h.ncpu]
    exact hs.boot

theorem print_printed (msg : Message) : Always Printed (print msg) :=
  Always.modify fun _ => ⟨rfl, rfl, rfl⟩

theorem kaddr_printed (npages : Nat) (pa : Word) : Always Printed (kaddr npages pa) := by
  rw [kaddr]
  split
  · exact Always.throw Printed.refl _
  · exact Always.pure Printed.refl _

theorem Printed.bind {α β : Type} {m : MpM α} {f : α → MpM β} (hm : Always Printed m)
    (hf : ∀ a, Always Printed (f a)) : Always Printed (m >>= f) :=
  Always.bind (R := Printed) (fun _ _ _ h h' => h.trans h') hm hf

theorem mpsearchLoop_printed (fuel : Nat) (mp last : Word) :
    Always Printed (mpsearchLoop mem fuel mp last) := by
  induction fuel generalizing mp with
  | zero => exact Always.throw Printed.refl _
  | succ fuel ih =>
    rw [mpsearchLoop]
    exact Always.ite (Always.ite (Always.pure Printed.refl _) (ih _)) (Always.pure Printed.refl _)

theorem mpsearch1_printed (a : Word) (len : Nat) : Always Printed (mpsearch1 npages mem a len) :=
  Printed.bind (kaddr_printed _ _) fun _ => Printed.bind (kaddr_printed _ _) fun _ =>
    mpsearchLoop_printed _ _ _

theorem mpsearch_printed : Always Printed (mpsearch npages mem) := by
  refine Printed.bind (kaddr_printed _ _) fun bda => ?_
  have hrest : ∀ found : Option Word, Always Printed (if found.isSome then return found
      else mpsearch1 npages mem 0xF0000#32 0x10000 : MpM (Option Word)) :=
    fun found => Always.ite (Always.pure Printed.refl _) (mpsearch1_printed _ _)
  dsimp only
  split
  · exact Printed.bind (mpsearch1_printed _ _) hrest
  · exact Printed.bind (mpsearch1_printed _ _) hrest

theorem mpconfig_printed : Always Printed (mpconfig npages mem) := by
  have hnone : ∀ msg, Always Printed (do print msg; return none : MpM (Option (Word × Word))) :=
    fun msg => Printed.bind (print_printed msg) fun _ => Always.pure Printed.refl _
  refine Printed.bind mpsearch_printed fun found => ?_
  cases found with
  | none => exact Always.pure Printed.refl _
  | some mp =>
    dsimp only
    refine Always.ite (hnone _) (Printed.bind (kaddr_printed _ _) fun conf => ?_)
    refine Always.ite (hnone _) (Always.ite (hnone _) (Always.ite (hnone _) ?_))
    exact Always.ite (hnone _) (Always.pure Printed.refl _)

/-! ## `mp_init` -/

theorem Usable.of_cpus (h : Usable s) (hcpus : s'.cpus = s.cpus) (hboot : s'.bootcpu = s.bootcpu)
    (hn : s'.ncpu = s.ncpu) : Usable s' where
  ncpu := hn ▸ h.ncpu
  ids := by
    rw [hn, hcpus]
    exact h.ids
  boot := by
    rw [hboot, hcpus]
    exact h.boot

/-- The boot processor is started. -/
def MpState.booted (s : MpState) (b : Cpu) : MpState :=
  { s with cpus := Function.update s.cpus b { s.cpus b with cpuStatus := .started } }

theorem MpState.booted_cpuId (s : MpState) (b i : Cpu) :
    ((s.booted b).cpus i).cpuId = (s.cpus i).cpuId := by
  rw [MpState.booted]
  by_cases hi : i = b
  · subst hi
    dsimp only
    rw [Function.update_self]
  · dsimp only
    rw [Function.update_of_ne hi]

theorem Counting.booted (h : Counting s) {b : Cpu} (hb : s.bootcpu = b.val) :
    Usable (s.booted b) where
  ncpu := h.ncpu
  ids i hi := (s.booted_cpuId b i).trans (h.ids i hi)
  boot := by
    refine ⟨b, hb, fun i => ?_⟩
    rw [MpState.booted]
    by_cases hi : i = b
    · subst hi
      dsimp only
      rw [Function.update_self]
      exact ⟨fun _ => rfl, fun _ => rfl⟩
    · dsimp only
      rw [Function.update_of_ne hi, h.unused i]
      exact ⟨fun hne => (nomatch hne), fun heq => absurd heq hi⟩

/-- Without more than one processor, the first one is still in order. -/
theorem Counting.booted_one (h : Counting s) {b : Cpu} (hb : s.bootcpu = b.val) :
    Usable { s.booted b with ncpu := 1 } where
  ncpu := show 1 ≤ 8 by decide
  ids i hi := by
    obtain rfl : i = 0 := Fin.ext (Nat.lt_one_iff.1 hi)
    exact (s.booted_cpuId b 0).trans h.first
  boot := (h.booted hb).boot

/-- **The table** leaves `cpus` in order if and only if the boot processor comes in time. -/
theorem mpUse_iff (h : Counting s) (hb : s.bootcpu = 0) (hn : s.ncpu = 0) (mp conf : Word)
    (in23 : Byte) : (∃ s', (mpUse mem mp conf in23).run s = .ok () s' ∧ Usable s') ↔
      BootInTime (procFlags mem (half mem (conf + 34#32)).toNat (conf + 44#32)) := by
  have hstart : Counting { s with ismp := true, lapicaddr := mem.word (conf + 36#32) } :=
    ⟨h.ncpu, h.ids, h.first, h.unused, h.boot⟩
  obtain ⟨t, hrun, ht, hiff⟩ := mpEntries_run (p := conf + 44#32) mem
    (half mem (conf + 34#32)).toNat hstart
  have hiff' : t.bootcpu < 8 ↔
      BootInTime (procFlags mem (half mem (conf + 34#32)).toNat (conf + 44#32)) := by
    rw [hiff, BootInTime]
    dsimp only
    rw [hb, hn]
    simp only [Nat.zero_add]
    exact ⟨fun hh => hh.2, fun hh => ⟨by decide, hh⟩⟩
  rw [← hiff', mpUse, run_bind_ok (EStateM.run_modify ..), run_bind_ok hrun,
    run_bind_ok (EStateM.run_get ..)]
  by_cases hboot : t.bootcpu < 8
  · have hset : (setCpuStatus t.bootcpu .started).run t = .ok () (t.booted ⟨t.bootcpu, hboot⟩) := by
      rw [setCpuStatus, dif_pos hboot]
      rfl
    have husable := ht.booted (b := ⟨t.bootcpu, hboot⟩) rfl
    refine ⟨fun _ => hboot, fun _ => ?_⟩
    rw [run_bind_ok hset, run_bind_ok (EStateM.run_get ..)]
    by_cases hmp : (t.booted ⟨t.bootcpu, hboot⟩).ismp = true
    · rw [if_neg (not_not.2 hmp),
        dif_pos (show (t.booted ⟨t.bootcpu, hboot⟩).bootcpu < 8 from hboot)]
      by_cases himcr : mem (mp + 12#32) ≠ 0#8
      · rw [if_pos himcr]
        exact ⟨_, rfl, husable.of_cpus rfl rfl rfl⟩
      · rw [if_neg himcr]
        exact ⟨_, rfl, husable.of_cpus rfl rfl rfl⟩
    · rw [if_pos hmp]
      exact ⟨_, rfl, (ht.booted_one (b := ⟨t.bootcpu, hboot⟩) rfl).of_cpus rfl rfl rfl⟩
  · have hset : (setCpuStatus t.bootcpu .started).run t = .error (.cpus t.bootcpu) t := by
      rw [setCpuStatus, dif_neg hboot]
      rfl
    refine ⟨fun ⟨s', hs', _⟩ => ?_, fun hb => absurd hb hboot⟩
    rw [run_bind_error hset] at hs'
    cases hs'

/-- What `mp_init` does with a table that is accepted. -/
theorem mpInit_eq (hconf : (mpconfig npages mem).run MpState.static = .ok (some (mp, conf)) s)
    (in23 : Byte) :
    (mpInit npages mem in23).run MpState.static = (mpUse mem mp conf in23).run s := by
  have hmodify : (modify fun s => { s with bootcpu := 0 } : MpM Unit).run MpState.static =
    .ok () MpState.static := rfl
  rw [mpInit, run_bind_ok hmodify, run_bind_ok hconf]

/-- **`mp_init`** leaves `cpus` in order, for a table that is accepted, if and only if fewer than
eight processors come before any that is flagged as the boot processor. -/
theorem mpInit_usable_iff {in23 : Byte}
    (hconf : (mpconfig npages mem).run MpState.static = .ok (some (mp, conf)) s) :
    (∃ s', (mpInit npages mem in23).run MpState.static = .ok () s' ∧ Usable s') ↔
      BootInTime (procFlags mem (half mem (conf + 34#32)).toNat (conf + 44#32)) := by
  have hprinted := mpconfig_printed.of_ok hconf
  rw [mpInit_eq hconf]
  exact mpUse_iff (hprinted.counting counting_static) hprinted.bootcpu hprinted.ncpu mp conf in23

/-! ## Nine processors -/

/-- A processor in the table. -/
def procEntry (flags : Byte) : List Byte := [0#8, 0#8, 0x14#8, flags] ++ List.replicate 16 0#8

/-- The floating pointer at `0x9fc00`, and after it a table of nine processors, of which the one
with number `boot` is flagged. -/
def nineTable (boot : Nat) : List Byte :=
  [0x5f#8, 0x4d#8, 0x50#8, 0x5f#8, 0x10#8, 0xfc#8, 9#8, 0#8, 1#8, 4#8, 0x8b#8, 0#8, 0#8, 0#8, 0#8,
    0#8] ++
  ([0x50#8, 0x43#8, 0x4d#8, 0x50#8, 0xe0#8, 0#8, 4#8, 0x46#8] ++ List.replicate 26 0#8 ++
    [9#8, 0#8] ++
    [0#8, 0#8, 0xe0#8, 0xfe#8, 0#8, 0#8, 0#8, 0#8]) ++
  ((List.range 9).map fun k => procEntry (if k = boot then 3#8 else 1#8)).flatten

/-- Physical memory as the kernel sees it. -/
def nineMem (boot : Nat) : ByteMem := fun a =>
  -- the segment of the EBDA
  if a = 0xF000040E#32 then 0xC0#8
  else if a = 0xF000040F#32 then 0x9F#8
  else (nineTable boot).getD (a - 0xF009FC00#32).toNat 0#8

set_option maxRecDepth 10000 in
/-- The table is accepted. -/
theorem nine_mpconfig : ∀ boot ∈ [0, 8], (mpconfig 16384 (nineMem boot)).run MpState.static =
    .ok (some (0xF009FC00#32, 0xF009FC10#32)) MpState.static := by
  simp only [List.mem_cons, List.not_mem_nil, or_false, forall_eq_or_imp, forall_eq]
  exact ⟨rfl, rfl⟩

/-- The boot processor comes first. -/
theorem mpInit_usable_iff_first :
    (mpconfig 16384 (nineMem 0)).run MpState.static =
      .ok (some (0xF009FC00#32, 0xF009FC10#32)) MpState.static ∧
    ((∃ s', (mpInit 16384 (nineMem 0) 0#8).run MpState.static = .ok () s' ∧ Usable s') ↔
      BootInTime (procFlags (nineMem 0) (half (nineMem 0) (0xF009FC10#32 + 34#32)).toNat
        (0xF009FC10#32 + 44#32))) :=
  have hconf := nine_mpconfig 0 (by decide)
  ⟨hconf, mpInit_usable_iff hconf⟩

/-- The boot processor comes after eight others. -/
theorem not_mpInit_usable : ¬ ∀ npages mem mp conf s in23,
    (mpconfig npages mem).run MpState.static = .ok (some (mp, conf)) s →
      ∃ s', (mpInit npages mem in23).run MpState.static = .ok () s' ∧ Usable s' := by
  intro hall
  have hconf := nine_mpconfig 8 (by decide)
  have husable := hall _ _ _ _ _ 0#8 hconf
  rw [mpInit_eq hconf, mpUse_iff counting_static rfl rfl] at husable
  have hcount : (procFlags (nineMem 8) (half (nineMem 8) (0xF009FC10#32 + 34#32)).toNat
      (0xF009FC10#32 + 44#32)) = List.replicate 8 1#8 ++ [3#8] := by decide
  rw [hcount] at husable
  exact absurd (husable 8 (by decide) (by decide)) (by decide)

end Mp

end Jos
