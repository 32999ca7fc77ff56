import Mathlib.Data.Fin.Basic
import Mathlib.Tactic.Ring

/-!
# Addresses and page-table words

The constants and macros of `inc/mmu.h`, `inc/memlayout.h`, `inc/types.h` and `inc/error.h`.
Addresses, page-table entries and the C integers that the kernel compares with them are 32-bit
words, so that every sum, shift and rounding wraps exactly where the C code does.  Physical pages
are numbered, and a page number is a natural number.

A page-table word packs a page number and twelve flag bits.  `framed` is the only reader the
invariants need: the page number of a present entry.  `framed_entry` is the round trip through
the words that `page_insert` and `pgdir_walk` build.
-/

set_option autoImplicit false

namespace Jos

/-- A 32-bit machine word. -/
abbrev Word := BitVec 32

/-- A byte. -/
abbrev Byte := BitVec 8

/-! ## `inc/mmu.h` -/

/-- An index into a page directory or a page table, both of which have `NPDENTRIES = NPTENTRIES`
entries. -/
abbrev Index := Fin 1024

instance neZero_npdentries : NeZero 1024 := ⟨by decide⟩

/-- The `n` indexes from `i` on. -/
def indicesFrom (i : Nat) : Nat → List (Fin 1024)
  | 0 => []
  | n + 1 => Fin.ofNat 1024 i :: indicesFrom (i + 1) n

/-- The indexes `0, 1, ..., 1023` in order, as a loop goes through them. -/
def indices : List (Fin 1024) := indicesFrom 0 1024

theorem mem_indicesFrom {i n : Nat} {j : Fin 1024} (hi : i ≤ j) (hj : j.val < i + n) :
    j ∈ indicesFrom i n := by
  induction n generalizing i with
  | zero => omega
  | succ n ih =>
    rw [indicesFrom, List.mem_cons]
    by_cases h : j.val = i
    · exact Or.inl (by rw [← h]; simp)
    · exact Or.inr (ih (by omega) (by omega))

theorem le_of_mem_indicesFrom {i n : Nat} {j : Fin 1024} (h : i + n ≤ 1024)
    (hj : j ∈ indicesFrom i n) : i ≤ j.val := by
  induction n generalizing i with
  | zero => simp [indicesFrom] at hj
  | succ n ih =>
    rcases List.mem_cons.1 hj with rfl | hj
    · rw [Fin.val_ofNat, Nat.mod_eq_of_lt (by omega)]
    · have := ih (by omega) hj
      omega

theorem length_indicesFrom (i n : Nat) : (indicesFrom i n).length = n := by
  induction n generalizing i with
  | zero => rfl
  | succ n ih => rw [indicesFrom, List.length_cons, ih]

theorem sorted_indicesFrom {i n : Nat} (h : i + n ≤ 1024) :
    (indicesFrom i n).Pairwise (· < ·) := by
  induction n generalizing i with
  | zero => exact List.Pairwise.nil
  | succ n ih =>
    refine List.pairwise_cons.2 ⟨fun j hj => ?_, ih (by omega)⟩
    have := le_of_mem_indicesFrom (by omega) hj
    rw [Fin.lt_def, Fin.val_ofNat, Nat.mod_eq_of_lt (by omega)]
    omega

theorem sorted_indices : indices.Pairwise (· < ·) := sorted_indicesFrom (by omega)

theorem nodup_indices : indices.Nodup := sorted_indices.imp fun h => Fin.ne_of_lt h

theorem mem_indices (i : Fin 1024) : i ∈ indices :=
  mem_indicesFrom (Nat.zero_le _) (by have := i.isLt; omega)

/-- Bytes mapped by a page. -/
def pgsize : Word := 4096#32

/-- Bytes mapped by a page directory entry. -/
def ptsize : Word := 4194304#32

/-- Page number field of an address. -/
def pgnum (la : Word) : Nat := (la >>> 12).toNat

/-- Page directory index. -/
def pdx (la : Word) : Index :=
  ⟨((la >>> 22) &&& 0x3FF#32).toNat, by
    rw [BitVec.toNat_and]
    exact Nat.lt_of_le_of_lt Nat.and_le_right (by decide)⟩

/-- Page table index. -/
def ptx (la : Word) : Index :=
  ⟨((la >>> 12) &&& 0x3FF#32).toNat, by
    rw [BitVec.toNat_and]
    exact Nat.lt_of_le_of_lt Nat.and_le_right (by decide)⟩

/-- Offset in page. -/
def pgoff (la : Word) : Nat := (la &&& 0xFFF#32).toNat

/-- Construct a linear address from indexes and an offset. -/
def pgaddr (d t : Index) (o : Word) : Word :=
  BitVec.ofNat 32 d <<< 22 ||| BitVec.ofNat 32 t <<< 12 ||| o

def pteP : Word := 0x001#32
def pteW : Word := 0x002#32
def pteU : Word := 0x004#32
def pteAvail : Word := 0xE00#32

/-- Flags that may be used in system calls. -/
def pteSyscall : Word := pteAvail ||| pteP ||| pteW ||| pteU

/-- Address in a page table or page directory entry. -/
def pteAddr (pte : Word) : Word := pte &&& ~~~0xFFF#32

/-- Page fault error code: the fault was caused by a write. -/
def fecWr : Word := 0x2#32

def flIf : Word := 0x200#32

/-! ## `inc/types.h` -/

/-- Round down to the nearest multiple of `n`. -/
def roundDown (a n : Word) : Word := a - a % n

/-- Round up to the nearest multiple of `n`; the sum wraps at `2 ^ 32`. -/
def roundUp (a n : Word) : Word := roundDown (a + n - 1#32) n

/-! ## `inc/memlayout.h` -/

def gdKt : Word := 0x08#32
def gdUt : Word := 0x18#32
def gdUd : Word := 0x20#32

/-- All physical memory is mapped at this address. -/
def kernbase : Word := 0xF0000000#32

def iophysmem : Word := 0x0A0000#32
def extphysmem : Word := 0x100000#32
def kstacktop : Word := kernbase
def kstksize : Word := 8#32 * pgsize
def mmiolim : Word := kstacktop - ptsize
def mmiobase : Word := mmiolim - ptsize

/-- User code may not touch addresses from here up. -/
def ulim : Word := mmiobase

/-- The user's read-only view of its own page tables. -/
def uvpt : Word := ulim - ptsize

def upages : Word := uvpt - ptsize
def uenvs : Word := upages - ptsize

/-- Top of user-manipulable memory. -/
def utop : Word := uenvs

/-- Top of the one-page user exception stack. -/
def uxstacktop : Word := utop

/-- Top of the normal user stack. -/
def ustacktop : Word := utop - 2#32 * pgsize

/-- Where user programs generally begin. -/
def utext : Word := 2#32 * ptsize

def utemp : Word := ptsize

/-- Temporary mappings of the user page-fault handler. -/
def pftemp : Word := utemp + ptsize - pgsize

/-- Physical address of the startup code of the other CPUs. -/
def mpentryPaddr : Word := 0x7000#32

/-! ## `inc/error.h` -/

def eBadEnv : Word := 2#32
def eInval : Word := 3#32
def eNoMem : Word := 4#32
def eNoFreeEnv : Word := 5#32
def eFault : Word := 6#32
def eNoSys : Word := 7#32

/-- The physical address of page number `pp`. -/
def page2pa (pp : Nat) : Word := BitVec.ofNat 32 pp <<< 12

/-! ## The fields of an address -/

theorem pgnum_eq (la : Word) : pgnum la = la.toNat / 4096 := by
  simp [pgnum, BitVec.toNat_ushiftRight, Nat.shiftRight_eq_div_pow]

theorem pdx_val (la : Word) : (pdx la).val = la.toNat / 4194304 := by
  have hlt : la.toNat / 4194304 < 2 ^ 10 := by
    have := la.isLt
    omega
  show ((la >>> 22) &&& 0x3FF#32).toNat = _
  rw [BitVec.toNat_and, BitVec.toNat_ushiftRight, Nat.shiftRight_eq_div_pow]
  exact (Nat.and_two_pow_sub_one_eq_mod _ 10).trans (Nat.mod_eq_of_lt hlt)

theorem ptx_val (la : Word) : (ptx la).val = la.toNat / 4096 % 1024 := by
  show ((la >>> 12) &&& 0x3FF#32).toNat = _
  rw [BitVec.toNat_and, BitVec.toNat_ushiftRight, Nat.shiftRight_eq_div_pow]
  exact Nat.and_two_pow_sub_one_eq_mod _ 10

/-- The two indices make the page number. -/
theorem pgnum_inj {a b : Word} (h1 : pdx a = pdx b) (h2 : ptx a = ptx b) : pgnum a = pgnum b := by
  have h1' := congrArg Fin.val h1
  have h2' := congrArg Fin.val h2
  rw [pdx_val, pdx_val] at h1'
  rw [ptx_val, ptx_val] at h2'
  rw [pgnum_eq, pgnum_eq]
  omega

/-- And it determines them. -/
theorem pdx_ptx_of_pgnum {a b : Word} (h : pgnum a = pgnum b) : pdx a = pdx b ∧ ptx a = ptx b := by
  rw [pgnum_eq, pgnum_eq] at h
  refine ⟨Fin.ext ?_, Fin.ext ?_⟩
  · rw [pdx_val, pdx_val]
    omega
  · rw [ptx_val, ptx_val, h]

theorem pgoff_eq (la : Word) : pgoff la = la.toNat % 4096 := by
  rw [pgoff, BitVec.toNat_and]
  exact Nat.and_two_pow_sub_one_eq_mod _ 12

theorem pgaddr_toNat (d t : Index) :
    (pgaddr d t 0#32).toNat = d.val * 4194304 + t.val * 4096 := by
  have hd := d.isLt
  have ht := t.isLt
  have h1 : (BitVec.ofNat 32 d.val <<< 22).toNat = d.val * 4194304 := by
    simp [BitVec.toNat_shiftLeft, Nat.shiftLeft_eq]
    omega
  have h2 : (BitVec.ofNat 32 t.val <<< 12).toNat = t.val * 4096 := by
    simp [BitVec.toNat_shiftLeft, Nat.shiftLeft_eq]
    omega
  have h3 : d.val * 4194304 ||| t.val * 4096 = d.val * 4194304 + t.val * 4096 := by
    have := Nat.shiftLeft_add_eq_or_of_lt (show t.val * 4096 < 2 ^ 22 by omega) d.val
    rw [Nat.shiftLeft_eq] at this
    exact this.symm
  rw [pgaddr, BitVec.toNat_or, BitVec.toNat_or, h1, h2, h3]
  simp

@[simp] theorem pdx_pgaddr (d t : Index) : pdx (pgaddr d t 0#32) = d := by
  have ht := t.isLt
  apply Fin.ext
  rw [pdx_val, pgaddr_toNat]
  omega

@[simp] theorem ptx_pgaddr (d t : Index) : ptx (pgaddr d t 0#32) = t := by
  have ht := t.isLt
  apply Fin.ext
  rw [ptx_val, pgaddr_toNat]
  omega

/-- Page directory entries below this index map user memory. -/
def userPdes : Nat := 955

theorem pdx_uvpt : pdx uvpt = (957 : Fin 1024) := by decide

theorem utop_toNat : utop.toNat = 955 * 4194304 := by decide

/-- An address is below `UTOP` exactly when its directory entry is one of the user's. -/
theorem lt_utop_iff (va : Word) : va < utop ↔ (pdx va).val < userPdes := by
  rw [BitVec.lt_def, utop_toNat, pdx_val, userPdes]
  omega

/-! ## Rounding -/

theorem roundDown_toNat (a : Word) : (roundDown a pgsize).toNat = a.toNat / 4096 * 4096 := by
  have hm : (a % pgsize).toNat = a.toNat % 4096 := by
    rw [BitVec.toNat_umod]
    rfl
  rw [roundDown, BitVec.toNat_sub_of_le, hm]
  · omega
  · rw [BitVec.le_def, hm]
    exact Nat.mod_le _ _

theorem roundUp_toNat (a : Word) :
    (roundUp a pgsize).toNat = (a.toNat + 4095) % 2 ^ 32 / 4096 * 4096 := by
  have hb : (a + pgsize - 1#32).toNat = (a.toNat + 4095) % 2 ^ 32 := by
    have h1 : pgsize.toNat = 4096 := rfl
    have h2 : (1#32).toNat = 1 := rfl
    rw [BitVec.toNat_sub, BitVec.toNat_add, h1, h2]
    omega
  rw [roundUp, roundDown_toNat, hb]

theorem roundUp_room (a : Word) : (roundUp a pgsize).toNat + 4096 ≤ 2 ^ 32 := by
  rw [roundUp_toNat]
  omega

/-! ## Page-table words -/

/-- The page number of a present entry. -/
def framed (w : Word) : Option Nat :=
  if w &&& pteP = 0#32 then none else some (pgnum (pteAddr w))

theorem pgnum_pteAddr (w : Word) : pgnum (pteAddr w) = pgnum w := by
  rw [pgnum, pgnum, pteAddr]
  congr 1
  ext i hi
  simp only [BitVec.getElem_ushiftRight, BitVec.getLsbD_and, BitVec.getLsbD_not,
    BitVec.getLsbD_ofNat]
  by_cases h : 12 + i < 32
  · have hbit : (4095).testBit (12 + i) = false :=
      Nat.testBit_lt_two_pow (Nat.lt_of_lt_of_le (by decide : 4095 < 2 ^ 12)
        (Nat.pow_le_pow_right (by decide) (Nat.le_add_right 12 i)))
    simp [h, hbit]
  · simp [h, BitVec.getLsbD_of_ge w (12 + i) (by omega)]

theorem framed_zero : framed 0#32 = none := by decide

theorem framed_eq_none {w : Word} : framed w = none ↔ w &&& pteP = 0#32 := by
  rw [framed]
  split <;> simp_all

theorem framed_eq_some {w : Word} {p : Nat} :
    framed w = some p ↔ w &&& pteP ≠ 0#32 ∧ pgnum (pteAddr w) = p := by
  rw [framed]
  split <;> simp_all

theorem framed_lt {w : Word} {p : Nat} (h : framed w = some p) : p < 2 ^ 20 := by
  obtain ⟨-, rfl⟩ := framed_eq_some.1 h
  rw [pgnum_pteAddr, pgnum_eq]
  have := w.isLt
  omega

theorem page2pa_toNat {pp : Nat} (h : pp < 2 ^ 20) : (page2pa pp).toNat = pp * 4096 := by
  simp [page2pa, BitVec.toNat_shiftLeft, Nat.shiftLeft_eq]
  omega

theorem pgnum_page2pa {pp : Nat} (h : pp < 2 ^ 20) : pgnum (page2pa pp) = pp := by
  rw [pgnum_eq, page2pa_toNat h]
  omega

/-- Flags that fit the twelve low bits of an entry. -/
def IsPerm (perm : Word) : Prop := perm >>> 12 = 0#32

instance (perm : Word) : Decidable (IsPerm perm) := by unfold IsPerm; infer_instance

theorem or_and_of_and {k c : Word} (x : Word) (h : k &&& c = c) : (x ||| k) &&& c = c := by
  apply BitVec.eq_of_getLsbD_eq
  intro j hj
  have hbit := congrArg (fun w => w.getLsbD j) h
  simp only [BitVec.getLsbD_and, BitVec.getLsbD_or] at hbit ⊢
  revert hbit
  cases x.getLsbD j <;> cases k.getLsbD j <;> cases c.getLsbD j <;> simp

theorem framed_of_and {w perm : Word} (h : w &&& (perm ||| pteP) = perm ||| pteP) :
    ∃ f, framed w = some f := by
  cases hf : framed w with
  | some f => exact ⟨f, rfl⟩
  | none =>
    have hp : (perm ||| pteP) &&& pteP = pteP := or_and_of_and perm (by decide)
    have h0 : w &&& pteP = pteP := by
      calc w &&& pteP = w &&& (perm ||| pteP) &&& pteP := by rw [BitVec.and_assoc, hp]
        _ = pteP := by rw [h, hp]
    exact absurd ((framed_eq_none.1 hf).symm.trans h0) (by decide)

theorem isPerm_of_and {perm mask : Word} (hm : IsPerm mask) (h : perm &&& ~~~mask = 0#32) :
    IsPerm perm := by
  have hp : perm = perm &&& mask := by
    ext i hi
    have hb := congrArg (fun w => w.getLsbD i) h
    simp [hi] at hb
    simp
    exact hb
  rw [IsPerm, hp, BitVec.ushiftRight_and_distrib, hm]
  simp

/-- **The entry built for page `pp` reads back as page `pp`**, whatever the flags. -/
theorem framed_entry {pp : Nat} (h : pp < 2 ^ 20) {perm : Word} (hperm : IsPerm perm) :
    framed (page2pa pp ||| pteP ||| perm) = some pp := by
  refine framed_eq_some.2 ⟨?_, ?_⟩
  · intro h0
    have hb := congrArg (fun w => w.getLsbD 0) h0
    simp [pteP] at hb
  · rw [pgnum_pteAddr, pgnum, BitVec.ushiftRight_or_distrib, BitVec.ushiftRight_or_distrib, hperm,
      BitVec.or_zero, show pteP >>> 12 = 0#32 from rfl, BitVec.or_zero]
    exact pgnum_page2pa h

/-- The entry that `pgdir_walk` writes for a new page table. -/
theorem framed_table {pp : Nat} (h : pp < 2 ^ 20) :
    framed (page2pa pp ||| pteP ||| pteW ||| pteU) = some pp := by
  rw [BitVec.or_assoc _ pteW pteU]
  exact framed_entry h (by decide)

/-- The flags of the entry built for a page are the flags asked for. -/
theorem entry_and {pp : Nat} {perm flag : Word} (hf : flag &&& ~~~0xFFF#32 = 0#32)
    (hp : flag &&& pteP = 0#32) :
    (page2pa pp ||| pteP ||| perm) &&& flag = perm &&& flag := by
  ext i hi
  have h1 := congrArg (fun w => w.getLsbD i) hf
  have h2 := congrArg (fun w => w.getLsbD i) hp
  simp only [BitVec.getLsbD_and, BitVec.getLsbD_not, BitVec.getLsbD_zero, hi, decide_true,
    Bool.true_and] at h1 h2
  simp only [BitVec.getElem_and, BitVec.getElem_or, page2pa, BitVec.getElem_shiftLeft]
  rw [BitVec.getLsbD_eq_getElem hi] at h1 h2
  cases hfi : flag[i] with
  | false => simp
  | true =>
    simp only [hfi, Bool.true_and, Bool.not_eq_false', BitVec.getLsbD_eq_getElem hi] at h1 h2
    have hlt : i < 12 := by
      by_contra hge
      have : (4095).testBit i = false :=
        Nat.testBit_lt_two_pow (Nat.lt_of_lt_of_le (by decide : 4095 < 2 ^ 12)
          (Nat.pow_le_pow_right (by decide) (by omega)))
      rw [← BitVec.getLsbD_eq_getElem, BitVec.getLsbD_ofNat, this] at h1
      simp at h1
    simp [hlt, h2]

end Jos
