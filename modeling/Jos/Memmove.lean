import Jos.Lib.Movs

/-!
# `memmove`

`memmove` of `lib/string.c`, in the two versions there are of it: with string instructions, which
copy long words where both ranges are aligned, and in plain C.  Both copy from the end if the
destination begins inside the source, and then the alignment is tested of the pointers to the end.
-/

set_option autoImplicit false

namespace Jos

open ByteMem X86

/-- What `memmove` leaves: the pointer it returns, the direction flag, and memory. -/
structure Moving where
  ret : BitVec 32
  df : Bool
  mem : ByteMem

/-- `(int)s%4 == 0 && (int)d%4 == 0 && n%4 == 0`. -/
def LongWords (s d n : BitVec 32) : Prop :=
  s.toInt.tmod 4 = 0 ∧ d.toInt.tmod 4 = 0 ∧ n % 4#32 = 0#32

instance (s d n : BitVec 32) : Decidable (LongWords s d n) := inferInstanceAs (Decidable (_ ∧ _))

/-- `rep movsb` or `rep movsl`, with `D`, `S` and `c` as given. -/
def repMovs (df : Bool) (size : Size) (edi esi ecx : BitVec 32) (m : ByteMem) : StringRegs :=
  (⟨df, edi, esi, m⟩ : StringRegs).repMovs size ecx.toNat

/-- `memmove`, the version for `ASM`. -/
def memmoveAsm (m : ByteMem) (dst src n : BitVec 32) : Moving :=
  let s := src
  let d := dst
  if s < d ∧ d < s + n then
    let s := s + n
    let d := d + n
    let c :=
      if LongWords s d n then repMovs true .long (d - 4#32) (s - 4#32) (n / 4#32) m
      else repMovs true .byte (d - 1#32) (s - 1#32) n m
    -- `cld`
    ⟨dst, false, c.mem⟩
  else
    let c :=
      if LongWords s d n then repMovs false .long d s (n / 4#32) m
      else repMovs false .byte d s n m
    ⟨dst, c.df, c.mem⟩

/-- `while (n-- > 0) *--d = *--s;` -/
def copyDown : Nat → BitVec 32 → BitVec 32 → ByteMem → ByteMem
  | 0, _, _, m => m
  | n + 1, d, s, m =>
    let d := d - 1#32
    let s := s - 1#32
    copyDown n d s (Function.update m d (m s))

/-- `while (n-- > 0) *d++ = *s++;` -/
def copyUp : Nat → BitVec 32 → BitVec 32 → ByteMem → ByteMem
  | 0, _, _, m => m
  | n + 1, d, s, m => copyUp n (d + 1#32) (s + 1#32) (Function.update m d (m s))

/-- `memmove`, the other version. -/
def memmoveC (df : Bool) (m : ByteMem) (dst src n : BitVec 32) : Moving :=
  let s := src
  let d := dst
  if s < d ∧ d < s + n then
    let s := s + n
    let d := d + n
    ⟨dst, df, copyDown n.toNat d s m⟩
  else
    ⟨dst, df, copyUp n.toNat d s m⟩

/-! ## Both directions -/

variable {m : ByteMem} {dst src n : BitVec 32}

theorem copyDown_eq (k : Nat) (d s : BitVec 32) (m : ByteMem) : copyDown k d s m =
    (StringRegs.repMovs .byte k ⟨true, d - 1#32, s - 1#32, m⟩).mem := by
  induction k generalizing d s m with
  | zero => rfl
  | succ k ih => exact ih _ _ _

theorem copyUp_eq (k : Nat) (d s : BitVec 32) (m : ByteMem) : copyUp k d s m =
    (StringRegs.repMovs .byte k ⟨false, d, s, m⟩).mem := by
  induction k generalizing d s m with
  | zero => rfl
  | succ k ih => exact ih _ _ _

/-- The long words of the range are all of it. -/
theorem LongWords.bytes {s d : BitVec 32} (h : LongWords s d n) :
    Size.long.bytes * (n / 4#32).toNat = n.toNat := by
  have hmod := congrArg BitVec.toNat h.2.2
  rw [BitVec.toNat_umod] at hmod
  rw [BitVec.toNat_udiv]
  show 4 * (n.toNat / 4) = n.toNat
  have h4 : n.toNat % 4 = 0 := hmod
  omega

/-- The destination begins inside the source. -/
theorem overlap_iff (hdst : dst.toNat + n.toNat ≤ 2 ^ 32) (hsrc : src.toNat + n.toNat ≤ 2 ^ 32) :
    (src < dst ∧ dst < src + n) ↔ src.toNat < dst.toNat ∧ dst.toNat < src.toNat + n.toNat := by
  rw [BitVec.lt_def, BitVec.lt_def, BitVec.toNat_add]
  omega

/-- Copying from the end: the last piece ends where the ranges do. -/
theorem repMovs_down_range (hdst : dst.toNat + n.toNat ≤ 2 ^ 32) (hlt : src.toNat < dst.toNat)
    {size : Size} {k : Nat} (hk : size.bytes * k = n.toNat) (m : ByteMem) :
    Moved m (StringRegs.repMovs size k ⟨true, dst + n - BitVec.ofNat 32 size.bytes,
      src + n - BitVec.ofNat 32 size.bytes, m⟩).mem dst src n.toNat := by
  have hend : ∀ a : BitVec 32, a + n - BitVec.ofNat 32 size.bytes + BitVec.ofNat 32 size.bytes =
      a + BitVec.ofNat 32 (size.bytes * k) := by
    intro a
    rw [BitVec.sub_add_cancel, hk, BitVec.ofNat_toNat, BitVec.setWidth_eq]
  have hfit : dst.toNat + size.bytes * k ≤ 2 ^ 32 := by omega
  have hmoved := repMovs_down_moved hfit hlt m (hend dst) (hend src)
  rwa [hk] at hmoved

theorem repMovs_up_range (hdst : dst.toNat + n.toNat ≤ 2 ^ 32) (hsrc : src.toNat + n.toNat ≤ 2 ^ 32)
    (hle : dst.toNat ≤ src.toNat ∨ src.toNat + n.toNat ≤ dst.toNat) {size : Size} {k : Nat}
    (hk : size.bytes * k = n.toNat) (m : ByteMem) :
    Moved m (StringRegs.repMovs size k ⟨false, dst, src, m⟩).mem dst src n.toNat := by
  have hfit : dst.toNat + size.bytes * k ≤ 2 ^ 32 := by omega
  have hfit' : src.toNat + size.bytes * k ≤ 2 ^ 32 := by omega
  have hmoved := repMovs_up_moved hfit hfit' (by omega) m
  rwa [hk] at hmoved

theorem memmoveC_moved (df : Bool) (hdst : dst.toNat + n.toNat ≤ 2 ^ 32)
    (hsrc : src.toNat + n.toNat ≤ 2 ^ 32) :
    Moved m (memmoveC df m dst src n).mem dst src n.toNat := by
  have hk : Size.byte.bytes * n.toNat = n.toNat := Nat.one_mul _
  rw [memmoveC]
  by_cases hover : src < dst ∧ dst < src + n
  · rw [if_pos hover]
    dsimp only
    rw [copyDown_eq]
    exact repMovs_down_range hdst ((overlap_iff hdst hsrc).1 hover).1 hk m
  · rw [if_neg hover]
    dsimp only
    rw [copyUp_eq]
    have hno := mt (overlap_iff hdst hsrc).2 hover
    exact repMovs_up_range hdst hsrc (by omega) hk m

theorem memmoveAsm_mem (m : ByteMem) (hdst : dst.toNat + n.toNat ≤ 2 ^ 32)
    (hsrc : src.toNat + n.toNat ≤ 2 ^ 32) :
    Moved m (memmoveAsm m dst src n).mem dst src n.toNat := by
  have hbyte : Size.byte.bytes * n.toNat = n.toNat := Nat.one_mul _
  rw [memmoveAsm]
  by_cases hover : src < dst ∧ dst < src + n
  · have hlt := ((overlap_iff hdst hsrc).1 hover).1
    rw [if_pos hover]
    dsimp only
    by_cases hlong : LongWords (src + n) (dst + n) n
    · rw [if_pos hlong]
      exact repMovs_down_range hdst hlt hlong.bytes m
    · rw [if_neg hlong]
      exact repMovs_down_range hdst hlt hbyte m
  · have hno := mt (overlap_iff hdst hsrc).2 hover
    have hle : dst.toNat ≤ src.toNat ∨ src.toNat + n.toNat ≤ dst.toNat := by omega
    rw [if_neg hover]
    dsimp only
    by_cases hlong : LongWords src dst n
    · rw [if_pos hlong]
      exact repMovs_up_range hdst hsrc hle hlong.bytes m
    · rw [if_neg hlong]
      exact repMovs_up_range hdst hsrc hle hbyte m

/-- **`memmove`** copies, whatever the overlap and the alignment: `dst` gets the old bytes of `src`,
and no other byte changes.  So it is what the plain version is, with the direction flag clear. -/
theorem memmoveAsm_moved (m : ByteMem) (hdst : dst.toNat + n.toNat ≤ 2 ^ 32)
    (hsrc : src.toNat + n.toNat ≤ 2 ^ 32) :
    Moved m (memmoveAsm m dst src n).mem dst src n.toNat ∧
      memmoveAsm m dst src n = memmoveC false m dst src n := by
  have hmoved := memmoveAsm_mem m hdst hsrc
  have hmem := hmoved.unique (memmoveC_moved false hdst hsrc)
  refine ⟨hmoved, ?_⟩
  rw [memmoveAsm, memmoveC] at hmem ⊢
  by_cases hover : src < dst ∧ dst < src + n
  · rw [if_pos hover, if_pos hover] at hmem ⊢
    exact congrArg (Moving.mk dst false) hmem
  · rw [if_neg hover, if_neg hover] at hmem ⊢
    have hdf : (if LongWords src dst n then repMovs false .long dst src (n / 4#32) m
        else repMovs false .byte dst src n m).df = false := by
      split
      · exact repMovs_df _
      · exact repMovs_df _
    dsimp only at hmem ⊢
    rw [hdf, hmem]

/-- Eight bytes are moved up by four. -/
theorem memmoveAsm_moved_overlap :
    (0x1004#32).toNat + (8#32).toNat ≤ 2 ^ 32 ∧ (0x1000#32).toNat + (8#32).toNat ≤ 2 ^ 32 ∧
    Moved (fun a => a.setWidth 8) (memmoveAsm (fun a => a.setWidth 8) 0x1004#32 0x1000#32 8#32).mem
      0x1004#32 0x1000#32 (8#32).toNat ∧
      memmoveAsm (fun a => a.setWidth 8) 0x1004#32 0x1000#32 8#32 =
        memmoveC false (fun a => a.setWidth 8) 0x1004#32 0x1000#32 8#32 :=
  ⟨by decide, by decide, memmoveAsm_moved _ (by decide) (by decide)⟩

end Jos
