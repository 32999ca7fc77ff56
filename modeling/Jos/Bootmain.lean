import Jos.Layout
import Jos.Lib.Memory
import Mathlib.Data.List.Induction

/-!
# The boot loader

`bootmain` of `boot/main.c` reads the first page of the kernel image to a scratch page and then each
segment to its physical address.  It reads whole sectors, from the one that the segment begins in to
the one that it ends in, so that the last sector of a segment is read again if the next segment
begins in it too.  The bytes read then are those before the next segment in the image, and they are
the bytes of the first segment only if the two lie there as they lie in memory.

`bootmain_faithful_iff` says when all bytes of all segments are what the image says.
-/

set_option autoImplicit false

namespace Jos

namespace Bootmain

open ByteMem

/-! ## `boot/main.c` -/

/-- `SECTSIZE`. -/
def sectsize : Word := 512#32

/-- `ELFHDR`. -/
def elfhdr : Word := 0x10000#32

/-- `ELF_MAGIC`. -/
def elfMagic : Word := 0x464C457F#32

/-- The disk: the sectors, and their bytes. -/
abbrev Disk := Nat → Nat → Byte

/-- The sector that the disk is asked for by what is written to ports `0x1F3` to `0x1F6`. -/
def lba (offset : Word) : Nat :=
  let p3 : Byte := offset.setWidth 8
  let p4 : Byte := (offset >>> 8).setWidth 8
  let p5 : Byte := (offset >>> 16).setWidth 8
  let p6 : Byte := (offset >>> 24).setWidth 8 ||| 0xE0#8
  (p6.setWidth 4 ++ p5 ++ p4 ++ p3).toNat

/-- `readsect`. -/
def readsect (disk : Disk) (dst offset : Word) (m : ByteMem) : ByteMem := fun a =>
  if Within dst 512 a then disk (lba offset) (a - dst).toNat else m a

/-- The loop of `readseg`; nothing if it goes on for longer. -/
def readsegLoop (disk : Disk) : Nat → Word → Word → Word → ByteMem → Option ByteMem
  | 0, _, _, _, _ => none
  | fuel + 1, pa, endPa, offset, m =>
    if pa < endPa then
      readsegLoop disk fuel (pa + sectsize) endPa (offset + 1#32) (readsect disk pa offset m)
    else
      some m

/-- `readseg`. -/
def readseg (disk : Disk) (fuel : Nat) (pa count offset : Word) (m : ByteMem) : Option ByteMem :=
  let endPa := pa + count
  let pa := pa &&& ~~~(sectsize - 1#32)
  let offset := offset / sectsize + 1#32
  readsegLoop disk fuel pa endPa offset m

/-- `struct Proghdr`, as far as it is read here. -/
structure Proghdr where
  pOffset : Word
  pPa : Word
  pFilesz : Word
  pMemsz : Word

def proghdrAt (m : ByteMem) (a : Word) : Proghdr :=
  ⟨m.word (a + 4#32), m.word (a + 12#32), m.word (a + 16#32), m.word (a + 20#32)⟩

/-- `e_phnum` of the header at `a`. -/
def phnumAt (m : ByteMem) (a : Word) : BitVec 16 := m (a + 45#32) ++ m (a + 44#32)

/-- The loop of `bootmain`; the headers are read from the scratch page. -/
def loadLoop (disk : Disk) (rounds : Nat) : Nat → Word → Word → ByteMem → Option ByteMem
  | 0, _, _, _ => none
  | fuel + 1, ph, eph, m =>
    if ph < eph then
      let h := proghdrAt m ph
      (readseg disk rounds h.pPa h.pMemsz h.pOffset m).bind
        (loadLoop disk rounds fuel (ph + 32#32) eph)
    else
      some m

/-- How `bootmain` ends: at the entry point of the kernel, or in the loop at `bad`. -/
inductive Booted where
  | entry (eip : Word) (m : ByteMem)
  | bad (m : ByteMem)

/-- `bootmain`. -/
def bootmain (disk : Disk) (fuel : Nat) (m : ByteMem) : Option Booted := do
  let m ← readseg disk fuel elfhdr (sectsize * 8#32) 0#32 m
  if m.word elfhdr ≠ elfMagic then
    return .bad m
  let ph := elfhdr + m.word (elfhdr + 28#32)
  let eph := ph + 32#32 * (phnumAt m elfhdr).setWidth 32
  let m ← loadLoop disk fuel fuel ph eph m
  return .entry (m.word (elfhdr + 24#32)) m

/-! ## The kernel image -/

/-- Byte `i` of the image, which starts at sector 1. -/
def image (disk : Disk) (i : Nat) : Byte := disk (i / 512 + 1) (i % 512)

/-- The image, as a program would see it in memory. -/
def imageMem (disk : Disk) : ByteMem := fun a => image disk a.toNat

def phoff (disk : Disk) : Nat := ((imageMem disk).word 28#32).toNat

def phnum (disk : Disk) : Nat := (phnumAt (imageMem disk) 0#32).toNat

/-- Header `i` of the image. -/
def proghdr (disk : Disk) (i : Nat) : Proghdr :=
  proghdrAt (imageMem disk) (BitVec.ofNat 32 (phoff disk + 32 * i))

def headers (disk : Disk) : List Proghdr := (List.range (phnum disk)).map (proghdr disk)

/-- An image as `bootmain` expects it. -/
structure KernelImage (disk : Disk) : Prop where
  magic : (imageMem disk).word 0#32 = elfMagic
  /-- The headers are on the page that is read first. -/
  table : phoff disk + 32 * phnum disk ≤ 4096
  sorted : (headers disk).Pairwise fun h h' => h.pPa ≤ h'.pPa
  disjoint : (headers disk).Pairwise fun h h' => ∀ a,
    h.pPa.toNat ≤ a → a < h.pPa.toNat + h.pMemsz.toNat →
      ¬ (h'.pPa.toNat ≤ a ∧ a < h'.pPa.toNat + h'.pMemsz.toNat)
  noWrap : ∀ h ∈ headers disk, h.pPa.toNat + h.pMemsz.toNat ≤ 2 ^ 32
  /-- The segments lie below or above the scratch page. -/
  scratch : ∀ h ∈ headers disk, h.pPa.toNat + h.pMemsz.toNat ≤ 0x10000 ∨ 0x11000 ≤ h.pPa.toNat
  congruent : ∀ h ∈ headers disk, h.pPa.toNat % 512 = h.pOffset.toNat % 512

/-- **All segments are loaded**: `bootmain` gets to the entry point, and every byte of a segment
that is in the file is what it is in the image, whatever has been in memory before. -/
def Faithful (disk : Disk) : Prop :=
  ∀ m, ∃ fuel eip m', bootmain disk fuel m = some (.entry eip m') ∧
  ∀ h ∈ headers disk, ∀ k < h.pFilesz.toNat,
    m' (h.pPa + BitVec.ofNat 32 k) = image disk (h.pOffset.toNat + k)

namespace Proghdr

/-- The sectors that are read for a segment hold the address. -/
def Covers (h : Proghdr) (a : Word) : Prop :=
  h.pPa.toNat / 512 * 512 ≤ a.toNat ∧ a.toNat < ((h.pPa + h.pMemsz).toNat + 511) / 512 * 512

instance (h : Proghdr) (a : Word) : Decidable (h.Covers a) := inferInstanceAs (Decidable (_ ∧ _))

/-- The byte that is read to the address then. -/
def supplied (disk : Disk) (h : Proghdr) (a : Word) : Byte :=
  image disk (h.pOffset.toNat / 512 * 512 + (a.toNat - h.pPa.toNat / 512 * 512))

/-- The last sector is not the last one of the address space; otherwise the loop goes on at 0. -/
def Ends (h : Proghdr) : Prop := (h.pPa + h.pMemsz).toNat ≤ 2 ^ 32 - 512

instance (h : Proghdr) : Decidable h.Ends := inferInstanceAs (Decidable (_ ≤ _))

/-- What reading the segment does. -/
def load (disk : Disk) (h : Proghdr) (m : ByteMem) : ByteMem := fun a =>
  if h.Covers a then h.supplied disk a else m a

end Proghdr

/-- What is read to the scratch page. -/
def scratchPage : Proghdr := ⟨0#32, elfhdr, 0#32, 0x1000#32⟩

/-- The last segment that is read over the address. -/
def lastCover (l : List Proghdr) (a : Word) : Option Proghdr := l.reverse.find? (·.Covers a)

/-- The loops end, and each byte in the file is right in the segment that is read over it last. -/
structure Harmless (disk : Disk) : Prop where
  ends : ∀ h ∈ headers disk, h.Ends
  last : ∀ h ∈ headers disk, ∀ k < h.pFilesz.toNat, ∃ l,
    lastCover (scratchPage :: headers disk) (h.pPa + BitVec.ofNat 32 k) = some l ∧
      l.supplied disk (h.pPa + BitVec.ofNat 32 k) = image disk (h.pOffset.toNat + k)

/-! ## Sectors -/

variable {disk : Disk} {m : ByteMem} {h : Proghdr}

/-- The ports are given the whole sector number. -/
theorem lba_eq {offset : Word} (h : offset.toNat < 2 ^ 28) : lba offset = offset.toNat := by
  have hbits : ((((offset >>> 24).setWidth 8 ||| 0xE0#8 : Byte).setWidth 4 : BitVec 4) ++
      ((offset >>> 16).setWidth 8 : Byte) ++ ((offset >>> 8).setWidth 8 : Byte) ++
      (offset.setWidth 8 : Byte) : BitVec 28) = offset.setWidth 28 := by
    refine BitVec.eq_of_getLsbD_eq fun j hj => ?_
    simp only [BitVec.getLsbD_append, BitVec.getLsbD_setWidth, BitVec.getLsbD_or,
      BitVec.getLsbD_ushiftRight]
    interval_cases j <;> simp
  have hval := congrArg BitVec.toNat hbits
  rw [BitVec.toNat_setWidth, Nat.mod_eq_of_lt h] at hval
  exact hval

theorem sector_toNat (pa : Word) : (pa &&& ~~~(sectsize - 1#32)).toNat = pa.toNat / 512 * 512 := by
  have hmask : pa &&& ~~~(sectsize - 1#32) = pa >>> 9 <<< 9 := by
    refine BitVec.eq_of_getLsbD_eq fun j hj => ?_
    rw [BitVec.getLsbD_and, show ~~~(sectsize - 1#32) = 0xFFFFFE00#32 from rfl]
    interval_cases j <;> simp
  rw [hmask, BitVec.toNat_shiftLeft, BitVec.toNat_ushiftRight, Nat.shiftRight_eq_div_pow,
    Nat.shiftLeft_eq]
  have hlt := pa.isLt
  omega

/-- Memory, after the sectors from `offset` on have been read to `pa` and up to `endPa`. -/
def sectors (disk : Disk) (pa endPa offset : Word) (m : ByteMem) : ByteMem := fun a =>
  if pa.toNat ≤ a.toNat ∧ a.toNat < (endPa.toNat + 511) / 512 * 512 then
    disk (offset.toNat + (a.toNat - pa.toNat) / 512) ((a.toNat - pa.toNat) % 512)
  else m a

theorem sectors_none {pa endPa : Word} (hle : endPa.toNat ≤ pa.toNat) (hpa : pa.toNat % 512 = 0)
    (offset : Word) : sectors disk pa endPa offset m = m := by
  funext a
  rw [sectors, if_neg]
  omega

theorem sectors_step {pa endPa offset : Word} (hlt : pa.toNat < endPa.toNat)
    (hend : endPa.toNat ≤ 2 ^ 32 - 512) (hpa : pa.toNat % 512 = 0)
    (ho : offset.toNat + (2 ^ 32 - pa.toNat) / 512 < 2 ^ 28) :
    sectors disk (pa + sectsize) endPa (offset + 1#32) (readsect disk pa offset m) =
      sectors disk pa endPa offset m := by
  have hnext : (pa + sectsize).toNat = pa.toNat + 512 := by
    rw [BitVec.toNat_add, show sectsize.toNat = 512 from rfl]
    omega
  have honext : (offset + 1#32).toNat = offset.toNat + 1 := by
    rw [BitVec.toNat_add, show (1#32).toNat = 1 from rfl]
    omega
  funext a
  rw [sectors, sectors, hnext, honext]
  by_cases hfirst : Within pa 512 a
  · have hsub : (a - pa).toNat = a.toNat - pa.toNat ∧ pa.toNat ≤ a.toNat := by
      have hw : (a - pa).toNat < 512 := hfirst
      rw [BitVec.toNat_sub] at hw ⊢
      have := a.isLt
      omega
    have hw : (a - pa).toNat < 512 := hfirst
    rw [if_neg (by omega), if_pos (by omega), readsect, if_pos hfirst, lba_eq (by omega), hsub.1,
      show (a.toNat - pa.toNat) / 512 = 0 by omega, show (a.toNat - pa.toNat) % 512 =
        a.toNat - pa.toNat by omega]
    rfl
  · have hout : ¬ (pa.toNat ≤ a.toNat ∧ a.toNat < pa.toNat + 512) := by
      intro hin
      refine hfirst ?_
      rw [Within, BitVec.toNat_sub]
      have := a.isLt
      omega
    rw [readsect, if_neg hfirst]
    by_cases hin : pa.toNat ≤ a.toNat ∧ a.toNat < (endPa.toNat + 511) / 512 * 512
    · rw [if_pos hin, if_pos (by omega),
        show a.toNat - pa.toNat = a.toNat - (pa.toNat + 512) + 512 by omega,
        Nat.add_div_right _ (by decide), Nat.add_mod_right]
      exact congrArg (disk · _) (by omega)
    · rw [if_neg hin, if_neg (by omega)]

/-- **The loop of `readseg`** ends with all the sectors read. -/
theorem readsegLoop_run (fuel : Nat) {pa endPa offset : Word} (hend : endPa.toNat ≤ 2 ^ 32 - 512)
    (hpa : pa.toNat % 512 = 0) (ho : offset.toNat + (2 ^ 32 - pa.toNat) / 512 < 2 ^ 28) :
    readsegLoop disk fuel pa endPa offset m =
      if (endPa.toNat + 511) / 512 - pa.toNat / 512 < fuel then
        some (sectors disk pa endPa offset m) else none := by
  induction fuel generalizing pa offset m with
  | zero => rw [if_neg (Nat.not_lt_zero _)]; rfl
  | succ fuel ih =>
    rw [readsegLoop]
    by_cases hlt : pa < endPa
    · have hlt' : pa.toNat < endPa.toNat := hlt
      have hnext : (pa + sectsize).toNat = pa.toNat + 512 := by
        rw [BitVec.toNat_add, show sectsize.toNat = 512 from rfl]
        omega
      have honext : (offset + 1#32).toNat = offset.toNat + 1 := by
        rw [BitVec.toNat_add, show (1#32).toNat = 1 from rfl]
        omega
      have hcount : ((endPa.toNat + 511) / 512 - (pa.toNat + 512) / 512 < fuel) ↔
          (endPa.toNat + 511) / 512 - pa.toNat / 512 < fuel + 1 := by omega
      rw [if_pos hlt, ih (by omega) (by omega), sectors_step hlt' hend hpa ho, hnext]
      simp only [hcount]
    · have hle : endPa.toNat ≤ pa.toNat := Nat.le_of_not_lt hlt
      rw [if_neg hlt, sectors_none hle hpa, if_pos (by omega)]

/-- It goes on for ever if the last sector is the last one there is. -/
theorem readsegLoop_forever (fuel : Nat) {pa endPa offset : Word}
    (hend : 2 ^ 32 - 512 < endPa.toNat)
    (hpa : pa.toNat % 512 = 0) : readsegLoop disk fuel pa endPa offset m = none := by
  induction fuel generalizing pa offset m with
  | zero => rfl
  | succ fuel ih =>
    have hlt : pa < endPa := by
      rw [BitVec.lt_def]
      have := pa.isLt
      omega
    have hnext : (pa + sectsize).toNat % 512 = 0 := by
      rw [BitVec.toNat_add, show sectsize.toNat = 512 from rfl]
      omega
    rw [readsegLoop, if_pos hlt, ih hnext]

/-- **`readseg`** reads the sectors of a segment, if it ends. -/
theorem readseg_run (disk : Disk) (fuel : Nat) (h : Proghdr) (m : ByteMem) :
    readseg disk fuel h.pPa h.pMemsz h.pOffset m =
      if h.Ends ∧ ((h.pPa + h.pMemsz).toNat + 511) / 512 - h.pPa.toNat / 512 < fuel then
        some (h.load disk m) else none := by
  have hpa := sector_toNat h.pPa
  have hoff : (h.pOffset / sectsize + 1#32).toNat = h.pOffset.toNat / 512 + 1 := by
    have hlt := h.pOffset.isLt
    rw [BitVec.toNat_add, BitVec.toNat_udiv, show sectsize.toNat = 512 from rfl,
      show (1#32).toNat = 1 from rfl]
    omega
  have hlt := h.pOffset.isLt
  rw [readseg]
  by_cases hends : h.Ends
  · rw [readsegLoop_run fuel hends (by omega) (by omega), hpa, Nat.mul_div_cancel _ (by decide)]
    have hload : sectors disk (h.pPa &&& ~~~(sectsize - 1#32)) (h.pPa + h.pMemsz)
        (h.pOffset / sectsize + 1#32) m = h.load disk m := by
      funext a
      rw [sectors, Proghdr.load, Proghdr.supplied, image, hpa, hoff]
      refine if_congr Iff.rfl ?_ rfl
      rw [Nat.add_comm (_ * 512), Nat.add_mul_div_right _ _ (by decide), Nat.add_mul_mod_self_right]
      exact congrArg (disk · _) (by omega)
    simp only [hload, hends, true_and]
  · rw [if_neg fun hh => hends hh.1]
    exact readsegLoop_forever fuel (Nat.lt_of_not_le hends) (by omega)

/-! ## The scratch page -/

/-- The first page of the image is on the scratch page. -/
def Scratch (disk : Disk) (m : ByteMem) : Prop :=
  ∀ i < 4096, m (elfhdr + BitVec.ofNat 32 i) = imageMem disk (BitVec.ofNat 32 i)

theorem Scratch.word (hm : Scratch disk m) {i : Nat} (hi : i + 4 ≤ 4096) :
    m.word (elfhdr + BitVec.ofNat 32 i) = (imageMem disk).word (BitVec.ofNat 32 i) := by
  have hbyte : ∀ k < 4, m (elfhdr + BitVec.ofNat 32 i + BitVec.ofNat 32 k) =
      imageMem disk (BitVec.ofNat 32 i + BitVec.ofNat 32 k) := by
    intro k hk
    rw [BitVec.add_assoc, ← BitVec.ofNat_add]
    exact hm (i + k) (by omega)
  have h0 := hm i (by omega)
  rw [ByteMem.word, ByteMem.word, h0]
  congr 1
  congr 1
  congr 1
  · exact hbyte 3 (by decide)
  · exact hbyte 2 (by decide)
  · exact hbyte 1 (by decide)

/-- A header is read as it is in the image. -/
theorem Scratch.proghdrAt (hm : Scratch disk m) {i : Nat} (hi : phoff disk + 32 * i + 32 ≤ 4096) :
    proghdrAt m (elfhdr + BitVec.ofNat 32 (phoff disk + 32 * i)) = proghdr disk i := by
  have hfield : ∀ k ≤ 28,
      m.word (elfhdr + BitVec.ofNat 32 (phoff disk + 32 * i) + BitVec.ofNat 32 k) =
      (imageMem disk).word (BitVec.ofNat 32 (phoff disk + 32 * i) + BitVec.ofNat 32 k) := by
    intro k hk
    rw [BitVec.add_assoc, ← BitVec.ofNat_add]
    exact hm.word (by omega)
  rw [proghdr, Bootmain.proghdrAt, Bootmain.proghdrAt, hfield 4 (by decide), hfield 12 (by decide),
    hfield 16 (by decide), hfield 20 (by decide)]

theorem elfhdr_add_toNat {i : Nat} (hi : i ≤ 4096) :
    (elfhdr + BitVec.ofNat 32 i).toNat = 0x10000 + i := by
  rw [BitVec.toNat_add, show elfhdr.toNat = 0x10000 from rfl, BitVec.toNat_ofNat]
  omega

theorem scratch_load (disk : Disk) (m : ByteMem) : Scratch disk (scratchPage.load disk m) := by
  intro i hi
  have hbase : scratchPage.pPa.toNat = 0x10000 := rfl
  have hend : (scratchPage.pPa + scratchPage.pMemsz).toNat = 0x11000 := rfl
  have hat := elfhdr_add_toNat (Nat.le_of_lt hi)
  have hc : scratchPage.Covers (elfhdr + BitVec.ofNat 32 i) := by
    rw [Proghdr.Covers, hbase, hend, hat]
    omega
  rw [Proghdr.load, if_pos hc, Proghdr.supplied, imageMem, hbase, hat,
    show scratchPage.pOffset.toNat = 0 from rfl, BitVec.toNat_ofNat]
  exact congrArg (image disk) (by omega)

/-- A segment below or above it leaves it alone, for it begins and ends with a sector. -/
theorem Scratch.load (hm : Scratch disk m)
    (haway : h.pPa.toNat + h.pMemsz.toNat ≤ 0x10000 ∨ 0x11000 ≤ h.pPa.toNat) :
    Scratch disk (h.load disk m) := by
  intro i hi
  have hat := elfhdr_add_toNat (Nat.le_of_lt hi)
  have hc : ¬ h.Covers (elfhdr + BitVec.ofNat 32 i) := by
    rw [Proghdr.Covers, hat, BitVec.toNat_add]
    omega
  rw [Proghdr.load, if_neg hc]
  exact hm i hi

/-! ## The segments -/

/-- Reading segments one after the other. -/
def loadAll (disk : Disk) (l : List Proghdr) (m : ByteMem) : ByteMem :=
  l.foldl (fun m h => h.load disk m) m

theorem loadAll_cons (h : Proghdr) (l : List Proghdr) (m : ByteMem) :
    loadAll disk (h :: l) m = loadAll disk l (h.load disk m) := rfl

/-- The last one wins. -/
theorem loadAll_apply (l : List Proghdr) (m : ByteMem) (a : Word) : loadAll disk l m a =
    match lastCover l a with
    | some h => h.supplied disk a
    | none => m a := by
  induction l using List.reverseRecOn with
  | nil => rfl
  | append_singleton l h ih =>
    have hlast : loadAll disk (l ++ [h]) m = h.load disk (loadAll disk l m) := List.foldl_append
    rw [hlast, Proghdr.load, lastCover, List.reverse_append]
    by_cases hc : h.Covers a
    · have hfind : ([h].reverse ++ l.reverse).find? (·.Covers a) = some h :=
        List.find?_cons_of_pos (by simpa using hc)
      rw [if_pos hc, hfind]
    · have hfind : ([h].reverse ++ l.reverse).find? (·.Covers a) = lastCover l a :=
        List.find?_cons_of_neg (by simpa using hc)
      rw [if_neg hc, hfind, ih]

/-- The headers from `i` on. -/
def headersFrom (disk : Disk) (i n : Nat) : List Proghdr := (List.range' i n).map (proghdr disk)

/-- What is known of the headers that are still to come. -/
structure Ahead (disk : Disk) (i n : Nat) : Prop where
  table : phoff disk + 32 * (i + n) ≤ 4096
  scratch : ∀ h ∈ headersFrom disk i n,
    h.pPa.toNat + h.pMemsz.toNat ≤ 0x10000 ∨ 0x11000 ≤ h.pPa.toNat

theorem Ahead.tail {i n : Nat} (h : Ahead disk i (n + 1)) : Ahead disk (i + 1) n where
  table := by have := h.table; omega
  scratch h' hmem := h.scratch h' (List.mem_cons_of_mem _ hmem)

/-- A round of the loop. -/
theorem Ahead.loadLoop_step {i n : Nat} (h : Ahead disk i (n + 1)) (hm : Scratch disk m)
    (rounds fuel : Nat) :
    loadLoop disk rounds (fuel + 1) (elfhdr + BitVec.ofNat 32 (phoff disk + 32 * i))
        (elfhdr + BitVec.ofNat 32 (phoff disk + 32 * (i + (n + 1)))) m =
      (readseg disk rounds (proghdr disk i).pPa (proghdr disk i).pMemsz (proghdr disk i).pOffset
        m).bind
        (loadLoop disk rounds fuel (elfhdr + BitVec.ofNat 32 (phoff disk + 32 * (i + 1)))
          (elfhdr + BitVec.ofNat 32 (phoff disk + 32 * (i + 1 + n)))) := by
  have htable := h.table
  have hlt : elfhdr + BitVec.ofNat 32 (phoff disk + 32 * i) <
      elfhdr + BitVec.ofNat 32 (phoff disk + 32 * (i + (n + 1))) := by
    rw [BitVec.lt_def, elfhdr_add_toNat (by omega), elfhdr_add_toNat htable]
    omega
  have hnext : elfhdr + BitVec.ofNat 32 (phoff disk + 32 * i) + 32#32 =
      elfhdr + BitVec.ofNat 32 (phoff disk + 32 * (i + 1)) := by
    rw [BitVec.add_assoc, show (32#32) = BitVec.ofNat 32 32 from rfl, ← BitVec.ofNat_add]
    rfl
  rw [loadLoop, if_pos hlt, hm.proghdrAt (by omega), hnext, show i + (n + 1) = i + 1 + n by omega]

theorem loadLoop_done {i : Nat} (rounds fuel : Nat) :
    loadLoop disk rounds (fuel + 1) (elfhdr + BitVec.ofNat 32 (phoff disk + 32 * i))
      (elfhdr + BitVec.ofNat 32 (phoff disk + 32 * (i + 0))) m = some m := by
  rw [loadLoop, Nat.add_zero, if_neg (BitVec.lt_irrefl _)]

/-- **The loop of `bootmain`** reads all segments, if it ends. -/
theorem loadLoop_some {i n fuel rounds : Nat} {m' : ByteMem} (h : Ahead disk i n)
    (hm : Scratch disk m) (hrun : loadLoop disk rounds fuel
      (elfhdr + BitVec.ofNat 32 (phoff disk + 32 * i))
      (elfhdr + BitVec.ofNat 32 (phoff disk + 32 * (i + n))) m = some m') :
    (∀ h ∈ headersFrom disk i n, h.Ends) ∧ m' = loadAll disk (headersFrom disk i n) m := by
  induction n generalizing i fuel m with
  | zero =>
    cases fuel with
    | zero => exact absurd hrun (by simp [loadLoop])
    | succ fuel =>
      rw [loadLoop_done] at hrun
      exact ⟨fun _ hmem => absurd hmem List.not_mem_nil, (Option.some.inj hrun).symm⟩
  | succ n ih =>
    cases fuel with
    | zero => exact absurd hrun (by simp [loadLoop])
    | succ fuel =>
      have hmem : proghdr disk i ∈ headersFrom disk i (n + 1) := List.mem_cons_self
      rw [h.loadLoop_step hm, readseg_run] at hrun
      split at hrun
      · next hends =>
        rw [Option.bind_some] at hrun
        obtain ⟨hall, heq⟩ := ih h.tail (hm.load (h.scratch _ hmem)) hrun
        refine ⟨fun h' hh' => ?_, heq⟩
        rcases List.mem_cons.1 hh' with rfl | hh'
        · exact hends.1
        · exact hall h' hh'
      · exact absurd hrun (by simp)

/-- It ends if every segment does. -/
theorem loadLoop_ends {i n fuel rounds : Nat} (h : Ahead disk i n) (hm : Scratch disk m)
    (hends : ∀ h ∈ headersFrom disk i n, h.Ends) (hfuel : n < fuel) (hrounds : 2 ^ 24 < rounds) :
    loadLoop disk rounds fuel (elfhdr + BitVec.ofNat 32 (phoff disk + 32 * i))
      (elfhdr + BitVec.ofNat 32 (phoff disk + 32 * (i + n))) m =
        some (loadAll disk (headersFrom disk i n) m) := by
  induction n generalizing i fuel m with
  | zero =>
    obtain ⟨fuel, rfl⟩ : ∃ k, fuel = k + 1 := ⟨fuel - 1, by omega⟩
    exact loadLoop_done rounds fuel
  | succ n ih =>
    obtain ⟨fuel, rfl⟩ : ∃ k, fuel = k + 1 := ⟨fuel - 1, by omega⟩
    have hmem : proghdr disk i ∈ headersFrom disk i (n + 1) := List.mem_cons_self
    have hlt := (proghdr disk i).pPa.isLt
    have hlt' := ((proghdr disk i).pPa + (proghdr disk i).pMemsz).isLt
    rw [h.loadLoop_step hm, readseg_run, if_pos ⟨hends _ hmem, by omega⟩, Option.bind_some]
    exact ih h.tail (hm.load (h.scratch _ hmem))
      (fun h' hh' => hends h' (List.mem_cons_of_mem _ hh')) (by omega)

/-! ## `bootmain` -/

theorem headers_eq (disk : Disk) : headers disk = headersFrom disk 0 (phnum disk) := by
  rw [headers, headersFrom, List.range_eq_range']

theorem KernelImage.ahead (hk : KernelImage disk) : Ahead disk 0 (phnum disk) where
  table := by
    rw [Nat.zero_add]
    exact hk.table
  scratch h hmem := hk.scratch h (headers_eq disk ▸ hmem)

/-- Up to the loop: the first page is read, and the pointers to the headers are what they should
be. -/
theorem KernelImage.bootmain_eq (hk : KernelImage disk) (fuel : Nat) (m : ByteMem) :
    bootmain disk fuel m = if 8 < fuel then
      (loadLoop disk fuel fuel (elfhdr + BitVec.ofNat 32 (phoff disk + 32 * 0))
        (elfhdr + BitVec.ofNat 32 (phoff disk + 32 * (0 + phnum disk)))
        (scratchPage.load disk m)).map fun m' => .entry (m'.word (elfhdr + 24#32)) m'
    else none := by
  have hm := scratch_load disk m
  have htable := hk.table
  have hread : readseg disk fuel elfhdr (sectsize * 8#32) 0#32 m =
      if 8 < fuel then some (scratchPage.load disk m) else none := by
    refine (readseg_run disk fuel scratchPage m).trans (if_congr ?_ rfl rfl)
    exact ⟨fun h => h.2, fun h => ⟨by decide, h⟩⟩
  have hmagic : (scratchPage.load disk m).word elfhdr = elfMagic := by
    have hword := hm.word (i := 0) (by decide)
    rw [← hk.magic]
    exact hword
  have hphoff : BitVec.ofNat 32 (phoff disk) = (scratchPage.load disk m).word (elfhdr + 28#32) := by
    rw [phoff, BitVec.ofNat_toNat, BitVec.setWidth_eq]
    exact (hm.word (i := 28) (by decide)).symm
  have hphnum : phnumAt (scratchPage.load disk m) elfhdr = phnumAt (imageMem disk) 0#32 := by
    rw [phnumAt, phnumAt]
    exact congrArg₂ (· ++ ·) (hm 45 (by decide)) (hm 44 (by decide))
  have heph : elfhdr + (scratchPage.load disk m).word (elfhdr + 28#32) +
      32#32 * (phnumAt (scratchPage.load disk m) elfhdr).setWidth 32 =
        elfhdr + BitVec.ofNat 32 (phoff disk + 32 * (0 + phnum disk)) := by
    rw [← hphoff, hphnum, Nat.zero_add, BitVec.add_assoc, BitVec.ofNat_add, BitVec.ofNat_mul, phnum,
      BitVec.ofNat_toNat]
  rw [bootmain, hread]
  by_cases hfuel : 8 < fuel
  · rw [if_pos hfuel, if_pos hfuel]
    simp only [Option.bind_eq_bind, Option.bind_some, hmagic, ne_eq, not_true_eq_false, if_false]
    rw [heph, ← hphoff]
    cases loadLoop disk fuel fuel _ _ (scratchPage.load disk m) <;> rfl
  · rw [if_neg hfuel, if_neg hfuel]
    rfl

/-- **`bootmain`** gets to the entry point if and only if every segment ends, and then it has read
them all. -/
theorem KernelImage.bootmain_run (hk : KernelImage disk) (m : ByteMem) :
    (∀ fuel eip m', bootmain disk fuel m = some (.entry eip m') →
      (∀ h ∈ headers disk, h.Ends) ∧ m' = loadAll disk (scratchPage :: headers disk) m) ∧
    ((∀ h ∈ headers disk, h.Ends) → ∃ fuel eip,
      bootmain disk fuel m = some (.entry eip (loadAll disk (scratchPage :: headers disk) m))) := by
  have hcons : loadAll disk (scratchPage :: headers disk) m =
      loadAll disk (headersFrom disk 0 (phnum disk)) (scratchPage.load disk m) := by
    rw [headers_eq, loadAll_cons]
  rw [hcons, headers_eq]
  constructor
  · intro fuel eip m' hrun
    rw [hk.bootmain_eq] at hrun
    split at hrun
    · obtain ⟨m'', hloop, heq⟩ := Option.map_eq_some_iff.1 hrun
      obtain ⟨-, rfl⟩ := Booted.entry.inj heq
      exact loadLoop_some hk.ahead (scratch_load disk m) hloop
    · exact absurd hrun (by simp)
  · intro hends
    obtain ⟨fuel, hfuel⟩ : ∃ fuel, 2 ^ 24 + phnum disk < fuel := ⟨_, Nat.lt_succ_self _⟩
    refine ⟨fuel, (loadAll disk (headersFrom disk 0 (phnum disk)) (scratchPage.load disk m)).word
      (elfhdr + 24#32), ?_⟩
    rw [hk.bootmain_eq, if_pos (by omega),
      loadLoop_ends hk.ahead (scratch_load disk m) hends (by omega) (by omega)]
    rfl

/-- **The boot loader** loads all segments if and only if the last segment read over each of their
bytes has that byte of the image there, and no segment ends in the last sector there is. -/
theorem bootmain_faithful_iff (hk : KernelImage disk) : Faithful disk ↔ Harmless disk := by
  constructor
  · intro hf
    refine ⟨?_, fun h hmem k hk' => ?_⟩
    · obtain ⟨fuel, eip, m', hrun, -⟩ := hf fun _ => 0#8
      exact ((hk.bootmain_run _).1 fuel eip m' hrun).1
    · -- memory starts out wrong everywhere
      obtain ⟨fuel, eip, m', hrun, hbytes⟩ := hf fun _ => image disk (h.pOffset.toNat + k) + 1#8
      have hbyte := hbytes h hmem k hk'
      rw [((hk.bootmain_run _).1 fuel eip m' hrun).2, loadAll_apply] at hbyte
      cases hlast : lastCover (scratchPage :: headers disk) (h.pPa + BitVec.ofNat 32 k) with
      | some l =>
        rw [hlast] at hbyte
        exact ⟨l, rfl, hbyte⟩
      | none =>
        rw [hlast] at hbyte
        have hne : ∀ b : Byte, b + 1#8 ≠ b := by decide
        exact absurd hbyte (hne _)
  · intro hh m
    obtain ⟨fuel, eip, hrun⟩ := (hk.bootmain_run m).2 hh.ends
    refine ⟨fuel, eip, _, hrun, fun h hmem k hk' => ?_⟩
    obtain ⟨l, hlast, hbyte⟩ := hh.last h hmem k hk'
    rw [loadAll_apply, hlast]
    exact hbyte

/-! ## Two segments in one sector -/

/-- The ELF header of `twoSegments`, as far as it is read, and the program headers: the first
segment is `0x300` bytes at `0x100000`, from `0x1000` in the image; the second one goes on where it
ends, but comes from `0x2300`. -/
def twoHeaders : List Byte :=
  [0x7F#8, 0x45#8, 0x4C#8, 0x46#8] ++ List.replicate 24 0#8 ++ [52#8] ++ List.replicate 15 0#8 ++
  [2#8] ++ List.replicate 7 0#8 ++
  [0#8, 0#8, 0#8, 0#8, 0#8, 0x10#8, 0#8, 0#8, 0#8, 0#8, 0#8, 0#8, 0#8, 0#8, 0x10#8, 0#8,
   0#8, 3#8, 0#8, 0#8, 0#8, 3#8, 0#8, 0#8, 0#8, 0#8, 0#8, 0#8, 0#8, 0#8, 0#8, 0#8] ++
  [0#8, 0#8, 0#8, 0#8, 0#8, 0x23#8, 0#8, 0#8, 0#8, 0#8, 0#8, 0#8, 0#8, 3#8, 0x10#8, 0#8,
   0#8, 1#8, 0#8, 0#8, 0#8, 1#8, 0#8, 0#8, 0#8, 0#8, 0#8, 0#8, 0#8, 0#8, 0#8, 0#8]

/-- A disk with the image; the first segment has one byte that is not 0, in its last sector. -/
def twoSegments : Disk := fun sector i =>
  if sector = 10 ∧ i = 0 then 1#8 else if sector = 1 then twoHeaders.getD i 0#8 else 0#8

theorem twoSegments_headers : headers twoSegments =
    [⟨0x1000#32, 0x100000#32, 0x300#32, 0x300#32⟩,
      ⟨0x2300#32, 0x100300#32, 0x100#32, 0x100#32⟩] := by
  rfl

theorem twoSegments_kernel : KernelImage twoSegments where
  magic := by decide
  table := by decide
  sorted := by
    rw [twoSegments_headers]
    decide
  disjoint := by
    rw [twoSegments_headers]
    refine List.pairwise_pair.2 fun a _ hlt hin => ?_
    have hge : 0x100300 ≤ a := hin.1
    have hlt' : a < 0x100300 := hlt
    omega
  noWrap := by
    rw [twoSegments_headers]
    decide
  scratch := by
    rw [twoSegments_headers]
    decide
  congruent := by
    rw [twoSegments_headers]
    decide

theorem bootmain_faithful_iff_twoSegments :
    KernelImage twoSegments ∧ (Faithful twoSegments ↔ Harmless twoSegments) :=
  ⟨twoSegments_kernel, bootmain_faithful_iff twoSegments_kernel⟩

/-- The second segment brings other bytes to the last sector of the first. -/
theorem not_faithful : ¬ ∀ disk, KernelImage disk → Faithful disk := by
  intro hall
  obtain ⟨fuel, eip, m', hrun, hbytes⟩ := hall _ twoSegments_kernel fun _ => 0#8
  have hm' := ((twoSegments_kernel.bootmain_run _).1 fuel eip m' hrun).2
  have hbyte := hbytes ⟨0x1000#32, 0x100000#32, 0x300#32, 0x300#32⟩
    (by rw [twoSegments_headers]; exact List.mem_cons_self) 0x200 (by decide)
  rw [hm', loadAll_apply, twoSegments_headers] at hbyte
  exact absurd hbyte (by decide)

end Bootmain

end Jos
