import Jos.Lib.Memory

/-!
# Copying memory with string instructions

`movs` copies a byte or a long word from `esi` to `edi` and moves both registers on, up or down as
the direction flag says; with `rep` it is repeated `ecx` times.

What comes of a copy does not depend on the direction or on the size of the pieces, as long as no
piece is written where a later one is still to be read.  That is `copyAll_apply`, for any list of
pieces; `rep` goes through the pieces upwards or downwards.
-/

set_option autoImplicit false

namespace ByteMem

variable {m : ByteMem} {a b dst src : BitVec 32} {n w : Nat}

theorem within_add {o : Nat} (ho : o < 2 ^ 32) : Within (a + BitVec.ofNat 32 o) n b ↔
    (((b - a).toNat + (2 ^ 32 - o)) % 2 ^ 32 < n) := by
  rw [Within, ← BitVec.sub_sub, BitVec.toNat_sub, BitVec.toNat_ofNat, Nat.mod_eq_of_lt ho,
    Nat.add_comm]

/-- Byte `b` is in the piece at `o`. -/
theorem within_piece {o : Nat} (hw : 0 < w) (ho : o + w ≤ 2 ^ 32) :
    Within (a + BitVec.ofNat 32 o) w b ↔ o ≤ (b - a).toNat ∧ (b - a).toNat < o + w := by
  have hlt := (b - a).isLt
  rw [within_add (by omega)]
  omega

/-- `n` bytes have been copied, and nothing else has changed. -/
structure Moved (m m' : ByteMem) (dst src : BitVec 32) (n : Nat) : Prop where
  copied : ∀ k < n, m' (dst + BitVec.ofNat 32 k) = m (src + BitVec.ofNat 32 k)
  rest : ∀ b, ¬ Within dst n b → m' b = m b

/-- Half words are moved whole. -/
theorem Moved.half {m' : ByteMem} (h : Moved m m' dst src n) {k : Nat} (hk : k + 2 ≤ n) :
    m'.half (dst + BitVec.ofNat 32 k) = m.half (src + BitVec.ofNat 32 k) := by
  refine half_congr fun j hj => ?_
  rw [BitVec.add_assoc, BitVec.add_assoc, ← BitVec.ofNat_add]
  exact h.copied (k + j) (by omega)

/-- What is moved is determined. -/
theorem Moved.unique {m' m'' : ByteMem} (h : Moved m m' dst src n) (h' : Moved m m'' dst src n) :
    m' = m'' := by
  funext b
  by_cases hb : Within dst n b
  · obtain ⟨k, hk, rfl⟩ := within_iff.1 hb
    rw [h.copied k hk, h'.copied k hk]
  · rw [h.rest b hb, h'.rest b hb]

end ByteMem

namespace X86

open ByteMem

/-- What `movs` copies at once. -/
inductive Size where
  | byte
  | long
deriving DecidableEq

def Size.bytes : Size → Nat
  | .byte => 1
  | .long => 4

theorem Size.bytes_pos (size : Size) : 0 < size.bytes := by cases size <;> decide

variable {m : ByteMem} {a b dst src : BitVec 32} {n : Nat} {size : Size}

/-- One piece, from `src` to `dst`. -/
def mov (m : ByteMem) (dst src : BitVec 32) : Size → ByteMem
  | .byte => Function.update m dst (m src)
  | .long => m.store dst (m.word src)

/-- The registers of the string instructions, the direction flag and memory. -/
structure StringRegs where
  df : Bool
  edi : BitVec 32
  esi : BitVec 32
  mem : ByteMem

/-- `movs`. -/
def StringRegs.movs (size : Size) (c : StringRegs) : StringRegs :=
  let step := BitVec.ofNat 32 size.bytes
  { c with
    mem := mov c.mem c.edi c.esi size
    edi := if c.df then c.edi - step else c.edi + step
    esi := if c.df then c.esi - step else c.esi + step }

/-- `rep movs`; the count is `ecx`. -/
def StringRegs.repMovs (size : Size) : Nat → StringRegs → StringRegs
  | 0, c => c
  | ecx + 1, c => (c.movs size).repMovs size ecx

/-! ## Pieces -/

theorem byteOf_word (m : ByteMem) (a : BitVec 32) {k : Nat} (hk : k < 4) :
    byteOf (m.word a) k = m (a + BitVec.ofNat 32 k) := by
  refine BitVec.eq_of_getLsbD_eq fun j hj => ?_
  simp only [byteOf, ByteMem.word, BitVec.getLsbD_append, BitVec.getLsbD_setWidth,
    BitVec.getLsbD_ushiftRight]
  interval_cases k <;> interval_cases j <;> simp

theorem mov_apply (m : ByteMem) (dst src : BitVec 32) (size : Size) (b : BitVec 32) :
    mov m dst src size b = if Within dst size.bytes b then m (src + (b - dst)) else m b := by
  cases size with
  | byte =>
    by_cases hb : b = dst
    · subst hb
      rw [mov, Function.update_self, if_pos (by simp [Within, Size.bytes]), BitVec.sub_self,
        BitVec.add_zero]
    · have hno : ¬ Within dst 1 b := by
        intro h
        obtain ⟨k, hk, rfl⟩ := within_iff.1 h
        obtain rfl : k = 0 := by omega
        exact hb (BitVec.add_zero dst)
      rw [mov, Function.update_of_ne hb, Size.bytes, if_neg hno]
  | long =>
    rw [mov, ByteMem.store, Size.bytes]
    by_cases hb : Within dst 4 b
    · rw [if_pos hb, if_pos hb, byteOf_word m src hb, BitVec.ofNat_toNat, BitVec.setWidth_eq]
    · rw [if_neg hb, if_neg hb]

/-- The pieces at these offsets, one after the other. -/
def copyAll (size : Size) (dst src : BitVec 32) (l : List Nat) (m : ByteMem) : ByteMem :=
  l.foldl (fun m o => mov m (dst + BitVec.ofNat 32 o) (src + BitVec.ofNat 32 o) size) m

/-- The piece at `o` is not written where the piece at `o'` is read. -/
def Spares (size : Size) (dst src : BitVec 32) (o o' : Nat) : Prop :=
  ∀ k < size.bytes, ¬ Within (dst + BitVec.ofNat 32 o) size.bytes (src + BitVec.ofNat 32 (o' + k))

/-- **A copy piece by piece** reads everything as it was, if each piece spares those after it. -/
theorem copyAll_apply {l : List Nat} (hl : l.Pairwise (Spares size dst src)) (m : ByteMem)
    (b : BitVec 32) : copyAll size dst src l m b =
      if ∃ o ∈ l, Within (dst + BitVec.ofNat 32 o) size.bytes b then m (src + (b - dst))
      else m b := by
  induction l generalizing m with
  | nil => rw [if_neg (by simp)]; rfl
  | cons o l ih =>
    obtain ⟨hspare, hrest⟩ := List.pairwise_cons.1 hl
    have hcons : copyAll size dst src (o :: l) m =
        copyAll size dst src l
          (mov m (dst + BitVec.ofNat 32 o) (src + BitVec.ofNat 32 o) size) := rfl
    have hsrc : src + BitVec.ofNat 32 o + (b - (dst + BitVec.ofNat 32 o)) = src + (b - dst) := by
      rw [← BitVec.sub_sub, BitVec.add_assoc, BitVec.add_comm (BitVec.ofNat 32 o),
        BitVec.sub_add_cancel]
    rw [hcons, ih hrest]
    by_cases hlater : ∃ o' ∈ l, Within (dst + BitVec.ofNat 32 o') size.bytes b
    · rw [if_pos hlater, if_pos (hlater.imp fun o' h => ⟨List.mem_cons_of_mem o h.1, h.2⟩),
        mov_apply, if_neg]
      -- what is read later has been spared
      obtain ⟨o', ho', hb⟩ := hlater
      obtain ⟨k, hk, rfl⟩ := within_iff.1 hb
      have hat : src + (dst + BitVec.ofNat 32 o' + BitVec.ofNat 32 k - dst) =
          src + BitVec.ofNat 32 (o' + k) := by
        rw [BitVec.add_assoc, BitVec.add_comm dst, BitVec.add_sub_cancel, BitVec.ofNat_add]
      rw [hat]
      exact hspare o' ho' k hk
    · rw [if_neg hlater, mov_apply, hsrc]
      have hiff : (∃ o' ∈ o :: l, Within (dst + BitVec.ofNat 32 o') size.bytes b) ↔
          Within (dst + BitVec.ofNat 32 o) size.bytes b := by
        constructor
        · rintro ⟨o', ho', hb⟩
          rcases List.mem_cons.1 ho' with rfl | hmem
          · exact hb
          · exact absurd ⟨o', hmem, hb⟩ hlater
        · exact fun hb => ⟨o, List.mem_cons_self, hb⟩
      by_cases hb : Within (dst + BitVec.ofNat 32 o) size.bytes b
      · rw [if_pos hb, if_pos (hiff.2 hb)]
      · rw [if_neg hb, if_neg (mt hiff.1 hb)]

theorem moved_of_copyAll {l : List Nat} (hl : l.Pairwise (Spares size dst src))
    (hmem : ∀ o, o ∈ l ↔ ∃ i < n, o = size.bytes * i) (hdst : dst.toNat + size.bytes * n ≤ 2 ^ 32) :
    Moved m (copyAll size dst src l m) dst src (size.bytes * n) := by
  have hiff : ∀ b, (∃ o ∈ l, Within (dst + BitVec.ofNat 32 o) size.bytes b) ↔
      Within dst (size.bytes * n) b := by
    intro b
    constructor
    · rintro ⟨o, ho, hb⟩
      obtain ⟨i, hi, rfl⟩ := (hmem o).1 ho
      have hle : size.bytes * i + size.bytes ≤ size.bytes * n := by
        rw [← Nat.mul_succ]
        exact Nat.mul_le_mul_left _ hi
      have hpiece := (within_piece size.bytes_pos (by omega)).1 hb
      exact Nat.lt_of_lt_of_le hpiece.2 hle
    · intro hb
      have hlt : (b - dst).toNat < size.bytes * n := hb
      have hi : (b - dst).toNat / size.bytes < n := Nat.div_lt_of_lt_mul hlt
      have hle : size.bytes * ((b - dst).toNat / size.bytes) + size.bytes ≤ size.bytes * n := by
        rw [← Nat.mul_succ]
        exact Nat.mul_le_mul_left _ hi
      refine ⟨_, (hmem _).2 ⟨_, hi, rfl⟩, (within_piece size.bytes_pos (by omega)).2 ⟨?_, ?_⟩⟩
      · exact Nat.mul_div_le ..
      · exact Nat.lt_mul_div_succ _ size.bytes_pos
  constructor
  · intro k hk
    rw [copyAll_apply hl, if_pos ((hiff _).2 (within_iff.2 ⟨k, hk, rfl⟩)), BitVec.add_comm dst,
      BitVec.add_sub_cancel]
  · intro b hb
    rw [copyAll_apply hl, if_neg (mt (hiff b).1 hb)]

/-! ## `rep` -/

theorem repMovs_up {c : StringRegs} {o : Nat} (hdf : c.df = false)
    (hedi : c.edi = dst + BitVec.ofNat 32 o) (hesi : c.esi = src + BitVec.ofNat 32 o) :
    (c.repMovs size n).mem = copyAll size dst src (List.range' o n size.bytes) c.mem := by
  induction n generalizing c o with
  | zero => rfl
  | succ n ih =>
    have hnext : ∀ a : BitVec 32, a + BitVec.ofNat 32 o + BitVec.ofNat 32 size.bytes =
        a + BitVec.ofNat 32 (o + size.bytes) := fun a => by rw [BitVec.add_assoc, BitVec.ofNat_add]
    have hmem : (c.movs size).mem =
        mov c.mem (dst + BitVec.ofNat 32 o) (src + BitVec.ofNat 32 o) size := by
      rw [← hedi, ← hesi]
      rfl
    rw [StringRegs.repMovs, List.range'_succ, ih (c := c.movs size) (o := o + size.bytes) hdf, hmem]
    · rfl
    · rw [← hnext, ← hedi, StringRegs.movs, hdf]
      rfl
    · rw [← hnext, ← hesi, StringRegs.movs, hdf]
      rfl

theorem repMovs_down {c : StringRegs} (hdf : c.df = true)
    (hedi : c.edi + BitVec.ofNat 32 size.bytes = dst + BitVec.ofNat 32 (size.bytes * n))
    (hesi : c.esi + BitVec.ofNat 32 size.bytes = src + BitVec.ofNat 32 (size.bytes * n)) :
    (c.repMovs size n).mem = copyAll size dst src (List.range' 0 n size.bytes).reverse c.mem := by
  induction n generalizing c with
  | zero => rfl
  | succ n ih =>
    have hprev : ∀ a p : BitVec 32, p + BitVec.ofNat 32 size.bytes =
        a + BitVec.ofNat 32 (size.bytes * (n + 1)) → p = a + BitVec.ofNat 32 (size.bytes * n) := by
      intro a p h
      rw [Nat.mul_succ, BitVec.ofNat_add, ← BitVec.add_assoc] at h
      exact add_right_cancel h
    have hmem : (c.movs size).mem = mov c.mem (dst + BitVec.ofNat 32 (size.bytes * n))
        (src + BitVec.ofNat 32 (size.bytes * n)) size := by
      rw [← hprev dst _ hedi, ← hprev src _ hesi]
      rfl
    rw [StringRegs.repMovs, List.range'_concat, List.reverse_append, Nat.zero_add,
      ih (c := c.movs size) hdf, hmem]
    · rfl
    · rw [StringRegs.movs, hdf, ← hprev dst _ hedi]
      exact BitVec.sub_add_cancel ..
    · rw [StringRegs.movs, hdf, ← hprev src _ hesi]
      exact BitVec.sub_add_cancel ..

theorem repMovs_df (c : StringRegs) : (c.repMovs size n).df = c.df := by
  induction n generalizing c with
  | zero => rfl
  | succ n ih => rw [StringRegs.repMovs, ih]; rfl

/-! ## Overlapping ranges -/

theorem mem_pieces (o : Nat) : o ∈ List.range' 0 n size.bytes ↔ ∃ i < n, o = size.bytes * i := by
  rw [List.mem_range']
  simp only [Nat.zero_add]

/-- Where the source of a byte lies from `dst` on. -/
theorem source_toNat {q : Nat} (hq : src.toNat + q < 2 ^ 32) :
    (src + BitVec.ofNat 32 q - dst).toNat =
    if dst.toNat ≤ src.toNat + q then src.toNat + q - dst.toNat
    else 2 ^ 32 + src.toNat + q - dst.toNat := by
  have hdst := dst.isLt
  rw [BitVec.toNat_sub, BitVec.toNat_add, BitVec.toNat_ofNat]
  split <;> omega

/-- The pieces in order, and what is known of two of them. -/
theorem pieces_pairwise {R : Nat → Nat → Prop}
    (h : ∀ o o', o + size.bytes ≤ o' → o' + size.bytes ≤ size.bytes * n → R o o') :
    (List.range' 0 n size.bytes).Pairwise R := by
  refine List.Pairwise.imp_of_mem ?_ (List.pairwise_lt_range' size.bytes size.bytes_pos)
  intro o o' ho ho' hlt
  obtain ⟨i, hi, rfl⟩ := (mem_pieces o).1 ho
  obtain ⟨j, hj, rfl⟩ := (mem_pieces o').1 ho'
  have hij : i < j := Nat.lt_of_mul_lt_mul_left hlt
  refine h _ _ ?_ ?_
  · rw [← Nat.mul_succ]
    exact Nat.mul_le_mul_left _ hij
  · rw [← Nat.mul_succ]
    exact Nat.mul_le_mul_left _ hj

/-- Upwards, if `dst` does not lie in the source range beyond its first byte. -/
theorem spares_up (hdst : dst.toNat + size.bytes * n ≤ 2 ^ 32)
    (hsrc : src.toNat + size.bytes * n ≤ 2 ^ 32)
    (h : dst.toNat ≤ src.toNat ∨ src.toNat + size.bytes * n ≤ dst.toNat) :
    (List.range' 0 n size.bytes).Pairwise (Spares size dst src) := by
  refine pieces_pairwise fun o o' hoo' ho' k hk hw => ?_
  have hpiece := (within_piece size.bytes_pos (by omega)).1 hw
  rw [source_toNat (by omega)] at hpiece
  split at hpiece <;> omega

/-- Downwards, if `src` is below `dst`. -/
theorem spares_down (hdst : dst.toNat + size.bytes * n ≤ 2 ^ 32) (h : src.toNat < dst.toNat) :
    (List.range' 0 n size.bytes).reverse.Pairwise (Spares size dst src) := by
  refine List.pairwise_reverse.2 (pieces_pairwise fun o o' hoo' ho' k hk hw => ?_)
  have hpiece := (within_piece size.bytes_pos (by omega)).1 hw
  rw [source_toNat (by omega)] at hpiece
  split at hpiece <;> omega

/-- **`rep movs` upwards.** -/
theorem repMovs_up_moved (hdst : dst.toNat + size.bytes * n ≤ 2 ^ 32)
    (hsrc : src.toNat + size.bytes * n ≤ 2 ^ 32)
    (h : dst.toNat ≤ src.toNat ∨ src.toNat + size.bytes * n ≤ dst.toNat)
    (m : ByteMem) :
    Moved m (StringRegs.repMovs size n ⟨false, dst, src, m⟩).mem dst src (size.bytes * n) := by
  rw [repMovs_up (o := 0) rfl (BitVec.add_zero dst).symm (BitVec.add_zero src).symm]
  exact moved_of_copyAll (spares_up hdst hsrc h) mem_pieces hdst

/-- **`rep movs` downwards**, from the last piece. -/
theorem repMovs_down_moved (hdst : dst.toNat + size.bytes * n ≤ 2 ^ 32)
    (h : src.toNat < dst.toNat) (m : ByteMem) {edi esi : BitVec 32}
    (hedi : edi + BitVec.ofNat 32 size.bytes = dst + BitVec.ofNat 32 (size.bytes * n))
    (hesi : esi + BitVec.ofNat 32 size.bytes = src + BitVec.ofNat 32 (size.bytes * n)) :
    Moved m (StringRegs.repMovs size n ⟨true, edi, esi, m⟩).mem dst src (size.bytes * n) := by
  rw [repMovs_down rfl hedi hesi]
  refine moved_of_copyAll (spares_down hdst h) (fun o => ?_) hdst
  rw [List.mem_reverse]
  exact mem_pieces o

end X86
