import Mathlib.Data.BitVec
import Mathlib.Tactic.IntervalCases

/-!
# A memory of bytes

Memory with 32-bit addresses, and words that are stored with the lowest byte first.  A word that has
been stored is read back, and a word that shares no byte with it stays.
-/

set_option autoImplicit false

/-- Memory, byte by byte. -/
abbrev ByteMem := BitVec 32 → BitVec 8

/-- Byte `k` of a word. -/
def byteOf (w : BitVec 32) (k : Nat) : BitVec 8 := (w >>> (8 * k)).setWidth 8

namespace ByteMem

variable {m m' : ByteMem} {a b w : BitVec 32}

/-- The word at an address. -/
def word (m : ByteMem) (a : BitVec 32) : BitVec 32 :=
  m (a + 3#32) ++ m (a + 2#32) ++ m (a + 1#32) ++ m a

/-- The half word at an address. -/
def half (m : ByteMem) (a : BitVec 32) : BitVec 16 := m (a + 1#32) ++ m a

/-- The address is one of the `n` that start with `a`. -/
def Within (a : BitVec 32) (n : Nat) (b : BitVec 32) : Prop := (b - a).toNat < n

instance (a : BitVec 32) (n : Nat) (b : BitVec 32) : Decidable (Within a n b) :=
  inferInstanceAs (Decidable (_ < _))

/-- Storing a word. -/
def store (m : ByteMem) (a w : BitVec 32) : ByteMem := fun b =>
  if Within a 4 b then byteOf w (b - a).toNat else m b

/-- Storing a half word. -/
def storeHalf (m : ByteMem) (a : BitVec 32) (w : BitVec 16) : ByteMem := fun b =>
  if Within a 2 b then byteOf (w.setWidth 32) (b - a).toNat else m b

theorem within_iff {n : Nat} :
    Within a n b ↔ ∃ k < n, b = a + BitVec.ofNat 32 k := by
  rw [Within]
  constructor
  · intro h
    refine ⟨_, h, ?_⟩
    rw [BitVec.ofNat_toNat, BitVec.setWidth_eq, BitVec.add_comm, BitVec.sub_add_cancel]
  · rintro ⟨k, hk, rfl⟩
    rw [BitVec.add_comm, BitVec.add_sub_cancel, BitVec.toNat_ofNat]
    exact lt_of_le_of_lt (Nat.mod_le _ _) hk

/-- Addresses that do not wrap around. -/
theorem within_toNat {n : Nat} (h : a.toNat + n ≤ 2 ^ 32) :
    Within a n b ↔ a.toNat ≤ b.toNat ∧ b.toNat < a.toNat + n := by
  have ha := a.isLt
  have hb := b.isLt
  rw [Within, BitVec.toNat_sub]
  omega

theorem Within.of_add {i k n : Nat} (h : Within (a + BitVec.ofNat 32 i) k b) (hn : i + k ≤ n) :
    Within a n b := by
  obtain ⟨j, hj, rfl⟩ := within_iff.1 h
  refine within_iff.2 ⟨i + j, by omega, ?_⟩
  rw [BitVec.add_assoc, ← BitVec.ofNat_add]

/-- The `n` addresses that start with `a` and the `k` that start with `b` have none in common. -/
def Apart (a : BitVec 32) (n : Nat) (b : BitVec 32) (k : Nat) : Prop :=
  ∀ x, Within a n x → ¬ Within b k x

theorem Apart.symm {n k : Nat} (h : Apart a n b k) : Apart b k a n := fun x hb ha => h x ha hb

theorem Apart.right {i k n l : Nat} (h : Apart a n b k) (hk : i + l ≤ k) :
    Apart a n (b + BitVec.ofNat 32 i) l := fun x ha hb => h x ha (hb.of_add hk)

theorem apart_of_le {n k : Nat} (h : a.toNat + n ≤ b.toNat) (hk : b.toNat + k ≤ 2 ^ 32) :
    Apart a n b k := by
  intro x ha hb
  rw [within_toNat (by omega)] at ha
  rw [within_toNat hk] at hb
  omega

/-- Two pieces of a region. -/
theorem apart_add {i j n k : Nat} (h : i + n ≤ j) (hk : j + k ≤ 2 ^ 32) :
    Apart (a + BitVec.ofNat 32 i) n (a + BitVec.ofNat 32 j) k := by
  intro x hi hj
  obtain ⟨i', hi', rfl⟩ := within_iff.1 hi
  obtain ⟨j', hj', heq⟩ := within_iff.1 hj
  rw [BitVec.add_assoc, BitVec.add_assoc, BitVec.add_right_inj, ← BitVec.ofNat_add,
    ← BitVec.ofNat_add] at heq
  have hnat := congrArg BitVec.toNat heq
  rw [BitVec.toNat_ofNat, BitVec.toNat_ofNat] at hnat
  omega

/-! ## Words and their bytes -/

theorem append_byteOf (w : BitVec 32) :
    byteOf w 3 ++ byteOf w 2 ++ byteOf w 1 ++ byteOf w 0 = w := by
  apply BitVec.eq_of_getLsbD_eq
  intro j hj
  simp only [byteOf, BitVec.getLsbD_append, BitVec.getLsbD_setWidth, BitVec.getLsbD_ushiftRight]
  interval_cases j <;> simp

theorem word_of_bytes (h : ∀ k < 4, m (a + BitVec.ofNat 32 k) = byteOf w k) : m.word a = w := by
  have h0 := h 0 (by decide)
  rw [BitVec.add_zero] at h0
  rw [word, h 3 (by decide), h 2 (by decide), h 1 (by decide), h0]
  exact append_byteOf w

theorem word_congr (h : ∀ k < 4, m (a + BitVec.ofNat 32 k) = m' (a + BitVec.ofNat 32 k)) :
    m.word a = m'.word a := by
  have h0 := h 0 (by decide)
  rw [BitVec.add_zero] at h0
  rw [word, word, h 3 (by decide), h 2 (by decide), h 1 (by decide), h0]

/-! ## Stores -/

theorem store_apart (h : ¬ Within a 4 b) : m.store a w b = m b := if_neg h

/-- A word that has been stored is read back. -/
theorem word_store_self (m : ByteMem) (a w : BitVec 32) : (m.store a w).word a = w := by
  refine word_of_bytes fun k hk => ?_
  have hoff : (a + BitVec.ofNat 32 k - a).toNat = k := by
    rw [BitVec.add_comm, BitVec.add_sub_cancel, BitVec.toNat_ofNat]
    omega
  have hw : Within a 4 (a + BitVec.ofNat 32 k) := by
    rw [Within, hoff]
    exact hk
  rw [store, if_pos hw, hoff]

/-- A word that shares no byte with it stays. -/
theorem word_store_apart (h : Apart a 4 b 4) : (m.store a w).word b = m.word b :=
  word_congr fun k hk => store_apart fun hw => h _ hw (within_iff.2 ⟨k, hk, rfl⟩)

/-! ## Half words -/

theorem half_congr (h : ∀ k < 2, m (a + BitVec.ofNat 32 k) = m' (b + BitVec.ofNat 32 k)) :
    m.half a = m'.half b := by
  have h0 := h 0 (by decide)
  have h1 := h 1 (by decide)
  rw [BitVec.add_zero, BitVec.add_zero] at h0
  rw [half, half, h0]
  exact congrArg (· ++ m' b) h1

theorem append_byteOf_half (w : BitVec 16) :
    byteOf (w.setWidth 32) 1 ++ byteOf (w.setWidth 32) 0 = w := by
  apply BitVec.eq_of_getLsbD_eq
  intro j hj
  simp only [byteOf, BitVec.getLsbD_append, BitVec.getLsbD_setWidth, BitVec.getLsbD_ushiftRight]
  interval_cases j <;> simp

theorem storeHalf_apart {w : BitVec 16} (h : ¬ Within a 2 b) : m.storeHalf a w b = m b := if_neg h

theorem half_storeHalf_self (m : ByteMem) (a : BitVec 32) (w : BitVec 16) :
    (m.storeHalf a w).half a = w := by
  have hbyte : ∀ k < 2, m.storeHalf a w (a + BitVec.ofNat 32 k) = byteOf (w.setWidth 32) k := by
    intro k hk
    have hoff : (a + BitVec.ofNat 32 k - a).toNat = k := by
      rw [BitVec.add_comm, BitVec.add_sub_cancel, BitVec.toNat_ofNat]
      omega
    have hw : Within a 2 (a + BitVec.ofNat 32 k) := by
      rw [Within, hoff]
      exact hk
    rw [storeHalf, if_pos hw, hoff]
  have h0 := hbyte 0 (by decide)
  rw [BitVec.add_zero] at h0
  rw [half, hbyte 1 (by decide), h0]
  exact append_byteOf_half w

theorem half_storeHalf_apart {w : BitVec 16} (h : Apart a 2 b 2) :
    (m.storeHalf a w).half b = m.half b :=
  half_congr fun k hk => storeHalf_apart fun hw => h _ hw (within_iff.2 ⟨k, hk, rfl⟩)

end ByteMem
