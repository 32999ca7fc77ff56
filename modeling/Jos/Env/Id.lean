import Jos.Env

/-!
# Environment ids

An id carries the index of its slot in the low ten bits and a generation above bit twelve.  When a
slot is filled again, `env_alloc` computes the new id from the old one: it adds one to the
generation, clears the index, starts over if the result is not positive, and puts the index back.

Seen as numbers, the ids of slot `e` are `4096 * g + e`, with `g` running from `1` to `2 ^ 19 - 1`
and then from `1` again.
-/

set_option autoImplicit false

namespace Jos

variable (old : Word) (e : EnvIndex)

/-! ## One id after the other -/

/-- Clearing the index part. -/
theorem clearIndex_toNat (w : Word) : (w &&& ~~~1023#32).toNat = w.toNat / 1024 * 1024 := by
  have hshift : w &&& ~~~1023#32 = (w >>> 10) <<< 10 := by
    apply BitVec.eq_of_getLsbD_eq
    intro i hi
    have hmask : (1023#32).getLsbD i = decide (i < 10) := by
      rw [show 1023#32 = BitVec.ofNat 32 (2 ^ 10 - 1) from rfl, BitVec.getLsbD_ofNat,
        Nat.testBit_two_pow_sub_one]
      simp [hi]
    simp only [BitVec.getLsbD_and, BitVec.getLsbD_not, BitVec.getLsbD_shiftLeft,
      BitVec.getLsbD_ushiftRight, hi, decide_true, Bool.true_and, hmask]
    by_cases hlow : i < 10
    · simp [hlow]
    · simp [hlow, show 10 + (i - 10) = i by omega]
  have hw := w.isLt
  rw [hshift, BitVec.toNat_shiftLeft, BitVec.toNat_ushiftRight, Nat.shiftLeft_eq,
    Nat.shiftRight_eq_div_pow]
  omega

/-- The generation part of the id after `old`, as a number. -/
def nextGeneration (old : Nat) : Nat :=
  let generation := (old + 4096) % 2 ^ 32 / 1024 * 1024
  if 0 < generation ∧ generation < 2 ^ 31 then generation else 4096

theorem nextEnvId_toNat : (nextEnvId old e).toNat = nextGeneration old.toNat + e := by
  have hgen : (old + 1#32 <<< 12 &&& ~~~1023#32).toNat =
      (old.toNat + 4096) % 2 ^ 32 / 1024 * 1024 := by
    rw [clearIndex_toNat, BitVec.toNat_add]
    rfl
  have he := e.isLt
  have hindex : (BitVec.ofNat 32 e.val).toNat = e.val := by
    rw [BitVec.toNat_ofNat]
    omega
  -- the two parts have no bits in common
  have hor : ∀ g : Word, g.toNat % 1024 = 0 →
      (g ||| BitVec.ofNat 32 e.val).toNat = g.toNat + e.val := by
    intro g hg
    have := Nat.shiftLeft_add_eq_or_of_lt (show e.val < 2 ^ 10 by omega) (g.toNat / 1024)
    rw [Nat.shiftLeft_eq, Nat.div_mul_cancel (Nat.dvd_of_mod_eq_zero hg)] at this
    rw [BitVec.toNat_or, hindex, this]
  have hpos : (old + 1#32 <<< 12 &&& ~~~1023#32).toInt ≤ 0 ↔
      ¬ (0 < (old.toNat + 4096) % 2 ^ 32 / 1024 * 1024 ∧
        (old.toNat + 4096) % 2 ^ 32 / 1024 * 1024 < 2 ^ 31) := by
    rw [BitVec.toInt_eq_toNat_cond, hgen]
    split
    · omega
    · omega
  rw [nextEnvId, nextGeneration]
  by_cases h : (old + 1#32 <<< 12 &&& ~~~1023#32).toInt ≤ 0
  · simp only [if_pos h, if_neg (hpos.1 h)]
    exact hor _ rfl
  · simp only [if_neg h, if_pos (not_not.1 (mt hpos.2 h))]
    rw [hor _ (by rw [hgen]; omega), hgen]

theorem nextGeneration_bounds (n : Nat) : 0 < nextGeneration n ∧ nextGeneration n % 1024 = 0 ∧
    nextGeneration n + 1024 ≤ 2 ^ 31 := by
  rw [nextGeneration]
  split
  · omega
  · omega

/-- **An id is positive**, whatever the slot's previous id was. -/
theorem nextEnvId_pos : 0 < (nextEnvId old e).toInt := by
  have hid := nextEnvId_toNat old e
  have hgen := nextGeneration_bounds old.toNat
  have he := e.isLt
  rw [BitVec.toInt_eq_toNat_cond, if_pos (by omega)]
  omega

/-- **An id names its slot.** -/
theorem envx_nextEnvId : envx (nextEnvId old e) = e := by
  have hid := nextEnvId_toNat old e
  have hgen := nextGeneration_bounds old.toNat
  have he := e.isLt
  apply Fin.ext
  show (nextEnvId old e &&& 1023#32).toNat = e.val
  rw [BitVec.toNat_and, show (1023#32).toNat = 2 ^ 10 - 1 from rfl, Nat.and_two_pow_sub_one_eq_mod,
    hid]
  omega

/-! ## All the ids of a slot -/

/-- The id of slot `e` once it has been allocated `n` times. -/
def envIdAfter : Nat → Word
  | 0 => 0#32
  | n + 1 => nextEnvId (envIdAfter n) e

theorem envIdAfter_toNat (n : Nat) :
    (envIdAfter e (n + 1)).toNat = 4096 * (n % (2 ^ 19 - 1) + 1) + e := by
  have he := e.isLt
  induction n with
  | zero =>
    rw [envIdAfter, nextEnvId_toNat, envIdAfter, nextGeneration]
    norm_num
  | succ n ih =>
    rw [envIdAfter, nextEnvId_toNat, ih, nextGeneration]
    -- either the generation moves on by one, or it has reached the sign bit
    split
    · omega
    · omega

theorem envIdAfter_pos (n : Nat) : 0 < (envIdAfter e (n + 1)).toInt := nextEnvId_pos _ e

theorem envx_envIdAfter (n : Nat) : envx (envIdAfter e (n + 1)) = e := envx_nextEnvId _ e

/-- **Ids do not come back** within `2 ^ 19 - 1` allocations. -/
theorem envIdAfter_ne {a b : Nat} (hab : a < b) (hb : b < a + (2 ^ 19 - 1)) :
    envIdAfter e (a + 1) ≠ envIdAfter e (b + 1) := by
  intro h
  have := congrArg BitVec.toNat h
  rw [envIdAfter_toNat, envIdAfter_toNat] at this
  omega

end Jos
