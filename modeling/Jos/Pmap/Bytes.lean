import Jos.Pmap
import Mathlib.Tactic.IntervalCases

/-!
# Bytes of a page

Pages are arrays of words, and the kernel and user programs also read and write single bytes of
them.  A byte that has been written is read back, and the others are not affected.
-/

set_option autoImplicit false

namespace Jos

open Kernel Command

variable {s : Kernel} {p : Page} {o o' : Nat} {b : Byte}

/-! ## Words -/

/-- A byte put into a word is read back. -/
theorem word_insert_self (w : Word) (b : Byte) {k : Nat} (hk : k < 4) :
    (((w &&& ~~~(0xFF#32 <<< (8 * k))) ||| (b.setWidth 32 <<< (8 * k))) >>> (8 * k)).setWidth 8 =
      b := by
  apply BitVec.eq_of_getLsbD_eq
  intro j hj
  have hmask : (0xFF#32).getLsbD j = true := by interval_cases j <;> rfl
  simp [hj, hmask, show 8 * k + j < 32 by omega,
    show ¬ 8 * k + j < 8 * k by omega, show 8 * k + j - 8 * k = j by omega]

/-- The other bytes of the word stay. -/
theorem word_insert_ne (w : Word) (b : Byte) {k k' : Nat} (hk : k < 4) (hk' : k' < 4)
    (hne : k' ≠ k) :
    (((w &&& ~~~(0xFF#32 <<< (8 * k))) ||| (b.setWidth 32 <<< (8 * k))) >>> (8 * k')).setWidth 8 =
      (w >>> (8 * k')).setWidth 8 := by
  apply BitVec.eq_of_getLsbD_eq
  intro j hj
  have hhigh : ∀ i, 8 ≤ i → (0xFF#32).getLsbD i = false := by
    intro i hi
    by_cases h32 : i < 32
    · interval_cases i <;> rfl
    · exact BitVec.getLsbD_of_ge _ _ (by omega)
  have hb : ∀ i, 8 ≤ i → b.getLsbD i = false := fun i hi => BitVec.getLsbD_of_ge _ _ hi
  rcases Nat.lt_or_gt_of_ne hne with h | h
  · simp [hj, show 8 * k' + j < 8 * k by omega,
      show 8 * k' + j < 32 by omega]
  · have h1 := hhigh (8 * k' + j - 8 * k) (by omega)
    have h2 := hb (8 * k' + j - 8 * k) (by omega)
    have h3 : 8 * k' + j - 8 * k < 32 := by omega
    rw [BitVec.getLsbD_eq_getElem h3] at h1
    simp [hj, h1, h2, show ¬ 8 * k' + j < 8 * k by omega,
      show 8 * k' + j < 32 by omega]

/-! ## Pages -/

theorem byteAt_setByte_self (p : Page) (b : Byte) (o : Nat) : byteAt (setByte p o b) o = b := by
  rw [byteAt, setByte, Function.update_self]
  exact word_insert_self _ b (Nat.mod_lt o (by decide))

theorem byteAt_setByte_ne (p : Page) (b : Byte) (ho : o < 4096) (ho' : o' < 4096) (hne : o' ≠ o) :
    byteAt (setByte p o b) o' = byteAt p o' := by
  rw [byteAt, byteAt, setByte]
  by_cases hi : Fin.ofNat 1024 (o' / 4) = Fin.ofNat 1024 (o / 4)
  · have hval := congrArg Fin.val hi
    rw [Fin.val_ofNat, Fin.val_ofNat] at hval
    rw [hi, Function.update_self]
    exact word_insert_ne _ b (Nat.mod_lt o (by decide)) (Nat.mod_lt o' (by decide)) (by omega)
  · rw [Function.update_of_ne hi]

/-- The bytes of a page are all there is to it. -/
theorem page_ext {q : Page} (h : ∀ o < 4096, byteAt p o = byteAt q o) : p = q := by
  funext i
  apply BitVec.eq_of_getLsbD_eq
  intro j hj
  have hi := i.isLt
  have hj8 := Nat.mod_lt j (show 8 > 0 by decide)
  have hbyte := congrArg (fun b : Byte => b.getLsbD (j % 8)) (h (4 * i.val + j / 8) (by omega))
  have hidx : Fin.ofNat 1024 ((4 * i.val + j / 8) / 4) = i := by
    apply Fin.ext
    rw [Fin.val_ofNat]
    omega
  have hbit : 8 * ((4 * i.val + j / 8) % 4) + j % 8 = j := by omega
  simp only [byteAt, hidx, BitVec.getLsbD_setWidth, BitVec.getLsbD_ushiftRight, hbit, hj8,
    decide_true, Bool.true_and] at hbyte
  exact hbyte

/-! ## Kernel accesses -/

theorem kstoreByte_run {va : Word} {f : Nat}
    (h : s.translate (s.cr3 s.cpunum) (pteP ||| pteW) va = some (f, o)) (b : Byte) :
    (kstoreByte va b).run s = .ok () (s.fill f (setByte (s.mem f) o b)) := by
  simp only [kstoreByte, EStateM.run_bind, EStateM.run_get, h, EStateM.run_modify]

theorem kstoreByte_fault {va : Word} (h : s.translate (s.cr3 s.cpunum) (pteP ||| pteW) va = none)
    (b : Byte) : (kstoreByte va b).run s = .error (.panic "Page fault in kernel") s := by
  simp only [kstoreByte, EStateM.run_bind, EStateM.run_get, h]
  rfl

end Jos
