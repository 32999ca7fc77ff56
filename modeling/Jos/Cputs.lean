import Jos.UserMem.Exact
import Jos.Pmap.Bytes
import Jos.Uvpt
import Jos.Syscall.Effect

/-!
# How far `sys_cputs` reads

`sys_cputs` checks `[s, s+len)` and hands both to `cprintf("%.*s", len, s)`.  The loop of
`vprintfmt` reads a character before it looks at the precision, so it only keeps to the range that
was checked if it comes to a NUL there.  Otherwise it reads the byte at `s+len` too, and if `len`,
taken as a signed number, is negative, whatever follows.
-/

set_option autoImplicit false

namespace Jos

open Kernel Command Traced

variable {s : Kernel} {d : Nat} {p len va : Word} {e : EnvIndex} {l : List Access}

/-! ## Bytes -/

namespace Kernel

/-- The byte that the kernel reads at an address, if it can. -/
def kbyte (s : Kernel) (va : Word) : Option Byte :=
  (s.translate (s.cr3 s.cpunum) pteP va).map fun x => byteAt (s.mem x.1) x.2

/-- A character on the console. -/
def printed (s : Kernel) (ch : Byte) : Kernel := { s with consOut := ch :: s.consOut }

end Kernel

theorem kloadByte_run {b : Byte} (h : s.kbyte va = some b) : (kloadByte va).run s = .ok b s := by
  obtain ⟨⟨f, o⟩, ht, rfl⟩ := Option.map_eq_some_iff.1 h
  simp only [kloadByte, EStateM.run_bind, EStateM.run_get, ht, EStateM.run_pure]

theorem kloadByte_fault (h : s.kbyte va = none) : ∃ x, (kloadByte va).run s = .error x s := by
  have ht := Option.map_eq_none_iff.1 h
  refine ⟨.panic "Page fault in kernel", ?_⟩
  simp only [kloadByte, EStateM.run_bind, EStateM.run_get, ht]
  rfl

/-- Where the check passes and the directory is loaded, there is a byte. -/
theorem kbyte_of_grants {perm : Word} (hcr3 : s.cr3 s.cpunum = d)
    (hg : s.Grants d (perm ||| pteP) va) : ∃ b, s.kbyte va = some b := by
  obtain ⟨t, hf, -, hperm⟩ := (grants_iff va).1 hg
  obtain ⟨f, hleaf⟩ := framed_of_and hperm
  rw [kbyte, hcr3, translate_present, hf, Option.bind_some, hleaf]
  exact ⟨_, rfl⟩

/-! ## A round of the loop -/

namespace Watch

variable {fuel : Nat} {precision : Int}

/-- The first thing a round does is read the character. -/
theorem printfmtS_read {b : Byte} (h : s.kbyte p = some b) :
    final (printfmtS (fuel + 1) p precision) ⟨s, l⟩ =
      if b = 0#8 then ⟨s, l ++ [.byte p]⟩
      else if precision < 0 then
        final (printfmtS fuel (p + 1#32) precision) ⟨s.printed b, l ++ [.byte p]⟩
      else if 0 ≤ precision - 1 then
        final (printfmtS fuel (p + 1#32) (precision - 1)) ⟨s.printed b, l ++ [.byte p]⟩
      else ⟨s, l ++ [.byte p]⟩ := by
  rw [final, printfmtS, run_bind_ok (tell_run _), run_bind_ok (lift_ok (kloadByte_run h))]
  by_cases hb : b = 0#8
  · rw [if_pos hb, if_pos hb]
    rfl
  rw [if_neg hb, if_neg hb]
  by_cases hp : precision < 0
  · rw [if_pos hp, if_pos hp]
    rfl
  rw [if_neg hp, if_neg hp]
  by_cases hp1 : 0 ≤ precision - 1
  · rw [if_pos hp1, if_pos hp1]
    rfl
  · rw [if_neg hp1, if_neg hp1]
    rfl

theorem printfmtS_fault (h : s.kbyte p = none) :
    final (printfmtS (fuel + 1) p precision) ⟨s, l⟩ = ⟨s, l ++ [.byte p]⟩ := by
  obtain ⟨x, hrun⟩ := kloadByte_fault h
  rw [final, printfmtS, run_bind_ok (tell_run _), run_bind_error (lift_error hrun)]

/-- What was noted stays. -/
theorem printfmtS_grows (fuel : Nat) (p : Word) (precision : Int) (s : Kernel) (l : List Access) :
    l ⊆ (final (printfmtS fuel p precision) ⟨s, l⟩).trace := by
  induction fuel generalizing p precision s l with
  | zero => exact List.Subset.refl l
  | succ fuel ih =>
    have hl : l ⊆ l ++ [.byte p] := List.subset_append_left l _
    cases hb : s.kbyte p with
    | none =>
      rw [printfmtS_fault hb]
      exact hl
    | some b =>
      rw [printfmtS_read hb]
      split
      · exact hl
      split
      · exact List.Subset.trans hl (ih _ _ _ _)
      split
      · exact List.Subset.trans hl (ih _ _ _ _)
      · exact hl

theorem printfmtS_first :
    Access.byte p ∈ (final (printfmtS (fuel + 1) p precision) ⟨s, l⟩).trace := by
  have hmem : Access.byte p ∈ l ++ [.byte p] := List.mem_append_right l (List.mem_singleton_self _)
  cases hb : s.kbyte p with
  | none =>
    rw [printfmtS_fault hb]
    exact hmem
  | some b =>
    rw [printfmtS_read hb]
    split
    · exact hmem
    split
    · exact printfmtS_grows _ _ _ _ _ hmem
    split
    · exact printfmtS_grows _ _ _ _ _ hmem
    · exact hmem

/-! ## The loop -/

theorem toNat_next (h : p.toNat + 1 < 2 ^ 32) : (p + 1#32).toNat = p.toNat + 1 := by
  rw [BitVec.toNat_add]
  exact Nat.mod_eq_of_lt h

theorem within_of_read (i : Nat) (h : Access.byte va ∈ l ++ [.byte p]) :
    Access.byte va ∈ l ∨ p.toNat ≤ va.toNat ∧ va.toNat ≤ p.toNat + i := by
  rcases List.mem_append.1 h with h | h
  · exact Or.inl h
  · obtain rfl : va = p := by simpa using h
    exact Or.inr ⟨Nat.le_refl _, Nat.le_add_right _ _⟩

/-- A NUL `i` bytes on: nothing after it is read. -/
theorem printfmtS_within {i : Nat} (hi : p.toNat + i < 2 ^ 32)
    (hnul : s.kbyte (BitVec.ofNat 32 (p.toNat + i)) = some 0#8) (hva : Access.byte va ∈
      (final (printfmtS fuel p precision) ⟨s, l⟩).trace) :
    Access.byte va ∈ l ∨ p.toNat ≤ va.toNat ∧ va.toNat ≤ p.toNat + i := by
  induction i generalizing p precision s l fuel with
  | zero =>
    cases fuel with
    | zero => exact Or.inl hva
    | succ fuel =>
      rw [Nat.add_zero, BitVec.ofNat_toNat, BitVec.setWidth_eq] at hnul
      rw [printfmtS_read hnul, if_pos rfl] at hva
      exact within_of_read _ hva
  | succ i ih =>
    cases fuel with
    | zero => exact Or.inl hva
    | succ fuel =>
      cases hb : s.kbyte p with
      | none =>
        rw [printfmtS_fault hb] at hva
        exact within_of_read _ hva
      | some b =>
        have hnext := toNat_next (p := p) (by omega)
        have hnul' : (s.printed b).kbyte (BitVec.ofNat 32 ((p + 1#32).toNat + i)) = some 0#8 := by
          rw [hnext, Nat.add_right_comm, Nat.add_assoc]
          exact hnul
        -- the rest of the loop starts at the next byte
        have hrest : ∀ precision', Access.byte va ∈ (final (printfmtS fuel (p + 1#32) precision')
            ⟨s.printed b, l ++ [.byte p]⟩).trace →
            Access.byte va ∈ l ∨ p.toNat ≤ va.toNat ∧ va.toNat ≤ p.toNat + (i + 1) := by
          intro precision' h
          rcases ih (by omega) hnul' h with h | ⟨hlo, hhi⟩
          · exact within_of_read _ h
          · exact Or.inr ⟨by omega, by omega⟩
        rw [printfmtS_read hb] at hva
        split at hva
        · exact within_of_read _ hva
        split at hva
        · exact hrest _ hva
        split at hva
        · exact hrest _ hva
        · exact within_of_read _ hva

/-- No NUL in the first `n` bytes: the next one is read. -/
theorem printfmtS_past {n : Nat} (hn : p.toNat + n < 2 ^ 32)
    (hall : ∀ j < n, ∃ b, s.kbyte (BitVec.ofNat 32 (p.toNat + j)) = some b ∧ b ≠ 0#8)
    (hprec : precision < 0 ∨ (n : Int) ≤ precision) (hfuel : n < fuel) :
    Access.byte (BitVec.ofNat 32 (p.toNat + n)) ∈
      (final (printfmtS fuel p precision) ⟨s, l⟩).trace := by
  induction n generalizing p precision s l fuel with
  | zero =>
    obtain ⟨fuel, rfl⟩ := Nat.exists_eq_succ_of_ne_zero (Nat.ne_of_gt hfuel)
    rw [Nat.add_zero, BitVec.ofNat_toNat, BitVec.setWidth_eq]
    exact printfmtS_first
  | succ n ih =>
    obtain ⟨fuel, rfl⟩ := Nat.exists_eq_succ_of_ne_zero (Nat.ne_of_gt (Nat.zero_lt_of_lt hfuel))
    obtain ⟨b, hb, hne⟩ := hall 0 (Nat.succ_pos n)
    rw [Nat.add_zero, BitVec.ofNat_toNat, BitVec.setWidth_eq] at hb
    have hnext := toNat_next (p := p) (by omega)
    have hshift : ∀ j, (p + 1#32).toNat + j = p.toNat + (j + 1) := fun j => by omega
    have hrest : ∀ precision', (precision' < 0 ∨ (n : Int) ≤ precision') →
        Access.byte (BitVec.ofNat 32 (p.toNat + (n + 1))) ∈
          (final (printfmtS fuel (p + 1#32) precision') ⟨s.printed b, l ++ [.byte p]⟩).trace := by
      intro precision' hp
      rw [← hshift]
      refine ih (by omega) (fun j hj => ?_) hp (by omega)
      rw [hshift]
      exact hall (j + 1) (by omega)
    rw [printfmtS_read hb, if_neg hne]
    split
    · rename_i hneg
      exact hrest _ (Or.inl hneg)
    · rename_i hnn
      have hle := hprec.resolve_left hnn
      rw [if_pos (by omega)]
      exact hrest _ (Or.inr (by omega))

end Watch

/-! ## `sys_cputs` -/

/-- Printing the string reads bytes of `[p, p+len)` only. -/
def ReadsWithin (s : Kernel) (p len : Word) : Prop :=
  ∀ va, Access.byte va ∈ traceOf (Watch.cprintS p len) s →
    p.toNat ≤ va.toNat ∧ va.toNat < p.toNat + len.toNat

/-- One of the bytes of the string is zero. -/
def HasNul (s : Kernel) (p len : Word) : Prop :=
  ∃ i < len.toNat, s.kbyte (BitVec.ofNat 32 (p.toNat + i)) = some 0#8

theorem readsWithin_null (len : Word) : ReadsWithin s 0#32 len := by
  intro va hva
  exact absurd hva (List.not_mem_nil)

theorem readsWithin_of_hasNul (hle : p.toNat + len.toNat ≤ ulim.toNat) (h : HasNul s p len) :
    ReadsWithin s p len := by
  have hul := ulim_toNat
  intro va hva
  obtain ⟨i, hi, hnul⟩ := h
  rw [traceOf, Watch.cprintS] at hva
  by_cases hp : p = 0#32
  · rw [if_pos hp] at hva
    exact absurd hva List.not_mem_nil
  · rw [if_neg hp] at hva
    rcases Watch.printfmtS_within (by omega) hnul hva with h | ⟨hlo, hhi⟩
    · exact absurd h List.not_mem_nil
    · exact ⟨hlo, by omega⟩

/-- Where there is none, the byte after the range is read. -/
theorem not_readsWithin_of_nonzero (hp : p ≠ 0#32) (hlt : p.toNat + len.toNat < 2 ^ 32)
    (hall : ∀ j < len.toNat, ∃ b, s.kbyte (BitVec.ofNat 32 (p.toNat + j)) = some b ∧ b ≠ 0#8) :
    ¬ ReadsWithin s p len := by
  intro h
  have hprec : len.toInt < 0 ∨ (len.toNat : Int) ≤ len.toInt := by
    rw [BitVec.toInt_eq_toNat_cond]
    split
    · exact Or.inr (Int.le_refl _)
    · exact Or.inl (by omega)
  have hread := Watch.printfmtS_past (s := s) (l := []) hlt hall hprec len.isLt
  have hpast := h (BitVec.ofNat 32 (p.toNat + len.toNat)) (by
    rw [traceOf, Watch.cprintS, if_neg hp]
    exact hread)
  rw [BitVec.toNat_ofNat, Nat.mod_eq_of_lt hlt] at hpast
  exact absurd hpast.2 (Nat.lt_irrefl _)

/-- The check that comes first leaves everything but `user_mem_check_addr` as it was. -/
theorem kbyte_of_checked {r : Word} {s' : Kernel} {perm : Word}
    (hrun : (userMemCheck e p len perm).run s = .ok r s') (va : Word) :
    s'.kbyte va = s.kbyte va := by
  obtain ⟨a, o, rfl⟩ := ((userMemCheck_peek e p len perm).of_ok hrun).exists_eq
  rfl

/-- **How far `sys_cputs` reads.**  Once `user_mem_assert` has passed, `cprintf("%.*s", len, s)`
reads only inside the range that was checked if and only if the string is `NULL`, in which case the
kernel prints a text of its own, or there is a NUL in the range. -/
theorem readsWithin_iff (hd : (s.envs e).envPgdir = some d) (hcr3 : s.cr3 s.cpunum = d)
    (hle : p.toNat + len.toNat ≤ ulim.toNat) {s' : Kernel}
    (hcheck : (userMemCheck e p len (pteU ||| pteU)).run s = .ok 0#32 s') :
    ReadsWithin s' p len ↔ p = 0#32 ∨ HasNul s' p len := by
  have hul := ulim_toNat
  constructor
  · intro h
    by_contra hno
    simp only [not_or] at hno
    obtain ⟨hp, hnul⟩ := hno
    refine not_readsWithin_of_nonzero hp (by omega) (fun j hj => ?_) h
    have hg := (gateSound_of_le hd hle ⟨s', hcheck⟩ (p.toNat + j) (by omega) (by omega)).2
    obtain ⟨b, hb⟩ := kbyte_of_grants hcr3 hg
    rw [← kbyte_of_checked hcheck] at hb
    exact ⟨b, hb, fun h0 => hnul ⟨j, hj, h0 ▸ hb⟩⟩
  · rintro (rfl | h)
    · exact readsWithin_null len
    · exact readsWithin_of_hasNul hle h

/-! ## A string at the end of a page -/

/-- The last word of the page at `UTEXT`. -/
def lastWord (w : Word) : Kernel := twoMapped.store 0 1023 w

theorem lastWord_checked (w : Word) {p len : Word} (hp : pgnum p = pgnum utext)
    (hend : (roundUp (p + len) pgsize).toNat ≤ utext.toNat + 4096) :
    ∃ s', (userMemCheck 0 p len (pteU ||| pteU)).run (lastWord w) = .ok 0#32 s' := by
  have hu : utext.toNat = 2048 * 4096 := by decide
  have hutext : (lastWord w).Grants 1 (pteU ||| pteU ||| pteP) utext := by
    have hdir : (lastWord w).mem 1 = twoMapped.mem 1 := store_mem_ne _ _ _ _ (by decide)
    have htable : (lastWord w).mem 2 = twoMapped.mem 2 := store_mem_ne _ _ _ _ (by decide)
    refine (grants_iff utext).2 ⟨2, ?_, Nat.lt_succ_self 2, ?_⟩
    · rw [hdir]
      decide
    · rw [htable]
      decide
  rw [pgnum_eq, pgnum_eq, hu] at hp
  refine (userMemCheck_zero_iff (d := 1) rfl).2 fun k hk => ?_
  obtain rfl : k = 0 := by omega
  have hself : BitVec.ofNat 32 (p.toNat + 4096 * 0) = p := by simp
  rw [hself]
  refine ⟨?_, (grants_page ?_).2 hutext⟩
  · have hul := ulim_toNat
    show p.toNat ≤ ulim.toNat
    omega
  · rw [pgnum_eq, pgnum_eq, hu]
    omega

/-- `"AAAA"`. -/
def fourAs : Kernel := lastWord 0x41414141#32

/-- `"AA"`, a NUL and an `A`. -/
def twoAs : Kernel := lastWord 0x41004141#32

/-- Behind two other bytes there is a NUL, and no more than the four bytes is read. -/
theorem readsWithin_iff_twoAs : ∃ s',
    (userMemCheck 0 (utext + 4092#32) 4#32 (pteU ||| pteU)).run twoAs = .ok 0#32 s' ∧
      twoAs.kbyte (utext + 4092#32) = some 0x41#8 ∧ twoAs.kbyte (utext + 4093#32) = some 0x41#8 ∧
      twoAs.kbyte (utext + 4094#32) = some 0#8 ∧ ReadsWithin s' (utext + 4092#32) 4#32 := by
  have hfour : (roundUp (utext + 4092#32 + 4#32) pgsize).toNat ≤ utext.toNat + 4096 := by decide
  obtain ⟨s', hrun⟩ := lastWord_checked 0x41004141#32 (by decide) hfour
  have hnul : HasNul s' (utext + 4092#32) 4#32 :=
    ⟨2, by decide, (kbyte_of_checked hrun _).trans (by decide)⟩
  exact ⟨s', hrun, by decide, by decide, by decide,
    (readsWithin_iff (d := 1) rfl rfl (by decide) hrun).2 (Or.inr hnul)⟩

/-- **Four bytes at the end of a page.**  The check passes, and the byte after them is read, which
is in a page that is not mapped.  So is the first byte of a string of length zero. -/
theorem not_readsWithin :
    (∃ s', (userMemCheck 0 (utext + 4092#32) 4#32 (pteU ||| pteU)).run fourAs = .ok 0#32 s' ∧
      ¬ ReadsWithin s' (utext + 4092#32) 4#32) ∧
    fourAs.kbyte (utext + 4096#32) = none ∧
    ∃ s', (userMemCheck 0 utext 0#32 (pteU ||| pteU)).run fourAs = .ok 0#32 s' ∧
      ¬ ReadsWithin s' utext 0#32 := by
  have hfour : (roundUp (utext + 4092#32 + 4#32) pgsize).toNat ≤ utext.toNat + 4096 := by decide
  have hzero : (roundUp (utext + 0#32) pgsize).toNat ≤ utext.toNat + 4096 := by decide
  refine ⟨?_, by decide, ?_⟩
  · obtain ⟨s', hrun⟩ := lastWord_checked 0x41414141#32 (by decide) hfour
    refine ⟨s', hrun, not_readsWithin_of_nonzero (by decide) (by decide) fun j hj => ?_⟩
    rw [kbyte_of_checked hrun]
    have hj4 : j < 4 := hj
    exact ⟨0x41#8, by interval_cases j <;> decide, by decide⟩
  · obtain ⟨s', hrun⟩ := lastWord_checked 0x41414141#32 rfl hzero
    exact ⟨s', hrun, not_readsWithin_of_nonzero (by decide) (by decide) fun j hj =>
      absurd hj (Nat.not_lt_zero j)⟩

end Jos
