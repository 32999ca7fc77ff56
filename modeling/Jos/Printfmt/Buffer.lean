import Jos.Printfmt.Run

/-!
# `vsnprintf`

`vsnprintf` has its characters stored in a buffer, as long as there is room for them and for the NUL
after them, and counts them all.
-/

set_option autoImplicit false

namespace Jos

open Command

/-- Memory, with the `struct sprintbuf` of `vsnprintf`. -/
structure Sprintbuf where
  buf : Word
  ebuf : Word
  cnt : Word
  mem : Word → Byte

/-- `sprintputch`. -/
def sprintputch (ch : Word) (b : Sprintbuf) : Sprintbuf :=
  let b := { b with cnt := b.cnt + 1#32 }
  if b.buf < b.ebuf then
    { b with mem := Function.update b.mem b.buf (ch.setWidth 8), buf := b.buf + 1#32 }
  else b

/-- `vsnprintf`. -/
def vsnprintf (buf n : Word) (fmt : CString) (ap : VaList) : PrintM Sprintbuf Word := do
  modify fun b => { b with buf := buf, ebuf := buf + n - 1#32, cnt := 0#32 }
  if buf = 0#32 ∨ n.toInt < 1 then
    return -eInval
  vprintfmt sprintputch fmt ap
  modify fun b => { b with mem := Function.update b.mem b.buf 0#8 }
  return (← get).cnt

variable {buf n : Word} {mem : Word → Byte} {l out : List Word} {b : Sprintbuf}

/-- Where things stand when the characters `l` have been handed over; the buffer at `buf` has room
for `room` of them. -/
structure Stored (buf : Word) (room : Nat) (mem : Word → Byte) (l : List Word) (b : Sprintbuf) :
    Prop where
  limit : b.ebuf.toNat = buf.toNat + room
  next : b.buf.toNat = buf.toNat + min l.length room
  count : b.cnt = BitVec.ofNat 32 l.length
  stored : ∀ i (h : i < l.length) (a : Word), i < room → a.toNat = buf.toNat + i →
    b.mem a = l[i].setWidth 8
  kept : ∀ a : Word, a < buf ∨ b.buf ≤ a → b.mem a = mem a

/-- A character more. -/
theorem Stored.step {room : Nat} (h : Stored buf room mem l b) (ch : Word) :
    Stored buf room mem (l ++ [ch]) (sprintputch ch b) := by
  have hlimit := h.limit
  have hnext := h.next
  have hebuf := b.ebuf.isLt
  have hlen : (l ++ [ch]).length = l.length + 1 := List.length_append
  have hcount : b.cnt + 1#32 = BitVec.ofNat 32 (l ++ [ch]).length := by
    rw [h.count, hlen, BitVec.ofNat_add]
  rw [sprintputch]
  by_cases hroom : b.buf < b.ebuf
  · have hlt := BitVec.lt_def.1 hroom
    have hbuf : (b.buf + 1#32).toNat = b.buf.toNat + 1 := by
      rw [BitVec.toNat_add, BitVec.toNat_ofNat]
      omega
    rw [if_pos hroom]
    refine ⟨hlimit, ?_, hcount, fun i hi a hi' ha => ?_, fun a ha => ?_⟩
    · dsimp only
      rw [hbuf, hlen]
      omega
    · dsimp only
      by_cases hlast : i = l.length
      · subst hlast
        have haddr : a = b.buf := BitVec.eq_of_toNat_eq (by omega)
        rw [haddr, Function.update_self, List.getElem_concat_length rfl]
      · have hne : a ≠ b.buf := by
          rintro rfl
          omega
        have hi'' : i < l.length := by omega
        rw [Function.update_of_ne hne, List.getElem_append_left hi'']
        exact h.stored i hi'' a hi' ha
    · dsimp only at ha ⊢
      rw [BitVec.lt_def, BitVec.le_def, hbuf] at ha
      have hne : a ≠ b.buf := by
        rintro rfl
        omega
      rw [Function.update_of_ne hne]
      refine h.kept a ?_
      rw [BitVec.lt_def, BitVec.le_def]
      omega
  · have hge := BitVec.not_lt.1 hroom
    rw [BitVec.le_def] at hge
    rw [if_neg hroom]
    refine ⟨hlimit, ?_, hcount, fun i hi a hi' ha => ?_, h.kept⟩
    · dsimp only
      rw [hlen]
      omega
    · have hi'' : i < l.length := by omega
      rw [List.getElem_append_left hi'']
      exact h.stored i hi'' a hi' ha

/-- **`vsnprintf`** stores as many of the characters as there is room for, and a NUL after them, and
nothing else; it returns how many characters there are. -/
theorem vsnprintf_run {fmt : CString} {ap : VaList} (hout : Generates fmt ap out)
    (hbuf : buf ≠ 0#32) (hn : 1 ≤ n.toInt) (hfits : buf.toNat + n.toNat ≤ 2 ^ 32) (b : Sprintbuf) :
    ∃ b', (vsnprintf buf n fmt ap).run b = .ok (BitVec.ofNat 32 out.length) b' ∧
      let len := min out.length (n.toNat - 1)
      (∀ i (h : i < out.length), i < len →
        b'.mem (buf + BitVec.ofNat 32 i) = out[i].setWidth 8) ∧
      b'.mem (buf + BitVec.ofNat 32 len) = 0#8 ∧
      ∀ a : Word, a.toNat < buf.toNat ∨ buf.toNat + len < a.toNat → b'.mem a = b.mem a := by
  have hpos : 1 ≤ n.toNat := by
    by_contra hzero
    have hn0 : n = 0#32 := BitVec.eq_of_toNat_eq (by rw [BitVec.toNat_ofNat]; omega)
    rw [hn0] at hn
    exact absurd hn (by decide)
  have hlimit : (buf + n - 1#32).toNat = buf.toNat + (n.toNat - 1) := by
    have := buf.isLt
    rw [BitVec.toNat_sub, BitVec.toNat_add, BitVec.toNat_ofNat]
    omega
  have hstored := puts_induction (P := Stored buf (n.toNat - 1) b.mem) sprintputch
    { b with buf := buf, ebuf := buf + n - 1#32, cnt := 0#32 }
    ⟨hlimit, by simp, rfl, fun i h => absurd h (Nat.not_lt_zero i), fun _ _ => rfl⟩
    (fun l ch b h => h.step ch) out
  have hrun := hout.run sprintputch { b with buf := buf, ebuf := buf + n - 1#32, cnt := 0#32 }
  generalize puts sprintputch out { b with buf := buf, ebuf := buf + n - 1#32, cnt := 0#32 } = b₁
    at hrun hstored
  have hnext := hstored.next
  have haddr : ∀ i, i ≤ min out.length (n.toNat - 1) →
      (buf + BitVec.ofNat 32 i).toNat = buf.toNat + i := by
    intro i hi
    rw [BitVec.toNat_add, BitVec.toNat_ofNat]
    omega
  refine ⟨{ b₁ with mem := Function.update b₁.mem b₁.buf 0#8 }, ?_, fun i h hi => ?_, ?_,
    fun a ha => ?_⟩
  · have hcond : ¬ (buf = 0#32 ∨ n.toInt < 1) := fun hor => hor.elim hbuf (by omega)
    rw [vsnprintf, run_bind_ok (EStateM.run_modify ..), if_neg hcond]
    rw [run_bind_ok hrun, run_bind_ok (EStateM.run_modify ..), ← hstored.count]
    rfl
  · have hne : buf + BitVec.ofNat 32 i ≠ b₁.buf := by
      intro heq
      have := haddr i (Nat.le_of_lt hi)
      rw [heq] at this
      omega
    dsimp only
    rw [Function.update_of_ne hne]
    exact hstored.stored i h _ (by omega) (haddr i (Nat.le_of_lt hi))
  · have heq : buf + BitVec.ofNat 32 (min out.length (n.toNat - 1)) = b₁.buf :=
      BitVec.eq_of_toNat_eq ((haddr _ (Nat.le_refl _)).trans hnext.symm)
    dsimp only
    rw [heq, Function.update_self]
  · have hne : a ≠ b₁.buf := by
      rintro rfl
      omega
    dsimp only
    rw [Function.update_of_ne hne]
    refine hstored.kept a ?_
    rw [BitVec.lt_def, BitVec.le_def]
    omega

/-- `"%d"` of `123` is cut in a buffer of three bytes. -/
theorem vsnprintf_run_short :
    let fmt : CString := ⟨ascii "%d", by decide⟩
    let ap : VaList := ⟨fun _ => 123#32, fun _ => nullText⟩
    let out := chars (ascii "123")
    let b : Sprintbuf := ⟨0#32, 0#32, 0#32, fun _ => 0xff#8⟩
    ∃ b', (vsnprintf 0x1000#32 3#32 fmt ap).run b = .ok 3#32 b' ∧
      (∀ i (h : i < out.length), i < 2 →
        b'.mem (0x1000#32 + BitVec.ofNat 32 i) = out[i].setWidth 8) ∧
      b'.mem 0x1002#32 = 0#8 ∧
      ∀ a : Word, a.toNat < 0x1000 ∨ 0x1002 < a.toNat → b'.mem a = b.mem a := by
  have hout : Generates ⟨ascii "%d", by decide⟩ ⟨fun _ => 123#32, fun _ => nullText⟩
      (chars (ascii "123")) := by rfl
  intro fmt ap out b
  exact vsnprintf_run hout (by decide) (by decide) (by decide) b

end Jos
