import Mathlib.Logic.Function.Basic
import Mathlib.Data.Nat.Notation

/-!
# A terminal without end

A terminal has rows of `w` cells, one below the other without end, and shows a window of `h` of
them.  What is printed goes to the cell under the cursor, which then moves on, and from the end of a
row to the next one.  When the cursor leaves the window at the bottom, the window moves down by a
row.  What has left the window stays as it was, and what has never been in it is blank.

A device has the window only.  `window` numbers its cells row by row, as such a device does, and
`offset` is the number of the cell under the cursor; the lemmas say what each operation does to
these two.
-/

set_option autoImplicit false

universe u

/-- Rows of `w` cells, the number of the first row in view, and the cursor. -/
structure Terminal (α : Type u) (w : ℕ) where
  cell : ℕ → Fin w → α
  top : ℕ
  row : ℕ
  col : Fin w

namespace Terminal

/-- What a terminal can be told to do. -/
inductive Op (α : Type u) where
  | print (x : α)
  /-- Go back by a cell, and leave `x` there. -/
  | erase (x : α)
  /-- Go to the start of the next row. -/
  | newline
  /-- Go to the start of the row. -/
  | ret

variable {α : Type u} {w h : ℕ}

def set (t : Terminal α w) (x : α) : Terminal α w :=
  { t with cell := Function.update t.cell t.row (Function.update (t.cell t.row) t.col x) }

def ret (t : Terminal α w) : Terminal α w := { t with col := ⟨0, t.col.pos⟩ }

def newline (t : Terminal α w) : Terminal α w :=
  { t with row := t.row + 1, col := ⟨0, t.col.pos⟩ }

def forward (t : Terminal α w) : Terminal α w :=
  if hc : t.col.val + 1 < w then { t with col := ⟨t.col.val + 1, hc⟩ } else t.newline

def back (t : Terminal α w) : Terminal α w :=
  if t.col.val = 0 then
    { t with row := t.row - 1, col := ⟨w - 1, Nat.sub_lt t.col.pos Nat.one_pos⟩ }
  else { t with col := ⟨t.col.val - 1, Nat.lt_of_le_of_lt (Nat.sub_le _ _) t.col.isLt⟩ }

/-- The window moves down if the cursor has left it. -/
def follow (h : ℕ) (t : Terminal α w) : Terminal α w :=
  if t.top + h ≤ t.row then { t with top := t.top + 1 } else t

/-- One operation, with a window of `h` rows. -/
def step (h : ℕ) (t : Terminal α w) : Op α → Terminal α w
  | .print x => (t.set x).forward.follow h
  | .erase x => if t.row = t.top ∧ t.col.val = 0 then t else t.back.set x
  | .newline => t.newline.follow h
  | .ret => t.ret

/-- The cells in view, row by row. -/
def window (t : Terminal α w) (i : ℕ) : α := t.cell (t.top + i / w) ⟨i % w, Nat.mod_lt _ t.col.pos⟩

/-- The place of the cursor in the window. -/
def offset (t : Terminal α w) : ℕ := (t.row - t.top) * w + t.col.val

/-- The cursor is in the window or just below it, and everything below the window is blank. -/
structure Ready (h : ℕ) (blank : α) (t : Terminal α w) : Prop where
  top_le : t.top ≤ t.row
  row_le : t.row ≤ t.top + h
  below : ∀ r c, t.top + h ≤ r → t.cell r c = blank

variable {t : Terminal α w} {x b : α} {op : Op α}

/-! ## Rows and columns -/

theorem cell_eq_iff {i r : ℕ} (c : Fin w) : (i / w = r ∧ i % w = c.val) ↔ i = r * w + c.val := by
  have hpos := c.pos
  constructor
  · rintro ⟨rfl, hc⟩
    rw [← hc, Nat.mul_comm]
    exact (Nat.div_add_mod i w).symm
  · rintro rfl
    rw [Nat.mul_comm, Nat.mul_add_div hpos, Nat.mul_add_mod, Nat.div_eq_of_lt c.isLt,
      Nat.mod_eq_of_lt c.isLt]
    exact ⟨Nat.add_zero _, rfl⟩

theorem offset_div (t : Terminal α w) : t.offset / w = t.row - t.top :=
  ((cell_eq_iff t.col).2 rfl).1

theorem offset_mod (t : Terminal α w) : t.offset % w = t.col.val := ((cell_eq_iff t.col).2 rfl).2

/-- The cursor is in the window if its place is. -/
theorem offset_lt_iff (ht : t.top ≤ t.row) : t.offset < h * w ↔ t.row < t.top + h := by
  rw [← Nat.div_lt_iff_lt_mul t.col.pos, offset_div]
  omega

theorem offset_eq_zero (ht : t.top ≤ t.row) : t.offset = 0 ↔ t.row = t.top ∧ t.col.val = 0 := by
  have hpos := t.col.pos
  rw [offset, Nat.add_eq_zero_iff, Nat.mul_eq_zero]
  omega

/-! ## Moving the cursor -/

theorem window_set (ht : t.top ≤ t.row) (x : α) :
    (t.set x).window = Function.update t.window t.offset x := by
  funext i
  show Function.update t.cell t.row (Function.update (t.cell t.row) t.col x) (t.top + i / w)
    ⟨i % w, _⟩ = _
  by_cases hi : i = t.offset
  · obtain ⟨hr, hc⟩ := (cell_eq_iff t.col).2 hi
    have hrow : t.top + i / w = t.row := by omega
    rw [hi, Function.update_self, ← hi, hrow, Function.update_self]
    exact (congrArg _ (Fin.ext hc)).trans (Function.update_self _ _ _)
  · rw [Function.update_of_ne hi, window]
    by_cases hrow : t.top + i / w = t.row
    · have hc : (⟨i % w, Nat.mod_lt _ t.col.pos⟩ : Fin w) ≠ t.col := by
        intro hc
        exact hi ((cell_eq_iff t.col).1 ⟨by omega, congrArg Fin.val hc⟩)
      rw [hrow, Function.update_self, Function.update_of_ne hc]
    · rw [Function.update_of_ne hrow]

theorem offset_ret (t : Terminal α w) : t.ret.offset = t.offset - t.offset % w := by
  rw [offset_mod]
  exact (Nat.add_sub_cancel _ _).symm

theorem offset_newline (ht : t.top ≤ t.row) :
    t.newline.offset = t.offset + w - (t.offset + w) % w := by
  rw [Nat.add_mod_right, offset_mod]
  show (t.row + 1 - t.top) * w + 0 = (t.row - t.top) * w + t.col.val + w - t.col.val
  rw [Nat.succ_sub ht, Nat.succ_mul]
  omega

theorem offset_forward (ht : t.top ≤ t.row) : t.forward.offset = t.offset + 1 := by
  rw [forward]
  split
  · rfl
  · next hc =>
    have hlt := t.col.isLt
    show (t.row + 1 - t.top) * w + 0 = (t.row - t.top) * w + t.col.val + 1
    rw [Nat.succ_sub ht, Nat.succ_mul]
    omega

theorem offset_back (ht : t.top ≤ t.row) (hne : ¬ (t.row = t.top ∧ t.col.val = 0)) :
    t.back.offset = t.offset - 1 := by
  have hpos := t.col.pos
  rw [back]
  split
  · next hc =>
    obtain ⟨n, hn⟩ : ∃ n, t.row - t.top = n + 1 := ⟨t.row - t.top - 1, by omega⟩
    have hn' : t.row - 1 - t.top = n := by omega
    show (t.row - 1 - t.top) * w + (w - 1) = (t.row - t.top) * w + t.col.val - 1
    rw [hc, hn, hn', Nat.succ_mul]
    omega
  · show (t.row - t.top) * w + (t.col.val - 1) = (t.row - t.top) * w + t.col.val - 1
    omega

theorem window_forward (t : Terminal α w) : t.forward.window = t.window := by
  rw [forward]
  split <;> rfl

theorem window_back (t : Terminal α w) : t.back.window = t.window := by
  rw [back]
  split <;> rfl

/-! ## Moving the window -/

/-- As long as the cursor is in the window, that stays. -/
theorem follow_of_lt (ht : t.top ≤ t.row) (hlt : t.offset < h * w) : t.follow h = t :=
  if_neg (Nat.not_le.2 ((offset_lt_iff ht).1 hlt))

/-- From the row below the window it moves down by a row, and that row is blank. -/
theorem Ready.follow_of_le (ht : t.Ready (h + 1) b) (hle : (h + 1) * w ≤ t.offset) :
    (t.follow (h + 1)).offset = t.offset - w ∧
      ∀ i, (t.follow (h + 1)).window i = if i < h * w then t.window (i + w) else b := by
  have hpos := t.col.pos
  have hge : t.top + (h + 1) ≤ t.row :=
    Nat.not_lt.1 fun hlt => Nat.not_lt.2 hle ((offset_lt_iff ht.top_le).2 hlt)
  have hrow : t.row - t.top = h + 1 := by
    have := ht.row_le
    omega
  rw [follow, if_pos hge]
  refine ⟨?_, fun i => ?_⟩
  · show (t.row - (t.top + 1)) * w + t.col.val = (t.row - t.top) * w + t.col.val - w
    rw [Nat.sub_add_eq, hrow, Nat.add_sub_cancel, Nat.succ_mul]
    omega
  · split
    · show t.cell (t.top + 1 + i / w) _ = t.cell (t.top + (i + w) / w) _
      rw [Nat.add_div_right i hpos]
      congr 1
      · omega
      · exact Fin.ext (Nat.add_mod_right i w).symm
    · next hi =>
      have hdiv : h ≤ i / w := (Nat.le_div_iff_mul_le hpos).2 (Nat.not_lt.1 hi)
      have hbelow : t.top + (h + 1) ≤ t.top + 1 + i / w := by omega
      exact ht.below _ _ hbelow

/-! ## Steps -/

theorem Ready.set (ht : t.Ready h b) (hlt : t.row < t.top + h) (x : α) : (t.set x).Ready h b where
  top_le := ht.top_le
  row_le := ht.row_le
  below r c hr := by
    have hne : r ≠ t.row := by
      rintro rfl
      exact absurd hr (Nat.not_le.2 hlt)
    show Function.update t.cell t.row _ r c = b
    rw [Function.update_of_ne hne]
    exact ht.below r c hr

theorem Ready.newline (ht : t.Ready h b) (hlt : t.row < t.top + h) : t.newline.Ready h b :=
  ⟨Nat.le_succ_of_le ht.top_le, hlt, ht.below⟩

theorem Ready.ret (ht : t.Ready h b) : t.ret.Ready h b := ⟨ht.top_le, ht.row_le, ht.below⟩

theorem Ready.forward (ht : t.Ready h b) (hlt : t.row < t.top + h) : t.forward.Ready h b := by
  rw [Terminal.forward]
  split
  · exact ⟨ht.top_le, ht.row_le, ht.below⟩
  · exact ht.newline hlt

theorem Ready.back (ht : t.Ready h b) (hne : ¬ (t.row = t.top ∧ t.col.val = 0)) :
    t.back.Ready h b := by
  have htop := ht.top_le
  have hrow := ht.row_le
  rw [Terminal.back]
  split
  · exact ⟨show t.top ≤ t.row - 1 by omega, show t.row - 1 ≤ t.top + h by omega, ht.below⟩
  · exact ⟨htop, hrow, ht.below⟩

/-- The cursor is at most one row below the window. -/
theorem Ready.offset_lt (ht : t.Ready h b) : t.offset < (h + 1) * w :=
  (offset_lt_iff ht.top_le).2 (Nat.lt_succ_of_le ht.row_le)

theorem Ready.follow (ht : t.Ready (h + 1) b) : (t.follow (h + 1)).Ready (h + 1) b := by
  have htop := ht.top_le
  have hrow := ht.row_le
  rw [Terminal.follow]
  split
  · refine ⟨show t.top + 1 ≤ t.row by omega, show t.row ≤ t.top + 1 + (h + 1) by omega, ?_⟩
    exact fun r c hr => ht.below r c (by have : t.top + 1 + (h + 1) ≤ r := hr; omega)
  · exact ht

/-- One row is enough. -/
theorem Ready.follow_lt (ht : t.Ready (h + 1) b) : (t.follow (h + 1)).offset < (h + 1) * w := by
  rcases Nat.lt_or_ge t.offset ((h + 1) * w) with hlt | hle
  · rwa [follow_of_lt ht.top_le hlt]
  · have hoff := ht.offset_lt
    have hpos : 0 < (h + 1) * w := Nat.mul_pos (Nat.succ_pos h) t.col.pos
    rw [Nat.succ_mul] at hoff
    rw [(ht.follow_of_le hle).1]
    omega

/-- **Every operation** leaves the cursor in the window. -/
theorem Ready.step (ht : t.Ready (h + 1) b) (hlt : t.offset < (h + 1) * w) (op : Op α) :
    (t.step (h + 1) op).Ready (h + 1) b ∧ (t.step (h + 1) op).offset < (h + 1) * w := by
  have hrow := (offset_lt_iff ht.top_le).1 hlt
  cases op with
  | print x =>
    have hforward : (t.set x).forward.Ready (h + 1) b := (ht.set hrow x).forward hrow
    exact ⟨hforward.follow, hforward.follow_lt⟩
  | erase x =>
    rw [Terminal.step]
    split
    · exact ⟨ht, hlt⟩
    · next hne =>
      have hback := ht.back hne
      have hoff : t.back.offset < (h + 1) * w := by
        rw [offset_back ht.top_le hne]
        omega
      exact ⟨hback.set ((offset_lt_iff hback.top_le).1 hoff) x, hoff⟩
  | newline => exact ⟨(ht.newline hrow).follow, (ht.newline hrow).follow_lt⟩
  | ret =>
    refine ⟨ht.ret, ?_⟩
    rw [Terminal.step, offset_ret]
    omega

end Terminal
