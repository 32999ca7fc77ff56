import Jos.Memmove
import Jos.State
import Jos.Lib.Terminal
import Jos.Lib.Trace

/-!
# The screen

`cga_putc` of `kern/console.c`.  The display adapter has 25 rows of 80 cells, in memory that the
kernel writes to through `crt_buf`; `crt_pos` is the number of the cell under the cursor.  At the
end of the screen everything is moved up by a row.

What the adapter shows is the window of a terminal without end (`cgaPutc_refines`): it is as if
nothing were ever moved, and the screen went down.
-/

set_option autoImplicit false

namespace Jos

open ByteMem Command Traced

/-! ## The code -/

def crtRows : Nat := 25
def crtCols : Nat := 80
def crtSize : Nat := crtRows * crtCols

/-- `0x0700 | ' '`. -/
def crtBlank : BitVec 16 := 0x0720#16

/-- The adapter that `cga_init` has found. -/
inductive Adapter where
  | cga
  | mono

/-- `CGA_BUF` and `MONO_BUF`, where the kernel maps them. -/
def Adapter.crtBuf : Adapter → Word
  | cga => kernbase + 0xB8000#32
  | mono => kernbase + 0xB0000#32

/-- `CGA_BASE` and `MONO_BASE`. -/
def Adapter.addr6845 : Adapter → Word
  | cga => 0x3D4#32
  | mono => 0x3B4#32

/-- The static variables, and memory. -/
structure Cga where
  adapter : Adapter
  crtPos : BitVec 16
  mem : ByteMem

/-- What `cons_putc` does to devices. -/
inductive CgaNote where
  /-- The cells `i` to `i + n - 1` of `crt_buf` are written. -/
  | write (i n : Nat)
  | outb (port : Word) (data : Byte)
  /-- `serial_putc`. -/
  | serial (c : Word)
  /-- `lpt_putc`. -/
  | lpt (c : Word)

abbrev CgaM := EStateM Exit (Traced Cga CgaNote)

namespace Cga

/-- `&crt_buf[i]`. -/
def addr (s : Cga) (i : Nat) : Word := s.adapter.crtBuf + BitVec.ofNat 32 (2 * i)

/-- `crt_buf[i]`. -/
def cell (s : Cga) (i : Nat) : BitVec 16 := s.mem.half (s.addr i)

/-- `crt_buf[i]` has been set to `w`. -/
def put (s : Cga) (i : Nat) (w : BitVec 16) : Cga := { s with mem := s.mem.storeHalf (s.addr i) w }

/-- The call of `memmove`, by a row of cells. -/
def moveUp (s : Cga) : Cga :=
  { s with
    mem := (memmoveAsm s.mem (s.addr 0) (s.addr crtCols)
      (BitVec.ofNat 32 (2 * (crtSize - crtCols)))).mem }

end Cga

def setCrtPos (pos : BitVec 16) : CgaM Unit := lift (modify fun s => { s with crtPos := pos })

def setCell (i : Nat) (w : BitVec 16) : CgaM Unit := do
  tell (.write i 1)
  lift (modify fun s => s.put i w)

/-- `if (!(c & ~0xFF)) c |= 0x0700;` -/
def attributed (c : Word) : Word := if c &&& ~~~0xff#32 = 0#32 then c ||| 0x0700#32 else c

theorem attributed_low (c : Word) : attributed c &&& 0xff#32 = c &&& 0xff#32 := by
  rw [attributed]
  split
  · rw [BitVec.and_or_distrib_right]
    exact BitVec.or_zero
  · rfl

/-- `case '\b'`. -/
def eraseCell (c : Word) : CgaM Unit := do
  let pos := (← lift get).crtPos
  if 0#16 < pos then
    setCrtPos (pos - 1#16)
    setCell (pos - 1#16).toNat ((c &&& ~~~0xff#32 ||| 0x20#32).setWidth 16)

/-- `case '\r'`. -/
def carriageReturn : CgaM Unit := do
  let pos := (← lift get).crtPos
  setCrtPos (pos - pos % BitVec.ofNat 16 crtCols)

/-- `case '\n'`, which falls through. -/
def newline : CgaM Unit := do
  let pos := (← lift get).crtPos
  setCrtPos (pos + BitVec.ofNat 16 crtCols)
  carriageReturn

/-- `default`. -/
def writeChar (c : Word) : CgaM Unit := do
  let pos := (← lift get).crtPos
  setCrtPos (pos + 1#16)
  setCell pos.toNat (c.setWidth 16)

/-- `for (i = CRT_SIZE - CRT_COLS; i < CRT_SIZE; i++)`. -/
def lastRow : List Nat := List.range' (crtSize - crtCols) crtCols

/-- The end of `cga_putc`: everything is moved up when the cursor has left the screen. -/
def scroll : CgaM Unit := do
  let pos := (← lift get).crtPos
  if crtSize ≤ pos.toNat then
    tell (.write 0 (crtSize - crtCols))
    lift (modify Cga.moveUp)
    lastRow.forM fun i => setCell i crtBlank
    setCrtPos (pos - BitVec.ofNat 16 crtCols)

/-- "move that little blinky thing" -/
def moveCursor : CgaM Unit := do
  let s ← lift get
  tell (.outb s.adapter.addr6845 14#8)
  tell (.outb (s.adapter.addr6845 + 1#32) ((s.crtPos >>> 8).setWidth 8))
  tell (.outb s.adapter.addr6845 15#8)
  tell (.outb (s.adapter.addr6845 + 1#32) (s.crtPos.setWidth 8))

/-- Only for a tab does `cga_putc` call `cons_putc`, and what it passes on is no tab. -/
def tabs (c : Word) : Nat := if c &&& 0xff#32 = 0x09#32 then 1 else 0

mutual

/-- The `switch` of `cga_putc`. -/
def cgaSwitch (c : Word) : CgaM Unit :=
  if c &&& 0xff#32 = 0x08#32 then eraseCell c
  else if c &&& 0xff#32 = 0x0a#32 then newline
  else if c &&& 0xff#32 = 0x0d#32 then carriageReturn
  else if c &&& 0xff#32 = 0x09#32 then do
    consPutc 0x20#32
    consPutc 0x20#32
    consPutc 0x20#32
    consPutc 0x20#32
    consPutc 0x20#32
  else writeChar c
termination_by 3 * tabs c
decreasing_by all_goals simp [tabs, *]

/-- `cga_putc`. -/
def cgaPutc (c : Word) : CgaM Unit := do
  cgaSwitch (attributed c)
  scroll
  moveCursor
termination_by 3 * tabs c + 1
decreasing_by
  rw [tabs, attributed_low]
  exact Nat.lt_succ_self _

/-- `cons_putc`. -/
def consPutc (c : Word) : CgaM Unit := do
  tell (.serial c)
  tell (.lpt c)
  cgaPutc c
termination_by 3 * tabs c + 2
decreasing_by exact Nat.lt_succ_self _

end

/-! ## What is on the screen -/

variable {s s₀ : Cga} {pos q : BitVec 16} {f g : Nat → BitVec 16} {P Q R : Cga → Prop}

namespace Cga

/-- Such a state as `s₀`, but for the cursor, which is at `pos`, and the screen, which shows `f`. -/
structure Draws (s₀ : Cga) (pos : BitVec 16) (f : Nat → BitVec 16) (s : Cga) : Prop where
  adapter : s.adapter = s₀.adapter
  crtPos : s.crtPos = pos
  cell : ∀ i < crtSize, s.cell i = f i
  rest : ∀ b, ¬ Within (s₀.addr 0) (2 * crtSize) b → s.mem b = s₀.mem b

theorem addr_apart (s : Cga) {i j : Nat} (hi : i < crtSize) (hj : j < crtSize) (hne : i ≠ j) :
    Apart (s.addr i) 2 (s.addr j) 2 := by
  have hsize : crtSize = 2000 := rfl
  rcases Nat.lt_or_gt_of_ne hne with hlt | hlt
  · exact apart_add (by omega) (by omega)
  · exact (apart_add (by omega) (by omega)).symm

theorem cell_put (s : Cga) {i j : Nat} (hi : i < crtSize) (hj : j < crtSize) (w : BitVec 16) :
    (s.put i w).cell j = Function.update s.cell i w j := by
  by_cases hji : j = i
  · subst hji
    rw [Function.update_self]
    exact half_storeHalf_self _ _ _
  · rw [Function.update_of_ne hji]
    exact half_storeHalf_apart (s.addr_apart hi hj (Ne.symm hji))

/-- A cell is part of the screen. -/
theorem within_screen (s : Cga) {i n : Nat} {b : Word} (hi : i + n ≤ crtSize)
    (hb : Within (s.addr i) (2 * n) b) : Within (s.addr 0) (2 * crtSize) b := by
  have h0 : s.addr 0 = s.adapter.crtBuf := BitVec.add_zero _
  rw [h0]
  exact hb.of_add (by omega)

theorem Draws.put (h : s₀.Draws pos f s) {i : Nat} (hi : i < crtSize) (w : BitVec 16) :
    s₀.Draws pos (Function.update f i w) (s.put i w) where
  adapter := h.adapter
  crtPos := h.crtPos
  cell j hj := by
    rw [cell_put s hi hj]
    by_cases hji : j = i
    · rw [hji, Function.update_self, Function.update_self]
    · rw [Function.update_of_ne hji, Function.update_of_ne hji, h.cell j hj]
  rest b hb := by
    refine (storeHalf_apart fun hw => hb ?_).trans (h.rest b hb)
    have hsame : s.addr i = s₀.addr i := congrArg (·.crtBuf + _) h.adapter
    rw [hsame] at hw
    exact s₀.within_screen (n := 1) hi hw

/-- The screen ends where the address space does not. -/
theorem addr_fits (s : Cga) {i : Nat} (hi : i ≤ crtSize) :
    (s.addr i).toNat + 2 * (crtSize - i) ≤ 2 ^ 32 := by
  have hsize : crtSize = 2000 := rfl
  have hbuf : s.adapter.crtBuf.toNat ≤ 0xF00B8000 := by
    cases s.adapter <;> decide
  rw [addr, BitVec.toNat_add, BitVec.toNat_ofNat]
  omega

theorem Draws.moveUp (h : s₀.Draws pos f s) : s₀.Draws pos
    (fun i => if i < crtSize - crtCols then f (i + crtCols) else f i) s.moveUp := by
  have hsize : crtSize = 2000 := rfl
  have hcols : crtCols = 80 := rfl
  have hn : (BitVec.ofNat 32 (2 * (crtSize - crtCols))).toNat = 2 * (crtSize - crtCols) := rfl
  have hmoved : Moved s.mem s.moveUp.mem (s.addr 0) (s.addr crtCols)
      (2 * (crtSize - crtCols)) := by
    have hdst := s.addr_fits (Nat.zero_le crtSize)
    have hsrc := s.addr_fits (show crtCols ≤ crtSize by decide)
    rw [← hn]
    exact memmoveAsm_mem s.mem (by omega) (by omega)
  have haddr : ∀ i j, s.addr i + BitVec.ofNat 32 (2 * j) = s.addr (i + j) := by
    intro i j
    rw [addr, addr, BitVec.add_assoc, ← BitVec.ofNat_add, Nat.mul_add]
  refine ⟨h.adapter, h.crtPos, fun i hi => ?_, fun b hb => ?_⟩
  · show s.moveUp.mem.half (s.addr i) = _
    split
    · next hlt =>
      have hhalf := hmoved.half (k := 2 * i) (by omega)
      rw [haddr, haddr, Nat.zero_add, Nat.add_comm] at hhalf
      exact hhalf.trans (h.cell _ (by omega))
    · next hge =>
      refine (half_congr fun k hk => hmoved.rest _ fun hw => ?_).trans (h.cell i hi)
      have hapart : Apart (s.addr 0) (2 * (crtSize - crtCols)) (s.addr i) 2 :=
        apart_add (by omega) (by omega)
      exact hapart _ hw (within_iff.2 ⟨k, hk, rfl⟩)
  · refine (hmoved.rest b fun hw => hb ?_).trans (h.rest b hb)
    have hsame : s.addr 0 = s₀.addr 0 := congrArg (·.crtBuf + _) h.adapter
    rw [hsame] at hw
    exact s₀.within_screen (by omega) hw

theorem Draws.congr (h : s₀.Draws pos f s) (hfg : ∀ i < crtSize, f i = g i) : s₀.Draws pos g s :=
  ⟨h.adapter, h.crtPos, fun i hi => (h.cell i hi).trans (hfg i hi), h.rest⟩

end Cga

/-! ## What the code does to it -/

/-- The state satisfies `P`, and whatever has been written was on the screen. -/
def OnScreen (P : Cga → Prop) (g : Traced Cga CgaNote) : Prop :=
  P g.state ∧ ∀ i n, CgaNote.write i n ∈ g.trace → i + n ≤ crtSize

/-- Started in `P`, the command ends in `Q`, and writes to the screen only. -/
def Paints (P : Cga → Prop) (m : CgaM Unit) (Q : Cga → Prop) : Prop :=
  Triple (OnScreen P) m (fun _ => OnScreen Q) fun _ _ => False

namespace Paints

variable {m k : CgaM Unit}

theorem skip : Paints P (pure ()) P := Triple.pure fun _ h => h

theorem bind (h : Paints P m Q) (h' : Paints Q k R) : Paints P (do m; k) R :=
  Triple.bind h fun _ => h'

theorem read {f : Cga → CgaM Unit} (h : ∀ s, P s → Paints P (f s) Q) :
    Paints P (lift get >>= f) Q := fun g hg => h g.state hg.1 g hg

theorem modify {f : Cga → Cga} (h : ∀ s, P s → Q (f s)) : Paints P (lift (modify f)) Q :=
  fun _ hg => ⟨h _ hg.1, hg.2⟩

theorem note {x : CgaNote} (hx : ∀ i n, x = .write i n → i + n ≤ crtSize) :
    Paints P (tell x) P := by
  rintro g ⟨hp, hg⟩
  refine ⟨hp, fun i n hmem => ?_⟩
  rcases List.mem_append.1 hmem with hmem | hmem
  · exact hg i n hmem
  · exact hx i n (List.mem_singleton.1 hmem).symm

theorem post (h : Paints P m Q) (hQ : ∀ s, Q s → R s) : Paints P m R :=
  h.conseq (fun _ hg => hg) (fun _ _ hg => ⟨hQ _ hg.1, hg.2⟩) fun _ _ he => he

end Paints

theorem setCrtPos_paints : Paints (s₀.Draws pos f) (setCrtPos q) (s₀.Draws q f) :=
  .modify fun _ h => ⟨h.adapter, rfl, h.cell, h.rest⟩

theorem setCell_paints {i : Nat} (hi : i < crtSize) (w : BitVec 16) :
    Paints (s₀.Draws pos f) (setCell i w) (s₀.Draws pos (Function.update f i w)) := by
  refine .bind (.note ?_) (.modify fun _ h => h.put hi w)
  rintro _ _ ⟨rfl, rfl⟩
  exact hi

theorem setCells_paints {l : List Nat} (hl : ∀ i ∈ l, i < crtSize) (w : BitVec 16) :
    Paints (s₀.Draws pos f) (l.forM fun i => setCell i w)
      (s₀.Draws pos fun i => if i ∈ l then w else f i) := by
  have hstep : ∀ pre i post, l = pre ++ i :: post →
      Paints (s₀.Draws pos fun j => if j ∈ pre then w else f j) (setCell i w)
        (s₀.Draws pos fun j => if j ∈ pre ++ [i] then w else f j) := by
    rintro pre i post rfl
    have hi := hl i (List.mem_append_right _ List.mem_cons_self)
    refine (setCell_paints hi w).post fun s h => h.congr fun j _ => ?_
    by_cases hji : j = i
    · subst hji
      rw [Function.update_self, if_pos (List.mem_append_right _ List.mem_cons_self)]
    · rw [Function.update_of_ne hji]
      simp [hji]
  have hnone : ∀ j < crtSize, f j = if j ∈ [] then w else f j := fun j _ => by
    rw [if_neg List.not_mem_nil]
  exact (Triple.forM_prefix l hstep).conseq (fun _ hg => ⟨hg.1.congr hnone, hg.2⟩)
    (fun _ _ hg => hg) fun _ _ he => he

theorem mem_lastRow {i : Nat} : i ∈ lastRow ↔ crtSize - crtCols ≤ i ∧ i < crtSize :=
  List.mem_range'_1

theorem carriageReturn_paints : Paints (s₀.Draws pos f) carriageReturn
    (s₀.Draws (pos - pos % BitVec.ofNat 16 crtCols) f) := by
  refine .read fun s h => ?_
  rw [h.crtPos]
  exact setCrtPos_paints

-- so that nothing is tempted to run the loop
attribute [local irreducible] lastRow

/-- On the screen, nothing is moved. -/
theorem scroll_stay (hpos : pos.toNat < crtSize) :
    Paints (s₀.Draws pos f) scroll (s₀.Draws pos f) := by
  refine .read fun s h => ?_
  rw [h.crtPos, if_neg (Nat.not_le.2 hpos)]
  exact .skip

theorem scroll_move (hpos : crtSize ≤ pos.toNat) : Paints (s₀.Draws pos f) scroll
    (s₀.Draws (pos - BitVec.ofNat 16 crtCols)
      fun i => if i < crtSize - crtCols then f (i + crtCols) else crtBlank) := by
  have hnote : ∀ i n, CgaNote.write 0 (crtSize - crtCols) = .write i n → i + n ≤ crtSize := by
    intro i n heq
    obtain ⟨hi, hn⟩ := CgaNote.write.inj heq
    rw [← hi, ← hn, Nat.zero_add]
    exact Nat.sub_le _ _
  have hrow : ∀ i ∈ lastRow, i < crtSize := fun i hi => (mem_lastRow.1 hi).2
  refine .read fun s h => ?_
  rw [h.crtPos, if_pos hpos]
  refine .bind (.note hnote) (.bind (.modify fun _ h => h.moveUp) ?_)
  refine .bind (setCells_paints hrow crtBlank) ?_
  refine setCrtPos_paints.post fun s h => h.congr fun i hi => ?_
  by_cases hlt : i < crtSize - crtCols
  · have hmem : i ∉ lastRow := fun hmem => Nat.not_le.2 hlt (mem_lastRow.1 hmem).1
    rw [if_neg hmem, if_pos hlt, if_pos hlt]
  · rw [if_pos (mem_lastRow.2 ⟨Nat.not_lt.1 hlt, hi⟩), if_neg hlt]

theorem moveCursor_paints : Paints P moveCursor P :=
  .read fun _ _ => .bind (.note nofun) (.bind (.note nofun) (.bind (.note nofun) (.note nofun)))

/-! ## The terminal -/

abbrev Screen := Terminal (BitVec 16) crtCols

/-- What a backspace leaves. -/
def erased (c : Word) : BitVec 16 := (c &&& ~~~0xff#32 ||| 0x20#32).setWidth 16

/-- What a character other than a tab asks for. -/
def crtOp (c : Word) : Terminal.Op (BitVec 16) :=
  if c &&& 0xff#32 = 0x08#32 then .erase (erased (attributed c))
  else if c &&& 0xff#32 = 0x0a#32 then .newline
  else if c &&& 0xff#32 = 0x0d#32 then .ret
  else .print ((attributed c).setWidth 16)

/-- What a character asks for: a tab is five spaces. -/
def crtOps (c : Word) : List (Terminal.Op (BitVec 16)) :=
  if c &&& 0xff#32 = 0x09#32 then List.replicate 5 (.print crtBlank) else [crtOp c]

/-- The terminal with the screen as its window, and nothing above it. -/
def Cga.terminal (s : Cga) : Screen where
  cell r c := if r < crtRows then s.cell (r * crtCols + c.val) else crtBlank
  top := 0
  row := s.crtPos.toNat / crtCols
  col := ⟨s.crtPos.toNat % crtCols, Nat.mod_lt _ (by decide)⟩

/-- The screen is the window of the terminal. -/
structure Cga.Shows (s : Cga) (t : Screen) : Prop where
  crtPos : s.crtPos.toNat = t.offset
  cell : ∀ i < crtSize, s.cell i = t.window i

/-- The state `s₀`, but for the screen, which shows the window of `t`. -/
def Cga.Displays (s₀ : Cga) (t : Screen) : Cga → Prop :=
  s₀.Draws (BitVec.ofNat 16 t.offset) t.window

/-- The cursor is in the window, and everything below the window is blank. -/
def InView (t : Screen) : Prop := t.Ready crtRows crtBlank ∧ t.offset < crtSize

variable {t : Screen} {c : Word}

theorem offset_toNat (ht : t.Ready crtRows crtBlank) :
    (BitVec.ofNat 16 t.offset).toNat = t.offset := by
  have hoff : t.offset < (25 + 1) * 80 := ht.offset_lt
  rw [BitVec.toNat_ofNat]
  omega

theorem InView.row (h : InView t) : t.row < t.top + crtRows :=
  (Terminal.offset_lt_iff h.1.top_le).1 h.2

theorem InView.step (h : InView t) (op : Terminal.Op (BitVec 16)) : InView (t.step crtRows op) :=
  Terminal.Ready.step (h := 24) h.1 h.2 op

theorem ofNat_sub {a b : Nat} (h : b ≤ a) :
    BitVec.ofNat 16 a - BitVec.ofNat 16 b = BitVec.ofNat 16 (a - b) := by
  have hadd : BitVec.ofNat 16 a = BitVec.ofNat 16 (a - b) + BitVec.ofNat 16 b := by
    rw [← BitVec.ofNat_add, Nat.sub_add_cancel h]
  rw [hadd, BitVec.add_sub_cancel]

theorem ofNat_sub_mod {a : Nat} (h : a < 2 ^ 16) :
    BitVec.ofNat 16 a - BitVec.ofNat 16 a % BitVec.ofNat 16 crtCols =
      BitVec.ofNat 16 (a - a % crtCols) := by
  have hmod : BitVec.ofNat 16 a % BitVec.ofNat 16 crtCols = BitVec.ofNat 16 (a % crtCols) := by
    apply BitVec.eq_of_toNat_eq
    rw [BitVec.toNat_umod, BitVec.toNat_ofNat, BitVec.toNat_ofNat, BitVec.toNat_ofNat,
      Nat.mod_eq_of_lt h, Nat.mod_eq_of_lt (show crtCols < 2 ^ 16 by decide),
      Nat.mod_eq_of_lt (Nat.lt_of_le_of_lt (Nat.mod_le _ _) h)]
  rw [hmod, ofNat_sub (Nat.mod_le _ _)]

/-- The window goes down as the screen goes up. -/
theorem scroll_displays (ht : t.Ready crtRows crtBlank) :
    Paints (s₀.Displays t) scroll (s₀.Displays (t.follow crtRows)) := by
  have hoff := offset_toNat ht
  rcases Nat.lt_or_ge t.offset crtSize with hlt | hle
  · rw [Terminal.follow_of_lt ht.top_le hlt]
    exact scroll_stay (hoff.symm ▸ hlt)
  · obtain ⟨hfollow, hwin⟩ := Terminal.Ready.follow_of_le (h := 24) ht hle
    have hcols : crtCols ≤ t.offset := Nat.le_trans (by decide) hle
    have hpos : BitVec.ofNat 16 t.offset - BitVec.ofNat 16 crtCols =
        BitVec.ofNat 16 (t.follow crtRows).offset := by
      rw [ofNat_sub hcols]
      exact congrArg _ hfollow.symm
    have hmove : Paints (s₀.Displays t) scroll _ := scroll_move (hoff.symm ▸ hle)
    rw [hpos] at hmove
    exact hmove.post fun s h => h.congr fun i _ => (hwin i).symm

theorem carriageReturn_displays (ht : t.Ready crtRows crtBlank) :
    Paints (s₀.Displays t) carriageReturn (s₀.Displays t.ret) := by
  have hlt : t.offset < 2 ^ 16 := by
    have hoff : t.offset < (25 + 1) * 80 := ht.offset_lt
    omega
  have hcr : Paints (s₀.Draws (BitVec.ofNat 16 t.offset) t.window) carriageReturn _ :=
    carriageReturn_paints
  rw [ofNat_sub_mod hlt, ← t.offset_ret] at hcr
  exact hcr

theorem writeChar_displays (h : InView t) (c : Word) : Paints (s₀.Displays t) (writeChar c)
    (s₀.Displays (t.set (c.setWidth 16)).forward) := by
  refine .read fun s hs => ?_
  dsimp only
  rw [hs.crtPos, offset_toNat h.1]
  obtain ⟨x, hx⟩ : ∃ x, x = c.setWidth 16 := ⟨_, rfl⟩
  rw [← hx]
  have hset : (t.set x).window = Function.update t.window t.offset x := t.window_set h.1.top_le x
  have hforward : (t.set x).forward.offset = t.offset + 1 := (t.set x).offset_forward h.1.top_le
  rw [Cga.Displays, Cga.Displays, Terminal.window_forward, hset, hforward, BitVec.ofNat_add]
  exact .bind setCrtPos_paints (setCell_paints h.2 x)

theorem newline_displays (h : InView t) :
    Paints (s₀.Displays t) newline (s₀.Displays t.newline) := by
  refine .read fun s hs => ?_
  have hlt : t.offset + crtCols < 2 ^ 16 :=
    Nat.lt_of_lt_of_le (Nat.add_lt_add_right h.2 _) (by decide)
  have hcr : Paints (s₀.Draws (BitVec.ofNat 16 (t.offset + crtCols)) t.window) carriageReturn _ :=
    carriageReturn_paints
  rw [ofNat_sub_mod hlt, ← t.offset_newline h.1.top_le] at hcr
  dsimp only
  rw [hs.crtPos, ← BitVec.ofNat_add]
  exact .bind setCrtPos_paints hcr

theorem eraseCell_displays (h : InView t) (c : Word) : Paints (s₀.Displays t) (eraseCell c)
    (s₀.Displays (t.step crtRows (.erase (erased c)))) := by
  have hhome := Terminal.offset_eq_zero h.1.top_le
  refine .read fun s hs => ?_
  dsimp only
  rw [hs.crtPos, Terminal.step]
  have hpos : 0#16 < BitVec.ofNat 16 t.offset ↔ 0 < t.offset := by
    rw [BitVec.lt_def, offset_toNat h.1]
    rfl
  by_cases h0 : t.row = t.top ∧ t.col.val = 0
  · have hz := hhome.2 h0
    rw [if_pos h0, if_neg]
    · exact .skip
    · rw [hpos, hz]
      exact Nat.lt_irrefl 0
  · have hz : 0 < t.offset := Nat.pos_of_ne_zero (mt hhome.1 h0)
    have hback := t.offset_back h.1.top_le h0
    have hready := h.1.back h0
    have hset : (t.back.set (erased c)).window =
        Function.update t.window t.back.offset (erased c) := by
      rw [Terminal.window_set hready.top_le, Terminal.window_back]
    have hsub : BitVec.ofNat 16 t.offset - 1#16 = BitVec.ofNat 16 t.back.offset := by
      rw [hback]
      exact ofNat_sub hz
    have hlt : t.back.offset < crtSize := by
      rw [hback]
      exact Nat.lt_of_le_of_lt (Nat.sub_le _ _) h.2
    have hoffset : (t.back.set (erased c)).offset = t.back.offset := rfl
    rw [if_neg h0, if_pos (hpos.2 hz), hsub, offset_toNat hready, Cga.Displays, Cga.Displays, hset,
      hoffset]
    exact .bind setCrtPos_paints (setCell_paints hlt _)

/-- **A character other than a tab.** -/
theorem cgaPutc_plain (h : InView t) (hc : c &&& 0xff#32 ≠ 0x09#32) :
    Paints (s₀.Displays t) (cgaPutc c) (s₀.Displays (t.step crtRows (crtOp c))) := by
  have hrow := h.row
  rw [cgaPutc, cgaSwitch, attributed_low, crtOp]
  by_cases h8 : c &&& 0xff#32 = 0x08#32
  · have hstep := h.step (.erase (erased (attributed c)))
    have hstay : Paints (s₀.Displays _) scroll _ := scroll_displays hstep.1
    rw [Terminal.follow_of_lt hstep.1.top_le hstep.2] at hstay
    rw [if_pos h8, if_pos h8]
    exact .bind (eraseCell_displays h _) (.bind hstay moveCursor_paints)
  by_cases ha : c &&& 0xff#32 = 0x0a#32
  · have hmove : Paints (s₀.Displays _) scroll _ := scroll_displays (h.1.newline hrow)
    rw [if_neg h8, if_neg h8, if_pos ha, if_pos ha]
    exact .bind (newline_displays h) (.bind hmove moveCursor_paints)
  by_cases hd : c &&& 0xff#32 = 0x0d#32
  · have hstep := h.step .ret
    have hstay : Paints (s₀.Displays _) scroll _ := scroll_displays hstep.1
    rw [Terminal.follow_of_lt hstep.1.top_le hstep.2] at hstay
    rw [if_neg h8, if_neg h8, if_neg ha, if_neg ha, if_pos hd, if_pos hd]
    exact .bind (carriageReturn_displays h.1) (.bind hstay moveCursor_paints)
  · have hmove : Paints (s₀.Displays _) scroll _ :=
      scroll_displays ((h.1.set hrow ((attributed c).setWidth 16)).forward hrow)
    rw [if_neg h8, if_neg h8, if_neg ha, if_neg ha, if_neg hd, if_neg hd, if_neg hc]
    exact .bind (writeChar_displays h _) (.bind hmove moveCursor_paints)

/-- The space that a tab passes on. -/
theorem consPutc_space (h : InView t) : Paints (s₀.Displays t) (consPutc 0x20#32)
    (s₀.Displays (t.step crtRows (.print crtBlank))) := by
  have hplain : Paints (s₀.Displays t) (cgaPutc 0x20#32) _ := cgaPutc_plain h (by decide)
  rw [consPutc]
  exact .bind (.note nofun) (.bind (.note nofun) hplain)

/-- **Every character** does to the screen what it asks of the terminal. -/
theorem cgaPutc_displays (s₀ : Cga) (h : InView t) (c : Word) :
    InView ((crtOps c).foldl (·.step crtRows) t) ∧ Paints (s₀.Displays t) (cgaPutc c)
      (s₀.Displays ((crtOps c).foldl (·.step crtRows) t)) := by
  by_cases hc : c &&& 0xff#32 = 0x09#32
  · have h8 : ¬ c &&& 0xff#32 = 0x08#32 := by rw [hc]; decide
    have ha : ¬ c &&& 0xff#32 = 0x0a#32 := by rw [hc]; decide
    have hd : ¬ c &&& 0xff#32 = 0x0d#32 := by rw [hc]; decide
    have h₁ := h.step (.print crtBlank)
    have h₂ := h₁.step (.print crtBlank)
    have h₃ := h₂.step (.print crtBlank)
    have h₄ := h₃.step (.print crtBlank)
    have h₅ := h₄.step (.print crtBlank)
    have hstay : Paints (s₀.Displays _) scroll _ := scroll_displays h₅.1
    rw [Terminal.follow_of_lt h₅.1.top_le h₅.2] at hstay
    rw [crtOps, if_pos hc]
    simp only [List.replicate, List.foldl_cons, List.foldl_nil]
    refine ⟨h₅, ?_⟩
    rw [cgaPutc, cgaSwitch, attributed_low, if_neg h8, if_neg ha, if_neg hd, if_pos hc]
    refine .bind (.bind (consPutc_space h) ?_) (.bind hstay moveCursor_paints)
    exact .bind (consPutc_space h₁) (.bind (consPutc_space h₂)
      (.bind (consPutc_space h₃) (consPutc_space h₄)))
  · rw [crtOps, if_neg hc]
    exact ⟨h.step _, cgaPutc_plain h hc⟩

/-- So does every output. -/
theorem forM_displays (s₀ : Cga) (cs : List Word) (h : InView t) :
    InView ((cs.flatMap crtOps).foldl (·.step crtRows) t) ∧ Paints (s₀.Displays t)
      (cs.forM cgaPutc) (s₀.Displays ((cs.flatMap crtOps).foldl (·.step crtRows) t)) := by
  induction cs generalizing t with
  | nil => exact ⟨h, .skip⟩
  | cons c cs ih =>
    obtain ⟨hview, hputc⟩ := cgaPutc_displays s₀ h c
    obtain ⟨hend, hrest⟩ := ih hview
    rw [List.flatMap_cons, List.foldl_append]
    exact ⟨hend, .bind hputc hrest⟩

/-! ## The refinement -/

theorem Cga.terminal_offset (s : Cga) : s.terminal.offset = s.crtPos.toNat := by
  show s.crtPos.toNat / crtCols * crtCols + s.crtPos.toNat % crtCols = s.crtPos.toNat
  rw [Nat.mul_comm]
  exact Nat.div_add_mod s.crtPos.toNat crtCols

theorem Cga.terminal_window (s : Cga) {i : Nat} (hi : i < crtSize) :
    s.terminal.window i = s.cell i := by
  have hrow : 0 + i / crtCols < crtRows := by
    rw [Nat.zero_add]
    exact (Nat.div_lt_iff_lt_mul (by decide)).2 hi
  show (if 0 + i / crtCols < crtRows then s.cell ((0 + i / crtCols) * crtCols + i % crtCols)
    else crtBlank) = s.cell i
  rw [if_pos hrow, Nat.zero_add, Nat.mul_comm, Nat.div_add_mod]

theorem Cga.terminal_inView (s : Cga) (h : s.crtPos.toNat < crtSize) : InView s.terminal := by
  have hrow : s.crtPos.toNat / crtCols < crtRows := (Nat.div_lt_iff_lt_mul (by decide)).2 h
  refine ⟨⟨Nat.zero_le _, ?_, fun r c hr => if_neg (Nat.not_lt.2 ?_)⟩, ?_⟩
  · show s.crtPos.toNat / crtCols ≤ 0 + crtRows
    rw [Nat.zero_add]
    exact Nat.le_of_lt hrow
  · rwa [show s.terminal.top = 0 from rfl, Nat.zero_add] at hr
  · rwa [s.terminal_offset]

/-- The screen shows its own terminal. -/
theorem Cga.displays_terminal (s : Cga) : s.Displays s.terminal s where
  adapter := rfl
  crtPos := by rw [s.terminal_offset, BitVec.ofNat_toNat, BitVec.setWidth_eq]
  cell i hi := (s.terminal_window hi).symm
  rest b _ := rfl

/-- **`cga_putc`**: whatever is output, the screen is the window of a terminal without end that does
what the characters ask for.  Only the screen is written to, and the cursor stays on it. -/
theorem cgaPutc_refines (s : Cga) (h : s.crtPos.toNat < crtSize) (cs : List Word) : ∃ s' l,
    (cs.forM cgaPutc).run ⟨s, []⟩ = .ok () ⟨s', l⟩ ∧
      (∀ i n, CgaNote.write i n ∈ l → i + n ≤ crtSize) ∧
      (∀ b, ¬ Within s.adapter.crtBuf (2 * crtSize) b → s'.mem b = s.mem b) ∧
      s'.crtPos.toNat < crtSize ∧
      s'.Shows ((cs.flatMap crtOps).foldl (·.step crtRows) s.terminal) := by
  obtain ⟨hview, hputc⟩ := forM_displays s cs (s.terminal_inView h)
  have hstart : OnScreen (s.Displays s.terminal) ⟨s, []⟩ :=
    ⟨s.displays_terminal, fun i n hmem => absurd hmem List.not_mem_nil⟩
  have hrun := hputc ⟨s, []⟩ hstart
  cases hr : (cs.forM cgaPutc).run ⟨s, []⟩ with
  | error x g =>
    rw [hr] at hrun
    exact hrun.elim
  | ok a g =>
    rw [hr] at hrun
    obtain ⟨hshows, hwrites⟩ := hrun
    have hpos := (congrArg BitVec.toNat hshows.crtPos).trans (offset_toNat hview.1)
    have hbuf : s.addr 0 = s.adapter.crtBuf := BitVec.add_zero _
    refine ⟨g.state, g.trace, rfl, hwrites, fun b hb => hshows.rest b ?_, ?_, hpos, hshows.cell⟩
    · rwa [hbuf]
    · rw [hpos]
      exact hview.2

/-- At the start of the last row of an empty screen: a letter, a tab, a backspace, and the end of
the line. -/
theorem cgaPutc_refines_last : (1920#16).toNat < crtSize ∧ ∃ s' l,
    ([0x41#32, 0x09#32, 0x08#32, 0x0a#32].forM cgaPutc).run ⟨⟨.cga, 1920#16, fun _ => 0#8⟩, []⟩ =
      .ok () ⟨s', l⟩ ∧ s'.crtPos.toNat < crtSize := by
  have hpos : (1920#16).toNat < crtSize := by decide
  obtain ⟨s', l, hrun, -, -, hlt, -⟩ := cgaPutc_refines ⟨.cga, 1920#16, fun _ => 0#8⟩ hpos
    [0x41#32, 0x09#32, 0x08#32, 0x0a#32]
  exact ⟨hpos, s', l, hrun, hlt⟩

end Jos
