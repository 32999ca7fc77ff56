import Jos.Printfmt.Total

/-!
# Where a NUL comes from

`vprintfmt` generates a character whose low byte is 0 only for a `%c` that is given one: texts have
no NUL in them, and digits and padding are no NULs.
-/

set_option autoImplicit false

namespace Jos

open Command CString

variable {fmt : CString} {ap a : VaList} {c : Word} {k : Nat} {v v' : Locals} {text : List Word}

/-- None of the characters has a low byte of 0. -/
def NonNul (text : List Word) : Prop := ∀ ch ∈ text, ch.setWidth 8 ≠ 0#8

/-- No NUL is added. -/
def Clean (out out' : List Word) : Prop := NonNul out → NonNul out'

namespace Clean

variable {α β : Type} {m : PrintM (List Word) α} {g : α → PrintM (List Word) β}

theorem pure (r : α) : Always Clean (Pure.pure r : PrintM (List Word) α) :=
  Always.pure (fun _ => id) r

theorem throw (e : Fault) : Always Clean (MonadExcept.throw e : PrintM (List Word) α) :=
  Always.throw (fun _ => id) e

theorem bind (hm : Always Clean m) (hg : ∀ r, Always Clean (g r)) : Always Clean (m >>= g) :=
  Always.bind (fun _ _ _ h h' hn => h' (h hn)) hm hg

end Clean

theorem NonNul.append {text' : List Word} (h : NonNul text) (h' : NonNul text') :
    NonNul (text ++ text') :=
  fun ch hch => (List.mem_append.1 hch).elim (h ch) (h' ch)

theorem nonNul_singleton {ch : Word} (h : ch.setWidth 8 ≠ 0#8) : NonNul [ch] := by
  intro ch' hch
  rwa [List.mem_singleton.1 hch]

theorem Writes.nonNul {α : Type} {m : PrintM (List Word) α} {r : α} (h : Writes m text r)
    (hm : Always Clean m) : NonNul text :=
  hm.of_ok (h []) fun _ hch => absurd hch List.not_mem_nil

/-! ## Printing -/

theorem emit_clean {ch : Word} (h : ch.setWidth 8 ≠ 0#8) : Always Clean (emit collect ch) :=
  Always.modify fun _ hn => hn.append (nonNul_singleton h)

theorem emitTimes_clean {ch : Word} (h : ch.setWidth 8 ≠ 0#8) (n : Nat) :
    Always Clean (emitTimes collect ch n) := by
  induction n with
  | zero => exact Clean.pure ()
  | succ n ih => exact Clean.bind (emit_clean h) fun _ => ih

/-- A character is not changed on the way. -/
theorem setWidth_ne {b : Byte} (h : b ≠ 0#8) : (b.setWidth 32 : Word).setWidth 8 ≠ 0#8 := by
  rwa [BitVec.setWidth_setWidth_of_le _ (by omega), BitVec.setWidth_eq]

theorem digitChar_ne_zero {d : Nat} (hd : d < 16) : digitChar d ≠ 0#8 := by
  have hall : ∀ d < 16, digitChar d ≠ 0#8 := by decide
  exact hall d hd

theorem printnum_clean {base : Nat} (hb : 1 < base) (hb' : base ≤ 16) {padc : Byte}
    (hpad : padc ≠ 0#8) (fuel n : Nat) (width : Int) :
    Always Clean (printnum collect base padc fuel n width) := by
  induction fuel generalizing n width with
  | zero => exact Clean.throw _
  | succ fuel ih =>
    have hmod := Nat.mod_lt n (Nat.zero_lt_of_lt hb)
    have hlast := emit_clean (setWidth_ne (digitChar_ne_zero (show n % base < 16 by omega)))
    rw [printnum]
    split
    · exact Clean.bind (ih _ _) fun _ => hlast
    · exact Clean.bind (emitTimes_clean (setWidth_ne hpad) _) fun _ => hlast

theorem printNumber_clean {base : Nat} (hb : base = 8 ∨ base = 10 ∨ base = 16) (n : Nat)
    (hpad : v.padc ≠ 0#8) : Always Clean (printNumber collect n base v) :=
  printnum_clean (by omega) (by omega) hpad _ _ _

theorem printChars_clean (altflag : Bool) {l : List Byte} (hl : 0#8 ∉ l) (precision width : Int) :
    Always Clean (printChars collect altflag l precision width) := by
  induction l generalizing precision width with
  | nil => exact Clean.pure _
  | cons b l ih =>
    obtain ⟨hb, hl⟩ := List.ne_and_not_mem_of_not_mem_cons hl
    have hsign : (b.signExtend 32 : Word).setWidth 8 ≠ 0#8 := by
      have hall : ∀ b : Byte, 0#8 ≠ b → (b.signExtend 32 : Word).setWidth 8 ≠ 0#8 := by decide
      exact hall b hb
    rw [printChars]
    refine Always.ite ?_ (Clean.pure _)
    dsimp only
    split
    · exact Clean.bind (emit_clean (by decide)) fun _ => ih hl _ _
    · exact Clean.bind (emit_clean hsign) fun _ => ih hl _ _

theorem printStr_clean (p : CString) (hpad : v.padc ≠ 0#8) :
    Always Clean (printStr collect p v) := by
  have hrest : ∀ width, Always Clean (do
      let width ← printChars collect v.altflag p.bytes v.precision width
      emitTimes collect ((chr ' ').setWidth 32) width.toNat) := fun width =>
    Clean.bind (printChars_clean _ p.noNul _ _) fun _ =>
      emitTimes_clean (by decide) _
  rw [printStr]
  dsimp only
  split
  · exact Clean.bind (emitTimes_clean (setWidth_ne hpad) _) fun _ => hrest _
  · exact hrest _

/-- The padding is no NUL, and a color is above the low byte. -/
structure Locals.Sound (v : Locals) : Prop where
  padc : v.padc ≠ 0#8
  color : v.color.setWidth 8 = 0#8

/-- A conversion, but for `%c`, prints no NUL. -/
theorem convert_clean {f : CString → VaList → PrintM (List Word) Unit} {kind : Conv}
    (hv : v.Sound) (hc : kind = .c → (v.ap.word 0).setWidth 8 ≠ 0#8)
    (hf : kind = .e → ∀ ap, Always Clean (f errorFormat ap) ∧ Always Clean (f messageFormat ap)) :
    Always Clean (convert collect f kind v) := by
  have hnum : ∀ base n, (base = 8 ∨ base = 10 ∨ base = 16) → ∀ v', Always Clean (do
      printNumber collect n base v
      return v' : PrintM (List Word) Locals) := fun base n hb v' =>
    Clean.bind (printNumber_clean hb n hv.padc) fun _ =>
      Clean.pure _
  cases kind with
  | c =>
    have hch : (v.ap.word 0 + v.color).setWidth 8 ≠ 0#8 := by
      rw [BitVec.setWidth_add _ _ (by omega), hv.color, BitVec.add_zero]
      exact hc rfl
    exact Clean.bind (emit_clean hch) fun _ => Clean.pure _
  | e =>
    simp only [convert]
    generalize herr : (if (v.ap.word 0).toInt < 0 then int32 (-(v.ap.word 0).toInt)
      else (v.ap.word 0).toInt) = err
    have hend : ∀ m : PrintM (List Word) Unit, Always Clean m → Always Clean (do
        m
        return { v with ap := v.ap.drop 1 }) := fun m hm => Clean.bind hm fun _ => Clean.pure _
    split
    · exact hend _ (hf rfl _).1
    split
    · exact hend _ (Clean.throw _)
    split
    · exact hend _ (hf rfl _).1
    · exact hend _ (hf rfl _).2
  | s =>
    exact Clean.bind (printStr_clean _ hv.padc) fun _ =>
      Clean.pure _
  | d =>
    simp only [convert]
    split
    · exact Clean.bind (emit_clean (by decide)) fun _ =>
        hnum _ _ (by omega) _
    · exact hnum _ _ (by omega) _
  | u => exact hnum _ _ (by omega) _
  | o => exact hnum _ _ (by omega) _
  | p =>
    exact Clean.bind (emit_clean (by decide)) fun _ =>
      Clean.bind (emit_clean (by decide)) fun _ => hnum _ _ (by omega) _
  | x => exact hnum _ _ (by omega) _
  | percent =>
    exact Clean.bind (emit_clean (by decide)) fun _ =>
      Clean.pure _

/-! ## The variables on the way -/

theorem Locals.Sound.processPrecision (h : v.Sound) (n : Int) : (v.processPrecision n).Sound := by
  rw [Locals.processPrecision]
  split
  · exact ⟨h.padc, h.color⟩
  · exact ⟨h.padc, h.color⟩

theorem colorOf_low (arg : Word) : (colorOf arg).setWidth 8 = 0#8 := by
  rw [colorOf]
  split
  · decide
  split <;> decide

section

variable {σ : Type}

theorem readFlag_sound (fuel : Nat) (ch : Byte) (hv : v.Sound) (f : Flag) :
    Triple (fun _ : σ => True) (readFlag fmt fuel ch v f) (fun v' _ => v'.Sound)
      fun _ _ => True := by
  have hchar : chr '-' ≠ 0#8 ∧ chr '0' ≠ 0#8 := by decide
  have hmove : ∀ q a, ({ v with fmt := q, ap := a } : Locals).Sound := fun _ _ =>
    ⟨hv.padc, hv.color⟩
  cases f with
  | digit =>
    exact Triple.bind Triple.top fun r => Triple.pure fun _ _ => (hmove r.2 v.ap).processPrecision _
  | star => exact Triple.pure fun _ _ => (hmove v.fmt (v.ap.drop 1)).processPrecision _
  | minus => exact Triple.pure fun _ _ => ⟨hchar.1, hv.color⟩
  | zero => exact Triple.pure fun _ _ => ⟨hchar.2, hv.color⟩
  | dot => exact Triple.pure fun _ _ => ⟨hv.padc, hv.color⟩
  | hash => exact Triple.pure fun _ _ => ⟨hv.padc, hv.color⟩
  | long => exact Triple.pure fun _ _ => ⟨hv.padc, hv.color⟩
  | color => exact Triple.pure fun _ _ => ⟨hv.padc, colorOf_low _⟩

theorem readFlags_sound (fuel : Nat) (hv : v.Sound) :
    Triple (fun _ : σ => True) (readFlags fmt fuel v) (fun r _ => r.2.Sound)
      fun _ _ => True := by
  induction fuel generalizing v with
  | zero => exact Triple.throw fun _ _ => trivial
  | succ fuel ih =>
    refine Triple.bind Triple.top fun ch => ?_
    have hnext : ({ v with fmt := v.fmt + 1 } : Locals).Sound := ⟨hv.padc, hv.color⟩
    dsimp only
    cases label ch with
    | flag f =>
      refine Triple.bind (readFlag_sound (fuel + 1) ch hnext f) fun v' s hv' => ?_
      exact ih hv' s trivial
    | conv kind => exact Triple.pure fun _ _ => hnext
    | default => exact Triple.pure fun _ _ => hnext

/-- A conversion leaves no color behind that it has not been given. -/
theorem convert_sound {putch : Word → σ → σ} {f : CString → VaList → PrintM σ Unit} {kind : Conv}
    (hv : v.Sound) :
    Triple (fun _ => True) (convert putch f kind v) (fun v' _ => v'.color.setWidth 8 = 0#8)
      fun _ _ => True := by
  have hend : ∀ (m : PrintM σ Unit) ap, Triple (fun _ => True) (do
      m
      return { v with ap := ap }) (fun v' _ => v'.color.setWidth 8 = 0#8) fun _ _ => True :=
    fun m ap => Triple.bind Triple.top fun _ => Triple.pure fun _ _ => hv.color
  cases kind with
  | c => exact Triple.bind Triple.top fun _ => Triple.pure fun _ _ => rfl
  | e =>
    simp only [convert]
    generalize herr : (if (v.ap.word 0).toInt < 0 then int32 (-(v.ap.word 0).toInt)
      else (v.ap.word 0).toInt) = err
    split
    · exact hend _ _
    split
    · exact hend _ _
    split
    · exact hend _ _
    · exact hend _ _
  | s => exact hend _ _
  | d =>
    simp only [convert]
    split
    · exact Triple.bind Triple.top fun _ => hend _ _
    · exact hend _ _
  | u => exact hend _ _
  | o => exact hend _ _
  | p =>
    exact Triple.bind Triple.top fun _ => Triple.bind Triple.top fun _ => hend _ _
  | x => exact hend _ _
  | percent => exact Triple.bind Triple.top fun _ => Triple.pure fun _ _ => hv.color

end

/-! ## Directives and formats -/

theorem Writes.clean {α : Type} {m : PrintM (List Word) α} {r : α} (h : Writes m text r)
    (hn : NonNul text) : Always Clean m := by
  intro out hout
  rw [final_of_ok (h out)]
  exact hout.append hn

section

variable {f : CString → VaList → PrintM (List Word) Unit} (hcolor : c.setWidth 8 = 0#8)
variable (hq : fmt.get? k = some (chr '%'))
include hcolor hq

/-- What a directive does once its flags have been read. -/
theorem directive_cases
    (h : Writes (directive collect f fmt { fmt := k + 1, ap := a, color := c }) text v) :
    ∃ l v' j, v'.Sound ∧ EndsAt fmt (k + 1) l j ∧
      Writes (readFlags fmt (fmt.bytes.length + 1) { fmt := k + 1, ap := a, color := c }) []
        (l, v') ∧
      ((∃ kind, l = .conv kind ∧ Writes (convert collect f kind v') text v) ∨
        (text = chars [chr '%'] ∧ v.color = v'.color)) := by
  have hlt := get?_lt hq (by decide)
  obtain ⟨l, v', j, hread, hfmt, hend, hne⟩ := readFlags_writes fmt
    (fmt.bytes.length + 1) { fmt := k + 1, ap := a, color := c } hlt (by dsimp; omega)
  have hsound : v'.Sound :=
    (readFlags_sound _ ⟨by dsimp only; decide, hcolor⟩).of_ok trivial (hread [])
  have hle := hend.le
  dsimp only at hle
  have hrest := Writes.of_bind_nil hread h
  refine ⟨l, v', j, hsound, hend, hread, ?_⟩
  cases l with
  | flag f => exact absurd rfl (hne f)
  | conv kind => exact Or.inl ⟨kind, rfl, hrest⟩
  | default =>
    obtain ⟨rfl, rfl⟩ := hrest.unique (literally_writes hq hend.flags (by omega) hfmt)
    exact Or.inr ⟨rfl, rfl⟩

theorem directive_color
    (h : Writes (directive collect f fmt { fmt := k + 1, ap := a, color := c }) text v) :
    v.color.setWidth 8 = 0#8 := by
  obtain ⟨l, v', j, hsound, -, -, ⟨kind, -, hconv⟩ | ⟨-, hv⟩⟩ := directive_cases hcolor hq h
  · exact (convert_sound hsound).of_ok trivial (hconv [])
  · rw [hv]
    exact hsound.color

/-- What a directive writes has no NUL, but for a `%c` that is given one. -/
theorem directive_clean
    (hc : ∀ j v', EndsAt fmt (k + 1) (.conv .c) j →
      Writes (readFlags fmt (fmt.bytes.length + 1) { fmt := k + 1, ap := a, color := c }) []
        (.conv .c, v') → (v'.ap.word 0).setWidth 8 ≠ 0#8)
    (hf : ∀ j, EndsAt fmt (k + 1) (.conv .e) j →
      ∀ ap, Always Clean (f errorFormat ap) ∧ Always Clean (f messageFormat ap))
    (h : Writes (directive collect f fmt { fmt := k + 1, ap := a, color := c }) text v) :
    NonNul text := by
  obtain ⟨l, v', j, hsound, hend, hread, ⟨kind, rfl, hconv⟩ | ⟨rfl, -⟩⟩ :=
    directive_cases hcolor hq h
  · refine Writes.nonNul hconv (convert_clean hsound (fun hk => ?_) fun hk => ?_)
    · subst hk
      exact hc j v' hend hread
    · subst hk
      exact hf j hend
  · exact nonNul_singleton (by decide)

end

/-- `printfmt` prints no NUL if there is no `%c`. -/
theorem Simple.printfmt_clean {kind : Conv} (h : Simple fmt kind) (hc : kind ≠ .c) (he : kind ≠ .e)
    (ap : VaList) : Always Clean (printfmt collect fmt ap) := by
  obtain ⟨text, a, c, htext, -, hn⟩ := formatLoop_writes fmt [] (a := ap)
    (c := 0#32) (f := fun _ _ => throw .fuel)
    (P := fun _ _ c text => c.setWidth 8 = 0#8 ∧ NonNul text)
    (fun k a c text ch hP hch _ hnul => ⟨hP.1, hP.2.append (nonNul_singleton (setWidth_ne hnul))⟩)
    (fun k a c text hP hq => by
      obtain ⟨more, v, hv, hlt, hle⟩ := h.directive_writes he (fun _ _ => throw .fuel) hq
      have hmore := directive_clean hP.1 hq
        (fun j v' hend _ => absurd (Label.conv.inj (h.endsAt hq hend (by simp))).symm hc)
        (fun j hend => absurd (Label.conv.inj (h.endsAt hq hend (by simp))).symm he) hv
      exact ⟨more, v, hv, hlt, hle, directive_color hP.1 hq hv, hP.2.append hmore⟩)
    ⟨by decide, fun _ hch => absurd hch List.not_mem_nil⟩ (Nat.zero_le _) (Nat.lt_succ_self _)
  exact Writes.clean htext hn

/-- No `%c` that is come to is given a word whose low byte is 0. -/
def CharArgs (fmt : CString) (ap : VaList) : Prop :=
  ∀ k a c text v, Comes fmt ap k a c text → fmt.get? k = some (chr '%') →
    Writes (readFlags fmt (fmt.bytes.length + 1) { fmt := k + 1, ap := a, color := c }) []
      (.conv .c, v) → (v.ap.word 0).setWidth 8 ≠ 0#8

theorem Comes.color_low (h : Comes fmt ap k a c text) : c.setWidth 8 = 0#8 := by
  induction h with
  | start => decide
  | char _ _ _ _ ih => exact ih
  | past _ hq hv ih => exact directive_color ih hq hv

theorem Comes.nonNul (hargs : CharArgs fmt ap) (h : Comes fmt ap k a c text) : NonNul text := by
  induction h with
  | start => exact fun _ hch => absurd hch List.not_mem_nil
  | char _ _ _ hnul ih => exact ih.append (nonNul_singleton (setWidth_ne hnul))
  | @past k a c text more v hcomes hq hv ih =>
    refine ih.append (directive_clean hcomes.color_low hq (fun j v' _ hread => ?_)
      (fun j _ ap => ?_) hv)
    · exact hargs k a c text v' hcomes hq hread
    · exact ⟨errorFormat_simple.printfmt_clean (by decide) (by decide) ap,
        messageFormat_simple.printfmt_clean (by decide) (by decide) ap⟩

/-- **A NUL comes from `%c`**, and from nothing else. -/
theorem nonNul_iff (herr : ErrorArgs fmt ap) {out : List Word} (hout : Generates fmt ap out)
    {a : VaList} {c : Word} (hend : Comes fmt ap fmt.bytes.length a c out) :
    NonNul out ↔ CharArgs fmt ap := by
  constructor
  · intro hn k a c text v hcomes hq hread hzero
    have hc := hcomes.color_low
    have hsound : v.Sound :=
      (readFlags_sound _ ⟨by dsimp only; decide, hc⟩).of_ok trivial (hread [])
    have hconv : Writes (convert collect (printfmt collect) .c v) [v.ap.word 0 + v.color] _ :=
      (emit_writes _).then_return (Writes.pure _)
    have hpast := hcomes.past hq (hread.bind_nil hconv)
    obtain ⟨rest, rfl⟩ := hpast.isPrefix herr hout
    refine hn (v.ap.word 0 + v.color) (by simp) ?_
    rw [BitVec.setWidth_add _ _ (by omega), hsound.color, hzero, BitVec.add_zero]
  · exact fun hargs => hend.nonNul hargs

end Jos
