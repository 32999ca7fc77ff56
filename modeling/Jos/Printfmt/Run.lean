import Jos.Lib.Carry
import Jos.Printfmt

/-!
# What `vprintfmt` generates

`vprintfmt` does not look at what `putch` does, so all there is to know about a call is the sequence
of characters it hands over: `Generates`.  With any other `putch`, the characters are handed over in
that order, and that is all that happens.

The second half of the file says what the functions below `vprintfmt` generate.
-/

set_option autoImplicit false

namespace Jos

open Command

/-! ## It is the same for every `putch` -/

section

variable {σ τ : Type} {h : σ → τ} {p : Word → σ → σ} {q : Word → τ → τ}
variable (hpq : ∀ ch s, q ch (h s) = h (p ch s))
include hpq

theorem emit_carries (ch : Word) : Carries h (emit p ch) (emit q ch) := Carries.of_modify (hpq ch)

theorem emitTimes_carries (ch : Word) (n : Nat) :
    Carries h (emitTimes p ch n) (emitTimes q ch n) := by
  induction n with
  | zero => exact Carries.pure ()
  | succ n ih => exact (emit_carries hpq ch).bind fun _ => ih

theorem printnum_carries (base : Nat) (padc : Byte) (fuel num : Nat) (width : Int) :
    Carries h (printnum p base padc fuel num width) (printnum q base padc fuel num width) := by
  induction fuel generalizing num width with
  | zero => exact Carries.throw _
  | succ fuel ih =>
    have hlast := emit_carries hpq ((digitChar (num % base)).setWidth 32)
    rw [printnum, printnum]
    by_cases hb : base ≤ num
    · rw [if_pos hb, if_pos hb]
      exact (ih _ _).bind fun _ => hlast
    · rw [if_neg hb, if_neg hb]
      exact (emitTimes_carries hpq _ _).bind fun _ => hlast

theorem printChars_carries (altflag : Bool) (l : List Byte) (precision width : Int) :
    Carries h (printChars p altflag l precision width)
      (printChars q altflag l precision width) := by
  induction l generalizing precision width with
  | nil => exact Carries.pure _
  | cons b bs ih =>
    rw [printChars, printChars]
    refine Carries.ite ?_ (Carries.pure _)
    dsimp only
    split
    · exact (emit_carries hpq _).bind fun _ => ih _ _
    · exact (emit_carries hpq _).bind fun _ => ih _ _

theorem printStr_carries (str : CString) (v : Locals) :
    Carries h (printStr p str v) (printStr q str v) := by
  rw [printStr, printStr]
  dsimp only
  split
  · exact (emitTimes_carries hpq _ _).bind fun _ => (printChars_carries hpq _ _ _ _).bind fun _ =>
      emitTimes_carries hpq _ _
  · exact (printChars_carries hpq _ _ _ _).bind fun _ => emitTimes_carries hpq _ _

theorem printNumber_carries (num base : Nat) (v : Locals) :
    Carries h (printNumber p num base v) (printNumber q num base v) :=
  printnum_carries hpq base v.padc 64 num v.width

variable {f : CString → VaList → PrintM σ Unit} {g : CString → VaList → PrintM τ Unit}
variable (hfg : ∀ fmt ap, Carries h (f fmt ap) (g fmt ap))
include hfg

theorem convert_carries (k : Conv) (v : Locals) :
    Carries h (convert p f k v) (convert q g k v) := by
  have hemit := emit_carries hpq
  have hnum := printNumber_carries hpq
  cases k with
  | c => exact (hemit _).bind fun _ => Carries.pure _
  | e =>
    simp only [convert]
    generalize (if (v.ap.word 0).toInt < 0 then int32 (-(v.ap.word 0).toInt)
      else (v.ap.word 0).toInt) = err
    split
    · exact (hfg _ _).bind fun _ => Carries.pure _
    split
    · exact (Carries.throw _).bind fun _ => Carries.pure _
    split
    · exact (hfg _ _).bind fun _ => Carries.pure _
    · exact (hfg _ _).bind fun _ => Carries.pure _
  | s => exact (printStr_carries hpq _ v).bind fun _ => Carries.pure _
  | d =>
    simp only [convert]
    split
    · exact (hemit _).bind fun _ => (hnum _ _ _).bind fun _ => Carries.pure _
    · exact (hnum _ _ _).bind fun _ => Carries.pure _
  | u => exact (hnum _ _ _).bind fun _ => Carries.pure _
  | o => exact (hnum _ _ _).bind fun _ => Carries.pure _
  | p => exact (hemit _).bind fun _ => (hemit _).bind fun _ => (hnum _ _ _).bind fun _ =>
      Carries.pure _
  | x => exact (hnum _ _ _).bind fun _ => Carries.pure _
  | percent => exact (hemit _).bind fun _ => Carries.pure _

omit hpq hfg in
theorem readFmt_carries (fmt : CString) (k : Nat) :
    Carries h (readFmt fmt k : PrintM σ Byte) (readFmt fmt k) := by
  rw [readFmt, readFmt]
  cases fmt.get? k with
  | some ch => exact Carries.pure ch
  | none => exact Carries.throw _

omit hpq hfg in
theorem readNumber_carries (fmt : CString) (fuel k : Nat) (precision : Int) (ch : Byte) :
    Carries h (readNumber fmt fuel k precision ch : PrintM σ (Int × Nat))
      (readNumber fmt fuel k precision ch) := by
  induction fuel generalizing k precision ch with
  | zero => exact Carries.throw _
  | succ fuel ih =>
    refine (readFmt_carries fmt k).bind fun ch' => ?_
    exact Carries.ite (Carries.pure _) (ih _ _ _)

omit hpq hfg in
theorem rewind_carries (fmt : CString) (k : Nat) :
    Carries h (rewind fmt k : PrintM σ Nat) (rewind fmt k) := by
  induction k with
  | zero => exact Carries.throw _
  | succ k ih =>
    refine (readFmt_carries fmt k).bind fun ch => ?_
    exact Carries.ite (Carries.pure _) ih

omit hpq hfg in
theorem readFlag_carries (fmt : CString) (fuel : Nat) (ch : Byte) (v : Locals) (f : Flag) :
    Carries h (readFlag fmt fuel ch v f : PrintM σ Locals) (readFlag fmt fuel ch v f) := by
  cases f with
  | digit => exact (readNumber_carries _ _ _ _ _).bind fun _ => Carries.pure _
  | _ => exact Carries.pure _

omit hpq hfg in
theorem readFlags_carries (fmt : CString) (fuel : Nat) (v : Locals) :
    Carries h (readFlags fmt fuel v : PrintM σ (Label × Locals)) (readFlags fmt fuel v) := by
  induction fuel generalizing v with
  | zero => exact Carries.throw _
  | succ fuel ih =>
    refine (readFmt_carries fmt v.fmt).bind fun ch => ?_
    dsimp only
    cases label ch with
    | flag f => exact (readFlag_carries _ _ _ _ _).bind fun _ => ih _
    | conv k => exact Carries.pure _
    | default => exact Carries.pure _

omit hfg in
theorem literally_carries (fmt : CString) (v : Locals) :
    Carries h (literally p fmt v) (literally q fmt v) :=
  (emit_carries hpq _).bind fun _ => (rewind_carries _ _).bind fun _ => Carries.pure _

theorem directive_carries (fmt : CString) (v : Locals) :
    Carries h (directive p f fmt v) (directive q g fmt v) := by
  refine (readFlags_carries fmt _ v).bind fun lv => ?_
  obtain ⟨l, v'⟩ := lv
  cases l with
  | conv k => exact convert_carries hpq hfg k v'
  | flag f => exact literally_carries hpq fmt v'
  | default => exact literally_carries hpq fmt v'

theorem formatLoop_carries (fmt : CString) (fuel k : Nat) (ap : VaList) (color : Word) :
    Carries h (formatLoop p f fmt fuel k ap color) (formatLoop q g fmt fuel k ap color) := by
  induction fuel generalizing k ap color with
  | zero => exact Carries.throw _
  | succ fuel ih =>
    refine (readFmt_carries fmt k).bind fun ch => ?_
    refine Carries.ite ?_ (Carries.ite (Carries.pure _) ?_)
    · exact (directive_carries hpq hfg _ _).bind fun v => ih _ _ _
    · exact (emit_carries hpq _).bind fun _ => ih _ _ _

omit hfg in
theorem vprintfmt_carries (fmt : CString) (ap : VaList) :
    Carries h (vprintfmt p fmt ap) (vprintfmt q fmt ap) :=
  formatLoop_carries hpq (fun fmt ap => formatLoop_carries hpq (fun _ _ => Carries.throw _)
    fmt _ 0 ap 0#32) fmt _ 0 ap 0#32

end

/-! ## The characters generated -/

/-- The `putch` that collects the characters. -/
def collect (ch : Word) (out : List Word) : List Word := out ++ [ch]

/-- `vprintfmt` generates the characters `out`. -/
def Generates (fmt : CString) (ap : VaList) (out : List Word) : Prop :=
  (vprintfmt collect fmt ap).run [] = .ok () out

/-- Characters are handed over one after the other. -/
def puts {σ : Type} (putch : Word → σ → σ) (out : List Word) (s : σ) : σ :=
  out.foldl (fun s ch => putch ch s) s

/-- What `putch` keeps up holds when all the characters have been handed over. -/
theorem puts_induction {σ : Type} {P : List Word → σ → Prop} (putch : Word → σ → σ) (s : σ)
    (hstart : P [] s) (hstep : ∀ l ch s, P l s → P (l ++ [ch]) (putch ch s)) (out : List Word) :
    P out (puts putch out s) := by
  have hrest : ∀ out l s, P l s → P (l ++ out) (puts putch out s) := by
    intro out
    induction out with
    | nil =>
      intro l s h
      rwa [List.append_nil]
    | cons ch out ih =>
      intro l s h
      rw [List.append_cons]
      exact ih _ _ (hstep l ch s h)
  exact hrest out [] s hstart

/-- **`vprintfmt` with any `putch`.** -/
theorem Generates.run {σ : Type} {fmt : CString} {ap : VaList} {out : List Word}
    (h : Generates fmt ap out) (putch : Word → σ → σ) (s : σ) :
    (vprintfmt putch fmt ap).run s = .ok () (puts putch out s) := by
  have hpq : ∀ (ch : Word) (out : List Word), putch ch (puts putch out s) =
      puts putch (collect ch out) s := by
    intro ch out
    rw [puts, puts, collect, List.foldl_append]
    rfl
  exact (vprintfmt_carries hpq fmt ap).of_ok h

/-! ## The functions below

With `collect`, all that a function does is to add its characters to those collected so far. -/

/-- The command adds the characters `text` and returns `a`. -/
def Writes {α : Type} (m : PrintM (List Word) α) (text : List Word) (a : α) : Prop :=
  ∀ out, m.run out = .ok a (out ++ text)

namespace Writes

variable {α β : Type} {m : PrintM (List Word) α} {f : α → PrintM (List Word) β}
variable {l l' : List Word} {a b' : α} {b : β}

theorem pure (a : α) : Writes (Pure.pure a) [] a := by
  intro out
  rw [List.append_nil]
  rfl

theorem bind (h : Writes m l a) (hf : Writes (f a) l' b) : Writes (m >>= f) (l ++ l') b := by
  intro out
  rw [run_bind_ok (h out), hf, List.append_assoc]

theorem unique (h : Writes m l a) (h' : Writes m l' b') : l = l' ∧ a = b' := by
  have hres := (h []).symm.trans (h' [])
  exact ⟨(EStateM.Result.ok.inj hres).2, (EStateM.Result.ok.inj hres).1⟩

/-- What is left when the first part has printed nothing. -/
theorem of_bind_nil (h : Writes m [] a) (hf : Writes (m >>= f) l b) : Writes (f a) l b := by
  intro out
  have hbind := hf out
  rwa [run_bind_ok (h out), List.append_nil] at hbind

/-- Nothing is printed by the first part. -/
theorem bind_nil (h : Writes m [] a) (hf : Writes (f a) l b) : Writes (m >>= f) l b := h.bind hf

/-- Nothing is printed by the rest. -/
theorem then_return (h : Writes m l a) (hf : Writes (f a) [] b) : Writes (m >>= f) l b := by
  have hb := h.bind hf
  rwa [List.append_nil] at hb

end Writes

theorem emit_writes (ch : Word) : Writes (emit collect ch) [ch] () := fun _ => rfl

theorem emitTimes_writes (ch : Word) (n : Nat) :
    Writes (emitTimes collect ch n) (List.replicate n ch) () := by
  induction n with
  | zero => exact Writes.pure ()
  | succ n ih => exact (emit_writes ch).bind ih

/-- The characters of a text, as `putch` is given them. -/
def chars (text : List Byte) : List Word := text.map (·.setWidth 32)

theorem chars_length (text : List Byte) : (chars text).length = text.length := List.length_map _

theorem chars_append (t t' : List Byte) : chars (t ++ t') = chars t ++ chars t' := List.map_append

/-- A number in the usual way, in base 8, 10 or 16. -/
def numText (base n : Nat) : List Byte := (Nat.toDigits base n).map chr

theorem digitChar_eq (d : Nat) (hd : d < 16) : digitChar d = chr (Nat.digitChar d) := by
  have hall : ∀ d < 16, digitChar d = chr (Nat.digitChar d) := by decide
  exact hall d hd

/-- All digits but the last, then the last. -/
theorem numText_eq {base : Nat} (hb : 1 < base) (hb' : base ≤ 16) (n : Nat) : numText base n =
    if n < base then [digitChar n] else numText base (n / base) ++ [digitChar (n % base)] := by
  rw [numText, Nat.toDigits_eq_if hb]
  split
  · next hlt => rw [digitChar_eq n (by omega), List.map_singleton]
  · have hmod := Nat.mod_lt n (Nat.zero_lt_of_lt hb)
    rw [digitChar_eq _ (by omega), List.map_append, List.map_singleton, numText]

theorem int32_of_bounds {x : Int} (hlo : -2 ^ 31 ≤ x) (hhi : x < 2 ^ 31) : int32 x = x :=
  Int.bmod_eq_of_le (by omega) (by omega)

/-- **`printnum`** prints the number after some padding: as much as it takes to fill up the width,
unless that wraps around. -/
theorem printnum_writes {base : Nat} (hb : 1 < base) (hb' : base ≤ 16) (padc : Byte)
    (fuel n : Nat) (width : Int) (hn : n < base ^ (fuel + 1)) : ∃ k,
      Writes (printnum collect base padc (fuel + 1) n width)
        (chars (List.replicate k padc ++ numText base n)) () ∧
      (-2 ^ 31 + fuel < width → width < 2 ^ 31 → k = (width - (numText base n).length).toNat) := by
  induction fuel generalizing n width with
  | zero =>
    have hlt : n < base := by simpa using hn
    refine ⟨(int32 (width - 1)).toNat, ?_, fun hlo hhi => ?_⟩
    · rw [printnum, if_neg (by omega), numText_eq hb hb', if_pos hlt, Nat.mod_eq_of_lt hlt,
        chars_append, chars, List.map_replicate]
      exact (emitTimes_writes _ _).bind (emit_writes _)
    · rw [numText_eq hb hb', if_pos hlt, int32_of_bounds (by omega) (by omega)]
      rfl
  | succ fuel ih =>
    rw [printnum]
    by_cases hle : base ≤ n
    · have hdiv : n / base < base ^ (fuel + 1) :=
        Nat.div_lt_of_lt_mul (by rwa [Nat.pow_succ, Nat.mul_comm] at hn)
      obtain ⟨k, hk, hpad⟩ := ih (n / base) (int32 (width - 1)) hdiv
      have htext : numText base n = numText base (n / base) ++ [digitChar (n % base)] := by
        rw [numText_eq hb hb', if_neg (by omega)]
      refine ⟨k, ?_, fun hlo hhi => ?_⟩
      · rw [if_pos hle, htext, ← List.append_assoc, chars_append]
        exact hk.bind (emit_writes _)
      · have hw : int32 (width - 1) = width - 1 := int32_of_bounds (by omega) (by omega)
        rw [hpad (by omega) (by omega), hw, htext, List.length_append, List.length_singleton]
        congr 1
        omega
    · refine ⟨(int32 (width - 1)).toNat, ?_, fun hlo hhi => ?_⟩
      · rw [if_neg hle, numText_eq hb hb', if_pos (by omega), Nat.mod_eq_of_lt (by omega),
          chars_append, chars, List.map_replicate]
        exact (emitTimes_writes _ _).bind (emit_writes _)
      · rw [numText_eq hb hb', if_pos (by omega), int32_of_bounds (by omega) (by omega)]
        rfl

/-- **The code at `number`.** -/
theorem printNumber_writes {base : Nat} (hb : base = 8 ∨ base = 10 ∨ base = 16) {n : Nat}
    (hn : n < 2 ^ 64) (v : Locals) : ∃ k,
      Writes (printNumber collect n base v)
        (chars (List.replicate k v.padc ++ numText base n)) () ∧
      (-1 ≤ v.width → v.width < 2 ^ 31 → k = (v.width - (numText base n).length).toNat) := by
  have hpow : 2 ^ 64 ≤ base ^ 64 := Nat.pow_le_pow_left (by omega) 64
  obtain ⟨k, hk, hpad⟩ := @printnum_writes base (by omega) (by omega) v.padc 63 n v.width
    (Nat.lt_of_lt_of_le hn hpow)
  exact ⟨k, hk, fun hlo hhi => hpad (by omega) hhi⟩

theorem getuint_lt (ap : VaList) (lflag : Int) : (getuint ap lflag).1 < 2 ^ 64 := by
  have hword := (ap.word 0).isLt
  rw [getuint]
  split
  · exact (ap.word 1 ++ ap.word 0).isLt
  split
  · dsimp only
    omega
  · dsimp only
    omega

theorem getint_bounds (ap : VaList) (lflag : Int) :
    -2 ^ 63 ≤ (getint ap lflag).1 ∧ (getint ap lflag).1 < 2 ^ 63 := by
  have hlo := (ap.word 0).le_toInt
  have hhi := (ap.word 0).toInt_lt
  rw [getint]
  split
  · exact ⟨(ap.word 1 ++ ap.word 0).le_toInt, (ap.word 1 ++ ap.word 0).toInt_lt⟩
  split
  · dsimp only
    omega
  · dsimp only
    omega

/-- The part of a string that is printed, given the precision. -/
def cut (precision : Int) (l : List Byte) : List Byte :=
  if precision < 0 then l else l.take precision.toNat

/-- A character of a string as it is printed; `#` asks for a question mark in place of those that
are not printable. -/
def shown (altflag : Bool) (b : Byte) : Word :=
  let ch : Word := b.signExtend 32
  if altflag ∧ (ch.toInt < 0x20 ∨ 0x7e < ch.toInt) then (chr '?').setWidth 32 else ch

theorem cut_nil (precision : Int) : cut precision [] = [] := by
  rw [cut]
  split
  · rfl
  · exact List.take_nil

theorem cut_cons (precision : Int) (b : Byte) (l : List Byte) :
    cut precision (b :: l) = if precision < 0 ∨ 0 ≤ precision - 1 then
      b :: cut (if precision < 0 then precision else precision - 1) l else [] := by
  rw [cut]
  by_cases hneg : precision < 0
  · rw [if_pos hneg, if_pos (Or.inl hneg), if_pos hneg, cut, if_pos hneg]
  rw [if_neg hneg, if_neg hneg]
  by_cases hpos : 0 ≤ precision - 1
  · rw [if_pos (Or.inr hpos), cut, if_neg (by omega)]
    obtain ⟨n, rfl⟩ : ∃ n : Nat, precision = n + 1 := ⟨(precision - 1).toNat, by omega⟩
    rw [show ((n : Int) + 1).toNat = n + 1 by omega, show ((n : Int) + 1 - 1).toNat = n by omega,
      List.take_succ_cons]
  · rw [if_neg (by omega), show precision.toNat = 0 by omega, List.take_zero]

/-- **The characters of a string**, up to the precision. -/
theorem printChars_writes (altflag : Bool) (l : List Byte) (precision width : Int) : ∃ w,
    Writes (printChars collect altflag l precision width)
      ((cut precision l).map (shown altflag)) w ∧
      (-2 ^ 31 ≤ width - (cut precision l).length → width < 2 ^ 31 →
        w = width - (cut precision l).length) := by
  induction l generalizing precision width with
  | nil =>
    rw [cut_nil]
    exact ⟨width, Writes.pure width, fun _ _ => (Int.sub_zero width).symm⟩
  | cons b bs ih =>
    rw [cut_cons, printChars]
    by_cases hgo : precision < 0 ∨ 0 ≤ precision - 1
    · rw [if_pos hgo, if_pos hgo]
      obtain ⟨w, hw, hwidth⟩ := ih (if precision < 0 then precision else precision - 1)
        (int32 (width - 1))
      refine ⟨w, ?_, fun hlo hhi => ?_⟩
      · rw [List.map_cons]
        dsimp only
        by_cases halt : altflag = true ∧ ((b.signExtend 32 : Word).toInt < 0x20 ∨
            0x7e < (b.signExtend 32 : Word).toInt)
        · rw [if_pos halt, shown, if_pos halt]
          exact (emit_writes _).bind hw
        · rw [if_neg halt, shown, if_neg halt]
          exact (emit_writes _).bind hw
      · rw [List.length_cons] at hlo ⊢
        have hw1 : int32 (width - 1) = width - 1 := int32_of_bounds (by omega) (by omega)
        rw [hwidth (by omega) (by omega), hw1]
        omega
    · rw [if_neg hgo, if_neg hgo]
      exact ⟨width, Writes.pure width, fun _ _ => (Int.sub_zero width).symm⟩

theorem strnlen_eq (l : List Byte) (size : Nat) : strnlen l size = min l.length size := by
  induction l generalizing size with
  | nil => rw [strnlen, List.length_nil, Nat.zero_min]
  | cons b bs ih =>
    cases size with
    | zero => rw [strnlen, Nat.min_zero]
    | succ size => rw [strnlen, ih, List.length_cons, Nat.add_min_add_right]

/-- `strnlen`, as it is called, counts the characters that are printed. -/
theorem strnlen_cut {precision : Int} (hlo : -1 ≤ precision) (hhi : precision < 2 ^ 31)
    {l : List Byte} (hl : (cut precision l).length < 2 ^ 30) :
    strnlen l (BitVec.ofInt 32 precision).toNat = (cut precision l).length := by
  rw [strnlen_eq]
  by_cases hneg : precision < 0
  · obtain rfl : precision = -1 := by omega
    rw [cut, if_pos (by decide)] at hl ⊢
    have hsize : (BitVec.ofInt 32 (-1)).toNat = 2 ^ 32 - 1 := by decide
    rw [hsize]
    omega
  · rw [cut, if_neg hneg, List.length_take]
    obtain ⟨n, rfl⟩ : ∃ n : Nat, precision = n := ⟨precision.toNat, by omega⟩
    rw [Nat.min_comm, BitVec.toNat_ofInt, Int.emod_eq_of_lt (by omega) (by omega)]

theorem printStr_total (p : CString) (v : Locals) :
    ∃ text, Writes (printStr collect p v) text () := by
  rw [printStr]
  dsimp only
  split
  · obtain ⟨w, hw, -⟩ := printChars_writes v.altflag p.bytes v.precision
      (min (int32 (v.width - int32 (strnlen p.bytes (BitVec.ofInt 32 v.precision).toNat))) 0)
    exact ⟨_, (emitTimes_writes _ _).bind (hw.bind (emitTimes_writes _ _))⟩
  · obtain ⟨w, hw, -⟩ := printChars_writes v.altflag p.bytes v.precision v.width
    exact ⟨_, hw.bind (emitTimes_writes _ _)⟩

/-- **`%s`** prints the string, up to the precision, after as much padding as it takes to fill up
the width. -/
theorem printStr_writes (p : CString) (v : Locals) (hpad : v.padc ≠ chr '-')
    (hprec : -1 ≤ v.precision) (hprec' : v.precision < 2 ^ 31) (hwidth : -1 ≤ v.width)
    (hwidth' : v.width < 2 ^ 31) (hlen : (cut v.precision p.bytes).length < 2 ^ 30) :
    Writes (printStr collect p v)
      (chars (List.replicate (v.width - (cut v.precision p.bytes).length).toNat v.padc) ++
        (cut v.precision p.bytes).map (shown v.altflag)) () := by
  have hcount := strnlen_cut hprec hprec' hlen
  generalize hn : (cut v.precision p.bytes).length = n at hcount hlen
  rw [printStr, chars, List.map_replicate]
  dsimp only
  rw [hcount]
  have hsmall : int32 n = n := int32_of_bounds (by omega) (by omega)
  by_cases hpos : 0 < v.width
  · have hw : int32 (v.width - int32 n) = v.width - n := by
      rw [hsmall]
      exact int32_of_bounds (by omega) (by omega)
    rw [if_pos ⟨hpos, hpad⟩, hw]
    obtain ⟨w, hchars, hrest⟩ := printChars_writes v.altflag p.bytes v.precision
      (min (v.width - n) 0)
    rw [hn] at hrest
    have hdone : w.toNat = 0 := by
      have := hrest (by omega) (by omega)
      omega
    have hend := emitTimes_writes ((chr ' ').setWidth 32) w.toNat
    rw [hdone] at hend
    exact (emitTimes_writes _ _).bind (hchars.then_return (hdone ▸ hend))
  · rw [if_neg fun hh => hpos hh.1]
    obtain ⟨w, hchars, hrest⟩ := printChars_writes v.altflag p.bytes v.precision v.width
    rw [hn] at hrest
    have hdone : w.toNat = 0 := by
      have := hrest (by omega) (by omega)
      omega
    have hnone : (v.width - n).toNat = 0 := by omega
    have hend := emitTimes_writes ((chr ' ').setWidth 32) w.toNat
    rw [hdone] at hend
    rw [hnone, List.replicate_zero, List.nil_append]
    exact hchars.then_return (hdone ▸ hend)

end Jos
