import Jos.Printfmt.Directive

/-!
# Numbers, printed and read back

What `%d`, `%u`, `%o` and `%x` print is the number in the base asked for, after a sign and after
padding.  `strtol` of `lib/string.c` reads it back.
-/

set_option autoImplicit false

namespace Jos

open Command

/-! ## `strtol` -/

/-- The value of a digit, or of a letter. -/
def digit (ch : Byte) : Option Int :=
  if chr '0' ≤ ch ∧ ch ≤ chr '9' then some (ch.toNat - (chr '0').toNat)
  else if chr 'a' ≤ ch ∧ ch ≤ chr 'z' then some (ch.toNat - (chr 'a').toNat + 10)
  else if chr 'A' ≤ ch ∧ ch ≤ chr 'Z' then some (ch.toNat - (chr 'A').toNat + 10)
  else none

/-- The loop over the digits: the value, and the rest of the string. -/
def readDigits (base : Int) : List Byte → Word → Word × List Byte
  | [], val => (val, [])
  | ch :: s, val =>
    match digit ch with
    | none => (val, ch :: s)
    | some dig =>
      if base ≤ dig then (val, ch :: s)
      else readDigits base s (val * BitVec.ofInt 32 base + BitVec.ofInt 32 dig)

/-- Initial whitespace. -/
def skipBlank (s : List Byte) : List Byte := s.dropWhile fun ch => ch = chr ' ' ∨ ch = chr '\t'

/-- A sign; `true` is a minus. -/
def readSign : List Byte → Bool × List Byte
  | [] => (false, [])
  | ch :: s =>
    if ch = chr '+' then (false, s)
    else if ch = chr '-' then (true, s)
    else (false, ch :: s)

/-- The base, with the prefix that says it. -/
def readBase (s : List Byte) (base : Int) : Int × List Byte :=
  if (base = 0 ∨ base = 16) ∧ s[0]? = some (chr '0') ∧ s[1]? = some (chr 'x') then (16, s.drop 2)
  else if base = 0 ∧ s[0]? = some (chr '0') then (8, s.drop 1)
  else if base = 0 then (10, s)
  else (base, s)

/-- `strtol`: the value, and the rest of the string. -/
def strtol (s : List Byte) (base : Int) : Word × List Byte :=
  let (neg, s) := readSign (skipBlank s)
  let (base, s) := readBase s base
  let (val, s) := readDigits base s 0#32
  (if neg then -val else val, s)

/-! ## What is printed -/

/-- The base that a number is printed in. -/
def Conv.base : Conv → Option Nat
  | .d | .u => some 10
  | .o => some 8
  | .x => some 16
  | _ => none

/-- The sign that is printed. -/
def signText (kind : Conv) (x : Word) : List Byte :=
  if kind = .d ∧ x.toInt < 0 then [chr '-'] else []

/-- The number that is printed after the sign. -/
def magnitude (kind : Conv) (x : Word) : Nat :=
  if kind = .d ∧ x.toInt < 0 then (-x.toInt).toNat else x.toNat

variable {base : Nat} {kind : Conv} {v : Locals}

/-- **A number** is its sign, the padding and its digits, in this order. -/
theorem convert_number {f : CString → VaList → PrintM (List Word) Unit}
    (hbase : kind.base = some base) (hlong : v.lflag = 0) : ∃ n,
      Writes (convert collect f kind v)
        (chars (signText kind (v.ap.word 0) ++ (List.replicate n v.padc ++
          numText base (magnitude kind (v.ap.word 0))))) { v with ap := v.ap.drop 1 } ∧
      (-1 ≤ v.width → v.width < 2 ^ 31 →
        n = (v.width - (numText base (magnitude kind (v.ap.word 0))).length).toNat) := by
  have hlo := (v.ap.word 0).le_toInt
  have hlt := (v.ap.word 0).isLt
  have hb : base = 8 ∨ base = 10 ∨ base = 16 := by
    cases kind <;> simp [Conv.base] at hbase <;> omega
  have hmag : magnitude kind (v.ap.word 0) < 2 ^ 64 := by
    rw [magnitude]
    split <;> omega
  obtain ⟨n, hn, hpad⟩ := printNumber_writes hb hmag v
  refine ⟨n, ?_, hpad⟩
  have hint : getint v.ap v.lflag = ((v.ap.word 0).toInt, v.ap.drop 1) := by
    rw [hlong]
    rfl
  have huint : getuint v.ap v.lflag = ((v.ap.word 0).toNat, v.ap.drop 1) := by
    rw [hlong]
    rfl
  by_cases hneg : kind = .d ∧ (v.ap.word 0).toInt < 0
  · have hneg' := hneg.2
    obtain rfl := hneg.1
    cases hbase
    rw [magnitude, if_pos hneg] at hn
    rw [signText, if_pos hneg, chars_append, magnitude, if_pos hneg]
    simp only [convert, hint, if_pos hneg']
    exact (emit_writes _).bind (hn.then_return (Writes.pure _))
  · rw [magnitude, if_neg hneg] at hn
    rw [signText, if_neg hneg, List.nil_append, magnitude, if_neg hneg]
    cases kind with
    | d =>
      have hpos : ¬ (v.ap.word 0).toInt < 0 := fun h => hneg ⟨rfl, h⟩
      have hnat : (v.ap.word 0).toInt.toNat = (v.ap.word 0).toNat := by
        rw [BitVec.toInt_eq_toNat_cond] at hpos ⊢
        split at hpos <;> omega
      cases hbase
      simp only [convert, hint, if_neg hpos, hnat]
      exact hn.then_return (Writes.pure _)
    | u =>
      cases hbase
      simp only [convert, huint]
      exact hn.then_return (Writes.pure _)
    | o =>
      cases hbase
      simp only [convert, huint]
      exact hn.then_return (Writes.pure _)
    | x =>
      cases hbase
      simp only [convert, huint]
      exact hn.then_return (Writes.pure _)
    | c => cases hbase
    | e => cases hbase
    | s => cases hbase
    | p => cases hbase
    | percent => cases hbase

/-! ## Reading it back -/

theorem digit_digitChar {d : Nat} (hd : d < 16) : digit (digitChar d) = some (d : Int) := by
  have hall : ∀ d < 16, digit (digitChar d) = some (d : Int) := by decide
  exact hall d hd

/-- Digits of the base are all read. -/
theorem readDigits_digits (hb : base ≤ 16) {l : List Byte}
    (hl : ∀ ch ∈ l, ∃ d, d < base ∧ ch = digitChar d) (x : Int) :
    readDigits base l (BitVec.ofInt 32 x) =
      (BitVec.ofInt 32 (l.foldl (fun acc ch => acc * base + (digit ch).getD 0) x), []) := by
  induction l generalizing x with
  | nil => rfl
  | cons ch l ih =>
    obtain ⟨d, hd, rfl⟩ := hl _ (List.mem_cons_self ..)
    have hdigit := digit_digitChar (show d < 16 by omega)
    rw [readDigits, List.foldl_cons, hdigit]
    dsimp only
    rw [if_neg (by omega), ← BitVec.ofInt_mul, ← BitVec.ofInt_add]
    exact ih (fun ch' h => hl ch' (List.mem_cons_of_mem _ h)) _

/-- Zeros in front make no difference. -/
theorem foldl_zeros (n : Nat) (l : List Byte) :
    (List.replicate n (chr '0') ++ l).foldl (fun acc ch => acc * base + (digit ch).getD 0) 0 =
      l.foldl (fun acc ch => acc * (base : Int) + (digit ch).getD 0) 0 := by
  induction n with
  | zero => rfl
  | succ n ih =>
    have hzero : (digit (chr '0')).getD 0 = 0 := by decide
    rw [List.replicate_succ, List.cons_append, List.foldl_cons, hzero, Int.zero_mul]
    exact ih

/-- A digit is neither blank nor a sign, nor the `x` of a prefix. -/
theorem digitChar_ne {d : Nat} (hd : d < 16) : digitChar d ≠ chr ' ' ∧ digitChar d ≠ chr '\t' ∧
    digitChar d ≠ chr '+' ∧ digitChar d ≠ chr '-' ∧ digitChar d ≠ chr 'x' := by
  have hall : ∀ d < 16, digitChar d ≠ chr ' ' ∧ digitChar d ≠ chr '\t' ∧
      digitChar d ≠ chr '+' ∧ digitChar d ≠ chr '-' ∧ digitChar d ≠ chr 'x' := by decide
  exact hall d hd

section

variable {l : List Byte} (hl : ∀ ch ∈ l, ∃ d, d < 16 ∧ ch = digitChar d)
include hl

/-- There is nothing to skip before a sign or a digit. -/
theorem skipBlank_signed (hne : l ≠ []) (neg : Bool) :
    skipBlank ((if neg then [chr '-'] else []) ++ l) = (if neg then [chr '-'] else []) ++ l := by
  cases neg with
  | true => rfl
  | false =>
    obtain ⟨ch, l, rfl⟩ := List.exists_cons_of_ne_nil hne
    obtain ⟨d, hd, rfl⟩ := hl _ (List.mem_cons_self ..)
    have hch := digitChar_ne hd
    simp [skipBlank, hch]

theorem readSign_signed (neg : Bool) :
    readSign ((if neg then [chr '-'] else []) ++ l) = (neg, l) := by
  cases neg with
  | true => rfl
  | false =>
    cases l with
    | nil => rfl
    | cons ch l =>
      obtain ⟨d, hd, rfl⟩ := hl _ (List.mem_cons_self ..)
      have hch := digitChar_ne hd
      simp [readSign, hch]

/-- Digits have no prefix. -/
theorem readBase_digits {base : Int} (hbase : base ≠ 0) : readBase l base = (base, l) := by
  have hx : l[1]? ≠ some (chr 'x') := by
    intro h
    obtain ⟨d, hd, hch⟩ := hl _ (List.mem_of_getElem? h)
    exact (digitChar_ne hd).2.2.2.2 hch.symm
  rw [readBase, if_neg fun h => hx h.2.2, if_neg fun h => hbase h.1, if_neg hbase]

end

/-- **`strtol`** reads a number with zeros in front. -/
theorem strtol_number (hb : base = 8 ∨ base = 10 ∨ base = 16) (neg : Bool) (n m : Nat) :
    strtol
      ((if neg then [chr '-'] else []) ++ (List.replicate n (chr '0') ++ numText base m)) base =
      (if neg then -BitVec.ofNat 32 m else BitVec.ofNat 32 m, []) := by
  have hdigits : ∀ ch ∈ List.replicate n (chr '0') ++ numText base m,
      ∃ d, d < base ∧ ch = digitChar d := by
    intro ch hch
    rcases List.mem_append.1 hch with hch | hch
    · refine ⟨0, by omega, (List.mem_replicate.1 hch).2.trans (by decide)⟩
    · exact mem_numText (by omega) (by omega) hch
  have hhex : ∀ ch ∈ List.replicate n (chr '0') ++ numText base m,
      ∃ d, d < 16 ∧ ch = digitChar d := by
    intro ch hch
    obtain ⟨d, hd, heq⟩ := hdigits ch hch
    exact ⟨d, by omega, heq⟩
  have hne : List.replicate n (chr '0') ++ numText base m ≠ [] := by
    rw [numText_eq (by omega) (by omega)]
    split <;> simp
  have hvalue := @foldl_numText base (by omega) (by omega)
    (fun ch => (digit ch).getD 0) (fun d hd => by
      rw [digit_digitChar (by omega), Option.getD_some]) m
  have hread := readDigits_digits (by omega) hdigits 0
  rw [foldl_zeros, hvalue] at hread
  rw [strtol, skipBlank_signed hhex hne, readSign_signed hhex]
  dsimp only
  rw [readBase_digits hhex (by omega)]
  dsimp only
  rw [show (0#32 : Word) = BitVec.ofInt 32 0 from rfl, hread]
  rfl

/-! ## Both ways -/

/-- The sign and the number give the number. -/
theorem signed_magnitude (kind : Conv) (x : Word) :
    (if decide (kind = .d ∧ x.toInt < 0) then -BitVec.ofNat 32 (magnitude kind x)
      else BitVec.ofNat 32 (magnitude kind x)) = x := by
  by_cases hneg : kind = .d ∧ x.toInt < 0
  · rw [if_pos (decide_eq_true hneg), magnitude, if_pos hneg, ← BitVec.ofInt_natCast,
      Int.toNat_of_nonneg (by omega), BitVec.ofInt_neg, BitVec.ofInt_toInt, BitVec.neg_neg]
  · rw [if_neg (by rwa [decide_eq_true_iff]), magnitude, if_neg hneg, BitVec.ofNat_toNat,
      BitVec.setWidth_eq]

/-- A sign and digits have no NUL. -/
theorem noNul_number (hb : base = 8 ∨ base = 10 ∨ base = 16) (neg : Bool) (n m : Nat) :
    0#8 ∉ (if neg then [chr '-'] else []) ++ (List.replicate n (chr '0') ++ numText base m) := by
  intro h
  rcases List.mem_append.1 h with h | h
  · cases neg <;> exact absurd h (by decide)
  rcases List.mem_append.1 h with h | h
  · exact absurd (List.mem_replicate.1 h).2 (by decide)
  · obtain ⟨d, hd, hz⟩ := mem_numText (by omega) (by omega) h
    have hall : ∀ d < 16, 0#8 ≠ digitChar d := by decide
    exact hall d (by omega) hz

/-- A directive for a number: nothing but the `%` and the conversion, or the `0` flag and a
width. -/
def Directive.PlainOrZero (d : Directive) : Prop :=
  d.precision = none ∧ (d.zero = true ↔ d.width ≠ none)

/-- **Printing a number and reading it back** gives the number, and nothing of the text is left. -/
theorem strtol_printed (d : Directive) (hd : d.PlainOrZero) {base : Nat}
    (hbase : d.conv.base = some base) (ap : VaList) : ∃ text : CString,
      Generates d.format ap (chars text.bytes) ∧ strtol text.bytes base = (ap.word 0, []) := by
  obtain ⟨hprec, hzero⟩ := hd
  have hb : base = 8 ∨ base = 10 ∨ base = 16 := by
    cases hk : d.conv <;> simp [Conv.base, hk] at hbase <;> omega
  obtain ⟨n, hn, hpad⟩ := convert_number (f := printfmt collect) (v := d.locals 1 ap 0#32) hbase rfl
  -- the padding is zeros, or there is none
  have hzeros : List.replicate n d.padc = List.replicate n (chr '0') := by
    cases hz : d.zero with
    | true => rw [Directive.padc, if_pos (Or.inl hz)]
    | false =>
      have hw : d.width = none := by
        by_contra hne
        rw [hzero.2 hne] at hz
        cases hz
      have hwidth : (d.locals 1 ap 0#32).width = -1 := by
        simp [Directive.locals, Directive.widthVar, hprec, hw, Directive.widthValue]
      rw [hpad (by omega) (by omega), hwidth]
      rw [show (-1 - (numText base _).length : Int).toNat = 0 by omega]
      rfl
  have hsign : signText d.conv (ap.word 0) =
      if decide (d.conv = .d ∧ (ap.word 0).toInt < 0) then [chr '-'] else [] := by
    rw [signText]
    by_cases hneg : d.conv = .d ∧ (ap.word 0).toInt < 0
    · rw [if_pos hneg, if_pos (decide_eq_true hneg)]
    · rw [if_neg hneg, if_neg (by rwa [decide_eq_true_iff])]
  change Writes _ (chars (signText d.conv (ap.word 0) ++ (List.replicate n d.padc ++
    numText base (magnitude d.conv (ap.word 0))))) _ at hn
  rw [hzeros, hsign] at hn
  refine ⟨⟨_, noNul_number hb _ n _⟩, d.generates hn rfl, ?_⟩
  dsimp only
  rw [strtol_number hb, signed_magnitude]

/-- The most negative number. -/
theorem strtol_printed_min :
    let d : Directive := ⟨true, some 15, none, .d, by decide⟩
    let ap : VaList := ⟨fun _ => 0x80000000#32, fun _ => nullText⟩
    d.PlainOrZero ∧ d.conv.base = some 10 ∧ ∃ text : CString,
      Generates d.format ap (chars text.bytes) ∧
      strtol text.bytes (10 : Nat) = (ap.word 0, []) := by
  intro d ap
  have hd : d.PlainOrZero := ⟨rfl, by decide⟩
  exact ⟨hd, rfl, strtol_printed d hd rfl ap⟩

end Jos
