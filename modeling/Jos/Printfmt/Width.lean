import Jos.Printfmt.Number

/-!
# The width of a field

A directive is to write as many characters as its width says, or as its text has if these are more.
It does so but for two cases: the sign of a negative number is printed before the padding and not
counted, and a precision of zero is read as the flag `0`.
-/

set_option autoImplicit false

namespace Jos

open Command

variable {fmt : CString} {a : VaList} {c : Word} {k : Nat}

namespace Directive

/-- The string that `%s` is given. -/
def stringArg (a : VaList) : List Byte :=
  (if a.word 0 = 0#32 then nullText else a.string (a.word 0)).bytes

/-- The text that is to be printed, without padding: the string up to the precision, or the number
with its sign. -/
def unpadded (d : Directive) (a : VaList) : List Word :=
  match d.conv.base with
  | some base => chars (signText d.conv (a.word 0) ++ numText base (magnitude d.conv (a.word 0)))
  | none =>
    ((match d.precision with
      | none => stringArg a
      | some p => (stringArg a).take p).map (shown false))

/-- A directive of the form `%[0][w][.p]s` or `%[0][w]` with `d`, `u`, `o` or `x`; its numbers are
values of an `int`. -/
structure Formed (d : Directive) : Prop where
  conv : d.conv = .s ∨ (d.precision = none ∧ d.conv.base ≠ none)
  width : ∀ w ∈ d.width, w < 2 ^ 31
  precision : ∀ p ∈ d.precision, p < 2 ^ 31

/-- What the output should be. -/
structure Law (d : Directive) (a : VaList) (out : List Word) : Prop where
  length : out.length = max (d.width.getD 0) (d.unpadded a).length
  spaces : d.zero = false → out =
    List.replicate (out.length - (d.unpadded a).length) ((chr ' ').setWidth 32) ++ d.unpadded a

/-- The cases in which it is. -/
def Lawful (d : Directive) (a : VaList) : Prop :=
  match d.conv.base with
  | some base => d.conv = .d → (a.word 0).toInt < 0 →
      d.width.getD 0 ≤ (numText base (magnitude d.conv (a.word 0))).length
  | none => d.precision = some 0 → if d.zero then (stringArg a).length ≤ d.width.getD 0
      else stringArg a = List.replicate (d.width.getD 0) (chr ' ')

variable {d : Directive} {out : List Word}

/-! ## The variables -/

theorem Formed.widthValue_eq (hd : d.Formed) :
    widthValue d.width = -1 ∧ d.width = none ∨ widthValue d.width = d.width.getD 0 := by
  cases hw : d.width with
  | none => exact Or.inl ⟨rfl, rfl⟩
  | some w =>
    have hlt := hd.width w hw
    exact Or.inr (int32_of_bounds (by omega) (by omega))

theorem Formed.widthVar_bounds (hd : d.Formed) : -1 ≤ d.widthVar ∧ d.widthVar < 2 ^ 31 := by
  have hlt : d.width.getD 0 < 2 ^ 31 := by
    cases hw : d.width with
    | none => exact Nat.two_pow_pos 31
    | some w => exact hd.width w hw
  rw [widthVar]
  rcases hd.widthValue_eq with ⟨h, -⟩ | h
  · rw [h]
    split <;> omega
  · rw [h]
    split <;> omega

/-- As much padding as there are characters missing. -/
theorem Formed.padding (hd : d.Formed) (n : Nat) :
    (d.widthVar - n).toNat = d.width.getD 0 - n := by
  rw [widthVar]
  rcases hd.widthValue_eq with ⟨h, hw⟩ | h
  · rw [h, hw, Option.getD_none]
    split <;> omega
  · rw [h]
    split <;> omega

theorem Formed.precisionValue_bounds (hd : d.Formed) :
    -1 ≤ precisionValue d.precision ∧ precisionValue d.precision < 2 ^ 31 := by
  cases hp : d.precision with
  | none =>
    rw [precisionValue]
    omega
  | some p =>
    have hlt := hd.precision p hp
    have hint : int32 p = p := int32_of_bounds (by omega) (by omega)
    rw [precisionValue, hint]
    split <;> omega

/-- A precision cuts the string, but for a precision of zero. -/
theorem Formed.cut_eq (hd : d.Formed) (hne : d.precision ≠ some 0) (l : List Byte) :
    cut (precisionValue d.precision) l = match d.precision with
      | none => l
      | some p => l.take p := by
  cases hp : d.precision with
  | none => rfl
  | some p =>
    have hlt := hd.precision p hp
    have hint : int32 p = p := int32_of_bounds (by omega) (by omega)
    have hzero : p ≠ 0 := fun h => hne (by rw [hp, h])
    rw [precisionValue, if_neg hzero, hint, cut, if_neg (by omega), Int.toNat_natCast]

theorem padc_of_not_zero (h : d.zero = false) (hne : d.precision ≠ some 0) : d.padc = chr ' ' :=
  if_neg fun hor => hor.elim (fun hz => by rw [h] at hz; cases hz) hne

/-! ## Numbers -/

/-- **The field of a number.** -/
theorem Formed.number (hd : d.Formed) {base : Nat} (hbase : d.conv.base = some base)
    {n : Nat} (hn : n = d.width.getD 0 - (numText base (magnitude d.conv (a.word 0))).length) :
    d.Law a (chars (signText d.conv (a.word 0) ++ (List.replicate n d.padc ++
      numText base (magnitude d.conv (a.word 0))))) ↔ d.Lawful a := by
  have hprec : d.precision = none := by
    rcases hd.conv with hs | h
    · rw [hs] at hbase
      cases hbase
    · exact h.1
  have htext : d.unpadded a =
      chars (signText d.conv (a.word 0) ++ numText base (magnitude d.conv (a.word 0))) := by
    rw [unpadded, hbase]
  have hlawful : d.Lawful a ↔ (d.conv = .d → (a.word 0).toInt < 0 →
      d.width.getD 0 ≤ (numText base (magnitude d.conv (a.word 0))).length) := by
    rw [Lawful, hbase]
  rw [hlawful]
  generalize numText base (magnitude d.conv (a.word 0)) = digits at hn htext ⊢
  constructor
  · intro hlaw hconv hneg
    have hlen := hlaw.length
    rw [htext, signText, if_pos ⟨hconv, hneg⟩] at hlen
    simp only [chars_length, List.length_append, List.length_replicate,
      List.length_singleton] at hlen
    omega
  · intro hle
    by_cases hneg : d.conv = .d ∧ (a.word 0).toInt < 0
    · -- there is no padding
      have hzero : n = 0 := by
        have := hle hneg.1 hneg.2
        omega
      rw [hzero, List.replicate_zero, List.nil_append, ← htext]
      refine ⟨?_, fun _ => ?_⟩
      · have := hle hneg.1 hneg.2
        rw [htext, chars_length, List.length_append]
        omega
      · rw [Nat.sub_self, List.replicate_zero, List.nil_append]
    · rw [signText, if_neg hneg, List.nil_append] at htext ⊢
      refine ⟨?_, fun hz => ?_⟩
      · rw [htext]
        simp only [chars_length, List.length_append, List.length_replicate]
        omega
      · have hspace := padc_of_not_zero hz (by rw [hprec]; exact (Option.some_ne_none 0).symm)
        rw [chars_append, htext, List.length_append, Nat.add_sub_cancel, hspace, chars_length,
          List.length_replicate, chars, List.map_replicate]

/-! ## Strings -/

/-- A character is printed as it is. -/
theorem shown_space (b : Byte) : shown false b = (chr ' ').setWidth 32 ↔ b = chr ' ' := by
  have hall : ∀ b : Byte, shown false b = (chr ' ').setWidth 32 ↔ b = chr ' ' := by decide
  exact hall b

/-- A string that is filled up with zeros is all spaces only if it is so on its own. -/
theorem filled_eq_spaces {n w : Nat} {s : List Byte} (hn : n = w - s.length) :
    chars (List.replicate n (chr '0')) ++ s.map (shown false) =
      List.replicate w ((chr ' ').setWidth 32) ↔ s = List.replicate w (chr ' ') := by
  rw [List.eq_replicate_iff, List.eq_replicate_iff, List.length_append, chars_length,
    List.length_replicate, List.length_map]
  constructor
  · rintro ⟨hlen, hall⟩
    have hzero : n = 0 := by
      by_contra hne
      have hmem : (chr '0').setWidth 32 ∈ chars (List.replicate n (chr '0')) :=
        List.mem_map_of_mem (List.mem_replicate.2 ⟨hne, rfl⟩)
      exact absurd (hall _ (List.mem_append_left _ hmem)) (by decide)
    refine ⟨by omega, fun b hb => (shown_space b).1 (hall _ ?_)⟩
    exact List.mem_append_right _ (List.mem_map_of_mem hb)
  · rintro ⟨hlen, hall⟩
    obtain rfl : n = 0 := by omega
    refine ⟨by omega, fun ch hch => ?_⟩
    obtain ⟨b, hb, rfl⟩ := List.mem_map.1 hch
    exact (shown_space b).2 (hall b hb)

/-- **The field of a string.** -/
theorem Formed.string (hd : d.Formed) (hbase : d.conv.base = none) {n : Nat}
    (hn : n = d.width.getD 0 - (cut (precisionValue d.precision) (stringArg a)).length) :
    d.Law a (chars (List.replicate n d.padc) ++
      (cut (precisionValue d.precision) (stringArg a)).map (shown false)) ↔ d.Lawful a := by
  have hlawful : d.Lawful a ↔ (d.precision = some 0 → if d.zero then
      (stringArg a).length ≤ d.width.getD 0
      else stringArg a = List.replicate (d.width.getD 0) (chr ' ')) := by
    rw [Lawful, hbase]
  have htext : d.unpadded a = ((match d.precision with
      | none => stringArg a
      | some p => (stringArg a).take p).map (shown false)) := by
    rw [unpadded, hbase]
  rw [hlawful]
  by_cases hp : d.precision = some 0
  · -- the whole string is printed, after zeros
    have hcut : cut (precisionValue d.precision) (stringArg a) = stringArg a := by
      rw [hp]
      rfl
    have hnil : d.unpadded a = [] := by
      rw [htext, hp]
      rfl
    have hpadc : d.padc = chr '0' := if_pos (Or.inr hp)
    rw [hcut] at hn
    rw [hcut, hpadc]
    have hspaces := filled_eq_spaces hn
    have hlen : (chars (List.replicate n (chr '0')) ++ (stringArg a).map (shown false)).length =
        n + (stringArg a).length := by
      rw [List.length_append, chars_length, List.length_replicate, List.length_map]
    constructor
    · intro hlaw _
      have hmax := hlaw.length
      rw [hlen, hnil, List.length_nil, Nat.max_zero] at hmax
      split
      · omega
      · next hz =>
        have hout := hlaw.spaces (Bool.eq_false_iff.2 hz)
        rw [hnil, List.length_nil, Nat.sub_zero, List.append_nil, hlen, hmax] at hout
        exact hspaces.1 hout
    · intro hle
      replace hle := hle hp
      have hmax : n + (stringArg a).length = d.width.getD 0 := by
        split at hle
        · omega
        · have hwidth := congrArg List.length hle
          rw [List.length_replicate] at hwidth
          omega
      refine ⟨by rw [hlen, hnil, List.length_nil, Nat.max_zero, hmax], fun hz => ?_⟩
      rw [if_neg (Bool.eq_false_iff.1 hz)] at hle
      rw [hlen, hmax, hnil, List.length_nil, Nat.sub_zero, List.append_nil]
      exact hspaces.2 hle
  · have hsame : (cut (precisionValue d.precision) (stringArg a)).map (shown false) =
        d.unpadded a := by
      rw [htext, hd.cut_eq hp]
    have hlen : (d.unpadded a).length =
        (cut (precisionValue d.precision) (stringArg a)).length := by
      rw [← hsame, List.length_map]
    refine iff_of_true ?_ fun h => absurd h hp
    rw [hsame]
    refine ⟨?_, fun hz => ?_⟩
    · rw [List.length_append, chars_length, List.length_replicate]
      omega
    · rw [List.length_append, Nat.add_sub_cancel, padc_of_not_zero hz hp, chars_length,
        List.length_replicate, chars, List.map_replicate]

end Directive

/-! ## The law -/

open Directive in
/-- **The width of a field.** The directive, anywhere in a format, writes what it should if and only
if `Lawful` says so.  (With a string of `2 ^ 30` characters or more an `int` can overflow.) -/
theorem directive_law_iff {f : CString → VaList → PrintM (List Word) Unit} {d : Directive}
    (hd : d.Formed) (hat : At fmt (k + 1) d.bytes)
    (hlen : d.conv = .s → (cut (precisionValue d.precision) (stringArg a)).length < 2 ^ 30) :
    ∃ out v, Writes (directive collect f fmt { fmt := k + 1, ap := a, color := c }) out v ∧
      v.fmt = k + 1 + d.bytes.length ∧ (d.Law a out ↔ d.Lawful a) := by
  obtain ⟨hlo, hhi⟩ := hd.widthVar_bounds
  rcases hd.conv with hs | ⟨-, hbase⟩
  · obtain ⟨hprec, hprec'⟩ := hd.precisionValue_bounds
    have hpad : d.padc ≠ chr '-' := by
      rw [Directive.padc]
      split <;> decide
    have hstr := printStr_writes (if a.word 0 = 0#32 then nullText else a.string (a.word 0))
      (d.locals (k + 1) a c) hpad hprec hprec' hlo hhi (hlen hs)
    have hconv : Writes (convert collect f d.conv (d.locals (k + 1) a c))
        (chars (List.replicate (d.widthVar - (cut (precisionValue d.precision)
          (stringArg a)).length).toNat d.padc) ++
          (cut (precisionValue d.precision) (stringArg a)).map (shown false))
        { d.locals (k + 1) a c with ap := a.drop 1 } := by
      rw [hs]
      exact hstr.then_return (Writes.pure _)
    exact ⟨_, _, d.writes hat hconv, rfl, hd.string (by rw [hs]; rfl) (hd.padding _)⟩
  · obtain ⟨base, hbase⟩ := Option.ne_none_iff_exists'.1 hbase
    obtain ⟨n, hn, hpad⟩ := convert_number (f := f) (v := d.locals (k + 1) a c) hbase rfl
    exact ⟨_, _, d.writes hat hn, rfl, hd.number hbase ((hpad hlo hhi).trans (hd.padding _))⟩

open Directive in
/-- A width of three and a string that is shorter. -/
theorem directive_law_iff_string :
    let f : CString → VaList → PrintM (List Word) Unit := fun _ _ => pure ()
    let d : Directive := ⟨false, some 3, none, .s, by decide⟩
    let a : VaList := ⟨fun _ => 1#32, fun _ => ⟨ascii "a", by decide⟩⟩
    d.Formed ∧ At d.format 1 d.bytes ∧
      ∃ out v, Writes (directive collect f d.format { fmt := 1, ap := a, color := 0#32 }) out v ∧
        v.fmt = 1 + d.bytes.length ∧ (d.Law a out ↔ d.Lawful a) := by
  intro f d a
  have hd : d.Formed := ⟨Or.inl rfl, by decide, by decide⟩
  have hat : At d.format 1 d.bytes := List.prefix_refl _
  exact ⟨hd, hat, directive_law_iff (k := 0) hd hat fun _ => by decide⟩

open Directive in
/-- Five characters wide, `-1` takes six: the sign, then four spaces. -/
theorem not_law_negative :
    let d : Directive := ⟨false, some 5, none, .d, by decide⟩
    let a : VaList := ⟨fun _ => 0xffffffff#32, fun _ => nullText⟩
    d.Formed ∧ Generates d.format a (chars (ascii "-    1")) ∧
      ¬ d.Law a (chars (ascii "-    1")) := by
  intro d a
  refine ⟨⟨Or.inr ⟨rfl, by decide⟩, by decide, by decide⟩, by rfl, fun hlaw => ?_⟩
  exact absurd hlaw.length (by decide)

end Jos
