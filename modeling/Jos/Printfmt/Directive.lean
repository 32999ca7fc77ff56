import Jos.Printfmt.Total

/-!
# Well-formed directives

`%[0][w][.p]` and a character that ends it, with the width and the precision in decimal: what
`vprintfmt` makes of such a directive, byte by byte.
-/

set_option autoImplicit false

namespace Jos

open Command CString

variable {fmt : CString} {ap a : VaList} {c : Word} {k : Nat} {ch : Byte} {v v' : Locals}
variable {l l' : List Byte}

/-! ## The digits of a number -/

theorem mem_numText {base : Nat} (hb : 1 < base) (hb' : base ≤ 16) {n : Nat}
    (h : ch ∈ numText base n) : ∃ d, d < base ∧ ch = digitChar d := by
  induction n using Nat.strong_induction_on with
  | _ n ih =>
    rw [numText_eq hb hb'] at h
    split at h
    · next hlt => exact ⟨n, hlt, List.mem_singleton.1 h⟩
    · next hge =>
      rcases List.mem_append.1 h with h | h
      · exact ih (n / base) (Nat.div_lt_self (by omega) hb) h
      · exact ⟨n % base, Nat.mod_lt n (by omega), List.mem_singleton.1 h⟩

/-- The first digit is not a zero. -/
theorem numText_cons {base : Nat} (hb : 1 < base) (hb' : base ≤ 16) {n : Nat} (hn : 0 < n) :
    ∃ d l, 0 < d ∧ d < base ∧ numText base n = digitChar d :: l := by
  induction n using Nat.strong_induction_on with
  | _ n ih =>
    rw [numText_eq hb hb']
    split
    · next hlt => exact ⟨n, [], hn, hlt, rfl⟩
    · next hge =>
      obtain ⟨d, l, hd, hlt, hl⟩ := ih (n / base) (Nat.div_lt_self hn hb)
        (Nat.div_pos (by omega) (by omega))
      exact ⟨d, l ++ [digitChar (n % base)], hd, hlt, by rw [hl, List.cons_append]⟩

/-- Reading the digits one after the other gives the number. -/
theorem foldl_numText {base : Nat} (hb : 1 < base) (hb' : base ≤ 16) (value : Byte → Int)
    (hvalue : ∀ d < base, value (digitChar d) = d) (n : Nat) :
    (numText base n).foldl (fun acc ch => acc * base + value ch) 0 = n := by
  induction n using Nat.strong_induction_on with
  | _ n ih =>
    rw [numText_eq hb hb']
    split
    · next hlt =>
      rw [List.foldl_cons, List.foldl_nil, hvalue n hlt]
      omega
    · next hge =>
      rw [List.foldl_append, ih (n / base) (Nat.div_lt_self (by omega) hb), List.foldl_cons,
        List.foldl_nil, hvalue _ (Nat.mod_lt n (by omega))]
      have hdm := Nat.div_add_mod n base
      rw [Nat.mul_comm] at hdm
      exact_mod_cast hdm

theorem label_digitChar {d : Nat} (hpos : 0 < d) (hlt : d < 10) :
    label (digitChar d) = .flag .digit := by
  have hall : ∀ d < 10, 0 < d → label (digitChar d) = .flag .digit := by decide
  exact hall d hlt hpos

theorem digitChar_toNat {d : Nat} (hlt : d < 10) : ((digitChar d).toNat : Int) - 48 = d := by
  have hall : ∀ d < 10, ((digitChar d).toNat : Int) - 48 = d := by decide
  exact hall d hlt

theorem digitChar_decimal {d : Nat} (hlt : d < 10) :
    ¬ (digitChar d < chr '0' ∨ chr '9' < digitChar d) := by
  have hall : ∀ d < 10, ¬ (digitChar d < chr '0' ∨ chr '9' < digitChar d) := by decide
  exact hall d hlt

/-! ## Text inside a format -/

/-- The bytes from position `k` on start with `l`. -/
def At (fmt : CString) (k : Nat) (l : List Byte) : Prop := l <+: fmt.bytes.drop k

theorem At.head (h : At fmt k (ch :: l)) : fmt.get? k = some ch := by
  obtain ⟨post, hpost⟩ := h
  have hk : fmt.bytes[k]? = some ch := by
    rw [← List.head?_drop, ← hpost]
    rfl
  rw [CString.get?, List.getElem?_append_left (List.getElem?_eq_some_iff.1 hk).1, hk]

theorem At.tail (h : At fmt k (ch :: l)) : At fmt (k + 1) l := by
  obtain ⟨post, hpost⟩ := h
  refine ⟨post, ?_⟩
  rw [← List.tail_drop, ← hpost]
  rfl

theorem At.left (h : At fmt k (l ++ l')) : At fmt k l := (List.prefix_append l l').trans h

theorem At.right (h : At fmt k (l ++ l')) : At fmt (k + l.length) l' := by
  obtain ⟨post, hpost⟩ := h
  refine ⟨post, ?_⟩
  rw [← List.drop_drop, ← hpost, List.append_assoc, List.drop_left]

/-! ## Reading one flag after the other -/

/-- Reading the flags from `v` on comes to `r`. -/
def ReadsTo (fmt : CString) (v : Locals) (r : Label × Locals) : Prop :=
  ∀ fuel, fmt.bytes.length + 1 < fuel + v.fmt → Writes (readFlags fmt fuel v) [] r

variable {r : Label × Locals}

theorem ReadsTo.conv {kind : Conv} {q : Nat} (hch : fmt.get? v.fmt = some ch)
    (hl : label ch = .conv kind) (hq : q = v.fmt + 1) :
    ReadsTo fmt v (.conv kind, { v with fmt := q }) := by
  subst hq
  intro fuel hfuel
  have hle := get?_le hch
  obtain ⟨fuel, rfl⟩ : ∃ n, fuel = n + 1 := ⟨fuel - 1, by omega⟩
  rw [readFlags]
  refine (readFmt_writes hch).bind_nil ?_
  dsimp only
  rw [hl]
  exact Writes.pure _

theorem ReadsTo.flag {f : Flag} (hch : fmt.get? v.fmt = some ch) (hl : label ch = .flag f)
    (hflag : ∀ fuel, fmt.bytes.length < fuel + v.fmt →
      Writes (readFlag fmt fuel ch { v with fmt := v.fmt + 1 } f) [] v')
    (hlt : v.fmt < v'.fmt) (hrest : ReadsTo fmt v' r) : ReadsTo fmt v r := by
  intro fuel hfuel
  have hle := get?_le hch
  obtain ⟨fuel, rfl⟩ : ∃ n, fuel = n + 1 := ⟨fuel - 1, by omega⟩
  rw [readFlags]
  refine (readFmt_writes hch).bind_nil ?_
  dsimp only
  rw [hl]
  exact (hflag _ (by omega)).bind_nil (hrest fuel (by omega))

theorem ReadsTo.zero (hch : fmt.get? v.fmt = some (chr '0'))
    (hrest : ReadsTo fmt { v with fmt := v.fmt + 1, padc := chr '0' } r) : ReadsTo fmt v r :=
  ReadsTo.flag (f := .zero) hch (by decide) (fun _ _ => Writes.pure _) (Nat.lt_succ_self _) hrest

theorem ReadsTo.dot (hch : fmt.get? v.fmt = some (chr '.'))
    (hrest :
      ReadsTo fmt { v with fmt := v.fmt + 1, width := if v.width < 0 then 0 else v.width } r) :
    ReadsTo fmt v r :=
  ReadsTo.flag (f := .dot) hch (by decide) (fun _ _ => Writes.pure _) (Nat.lt_succ_self _) hrest

theorem int32_step (x y : Int) : int32 (int32 x * 10 + y - 48) = int32 (x * 10 + (y - 48)) := by
  rw [int32, int32, int32, Int.add_sub_assoc, Int.add_bmod_eq_add_bmod_right (y - 48)]
  exact Int.bmod_mul_bmod

/-- The digits of a number are read up to the first byte that is none. -/
theorem readNumber_digits (fuel : Nat) (ch : Byte) {e : Byte} (x : Int) (hat : At fmt k l)
    (hdigits : ∀ d ∈ l, ¬ (d < chr '0' ∨ chr '9' < d)) (he : fmt.get? (k + l.length) = some e)
    (hend : e < chr '0' ∨ chr '9' < e) (hfuel : l.length < fuel) :
    Writes (readNumber fmt fuel k (int32 x) ch) []
      (int32 ((ch :: l).foldl (fun acc d => acc * 10 + ((d.toNat : Int) - 48)) x),
        k + l.length) := by
  induction l generalizing k fuel ch x with
  | nil =>
    obtain ⟨fuel, rfl⟩ : ∃ n, fuel = n + 1 := ⟨fuel - 1, by omega⟩
    rw [readNumber, int32_step]
    refine (readFmt_writes he).bind_nil ?_
    rw [if_pos hend]
    exact Writes.pure _
  | cons d l ih =>
    obtain ⟨fuel, rfl⟩ : ∃ n, fuel = n + 1 := ⟨fuel - 1, by omega⟩
    rw [List.length_cons] at he hfuel ⊢
    rw [readNumber, int32_step, List.foldl_cons]
    refine (readFmt_writes hat.head).bind_nil ?_
    have hlen : k + (l.length + 1) = k + 1 + l.length := by omega
    rw [if_neg (hdigits d (List.mem_cons_self ..)), hlen]
    exact ih _ _ _ hat.tail (fun d' hd => hdigits d' (List.mem_cons_of_mem d hd))
      (by rwa [Nat.add_assoc, Nat.add_comm 1]) (by omega)

/-- **A width or a precision** in decimal. -/
theorem ReadsTo.number {n : Nat} (hn : 0 < n) {e : Byte} (hat : At fmt v.fmt (numText 10 n))
    (he : fmt.get? (v.fmt + (numText 10 n).length) = some e) (hend : e < chr '0' ∨ chr '9' < e)
    (hrest : ReadsTo fmt
      ({ v with fmt := v.fmt + (numText 10 n).length }.processPrecision (int32 n)) r) :
    ReadsTo fmt v r := by
  obtain ⟨d, l, hpos, hlt, hl⟩ := numText_cons (by decide) (by decide : 10 ≤ 16) hn
  have hvalue : (numText 10 n).foldl (fun acc d => acc * 10 + ((d.toNat : Int) - 48)) 0 = n :=
    foldl_numText (by decide) (by decide : 10 ≤ 16) _ (fun d hd => digitChar_toNat hd) n
  have hall : ∀ d' ∈ l, ¬ (d' < chr '0' ∨ chr '9' < d') := by
    intro d' hd'
    obtain ⟨m, hm, rfl⟩ := mem_numText (by decide) (by decide : 10 ≤ 16)
      (hl ▸ List.mem_cons_of_mem _ hd' : d' ∈ numText 10 n)
    exact digitChar_decimal hm
  rw [hl] at hat hvalue
  rw [hl, List.length_cons] at he hrest
  have hfmt : ∀ v : Locals, ∀ x, (v.processPrecision x).fmt = v.fmt := by
    intro v x
    rw [Locals.processPrecision]
    split <;> rfl
  refine ReadsTo.flag hat.head (label_digitChar hpos hlt) ?_ ?_ hrest
  · intro fuel hfuel
    have hle := get?_le he
    have hdigits := readNumber_digits fuel (digitChar d) 0 hat.tail hall
      (by rwa [Nat.add_assoc, Nat.add_comm 1]) hend (by omega)
    have hzero : int32 0 = 0 := by decide
    rw [hzero, hvalue] at hdigits
    rw [readFlag]
    refine hdigits.bind_nil ?_
    rw [show v.fmt + 1 + l.length = v.fmt + (l.length + 1) by omega]
    exact Writes.pure _
  · rw [hfmt]
    dsimp only
    omega

/-! ## A whole directive -/

/-- The character that asks for a conversion. -/
def Conv.char : Conv → Byte
  | .c => chr 'c'
  | .e => chr 'e'
  | .s => chr 's'
  | .d => chr 'd'
  | .u => chr 'u'
  | .o => chr 'o'
  | .p => chr 'p'
  | .x => chr 'x'
  | .percent => chr '%'

theorem Conv.label_char (kind : Conv) : label kind.char = .conv kind := by
  cases kind <;> decide

theorem Conv.char_end (kind : Conv) : kind.char < chr '0' ∨ chr '9' < kind.char := by
  cases kind <;> decide

/-- A directive `%[0][w][.p]` with the character that ends it. -/
structure Directive where
  zero : Bool
  width : Option Nat
  precision : Option Nat
  conv : Conv
  width_pos : ∀ w ∈ width, 0 < w

namespace Directive

/-- The width as it is written. -/
def widthText : Option Nat → List Byte
  | none => []
  | some w => numText 10 w

/-- The precision as it is written. -/
def precisionText : Option Nat → List Byte
  | none => []
  | some p => chr '.' :: numText 10 p

/-- The bytes of the directive, after its `%`. -/
def bytes (d : Directive) : List Byte :=
  (if d.zero then [chr '0'] else []) ++
    (widthText d.width ++ (precisionText d.precision ++ [d.conv.char]))

/-- `padc`, when the directive has been read: a precision of zero is taken for the flag. -/
def padc (d : Directive) : Byte := if d.zero ∨ d.precision = some 0 then chr '0' else chr ' '

/-- The variable `width`, when the width has been read. -/
def widthValue : Option Nat → Int
  | none => -1
  | some w => int32 w

/-- The variable `width`, when the directive has been read. -/
def widthVar (d : Directive) : Int :=
  if d.precision = none then widthValue d.width else max (widthValue d.width) 0

/-- The variable `precision`, when the precision has been read. -/
def precisionValue : Option Nat → Int
  | none => -1
  | some p => if p = 0 then -1 else int32 p

/-- The local variables when the directive has been read. -/
def locals (d : Directive) (k : Nat) (a : VaList) (c : Word) : Locals :=
  { fmt := k + d.bytes.length, ap := a, color := c, padc := d.padc, width := d.widthVar,
    precision := precisionValue d.precision }

end Directive

open Directive

theorem reads_precision {p : Option Nat} {kind : Conv} {q : Nat} (hprec : v.precision = -1)
    (hat : At fmt v.fmt (precisionText p ++ [kind.char]))
    (hq : q = v.fmt + (precisionText p ++ [kind.char]).length) :
    ReadsTo fmt v (.conv kind, { v with
      fmt := q
      padc := if p = some 0 then chr '0' else v.padc
      width := if p = none then v.width else max v.width 0
      precision := precisionValue p }) := by
  have hmax : (if v.width < 0 then 0 else v.width) = max v.width 0 := by omega
  rw [List.length_append, List.length_singleton] at hq
  match p with
  | none =>
    rw [show precisionValue none = v.precision from hprec.symm]
    exact ReadsTo.conv hat.head kind.label_char hq
  | some p =>
    refine ReadsTo.dot hat.head ?_
    rw [hmax, if_neg (Option.some_ne_none p), precisionValue]
    rw [precisionText, List.length_cons] at hq
    have hnum : At fmt (v.fmt + 1) (numText 10 p ++ [kind.char]) := hat.tail
    rcases Nat.eq_zero_or_pos p with rfl | hp
    · have hzero : numText 10 0 = [chr '0'] := by decide
      rw [hzero] at hnum hq
      refine ReadsTo.zero hnum.head ?_
      rw [if_pos rfl, if_pos rfl, ← hprec]
      exact ReadsTo.conv hnum.tail.head kind.label_char hq
    · have hproc : ∀ k, ({ v with fmt := k, width := max v.width 0 } : Locals).processPrecision
          (int32 p) = { v with fmt := k, width := max v.width 0, precision := int32 p } := by
        intro k
        rw [Locals.processPrecision, if_neg (by dsimp only; omega)]
      have hne : ¬ some p = some 0 := fun hh => Nat.ne_of_gt hp (Option.some_inj.1 hh)
      rw [if_neg hne, if_neg (Nat.ne_of_gt hp)]
      refine ReadsTo.number hp hnum.left hnum.right.head kind.char_end ?_
      rw [hproc]
      have hconv := ReadsTo.conv (q := q) (v := { v with
        fmt := v.fmt + 1 + (numText 10 p).length, width := max v.width 0, precision := int32 p })
        hnum.right.head kind.label_char (by dsimp only; omega)
      dsimp only at hconv ⊢
      exact hconv

/-- What comes after the width is not a digit. -/
theorem precisionText_end (p : Option Nat) (kind : Conv) : ∃ e l,
    precisionText p ++ [kind.char] = e :: l ∧ (e < chr '0' ∨ chr '9' < e) := by
  cases p with
  | none => exact ⟨_, _, rfl, kind.char_end⟩
  | some p => exact ⟨_, _, rfl, by decide⟩

theorem reads_width {w : Option Nat} (hw : ∀ n ∈ w, 0 < n) (hwidth : v.width = -1)
    (hprec : v.precision = -1) {e : Byte} (hat : At fmt v.fmt (widthText w ++ e :: l))
    (hend : e < chr '0' ∨ chr '9' < e)
    (hrest : ReadsTo fmt { v with fmt := v.fmt + (widthText w).length, width := widthValue w } r) :
    ReadsTo fmt v r := by
  cases w with
  | none =>
    rw [show widthValue none = v.width from hwidth.symm] at hrest
    exact hrest
  | some n =>
    refine ReadsTo.number (hw n rfl) hat.left hat.right.head hend ?_
    rw [Locals.processPrecision, if_pos (by dsimp only; omega)]
    dsimp only
    rw [← hprec]
    exact hrest

/-- **Reading a directive.** -/
theorem Directive.reads (d : Directive) (hat : At fmt k d.bytes) :
    ReadsTo fmt { fmt := k, ap := a, color := c } (.conv d.conv, d.locals k a c) := by
  obtain ⟨e, l, hel, hend⟩ := precisionText_end d.precision d.conv
  have hflag : ∀ padc q,
      At fmt q (widthText d.width ++ (precisionText d.precision ++ [d.conv.char])) →
      d.padc = (if d.precision = some 0 then chr '0' else padc) →
      k + d.bytes.length = q + (widthText d.width).length +
        (precisionText d.precision ++ [d.conv.char]).length →
      ReadsTo fmt { fmt := q, ap := a, color := c, padc := padc }
        (.conv d.conv, d.locals k a c) := by
    intro padc q hat hpadc hq
    refine reads_width d.width_pos rfl rfl (hel ▸ hat) hend ?_
    rw [Directive.locals, hpadc]
    exact reads_precision (v := ⟨q + (widthText d.width).length, a, c, padc,
      widthValue d.width, -1, 0, false⟩) rfl hat.right hq
  cases hz : d.zero with
  | false =>
    rw [Directive.bytes, hz] at hat
    refine hflag _ k hat ?_ ?_
    · simp [Directive.padc, hz]
    · simp [Directive.bytes, hz]
      omega
  | true =>
    rw [Directive.bytes, hz] at hat
    refine ReadsTo.zero hat.head ?_
    refine hflag _ (k + 1) hat.tail ?_ ?_
    · simp [Directive.padc, hz]
    · simp [Directive.bytes, hz]
      omega

/-- What a directive writes is what its conversion writes. -/
theorem Directive.writes {f : CString → VaList → PrintM (List Word) Unit} (d : Directive)
    (hat : At fmt (k + 1) d.bytes) {text : List Word}
    (hconv : Writes (convert collect f d.conv (d.locals (k + 1) a c)) text v) :
    Writes (directive collect f fmt { fmt := k + 1, ap := a, color := c }) text v := by
  refine (d.reads hat _ ?_).bind_nil hconv
  dsimp only
  omega

theorem Directive.noNul (d : Directive) : 0#8 ∉ chr '%' :: d.bytes := by
  have hdigits : ∀ n, 0#8 ∉ numText 10 n := by
    intro n h
    obtain ⟨m, hm, hz⟩ := mem_numText (by decide) (by decide) h
    have hall : ∀ m < 10, 0#8 ≠ digitChar m := by decide
    exact hall m hm hz
  have hconv : 0#8 ≠ d.conv.char := by
    cases d.conv <;> decide
  have hwidth : 0#8 ∉ widthText d.width := by
    cases d.width with
    | none => exact List.not_mem_nil
    | some w => exact hdigits w
  have hprec : 0#8 ∉ precisionText d.precision := by
    cases d.precision with
    | none => exact List.not_mem_nil
    | some p => exact List.not_mem_cons_of_ne_of_not_mem (by decide) (hdigits p)
  have hflag : 0#8 ∉ if d.zero then [chr '0'] else [] := by
    cases d.zero <;> decide
  intro h
  rcases List.mem_cons.1 h with h | h
  · exact absurd h (by decide)
  rcases List.mem_append.1 h with h | h
  · exact hflag h
  rcases List.mem_append.1 h with h | h
  · exact hwidth h
  rcases List.mem_append.1 h with h | h
  · exact hprec h
  · exact hconv (List.mem_singleton.1 h)

/-- The format that has nothing but the directive. -/
def Directive.format (d : Directive) : CString := ⟨chr '%' :: d.bytes, d.noNul⟩

/-- **A call with nothing but a directive** generates what the directive writes. -/
theorem Directive.generates (d : Directive) {text : List Word}
    (hconv : Writes (convert collect (printfmt collect) d.conv (d.locals 1 ap 0#32)) text v)
    (hv : v.fmt = (d.locals 1 ap 0#32).fmt) : Generates d.format ap text := by
  have hat : At d.format 1 d.bytes := List.prefix_refl _
  have hlen : d.format.bytes.length = d.bytes.length + 1 := rfl
  have hend : d.format.get? v.fmt = some 0#8 := by
    have hnul := get?_length d.format
    rw [hlen, Nat.add_comm] at hnul
    rw [hv]
    exact hnul
  have hloop : Writes (vprintfmt collect d.format ap) text () := by
    rw [vprintfmt, hlen, formatLoop]
    refine (readFmt_writes (show d.format.get? 0 = some (chr '%') from rfl)).bind_nil ?_
    rw [if_pos rfl]
    refine (d.writes hat hconv).then_return ?_
    rw [formatLoop]
    refine (readFmt_writes hend).bind_nil ?_
    rw [if_neg (by decide), if_pos rfl]
    exact Writes.pure ()
  exact hloop []

end Jos
