import Jos.Printfmt.Run

/-!
# `vprintfmt` comes to an end

The position in the format goes back in the default case only, to the byte after the `%` of the
directive, and a directive has no other `%` before its last character: so every round of the outer
loop gets past a byte for good, and no byte outside the string is read.
-/

set_option autoImplicit false

namespace Jos

open Command

variable {fmt : CString} {ap a : VaList} {c : Word} {k q j fuel : Nat} {ch : Byte} {v v' : Locals}
variable {out : List Word}

/-! ## The bytes of the format -/

namespace CString

theorem get?_of_lt (h : k < fmt.bytes.length) : fmt.get? k = some fmt.bytes[k] := by
  rw [get?, List.getElem?_append_left h, List.getElem?_eq_getElem h]

theorem get?_length (fmt : CString) : fmt.get? fmt.bytes.length = some 0#8 := by
  rw [get?, List.getElem?_append_right (Nat.le_refl _), Nat.sub_self]
  rfl

theorem exists_get? (h : k ≤ fmt.bytes.length) : ∃ ch, fmt.get? k = some ch := by
  rcases Nat.lt_or_eq_of_le h with h | rfl
  · exact ⟨_, get?_of_lt h⟩
  · exact ⟨_, get?_length fmt⟩

theorem get?_le (h : fmt.get? k = some ch) : k ≤ fmt.bytes.length := by
  have hlt := (List.getElem?_eq_some_iff.1 h).1
  rw [List.length_append, List.length_singleton] at hlt
  omega

/-- The NUL is the last byte, and the only one. -/
theorem get?_lt (h : fmt.get? k = some ch) (hne : ch ≠ 0#8) : k < fmt.bytes.length := by
  refine Nat.lt_of_le_of_ne (get?_le h) fun hk => hne ?_
  rw [hk, get?_length] at h
  exact (Option.some_inj.1 h).symm

theorem get?_ne (h : fmt.get? k = some ch) (hlt : k < fmt.bytes.length) : ch ≠ 0#8 := by
  rintro rfl
  rw [get?_of_lt hlt] at h
  exact fmt.noNul (Option.some_inj.1 h ▸ List.getElem_mem hlt)

end CString

open CString

/-- A character more. -/
theorem chars_succ (hk : k ≤ j) (hlt : j < fmt.bytes.length) (h : fmt.get? j = some ch) :
    chars ((fmt.bytes.take (j + 1)).drop k) =
      chars ((fmt.bytes.take j).drop k) ++ [ch.setWidth 32] := by
  have hch : fmt.bytes[j] = ch := Option.some_inj.1 (get?_of_lt hlt ▸ h)
  have hlen : (fmt.bytes.take j).length = j := List.length_take_of_le (Nat.le_of_lt hlt)
  rw [List.take_add_one, List.getElem?_eq_getElem hlt, hch,
    List.drop_append_of_le_length (by omega), chars_append]
  rfl

/-- The first character. -/
theorem chars_drop (hlt : k < j) (hle : j ≤ fmt.bytes.length) (h : fmt.get? k = some ch) :
    chars ((fmt.bytes.take j).drop k) =
      chars [ch] ++ chars ((fmt.bytes.take j).drop (k + 1)) := by
  have hk : k < fmt.bytes.length := Nat.lt_of_lt_of_le hlt hle
  have hch : fmt.bytes[k] = ch := Option.some_inj.1 (get?_of_lt hk ▸ h)
  have hlen : (fmt.bytes.take j).length = j := List.length_take_of_le hle
  rw [List.drop_eq_getElem_cons (by omega), List.getElem_take, hch]
  rfl

/-! ## The labels -/

theorem label_percent : label (chr '%') = .conv .percent := by decide

theorem label_nul : label 0#8 = .default := by decide

/-- A character after which the switch is entered again is neither a `%` nor the NUL. -/
theorem flag_ne {f : Flag} (h : label ch = .flag f) : ch ≠ chr '%' ∧ ch ≠ 0#8 := by
  constructor
  · rintro rfl
    rw [label_percent] at h
    cases h
  · rintro rfl
    rw [label_nul] at h
    cases h

theorem label_digit (h : ¬ (ch < chr '0' ∨ chr '9' < ch)) : ∃ f, label ch = .flag f := by
  have hall : ∀ ch : Byte, ¬ (ch < chr '0' ∨ chr '9' < ch) →
      label ch = .flag .zero ∨ label ch = .flag .digit := by decide
  rcases hall ch h with h | h
  · exact ⟨_, h⟩
  · exact ⟨_, h⟩

/-- The bytes from `k` up to `j` are all flags. -/
def Flags (fmt : CString) (k j : Nat) : Prop :=
  ∀ i, k ≤ i → i < j → ∃ ch f, fmt.get? i = some ch ∧ label ch = .flag f

theorem Flags.append (h : Flags fmt k q) (h' : Flags fmt q j) : Flags fmt k j := by
  intro i hlo hhi
  rcases Nat.lt_or_ge i q with hi | hi
  · exact h i hlo hi
  · exact h' i hi hhi

theorem Flags.single {f : Flag} (hch : fmt.get? k = some ch) (hf : label ch = .flag f) :
    Flags fmt k (k + 1) := by
  intro i hlo hhi
  obtain rfl : i = k := by omega
  exact ⟨ch, f, hch, hf⟩

/-! ## Reading a directive -/

theorem readFmt_writes (h : fmt.get? k = some ch) : Writes (readFmt fmt k) [] ch := by
  rw [readFmt, h]
  exact Writes.pure ch

theorem readNumber_writes (ch : Byte) (precision : Int) (hk : k ≤ fmt.bytes.length)
    (hfuel : fmt.bytes.length < fuel + k) : ∃ n k',
      Writes (readNumber fmt fuel k precision ch) [] (n, k') ∧ k ≤ k' ∧ k' ≤ fmt.bytes.length ∧
        Flags fmt k k' := by
  induction fuel generalizing k precision ch with
  | zero => omega
  | succ fuel ih =>
    obtain ⟨ch', hch⟩ := exists_get? hk
    have hread := readFmt_writes hch
    rw [readNumber]
    generalize int32 (precision * 10 + ch.toNat - 48) = n
    by_cases hend : ch' < chr '0' ∨ chr '9' < ch'
    · refine ⟨n, k, hread.bind_nil ?_, Nat.le_refl k, hk, fun i hlo hhi => by omega⟩
      rw [if_pos hend]
      exact Writes.pure _
    · obtain ⟨f, hf⟩ := label_digit hend
      have hlt := get?_lt hch (flag_ne hf).2
      obtain ⟨m, k', hrec, hle, hle', hflags⟩ := ih (k := k + 1) ch' n (by omega)
        (by omega)
      refine ⟨m, k', hread.bind_nil ?_, by omega, hle', (Flags.single hch hf).append hflags⟩
      rw [if_neg hend]
      exact hrec

theorem readFlag_writes (fuel : Nat) (ch : Byte) (v : Locals) (f : Flag)
    (hk : v.fmt ≤ fmt.bytes.length)
    (hfuel : fmt.bytes.length < fuel + v.fmt) : ∃ v',
      Writes (readFlag fmt fuel ch v f) [] v' ∧ v.fmt ≤ v'.fmt ∧ v'.fmt ≤ fmt.bytes.length ∧
        Flags fmt v.fmt v'.fmt := by
  have hnone : Flags fmt v.fmt v.fmt := fun i hlo hhi => by omega
  have hproc : ∀ (v : Locals) n, (v.processPrecision n).fmt = v.fmt := by
    intro v n
    rw [Locals.processPrecision]
    split <;> rfl
  cases f with
  | digit =>
    obtain ⟨n, k', hnum, hle, hle', hflags⟩ := readNumber_writes ch 0 hk hfuel
    refine ⟨_, hnum.bind_nil (Writes.pure _), ?_⟩
    rw [hproc]
    exact ⟨hle, hle', hflags⟩
  | star =>
    refine ⟨_, Writes.pure _, ?_⟩
    rw [hproc]
    exact ⟨Nat.le_refl _, hk, hnone⟩
  | minus => exact ⟨_, Writes.pure _, Nat.le_refl _, hk, hnone⟩
  | zero => exact ⟨_, Writes.pure _, Nat.le_refl _, hk, hnone⟩
  | dot => exact ⟨_, Writes.pure _, Nat.le_refl _, hk, hnone⟩
  | hash => exact ⟨_, Writes.pure _, Nat.le_refl _, hk, hnone⟩
  | long => exact ⟨_, Writes.pure _, Nat.le_refl _, hk, hnone⟩
  | color => exact ⟨_, Writes.pure _, Nat.le_refl _, hk, hnone⟩

/-- The character that ends a directive is at position `j`. -/
structure EndsAt (fmt : CString) (k : Nat) (l : Label) (j : Nat) : Prop where
  le : k ≤ j
  flags : Flags fmt k j
  last : ∃ ch, fmt.get? j = some ch ∧ label ch = l

/-- There is one character that ends it. -/
theorem EndsAt.unique {l l' : Label} {j' : Nat} (h : EndsAt fmt k l j) (h' : EndsAt fmt k l' j')
    (hl : ∀ f, l ≠ .flag f) (hl' : ∀ f, l' ≠ .flag f) : l = l' ∧ j = j' := by
  obtain ⟨ch, hch, hlabel⟩ := h.last
  obtain ⟨ch', hch', hlabel'⟩ := h'.last
  rcases Nat.lt_trichotomy j j' with hlt | rfl | hlt
  · obtain ⟨ch₁, f, hch₁, hf⟩ := h'.flags j h.le hlt
    obtain rfl : ch = ch₁ := Option.some_inj.1 (hch ▸ hch₁)
    exact absurd (hlabel ▸ hf) (hl f)
  · obtain rfl : ch = ch' := Option.some_inj.1 (hch ▸ hch')
    exact ⟨hlabel ▸ hlabel', rfl⟩
  · obtain ⟨ch₁, f, hch₁, hf⟩ := h.flags j' h'.le hlt
    obtain rfl : ch' = ch₁ := Option.some_inj.1 (hch' ▸ hch₁)
    exact absurd (hlabel' ▸ hf) (hl' f)

/-- **Reading the flags** of a directive comes to its last character. -/
theorem readFlags_writes (fmt : CString) (fuel : Nat) (v : Locals) (hk : v.fmt ≤ fmt.bytes.length)
    (hfuel : fmt.bytes.length + 1 < fuel + v.fmt) : ∃ l v' j,
      Writes (readFlags fmt fuel v) [] (l, v') ∧ v'.fmt = j + 1 ∧ EndsAt fmt v.fmt l j ∧
        ∀ f, l ≠ .flag f := by
  induction fuel generalizing v with
  | zero => omega
  | succ fuel ih =>
    obtain ⟨ch, hch⟩ := exists_get? hk
    have hread := readFmt_writes hch
    rw [readFlags]
    have hlast : ∀ l, label ch = l → EndsAt fmt v.fmt l v.fmt := fun l hl =>
      ⟨Nat.le_refl _, fun i hlo hhi => by omega, ch, hch, hl⟩
    cases hl : label ch with
    | flag f =>
      have hlt := get?_lt hch (flag_ne hl).2
      obtain ⟨v₁, hflag, hle, hle', hflags⟩ := readFlag_writes (fuel + 1) ch
        { v with fmt := v.fmt + 1 } f hlt (by dsimp only; omega)
      dsimp only at hle hflags
      obtain ⟨l, v', j, hrest, hfmt, hend, hne⟩ := ih v₁ hle' (by omega)
      refine ⟨l, v', j, hread.bind_nil ?_, hfmt, ⟨?_, ?_, hend.last⟩, hne⟩
      · dsimp only
        rw [hl]
        exact hflag.bind_nil hrest
      · have := hend.le
        omega
      · exact ((Flags.single hch hl).append hflags).append hend.flags
    | conv kind =>
      refine ⟨_, { v with fmt := v.fmt + 1 }, v.fmt, hread.bind_nil ?_, rfl, hlast _ hl, by simp⟩
      dsimp only
      rw [hl]
      exact Writes.pure _
    | default =>
      refine ⟨_, { v with fmt := v.fmt + 1 }, v.fmt, hread.bind_nil ?_, rfl, hlast _ hl, by simp⟩
      dsimp only
      rw [hl]
      exact Writes.pure _

/-- Going back ends at the `%` of the directive. -/
theorem rewind_writes (hq : fmt.get? q = some (chr '%')) (hflags : Flags fmt (q + 1) j)
    (hlt : q < j) : Writes (rewind fmt j) [] (q + 1) := by
  induction j with
  | zero => omega
  | succ j ih =>
    rw [rewind]
    rcases Nat.eq_or_lt_of_le (Nat.le_of_lt_succ hlt) with rfl | hj
    · refine (readFmt_writes hq).bind_nil ?_
      rw [if_pos rfl]
      exact Writes.pure _
    · obtain ⟨ch, f, hch, hf⟩ := hflags j hj (Nat.lt_succ_self j)
      refine (readFmt_writes hch).bind_nil ?_
      rw [if_neg (flag_ne hf).1]
      exact ih (fun i hlo hhi => hflags i hlo (by omega)) hj

/-- **The default case** prints the `%`; what comes after it is text from there on. -/
theorem literally_writes (hq : fmt.get? q = some (chr '%')) (hflags : Flags fmt (q + 1) j)
    (hlt : q < j) (hv : v.fmt = j + 1) :
    Writes (literally collect fmt v) (chars [chr '%']) { v with fmt := q + 1 } := by
  have hrewind := rewind_writes hq hflags hlt
  rw [literally, hv]
  exact (emit_writes _).then_return (hrewind.bind_nil (Writes.pure _))

/-! ## The end of a directive -/

/-- What `%e` goes on with prints something. -/
structure PrintsErrors (f : CString → VaList → PrintM (List Word) Unit) : Prop where
  number : ∀ ap, ∃ text, Writes (f errorFormat ap) text ()
  message : ∀ ap, ∃ text, Writes (f messageFormat ap) text ()

/-- **Every directive comes to an end**, but for `%e` with the most negative number, whose negation
is negative. -/
theorem convert_writes {f : CString → VaList → PrintM (List Word) Unit} (kind : Conv) (v : Locals)
    (he : kind = .e → PrintsErrors f ∧ v.ap.word 0 ≠ 0x80000000#32) : ∃ text v',
      Writes (convert collect f kind v) text v' ∧ v'.fmt = v.fmt := by
  have hnum : ∀ base n, (base = 8 ∨ base = 10 ∨ base = 16) → n < 2 ^ 64 →
      ∃ text, Writes (printNumber collect n base v) text () := by
    intro base n hb hn
    obtain ⟨k, hk, -⟩ := printNumber_writes hb hn v
    exact ⟨_, hk⟩
  have hu := getuint_lt v.ap v.lflag
  cases kind with
  | c => exact ⟨_, _, (emit_writes _).bind (Writes.pure _), rfl⟩
  | e =>
    obtain ⟨hf, hmin⟩ := he rfl
    simp only [convert]
    generalize herr : (if (v.ap.word 0).toInt < 0 then int32 (-(v.ap.word 0).toInt)
      else (v.ap.word 0).toInt) = err
    have hlo := (v.ap.word 0).le_toInt
    have hpos : ¬ err < 0 := by
      rw [← herr]
      split
      · have hne : (v.ap.word 0).toInt ≠ -2 ^ 31 := fun hh => hmin (BitVec.eq_of_toInt_eq hh)
        rw [int32_of_bounds (by omega) (by omega)]
        omega
      · assumption
    by_cases hmax : maxError ≤ err
    · obtain ⟨text, ht⟩ := hf.number { v.ap with word := fun _ => BitVec.ofInt 32 err }
      rw [if_pos hmax]
      exact ⟨_, _, ht.bind (Writes.pure _), rfl⟩
    rw [if_neg hmax, if_neg hpos]
    cases errorString err.toNat with
    | none =>
      obtain ⟨text, ht⟩ := hf.number { v.ap with word := fun _ => BitVec.ofInt 32 err }
      exact ⟨_, _, ht.bind (Writes.pure _), rfl⟩
    | some p =>
      obtain ⟨text, ht⟩ := hf.message { word := fun _ => 1#32, string := fun _ => p }
      exact ⟨_, _, ht.bind (Writes.pure _), rfl⟩
  | s =>
    obtain ⟨text, ht⟩ := printStr_total
      (if v.ap.word 0 = 0#32 then nullText else v.ap.string (v.ap.word 0)) v
    exact ⟨_, _, ht.bind (Writes.pure _), rfl⟩
  | d =>
    obtain ⟨hlo, hhi⟩ := getint_bounds v.ap v.lflag
    simp only [convert]
    by_cases hneg : (getint v.ap v.lflag).1 < 0
    · obtain ⟨text, ht⟩ := hnum 10 (-(getint v.ap v.lflag).1).toNat (by omega) (by omega)
      rw [if_pos hneg]
      exact ⟨_, _, (emit_writes _).bind (ht.bind (Writes.pure _)), rfl⟩
    · obtain ⟨text, ht⟩ := hnum 10 (getint v.ap v.lflag).1.toNat (by omega) (by omega)
      rw [if_neg hneg]
      exact ⟨_, _, ht.bind (Writes.pure _), rfl⟩
  | u =>
    obtain ⟨text, ht⟩ := hnum 10 _ (by omega) hu
    exact ⟨_, _, ht.bind (Writes.pure _), rfl⟩
  | o =>
    obtain ⟨text, ht⟩ := hnum 8 _ (by omega) hu
    exact ⟨_, _, ht.bind (Writes.pure _), rfl⟩
  | p =>
    obtain ⟨text, ht⟩ :=
      hnum 16 (v.ap.word 0).toNat (by omega) (by have := (v.ap.word 0).isLt; omega)
    exact ⟨_, _, (emit_writes _).bind ((emit_writes _).bind (ht.bind (Writes.pure _))), rfl⟩
  | x =>
    obtain ⟨text, ht⟩ := hnum 16 _ (by omega) hu
    exact ⟨_, _, ht.bind (Writes.pure _), rfl⟩
  | percent => exact ⟨_, _, (emit_writes _).bind (Writes.pure _), rfl⟩

/-- **A directive** comes to an end, and the position after it is further on in the string. -/
theorem directive_writes {f : CString → VaList → PrintM (List Word) Unit}
    (hq : fmt.get? k = some (chr '%'))
    (he : ∀ j v', EndsAt fmt (k + 1) (.conv .e) j →
      Writes (readFlags fmt (fmt.bytes.length + 1) { fmt := k + 1, ap := a, color := c }) []
        (.conv .e, v') → PrintsErrors f ∧ v'.ap.word 0 ≠ 0x80000000#32) : ∃ text v,
      Writes (directive collect f fmt { fmt := k + 1, ap := a, color := c }) text v ∧
        k < v.fmt ∧ v.fmt ≤ fmt.bytes.length := by
  have hlt := get?_lt hq (by decide)
  obtain ⟨l, v', j, hread, hfmt, hend, hne⟩ := readFlags_writes fmt
    (fmt.bytes.length + 1) { fmt := k + 1, ap := a, color := c } hlt (by dsimp; omega)
  have hle := hend.le
  dsimp only at hle hend
  cases l with
  | flag f => exact absurd rfl (hne f)
  | conv kind =>
    obtain ⟨ch, hch, hlabel⟩ := hend.last
    have hj := get?_lt hch fun h0 => by
      rw [h0, label_nul] at hlabel
      cases hlabel
    obtain ⟨text, v, hconv, hv⟩ := convert_writes (f := f) kind v' fun hk =>
      he j v' (hk ▸ hend) (hk ▸ hread)
    exact ⟨text, v, hread.bind_nil hconv, by omega, by omega⟩
  | default =>
    have hlit := literally_writes hq hend.flags (by omega) hfmt
    exact ⟨_, _, hread.bind_nil hlit, Nat.lt_succ_self k, hlt⟩

/-! ## The outer loop -/

/-- The outer loop comes to the end of the string if each directive that it gets to comes to its
end.  `P` holds wherever it gets to; it may speak of the text written so far. -/
theorem formatLoop_writes (fmt : CString) (text : List Word)
    {f : CString → VaList → PrintM (List Word) Unit}
    {P : Nat → VaList → Word → List Word → Prop}
    (hchar : ∀ k a c text ch, P k a c text → fmt.get? k = some ch → ch ≠ chr '%' → ch ≠ 0#8 →
      P (k + 1) a c (text ++ [ch.setWidth 32]))
    (hdir : ∀ k a c text, P k a c text → fmt.get? k = some (chr '%') → ∃ more v,
      Writes (directive collect f fmt { fmt := k + 1, ap := a, color := c }) more v ∧
        k < v.fmt ∧ v.fmt ≤ fmt.bytes.length ∧ P v.fmt v.ap v.color (text ++ more))
    (hP : P k a c text) (hk : k ≤ fmt.bytes.length)
    (hfuel : fmt.bytes.length < fuel + k) : ∃ rest a' c',
      Writes (formatLoop collect f fmt fuel k a c) rest () ∧
        P fmt.bytes.length a' c' (text ++ rest) := by
  induction fuel generalizing k a c text with
  | zero => omega
  | succ fuel ih =>
    obtain ⟨ch, hch⟩ := exists_get? hk
    have hread := readFmt_writes hch
    rw [formatLoop]
    by_cases hper : ch = chr '%'
    · obtain ⟨more, v, hv, hlt, hle, hP'⟩ := hdir k a c text hP (hper ▸ hch)
      obtain ⟨rest, a', c', hrest, hend⟩ := ih (text ++ more) hP' hle (by omega)
      refine ⟨more ++ rest, a', c', hread.bind_nil ?_, List.append_assoc .. ▸ hend⟩
      rw [if_pos hper]
      exact hv.bind hrest
    by_cases hnul : ch = 0#8
    · have hlen : k = fmt.bytes.length := by
        refine Nat.le_antisymm hk (Nat.le_of_not_lt fun hlt => ?_)
        exact get?_ne hch hlt hnul
      refine ⟨[], a, c, hread.bind_nil ?_, ?_⟩
      · rw [if_neg hper, if_pos hnul]
        exact Writes.pure ()
      · rw [← hlen, List.append_nil]
        exact hP
    · obtain ⟨rest, a', c', hrest, hend⟩ := ih _ (hchar k a c text ch hP hch hper hnul)
        (get?_lt hch hnul) (by omega)
      refine ⟨[ch.setWidth 32] ++ rest, a', c', hread.bind_nil ?_, List.append_assoc .. ▸ hend⟩
      rw [if_neg hper, if_neg hnul]
      exact (emit_writes _).bind hrest

/-- Every directive of the format is of one kind, without flags. -/
def Simple (fmt : CString) (kind : Conv) : Prop :=
  ∀ k, fmt.get? k = some (chr '%') → ∃ ch, fmt.get? (k + 1) = some ch ∧ label ch = .conv kind

theorem Simple.endsAt {kind : Conv} {l : Label} (h : Simple fmt kind)
    (hq : fmt.get? k = some (chr '%')) (hend : EndsAt fmt (k + 1) l j) (hl : ∀ f, l ≠ .flag f) :
    l = .conv kind := by
  obtain ⟨ch, hch, hlabel⟩ := h k hq
  have hsimple : EndsAt fmt (k + 1) (.conv kind) (k + 1) :=
    ⟨Nat.le_refl _, fun i hlo hhi => by omega, ch, hch, hlabel⟩
  exact (hend.unique hsimple hl (by simp)).1

theorem errorFormat_simple : Simple errorFormat .d := by
  intro k hk
  have hall : ∀ k < 9, errorFormat.get? k = some (chr '%') → k = 6 := by decide
  obtain rfl := hall k (Nat.lt_succ_of_le (get?_le hk)) hk
  exact ⟨chr 'd', by decide, by decide⟩

theorem messageFormat_simple : Simple messageFormat .s := by
  intro k hk
  have hall : ∀ k < 3, messageFormat.get? k = some (chr '%') → k = 0 := by decide
  obtain rfl := hall k (Nat.lt_succ_of_le (get?_le hk)) hk
  exact ⟨chr 's', by decide, by decide⟩

theorem Simple.directive_writes {kind : Conv} (h : Simple fmt kind) (hne : kind ≠ .e)
    (f : CString → VaList → PrintM (List Word) Unit) (hq : fmt.get? k = some (chr '%')) :
    ∃ text v, Writes (directive collect f fmt { fmt := k + 1, ap := a, color := c }) text v ∧
      k < v.fmt ∧ v.fmt ≤ fmt.bytes.length := by
  refine Jos.directive_writes hq fun j v' hend _ => ?_
  exact absurd (Label.conv.inj (h.endsAt hq hend (by simp))).symm hne

/-- `printfmt` comes to an end if there is no `%e`. -/
theorem Simple.printfmt_writes {kind : Conv} (h : Simple fmt kind) (hne : kind ≠ .e)
    (ap : VaList) : ∃ text, Writes (printfmt collect fmt ap) text () := by
  obtain ⟨text, -, -, htext, -⟩ := formatLoop_writes fmt []
    (P := fun _ _ _ _ => True) (a := ap) (c := 0#32) (fun _ _ _ _ _ _ _ _ _ => trivial)
    (fun k a c _ _ hq => by
      obtain ⟨more, v, hv, hlt, hle⟩ := h.directive_writes hne (fun _ _ => throw .fuel) hq
      exact ⟨more, v, hv, hlt, hle, trivial⟩) trivial (Nat.zero_le _) (Nat.lt_succ_self _)
  exact ⟨text, htext⟩

theorem printsErrors : PrintsErrors (printfmt collect) where
  number := errorFormat_simple.printfmt_writes (by decide)
  message := messageFormat_simple.printfmt_writes (by decide)

/-! ## Where the outer loop gets to -/

/-- The outer loop of `vprintfmt` comes to position `k`, with the arguments from `a` on and `Color`
`c`, when the characters `text` have been generated. -/
inductive Comes (fmt : CString) (ap : VaList) : Nat → VaList → Word → List Word → Prop
  | start : Comes fmt ap 0 ap 0#32 []
  | char {k : Nat} {a : VaList} {c : Word} {text : List Word} {ch : Byte} :
    Comes fmt ap k a c text → fmt.get? k = some ch → ch ≠ chr '%' → ch ≠ 0#8 →
      Comes fmt ap (k + 1) a c (text ++ [ch.setWidth 32])
  | past {k : Nat} {a : VaList} {c : Word} {text more : List Word} {v : Locals} :
    Comes fmt ap k a c text → fmt.get? k = some (chr '%') →
      Writes (directive collect (printfmt collect) fmt { fmt := k + 1, ap := a, color := c })
        more v →
      Comes fmt ap v.fmt v.ap v.color (text ++ more)

/-- No `%e` that is come to is given the most negative number. -/
def ErrorArgs (fmt : CString) (ap : VaList) : Prop :=
  ∀ k a c text v, Comes fmt ap k a c text → fmt.get? k = some (chr '%') →
    Writes (readFlags fmt (fmt.bytes.length + 1) { fmt := k + 1, ap := a, color := c }) []
      (.conv .e, v) → v.ap.word 0 ≠ 0x80000000#32

/-- A directive from the `%` at `k` on that ends in a character, at `j`, that is not recognised, or
in the NUL. -/
structure Malformed (fmt : CString) (k j : Nat) : Prop where
  percent : fmt.get? k = some (chr '%')
  ends : EndsAt fmt (k + 1) .default j

section

variable {text : List Word} (herr : ErrorArgs fmt ap)
include herr

theorem Comes.directive_writes (h : Comes fmt ap k a c text) (hq : fmt.get? k = some (chr '%')) :
    ∃ more v, Writes
      (directive collect (printfmt collect) fmt { fmt := k + 1, ap := a, color := c })
      more v ∧ k < v.fmt ∧ v.fmt ≤ fmt.bytes.length :=
  Jos.directive_writes hq fun _ v' _ hread => ⟨printsErrors, herr k a c text v' h hq hread⟩

/-- From where it has come to, the outer loop comes to the end. -/
theorem Comes.finish (h : Comes fmt ap k a c text) (hk : k ≤ fmt.bytes.length)
    (hfuel : fmt.bytes.length < fuel + k) : ∃ rest a' c',
      Writes (formatLoop collect (printfmt collect) fmt fuel k a c) rest () ∧
        Comes fmt ap fmt.bytes.length a' c' (text ++ rest) := by
  refine formatLoop_writes fmt text (P := Comes fmt ap) (fun _ _ _ _ _ => Comes.char) ?_ h hk hfuel
  intro k a c text h hq
  obtain ⟨more, v, hv, hlt, hle⟩ := h.directive_writes herr hq
  exact ⟨more, v, hv, hlt, hle, h.past hq hv⟩

/-- The call goes on from where it has come to. -/
theorem Comes.run (h : Comes fmt ap k a c text) : k ≤ fmt.bytes.length ∧ ∃ fuel,
    fmt.bytes.length < fuel + k ∧ (vprintfmt collect fmt ap).run [] =
      (formatLoop collect (printfmt collect) fmt fuel k a c).run text := by
  induction h with
  | start => exact ⟨Nat.zero_le _, fmt.bytes.length + 1, Nat.lt_succ_self _, rfl⟩
  | @char k a c text ch _ hch hper hnul ih =>
    obtain ⟨hk, fuel, hfuel, hrun⟩ := ih
    have hlt := get?_lt hch hnul
    obtain ⟨fuel, rfl⟩ : ∃ n, fuel = n + 1 := ⟨fuel - 1, by omega⟩
    refine ⟨hlt, fuel, by omega, hrun.trans ?_⟩
    rw [formatLoop, run_bind_ok (readFmt_writes hch text), if_neg hper, if_neg hnul,
      run_bind_ok (emit_writes _ _), List.append_nil]
  | @past k a c text more v hcomes hq hv ih =>
    obtain ⟨hk, fuel, hfuel, hrun⟩ := ih
    have hlt := get?_lt hq (by decide)
    obtain ⟨fuel, rfl⟩ : ∃ n, fuel = n + 1 := ⟨fuel - 1, by omega⟩
    obtain ⟨more', v', hv', hgt, hle⟩ := hcomes.directive_writes herr hq
    have hsame := (hv []).symm.trans (hv' [])
    obtain rfl : v = v' := (EStateM.Result.ok.inj hsame).1
    refine ⟨hle, fuel, by omega, hrun.trans ?_⟩
    rw [formatLoop, run_bind_ok (readFmt_writes hq text), if_pos rfl, List.append_nil,
      run_bind_ok (hv text)]

/-- What has been generated on the way is the first part of what is generated. -/
theorem Comes.isPrefix (h : Comes fmt ap k a c text) (hout : Generates fmt ap out) :
    text <+: out := by
  obtain ⟨hk, fuel, hfuel, hrun⟩ := h.run herr
  obtain ⟨rest, -, -, hrest, -⟩ := h.finish herr hk hfuel
  have hend := (hrun.symm.trans hout).symm.trans (hrest text)
  exact ⟨rest, (EStateM.Result.ok.inj hend).2.symm⟩

omit herr in
/-- After the `%` of a malformed directive, its characters are text. -/
theorem Comes.flags (h : Comes fmt ap k a c text) (hkj : k ≤ j) (hflags : Flags fmt k j) :
    Comes fmt ap j a c (text ++ chars ((fmt.bytes.take j).drop k)) := by
  induction j, hkj using Nat.le_induction with
  | base =>
    rw [List.drop_take, Nat.sub_self, List.take_zero, chars, List.map_nil, List.append_nil]
    exact h
  | succ j hkj ih =>
    have hrec := ih fun i hlo hhi => hflags i hlo (by omega)
    obtain ⟨ch, f, hch, hf⟩ := hflags j hkj (Nat.lt_succ_self j)
    obtain ⟨hper, hnul⟩ := flag_ne hf
    rw [chars_succ hkj (get?_lt hch hnul) hch, ← List.append_assoc]
    exact hrec.char hch hper hnul

omit herr in
/-- **A malformed directive** is printed as it stands. -/
theorem Comes.malformed (h : Comes fmt ap k a c text) (hbad : Malformed fmt k j) : ∃ a' c',
    Comes fmt ap j a' c' (text ++ chars ((fmt.bytes.take j).drop k)) := by
  have hlt := get?_lt hbad.percent (by decide)
  have hle := hbad.ends.le
  obtain ⟨l, v, j', hread, hfmt, hend, hne⟩ := readFlags_writes fmt
    (fmt.bytes.length + 1) { fmt := k + 1, ap := a, color := c } hlt (by dsimp; omega)
  obtain ⟨rfl, rfl⟩ := hend.unique hbad.ends hne (by simp)
  have hlit : Writes (directive collect (printfmt collect) fmt
      { fmt := k + 1, ap := a, color := c }) (chars [chr '%']) { v with fmt := k + 1 } :=
    hread.bind_nil (literally_writes hbad.percent hend.flags (by omega) hfmt)
  obtain ⟨ch, hch, -⟩ := hend.last
  rw [chars_drop (by omega) (get?_le hch) hbad.percent, ← List.append_assoc]
  exact ⟨v.ap, v.color, (h.past hbad.percent hlit).flags hle hend.flags⟩

end

/-- **The format parser is total**, and stays inside the string: it generates characters, for any
format, up to the NUL, and it prints a directive that ends in a character that is not recognised, or
in the NUL, as it stands, and goes on with that character. -/
theorem vprintfmt_total (herr : ErrorArgs fmt ap) : ∃ out, Generates fmt ap out ∧
    (∃ a c, Comes fmt ap fmt.bytes.length a c out) ∧
    ∀ k a c text, Comes fmt ap k a c text → text <+: out ∧ ∀ j, Malformed fmt k j →
      (∃ a' c', Comes fmt ap j a' c' (text ++ chars ((fmt.bytes.take j).drop k))) ∧
        text ++ chars ((fmt.bytes.take (j + 1)).drop k) <+: out := by
  obtain ⟨out, a, c, hwrites, hend⟩ := (Comes.start : Comes fmt ap 0 ap 0#32 []).finish herr
    (Nat.zero_le _) (Nat.lt_succ_self _)
  have hout : Generates fmt ap out := hwrites []
  refine ⟨out, hout, ⟨a, c, hend⟩, fun k a c text h => ⟨h.isPrefix herr hout, fun j hbad => ?_⟩⟩
  obtain ⟨a', c', hj⟩ := h.malformed hbad
  refine ⟨⟨a', c', hj⟩, ?_⟩
  obtain ⟨ch, hch, hlabel⟩ := hbad.ends.last
  rcases Nat.lt_or_eq_of_le (get?_le hch) with hlt | rfl
  · have hper : ch ≠ chr '%' := fun hh => by
      rw [hh, label_percent] at hlabel
      cases hlabel
    have hle := hbad.ends.le
    rw [chars_succ (by omega) hlt hch, ← List.append_assoc]
    exact (hj.char hch hper (get?_ne hch hlt)).isPrefix herr hout
  · -- it ends in the NUL, which is not printed
    have hpre := hj.isPrefix herr hout
    rw [List.take_of_length_le (Nat.le_refl _)] at hpre
    rwa [List.take_of_length_le (Nat.le_succ _)]

/-- A format that ends within a directive. -/
theorem vprintfmt_total_truncated :
    let fmt : CString := ⟨ascii "a%5", by decide⟩
    let ap : VaList := ⟨fun _ => 0#32, fun _ => nullText⟩
    ErrorArgs fmt ap ∧ ∃ out, Generates fmt ap out ∧
      (∃ a c, Comes fmt ap fmt.bytes.length a c out) ∧
      ∀ k a c text, Comes fmt ap k a c text → text <+: out ∧ ∀ j, Malformed fmt k j →
        (∃ a' c', Comes fmt ap j a' c' (text ++ chars ((fmt.bytes.take j).drop k))) ∧
          text ++ chars ((fmt.bytes.take (j + 1)).drop k) <+: out := by
  intro fmt ap
  have herr : ErrorArgs fmt ap := by
    intro k a c text v _ hq hread
    have hk : ∀ k < 4, fmt.get? k = some (chr '%') → k = 1 := by decide
    obtain rfl := hk k (Nat.lt_succ_of_le (get?_le hq)) hq
    have hres := hread []
    cases hres
  exact ⟨herr, vprintfmt_total herr⟩

end Jos
