import Jos.Cprintf

/-!
# What `vcprintf` returns

The kernel has a `vcprintf` of its own in `kern/printf.c`.  Its `putch` is given a pointer to the
count, and `*cnt++` moves that pointer: the integer stays 0, and 0 is what the kernel's `vcprintf`
returns.  The one of the user library counts.

So the two agree when nothing is printed.  A format prints nothing if it consists of `%s` directives
whose strings are empty or cut to nothing, without a width.
-/

set_option autoImplicit false

namespace Jos

open Command

/-! ## `kern/printf.c` -/

/-- The kernel's side: what has been put on the console, and the integers in memory. -/
structure KernOut where
  console : List Word
  int : Word → Word

/-- `putch`; in `*cnt++` the parameter is moved, and the integer there is not used. -/
def kernPutch (cnt : Word) (ch : Word) (s : KernOut) : KernOut :=
  let s := { s with console := s.console ++ [ch] }
  let _cnt := cnt + 4#32
  s

/-- `vcprintf` of the kernel, with `cnt` at the address `cntAt`. -/
def kernVcprintf (cntAt : Word) (fmt : CString) (ap : VaList) : PrintM KernOut Word := do
  modify fun s => { s with int := Function.update s.int cntAt 0#32 }
  vprintfmt (kernPutch cntAt) fmt ap
  return (← get).int cntAt

/-- Both return the number of characters that `putch` has been called with. -/
def CountsAgree (fmt : CString) (ap : VaList) : Prop :=
  ∃ out, Generates fmt ap out ∧
    (∀ buf, ∃ r s, (vcprintf fmt ap).run ⟨⟨0, 0#32, buf⟩, []⟩ = .ok r s ∧ r.toNat = out.length) ∧
    ∀ cntAt k, ∃ r s, (kernVcprintf cntAt fmt ap).run k = .ok r s ∧ r.toNat = out.length

/-- **The kernel's count** stays 0. -/
theorem kernVcprintf_run {fmt : CString} {ap : VaList} {out : List Word}
    (hout : Generates fmt ap out) (cntAt : Word) (k : KernOut) :
    (kernVcprintf cntAt fmt ap).run k =
      .ok 0#32 ⟨k.console ++ out, Function.update k.int cntAt 0#32⟩ := by
  have hputs := puts_induction
    (P := fun l s => s = ⟨k.console ++ l, Function.update k.int cntAt 0#32⟩) (kernPutch cntAt)
    ⟨k.console, Function.update k.int cntAt 0#32⟩ (by rw [List.append_nil])
    (fun l ch s h => by rw [h, kernPutch, List.append_assoc]) out
  rw [kernVcprintf, run_bind_ok (EStateM.run_modify ..), run_bind_ok (hout.run _ _), hputs]
  exact congrArg (EStateM.Result.ok · _) (Function.update_self ..)

/-! ## Formats that print nothing -/

/-- A string directive prints nothing. -/
structure Locals.Blank (v : Locals) : Prop where
  width : v.width ≤ 0
  string : cut v.precision (if v.ap.word 0 = 0#32 then nullText
    else v.ap.string (v.ap.word 0)).bytes = []

/-- From byte `k` on the format consists of `%s` directives that print nothing. -/
inductive SilentFrom (fmt : CString) : Nat → VaList → Word → Prop
  | done {a : VaList} {c : Word} : SilentFrom fmt fmt.bytes.length a c
  | string {k : Nat} {a : VaList} {c : Word} {v : Locals} : fmt.get? k = some (chr '%') →
      Writes (readFlags fmt (fmt.bytes.length + 1) { fmt := k + 1, ap := a, color := c }) []
        (.conv .s, v) → v.Blank → SilentFrom fmt v.fmt (v.ap.drop 1) v.color → SilentFrom fmt k a c

def Silent (fmt : CString) (ap : VaList) : Prop := SilentFrom fmt 0 ap 0#32

/-- A command that does not look at what has been written. -/
def Appends {α : Type} (m : PrintM (List Word) α) : Prop := ∀ pre, Carries (pre ++ ·) m m

theorem collect_append (pre : List Word) (ch : Word) (out : List Word) :
    collect ch (pre ++ out) = pre ++ collect ch out := List.append_assoc ..

variable {α β : Type} {m : PrintM (List Word) α} {f : α → PrintM (List Word) β} {b : β}

theorem Appends.writes {text : List Word} {r : α} (h : Appends m) (hr : m.run [] = .ok r text) :
    Writes m text r := by
  intro out
  have hrun := (h out).of_ok hr
  rwa [List.append_nil] at hrun

/-- A sequence that writes nothing is made of parts that write nothing. -/
theorem Appends.nil_of_bind (hm : Appends m) (hf : ∀ a, Appends (f a)) (h : Writes (m >>= f) [] b) :
    ∃ a, Writes m [] a ∧ Writes (f a) [] b := by
  obtain ⟨a, t, hrun, hrest⟩ := ok_of_bind (h [])
  have ht : t = [] := by
    cases hft : (f a).run [] with
    | ok b' t' =>
      have hcarry := ((hf a) t).of_ok hft
      rw [List.append_nil] at hcarry
      have heq := (EStateM.Result.ok.inj (hcarry.symm.trans hrest)).2
      exact (List.append_eq_nil_iff.1 heq).1
    | error e t' =>
      have hcarry := ((hf a) t).of_error hft
      rw [List.append_nil] at hcarry
      exact absurd (hcarry.symm.trans hrest) (by simp)
  subst ht
  exact ⟨a, hm.writes hrun, (hf a).writes hrest⟩

theorem Writes.ne_nil {text : List Word} {r r' : α} (h : Writes m text r) (hne : text ≠ []) :
    ¬ Writes m [] r' := fun h' => hne (h.unique h').1

theorem emit_appends (ch : Word) : Appends (emit collect ch) :=
  fun pre => emit_carries (collect_append pre) ch

theorem emit_not_nil (ch : Word) {g : PrintM (List Word) β} (hg : Appends g) :
    ¬ Writes (do emit collect ch; g) [] b := by
  intro h
  obtain ⟨_, hemit, _⟩ := (emit_appends ch).nil_of_bind (fun _ => hg) h
  exact (emit_writes ch).ne_nil (List.cons_ne_nil _ _) hemit

theorem appends_pure (a : α) : Appends (Pure.pure a) := fun _ => Carries.pure a

theorem Appends.bind (hm : Appends m) (hf : ∀ a, Appends (f a)) : Appends (m >>= f) :=
  fun pre => (hm pre).bind fun a => hf a pre

theorem emitTimes_appends (ch : Word) (n : Nat) : Appends (emitTimes collect ch n) :=
  fun pre => emitTimes_carries (collect_append pre) ch n

theorem emitTimes_nil {ch : Word} {n : Nat} (h : Writes (emitTimes collect ch n) [] ()) : n = 0 :=
  (List.replicate_eq_nil_iff _).1 ((emitTimes_writes ch n).unique h).1

theorem printNumber_appends (num base : Nat) (v : Locals) :
    Appends (printNumber collect num base v) :=
  fun pre => printNumber_carries (collect_append pre) num base v

theorem numText_ne_nil {base : Nat} (hb : 1 < base) (hb' : base ≤ 16) (n : Nat) :
    numText base n ≠ [] := by
  rw [numText_eq hb hb']
  split
  · exact List.cons_ne_nil _ _
  · exact List.append_ne_nil_of_right_ne_nil _ (List.cons_ne_nil _ _)

/-- A number has a digit at least. -/
theorem printNumber_not_nil {base : Nat} (hb : base = 8 ∨ base = 10 ∨ base = 16) {n : Nat}
    (hn : n < 2 ^ 64) (v : Locals) {g : PrintM (List Word) β} (hg : Appends g) :
    ¬ Writes (do printNumber collect n base v; g) [] b := by
  intro h
  obtain ⟨_, hnum, _⟩ := (printNumber_appends n base v).nil_of_bind (fun _ => hg) h
  obtain ⟨k, hk, -⟩ := printNumber_writes hb hn v
  refine hk.ne_nil (fun hnil => ?_) hnum
  have htext : List.replicate k v.padc ++ numText base n = [] := List.map_eq_nil_iff.1 hnil
  exact numText_ne_nil (by omega) (by omega) n (List.append_eq_nil_iff.1 htext).2

/-! ## Strings -/

theorem strnlen_of_cut_nil {l : List Byte} {precision : Int} (h : cut precision l = []) :
    strnlen l (BitVec.ofInt 32 precision).toNat = 0 := by
  cases l with
  | nil => cases (BitVec.ofInt 32 precision).toNat <;> rfl
  | cons b l =>
    rw [cut] at h
    split at h
    · exact absurd h (List.cons_ne_nil _ _)
    · next hneg =>
      have h0 : precision = 0 := by
        rcases List.take_eq_nil_iff.1 h with h0 | hnil
        · omega
        · exact absurd hnil (List.cons_ne_nil _ _)
      rw [h0]
      rfl

/-- Nothing is printed of an empty string without a width. -/
theorem printStr_nil (q : CString) (v : Locals) (hlo : -2 ^ 31 ≤ v.width) (hhi : v.width < 2 ^ 31) :
    Writes (printStr collect q v) [] () ↔ v.width ≤ 0 ∧ cut v.precision q.bytes = [] := by
  have happends : ∀ width, Appends (printChars collect v.altflag q.bytes v.precision width) :=
    fun width pre => printChars_carries (collect_append pre) v.altflag q.bytes v.precision width
  have htail : ∀ width : Int, Appends (do
      let width ← printChars collect v.altflag q.bytes v.precision width
      emitTimes collect ((chr ' ').setWidth 32) width.toNat) :=
    fun width => (happends width).bind fun _ => emitTimes_appends _ _
  rw [printStr]
  dsimp only
  constructor
  · intro h
    -- whatever has been done about the width, the characters come next
    have hchars : ∀ width w, Writes (printChars collect v.altflag q.bytes v.precision width) [] w →
        cut v.precision q.bytes = [] ∧ (-2 ^ 31 ≤ width → width < 2 ^ 31 → w = width) := by
      intro width w hw
      obtain ⟨w', hw', hval⟩ := printChars_writes v.altflag q.bytes v.precision width
      obtain ⟨htext, rfl⟩ := hw'.unique hw
      have hcut := List.map_eq_nil_iff.1 htext
      rw [hcut, List.length_nil] at hval
      exact ⟨hcut, fun h1 h2 => by simpa using hval (by simpa using h1) h2⟩
    by_cases hpad : 0 < v.width ∧ v.padc ≠ chr '-'
    · rw [if_pos hpad] at h
      obtain ⟨_, htimes, hrest⟩ := (emitTimes_appends _ _).nil_of_bind (fun _ => htail _) h
      obtain ⟨w, hw, -⟩ := (happends _).nil_of_bind (fun _ => emitTimes_appends _ _) hrest
      have hcut := (hchars _ w hw).1
      have hzero := emitTimes_nil htimes
      have hsub : v.width - int32 ((0 : Nat) : Int) = v.width := Int.sub_zero v.width
      rw [strnlen_of_cut_nil hcut, hsub, int32_of_bounds hlo hhi] at hzero
      exact ⟨by omega, hcut⟩
    · rw [if_neg hpad] at h
      obtain ⟨w, hw, hend⟩ := (happends _).nil_of_bind (fun _ => emitTimes_appends _ _) h
      obtain ⟨hcut, hval⟩ := hchars _ w hw
      have hzero := emitTimes_nil hend
      rw [hval hlo hhi] at hzero
      exact ⟨by omega, hcut⟩
  · rintro ⟨hwidth, hcut⟩
    rw [if_neg fun hh => absurd hh.1 (by omega)]
    obtain ⟨w, hw, hval⟩ := printChars_writes v.altflag q.bytes v.precision v.width
    rw [hcut, List.length_nil] at hval
    rw [hcut] at hw
    have hend := emitTimes_writes ((chr ' ').setWidth 32) w.toNat
    have hzero : w.toNat = 0 := by
      have := hval (by simpa using hlo) hhi
      omega
    rw [hzero] at hend
    exact Writes.bind_nil hw (hzero ▸ hend)

/-! ## Directives -/

section

variable {σ : Type} {fmt : CString}

/-- The width is an `int`. -/
def Locals.WidthOk (v : Locals) : Prop := -2 ^ 31 ≤ v.width ∧ v.width < 2 ^ 31

theorem widthOk_start (k : Nat) (a : VaList) (c : Word) :
    ({ fmt := k, ap := a, color := c } : Locals).WidthOk := by
  rw [Locals.WidthOk]
  dsimp only
  decide

theorem Locals.WidthOk.processPrecision {v : Locals} (h : v.WidthOk) {n : Int} (hlo : -2 ^ 31 ≤ n)
    (hhi : n < 2 ^ 31) : (v.processPrecision n).WidthOk := by
  rw [Locals.processPrecision]
  split
  · exact ⟨hlo, hhi⟩
  · exact h

theorem readNumber_width (fuel k : Nat) (precision : Int) (ch : Byte) :
    Triple (fun _ : σ => True) (readNumber fmt fuel k precision ch)
      (fun r _ => -2 ^ 31 ≤ r.1 ∧ r.1 < 2 ^ 31) fun _ _ => True := by
  induction fuel generalizing k precision ch with
  | zero => exact Triple.throw fun _ _ => trivial
  | succ fuel ih =>
    refine Triple.bind Triple.top fun ch' => Triple.ite (fun _ => Triple.pure fun _ _ => ?_)
      fun _ => ?_
    · exact ⟨Int.le_bmod (by decide), Int.bmod_lt (by decide)⟩
    · exact ih (k + 1) _ ch'

theorem readFlag_width (fuel : Nat) (ch : Byte) {v : Locals} (hv : v.WidthOk) (f : Flag) :
    Triple (fun _ : σ => True) (readFlag fmt fuel ch v f) (fun v' _ => v'.WidthOk)
      fun _ _ => True := by
  cases f with
  | digit =>
    exact Triple.bind (readNumber_width fuel v.fmt 0 ch) fun r => Triple.pure fun _ hr =>
      Locals.WidthOk.processPrecision (v := { v with fmt := r.2 }) hv hr.1 hr.2
  | star =>
    exact Triple.pure fun _ _ => Locals.WidthOk.processPrecision (v := { v with ap := v.ap.drop 1 })
      hv (v.ap.word 0).le_toInt (v.ap.word 0).toInt_lt
  | dot =>
    refine Triple.pure fun _ _ => ?_
    rw [Locals.WidthOk]
    dsimp only
    split
    · decide
    · exact hv
  | minus => exact Triple.pure fun _ _ => hv
  | zero => exact Triple.pure fun _ _ => hv
  | hash => exact Triple.pure fun _ _ => hv
  | long => exact Triple.pure fun _ _ => hv
  | color => exact Triple.pure fun _ _ => hv

theorem readFlags_width (fuel : Nat) {v : Locals} (hv : v.WidthOk) :
    Triple (fun _ : σ => True) (readFlags fmt fuel v) (fun r _ => r.2.WidthOk) fun _ _ => True := by
  induction fuel generalizing v with
  | zero => exact Triple.throw fun _ _ => trivial
  | succ fuel ih =>
    refine Triple.bind Triple.top fun ch => ?_
    have hnext : ({ v with fmt := v.fmt + 1 } : Locals).WidthOk := hv
    dsimp only
    cases label ch with
    | flag f =>
      exact Triple.bind (readFlag_width (fuel + 1) ch hnext f) fun v' s hv' => ih hv' s trivial
    | conv kind => exact Triple.pure fun _ _ => hnext
    | default => exact Triple.pure fun _ _ => hnext

end

section

variable {fmt : CString} {f : CString → VaList → PrintM (List Word) Unit}

theorem convert_appends (hf : ∀ fmt ap, Appends (f fmt ap)) (kind : Conv) (v : Locals) :
    Appends (convert collect f kind v) :=
  fun pre => convert_carries (collect_append pre) (fun fmt ap => hf fmt ap pre) kind v

theorem literally_appends (v : Locals) : Appends (literally collect fmt v) :=
  fun pre => literally_carries (collect_append pre) fmt v

theorem directive_appends (hf : ∀ fmt ap, Appends (f fmt ap)) (v : Locals) :
    Appends (directive collect f fmt v) :=
  fun pre => directive_carries (collect_append pre) (fun fmt ap => hf fmt ap pre) fmt v

theorem formatLoop_appends (hf : ∀ fmt ap, Appends (f fmt ap)) (fuel k : Nat) (ap : VaList)
    (color : Word) : Appends (formatLoop collect f fmt fuel k ap color) :=
  fun pre => formatLoop_carries (collect_append pre) (fun fmt ap => hf fmt ap pre) fmt fuel k ap
    color

theorem readFlags_appends (fuel : Nat) (v : Locals) : Appends (readFlags fmt fuel v) :=
  fun _ => readFlags_carries fmt fuel v

theorem readFmt_appends (k : Nat) : Appends (readFmt fmt k) := fun _ => readFmt_carries fmt k

/-- What `%e` goes on with prints something. -/
structure ErrorsShow (f : CString → VaList → PrintM (List Word) Unit) : Prop where
  appends : ∀ fmt ap, Appends (f fmt ap)
  number : ∀ ap, ¬ Writes (f errorFormat ap) [] ()
  message : ∀ n q, errorString n = some q →
    ¬ Writes (f messageFormat ⟨fun _ => 1#32, fun _ => q⟩) [] ()

/-- A conversion that prints nothing is that of a string. -/
theorem convert_nil (hf : ErrorsShow f) {kind : Conv} {v v' : Locals} (hv : v.WidthOk)
    (h : Writes (convert collect f kind v) [] v') :
    kind = .s ∧ v.Blank ∧ v' = { v with ap := v.ap.drop 1 } := by
  have hend : ∀ u : Locals, Appends (Pure.pure u : PrintM (List Word) Locals) :=
    fun u => appends_pure u
  have hnum : ∀ {base : Nat}, base = 8 ∨ base = 10 ∨ base = 16 → ∀ {n : Nat}, n < 2 ^ 64 →
      ∀ ap, ¬ Writes (do printNumber collect n base v; return { v with ap := ap }) [] v' :=
    fun hb _ hn ap => printNumber_not_nil hb hn v (hend _)
  have huint := getuint_lt v.ap v.lflag
  cases kind with
  | c => exact absurd h (emit_not_nil _ (hend _))
  | e =>
    simp only [convert] at h
    generalize (if (v.ap.word 0).toInt < 0 then int32 (-(v.ap.word 0).toInt)
      else (v.ap.word 0).toInt) = err at h
    have hcall : ∀ {g : PrintM (List Word) Unit}, Appends g → ¬ Writes g [] () → ∀ ap,
        ¬ Writes (do g; return { v with ap := ap }) [] v' := by
      intro g hg hno ap hw
      obtain ⟨_, hgw, _⟩ := hg.nil_of_bind (fun _ => hend _) hw
      exact hno hgw
    split at h
    · exact absurd h (hcall (hf.appends _ _) (hf.number _) _)
    split at h
    · obtain ⟨_, hthrow, _⟩ := Appends.nil_of_bind (fun _ => Carries.throw _) (fun _ => hend _) h
      exact absurd (hthrow []) (by simp)
    split at h
    · exact absurd h (hcall (hf.appends _ _) (hf.number _) _)
    · next q hq => exact absurd h (hcall (hf.appends _ _) (hf.message _ q hq) _)
  | s =>
    have happends : Appends (printStr collect (if v.ap.word 0 = 0#32 then nullText
        else v.ap.string (v.ap.word 0)) v) :=
      fun pre => printStr_carries (collect_append pre) _ v
    obtain ⟨_, hstr, hret⟩ := happends.nil_of_bind (fun _ => hend _) h
    obtain ⟨hwidth, hcut⟩ := (printStr_nil _ v hv.1 hv.2).1 hstr
    exact ⟨rfl, ⟨hwidth, hcut⟩, (hret.unique (Writes.pure _)).2⟩
  | d =>
    have hint := getint_bounds v.ap v.lflag
    simp only [convert] at h
    split at h
    · exact absurd h (emit_not_nil _ ((printNumber_appends _ _ v).bind fun _ => hend _))
    · exact absurd h (hnum (Or.inr (Or.inl rfl)) (by omega) _)
  | u => exact absurd h (hnum (Or.inr (Or.inl rfl)) huint _)
  | o => exact absurd h (hnum (Or.inl rfl) huint _)
  | p =>
    refine absurd h (emit_not_nil _ ((emit_appends _).bind fun _ => ?_))
    exact (printNumber_appends _ _ v).bind fun _ => hend _
  | x => exact absurd h (hnum (Or.inr (Or.inr rfl)) huint _)
  | percent => exact absurd h (emit_not_nil _ (hend _))

/-- A directive that prints nothing is that of a string. -/
theorem directive_nil (hf : ErrorsShow f) {k : Nat} {a : VaList} {c : Word} {v : Locals}
    (h : Writes (directive collect f fmt { fmt := k, ap := a, color := c }) [] v) : ∃ v',
      Writes (readFlags fmt (fmt.bytes.length + 1) { fmt := k, ap := a, color := c }) []
        (.conv .s, v') ∧ v'.Blank ∧ v = { v' with ap := v'.ap.drop 1 } := by
  rw [directive] at h
  obtain ⟨⟨l, v'⟩, hread, hrest⟩ := (readFlags_appends _ _).nil_of_bind (fun r => by
    obtain ⟨l, u⟩ := r
    cases l with
    | conv kind => exact convert_appends hf.appends kind u
    | flag f => exact literally_appends u
    | default => exact literally_appends u) h
  have hv : v'.WidthOk := (readFlags_width _ (widthOk_start k a c)).of_ok trivial (hread [])
  have hlit : ∀ u, ¬ Writes (literally collect fmt u) [] v := fun u => emit_not_nil _
    (Appends.bind (fun _ => rewind_carries fmt _) fun _ => appends_pure _)
  cases l with
  | flag f => exact absurd hrest (hlit v')
  | default => exact absurd hrest (hlit v')
  | conv kind =>
    obtain ⟨rfl, hblank, hv'⟩ := convert_nil hf hv hrest
    exact ⟨v', hread, hblank, hv'⟩

/-- A format that prints nothing is made of such directives. -/
theorem silentFrom_of_writes (hf : ErrorsShow f) {fuel k : Nat} {a : VaList} {c : Word}
    (h : Writes (formatLoop collect f fmt fuel k a c) [] ()) : SilentFrom fmt k a c := by
  induction fuel generalizing k a c with
  | zero => exact absurd (h []) (by simp [formatLoop])
  | succ fuel ih =>
    have hloop : ∀ k a c, Appends (formatLoop collect f fmt fuel k a c) :=
      fun k a c => formatLoop_appends hf.appends fuel k a c
    rw [formatLoop] at h
    obtain ⟨ch, hread, hrest⟩ := (readFmt_appends k).nil_of_bind (fun ch => by
      refine fun pre => Carries.ite ?_ (Carries.ite (Carries.pure ()) ?_)
      · exact (directive_appends hf.appends _ pre).bind fun v => hloop _ _ _ pre
      · exact (emit_appends _ pre).bind fun _ => hloop _ _ _ pre) h
    have hch : fmt.get? k = some ch := by
      have hrun := hread []
      rw [readFmt] at hrun
      cases hget : fmt.get? k with
      | none =>
        rw [hget] at hrun
        exact absurd hrun (by simp)
      | some ch' =>
        rw [hget] at hrun
        rw [(EStateM.Result.ok.inj hrun).1]
    by_cases hpercent : ch = chr '%'
    · rw [if_pos hpercent] at hrest
      obtain ⟨v, hdir, hmore⟩ :=
        (directive_appends hf.appends _).nil_of_bind (fun v => hloop _ _ _) hrest
      obtain ⟨v', hflags, hblank, rfl⟩ := directive_nil hf hdir
      exact .string (hpercent ▸ hch) hflags hblank (ih hmore)
    · rw [if_neg hpercent] at hrest
      by_cases hnul : ch = 0#8
      · have hk : ¬ k < fmt.bytes.length := fun hlt => CString.get?_ne hch hlt hnul
        have hle := CString.get?_le hch
        obtain rfl : k = fmt.bytes.length := by omega
        exact .done
      · rw [if_neg hnul] at hrest
        exact absurd hrest (emit_not_nil _ (hloop _ _ _))

/-- The other way round. -/
theorem SilentFrom.writes {fuel k : Nat} {a : VaList} {c : Word} (h : SilentFrom fmt k a c)
    (hfuel : fmt.bytes.length < fuel + k) : Writes (formatLoop collect f fmt fuel k a c) [] () := by
  induction h generalizing fuel with
  | done =>
    obtain ⟨fuel, rfl⟩ : ∃ n, fuel = n + 1 := ⟨fuel - 1, by omega⟩
    rw [formatLoop]
    refine (readFmt_writes (CString.get?_length fmt)).bind_nil ?_
    rw [if_neg (by decide), if_pos rfl]
    exact Writes.pure ()
  | @string k a c v hq hread hblank _ ih =>
    have hk := CString.get?_lt hq (by decide)
    obtain ⟨fuel, rfl⟩ : ∃ n, fuel = n + 1 := ⟨fuel - 1, by omega⟩
    obtain ⟨l, v', j, hread', hj, hend, -⟩ := readFlags_writes fmt (fmt.bytes.length + 1)
      { fmt := k + 1, ap := a, color := c } hk (by dsimp only; omega)
    obtain ⟨-, heq⟩ := hread.unique hread'
    have hvj : v.fmt = j + 1 := (congrArg (fun r => r.2.fmt) heq).trans hj
    have hle : k + 1 ≤ j := hend.le
    have hv : v.WidthOk := (readFlags_width _ (widthOk_start _ a c)).of_ok trivial (hread [])
    have hstr := (printStr_nil (if v.ap.word 0 = 0#32 then nullText
      else v.ap.string (v.ap.word 0)) v hv.1 hv.2).2 ⟨hblank.width, hblank.string⟩
    have hdir : Writes (directive collect f fmt { fmt := k + 1, ap := a, color := c }) []
        { v with ap := v.ap.drop 1 } := hread.bind_nil (hstr.bind_nil (Writes.pure _))
    rw [formatLoop]
    refine (readFmt_writes hq).bind_nil ?_
    rw [if_pos rfl]
    exact hdir.bind_nil (ih (by omega))

end

theorem not_silent_errorFormat (ap : VaList) : ¬ Silent errorFormat ap := by
  intro h
  generalize hk : (0 : Nat) = k at h
  cases h with
  | string hq _ _ _ =>
    subst hk
    exact absurd hq (by decide)

theorem errorString_ne_nil {n : Nat} {q : CString} (h : errorString n = some q) : q.bytes ≠ [] := by
  intro hnil
  have hall : ∀ n < 10, ∀ q ∈ errorString n, q.bytes ≠ [] := by decide
  by_cases hn : n < 10
  · exact hall n hn q h hnil
  · rw [errorString] at h <;> first | cases h | omega

theorem not_silent_messageFormat {q : CString} (hq : q.bytes ≠ []) :
    ¬ Silent messageFormat ⟨fun _ => 1#32, fun _ => q⟩ := by
  intro h
  have hread : Writes (readFlags messageFormat (messageFormat.bytes.length + 1)
      { fmt := 1, ap := ⟨fun _ => 1#32, fun _ => q⟩, color := 0#32 }) []
      (.conv .s, { fmt := 2, ap := ⟨fun _ => 1#32, fun _ => q⟩, color := 0#32 }) := by
    intro out
    rw [List.append_nil]
    rfl
  generalize hk : (0 : Nat) = k at h
  cases h with
  | string _ hread' hblank _ =>
    subst hk
    obtain ⟨-, heq⟩ := hread.unique hread'
    have hv := (Prod.mk.inj heq).2
    subst hv
    exact hq hblank.string

theorem errorsShow_throw : ErrorsShow fun _ _ => throw .fuel where
  appends _ _ := fun _ => Carries.throw _
  number _ h := absurd (h []) (by simp)
  message _ _ _ h := absurd (h []) (by simp)

theorem errorsShow_printfmt : ErrorsShow (printfmt collect) where
  appends _ ap := formatLoop_appends errorsShow_throw.appends _ _ ap _
  number ap h := not_silent_errorFormat ap (silentFrom_of_writes errorsShow_throw h)
  message _ _ hq h :=
    not_silent_messageFormat (errorString_ne_nil hq) (silentFrom_of_writes errorsShow_throw h)

/-- **`vcprintf`** of the kernel and that of the user library both return the number of characters
if and only if there are none. -/
theorem vcprintf_count_iff (fmt : CString) (ap : VaList) : CountsAgree fmt ap ↔ Silent fmt ap := by
  have happends : Appends (vprintfmt collect fmt ap) :=
    formatLoop_appends errorsShow_printfmt.appends _ _ ap _
  constructor
  · rintro ⟨out, hout, -, hkern⟩
    obtain ⟨r, s, hrun, hr⟩ := hkern 0#32 ⟨[], fun _ => 0#32⟩
    have hzero := (EStateM.Result.ok.inj ((kernVcprintf_run hout _ _).symm.trans hrun)).1
    have hnil : out = [] := List.eq_nil_of_length_eq_zero (by rw [← hr, ← hzero]; rfl)
    rw [hnil] at hout
    exact silentFrom_of_writes errorsShow_printfmt (happends.writes hout)
  · intro h
    have hout : Generates fmt ap [] := h.writes (by omega) []
    refine ⟨[], hout, fun buf => ?_, fun cntAt k => ⟨_, _, kernVcprintf_run hout cntAt k, rfl⟩⟩
    obtain ⟨b, calls, hrun, -, -⟩ := vcprintf_run hout buf
    exact ⟨_, _, hrun, rfl⟩

/-- The kernel returns 0 when it has printed one character. -/
theorem not_countsAgree :
    ¬ CountsAgree ⟨ascii "a", by decide⟩ ⟨fun _ => 0#32, fun _ => nullText⟩ := by
  rintro ⟨out, hout, -, hkern⟩
  obtain ⟨r, s, hrun, hr⟩ := hkern 0#32 ⟨[], fun _ => 0#32⟩
  have hzero := (EStateM.Result.ok.inj ((kernVcprintf_run hout _ _).symm.trans hrun)).1
  have hone : Generates ⟨ascii "a", by decide⟩ ⟨fun _ => 0#32, fun _ => nullText⟩ [0x61#32] := rfl
  have hlen := (EStateM.Result.ok.inj (hone.symm.trans hout)).2
  rw [← hzero, ← hlen] at hr
  exact absurd hr (by decide)

end Jos
