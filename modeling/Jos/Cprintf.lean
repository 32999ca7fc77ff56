import Mathlib.Data.List.TakeWhile
import Jos.Cputs
import Jos.Printfmt.Clean
import Jos.Printfmt.Directive

/-!
# `cprintf` of the user library

`vcprintf` of `lib/printf.c` collects the characters in a buffer and hands the buffer to the kernel
whenever it is full, and once more at the end.  The kernel prints a buffer as a string, which a NUL
ends: what comes after a NUL in the same buffer is lost.
-/

set_option autoImplicit false

namespace Jos

open Command Kernel

/-! ## `lib/printf.c` -/

/-- `struct printbuf`; memory from `buf` on is what it is. -/
structure Printbuf where
  idx : Nat
  cnt : Word
  buf : Nat → Byte

/-- A call of `sys_cputs`: what is in the buffer at that time, and the length. -/
structure CputsCall where
  buf : Nat → Byte
  len : Nat

/-- The user library's side: its buffer, and the system calls it has made. -/
structure UserOut where
  b : Printbuf
  calls : List CputsCall

/-- `sys_cputs(b->buf, b->idx)`. -/
def UserOut.sysCputs (s : UserOut) : UserOut :=
  { s with calls := s.calls ++ [⟨s.b.buf, s.b.idx⟩] }

/-- `putch`. -/
def userPutch (ch : Word) (s : UserOut) : UserOut :=
  let s := { s with b := { s.b with
    buf := Function.update s.b.buf s.b.idx (ch.setWidth 8), idx := s.b.idx + 1 } }
  let s := if s.b.idx = 256 - 1 then
      { s.sysCputs with b := { s.b with idx := 0 } }
    else s
  { s with b := { s.b with cnt := s.b.cnt + 1#32 } }

/-- `vcprintf`. -/
def vcprintf (fmt : CString) (ap : VaList) : PrintM UserOut Word := do
  modify fun s => { s with b := { s.b with idx := 0, cnt := 0#32 } }
  vprintfmt userPutch fmt ap
  modify UserOut.sysCputs
  return (← get).b.cnt

/-! ## What is handed to the kernel -/

/-- The characters as bytes. -/
def lowBytes (out : List Word) : List Byte := out.map (·.setWidth 8)

namespace CputsCall

/-- The bytes of the buffer that the call is about. -/
def text (call : CputsCall) : List Byte := (List.range call.len).map call.buf

/-- Those before the first NUL. -/
def printed (call : CputsCall) : List Byte := call.text.takeWhile (· ≠ 0#8)

end CputsCall

/-- Where things stand when the characters `l` have been handed over. -/
structure Collected (l : List Word) (s : UserOut) : Prop where
  idx : s.b.idx < 255
  cnt : s.b.cnt = BitVec.ofNat 32 l.length
  calls : ∀ call ∈ s.calls, call.len ≤ 255
  bytes : (s.calls.map CputsCall.text).flatten ++ (List.range s.b.idx).map s.b.buf = lowBytes l

/-- A byte is stored after those in the buffer. -/
theorem map_update (buf : Nat → Byte) (n : Nat) (b : Byte) :
    (List.range (n + 1)).map (Function.update buf n b) = (List.range n).map buf ++ [b] := by
  rw [List.range_succ, List.map_append, List.map_singleton, Function.update_self]
  congr 1
  refine List.map_congr_left fun i hi => Function.update_of_ne ?_ _ _
  exact Nat.ne_of_lt (List.mem_range.1 hi)

/-- A character more, with the buffer handed over when it is full. -/
theorem Collected.step {l : List Word} {s : UserOut} (h : Collected l s) (ch : Word) :
    Collected (l ++ [ch]) (userPutch ch s) := by
  have hlen : s.b.cnt + 1#32 = BitVec.ofNat 32 (l ++ [ch]).length := by
    rw [h.cnt, List.length_append, List.length_singleton, BitVec.ofNat_add]
  have hbytes : (s.calls.map CputsCall.text).flatten ++
      (List.range (s.b.idx + 1)).map (Function.update s.b.buf s.b.idx (ch.setWidth 8)) =
        lowBytes (l ++ [ch]) := by
    rw [map_update, ← List.append_assoc, h.bytes, lowBytes, lowBytes, List.map_append]
    rfl
  by_cases hfull : s.b.idx + 1 = 256 - 1
  · have hput : userPutch ch s =
      ⟨⟨0, s.b.cnt + 1#32, Function.update s.b.buf s.b.idx (ch.setWidth 8)⟩,
        s.calls ++ [⟨Function.update s.b.buf s.b.idx (ch.setWidth 8), s.b.idx + 1⟩]⟩ := by
      rw [userPutch]
      dsimp only
      rw [if_pos hfull]
      rfl
    rw [hput]
    refine ⟨Nat.zero_lt_succ _, hlen, fun call hcall => ?_, ?_⟩
    · rcases List.mem_append.1 hcall with hc | hc
      · exact h.calls call hc
      · rw [List.mem_singleton.1 hc]
        exact Nat.le_of_eq hfull
    · rw [List.map_append, List.flatten_append, List.range_zero, List.map_nil, List.append_nil,
        List.map_singleton, List.flatten_singleton]
      exact hbytes
  · have hput : userPutch ch s = ⟨⟨s.b.idx + 1, s.b.cnt + 1#32,
        Function.update s.b.buf s.b.idx (ch.setWidth 8)⟩, s.calls⟩ := by
      rw [userPutch]
      dsimp only
      rw [if_neg hfull]
    have hidx := h.idx
    rw [hput]
    exact ⟨by dsimp only; omega, hlen, h.calls, hbytes⟩

/-- **`vcprintf`** hands all the characters to the kernel, in order, in calls of no more than 255
bytes, and returns how many there are. -/
theorem vcprintf_run {fmt : CString} {ap : VaList} {out : List Word} (hout : Generates fmt ap out)
    (buf : Nat → Byte) : ∃ b calls,
      (vcprintf fmt ap).run ⟨⟨0, 0#32, buf⟩, []⟩ = .ok (BitVec.ofNat 32 out.length) ⟨b, calls⟩ ∧
      (∀ call ∈ calls, call.len ≤ 255) ∧ (calls.map CputsCall.text).flatten = lowBytes out := by
  have hall := puts_induction (P := Collected) userPutch ⟨⟨0, 0#32, buf⟩, []⟩
    ⟨Nat.zero_lt_succ _, rfl, fun _ h => absurd h List.not_mem_nil, rfl⟩
    (fun l ch s h => h.step ch) out
  have hrun := hout.run userPutch ⟨⟨0, 0#32, buf⟩, []⟩
  generalize puts userPutch out ⟨⟨0, 0#32, buf⟩, []⟩ = s at hrun hall
  refine ⟨s.b, s.calls ++ [⟨s.b.buf, s.b.idx⟩], ?_, fun call hcall => ?_, ?_⟩
  · rw [vcprintf, run_bind_ok (EStateM.run_modify ..), run_bind_ok hrun,
      run_bind_ok (EStateM.run_modify ..), ← hall.cnt]
    rfl
  · rcases List.mem_append.1 hcall with hc | hc
    · exact hall.calls call hc
    · rw [List.mem_singleton.1 hc]
      exact Nat.le_of_lt hall.idx
  · rw [List.map_append, List.flatten_append, List.map_singleton, List.flatten_singleton]
    exact hall.bytes

/-! ## What the kernel prints -/

variable {s : Kernel} {p : Word} {e : EnvIndex} {d : Nat}

/-- A text on the console. -/
def Kernel.prints (s : Kernel) (text : List Byte) : Kernel :=
  { s with consOut := text.reverse ++ s.consOut }

theorem Kernel.prints_cons (s : Kernel) (b : Byte) (text : List Byte) :
    s.prints (b :: text) = (s.printed b).prints text := by
  rw [Kernel.prints, Kernel.prints, List.reverse_cons, List.append_assoc]
  rfl

/-- The loop of the kernel prints the string up to its NUL and up to the precision, as long as it
does not read further than the bytes known. -/
theorem printfmtS_run (l : List Byte) (precision : Int) (fuel : Nat)
    (hstop : (0 ≤ precision ∧ precision < l.length) ∨ 0#8 ∈ l)
    (hbytes : ∀ i (h : i < l.length), s.kbyte (p + BitVec.ofNat 32 i) = some l[i])
    (hfuel : l.length ≤ fuel) :
    (printfmtS fuel p precision).run s =
      .ok () (s.prints (cut precision (l.takeWhile (· ≠ 0#8)))) := by
  induction l generalizing s p precision fuel with
  | nil =>
    rcases hstop with h | h
    · rw [List.length_nil] at h
      omega
    · exact absurd h List.not_mem_nil
  | cons b l ih =>
    rw [List.length_cons] at hfuel
    obtain ⟨fuel, rfl⟩ : ∃ n, fuel = n + 1 := ⟨fuel - 1, by omega⟩
    have hb : s.kbyte p = some b := by
      have h0 := hbytes 0 (Nat.zero_lt_succ _)
      rwa [BitVec.add_zero] at h0
    rw [printfmtS, run_bind_ok (kloadByte_run hb)]
    by_cases hnul : b = 0#8
    · have hnil : (b :: l).takeWhile (· ≠ 0#8) = [] :=
        List.takeWhile_cons_of_neg (by simpa using hnul)
      rw [if_pos hnul, hnil, cut_nil]
      rfl
    have hcons : (b :: l).takeWhile (· ≠ 0#8) = b :: l.takeWhile (· ≠ 0#8) :=
      List.takeWhile_cons_of_pos (by simpa using hnul)
    have hrest : ∀ i (h : i < l.length), (s.printed b).kbyte (p + 1#32 + BitVec.ofNat 32 i) =
        some l[i] := by
      intro i hi
      have hnext := hbytes (i + 1) (Nat.succ_lt_succ hi)
      rw [List.getElem_cons_succ, Nat.add_comm, BitVec.ofNat_add, ← BitVec.add_assoc] at hnext
      exact hnext
    have hmem : 0#8 ∈ b :: l → 0#8 ∈ l := fun h =>
      (List.mem_cons.1 h).resolve_left fun h0 => hnul h0.symm
    rw [List.length_cons] at hstop
    rw [if_neg hnul, hcons, cut_cons]
    by_cases hneg : precision < 0
    · rw [if_pos hneg, if_pos (Or.inl hneg), if_pos hneg, Kernel.prints_cons,
        run_bind_ok (EStateM.run_modify ..)]
      exact ih _ _ (Or.inr (hmem (hstop.resolve_left (by omega)))) hrest (by omega)
    rw [if_neg hneg]
    by_cases hmore : 0 ≤ precision - 1
    · rw [if_pos hmore, if_pos (Or.inr hmore), if_neg hneg, Kernel.prints_cons,
        run_bind_ok (EStateM.run_modify ..)]
      refine ih _ _ ?_ hrest (by omega)
      rcases hstop with h | h
      · exact Or.inl (by omega)
      · exact Or.inr (hmem h)
    · rw [if_neg hmore, if_neg (by omega)]
      rfl

/-- `"%.*s"`. -/
def cputsFormat : CString := ⟨ascii "%.*s", by decide⟩

/-- `"%.*s"` prints the string up to the precision that is given with it. -/
theorem cputsFormat_generates {q : CString} {len : Word} (hp : p ≠ 0#32)
    (hlen : q.bytes.length < 2 ^ 31) :
    Generates cputsFormat ⟨fun n => if n = 0 then len else p, fun _ => q⟩
      ((cut len.toInt q.bytes).map (shown false)) := by
  generalize hap : (⟨fun n => if n = 0 then len else p, fun _ => q⟩ : VaList) = ap
  have hstring : (if (ap.drop 1).word 0 = 0#32 then nullText else (ap.drop 1).string
      ((ap.drop 1).word 0)) = q := by
    rw [← hap]
    exact if_neg hp
  have hword : ap.word 0 = len := by
    rw [← hap]
    rfl
  have hcut : (cut len.toInt q.bytes).length < 2 ^ 31 := by
    rw [cut]
    split
    · exact hlen
    · rw [List.length_take]
      omega
  have hread : Writes (readFlags cputsFormat 5 { fmt := 1, ap := ap, color := 0#32 }) []
      (.conv .s, ⟨4, ap.drop 1, 0#32, chr ' ', 0, (ap.word 0).toInt, 0, false⟩) := fun out => by
    rw [List.append_nil]
    rfl
  rw [hword] at hread
  obtain ⟨w, hchars, hw⟩ := printChars_writes false q.bytes len.toInt 0
  have hdone : w.toNat = 0 := by
    have := hw (by omega) (by decide)
    omega
  have hstr : Writes (printStr collect q ⟨4, ap.drop 1, 0#32, chr ' ', 0, len.toInt, 0, false⟩)
      ((cut len.toInt q.bytes).map (shown false)) () := by
    have hend := emitTimes_writes ((chr ' ').setWidth 32) w.toNat
    rw [hdone] at hend
    rw [printStr]
    dsimp only
    rw [if_neg fun hh => absurd hh.1 (by decide)]
    exact hchars.then_return (hdone ▸ hend)
  have hconv : Writes (directive collect (printfmt collect) cputsFormat
      { fmt := 1, ap := ap, color := 0#32 }) ((cut len.toInt q.bytes).map (shown false))
      ⟨4, (ap.drop 1).drop 1, 0#32, chr ' ', 0, len.toInt, 0, false⟩ := by
    refine hread.bind_nil ?_
    simp only [convert]
    rw [hstring]
    exact hstr.then_return (Writes.pure _)
  have hloop : Writes (vprintfmt collect cputsFormat ap)
      ((cut len.toInt q.bytes).map (shown false)) () := by
    rw [vprintfmt, show cputsFormat.bytes.length + 1 = 5 from rfl, formatLoop]
    refine (readFmt_writes (show cputsFormat.get? 0 = some (chr '%') from rfl)).bind_nil ?_
    rw [if_pos rfl]
    refine hconv.then_return ?_
    rw [formatLoop]
    refine (readFmt_writes (show cputsFormat.get? 4 = some 0#8 from rfl)).bind_nil ?_
    rw [if_neg (by decide), if_pos rfl]
    exact Writes.pure ()
  exact hloop []

/-- The loop is what `vprintfmt` does with `"%.*s"`. -/
theorem cprintS_generates {q : CString} {len : Word} (hp : p ≠ 0#32)
    (hq : ∀ i (_ : i ≤ q.bytes.length), s.kbyte (p + BitVec.ofNat 32 i) = q.get? i)
    (hlen : q.bytes.length < 2 ^ 31) : ∃ out,
      Generates cputsFormat ⟨fun n => if n = 0 then len else p, fun _ => q⟩ out ∧
        (cprintS p len).run s = .ok () (s.prints (lowBytes out)) := by
  refine ⟨_, cputsFormat_generates hp hlen, ?_⟩
  have hstop : (q.bytes ++ [0#8]).takeWhile (· ≠ 0#8) = q.bytes := by
    rw [List.takeWhile_append_of_pos fun b hb => ?_, List.takeWhile_cons_of_neg (by decide),
      List.append_nil]
    simpa using fun h : b = 0#8 => q.noNul (h ▸ hb)
  have hlow : lowBytes ((cut len.toInt q.bytes).map (shown false)) = cut len.toInt q.bytes := by
    rw [lowBytes, List.map_map]
    refine (List.map_congr_left fun b _ => ?_).trans (List.map_id _)
    have hall : ∀ b : Byte, (shown false b).setWidth 8 = b := by decide
    exact hall b
  rw [cprintS, if_neg hp, hlow]
  have hloop := printfmtS_run (s := s) (p := p) (q.bytes ++ [0#8]) len.toInt (2 ^ 32)
    (Or.inr (by simp)) (fun i hi => ?_) ?_
  · rwa [hstop] at hloop
  · rw [List.length_append, List.length_singleton] at hi
    rw [hq i (by omega), CString.get?, List.getElem?_eq_getElem]
  · rw [List.length_append, List.length_singleton]
    omega

/-- The buffer of a call is in user memory at `p`, and the caller runs with its own directory. -/
structure CputsCall.At (call : CputsCall) (s : Kernel) (p : Word) (e : EnvIndex) (d : Nat) :
    Prop where
  curenv : s.curenv = some e
  dir : (s.envs e).envPgdir = some d
  cr3 : s.cr3 s.cpunum = d
  notNull : p ≠ 0#32
  accessible : ∀ i < 256, s.Accessible d (pteU ||| pteP) (p.toNat + i)
  bytes : ∀ i < 256, s.kbyte (p + BitVec.ofNat 32 i) = some (call.buf i)

/-- A buffer that the user may access is let pass. -/
theorem CputsCall.At.checked {call : CputsCall} (h : call.At s p e d) (hlen : call.len ≤ 255) :
    ∃ a, (userMemCheck e p (BitVec.ofNat 32 call.len) (pteU ||| pteU)).run s =
      .ok 0#32 (s.checkingAt a) := by
  have hul := ulim_toNat
  have hlast := (h.accessible 255 (by decide)).1
  have hn : (BitVec.ofNat 32 call.len).toNat = call.len := by
    rw [BitVec.toNat_ofNat]
    omega
  refine userMemCheck_passed h.dir fun k hk => ?_
  rw [roundUp_add (by omega), hn] at hk
  -- the page belongs to one of the bytes
  obtain ⟨i, hi, hpage⟩ : ∃ i < 256, (p.toNat + i) / 4096 = (p.toNat + 4096 * k) / 4096 := by
    rcases Nat.eq_zero_or_pos k with rfl | hk0
    · exact ⟨0, by decide, rfl⟩
    · exact ⟨call.len - 1, by omega, by omega⟩
  obtain ⟨hlt, hg⟩ := h.accessible i hi
  refine ⟨?_, (grants_samePage (by omega) (by omega) hpage).1 hg⟩
  rw [BitVec.le_def, BitVec.toNat_ofNat]
  omega

/-- **`sys_cputs`** prints the part of the buffer before the first NUL. -/
theorem CputsCall.At.run {call : CputsCall} (h : call.At s p e d) (hlen : call.len ≤ 255) :
    ∃ s', (sysCputs p (BitVec.ofNat 32 call.len)).run s = .ok () s' ∧
      s'.consOut = call.printed.reverse ++ s.consOut := by
  obtain ⟨a, hcheck⟩ := h.checked hlen
  have hassert : (userMemAssert e p (BitVec.ofNat 32 call.len) pteU).run s =
      .ok () (s.checkingAt a) := by
    rw [userMemAssert, run_bind_ok hcheck]
    rfl
  have hderef : (derefEnv s.curenv).run s = .ok e s := by
    rw [h.curenv]
    rfl
  have hprec : (BitVec.ofNat 32 call.len).toInt = call.len := by
    rw [BitVec.toInt_eq_toNat_cond, BitVec.toNat_ofNat]
    omega
  have hlist : ((List.range 256).map call.buf).length = 256 := by
    rw [List.length_map, List.length_range]
  have hloop := printfmtS_run (s := s.checkingAt a) (p := p) ((List.range 256).map call.buf)
    call.len (2 ^ 32) (Or.inl (by rw [hlist]; omega)) (fun i hi => by
      rw [hlist] at hi
      rw [List.getElem_map, List.getElem_range]
      exact h.bytes i hi) (by rw [hlist]; omega)
  have hprinted : cut call.len (((List.range 256).map call.buf).takeWhile (· ≠ 0#8)) =
      call.printed := by
    rw [cut, if_neg (by omega), Int.toNat_natCast, List.take_takeWhile, ← List.map_take,
      List.take_range, Nat.min_eq_left (by omega)]
    rfl
  rw [hprinted] at hloop
  refine ⟨(s.checkingAt a).prints call.printed, ?_, rfl⟩
  rw [sysCputs, run_bind_ok (EStateM.run_get _), run_bind_ok hderef, run_bind_ok hassert, cprintS,
    if_neg h.notNull, hprec]
  exact hloop

/-! ## All of it -/

/-- What the kernel prints for the calls is what they hand over unless there is a NUL in it. -/
theorem flatten_printed (calls : List CputsCall) :
    (calls.map CputsCall.printed).flatten = (calls.map CputsCall.text).flatten ↔
      ∀ b ∈ (calls.map CputsCall.text).flatten, b ≠ 0#8 := by
  constructor
  · intro heq b hb
    rw [← heq] at hb
    obtain ⟨l, hl, hbl⟩ := List.mem_flatten.1 hb
    obtain ⟨call, -, rfl⟩ := List.mem_map.1 hl
    simpa using List.mem_takeWhile_imp hbl
  · intro hall
    congr 1
    refine List.map_congr_left fun call hcall => List.takeWhile_eq_self_iff.2 fun b hb => ?_
    simpa using hall b (List.mem_flatten.2 ⟨call.text, List.mem_map_of_mem hcall, hb⟩)

/-- **`cprintf` of the user library.**  All the characters are handed to the kernel, in order, and
counted.  What the kernel prints for the calls is all of them if and only if no `%c` has been given
a word whose low byte is 0. -/
theorem cprintf_delivers_iff {fmt : CString} {ap : VaList} (herr : ErrorArgs fmt ap)
    (buf : Nat → Byte) : ∃ out b calls, Generates fmt ap out ∧
      (vcprintf fmt ap).run ⟨⟨0, 0#32, buf⟩, []⟩ = .ok (BitVec.ofNat 32 out.length) ⟨b, calls⟩ ∧
      (∀ call ∈ calls, ∀ s p e d, call.At s p e d → ∃ s',
        (sysCputs p (BitVec.ofNat 32 call.len)).run s = .ok () s' ∧
          s'.consOut = call.printed.reverse ++ s.consOut) ∧
      ((calls.map CputsCall.printed).flatten = lowBytes out ↔ CharArgs fmt ap) := by
  obtain ⟨out, hout, ⟨a, c, hend⟩, -⟩ := vprintfmt_total herr
  obtain ⟨b, calls, hrun, hlen, htext⟩ := vcprintf_run hout buf
  refine ⟨out, b, calls, hout, hrun, fun call hcall s p e d h => h.run (hlen call hcall), ?_⟩
  have hlow : (∀ byte ∈ lowBytes out, byte ≠ 0#8) ↔ NonNul out := List.forall_mem_map
  rw [← nonNul_iff herr hout hend, ← hlow, ← htext]
  exact flatten_printed calls

/-- A call prints no more than it hands over. -/
theorem length_flatten_printed {n : Nat} {calls : List CputsCall}
    (hlen : ∀ call ∈ calls, call.len ≤ n) :
    (calls.map CputsCall.printed).flatten.length ≤ n * calls.length := by
  induction calls with
  | nil => exact Nat.zero_le _
  | cons call calls ih =>
    have hcall : call.printed.length ≤ n := by
      refine (List.takeWhile_sublist _).length_le.trans ?_
      rw [CputsCall.text, List.length_map, List.length_range]
      exact hlen call List.mem_cons_self
    have hcalls := ih fun c hc => hlen c (List.mem_cons_of_mem _ hc)
    rw [List.map_cons, List.flatten_cons, List.length_append, List.length_cons, Nat.mul_succ]
    omega

/-! ## A buffer that fills up -/

/-- A page with the first `n` bytes of the buffer. -/
def bufPage (buf : Nat → Byte) : Nat → Page
  | 0 => fun _ => 0#32
  | n + 1 => setByte (bufPage buf n) n (buf n)

theorem byteAt_bufPage (buf : Nat → Byte) {n o : Nat} (hn : n ≤ 4096) (ho : o < n) :
    byteAt (bufPage buf n) o = buf o := by
  induction n with
  | zero => exact absurd ho (Nat.not_lt_zero o)
  | succ n ih =>
    rw [bufPage]
    by_cases heq : o = n
    · rw [heq, byteAt_setByte_self]
    · rw [byteAt_setByte_ne _ _ (by omega) (by omega) heq]
      exact ih (by omega) (by omega)

/-- The page at `UTEXT` is `p`. -/
def pageAtUtext (p : Page) : Kernel :=
  { twoMapped with mem := Function.update twoMapped.mem 0 p }

theorem pageAtUtext_mem_ne (p : Page) {f : Nat} (hf : f ≠ 0) :
    (pageAtUtext p).mem f = twoMapped.mem f :=
  Function.update_of_ne hf _ _

theorem pageAtUtext_grants (p : Page) : (pageAtUtext p).Grants 1 (pteU ||| pteP) utext := by
  refine (grants_iff utext).2 ⟨2, ?_, Nat.lt_succ_self 2, ?_⟩
  · rw [pageAtUtext_mem_ne p (by decide)]
    decide
  · rw [pageAtUtext_mem_ne p (by decide)]
    decide

theorem utext_add {i : Nat} (hi : i < 4096) : pdx (utext + BitVec.ofNat 32 i) = pdx utext ∧
    ptx (utext + BitVec.ofNat 32 i) = 0 ∧ pgoff (utext + BitVec.ofNat 32 i) = i := by
  have hu : utext.toNat = 2048 * 4096 := by decide
  have hva : (utext + BitVec.ofNat 32 i).toNat = 2048 * 4096 + i := by
    rw [BitVec.toNat_add, hu, BitVec.toNat_ofNat]
    omega
  refine ⟨Fin.ext ?_, Fin.ext ?_, ?_⟩
  · rw [pdx_val, pdx_val, hva, hu]
    omega
  · rw [ptx_val, hva]
    show _ = 0
    omega
  · rw [pgoff_eq, hva]
    omega

theorem pageAtUtext_kbyte (p : Page) {i : Nat} (hi : i < 4096) :
    (pageAtUtext p).kbyte (utext + BitVec.ofNat 32 i) = some (byteAt p i) := by
  obtain ⟨hpdx, hptx, hoff⟩ := utext_add hi
  have hdir : twoMapped.mem 1 (pdx utext) = page2pa 2 ||| pteP ||| pteU := by decide
  have hentry : twoMapped.mem 2 0 = page2pa 0 ||| pteP ||| pteU := by decide
  have htable : framed (page2pa 2 ||| pteP ||| pteU) = some 2 := by decide
  have hframe : framed (page2pa 0 ||| pteP ||| pteU) = some 0 := by decide
  have htrans : (pageAtUtext p).translate 1 pteP (utext + BitVec.ofNat 32 i) = some (0, i) := by
    rw [Kernel.translate, hpdx, hptx, hoff, pageAtUtext_mem_ne p (by decide), hdir,
      if_neg (by decide), htable, Option.bind_some, pageAtUtext_mem_ne p (by decide), hentry,
      if_neg (by decide), hframe, Option.map_some]
  rw [Kernel.kbyte, show (pageAtUtext p).cr3 (pageAtUtext p).cpunum = 1 from rfl, htrans]
  rfl

/-- The buffer of a call is at `UTEXT`. -/
theorem CputsCall.at_utext (call : CputsCall) :
    call.At (pageAtUtext (bufPage call.buf 256)) utext 0 1 := by
  have hbyte {i : Nat} (hi : i < 256) : byteAt (bufPage call.buf 256) i = call.buf i :=
    byteAt_bufPage _ (by decide) hi
  generalize bufPage call.buf 256 = p at hbyte
  have hu : utext.toNat = 2048 * 4096 := by decide
  refine ⟨rfl, rfl, rfl, by decide, fun i hi => ⟨?_, (grants_page ?_).2 (pageAtUtext_grants p)⟩,
    fun i hi => ?_⟩
  · have hul := ulim_toNat
    rw [hu]
    omega
  · rw [pgnum_eq, pgnum_eq, BitVec.toNat_ofNat, hu]
    omega
  · rw [pageAtUtext_kbyte p (by omega), hbyte hi]

/-- A number in 300 columns and a character: the buffer is handed over before the end. -/
def wideFormat : CString := ⟨ascii "%300x%c", by decide⟩

/-- Both are given `0x41`. -/
def wideArgs : VaList := ⟨fun _ => 0x41#32, fun _ => nullText⟩

/-- The spaces, the number and the character. -/
def wideText : List Byte := List.replicate 298 (chr ' ') ++ ascii "41A"

theorem wideText_length : wideText.length = 301 := by decide +kernel

theorem wideText_nonNul : NonNul (chars wideText) := by
  have hall : (chars wideText).all (fun ch => ch.setWidth 8 != 0#8) = true := by decide +kernel
  exact fun ch hch => bne_iff_ne.1 (List.all_eq_true.1 hall ch hch)

theorem wideFormat_generates : Generates wideFormat wideArgs (chars wideText) := by
  have hrun : (match (vprintfmt collect wideFormat wideArgs).run [] with
      | .ok _ out => some out
      | .error .. => none) = some (chars wideText) := by decide +kernel
  rw [Generates]
  cases hres : (vprintfmt collect wideFormat wideArgs).run [] with
  | ok _ out =>
    rw [hres] at hrun
    rw [Option.some_inj.1 hrun]
  | error _ _ =>
    rw [hres] at hrun
    exact absurd hrun (by simp)

theorem wideFormat_errorArgs : ErrorArgs wideFormat wideArgs := by
  intro k a c text v _ hq hread
  have hk : ∀ k < 8, wideFormat.get? k = some (chr '%') → k = 0 ∨ k = 5 := by decide
  rcases hk k (Nat.lt_succ_of_le (CString.get?_le hq)) hq with rfl | rfl
  · have hres := hread []
    cases hres
  · have hres := hread []
    cases hres

theorem wideFormat_charArgs : CharArgs wideFormat wideArgs := by
  obtain ⟨out, hout, ⟨a, c, hend⟩, -⟩ := vprintfmt_total wideFormat_errorArgs
  obtain rfl : out = chars wideText :=
    (EStateM.Result.ok.inj (hout.symm.trans wideFormat_generates)).2
  exact (nonNul_iff wideFormat_errorArgs hout hend).1 wideText_nonNul

/-- The 301 characters go to the kernel in two calls or more, and it prints them all. -/
theorem cprintf_delivers_iff_wide : ∃ b calls,
    (vcprintf wideFormat wideArgs).run ⟨⟨0, 0#32, fun _ => 0xff#8⟩, []⟩ = .ok 301#32 ⟨b, calls⟩ ∧
    2 ≤ calls.length ∧ (calls.map CputsCall.printed).flatten = wideText ∧
    ∀ call ∈ calls, ∃ s',
      (sysCputs utext (BitVec.ofNat 32 call.len)).run
        (pageAtUtext (bufPage call.buf 256)) = .ok () s' ∧ s'.consOut = call.printed.reverse := by
  obtain ⟨out, b, calls, hout, hrun, hsys, hiff⟩ :=
    cprintf_delivers_iff wideFormat_errorArgs fun _ => 0xff#8
  obtain rfl : out = chars wideText :=
    (EStateM.Result.ok.inj (hout.symm.trans wideFormat_generates)).2
  have hlow : lowBytes (chars wideText) = wideText := by decide +kernel
  have hprinted : (calls.map CputsCall.printed).flatten = wideText :=
    (hiff.2 wideFormat_charArgs).trans hlow
  have hcount : BitVec.ofNat 32 (chars wideText).length = 301#32 := by
    rw [chars_length, wideText_length]
  rw [hcount] at hrun
  refine ⟨b, calls, hrun, ?_, hprinted, fun call hcall => ?_⟩
  · -- a call prints 255 bytes at most
    obtain ⟨b', calls', hrun', hlen, -⟩ := vcprintf_run hout fun _ => 0xff#8
    rw [hcount] at hrun'
    have hstate := (EStateM.Result.ok.inj (hrun.symm.trans hrun')).2
    obtain rfl : calls = calls' := (UserOut.mk.inj hstate).2
    have hle := length_flatten_printed hlen
    rw [hprinted, wideText_length] at hle
    by_contra hfew
    have hone : calls.length ≤ 1 := Nat.le_of_lt_succ (Nat.lt_of_not_le hfew)
    exact absurd (hle.trans (Nat.mul_le_mul_left 255 hone)) (by decide)
  · obtain ⟨s', hcall', hcons⟩ := hsys call hcall _ utext 0 1 call.at_utext
    exact ⟨s', hcall', hcons.trans (List.append_nil _)⟩

/-- **A NUL and an `x`**: the call hands over both, and the kernel prints neither. -/
theorem cprintf_loses :
    let fmt : CString := ⟨ascii "%cx", by decide⟩
    let ap : VaList := ⟨fun _ => 0#32, fun _ => nullText⟩
    Generates fmt ap [0#32, 0x78#32] ∧ ∃ b call,
      (vcprintf fmt ap).run ⟨⟨0, 0#32, fun _ => 0xff#8⟩, []⟩ = .ok 2#32 ⟨b, [call]⟩ ∧
      call.text = [0#8, 0x78#8] ∧
      ∀ s p e d, call.At s p e d → ∃ s',
        (sysCputs p (BitVec.ofNat 32 call.len)).run s = .ok () s' ∧ s'.consOut = s.consOut := by
  refine ⟨by rfl, _, _, rfl, by decide, fun s p e d h => ?_⟩
  obtain ⟨s', hrun, hout⟩ := h.run (by decide)
  exact ⟨s', hrun, hout⟩

end Jos
