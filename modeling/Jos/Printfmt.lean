import Jos.Layout

/-!
# `lib/printfmt.c`

`vprintfmt` goes through a format string and calls `putch` with one character after the other.  What
`putch` does with them is up to the caller: the kernel has them printed, `vsnprintf` stores them,
the user library collects them for `sys_cputs`.

The format is read a byte at a time, at a position that goes forward and, in the default case of the
switch, backward; reading a byte that is not one of the string's, or of its NUL, is a `Fault`.  The
arguments are the words on the stack from `ap` on, whatever they are.  An `int` wraps around.
-/

set_option autoImplicit false

namespace Jos

/-! ## Characters and strings -/

/-- The code of a character. -/
def chr (c : Char) : Byte := BitVec.ofNat 8 c.toNat

/-- The codes of a text. -/
def ascii (text : String) : List Byte := text.toList.map chr

/-- A string in memory, without the NUL that ends it. -/
structure CString where
  bytes : List Byte
  noNul : 0#8 ∉ bytes

/-- Byte `k` of the string; the last one is the NUL. -/
def CString.get? (s : CString) (k : Nat) : Option Byte := (s.bytes ++ [0#8])[k]?

/-- What is printed for a null pointer. -/
def nullText : CString := ⟨ascii "(null)", by decide⟩

/-- `error_string`; `none` is `NULL`. -/
def errorString : Nat → Option CString
  | 1 => some ⟨ascii "unspecified error", by decide⟩
  | 2 => some ⟨ascii "bad environment", by decide⟩
  | 3 => some ⟨ascii "invalid parameter", by decide⟩
  | 4 => some ⟨ascii "out of memory", by decide⟩
  | 5 => some ⟨ascii "out of environments", by decide⟩
  | 6 => some ⟨ascii "segmentation fault", by decide⟩
  | 8 => some ⟨ascii "env is not recving", by decide⟩
  | 9 => some ⟨ascii "unexpected end of file", by decide⟩
  | _ => none

/-- The formats that `%e` goes on with. -/
def errorFormat : CString := ⟨ascii "error %d", by decide⟩

def messageFormat : CString := ⟨ascii "%s", by decide⟩

/-- `MAXERROR`. -/
def maxError : Int := 10

/-! ## Integers and arguments -/

/-- The value of an `int` that is given `x`. -/
def int32 (x : Int) : Int := x.bmod (2 ^ 32)

/-- A `va_list`: the words on the stack from the next argument on, and the strings that pointers
point to. -/
structure VaList where
  word : Nat → Word
  string : Word → CString

/-- The arguments after the next `n` words. -/
def VaList.drop (ap : VaList) (n : Nat) : VaList := { ap with word := fun k => ap.word (k + n) }

/-- `getuint`. -/
def getuint (ap : VaList) (lflag : Int) : Nat × VaList :=
  if 2 ≤ lflag then ((ap.word 1 ++ ap.word 0).toNat, ap.drop 2)
  else if lflag ≠ 0 then ((ap.word 0).toNat, ap.drop 1)
  else ((ap.word 0).toNat, ap.drop 1)

/-- `getint`. -/
def getint (ap : VaList) (lflag : Int) : Int × VaList :=
  if 2 ≤ lflag then ((ap.word 1 ++ ap.word 0).toInt, ap.drop 2)
  else if lflag ≠ 0 then ((ap.word 0).toInt, ap.drop 1)
  else ((ap.word 0).toInt, ap.drop 1)

/-- The ways in which formatting goes wrong. -/
inductive Fault where
  /-- A byte outside the format is read. -/
  | outside
  /-- `error_string` is read at a negative index. -/
  | noMessage
  /-- The number of rounds given to a loop has been too small. -/
  | fuel
deriving DecidableEq

/-- Code that calls `putch`; `σ` is the state that `putch` works on. -/
abbrev PrintM (σ : Type) := EStateM Fault σ

/-- The local variables of `vprintfmt`; those from `padc` on are set anew for each directive. -/
structure Locals where
  /-- The position of the next byte of the format. -/
  fmt : Nat
  ap : VaList
  color : Word
  padc : Byte := chr ' '
  width : Int := -1
  precision : Int := -1
  lflag : Int := 0
  altflag : Bool := false

/-! ## The switch -/

/-- The characters that end a directive. -/
inductive Conv where
  | c | e | s | d | u | o | p | x | percent
deriving DecidableEq

/-- The characters after which the switch is entered again. -/
inductive Flag where
  | minus | zero | digit | star | dot | hash | long | color
deriving DecidableEq

/-- The labels of the switch. -/
inductive Label where
  | flag (f : Flag)
  | conv (k : Conv)
  | default
deriving DecidableEq

/-- The label at which the switch goes on. -/
def label (ch : Byte) : Label :=
  if ch = chr '-' then .flag .minus
  else if ch = chr '0' then .flag .zero
  else if chr '1' ≤ ch ∧ ch ≤ chr '9' then .flag .digit
  else if ch = chr '*' then .flag .star
  else if ch = chr '.' then .flag .dot
  else if ch = chr '#' then .flag .hash
  else if ch = chr 'l' then .flag .long
  else if ch = chr 'c' then .conv .c
  else if ch = chr 'C' then .flag .color
  else if ch = chr 'e' then .conv .e
  else if ch = chr 's' then .conv .s
  else if ch = chr 'd' then .conv .d
  else if ch = chr 'u' then .conv .u
  else if ch = chr 'o' then .conv .o
  else if ch = chr 'p' then .conv .p
  else if ch = chr 'x' then .conv .x
  else if ch = chr '%' then .conv .percent
  else .default

/-- The code at `process_precision`. -/
def Locals.processPrecision (v : Locals) (precision : Int) : Locals :=
  if v.width < 0 then { v with width := precision, precision := -1 }
  else { v with precision := precision }

/-- `Color` after `%C` with the given argument: `COLOR_RED`, `COLOR_GRN` or none. -/
def colorOf (arg : Word) : Word :=
  if arg = 0x04#32 then 0x04#32 <<< 8
  else if arg = 0x02#32 then 0x02#32 <<< 8
  else 0#32

section

variable {σ : Type}

/-! ## Numbers and strings -/

section

variable (putch : Word → σ → σ)

/-- Call `putch`. -/
def emit (ch : Word) : PrintM σ Unit := modify (putch ch)

/-- A loop that calls `putch` with the same character each time. -/
def emitTimes (ch : Word) : Nat → PrintM σ Unit
  | 0 => return ()
  | n + 1 => do
    emit putch ch
    emitTimes ch n

/-- A digit, of any base up to 16. -/
def digitChar (d : Nat) : Byte := (ascii "0123456789abcdef").getD d 0#8

/-- `printnum`; a number of 64 bits has no more than 64 digits. -/
def printnum (base : Nat) (padc : Byte) : Nat → Nat → Int → PrintM σ Unit
  | 0, _, _ => throw .fuel
  | fuel + 1, num, width => do
    if base ≤ num then
      printnum base padc fuel (num / base) (int32 (width - 1))
    else
      emitTimes putch (padc.setWidth 32) (int32 (width - 1)).toNat
    emit putch ((digitChar (num % base)).setWidth 32)

/-- `strnlen`. -/
def strnlen : List Byte → Nat → Nat
  | [], _ => 0
  | _ :: _, 0 => 0
  | _ :: bs, size + 1 => strnlen bs size + 1

/-- The loop over the characters of a string, in which `precision` and `width` are counted down; it
returns the `width`. -/
def printChars (altflag : Bool) : List Byte → Int → Int → PrintM σ Int
  | [], _, width => return width
  | b :: bs, precision, width => do
    if precision < 0 ∨ 0 ≤ precision - 1 then
      let ch : Word := b.signExtend 32
      if altflag ∧ (ch.toInt < 0x20 ∨ 0x7e < ch.toInt) then
        emit putch ((chr '?').setWidth 32)
      else
        emit putch ch
      printChars altflag bs (if precision < 0 then precision else precision - 1)
        (int32 (width - 1))
    else
      return width

/-- The case of `%s`. -/
def printStr (p : CString) (v : Locals) : PrintM σ Unit := do
  let mut width := v.width
  if 0 < width ∧ v.padc ≠ chr '-' then
    -- `precision` is passed as a `size_t`
    let size := (BitVec.ofInt 32 v.precision).toNat
    width := int32 (width - int32 (strnlen p.bytes size))
    emitTimes putch (v.padc.setWidth 32) width.toNat
    width := min width 0
  width ← printChars putch v.altflag p.bytes v.precision width
  emitTimes putch ((chr ' ').setWidth 32) width.toNat

/-- The code at `number`. -/
def printNumber (num base : Nat) (v : Locals) : PrintM σ Unit :=
  printnum putch base v.padc 64 num v.width

/-- The end of a directive; `printfmt` is what `%e` goes on with. -/
def convert (printfmt : CString → VaList → PrintM σ Unit) (k : Conv) (v : Locals) :
    PrintM σ Locals := do
  match k with
  | .c =>
    emit putch (v.ap.word 0 + v.color)
    return { v with ap := v.ap.drop 1, color := 0#32 }
  | .e =>
    let err := (v.ap.word 0).toInt
    let err := if err < 0 then int32 (-err) else err
    if maxError ≤ err then
      printfmt errorFormat { v.ap with word := fun _ => BitVec.ofInt 32 err }
    else if err < 0 then
      throw .noMessage
    else
      match errorString err.toNat with
      | none => printfmt errorFormat { v.ap with word := fun _ => BitVec.ofInt 32 err }
      | some p => printfmt messageFormat { word := fun _ => 1#32, string := fun _ => p }
    return { v with ap := v.ap.drop 1 }
  | .s =>
    let p := v.ap.word 0
    printStr putch (if p = 0#32 then nullText else v.ap.string p) v
    return { v with ap := v.ap.drop 1 }
  | .d =>
    let (num, ap) := getint v.ap v.lflag
    if num < 0 then
      emit putch ((chr '-').setWidth 32)
      printNumber putch (-num).toNat 10 v
    else
      printNumber putch num.toNat 10 v
    return { v with ap := ap }
  | .u =>
    let (num, ap) := getuint v.ap v.lflag
    printNumber putch num 10 v
    return { v with ap := ap }
  | .o =>
    let (num, ap) := getuint v.ap v.lflag
    printNumber putch num 8 v
    return { v with ap := ap }
  | .p =>
    emit putch ((chr '0').setWidth 32)
    emit putch ((chr 'x').setWidth 32)
    printNumber putch (v.ap.word 0).toNat 16 v
    return { v with ap := v.ap.drop 1 }
  | .x =>
    let (num, ap) := getuint v.ap v.lflag
    printNumber putch num 16 v
    return { v with ap := ap }
  | .percent =>
    emit putch ((chr '%').setWidth 32)
    return v

end

/-! ## The format -/

/-- Read byte `k` of the format. -/
def readFmt (fmt : CString) (k : Nat) : PrintM σ Byte :=
  match fmt.get? k with
  | some ch => return ch
  | none => throw .outside

/-- The loop that reads the digits of a width or a precision.  `ch` is the digit at hand; it returns
the number and the position of the byte after it. -/
def readNumber (fmt : CString) : Nat → Nat → Int → Byte → PrintM σ (Int × Nat)
  | 0, _, _, _ => throw .fuel
  | fuel + 1, k, precision, ch => do
    let precision := int32 (precision * 10 + ch.toNat - 48)
    let ch ← readFmt fmt k
    if ch < chr '0' ∨ chr '9' < ch then
      return (precision, k)
    else
      readNumber fmt fuel (k + 1) precision ch

/-- The loop of the default case: back to the byte after the last `%`. -/
def rewind (fmt : CString) : Nat → PrintM σ Nat
  | 0 => throw .outside
  | k + 1 => do
    if (← readFmt fmt k) = chr '%' then
      return k + 1
    else
      rewind fmt k

/-- The cases that end in `goto reswitch`; `ch` is the character of the case. -/
def readFlag (fmt : CString) (fuel : Nat) (ch : Byte) (v : Locals) : Flag → PrintM σ Locals
  | .minus => return { v with padc := chr '-' }
  | .zero => return { v with padc := chr '0' }
  | .digit => do
    let (precision, k) ← readNumber fmt fuel v.fmt 0 ch
    return { v with fmt := k }.processPrecision precision
  | .star => return { v with ap := v.ap.drop 1 }.processPrecision (v.ap.word 0).toInt
  | .dot => return { v with width := if v.width < 0 then 0 else v.width }
  | .hash => return { v with altflag := true }
  | .long => return { v with lflag := int32 (v.lflag + 1) }
  | .color => return { v with ap := v.ap.drop 1, color := colorOf (v.ap.word 0) }

/-- From `reswitch` on, until it is not entered again. -/
def readFlags (fmt : CString) : Nat → Locals → PrintM σ (Label × Locals)
  | 0, _ => throw .fuel
  | fuel + 1, v => do
    let ch ← readFmt fmt v.fmt
    let v := { v with fmt := v.fmt + 1 }
    match label ch with
    | .flag f =>
      let v ← readFlag fmt (fuel + 1) ch v f
      readFlags fmt fuel v
    | l => return (l, v)

/-- The default case: the directive is printed as it is. -/
def literally (putch : Word → σ → σ) (fmt : CString) (v : Locals) : PrintM σ Locals := do
  emit putch ((chr '%').setWidth 32)
  let k ← rewind fmt (v.fmt - 1)
  return { v with fmt := k }

/-- A directive, after its `%`. -/
def directive (putch : Word → σ → σ) (printfmt : CString → VaList → PrintM σ Unit) (fmt : CString)
    (v : Locals) : PrintM σ Locals := do
  let (l, v) ← readFlags fmt (fmt.bytes.length + 1) v
  match l with
  | .conv k => convert putch printfmt k v
  | _ => literally putch fmt v

/-- The outer loops: literal text up to a `%`, a directive, and again. -/
def formatLoop (putch : Word → σ → σ) (printfmt : CString → VaList → PrintM σ Unit)
    (fmt : CString) : Nat → Nat → VaList → Word → PrintM σ Unit
  | 0, _, _, _ => throw .fuel
  | fuel + 1, k, ap, color => do
    let ch ← readFmt fmt k
    if ch = chr '%' then
      let v ← directive putch printfmt fmt { fmt := k + 1, ap := ap, color := color }
      formatLoop putch printfmt fmt fuel v.fmt v.ap v.color
    else if ch = 0#8 then
      return ()
    else
      emit putch (ch.setWidth 32)
      formatLoop putch printfmt fmt fuel (k + 1) ap color

/-- `printfmt` as `%e` calls it: with a format that has no `%e`. -/
def printfmt (putch : Word → σ → σ) (fmt : CString) (ap : VaList) : PrintM σ Unit :=
  formatLoop putch (fun _ _ => throw .fuel) fmt (fmt.bytes.length + 1) 0 ap 0#32

/-- `vprintfmt`. -/
def vprintfmt (putch : Word → σ → σ) (fmt : CString) (ap : VaList) : PrintM σ Unit :=
  formatLoop putch (printfmt putch) fmt (fmt.bytes.length + 1) 0 ap 0#32

end

end Jos
