import Jos.Console

/-!
# The keyboard

`kbd_proc_data` of `kern/console.c` turns what the keyboard sends into characters.  A key sends its
code when it is pressed and the code with the highest bit set when it is released, and some keys
send `0xE0` first.  Between two bytes there is only the variable `shift`: which of the shift,
control and alt keys is down, which of the locks is on, and whether `0xE0` came last.

`KeyEvent` is what the bytes mean.  `kbd_shift` says that `shift` tells exactly what the events up
to now add up to, `kbd_chars` which characters they give.
-/

set_option autoImplicit false

namespace Jos

/-! ## The driver -/

/-- `E0ESC` and the values in `shiftcode` and `togglecode`, as numbers of bits. -/
def kbdShift : Nat := 0
def kbdCtl : Nat := 1
def kbdAlt : Nat := 2
def kbdCapslock : Nat := 3
def kbdNumlock : Nat := 4
def kbdScrolllock : Nat := 5
def kbdE0esc : Nat := 6

/-- The flag with this number. -/
def kbdFlag (i : Nat) : Word := 1#32 <<< i

/-- `shiftcode`. -/
def shiftcode (data : Byte) : Word :=
  match data.toNat with
  | 0x1D => kbdFlag kbdCtl
  | 0x2A => kbdFlag kbdShift
  | 0x36 => kbdFlag kbdShift
  | 0x38 => kbdFlag kbdAlt
  | 0x9D => kbdFlag kbdCtl
  | 0xB8 => kbdFlag kbdAlt
  | _ => 0#32

/-- `togglecode`. -/
def togglecode (data : Byte) : Word :=
  match data.toNat with
  | 0x3A => kbdFlag kbdCapslock
  | 0x45 => kbdFlag kbdNumlock
  | 0x46 => kbdFlag kbdScrolllock
  | _ => 0#32

/-- A character as a byte. -/
def ch (c : Char) : Byte := BitVec.ofNat 8 c.toNat

/-- `C(x)`. -/
def ctrl (c : Char) : Byte := ch c - ch '@'

def keyHome : Byte := 0xE0#8
def keyEnd : Byte := 0xE1#8
def keyUp : Byte := 0xE2#8
def keyDn : Byte := 0xE3#8
def keyLf : Byte := 0xE4#8
def keyRt : Byte := 0xE5#8
def keyPgup : Byte := 0xE6#8
def keyPgdn : Byte := 0xE7#8
def keyIns : Byte := 0xE8#8
def keyDel : Byte := 0xE9#8

/-- No character. -/
def kbdNo : Byte := 0#8

/-- The first part of `normalmap`. -/
def normalKeys : List Byte :=
  [kbdNo, 0x1B#8, ch '1', ch '2', ch '3', ch '4', ch '5', ch '6',
    ch '7', ch '8', ch '9', ch '0', ch '-', ch '=', 0x08#8, 0x09#8,
    ch 'q', ch 'w', ch 'e', ch 'r', ch 't', ch 'y', ch 'u', ch 'i',
    ch 'o', ch 'p', ch '[', ch ']', 0x0A#8, kbdNo, ch 'a', ch 's',
    ch 'd', ch 'f', ch 'g', ch 'h', ch 'j', ch 'k', ch 'l', ch ';',
    0x27#8, 0x60#8, kbdNo, 0x5C#8, ch 'z', ch 'x', ch 'c', ch 'v',
    ch 'b', ch 'n', ch 'm', ch ',', ch '.', ch '/', kbdNo, ch '*',
    kbdNo, ch ' ', kbdNo, kbdNo, kbdNo, kbdNo, kbdNo, kbdNo,
    kbdNo, kbdNo, kbdNo, kbdNo, kbdNo, kbdNo, kbdNo, ch '7',
    ch '8', ch '9', ch '-', ch '4', ch '5', ch '6', ch '+', ch '1',
    ch '2', ch '3', ch '0', ch '.', kbdNo, kbdNo, kbdNo, kbdNo]

/-- The first part of `shiftmap`. -/
def shiftKeys : List Byte :=
  [kbdNo, 0x1B#8, ch '!', ch '@', ch '#', ch '$', ch '%', ch '^',
    ch '&', ch '*', ch '(', ch ')', ch '_', ch '+', 0x08#8, 0x09#8,
    ch 'Q', ch 'W', ch 'E', ch 'R', ch 'T', ch 'Y', ch 'U', ch 'I',
    ch 'O', ch 'P', 0x7B#8, 0x7D#8, 0x0A#8, kbdNo, ch 'A', ch 'S',
    ch 'D', ch 'F', ch 'G', ch 'H', ch 'J', ch 'K', ch 'L', ch ':',
    0x22#8, ch '~', kbdNo, ch '|', ch 'Z', ch 'X', ch 'C', ch 'V',
    ch 'B', ch 'N', ch 'M', ch '<', ch '>', ch '?', kbdNo, ch '*',
    kbdNo, ch ' ', kbdNo, kbdNo, kbdNo, kbdNo, kbdNo, kbdNo,
    kbdNo, kbdNo, kbdNo, kbdNo, kbdNo, kbdNo, kbdNo, ch '7',
    ch '8', ch '9', ch '-', ch '4', ch '5', ch '6', ch '+', ch '1',
    ch '2', ch '3', ch '0', ch '.', kbdNo, kbdNo, kbdNo, kbdNo]

/-- The first part of `ctlmap`. -/
def ctlKeys : List Byte :=
  [kbdNo, kbdNo, kbdNo, kbdNo, kbdNo, kbdNo, kbdNo, kbdNo,
    kbdNo, kbdNo, kbdNo, kbdNo, kbdNo, kbdNo, kbdNo, kbdNo,
    ctrl 'Q', ctrl 'W', ctrl 'E', ctrl 'R', ctrl 'T', ctrl 'Y', ctrl 'U', ctrl 'I',
    ctrl 'O', ctrl 'P', kbdNo, kbdNo, 0x0D#8, kbdNo, ctrl 'A', ctrl 'S',
    ctrl 'D', ctrl 'F', ctrl 'G', ctrl 'H', ctrl 'J', ctrl 'K', ctrl 'L', kbdNo,
    kbdNo, kbdNo, kbdNo, 0x5C#8 - ch '@', ctrl 'Z', ctrl 'X', ctrl 'C', ctrl 'V',
    ctrl 'B', ctrl 'N', ctrl 'M', kbdNo, kbdNo, ctrl '/', kbdNo, kbdNo]

/-- The keys after `0xE0` that the three tables have in common. -/
def e0Keys (data : Byte) : Byte :=
  match data.toNat with
  | 0xC8 => keyUp
  | 0xC9 => keyPgup
  | 0xCB => keyLf
  | 0xCD => keyRt
  | 0xCF => keyEnd
  | 0xD0 => keyDn
  | 0xD1 => keyPgdn
  | 0xD2 => keyIns
  | 0xD3 => keyDel
  | _ => kbdNo

/-- `normalmap` and `shiftmap`, by their first parts. -/
def textmap (keys : List Byte) (data : Byte) : Byte :=
  if data.toNat < keys.length then
    keys.getD data.toNat kbdNo
  else
    match data.toNat with
    | 0xC7 => keyHome
    | 0x9C => 0x0A#8
    | 0xB5 => ch '/'
    | _ => e0Keys data

/-- `normalmap`. -/
def normalmap (data : Byte) : Byte := textmap normalKeys data

/-- `shiftmap`. -/
def shiftmap (data : Byte) : Byte := textmap shiftKeys data

/-- `ctlmap`. -/
def ctlmap (data : Byte) : Byte :=
  if data.toNat < ctlKeys.length then
    ctlKeys.getD data.toNat kbdNo
  else
    match data.toNat with
    | 0x97 => keyHome
    | 0xB5 => ctrl '/'
    | _ => e0Keys data

/-- `charcode`, at an index below 4. -/
def charcode (i : Word) (data : Byte) : Byte :=
  match i.toNat with
  | 0 => normalmap data
  | 1 => shiftmap data
  | _ => ctlmap data

/-- What caps lock makes of a character. -/
def capsSwap (c : Word) : Word :=
  if 0x61#32 ≤ c ∧ c ≤ 0x7A#32 then
    c + (0x41#32 - 0x61#32)
  else if 0x41#32 ≤ c ∧ c ≤ 0x5A#32 then
    c + (0x61#32 - 0x41#32)
  else
    c

/-- What comes of one byte. -/
structure KbdResult where
  /-- What is returned. -/
  c : Word
  /-- The value of `shift` after it. -/
  shift : Word
  /-- `outb(0x92, 0x3)`. -/
  reboot : Bool

/-- `kbd_proc_data`, when there is a byte to be read. -/
def kbdProcData (shift : Word) (data : Byte) : KbdResult :=
  if data = 0xE0#8 then
    ⟨0#32, shift ||| kbdFlag kbdE0esc, false⟩
  else if data &&& 0x80#8 ≠ 0#8 then
    let data := if shift &&& kbdFlag kbdE0esc ≠ 0#32 then data else data &&& 0x7F#8
    ⟨0#32, shift &&& ~~~(shiftcode data ||| kbdFlag kbdE0esc), false⟩
  else
    let (data, shift) :=
      if shift &&& kbdFlag kbdE0esc ≠ 0#32 then (data ||| 0x80#8, shift &&& ~~~kbdFlag kbdE0esc)
      else (data, shift)
    let shift := (shift ||| shiftcode data) ^^^ togglecode data
    let c := (charcode (shift &&& (kbdFlag kbdCtl ||| kbdFlag kbdShift)) data).setWidth 32
    let c := if shift &&& kbdFlag kbdCapslock ≠ 0#32 then capsSwap c else c
    ⟨c, shift, ~~~shift &&& (kbdFlag kbdCtl ||| kbdFlag kbdAlt) = 0#32 ∧ c = keyDel.setWidth 32⟩

/-- `kbd_proc_data`, byte after byte: what it returns, the last value of `shift`, and how often it
reboots. -/
def kbdRun (shift : Word) : List Byte → List Word × Word × Nat
  | [] => ([], shift, 0)
  | data :: rest =>
    let r := kbdProcData shift data
    let (cs, shift', n) := kbdRun r.shift rest
    (r.c :: cs, shift', if r.reboot then n + 1 else n)

/-! ## Key events -/

/-- A key is pressed or released. -/
structure KeyEvent where
  /-- Its code, with the highest bit set if it sends `0xE0` first. -/
  code : Byte
  press : Bool
deriving DecidableEq

/-- What the keyboard says with one byte; `e0` tells whether the byte before was `0xE0`. -/
def keyEvent (e0 : Bool) (data : Byte) : KeyEvent :=
  if data &&& 0x80#8 ≠ 0#8 then
    ⟨if e0 then data else data &&& 0x7F#8, false⟩
  else
    ⟨if e0 then data ||| 0x80#8 else data, true⟩

/-- What the keyboard says. -/
def keyEvents (e0 : Bool) : List Byte → List KeyEvent
  | [] => []
  | data :: rest =>
    if data = 0xE0#8 then keyEvents true rest else keyEvent e0 data :: keyEvents false rest

/-- Whether the last byte is `0xE0`. -/
def endsE0 (e0 : Bool) : List Byte → Bool
  | [] => e0
  | data :: rest => endsE0 (data = 0xE0#8) rest

/-- Whether the modifier `i` is down: the last thing that happened to one of its keys is that it was
pressed. -/
def modDown (i : Nat) (down : Bool) (ev : KeyEvent) : Bool :=
  if (shiftcode ev.code).getLsbD i then ev.press else down

/-- Whether the lock `i` is on: it changes whenever its key is pressed. -/
def lockOn (i : Nat) (on : Bool) (ev : KeyEvent) : Bool :=
  on ^^ (ev.press && (togglecode ev.code).getLsbD i)

/-- The modifiers and locks after some events. -/
structure KbdMods where
  down : Nat → Bool
  on : Nat → Bool

namespace KbdMods

/-- Nothing is down, and no lock is on. -/
def none : KbdMods := ⟨fun _ => false, fun _ => false⟩

/-- After one more event. -/
def after (m : KbdMods) (ev : KeyEvent) : KbdMods :=
  ⟨fun i => modDown i (m.down i) ev, fun i => lockOn i (m.on i) ev⟩

/-- The character that the key `code` gives. -/
def keyChar (m : KbdMods) (code : Byte) : Word :=
  let c : Word := (if m.down kbdCtl then ctlmap code
    else if m.down kbdShift then shiftmap code else normalmap code).setWidth 32
  if m.on kbdCapslock then capsSwap c else c

/-- The characters that the events give, one for each press. -/
def chars (m : KbdMods) : List KeyEvent → List Word
  | [] => []
  | ev :: evs =>
    if ev.press then (m.after ev).keyChar ev.code :: (m.after ev).chars evs
    else (m.after ev).chars evs

/-- Whether control and alt are down when delete is pressed. -/
def wantsReboot (m : KbdMods) (code : Byte) : Bool :=
  m.down kbdCtl && m.down kbdAlt && m.keyChar code == keyDel.setWidth 32

/-- How often the events ask for a reboot. -/
def reboots (m : KbdMods) : List KeyEvent → Nat
  | [] => 0
  | ev :: evs =>
    if ev.press && (m.after ev).wantsReboot ev.code then (m.after ev).reboots evs + 1
    else (m.after ev).reboots evs

/-- What `shift` says. -/
structure Shows (m : KbdMods) (e0 : Bool) (shift : Word) : Prop where
  down : ∀ i < kbdCapslock, shift.getLsbD i = m.down i
  on : ∀ i, kbdCapslock ≤ i → i < kbdE0esc → shift.getLsbD i = m.on i
  e0 : shift.getLsbD kbdE0esc = e0
  rest : ∀ i, kbdE0esc < i → shift.getLsbD i = false

end KbdMods

/-! ## Bits of `shift` -/

theorem kbdFlag_getLsbD (i j : Nat) : (kbdFlag i).getLsbD j = (decide (i < 32) && decide (i = j)) :=
  BitVec.getLsbD_twoPow i j

theorem and_kbdFlag {w : Word} {i : Nat} (hi : i < 32) :
    w &&& kbdFlag i ≠ 0#32 ↔ w.getLsbD i = true := by
  have hand : w &&& kbdFlag i = if w.getLsbD i then kbdFlag i else 0#32 := BitVec.and_twoPow w i
  have hne : kbdFlag i ≠ 0#32 := fun h => by
    have hbit : (kbdFlag i).getLsbD i = false := by
      rw [h]
      exact BitVec.getLsbD_zero
    rw [kbdFlag_getLsbD, decide_eq_true hi, decide_eq_true rfl] at hbit
    cases hbit
  rw [hand]
  split
  · next h => simp [h, hne]
  · next h => simp [h]

theorem shiftcode_getLsbD (code : Byte) {i : Nat} (hi : kbdCapslock ≤ i) :
    (shiftcode code).getLsbD i = false := by
  have hi : 3 ≤ i := hi
  rw [shiftcode]
  split
  all_goals simp [kbdFlag_getLsbD, kbdShift, kbdCtl, kbdAlt]
  all_goals omega

theorem togglecode_getLsbD (code : Byte) {i : Nat} (hi : i < kbdCapslock ∨ kbdE0esc ≤ i) :
    (togglecode code).getLsbD i = false := by
  have hi : i < 3 ∨ 6 ≤ i := hi
  rw [togglecode]
  split
  all_goals simp [kbdFlag_getLsbD, kbdCapslock, kbdNumlock, kbdScrolllock]
  all_goals omega

theorem getLsbD_toNat (w : Word) (i : Nat) : w.getLsbD i = decide (w.toNat / 2 ^ i % 2 = 1) :=
  Nat.testBit_eq_decide_div_mod_eq

/-- Which map is used. -/
theorem charcode_eq (w : Word) (code : Byte) :
    charcode (w &&& (kbdFlag kbdCtl ||| kbdFlag kbdShift)) code =
      if w.getLsbD kbdCtl then ctlmap code
      else if w.getLsbD kbdShift then shiftmap code else normalmap code := by
  have hmask : kbdFlag kbdCtl ||| kbdFlag kbdShift = 3#32 := by decide
  have hval : (w &&& 3#32).toNat = w.toNat % 4 := by
    rw [BitVec.toNat_and]
    exact Nat.and_two_pow_sub_one_eq_mod w.toNat 2
  have hctl : w.getLsbD kbdCtl = decide (w.toNat / 2 % 2 = 1) := getLsbD_toNat w 1
  have hshift : w.getLsbD kbdShift = decide (w.toNat % 2 = 1) := by
    rw [show kbdShift = 0 from rfl, getLsbD_toNat, Nat.pow_zero, Nat.div_one]
  rw [hmask, charcode, hval, hctl, hshift]
  have hcases : w.toNat % 4 = 0 ∨ w.toNat % 4 = 1 ∨ w.toNat % 4 = 2 ∨ w.toNat % 4 = 3 := by omega
  rcases hcases with h | h | h | h
  · rw [h, if_neg (by rw [decide_eq_true_eq]; omega), if_neg (by rw [decide_eq_true_eq]; omega)]
    rfl
  · rw [h, if_neg (by rw [decide_eq_true_eq]; omega), if_pos (by rw [decide_eq_true_eq]; omega)]
    rfl
  · rw [h, if_pos (by rw [decide_eq_true_eq]; omega)]
    rfl
  · rw [h, if_pos (by rw [decide_eq_true_eq]; omega)]
    rfl

/-- Control and alt are both down. -/
theorem ctlAlt_iff (w : Word) : ~~~w &&& (kbdFlag kbdCtl ||| kbdFlag kbdAlt) = 0#32 ↔
    w.getLsbD kbdCtl = true ∧ w.getLsbD kbdAlt = true := by
  have hbit : ∀ i < 32, (~~~w &&& kbdFlag i = 0#32 ↔ w.getLsbD i = true) := by
    intro i hi
    rw [← not_iff_not, ← ne_eq, and_kbdFlag hi]
    simp [hi]
  rw [BitVec.and_or_distrib_left, BitVec.or_eq_zero_iff, hbit _ (by decide), hbit _ (by decide)]

/-! ## What the driver does -/

namespace KbdMods

variable {m : KbdMods} {e0 : Bool} {shift : Word} {data : Byte}

/-- `0xE0`. -/
theorem Shows.escape (h : m.Shows e0 shift) : m.Shows true (shift ||| kbdFlag kbdE0esc) := by
  have hbit : ∀ i, (shift ||| kbdFlag kbdE0esc).getLsbD i =
      (shift.getLsbD i || decide (kbdE0esc = i)) :=
    fun i => by rw [BitVec.getLsbD_or, kbdFlag_getLsbD]; rfl
  refine ⟨fun i hi => ?_, fun i hi hi' => ?_, ?_, fun i hi => ?_⟩
  · have hne : kbdE0esc ≠ i := fun heq => by
      subst heq
      exact absurd hi (by decide)
    rw [hbit, h.down i hi, decide_eq_false hne, Bool.or_false]
  · rw [hbit, h.on i hi hi', decide_eq_false (Nat.ne_of_gt hi'), Bool.or_false]
  · rw [hbit, decide_eq_true rfl, Bool.or_true]
  · rw [hbit, h.rest i hi, decide_eq_false (Nat.ne_of_lt hi), Bool.or_false]

/-- A key is released. -/
theorem Shows.release (h : m.Shows e0 shift) (code : Byte) :
    (m.after ⟨code, false⟩).Shows false (shift &&& ~~~(shiftcode code ||| kbdFlag kbdE0esc)) := by
  have hbit : ∀ i < 32, (shift &&& ~~~(shiftcode code ||| kbdFlag kbdE0esc)).getLsbD i =
      (shift.getLsbD i && !((shiftcode code).getLsbD i || decide (kbdE0esc = i))) := fun i hi => by
    rw [BitVec.getLsbD_and, BitVec.getLsbD_not, BitVec.getLsbD_or, kbdFlag_getLsbD,
      decide_eq_true hi]
    rfl
  refine ⟨fun i hi => ?_, fun i hi hi' => ?_, ?_, fun i hi => ?_⟩
  · have hlt : i < 3 := hi
    have hne : kbdE0esc ≠ i := by
      have : kbdE0esc = 6 := rfl
      omega
    rw [hbit i (by omega), h.down i hi, decide_eq_false hne, Bool.or_false]
    show _ = modDown i (m.down i) ⟨code, false⟩
    rw [modDown]
    cases (shiftcode code).getLsbD i <;> simp
  · have hlt : i < 6 := hi'
    rw [hbit i (by omega), h.on i hi hi', shiftcode_getLsbD code hi,
      decide_eq_false (Nat.ne_of_gt hi')]
    simp [after, lockOn]
  · rw [hbit _ (by decide), decide_eq_true rfl, Bool.or_true]
    simp
  · by_cases h32 : i < 32
    · rw [hbit i h32, h.rest i hi, Bool.false_and]
    · exact BitVec.getLsbD_of_ge _ _ (Nat.not_lt.1 h32)

/-- The flag for `0xE0` is cleared when a key is pressed. -/
theorem Shows.unescape (h : m.Shows e0 shift) :
    m.Shows false
      (if shift &&& kbdFlag kbdE0esc ≠ 0#32 then shift &&& ~~~kbdFlag kbdE0esc else shift) := by
  split
  · have hbit : ∀ i < 32, (shift &&& ~~~kbdFlag kbdE0esc).getLsbD i =
        (shift.getLsbD i && !decide (kbdE0esc = i)) := fun i hi => by
      rw [BitVec.getLsbD_and, BitVec.getLsbD_not, kbdFlag_getLsbD, decide_eq_true hi]
      rfl
    refine ⟨fun i hi => ?_, fun i hi hi' => ?_, ?_, fun i hi => ?_⟩
    · have hlt : i < 3 := hi
      have hne : kbdE0esc ≠ i := by
        have : kbdE0esc = 6 := rfl
        omega
      rw [hbit i (by omega), h.down i hi, decide_eq_false hne, Bool.not_false, Bool.and_true]
    · have hlt : i < 6 := hi'
      rw [hbit i (by omega), h.on i hi hi', decide_eq_false (Nat.ne_of_gt hi'), Bool.not_false,
        Bool.and_true]
    · rw [hbit _ (by decide), decide_eq_true rfl]
      simp
    · by_cases h32 : i < 32
      · rw [hbit i h32, h.rest i hi, Bool.false_and]
      · exact BitVec.getLsbD_of_ge _ _ (Nat.not_lt.1 h32)
  · next hno =>
    rw [and_kbdFlag (by decide), h.e0] at hno
    exact ⟨h.down, h.on, h.e0.trans (by simpa using hno), h.rest⟩

/-- A key is pressed. -/
theorem Shows.press (h : m.Shows false shift) (code : Byte) :
    (m.after ⟨code, true⟩).Shows false ((shift ||| shiftcode code) ^^^ togglecode code) := by
  have hbit : ∀ i, ((shift ||| shiftcode code) ^^^ togglecode code).getLsbD i =
      ((shift.getLsbD i || (shiftcode code).getLsbD i) ^^ (togglecode code).getLsbD i) :=
      fun i => by
    rw [BitVec.getLsbD_xor, BitVec.getLsbD_or]
  refine ⟨fun i hi => ?_, fun i hi hi' => ?_, ?_, fun i hi => ?_⟩
  · rw [hbit, h.down i hi, togglecode_getLsbD code (Or.inl hi), Bool.xor_false]
    show _ = modDown i (m.down i) ⟨code, true⟩
    rw [modDown]
    cases (shiftcode code).getLsbD i <;> simp
  · rw [hbit, h.on i hi hi', shiftcode_getLsbD code hi, Bool.or_false]
    rfl
  · rw [hbit, h.e0, shiftcode_getLsbD code (by decide),
      togglecode_getLsbD code (Or.inr (by decide))]
    rfl
  · have hge : kbdCapslock ≤ i := Nat.le_trans (by decide) (Nat.le_of_lt hi)
    rw [hbit, h.rest i hi, shiftcode_getLsbD code hge,
      togglecode_getLsbD code (Or.inr (Nat.le_of_lt hi))]
    rfl

/-- What a press gives. -/
theorem Shows.keyChar (h : m.Shows false shift) (code : Byte) :
    (let c := (charcode (shift &&& (kbdFlag kbdCtl ||| kbdFlag kbdShift)) code).setWidth 32
      if shift &&& kbdFlag kbdCapslock ≠ 0#32 then capsSwap c else c) = m.keyChar code := by
  have hcaps : shift &&& kbdFlag kbdCapslock ≠ 0#32 ↔ m.on kbdCapslock = true := by
    rw [and_kbdFlag (by decide), h.on _ (Nat.le_refl _) (by decide)]
  dsimp only
  rw [charcode_eq, h.down _ (by decide), h.down _ (by decide), KbdMods.keyChar]
  by_cases hc : m.on kbdCapslock = true
  · rw [if_pos (hcaps.2 hc), if_pos hc]
  · rw [if_neg (mt hcaps.1 hc), if_neg hc]

/-- **One byte that is not `0xE0`.** -/
theorem Shows.event (h : m.Shows e0 shift) (hdata : data ≠ 0xE0#8) :
    (m.after (keyEvent e0 data)).Shows false (kbdProcData shift data).shift ∧
      (kbdProcData shift data).c = (if (keyEvent e0 data).press then
        (m.after (keyEvent e0 data)).keyChar (keyEvent e0 data).code else 0#32) ∧
      (kbdProcData shift data).reboot = ((keyEvent e0 data).press &&
        (m.after (keyEvent e0 data)).wantsReboot (keyEvent e0 data).code) := by
  have hesc : shift &&& kbdFlag kbdE0esc ≠ 0#32 ↔ e0 = true := by
    rw [and_kbdFlag (by decide), h.e0]
  by_cases hhigh : data &&& 0x80#8 ≠ 0#8
  · -- released
    have hcode : (if shift &&& kbdFlag kbdE0esc ≠ 0#32 then data else data &&& 0x7F#8) =
        if e0 = true then data else data &&& 0x7F#8 := if_congr hesc rfl rfl
    have hev : keyEvent e0 data = ⟨if e0 = true then data else data &&& 0x7F#8, false⟩ :=
      if_pos hhigh
    rw [kbdProcData, if_neg hdata, if_pos hhigh, hev, hcode]
    exact ⟨h.release _, rfl, rfl⟩
  · -- pressed
    have hev : keyEvent e0 data = ⟨if e0 = true then data ||| 0x80#8 else data, true⟩ :=
      if_neg hhigh
    have hpair : (if shift &&& kbdFlag kbdE0esc ≠ 0#32 then
          (data ||| 0x80#8, shift &&& ~~~kbdFlag kbdE0esc) else (data, shift)) =
        (if e0 = true then data ||| 0x80#8 else data,
          if shift &&& kbdFlag kbdE0esc ≠ 0#32 then shift &&& ~~~kbdFlag kbdE0esc else shift) := by
      by_cases he : e0 = true
      · rw [if_pos (hesc.2 he), if_pos (hesc.2 he), if_pos he]
      · rw [if_neg (mt hesc.1 he), if_neg (mt hesc.1 he), if_neg he]
    rw [hev]
    generalize (if e0 = true then data ||| 0x80#8 else data) = code at hpair
    have hshows := h.unescape.press code
    generalize
      (if shift &&& kbdFlag kbdE0esc ≠ 0#32 then shift &&& ~~~kbdFlag kbdE0esc else shift) =
      shift' at hpair hshows
    have hchar := hshows.keyChar code
    rw [kbdProcData, if_neg hdata, if_neg hhigh, hpair]
    refine ⟨hshows, hchar, ?_⟩
    dsimp only at hchar ⊢
    rw [hchar, Bool.true_and, wantsReboot, Bool.eq_iff_iff, decide_eq_true_eq, ctlAlt_iff,
      hshows.down _ (by decide), hshows.down _ (by decide), Bool.and_eq_true, Bool.and_eq_true,
      beq_iff_eq]

/-- **Any number of bytes.** -/
theorem Shows.run (h : m.Shows e0 shift) (bytes : List Byte) :
    ((keyEvents e0 bytes).foldl after m).Shows (endsE0 e0 bytes) (kbdRun shift bytes).2.1 ∧
      (kbdRun shift bytes).1.filter (· ≠ 0#32) =
        (m.chars (keyEvents e0 bytes)).filter (· ≠ 0#32) ∧
      (kbdRun shift bytes).2.2 = m.reboots (keyEvents e0 bytes) := by
  induction bytes generalizing m e0 shift with
  | nil => exact ⟨h, rfl, rfl⟩
  | cons data rest ih =>
    by_cases hdata : data = 0xE0#8
    · have hproc : kbdProcData shift data = ⟨0#32, shift ||| kbdFlag kbdE0esc, false⟩ :=
        if_pos hdata
      obtain ⟨hs, hc, hn⟩ := ih h.escape
      rw [keyEvents, if_pos hdata, endsE0, decide_eq_true hdata, kbdRun, hproc]
      exact ⟨hs, (List.filter_cons_of_neg (by simp)).trans hc, hn⟩
    · obtain ⟨hs, hc, hn⟩ := h.event hdata
      obtain ⟨hs', hc', hn'⟩ := ih hs
      rw [keyEvents, if_neg hdata, endsE0, decide_eq_false hdata, kbdRun]
      refine ⟨hs', ?_, ?_⟩
      · dsimp only
        rw [hc, chars]
        split
        · rw [List.filter_cons, List.filter_cons, hc']
        · exact (List.filter_cons_of_neg (by simp)).trans hc'
      · dsimp only
        rw [hn, hn', reboots]

theorem shows_none : none.Shows false 0#32 :=
  ⟨fun _ _ => BitVec.getLsbD_zero, fun _ _ _ => BitVec.getLsbD_zero, BitVec.getLsbD_zero,
    fun _ _ => BitVec.getLsbD_zero⟩

end KbdMods

/-! ## Any number of bytes -/

theorem foldl_down (m : KbdMods) (evs : List KeyEvent) (i : Nat) :
    (evs.foldl KbdMods.after m).down i = evs.foldl (modDown i) (m.down i) := by
  induction evs generalizing m with
  | nil => rfl
  | cons ev evs ih => exact ih (m.after ev)

theorem foldl_on (m : KbdMods) (evs : List KeyEvent) (i : Nat) :
    (evs.foldl KbdMods.after m).on i = evs.foldl (lockOn i) (m.on i) := by
  induction evs generalizing m with
  | nil => rfl
  | cons ev evs ih => exact ih (m.after ev)

/-- A modifier is down if the last of its events is a press. -/
theorem modDown_iff (i : Nat) (evs : List KeyEvent) : evs.foldl (modDown i) false = true ↔
    ∃ l₁ ev l₂, evs = l₁ ++ ev :: l₂ ∧ ev.press = true ∧ (shiftcode ev.code).getLsbD i = true ∧
      ∀ ev' ∈ l₂, (shiftcode ev'.code).getLsbD i = false := by
  induction evs using List.reverseRecOn with
  | nil => simp
  | append_singleton evs ev ih =>
    rw [List.foldl_append, List.foldl_cons, List.foldl_nil, modDown]
    split
    · next hmod =>
      constructor
      · intro hp
        exact ⟨evs, ev, [], rfl, hp, hmod, by simp⟩
      · rintro ⟨l₁, ev', l₂, heq, hp, -, hl₂⟩
        rcases List.eq_nil_or_concat l₂ with rfl | ⟨l₃, x, rfl⟩
        · obtain ⟨-, hx⟩ := List.append_inj' heq rfl
          rwa [List.head_eq_of_cons_eq hx]
        · rw [List.concat_eq_append, ← List.cons_append, ← List.append_assoc] at heq
          obtain ⟨-, hx⟩ := List.append_inj' heq rfl
          have hno := hl₂ x (by rw [List.concat_eq_append]; simp)
          rw [← List.head_eq_of_cons_eq hx, hmod] at hno
          cases hno
    · next hmod =>
      rw [ih]
      constructor
      · rintro ⟨l₁, ev', l₂, rfl, hp, hev, hl₂⟩
        refine ⟨l₁, ev', l₂ ++ [ev], by simp, hp, hev, fun x hx => ?_⟩
        rcases List.mem_append.1 hx with hx | hx
        · exact hl₂ x hx
        · rw [List.mem_singleton.1 hx]
          simpa using hmod
      · rintro ⟨l₁, ev', l₂, heq, hp, hev, hl₂⟩
        rcases List.eq_nil_or_concat l₂ with rfl | ⟨l₃, x, rfl⟩
        · obtain ⟨-, hx⟩ := List.append_inj' heq rfl
          rw [← List.head_eq_of_cons_eq hx] at hev
          exact absurd hev hmod
        · rw [List.concat_eq_append] at heq hl₂
          rw [← List.cons_append, ← List.append_assoc] at heq
          exact ⟨l₁, ev', l₃, (List.append_inj' heq rfl).1, hp, hev, fun y hy =>
            hl₂ y (List.mem_append_left _ hy)⟩

/-- A lock is on if its key has been pressed an odd number of times. -/
theorem lockOn_iff (i : Nat) (evs : List KeyEvent) : evs.foldl (lockOn i) false = true ↔
    Odd (evs.countP fun ev => ev.press && (togglecode ev.code).getLsbD i) := by
  induction evs using List.reverseRecOn with
  | nil => simp
  | append_singleton evs ev ih =>
    rw [List.foldl_append, List.foldl_cons, List.foldl_nil, lockOn, List.countP_append,
      List.countP_singleton]
    by_cases hev : (ev.press && (togglecode ev.code).getLsbD i) = true
    · rw [hev, if_pos rfl, Bool.xor_true, Nat.odd_add_one, ← ih]
      simp
    · rw [Bool.not_eq_true] at hev
      rw [hev, if_neg (by simp), Bool.xor_false, Nat.add_zero, ih]

theorem endsE0_iff (bytes : List Byte) :
    endsE0 false bytes = true ↔ bytes.getLast? = some 0xE0#8 := by
  have hgen : ∀ e0, endsE0 e0 bytes = (bytes.getLast?.map (decide <| · = 0xE0#8)).getD e0 := by
    intro e0
    induction bytes generalizing e0 with
    | nil => rfl
    | cons data rest ih =>
      rw [endsE0, ih, List.getLast?_cons]
      cases rest.getLast? <;> rfl
  rw [hgen]
  cases bytes.getLast? <;> simp

/-- **What `shift` says**, whatever the keyboard has sent: a modifier is down if the last thing that
happened to one of its keys is that it was pressed, a lock is on if its key has been pressed an odd
number of times, and the escape is pending if `0xE0` came last. -/
theorem kbd_shift (bytes : List Byte) :
    (∀ i < kbdCapslock, (kbdRun 0#32 bytes).2.1.getLsbD i = true ↔
      ∃ l₁ ev l₂, keyEvents false bytes = l₁ ++ ev :: l₂ ∧ ev.press = true ∧
        (shiftcode ev.code).getLsbD i = true ∧ ∀ ev' ∈ l₂, (shiftcode ev'.code).getLsbD i = false) ∧
    (∀ i, kbdCapslock ≤ i → i < kbdE0esc → ((kbdRun 0#32 bytes).2.1.getLsbD i = true ↔
      Odd ((keyEvents false bytes).countP fun ev => ev.press && (togglecode ev.code).getLsbD i))) ∧
    ((kbdRun 0#32 bytes).2.1.getLsbD kbdE0esc = true ↔ bytes.getLast? = some 0xE0#8) := by
  obtain ⟨hs, -, -⟩ := KbdMods.shows_none.run bytes
  refine ⟨fun i hi => ?_, fun i hi hi' => ?_, ?_⟩
  · rw [hs.down i hi, foldl_down]
    exact modDown_iff i _
  · rw [hs.on i hi hi', foldl_on]
    exact lockOn_iff i _
  · rw [hs.e0]
    exact endsE0_iff bytes

/-- **Which characters the driver returns**: one for each press, read off the maps by what is down
and on then, and zeros, which `cons_intr` does not take for characters.  It reboots as often as
delete is pressed with control and alt. -/
theorem kbd_chars (bytes : List Byte) :
    (kbdRun 0#32 bytes).1.filter (· ≠ 0#32) =
      (KbdMods.none.chars (keyEvents false bytes)).filter (· ≠ 0#32) ∧
    (kbdRun 0#32 bytes).2.2 = KbdMods.none.reboots (keyEvents false bytes) :=
  (KbdMods.shows_none.run bytes).2

/-- A key that is neither a modifier nor a lock. -/
theorem after_plain (m : KbdMods) {code : Byte} (hs : shiftcode code = 0#32)
    (ht : togglecode code = 0#32) (press : Bool) : m.after ⟨code, press⟩ = m := by
  rw [KbdMods.after]
  congr 1
  · funext i
    rw [modDown, hs]
    simp
  · funext i
    rw [lockOn, ht]
    simp

/-! ## Letters -/

/-- The keys with letters. -/
def letterKeys : List (Byte × Char) :=
  [(0x10#8, 'q'), (0x11#8, 'w'), (0x12#8, 'e'), (0x13#8, 'r'), (0x14#8, 't'), (0x15#8, 'y'),
    (0x16#8, 'u'), (0x17#8, 'i'), (0x18#8, 'o'), (0x19#8, 'p'), (0x1E#8, 'a'), (0x1F#8, 's'),
    (0x20#8, 'd'), (0x21#8, 'f'), (0x22#8, 'g'), (0x23#8, 'h'), (0x24#8, 'j'), (0x25#8, 'k'),
    (0x26#8, 'l'), (0x2C#8, 'z'), (0x2D#8, 'x'), (0x2E#8, 'c'), (0x2F#8, 'v'), (0x30#8, 'b'),
    (0x31#8, 'n'), (0x32#8, 'm')]

/-- What the maps have for a letter. -/
structure IsLetter (code : Byte) (l : Char) : Prop where
  shift : shiftcode code = 0#32
  toggle : togglecode code = 0#32
  lower : (normalmap code).setWidth 32 = BitVec.ofNat 32 l.toNat
  upper : (shiftmap code).setWidth 32 = BitVec.ofNat 32 (l.toNat - 32)
  control : (ctlmap code).setWidth 32 = BitVec.ofNat 32 (l.toNat % 32)
  swapLower : capsSwap (BitVec.ofNat 32 l.toNat) = BitVec.ofNat 32 (l.toNat - 32)
  swapUpper : capsSwap (BitVec.ofNat 32 (l.toNat - 32)) = BitVec.ofNat 32 l.toNat
  swapControl : capsSwap (BitVec.ofNat 32 (l.toNat % 32)) = BitVec.ofNat 32 (l.toNat % 32)
  plain : code ≠ 0xE0#8 ∧ code &&& 0x80#8 = 0#8

theorem isLetter {code : Byte} {l : Char} (h : (code, l) ∈ letterKeys) : IsLetter code l := by
  have hall : ∀ k ∈ letterKeys, shiftcode k.1 = 0#32 ∧ togglecode k.1 = 0#32 ∧
      (normalmap k.1).setWidth 32 = BitVec.ofNat 32 k.2.toNat ∧
      (shiftmap k.1).setWidth 32 = BitVec.ofNat 32 (k.2.toNat - 32) ∧
      (ctlmap k.1).setWidth 32 = BitVec.ofNat 32 (k.2.toNat % 32) ∧
      capsSwap (BitVec.ofNat 32 k.2.toNat) = BitVec.ofNat 32 (k.2.toNat - 32) ∧
      capsSwap (BitVec.ofNat 32 (k.2.toNat - 32)) = BitVec.ofNat 32 k.2.toNat ∧
      capsSwap (BitVec.ofNat 32 (k.2.toNat % 32)) = BitVec.ofNat 32 (k.2.toNat % 32) ∧
      (k.1 ≠ 0xE0#8 ∧ k.1 &&& 0x80#8 = 0#8) := by
    decide +kernel
  obtain ⟨h1, h2, h3, h4, h5, h6, h7, h8, h9⟩ := hall _ h
  exact ⟨h1, h2, h3, h4, h5, h6, h7, h8, h9⟩

/-- **A letter** is returned as it should be, whatever the keyboard has sent before: with control it
is a control character, and without it the shift key and caps lock undo each other. -/
theorem kbd_letter (bytes : List Byte) (he0 : bytes.getLast? ≠ some 0xE0#8) {code : Byte} {l : Char}
    (hl : (code, l) ∈ letterKeys) : (kbdProcData (kbdRun 0#32 bytes).2.1 code).c =
      if (kbdRun 0#32 bytes).2.1.getLsbD kbdCtl then BitVec.ofNat 32 (l.toNat % 32)
      else if (kbdRun 0#32 bytes).2.1.getLsbD kbdShift ≠
        (kbdRun 0#32 bytes).2.1.getLsbD kbdCapslock then
        BitVec.ofNat 32 (l.toNat - 32)
      else BitVec.ofNat 32 l.toNat := by
  have hk := isLetter hl
  obtain ⟨hs, -, -⟩ := KbdMods.shows_none.run bytes
  rw [Bool.eq_false_iff.2 (mt (endsE0_iff bytes).1 he0)] at hs
  generalize (keyEvents false bytes).foldl KbdMods.after KbdMods.none = m at hs
  have hev : keyEvent false code = ⟨code, true⟩ := if_neg (not_not.2 hk.plain.2)
  obtain ⟨-, hc, -⟩ := hs.event hk.plain.1
  rw [hc, hev, if_pos rfl, after_plain m hk.shift hk.toggle true, KbdMods.keyChar,
    hs.down _ (by decide), hs.down _ (by decide), hs.on _ (Nat.le_refl _) (by decide)]
  cases m.down kbdCtl <;> cases m.down kbdShift <;> cases m.on kbdCapslock <;>
    simp [hk.lower, hk.upper, hk.control, hk.swapLower, hk.swapUpper, hk.swapControl]

/-- Shift and caps lock, and then `a`. -/
theorem kbd_letter_a :
    (kbdProcData (kbdRun 0#32 [0x3A#8, 0xBA#8, 0x2A#8]).2.1 0x1E#8).c = 0x61#32 := by
  rw [kbd_letter [0x3A#8, 0xBA#8, 0x2A#8] (by decide)
    (show (0x1E#8, 'a') ∈ letterKeys by decide)]
  decide

/-! ## The keys after `0xE0` -/

/-- The keys that move the cursor, insert and delete. -/
def cursorKeys : List (Byte × Byte) :=
  [(0x47#8, keyHome), (0x48#8, keyUp), (0x49#8, keyPgup), (0x4B#8, keyLf), (0x4D#8, keyRt),
    (0x4F#8, keyEnd), (0x50#8, keyDn), (0x51#8, keyPgdn), (0x52#8, keyIns), (0x53#8, keyDel)]

/-- **A cursor key** is returned as what it is, whatever is down or on, but for one: `ctlmap` has
the home key at `0x97`, where no key is, so that with control it is not returned at all.  And only
delete reboots. -/
theorem kbd_cursor (bytes : List Byte) {code key : Byte} (hk : (code, key) ∈ cursorKeys) :
    (kbdProcData (kbdRun 0#32 (bytes ++ [0xE0#8])).2.1 code).c =
      (if key = keyHome ∧ (kbdRun 0#32 (bytes ++ [0xE0#8])).2.1.getLsbD kbdCtl = true then 0#32
        else key.setWidth 32) ∧
    ((kbdProcData (kbdRun 0#32 (bytes ++ [0xE0#8])).2.1 code).reboot = true ↔
      key = keyDel ∧ (kbdRun 0#32 (bytes ++ [0xE0#8])).2.1.getLsbD kbdCtl = true ∧
        (kbdRun 0#32 (bytes ++ [0xE0#8])).2.1.getLsbD kbdAlt = true) := by
  have hall : cursorKeys.all (fun k => decide (shiftcode (k.1 ||| 0x80#8) = 0#32 ∧
      togglecode (k.1 ||| 0x80#8) = 0#32 ∧ normalmap (k.1 ||| 0x80#8) = k.2 ∧
      shiftmap (k.1 ||| 0x80#8) = k.2 ∧
      ctlmap (k.1 ||| 0x80#8) = (if k.2 = keyHome then kbdNo else k.2) ∧
      capsSwap (k.2.setWidth 32) = k.2.setWidth 32 ∧
        (k.2.setWidth 32 = keyDel.setWidth 32 ↔ k.2 = keyDel) ∧
      (k.1 ≠ 0xE0#8 ∧ k.1 &&& 0x80#8 = 0#8))) = true := by
    decide +kernel
  obtain ⟨h1, h2, h3, h4, h5, h6, h7, h8, h9⟩ :=
    of_decide_eq_true (List.all_eq_true.1 hall _ hk)
  dsimp only at h1 h2 h3 h4 h5 h6 h7 h8 h9
  obtain ⟨hs, -, -⟩ := KbdMods.shows_none.run (bytes ++ [0xE0#8])
  rw [(endsE0_iff (bytes ++ [0xE0#8])).2 List.getLast?_concat] at hs
  generalize (keyEvents false (bytes ++ [0xE0#8])).foldl KbdMods.after KbdMods.none = m at hs
  have hev : keyEvent true code = ⟨code ||| 0x80#8, true⟩ := if_neg (not_not.2 h9)
  obtain ⟨-, hc, hr⟩ := hs.event h8
  have hchar : m.keyChar (code ||| 0x80#8) =
      if key = keyHome ∧ m.down kbdCtl = true then 0#32 else key.setWidth 32 := by
    have hzero : capsSwap (kbdNo.setWidth 32) = 0#32 := by decide
    rw [KbdMods.keyChar, h3, h4, h5]
    by_cases hhome : key = keyHome <;> cases m.down kbdCtl <;> cases m.down kbdShift <;>
      cases m.on kbdCapslock <;> simp [hhome, h6, hzero] <;> simp_all [kbdNo]
  rw [hev, after_plain m h1 h2] at hc hr
  refine ⟨?_, ?_⟩
  · rw [hc, if_pos rfl, hchar, hs.down _ (by decide)]
  · have hdel : keyDel ≠ keyHome := by decide
    rw [hr, Bool.true_and, KbdMods.wantsReboot, Bool.and_eq_true, Bool.and_eq_true, beq_iff_eq,
      hchar, hs.down _ (by decide), hs.down _ (by decide)]
    constructor
    · rintro ⟨⟨hctl, halt⟩, heq⟩
      split at heq
      · exact absurd heq (by decide)
      · exact ⟨h7.1 heq, hctl, halt⟩
    · rintro ⟨rfl, hctl, halt⟩
      exact ⟨⟨hctl, halt⟩, if_neg fun h => hdel h.1⟩

/-- Control, and then home. -/
theorem kbd_cursor_home :
    (kbdProcData (kbdRun 0#32 ([0x1D#8] ++ [0xE0#8])).2.1 0x47#8).c = 0#32 := by
  rw [(kbd_cursor [0x1D#8] (show (0x47#8, keyHome) ∈ cursorKeys by decide)).1]
  decide

end Jos
