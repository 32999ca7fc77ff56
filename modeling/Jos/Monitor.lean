import Jos.Lib.Command
import Jos.Printfmt

/-!
# The kernel monitor's command line

`runcmd` of `kern/monitor.c` cuts a line into words, in place: white space is overwritten with NULs,
and `argv` gets a pointer to each word.  Pointers into the line are offsets here, and every access
is checked: reading or writing past the NUL of the line, and writing past the end of `argv`, are
faults.

`runcmd_tokens` says that there are none, that the words found are the maximal runs of characters
that are no white space, and which command is called.
-/

set_option autoImplicit false

namespace Jos

open Command

/-- `WHITESPACE`. -/
def whitespace : CString := ⟨[9#8, 13#8, 10#8, 32#8], by decide⟩

/-- `MAXARGS`. -/
def maxargs : Nat := 16

/-- The functions in the table `commands`. -/
inductive MonCommand where
  | help
  | kerninfo
deriving DecidableEq

/-- The table `commands`: the names, and the functions. -/
def commands : List (CString × MonCommand) :=
  [(⟨ascii "help", by decide⟩, .help), (⟨ascii "kerninfo", by decide⟩, .kerninfo)]

/-- The line, with its NUL, and `argv`, whose entries are offsets into it or null. -/
structure CmdLine where
  line : List Byte
  argv : Nat → Option Nat

/-- An access that goes wrong. -/
inductive CmdFault where
  | line (i : Nat)
  | argv (k : Nat)
  /-- A null pointer is followed. -/
  | null
  /-- A loop that goes on for longer than the line is. -/
  | loop

abbrev CmdM := EStateM CmdFault CmdLine

/-- How `runcmd` ends. -/
inductive CmdOutcome where
  /-- There is nothing on the line. -/
  | blank
  /-- `Too many arguments (max %d)`. -/
  | tooMany
  /-- `Unknown command '%s'`. -/
  | unknown
  /-- The function is called with `argc` and `argv`. -/
  | call (func : MonCommand) (argc : Nat)
deriving DecidableEq

/-- `buf[i]`. -/
def readChar (i : Nat) : CmdM Byte := do
  match (← get).line[i]? with
  | some c => return c
  | none => throw (.line i)

/-- `buf[i] = 0`. -/
def clearChar (i : Nat) : CmdM Unit := do
  if i < (← get).line.length then
    modify fun s => { s with line := s.line.set i 0#8 }
  else
    throw (.line i)

/-- `argv[k] = p`. -/
def setArg (k : Nat) (p : Option Nat) : CmdM Unit := do
  if k < maxargs then
    modify fun s => { s with argv := Function.update s.argv k p }
  else
    throw (.argv k)

/-- `strchr`. -/
def strchr (s : CString) (c : Byte) : Option Nat := s.bytes.findIdx? (· == c)

/-- The loop that gobbles white space. -/
def gobble : Nat → Nat → CmdM Nat
  | 0, _ => throw .loop
  | fuel + 1, i => do
    let c ← readChar i
    if c ≠ 0#8 ∧ (strchr whitespace c).isSome then
      clearChar i
      gobble fuel (i + 1)
    else
      return i

/-- The loop that scans past an argument. -/
def scanArg : Nat → Nat → CmdM Nat
  | 0, _ => throw .loop
  | fuel + 1, i => do
    let c ← readChar i
    if c ≠ 0#8 ∧ ¬ (strchr whitespace c).isSome then
      scanArg fuel (i + 1)
    else
      return i

/-- The loop over the arguments: `argc` in the end, or nothing if there are too many. -/
def parseArgs : Nat → Nat → Nat → CmdM (Option Nat)
  | 0, _, _ => throw .loop
  | fuel + 1, i, argc => do
    let i ← gobble ((← get).line.length + 1) i
    if (← readChar i) = 0#8 then
      return some argc
    if argc = maxargs - 1 then
      return none
    setArg argc (some i)
    let i ← scanArg ((← get).line.length + 1) i
    parseArgs fuel i (argc + 1)

/-- `strcmp` of a string in the line and a name. -/
def strcmpName (p : Nat) : List Byte → CmdM Int
  | [] => return (← readChar p).toNat
  | q :: qs => do
    let c ← readChar p
    if c ≠ 0#8 ∧ c = q then
      strcmpName (p + 1) qs
    else
      return c.toNat - q.toNat

/-- The loop over the commands; `argv0` is `argv[0]`. -/
def lookupCommand (argv0 argc : Nat) : List (CString × MonCommand) → CmdM CmdOutcome
  | [] => return .unknown
  | (name, func) :: rest => do
    if (← strcmpName argv0 name.bytes) = 0 then
      return .call func argc
    else
      lookupCommand argv0 argc rest

/-- `runcmd`. -/
def runcmd : CmdM CmdOutcome := do
  setArg 0 none
  match ← parseArgs ((← get).line.length + 1) 0 0 with
  | none => return .tooMany
  | some argc =>
    setArg argc none
    if argc = 0 then
      return .blank
    match (← get).argv 0 with
    | none => throw .null
    | some argv0 => lookupCommand argv0 argc commands

/-! ## Words -/

/-- White space. -/
def IsSpace (c : Byte) : Prop := c ∈ whitespace.bytes

instance (c : Byte) : Decidable (IsSpace c) := inferInstanceAs (Decidable (_ ∈ _))

/-- There is a character of a word at `k`. -/
def WordAt (text : List Byte) (k : Nat) : Prop := ∃ c, text[k]? = some c ∧ ¬ IsSpace c

instance (text : List Byte) (k : Nat) : Decidable (WordAt text k) :=
  match h : text[k]? with
  | some c => decidable_of_iff (¬ IsSpace c) (by simp [WordAt, h])
  | none => isFalse (by simp [WordAt, h])

/-- The characters from `a` up to `b` are a maximal run of characters that are no white space. -/
structure IsRun (text : List Byte) (a b : Nat) : Prop where
  lt : a < b
  word : ∀ k, a ≤ k → k < b → WordAt text k
  left : a = 0 ∨ ¬ WordAt text (a - 1)
  right : ¬ WordAt text b

/-- These are the maximal runs, in order. -/
structure Tokens (text : List Byte) (toks : List (Nat × Nat)) : Prop where
  sorted : toks.Pairwise fun x y => x.2 < y.1
  mem : ∀ a b, (a, b) ∈ toks ↔ IsRun text a b

/-- The runs that begin before `i`, where no run goes on. -/
structure Found (text : List Byte) (i : Nat) (toks : List (Nat × Nat)) : Prop where
  sorted : toks.Pairwise fun x y => x.2 < y.1
  runs : ∀ x ∈ toks, IsRun text x.1 x.2 ∧ x.2 ≤ i
  all : ∀ a b, IsRun text a b → a < i → (a, b) ∈ toks
  edge : i = 0 ∨ ¬ WordAt text i

variable {text buf : List Byte} {toks : List (Nat × Nat)} {i k a b n : Nat} {s s' : CmdLine}

theorem WordAt.lt (h : WordAt text k) : k < text.length := by
  obtain ⟨c, hc, -⟩ := h
  exact (List.getElem?_eq_some_iff.1 hc).1

theorem IsRun.le (h : IsRun text a b) : b ≤ text.length := by
  have hlast := (h.word (b - 1) (by have := h.lt; omega) (by have := h.lt; omega)).lt
  have hlt := h.lt
  omega

/-- A run is known by where it begins. -/
theorem IsRun.end_unique {b' : Nat} (h : IsRun text a b) (h' : IsRun text a b') : b = b' := by
  have h1 := h.lt
  have h2 := h'.lt
  rcases lt_trichotomy b b' with hlt | heq | hgt
  · exact absurd (h'.word b (by omega) hlt) h.right
  · exact heq
  · exact absurd (h.word b' (by omega) hgt) h'.right

theorem found_zero (text : List Byte) : Found text 0 [] :=
  ⟨List.Pairwise.nil, fun _ hx => absurd hx List.not_mem_nil, fun _ _ _ ha =>
    absurd ha (Nat.not_lt_zero _), Or.inl rfl⟩

/-- No run begins in white space. -/
theorem Found.skip (h : Found text i toks) (hspace : ∀ k, i ≤ k → k < a → ¬ WordAt text k) :
    ∀ a' b, IsRun text a' b → a' < a → (a', b) ∈ toks := by
  intro a' b hrun hlt
  by_cases hi : a' < i
  · exact h.all a' b hrun hi
  · exact absurd (hrun.word a' (Nat.le_refl _) hrun.lt) (hspace a' (by omega) hlt)

/-- After the white space comes a word. -/
theorem Found.run (h : Found text i toks) (hia : i ≤ a) (hab : a < b)
    (hspace : ∀ k, i ≤ k → k < a → ¬ WordAt text k) (hword : ∀ k, a ≤ k → k < b → WordAt text k)
    (hb : ¬ WordAt text b) : IsRun text a b := by
  refine ⟨hab, hword, ?_, hb⟩
  by_cases hi : i = a
  · rcases h.edge with h0 | hno
    · exact Or.inl (hi.symm.trans h0)
    · exact absurd (hi ▸ hword a (Nat.le_refl _) hab) hno
  · exact Or.inr (hspace (a - 1) (by omega) (by omega))

theorem Found.add (h : Found text i toks) (hia : i ≤ a)
    (hspace : ∀ k, i ≤ k → k < a → ¬ WordAt text k) (hrun : IsRun text a b) :
    Found text b (toks ++ [(a, b)]) := by
  have hlt := hrun.lt
  refine ⟨List.pairwise_append.2 ⟨h.sorted, List.pairwise_singleton .., ?_⟩, ?_, ?_,
    Or.inr hrun.right⟩
  · intro x hx y hy
    rw [List.mem_singleton.1 hy]
    obtain ⟨hx', hle⟩ := h.runs x hx
    by_contra hge
    -- they cannot touch: the first one ends where no word is
    have hxa : x.2 = a := by
      have := Nat.le_trans hle hia
      simp only at hge
      omega
    exact hx'.right (hxa ▸ hrun.word a (Nat.le_refl _) hlt)
  · intro x hx
    rcases List.mem_append.1 hx with hx | hx
    · obtain ⟨hx', hle⟩ := h.runs x hx
      exact ⟨hx', by omega⟩
    · rw [List.mem_singleton.1 hx]
      exact ⟨hrun, Nat.le_refl b⟩
  · intro a' b' hrun' ha'
    by_cases hbefore : a' < a
    · exact List.mem_append_left _ (h.skip hspace a' b' hrun' hbefore)
    · by_cases heq : a' = a
      · subst heq
        rw [hrun'.end_unique hrun]
        exact List.mem_append_right _ List.mem_cons_self
      · -- a run that begins inside this one would not be maximal
        rcases hrun'.left with h0 | hno
        · omega
        · exact absurd (hrun.word (a' - 1) (by omega) (by omega)) hno

theorem Found.finish (h : Found text i toks) (hspace : ∀ k, i ≤ k → ¬ WordAt text k) :
    Tokens text toks where
  sorted := h.sorted
  mem a b := by
    refine ⟨fun hm => (h.runs _ hm).1, fun hrun => ?_⟩
    exact h.skip (a := text.length) (fun k hk _ => hspace k hk) a b hrun
      (Nat.lt_of_lt_of_le hrun.lt hrun.le)

/-- The first place, from `i` on, where something ends. -/
theorem exists_stop (p : Nat → Prop) [DecidablePred p] (hi : i ≤ n) :
    ∃ k, i ≤ k ∧ k ≤ n ∧ (∀ j, i ≤ j → j < k → p j) ∧ (k = n ∨ ¬ p k) := by
  induction hd : n - i generalizing i with
  | zero => exact ⟨i, Nat.le_refl i, hi, fun j h1 h2 => absurd h1 (by omega), Or.inl (by omega)⟩
  | succ m ih =>
    by_cases hp : p i
    · obtain ⟨k, h1, h2, h3, h4⟩ := ih (i := i + 1) (by omega) (by omega)
      refine ⟨k, by omega, h2, fun j hj hjk => ?_, h4⟩
      by_cases hji : j = i
      · rw [hji]
        exact hp
      · exact h3 j (by omega) hjk
    · exact ⟨i, Nat.le_refl i, hi, fun j h1 h2 => absurd h1 (by omega), Or.inr hp⟩

/-- Every text has its runs. -/
theorem exists_runs (h : Found text i toks) (hi : i ≤ text.length) :
    ∃ more, Tokens text (toks ++ more) := by
  induction hd : text.length - i using Nat.strong_induction_on generalizing i toks with
  | _ m ih =>
    obtain ⟨a, hia, ha, hspace, hstop⟩ := exists_stop (fun k => ¬ WordAt text k) hi
    rcases hstop with hend | hword
    · refine ⟨[], ?_⟩
      rw [List.append_nil]
      refine h.finish fun k hk => ?_
      by_cases hka : k < a
      · exact hspace k hk hka
      · exact fun hw => absurd hw.lt (by omega)
    · have hlt : a < text.length := (not_not.1 hword).lt
      obtain ⟨b, hab, hb, hw, hstop'⟩ := exists_stop (fun k => WordAt text k) (i := a + 1) hlt
      have hword' : ∀ k, a ≤ k → k < b → WordAt text k := by
        intro k hk hkb
        by_cases hka : k = a
        · rw [hka]
          exact not_not.1 hword
        · exact hw k (by omega) hkb
      have hright : ¬ WordAt text b := by
        rcases hstop' with hend | hno
        · exact fun hw => absurd hw.lt (by omega)
        · exact hno
      have hrun := h.run hia (by omega) hspace hword' hright
      obtain ⟨more, hmore⟩ := ih (text.length - b) (by omega) (h.add hia hspace hrun) hb rfl
      exact ⟨(a, b) :: more, by rwa [List.append_assoc] at hmore⟩

/-! ## The loops -/

/-- The line, when the white space before `i` has been overwritten. -/
def Cut (text : List Byte) (i : Nat) (buf : List Byte) : Prop := ∀ k, buf[k]? =
  if k < text.length then if k < i ∧ ¬ WordAt text k then some 0#8 else text[k]?
  else if k = text.length then some 0#8 else none

theorem cut_zero (text : List Byte) : Cut text 0 (text ++ [0#8]) := by
  intro k
  have hnot : ¬ (k < 0 ∧ ¬ WordAt text k) := fun hh => Nat.not_lt_zero k hh.1
  by_cases hk : k < text.length
  · rw [if_pos hk, if_neg hnot, List.getElem?_append_left hk]
  · rw [if_neg hk, List.getElem?_append_right (by omega)]
    by_cases heq : k = text.length
    · rw [if_pos heq, heq, Nat.sub_self]
      rfl
    · rw [if_neg heq]
      exact List.getElem?_eq_none (by rw [List.length_singleton]; omega)

theorem Cut.length (h : Cut text i buf) : buf.length = text.length + 1 := by
  have h0 := h text.length
  rw [if_neg (Nat.lt_irrefl _), if_pos rfl] at h0
  have hlt := (List.getElem?_eq_some_iff.1 h0).1
  have h1 := h (text.length + 1)
  rw [if_neg (by omega), if_neg (by omega)] at h1
  have hle := List.getElem?_eq_none_iff.1 h1
  omega

/-- Cutting further, where there is no white space, changes nothing. -/
theorem Cut.words (h : Cut text a buf) (hw : ∀ k, a ≤ k → k < b → WordAt text k) (hab : a ≤ b) :
    Cut text b buf := by
  intro k
  rw [h k]
  by_cases hk : k < text.length
  · rw [if_pos hk, if_pos hk]
    by_cases hno : WordAt text k
    · rw [if_neg fun hh => hh.2 hno, if_neg fun hh => hh.2 hno]
    · by_cases hka : k < a
      · rw [if_pos ⟨hka, hno⟩, if_pos ⟨by omega, hno⟩]
      · rw [if_neg fun hh => hka hh.1, if_neg fun hh => hno (hw k (by omega) hh.1)]
  · rw [if_neg hk, if_neg hk]

theorem strchr_whitespace (c : Byte) : (strchr whitespace c).isSome ↔ IsSpace c := by
  rw [strchr, List.findIdx?_isSome, List.any_eq_true, IsSpace]
  simp

/-- What is read: a character of a word, white space, or the NUL. -/
theorem readChar_run (hnul : 0#8 ∉ text) (h : Cut text i s.line) (hik : i ≤ k)
    (hk : k ≤ text.length) :
    ∃ c, (readChar k).run s = .ok c s ∧ (c = 0#8 ↔ k = text.length) ∧
      (c ≠ 0#8 → (IsSpace c ↔ ¬ WordAt text k)) := by
  have hline := h k
  have hnot : ¬ (k < i ∧ ¬ WordAt text k) := fun hh => absurd hh.1 (by omega)
  rcases Nat.lt_or_eq_of_le hk with hlt | heq
  · rw [if_pos hlt, if_neg hnot, List.getElem?_eq_getElem hlt] at hline
    refine ⟨text[k], ?_, ⟨fun h0 => ?_, fun hh => absurd hh (by omega)⟩, fun _ => ?_⟩
    · simp only [readChar, EStateM.run_bind, EStateM.run_get, hline]
      rfl
    · exact absurd (h0 ▸ List.getElem_mem hlt) hnul
    · rw [WordAt, List.getElem?_eq_getElem hlt]
      simp
  · rw [if_neg (by omega), if_pos heq] at hline
    refine ⟨0#8, ?_, ⟨fun _ => heq, fun _ => rfl⟩, fun h0 => absurd rfl h0⟩
    simp only [readChar, EStateM.run_bind, EStateM.run_get, hline]
    rfl

theorem clearChar_run (h : Cut text k s.line) (hk : k < text.length) (hno : ¬ WordAt text k) :
    ∃ line', (clearChar k).run s = .ok () { s with line := line' } ∧ Cut text (k + 1) line' := by
  have hlen := h.length
  refine ⟨s.line.set k 0#8, ?_, fun j => ?_⟩
  · simp only [clearChar, EStateM.run_bind, EStateM.run_get,
      if_pos (show k < s.line.length by omega)]
    rfl
  · by_cases hj : j = k
    · subst hj
      rw [List.getElem?_set_self (by omega), if_pos hk, if_pos ⟨Nat.lt_succ_self j, hno⟩]
    · rw [List.getElem?_set_ne (Ne.symm hj), h j]
      by_cases hjk : j < k
      · simp only [hjk, Nat.lt_succ_of_lt hjk, true_and]
      · have hjk' : ¬ j < k + 1 := by omega
        simp only [hjk, hjk', false_and]

theorem setArg_run (hk : k < maxargs) (p : Option Nat) : (setArg k p).run s =
    .ok () { s with argv := Function.update s.argv k p } := by
  rw [setArg, if_pos hk]
  rfl

/-- **White space** is gobbled up to the next word, or to the end. -/
theorem gobble_run (hnul : 0#8 ∉ text) (fuel : Nat) (h : Cut text i s.line) (hi : i ≤ text.length)
    (hfuel : text.length - i < fuel) : ∃ a line',
    (gobble fuel i).run s = .ok a { s with line := line' } ∧ Cut text a line' ∧ i ≤ a ∧
      a ≤ text.length ∧ (∀ k, i ≤ k → k < a → ¬ WordAt text k) ∧
      (a = text.length ∨ WordAt text a) := by
  induction fuel generalizing i s with
  | zero => omega
  | succ fuel ih =>
    obtain ⟨c, hread, hzero, hspace⟩ := readChar_run hnul h (Nat.le_refl i) hi
    have hif : c ≠ 0#8 ∧ (strchr whitespace c).isSome ↔ c ≠ 0#8 ∧ IsSpace c :=
      and_congr_right fun _ => strchr_whitespace c
    rw [gobble, run_bind_ok hread]
    by_cases hc : c ≠ 0#8 ∧ IsSpace c
    · have hlt : i < text.length := by
        rcases Nat.lt_or_eq_of_le hi with hlt | heq
        · exact hlt
        · exact absurd (hzero.2 heq) hc.1
      have hno := (hspace hc.1).1 hc.2
      obtain ⟨line₁, hclear, hcut⟩ := clearChar_run h hlt hno
      obtain ⟨a, line', hrun, hcut', hle, hale, hall, hstop⟩ :=
        ih (s := { s with line := line₁ }) hcut hlt (by omega)
      rw [if_pos (hif.2 hc), run_bind_ok hclear, hrun]
      refine ⟨a, line', rfl, hcut', by omega, hale, fun k hk hka => ?_, hstop⟩
      by_cases hki : k = i
      · rw [hki]
        exact hno
      · exact hall k (by omega) hka
    · rw [if_neg fun hh => hc (hif.1 hh)]
      refine ⟨i, s.line, rfl, h, Nat.le_refl i, hi, fun k h1 h2 => absurd h1 (by omega), ?_⟩
      by_cases h0 : c = 0#8
      · exact Or.inl (hzero.1 h0)
      · exact Or.inr (not_not.1 fun hno => hc ⟨h0, (hspace h0).2 hno⟩)

/-- **A word** is scanned to its end. -/
theorem scanArg_run (hnul : 0#8 ∉ text) (fuel : Nat) (h : Cut text a s.line) (hai : a ≤ i)
    (hi : i ≤ text.length) (hfuel : text.length - i < fuel) : ∃ b,
    (scanArg fuel i).run s = .ok b s ∧ i ≤ b ∧ b ≤ text.length ∧
      (∀ k, i ≤ k → k < b → WordAt text k) ∧ ¬ WordAt text b := by
  induction fuel generalizing i with
  | zero => omega
  | succ fuel ih =>
    obtain ⟨c, hread, hzero, hspace⟩ := readChar_run hnul h hai hi
    have hif : c ≠ 0#8 ∧ ¬ (strchr whitespace c).isSome ↔ c ≠ 0#8 ∧ ¬ IsSpace c :=
      and_congr_right fun _ => not_congr (strchr_whitespace c)
    rw [scanArg, run_bind_ok hread]
    by_cases hc : c ≠ 0#8 ∧ ¬ IsSpace c
    · have hword : WordAt text i := not_not.1 fun hno => hc.2 ((hspace hc.1).2 hno)
      obtain ⟨b, hrun, hle, hb, hall, hstop⟩ := ih (by omega) hword.lt (by have := hword.lt; omega)
      rw [if_pos (hif.2 hc), hrun]
      refine ⟨b, rfl, by omega, hb, fun k hk hkb => ?_, hstop⟩
      by_cases hki : k = i
      · rw [hki]
        exact hword
      · exact hall k (by omega) hkb
    · rw [if_neg fun hh => hc (hif.1 hh)]
      refine ⟨i, rfl, Nat.le_refl i, hi, fun k h1 h2 => absurd h1 (by omega), ?_⟩
      by_cases h0 : c = 0#8
      · exact fun hw => absurd hw.lt (by rw [hzero.1 h0]; exact Nat.lt_irrefl _)
      · exact (hspace h0).1 (not_not.1 fun hno => hc ⟨h0, hno⟩)

/-- How the loop over the arguments ends, when these words have been stored. -/
structure Parsed (text : List Byte) (toks : List (Nat × Nat)) (s : CmdLine) : Prop where
  cut : Cut text text.length s.line
  few : toks.length ≤ maxargs - 1
  argv : ∀ j (hj : j < toks.length), s.argv j = some toks[j].1

/-- **All words** are found, or there are too many. -/
theorem parseArgs_run (hnul : 0#8 ∉ text) (fuel : Nat) (hfound : Found text i toks)
    (hcut : Cut text i s.line) (hi : i ≤ text.length) (hfuel : text.length - i < fuel)
    (hfew : toks.length ≤ maxargs - 1)
    (hargv : ∀ j (hj : j < toks.length), s.argv j = some toks[j].1) :
    ∃ toks' s', Tokens text toks' ∧
      ((parseArgs fuel i toks.length).run s = .ok none s' ∧ maxargs - 1 < toks'.length ∨
        (parseArgs fuel i toks.length).run s = .ok (some toks'.length) s' ∧
          Parsed text toks' s') := by
  induction fuel generalizing i toks s with
  | zero => omega
  | succ fuel ih =>
    have hget : (get : CmdM CmdLine).run s = .ok s s := rfl
    have hlen := hcut.length
    obtain ⟨a, line₁, hgobble, hcut₁, hia, ha, hspace, hstop⟩ :=
      gobble_run hnul (s.line.length + 1) hcut hi (by omega)
    obtain ⟨c, hread, hzero, -⟩ :=
      readChar_run (s := { s with line := line₁ }) hnul hcut₁ (Nat.le_refl a) ha
    rw [parseArgs, run_bind_ok hget, run_bind_ok hgobble, run_bind_ok hread]
    by_cases hend : a = text.length
    · refine ⟨toks, { s with line := line₁ }, hfound.finish fun k hk => ?_, Or.inr ?_⟩
      · by_cases hka : k < a
        · exact hspace k hk hka
        · exact fun hw => absurd hw.lt (by omega)
      · rw [if_pos (hzero.2 hend)]
        exact ⟨rfl, hend ▸ hcut₁, hfew, hargv⟩
    · have hword : WordAt text a := hstop.resolve_left hend
      obtain ⟨b, hscan, hab, hb, hall, hright⟩ := scanArg_run
        (s := { line := line₁, argv := Function.update s.argv toks.length (some a) }) hnul
        (line₁.length + 1) hcut₁ (Nat.le_refl a) ha (by have := hcut₁.length; omega)
      have hlt : a < b := by
        rcases Nat.lt_or_eq_of_le hab with hlt | heq
        · exact hlt
        · exact absurd (heq ▸ hword) hright
      have hrun := hfound.run hia hlt hspace hall hright
      have hadd := hfound.add hia hspace hrun
      rw [if_neg (mt hzero.1 hend)]
      by_cases hfull : toks.length = maxargs - 1
      · -- one more word than there is room for
        obtain ⟨more, hmore⟩ := exists_runs hadd hb
        refine ⟨_, { s with line := line₁ }, hmore, Or.inl ⟨?_, ?_⟩⟩
        · rw [if_pos hfull]
          rfl
        · rw [List.length_append, List.length_append, List.length_singleton]
          omega
      · have hroom : toks.length < maxargs := by omega
        have hsucc : (toks ++ [(a, b)]).length = toks.length + 1 := by simp
        rw [if_neg hfull, run_bind_ok (setArg_run (s := { s with line := line₁ }) hroom (some a)),
          run_bind_ok (show (get : CmdM CmdLine).run _ = .ok _ _ from rfl), run_bind_ok hscan,
          ← hsucc]
        refine ih hadd (hcut₁.words hall hab) hb (by omega) (by omega) fun j hj => ?_
        by_cases hjn : j = toks.length
        · subst hjn
          simp
        · have hj' : j < toks.length := by omega
          rw [List.getElem_append_left hj', ← hargv j hj']
          exact Function.update_of_ne hjn ..

/-! ## The command -/

/-- The characters of a run. -/
def word (text : List Byte) (x : Nat × Nat) : List Byte := (text.drop x.1).take (x.2 - x.1)

/-- A string, with its NUL, stands at `p`. -/
def StringAt (buf : List Byte) (p : Nat) (w : List Byte) : Prop :=
  ∃ rest, buf.drop p = w ++ 0#8 :: rest

theorem StringAt.tail {q : Byte} {w : List Byte} {p : Nat} (h : StringAt buf p (q :: w)) :
    StringAt buf (p + 1) w := by
  obtain ⟨rest, h⟩ := h
  refine ⟨rest, ?_⟩
  rw [← List.drop_drop, h]
  rfl

/-- A word ends in a NUL now. -/
theorem Cut.stringAt (hcut : Cut text text.length buf) (hrun : IsRun text a b) :
    StringAt buf a (word text (a, b)) := by
  have hlt := hrun.lt
  have hb := hrun.le
  have hlen := hcut.length
  have hkeep : ∀ k, a ≤ k → k < b → buf[k]? = text[k]? := by
    intro k hk hkb
    rw [hcut k, if_pos (by omega), if_neg fun hh => hh.2 (hrun.word k hk hkb)]
  have hend : buf[b]? = some 0#8 := by
    rw [hcut b]
    by_cases hbl : b < text.length
    · rw [if_pos hbl, if_pos ⟨hbl, hrun.right⟩]
    · rw [if_neg hbl, if_pos (by omega)]
  refine ⟨buf.drop (b + 1), List.ext_getElem? fun k => ?_⟩
  have hword : (word text (a, b)).length = b - a := by
    rw [word, List.length_take, List.length_drop]
    exact Nat.min_eq_left (by omega)
  rw [List.getElem?_drop]
  rcases Nat.lt_trichotomy k (b - a) with hk | hk | hk
  · rw [List.getElem?_append_left (by omega), hkeep (a + k) (by omega) (by omega), word,
      List.getElem?_take_of_lt hk, List.getElem?_drop]
  · rw [List.getElem?_append_right (by omega), hword, hk, Nat.sub_self,
      show a + (b - a) = b by omega, hend]
    rfl
  · rw [List.getElem?_append_right (by omega), hword,
      show k - (b - a) = (k - (b - a) - 1) + 1 by omega, List.getElem?_cons_succ,
      List.getElem?_drop]
    congr 1
    omega

theorem not_mem_word (hnul : 0#8 ∉ text) (x : Nat × Nat) : 0#8 ∉ word text x :=
  fun h => hnul (List.mem_of_mem_drop (List.mem_of_mem_take h))

theorem StringAt.readChar {c : Byte} {w : List Byte} {p : Nat} (h : StringAt s.line p w)
    (hc : (w ++ [0#8]).head? = some c) : (readChar p).run s = .ok c s := by
  obtain ⟨rest, h⟩ := h
  have hget : s.line[p]? = some c := by
    have h0 : (s.line.drop p)[0]? = s.line[p]? := by rw [List.getElem?_drop, Nat.add_zero]
    rw [← h0, h]
    cases w with
    | nil => exact hc
    | cons q w => exact hc
  simp only [Jos.readChar, EStateM.run_bind, EStateM.run_get, hget]
  rfl

theorem toNat_eq_zero {c : Byte} (h : c.toNat = 0) : c = 0#8 := BitVec.eq_of_toNat_eq h

/-- `strcmp` tells whether the strings are equal. -/
theorem strcmpName_run {w name : List Byte} {p : Nat} (hw : 0#8 ∉ w) (hname : 0#8 ∉ name)
    (h : StringAt s.line p w) :
    ∃ r, (strcmpName p name).run s = .ok r s ∧ (r = 0 ↔ w = name) := by
  induction name generalizing w p with
  | nil =>
    cases w with
    | nil => exact ⟨0, run_bind_ok (h.readChar rfl), by simp⟩
    | cons c w =>
      refine ⟨c.toNat, run_bind_ok (h.readChar rfl), ?_⟩
      have hc : c.toNat ≠ 0 := fun hc => hw ((toNat_eq_zero hc) ▸ List.mem_cons_self)
      simp [hc]
  | cons q name ih =>
    rw [strcmpName]
    cases w with
    | nil =>
      refine ⟨((0#8).toNat : Int) - q.toNat, ?_, ?_⟩
      · rw [run_bind_ok (h.readChar rfl), if_neg fun hh => hh.1 rfl]
        rfl
      · have hq : q.toNat ≠ 0 := fun hq => hname ((toNat_eq_zero hq) ▸ List.mem_cons_self)
        simp [hq]
    | cons c w =>
      rw [run_bind_ok (h.readChar rfl)]
      have hc : c ≠ 0#8 := fun hc => hw (hc ▸ List.mem_cons_self)
      by_cases heq : c = q
      · obtain ⟨r, hrun, hr⟩ := ih (fun hm => hw (List.mem_cons_of_mem _ hm))
          (fun hm => hname (List.mem_cons_of_mem _ hm)) h.tail
        refine ⟨r, ?_, ?_⟩
        · rw [if_pos ⟨hc, heq⟩, hrun]
        · rw [hr, heq]
          simp
      · refine ⟨c.toNat - q.toNat, ?_, ?_⟩
        · rw [if_neg fun hh => heq hh.2]
          rfl
        · have hne : c.toNat ≠ q.toNat := fun hh => heq (BitVec.eq_of_toNat_eq hh)
          refine ⟨fun hh => absurd hh (by omega), fun hh => ?_⟩
          exact absurd (List.cons.inj hh).1 heq

/-- The command of a name, in a table. -/
def commandOf (table : List (CString × MonCommand)) (w : List Byte) (argc : Nat) : CmdOutcome :=
  match table.find? fun entry => entry.1.bytes = w with
  | some entry => .call entry.2 argc
  | none => .unknown

/-- The loop over the commands finds the first of that name. -/
theorem lookupCommand_run {w : List Byte} {p : Nat} (hw : 0#8 ∉ w) (h : StringAt s.line p w)
    (argc : Nat) (table : List (CString × MonCommand)) :
    (lookupCommand p argc table).run s = .ok (commandOf table w argc) s := by
  induction table with
  | nil => rfl
  | cons entry table ih =>
    obtain ⟨name, func⟩ := entry
    obtain ⟨r, hrun, hr⟩ := strcmpName_run hw name.noNul h
    rw [lookupCommand, run_bind_ok hrun]
    by_cases heq : w = name.bytes
    · rw [if_pos (hr.2 heq), commandOf, List.find?_cons_of_pos (by simp [heq])]
      rfl
    · have hne : ¬ name.bytes = w := fun hh => heq hh.symm
      rw [if_neg (mt hr.1 heq), ih, commandOf, commandOf, List.find?_cons_of_neg (by simp [hne])]

/-- What a command gets: the words in order, each with its NUL, and a null pointer. -/
structure Arguments (text : List Byte) (toks : List (Nat × Nat)) (s : CmdLine) : Prop where
  words : ∀ j (hj : j < toks.length),
    s.argv j = some toks[j].1 ∧ StringAt s.line toks[j].1 (word text toks[j])
  last : s.argv toks.length = none

/-- **The command line** is cut into its words, without a fault: with one to 15 words the command of
that name is called with all of them, or there is no such command; with more none is called. -/
theorem runcmd_tokens (line : CString) (argv : Nat → Option Nat) : ∃ outcome s' toks,
    runcmd.run ⟨line.bytes ++ [0#8], argv⟩ = .ok outcome s' ∧ Tokens line.bytes toks ∧
    (toks = [] → outcome = .blank) ∧ (maxargs - 1 < toks.length → outcome = .tooMany) ∧
    ∀ first rest, toks = first :: rest → toks.length ≤ maxargs - 1 →
      outcome = commandOf commands (word line.bytes first) toks.length ∧
        Arguments line.bytes toks s' := by
  have hnul := line.noNul
  obtain ⟨toks, s₁, hruns, hparse⟩ := parseArgs_run
    (s := { line := line.bytes ++ [0#8], argv := Function.update argv 0 none }) hnul
    ((line.bytes ++ [0#8]).length + 1) (found_zero line.bytes) (cut_zero line.bytes) (Nat.zero_le _)
    (by rw [List.length_append, List.length_singleton]; omega) (Nat.zero_le _)
    (fun j hj => absurd hj (Nat.not_lt_zero j))
  have hstart : ∀ (f : CmdLine → CmdM CmdOutcome),
      (do setArg 0 none; f (← get)).run ⟨line.bytes ++ [0#8], argv⟩ =
        (f ⟨line.bytes ++ [0#8], Function.update argv 0 none⟩).run
          ⟨line.bytes ++ [0#8], Function.update argv 0 none⟩ := fun _ => rfl
  rw [List.length_nil] at hparse
  rw [runcmd, hstart]
  dsimp only
  rcases hparse with ⟨hrun, hmany⟩ | ⟨hrun, hparsed⟩
  · refine ⟨.tooMany, s₁, toks, ?_, hruns, ?_, fun _ => rfl, ?_⟩
    · rw [run_bind_ok hrun]
      rfl
    · exact fun h => absurd hmany (by rw [h]; exact Nat.not_lt_zero _)
    · exact fun _ _ _ hfew => absurd hmany (Nat.not_lt.2 hfew)
  · have hargc : toks.length < maxargs := by
      have := hparsed.few
      have : maxargs = 16 := rfl
      omega
    have hmany : ¬ maxargs - 1 < toks.length := Nat.not_lt.2 hparsed.few
    rw [run_bind_ok hrun]
    dsimp only
    rw [run_bind_ok (setArg_run hargc none)]
    cases hcase : toks with
    | nil =>
      refine ⟨.blank, { s₁ with argv := Function.update s₁.argv 0 none }, [], rfl, hcase ▸ hruns,
        fun _ => rfl, fun h => absurd h (Nat.not_lt_zero _), ?_⟩
      exact fun first rest h => absurd h.symm (List.cons_ne_nil first rest)
    | cons first rest =>
      subst hcase
      have hwords : ∀ j (hj : j < (first :: rest).length),
          Function.update s₁.argv (first :: rest).length none j = some (first :: rest)[j].1 ∧
            StringAt s₁.line (first :: rest)[j].1 (word line.bytes (first :: rest)[j]) := by
        intro j hj
        rw [Function.update_of_ne (Nat.ne_of_lt hj)]
        exact ⟨hparsed.argv j hj, hparsed.cut.stringAt ((hruns.mem _ _).1 (List.getElem_mem hj))⟩
      obtain ⟨hfirst, hstring⟩ := hwords 0 (Nat.zero_lt_succ _)
      refine ⟨commandOf commands (word line.bytes first) (first :: rest).length,
        { s₁ with argv := Function.update s₁.argv (first :: rest).length none }, first :: rest, ?_,
        hruns, fun h => absurd h (List.cons_ne_nil first rest), fun h => absurd h hmany,
        fun first' rest' heq _ => ?_⟩
      · have hsome : ¬ (first :: rest).length = 0 := Nat.succ_ne_zero _
        have hget : ∀ t : CmdLine, (get : CmdM CmdLine).run t = .ok t t := fun _ => rfl
        rw [if_neg hsome, run_bind_ok (hget _)]
        simp only [hfirst]
        exact lookupCommand_run
          (s := { s₁ with argv := Function.update s₁.argv (first :: rest).length none })
          (not_mem_word hnul first) hstring _ _
      · rw [← (List.cons.inj heq).1]
        exact ⟨rfl, hwords, Function.update_self ..⟩

/-- Nothing is called for a blank line, nor for a name that is no command's. -/
theorem runcmd_not_called :
    ¬ (∀ (line : CString) argv toks, Tokens line.bytes toks → toks ≠ [] →
      toks.length ≤ maxargs - 1 → ∃ func s',
        runcmd.run ⟨line.bytes ++ [0#8], argv⟩ = .ok (.call func toks.length) s') ∧
    ¬ (∀ (line : CString) argv toks, Tokens line.bytes toks →
      (∀ x ∈ toks.head?, ∃ entry ∈ commands, entry.1.bytes = word line.bytes x) →
      toks.length ≤ maxargs - 1 → ∃ func s',
        runcmd.run ⟨line.bytes ++ [0#8], argv⟩ = .ok (.call func toks.length) s') := by
  have hblank : Tokens [] [] := ⟨List.Pairwise.nil, fun a b =>
    ⟨fun h => absurd h List.not_mem_nil, fun h => absurd h.lt (by have := h.le; simp_all)⟩⟩
  have hx : Tokens [0x78#8] [(0, 1)] := by
    have hrun : IsRun [0x78#8] 0 1 :=
      ⟨by decide, fun k _ hk => Nat.lt_one_iff.1 hk ▸ by decide, Or.inl rfl, by decide⟩
    refine ⟨List.pairwise_singleton .., fun a b => ?_⟩
    rw [List.mem_singleton, Prod.mk.injEq]
    constructor
    · rintro ⟨rfl, rfl⟩
      exact hrun
    · intro h
      have hle : b ≤ 1 := h.le
      have hlt := h.lt
      omega
  constructor
  · intro h
    obtain ⟨func, s', hrun⟩ := h ⟨[0x78#8], by decide⟩ (fun _ => none) _ hx (by decide) (by decide)
    have hunknown : runcmd.run ⟨[0x78#8] ++ [0#8], fun _ => none⟩ =
      .ok .unknown ⟨[0x78#8] ++ [0#8], _⟩ := rfl
    exact absurd (hunknown.symm.trans hrun) (by simp)
  · intro h
    obtain ⟨func, s', hrun⟩ := h ⟨[], by decide⟩ (fun _ => none) _ hblank
      (fun x hx => absurd hx (by simp)) (by decide)
    have hnone : runcmd.run ⟨[] ++ [0#8], fun _ => none⟩ = .ok .blank ⟨[] ++ [0#8], _⟩ := rfl
    exact absurd (hnone.symm.trans hrun) (by simp)

end Jos
