import Jos.Printfmt
import Mathlib.Data.List.Induction

/-!
# Line editing

`readline` of `lib/readline.c`.  It is meant to be a line editor: printable characters are appended,
backspace and DEL take the last one away and do nothing on an empty line.  Both are tested for in
one condition, together with the line not being empty, so on an empty line the next condition is
looked at, and DEL, which is greater than a space, is a printable character to that one.

The DEL then stands at the beginning of the line until it is erased, and takes up one place.
`readline_edits_iff` says when the line is right.
-/

set_option autoImplicit false

namespace Jos

/-- `BUFLEN`. -/
def buflen : Nat := 1024

def backspace : Byte := 8#8

def delete : Byte := 0x7f#8

/-- The static buffer, and how much of it is in use; there is always room for a NUL. -/
structure LineBuf where
  buf : Fin buflen → Byte
  i : Fin buflen

/-- What `readline` prints. -/
inductive LineOutput where
  /-- `cprintf("%s", prompt)`. -/
  | prompt (s : CString)
  /-- `cputchar(c)`. -/
  | echo (c : Int)
  /-- `cprintf("read error: %e\n", c)`. -/
  | readError (c : Int)

/-- How `readline` ends: it returns the buffer, or `NULL`, or it waits for another character. -/
inductive LineResult where
  | line (buf : Fin buflen → Byte)
  | null
  | waiting

namespace LineBuf

/-- `i--`. -/
def erase (s : LineBuf) : LineBuf := { s with i := ⟨s.i.val - 1, by omega⟩ }

/-- `buf[i++] = c`. -/
def put (s : LineBuf) (c : Int) (h : s.i.val < buflen - 1) : LineBuf :=
  ⟨Function.update s.buf s.i (BitVec.ofInt 8 c), ⟨s.i.val + 1, by omega⟩⟩

/-- `buf[i] = 0`. -/
def close (s : LineBuf) : Fin buflen → Byte := Function.update s.buf s.i 0#8

end LineBuf

/-- The loop of `readline`, for the characters that `getchar` returns. -/
def readlineLoop (echoing : Bool) : List Int → LineBuf → LineResult × List LineOutput
  | [], _ => (.waiting, [])
  | c :: cs, s =>
    let after (o : LineOutput) (r : LineResult × List LineOutput) : LineResult × List LineOutput :=
      (r.1, if echoing then o :: r.2 else r.2)
    if c < 0 then
      (.null, [.readError c])
    else if (c = 8 ∨ c = 0x7f) ∧ 0 < s.i.val then
      after (.echo 8) (readlineLoop echoing cs s.erase)
    else if h : 32 ≤ c ∧ s.i.val < buflen - 1 then
      after (.echo c) (readlineLoop echoing cs (s.put c h.2))
    else if c = 10 ∨ c = 13 then
      after (.echo 10) (.line s.close, [])
    else
      readlineLoop echoing cs s

/-- `readline`; `buf` is what the static buffer holds. -/
def readline (prompt : Option CString) (echoing : Bool) (buf : Fin buflen → Byte)
    (chars : List Int) : LineResult × List LineOutput :=
  let r := readlineLoop echoing chars ⟨buf, ⟨0, by decide⟩⟩
  (r.1, (prompt.toList.map .prompt) ++ r.2)

/-- The string in a buffer. -/
def stringIn (buf : Fin buflen → Byte) : List Byte := (List.ofFn buf).takeWhile (· ≠ 0#8)

/-! ## The reference editor -/

/-- The characters that take the last one away. -/
def IsErase (c : Byte) : Prop := c = backspace ∨ c = delete

/-- The characters that end a line. -/
def EndsLine (c : Byte) : Prop := c = 10#8 ∨ c = 13#8

instance (c : Byte) : Decidable (IsErase c) := inferInstanceAs (Decidable (_ ∨ _))

instance (c : Byte) : Decidable (EndsLine c) := inferInstanceAs (Decidable (_ ∨ _))

/-- One character typed. -/
def typed (line : List Byte) (c : Byte) : List Byte :=
  if IsErase c then line.dropLast
  else if 32 ≤ c.toNat ∧ line.length < buflen - 1 then line ++ [c]
  else line

/-- The characters up to the end of the line. -/
def firstLine (chars : List Byte) : List Byte := chars.takeWhile fun c => ¬ EndsLine c

/-- The line that a line editor returns. -/
def edited (chars : List Byte) : List Byte := (firstLine chars).foldl typed []

/-- How many characters a line holds after another one, if the first one it gets may be any. -/
def count (n : Nat) (c : Byte) : Nat :=
  if IsErase c ∧ 0 < n then n - 1
  else if 32 ≤ c.toNat ∧ n < buflen - 1 then n + 1
  else n

/-- How many characters `chars` leaves on a line with `n` characters. -/
def held (n : Nat) (chars : List Byte) : Nat := chars.foldl count n

/-- A DEL has come when the line was empty, and has not been erased. -/
def Stays (chars : List Byte) : Prop :=
  ∃ before after, chars = before ++ delete :: after ∧ held 0 before = 0 ∧
    ∀ p, p <+: after → held 1 p ≠ 0

/-! ## What the code does with a line -/

/-- One character typed, as the code has it. -/
def taken (line : List Byte) (c : Byte) : List Byte :=
  if IsErase c ∧ 0 < line.length then line.dropLast
  else if 32 ≤ c.toNat ∧ line.length < buflen - 1 then line ++ [c]
  else line

variable {line ref chars l : List Byte} {c e : Byte} {s : LineBuf} {n : Nat}

theorem length_taken (line : List Byte) (c : Byte) :
    (taken line c).length = count line.length c := by
  rw [taken, count]
  split
  · rw [List.length_dropLast]
  · split
    · rw [List.length_append, List.length_singleton]
    · rfl

theorem length_foldl_taken (line l : List Byte) :
    (l.foldl taken line).length = held line.length l := by
  induction l generalizing line with
  | nil => rfl
  | cons c l ih => rw [List.foldl_cons, ih, length_taken, held, held, List.foldl_cons]

/-- The buffer holds a line: no NUL is in it, and the bytes in use are those of the line. -/
structure LineBuf.Holds (s : LineBuf) (l : List Byte) : Prop where
  length : s.i.val = l.length
  bytes : ∀ k (hk : k < l.length) (p : Fin buflen), p.val = k → s.buf p = l[k]
  print : ∀ c ∈ l, 32 ≤ c.toNat

theorem LineBuf.Holds.erase (h : s.Holds line) : s.erase.Holds line.dropLast where
  length := by rw [List.length_dropLast, ← h.length]; rfl
  bytes k hk p hp := by
    rw [List.getElem_dropLast]
    exact h.bytes k (by rw [List.length_dropLast] at hk; omega) p hp
  print c hc := h.print c ((List.dropLast_sublist line).subset hc)

theorem LineBuf.Holds.put (h : s.Holds line) (hc : 32 ≤ c.toNat) (hi : s.i.val < buflen - 1) :
    (s.put c.toNat hi).Holds (line ++ [c]) where
  length := by rw [List.length_append, List.length_singleton, ← h.length]; rfl
  bytes k hk p hp := by
    have hbyte : BitVec.ofInt 8 (c.toNat : Int) = c := by
      rw [BitVec.ofInt_natCast, BitVec.ofNat_toNat, BitVec.setWidth_eq]
    show Function.update s.buf s.i _ p = _
    rw [List.length_append, List.length_singleton] at hk
    by_cases hlast : k = line.length
    · have hpi : p = s.i := Fin.ext (by rw [hp, hlast, h.length])
      subst hlast
      rw [hpi, Function.update_self, List.getElem_concat_length rfl, hbyte]
    · have hpi : p ≠ s.i := by
        intro he
        rw [he, h.length] at hp
        exact hlast hp.symm
      rw [Function.update_of_ne hpi, List.getElem_append_left (by omega)]
      exact h.bytes k (by omega) p hp
  print d hd := by
    rcases List.mem_append.1 hd with hd | hd
    · exact h.print d hd
    · rw [List.mem_singleton.1 hd]
      exact hc

/-- What is returned in the end is the line. -/
theorem LineBuf.Holds.close (h : s.Holds line) : stringIn s.close = line := by
  have hlen : line.length < buflen := by
    rw [← h.length]
    exact s.i.isLt
  have hne : ∀ b ∈ line, decide (b ≠ 0#8) = true := by
    intro b hb
    have hprint := h.print b hb
    refine decide_eq_true fun hz => ?_
    rw [hz] at hprint
    exact absurd hprint (by decide)
  have hsplit : List.ofFn s.close = line ++ 0#8 :: (List.ofFn s.close).drop (line.length + 1) := by
    refine List.ext_getElem ?_ fun k hk hk' => ?_
    · simp only [List.length_ofFn, List.length_append, List.length_cons, List.length_drop]
      omega
    · refine (List.getElem_ofFn hk).trans ?_
      show Function.update s.buf s.i 0#8 _ = _
      rcases lt_trichotomy k line.length with hlt | heq | hgt
      · have hpi : (⟨k, by rwa [List.length_ofFn] at hk⟩ : Fin buflen) ≠ s.i := by
          intro he
          have hv := congrArg Fin.val he
          rw [h.length] at hv
          exact absurd hv (Nat.ne_of_lt hlt)
        rw [Function.update_of_ne hpi, List.getElem_append_left hlt]
        exact h.bytes k hlt _ rfl
      · have hpi : (⟨k, by rwa [List.length_ofFn] at hk⟩ : Fin buflen) = s.i :=
          Fin.ext (heq.trans h.length.symm)
        subst heq
        rw [hpi, Function.update_self, List.getElem_append_right (Nat.le_refl _)]
        simp only [Nat.sub_self, List.getElem_cons_zero]
      · rw [List.getElem_append_right (by omega)]
        obtain ⟨j, rfl⟩ : ∃ j, k = line.length + 1 + j := ⟨k - (line.length + 1), by omega⟩
        have hj : line.length + 1 + j - line.length = j + 1 := by omega
        simp only [hj, List.getElem_cons_succ, List.getElem_drop, List.getElem_ofFn,
          LineBuf.close]
  rw [stringIn, hsplit, List.takeWhile_append_of_pos hne,
    List.takeWhile_cons_of_neg (by simp), List.append_nil]

/-- Characters as `getchar` returns them. -/
def codes (chars : List Byte) : List Int := chars.map fun c => (c.toNat : Int)

theorem erases_iff : IsErase c ↔ (c.toNat : Int) = 8 ∨ (c.toNat : Int) = 0x7f := by
  have hb : backspace.toNat = 8 := rfl
  have hd : delete.toNat = 0x7f := rfl
  rw [IsErase, BitVec.toNat_inj.symm, BitVec.toNat_inj.symm, hb, hd]
  omega

theorem endsLine_iff : EndsLine c ↔ (c.toNat : Int) = 10 ∨ (c.toNat : Int) = 13 := by
  have hn : (10#8).toNat = 10 := rfl
  have hr : (13#8).toNat = 13 := rfl
  rw [EndsLine, BitVec.toNat_inj.symm, BitVec.toNat_inj.symm, hn, hr]
  omega

theorem not_print_of_ends (h : EndsLine c) : ¬ 32 ≤ c.toNat ∧ ¬ IsErase c := by
  rcases h with rfl | rfl
  · decide
  · decide

/-- **The loop** returns the line that its characters make of the one in the buffer. -/
theorem readlineLoop_line (echoing : Bool) (rest : List Byte) (h : s.Holds line)
    (hl : ∀ c ∈ l, ¬ EndsLine c) (he : EndsLine e) :
    ∃ buf out, readlineLoop echoing (codes (l ++ e :: rest)) s = (.line buf, out) ∧
      stringIn buf = l.foldl taken line := by
  induction l generalizing s line with
  | nil =>
    obtain ⟨hprint, herase⟩ := not_print_of_ends he
    refine ⟨s.close, if echoing then [.echo 10] else [], ?_, h.close⟩
    rw [List.nil_append, codes, List.map_cons, readlineLoop, if_neg (by omega),
      if_neg fun hh => herase (erases_iff.2 hh.1), dif_neg fun hh => hprint (by omega),
      if_pos (endsLine_iff.1 he)]
  | cons c l ih =>
    have hc : ¬ EndsLine c := hl c List.mem_cons_self
    have hl' : ∀ d ∈ l, ¬ EndsLine d := fun d hd => hl d (List.mem_cons_of_mem c hd)
    rw [List.cons_append, codes, List.map_cons, readlineLoop, if_neg (by omega), List.foldl_cons,
      ← codes]
    by_cases herase : IsErase c ∧ 0 < line.length
    · obtain ⟨buf, out, hrun, hbuf⟩ := ih h.erase hl'
      rw [if_pos ⟨erases_iff.1 herase.1, by rw [h.length]; exact herase.2⟩, hrun, taken,
        if_pos herase]
      exact ⟨buf, _, rfl, hbuf⟩
    rw [if_neg fun hh => herase ⟨erases_iff.2 hh.1, by rw [← h.length]; exact hh.2⟩]
    by_cases hprint : 32 ≤ c.toNat ∧ line.length < buflen - 1
    · have hi : s.i.val < buflen - 1 := by
        rw [h.length]
        exact hprint.2
      obtain ⟨buf, out, hrun, hbuf⟩ := ih (h.put hprint.1 hi) hl'
      rw [dif_pos ⟨by omega, hi⟩, hrun, taken, if_neg herase, if_pos hprint]
      exact ⟨buf, _, rfl, hbuf⟩
    · rw [dif_neg fun hh => hprint ⟨by omega, by rw [← h.length]; exact hh.2⟩,
        if_neg fun hh => hc (endsLine_iff.2 hh), taken, if_neg herase, if_neg hprint]
      exact ih h hl'

/-! ## The DEL on an empty line -/

theorem held_append (n : Nat) (l l' : List Byte) : held n (l ++ l') = held (held n l) l' :=
  List.foldl_append

/-- As long as the line is not emptied its first character stays. -/
theorem head_foldl_taken {x : Byte} (xs l : List Byte)
    (hl : ∀ p, p <+: l → held (xs.length + 1) p ≠ 0) :
    (l.foldl taken (x :: xs)).head? = some x := by
  induction l generalizing xs with
  | nil => rfl
  | cons c l ih =>
    have hstep : ∃ ys, taken (x :: xs) c = x :: ys := by
      have hne := hl [c] ⟨l, rfl⟩
      rw [held, List.foldl_cons, List.foldl_nil] at hne
      have hlen : (taken (x :: xs) c).length ≠ 0 := by
        rw [length_taken]
        exact hne
      rw [taken] at hlen ⊢
      split at hlen
      · next herase =>
        rw [if_pos herase]
        cases xs with
        | nil => exact absurd rfl hlen
        | cons y ys => exact ⟨_, List.dropLast_cons_cons⟩
      · next herase =>
        rw [if_neg herase]
        split
        · exact ⟨xs ++ [c], rfl⟩
        · exact ⟨xs, rfl⟩
    obtain ⟨ys, hys⟩ := hstep
    rw [List.foldl_cons, hys]
    refine ih ys fun p hp => ?_
    have hcons := hl (c :: p) (List.cons_prefix_cons.2 ⟨rfl, hp⟩)
    have hlen := length_taken (x :: xs) c
    rw [hys, List.length_cons, List.length_cons] at hlen
    rw [hlen]
    exact hcons

/-- A line that is not empty was begun at some point, and not emptied since. -/
theorem begun_of_ne_nil (l : List Byte) (hne : l.foldl taken [] ≠ []) :
    ∃ before c after, l = before ++ c :: after ∧ held 0 before = 0 ∧ taken [] c = [c] ∧
      ∀ p, p <+: after → held 1 p ≠ 0 := by
  induction l using List.reverseRecOn with
  | nil => exact absurd rfl hne
  | append_singleton l c ih =>
    have hlast : held 0 (l ++ [c]) ≠ 0 := by
      have hlen := length_foldl_taken [] (l ++ [c])
      rw [List.length_nil] at hlen
      rw [← hlen]
      exact fun hz => hne (List.length_eq_zero_iff.1 hz)
    by_cases hemp : l.foldl taken [] = []
    · have hz : held 0 l = 0 := by
        have hlen := length_foldl_taken [] l
        rw [hemp] at hlen
        exact hlen.symm
      refine ⟨l, c, [], rfl, hz, ?_, fun p hp => ?_⟩
      · rw [List.foldl_append, hemp, List.foldl_cons, List.foldl_nil, taken,
          if_neg fun hh => absurd hh.2 (Nat.lt_irrefl 0)] at hne
        rw [taken, if_neg fun hh => absurd hh.2 (Nat.lt_irrefl 0)]
        split at hne
        · next hprint => rw [if_pos hprint, List.nil_append]
        · exact absurd rfl hne
      · rw [List.prefix_nil.1 hp]
        exact Nat.one_ne_zero
    · obtain ⟨before, d, after, rfl, hz, hd, hafter⟩ := ih hemp
      refine ⟨before, d, after ++ [c], by simp, hz, hd, fun p hp => ?_⟩
      rcases List.prefix_concat_iff.1 hp with rfl | hp
      · have hone : count 0 d = 1 := by
          have hlen := length_taken [] d
          rw [hd] at hlen
          exact hlen.symm
        rw [List.append_assoc, held_append, hz, List.cons_append, held, List.foldl_cons, hone]
          at hlast
        exact hlast
      · exact hafter p hp

/-- What stays is a DEL at the beginning of the line. -/
theorem stays_iff (l : List Byte) : Stays l ↔ (l.foldl taken []).head? = some delete := by
  constructor
  · rintro ⟨before, after, rfl, hz, hafter⟩
    have hemp : before.foldl taken [] = [] :=
      List.length_eq_zero_iff.1 ((length_foldl_taken [] before).trans hz)
    rw [List.foldl_append, hemp, List.foldl_cons]
    exact head_foldl_taken [] after hafter
  · intro hhead
    have hne : l.foldl taken [] ≠ [] := by
      intro hn
      rw [hn] at hhead
      exact absurd hhead (by simp)
    obtain ⟨before, c, after, rfl, hz, hc, hafter⟩ := begun_of_ne_nil l hne
    have hemp : before.foldl taken [] = [] :=
      List.length_eq_zero_iff.1 ((length_foldl_taken [] before).trans hz)
    rw [List.foldl_append, hemp, List.foldl_cons, hc, head_foldl_taken [] after hafter]
      at hhead
    exact ⟨before, after, by rw [Option.some_inj.1 hhead], hz, hafter⟩

/-- The line of the code and that of the reference editor: they are the same, or a DEL stands at the
beginning of the former, and then it may have lost one character to the limit. -/
def Trails (line ref : List Byte) : Prop :=
  line = ref ∨ line.head? = some delete ∧ (line.length = ref.length ∨ line.length = ref.length + 1)

theorem delete_notMem_typed (h : delete ∉ ref) (c : Byte) : delete ∉ typed ref c := by
  rw [typed]
  split
  · exact fun hm => h ((List.dropLast_sublist ref).subset hm)
  · next herase =>
    split
    · intro hm
      rcases List.mem_append.1 hm with hm | hm
      · exact h hm
      · exact herase (Or.inr (List.mem_singleton.1 hm).symm)
    · exact h

theorem length_typed_le (h : ref.length ≤ buflen - 1) (c : Byte) :
    (typed ref c).length ≤ buflen - 1 := by
  rw [typed]
  split
  · rw [List.length_dropLast]
    omega
  · split
    · next hprint =>
      rw [List.length_append, List.length_singleton]
      omega
    · exact h

theorem length_taken_le (h : line.length ≤ buflen - 1) (c : Byte) :
    (taken line c).length ≤ buflen - 1 := by
  rw [length_taken, count]
  split
  · omega
  · split
    · omega
    · exact h

/-- A character that erases, on the empty line: only a DEL gets past the test for it. -/
theorem trails_erase_nil (herase : IsErase c) : Trails (taken [] c) (typed [] c) := by
  rw [typed, if_pos herase, taken, if_neg fun hh => absurd hh.2 (Nat.lt_irrefl 0)]
  split
  · next hprint =>
    have hc : c = delete := herase.resolve_left fun hb => by
      rw [hb] at hprint
      exact absurd hprint.1 (by decide)
    rw [hc]
    exact Or.inr ⟨rfl, Or.inr rfl⟩
  · exact Or.inl rfl

/-- A character that erases, on a line that is not empty. -/
theorem Trails.erase {x : Byte} {xs : List Byte} (h : Trails (x :: xs) ref) (herase : IsErase c) :
    Trails (taken (x :: xs) c) (typed ref c) := by
  rw [typed, if_pos herase, taken, if_pos ⟨herase, by rw [List.length_cons]; omega⟩]
  rcases h with h | ⟨hhead, hlen⟩
  · rw [← h]
    exact Or.inl rfl
  rw [List.length_cons] at hlen
  cases xs with
  | nil =>
    left
    have hnil : ref.dropLast.length = 0 := by
      rw [List.length_dropLast]
      rw [List.length_nil] at hlen
      omega
    rw [List.length_eq_zero_iff.1 hnil]
    rfl
  | cons y ys =>
    right
    refine ⟨by rw [List.dropLast_cons_cons]; exact hhead, ?_⟩
    rw [List.length_cons] at hlen
    rw [List.length_dropLast, List.length_dropLast, List.length_cons, List.length_cons]
    omega

/-- Any other character. -/
theorem Trails.print (h : Trails line ref) (hline : line.length ≤ buflen - 1)
    (herase : ¬ IsErase c) :
    Trails (taken line c) (typed ref c) := by
  rw [taken, if_neg fun hh => herase hh.1, typed, if_neg herase]
  rcases h with h | ⟨hhead, hlen⟩
  · rw [h]
    exact Or.inl rfl
  right
  have hcons : ∀ d : List Byte, (line ++ d).head? = some delete := by
    intro d
    rw [List.head?_append, hhead]
    rfl
  by_cases hprint : 32 ≤ c.toNat
  · by_cases hroom : line.length < buflen - 1
    · have hroom' : ref.length < buflen - 1 := by omega
      rw [if_pos ⟨hprint, hroom⟩, if_pos ⟨hprint, hroom'⟩]
      refine ⟨hcons [c], ?_⟩
      rw [List.length_append, List.length_append, List.length_singleton]
      omega
    · -- the line is full, and `ref` may have one character less
      rw [if_neg fun hh => hroom hh.2]
      refine ⟨hhead, ?_⟩
      split
      · rw [List.length_append, List.length_singleton]
        omega
      · omega
  · rw [if_neg fun hh => hprint hh.1, if_neg fun hh => hprint hh.1]
    exact ⟨hhead, hlen⟩

theorem Trails.eq_nil (h : Trails [] ref) : ref = [] := by
  rcases h with h | ⟨h, -⟩
  · exact h.symm
  · exact absurd h (by simp)

/-- One character, in both. -/
theorem Trails.step (h : Trails line ref) (hline : line.length ≤ buflen - 1) (c : Byte) :
    Trails (taken line c) (typed ref c) := by
  by_cases herase : IsErase c
  · cases line with
    | nil =>
      rw [h.eq_nil]
      exact trails_erase_nil herase
    | cons x xs => exact h.erase herase
  · exact h.print hline herase

/-- What the editors have in common after any characters. -/
theorem trails_foldl (l : List Byte) : Trails (l.foldl taken []) (l.foldl typed []) ∧
    (l.foldl taken []).length ≤ buflen - 1 ∧ (l.foldl typed []).length ≤ buflen - 1 ∧
    delete ∉ l.foldl typed [] := by
  induction l using List.reverseRecOn with
  | nil => exact ⟨Or.inl rfl, Nat.zero_le _, Nat.zero_le _, List.not_mem_nil⟩
  | append_singleton l c ih =>
    obtain ⟨hf, hline, href, hdel⟩ := ih
    rw [List.foldl_append, List.foldl_append, List.foldl_cons, List.foldl_nil, List.foldl_cons,
      List.foldl_nil]
    exact ⟨hf.step hline c, length_taken_le hline c, length_typed_le href c,
      delete_notMem_typed hdel c⟩

theorem backspace_notMem_foldl (l : List Byte) : backspace ∉ l.foldl typed [] := by
  induction l using List.reverseRecOn with
  | nil => exact List.not_mem_nil
  | append_singleton l c ih =>
    rw [List.foldl_append, List.foldl_cons, List.foldl_nil, typed]
    split
    · exact fun hm => ih ((List.dropLast_sublist _).subset hm)
    · next herase =>
      split
      · intro hm
        rcases List.mem_append.1 hm with hm | hm
        · exact ih hm
        · exact herase (Or.inl (List.mem_singleton.1 hm).symm)
      · exact ih

/-- The line ends at the first character that ends a line. -/
theorem firstLine_concat (chars : List Byte) (he : EndsLine e) : ∃ d rest,
    chars ++ [e] = firstLine (chars ++ [e]) ++ d :: rest ∧ EndsLine d := by
  induction chars with
  | nil =>
    refine ⟨e, [], ?_, he⟩
    rw [List.nil_append, firstLine, List.takeWhile_cons_of_neg (by simpa using he)]
    rfl
  | cons c chars ih =>
    rw [List.cons_append, firstLine]
    by_cases hc : EndsLine c
    · rw [List.takeWhile_cons_of_neg (by simpa using hc)]
      exact ⟨c, chars ++ [e], rfl, hc⟩
    · obtain ⟨d, rest, hchars, hd⟩ := ih
      rw [List.takeWhile_cons_of_pos (by simpa using hc), ← firstLine]
      exact ⟨d, rest, congrArg (c :: ·) hchars, hd⟩

/-- A line as a line editor returns it for the characters it got. -/
structure EditsLine (chars line : List Byte) : Prop where
  same : line = edited chars
  length : line.length ≤ buflen - 1
  noBackspace : backspace ∉ line
  noDelete : delete ∉ line

/-- **When `readline` edits the line**: when every DEL that comes while the line is empty is erased
again. -/
theorem readline_edits_iff (prompt : Option CString) (echoing : Bool) (buf : Fin buflen → Byte)
    (chars : List Byte) (he : EndsLine e) :
    ∃ buf' out, readline prompt echoing buf (codes (chars ++ [e])) = (.line buf', out) ∧
      (EditsLine (chars ++ [e]) (stringIn buf') ↔ ¬ Stays (firstLine (chars ++ [e]))) := by
  obtain ⟨d, rest, hchars, hd⟩ := firstLine_concat chars he
  have hempty : LineBuf.Holds ⟨buf, ⟨0, by decide⟩⟩ [] :=
    ⟨rfl, fun k hk => absurd hk (Nat.not_lt_zero k), fun c hc => absurd hc List.not_mem_nil⟩
  have hno : ∀ c ∈ firstLine (chars ++ [e]), ¬ EndsLine c :=
    fun c hc => of_decide_eq_true (List.all_eq_true.1 List.all_takeWhile c hc)
  obtain ⟨buf', out, hrun, hbuf⟩ := readlineLoop_line echoing rest hempty hno hd
  obtain ⟨hf, hline, href, hdel⟩ := trails_foldl (firstLine (chars ++ [e]))
  refine ⟨buf', prompt.toList.map .prompt ++ out, ?_, ?_⟩
  · rw [readline, hchars, hrun]
  · rw [hbuf, stays_iff]
    constructor
    · intro h hhead
      exact h.noDelete (List.mem_of_mem_head? hhead)
    · intro hhead
      have hsame := hf.resolve_right fun hh => hhead hh.1
      exact ⟨hsame, hline, by rw [hsame]; exact backspace_notMem_foldl _, by rw [hsame]; exact hdel⟩

/-- `ab`, a backspace and `c` make `ac`. -/
theorem readline_edits_iff_word : ∃ buf' out,
    readline none true (fun _ => 0#8) (codes ([97#8, 98#8, backspace, 99#8] ++ [10#8])) =
      (.line buf', out) ∧
    (EditsLine ([97#8, 98#8, backspace, 99#8] ++ [10#8]) (stringIn buf') ↔
      ¬ Stays (firstLine ([97#8, 98#8, backspace, 99#8] ++ [10#8]))) :=
  readline_edits_iff none true (fun _ => 0#8) [97#8, 98#8, backspace, 99#8] (Or.inl rfl)

/-- A DEL on the empty line is part of what is returned. -/
theorem not_edits_delete : ∃ buf' out,
    readline none true (fun _ => 0#8) (codes [delete, 10#8]) = (.line buf', out) ∧
    stringIn buf' = [delete] ∧ edited [delete, 10#8] = [] ∧
    ¬ EditsLine [delete, 10#8] (stringIn buf') := by
  have hempty : LineBuf.Holds ⟨fun _ => 0#8, ⟨0, by decide⟩⟩ [] :=
    ⟨rfl, fun k hk => absurd hk (Nat.not_lt_zero k), fun c hc => absurd hc List.not_mem_nil⟩
  have hno : ∀ c ∈ [delete], ¬ EndsLine c := by decide
  obtain ⟨buf', out, hrun, hbuf⟩ := readlineLoop_line true [] hempty hno (e := 10#8) (Or.inl rfl)
  have hline : stringIn buf' = [delete] := hbuf.trans (by decide)
  refine ⟨buf', out, ?_, hline, by decide, fun h => ?_⟩
  · rw [readline]
    exact Prod.ext (congrArg Prod.fst hrun) (congrArg Prod.snd hrun)
  · exact h.noDelete (by rw [hline]; exact List.mem_cons_self)

end Jos
