import Jos.Layout
import Mathlib.Data.List.Induction

/-!
# Console input

`cons_intr` and `cons_getc` of `kern/console.c`.  Characters that arrive are put into a ring of
`CONSBUFSIZE` cells, and nothing checks that it is full: the cell after the last one is the first
again, and when the writer has caught up with the reader the ring looks empty.

So characters can be lost, `CONSBUFSIZE` at a time, but what is read still comes in the order in
which it arrived and nothing is read twice (`cons_order`).  The reader stands at some character `n`
of all that have ever been received, and the writer, overtaking it, only moves `n` forward.
-/

set_option autoImplicit false

namespace Jos

/-- `CONSBUFSIZE`. -/
def consbufsize : Nat := 512

/-- The static variable `cons`. -/
structure Cons where
  buf : Fin consbufsize → Byte
  rpos : Fin consbufsize
  wpos : Fin consbufsize

namespace Cons

/-- `cons` when the kernel starts. -/
def zero : Cons := ⟨fun _ => 0#8, ⟨0, by decide⟩, ⟨0, by decide⟩⟩

/-- `pos++`, and back to the start from the end. -/
def advance (pos : Fin consbufsize) : Fin consbufsize :=
  if h : pos.val + 1 = consbufsize then ⟨0, by decide⟩ else ⟨pos.val + 1, by omega⟩

/-- `cons.buf[cons.wpos++] = c`. -/
def put (s : Cons) (c : Byte) : Cons :=
  { s with buf := Function.update s.buf s.wpos c, wpos := advance s.wpos }

/-- `cons_intr`: `batch` is what the device returns before it returns `-1`. -/
def intr (s : Cons) : List Byte → Cons
  | [] => s
  | c :: batch => if c = 0#8 then s.intr batch else (s.put c).intr batch

/-- The end of `cons_getc`: the next character, or `0`. -/
def next (s : Cons) : Byte × Cons :=
  if s.rpos ≠ s.wpos then (s.buf s.rpos, { s with rpos := advance s.rpos }) else (0#8, s)

end Cons

/-- What happens to the console: a device interrupts, or `cons_getc` is called and finds what has
arrived in the meantime. -/
inductive ConsEvent where
  | serialIntr (batch : List Byte)
  | kbdIntr (batch : List Byte)
  | getc (serial kbd : List Byte)

/-- What a device gives to `cons_intr`, in order; without a serial port it is not asked. -/
def ConsEvent.arriving (serialExists : Bool) : ConsEvent → List Byte
  | .serialIntr batch => if serialExists then batch else []
  | .kbdIntr batch => batch
  | .getc serial kbd => (if serialExists then serial else []) ++ kbd

/-- `serial_intr`. -/
def Cons.serialIntr (serialExists : Bool) (batch : List Byte) (s : Cons) : Cons :=
  if serialExists then s.intr batch else s

/-- `kbd_intr`. -/
def Cons.kbdIntr (batch : List Byte) (s : Cons) : Cons := s.intr batch

/-- `cons_getc`. -/
def Cons.getc (serialExists : Bool) (serial kbd : List Byte) (s : Cons) : Byte × Cons :=
  ((s.serialIntr serialExists serial).kbdIntr kbd).next

/-- One event: what `cons_getc` returns, if it is called, and the state that follows. -/
def ConsEvent.handle (serialExists : Bool) (s : Cons) : ConsEvent → List Byte × Cons
  | .serialIntr batch => ([], s.serialIntr serialExists batch)
  | .kbdIntr batch => ([], s.kbdIntr batch)
  | .getc serial kbd => ([(s.getc serialExists serial kbd).1], (s.getc serialExists serial kbd).2)

/-- What the calls of `cons_getc` return, one after the other, and the state in the end. -/
def Cons.run (serialExists : Bool) : List ConsEvent → Cons → List Byte × Cons
  | [], s => ([], s)
  | ev :: evs, s =>
    let (out, s') := ev.handle serialExists s
    let (outs, s'') := Cons.run serialExists evs s'
    (out ++ outs, s'')

variable {ex : Bool} {s s' : Cons} {ev : ConsEvent} {evs : List ConsEvent} {r batch : List Byte}
variable {n : Nat} {c : Byte}

/-- The characters received: zeros are not taken for characters. -/
def received (ex : Bool) (evs : List ConsEvent) : List Byte :=
  evs.flatMap fun ev => (ev.arriving ex).filter (· ≠ 0#8)

/-- The characters that `cons_getc` has returned since the kernel started. -/
def returned (ex : Bool) (evs : List ConsEvent) : List Byte :=
  (Cons.zero.run ex evs).1.filter (· ≠ 0#8)

/-- At no time are more than `CONSBUFSIZE-1` characters unread: those received up to an event, less
those returned before it. -/
def NeverFull (ex : Bool) (evs : List ConsEvent) : Prop :=
  ∀ l ev, l ++ [ev] <+: evs → (received ex (l ++ [ev])).length ≤ (returned ex l).length +
    (consbufsize - 1)

/-! ## Where the reader and the writer stand -/

namespace Cons

theorem advance_val (pos : Fin consbufsize) :
    (advance pos).val = (pos.val + 1) % consbufsize := by
  have hlt := pos.isLt
  rw [advance]
  split
  · next h => rw [h, Nat.mod_self]
  · next h => rw [Nat.mod_eq_of_lt (by omega)]

/-- The next character to be read is the one with number `n` of all the characters `r` that have
been received; if that is none of them, the ring is empty. -/
structure Reads (s : Cons) (r : List Byte) (n : Nat) : Prop where
  le : n ≤ r.length
  near : r.length < n + consbufsize
  rpos : s.rpos.val = n % consbufsize
  wpos : s.wpos.val = r.length % consbufsize
  buf : ∀ j (hj : j < r.length), n ≤ j → ∀ p : Fin consbufsize, p.val = j % consbufsize →
    s.buf p = r[j]

theorem reads_zero : zero.Reads [] 0 :=
  ⟨Nat.le_refl 0, by decide, rfl, rfl, fun j hj => absurd hj (Nat.not_lt_zero j)⟩

/-- The writer moves the reader only when it catches up with it. -/
theorem Reads.put (h : s.Reads r n) (c : Byte) : ∃ n', n ≤ n' ∧ (s.put c).Reads (r ++ [c]) n' ∧
    (r.length + 1 < n + consbufsize → n' = n) := by
  have hsize : consbufsize = 512 := rfl
  have hnear := h.near
  have hlen : (r ++ [c]).length = r.length + 1 := List.length_append
  have hwpos : (s.put c).wpos.val = (r ++ [c]).length % consbufsize := by
    rw [hlen, Cons.put, advance_val, h.wpos, Nat.mod_add_mod]
  by_cases hroom : r.length + 1 < n + consbufsize
  · refine ⟨n, Nat.le_refl n, ⟨by rw [hlen]; have := h.le; omega, by rw [hlen]; exact hroom, h.rpos,
      hwpos, fun j hj hn p hp => ?_⟩, fun _ => rfl⟩
    show Function.update s.buf s.wpos c p = _
    rw [hlen] at hj
    by_cases hlast : j = r.length
    · subst hlast
      have hpw : p = s.wpos := Fin.ext (hp.trans h.wpos.symm)
      rw [hpw, Function.update_self, List.getElem_concat_length rfl]
    · -- the cells of two unread characters are different
      have hpw : p ≠ s.wpos := by
        intro he
        have hval : j % consbufsize = r.length % consbufsize := by rw [← hp, he, h.wpos]
        rw [hsize] at hval
        omega
      rw [Function.update_of_ne hpw, List.getElem_append_left (by omega)]
      exact h.buf j (by omega) hn p hp
  · refine ⟨r.length + 1, by have := h.le; omega, ⟨by rw [hlen], by rw [hlen]; omega, ?_, hwpos,
      fun j hj hn => absurd hj (by rw [hlen]; omega)⟩, fun hh => absurd hh hroom⟩
    have hmod : r.length + 1 = n + consbufsize := by have := h.le; omega
    rw [hmod, Nat.add_mod_right]
    exact h.rpos

theorem Reads.intr (h : s.Reads r n) (batch : List Byte) :
    ∃ n', n ≤ n' ∧ (s.intr batch).Reads (r ++ batch.filter (· ≠ 0#8)) n' ∧
      ((r ++ batch.filter (· ≠ 0#8)).length < n + consbufsize → n' = n) := by
  induction batch generalizing s r n with
  | nil =>
    rw [List.filter_nil, List.append_nil]
    exact ⟨n, Nat.le_refl n, h, fun _ => rfl⟩
  | cons c batch ih =>
    rw [Cons.intr]
    by_cases hc : c = 0#8
    · rw [if_pos hc, List.filter_cons_of_neg (by simpa using hc)]
      exact ih h
    · rw [if_neg hc, List.filter_cons_of_pos (by simpa using hc), List.append_cons]
      obtain ⟨n₁, hle₁, h₁, hsame₁⟩ := h.put c
      obtain ⟨n₂, hle₂, h₂, hsame₂⟩ := ih h₁
      refine ⟨n₂, Nat.le_trans hle₁ hle₂, h₂, fun hroom => ?_⟩
      have hn₁ : n₁ = n := hsame₁ (by
        rw [List.length_append, List.length_append, List.length_singleton] at hroom
        omega)
      rw [hsame₂ (by rw [hn₁]; exact hroom), hn₁]

/-- What reading a character comes to. -/
theorem Reads.next (h : s.Reads r n) :
    (n = r.length ∧ s.next = (0#8, s)) ∨
    ∃ (hn : n < r.length) (s' : Cons), s.next = (r[n], s') ∧ s'.Reads r (n + 1) := by
  have hsize : consbufsize = 512 := rfl
  have hle := h.le
  have hnear := h.near
  by_cases hn : n = r.length
  · refine Or.inl ⟨hn, if_neg (not_not.2 (Fin.ext ?_))⟩
    rw [h.rpos, h.wpos, hn]
  · have hne : s.rpos ≠ s.wpos := by
      intro he
      have hval : n % consbufsize = r.length % consbufsize := by rw [← h.rpos, he, h.wpos]
      rw [hsize] at hval
      omega
    refine Or.inr ⟨by omega, { s with rpos := advance s.rpos }, ?_, ⟨by omega, by omega, ?_, h.wpos,
      fun j hj hn => h.buf j hj (by omega)⟩⟩
    · rw [Cons.next, if_pos hne, h.buf n (by omega) (Nat.le_refl n) s.rpos h.rpos]
    · rw [advance_val, h.rpos, Nat.mod_add_mod]

/-- A poll of both devices is one batch. -/
theorem intr_append (s : Cons) (batch batch' : List Byte) :
    (s.intr batch).intr batch' = s.intr (batch ++ batch') := by
  induction batch generalizing s with
  | nil => rfl
  | cons c batch ih =>
    rw [List.cons_append, Cons.intr, Cons.intr]
    split
    · exact ih s
    · exact ih (s.put c)

theorem serialIntr_eq (s : Cons) (ex : Bool) (batch : List Byte) :
    s.serialIntr ex batch = s.intr (if ex then batch else []) := by
  rw [serialIntr]
  split <;> rfl

theorem run_append (evs evs' : List ConsEvent) (s : Cons) :
    Cons.run ex (evs ++ evs') s =
      ((Cons.run ex evs s).1 ++ (Cons.run ex evs' (Cons.run ex evs s).2).1,
        (Cons.run ex evs' (Cons.run ex evs s).2).2) := by
  induction evs generalizing s with
  | nil => rfl
  | cons ev evs ih =>
    simp only [List.cons_append, Cons.run, ih, List.append_assoc]

end Cons

/-- What an event makes of the console: the arrivals, and then perhaps a read. -/
theorem ConsEvent.handle_eq (s : Cons) (ev : ConsEvent) :
    (∃ serial kbd, ev = .getc serial kbd ∧ ev.handle ex s =
      ([(s.intr (ev.arriving ex)).next.1], (s.intr (ev.arriving ex)).next.2)) ∨
    ev.handle ex s = ([], s.intr (ev.arriving ex)) := by
  cases ev with
  | serialIntr batch =>
    right
    rw [handle, Cons.serialIntr_eq, arriving]
  | kbdIntr batch => exact Or.inr rfl
  | getc serial kbd =>
    left
    refine ⟨serial, kbd, rfl, ?_⟩
    rw [handle, Cons.getc, Cons.serialIntr_eq, Cons.kbdIntr, Cons.intr_append, arriving]

/-! ## Order -/

theorem received_concat (l : List ConsEvent) (ev : ConsEvent) :
    received ex (l ++ [ev]) = received ex l ++ (ev.arriving ex).filter (· ≠ 0#8) := by
  rw [received, List.flatMap_append, List.flatMap_singleton, received]

theorem returned_concat (l : List ConsEvent) (ev : ConsEvent) : returned ex (l ++ [ev]) =
    returned ex l ++ (ev.handle ex (Cons.zero.run ex l).2).1.filter (· ≠ 0#8) := by
  simp only [returned, Cons.run_append, Cons.run, List.append_nil, List.filter_append]

theorem run_concat (l : List ConsEvent) (ev : ConsEvent) :
    (Cons.zero.run ex (l ++ [ev])).2 = (ev.handle ex (Cons.zero.run ex l).2).2 := by
  simp only [Cons.run_append, Cons.run]

theorem NeverFull.of_prefix {l : List ConsEvent} (h : NeverFull ex evs) (hl : l <+: evs) :
    NeverFull ex l := fun l' ev' hl' => h l' ev' (hl'.trans hl)

theorem ne_zero_of_received (h : c ∈ received ex evs) : c ≠ 0#8 := by
  obtain ⟨ev, -, hc⟩ := List.mem_flatMap.1 h
  exact of_decide_eq_true (List.mem_filter.1 hc).2

/-- The arrivals of the last event. -/
theorem Cons.Reads.arrive {l : List ConsEvent} (h : (Cons.zero.run ex l).2.Reads (received ex l) n)
    (hsub : (returned ex l).Sublist ((received ex l).take n))
    (hsame : NeverFull ex l → returned ex l = (received ex l).take n) (ev : ConsEvent) :
    ∃ n', ((Cons.zero.run ex l).2.intr (ev.arriving ex)).Reads (received ex (l ++ [ev])) n' ∧
      (returned ex l).Sublist ((received ex (l ++ [ev])).take n') ∧
      (NeverFull ex (l ++ [ev]) → returned ex l = (received ex (l ++ [ev])).take n') := by
  obtain ⟨n', hle, h', hstay⟩ := h.intr (ev.arriving ex)
  rw [← received_concat] at h' hstay
  have htake : (received ex l).take n <+: (received ex (l ++ [ev])).take n' := by
    refine List.prefix_take_iff.2 ⟨(List.take_prefix n _).trans ?_, ?_⟩
    · rw [received_concat]
      exact List.prefix_append ..
    · rw [List.length_take]
      omega
  refine ⟨n', h', hsub.trans htake.sublist, fun hfull => ?_⟩
  have heq := hsame (hfull.of_prefix (List.prefix_append ..))
  have hlen : (returned ex l).length = n := by
    rw [heq, List.length_take, Nat.min_eq_left h.le]
  have hroom := hfull l ev (List.prefix_refl _)
  have hn : n' = n := hstay (by
    rw [hlen] at hroom
    have hsize : consbufsize = 512 := rfl
    omega)
  rw [heq, hn, received_concat, List.take_append_of_le_length h.le]

/-- Some events after the start: where the reader stands, and what has been read. -/
theorem run_reads (ex : Bool) (evs : List ConsEvent) :
    ∃ n, (Cons.zero.run ex evs).2.Reads (received ex evs) n ∧
      (returned ex evs).Sublist ((received ex evs).take n) ∧
      (NeverFull ex evs → returned ex evs = (received ex evs).take n) := by
  induction evs using List.reverseRecOn with
  | nil => exact ⟨0, Cons.reads_zero, List.Sublist.refl _, fun _ => rfl⟩
  | append_singleton l ev ih =>
    obtain ⟨n, h, hsub, hsame⟩ := ih
    obtain ⟨n', h', hsub', hsame'⟩ := h.arrive hsub hsame ev
    rw [run_concat, returned_concat]
    rcases ConsEvent.handle_eq (Cons.zero.run ex l).2 ev with ⟨serial, kbd, -, hev⟩ | hev
    · rw [hev]
      rcases h'.next with ⟨-, hnext⟩ | ⟨hn, s', hnext, h''⟩
      · rw [hnext, List.filter_cons_of_neg (by simp), List.filter_nil, List.append_nil]
        exact ⟨n', h', hsub', hsame'⟩
      · have hc := ne_zero_of_received (List.getElem_mem hn)
        rw [hnext, List.filter_cons_of_pos (by simpa using hc), List.filter_nil]
        refine ⟨n' + 1, h'', ?_, fun hfull => ?_⟩
        · rw [List.take_add_one, List.getElem?_eq_getElem hn]
          exact hsub'.append (List.Sublist.refl _)
        · rw [hsame' hfull, List.take_add_one, List.getElem?_eq_getElem hn]
          rfl
    · rw [hev, List.filter_nil, List.append_nil]
      exact ⟨n', h', hsub', hsame'⟩

/-- **The console keeps the order**: what `cons_getc` returns is a part of what has been received,
in the order of arrival, each character at most once.  As long as it does not overflow nothing is
lost, and `0` is returned only when everything has been read. -/
theorem cons_order (ex : Bool) (evs : List ConsEvent) :
    (returned ex evs).Sublist (received ex evs) ∧
    (NeverFull ex evs → returned ex evs <+: received ex evs ∧
      ∀ l serial kbd, l ++ [.getc serial kbd] <+: evs →
        ((Cons.zero.run ex l).2.getc ex serial kbd).1 = 0#8 →
        returned ex l = received ex (l ++ [.getc serial kbd])) := by
  obtain ⟨n, -, hsub, hsame⟩ := run_reads ex evs
  refine ⟨hsub.trans (List.take_sublist ..), fun hfull => ⟨?_, fun l serial kbd hl hzero => ?_⟩⟩
  · rw [hsame hfull]
    exact List.take_prefix ..
  · obtain ⟨n, h, hsub, hsame⟩ := run_reads ex l
    obtain ⟨n', h', -, hsame'⟩ := h.arrive hsub hsame (.getc serial kbd)
    rw [Cons.getc, Cons.serialIntr_eq, Cons.kbdIntr, Cons.intr_append] at hzero
    rcases h'.next with ⟨hn, -⟩ | ⟨hn, s', hnext, -⟩
    · rw [hsame' (hfull.of_prefix hl), hn, List.take_length]
    · refine absurd ?_ (ne_zero_of_received (List.getElem_mem hn))
      rw [ConsEvent.arriving] at hnext
      rw [← hzero, hnext]

end Jos
