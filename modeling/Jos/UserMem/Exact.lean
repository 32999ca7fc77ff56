import Jos.UserMem.Visit
import Mathlib.Data.List.Nodup
import Mathlib.Tactic.IntervalCases

/-!
# What `user_mem_check` promises

Up to `ULIM` the check is exact: `userMemCheck_exact`.  What it leaves in `user_mem_check_addr` is
the first erroneous address only where that is the first address of the range, or where the entry
of the first page that fails happens to hold it: `userMemCheck_reports_iff`.
-/

set_option autoImplicit false

namespace Jos

open Kernel Command Traced

variable {s : Kernel} {d n : Nat} {va len perm : Word} {e : EnvIndex}

/-! ## The pages of the range -/

theorem roundUp_add (hle : va.toNat + len.toNat + 4096 ≤ 2 ^ 32) :
    (roundUp (va + len) pgsize).toNat = (va.toNat + len.toNat + 4095) / 4096 * 4096 := by
  rw [roundUp_toNat, BitVec.toNat_add]
  omega

/-- Every address visited lies in a page that the range meets. -/
theorem visited_meets (hlen : len ≠ 0#32) (hle : va.toNat + len.toNat + 4096 ≤ 2 ^ 32) {k : Nat}
    (hk : va.toNat + 4096 * k < (roundUp (va + len) pgsize).toNat) :
    ∃ b, va.toNat ≤ b ∧ b < va.toNat + len.toNat ∧ b / 4096 = (va.toNat + 4096 * k) / 4096 := by
  have hpos : len.toNat ≠ 0 := fun h => hlen (BitVec.eq_of_toNat_eq h)
  rw [roundUp_add hle] at hk
  cases k with
  | zero => exact ⟨va.toNat, Nat.le_refl _, by omega, rfl⟩
  | succ k =>
    refine ⟨(va.toNat + 4096 * (k + 1)) / 4096 * 4096, ?_, ?_, ?_⟩
    · omega
    · omega
    · omega

theorem grants_samePage {a b : Nat} (ha : a < 2 ^ 32) (hb : b < 2 ^ 32) (h : a / 4096 = b / 4096) :
    s.Grants d perm (BitVec.ofNat 32 a) ↔ s.Grants d perm (BitVec.ofNat 32 b) := by
  refine grants_page ?_
  rw [pgnum_eq, pgnum_eq, BitVec.toNat_ofNat, BitVec.toNat_ofNat, Nat.mod_eq_of_lt ha,
    Nat.mod_eq_of_lt hb, h]

/-! ## What is looked up -/

/-- The addresses whose entries were looked up, in order. -/
def walked (l : List Access) : List Word :=
  l.filterMap fun
    | .walk a => some a
    | _ => none

theorem walked_walks (va : Word) (n : Nat) :
    walked (walks va n) = (List.range n).map (visited va) := by
  rw [walked, walks, List.filterMap_map, ← List.filterMap_eq_map]
  rfl

/-- The check looks up the addresses it visits, and perhaps follows a `NULL` pointer after that. -/
theorem Watch.traceOf_userMemCheck (hd : (s.envs e).envPgdir = some d) (va len perm : Word) :
    ∃ m, (∀ k < m, va.toNat + 4096 * k < (roundUp (va + len) pgsize).toNat) ∧
      (traceOf (Watch.userMemCheck e va len perm) s = walks va m ∨
        traceOf (Watch.userMemCheck e va len perm) s = walks va m ++ [.null]) := by
  obtain ⟨n, hn⟩ := exists_stopsAt s d (perm ||| pteP) va (roundUp (va + len) pgsize)
  by_cases hlt : visited va n < roundUp (va + len) pgsize
  · have hall : ∀ k < n + 1, va.toNat + 4096 * k < (roundUp (va + len) pgsize).toNat := by
      intro k hk
      rcases Nat.lt_or_eq_of_le (Nat.le_of_lt_succ hk) with hk | rfl
      · exact (hn.before k hk).1
      · exact hn.lt (roundUp_room _) hlt
    refine ⟨n + 1, hall, ?_⟩
    cases hf : framed (s.mem d (pdx (visited va n))) with
    | none =>
      rcases Nat.eq_zero_or_pos n with rfl | hn0
      · refine Or.inl (traceOf_ok (userMemCheck_first hd hn hlt rfl fun t ht => ?_))
        rw [visited_zero, ht] at hf
        exact absurd hf (by simp)
      · exact Or.inr (traceOf_userMemCheck_null hd hn hlt hn0 hf)
    | some t =>
      by_cases ht : t < s.npages
      · rcases Nat.eq_zero_or_pos n with rfl | hn0
        · refine Or.inl (traceOf_ok (userMemCheck_first hd hn hlt rfl fun t' ht' => ?_))
          rw [visited_zero, ht'] at hf
          exact Option.some_inj.1 hf ▸ ht
        · exact Or.inl (traceOf_ok (userMemCheck_later hd hn hlt hn0 hf ht))
      · exact Or.inl (traceOf_error (userMemCheck_beyond hd hn hlt hf ht))
  · exact ⟨n, fun k hk => (hn.before k hk).1, Or.inl (traceOf_ok (userMemCheck_passed hd hn hlt))⟩

theorem walked_userMemCheck (hd : (s.envs e).envPgdir = some d) (va len perm : Word) :
    ∃ m, (∀ k < m, va.toNat + 4096 * k < (roundUp (va + len) pgsize).toNat) ∧
      walked (traceOf (Watch.userMemCheck e va len perm) s) = (List.range m).map (visited va) := by
  obtain ⟨m, hm, htr | htr⟩ := Watch.traceOf_userMemCheck hd va len perm
  · exact ⟨m, hm, by rw [htr, walked_walks]⟩
  · refine ⟨m, hm, ?_⟩
    rw [htr, walked, List.filterMap_append]
    exact (List.append_nil _).trans (walked_walks va m)

/-- No page is looked up twice. -/
theorem visited_pgnum_inj {m : Nat} (hm : ∀ k < m, va.toNat + 4096 * k < 2 ^ 32) :
    (((List.range m).map (visited va)).map pgnum).Nodup := by
  rw [List.map_map]
  refine List.Nodup.map_on (fun i hi j hj h => ?_) List.nodup_range
  have hi' := hm i (List.mem_range.1 hi)
  have hj' := hm j (List.mem_range.1 hj)
  simp only [Function.comp_apply, pgnum_eq] at h
  rw [visited_toNat hi', visited_toNat hj'] at h
  omega

/-! ## Inside user space -/

/-- **Inside user space the check is exact.**  For a range that ends at or below `ULIM` it returns
zero if and only if every page that the range meets has a page table and an entry with all of
`perm|PTE_P`; the pages it looks up meet the range and are looked up once; and the loop ends. -/
theorem userMemCheck_exact (hd : (s.envs e).envPgdir = some d) (hlen : len ≠ 0#32)
    (hle : va.toNat + len.toNat ≤ ulim.toNat) :
    ((∃ s', (userMemCheck e va len perm).run s = .ok 0#32 s') ↔
      ∀ a, va.toNat ≤ a → a < va.toNat + len.toNat →
        ∃ t, framed (s.mem d (pdx (BitVec.ofNat 32 a))) = some t ∧ t < s.npages ∧
          s.mem t (ptx (BitVec.ofNat 32 a)) &&& (perm ||| pteP) = perm ||| pteP) ∧
    (∀ a ∈ walked (traceOf (Watch.userMemCheck e va len perm) s),
      ∃ b, va.toNat ≤ b ∧ b < va.toNat + len.toNat ∧ pgnum a = b / 4096) ∧
    ((walked (traceOf (Watch.userMemCheck e va len perm) s)).map pgnum).Nodup ∧
    ∀ fuel, 2 ^ 20 ≤ fuel →
      (Watch.userMemCheckLoop d (roundUp (va + len) pgsize) (perm ||| pteP) fuel).run
          ⟨s.checkingAt va, []⟩ =
        (Watch.userMemCheckLoop d (roundUp (va + len) pgsize) (perm ||| pteP) (2 ^ 20)).run
          ⟨s.checkingAt va, []⟩ := by
  have hul := ulim_toNat
  have hle' : va.toNat + len.toNat + 4096 ≤ 2 ^ 32 := by omega
  have hroom := roundUp_room (va + len)
  obtain ⟨m, hm, hwalked⟩ := walked_userMemCheck hd va len perm
  refine ⟨⟨fun hrun a hlo hhi => ?_, fun h => ?_⟩, fun a ha => ?_, ?_, fun fuel hfuel => ?_⟩
  · exact (grants_iff _).1 (gateSound_of_le hd hle hrun a hlo hhi).2
  · refine (userMemCheck_zero_iff hd).2 fun k hk => ⟨?_, ?_⟩
    · rw [roundUp_add hle'] at hk
      show (BitVec.ofNat 32 (va.toNat + 4096 * k)).toNat ≤ ulim.toNat
      rw [BitVec.toNat_ofNat]
      omega
    · obtain ⟨b, hlo, hhi, hb⟩ := visited_meets hlen hle' hk
      refine (grants_samePage (by omega) (by omega) hb).1 ?_
      exact (grants_iff _).2 (h b hlo hhi)
  · rw [hwalked] at ha
    obtain ⟨k, hk, rfl⟩ := List.mem_map.1 ha
    have hk' := hm k (List.mem_range.1 hk)
    obtain ⟨b, hlo, hhi, hb⟩ := visited_meets hlen hle' hk'
    exact ⟨b, hlo, hhi, by rw [pgnum_eq, visited_toNat (by omega), hb]⟩
  · rw [hwalked]
    exact visited_pgnum_inj fun k hk => by
      have := hm k hk
      omega
  · exact Watch.userMemCheckLoop_ends hroom hfuel

/-- The first two pages at `UTEXT` are mapped, and the third is not. -/
def adjacentPages : Kernel :=
  ((threePages.store 1 (pdx utext) (page2pa 2 ||| pteP ||| pteU)).store 2 0
    (page2pa 0 ||| pteP ||| pteU)).store 2 1 (page2pa 0 ||| pteP ||| pteU)

/-- Eight bytes over a page boundary pass, those over the next boundary do not, and no page is
looked up twice. -/
theorem userMemCheck_exact_adjacentPages :
    (∃ s', (userMemCheck 0 (utext + 4092#32) 8#32 pteU).run adjacentPages = .ok 0#32 s') ∧
    (¬ ∃ s', (userMemCheck 0 (utext + 8188#32) 8#32 pteU).run adjacentPages = .ok 0#32 s') ∧
    ((walked (traceOf (Watch.userMemCheck 0 (utext + 4092#32) 8#32 pteU) adjacentPages)).map
      pgnum).Nodup := by
  have hfirst : (utext + 4092#32).toNat = 8392700 := by decide
  have hsecond : (utext + 8188#32).toNat = 8396796 := by decide
  obtain ⟨hpass, -, hnodup, -⟩ :=
    @userMemCheck_exact adjacentPages 1 (utext + 4092#32) 8#32 pteU 0 rfl (by decide) (by decide)
  have hfail :=
    (@userMemCheck_exact adjacentPages 1 (utext + 8188#32) 8#32 pteU 0 rfl (by decide)
      (by decide)).1
  refine ⟨hpass.2 fun a hlo hhi => ?_, fun hrun => ?_, hnodup⟩
  · rw [hfirst] at hlo hhi
    have hhi' : a < 8392708 := hhi
    exact ⟨2, by interval_cases a <;> decide, by decide, by interval_cases a <;> decide⟩
  · rw [hsecond] at hfail
    -- the first byte of the third page
    obtain ⟨t, ht, -, hperm⟩ := hfail.1 hrun 8396800 (by decide) (by decide)
    obtain rfl : 2 = t := Option.some_inj.1 ht
    exact absurd hperm (by decide)

/-! ## The first erroneous address -/

/-- An address of the range that the environment may not access. -/
def BadAddr (s : Kernel) (d : Nat) (perm va len : Word) (a : Nat) : Prop :=
  va.toNat ≤ a ∧ a < va.toNat + len.toNat ∧ ¬ s.Accessible d perm a

theorem not_accessible_first (hn : StopsAt s d perm va (roundUp (va + len) pgsize) n) (h0 : n = 0)
    (hlt : visited va n < roundUp (va + len) pgsize) : ¬ s.Accessible d perm va.toNat := by
  have hno := hn.last (roundUp_room _) hlt
  rw [h0, visited_zero] at hno
  rintro ⟨hul, hg⟩
  rw [BitVec.ofNat_toNat, BitVec.setWidth_eq] at hg
  exact hno ⟨BitVec.le_of_lt hul, hg⟩

/-- The first address visited does not pass: it is the first erroneous one. -/
theorem isLeast_first (hlen : len ≠ 0#32) (hn : StopsAt s d perm va (roundUp (va + len) pgsize) n)
    (h0 : n = 0) (hlt : visited va n < roundUp (va + len) pgsize) :
    IsLeast (BadAddr s d perm va len) va.toNat := by
  have hpos : len.toNat ≠ 0 := fun h => hlen (BitVec.eq_of_toNat_eq h)
  exact ⟨⟨Nat.le_refl _, by omega, not_accessible_first hn h0 hlt⟩, fun a ha => ha.1⟩

/-- The first address visited passes: the first erroneous one is the start of the page at which the
check gives up, or `ULIM` where that comes before. -/
theorem isLeast_later (hle : va.toNat + len.toNat + 4096 ≤ 2 ^ 32)
    (hn : StopsAt s d perm va (roundUp (va + len) pgsize) n) (hn0 : 0 < n)
    (hlt : visited va n < roundUp (va + len) pgsize) :
    IsLeast (BadAddr s d perm va len)
      (min ((va.toNat + 4096 * n) / 4096 * 4096) ulim.toNat) := by
  have hul := ulim_toNat
  have hend := hn.lt (roundUp_room _) hlt
  have hno := hn.last (roundUp_room _) hlt
  rw [roundUp_add hle] at hend
  -- every round before has passed, so the range starts at or below `ULIM`
  have hprev : va.toNat + 4096 * (n - 1) ≤ ulim.toNat := by
    have hb := hn.before (n - 1) (by omega)
    have hle' : (visited va (n - 1)).toNat ≤ ulim.toNat := hb.2.1
    rwa [visited_toNat (by omega)] at hle'
  refine ⟨⟨by omega, by omega, ?_⟩, fun a ha => ?_⟩
  · rintro ⟨hlt', hg⟩
    have hpage : (va.toNat + 4096 * n) / 4096 * 4096 < ulim.toNat := by omega
    rw [Nat.min_eq_left (Nat.le_of_lt hpage)] at hg
    refine hno ⟨?_, (grants_samePage (by omega) (by omega) (by omega)).1 hg⟩
    show (visited va n).toNat ≤ ulim.toNat
    rw [visited_toNat (by omega)]
    omega
  · obtain ⟨hlo, hhi, hbad⟩ := ha
    by_contra hlt'
    rw [Nat.not_le, Nat.lt_min] at hlt'
    obtain ⟨hpage, haul⟩ := hlt'
    have hk : a / 4096 - va.toNat / 4096 < n := by omega
    obtain ⟨hend', -, hg⟩ := hn.before _ hk
    exact hbad ⟨haul, (grants_samePage (by omega) (by omega) (by omega)).1 hg⟩

/-- The check got all the way, or gave up at the first address; or where it gave up there is a page
table, outside physical memory, or with the first erroneous address in the entry. -/
def Reportable (s : Kernel) (d : Nat) (va endVa : Word) (n : Nat) : Prop :=
  ¬ visited va n < endVa ∨ n = 0 ∨
    ∃ t, framed (s.mem d (pdx (visited va n))) = some t ∧
      (t < s.npages → (s.mem t (ptx (visited va n))).toNat =
        min ((va.toNat + 4096 * n) / 4096 * 4096) ulim.toNat)

/-- What the check is to report. -/
structure ReportsFirst (s : Kernel) (e : EnvIndex) (d : Nat) (va len perm : Word) : Prop where
  /-- If the check fails, `user_mem_check_addr` is the least address that may not be accessed. -/
  least : ∀ s', (userMemCheck e va len perm).run s = .ok (-eFault) s' →
    IsLeast (BadAddr s d (perm ||| pteP) va len) s'.userMemCheckAddr.toNat
  /-- No `NULL` pointer to an entry is followed. -/
  noNull : Access.null ∉ traceOf (Watch.userMemCheck e va len perm) s

theorem userMemCheck_of_watch {r : Word} {s' : Kernel} {l : List Access}
    (h : (Watch.userMemCheck e va len perm).run ⟨s, []⟩ = .ok r ⟨s', l⟩) :
    (userMemCheck e va len perm).run s = .ok r s' :=
  (Watch.userMemCheck_erases e va len perm).ok_iff.2 ⟨l, h⟩

/-- A check that is passed leaves nothing behind but the address. -/
theorem userMemCheck_passed (hd : (s.envs e).envPgdir = some d)
    (hall : ∀ k, va.toNat + 4096 * k < (roundUp (va + len) pgsize).toNat →
      s.Passes d (perm ||| pteP) (BitVec.ofNat 32 (va.toNat + 4096 * k))) :
    ∃ a, (userMemCheck e va len perm).run s = .ok 0#32 (s.checkingAt a) := by
  obtain ⟨n, hn⟩ := exists_stopsAt s d (perm ||| pteP) va (roundUp (va + len) pgsize)
  refine ⟨visited va n, userMemCheck_of_watch (Watch.userMemCheck_passed hd hn fun hlt => ?_)⟩
  exact hn.last (roundUp_room _) hlt (hall n (hn.lt (roundUp_room _) hlt))

theorem ReportsFirst.of_fault {r a : Word} {m : Nat}
    (h : (Watch.userMemCheck e va len perm).run ⟨s, []⟩ = .ok r ⟨s.checkingAt a, walks va m⟩)
    (ha : r = -eFault → IsLeast (BadAddr s d (perm ||| pteP) va len) a.toNat) :
    ReportsFirst s e d va len perm := by
  refine ⟨fun s' hs' => ?_, ?_⟩
  · obtain ⟨hr, rfl⟩ := EStateM.Result.ok.inj ((userMemCheck_of_watch h).symm.trans hs')
    exact ha hr
  · rw [traceOf_ok h]
    exact null_notMem_walks va m

theorem ReportsFirst.of_error {x : Exit} {s' : Kernel} {m : Nat}
    (h : (Watch.userMemCheck e va len perm).run ⟨s, []⟩ = .error x ⟨s', walks va m⟩) :
    ReportsFirst s e d va len perm := by
  refine ⟨fun s' hs' => ?_, ?_⟩
  · obtain ⟨l, hl⟩ := ((Watch.userMemCheck_erases e va len perm).ok_iff (l := [])).1 hs'
    exact absurd (hl.symm.trans h) (by simp)
  · rw [traceOf_error h]
    exact null_notMem_walks va m

/-- **When the first erroneous address is reported.**  Whenever the check does not fail; when it
fails at the first address; and when it fails at a later one, if its page has a page table and its
entry equals that address.  The last is an accident: for the entry is what is reported. -/
theorem reportsFirst_iff (hd : (s.envs e).envPgdir = some d) (hlen : len ≠ 0#32)
    (hle : va.toNat + len.toNat + 4096 ≤ 2 ^ 32) : ReportsFirst s e d va len perm ↔
      ∃ n, StopsAt s d (perm ||| pteP) va (roundUp (va + len) pgsize) n ∧
        Reportable s d va (roundUp (va + len) pgsize) n := by
  constructor
  · intro h
    obtain ⟨n, hn⟩ := exists_stopsAt s d (perm ||| pteP) va (roundUp (va + len) pgsize)
    refine ⟨n, hn, ?_⟩
    by_cases hlt : visited va n < roundUp (va + len) pgsize
    · refine Or.inr ?_
      rcases Nat.eq_zero_or_pos n with h0 | hn0
      · exact Or.inl h0
      · refine Or.inr ?_
        cases hf : framed (s.mem d (pdx (visited va n))) with
        | none =>
          have hnull := h.noNull
          rw [Watch.traceOf_userMemCheck_null hd hn hlt hn0 hf] at hnull
          exact absurd (List.mem_append_right _ (List.mem_singleton_self _)) hnull
        | some t =>
          refine ⟨t, rfl, fun ht => ?_⟩
          have hleast :=
            h.least _ (userMemCheck_of_watch (Watch.userMemCheck_later hd hn hlt hn0 hf ht))
          exact hleast.unique (isLeast_later hle hn hn0 hlt)
    · exact Or.inl hlt
  · rintro ⟨n, hn, hrep⟩
    by_cases hlt : visited va n < roundUp (va + len) pgsize
    · rcases hrep with hge | h0 | ⟨t, hf, hw⟩
      · exact absurd hlt hge
      · subst h0
        by_cases hpage : ∀ t, framed (s.mem d (pdx va)) = some t → t < s.npages
        · exact .of_fault (Watch.userMemCheck_first hd hn hlt rfl hpage) fun _ =>
            isLeast_first hlen hn rfl hlt
        · simp only [not_forall] at hpage
          obtain ⟨t, hf, ht⟩ := hpage
          rw [← visited_zero va] at hf
          exact .of_error (Watch.userMemCheck_beyond hd hn hlt hf ht)
      · by_cases ht : t < s.npages
        · rcases Nat.eq_zero_or_pos n with h0 | hn0
          · subst h0
            refine .of_fault (Watch.userMemCheck_first hd hn hlt rfl fun t' ht' => ?_) fun _ =>
              isLeast_first hlen hn rfl hlt
            rw [visited_zero, ht'] at hf
            exact Option.some_inj.1 hf ▸ ht
          · refine .of_fault (Watch.userMemCheck_later hd hn hlt hn0 hf ht) fun _ => ?_
            rw [hw ht]
            exact isLeast_later hle hn hn0 hlt
        · exact .of_error (Watch.userMemCheck_beyond hd hn hlt hf ht)
    · exact .of_fault (Watch.userMemCheck_passed hd hn hlt) fun h => absurd h (by decide)

/-! ## A range that runs out of the mapped pages -/

/-- The first page and the last page of the page table at `UTEXT` are mapped. -/
def twoMapped : Kernel :=
  ((threePages.store 1 (pdx utext) (page2pa 2 ||| pteP ||| pteU)).store 2 0
    (page2pa 0 ||| pteP ||| pteU)).store 2 1023 (page2pa 0 ||| pteP ||| pteU)

/-- The last of these pages. -/
def lastMapped : Word := utext + 0x3FF000#32

theorem twoMapped_stopsAt :
    StopsAt twoMapped 1 (pteU ||| pteP) utext (roundUp (utext + 8192#32) pgsize) 1 := by
  refine ⟨fun k hk => ?_, fun _ hp => ?_⟩
  · obtain rfl : k = 0 := by omega
    exact ⟨by decide, by decide, (grants_iff _).2 ⟨2, by decide, by decide, by decide⟩⟩
  · obtain ⟨t, ht, -, hperm⟩ := (grants_iff _).1 hp.2
    obtain rfl : 2 = t := Option.some_inj.1 ht
    exact absurd hperm (by decide)

theorem lastMapped_stopsAt :
    StopsAt twoMapped 1 (pteU ||| pteP) lastMapped (roundUp (lastMapped + 8192#32) pgsize) 1 := by
  refine ⟨fun k hk => ?_, fun _ hp => ?_⟩
  · obtain rfl : k = 0 := by omega
    exact ⟨by decide, by decide, (grants_iff _).2 ⟨2, by decide, by decide, by decide⟩⟩
  · obtain ⟨t, ht, -⟩ := (grants_iff _).1 hp.2
    have hnone : framed (twoMapped.mem 1 (pdx (visited lastMapped 1))) = none := by decide
    exact absurd (ht.symm.trans hnone) (by simp)

theorem reportsFirst_iff_twoMapped : ReportsFirst twoMapped 0 1 utext 8192#32 pteU ↔
    ∃ n, StopsAt twoMapped 1 (pteU ||| pteP) utext (roundUp (utext + 8192#32) pgsize) n ∧
      Reportable twoMapped 1 utext (roundUp (utext + 8192#32) pgsize) n :=
  reportsFirst_iff rfl (by decide) (by decide)

/-- **Two pages, one of them mapped.**  The address reported is the entry of the second, zero.  And
where the second is the first of another page table, `NULL` is followed. -/
theorem not_reportsFirst :
    (∃ s', (userMemCheck 0 utext 8192#32 pteU).run twoMapped = .ok (-eFault) s' ∧
      s'.userMemCheckAddr = 0#32) ∧
    IsLeast (BadAddr twoMapped 1 (pteU ||| pteP) utext 8192#32) (utext.toNat + 4096) ∧
    ¬ ReportsFirst twoMapped 0 1 utext 8192#32 pteU ∧
    Access.null ∈ traceOf (Watch.userMemCheck 0 lastMapped 8192#32 pteU) twoMapped := by
  have hd : (twoMapped.envs 0).envPgdir = some 1 := rfl
  have hrun := userMemCheck_of_watch (Watch.userMemCheck_later hd twoMapped_stopsAt (by decide)
    (by decide) (t := 2) (by decide) (by decide))
  have hleast := isLeast_later (by decide) twoMapped_stopsAt (by decide) (by decide)
  have haddr : min ((utext.toNat + 4096 * 1) / 4096 * 4096) ulim.toNat = utext.toNat + 4096 := by
    decide
  have hzero : twoMapped.mem 2 (ptx (visited utext 1)) = 0#32 := by decide
  rw [haddr] at hleast
  rw [hzero] at hrun
  refine ⟨⟨_, hrun, rfl⟩, hleast, fun h => ?_, ?_⟩
  · exact absurd ((h.least _ hrun).unique hleast) (by decide)
  · rw [Watch.traceOf_userMemCheck_null hd lastMapped_stopsAt (by decide) (by decide) (by decide)]
    exact List.mem_append_right _ (List.mem_singleton_self _)

end Jos
