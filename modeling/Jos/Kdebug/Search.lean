import Jos.Kdebug
import Mathlib.Data.Int.LeastGreatest

/-!
# What `stab_binsearch` finds

Of the entries of one type, the search is to find the last whose value is not above the address, and
the index before the next.  It does so between two entries, and as a rule at one.

Two things go wrong.  Where all the entries are above the address, the region is not marked as
empty.  And after a hit the search goes on with the next address: an entry that has it is hit in
turn, unless the range has been cut off before it, and taken for the one to be found.  At the
highest address of all the next address is zero, and the search turns back.
-/

set_option autoImplicit false

namespace Jos

variable {stabs : Int → Stab} {type l r : Int} {anyMatches : Bool} {region : StabRegion}
    {addr : Word}
variable {e k m : Int}

/-- Entry `k` is in the range and has the type. -/
structure Listed (stabs : Int → Stab) (type l r k : Int) : Prop where
  ge : l ≤ k
  le : k ≤ r
  hasType : (stabs k).HasType type

/-- The entries of the type are in order. -/
def Increasing (stabs : Int → Stab) (type l r : Int) : Prop :=
  ∀ k k', Listed stabs type l r k → Listed stabs type l r k' → k < k' →
    (stabs k).nValue < (stabs k').nValue

theorem Listed.mono {l' r' : Int} (h : Listed stabs type l' r' k) (hl : l ≤ l') (hr : r' ≤ r) :
    Listed stabs type l r k := ⟨Int.le_trans hl h.ge, Int.le_trans h.le hr, h.hasType⟩

theorem Increasing.mono {l' r' : Int} (h : Increasing stabs type l r) (hl : l ≤ l') (hr : r' ≤ r) :
    Increasing stabs type l' r' :=
  fun k k' hk hk' => h k k' (hk.mono hl hr) (hk'.mono hl hr)

/-- An entry with a smaller value comes first. -/
theorem Increasing.lt (h : Increasing stabs type l r) (hk : Listed stabs type l r k)
    (hm : Listed stabs type l r m) (hv : (stabs k).nValue < (stabs m).nValue) : k < m := by
  by_contra hle
  rcases Int.lt_or_eq_of_le (Int.not_lt.1 hle) with hlt | rfl
  · have := h m k hm hk hlt
    bv_omega
  · bv_omega

/-- The entry that a round looks at is the last in the lower half. -/
theorem listed_back (hlr : l ≤ r) (hm : ¬ stabBack stabs type l (stabMid l r) < l) :
    Listed stabs type l r (stabBack stabs type l (stabMid l r)) :=
  ⟨Int.not_lt.1 hm, Int.le_trans (stabBack_le _ _ _ _) (stabMid_bounds hlr).2,
    stabBack_hasType (Int.not_lt.1 hm)⟩

theorem Listed.le_back (hk : Listed stabs type l r k) (hc : k ≤ stabMid l r) :
    k ≤ stabBack stabs type l (stabMid l r) := by
  by_contra hlt
  exact stabBack_last (Int.not_le.1 hlt) hc hk.hasType

/-- What comes after it is in the upper half. -/
theorem Listed.upper (hk : Listed stabs type l r k)
    (hm : stabBack stabs type l (stabMid l r) < k) : Listed stabs type (stabMid l r + 1) r k := by
  refine ⟨?_, hk.le, hk.hasType⟩
  by_contra hlt
  exact absurd (hk.le_back (by omega)) (Int.not_le.2 hm)

/-! ## A search that hits nothing -/

/-- The outcome of the main loop if no entry has the value `addr`. -/
structure Misses (stabs : Int → Stab) (type l r : Int) (anyMatches : Bool) (region : StabRegion)
    (addr : Word) (res : Bool × StabRegion) : Prop where
  anyMatches : res.1 = true ↔ anyMatches = true ∨ ∃ k, Listed stabs type l r k
  left : ∀ k, Listed stabs type l r k → (stabs k).nValue < addr →
    (∀ k', Listed stabs type l r k' → (stabs k').nValue < addr → k' ≤ k) → res.2.left = k
  noLeft : (∀ k, Listed stabs type l r k → ¬ (stabs k).nValue < addr) → res.2.left = region.left
  right : ∀ k, Listed stabs type l r k → addr < (stabs k).nValue →
    (∀ k', Listed stabs type l r k' → addr < (stabs k').nValue → k ≤ k') → res.2.right = k - 1
  noRight : (∀ k, Listed stabs type l r k → ¬ addr < (stabs k).nValue) → res.2.right = region.right

theorem stabLoop_misses (anyMatches : Bool) (region : StabRegion) (addr : Word)
    (hinc : Increasing stabs type l r)
    (hno : ∀ k, Listed stabs type l r k → (stabs k).nValue ≠ addr) :
    Misses stabs type l r anyMatches region addr
      (stabLoop stabs type l r anyMatches region addr) := by
  fun_induction stabLoop stabs type l r anyMatches region addr with
  | case1 l r anyMatches region addr hlr c m hm ih =>
    -- nothing in the lower half
    have hlist : ∀ k, Listed stabs type l r k → Listed stabs type (c + 1) r k := fun k hk =>
      hk.upper (Int.lt_of_lt_of_le hm hk.ge)
    have hup := (stabMid_bounds hlr).1
    have hmono : ∀ k, Listed stabs type (c + 1) r k → Listed stabs type l r k := fun k hk =>
      hk.mono (by omega) (Int.le_refl r)
    have h := ih (hinc.mono (by omega) (Int.le_refl r)) fun k hk => hno k (hmono k hk)
    refine ⟨h.anyMatches.trans (or_congr_right ?_), fun k hk hv hmax => ?_, fun hnone => ?_,
      fun k hk hv hmin => ?_, fun hnone => ?_⟩
    · exact exists_congr fun k => ⟨hmono k, hlist k⟩
    · exact h.left k (hlist k hk) hv fun k' hk' => hmax k' (hmono k' hk')
    · exact h.noLeft fun k hk => hnone k (hmono k hk)
    · exact h.right k (hlist k hk) hv fun k' hk' => hmin k' (hmono k' hk')
    · exact h.noRight fun k hk => hnone k (hmono k hk)
  | case2 l r anyMatches region addr hlr c m hm hlt ih =>
    have hup := (stabMid_bounds hlr).1
    have hmlist : Listed stabs type l r m := listed_back hlr hm
    have hmc : m ≤ c := stabBack_le _ _ _ _
    have hmono : ∀ k, Listed stabs type (c + 1) r k → Listed stabs type l r k := fun k hk =>
      hk.mono (by omega) (Int.le_refl r)
    have hlist : ∀ k, Listed stabs type l r k → m < k → Listed stabs type (c + 1) r k :=
      fun k hk hmk => hk.upper hmk
    have h := ih (hinc.mono (by omega) (Int.le_refl r)) fun k hk => hno k (hmono k hk)
    refine ⟨?_, fun k hk hv hmax => ?_, fun hnone => absurd hlt (hnone m hmlist),
      fun k hk hv hmin => ?_, fun hnone => h.noRight fun k hk => hnone k (hmono k hk)⟩
    · exact ⟨fun _ => Or.inr ⟨m, hmlist⟩, fun _ => h.anyMatches.2 (Or.inl rfl)⟩
    · rcases Int.lt_or_eq_of_le (hmax m hmlist hlt) with hmk | rfl
      · exact h.left k (hlist k hk hmk) hv fun k' hk' => hmax k' (hmono k' hk')
      · exact h.noLeft fun k hk hv => by
          have := hmax k (hmono k hk) hv
          have := hk.ge
          omega
    · have hmk : m < k := hinc.lt hmlist hk (by bv_omega)
      exact h.right k (hlist k hk hmk) hv fun k' hk' => hmin k' (hmono k' hk')
  | case3 l r anyMatches region addr hlr c m hm hlt hgt ih =>
    have hmlist : Listed stabs type l r m := listed_back hlr hm
    have hmr := hmlist.le
    have hmono : ∀ k, Listed stabs type l (m - 1) k → Listed stabs type l r k := fun k hk =>
      hk.mono (Int.le_refl l) (by omega)
    have hlist : ∀ k, Listed stabs type l r k → k < m → Listed stabs type l (m - 1) k :=
      fun k hk hkm => ⟨hk.ge, by omega, hk.hasType⟩
    have h := ih (hinc.mono (Int.le_refl l) (by omega)) fun k hk => hno k (hmono k hk)
    refine ⟨?_, fun k hk hv hmax => ?_, fun hnone => h.noLeft fun k hk => hnone k (hmono k hk),
      fun k hk hv hmin => ?_, fun hnone => absurd hgt (hnone m hmlist)⟩
    · exact ⟨fun _ => Or.inr ⟨m, hmlist⟩, fun _ => h.anyMatches.2 (Or.inl rfl)⟩
    · have hkm : k < m := hinc.lt hk hmlist (by bv_omega)
      exact h.left k (hlist k hk hkm) hv fun k' hk' => hmax k' (hmono k' hk')
    · rcases Int.lt_or_eq_of_le (hmin m hmlist hgt) with hkm | rfl
      · exact h.right k (hlist k hk hkm) hv fun k' hk' => hmin k' (hmono k' hk')
      · exact h.noRight fun k' hk' hv => by
          have := hmin k' (hmono k' hk') hv
          have := hk'.le
          omega
  | case4 l r anyMatches region addr hlr c m hm hlt hgt ih =>
    exact absurd (BitVec.le_antisymm (BitVec.not_lt.1 hgt) (BitVec.not_lt.1 hlt))
      (hno m (listed_back hlr hm))
  | case5 l r anyMatches region addr hlr =>
    have hnone : ∀ k, ¬ Listed stabs type l r k := fun k hk => hlr (Int.le_trans hk.ge hk.le)
    exact ⟨by simp [hnone], fun k hk => absurd hk (hnone k), fun _ => rfl,
      fun k hk => absurd hk (hnone k), fun _ => rfl⟩

/-! ## Up to the first hit -/

/-- Entry `e'` is the next one after `e`. -/
structure Follows (stabs : Int → Stab) (type l r e e' : Int) : Prop where
  listed : Listed stabs type l r e'
  gt : e < e'
  least : ∀ k, Listed stabs type l r k → e < k → e' ≤ k

/-- When the range is halved again and again, going back from each midpoint to an entry of the type
and dropping the half that `e` is not in, `e'` is dropped before a midpoint leads to `e`. -/
inductive Parted (stabs : Int → Stab) (type e e' : Int) : Int → Int → Prop where
  /-- A midpoint leads to `e'`. -/
  | here {l r : Int} (behind : e' ≤ stabMid l r)
      (last : ∀ k, Listed stabs type l r k → k ≤ stabMid l r → k ≤ e') : Parted stabs type e e' l r
  /-- The midpoint is before both. -/
  | up {l r : Int} (below : stabMid l r < e) (rest : Parted stabs type e e' (stabMid l r + 1) r) :
      Parted stabs type e e' l r
  /-- It leads to an entry after both. -/
  | down {l r m : Int} (listed : Listed stabs type l r m) (behind : e' < m)
      (lower : m ≤ stabMid l r)
      (last : ∀ k, Listed stabs type l r k → k ≤ stabMid l r → k ≤ m)
      (rest : Parted stabs type e e' l (m - 1)) : Parted stabs type e e' l r

variable {e' : Int}

theorem parted_up (hc : stabMid l r < e) (hlt : e < e') :
    Parted stabs type e e' l r ↔ Parted stabs type e e' (stabMid l r + 1) r := by
  constructor
  · intro h
    cases h with
    | here behind _ => omega
    | up _ rest => exact rest
    | down _ behind lower _ _ => omega
  · exact .up hc

theorem parted_down (hm : Listed stabs type l r m) (hlt : e < e') (he' : e' < m)
    (hlow : m ≤ stabMid l r) (hlast : ∀ k, Listed stabs type l r k → k ≤ stabMid l r → k ≤ m) :
    Parted stabs type e e' l r ↔ Parted stabs type e e' l (m - 1) := by
  constructor
  · intro h
    cases h with
    | here _ last => exact absurd (last m hm hlow) (by omega)
    | up below _ => omega
    | down listed _ lower last rest =>
      obtain rfl := Int.le_antisymm (hlast _ listed lower) (last m hm hlow)
      exact rest
  · exact .down hm he' hlow hlast

/-- The midpoint leads to `e` first. -/
theorem not_parted (he : e ≤ stabMid l r) (hlt : e < e')
    (hlast : ∀ k, Listed stabs type l r k → k ≤ stabMid l r → k ≤ e)
    (hf : Listed stabs type l r e') : ¬ Parted stabs type e e' l r := by
  intro h
  cases h with
  | here behind _ => exact absurd (hlast e' hf behind) (by omega)
  | up below _ => omega
  | down listed behind lower _ _ => exact absurd (hlast _ listed lower) (by omega)

/-- **The first hit** leaves the range from the entry hit to some `r'`.  The entry after `r'` is one
of the type, or the range has not been cut off at the right. -/
theorem stabLoop_hit (anyMatches : Bool) (region : StabRegion) (hinc : Increasing stabs type l r)
    (he : Listed stabs type l r e)
    (hv : (stabs e).nValue = addr) : ∃ r' right,
      stabLoop stabs type l r anyMatches region addr =
        stabLoop stabs type e r' true ⟨e, right⟩ (addr + 1#32) ∧ e ≤ r' ∧
      (r' = r ∧ right = region.right ∨ Listed stabs type l r (r' + 1) ∧ right = r') ∧
      ∀ e', Follows stabs type l r e e' → (r' < e' ↔ Parted stabs type e e' l r) := by
  fun_induction stabLoop stabs type l r anyMatches region addr with
  | case1 l r anyMatches region addr hlr c m hm ih =>
    have hup := (stabMid_bounds hlr).1
    have hupper := he.upper (Int.lt_of_lt_of_le hm he.ge)
    obtain ⟨r', right, hrun, hle, hcut, hpart⟩ :=
      ih (hinc.mono (by omega) (Int.le_refl r)) hupper hv
    refine ⟨r', right, hrun, hle, hcut.imp_right
      fun h => ⟨h.1.mono (by omega) (Int.le_refl r), h.2⟩, fun e' hf => ?_⟩
    rw [parted_up (by have := hupper.ge; omega) hf.gt]
    refine hpart e' ⟨hf.listed.upper (Int.lt_of_lt_of_le hm hf.listed.ge), hf.gt, fun k hk => ?_⟩
    exact hf.least k (hk.mono (by omega) (Int.le_refl r))
  | case2 l r anyMatches region addr hlr c m hm hlt ih =>
    have hup := (stabMid_bounds hlr).1
    have hme : m < e := hinc.lt (listed_back hlr hm) he (by rwa [hv])
    have hupper := he.upper hme
    obtain ⟨r', right, hrun, hle, hcut, hpart⟩ :=
      ih (hinc.mono (by omega) (Int.le_refl r)) hupper hv
    refine ⟨r', right, hrun, hle, hcut.imp_right
      fun h => ⟨h.1.mono (by omega) (Int.le_refl r), h.2⟩, fun e' hf => ?_⟩
    rw [parted_up (by have := hupper.ge; omega) hf.gt]
    refine hpart e' ⟨hf.listed.upper (Int.lt_trans hme hf.gt), hf.gt, fun k hk => ?_⟩
    exact hf.least k (hk.mono (by omega) (Int.le_refl r))
  | case3 l r anyMatches region addr hlr c m hm hlt hgt ih =>
    have hmlist : Listed stabs type l r m := listed_back hlr hm
    have hmr := hmlist.le
    have hem : e < m := hinc.lt he hmlist (by rwa [hv])
    obtain ⟨r', right, hrun, hle, hcut, hpart⟩ := ih (hinc.mono (Int.le_refl l) (by omega))
      ⟨he.ge, by omega, he.hasType⟩ hv
    have hr' : r' ≤ m - 1 := by
      rcases hcut with ⟨h, -⟩ | ⟨h, -⟩
      · omega
      · have := h.le
        omega
    refine ⟨r', right, hrun, hle, Or.inr ?_, fun e' hf => ?_⟩
    · rcases hcut with ⟨rfl, hright⟩ | ⟨h, hright⟩
      · exact ⟨by rwa [show m - 1 + 1 = m by omega], hright⟩
      · exact ⟨h.mono (Int.le_refl l) (by omega), hright⟩
    · have hlast : ∀ k, Listed stabs type l r k → k ≤ stabMid l r → k ≤ m := fun k hk =>
        hk.le_back
      have hmc : m ≤ stabMid l r := stabBack_le _ _ _ _
      rcases Int.lt_or_eq_of_le (hf.least m hmlist hem) with hlt' | rfl
      · rw [parted_down hmlist hf.gt hlt' hmc hlast]
        refine hpart e' ⟨⟨hf.listed.ge, by omega, hf.listed.hasType⟩, hf.gt, fun k hk => ?_⟩
        exact hf.least k (hk.mono (Int.le_refl l) (by omega))
      · exact ⟨fun _ => .here hmc hlast, fun _ => by omega⟩
  | case4 l r anyMatches region addr hlr c m hm hlt hgt ih =>
    have hmlist : Listed stabs type l r m := listed_back hlr hm
    obtain rfl : m = e := by
      by_contra hne
      rcases Int.lt_or_gt_of_ne hne with h | h
      · exact hlt (hv ▸ hinc m e hmlist he h)
      · exact hgt (hv ▸ hinc e m he hmlist h)
    refine ⟨r, region.right, rfl, hmlist.le, Or.inl ⟨rfl, rfl⟩, fun e' hf => ?_⟩
    have hno := not_parted (stabBack_le stabs type l _) hf.gt (fun k hk => hk.le_back) hf.listed
    exact iff_of_false (Int.not_lt.2 hf.listed.le) hno
  | case5 l r anyMatches region addr hlr => exact absurd (Int.le_trans he.ge he.le) hlr

/-- The region does not end before `e` once `e` has been passed. -/
theorem stabLoop_above (anyMatches : Bool) (region : StabRegion) (hleft : e ≤ region.left)
    (hright : e ≤ region.right)
    (h : e < l ∨ e = l ∧ (stabs e).nValue < addr) :
    e ≤ (stabLoop stabs type l r anyMatches region addr).2.left ∧
      e ≤ (stabLoop stabs type l r anyMatches region addr).2.right := by
  fun_induction stabLoop stabs type l r anyMatches region addr with
  | case1 l r anyMatches region addr hlr c m hm ih =>
    have hup : l ≤ c := (stabMid_bounds hlr).1
    exact ih hleft hright (Or.inl (by omega))
  | case2 l r anyMatches region addr hlr c m hm hlt ih =>
    have hup : l ≤ c := (stabMid_bounds hlr).1
    exact ih (by show e ≤ m; omega) hright (Or.inl (by omega))
  | case3 l r anyMatches region addr hlr c m hm hlt hgt ih =>
    have hne : e < m := by
      rcases h with h | ⟨rfl, h⟩
      · omega
      · rcases Int.lt_or_eq_of_le (Int.not_lt.1 hm) with hem | hem
        · exact hem
        · rw [← hem] at hgt
          bv_omega
    exact ih hleft (by show e ≤ m - 1; omega) h
  | case4 l r anyMatches region addr hlr c m hm hlt hgt ih =>
    have hne : e < m := by
      rcases h with h | ⟨rfl, h⟩
      · omega
      · rcases Int.lt_or_eq_of_le (Int.not_lt.1 hm) with hem | hem
        · exact hem
        · rw [← hem] at hlt
          exact absurd h hlt
    exact ih (by show e ≤ m; omega) hright (Or.inl hne)
  | case5 l r anyMatches region addr hlr => exact ⟨hleft, hright⟩

/-! ## The region found -/

/-- Entry `e` is the last of the type with a value up to `addr`. -/
structure LastUpTo (stabs : Int → Stab) (type l r : Int) (addr : Word) (e : Int) : Prop where
  listed : Listed stabs type l r e
  le : (stabs e).nValue ≤ addr
  last : ∀ k, Listed stabs type l r k → (stabs k).nValue ≤ addr → k ≤ e

/-- What belongs to entry `e` ends at `right`. -/
structure StabEnds (stabs : Int → Stab) (type l r e right : Int) : Prop where
  before : ∀ e', Follows stabs type l r e e' → right = e' - 1
  atEnd : (∀ k, Listed stabs type l r k → k ≤ e) → right = r

/-- What `stab_binsearch` is to leave in `region`. -/
structure Finds (stabs : Int → Stab) (type : Int) (region : StabRegion) (addr : Word)
    (res : StabRegion) : Prop where
  found : ∀ e, LastUpTo stabs type region.left region.right addr e →
    res.left = e ∧ StabEnds stabs type region.left region.right e res.right
  missing : (∀ k, Listed stabs type region.left region.right k → addr < (stabs k).nValue) →
    res.right < res.left

theorem LastUpTo.unique {e₁ e₂ : Int} (h₁ : LastUpTo stabs type l r addr e₁)
    (h₂ : LastUpTo stabs type l r addr e₂) : e₁ = e₂ :=
  Int.le_antisymm (h₂.last e₁ h₁.listed h₁.le) (h₁.last e₂ h₂.listed h₂.le)

theorem exists_lastUpTo (hk : Listed stabs type l r k) (hv : (stabs k).nValue ≤ addr) :
    ∃ e, LastUpTo stabs type l r addr e := by
  obtain ⟨e, ⟨he, hle⟩, hlast⟩ := Int.exists_greatest_of_bdd
    (P := fun k => Listed stabs type l r k ∧ (stabs k).nValue ≤ addr)
    ⟨r, fun k hk => hk.1.le⟩ ⟨k, hk, hv⟩
  exact ⟨e, he, hle, fun k hk hv => hlast k ⟨hk, hv⟩⟩

/-- There is a next entry, or `e` is the last. -/
theorem exists_follows (stabs : Int → Stab) (type l r e : Int) :
    (∃ e', Follows stabs type l r e e') ∨ ∀ k, Listed stabs type l r k → k ≤ e := by
  by_cases h : ∃ k, Listed stabs type l r k ∧ e < k
  · obtain ⟨e', ⟨he', hgt⟩, hleast⟩ := Int.exists_least_of_bdd
      (P := fun k => Listed stabs type l r k ∧ e < k) ⟨l, fun k hk => hk.1.ge⟩ h
    exact Or.inl ⟨e', he', hgt, fun k hk hlt => hleast k ⟨hk, hlt⟩⟩
  · exact Or.inr fun k hk => Int.not_lt.1 fun hlt => h ⟨k, hk, hlt⟩

/-- In what belongs to `e` there is no other entry of the type. -/
theorem StabEnds.gap {right : Int} (h : StabEnds stabs type l r e right)
    (he : Listed stabs type l r e) :
    e ≤ right ∧ ∀ k, e < k → k ≤ right → ¬ (stabs k).HasType type := by
  have hl := he.ge
  have hr := he.le
  rcases exists_follows stabs type l r e with ⟨e', hf⟩ | hlast
  · have hright := h.before e' hf
    have hgt := hf.gt
    have hr' := hf.listed.le
    refine ⟨by omega, fun k hk hkr hT => ?_⟩
    have := hf.least k ⟨by omega, by omega, hT⟩ hk
    omega
  · have hright := h.atEnd hlast
    refine ⟨by omega, fun k hk hkr hT => ?_⟩
    have := hlast k ⟨by omega, by omega, hT⟩
    omega

theorem stabBack_none (h : l ≤ m + 1) (hno : ∀ k, l ≤ k → k ≤ m → ¬ (stabs k).HasType type) :
    stabBack stabs type l m = l - 1 := by
  have hge : l ≤ stabBack stabs type l m + 1 := le_stabBack h
  by_contra hne
  have hl : l ≤ stabBack stabs type l m := by omega
  exact hno _ hl (stabBack_le _ _ _ _) (stabBack_hasType hl)

theorem stabBack_of_lt (h : m < l) : stabBack stabs type l m = m := by
  rw [stabBack, if_neg (by omega)]

section

variable {right : Int}

/-- The end of `stab_binsearch`, after a match. -/
theorem stabBinsearch_match {left : Int}
    (h : stabLoop stabs type region.left region.right false region addr = (true, ⟨left, right⟩)) :
    stabBinsearch stabs region type addr = ⟨stabBack stabs type (left + 1) right, right⟩ := by
  rw [stabBinsearch, h]
  rfl

/-- The main loop has found the entry. -/
theorem finds_of_match (he : LastUpTo stabs type region.left region.right addr e)
    (h : stabLoop stabs type region.left region.right false region addr = (true, ⟨e, right⟩))
    (hend : StabEnds stabs type region.left region.right e right) :
    Finds stabs type region addr (stabBinsearch stabs region type addr) := by
  obtain ⟨hright, hgap⟩ := hend.gap he.listed
  rw [stabBinsearch_match h, stabBack_none (by omega) fun k hk => hgap k (by omega)]
  refine ⟨fun e₂ he₂ => ?_, fun hall => ?_⟩
  · obtain rfl := he.unique he₂
    exact ⟨by show e + 1 - 1 = e; omega, hend⟩
  · have := hall e he.listed
    have := he.le
    bv_omega

end

/-- With no entry of the type, the region is empty. -/
theorem finds_of_none (hno : ∀ k, ¬ Listed stabs type region.left region.right k) :
    Finds stabs type region addr (stabBinsearch stabs region type addr) := by
  have h := stabLoop_misses false region addr (fun k _ hk => absurd hk (hno k))
    fun k hk => absurd hk (hno k)
  have hany : (stabLoop stabs type region.left region.right false region addr).1 = false := by
    rw [← Bool.not_eq_true, h.anyMatches]
    rintro (h | ⟨k, hk⟩)
    · cases h
    · exact hno k hk
  obtain ⟨res, hres⟩ : ∃ res, stabLoop stabs type region.left region.right false region addr =
      (false, res) := ⟨_, Prod.ext hany rfl⟩
  refine ⟨fun e he => absurd he.listed (hno e), fun _ => ?_⟩
  rw [stabBinsearch, hres]
  show res.left - 1 < res.left
  omega

/-- Where all entries of the type are above the address, the region is not empty. -/
theorem not_finds_of_above (hinc : Increasing stabs type region.left region.right)
    (hk : Listed stabs type region.left region.right k)
    (hall : ∀ k, Listed stabs type region.left region.right k → addr < (stabs k).nValue) :
    ¬ Finds stabs type region addr (stabBinsearch stabs region type addr) := by
  have hno : ∀ k, Listed stabs type region.left region.right k → (stabs k).nValue ≠ addr := by
    intro k hk hv
    have := hall k hk
    bv_omega
  have h := stabLoop_misses false region addr hinc hno
  obtain ⟨res, hres⟩ : ∃ res, stabLoop stabs type region.left region.right false region addr =
      (true, res) := ⟨_, Prod.ext (h.anyMatches.2 (Or.inr ⟨k, hk⟩)) rfl⟩
  intro hf
  have hlt := hf.missing hall
  rw [stabBinsearch_match hres] at hlt
  exact absurd (stabBack_le stabs type (res.left + 1) res.right) (Int.not_le.2 hlt)

/-- Between two entries the search finds the first. -/
theorem finds_of_below (hinc : Increasing stabs type region.left region.right)
    (he : LastUpTo stabs type region.left region.right addr e) (hv : (stabs e).nValue ≠ addr) :
    Finds stabs type region addr (stabBinsearch stabs region type addr) := by
  have hup : ∀ k, Listed stabs type region.left region.right k →
      (e < k ↔ addr < (stabs k).nValue) := by
    intro k hk
    constructor
    · intro hlt
      by_contra hno
      have := he.last k hk (BitVec.not_lt.1 hno)
      omega
    · intro hlt
      exact hinc.lt he.listed hk (by have := he.le; bv_omega)
  have hno : ∀ k, Listed stabs type region.left region.right k → (stabs k).nValue ≠ addr := by
    intro k hk hka
    have hke := he.last k hk (by bv_omega)
    rcases Int.lt_or_eq_of_le hke with hlt | rfl
    · have := hinc k e hk he.listed hlt
      have := he.le
      bv_omega
    · exact hv hka
  have h := stabLoop_misses false region addr hinc hno
  have hlt : (stabs e).nValue < addr := by
    have := he.le
    bv_omega
  have hleft := h.left e he.listed hlt fun k hk hka => he.last k hk (by bv_omega)
  refine finds_of_match he (Prod.ext (h.anyMatches.2 (Or.inr ⟨e, he.listed⟩))
    (StabRegion.ext hleft rfl)) ⟨fun e' hf => ?_, fun hlast => ?_⟩
  · exact h.right e' hf.listed ((hup e' hf.listed).1 hf.gt) fun k hk hka =>
      hf.least k hk ((hup k hk).2 hka)
  · exact h.noRight fun k hk hka => absurd ((hup k hk).2 hka) (Int.not_lt.2 (hlast k hk))

/-! ## After a hit -/

theorem le_stabBack_of_le {b : Int} (hl : b ≤ l) (hm : b ≤ m) :
    b ≤ stabBack stabs type (l + 1) m := by
  rcases lt_or_ge m l with hlt | hge
  · rw [stabBack_of_lt (by omega)]
    exact hm
  · have : l + 1 ≤ stabBack stabs type (l + 1) m + 1 := le_stabBack (by omega)
    omega

/-- A value that wraps around to zero is behind the search: it goes back to before the entry. -/
theorem stabLoop_wrapped {right : Int} (hinc : Increasing stabs type e r)
    (he : Listed stabs type e r e) (hv : (stabs e).nValue = 0xFFFFFFFF#32) :
    stabLoop stabs type e r true ⟨e, right⟩ 0#32 = (true, ⟨e, e - 1⟩) := by
  have hpos : ∀ k, Listed stabs type e r k → 0#32 < (stabs k).nValue := by
    intro k hk
    rcases Int.lt_or_eq_of_le hk.ge with hlt | rfl
    · have := hinc e k he hk hlt
      bv_omega
    · bv_omega
  have hno : ∀ k, Listed stabs type e r k → (stabs k).nValue ≠ 0#32 := by
    intro k hk hk0
    have := hpos k hk
    bv_omega
  have h := stabLoop_misses true ⟨e, right⟩ _ hinc hno
  exact Prod.ext (h.anyMatches.2 (Or.inl rfl)) (StabRegion.ext (h.noLeft fun k _ hk0 => by bv_omega)
    (h.right e he (hpos e he) fun k hk _ => hk.ge))

/-- The main loop has hit entry `e`, and goes on from there to `r'`. -/
structure Hit (stabs : Int → Stab) (type : Int) (region : StabRegion) (addr : Word)
    (e r' right : Int) : Prop where
  inc : Increasing stabs type region.left region.right
  listed : Listed stabs type region.left region.right e
  value : (stabs e).nValue = addr
  run : stabLoop stabs type region.left region.right false region addr =
    stabLoop stabs type e r' true ⟨e, right⟩ (addr + 1#32)
  le : e ≤ r'
  cut : r' = region.right ∧ right = region.right ∨
    Listed stabs type region.left region.right (r' + 1) ∧ right = r'

namespace Hit

variable {r' right : Int} (h : Hit stabs type region addr e r' right)
include h

theorem le_right : r' ≤ region.right ∧ r' ≤ right := by
  rcases h.cut with ⟨h1, h2⟩ | ⟨h1, h2⟩
  · omega
  · have := h1.le
    omega

theorem mono (hk : Listed stabs type e r' k) : Listed stabs type region.left region.right k :=
  hk.mono h.listed.ge h.le_right.1

theorem inc' : Increasing stabs type e r' := h.inc.mono h.listed.ge h.le_right.1

theorem listed' : Listed stabs type e r' e := ⟨Int.le_refl e, h.le, h.listed.hasType⟩

/-- The entry hit is the one to be found. -/
theorem lastUpTo : LastUpTo stabs type region.left region.right addr e := by
  refine ⟨h.listed, by rw [h.value]; exact BitVec.le_refl _, fun k hk hv => ?_⟩
  by_contra hlt
  have := h.inc e k h.listed hk (Int.not_le.1 hlt)
  have := h.value
  bv_omega

/-- At the highest address of all, the next address is zero, and the entry is lost. -/
theorem not_finds (hv : addr = 0xFFFFFFFF#32) :
    ¬ Finds stabs type region addr (stabBinsearch stabs region type addr) := by
  intro hf
  have hrun := h.run
  rw [show addr + 1#32 = 0#32 by rw [hv]; rfl,
    stabLoop_wrapped h.inc' h.listed' (by rw [h.value, hv])] at hrun
  have hleft := (hf.found e h.lastUpTo).1
  rw [stabBinsearch_match hrun] at hleft
  have hle := stabBack_le stabs type (e + 1) (e - 1)
  have heq : stabBack stabs type (e + 1) (e - 1) = e := hleft
  omega

/-- If no entry in what is left has the next address, all goes well. -/
theorem finds (hv : addr ≠ 0xFFFFFFFF#32)
    (hno : ∀ k, Listed stabs type e r' k → (stabs k).nValue ≠ addr + 1#32) :
    Finds stabs type region addr (stabBinsearch stabs region type addr) := by
  have hval := h.value
  have hmiss := stabLoop_misses true ⟨e, right⟩ _ h.inc' hno
  have hleft := hmiss.left e h.listed' (by bv_omega) fun k hk hka =>
    h.lastUpTo.last k (h.mono hk) (by bv_omega)
  have hres : stabLoop stabs type region.left region.right false region addr =
      (true, ⟨e, (stabLoop stabs type e r' true ⟨e, right⟩ (addr + 1#32)).2.right⟩) := by
    rw [h.run]
    exact Prod.ext (hmiss.anyMatches.2 (Or.inl rfl)) (StabRegion.ext hleft rfl)
  -- a later entry of what is left is above the next address
  have habove : ∀ k, Listed stabs type e r' k → e < k → addr + 1#32 < (stabs k).nValue := by
    intro k hk hlt
    have := h.inc e k h.listed (h.mono hk) hlt
    have := hno k hk
    bv_omega
  have hself : ¬ addr + 1#32 < (stabs e).nValue := by bv_omega
  have hend : StabEnds stabs type region.left region.right e
      (stabLoop stabs type e r' true ⟨e, right⟩ (addr + 1#32)).2.right := by
    refine ⟨fun e' hf => ?_, fun hlast => ?_⟩
    · have hgt := hf.gt
      by_cases hin : e' ≤ r'
      · have he' : Listed stabs type e r' e' := ⟨by omega, hin, hf.listed.hasType⟩
        refine hmiss.right e' he' (habove e' he' hgt) fun k hk hka => hf.least k (h.mono hk) ?_
        rcases Int.lt_or_eq_of_le hk.ge with hlt | rfl
        · exact hlt
        · exact absurd hka hself
      · rw [hmiss.noRight fun k hk hka => ?_]
        · show right = e' - 1
          have := h.le
          have := hf.listed.le
          rcases h.cut with ⟨h1, -⟩ | ⟨h1, h2⟩
          · omega
          · have := hf.least _ h1 (by omega)
            omega
        · rcases Int.lt_or_eq_of_le hk.ge with hlt | rfl
          · have := hf.least k (h.mono hk) hlt
            have := hk.le
            omega
          · exact absurd hka hself
    · rw [hmiss.noRight fun k hk hka => ?_]
      · show right = region.right
        rcases h.cut with ⟨-, h2⟩ | ⟨h1, -⟩
        · exact h2
        · have := hlast _ h1
          have := h.le
          omega
      · rcases Int.lt_or_eq_of_le hk.ge with hlt | rfl
        · have := hlast k (h.mono hk)
          omega
        · exact absurd hka hself
  exact finds_of_match h.lastUpTo hres hend

/-- An entry with the next address is the next entry. -/
theorem follows (hv : addr ≠ 0xFFFFFFFF#32) {e' : Int} (he' : Listed stabs type e r' e')
    (hv' : (stabs e').nValue = addr + 1#32) :
    Follows stabs type region.left region.right e e' := by
  have hval := h.value
  refine ⟨h.mono he', h.inc.lt h.listed (h.mono he') (by bv_omega), fun k hk hlt => ?_⟩
  by_contra hke
  have := h.inc e k h.listed hk hlt
  have := h.inc k e' hk (h.mono he') (Int.not_le.1 hke)
  bv_omega

/-- If one has, it is hit as well. -/
theorem finds_iff_last (hv : addr ≠ 0xFFFFFFFF#32) {e' : Int} (he' : Listed stabs type e r' e')
    (hv' : (stabs e').nValue = addr + 1#32) :
    Finds stabs type region addr (stabBinsearch stabs region type addr) ↔
      e' = e + 1 ∧ (stabs e').nValue = 0xFFFFFFFF#32 := by
  have hval := h.value
  have hgt : e < e' := (h.follows hv he' hv').gt
  obtain ⟨r'', right', hrun, hle, hcut, -⟩ := stabLoop_hit true ⟨e, right⟩ h.inc' he' hv'
  have hright : e' ≤ right' := by
    have := h.le_right
    have := he'.le
    rcases hcut with ⟨-, h2⟩ | ⟨-, h2⟩
    · have h2' : right' = right := h2
      omega
    · omega
  have hr'' : r'' ≤ r' := by
    rcases hcut with ⟨h1, -⟩ | ⟨h1, -⟩
    · omega
    · have := h1.le
      omega
  have hrun' := h.run.trans hrun
  by_cases hlast : (stabs e').nValue = 0xFFFFFFFF#32
  · rw [show addr + 1#32 + 1#32 = 0#32 by bv_omega, stabLoop_wrapped
      (h.inc'.mono he'.ge hr'') ⟨Int.le_refl e', hle, he'.hasType⟩ hlast] at hrun'
    rw [stabBinsearch_match hrun', stabBack_of_lt (by omega)]
    constructor
    · intro hf
      have hleft : e' - 1 = e := (hf.found e h.lastUpTo).1
      exact ⟨by omega, hlast⟩
    · rintro ⟨heq, -⟩
      refine ⟨fun e₂ he₂ => ?_, fun hall => ?_⟩
      · obtain rfl := h.lastUpTo.unique he₂
        refine ⟨by show e' - 1 = e; omega, fun e₃ hf => ?_, fun hno => ?_⟩
        · have := hf.least e' (h.mono he') hgt
          have := hf.gt
          show e' - 1 = e₃ - 1
          omega
        · have := hno e' (h.mono he')
          omega
      · have := hall e h.listed
        bv_omega
  · -- from here on the region stays behind `e`
    refine iff_of_false (fun hf => ?_) fun hh => hlast hh.2
    have hpast : (stabs e').nValue < addr + 1#32 + 1#32 := by bv_omega
    have hleft := (hf.found e h.lastUpTo).1
    obtain ⟨h1, h2⟩ := hrun' ▸ stabLoop_above true ⟨e', right'⟩ (Int.le_refl e') hright
      (Or.inr ⟨rfl, hpast⟩)
    have hge : e' ≤ (stabBinsearch stabs region type addr).left := by
      rw [stabBinsearch]
      generalize stabLoop stabs type region.left region.right false region addr = res at h1 h2
      obtain ⟨any, res⟩ := res
      cases any with
      | false => exact h1
      | true => exact le_stabBack_of_le h1 h2
    omega

end Hit

/-! ## The theorem -/

/-- The search goes well: there is nothing to find; or something is found, and if its value is
`addr` itself, which must not be the highest address of all, an entry for the very next address is
either out of the way by then, or right after it and the last address of all. -/
def Searchable (stabs : Int → Stab) (type : Int) (region : StabRegion) (addr : Word) : Prop :=
  (∀ k, ¬ Listed stabs type region.left region.right k) ∨
    ∃ e, LastUpTo stabs type region.left region.right addr e ∧
      ((stabs e).nValue = addr → addr ≠ 0xFFFFFFFF#32 ∧
        ∀ e', Follows stabs type region.left region.right e e' → (stabs e').nValue = addr + 1#32 →
          Parted stabs type e e' region.left region.right ∨
            (e' = e + 1 ∧ (stabs e').nValue = 0xFFFFFFFF#32))

theorem searchable_iff (he : LastUpTo stabs type region.left region.right addr e)
    (hv : (stabs e).nValue = addr) : Searchable stabs type region addr ↔ addr ≠ 0xFFFFFFFF#32 ∧
      ∀ e', Follows stabs type region.left region.right e e' → (stabs e').nValue = addr + 1#32 →
        Parted stabs type e e' region.left region.right ∨
          (e' = e + 1 ∧ (stabs e').nValue = 0xFFFFFFFF#32) := by
  constructor
  · rintro (hno | ⟨e₂, he₂, h⟩)
    · exact absurd he.listed (hno e)
    · obtain rfl := he.unique he₂
      exact h hv
  · exact fun h => Or.inr ⟨e, he, fun _ => h⟩

theorem Follows.unique {e₁ e₂ : Int} (h₁ : Follows stabs type l r e e₁)
    (h₂ : Follows stabs type l r e e₂) : e₁ = e₂ :=
  Int.le_antisymm (h₁.least e₂ h₂.listed h₂.gt) (h₂.least e₁ h₁.listed h₁.gt)

/-- **`stab_binsearch` finds the containing entry** if and only if the search goes well. -/
theorem stabBinsearch_finds_iff (stabs : Int → Stab) (type : Int) (region : StabRegion)
    (addr : Word)
    (hinc : Increasing stabs type region.left region.right) :
    Finds stabs type region addr (stabBinsearch stabs region type addr) ↔
      Searchable stabs type region addr := by
  by_cases hsome : ∃ k, Listed stabs type region.left region.right k
  · obtain ⟨k, hk⟩ := hsome
    by_cases hle : ∃ k, Listed stabs type region.left region.right k ∧ (stabs k).nValue ≤ addr
    · obtain ⟨k, hk, hka⟩ := hle
      obtain ⟨e, he⟩ := exists_lastUpTo hk hka
      by_cases hv : (stabs e).nValue = addr
      · -- `e` is hit
        obtain ⟨r', right, hrun, hle, hcut, hpart⟩ := stabLoop_hit false region hinc
          he.listed hv
        have hit : Hit stabs type region addr e r' right := ⟨hinc, he.listed, hv, hrun, hle, hcut⟩
        rw [searchable_iff he hv]
        by_cases htop : addr = 0xFFFFFFFF#32
        · exact iff_of_false (hit.not_finds htop) fun h => h.1 htop
        by_cases hnext : ∃ e', Listed stabs type e r' e' ∧ (stabs e').nValue = addr + 1#32
        · obtain ⟨e', he', hv'⟩ := hnext
          have hf := hit.follows htop he' hv'
          rw [hit.finds_iff_last htop he' hv']
          have hno : ¬ Parted stabs type e e' region.left region.right := fun hp =>
            absurd ((hpart e' hf).2 hp) (Int.not_lt.2 he'.le)
          constructor
          · refine fun h => ⟨htop, fun e₂ hf₂ _ => Or.inr ?_⟩
            obtain rfl := hf.unique hf₂
            exact h
          · exact fun h => (h.2 e' hf hv').resolve_left hno
        · refine iff_of_true (hit.finds htop fun k hk hka => hnext ⟨k, hk, hka⟩) ⟨htop, ?_⟩
          intro e' hf hv'
          refine Or.inl ((hpart e' hf).1 ?_)
          by_contra hin
          have hgt := hf.gt
          exact hnext ⟨e', ⟨by omega, Int.not_lt.1 hin, hf.listed.hasType⟩, hv'⟩
      · exact iff_of_true (finds_of_below hinc he hv) (Or.inr ⟨e, he, fun h => absurd h hv⟩)
    · have hall : ∀ k, Listed stabs type region.left region.right k → addr < (stabs k).nValue :=
        fun k hk => BitVec.not_le.1 fun hka => hle ⟨k, hk, hka⟩
      refine iff_of_false (not_finds_of_above hinc hk hall) ?_
      rintro (hno | ⟨e, he, -⟩)
      · exact hno k hk
      · exact hle ⟨e, he.listed, he.le⟩
  · have hno : ∀ k, ¬ Listed stabs type region.left region.right k := fun k hk => hsome ⟨k, hk⟩
    exact iff_of_true (finds_of_none hno) (Or.inl hno)

/-- `N_FUN`. -/
def nFun : Int := 0x24

/-- A file name at the address of a function, and the function. -/
def twoStabs (k : Int) : Stab := if k = 0 then ⟨0x64#8, 0x10#32⟩ else ⟨0x24#8, 0x10#32⟩

theorem twoStabs_listed (k : Int) (h : Listed twoStabs nFun 0 1 k) : k = 1 := by
  obtain ⟨hl, hr, hT⟩ := h
  by_contra hne
  obtain rfl : k = 0 := by omega
  exact absurd hT (by decide)

theorem twoStabs_increasing : Increasing twoStabs nFun 0 1 := by
  intro k k' hk hk' hlt
  have := twoStabs_listed k hk
  have := twoStabs_listed k' hk'
  omega

theorem stabBinsearch_finds_iff_two :
    Finds twoStabs nFun ⟨0, 1⟩ 0x18#32 (stabBinsearch twoStabs ⟨0, 1⟩ nFun 0x18#32) ↔
      Searchable twoStabs nFun ⟨0, 1⟩ 0x18#32 :=
  stabBinsearch_finds_iff twoStabs nFun ⟨0, 1⟩ 0x18#32 twoStabs_increasing

/-- **An address before the first function** is not recognised as such: the region that is left is
not empty, and begins with an entry that is not a function. -/
theorem not_finds_two : Increasing twoStabs nFun 0 1 ∧
    ¬ Finds twoStabs nFun ⟨0, 1⟩ 0x8#32 (stabBinsearch twoStabs ⟨0, 1⟩ nFun 0x8#32) := by
  have hone : Listed twoStabs nFun 0 1 1 := ⟨by decide, by decide, by decide⟩
  refine ⟨twoStabs_increasing, not_finds_of_above twoStabs_increasing hone fun k hk => ?_⟩
  rw [twoStabs_listed k hk]
  decide

end Jos
