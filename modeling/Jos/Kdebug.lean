import Jos.Layout

/-!
# `kern/kdebug.c`: looking up an address in the debugging tables

`stab_binsearch` searches a table in which entries of several types are mixed.  Only the entries of
one type are in order, so from the middle of the range it goes back to one of them.  At an exact hit
it does not stop, since the right end is not known yet, but looks for the next address instead.

Indexes are C's `int`, and the tables are far too short for one to overflow.  Both loops end; the
main loop may stay where it is after a hit, once, because it then looks for something else.
-/

set_option autoImplicit false

namespace Jos

/-- `struct Stab`, as far as the search reads it. -/
structure Stab where
  nType : BitVec 8
  nValue : Word

/-- `*region_left` and `*region_right`. -/
@[ext]
structure StabRegion where
  left : Int
  right : Int
deriving DecidableEq

/-- `n_type == type`. -/
def Stab.HasType (stab : Stab) (type : Int) : Prop := (stab.nType.toNat : Int) = type

instance (stab : Stab) (type : Int) : Decidable (stab.HasType type) := by
  unfold Stab.HasType; infer_instance

/-- `while (m >= l && stabs[m].n_type != type) m--`, and the loop that looks for the rightmost
region. -/
def stabBack (stabs : Int → Stab) (type l m : Int) : Int :=
  if l ≤ m ∧ ¬ (stabs m).HasType type then
    stabBack stabs type l (m - 1)
  else
    m
termination_by (m + 1 - l).toNat

variable {stabs : Int → Stab} {type l r m k : Int} {addr : Word}

/-! ## Going back to an entry of the type -/

theorem stabBack_le (stabs : Int → Stab) (type l m : Int) : stabBack stabs type l m ≤ m := by
  fun_induction stabBack stabs type l m with
  | case1 m h ih => omega
  | case2 m h => omega

theorem le_stabBack (h : l ≤ m + 1) : l ≤ stabBack stabs type l m + 1 := by
  fun_induction stabBack stabs type l m with
  | case1 m hm ih => exact ih (by omega)
  | case2 m hm => exact h

/-- It stops at an entry of the type, if it does not get past `l`. -/
theorem stabBack_hasType (h : l ≤ stabBack stabs type l m) :
    (stabs (stabBack stabs type l m)).HasType type := by
  fun_induction stabBack stabs type l m with
  | case1 m hm ih => exact ih h
  | case2 m hm => exact not_not.1 fun hno => hm ⟨h, hno⟩

/-- There is none between it and the start. -/
theorem stabBack_last (hk : stabBack stabs type l m < k) (hm : k ≤ m) :
    ¬ (stabs k).HasType type := by
  fun_induction stabBack stabs type l m with
  | case1 m h ih =>
    rcases Int.lt_or_eq_of_le hm with hlt | rfl
    · exact ih hk (by omega)
    · exact h.2
  | case2 m h => omega

/-! ## The search -/

/-- `(l + r) / 2`; C rounds towards zero. -/
def stabMid (l r : Int) : Int := (l + r).tdiv 2

theorem stabMid_bounds (h : l ≤ r) : l ≤ stabMid l r ∧ stabMid l r ≤ r := by
  rw [stabMid, Int.tdiv_eq_ediv]
  split
  · omega
  · rename_i hneg
    have hsign : Int.sign 2 = 1 := rfl
    rw [not_or] at hneg
    omega

/-- The rounds that the loop has left at most, if there are `r - l + 1` entries. -/
def stabRounds (stabs : Int → Stab) (l r : Int) (addr : Word) : Nat :=
  2 * (r + 1 - l).toNat + if (stabs l).nValue = addr then 1 else 0

theorem stabRounds_up {c : Int} (hl : l ≤ c) (hr : c ≤ r) (addr : Word) :
    stabRounds stabs (c + 1) r addr < stabRounds stabs l r addr := by
  rw [stabRounds, stabRounds]
  split
  · split <;> omega
  · split <;> omega

theorem stabRounds_down (hl : l ≤ m) (hr : m ≤ r) (addr : Word) :
    stabRounds stabs l (m - 1) addr < stabRounds stabs l r addr := by
  rw [stabRounds, stabRounds]
  omega

/-- After a hit the same entry is not hit again. -/
theorem stabRounds_hit (hl : l ≤ m) (hr : m ≤ r) (hv : (stabs m).nValue = addr) :
    stabRounds stabs m r (addr + 1#32) < stabRounds stabs l r addr := by
  have hne : ¬ (stabs m).nValue = addr + 1#32 := by
    rw [hv]
    intro h
    have := congrArg BitVec.toNat h
    rw [BitVec.toNat_add, BitVec.toNat_ofNat] at this
    omega
  rw [stabRounds, stabRounds, if_neg hne]
  rcases Int.lt_or_eq_of_le hl with hlt | rfl
  · omega
  · rw [if_pos hv]
    omega

/-- The main loop: `any_matches`, and the region. -/
def stabLoop (stabs : Int → Stab) (type l r : Int) (anyMatches : Bool) (region : StabRegion)
    (addr : Word) : Bool × StabRegion :=
  if l ≤ r then
    let trueM := stabMid l r
    let m := stabBack stabs type l trueM
    if m < l then
      stabLoop stabs type (trueM + 1) r anyMatches region addr
    else if (stabs m).nValue < addr then
      stabLoop stabs type (trueM + 1) r true { region with left := m } addr
    else if addr < (stabs m).nValue then
      stabLoop stabs type l (m - 1) true { region with right := m - 1 } addr
    else
      stabLoop stabs type m r true { region with left := m } (addr + 1#32)
  else
    (anyMatches, region)
termination_by stabRounds stabs l r addr
decreasing_by
  · rename_i hlr _
    exact stabRounds_up (stabMid_bounds hlr).1 (stabMid_bounds hlr).2 addr
  · rename_i hlr _ _
    exact stabRounds_up (stabMid_bounds hlr).1 (stabMid_bounds hlr).2 addr
  · rename_i hlr hm _ _
    exact stabRounds_down (Int.not_lt.1 hm)
      (Int.le_trans (stabBack_le stabs type l _) (stabMid_bounds hlr).2) addr
  · rename_i hlr hm hlt hgt
    exact stabRounds_hit (Int.not_lt.1 hm)
      (Int.le_trans (stabBack_le stabs type l _) (stabMid_bounds hlr).2)
      (BitVec.le_antisymm (BitVec.not_lt.1 hgt) (BitVec.not_lt.1 hlt))

/-- `stab_binsearch`. -/
def stabBinsearch (stabs : Int → Stab) (region : StabRegion) (type : Int) (addr : Word) :
    StabRegion :=
  let (anyMatches, region) := stabLoop stabs type region.left region.right false region addr
  if anyMatches then
    { region with left := stabBack stabs type (region.left + 1) region.right }
  else
    { region with right := region.left - 1 }

end Jos
