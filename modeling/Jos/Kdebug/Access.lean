import Jos.Kdebug
import Jos.Lib.Command

/-!
# What `stab_binsearch` reads

The search once more, with the entries noted that it reads, and with a number of rounds given to its
loops that they might exceed.  They do not, whatever is in the table: `stabBinsearchAt_run` gives a
number of rounds that is enough, and the entries read are all in the region searched.

After an exact hit `l` may stay where it is.  What gets smaller then is `stabRounds`, since the
entry at `l` is not one that the next address hits.
-/

set_option autoImplicit false

namespace Jos

open Command

/-- A sum that is no `int`, or a loop that goes on for longer. -/
inductive StabFault where
  | overflow (x : Int)
  | loop

/-- The search; its state is the entries read so far. -/
abbrev StabM := EStateM StabFault (List Int)

/-- The result of C arithmetic. -/
def cint (x : Int) : StabM Int := do
  if -2 ^ 31 ≤ x ∧ x < 2 ^ 31 then
    return x
  throw (.overflow x)

/-- `stabs[k]`. -/
def stabAt (stabs : Int → Stab) (k : Int) : StabM Stab := do
  modify (· ++ [k])
  return stabs k

section

variable (stabs : Int → Stab) (type : Int)

/-- `while (m >= l && stabs[m].n_type != type) m--`, and the loop that looks for the rightmost
region. -/
def stabBackAt : Nat → Int → Int → StabM Int
  | 0, _, _ => throw .loop
  | fuel + 1, l, m => do
    if l ≤ m then
      if (← stabAt stabs m).HasType type then
        return m
      stabBackAt fuel l (← cint (m - 1))
    else
      return m

/-- The main loop. -/
def stabLoopAt (rounds : Nat) : Nat → Int → Int → Bool → StabRegion → Word →
    StabM (Bool × StabRegion)
  | 0, _, _, _, _, _ => throw .loop
  | fuel + 1, l, r, anyMatches, region, addr => do
    if l ≤ r then
      let trueM := (← cint (l + r)).tdiv 2
      let m ← stabBackAt stabs type rounds l trueM
      if m < l then
        stabLoopAt rounds fuel (← cint (trueM + 1)) r anyMatches region addr
      else if (← stabAt stabs m).nValue < addr then
        stabLoopAt rounds fuel (← cint (trueM + 1)) r true { region with left := m } addr
      else if addr < (← stabAt stabs m).nValue then
        let right ← cint (m - 1)
        stabLoopAt rounds fuel l right true { region with right := right } addr
      else
        stabLoopAt rounds fuel m r true { region with left := m } (addr + 1#32)
    else
      return (anyMatches, region)

/-- `stab_binsearch`. -/
def stabBinsearchAt (fuel : Nat) (region : StabRegion) (addr : Word) : StabM StabRegion := do
  let (anyMatches, region) ←
    stabLoopAt stabs type fuel fuel region.left region.right false region addr
  if anyMatches then
    return { region with left := ← stabBackAt stabs type fuel (region.left + 1) region.right }
  else
    return { region with right := ← cint (region.left - 1) }

end

/-- A region, possibly empty, of a table of `size` entries; an entry has twelve bytes. -/
structure ValidRegion (size : Nat) (region : StabRegion) : Prop where
  bytes : size * 12 ≤ 2 ^ 32
  leftGe : 0 ≤ region.left
  leftLe : region.left ≤ size
  rightLt : region.right < size

variable {stabs : Int → Stab} {type l r m lo hi : Int} {addr : Word} {tr : List Int}
variable {α : Type}

/-- The command returns `a`, and what it reads is between the bounds. -/
def StabReads (lo hi : Int) (c : StabM α) (a : α) : Prop :=
  ∀ tr, ∃ more, c.run tr = .ok a (tr ++ more) ∧ ∀ k ∈ more, lo ≤ k ∧ k ≤ hi

namespace StabReads

theorem pure (lo hi : Int) (a : α) : StabReads lo hi (Pure.pure a) a := fun tr =>
  ⟨[], by rw [List.append_nil]; rfl, fun _ hk => absurd hk List.not_mem_nil⟩

theorem bind {β : Type} {c : StabM α} {f : α → StabM β} {a : α} {b : β} (h : StabReads lo hi c a)
    (hf : StabReads lo hi (f a) b) : StabReads lo hi (c >>= f) b := by
  intro tr
  obtain ⟨more, hrun, hmore⟩ := h tr
  obtain ⟨rest, hrest, hall⟩ := hf (tr ++ more)
  refine ⟨more ++ rest, ?_, fun k hk => ?_⟩
  · rw [run_bind_ok hrun, hrest, List.append_assoc]
  · exact (List.mem_append.1 hk).elim (hmore k) (hall k)

theorem mono {lo' hi' : Int} {c : StabM α} {a : α} (h : StabReads lo hi c a) (hlo : lo' ≤ lo)
    (hhi : hi ≤ hi') : StabReads lo' hi' c a := by
  intro tr
  obtain ⟨more, hrun, hmore⟩ := h tr
  exact ⟨more, hrun, fun k hk => ⟨Int.le_trans hlo (hmore k hk).1, Int.le_trans (hmore k hk).2 hhi⟩⟩

theorem cint {x : Int} (lo hi : Int) (h : -2 ^ 31 ≤ x ∧ x < 2 ^ 31) :
    StabReads lo hi (Jos.cint x) x := by
  rw [Jos.cint, if_pos h]
  exact pure lo hi x

theorem stabAt {k : Int} (hlo : lo ≤ k) (hhi : k ≤ hi) :
    StabReads lo hi (Jos.stabAt stabs k) (stabs k) := fun _ =>
  ⟨[k], rfl, fun _ hk => List.mem_singleton.1 hk ▸ ⟨hlo, hhi⟩⟩

end StabReads

/-- Going back ends, and reads no entry before the start. -/
theorem stabBackAt_run (stabs : Int → Stab) (type : Int) (fuel : Nat)
    (hfuel : (m + 1 - l).toNat < fuel) (hl : -2 ^ 31 < l)
    (hm : m < 2 ^ 31) :
    StabReads l m (stabBackAt stabs type fuel l m) (stabBack stabs type l m) := by
  induction fuel generalizing m with
  | zero => omega
  | succ fuel ih =>
    rw [stabBackAt, stabBack]
    by_cases hlm : l ≤ m
    · rw [if_pos hlm]
      refine (StabReads.stabAt hlm (Int.le_refl m)).bind ?_
      by_cases htype : (stabs m).HasType type
      · rw [if_pos htype, if_neg fun hh => hh.2 htype]
        exact StabReads.pure l m m
      · rw [if_neg htype, if_pos ⟨hlm, htype⟩]
        refine (StabReads.cint l m (by omega)).bind ?_
        exact (ih (by omega) (by omega)).mono (Int.le_refl l) (by omega)
    · rw [if_neg hlm, if_neg fun hh => hlm hh.1]
      exact StabReads.pure l m m

/-- **The main loop** ends within the rounds that `stabRounds` counts, and reads what is in its
range. -/
theorem stabLoopAt_run (stabs : Int → Stab) (type : Int) (rounds fuel : Nat) (anyMatches : Bool)
    (region : StabRegion) (hfuel : stabRounds stabs l r addr < fuel)
    (hrounds : (r + 1 - l).toNat < rounds) (hl : 0 ≤ l) (hr : r < 2 ^ 30) :
    StabReads l r (stabLoopAt stabs type rounds fuel l r anyMatches region addr)
      (stabLoop stabs type l r anyMatches region addr) := by
  induction fuel generalizing l r anyMatches region addr with
  | zero => omega
  | succ fuel ih =>
    rw [stabLoopAt, stabLoop]
    by_cases hlr : l ≤ r
    · have hmid := stabMid_bounds hlr
      have hm := stabBack_le stabs type l (stabMid l r)
      have hback := (stabBackAt_run stabs type rounds (l := l) (m := stabMid l r)
        (by omega) (by omega) (by omega)).mono (Int.le_refl l) hmid.2
      have hup : StabReads l r (cint (stabMid l r + 1)) (stabMid l r + 1) :=
        StabReads.cint l r (by omega)
      have hless : stabRounds stabs (stabMid l r + 1) r addr < stabRounds stabs l r addr :=
        stabRounds_up hmid.1 hmid.2 addr
      rw [if_pos hlr, if_pos hlr]
      refine (StabReads.cint l r (by omega)).bind (hback.bind ?_)
      dsimp only
      by_cases hnone : stabBack stabs type l (stabMid l r) < l
      · rw [if_pos hnone, if_pos hnone]
        refine hup.bind ((ih anyMatches region ?_ (by omega) (by omega) hr).mono (by omega)
          (Int.le_refl r))
        omega
      · have hread : StabReads l r (stabAt stabs (stabBack stabs type l (stabMid l r)))
            (stabs (stabBack stabs type l (stabMid l r))) :=
          StabReads.stabAt (Int.not_lt.1 hnone) (Int.le_trans hm hmid.2)
        rw [if_neg hnone, if_neg hnone]
        refine hread.bind ?_
        by_cases hlt : (stabs (stabBack stabs type l (stabMid l r))).nValue < addr
        · rw [if_pos hlt, if_pos hlt]
          refine hup.bind ((ih true _ ?_ (by omega) (by omega) hr).mono (by omega) (Int.le_refl r))
          omega
        · rw [if_neg hlt, if_neg hlt]
          refine hread.bind ?_
          by_cases hgt : addr < (stabs (stabBack stabs type l (stabMid l r))).nValue
          · rw [if_pos hgt, if_pos hgt]
            refine (StabReads.cint l r (by omega)).bind
              ((ih true _ ?_ (by omega) hl (by omega)).mono (Int.le_refl l) (by omega))
            have hless' : stabRounds stabs l (stabBack stabs type l (stabMid l r) - 1) addr <
                stabRounds stabs l r addr :=
              stabRounds_down (Int.not_lt.1 hnone) (Int.le_trans hm hmid.2) addr
            omega
          · -- a hit: `l` may stay where it is, and only the address is another one
            have heq : (stabs (stabBack stabs type l (stabMid l r))).nValue = addr :=
              BitVec.le_antisymm (BitVec.not_lt.1 hgt) (BitVec.not_lt.1 hlt)
            rw [if_neg hgt, if_neg hgt]
            refine (ih true _ ?_ (by omega) (by omega) hr).mono (Int.not_lt.1 hnone) (Int.le_refl r)
            have hless' := stabRounds_hit (Int.not_lt.1 hnone) (Int.le_trans hm hmid.2) heq
            omega
    · rw [if_neg hlr, if_neg hlr]
      exact StabReads.pure l r _

/-- The region found is part of the one searched. -/
theorem stabLoop_region (stabs : Int → Stab) (type l r : Int) (anyMatches : Bool)
    (region : StabRegion) (addr : Word) :
    let res := (stabLoop stabs type l r anyMatches region addr).2
    (res.left = region.left ∨ l ≤ res.left ∧ res.left ≤ r) ∧
      (res.right = region.right ∨ l - 1 ≤ res.right ∧ res.right ≤ r) := by
  fun_induction stabLoop stabs type l r anyMatches region addr with
  | case1 l r anyMatches region addr hlr trueM m hnone ih =>
    have hmid := stabMid_bounds hlr
    dsimp only at ih ⊢
    omega
  | case2 l r anyMatches region addr hlr trueM m hm hlt ih =>
    have hmid := stabMid_bounds hlr
    have hle := stabBack_le stabs type l trueM
    dsimp only at ih ⊢
    omega
  | case3 l r anyMatches region addr hlr trueM m hm hge hgt ih =>
    have hmid := stabMid_bounds hlr
    have hle := stabBack_le stabs type l trueM
    dsimp only at ih ⊢
    omega
  | case4 l r anyMatches region addr hlr trueM m hm hge hle ih =>
    have hmid := stabMid_bounds hlr
    have hle := stabBack_le stabs type l trueM
    dsimp only at ih ⊢
    omega
  | case5 l r anyMatches region addr hlr => exact ⟨Or.inl rfl, Or.inl rfl⟩

/-- **`stab_binsearch`** ends, on any table: there is a number of rounds that none of its loops
exceeds, and all entries that it reads are in the region searched. -/
theorem stabBinsearchAt_run {size : Nat} {region : StabRegion} (hv : ValidRegion size region)
    (stabs : Int → Stab) (type : Int) (addr : Word) {fuel : Nat}
    (hfuel : 2 * (region.right + 1 - region.left).toNat + 1 < fuel) : ∃ entries,
    (stabBinsearchAt stabs type fuel region addr).run [] =
      .ok (stabBinsearch stabs region type addr) entries ∧
    ∀ k ∈ entries, region.left ≤ k ∧ k ≤ region.right := by
  obtain ⟨hbytes, hge, hle, hlt⟩ := hv
  have hrounds : stabRounds stabs region.left region.right addr < fuel := by
    rw [stabRounds]
    split <;> omega
  have hloop := stabLoopAt_run stabs type fuel fuel false region hrounds (by omega) hge (by omega)
  have hregion := stabLoop_region stabs type region.left region.right false region addr
  have hall : StabReads region.left region.right (stabBinsearchAt stabs type fuel region addr)
      (stabBinsearch stabs region type addr) := by
    rw [stabBinsearchAt, stabBinsearch]
    refine hloop.bind ?_
    generalize stabLoop stabs type region.left region.right false region addr = res at hregion ⊢
    obtain ⟨anyMatches, found⟩ := res
    dsimp only at hregion ⊢
    cases anyMatches with
    | true =>
      have hback := stabBackAt_run stabs type fuel (l := found.left + 1)
        (m := found.right) (by omega) (by omega) (by omega)
      exact (hback.mono (by omega) (by omega)).bind (StabReads.pure _ _ _)
    | false => exact (StabReads.cint _ _ (by omega)).bind (StabReads.pure _ _ _)
  obtain ⟨entries, hrun, hmem⟩ := hall []
  exact ⟨entries, hrun, hmem⟩

/-- In a table of two equal entries. -/
theorem stabBinsearchAt_run_two : ValidRegion 2 ⟨0, 1⟩ ∧ ∃ entries,
    (stabBinsearchAt (fun _ => ⟨36#8, 0xFFFFFFFF#32⟩) 36 6 ⟨0, 1⟩ 0xFFFFFFFF#32).run [] =
      .ok (stabBinsearch (fun _ => ⟨36#8, 0xFFFFFFFF#32⟩) ⟨0, 1⟩ 36 0xFFFFFFFF#32) entries ∧
    ∀ k ∈ entries, 0 ≤ k ∧ k ≤ 1 :=
  have hv : ValidRegion 2 ⟨0, 1⟩ := ⟨by decide, by decide, by decide, by decide⟩
  ⟨hv, stabBinsearchAt_run hv _ 36 0xFFFFFFFF#32 (by decide)⟩

end Jos
