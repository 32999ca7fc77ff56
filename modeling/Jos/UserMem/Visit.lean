import Jos.Access
import Mathlib.Order.Bounds.Basic

/-!
# The addresses that `user_mem_check` visits

Inside user space the check is exact: it returns zero if and only if every page of the range has an
entry with the permissions, and on the way it looks up no page outside the range, and none twice.

What it reports about a range that fails is another matter.  It is to leave the first erroneous
address in `user_mem_check_addr`, but at `err:` it takes the address from the entry of the page, and
for a page without a page table it follows a `NULL` pointer.
-/

set_option autoImplicit false

namespace Jos

open Kernel Command Traced

variable {s : Kernel} {d n : Nat} {va len perm endVa : Word} {l : List Access}

/-! ## The rounds of the loop -/

/-- The address at the start of round `k`. -/
def visited (va : Word) (k : Nat) : Word := BitVec.ofNat 32 (va.toNat + 4096 * k)

theorem visited_zero (va : Word) : visited va 0 = va := by simp [visited]

theorem visited_toNat {k : Nat} (h : va.toNat + 4096 * k < 2 ^ 32) :
    (visited va k).toNat = va.toNat + 4096 * k := by
  rw [visited, BitVec.toNat_ofNat, Nat.mod_eq_of_lt h]

theorem visited_succ (va : Word) (k : Nat) : visited va k + pgsize = visited va (k + 1) := by
  apply BitVec.eq_of_toNat_eq
  rw [visited, visited, BitVec.toNat_add, BitVec.toNat_ofNat, BitVec.toNat_ofNat]
  show ((va.toNat + 4096 * k) % 2 ^ 32 + 4096) % 2 ^ 32 = _
  omega

theorem visited_lt {k : Nat} (h : va.toNat + 4096 * k < endVa.toNat) : visited va k < endVa := by
  have hend := endVa.isLt
  show (visited va k).toNat < endVa.toNat
  rw [visited_toNat (by omega)]
  exact h

namespace Watch

variable {a : Word}

theorem userMemCheckLoop_done (h : ¬ a < endVa) (fuel : Nat) :
    (userMemCheckLoop d endVa perm fuel).run ⟨s.checkingAt a, l⟩ =
      .ok none ⟨s.checkingAt a, l⟩ := by
  cases fuel with
  | zero => rfl
  | succ fuel =>
    rw [userMemCheckLoop, run_bind_ok (lift_ok (EStateM.run_get _))]
    exact congrArg (fun m => EStateM.run m _) (if_pos h)

/-- A round looks up the address first. -/
theorem userMemCheckLoop_walk (h : a < endVa) (fuel : Nat) :
    (userMemCheckLoop d endVa perm (fuel + 1)).run ⟨s.checkingAt a, l⟩ = EStateM.run (do
      match ← lift (pgdirWalk d a false) with
      | none => return some none
      | some pte =>
        if ulim < a then
          return some (some pte)
        if (← lift (loadWord pte.page pte.idx)) &&& perm ≠ perm then
          return some (some pte)
        lift (modify fun s => { s with userMemCheckAddr := s.userMemCheckAddr + pgsize })
        userMemCheckLoop d endVa perm fuel) ⟨s.checkingAt a, l ++ [.walk a]⟩ := by
  rw [userMemCheckLoop, run_bind_ok (lift_ok (EStateM.run_get _))]
  have hno : ¬ ¬ (s.checkingAt a).userMemCheckAddr < endVa := not_not_intro h
  rw [if_neg hno, run_bind_ok (tell_run _)]
  rfl

/-- An address that passes. -/
theorem userMemCheckLoop_pass (h : a < endVa) (hp : s.Passes d perm a) (fuel : Nat) :
    (userMemCheckLoop d endVa perm (fuel + 1)).run ⟨s.checkingAt a, l⟩ =
      (userMemCheckLoop d endVa perm fuel).run ⟨s.checkingAt (a + pgsize), l ++ [.walk a]⟩ := by
  obtain ⟨hul, hg⟩ := hp
  obtain ⟨t, hf, ht, hperm⟩ := (grants_iff a).1 hg
  rw [userMemCheckLoop_walk h,
    run_bind_ok (lift_ok (pgdirWalk_found (s := s.checkingAt a) hf ht _))]
  dsimp only
  have hload : (loadWord t (ptx a)).run (s.checkingAt a) = .ok (s.mem t (ptx a)) (s.checkingAt a) :=
    rfl
  rw [if_neg (BitVec.not_lt.2 hul), run_bind_ok (lift_ok hload), if_neg (not_not_intro hperm)]
  rfl

/-- There is no page table. -/
theorem userMemCheckLoop_missing (h : a < endVa) (hf : framed (s.mem d (pdx a)) = none)
    (fuel : Nat) : (userMemCheckLoop d endVa perm (fuel + 1)).run ⟨s.checkingAt a, l⟩ =
      .ok (some none) ⟨s.checkingAt a, l ++ [.walk a]⟩ := by
  rw [userMemCheckLoop_walk h, run_bind_ok (lift_ok (pgdirWalk_missing (s := s.checkingAt a) hf))]
  rfl

/-- The directory points outside physical memory. -/
theorem userMemCheckLoop_beyond (h : a < endVa) {t : Nat} (hf : framed (s.mem d (pdx a)) = some t)
    (ht : ¬ t < s.npages) (fuel : Nat) :
    (userMemCheckLoop d endVa perm (fuel + 1)).run ⟨s.checkingAt a, l⟩ =
      .error (.panic "KADDR called with invalid pa") ⟨s.checkingAt a, l ++ [.walk a]⟩ := by
  rw [userMemCheckLoop_walk h,
    run_bind_error (lift_error (pgdirWalk_beyond (s := s.checkingAt a) hf ht _))]

/-- The entry does not pass. -/
theorem userMemCheckLoop_fail (h : a < endVa) {t : Nat} (hf : framed (s.mem d (pdx a)) = some t)
    (ht : t < s.npages) (hno : ¬ s.Passes d perm a) (fuel : Nat) :
    (userMemCheckLoop d endVa perm (fuel + 1)).run ⟨s.checkingAt a, l⟩ =
      .ok (some (some ⟨t, ptx a⟩)) ⟨s.checkingAt a, l ++ [.walk a]⟩ := by
  rw [userMemCheckLoop_walk h,
    run_bind_ok (lift_ok (pgdirWalk_found (s := s.checkingAt a) hf ht _))]
  dsimp only
  by_cases hul : ulim < a
  · rw [if_pos hul]
    rfl
  · have hload : (loadWord t (ptx a)).run (s.checkingAt a) =
        .ok (s.mem t (ptx a)) (s.checkingAt a) := rfl
    have hp : s.mem t (ptx a) &&& perm ≠ perm := fun hp =>
      hno ⟨BitVec.not_lt.1 hul, (grants_iff a).2 ⟨t, hf, ht, hp⟩⟩
    rw [if_neg hul, run_bind_ok (lift_ok hload), if_pos hp]
    rfl

end Watch

/-! ## Where the loop stops -/

/-- The loop of `user_mem_check` gets to round `n` and no further. -/
structure StopsAt (s : Kernel) (d : Nat) (perm va endVa : Word) (n : Nat) : Prop where
  before : ∀ k < n, va.toNat + 4096 * k < endVa.toNat ∧ s.Passes d perm (visited va k)
  stops : va.toNat + 4096 * n < endVa.toNat → ¬ s.Passes d perm (visited va n)

theorem exists_stopsAt (s : Kernel) (d : Nat) (perm va endVa : Word) :
    ∃ n, StopsAt s d perm va endVa n := by
  classical
  have hex : ∃ n, va.toNat + 4096 * n < endVa.toNat → ¬ s.Passes d perm (visited va n) :=
    ⟨endVa.toNat, fun h => absurd h (by omega)⟩
  refine ⟨Nat.find hex, fun k hk => ?_, Nat.find_spec hex⟩
  have hmin := Nat.find_min hex hk
  simp only [Classical.not_imp, not_not] at hmin
  exact hmin

theorem StopsAt.unique {n' : Nat} (h : StopsAt s d perm va endVa n)
    (h' : StopsAt s d perm va endVa n') : n = n' := by
  rcases Nat.lt_trichotomy n n' with hlt | heq | hlt
  · obtain ⟨hin, hp⟩ := h'.before n hlt
    exact absurd hp (h.stops hin)
  · exact heq
  · obtain ⟨hin, hp⟩ := h.before n' hlt
    exact absurd hp (h'.stops hin)

theorem StopsAt.lt (hend : endVa.toNat + 4096 ≤ 2 ^ 32) (hn : StopsAt s d perm va endVa n)
    (h : visited va n < endVa) : va.toNat + 4096 * n < endVa.toNat := by
  have htn : (visited va n).toNat < endVa.toNat := h
  cases n with
  | zero => rwa [visited_zero] at htn
  | succ n =>
    have hb := (hn.before n (Nat.lt_succ_self n)).1
    rwa [visited_toNat (by omega)] at htn

theorem StopsAt.last (hend : endVa.toNat + 4096 ≤ 2 ^ 32) (hn : StopsAt s d perm va endVa n)
    (h : visited va n < endVa) : ¬ s.Passes d perm (visited va n) :=
  hn.stops (hn.lt hend h)

/-- The addresses looked up in the first `n` rounds. -/
def walks (va : Word) (n : Nat) : List Access := (List.range n).map fun k => .walk (visited va k)

theorem walks_succ (va : Word) (n : Nat) :
    walks va (n + 1) = walks va n ++ [.walk (visited va n)] := by
  rw [walks, walks, List.range_succ, List.map_append]
  rfl

theorem null_notMem_walks (va : Word) (n : Nat) : Access.null ∉ walks va n := by
  intro h
  obtain ⟨k, -, hk⟩ := List.mem_map.1 h
  exact absurd hk (by simp)

namespace Watch

/-- The rounds that pass. -/
theorem userMemCheckLoop_rounds (hpass : ∀ k < n, va.toNat + 4096 * k < endVa.toNat ∧
    s.Passes d perm (visited va k)) (fuel : Nat) :
    (userMemCheckLoop d endVa perm (n + fuel)).run ⟨s.checkingAt va, l⟩ =
      (userMemCheckLoop d endVa perm fuel).run ⟨s.checkingAt (visited va n), l ++ walks va n⟩ := by
  induction n generalizing fuel with
  | zero => rw [Nat.zero_add, visited_zero, walks, List.range_zero, List.map_nil, List.append_nil]
  | succ n ih =>
    obtain ⟨hlt, hp⟩ := hpass n (Nat.lt_succ_self n)
    rw [Nat.succ_add_eq_add_succ, ih (fun k hk => hpass k (Nat.lt_succ_of_lt hk)),
      userMemCheckLoop_pass (visited_lt hlt) hp, visited_succ, walks_succ, List.append_assoc]

/-- The loop needs no more than `2 ^ 20` rounds. -/
theorem userMemCheckLoop_stopsAt (hend : endVa.toNat + 4096 ≤ 2 ^ 32)
    (hn : StopsAt s d perm va endVa n) {fuel : Nat} (hfuel : 2 ^ 20 ≤ fuel) : ∃ rest,
      (userMemCheckLoop d endVa perm fuel).run ⟨s.checkingAt va, l⟩ =
        (userMemCheckLoop d endVa perm (rest + 1)).run
          ⟨s.checkingAt (visited va n), l ++ walks va n⟩ := by
  have hlt : n < 2 ^ 20 := by
    cases n with
    | zero => omega
    | succ n =>
      have := (hn.before n (Nat.lt_succ_self n)).1
      omega
  refine ⟨fuel - n - 1, ?_⟩
  rw [← userMemCheckLoop_rounds hn.before]
  congr 2
  omega

/-- The round that does not pass is the last one. -/
theorem userMemCheckLoop_last {a : Word} (hstop : a < endVa → ¬ s.Passes d perm a)
    (fuel fuel' : Nat) : (userMemCheckLoop d endVa perm (fuel + 1)).run ⟨s.checkingAt a, l⟩ =
      (userMemCheckLoop d endVa perm (fuel' + 1)).run ⟨s.checkingAt a, l⟩ := by
  by_cases h : a < endVa
  · cases hf : framed (s.mem d (pdx a)) with
    | none => rw [userMemCheckLoop_missing h hf, userMemCheckLoop_missing h hf]
    | some t =>
      by_cases ht : t < s.npages
      · rw [userMemCheckLoop_fail h hf ht (hstop h), userMemCheckLoop_fail h hf ht (hstop h)]
      · rw [userMemCheckLoop_beyond h hf ht, userMemCheckLoop_beyond h hf ht]
  · rw [userMemCheckLoop_done h, userMemCheckLoop_done h]

/-- **The loop ends.**  A larger bound on its rounds changes nothing. -/
theorem userMemCheckLoop_ends (hend : endVa.toNat + 4096 ≤ 2 ^ 32) {fuel : Nat}
    (hfuel : 2 ^ 20 ≤ fuel) : (userMemCheckLoop d endVa perm fuel).run ⟨s.checkingAt va, l⟩ =
      (userMemCheckLoop d endVa perm (2 ^ 20)).run ⟨s.checkingAt va, l⟩ := by
  obtain ⟨n, hn⟩ := exists_stopsAt s d perm va endVa
  obtain ⟨rest, hrest⟩ := userMemCheckLoop_stopsAt (l := l) hend hn hfuel
  obtain ⟨rest', hrest'⟩ := userMemCheckLoop_stopsAt (l := l) hend hn (Nat.le_refl (2 ^ 20))
  rw [hrest, hrest', userMemCheckLoop_last (hn.last hend) rest rest']

/-! ## The whole check -/

theorem userMemCheckErr_first (pte : Option PtePtr) :
    (userMemCheckErr va pte).run ⟨s.checkingAt va, l⟩ = .ok (-eFault) ⟨s.checkingAt va, l⟩ := by
  rw [userMemCheckErr, run_bind_ok (lift_ok (EStateM.run_get _))]
  exact congrArg (fun m => EStateM.run m _) (if_neg (not_not_intro rfl))

/-- Anywhere else the entry is read. -/
theorem userMemCheckErr_later {a : Word} (ha : a ≠ va) (pte : Option PtePtr) :
    (userMemCheckErr va pte).run ⟨s.checkingAt a, l⟩ = EStateM.run (do
      let w ← derefPte pte
      lift (modify fun s => { s with userMemCheckAddr := w })
      return -eFault) ⟨s.checkingAt a, l⟩ := by
  rw [userMemCheckErr, run_bind_ok (lift_ok (EStateM.run_get _))]
  exact congrArg (fun m => EStateM.run m _) (if_pos ha)

variable {e : EnvIndex}

theorem visited_ne (hn : StopsAt s d perm va (roundUp (va + len) pgsize) n) (hn0 : 0 < n) :
    visited va n ≠ va := by
  intro h
  have hend := roundUp_room (va + len)
  have hb := (hn.before (n - 1) (by omega)).1
  have := congrArg BitVec.toNat h
  rw [visited_toNat (by omega)] at this
  omega

/-- What follows the loop. -/
def conclude (va : Word) : Option (Option PtePtr) → Watch Word
  | none => return 0#32
  | some pte => userMemCheckErr va pte

theorem userMemCheck_run (hd : (s.envs e).envPgdir = some d)
    (hn : StopsAt s d (perm ||| pteP) va (roundUp (va + len) pgsize) n) : ∃ rest,
    (userMemCheck e va len perm).run ⟨s, l⟩ =
      EStateM.run (userMemCheckLoop d (roundUp (va + len) pgsize) (perm ||| pteP) (rest + 1) >>=
        conclude va) ⟨s.checkingAt (visited va n), l ++ walks va n⟩ := by
  obtain ⟨rest, hrest⟩ :=
    userMemCheckLoop_stopsAt (l := l) (roundUp_room _) hn (Nat.le_refl (2 ^ 20))
  refine ⟨rest, ?_⟩
  rw [EStateM.run_bind, ← hrest, ← EStateM.run_bind, userMemCheck,
    run_bind_ok (lift_ok (EStateM.run_modify _ _)), EStateM.run_bind, EStateM.run_bind]
  have hpages : (userMemCheckPages e (roundUp (va + len) pgsize) (perm ||| pteP)).run
      ⟨s.checkingAt va, l⟩ = (userMemCheckLoop d (roundUp (va + len) pgsize) (perm ||| pteP)
        (2 ^ 20)).run ⟨s.checkingAt va, l⟩ := by
    rw [userMemCheckPages, run_bind_ok (lift_ok (EStateM.run_get _))]
    by_cases h : va < roundUp (va + len) pgsize
    · have hif : (s.checkingAt va).userMemCheckAddr < roundUp (va + len) pgsize := h
      have hderef : (derefPgdir ((s.checkingAt va).envs e).envPgdir).run (s.checkingAt va) =
          .ok d (s.checkingAt va) := by
        rw [show ((s.checkingAt va).envs e).envPgdir = some d from hd]
        rfl
      rw [if_pos hif, run_bind_ok (lift_ok (EStateM.run_get _)), run_bind_ok (lift_ok hderef)]
    · have hif : ¬ (s.checkingAt va).userMemCheckAddr < roundUp (va + len) pgsize := h
      rw [if_neg hif, userMemCheckLoop_done h]
      rfl
  rw [show (⟨{ s with userMemCheckAddr := va }, l⟩ : Traced Kernel Access) = ⟨s.checkingAt va, l⟩
    from rfl, hpages]
  generalize (userMemCheckLoop d _ _ (2 ^ 20)).run _ = r
  cases r with
  | error x g => rfl
  | ok pte g =>
    cases pte with
    | none => rfl
    | some pte => rfl

section

variable (hd : (s.envs e).envPgdir = some d)
  (hn : StopsAt s d (perm ||| pteP) va (roundUp (va + len) pgsize) n)
include hd hn

/-- Every round passes. -/
theorem userMemCheck_passed (hge : ¬ visited va n < roundUp (va + len) pgsize) :
    (userMemCheck e va len perm).run ⟨s, []⟩ =
      .ok 0#32 ⟨s.checkingAt (visited va n), walks va n⟩ := by
  obtain ⟨rest, hrun⟩ := userMemCheck_run (l := []) hd hn
  rw [hrun, run_bind_ok (userMemCheckLoop_done hge _)]
  rfl

variable (hlt : visited va n < roundUp (va + len) pgsize)
include hlt

theorem userMemCheck_beyond {t : Nat} (hf : framed (s.mem d (pdx (visited va n))) = some t)
    (ht : ¬ t < s.npages) : (userMemCheck e va len perm).run ⟨s, []⟩ =
      .error (.panic "KADDR called with invalid pa")
        ⟨s.checkingAt (visited va n), walks va (n + 1)⟩ := by
  obtain ⟨rest, hrun⟩ := userMemCheck_run (l := []) hd hn
  rw [hrun, run_bind_error (userMemCheckLoop_beyond hlt hf ht _), walks_succ]
  rfl

/-- The first address is the erroneous one. -/
theorem userMemCheck_first (h0 : n = 0)
    (hpage : ∀ t, framed (s.mem d (pdx va)) = some t → t < s.npages) :
    (userMemCheck e va len perm).run ⟨s, []⟩ = .ok (-eFault) ⟨s.checkingAt va, walks va 1⟩ := by
  subst h0
  obtain ⟨rest, hrun⟩ := userMemCheck_run (l := []) hd hn
  have hno := hn.last (roundUp_room _) hlt
  rw [visited_zero] at hlt hno hrun
  have hw : walks va 0 ++ [Access.walk va] = walks va 1 := by
    rw [walks_succ, visited_zero]
  have hloop : ∃ pte, (userMemCheckLoop d (roundUp (va + len) pgsize) (perm ||| pteP)
      (rest + 1)).run ⟨s.checkingAt va, [] ++ walks va 0⟩ =
        .ok (some pte) ⟨s.checkingAt va, walks va 1⟩ := by
    cases hf : framed (s.mem d (pdx va)) with
    | none => exact ⟨_, (userMemCheckLoop_missing hlt hf _).trans (by rw [List.nil_append, hw])⟩
    | some t =>
      exact ⟨_, (userMemCheckLoop_fail hlt hf (hpage t hf) hno _).trans
        (by rw [List.nil_append, hw])⟩
  obtain ⟨pte, hloop⟩ := hloop
  rw [hrun, run_bind_ok hloop, conclude, userMemCheckErr_first]

variable (hn0 : 0 < n)
include hn0

/-- A later address, with a page table: what is reported is the entry. -/
theorem userMemCheck_later {t : Nat} (hf : framed (s.mem d (pdx (visited va n))) = some t)
    (ht : t < s.npages) : (userMemCheck e va len perm).run ⟨s, []⟩ =
      .ok (-eFault) ⟨s.checkingAt (s.mem t (ptx (visited va n))), walks va (n + 1)⟩ := by
  obtain ⟨rest, hrun⟩ := userMemCheck_run (l := []) hd hn
  rw [hrun, run_bind_ok (userMemCheckLoop_fail hlt hf ht (hn.last (roundUp_room _) hlt) _),
    conclude, userMemCheckErr_later (visited_ne hn hn0), walks_succ]
  rfl

/-- A later address, without one. -/
theorem traceOf_userMemCheck_null (hf : framed (s.mem d (pdx (visited va n))) = none) :
    traceOf (userMemCheck e va len perm) s = walks va (n + 1) ++ [.null] := by
  obtain ⟨rest, hrun⟩ := userMemCheck_run (l := []) hd hn
  rw [run_bind_ok (userMemCheckLoop_missing hlt hf _), conclude,
    userMemCheckErr_later (visited_ne hn hn0), derefPte, List.nil_append, ← walks_succ] at hrun
  rw [traceOf, final, hrun]
  simp only [bind_assoc]
  rw [run_bind_ok (tell_run _)]
  cases hk : (kloadWord 0#32).run (s.checkingAt (visited va n)) with
  | ok w s' =>
    rw [run_bind_ok (lift_ok hk)]
    rfl
  | error x s' => rw [run_bind_error (lift_error hk)]

end

end Watch

end Jos
