import Jos.Fork.Start
import Jos.Env.Id

/-!
# How `fork` and `sfork` end

`setPgfaultHandler`, `sys_exofork`, the loops and `startChild`, put together.  After the handler has
been set, there is one thing that decides whether the calls succeed: `forkPages`, the number of
pages that it takes to make the child.
-/

set_option autoImplicit false

namespace Jos

open Kernel Command

variable {res : Nat → Prop} {fl fl' fl₁ : List Nat} {s s' s₁ s₂ s₃ : Kernel} {e c : EnvIndex}
variable {d dc f g p pp t : Nat} {va cid : Word} {i j : Index} {prog : Program}
variable {V : Set (Index × Index)}

/-! ## Environments change, address spaces do not -/

theorem SameSpace.translate {x : EnvIndex} {need : Word} (h : SameSpace s s' x)
    (hd : s.dir x = some d) (hd' : s'.dir x = some d) (hva : va < utop) :
    s'.translate d need va = s.translate d need va :=
  translate_congr hd hd' hva (fun t ht => ⟨(h.table _).trans ht, by rw [h.pde d hd]⟩)
    (h.entry _ _)

/-- Copying leaves the parent's exception stack alone. -/
theorem Copying.translate_stack {sent : Index → Index → Word} {K D : Set (Index × Index)}
    {need : Word} (h : Copying res fl₁ s₁ e c d dc sent K D fl s) (hd : s₁.dir e = some d)
    (hout : (pdx uxstack, ptx uxstack) ∉ K) :
    s.translate d need uxstack = s₁.translate d need uxstack :=
  translate_congr hd ((h.dir e).trans hd) userPage_uxstack.1
    (fun t ht => ⟨(h.table_parent hd _).trans ht, by rw [h.parentDir]⟩) (h.kept _ _ hout)

/-- There is still room in the counts if nothing that `e` maps has gained a reference, or nobody
else refers to it. -/
theorem Kernel.RoomIn.step (hroom : s.RoomIn e V) (h : Inv res fl s) (h' : Inv res fl' s')
    (hstep : ∀ p i j, s'.leaf e i j = some p →
      (∀ k, s'.target k = some p → s.target k = some p) ∨
      ∀ k, s'.target k = some p → k = .page e i j) : s'.RoomIn e V := by
  intro i j p hij hp
  have hcount' : s'.counts p = Ledger.refs s'.target p :=
    h'.ok.ref_eq p (h'.target_res (k := .page e i j) hp)
  rcases hstep p i j hp with hold | hone
  · have hp₀ : s.leaf e i j = some p := hold (Slot.page e i j) hp
    have hcount : s.counts p = Ledger.refs s.target p :=
      h.ok.ref_eq p (h.target_res (k := .page e i j) hp₀)
    have h1 := Ledger.refs_mono hold
    have h2 : Ledger.refsIn (Slot.IsPageOf e) s'.target p ≤
        Ledger.refsIn (Slot.IsPageOf e) s.target p := Ledger.refsIn_mono fun k _ => hold k
    have h3 := hroom i j p hij hp₀
    omega
  · have h1 := Ledger.refs_eq_one (k := Slot.page e i j) hp hone
    have h2 := Ledger.refsIn_le_refs (Slot.IsPageOf e) s'.target p
    omega

theorem Kernel.room_iff : s.Room e ↔ s.RoomIn e Set.univ := by
  refine ⟨fun h => h.roomIn _, fun h p => ?_⟩
  by_cases hpos : 0 < Ledger.refsIn (Slot.IsPageOf e) s.target p
  · obtain ⟨k, hk, hkp⟩ := Ledger.refsIn_pos.1 hpos
    match k, hk with
    | .page x i j, hk =>
      obtain rfl : x = e := hk
      exact h i j p (Set.mem_univ _) hkp
  · have hlt : (s.pages p).ppRef.toNat < 2 ^ 16 := (s.pages p).ppRef.isLt
    have hcount : s.counts p = (s.pages p).ppRef.toNat := rfl
    omega

theorem Kernel.Room.step (hroom : s.Room e) (h : Inv res fl s) (h' : Inv res fl' s')
    (hstep : ∀ p i j, s'.leaf e i j = some p →
      (∀ k, s'.target k = some p → s.target k = some p) ∨
      ∀ k, s'.target k = some p → k = .page e i j) : s'.Room e :=
  room_iff.2 ((room_iff.1 hroom).step h h' hstep)

/-! ## `set_pgfault_handler` -/

/-- How many pages are freed when the page at `va` is replaced. -/
def Kernel.freedAt (s : Kernel) (e : EnvIndex) (va : Word) : Nat :=
  match s.leaf e (pdx va) (ptx va) with
  | some q => if s.counts q = 1 then 1 else 0
  | none => 0

/-- How many pages are freed when the page at `va` is replaced, after the page at `w` has been. -/
def Kernel.freedAfter (s : Kernel) (e : EnvIndex) (w va : Word) : Nat :=
  match s.leaf e (pdx va) (ptx va) with
  | some q => if s.counts q = if s.leaf e (pdx w) (ptx w) = some q then 2 else 1 then 1 else 0
  | none => 0

theorem Inv.counts_leaf (h : Inv res fl s) (hp : s.leaf e i j = some p) :
    s.counts p = Ledger.refs s.target p := h.ok.ref_eq p (h.target_res (k := .page e i j) hp)

/-- It depends on what refers to the page. -/
theorem freedAt_congr (h : Inv res fl s) (h' : Inv res fl' s')
    (hleaf : s'.leaf e (pdx va) (ptx va) = s.leaf e (pdx va) (ptx va))
    (hslots : ∀ q, s.leaf e (pdx va) (ptx va) = some q →
      ∀ k, s'.target k = some q ↔ s.target k = some q) : s'.freedAt e va = s.freedAt e va := by
  rw [Kernel.freedAt, Kernel.freedAt, hleaf]
  cases hq : s.leaf e (pdx va) (ptx va) with
  | none => rfl
  | some q =>
    dsimp only
    rw [h.counts_leaf hq, h'.counts_leaf (hleaf.trans hq), Ledger.refs_congr (hslots q hq)]

/-- Once the page at `w` has been replaced. -/
theorem freedAt_replaced {w : Word} (h : Inv res fl s) (h' : Inv res fl' s')
    (hleaf : s'.leaf e (pdx va) (ptx va) = s.leaf e (pdx va) (ptx va))
    (hslots : ∀ q, s.leaf e (pdx va) (ptx va) = some q → s'.leaf e (pdx w) (ptx w) ≠ some q ∧
      ∀ k, k ≠ .page e (pdx w) (ptx w) → (s'.target k = some q ↔ s.target k = some q)) :
    s'.freedAt e va = s.freedAfter e w va := by
  rw [Kernel.freedAt, Kernel.freedAfter, hleaf]
  cases hq : s.leaf e (pdx va) (ptx va) with
  | none => rfl
  | some q =>
    obtain ⟨hout, hother⟩ := hslots q hq
    have hrefs := Ledger.refs_of_other (Slot.page e (pdx w) (ptx w)) hout hother
    rw [← h.counts_leaf hq, ← h'.counts_leaf (hleaf.trans hq)] at hrefs
    dsimp only
    by_cases hw : s.leaf e (pdx w) (ptx w) = some q
    · rw [if_pos (show s.target (.page e (pdx w) (ptx w)) = some q from hw)] at hrefs
      rw [if_pos hw, ← hrefs]
      exact if_congr (by omega) rfl rfl
    · rw [if_neg (show ¬ s.target (.page e (pdx w) (ptx w)) = some q from hw)] at hrefs
      rw [if_neg hw, ← hrefs, Nat.add_zero]

/-- How many pages are free once the handler is set, of the pages `fl`. -/
def Kernel.freeWithHandler (s : Kernel) (e : EnvIndex) (prog : Program) (fl : List Nat) : Nat :=
  if prog.pgfaultHandler = 0#32 then
    fl.length + s.freedAt e uxstack - (1 + s.tablesFor e uxstack)
  else fl.length

/-- `setPgfaultHandler` has returned in state `s'`. -/
structure Handled (res : Nat → Prop) (fl : List Nat) (s : Kernel) (e : EnvIndex) (d : Nat)
    (prog : Program) (fl' : List Nat) (s' : Kernel) : Prop where
  run : Running res fl' s' e d
  room : s'.RoomIn e forkRange
  envFree : s'.envFreeList = s.envFreeList
  envs : ∀ x, x ≠ e → s'.envs x = s.envs x
  self : (s'.envs e).envId = (s.envs e).envId ∧ (s'.envs e).envStatus = (s.envs e).envStatus
  others : ∀ x, x ≠ e → SameSpace s s' x
  entry : ∀ i j, ¬ IsPage uxstack i j → s'.entry e i j = s.entry e i j
  kept : ∀ i t, s.table e i = some t → s'.table e i = some t ∧ s'.mem d i = s.mem d i
  tempTable : s'.tablesFor e pftemp = s.tablesFor e pftemp
  tempFreed : s'.freedAt e pftemp =
    if prog.pgfaultHandler = 0#32 then s.freedAfter e uxstack pftemp else s.freedAt e pftemp
  data : ∀ p, s.IsData fl p → s'.mem p = s.mem p
  free : fl'.length = s.freeWithHandler e prog fl
  /-- The exception stack is the one there was, or a new page. -/
  stack : prog.pgfaultHandler ≠ 0#32 ∧ s' = s ∨ prog.pgfaultHandler = 0#32 ∧ ∃ pp ∈ fl,
    s'.entry e (pdx uxstack) (ptx uxstack) = page2pa pp ||| pteP ||| userPerm ∧
    s'.mem pp = fun _ => 0#32

/-- Checking memory of the current environment changes nothing, or it is the end of it. -/
theorem userMemAssert_self (h : Inv res fl s) (hc : s.curenv = some e)
    (hlive : (s.envs e).envStatus ≠ .free) {va len perm : Word}
    (hrun : (userMemAssert e va len perm).run s = .ok () s') : Peek s s' := by
  have hpeek := userMemCheck_peek e va len (perm ||| pteU)
  obtain ⟨r, t, hcheck, hrest⟩ := ok_of_bind hrun
  have hp : Peek s t := hpeek.of_ok hcheck
  have hc' : t.curenv = some e := by
    rw [hp]
    exact hc
  by_cases hneg : r.toInt < 0
  · rw [if_pos hneg] at hrest
    rcases (Peek.inv hp h).envDestroy_spec (by rw [hp]; exact hlive) with
      ⟨-, hne, -⟩ | ⟨s₁, fl₁, -, -, -, -, ⟨hne, -⟩ | ⟨-, x, s₂, herr, -⟩⟩
    · exact absurd hc' hne
    · exact absurd hc' hne
    · rw [herr] at hrest
      cases hrest
  · rw [if_neg hneg] at hrest
    cases hrest
    exact hp

/-! ## A new page -/

section

variable {rest : List Nat} {perm : Word}

theorem PagePut.memOnly_cleared (hput : PagePut res rest (s.cleared pp) e d va perm pp fl₁ s₁) :
    MemOnly s s₁ :=
  MemOnly.trans _ _ _ (show MemOnly s (s.cleared pp) from rfl) hput.inserted.edited.memOnly

variable (h : Running res (pp :: rest) s e d)
variable (hput : PagePut res rest (s.cleared pp) e d va perm pp fl₁ s₁)
include h hput

theorem Running.put_entry (hij : ¬ IsPage va i j) : s₁.entry e i j = s.entry e i j := by
  rw [hput.entry_other fun hh => hij hh.2, h.inv.cleared.2.2.2]

theorem Running.put_leaf (hperm : IsPerm perm) : s₁.leaf e (pdx va) (ptx va) = some pp := by
  rw [leaf_eq_framed, hput.entry_self]
  exact framed_entry (Inv.lt_pow s (h.inv.free_lt List.mem_cons_self)) hperm

/-- What is mapped elsewhere is mapped as before. -/
theorem Running.put_target (hperm : IsPerm perm) {k : Slot} (hk : ¬ k.IsNode)
    (hne : k ≠ .page e (pdx va) (ptx va)) : s₁.target k = s.target k := by
  have hpp : pp < 2 ^ 20 := Inv.lt_pow s (h.inv.free_lt List.mem_cons_self)
  rw [hput.target_page hpp hperm hk, if_neg hne, h.inv.cleared.2.2.1]

theorem Running.put_kept {i : Index} {t : Nat} (ht : s.table e i = some t) :
    s₁.table e i = some t ∧ s₁.mem d i = s.mem d i := by
  have hsame := SameSpace.cleared h.inv e
  obtain ⟨ht', hm⟩ := hput.table_kept h.dir ((hsame.table i).trans ht)
  exact ⟨ht', by rw [hm, hsame.pde d h.dir]⟩

theorem Running.put_running : Running res fl₁ s₁ e d :=
  h.of_memOnly hput.memOnly_cleared hput.inv
    (hput.linked h.dir ((SameSpace.cleared h.inv e).linked h.dir h.tables))

/-- The page is mapped nowhere else. -/
theorem Running.put_room (hperm : IsPerm perm) (hroom : s.RoomIn e V) : s₁.RoomIn e V := by
  have hleaf := h.put_leaf hput hperm
  have hnode : ∀ k p i j, s₁.leaf e i j = some p → s₁.target k = some p → ¬ k.IsNode := by
    intro k p i j hp hk hn
    exact (hput.inv.isData_leaf hp).2 k hn hk
  refine hroom.step h.inv hput.inv fun p i j hp => ?_
  by_cases hij : IsPage va i j
  · obtain ⟨rfl, rfl⟩ := hij
    obtain rfl : p = pp := Option.some_inj.1 (hp.symm.trans hleaf)
    refine Or.inr fun k hk => ?_
    by_contra hne
    have hold := h.put_target hput hperm (hnode k p _ _ hp hk) hne
    exact h.inv.ok.free_unref p List.mem_cons_self k (hold.symm.trans hk)
  · refine Or.inl fun k hk => ?_
    have hold : s.leaf e i j = some p := by
      rw [leaf_eq_framed, ← h.put_entry hput hij, ← leaf_eq_framed, hp]
    have hne : k ≠ .page e (pdx va) (ptx va) := by
      rintro rfl
      obtain rfl : pp = p := Option.some_inj.1 (hleaf.symm.trans hk)
      exact h.inv.ok.free_unref pp List.mem_cons_self (.page e i j) hold
    exact (h.put_target hput hperm (hnode k p i j hp hk) hne).symm.trans hk

theorem Running.put_data {p : Nat} (hp : s.IsData (pp :: rest) p) : s₁.mem p = s.mem p := by
  have hp₀ : (s.cleared pp).IsData rest p :=
    ⟨fun hm => hp.1 (List.mem_cons_of_mem _ hm), fun k hk hkp =>
      hp.2 k hk ((congrFun h.inv.cleared.2.2.1 k).symm.trans hkp)⟩
  have hne : p ≠ pp := by
    rintro rfl
    exact hp.1 List.mem_cons_self
  rw [hput.inserted.edited.data p hp₀, Kernel.cleared, fill_mem_ne _ _ _ hne]
  rfl

theorem Running.put_zero : s₁.mem pp = fun _ => 0#32 := by
  have hfresh := h.inv.cleared.2.1
  rw [hput.inserted.edited.data pp ⟨hfresh.not_free, fun k _ => hfresh.unref k⟩, Kernel.cleared,
    fill_mem, Function.update_self]

/-- How many pages are free then. -/
theorem Running.put_free : fl₁.length + s.tablesFor e va = rest.length + s.freedAt e va := by
  have hsame := SameSpace.cleared h.inv e
  rw [Kernel.freedAt, Kernel.tablesFor]
  cases ht : s.table e (pdx va) with
  | none =>
    obtain ⟨t, rfl, -⟩ := hput.missing ((hsame.table _).trans ht)
    rw [leaf_eq_none ht, if_pos rfl, List.length_cons]
    rfl
  | some t =>
    have hsome : (s.cleared pp).table e (pdx va) ≠ none := by
      rw [hsame.table, ht]
      simp
    have hcounts : (s.cleared pp).counts = s.counts := counts_congr rfl
    rw [(hput.present hsome).2, hsame.leaf, hcounts, if_neg (by simp)]
    cases hq : s.leaf e (pdx va) (ptx va) with
    | none => rfl
    | some q =>
      have hqp : q ≠ pp := h.inv.free_ne (k := .page e (pdx va) (ptx va)) List.mem_cons_self hq
      rw [released]
      by_cases hc : s.counts q = 1
      · rw [if_pos ⟨hqp, hc⟩, List.length_cons]
        simp only [if_pos hc, Nat.add_zero]
      · rw [if_neg fun hh => hc hh.2]
        simp only [if_neg hc]

/-- What is mapped elsewhere is referred to as before, except by the page that has been replaced. -/
theorem Running.put_slots (hperm : IsPerm perm) {q : Nat} (hne : ¬ IsPage va i j)
    (hq : s.leaf e i j = some q) : s₁.leaf e (pdx va) (ptx va) ≠ some q ∧
      ∀ k, k ≠ .page e (pdx va) (ptx va) → (s₁.target k = some q ↔ s.target k = some q) := by
  have hleaf := h.put_leaf hput hperm
  have hq₁ : s₁.leaf e i j = some q := by
    rw [leaf_eq_framed, h.put_entry hput hne, ← leaf_eq_framed, hq]
  have hqp : q ≠ pp := h.inv.free_ne (k := .page e i j) List.mem_cons_self hq
  refine ⟨fun hh => hqp (Option.some_inj.1 (hh.symm.trans hleaf)), fun k hk => ?_⟩
  by_cases hn : k.IsNode
  · exact iff_of_false ((hput.inv.isData_leaf hq₁).2 k hn) ((h.inv.isData_leaf hq).2 k hn)
  · rw [h.put_target hput hperm hn hk]

/-- How many pages the replacement of another page frees then. -/
theorem Running.put_freedAt (hperm : IsPerm perm) {w : Word} (hne : ¬ IsPage va (pdx w) (ptx w)) :
    s₁.freedAt e w = s.freedAfter e va w :=
  freedAt_replaced h.inv hput.inv (by rw [leaf_eq_framed, h.put_entry hput hne, leaf_eq_framed])
    fun _ hq => h.put_slots hput hperm hne hq

end

/-- The parent's exception stack is a new page. -/
theorem Running.stack_mapped {rest : List Nat} (h : Running res (pp :: rest) s e d)
    (hroom : s.RoomIn e forkRange) (h0 : prog.pgfaultHandler = 0#32)
    (hput : PagePut res rest (s.cleared pp) e d uxstack userPerm pp fl₁ s₁) :
    Handled res (pp :: rest) s e d prog fl₁ s₁ := by
  have hmo := hput.memOnly_cleared
  have hsame := SameSpace.cleared h.inv
  have hne : ¬ pdx pftemp = pdx uxstack := by decide
  refine
    { run := h.put_running hput
      room := h.put_room hput (by decide) hroom
      envFree := hmo.envFreeList
      envs := fun x _ => congrFun hmo.envs x
      self := by rw [hmo.envs]; exact ⟨rfl, rfl⟩
      others := fun x hx => (hsame x).trans (show (s.cleared pp).envs = s.envs from rfl)
        (SameSpace.of_frame hput.inserted.edited.frame hx)
      entry := fun i j hij => h.put_entry hput hij
      kept := fun i t ht => h.put_kept hput ht
      tempTable := ?_
      tempFreed := ?_
      data := fun p hp => h.put_data hput hp
      free := ?_
      stack := Or.inr ⟨h0, pp, List.mem_cons_self, hput.entry_self, h.put_zero hput⟩ }
  · rw [Kernel.tablesFor, hput.table h.dir fun hh => absurd hh hne, (hsame e).table,
      Kernel.tablesFor]
  · rw [if_pos h0]
    exact h.put_freedAt hput (by decide) fun hh => hne hh.1
  · have hfree := h.put_free hput
    rw [Kernel.freeWithHandler, if_pos h0, List.length_cons]
    omega

/-- Then the kernel is told about the handler. -/
theorem Handled.upcall {func a cid : Word} (h : Handled res fl s e d prog fl₁ s₁)
    (h0 : prog.pgfaultHandler = 0#32) (hid : s₁.resolve e cid = some e)
    (hrun : (sysEnvSetPgfaultUpcall cid func).run s₁ = .ok a s') :
    Handled res fl s e d prog fl₁ s' := by
  rw [sysEnvSetPgfaultUpcall_some h.run.current hid] at hrun
  obtain ⟨⟨⟩, t, hassert, hret⟩ := ok_of_bind hrun
  cases hret
  have hinv : Inv res fl₁ (s₁.setEnv e { s₁.envs e with envPgfaultUpcall := func }) :=
    h.run.inv.of_setEnv rfl rfl Iff.rfl
  have hp := userMemAssert_self hinv h.run.current (by
    rw [setEnv_envs, Function.update_self]
    exact h.run.live) hassert
  have hmem : s'.mem = s₁.mem := by rw [hp]; rfl
  have henvs : s'.envs = Function.update s₁.envs e { s₁.envs e with envPgfaultUpcall := func } := by
    rw [hp]
    rfl
  have hee : s'.envs e = { s₁.envs e with envPgfaultUpcall := func } := by
    rw [henvs, Function.update_self]
  have hother : ∀ x, x ≠ e → s'.envs x = s₁.envs x := fun x hx => by
    rw [henvs, Function.update_of_ne hx]
  have hdir : ∀ x, s'.dir x = s₁.dir x := by
    intro x
    by_cases hx : x = e
    · subst hx
      rw [Kernel.dir, hee, Kernel.dir]
    · exact dir_congr (hother x hx)
  have hspace := SameSpace.of_dir hmem hdir
  have htgt := target_of_dir hmem hdir
  have hinv' := Peek.inv hp hinv
  refine
    { run :=
        { inv := hinv'
          current := by rw [hp]; exact h.run.current
          dir := (hdir e).trans h.run.dir
          loaded := by rw [hp]; exact h.run.loaded
          id := by rw [hee]; exact h.run.id
          tables := (hspace e).linked h.run.dir h.run.tables }
      room := h.room.step h.run.inv hinv' fun p i j _ => Or.inl fun k hk => by rwa [htgt] at hk
      envFree := by rw [hp]; exact h.envFree
      envs := fun x hx => (hother x hx).trans (h.envs x hx)
      self := by rw [hee]; exact h.self
      others := fun x hx => ⟨fun d hd => by rw [hmem, (h.others x hx).pde d hd],
        fun i => ((hspace x).table i).trans ((h.others x hx).table i),
        fun i j => ((hspace x).entry i j).trans ((h.others x hx).entry i j)⟩
      entry := fun i j hij => ((hspace e).entry i j).trans (h.entry i j hij)
      kept := fun i t ht => ⟨((hspace e).table i).trans (h.kept i t ht).1, by
        rw [hmem, (h.kept i t ht).2]⟩
      tempTable := by rw [Kernel.tablesFor, (hspace e).table]; exact h.tempTable
      tempFreed := by
        rw [← h.tempFreed]
        exact freedAt_congr h.run.inv hinv' ((hspace e).leaf _ _) fun q _ k => by rw [htgt]
      data := fun p hp => by rw [hmem, h.data p hp]
      free := h.free
      stack := ?_ }
  rcases h.stack with ⟨hne, -⟩ | ⟨-, pp, hpp, hentry, hzero⟩
  · exact absurd h0 hne
  · exact Or.inr ⟨h0, pp, hpp, ((hspace e).entry _ _).trans hentry, by rw [hmem, hzero]⟩

/-- **`set_pgfault_handler`.** -/
theorem Running.setPgfaultHandler (h : Running res fl s e d) (hroom : s.RoomIn e forkRange)
    (hrun : (setPgfaultHandler prog).run s = .ok () s') :
    ∃ fl', Handled res fl s e d prog fl' s' := by
  rw [Jos.setPgfaultHandler] at hrun
  by_cases h0 : prog.pgfaultHandler = 0#32
  · have hperm : PermOk (pteP ||| pteU ||| pteW) := by decide
    have hpp : pteP ||| pteU ||| pteW = userPerm := by decide
    rw [if_pos h0, run_bind_ok h.getenvid, ← uxstack] at hrun
    rcases h.inv.sysPageAlloc_put h.current h.resolve_self h.dir userPage_uxstack hperm with
      ⟨s₀, halloc, -, -⟩ | ⟨pp, rest, fl₁, s₁, rfl, halloc, hput⟩
    · rw [run_bind_ok (checked_ok halloc eNoMem_not_pos), if_pos (by decide)] at hrun
      cases hrun
    rw [run_bind_ok (checked_ok halloc zero_not_pos), if_neg (not_not.2 rfl)] at hrun
    obtain ⟨a, t, hup, hrest⟩ := ok_of_bind hrun
    cases hrest
    rw [hpp] at hput
    have hset := h.stack_mapped hroom h0 hput
    have hid : s₁.resolve e (s.envs e).envId = some e := by
      have hself := hset.run.resolve_self
      rwa [hset.self.1] at hself
    exact ⟨fl₁, hset.upcall h0 hid (checked_inv hup)⟩
  · rw [if_neg h0] at hrun
    cases hrun
    refine ⟨fl, h, hroom, rfl, fun x _ => rfl, ⟨rfl, rfl⟩, fun x _ => ⟨fun _ _ => rfl,
      fun _ => rfl, fun _ _ => rfl⟩, fun i j _ => rfl, fun i t ht => ⟨ht, rfl⟩, rfl,
      (if_neg h0).symm, fun p _ => rfl, ?_, Or.inl ⟨h0, rfl⟩⟩
    rw [Kernel.freeWithHandler, if_neg h0]

/-! ## `sys_exofork` -/

theorem forked_same (h : Inv res (p :: fl) s) (hc : s.envFreeList = some c) (cur : EnvIndex) :
    (s.forked cur c p).target = Function.update s.target (.dir c) (some p) := by
  rw [← (h.newEnv_target hc (s.envs cur).envId).1]
  refine target_of_dir rfl fun x => ?_
  have henvs := (newEnv_memOnly s c p (s.envs cur).envId).envs
  have henvs' := forked_envs s cur c p
  by_cases hx : x = c
  · subst hx
    simp [Kernel.dir, henvs, henvs', childEnv, allocated, allocatedEnv]
  · refine dir_congr ?_
    rw [henvs, henvs', Function.update_of_ne hx]
    exact (Function.update_of_ne hx _ _).symm

/-- **`sys_exofork`** leaves a child without a page table. -/
theorem Running.begun (h : Running res (p :: fl) s e d) (hroom : s.RoomIn e forkRange)
    (hc : s.envFreeList = some c) : Begun res fl (s.forked e c p) e c d p
      (nextEnvId (s.envs c).envId c) := by
  obtain ⟨hinv, -, hframe⟩ := h.inv.forked hc e
  have htgt := forked_same h.inv hc e
  have hfree := h.inv.free_head hc
  have hne : c ≠ e := by
    rintro rfl
    exact h.live hfree
  have hec : ¬ e = c := fun hh => hne hh.symm
  have henvs := forked_envs s e c p
  have hee : (s.forked e c p).envs e = s.envs e := by rw [henvs, Function.update_of_ne hec]
  have hcc : (s.forked e c p).envs c = s.childEnv e c p := by rw [henvs, Function.update_self]
  have hsame : SameSpace s (s.forked e c p) e := SameSpace.of_frame hframe hec
  refine ⟨⟨hinv, (forked_curenv s e c p).trans h.current, (congrFun htgt (.dir e)).trans ?_, ?_,
    by rw [hee]; exact h.id, hsame.linked h.dir h.tables⟩, hne, ?_, fun i => ?_, ?_, ?_⟩
  · rw [Function.update_of_ne (by simpa using hec)]
    exact h.dir
  · rw [forked_cr3, forked_cpunum]
    exact h.loaded
  · exact (congrFun htgt (.dir c)).trans (Function.update_self _ _ _)
  · refine (congrFun htgt (.table c i)).trans ?_
    rw [Function.update_of_ne (by simp)]
    refine table_eq_none ?_ i
    rw [Kernel.dir, if_pos hfree]
  · have hpos := nextEnvId_pos (s.envs c).envId c
    have h0 : nextEnvId (s.envs c).envId c ≠ 0#32 := by
      intro hh
      rw [hh] at hpos
      exact absurd hpos (by decide)
    rw [Kernel.resolve, if_neg h0]
    dsimp only
    rw [envx_nextEnvId, hcc, hee, if_neg, if_neg]
    · exact fun hh => hh.2 rfl
    · exact fun hh => hh.elim (fun hst => EnvStatus.noConfusion hst) fun hh => hh rfl
  · refine hroom.step h.inv hinv fun q i j hq => Or.inl fun k hk => ?_
    rw [htgt] at hk
    by_cases hkc : k = .dir c
    · subst hkc
      rw [Function.update_self] at hk
      obtain rfl := Option.some_inj.1 hk
      have hq' : s.target (.page e i j) = some p := (hsame.leaf i j).symm.trans hq
      exact absurd hq' (h.inv.ok.free_unref p List.mem_cons_self (.page e i j))
    · rwa [Function.update_of_ne hkc] at hk

/-! ## After the handler has been set -/

/-- What `fork` and `sfork` do when the handler is set. -/
def forkChild (page : Word → Nat → UserM Bool) (prog : Program) (myenvid : Word) : UserM Word := do
  let envid ← trapInto sysExofork
  if envid.toInt < 0 then
    return -1#32
  if envid = 0#32 then
    return envid
  if ← scanPdes (page envid) scanRange then
    startChild prog myenvid envid
  else
    return -1#32

section

variable {page : Word → Nat → UserM Bool}

/-- There is no room for another environment. -/
theorem Running.forkChild_none (h : Running res fl s e d) (hno : s.envFreeList = none ∨ fl = []) :
    (forkChild page prog (s.envs e).envId).run s = .ok (-1#32) s := by
  obtain ⟨r, s', hexo, ⟨hneg, rfl⟩ | ⟨c, p, fl', hfl, hc, -⟩⟩ :=
    h.inv.sysExofork_spec h.current h.live
  · rw [forkChild, run_bind_ok (trapInto_ok hexo), if_pos hneg]
    rfl
  · rcases hno with hno | hno
    · exact absurd (hc.symm.trans hno) (by simp)
    · exact absurd (hfl.symm.trans hno) (by simp)

/-- There is, and the loops begin. -/
theorem Running.forkChild_begun (h : Running res (p :: fl) s e d) (hroom : s.RoomIn e forkRange)
    (hc : s.envFreeList = some c) :
    (forkChild page prog (s.envs e).envId).run s = EStateM.run (do
      if ← scanPdes (page (nextEnvId (s.envs c).envId c)) scanRange then
        startChild prog (s.envs e).envId (nextEnvId (s.envs c).envId c)
      else
        return -1#32) (s.forked e c p) := by
  have hb := h.begun hroom hc
  have hpos := nextEnvId_pos (s.envs c).envId c
  have hexo := sysExofork_run h.current hc h.inv.chain.1 (h.inv.free_lt List.mem_cons_self)
    fun hh => hb.ne hh.symm
  have h0 : ¬ nextEnvId (s.envs c).envId c = 0#32 := by
    intro hh
    rw [hh] at hpos
    exact absurd hpos (by decide)
  rw [forkChild, run_bind_ok (trapInto_ok hexo), if_neg (by omega), if_neg h0]

end

/-- The pages that it takes to make a child: a directory, the page tables, an exception stack, and a
page table for `PFTEMP` if the parent has none. -/
noncomputable def Kernel.forkPages (s : Kernel) (e : EnvIndex) : Nat :=
  1 + tablesOf (insert (pdx uxstack, ptx uxstack) (forkRange ∩ s.presentPages e)) + 1 +
    s.tablesFor e pftemp

theorem tablesOf_insert (V : Set (Index × Index)) (i j : Index) [Decidable (∃ j, (i, j) ∈ V)] :
    tablesOf (insert (i, j) V) = tablesOf V + if ∃ j, (i, j) ∈ V then 0 else 1 := by
  have hset : {i' : Index | ∃ j', (i', j') ∈ insert (i, j) V} =
      insert i {i' : Index | ∃ j', (i', j') ∈ V} := by
    ext i'
    constructor
    · rintro ⟨j', hj | hj⟩
      · exact Or.inl (Prod.mk.inj hj).1
      · exact Or.inr ⟨j', hj⟩
    · rintro (rfl | ⟨j', hj⟩)
      · exact ⟨j, Or.inl rfl⟩
      · exact ⟨j', Or.inr hj⟩
  rw [tablesOf, hset]
  split
  · next hin =>
    rw [Set.insert_eq_of_mem (show i ∈ {i' : Index | ∃ j', (i', j') ∈ V} from hin)]
    rfl
  · next hout =>
    exact Set.ncard_insert_of_notMem hout (Set.toFinite _)

theorem uxstack_out : (pdx uxstack, ptx uxstack) ∉ forkRange := by
  rw [mem_forkRange]
  exact fun h => h.2 (pgnum_inj (pdx_pgaddr _ _) (ptx_pgaddr _ _))

theorem IsPage.of_range (h : (i, j) ∈ forkRange) : ¬ IsPage uxstack i j := by
  rintro ⟨rfl, rfl⟩
  exact uxstack_out h

/-- The page at `PFTEMP` is not in the range either. -/
theorem pftemp_out (h : (i, j) ∈ forkRange) : ¬ IsPage pftemp i j := by
  rintro ⟨rfl, rfl⟩
  have h1 := (mem_scanRange.1 (mem_forkRange.1 h).1).1
  exact absurd h1 (by decide)

/-- What the whole needs of memory, in terms of what its two halves need. -/
theorem Copying.forkPages_eq {sent : Index → Index → Word} {K D : Set (Index × Index)}
    (hb : Begun res fl₁ s₁ e c d dc cid) (h : Copying res fl₁ s₁ e c d dc sent K D fl s)
    (hent : s₁.presentPages e ∩ forkRange = s'.presentPages e ∩ forkRange)
    (htab : s₁.tablesFor e pftemp = s'.tablesFor e pftemp)
    (hD : D = forkRange ∩ s₁.presentPages e) :
    s'.forkPages e = 1 + tablesOf D + (1 + s.tablesFor c uxstack + s.tablesFor e pftemp) := by
  classical
  have hins := tablesOf_insert D (pdx uxstack) (ptx uxstack)
  have hD' : D = forkRange ∩ s'.presentPages e := by
    rw [hD, Set.inter_comm, hent, Set.inter_comm]
  have hc : s.tablesFor c uxstack = if ∃ j, (pdx uxstack, j) ∈ D then 0 else 1 := by
    rw [Kernel.tablesFor]
    by_cases ht : s.table c (pdx uxstack) = none
    · rw [if_pos ht, if_neg fun hh => (h.used (pdx uxstack)).2 hh ht]
    · rw [if_neg ht, if_pos ((h.used (pdx uxstack)).1 ht)]
  have he : s.tablesFor e pftemp = s'.tablesFor e pftemp := by
    rw [← htab, Kernel.tablesFor, h.table_parent hb.parent.dir, Kernel.tablesFor]
  rw [Kernel.forkPages, ← hD', hins, ← hc, he]
  omega

/-- There is enough for the whole if there is for the second half. -/
theorem Copying.pages_left {sent : Index → Index → Word} {K D : Set (Index × Index)}
    (hb : Begun res fl₁ s₁ e c d dc cid) (h : Copying res fl₁ s₁ e c d dc sent K D fl s)
    (hent : s₁.presentPages e ∩ forkRange = s'.presentPages e ∩ forkRange)
    (htab : s₁.tablesFor e pftemp = s'.tablesFor e pftemp)
    (hD : D = forkRange ∩ s₁.presentPages e) :
    s'.forkPages e ≤ fl₁.length + 1 ↔
      1 + s.tablesFor c uxstack + s.tablesFor e pftemp ≤ fl.length := by
  have hlen := h.length hb
  have hpages := h.forkPages_eq hb hent htab hD
  omega

section

variable {page : Word → Nat → UserM Bool} (sent : Kernel → Index → Index → Word)
variable (M : Kernel → Set (Index × Index))

/-- **The child is made**, up to its page fault handler, or it is known why not. -/
theorem forkChild_run (h : Running res fl s e d) (hroom : s.RoomIn e forkRange) (prog : Program)
    (hpage : ∀ fl₁ c p cid, Begun res fl₁ (s.forked e c p) e c d p cid →
      (∀ i j, (s.forked e c p).leaf e i j = s.leaf e i j) →
      ∀ i j t, (i, j) ∈ forkRange → (s.forked e c p).table e i = some t →
        PageStep res fl₁ (s.forked e c p) e c d p (sent (s.forked e c p)) (M (s.forked e c p))
          (page cid) i j) :
    ((s.envFreeList = none ∨ fl = []) ∧
      (forkChild page prog (s.envs e).envId).run s = .ok (-1#32) s) ∨
    ∃ c p fl₁, fl = p :: fl₁ ∧ s.envFreeList = some c ∧
      Begun res fl₁ (s.forked e c p) e c d p (nextEnvId (s.envs c).envId c) ∧
      ((fl.length < s.forkPages e ∧
          ∃ s', (forkChild page prog (s.envs e).envId).run s = .ok (-1#32) s' ∧
            s'.envs = (s.forked e c p).envs) ∨
        (Refused (s.forked e c p) e (sent (s.forked e c p)) forkRange ∧
          ∃ s', (forkChild page prog (s.envs e).envId).run s = .ok (-1#32) s') ∨
        (s.translate d userWrite uxstack = none ∧
          ∃ x s', (forkChild page prog (s.envs e).envId).run s = .error x s') ∨
        (s.forkPages e ≤ fl.length ∧ ∃ fl₂ s₂ g pp s₃,
          Copying res fl₁ (s.forked e c p) e c d p (sent (s.forked e c p))
            (forkRange ∩ (s.forked e c p).presentPages e ∩ M (s.forked e c p))
            (forkRange ∩ (s.forked e c p).presentPages e) fl₂ s₂ ∧
          Staged res fl₂ s₂ e c d p g pp s₃ ∧
          (∃ fl₃, Inv res fl₃ s₃ ∧ fl.length ≤ fl₃.length + s.forkPages e) ∧
          (forkChild page prog (s.envs e).envId).run s =
            (finishChild prog (nextEnvId (s.envs c).envId c)).run s₃)) := by
  cases hc : s.envFreeList with
  | none => exact Or.inl ⟨Or.inl rfl, h.forkChild_none (Or.inl hc)⟩
  | some c =>
    cases fl with
    | nil => exact Or.inl ⟨Or.inr rfl, h.forkChild_none (Or.inr rfl)⟩
    | cons p fl₁ =>
      have hb := h.begun hroom hc
      refine Or.inr ⟨c, p, fl₁, rfl, rfl, hb, ?_⟩
      have hsame : SameSpace s (s.forked e c p) e :=
        SameSpace.of_frame (h.inv.forked hc e).2.2 fun hh => hb.ne hh.symm
      have hpresent : (s.forked e c p).presentPages e = s.presentPages e := by
        ext ⟨i, j⟩
        exact not_congr (by rw [hsame.leaf])
      have htemp : (s.forked e c p).tablesFor e pftemp = s.tablesFor e pftemp := by
        rw [Kernel.tablesFor, hsame.table, Kernel.tablesFor]
      obtain ⟨b, s₂, hscan, hprog⟩ := scan_run hb (hpage fl₁ c p _ hb hsame.leaf)
      have hrun : (forkChild page prog (s.envs e).envId).run s = EStateM.run
          (if b then startChild prog (s.envs e).envId (nextEnvId (s.envs c).envId c)
            else return -1#32) s₂ := by
        rw [h.forkChild_begun hroom hc, run_bind_ok hscan]
      have hlack : fl₁.length < tablesOf (forkRange ∩ (s.forked e c p).presentPages e) →
          (p :: fl₁).length < s.forkPages e := by
        intro hlt
        have hmono := tablesOf_mono (Set.subset_insert (pdx uxstack, ptx uxstack)
          (forkRange ∩ s.presentPages e))
        rw [hpresent] at hlt
        rw [List.length_cons, Kernel.forkPages]
        omega
      rw [hrun]
      cases b with
      | false =>
        rcases hprog with ⟨D, hcopy, -, hlt⟩ | href
        · exact Or.inl ⟨hlack hlt, s₂, rfl, hcopy.only.envs⟩
        · exact Or.inr (Or.inl ⟨href, s₂, rfl⟩)
      | true =>
        obtain ⟨D, fl₂, hcopy, hD, hrest⟩ := hprog
        have h₂ := hcopy.running hb
        have henvs := hcopy.only.envs
        have hid : (s₂.envs e).envId = (s.envs e).envId := by
          rw [henvs, forked_envs, Function.update_of_ne fun hh => hb.ne hh.symm]
        have hout : (pdx uxstack, ptx uxstack) ∉ D := fun hh => uxstack_out (hD hh)
        have habs : s₂.leaf c (pdx uxstack) (ptx uxstack) = none := by
          rw [leaf_eq_framed, hcopy.absent _ _ hout, framed_zero]
        have hlinked : s₂.Linked c p := by
          intro i t ht
          rw [hcopy.tables i t ht, BitVec.or_assoc, BitVec.or_assoc]
          exact or_and_of_and _ (by decide)
        have hwrite : s₂.translate d userWrite uxstack = s.translate d userWrite uxstack :=
          (hcopy.translate_stack hb.parent.dir fun hh => hout hh.1).trans
            (hsame.translate h.dir hb.parent.dir userPage_uxstack.1)
        have hstart := h₂.startChild_stack prog hb.ne ((hcopy.dir c).trans hb.dir)
          (hcopy.id hb) hlinked habs
        rw [hid, hwrite] at hstart
        rw [if_pos rfl]
        rcases hstart with ⟨hlt, s', hs', hmo⟩ | ⟨hno, x, s', hs'⟩ |
          ⟨hle, g, pp, s₃, hst, ⟨fl₃, hinv₃, hle₃⟩, hs'⟩
        · refine Or.inl ⟨?_, s', hs', hmo.envs.trans henvs⟩
          rcases hrest with hall | ⟨-, hlt'⟩
          · have hiff := hcopy.pages_left hb (by rw [hpresent]) htemp hall
            rw [List.length_cons]
            omega
          · exact hlack hlt'
        · exact Or.inr (Or.inr (Or.inl ⟨hno, x, s', hs'⟩))
        · rcases hrest with hall | ⟨rfl, -⟩
          · have hiff := hcopy.pages_left hb (by rw [hpresent]) htemp hall
            have hlen := hcopy.length hb
            have hpages : s.forkPages e = 1 + tablesOf D +
                (1 + s₂.tablesFor c uxstack + s₂.tablesFor e pftemp) :=
              hcopy.forkPages_eq hb (by rw [hpresent]) htemp hall
            refine Or.inr (Or.inr (Or.inr ⟨by rw [List.length_cons]; omega, fl₂, s₂, g, pp, s₃, ?_,
              hst, ⟨fl₃, hinv₃, by rw [List.length_cons]; omega⟩, hs'⟩))
            rwa [hall] at hcopy
          · rw [List.length_nil] at hle
            omega

end

end Jos
