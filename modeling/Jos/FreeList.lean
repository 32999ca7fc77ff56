import Jos.Alloc.Inv
import Jos.Lib.Tail

/-!
# Low pages first

While the kernel starts, only the first four megabytes are mapped, and `check_page_free_list` of
`kern/pmap.c` moves the pages there to the front of the free list.  It goes through the list once
and hangs each page on one of two others, whose heads are the variables `pp1` and `pp2`, with a
pointer to the last link of each.  In the end one is hung on the other.

The links of the list are overwritten on the way, but none before it has been followed.
-/

set_option autoImplicit false

namespace Jos

/-! ## `check_page_free_list` -/

/-- The kernel, with the local variables: `head false` is `pp1`, `head true` is `pp2`, and `tp` is
`tp`. -/
structure Splitting where
  kernel : Kernel
  head : Bool → Option Nat
  tp : Bool → Loc Bool Nat

/-- `*p = v`. -/
def Splitting.store (s : Splitting) (p : Loc Bool Nat) (v : Option Nat) : Splitting :=
  match p with
  | .head t => { s with head := Function.update s.head t v }
  | .link pp => { s with kernel := s.kernel.setPage pp { s.kernel.pages pp with ppLink := v } }

/-- `pagetype`, where `pdx_limit` is 1. -/
def pagetype (pp : Nat) : Bool := 1 ≤ (pdx (page2pa pp)).val

/-- The loop over the free list; nothing if it goes on for longer. -/
def splitLoop : Nat → Option Nat → Splitting → Option Splitting
  | 0, _, _ => none
  | _ + 1, none, s => some s
  | fuel + 1, some pp, s =>
    let s := s.store (s.tp (pagetype pp)) (some pp)
    let s := { s with tp := Function.update s.tp (pagetype pp) (.link pp) }
    splitLoop fuel (s.kernel.pages pp).ppLink s

/-- What is done if `only_low_memory`; `head` is what happens to be in `pp1` and `pp2`. -/
def splitFreeList (fuel : Nat) (head : Bool → Option Nat) (s : Kernel) : Option Kernel := do
  let t ← splitLoop fuel s.pageFreeList ⟨s, head, .head⟩
  let t := t.store (t.tp true) none
  let t := t.store (t.tp false) (t.head true)
  return { t.kernel with pageFreeList := t.head false }

/-! ## One memory of links -/

namespace Splitting

/-- What is in a location. -/
def val (s : Splitting) : Loc Bool Nat → Option Nat
  | .head t => s.head t
  | .link pp => (s.kernel.pages pp).ppLink

theorem val_store (s : Splitting) (p : Loc Bool Nat) (v : Option Nat) :
    (s.store p v).val = Function.update s.val p v := by
  funext q
  cases p with
  | head t =>
    cases q with
    | head t' =>
      by_cases ht : t' = t
      · subst ht
        rw [Function.update_self]
        exact Function.update_self ..
      · rw [Function.update_of_ne (fun heq => ht (Loc.head.inj heq))]
        exact Function.update_of_ne ht ..
    | link pp => rw [Function.update_of_ne (by simp)]; rfl
  | link pp =>
    cases q with
    | head t => rw [Function.update_of_ne (by simp)]; rfl
    | link pp' =>
      by_cases hp : pp' = pp
      · subst hp
        rw [Function.update_self, store, val, Kernel.setPage]
        dsimp only
        rw [Function.update_self]
      · rw [Function.update_of_ne (fun heq => hp (Loc.link.inj heq)), store, val, val,
          Kernel.setPage]
        dsimp only
        rw [Function.update_of_ne hp]

end Splitting

theorem Splitting.store_tp (s : Splitting) (p : Loc Bool Nat) (v : Option Nat) :
    (s.store p v).tp = s.tp := by
  cases p <;> rfl

/-- The kernel but for the links of the pages in `l`, and the head of the free list. -/
structure Relinked (l : List Nat) (s s' : Kernel) : Prop where
  rest : s' = { s with pages := s'.pages, pageFreeList := s'.pageFreeList }
  ppRef : ∀ p, (s'.pages p).ppRef = (s.pages p).ppRef
  other : ∀ p, p ∉ l → s'.pages p = s.pages p

variable {l l' rest seen : List Nat} {s t : Splitting} {k k' : Kernel}

theorem Relinked.refl (l : List Nat) (k : Kernel) : Relinked l k k :=
  ⟨rfl, fun _ => rfl, fun _ _ => rfl⟩

/-- Storing to a link of a page in `l`, or to one of the variables. -/
theorem Relinked.store (h : Relinked l k s.kernel) {p : Loc Bool Nat}
    (hp : (∃ t, p = .head t) ∨ ∃ pp ∈ l, p = .link pp) (v : Option Nat) :
    Relinked l k (s.store p v).kernel := by
  rcases hp with ⟨t, rfl⟩ | ⟨pp, hpp, rfl⟩
  · exact h
  · have hpages : (s.store (.link pp) v).kernel.pages =
        Function.update s.kernel.pages pp { s.kernel.pages pp with ppLink := v } := rfl
    refine ⟨?_, fun p => ?_, fun p hp => ?_⟩
    · rw [Splitting.store, Kernel.setPage]
      dsimp only
      rw [h.rest]
    · rw [hpages]
      by_cases heq : p = pp
      · rw [heq, Function.update_self]
        exact h.ppRef pp
      · rw [Function.update_of_ne heq]
        exact h.ppRef p
    · have hne : p ≠ pp := fun heq => hp (heq ▸ hpp)
      rw [hpages, Function.update_of_ne hne]
      exact h.other p hp

/-! ## The loop -/

/-- The pages seen so far, in two lists, and those still to come. -/
structure Split (k : Kernel) (l : List Nat) (seen rest : List Nat) (s : Splitting)
    (pp : Option Nat) :
    Prop where
  all : seen ++ rest = l
  nodup : l.Nodup
  lists : ∀ t, Segment s.val (.head t) (seen.filter (pagetype · = t)) (s.tp t)
  todo : Chain s.kernel.links pp rest
  relinked : Relinked l k s.kernel

/-- Where the next page of a kind is hung. -/
theorem Split.tp_mem {pp : Option Nat} (h : Split k l seen rest s pp) (t : Bool) :
    s.tp t = .head t ∨ ∃ a ∈ seen, pagetype a = t ∧ s.tp t = .link a := by
  rcases (h.lists t).end_mem with heq | ⟨a, ha, heq⟩
  · exact Or.inl heq
  · obtain ⟨hmem, ht⟩ := List.mem_filter.1 ha
    exact Or.inr ⟨a, hmem, of_decide_eq_true ht, heq⟩

/-- It is a variable, or a link of a page of the list. -/
theorem Split.tp_loc {pp : Option Nat} (h : Split k l seen rest s pp) (t : Bool) :
    (∃ t', s.tp t = .head t') ∨ ∃ pp ∈ l, s.tp t = .link pp := by
  rcases h.tp_mem t with heq | ⟨a, ha, -, heq⟩
  · exact Or.inl ⟨t, heq⟩
  · exact Or.inr ⟨a, h.all ▸ List.mem_append_left _ ha, heq⟩

theorem Split.fresh {a : Nat} {pp : Option Nat} (h : Split k l seen (a :: rest) s pp) :
    a ∉ seen ∧ a ∉ rest ∧ ∀ b ∈ rest, b ∉ seen := by
  have hnodup := List.nodup_append.1 (h.all ▸ h.nodup)
  have hrest := List.nodup_cons.1 hnodup.2.1
  exact ⟨fun ha => hnodup.2.2 a ha a List.mem_cons_self rfl, hrest.1,
    fun b hb hs => hnodup.2.2 b hs b (List.mem_cons_of_mem _ hb) rfl⟩

/-- The links of the pages still to come are not written. -/
theorem Split.tp_ne {a b : Nat} {pp : Option Nat} (h : Split k l seen (a :: rest) s pp) (t : Bool)
    (hb : b ∈ a :: rest) : s.tp t ≠ .link b := by
  obtain ⟨ha, -, hrest⟩ := h.fresh
  rcases h.tp_mem t with heq | ⟨c, hc, -, heq⟩
  · rw [heq]
    exact fun hh => nomatch hh
  · rw [heq]
    rintro hh
    rw [Loc.link.inj hh] at hc
    rcases List.mem_cons.1 hb with rfl | hb
    · exact ha hc
    · exact hrest b hb hc

/-- The state after a page. -/
def Splitting.hang (s : Splitting) (a : Nat) : Splitting :=
  let s := s.store (s.tp (pagetype a)) (some a)
  { s with tp := Function.update s.tp (pagetype a) (.link a) }

theorem Splitting.hang_val (s : Splitting) (a : Nat) :
    (s.hang a).val = Function.update s.val (s.tp (pagetype a)) (some a) :=
  s.val_store (s.tp (pagetype a)) (some a)

theorem Splitting.hang_tp (s : Splitting) (a : Nat) :
    (s.hang a).tp = Function.update s.tp (pagetype a) (.link a) := by
  rw [hang]
  dsimp only
  rw [store_tp]

/-- **One page** is hung on the list of its kind. -/
theorem Split.step {a : Nat} (h : Split k l seen (a :: rest) s (some a)) :
    Split k l (seen ++ [a]) rest (s.hang a) ((s.hang a).kernel.pages a).ppLink := by
  obtain ⟨ha, -, -⟩ := h.fresh
  have hlink : ∀ b ∈ a :: rest, (s.hang a).kernel.links b = s.kernel.links b := by
    intro b hb
    have hval : (s.hang a).val (.link b) = s.val (.link b) := by
      rw [s.hang_val, Function.update_of_ne (h.tp_ne _ hb).symm]
    exact hval
  refine ⟨?_, h.nodup, fun t => ?_, ?_, ?_⟩
  · rw [List.append_assoc]
    exact h.all
  · rw [s.hang_val, s.hang_tp, List.filter_append]
    have hseen := (List.nodup_append.1 (h.all ▸ h.nodup)).1
    by_cases ht : t = pagetype a
    · subst ht
      rw [Function.update_self, List.filter_cons_of_pos (by simp), List.filter_nil]
      exact (h.lists _).snoc (fun a _ => Loc.head_ne_link _ a) (hseen.filter _) a
    · -- the other list does not have the location
      rw [Function.update_of_ne ht, List.filter_cons_of_neg (by simpa using Ne.symm ht),
        List.filter_nil, List.append_nil]
      refine (h.lists t).update ?_ (fun b hb => ?_) _
      · rcases h.tp_mem (pagetype a) with heq | ⟨c, -, -, heq⟩
        · rw [heq]
          exact fun hh => ht (Loc.head.inj hh).symm
        · rw [heq]
          exact nofun
      · rcases h.tp_mem (pagetype a) with heq | ⟨c, -, hc, heq⟩
        · rw [heq]
          exact nofun
        · rw [heq]
          intro hh
          obtain rfl := Loc.link.inj hh
          exact ht ((of_decide_eq_true (List.mem_filter.1 hb).2).symm.trans hc)
  · have htodo : Chain s.kernel.links (s.kernel.links a) rest := h.todo.2
    rw [show ((s.hang a).kernel.pages a).ppLink = s.kernel.links a from hlink a List.mem_cons_self]
    exact htodo.congr fun b hb => hlink b (List.mem_cons_of_mem _ hb)
  · exact h.relinked.store (h.tp_loc _) _

/-- **The loop** goes through the list. -/
theorem splitLoop_run {pp : Option Nat} {fuel : Nat} (h : Split k l seen rest s pp)
    (hfuel : rest.length < fuel) : ∃ t, splitLoop fuel pp s = some t ∧ Split k l l [] t none := by
  induction rest generalizing seen s pp fuel with
  | nil =>
    obtain ⟨fuel, rfl⟩ : ∃ n, fuel = n + 1 := ⟨fuel - 1, by omega⟩
    obtain rfl : pp = none := h.todo
    have hall := h.all
    rw [List.append_nil] at hall
    subst hall
    exact ⟨s, rfl, h⟩
  | cons a rest ih =>
    rw [List.length_cons] at hfuel
    obtain ⟨fuel, rfl⟩ : ∃ n, fuel = n + 1 := ⟨fuel - 1, by omega⟩
    obtain rfl : pp = some a := h.todo.1
    exact ih (s := s.hang a) h.step (by omega)

/-- **The free list** is put in order: the pages of the first four megabytes come first, then the
others, both in the order they had, and nothing is lost. -/
theorem splitFreeList_run (hchain : Chain k.links k.pageFreeList l) (head : Bool → Option Nat)
    {fuel : Nat} (hfuel : l.length < fuel) : ∃ k', splitFreeList fuel head k = some k' ∧
      Chain k'.links k'.pageFreeList (l.filter (pagetype · = false) ++
        l.filter (pagetype · = true)) ∧
      (l.filter (pagetype · = false) ++ l.filter (pagetype · = true)).Perm l ∧ Relinked l k k' := by
  have hstart : Split k l [] l ⟨k, head, .head⟩ k.pageFreeList :=
    ⟨rfl, hchain.nodup, fun _ => rfl, hchain, Relinked.refl l k⟩
  obtain ⟨t, hloop, ht⟩ := splitLoop_run hstart hfuel
  have hperm : (l.filter (pagetype · = false) ++ l.filter (pagetype · = true)).Perm l := by
    have hnot : l.filter (pagetype · = true) = l.filter fun a => !decide (pagetype a = false) :=
      List.filter_congr fun a _ => by cases pagetype a <;> rfl
    rw [hnot]
    exact List.filter_append_perm _ l
  let t₁ := t.store (t.tp true) none
  let t₂ := t₁.store (t₁.tp false) (t₁.head true)
  have htp : t₁.tp = t.tp := t.store_tp _ _
  have hval₂ : t₂.val = Function.update t₁.val (t.tp false) (t₁.val (.head true)) := by
    rw [← htp]
    exact t₁.val_store _ _
  have hchain₂ := (ht.lists false).join (ht.lists true) (by decide) (hperm.nodup_iff.2 ht.nodup)
    (t.val_store _ _) hval₂
  have hrel₂ : Relinked l k t₂.kernel := by
    have htp₁ : (∃ t', t₁.tp false = .head t') ∨ ∃ pp ∈ l, t₁.tp false = .link pp := by
      rw [htp]
      exact ht.tp_loc false
    exact (ht.relinked.store (ht.tp_loc true) none).store htp₁ _
  refine ⟨{ t₂.kernel with pageFreeList := t₂.head false }, ?_, hchain₂, hperm, ?_⟩
  · rw [splitFreeList, hloop]
    rfl
  · refine ⟨?_, hrel₂.ppRef, hrel₂.other⟩
    conv_lhs => rw [hrel₂.rest]

/-- Five free pages, three of them below four megabytes. -/
def fiveFree : Kernel :=
  { oneEnv with
    pageFreeList := some 2000
    pages := fun p => ⟨if p = 2000 then some 5 else if p = 5 then some 1500 else
      if p = 1500 then some 7 else if p = 7 then some 3 else none, 0#16⟩ }

/-- They end up in order. -/
theorem splitFreeList_run_five : Chain fiveFree.links fiveFree.pageFreeList [2000, 5, 1500, 7, 3] ∧
    ∃ k', splitFreeList 6 (fun _ => some 0) fiveFree = some k' ∧
      Chain k'.links k'.pageFreeList ([2000, 5, 1500, 7, 3].filter (pagetype · = false) ++
        [2000, 5, 1500, 7, 3].filter (pagetype · = true)) ∧
      ([2000, 5, 1500, 7, 3].filter (pagetype · = false) ++
        [2000, 5, 1500, 7, 3].filter (pagetype · = true)).Perm [2000, 5, 1500, 7, 3] ∧
      Relinked [2000, 5, 1500, 7, 3] fiveFree k' :=
  have hchain : Chain fiveFree.links fiveFree.pageFreeList [2000, 5, 1500, 7, 3] :=
    ⟨rfl, rfl, rfl, rfl, rfl, rfl⟩
  ⟨hchain, splitFreeList_run hchain (fun _ => some 0) (by decide)⟩

end Jos
