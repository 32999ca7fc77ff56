import Jos.Tlb
import Jos.Alloc.Create
import Jos.Lib.Reach

/-!
# Freeing a page twice

`page_free` is to notice a page that is freed while it is on the free list, or while it is in use.
Its assertion only fails when the page's count is not zero *and* its link is set, and `page_alloc`
leaves the link of the page that it hands out as it was.  So a page on the free list whose count is
zero is put there once more, and the list goes round in a circle.

As long as nobody calls `page_free` in that way, the list ends, and every page is freed between
two times it is handed out.
-/

set_option autoImplicit false

namespace Jos

open Kernel Command

/-! ## The allocator and its callers -/

/-- What the callers of the allocator do. -/
inductive PageOp where
  | alloc (zero : Bool)
  | free (pp : Nat)
  /-- A caller changes `pp->pp_ref`. -/
  | setRef (pp : Nat) (ref : BitVec 16)

/-- The allocator, and the pages that have been handed out and not been freed since. -/
structure Pool where
  kernel : Kernel
  out : Set Nat

/-- One call that returns. -/
inductive Pool.Step : Pool → PageOp → Pool → Prop where
  | full {s s' : Kernel} {out : Set Nat} {zero : Bool}
      (run : (pageAlloc zero).run s = .ok none s') :
      Step ⟨s, out⟩ (.alloc zero) ⟨s', out⟩
  | alloc {s s' : Kernel} {out : Set Nat} {zero : Bool} {pp : Nat}
      (run : (pageAlloc zero).run s = .ok (some pp) s') :
      Step ⟨s, out⟩ (.alloc zero) ⟨s', insert pp out⟩
  | free {s s' : Kernel} {out : Set Nat} {pp : Nat} (run : (pageFree pp).run s = .ok () s') :
      Step ⟨s, out⟩ (.free pp) ⟨s', out \ {pp}⟩
  | setRef {s : Kernel} {out : Set Nat} (pp : Nat) (ref : BitVec 16) :
      Step ⟨s, out⟩ (.setRef pp ref) ⟨s.setPage pp { s.pages pp with ppRef := ref }, out⟩

/-- The page is not to be freed. -/
def Kernel.Unfreeable (s : Kernel) (pp : Nat) : Prop :=
  s.OnFreeList pp ∨ (s.pages pp).ppRef ≠ 0#16

/-- A page that is not to be freed is only freed where the assertion of `page_free` fails. -/
def PageOp.Guarded (s : Kernel) : PageOp → Prop
  | .free pp => s.Unfreeable pp → (s.pages pp).ppRef ≠ 0#16 ∧ (s.pages pp).ppLink ≠ none
  | _ => True

/-! ## The functions -/

variable {s s' : Kernel}

/-- The page handed out is the first of the list, and the rest of the list stays. -/
theorem pageAlloc_takes {zero : Bool} {r : Option Nat} (h : (pageAlloc zero).run s = .ok r s') :
    s.pageFreeList = r ∧ s'.pages = s.pages ∧ s'.pageFreeList = r.bind s.links := by
  cases hf : s.pageFreeList with
  | none =>
    rw [pageAlloc_none hf] at h
    cases h
    exact ⟨rfl, rfl, hf⟩
  | some pp =>
    cases zero with
    | false =>
      rw [pageAlloc_raw hf] at h
      cases h
      exact ⟨rfl, rfl, rfl⟩
    | true =>
      have hstart : (pageAlloc true).run s = EStateM.run (do
          let kva ← page2kva pp
          modify (·.fill kva fun _ => 0#32)
          return some pp) (s.pop pp) := by
        simp only [pageAlloc, EStateM.run_bind, EStateM.run_get, hf, EStateM.run_modify, if_true,
          pop]
      rw [hstart] at h
      obtain ⟨kva, t, hkva, h⟩ := ok_of_bind h
      obtain rfl := (kaddr_reads _).of_ok hkva
      cases h
      exact ⟨rfl, rfl, rfl⟩

/-- **The assertion of `page_free`.** -/
theorem pageFree_panics {pp : Nat} (href : (s.pages pp).ppRef ≠ 0#16)
    (hlink : (s.pages pp).ppLink ≠ none) : (pageFree pp).run s =
      .error (.panic "assertion failed: pp->pp_ref == 0 || pp->pp_link == NULL") s := by
  simp [pageFree, href, hlink]

/-! ## Runs -/

/-- The list ends, and no page that has been handed out is on it. -/
structure Pool.Sound (q : Pool) : Prop where
  chain : ∃ fl, Chain q.kernel.links q.kernel.pageFreeList fl ∧ ∀ pp ∈ fl, pp ∉ q.out

theorem Pool.Sound.step {q q' : Pool} {op : PageOp} (h : q.Sound) (hg : op.Guarded q.kernel)
    (hstep : q.Step op q') : q'.Sound := by
  obtain ⟨fl, hchain, hout⟩ := h.chain
  cases hstep with
  | full run =>
    obtain ⟨hnone, hpages, hlist⟩ := pageAlloc_takes run
    refine ⟨[], ?_, by simp⟩
    rw [Chain.nil_iff, hlist]
    rfl
  | @alloc s s' out zero pp run =>
    obtain ⟨hhead, hpages, hlist⟩ := pageAlloc_takes run
    obtain ⟨fl', rfl, hrest⟩ := (show Chain s.links (some pp) fl from hhead ▸ hchain).exists_cons
    refine ⟨fl', ?_, fun p hp => ?_⟩
    · rw [hlist, links_congr hpages]
      exact hrest
    · have hne : p ≠ pp := by
        rintro rfl
        exact (List.nodup_cons.1 hchain.nodup).1 hp
      simp [hne, hout p (List.mem_cons_of_mem _ hp)]
  | @free s s' out pp run =>
    -- the call returns, so the page is in no use
    have hfree : ¬ s.Unfreeable pp := by
      intro huse
      obtain ⟨href, hlink⟩ := hg huse
      rw [pageFree_panics href hlink] at run
      cases run
    have hnot : pp ∉ fl := fun hm => hfree (Or.inl ((onFreeList_iff hchain).2 hm))
    obtain rfl := pageFree_ok run
    refine ⟨pp :: fl, ?_, fun p hp => ?_⟩
    · rw [links_push]
      exact hchain.push hnot
    · rcases List.mem_cons.1 hp with rfl | hp
      · simp
      · simp [hout p hp]
  | @setRef s out pp ref =>
    refine ⟨fl, ?_, hout⟩
    have hsame : (s.setPage pp { s.pages pp with ppRef := ref }).links = s.links := by
      rw [links_setPage]
      exact Function.update_eq_self _ _
    rw [hsame]
    exact hchain

/-- **Double frees are caught**, in every run from the list that `page_init` builds, as long as no
page in use is freed where the assertion of `page_free` holds: the list has no page twice, a page in
use that is freed makes the kernel panic with the list as it was, and a page that is handed out has
been freed since it was handed out before. -/
theorem pageInit_pool {m : Machine} {s t : Kernel} (hn : s.npages = m.npages)
    (hinit : (pageInit m.npagesBasemem m.bootLayout.nextfree).run s = .ok () t) {q : Pool}
    (hr : Reach Pool.Step (fun q op => op.Guarded q.kernel) ⟨t, ∅⟩ q) :
    (∃ fl, Chain q.kernel.links q.kernel.pageFreeList fl ∧ fl.Nodup) ∧
    (∀ pp, (PageOp.free pp).Guarded q.kernel → q.kernel.Unfreeable pp →
      ∃ msg, (pageFree pp).run q.kernel = .error (.panic msg) q.kernel) ∧
    ∀ zero pp s', (pageAlloc zero).run q.kernel = .ok (some pp) s' → pp ∉ q.out := by
  obtain ⟨t', hrun, -, -, hchain, -⟩ := pageInit_spec m hn
  obtain rfl : t = t' := by
    rw [hinit] at hrun
    cases hrun
    rfl
  have hsound : q.Sound := hr.inv (I := Pool.Sound) ⟨m.initialFree, hchain, by simp⟩
    fun _ _ _ h hg hstep => h.step hg hstep
  obtain ⟨fl, hfl, hout⟩ := hsound.chain
  refine ⟨⟨fl, hfl, hfl.nodup⟩, fun pp hg huse => ?_, fun zero pp s' halloc => ?_⟩
  · obtain ⟨href, hlink⟩ := hg huse
    exact ⟨_, pageFree_panics href hlink⟩
  · obtain ⟨hhead, -, -⟩ := pageAlloc_takes halloc
    obtain ⟨fl', rfl, -⟩ :=
      (show Chain q.kernel.links (some pp) fl from hhead ▸ hfl).exists_cons
    exact hout pp List.mem_cons_self

/-! ## With a page to hand out -/

theorem Machine.powerOn_npages (m : Machine) : m.powerOn.npages = m.npages := rfl

section

variable {m : Machine} {p : Nat} {fl : List Nat}

/-- The first page is handed out and freed, and somebody counts a reference to it after that: a
guarded run. -/
theorem pageInit_freed {p' : Nat} (hfl : m.initialFree = p :: p' :: fl) : ∃ t u : Kernel,
    (pageInit m.npagesBasemem m.bootLayout.nextfree).run m.powerOn = .ok () t ∧
    Reach Pool.Step (fun q op => op.Guarded q.kernel) ⟨t, ∅⟩ ⟨u, ∅⟩ ∧
    u.pageFreeList = some p ∧ u.OnFreeList p ∧ (u.pages p).ppRef = 1#16 ∧
    (u.pages p).ppLink = some p' := by
  obtain ⟨t, hinit, -, -, hchain, hzero⟩ := pageInit_spec m m.powerOn_npages
  have href : (t.pages p).ppRef = 0#16 := hzero p (hfl ▸ List.mem_cons_self)
  rw [hfl] at hchain
  have hrest : Chain (t.pop p).links (t.pop p).pageFreeList (p' :: fl) := hchain.2
  have hnot : p ∉ p' :: fl := (List.nodup_cons.1 hchain.nodup).1
  have halloc : Pool.Step ⟨t, ∅⟩ (.alloc false) ⟨t.pop p, insert p ∅⟩ :=
    .alloc (pageAlloc_raw hchain.1)
  have hfree : Pool.Step ⟨t.pop p, insert p ∅⟩ (.free p) ⟨(t.pop p).push p, insert p ∅ \ {p}⟩ :=
    .free (pageFree_run (Or.inl href))
  have hguard₀ : (PageOp.alloc false).Guarded t := trivial
  have hguard : (PageOp.free p).Guarded (t.pop p) := fun huse =>
    huse.elim (fun h => absurd ((onFreeList_iff hrest).1 h) hnot) fun h => absurd href h
  have hcount : Pool.Step ⟨(t.pop p).push p, insert p ∅ \ {p}⟩ (.setRef p 1#16) _ :=
    .setRef p 1#16
  have hguard' : (PageOp.setRef p 1#16).Guarded ((t.pop p).push p) := trivial
  have hreach : Reach Pool.Step (fun q op => op.Guarded q.kernel) ⟨t, ∅⟩ _ :=
    .tail (.tail (.tail .refl hguard₀ halloc) hguard hfree) hguard' hcount
  have hempty : (insert p ∅ \ {p} : Set Nat) = ∅ := by simp
  rw [hempty] at hreach
  have hchain' :
      Chain ((t.pop p).push p).links ((t.pop p).push p).pageFreeList (p :: p' :: fl) := by
    rw [links_push]
    exact hrest.push hnot
  refine ⟨t, _, hinit, hreach, rfl,
    (onFreeList_iff (?_ : Chain _ _ (p :: p' :: fl))).2 List.mem_cons_self, ?_, ?_⟩
  · have hsame : (((t.pop p).push p).setPage p
        { ((t.pop p).push p).pages p with ppRef := 1#16 }).links = ((t.pop p).push p).links := by
      rw [links_setPage]
      exact Function.update_eq_self _ _
    rw [hsame]
    exact hchain'
  · rw [setPage_pages, Function.update_self]
  · rw [setPage_pages, Function.update_self]
    exact hchain'.2.1

/-- The first page is freed: the list now goes round, and that page is handed out twice. -/
theorem pageFree_first (hfl : m.initialFree = p :: fl) : ∃ t s₁ s₂ s₃ : Kernel,
    (pageInit m.npagesBasemem m.bootLayout.nextfree).run m.powerOn = .ok () t ∧
    t.OnFreeList p ∧ (pageFree p).run t = .ok () s₁ ∧
    (¬ ∃ l, Chain s₁.links s₁.pageFreeList l) ∧
    (pageAlloc false).run s₁ = .ok (some p) s₂ ∧ (pageAlloc false).run s₂ = .ok (some p) s₃ := by
  obtain ⟨t, hinit, -, -, hchain, hzero⟩ := pageInit_spec m m.powerOn_npages
  have href : (t.pages p).ppRef = 0#16 := hzero p (hfl ▸ List.mem_cons_self)
  rw [hfl] at hchain
  have hself : (t.push p).links p = some p := by
    rw [links_push, Function.update_self]
    exact hchain.1
  refine ⟨t, t.push p, (t.push p).pop p, ((t.push p).pop p).pop p, hinit, ?_,
    pageFree_run (Or.inl href), ?_, pageAlloc_raw rfl, pageAlloc_raw hself⟩
  · exact (onFreeList_iff hchain).2 List.mem_cons_self
  · rintro ⟨l, hl⟩
    obtain ⟨l', rfl, hl'⟩ := (show Chain (t.push p).links (some p) l from hl).exists_cons
    -- the first page is followed by itself
    rw [hself] at hl'
    obtain ⟨l'', rfl, -⟩ := hl'.exists_cons
    exact (List.nodup_cons.1 hl.nodup).1 List.mem_cons_self

end

theorem smallMachine_head : ∃ p p' fl, smallMachine.initialFree = p :: p' :: fl := by
  have hfree := smallMachine_free
  obtain ⟨p, fl, hfl⟩ := List.exists_cons_of_length_pos (show 0 < smallMachine.initialFree.length by
    omega)
  rw [hfl, List.length_cons] at hfree
  obtain ⟨p', fl', rfl⟩ := List.exists_cons_of_length_pos (show 0 < fl.length by omega)
  exact ⟨p, p', fl', hfl⟩

/-- A page that has been freed is freed once more while its count is not zero: the kernel panics.
The page is the next to be handed out. -/
theorem pageInit_pool_small : ∃ t u p,
    (pageInit smallMachine.npagesBasemem smallMachine.bootLayout.nextfree).run
      smallMachine.powerOn = .ok () t ∧
    Reach Pool.Step (fun q op => op.Guarded q.kernel) ⟨t, ∅⟩ ⟨u, ∅⟩ ∧ u.OnFreeList p ∧
    (∃ fl, Chain u.links u.pageFreeList fl ∧ fl.Nodup) ∧
    (∃ msg, (pageFree p).run u = .error (.panic msg) u) ∧
    (pageAlloc false).run u = .ok (some p) (u.pop p) := by
  obtain ⟨p, p', fl, hfl⟩ := smallMachine_head
  obtain ⟨t, u, hinit, hr, hhead, hon, href, hlink⟩ := pageInit_freed hfl
  obtain ⟨hlist, hpanic, -⟩ := pageInit_pool smallMachine.powerOn_npages hinit hr
  have hcaught : (PageOp.free p).Guarded u := fun _ => by
    rw [href, hlink]
    exact ⟨by decide, Option.some_ne_none p'⟩
  exact ⟨t, u, p, hinit, hr, hon, hlist, hpanic p hcaught (Or.inl hon), pageAlloc_raw hhead⟩

/-- **A double free** that goes unnoticed. -/
theorem pageFree_twice : ∃ (m : Machine) (t s₁ s₂ s₃ : Kernel) (p : Nat),
    (pageInit m.npagesBasemem m.bootLayout.nextfree).run m.powerOn = .ok () t ∧
    t.OnFreeList p ∧ (pageFree p).run t = .ok () s₁ ∧
    (¬ ∃ l, Chain s₁.links s₁.pageFreeList l) ∧
    (pageAlloc false).run s₁ = .ok (some p) s₂ ∧ (pageAlloc false).run s₂ = .ok (some p) s₃ := by
  obtain ⟨p, p', fl, hfl⟩ := smallMachine_head
  obtain ⟨t, s₁, s₂, s₃, h⟩ := pageFree_first hfl
  exact ⟨smallMachine, t, s₁, s₂, s₃, p, h⟩

end Jos
