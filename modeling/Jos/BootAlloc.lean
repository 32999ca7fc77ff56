import Jos.Boot

/-!
# Memory for the kernel's data structures

`boot_alloc` of `kern/pmap.c` hands out one piece of memory after the other, from the end of the
kernel on.  The comment above it says that it should panic when there is no memory left; there is no
such test in it.

`bootAlloc_valid_iff` says when the pieces are memory that there is.
-/

set_option autoImplicit false

namespace Jos

/-- `i386_detect_memory`: the number of pages, from the kilobytes in the NVRAM. -/
def i386DetectMemory (nvramBase nvramExt : BitVec 16) : Nat :=
  let npagesBasemem := nvramBase.toNat * 1024 / 4096
  let npagesExtmem := nvramExt.toNat * 1024 / 4096
  if npagesExtmem ≠ 0 then 1048576 / 4096 + npagesExtmem else npagesBasemem

theorem Machine.npages_eq (m : Machine) : m.npages = i386DetectMemory m.nvramBase m.nvramExt := rfl

/-- `boot_alloc`, with its static variable `nextfree`, which is 0 at first; `kernEnd` is `end`. -/
def bootAllocStatic (kernEnd nextfree n : Word) : Word × Word :=
  let nextfree := if nextfree = 0#32 then roundUp kernEnd pgsize else nextfree
  bootAlloc nextfree n

/-- Calls of `boot_alloc`: what each returns, and what it has been asked for. -/
def bootAllocs (kernEnd : Word) : Word → List Word → List (Word × Word)
  | _, [] => []
  | nextfree, n :: ns =>
    let (result, nextfree) := bootAllocStatic kernEnd nextfree n
    (result, n) :: bootAllocs kernEnd nextfree ns

/-- The pieces are aligned, above the kernel and in memory, and no byte is in two of them. -/
structure ValidPieces (kernEnd : Word) (npages : Nat) (l : List (Word × Word)) : Prop where
  aligned : ∀ x ∈ l, x.1.toNat % 4096 = 0
  above : ∀ x ∈ l, kernEnd.toNat ≤ x.1.toNat
  below : ∀ x ∈ l, x.1.toNat + x.2.toNat ≤ kernbase.toNat + npages * 4096
  disjoint : l.Pairwise fun x y => ∀ a, x.1.toNat ≤ a → a < x.1.toNat + x.2.toNat →
    ¬ (y.1.toNat ≤ a ∧ a < y.1.toNat + y.2.toNat)

/-- A length in whole pages. -/
def wholePages (n : Word) : Nat := (n.toNat + 4095) / 4096 * 4096

/-- There is memory for all the requests, after the kernel. -/
def EnoughMemory (kernEnd : Word) (npages : Nat) (ns : List Word) : Prop :=
  ns = [] ∨ wholePages kernEnd + (ns.map wholePages).sum ≤ kernbase.toNat + npages * 4096

variable {kernEnd nextfree n : Word} {npages : Nat} {ns : List Word}

theorem roundUp_wholePages (h : n.toNat + 4095 < 2 ^ 32) :
    (roundUp n pgsize).toNat = wholePages n := by
  rw [roundUp_toNat, Nat.mod_eq_of_lt h, wholePages]

/-- All of memory is in the address space. -/
theorem i386DetectMemory_lt (nvramBase nvramExt : BitVec 16) :
    kernbase.toNat + i386DetectMemory nvramBase nvramExt * 4096 + 4096 < 2 ^ 32 := by
  have hbase := nvramBase.isLt
  have hext := nvramExt.isLt
  have hkern : kernbase.toNat = 0xF0000000 := rfl
  rw [i386DetectMemory]
  split <;> omega

/-- `nextfree` has been set, or setting it will not change it. -/
def Cursor (kernEnd nextfree : Word) : Prop :=
  nextfree = 0#32 → roundUp kernEnd pgsize = 0#32

theorem Cursor.bootAllocStatic (h : Cursor kernEnd nextfree) (n : Word) :
    bootAllocStatic kernEnd nextfree n = (nextfree, nextfree + roundUp n pgsize) := by
  rw [Jos.bootAllocStatic]
  by_cases h0 : nextfree = 0#32
  · rw [if_pos h0, h h0, h0]
    rfl
  · rw [if_neg h0]
    rfl

/-- A piece more, in memory. -/
theorem toNat_next (hfit : nextfree.toNat + n.toNat ≤ kernbase.toNat + npages * 4096)
    (hlt : kernbase.toNat + npages * 4096 + 4096 < 2 ^ 32) (haligned : nextfree.toNat % 4096 = 0) :
    (nextfree + roundUp n pgsize).toNat = nextfree.toNat + wholePages n ∧
      nextfree.toNat + wholePages n ≤ kernbase.toNat + npages * 4096 := by
  have hkern : kernbase.toNat = 0xF0000000 := rfl
  have hround := roundUp_wholePages (n := n) (by omega)
  rw [BitVec.toNat_add, hround, wholePages]
  omega

theorem Cursor.next (h : Cursor kernEnd nextfree)
    (heq : (nextfree + roundUp n pgsize).toNat = nextfree.toNat + wholePages n) :
    Cursor kernEnd (nextfree + roundUp n pgsize) := by
  intro h0
  rw [h0] at heq
  have hzero : nextfree.toNat = 0 := by
    have : (0#32).toNat = 0 := rfl
    omega
  exact h (BitVec.eq_of_toNat_eq hzero)

theorem validPieces_nil (kernEnd : Word) (npages : Nat) : ValidPieces kernEnd npages [] := by
  constructor <;> simp

/-- The pieces are all from `nextfree` on. -/
theorem bootAllocs_valid (hstart : Cursor kernEnd nextfree) (hkern : kernEnd.toNat ≤ nextfree.toNat)
    (haligned : nextfree.toNat % 4096 = 0) (hlt : kernbase.toNat + npages * 4096 + 4096 < 2 ^ 32)
    (hfit : nextfree.toNat + (ns.map wholePages).sum ≤ kernbase.toNat + npages * 4096) :
    ValidPieces kernEnd npages (bootAllocs kernEnd nextfree ns) ∧
      ∀ x ∈ bootAllocs kernEnd nextfree ns, nextfree.toNat ≤ x.1.toNat := by
  induction ns generalizing nextfree with
  | nil => exact ⟨validPieces_nil kernEnd npages, fun x hx => absurd hx List.not_mem_nil⟩
  | cons n ns ih =>
    rw [List.map_cons, List.sum_cons] at hfit
    have hn : n.toNat ≤ wholePages n := by
      rw [wholePages]
      omega
    obtain ⟨heq, hle⟩ := toNat_next (n := n) (by omega) hlt haligned
    have hmod : wholePages n % 4096 = 0 := Nat.mul_mod_left ..
    obtain ⟨hvalid, hfrom⟩ := ih (hstart.next heq) (by omega) (by omega) (by omega)
    have hcons : bootAllocs kernEnd nextfree (n :: ns) =
        (nextfree, n) :: bootAllocs kernEnd (nextfree + roundUp n pgsize) ns := by
      rw [bootAllocs, hstart.bootAllocStatic]
    rw [hcons]
    refine ⟨⟨?_, ?_, ?_, ?_⟩, ?_⟩
    · exact List.forall_mem_cons.2 ⟨haligned, hvalid.aligned⟩
    · exact List.forall_mem_cons.2 ⟨hkern, hvalid.above⟩
    · exact List.forall_mem_cons.2 ⟨show nextfree.toNat + n.toNat ≤ _ by omega, hvalid.below⟩
    · refine List.pairwise_cons.2 ⟨fun y hy a _ ha hin => ?_, hvalid.disjoint⟩
      -- the pieces after it begin where its pages end
      have hy' := hfrom y hy
      dsimp only at ha
      omega
    · refine List.forall_mem_cons.2 ⟨Nat.le_refl _, fun x hx => ?_⟩
      have := hfrom x hx
      omega

/-- What is handed out has been there. -/
theorem fits_of_valid (hstart : Cursor kernEnd nextfree) (haligned : nextfree.toNat % 4096 = 0)
    (hlt : kernbase.toNat + npages * 4096 + 4096 < 2 ^ 32) (hne : ns ≠ [])
    (hvalid : ValidPieces kernEnd npages (bootAllocs kernEnd nextfree ns)) :
    nextfree.toNat + (ns.map wholePages).sum ≤ kernbase.toNat + npages * 4096 := by
  induction ns generalizing nextfree with
  | nil => exact absurd rfl hne
  | cons n ns ih =>
    have hcons : bootAllocs kernEnd nextfree (n :: ns) =
        (nextfree, n) :: bootAllocs kernEnd (nextfree + roundUp n pgsize) ns := by
      rw [bootAllocs, hstart.bootAllocStatic]
    rw [hcons] at hvalid
    have hbelow : nextfree.toNat + n.toNat ≤ kernbase.toNat + npages * 4096 :=
      hvalid.below (nextfree, n) List.mem_cons_self
    obtain ⟨heq, hle⟩ := toNat_next hbelow hlt haligned
    have hmod : wholePages n % 4096 = 0 := Nat.mul_mod_left ..
    rw [List.map_cons, List.sum_cons]
    cases ns with
    | nil =>
      rw [List.map_nil, List.sum_nil]
      omega
    | cons n' ns =>
      have hrest := ih (hstart.next heq) (by omega) (List.cons_ne_nil _ _)
        ⟨fun x hx => hvalid.aligned x (List.mem_cons_of_mem _ hx),
          fun x hx => hvalid.above x (List.mem_cons_of_mem _ hx),
          fun x hx => hvalid.below x (List.mem_cons_of_mem _ hx),
          (List.pairwise_cons.1 hvalid.disjoint).2⟩
      omega

/-- The first call sets `nextfree`. -/
theorem bootAllocs_first (kernEnd : Word) (ns : List Word) :
    bootAllocs kernEnd 0#32 ns = bootAllocs kernEnd (roundUp kernEnd pgsize) ns := by
  cases ns with
  | nil => rw [bootAllocs, bootAllocs]
  | cons n ns =>
    have hfirst : bootAllocStatic kernEnd 0#32 n =
        bootAllocStatic kernEnd (roundUp kernEnd pgsize) n := by
      rw [bootAllocStatic, bootAllocStatic, if_pos rfl]
      by_cases h0 : roundUp kernEnd pgsize = 0#32
      · rw [if_pos h0]
      · rw [if_neg h0]
    rw [bootAllocs, bootAllocs, hfirst]

/-- **`boot_alloc`** hands out memory that there is, in all calls, if and only if all of it fits in
after the kernel. -/
theorem bootAlloc_valid_iff (nvramBase nvramExt : BitVec 16) (kernEnd : Word) (ns : List Word) :
    ValidPieces kernEnd (i386DetectMemory nvramBase nvramExt) (bootAllocs kernEnd 0#32 ns) ↔
      EnoughMemory kernEnd (i386DetectMemory nvramBase nvramExt) ns := by
  have hlt := i386DetectMemory_lt nvramBase nvramExt
  have hstart : Cursor kernEnd (roundUp kernEnd pgsize) := id
  have haligned : (roundUp kernEnd pgsize).toNat % 4096 = 0 := by
    rw [roundUp_toNat]
    exact Nat.mul_mod_left ..
  have hkern : kernEnd.toNat ≤ wholePages kernEnd := by
    rw [wholePages]
    omega
  rw [bootAllocs_first]
  constructor
  · intro hvalid
    cases ns with
    | nil => exact Or.inl rfl
    | cons n ns =>
      -- the kernel ends before the last page there is
      have habove : kernEnd.toNat ≤ (roundUp kernEnd pgsize).toNat := by
        have hmem := hvalid.above (roundUp kernEnd pgsize, n)
        rw [bootAllocs, hstart.bootAllocStatic] at hmem
        exact hmem List.mem_cons_self
      have hlast : kernEnd.toNat + 4095 < 2 ^ 32 := by
        have hround := roundUp_toNat kernEnd
        have := kernEnd.isLt
        omega
      have hfit := fits_of_valid hstart haligned hlt (List.cons_ne_nil n ns) hvalid
      rw [roundUp_wholePages hlast] at hfit
      exact Or.inr hfit
  · rintro (rfl | hfit)
    · exact validPieces_nil kernEnd _
    · have hround : (roundUp kernEnd pgsize).toNat = wholePages kernEnd :=
        roundUp_wholePages (by omega)
      exact (bootAllocs_valid hstart (by omega) haligned hlt (by omega)).1

/-- With 112 kilobytes of extended memory there is no room for `envs`. -/
theorem not_bootAlloc_valid : ¬ ∀ nvramBase nvramExt kernEnd ns,
    ValidPieces kernEnd (i386DetectMemory nvramBase nvramExt) (bootAllocs kernEnd 0#32 ns) := by
  intro hall
  have hvalid := hall 640#16 112#16 0xF0117000#32 [0x1000#32, 0x1000#32, 0x1F000#32]
  have hbelow := hvalid.below (0xF0119000#32, 0x1F000#32) (by decide)
  exact absurd hbelow (by decide)

end Jos
