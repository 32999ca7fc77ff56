import Jos.Alloc.Create
import Jos.Alloc.Region

/-!
# `load_icode`

Loading a program is a sequence of two kinds of steps: a page of the free list is mapped at a page
of the address space where there is none, and bytes are stored at addresses that are mapped by then.
`Loaded` says where such a sequence stands, in terms of the pages mapped and the bytes stored so
far, and each step adds to one of the two.

What makes the steps independent of each other is that every page of the environment is its own:
nothing else maps it.  So a new page takes nothing away, and a byte stored at one address is not
overwritten by storing at another.
-/

set_option autoImplicit false

namespace Jos

open Kernel Command

variable {res : Nat → Prop} {fl fl' rest fl₀ : List Nat} {s s' s₀ : Kernel} {e : EnvIndex}
variable {d c p pp : Nat} {va need : Word} {i j : Index} {env : Env} {elf : Elf} {ph : Proghdr}

/-! ## Programs -/

/-- The page that is mapped for the stack. -/
def stackPage : Word := ustacktop - pgsize

/-- Some byte of the segment is on page number `n`. -/
def Proghdr.OnPage (ph : Proghdr) (n : Nat) : Prop :=
  ∃ k < ph.pMemsz.toNat, n = (ph.pVa.toNat + k) / 4096

/-- Byte `k` of the segment: what the image has, and zero after that. -/
def Proghdr.byte (elf : Elf) (ph : Proghdr) (k : Nat) : Byte :=
  if k < ph.pFilesz.toNat then elf.binary (ph.pOffset + BitVec.ofNat 32 k) else 0#8

/-- The bytes of the segment, with their addresses. -/
def Proghdr.bytes (elf : Elf) (ph : Proghdr) : List (Word × Byte) :=
  (List.range ph.pMemsz.toNat).map fun k => (ph.pVa + BitVec.ofNat 32 k, ph.byte elf k)

/-- The addresses of the pages of the segment. -/
def Proghdr.pages (ph : Proghdr) : List Word := regionList ph.pVa ph.pMemsz

/-- The headers of the segments that are loaded. -/
def loadedOnly (l : List Proghdr) : List Proghdr := l.filter (·.pType = elfProgLoad)

def Elf.segments (elf : Elf) : List Proghdr := loadedOnly elf.proghdrs

/-- The addresses of the pages that `load_icode` maps. -/
def Elf.pages (elf : Elf) : List Word := elf.segments.flatMap Proghdr.pages ++ [stackPage]

/-- A program that can be loaded: no segment is longer in the file than in memory, the length of
each makes up for the offset of its start, and no page belongs to two segments, or to a segment and
the stack. -/
structure Elf.Loadable (elf : Elf) : Prop where
  magic : elf.eMagic = elfMagic
  filesz : ∀ ph ∈ elf.segments, ph.pFilesz.toNat ≤ ph.pMemsz.toNat
  fits : ∀ ph ∈ elf.segments,
    ph.pVa.toNat % 4096 + ph.pMemsz.toNat ≤ (roundUp ph.pMemsz pgsize).toNat
  disjoint : elf.segments.Pairwise fun ph ph' => ∀ n, ph.OnPage n → ¬ ph'.OnPage n
  stack : ∀ ph ∈ elf.segments, ¬ ph.OnPage (pgnum stackPage)

theorem loadedOnly_load (h : ph.pType = elfProgLoad) (l : List Proghdr) :
    loadedOnly (ph :: l) = ph :: loadedOnly l := List.filter_cons_of_pos (decide_eq_true h)

theorem loadedOnly_skip (h : ph.pType ≠ elfProgLoad) (l : List Proghdr) :
    loadedOnly (ph :: l) = loadedOnly l := List.filter_cons_of_neg (by simpa using h)

theorem Elf.segment_le (hph : ph ∈ elf.segments) :
    ph.pVa.toNat + ph.pMemsz.toNat ≤ utop.toNat := by
  obtain ⟨hmem, htype⟩ := List.mem_filter.1 hph
  exact elf.below ph hmem (of_decide_eq_true htype)

/-! ### Pages and bytes of a segment -/

section

variable (hle : ph.pVa.toNat + ph.pMemsz.toNat ≤ utop.toNat)
include hle

theorem segment_toNat {k : Nat} (hk : k < ph.pMemsz.toNat) :
    (ph.pVa + BitVec.ofNat 32 k).toNat = ph.pVa.toNat + k := by
  have hu := utop_toNat
  rw [BitVec.toNat_add, BitVec.toNat_ofNat]
  omega

theorem mem_bytes {x : Word × Byte} (hx : x ∈ ph.bytes elf) :
    x.1 < utop ∧ ph.OnPage (pgnum x.1) := by
  obtain ⟨k, hk, rfl⟩ := List.mem_map.1 hx
  have hk' := List.mem_range.1 hk
  refine ⟨?_, k, hk', by rw [pgnum_eq, segment_toNat hle hk']⟩
  show (ph.pVa + BitVec.ofNat 32 k).toNat < utop.toNat
  rw [segment_toNat hle hk']
  omega

theorem bytes_nodup (elf : Elf) : ((ph.bytes elf).map Prod.fst).Nodup := by
  rw [Proghdr.bytes, List.map_map]
  refine List.Nodup.map_on (fun k hk k' hk' heq => ?_) List.nodup_range
  have h := congrArg BitVec.toNat heq
  simp only [Function.comp_apply, segment_toNat hle (List.mem_range.1 hk),
    segment_toNat hle (List.mem_range.1 hk')] at h
  omega

theorem mem_pages {a : Word} (ha : a ∈ ph.pages) : a < utop ∧ ph.OnPage (pgnum a) := by
  obtain ⟨k, hk, rfl⟩ := List.mem_map.1 ha
  have hk' := List.mem_range.1 hk
  refine ⟨region_lt_utop hle hk', ?_⟩
  obtain ⟨b, hlo, hhi, hb⟩ := exists_byte hle hk'
  refine ⟨b - ph.pVa.toNat, by omega, ?_⟩
  rw [pgnum_eq, (region_toNat hle hk').1]
  omega

theorem pages_nodup : (ph.pages.map pgnum).Nodup := by
  rw [Proghdr.pages, regionList, List.map_map]
  refine List.Nodup.map_on (fun k hk k' hk' heq => ?_) List.nodup_range
  simp only [Function.comp_apply, pgnum_eq, (region_toNat hle (List.mem_range.1 hk)).1,
    (region_toNat hle (List.mem_range.1 hk')).1] at heq
  omega

/-- The pages of the segment are all that its bytes need. -/
theorem exists_page (hfits : ph.pVa.toNat % 4096 + ph.pMemsz.toNat ≤
    (roundUp ph.pMemsz pgsize).toNat) {n : Nat} (hn : ph.OnPage n) :
    ∃ a ∈ ph.pages, pgnum a = n := by
  have hu := utop_toNat
  obtain ⟨k, hk, rfl⟩ := hn
  rw [roundUp_toNat] at hfits
  have hlt : (ph.pVa.toNat + k) / 4096 - ph.pVa.toNat / 4096 < regionPages ph.pMemsz := by
    rw [regionPages_eq (by omega)]
    omega
  refine ⟨_, List.mem_map_of_mem (List.mem_range.2 hlt), ?_⟩
  rw [pgnum_eq, (region_toNat hle hlt).1]
  omega

end

/-! ## Where the loading stands -/

/-- The registers are not part of the address space. -/
theorem setTf_target (s : Kernel) (e : EnvIndex) (tf : Trapframe) :
    (s.setEnv e { s.envs e with envTf := tf }).target = s.target := by
  refine target_congr (fun e' => ?_) (fun _ _ _ _ _ => rfl) fun _ _ _ _ => rfl
  by_cases he : e' = e
  · subst he
    simp [Kernel.dir]
  · exact dir_congr (by simp [he])

/-- Environment `e` has been loaded, from `s₀` on, to the point that the pages at the addresses `L`
are mapped and the bytes `W` are stored.  The CPU uses the directory in page `c`. -/
structure Loaded (res : Nat → Prop) (fl₀ : List Nat) (s₀ : Kernel) (e : EnvIndex) (d c : Nat)
    (env : Env) (L : List Word) (W : List (Word × Byte)) (fl : List Nat) (s : Kernel) : Prop where
  inv : Inv res fl s
  frame : Frame res (· = e) s₀ s
  env : s.envs e = env
  dir : s.dir e = some d
  cr3 : s.cr3 s.cpunum = c
  free : fl ⊆ fl₀
  tables : ∀ i t, s.table e i = some t →
    t ∈ fl₀ ∧ s.mem d i = page2pa t ||| pteP ||| pteW ||| pteU
  mapped : ∀ a ∈ L, ∃ p ∈ fl₀, s.entry e (pdx a) (ptx a) = page2pa p ||| pteP ||| regionPerm
  /-- Nothing else is mapped, -/
  only : ∀ i j p, s.leaf e i j = some p → ∃ a ∈ L, pdx a = i ∧ ptx a = j
  /-- and nobody else maps any of it. -/
  sole : ∀ i j p k, s.leaf e i j = some p → s.target k = some p → k = .page e i j
  bytes : ∀ x ∈ W, ∃ p, s.leaf e (pdx x.1) (ptx x.1) = some p ∧
    byteAt (s.mem p) (pgoff x.1) = x.2
  others : ∀ p, p ∉ fl₀ → p ≠ d → s.mem p = s₀.mem p

namespace Loaded

variable {L A : List Word} {W l : List (Word × Byte)}

/-- Nothing has been mapped. -/
theorem start (h : Inv res fl s) (hd : s.dir e = some d) (hnew : ∀ i, s.table e i = none) :
    Loaded res fl s e d (s.cr3 s.cpunum) (s.envs e) [] [] fl s where
  inv := h
  frame := Frame.refl _ _ _
  env := rfl
  dir := hd
  cr3 := rfl
  free := List.Subset.refl fl
  tables i t ht := absurd ((hnew i).symm.trans ht) (by simp)
  mapped a ha := absurd ha List.not_mem_nil
  only i j p hp := absurd ((leaf_eq_none (hnew i) j).symm.trans hp) (by simp)
  sole i j p k hp := absurd ((leaf_eq_none (hnew i) j).symm.trans hp) (by simp)
  bytes x hx := absurd hx List.not_mem_nil
  others p _ _ := rfl

theorem lcr3 (h : Loaded res fl₀ s₀ e d c env L W fl s) (c' : Nat) :
    Loaded res fl₀ s₀ e d c' env L W fl (s.lcr3 c') where
  inv := h.inv.of_cpus s.cpus _ _
  frame := h.frame.trans (Frame.of_eq rfl rfl rfl rfl)
  env := h.env
  dir := h.dir
  cr3 := by simp [Kernel.lcr3]
  free := h.free
  tables := h.tables
  mapped := h.mapped
  only := h.only
  sole := h.sole
  bytes := h.bytes
  others := h.others

/-- The registers may change at any point. -/
theorem setTf (h : Loaded res fl₀ s₀ e d c env L W fl s) (tf : Trapframe) :
    Loaded res fl₀ s₀ e d c { env with envTf := tf } L W fl
      (s.setEnv e { s.envs e with envTf := tf }) := by
  have htgt := setTf_target s e tf
  have hdir := congrFun htgt (.dir e)
  have htab : ∀ i, (s.setEnv e { s.envs e with envTf := tf }).table e i = s.table e i := fun i =>
    congrFun htgt (.table e i)
  have hleaf : ∀ i j, (s.setEnv e { s.envs e with envTf := tf }).leaf e i j = s.leaf e i j :=
    fun i j => congrFun htgt (.page e i j)
  refine ⟨h.inv.of_setEnv rfl rfl Iff.rfl,
    h.frame.trans ⟨fun e' he => ?_, fun _ _ => rfl, rfl, rfl⟩, ?_, hdir.trans h.dir, h.cr3, h.free,
    fun i t ht => h.tables i t ((htab i).symm.trans ht), fun a ha => ?_,
    fun i j p hp => h.only i j p ((hleaf i j).symm.trans hp), fun i j p k hp hk =>
      h.sole i j p k ((hleaf i j).symm.trans hp) (htgt ▸ hk), fun x hx => ?_, h.others⟩
  · simp [he]
  · rw [setEnv_envs, Function.update_self, h.env]
  · rw [Kernel.entry, htab]
    exact h.mapped a ha
  · rw [hleaf]
    exact h.bytes x hx

/-- What the hardware makes of an address on one of the pages. -/
theorem translate (h : Loaded res fl₀ s₀ e d c env L W fl s) (h₀ : Inv res fl₀ s₀) {a : Word}
    (ha : a ∈ L) (hpg : pgnum va = pgnum a)
    (hneed : need &&& (pteP ||| pteW ||| pteU) = need) :
    ∃ p, s.leaf e (pdx va) (ptx va) = some p ∧ s.translate d need va = some (p, pgoff va) := by
  obtain ⟨p, hp, hentry⟩ := h.mapped a ha
  obtain ⟨h1, h2⟩ := pdx_ptx_of_pgnum hpg
  have hframed : framed (page2pa p ||| pteP ||| regionPerm) = some p :=
    framed_entry (Inv.lt_pow s₀ (h₀.free_lt hp)) (by decide)
  rw [← h1, ← h2] at hentry
  have hleaf : s.leaf e (pdx va) (ptx va) = some p := by rw [leaf_eq_framed, hentry, hframed]
  obtain ⟨t, ht, -⟩ := leaf_eq_some.1 hleaf
  obtain ⟨htf, hpde⟩ := h.tables _ t ht
  have hall : ∀ x k : Word, k = pteP ||| pteW ||| pteU → (x ||| k) &&& need = need := by
    rintro x k rfl
    rw [← hneed, BitVec.and_comm need, ← BitVec.and_assoc, or_and_of_and x BitVec.and_self]
  refine ⟨p, hleaf, translate_of_entry h.dir ht ?_ ?_ (hentry ▸ hframed)⟩
  · rw [hpde, BitVec.or_assoc, BitVec.or_assoc]
    exact hall _ _ (by decide)
  · rw [hentry, BitVec.or_assoc]
    exact hall _ _ (by decide)

/-- A page is one of those mapped if an address on it leads to one. -/
theorem on_page (h : Loaded res fl₀ s₀ e d c env L W fl s)
    (hp : s.leaf e (pdx va) (ptx va) = some p) : ∃ a ∈ L, pgnum va = pgnum a := by
  obtain ⟨a, ha, h1, h2⟩ := h.only _ _ p hp
  exact ⟨a, ha, pgnum_inj h1.symm h2.symm⟩

/-- The pages of the environment were free. -/
theorem leaf_free (h : Loaded res fl₀ s₀ e d c env L W fl s) (h₀ : Inv res fl₀ s₀)
    (hp : s.leaf e i j = some p) : p ∈ fl₀ := by
  obtain ⟨a, ha, rfl, rfl⟩ := h.only i j p hp
  obtain ⟨q, hq, hentry⟩ := h.mapped a ha
  have hframed : framed (page2pa q ||| pteP ||| regionPerm) = some q :=
    framed_entry (Inv.lt_pow s₀ (h₀.free_lt hq)) (by decide)
  rw [leaf_eq_framed, hentry, hframed] at hp
  exact Option.some_inj.1 hp ▸ hq

/-- A page that is neither free, nor a page table of the environment, nor its directory. -/
theorem data_or_other (h : Loaded res fl₀ s₀ e d c env L W fl s) (hp : p ∉ fl₀) (hpd : p ≠ d) :
    s.IsData fl p ∨ ¬ Private res (· = e) s p := by
  by_cases hnode : ∃ k : Slot, k.IsNode ∧ s.target k = some p
  · obtain ⟨k, hk, htgt⟩ := hnode
    refine Or.inr fun hpriv => ?_
    have henv : k.env = e := hpriv.2 k htgt
    cases k with
    | dir e' =>
      obtain rfl : e' = e := henv
      exact hpd (Option.some_inj.1 (htgt.symm.trans h.dir))
    | table e' i =>
      obtain rfl : e' = e := henv
      exact hp (h.tables i p htgt).1
    | page e' i j => exact hk
  · simp only [not_exists, not_and] at hnode
    exact Or.inl ⟨fun hm => hp (h.free hm), hnode⟩

/-! ### One more page -/

/-- **Mapping a new page** takes nothing away. -/
theorem page (h : Loaded res fl₀ s₀ e d c env L W (pp :: rest) s) (hva : va < utop)
    (hout : ∀ a ∈ L, pgnum a ≠ pgnum va)
    (hput : PagePut res rest (s.pop pp) e d va regionPerm pp fl' s') :
    Loaded res fl₀ s₀ e d c env (L ++ [va]) W fl' s' := by
  have hmem : pp ∈ pp :: rest := List.mem_cons_self
  have hlt := Inv.lt_pow s (h.inv.free_lt hmem)
  have hd : (s.pop pp).dir e = some d := h.dir
  have hinv := h.inv.pop
  have hpop : Frame res (· = e) s (s.pop pp) := Frame.of_eq rfl rfl rfl rfl
  have hmo := hput.inserted.edited.memOnly
  have hentry : ∀ i j, s'.entry e i j = if i = pdx va ∧ j = ptx va then
      page2pa pp ||| pteP ||| regionPerm else s.entry e i j := by
    intro i j
    rw [hput.inserted.edited.entry, setEntry]
    by_cases hij : i = pdx va ∧ j = ptx va
    · rw [if_pos ⟨rfl, hij⟩, if_pos hij]
    · rw [if_neg fun hh => hij hh.2, if_neg hij]
      rfl
  have htgt : ∀ k : Slot, ¬ k.IsNode →
      s'.target k = if k = .page e (pdx va) (ptx va) then some pp else s.target k := fun k hk =>
    hput.target_page hlt (by decide) hk
  have hnone : s.leaf e (pdx va) (ptx va) = none := by
    by_contra hsome
    obtain ⟨p, hp⟩ := Option.ne_none_iff_exists'.1 hsome
    obtain ⟨a, ha, hpg⟩ := h.on_page hp
    exact hout a ha hpg.symm
  have hfl : fl' ⊆ rest := by
    cases ht : (s.pop pp).table e (pdx va) with
    | none =>
      obtain ⟨t, rfl, -⟩ := hput.missing ht
      exact List.subset_cons_self t fl'
    | some t =>
      have hleaf : (s.pop pp).leaf e (pdx va) (ptx va) = none := hnone
      rw [(hput.present (by simp [ht])).2, hleaf, released]
      exact List.Subset.refl _
  have hrest : rest ⊆ fl₀ := fun p hp => h.free (List.mem_cons_of_mem _ hp)
  have hold : ∀ i j, ¬ (i = pdx va ∧ j = ptx va) → s'.leaf e i j = s.leaf e i j := by
    intro i j hij
    rw [leaf_eq_framed, hentry, if_neg hij, ← leaf_eq_framed]
  have hdata : ∀ k p, ¬ k.IsNode → s.target k = some p → s'.mem p = s.mem p := by
    intro k p hk hp
    refine hput.inserted.edited.data p ⟨fun hm => ?_, fun k' hk' hp' => ?_⟩
    · exact h.inv.ok.free_unref p (List.mem_cons_of_mem _ hm) k hp
    · have heq : k = k' := h.inv.ok.node_unique k' p hk' hp' k hp
      exact hk (heq ▸ hk')
  refine
    { inv := hput.inv
      frame := h.frame.trans (hpop.trans hput.inserted.edited.frame)
      env := (congrFun hmo.envs e).trans h.env
      dir := hput.dir hd
      cr3 := by rw [hmo.cr3, hmo.cpunum]; exact h.cr3
      free := fun p hp => hrest (hfl hp)
      tables := fun i t ht => ?_
      mapped := fun a ha => ?_
      only := fun i j p hp => ?_
      sole := fun i j p k hp hk => ?_
      bytes := fun x hx => ?_
      others := fun p hp hpd => ?_ }
  · by_cases hi : i = pdx va → (s.pop pp).table e (pdx va) ≠ none
    · rw [hput.table hd hi] at ht
      rw [hput.pde i hi]
      exact h.tables i t ht
    · simp only [Classical.not_imp, not_not] at hi
      obtain ⟨rfl, hmiss⟩ := hi
      obtain ⟨t', hfl', hnew⟩ := hput.table_new hd hinv hva hmiss
      obtain ⟨t'', hfl'', hpde, -⟩ := hput.missing hmiss
      obtain rfl : t' = t := Option.some_inj.1 (hnew.symm.trans ht)
      obtain rfl : t' = t'' := (List.cons.inj (hfl'.symm.trans hfl'')).1
      exact ⟨hrest (hfl' ▸ List.mem_cons_self), hpde⟩
  · rcases List.mem_append.1 ha with ha | ha
    · obtain ⟨p, hp, hpa⟩ := h.mapped a ha
      refine ⟨p, hp, ?_⟩
      rw [hentry, if_neg fun hij => hout a ha (pgnum_inj hij.1 hij.2), hpa]
    · obtain rfl := List.mem_singleton.1 ha
      exact ⟨pp, h.free hmem, by rw [hentry, if_pos ⟨rfl, rfl⟩]⟩
  · by_cases hij : i = pdx va ∧ j = ptx va
    · exact ⟨va, List.mem_append_right L (List.mem_singleton_self va), hij.1.symm, hij.2.symm⟩
    · rw [hold i j hij] at hp
      obtain ⟨a, ha, heq⟩ := h.only i j p hp
      exact ⟨a, List.mem_append_left _ ha, heq⟩
  · have hk' : ¬ k.IsNode := fun hn => by
      have heq := hput.inv.ok.node_unique k p hn hk (.page e i j) hp
      rw [← heq] at hn
      exact hn
    rw [htgt k hk'] at hk
    by_cases hij : i = pdx va ∧ j = ptx va
    · obtain ⟨rfl, rfl⟩ := hij
      have hpp : s'.leaf e (pdx va) (ptx va) = some pp := by
        rw [leaf_eq_framed, hentry, if_pos ⟨rfl, rfl⟩, framed_entry hlt (by decide)]
      obtain rfl : pp = p := Option.some_inj.1 (hpp.symm.trans hp)
      by_contra hne
      rw [if_neg hne] at hk
      exact h.inv.ok.free_unref pp hmem k hk
    · rw [hold i j hij] at hp
      by_cases hkv : k = .page e (pdx va) (ptx va)
      · rw [if_pos hkv] at hk
        obtain rfl := Option.some_inj.1 hk
        exact absurd hp (h.inv.ok.free_unref pp hmem (.page e i j))
      · rw [if_neg hkv] at hk
        exact h.sole i j p k hp hk
  · obtain ⟨p, hp, hb⟩ := h.bytes x hx
    obtain ⟨a, ha, hpg⟩ := h.on_page hp
    refine ⟨p, (hold _ _ fun hij => ?_).trans hp, ?_⟩
    · exact hout a ha (hpg.symm.trans (pgnum_inj hij.1 hij.2))
    · rw [hdata (.page e _ _) p id hp]
      exact hb
  · refine Eq.trans ?_ (h.others p hp hpd)
    rcases h.data_or_other hp hpd with ⟨hm, hnode⟩ | hpriv
    · exact hput.inserted.edited.data p ⟨fun hm' => hm (List.mem_cons_of_mem _ hm'), hnode⟩
    · exact hput.inserted.edited.frame.mem p hpriv

/-! ### More bytes -/

/-- **Storing bytes** at addresses that are mapped, and where nothing has been stored yet. -/
theorem store (h : Loaded res fl₀ s₀ e d d env L W fl s) (h₀ : Inv res fl₀ s₀)
    (hlt : ∀ x ∈ l, x.1 < utop) (hon : ∀ x ∈ l, ∃ a ∈ L, pgnum x.1 = pgnum a)
    (hne : ((W ++ l).map Prod.fst).Nodup) :
    ∃ s', (storeBytes l).run s = .ok () s' ∧ Loaded res fl₀ s₀ e d d env L (W ++ l) fl s' ∧
      ∀ i, s'.table e i = s.table e i := by
  have hneed : (pteP ||| pteW) &&& (pteP ||| pteW ||| pteU) = pteP ||| pteW := by decide
  have htr : ∀ x ∈ l, ∃ p, s.leaf e (pdx x.1) (ptx x.1) = some p ∧
      s.translate d (pteP ||| pteW) x.1 = some (p, pgoff x.1) := fun x hx => by
    obtain ⟨a, ha, hpg⟩ := hon x hx
    exact h.translate h₀ ha hpg hneed
  -- an address is found from its page and its offset
  have hinj : ∀ x y : Word, ∀ p, s.leaf e (pdx x) (ptx x) = some p →
      s.leaf e (pdx y) (ptx y) = some p → pgoff x = pgoff y → x = y := by
    intro x y p hx hy hoff
    have hslot := h.sole _ _ p (.page e (pdx y) (ptx y)) hx hy
    injection hslot with _ h1 h2
    have hpg := pgnum_inj h1 h2
    rw [pgnum_eq, pgnum_eq] at hpg
    rw [pgoff_eq, pgoff_eq] at hoff
    exact BitVec.eq_of_toNat_eq (by omega)
  rw [List.map_append, List.nodup_append] at hne
  have hnodup : (l.map fun x => s.translate d (pteP ||| pteW) x.1).Nodup := by
    refine List.Nodup.map_on (fun x hx y hy heq => ?_) (List.Nodup.of_map _ hne.2.1)
    obtain ⟨p, hp, hpx⟩ := htr x hx
    obtain ⟨q, hq, hqy⟩ := htr y hy
    rw [hpx, hqy, Option.some_inj, Prod.mk.injEq] at heq
    obtain ⟨rfl, hoff⟩ := heq
    exact List.inj_on_of_nodup_map hne.2.1 hx hy (hinj _ _ p hp hq hoff)
  obtain ⟨s', hrun, hst, hnew, hkeep⟩ := storeBytes_stored h.dir hlt h.inv h.cr3
    (fun x hx => by obtain ⟨p, -, hpx⟩ := htr x hx; simp [hpx]) hnodup
  have htgt : s'.target = s.target := hst.target
  have hleaf : ∀ i j, s'.leaf e i j = s.leaf e i j := fun i j => congrFun htgt (.page e i j)
  have htab : ∀ i, s'.table e i = s.table e i := fun i => congrFun htgt (.table e i)
  -- a page of nobody's, or of somebody else's, is not stored to
  have hpage : ∀ p, (∀ i j, s.leaf e i j ≠ some p) → s'.mem p = s.mem p := by
    intro p hp
    refine page_ext fun o ho => hkeep p o ho fun x hx heq => ?_
    obtain ⟨q, hq, hqx⟩ := htr x hx
    rw [hqx, Option.some_inj, Prod.mk.injEq] at heq
    exact hp _ _ (heq.1 ▸ hq)
  refine ⟨s', hrun, ?_, htab⟩
  refine
    { inv := hst.inv
      frame := h.frame.trans ⟨fun e' _ => congrFun hst.only.envs e', fun p hp => hpage p ?_,
        hst.only.kernPgdir, hst.only.npages⟩
      env := (congrFun hst.only.envs e).trans h.env
      dir := (hst.dir e).trans h.dir
      cr3 := by rw [hst.only.cr3, hst.only.cpunum]; exact h.cr3
      free := h.free
      tables := fun i t ht => ?_
      mapped := fun a ha => ?_
      only := fun i j p hp => h.only i j p ((hleaf i j).symm.trans hp)
      sole := fun i j p k hp hk => h.sole i j p k ((hleaf i j).symm.trans hp) (htgt ▸ hk)
      bytes := fun x hx => ?_
      others := fun p hp hpd => ?_ }
  · intro i j hij
    refine hp ⟨h.inv.target_res (k := .page e i j) hij, fun k hk => ?_⟩
    rw [h.sole i j p k hij hk]
    rfl
  · rw [hst.node (.dir e) trivial d h.dir]
    exact h.tables i t ((htab i).symm.trans ht)
  · obtain ⟨p, hp, hentry⟩ := h.mapped a ha
    refine ⟨p, hp, ?_⟩
    rw [Kernel.entry, htab, ← hentry, Kernel.entry]
    cases ht : s.table e (pdx a) with
    | none => rfl
    | some t => exact congrFun (hst.node (.table e (pdx a)) trivial t ht) _
  · rcases List.mem_append.1 hx with hx | hx
    · obtain ⟨p, hp, hb⟩ := h.bytes x hx
      refine ⟨p, (hleaf _ _).trans hp, ?_⟩
      rw [hkeep p _ (by rw [pgoff_eq]; exact Nat.mod_lt _ (by decide)) fun y hy heq => ?_, hb]
      obtain ⟨q, hq, hqy⟩ := htr y hy
      rw [hqy, Option.some_inj, Prod.mk.injEq] at heq
      obtain ⟨rfl, hoff⟩ := heq
      exact hne.2.2 _ (List.mem_map_of_mem hx) _ (List.mem_map_of_mem hy)
        (hinj _ _ q hp hq hoff.symm)
    · obtain ⟨p, hp, hpx⟩ := htr x hx
      exact ⟨p, (hleaf _ _).trans hp, hnew x hx p _ hpx⟩
  · exact (hpage p fun i j hij => hp (h.leaf_free h₀ hij)).trans (h.others p hp hpd)

/-! ### Segments -/

/-- The pages of a region. -/
theorem pages (h : Loaded res fl₀ s₀ e d c env L W fl s) (hlt : ∀ a ∈ A, a < utop)
    (hne : ((L ++ A).map pgnum).Nodup) {B : List Word} (hroom : Room e (A ++ B) fl s) :
    ∃ fl' s', (A.forM (regionAllocPage e)).run s = .ok () s' ∧
      Loaded res fl₀ s₀ e d c env (L ++ A) W fl' s' ∧ Room e B fl' s' := by
  induction A generalizing L fl s with
  | nil => exact ⟨fl, s, rfl, by rwa [List.append_nil], hroom⟩
  | cons a A ih =>
    have ha := hlt a List.mem_cons_self
    rw [List.cons_append] at hroom
    rcases h.inv.regionAllocPage_cases h.dir ha with
      ⟨x, s₁, -, hfull⟩ | ⟨pp, rest, fl₁, s₁, rfl, hrun, hput⟩
    · have hneed := tablesFor_le_needed s e a (A ++ B)
      rw [Room, List.length_cons] at hroom
      omega
    · have hout : ∀ b ∈ L, pgnum b ≠ pgnum a := by
        rw [List.map_append, List.nodup_append] at hne
        exact fun b hb => hne.2.2 _ (List.mem_map_of_mem hb) _ (by simp)
      obtain ⟨fl₂, s₂, hrun₂, h₂, hroom₂⟩ := ih (h.page ha hout hput)
        (fun b hb => hlt b (List.mem_cons_of_mem _ hb)) (by simpa using hne)
        (hroom.step h.inv.pop h.dir ha hput)
      have hcons : (a :: A).forM (regionAllocPage e) =
        (do regionAllocPage e a; A.forM (regionAllocPage e)) := rfl
      refine ⟨fl₂, s₂, ?_, by simpa using h₂, hroom₂⟩
      rw [hcons, run_bind_ok hrun, hrun₂]

end Loaded

theorem regionAlloc_pages (e : EnvIndex) (va len : Word) :
    regionAlloc e va len = (regionList va len).forM (regionAllocPage e) := by
  rw [regionAlloc_eq, regionList, List.forM_eq_forM, List.forM_eq_forM, List.forM_map]

/-- The copying and the clearing of a segment, as one sequence of stores. -/
theorem copyIn_bytes (hfile : ph.pFilesz.toNat ≤ ph.pMemsz.toNat) : (do
    copyIn ph.pVa (fun k => elf.binary (ph.pOffset + BitVec.ofNat 32 k)) ph.pFilesz.toNat
    copyIn (ph.pVa + ph.pFilesz) (fun _ => 0#8) (ph.pMemsz - ph.pFilesz).toNat) =
      storeBytes (ph.bytes elf) := by
  have hcopy : ∀ (va : Word) (src : Nat → Byte) (n : Nat), copyIn va src n =
      storeBytes ((List.range n).map fun k => (va + BitVec.ofNat 32 k, src k)) := by
    intro va src n
    rw [copyIn, storeBytes, List.forM_eq_forM, List.forM_eq_forM, List.forM_map]
  have hsplit : ph.pMemsz.toNat = ph.pFilesz.toNat + (ph.pMemsz - ph.pFilesz).toNat := by
    rw [BitVec.toNat_sub_of_le hfile]
    omega
  rw [hcopy, hcopy, ← storeBytes_append, Proghdr.bytes, hsplit, List.range_add, List.map_append,
    List.map_map]
  congr 2
  · refine List.map_congr_left fun k hk => ?_
    rw [Proghdr.byte, if_pos (List.mem_range.1 hk)]
  · refine List.map_congr_left fun k _ => ?_
    have hva : BitVec.ofNat 32 (ph.pFilesz.toNat + k) = ph.pFilesz + BitVec.ofNat 32 k := by
      rw [BitVec.ofNat_add, BitVec.ofNat_toNat, BitVec.setWidth_eq]
    simp only [Function.comp_apply, Proghdr.byte, if_neg (Nat.not_lt.2 (Nat.le_add_right _ _)), hva,
      BitVec.add_assoc]

namespace Loaded

variable {L A : List Word} {W l : List (Word × Byte)}

/-- **One segment.** -/
theorem segment (h : Loaded res fl₀ s₀ e d d env L W fl s) (h₀ : Inv res fl₀ s₀)
    (hload : ph.pType = elfProgLoad) (hle : ph.pVa.toNat + ph.pMemsz.toNat ≤ utop.toNat)
    (hfile : ph.pFilesz.toNat ≤ ph.pMemsz.toNat)
    (hfits : ph.pVa.toNat % 4096 + ph.pMemsz.toNat ≤ (roundUp ph.pMemsz pgsize).toNat)
    (hpages : ((L ++ ph.pages).map pgnum).Nodup)
    (hbytes : ((W ++ ph.bytes elf).map Prod.fst).Nodup) {B : List Word}
    (hroom : Room e (ph.pages ++ B) fl s) :
    ∃ fl' s', (loadSegment e elf ph).run s = .ok () s' ∧
      Loaded res fl₀ s₀ e d d env (L ++ ph.pages) (W ++ ph.bytes elf) fl' s' ∧ Room e B fl' s' := by
  obtain ⟨fl₁, s₁, hrun₁, h₁, hroom₁⟩ := h.pages (fun a ha => (mem_pages hle ha).1) hpages hroom
  obtain ⟨s₂, hrun₂, h₂, htab⟩ := h₁.store h₀ (fun x hx => (mem_bytes hle hx).1) (fun x hx => by
    obtain ⟨a, ha, hpg⟩ := exists_page hle hfits (mem_bytes hle hx).2
    exact ⟨a, List.mem_append_right L ha, hpg.symm⟩) hbytes
  have hrun₁' : (regionAlloc e ph.pVa ph.pMemsz).run s = .ok () s₁ := by
    rw [regionAlloc_pages]
    exact hrun₁
  have hsz : ¬ ph.pMemsz < ph.pFilesz := Nat.not_lt.2 hfile
  refine ⟨fl₁, s₂, ?_, h₂, ?_⟩
  · rw [loadSegment, if_pos hload, if_neg hsz]
    show EStateM.run (do
      regionAlloc e ph.pVa ph.pMemsz
      copyIn ph.pVa (fun k => elf.binary (ph.pOffset + BitVec.ofNat 32 k)) ph.pFilesz.toNat
      copyIn (ph.pVa + ph.pFilesz) (fun _ => 0#8) (ph.pMemsz - ph.pFilesz).toNat : KernelM Unit) s =
        .ok () s₂
    rw [run_bind_ok hrun₁', copyIn_bytes hfile, hrun₂]
  · simpa only [Room, Kernel.tablesNeeded, htab] using hroom₁

/-- **The loop over the headers.** -/
theorem segments (h₀ : Inv res fl₀ s₀) {l : List Proghdr}
    (h : Loaded res fl₀ s₀ e d d env L W fl s)
    (hseg : ∀ ph ∈ loadedOnly l,
      ph.pVa.toNat + ph.pMemsz.toNat ≤ utop.toNat ∧ ph.pFilesz.toNat ≤ ph.pMemsz.toNat ∧
      ph.pVa.toNat % 4096 + ph.pMemsz.toNat ≤ (roundUp ph.pMemsz pgsize).toNat)
    (hpages : ((L ++ (loadedOnly l).flatMap Proghdr.pages).map pgnum).Nodup)
    (hbytes : ((W ++ (loadedOnly l).flatMap (Proghdr.bytes elf)).map
      Prod.fst).Nodup) {B : List Word}
    (hroom : Room e ((loadedOnly l).flatMap Proghdr.pages ++ B) fl s) :
    ∃ fl' s', (l.forM (loadSegment e elf)).run s = .ok () s' ∧
      Loaded res fl₀ s₀ e d d env (L ++ (loadedOnly l).flatMap Proghdr.pages)
        (W ++ (loadedOnly l).flatMap (Proghdr.bytes elf)) fl' s' ∧
      Room e B fl' s' := by
  induction l generalizing L W fl s with
  | nil => exact ⟨fl, s, rfl, by simpa [loadedOnly] using h, by simpa [loadedOnly] using hroom⟩
  | cons ph l ih =>
    have hcons : (ph :: l).forM (loadSegment e elf) =
      (do loadSegment e elf ph; l.forM (loadSegment e elf)) := rfl
    rw [hcons]
    by_cases hload : ph.pType = elfProgLoad
    · rw [loadedOnly_load hload] at hseg hpages hbytes hroom ⊢
      simp only [List.flatMap_cons, ← List.append_assoc] at hpages hbytes hroom ⊢
      obtain ⟨hle, hfile, hfits⟩ := hseg ph List.mem_cons_self
      obtain ⟨fl₁, s₁, hrun₁, h₁, hroom₁⟩ := h.segment h₀ hload hle hfile hfits
        (by rw [List.map_append] at hpages; exact (List.nodup_append.1 hpages).1)
        (by rw [List.map_append] at hbytes; exact (List.nodup_append.1 hbytes).1)
        (List.append_assoc _ _ B ▸ hroom)
      obtain ⟨fl₂, s₂, hrun₂, h₂, hroom₂⟩ := ih h₁
        (fun ph' hph' => hseg ph' (List.mem_cons_of_mem _ hph')) hpages hbytes hroom₁
      exact ⟨fl₂, s₂, by rw [run_bind_ok hrun₁, hrun₂], h₂, hroom₂⟩
    · rw [loadedOnly_skip hload] at hseg hpages hbytes hroom ⊢
      have hskip : (loadSegment e elf ph).run s = .ok () s := by
        rw [loadSegment, if_neg hload]
        rfl
      obtain ⟨fl₂, s₂, hrun₂, h₂, hroom₂⟩ := ih h hseg hpages hbytes hroom
      exact ⟨fl₂, s₂, by rw [run_bind_ok hskip, hrun₂], h₂, hroom₂⟩

end Loaded

/-! ## The whole of it -/

/-- Environment `e`, whose directory is in page `d`, has been given the program: its segments are
where they belong, there is a stack, and it starts at the entry point.  Other environments, and the
pages that were not free in `s`, are as they were. -/
structure Faithful (elf : Elf) (fl : List Nat) (s : Kernel) (e : EnvIndex) (d : Nat) (s' : Kernel) :
    Prop where
  dir : s'.dir e = some d
  bytes : ∀ ph ∈ elf.segments, ∀ k < ph.pMemsz.toNat,
    s'.readByte d (pteP ||| pteU) (ph.pVa + BitVec.ofNat 32 k) = some (ph.byte elf k)
  stack : ∀ va, ustacktop - pgsize ≤ va → va < ustacktop →
    ∃ p, s'.translate d (pteP ||| pteU ||| pteW) va = some (p, pgoff va)
  entry : (s'.envs e).envTf.tfEip = elf.eEntry
  others : ∀ e' d', e' ≠ e → s.dir e' = some d' → SameView s s' d'
  pages : ∀ p, p ∉ fl → p ≠ d → s'.mem p = s.mem p

namespace Elf.Loadable

variable (h : elf.Loadable)
include h

theorem pages_nodup : (elf.pages.map pgnum).Nodup := by
  rw [Elf.pages, List.map_append, List.map_flatMap, List.nodup_append, List.nodup_flatMap]
  refine ⟨⟨fun ph hph => Jos.pages_nodup (segment_le hph), ?_⟩, List.nodup_singleton _, ?_⟩
  · refine h.disjoint.imp_of_mem fun {ph ph'} hph hph' hdis => ?_
    intro n hn hn'
    obtain ⟨a, ha, rfl⟩ := List.mem_map.1 hn
    obtain ⟨b, hb, heq⟩ := List.mem_map.1 hn'
    exact hdis _ (mem_pages (segment_le hph) ha).2 (heq ▸ (mem_pages (segment_le hph') hb).2)
  · intro n hn n' hn' heq
    obtain ⟨ph, hph, hn⟩ := List.mem_flatMap.1 hn
    obtain ⟨a, ha, rfl⟩ := List.mem_map.1 hn
    obtain rfl := List.mem_singleton.1 hn'
    exact h.stack ph hph (heq ▸ (mem_pages (segment_le hph) ha).2)

theorem bytes_nodup : ((elf.segments.flatMap (Proghdr.bytes elf)).map Prod.fst).Nodup := by
  rw [List.map_flatMap, List.nodup_flatMap]
  refine ⟨fun ph hph => Jos.bytes_nodup (segment_le hph) elf, ?_⟩
  refine h.disjoint.imp_of_mem fun {ph ph'} hph hph' hdis => ?_
  intro va hva hva'
  obtain ⟨x, hx, rfl⟩ := List.mem_map.1 hva
  obtain ⟨y, hy, heq⟩ := List.mem_map.1 hva'
  exact hdis _ (mem_bytes (segment_le hph) hx).2 (heq ▸ (mem_bytes (segment_le hph') hy).2)

end Elf.Loadable

/-- **`load_icode` loads faithfully.**  It is called for an environment that has just been
allocated, so nothing is mapped for it below `UTOP`. -/
theorem Inv.loadIcode_faithful (h : Inv res fl s) (hd : s.dir e = some d)
    (hnew : ∀ i, s.table e i = none) (hload : elf.Loadable) (hroom : Room e elf.pages fl s) :
    ∃ s', (loadIcode e elf).run s = .ok () s' ∧ Faithful elf fl s e d s' := by
  have hpages := hload.pages_nodup
  have hsegs : ((elf.segments.flatMap Proghdr.pages).map pgnum).Nodup := by
    rw [Elf.pages, List.map_append] at hpages
    exact (List.nodup_append.1 hpages).1
  -- the segments
  have h₁ := (Loaded.start h hd hnew).lcr3 d
  obtain ⟨fl₂, s₂, hrun₂, h₂, hroom₂⟩ := h₁.segments (l := elf.proghdrs) h
    (fun ph hph => ⟨Elf.segment_le hph, hload.filesz ph hph, hload.fits ph hph⟩) hsegs
    hload.bytes_nodup (B := [stackPage]) hroom
  rw [List.nil_append, List.nil_append] at h₂
  -- the registers
  have h₃ := (h₂.lcr3 s₂.kernPgdir).setTf { (s₂.envs e).envTf with tfEip := elf.eEntry }
  generalize hs₃ : (s₂.lcr3 s₂.kernPgdir).setEnv e { (s₂.lcr3 s₂.kernPgdir).envs e with
    envTf := { (s₂.envs e).envTf with tfEip := elf.eEntry } } = s₃ at h₃
  have hroom₃ : Room e ([stackPage] ++ []) fl₂ s₃ := by
    have htab : ∀ i, s₃.table e i = s₂.table e i := by
      intro i
      rw [← hs₃]
      exact congrFun (setTf_target (s₂.lcr3 s₂.kernPgdir) e _) (.table e i)
    simpa only [Room, Kernel.tablesNeeded, htab, List.append_nil] using hroom₂
  -- the stack
  have hstack : ∀ a ∈ [stackPage], a < utop := by
    intro a ha
    rw [List.mem_singleton.1 ha]
    decide
  obtain ⟨fl₄, s₄, hrun₄, h₄, -⟩ := h₃.pages (A := [stackPage]) (B := []) hstack hpages hroom₃
  have hrunStack : (regionAlloc e (ustacktop - pgsize) pgsize).run s₃ = .ok () s₄ := by
    have hlist : regionList (ustacktop - pgsize) pgsize = [stackPage] := by decide
    rw [regionAlloc_pages, hlist]
    exact hrun₄
  have hrun : (loadIcode e elf).run s = .ok () s₄ := by
    have hmagic : ¬ elf.eMagic ≠ elfMagic := not_not.2 hload.magic
    have hstart : (loadIcode e elf).run s = EStateM.run (do
        elf.proghdrs.forM (loadSegment e elf)
        modify fun s => s.lcr3 s.kernPgdir
        updateEnv e fun env => { env with envTf := { env.envTf with tfEip := elf.eEntry } }
        regionAlloc e (ustacktop - pgsize) pgsize : KernelM Unit) (s.lcr3 d) := by
      rw [loadIcode, if_neg hmagic]
      simp only [EStateM.run_bind, EStateM.run_get, envPgdir_of_dir hd, paddr]
      rfl
    have hset : (updateEnv e fun env => { env with envTf := { env.envTf with tfEip := elf.eEntry } }
        : KernelM Unit).run (s₂.lcr3 s₂.kernPgdir) = .ok () s₃ := by
      rw [← hs₃]
      rfl
    rw [hstart, run_bind_ok hrun₂, run_bind_ok (EStateM.run_modify _ _), run_bind_ok hset,
      hrunStack]
  have hneed : (pteP ||| pteU) &&& (pteP ||| pteW ||| pteU) = pteP ||| pteU := by decide
  refine ⟨s₄, hrun, h₄.dir, fun ph hph k hk => ?_, fun va hlo hhi => ?_, ?_, fun e' d' he hd' => ?_,
    h₄.others⟩
  · have hx : (ph.pVa + BitVec.ofNat 32 k, ph.byte elf k) ∈
        elf.segments.flatMap (Proghdr.bytes elf) :=
      List.mem_flatMap.2 ⟨ph, hph, List.mem_map_of_mem (List.mem_range.2 hk)⟩
    obtain ⟨p, hp, hb⟩ := h₄.bytes _ hx
    obtain ⟨a, ha, hpg⟩ := h₄.on_page hp
    obtain ⟨q, hq, htr⟩ := h₄.translate h ha hpg hneed
    obtain rfl : p = q := Option.some_inj.1 (hp.symm.trans hq)
    rw [readByte, htr, Option.map_some, hb]
  · have hpg : pgnum va = pgnum stackPage := by
      have hst : stackPage.toNat = 954 * 4194304 + 1021 * 4096 := by decide
      have hlo' : stackPage.toNat ≤ va.toNat := hlo
      have hhi' : va.toNat < ustacktop.toNat := hhi
      have hut : ustacktop.toNat = 954 * 4194304 + 1022 * 4096 := by decide
      rw [pgnum_eq, pgnum_eq]
      omega
    obtain ⟨p, -, htr⟩ := h₄.translate h
      (List.mem_append_right _ (List.mem_singleton_self stackPage)) hpg
      (show (pteP ||| pteU ||| pteW) &&& (pteP ||| pteW ||| pteU) = _ by decide)
    exact ⟨p, htr⟩
  · rw [h₄.env]
  · exact h₄.frame.sameView h he hd'

/-! ## A program -/

/-- A program with a header that is not for loading, and a segment that does not start on a page
boundary and ends in zeros. -/
def twoHeaders : Elf where
  eMagic := elfMagic
  eEntry := 0x800020#32
  proghdrs := [⟨0#32, 0#32, 0#32, 0#32, 0#32⟩, ⟨elfProgLoad, 0x1020#32, 0x800020#32, 96#32, 200#32⟩]
  binary := fun a => a.setWidth 8
  below := by
    intro ph hph
    simp only [List.mem_cons, List.not_mem_nil, or_false] at hph
    rcases hph with rfl | rfl <;> decide

theorem twoHeaders_segments : twoHeaders.segments =
    [⟨elfProgLoad, 0x1020#32, 0x800020#32, 96#32, 200#32⟩] := by
  rw [Elf.segments, twoHeaders, loadedOnly_skip (by decide), loadedOnly_load rfl]
  rfl

theorem twoHeaders_loadable : twoHeaders.Loadable := by
  refine ⟨rfl, ?_, ?_, ?_, ?_⟩ <;> rw [twoHeaders_segments]
  · simp
  · simp only [List.mem_singleton]
    rintro ph rfl
    decide
  · exact List.pairwise_singleton _ _
  · simp only [List.mem_singleton]
    rintro ph rfl ⟨k, hk, heq⟩
    have hst : pgnum stackPage = 954 * 1024 + 1021 := by decide
    have hva : (0x800020#32).toNat = 8388640 := rfl
    have hsz : (200#32).toNat = 200 := rfl
    simp only [hva, hsz] at hk heq
    omega

theorem Inv.loadIcode_faithful_twoHeaders : ∃ fl s d s',
    (loadIcode 0 twoHeaders).run s = .ok () s' ∧ Faithful twoHeaders fl s 0 d s' := by
  obtain ⟨fl₀, s₀, -, hinit⟩ := kernelInit_spec smallMachine
  have hlen : 3852 ≤ fl₀.length + 1024 := Nat.le_trans smallMachine_free hinit.laid.length_le
  cases fl₀ with
  | nil => exact absurd hlen (by decide)
  | cons p fl =>
    have hinv := hinit.booted.inv
    have hfree : s₀.dir 0 = none := if_pos (hinit.envs 0).1
    obtain ⟨htgt, -⟩ := hinv.newEnv_target hinit.head 0#32
    have hd : (s₀.newEnv 0 p 0#32).dir 0 = some p :=
      (congrFun htgt (.dir 0)).trans (Function.update_self _ _ _)
    have hnew : ∀ i, (s₀.newEnv 0 p 0#32).table 0 i = none := fun i =>
      (congrFun htgt (.table 0 i)).trans
        ((Function.update_of_ne (by simp) _ _).trans (table_eq_none hfree i))
    have hpages : twoHeaders.pages.length = 2 := by
      rw [Elf.pages, twoHeaders_segments]
      rfl
    rw [List.length_cons] at hlen
    obtain ⟨s', hrun, hs'⟩ := Inv.loadIcode_faithful (hinv.newEnv hinit.head 0#32) hd hnew
      twoHeaders_loadable (.of_le (by omega))
    exact ⟨fl, s₀.newEnv 0 p 0#32, p, s', hrun, hs'⟩

end Jos
