import Jos.Alloc.Call
import Jos.Alloc.Store
import Jos.Fork

/-!
# Running the library

What the pieces of the user library do when environment `e` runs them: loads from `UVPT`, stores,
the copying of a page, and the system calls that do not touch memory.
-/

set_option autoImplicit false

namespace Jos

open Kernel Command

variable {res : Nat → Prop} {fl fl' : List Nat} {s s' : Kernel} {e : EnvIndex} {d f g p t : Nat}
variable {va dst src need w : Word} {i j : Index} {b : Byte}

/-! ## System calls -/

theorem trapInto_ok {α : Type} {m : KernelM α} {a : α} (h : m.run s = .ok a s') :
    (trapInto m).run s = .ok a s' := by
  have h' : m s = .ok a s' := h
  simp [trapInto, EStateM.adaptExcept, EStateM.run, h']

theorem trapInto_inv {α : Type} {m : KernelM α} {a : α} (h : (trapInto m).run s = .ok a s') :
    m.run s = .ok a s' := by
  have h' : trapInto m s = .ok a s' := h
  rw [trapInto, EStateM.adaptExcept] at h'
  cases hm : m s with
  | ok a' s'' =>
    simp only [hm] at h'
    cases h'
    exact hm
  | error x s'' =>
    simp only [hm] at h'
    cases h'

theorem trapInto_error {α : Type} {m : KernelM α} {x : Exit} (h : m.run s = .error x s') :
    (trapInto m).run s = .error (.left x) s' := by
  have h' : m s = .error x s' := h
  simp [trapInto, EStateM.adaptExcept, EStateM.run, h']

theorem checked_error {m : KernelM Word} {x : Exit} (h : m.run s = .error x s') :
    (checked m).run s = .error (.left x) s' := run_bind_error (trapInto_error h)

/-- A result that is not positive is passed on. -/
theorem checked_ok {m : KernelM Word} {r : Word} (h : m.run s = .ok r s') (hr : ¬ 0 < r.toInt) :
    (checked m).run s = .ok r s' := by
  rw [checked, run_bind_ok (trapInto_ok h), if_neg hr]
  rfl

theorem checked_inv {m : KernelM Word} {r : Word} (h : (checked m).run s = .ok r s') :
    m.run s = .ok r s' := by
  obtain ⟨a, t, hm, hrest⟩ := ok_of_bind h
  by_cases ha : 0 < a.toInt
  · rw [if_pos ha] at hrest
    cases hrest
  · rw [if_neg ha] at hrest
    cases hrest
    exact trapInto_inv hm

theorem zero_not_pos : ¬ 0 < (0#32).toInt := by decide

theorem eNoMem_not_pos : ¬ 0 < (-eNoMem).toInt := by decide

theorem eNoMem_neg : (-eNoMem).toInt < 0 := by decide

theorem eInval_not_pos : ¬ 0 < (-eInval).toInt := by decide

theorem eInval_neg : (-eInval).toInt < 0 := by decide

/-! ## A running program -/

/-- Stores to user pages leave every address space as it is. -/
theorem UserStores.sameSpace (hu : UserStores res fl s s') (x : EnvIndex) : SameSpace s s' x where
  pde d hd := hu.node (.dir x) trivial d hd
  table i := congrFun hu.target (.table x i)
  entry i j := by
    rw [Kernel.entry, Kernel.entry, show s'.table x i = s.table x i from
      congrFun hu.target (.table x i)]
    cases ht : s.table x i with
    | none => rfl
    | some t => exact congrFun (hu.node (.table x i) trivial t ht) j

/-- Environment `e`, whose directory is in page `d`, is running a program.  Its id is the name of
its slot, and its page tables have been linked in by `pgdir_walk`. -/
structure Running (res : Nat → Prop) (fl : List Nat) (s : Kernel) (e : EnvIndex) (d : Nat) :
    Prop where
  inv : Inv res fl s
  current : s.curenv = some e
  dir : s.dir e = some d
  loaded : s.cr3 s.cpunum = d
  id : envx (s.envs e).envId = e ∧ (s.envs e).envId ≠ 0#32
  tables : s.Linked e d

namespace Running

variable (h : Running res fl s e d)
include h

theorem live : (s.envs e).envStatus ≠ .free := live_of_dir h.dir

theorem getenvid : (trapInto sysGetenvid).run s = .ok (s.envs e).envId s := by
  refine trapInto_ok ?_
  simp only [sysGetenvid, EStateM.run_bind, EStateM.run_get, h.current, derefEnv, EStateM.run_pure]

/-- The program names itself by its id. -/
theorem resolve_self : s.resolve e (s.envs e).envId = some e := by
  obtain ⟨hx, h0⟩ := h.id
  rw [Kernel.resolve, if_neg h0]
  dsimp only
  rw [hx, if_neg (by simp [h.live]), if_neg (by simp)]

/-- What stays as long as only memory changes. -/
theorem of_memOnly (hmo : MemOnly s s') (hinv : Inv res fl' s') (htab : s'.Linked e d) :
    Running res fl' s' e d where
  inv := hinv
  current := hmo.curenv.trans h.current
  dir := (dir_of_envs hmo.envs e).trans h.dir
  loaded := by rw [hmo.cr3, hmo.cpunum]; exact h.loaded
  id := by rw [hmo.envs]; exact h.id
  tables := htab

/-- Nor do stores to its own pages matter. -/
theorem of_stores (hu : UserStores res fl s s') : Running res fl s' e d :=
  h.of_memOnly hu.only hu.inv ((hu.sameSpace e).linked h.dir h.tables)

end Running

/-! ## What a program reads -/

/-- The flags that a user's load needs. -/
def userRead : Word := pteP ||| pteU

/-- The flags that a user's store needs. -/
def userWrite : Word := pteP ||| pteU ||| pteW

/-- Where the hardware finds a page. -/
theorem translate_eq_some {o : Nat} (hd : s.dir e = some d) (hva : va < utop) :
    s.translate d need va = some (p, o) ↔ ∃ t, s.table e (pdx va) = some t ∧
      s.mem d (pdx va) &&& need = need ∧ s.entry e (pdx va) (ptx va) &&& need = need ∧
      s.leaf e (pdx va) (ptx va) = some p ∧ pgoff va = o := by
  have htab := table_of_dir hd ((lt_utop_iff va).1 hva)
  rw [Kernel.translate]
  by_cases hpde : s.mem d (pdx va) &&& need = need
  · rw [if_neg (not_not.2 hpde)]
    cases ht : framed (s.mem d (pdx va)) with
    | none => simp [htab, ht]
    | some t =>
      have ht' : s.table e (pdx va) = some t := htab.trans ht
      rw [Option.bind_some, ← entry_of_table ht']
      by_cases hpte : s.entry e (pdx va) (ptx va) &&& need = need
      · rw [if_neg (not_not.2 hpte), ← leaf_eq_framed]
        simp [ht', hpde, hpte]
      · rw [if_pos hpte]
        simp [hpte]
  · rw [if_pos hpde]
    simp [hpde]

/-- An address is translated as before if the directory and the entry are as before. -/
theorem translate_congr (hd : s.dir e = some d) (hd' : s'.dir e = some d) (hva : va < utop)
    (hkept : ∀ t, s.table e (pdx va) = some t →
      s'.table e (pdx va) = some t ∧ s'.mem d (pdx va) = s.mem d (pdx va))
    (hentry : s'.entry e (pdx va) (ptx va) = s.entry e (pdx va) (ptx va)) :
    s'.translate d need va = s.translate d need va := by
  have hleaf : s'.leaf e (pdx va) (ptx va) = s.leaf e (pdx va) (ptx va) := by
    rw [leaf_eq_framed, hentry, leaf_eq_framed]
  refine Option.ext fun ⟨p, o⟩ => ?_
  rw [translate_eq_some hd' hva, translate_eq_some hd hva, hentry, hleaf]
  constructor
  · rintro ⟨t, -, hpde, hpte, hp, ho⟩
    obtain ⟨t', ht', -⟩ := leaf_eq_some.1 hp
    rw [(hkept t' ht').2] at hpde
    exact ⟨t', ht', hpde, hpte, hp, ho⟩
  · rintro ⟨t, ht, hpde, hpte, hp, ho⟩
    obtain ⟨ht', hmem⟩ := hkept t ht
    exact ⟨t, ht', by rwa [hmem], hpte, hp, ho⟩

/-- Where a byte is read from. -/
theorem readByte_eq_some (hd : s.dir e = some d) (hva : va < utop) :
    s.readByte d need va = some b ↔ ∃ t p, s.table e (pdx va) = some t ∧
      s.mem d (pdx va) &&& need = need ∧ s.entry e (pdx va) (ptx va) &&& need = need ∧
      s.leaf e (pdx va) (ptx va) = some p ∧ byteAt (s.mem p) (pgoff va) = b := by
  rw [Kernel.readByte, Option.map_eq_some_iff]
  constructor
  · rintro ⟨⟨p, o⟩, htr, rfl⟩
    obtain ⟨t, ht, hpde, hpte, hp, rfl⟩ := (translate_eq_some hd hva).1 htr
    exact ⟨t, p, ht, hpde, hpte, hp, rfl⟩
  · rintro ⟨t, p, ht, hpde, hpte, hp, rfl⟩
    exact ⟨(p, pgoff va), (translate_eq_some hd hva).2 ⟨t, ht, hpde, hpte, hp, rfl⟩, rfl⟩

/-! ## Loads from `UVPT` -/

/-- The address of page `i`, `j`. -/
theorem pgaddr_pn (i j : Index) : BitVec.ofNat 32 (pgnum (pgaddr i j 0#32) * 4096) =
    pgaddr i j 0#32 := by
  have hi := i.isLt
  have hj := j.isLt
  apply BitVec.eq_of_toNat_eq
  rw [BitVec.toNat_ofNat, pgnum_eq, pgaddr_toNat]
  omega

theorem pgnum_pgaddr (i j : Index) : pgnum (pgaddr i j 0#32) = i.val * 1024 + j.val := by
  rw [pgnum_eq, pgaddr_toNat]
  omega

theorem pgnum_pgaddr_lt (i j : Index) : pgnum (pgaddr i j 0#32) < 2 ^ 20 := by
  have hi := i.isLt
  have hj := j.isLt
  rw [pgnum_pgaddr]
  omega

namespace Running

variable (h : Running res fl s e d)
include h

/-- The self-map lets the user read. -/
theorem self_flags : s.mem d (pdx uvpt) &&& userRead = userRead ∧
    framed (s.mem d (pdx uvpt)) = some d := by
  have hlt := Inv.lt_pow s (h.inv.target_lt (k := .dir e) h.dir)
  rw [h.inv.dir_self e d h.dir]
  refine ⟨?_, framed_entry hlt (by decide)⟩
  rw [BitVec.or_assoc]
  exact or_and_of_and _ (by decide)

/-- `uvpd[i]`. -/
theorem uvpd (i : Index) : (uloadWord (uvpdEntry i)).run s = .ok (s.mem d i) s := by
  obtain ⟨hflags, hself⟩ := h.self_flags
  have hi := i.isLt
  have hpn : 957 * 1024 + i.val < 2 ^ 20 := by omega
  have hpd : pdx (BitVec.ofNat 32 ((957 * 1024 + i.val) * 4096)) = pdx uvpt := by
    apply Fin.ext
    rw [pdx_uvpt, pdx_val, BitVec.toNat_ofNat]
    show _ = 957
    omega
  have hpt : ptx (BitVec.ofNat 32 ((957 * 1024 + i.val) * 4096)) = i := by
    apply Fin.ext
    rw [ptx_val, BitVec.toNat_ofNat]
    omega
  have hload : s.loadAt (s.cr3 s.cpunum) (pteP ||| pteU) (uvpdEntry i) = some (s.mem d i) := by
    rw [h.loaded, uvpdEntry_eq, loadAt, ← userRead, Kernel.translate, pdx_uvptEntry hpn,
      if_neg (not_not.2 hflags), hself, Option.bind_some, ptx_uvptEntry hpn, hpd,
      if_neg (not_not.2 hflags), hself, Option.map_some, Option.map_some]
    show some (s.mem d (Fin.ofNat 1024 (pgoff (uvptEntry (957 * 1024 + i.val)) / 4))) = _
    rw [pgoff_uvptEntry hpn, hpt]
  simp only [uloadWord, EStateM.run_bind, EStateM.run_get, hload, EStateM.run_pure]

/-- `uvpt[pn]`, where there is a page table. -/
theorem uvpt_load (ht : s.table e i = some t) (j : Index) :
    (uloadWord (uvptEntry (pgnum (pgaddr i j 0#32)))).run s = .ok (s.entry e i j) s := by
  obtain ⟨hflags, hself⟩ := h.self_flags
  have hpn := pgnum_pgaddr_lt i j
  have hpde : s.mem d i &&& userRead = userRead := by
    have hall := h.tables i t ht
    have hsub : userRead = (pteP ||| pteU ||| pteW) &&& userRead := by decide
    rw [hsub, ← BitVec.and_assoc, hall]
  have htab : framed (s.mem d i) = some t := by
    obtain ⟨hi, -⟩ := table_eq_some.1 ht
    exact (table_of_dir h.dir hi).symm.trans ht
  have hload : s.loadAt (s.cr3 s.cpunum) (pteP ||| pteU) (uvptEntry (pgnum (pgaddr i j 0#32))) =
      some (s.entry e i j) := by
    rw [h.loaded, loadAt, ← userRead, Kernel.translate, pdx_uvptEntry hpn,
      if_neg (not_not.2 hflags), hself, Option.bind_some, ptx_uvptEntry hpn, pgaddr_pn, pdx_pgaddr,
      if_neg (not_not.2 hpde), htab, Option.map_some, Option.map_some, entry_of_table ht]
    show some (s.mem t (Fin.ofNat 1024 (pgoff (uvptEntry (pgnum (pgaddr i j 0#32))) / 4))) = _
    rw [pgoff_uvptEntry hpn, pgaddr_pn, ptx_pgaddr]
  simp only [uloadWord, EStateM.run_bind, EStateM.run_get, hload, EStateM.run_pure]

end Running

/-! ## Copying a page -/

/-- An address on a page leads to where the page is. -/
theorem translate_add (s : Kernel) (d : Nat) (need : Word) (hva : UserPage va) {k : Nat}
    (hk : k < 4096) : s.translate d need (va + BitVec.ofNat 32 k) =
      (s.translate d need va).map fun fo => (fo.1, k) := by
  obtain ⟨hlt, hal⟩ := hva
  have hu : va.toNat < 955 * 4194304 := hlt
  have hmod : va.toNat % 4096 = 0 := congrArg BitVec.toNat hal
  have hadd : (va + BitVec.ofNat 32 k).toNat = va.toNat + k := by
    rw [BitVec.toNat_add, BitVec.toNat_ofNat]
    omega
  have h1 : pdx (va + BitVec.ofNat 32 k) = pdx va := by
    apply Fin.ext
    rw [pdx_val, pdx_val, hadd]
    omega
  have h2 : ptx (va + BitVec.ofNat 32 k) = ptx va := by
    apply Fin.ext
    rw [ptx_val, ptx_val, hadd]
    omega
  have h3 : pgoff (va + BitVec.ofNat 32 k) = k := by
    rw [pgoff_eq, hadd]
    omega
  rw [Kernel.translate, Kernel.translate, h1, h2, h3]
  split
  · rfl
  · cases framed (s.mem d (pdx va)) with
    | none => rfl
    | some t =>
      simp only [Option.bind_some]
      split
      · rfl
      · rw [Option.map_map]
        rfl

theorem pgoff_user (hva : UserPage va) : pgoff va = 0 := by
  rw [pgoff_eq]
  exact congrArg BitVec.toNat hva.2

/-- The offsets of the words of a page. -/
def wordOffsets : List Word := (List.range 1024).map fun i => BitVec.ofNat 32 (4 * i)

theorem mem_wordOffsets {k : Word} (hk : k ∈ wordOffsets) :
    ∃ i : Index, k = BitVec.ofNat 32 (4 * i.val) := by
  obtain ⟨i, hi, rfl⟩ := List.mem_map.1 hk
  exact ⟨⟨i, List.mem_range.1 hi⟩, rfl⟩

theorem wordOffset_mem (i : Index) : BitVec.ofNat 32 (4 * i.val) ∈ wordOffsets :=
  List.mem_map.2 ⟨i.val, List.mem_range.2 i.isLt, rfl⟩

theorem wordOffset_inj {i j : Index}
    (h : BitVec.ofNat 32 (4 * i.val) = BitVec.ofNat 32 (4 * j.val)) : i = j := by
  have hi := i.isLt
  have hj := j.isLt
  have h' := congrArg BitVec.toNat h
  simp only [BitVec.toNat_ofNat] at h'
  apply Fin.ext
  omega

/-- A page is copied word by word, from the start. -/
theorem memmove_page_eq (hdst : UserPage dst) (hsrc : UserPage src) :
    memmove dst src pgsize = wordOffsets.forM fun k => movsl (dst + k) (src + k) := by
  have hu : dst.toNat < 955 * 4194304 := hdst.1
  have hu' : src.toNat < 955 * 4194304 := hsrc.1
  have hmod : dst.toNat % 4096 = 0 := congrArg BitVec.toNat hdst.2
  have hmod' : src.toNat % 4096 = 0 := congrArg BitVec.toNat hsrc.2
  have hpg : pgsize.toNat = 4096 := by decide
  have hno : ¬ (src < dst ∧ dst < src + pgsize) := by
    rintro ⟨hlt, hlt'⟩
    have h1 : src.toNat < dst.toNat := hlt
    have h2 : dst.toNat < (src + pgsize).toNat := hlt'
    rw [BitVec.toNat_add, hpg] at h2
    omega
  have horder : moveOrder dst src pgsize 4 = wordOffsets := by
    rw [moveOrder, if_neg hno]
    rfl
  rw [memmove, if_pos ⟨by omega, by omega, by rw [hpg]⟩, horder]

namespace Running

variable (h : Running res fl s e d)
include h

/-- One word is copied. -/
theorem movsl_run (hdst : UserPage dst) (hsrc : UserPage src) (i : Index)
    (hf : s.translate d userWrite dst = some (f, 0))
    (hg : s.translate d userRead src = some (g, 0)) :
    (movsl (dst + BitVec.ofNat 32 (4 * i.val)) (src + BitVec.ofNat 32 (4 * i.val))).run s =
      .ok () (s.fill f (Function.update (s.mem f) i (s.mem g i))) := by
  have hi := i.isLt
  have hidx : Fin.ofNat 1024 (4 * i.val / 4) = i := by
    apply Fin.ext
    rw [Fin.val_ofNat]
    omega
  have hload : s.loadAt (s.cr3 s.cpunum) (pteP ||| pteU) (src + BitVec.ofNat 32 (4 * i.val)) =
      some (s.mem g i) := by
    rw [h.loaded, loadAt, ← userRead, translate_add s d _ hsrc (by omega), hg]
    simp only [Option.map_some, hidx]
  have hword : (uloadWord (src + BitVec.ofNat 32 (4 * i.val))).run s = .ok (s.mem g i) s := by
    simp only [uloadWord, EStateM.run_bind, EStateM.run_get, hload, EStateM.run_pure]
  have hstore : s.writable (dst + BitVec.ofNat 32 (4 * i.val)) = some (f, 4 * i.val) := by
    rw [Kernel.writable, h.loaded, ← userWrite, translate_add s d _ hdst (by omega), hf]
    rfl
  rw [movsl, run_bind_ok hword]
  simp only [ustore, EStateM.run_bind, EStateM.run_get, hstore, EStateM.run_modify, setWord, hidx]

/-- Or not. -/
theorem movsl_fault (hno : s.translate d userWrite dst = none ∨ s.translate d userRead src = none) :
    ∃ x s', (movsl dst src).run s = .error x s' := by
  have hwr : s.writable dst = s.translate d userWrite dst := by
    rw [Kernel.writable, h.loaded]
    rfl
  have hrd : s.loadAt (s.cr3 s.cpunum) (pteP ||| pteU) src = (s.translate d userRead src).map
      fun fo => s.mem fo.1 (Fin.ofNat 1024 (fo.2 / 4)) := by
    rw [h.loaded]
    rfl
  rw [movsl]
  cases hg : s.translate d userRead src with
  | none =>
    rw [hg] at hrd
    have hword : (uloadWord src).run s = .error (.fault src) s := by
      simp only [uloadWord, EStateM.run_bind, EStateM.run_get, hrd, Option.map_none]
      rfl
    exact ⟨_, _, run_bind_error hword⟩
  | some go =>
    rw [hg] at hrd
    have hword : (uloadWord src).run s = .ok (s.mem go.1 (Fin.ofNat 1024 (go.2 / 4))) s := by
      simp only [uloadWord, EStateM.run_bind, EStateM.run_get, hrd, Option.map_some,
        EStateM.run_pure]
    rw [hno.resolve_right (by simp [hg])] at hwr
    refine ⟨.fault dst, s, ?_⟩
    rw [run_bind_ok hword]
    simp only [ustore, EStateM.run_bind, EStateM.run_get, hwr]
    rfl

/-- Some of the words are copied. -/
theorem movsl_words (hdst : UserPage dst) (hsrc : UserPage src)
    (hf : s.translate d userWrite dst = some (f, 0)) (hg : s.translate d userRead src = some (g, 0))
    (l : List Word) (hl : ∀ k ∈ l, ∃ i : Index, k = BitVec.ofNat 32 (4 * i.val)) :
    ∃ s', (l.forM fun k => movsl (dst + k) (src + k)).run s = .ok () s' ∧ UserStores res fl s s' ∧
      s'.mem = Function.update s.mem f fun i =>
        if BitVec.ofNat 32 (4 * i.val) ∈ l then s.mem g i else s.mem f i := by
  -- the words copied so far are those of `g`, and all others are as they were
  let I : List Word → Kernel → Prop := fun l t => UserStores res fl s t ∧
    t.mem = Function.update s.mem f fun i =>
      if BitVec.ofNat 32 (4 * i.val) ∈ l then s.mem g i else s.mem f i
  have hstep : ∀ pre k post, l = pre ++ k :: post →
      Triple (I pre) (movsl (dst + k) (src + k)) (fun _ => I (pre ++ [k])) (fun _ _ => False) := by
    intro pre k post hpre t ⟨hu, hmem⟩
    obtain ⟨i, rfl⟩ := hl k (hpre ▸ List.mem_append_right _ List.mem_cons_self)
    have hf' : t.translate d userWrite dst = some (f, 0) := (hu.translate h.dir hdst.1 _).trans hf
    have hg' : t.translate d userRead src = some (g, 0) := (hu.translate h.dir hsrc.1 _).trans hg
    have hleaf := leaf_of_translate ((hu.dir e).trans h.dir) hdst.1 hf'
    rw [(h.of_stores hu).movsl_run hdst hsrc i hf' hg']
    refine ⟨hu.trans (UserStores.fill hu.inv hleaf _), ?_⟩
    have hword : t.mem g i = s.mem g i := by
      by_cases hgf : g = f
      · rw [hmem, hgf, Function.update_self, ite_self]
      · rw [hmem, Function.update_of_ne hgf]
    rw [fill_mem, hword, hmem, Function.update_self, Function.update_idem]
    congr 1
    funext i'
    by_cases hii : i' = i
    · subst hii
      rw [Function.update_self, if_pos (List.mem_append_right _ (List.mem_singleton_self _))]
    · rw [Function.update_of_ne hii]
      have hne' : BitVec.ofNat 32 (4 * i'.val) ≠ BitVec.ofNat 32 (4 * i.val) := fun hh =>
        hii (wordOffset_inj hh)
      simp only [List.mem_append, List.mem_singleton, hne', or_false]
  have hstart : I [] s := by
    refine ⟨UserStores.refl h.inv, ?_⟩
    simp only [List.not_mem_nil, if_false, Function.update_eq_self]
  have hall := Triple.forM_prefix l hstep s hstart
  cases hrun : (l.forM fun k => movsl (dst + k) (src + k)).run s with
  | error x s' =>
    rw [hrun] at hall
    exact hall.elim
  | ok a s' =>
    rw [hrun] at hall
    exact ⟨s', rfl, hall⟩

/-- **`memmove` of a page**: the page at `src` is copied to the page at `dst`, if the program may
read the one and write to the other. -/
theorem memmove_page (hdst : UserPage dst) (hsrc : UserPage src) :
    ((s.translate d userWrite dst = none ∨ s.translate d userRead src = none) ∧
      ∃ x s', (memmove dst src pgsize).run s = .error x s') ∨
    ∃ f g s', s.translate d userWrite dst = some (f, 0) ∧ s.translate d userRead src = some (g, 0) ∧
      (memmove dst src pgsize).run s = .ok () s' ∧ UserStores res fl s s' ∧
      s'.mem = Function.update s.mem f (s.mem g) := by
  rw [memmove_page_eq hdst hsrc]
  by_cases hno : s.translate d userWrite dst = none ∨ s.translate d userRead src = none
  · refine Or.inl ⟨hno, ?_⟩
    have hcons : wordOffsets = 0#32 :: (List.range 1023).map fun i =>
        BitVec.ofNat 32 (4 * (i + 1)) := by
      rw [wordOffsets, List.range_succ_eq_map, List.map_cons, List.map_map]
      rfl
    obtain ⟨x, s', hfirst⟩ := h.movsl_fault hno
    refine ⟨x, s', ?_⟩
    rw [hcons, List.forM_eq_forM, List.forM_cons]
    refine run_bind_error ?_
    rwa [BitVec.add_zero, BitVec.add_zero]
  · obtain ⟨⟨f, o⟩, hf⟩ := Option.ne_none_iff_exists'.1 fun hh => hno (Or.inl hh)
    obtain ⟨⟨g, o'⟩, hg⟩ := Option.ne_none_iff_exists'.1 fun hh => hno (Or.inr hh)
    obtain rfl : o = 0 := (translate_offset hf).trans (pgoff_user hdst)
    obtain rfl : o' = 0 := (translate_offset hg).trans (pgoff_user hsrc)
    obtain ⟨s', hrun, hu, hmem⟩ := h.movsl_words hdst hsrc hf hg wordOffsets fun k hk =>
      mem_wordOffsets hk
    have hpage : (fun i : Index => if BitVec.ofNat 32 (4 * i.val) ∈ wordOffsets then s.mem g i
        else s.mem f i) = s.mem g := funext fun i => if_pos (wordOffset_mem i)
    exact Or.inr ⟨f, g, s', hf, hg, hrun, hu, by rw [hmem, hpage]⟩

end Running

end Jos
