import Jos.Alloc.Edit
import Jos.Pmap.Bytes
import Jos.UserMem

/-!
# Stores to user memory

The kernel writes to an environment's memory byte by byte, through the environment's own directory.
User addresses lead to user pages, so a sequence of stores changes no directory and no page table,
and every address goes on leading where it led.  What such a sequence does is then a matter of which
bytes the addresses lead to: they are written, in order, and the others are not.
-/

set_option autoImplicit false

namespace Jos

open Kernel Command

variable {res : Nat → Prop} {fl : List Nat} {s s' : Kernel} {e : EnvIndex} {d : Nat}

/-- The byte at an address, for an access that needs the flags `need`. -/
def Kernel.readByte (s : Kernel) (d : Nat) (need va : Word) : Option Byte :=
  (s.translate d need va).map fun x => byteAt (s.mem x.1) x.2

/-- The flags of a user entry are what the checks see. -/
theorem Inv.grants_of_entry (h : Inv res fl s) (hd : s.dir e = some d) {va perm : Word}
    (hva : va < utop) (hperm : s.entry e (pdx va) (ptx va) &&& perm = perm) (hpos : perm ≠ 0#32) :
    s.Grants d perm va := by
  cases ht : s.table e (pdx va) with
  | none =>
    rw [entry_of_none ht, BitVec.zero_and] at hperm
    exact absurd hperm.symm hpos
  | some t =>
    rw [entry_of_table ht] at hperm
    exact (grants_iff va).2 ⟨t, (table_of_dir hd ((lt_utop_iff va).1 hva)).symm.trans ht,
      h.target_lt (k := .table e _) ht, hperm⟩

/-! ## Writing to user pages -/

/-- A user address leads to a page of the environment. -/
theorem leaf_of_translate (hd : s.dir e = some d) {va need : Word} (hva : va < utop) {f o : Nat}
    (h : s.translate d need va = some (f, o)) : s.leaf e (pdx va) (ptx va) = some f := by
  rw [Kernel.translate] at h
  split at h
  · exact absurd h (by simp)
  · obtain ⟨t, ht, h⟩ := Option.bind_eq_some_iff.1 h
    have htab : s.table e (pdx va) = some t :=
      (table_of_dir hd ((lt_utop_iff va).1 hva)).trans ht
    rw [leaf_of_table htab]
    split at h
    · exact absurd h (by simp)
    · obtain ⟨f', hf', heq⟩ := Option.map_eq_some_iff.1 h
      cases heq
      exact hf'

/-- An address whose two entries carry the flags. -/
theorem translate_of_entry (hd : s.dir e = some d) {va need : Word} {t p : Nat}
    (ht : s.table e (pdx va) = some t) (hpde : s.mem d (pdx va) &&& need = need)
    (hpte : s.entry e (pdx va) (ptx va) &&& need = need)
    (hp : framed (s.entry e (pdx va) (ptx va)) = some p) :
    s.translate d need va = some (p, pgoff va) := by
  obtain ⟨hi, -⟩ := table_eq_some.1 ht
  rw [entry_of_table ht] at hpte hp
  rw [Kernel.translate, if_neg (not_not.2 hpde), ← table_of_dir hd hi, ht, Option.bind_some,
    if_neg (not_not.2 hpte), hp, Option.map_some]

/-- A user's page can be overwritten freely. -/
theorem Inv.fill_leaf (h : Inv res fl s) {i j : Index} {f : Nat} (hf : s.leaf e i j = some f)
    (pg : Page) : Inv res fl (s.fill f pg) := by
  refine h.fill (h.target_res (k := .page e i j) hf) (fun k hn hk => ?_) pg
  have := h.ok.node_unique k f hn hk (.page e i j) hf
  rw [← this] at hn
  exact hn

/-! ## A sequence of stores -/

/-- Bytes, with the addresses they are to be stored at. -/
def storeBytes (l : List (Word × Byte)) : KernelM Unit := l.forM fun x => kstoreByte x.1 x.2

theorem storeBytes_append (l l' : List (Word × Byte)) :
    storeBytes (l ++ l') = (do storeBytes l; storeBytes l') := by
  simp [storeBytes]

/-! ## Its effect -/

/-- Only user pages have been written to: page directories and page tables are as they were. -/
structure UserStores (res : Nat → Prop) (fl : List Nat) (s s' : Kernel) : Prop where
  inv : Inv res fl s'
  only : MemOnly s s'
  node : ∀ k : Slot, k.IsNode → ∀ p, s.target k = some p → s'.mem p = s.mem p

namespace UserStores

theorem refl (h : Inv res fl s) : UserStores res fl s s := ⟨h, MemOnly.refl s, fun _ _ _ _ => rfl⟩

theorem dir (h : UserStores res fl s s') (e : EnvIndex) : s'.dir e = s.dir e :=
  dir_of_envs h.only.envs e

theorem target (h : UserStores res fl s s') : s'.target = s.target := by
  refine target_congr h.dir (fun e d hd i _ => ?_) fun e i t ht => ?_
  · rw [h.node (.dir e) trivial d hd]
  · rw [h.node (.table e i) trivial t ht]

theorem trans {s'' : Kernel} (h : UserStores res fl s s') (h' : UserStores res fl s' s'') :
    UserStores res fl s s'' := by
  refine ⟨h'.inv, MemOnly.trans _ _ _ h.only h'.only, fun k hk p hp => ?_⟩
  rw [h'.node k hk p (by rw [h.target]; exact hp), h.node k hk p hp]

/-- The hardware translates user addresses as before. -/
theorem translate (h : UserStores res fl s s') (hd : s.dir e = some d) {va : Word} (hva : va < utop)
    (need : Word) : s'.translate d need va = s.translate d need va := by
  have hdir : s'.mem d = s.mem d := h.node (.dir e) trivial d hd
  simp only [Kernel.translate, hdir]
  cases hf : framed (s.mem d (pdx va)) with
  | none => rfl
  | some t =>
    have htab : s.table e (pdx va) = some t := (table_of_dir hd ((lt_utop_iff va).1 hva)).trans hf
    simp only [Option.bind_some, h.node (.table e (pdx va)) trivial t htab]

/-- So do the checks. -/
theorem grants (h : UserStores res fl s s') (hd : s.dir e = some d) {va : Word} (hva : va < utop)
    (perm : Word) : s'.Grants d perm va ↔ s.Grants d perm va := by
  have hdir : s'.mem d = s.mem d := h.node (.dir e) trivial d hd
  rw [grants_iff, grants_iff, hdir, h.only.npages]
  refine exists_congr fun t => and_congr_right fun hf => ?_
  have htab : s.table e (pdx va) = some t := (table_of_dir hd ((lt_utop_iff va).1 hva)).trans hf
  rw [h.node (.table e (pdx va)) trivial t htab]

/-- Writing one user page. -/
theorem fill (h : Inv res fl s) {i j : Index} {f : Nat} (hf : s.leaf e i j = some f) (pg : Page) :
    UserStores res fl s (s.fill f pg) := by
  refine ⟨h.fill_leaf hf pg, rfl, fun k hk p hp => ?_⟩
  refine fill_mem_ne _ _ _ fun hpf => ?_
  have := h.ok.node_unique k p hk hp (.page e i j) (hpf ▸ hf)
  rw [← this] at hk
  exact hk

end UserStores

/-- The offset in the page is that of the address. -/
theorem translate_offset {va need : Word} {f o : Nat} (h : s.translate d need va = some (f, o)) :
    o = pgoff va := by
  rw [Kernel.translate] at h
  split at h
  · exact absurd h (by simp)
  · obtain ⟨t, -, h⟩ := Option.bind_eq_some_iff.1 h
    split at h
    · exact absurd h (by simp)
    · obtain ⟨f', -, heq⟩ := Option.map_eq_some_iff.1 h
      cases heq
      rfl

theorem translate_lt {va need : Word} {f o : Nat} (h : s.translate d need va = some (f, o)) :
    o < 4096 := by
  rw [translate_offset h, pgoff_eq]
  exact Nat.mod_lt _ (by decide)

/-- **A sequence of stores**: if every address can be written to, all the bytes are stored, in user
pages, and a byte that none of the addresses leads to stays; otherwise the kernel faults. -/
theorem storeBytes_run (hd : s.dir e = some d) {l : List (Word × Byte)}
    (hl : ∀ x ∈ l, x.1 < utop) (h : Inv res fl s) (hcr3 : s.cr3 s.cpunum = d) :
    ((∃ x ∈ l, s.translate d (pteP ||| pteW) x.1 = none) ∧
      ∃ s', (storeBytes l).run s = .error (.panic "Page fault in kernel") s') ∨
    ((∀ x ∈ l, s.translate d (pteP ||| pteW) x.1 ≠ none) ∧
      ∃ s', (storeBytes l).run s = .ok () s' ∧ UserStores res fl s s' ∧
        ∀ f o, o < 4096 → (∀ x ∈ l, s.translate d (pteP ||| pteW) x.1 ≠ some (f, o)) →
          byteAt (s'.mem f) o = byteAt (s.mem f) o) := by
  induction l generalizing s with
  | nil => exact Or.inr ⟨by simp, s, rfl, .refl h, fun _ _ _ _ => rfl⟩
  | cons x l ih =>
    have hx := hl x List.mem_cons_self
    have hl' : ∀ y ∈ l, y.1 < utop := fun y hy => hl y (List.mem_cons_of_mem _ hy)
    have hcons : storeBytes (x :: l) = (do kstoreByte x.1 x.2; storeBytes l) := rfl
    cases htr : s.translate d (pteP ||| pteW) x.1 with
    | none =>
      refine Or.inl ⟨⟨x, List.mem_cons_self, htr⟩, s, ?_⟩
      rw [hcons, run_bind_error (kstoreByte_fault (by rw [hcr3]; exact htr) x.2)]
    | some fo =>
      obtain ⟨f, o⟩ := fo
      have hst := UserStores.fill h (leaf_of_translate hd hx htr) (setByte (s.mem f) o x.2)
      have hrun := kstoreByte_run (s := s) (by rw [hcr3]; exact htr) x.2
      have htr' : ∀ y ∈ l, ∀ need, (s.fill f (setByte (s.mem f) o x.2)).translate d need y.1 =
          s.translate d need y.1 := fun y hy need => hst.translate hd (hl' y hy) need
      rcases ih (s := s.fill f (setByte (s.mem f) o x.2)) hd hl' hst.inv hcr3 with
        ⟨⟨y, hy, hnone⟩, s', hr⟩ | ⟨hall, s', hr, hst', hbytes⟩
      · rw [htr' y hy] at hnone
        refine Or.inl ⟨⟨y, List.mem_cons_of_mem _ hy, hnone⟩, s', ?_⟩
        rw [hcons, run_bind_ok hrun, hr]
      · refine Or.inr ⟨fun y hy => ?_, s', ?_, hst.trans hst', fun f' o' ho' hno => ?_⟩
        · rcases List.mem_cons.1 hy with rfl | hy
          · simp [htr]
          · rw [← htr' y hy]
            exact hall y hy
        · rw [hcons, run_bind_ok hrun, hr]
        · rw [hbytes f' o' ho' fun y hy => by
            rw [htr' y hy]; exact hno y (List.mem_cons_of_mem _ hy)]
          by_cases hff : f' = f
          · subst hff
            rw [fill_mem_self]
            refine byteAt_setByte_ne _ _ ?_ ho' ?_
            · rw [translate_offset htr, pgoff_eq]
              exact Nat.mod_lt _ (by decide)
            · rintro rfl
              exact hno x List.mem_cons_self htr
          · rw [fill_mem_ne _ _ _ hff]

/-- Addresses that lead to different bytes keep what is stored at them. -/
theorem storeBytes_stored (hd : s.dir e = some d) {l : List (Word × Byte)}
    (hl : ∀ x ∈ l, x.1 < utop) (h : Inv res fl s) (hcr3 : s.cr3 s.cpunum = d)
    (hw : ∀ x ∈ l, s.translate d (pteP ||| pteW) x.1 ≠ none)
    (hne : (l.map fun x => s.translate d (pteP ||| pteW) x.1).Nodup) :
    ∃ s', (storeBytes l).run s = .ok () s' ∧ UserStores res fl s s' ∧
      (∀ x ∈ l, ∀ f o, s.translate d (pteP ||| pteW) x.1 = some (f, o) →
        byteAt (s'.mem f) o = x.2) ∧
      ∀ f o, o < 4096 → (∀ x ∈ l, s.translate d (pteP ||| pteW) x.1 ≠ some (f, o)) →
        byteAt (s'.mem f) o = byteAt (s.mem f) o := by
  rcases storeBytes_run hd hl h hcr3 with ⟨⟨x, hx, hnone⟩, -⟩ | ⟨-, s', hrun, hst, hkeep⟩
  · exact absurd hnone (hw x hx)
  refine ⟨s', hrun, hst, fun x hx f o htr => ?_, hkeep⟩
  -- what comes after the store of this byte stores elsewhere
  obtain ⟨pre, post, rfl⟩ := List.append_of_mem hx
  rw [List.map_append, List.map_cons, List.nodup_append, List.nodup_cons] at hne
  have hpre := storeBytes_run hd (l := pre) (fun y hy => hl y (List.mem_append_left _ hy)) h hcr3
  have hx' := hl x hx
  rcases hpre with ⟨⟨y, hy, hnone⟩, -⟩ | ⟨-, s₁, hrun₁, hst₁, -⟩
  · exact absurd hnone (hw y (List.mem_append_left _ hy))
  have htr₁ := (hst₁.translate hd hx' (pteP ||| pteW)).trans htr
  have hcr3₁ : s₁.cr3 s₁.cpunum = d := by rw [hst₁.only.cr3, hst₁.only.cpunum, hcr3]
  have hd₁ : s₁.dir e = some d := (hst₁.dir e).trans hd
  have hst₂ := UserStores.fill hst₁.inv (leaf_of_translate hd₁ hx' htr₁)
    (setByte (s₁.mem f) o x.2)
  have hrun₂ := kstoreByte_run (s := s₁) (by rw [hcr3₁]; exact htr₁) x.2
  have hpost : ∀ y ∈ post, y.1 < utop := fun y hy =>
    hl y (List.mem_append_right _ (List.mem_cons_of_mem _ hy))
  have htr₂ : ∀ y ∈ post, (s₁.fill f (setByte (s₁.mem f) o x.2)).translate d (pteP ||| pteW) y.1 =
      s.translate d (pteP ||| pteW) y.1 := fun y hy =>
    (hst₁.trans hst₂).translate hd (hpost y hy) _
  have hcons : storeBytes (pre ++ x :: post) =
      (do storeBytes pre; kstoreByte x.1 x.2; storeBytes post) := storeBytes_append _ _
  rw [hcons, run_bind_ok hrun₁, run_bind_ok hrun₂] at hrun
  rcases storeBytes_run (s := s₁.fill f (setByte (s₁.mem f) o x.2)) hd₁ hpost hst₂.inv hcr3₁ with
    ⟨-, s₂, hrun₃⟩ | ⟨-, s₂, hrun₃, -, hkeep₂⟩
  · rw [hrun] at hrun₃
    exact absurd hrun₃ (by simp)
  · rw [hrun] at hrun₃
    obtain rfl : s' = s₂ := (EStateM.Result.ok.inj hrun₃).2
    rw [hkeep₂ f o (translate_lt htr) fun y hy heq => ?_, fill_mem_self, byteAt_setByte_self]
    rw [htr₂ y hy, ← htr] at heq
    exact hne.2.1.1 (heq ▸ List.mem_map_of_mem hy)

end Jos
