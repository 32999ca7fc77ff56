import Jos.Alloc.Edit
import Jos.Env.Effect

/-!
# Creating and freeing environments keeps the allocator invariant

`env_alloc` makes a free page the directory of a new environment: one `link` of the ledger.
`env_free` takes an address space apart from the leaves up, one `unlink` for each page, each page
table and at last the directory, and each of them is an edit that only the environment itself can
notice.
-/

set_option autoImplicit false

namespace Jos

open Kernel Command

variable {res : Nat → Prop} {fl : List Nat} {s s' : Kernel} {e : EnvIndex}
variable {d p t : Nat}

namespace Inv

/-! ## Changes to the environment table -/

/-- The invariant sees of an environment its directory, its place on the free list and whether it
is free. -/
theorem of_envs (h : Inv res fl s) (hmem : s'.mem = s.mem) (hpages : s'.pages = s.pages)
    (hfree : s'.pageFreeList = s.pageFreeList) (hnp : s'.npages = s.npages)
    (hkern : s'.kernPgdir = s.kernPgdir) (hlist : s'.envFreeList = s.envFreeList)
    (hdir : ∀ e, (s'.envs e).envPgdir = (s.envs e).envPgdir)
    (hlink : ∀ e, (s'.envs e).envLink = (s.envs e).envLink)
    (hst : ∀ e, (s'.envs e).envStatus = .free ↔ (s.envs e).envStatus = .free) : Inv res fl s' := by
  have hd : ∀ e, s'.dir e = s.dir e := by
    intro e
    rw [dir, dir, hdir]
    simp only [hst]
  have htgt : s'.target = s.target :=
    target_congr hd (fun _ d _ i _ => by rw [hmem]) fun _ _ t _ => by rw [hmem]
  have htab : ∀ e i, s'.table e i = s.table e i := fun e i => congrFun htgt (.table e i)
  refine
    { chain := by rw [links_congr hpages, hfree]; exact h.chain
      ok := by rw [ledger, htgt, counts_congr hpages]; exact h.ok
      res_ge := fun p hp => h.res_ge p (hnp ▸ hp)
      zero_pde := fun e d hd' => by rw [hd] at hd'; rw [hmem]; exact h.zero_pde e d hd'
      zero_pte := fun e i t ht => by rw [htab] at ht; rw [hmem]; exact h.zero_pte e i t ht
      live_dir := fun e he => by rw [hdir]; exact h.live_dir e (fun hf => he ((hst e).2 hf))
      kern_res := by rw [hkern]; exact h.kern_res
      kern_user := by rw [hkern, hmem]; exact h.kern_user
      kern_table := by rw [hkern, hmem]; exact h.kern_table
      dir_kern := fun e d hd' => by rw [hd] at hd'; rw [hkern, hmem]; exact h.dir_kern e d hd'
      dir_self := fun e d hd' => by rw [hd] at hd'; rw [hmem]; exact h.dir_self e d hd'
      env_list := ?_ }
  obtain ⟨el, hc, hm⟩ := h.env_list
  refine ⟨el, ?_, fun e => (hm e).trans (hst e).symm⟩
  rw [hlist]
  exact hc.congr fun b _ => hlink b

/-- Writing other fields of an environment. -/
theorem of_setEnv (h : Inv res fl s) {env : Env} (hdir : env.envPgdir = (s.envs e).envPgdir)
    (hlink : env.envLink = (s.envs e).envLink)
    (hst : env.envStatus = .free ↔ (s.envs e).envStatus = .free) : Inv res fl (s.setEnv e env) := by
  have henvs : ∀ e', ((s.setEnv e env).envs e').envPgdir = (s.envs e').envPgdir ∧
      ((s.setEnv e env).envs e').envLink = (s.envs e').envLink ∧
      (((s.setEnv e env).envs e').envStatus = .free ↔ (s.envs e').envStatus = .free) := by
    intro e'
    by_cases he : e' = e
    · subst he
      simp [hdir, hlink, hst]
    · simp [he]
  exact h.of_envs rfl rfl rfl rfl rfl rfl (fun e' => (henvs e').1) (fun e' => (henvs e').2.1)
    fun e' => (henvs e').2.2

/-- The head of `env_free_list` is free. -/
theorem free_head (h : Inv res fl s) (he : s.envFreeList = some e) :
    (s.envs e).envStatus = .free := by
  obtain ⟨el, hc, hm⟩ := h.env_list
  rw [he] at hc
  obtain ⟨l, rfl, -⟩ := hc.exists_cons
  exact (hm e).1 List.mem_cons_self

end Inv

/-! ## `env_alloc` -/

namespace Kernel

/-- The state after `env_alloc` has made `p` the directory of `e`. -/
def newEnv (s : Kernel) (e : EnvIndex) (p : Nat) (parentId : Word) : Kernel :=
  let s₁ := ((s.pop p).fill p fun _ => 0#32).incref p
  let s₂ := s₁.fill p (s₁.mem s₁.kernPgdir)
  let s₃ := s₂.setEnv e { s₂.envs e with envPgdir := some p }
  let s₄ := s₃.store p (pdx uvpt) (page2pa p ||| pteP ||| pteU)
  let s₅ := s₄.setEnv e (s.allocatedEnv e p parentId)
  { s₅ with envFreeList := (s.envs e).envLink }

variable (s : Kernel) (e : EnvIndex) (p : Nat) (parentId : Word)

theorem newEnv_memOnly : MemOnly (s.allocated e p parentId) (s.newEnv e p parentId) := by
  simp [MemOnly, newEnv, allocated, setEnv, store, fill, incref, setPage, pop]

theorem newEnv_pages : (s.newEnv e p parentId).pages = (s.incref p).pages := rfl

theorem newEnv_mem_ne {q : Nat} (h : q ≠ p) : (s.newEnv e p parentId).mem q = s.mem q := by
  simp [newEnv, store, h]

theorem newEnv_mem_dir {i : Index} (hk : s.kernPgdir ≠ p) (h : i ≠ pdx uvpt) :
    (s.newEnv e p parentId).mem p i = s.mem s.kernPgdir i := by
  simp [newEnv, store, h, hk]

theorem newEnv_mem_self :
    (s.newEnv e p parentId).mem p (pdx uvpt) = page2pa p ||| pteP ||| pteU := by
  simp [newEnv, store]

end Kernel

/-- `env_alloc` when there is no slot. -/
theorem envAlloc_noSlot (he : s.envFreeList = none) (parentId : Word) :
    (envAlloc parentId).run s = .ok (-eNoFreeEnv, none) s := by
  simp only [envAlloc, EStateM.run_bind, EStateM.run_get, he, EStateM.run_pure]

/-- `env_alloc` when there is a slot but no page. -/
theorem envAlloc_noPage (he : s.envFreeList = some e) (hp : s.pageFreeList = none)
    (parentId : Word) : (envAlloc parentId).run s = .ok (-eNoMem, none) s := by
  have hneg : (-eNoMem).toInt < 0 := by decide
  simp only [envAlloc, envSetupVm, EStateM.run_bind, EStateM.run_get, he, pageAlloc_none hp,
    EStateM.run_pure, if_pos hneg]

/-- `env_alloc` when there is a slot and a page. -/
theorem envAlloc_run (he : s.envFreeList = some e) (hp : s.pageFreeList = some p)
    (hlt : p < s.npages) (parentId : Word) :
    (envAlloc parentId).run s = .ok (0#32, some e) (s.newEnv e p parentId) := by
  have h1 := pageAlloc_zero hp hlt
  have h2 := page2kva_run (s := ((s.pop p).fill p fun _ => 0#32).incref p) hlt
  have hneg : ¬ (0#32).toInt < 0 := by decide
  simp only [envAlloc, EStateM.run_bind, EStateM.run_get, he, envSetupVm, h1, incRef,
    EStateM.run_modify, updateEnv, storeWord, EStateM.run_pure]
  rw [show (((s.pop p).fill p fun _ => 0#32).setPage p
    { (((s.pop p).fill p fun _ => 0#32).pages p) with
      ppRef := (((s.pop p).fill p fun _ => 0#32).pages p).ppRef + 1#16 }) =
      ((s.pop p).fill p fun _ => 0#32).incref p from rfl]
  simp only [h2, hneg, if_false]
  simp [newEnv, allocatedEnv, setEnv, store, fill, incref, setPage, pop]

namespace Inv

section

variable {fl' : List Nat}

/-- The slots after `env_alloc`: the new environment has a directory, and an empty one. -/
theorem newEnv_target (h : Inv res (p :: fl') s) (he : s.envFreeList = some e) (parentId : Word) :
    (s.newEnv e p parentId).target = Function.update s.target (.dir e) (some p) ∧
      (s.newEnv e p parentId).entry = s.entry := by
  have hfree := h.free_head he
  have hdir : s.dir e = none := by rw [dir, if_pos hfree]
  have henvs : (s.newEnv e p parentId).envs =
      Function.update s.envs e (s.allocatedEnv e p parentId) := (newEnv_memOnly s e p parentId).envs
  have hdir' : (s.newEnv e p parentId).dir e = some p := by
    rw [dir, henvs, Function.update_self]
    simp [allocatedEnv]
  have hkern : s.kernPgdir ≠ p := fun hk =>
    h.ok.free_res p List.mem_cons_self (hk ▸ h.kern_res)
  have hother : ∀ e', e' ≠ e → (s.newEnv e p parentId).dir e' = s.dir e' := by
    intro e' hne
    exact dir_congr (by rw [henvs, Function.update_of_ne hne])
  have hne : ∀ {k q}, s.target k = some q → q ≠ p := fun {k q} hk =>
    h.free_ne List.mem_cons_self hk
  have htab : ∀ e' i, (s.newEnv e p parentId).table e' i = s.table e' i := by
    intro e' i
    by_cases hi : i.val < userPdes
    · by_cases hee : e' = e
      · subst hee
        have huvpt : i ≠ pdx uvpt := by
          rintro rfl
          exact absurd hi (by decide)
        rw [table_of_dir hdir' hi, table_eq_none hdir, newEnv_mem_dir s e' p parentId hkern huvpt,
          h.kern_user i hi, framed_zero]
      · cases hd : s.dir e' with
        | none => rw [table_eq_none hd, table_eq_none ((hother e' hee).trans hd)]
        | some d =>
          rw [table_of_dir hd hi, table_of_dir ((hother e' hee).trans hd) hi,
            newEnv_mem_ne s e p parentId (hne (k := .dir e') hd)]
    · rw [table, table, if_neg hi, if_neg hi]
  have hentry : (s.newEnv e p parentId).entry = s.entry := by
    funext e' i j
    cases ht : s.table e' i with
    | none => rw [entry_of_none ht, entry_of_none ((htab e' i).trans ht)]
    | some t =>
      rw [entry_of_table ht, entry_of_table ((htab e' i).trans ht),
        newEnv_mem_ne s e p parentId (hne (k := .table e' i) ht)]
  refine ⟨?_, hentry⟩
  funext k
  cases k with
  | dir e' =>
    by_cases hee : e' = e
    · subst hee
      rw [Function.update_self]
      exact hdir'
    · rw [Function.update_of_ne (by simpa using hee)]
      exact hother e' hee
  | table e' i => rw [Function.update_of_ne (by simp)]; exact htab e' i
  | page e' i j =>
    rw [Function.update_of_ne (by simp)]
    show (s.newEnv e p parentId).leaf e' i j = s.leaf e' i j
    rw [leaf_eq_framed, leaf_eq_framed, hentry]

theorem newEnv_frame (h : Inv res (p :: fl') s) (parentId : Word) :
    Frame res (· = e) s (s.newEnv e p parentId) where
  envs e' hne := by
    rw [(newEnv_memOnly s e p parentId).envs]
    exact Function.update_of_ne hne _ _
  mem q hq := by
    refine newEnv_mem_ne s e p parentId ?_
    rintro rfl
    exact hq (h.private_free List.mem_cons_self)
  kernPgdir := (newEnv_memOnly s e p parentId).kernPgdir
  npages := (newEnv_memOnly s e p parentId).npages

/-- **`env_alloc` keeps the allocator invariant.** -/
theorem newEnv (h : Inv res (p :: fl') s) (he : s.envFreeList = some e) (parentId : Word) :
    Inv res fl' (s.newEnv e p parentId) := by
  obtain ⟨htgt, -⟩ := h.newEnv_target he parentId
  have hfree := h.free_head he
  have hmo := newEnv_memOnly s e p parentId
  have hdirs : (s.newEnv e p parentId).kernPgdir = s.kernPgdir := hmo.kernPgdir
  have hres : ¬ res p := h.ok.free_res p List.mem_cons_self
  have hkern : s.kernPgdir ≠ p := fun hk => hres (hk ▸ h.kern_res)
  have hpn : p ∉ fl' := (List.nodup_cons.1 h.ok.nodup).1
  have hunref := h.ok.free_unref p List.mem_cons_self
  have hdir : ∀ {e' d}, (s.newEnv e p parentId).dir e' = some d →
      (e' = e ∧ d = p) ∨ (s.dir e' = some d ∧ d ≠ p) := by
    intro e' d hd
    have := congrFun htgt (.dir e')
    by_cases hee : e' = e
    · subst hee
      rw [Function.update_self] at this
      exact Or.inl ⟨rfl, Option.some_inj.1 (hd.symm.trans this)⟩
    · rw [Function.update_of_ne (by simpa using hee)] at this
      have hd' : s.dir e' = some d := this.symm.trans hd
      exact Or.inr ⟨hd', h.free_ne (k := .dir e') List.mem_cons_self hd'⟩
  have htab : ∀ {e' i t}, (s.newEnv e p parentId).table e' i = some t →
      s.table e' i = some t ∧ t ≠ p := by
    intro e' i t ht
    have := congrFun htgt (.table e' i)
    rw [Function.update_of_ne (by simp)] at this
    have ht' : s.table e' i = some t := this.symm.trans ht
    exact ⟨ht', h.free_ne (k := .table e' i) List.mem_cons_self ht'⟩
  refine
    { chain := ?_
      ok := ?_
      res_ge := fun q hq => h.res_ge q (hmo.npages ▸ hq)
      zero_pde := fun e' d hd i hi => ?_
      zero_pte := fun e' i t ht j => ?_
      live_dir := fun e' he' => ?_
      kern_res := by rw [hdirs]; exact h.kern_res
      kern_user := fun i hi => ?_
      kern_table := fun i t hi hne ht => ?_
      dir_kern := fun e' d hd i hi hne => ?_
      dir_self := fun e' d hd => ?_
      env_list := ?_ }
  · rw [links_congr (newEnv_pages s e p parentId), links_incref]
    exact h.chain.2
  · have hc : s.counts p = 0 := h.ok.ref_free List.mem_cons_self
    have hl : (s.newEnv e p parentId).ledger fl' = (s.ledger (p :: fl')).take.link (.dir e) p := by
      rw [ledger, htgt, counts_congr (newEnv_pages s e p parentId),
        counts_incref s (by rw [hc]; decide)]
      rfl
    rw [hl]
    refine h.ok.take.link ?_ hpn hres fun k hk => absurd hk (hunref k)
    show s.dir e = none
    rw [dir, if_pos hfree]
  · have huvpt : i ≠ pdx uvpt := by
      rintro rfl
      exact absurd hi (by decide)
    rcases hdir hd with ⟨rfl, rfl⟩ | ⟨hd', hne⟩
    · rw [newEnv_mem_dir s e' d parentId hkern huvpt]
      exact fun _ => h.kern_user i hi
    · rw [newEnv_mem_ne s e p parentId hne]
      exact h.zero_pde e' d hd' i hi
  · obtain ⟨ht', hne⟩ := htab ht
    rw [newEnv_mem_ne s e p parentId hne]
    exact h.zero_pte e' i t ht' j
  · rw [hmo.envs] at he' ⊢
    by_cases hee : e' = e
    · subst hee
      exact ⟨p, by simp [allocated, allocatedEnv]⟩
    · simp only [allocated, Function.update_of_ne hee] at he' ⊢
      exact h.live_dir e' he'
  · rw [hdirs, newEnv_mem_ne s e p parentId hkern]
    exact h.kern_user i hi
  · rw [hdirs, newEnv_mem_ne s e p parentId hkern] at ht
    exact h.kern_table i t hi hne ht
  · rw [hdirs, newEnv_mem_ne s e p parentId hkern]
    rcases hdir hd with ⟨rfl, rfl⟩ | ⟨hd', hdp⟩
    · exact newEnv_mem_dir s e' d parentId hkern hne
    · rw [newEnv_mem_ne s e p parentId hdp]
      exact h.dir_kern e' d hd' i hi hne
  · rcases hdir hd with ⟨rfl, rfl⟩ | ⟨hd', hdp⟩
    · exact newEnv_mem_self s e' d parentId
    · rw [newEnv_mem_ne s e p parentId hdp]
      exact h.dir_self e' d hd'
  · obtain ⟨el, hc, hm⟩ := h.env_list
    rw [he] at hc
    obtain ⟨l, rfl, hc'⟩ := hc.exists_cons
    have hel : e ∉ l := (List.nodup_cons.1 hc.nodup).1
    refine ⟨l, ?_, fun e' => ?_⟩
    · rw [hmo.envs, hmo.envFreeList]
      refine hc'.congr fun b hb => ?_
      have hbe : b ≠ e := by
        rintro rfl
        exact hel hb
      simp [allocated, hbe]
    · rw [hmo.envs]
      by_cases hee : e' = e
      · subst hee
        simp [allocated, allocatedEnv, hel]
      · simp only [allocated, Function.update_of_ne hee, ← hm e', List.mem_cons, hee, false_or]

end

end Inv

end Jos
