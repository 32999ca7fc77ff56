import Jos.Pmap

/-!
# What the page functions leave alone

The functions of `kern/pmap.c` work on memory, the page descriptors and the TLB.  However they end,
environments, CPUs and the console are as they were: `MemOnly`.  This holds in every state, so it
is all that is needed about them where only the environments matter.
-/

set_option autoImplicit false

namespace Jos

open Command

/-- The two states differ at most in memory, the page descriptors, the free list, the TLB,
`user_mem_check_addr` and what has been printed. -/
def MemOnly (s s' : Kernel) : Prop :=
  s' = { s with
    mem := s'.mem
    pages := s'.pages
    pageFreeList := s'.pageFreeList
    tlb := s'.tlb
    userMemCheckAddr := s'.userMemCheckAddr
    consOut := s'.consOut }

namespace MemOnly

variable {s s' s'' : Kernel}

theorem refl (s : Kernel) : MemOnly s s := rfl

theorem npages (h : MemOnly s s') : s'.npages = s.npages := by rw [h]
theorem kernPgdir (h : MemOnly s s') : s'.kernPgdir = s.kernPgdir := by rw [h]
theorem envs (h : MemOnly s s') : s'.envs = s.envs := by rw [h]
theorem envFreeList (h : MemOnly s s') : s'.envFreeList = s.envFreeList := by rw [h]
theorem cpus (h : MemOnly s s') : s'.cpus = s.cpus := by rw [h]
theorem cpunum (h : MemOnly s s') : s'.cpunum = s.cpunum := by rw [h]
theorem cr3 (h : MemOnly s s') : s'.cr3 = s.cr3 := by rw [h]
theorem cr2 (h : MemOnly s s') : s'.cr2 = s.cr2 := by rw [h]
theorem consIn (h : MemOnly s s') : s'.consIn = s.consIn := by rw [h]

theorem curenv (h : MemOnly s s') : s'.curenv = s.curenv := by
  rw [Kernel.curenv, Kernel.curenv, h.cpus, h.cpunum]

/-- What a state that differs in memory only looks like. -/
theorem exists_eq (h : MemOnly s s') : ∃ mem pages free tlb addr out,
    s' = { s with
      mem := mem
      pages := pages
      pageFreeList := free
      tlb := tlb
      userMemCheckAddr := addr
      consOut := out } :=
  ⟨_, _, _, _, _, _, h⟩

theorem trans (s s' s'' : Kernel) (h : MemOnly s s') (h' : MemOnly s' s'') : MemOnly s s'' := by
  rw [MemOnly, h', h]

theorem setEnv (h : MemOnly s s') (e : EnvIndex) (env : Env) :
    MemOnly (s.setEnv e env) (s'.setEnv e env) := by
  rw [MemOnly, Kernel.setEnv, Kernel.setEnv, h]

end MemOnly

/-- A kernel bug: the only way out of the page functions other than returning. -/
def Exit.IsPanic : Exit → Prop
  | .panic _ => True
  | _ => False

/-- The command works on memory only, and returns or panics. -/
def Quiet {α : Type} (m : KernelM α) : Prop :=
  ∀ s, Triple (MemOnly s) m (fun _ => MemOnly s) fun x s' => MemOnly s s' ∧ x.IsPanic

namespace Quiet

variable {α β : Type} {m m' : KernelM α} {f : α → KernelM β} {s s' : Kernel}

theorem of_ok (h : Quiet m) {a : α} (hr : m.run s = .ok a s') : MemOnly s s' :=
  (h s).of_ok (MemOnly.refl s) hr

theorem of_error (h : Quiet m) {x : Exit} (hr : m.run s = .error x s') : MemOnly s s' ∧ x.IsPanic :=
  (h s).of_error (MemOnly.refl s) hr

theorem triple (h : Quiet m) (s : Kernel) :
    Triple (MemOnly s) m (fun _ => MemOnly s) fun x _ => x.IsPanic :=
  (h s).conseq (fun _ h => h) (fun _ _ h => h) fun _ _ h => h.2

theorem bind (hm : Quiet m) (hf : ∀ a, Quiet (f a)) : Quiet (m >>= f) :=
  fun s => (hm s).bind fun a => hf a s

theorem pure (a : α) : Quiet (Pure.pure a : KernelM α) := fun _ => Triple.pure fun _ h => h

theorem panic (msg : String) : Quiet (throw (.panic msg) : KernelM α) :=
  fun _ => Triple.throw fun _ h => ⟨h, trivial⟩

theorem get : Quiet (MonadState.get : KernelM Kernel) := fun _ _ h => h

theorem modify {f : Kernel → Kernel} (h : ∀ s, MemOnly s (f s)) :
    Quiet (modify f : KernelM PUnit) :=
  fun _ => Triple.modify fun t ht => MemOnly.trans _ _ _ ht (h t)

theorem ite {c : Prop} [Decidable c] (h : Quiet m) (h' : Quiet m') :
    Quiet (if c then m else m') :=
  fun s => Triple.ite (fun _ => h s) fun _ => h' s

theorem forM {ι : Type} {f : ι → KernelM PUnit} (l : List ι) (h : ∀ i, Quiet (f i)) :
    Quiet (l.forM f) :=
  fun s => Triple.forM fun i _ => h i s

end Quiet

theorem kaddr_quiet (pa : Word) : Quiet (kaddr pa) :=
  Quiet.bind Quiet.get fun _ => Quiet.ite (Quiet.panic _) (Quiet.pure _)

theorem pa2page_quiet (pa : Word) : Quiet (pa2page pa) :=
  Quiet.bind Quiet.get fun _ => Quiet.ite (Quiet.panic _) (Quiet.pure _)

theorem loadWord_quiet (p : Nat) (i : Index) : Quiet (loadWord p i) :=
  Quiet.bind Quiet.get fun _ => Quiet.pure _

theorem storeWord_quiet (p : Nat) (i : Index) (w : Word) : Quiet (storeWord p i w) :=
  Quiet.modify fun _ => rfl

theorem incRef_quiet (pp : Nat) : Quiet (incRef pp) := Quiet.modify fun _ => rfl

theorem derefPgdir_quiet (d : Option Nat) : Quiet (derefPgdir d) := by
  cases d with
  | none => exact Quiet.panic _
  | some d => exact Quiet.pure _

theorem pageAlloc_quiet (zero : Bool) : Quiet (pageAlloc zero) := by
  refine Quiet.bind Quiet.get fun s => ?_
  split
  · exact Quiet.pure _
  · refine Quiet.bind (Quiet.modify fun _ => rfl) fun _ => ?_
    split
    · exact Quiet.bind (kaddr_quiet _) fun _ =>
        Quiet.bind (Quiet.modify fun _ => rfl) fun _ => Quiet.pure _
    · exact Quiet.pure _

theorem pageFree_quiet (pp : Nat) : Quiet (pageFree pp) := by
  refine Quiet.bind Quiet.get fun s => ?_
  split
  · exact Quiet.bind (Quiet.panic _) fun _ => Quiet.bind (Quiet.modify fun _ => rfl)
      fun _ => Quiet.modify fun _ => rfl
  · exact Quiet.bind (Quiet.modify fun _ => rfl) fun _ => Quiet.modify fun _ => rfl

theorem pageDecref_quiet (pp : Nat) : Quiet (pageDecref pp) := by
  refine Quiet.bind (Quiet.modify fun _ => rfl) fun _ => Quiet.bind Quiet.get fun s => ?_
  exact Quiet.ite (pageFree_quiet pp) (Quiet.pure _)

theorem pgdirWalk_quiet (pgdir : Nat) (va : Word) (create : Bool) :
    Quiet (pgdirWalk pgdir va create) := by
  refine Quiet.bind (loadWord_quiet _ _) fun pde => ?_
  split
  · exact Quiet.bind (kaddr_quiet _) fun _ => Quiet.pure _
  · split
    · exact Quiet.pure _
    · refine Quiet.bind (pageAlloc_quiet true) fun r => ?_
      cases r with
      | none => exact Quiet.pure _
      | some pp =>
        exact Quiet.bind (kaddr_quiet _) fun _ => Quiet.bind (incRef_quiet _) fun _ =>
          Quiet.bind (storeWord_quiet _ _ _) fun _ => Quiet.pure _

theorem tlbInvalidate_quiet (pgdir : Nat) (va : Word) :
    Quiet (tlbInvalidate pgdir va) := by
  refine Quiet.bind Quiet.get fun s => ?_
  split
  · exact Quiet.modify fun _ => rfl
  · exact Quiet.ite (Quiet.modify fun _ => rfl) (Quiet.pure _)

theorem pageLookup_quiet (pgdir : Nat) (va : Word) : Quiet (pageLookup pgdir va) := by
  refine Quiet.bind (pgdirWalk_quiet _ _ _) fun r => ?_
  cases r with
  | none => exact Quiet.pure _
  | some pte =>
    exact Quiet.bind (loadWord_quiet _ _) fun _ => Quiet.bind (pa2page_quiet _) fun _ =>
      Quiet.pure _

theorem pageRemove_quiet (pgdir : Nat) (va : Word) : Quiet (pageRemove pgdir va) := by
  refine Quiet.bind (pgdirWalk_quiet _ _ _) fun _ =>
    Quiet.bind (pageLookup_quiet _ _) fun r => ?_
  cases r with
  | none => exact Quiet.pure _
  | some r =>
    exact Quiet.bind (pageDecref_quiet _) fun _ =>
      Quiet.bind (storeWord_quiet _ _ _) fun _ => tlbInvalidate_quiet _ _

theorem pageInsertAt_quiet (pgdir pp : Nat) (va perm : Word) (pte : PtePtr) :
    Quiet (pageInsertAt pgdir pp va perm pte) :=
  Quiet.bind (storeWord_quiet _ _ _) fun _ => Quiet.bind (incRef_quiet _) fun _ =>
    Quiet.bind (tlbInvalidate_quiet _ _) fun _ => Quiet.pure _

theorem pageInsert_quiet (pgdir pp : Nat) (va perm : Word) :
    Quiet (pageInsert pgdir pp va perm) := by
  refine Quiet.bind (pgdirWalk_quiet _ _ _) fun r => ?_
  cases r with
  | none =>
    refine Quiet.bind (pgdirWalk_quiet _ _ _) fun r => ?_
    cases r with
    | none => exact Quiet.pure _
    | some pte => exact pageInsertAt_quiet _ _ _ _ _
  | some pte =>
    have htail : Quiet (do
        if (← get).pageFreeList = some pp then
          modify fun s => { s with pageFreeList := (s.pages pp).ppLink }
        pageInsertAt pgdir pp va perm pte : KernelM Word) := by
      refine Quiet.bind Quiet.get fun s => ?_
      split
      · exact Quiet.bind (Quiet.modify fun _ => rfl) fun _ => pageInsertAt_quiet _ _ _ _ _
      · exact pageInsertAt_quiet _ _ _ _ _
    refine Quiet.bind (loadWord_quiet _ _) fun w => ?_
    split
    · exact Quiet.bind (pageRemove_quiet _ _) fun _ => htail
    · exact htail

theorem kloadByte_quiet (va : Word) : Quiet (kloadByte va) := by
  refine Quiet.bind Quiet.get fun s => ?_
  split
  · exact Quiet.pure _
  · exact Quiet.panic _

theorem kstoreByte_quiet (va : Word) (b : Byte) : Quiet (kstoreByte va b) := by
  refine Quiet.bind Quiet.get fun s => ?_
  split
  · exact Quiet.modify fun _ => rfl
  · exact Quiet.panic _

theorem kloadWord_quiet (va : Word) : Quiet (kloadWord va) :=
  Quiet.bind (kloadByte_quiet _) fun _ => Quiet.bind (kloadByte_quiet _) fun _ =>
    Quiet.bind (kloadByte_quiet _) fun _ => Quiet.bind (kloadByte_quiet _) fun _ =>
      Quiet.pure _

theorem kstoreWord_quiet (va w : Word) : Quiet (kstoreWord va w) :=
  Quiet.bind (kstoreByte_quiet _ _) fun _ => Quiet.bind (kstoreByte_quiet _ _) fun _ =>
    Quiet.bind (kstoreByte_quiet _ _) fun _ => kstoreByte_quiet _ _

theorem userMemCheckLoop_quiet (pgdir : Nat) (endVa perm : Word) (fuel : Nat) :
    Quiet (userMemCheckLoop pgdir endVa perm fuel) := by
  induction fuel with
  | zero => exact Quiet.pure _
  | succ fuel ih =>
    refine Quiet.bind Quiet.get fun s => ?_
    refine Quiet.ite (Quiet.pure _) (Quiet.bind (pgdirWalk_quiet _ _ _) fun r => ?_)
    cases r with
    | none => exact Quiet.pure _
    | some pte =>
      refine Quiet.ite (Quiet.pure _) (Quiet.bind (loadWord_quiet _ _) fun w => ?_)
      exact Quiet.ite (Quiet.pure _) (Quiet.bind (Quiet.modify fun _ => rfl) fun _ => ih)

theorem userMemCheckPages_quiet (env : EnvIndex) (endVa perm : Word) :
    Quiet (userMemCheckPages env endVa perm) := by
  refine Quiet.bind Quiet.get fun _ => Quiet.ite ?_ (Quiet.pure _)
  refine Quiet.bind Quiet.get fun _ => Quiet.bind (derefPgdir_quiet _) fun d => ?_
  exact userMemCheckLoop_quiet d endVa perm (2 ^ 20)

theorem userMemCheckErr_quiet (va : Word) (pte : Option PtePtr) :
    Quiet (userMemCheckErr va pte) := by
  refine Quiet.bind Quiet.get fun _ => Quiet.ite (Quiet.bind ?_ fun w => ?_) (Quiet.pure _)
  · cases pte with
    | none => exact kloadWord_quiet _
    | some pte => exact loadWord_quiet _ _
  · exact Quiet.bind (Quiet.modify fun _ => rfl) fun _ => Quiet.pure _

theorem userMemCheck_quiet (env : EnvIndex) (va len perm : Word) :
    Quiet (userMemCheck env va len perm) := by
  rw [userMemCheck]
  generalize roundUp (va + len) pgsize = endVa
  refine Quiet.bind (Quiet.modify fun _ => rfl) fun _ =>
    Quiet.bind (userMemCheckPages_quiet env endVa _) fun r => ?_
  cases r with
  | none => exact Quiet.pure _
  | some pte => exact userMemCheckErr_quiet _ _

/-! ## Commands that only look -/

/-- The command leaves the state exactly as it is. -/
def Reads {α : Type} (m : KernelM α) : Prop := Always (fun s s' => s' = s) m

namespace Reads

variable {α β : Type} {m m' : KernelM α} {f : α → KernelM β}

theorem bind (hm : Reads m) (hf : ∀ a, Reads (f a)) : Reads (m >>= f) :=
  Always.bind (fun _ _ _ h h' => h'.trans h) hm hf

theorem pure (a : α) : Reads (Pure.pure a : KernelM α) := fun _ => rfl

theorem throw (x : Exit) : Reads (MonadExcept.throw x : KernelM α) := fun _ => rfl

theorem get : Reads (MonadState.get : KernelM Kernel) := fun _ => rfl

theorem ite {c : Prop} [Decidable c] (h : Reads m) (h' : Reads m') :
    Reads (if c then m else m') := Always.ite h h'

/-- What holds before a command that only looks holds after it. -/
theorem keeps (h : Reads m) (P : Kernel → Prop) :
    Triple P m (fun _ => P) fun _ _ => True :=
  Triple.of_returns fun s _ s' hs hr => (Always.of_ok h hr : s' = s) ▸ hs

/-- What a command that only looks leaves for the next one. -/
theorem triple (h : Reads m) (s : Kernel) :
    Triple (fun t => t = s) m (fun _ t => t = s) fun _ _ => True :=
  (Always.triple h s).conseq (fun _ h => h) (fun _ _ h => h) fun _ _ _ => trivial

end Reads

theorem kaddr_reads (pa : Word) : Reads (kaddr pa) :=
  Reads.bind Reads.get fun _ => Reads.ite (Reads.throw _) (Reads.pure _)

theorem pa2page_reads (pa : Word) : Reads (pa2page pa) :=
  Reads.bind Reads.get fun _ => Reads.ite (Reads.throw _) (Reads.pure _)

theorem derefPgdir_reads (d : Option Nat) : Reads (derefPgdir d) := by
  cases d with
  | none => exact Reads.throw _
  | some d => exact Reads.pure d

theorem loadWord_reads (p : Nat) (i : Index) : Reads (loadWord p i) :=
  Reads.bind Reads.get fun _ => Reads.pure _

theorem pgdirWalk_reads (pgdir : Nat) (va : Word) : Reads (pgdirWalk pgdir va false) := by
  refine Reads.bind (loadWord_reads _ _) fun pde => Reads.ite ?_ (Reads.pure _)
  exact Reads.bind (kaddr_reads _) fun _ => Reads.pure _

theorem pageLookup_reads (pgdir : Nat) (va : Word) : Reads (pageLookup pgdir va) := by
  refine Reads.bind (pgdirWalk_reads _ _) fun r => ?_
  cases r with
  | none => exact Reads.pure _
  | some pte =>
    exact Reads.bind (loadWord_reads _ _) fun _ => Reads.bind (pa2page_reads _) fun _ =>
      Reads.pure _

/-! ## Checking user memory -/

/-- The two states differ at most in `user_mem_check_addr` and in what has been printed. -/
def Peek (s s' : Kernel) : Prop :=
  s' = { s with userMemCheckAddr := s'.userMemCheckAddr, consOut := s'.consOut }

theorem Peek.refl (s : Kernel) : Peek s s := rfl

theorem Peek.trans (s s' s'' : Kernel) (h : Peek s s') (h' : Peek s' s'') : Peek s s'' := by
  rw [Peek, h', h]

/-- What a state looks like after a check. -/
theorem Peek.exists_eq {s s' : Kernel} (h : Peek s s') :
    ∃ addr out, s' = { s with userMemCheckAddr := addr, consOut := out } := ⟨_, _, h⟩

theorem Reads.peek {α : Type} {m : KernelM α} (h : Reads m) : Always Peek m :=
  Always.mono h fun s _ hs => hs ▸ Peek.refl s

theorem kloadByte_reads (va : Word) : Reads (kloadByte va) := by
  refine Reads.bind Reads.get fun s => ?_
  split
  · exact Reads.pure _
  · exact Reads.throw _

theorem derefPte_reads (pte : Option PtePtr) : Reads (derefPte pte) := by
  cases pte with
  | some pte => exact loadWord_reads _ _
  | none =>
    exact Reads.bind (kloadByte_reads _) fun _ => Reads.bind (kloadByte_reads _) fun _ =>
      Reads.bind (kloadByte_reads _) fun _ => Reads.bind (kloadByte_reads _) fun _ => Reads.pure _

theorem userMemCheckLoop_peek (pgdir : Nat) (endVa perm : Word) (fuel : Nat) :
    Always Peek (userMemCheckLoop pgdir endVa perm fuel) := by
  induction fuel with
  | zero => exact (Reads.pure _).peek
  | succ fuel ih =>
    refine Always.bind Peek.trans Reads.get.peek fun s => Always.ite (Reads.pure _).peek ?_
    refine Always.bind Peek.trans (pgdirWalk_reads _ _).peek fun r => ?_
    cases r with
    | none => exact (Reads.pure _).peek
    | some pte =>
      refine Always.ite (Reads.pure _).peek
        (Always.bind Peek.trans (loadWord_reads _ _).peek fun w => ?_)
      exact Always.ite (Reads.pure _).peek
        (Always.bind Peek.trans (Always.modify fun _ => rfl) fun _ => ih)

theorem userMemCheckPages_peek (env : EnvIndex) (endVa perm : Word) :
    Always Peek (userMemCheckPages env endVa perm) := by
  refine Always.bind Peek.trans Reads.get.peek fun _ => Always.ite ?_ (Reads.pure _).peek
  refine Always.bind Peek.trans Reads.get.peek fun _ =>
    Always.bind Peek.trans (derefPgdir_reads _).peek fun d => ?_
  exact userMemCheckLoop_peek d endVa perm (2 ^ 20)

theorem userMemCheck_peek (env : EnvIndex) (va len perm : Word) :
    Always Peek (userMemCheck env va len perm) := by
  rw [userMemCheck]
  generalize roundUp (va + len) pgsize = endVa
  refine Always.bind Peek.trans (Always.modify fun _ => rfl) fun _ =>
    Always.bind Peek.trans (userMemCheckPages_peek env endVa _) fun r => ?_
  cases r with
  | none => exact (Reads.pure _).peek
  | some pte =>
    refine Always.bind Peek.trans Reads.get.peek fun _ => Always.ite ?_ (Reads.pure _).peek
    exact Always.bind Peek.trans (derefPte_reads pte).peek fun w =>
      Always.bind Peek.trans (Always.modify fun _ => rfl) fun _ => (Reads.pure _).peek

end Jos
