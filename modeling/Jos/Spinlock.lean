import Jos.Lib.Mutex
import Jos.State

/-!
# Spin locks

`kern/spinlock.c`, one access to memory at a time.  Any CPU may be anywhere in `spin_lock` or
`spin_unlock` while another one is, and the debugging code reads and writes `cpu` and `pcs` on both
sides of the `xchg` that decides who gets the lock.  In particular `holding` reads two fields, and
the lock can change hands between the two reads.

It is still a lock: what is seen of it, in any interleaving and whatever the CPUs call in whatever
order, can be seen of a lock that is taken and given back in one step (`spin_refines`).  So no two
CPUs are between taking and giving back, and `spin_lock` and `spin_unlock` panic for those who
should not have called them and for nobody else (`spin_panics`).
-/

set_option autoImplicit false

namespace Jos

/-- `struct spinlock`. -/
structure Spinlock where
  locked : Word
  name : String
  /-- The CPU that holds the lock. -/
  cpu : Option Cpu
  /-- The call stack that locked it. -/
  pcs : Fin 10 → Word

/-- `kernel_lock`. -/
def kernelLock : Spinlock := ⟨0#32, "kernel_lock", none, fun _ => 0#32⟩

/-- `__spin_initlock`. -/
def spinInitlock (lk : Spinlock) (name : String) : Spinlock :=
  { lk with locked := 0#32, name := name, cpu := none }

/-- `get_caller_pcs`: `stack` is memory as the CPU sees it, which has its stack to itself, and `n`
what is left to fill of `pcs`. -/
def getCallerPcs (stack : Word → Word) : Nat → Word → List Word
  | 0, _ => []
  | n + 1, ebp =>
    if ebp = 0#32 ∨ ebp < ulim then
      List.replicate (n + 1) 0#32
    else
      stack (ebp + 4#32) :: getCallerPcs stack n (stack ebp)

/-- Where a CPU is. -/
inductive SpinPc where
  /-- In neither function. -/
  | out
  /-- In `spin_lock`: `holding` reads `locked`, -/
  | lockLocked
  /-- and then `cpu`. -/
  | lockCpu
  /-- At the `xchg`. -/
  | spin
  | setCpu
  /-- `get_caller_pcs`, with `pcs` filled up to an index. -/
  | setPcs (i : Fin 10)
  /-- In `spin_unlock`: `holding` reads `locked`, -/
  | unlockLocked
  /-- and then `cpu`. -/
  | unlockCpu
  | clearPcs
  | clearCpu
  /-- At the `xchg`. -/
  | unlock
  /-- The message of `spin_unlock`, which reads `cpu_id` through `cpu`. -/
  | report
  /-- In `_panic`. -/
  | panicked (msg : String)
  /-- In the trap that reading through a null pointer ends in. -/
  | faulted
deriving DecidableEq

namespace SpinPc

/-- Between taking the lock and giving it back, in one of the functions. -/
def Busy : SpinPc → Prop
  | .setCpu | .setPcs _ | .clearPcs | .clearCpu | .unlock => True
  | _ => False

/-- Where only a CPU comes that does not have the lock. -/
def Waits : SpinPc → Prop
  | .spin | .report => True
  | _ => False

/-- Whether the field `cpu` names the CPU, if it has the lock. -/
def Recorded : SpinPc → Prop
  | .setCpu | .unlock => False
  | _ => True

/-- In the part of the functions that does not return. -/
def Dead : SpinPc → Prop
  | .report | .panicked _ | .faulted => True
  | _ => False

end SpinPc

/-- The lock, and where the CPUs are. -/
structure Spin where
  lock : Spinlock
  pc : Cpu → SpinPc

/-- The two functions. -/
inductive SpinCall where
  | lock
  | unlock
deriving DecidableEq

/-- What a CPU brings along: what it calls next, and its stack. -/
structure SpinInput where
  call : SpinCall
  stack : Word → Word
  ebp : Word

namespace Spin

/-- The CPU goes on at `pc`. -/
def goto (s : Spin) (c : Cpu) (pc : SpinPc) : Spin := { s with pc := Function.update s.pc c pc }

/-- What `panic` says in `spin_lock`. -/
def alreadyHolding (s : Spin) (c : Cpu) : String :=
  s!"CPU {c.val} cannot acquire {s.lock.name}: already holding"

/-- The next access to memory of one CPU, and what is seen of it. -/
def step (c : Cpu) (input : SpinInput) (s : Spin) : List (LockEvent Cpu) × Spin :=
  match s.pc c with
  | .out =>
    match input.call with
    | .lock => ([], s.goto c .lockLocked)
    | .unlock => ([], s.goto c .unlockLocked)
  -- `spin_lock`
  | .lockLocked => ([], s.goto c (if s.lock.locked ≠ 0#32 then .lockCpu else .spin))
  | .lockCpu =>
    if s.lock.cpu = some c then
      ([.again c], s.goto c (.panicked (s.alreadyHolding c)))
    else
      ([], s.goto c .spin)
  | .spin =>
    let s' : Spin := { s with lock := { s.lock with locked := 1#32 } }
    if s.lock.locked ≠ 0#32 then
      ([], s')
    else
      ([.acquire c], s'.goto c .setCpu)
  | .setCpu => ([], { s with lock := { s.lock with cpu := some c } }.goto c (.setPcs 0))
  | .setPcs i =>
    let w := (getCallerPcs input.stack 10 input.ebp).getD i.val 0#32
    ([], { s with lock := { s.lock with pcs := Function.update s.lock.pcs i w } }.goto c
      (if h : i.val + 1 < 10 then .setPcs ⟨i.val + 1, h⟩ else .out))
  -- `spin_unlock`
  | .unlockLocked =>
    if s.lock.locked ≠ 0#32 then
      ([], s.goto c .unlockCpu)
    else
      ([.stranger c], s.goto c .report)
  | .unlockCpu =>
    if s.lock.cpu = some c then
      ([], s.goto c .clearPcs)
    else
      ([.stranger c], s.goto c .report)
  | .clearPcs =>
    ([], { s with lock := { s.lock with pcs := Function.update s.lock.pcs 0 0#32 } }.goto c
      .clearCpu)
  | .clearCpu => ([], { s with lock := { s.lock with cpu := none } }.goto c .unlock)
  | .unlock => ([.release c], { s with lock := { s.lock with locked := 0#32 } }.goto c .out)
  | .report =>
    match s.lock.cpu with
    | some _ => ([], s.goto c (.panicked "spin_unlock"))
    | none => ([], s.goto c .faulted)
  | .panicked _ => ([], s)
  | .faulted => ([], s)

/-- Some CPU makes its next access. -/
def Step (s : Spin) (l : List (LockEvent Cpu)) (s' : Spin) : Prop :=
  ∃ c input, s.step c input = (l, s')

/-- A lock that is not held, and no CPU at it. -/
def start (lock : Spinlock) : Spin := ⟨lock, fun _ => .out⟩

variable {s s' : Spin} {c c' : Cpu} {pc : SpinPc} {l : List (LockEvent Cpu)} {h h' : Option Cpu}

@[simp] theorem goto_lock (s : Spin) (c : Cpu) (pc : SpinPc) : (s.goto c pc).lock = s.lock := rfl

@[simp] theorem goto_self (s : Spin) (c : Cpu) (pc : SpinPc) : (s.goto c pc).pc c = pc :=
  Function.update_self _ _ _

theorem goto_other (s : Spin) (pc : SpinPc) (hc : c' ≠ c) : (s.goto c pc).pc c' = s.pc c' :=
  Function.update_of_ne hc _ _

/-- The others stay where they are. -/
theorem step_other (c : Cpu) (input : SpinInput) (hc : c' ≠ c) :
    (s.step c input).2.pc c' = s.pc c' := by
  have hgoto : ∀ (t : Spin) pc, t.pc = s.pc → (t.goto c pc).pc c' = s.pc c' := fun t pc ht => by
    rw [goto_other _ _ hc, ht]
  rw [Spin.step]
  cases s.pc c
  case out => cases input.call <;> exact hgoto _ _ rfl
  case lockCpu => dsimp only; split <;> exact hgoto _ _ rfl
  case spin =>
    dsimp only
    split
    · rfl
    · exact hgoto _ _ rfl
  case unlockLocked => dsimp only; split <;> exact hgoto _ _ rfl
  case unlockCpu => dsimp only; split <;> exact hgoto _ _ rfl
  case report => dsimp only; split <;> exact hgoto _ _ rfl
  case panicked => rfl
  case faulted => rfl
  all_goals exact hgoto _ _ rfl

/-! ## What is seen of the lock -/

/-- The lock is as it should be when `h` holds it. -/
structure Agrees (s : Spin) (h : Option Cpu) : Prop where
  locked : s.lock.locked = if h = none then 0#32 else 1#32
  busy : ∀ c, (s.pc c).Busy → h = some c
  waits : ∀ c, (s.pc c).Waits → h ≠ some c
  /-- The field `cpu` is the holder, but for a moment at either end. -/
  cpu : ∀ c, s.lock.cpu = some c ↔ h = some c ∧ (s.pc c).Recorded

theorem agrees_start {lock : Spinlock} (hlocked : lock.locked = 0#32) (hcpu : lock.cpu = none) :
    (start lock).Agrees none :=
  ⟨hlocked, fun _ hb => hb.elim, fun _ _ => by simp, fun c => by simp [start, hcpu]⟩

/-- A CPU makes one access; the others stay where they are. -/
theorem Agrees.move (ha : s.Agrees h) {lock : Spinlock}
    (hlocked : lock.locked = if h' = none then 0#32 else 1#32)
    (hother : ∀ c', c' ≠ c → (h' = some c' ↔ h = some c'))
    (hcpus : ∀ c', c' ≠ c → (lock.cpu = some c' ↔ s.lock.cpu = some c'))
    (hbusy : pc.Busy → h' = some c) (hwaits : pc.Waits → h' ≠ some c)
    (hcpu : lock.cpu = some c ↔ h' = some c ∧ pc.Recorded) :
    ({ s with lock := lock }.goto c pc).Agrees h' := by
  refine ⟨hlocked, fun c' hb => ?_, fun c' hw => ?_, fun c' => ?_⟩
  · by_cases hc : c' = c
    · subst hc
      rw [goto_self] at hb
      exact hbusy hb
    · rw [goto_other _ _ hc] at hb
      exact (hother c' hc).2 (ha.busy c' hb)
  · by_cases hc : c' = c
    · subst hc
      rw [goto_self] at hw
      exact hwaits hw
    · rw [goto_other _ _ hc] at hw
      exact mt (hother c' hc).1 (ha.waits c' hw)
  · by_cases hc : c' = c
    · subst hc
      rw [goto_self]
      exact hcpu
    · rw [goto_other _ _ hc, hother c' hc]
      exact (hcpus c' hc).trans (ha.cpu c')

/-- Going on without a change of the lock. -/
theorem Agrees.goto (ha : s.Agrees h) (hbusy : pc.Busy → h = some c)
    (hwaits : pc.Waits → h ≠ some c)
    (hrec : h = some c → (pc.Recorded ↔ (s.pc c).Recorded)) : (s.goto c pc).Agrees h :=
  ha.move ha.locked (fun _ _ => Iff.rfl) (fun _ _ => Iff.rfl) hbusy hwaits
    ((ha.cpu c).trans (and_congr_right fun hh => (hrec hh).symm))

/-- `locked` is not zero if and only if the lock is held. -/
theorem Agrees.locked_ne (ha : s.Agrees h) : s.lock.locked ≠ 0#32 ↔ h ≠ none := by
  rw [ha.locked]
  split
  · next hn => simp [hn]
  · next hn => simp [hn]

theorem Agrees.locked_free (ha : s.Agrees h) (hfree : s.lock.locked = 0#32) : h = none := by
  by_contra hne
  exact ha.locked_ne.2 hne hfree

/-- Only the holder finds itself in `cpu`. -/
theorem Agrees.holding (ha : s.Agrees h) (hrec : (s.pc c).Recorded) :
    s.lock.cpu = some c ↔ h = some c :=
  (ha.cpu c).trans (and_iff_left hrec)

/-- **One access**, as the lock seen from outside does it. -/
theorem Agrees.step (ha : s.Agrees h) (hs : s.Step l s') :
    ∃ h', Trail Mutex.Step h l h' ∧ s'.Agrees h' := by
  obtain ⟨c, input, hs⟩ := hs
  rw [Spin.step] at hs
  cases hpc : s.pc c <;> simp only [hpc] at hs
  case out =>
    cases hcall : input.call <;> simp only [hcall] at hs
    all_goals
      obtain ⟨rfl, rfl⟩ := Prod.mk.inj hs
      exact ⟨h, .refl, ha.goto False.elim False.elim fun _ => by rw [hpc]; exact Iff.rfl⟩
  case lockLocked =>
    obtain ⟨rfl, rfl⟩ := Prod.mk.inj hs
    refine ⟨h, .refl, ?_⟩
    split
    · exact ha.goto False.elim False.elim fun _ => by rw [hpc]; exact Iff.rfl
    · next hfree =>
      rw [ha.locked_ne, not_not] at hfree
      refine ha.goto False.elim (fun _ => ?_) fun hh => ?_
      · rw [hfree]
        simp
      · rw [hfree] at hh
        cases hh
  case lockCpu =>
    have hmine := ha.holding (c := c) (by rw [hpc]; trivial)
    split at hs
    · next hcpu =>
      obtain ⟨rfl, rfl⟩ := Prod.mk.inj hs
      obtain rfl := hmine.1 hcpu
      exact ⟨_, .single (.again c),
        ha.goto False.elim False.elim fun _ => by rw [hpc]; exact Iff.rfl⟩
    · next hcpu =>
      obtain ⟨rfl, rfl⟩ := Prod.mk.inj hs
      exact ⟨h, .refl, ha.goto False.elim (fun _ => mt hmine.2 hcpu) fun _ => by
        rw [hpc]; exact Iff.rfl⟩
  case spin =>
    split at hs
    · next hheld =>
      -- the lock stays as it is
      obtain ⟨rfl, rfl⟩ := Prod.mk.inj hs
      have hne := ha.locked_ne.1 hheld
      have hone : s.lock.locked = 1#32 := by rw [ha.locked, if_neg hne]
      refine ⟨h, .refl, ?_⟩
      have hsame : { s with lock := { s.lock with locked := 1#32 } } = s := by rw [← hone]
      rwa [hsame]
    · next hfree =>
      obtain ⟨rfl, rfl⟩ := Prod.mk.inj hs
      rw [ha.locked_ne, not_not] at hfree
      subst hfree
      refine ⟨some c, .single (.acquire c), ha.move rfl (fun c' hc => ?_) (fun _ _ => Iff.rfl)
        (fun _ => rfl) False.elim ?_⟩
      · simp [Ne.symm hc]
      · rw [ha.cpu c]
        exact iff_of_false (by simp) fun hrec => hrec.2
  case setCpu =>
    obtain ⟨rfl, rfl⟩ := Prod.mk.inj hs
    have hh : h = some c := ha.busy c (by rw [hpc]; trivial)
    refine ⟨h, .refl, ha.move ha.locked (fun _ _ => Iff.rfl) (fun c' hc => ?_)
      (fun _ => hh) False.elim
      (iff_of_true rfl ⟨hh, trivial⟩)⟩
    rw [ha.cpu c', hh]
    simp [Ne.symm hc]
  case setPcs i =>
    obtain ⟨rfl, rfl⟩ := Prod.mk.inj hs
    have hh : h = some c := ha.busy c (by rw [hpc]; trivial)
    refine ⟨h, .refl, ha.move ha.locked (fun _ _ => Iff.rfl) (fun _ _ => Iff.rfl) (fun _ => hh)
      (fun hw => ?_) ?_⟩
    · split at hw
      · exact hw.elim
      · exact hw.elim
    · refine (ha.holding (by rw [hpc]; trivial)).trans (and_iff_left ?_).symm
      split
      · trivial
      · trivial
  case unlockLocked =>
    split at hs
    · obtain ⟨rfl, rfl⟩ := Prod.mk.inj hs
      exact ⟨h, .refl, ha.goto False.elim False.elim fun _ => by rw [hpc]; exact Iff.rfl⟩
    · next hfree =>
      obtain ⟨rfl, rfl⟩ := Prod.mk.inj hs
      rw [ha.locked_ne, not_not] at hfree
      subst hfree
      exact ⟨none, .single (.stranger c none (by simp)), ha.goto False.elim (fun _ => by simp)
        fun hh => by cases hh⟩
  case unlockCpu =>
    have hmine := ha.holding (c := c) (by rw [hpc]; trivial)
    split at hs
    · next hcpu =>
      obtain ⟨rfl, rfl⟩ := Prod.mk.inj hs
      exact ⟨h, .refl,
        ha.goto (fun _ => hmine.1 hcpu) False.elim fun _ => by rw [hpc]; exact Iff.rfl⟩
    · next hcpu =>
      obtain ⟨rfl, rfl⟩ := Prod.mk.inj hs
      exact ⟨h, .single (.stranger c h (mt hmine.2 hcpu)),
        ha.goto False.elim (fun _ => mt hmine.2 hcpu)
        fun _ => by rw [hpc]; exact Iff.rfl⟩
  case clearPcs =>
    obtain ⟨rfl, rfl⟩ := Prod.mk.inj hs
    have hh : h = some c := ha.busy c (by rw [hpc]; trivial)
    exact ⟨h, .refl, ha.move ha.locked (fun _ _ => Iff.rfl) (fun _ _ => Iff.rfl) (fun _ => hh)
      False.elim ((ha.holding (by rw [hpc]; trivial)).trans (and_iff_left trivial).symm)⟩
  case clearCpu =>
    obtain ⟨rfl, rfl⟩ := Prod.mk.inj hs
    have hh : h = some c := ha.busy c (by rw [hpc]; trivial)
    refine ⟨h, .refl, ha.move ha.locked (fun _ _ => Iff.rfl) (fun c' hc => ?_)
      (fun _ => hh) False.elim
      (iff_of_false (by simp) fun hrec => hrec.2)⟩
    rw [ha.cpu c', hh]
    simp [Ne.symm hc]
  case unlock =>
    obtain ⟨rfl, rfl⟩ := Prod.mk.inj hs
    have hh : h = some c := ha.busy c (by rw [hpc]; trivial)
    subst hh
    refine ⟨none, .single (.release c), ha.move rfl (fun c' hc => ?_)
      (fun _ _ => Iff.rfl) False.elim
      False.elim ?_⟩
    · simp [Ne.symm hc]
    · rw [ha.cpu c, hpc]
      exact iff_of_false (fun hrec => hrec.2) (by simp)
  case report =>
    cases hcpu : s.lock.cpu <;> simp only [hcpu] at hs
    all_goals
      obtain ⟨rfl, rfl⟩ := Prod.mk.inj hs
      exact ⟨h, .refl, ha.goto False.elim False.elim fun _ => by rw [hpc]; exact Iff.rfl⟩
  case panicked msg =>
    obtain ⟨rfl, rfl⟩ := Prod.mk.inj hs
    exact ⟨h, .refl, ha⟩
  case faulted =>
    obtain ⟨rfl, rfl⟩ := Prod.mk.inj hs
    exact ⟨h, .refl, ha⟩

/-- Whoever dies at the lock has called what it should not have. -/
def Deserved (l : List (LockEvent Cpu)) (s : Spin) : Prop :=
  ∀ c, (s.pc c).Dead → .again c ∈ l ∨ .stranger c ∈ l

theorem Deserved.step (hd : Deserved l s) {l' : List (LockEvent Cpu)} (hs : s.Step l' s') :
    Deserved (l ++ l') s' := by
  obtain ⟨c, input, hs⟩ := hs
  intro c' hdead
  have hkeep : (s.pc c').Dead → .again c' ∈ l ++ l' ∨ .stranger c' ∈ l ++ l' := fun h =>
    (hd c' h).imp (List.mem_append_left _) (List.mem_append_left _)
  by_cases hc : c' = c
  · subst hc
    rw [Spin.step] at hs
    cases hpc : s.pc c' <;> simp only [hpc] at hs hkeep
    case lockCpu =>
      split at hs
      · obtain ⟨rfl, rfl⟩ := Prod.mk.inj hs
        exact Or.inl (List.mem_append_right _ (List.mem_singleton_self _))
      · obtain ⟨rfl, rfl⟩ := Prod.mk.inj hs
        rw [goto_self] at hdead
        exact hdead.elim
    case spin =>
      split at hs
      · obtain ⟨rfl, rfl⟩ := Prod.mk.inj hs
        rw [show (s.pc c') = .spin from hpc] at hdead
        exact hdead.elim
      · obtain ⟨rfl, rfl⟩ := Prod.mk.inj hs
        rw [goto_self] at hdead
        exact hdead.elim
    case unlockLocked =>
      split at hs
      · obtain ⟨rfl, rfl⟩ := Prod.mk.inj hs
        rw [goto_self] at hdead
        exact hdead.elim
      · obtain ⟨rfl, rfl⟩ := Prod.mk.inj hs
        exact Or.inr (List.mem_append_right _ (List.mem_singleton_self _))
    case unlockCpu =>
      split at hs
      · obtain ⟨rfl, rfl⟩ := Prod.mk.inj hs
        rw [goto_self] at hdead
        exact hdead.elim
      · obtain ⟨rfl, rfl⟩ := Prod.mk.inj hs
        exact Or.inr (List.mem_append_right _ (List.mem_singleton_self _))
    case report => exact hkeep trivial
    case panicked msg => exact hkeep trivial
    case faulted => exact hkeep trivial
    case out =>
      cases hcall : input.call <;> simp only [hcall] at hs
      all_goals
        obtain ⟨rfl, rfl⟩ := Prod.mk.inj hs
        rw [goto_self] at hdead
        exact hdead.elim
    case lockLocked =>
      obtain ⟨rfl, rfl⟩ := Prod.mk.inj hs
      rw [goto_self] at hdead
      split at hdead
      · exact hdead.elim
      · exact hdead.elim
    case setPcs i =>
      obtain ⟨rfl, rfl⟩ := Prod.mk.inj hs
      rw [goto_self] at hdead
      split at hdead
      · exact hdead.elim
      · exact hdead.elim
    all_goals
      obtain ⟨rfl, rfl⟩ := Prod.mk.inj hs
      rw [goto_self] at hdead
      exact hdead.elim
  · refine hkeep ?_
    rwa [← step_other c input hc, hs]

/-! ### Runs -/

/-- The accesses that the CPUs make, in this order. -/
def exec : List (Cpu × SpinInput) → Spin → List (LockEvent Cpu) × Spin
  | [], s => ([], s)
  | (c, input) :: rest, s =>
    let (l, s') := s.step c input
    let (l', s'') := exec rest s'
    (l ++ l', s'')

theorem exec_trail (acts : List (Cpu × SpinInput)) (s : Spin) :
    Trail Step s (exec acts s).1 (exec acts s).2 := by
  induction acts generalizing s with
  | nil => exact .refl
  | cons a acts ih => exact (Trail.single ⟨a.1, a.2, rfl⟩).trans (ih (s.step a.1 a.2).2)

end Spin

/-- The run is one of a lock that has just been initialised. -/
theorem spin_agrees {lk : Spinlock} {name : String} {l : List (LockEvent Cpu)} {s : Spin}
    (hr : Trail Spin.Step (Spin.start (spinInitlock lk name)) l s) :
    Trail Mutex.Step none l (Mutex.holder l) ∧ s.Agrees (Mutex.holder l) := by
  obtain ⟨h, htrail, ha⟩ := hr.simulate (Spin.agrees_start rfl rfl) fun _ _ _ _ ha hs => ha.step hs
  rw [← (Mutex.trail_obeys htrail).1]
  exact ⟨htrail, ha⟩

/-- **A spin lock is a lock.**  What is seen of it can be seen of a lock that is taken and given
back in one step, in any interleaving and whatever is called; and no two CPUs have it. -/
theorem spin_refines {lk : Spinlock} {name : String} {l : List (LockEvent Cpu)} {s : Spin}
    (hr : Trail Spin.Step (Spin.start (spinInitlock lk name)) l s) :
    Trail Mutex.Step none l (Mutex.holder l) ∧
      (∀ c c', (s.pc c).Busy → (s.pc c').Busy → c = c') ∧
      ∀ l₁ c l₂ c' l₃, l = l₁ ++ .acquire c :: l₂ ++ .acquire c' :: l₃ → .release c ∈ l₂ := by
  obtain ⟨htrail, ha⟩ := spin_agrees hr
  refine ⟨htrail, fun c c' hc hc' => ?_, ?_⟩
  · exact Option.some_inj.1 ((ha.busy c hc).symm.trans (ha.busy c' hc'))
  · rintro l₁ c l₂ c' l₃ rfl
    exact (Mutex.trail_obeys htrail).2.exclusive

/-- A call, by a CPU without stack frames. -/
def SpinCall.plain (call : SpinCall) : SpinInput := ⟨call, fun _ => 0#32, 0#32⟩

/-- The first CPU takes the lock, the second one waits for it and gets it, and the third one gives
it back. -/
def threeCpus : List (Cpu × SpinInput) :=
  List.replicate 14 (0, SpinCall.lock.plain) ++ List.replicate 4 (1, SpinCall.lock.plain) ++
    List.replicate 6 (0, SpinCall.unlock.plain) ++ List.replicate 2 (1, SpinCall.lock.plain) ++
      List.replicate 4 (2, SpinCall.unlock.plain)

theorem threeCpus_events : (Spin.exec threeCpus (Spin.start kernelLock)).1 =
    [.acquire 0, .release 0, .acquire 1, .stranger 2] := rfl

theorem spin_refines_three :
    ∃ s, Trail Spin.Step (Spin.start (spinInitlock kernelLock "kernel_lock"))
      [.acquire 0, .release 0, .acquire 1, .stranger 2] s ∧
    Trail Mutex.Step none ([.acquire 0, .release 0, .acquire 1, .stranger 2] : List (LockEvent Cpu))
      (some 1) := by
  have hr : Trail Spin.Step (Spin.start (spinInitlock kernelLock "kernel_lock")) _ _ :=
    Spin.exec_trail threeCpus (Spin.start kernelLock)
  rw [threeCpus_events] at hr
  exact ⟨_, hr, (spin_refines hr).1⟩

/-- **Who panics in `spin_lock` or `spin_unlock` has deserved it**: it asked for the lock while it
had it, or gave it back while it had it not. -/
theorem spin_panics {lk : Spinlock} {name : String} {l : List (LockEvent Cpu)} {s : Spin} {c : Cpu}
    (hr : Trail Spin.Step (Spin.start (spinInitlock lk name)) l s) (hdead : (s.pc c).Dead) :
    ∃ l₁ ev l₂, l = l₁ ++ ev :: l₂ ∧ (ev = .again c ∧ Mutex.holder l₁ = some c ∨
      ev = .stranger c ∧ Mutex.holder l₁ ≠ some c) := by
  have hobeys := (Mutex.trail_obeys (spin_agrees hr).1).2
  have hd := hr.inv (I := Spin.Deserved) (fun _ h => h.elim) fun _ _ _ _ hd hs => hd.step hs
  rcases hd c hdead with hm | hm
  · obtain ⟨l₁, l₂, rfl⟩ := List.append_of_mem hm
    exact ⟨l₁, _, l₂, rfl, Or.inl ⟨rfl, hobeys l₁ _ l₂ rfl⟩⟩
  · obtain ⟨l₁, l₂, rfl⟩ := List.append_of_mem hm
    exact ⟨l₁, _, l₂, rfl, Or.inr ⟨rfl, hobeys l₁ _ l₂ rfl⟩⟩

theorem spin_panics_three : ∃ s l₁ ev l₂,
    Trail Spin.Step (Spin.start (spinInitlock kernelLock "kernel_lock"))
      [.acquire 0, .release 0, .acquire 1, .stranger 2] s ∧
    [.acquire 0, .release 0, .acquire 1, .stranger 2] = l₁ ++ ev :: l₂ ∧
    (ev = .again 2 ∧ Mutex.holder l₁ = some (2 : Cpu) ∨
      ev = .stranger 2 ∧ Mutex.holder l₁ ≠ some 2) := by
  have hr : Trail Spin.Step (Spin.start (spinInitlock kernelLock "kernel_lock")) _ _ :=
    Spin.exec_trail threeCpus (Spin.start kernelLock)
  have hpc : (Spin.exec threeCpus (Spin.start kernelLock)).2.pc 2 = .panicked "spin_unlock" := rfl
  rw [threeCpus_events] at hr
  obtain ⟨l₁, ev, l₂, h⟩ := spin_panics (c := 2) hr (by
    rw [hpc]
    trivial)
  exact ⟨_, l₁, ev, l₂, hr, h⟩

/-! ## Waiting -/

/-- How far it is to the end of `spin_unlock`, for a CPU that has the lock and calls `spin_unlock`
when it is out of `spin_lock`. -/
def SpinPc.rank : SpinPc → Option Nat
  | .setCpu => some 16
  | .setPcs i => some (15 - i.val)
  | .out => some 5
  | .unlockLocked => some 4
  | .unlockCpu => some 3
  | .clearPcs => some 2
  | .clearCpu => some 1
  | .unlock => some 0
  | _ => none

namespace Spin

variable {s s' : Spin} {c c' : Cpu}

/-- The CPU that has the lock goes on. -/
theorem Agrees.advance (ha : s.Agrees (some c)) {n : Nat} (hrank : (s.pc c).rank = some (n + 1)) :
    ∃ s', s.Step [] s' ∧ s'.Agrees (some c) ∧ (s'.pc c).rank = some n ∧
      ∀ c', c' ≠ c → s'.pc c' = s.pc c' := by
  have hheld : s.lock.locked ≠ 0#32 := ha.locked_ne.2 (by simp)
  obtain ⟨s', hs, hn⟩ : ∃ s', s.step c SpinCall.unlock.plain = ([], s') ∧
      (s'.pc c).rank = some n := by
    rw [Spin.step]
    cases hpc : s.pc c <;> rw [hpc] at hrank <;> simp only [SpinPc.rank, Option.some_inj,
      reduceCtorEq] at hrank
    case unlockLocked =>
      refine ⟨_, if_pos hheld, ?_⟩
      rw [goto_self, SpinPc.rank]
      congr 1
      omega
    case unlockCpu =>
      refine ⟨_, if_pos ((ha.holding (by rw [hpc]; trivial)).2 rfl), ?_⟩
      rw [goto_self, SpinPc.rank]
      congr 1
      omega
    case setPcs i =>
      refine ⟨_, rfl, ?_⟩
      rw [goto_self]
      split
      · next hi =>
        have hnext : 15 - (i.val + 1) = n := by omega
        rw [SpinPc.rank, hnext]
      · rw [SpinPc.rank]
        congr 1
        omega
    all_goals
      refine ⟨_, rfl, ?_⟩
      rw [goto_self, SpinPc.rank]
      congr 1
      try omega
  obtain ⟨h', htrail, ha'⟩ := ha.step ⟨c, _, hs⟩
  obtain rfl := Mutex.trail_nil htrail
  refine ⟨s', ⟨c, _, hs⟩, ha', hn, fun c' hc => ?_⟩
  exact (congrArg (fun r => r.2.pc c') hs).symm.trans (step_other c SpinCall.unlock.plain hc)

/-- It gives the lock back in the end. -/
theorem Agrees.leaves (ha : s.Agrees (some c)) {n : Nat} (hrank : (s.pc c).rank = some n) :
    ∃ s', Trail Step s [.release c] s' ∧ s'.Agrees none ∧ ∀ c', c' ≠ c → s'.pc c' = s.pc c' := by
  induction n generalizing s with
  | zero =>
    have hpc : s.pc c = .unlock := by
      cases hpc : s.pc c <;> rw [hpc] at hrank <;> simp only [SpinPc.rank, Option.some_inj,
        reduceCtorEq] at hrank
      case setPcs i => omega
    have hs : s.step c SpinCall.unlock.plain =
        ([.release c], { s with lock := { s.lock with locked := 0#32 } }.goto c .out) := by
      rw [Spin.step, hpc]
    obtain ⟨h', htrail, ha'⟩ := ha.step ⟨c, _, hs⟩
    obtain rfl : none = h' := (ha'.locked_free rfl).symm
    refine ⟨_, .single ⟨c, _, hs⟩, ha', fun c' hc => goto_other _ _ hc⟩
  | succ n ih =>
    obtain ⟨t, hs, ha', hn, hother⟩ := ha.advance hrank
    obtain ⟨s', htrail, hfree, hother'⟩ := ih ha' hn
    exact ⟨s', (Trail.single hs).trans htrail, hfree,
      fun c' hc => (hother' c' hc).trans (hother c' hc)⟩

end Spin

/-- **A CPU that waits gets the lock** as soon as the one that has it goes on, if that is not about
to ask for it once more, and no other takes it. -/
theorem spin_passes {lk : Spinlock} {name : String} {l : List (LockEvent Cpu)} {s : Spin} {c : Cpu}
    (hr : Trail Spin.Step (Spin.start (spinInitlock lk name)) l s) (hpc : s.pc c = .spin)
    (hable : ∀ c', Mutex.holder l = some c' → (s.pc c').rank ≠ none) :
    ∃ s', Trail Spin.Step s ((Mutex.holder l).toList.map .release ++ [.acquire c]) s' ∧
      Mutex.holder (l ++ ((Mutex.holder l).toList.map .release ++ [.acquire c])) = some c := by
  obtain ⟨-, ha⟩ := spin_agrees hr
  have hmine := ha.waits c (by rw [hpc]; trivial)
  -- once the lock is free
  have htake : ∀ t : Spin, t.Agrees none → t.pc c = .spin → ∃ s', t.Step [.acquire c] s' := by
    intro t ht htpc
    have hfree : ¬ t.lock.locked ≠ 0#32 := mt ht.locked_ne.1 (by simp)
    refine ⟨({ t with lock := { t.lock with locked := 1#32 } } : Spin).goto c .setCpu, c,
      SpinCall.lock.plain, ?_⟩
    rw [Spin.step, htpc]
    exact if_neg hfree
  have hend : ∀ l' : List (LockEvent Cpu),
      Mutex.holder (l ++ (l' ++ [.acquire c])) = some c := fun l' => by
    rw [← List.append_assoc, Mutex.holder_append]
    rfl
  cases hh : Mutex.holder l with
  | none =>
    rw [hh] at ha
    obtain ⟨s', hs⟩ := htake s ha hpc
    exact ⟨s', .single hs, hend _⟩
  | some c' =>
    rw [hh] at ha hmine
    have hne : c ≠ c' := fun heq => hmine (by rw [heq])
    obtain ⟨n, hn⟩ := Option.ne_none_iff_exists'.1 (hable c' hh)
    obtain ⟨t, hleave, hfree, hother⟩ := ha.leaves hn
    obtain ⟨s', hs⟩ := htake t hfree ((hother c hne).trans hpc)
    exact ⟨s', hleave.trans (.single hs), hend _⟩

theorem spin_passes_two : ∃ s s', (Spin.exec (threeCpus.take 18) (Spin.start kernelLock)).2 = s ∧
    s.pc 1 = .spin ∧ Trail Spin.Step s [.release 0, .acquire 1] s' := by
  have hr : Trail Spin.Step (Spin.start (spinInitlock kernelLock "kernel_lock")) _ _ :=
    Spin.exec_trail (threeCpus.take 18) (Spin.start kernelLock)
  have hl : (Spin.exec (threeCpus.take 18) (Spin.start kernelLock)).1 = [.acquire 0] := rfl
  have hpc : (Spin.exec (threeCpus.take 18) (Spin.start kernelLock)).2.pc 1 = .spin := rfl
  have hout : (Spin.exec (threeCpus.take 18) (Spin.start kernelLock)).2.pc 0 = .out := rfl
  rw [hl] at hr
  obtain ⟨s', hs', -⟩ := spin_passes hr hpc fun c' hc' => by
    obtain rfl : 0 = c' := Option.some_inj.1 hc'
    rw [hout]
    simp [SpinPc.rank]
  exact ⟨_, s', rfl, hpc, hs'⟩

end Jos
