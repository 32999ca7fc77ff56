import Jos.Alloc.Create
import Jos.Env.Run
import Jos.Smp

/-!
# Starting the other CPUs

`boot_aps` starts one CPU after the other and tells each in the variable `mpentry_kstack` which
stack to use.  The code in `mpentry.S` reads the variable some time after the CPU has been sent its
STARTUP, and nothing but `cpu_status`, which `mp_main` sets later still, lets the first CPU know
that it may go on and write to the variable again.

The CPUs that are up go on to the scheduler at once, and could be waiting in `sched_halt` by the
time `boot_aps` looks at their status.  They are not, since there is no environment yet: they are in
the kernel monitor, for good.

Before it tells that the CPU is up, `mp_main` calls `lapic_init`, which maps the registers of the
local APIC with `mmio_map_region`.  That function is not written yet and panics.  So whether
`lapic_init` returns is left open here, for each CPU: what holds in between does not depend on it,
and `boot_aps` can end only if it does.
-/

set_option autoImplicit false

namespace Jos

open Kernel Command

/-- Where the first CPU is in `boot_aps`. -/
inductive BspPc where
  /-- At the loop condition, with `c` at index `i` of `cpus`. -/
  | loop (i : Nat)
  /-- `mpentry_kstack` is set, and the CPU not started yet. -/
  | startap (i : Cpu)
  /-- Waiting for the CPU. -/
  | wait (i : Cpu)
  | done

/-- Where another CPU is. -/
inductive ApPc where
  /-- It has not been started. -/
  | off
  /-- In `mpentry.S`, on its way to where it reads `mpentry_kstack`. -/
  | mpentry
  /-- In `mp_main`, on the stack that ends at `esp`. -/
  | mpMain (esp : Word)
  /-- It has panicked in `lapic_init`. -/
  | panicked (esp : Word)
  /-- About to call `sched_yield`. -/
  | started (esp : Word)
  /-- `sched_yield` has ended so. -/
  | left (esp : Word) (x : Exit)

/-- The machine while `boot_aps` runs. -/
structure Aps where
  kernel : Kernel
  mpentryKstack : Word
  bsp : BspPc
  ap : Cpu → ApPc

/-- The end of the stack of a CPU in `percpu_kstacks`, which is at the address `kstacks`. -/
def percpuKstack (kstacks : Word) (c : Cpu) : Word :=
  kstacks + BitVec.ofNat 32 c.val * kstksize + kstksize

/-- `mp_main` as far as the `xchg` that tells that the CPU is up, when `lapic_init` has returned. -/
def Kernel.mpStarted (k : Kernel) (c : Cpu) : Kernel :=
  let k := ({ k with cpunum := c } : Kernel).lcr3 k.kernPgdir
  k.setCpu c { k.cpus c with cpuStatus := .started }

theorem mpStarted_cpus (k : Kernel) (c : Cpu) : (k.mpStarted c).cpus =
    Function.update k.cpus c { k.cpus c with cpuStatus := .started } := rfl

/-- What is left of `mp_main` then is the call of the scheduler. -/
theorem mpMain_run (k : Kernel) (c : Cpu) :
    mpMain.run { k with cpunum := c } = schedYield.run (k.mpStarted c) := rfl

namespace Aps

/-- What the first CPU, number `b` of `ncpu`, does next in `boot_aps`. -/
def bspStep (ncpu : Nat) (kstacks : Word) (b : Cpu) (s : Aps) : Aps :=
  match s.bsp with
  | .loop i =>
    if i < ncpu then
      if Fin.ofNat 8 i = b then
        { s with bsp := .loop (i + 1) }
      else
        { s with
          mpentryKstack := percpuKstack kstacks (Fin.ofNat 8 i)
          bsp := .startap (Fin.ofNat 8 i) }
    else
      { s with bsp := .done }
  | .startap i =>
    -- `lapic_startap`
    { s with
      bsp := .wait i
      ap := Function.update s.ap i .mpentry }
  | .wait i =>
    if (s.kernel.cpus i).cpuStatus ≠ .started then s else { s with bsp := .loop (i.val + 1) }
  | .done => s

/-- What the CPU `c` does next, where `lapicInit` says whether `lapic_init` returns. -/
def apStep (lapicInit : Cpu → Bool) (c : Cpu) (s : Aps) : Aps :=
  match s.ap c with
  | .off => s
  | .mpentry => { s with ap := Function.update s.ap c (.mpMain s.mpentryKstack) }
  | .mpMain esp =>
    if lapicInit c then
      { s with kernel := s.kernel.mpStarted c, ap := Function.update s.ap c (.started esp) }
    else
      { s with ap := Function.update s.ap c (.panicked esp) }
  | .panicked _ => s
  | .started esp =>
    match schedYield.run { s.kernel with cpunum := c } with
    | .error x k => { s with kernel := k, ap := Function.update s.ap c (.left esp x) }
    | .ok _ k => { s with kernel := k }
  | .left _ _ => s

/-- Who makes the next step. -/
inductive Turn where
  | bsp
  | ap (c : Cpu)

/-- The CPUs run in any order. -/
def Step (ncpu : Nat) (kstacks : Word) (b : Cpu) (lapicInit : Cpu → Bool) (s : Aps) (t : Turn)
    (s' : Aps) : Prop :=
  s' = match t with
    | .bsp => s.bspStep ncpu kstacks b
    | .ap c => s.apStep lapicInit c

/-- When `boot_aps` is called. -/
def start (k : Kernel) : Aps := ⟨k, 0#32, .loop 0, fun _ => .off⟩

end Aps

namespace ApPc

/-- The stack that the CPU is on. -/
def esp : ApPc → Option Word
  | .mpMain esp | .panicked esp | .started esp | .left esp _ => some esp
  | _ => none

/-- `mp_main` has set the status of the CPU. -/
def Up : ApPc → Prop
  | .started _ | .left _ _ => True
  | _ => False

end ApPc

namespace BspPc

/-- How many CPUs have been dealt with. -/
def index (ncpu : Nat) : BspPc → Nat
  | .loop i => i
  | .startap i => i.val
  | .wait i => i.val
  | .done => ncpu

end BspPc

/-! ## The invariant -/

/-- Without environments, the scheduler ends in the monitor. -/
theorem schedYield_empty {k : Kernel} (hfree : ∀ e, (k.envs e).envStatus = .free)
    (hidle : k.curenv = none) : schedYield.run k = .error .monitor k := by
  have hactive : k.noneActive = true := List.all_eq_true.2 fun e _ => by simp [hfree e]
  rcases schedYield_spec (s := k) fun e he => absurd (hfree e) he with
    ⟨e, d, hst, -⟩ | ⟨-, ⟨e, d, hc, -⟩ | ⟨-, hrun⟩⟩
  · exact absurd ((hfree e).symm.trans hst) (by simp)
  · exact absurd (hidle.symm.trans hc) (by simp)
  · rw [hrun, schedHalt_run, if_pos hactive]

namespace Aps

variable {ncpu : Nat} {kstacks : Word} {b c : Cpu} {lapicInit : Cpu → Bool} {s s' : Aps}

/-- While `boot_aps` runs. -/
structure Handshake (ncpu : Nat) (kstacks : Word) (b : Cpu) (lapicInit : Cpu → Bool) (s : Aps) :
    Prop where
  /-- There are no environments, -/
  free : ∀ e, (s.kernel.envs e).envStatus = .free
  /-- and no CPU has one. -/
  idle : ∀ c, (s.kernel.cpus c).cpuEnv = none
  index : s.bsp.index ncpu ≤ ncpu
  /-- A CPU that is on a stack is on its own. -/
  own : ∀ c esp, (s.ap c).esp = some esp → esp = percpuKstack kstacks c
  /-- The CPU that is to read the variable is the one that is being started, -/
  reader : ∀ c, s.ap c = .mpentry → s.bsp = .wait c
  /-- and it finds its stack there. -/
  kstack : ∀ c, s.bsp = .startap c ∨ s.bsp = .wait c →
    s.mpentryKstack = percpuKstack kstacks c ∧ c ≠ b ∧ c.val < ncpu
  /-- The status of a CPU that is up tells so. -/
  status : ∀ c, (s.ap c).Up → (s.kernel.cpus c).cpuStatus = .started
  /-- A CPU whose status is set is up. -/
  up : ∀ c, c ≠ b → (s.kernel.cpus c).cpuStatus = .started → (s.ap c).Up
  /-- Those that have been dealt with are up, -/
  before : ∀ c, c ≠ b → c.val < s.bsp.index ncpu → (s.ap c).Up
  /-- the one being dealt with has been started, -/
  waiting : ∀ c, s.bsp = .wait c → s.ap c ≠ .off
  /-- and the others have not. -/
  after : ∀ c, s.bsp.index ncpu ≤ c.val → s.bsp ≠ .wait c → s.ap c = .off
  /-- Those that have called the scheduler are in the monitor. -/
  left : ∀ c esp x, s.ap c = .left esp x → x = .monitor
  /-- Where `lapic_init` has returned, or not. -/
  returned : ∀ c, (s.ap c).Up → lapicInit c = true
  failed : ∀ c esp, s.ap c = .panicked esp → lapicInit c = false
  /-- The first CPU is not one of those that are started. -/
  other : ∀ c, s.ap c ≠ .off → c ≠ b

namespace Handshake

variable (h : Handshake ncpu kstacks b lapicInit s)
include h

/-- One CPU goes on where it has no more to do with `boot_aps` than before. -/
theorem ap_move {k : Kernel} {pc : ApPc} (hfree : ∀ e, (k.envs e).envStatus = .free)
    (hidle : ∀ c, (k.cpus c).cpuEnv = none)
    (hstatus : ∀ c', c' ≠ c → (k.cpus c').cpuStatus = (s.kernel.cpus c').cpuStatus)
    (hoff : s.ap c ≠ .off) (hpc : pc ≠ .off) (hentry : pc ≠ .mpentry)
    (hesp : ∀ esp, pc.esp = some esp → esp = percpuKstack kstacks c)
    (hup : pc.Up ↔ (k.cpus c).cpuStatus = .started) (hmore : (s.ap c).Up → pc.Up)
    (hleft : ∀ esp x, pc = .left esp x → x = .monitor) (hret : pc.Up → lapicInit c = true)
    (hfail : ∀ esp, pc = .panicked esp → lapicInit c = false) :
    Handshake ncpu kstacks b lapicInit { s with kernel := k, ap := Function.update s.ap c pc } := by
  have hcases : ∀ P : Cpu → ApPc → Prop, P c pc → (∀ c', c' ≠ c → P c' (s.ap c')) →
      ∀ c', P c' (Function.update s.ap c pc c') := fun P hc hother =>
    (Function.forall_update_iff s.ap P).2 ⟨hc, hother⟩
  refine ⟨hfree, hidle, h.index, ?_, ?_, h.kstack, ?_, ?_, ?_, ?_, ?_, ?_, ?_, ?_, ?_⟩
  · exact hcases (fun c' pc => ∀ esp, pc.esp = some esp → esp = percpuKstack kstacks c') hesp
      fun c' _ => h.own c'
  · exact hcases (fun c' pc => pc = .mpentry → s.bsp = .wait c') (fun hm => absurd hm hentry)
      fun c' _ => h.reader c'
  · exact hcases (fun c' pc => pc.Up → (k.cpus c').cpuStatus = .started) hup.1
      fun c' hc hu => (hstatus c' hc).trans (h.status c' hu)
  · exact hcases (fun c' pc => c' ≠ b → (k.cpus c').cpuStatus = .started → pc.Up) (fun _ => hup.2)
      fun c' hc hb hst => h.up c' hb ((hstatus c' hc).symm.trans hst)
  · exact hcases (fun c' pc => c' ≠ b → c'.val < s.bsp.index ncpu → pc.Up)
      (fun hb hlt => hmore (h.before c hb hlt)) fun c' _ => h.before c'
  · exact hcases (fun c' pc => s.bsp = .wait c' → pc ≠ .off) (fun _ => hpc) fun c' _ => h.waiting c'
  · exact hcases (fun c' pc => s.bsp.index ncpu ≤ c'.val → s.bsp ≠ .wait c' → pc = .off)
      (fun hle hw => absurd (h.after c hle hw) hoff) fun c' _ => h.after c'
  · exact hcases (fun _ pc => ∀ esp x, pc = .left esp x → x = .monitor) hleft fun c' _ => h.left c'
  · exact hcases (fun c' pc => pc.Up → lapicInit c' = true) hret fun c' _ => h.returned c'
  · exact hcases (fun c' pc => ∀ esp, pc = .panicked esp → lapicInit c' = false) hfail
      fun c' _ => h.failed c'
  · exact hcases (fun c' pc => pc ≠ .off → c' ≠ b) (fun _ => h.other c hoff) fun c' _ => h.other c'

/-- **A CPU that is being started, or is up, goes on.** -/
theorem apStep (c : Cpu) : Handshake ncpu kstacks b lapicInit (s.apStep lapicInit c) := by
  rw [Aps.apStep]
  cases hpc : s.ap c with
  | off => exact h
  | mpentry =>
    have hwait := h.reader c hpc
    obtain ⟨hstack, hb, -⟩ := h.kstack c (Or.inr hwait)
    have hst : (s.kernel.cpus c).cpuStatus ≠ .started := fun hst => by
      have hup := h.up c hb hst
      rw [hpc] at hup
      exact hup
    exact h.ap_move h.free h.idle (fun _ _ => rfl) (by rw [hpc]; simp) (by simp) (by simp)
      (fun esp he => by rw [← Option.some_inj.1 he, hstack]) (iff_of_false id hst)
      (by rw [hpc]; exact False.elim) (by simp) False.elim (by simp)
  | mpMain esp =>
    have hesp := h.own c esp (by rw [hpc]; rfl)
    have hb : c ≠ b := h.other c (by rw [hpc]; simp)
    dsimp only
    split
    · next hret =>
      refine h.ap_move (fun e => h.free e) (fun c' => ?_) (fun c' hc => ?_) (by rw [hpc]; simp)
        (by simp) (by simp) (fun esp' he => by rw [← Option.some_inj.1 he, hesp])
        (iff_of_true trivial ?_) (fun _ => trivial) (by simp) (fun _ => hret) (by simp)
      · rw [mpStarted_cpus]
        by_cases hc : c' = c
        · subst hc
          rw [Function.update_self]
          exact h.idle c'
        · rw [Function.update_of_ne hc]
          exact h.idle c'
      · rw [mpStarted_cpus, Function.update_of_ne hc]
      · rw [mpStarted_cpus, Function.update_self]
    · next hret =>
      have hst : (s.kernel.cpus c).cpuStatus ≠ .started := fun hst => by
        have hup := h.up c hb hst
        rw [hpc] at hup
        exact hup
      exact h.ap_move h.free h.idle (fun _ _ => rfl) (by rw [hpc]; simp) (by simp) (by simp)
        (fun esp' he => by rw [← Option.some_inj.1 he, hesp]) (iff_of_false id hst)
        (by rw [hpc]; exact False.elim) (by simp) False.elim fun _ _ => Bool.eq_false_iff.2 hret
  | panicked esp => exact h
  | started esp =>
    have hesp := h.own c esp (by rw [hpc]; rfl)
    have hst := h.status c (by rw [hpc]; trivial)
    have hrun : schedYield.run { s.kernel with cpunum := c } =
        .error .monitor { s.kernel with cpunum := c } := schedYield_empty h.free (h.idle c)
    simp only [hrun]
    refine h.ap_move h.free h.idle (fun _ _ => rfl) (by rw [hpc]; simp) (by simp) (by simp)
      (fun esp' he => by rw [← Option.some_inj.1 he, hesp]) (iff_of_true trivial hst)
      (fun _ => trivial)
      (fun esp' x hx => ?_) (fun _ => h.returned c (by rw [hpc]; trivial)) (by simp)
    cases hx
    rfl
  | left esp x => exact h

/-- **The first CPU goes on.** -/
theorem bspStep (hncpu : ncpu ≤ 8) :
    Handshake ncpu kstacks b lapicInit (s.bspStep ncpu kstacks b) := by
  rw [Aps.bspStep]
  have hindex := h.index
  cases hbsp : s.bsp with
  | loop i =>
    rw [hbsp] at hindex
    have hbefore := h.before
    have hafter := h.after
    rw [hbsp] at hbefore hafter
    dsimp only
    split
    · next hi =>
      have hval : (Fin.ofNat 8 i).val = i := Nat.mod_eq_of_lt (by omega)
      split
      · next hib =>
        refine ⟨h.free, h.idle, hi, h.own, fun c hm => ?_, fun c hc => ?_, h.status, h.up,
          fun c hb hlt => ?_, fun c hw => ?_, fun c hle _ => ?_, h.left, h.returned, h.failed,
          h.other⟩
        · exact absurd (hbsp.symm.trans (h.reader c hm)) (by simp)
        · rcases hc with hc | hc
          · cases hc
          · cases hc
        · refine hbefore c hb (Nat.lt_of_le_of_ne (Nat.le_of_lt_succ hlt) fun heq => hb ?_)
          rw [← hib]
          exact Fin.ext (heq.trans hval.symm)
        · cases hw
        · exact hafter c (Nat.le_of_succ_le hle) (by simp)
      · next hib =>
        refine ⟨h.free, h.idle, by rw [BspPc.index, hval]; exact hindex, h.own, fun c hm => ?_,
          fun c hc => ?_, h.status, h.up, fun c hb hlt => ?_, fun c hw => ?_, fun c hle _ => ?_,
          h.left, h.returned, h.failed, h.other⟩
        · exact absurd (hbsp.symm.trans (h.reader c hm)) (by simp)
        · rcases hc with hc | hc
          · obtain rfl := BspPc.startap.inj hc
            exact ⟨rfl, hib, by rw [hval]; exact hi⟩
          · cases hc
        · exact hbefore c hb (by rwa [BspPc.index, hval] at hlt)
        · cases hw
        · exact hafter c (by rwa [BspPc.index, hval] at hle) (by simp)
    · next hi =>
      have heq : i = ncpu := Nat.le_antisymm hindex (Nat.not_lt.1 hi)
      subst heq
      refine ⟨h.free, h.idle, Nat.le_refl _, h.own, fun c hm => ?_, fun c hc => ?_, h.status, h.up,
        hbefore, fun c hw => ?_, fun c hle _ => hafter c hle (by simp), h.left, h.returned,
        h.failed, h.other⟩
      · exact absurd (hbsp.symm.trans (h.reader c hm)) (by simp)
      · rcases hc with hc | hc
        · cases hc
        · cases hc
      · cases hw
  | startap i =>
    obtain ⟨hstack, hb, hlt⟩ := h.kstack i (Or.inl hbsp)
    have hoff := h.after i (by rw [hbsp]; exact Nat.le_refl _) (by rw [hbsp]; simp)
    have hst : (s.kernel.cpus i).cpuStatus ≠ .started := fun hst => by
      have hup := h.up i hb hst
      rw [hoff] at hup
      exact hup
    have hcases : ∀ P : Cpu → ApPc → Prop, P i .mpentry → (∀ c', c' ≠ i → P c' (s.ap c')) →
        ∀ c', P c' (Function.update s.ap i .mpentry c') := fun P hc hother =>
      (Function.forall_update_iff s.ap P).2 ⟨hc, hother⟩
    have hindex' : s.bsp.index ncpu = i.val := by rw [hbsp, BspPc.index]
    refine ⟨h.free, h.idle, Nat.le_of_lt hlt, ?_, ?_, fun c hc => ?_, ?_, ?_, ?_, ?_, ?_, ?_, ?_,
      ?_, ?_⟩
    · exact hcases (fun c' pc => ∀ esp, pc.esp = some esp → esp = percpuKstack kstacks c')
        (fun esp he => by cases he) fun c' _ => h.own c'
    · exact hcases (fun c' pc => pc = .mpentry → BspPc.wait i = .wait c') (fun _ => rfl)
        fun c' _ hm => absurd (hbsp.symm.trans (h.reader c' hm)) (by simp)
    · rcases hc with hc | hc
      · cases hc
      · obtain rfl := BspPc.wait.inj hc
        exact ⟨hstack, hb, hlt⟩
    · exact hcases (fun c' pc => pc.Up → (s.kernel.cpus c').cpuStatus = .started) False.elim
        fun c' _ => h.status c'
    · exact hcases (fun c' pc => c' ≠ b → (s.kernel.cpus c').cpuStatus = .started → pc.Up)
        (fun _ hs => absurd hs hst) fun c' _ => h.up c'
    · exact hcases (fun c' pc => c' ≠ b → c'.val < i.val → pc.Up)
        (fun _ hlt => absurd hlt (Nat.lt_irrefl _)) fun c' _ hb hlt =>
          h.before c' hb (by rwa [hindex'])
    · exact hcases (fun c' pc => BspPc.wait i = .wait c' → pc ≠ .off) (fun _ => by simp)
        fun c' hc hw => absurd (BspPc.wait.inj hw).symm hc
    · exact hcases (fun c' pc => i.val ≤ c'.val → BspPc.wait i ≠ .wait c' → pc = .off)
        (fun _ hw => absurd rfl hw) fun c' _ hle _ =>
          h.after c' (by rwa [hindex']) (by rw [hbsp]; simp)
    · exact hcases (fun _ pc => ∀ esp x, pc = .left esp x → x = .monitor) (by simp)
        fun c' _ => h.left c'
    · exact hcases (fun c' pc => pc.Up → lapicInit c' = true) False.elim fun c' _ => h.returned c'
    · exact hcases (fun c' pc => ∀ esp, pc = .panicked esp → lapicInit c' = false) (by simp)
        fun c' _ => h.failed c'
    · exact hcases (fun c' pc => pc ≠ .off → c' ≠ b) (fun _ => hb) fun c' _ => h.other c'
  | wait i =>
    obtain ⟨-, hb, hlt⟩ := h.kstack i (Or.inr hbsp)
    have hindex' : s.bsp.index ncpu = i.val := by rw [hbsp, BspPc.index]
    dsimp only
    split
    · exact h
    · next hst =>
      have hup := h.up i hb (not_not.1 hst)
      refine ⟨h.free, h.idle, hlt, h.own, fun c hm => ?_, fun c hc => ?_, h.status, h.up,
        fun c hb hle => ?_, fun c hw => ?_, fun c hle _ => ?_, h.left, h.returned,
        h.failed, h.other⟩
      · obtain rfl := BspPc.wait.inj (hbsp.symm.trans (h.reader c hm))
        rw [hm] at hup
        exact hup.elim
      · rcases hc with hc | hc
        · cases hc
        · cases hc
      · by_cases hci : c = i
        · rw [hci]
          exact hup
        · refine h.before c hb ?_
          rw [hindex']
          exact Nat.lt_of_le_of_ne (Nat.le_of_lt_succ hle) fun heq => hci (Fin.ext heq)
      · cases hw
      · have hle' : i.val + 1 ≤ c.val := hle
        refine h.after c (by rw [hindex']; omega) fun hw => ?_
        obtain rfl := BspPc.wait.inj (hbsp.symm.trans hw)
        omega
  | done => exact h

end Handshake

/-- When `boot_aps` is called, after `mp_init`. -/
theorem handshake_start {m : Machine} {fl : List Nat} {k : Kernel} (hk : Initialised m fl k) :
    Handshake ncpu kstacks m.bootcpu lapicInit (start k) := by
  have hunused : ∀ c, c ≠ m.bootcpu → (k.cpus c).cpuStatus ≠ .started := fun c hc => by
    rw [hk.cpus, Function.update_of_ne hc]
    simp
  refine ⟨fun e => (hk.envs e).1, hk.booted.cpus, Nat.zero_le _, ?_, ?_, ?_, fun c hu => hu.elim,
    fun c hb hst => absurd hst (hunused c hb), fun c _ hlt => absurd hlt (Nat.not_lt_zero _), ?_,
    fun c _ _ => rfl, ?_, fun c hu => hu.elim, ?_, fun c hc => absurd rfl hc⟩
  · intro c esp he
    cases he
  · intro c hm
    cases hm
  · rintro c (hc | hc)
    · cases hc
    · cases hc
  · intro c hw
    cases hw
  · intro c esp x hl
    cases hl
  · intro c esp hp
    cases hp

theorem Handshake.reach (h : Handshake ncpu kstacks b lapicInit s) (hncpu : ncpu ≤ 8)
    (hr : Reach (Step ncpu kstacks b lapicInit) (fun _ _ => True) s s') :
    Handshake ncpu kstacks b lapicInit s' := by
  refine hr.inv h fun t turn t' ht _ hstep => ?_
  cases turn with
  | bsp =>
    rw [hstep]
    exact ht.bspStep hncpu
  | ap c =>
    rw [hstep]
    exact ht.apStep c

/-- How far it is to the end of `boot_aps`. -/
def remaining (ncpu : Nat) (s : Aps) : Nat :=
  5 * (ncpu - s.bsp.index ncpu) + match s.bsp with
    | .loop _ => 4
    | .startap _ => 3
    | .wait i =>
      match s.ap i with
      | .mpentry => 2
      | .mpMain _ => 1
      | _ => 0
    | .done => 0

/-- Someone can bring the end nearer. -/
theorem Handshake.progress (h : Handshake ncpu kstacks b lapicInit s) (hncpu : ncpu ≤ 8)
    (hret : ∀ c, c ≠ b → c.val < ncpu → lapicInit c = true) (hbsp : s.bsp ≠ .done) :
    ∃ turn s', s.Step ncpu kstacks b lapicInit turn s' ∧
      (s'.bsp = .done ∨ s'.remaining ncpu < s.remaining ncpu) := by
  have hindex := h.index
  cases hpc : s.bsp with
  | loop i =>
    refine ⟨.bsp, _, rfl, ?_⟩
    rw [hpc] at hindex
    simp only [Aps.bspStep, hpc]
    split
    · next hi =>
      have hval : (Fin.ofNat 8 i).val = i := Nat.mod_eq_of_lt (by omega)
      refine Or.inr ?_
      split
      · simp only [remaining, hpc, BspPc.index]
        omega
      · simp only [remaining, hpc, BspPc.index, hval]
        omega
    · exact Or.inl rfl
  | startap i =>
    refine ⟨.bsp, _, rfl, Or.inr ?_⟩
    simp only [Aps.bspStep, hpc, remaining, BspPc.index, Function.update_self]
    omega
  | wait i =>
    obtain ⟨-, hb, hlt⟩ := h.kstack i (Or.inr hpc)
    cases hap : s.ap i with
    | off => exact absurd hap (h.waiting i hpc)
    | mpentry =>
      refine ⟨.ap i, _, rfl, Or.inr ?_⟩
      simp only [Aps.apStep, hap, remaining, hpc, BspPc.index, Function.update_self]
      omega
    | mpMain esp =>
      refine ⟨.ap i, _, rfl, Or.inr ?_⟩
      simp only [Aps.apStep, hap, if_pos (hret i hb hlt), remaining, hpc, BspPc.index,
        Function.update_self]
      omega
    | panicked esp => exact absurd ((h.failed i esp hap).symm.trans (hret i hb hlt)) (by simp)
    | started esp =>
      have hst := h.status i (by rw [hap]; trivial)
      refine ⟨.bsp, _, rfl, Or.inr ?_⟩
      simp only [Aps.bspStep, hpc, if_neg (not_not.2 hst), remaining, BspPc.index]
      omega
    | left esp x =>
      have hst := h.status i (by rw [hap]; trivial)
      refine ⟨.bsp, _, rfl, Or.inr ?_⟩
      simp only [Aps.bspStep, hpc, if_neg (not_not.2 hst), remaining, BspPc.index]
      omega
  | done => exact absurd hpc hbsp

theorem Handshake.finishes (h : Handshake ncpu kstacks b lapicInit s) (hncpu : ncpu ≤ 8)
    (hret : ∀ c, c ≠ b → c.val < ncpu → lapicInit c = true) :
    ∃ s', Reach (Step ncpu kstacks b lapicInit) (fun _ _ => True) s s' ∧ s'.bsp = .done := by
  generalize hn : s.remaining ncpu = n
  induction n using Nat.strongRecOn generalizing s with
  | ind n ih =>
    by_cases hbsp : s.bsp = .done
    · exact ⟨s, .refl, hbsp⟩
    · obtain ⟨turn, t, hstep, hdone | hlt⟩ := h.progress hncpu hret hbsp
      · exact ⟨t, .tail .refl trivial hstep, hdone⟩
      · have hone : Reach (Step ncpu kstacks b lapicInit) (fun _ _ => True) s t :=
          .tail .refl trivial hstep
        obtain ⟨s', hr, hdone⟩ := ih _ (hn ▸ hlt) (h.reach hncpu hone) rfl
        exact ⟨s', hone.trans hr, hdone⟩

end Aps

/-! ## Runs -/

theorem percpuKstack_toNat {kstacks : Word} (hfit : kstacks.toNat + 8 * 32768 < 2 ^ 32) (c : Cpu) :
    (percpuKstack kstacks c).toNat = kstacks.toNat + (c.val + 1) * 32768 := by
  have hc := c.isLt
  have hks : kstksize.toNat = 32768 := by decide
  rw [percpuKstack, BitVec.toNat_add, BitVec.toNat_add, BitVec.toNat_mul, BitVec.toNat_ofNat, hks]
  omega

variable {m : Machine} {fl : List Nat} {k : Kernel} {ncpu : Nat} {kstacks : Word}
variable {lapicInit : Cpu → Bool} {s : Aps}

theorem ApPc.Up.exists_esp {pc : ApPc} (h : pc.Up) : ∃ esp, pc.esp = some esp := by
  cases pc with
  | started esp => exact ⟨esp, rfl⟩
  | left esp x => exact ⟨esp, rfl⟩
  | _ => exact h.elim

/-- Eight CPUs come up if `lapic_init` returns. -/
theorem eight_cpus : ∃ fl k s, Initialised smallMachine fl k ∧
    Reach (Aps.Step 8 0xF0200000#32 smallMachine.bootcpu fun _ => true) (fun _ _ => True)
      (.start k) s ∧
    s.bsp = .done ∧ ∀ c : Cpu, c ≠ smallMachine.bootcpu → ∃ esp, (s.ap c).esp = some esp := by
  obtain ⟨fl, k, -, hk⟩ := kernelInit_spec smallMachine
  have h₀ : Aps.Handshake 8 0xF0200000#32 smallMachine.bootcpu (fun _ => true) (.start k) :=
    Aps.handshake_start hk
  obtain ⟨s, hr, hdone⟩ := h₀.finishes (Nat.le_refl 8) fun _ _ _ => rfl
  have h := h₀.reach (Nat.le_refl 8) hr
  refine ⟨fl, k, s, hk, hr, hdone, fun c hb => (h.before c hb ?_).exists_esp⟩
  rw [hdone]
  exact c.isLt

/-- **Every CPU has a stack of its own**, in whatever order the CPUs go on: it is the one that
`boot_aps` meant for it, and the stacks of two CPUs have no byte in common. -/
theorem bootAps_stacks (hk : Initialised m fl k) (hncpu : ncpu ≤ 8)
    (hfit : kstacks.toNat + 8 * 32768 < 2 ^ 32)
    (hr : Reach (Aps.Step ncpu kstacks m.bootcpu lapicInit) (fun _ _ => True) (.start k) s)
    {c c' : Cpu}
    {esp esp' : Word} (he : (s.ap c).esp = some esp) (he' : (s.ap c').esp = some esp') :
    esp = percpuKstack kstacks c ∧
      (c ≠ c' → esp.toNat ≤ esp'.toNat - 32768 ∨ esp'.toNat ≤ esp.toNat - 32768) := by
  have h := (Aps.handshake_start hk).reach hncpu hr
  obtain rfl := h.own c esp he
  obtain rfl := h.own c' esp' he'
  refine ⟨rfl, fun hne => ?_⟩
  have hval : c.val ≠ c'.val := fun hv => hne (Fin.ext hv)
  rw [percpuKstack_toNat hfit, percpuKstack_toNat hfit]
  omega

theorem bootAps_stacks_eight : ∃ (s : Aps) (esp esp' : Word), (s.ap 1).esp = some esp ∧
    (s.ap 2).esp = some esp' ∧ esp = percpuKstack 0xF0200000#32 1 ∧
    (esp.toNat ≤ esp'.toNat - 32768 ∨ esp'.toNat ≤ esp.toNat - 32768) := by
  obtain ⟨fl, k, s, hk, hr, -, hesp⟩ := eight_cpus
  obtain ⟨esp, he⟩ := hesp 1 (by decide)
  obtain ⟨esp', he'⟩ := hesp 2 (by decide)
  obtain ⟨hown, happart⟩ := bootAps_stacks hk (Nat.le_refl 8) (by decide) hr he he'
  exact ⟨s, esp, esp', he, he', hown, happart (by decide)⟩

/-- **When `boot_aps` returns, every CPU is up**, and none of them runs an environment: those that
have called the scheduler are in the kernel monitor. -/
theorem bootAps_done (hk : Initialised m fl k) (hncpu : ncpu ≤ 8)
    (hr : Reach (Aps.Step ncpu kstacks m.bootcpu lapicInit) (fun _ _ => True) (.start k) s)
    (hdone : s.bsp = .done) : ∀ c : Cpu, c ≠ m.bootcpu → c.val < ncpu →
      lapicInit c = true ∧ (s.ap c).Up ∧ (s.kernel.cpus c).cpuStatus = .started ∧
        (s.kernel.cpus c).cpuEnv = none ∧ ∀ esp x, s.ap c = .left esp x → x = .monitor := by
  have h := (Aps.handshake_start hk).reach hncpu hr
  intro c hb hlt
  have hup := h.before c hb (by rw [hdone]; exact hlt)
  exact ⟨h.returned c hup, hup, h.status c hup, h.idle c, fun esp x => h.left c esp x⟩

theorem bootAps_done_eight : ∃ s : Aps, s.bsp = .done ∧ (s.ap 1).Up ∧
    (s.kernel.cpus 1).cpuStatus = .started := by
  obtain ⟨fl, k, s, hk, hr, hdone, -⟩ := eight_cpus
  obtain ⟨-, hup, hst, -⟩ := bootAps_done hk (Nat.le_refl 8) hr hdone 1 (by decide) (by decide)
  exact ⟨s, hdone, hup, hst⟩

end Jos
