import Jos.Syscall
import Jos.Env.Effect
import Jos.Env.Run

/-!
# What the system calls leave alone

Effects that hold in every state, whatever it looks like: printing writes nothing but the console,
and the calls that work on memory touch no environment.
-/

set_option autoImplicit false

namespace Jos

open Command

/-! ## Printing -/

theorem printfmtS_peek (fuel : Nat) (p : Word) (precision : Int) :
    Always Peek (printfmtS fuel p precision) := by
  induction fuel generalizing p precision with
  | zero => exact (Reads.pure _).peek
  | succ fuel ih =>
    refine Always.bind Peek.trans (kloadByte_reads p).peek fun ch => ?_
    refine Always.ite (Reads.pure _).peek (Always.ite ?_ (Always.ite ?_ (Reads.pure _).peek))
    · exact Always.bind Peek.trans (Always.modify fun _ => rfl) fun _ => ih _ _
    · exact Always.bind Peek.trans (Always.modify fun _ => rfl) fun _ => ih _ _

theorem cprintS_peek (p len : Word) : Always Peek (cprintS p len) :=
  Always.ite (Always.modify fun _ => rfl) (printfmtS_peek _ _ _)

theorem printfmtS_quiet (fuel : Nat) (p : Word) (precision : Int) :
    Quiet (printfmtS fuel p precision) := by
  induction fuel generalizing p precision with
  | zero => exact Quiet.pure _
  | succ fuel ih =>
    refine Quiet.bind (kloadByte_quiet p) fun ch => ?_
    refine Quiet.ite (Quiet.pure _) (Quiet.ite ?_ (Quiet.ite ?_ (Quiet.pure _)))
    · exact Quiet.bind (Quiet.modify fun _ => rfl) fun _ => ih _ _
    · exact Quiet.bind (Quiet.modify fun _ => rfl) fun _ => ih _ _

theorem cprintS_quiet (p len : Word) : Quiet (cprintS p len) :=
  Quiet.ite (Quiet.modify fun _ => rfl) (printfmtS_quiet _ _ _)

theorem cputs_final (p len : Word) (s : Kernel) :
    final (Syscall.cputs p len).handle s = final (sysCputs p len) s := by
  simp only [final, Syscall.handle, EStateM.run_bind]
  cases (sysCputs p len).run s <;> rfl

/-! ## The calls that work on memory -/

theorem derefEnv_quiet (e : Option EnvIndex) : Quiet (derefEnv e) := by
  cases e with
  | none => exact Quiet.panic _
  | some e => exact Quiet.pure e

theorem envid2env_quiet (envid : Word) (checkperm : Bool) : Quiet (envid2env envid checkperm) := by
  refine Quiet.bind Quiet.get fun s => Quiet.ite (Quiet.pure _) (Quiet.ite (Quiet.pure _) ?_)
  refine Quiet.ite (Quiet.bind (derefEnv_quiet _) fun cur => ?_) (Quiet.pure _)
  exact Quiet.ite (Quiet.pure _) (Quiet.pure _)

theorem sysPageAlloc_quiet (envid va perm : Word) : Quiet (sysPageAlloc envid va perm) := by
  refine Quiet.bind (envid2env_quiet _ _) fun r => Quiet.ite (Quiet.pure _) ?_
  refine Quiet.ite (Quiet.pure _) (Quiet.ite (Quiet.pure _) (Quiet.ite (Quiet.pure _) ?_))
  refine Quiet.bind (pageAlloc_quiet _) fun pp => ?_
  cases pp with
  | none => exact Quiet.pure _
  | some pp =>
    refine Quiet.bind (derefEnv_quiet _) fun e => Quiet.bind Quiet.get fun _ =>
      Quiet.bind (derefPgdir_quiet _) fun d => Quiet.bind (pageInsert_quiet _ _ _ _) fun r' => ?_
    exact Quiet.ite (Quiet.bind (pageFree_quiet _) fun _ => Quiet.pure _) (Quiet.pure _)

theorem sysPageMap_quiet (srcenvid srcva dstenvid dstva perm : Word) :
    Quiet (sysPageMap srcenvid srcva dstenvid dstva perm) := by
  refine Quiet.bind (envid2env_quiet _ _) fun r => Quiet.ite (Quiet.pure _) ?_
  refine Quiet.bind (envid2env_quiet _ _) fun r' => Quiet.ite (Quiet.pure _) ?_
  refine Quiet.ite (Quiet.pure _) (Quiet.ite (Quiet.pure _) ?_)
  refine Quiet.bind (derefEnv_quiet _) fun src => Quiet.bind Quiet.get fun _ =>
    Quiet.bind (derefPgdir_quiet _) fun d => Quiet.bind (pageLookup_quiet _ _) fun pp => ?_
  -- from where the source is known to be mapped as asked
  have htail : ∀ pp : Nat, Quiet (do
      let dstenv ← derefEnv r'.2
      let dstdir ← derefPgdir ((← get).envs dstenv).envPgdir
      if (← pageInsert dstdir pp dstva perm) ≠ 0#32 then
        return -eNoMem
      return 0#32 : KernelM Word) := by
    intro pp
    refine Quiet.bind (derefEnv_quiet _) fun dst => Quiet.bind Quiet.get fun _ =>
      Quiet.bind (derefPgdir_quiet _) fun d' => Quiet.bind (pageInsert_quiet _ _ _ _) fun _ => ?_
    exact Quiet.ite (Quiet.pure _) (Quiet.pure _)
  cases pp with
  | none => exact Quiet.pure _
  | some pp =>
    refine Quiet.bind (loadWord_quiet _ _) fun w => ?_
    exact Quiet.ite (Quiet.pure _) (htail _)

theorem sysPageUnmap_quiet (envid va : Word) : Quiet (sysPageUnmap envid va) := by
  refine Quiet.bind (envid2env_quiet _ _) fun r => Quiet.ite (Quiet.pure _) ?_
  refine Quiet.ite (Quiet.pure _) ?_
  exact Quiet.bind (derefEnv_quiet _) fun e => Quiet.bind Quiet.get fun _ =>
    Quiet.bind (derefPgdir_quiet _) fun d => Quiet.bind (pageRemove_quiet _ _) fun _ =>
      Quiet.pure _

end Jos
