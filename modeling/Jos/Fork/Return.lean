import Jos.Fork.Born

/-!
# When `fork` makes a child

`fork_run` says in which ways `fork` returns, and `forkWith_succeeds` when `fork` and `sfork` make a
child.  The rest is a machine with few pages, on which `fork` is run.
-/

set_option autoImplicit false

namespace Jos

open Kernel Command

variable {res : Nat → Prop} {fl fl₀ : List Nat} {s s' s₀ : Kernel} {e c : EnvIndex} {d : Nat}
variable {r : Word} {i j : Index} {prog : Program}

/-! ## What `fork` returns -/

theorem forkPerm_congr {u u' : Kernel} (h : ∀ i j, u'.entry e i j = u.entry e i j) :
    forkPerm u' e = forkPerm u e := by
  funext i j
  rw [forkPerm, forkPerm, h]

theorem cowPages_congr {u u' : Kernel} (h : ∀ i j, u'.entry e i j = u.entry e i j) :
    u'.cowPages e = u.cowPages e := by
  ext ⟨i, j⟩
  show dupPerm (u'.entry e i j) = cowPerm ↔ dupPerm (u.entry e i j) = cowPerm
  rw [h]

theorem fork_run (h : Running res fl s e d) (hroom : s.RoomIn e forkRange)
    (hrun : (fork prog).run s = .ok r s') :
    ∃ fl₀ s₀, Handled res fl s e d prog fl₀ s₀ ∧
      Ended res fl₀ s₀ e d (forkPerm s₀ e) (s₀.cowPages e) r s' :=
  forkWith_run (fun u => forkPerm u e) (fun u => u.cowPages e) h hroom
    (fun _ _ hent => ⟨forkPerm_congr hent, cowPages_congr hent⟩)
    (fun _ _ _ _ _ hb _ _ _ _ hij ht => forkPage_step hb hij ht) hrun

/-- `fork` asks for no flags that the parent does not have. -/
theorem not_refused (u : Kernel) : ¬ Refused u e (forkPerm s e) forkRange := by
  rintro ⟨x, -, hno⟩
  exact hno (dupPerm_ok _)

theorem Born.leaf {dc g : Nat} {M : Set (Index × Index)}
    (hb : Born res fl s e c d dc g (forkPerm s e) M s') (hij : (i, j) ∈ s.copiedPages e) :
    s'.leaf c i j = s.leaf e i j := by
  have hsome : s.leaf e i j ≠ none := hij.2
  obtain ⟨p, hp⟩ := Option.ne_none_iff_exists'.1 hsome
  rw [leaf_eq_framed, hb.copied i j hij, hp]
  rw [leaf_eq_framed] at hp
  exact framed_remap (dupPerm_ok _).isPerm hp

theorem Handled.leaf (h : Handled res fl s e d prog fl₀ s₀) (hne : ¬ IsPage uxstack i j) :
    s₀.leaf e i j = s.leaf e i j := by
  rw [leaf_eq_framed, h.entry i j hne, leaf_eq_framed]

theorem Handled.copiedPages (h : Handled res fl s e d prog fl₀ s₀) :
    s₀.copiedPages e = s.copiedPages e := by
  ext ⟨i, j⟩
  refine and_congr_right fun hij => ?_
  show s₀.leaf e i j ≠ none ↔ s.leaf e i j ≠ none
  rw [h.leaf (IsPage.of_range hij)]

theorem Handled.status (h : Handled res fl s e d prog fl₀ s₀) (x : EnvIndex) :
    (s₀.envs x).envStatus = (s.envs x).envStatus := by
  by_cases hx : x = e
  · rw [hx]
    exact h.self.2
  · rw [h.envs x hx]

/-- An address in the range. -/
theorem mem_forkRange_of_va {va : Word} (hlo : utext ≤ va) (hhi : va < uxstacktop - pgsize) :
    (pdx va, ptx va) ∈ forkRange := by
  have hval := pgaddr_toNat (pdx va) (ptx va)
  have hutext : utext.toNat = 0x800000 := rfl
  have hstack : (uxstacktop - pgsize).toNat = 0xEEBFF000 := rfl
  have hpdx := pdx_val va
  have hptx := ptx_val va
  rw [BitVec.le_def] at hlo
  rw [BitVec.lt_def] at hhi
  refine ⟨?_, ?_⟩
  · show utext ≤ pgaddr (pdx va) (ptx va) 0#32
    rw [BitVec.le_def]
    omega
  · show pgaddr (pdx va) (ptx va) 0#32 < uxstacktop - pgsize
    rw [BitVec.lt_def]
    omega

/-! ## Enough pages -/

theorem forkWith_handled {page : Word → Nat → UserM Bool} (h : Running res fl s e d)
    (h0 : prog.pgfaultHandler ≠ 0#32) :
    (forkWith page prog).run s = (forkChild page prog (s.envs e).envId).run s := by
  rw [forkWith, run_bind_ok h.getenvid, setPgfaultHandler, if_neg h0]
  rfl

theorem upcallOk_of_entry {func : Word} (h : Inv res fl s) (hd : s.dir e = some d)
    (hfunc : UserPage func)
    (hentry : s.entry e (pdx func) (ptx func) &&& (pteU ||| pteP) = pteU ||| pteP) :
    s.UpcallOk d func := by
  have halign : func.toNat % 4096 = 0 := by
    rw [← pgoff_eq]
    exact pgoff_user hfunc
  have hlt := hfunc.1
  have hutop : utop.toNat = 0xEEC00000 := rfl
  have hulim : ulim.toNat = 0xEF800000 := rfl
  rw [BitVec.lt_def] at hlt
  have hend : (roundUp (func + 4#32) pgsize).toNat = func.toNat + 4096 := by
    rw [roundUp_toNat, BitVec.toNat_add, show (4#32).toNat = 4 from rfl]
    omega
  intro k hk
  rw [hend] at hk
  obtain rfl : k = 0 := by omega
  rw [Nat.mul_zero, Nat.add_zero, BitVec.ofNat_toNat, BitVec.setWidth_eq]
  refine ⟨?_, h.grants_of_entry hd hfunc.1 hentry (by decide)⟩
  rw [BitVec.le_def]
  omega

theorem remap_flags {perm flags w : Word} (h : perm &&& flags = flags) :
    remap perm w &&& flags = flags := by
  rw [remap]
  exact or_and_of_and _ h

theorem dupPerm_read (w : Word) : dupPerm w &&& (pteU ||| pteP) = pteU ||| pteP := by
  rcases dupPerm_cases w with hperm | hperm
  · rw [hperm]
    decide
  · rw [hperm]
    decide

/-- **`fork` and `sfork` make a child**, if there are pages enough, no page is refused, and the
child can read its page fault handler. -/
theorem forkWith_succeeds {page : Word → Nat → UserM Bool} (sent : Kernel → Index → Index → Word)
    (M : Kernel → Set (Index × Index)) (prog : Program) {g : Nat} (h : Running res fl s e d)
    (hroom : s.RoomIn e forkRange)
    (hpage : ∀ fl₁ c p cid, Begun res fl₁ (s.forked e c p) e c d p cid →
      (∀ i j, (s.forked e c p).leaf e i j = s.leaf e i j) →
      ∀ i j t, (i, j) ∈ forkRange → (s.forked e c p).table e i = some t →
        PageStep res fl₁ (s.forked e c p) e c d p (sent (s.forked e c p)) (M (s.forked e c p))
          (page cid) i j)
    (hsent : ∀ u : Kernel, (∀ i j, u.entry e i j = s.entry e i j) →
      ¬ Refused u e (sent u) forkRange ∧
      sent u (pdx prog.pgfaultUpcall) (ptx prog.pgfaultUpcall) &&& (pteU ||| pteP) = pteU ||| pteP)
    (h0 : prog.pgfaultHandler ≠ 0#32) (hc : s.envFreeList = some c)
    (henough : s.forkPages e ≤ fl.length) (hstack : s.translate d userWrite uxstack = some (g, 0))
    (hfunc : UserPage prog.pgfaultUpcall)
    (hmapped : (pdx prog.pgfaultUpcall, ptx prog.pgfaultUpcall) ∈ s.copiedPages e) :
    ∃ r s', (forkWith page prog).run s = .ok r s' ∧ 0 < r.toInt ∧ envx r = c ∧
      ∃ fl', Inv res fl' s' ∧ fl.length ≤ fl'.length + s.forkPages e := by
  rw [forkWith_handled h h0]
  have hpos : 1 ≤ fl.length := by
    rw [Kernel.forkPages] at henough
    omega
  have hsame : ∀ {c p fl₁ cid}, Begun res fl₁ (s.forked e c p) e c d p cid →
      s.envFreeList = some c → fl = p :: fl₁ → ∀ i j,
        (s.forked e c p).entry e i j = s.entry e i j := by
    rintro c p fl₁ cid hb hc rfl
    exact (SameSpace.of_frame (h.inv.forked hc e).2.2 fun hx => hb.ne hx.symm).entry
  rcases forkChild_run sent M h hroom prog hpage with
    ⟨hno, -⟩ | ⟨c', p, fl₁, hfl, hc', hb, ⟨hlack, -⟩ | ⟨hno, -⟩ | ⟨hno, -⟩ |
      ⟨-, fl₂, s₂, g', pp, s₃, hcopy, hst, ⟨fl₃, hinv₃, hle⟩, hfork⟩⟩
  · rcases hno with hno | rfl
    · exact absurd (hc.symm.trans hno) (by simp)
    · exact absurd hpos (by decide)
  · omega
  · exact absurd hno (hsent _ (hsame hb hc' hfl)).1
  · exact absurd (hstack.symm.trans hno) (by simp)
  obtain rfl : c = c' := Option.some_inj.1 (hc.symm.trans hc')
  have hentry := hsame hb hc' hfl
  rw [hfork]
  have hmo := MemOnly.trans _ _ _ hcopy.only hst.only
  have henvs₃ : s₃.envs = (s.forked e c p).envs := hmo.envs
  have hid₃ : s₃.resolve e (nextEnvId (s.envs c).envId c) = some c := by
    rw [← hb.id]
    simp only [Kernel.resolve, henvs₃]
  have hst₃ : (s₃.envs c).envStatus = .notRunnable := by
    rw [henvs₃, forked_envs, Function.update_self]
    rfl
  have hdc : s₃.dir c = some p := (dir_of_envs henvs₃ c).trans hb.dir
  have hok : s₃.UpcallOk p prog.pgfaultUpcall := by
    refine upcallOk_of_entry hinv₃ hdc hfunc ?_
    have hmem : (pdx prog.pgfaultUpcall, ptx prog.pgfaultUpcall) ∈
        forkRange ∩ (s.forked e c p).presentPages e := ⟨hmapped.1, by
      show (s.forked e c p).leaf e _ _ ≠ none
      rw [leaf_eq_framed, hentry, ← leaf_eq_framed]
      exact hmapped.2⟩
    rw [hst.child _ _ (IsPage.of_range hmapped.1), hcopy.copied _ _ hmem]
    exact remap_flags (hsent _ hentry).2
  rcases finishChild_run hinv₃ (hmo.curenv.trans hb.parent.current) hb.ne hid₃ hst₃ hdc prog with
    ⟨hno, -⟩ | ⟨hno, -⟩ | ⟨s', hfin, hgo⟩
  · exact absurd hok hno
  · exact absurd hok hno
  · exact ⟨_, s', hfin, nextEnvId_pos _ c, envx_nextEnvId _ c, fl₃, hgo.inv hinv₃, hle⟩

theorem fork_succeeds (prog : Program) {g : Nat} (h : Running res fl s e d)
    (hroom : s.RoomIn e forkRange)
    (h0 : prog.pgfaultHandler ≠ 0#32) (hc : s.envFreeList = some c)
    (henough : s.forkPages e ≤ fl.length) (hstack : s.translate d userWrite uxstack = some (g, 0))
    (hfunc : UserPage prog.pgfaultUpcall)
    (hmapped : (pdx prog.pgfaultUpcall, ptx prog.pgfaultUpcall) ∈ s.copiedPages e) :
    ∃ r s', (fork prog).run s = .ok r s' ∧ 0 < r.toInt ∧ envx r = c ∧
      ∃ fl', Inv res fl' s' ∧ fl.length ≤ fl'.length + s.forkPages e :=
  forkWith_succeeds (fun u => forkPerm u e) (fun u => u.cowPages e) prog h hroom
    (fun _ _ _ _ hb _ _ _ _ hij ht => forkPage_step hb hij ht)
    (fun u _ => ⟨not_refused u, dupPerm_read _⟩) h0 hc henough hstack hfunc hmapped

/-! ## A machine with few pages -/

theorem roomy_running (n : Fin 64) :
    Running (roomyRes n) (List.range' 2 n.val) (roomy n) 0 1 ∧ (roomy n).Room 0 := by
  have htab : ∀ i, (roomy n).table 0 i = none := fun i => oneEnv_target (.table 0 i)
  have hid : envx (oneEnv.envs 0).envId = 0 ∧ (oneEnv.envs 0).envId ≠ 0#32 := by decide
  refine ⟨⟨roomy_inv n, rfl, oneEnv_target (.dir 0), rfl, hid, fun i t ht => ?_⟩, fun p => ?_⟩
  · exact absurd ht (by rw [htab]; simp)
  · have hcount : (roomy n).counts p ≤ 1 := by
      show (if p = 1 then 1#16 else 0#16).toNat ≤ 1
      split <;> decide
    have hrefs : Ledger.refsIn (Slot.IsPageOf 0) (roomy n).target p = 0 := by
      by_contra hne
      obtain ⟨k, hk, hkp⟩ := Ledger.refsIn_pos.1 (Nat.pos_of_ne_zero hne)
      match k, hk with
      | .page x i j, hk =>
        obtain rfl : x = 0 := hk
        have hnone : (roomy n).leaf 0 i j = none := leaf_eq_none (htab i) j
        exact absurd (hkp.symm.trans hnone) (by simp)
    omega

/-- `sys_page_alloc` has mapped the page `pp` at an address where none was mapped. -/
structure PageAdded (res : Nat → Prop) (fl : List Nat) (s : Kernel) (e : EnvIndex) (d : Nat)
    (va : Word) (pp : Nat) (fl' : List Nat) (s' : Kernel) : Prop where
  run : Running res fl' s' e d
  room : s'.Room e
  only : MemOnly s s'
  free : fl'.length + (1 + s.tablesFor e va) = fl.length
  lt : pp < 2 ^ 20
  entry : s'.entry e (pdx va) (ptx va) = page2pa pp ||| pteP ||| userPerm
  others : ∀ i j, ¬ IsPage va i j → s'.entry e i j = s.entry e i j
  tables : ∀ i, i ≠ pdx va → s'.table e i = s.table e i

theorem Running.alloc {va : Word} (h : Running res fl s e d) (hroom : s.Room e) (hva : UserPage va)
    (hleaf : s.leaf e (pdx va) (ptx va) = none) (henough : 1 + s.tablesFor e va ≤ fl.length) :
    ∃ pp fl' s', (sysPageAlloc (s.envs e).envId va userPerm).run s = .ok 0#32 s' ∧
      PageAdded res fl s e d va pp fl' s' := by
  have hperm : PermOk userPerm := by decide
  rcases h.inv.sysPageAlloc_put h.current h.resolve_self h.dir hva hperm with
    ⟨_, -, -, hfull⟩ | ⟨pp, rest, fl₁, s₁, rfl, hrun, hput⟩
  · omega
  · have hfree := h.put_free hput
    rw [Kernel.freedAt, hleaf] at hfree
    rw [List.length_cons] at henough
    refine ⟨pp, fl₁, s₁, hrun,
      { run := h.put_running hput
        room := room_iff.2 (h.put_room hput hperm.isPerm (room_iff.1 hroom))
        only := hput.memOnly_cleared
        free := ?_
        lt := Inv.lt_pow s (h.inv.free_lt List.mem_cons_self)
        entry := hput.entry_self
        others := fun i j hij => h.put_entry hput hij
        tables := fun i hi => ?_ }⟩
    · rw [List.length_cons]
      dsimp only at hfree
      omega
    · rw [hput.table h.dir fun hh => absurd hh hi, (SameSpace.cleared h.inv e).table]

/-- It has a page of text and an exception stack. -/
def prepared (n : Fin 64) : Kernel :=
  final (sysPageAlloc 4096#32 uxstack userPerm)
    (final (sysPageAlloc 4096#32 utext userPerm) (roomy n))

/-- What is mapped then, and how many pages are free. -/
structure Prepared (n : Fin 64) (fl : List Nat) (p g : Nat) (s : Kernel) : Prop where
  run : Running (roomyRes n) fl s 0 1
  room : s.Room 0
  free : fl.length + 4 = n.val
  envFree : s.envFreeList = some 1
  text : s.entry 0 (pdx utext) (ptx utext) = page2pa p ||| pteP ||| userPerm ∧ p < 2 ^ 20
  stack : s.entry 0 (pdx uxstack) (ptx uxstack) = page2pa g ||| pteP ||| userPerm ∧ g < 2 ^ 20
  others : ∀ i j, ¬ IsPage utext i j → ¬ IsPage uxstack i j → s.entry 0 i j = 0#32
  noTemp : s.table 0 (pdx pftemp) = none

/-- The two calls succeed. -/
theorem prepared_steps (n : Fin 64) (hn : 4 ≤ n.val) : ∃ p fl₁ s₁ g fl₂,
    (sysPageAlloc ((roomy n).envs 0).envId utext userPerm).run (roomy n) = .ok 0#32 s₁ ∧
    PageAdded (roomyRes n) (List.range' 2 n.val) (roomy n) 0 1 utext p fl₁ s₁ ∧
    (sysPageAlloc (s₁.envs 0).envId uxstack userPerm).run s₁ = .ok 0#32 (prepared n) ∧
    PageAdded (roomyRes n) fl₁ s₁ 0 1 uxstack g fl₂ (prepared n) ∧ fl₂.length + 4 = n.val := by
  obtain ⟨h₀, hroom₀⟩ := roomy_running n
  have hlen₀ : (List.range' 2 n.val).length = n.val := List.length_range'
  have htab₀ : ∀ i, (roomy n).table 0 i = none := fun i => oneEnv_target (.table 0 i)
  have henv₀ : ((roomy n).envs 0).envId = 4096#32 := rfl
  have hutext : UserPage utext := by decide
  have hfor₀ : (roomy n).tablesFor 0 utext = 1 := by
    rw [Kernel.tablesFor, htab₀, if_pos rfl]
  obtain ⟨p, fl₁, s₁, hrun₁, h₁⟩ := h₀.alloc hroom₀ hutext (leaf_eq_none (htab₀ _) _) (by omega)
  have hfree₁ := h₁.free
  have hne : ¬ IsPage utext (pdx uxstack) (ptx uxstack) := fun hh => absurd hh.1 (by decide)
  have hnone : s₁.leaf 0 (pdx uxstack) (ptx uxstack) = none := by
    rw [leaf_eq_framed, h₁.others _ _ hne, ← leaf_eq_framed]
    exact leaf_eq_none (htab₀ _) _
  have hfor₁ : s₁.tablesFor 0 uxstack = 1 := by
    rw [Kernel.tablesFor, h₁.tables _ (by decide), htab₀, if_pos rfl]
  obtain ⟨g, fl₂, s₂, hrun₂, h₂⟩ := h₁.run.alloc h₁.room userPage_uxstack hnone (by omega)
  have hfree₂ := h₂.free
  have henv₁ : (s₁.envs 0).envId = 4096#32 := by
    rw [h₁.only.envs]
    exact henv₀
  have hs₂ : prepared n = s₂ := by
    rw [prepared, ← henv₀, final_of_ok hrun₁, henv₀, ← henv₁, final_of_ok hrun₂]
  rw [hs₂]
  exact ⟨p, fl₁, s₁, g, fl₂, hrun₁, h₁, hrun₂, h₂, by omega⟩

theorem prepared_spec (n : Fin 64) (hn : 4 ≤ n.val) : ∃ fl p g, Prepared n fl p g (prepared n) := by
  obtain ⟨p, fl₁, s₁, g, fl₂, -, h₁, -, h₂, hfree⟩ := prepared_steps n hn
  have htab₀ : ∀ i, (roomy n).table 0 i = none := fun i => oneEnv_target (.table 0 i)
  have hne' : ¬ IsPage uxstack (pdx utext) (ptx utext) := fun hh => absurd hh.1 (by decide)
  refine ⟨fl₂, p, g, h₂.run, h₂.room, hfree, ?_, ⟨?_, h₁.lt⟩, ⟨h₂.entry, h₂.lt⟩,
    fun i j hij hij' => ?_, ?_⟩
  · rw [h₂.only.envFreeList, h₁.only.envFreeList]
    rfl
  · rw [h₂.others _ _ hne', h₁.entry]
  · rw [h₂.others i j hij', h₁.others i j hij, entry_of_none (htab₀ i)]
  · rw [h₂.tables _ (by decide), h₁.tables _ (by decide), htab₀]

/-- The program has set its handler before. -/
def handlerSet : Program := ⟨0x800020#32, utext⟩

theorem Prepared.translate {n : Fin 64} {p g : Nat} (h : Prepared n fl p g s) :
    s.translate 1 userWrite uxstack = some (g, 0) :=
  translate_userPerm h.run.dir h.run.tables h.stack.1 h.stack.2 (by decide)

end Jos
