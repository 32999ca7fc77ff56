import Jos.Fork.Return

/-!
# What the parent keeps

`startChild` copies the parent's exception stack for the child, but in the wrong direction: it maps
the child's new page at `PFTEMP` in the parent and then moves `PFTEMP` to the exception stack.  Both
are zero afterwards.  And what the parent had at `PFTEMP` itself is unmapped.

`fork_intact_iff` says that the parent loses nothing else.
-/

set_option autoImplicit false

namespace Jos

open Kernel Command

variable {res : Nat → Prop} {fl fl₀ : List Nat} {s s' s₀ : Kernel} {e c : EnvIndex}
variable {d dc g p o t : Nat} {va r : Word} {i j : Index} {b : Byte} {prog : Program}
variable {sent : Index → Index → Word} {M : Set (Index × Index)}

/-- The parent `e`, whose page directory is `d`, reads what it has read before it called `fork`, and
the child, whose id is `r`, has a copy of its exception stack. -/
structure Intact (s : Kernel) (d : Nat) (r : Word) (s' : Kernel) : Prop where
  parent : ∀ va b, va < utop → s.readByte d userRead va = some b →
    s'.readByte d userRead va = some b
  child : ∀ dc, s'.dir (envx r) = some dc → ∀ va, pgnum va = pgnum uxstack →
    s'.readByte dc userRead va = s'.readByte d userRead va

/-- The parent has nothing to lose: nothing is mapped at `PFTEMP`, and its exception stack, if it
has one, is zero. -/
structure NothingToLose (s : Kernel) (d : Nat) : Prop where
  temp : ∀ va, pgnum va = pgnum pftemp → s.readByte d userRead va = none
  stack : ∀ va b, pgnum va = pgnum uxstack → s.readByte d userRead va = some b → b = 0#8

/-! ## Reading -/

theorem userRead_of_write {w : Word} (h : w &&& userWrite = userWrite) :
    w &&& userRead = userRead := by
  have hsub : userWrite &&& userRead = userRead := by decide
  rw [← hsub, ← BitVec.and_assoc, h]

theorem lt_utop_of_pgnum {page : Word} (hpage : UserPage page) (h : pgnum va = pgnum page) :
    va < utop := by
  rw [lt_utop_iff, (pdx_ptx_of_pgnum h).1, ← lt_utop_iff]
  exact hpage.1

theorem byteAt_zero (o : Nat) : byteAt (fun _ => 0#32) o = 0#8 := by
  rw [byteAt, BitVec.zero_ushiftRight]
  rfl

/-- Reading a page that is mapped with all flags. -/
theorem readByte_mapped {x : EnvIndex} (hd : s.dir x = some d) (hl : s.Linked x d) {page : Word}
    (hva : pgnum va = pgnum page)
    (hentry : s.entry x (pdx page) (ptx page) = page2pa p ||| pteP ||| userPerm) (hp : p < 2 ^ 20) :
    s.readByte d userRead va = some (byteAt (s.mem p) (pgoff va)) := by
  obtain ⟨hi, hj⟩ := pdx_ptx_of_pgnum hva
  rw [← hi, ← hj] at hentry
  rw [Kernel.readByte, translate_userPerm hd hl hentry hp (by decide), Option.map_some]

/-- Reading a page whose entry is zero. -/
theorem readByte_zero {x : EnvIndex} (hd : s.dir x = some d) (hva : va < utop)
    (hentry : s.entry x (pdx va) (ptx va) = 0#32) : s.readByte d userRead va = none := by
  refine Option.eq_none_iff_forall_ne_some.2 fun b hb => ?_
  obtain ⟨t, p, -, -, hflags, -⟩ := (readByte_eq_some hd hva).1 hb
  rw [hentry] at hflags
  exact absurd hflags (by decide)

/-! ## The exception stack -/

namespace Born

variable (hb : Born res fl₀ s₀ e c d dc g sent M s')
include hb

/-- The child's is zero. -/
theorem read_childStack (hl : ∀ pp ∈ fl₀, pp < 2 ^ 20) (hva : pgnum va = pgnum uxstack) :
    s'.readByte dc userRead va = some 0#8 := by
  obtain ⟨pp, hpp, hentry, hzero⟩ := hb.stack
  rw [readByte_mapped hb.dir hb.linked.2 hva hentry (hl pp hpp), hzero, byteAt_zero]

/-- The parent's is zero now. -/
theorem read_stack (hd : s₀.dir e = some d) (hd' : s'.dir e = some d)
    (hva : pgnum va = pgnum uxstack) : s'.readByte d userRead va = some 0#8 := by
  obtain ⟨htr, hzero⟩ := hb.parentStack
  have hux := userPage_uxstack.1
  obtain ⟨t, ht, hpde, hpte, hleaf, -⟩ := (translate_eq_some hd hux).1 htr
  obtain ⟨ht', hm⟩ := hb.kept _ t ht
  have hentry : s'.entry e (pdx uxstack) (ptx uxstack) = s₀.entry e (pdx uxstack) (ptx uxstack) :=
    hb.same _ _ (fun hh => uxstack_out hh.1.1) uxstack_ne_pftemp
  obtain ⟨hi, hj⟩ := pdx_ptx_of_pgnum hva
  rw [readByte_eq_some hd' (lt_utop_of_pgnum userPage_uxstack hva), hi, hj]
  refine ⟨t, g, ht', ?_, ?_, ?_, by rw [hzero, byteAt_zero]⟩
  · rw [hm]
    exact userRead_of_write hpde
  · rw [hentry]
    exact userRead_of_write hpte
  · rw [leaf_eq_framed, hentry, ← leaf_eq_framed, hleaf]

/-- What is mapped neither at `PFTEMP` nor as the exception stack is mapped as before. -/
theorem kept_entry (hp : s₀.leaf e i j = some p) (htemp : ¬ IsPage pftemp i j)
    (hread : s₀.entry e i j &&& userRead = userRead) :
    s'.entry e i j &&& userRead = userRead ∧ s'.leaf e i j = some p := by
  by_cases hij : (i, j) ∈ s₀.copiedPages e ∩ M
  · have hentry := hb.marked i j hij
    refine ⟨?_, ?_⟩
    · rw [hentry, remap, BitVec.or_assoc]
      exact or_and_of_and _ (by decide)
    · rw [leaf_eq_framed, hentry]
      exact framed_remap (by decide) ((leaf_eq_framed s₀ e i j).symm.trans hp)
  · rw [leaf_eq_framed, hb.same i j hij htemp, ← leaf_eq_framed]
    exact ⟨hread, hp⟩

end Born

/-! ## The parent -/

/-- The page of the exception stack, and what is in it, before the handler is set. -/
theorem Handled.erased (hh : Handled res fl s e d prog fl₀ s₀) (h : Running res fl s e d)
    (htr : s₀.translate d userWrite uxstack = some (g, 0)) (hn : NothingToLose s d)
    (hp : s.leaf e i j = some g) (o : Nat) (ho : o < 4096) : byteAt (s.mem g) o = 0#8 := by
  rcases hh.stack with ⟨-, hs⟩ | ⟨-, pp, hpp, hentry, -⟩
  · subst hs
    have hva : pgnum (uxstack + BitVec.ofNat 32 o) = pgnum uxstack := by
      rw [pgnum_eq, pgnum_eq, BitVec.toNat_add, BitVec.toNat_ofNat]
      have hux : uxstack.toNat = 0xEEBFF000 := rfl
      omega
    have hread : s₀.translate d userRead uxstack = some (g, 0) := by
      have hux := userPage_uxstack.1
      obtain ⟨t, ht, hpde, hpte, hleaf, hoff⟩ := (translate_eq_some h.dir hux).1 htr
      exact (translate_eq_some h.dir hux).2
        ⟨t, ht, userRead_of_write hpde, userRead_of_write hpte, hleaf, hoff⟩
    refine hn.stack _ _ hva ?_
    rw [Kernel.readByte, translate_add s₀ d userRead userPage_uxstack ho, hread]
    rfl
  · -- a new page is mapped nowhere else
    have hux := userPage_uxstack.1
    obtain ⟨-, -, -, -, hleaf, -⟩ := (translate_eq_some hh.run.dir hux).1 htr
    have hpp' : pp < 2 ^ 20 := Inv.lt_pow s (h.inv.free_lt hpp)
    rw [leaf_eq_framed, hentry, framed_entry hpp' (by decide)] at hleaf
    obtain rfl := Option.some_inj.1 hleaf
    exact absurd hpp (h.inv.isData_leaf hp).1

theorem Born.dir_parent (hb : Born res fl₀ s₀ e c d dc g sent M s') (hd : s₀.dir e = some d) :
    s'.dir e = some d :=
  (dir_congr (hb.envs e hb.ne.symm)).trans hd

/-- `fork` returns the id of a child. -/
theorem fork_born (h : Running res fl s e d) (hroom : s.RoomIn e forkRange)
    (hrun : (fork prog).run s = .ok r s') (hr : 0 < r.toInt) : ∃ fl₀ s₀ dc g,
      Handled res fl s e d prog fl₀ s₀ ∧
      Born res fl₀ s₀ e (envx r) d dc g (forkPerm s₀ e) (s₀.cowPages e) s' := by
  obtain ⟨fl₀, s₀, hh, hend⟩ := fork_run h hroom hrun
  obtain ⟨dc, g, hb⟩ := hend.child hr
  exact ⟨fl₀, s₀, dc, g, hh, hb⟩

/-- The parent's exception stack is zero then. -/
theorem fork_stack_erased (h : Running res fl s e d) (hroom : s.RoomIn e forkRange)
    (hrun : (fork prog).run s = .ok r s') (hr : 0 < r.toInt) (hva : pgnum va = pgnum uxstack) :
    s'.readByte d userRead va = some 0#8 := by
  obtain ⟨fl₀, s₀, dc, g, hh, hb⟩ := fork_born h hroom hrun hr
  exact hb.read_stack hh.run.dir (hb.dir_parent hh.run.dir) hva

/-! ## A parent with something on its exception stack -/

/-- It is on its exception stack: the lowest byte there is not zero. -/
def used (n : Fin 64) : Kernel :=
  final (ustore uxstack fun pg o => setByte pg o 0xFF#8) (prepared n)

theorem Prepared.store {n : Fin 64} {f : Page → Nat → Page} (h : Prepared n fl p g s) :
    (ustore uxstack f).run s = .ok () (s.fill g (f (s.mem g) 0)) ∧
      Prepared n fl p g (s.fill g (f (s.mem g) 0)) := by
  have hwr : s.writable uxstack = some (g, 0) := by
    rw [Kernel.writable, h.run.loaded]
    exact h.translate
  have hleaf := leaf_of_translate h.run.dir userPage_uxstack.1 h.translate
  have hst := UserStores.fill h.run.inv hleaf (f (s.mem g) 0)
  have hsame := hst.sameSpace 0
  refine ⟨?_, h.run.of_stores hst, ?_, h.free, h.envFree, ?_, ?_, fun i j hij hij' => ?_, ?_⟩
  · simp only [ustore, EStateM.run_bind, EStateM.run_get, hwr, EStateM.run_modify]
  · exact h.room.step h.run.inv hst.inv fun q i j _ => Or.inl fun k hk => by rwa [hst.target] at hk
  · rw [hsame.entry]
    exact h.text
  · rw [hsame.entry]
    exact h.stack
  · rw [hsame.entry]
    exact h.others i j hij hij'
  · rw [hsame.table]
    exact h.noTemp

theorem used_spec : ∃ fl p g, Prepared 9 fl p g (used 9) ∧
    (used 9).readByte 1 userRead uxstack = some 0xFF#8 := by
  obtain ⟨fl, p, g, h⟩ := prepared_spec 9 (by decide)
  obtain ⟨hrun, h'⟩ := h.store (f := fun pg o => setByte pg o 0xFF#8)
  have hused : used 9 = (prepared 9).fill g (setByte ((prepared 9).mem g) 0 0xFF#8) :=
    final_of_ok hrun
  rw [hused]
  refine ⟨fl, p, g, h', ?_⟩
  rw [readByte_mapped h'.run.dir h'.run.tables rfl h'.stack.1 h'.stack.2, fill_mem,
    Function.update_self, pgoff_user userPage_uxstack, byteAt_setByte_self]

theorem Prepared.forkPages_le {n : Fin 64} (h : Prepared n fl p g s) : s.forkPages 0 ≤ 5 := by
  have htables : tablesOf (insert (pdx uxstack, ptx uxstack) (forkRange ∩ s.presentPages 0)) ≤
      2 := by
    have htwo : ({pdx utext, pdx uxstack} : Set Index).ncard = 2 := Set.ncard_pair (by decide)
    rw [← htwo]
    refine Set.ncard_le_ncard ?_ (Set.toFinite _)
    rintro i ⟨j, heq | ⟨-, hpresent⟩⟩
    · exact Or.inr (congrArg Prod.fst heq)
    · by_contra hi
      refine hpresent ?_
      rw [leaf_eq_framed, h.others i j (fun hh => hi (Or.inl hh.1)) (fun hh => hi (Or.inr hh.1))]
      exact framed_zero
  have htemp := tablesFor_le s 0 pftemp
  rw [Kernel.forkPages]
  omega

/-- Nine pages are enough to fork. -/
theorem Prepared.forks {n : Fin 64} (h : Prepared n fl₀ p g s) (hn : 9 ≤ n.val) :
    ∃ r s', (fork handlerSet).run s = .ok r s' ∧ 0 < r.toInt ∧
      ∃ fl', Inv (roomyRes n) fl' s' ∧ n.val ≤ fl'.length + 9 := by
  have hfree := h.free
  have hpages := h.forkPages_le
  have hmapped : (pdx utext, ptx utext) ∈ s.copiedPages 0 := by
    refine ⟨mem_forkRange_of_va (by decide) (by decide), ?_⟩
    show s.leaf 0 (pdx utext) (ptx utext) ≠ none
    rw [leaf_eq_framed, h.text.1, framed_entry h.text.2 (by decide)]
    simp
  obtain ⟨r, s', hrun, hpos, -, fl', hinv, hle⟩ := fork_succeeds handlerSet h.run (h.room.roomIn _)
    (by decide) h.envFree (by omega) h.translate (by decide) hmapped
  exact ⟨r, s', hrun, hpos, fl', hinv, by omega⟩

theorem used_forks : ∃ fl r s', Running (roomyRes 9) fl (used 9) 0 1 ∧ (used 9).Room 0 ∧
    (fork handlerSet).run (used 9) = .ok r s' ∧ 0 < r.toInt := by
  obtain ⟨fl, p, g, h, -⟩ := used_spec
  obtain ⟨r, s', hrun, hpos, -⟩ := h.forks (by decide)
  exact ⟨fl, r, s', h.run, h.room, hrun, hpos⟩

/-! ## What is lost -/

/-- **What `fork` takes from the parent** is what it has at `PFTEMP` and on its exception stack: it
is left intact if and only if it has nothing there. -/
theorem fork_intact_iff (h : Running res fl s e d) (hroom : s.Room e)
    (hrun : (fork prog).run s = .ok r s') (hr : 0 < r.toInt) :
    Intact s d r s' ↔ NothingToLose s d := by
  obtain ⟨fl₀, s₀, dc, g, hh, hb⟩ := fork_born h (hroom.roomIn _) hrun hr
  have hd' := hb.dir_parent hh.run.dir
  have hstack : ∀ va, pgnum va = pgnum uxstack → s'.readByte d userRead va = some 0#8 :=
    fun va hva => hb.read_stack hh.run.dir hd' hva
  constructor
  · intro hi
    refine ⟨fun va hva => ?_, fun va b hva hread => ?_⟩
    · have hlt := lt_utop_of_pgnum userPage_pftemp hva
      obtain ⟨hi', hj'⟩ := pdx_ptx_of_pgnum hva
      have hnone : s'.readByte d userRead va = none :=
        readByte_zero hd' hlt (by rw [hi', hj']; exact hb.temp)
      refine Option.eq_none_iff_forall_ne_some.2 fun b hread => ?_
      exact absurd (hnone.symm.trans (hi.parent va b hlt hread)) (by simp)
    · have hlt := lt_utop_of_pgnum userPage_uxstack hva
      exact Option.some_inj.1 ((hi.parent va b hlt hread).symm.trans (hstack va hva))
  · intro hn
    refine ⟨fun va b hva hread => ?_, fun dc' hdc va hva => ?_⟩
    · by_cases hux : pgnum va = pgnum uxstack
      · rw [hstack va hux, hn.stack va b hux hread]
      obtain ⟨t, p, ht, hpde, hpte, hp, hbyte⟩ := (readByte_eq_some h.dir hva).1 hread
      have htemp : ¬ IsPage pftemp (pdx va) (ptx va) := fun hpage => by
        rw [hn.temp va (pgnum_inj hpage.1 hpage.2)] at hread
        exact absurd hread (by simp)
      have hux' : ¬ IsPage uxstack (pdx va) (ptx va) := fun hpage => hux (pgnum_inj hpage.1 hpage.2)
      have hentry₀ := hh.entry _ _ hux'
      have hp₀ : s₀.leaf e (pdx va) (ptx va) = some p := (hh.leaf hux').trans hp
      obtain ⟨hpte', hp'⟩ := hb.kept_entry hp₀ htemp (by rw [hentry₀]; exact hpte)
      obtain ⟨ht₀, hm₀⟩ := hh.kept _ t ht
      obtain ⟨ht', hm'⟩ := hb.kept _ t ht₀
      refine (readByte_eq_some hd' hva).2 ⟨t, p, ht', by rw [hm', hm₀]; exact hpde, hpte', hp', ?_⟩
      by_cases hpg : p = g
      · -- the page of the exception stack is mapped here, too
        subst hpg
        have hoff : pgoff va < 4096 := by
          rw [pgoff_eq]
          omega
        rw [hb.parentStack.2, byteAt_zero, ← hbyte,
          hh.erased h hb.parentStack.1 hn hp (pgoff va) hoff]
      · rw [hb.data p (hh.run.inv.isData_leaf hp₀) hpg, hh.data p (h.inv.isData_leaf hp), hbyte]
    · obtain rfl := Option.some_inj.1 (hb.dir.symm.trans hdc)
      rw [hstack va hva, hb.read_childStack
        (fun pp hpp => Inv.lt_pow s₀ (hh.run.inv.free_lt hpp)) hva]

theorem fork_intact_iff_used : ∃ fl r s', Running (roomyRes 9) fl (used 9) 0 1 ∧ (used 9).Room 0 ∧
    (fork handlerSet).run (used 9) = .ok r s' ∧ 0 < r.toInt ∧
    (Intact (used 9) 1 r s' ↔ NothingToLose (used 9) 1) := by
  obtain ⟨fl, r, s', h, hroom, hrun, hr⟩ := used_forks
  exact ⟨fl, r, s', h, hroom, hrun, hr, fork_intact_iff h hroom hrun hr⟩

/-- The byte is lost. -/
theorem not_intact : ∃ r s', (fork handlerSet).run (used 9) = .ok r s' ∧ 0 < r.toInt ∧
    (used 9).readByte 1 userRead uxstack = some 0xFF#8 ∧
    s'.readByte 1 userRead uxstack = some 0#8 ∧ ¬ Intact (used 9) 1 r s' := by
  obtain ⟨fl, r, s', h, hroom, hrun, hr⟩ := used_forks
  obtain ⟨-, -, -, -, hread⟩ := used_spec
  have hlost : s'.readByte 1 userRead uxstack = some 0#8 :=
    fork_stack_erased h (hroom.roomIn _) hrun hr rfl
  refine ⟨r, s', hrun, hr, hread, hlost, fun hi => ?_⟩
  have hkept := hi.parent uxstack 0xFF#8 userPage_uxstack.1 hread
  rw [hlost] at hkept
  exact absurd (Option.some_inj.1 hkept) (by decide)

end Jos
