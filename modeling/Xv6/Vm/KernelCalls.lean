import Xv6.Vm.KernelSpec

/-
  The calls that make and end processes, and `exec`: every page
  has one owner afterwards.

  Key theorems include:
    * `fork_rule`
    * `exit_rule`, `wait_rule`
    * `sysExec_rule`
    * `store_rule`
-/

open Xv6.Vm.Kernel Multiset

-------
-- Trapframes
-------

namespace Xv6.Vm

open Prog

variable {P : Type} [Fintype P] [DecidableEq P] {L : MemLayout} {A : Multiset Nat} {k : Kernel P}
variable {view : P → PtView} {d : Fin NFILE → Int} {PM M : Multiset Nat}
variable {E : Halt → Kernel P → Prop} {p : P}

omit [Fintype P] in
@[simp] theorem Kernel.setMem_same (k : Kernel P) (p : P) : k.setMem p (k.proc p).mem = k := by
  unfold setMem setProc
  rw [Function.update_eq_self]

omit [DecidableEq P] in
/- A trapframe is no page table and no user memory. -/
theorem Kernel.Ok.writeFrame (hA : AllPages L A) (h : Kernel.Ok L A k view d PM M)
    (hPt : (k.proc p).mem.pagetable ≠ 0) {s' : Ram}
    (hTrades : k.vm.Trades s' {(k.proc p).mem.trapframe}
      {(k.proc p).mem.trapframe}) : Kernel.Ok L A { k with vm := s' } view d PM M := by
  obtain ⟨hHolds, hOwned⟩ := h.holds hPt
  have hSound := h.sound_proc hA p
  rw [hOwned, UserMem.pages, add_comm] at hSound
  have hTrades' : k.vm.Trades s' ((k.proc p).mem.owned (view p))
      ((k.proc p).mem.owned (view p)) := by
    rw [hOwned]
    exact (hTrades.frame _).congr (add_comm _ _) (add_comm _ _)
  have hShows : (view p).Shows (k.proc p).mem.pagetable
      s'.mem :=
    hHolds.shows.congr (fun q hq => hTrades.kept hSound (mem_add.mpr (.inl hq)))
  exact h.sameView hA hTrades' ⟨fun hNull =>
    absurd hNull hPt, fun _ => ⟨((h.mem p).some hPt).1, hShows, hHolds.space⟩⟩

omit [Fintype P] in
/- Registers of a process that does not run are set. -/
theorem setReg_onTask {off x : Nat} {Q : Unit → Kernel P → Prop}
    (hQ : ∀ s', k.vm.Trades s' {(k.proc p).mem.trapframe}
      {(k.proc p).mem.trapframe} → Q () { k with vm := s' }) :
    wp (onTask p [] (setReg off x)) Q E k := by
  rw [onTask_rule]
  refine setReg_rule (fun s' hTrades => ?_)
  rw [setMem_same]
  exact hQ s' hTrades

-------
-- Fork
-------

variable {np : P}

/- Two processes have different pages. -/
theorem Kernel.Ok.sound_two (hA : AllPages L A) (h : Kernel.Ok L A k view d PM M) {q : P}
    (hNe : p ≠ q) :
    k.vm.Sound L ((k.proc p).mem.owned (view p) + (k.proc q).mem.owned (view q)) := by
  refine (h.sound hA).mono ?_
  have hPair := Finset.sum_le_sum_of_subset (f := fun r => (k.proc r).mem.owned (view r))
    (Finset.subset_univ {p, q})
  rw [Finset.sum_pair hNe] at hPair
  refine hPair.trans ?_
  refine le_trans ?_ (le_add_left _ M)
  refine le_trans ?_ (le_add_right _ PM)
  exact le_add_left _ _

/- The descriptors from `rest` on are still to be copied. -/
structure Copied (L : MemLayout) (A : Multiset Nat) (k : Kernel P) (view : P → PtView)
    (PM : Multiset Nat) (np : P) (rest : List (Fin NOFILE))
    (k' : Kernel P) : Prop where
  ok : Kernel.Ok L A k' view 0 PM 0
  same : ∃ F, k' = { k with files := F }
  empty : ∀ fd ∈ rest, k'.files.ofile np fd = none
  nodup : rest.Nodup

theorem forkFile_rule {fd : Fin NOFILE} {rest : List (Fin NOFILE)} {k' : Kernel P}
    (hUsed : (k.proc np).state = .used) (h : Copied L A k view PM np (fd :: rest) k') :
    wp (forkFile p np fd) (fun _ k'' => Copied L A k view PM np rest k'') E k' := by
  obtain ⟨F, hF⟩ := h.same
  have hNodup := List.nodup_cons.mp h.nodup
  have hState : (k'.proc np).state = .used := by
    rw [hF]
    exact hUsed
  unfold forkFile editFiles
  rw [wp_bind, wp_read]
  split
  · rw [wp_pure]
    exact ⟨h.ok, h.same, fun g hg => h.empty g (List.mem_cons_of_mem _ hg), hNodup.2⟩
  rename_i f hFd
  rw [wp_bind]
  refine filedup_rule h.ok (h.ok.one_le_ref hFd) (fun F' hSame hOk => ?_)
  rw [wp_edit]
  have hEmpty : F'.ofile np fd = none := by
    rw [hSame]
    exact h.empty fd (List.mem_cons_self ..)
  have hGive := hOk.files.giveFd hEmpty
  refine ⟨hOk.setFd hGive ?_ ?_, ?_, ?_, hNodup.2⟩
  · rw [hState]
    decide
  · rw [hState]
    decide
  · exact ⟨F'.setFd np fd (some f), by rw [hF]⟩
  · intro g hg
    have hNe : g ≠ fd := by
      intro hEq
      rw [hEq] at hg
      exact hNodup.1 hg
    rw [Files.setFd_fd_of_ne _ _ _ hNe, hSame]
    exact h.empty g (List.mem_cons_of_mem _ hg)

/- The child is made ready when its memory is copied. -/
theorem forkChild_rule (hA : AllPages L A) {u : PtView}
    (hSettled : ∀ q, q ≠ np → ((k.proc q).state = .unused ∧ (k.proc q).mem.pagetable = 0 ∧
        (k.proc q).mem.trapframe = 0) ∨
      (((k.proc q).state = .runnable ∨ (k.proc q).state = .zombie) ∧ (k.proc q).mem.pagetable ≠ 0))
    (hUsed : (k.proc np).state = .used) (hPt : (k.proc np).mem.pagetable ≠ 0)
    (hFiles : ∀ fd, k.files.ofile np fd = none)
    (h : Kernel.Ok L A (k.setMem np
        { (k.proc np).mem with sz := (k.proc p).mem.sz })
      (Function.update view np u) 0 PM 0) : wp (forkChild p np) (fun _ k' => k'.Good L A) E k := by
  unfold forkChild
  rw [wp_bind, wp_read]
  rw [wp_bind, wp_edit]
  set k₁ := k.setMem np
    { (k.proc np).mem with sz := (k.proc p).mem.sz } with hk₁
  set view₁ := Function.update view np u
  have hPt₁ : (k₁.proc np).mem.pagetable ≠ 0 := by
    rw [setMem_self]
    exact hPt
  have hUsed₁ : (k₁.proc np).state = .used := by
    rw [setMem_self]
    exact hUsed
  -- the trapframe is copied, and the result of `fork` set
  rw [wp_bind, onTask_rule, wp_edit]
  rw [setMem_same]
  set s₂ := k₁.vm.setPage (k₁.proc np).mem.trapframe
    ((k₁.vm.mem (k₁.proc np).mem.trapframe).splice 0
      ((k₁.vm.mem (k.proc p).mem.trapframe).slice 0 TRAPSIZE)) with hs₂
  have hTrades₂ : k₁.vm.Trades s₂ {(k₁.proc np).mem.trapframe} {(k₁.proc np).mem.trapframe} :=
    Pool.Trades.write _ (mem_singleton_self _) _
  have hOk₂ := h.writeFrame hA hPt₁ hTrades₂
  rw [wp_bind]
  refine setReg_onTask (fun s₃ hTrades₃ => ?_)
  have hOk₃ := hOk₂.writeFrame hA hPt₁ hTrades₃
  set k₃ : Kernel P := { k₁ with vm := s₃ } with hk₃
  rw [wp_bind]
  refine wp_imp (wp_forEach (forkFile p np) (Copied L A k₃ view₁ PM np) _
    (fun fd rest s hs => forkFile_rule hUsed₁ hs)
    ⟨hOk₃, ⟨k₃.files, rfl⟩, fun fd _ => hFiles fd,
      List.nodup_finRange NOFILE⟩) (fun _ k₄ hCopied => ?_)
  obtain ⟨F, hF⟩ := hCopied.same
  have hProc : k₄.proc = k₁.proc := by rw [hF]
  rw [wp_bind, wp_edit, wp_pure]
  refine ⟨view₁, PM, hCopied.ok.setProc hA ?_ ?_ ?_, ?_⟩
  · rfl
  · have hMem := hCopied.ok.mem np
    exact ⟨hMem.none, fun hNe =>
      ⟨(hMem.some hNe).1, (hMem.some hNe).2.shows, (hMem.some hNe).2.space⟩⟩
  · rintro (hState | hState)
    · cases hState
    · cases hState
  · intro q
    by_cases hq : q = np
    · rw [hq, setProc_self]
      refine .inr ⟨.inl rfl, ?_⟩
      rw [hProc]
      exact hPt₁
    · rw [setProc_of_ne _ _ hq, hProc, setMem_of_ne _ _ hq]
      exact hSettled q hq

theorem fork_rule (hA : AllPages L A) (h : Kernel.Ok L A k view 0 PM 0) {procs : List P}
    (hCaller : Caller k p) : wp (fork L procs p) (fun _ k' => k'.Good L A) E k := by
  unfold fork
  rw [wp_bind]
  refine allocproc_rule hA h hCaller.settled ?_ ?_
  · intro k' view' hOk hSettled
    rw [wp_pure]
    exact ⟨view', PM, hOk, hSettled⟩
  intro np k' view' hOk hUnused hNear hUsed hPt hSz
  have hNe : p ≠ np := by
    intro hEq
    rw [← hEq, hCaller.runnable] at hUnused
    cases hUnused
  have hFiles : ∀ fd, k'.files.ofile np fd = none := by
    intro fd
    rw [hNear.files]
    exact h.idle np (.inl hUnused) fd
  have hPtP : (k'.proc p).mem.pagetable ≠ 0 := by
    rw [hNear.proc p hNe]
    exact hCaller.pagetable
  obtain ⟨hChild, hOwnedC⟩ := hOk.holds hPt
  obtain ⟨hParent, hOwnedP⟩ := hOk.holds hPtP
  have hTf := ((hOk.mem np).some hPt).1
  have hSound := hOk.sound_two hA hNe.symm
  rw [hOwnedC, hOwnedP] at hSound
  have hChildZero : npages (k'.proc np).mem.sz = 0 := by rw [hSz, npages_zero]
  rw [wp_bind, wp_read]
  rw [wp_bind, onVm_rule]
  refine uvmcopy_rule hChild.shows hParent.shows hParent.space ?_ ?_ ?_ ?_
  · refine hSound.mono (add_le_add ?_ ?_)
    · exact le_trans (le_add_right _ _) (le_add_right _ _)
    · exact le_add_right _ _
  · intro i hi
    exact hChild.space.gap i (by rw [hChildZero]; omega) hi
  · intro u s' hBecomes hLeaf
    rw [if_neg (by decide), wp_bind]
    have hTrades : k'.vm.Trades s' ((k'.proc np).mem.owned (view' np))
        ((k'.proc np).mem.owned u) := by
      rw [hOwnedC, UserMem.owned_eq hTf hPt]
      unfold UserMem.pages PtView.own
      rw [hChildZero]
      exact (hBecomes.trades.frame _).frame _
    have hView := hOk.setView hA hTrades ⟨fun hNull => absurd hNull hPt, fun _ =>
        ⟨hTf, hBecomes.shows, hChild.space.congr hLeaf⟩⟩
    refine freeproc_rule hA hView hFiles (fun s'' hFreed => ?_)
    rw [wp_pure]
    refine ⟨_, PM, hFreed, hCaller.settled.near (p := np) (fun q hq => ?_) (.inl ?_)⟩
    · rw [setProc_of_ne _ _ hq]
      exact hNear.proc q hq
    · rw [setProc_self]
      exact ⟨rfl, rfl, rfl⟩
  · intro u s' hAdds _
    refine forkChild_rule (u := u) hA ?_ hUsed hPt hFiles (hOk.setMem hA ?_ ?_)
    · intro q hq
      rw [hNear.proc q hq]
      exact hCaller.settled q
    · rw [hOwnedC]
      rw [UserMem.owned_sz hTf hPt]
      unfold UserMem.pages
      have hAll := hAdds.trades
      refine (hAll.frame _).congr ?_ rfl
      rw [PtView.own, hChildZero, PtView.pages_zero, add_zero]
    · refine ⟨fun hNull => absurd hNull hPt, fun _ => ⟨hTf, hAdds.shows, ?_⟩⟩
      have hEmpty := hChild.space
      rw [hChildZero] at hEmpty
      exact hEmpty.adds hAdds (Nat.zero_le _) (hParent.space.le_npages hSound.right.left)

-------
-- Exit And Wait
-------

/- The descriptors from `rest` on are still to be closed. -/
structure Closed (L : MemLayout) (A : Multiset Nat) (k : Kernel P) (view : P → PtView)
    (p : P) (rest : List (Fin NOFILE)) (k' : Kernel P) : Prop where
  ok : ∃ PM', Kernel.Ok L A k' view 0 PM' 0
  same : ∃ F s', k' = { k with files := F, vm := s' }
  empty : ∀ fd, fd ∉ rest → k'.files.ofile p fd = none

theorem exitFile_rule (hA : AllPages L A) {fd : Fin NOFILE} {rest : List (Fin NOFILE)}
    {k' : Kernel P} (hRunnable : (k.proc p).state = .runnable)
    (h : Closed L A k view p (fd :: rest) k') :
    wp (exitFile L p fd) (fun _ k'' => Closed L A k view p rest k'') E k' := by
  obtain ⟨PM', hOk⟩ := h.ok
  obtain ⟨F, s', hF⟩ := h.same
  have hState : (k'.proc p).state = .runnable := by
    rw [hF]
    exact hRunnable
  unfold exitFile editFiles
  rw [wp_bind, wp_read]
  split
  · rename_i hNone
    rw [wp_pure]
    refine ⟨h.ok, h.same, fun g hg => ?_⟩
    by_cases hEq : g = fd
    · rw [hEq]
      exact hNone
    · exact h.empty g (by simp [hEq, hg])
  rename_i f hFd
  rw [wp_bind]
  refine fileclose_rule hA hOk (hOk.one_le_ref hFd) (fun F' s'' PM'' hSame _ hOk' => ?_)
  rw [wp_edit]
  have hFull : F'.ofile p fd = some f := by
    rw [hSame]
    exact hFd
  have hTake := hOk'.files.takeFd hFull
  rw [zero_sub, neg_add_cancel] at hTake
  refine ⟨⟨PM'', hOk'.setFd hTake ?_ ?_⟩, ⟨F'.setFd p fd none, s'', by rw [hF]⟩, ?_⟩
  · rw [hState]
    decide
  · rw [hState]
    decide
  · intro g hg
    by_cases hEq : g = fd
    · rw [hEq, Files.setFd_self]
    · rw [Files.setFd_fd_of_ne _ _ _ hEq, hSame]
      exact h.empty g (by simp [hEq, hg])

omit [Fintype P] in
/- Only parents change. -/
theorem reparent_mem (p : P) (k : Kernel P) (q : P) :
    ((reparent p k).proc q).mem = (k.proc q).mem ∧
      ((reparent p k).proc q).state = (k.proc q).state := by
  unfold reparent
  dsimp only
  split
  · exact ⟨rfl, rfl⟩
  · exact ⟨rfl, rfl⟩

theorem Kernel.Ok.reparent (h : Kernel.Ok L A k view d PM M) (p : P) :
    Kernel.Ok L A (Vm.reparent p k) view d PM M where
  cells := by
    have hSum : ∑ q, ((Vm.reparent p k).proc q).mem.owned
        (view q) = ∑ q, (k.proc q).mem.owned (view q) :=
      Finset.sum_congr rfl (fun q _ => by rw [(reparent_mem p k q).1])
    have hCells := h.cells
    unfold pages at hCells ⊢
    rw [hSum]
    exact hCells
  mem := fun q => by
    rw [(reparent_mem p k q).1]
    exact h.mem q
  files := h.files
  idle := fun q hq => by
    rw [(reparent_mem p k q).2] at hq
    exact h.idle q hq

/- A process ends, unless it is the first. -/
theorem exit_rule (hA : AllPages L A) (h : Kernel.Ok L A k view 0 PM 0) (hCaller : Caller k p)
    (status : BitVec 32) : wp (exit L p status) (fun _ k' => k'.Good L A) Stops k := by
  unfold exit
  rw [wp_bind, wp_read, wp_ite]
  refine ⟨fun _ => ?_, fun _ => ?_⟩
  · rw [wp_stop]
    exact .inr rfl
  rw [wp_bind]
  refine wp_imp (wp_forEach (exitFile L p) (Closed L A k view p) _ (fun fd rest s hs =>
      exitFile_rule hA hCaller.runnable hs)
    ⟨⟨PM, h⟩, ⟨k.files, k.vm, rfl⟩, fun fd hfd => absurd (List.mem_finRange fd) hfd⟩)
    (fun _ k₁ hClosed => ?_)
  obtain ⟨PM₁, hOk₁⟩ := hClosed.ok
  obtain ⟨F, s', hF⟩ := hClosed.same
  rw [wp_bind, wp_edit, wp_bind, wp_edit, wp_pure]
  have hOk₂ := hOk₁.reparent p
  have hMem₂ : ∀ q, ((reparent p k₁).proc q).mem = (k.proc q).mem := by
    intro q
    rw [(reparent_mem p k₁ q).1, hF]
  have hState₂ : ∀ q, ((reparent p k₁).proc q).state = (k.proc q).state := by
    intro q
    rw [(reparent_mem p k₁ q).2, hF]
  refine ⟨view, PM₁, hOk₂.setProc hA rfl ?_ ?_, ?_⟩
  · exact hOk₂.mem p
  · intro _ fd
    exact hClosed.empty fd (List.not_mem_nil)
  · intro q
    by_cases hq : q = p
    · rw [hq, setProc_self]
      refine .inr ⟨.inr rfl, ?_⟩
      rw [hMem₂]
      exact hCaller.pagetable
    · rw [setProc_of_ne _ _ hq, hMem₂, hState₂]
      exact hCaller.settled q

/- A child that has ended is freed, or the call blocks. -/
theorem wait_rule (hA : AllPages L A) (h : Kernel.Ok L A k view 0 PM 0) {procs : List P}
    (hCaller : Caller k p) (addr : Nat) :
    wp (wait L procs p addr) (fun _ k' => k'.Good L A) Stops
      k := by
  unfold wait
  rw [wp_bind, wp_read]
  split
  · rename_i q hFind
    have hZombie : (k.proc q).state = .zombie := by
      have hBoth := List.find?_some hFind
      simp only [decide_eq_true_eq] at hBoth
      exact hBoth.2
    have hFiles : ∀ fd, k.files.ofile q fd = none := h.idle q (.inr hZombie)
    -- after the status was copied out, or not
    have hEnd : ∀ b s', Kernel.Ok L A { k with vm := s' } view 0 PM 0 → wp (if b = true then do
            freeproc L q
            return (k.proc q).pid
          else return -1 : KernelM P Int)
          (fun _ k' => k'.Good L A) Stops
          { k with vm := s' } := by
      intro b s' hOk
      rw [wp_ite]
      refine ⟨fun _ => ?_, fun _ => ?_⟩
      · rw [wp_bind]
        refine freeproc_rule hA hOk hFiles (fun s'' hFreed => ?_)
        rw [wp_pure]
        refine ⟨view, PM, hFreed, hCaller.settled.near (p := q) (fun r hr => ?_) (.inl ?_)⟩
        · rw [setProc_of_ne _ _ hr]
        · rw [setProc_self]
          exact ⟨rfl, rfl, rfl⟩
      · rw [wp_pure]
        exact ⟨view, PM, hOk, hCaller.settled⟩
    rw [wp_bind, onVm_rule, wp_ite]
    refine ⟨fun _ => ?_, fun _ => ?_⟩
    · rw [wp_pure]
      exact hEnd true k.vm h
    · exact copyout_onVm hA h hCaller.pagetable addr _ hEnd
  · rw [wp_ite]
    refine ⟨fun _ => ?_, fun _ => ?_⟩
    · rw [wp_pure]
      exact ⟨view, PM, h, hCaller.settled⟩
    · rw [wp_stop]
      exact .inl rfl

-------
-- Exec
-------

variable {s : Ram}

omit [Fintype P] [DecidableEq P] in
theorem fetchaddr_looks {m : UserMem} {v : PtView} (hShows : v.Shows m.pagetable s.mem)
    (hSound : s.Sound L v.tables) (addr : Nat) : Looks (fetchaddr m addr) s := by
  refine .ite (.pure _ s) (.bind (copyin_looks hShows hSound _ _) (fun r => ?_))
  cases r with
  | none | some => exact .pure _ s

omit [DecidableEq P] in
/- The page table of a process can be read. -/
theorem Kernel.Ok.readable (hA : AllPages L A) (h : Kernel.Ok L A k view d PM M)
    (hPt : (k.proc p).mem.pagetable ≠ 0) :
    (view p).Shows (k.proc p).mem.pagetable k.vm.mem ∧ k.vm.Sound L (view p).tables := by
  obtain ⟨hHolds, hOwned⟩ := h.holds hPt
  have hSound := h.sound_proc hA p
  rw [hOwned] at hSound
  exact ⟨hHolds.shows, hSound.left.left⟩

omit [DecidableEq P] in
/-
  The loop that copies arguments. It has the pages in which
  they are, and there are fewer than `MAXARG`.
-/
theorem fetchArgs_rule (hA : AllPages L A) (hPt : (k.proc p).mem.pagetable ≠ 0) (uargv : Nat)
    {E : VmFault → Ram → Prop} {Q : List Nat × Option (List (List UInt8)) → Ram → Prop}
    (hQ : ∀ (pages : List Nat) r s', Kernel.Ok L A { k with vm := s' } view d PM
        (pages : Multiset Nat) →
      (∀ argv, r = some argv → argv.length < MAXARG) →
      Q (pages, r) s') :
    ∀ {n i : Nat} {pages : List Nat} {argv : List (List UInt8)} {s : Ram},
      argv.length = i → i + n = MAXARG →
      Kernel.Ok L A { k with vm := s } view d PM (pages : Multiset Nat) →
      wp (fetchArgs (k.proc p).mem uargv n i pages argv) Q E
        s := by
  intro n
  induction n with
  | zero =>
    intro i pages argv s _ _ hOk
    unfold fetchArgs
    rw [wp_pure]
    exact hQ _ _ s hOk (fun _ hNone => by cases hNone)
  | succ n ih =>
    intro i pages argv s hLen hMax hOk
    obtain ⟨hShows, hSound⟩ := hOk.readable hA hPt
    have hStop : Q (pages, none) s := hQ _ _ s hOk (fun _ hNone => by cases hNone)
    unfold fetchArgs
    rw [wp_bind]
    refine (fetchaddr_looks hShows hSound _).wp (fun r => ?_)
    cases r with
    | none =>
      rw [wp_pure]
      exact hStop
    | some uarg =>
      rw [wp_ite]
      refine ⟨fun _ => ?_, fun _ => ?_⟩
      · rw [wp_pure]
        refine hQ _ _ s hOk (fun _ hSome => ?_)
        cases hSome
        omega
      rw [wp_bind]
      refine kalloc_rule (fun s' hTrades => ?_) (fun page s' hTrades => ?_)
      · rw [wp_pure]
        refine hQ _ _ s' ?_ (fun _ hNone => by cases hNone)
        exact hOk.trade hA ((hTrades.frame _).congr (zero_add _).symm (zero_add _))
      have hAdd : ({page} + pages : Multiset Nat) =
          ((pages ++ [page] : List Nat) : Multiset Nat) := by
        rw [add_comm]
        rfl
      have hOk' := hOk.trade hA ((hTrades.frame _).congr (zero_add _).symm hAdd)
      obtain ⟨hShows', hSound'⟩ := hOk'.readable hA hPt
      rw [wp_bind]
      refine (copyinstr_looks hShows' hSound' _ _).wp (fun r => ?_)
      cases r with
      | none =>
        rw [wp_pure]
        exact hQ _ _ s' hOk' (fun _ hNone => by cases hNone)
      | some arg =>
        rw [wp_bind, wp_edit]
        refine ih ?_ ?_ ?_
        · rw [List.length_append, hLen]
          rfl
        · omega
        · exact hOk'.trade hA (Pool.Trades.write _ (by simp) _)

omit [DecidableEq P] in
/- The pages of the arguments are freed. -/
theorem kfreeAll_rule (hA : AllPages L A) {pages : List Nat}
    (h : Kernel.Ok L A { k with vm := s } view d PM (pages : Multiset Nat))
    {E : VmFault → Ram → Prop} {Q : Unit → Ram → Prop}
    (hQ : ∀ s', Kernel.Ok L A { k with vm := s' } view d PM 0 → Q () s') :
    wp (forEach (kfree L) pages) Q E s := by
  refine wp_imp (wp_forEach (kfree L) (fun rest s => Kernel.Ok L A { k with vm := s } view d PM
      (rest : Multiset Nat)) pages ?_ h)
    (fun _ s' hs' => hQ s' hs')
  intro page rest s hOk
  have hArea : L.Area page := (hOk.sound hA).area_of_mem (mem_add.mpr (.inl (by simp)))
  refine kfree_rule hArea (fun s' hTrades => ?_)
  exact hOk.trade hA ((hTrades.frame _).congr
    (singleton_add page (rest : Multiset Nat)).symm
    (zero_add _))

theorem sysExec_rule (hA : AllPages L A) (h : Kernel.Ok L A k view 0 PM 0) (hCaller : Caller k p)
    (upath uargv : Nat) (lookup : Path → Option Image) (cuts : List (Option Nat)) :
    wp (sysExec L p upath uargv lookup cuts) (fun _ k' => k'.Good L A) E k := by
  have hPt := hCaller.pagetable
  obtain ⟨hShows, hSound⟩ := h.readable hA hPt
  unfold sysExec
  rw [wp_bind, wp_read]
  rw [wp_bind, onVm_rule]
  refine (copyinstr_looks hShows hSound _ _).wp (fun r => ?_)
  cases r with
  | none =>
    rw [wp_pure]
    exact ⟨view, PM, h, hCaller.settled⟩
  | some path =>
    rw [wp_bind, onVm_rule]
    have hEmpty : Kernel.Ok L A { k with vm := k.vm } view
        0 PM (([] : List Nat) : Multiset Nat) := h
    refine fetchArgs_rule hA hPt uargv ?_ rfl rfl hEmpty
    intro pages r s₁ hOk₁ hArgs
    cases r with
    | none =>
      rw [wp_bind, onVm_rule]
      refine kfreeAll_rule hA hOk₁ (fun s₂ hOk₂ => ?_)
      rw [wp_pure]
      exact ⟨view, PM, hOk₂, hCaller.settled⟩
    | some argv =>
      rw [wp_bind, onTask_rule]
      obtain ⟨hHolds, hOwned⟩ := hOk₁.holds hPt
      have hSound₁ := hOk₁.sound_proc hA p
      rw [hOwned] at hSound₁
      refine exec_rule (hArgs argv rfl) rfl hHolds hSound₁ (fun t' hSame hTrades => ?_)
        (fun w t' hNew => ?_)
      · rw [hSame.mem]
        rw [show ({ k with vm := s₁ } : Kernel P).setMem p
          (k.proc p).mem = { k with vm := s₁ } from setMem_same _ p]
        have hOk₂ := hOk₁.trade hA ((hTrades.frame _).congr (zero_add _).symm (zero_add _))
        rw [wp_bind, onVm_rule]
        refine kfreeAll_rule hA hOk₂ (fun s₃ hOk₃ => ?_)
        rw [wp_pure]
        exact ⟨view, PM, hOk₃, hCaller.settled⟩
      have hTf : t'.mem.trapframe ≠ 0 := by
        rw [hNew.trapframe]
        exact ((hOk₁.mem p).some hPt).1
      have hRoot : t'.mem.pagetable ≠ 0 :=
        ((hNew.trades.sound hSound₁).left.left.area_of_mem hNew.holds.shows.root_mem).ne_zero
      have hOk₂ := hOk₁.setMem hA (by
          rw [hOwned, UserMem.owned_eq hTf hRoot]
          exact hNew.trades)
        ⟨fun hNull => absurd hNull hRoot, fun _ => ⟨hTf, hNew.holds⟩⟩
      rw [wp_bind, onVm_rule]
      refine kfreeAll_rule hA hOk₂ (fun s₃ hOk₃ => ?_)
      rw [wp_pure]
      refine ⟨_, PM, hOk₃, hCaller.settled.near (p := p) (fun q hq => ?_) (.inr ?_)⟩
      · rw [setMem_of_ne _ _ hq]
      · rw [setMem_self]
        exact ⟨.inl hCaller.runnable, hRoot⟩

end Xv6.Vm

-------
-- Computation
-------

namespace Xv6.Vm

open Prog

variable {P : Type} [Fintype P] {L : MemLayout} {A : Multiset Nat} {k : Kernel P}
variable {view : P → PtView} {d : Fin NFILE → Int} {PM M : Multiset Nat}
variable {E : Halt → Kernel P → Prop}

/- A process reaches its own user memory only. -/
theorem store_rule (hA : AllPages L A) (h : Kernel.Ok L A k view d PM M) {p : P}
    (hPt : (k.proc p).mem.pagetable ≠ 0) (va : Nat) (c : Page)
    {E : VmFault → Ram → Prop} {Q : Int → Ram → Prop}
    (hQ : ∀ r s', Kernel.Ok L A { k with vm := s' } view d PM M → Q r s') :
    wp (store (k.proc p).mem.pagetable va c) Q E k.vm := by
  obtain ⟨hHolds, hOwned⟩ := h.holds hPt
  have hSound := h.sound_proc hA p
  rw [hOwned] at hSound
  unfold store
  rw [wp_bind]
  refine walkaddr_rule hHolds.shows hSound.left.left
    (fun _ => ?_) (fun pa flags _ hLeaf hUser => ?_)
  · rw [if_pos rfl, wp_pure]
    exact hQ _ _ h
  have hMem : pa ∈ (view p).pages 0 (npages (k.proc p).mem.sz) :=
    PtView.mem_pages hLeaf (Nat.zero_le _) (by
      rw [Nat.zero_add]
      exact hHolds.space.lt_of_user hLeaf hUser)
  rw [if_neg (hSound.left.right.area_of_mem hMem).ne_zero, wp_bind, wp_edit, wp_pure]
  exact hQ _ _ (h.writeUser hA hPt (Pool.Trades.write _ hMem _))

/- What `kalloc` refuses does not matter between calls. -/
theorem Kernel.Ok.setDeny (h : Kernel.Ok L A k view d PM M) (deny : List Bool) :
    Kernel.Ok L A
      { k with vm := { k.vm with deny := deny } } view d PM
      M where
  cells := h.cells
  mem := fun p => ⟨(h.mem p).none, fun hNe =>
    ⟨((h.mem p).some hNe).1, ((h.mem p).some hNe).2.shows, ((h.mem p).some hNe).2.space⟩⟩
  files := h.files
  idle := h.idle

end Xv6.Vm
