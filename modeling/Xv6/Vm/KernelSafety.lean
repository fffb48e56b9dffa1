import Xv6.Vm.KernelCalls
import Xv6.Vm.Owners

/-
  Every page has one owner between calls, and every process
  has its own memory, in all runs of the system calls.

  Key theorems include:
    * `userinit_rule`
    * `actStep_good`
    * `kernel_good`
    * `pages_are_conserved`
    * `processes_are_isolated`
-/

open Multiset

-------
-- The First Process
-------

namespace Xv6

open Prog

variable {L : MemLayout} {s : Ram} {root : Nat} {v : PtView} {E : VmFault → Ram → Prop}

/- The first page is mapped, unless there is no memory. -/
theorem uvmfirst_rule (h : v.Shows root s.mem) (hSound : s.Sound L v.tables)
    (hNone : v.leaf 0 = none) (src : List UInt8) {Q : Option Bool → Ram → Prop}
    (hNull : ∀ s', Q none s') (hFalse : ∀ s', Q (some false) s')
    (hTrue : ∀ u s', PtView.Adds root v u 0 1
        (fun _ => PTE_W ||| PTE_R ||| PTE_X ||| PTE_U ||| PTE_V) s s' →
      Q (some true) s') : wp (uvmfirst root src) Q E s := by
  unfold uvmfirst
  rw [wp_bind]
  refine kalloc_rule (fun s₁ _ => ?_) (fun pa s₁ hTake => ?_)
  · rw [wp_pure]
    exact hNull s₁
  rw [wp_bind]
  refine memset_rule (mem_singleton_self pa) ?_
  intro s₂ hClear _
  have hTaken : s.Trades s₂ 0 {pa} := hTake.trans hClear
  obtain ⟨hShows₂, hSound₂, hArea⟩ := h.take hSound hTaken
  rw [wp_bind]
  refine mappages_rule hShows₂ hSound₂ (by decide) hNone hArea.pageAddr (by decide) ?_ ?_
  · intro u s₃ _ _
    rw [wp_bind, wp_edit, wp_pure]
    exact hFalse _
  intro u s₃ hBecomes hLeaf
  rw [wp_bind, wp_edit, wp_pure]
  have hEmpty : PtView.Adds root v v 0 0
      (fun _ => PTE_W ||| PTE_R ||| PTE_X ||| PTE_U ||| PTE_V) s s := .refl h
  have hAdds := hEmpty.snoc le_rfl hTaken hBecomes hLeaf
  have hHere : u.leaf 0 = some (pa, PTE_W ||| PTE_R ||| PTE_X ||| PTE_U ||| PTE_V) := by
    rw [hLeaf, Function.update_self]
  have hWrite : s₃.Trades (s₃.setPage pa ((s₃.mem pa).splice 0 src)) (u.pages 0 1) (u.pages 0 1) :=
    Pool.Trades.write _ (PtView.mem_pages hHere le_rfl (by decide)) _
  have hAll : s₃.Sound L (u.own 1) := hAdds.trades.sound hSound
  refine hTrue u _ ⟨(hAdds.shows.write hAll hWrite).1, hAdds.old, hAdds.new, ?_, hAdds.card⟩
  exact hAdds.trades.trans ((hWrite.frame u.tables).congr (add_comm _ _) (add_comm _ _))

end Xv6

namespace Xv6.Vm

open Prog

variable {P : Type} [Fintype P] [DecidableEq P] {L : MemLayout} {A : Multiset Nat} {k : Kernel P}
variable {E : Halt → Kernel P → Prop}

omit [DecidableEq P] in
/- No file is open before the first process. -/
theorem Fresh.counted (h : Fresh L k) :
    Counted k.files.sys 0 [] where
  files := by
    intro f
    change (k.files.ftable f).ref = _
    rw [(h.files f).1]
    have hNone : ∀ p fd, (k.files.sys.proc p).ofile fd =
        none := h.ofile
    simp [Sys.slots, hNone]
  inodes := by
    have hType : ∀ f, (k.files.ftable f).type = .none := fun f => (h.files f).2
    have hZero : ∀ i, k.files.sys.holders i = 0 := by
      intro i
      simp [Sys.holders, OpenFile.PointsTo, hType, Files.sys]
    refine ⟨fun i => (hZero i).ge, fun i => ?_⟩
    rw [hZero]
    rfl
  free := fun f _ => (h.files f).2
  ends := by
    intro pi w
    have hType : ∀ f, (k.files.sys.ftable f).type = .none := fun f => (h.files f).2
    have hPipe : k.files.sys.pipes pi = none := h.pipes pi
    simp [Sys.ends, OpenFile.IsEnd, hType, hPipe, endOpen]
  pages := by
    intro pi hSome
    have hPipe : k.files.sys.pipes pi = none := h.pipes pi
    rw [hPipe] at hSome
    cases hSome
  idle := by
    intro p hState
    rcases hState with hState | hState
    · cases hState
    · cases hState
  active := by
    intro p hState
    cases hState

omit [DecidableEq P] in
/- Nothing is in use before the first process. -/
theorem Fresh.ok (h : Fresh L k) :
    AllPages L ((k.vm.free ++ k.own : List Nat) : Multiset Nat) ∧
      Kernel.Ok L (k.vm.free ++ k.own : List Nat) k
        (fun _ => ⟨fun _ => none, fun _ => none⟩) 0 0 0 ∧
      k.Settled := by
  refine ⟨⟨coe_nodup.mpr h.pages, h.area⟩, ⟨?_, ?_, ⟨?_, ?_⟩, fun p _ => h.ofile p⟩, ?_⟩
  · have hOwned : ∀ p, (k.proc p).mem.owned ⟨fun _ => none, fun _ => none⟩ = 0 := by
      intro p
      obtain ⟨_, hPt, hTf, _⟩ := h.procs p
      unfold UserMem.owned ptr
      rw [if_pos hTf, if_pos hPt, add_zero]
    unfold Kernel.pages
    rw [Finset.sum_congr rfl (fun p _ => hOwned p),
      Finset.sum_const_zero, add_zero, add_zero, zero_add,
      coe_add]
  · intro p
    obtain ⟨_, hPt, _, hSz⟩ := h.procs p
    exact UserMem.Ok.empty hPt hSz _ _
  · exact h.counted
  · intro pi
    rw [h.pipes pi]
    simp
  · intro p
    obtain ⟨hState, hPt, hTf, _⟩ := h.procs p
    exact .inl ⟨hState, hPt, hTf⟩

/- The first process gets its registers and can run. -/
theorem userinit_end (hA : AllPages L A) {p : P} {ok : Bool}
    (hOk : ok = true → (∃ view PM, Kernel.Ok L A k view 0 PM 0) ∧ (k.proc p).mem.pagetable ≠ 0 ∧
        ∀ q, q ≠ p → (k.proc q).state = .unused ∧ (k.proc q).mem.pagetable = 0 ∧
          (k.proc q).mem.trapframe = 0) :
    wp (do
        onTask p [] (setReg 24 0)
        onTask p [] (setReg 48 PGSIZE)
        Prog.edit (fun k =>
          k.setProc p
            { k.proc p with
              mem :=
                { (k.proc p).mem with
                  name := [105, 110, 105, 116, 99, 111, 100, 101] }
              state := .runnable })
        return ok)
      (fun ok k' => ok = true → k'.Good L A)
      (fun _ _ => True) k := by
  rw [wp_bind]
  refine setReg_onTask (fun s₁ hReg₁ => ?_)
  rw [wp_bind]
  refine setReg_onTask (fun s₂ hReg₂ => ?_)
  rw [wp_bind, wp_edit, wp_pure]
  intro hTrue
  obtain ⟨⟨view, PM, hOk₀⟩, hPt, hOther⟩ := hOk hTrue
  have hOk₁ := hOk₀.writeFrame hA hPt hReg₁
  have hOk₂ := hOk₁.writeFrame hA hPt hReg₂
  refine ⟨view, PM, hOk₂.setProc hA rfl ?_ ?_, ?_⟩
  · have hMem := hOk₂.mem p
    exact ⟨hMem.none, fun hNe =>
      ⟨(hMem.some hNe).1, (hMem.some hNe).2.shows, (hMem.some hNe).2.space⟩⟩
  · rintro (hState | hState)
    · cases hState
    · cases hState
  · intro q
    by_cases hq : q = p
    · rw [hq, Kernel.setProc_self]
      exact .inr ⟨.inl rfl, hPt⟩
    · rw [Kernel.setProc_of_ne _ _ hq]
      exact .inl (hOther q hq)

/- When there is memory for its program, it can run. -/
theorem userinit_rule (h : Fresh L k) (procs : List P) :
    wp (userinit L procs) (fun ok k' => ok = true → ∃ A, AllPages L A ∧ k'.Good L A)
      (fun _ _ => True) k := by
  obtain ⟨hA, hOk, hSettled⟩ := h.ok
  set A : Multiset Nat := ((k.vm.free ++ k.own : List Nat) : Multiset Nat)
  refine wp_imp (Q := fun ok k' => ok = true → k'.Good L A)
    ?_ (fun ok k' hGood hTrue => ⟨A, hA, hGood hTrue⟩)
  unfold userinit
  rw [wp_bind]
  refine allocproc_rule hA hOk hSettled ?_ ?_
  · intro k' view' _ _
    rw [wp_stop]
    trivial
  intro p k₁ view₁ hOk₁ _ hNear hUsed hPt hSz
  obtain ⟨hHolds, hOwned⟩ := hOk₁.holds hPt
  have hSound := hOk₁.sound_proc hA p
  rw [hOwned] at hSound
  have hTf := ((hOk₁.mem p).some hPt).1
  have hZero : npages (k₁.proc p).mem.sz = 0 := by rw [hSz, npages_zero]
  rw [wp_bind, wp_edit, wp_bind, wp_read, wp_bind, onVm_rule]
  refine uvmfirst_rule hHolds.shows hSound.left.left
    (hHolds.space.gap 0 hZero.le (by decide)) _ ?_ ?_ ?_
  · intro s'
    rw [wp_stop]
    trivial
  · intro s'
    rw [wp_bind, wp_edit]
    exact userinit_end hA (fun hFalse => by cases hFalse)
  · intro u s' hAdds
    rw [wp_bind, wp_edit]
    have hOk₂ : Kernel.Ok L A
        { k₁ with initproc := some p } view₁ 0 0 0 :=
      ⟨hOk₁.cells, hOk₁.mem, hOk₁.files, hOk₁.idle⟩
    have hPage : npages PGSIZE = 1 := npages_mul 1
    set m : UserMem := { (k₁.proc p).mem with sz := PGSIZE }
    have hTrades : k₁.vm.Trades s' ((k₁.proc p).mem.owned (view₁ p)) (m.owned u) := by
      rw [hOwned, UserMem.owned_sz hTf hPt]
      refine (hAdds.trades.frame _).congr ?_ rfl
      rw [UserMem.pages, PtView.own, hZero, PtView.pages_zero, add_zero]
    have hMem : m.Ok L u s' := by
      refine ⟨fun hNull => absurd hNull hPt, fun _ => ⟨hTf, hAdds.shows, ?_⟩⟩
      have hEmpty := hHolds.space
      rw [hZero] at hEmpty
      rw [hPage]
      exact hEmpty.adds hAdds (Nat.zero_le _) (by decide)
    refine userinit_end hA (fun _ => ⟨⟨_, 0, hOk₂.setMem hA hTrades hMem⟩, ?_, ?_⟩)
    · rw [Kernel.setMem_self]
      exact hPt
    intro q hq
    rw [Kernel.setMem_of_ne _ _ hq]
    rw [hNear.proc q hq]
    obtain ⟨hState, hNull, hNone, _⟩ := h.procs q
    exact ⟨hState, hNull, hNone⟩

-------
-- Steps
-------

variable {view : P → PtView} {PM : Multiset Nat} {p : P} {procs : List P}

/- The caller gets another size. -/
theorem Caller.good_sz (hCaller : Caller k p) {sz : Nat} {s' : Ram} {v : PtView}
    (hOk : Kernel.Ok L A { k.setMem p { (k.proc p).mem with sz := sz } with
        vm := s' } (Function.update view p v) 0 PM 0) :
    Kernel.Good L A { k.setMem p { (k.proc p).mem with sz := sz } with
        vm := s' } := by
  refine ⟨_, PM, hOk, hCaller.settled.near (p := p) (fun q hq => ?_) (.inr ?_)⟩
  · rw [Kernel.setMem_of_ne _ _ hq]
  · rw [Kernel.setMem_self]
    exact ⟨.inl hCaller.runnable, hCaller.pagetable⟩

theorem sysSbrk_rule (hA : AllPages L A) (h : Kernel.Ok L A k view 0 PM 0) (hCaller : Caller k p)
    (n : BitVec 32) {E : Halt → Kernel P → Prop} :
    wp (sysSbrk L p n) (fun _ k' => k'.Good L A) E k := by
  unfold sysSbrk
  rw [wp_bind, wp_read, wp_bind]
  refine growproc_rule hA h hCaller.pagetable n (fun b sz s' v hOk _ => ?_)
  have hGood := hCaller.good_sz hOk
  cases b with
  | true =>
    rw [if_pos rfl, wp_pure]
    exact hGood
  | false =>
    rw [if_neg (by decide), wp_pure]
    exact hGood

/- What every call does. -/
theorem callCode_rule (hA : AllPages L A) (h : Kernel.Ok L A k view 0 PM 0) (hCaller : Caller k p)
    (c : Call) :
    wp (callCode L procs p c) (fun _ k' => k'.Good L A) Stops
      k := by
  cases c with
  | fork => exact fork_rule hA h hCaller
  | exec upath uargv lookup cuts => exact sysExec_rule hA h hCaller upath uargv lookup cuts
  | sbrk n => exact sysSbrk_rule hA h hCaller n
  | pipe fdarray => exact sysPipe_rule hA h hCaller fdarray
  | close fd => exact sysClose_rule hA h hCaller fd
  | exit status => exact exit_rule hA h hCaller status
  | wait addr => exact wait_rule hA h hCaller addr

theorem actCode_rule (hA : AllPages L A) (h : Kernel.Good L A k) {a : Act P}
    (hRuns : (k.proc a.proc).state = .runnable) :
    wp (actCode L procs a) (fun _ k' => k'.Good L A) Stops
      k := by
  obtain ⟨view, PM, hOk, hSettled⟩ := h
  have hCaller : Caller k a.proc := ⟨hRuns, hSettled⟩
  cases a with
  | call p c deny =>
    unfold actCode
    rw [wp_bind, wp_edit]
    exact callCode_rule hA (hOk.setDeny deny) ⟨hCaller.runnable, hCaller.settled⟩ c
  | store p va c =>
    unfold actCode
    rw [wp_bind, wp_read, onVm_rule]
    exact store_rule hA hOk hCaller.pagetable va c (fun r s' hOk' => ⟨view, PM, hOk', hSettled⟩)
  | trap p c =>
    unfold actCode
    rw [wp_bind, wp_edit, wp_pure]
    refine ⟨view, PM, hOk.writeFrame hA hCaller.pagetable ?_, hSettled⟩
    exact Pool.Trades.write _ (mem_singleton_self _) _

/- A step keeps the pages in order, and does not panic. -/
theorem actStep_good (hA : AllPages L A) (h : Kernel.Good L A k) (procs : List P) (a : Act P) :
    match actStep L procs k a with
    | .next k' => k'.Good L A
    | .fault e => e = .initExiting
    | .disabled => True := by
  unfold actStep
  by_cases hRuns : (k.proc a.proc).state = .runnable
  · rw [if_pos hRuns]
    have hRule : wp (actCode L procs a) (fun _ k' => k'.Good L A) Stops k := actCode_rule hA h hRuns
    unfold wp at hRule
    rcases hRun : actCode L procs a k with ⟨r, k'⟩
    rw [hRun] at hRule
    cases r with
    | ok _ => exact hRule
    | error e =>
      rcases hRule with rfl | rfl
      · trivial
      · rfl
  · rw [if_neg hRuns]
    trivial

/- The pages are in order in all runs. -/
theorem kernel_good (hReach : (kernel L procs).Reach System.Anything k) :
    ∃ A, AllPages L A ∧ k.Good L A := by
  refine hReach.invariant (I := fun k => ∃ A, AllPages L A ∧ k.Good L A) ?_ ?_
  · rintro k' ⟨k₀, hFresh, hRun⟩
    have hRule := userinit_rule hFresh procs
    unfold wp at hRule
    rw [hRun] at hRule
    exact hRule rfl
  · rintro k₁ a k₂ ⟨A, hA, hGood⟩ _ hStep
    have hNext := actStep_good hA hGood procs a
    change actStep L procs k₁ a = _ at hStep
    rw [hStep] at hNext
    exact ⟨A, hA, hNext⟩

-------
-- Conservation And Isolation
-------

/-
  Each page of the allocator is on the free list once and has
  no owner, or is not on it and has exactly one. A page that
  `kalloc` returns has no owner.
-/
structure Kernel.Conserved (L : MemLayout) (k : Kernel P) : Prop where
  area : ∀ q ∈ k.vm.free, L.Area q
  owner : ∀ q, L.Area q → (k.vm.free.count q = 1 ∧ ∀ o, ¬ k.Owns o q) ∨
      (q ∉ k.vm.free ∧ ∃! o, k.Owns o q)
  kalloc : ∀ deny q s',
    kalloc { k.vm with deny := deny } = (.ok (some q), s') →
      ∀ o, ¬ k.Owns o q

theorem pages_are_conserved
    {procs : List P}
    (hReach : (kernel L procs).Reach System.Anything k) :
    k.Conserved L := by
  obtain ⟨A, hA, hGood⟩ := kernel_good hReach
  have hArea : ∀ q ∈ k.vm.free, L.Area q := by
    obtain ⟨view, PM, hOk, _⟩ := hGood
    intro q hq
    exact (hOk.sound hA).area q (mem_add.mpr (.inl (mem_coe.mpr hq)))
  refine ⟨hArea, fun q hq => hGood.owner hA hq, fun deny q s' hRun => ?_⟩
  have hRule : wp Xv6.kalloc (fun r _ => ∀ pa, r = some pa → pa ∈ k.vm.free)
      (fun _ _ => True) { k.vm with deny := deny } := by
    refine kalloc_rule (fun s' _ pa hNone => by cases hNone) (fun pa s' hTrades pa' hSome => ?_)
    cases hSome
    have hIn : pa ∈ (s'.free : Multiset Nat) + {pa} :=
      mem_add.mpr (.inr (mem_singleton_self pa))
    rw [hTrades.cells, add_zero] at hIn
    exact mem_coe.mp hIn
  unfold wp at hRule
  rw [hRun] at hRule
  have hFree : q ∈ k.vm.free := hRule q rfl
  rcases hGood.owner hA (hArea q hFree) with hFree' | hOwned
  · exact hFree'.2
  · exact absurd hFree hOwned.1

end Xv6.Vm

-------
-- Isolation
-------

namespace Xv6.Vm

open Prog

variable {P : Type}

/-
  A process has the pages up to its size, and above only
  trapframe and trampoline, which the user cannot access. No
  page is mapped by two processes, or twice by one.
-/
structure Kernel.Isolated (L : MemLayout) (k : Kernel P) : Prop where
  mapped : ∀ p, (k.proc p).state ≠ .unused →
    ∀ n < TRAPFRAME / PGSIZE,
      (leafAt k.vm.mem (k.proc p).mem.pagetable n ≠ none ↔
        n * PGSIZE < PGROUNDUP (k.proc p).mem.sz)
  size : ∀ p, (k.proc p).state ≠ .unused →
    (k.proc p).mem.sz < TRAPFRAME
  trapframe : ∀ p, (k.proc p).state ≠ .unused →
    ∃ flags, pteHas flags PTE_U = false ∧
      leafAt k.vm.mem (k.proc p).mem.pagetable
          (TRAPFRAME / PGSIZE) =
        some ((k.proc p).mem.trapframe, flags)
  trampoline : ∀ p, (k.proc p).state ≠ .unused →
    ∃ flags, pteHas flags PTE_U = false ∧
      leafAt k.vm.mem (k.proc p).mem.pagetable
          (TRAMPOLINE / PGSIZE) =
        some (L.trampoline, flags)
  once : ∀ p p' n n' pa flags flags',
    (k.proc p).state ≠ .unused →
    (k.proc p').state ≠ .unused →
    n < TRAPFRAME / PGSIZE →
    n' < TRAPFRAME / PGSIZE →
    leafAt k.vm.mem (k.proc p).mem.pagetable n = some (pa, flags) →
    leafAt k.vm.mem (k.proc p').mem.pagetable n' = some (pa, flags') →
    p = p' ∧ n = n'

variable [Fintype P] [DecidableEq P] {L : MemLayout} {A : Multiset Nat} {k : Kernel P}

omit [Fintype P] [DecidableEq P] in
theorem Kernel.Settled.pagetable (h : k.Settled) {p : P} (hUsed : (k.proc p).state ≠ .unused) :
    (k.proc p).mem.pagetable ≠ 0 := by
  rcases h p with hFree | hLive
  · exact absurd hFree.1 hUsed
  · exact hLive.2

omit [DecidableEq P] in
theorem Kernel.Good.isolated (hA : AllPages L A) (h : k.Good L A) : k.Isolated L := by
  obtain ⟨view, PM, hOk, hSettled⟩ := id h
  have hSpace : ∀ p, (k.proc p).state ≠ .unused →
      (view p).Space L (npages (k.proc p).mem.sz) (k.proc p).mem.trapframe :=
    fun p hUsed => (hOk.holds (hSettled.pagetable hUsed)).1.2
  have hRead : ∀ p, (k.proc p).state ≠ .unused → ∀ n, n < 512 * 512 * 512 →
      leafAt k.vm.mem (k.proc p).mem.pagetable n = (view p).leaf n :=
    fun p hUsed n hn => (hOk.mem p).leafAt (hOk.sound_proc hA p) (hSettled.pagetable hUsed) hn
  have hSound : ∀ p, (k.proc p).state ≠ .unused → k.vm.Sound L ((view p).own
        (npages (k.proc p).mem.sz)) := by
    intro p hUsed
    have hOwned := hOk.sound_proc hA p
    rw [(hOk.holds (hSettled.pagetable hUsed)).2] at hOwned
    exact hOwned.left
  have hSz : ∀ p, (k.proc p).state ≠ .unused → (k.proc p).mem.sz ≤ NPAGES * PGSIZE := by
    intro p hUsed
    exact (le_npages_mul _).trans (Nat.mul_le_mul_right _
      ((hSpace p hUsed).le_npages (hSound p hUsed)))
  refine ⟨?_, ?_, ?_, ?_, ?_⟩
  · intro p hUsed n hn
    rw [hRead p hUsed n (hn.trans (by decide)), PGROUNDUP_eq ((hSz p hUsed).trans (by decide)),
      Nat.mul_lt_mul_right (by decide : 0 < PGSIZE)]
    refine ⟨fun hMapped => ?_, (hSpace p hUsed).user n⟩
    by_contra hLe
    exact hMapped ((hSpace p hUsed).gap n (Nat.le_of_not_lt hLe) hn)
  · intro p hUsed
    exact lt_of_le_of_lt (hSz p hUsed) (by decide)
  · intro p hUsed
    refine ⟨PTE_R ||| PTE_W ||| PTE_V, by decide, ?_⟩
    rw [hRead p hUsed _ (by decide)]
    exact (hSpace p hUsed).trapframe
  · intro p hUsed
    refine ⟨PTE_R ||| PTE_X ||| PTE_V, by decide, ?_⟩
    rw [hRead p hUsed _ (by decide)]
    exact (hSpace p hUsed).trampoline
  · intro p p' n n' pa flags flags' hUsed hUsed' hn hn' hLeaf hLeaf'
    have hOwns : k.Owns (.user p n) pa := ⟨hSettled.pagetable hUsed, hn, flags, hLeaf⟩
    have hOwns' : k.Owns (.user p' n') pa := ⟨hSettled.pagetable hUsed', hn', flags', hLeaf'⟩
    rw [hRead p hUsed n (hn.trans (by decide))] at hLeaf
    have hArea : L.Area pa := by
      refine (hSound p hUsed).right.area_of_mem (PtView.mem_pages hLeaf (Nat.zero_le _) ?_)
      rw [Nat.zero_add]
      exact (hSpace p hUsed).lt_of_leaf hn hLeaf
    rcases h.owner hA hArea with hFree | hOwned
    · exact absurd hOwns (hFree.2 _)
    · cases hOwned.2.unique hOwns hOwns'
      exact ⟨rfl, rfl⟩

/-
  Processes are isolated in all runs, and no step panics,
  unless the first process exits.
-/
theorem processes_are_isolated
    {procs : List P}
    (hReach : (kernel L procs).Reach System.Anything k) :
    k.Isolated L ∧
      ∀ a e, (kernel L procs).step k a = .fault e →
        e = .initExiting := by
  obtain ⟨A, hA, hGood⟩ := kernel_good hReach
  refine ⟨hGood.isolated hA, fun a e hFault => ?_⟩
  have hStep := actStep_good hA hGood procs a
  change actStep L procs k a = _ at hFault
  rw [hFault] at hStep
  exact hStep

/- The page table of a process in a run. -/
theorem exists_holds_of_reach
    {procs : List P}
    {p : P}
    (hReach : (kernel L procs).Reach System.Anything k)
    (hUsed : (k.proc p).state ≠ .unused) :
    ∃ v, (k.proc p).mem.Holds L v k.vm ∧
      k.vm.Sound L ((k.proc p).mem.pages v) ∧
      ∀ n < 512 * 512 * 512,
        leafAt k.vm.mem (k.proc p).mem.pagetable n =
          v.leaf n := by
  obtain ⟨A, hA, view, PM, hOk, hSettled⟩ := kernel_good hReach
  have hPt := hSettled.pagetable hUsed
  obtain ⟨hHolds, hOwned⟩ := hOk.holds hPt
  have hSound := hOk.sound_proc hA p
  have hRead := fun n hn =>
    (hOk.mem p).leafAt hSound hPt (n := n) hn
  rw [hOwned] at hSound
  exact ⟨view p, hHolds, hSound, hRead⟩

-------
-- A Small Kernel
-------

/- One page is taken by the kernel, and all others are free. -/
def smallKernel : Kernel (Fin 2) where
  vm := smallRam
  proc := fun _ => .freed
  nextpid := 1
  initproc := none
  files :=
    { ftable := fun _ =>
        { type := .none
          ref := 0
          readable := false
          writable := false
          pipe := 0
          ip := 0
          off := 0
          major := 0 }
      ofile := fun _ _ => none
      pipes := fun _ => none }
  own := [smallPage 0]

theorem fresh_smallKernel : Fresh smallLayout smallKernel := by
  refine ⟨by decide +kernel, fun q => ?_, fun _ =>
    ⟨rfl, rfl, rfl, rfl⟩, fun _ => ⟨rfl, rfl⟩,
    fun _ _ => rfl, fun _ => rfl⟩
  change q ∈ (List.range 31).map (fun i => smallPage (i + 1)) ++
    [smallPage 0] ↔ _
  simp only [List.mem_append, List.mem_map, List.mem_range,
    List.mem_singleton, smallPage, MemLayout.Area, smallLayout,
    PHYSTOP, KERNBASE, PGSIZE]
  constructor
  · rintro (⟨i, hi, rfl⟩ | rfl)
    · omega
    · omega
  · intro hArea
    by_cases hLast : q = 134217728 * 17 - 4096
    · exact .inr (by omega)
    · exact .inl ⟨(134217728 * 17 - q) / 4096 - 2, by omega, by omega⟩

/- The kernel when its first process is to run. -/
def bootedKernel : Kernel (Fin 2) :=
  (userinit smallLayout [0, 1] smallKernel).2

theorem reach_bootedKernel :
    (kernel smallLayout [(0 : Fin 2), 1]).Reach
      System.Anything bootedKernel := by
  have hEval : (userinit smallLayout [(0 : Fin 2), 1]
      smallKernel).1.toOption = some true := by
    decide +kernel
  exact .init ⟨smallKernel, fresh_smallKernel, Prog.eq_ok hEval⟩

/- The first process has forked. -/
theorem exists_forkedKernel :
    ∃ k, (kernel smallLayout [(0 : Fin 2), 1]).Reach
        System.Anything k ∧
      (k.proc 0).state = .runnable ∧
      (k.proc 1).state = .runnable ∧
      (k.proc 1).mem.sz = PGSIZE := by
  have hEval : ((kernel smallLayout [(0 : Fin 2), 1]).run
      System.Anything bootedKernel [.call 0 .fork []]).map
        (fun k => ((k.proc 0).state, (k.proc 1).state,
          (k.proc 1).mem.sz)) =
      some (.runnable, .runnable, PGSIZE) := by
    decide +kernel
  obtain ⟨k, hRun, hProcs⟩ := Option.map_eq_some_iff.mp hEval
  simp only [Prod.mk.injEq] at hProcs
  exact ⟨k, System.reach_of_run reach_bootedKernel hRun,
    hProcs⟩

/- Two processes have memory. -/
theorem smallKernel_pages_conserved :
    ∃ k, (kernel smallLayout [(0 : Fin 2), 1]).Reach
        System.Anything k ∧
      (k.proc 1).mem.sz = PGSIZE ∧
      k.Conserved smallLayout := by
  obtain ⟨k, hReach, _, _, hSz⟩ := exists_forkedKernel
  exact ⟨k, hReach, hSz, pages_are_conserved hReach⟩

theorem smallKernel_processes_isolated :
    ∃ k, (kernel smallLayout [(0 : Fin 2), 1]).Reach
        System.Anything k ∧
      (k.proc 0).state = .runnable ∧
      (k.proc 1).state = .runnable ∧
      k.Isolated smallLayout := by
  obtain ⟨k, hReach, hParent, hChild, _⟩ := exists_forkedKernel
  exact ⟨k, hReach, hParent, hChild,
    (processes_are_isolated hReach).1⟩

-------
-- A Program
-------

/- An ELF file with one segment, which is not to be written. -/
def textImage : Image where
  inum := 1
  content :=
    encodeLE 4 ELF_MAGIC ++ List.replicate 28 0 ++ encodeLE 8 64 ++
      List.replicate 16 0 ++ encodeLE 2 1 ++ List.replicate 6 0 ++
    encodeLE 4 ELF_PROG_LOAD ++ encodeLE 4 5 ++ List.replicate 24 0 ++
      encodeLE 8 4 ++ encodeLE 8 4 ++ List.replicate 8 0

/- The first process, when it calls `exec`. -/
def firstTask : Task :=
  ⟨bootedKernel.vm, (bootedKernel.proc 0).mem, 0, [], [], []⟩

theorem exists_holds_firstTask :
    ∃ v, firstTask.mem.Holds smallLayout v firstTask.vm ∧
      firstTask.vm.Sound smallLayout (firstTask.mem.pages v) := by
  obtain ⟨v, hHolds, hSound, _⟩ := exists_holds_of_reach
    reach_bootedKernel (p := 0) (by decide +kernel)
  exact ⟨v, hHolds, hSound⟩

theorem exec_eq
    {L : MemLayout}
    {found : Option Image}
    {path : Path}
    {argv : List (List UInt8)}
    {t t₁ : Task}
    {image : UserImage}
    (h : execImage L found argv t = (.ok (some image), t₁)) :
    exec L found path argv t =
      execCommit L image t.mem.sz path t₁ :=
  bind_ok _ h

/- The flags of the first pages of a process. -/
def pageFlags (s : Ram) (root n : Nat) : List (Option Nat) :=
  (List.range n).map (fun i => (leafAt s.mem root i).map Prod.snd)

/- The flags of text, guard page and stack. -/
def textFlags : List (Option Nat) :=
  [some (PTE_R ||| PTE_U ||| PTE_X ||| PTE_V),
    some (PTE_R ||| PTE_W ||| PTE_V),
    some (PTE_R ||| PTE_U ||| PTE_W ||| PTE_V)]

/-
  The program is run, and has its text and a stack. The new
  image is computed, and that the old one can be freed is the
  rule.
-/
theorem exec_textImage (path : Path) :
    ∃ t', exec smallLayout (some textImage) path []
        firstTask = (.ok (some 0), t') ∧
      pageFlags t'.vm t'.mem.pagetable 3 = textFlags := by
  obtain ⟨v, hHolds, hSound⟩ := exists_holds_firstTask
  have hSound₀ := hSound.mono (zero_le _)
  have hTf := hSound.area_of_mem
    (mem_add.mpr (.inr (mem_singleton_self _)))
  have hEval : (execImage smallLayout (some textImage) []
      firstTask).1.toOption.bind id =
      some ⟨smallPage 8, 12288, 12272, 0, 0⟩ := by
    decide +kernel
  have hText : pageFlags (execImage smallLayout (some textImage) []
      firstTask).2.vm (smallPage 8) 3 = textFlags := by
    decide +kernel
  have hBuilds : wp (execImage smallLayout (some textImage) [])
      (fun r t' => ∀ image, r = some image →
        firstTask.Same t' ∧
        ∃ w, Built smallLayout firstTask.mem.trapframe
          image.pagetable (npages image.sz) w
          firstTask.vm t'.vm)
      (fun _ _ => False) firstTask := by
    refine execImage_rule (by decide) rfl hTf.pageAddr hSound₀
      (fun _ _ _ => nofun) ?_
    intro image w t' hSame hBuilt _ image' hSome
    cases hSome
    exact ⟨hSame, w, hBuilt⟩
  obtain ⟨r, t₁, hRun, hImage⟩ := exists_ok_of_wp hBuilds
  rw [hRun] at hEval hText
  obtain ⟨hSame, w, hBuilt⟩ := hImage _ hEval
  obtain ⟨r', t', hCommit, rfl, hNew⟩ := exists_ok_of_wp
    (execCommit_rule path
      hHolds hSound hSame hBuilt
      (Q := fun r t' => r = some 0 ∧
        Replaced smallLayout v w firstTask t')
      (fun t' hNew => ⟨rfl, hNew⟩))
  cases hEval
  refine ⟨t', (exec_eq hRun).trans hCommit, ?_⟩
  rw [← hText]
  refine List.map_congr_left (fun n hn => ?_)
  have hLt : n < 512 * 512 * 512 :=
    (List.mem_range.mp hn).trans (by decide)
  rw [hBuilt.shows.leafAt (fun pt hMem =>
      ((hBuilt.sound hSound₀).left.area_of_mem hMem).pageAddr)
      hLt,
    hNew.holds.shows.leafAt (fun pt hMem =>
      ((hNew.trades.sound hSound).left.left.area_of_mem
        hMem).pageAddr) hLt]

theorem exec_of_text_is_all_or_nothing :
    ∃ (v : PtView) (t' : Task),
      firstTask.mem.Holds smallLayout v firstTask.vm ∧
      exec smallLayout (some textImage) [] [] firstTask =
        (.ok (some 0), t') ∧
      t'.refs = firstTask.refs ∧
      ∀ q ∈ v.own (npages firstTask.mem.sz),
        t'.vm.free.count q = 1 := by
  obtain ⟨v, hHolds, hSound⟩ := exists_holds_firstTask
  obtain ⟨t₁, hText, _⟩ := exec_textImage []
  obtain ⟨r, t', hRun, _, hRefs, _, hNew⟩ :=
    exec_is_all_or_nothing smallLayout firstTask v hHolds hSound
      rfl (some textImage) [] [] (by decide)
  rw [hText] at hRun
  cases hRun
  exact ⟨v, t₁, hHolds, hText, hRefs, hNew.2.2.2.1⟩

theorem exec_of_text_never_panics :
    firstTask.mem.sz = PGSIZE ∧
      ∀ e, (exec smallLayout (some ⟨1, textImage.content⟩)
        [] [] firstTask).1 ≠ .error e := by
  obtain ⟨v, hHolds, hSound⟩ := exists_holds_firstTask
  exact ⟨by decide +kernel,
    exec_never_panics smallLayout firstTask v hHolds hSound
      rfl 1 textImage.content [] [] (by decide)⟩

end Xv6.Vm
