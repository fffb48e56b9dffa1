import Xv6.Vm.KernelPages

/-
  What processes, memory, files and descriptors do to the
  pages of all parties.

  Key theorems include:
    * `freeproc_rule`, `allocproc_rule`
    * `growproc_rule`
    * `fileclose_rule`, `pipealloc_rule`
    * `sysPipe_rule`, `sysClose_rule`
-/

open Function Xv6.Vm.Kernel Multiset

-------
-- Parts Of The State
-------

namespace Xv6.Vm

open Prog

variable {P α : Type} {k : Kernel P} {E : Halt → Kernel P → Prop}

variable {Q : α → Kernel P → Prop}

theorem onVm_rule {m : VmM α} :
    wp (onVm m) Q E k ↔ wp m (fun a s => Q a { k with vm := s })
        (fun e s => E (.vm e) { k with vm := s }) k.vm :=
  wp_zoom

theorem onTask_rule [DecidableEq P] {p : P} {cuts : List (Option Nat)} {m : TaskM α} :
    wp (onTask p cuts m) Q E k ↔ wp m (fun a t => Q a { k.setMem p t.mem with vm := t.vm })
        (fun e t => E e { k.setMem p t.mem with vm := t.vm })
        ⟨k.vm, (k.proc p).mem, 0, [], [], cuts⟩ :=
  wp_zoom

section Updates

variable [DecidableEq P]

@[simp] theorem Kernel.setProc_self (k : Kernel P) (p : P) (x : KProc P) :
    (k.setProc p x).proc p = x := by
  unfold setProc
  dsimp only
  rw [update_self]

@[simp] theorem Kernel.setProc_of_ne (k : Kernel P) {p q : P} (x : KProc P) (h : q ≠ p) :
    (k.setProc p x).proc q = k.proc q := by
  unfold setProc
  dsimp only
  rw [update_of_ne h]

@[simp] theorem Kernel.setMem_self (k : Kernel P) (p : P) (m : UserMem) :
    (k.setMem p m).proc p = { k.proc p with mem := m } :=
  k.setProc_self p _

@[simp] theorem Kernel.setMem_of_ne (k : Kernel P) {p q : P} (m : UserMem) (h : q ≠ p) :
    (k.setMem p m).proc q = k.proc q :=
  k.setProc_of_ne _ h

/- The last change of a process counts. -/
theorem Kernel.setProc_setProc (k : Kernel P) (p : P) (x y : KProc P) :
    (k.setProc p x).setProc p y = k.setProc p y := by
  unfold setProc
  rw [update_idem]

theorem Kernel.setMem_setMem (k : Kernel P) (p : P) (m m' : UserMem) :
    (k.setMem p m).setMem p m' = k.setMem p m' := by
  unfold setMem
  rw [setProc_setProc, setProc_self]

end Updates

/- How calls may stop: a process sleeps, or the first exits. -/
def Stops (e : Halt) (_ : Kernel P) : Prop := e = .blocks ∨ e = .initExiting

end Xv6.Vm

-------
-- Processes
-------

namespace Xv6.Vm

open Prog

variable {P : Type} [Fintype P] [DecidableEq P] {L : MemLayout} {A : Multiset Nat} {k : Kernel P}
variable {view : P → PtView} {d : Fin NFILE → Int} {PM M M' : Multiset Nat}
variable {E : Halt → Kernel P → Prop}

namespace Kernel.Ok

variable {p : P} {v : PtView} {s' : Ram}

/- The memory of a process changes. -/
theorem setMem (hA : AllPages L A) (h : Kernel.Ok L A k view d PM M) {m : UserMem}
    (hTrades : k.vm.Trades s' ((k.proc p).mem.owned (view p)) (m.owned v)) (hMem : m.Ok L v s') :
    Kernel.Ok L A { k.setMem p m with vm := s' } (update view p v) d PM M := by
  have hFrame := (hTrades.frame M).congr (add_comm M _) (add_comm _ M)
  exact h.change hA hFrame hMem (h.idle p)

/- The view of a page table changes. -/
theorem setView (hA : AllPages L A) (h : Kernel.Ok L A k view d PM M)
    (hTrades : k.vm.Trades s' ((k.proc p).mem.owned (view p)) ((k.proc p).mem.owned v))
    (hMem : (k.proc p).mem.Ok L v s') :
    Kernel.Ok L A { k with vm := s' } (update view p v) d PM M := by
  have hSet := h.setMem hA hTrades hMem
  unfold Kernel.setMem Kernel.setProc at hSet
  rw [update_eq_self] at hSet
  exact hSet

omit [DecidableEq P] in
/- The view stays when only contents change. -/
theorem sameView (hA : AllPages L A) (h : Kernel.Ok L A k view d PM M)
    (hTrades : k.vm.Trades s' ((k.proc p).mem.owned (view p)) ((k.proc p).mem.owned (view p)))
    (hMem : (k.proc p).mem.Ok L (view p) s') : Kernel.Ok L A { k with vm := s' } view d PM M := by
  classical
  have hSet := h.setView hA hTrades hMem
  rw [update_eq_self] at hSet
  exact hSet

omit [DecidableEq P] in
/- The pages of a process that is set up. -/
theorem holds (h : Kernel.Ok L A k view d PM M) (hPt : (k.proc p).mem.pagetable ≠ 0) :
    (k.proc p).mem.Holds L (view p) k.vm ∧ (k.proc p).mem.owned (view p) =
        (k.proc p).mem.pages (view p) := by
  obtain ⟨hTf, hHolds⟩ := (h.mem p).some hPt
  exact ⟨hHolds, UserMem.owned_eq hTf hPt⟩

end Kernel.Ok

variable {Q : Option P → Kernel P → Prop}

/- All pages of a process are given back. -/
theorem freeproc_rule (hA : AllPages L A) (h : Kernel.Ok L A k view d PM M) {p : P}
    (hFiles : ∀ fd, k.files.ofile p fd = none) {Q : Unit → Kernel P → Prop}
    (hQ : ∀ s', Kernel.Ok L A
        { k.setProc p .freed with vm := s' } view d PM M →
      Q () { k.setProc p .freed with vm := s' }) : wp (freeproc L p) Q E k := by
  have hDone : ∀ s' : Ram, k.vm.Trades s' ((k.proc p).mem.owned (view p)) 0 →
      Q () { k.setProc p .freed with vm := s' } := by
    intro s' hTrades
    have hFrame := (hTrades.frame M).congr (add_comm M _) (add_comm 0 M)
    have hChange := h.change (x := .freed) (v := view p) hA
      hFrame (.empty rfl rfl _ _) (fun _ => hFiles)
    rw [update_eq_self] at hChange
    exact hQ s' hChange
  have hSound := h.sound_proc hA p
  set m := (k.proc p).mem with hm
  unfold freeproc
  rw [wp_bind, wp_read]
  by_cases hTf : m.trapframe = 0
  · have hPt : m.pagetable = 0 := by
      by_contra hNe
      exact ((h.mem p).some hNe).1 hTf
    rw [if_neg (not_not.mpr hTf), if_neg (not_not.mpr hPt), wp_edit]
    refine hDone k.vm ?_
    have hOwned : m.owned (view p) = 0 := by
      unfold UserMem.owned ptr
      rw [if_pos hTf, if_pos hPt, add_zero]
    rw [hOwned]
    exact .refl _ _
  rw [if_pos hTf, wp_bind, onVm_rule]
  have hTfArea : L.Area m.trapframe := by
    refine hSound.area_of_mem (mem_add.mpr (.inl ?_))
    rw [ptr_of_ne hTf]
    exact mem_singleton_self _
  refine kfree_rule hTfArea (fun s₁ hFree => ?_)
  by_cases hPt : m.pagetable = 0
  · rw [if_neg (not_not.mpr hPt), wp_edit]
    refine hDone s₁ ?_
    unfold UserMem.owned
    rw [ptr_of_ne hTf, if_pos hPt]
    exact hFree
  obtain ⟨_, hHolds⟩ := (h.mem p).some hPt
  have hOwned : m.owned (view p) = {m.trapframe} + (view p).own (npages m.sz) := by
    unfold UserMem.owned
    rw [ptr_of_ne hTf, if_neg hPt]
  rw [hOwned] at hSound
  have hSound₁ := hFree.sound_frame hSound
  rw [zero_add] at hSound₁
  have hShows : (view p).Shows m.pagetable s₁.mem :=
    hHolds.shows.congr (fun q hq => hFree.kept hSound (mem_add.mpr (.inl hq)))
  rw [if_pos hPt, wp_bind, onVm_rule]
  refine procFreepagetable_rule hShows hHolds.space hSound₁ (fun s₂ hFree₂ => ?_)
  rw [wp_edit]
  refine hDone s₂ ?_
  rw [hOwned]
  have hFirst := hFree.frame ((view p).own (npages m.sz))
  rw [zero_add] at hFirst
  exact hFirst.trans hFree₂

/- Only process `p` and memory have changed. -/
structure Kernel.Near (p : P) (k k' : Kernel P) : Prop where
  proc : ∀ q, q ≠ p → k'.proc q = k.proc q
  files : k'.files = k.files
  initproc : k'.initproc = k.initproc

omit [Fintype P] [DecidableEq P] in
/- A process is settled in the end. -/
theorem Kernel.Settled.near {p : P} {k' : Kernel P} (h : k.Settled)
    (hOther : ∀ q, q ≠ p → k'.proc q = k.proc q)
    (hSelf : ((k'.proc p).state = .unused ∧ (k'.proc p).mem.pagetable = 0 ∧
        (k'.proc p).mem.trapframe = 0) ∨
      (((k'.proc p).state = .runnable ∨ (k'.proc p).state = .zombie) ∧
        (k'.proc p).mem.pagetable ≠ 0)) : k'.Settled := by
  intro q
  by_cases hq : q = p
  · rw [hq]
    exact hSelf
  · rw [hOther q hq]
    exact h q

omit [Fintype P] in
theorem Kernel.near_setProc (k : Kernel P) (p : P) (x : KProc P) (s : Ram) :
    k.Near p { k.setProc p x with vm := s } :=
  ⟨fun _ hq => k.setProc_of_ne x hq, rfl, rfl⟩

/- A process gets a trapframe and a page table. -/
theorem allocPagetable_rule (hA : AllPages L A) {p : P} {tf : Nat}
    (h : Kernel.Ok L A k view d PM (M + {tf}))
    (hUsed : (k.proc p).state = .used) (hPt : (k.proc p).mem.pagetable = 0)
    (hTf : (k.proc p).mem.trapframe = 0)
    (hFiles : ∀ fd, k.files.ofile p fd = none)
    (hNone : ∀ k' view', Kernel.Ok L A k' view' d PM M →
      k.Near p k' → k'.proc p = .freed → Q none k')
    (hSome : ∀ k' view', Kernel.Ok L A k' view' d PM M → k.Near p k' → (k'.proc p).state = .used →
      (k'.proc p).mem.pagetable ≠ 0 →
      (k'.proc p).mem.sz = 0 → Q (some p) k') : wp (allocPagetable L p tf) Q E k := by
  have hSound := h.sound hA
  have hArea : L.Area tf :=
    hSound.area_of_mem (mem_add.mpr (.inl (mem_add.mpr
        (.inr (mem_singleton_self tf)))))
  have hSz := (h.mem p).none hPt
  have hOld : (k.proc p).mem.owned (view p) = 0 := by
    unfold UserMem.owned ptr
    rw [if_pos hPt, if_pos hTf, add_zero]
  have hBusy : ∀ m, ({ k.proc p with mem := m } :
      KProc P).state = .unused ∨ ({ k.proc p with mem := m } :
      KProc P).state = .zombie → ∀ fd, k.files.ofile p fd = none :=
    fun _ _ => hFiles
  unfold allocPagetable
  rw [wp_bind, wp_edit, wp_bind, onVm_rule]
  refine procPagetable_rule hArea.pageAddr (hSound.mono (zero_le _)) ?_ ?_
  · intro s' hTrades
    rw [wp_bind]
    have hOwned : ({ (k.proc p).mem with trapframe := tf } : UserMem).owned (view p) = {tf} := by
      unfold UserMem.owned
      rw [ptr_of_ne hArea.ne_zero, if_pos hPt, add_zero]
    have hOk : Kernel.Ok L A
        { k.setMem p { (k.proc p).mem with trapframe := tf }
          with vm := s' }
        (update view p (view p)) d PM M := by
      refine h.change hA ?_ ⟨fun _ => hSz, fun hNe => absurd hPt hNe⟩ (hBusy _)
      rw [hOld, hOwned, add_zero]
      exact (hTrades.frame (M + {tf})).congr (zero_add _).symm (zero_add _)
    refine freeproc_rule hA hOk hFiles (fun s'' hOk' => ?_)
    rw [wp_pure]
    refine hNone _ _ hOk' ⟨fun q hq => ?_, rfl, rfl⟩ ?_
    · rw [setProc_of_ne _ _ hq]
      exact k.setMem_of_ne _ hq
    · exact setProc_self _ p _
  intro root v s' hShows hSpace hTrades
  have hRoot : root ≠ 0 :=
    ((hTrades.sound (hSound.mono (zero_le _))).area_of_mem hShows.root_mem).ne_zero
  have hOwn : v.own (npages (k.proc p).mem.sz) =
      v.tables := by
    rw [hSz, PtView.own, npages_zero, PtView.pages_zero, add_zero]
  set m : UserMem :=
    { (k.proc p).mem with
      trapframe := tf
      pagetable := root } with hm
  have hOwned : m.owned v = {tf} + v.tables := by
    unfold UserMem.owned
    rw [ptr_of_ne hArea.ne_zero, if_neg hRoot, ← hOwn]
  have hMem : m.Ok L v s' := by
    refine ⟨fun hNull => absurd hNull hRoot, fun _ => ⟨hArea.ne_zero, hShows, ?_⟩⟩
    rw [hSz]
    exact hSpace
  have hOk : Kernel.Ok L A { k.setMem p m with vm := s' } (update view p v) d PM M := by
    refine h.change hA ?_ hMem (hBusy m)
    rw [hOld, hOwned, add_zero]
    refine (hTrades.frame (M + {tf})).congr (zero_add _).symm ?_
    abel
  have hFinal := hSome _ _ hOk (k.near_setProc p _ s') (by simpa using hUsed) (by simpa using hRoot)
    (by simpa using hSz)
  simpa [setMem, setProc] using hFinal

omit [DecidableEq P] in
/- The counter of process numbers does not matter. -/
theorem Kernel.Ok.setNextpid (h : Kernel.Ok L A k view d PM M) (n : Int) :
    Kernel.Ok L A { k with nextpid := n } view d PM M :=
  ⟨h.cells, h.mem, h.files, h.idle⟩

/-
  A process is set up, or everything is as before, except that
  a number was used up.
-/
theorem allocproc_rule (hA : AllPages L A) (h : Kernel.Ok L A k view d PM M) (hSettled : k.Settled)
    {procs : List P}
    (hNone : ∀ k' view', Kernel.Ok L A k' view' d PM M → k'.Settled → Q none k')
    (hSome : ∀ np k' view', Kernel.Ok L A k' view' d PM M →
      (k.proc np).state = .unused → k.Near np k' →
      (k'.proc np).state = .used →
      (k'.proc np).mem.pagetable ≠ 0 →
      (k'.proc np).mem.sz = 0 → Q (some np) k') : wp (allocproc L procs) Q E k := by
  unfold allocproc
  rw [wp_bind, wp_read]
  cases hFind : procs.find? (fun q => (k.proc q).state == .unused) with
  | none =>
    rw [wp_pure]
    exact hNone k view h hSettled
  | some p =>
    have hState : (k.proc p).state = .unused := by simpa using List.find?_some hFind
    obtain ⟨hPt, hTf⟩ : (k.proc p).mem.pagetable = 0 ∧ (k.proc p).mem.trapframe = 0 := by
      rcases hSettled p with hp | ⟨hp | hp, _⟩
      · exact hp.2
      · rw [hState] at hp
        cases hp
      · rw [hState] at hp
        cases hp
    have hFiles := h.idle p (.inl hState)
    have hOk := (h.setProc hA (x := { k.proc p with
        pid := k.nextpid
        state := .used }) rfl (h.mem p)
      (fun _ => hFiles)).setNextpid (k.nextpid + 1)
    rw [wp_bind, wp_edit]
    set k₁ : Kernel P :=
      { k.setProc p
          { k.proc p with
            pid := k.nextpid
            state := .used }
        with nextpid := k.nextpid + 1 } with hk₁
    have hProc : k₁.proc p =
        { k.proc p with
          pid := k.nextpid
          state := .used } :=
      k.setProc_self p _
    have hOther : ∀ q, q ≠ p → k₁.proc q = k.proc q := fun q hq => k.setProc_of_ne _ hq
    rw [wp_bind, onVm_rule]
    refine kalloc_rule ?_ ?_
    · intro s' hTrades
      have hFrame := (hTrades.frame M).congr (zero_add M).symm (zero_add M)
      have hOk' := hOk.trade hA hFrame
      rw [wp_bind]
      refine freeproc_rule hA hOk' hFiles (fun s'' hOk'' => ?_)
      rw [wp_pure]
      refine hNone _ _ hOk'' (hSettled.near (p := p) (fun q hq => ?_) (.inl ?_))
      · rw [setProc_of_ne _ _ hq]
        exact hOther q hq
      · rw [setProc_self]
        exact ⟨rfl, rfl, rfl⟩
    intro tf s' hTrades
    have hFrame := (hTrades.frame M).congr (zero_add M).symm (add_comm _ M)
    have hOk' := hOk.trade hA hFrame
    refine allocPagetable_rule hA hOk' (by change (k₁.proc p).state = _; rw [hProc]) (by
        rw [hProc]
        exact hPt)
      (by
        rw [hProc]
        exact hTf)
      hFiles ?_ ?_
    · intro k' view' hOk'' hNear hFreed
      refine hNone k' view' hOk'' (hSettled.near (p := p) (fun q hq => ?_) (.inl ?_))
      · rw [hNear.proc q hq]
        exact hOther q hq
      · rw [hFreed]
        exact ⟨rfl, rfl, rfl⟩
    · intro k' view' hOk'' hNear hUsed hPt' hSz
      refine hSome p k' view' hOk'' hState ⟨fun q hq => ?_, hNear.files, hNear.initproc⟩
        hUsed hPt' hSz
      rw [hNear.proc q hq]
      exact hOther q hq

-------
-- Memory
-------

/- The pages of a process with another size. -/
theorem UserMem.owned_sz {m : UserMem} (hTf : m.trapframe ≠ 0) (hPt : m.pagetable ≠ 0) (sz : Nat)
    (v : PtView) : ({ m with sz := sz } : UserMem).owned v = v.own (npages sz) + {m.trapframe} :=
  UserMem.owned_eq hTf hPt

omit [Fintype P] in
/-
  The new size would be negative: the difference wraps around,
  so that it is not below the old size, and nothing happens.
-/
theorem growproc_below
    {p : P}
    {n : BitVec 32}
    (hSz : (k.proc p).mem.sz < TRAPFRAME)
    (hBelow : ((k.proc p).mem.sz : Int) + n.toInt < 0)
    {Q : Bool → Kernel P → Prop}
    (hQ : Q true k) :
    wp (growproc L p n) Q E k := by
  have hWrap : (k.proc p).mem.sz ≤
      sub64 (k.proc p).mem.sz (-n.toInt).toNat := by
    have hTop : TRAPFRAME < 2 ^ 38 := by decide
    unfold sub64
    omega
  have hSame :
      k.setMem p { (k.proc p).mem with
        sz := (k.proc p).mem.sz } = k := by
    unfold setMem setProc
    rw [update_eq_self]
  unfold growproc
  rw [wp_bind, wp_read]
  rw [if_neg (by omega), if_pos (by omega), wp_bind, onVm_rule]
  unfold uvmdealloc
  rw [if_pos hWrap, wp_pure, wp_bind, wp_edit, wp_pure, hSame]
  exact hQ

/- What `growproc` reports: the size that was asked for, or the old memory. -/
structure Resized (free oldsz : Nat) (n : Int) (v w : PtView) (b : Bool) (sz : Nat) : Prop where
  done : b = true → 0 ≤ oldsz + n →
    (sz : Int) = oldsz + n ∧ npages sz ≤ npages oldsz + free
  failed : b = false → 0 < n ∧ sz = oldsz ∧ w.leaf = v.leaf

theorem growproc_rule (hA : AllPages L A) (h : Kernel.Ok L A k view d PM M) {p : P}
    (hPt : (k.proc p).mem.pagetable ≠ 0) (n : BitVec 32) {Q : Bool → Kernel P → Prop}
    (hQ : ∀ b sz s' v, Kernel.Ok L A
      { k.setMem p { (k.proc p).mem with sz := sz } with
        vm := s' } (update view p v) d PM M →
      Resized k.vm.free.length (k.proc p).mem.sz n.toInt (view p) v b sz →
      Q b { k.setMem p { (k.proc p).mem with sz := sz } with
        vm := s' }) : wp (growproc L p n) Q E k := by
  obtain ⟨hHolds, hOwned⟩ := h.holds hPt
  obtain ⟨hTf, _⟩ := (h.mem p).some hPt
  have hSound := h.sound_proc hA p
  rw [hOwned] at hSound
  set m := (k.proc p).mem with hm
  -- only tables change
  have hAlike : ∀ s' v, v.leaf = (view p).leaf → v.Shows m.pagetable s'.mem →
      k.vm.Trades s' (view p).tables v.tables →
      k.vm.Trades s' (m.owned (view p)) (m.owned v) ∧ m.Ok L v s' := by
    intro s' v hLeaf hShows hTrades
    have hPages : v.pages 0 (npages m.sz) = (view p).pages 0 (npages m.sz) :=
      PtView.pages_congr (fun i _ _ => by rw [hLeaf])
    refine ⟨?_, fun hNull => absurd hNull hPt, fun _ => ⟨hTf, hShows, hHolds.space.congr hLeaf⟩⟩
    rw [hOwned, UserMem.owned_eq hTf hPt]
    unfold UserMem.pages PtView.own
    rw [hPages]
    exact (hTrades.frame _).frame _
  -- the size does not change
  have hKept : ∀ b s' v, k.vm.Trades s' (m.owned (view p)) (m.owned v) → m.Ok L v s' →
      Resized k.vm.free.length m.sz n.toInt (view p) v b m.sz → Q b { k with vm := s' } := by
    intro b s' v hTrades hMem hResized
    have hEq : ({ k.setMem p { m with sz := m.sz } with
        vm := s' } : Kernel P) = { k with vm := s' } := by
      unfold setMem setProc
      rw [update_eq_self]
    have hQk := hQ b m.sz s' v (h.setMem hA hTrades hMem) hResized
    rw [hEq] at hQk
    exact hQk
  have hn := hHolds.space.le_npages hSound.left
  have hSzMax : m.sz ≤ NPAGES * PGSIZE := (le_npages_mul m.sz).trans (Nat.mul_le_mul_right _ hn)
  by_cases hBelow : (m.sz : Int) + n.toInt < 0
  · refine growproc_below (hSzMax.trans_lt (by decide)) hBelow ?_
    exact hKept true k.vm (view p) (.refl _ _) (h.mem p)
      ⟨fun _ hNonneg => absurd hBelow (not_lt.mpr hNonneg), nofun⟩
  unfold growproc
  rw [wp_bind, wp_read]
  rw [← hm, wp_ite]
  refine ⟨fun hPos => ?_, fun hNotPos => ?_⟩
  · rw [wp_bind, onVm_rule]
    have hLt : n.toInt.toNat < 2 ^ 32 := by
      have hMax := n.toInt_lt
      omega
    have hAdd : add64 m.sz n.toInt.toNat = m.sz + n.toInt.toNat := by
      unfold add64
      simp only [NPAGES, PHYSTOP, PGSIZE] at hSzMax
      omega
    refine uvmalloc_rule hHolds.shows hSound.left
      hHolds.space.user hHolds.space.gap (by decide) ?_ ?_ ?_
    · intro hLess
      omega
    · intro u s' hBecomes hLeaf
      rw [if_pos rfl, wp_pure]
      obtain ⟨hTrades, hMem⟩ := hAlike s' u hLeaf hBecomes.shows hBecomes.trades
      exact hKept false s' u hTrades hMem ⟨nofun, fun _ => ⟨hPos, rfl, hLeaf⟩⟩
    · intro u s' hLe hAdds _ hMax
      rw [if_neg (by omega), wp_bind, wp_edit, wp_pure]
      have hLength := hAdds.length_le (npages_mono hLe)
      refine hQ true _ s' u (h.setMem hA ?_ ?_)
        ⟨fun _ _ => ⟨by omega, hLength⟩, nofun⟩
      · rw [hOwned, UserMem.owned_sz hTf hPt]
        exact (hAdds.trades_all (npages_mono hLe)).frame _
      · exact ⟨fun hNull => absurd hNull hPt, fun _ =>
          ⟨hTf, hAdds.shows, hHolds.space.adds hAdds (npages_mono hLe) hMax⟩⟩
  rw [wp_ite]
  refine ⟨fun hNeg => ?_, fun hNotNeg => ?_⟩
  · rw [wp_bind, onVm_rule]
    have hNew : sub64 m.sz (-n.toInt).toNat =
        m.sz - (-n.toInt).toNat := by
      unfold sub64
      simp only [NPAGES, PHYSTOP, PGSIZE] at hSzMax
      omega
    rw [hNew]
    have hLe := Nat.sub_le m.sz (-n.toInt).toNat
    set newsz := m.sz - (-n.toInt).toNat with hNewsz
    have hMono := npages_mono hLe
    have hSplit :=
      (view p).pages_append 0 (npages newsz) (npages m.sz - npages newsz)
    rw [Nat.add_sub_cancel' hMono, Nat.zero_add] at hSplit
    have hPart : (view p).tables + (view p).pages (npages newsz)
        (npages m.sz - npages newsz) ≤ (view p).own (npages m.sz) := by
      unfold PtView.own
      rw [hSplit]
      exact add_le_add_right (le_add_left _ _) _
    refine uvmdealloc_rule hHolds.shows (mul_PGSIZE_lt hn).le
      (hSound.left.mono hPart) (fun i _ hi => hHolds.space.user i hi) ?_
    intro w s' hShows hTables hLeaf hTrades
    rw [wp_bind, wp_edit, wp_pure, Nat.min_eq_left hLe]
    have hSpace := hHolds.space.removes hMono hn hLeaf
    refine hQ true _ s' w (h.setMem hA ?_ ?_)
      ⟨fun _ _ => ⟨by omega, hMono.trans (Nat.le_add_right _ _)⟩, nofun⟩
    · have hKeep : w.pages 0 (npages newsz) = (view p).pages 0 (npages newsz) := by
        refine PtView.pages_congr (fun i _ hi => ?_)
        rw [hLeaf]
        unfold unmapped
        rw [if_neg (by omega)]
      rw [hOwned, UserMem.owned_sz hTf hPt]
      unfold UserMem.pages PtView.own
      rw [hSplit, hKeep]
      refine ((hTrades.frame ((view p).pages 0 (npages newsz))).frame _).congr ?_ rfl
      abel
    · exact ⟨fun hNull => absurd hNull hPt, fun _ => ⟨hTf, hShows, hSpace⟩⟩
  · rw [wp_pure]
    exact hKept true k.vm (view p) (.refl _ _) (h.mem p)
      ⟨fun _ _ => ⟨by omega, Nat.le_add_right _ _⟩, nofun⟩

end Xv6.Vm

-------
-- Files
-------

namespace Xv6.Vm

open Prog

variable {P : Type} [Fintype P] {L : MemLayout} {A : Multiset Nat} {k : Kernel P}
variable {view : P → PtView} {d : Fin NFILE → Int} {PM M : Multiset Nat}
variable {E : Halt → Kernel P → Prop} {Q : Unit → Kernel P → Prop} {f : Fin NFILE}

/- Files change; the descriptors and the pipes do not. -/
theorem Kernel.Ok.setTable (h : Kernel.Ok L A k view d PM M) {F : Files P} {d' : Fin NFILE → Int}
    (hFiles : FilesOk F d' PM) (hSame : F.ofile = k.files.ofile) :
    Kernel.Ok L A { k with files := F } view d' PM M := by
  refine h.setFiles hFiles rfl (fun p fd hp => ?_)
  rw [hSame]
  exact h.idle p hp fd

theorem filealloc_rule (h : Kernel.Ok L A k view d PM M) {Q : Option (Fin NFILE) → Kernel P → Prop}
    (hNone : Q none k)
    (hSome : ∀ f, (k.files.ftable f).ref = 0 → (k.files.ftable f).type = .none → Kernel.Ok L A
        { k with
          files := k.files.setFile f
            { k.files.ftable f with ref := 1 } } view
        (d + Pi.single f 1) PM M →
      Q (some f)
        { k with
          files := k.files.setFile f
            { k.files.ftable f with ref := 1 } }) : wp filealloc Q E k := by
  unfold filealloc editFiles
  rw [wp_bind, wp_read]
  cases hFind : (List.finRange NFILE).find? (fun f => (k.files.ftable f).ref == 0) with
  | none =>
    rw [wp_pure]
    exact hNone
  | some f =>
    have hZero : (k.files.ftable f).ref = 0 := by simpa using List.find?_some hFind
    have hSet := h.files.setRef (f := f) (n := 1) (by simp)
    rw [hZero] at hSet
    rw [wp_bind, wp_edit, wp_pure]
    exact hSome f hZero (h.files.counted.free f hZero) (h.setTable hSet rfl)

theorem filedup_rule (h : Kernel.Ok L A k view d PM M) (hRef : 1 ≤ (k.files.ftable f).ref)
    (hQ : ∀ F : Files P, F.ofile = k.files.ofile → Kernel.Ok L A { k with files := F } view
        (d + Pi.single f 1) PM M → Q () { k with files := F }) : wp (filedup f) Q E k := by
  unfold filedup editFiles
  rw [wp_bind, wp_read, if_neg (by omega), wp_edit]
  have hSet := h.files.setRef (f := f) (n := (k.files.ftable f).ref + 1) (by omega)
  rw [add_sub_cancel_left] at hSet
  exact hQ _ rfl (h.setTable hSet rfl)

/- A file is closed, and with it perhaps a pipe. -/
theorem fileclose_rule (hA : AllPages L A) (h : Kernel.Ok L A k view d PM M)
    (hRef : 1 ≤ (k.files.ftable f).ref)
    (hQ : ∀ (F : Files P) s' PM', F.ofile = k.files.ofile →
      (∀ g, g ≠ f → F.ftable g = k.files.ftable g) →
      Kernel.Ok L A { k with files := F, vm := s' } view (d - Pi.single f 1) PM' M →
      Q () { k with files := F, vm := s' }) : wp (fileclose L f) Q E k := by
  have hOther : ∀ (v : OpenFile) g, g ≠ f → (k.files.setFile f v).ftable g = k.files.ftable g := by
    intro v g hg
    unfold Files.setFile
    dsimp only
    rw [update_of_ne hg]
  unfold fileclose editFiles
  rw [wp_bind, wp_read]
  rw [if_neg (by omega), wp_ite]
  refine ⟨fun hMore => ?_, fun hLast => ?_⟩
  · rw [wp_edit]
    have hSet := h.files.setRef (f := f) (n := (k.files.ftable f).ref - 1) (by omega)
    rw [sub_sub_cancel_left, Pi.single_neg] at hSet
    exact hQ _ k.vm PM rfl (hOther _) (h.setTable hSet rfl)
  have hOne : 0 - (k.files.ftable f).ref = -1 := by omega
  rw [wp_bind, wp_edit]
  rcases h.files.type_eq f with hType | hType
  · rw [if_neg (by rw [hType]; decide), wp_pure]
    have hClose := h.files.closeNone hType
    rw [hOne, Pi.single_neg] at hClose
    exact hQ _ k.vm PM rfl (hOther _) (h.setTable hClose rfl)
  rw [if_pos hType]
  obtain ⟨e, hPipe⟩ := Option.ne_none_iff_exists'.mp (h.files.pipe_ne_none hType)
  unfold pipeclose editFiles
  rw [wp_bind, wp_read]
  have hMap : (k.files.pipes (k.files.ftable f).pipe).map
      (·.close (k.files.ftable f).writable) = some (e.close (k.files.ftable f).writable) := by
    rw [hPipe]
    rfl
  simp only [Files.setFile, hMap]
  rw [wp_ite]
  refine ⟨fun hShut => ?_, fun hOpen => ?_⟩
  · -- the page of the pipe is freed
    have hSound := h.sound hA
    have hPart : PM ≤ M + k.pages view PM :=
      (le_add_left PM _).trans (le_add_left _ M)
    have hMem : (k.files.ftable f).pipe ∈ PM := (h.files.live _).mpr (by rw [hPipe]; simp)
    have hNodup : PM.Nodup := nodup_of_le
      (hPart.trans (le_add_left _ _)) hSound.nodup
    have hArea : L.Area (k.files.ftable f).pipe :=
      hSound.area_of_mem (mem_of_le hPart hMem)
    have hClose := h.files.closeLast hNodup hType hPipe hShut
    rw [hOne, Pi.single_neg] at hClose
    have hOk := h.setFiles hClose (show M + {(k.files.ftable f).pipe} +
          PM.erase (k.files.ftable f).pipe = M + PM by
        rw [add_assoc, singleton_add, cons_erase hMem])
      (fun p fd hp => h.idle p hp fd)
    rw [wp_bind, wp_edit, onVm_rule]
    refine kfree_rule hArea (fun s' hFree => ?_)
    refine hQ _ s' _ rfl (hOther _) (hOk.trade hA ?_)
    exact (hFree.frame M).congr (add_comm M _) (zero_add M)
  · have hClose := h.files.closeEnd hType hPipe hOpen
    rw [hOne, Pi.single_neg] at hClose
    rw [wp_edit]
    exact hQ _ k.vm PM rfl (hOther _) (h.setTable hClose rfl)

/- Two files that no descriptor refers to are closed. -/
theorem fileclose_two {α : Type} {m : KernelM P α} (hA : AllPages L A) {f0 f1 : Fin NFILE}
    (h : Kernel.Ok L A k view (Pi.single f0 1 + Pi.single f1 1) PM M) {Q : α → Kernel P → Prop}
    (hQ : ∀ (F : Files P) s' PM', F.ofile = k.files.ofile →
      Kernel.Ok L A { k with files := F, vm := s' } view 0
        PM' M → wp m Q E { k with files := F, vm := s' }) :
    wp (do
        fileclose L f0
        fileclose L f1
        m) Q E k := by
  have hNonneg : (0 : Int) ≤ (Pi.single f1 1 : Fin NFILE → Int) f0 := by
    by_cases hEq : f0 = f1
    · rw [hEq, Pi.single_eq_same]
      decide
    · rw [Pi.single_eq_of_ne hEq]
  have hRef0 : 1 ≤ (k.files.ftable f0).ref := by
    refine h.files.one_le_ref ?_
    rw [Pi.add_apply, Pi.single_eq_same]
    omega
  rw [wp_bind]
  refine fileclose_rule hA h hRef0 (fun F s' PM' hFds _ hOk => ?_)
  rw [add_sub_cancel_left] at hOk
  have hRef1 : 1 ≤ (F.ftable f1).ref := by
    refine hOk.files.one_le_ref ?_
    rw [Pi.single_eq_same]
  rw [wp_bind]
  refine fileclose_rule hA hOk hRef1 (fun F' s'' PM'' hFds' _ hOk' => ?_)
  rw [sub_self] at hOk'
  exact hQ F' s'' PM'' (hFds'.trans hFds) hOk'

theorem pipealloc_rule (hA : AllPages L A) (h : Kernel.Ok L A k view 0 PM M)
    {Q : Option (Fin NFILE × Fin NFILE) → Kernel P → Prop}
    (hNone : ∀ (F : Files P) s' PM', F.ofile = k.files.ofile →
      Kernel.Ok L A { k with files := F, vm := s' } view 0
        PM' M → Q none { k with files := F, vm := s' })
    (hSome : ∀ f0 f1 (F : Files P) s' PM', F.ofile = k.files.ofile →
      Kernel.Ok L A { k with files := F, vm := s' } view (Pi.single f0 1 + Pi.single f1 1) PM' M →
      Q (some (f0, f1)) { k with files := F, vm := s' }) : wp (pipealloc L) Q E k := by
  unfold pipealloc
  rw [wp_bind]
  refine filealloc_rule h ?_ ?_
  · rw [wp_pure]
    exact hNone k.files k.vm PM rfl h
  intro f0 hZero0 hNone0 h₁
  rw [zero_add] at h₁
  rw [wp_bind]
  refine filealloc_rule h₁ ?_ ?_
  · rw [wp_bind]
    have hRef : 1 ≤ ((k.files.setFile f0
        { k.files.ftable f0 with ref := 1 }).ftable f0).ref := by
      refine h₁.files.one_le_ref ?_
      rw [Pi.single_eq_same]
    refine fileclose_rule hA h₁ hRef (fun F s' PM' hFds _ hOk => ?_)
    rw [sub_self] at hOk
    rw [wp_pure]
    exact hNone F s' PM' hFds hOk
  intro f1 hZero1 hNone1 h₂
  have hNe : f1 ≠ f0 := by
    intro hEq
    rw [hEq] at hZero1
    unfold Files.setFile at hZero1
    dsimp only at hZero1
    rw [update_self] at hZero1
    cases hZero1
  rw [wp_bind, onVm_rule]
  refine kalloc_rule ?_ ?_
  · intro s' hTrades
    have hOk := h₂.trade hA ((hTrades.frame M).congr (zero_add M).symm (zero_add M))
    refine fileclose_two hA hOk (fun F s'' PM' hFds hOk' => ?_)
    rw [wp_pure]
    exact hNone F s'' PM' hFds hOk'
  intro pi s' hTrades
  have hOk := h₂.trade hA ((hTrades.frame M).congr (zero_add M).symm (add_comm _ M))
  have hPage : pi ∉ PM := by
    intro hMem
    have hSound := hOk.sound hA
    refine hSound.not_mem ?_ (mem_add.mpr
        (.inr (mem_singleton_self pi)))
    exact mem_add.mpr (.inr hMem)
  have hOpen := hOk.files.openPipe hNe (by simpa [Files.setFile, hNe.symm] using hNone0)
    (by simpa [Files.setFile] using hNone1)
    (by simp [Files.setFile, hNe.symm])
    (by simp [Files.setFile]) hPage
  unfold editFiles
  rw [wp_bind, wp_edit, wp_pure]
  refine hSome f0 f1 _ s' ({pi} + PM) rfl (hOk.setFiles hOpen ?_ (fun p fd hp => h.idle p hp fd))
  abel

-------
-- Descriptors
-------

variable [DecidableEq P] {fd : Fin NOFILE} {p : P} {d' : Fin NFILE → Int}

omit [Fintype P] in
@[simp] theorem Files.setFd_self (F : Files P) (p : P) (fd : Fin NOFILE) (x : Option (Fin NFILE)) :
    (F.setFd p fd x).ofile p fd = x := by
  simp [Files.setFd]

omit [Fintype P] in
theorem Files.setFd_fd_of_ne (F : Files P) (p : P) {g : Fin NOFILE} (x : Option (Fin NFILE))
    (h : g ≠ fd) : (F.setFd p fd x).ofile p g = F.ofile p g := by
  simp [Files.setFd, h]

omit [Fintype P] in
theorem Files.setFd_of_ne (F : Files P) {q : P} (fd : Fin NOFILE) (x : Option (Fin NFILE))
    (h : q ≠ p) : (F.setFd p fd x).ofile q = F.ofile q := by
  simp [Files.setFd, h]

/- A process that is in use changes a descriptor. -/
theorem Kernel.Ok.setFd (h : Kernel.Ok L A k view d PM M) {x : Option (Fin NFILE)}
    (hFiles : FilesOk (k.files.setFd p fd x) d' PM) (hUnused : (k.proc p).state ≠ .unused)
    (hZombie : (k.proc p).state ≠ .zombie) :
    Kernel.Ok L A { k with files := k.files.setFd p fd x } view d' PM M := by
  refine h.setFiles hFiles rfl (fun q g hq => ?_)
  have hNe : q ≠ p := by
    intro hEq
    rw [hEq] at hq
    rcases hq with hq | hq
    · exact hUnused hq
    · exact hZombie hq
  rw [Files.setFd_of_ne _ _ _ hNe]
  exact h.idle q hq g

/- A file that a descriptor refers to. -/
theorem Kernel.Ok.one_le_ref (h : Kernel.Ok L A k view 0 PM M) (hFd : k.files.ofile p fd = some f) :
    1 ≤ (k.files.ftable f).ref := by
  have hTake := h.files.takeFd hFd
  refine hTake.one_le_ref ?_
  rw [zero_add, Pi.single_eq_same]

theorem fdalloc_rule (h : Kernel.Ok L A k view (d' + Pi.single f 1) PM M)
    (hUnused : (k.proc p).state ≠ .unused) (hZombie : (k.proc p).state ≠ .zombie)
    {Q : Option (Fin NOFILE) → Kernel P → Prop} (hNone : Q none k)
    (hSome : ∀ fd, k.files.ofile p fd = none → Kernel.Ok L A
        { k with files := k.files.setFd p fd (some f) }
        view d' PM M →
      Q (some fd)
        { k with files := k.files.setFd p fd (some f) }) : wp (fdalloc p f) Q E k := by
  unfold fdalloc editFiles
  rw [wp_bind, wp_read]
  cases hFind : (List.finRange NOFILE).find? (fun fd => k.files.ofile p fd == none) with
  | none =>
    rw [wp_pure]
    exact hNone
  | some fd =>
    have hEmpty : k.files.ofile p fd = none := by simpa using List.find?_some hFind
    rw [wp_bind, wp_edit, wp_pure]
    exact hSome fd hEmpty (h.setFd (h.files.giveFd hEmpty) hUnused hZombie)

/- A process that makes a call. -/
structure Caller (k : Kernel P) (p : P) : Prop where
  runnable : (k.proc p).state = .runnable
  settled : k.Settled

omit [Fintype P] [DecidableEq P] in
theorem Caller.pagetable (h : Caller k p) : (k.proc p).mem.pagetable ≠ 0 := by
  rcases h.settled p with hp | hp
  · rw [h.runnable] at hp
    exact absurd hp.1 (by decide)
  · exact hp.2

omit [Fintype P] [DecidableEq P] in
theorem Caller.busy (h : Caller k p) : (k.proc p).state ≠ .unused ∧ (k.proc p).state ≠ .zombie := by
  rw [h.runnable]
  decide

omit [DecidableEq P] in
/- A process changes its user memory. -/
theorem Kernel.Ok.writeUser (hA : AllPages L A) (h : Kernel.Ok L A k view d PM M)
    (hPt : (k.proc p).mem.pagetable ≠ 0) {s' : Ram}
    (hTrades : k.vm.Trades s' ((view p).pages 0 (npages (k.proc p).mem.sz))
      ((view p).pages 0 (npages (k.proc p).mem.sz))) :
    Kernel.Ok L A { k with vm := s' } view d PM M := by
  obtain ⟨hHolds, hOwned⟩ := h.holds hPt
  have hSound := h.sound_proc hA p
  rw [hOwned] at hSound
  refine h.sameView hA ?_ ⟨fun hNull =>
    absurd hNull hPt, fun _ => ⟨((h.mem p).some hPt).1, (hHolds.shows.write hSound.left hTrades).1,
      hHolds.space⟩⟩
  rw [hOwned]
  unfold UserMem.pages PtView.own
  refine ((hTrades.frame (view p).tables).frame {(k.proc p).mem.trapframe}).congr ?_ ?_
  · abel
  · abel

omit [DecidableEq P] in
/- Copying out changes the user memory of the process only. -/
theorem copyout_onVm (hA : AllPages L A) (h : Kernel.Ok L A k view d PM M)
    (hPt : (k.proc p).mem.pagetable ≠ 0) (addr : Nat) (src : List UInt8)
    {Q : Bool → Ram → Prop} {E : VmFault → Ram → Prop}
    (hQ : ∀ b s', Kernel.Ok L A { k with vm := s' } view d PM M → Q b s') :
    wp (copyout (k.proc p).mem.pagetable addr src) Q E
      k.vm := by
  obtain ⟨hHolds, hOwned⟩ := h.holds hPt
  have hSound := h.sound_proc hA p
  rw [hOwned] at hSound
  refine copyout_rule hHolds.space hHolds.shows hSound.left (fun b s' hShows hTrades => hQ b s' ?_)
  exact h.writeUser hA hPt hTrades

omit [DecidableEq P] in
/- Both files of a pipe are closed again. -/
theorem pipeFail_rule (hA : AllPages L A) {rf wf : Fin NFILE}
    (h : Kernel.Ok L A k view (Pi.single rf 1 + Pi.single wf 1) PM 0)
    (hSettled : k.Settled) : wp (pipeFail L rf wf) (fun _ k' => k'.Good L A) E k := by
  refine fileclose_two hA h (fun F s' PM' _ hOk => ?_)
  rw [wp_pure]
  exact ⟨view, PM', hOk, hSettled⟩

theorem sysPipe_rule (hA : AllPages L A) (h : Kernel.Ok L A k view 0 PM 0) (hCaller : Caller k p)
    (fdarray : Nat) : wp (sysPipe L p fdarray) (fun _ k' => k'.Good L A) E k := by
  unfold sysPipe
  rw [wp_bind]
  refine pipealloc_rule hA h ?_ ?_
  · intro F s' PM' _ hOk
    rw [wp_pure]
    exact ⟨view, PM', hOk, hCaller.settled⟩
  intro rf wf F s' PM' hFds hOk
  rw [wp_bind]
  rw [add_comm] at hOk
  refine fdalloc_rule hOk hCaller.busy.1 hCaller.busy.2 ?_ ?_
  · rw [add_comm] at hOk
    exact pipeFail_rule hA hOk hCaller.settled
  intro fd0 hEmpty0 hOk₀
  rw [wp_bind]
  have hOk₀' := hOk₀
  rw [← zero_add (Pi.single wf 1)] at hOk₀'
  refine fdalloc_rule hOk₀' hCaller.busy.1 hCaller.busy.2 ?_ ?_
  · unfold editFiles
    rw [wp_bind, wp_edit]
    have hTake := hOk₀.files.takeFd (Files.setFd_self F p fd0 (some rf))
    have hOk₁ := hOk₀.setFd hTake hCaller.busy.1 hCaller.busy.2
    rw [add_comm] at hOk₁
    exact pipeFail_rule hA hOk₁ hCaller.settled
  intro fd1 hEmpty1 hOk₁
  have hNe : fd0 ≠ fd1 := by
    intro hEq
    rw [← hEq] at hEmpty1
    rw [Files.setFd_self] at hEmpty1
    cases hEmpty1
  simp only [wp_bind, wp_read]
  rw [onVm_rule]
  have hPt := hCaller.pagetable
  rw [wp_bind]
  refine copyout_onVm hA hOk₁ hPt fdarray _ (fun b s'' hOk₂ => ?_)
  -- the descriptors are taken back when they cannot be told
  have hUndo : ∀ s₃, Kernel.Ok L A
      { k with
        vm := s₃
        files := (F.setFd p fd0 (some rf)).setFd p fd1 (some wf) } view 0 PM' 0 →
      wp (do
          editFiles (fun F => (F.setFd p fd0 none).setFd p fd1 none)
          pipeFail L rf wf) (fun _ k' => k'.Good L A) E
        { k with
          vm := s₃
          files := (F.setFd p fd0 (some rf)).setFd p fd1 (some wf) } := by
    intro s₃ hOk₃
    unfold editFiles
    rw [wp_bind, wp_edit]
    have hFd0 : ((F.setFd p fd0 (some rf)).setFd p fd1 (some wf)).ofile p fd0 = some rf := by
      rw [Files.setFd_fd_of_ne _ _ _ hNe, Files.setFd_self]
    have hTake0 := hOk₃.files.takeFd hFd0
    have hOk₄ := hOk₃.setFd hTake0 hCaller.busy.1 hCaller.busy.2
    have hFd1 : (((F.setFd p fd0 (some rf)).setFd p fd1
        (some wf)).setFd p fd0 none).ofile p fd1 = some wf := by
      rw [Files.setFd_fd_of_ne _ _ _ hNe.symm, Files.setFd_self]
    have hTake1 := hOk₄.files.takeFd hFd1
    have hOk₅ := hOk₄.setFd hTake1 hCaller.busy.1 hCaller.busy.2
    rw [zero_add] at hOk₅
    exact pipeFail_rule hA hOk₅ hCaller.settled
  cases b with
  | false =>
    rw [if_neg (by decide), wp_pure]
    exact hUndo s'' hOk₂
  | true =>
    refine copyout_onVm hA hOk₂ hPt _ _ (fun b' s₃ hOk₃ => ?_)
    cases b' with
    | true =>
      rw [if_pos rfl, wp_pure]
      exact ⟨view, PM', hOk₃, hCaller.settled⟩
    | false =>
      exact hUndo s₃ hOk₃

theorem sysClose_rule (hA : AllPages L A) (h : Kernel.Ok L A k view 0 PM 0) (hCaller : Caller k p)
    (fd : Int) : wp (sysClose L p fd) (fun _ k' => k'.Good L A) E k := by
  have hSame : wp (return -1 : KernelM P Int) (fun _ k' => k'.Good L A) E k := by
    rw [wp_pure]
    exact ⟨view, PM, h, hCaller.settled⟩
  unfold sysClose
  rw [wp_bind, wp_read]
  split
  · split
    · exact hSame
    rename_i f hFd
    have hTake := h.files.takeFd hFd
    have hOk := h.setFd hTake hCaller.busy.1 hCaller.busy.2
    have hRef : 1 ≤ (k.files.ftable f).ref := h.one_le_ref hFd
    unfold editFiles
    rw [wp_bind, wp_edit, wp_bind]
    refine fileclose_rule hA hOk hRef (fun F s' PM' _ _ hOk' => ?_)
    rw [zero_add, sub_self] at hOk'
    rw [wp_pure]
    exact ⟨view, PM', hOk', hCaller.settled⟩
  · exact hSame

end Xv6.Vm
