import Xv6.Vm.ExecSpec
import Xv6.Vm.KernelFiles

/-
  Who has which page: the free list, the kernel, the processes
  and the pipes. A call may have further pages, which it still
  refers to by its variables.

  Key definitions include:
    * `UserMem.owned`
    * `Kernel.pages`
    * `Kernel.Ok`
    * `Kernel.Settled`

  Key theorems include:
    * `Kernel.Ok.trade`
    * `Kernel.Ok.change`
    * `Kernel.Ok.setFiles`
-/

open Function Finset Multiset

-------
-- Ownership
-------

namespace Xv6.Vm

/- The page of a pointer, unless it is null. -/
def ptr (q : Nat) : Multiset Nat := if q = 0 then 0 else {q}

/- The pages of a process that may be half set up. -/
def UserMem.owned (m : UserMem) (v : PtView) : Multiset Nat :=
  ptr m.trapframe +
    if m.pagetable = 0 then 0 else v.own (npages m.sz)

/- A process that may be half set up. -/
structure UserMem.Ok (L : MemLayout) (m : UserMem) (v : PtView) (s : Ram) : Prop where
  none : m.pagetable = 0 → m.sz = 0
  some : m.pagetable ≠ 0 → m.trapframe ≠ 0 ∧ m.Holds L v s

variable {P : Type} [Fintype P]

/- All pages that are not free. -/
def Kernel.pages (k : Kernel P) (view : P → PtView) (PM : Multiset Nat) : Multiset Nat :=
  (k.own : Multiset Nat) + ∑ p, (k.proc p).mem.owned (view p) + PM

/- The pages of the allocator, each of them once. -/
structure AllPages (L : MemLayout) (A : Multiset Nat) : Prop where
  nodup : A.Nodup
  area : ∀ q, q ∈ A ↔ L.Area q

/-
  All pages are accounted for. The call in progress refers to
  the pages in `M` and has `d f` references to file `f`.
-/
structure Kernel.Ok (L : MemLayout) (A : Multiset Nat) (k : Kernel P) (view : P → PtView)
    (d : Fin NFILE → Int) (PM M : Multiset Nat) : Prop where
  cells : (k.vm.free : Multiset Nat) + (M + k.pages view PM) = A
  mem : ∀ p, (k.proc p).mem.Ok L (view p) k.vm
  files : FilesOk k.files d PM
  idle : ∀ p, (k.proc p).state = .unused ∨ (k.proc p).state = .zombie →
      ∀ fd, k.files.ofile p fd = none

/- No process is half set up. -/
def Kernel.Settled (k : Kernel P) : Prop :=
  ∀ p, ((k.proc p).state = .unused ∧ (k.proc p).mem.pagetable = 0 ∧
      (k.proc p).mem.trapframe = 0) ∨
    (((k.proc p).state = .runnable ∨ (k.proc p).state = .zombie) ∧
        (k.proc p).mem.pagetable ≠ 0)

/- The state between calls. -/
def Kernel.Good (L : MemLayout) (A : Multiset Nat) (k : Kernel P) : Prop :=
  ∃ view PM, Kernel.Ok L A k view 0 PM 0 ∧ k.Settled

-------
-- Processes
-------

variable {L : MemLayout} {m : UserMem} {v : PtView}

theorem ptr_of_ne {q : Nat} (h : q ≠ 0) : ptr q = {q} := if_neg h

theorem UserMem.owned_eq (hTf : m.trapframe ≠ 0) (hPt : m.pagetable ≠ 0) :
    m.owned v = m.pages v := by
  unfold UserMem.owned UserMem.pages
  rw [ptr_of_ne hTf, if_neg hPt, add_comm]

/- A process is not affected when its pages stay. -/
theorem UserMem.Ok.congr {s s' : Ram} (h : m.Ok L v s)
    (hSame : ∀ q ∈ m.owned v, s'.mem q = s.mem q) : m.Ok L v s' := by
  refine ⟨h.none, fun hPt => ?_⟩
  obtain ⟨hTf, hHolds⟩ := h.some hPt
  refine ⟨hTf, hHolds.shows.congr (fun q hq => ?_), hHolds.space⟩
  refine hSame q ?_
  rw [UserMem.owned_eq hTf hPt]
  exact mem_add.mpr (.inl (mem_add.mpr (.inl hq)))

/- A process without memory. -/
theorem UserMem.Ok.empty (hPt : m.pagetable = 0) (hSz : m.sz = 0) (v : PtView) (s : Ram) :
    m.Ok L v s :=
  ⟨fun _ => hSz, fun hNe => absurd hPt hNe⟩

-------
-- Changes
-------

variable {P : Type} [Fintype P] {L : MemLayout} {A : Multiset Nat} {k : Kernel P}
variable {view : P → PtView} {d : Fin NFILE → Int} {PM M M' : Multiset Nat}

/- What a process has is part of all pages. -/
theorem Kernel.owned_le (k : Kernel P) (view : P → PtView) (PM : Multiset Nat) (p : P) :
    (k.proc p).mem.owned (view p) ≤ k.pages view PM := by
  have hSum := single_le_sum (f := fun p => (k.proc p).mem.owned (view p))
    (fun q _ => zero_le _) (mem_univ p)
  refine hSum.trans ?_
  refine (le_add_left _ (k.own : Multiset Nat)).trans ?_
  exact le_add_right _ PM

namespace Kernel.Ok

section

variable (hA : AllPages L A) (h : Kernel.Ok L A k view d PM M)
include hA h

theorem sound : k.vm.Sound L (M + k.pages view PM) := by
  constructor
  · rw [h.cells]
    exact hA.nodup
  · intro q hq
    rw [h.cells] at hq
    exact (hA.area q).mp hq

theorem sound_proc (p : P) : k.vm.Sound L ((k.proc p).mem.owned (view p)) := by
  refine (h.sound hA).mono ?_
  exact (k.owned_le view PM p).trans (le_add_left _ M)

/- The call in progress trades its own pages. -/
theorem trade {s' : Ram} (hTrades : k.vm.Trades s' M M') :
    Kernel.Ok L A { k with vm := s' } view d PM M' where
  cells := by
    have hCells := (hTrades.frame (k.pages view PM)).cells
    rw [h.cells] at hCells
    exact hCells
  mem := by
    intro p
    refine (h.mem p).congr (fun q hq => ?_)
    exact hTrades.kept (h.sound hA) (mem_of_le (k.owned_le view PM p) hq)
  files := h.files
  idle := h.idle

end

/- Files change, and pages of pipes with them. -/
theorem setFiles (h : Kernel.Ok L A k view d PM M) {F : Files P} {d' : Fin NFILE → Int}
    {PM' : Multiset Nat} (hFiles : FilesOk F d' PM') (hPages : M' + PM' = M + PM)
    (hIdle : ∀ p fd, (k.proc p).state = .unused ∨ (k.proc p).state = .zombie →
      F.ofile p fd = none) :
    Kernel.Ok L A { k with files := F } view d' PM' M' where
  cells := by
    rw [← h.cells]
    unfold Kernel.pages
    rw [add_left_comm M', add_left_comm M, hPages]
  mem := h.mem
  files := hFiles
  idle := fun p hp fd => hIdle p fd hp

variable [DecidableEq P]

/- A process changes, and trades pages of its own. -/
theorem change (hA : AllPages L A) (h : Kernel.Ok L A k view d PM M) {p : P} {x : KProc P}
    {v : PtView} {s' : Ram}
    (hTrades : k.vm.Trades s' (M + (k.proc p).mem.owned (view p)) (M' + x.mem.owned v))
    (hMem : x.mem.Ok L v s')
    (hIdle : x.state = .unused ∨ x.state = .zombie → ∀ fd, k.files.ofile p fd = none) :
    Kernel.Ok L A
      { k with
        vm := s'
        proc := update k.proc p x }
      (update view p v) d PM M' := by
  set R : Multiset Nat := (k.own : Multiset Nat) +
    ∑ q ∈ univ.erase p, (k.proc q).mem.owned (view q) + PM with hR
  have hOld : k.pages view PM = (k.proc p).mem.owned (view p) + R := by
    unfold Kernel.pages
    rw [← add_sum_erase _ _ (mem_univ p), hR]
    abel
  have hNew : Kernel.pages
      { k with
        vm := s'
        proc := update k.proc p x }
      (update view p v) PM = x.mem.owned v + R := by
    unfold Kernel.pages
    dsimp only
    rw [← add_sum_erase _ _ (mem_univ p), update_self, update_self, hR]
    have hRest : ∑ q ∈ univ.erase p, (update k.proc p x q).mem.owned (update view p v q) =
        ∑ q ∈ univ.erase p, (k.proc q).mem.owned (view q) := by
      refine sum_congr rfl (fun q hq => ?_)
      have hNe := ne_of_mem_erase hq
      rw [update_of_ne hNe, update_of_ne hNe]
    rw [hRest]
    abel
  have hSound : k.vm.Sound L (M + (k.proc p).mem.owned (view p) + R) := by
    rw [add_assoc, ← hOld]
    exact h.sound hA
  refine ⟨?_, ?_, h.files, ?_⟩
  · have hCells := (hTrades.frame R).cells
    rw [hNew, ← add_assoc M']
    rw [add_assoc M, ← hOld, h.cells] at hCells
    exact hCells
  · intro q
    by_cases hq : q = p
    · subst hq
      dsimp only
      rw [update_self, update_self]
      exact hMem
    dsimp only
    rw [update_of_ne hq, update_of_ne hq]
    refine (h.mem q).congr (fun y hy => ?_)
    refine hTrades.kept hSound ?_
    have hPart : (k.proc q).mem.owned (view q) ≤ R := by
      have hSum := single_le_sum (f := fun q => (k.proc q).mem.owned (view q))
       
        (fun q _ => zero_le _)
        (mem_erase.mpr ⟨hq, mem_univ q⟩)
      refine hSum.trans ?_
      refine (le_add_left _ (k.own : Multiset Nat)).trans ?_
      exact le_add_right _ PM
    exact mem_of_le hPart hy
  · intro q
    by_cases hq : q = p
    · subst hq
      dsimp only
      rw [update_self]
      exact hIdle
    · dsimp only
      rw [update_of_ne hq]
      exact h.idle q

/- A process changes, but not its memory. -/
theorem setProc (hA : AllPages L A) (h : Kernel.Ok L A k view d PM M) {p : P} {x : KProc P}
    (hOwned : x.mem.owned (view p) = (k.proc p).mem.owned (view p))
    (hMem : x.mem.Ok L (view p) k.vm)
    (hIdle : x.state = .unused ∨ x.state = .zombie → ∀ fd, k.files.ofile p fd = none) :
    Kernel.Ok L A (k.setProc p x) view d PM M := by
  have hSame : k.vm.Trades k.vm (M + (k.proc p).mem.owned (view p)) (M + x.mem.owned (view p)) := by
    rw [hOwned]
    exact .refl _ _
  have hChange := h.change hA hSame hMem hIdle
  rw [update_eq_self] at hChange
  exact hChange

end Kernel.Ok

end Xv6.Vm
