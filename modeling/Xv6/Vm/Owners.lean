import Xv6.Vm.KernelPages
import Mathlib.Algebra.BigOperators.Fin

/-
  The owners of pages, as they are found in memory.

  The tables of a process and the pages that are mapped are
  read from memory here, entry by entry as `walk` reads them.
  When all pages are accounted for, every page is free or has
  one owner.

  Key definitions include:
    * `tableAt`, `leafAt`
    * `Owner`
    * `Kernel.Owns`

  Key theorems include:
    * `PtView.Shows.tableAt`, `PtView.Shows.leafAt`
    * `Kernel.Good.owner`
-/

open Multiset

-------
-- Reading Page Tables
-------

namespace Xv6

/- The table that a valid entry leads to. -/
def nodeAt (mem : Nat → Page) (pt j : Nat) : Option Nat :=
  if pteHas (pteAt mem pt j) PTE_V then
    some (PTE2PA (pteAt mem pt j))
  else none

/- The table at the end of a path from the root. -/
def tableAt (mem : Nat → Page) (root : Nat) (x : List Nat) : Option Nat :=
  x.foldlM (nodeAt mem) root

/- The page with number `n`, and the flags of its entry. -/
def leafAt (mem : Nat → Page) (root n : Nat) : Option (Nat × Nat) :=
  match tableAt mem root [n / 512 / 512, n / 512 % 512] with
  | none => none
  | some pt =>
    let pte := pteAt mem pt (n % 512)
    if pteHas pte PTE_V then
      some (PTE2PA pte, PTE_FLAGS pte)
    else none

variable {mem : Nat → Page} {root : Nat} {v : PtView}

theorem tableAt_snoc (mem : Nat → Page) (root : Nat) (x : List Nat) (j : Nat) :
    tableAt mem root (x ++ [j]) = (tableAt mem root x).bind (fun pt => nodeAt mem pt j) := by
  unfold tableAt
  rw [List.foldlM_append]
  cases List.foldlM (nodeAt mem) root x with
  | none => rfl
  | some pt => exact Option.bind_fun_some (nodeAt mem pt j)

/- What a table shows can be read from memory. -/
theorem PtView.Shows.tableAt
    (h : v.Shows root mem) (hAddr : ∀ pt ∈ v.tables, PageAddr pt) {x : List Nat}
    (hLen : x.length ≤ 2) (hLt : ∀ j ∈ x, j < 512) : Xv6.tableAt mem root x = v.table x := by
  induction x using List.reverseRecOn with
  | nil => exact h.root.symm
  | append_singleton x j ih =>
    rw [List.length_append, List.length_singleton] at hLen
    have hx : ∀ i ∈ x, i < 512 := fun i hi => hLt i (List.mem_append_left _ hi)
    have hj : j < PTES := by
      rw [PTES_eq]
      exact hLt j (by simp)
    rw [tableAt_snoc, ih (by omega) hx]
    cases hTable : v.table x with
    | none =>
      rw [h.parent x j hTable]
      rfl
    | some pt =>
      change nodeAt mem pt j = _
      unfold nodeAt
      rw [h.node x pt hTable (by omega) j hj]
      cases hNext : v.table (x ++ [j]) with
      | none =>
        rw [if_neg (by decide)]
      | some pt' =>
        have hMem : pt' ∈ v.tables := by
          refine mem_tablesFrom hNext ?_ ?_
          · change (x ++ [j]).length ≤ 2
            rw [List.length_append]
            exact hLen
          · intro i hi
            rw [PTES_eq]
            exact hLt i hi
        unfold nodePte
        rw [pteHas_mkPte (by decide), if_pos (by decide), PTE2PA_mkPte (hAddr pt' hMem) (by decide)]

theorem PtView.Shows.leafAt (h : v.Shows root mem) (hAddr : ∀ pt ∈ v.tables, PageAddr pt) {n : Nat}
    (hn : n < 512 * 512 * 512) : Xv6.leafAt mem root n = v.leaf n := by
  have hVpn : vpn (n / 512 / 512) (n / 512 % 512) (n % 512) =
      n := by
    unfold vpn
    omega
  have hj : n / 512 % 512 < PTES := by
    rw [PTES_eq]
    omega
  have hl : n % 512 < PTES := by
    rw [PTES_eq]
    omega
  unfold Xv6.leafAt
  rw [h.tableAt hAddr (by simp) (by
    intro i hi
    simp only [List.mem_cons, List.not_mem_nil, or_false] at hi
    omega)]
  cases hTable : v.table [n / 512 / 512, n / 512 % 512] with
  | none =>
    have hNone := h.absent _ _ hj hTable _ hl
    rw [hVpn] at hNone
    exact hNone.symm
  | some pt =>
    dsimp only
    rw [h.low _ _ pt hTable _ hl, hVpn]
    cases hLeaf : v.leaf n with
    | none =>
      rw [if_neg (by decide)]
    | some e =>
      obtain ⟨pa, flags⟩ := e
      obtain ⟨_, hPa, hFlags⟩ := h.addr n pa flags hLeaf
      unfold leafPte
      rw [pteHas_mkPte (by decide), hFlags.2.1, if_pos rfl,
        PTE2PA_mkPte hPa hFlags.1, PTE_FLAGS_mkPte hFlags.1]

end Xv6

-------
-- Owners
-------

namespace Xv6.Vm

/- Who can have a page. -/
inductive Owner (P : Type) where
  -- a kernel stack, a kernel page table or a device ring
  | kernel (i : Nat)
  | trapframe (p : P)
  -- the table at the end of a path of a page table
  | table (p : P) (x : List Nat)
  -- the mapping of a page below the trapframe
  | user (p : P) (n : Nat)
  | pipe

variable {P : Type}

/- The owner has the page `q`. -/
def Kernel.Owns (k : Kernel P) (o : Owner P) (q : Nat) : Prop :=
  match o with
  | .kernel i => k.own[i]? = some q
  | .trapframe p => (k.proc p).mem.trapframe ≠ 0 ∧ (k.proc p).mem.trapframe = q
  | .table p x =>
    (k.proc p).mem.pagetable ≠ 0 ∧ x.length ≤ 2 ∧ (∀ j ∈ x, j < 512) ∧
      tableAt k.vm.mem (k.proc p).mem.pagetable x = some q
  | .user p n =>
    (k.proc p).mem.pagetable ≠ 0 ∧ n < USERPAGES ∧
      ∃ flags, leafAt k.vm.mem (k.proc p).mem.pagetable n = some (q, flags)
  | .pipe => k.files.pipes q ≠ none

/- The kinds of owners. -/
def Owner.place :
    Owner P → Option (Option (P × Fin 3))
| .kernel _ => none
| .pipe => some none
| .trapframe p => some (some (p, 0))
| .table p _ => some (some (p, 1))
| .user p _ => some (some (p, 2))

/- The pages of all owners of a kind. -/
def Kernel.placed (k : Kernel P) (view : P → PtView) (PM : Multiset Nat) :
    Option (Option (P × Fin 3)) → Multiset Nat
| none => (k.own : Multiset Nat)
| some none => PM
| some (some (p, i)) =>
    match i with
    | 0 => ptr (k.proc p).mem.trapframe
    | 1 =>
      if (k.proc p).mem.pagetable = 0 then 0
      else (view p).tables
    | 2 =>
      if (k.proc p).mem.pagetable = 0 then 0
      else (view p).pages 0 (npages (k.proc p).mem.sz)

variable [Fintype P]

theorem Kernel.pages_eq_sum (k : Kernel P) (view : P → PtView) (PM : Multiset Nat) :
    k.pages view PM = ∑ c, k.placed view PM c := by
  unfold Kernel.pages
  rw [Fintype.sum_option, Fintype.sum_option, Fintype.sum_prod_type]
  have hOwned : ∀ p, ∑ i : Fin 3, k.placed view PM (some (some (p, i))) =
        (k.proc p).mem.owned (view p) := by
    intro p
    rw [Fin.sum_univ_three]
    unfold Kernel.placed UserMem.owned PtView.own
    dsimp only
    split
    · rw [add_zero]
    · rw [add_assoc]
  rw [Finset.sum_congr rfl (fun p _ => hOwned p)]
  unfold Kernel.placed
  abel

-------
-- One Owner
-------

variable {L : MemLayout} {A : Multiset Nat} {k : Kernel P} {view : P → PtView}
variable {d : Fin NFILE → Int} {PM M : Multiset Nat}

omit [Fintype P] in
theorem UserMem.Ok.leafAt {m : UserMem} {v : PtView} {s : Ram} (h : m.Ok L v s)
    (hSound : s.Sound L (m.owned v)) (hPt : m.pagetable ≠ 0) {n : Nat}
    (hn : n < 512 * 512 * 512) : leafAt s.mem m.pagetable n = v.leaf n := by
  obtain ⟨hTf, hHolds⟩ := h.some hPt
  rw [UserMem.owned_eq hTf hPt] at hSound
  exact hHolds.shows.leafAt (fun pt hMem => (hSound.left.left.area_of_mem hMem).pageAddr) hn

omit [Fintype P] in
theorem UserMem.Ok.tableAt {m : UserMem} {v : PtView} {s : Ram} (h : m.Ok L v s)
    (hSound : s.Sound L (m.owned v)) (hPt : m.pagetable ≠ 0) {x : List Nat}
    (hLen : x.length ≤ 2) (hLt : ∀ j ∈ x, j < 512) : tableAt s.mem m.pagetable x = v.table x := by
  obtain ⟨hTf, hHolds⟩ := h.some hPt
  rw [UserMem.owned_eq hTf hPt] at hSound
  exact hHolds.shows.tableAt (fun pt hMem => (hSound.left.left.area_of_mem hMem).pageAddr) hLen hLt

namespace Kernel.Ok

variable {q : Nat}

section

variable (hA : AllPages L A) (h : Kernel.Ok L A k view d PM M)
include hA h

/- What an owner has is among the pages of its kind. -/
theorem mem_placed {o : Owner P} (hOwns : k.Owns o q) : q ∈ k.placed view PM o.place := by
  cases o with
  | kernel i => exact mem_coe.mpr (List.mem_of_getElem? hOwns)
  | pipe => exact (h.files.live q).mpr hOwns
  | trapframe p =>
    obtain ⟨hTf, rfl⟩ := hOwns
    change _ ∈ ptr _
    rw [ptr_of_ne hTf]
    exact mem_singleton_self _
  | table p x =>
    obtain ⟨hPt, hLen, hLt, hTable⟩ := hOwns
    rw [(h.mem p).tableAt (h.sound_proc hA p) hPt hLen hLt] at hTable
    change q ∈ if _ then _ else _
    rw [if_neg hPt]
    refine mem_tablesFrom hTable hLen ?_
    rw [PTES_eq]
    exact hLt
  | user p n =>
    obtain ⟨hPt, hn, flags, hLeaf⟩ := hOwns
    obtain ⟨_, hHolds⟩ := (h.mem p).some hPt
    rw [(h.mem p).leafAt (h.sound_proc hA p) hPt (hn.trans (by decide))] at hLeaf
    change q ∈ if _ then _ else _
    rw [if_neg hPt]
    refine PtView.mem_pages hLeaf (Nat.zero_le _) ?_
    rw [Nat.zero_add]
    exact hHolds.space.lt_of_leaf hn hLeaf

/- The pages of each kind have owners. -/
theorem exists_owner
    {c : Option (Option (P × Fin 3))} (hMem : q ∈ k.placed view PM c) : ∃ o, k.Owns o q := by
  rcases c with _ | _ | ⟨p, i⟩
  · obtain ⟨i, hi⟩ := List.mem_iff_getElem?.mp (mem_coe.mp hMem)
    exact ⟨.kernel i, hi⟩
  · exact ⟨.pipe, (h.files.live q).mp hMem⟩
  · have hPtOf : ∀ {N : Multiset Nat}, q ∈ (if (k.proc p).mem.pagetable = 0 then 0 else N) →
          (k.proc p).mem.pagetable ≠ 0 ∧ q ∈ N := by
      intro N hq
      split at hq
      · cases hq
      · exact ⟨by assumption, hq⟩
    match i with
    | 0 =>
      change q ∈ ptr _ at hMem
      unfold ptr at hMem
      split at hMem
      · cases hMem
      · rename_i hTf
        exact ⟨.trapframe p, hTf, (mem_singleton.mp hMem).symm⟩
    | 1 =>
      obtain ⟨hPt, hTables⟩ := hPtOf hMem
      obtain ⟨x, hLen, hLt, hTable⟩ := exists_of_mem_tablesFrom hTables
      have hLt' : ∀ j ∈ x, j < 512 := by
        intro j hj
        rw [← PTES_eq]
        exact hLt j hj
      refine ⟨.table p x, hPt, hLen, hLt', ?_⟩
      rw [(h.mem p).tableAt (h.sound_proc hA p) hPt hLen hLt']
      exact hTable
    | 2 =>
      obtain ⟨hPt, hPages⟩ := hPtOf hMem
      obtain ⟨n, hn, flags, hLeaf⟩ := PtView.exists_of_mem_pages hPages
      have hSound := h.sound_proc hA p
      obtain ⟨hTf, hHolds⟩ := (h.mem p).some hPt
      rw [UserMem.owned_eq hTf hPt] at hSound
      have hMax := hHolds.space.le_npages hSound.left
      have hUser : n < USERPAGES := (hn.trans_le hMax).trans NPAGES_lt
      refine ⟨.user p n, hPt, hUser, flags, ?_⟩
      rw [(h.mem p).leafAt (h.sound_proc hA p) hPt (hUser.trans (by decide))]
      exact hLeaf

/- Owners of one kind that have the same page. -/
theorem owner_eq {o o' : Owner P}
    (hOwns : k.Owns o q) (hOwns' : k.Owns o' q) (hPlace : o.place = o'.place) : o = o' := by
  have hNodup : (k.pages view PM).Nodup :=
    nodup_of_le ((le_add_left _ M).trans
      (le_add_left _ _)) (h.sound hA).nodup
  cases o with
  | kernel i =>
    cases o' with
    | kernel j =>
      have hOwn : k.own.Nodup := by
        refine coe_nodup.mp (nodup_of_le ?_ hNodup)
        unfold Kernel.pages
        rw [add_assoc]
        exact le_add_right _ _
      obtain ⟨hi, hq⟩ := List.getElem?_eq_some_iff.mp hOwns
      obtain ⟨hj, hq'⟩ := List.getElem?_eq_some_iff.mp hOwns'
      rw [hOwn.getElem_inj_iff.mp (hq.trans hq'.symm)]
    | _ => cases hPlace
  | pipe =>
    cases o' with
    | pipe => rfl
    | _ => cases hPlace
  | trapframe p =>
    cases o' with
    | trapframe p' =>
      cases hPlace
      rfl
    | _ => cases hPlace
  | table p x =>
    cases o' with
    | table p' y =>
      cases hPlace
      obtain ⟨hPt, hLen, hLt, hTable⟩ := hOwns
      obtain ⟨_, hLen', hLt', hTable'⟩ := hOwns'
      have hSound := h.sound_proc hA p
      rw [(h.mem p).tableAt hSound hPt hLen hLt] at hTable
      rw [(h.mem p).tableAt hSound hPt hLen' hLt'] at hTable'
      have hTf := ((h.mem p).some hPt).1
      rw [UserMem.owned_eq hTf hPt] at hSound
      have hOnce : (view p).tables.Nodup :=
        nodup_of_le (le_add_left _ _) hSound.left.left.nodup
      rw [← PTES_eq] at hLt hLt'
      rw [eq_of_nodup_tablesFrom hOnce hTable hTable' hLen hLen' hLt hLt']
    | _ => cases hPlace
  | user p n =>
    cases o' with
    | user p' m =>
      cases hPlace
      obtain ⟨hPt, hn, flags, hLeaf⟩ := hOwns
      obtain ⟨_, hm, flags', hLeaf'⟩ := hOwns'
      have hSound := h.sound_proc hA p
      rw [(h.mem p).leafAt hSound hPt (hn.trans (by decide))] at hLeaf
      rw [(h.mem p).leafAt hSound hPt (hm.trans (by decide))] at hLeaf'
      obtain ⟨hTf, hHolds⟩ := (h.mem p).some hPt
      rw [UserMem.owned_eq hTf hPt] at hSound
      have hOnce : ((view p).pages 0 (npages (k.proc p).mem.sz)).Nodup :=
        nodup_of_le (le_add_left _ _) hSound.left.right.nodup
      have hIn := hHolds.space.lt_of_leaf hn hLeaf
      have hIn' := hHolds.space.lt_of_leaf hm hLeaf'
      rw [PtView.eq_of_nodup_pages hOnce hIn hIn' hLeaf hLeaf']
    | _ => cases hPlace

end

end Kernel.Ok

/- A page is free, or has one owner. -/
theorem Kernel.Good.owner (hA : AllPages L A) (h : Kernel.Good L A k) {q : Nat} (hArea : L.Area q) :
    (k.vm.free.count q = 1 ∧ ∀ o, ¬ k.Owns o q) ∨ (q ∉ k.vm.free ∧ ∃! o, k.Owns o q) := by
  obtain ⟨view, PM, hOk, _⟩ := h
  have hSound := hOk.sound hA
  rw [zero_add] at hSound
  have hCells := hOk.cells
  rw [zero_add] at hCells
  have hIn : q ∈ (k.vm.free : Multiset Nat) + k.pages view PM := by
    rw [hCells]
    exact (hA.area q).mpr hArea
  have hNodup := nodup_add.mp hSound.nodup
  have hMine : ∀ o, k.Owns o q → q ∈ k.pages view PM := by
    intro o hOwns
    rw [k.pages_eq_sum, mem_sum]
    exact ⟨o.place, Finset.mem_univ _, hOk.mem_placed hA hOwns⟩
  rcases mem_add.mp hIn with hFree | hOwned
  · refine .inl ⟨?_, fun o hOwns => ?_⟩
    · exact List.count_eq_one_of_mem (coe_nodup.mp hNodup.1) (mem_coe.mp hFree)
    · exact disjoint_left.mp hNodup.2.2 hFree (hMine o hOwns)
  refine .inr ⟨fun hFree => ?_, ?_⟩
  · exact disjoint_left.mp hNodup.2.2 (mem_coe.mpr hFree) hOwned
  rw [k.pages_eq_sum] at hOwned hNodup
  obtain ⟨c, _, hMem⟩ := mem_sum.mp hOwned
  obtain ⟨o, hOwns⟩ := hOk.exists_owner hA hMem
  refine ⟨o, hOwns, fun o' hOwns' => ?_⟩
  refine hOk.owner_eq hA hOwns' hOwns ?_
  exact Pool.eq_of_nodup_sum hNodup.2.1 (Finset.mem_univ _) (Finset.mem_univ _)
    (hOk.mem_placed hA hOwns') (hOk.mem_placed hA hOwns)

end Xv6.Vm
