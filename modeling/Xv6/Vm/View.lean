import Xv6.Vm.PageTable

/-
  What a page table shows.

  A page table is a tree of tables: the table at the root has
  the path `[]`, and the entry `j` of the table with path `x`
  leads to the table with path `x ++ [j]`. The tables of the
  lowest level have the entries of pages.

  Key definitions include:
    * `mkPte`
    * `PtView`
    * `PtView.tables`
    * `PtView.Shows`
-/

open Function List

-------
-- Entries
-------

namespace Xv6

variable {L : MemLayout} {flags pa : Nat}

/- An entry for a page, with all of its flags. -/
def mkPte (pa flags : Nat) : Nat := PA2PTE pa ||| flags

/- The address of a page, as an entry can hold it. -/
def PageAddr (pa : Nat) : Prop := pa % PGSIZE = 0 ∧ pa < 2 ^ 64

theorem MemLayout.Area.pageAddr (h : L.Area pa) : PageAddr pa := by
  refine ⟨h.1, h.2.2.trans ?_⟩
  decide

theorem MemLayout.Area.ne_zero (h : L.Area pa) : pa ≠ 0 := by
  have hBase := L.kernbase_le
  have hEnd := h.2.1
  rintro rfl
  simp only [KERNBASE] at hBase
  omega

theorem MemLayout.pageAddr_trampoline (L : MemLayout) : PageAddr L.trampoline := by
  refine ⟨L.trampoline_aligned, ?_⟩
  have hLt := L.trampoline_lt.trans_le L.kend_le
  exact hLt.trans (by decide)

theorem mkPte_eq (hFlags : flags < 1024) : mkPte pa flags = pa / 4096 * 1024 + flags := by
  unfold mkPte PA2PTE
  rw [← Nat.shiftLeft_add_eq_or_of_lt hFlags, Nat.shiftLeft_eq, Nat.shiftRight_eq_div_pow]

theorem mkPte_lt (hPa : PageAddr pa) (hFlags : flags < 1024) : mkPte pa flags < 256 ^ 8 := by
  rw [mkPte_eq hFlags]
  have hLt := hPa.2
  omega

theorem PTE2PA_mkPte (hPa : PageAddr pa) (hFlags : flags < 1024) :
    PTE2PA (mkPte pa flags) = pa := by
  unfold PTE2PA
  rw [mkPte_eq hFlags]
  have hAligned := hPa.1
  have hLt := hPa.2
  simp only [PGSIZE] at hAligned
  omega

theorem PTE_FLAGS_mkPte (hFlags : flags < 1024) : PTE_FLAGS (mkPte pa flags) = flags := by
  unfold PTE_FLAGS
  rw [show 0x3ff = 2 ^ 10 - 1 from rfl, Nat.and_two_pow_sub_one_eq_mod, mkPte_eq hFlags]
  omega

/- A flag of an entry is one of its flags. -/
theorem pteHas_mkPte {flag : Nat} (hFlag : flag < 1024) :
    pteHas (mkPte pa flags) flag = pteHas flags flag := by
  unfold pteHas mkPte PA2PTE
  rw [Nat.and_or_distrib_right]
  have hZero : (pa >>> 12) <<< 10 &&& flag = 0 := by
    refine Nat.eq_of_testBit_eq (fun i => ?_)
    rw [Nat.testBit_and, Nat.zero_testBit]
    by_cases hi : 10 ≤ i
    · rw [Nat.testBit_lt_two_pow (x := flag), Bool.and_false]
      exact lt_of_lt_of_le hFlag (Nat.pow_le_pow_right Nat.two_pos hi : 2 ^ 10 ≤ 2 ^ i)
    · simp [hi]
  rw [hZero, Nat.zero_or]

/- Taking the user flag away. -/
theorem ldiff_mkPte (pa flags : Nat) :
    Nat.ldiff (mkPte pa flags) PTE_U = mkPte pa (Nat.ldiff flags PTE_U) := by
  unfold mkPte PA2PTE
  refine Nat.eq_of_testBit_eq (fun i => ?_)
  by_cases hi : 10 ≤ i
  · have hBit : PTE_U.testBit i = false := by
      refine Nat.testBit_lt_two_pow ?_
      exact lt_of_lt_of_le (by decide : PTE_U < 2 ^ 10) (Nat.pow_le_pow_right (by decide) hi)
    simp [hBit]
  · simp [hi]

-------
-- Views
-------

/-
  The tables of a page table by their paths, and the pages
  that are mapped by their numbers, with address and flags.
-/
structure PtView where
  table : List Nat → Option Nat
  leaf : Nat → Option (Nat × Nat)

/- The entry that leads to a table. -/
def nodePte : Option Nat → Nat
| none => 0
| some pt => mkPte pt PTE_V

/- The entry of a page. -/
def leafPte : Option (Nat × Nat) → Nat
| none => 0
| some (pa, flags) => mkPte pa flags

/- The page that the last entry of a path is for. -/
def vpn (i j l : Nat) : Nat := (i * 512 + j) * 512 + l

/- The number of entries of a table, kept from evaluation. -/
@[irreducible] def PTES : Nat := 512

theorem PTES_eq : PTES = 512 := by
  unfold PTES
  rfl

/- The tables at a path and below it. -/
def tablesFrom (table : List Nat → Option Nat) :
    Nat → List Nat → Multiset Nat
| 0, x => Pool.cell (table x)
| d + 1, x => Pool.cell (table x) + ∑ j ∈ Finset.range PTES, tablesFrom table d (x ++ [j])

namespace PtView

/- All tables. -/
def tables (v : PtView) : Multiset Nat := tablesFrom v.table 2 []

/- Flags of a page that is mapped. -/
def LeafFlags (flags : Nat) : Prop :=
  flags < 1024 ∧ pteHas flags PTE_V = true ∧
    pteHas flags (PTE_R ||| PTE_W ||| PTE_X) = true

instance (flags : Nat) : Decidable (LeafFlags flags) := inferInstanceAs (Decidable (_ ∧ _ ∧ _))

/- The memory holds such a page table. -/
structure Shows (root : Nat) (v : PtView) (mem : Nat → Page) : Prop where
  root : v.table [] = some root
  path : ∀ x pt, v.table x = some pt → x.length ≤ 2 ∧ ∀ j ∈ x, j < PTES
  parent : ∀ x j, v.table x = none → v.table (x ++ [j]) = none
  node : ∀ x pt, v.table x = some pt → x.length < 2 →
    ∀ j < PTES, pteAt mem pt j = nodePte (v.table (x ++ [j]))
  low : ∀ i j pt, v.table [i, j] = some pt →
    ∀ l < PTES, pteAt mem pt l = leafPte (v.leaf (vpn i j l))
  absent : ∀ i j, j < PTES → v.table [i, j] = none → ∀ l < PTES,
    v.leaf (vpn i j l) = none
  addr : ∀ n pa flags, v.leaf n = some (pa, flags) →
    n < 512 * 512 * 512 ∧ PageAddr pa ∧ LeafFlags flags

end PtView

variable {table : List Nat → Option Nat} {pt : Nat}

/- A table is among those at or above it. -/
theorem mem_tablesFrom {z : List Nat} :
    ∀ {d : Nat} {x : List Nat}, table (x ++ z) = some pt → z.length ≤ d →
        (∀ j ∈ z, j < PTES) → pt ∈ tablesFrom table d x := by
  induction z with
  | nil =>
    intro d x h _ _
    rw [append_nil] at h
    cases d with
    | zero => exact Pool.mem_cell.mpr h
    | succ d =>
      rw [tablesFrom, Multiset.mem_add]
      exact .inl (Pool.mem_cell.mpr h)
  | cons j z ih =>
    intro d x h hLen hLt
    cases d with
    | zero => exact absurd hLen (by simp)
    | succ d =>
      rw [tablesFrom, Multiset.mem_add, Multiset.mem_sum]
      refine .inr ⟨j, ?_, ?_⟩
      · exact Finset.mem_range.mpr (hLt j mem_cons_self)
      · refine ih ?_ (by simpa using hLen) (fun i hi => hLt i (mem_cons_of_mem j hi))
        rw [append_assoc]
        exact h

/- Every table is at the end of a path. -/
theorem exists_of_mem_tablesFrom :
    ∀ {d : Nat} {x : List Nat}, pt ∈ tablesFrom table d x →
        ∃ z : List Nat, z.length ≤ d ∧ (∀ j ∈ z, j < PTES) ∧ table (x ++ z) = some pt := by
  intro d
  induction d with
  | zero =>
    intro x h
    refine ⟨[], Nat.le_refl 0, by simp, ?_⟩
    rw [append_nil]
    exact Pool.mem_cell.mp h
  | succ d ih =>
    intro x h
    rw [tablesFrom, Multiset.mem_add] at h
    rcases h with h | h
    · refine ⟨[], Nat.zero_le _, by simp, ?_⟩
      rw [append_nil]
      exact Pool.mem_cell.mp h
    obtain ⟨j, hj, hMem⟩ := Multiset.mem_sum.mp h
    obtain ⟨z, hLen, hLt, hTable⟩ := ih hMem
    refine ⟨j :: z, by simpa using hLen, ?_, ?_⟩
    · intro i hi
      rcases mem_cons.mp hi with rfl | hi
      · exact Finset.mem_range.mp hj
      · exact hLt i hi
    · rw [append_assoc] at hTable
      exact hTable

/- Different paths have different tables. -/
theorem eq_of_nodup_tablesFrom :
    ∀ {d : Nat} {x z z' : List Nat}, (tablesFrom table d x).Nodup →
      table (x ++ z) = some pt → table (x ++ z') = some pt →
      z.length ≤ d → z'.length ≤ d →
      (∀ j ∈ z, j < PTES) → (∀ j ∈ z', j < PTES) → z = z' := by
  intro d
  induction d with
  | zero =>
    intro x z z' _ _ _ hLen hLen' _ _
    rw [length_eq_zero_iff.mp (Nat.le_zero.mp hLen),
      length_eq_zero_iff.mp (Nat.le_zero.mp hLen')]
  | succ d ih =>
    intro x z z' hNodup h h' hLen hLen' hLt hLt'
    rw [tablesFrom, Multiset.nodup_add] at hNodup
    obtain ⟨_, hSum, hDisj⟩ := hNodup
    have hBelow {j : Nat} {w : List Nat} (hw : table (x ++ j :: w) = some pt)
        (hwLen : (j :: w).length ≤ d + 1)
        (hwLt : ∀ i ∈ j :: w, i < PTES) :
        j ∈ Finset.range PTES ∧ pt ∈ tablesFrom table d (x ++ [j]) := by
      refine ⟨Finset.mem_range.mpr (hwLt j mem_cons_self), ?_⟩
      refine mem_tablesFrom ?_ (by simpa using hwLen)
        (fun i hi => hwLt i (mem_cons_of_mem j hi))
      rw [append_assoc]
      exact hw
    cases z with
    | nil =>
      cases z' with
      | nil => rfl
      | cons j w =>
        -- the table itself is not one below it
        obtain ⟨hj, hMem⟩ := hBelow h' hLen' hLt'
        rw [append_nil] at h
        exact absurd (Multiset.mem_sum.mpr ⟨j, hj, hMem⟩)
          (Multiset.disjoint_left.mp hDisj (Pool.mem_cell.mpr h))
    | cons j w =>
      obtain ⟨hj, hMem⟩ := hBelow h hLen hLt
      cases z' with
      | nil =>
        rw [append_nil] at h'
        exact absurd (Multiset.mem_sum.mpr ⟨j, hj, hMem⟩)
          (Multiset.disjoint_left.mp hDisj (Pool.mem_cell.mpr h'))
      | cons j' w' =>
        obtain ⟨hj', hMem'⟩ := hBelow h' hLen' hLt'
        have hEq := Pool.eq_of_nodup_sum hSum hj hj' hMem hMem'
        subst hEq
        have hChild : (tablesFrom table d (x ++ [j])).Nodup :=
          Multiset.nodup_of_le (Finset.single_le_sum (f := fun j => tablesFrom table d (x ++ [j]))
              (fun _ _ => Multiset.zero_le _) hj) hSum
        have hTail : w = w' :=
          ih hChild (by rw [append_assoc]; exact h) (by rw [append_assoc]; exact h')
            (by simpa using hLen) (by simpa using hLen')
            (fun i hi => hLt i (mem_cons_of_mem j hi))
            (fun i hi => hLt' i (mem_cons_of_mem j hi))
        rw [hTail]

/- Tables elsewhere do not matter. -/
theorem tablesFrom_congr {table table' : List Nat → Option Nat} :
    ∀ {d : Nat} {x : List Nat}, (∀ z, table' (x ++ z) = table (x ++ z)) →
        tablesFrom table' d x = tablesFrom table d x := by
  intro d
  induction d with
  | zero =>
    intro x h
    have hHere := h []
    rw [append_nil] at hHere
    rw [tablesFrom, tablesFrom, hHere]
  | succ d ih =>
    intro x h
    have hHere := h []
    rw [append_nil] at hHere
    rw [tablesFrom, hHere]
    congr 1
    refine Finset.sum_congr rfl (fun j _ => ih (fun z => ?_))
    rw [append_assoc]
    exact h ([j] ++ z)

/- A new table below a path. -/
theorem tablesFrom_update {z : List Nat} :
    ∀ {d : Nat} {x : List Nat}, table (x ++ z) = none → z.length ≤ d →
      (∀ j ∈ z, j < PTES) → tablesFrom (update table (x ++ z) (some pt))
          d x = tablesFrom table d x + {pt} := by
  induction z with
  | nil =>
    intro d x h _ _
    rw [append_nil] at h ⊢
    have hHere : Pool.cell (update table x (some pt) x) = Pool.cell (table x) + {pt} := by
      rw [update_self, h]
      exact (zero_add _).symm
    cases d with
    | zero => exact hHere
    | succ d =>
      rw [tablesFrom, tablesFrom, hHere]
      have hRest : ∀ j ∈ Finset.range PTES, tablesFrom (update table x (some pt)) d
            (x ++ [j]) = tablesFrom table d (x ++ [j]) := by
        refine fun j _ => tablesFrom_congr (fun w => ?_)
        refine update_of_ne ?_ ..
        simp
      rw [Finset.sum_congr rfl hRest]
      abel
  | cons j z ih =>
    intro d x h hLen hLt
    cases d with
    | zero => exact absurd hLen (by simp)
    | succ d =>
      have hj : j ∈ Finset.range PTES := Finset.mem_range.mpr (hLt j mem_cons_self)
      have hne : x ≠ x ++ j :: z := by simp
      rw [tablesFrom, tablesFrom, update_of_ne hne]
      rw [← Finset.add_sum_erase _ _ hj, ← Finset.add_sum_erase (Finset.range PTES)
          (fun j => tablesFrom table d (x ++ [j])) hj]
      have hChild := ih (x := x ++ [j]) (by rw [append_assoc]; exact h)
        (by simpa using hLen)
        (fun i hi => hLt i (mem_cons_of_mem j hi))
      rw [append_assoc, singleton_append] at hChild
      have hRest : ∀ i ∈ (Finset.range PTES).erase j,
          tablesFrom (update table (x ++ j :: z) (some pt))
            d (x ++ [i]) = tablesFrom table d (x ++ [i]) := by
        refine fun i hi => tablesFrom_congr (fun w => ?_)
        refine update_of_ne ?_ ..
        have hij := Finset.ne_of_mem_erase hi
        simp [hij]
      rw [hChild, Finset.sum_congr rfl hRest]
      abel

-------
-- Changes Of Entries
-------

theorem pteAt_store_self (mem : Nat → Page) (pt : Nat) {i e : Nat} (hi : i < PTES)
    (he : e < 256 ^ 8) : pteAt (update mem pt ((mem pt).putLE (8 * i) 8 e)) pt i = e := by
  rw [PTES_eq] at hi
  unfold pteAt
  rw [update_self, Bytes.getLE_putLE_self _ _ _ _ (by simp only [PGSIZE]; omega),
    Nat.mod_eq_of_lt he]

theorem pteAt_store_ne (mem : Nat → Page) (pt e : Nat) {i j : Nat} (hne : j ≠ i) :
    pteAt (update mem pt ((mem pt).putLE (8 * i) 8 e)) pt j = pteAt mem pt j := by
  unfold pteAt
  rw [update_self, Bytes.getLE_putLE_disjoint _ _ _ _ _ _ (by omega)]

theorem pteAt_zero {mem : Nat → Page} (h : mem pt = filled 0) (i : Nat) :
    pteAt mem pt i = 0 := by
  unfold pteAt
  rw [h]
  exact Bytes.getLE_zero _ _

theorem leafPte_lt {o : Option (Nat × Nat)}
    (h : ∀ pa flags, o = some (pa, flags) → PageAddr pa ∧ PtView.LeafFlags flags) :
    leafPte o < 256 ^ 8 := by
  cases o with
  | none => exact Nat.pow_pos (by decide)
  | some e =>
    obtain ⟨hPa, hFlags⟩ := h e.1 e.2 rfl
    exact mkPte_lt hPa hFlags.1

/- Pages have their own places. -/
theorem vpn_inj {i j l i' j' l' : Nat} (hj : j < PTES) (hl : l < PTES) (hj' : j' < PTES)
    (hl' : l' < PTES) (h : vpn i j l = vpn i' j' l') : i = i' ∧ j = j' ∧ l = l' := by
  rw [PTES_eq] at *
  unfold vpn at h
  omega

theorem vpn_PX {va : Nat} (h : va < MAXVA) : vpn (PX 2 va) (PX 1 va) (PX 0 va) = va / PGSIZE := by
  unfold vpn PX
  simp only [MAXVA, PGSIZE] at *
  omega

theorem PX_lt (level va : Nat) : PX level va < PTES := by
  rw [PTES_eq]
  exact Nat.mod_lt _ (by decide)

namespace PtView

variable {root : Nat} {v : PtView} {mem mem' : Nat → Page}

namespace Shows

variable {x : List Nat} {j pt : Nat}

section

variable (h : v.Shows root mem)
include h

theorem mem_tables (hx : v.table x = some pt) : pt ∈ v.tables :=
  mem_tablesFrom hx (h.path x pt hx).1 (h.path x pt hx).2

theorem root_mem : root ∈ v.tables := h.mem_tables h.root

/- A table has one path. -/
theorem path_eq (hNodup : v.tables.Nodup) {y : List Nat}
    (hx : v.table x = some pt) (hy : v.table y = some pt) : x = y :=
  eq_of_nodup_tablesFrom hNodup hx hy (h.path x pt hx).1 (h.path y pt hy).1
    (h.path x pt hx).2 (h.path y pt hy).2

/- Only the tables matter. -/
theorem congr (hSame : ∀ pt ∈ v.tables, mem' pt = mem pt) : v.Shows root mem' := by
  have hPte {x : List Nat} {pt : Nat} (hx : v.table x = some pt) (i : Nat) :
      pteAt mem' pt i = pteAt mem pt i := by
    unfold pteAt
    rw [hSame pt (h.mem_tables hx)]
  refine { h with node := ?_, low := ?_ }
  · intro x pt hx hLen j hj
    rw [hPte hx]
    exact h.node x pt hx hLen j hj
  · intro i j pt hx l hl
    rw [hPte hx]
    exact h.low i j pt hx l hl

/- A table is added below another one. -/
theorem addTable (hNodup : v.tables.Nodup) {k : Nat}
    (hx : v.table x = some pt) (hLen : x.length < 2) (hj : j < PTES)
    (hNone : v.table (x ++ [j]) = none) (hZero : mem' k = filled 0)
    (hNew : pteAt mem' pt j = mkPte k PTE_V) (hOld : ∀ i, i ≠ j → pteAt mem' pt i = pteAt mem pt i)
    (hRest : ∀ q ∈ v.tables, q ≠ pt → mem' q = mem q) :
    ({ v with
      table := update v.table (x ++ [j]) (some k)
      } : PtView).Shows root mem' := by
  have hNew' (i : Nat) : v.table (x ++ [j] ++ [i]) = none := h.parent _ i hNone
  refine
    { root := ?_, path := ?_, parent := ?_, node := ?_
      low := ?_, absent := ?_, addr := h.addr }
  · dsimp only
    rw [update_of_ne (by simp)]
    exact h.root
  · intro y q hy
    dsimp only at hy
    by_cases hEq : y = x ++ [j]
    · subst hEq
      refine ⟨?_, ?_⟩
      · rw [length_append, length_singleton]
        omega
      intro i hi
      rcases mem_append.mp hi with hi | hi
      · exact (h.path x pt hx).2 i hi
      · rw [mem_singleton.mp hi]
        exact hj
    · rw [update_of_ne hEq] at hy
      exact h.path y q hy
  · intro y i hy
    dsimp only at hy ⊢
    have hyx : y ≠ x ++ [j] := by
      rintro rfl
      rw [update_self] at hy
      cases hy
    rw [update_of_ne hyx] at hy
    have hne : y ++ [i] ≠ x ++ [j] := by
      intro hEq
      have hyx := (append_inj' hEq rfl).1
      rw [hyx, hx] at hy
      cases hy
    rw [update_of_ne hne]
    exact h.parent y i hy
  · intro y q hy hyLen i hi
    dsimp only at hy ⊢
    by_cases hEq : y = x ++ [j]
    · -- the new table is empty
      subst hEq
      rw [update_self, Option.some.injEq] at hy
      subst hy
      rw [update_of_ne (by simp), hNew' i, pteAt_zero hZero]
      rfl
    rw [update_of_ne hEq] at hy
    by_cases hyx : y = x
    · subst hyx
      rw [hx, Option.some.injEq] at hy
      subst hy
      by_cases hij : i = j
      · rw [hij, update_self, hNew]
        rfl
      · rw [update_of_ne (by simp [hij]), hOld i hij]
        exact h.node y pt hx hyLen i hi
    · have hq : q ≠ pt := by
        rintro rfl
        exact hyx (h.path_eq hNodup hy hx)
      rw [update_of_ne (by simp [hyx])]
      unfold pteAt
      rw [hRest q (h.mem_tables hy) hq]
      exact h.node y q hy hyLen i hi
  · intro i i' q hy l hl
    dsimp only at hy ⊢
    by_cases hEq : [i, i'] = x ++ [j]
    · rw [hEq, update_self, Option.some.injEq] at hy
      subst hy
      have hi' : i' = j := by
        have hPair : [i] ++ [i'] = x ++ [j] := hEq
        have hLast := (append_inj' hPair rfl).2
        simpa using hLast
      rw [h.absent i i' (hi' ▸ hj) (hEq ▸ hNone) l hl, pteAt_zero hZero]
      rfl
    · rw [update_of_ne hEq] at hy
      have hq : q ≠ pt := by
        rintro rfl
        have hxy := h.path_eq hNodup hy hx
        rw [← hxy] at hLen
        exact absurd hLen (by simp)
      unfold pteAt
      rw [hRest q (h.mem_tables hy) hq]
      exact h.low i i' q hy l hl
  · intro i i' hi' hy l hl
    dsimp only at hy ⊢
    by_cases hEq : [i, i'] = x ++ [j]
    · exact h.absent i i' hi' (hEq ▸ hNone) l hl
    · rw [update_of_ne hEq] at hy
      exact h.absent i i' hi' hy l hl

/- The entry of a page is changed. -/
theorem setLeaf (hNodup : v.tables.Nodup) {i l : Nat}
    (hx : v.table [i, j] = some pt) (hl : l < PTES) {e : Option (Nat × Nat)}
    (hAddr : ∀ pa flags, e = some (pa, flags) → PageAddr pa ∧ LeafFlags flags)
    (hNew : pteAt mem' pt l = leafPte e) (hOld : ∀ l', l' ≠ l → pteAt mem' pt l' = pteAt mem pt l')
    (hRest : ∀ q ∈ v.tables, q ≠ pt → mem' q = mem q) :
    ({ v with leaf := update v.leaf (vpn i j l) e } : PtView).Shows root mem' := by
  have hPath := (h.path _ pt hx).2
  have hi : i < PTES := hPath i (by simp)
  have hj : j < PTES := hPath j (by simp)
  refine
    { root := h.root, path := h.path, parent := h.parent
      node := ?_, low := ?_, absent := ?_, addr := ?_ }
  · intro y q hy hyLen i' hi'
    have hq : q ≠ pt := by
      rintro rfl
      have hxy := h.path_eq hNodup hy hx
      rw [hxy] at hyLen
      exact absurd hyLen (by simp)
    unfold pteAt
    rw [hRest q (h.mem_tables hy) hq]
    exact h.node y q hy hyLen i' hi'
  · intro i' j' q hy l' hl'
    dsimp only
    have hj' : j' < PTES := (h.path _ q hy).2 j' (by simp)
    by_cases hq : q = pt
    · subst hq
      have hxy := h.path_eq hNodup hy hx
      simp only [cons.injEq, and_true] at hxy
      obtain ⟨rfl, rfl⟩ := hxy
      by_cases hll : l' = l
      · rw [hll, update_self, hNew]
      · rw [update_of_ne, hOld l' hll]
        · exact h.low i' j' q hy l' hl'
        · intro hEq
          exact hll (vpn_inj hj hl' hj hl hEq).2.2
    · rw [update_of_ne]
      · unfold pteAt
        rw [hRest q (h.mem_tables hy) hq]
        exact h.low i' j' q hy l' hl'
      · intro hEq
        obtain ⟨rfl, rfl, -⟩ := vpn_inj hj' hl' hj hl hEq
        rw [hx, Option.some.injEq] at hy
        exact hq hy.symm
  · intro i' j' hj' hy l' hl'
    dsimp only
    rw [update_of_ne]
    · exact h.absent i' j' hj' hy l' hl'
    · intro hEq
      obtain ⟨rfl, rfl, -⟩ := vpn_inj hj' hl' hj hl hEq
      rw [hx] at hy
      cases hy
  · intro n pa flags hn
    dsimp only at hn
    by_cases hEq : n = vpn i j l
    · rw [hEq, update_self] at hn
      refine ⟨?_, hAddr pa flags hn⟩
      rw [hEq]
      unfold vpn
      rw [PTES_eq] at hi hj hl
      omega
    · rw [update_of_ne hEq] at hn
      exact h.addr n pa flags hn

end

end Shows

end PtView

end Xv6
