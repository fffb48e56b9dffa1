import Xv6.Vm.View
import Mathlib.Algebra.BigOperators.Intervals

/-
  What the functions of `vm.c` do to a page table.

  Each rule says what the function makes of the view of the
  table, and which pages it takes from the free list and puts
  back there.

  The rules are:
    * `kalloc_rule`, `kfree_rule`
    * `walk_find`, `walk_alloc`
    * `mappages_rule`, `uvmunmap_rule`
    * `freewalk_rule`
-/

open Prog (wp wp_bind wp_edit wp_imp wp_pure wp_read)

open Function Multiset

-------
-- Pages
-------

namespace Xv6

/- A party trades pages with the free list. -/
abbrev Ram.Trades (s s' : Ram) (M M' : Multiset Nat) : Prop := Pool.Trades s.toPool s'.toPool M M'

/- Free pages and the pages of a party are distinct. -/
abbrev Ram.Sound (L : MemLayout) (s : Ram) (M : Multiset Nat) : Prop := Pool.Sound L.Area s.toPool M

variable {L : MemLayout} {s : Ram} {E : VmFault → Ram → Prop}

variable {Q : Unit → Ram → Prop}

theorem kalloc_rule {Q : Option Nat → Ram → Prop} (hNone : ∀ s', s.Trades s' 0 0 → Q none s')
    (hSome : ∀ pa s', s.Trades s' 0 {pa} → Q (some pa) s') : wp kalloc Q E s := by
  unfold kalloc
  simp only [wp_bind, wp_read, wp_edit]
  split
  · next pa rest _ hFree =>
      simp only [wp_bind, wp_edit, wp_pure]
      exact hSome pa _ (Pool.Trades.take hFree _)
  · simp only [wp_pure]
    exact hNone _ (Pool.Trades.refl _ _)

theorem kfree_rule {pa : Nat} (hArea : L.Area pa)
    (hQ : ∀ s', s.Trades s' {pa} 0 → Q () s') : wp (kfree L pa) Q E s := by
  unfold kfree
  have hNot : ¬ (pa % PGSIZE ≠ 0 ∨ pa < L.kend ∨ PHYSTOP ≤ pa) := by
    obtain ⟨hAligned, hEnd, hTop⟩ := hArea
    omega
  rw [if_neg hNot]
  simp only [wp_edit]
  exact hQ _ (Pool.Trades.give _ _ _)

theorem memset_rule {pa : Nat} {c : UInt8} {M : Multiset Nat}
    (hMem : pa ∈ M) (hQ : ∀ s', s.Trades s' M M → s'.mem pa = filled c → Q () s') :
    wp (memset pa c) Q E s := by
  unfold memset
  simp only [wp_edit]
  exact hQ _ (Pool.Trades.write _ hMem _) (update_self ..)

theorem loadPte_rule {Q : Nat → Ram → Prop} {pt i : Nat} (hQ : Q (pteAt s.mem pt i) s) :
    wp (loadPte pt i) Q E s := by
  unfold loadPte
  simpa only [wp_bind, wp_read, wp_pure] using hQ

/- The state after an entry was stored. -/
structure Stores (s s' : Ram) (pt i e : Nat) : Prop where
  free : s'.free = s.free
  new : pteAt s'.mem pt i = e
  old : ∀ j, j ≠ i → pteAt s'.mem pt j = pteAt s.mem pt j
  rest : ∀ q, q ≠ pt → s'.mem q = s.mem q

theorem Stores.trades {s' : Ram} {pt i e : Nat} {M : Multiset Nat} (h : Stores s s' pt i e)
    (hMem : pt ∈ M) : s.Trades s' M M := by
  refine ⟨by rw [h.free], fun k _ hk => h.rest k ?_⟩
  rintro rfl
  exact hk hMem

theorem storePte_rule {pt i e : Nat} (hi : i < PTES) (he : e < 256 ^ 8)
    (hQ : ∀ s', Stores s s' pt i e → Q () s') : wp (storePte pt i e) Q E s := by
  unfold storePte
  simp only [wp_edit]
  exact hQ _
    { free := rfl
      new := pteAt_store_self _ _ hi he
      old := fun j hj => pteAt_store_ne _ _ _ hj
      rest := fun q hq => update_of_ne hq .. }

-------
-- Walking
-------

variable {L : MemLayout} {s s' : Ram} {root : Nat} {v w : PtView} {E : VmFault → Ram → Prop}
variable {level pt va : Nat} {Q : Option (Nat × Nat) → Ram → Prop}

/-
  A page table with view `v` becomes one with view `w`. The
  tables that were added come from the free list.
-/
structure PtView.Becomes (root : Nat) (v w : PtView) (s s' : Ram) : Prop where
  shows : w.Shows root s'.mem
  trades : s.Trades s' v.tables w.tables
  card : v.tables.card ≤ w.tables.card

theorem PtView.Becomes.refl (h : v.Shows root s.mem) : PtView.Becomes root v v s s :=
  ⟨h, .refl _ _, le_rfl⟩

theorem PtView.Becomes.trans {u : PtView} {s'' : Ram} (h : PtView.Becomes root v w s s')
    (h' : PtView.Becomes root w u s' s'') : PtView.Becomes root v u s s'' :=
  ⟨h'.shows, h.trades.trans h'.trades, h.card.trans h'.card⟩

theorem Ram.Sound.pageAddr {M : Multiset Nat} (h : s.Sound L M) : ∀ pt ∈ M, PageAddr pt :=
  fun _ hMem => (h.area_of_mem hMem).pageAddr

/- Memory outside the free list stays. -/
theorem PtView.Becomes.of_trades (h : v.Shows root s.mem) (hSound : s.Sound L v.tables)
    (hTrades : s.Trades s' 0 0) : PtView.Becomes root v v s s' := by
  have hFrame := hTrades.frame v.tables
  rw [zero_add] at hFrame
  refine ⟨h.congr (fun pt hpt => ?_), hFrame, le_rfl⟩
  exact hTrades.same pt (hSound.not_free hpt) (notMem_zero pt)

/- The tables of an address, from the root on. -/
def pathOf (va : Nat) : Nat → List Nat
| 0 => [PX 2 va, PX 1 va]
| 1 => [PX 2 va]
| _ => []

theorem pathOf_succ (va : Nat) (h : level < 2) :
    pathOf va level = pathOf va (level + 1) ++ [PX (level + 1) va] := by
  rcases Nat.lt_or_eq_of_le (Nat.le_of_lt_succ h) with h | rfl
  · rw [Nat.lt_one_iff.mp h]
    rfl
  · rfl

theorem length_pathOf (va : Nat) (h : level ≤ 2) : (pathOf va level).length + level = 2 := by
  rcases Nat.lt_or_eq_of_le h with h | rfl
  · rcases Nat.lt_or_eq_of_le (Nat.le_of_lt_succ h) with h | rfl
    · rw [Nat.lt_one_iff.mp h]
      rfl
    · rfl
  · rfl

section

variable (h : v.Shows root s.mem) (hAddr : ∀ pt ∈ v.tables, PageAddr pt)
include h hAddr

/- What an entry of a table above the lowest level says. -/
theorem PtView.Shows.walk_entry
    (hLevel : level < 2) (hpt : v.table (pathOf va (level + 1)) = some pt) :
    (pteHas (pteAt s.mem pt (PX (level + 1) va)) PTE_V = false ∧ v.table (pathOf va level) = none) ∨
    ∃ k, v.table (pathOf va level) = some k ∧
      pteHas (pteAt s.mem pt (PX (level + 1) va)) PTE_V = true ∧
      PTE2PA (pteAt s.mem pt (PX (level + 1) va)) = k := by
  have hLen : (pathOf va (level + 1)).length + (level + 1) = 2 :=
    length_pathOf va (Nat.succ_le_of_lt hLevel)
  rw [pathOf_succ va hLevel, h.node _ pt hpt (by omega) _ (PX_lt _ _)]
  cases hNext : v.table (pathOf va (level + 1) ++ [PX (level + 1) va]) with
  | none => exact .inl ⟨rfl, rfl⟩
  | some k =>
    right
    refine ⟨k, rfl, ?_, ?_⟩
    · change pteHas (mkPte k PTE_V) PTE_V = true
      rw [pteHas_mkPte (by decide)]
      rfl
    · exact PTE2PA_mkPte (hAddr k (h.mem_tables hNext)) (by decide)

theorem walkLoop_find {Q : Option Nat → Ram → Prop} (hQ : Q (v.table (pathOf va 0)) s) :
    ∀ {level pt : Nat}, level ≤ 2 → v.table (pathOf va level) = some pt →
        wp (walkLoop va false level pt) Q E s := by
  intro level
  induction level with
  | zero =>
    intro pt _ hpt
    unfold walkLoop
    rw [wp_pure, ← hpt]
    exact hQ
  | succ level ih =>
    intro pt hLevel hpt
    unfold walkLoop
    rw [wp_bind]
    refine loadPte_rule ?_
    rcases h.walk_entry hAddr (Nat.lt_of_succ_le hLevel) hpt
      with ⟨hInvalid, hNone⟩ | ⟨k, hSome, hValid, hEq⟩
    · rw [if_neg (by rw [hInvalid]; decide), if_neg (by decide), wp_pure]
      -- nothing is below a table that does not exist
      have hLast : v.table (pathOf va 0) = none := by
        rcases Nat.lt_or_eq_of_le (Nat.le_of_lt_succ (Nat.lt_of_succ_le hLevel)) with
          h0 | h1
        · rwa [Nat.lt_one_iff.mp h0] at hNone
        · rw [h1] at hNone
          exact h.parent _ _ hNone
      rwa [hLast] at hQ
    · rw [if_pos hValid, hEq]
      exact ih (Nat.le_of_succ_le hLevel) hSome

theorem walk_find (hva : va < MAXVA) (hNone : v.table [PX 2 va, PX 1 va] = none → Q none s)
    (hSome : ∀ pt, v.table [PX 2 va, PX 1 va] = some pt → Q (some (pt, PX 0 va)) s) :
    wp (walk root va false) Q E s := by
  unfold walk
  rw [if_neg (Nat.not_le.mpr hva), wp_bind]
  refine walkLoop_find h hAddr ?_ (Nat.le_refl 2) h.root
  cases hTable : v.table [PX 2 va, PX 1 va] with
  | none =>
    have hEq : v.table (pathOf va 0) = none := hTable
    rw [hEq]
    simp only [wp_pure]
    exact hNone hTable
  | some pt =>
    have hEq : v.table (pathOf va 0) = some pt := hTable
    rw [hEq]
    simp only [wp_pure]
    exact hSome pt hTable

end

/- A table is put in front of an address. -/
theorem PtView.Shows.grow (h : v.Shows root s.mem) (hSound : s.Sound L v.tables) {x : List Nat}
    {j k : Nat} (hx : v.table x = some pt) (hLen : x.length < 2) (hj : j < PTES)
    (hNone : v.table (x ++ [j]) = none) {s₁ s₂ s₃ : Ram}
    (hTake : s.Trades s₁ 0 {k}) (hClear : s₁.Trades s₂ {k} {k})
    (hZero : s₂.mem k = filled 0) (hStore : Stores s₂ s₃ pt j (mkPte k PTE_V)) :
    PtView.Becomes root v
      { v with
        table := update v.table (x ++ [j]) (some k) }
      s s₃ := by
  have hTaken : s.Trades s₂ 0 {k} := hTake.trans hClear
  have hTables : ({ v with
      table := update v.table (x ++ [j]) (some k)
      } : PtView).tables = v.tables + {k} := by
    refine tablesFrom_update (x := []) (z := x ++ [j]) hNone ?_ ?_
    · rw [List.length_append, List.length_singleton]
      omega
    intro i hi
    rcases List.mem_append.mp hi with hi | hi
    · exact (h.path x pt hx).2 i hi
    · rw [List.mem_singleton.mp hi]
      exact hj
  have hSound' : s₂.Sound L ({k} + v.tables) := hTaken.sound_frame (by rw [zero_add]; exact hSound)
  have hk : k ∉ v.tables := fun hMem => hSound'.not_mem hMem (mem_singleton_self k)
  have hpt : pt ∈ v.tables := h.mem_tables hx
  have hSame (q : Nat) (hq : q ∈ v.tables) : s₂.mem q = s.mem q :=
    hTaken.same q (hSound.not_free hq) (notMem_zero q)
  have hNodup : v.tables.Nodup := (nodup_add.mp hSound.nodup).2.1
  refine ⟨?_, ?_, ?_⟩
  · refine h.addTable hNodup hx hLen hj hNone ?_ hStore.new ?_ ?_
    · rw [hStore.rest k (by rintro rfl; exact hk hpt)]
      exact hZero
    · intro i hi
      rw [hStore.old i hi]
      unfold pteAt
      rw [hSame pt hpt]
    · intro q hq hne
      rw [hStore.rest q hne, hSame q hq]
  · rw [hTables]
    have hFrame := hTaken.frame v.tables
    rw [zero_add, add_comm] at hFrame
    exact hFrame.trans (hStore.trades (mem_add.mpr (.inl hpt)))
  · rw [hTables, card_add]
    exact Nat.le_add_right _ _

theorem walkLoop_alloc {Q : Option Nat → Ram → Prop} :
    ∀ {level pt : Nat} {s : Ram} {v : PtView}, v.Shows root s.mem → s.Sound L v.tables → level ≤ 2 →
      v.table (pathOf va level) = some pt →
      (∀ w s', PtView.Becomes root v w s s' → w.leaf = v.leaf → Q none s') →
      (∀ w s' pt', PtView.Becomes root v w s s' →
        w.leaf = v.leaf → w.table (pathOf va 0) = some pt' → Q (some pt') s') →
      wp (walkLoop va true level pt) Q E s := by
  intro level
  induction level with
  | zero =>
    intro pt s v h _ _ hpt _ hSome
    unfold walkLoop
    rw [wp_pure]
    exact hSome v s pt (.refl h) rfl hpt
  | succ level ih =>
    intro pt s v h hSound hLevel hpt hNone hSome
    have hLt : level < 2 := Nat.lt_of_succ_le hLevel
    have hLen : (pathOf va (level + 1)).length + (level + 1) = 2 := length_pathOf va hLevel
    unfold walkLoop
    rw [wp_bind]
    refine loadPte_rule ?_
    rcases h.walk_entry hSound.pageAddr hLt hpt with
      ⟨hInvalid, hAbsent⟩ | ⟨k, hNext, hValid, hEq⟩
    · rw [if_neg (by rw [hInvalid]; decide), if_pos rfl, wp_bind]
      refine kalloc_rule ?_ ?_
      · intro s' hTrades
        simp only [wp_pure]
        exact hNone v s' (.of_trades h hSound hTrades) rfl
      intro k s₁ hTake
      simp only [wp_bind]
      refine memset_rule (mem_singleton_self k) ?_
      intro s₂ hClear hZero
      have hArea : L.Area k :=
        ((hTake.trans hClear).sound_frame
          (by rw [zero_add]; exact hSound)).left.area_of_mem (mem_singleton_self k)
      refine storePte_rule (PX_lt _ _) (mkPte_lt hArea.pageAddr (by decide)) ?_
      intro s₃ hStore
      rw [pathOf_succ va hLt] at hAbsent
      have hGrow := h.grow hSound hpt (by omega) (PX_lt _ _) hAbsent hTake hClear hZero hStore
      refine ih hGrow.shows (hGrow.trades.sound hSound) (Nat.le_of_succ_le hLevel) ?_ ?_ ?_
      · rw [pathOf_succ va hLt]
        exact update_self ..
      · intro w s' hBecomes hLeaf
        exact hNone w s' (hGrow.trans hBecomes) hLeaf
      · intro w s' pt' hBecomes hLeaf hPt'
        exact hSome w s' pt' (hGrow.trans hBecomes) hLeaf hPt'
    · rw [if_pos hValid, hEq]
      exact ih h hSound (Nat.le_of_succ_le hLevel) hNext hNone hSome

theorem walk_alloc (h : v.Shows root s.mem) (hSound : s.Sound L v.tables) (hva : va < MAXVA)
    (hNone : ∀ w s', PtView.Becomes root v w s s' → w.leaf = v.leaf → Q none s')
    (hSome : ∀ w s' pt, PtView.Becomes root v w s s' →
      w.leaf = v.leaf → w.table [PX 2 va, PX 1 va] = some pt → Q (some (pt, PX 0 va)) s') :
    wp (walk root va true) Q E s := by
  unfold walk
  rw [if_neg (Nat.not_le.mpr hva), wp_bind]
  refine walkLoop_alloc h hSound (Nat.le_refl 2) h.root ?_ ?_
  · intro w s' hBecomes hLeaf
    simp only [wp_pure]
    exact hNone w s' hBecomes hLeaf
  · intro w s' pt hBecomes hLeaf hPt
    simp only [wp_pure]
    exact hSome w s' pt hBecomes hLeaf hPt

-------
-- Mapping
-------

variable {pt va : Nat}

/- The entry of a page, in the table that is in charge. -/
theorem PtView.Shows.entry (h : v.Shows root s.mem) (hva : va < MAXVA)
    (hpt : v.table [PX 2 va, PX 1 va] = some pt) :
    pteAt s.mem pt (PX 0 va) = leafPte (v.leaf (va / PGSIZE)) := by
  rw [h.low _ _ pt hpt _ (PX_lt _ _), vpn_PX hva]

/- A page that is mapped has a table in charge. -/
theorem PtView.Shows.table_of_leaf (h : v.Shows root s.mem) (hva : va < MAXVA)
    (hLeaf : v.leaf (va / PGSIZE) ≠ none) : ∃ pt, v.table [PX 2 va, PX 1 va] = some pt := by
  cases hpt : v.table [PX 2 va, PX 1 va] with
  | some pt => exact ⟨pt, rfl⟩
  | none =>
    have hNone := h.absent _ _ (PX_lt _ _) hpt _ (PX_lt 0 va)
    rw [vpn_PX hva] at hNone
    exact absurd hNone hLeaf

/- One entry of the table in charge is stored. -/
theorem PtView.Shows.store (h : v.Shows root s.mem) (hSound : s.Sound L v.tables) (hva : va < MAXVA)
    (hpt : v.table [PX 2 va, PX 1 va] = some pt) {e : Option (Nat × Nat)}
    (hAddr : ∀ pa flags, e = some (pa, flags) → PageAddr pa ∧ PtView.LeafFlags flags)
    (hStore : Stores s s' pt (PX 0 va) (leafPte e)) :
    PtView.Becomes root v
      { v with leaf := update v.leaf (va / PGSIZE) e }
      s s' := by
  have hNodup : v.tables.Nodup := (nodup_add.mp hSound.nodup).2.1
  refine ⟨?_, ?_, le_rfl⟩
  · rw [← vpn_PX hva]
    exact h.setLeaf hNodup hpt (PX_lt _ _) hAddr hStore.new
      hStore.old (fun q _ hq => hStore.rest q hq)
  · exact hStore.trades (h.mem_tables hpt)

theorem leafPte_some (pa flags : Nat) : leafPte (some (pa, flags)) = mkPte pa flags := rfl

theorem pteHas_leafPte_none {flag : Nat} : pteHas (leafPte none) flag = false := by
  unfold pteHas leafPte
  simp

/- The entry of a page that is mapped is found. -/
theorem walk_leaf (h : v.Shows root s.mem) (hSound : s.Sound L v.tables) {i pa flags : Nat}
    (hi : i * PGSIZE < MAXVA) (hLeaf : v.leaf i = some (pa, flags))
    (hQ : ∀ pt, v.table [PX 2 (i * PGSIZE), PX 1 (i * PGSIZE)] = some pt →
      pteAt s.mem pt (PX 0 (i * PGSIZE)) = mkPte pa flags → Q (some (pt, PX 0 (i * PGSIZE))) s) :
    wp (walk root (i * PGSIZE) false) Q E s := by
  have hHere : v.leaf (i * PGSIZE / PGSIZE) = some (pa, flags) := by
    rw [Nat.mul_div_cancel i (by decide), hLeaf]
  refine walk_find h hSound.pageAddr hi ?_ ?_
  · intro hNone
    obtain ⟨pt, hpt⟩ := h.table_of_leaf hi (by rw [hHere]; simp)
    rw [hpt] at hNone
    cases hNone
  · intro pt hpt
    refine hQ pt hpt ?_
    rw [h.entry hi hpt, hHere, leafPte_some]

/- The address of the next page. -/
theorem add64_page {a : Nat} (h : a * PGSIZE < MAXVA) :
    add64 (a * PGSIZE) PGSIZE = (a + 1) * PGSIZE := by
  unfold add64
  simp only [PGSIZE, MAXVA] at h ⊢
  omega

/- Pages `a`, ..., `a + n - 1` are mapped from `pa` on. -/
def mapped (leaf : Nat → Option (Nat × Nat)) (a n pa flags : Nat) : Nat → Option (Nat × Nat) :=
  fun i =>
    if a ≤ i ∧ i < a + n then some (add64 pa ((i - a) * PGSIZE), flags)
    else leaf i

variable {leaf : Nat → Option (Nat × Nat)} {a k n pa flags perm : Nat}

theorem mapped_zero (leaf : Nat → Option (Nat × Nat)) (a pa flags : Nat) :
    mapped leaf a 0 pa flags = leaf := by
  funext i
  exact if_neg (by omega)

theorem mapped_succ (hPa : pa < 2 ^ 64) :
    mapped (update leaf a (some (pa, flags))) (a + 1) n (add64 pa PGSIZE) flags =
      mapped leaf a (n + 1) pa flags := by
  funext i
  unfold mapped
  by_cases hi : i = a
  · subst hi
    rw [if_neg (by omega), if_pos (by omega), update_self, Nat.sub_self]
    unfold add64
    rw [Nat.zero_mul, Nat.add_zero, Nat.mod_eq_of_lt hPa]
  rw [update_of_ne hi]
  by_cases hIn : a ≤ i ∧ i < a + (n + 1)
  · rw [if_pos hIn, if_pos (by omega)]
    have hSum : add64 (add64 pa PGSIZE) ((i - (a + 1)) * PGSIZE) = add64 pa ((i - a) * PGSIZE) := by
      unfold add64
      simp only [PGSIZE]
      omega
    rw [hSum]
  · rw [if_neg hIn, if_neg (by omega)]

theorem PageAddr.next (h : PageAddr pa) : PageAddr (add64 pa PGSIZE) := by
  unfold PageAddr add64 at *
  simp only [PGSIZE] at *
  omega

section

variable (hPerm : PtView.LeafFlags (perm ||| PTE_V)) (h : v.Shows root s.mem)
variable (hSound : s.Sound L v.tables)
include hPerm h hSound

variable {Q : Bool → Ram → Prop}

/- A part of the pages is mapped when there is no memory. -/
theorem mappagesLoop_rule (hk : n < k) (hMax : (a + n) * PGSIZE < MAXVA)
    (hNone : ∀ i, a ≤ i → i ≤ a + n → v.leaf i = none) (hPa : PageAddr pa)
    (hFalse : ∀ w s' m, m ≤ n → PtView.Becomes root v w s s' →
      w.leaf = mapped v.leaf a m pa (perm ||| PTE_V) → Q false s')
    (hTrue : ∀ w s', PtView.Becomes root v w s s' →
      w.leaf = mapped v.leaf a (n + 1) pa (perm ||| PTE_V) → Q true s') :
    wp (mappagesLoop root ((a + n) * PGSIZE) perm k (a * PGSIZE) pa) Q E s := by
  induction k generalizing n a pa s v with
  | zero => cases hk
  | succ k ih =>
    have hDiv : a * PGSIZE / PGSIZE = a := Nat.mul_div_cancel a (by decide)
    have hn : a * PGSIZE < MAXVA :=
      (Nat.mul_le_mul_right PGSIZE (Nat.le_add_right a n)).trans_lt hMax
    unfold mappagesLoop
    rw [wp_bind]
    refine walk_alloc h hSound hn ?_ ?_
    · intro w s' hBecomes hLeaf
      simp only [wp_pure]
      refine hFalse w s' 0 (Nat.zero_le n) hBecomes ?_
      rw [mapped_zero, hLeaf]
    intro w s₁ pt hBecomes hLeaf hpt
    simp only [wp_bind]
    refine loadPte_rule ?_
    have hSound₁ := hBecomes.trades.sound hSound
    rw [hBecomes.shows.entry hn hpt, hDiv, hLeaf,
      hNone a le_rfl (Nat.le_add_right a n),
      if_neg (by decide)]
    simp only [wp_bind]
    have hEq : PA2PTE pa ||| perm ||| PTE_V = leafPte (some (pa, perm ||| PTE_V)) := by
      unfold leafPte mkPte
      rw [Nat.or_assoc]
    rw [hEq]
    have hAddr : ∀ pa' flags, some (pa, perm ||| PTE_V) = some (pa', flags) →
          PageAddr pa' ∧ PtView.LeafFlags flags := by
      rintro _ _ ⟨⟩
      exact ⟨hPa, hPerm⟩
    refine storePte_rule (PX_lt _ _) (leafPte_lt hAddr) ?_
    intro s₂ hStore
    have hStored := hBecomes.shows.store hSound₁ hn hpt hAddr hStore
    rw [hDiv, hLeaf] at hStored
    have hAll := hBecomes.trans hStored
    cases n with
    | zero =>
      rw [Nat.add_zero, if_pos rfl, wp_pure]
      refine hTrue _ s₂ hAll ?_
      rw [← mapped_succ hPa.2, mapped_zero]
    | succ n =>
      rw [if_neg (by simp only [PGSIZE]; omega)]
      rw [add64_page hn, show a + (n + 1) = a + 1 + n by omega]
      refine ih hAll.shows (hAll.trades.sound hSound) (by omega)
        (by rw [show a + 1 + n = a + (n + 1) by omega]; exact hMax)
        (fun i hLow hHigh => ?_) hPa.next
        (fun u s' m hm hNew hu => ?_) (fun u s' hNew hu => ?_)
      · dsimp only
        rw [update_of_ne (by omega)]
        exact hNone i (by omega) (by omega)
      · refine hFalse u s' (m + 1) (by omega) (hAll.trans hNew) ?_
        rw [hu, mapped_succ hPa.2]
      · refine hTrue u s' (hAll.trans hNew) ?_
        rw [hu, mapped_succ hPa.2]

/- The pages that a range of addresses meets. -/
theorem mappages_range {size : Nat} (hSize : 0 < size)
    (hMax : va + size ≤ MAXVA) (hn : va / PGSIZE + n = (va + size - 1) / PGSIZE)
    (hNone : ∀ i, va / PGSIZE ≤ i → i ≤ va / PGSIZE + n → v.leaf i = none)
    (hPa : PageAddr pa)
    (hFalse : ∀ w s' m, m ≤ n → PtView.Becomes root v w s s' →
      w.leaf = mapped v.leaf (va / PGSIZE) m pa (perm ||| PTE_V) → Q false s')
    (hTrue : ∀ w s', PtView.Becomes root v w s s' →
      w.leaf = mapped v.leaf (va / PGSIZE) (n + 1) pa (perm ||| PTE_V) → Q true s') :
    wp (mappages root va size pa perm) Q E s := by
  have hLast : PGROUNDDOWN (add64 va (size - 1)) = (va / PGSIZE + n) * PGSIZE := by
    rw [hn]
    unfold PGROUNDDOWN add64
    simp only [MAXVA] at hMax
    rw [Nat.mod_eq_of_lt (by omega), Nat.add_sub_assoc hSize]
  unfold mappages
  rw [if_neg (Nat.pos_iff_ne_zero.mp hSize), hLast]
  refine mappagesLoop_rule hPerm h hSound ?_ ?_ hNone hPa hFalse hTrue
  · simp only [PGSIZE] at hn ⊢
    omega
  · rw [hn]
    simp only [PGSIZE] at hMax ⊢
    omega

end

/- One page is mapped. -/
theorem mappages_rule (h : v.Shows root s.mem) (hSound : s.Sound L v.tables)
    (hn : n * PGSIZE < MAXVA) (hNone : v.leaf n = none) (hPa : PageAddr pa)
    (hPerm : PtView.LeafFlags (perm ||| PTE_V)) {Q : Bool → Ram → Prop}
    (hFalse : ∀ w s', PtView.Becomes root v w s s' → w.leaf = v.leaf → Q false s')
    (hTrue : ∀ w s', PtView.Becomes root v w s s' → w.leaf = update v.leaf n
        (some (pa, perm ||| PTE_V)) → Q true s') :
    wp (mappages root (n * PGSIZE) PGSIZE pa perm) Q E s := by
  have hDiv : n * PGSIZE / PGSIZE = n := Nat.mul_div_cancel n (by decide)
  refine mappages_range (n := 0) hPerm h hSound (Nat.succ_pos 4095) ?_ ?_ ?_ hPa ?_ ?_
  · simp only [PGSIZE, MAXVA] at hn ⊢
    omega
  · simp only [PGSIZE]
    omega
  · rw [hDiv]
    intro i hLow hHigh
    cases Nat.le_antisymm hHigh hLow
    exact hNone
  · intro w s' m hm hBecomes hLeaf
    cases Nat.le_zero.mp hm
    rw [mapped_zero] at hLeaf
    exact hFalse w s' hBecomes hLeaf
  · intro w s' hBecomes hLeaf
    rw [hDiv, ← mapped_succ hPa.2, mapped_zero] at hLeaf
    exact hTrue w s' hBecomes hLeaf

-------
-- Unmapping
-------

variable {a n : Nat}

/- The pages that are mapped at `a`, ..., `a + n - 1`. -/
def PtView.pages (v : PtView) (a n : Nat) : Multiset Nat :=
  ∑ i ∈ Finset.Ico a (a + n), Pool.cell ((v.leaf i).map Prod.fst)

/- The mappings of such pages are removed. -/
def unmapped (leaf : Nat → Option (Nat × Nat)) (a n : Nat) : Nat → Option (Nat × Nat) :=
  fun i => if a ≤ i ∧ i < a + n then none else leaf i

variable {Q : Unit → Ram → Prop}

theorem PtView.pages_congr (h : ∀ i, a ≤ i → i < a + n → w.leaf i = v.leaf i) :
    w.pages a n = v.pages a n := by
  refine Finset.sum_congr rfl (fun i hi => ?_)
  obtain ⟨hLe, hLt⟩ := Finset.mem_Ico.mp hi
  rw [h i hLe hLt]

@[simp] theorem PtView.pages_zero (v : PtView) (a : Nat) : v.pages a 0 = 0 := by
  unfold PtView.pages
  rw [Nat.add_zero, Finset.Ico_self, Finset.sum_empty]

theorem PtView.pages_succ (v : PtView) (a n : Nat) :
    v.pages a (n + 1) = Pool.cell ((v.leaf a).map Prod.fst) + v.pages (a + 1) n := by
  unfold PtView.pages
  rw [Finset.sum_eq_sum_Ico_succ_bot (by omega), show a + (n + 1) = a + 1 + n by omega]

theorem PtView.pages_last (v : PtView) (a n : Nat) :
    v.pages a (n + 1) = v.pages a n + Pool.cell ((v.leaf (a + n)).map Prod.fst) := by
  unfold PtView.pages
  rw [← Nat.add_assoc, Finset.sum_Ico_succ_top (by omega)]

theorem unmapped_zero (leaf : Nat → Option (Nat × Nat)) (a : Nat) : unmapped leaf a 0 = leaf := by
  funext i
  exact if_neg (by omega)

theorem unmapped_succ (leaf : Nat → Option (Nat × Nat)) (a n : Nat) :
    unmapped (update leaf a none) (a + 1) n = unmapped leaf a (n + 1) := by
  funext i
  unfold unmapped
  by_cases hi : i = a
  · rw [if_neg (by omega), if_pos (by omega), hi, update_self]
  · rw [update_of_ne hi]
    by_cases hIn : a + 1 ≤ i ∧ i < a + 1 + n
    · rw [if_pos hIn, if_pos (by omega)]
    · rw [if_neg hIn, if_neg (by omega)]

/- The entry of a page says that it is one. -/
theorem PtView.LeafFlags.ne_valid {flags : Nat} (h : PtView.LeafFlags flags) : flags ≠ PTE_V := by
  rintro rfl
  exact absurd h.2.2 (by decide)

theorem uvmunmapLoop_rule {doFree : Bool} :
    ∀ {n a : Nat} {s : Ram} {v : PtView}, v.Shows root s.mem → s.Sound L
        (v.tables + if doFree then v.pages a n else 0) →
      (a + n) * PGSIZE ≤ MAXVA →
      (∀ i, a ≤ i → i < a + n → v.leaf i ≠ none) →
      (∀ (w : PtView) s', w.Shows root s'.mem → w.tables = v.tables → w.leaf = unmapped v.leaf a n →
        s.Trades s' (v.tables + if doFree then v.pages a n else 0) w.tables → Q () s') →
      wp (uvmunmapLoop L root ((a + n) * PGSIZE) doFree n (a * PGSIZE)) Q E s := by
  intro n
  induction n with
  | zero =>
    intro a s v h hSound _ _ hQ
    unfold uvmunmapLoop
    rw [Nat.add_zero, if_neg (Nat.lt_irrefl _), wp_pure]
    refine hQ v s h rfl (unmapped_zero _ _).symm ?_
    rw [v.pages_zero, ite_self, add_zero]
    exact .refl _ _
  | succ n ih =>
    intro a s v h hSound hMax hMapped hQ
    have hva : a * PGSIZE < MAXVA := by
      refine lt_of_lt_of_le ?_ hMax
      exact Nat.mul_lt_mul_of_pos_right (by omega) (by decide)
    have hDiv : a * PGSIZE / PGSIZE = a := Nat.mul_div_cancel a (by decide)
    obtain ⟨⟨pa, flags⟩, hLeaf⟩ := Option.ne_none_iff_exists'.mp (hMapped a le_rfl (by omega))
    obtain ⟨_, hPa, hFlags⟩ := h.addr a pa flags hLeaf
    unfold uvmunmapLoop
    rw [if_pos (Nat.mul_lt_mul_of_pos_right (by omega) (by decide))]
    rw [wp_bind]
    refine walk_leaf h hSound.left hva hLeaf ?_
    intro pt hpt hEntry
    simp only [wp_bind]
    refine loadPte_rule ?_
    rw [hEntry, pteHas_mkPte (by decide), PTE_FLAGS_mkPte hFlags.1, PTE2PA_mkPte hPa hFlags.1,
      if_neg (by rw [hFlags.2.1]; decide), if_neg hFlags.ne_valid]
    rw [add64_page hva, show a + (n + 1) = a + 1 + n by omega]
    -- the rest of the loop, after the entry was cleared
    have hRest (s₁ s₂ : Ram) (hShows : v.Shows root s₁.mem)
        (hSound₁ : s₁.Sound L (v.tables + if doFree then v.pages (a + 1) n else 0))
        (hTrades : s.Trades s₁ (v.tables +
            if doFree then v.pages a (n + 1) else 0)
          (v.tables +
            if doFree then v.pages (a + 1) n else 0))
        (hStore : Stores s₁ s₂ pt (PX 0 (a * PGSIZE)) 0) :
        wp (uvmunmapLoop L root ((a + 1 + n) * PGSIZE)
          doFree n ((a + 1) * PGSIZE)) Q E s₂ := by
      have hBecomes := hShows.store hSound₁.left hva hpt (e := none) (by simp) hStore
      rw [hDiv] at hBecomes
      have hPages : ({ v with
          leaf := update v.leaf a none
          } : PtView).pages (a + 1) n = v.pages (a + 1) n :=
        PtView.pages_congr (fun i hi _ => update_of_ne (by omega) ..)
      have hStep := hTrades.trans (hBecomes.trades.frame (if doFree then v.pages (a + 1) n else 0))
      refine ih hBecomes.shows ?_ ?_ ?_ ?_
      · rw [hPages]
        exact hStep.sound hSound
      · rw [show a + 1 + n = a + (n + 1) by omega]
        exact hMax
      · intro i hi hLt
        dsimp only
        rw [update_of_ne (by omega)]
        exact hMapped i (by omega) (by omega)
      · intro w s' hw hTables hwLeaf hwTrades
        rw [hPages] at hwTrades
        refine hQ w s' hw hTables ?_ (hStep.trans hwTrades)
        rw [hwLeaf]
        exact unmapped_succ _ _ _
    cases doFree with
    | false =>
      simp only [Bool.false_eq_true, if_false, wp_bind] at hSound hRest ⊢
      refine storePte_rule (PX_lt _ _) (Nat.pow_pos (by decide)) (fun s₂ hStore => ?_)
      exact hRest s s₂ h hSound (.refl _ _) hStore
    | true =>
      simp only [if_true, wp_bind] at hSound hRest ⊢
      rw [v.pages_succ, hLeaf] at hSound hRest
      have hPaArea : L.Area pa := hSound.right.left.area_of_mem (mem_singleton_self pa)
      refine kfree_rule hPaArea (fun s₁ hGive => ?_)
      refine storePte_rule (PX_lt _ _) (Nat.pow_pos (by decide)) (fun s₂ hStore => ?_)
      have hFrame := hGive.frame (v.tables + v.pages (a + 1) n)
      rw [zero_add, show {pa} + (v.tables + v.pages (a + 1) n) =
          v.tables + ({pa} + v.pages (a + 1) n) by abel]
        at hFrame
      refine hRest s₁ s₂ ?_ (hFrame.sound hSound) hFrame hStore
      refine h.congr (fun q hq => hGive.same q (hSound.left.not_free hq) ?_)
      intro hqp
      rw [add_comm] at hSound
      refine hSound.not_mem hq ?_
      exact mem_add.mpr (.inl hqp)

theorem uvmunmap_rule (doFree : Bool) (h : v.Shows root s.mem)
    (hSound : s.Sound L (v.tables + if doFree then v.pages a n else 0))
    (hMax : (a + n) * PGSIZE ≤ MAXVA)
    (hMapped : ∀ i, a ≤ i → i < a + n → v.leaf i ≠ none)
    (hQ : ∀ (w : PtView) s', w.Shows root s'.mem →
      w.tables = v.tables → w.leaf = unmapped v.leaf a n →
      s.Trades s' (v.tables + if doFree then v.pages a n else 0) w.tables → Q () s') :
    wp (uvmunmap L root (a * PGSIZE) n doFree) Q E s := by
  unfold uvmunmap
  rw [if_neg (by simp)]
  have hLast : add64 (a * PGSIZE) (mul64 n PGSIZE) = (a + n) * PGSIZE := by
    unfold add64 mul64
    simp only [PGSIZE, MAXVA] at *
    omega
  rw [hLast]
  exact uvmunmapLoop_rule h hSound hMax hMapped hQ

-------
-- Freeing Tables
-------

variable {v : PtView} {E : VmFault → Ram → Prop} {table : List Nat → Option Nat} {d i : Nat}
variable {x : List Nat} {Q : Unit → Ram → Prop}

/-
  The tables at a path and below it, `d` levels deep, when no
  page is mapped.
-/
def EmptyFrom (table : List Nat → Option Nat) (mem : Nat → Page) (d : Nat) (x : List Nat) : Prop :=
  ∀ z pt, table (x ++ z) = some pt → z.length ≤ d →
    (∀ j ∈ z, j < PTES) → ∀ j < PTES, pteAt mem pt j =
        if z.length < d then nodePte (table (x ++ z ++ [j]))
        else 0

theorem EmptyFrom.congr {mem mem' : Nat → Page} (h : EmptyFrom table mem d x)
    (hSame : ∀ pt ∈ tablesFrom table d x, mem' pt = mem pt) : EmptyFrom table mem' d x := by
  intro z pt hz hLen hLt j hj
  unfold pteAt
  rw [hSame pt (mem_tablesFrom hz hLen hLt)]
  exact h z pt hz hLen hLt j hj

theorem EmptyFrom.child {mem : Nat → Page} (h : EmptyFrom table mem (d + 1) x) (hi : i < PTES) :
    EmptyFrom table mem d (x ++ [i]) := by
  intro z pt hz hLen hLt j hj
  have hEq : x ++ [i] ++ z = x ++ i :: z := by simp
  rw [hEq] at hz ⊢
  have hAll : ∀ j ∈ i :: z, j < PTES := by
    intro j hj
    rcases List.mem_cons.mp hj with rfl | hj
    · exact hi
    · exact hLt j hj
  rw [h (i :: z) pt hz (by simpa using hLen) hAll j hj]
  simp

/- There is nothing below a table that does not exist. -/
theorem tablesFrom_none (hParent : ∀ x j, table x = none → table (x ++ [j]) = none) :
    ∀ {d : Nat} {x : List Nat}, table x = none → tablesFrom table d x = 0 := by
  intro d
  induction d with
  | zero =>
    intro x hx
    rw [tablesFrom, hx]
    rfl
  | succ d ih =>
    intro x hx
    rw [tablesFrom, hx]
    refine (zero_add _).trans ?_
    exact Finset.sum_eq_zero (fun j _ => ih (hParent x j hx))

/- What is left of the children of a table, from `i` on. -/
def childrenFrom (table : List Nat → Option Nat) (d : Nat) (x : List Nat)
    (i : Nat) : Multiset Nat :=
  ∑ j ∈ Finset.Ico i PTES, tablesFrom table d (x ++ [j])

theorem childrenFrom_step (table : List Nat → Option Nat) (d : Nat) (x : List Nat) (hi : i < PTES) :
    childrenFrom table d x i = tablesFrom table d (x ++ [i]) + childrenFrom table d x (i + 1) :=
  Finset.sum_eq_sum_Ico_succ_bot hi _

theorem le_childrenFrom (table : List Nat → Option Nat) (d : Nat) (x : List Nat) {j : Nat}
    (hij : i ≤ j) (hj : j < PTES) : tablesFrom table d (x ++ [j]) ≤ childrenFrom table d x i :=
  Finset.single_le_sum (fun _ _ => zero_le _)
    (Finset.mem_Ico.mpr ⟨hij, hj⟩)

/- The body of the loop, for one entry. -/
def freewalkEntry (L : MemLayout) (n pagetable i : Nat) : VmM Unit := do
  let pte ← loadPte pagetable i
  if pteHas pte PTE_V = true ∧ pteHas pte (PTE_R ||| PTE_W ||| PTE_X) = false then do
    freewalk L n (PTE2PA pte)
    storePte pagetable i 0
  else if pteHas pte PTE_V then
    Prog.stop .freewalkLeaf

theorem freewalk_succ (L : MemLayout) (n pagetable : Nat) :
    freewalk L (n + 1) pagetable = (do
        Prog.forFrom (freewalkEntry L n pagetable) 0 512
        kfree L pagetable) :=
  rfl

theorem freewalkEntry_zero {n pt : Nat} (h : pteAt s.mem pt i = 0) (hQ : Q () s) :
    wp (freewalkEntry L n pt i) Q E s := by
  unfold freewalkEntry
  rw [wp_bind]
  refine loadPte_rule ?_
  have hZero : pteHas 0 PTE_V = false := rfl
  rw [h, if_neg (by rw [hZero]; simp), if_neg (by rw [hZero]; simp), wp_pure]
  exact hQ

theorem freewalk_from (hParent : ∀ x j, table x = none → table (x ++ [j]) = none) :
    ∀ {d : Nat} {x : List Nat} {pt : Nat} {s : Ram} {Q : Unit → Ram → Prop},
      table x = some pt → EmptyFrom table s.mem d x →
      s.Sound L (tablesFrom table d x) →
      (∀ s', s.Trades s' (tablesFrom table d x) 0 → Q () s') →
      wp (freewalk L (d + 1) pt) Q E s := by
  intro d
  induction d with
  | zero =>
    intro x pt s Q hx hEmpty hSound hQ
    have hCell : tablesFrom table 0 x = {pt} := by
      rw [tablesFrom, hx]
      rfl
    rw [hCell] at hSound hQ
    rw [freewalk_succ, wp_bind]
    have hLoop := Prog.wp_forFrom (E := E) (freewalkEntry L 0 pt) (fun _ s' => s' = s) 0 512 (by
        rintro i _ _ hi rfl
        refine freewalkEntry_zero ?_ rfl
        have hZero := hEmpty [] pt (by rw [List.append_nil]; exact hx) le_rfl (by simp) i
          (by rw [PTES_eq]; omega)
        exact hZero) rfl
    refine wp_imp hLoop ?_
    rintro _ _ rfl
    exact kfree_rule (hSound.area_of_mem (mem_singleton_self pt)) hQ
  | succ d ih =>
    intro x pt s Q hx hEmpty hSound hQ
    have hCells : tablesFrom table (d + 1) x = childrenFrom table d x 0 + {pt} := by
      rw [tablesFrom, hx, add_comm, Finset.range_eq_Ico]
      rfl
    rw [hCells] at hSound hQ
    have hpt (j : Nat) (hj : j < PTES) : pteAt s.mem pt j = nodePte (table (x ++ [j])) := by
      have hEq := hEmpty [] pt (by rw [List.append_nil]; exact hx) (Nat.zero_le _) (by simp) j hj
      rw [List.append_nil] at hEq
      exact hEq
    rw [freewalk_succ, wp_bind]
    have hLoop := Prog.wp_forFrom (E := E) (freewalkEntry L (d + 1) pt) (fun i s' =>
        s.Trades s' (childrenFrom table d x 0 + {pt}) (childrenFrom table d x i + {pt}) ∧
        ∀ j, i ≤ j → j < PTES → pteAt s'.mem pt j = nodePte (table (x ++ [j])) ∧
          ∀ q ∈ tablesFrom table d (x ++ [j]), s'.mem q = s.mem q)
      0 512 ?_ ⟨.refl _ _, fun j _ hj => ⟨hpt j hj, fun _ _ => rfl⟩⟩
    · refine wp_imp hLoop ?_
      rintro _ s₁ ⟨hTrades, -⟩
      have hNone : childrenFrom table d x (0 + 512) = 0 := by
        rw [childrenFrom, PTES_eq, Finset.Ico_self, Finset.sum_empty]
      rw [hNone] at hTrades
      have hArea := (hTrades.sound hSound).area_of_mem (mem_singleton_self pt)
      refine kfree_rule hArea (fun s₂ hGive => ?_)
      exact hQ s₂ (hTrades.trans hGive)
    intro i s₁ _ hi hInv
    obtain ⟨hTrades, hLater⟩ := hInv
    have hLt : i < PTES := by rw [PTES_eq]; omega
    have hSound₁ := hTrades.sound hSound
    rw [childrenFrom_step table d x hLt] at hTrades hSound₁
    cases hNext : table (x ++ [i]) with
    | none =>
      refine freewalkEntry_zero ?_ ?_
      · rw [(hLater i le_rfl hLt).1, hNext]
        rfl
      · rw [tablesFrom_none hParent hNext, zero_add]
          at hTrades
        exact ⟨hTrades, fun j hj => hLater j (Nat.le_of_succ_le hj)⟩
    | some k =>
      rw [add_assoc] at hTrades hSound₁
      have hk : k ∈ tablesFrom table d (x ++ [i]) :=
        mem_tablesFrom (by rw [List.append_nil]; exact hNext) (Nat.zero_le _) (by simp)
      have hAddr := (hSound₁.left.area_of_mem hk).pageAddr
      unfold freewalkEntry
      rw [wp_bind]
      refine loadPte_rule ?_
      have hPte : pteAt s₁.mem pt i = mkPte k PTE_V := by
        rw [(hLater i le_rfl hLt).1, hNext]
        rfl
      rw [hPte, pteHas_mkPte (by decide), pteHas_mkPte (by decide), PTE2PA_mkPte hAddr (by decide),
        if_pos (by decide), wp_bind]
      refine ih hNext ((hEmpty.child hLt).congr (hLater i le_rfl hLt).2) hSound₁.left ?_
      intro s₂ hFree
      refine storePte_rule hLt (Nat.pow_pos (by decide)) ?_
      intro s₃ hStore
      have hFrame := hFree.frame (childrenFrom table d x (i + 1) + {pt})
      rw [zero_add] at hFrame
      have hMem : pt ∈ childrenFrom table d x (i + 1) + {pt} :=
        mem_add.mpr (.inr (mem_singleton_self pt))
      refine ⟨hTrades.trans (hFrame.trans (hStore.trades hMem)), ?_⟩
      intro j hj hjLt
      obtain ⟨hOld, hBelow⟩ := hLater j (Nat.le_of_succ_le hj) hjLt
      refine ⟨?_, fun q hq => ?_⟩
      · rw [hStore.old j (by omega), ← hOld]
        unfold pteAt
        rw [hFree.kept hSound₁ hMem]
      have hqMem : q ∈ childrenFrom table d x (i + 1) :=
        mem_of_le (le_childrenFrom table d x hj hjLt) hq
      have hne : q ≠ pt := by
        rintro rfl
        exact hSound₁.right.not_mem (mem_singleton_self q) hqMem
      rw [hStore.rest q hne, ← hBelow q hq]
      exact hFree.kept hSound₁ (mem_add.mpr (.inl hqMem))

theorem freewalk_rule (h : v.Shows root s.mem) (hSound : s.Sound L v.tables)
    (hEmpty : ∀ n, v.leaf n = none)
    (hQ : ∀ s', s.Trades s' v.tables 0 → Q () s') : wp (freewalk L 3 root) Q E s := by
  refine freewalk_from h.parent h.root ?_ hSound hQ
  intro z pt hz hLen hLt j hj
  split
  · next hShort => exact h.node z pt hz hShort j hj
  next hLong =>
    -- a table of the lowest level
    have hTwo : z.length = 2 := by omega
    obtain ⟨i, i', rfl⟩ := List.length_eq_two.mp hTwo
    rw [h.low i i' pt hz j hj, hEmpty]
    rfl

end Xv6
