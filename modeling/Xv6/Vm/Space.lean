import Xv6.Vm.TableSpec

/-
  Address spaces: what the functions of `vm.c` and `proc.c`
  that grow, shrink, copy and free user memory do.

  A process of size `sz` has the pages below `npages sz`, the
  trapframe and the trampoline. Physical memory is so small
  that its pages never reach the trapframe.

  Key definitions include:
    * `npages`
    * `PtView.Space`

  The rules are:
    * `uvmalloc_rule`, `uvmdealloc_rule`
    * `uvmcopy_rule`
    * `procPagetable_rule`
    * `procFreepagetable_rule`
    * `walkaddr_rule`, `copyout_rule`
-/

open Prog (wp wp_bind wp_edit wp_pure wp_read)

open Function Xv6.PtView Multiset

-------
-- Counting Pages
-------

namespace Xv6

variable {L : MemLayout} {s s' : Ram} {a flags i n pa sz : Nat} {v : PtView}

/- The number of pages of a process of some size. -/
def npages (sz : Nat) : Nat := (sz + (PGSIZE - 1)) / PGSIZE

/- All pages of physical memory. -/
abbrev NPAGES : Nat := (PHYSTOP - KERNBASE) / PGSIZE

theorem PGROUNDUP_eq (h : sz ≤ MAXVA) : PGROUNDUP sz = npages sz * PGSIZE := by
  unfold PGROUNDUP npages add64
  simp only [PGSIZE, MAXVA] at *
  rw [Nat.mod_eq_of_lt (by omega)]

theorem npages_mul (n : Nat) : npages (n * PGSIZE) = n := by
  unfold npages
  simp only [PGSIZE]
  omega

theorem le_npages_mul (sz : Nat) : sz ≤ npages sz * PGSIZE := by
  unfold npages
  simp only [PGSIZE]
  omega

theorem npages_mono {sz' : Nat} (h : sz ≤ sz') : npages sz ≤ npages sz' := by
  exact Nat.div_le_div_right (Nat.add_le_add_right h _)

/- Pages are counted by their addresses. -/
theorem Ram.Sound.card_le {M : Multiset Nat} (h : s.Sound L M) :
    s.free.length + M.card ≤ NPAGES := by
  have hCard : ((s.free : Multiset Nat) + M).card = s.free.length + M.card := by
    rw [card_add, coe_card]
  rw [← hCard]
  have hInj : (((s.free : Multiset Nat) + M).map (fun pa => (pa - KERNBASE) / PGSIZE)).Nodup := by
    refine Multiset.Nodup.map_on ?_ h.nodup
    intro x hx y hy hEq
    have hxArea := h.area x hx
    have hyArea := h.area y hy
    unfold MemLayout.Area at hxArea hyArea
    have hBase := L.kernbase_le
    simp only [PGSIZE] at *
    omega
  have hLe := Finset.card_le_card (s := ⟨_, hInj⟩) (t := Finset.range NPAGES) (by
      intro i hi
      obtain ⟨x, hx, rfl⟩ := mem_map.mp (Finset.mem_mk.mp hi)
      have hxArea := h.area x hx
      unfold MemLayout.Area at hxArea
      rw [Finset.mem_range]
      simp only [NPAGES, PHYSTOP, PGSIZE] at *
      omega)
  rw [Finset.card_mk, card_map, Finset.card_range] at hLe
  exact hLe

/- A range of pages that are all mapped. -/
theorem PtView.card_pages (h : ∀ i, a ≤ i → i < a + n → v.leaf i ≠ none) :
    (v.pages a n).card = n := by
  unfold pages
  rw [card_sum]
  have hOne : ∀ i ∈ Finset.Ico a (a + n), (Pool.cell ((v.leaf i).map Prod.fst)).card = 1 := by
    intro i hi
    obtain ⟨hLe, hLt⟩ := Finset.mem_Ico.mp hi
    obtain ⟨e, he⟩ := Option.ne_none_iff_exists'.mp (h i hLe hLt)
    rw [he]
    rfl
  rw [Finset.sum_congr rfl hOne]
  simp

theorem PtView.pages_append (v : PtView) (a n m : Nat) :
    v.pages a (n + m) = v.pages a n + v.pages (a + n) m := by
  unfold pages
  rw [← Nat.add_assoc, Finset.sum_Ico_consecutive _ (by omega) (by omega)]

/- A page that is mapped is one of the range. -/
theorem PtView.mem_pages (hLeaf : v.leaf i = some (pa, flags)) (hLe : a ≤ i) (hLt : i < a + n) :
    pa ∈ v.pages a n := by
  unfold pages
  rw [mem_sum]
  refine ⟨i, Finset.mem_Ico.mpr ⟨hLe, hLt⟩, ?_⟩
  rw [hLeaf]
  exact mem_singleton_self pa

theorem PtView.exists_of_mem_pages (h : pa ∈ v.pages 0 n) :
    ∃ i < n, ∃ flags, v.leaf i = some (pa, flags) := by
  obtain ⟨i, hi, hMem⟩ := mem_sum.mp h
  obtain ⟨_, hLt⟩ := Finset.mem_Ico.mp hi
  obtain ⟨⟨pa', flags⟩, hLeaf, rfl⟩ := Option.map_eq_some_iff.mp (Pool.mem_cell.mp hMem)
  exact ⟨i, by omega, flags, hLeaf⟩

/- Different numbers have different pages. -/
theorem PtView.eq_of_nodup_pages
    {j flags' : Nat} (h : (v.pages 0 n).Nodup) (hi : i < n) (hj : j < n)
    (hLeaf : v.leaf i = some (pa, flags)) (hLeaf' : v.leaf j = some (pa, flags')) : i = j := by
  refine Pool.eq_of_nodup_sum h (k := pa) (Finset.mem_Ico.mpr ⟨Nat.zero_le _, by omega⟩)
    (Finset.mem_Ico.mpr ⟨Nat.zero_le _, by omega⟩) ?_ ?_
  · rw [Pool.mem_cell, hLeaf]
    rfl
  · rw [Pool.mem_cell, hLeaf']
    rfl

end Xv6

-------
-- Shrinking
-------

namespace Xv6

variable {L : MemLayout} {s s' : Ram} {root : Nat} {v w : PtView} {E : VmFault → Ram → Prop}

theorem throughInt_eq {x : Nat} (h : x < 2 ^ 31) : throughInt x = x := by
  unfold throughInt
  rw [Nat.mod_eq_of_lt (by omega), if_pos h]

theorem uvmdealloc_rule (h : v.Shows root s.mem) {oldsz newsz : Nat}
    (hMax : npages oldsz * PGSIZE ≤ MAXVA)
    (hSound : s.Sound L (v.tables + v.pages (npages newsz) (npages oldsz - npages newsz)))
    (hMapped : ∀ i, npages newsz ≤ i → i < npages oldsz → v.leaf i ≠ none) {Q : Nat → Ram → Prop}
    (hQ : ∀ (w : PtView) s', w.Shows root s'.mem → w.tables = v.tables →
      w.leaf = unmapped v.leaf (npages newsz) (npages oldsz - npages newsz) →
      s.Trades s' (v.tables + v.pages (npages newsz) (npages oldsz - npages newsz))
        w.tables → Q (min newsz oldsz) s') : wp (uvmdealloc L root oldsz newsz) Q E s := by
  have hOld : oldsz ≤ MAXVA := (le_npages_mul oldsz).trans hMax
  -- without a page to remove
  have hNothing (hLe : npages oldsz ≤ npages newsz) : Q (min newsz oldsz) s := by
    have hZero : npages oldsz - npages newsz = 0 := Nat.sub_eq_zero_of_le hLe
    rw [hZero] at hQ
    refine hQ v s h rfl (unmapped_zero _ _).symm ?_
    rw [v.pages_zero, add_zero]
    exact .refl _ _
  unfold uvmdealloc
  by_cases hLe : oldsz ≤ newsz
  · rw [if_pos hLe, wp_pure]
    have hEnd := hNothing (npages_mono hLe)
    rwa [Nat.min_eq_right hLe] at hEnd
  rw [if_neg hLe]
  rw [Nat.min_eq_left (by omega)] at hQ hNothing
  rw [PGROUNDUP_eq hOld, PGROUNDUP_eq (by omega)]
  by_cases hLess : npages newsz < npages oldsz
  · rw [if_pos (Nat.mul_lt_mul_of_pos_right hLess (by decide))]
    have hCount : throughInt ((npages oldsz * PGSIZE - npages newsz * PGSIZE) /
          PGSIZE) = npages oldsz - npages newsz := by
      rw [← Nat.sub_mul, Nat.mul_div_cancel _ (by decide)]
      refine throughInt_eq ?_
      simp only [PGSIZE, MAXVA] at hMax
      omega
    rw [hCount, wp_bind]
    have hSum : npages newsz + (npages oldsz - npages newsz) = npages oldsz := by omega
    refine uvmunmap_rule true h hSound ?_ ?_ ?_
    · rw [hSum]
      exact hMax
    · intro i hi hLt
      exact hMapped i hi (by omega)
    · intro w s' hw hTables hLeaf hTrades
      rw [wp_pure]
      exact hQ w s' hw hTables hLeaf hTrades
  · rw [if_neg (by
      rw [Nat.mul_lt_mul_right (by decide)]
      exact hLess)]
    rw [wp_pure]
    exact hNothing (by omega)

-------
-- Growing
-------

/- The first page that is not for user memory. -/
abbrev USERPAGES : Nat := TRAPFRAME / PGSIZE

/-
  Pages `n`, ..., `m - 1` were added to a page table, with the
  given flags. They come from the free list.
-/
structure PtView.Adds (root : Nat) (v w : PtView) (n m : Nat) (flags : Nat → Nat)
    (s s' : Ram) : Prop where
  shows : w.Shows root s'.mem
  old : ∀ i, i < n ∨ m ≤ i → w.leaf i = v.leaf i
  new : ∀ i, n ≤ i → i < m → ∃ pa, w.leaf i = some (pa, flags i)
  trades : s.Trades s' v.tables (w.tables + w.pages n (m - n))
  card : v.tables.card ≤ w.tables.card

/- What the pages from `n` to `m - 1` contain. -/
def PtView.Contents (v : PtView) (mem : Nat → Page) (n m : Nat) (page : Nat → Page) : Prop :=
  ∀ i pa flags, n ≤ i → i < m → v.leaf i = some (pa, flags) → mem pa = page i

theorem PtView.Adds.refl {n : Nat} {flags : Nat → Nat} (h : v.Shows root s.mem) :
    PtView.Adds root v v n n flags s s := by
  refine ⟨h, fun _ _ => rfl, fun i _ _ => by omega, ?_, le_rfl⟩
  rw [Nat.sub_self, v.pages_zero, add_zero]
  exact .refl _ _

namespace PtView.Adds

variable {n m : Nat} {flags : Nat → Nat} {u : PtView}

section

variable (h : PtView.Adds root v w n m flags s s')
include h

/- The pages of the process, before and after. -/
theorem pages_eq (hLe : n ≤ m) : w.pages 0 m = v.pages 0 n + w.pages n (m - n) := by
  have hSplit := w.pages_append 0 n (m - n)
  rw [Nat.zero_add, Nat.add_sub_cancel' hLe] at hSplit
  rw [hSplit, pages_congr (fun i _ hi => h.old i (.inl (by omega)))]

theorem trades_all (hLe : n ≤ m) :
    s.Trades s' (v.tables + v.pages 0 n) (w.tables + w.pages 0 m) := by
  have hFrame := h.trades.frame (v.pages 0 n)
  rw [show w.tables + w.pages n (m - n) + v.pages 0 n =
    w.tables + (v.pages 0 n + w.pages n (m - n)) by abel,
    ← h.pages_eq hLe] at hFrame
  exact hFrame

theorem ne_none {i : Nat} (hi : n ≤ i) (hLt : i < m) : w.leaf i ≠ none := by
  obtain ⟨pa, hNew⟩ := h.new i hi hLt
  rw [hNew]
  exact Option.some_ne_none _

/- The new pages were on the free list. -/
theorem length_le (hLe : n ≤ m) : m ≤ n + s.free.length := by
  have hLength := h.trades.length
  rw [card_add, card_pages (fun i hi _ => h.ne_none hi (by omega))] at hLength
  have hCard := h.card
  omega

theorem mapped (hMapped : ∀ i < n, v.leaf i ≠ none) : ∀ i < m, w.leaf i ≠ none := by
  intro i hi
  by_cases hin : i < n
  · rw [h.old i (.inl hin)]
    exact hMapped i hin
  · exact h.ne_none (by omega) hi

/- There is not enough memory to come near the trapframe. -/
theorem lt_userpages (hLe : n ≤ m) (hSound : s.Sound L (v.tables + v.pages 0 n))
    (hMapped : ∀ i < n, v.leaf i ≠ none) : m ≤ NPAGES := by
  have hAfter : s'.Sound L (w.tables + w.pages 0 m) := (h.trades_all hLe).sound hSound
  have hCard := hAfter.card_le
  rw [card_add, card_pages (fun i _ hi => h.mapped hMapped i (by omega))] at hCard
  omega

/- One page more. -/
theorem snoc (hLe : n ≤ m) {s₁ s₂ : Ram}
    {pa : Nat} (hTake : s'.Trades s₁ 0 {pa}) (hMap : PtView.Becomes root w u s₁ s₂)
    (hLeaf : u.leaf = update w.leaf m (some (pa, flags m))) :
    PtView.Adds root v u n (m + 1) flags s s₂ := by
  have hOld (i : Nat) (hi : i ≠ m) : u.leaf i = w.leaf i := by rw [hLeaf, update_of_ne hi]
  have hNew : u.leaf m = some (pa, flags m) := by rw [hLeaf, update_self]
  refine ⟨hMap.shows, ?_, ?_, ?_, h.card.trans hMap.card⟩
  · intro i hi
    rw [hOld i (by omega)]
    exact h.old i (by omega)
  · intro i hi hLt
    by_cases him : i = m
    · exact ⟨pa, by rw [him, hNew]⟩
    · rw [hOld i him]
      exact h.new i hi (by omega)
  · have hPages : u.pages n (m + 1 - n) = w.pages n (m - n) + {pa} := by
      rw [show m + 1 - n = (m - n) + 1 by omega, u.pages_last, Nat.add_sub_cancel' hLe, hNew,
        pages_congr (fun i _ hi => hOld i (by omega))]
      rfl
    have hStep := (hTake.frame (w.tables + w.pages n (m - n))).trans
        ((hMap.trades.frame (w.pages n (m - n) + {pa})).congr (by abel) rfl)
    rw [zero_add] at hStep
    rw [hPages]
    exact h.trades.trans hStep

/- Everything that was added is removed. -/
theorem undo (hLe : n ≤ m)
    (hNone : ∀ i, n ≤ i → i < m → v.leaf i = none) : unmapped w.leaf n (m - n) = v.leaf := by
  funext i
  unfold unmapped
  by_cases hi : n ≤ i ∧ i < n + (m - n)
  · rw [if_pos hi, hNone i hi.1 (by omega)]
  · rw [if_neg hi, h.old i (by omega)]

/- Only tables were added. -/
theorem grow {s'' : Ram} (hBecomes : PtView.Becomes root w u s' s'') (hLeaf : u.leaf = w.leaf) :
    PtView.Adds root v u n m flags s s'' := by
  refine ⟨hBecomes.shows, ?_, ?_, ?_, h.card.trans hBecomes.card⟩
  · rw [hLeaf]
    exact h.old
  · rw [hLeaf]
    exact h.new
  · have hPages : u.pages n (m - n) = w.pages n (m - n) :=
      pages_congr (fun i _ _ => by rw [hLeaf])
    rw [hPages]
    exact h.trades.trans (hBecomes.trades.frame _)

end

end PtView.Adds

variable {Q : Nat → Ram → Prop}

/- The new page is filled, and the tables do not touch the pages. -/
theorem PtView.Contents.snoc {n m fm pa : Nat} {page : Nat → Page} {u : PtView} {s₁ s₂ : Ram}
    (hHave : w.Contents s'.mem n m page)
    (hSound : s'.Sound L (w.tables + w.pages n (m - n))) (hTake : s'.Trades s₁ 0 {pa})
    (hMap : PtView.Becomes root w u s₁ s₂) (hLeaf : u.leaf = update w.leaf m (some (pa, fm)))
    (hPage : s₁.mem pa = page m) : u.Contents s₂.mem n (m + 1) page := by
  rw [← zero_add (w.tables + _)] at hSound
  have hSound₁ := hTake.sound_frame hSound
  rw [add_left_comm] at hSound₁
  intro i q fl hi hLt hAt
  rw [hLeaf] at hAt
  by_cases him : i = m
  · rw [him, update_self] at hAt
    cases hAt
    rw [him, ← hPage]
    exact hMap.trades.kept hSound₁ (mem_add.mpr (.inl (mem_singleton_self _)))
  · rw [update_of_ne him] at hAt
    have hIn : q ∈ w.pages n (m - n) := mem_pages hAt hi (by omega)
    rw [hMap.trades.kept hSound₁ (mem_add.mpr (.inr hIn)),
      hTake.kept hSound (mem_add.mpr (.inr hIn))]
    exact hHave i q fl hi (by omega) hAt

/- A page was taken, and was given back in the end. -/
theorem PtView.Becomes.give {s₁ s₂ : Ram} {pa : Nat} (hSound : s.Sound L v.tables)
    (hTake : s.Trades s₁ 0 {pa}) (hBecomes : PtView.Becomes root v w s₁ s₂)
    (hGive : s₂.Trades s' {pa} 0) : PtView.Becomes root v w s s' := by
  have hTaken := hTake.frame v.tables
  rw [zero_add] at hTaken
  have hMiddle := (hBecomes.trades.frame {pa}).congr
    (add_comm {pa} v.tables) (add_comm w.tables {pa})
  have hBoth := hTaken.trans hMiddle
  have hSound₂ : s₂.Sound L ({pa} + w.tables) := hBoth.sound hSound
  refine ⟨?_, ?_, hBecomes.card⟩
  · exact hBecomes.shows.congr (fun q hq => hGive.kept hSound₂ hq)
  · have hEnd := hGive.frame w.tables
    rw [zero_add] at hEnd
    exact hBoth.trans hEnd

/- The view of a table when a page was taken. -/
theorem PtView.Shows.take (h : v.Shows root s.mem) (hSound : s.Sound L v.tables) {pa : Nat}
    (hTake : s.Trades s' 0 {pa}) : v.Shows root s'.mem ∧ s'.Sound L v.tables ∧ L.Area pa := by
  have hSound' : s'.Sound L ({pa} + v.tables) := hTake.sound_frame (by rw [zero_add]; exact hSound)
  refine ⟨h.congr (fun q hq => ?_), hSound'.right,
    hSound'.left.area_of_mem (mem_singleton_self pa)⟩
  exact hTake.same q (hSound.not_free hq) (notMem_zero q)

theorem NPAGES_lt : NPAGES < USERPAGES := by decide

theorem mul_PGSIZE_lt {m : Nat} (h : m ≤ NPAGES) : m * PGSIZE < MAXVA := by
  simp only [NPAGES, PHYSTOP, PGSIZE, MAXVA] at *
  omega

/- A page that was taken and filled is mapped after the others, or given back. -/
theorem PtView.Adds.page_rule {α : Type} {n m pa perm : Nat} {flags : Nat → Nat}
    {page : Nat → Page} {next undo : VmM α} {Q : α → Ram → Prop} {s₂ : Ram}
    (h : PtView.Adds root v w n m flags s s') (hHave : w.Contents s'.mem n m page)
    (hSound : s'.Sound L (w.tables + w.pages n (m - n))) (hLe : n ≤ m) (hm : m ≤ NPAGES)
    (hNone : v.leaf m = none) (hTaken : s'.Trades s₂ 0 {pa}) (hPage : s₂.mem pa = page m)
    (hPerm : PtView.LeafFlags (perm ||| PTE_V)) (hFlags : perm ||| PTE_V = flags m)
    (hNext : ∀ u s₃, PtView.Adds root v u n (m + 1) flags s s₃ →
      u.Contents s₃.mem n (m + 1) page → s₃.free.length < s'.free.length → wp next Q E s₃)
    (hUndo : ∀ u s₃, PtView.Adds root v u n m flags s s₃ → wp undo Q E s₃) :
    wp (mappages root (m * PGSIZE) PGSIZE pa perm) (fun b t => wp (if b then next else do
      kfree L pa
      undo) Q E t) E s₂ := by
  obtain ⟨hShows₂, hSound₂, hArea⟩ := h.shows.take hSound.left hTaken
  have hHere : w.leaf m = none := (h.old m (.inr le_rfl)).trans hNone
  refine mappages_rule hShows₂ hSound₂ (mul_PGSIZE_lt hm) hHere hArea.pageAddr hPerm ?_ ?_
  · intro u s₃ hBecomes hLeaf
    rw [if_neg (by decide), wp_bind]
    refine kfree_rule hArea (fun s₄ hGive => ?_)
    exact hUndo u s₄ (h.grow (.give hSound.left hTaken hBecomes hGive) hLeaf)
  · intro u s₃ hBecomes hLeaf
    rw [hFlags] at hLeaf
    refine hNext u s₃ (h.snoc hLe hTaken hBecomes hLeaf)
      (hHave.snoc hSound hTaken hBecomes hLeaf hPage) ?_
    have hOne := hTaken.length
    have hTwo := hBecomes.trades.length
    have hCard := hBecomes.card
    rw [card_singleton, card_zero] at hOne
    omega

/- What was added is given back. -/
theorem PtView.Adds.dealloc {oldsz newsz : Nat} {flags : Nat → Nat}
    (h : PtView.Adds root v w (npages oldsz) (npages newsz) flags s s') (hLe : oldsz ≤ newsz)
    (hm : npages newsz ≤ NPAGES) (hSound : s.Sound L (v.tables + v.pages 0 (npages oldsz)))
    (hNone : ∀ i, npages oldsz ≤ i → i < USERPAGES → v.leaf i = none)
    (hQ : ∀ u s'', PtView.Becomes root v u s s'' → u.leaf = v.leaf → Q oldsz s'') :
    wp (uvmdealloc L root newsz oldsz) Q E s' := by
  have hMono := npages_mono hLe
  have hAll : s'.Sound L (w.tables + w.pages 0 (npages newsz)) := (h.trades_all hMono).sound hSound
  refine uvmdealloc_rule h.shows (mul_PGSIZE_lt hm).le ?_ (fun i => h.ne_none) ?_
  · rw [h.pages_eq hMono, add_left_comm] at hAll
    exact hAll.right
  · intro u s'' hu hTables hLeaf hTrades
    rw [Nat.min_eq_left hLe]
    refine hQ u s'' ⟨hu, h.trades.trans hTrades, ?_⟩ ?_
    · rw [hTables]
      exact h.card
    · rw [hLeaf]
      refine h.undo hMono (fun i hi hLt => hNone i hi ?_)
      exact (hLt.trans_le hm).trans NPAGES_lt

/- The way out of `uvmalloc` when there is no memory. -/
theorem uvmalloc_undo {n m : Nat} {flags : Nat → Nat} (h : PtView.Adds root v w n m flags s s')
    (hLe : n ≤ m) (hm : m ≤ NPAGES) (hSound : s.Sound L (v.tables + v.pages 0 n))
    (hNone : ∀ i, n ≤ i → i < USERPAGES → v.leaf i = none)
    (hFail : ∀ u s'', PtView.Becomes root v u s s'' → u.leaf = v.leaf → Q 0 s'') :
    wp (do
        let _ ← uvmdealloc L root (m * PGSIZE) (n * PGSIZE)
        return 0) Q E s' := by
  rw [← npages_mul n] at h hSound hNone
  rw [← npages_mul m] at h hm
  rw [wp_bind]
  refine h.dealloc (Nat.mul_le_mul_right _ hLe) hm hSound hNone (fun u s'' hBecomes hLeaf => ?_)
  rw [wp_pure]
  exact hFail u s'' hBecomes hLeaf

theorem uvmallocLoop_rule {n newsz xperm : Nat} (hSound : s.Sound L (v.tables + v.pages 0 n))
    (hMapped : ∀ i < n, v.leaf i ≠ none) (hNone : ∀ i, n ≤ i → i < USERPAGES → v.leaf i = none)
    (hPerm : PtView.LeafFlags (PTE_R ||| PTE_U ||| xperm ||| PTE_V))
    (hFail : ∀ u s'', PtView.Becomes root v u s s'' → u.leaf = v.leaf → Q 0 s'')
    (hDone : ∀ u s'', PtView.Adds root v u n (npages newsz)
        (fun _ => PTE_R ||| PTE_U ||| xperm ||| PTE_V) s s'' →
      u.Contents s''.mem n (npages newsz) (fun _ => filled 0) →
      npages newsz ≤ NPAGES → Q newsz s'') :
    ∀ {k m : Nat} {w : PtView} {s' : Ram}, PtView.Adds root v w n m
        (fun _ => PTE_R ||| PTE_U ||| xperm ||| PTE_V) s s' →
      w.Contents s'.mem n m (fun _ => filled 0) → n ≤ m → m ≤ npages newsz →
      s'.free.length + 1 ≤ k →
      wp (uvmallocLoop L root (n * PGSIZE) newsz xperm k (m * PGSIZE)) Q E s' := by
  intro k
  induction k with
  | zero =>
    intro m w s' _ _ _ _ hFuel
    exact absurd hFuel (by omega)
  | succ k ih =>
    intro m w s' h hZero hLe hEnd hFuel
    have hm := h.lt_userpages hLe hSound hMapped
    have hAll : s'.Sound L (w.tables + w.pages 0 m) := (h.trades_all hLe).sound hSound
    unfold uvmallocLoop
    by_cases hMore : m * PGSIZE < newsz
    · rw [if_pos hMore]
      rw [wp_bind]
      refine kalloc_rule ?_ ?_
      · intro s₁ hTrades
        have hBecomes := PtView.Becomes.of_trades h.shows hAll.left hTrades
        exact uvmalloc_undo (h.grow hBecomes rfl) hLe hm hSound hNone hFail
      intro pa s₁ hTake
      simp only [wp_bind]
      refine memset_rule (mem_singleton_self pa) ?_
      intro s₂ hClear hFilled
      have hMine := hAll
      rw [h.pages_eq hLe, add_left_comm] at hMine
      rw [add64_page (mul_PGSIZE_lt hm)]
      refine h.page_rule hZero hMine.right hLe hm (hNone m hLe (hm.trans_lt NPAGES_lt))
        (hTake.trans hClear) hFilled hPerm rfl ?_ ?_
      · intro u s₃ hAdds hZero' hLength
        refine ih hAdds hZero' (by omega) ?_ (by omega)
        unfold npages
        simp only [PGSIZE] at *
        omega
      · intro u s₃ hSame
        exact uvmalloc_undo hSame hLe hm hSound hNone hFail
    · rw [if_neg hMore, wp_pure]
      have hEq : npages newsz = m := by
        refine le_antisymm ?_ hEnd
        rw [← npages_mul m]
        exact npages_mono (by omega)
      rw [hEq] at hDone
      exact hDone w s' h hZero hm

theorem uvmalloc_rule (h : v.Shows root s.mem) {oldsz newsz xperm : Nat}
    (hSound : s.Sound L (v.tables + v.pages 0 (npages oldsz)))
    (hMapped : ∀ i < npages oldsz, v.leaf i ≠ none)
    (hNone : ∀ i, npages oldsz ≤ i → i < USERPAGES → v.leaf i = none)
    (hPerm : PtView.LeafFlags (PTE_R ||| PTE_U ||| xperm ||| PTE_V))
    (hLess : newsz < oldsz → Q oldsz s)
    (hFail : ∀ u s', PtView.Becomes root v u s s' → u.leaf = v.leaf → Q 0 s')
    (hDone : ∀ u s', oldsz ≤ newsz → PtView.Adds root v u (npages oldsz) (npages newsz)
        (fun _ => PTE_R ||| PTE_U ||| xperm ||| PTE_V) s s' →
      u.Contents s'.mem (npages oldsz) (npages newsz) (fun _ => filled 0) →
      npages newsz ≤ NPAGES → Q newsz s') : wp (uvmalloc L root oldsz newsz xperm) Q E s := by
  have hCard := hSound.card_le
  rw [card_add, card_pages (fun i _ hi => hMapped i (by omega))] at hCard
  have hOld : oldsz ≤ MAXVA := (le_npages_mul oldsz).trans (mul_PGSIZE_lt (by omega)).le
  unfold uvmalloc
  by_cases hLt : newsz < oldsz
  · rw [if_pos hLt, wp_pure]
    exact hLess hLt
  rw [if_neg hLt]
  simp only [wp_bind, wp_read]
  rw [PGROUNDUP_eq hOld]
  have hLe : oldsz ≤ newsz := Nat.le_of_not_lt hLt
  exact uvmallocLoop_rule hSound hMapped hNone hPerm hFail
    (fun u s' => hDone u s' hLe) (.refl h) (fun _ _ _ hi hLt => absurd hi (Nat.not_le.mpr hLt))
    le_rfl (npages_mono hLe) le_rfl

-------
-- Address Spaces
-------

abbrev TRAMPPAGE : Nat := TRAMPOLINE / PGSIZE

/-
  The pages of a process: `n` pages of user memory from zero
  on, the trapframe and the trampoline, and no others.
-/
structure PtView.Space (L : MemLayout) (v : PtView) (n tf : Nat) : Prop where
  user : ∀ i < n, v.leaf i ≠ none
  gap : ∀ i, n ≤ i → i < USERPAGES → v.leaf i = none
  trapframe : v.leaf USERPAGES = some (tf, PTE_R ||| PTE_W ||| PTE_V)
  trampoline : v.leaf TRAMPPAGE = some (L.trampoline, PTE_R ||| PTE_X ||| PTE_V)
  above : ∀ i, TRAMPPAGE < i → v.leaf i = none

/- What a process has, besides the trapframe. -/
def PtView.own (v : PtView) (n : Nat) : Multiset Nat := v.tables + v.pages 0 n

namespace PtView.Space

variable {n tf : Nat} {flags i m pa : Nat}

section

variable (h : v.Space L n tf)
include h

theorem congr (hLeaf : w.leaf = v.leaf) : w.Space L n tf := by
  refine ⟨?_, ?_, ?_, ?_, ?_⟩ <;> rw [hLeaf]
  · exact h.user
  · exact h.gap
  · exact h.trapframe
  · exact h.trampoline
  · exact h.above

/- User memory is far below the trapframe. -/
theorem le_npages (hSound : s.Sound L (v.own n)) : n ≤ NPAGES := by
  have hCard := hSound.card_le
  rw [own, card_add, card_pages (fun i _ hi => h.user i (by omega))] at hCard
  omega

/- A page that is mapped below the trapframe. -/
theorem lt_of_leaf (hi : i < USERPAGES) (hLeaf : v.leaf i = some (pa, flags)) : i < n := by
  by_contra hLe
  rw [h.gap i (Nat.le_of_not_lt hLe) hi] at hLeaf
  cases hLeaf

/- The pages above user memory stay. -/
theorem remap {k : Nat} (hk : k ≤ NPAGES) (hHigh : ∀ i, k ≤ i → w.leaf i = v.leaf i)
    (hUser : ∀ i < m, w.leaf i ≠ none)
    (hGap : ∀ i, m ≤ i → i < USERPAGES → w.leaf i = none) : w.Space L m tf := by
  have hLe : k ≤ USERPAGES := hk.trans NPAGES_lt.le
  have hLe' : k ≤ TRAMPPAGE := hLe.trans (by decide)
  refine ⟨hUser, hGap, ?_, ?_, ?_⟩
  · rw [hHigh _ hLe]
    exact h.trapframe
  · rw [hHigh _ hLe']
    exact h.trampoline
  · intro i hi
    rw [hHigh i (hLe'.trans hi.le)]
    exact h.above i hi

/- The space when pages were added. -/
theorem adds {flags : Nat → Nat} (hAdds : PtView.Adds root v w n m flags s s') (hLe : n ≤ m)
    (hm : m ≤ NPAGES) : w.Space L m tf := by
  refine h.remap hm (fun i hi => hAdds.old i (.inr hi)) (hAdds.mapped h.user) ?_
  intro i hi hUser
  rw [hAdds.old i (.inr hi)]
  exact h.gap i (by omega) hUser

/- The space when pages were removed. -/
theorem removes (hLe : m ≤ n) (hn : n ≤ NPAGES)
    (hLeaf : w.leaf = unmapped v.leaf m (n - m)) : w.Space L m tf := by
  have hOld (i : Nat) (hi : i < m ∨ n ≤ i) : w.leaf i = v.leaf i := by
    rw [hLeaf]
    exact if_neg (by omega)
  refine h.remap hn (fun i hi => hOld i (.inr hi)) ?_ ?_
  · intro i hi
    rw [hOld i (.inl hi)]
    exact h.user i (by omega)
  · intro i hi hUser
    by_cases hin : i < n
    · rw [hLeaf]
      exact if_pos ⟨hi, by omega⟩
    · rw [hOld i (.inr (by omega))]
      exact h.gap i (by omega) hUser

/- Pages that the user can access are pages of user memory. -/
theorem lt_of_user (hLeaf : v.leaf i = some (pa, flags))
    (hUser : pteHas flags PTE_U = true) : i < n := by
  by_contra hNot
  have hGe : n ≤ i := Nat.le_of_not_lt hNot
  rcases Nat.lt_trichotomy i USERPAGES with hi | hi | hi
  · rw [h.gap i hGe hi] at hLeaf
    cases hLeaf
  · rw [hi, h.trapframe] at hLeaf
    cases hLeaf
    exact absurd hUser (by decide)
  · rcases Nat.lt_or_eq_of_le (show TRAMPPAGE ≤ i from hi) with hi | hi
    · rw [h.above i hi] at hLeaf
      cases hLeaf
    · rw [← hi, h.trampoline] at hLeaf
      cases hLeaf
      exact absurd hUser (by decide)

end

end PtView.Space

/- The view of a page table that was just created. -/
def PtView.empty (root : Nat) : PtView where
  table := update (fun _ => none) [] (some root)
  leaf := fun _ => none

variable {Q : Unit → Ram → Prop}

theorem PtView.table_empty (root : Nat) {x : List Nat} (hx : x ≠ []) :
    (PtView.empty root).table x = none := by
  unfold empty
  dsimp only
  rw [update_of_ne hx]

theorem PtView.tables_empty (root : Nat) : (PtView.empty root).tables = {root} := by
  have hZero : tablesFrom (fun _ => none) 2 [] = 0 := tablesFrom_none (fun _ _ _ => rfl) rfl
  have hUpdate : tablesFrom (update (fun _ => none) ([] ++ []) (some root))
      2 [] = tablesFrom (fun _ => none) 2 [] + {root} :=
    tablesFrom_update rfl (Nat.zero_le _) (by simp)
  rw [hZero] at hUpdate
  exact hUpdate

theorem PtView.shows_empty (hZero : s.mem root = filled 0) :
    (PtView.empty root).Shows root s.mem := by
  have hTable (x : List Nat) (pt : Nat) (hx : (empty root).table x = some pt) :
      x = [] ∧ pt = root := by
    by_cases hEq : x = []
    · subst hEq
      exact ⟨rfl, (Option.some.inj hx).symm⟩
    · rw [table_empty root hEq] at hx
      cases hx
  refine ⟨rfl, ?_, ?_, ?_, ?_, fun _ _ _ _ _ _ => rfl, by rintro _ _ _ ⟨⟩⟩
  · intro x pt hx
    obtain ⟨rfl, -⟩ := hTable x pt hx
    exact ⟨Nat.zero_le _, by simp⟩
  · intro x j _
    exact table_empty root (by simp)
  · intro x pt hx _ j _
    obtain ⟨rfl, rfl⟩ := hTable x pt hx
    rw [pteAt_zero hZero]
    rfl
  · intro i j pt hx
    have hPath := (hTable _ pt hx).1
    cases hPath

theorem uvmcreate_rule {Q : Option Nat → Ram → Prop} (hNone : ∀ s', s.Trades s' 0 0 → Q none s')
    (hSome : ∀ root s', (PtView.empty root).Shows root s'.mem →
      s.Trades s' 0 (PtView.empty root).tables → Q (some root) s') : wp uvmcreate Q E s := by
  unfold uvmcreate
  rw [wp_bind]
  refine kalloc_rule ?_ ?_
  · intro s' hTrades
    simp only [wp_pure]
    exact hNone s' hTrades
  intro root s₁ hTake
  simp only [wp_bind, wp_pure]
  refine memset_rule (mem_singleton_self root) ?_
  intro s₂ hClear hZero
  refine hSome root s₂ (shows_empty hZero) ?_
  rw [tables_empty]
  exact hTake.trans hClear

/- A table without pages is freed. -/
theorem uvmfree_empty (h : v.Shows root s.mem) (hSound : s.Sound L v.tables)
    (hEmpty : ∀ n, v.leaf n = none)
    (hQ : ∀ s', s.Trades s' v.tables 0 → Q () s') : wp (uvmfree L root 0) Q E s := by
  unfold uvmfree
  exact freewalk_rule h hSound hEmpty hQ

/- One page is unmapped, and not freed. -/
theorem uvmunmap_one (h : v.Shows root s.mem) (hSound : s.Sound L v.tables) {a : Nat}
    (hMax : (a + 1) * PGSIZE ≤ MAXVA) (hMapped : v.leaf a ≠ none)
    (hQ : ∀ (w : PtView) s', w.Shows root s'.mem → w.leaf = update v.leaf a none →
      s.Trades s' v.tables w.tables →
      w.tables = v.tables → Q () s') : wp (uvmunmap L root (a * PGSIZE) 1 false) Q E s := by
  refine uvmunmap_rule false h ?_ hMax ?_ ?_
  · rw [if_neg (by decide), add_zero]
    exact hSound
  · intro i hi hLt
    rw [show i = a by omega]
    exact hMapped
  · intro w s' hw hTables hLeaf hTrades
    rw [if_neg (by decide), add_zero] at hTrades
    refine hQ w s' hw ?_ hTrades hTables
    rw [hLeaf, ← unmapped_succ, unmapped_zero]

theorem TRAMPOLINE_eq : TRAMPOLINE = TRAMPPAGE * PGSIZE := by decide

theorem TRAPFRAME_eq : TRAPFRAME = USERPAGES * PGSIZE := by decide

theorem procPagetable_rule {tf : Nat} (hTf : PageAddr tf) (hSound : s.Sound L 0)
    {Q : Option Nat → Ram → Prop} (hNone : ∀ s', s.Trades s' 0 0 → Q none s')
    (hSome : ∀ root (v : PtView) s', v.Shows root s'.mem →
      v.Space L 0 tf → s.Trades s' 0 v.tables → Q (some root) s') :
    wp (procPagetable L tf) Q E s := by
  unfold procPagetable
  rw [wp_bind]
  refine uvmcreate_rule ?_ ?_
  · intro s' hTrades
    simp only [wp_pure]
    exact hNone s' hTrades
  intro root s₁ hShows hCreate
  have hSound₁ := hCreate.sound hSound
  simp only [wp_bind]
  rw [TRAMPOLINE_eq, TRAPFRAME_eq]
  refine mappages_rule hShows hSound₁ (by decide) rfl L.pageAddr_trampoline (by decide) ?_ ?_
  · intro u s₂ hBecomes hLeaf
    rw [if_neg (by decide)]
    simp only [wp_bind]
    refine uvmfree_empty hBecomes.shows (hBecomes.trades.sound hSound₁)
      (fun n => by rw [hLeaf]; rfl) ?_
    intro s₃ hFree
    rw [wp_pure]
    exact hNone s₃ ((hCreate.trans hBecomes.trades).trans hFree)
  intro u s₂ hTramp hTrampLeaf
  have hSound₂ := hTramp.trades.sound hSound₁
  rw [if_pos rfl, wp_bind]
  refine mappages_rule hTramp.shows hSound₂ (by decide)
    (by rw [hTrampLeaf]; rfl) hTf (by decide) ?_ ?_
  · intro w s₃ hBecomes hLeaf
    rw [if_neg (by decide), wp_bind]
    have hHere : w.leaf TRAMPPAGE ≠ none := by
      rw [hLeaf, hTrampLeaf]
      simp
    refine uvmunmap_one hBecomes.shows (hBecomes.trades.sound hSound₂) (by decide) hHere ?_
    intro w' s₄ hw' hLeaf' hTrades' _
    rw [wp_bind]
    refine uvmfree_empty hw' (hTrades'.sound (hBecomes.trades.sound hSound₂)) (fun n => ?_) ?_
    · rw [hLeaf', hLeaf, hTrampLeaf, update_idem]
      by_cases hn : n = TRAMPPAGE
      · rw [hn, update_self]
      · rw [update_of_ne hn]
        rfl
    · intro s₅ hFree
      rw [wp_pure]
      refine hNone s₅ ?_
      exact (((hCreate.trans hTramp.trades).trans hBecomes.trades).trans hTrades').trans hFree
  · intro w s₃ hBecomes hLeaf
    rw [if_pos rfl, wp_pure]
    refine hSome root w s₃ hBecomes.shows ?_ ((hCreate.trans hTramp.trades).trans hBecomes.trades)
    have hOld (i : Nat) (hi : i ≠ USERPAGES) (hi' : i ≠ TRAMPPAGE) : w.leaf i = none := by
      rw [hLeaf, update_of_ne hi, hTrampLeaf, update_of_ne hi']
      rfl
    refine ⟨by simp, ?_, ?_, ?_, ?_⟩
    · intro i _ hi
      exact hOld i hi.ne (hi.trans (by decide : USERPAGES < TRAMPPAGE)).ne
    · rw [hLeaf, update_self]
    · rw [hLeaf, update_of_ne (by decide), hTrampLeaf, update_self]
    · intro i hi
      exact hOld i ((by decide : USERPAGES < TRAMPPAGE).trans hi).ne' hi.ne'

theorem procFreepagetable_rule
    (h : v.Shows root s.mem) {sz tf : Nat} (hSpace : v.Space L (npages sz) tf)
    (hSound : s.Sound L (v.own (npages sz)))
    (hQ : ∀ s', s.Trades s' (v.own (npages sz)) 0 → Q () s') :
    wp (procFreepagetable L root sz) Q E s := by
  have hn := hSpace.le_npages hSound
  have hLt : npages sz < USERPAGES := hn.trans_lt NPAGES_lt
  have hsz : sz ≤ MAXVA := (le_npages_mul sz).trans (mul_PGSIZE_lt hn).le
  unfold own at hSound hQ
  unfold procFreepagetable
  rw [TRAMPOLINE_eq, TRAPFRAME_eq, wp_bind]
  refine uvmunmap_one h hSound.left (by decide) (by rw [hSpace.trampoline]; simp) ?_
  intro v₁ s₁ hShows₁ hLeaf₁ hTrades₁ hTables₁
  have hSound₁ := hTrades₁.sound_frame hSound
  rw [wp_bind]
  refine uvmunmap_one hShows₁ hSound₁.left (by decide) ?_ ?_
  · rw [hLeaf₁, update_of_ne (by decide), hSpace.trapframe]
    simp
  intro v₂ s₂ hShows₂ hLeaf₂ hTrades₂ hTables₂
  have hOld (i : Nat) (hi : i < USERPAGES) : v₂.leaf i = v.leaf i := by
    rw [hLeaf₂, update_of_ne hi.ne, hLeaf₁, update_of_ne
        (hi.trans (by decide : USERPAGES < TRAMPPAGE)).ne]
  have hHigh (i : Nat) (hi : npages sz ≤ i) : v₂.leaf i = none := by
    by_cases hUser : i < USERPAGES
    · rw [hOld i hUser]
      exact hSpace.gap i hi hUser
    rw [hLeaf₂]
    by_cases hEq : i = USERPAGES
    · rw [hEq, update_self]
    rw [update_of_ne hEq, hLeaf₁]
    by_cases hEq' : i = TRAMPPAGE
    · rw [hEq', update_self]
    · rw [update_of_ne hEq']
      refine hSpace.above i ?_
      have hNext : TRAMPPAGE = USERPAGES + 1 := by decide
      omega
  have hPages : v₂.pages 0 (npages sz) = v.pages 0 (npages sz) :=
    pages_congr (fun i _ hi => hOld i (by omega))
  have hBoth := (hTrades₁.trans hTrades₂).frame (v.pages 0 (npages sz))
  have hSound₂ := hBoth.sound hSound
  unfold uvmfree
  by_cases hPos : 0 < sz
  · rw [if_pos hPos, wp_bind, PGROUNDUP_eq hsz, Nat.mul_div_cancel _ (by decide)]
    have hZero : 0 = 0 * PGSIZE := rfl
    rw [hZero]
    refine uvmunmap_rule true hShows₂ ?_ ?_ ?_ ?_
    · rw [hPages]
      exact hSound₂
    · rw [Nat.zero_add]
      exact (mul_PGSIZE_lt hn).le
    · intro i _ hi
      rw [hOld i (by omega)]
      exact hSpace.user i (by omega)
    · intro v₃ s₃ hShows₃ _ hLeaf₃ hTrades₃
      rw [hPages] at hTrades₃
      refine freewalk_rule hShows₃ (hTrades₃.sound hSound₂) (fun i => ?_) ?_
      · rw [hLeaf₃]
        unfold unmapped
        split
        · rfl
        · exact hHigh i (by omega)
      · intro s₄ hFree
        exact hQ s₄ ((hBoth.trans hTrades₃).trans hFree)
  · have hNo : npages sz = 0 := by
      rw [show sz = 0 by omega]
      decide
    rw [if_neg hPos]
    rw [hNo, v.pages_zero, add_zero, add_zero] at hBoth
    rw [hNo, v.pages_zero, add_zero] at hQ hSound₂
    refine freewalk_rule hShows₂ hSound₂ (fun i => hHigh i (by omega)) ?_
    intro s₃ hFree
    exact hQ s₃ (hBoth.trans hFree)

-------
-- Copying
-------

variable {Q : Bool → Ram → Prop}

theorem walkaddr_rule (h : v.Shows root s.mem) (hSound : s.Sound L v.tables) {va : Nat}
    {Q : Nat → Ram → Prop}
    (hNone : (∀ pa flags, va < MAXVA → v.leaf (va / PGSIZE) = some (pa, flags) →
        pteHas flags PTE_U = false) → Q 0 s)
    (hSome : ∀ pa flags, va < MAXVA → v.leaf (va / PGSIZE) = some (pa, flags) →
        pteHas flags PTE_U = true → Q pa s) : wp (walkaddr root va) Q E s := by
  unfold walkaddr
  by_cases hva : va < MAXVA
  · rw [if_neg (Nat.not_le.mpr hva), wp_bind]
    refine walk_find h hSound.pageAddr hva ?_ ?_
    · intro hTable
      simp only [wp_pure]
      refine hNone (fun pa flags _ hLeaf => ?_)
      obtain ⟨pt, hpt⟩ := h.table_of_leaf hva (by rw [hLeaf]; simp)
      rw [hTable] at hpt
      cases hpt
    intro pt hpt
    simp only [wp_bind]
    refine loadPte_rule ?_
    rw [h.entry hva hpt]
    cases hLeaf : v.leaf (va / PGSIZE) with
    | none =>
      rw [pteHas_leafPte_none, if_pos rfl, wp_pure]
      refine hNone (fun pa flags _ hEq => ?_)
      rw [hLeaf] at hEq
      cases hEq
    | some e =>
      obtain ⟨pa, flags⟩ := e
      obtain ⟨_, hPa, hFlags⟩ := h.addr _ pa flags hLeaf
      rw [leafPte_some, pteHas_mkPte (by decide), pteHas_mkPte (by decide),
        PTE2PA_mkPte hPa hFlags.1,
        if_neg (by rw [hFlags.2.1]; decide)]
      by_cases hUser : pteHas flags PTE_U = true
      · rw [if_neg (by rw [hUser]; decide), wp_pure]
        exact hSome pa flags hva hLeaf hUser
      rw [Bool.not_eq_true] at hUser
      rw [if_pos hUser, wp_pure]
      refine hNone (fun pa' flags' _ hEq => ?_)
      rw [hLeaf] at hEq
      cases hEq
      exact hUser
  · rw [if_pos (Nat.le_of_not_lt hva), wp_pure]
    exact hNone (fun pa flags hLt => absurd hLt hva)

/- The tables stay when only user memory is written. -/
theorem PtView.Shows.write {n : Nat} (h : v.Shows root s.mem) (hSound : s.Sound L (v.own n))
    (hTrades : s.Trades s' (v.pages 0 n) (v.pages 0 n)) :
    v.Shows root s'.mem ∧ s'.Sound L (v.own n) := by
  unfold own at *
  rw [add_comm] at hSound ⊢
  refine ⟨h.congr (fun q hq => hTrades.kept hSound hq), ?_⟩
  exact hTrades.sound_frame hSound

theorem copyoutLoop_rule {n tf : Nat} (hSpace : v.Space L n tf) :
    ∀ {k dstva : Nat} {src : List UInt8} {s : Ram}, v.Shows root s.mem → s.Sound L (v.own n) →
      (∀ b s', v.Shows root s'.mem → s.Trades s' (v.pages 0 n) (v.pages 0 n) → Q b s') →
      wp (copyoutLoop root k dstva src) Q E s := by
  intro k
  induction k with
  | zero =>
    intro dstva src s h _ hQ
    unfold copyoutLoop
    rw [wp_pure]
    exact hQ _ s h (.refl _ _)
  | succ k ih =>
    intro dstva src s h hSound hQ
    unfold copyoutLoop
    by_cases hSrc : src.isEmpty = true
    · rw [if_pos hSrc, wp_pure]
      exact hQ true s h (.refl _ _)
    rw [if_neg hSrc, wp_bind]
    refine walkaddr_rule h hSound.left ?_ ?_
    · intro _
      rw [if_pos rfl, wp_pure]
      exact hQ false s h (.refl _ _)
    intro pa flags _ hLeaf hUser
    have hMem : pa ∈ v.pages 0 n :=
      mem_pages hLeaf (Nat.zero_le _) (by
          rw [Nat.zero_add]
          exact hSpace.lt_of_user hLeaf hUser)
    have hArea : L.Area pa := hSound.right.area_of_mem hMem
    rw [if_neg hArea.ne_zero]
    simp only [wp_bind, wp_edit]
    have hWrite : s.Trades (s.setPage pa ((s.mem pa).splice (dstva - PGROUNDDOWN dstva)
          (src.take (PGSIZE - (dstva - PGROUNDDOWN dstva)))))
        (v.pages 0 n) (v.pages 0 n) :=
      Pool.Trades.write _ hMem _
    obtain ⟨h', hSound'⟩ := h.write hSound hWrite
    refine ih h' hSound' (fun b s' hs' hTrades => ?_)
    exact hQ b s' hs' (hWrite.trans hTrades)

theorem copyout_rule {n tf dstva : Nat} {src : List UInt8} (hSpace : v.Space L n tf)
    (h : v.Shows root s.mem) (hSound : s.Sound L (v.own n))
    (hQ : ∀ b s', v.Shows root s'.mem → s.Trades s' (v.pages 0 n) (v.pages 0 n) → Q b s') :
    wp (copyout root dstva src) Q E s :=
  copyoutLoop_rule hSpace h hSound hQ

section

variable (h : v.Shows root s.mem) (hSound : s.Sound L v.tables)
include h hSound

/- Copying in only reads. -/
theorem walkaddr_looks (va : Nat) : Prog.Looks (walkaddr root va) s :=
  walkaddr_rule h hSound (fun _ => rfl) (fun _ _ _ _ _ => rfl)

theorem copyin_looks (srcva len : Nat) : Prog.Looks (copyin root srcva len) s := by
  refine .bind ?_ (fun _ => .pure _ s)
  suffices hLoop : ∀ k srcva len, Prog.Looks (copyinLoop root k srcva len) s from hLoop _ _ _
  intro k
  induction k with
  | zero =>
    intro srcva len
    exact .pure _ s
  | succ k ih =>
    intro srcva len
    exact .ite (.pure _ s) (.bind (walkaddr_looks h hSound _) (fun pa0 => .ite (.pure _ s)
        (.read (.bind (ih _ _) (fun _ => .pure _ s)))))

theorem copyinstr_looks (srcva max : Nat) : Prog.Looks (copyinstr root srcva max) s := by
  refine .bind ?_ (fun _ => .pure _ s)
  suffices hLoop : ∀ k srcva max, Prog.Looks (copyinstrLoop root k srcva max) s from hLoop _ _ _
  intro k
  induction k with
  | zero =>
    intro srcva max
    exact .pure _ s
  | succ k ih =>
    intro srcva max
    exact .ite (.pure _ s) (.bind (walkaddr_looks h hSound _)
      (fun pa0 => .ite (.pure _ s) (.read (.ite (.pure _ s)
        (.bind (ih _ _) (fun _ => .pure _ s))))))

theorem uvmclear_rule {i pa flags : Nat}
    (hi : i * PGSIZE < MAXVA) (hLeaf : v.leaf i = some (pa, flags))
    (hClear : PtView.LeafFlags (Nat.ldiff flags PTE_U)) {Q : Unit → Ram → Prop}
    (hQ : ∀ (w : PtView) s', PtView.Becomes root v w s s' → w.tables = v.tables →
      w.leaf = update v.leaf i (some (pa, Nat.ldiff flags PTE_U)) → Q () s') :
    wp (uvmclear root (i * PGSIZE)) Q E s := by
  obtain ⟨_, hPa, hFlags⟩ := h.addr i pa flags hLeaf
  unfold uvmclear
  rw [wp_bind]
  refine walk_leaf h hSound hi hLeaf ?_
  intro pt hpt hEntry
  simp only [wp_bind]
  refine loadPte_rule ?_
  rw [hEntry, ldiff_mkPte]
  have hNew : ∀ pa' flags', some (pa, Nat.ldiff flags PTE_U) = some (pa', flags') →
        PageAddr pa' ∧ PtView.LeafFlags flags' := by
    rintro _ _ ⟨⟩
    exact ⟨hPa, hClear⟩
  refine storePte_rule (PX_lt _ _) (leafPte_lt hNew) ?_
  intro s₁ hStore
  have hBecomes := h.store hSound hi hpt hNew hStore
  rw [Nat.mul_div_cancel i (by decide)] at hBecomes
  exact hQ _ s₁ hBecomes rfl rfl

end

/- An entry with its valid flag set once more. -/
theorem or_valid {flags : Nat} (h : pteHas flags PTE_V = true) : flags ||| PTE_V = flags := by
  unfold pteHas at h
  rw [decide_eq_true_eq, Nat.and_one_is_mod] at h
  refine Nat.eq_of_testBit_eq (fun i => ?_)
  rw [Nat.testBit_or]
  cases i with
  | zero =>
    simp [show flags % 2 = 1 by omega]
  | succ i =>
    have hHigh : PTE_V / 2 = 0 := by decide
    simp [Nat.testBit_succ, hHigh]

/- The flags of a page that is mapped. -/
def PtView.flags (v : PtView) (i : Nat) : Nat := ((v.leaf i).map Prod.snd).getD 0

/- The contents of a page that is mapped. -/
def PtView.page (v : PtView) (mem : Nat → Page) (i : Nat) : Page :=
  mem (((v.leaf i).map Prod.fst).getD 0)

section Copy

variable {old : Nat} {vo : PtView} {no tf : Nat}

/- The way out of `uvmcopy` when there is no memory. -/
theorem uvmcopy_undo {m : Nat} {flags : Nat → Nat} (h : PtView.Adds root v w 0 m flags s s')
    (hm : m ≤ NPAGES) (hSound : s.Sound L v.tables)
    (hNone : ∀ i < USERPAGES, v.leaf i = none)
    (hFail : ∀ u s'', PtView.Becomes root v u s s'' → u.leaf = v.leaf → Q false s'') :
    wp (do
        uvmunmap L root 0 (m * PGSIZE / PGSIZE) true
        return false) Q E s' := by
  rw [Nat.mul_div_cancel m (by decide), wp_bind]
  have hZero : 0 = 0 * PGSIZE := rfl
  rw [hZero]
  refine uvmunmap_rule true h.shows ?_ ?_ ?_ ?_
  · exact h.trades.sound hSound
  · rw [Nat.zero_add]
    exact (mul_PGSIZE_lt hm).le
  · intro i hi hLt
    exact h.ne_none hi (by omega)
  · intro u s'' hu hTables hLeaf hTrades
    rw [wp_pure]
    refine hFail u s'' ⟨hu, h.trades.trans hTrades, by rw [hTables]; exact h.card⟩ ?_
    rw [hLeaf]
    exact h.undo (Nat.zero_le m) (fun i _ hi => hNone i ((hi.trans_le hm).trans NPAGES_lt))

theorem uvmcopyLoop_rule {sz : Nat} (ho : vo.Shows old s.mem) (hSpace : vo.Space L (npages sz) tf)
    (hSound : s.Sound L (v.tables + vo.own (npages sz)))
    (hNone : ∀ i < USERPAGES, v.leaf i = none)
    (hFail : ∀ u s', PtView.Becomes root v u s s' → u.leaf = v.leaf → Q false s')
    (hDone : ∀ u s', PtView.Adds root v u 0 (npages sz) vo.flags s s' →
      u.Contents s'.mem 0 (npages sz) (vo.page s.mem) → Q true s') :
    ∀ {k m : Nat} {w : PtView} {s' : Ram}, PtView.Adds root v w 0 m vo.flags s s' →
      w.Contents s'.mem 0 m (vo.page s.mem) → m + k = sz / PGSIZE + 1 → m ≤ npages sz →
      wp (uvmcopyLoop L old root sz k (m * PGSIZE)) Q E s' := by
  have hn := hSpace.le_npages hSound.right
  have hEq {m : Nat} (hStop : ¬ m * PGSIZE < sz) (hEnd : m ≤ npages sz) : m = npages sz := by
    unfold npages at *
    simp only [PGSIZE] at *
    omega
  intro k
  induction k with
  | zero =>
    intro m w s' h hCopied hFuel hEnd
    unfold uvmcopyLoop
    have hStop : ¬ m * PGSIZE < sz := by
      simp only [PGSIZE] at *
      omega
    rw [if_neg hStop, wp_pure]
    exact hDone w s' (hEq hStop hEnd ▸ h) (hEq hStop hEnd ▸ hCopied)
  | succ k ih =>
    intro m w s' h hCopied hFuel hEnd
    have hm : m ≤ NPAGES := hEnd.trans hn
    unfold uvmcopyLoop
    by_cases hMore : m * PGSIZE < sz
    · have hIn : m < npages sz := by
        unfold npages
        simp only [PGSIZE] at *
        omega
      have hAll : s'.Sound L (w.tables + w.pages 0 (m - 0) +
          vo.own (npages sz)) := h.trades.sound_frame hSound
      have ho' : vo.Shows old s'.mem :=
        ho.congr (fun q hq => h.trades.kept hSound (mem_add.mpr (.inl hq)))
      have hva := mul_PGSIZE_lt hm
      obtain ⟨⟨pa, flags⟩, hLeaf⟩ := Option.ne_none_iff_exists'.mp (hSpace.user m hIn)
      obtain ⟨_, hPa, hFlags⟩ := ho.addr m pa flags hLeaf
      have hVoFlags : vo.flags m = flags := by
        unfold PtView.flags
        rw [hLeaf]
        rfl
      rw [if_pos hMore]
      rw [wp_bind]
      refine walk_leaf ho' hAll.right.left hva hLeaf ?_
      intro pt _ hEntry
      simp only [wp_bind]
      refine loadPte_rule ?_
      rw [hEntry, pteHas_mkPte (by decide), PTE_FLAGS_mkPte hFlags.1,
        if_neg (by rw [hFlags.2.1]; decide), wp_bind]
      refine kalloc_rule ?_ ?_
      · intro s₁ hTrades
        have hBecomes := PtView.Becomes.of_trades h.shows hAll.left.left hTrades
        exact uvmcopy_undo (h.grow hBecomes rfl) hm hSound.left hNone hFail
      intro mem s₁ hTake
      simp only [wp_bind, wp_edit]
      rw [add64_page hva]
      refine h.page_rule hCopied hAll.left (Nat.zero_le m) hm (hNone m (hm.trans_lt NPAGES_lt))
        (hTake.trans (Pool.Trades.write _ (mem_singleton_self mem) _)) ?_
        (by rw [or_valid hFlags.2.1]; exact hFlags)
        ((or_valid hFlags.2.1).trans hVoFlags.symm) ?_ ?_
      · have hOwn : pa ∈ vo.own (npages sz) :=
          mem_add.mpr (.inr (PtView.mem_pages hLeaf (Nat.zero_le _) (by omega)))
        have hPage : vo.page s.mem m = s.mem pa := by
          unfold PtView.page
          rw [hLeaf]
          rfl
        rw [hPage, ← h.trades.kept hSound hOwn]
        change update s₁.mem mem _ mem = _
        rw [update_self, PTE2PA_mkPte hPa hFlags.1]
        exact hTake.kept (by rw [zero_add]; exact hAll.right) hOwn
      · intro u s₃ hAdds hCopied' _
        exact ih hAdds hCopied' (by omega) hIn
      · intro u s₃ hSame
        exact uvmcopy_undo hSame hm hSound.left hNone hFail
    · rw [if_neg hMore, wp_pure]
      exact hDone w s' (hEq hMore hEnd ▸ h) (hEq hMore hEnd ▸ hCopied)

theorem uvmcopy_rule {sz : Nat} (h : v.Shows root s.mem) (ho : vo.Shows old s.mem)
    (hSpace : vo.Space L (npages sz) tf) (hSound : s.Sound L (v.tables + vo.own (npages sz)))
    (hNone : ∀ i < USERPAGES, v.leaf i = none)
    (hFail : ∀ u s', PtView.Becomes root v u s s' → u.leaf = v.leaf → Q false s')
    (hDone : ∀ u s', PtView.Adds root v u 0 (npages sz) vo.flags s s' →
      u.Contents s'.mem 0 (npages sz) (vo.page s.mem) → Q true s') :
    wp (uvmcopy L old root sz) Q E s := by
  unfold uvmcopy
  exact uvmcopyLoop_rule ho hSpace hSound hNone hFail hDone
    (.refl h) (fun _ _ _ _ hLt => absurd hLt (Nat.not_lt_zero _)) (Nat.zero_add _) (Nat.zero_le _)

end Copy

end Xv6
