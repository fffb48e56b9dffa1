import Xv6.Vm.Transfer

/-
  Page tables as finite maps from page numbers to pages with
  flags.

  The map of a page table is read from memory, entry by entry.
  The rules of `vm.c` say what each function makes of it.

  Key theorems include:
    * `page_tables_are_finite_maps`
-/

-------
-- Finite Maps
-------

namespace Xv6

variable {L : MemLayout} {s s' : Ram} {root : Nat} {v w : PtView}

/- Well-formed tables, and the map that they stand for. -/
structure PtView.Maps (L : MemLayout) (root : Nat) (v : PtView) (s : Ram) : Prop where
  shows : v.Shows root s.mem
  sound : s.Sound L v.tables

theorem PtView.Maps.becomes (h : PtView.Maps L root v s) (hBecomes : PtView.Becomes root v w s s') :
    PtView.Maps L root w s' :=
  ⟨hBecomes.shows, hBecomes.trades.sound h.sound⟩

/-
  `mappages` adds the pages of the range, or an initial part
  of them if it fails. `walk` keeps the map, and `uvmunmap`
  removes a range. `freewalk` frees every table once.
-/
theorem page_tables_are_finite_maps
    (h : PtView.Maps L root v s) :
    (∀ n < 512 * 512 * 512, leafAt s.mem root n = v.leaf n) ∧
    (∀ va size pa perm n, 0 < size → va + size ≤ MAXVA →
      va / PGSIZE + n = (va + size - 1) / PGSIZE →
      (∀ i, va / PGSIZE ≤ i → i ≤ va / PGSIZE + n → v.leaf i = none) →
      PageAddr pa → PtView.LeafFlags (perm ||| PTE_V) →
      ∃ b s' w m, mappages root va size pa perm s = (.ok b, s') ∧
        PtView.Maps L root w s' ∧
        w.leaf = mapped v.leaf (va / PGSIZE) m pa (perm ||| PTE_V) ∧
        if b then m = n + 1 else m ≤ n) ∧
    (∀ va < MAXVA, ∃ r s' w, walk root va true s = (.ok r, s') ∧
      PtView.Maps L root w s' ∧ w.leaf = v.leaf) ∧
    (∀ a n doFree, (a + n) * PGSIZE ≤ MAXVA →
        (∀ i, a ≤ i → i < a + n → v.leaf i ≠ none) →
      s.Sound L (v.tables + if doFree then v.pages a n else 0) →
      ∃ s' w, uvmunmap L root (a * PGSIZE) n doFree s = (.ok (), s') ∧
        PtView.Maps L root w s' ∧ w.leaf = unmapped v.leaf a n) ∧
    ((∀ n, v.leaf n = none) →
      ∃ s', freewalk L 3 root s = (.ok (), s') ∧
        ∀ q, s'.free.count q = s.free.count q + v.tables.count q ∧
          v.tables.count q ≤ 1) := by
  refine ⟨fun n hn => ?_, ?_, fun va hva => ?_, ?_, fun hEmpty => ?_⟩
  · exact h.shows.leafAt (fun _ hMem => (h.sound.area_of_mem hMem).pageAddr) hn
  · intro va size pa perm n hSize hMax hn hNone hPa hPerm
    have hRule := mappages_range (E := fun _ _ => False)
      (Q := fun b s' => ∃ w m, PtView.Maps L root w s' ∧
        w.leaf = mapped v.leaf (va / PGSIZE) m pa (perm ||| PTE_V) ∧
        if b then m = n + 1 else m ≤ n)
      hPerm h.shows h.sound hSize hMax hn hNone hPa
      (fun w s' m hm hBecomes hLeaf => ⟨w, m, h.becomes hBecomes, hLeaf, hm⟩)
      (fun w s' hBecomes hLeaf => ⟨w, n + 1, h.becomes hBecomes, hLeaf, rfl⟩)
    obtain ⟨b, s', hRun, w, m, hPost⟩ := Prog.exists_ok_of_wp hRule
    exact ⟨b, s', w, m, hRun, hPost⟩
  · have hRule := walk_alloc (E := fun _ _ => False)
      (Q := fun _ s' => ∃ w, PtView.Maps L root w s' ∧ w.leaf = v.leaf)
      h.shows h.sound hva
      (fun w s' hBecomes hLeaf => ⟨w, h.becomes hBecomes, hLeaf⟩)
      (fun w s' _ hBecomes hLeaf _ => ⟨w, h.becomes hBecomes, hLeaf⟩)
    obtain ⟨r, s', hRun, w, hPost⟩ := Prog.exists_ok_of_wp hRule
    exact ⟨r, s', w, hRun, hPost⟩
  · intro a n doFree hMax hMapped hSound
    have hRule := uvmunmap_rule (E := fun _ _ => False)
      (Q := fun _ s' => ∃ w, PtView.Maps L root w s' ∧ w.leaf = unmapped v.leaf a n)
      doFree h.shows hSound hMax hMapped
      (fun w s' hShows _ hLeaf hTrades => ⟨w, ⟨hShows, hTrades.sound hSound⟩, hLeaf⟩)
    obtain ⟨_, s', hRun, w, hPost⟩ := Prog.exists_ok_of_wp hRule
    exact ⟨s', w, hRun, hPost⟩
  · have hRule := freewalk_rule (E := fun _ _ => False)
      (Q := fun _ s' => s.Trades s' v.tables 0) h.shows h.sound hEmpty
      (fun s' hTrades => hTrades)
    obtain ⟨_, s', hRun, hTrades⟩ := Prog.exists_ok_of_wp hRule
    refine ⟨s', hRun, fun q => ⟨?_, ?_⟩⟩
    · have hCells := congrArg (Multiset.count q) hTrades.cells
      simpa using hCells
    · exact Multiset.nodup_iff_count_le_one.mp (Multiset.nodup_add.mp h.sound.nodup).2.1 q

/- A page is mapped in a table that was just created. -/
theorem empty_table_is_finite_map :
    PtView.Maps Vm.smallLayout (Vm.smallPage 0)
      (PtView.empty (Vm.smallPage 0)) Vm.smallRam ∧
    ∃ s' w, mappages (Vm.smallPage 0) 0 PGSIZE (Vm.smallPage 1)
        PTE_R Vm.smallRam = (.ok true, s') ∧
      PtView.Maps Vm.smallLayout (Vm.smallPage 0) w s' ∧
      w.leaf = mapped (PtView.empty (Vm.smallPage 0)).leaf 0 1
        (Vm.smallPage 1) (PTE_R ||| PTE_V) := by
  have h : PtView.Maps Vm.smallLayout (Vm.smallPage 0)
      (PtView.empty (Vm.smallPage 0)) Vm.smallRam := by
    refine ⟨PtView.shows_empty rfl, ?_⟩
    rw [PtView.tables_empty]
    exact Vm.sound_smallRam
  have hDone : (mappages (Vm.smallPage 0) 0 PGSIZE (Vm.smallPage 1)
      PTE_R Vm.smallRam).1.toOption = some true := by
    decide +kernel
  obtain ⟨b, s', w, m, hRun, hMaps, hLeaf, hm⟩ :=
    (page_tables_are_finite_maps h).2.1 0 PGSIZE (Vm.smallPage 1)
      PTE_R 0 (by decide) (by decide) (by decide)
      (fun _ _ _ => rfl) ⟨by decide, by decide⟩ (by decide)
  rw [hRun] at hDone
  cases hDone
  cases hm
  exact ⟨h, s', w, hRun, hMaps, hLeaf⟩

end Xv6
