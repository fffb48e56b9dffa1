import Xv6.Vm.KernelSafety

/-
  Growing, copying and shrinking the memory of a process.

  The main results are:
    * `uvmalloc_is_atomic`
    * `uvmcopy_is_private`
    * `growproc_does_what_it_reports`
-/

open Prog Function

-------
-- Page Tables
-------

namespace Xv6

variable {L : MemLayout} {s : Ram} {root old : Nat} {v vo : PtView} {sz tf : Nat}

/- The user pages of a table are those below `n`. -/
structure PtView.Below (L : MemLayout) (root : Nat) (v : PtView) (n : Nat) (s : Ram) : Prop where
  shows : v.Shows root s.mem
  sound : s.Sound L (v.tables + v.pages 0 n)
  user : ∀ i < n, v.leaf i ≠ none
  gap : ∀ i, n ≤ i → i < USERPAGES → v.leaf i = none

theorem leafFlags_user :
    ∀ xperm < 1024, PtView.LeafFlags (PTE_R ||| PTE_U ||| xperm ||| PTE_V) := by
  decide +kernel

/-
  Wherever `kalloc` refuses a page, `uvmalloc` leaves the
  mappings and takes pages only for tables, or it adds exactly
  the pages of the new size, zeroed, and `uvmdealloc` takes
  them away again.
-/
theorem uvmalloc_is_atomic
    {oldsz newsz xperm : Nat}
    (h : PtView.Below L root v (npages oldsz) s)
    (hLe : oldsz ≤ newsz)
    (hPerm : xperm < 1024) :
    ∃ r s' w, uvmalloc L root oldsz newsz xperm s = (.ok r, s') ∧
      ((r = 0 ∧ PtView.Becomes root v w s s' ∧ w.leaf = v.leaf) ∨
        (r = newsz ∧ PtView.Adds root v w (npages oldsz) (npages newsz)
            (fun _ => PTE_R ||| PTE_U ||| xperm ||| PTE_V) s s' ∧
          w.Contents s'.mem (npages oldsz) (npages newsz)
            (fun _ => filled 0) ∧
          PtView.Below L root w (npages newsz) s' ∧
          ∃ s'' u, uvmdealloc L root newsz oldsz s' = (.ok oldsz, s'') ∧
            PtView.Becomes root v u s s'' ∧ u.leaf = v.leaf)) := by
  suffices hRule : wp (uvmalloc L root oldsz newsz xperm) (fun r s' => ∃ w, _) (fun _ _ => False) s
    by
    obtain ⟨r, s', hRun, w, hCases⟩ := exists_ok_of_wp hRule
    exact ⟨r, s', w, hRun, hCases⟩
  refine uvmalloc_rule h.shows h.sound h.user h.gap (leafFlags_user xperm hPerm)
    (fun hLess => absurd hLess (Nat.not_lt.mpr hLe))
    (fun u s' hBecomes hLeaf => ⟨u, .inl ⟨rfl, hBecomes, hLeaf⟩⟩) ?_
  intro w s' _ hAdds hZero hMax
  have hMono := npages_mono hLe
  obtain ⟨r, s'', hRun, rfl, u, hBack⟩ := exists_ok_of_wp
    (hAdds.dealloc (Q := fun r s'' => r = oldsz ∧
        ∃ u, PtView.Becomes root v u s s'' ∧ u.leaf = v.leaf)
      hLe hMax h.sound h.gap (fun u s'' hBecomes hLeaf => ⟨rfl, u, hBecomes, hLeaf⟩))
  refine ⟨w, .inr ⟨rfl, hAdds, hZero, ⟨hAdds.shows, (hAdds.trades_all hMono).sound h.sound,
    hAdds.mapped h.user, fun i hi hLt => ?_⟩, s'', u, hRun, hBack⟩⟩
  rw [hAdds.old i (.inr hi)]
  exact h.gap i (hMono.trans hi) hLt

theorem below_empty : PtView.Below Vm.smallLayout (Vm.smallPage 0)
    (PtView.empty (Vm.smallPage 0)) (npages 0) Vm.smallRam := by
  refine ⟨PtView.shows_empty rfl, ?_, nofun, fun _ _ _ => rfl⟩
  rw [Vm.npages_zero, PtView.tables_empty]
  exact Vm.sound_smallRam

/- An empty table gets a page of zeros. -/
theorem empty_table_grows :
    ∃ s' w, uvmalloc Vm.smallLayout (Vm.smallPage 0) 0 PGSIZE
        PTE_W Vm.smallRam = (.ok PGSIZE, s') ∧
      PtView.Below Vm.smallLayout (Vm.smallPage 0) w 1 s' ∧
      w.Contents s'.mem 0 1 (fun _ => filled 0) := by
  have hDone : (uvmalloc Vm.smallLayout (Vm.smallPage 0) 0 PGSIZE
      PTE_W Vm.smallRam).1.toOption = some PGSIZE := by
    decide +kernel
  obtain ⟨r, s', w, hRun, hCases⟩ := uvmalloc_is_atomic
    below_empty (Nat.zero_le PGSIZE) (show PTE_W < 1024 by decide)
  rw [hRun] at hDone
  cases hDone
  rcases hCases with ⟨hZero, _⟩ | ⟨_, _, hPage, hBelow, _⟩
  · cases hZero
  · exact ⟨s', w, hRun, hBelow, hPage⟩

/-
  Wherever `kalloc` refuses a page, `uvmcopy` does not touch
  the parent. The child has no user page, or it has the same
  pages as the parent in other memory, so that what one of
  them stores is not seen by the other.
-/
theorem uvmcopy_is_private
    (h : v.Shows root s.mem)
    (ho : vo.Shows old s.mem)
    (hSpace : vo.Space L (npages sz) tf)
    (hSound : s.Sound L (v.tables + vo.own (npages sz)))
    (hNone : ∀ i < USERPAGES, v.leaf i = none) :
    ∃ b s' w, uvmcopy L old root sz s = (.ok b, s') ∧
      vo.Shows old s'.mem ∧
      (∀ q ∈ vo.own (npages sz), s'.mem q = s.mem q) ∧
      (b = false → PtView.Becomes root v w s s' ∧ w.leaf = v.leaf) ∧
      (b = true → w.Shows root s'.mem ∧
        s'.Sound L (w.own (npages sz) + vo.own (npages sz)) ∧
        (∀ i < npages sz, ∃ pa pa' flags, vo.leaf i = some (pa, flags) ∧
          w.leaf i = some (pa', flags) ∧ s'.mem pa' = s.mem pa ∧
            pa' ∉ vo.own (npages sz)) ∧
        ∀ s'', (s'.Trades s'' (w.own (npages sz)) (w.own (npages sz)) →
            ∀ q ∈ vo.own (npages sz), s''.mem q = s'.mem q) ∧
          (s'.Trades s'' (vo.own (npages sz)) (vo.own (npages sz)) →
            ∀ q ∈ w.own (npages sz), s''.mem q = s'.mem q)) := by
  suffices hRule : wp (uvmcopy L old root sz) (fun b s' => ∃ w, _) (fun _ _ => False) s by
    obtain ⟨b, s', hRun, w, hCases⟩ := exists_ok_of_wp hRule
    exact ⟨b, s', w, hRun, hCases⟩
  have hKept {M : Multiset Nat} {s' : Ram} (hTrades : s.Trades s' v.tables M) (q : Nat)
      (hq : q ∈ vo.own (npages sz)) : s'.mem q = s.mem q := hTrades.kept hSound hq
  have hParent {s' : Ram} (hSame : ∀ q ∈ vo.own (npages sz), s'.mem q = s.mem q) :
      vo.Shows old s'.mem := ho.congr (fun q hq => hSame q (Multiset.mem_add.mpr (.inl hq)))
  refine uvmcopy_rule h ho hSpace hSound hNone ?_ ?_
  · intro u s' hBecomes hLeaf
    exact ⟨u, hParent (hKept hBecomes.trades), hKept hBecomes.trades,
      fun _ => ⟨hBecomes, hLeaf⟩, nofun⟩
  intro w s' hAdds hCopied
  have hBoth : s'.Sound L (w.own (npages sz) + vo.own (npages sz)) :=
    hAdds.trades.sound_frame hSound
  refine ⟨w, hParent (hKept hAdds.trades), hKept hAdds.trades, nofun,
    fun _ => ⟨hAdds.shows, hBoth, ?_, fun s'' => ⟨fun hTrades q hq => hTrades.kept hBoth hq,
      fun hTrades q hq => hTrades.kept (by rw [add_comm]; exact hBoth) hq⟩⟩⟩
  intro i hi
  obtain ⟨⟨pa, flags⟩, hOld⟩ := Option.ne_none_iff_exists'.mp (hSpace.user i hi)
  obtain ⟨pa', hNew⟩ := hAdds.new i (Nat.zero_le i) hi
  have hPage := hCopied i pa' _ (Nat.zero_le i) hi hNew
  unfold PtView.page at hPage
  unfold PtView.flags at hNew
  rw [hOld] at hPage hNew
  rw [add_comm] at hBoth
  refine ⟨pa, pa', flags, hOld, hNew, hPage, hBoth.not_mem ?_⟩
  exact Multiset.mem_add.mpr (.inr (PtView.mem_pages hNew (Nat.zero_le i) (by omega)))

/- The page of the first process is copied to a new table. -/
theorem first_process_copied :
    ∃ (v w : PtView) (root : Nat) (s s' : Ram),
      uvmcreate Vm.bootedKernel.vm = (.ok (some root), s) ∧
      uvmcopy Vm.smallLayout
          (Vm.bootedKernel.proc 0).mem.pagetable root PGSIZE s =
        (.ok true, s') ∧
      v.Shows (Vm.bootedKernel.proc 0).mem.pagetable s'.mem ∧
      w.Shows root s'.mem ∧
      ∃ pa pa' flags, v.leaf 0 = some (pa, flags) ∧
        w.leaf 0 = some (pa', flags) ∧
        s'.mem pa' = s.mem pa ∧ pa' ≠ pa := by
  set old := (Vm.bootedKernel.proc 0).mem.pagetable
  have hSz : (Vm.bootedKernel.proc 0).mem.sz = PGSIZE := by
    decide +kernel
  have hRoot : (uvmcreate Vm.bootedKernel.vm).1.toOption =
      some (some (Vm.smallPage 8)) := by
    decide +kernel
  have hDone : (uvmcopy Vm.smallLayout old (Vm.smallPage 8) PGSIZE
      (uvmcreate Vm.bootedKernel.vm).2).1.toOption = some true := by
    decide +kernel
  obtain ⟨v, hHolds, hSound, _⟩ := Vm.exists_holds_of_reach
    Vm.reach_bootedKernel (p := 0) (by decide +kernel)
  have hSpace := hHolds.space
  have hOwn := hSound.left
  rw [hSz] at hSpace hOwn
  obtain ⟨r, s, hRun, hNew⟩ := exists_ok_of_wp (uvmcreate_rule
    (Q := fun r s => ∀ root, r = some root →
      (PtView.empty root).Shows root s.mem ∧
      Vm.bootedKernel.vm.Trades s 0 (PtView.empty root).tables)
    (fun _ _ => nofun) (fun _ _ hShows hTrades _ hSome => by
      cases hSome
      exact ⟨hShows, hTrades⟩))
  rw [hRun] at hRoot hDone
  cases hRoot
  obtain ⟨hShows, hTrades⟩ := hNew _ rfl
  rw [← zero_add (v.own _)] at hOwn
  obtain ⟨b, s', w, hCopy, hOld, _, _, hTrue⟩ :=
    uvmcopy_is_private hShows (hHolds.shows.congr fun q hq =>
        hTrades.kept hOwn (Multiset.mem_add.mpr (.inl hq)))
      hSpace (hTrades.sound_frame hOwn) (fun _ _ => rfl)
  rw [hCopy] at hDone
  cases hDone
  obtain ⟨hChild, _, hPages, _⟩ := hTrue rfl
  obtain ⟨pa, pa', flags, hLeaf, hLeaf', hSame, hOther⟩ :=
    hPages 0 (by decide)
  refine ⟨v, w, _, s, s', hRun, hCopy, hOld, hChild, pa, pa',
    flags, hLeaf, hLeaf', hSame, ?_⟩
  rintro rfl
  exact hOther (Multiset.mem_add.mpr (.inr
    (PtView.mem_pages hLeaf (Nat.zero_le 0) (by decide))))

end Xv6

-------
-- Processes
-------

namespace Xv6.Vm

variable {P : Type} [Fintype P] [DecidableEq P] {L : MemLayout} {k : Kernel P} {procs : List P}
variable {p : P}

/-
  `growproc` succeeds with the new size and exactly its pages,
  or it fails and the memory of the process is what it was. It
  fails if the new size is negative, or there are too few pages.
-/
def GrowsAsReported
    (L : MemLayout)
    (k : Kernel P)
    (p : P)
    (n : BitVec 32) : Prop :=
  ∃ b k', growproc L p n k = (.ok b, k') ∧
    (b = true →
      ((k'.proc p).mem.sz : Int) = (k.proc p).mem.sz + n.toInt ∧
      ∀ i < TRAPFRAME / PGSIZE,
        (leafAt k'.vm.mem (k'.proc p).mem.pagetable i ≠ none ↔
          i * PGSIZE < PGROUNDUP (k'.proc p).mem.sz)) ∧
    (b = false →
      (k'.proc p).mem = (k.proc p).mem ∧
      ∀ i < TRAPFRAME / PGSIZE,
        leafAt k'.vm.mem (k.proc p).mem.pagetable i =
          leafAt k.vm.mem (k.proc p).mem.pagetable i) ∧
    (((k.proc p).mem.sz : Int) + n.toInt < 0 ∨
      npages (k.proc p).mem.sz + k.vm.free.length <
        npages ((k.proc p).mem.sz + n.toInt).toNat →
      b = false)

theorem growproc_reports
    (hReach : (kernel L procs).Reach System.Anything k)
    (hRuns : (k.proc p).state = .runnable)
    (n : BitVec 32)
    (deny : List Bool)
    (hNonneg : 0 ≤ ((k.proc p).mem.sz : Int) + n.toInt) :
    GrowsAsReported L
      { k with vm := { k.vm with deny := deny } } p n := by
  obtain ⟨A, hA, view, PM, hOk, hSettled⟩ := kernel_good hReach
  set k₀ : Kernel P := { k with vm := { k.vm with deny := deny } } with hk₀
  have hOk₀ : Kernel.Ok L A k₀ view 0 PM 0 := hOk.setDeny deny
  have hCaller : Caller k₀ p := ⟨hRuns, hSettled⟩
  have hPt := hCaller.pagetable
  obtain ⟨b, k', hRun, sz, s', v, rfl, hOk', hSize⟩ := exists_ok_of_wp
    (growproc_rule hA hOk₀ hPt n (Q := fun b k' => ∃ sz s' v,
      k' = { k₀.setMem p { (k₀.proc p).mem with sz := sz } with
        vm := s' } ∧ Kernel.Ok L A k' (update view p v) 0 PM 0 ∧
      Resized k₀.vm.free.length (k₀.proc p).mem.sz n.toInt (view p) v b sz)
      (fun b sz s' v hOk' hSize => ⟨sz, s', v, rfl, hOk', hSize⟩))
  have hMem : (({ k₀.setMem p { (k₀.proc p).mem with sz := sz } with
        vm := s' } : Kernel P).proc p).mem = { (k.proc p).mem with sz := sz } := by
    rw [Kernel.setMem_self]
  have hState : (({ k₀.setMem p { (k₀.proc p).mem with sz := sz } with
        vm := s' } : Kernel P).proc p).state ≠ .unused := by
    rw [Kernel.setMem_self]
    exact hRuns.trans_ne (by decide)
  have hIsolated := (hCaller.good_sz hOk').isolated hA
  refine ⟨b, _, hRun, fun hTrue => ⟨?_, hIsolated.mapped p hState⟩, fun hFalse => ?_, ?_⟩
  · rw [hMem]
    exact (hSize.done hTrue hNonneg).1
  · obtain ⟨_, rfl, hLeaf⟩ := hSize.failed hFalse
    refine ⟨hMem, fun i hi => ?_⟩
    have hn := hi.trans (by decide : TRAPFRAME / PGSIZE < 512 * 512 * 512)
    have hNew := (hOk'.mem p).leafAt (hOk'.sound_proc hA p) (by rw [hMem]; exact hPt) hn
    have hOld := (hOk.mem p).leafAt (hOk.sound_proc hA p) hPt hn
    rw [hMem, update_self, hLeaf] at hNew
    exact hNew.trans hOld.symm
  · intro hLost
    by_contra hTrue
    obtain ⟨hSz, hPages⟩ := hSize.done (by simpa using hTrue) hNonneg
    rw [← hSz, Int.toNat_natCast] at hLost
    omega

/-
  In every run, and wherever `kalloc` refuses a page, `growproc`
  does what it reports just if the new size is not negative.
  Otherwise it succeeds and changes nothing.
-/
theorem growproc_does_what_it_reports
    (hReach : (kernel L procs).Reach System.Anything k)
    (hRuns : (k.proc p).state = .runnable)
    (n : BitVec 32)
    (deny : List Bool) :
    (GrowsAsReported L
        { k with vm := { k.vm with deny := deny } } p n ↔
      0 ≤ ((k.proc p).mem.sz : Int) + n.toInt) ∧
    (((k.proc p).mem.sz : Int) + n.toInt < 0 →
      growproc L p n
          { k with vm := { k.vm with deny := deny } } =
        (.ok true, { k with vm := { k.vm with deny := deny } })) := by
  have hUsed : (k.proc p).state ≠ .unused :=
    hRuns.trans_ne (by decide)
  have hSz := (processes_are_isolated hReach).1.size p hUsed
  have hBelow :
      ((k.proc p).mem.sz : Int) + n.toInt < 0 →
      growproc L p n
          { k with vm := { k.vm with deny := deny } } =
        (.ok true, { k with vm := { k.vm with deny := deny } }) := by
    intro hNeg
    obtain ⟨b, k', hRun, rfl, rfl⟩ := exists_ok_of_wp
      (growproc_below
        (k := { k with vm := { k.vm with deny := deny } })
        (Q := fun b k' => b = true ∧
          k' = { k with vm := { k.vm with deny := deny } })
        hSz hNeg ⟨rfl, rfl⟩)
    exact hRun
  refine ⟨⟨?_, growproc_reports hReach hRuns n deny⟩, hBelow⟩
  rintro ⟨b, k', hRun, _, _, hFails⟩
  by_contra hNeg
  rw [not_le] at hNeg
  rw [hBelow hNeg] at hRun
  cases hRun
  cases hFails (.inl hNeg)

/- The first process has one page, and can give it back. -/
theorem first_process_gives_page :
    ∃ k', growproc smallLayout 0 (-4096)
        { bootedKernel with
          vm := { bootedKernel.vm with deny := [] } } =
        (.ok true, k') ∧
      (k'.proc 0).mem.sz = 0 := by
  have hSz : (bootedKernel.proc 0).mem.sz = 4096 := by
    decide +kernel
  have hDone : (growproc smallLayout 0 (-4096)
      { bootedKernel with
        vm := { bootedKernel.vm with deny := [] } }).1.toOption =
      some true := by
    decide +kernel
  obtain ⟨b, k', hRun, hTrue, _⟩ :=
    (growproc_does_what_it_reports reach_bootedKernel
      (p := 0) (by decide +kernel) (-4096) []).1.mpr
      (by rw [hSz]; decide)
  rw [hRun] at hDone
  cases hDone
  have hSize := (hTrue rfl).1
  rw [hSz] at hSize
  exact ⟨k', hRun, Int.ofNat.inj hSize⟩

/- It cannot give back two, but `growproc` returns 0. -/
theorem growproc_below_zero_returns :
    (kernel smallLayout [(0 : Fin 2), 1]).Reach System.Anything bootedKernel ∧
      (bootedKernel.proc 0).state = .runnable ∧
      ((bootedKernel.proc 0).mem.sz : Int) + (-8192 : BitVec 32).toInt < 0 ∧
      ∃ k', growproc smallLayout 0 (-8192) bootedKernel = (.ok true, k') ∧
        (k'.proc 0).mem.sz = (bootedKernel.proc 0).mem.sz := by
  have hRun : (growproc smallLayout 0 (-8192) bootedKernel).1.toOption = some true := by
    decide +kernel
  exact ⟨reach_bootedKernel, by decide +kernel, by decide +kernel, _, Prog.eq_ok hRun,
    by decide +kernel⟩

end Xv6.Vm
