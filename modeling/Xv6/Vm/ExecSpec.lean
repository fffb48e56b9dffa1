import Xv6.Vm.Exec
import Xv6.Vm.Space

/-
  What `exec` does to memory.

  The new page table is made from free pages, next to what
  the process has. Until it is complete, everything can be
  given back, and the process has lost nothing.

  Key definitions include:
    * `UserMem.Holds`
    * `Built`

  Key theorems include:
    * `loadseg_rule`
    * `execLoop_rule`
    * `exec_rule`
-/

open Function Multiset

-------
-- Processes
-------

namespace Xv6.Vm

open Prog

/- The page table of a process is as it should be. -/
structure UserMem.Holds (L : MemLayout) (m : UserMem) (v : PtView) (s : Ram) : Prop where
  shows : v.Shows m.pagetable s.mem
  space : v.Space L (npages m.sz) m.trapframe

/- The pages of a process. -/
def UserMem.pages (m : UserMem) (v : PtView) : Multiset Nat := v.own (npages m.sz) + {m.trapframe}

/- Only memory has changed. -/
structure Task.Same (t t' : Task) : Prop where
  mem : t'.mem = t.mem
  ops : t'.ops = t.ops
  refs : t'.refs = t.refs
  locked : t'.locked = t.locked

theorem Task.Same.refl (t : Task) : t.Same t := ⟨rfl, rfl, rfl, rfl⟩

theorem Task.Same.setVm (t : Task) (s : Ram) : t.Same { t with vm := s } := ⟨rfl, rfl, rfl, rfl⟩

theorem Task.Same.trans {t t' t'' : Task} (h : t.Same t') (h' : t'.Same t'') : t.Same t'' :=
  ⟨h'.mem.trans h.mem, h'.ops.trans h.ops, h'.refs.trans h.refs, h'.locked.trans h.locked⟩

variable {t t' : Task} {E : Halt → Task → Prop}

variable {Q : Unit → Task → Prop}

/- Code of `vm.c` sees memory only. -/
theorem inVm_rule {α : Type} {m : VmM α} {Q : α → Task → Prop} :
    wp (inVm m) Q E t ↔ wp m (fun a s => Q a { t with vm := s })
        (fun e s => E (.vm e) { t with vm := s }) t.vm :=
  wp_zoom

theorem readi_rule {ip : Image} {off n : Nat} {Q : List UInt8 → Task → Prop}
    (hQ : ∀ bytes t', t.Same t' → t'.vm = t.vm → Q bytes t') : wp (readi ip off n) Q E t := by
  unfold readi
  simp only [wp_bind, wp_read, wp_edit]
  cases t.cuts.headD none with
  | _ =>
    rw [wp_pure]
    exact hQ _ _ ⟨rfl, rfl, rfl, rfl⟩ rfl

theorem iunlockput_rule {ip : Image} {l r : List Nat} (hLocked : t.locked = ip.inum :: l)
    (hRefs : t.refs = ip.inum :: r)
    (hQ : Q () { t with locked := l, refs := r }) : wp (iunlockput ip) Q E t := by
  unfold iunlockput
  rw [wp_bind, wp_read, if_neg (by simp [hLocked, hRefs]),
    wp_edit, hLocked, hRefs, List.erase_cons_head,
    List.erase_cons_head]
  exact hQ

theorem endOp_rule {n : Nat} (hOps : t.ops = n + 1)
    (hQ : Q () { t with ops := n }) : wp endOp Q E t := by
  unfold endOp
  rw [wp_bind, wp_read, if_neg (by omega), wp_edit, hOps]
  exact hQ

-------
-- New Page Tables
-------

/-
  A page table with `n` pages of user memory was made from
  free pages.
-/
structure Built (L : MemLayout) (tf root n : Nat) (w : PtView) (s s' : Ram) : Prop where
  shows : w.Shows root s'.mem
  space : w.Space L n tf
  trades : s.Trades s' 0 (w.own n)

/- The user can access all of the pages. -/
def PtView.Open (w : PtView) (n : Nat) : Prop :=
  ∀ i < n, ∃ pa flags, w.leaf i = some (pa, flags) ∧ pteHas flags PTE_U = true

namespace Built

variable {L : MemLayout} {tf root n : Nat} {w u : PtView} {s s' s'' : Ram} {m : Nat}
variable {flags : Nat → Nat}

section

variable (h : Built L tf root n w s s')
include h

theorem sound (hSound : s.Sound L 0) : s'.Sound L (w.own n) :=
  h.trades.sound hSound

theorem le_npages (hSound : s.Sound L 0) : n ≤ NPAGES :=
  h.space.le_npages (h.sound hSound)

/- User memory is written. -/
theorem write (hSound : s.Sound L 0) (hTrades : s'.Trades s'' (w.pages 0 n) (w.pages 0 n)) :
    Built L tf root n w s s'' where
  shows := (h.shows.write (h.sound hSound) hTrades).1
  space := h.space
  trades := by
    refine h.trades.trans ?_
    exact (hTrades.frame w.tables).congr (add_comm _ _) (add_comm _ _)

/- Tables are added. -/
theorem becomes (hBecomes : PtView.Becomes root w u s' s'') (hLeaf : u.leaf = w.leaf) :
    Built L tf root n u s s'' where
  shows := hBecomes.shows
  space := h.space.congr hLeaf
  trades := by
    have hPages : u.pages 0 n = w.pages 0 n := PtView.pages_congr (fun i _ _ => by rw [hLeaf])
    refine h.trades.trans ?_
    exact (hBecomes.trades.frame (w.pages 0 n)).congr rfl (by rw [PtView.own, hPages])

/- Pages are added. -/
theorem adds (hAdds : PtView.Adds root w u n m flags s' s'') (hLe : n ≤ m) (hm : m ≤ NPAGES) :
    Built L tf root m u s s'' where
  shows := hAdds.shows
  space := h.space.adds hAdds hLe hm
  trades := h.trades.trans (hAdds.trades_all hLe)

end

/- Pages that were added can be accessed. -/
theorem isOpen (hAdds : PtView.Adds root w u n m flags s' s'') (hOpen : PtView.Open w n)
    (hFlags : ∀ i, pteHas (flags i) PTE_U = true) : PtView.Open u m := by
  intro i hi
  by_cases hOld : i < n
  · rw [hAdds.old i (.inl hOld)]
    exact hOpen i hOld
  · obtain ⟨pa, hLeaf⟩ := hAdds.new i (by omega) hi
    exact ⟨pa, flags i, hLeaf, hFlags i⟩

/- A page of user memory is made inaccessible. -/
theorem clear (h : Built L tf root n w s s') {i pa flags flags' : Nat} (hi : i < n)
    (hn : n ≤ NPAGES) (hOld : w.leaf i = some (pa, flags))
    (hBecomes : PtView.Becomes root w u s' s'')
    (hLeaf : u.leaf = update w.leaf i (some (pa, flags'))) : Built L tf root n u s s'' := by
  have hNe : ∀ j, n ≤ j → u.leaf j = w.leaf j := by
    intro j hj
    rw [hLeaf, update_of_ne (by omega)]
  have hAddr : ∀ j, (u.leaf j).map Prod.fst = (w.leaf j).map Prod.fst := by
    intro j
    by_cases hj : j = i
    · rw [hj, hLeaf, update_self, hOld]
      rfl
    · rw [hLeaf, update_of_ne hj]
  have hPages : u.pages 0 n = w.pages 0 n := by
    exact Finset.sum_congr rfl (fun j _ => by rw [hAddr j])
  refine ⟨hBecomes.shows, h.space.remap hn hNe ?_ ?_, ?_⟩
  · intro j hj hNone
    have hMapped := hAddr j
    rw [hNone] at hMapped
    exact h.space.user j hj (Option.map_eq_none_iff.mp hMapped.symm)
  · intro j hLe hLt
    rw [hNe j hLe]
    exact h.space.gap j hLe hLt
  · refine h.trades.trans ?_
    exact (hBecomes.trades.frame (w.pages 0 n)).congr rfl (by rw [PtView.own, hPages])

end Built

-------
-- Loading
-------

variable {L : MemLayout} {tf root : Nat} {s : Ram} {E : Halt → Task → Prop} {n offset sz va : Nat}
variable {w : PtView} {ip : Image} {t₀ : Task} {Q : Bool → Task → Prop}

/-
  The pages of a segment are all there, so that the loop
  neither finds a hole nor comes to the end of `uint`.
-/
theorem loadsegLoop_rule (hSound : s.Sound L 0) (hOpen : PtView.Open w n)
    (hRoom : va + sz ≤ n * PGSIZE)
    (hQ : ∀ b t', t₀.Same t' → Built L tf root n w s t'.vm → Q b t') :
    ∀ {k j : Nat} {t : Task}, t₀.Same t → Built L tf root n w s t.vm → j + k = sz / PGSIZE + 1 →
      wp (loadsegLoop root va ip offset sz k (j * PGSIZE)) Q E t := by
  intro k
  induction k with
  | zero =>
    intro j t hSame hBuilt hFuel
    unfold loadsegLoop
    have hStop : ¬ j * PGSIZE < sz := by
      simp only [PGSIZE] at *
      omega
    rw [if_neg hStop, wp_pure]
    exact hQ true t hSame hBuilt
  | succ k ih =>
    intro j t hSame hBuilt hFuel
    unfold loadsegLoop
    by_cases hMore : j * PGSIZE < sz
    · have hn := hBuilt.le_npages hSound
      have hva : va + j * PGSIZE < n * PGSIZE := by omega
      have hAdd : add64 va (j * PGSIZE) = va + j * PGSIZE := by
        unfold add64
        simp only [NPAGES, PHYSTOP, PGSIZE] at *
        omega
      have hIn : (va + j * PGSIZE) / PGSIZE < n := (Nat.div_lt_iff_lt_mul (by decide)).mpr hva
      have hMax : va + j * PGSIZE < MAXVA := hva.trans (mul_PGSIZE_lt hn)
      obtain ⟨pa', flags', hLeaf', hUser'⟩ := hOpen _ hIn
      rw [if_pos hMore, hAdd]
      rw [wp_bind, inVm_rule]
      refine walkaddr_rule hBuilt.shows (hBuilt.sound hSound).left ?_ ?_
      · intro hNo
        have hFalse := hNo pa' flags' hMax hLeaf'
        rw [hUser'] at hFalse
        cases hFalse
      intro pa flags _ hLeaf _
      have hMem : pa ∈ w.pages 0 n := PtView.mem_pages hLeaf (Nat.zero_le _) (by omega)
      have hArea := (hBuilt.sound hSound).right.area_of_mem hMem
      rw [if_neg hArea.ne_zero, wp_bind]
      refine readi_rule (fun bytes t' hSame' hVm => ?_)
      rw [wp_bind, inVm_rule, wp_edit]
      have hTrades : t.vm.Trades (t'.vm.setPage pa ((t'.vm.mem pa).splice 0 bytes))
          (w.pages 0 n) (w.pages 0 n) := by
        rw [hVm]
        exact Pool.Trades.write _ hMem _
      have hBuilt' := hBuilt.write hSound hTrades
      have hSame'' : t₀.Same
          { t' with
            vm := t'.vm.setPage pa ((t'.vm.mem pa).splice 0 bytes) } :=
        (hSame.trans hSame').trans (.setVm t' _)
      rw [wp_ite]
      refine ⟨fun _ => ?_, fun _ => ?_⟩
      · rw [wp_pure]
        exact hQ false _ hSame'' hBuilt'
      have hNext : (j * PGSIZE + PGSIZE) % 2 ^ 32 = (j + 1) * PGSIZE := by
        simp only [NPAGES, PHYSTOP, PGSIZE] at *
        omega
      rw [hNext]
      exact ih hSame'' hBuilt' (by omega)
    · rw [if_neg hMore, wp_pure]
      exact hQ true t hSame hBuilt

theorem loadseg_rule {t : Task} (hSound : s.Sound L 0) (hBuilt : Built L tf root n w s t.vm)
    (hOpen : PtView.Open w n) (hRoom : va + sz ≤ n * PGSIZE)
    (hQ : ∀ b t', t.Same t' → Built L tf root n w s t'.vm → Q b t') :
    wp (loadseg root va ip offset sz) Q E t := by
  unfold loadseg
  exact loadsegLoop_rule hSound hOpen hRoom hQ (.refl t) hBuilt (Nat.zero_add _)

/- The permissions of a segment. -/
theorem flags2perm_cases (flags : Nat) :
    flags2perm flags = 0 ∨ flags2perm flags = PTE_X ∨ flags2perm flags = PTE_W ∨
      flags2perm flags = PTE_X ||| PTE_W := by
  unfold flags2perm
  by_cases hX : flags &&& 1 ≠ 0
  · by_cases hW : flags &&& 2 ≠ 0
    · rw [if_pos hX, if_pos hW]
      exact .inr (.inr (.inr rfl))
    · rw [if_pos hX, if_neg hW]
      exact .inr (.inl rfl)
  · by_cases hW : flags &&& 2 ≠ 0
    · rw [if_neg hX, if_pos hW]
      exact .inr (.inr (.inl rfl))
    · rw [if_neg hX, if_neg hW]
      exact .inl rfl

theorem leafFlags_flags2perm (flags : Nat) :
    PtView.LeafFlags (PTE_R ||| PTE_U ||| flags2perm flags ||| PTE_V) ∧
      pteHas (PTE_R ||| PTE_U ||| flags2perm flags ||| PTE_V) PTE_U = true := by
  rcases flags2perm_cases flags with h | h | h | h
  all_goals
    rw [h]
    decide

theorem npages_zero : npages 0 = 0 := by decide

theorem own_npages_zero (w : PtView) : w.own (npages 0) = w.tables := by
  rw [PtView.own, npages_zero, PtView.pages_zero, add_zero]

theorem execLoop_rule (hSound : s.Sound L 0) {Q : Bool × Nat → Task → Prop}
    (hQ : ∀ b sz w t', t₀.Same t' → Built L tf root (npages sz) w s t'.vm →
      (b = true → PtView.Open w (npages sz)) → Q (b, sz) t') :
    ∀ {n off sz : Nat} {w : PtView} {t : Task}, t₀.Same t → Built L tf root (npages sz) w s t.vm →
      PtView.Open w (npages sz) →
      wp (execLoop L root ip n off sz) Q E t := by
  intro n
  induction n with
  | zero =>
    intro off sz w t hSame hBuilt hOpen
    unfold execLoop
    rw [wp_pure]
    exact hQ true sz w t hSame hBuilt (fun _ => hOpen)
  | succ n ih =>
    intro off sz w t hSame hBuilt hOpen
    unfold execLoop
    rw [wp_bind]
    refine readi_rule (fun ph t' hSame' hVm => ?_)
    rw [← hVm] at hBuilt
    replace hSame' := hSame.trans hSame'
    have hBad : wp (return (false, sz) : TaskM (Bool × Nat)) Q E t' := by
      rw [wp_pure]
      exact hQ false sz w t' hSame' hBuilt (fun h => nomatch h)
    rw [wp_ite]
    refine ⟨fun _ => hBad, fun _ => ?_⟩
    rw [wp_ite]
    refine ⟨fun _ => ih hSame' hBuilt hOpen, fun _ => ?_⟩
    rw [wp_ite]
    refine ⟨fun _ => hBad, fun hSizes => ?_⟩
    rw [wp_ite]
    refine ⟨fun _ => hBad, fun hWrap => ?_⟩
    rw [wp_ite]
    refine ⟨fun _ => hBad, fun hAligned => ?_⟩
    -- the segment is within the memory that is allocated
    have hFits : ∀ sz' : Nat, add64 (field ph 16 8) (field ph 40 8) ≤ sz' →
        field ph 16 8 + field ph 32 8 % 2 ^ 32 ≤ npages sz' * PGSIZE := by
      intro sz' hLe
      have hRound := le_npages_mul sz'
      have hMem : field ph 40 8 < 2 ^ 64 :=
        (decodeLE_lt _).trans_le (Nat.pow_le_pow_right (by decide)
            (List.length_take_le 8 _))
      unfold add64 at *
      omega
    obtain ⟨hPerm, hUser⟩ := leafFlags_flags2perm (field ph 4 4)
    rw [wp_bind, inVm_rule]
    refine uvmalloc_rule hBuilt.shows (hBuilt.sound hSound)
      hBuilt.space.user hBuilt.space.gap hPerm ?_ ?_ ?_
    · intro hLess
      rw [if_neg (by omega), wp_bind]
      refine loadseg_rule hSound hBuilt hOpen (hFits sz hLess.le) (fun b t₂ hSame₂ hBuilt₂ => ?_)
      cases b with
      | true => exact ih (hSame'.trans hSame₂) hBuilt₂ hOpen
      | false =>
        rw [if_neg (by decide), wp_pure]
        exact hQ false sz w t₂ (hSame'.trans hSame₂) hBuilt₂ (fun h => nomatch h)
    · intro u s' hBecomes hLeaf
      rw [if_pos rfl, wp_pure]
      exact hQ false sz u _ (hSame'.trans (.setVm t' s'))
        (hBuilt.becomes hBecomes hLeaf) (fun h => nomatch h)
    · intro u s' hLe hAdds _ hMax
      have hBuilt₁ := hBuilt.adds hAdds (npages_mono hLe) hMax
      have hOpen₁ := Built.isOpen hAdds hOpen (fun _ => hUser)
      rw [wp_ite]
      refine ⟨fun hZero => ?_, fun _ => ?_⟩
      · -- the segment is empty, and nothing was allocated
        have hEq : sz = add64 (field ph 16 8) (field ph 40 8) := by omega
        rw [← hEq] at hBuilt₁
        rw [wp_pure]
        exact hQ false sz u _ (hSame'.trans (.setVm t' s')) hBuilt₁ (fun h => nomatch h)
      rw [wp_bind]
      refine loadseg_rule hSound hBuilt₁ hOpen₁
        (hFits _ le_rfl) (fun b t₂ hSame₂ hBuilt₂ => ?_)
      have hSame₃ := (hSame'.trans (.setVm t' s')).trans hSame₂
      cases b with
      | true => exact ih hSame₃ hBuilt₂ hOpen₁
      | false =>
        rw [if_neg (by decide), wp_pure]
        exact hQ false _ u t₂ hSame₃ hBuilt₂ (fun h => nomatch h)

-------
-- The Ways Out
-------

variable {t₀ t t' : Task} {E : Halt → Task → Prop} {sz : Nat}
variable {α : Type} {Q : Option α → Task → Prop}

/- The inode is locked, and an operation of the log begun. -/
structure Task.Opened (ip : Image) (t t' : Task) : Prop where
  mem : t'.mem = t.mem
  ops : t'.ops = t.ops + 1
  refs : t'.refs = ip.inum :: t.refs
  locked : t'.locked = ip.inum :: t.locked

theorem Task.Opened.same (h : Task.Opened ip t₀ t) (hSame : t.Same t') : Task.Opened ip t₀ t' :=
  ⟨hSame.mem.trans h.mem, hSame.ops.trans h.ops,
    hSame.refs.trans h.refs, hSame.locked.trans h.locked⟩

/- The inode and the operation are released. -/
theorem close_rule {m : TaskM α} (h : Task.Opened ip t₀ t) {Q : α → Task → Prop}
    (hQ : ∀ t', t₀.Same t' → t'.vm = t.vm → wp m Q E t') :
    wp (do iunlockput ip; endOp; m) Q E t := by
  rw [wp_bind]
  refine iunlockput_rule h.locked h.refs ?_
  rw [wp_bind]
  refine endOp_rule h.ops ?_
  exact hQ _ ⟨h.mem, rfl, rfl, rfl⟩ rfl

theorem Built.ne_zero {n : Nat} {s' : Ram} (h : Built L tf root n w s s') (hSound : s.Sound L 0) :
    root ≠ 0 :=
  ((h.sound hSound).left.area_of_mem h.shows.root_mem).ne_zero

/- The new page table is freed. -/
theorem Built.free (h : Built L tf root (npages sz) w s t.vm) (hSound : s.Sound L 0)
    {Q : Unit → Task → Prop} (hQ : ∀ s', s.Trades s' 0 0 → Q () { t with vm := s' }) :
    wp (inVm (procFreepagetable L root sz)) Q E t := by
  rw [inVm_rule]
  refine procFreepagetable_rule h.shows h.space (h.sound hSound) (fun s' hTrades => ?_)
  exact hQ s' (h.trades.trans hTrades)

theorem execBad_rule (hSame : t₀.Same t) (h : Built L tf root (npages sz) w s t.vm)
    (hSound : s.Sound L 0) (hQ : ∀ t', t₀.Same t' → s.Trades t'.vm 0 0 → Q none t') :
    wp (execBad L root sz none) Q E t := by
  unfold execBad
  rw [if_pos (h.ne_zero hSound), wp_bind]
  refine h.free hSound (fun s' hTrades => ?_)
  rw [wp_pure]
  exact hQ _ (hSame.trans (.setVm t s')) hTrades

theorem execBad_opened (hOpened : Task.Opened ip t₀ t) (h : Built L tf root (npages sz) w s t.vm)
    (hSound : s.Sound L 0) (hQ : ∀ t', t₀.Same t' → s.Trades t'.vm 0 0 → Q none t') :
    wp (execBad L root sz (some ip)) Q E t := by
  unfold execBad
  rw [if_pos (h.ne_zero hSound), wp_bind]
  refine h.free hSound (fun s' hTrades => ?_)
  refine close_rule (hOpened.same (.setVm t s')) (fun t' hSame hVm => ?_)
  rw [wp_pure]
  refine hQ t' hSame ?_
  rw [hVm]
  exact hTrades

/- There is no new page table yet. -/
theorem execBad_early (hOpened : Task.Opened ip t₀ t) (hTrades : s.Trades t.vm 0 0)
    (hQ : ∀ t', t₀.Same t' → s.Trades t'.vm 0 0 → Q none t') :
    wp (execBad L 0 0 (some ip)) Q E t := by
  unfold execBad
  refine close_rule hOpened (fun t' hSame hVm => ?_)
  rw [wp_pure]
  refine hQ t' hSame ?_
  rw [hVm]
  exact hTrades

-------
-- The New Image
-------

theorem pushArgs_rule {n stackbase len : Nat} {w : PtView} (hSound : s.Sound L 0)
    {Q : Option (Nat × List Nat) → Task → Prop}
    (hNone : ∀ t', t₀.Same t' → Built L tf root n w s t'.vm → Q none t')
    (hSome : ∀ sp ustack t', t₀.Same t' → Built L tf root n w s t'.vm → ustack.length = len →
        Q (some (sp, ustack)) t') :
    ∀ {argv : List (List UInt8)} {sp : Nat} {ustack : List Nat} {t : Task}, t₀.Same t →
      Built L tf root n w s t.vm →
      ustack.length + argv.length = len →
      wp (pushArgs root stackbase argv sp ustack) Q E t := by
  intro argv
  induction argv with
  | nil =>
    intro sp ustack t hSame hBuilt hLen
    unfold pushArgs
    rw [wp_pure]
    exact hSome sp ustack t hSame hBuilt hLen
  | cons arg argv ih =>
    intro sp ustack t hSame hBuilt hLen
    have hBad : wp (return none : TaskM (Option (Nat × List Nat))) Q E t := by
      rw [wp_pure]
      exact hNone t hSame hBuilt
    unfold pushArgs
    rw [wp_ite]
    refine ⟨fun _ => hBad, fun _ => ?_⟩
    rw [wp_ite]
    refine ⟨fun _ => hBad, fun _ => ?_⟩
    rw [wp_bind, inVm_rule]
    refine copyout_rule hBuilt.space hBuilt.shows (hBuilt.sound hSound) (fun b s' _ hTrades => ?_)
    have hBuilt' := hBuilt.write hSound hTrades
    have hSame' := hSame.trans (.setVm t s')
    cases b with
    | true =>
      refine ih hSame' hBuilt' ?_
      rw [List.length_append, List.length_singleton]
      rw [List.length_cons] at hLen
      omega
    | false =>
      rw [if_neg (by decide), wp_pure]
      exact hNone _ hSame' hBuilt'

theorem setReg_rule {off x : Nat} {Q : Unit → Task → Prop}
    (hQ : ∀ s', t.vm.Trades s' {t.mem.trapframe}
      {t.mem.trapframe} → Q () { t with vm := s' }) : wp (setReg off x) Q E t := by
  unfold setReg
  rw [wp_edit]
  exact hQ _ (Pool.Trades.write _ (mem_singleton_self _) _)

/-
  The process has a new page table. The old one and the pages
  of the old memory are free.
-/
structure Replaced (L : MemLayout) (v w : PtView) (t t' : Task) : Prop where
  holds : t'.mem.Holds L w t'.vm
  trapframe : t'.mem.trapframe = t.mem.trapframe
  ops : t'.ops = t.ops
  refs : t'.refs = t.refs
  locked : t'.locked = t.locked
  trades : t.vm.Trades t'.vm (t.mem.pages v) (t'.mem.pages w)
  freed : v.own (npages t.mem.sz) ≤ (t'.vm.free : Multiset Nat)

theorem execCommit_rule
    {v w : PtView}
    {image : UserImage}
    (path : Path)
    (hProc : t₀.mem.Holds L v t₀.vm)
    (hSound : t₀.vm.Sound L (t₀.mem.pages v))
    (hSame : t₀.Same t)
    (hBuilt : Built L t₀.mem.trapframe image.pagetable
      (npages image.sz) w t₀.vm t.vm)
    {Q : Option Nat → Task → Prop}
    (hQ : ∀ t', Replaced L v w t₀ t' → Q (some image.argc) t') :
    wp (execCommit L image t₀.mem.sz path) Q E t := by
  set N := w.own (npages image.sz) with hN
  set O := v.own (npages t₀.mem.sz) with hO
  set F : Multiset Nat := {t₀.mem.trapframe} with hF
  have hTf : t.mem.trapframe = t₀.mem.trapframe := by rw [hSame.mem]
  unfold execCommit
  simp only [wp_bind]
  refine setReg_rule (fun s₁ hReg₁ => ?_)
  rw [wp_read, wp_edit]
  refine setReg_rule (fun s₂ hReg₂ => ?_)
  refine setReg_rule (fun s₃ hReg₃ => ?_)
  rw [hTf] at hReg₁ hReg₂ hReg₃
  have hRegs := (hReg₁.trans hReg₂).trans hReg₃
  -- what the process has, old and new
  have hAll : t₀.vm.Sound L (0 + (O + F)) := by
    rw [zero_add]
    exact hSound
  have hSound₁ : t.vm.Sound L (N + (O + F)) := hBuilt.trades.sound_frame hAll
  have hSound₁' : t.vm.Sound L (F + (N + O)) := by
    rw [show F + (N + O) = N + (O + F) by abel]
    exact hSound₁
  have hSound₃ : s₃.Sound L (O + (N + F)) := by
    rw [show O + (N + F) = F + (N + O) by abel]
    exact hRegs.sound_frame hSound₁'
  have hOld₁ : v.Shows t₀.mem.pagetable t.vm.mem :=
    hProc.shows.congr (fun q hq =>
      hBuilt.trades.kept hAll (mem_add.mpr (.inl (mem_add.mpr (.inl hq)))))
  have hOld₃ : v.Shows t₀.mem.pagetable s₃.mem :=
    hOld₁.congr (fun q hq =>
      hRegs.kept hSound₁' (mem_add.mpr (.inr (mem_add.mpr (.inl hq)))))
  rw [hSame.mem, inVm_rule]
  refine procFreepagetable_rule hOld₃ hProc.space hSound₃.left (fun s₄ hFree => ?_)
  rw [wp_pure]
  have hNew₄ : w.Shows image.pagetable s₄.mem :=
    hBuilt.shows.congr (fun q hq => by
      have hMem : q ∈ N := mem_add.mpr (.inl hq)
      rw [hFree.kept hSound₃ (mem_add.mpr (.inl hMem))]
      exact hRegs.kept hSound₁' (mem_add.mpr (.inl hMem)))
  refine hQ _ ⟨⟨hNew₄, ?_⟩, rfl, hSame.ops, hSame.refs, hSame.locked, ?_, ?_⟩
  · exact hBuilt.space
  · have hBuild := hBuilt.trades.frame (O + F)
    have hStore := hRegs.frame (N + O)
    have hGive := hFree.frame (N + F)
    refine (hBuild.trans ?_).congr (zero_add _).symm rfl
    refine (hStore.congr (by abel) rfl).trans ?_
    exact hGive.congr (by abel) (zero_add _)
  · have hCells := hFree.cells
    rw [add_zero] at hCells
    rw [hCells]
    exact le_add_left O _

-------
-- Exec
-------

variable {L : MemLayout} {root : Nat} {t₀ t : Task} {argv : List (List UInt8)}
variable {Q : Option UserImage → Task → Prop}

/- The flags of the page below the stack. -/
theorem ldiff_stack :
    Nat.ldiff (PTE_R ||| PTE_U ||| PTE_W ||| PTE_V) PTE_U = PTE_R ||| PTE_W ||| PTE_V := by
  decide +kernel

theorem execStack_rule
    {w : PtView}
    {sz entry : Nat}
    (hArgs : argv.length < MAXARG)
    (hSound₀ : t₀.vm.Sound L 0)
    (hSame : t₀.Same t)
    (hBuilt : Built L t₀.mem.trapframe root (npages sz) w
      t₀.vm t.vm)
    (hNone : ∀ t', t₀.Same t' → t₀.vm.Trades t'.vm 0 0 →
      Q none t')
    (hSome : ∀ image w t', t₀.Same t' →
      Built L t₀.mem.trapframe image.pagetable
        (npages image.sz) w t₀.vm t'.vm →
      image.argc = argv.length → Q (some image) t') :
    wp (execStack L root sz entry argv) Q E t := by
  have hn := hBuilt.le_npages hSound₀
  have hBase : PGROUNDUP sz = npages sz * PGSIZE := by
    have hRound := le_npages_mul sz
    have hMax := mul_PGSIZE_lt hn
    exact PGROUNDUP_eq (hRound.trans hMax.le)
  have hEnd : add64 (npages sz * PGSIZE) (2 * PGSIZE) = (npages sz + 2) * PGSIZE := by
    unfold add64
    simp only [NPAGES, PHYSTOP, PGSIZE] at *
    omega
  have hGuard : sub64 ((npages sz + 2) * PGSIZE) (2 * PGSIZE) = npages sz * PGSIZE := by
    unfold sub64
    simp only [NPAGES, PHYSTOP, PGSIZE] at *
    omega
  have hBuilt' : Built L t₀.mem.trapframe root (npages (npages sz * PGSIZE)) w t₀.vm t.vm := by
    rw [npages_mul]
    exact hBuilt
  unfold execStack
  dsimp only
  rw [hBase, hEnd, wp_bind, inVm_rule]
  refine uvmalloc_rule hBuilt'.shows (hBuilt'.sound hSound₀)
    hBuilt'.space.user hBuilt'.space.gap (by decide) ?_ ?_ ?_
  · intro hLess
    simp only [PGSIZE] at hLess
    omega
  · intro u s' hBecomes hLeaf
    exact execBad_rule (hSame.trans (.setVm t s')) (hBuilt'.becomes hBecomes hLeaf) hSound₀ hNone
  · intro u s' hLe hAdds _ hMax
    have hBuilt₁ := hBuilt'.adds hAdds (npages_mono hLe) hMax
    rw [npages_mul] at hAdds hMax
    obtain ⟨pa, hGuardLeaf⟩ := hAdds.new (npages sz) le_rfl (by rw [npages_mul]; omega)
    rw [if_neg (by simp only [PGSIZE]; omega), hGuard, wp_bind, inVm_rule]
    refine uvmclear_rule hBuilt₁.shows (hBuilt₁.sound hSound₀).left (mul_PGSIZE_lt hn)
      hGuardLeaf (by rw [ldiff_stack]; decide) ?_
    intro u₂ s₂ hBecomes _ hLeaf
    have hBuilt₂ := hBuilt₁.clear (by rw [npages_mul]; omega)
      (by rw [npages_mul]; exact hMax) hGuardLeaf hBecomes
      hLeaf
    have hSame₂ : t₀.Same { t with vm := s₂ } := hSame.trans (.setVm t s₂)
    rw [wp_bind]
    refine pushArgs_rule hSound₀ ?_ ?_ hSame₂ hBuilt₂ rfl
    · intro t₃ hSame₃ hBuilt₃
      exact execBad_rule hSame₃ hBuilt₃ hSound₀ hNone
    intro sp ustack t₃ hSame₃ hBuilt₃ hLen
    rw [List.length_nil, Nat.zero_add] at hLen
    dsimp only
    rw [if_neg (by omega), wp_ite]
    refine ⟨fun _ => execBad_rule hSame₃ hBuilt₃ hSound₀ hNone, fun _ => ?_⟩
    rw [wp_bind, inVm_rule]
    refine copyout_rule hBuilt₃.space hBuilt₃.shows
      (hBuilt₃.sound hSound₀) (fun b s₄ _ hTrades => ?_)
    have hBuilt₄ := hBuilt₃.write hSound₀ hTrades
    have hSame₄ := hSame₃.trans (.setVm t₃ s₄)
    cases b with
    | true =>
      rw [if_pos rfl, wp_pure]
      exact hSome _ u₂ _ hSame₄ hBuilt₄ hLen
    | false =>
      exact execBad_rule hSame₄ hBuilt₄ hSound₀ hNone

/- Everything is left as it was, or there is a new image. -/
theorem execImage_rule
    {found : Option Image}
    (hArgs : argv.length < MAXARG)
    (hIdle : t.locked = [])
    (hTf : PageAddr t.mem.trapframe)
    (hSound₀ : t.vm.Sound L 0)
    (hNone : ∀ t', t.Same t' → t.vm.Trades t'.vm 0 0 →
      Q none t')
    (hSome : ∀ image w t', t.Same t' →
      Built L t.mem.trapframe image.pagetable
        (npages image.sz) w t.vm t'.vm →
      image.argc = argv.length → Q (some image) t') :
    wp (execImage L found argv) Q E t := by
  unfold execImage beginOp
  rw [wp_bind, wp_edit, wp_bind]
  unfold namei
  cases found with
  | none =>
    rw [wp_pure]
    rw [wp_bind]
    refine endOp_rule rfl ?_
    rw [wp_pure]
    exact hNone _ ⟨rfl, rfl, rfl, rfl⟩ (.refl _ _)
  | some ip =>
    simp only [wp_bind, wp_edit, wp_pure]
    unfold ilock
    rw [wp_bind, wp_read, if_neg (by simp [hIdle]), wp_edit]
    refine readi_rule (fun elf t₁ hSame₁ hVm₁ => ?_)
    have hOpened : Task.Opened ip t
        { t with
          ops := t.ops + 1
          refs := ip.inum :: t.refs
          locked := ip.inum :: t.locked } :=
      ⟨rfl, rfl, rfl, rfl⟩
    have hOpened₁ := hOpened.same hSame₁
    have hEarly : wp (execBad L 0 0 (some ip)) Q E t₁ := by
      refine execBad_early hOpened₁ ?_ hNone
      rw [hVm₁]
      exact .refl _ _
    rw [wp_ite]
    refine ⟨fun _ => hEarly, fun _ => ?_⟩
    rw [wp_ite]
    refine ⟨fun _ => hEarly, fun _ => ?_⟩
    simp only [wp_bind, wp_read]
    rw [inVm_rule]
    have hTf₁ : PageAddr t₁.mem.trapframe := by
      rw [hOpened₁.mem]
      exact hTf
    have hSound₁ : t₁.vm.Sound L 0 := by
      rw [hVm₁]
      exact hSound₀
    refine procPagetable_rule hTf₁ hSound₁ ?_ ?_
    · intro s' hTrades
      rw [hVm₁] at hTrades
      exact execBad_early (hOpened₁.same (.setVm t₁ s')) hTrades hNone
    intro root w s' hShows hSpace hTrades
    rw [hVm₁] at hTrades
    rw [hOpened₁.mem] at hSpace
    have hBuilt : Built L t.mem.trapframe root (npages 0) w t.vm s' := by
      refine ⟨hShows, hSpace, ?_⟩
      rw [own_npages_zero]
      exact hTrades
    rw [wp_bind]
    refine execLoop_rule hSound₀ ?_ (Task.Same.setVm t₁ s') hBuilt
      (fun i hi => absurd hi (Nat.not_lt_zero i))
    intro b sz u t₂ hSame₂ hBuilt₂ hOpen
    have hOpened₂ := hOpened₁.same hSame₂
    cases b with
    | false => exact execBad_opened hOpened₂ hBuilt₂ hSound₀ hNone
    | true =>
      refine close_rule hOpened₂ (fun t₃ hSame₃ hVm₃ => ?_)
      rw [← hVm₃] at hBuilt₂
      exact execStack_rule hArgs hSound₀ hSame₃ hBuilt₂ hNone hSome

/-
  `exec` leaves everything as it was, or it replaces the
  memory of the process.
-/
theorem exec_rule
    {v : PtView}
    {found : Option Image}
    {path : Path}
    (hArgs : argv.length < MAXARG)
    (hIdle : t.locked = [])
    (hProc : t.mem.Holds L v t.vm)
    (hSound : t.vm.Sound L (t.mem.pages v))
    {Q : Option Nat → Task → Prop}
    (hNone : ∀ t', t.Same t' → t.vm.Trades t'.vm 0 0 →
      Q none t')
    (hSome : ∀ w t', Replaced L v w t t' →
      Q (some argv.length) t') :
    wp (exec L found path argv) Q E t := by
  have hTf := hSound.area_of_mem
    (mem_add.mpr (.inr (mem_singleton_self _)))
  unfold exec
  rw [wp_bind, wp_read, wp_bind]
  refine execImage_rule hArgs hIdle hTf.pageAddr
    (hSound.mono (zero_le _)) ?_ ?_
  · intro t' hSame hTrades
    rw [wp_pure]
    exact hNone t' hSame hTrades
  · intro image w t₁ hSame hBuilt hArgc
    refine execCommit_rule path hProc hSound hSame hBuilt ?_
    rw [hArgc]
    exact fun t' hReplaced => hSome w t' hReplaced

-------
-- A Small Memory
-------

/- A memory of 32 pages. -/
def smallLayout : MemLayout where
  kend := PHYSTOP - 32 * PGSIZE
  trampoline := KERNBASE
  kernbase_le := by decide
  kend_le := by decide
  trampoline_aligned := by decide
  trampoline_lt := by decide

/- The `i`-th page of the memory. -/
def smallPage (i : Nat) : Nat := PHYSTOP - (i + 1) * PGSIZE

/- All pages but the first one are free. -/
def smallRam : Ram where
  mem := fun _ => filled 0
  free := (List.range 31).map (fun i => smallPage (i + 1))
  deny := []

theorem sound_smallRam :
    smallRam.Sound smallLayout {smallPage 0} := by
  constructor
  · decide +kernel
  intro q hq
  have hAll : ∀ q ∈ smallRam.free ++ [smallPage 0],
      q % PGSIZE = 0 ∧ smallLayout.kend ≤ q ∧
        q < PHYSTOP := by
    decide +kernel
  exact hAll q hq

-------
-- Results
-------

/-
  A failed call leaves the process, its memory and the free
  pages as they were. A call that succeeds frees the old page
  table and the old memory once, but not the trapframe and
  not the trampoline. In both cases the inode and the
  operation of the log are released.
-/
theorem exec_is_all_or_nothing
    (L : MemLayout)
    (t : Task)
    (v : PtView)
    (hProc : t.mem.Holds L v t.vm)
    (hSound : t.vm.Sound L (t.mem.pages v))
    (hIdle : t.locked = [])
    (found : Option Image)
    (path : Path)
    (argv : List (List UInt8))
    (hArgs : argv.length < MAXARG) :
    ∃ r t', exec L found path argv t = (.ok r, t') ∧
      t'.ops = t.ops ∧
      t'.refs = t.refs ∧
      t'.locked = t.locked ∧
      match r with
      | none =>
        t'.mem = t.mem ∧
        t'.vm.free.Perm t.vm.free ∧
        ∀ q, q ∉ t.vm.free → t'.vm.mem q = t.vm.mem q
      | some argc =>
        argc = argv.length ∧
        t'.mem.trapframe = t.mem.trapframe ∧
        (∃ w, t'.mem.Holds L w t'.vm ∧
            t.vm.Trades t'.vm (t.mem.pages v) (t'.mem.pages w)) ∧
        (∀ q ∈ v.own (npages t.mem.sz), t'.vm.free.count q = 1) ∧
        t.mem.trapframe ∉ t'.vm.free ∧
        L.trampoline ∉ t'.vm.free := by
  refine exists_ok_of_wp (exec_rule hArgs hIdle hProc hSound ?_ ?_)
  · intro t' hSame hTrades
    refine ⟨hSame.ops, hSame.refs, hSame.locked, hSame.mem, ?_, ?_⟩
    · have hCells := hTrades.cells
      rw [add_zero, add_zero] at hCells
      exact coe_eq_coe.mp hCells
    · intro q hq
      exact hTrades.same q hq (notMem_zero q)
  intro w t' hNew
  have hSound' := hNew.trades.sound hSound
  have hNodup : t'.vm.free.Nodup :=
    coe_nodup.mp (nodup_of_le (le_add_right _ _) hSound'.nodup)
  refine ⟨hNew.ops, hNew.refs, hNew.locked, rfl,
    hNew.trapframe, ⟨w, hNew.holds, hNew.trades⟩, ?_, ?_, ?_⟩
  · intro q hq
    exact List.count_eq_one_of_mem hNodup (mem_of_le hNew.freed hq)
  · rw [← hNew.trapframe]
    exact hSound'.not_free (mem_add.mpr (.inr (mem_singleton_self _)))
  · intro hMem
    have hArea := hSound'.area L.trampoline (mem_add.mpr (.inl hMem))
    exact absurd L.trampoline_lt (not_lt.mpr hArea.2.1)

/-
  Whatever the file holds, `exec` returns: it ends, and none
  of the panics on its way is reached.
-/
theorem exec_never_panics
    (L : MemLayout)
    (t : Task)
    (v : PtView)
    (hProc : t.mem.Holds L v t.vm)
    (hSound : t.vm.Sound L (t.mem.pages v))
    (hIdle : t.locked = [])
    (inum : Nat)
    (content : List UInt8)
    (path : Path)
    (argv : List (List UInt8))
    (hArgs : argv.length < MAXARG)
    (e : Halt) :
    (exec L (some ⟨inum, content⟩) path argv t).1 ≠ .error e := by
  have hRule : wp (exec L (some ⟨inum, content⟩) path argv)
      (fun _ _ => True) (fun _ _ => False) t :=
    exec_rule hArgs hIdle hProc hSound (fun _ _ _ => trivial) (fun _ _ _ => trivial)
  obtain ⟨r, t', hRun, _⟩ := exists_ok_of_wp hRule
  rw [hRun]
  exact fun h => nomatch h

end Xv6.Vm
