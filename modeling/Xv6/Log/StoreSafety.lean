import Xv6.Log.GroupCommitSafety
import Xv6.Log.Recovery
import Xv6.Log.Store

/-
  What clients of the buffer cache and the log preserve.

  A buffer's reference count is the number of clients that
  use it, plus one if its block is in the log. So a changed
  buffer keeps its block until the block is installed, and
  what a client reads is what was logged last.

  Key definitions include:
    * `Store.clients`
    * `Store.pin`
    * `StoreInv`

  The steps of clients keep the invariant:
    * `StoreInv.bget`
    * `StoreInv.lock`
    * `StoreInv.modify`
    * `StoreInv.logWrite`
    * `StoreInv.unlock`
    * `StoreInv.drop`
-/

open Function Xv6.Store

-------
-- The Invariant
-------

namespace Xv6

variable {P : Type} {i j : Slot}

/- The reference of a client inside `bio.c` to a buffer. -/
def Use.count (i : Slot) : Use → Int
| .run => 0
| .locking j _ => if j = i then 1 else 0
| .dropping j => if j = i then 1 else 0

theorem Use.count_run (i : Slot) :
    Use.run.count i = 0 := rfl

theorem Use.count_locking_self (i : Slot) (b : Nat) : (Use.locking i b).count i = 1 := by
  simp [Use.count]

theorem Use.count_locking_ne (hij : i ≠ j) (b : Nat) : (Use.locking j b).count i = 0 := by
  simp [Use.count, hij.symm]

theorem Use.count_dropping_self (i : Slot) : (Use.dropping i).count i = 1 := by simp [Use.count]

theorem Use.count_dropping_ne (hij : i ≠ j) : (Use.dropping j).count i = 0 := by
  simp [Use.count, hij.symm]

theorem Use.count_nonneg (u : Use) (i : Slot) : 0 ≤ u.count i := by
  cases u with
  | run => exact le_rfl
  | _ =>
    simp only [Use.count]
    split <;> omega

/- The clients that use a buffer. -/
def Store.clients [Fintype P] (s : Store P) (i : Slot) : Int :=
  (if (s.buf i).lock = none then 0 else 1) + ∑ p, (s.use p).count i

/- The reference that the log holds. -/
def Store.pin (s : Store P) (i : Slot) : Int :=
  if (s.buf i).dev = ROOTDEV ∧ (s.buf i).blockno ∈ s.log.lh then 1 else 0

/- The blocks in `log.lh` can be committed. -/
structure Loggable (L : LogArea) (lh : List Nat) : Prop where
  nodup : lh.Nodup
  logsize : lh.length ≤ LOGSIZE
  fits : lh.length ≤ L.size - 1
  outside : ∀ b ∈ lh, ¬ L.Area b
  int : ∀ b ∈ lh, b < 2 ^ 32

/- What holds of the buffers. -/
structure StoreBufs [Fintype P] (s : Store P) : Prop where
  good : s.mach.Good
  refs : ∀ i, (s.buf i).refcnt = s.clients i + s.pin i
  locking : ∀ p i b, s.use p = .locking i b →
    s.mach.cache.Holds b i ∧ b < 2 ^ 32
  dropping : ∀ p i, s.use p = .dropping i → (s.buf i).dev = ROOTDEV
  locked : ∀ i p, (s.buf i).lock = some p →
    (s.buf i).dev = ROOTDEV ∧ (s.buf i).valid = true ∧
        (s.buf i).blockno < 2 ^ 32
  listed : ∀ b ∈ s.log.lh, ∃ i, s.mach.cache.Holds b i

/- What holds of the contents of the blocks. -/
structure StoreData (L : LogArea) (s : Store P) : Prop where
  outside : ∀ b x, s.written b = some x → ¬ L.Area b
  fresh : ∀ b, s.dirty b = false → s.mach.content b = s.array b
  clean : ∀ b, b ∉ s.log.lh → s.dirty b = false →
    s.mach.content b = s.mach.disk b
  dirty : ∀ b, s.dirty b = true →
    ¬ L.Area b ∧ ∃ i, s.mach.cache.Holds b i ∧ (s.buf i).lock ≠ none

/- Only open operations use buffers. -/
structure StoreOps (s : Store P) : Prop where
  rest : s.log.committing = false
  active : ∀ p, s.use p ≠ .run → s.log.pc p = .inOp
  holding : ∀ i p, (s.buf i).lock = some p → s.log.pc p = .inOp

structure StoreInv [Fintype P] (L : LogArea) (s : Store P) : Prop where
  excl : Exclusive s.log
  ops : StoreOps s
  log : Loggable L s.log.lh
  bufs : StoreBufs s
  data : StoreData L s

-------
-- References
-------

variable {P : Type} [Fintype P] {s s' : Store P} {i : Slot}

omit [Fintype P] in
theorem Store.pin_nonneg (s : Store P) (i : Slot) : 0 ≤ s.pin i := by
  unfold pin
  split <;> omega

omit [Fintype P] in
/- The pin depends on the block of the buffer. -/
theorem Store.pin_congr (hDev : (s'.buf i).dev = (s.buf i).dev)
    (hNo : (s'.buf i).blockno = (s.buf i).blockno)
    (hLh : s'.log.lh = s.log.lh) : s'.pin i = s.pin i := by
  unfold pin
  rw [hDev, hNo, hLh]

/- A step changes one buffer, and not which block it is for. -/
structure OneBuf (s s' : Store P) (i : Slot) (x : Buf P) : Prop where
  keep : ∀ j, j ≠ i → s'.buf j = s.buf j
  self : s'.buf i = x
  dev : x.dev = (s.buf i).dev
  no : x.blockno = (s.buf i).blockno

section

variable {x : Buf P} (h : OneBuf s s' i x)
include h

omit [Fintype P] in
theorem OneBuf.key (j : Slot) :
    (s'.buf j).dev = (s.buf j).dev ∧ (s'.buf j).blockno = (s.buf j).blockno := by
  by_cases hj : j = i
  · subst hj
    rw [h.self]
    exact ⟨h.dev, h.no⟩
  · rw [h.keep j hj]
    exact ⟨rfl, rfl⟩

omit [Fintype P] in
theorem OneBuf.holds {b : Nat} {j : Slot} (hj : s.mach.cache.Holds b j) :
    s'.mach.cache.Holds b j :=
  ⟨(h.key j).1.trans hj.1, (h.key j).2.trans hj.2⟩

omit [Fintype P] in
theorem OneBuf.pin_eq (hLh : s'.log.lh = s.log.lh) (j : Slot) : s'.pin j = s.pin j :=
  pin_congr (h.key j).1 (h.key j).2 hLh

end

/- Each use of a buffer is a reference. -/
theorem StoreBufs.count_le (hBufs : StoreBufs s) (p : P) (i : Slot) :
    (s.use p).count i ≤ (s.buf i).refcnt := by
  have hSum :=
    le_sum_of_nonneg (fun q => (s.use q).count_nonneg i) p
  have hPin := s.pin_nonneg i
  have hRefs := hBufs.refs i
  unfold clients at hRefs
  split at hRefs <;> omega

/- A locked buffer is in use. -/
theorem StoreBufs.ref_of_lock (hBufs : StoreBufs s) (hLock : (s.buf i).lock ≠ none) :
    1 ≤ (s.buf i).refcnt := by
  have hSum : 0 ≤ ∑ q, (s.use q).count i := Finset.sum_nonneg (fun q _ => (s.use q).count_nonneg i)
  have hPin := s.pin_nonneg i
  have hRefs := hBufs.refs i
  rw [clients, if_neg hLock] at hRefs
  omega

/- A pinned buffer is in use. -/
theorem StoreBufs.ref_of_listed (hBufs : StoreBufs s) {b : Nat} (hb : b ∈ s.log.lh)
    (hi : s.mach.cache.Holds b i) : 1 ≤ (s.buf i).refcnt := by
  have hSum : 0 ≤ ∑ q, (s.use q).count i := Finset.sum_nonneg (fun q _ => (s.use q).count_nonneg i)
  have hPin : s.pin i = 1 := by
    have hMem : (s.buf i).blockno ∈ s.log.lh := by
      rw [show (s.buf i).blockno = b from hi.2]
      exact hb
    exact if_pos ⟨hi.1, hMem⟩
  have hRefs := hBufs.refs i
  unfold clients at hRefs
  split at hRefs <;> omega

/- The uses of a buffer after one process moved. -/
theorem sum_count_update [DecidableEq P] (use : P → Use) (p : P) (u : Use) (i : Slot) :
    ∑ q, (update use p u q).count i = ∑ q, (use q).count i + (u.count i - (use p).count i) := by
  have hSum :=
    sum_change (fun q => (use q).count i) (fun q => (update use p u q).count i) p (by
        intro q hq
        rw [update_of_ne hq])
  simpa using hSum

/- 1 if a buffer is locked. -/
def lockCount (l : Option P) : Int := if l = none then 0 else 1

/-
  A step of `p` that changes buffer `i` but not its block.
  The other buffers keep their references.
-/
theorem StoreBufs.change [DecidableEq P] (hBufs : StoreBufs s) {x : Buf P} (h : OneBuf s s' i x)
    {p : P} {u : Use} (hGood : s'.mach.Good) (hUse : s'.use = update s.use p u)
    (hCount : ∀ j, j ≠ i → u.count j = (s.use p).count j)
    (hPin : ∀ j, j ≠ i → s'.pin j = s.pin j)
    (hRef : x.refcnt = (s.buf i).refcnt + (lockCount x.lock - lockCount (s.buf i).lock) +
          (u.count i - (s.use p).count i) +
          (s'.pin i - s.pin i))
    (hLocking : ∀ j b, u ≠ .locking j b)
    (hDropping : ∀ j, u = .dropping j → (s.buf j).dev = ROOTDEV)
    (hLocked : ∀ q, x.lock = some q → (s.buf i).dev = ROOTDEV ∧ x.valid = true ∧
          (s.buf i).blockno < 2 ^ 32)
    (hListed : ∀ b ∈ s'.log.lh, ∃ j, s.mach.cache.Holds b j) : StoreBufs s' := by
  constructor
  · exact hGood
  · intro j
    have hSum := sum_count_update s.use p u j
    rw [← hUse] at hSum
    have hOld := hBufs.refs j
    unfold clients at hOld ⊢
    rw [hSum]
    by_cases hj : j = i
    · subst hj
      rw [h.self]
      unfold lockCount at hRef
      omega
    · rw [h.keep j hj, hPin j hj, hCount j hj]
      omega
  · intro q j b hq
    rw [hUse] at hq
    by_cases hqp : q = p
    · subst hqp
      rw [update_self] at hq
      exact absurd hq (hLocking j b)
    · rw [update_of_ne hqp] at hq
      have hOld := hBufs.locking q j b hq
      exact ⟨h.holds hOld.1, hOld.2⟩
  · intro q j hq
    rw [hUse] at hq
    rw [(h.key j).1]
    by_cases hqp : q = p
    · subst hqp
      rw [update_self] at hq
      exact hDropping j hq
    · rw [update_of_ne hqp] at hq
      exact hBufs.dropping q j hq
  · intro j q hq
    by_cases hj : j = i
    · subst hj
      rw [h.self] at hq ⊢
      rw [h.dev, h.no]
      exact hLocked q hq
    · rw [h.keep j hj] at hq ⊢
      exact hBufs.locked j q hq
  · intro b hb
    rcases hListed b hb with ⟨j, hj⟩
    exact ⟨j, h.holds hj⟩

-------
-- Reading a Block
-------

variable [DecidableEq P] {L : LogArea} {p : P} {b : Nat} {c : Bcache P}

omit [Fintype P] in
theorem StoreOps.use_update (hOps : StoreOps s) {u : Use} (hPc : s.log.pc p = .inOp) {q : P}
    (hq : update s.use p u q ≠ .run) : s.log.pc q = .inOp := by
  by_cases hqp : q = p
  · subst hqp
    exact hPc
  · rw [update_of_ne hqp] at hq
    exact hOps.active q hq

omit [Fintype P] in
/- A step of a client that takes or drops one lock at most. -/
theorem OneBuf.ops {x : Buf P} {u : Use} (h : OneBuf s s' i x) (hOps : StoreOps s)
    (hBusy : s'.log.committing = s.log.committing) (hPcs : s'.log.pc = s.log.pc)
    (hUse : s'.use = update s.use p u) (hPc : s.log.pc p = .inOp)
    (hLock : ∀ q, x.lock = some q → q = p ∨ (s.buf i).lock = some q) : StoreOps s' := by
  refine ⟨hBusy.trans hOps.rest, ?_, ?_⟩
  · intro q hq
    rw [hUse] at hq
    rw [hPcs]
    exact hOps.use_update hPc hq
  · intro j q hq
    rw [hPcs]
    by_cases hj : j = i
    · subst hj
      rw [h.self] at hq
      rcases hLock q hq with rfl | hOld
      · exact hPc
      · exact hOps.holding j q hOld
    · rw [h.keep j hj] at hq
      exact hOps.holding j q hq

omit [Fintype P] [DecidableEq P] in
/-
  Nothing changes for the contents while locks stay with
  the changed blocks.
-/
theorem StoreData.congr (hData : StoreData L s) (hContent : s'.mach.content = s.mach.content)
    (hDisk : s'.mach.disk = s.mach.disk) (hLh : s'.log.lh = s.log.lh)
    (hDirty : s'.dirty = s.dirty) (hWritten : s'.written = s.written)
    (hLocks : ∀ b i, s.dirty b = true → s.mach.cache.Holds b i → (s.buf i).lock ≠ none →
        s'.mach.cache.Holds b i ∧ (s'.buf i).lock ≠ none) : StoreData L s' := by
  constructor
  · rw [hWritten]
    exact hData.outside
  · intro b hb
    rw [hDirty] at hb
    rw [hContent, array, hWritten, hDisk]
    exact hData.fresh b hb
  · intro b hb hClean
    rw [hLh] at hb
    rw [hDirty] at hClean
    rw [hContent, hDisk]
    exact hData.clean b hb hClean
  · intro b hb
    rw [hDirty] at hb
    rcases hData.dirty b hb with ⟨hArea, i, hi, hLock⟩
    exact ⟨hArea, i, hLocks b i hb hi hLock⟩

omit [Fintype P] [DecidableEq P] in
/- A lock stays with a changed block. -/
theorem OneBuf.locks {x : Buf P} (h : OneBuf s s' i x) {j : Slot} (hj : s.mach.cache.Holds b j)
    (hLocked : (s.buf j).lock ≠ none)
    (hLock : s.mach.cache.Holds b i → (s.buf i).lock ≠ none → x.lock ≠ none) :
    s'.mach.cache.Holds b j ∧ (s'.buf j).lock ≠ none := by
  refine ⟨h.holds hj, ?_⟩
  by_cases hji : j = i
  · subst hji
    rw [h.self]
    exact hLock hj hLocked
  · rw [h.keep j hji]
    exact hLocked

theorem StoreBufs.bget (hBufs : StoreBufs s) (hRun : s.use p = .run) (hb : b < 2 ^ 32)
    (hGet : s.mach.cache.bget ROOTDEV b = .ok (i, c)) :
    StoreBufs ((s.withCache c).setUse p (.locking i b)) := by
  have hOk := hBufs.good.ok
  rcases Bcache.bget_view hOk hBufs.good.clean hGet with
    ⟨hOk', hi, hContent, hRefs, hKeep, hLock, hWas⟩
  have hNonneg := Bcache.refs_nonneg hOk b
  -- Buffers in use stay with their blocks.
  have hStay : ∀ b' j, s.mach.cache.Holds b' j → 1 ≤ (s.buf j).refcnt → c.Holds b' j := by
    intro b' j hj hRef
    have hRef' : (s.mach.cache.buf j).refcnt ≠ 0 := by
      change (s.buf j).refcnt ≠ 0
      omega
    exact (Bcache.bget_keeps hOk hGet hj hRef').1
  constructor
  · refine ⟨hOk', ?_⟩
    intro b' hZero
    change c.refs b' = 0 at hZero
    rw [hRefs] at hZero
    change c.content s.mach.disk b' = s.mach.disk b'
    rw [hContent]
    by_cases hbb : b' = b
    · subst hbb
      rw [update_self] at hZero
      omega
    · rw [update_of_ne hbb] at hZero
      exact hBufs.good.clean b' hZero
  · intro j
    have hSum := sum_count_update s.use p (.locking i b) j
    have hOld := hBufs.refs j
    rw [hRun] at hSum
    unfold clients at hOld ⊢
    change _ = _ + ∑ q, (update s.use p (.locking i b) q).count j + _
    rw [hSum]
    by_cases hj : j = i
    · subst hj
      have hNew : (((s.withCache c).setUse p (.locking j b)).buf j).refcnt = (s.buf j).refcnt + 1 ∧
          ((s.withCache c).setUse p (.locking j b)).pin j = s.pin j := by
        rcases Bcache.bget_cases hOk hGet with
          ⟨hHad, hEq⟩ | ⟨hNot, hZero, hEq⟩
        · constructor
          · simp [setUse, withCache, Machine.withCache, buf, hEq]
          · refine pin_congr ?_ ?_ rfl
            · simp [setUse, withCache, Machine.withCache, buf, hEq]
            · simp [setUse, withCache, Machine.withCache, buf, hEq]
        have hZero' : (s.buf j).refcnt = 0 := hZero
        have hPin : s.pin j = 0 := by
          have hSumNonneg : 0 ≤ ∑ q, (s.use q).count j :=
            Finset.sum_nonneg (fun q _ => (s.use q).count_nonneg j)
          have hPinNonneg := s.pin_nonneg j
          split at hOld <;> omega
        have hUnlisted : b ∉ s.log.lh := by
          intro hMem
          rcases hBufs.listed b hMem with ⟨k, hk⟩
          exact hNot k hk
        constructor
        · rw [hZero']
          simp [setUse, withCache, Machine.withCache, buf, hEq]
        · rw [hPin]
          simp [pin, setUse, withCache, Machine.withCache,
            buf, hEq, hUnlisted]
      have hLock' : (((s.withCache c).setUse p (.locking j b)).buf j).lock = (s.buf j).lock := hLock
      rw [hLock', Use.count_locking_self, Use.count_run]
      omega
    · have hSame : ((s.withCache c).setUse p (.locking i b)).buf j = s.buf j := hKeep j hj
      have hPin : ((s.withCache c).setUse p (.locking i b)).pin j = s.pin j :=
        pin_congr (by rw [hSame]) (by rw [hSame]) rfl
      rw [hSame, Use.count_locking_ne hj, Use.count_run]
      omega
  · intro q j b' hq
    change update s.use p (.locking i b) q = .locking j b' at hq
    by_cases hqp : q = p
    · subst hqp
      rw [update_self] at hq
      cases hq
      exact ⟨hi, hb⟩
    · rw [update_of_ne hqp] at hq
      have hOld := hBufs.locking q j b' hq
      have hCount := hBufs.count_le q j
      rw [hq, Use.count_locking_self] at hCount
      exact ⟨hStay b' j hOld.1 hCount, hOld.2⟩
  · intro q j hq
    change update s.use p (.locking i b) q = .dropping j at hq
    by_cases hqp : q = p
    · subst hqp
      rw [update_self] at hq
      cases hq
    rw [update_of_ne hqp] at hq
    have hOld := hBufs.dropping q j hq
    have hCount := hBufs.count_le q j
    rw [hq, Use.count_dropping_self] at hCount
    exact (hStay _ j ⟨hOld, rfl⟩ hCount).1
  · intro j q hq
    by_cases hLocked : (s.buf j).lock = some q
    · have hOld := hBufs.locked j q hLocked
      have hRef := hBufs.ref_of_lock (show (s.buf j).lock ≠ none by simp [hLocked])
      have hRef' : (s.mach.cache.buf j).refcnt ≠ 0 := by
        change (s.buf j).refcnt ≠ 0
        omega
      have hHeld : s.mach.cache.Holds (s.buf j).blockno j := ⟨hOld.1, rfl⟩
      rcases Bcache.bget_keeps hOk hGet hHeld hRef' with
        ⟨hHolds, hValid, _, _⟩
      refine ⟨hHolds.1, hValid.trans hOld.2.1, ?_⟩
      change (c.buf j).blockno < 2 ^ 32
      rw [hHolds.2]
      exact hOld.2.2
    · exfalso
      apply hLocked
      by_cases hj : j = i
      · subst hj
        exact hLock.symm.trans hq
      · rw [← hq]
        exact congrArg Buf.lock (hKeep j hj).symm
  · intro b' hb'
    rcases hBufs.listed b' hb' with ⟨j, hj⟩
    exact ⟨j, hStay b' j hj (hBufs.ref_of_listed hb' hj)⟩

theorem StoreInv.bget (hInv : StoreInv L s) (hRun : s.Running p) (hb : b < 2 ^ 32)
    (hGet : s.mach.cache.bget ROOTDEV b = .ok (i, c)) :
    StoreInv L ((s.withCache c).setUse p (.locking i b)) := by
  have hOk := hInv.bufs.good.ok
  have hBufs := hInv.bufs.bget hRun.2 hb hGet
  rcases Bcache.bget_view hOk hInv.bufs.good.clean hGet with
    ⟨_, _, hContent, _, hKeep, hLock, _⟩
  have hLocks : ∀ j, (c.buf j).lock = (s.buf j).lock := by
    intro j
    by_cases hj : j = i
    · subst hj
      exact hLock
    · exact congrArg Buf.lock (hKeep j hj)
  refine ⟨hInv.excl, ?_, hInv.log, hBufs, ?_⟩
  · refine ⟨hInv.ops.rest, ?_, ?_⟩
    · intro q hq
      exact hInv.ops.use_update hRun.1 hq
    · intro j q hq
      exact hInv.ops.holding j q ((hLocks j).symm.trans hq)
  · refine hInv.data.congr hContent rfl rfl rfl rfl ?_
    intro b' j _ hj hLocked
    have hRef := hInv.bufs.ref_of_lock hLocked
    have hRef' : (s.mach.cache.buf j).refcnt ≠ 0 := by
      change (s.buf j).refcnt ≠ 0
      omega
    refine ⟨(Bcache.bget_keeps hOk hGet hj hRef').1, ?_⟩
    change (c.buf j).lock ≠ none
    rw [hLocks j]
    exact hLocked

end Xv6

-------
-- Locking and Changing a Buffer
-------

namespace Xv6

variable {P : Type}

/- The cache after a buffer was locked and filled. -/
theorem Bcache.lock_fill_view {c : Bcache P} {d : Disk} {b : Nat} {i : Slot} (hOk : c.Ok)
    (hi : c.Holds b i) (p : P) :
    ((c.setLock i (some p)).fill d i).Ok ∧
      ((c.setLock i (some p)).fill d i).content d = c.content d ∧
      ((c.setLock i (some p)).fill d i).refs = c.refs ∧
      (∀ j, j ≠ i → ((c.setLock i (some p)).fill d i).buf j = c.buf j) ∧
      (((c.setLock i (some p)).fill d i).buf i).data = c.content d b := by
  rcases setLock_view hOk hi (some p) with
    ⟨hOk₁, hHolds₁, hContent₁, hRefs₁⟩
  have hi₁ := (hHolds₁ b i).mpr hi
  rcases fill_view hOk₁ hi₁ with
    ⟨hOk₂, _, hContent₂, hRefs₂, _, hData⟩
  refine ⟨hOk₂, hContent₂.trans hContent₁, hRefs₂.trans hRefs₁, ?_, ?_⟩
  · intro j hj
    unfold fill
    split
    · exact setBuf_buf_ne c _ hj
    · rw [setBuf_buf_ne _ _ hj]
      exact setBuf_buf_ne c _ hj
  · rw [hData, hContent₁]

/- The buffer itself keeps its block and references. -/
theorem Bcache.lock_fill_buf (c : Bcache P) (d : Disk) (i : Slot) (p : P) :
    (((c.setLock i (some p)).fill d i).buf i).dev = (c.buf i).dev ∧
      (((c.setLock i (some p)).fill d i).buf i).blockno = (c.buf i).blockno ∧
      (((c.setLock i (some p)).fill d i).buf i).refcnt = (c.buf i).refcnt ∧
      (((c.setLock i (some p)).fill d i).buf i).lock = some p ∧
      (((c.setLock i (some p)).fill d i).buf i).valid =
        true := by
  cases hValid : (c.buf i).valid with
  | _ => simp [fill, setLock, hValid]

/- A changed cache that loses no contents is good. -/
theorem Machine.Good.withCache {m : Machine P} (hGood : m.Good) {c : Bcache P} (hOk : c.Ok)
    (hContent : c.content m.disk = m.cache.content m.disk)
    (hRefs : ∀ b, c.refs b = 0 → m.cache.refs b = 0 ∨ m.content b = m.disk b) :
    (m.withCache c).Good := by
  refine ⟨hOk, ?_⟩
  intro b hZero
  change c.content m.disk b = m.disk b
  rw [hContent]
  rcases hRefs b hZero with hOld | hDisk
  · exact hGood.clean b hOld
  · exact hDisk

variable [Fintype P] [DecidableEq P] {L : LogArea} {s : Store P} {p : P}

variable {i : Slot}

theorem StoreInv.lock (hInv : StoreInv L s) {b : Nat} (hUse : s.use p = .locking i b)
    (hFree : (s.buf i).lock = none) : StoreInv L (storeLock s p i) := by
  have hOk := hInv.bufs.good.ok
  rcases hInv.bufs.locking p i b hUse with ⟨hi, hb⟩
  rcases Bcache.lock_fill_view hOk hi p
    with ⟨hOk', hContent, hRefs, hKeep, _⟩
  rcases Bcache.lock_fill_buf s.mach.cache s.mach.disk i p
    with ⟨hDev, hNo, hRefcnt, hLock, hValid⟩
  have hOne : OneBuf s (storeLock s p i) i _ := ⟨hKeep, rfl, hDev, hNo⟩
  have hPc : s.log.pc p = .inOp := hInv.ops.active p (by simp [hUse])
  have hGood : (storeLock s p i).mach.Good := by
    refine hInv.bufs.good.withCache hOk' hContent ?_
    intro b' hZero
    rw [hRefs] at hZero
    exact Or.inl hZero
  refine ⟨hInv.excl, ?_, hInv.log, ?_, ?_⟩
  · refine hOne.ops hInv.ops rfl rfl rfl hPc ?_
    intro q hq
    exact .inl (Option.some.inj (hq.symm.trans hLock))
  · refine hInv.bufs.change hOne hGood rfl ?_ (fun j _ => hOne.pin_eq rfl j) ?_ nofun nofun ?_
      hInv.bufs.listed
    · intro j hj
      rw [hUse, Use.count_locking_ne hj, Use.count_run]
    · have hLock' : ((storeLock s p i).buf i).lock = some p := hLock
      have hRefcnt' : ((storeLock s p i).buf i).refcnt = (s.buf i).refcnt := hRefcnt
      rw [hOne.pin_eq rfl, hLock', hRefcnt', hFree, hUse, Use.count_locking_self, Use.count_run]
      simp [lockCount]
    · intro q _
      refine ⟨hi.1, hValid, ?_⟩
      rw [show (s.buf i).blockno = b from hi.2]
      exact hb
  · refine hInv.data.congr hContent rfl rfl rfl rfl ?_
    intro b' j _ hj hLocked
    exact hOne.locks hj hLocked (fun _ hTaken => absurd hFree hTaken)

omit [DecidableEq P] in
/- The block of a held buffer. -/
theorem StoreInv.holds_of_lock (hInv : StoreInv L s) (hLock : (s.buf i).lock = some p) :
    s.mach.cache.Holds (s.buf i).blockno i ∧ (s.buf i).valid = true :=
  have hLocked := hInv.bufs.locked i p hLock
  ⟨⟨hLocked.1, rfl⟩, hLocked.2.1⟩

theorem StoreInv.modify (hInv : StoreInv L s) (hHold : s.Holding p i)
    (hArea : ¬ L.Area (s.buf i).blockno) (x : Block) : StoreInv L (storeModify s i x) := by
  have hOk := hInv.bufs.good.ok
  have hRef := hInv.bufs.ref_of_lock (show (s.buf i).lock ≠ none by simp [hHold.2])
  rcases hInv.holds_of_lock hHold.2 with ⟨hi, hValid⟩
  rcases Bcache.setData_view hOk hi hValid x with ⟨hOk', _, hContent, hRefs⟩
  have hOne : OneBuf s (storeModify s i x) i { s.buf i with data := x } := by
    refine ⟨fun j hj => Bcache.setBuf_buf_ne s.mach.cache _ hj, ?_, rfl, rfl⟩
    simp [storeModify, withCache, Machine.withCache, buf, Bcache.setData]
  have hStill : s.use = update s.use p (s.use p) := (update_eq_self p s.use).symm
  have hGood : (storeModify s i x).mach.Good := by
    refine ⟨hOk', ?_⟩
    intro b hZero
    change (s.mach.cache.setData i x).refs b = 0 at hZero
    change (s.mach.cache.setData i x).content s.mach.disk b = s.mach.disk b
    rw [hRefs] at hZero
    rw [hContent]
    have hNe : b ≠ (s.buf i).blockno := by
      intro hEq
      rw [hEq, Bcache.refs_of_holds hOk hi] at hZero
      change (s.buf i).refcnt = 0 at hZero
      omega
    rw [update_of_ne hNe]
    exact hInv.bufs.good.clean b hZero
  refine ⟨hInv.excl, ?_, hInv.log, ?_, ?_⟩
  · exact hOne.ops hInv.ops rfl rfl hStill hHold.1.1 (fun _ => .inr)
  · refine hInv.bufs.change hOne hGood hStill (fun _ _ => rfl) (fun j _ => hOne.pin_eq rfl j) ?_
      (by simp [hHold.1.2]) (by simp [hHold.1.2]) (hInv.bufs.locked i) hInv.bufs.listed
    rw [hOne.pin_eq rfl]
    simp
  · have hContent' : (storeModify s i x).mach.content = update s.mach.content
            (s.buf i).blockno x := hContent
    have hOther : ∀ b, (storeModify s i x).dirty b = false →
          b ≠ (s.buf i).blockno ∧ s.dirty b = false := by
      intro b hb
      change update s.dirty (s.buf i).blockno true b = false at hb
      by_cases hEq : b = (s.buf i).blockno
      · rw [hEq, update_self] at hb
        cases hb
      · rw [update_of_ne hEq] at hb
        exact ⟨hEq, hb⟩
    constructor
    · exact hInv.data.outside
    · intro b hb
      rcases hOther b hb with ⟨hNe, hOld⟩
      rw [hContent', update_of_ne hNe]
      exact hInv.data.fresh b hOld
    · intro b hLog hb
      rcases hOther b hb with ⟨hNe, hOld⟩
      rw [hContent', update_of_ne hNe]
      exact hInv.data.clean b hLog hOld
    · intro b hb
      change update s.dirty (s.buf i).blockno true b = true at hb
      by_cases hEq : b = (s.buf i).blockno
      · rw [hEq]
        refine ⟨hArea, i, hOne.holds hi, ?_⟩
        rw [hOne.self]
        simp [hHold.2]
      rw [update_of_ne hEq] at hb
      rcases hInv.data.dirty b hb with
        ⟨hOut, j, hj, hLocked⟩
      exact ⟨hOut, j, hOne.locks hj hLocked (fun _ hTaken => hTaken)⟩

-------
-- Logging a Block
-------

variable {b : Nat}

omit [Fintype P] [DecidableEq P] in
theorem Loggable.absorb {lh : List Nat} (hLog : Loggable L lh) (hLen : lh.length < LOGSIZE)
    (hSize : (lh.length : Int) < L.size - 1) (hArea : ¬ L.Area b)
    (hb : b < 2 ^ 32) : Loggable L (LogState.absorb lh b) := by
  by_cases hMem : b ∈ lh
  · rw [LogState.absorb, if_pos hMem]
    exact hLog
  have hOr : ∀ b' ∈ lh ++ [b], b' ∈ lh ∨ b' = b := by
    intro b' hb'
    simpa using hb'
  rw [LogState.absorb, if_neg hMem]
  constructor
  · rw [List.nodup_append]
    refine ⟨hLog.nodup, by simp, ?_⟩
    intro x hx y hy hEq
    rw [List.mem_singleton.mp hy] at hEq
    exact hMem (hEq ▸ hx)
  · rw [List.length_append, List.length_singleton]
    omega
  · rw [List.length_append, List.length_singleton]
    omega
  · intro b' hb'
    rcases hOr b' hb' with h | h
    · exact hLog.outside b' h
    · rw [h]
      exact hArea
  · intro b' hb'
    rcases hOr b' hb' with h | h
    · exact hLog.int b' h
    · rw [h]
      exact hb

/- The machine after `log_write`. -/
def pinned (s : Store P) (i : Slot) : Machine P :=
  if (s.buf i).blockno ∈ s.log.lh then s.mach
  else s.mach.withCache (s.mach.cache.addRef i 1)

/- The state after `log_write`. -/
def logged (s : Store P) (p : P) (i : Slot) : Store P :=
  { s with
    mach := pinned s i
    log := s.log.addBlock p (s.buf i).blockno
    dirty := update s.dirty (s.buf i).blockno false
    written := update s.written (s.buf i).blockno (some (s.buf i).data) }

omit [DecidableEq P] in
/- Pinning shows only in the references. -/
theorem StoreInv.pinned_view (hInv : StoreInv L s) (hLock : (s.buf i).lock = some p) :
    (pinned s i).Good ∧ (pinned s i).content = s.mach.content ∧ (pinned s i).disk = s.mach.disk ∧
      (∀ j, j ≠ i → (pinned s i).cache.buf j = s.buf j) ∧
      (pinned s i).cache.buf i =
        { s.buf i with
          refcnt :=
            (s.buf i).refcnt +
              if (s.buf i).blockno ∈ s.log.lh then 0
              else 1 } := by
  have hOk := hInv.bufs.good.ok
  rcases hInv.holds_of_lock hLock with ⟨hi, _⟩
  by_cases hMem : (s.buf i).blockno ∈ s.log.lh
  · have hSame : pinned s i = s.mach := if_pos hMem
    rw [hSame, if_pos hMem]
    refine ⟨hInv.bufs.good, rfl, rfl, fun _ _ => rfl, ?_⟩
    simp [buf]
  have hNew : pinned s i = s.mach.withCache (s.mach.cache.addRef i 1) := if_neg hMem
  have hNonneg := Bcache.refs_nonneg hOk
  rcases Bcache.addRef_view (k := 1)
    hOk hi (by have := hNonneg (s.buf i).blockno; omega)
    with ⟨hOk', _, hContent, hRefs⟩
  rw [hNew, if_neg hMem]
  refine ⟨?_, hContent, rfl, ?_, ?_⟩
  · refine hInv.bufs.good.withCache hOk' hContent ?_
    intro b hZero
    left
    rw [hRefs] at hZero
    by_cases hb : b = (s.buf i).blockno
    · rw [hb, update_self] at hZero
      have := hNonneg (s.buf i).blockno
      omega
    · rwa [update_of_ne hb] at hZero
  · intro j hj
    exact Bcache.setBuf_buf_ne s.mach.cache _ hj
  · simp [Machine.withCache, Bcache.addRef, buf]

theorem StoreInv.logWrite (hInv : StoreInv L s) (hHold : s.Holding p i)
    (hArea : ¬ L.Area (s.buf i).blockno) (hLen : s.log.lh.length < LOGSIZE)
    (hSize : (s.log.lh.length : Int) < L.size - 1) : StoreInv L (logged s p i) := by
  have hLocked := hInv.bufs.locked i p hHold.2
  rcases hInv.holds_of_lock hHold.2 with ⟨hi, hValid⟩
  rcases hInv.pinned_view hHold.2 with
    ⟨hGood, hContent, hDisk, hKeep, hSelf⟩
  have hLh : ∀ b, b ∈ (logged s p i).log.lh ↔ b ∈ s.log.lh ∨ b = (s.buf i).blockno := by
    intro b
    exact mem_absorb
  have hOne : OneBuf s (logged s p i) i _ := ⟨hKeep, hSelf, rfl, rfl⟩
  have hStill : s.use = update s.use p (s.use p) := (update_eq_self p s.use).symm
  have hPinSelf : (logged s p i).pin i = 1 := by
    have hMem : ((logged s p i).buf i).blockno ∈ (logged s p i).log.lh := by
      rw [hLh, hOne.self]
      exact Or.inr rfl
    exact if_pos ⟨(hOne.holds hi).1, hMem⟩
  refine ⟨?_, ?_, ?_, ?_, ?_⟩
  · exact hInv.excl.congr rfl rfl rfl
  · exact hOne.ops hInv.ops rfl rfl hStill hHold.1.1 (fun _ => .inr)
  · exact hInv.log.absorb hLen hSize hArea hLocked.2.2
  · refine hInv.bufs.change hOne hGood hStill (fun _ _ => rfl) ?_ ?_ (by simp [hHold.1.2])
      (by simp [hHold.1.2]) (hInv.bufs.locked i) ?_
    · intro j hj
      -- Another buffer is for another block.
      have hOther : (s.buf j).dev = ROOTDEV → (s.buf j).blockno ≠ (s.buf i).blockno := by
        intro hDev hEq
        exact hj (hInv.bufs.good.ok.unique _ j i ⟨hDev, hEq⟩ hi)
      unfold pin
      rw [hOne.keep j hj]
      by_cases hDev : (s.buf j).dev = ROOTDEV
      · simp [hLh, hOther hDev]
      · simp [hDev]
    · have hOldPin : s.pin i =
            if (s.buf i).blockno ∈ s.log.lh then 1
            else 0 := by
        simp [pin, show (s.buf i).dev = ROOTDEV from hi.1]
      rw [hOldPin]
      dsimp only
      split <;> omega
    · intro b hb
      rcases (hLh b).mp hb with hOld | hNew
      · exact hInv.bufs.listed b hOld
      · rw [hNew]
        exact ⟨i, hi⟩
  · have hShown : s.mach.content (s.buf i).blockno = (s.buf i).data := by
      have hEq := Bcache.content_of_holds (d := s.mach.disk) hInv.bufs.good.ok hi
      rw [show (s.mach.cache.buf i).valid = true from hValid] at hEq
      exact hEq
    have hDirty : ∀ b, (logged s p i).dirty b = update s.dirty (s.buf i).blockno
            false b := fun _ => rfl
    constructor
    · intro b x hx
      change update s.written (s.buf i).blockno (some (s.buf i).data) b = some x at hx
      by_cases hEq : b = (s.buf i).blockno
      · rw [hEq]
        exact hArea
      · rw [update_of_ne hEq] at hx
        exact hInv.data.outside b x hx
    · intro b hb
      rw [show (logged s p i).mach.content = s.mach.content from hContent]
      change s.mach.content b = (update s.written (s.buf i).blockno
          (some (s.buf i).data) b).getD ((pinned s i).disk b)
      by_cases hEq : b = (s.buf i).blockno
      · rw [hEq, update_self, hShown]
        rfl
      · rw [hDirty, update_of_ne hEq] at hb
        rw [update_of_ne hEq, hDisk]
        exact hInv.data.fresh b hb
    · intro b hLog hb
      have hNe : b ≠ (s.buf i).blockno := fun h => hLog ((hLh b).mpr (Or.inr h))
      rw [hDirty, update_of_ne hNe] at hb
      rw [show (logged s p i).mach.content = s.mach.content from hContent,
        show (logged s p i).mach.disk = s.mach.disk from hDisk]
      exact hInv.data.clean b (fun h => hLog ((hLh b).mpr (Or.inl h))) hb
    · intro b hb
      rw [hDirty] at hb
      have hNe : b ≠ (s.buf i).blockno := by
        intro hEq
        rw [hEq, update_self] at hb
        cases hb
      rw [update_of_ne hNe] at hb
      rcases hInv.data.dirty b hb with
        ⟨hOut, j, hj, hjLock⟩
      exact ⟨hOut, j, hOne.locks hj hjLock (fun _ hTaken => hTaken)⟩

-------
-- Releasing a Buffer
-------

theorem StoreInv.unlock (hInv : StoreInv L s) (hHold : s.Holding p i)
    (hDirty : s.dirty (s.buf i).blockno = false) : StoreInv L (storeUnlock s p i) := by
  have hOk := hInv.bufs.good.ok
  rcases hInv.holds_of_lock hHold.2 with ⟨hi, hValid⟩
  rcases Bcache.setLock_view hOk hi none
    with ⟨hOk', _, hContent, hRefs⟩
  have hOne : OneBuf s (storeUnlock s p i) i { s.buf i with lock := none } := by
    refine ⟨fun j hj => Bcache.setBuf_buf_ne s.mach.cache _ hj, ?_, rfl, rfl⟩
    simp [storeUnlock, withCache, setUse, Machine.withCache, buf, Bcache.setLock]
  have hGood : (storeUnlock s p i).mach.Good := by
    refine hInv.bufs.good.withCache hOk' hContent ?_
    intro b hZero
    rw [hRefs] at hZero
    exact Or.inl hZero
  refine ⟨hInv.excl, ?_, hInv.log, ?_, ?_⟩
  · exact hOne.ops hInv.ops rfl rfl rfl hHold.1.1 (by simp)
  · refine hInv.bufs.change hOne hGood rfl ?_ (fun j _ => hOne.pin_eq rfl j) ?_ (by simp) ?_
      (by simp) hInv.bufs.listed
    · intro j hj
      rw [hHold.1.2, Use.count_dropping_ne hj, Use.count_run]
    · rw [hOne.pin_eq rfl, hHold.2, hHold.1.2, Use.count_dropping_self, Use.count_run]
      simp [lockCount]
    · intro j h
      cases h
      exact hi.1
  · refine hInv.data.congr hContent rfl rfl rfl rfl ?_
    intro b j hb hj hLock
    refine hOne.locks hj hLock ?_
    intro hHeld
    rw [← hHeld.2, show s.dirty (s.mach.cache.buf i).blockno = false from hDirty] at hb
    cases hb

omit [DecidableEq P] in
/-
  When the last reference goes, the block is not in the log
  and not changed, so the buffer agrees with the disk.
-/
theorem StoreInv.content_of_last (hInv : StoreInv L s) (hUse : s.use p = .dropping i)
    (hLast : (s.buf i).refcnt = 1) :
    s.mach.content (s.buf i).blockno = s.mach.disk (s.buf i).blockno := by
  have hDev := hInv.bufs.dropping p i hUse
  have hi : s.mach.cache.Holds (s.buf i).blockno i := ⟨hDev, rfl⟩
  have hRefs := hInv.bufs.refs i
  have hSum :=
    le_sum_of_nonneg (fun q => (s.use q).count_nonneg i) p
  have hPinNonneg := s.pin_nonneg i
  rw [hUse, Use.count_dropping_self] at hSum
  rw [clients] at hRefs
  apply hInv.data.clean
  · intro hMem
    have hPin : s.pin i = 1 := if_pos ⟨hDev, hMem⟩
    split at hRefs <;> omega
  cases hDirty : s.dirty (s.buf i).blockno with
  | false => rfl
  | true =>
    rcases hInv.data.dirty _ hDirty with
      ⟨_, j, hj, hLock⟩
    have hji : j = i := hInv.bufs.good.ok.unique _ j i hj hi
    rw [hji] at hLock
    rw [if_neg hLock] at hRefs
    omega

theorem StoreInv.drop (hInv : StoreInv L s) (hUse : s.use p = .dropping i) :
    StoreInv L (storeDrop s p i) := by
  have hOk := hInv.bufs.good.ok
  have hDev := hInv.bufs.dropping p i hUse
  have hi : s.mach.cache.Holds (s.buf i).blockno i := ⟨hDev, rfl⟩
  have hCount := hInv.bufs.count_le p i
  rw [hUse, Use.count_dropping_self] at hCount
  have hRefsOf : s.mach.cache.refs (s.buf i).blockno = (s.buf i).refcnt :=
    Bcache.refs_of_holds hOk hi
  rcases Bcache.dropRef_view hOk hi (by rw [hRefsOf]; exact hCount) with
    ⟨hOk', hBuf, _, hContent, hRefs⟩
  have hPc : s.log.pc p = .inOp := hInv.ops.active p (by simp [hUse])
  have hOne : OneBuf s (storeDrop s p i) i { s.buf i with refcnt := (s.buf i).refcnt + -1 } := by
    refine ⟨?_, ?_, rfl, rfl⟩
    · intro j hj
      exact (congrFun hBuf j).trans (Bcache.setBuf_buf_ne s.mach.cache _ hj)
    · refine (congrFun hBuf i).trans ?_
      simp [Bcache.addRef, buf]
  have hGood : (storeDrop s p i).mach.Good := by
    refine hInv.bufs.good.withCache hOk' hContent ?_
    intro b hZero
    rw [hRefs] at hZero
    by_cases hb : b = (s.buf i).blockno
    · right
      rw [hb, update_self] at hZero
      rw [hb]
      exact hInv.content_of_last hUse (by omega)
    · left
      rwa [update_of_ne hb] at hZero
  refine ⟨hInv.excl, ?_, hInv.log, ?_, ?_⟩
  · exact hOne.ops hInv.ops rfl rfl rfl hPc (fun _ => .inr)
  · refine hInv.bufs.change hOne hGood rfl ?_ (fun j _ => hOne.pin_eq rfl j) ?_ (by simp)
      (by simp) (hInv.bufs.locked i) hInv.bufs.listed
    · intro j hj
      rw [hUse, Use.count_dropping_ne hj, Use.count_run]
    · rw [hOne.pin_eq rfl, hUse, Use.count_dropping_self, Use.count_run]
      dsimp only
      omega
  · refine hInv.data.congr hContent rfl rfl rfl rfl ?_
    intro b j _ hj hLock
    exact hOne.locks hj hLock (fun _ hTaken => hTaken)

end Xv6
