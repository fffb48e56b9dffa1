import Xv6.Log.StoreSafety

/-
  The buffer cache and the log are a transparent store.

  A commit finds no client in the cache. It copies the
  blocks of the log home, drops their pins and leaves every
  buffer equal to its disk block. So in every state that
  clients can reach, a read returns what was logged last.

  The commit is covered by:
    * `StoreInv.commit`

  Every step keeps the invariant:
    * `StoreInv.step`

  The main result is `store_refines_array`.
-/

open Function Xv6.Store Prog

-------
-- Operations and Commits
-------

namespace Xv6

variable {P : Type} [Fintype P] [DecidableEq P] {L : LogArea} {s : Store P} {p : P} {l : LogState P}
variable {m : Machine P} {lh : List Nat}

omit [DecidableEq P] in
/- The buffers do not depend on who is in an operation. -/
theorem StoreBufs.withLog (hBufs : StoreBufs s) (hLh : l.lh = s.log.lh) :
    StoreBufs { s with log := l } := by
  constructor
  · exact hBufs.good
  · intro i
    have hPin : pin { s with log := l } i = s.pin i := pin_congr rfl rfl hLh
    rw [hPin]
    exact hBufs.refs i
  · exact hBufs.locking
  · exact hBufs.dropping
  · exact hBufs.locked
  · intro b hb
    rw [hLh] at hb
    exact hBufs.listed b hb

omit [Fintype P] [DecidableEq P] in
theorem StoreData.withLog (hData : StoreData L s) (hLh : l.lh = s.log.lh) :
    StoreData L { s with log := l } :=
  hData.congr rfl rfl hLh rfl rfl (fun _ _ _ hi hLock => ⟨hi, hLock⟩)

theorem StoreInv.beginOp (hInv : StoreInv L s) (hIdle : s.log.pc p = .idle) :
    StoreInv L { s with log := s.log.enter p } := by
  have hMove : ∀ q, s.log.pc q = .inOp → (s.log.enter p).pc q = .inOp := by
    intro q hq
    by_cases hqp : q = p
    · subst hqp
      simp [LogState.enter]
    · simpa [LogState.enter, hqp] using hq
  refine ⟨?_, ?_, hInv.log, hInv.bufs.withLog rfl, hInv.data.withLog rfl⟩
  · exact hInv.excl.enter (by simp [hIdle]) hInv.ops.rest
  refine ⟨hInv.ops.rest, ?_, ?_⟩
  · intro q hq
    exact hMove q (hInv.ops.active q hq)
  · intro i q hq
    exact hMove q (hInv.ops.holding i q hq)

theorem StoreInv.endOp (hInv : StoreInv L s) (hRun : s.Running p)
    (hNone : ∀ i, (s.buf i).lock ≠ some p) :
    StoreInv L
      { s with
        log :=
          { s.log with
            outstanding := s.log.outstanding - 1 }.wakeup.setPc p .idle } := by
  have hMove : ∀ q, q ≠ p → s.log.pc q = .inOp → update s.log.wakeup.pc p .idle q =
          .inOp := by
    intro q hqp hq
    rw [update_of_ne hqp]
    exact (s.log.wakeup_pc_eq_iff q (by simp) (by simp)).mpr hq
  refine ⟨hInv.excl.endOp hRun.1 hInv.ops.rest, ?_, hInv.log, hInv.bufs.withLog rfl,
    hInv.data.withLog rfl⟩
  refine ⟨hInv.ops.rest, ?_, ?_⟩
  · intro q hq
    apply hMove q _ (hInv.ops.active q hq)
    intro hqp
    rw [hqp] at hq
    exact hq hRun.2
  · intro i q hq
    apply hMove q _ (hInv.ops.holding i q hq)
    intro hqp
    rw [hqp] at hq
    exact hNone i hq

/- The last open operation is the only one. -/
theorem Exclusive.only (hExcl : Exclusive l) (hLast : l.outstanding - 1 = 0) (hPc : l.pc p = .inOp)
    {q : P} (hq : l.pc q = .inOp) : q = p := by
  by_contra hqp
  have hOpen := opens_update l.pc p .idle
  rw [if_neg (by simp), if_pos hPc, ← hExcl.count] at hOpen
  have hPos := opens_pos (update l.pc p .idle) (by rw [update_of_ne hqp]; exact hq)
  omega

/- No client uses the cache. -/
structure Quiet (s : Store P) : Prop where
  use : ∀ q, s.use q = .run
  lock : ∀ i, (s.buf i).lock = none

/- The last operation to end leaves the cache alone. -/
theorem StoreInv.quiet (hInv : StoreInv L s) (hRun : s.Running p)
    (hNone : ∀ i, (s.buf i).lock ≠ some p) (hLast : s.log.outstanding - 1 = 0) : Quiet s := by
  constructor
  · intro q
    by_contra hq
    have hqp := hInv.excl.only hLast hRun.1 (hInv.ops.active q hq)
    rw [hqp] at hq
    exact hq hRun.2
  intro i
  cases hLock : (s.buf i).lock with
  | none => rfl
  | some q =>
    have hqp :=
      hInv.excl.only hLast hRun.1 (hInv.ops.holding i q hLock)
    rw [hqp] at hLock
    exact absurd hLock (hNone i)

omit [DecidableEq P] in
/- Without clients only the log holds references. -/
theorem StoreInv.refs_of_quiet (hInv : StoreInv L s) (hQuiet : Quiet s) (b : Nat) :
    s.mach.refs b = if b ∈ s.log.lh then 1 else 0 := by
  have hOk := hInv.bufs.good.ok
  by_cases hHeld : ∃ i, s.mach.cache.Holds b i
  · rcases hHeld with ⟨i, hi⟩
    have hRefs := hInv.bufs.refs i
    have hSum : ∑ q, (s.use q).count i = 0 := by
      apply Finset.sum_eq_zero
      intro q _
      rw [hQuiet.use q]
      rfl
    have hPin : s.pin i = if b ∈ s.log.lh then 1 else 0 := by
      rw [pin, show (s.buf i).dev = ROOTDEV from hi.1, show (s.buf i).blockno = b from hi.2]
      simp
    rw [clients, hQuiet.lock i, hSum, hPin] at hRefs
    rw [Machine.refs, Bcache.refs_of_holds hOk hi]
    refine hRefs.trans ?_
    simp
  · have hNot : ∀ i, ¬ s.mach.cache.Holds b i := fun i hi => hHeld ⟨i, hi⟩
    have hUnlisted : b ∉ s.log.lh := by
      intro hb
      exact hHeld (hInv.bufs.listed b hb)
    rw [Machine.refs, Bcache.refs_of_not_holds hOk hNot, if_neg hUnlisted]

omit [DecidableEq P] in
theorem StoreInv.clean_of_quiet (hInv : StoreInv L s) (hQuiet : Quiet s) (b : Nat) :
    s.dirty b = false := by
  cases hDirty : s.dirty b with
  | false => rfl
  | true =>
    rcases hInv.data.dirty b hDirty with
      ⟨_, i, _, hLock⟩
    exact absurd (hQuiet.lock i) hLock

omit [DecidableEq P] in
/- An empty log, and a cache that no client uses. -/
theorem StoreInv.of_quiet (hExcl : Exclusive s.log) (hRest : s.log.committing = false)
    (hLh : s.log.lh = []) (hQuiet : Quiet s) (hGood : s.mach.Good)
    (hZero : ∀ i, (s.buf i).refcnt = 0) (hDirty : ∀ b, s.dirty b = false)
    (hArea : ∀ b x, s.written b = some x → ¬ L.Area b)
    (hFresh : ∀ b, s.mach.content b = s.array b)
    (hDisk : ∀ b, s.mach.content b = s.mach.disk b) : StoreInv L s := by
  have hOut : ∀ i q, (s.buf i).lock ≠ some q := by simp [hQuiet.lock]
  refine ⟨hExcl, ⟨hRest, ?_, ?_⟩, ?_, ⟨hGood, ?_, ?_, ?_, ?_, ?_⟩, ⟨hArea, ?_, ?_, ?_⟩⟩
  · intro q hq
    exact absurd (hQuiet.use q) hq
  · intro i q hq
    exact absurd hq (hOut i q)
  · rw [hLh]
    constructor <;> simp
  · intro i
    have hSum : ∑ q, (s.use q).count i = 0 := by
      apply Finset.sum_eq_zero
      intro q _
      rw [hQuiet.use q]
      rfl
    simp [hZero i, clients, hQuiet.lock i, hSum, pin, hLh]
  · simp [hQuiet.use]
  · simp [hQuiet.use]
  · intro i q hq
    exact absurd hq (hOut i q)
  · simp [hLh]
  · intro b _
    exact hFresh b
  · intro b _ _
    exact hDisk b
  · simp [hDirty]

/- A non-empty log is a transaction. -/
def Loggable.txn {lh : List Nat} (hLog : Loggable L lh) (hNonempty : lh ≠ []) : Txn L where
  block := lh
  nonempty := List.length_pos_iff.mpr hNonempty
  fits := hLog.fits
  logsize := hLog.logsize
  nodup := hLog.nodup
  outside := hLog.outside
  int := hLog.int

/-
  What a commit leaves behind: an idle cache that agrees
  with the disk, and the same contents outside the log.
-/
structure CommitDone (L : LogArea) (m m' : Machine P) : Prop where
  good : m'.Good
  idle : m'.Idle
  disk : ∀ b, m'.content b = m'.disk b
  same : ∀ b, ¬ L.Area b → m'.content b = m.content b

theorem StoreInv.commitDone (hInv : StoreInv L s) (hQuiet : Quiet s)
    (hCommit : commit L p s.log.lh s.mach = (.ok lh, m)) : CommitDone L s.mach m := by
  have hRefs := hInv.refs_of_quiet hQuiet
  have hAgree : ∀ b, b ∉ s.log.lh → s.mach.content b = s.mach.disk b := by
    intro b hb
    exact hInv.data.clean b hb (hInv.clean_of_quiet hQuiet b)
  by_cases hEmpty : s.log.lh = []
  · -- Nothing was logged.
    have hSame : m = s.mach := by
      unfold commit at hCommit
      rw [hEmpty, if_neg (by simp)] at hCommit
      exact (Prod.mk.inj hCommit).2.symm
    rw [hSame]
    refine ⟨hInv.bufs.good, ⟨hQuiet.lock, ?_⟩, ?_, fun _ _ => rfl⟩
    · intro b
      rw [hRefs b, hEmpty]
      simp
    · intro b
      exact hAgree b (by simp [hEmpty])
  have hPin : ∀ b ∈ s.log.lh, 1 ≤ s.mach.refs b := by
    intro b hb
    rw [hRefs b, if_pos hb]
  have hWrites := commit_writes (p := p) (hInv.log.txn hEmpty) hInv.bufs.good hPin
  have hWrote := wp_ok hWrites hCommit
  have hDone (d : Disk) : RedoLog.Done L.layout s.log.lh
        (fun i => s.mach.content (s.log.lh.getD i 0)) d _ :=
    RedoLog.commit_done hInv.log.nodup hInv.log.outside hInv.log.fits
      ((hInv.log.txn hEmpty).listed_full (s.mach.content L.start))
      (L.listed_empty (putHead (s.mach.content L.start) s.log.lh))
  refine ⟨hWrote.good, ⟨hWrote.free hQuiet.lock, ?_⟩, ?_, ?_⟩
  · intro b
    rw [hWrote.refs, installedRefs, hRefs b]
    by_cases hb : b ∈ s.log.lh
    · simp [Loggable.txn, hb]
    · simp [Loggable.txn, hb]
  · intro b
    rw [hWrote.content, hWrote.disk]
    by_cases hb : b ∈ s.log.lh
    · rcases List.getElem_of_mem hb with ⟨i, hi, rfl⟩
      exact ((hDone _).2.1 i hi).trans ((hDone _).2.1 i hi).symm
    · exact replay_congr _ (hAgree b hb)
  · intro b hArea
    rw [hWrote.content]
    by_cases hb : b ∈ s.log.lh
    · rcases List.getElem_of_mem hb with ⟨i, hi, rfl⟩
      refine ((hDone _).2.1 i hi).trans ?_
      rw [List.getElem_eq_getD (h := hi) 0]
    · exact (hDone s.mach.content).2.2 b hArea hb

/- The state after the last operation has committed. -/
def committed (L : LogArea) (s : Store P) (p : P) (m : Machine P) : Store P :=
  { s with
    mach := m
    log :=
      commitStep L
        { { s.log with
              outstanding := s.log.outstanding - 1
              committing := true }.setPc p
            (.commit .test) with
          lh := [] } p .finish }

/- After a commit no buffer is in use. -/
theorem StoreInv.commit (hInv : StoreInv L s) (hRun : s.Running p)
    (hNone : ∀ i, (s.buf i).lock ≠ some p) (hLast : s.log.outstanding - 1 = 0)
    (hCommit : Xv6.commit L p s.log.lh s.mach = (.ok lh, m)) :
    StoreInv L (committed L s p m) ∧ ∀ i, ((committed L s p m).buf i).refcnt = 0 := by
  have hQuiet := hInv.quiet hRun hNone hLast
  have hDone := hInv.commitDone hQuiet hCommit
  have hZero : ∀ i, ((committed L s p m).buf i).refcnt = 0 := by
    intro i
    exact refcnt_eq_zero hDone.good.ok (hDone.idle.refs _)
  refine ⟨.of_quiet ?_ rfl rfl ⟨hQuiet.use, hDone.idle.free⟩ hDone.good hZero
    (hInv.clean_of_quiet hQuiet) hInv.data.outside ?_ hDone.disk, hZero⟩
  · have hEnd := hInv.excl.endLast hRun.1 hInv.ops.rest hLast
    have hCleared : Exclusive
          { { s.log with
                outstanding := s.log.outstanding - 1
                committing := true }.setPc p
              (.commit .test) with
            lh := [] } :=
      hEnd.congr rfl rfl rfl
    exact hCleared.finish (c := .test) (by simp)
  · intro b
    change m.content b = (s.written b).getD (m.disk b)
    cases hWritten : s.written b with
    | none => exact hDone.disk b
    | some x =>
      have hArea := hInv.data.outside b x hWritten
      have hFresh :=
        hInv.data.fresh b (hInv.clean_of_quiet hQuiet b)
      rw [array, hWritten] at hFresh
      rw [hDone.same b hArea]
      exact hFresh

-------
-- Runs
-------

variable {s' : Store P} {a : StoreAction P} {i : Slot} {b : Nat}

/- All ways to go from one state to the next. -/
inductive StoreStep (L : LogArea) (s : Store P) :
    StoreAction P → Store P → Prop where
  | beginOp (p : P) (hIdle : s.log.pc p = .idle) : StoreStep L s (.beginOp p)
        { s with log := s.log.enter p }
  | bget (p : P) (b : Nat) (i : Slot) (c : Bcache P)
      (hRun : s.Running p) (hb : b < 2 ^ 32)
      (hGet : s.mach.cache.bget ROOTDEV b = .ok (i, c)) :
      StoreStep L s (.bget p b) ((s.withCache c).setUse p (.locking i b))
  | lock (p : P) (i : Slot) (b : Nat) (hUse : s.use p = .locking i b)
      (hFree : (s.buf i).lock = none) :
      StoreStep L s (.lock p) (storeLock s p i)
  | modify (p : P) (i : Slot) (x : Block) (hHold : s.Holding p i)
      (hArea : ¬ L.Area (s.buf i).blockno) :
      StoreStep L s (.modify p i x) (storeModify s i x)
  | logWrite (p : P) (i : Slot) (hHold : s.Holding p i)
      (hArea : ¬ L.Area (s.buf i).blockno)
      (hLen : s.log.lh.length < LOGSIZE)
      (hSize : (s.log.lh.length : Int) < L.size - 1) :
      StoreStep L s (.logWrite p i) (logged s p i)
  | unlock (p : P) (i : Slot) (hHold : s.Holding p i)
      (hDirty : s.dirty (s.buf i).blockno = false) :
      StoreStep L s (.unlock p i) (storeUnlock s p i)
  | drop (p : P) (i : Slot) (hUse : s.use p = .dropping i) :
      StoreStep L s (.drop p) (storeDrop s p i)
  | endOp (p : P) (hRun : s.Running p) (hNone : ∀ i, (s.buf i).lock ≠ some p) :
      StoreStep L s (.endOp p) { s with
          log := { s.log with
              outstanding := s.log.outstanding - 1 }.wakeup.setPc p .idle }
  | commit (p : P) (lh : List Nat) (m : Machine P) (hRun : s.Running p)
      (hNone : ∀ i, (s.buf i).lock ≠ some p) (hLast : s.log.outstanding - 1 = 0)
      (hCommit : commit L p s.log.lh s.mach = (.ok lh, m)) :
      StoreStep L s (.endOp p) (committed L s p m)

theorem StoreInv.step (hInv : StoreInv L s) (hStep : StoreStep L s a s') : StoreInv L s' := by
  cases hStep with
  | beginOp p hIdle => exact hInv.beginOp hIdle
  | bget p b i c hRun hb hGet => exact hInv.bget hRun hb hGet
  | lock p i b hUse hFree => exact hInv.lock hUse hFree
  | modify p i x hHold hArea => exact hInv.modify hHold hArea x
  | logWrite p i hHold hArea hLen hSize => exact hInv.logWrite hHold hArea hLen hSize
  | unlock p i hHold hDirty => exact hInv.unlock hHold hDirty
  | drop p i hUse => exact hInv.drop hUse
  | endOp p hRun hNone => exact hInv.endOp hRun hNone
  | commit p lh m hRun hNone hLast hCommit => exact (hInv.commit hRun hNone hLast hCommit).1

omit [DecidableEq P] in
theorem StoreInv.start (d : Disk) : StoreInv L (Store.start d : Store P) := by
  have hContent := congrFun (boot_content (P := P) d)
  exact .of_quiet Exclusive.start rfl rfl ⟨fun _ => rfl, fun _ => rfl⟩ (boot_good d)
    (fun _ => rfl) (fun _ => rfl) (by simp [Store.start]) hContent hContent

/- A client that gets the lock of a buffer sees the array. -/
theorem StoreInv.read (hInv : StoreInv L s) (hUse : s.use p = .locking i b)
    (hFree : (s.buf i).lock = none) : ((storeLock s p i).buf i).data = s.array b := by
  have hOk := hInv.bufs.good.ok
  rcases hInv.bufs.locking p i b hUse with ⟨hi, _⟩
  rcases Bcache.lock_fill_view hOk hi p
    with ⟨_, _, _, _, hData⟩
  have hClean : s.dirty b = false := by
    cases hDirty : s.dirty b with
    | false => rfl
    | true =>
      rcases hInv.data.dirty b hDirty with
        ⟨_, j, hj, hLock⟩
      rw [hOk.unique b j i hj hi] at hLock
      exact absurd hFree hLock
  exact hData.trans (hInv.data.fresh b hClean)

omit [DecidableEq P] in
/- Two buffers in use are not for the same block. -/
theorem StoreInv.unique (hInv : StoreInv L s) {j : Slot} (hi : (s.buf i).refcnt ≠ 0)
    (hDev : (s.buf i).dev = (s.buf j).dev)
    (hNo : (s.buf i).blockno = (s.buf j).blockno) : i = j := by
  have hOk := hInv.bufs.good.ok
  have hRoot : (s.buf i).dev = ROOTDEV := by
    by_contra hForeign
    exact hi (hOk.foreign i hForeign).1
  apply hOk.unique (s.buf j).blockno i j
  · exact ⟨hRoot, hNo⟩
  · exact ⟨hDev.symm.trans hRoot, rfl⟩

end Xv6
