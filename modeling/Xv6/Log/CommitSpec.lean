import Xv6.Bio.Spec
import Xv6.Log.Commit

/-
  What each step of a commit and of a recovery writes.

  Every step reads one or two blocks and writes one. It can
  stop only while it reads, before its write, and not at all
  on a machine whose buffers are all free.

  Key definitions include:
    * `Machine.Idle`
    * `Wrote`

  The specifications are:
    * `writeLogBlock_spec`
    * `writeHead_spec`
    * `installBlock_spec`
    * `readHead_spec`
-/

open Prog (wp wp_bind wp_imp wp_mono wp_pure)

open Function

-------
-- Idle Machines
-------

namespace Xv6

variable {P : Type} {s : Machine P} {i : Slot}

/- No buffer is locked or referenced. -/
structure Machine.Idle (s : Machine P) : Prop where
  free : ∀ i, (s.cache.buf i).lock = none
  refs : ∀ b, s.refs b = 0

/- A buffer whose block has no references is unused. -/
theorem refcnt_eq_zero (hOk : s.cache.Ok) (hRef : s.refs (s.cache.buf i).blockno = 0) :
    (s.cache.buf i).refcnt = 0 := by
  by_cases hDev : (s.cache.buf i).dev = ROOTDEV
  · have hHolds : s.cache.Holds (s.cache.buf i).blockno i := ⟨hDev, rfl⟩
    rw [← Bcache.refs_of_holds hOk hHolds]
    exact hRef
  · exact (hOk.foreign i hDev).1

/- An idle machine can read any block. -/
theorem Machine.Idle.room (hIdle : s.Idle) (hGood : s.Good) (b : Nat) :
    s.Room b where
  unused := ⟨⟨0, by decide⟩, refcnt_eq_zero hGood.ok (hIdle.refs _)⟩
  free := fun i _ => hIdle.free i

/- It can also read a second block. -/
theorem Machine.Idle.room_of_read
    {s₁ : Machine P} {p : P} {b b' : Nat} (hIdle : s.Idle) (hGood : s.Good)
    (hb : b ≠ b') (hRead : Read p b s i s₁) : s₁.Room b' := by
  have hUsed : (s₁.cache.buf i).refcnt ≠ 0 := by
    rw [← Bcache.refs_of_holds hRead.good.ok hRead.held.holds]
    have hRefs := congrFun hRead.refs b
    rw [update_self, hIdle.refs b] at hRefs
    have : s₁.cache.refs b = 1 := hRefs
    omega
  constructor
  · have hOther : ∃ j : Slot, j ≠ i := by
      by_cases hi : i = ⟨0, by decide⟩
      · refine ⟨⟨1, by decide⟩, ?_⟩
        rw [hi]
        decide
      · exact ⟨⟨0, by decide⟩, fun h => hi h.symm⟩
    rcases hOther with ⟨j, hj⟩
    refine ⟨j, ?_⟩
    rw [hRead.keep j hj]
    exact refcnt_eq_zero hGood.ok (hIdle.refs _)
  · intro j hj
    have hji : j ≠ i := by
      rintro rfl
      rcases hj with hHolds | hZero
      · exact hb (hRead.held.holds.2.symm.trans hHolds.2)
      · exact hUsed hZero
    rw [hRead.keep j hji]
    exact hIdle.free j

-------
-- Reading Two Blocks
-------

variable {p : P}

/- What holds when `p` holds the buffers of two blocks. -/
structure ReadTwo (p : P) (b b' : Nat) (s : Machine P) (i j : Slot) (s' : Machine P) : Prop where
  good : s'.Good
  same : Same s s'
  held : s'.Held p b i
  held' : s'.Held p b' j
  content : s'.content = s.content
  refs : s'.refs = update (update s.refs b (s.refs b + 1)) b' (s.refs b' + 1)
  keep : ∀ k, k ≠ i → k ≠ j → s'.cache.buf k = s.cache.buf k

theorem ReadTwo.symm {b b' : Nat} {i j : Slot} {s' : Machine P} (h : ReadTwo p b b' s i j s')
    (hb : b ≠ b') :
    ReadTwo p b' b s j i s' where
  good := h.good
  same := h.same
  held := h.held'
  held' := h.held
  content := h.content
  refs := by rw [h.refs, update_comm hb]
  keep := fun k hki hkj => h.keep k hkj hki

/- A thread that stopped before writing anything. -/
def Stopped (s : Machine P) : Stop → Machine P → Prop := fun _ s' => s'.writes = s.writes ∧ ¬ s.Idle

theorem bread_stops {b : Nat} (hGood : s.Good) :
    wp (bread p ROOTDEV b) (fun i s' => Read p b s i s') (Stopped s) s := by
  apply wp_mono (bread_spec hGood)
  · intro i s' hRead
    exact hRead
  · rintro e s' ⟨hSame, hRoom⟩
    exact ⟨hSame.writes, fun hIdle => hRoom (hIdle.room hGood b)⟩

/- Reading two different blocks, one after the other. -/
theorem bread_two_spec {α : Type} {b b' : Nat} {Q : α → Machine P → Prop}
    {f : Slot → Slot → BioM P α} (hGood : s.Good) (hb : b ≠ b')
    (hRest : ∀ i j s', ReadTwo p b b' s i j s' → wp (f i j) Q (Stopped s) s') :
    wp (do
        let i ← bread p ROOTDEV b
        let j ← bread p ROOTDEV b'
        f i j)
      Q (Stopped s) s := by
  rw [wp_bind]
  apply wp_imp (bread_stops hGood)
  intro i s₁ hRead
  rw [wp_bind]
  apply wp_mono (bread_spec hRead.good)
  · intro j s₂ hRead'
    have hij : i ≠ j := by
      rintro rfl
      rcases hRead'.was with hHolds | hZero
      · exact hb (hRead.held.holds.2.symm.trans hHolds.2)
      have hRef := congrFun hRead.refs b
      rw [update_self] at hRef
      have hNonneg := Bcache.refs_nonneg hGood.ok b
      have hRefcnt := Bcache.refs_of_holds hRead.good.ok hRead.held.holds
      have h₁ : s₁.refs b = s₁.cache.refs b := rfl
      have h₂ : s.refs b = s.cache.refs b := rfl
      omega
    apply hRest
    refine
      { good := hRead'.good
        same := ⟨hRead'.same.disk.trans hRead.same.disk, hRead'.same.writes.trans hRead.same.writes⟩
        held := hRead.held.congr (hRead'.keep i hij)
        held' := hRead'.held
        content := hRead'.content.trans hRead.content
        refs := ?_
        keep := ?_ }
    · rw [hRead'.refs, hRead.refs, update_of_ne hb.symm]
    · intro k hki hkj
      rw [hRead'.keep k hkj, hRead.keep k hki]
  · rintro e s₂ ⟨hSame, hRoom⟩
    refine ⟨hSame.writes.trans hRead.same.writes, ?_⟩
    intro hIdle
    exact hRoom (hIdle.room_of_read hGood hb hRead)

-------
-- Steps That Write One Block
-------

variable [DecidableEq P]

/- One write of `x` to block `b`; `r` are the references. -/
structure Wrote (b : Nat) (x : Block) (r : Nat → Int) (s s' : Machine P) : Prop where
  good : s'.Good
  content : s'.content = update s.content b x
  disk : s'.disk = update s.disk b x
  writes : s'.writes = s.writes ++ [(b, x)]
  refs : s'.refs = r
  free : (∀ i, (s.cache.buf i).lock = none) → ∀ i, (s'.cache.buf i).lock = none

/- What holds after held buffer `i` was changed and written. -/
structure Stored (b : Nat) (x : Block) (s : Machine P) (i : Slot) (s' : Machine P) : Prop where
  good : s'.Good
  content : s'.content = update s.content b x
  disk : s'.disk = update s.disk b x
  writes : s'.writes = s.writes ++ [(b, x)]
  refs : s'.refs = s.refs
  keep : ∀ k, k ≠ i → s'.cache.buf k = s.cache.buf k

omit [DecidableEq P] in
theorem Stored.clean {b : Nat} {x : Block} {i : Slot} {s' : Machine P} (h : Stored b x s i s') :
    s'.content b = s'.disk b := by
  rw [h.content, h.disk, update_self, update_self]

theorem store_spec {α : Type} {b : Nat} {i : Slot} {x : Block} {m : BioM P α}
    {Q : α → Machine P → Prop} {E : Stop → Machine P → Prop} (hGood : s.Good)
    (hHeld : s.Held p b i) (hRef : 1 ≤ s.refs b)
    (hRest : ∀ s', Stored b x s i s' → s'.Held p b i → wp m Q E s') :
    wp (do
        copyInto i x
        bwrite p i
        m) Q E s := by
  rw [wp_bind]
  apply wp_imp (copyInto_spec hGood hHeld hRef x)
  rintro _ s₁ ⟨hCopied, hHeld₁⟩
  rw [wp_bind]
  apply wp_imp (bwrite_spec hCopied.good hHeld₁)
  intro _ s₂ hWritten
  have hBlock : s₁.content b = x := by rw [hCopied.content, update_self]
  refine hRest s₂ ?_ (hHeld₁.congr (by rw [hWritten.cache]))
  refine
    { good := hWritten.good
      content := hWritten.content.trans hCopied.content
      disk := ?_
      writes := ?_
      refs := ?_
      keep := ?_ }
  · rw [hWritten.disk, hBlock, hCopied.same.disk]
  · rw [hWritten.writes, hBlock, hCopied.same.writes]
  · rw [Machine.refs, hWritten.cache]
    exact hCopied.refs
  · intro k hk
    rw [hWritten.cache, hCopied.keep k hk]

/- `write_head` writes the header block. -/
theorem writeHead_spec (L : LogArea) (lh : List Nat) (hGood : s.Good) :
    wp (writeHead L p lh) (fun _ s' =>
        Wrote L.start (putHead (s.content L.start) lh) s.refs s s')
      (Stopped s) s := by
  unfold writeHead
  rw [wp_bind]
  apply wp_imp (bread_stops hGood)
  intro i s₁ hRead
  have hRef : 1 ≤ s₁.refs L.start := by
    have := Bcache.refs_nonneg hGood.ok L.start
    rw [hRead.refs, update_self]
    change 1 ≤ s.cache.refs L.start + 1
    omega
  have hData : (s₁.cache.buf i).data = s.content L.start := by
    rw [hRead.held.data_eq hRead.good, hRead.content]
  rw [wp_bind, wp_dataOf, hData]
  apply store_spec hRead.good hRead.held hRef
  intro s₂ hStored hHeld₂
  apply wp_imp (brelse_spec hStored.good hHeld₂
    (by rw [hStored.refs]; exact hRef) (Or.inr hStored.clean))
  rintro _ s₃ ⟨hDropped, hFree⟩
  refine
    { good := hDropped.good
      content := ?_
      disk := ?_
      writes := ?_
      refs := ?_
      free := ?_ }
  · rw [hDropped.content, hStored.content, hRead.content]
  · rw [hDropped.same.disk, hStored.disk, hRead.same.disk]
  · rw [hDropped.same.writes, hStored.writes, hRead.same.writes]
  · rw [hDropped.refs, hStored.refs, hRead.refs]
    simp
  · intro hAll k
    by_cases hk : k = i
    · rw [hk]
      exact hFree
    · rw [hDropped.keep k hk, hStored.keep k hk, hRead.keep k hk]
      exact hAll k

/- References after a block was installed. -/
def unpinned (recovering : Bool) (b : Nat) (r : Nat → Int) : Nat → Int :=
  if recovering = false then
    update r b (r b - 1)
  else r

/-
  A copy of block `b` is written to block `b'`, when both
  have been read, and the pin of `b'` may be dropped.
-/
theorem copyOver_spec {b b' : Nat} {i j : Slot} {s₁ : Machine P} (hGood : s.Good) (hOut : b ≠ b')
    (hTwo : ReadTwo p b b' s i j s₁) (recovering : Bool)
    (hPin : recovering = false → 1 ≤ s.refs b') :
    wp (do
        let x ← dataOf i
        copyInto j x
        bwrite p j
        if recovering = false then bunpin j else pure ()
        brelse p i
        brelse p j)
      (fun _ s' => Wrote b' (s.content b) (unpinned recovering b' s.refs) s s')
      (Stopped s) s₁ := by
  have hij := hTwo.held.ne hTwo.held' hOut
  have hNonneg : 0 ≤ s.refs b := Bcache.refs_nonneg hGood.ok b
  have hNonneg' : 0 ≤ s.refs b' := Bcache.refs_nonneg hGood.ok b'
  have hRef : s₁.refs b = s.refs b + 1 := by rw [hTwo.refs, update_of_ne hOut, update_self]
  have hRef' : s₁.refs b' = s.refs b' + 1 := by rw [hTwo.refs, update_self]
  have hData : (s₁.cache.buf i).data = s.content b := by
    rw [hTwo.held.data_eq hTwo.good, hTwo.content]
  rw [wp_bind, wp_dataOf, hData]
  apply store_spec hTwo.good hTwo.held' (by omega)
  intro s₂ hStored hHeld₂'
  have hHeld₂ : s₂.Held p b i := hTwo.held.congr (hStored.keep i hij)
  -- The block that was read still shows its disk contents,
  -- or another reference remains.
  have hSafe : 2 ≤ s₂.refs b ∨ s₂.content b = s₂.disk b := by
    by_cases hZero : s.refs b = 0
    · right
      rw [hStored.content, hStored.disk, update_of_ne hOut, update_of_ne hOut, hTwo.content,
        hTwo.same.disk]
      exact hGood.clean b hZero
    · left
      rw [hStored.refs]
      omega
  -- After the optional unpin the rest is the same.
  suffices hRest : ∀ s₄ : Machine P, s₄.Good → Same s₂ s₄ → s₄.content = s₂.content →
        s₄.Held p b i → s₄.Held p b' j →
        s₄.refs = update (update s.refs b (s.refs b + 1))
            b' (unpinned recovering b' s.refs b' + 1) →
        0 ≤ unpinned recovering b' s.refs b' →
        (∀ k, k ≠ j → s₄.cache.buf k = s₂.cache.buf k) →
        wp (do
            brelse p i
            brelse p j)
          (fun _ s' => Wrote b' (s.content b) (unpinned recovering b' s.refs) s s')
          (Stopped s) s₄ by
    cases recovering with
    | true =>
      apply hRest s₂ hStored.good ⟨rfl, rfl⟩ rfl hHeld₂ hHeld₂'
      · rw [hStored.refs, hTwo.refs]
        simp [unpinned]
      · simpa [unpinned] using hNonneg'
      · intro k _
        rfl
    | false =>
      have hPinned := hPin rfl
      rw [if_pos rfl, wp_bind]
      apply wp_imp (bunpin_spec hStored.good hHeld₂' (by rw [hStored.refs]; omega) hStored.clean)
      rintro _ s₄ ⟨hDrop, hHeld₄'⟩
      apply hRest s₄ hDrop.good hDrop.same hDrop.content (hHeld₂.congr (hDrop.keep i hij)) hHeld₄'
      · rw [hDrop.refs, hStored.refs, hTwo.refs]
        simp [unpinned]
      · simp [unpinned]
        omega
      · exact hDrop.keep
  intro s₄ hGood₄ hSame₄ hContent₄ hHeld₄ hHeld₄' hRefs₄ hUnpinned hKeep₄
  have hRef₄ : s₄.refs b = s.refs b + 1 := by rw [hRefs₄, update_of_ne hOut, update_self]
  rw [wp_bind]
  apply wp_imp (brelse_spec hGood₄ hHeld₄ (by omega) (by
      rw [hContent₄, hSame₄.disk, hRef₄]
      rw [hStored.refs, hRef] at hSafe
      exact hSafe))
  rintro _ s₅ ⟨hDrop, hFree⟩
  have hHeld₅' : s₅.Held p b' j := hHeld₄'.congr (hDrop.keep j hij.symm)
  have hRef₅ : s₅.refs b' = unpinned recovering b' s.refs b' + 1 := by
    rw [hDrop.refs, update_of_ne hOut.symm, hRefs₄, update_self]
  apply wp_imp (brelse_spec hDrop.good hHeld₅' (by omega) (Or.inr (by
        rw [hDrop.content, hContent₄, hDrop.same.disk, hSame₄.disk]
        exact hStored.clean)))
  rintro _ s₆ ⟨hDrop', hFree'⟩
  refine
    { good := hDrop'.good
      content := ?_
      disk := ?_
      writes := ?_
      refs := ?_
      free := ?_ }
  · rw [hDrop'.content, hDrop.content, hContent₄, hStored.content, hTwo.content]
  · rw [hDrop'.same.disk, hDrop.same.disk, hSame₄.disk, hStored.disk, hTwo.same.disk]
  · rw [hDrop'.same.writes, hDrop.same.writes, hSame₄.writes, hStored.writes, hTwo.same.writes]
  · rw [hDrop'.refs, hRef₅, hDrop.refs, hRefs₄]
    ext k
    by_cases hk' : k = b'
    · subst hk'
      simp
    · by_cases hk : k = b
      · subst hk
        cases recovering <;> simp [unpinned, hk']
      · cases recovering <;> simp [unpinned, hk, hk']
  · intro hAll k
    by_cases hkj : k = j
    · rw [hkj]
      exact hFree'
    rw [hDrop'.keep k hkj]
    by_cases hki : k = i
    · rw [hki]
      exact hFree
    · rw [hDrop.keep k hki, hKeep₄ k hkj, hStored.keep k hkj, hTwo.keep k hki hkj]
      exact hAll k

/- A round of `write_log` writes a log slot. -/
theorem writeLogBlock_spec (L : LogArea) (lh : List Nat) (tail : Nat) (hGood : s.Good)
    (hOut : L.start + tail + 1 ≠ lh.getD tail 0) :
    wp (writeLogBlock L p lh tail) (fun _ s' =>
        Wrote (L.start + tail + 1) (s.content (lh.getD tail 0)) s.refs s s')
      (Stopped s) s := by
  apply bread_two_spec hGood hOut
  intro i j s₁ hTwo
  exact copyOver_spec hGood hOut.symm (hTwo.symm hOut) true (by simp)

/-
  A round of `install_trans` writes a home block; outside of
  recovery it also drops the block's pin.
-/
theorem installBlock_spec (L : LogArea) (recovering : Bool) (lh : List Nat) (tail : Nat)
    (hGood : s.Good) (hOut : L.start + tail + 1 ≠ lh.getD tail 0)
    (hPin : recovering = false → 1 ≤ s.refs (lh.getD tail 0)) :
    wp (installBlock L p recovering lh tail) (fun _ s' =>
        Wrote (lh.getD tail 0) (s.content (L.start + tail + 1))
          (unpinned recovering (lh.getD tail 0) s.refs)
          s s')
      (Stopped s) s := by
  apply bread_two_spec hGood hOut
  intro i j s₁ hTwo
  exact copyOver_spec hGood hOut hTwo recovering hPin

/- `read_head` returns the listed blocks, changing nothing. -/
theorem readHead_spec (L : LogArea) (hGood : s.Good) :
    wp (readHead L p) (fun lh s' =>
        lh = listed (s.content L.start) ∧ s'.Good ∧ Same s s' ∧ s'.content = s.content ∧
          s'.refs = s.refs ∧
          ((∀ i, (s.cache.buf i).lock = none) → ∀ i, (s'.cache.buf i).lock = none))
      (Stopped s) s := by
  unfold readHead
  rw [wp_bind]
  apply wp_imp (bread_stops hGood)
  intro i s₁ hRead
  have hNonneg : 0 ≤ s.refs L.start := Bcache.refs_nonneg hGood.ok L.start
  have hRef : s₁.refs L.start = s.refs L.start + 1 := by rw [hRead.refs, update_self]
  have hData : (s₁.cache.buf i).data = s.content L.start := by
    rw [hRead.held.data_eq hRead.good, hRead.content]
  have hSafe : 2 ≤ s₁.refs L.start ∨ s₁.content L.start = s₁.disk L.start := by
    by_cases hZero : s.refs L.start = 0
    · right
      rw [hRead.content, hRead.same.disk]
      exact hGood.clean _ hZero
    · left
      omega
  rw [wp_bind, wp_dataOf, wp_bind]
  apply wp_imp (brelse_spec hRead.good hRead.held (by omega) hSafe)
  rintro _ s₂ ⟨hDrop, hFree⟩
  rw [wp_pure]
  refine ⟨by rw [hData], hDrop.good, ⟨hDrop.same.disk.trans hRead.same.disk,
      hDrop.same.writes.trans hRead.same.writes⟩,
    hDrop.content.trans hRead.content, ?_, ?_⟩
  · rw [hDrop.refs, hRead.refs]
    simp
  intro hAll k
  by_cases hk : k = i
  · rw [hk]
    exact hFree
  · rw [hDrop.keep k hk, hRead.keep k hk]
    exact hAll k

end Xv6
