import Xv6.Bio.View

/-
  One specification for each operation of `bio.c`.

  A state is described by the disk, the disk writes so far
  and the view of the cache. A thread that stops in `bread`
  has written nothing.

  Key definitions include:
    * `Machine.content`
    * `Machine.refs`
    * `Machine.Good`
    * `Machine.Held`
    * `Same`

  The specifications are:
    * `bread_spec`
    * `copyInto_spec`
    * `bwrite_spec`
    * `brelse_spec`
    * `bunpin_spec`
-/

open Prog (wp wp_bind wp_edit wp_imp wp_ite wp_pure wp_read wp_stop)

open Function Xv6.Bcache

-------
-- Descriptions of States
-------

namespace Xv6

variable {P : Type}

namespace Machine

variable {s : Machine P} {p : P} {b : Nat} {i : Slot}

/- What `bread` would return for each block. -/
def content (s : Machine P) : Nat → Block := s.cache.content s.disk

/- References to the buffer of each block. -/
def refs (s : Machine P) : Nat → Int := s.cache.refs

/- The cache is well formed and loses no update. -/
structure Good (s : Machine P) : Prop where
  ok : s.cache.Ok
  clean : s.cache.Clean s.disk

/- Process `p` holds buffer `i`, which caches block `b`. -/
structure Held (s : Machine P) (p : P) (b : Nat) (i : Slot) : Prop where
  holds : s.cache.Holds b i
  valid : (s.cache.buf i).valid = true
  lock : (s.cache.buf i).lock = some p

/- A held buffer shows the contents of its block. -/
theorem Held.data_eq (hHeld : s.Held p b i) (hGood : s.Good) :
    (s.cache.buf i).data = s.content b := by
  have h := content_of_holds (d := s.disk) hGood.ok hHeld.holds
  rw [hHeld.valid] at h
  exact h.symm

/- Being held depends only on the buffer. -/
theorem Held.congr {s' : Machine P} (hHeld : s.Held p b i)
    (hBuf : s'.cache.buf i = s.cache.buf i) : s'.Held p b i := by
  constructor
  · have h := hHeld.holds
    rw [Bcache.Holds] at h ⊢
    rw [hBuf]
    exact h
  · rw [hBuf]
    exact hHeld.valid
  · rw [hBuf]
    exact hHeld.lock

/- Buffers of different blocks are different. -/
theorem Held.ne {b' : Nat} {j : Slot} (hi : s.Held p b i) (hj : s.Held p b' j)
    (hb : b ≠ b') : i ≠ j := by
  rintro rfl
  exact hb (hi.holds.2.symm.trans hj.holds.2)

end Machine

/-
  `bread` of block `b` finds an unused buffer and no lock on
  the way.
-/
structure Machine.Room (s : Machine P) (b : Nat) : Prop where
  unused : ∃ i, (s.cache.buf i).refcnt = 0
  free : ∀ i, s.cache.Holds b i ∨ (s.cache.buf i).refcnt = 0 →
    (s.cache.buf i).lock = none

/- Nothing was written between two states. -/
structure Same (s s' : Machine P) : Prop where
  disk : s'.disk = s.disk
  writes : s'.writes = s.writes

-------
-- Specifications
-------

variable {s : Machine P} {p : P} {b : Nat} {i : Slot} {E : Stop → Machine P → Prop}

/- What holds after `bread` returned buffer `i`. -/
structure Read (p : P) (b : Nat) (s : Machine P) (i : Slot) (s' : Machine P) : Prop where
  good : s'.Good
  same : Same s s'
  held : s'.Held p b i
  content : s'.content = s.content
  refs : s'.refs = update s.refs b (s.refs b + 1)
  keep : ∀ j, j ≠ i → s'.cache.buf j = s.cache.buf j
  was : s.cache.Holds b i ∨ (s.cache.buf i).refcnt = 0

/- `bget` finds or recycles a buffer, and locks it. -/
theorem bget_spec (hGood : s.Good) :
    wp (bget p ROOTDEV b) (fun i s' =>
        ∃ c, s.cache.bget ROOTDEV b = .ok (i, c) ∧ s' = s.withCache (c.setLock i (some p)))
      (fun _ s' => Same s s' ∧ ¬ s.Room b) s := by
  unfold bget
  rw [wp_bind, wp_read]
  cases hGet : s.cache.bget ROOTDEV b with
  | error e =>
    rw [wp_stop]
    refine ⟨⟨rfl, rfl⟩, ?_⟩
    rintro ⟨⟨i, hi⟩, _⟩
    exact bget_ne_error hGood.ok hi hGet
  | ok r =>
    rcases r with ⟨i, c⟩
    simp only [wp_bind, wp_edit, acquiresleep, wp_read, wp_pure, wp_ite, wp_stop]
    constructor
    · intro _
      exact ⟨c, rfl, rfl⟩
    intro hLocked
    refine ⟨⟨rfl, rfl⟩, ?_⟩
    intro hRoom
    rcases bget_view hGood.ok hGood.clean hGet
      with ⟨_, _, _, _, _, hLock, hWas⟩
    apply hLocked
    exact hLock.trans (hRoom.free i hWas)

theorem bread_spec (hGood : s.Good) :
    wp (bread p ROOTDEV b) (fun i s' => Read p b s i s')
      (fun _ s' => Same s s' ∧ ¬ s.Room b) s := by
  unfold bread
  rw [wp_bind]
  apply wp_imp (bget_spec hGood)
  rintro i _ ⟨c, hGet, rfl⟩
  simp only [wp_bind, wp_edit, wp_pure]
  rcases bget_view hGood.ok hGood.clean hGet with
    ⟨hOk, hi, hContent, hRefs, hKeep, _, hWas⟩
  rcases setLock_view hOk hi (some p)
    with ⟨hOk₁, hHolds₁, hContent₁, hRefs₁⟩
  have hi₁ := (hHolds₁ b i).mpr hi
  rcases fill_view hOk₁ hi₁ with
    ⟨hOk₂, hHolds₂, hContent₂, hRefs₂, hValid, hData⟩
  have hC : ((c.setLock i (some p)).fill s.disk i).content s.disk = s.cache.content s.disk :=
    (hContent₂.trans hContent₁).trans hContent
  have hR : ((c.setLock i (some p)).fill s.disk i).refs =
        update s.cache.refs b (s.cache.refs b + 1) :=
    (hRefs₂.trans hRefs₁).trans hRefs
  have hLock : (((c.setLock i (some p)).fill s.disk i).buf i).lock = some p := by
    unfold fill
    split
    · simp [setLock]
    · simp [setLock]
  refine
    { good := ⟨hOk₂, ?_⟩
      same := ⟨rfl, rfl⟩
      held := ⟨(hHolds₂ b i).mpr hi₁, hValid, hLock⟩
      content := hC
      refs := hR
      keep := ?_
      was := hWas }
  · intro b' hZero
    have hZero' : ((c.setLock i (some p)).fill s.disk i).refs b' =
          0 := hZero
    rw [hR] at hZero'
    change ((c.setLock i (some p)).fill s.disk i).content s.disk b' = s.disk b'
    rw [hC]
    apply hGood.clean
    by_cases hb : b' = b
    · subst hb
      rw [update_self] at hZero'
      have := refs_nonneg hGood.ok b'
      omega
    · rwa [update_of_ne hb] at hZero'
  · intro j hj
    have hFill : ∀ c' : Bcache P, (c'.fill s.disk i).buf j = c'.buf j := by
      intro c'
      unfold fill
      split
      · rfl
      · exact setBuf_buf_ne c' _ hj
    refine (hFill _).trans ?_
    refine (setBuf_buf_ne c _ hj).trans ?_
    exact hKeep j hj

/- What holds after the data of held buffer `i` changed. -/
structure Copied (b : Nat) (x : Block) (s : Machine P) (i : Slot) (s' : Machine P) : Prop where
  good : s'.Good
  same : Same s s'
  content : s'.content = update s.content b x
  refs : s'.refs = s.refs
  keep : ∀ j, j ≠ i → s'.cache.buf j = s.cache.buf j

/- Changing a referenced buffer. -/
theorem copyInto_spec (hGood : s.Good) (hHeld : s.Held p b i) (hRef : 1 ≤ s.refs b) (x : Block) :
    wp (copyInto i x) (fun _ s' => Copied b x s i s' ∧ s'.Held p b i) E s := by
  rcases setData_view (d := s.disk) hGood.ok hHeld.holds hHeld.valid x with
    ⟨hOk, hHolds, hContent, hRefs⟩
  rw [copyInto, wp_edit]
  refine
    ⟨{ good := ⟨hOk, ?_⟩
       same := ⟨rfl, rfl⟩
       content := hContent
       refs := hRefs
       keep := fun j hj => setBuf_buf_ne _ _ hj },
      ⟨(hHolds b i).mpr hHeld.holds, ?_, ?_⟩⟩
  · intro b' hZero
    have hZero' : s.cache.refs b' = 0 := by
      rw [← hRefs]
      exact hZero
    have hb : b' ≠ b := by
      rintro rfl
      have : s.refs b' = 0 := hZero'
      omega
    change (s.cache.setData i x).content s.disk b' = _
    rw [hContent, update_of_ne hb]
    exact hGood.clean b' hZero'
  · simpa [Machine.withCache, setData] using hHeld.valid
  · simpa [Machine.withCache, setData] using hHeld.lock

/- What holds after held buffer `i` was written to disk. -/
structure Written (b : Nat) (s s' : Machine P) : Prop where
  good : s'.Good
  cache : s'.cache = s.cache
  disk : s'.disk = update s.disk b (s.content b)
  writes : s'.writes = s.writes ++ [(b, s.content b)]
  content : s'.content = s.content

theorem bwrite_spec [DecidableEq P] (hGood : s.Good) (hHeld : s.Held p b i) :
    wp (bwrite p i) (fun _ s' => Written b s s') E s := by
  have hData := hHeld.data_eq hGood
  have hNo := hHeld.holds.2
  have hBuf := bufOf_of_holds hGood.ok hHeld.holds
  unfold bwrite
  simp only [wp_bind, wp_read, wp_ite, wp_edit]
  refine ⟨?_, fun hNot => absurd hHeld.lock hNot⟩
  intro _
  rw [hNo, hData]
  -- The written block is cached, every other block keeps
  -- its disk contents.
  have hContent : s.cache.content (update s.disk b (s.content b)) = s.cache.content s.disk := by
    funext b'
    by_cases hb : b' = b
    · subst hb
      simp [content, hBuf, hHeld.valid]
    · simp [content, hb]
  refine
    { good := ⟨hGood.ok, ?_⟩
      cache := rfl
      disk := rfl
      writes := rfl
      content := hContent }
  intro b' hZero
  change s.cache.content (update s.disk b (s.content b)) b' = update s.disk b (s.content b) b'
  rw [hContent]
  by_cases hb : b' = b
  · subst hb
    simp [Machine.content]
  · rw [update_of_ne hb]
    exact hGood.clean b' hZero

/- What holds after a reference to buffer `i` was dropped. -/
structure Dropped (b : Nat) (s : Machine P) (i : Slot) (s' : Machine P) : Prop where
  good : s'.Good
  same : Same s s'
  content : s'.content = s.content
  refs : s'.refs = update s.refs b (s.refs b - 1)
  keep : ∀ j, j ≠ i → s'.cache.buf j = s.cache.buf j

/-
  Releasing a buffer that keeps another reference or that
  is as on disk.
-/
theorem brelse_spec [DecidableEq P] (hGood : s.Good) (hHeld : s.Held p b i)
    (hRef : 1 ≤ s.refs b) (hSafe : 2 ≤ s.refs b ∨ s.content b = s.disk b) :
    wp (brelse p i) (fun _ s' => Dropped b s i s' ∧ (s'.cache.buf i).lock = none) E s := by
  rcases setLock_view hGood.ok hHeld.holds none with
    ⟨hOk₁, hHolds₁, hContent₁, hRefs₁⟩
  have hi₁ := (hHolds₁ b i).mpr hHeld.holds
  have hRef₁ : 1 ≤ (s.cache.setLock i none).refs b := by
    rw [hRefs₁]
    exact hRef
  rcases dropRef_view hOk₁ hi₁ hRef₁
    with ⟨hOk₂, hBuf₂, _, hContent₂, hRefs₂⟩
  unfold brelse
  simp only [wp_bind, wp_read, wp_ite, wp_edit]
  refine ⟨?_, fun hNot => absurd hHeld.lock hNot⟩
  intro _
  have hC : ((s.cache.setLock i none).dropRef i).content s.disk = s.cache.content s.disk :=
    hContent₂.trans hContent₁
  have hR : ((s.cache.setLock i none).dropRef i).refs =
        update s.cache.refs b (s.cache.refs b - 1) := by
    rw [hRefs₂, hRefs₁]
  refine
    ⟨{ good := ⟨hOk₂, ?_⟩
       same := ⟨rfl, rfl⟩
       content := hC
       refs := hR
       keep := ?_ }, ?_⟩
  · intro b' hZero
    have hZero' : ((s.cache.setLock i none).dropRef i).refs b' = 0 := hZero
    rw [hR] at hZero'
    change ((s.cache.setLock i none).dropRef i).content s.disk b' = s.disk b'
    rw [hC]
    by_cases hb : b' = b
    · subst hb
      rw [update_self] at hZero'
      rcases hSafe with hTwo | hDisk
      · have : s.refs b' - 1 = 0 := hZero'
        omega
      · exact hDisk
    · rw [update_of_ne hb] at hZero'
      exact hGood.clean b' hZero'
  · intro j hj
    change ((s.cache.setLock i none).dropRef i).buf j = _
    rw [hBuf₂]
    refine (setBuf_buf_ne _ _ hj).trans ?_
    exact setBuf_buf_ne _ _ hj
  · change (((s.cache.setLock i none).dropRef i).buf i).lock = none
    rw [hBuf₂]
    simp [addRef, setLock]

/- Unpinning a buffer that is as on disk. -/
theorem bunpin_spec (hGood : s.Good) (hHeld : s.Held p b i) (hRef : 1 ≤ s.refs b)
    (hDisk : s.content b = s.disk b) :
    wp (bunpin i) (fun _ s' => Dropped b s i s' ∧ s'.Held p b i) E s := by
  have hRef' : 0 ≤ s.cache.refs b + -1 := by
    have : s.refs b = s.cache.refs b := rfl
    omega
  rcases addRef_view (d := s.disk) hGood.ok hHeld.holds hRef' with
    ⟨hOk, hHolds, hContent, hRefs⟩
  rw [bunpin, wp_edit]
  refine
    ⟨{ good := ⟨hOk, ?_⟩
       same := ⟨rfl, rfl⟩
       content := hContent
       refs := hRefs
       keep := fun j hj => setBuf_buf_ne _ _ hj },
      ⟨(hHolds b i).mpr hHeld.holds, ?_, ?_⟩⟩
  · intro b' hZero
    have hZero' : (s.cache.addRef i (-1)).refs b' = 0 := hZero
    rw [hRefs] at hZero'
    change (s.cache.addRef i (-1)).content s.disk b' = s.disk b'
    rw [hContent]
    by_cases hb : b' = b
    · subst hb
      exact hDisk
    · rw [update_of_ne hb] at hZero'
      exact hGood.clean b' hZero'
  · simpa [Machine.withCache, addRef] using hHeld.valid
  · simpa [Machine.withCache, addRef] using hHeld.lock

@[simp] theorem wp_dataOf {Q : Block → Machine P → Prop} {E : Stop → Machine P → Prop} :
    wp (dataOf i) Q E s ↔ Q (s.cache.buf i).data s := by
  simp [dataOf]

end Xv6
