import Xv6.Bio.Cache

/-
  What the buffer cache says about each block.

  In a well-formed cache at most one buffer belongs to a
  block of the root device. The cache is then determined, up
  to the position of the buffers, by two functions of the
  block number: the contents that `bread` would return and
  the number of references. Each operation of `bio.c` has
  one lemma that gives its effect on the two.

  Key definitions include:
    * `Bcache.Holds`
    * `Bcache.Ok`
    * `Bcache.bufOf`
    * `Bcache.content`
    * `Bcache.refs`
    * `Bcache.Clean`

  The lemmas about the operations are:
    * `Bcache.bget_view`
    * `Bcache.fill_view`
    * `Bcache.setLock_view`
    * `Bcache.setData_view`
    * `Bcache.addRef_view`
    * `Bcache.dropRef_view`
-/

open Function

-------
-- Well-Formed Caches
-------

namespace Xv6

namespace Bcache

variable {P : Type}

/- Buffer `i` belongs to block `b` of the root device. -/
def Holds (c : Bcache P) (b : Nat) (i : Slot) : Prop :=
  (c.buf i).dev = ROOTDEV ∧ (c.buf i).blockno = b

/-
  All buffers are in the ring, a block has at most one of
  them, no reference count is negative, and a buffer of
  another device is not in use.
-/
structure Ok (c : Bcache P) : Prop where
  complete : ∀ i, i ∈ c.lru
  unique : ∀ b i j, c.Holds b i → c.Holds b j → i = j
  nonneg : ∀ i, 0 ≤ (c.buf i).refcnt
  foreign : ∀ i, (c.buf i).dev ≠ ROOTDEV →
    (c.buf i).refcnt = 0 ∧ (c.buf i).valid = false

/- The buffer of a block. -/
def bufOf (c : Bcache P) (b : Nat) : Option (Buf P) := (c.lookup ROOTDEV b).map c.buf

/- The contents that `bread` would return. -/
def content (c : Bcache P) (d : Disk) (b : Nat) : Block :=
  match c.bufOf b with
  | some x => if x.valid then x.data else d b
  | none => d b

/- References to the buffer of a block. -/
def refs (c : Bcache P) (b : Nat) : Int :=
  match c.bufOf b with
  | some x => x.refcnt
  | none => 0

/- A block without references is as on disk. -/
def Clean (c : Bcache P) (d : Disk) : Prop := ∀ b, c.refs b = 0 → c.content d b = d b

/- The empty cache is well formed. -/
theorem ok_binit :
    (binit : Bcache P).Ok where
  complete := by
    intro i
    simp [binit]
  unique := by
    intro b i j hi _
    have hDev := hi.1
    simp [binit] at hDev
  nonneg := by
    intro i
    simp [binit]
  foreign := by
    intro i _
    simp [binit]

-------
-- Lookups
-------

variable {c c' : Bcache P} {d : Disk} {b : Nat} {i : Slot}

section

variable (hOk : c.Ok)
include hOk

/- `bget` finds exactly the buffer of the block. -/
theorem lookup_eq_some_iff : c.lookup ROOTDEV b = some i ↔ c.Holds b i := by
  constructor
  · intro hFind
    have hHolds := List.find?_some hFind
    simpa [Holds] using hHolds
  intro hHolds
  cases hFind : c.lookup ROOTDEV b with
  | none =>
    have hNone := List.find?_eq_none.mp hFind i (hOk.complete i)
    have hNot : ¬ c.Holds b i := by simpa [Holds] using hNone
    exact absurd hHolds hNot
  | some j =>
    have hj := List.find?_some hFind
    have hj' : c.Holds b j := by simpa [Holds] using hj
    rw [hOk.unique b j i hj' hHolds]

theorem lookup_eq_none_iff : c.lookup ROOTDEV b = none ↔ ∀ i, ¬ c.Holds b i := by
  constructor
  · intro hNone i hi
    rw [(lookup_eq_some_iff hOk).mpr hi] at hNone
    cases hNone
  · intro hAll
    cases hFind : c.lookup ROOTDEV b with
    | none => rfl
    | some j => exact absurd ((lookup_eq_some_iff hOk).mp hFind) (hAll j)

theorem bufOf_of_holds (hi : c.Holds b i) : c.bufOf b = some (c.buf i) := by
  rw [bufOf, (lookup_eq_some_iff hOk).mpr hi]
  rfl

theorem bufOf_of_not_holds (hNot : ∀ i, ¬ c.Holds b i) : c.bufOf b = none := by
  rw [bufOf, (lookup_eq_none_iff hOk).mpr hNot]
  rfl

theorem content_of_holds (hi : c.Holds b i) :
    c.content d b =
      if (c.buf i).valid then (c.buf i).data else d b := by
  rw [content, bufOf_of_holds hOk hi]

theorem content_of_not_holds (hNot : ∀ i, ¬ c.Holds b i) : c.content d b = d b := by
  rw [content, bufOf_of_not_holds hOk hNot]

theorem refs_of_holds (hi : c.Holds b i) : c.refs b = (c.buf i).refcnt := by
  rw [refs, bufOf_of_holds hOk hi]

theorem refs_of_not_holds (hNot : ∀ i, ¬ c.Holds b i) : c.refs b = 0 := by
  rw [refs, bufOf_of_not_holds hOk hNot]

theorem refs_nonneg (b : Nat) : 0 ≤ c.refs b := by
  by_cases hHeld : ∃ i, c.Holds b i
  · rcases hHeld with ⟨i, hi⟩
    rw [refs_of_holds hOk hi]
    exact hOk.nonneg i
  · rw [refs_of_not_holds hOk (fun i hi => hHeld ⟨i, hi⟩)]

/-
  The order of the ring does not matter: caches with the
  same buffers assign the same buffer to each block.
-/
theorem bufOf_congr (hOk' : c'.Ok) (hBuf : c'.buf = c.buf) : c'.bufOf = c.bufOf := by
  have hHolds : ∀ b i, c'.Holds b i ↔ c.Holds b i := by
    intro b i
    simp [Holds, hBuf]
  funext b
  by_cases hHeld : ∃ i, c.Holds b i
  · rcases hHeld with ⟨i, hi⟩
    rw [bufOf_of_holds hOk hi, bufOf_of_holds hOk' ((hHolds b i).mpr hi), hBuf]
  · have hNot : ∀ i, ¬ c.Holds b i := fun i hi => hHeld ⟨i, hi⟩
    rw [bufOf_of_not_holds hOk hNot, bufOf_of_not_holds hOk'
        (fun i hi => hNot i ((hHolds b i).mp hi))]

end

/- Equal buffers show equal contents and references. -/
theorem view_congr (h : c'.bufOf b = c.bufOf b) :
    c'.content d b = c.content d b ∧ c'.refs b = c.refs b := by
  simp [content, refs, h]

-------
-- Changing One Buffer
-------

variable {x : Buf P}

@[simp] theorem setBuf_buf_self (c : Bcache P) (i : Slot) (x : Buf P) :
    (c.setBuf i x).buf i = x := by
  simp [setBuf]

theorem setBuf_buf_ne (c : Bcache P) (x : Buf P) {i j : Slot} (hj : j ≠ i) :
    (c.setBuf i x).buf j = c.buf j := by
  simp [setBuf, hj]

/- A change that keeps the key keeps all keys. -/
theorem holds_setBuf (hDev : x.dev = (c.buf i).dev) (hNo : x.blockno = (c.buf i).blockno)
    (b : Nat) (j : Slot) : (c.setBuf i x).Holds b j ↔ c.Holds b j := by
  by_cases hj : j = i
  · subst hj
    simp [Holds, hDev, hNo]
  · simp [Holds, setBuf_buf_ne c x hj]

section

variable (hOk : c.Ok) (hi : c.Holds b i) (hDev : x.dev = (c.buf i).dev)
variable (hNo : x.blockno = (c.buf i).blockno) (hRef : 0 ≤ x.refcnt)
include hOk hi hDev hNo hRef

theorem ok_setBuf :
    (c.setBuf i x).Ok where
  complete := hOk.complete
  unique := by
    intro b j k hj hk
    exact hOk.unique b j k ((holds_setBuf hDev hNo b j).mp hj) ((holds_setBuf hDev hNo b k).mp hk)
  nonneg := by
    intro j
    by_cases hj : j = i
    · subst hj
      simpa using hRef
    · rw [setBuf_buf_ne c x hj]
      exact hOk.nonneg j
  foreign := by
    intro j
    by_cases hj : j = i
    · subst hj
      rw [setBuf_buf_self, hDev]
      intro hForeign
      exact absurd hi.1 hForeign
    · rw [setBuf_buf_ne c x hj]
      exact hOk.foreign j

/- Such a change replaces the buffer of one block. -/
theorem bufOf_setBuf : (c.setBuf i x).bufOf = update c.bufOf b (some x) := by
  have hOk' := ok_setBuf hOk hi hDev hNo hRef
  have hHolds := holds_setBuf hDev hNo
  funext b'
  by_cases hb : b' = b
  · subst hb
    rw [update_self, bufOf_of_holds hOk' ((hHolds b' i).mpr hi), setBuf_buf_self]
  rw [update_of_ne hb]
  by_cases hHeld : ∃ j, c.Holds b' j
  · rcases hHeld with ⟨j, hj⟩
    have hji : j ≠ i := by
      rintro rfl
      exact hb (hj.2.symm.trans hi.2)
    rw [bufOf_of_holds hOk hj, bufOf_of_holds hOk' ((hHolds b' j).mpr hj), setBuf_buf_ne c x hji]
  · rw [bufOf_of_not_holds hOk (fun j hj => hHeld ⟨j, hj⟩),
      bufOf_of_not_holds hOk' (fun j hj => hHeld ⟨j, (hHolds b' j).mp hj⟩)]

/- The view after a change that keeps the key. -/
theorem setBuf_view :
    (c.setBuf i x).content d = update (c.content d) b (if x.valid then x.data else d b) ∧
      (c.setBuf i x).refs = update c.refs b x.refcnt := by
  have hBuf := bufOf_setBuf hOk hi hDev hNo hRef
  constructor
  · funext b'
    by_cases hb : b' = b
    · subst hb
      simp [content, hBuf]
    · rw [update_of_ne hb]
      exact (view_congr (by simp [hBuf, hb])).1
  · funext b'
    by_cases hb : b' = b
    · subst hb
      simp [refs, hBuf]
    · rw [update_of_ne hb]
      exact (view_congr (d := d) (by simp [hBuf, hb])).2

end

-------
-- Views of the Operations
-------

variable {c' : Bcache P}

section

variable (hOk : c.Ok) (hi : c.Holds b i)
include hOk hi

/- Locking or unlocking does not show in the view. -/
theorem setLock_view (l : Option P) :
    (c.setLock i l).Ok ∧ (∀ b' j, (c.setLock i l).Holds b' j ↔ c.Holds b' j) ∧
      (c.setLock i l).content d = c.content d ∧
      (c.setLock i l).refs = c.refs := by
  have hView := setBuf_view (d := d) (x := { c.buf i with lock := l }) hOk hi rfl rfl (hOk.nonneg i)
  refine ⟨ok_setBuf hOk hi rfl rfl (hOk.nonneg i), holds_setBuf rfl rfl, ?_, ?_⟩
  · refine hView.1.trans ?_
    rw [← content_of_holds hOk hi, update_eq_self]
  · refine hView.2.trans ?_
    rw [← refs_of_holds hOk hi, update_eq_self]

/- Reading the block from disk does not show in the view. -/
theorem fill_view :
    (c.fill d i).Ok ∧ (∀ b' j, (c.fill d i).Holds b' j ↔ c.Holds b' j) ∧
      (c.fill d i).content d = c.content d ∧
      (c.fill d i).refs = c.refs ∧
      ((c.fill d i).buf i).valid = true ∧
      ((c.fill d i).buf i).data = c.content d b := by
  have hContent := content_of_holds (d := d) hOk hi
  cases hValid : (c.buf i).valid with
  | true =>
    have hSame : c.fill d i = c := by simp [fill, hValid]
    rw [hSame]
    refine ⟨hOk, fun _ _ => Iff.rfl, rfl, rfl, hValid, ?_⟩
    simpa [hValid] using hContent.symm
  | false =>
    have hFill : c.fill d i = c.setBuf i
          { c.buf i with
            data := d (c.buf i).blockno
            valid := true } := by
      simp [fill, hValid]
    have hDisk : c.content d b = d b := by simpa [hValid] using hContent
    have hView :=
      setBuf_view (d := d) (x := { c.buf i with
          data := d (c.buf i).blockno
          valid := true })
        hOk hi rfl rfl (hOk.nonneg i)
    rw [hFill]
    refine ⟨ok_setBuf hOk hi rfl rfl (hOk.nonneg i), holds_setBuf rfl rfl, ?_, ?_, by simp, ?_⟩
    · refine hView.1.trans ?_
      rw [if_pos rfl, hi.2, ← hDisk, update_eq_self]
    · refine hView.2.trans ?_
      rw [← refs_of_holds hOk hi, update_eq_self]
    · simp [hDisk, hi.2]

/- Changing the data of a valid buffer. -/
theorem setData_view (hValid : (c.buf i).valid = true) (x : Block) :
    (c.setData i x).Ok ∧ (∀ b' j, (c.setData i x).Holds b' j ↔ c.Holds b' j) ∧
      (c.setData i x).content d = update (c.content d) b x ∧
      (c.setData i x).refs = c.refs := by
  have hView := setBuf_view (d := d) (x := { c.buf i with data := x }) hOk hi rfl rfl (hOk.nonneg i)
  refine ⟨ok_setBuf hOk hi rfl rfl (hOk.nonneg i), holds_setBuf rfl rfl, ?_, ?_⟩
  · refine hView.1.trans ?_
    simp [hValid]
  · refine hView.2.trans ?_
    rw [← refs_of_holds hOk hi, update_eq_self]

/- Adding to a reference count that stays non-negative. -/
theorem addRef_view {k : Int} (hRef : 0 ≤ c.refs b + k) :
    (c.addRef i k).Ok ∧ (∀ b' j, (c.addRef i k).Holds b' j ↔ c.Holds b' j) ∧
      (c.addRef i k).content d = c.content d ∧
      (c.addRef i k).refs = update c.refs b (c.refs b + k) := by
  have hRef' : 0 ≤ (c.buf i).refcnt + k := by
    rw [← refs_of_holds hOk hi]
    exact hRef
  have hView :=
    setBuf_view (d := d) (x := { c.buf i with
        refcnt := (c.buf i).refcnt + k })
      hOk hi rfl rfl hRef'
  refine ⟨ok_setBuf hOk hi rfl rfl hRef', holds_setBuf rfl rfl, ?_, ?_⟩
  · refine hView.1.trans ?_
    rw [← content_of_holds hOk hi, update_eq_self]
  · refine hView.2.trans ?_
    rw [refs_of_holds hOk hi]

/- Dropping a reference; the buffer may move in the ring. -/
theorem dropRef_view (hRef : 1 ≤ c.refs b) :
    (c.dropRef i).Ok ∧ (c.dropRef i).buf = (c.addRef i (-1)).buf ∧
      (∀ b' j, (c.dropRef i).Holds b' j ↔ c.Holds b' j) ∧
      (c.dropRef i).content d = c.content d ∧
      (c.dropRef i).refs = update c.refs b (c.refs b - 1) := by
  rcases addRef_view (k := -1) hOk hi (by omega)
    with ⟨hOk₁, hHolds, hContent, hRefs⟩
  have hBuf : (c.dropRef i).buf = (c.addRef i (-1)).buf := by
    unfold dropRef
    simp only
    split
    · rfl
    · rfl
  have hComplete : ∀ j, j ∈ (c.dropRef i).lru := by
    intro j
    unfold dropRef
    simp only
    split
    · by_cases hj : j = i
      · simp [hj]
      · rw [List.mem_cons]
        right
        exact (List.mem_erase_of_ne hj).mpr (hOk₁.complete j)
    · exact hOk₁.complete j
  have hOk₂ : (c.dropRef i).Ok :=
    { complete := hComplete
      unique := by
        intro b' j k hj hk
        apply hOk₁.unique b' j k
        · simpa [Holds, hBuf] using hj
        · simpa [Holds, hBuf] using hk
      nonneg := by
        intro j
        rw [hBuf]
        exact hOk₁.nonneg j
      foreign := by
        intro j
        rw [hBuf]
        exact hOk₁.foreign j }
  have hBufOf := bufOf_congr hOk₁ hOk₂ hBuf
  refine ⟨hOk₂, hBuf, ?_, ?_, ?_⟩
  · intro b' j
    rw [← hHolds b' j]
    simp [Holds, hBuf]
  · rw [← hContent]
    funext b'
    exact (view_congr (congrFun hBufOf b')).1
  · refine Eq.trans ?_ hRefs
    funext b'
    exact (view_congr (d := d) (congrFun hBufOf b')).2

end

-------
-- The View of bget
-------

/- The two ways in which `bget` returns a buffer. -/
theorem bget_cases (hOk : c.Ok) (hGet : c.bget ROOTDEV b = .ok (i, c')) :
    (c.Holds b i ∧ c' = c.setBuf i
        { c.buf i with refcnt := (c.buf i).refcnt + 1 }) ∨
    ((∀ j, ¬ c.Holds b j) ∧ (c.buf i).refcnt = 0 ∧ c' = c.setBuf i
        { c.buf i with
          dev := ROOTDEV
          blockno := b
          valid := false
          refcnt := 1 }) := by
  unfold bget at hGet
  cases hFind : c.lookup ROOTDEV b with
  | some j =>
    rw [hFind] at hGet
    cases hGet
    exact Or.inl ⟨(lookup_eq_some_iff hOk).mp hFind, rfl⟩
  | none =>
    rw [hFind] at hGet
    cases hUnused : c.unused with
    | none =>
      rw [hUnused] at hGet
      cases hGet
    | some j =>
      rw [hUnused] at hGet
      cases hGet
      have hZero := List.find?_some hUnused
      exact Or.inr ⟨(lookup_eq_none_iff hOk).mp hFind, by simpa using hZero, rfl⟩

/- `bget` panics only when every buffer is in use. -/
theorem bget_ne_error (hOk : c.Ok) (hZero : (c.buf i).refcnt = 0) {e : Panic} :
    c.bget ROOTDEV b ≠ .error e := by
  intro hGet
  unfold bget at hGet
  cases hFind : c.lookup ROOTDEV b with
  | some j =>
    rw [hFind] at hGet
    cases hGet
  | none =>
    rw [hFind] at hGet
    cases hUnused : c.unused with
    | some j =>
      rw [hUnused] at hGet
      cases hGet
    | none =>
      have hNone := List.find?_eq_none.mp hUnused i (List.mem_reverse.mpr (hOk.complete i))
      simp [hZero] at hNone

/- Recycling an unused buffer for an uncached block. -/
theorem recycle_view (hOk : c.Ok) (hClean : c.Clean d) (hNot : ∀ j, ¬ c.Holds b j)
    (hZero : (c.buf i).refcnt = 0)
    (hNew : c' = c.setBuf i
        { c.buf i with
          dev := ROOTDEV
          blockno := b
          valid := false
          refcnt := 1 }) :
    c'.Ok ∧ c'.Holds b i ∧ c'.content d = c.content d ∧ c'.refs = update c.refs b 1 := by
  have hSelf : c'.Holds b i := by simp [hNew, Holds]
  have hKeep : ∀ j, j ≠ i → c'.buf j = c.buf j := by
    intro j hj
    rw [hNew, setBuf_buf_ne c _ hj]
  have hBack : ∀ b' j, c'.Holds b' j → (j = i ∧ b' = b) ∨ (j ≠ i ∧ c.Holds b' j) := by
    intro b' j hj
    by_cases hji : j = i
    · subst hji
      exact Or.inl ⟨rfl, hj.2.symm.trans hSelf.2⟩
    · right
      refine ⟨hji, ?_⟩
      simpa [Holds, hKeep j hji] using hj
  have hOk' : c'.Ok :=
    { complete := by
        rw [hNew]
        exact hOk.complete
      unique := by
        intro b' j k hj hk
        rcases hBack b' j hj with ⟨rfl, rfl⟩ | ⟨_, hj'⟩
        · rcases hBack b' k hk with ⟨rfl, _⟩ | ⟨_, hk'⟩
          · rfl
          · exact absurd hk' (hNot k)
        · rcases hBack b' k hk with ⟨rfl, rfl⟩ | ⟨_, hk'⟩
          · exact absurd hj' (hNot j)
          · exact hOk.unique b' j k hj' hk'
      nonneg := by
        intro j
        by_cases hj : j = i
        · simp [hj, hNew]
        · rw [hKeep j hj]
          exact hOk.nonneg j
      foreign := by
        intro j
        by_cases hj : j = i
        · simp [hj, hNew]
        · rw [hKeep j hj]
          exact hOk.foreign j }
  have hOther : ∀ b', b' ≠ b → (∃ j, c'.Holds b' j) → c'.bufOf b' = c.bufOf b' := by
    rintro b' hb ⟨j, hj⟩
    rcases hBack b' j hj with ⟨_, h⟩ | ⟨hji, hj'⟩
    · exact absurd h hb
    · rw [bufOf_of_holds hOk' hj, bufOf_of_holds hOk hj', hKeep j hji]
  -- A block that lost its buffer had no references, so its
  -- contents were already those on disk.
  have hLost : ∀ b', (∀ j, ¬ c'.Holds b' j) → c.content d b' = d b' ∧ c.refs b' = 0 := by
    intro b' hNone
    have hRef : c.refs b' = 0 := by
      by_cases hWas : ∃ j, c.Holds b' j
      · rcases hWas with ⟨j, hj⟩
        have hji : j = i := by
          by_contra hji
          apply hNone j
          simpa [Holds, hKeep j hji] using hj
        rw [refs_of_holds hOk hj, hji, hZero]
      · exact refs_of_not_holds hOk (fun j hj => hWas ⟨j, hj⟩)
    exact ⟨hClean b' hRef, hRef⟩
  refine ⟨hOk', hSelf, ?_, ?_⟩
  · funext b'
    by_cases hb : b' = b
    · subst hb
      rw [content_of_holds hOk' hSelf, content_of_not_holds hOk hNot]
      simp [hNew]
    by_cases hHeld : ∃ j, c'.Holds b' j
    · exact (view_congr (hOther b' hb hHeld)).1
    · have hNone : ∀ j, ¬ c'.Holds b' j := fun j hj => hHeld ⟨j, hj⟩
      rw [content_of_not_holds hOk' hNone, (hLost b' hNone).1]
  · funext b'
    by_cases hb : b' = b
    · subst hb
      rw [refs_of_holds hOk' hSelf]
      simp [hNew]
    rw [update_of_ne hb]
    by_cases hHeld : ∃ j, c'.Holds b' j
    · exact (view_congr (d := d) (hOther b' hb hHeld)).2
    · have hNone : ∀ j, ¬ c'.Holds b' j := fun j hj => hHeld ⟨j, hj⟩
      rw [refs_of_not_holds hOk' hNone, (hLost b' hNone).2]

/- `bget` adds one reference and changes no contents. -/
theorem bget_view (hOk : c.Ok) (hClean : c.Clean d) (hGet : c.bget ROOTDEV b = .ok (i, c')) :
    c'.Ok ∧ c'.Holds b i ∧ c'.content d = c.content d ∧ c'.refs = update c.refs b (c.refs b + 1) ∧
      (∀ j, j ≠ i → c'.buf j = c.buf j) ∧
      (c'.buf i).lock = (c.buf i).lock ∧
      (c.Holds b i ∨ (c.buf i).refcnt = 0) := by
  rcases bget_cases hOk hGet with
    ⟨hi, hNew⟩ | ⟨hNot, hZero, hNew⟩
  · have hRef : 0 ≤ c.refs b + 1 := by
      have := refs_nonneg hOk b
      omega
    rcases addRef_view hOk hi hRef with
      ⟨hOk', hHolds, hContent, hRefs⟩
    have hEq : c' = c.addRef i 1 := hNew
    rw [hEq]
    refine ⟨hOk', (hHolds b i).mpr hi, hContent, hRefs, ?_, ?_, Or.inl hi⟩
    · intro j hj
      exact setBuf_buf_ne c _ hj
    · simp [addRef]
  · rcases recycle_view hOk hClean hNot hZero hNew with
      ⟨hOk', hi', hContent, hRefs⟩
    refine ⟨hOk', hi', hContent, ?_, ?_, ?_, Or.inr hZero⟩
    · rw [hRefs, refs_of_not_holds hOk hNot]
      rfl
    · intro j hj
      rw [hNew, setBuf_buf_ne c _ hj]
    · simp [hNew]

/- References keep a block's buffer where it is. -/
theorem bget_keeps (hOk : c.Ok) (hGet : c.bget ROOTDEV b = .ok (i, c')) {b' : Nat} {j : Slot}
    (hj : c.Holds b' j) (hRef : (c.buf j).refcnt ≠ 0) :
    c'.Holds b' j ∧ (c'.buf j).valid = (c.buf j).valid ∧ (c'.buf j).data = (c.buf j).data ∧
      (c'.buf j).lock = (c.buf j).lock := by
  rcases bget_cases hOk hGet with
    ⟨_, rfl⟩ | ⟨_, hZero, rfl⟩
  · by_cases hji : j = i
    · subst hji
      exact ⟨(holds_setBuf (x := { c.buf j with
        refcnt := (c.buf j).refcnt + 1 }) rfl rfl b' j).mpr hj, by simp, by simp, by simp⟩
    · rw [Holds, setBuf_buf_ne c _ hji]
      exact ⟨hj, rfl, rfl, rfl⟩
  · have hji : j ≠ i := by
      rintro rfl
      exact hRef hZero
    rw [Holds, setBuf_buf_ne c _ hji]
    exact ⟨hj, rfl, rfl, rfl⟩

end Bcache

end Xv6
