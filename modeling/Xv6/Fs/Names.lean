import Xv6.Fs.DirSpec

/-
  The name space: what a state shows of its inodes, and how
  the parts of a system call change it.

  Within a call the name space is described by the nodes the
  call intends and by the inodes it holds. Whatever else a
  call does to the inode table is described once and for all
  by `Partway`.

  Key definitions include:
    * `Fs.names`
    * `Shows`
    * `Partway`
    * `During`
-/

open Function Xv6.View Finset

-------
-- Views of Nodes
-------

namespace Xv6

namespace View

variable {φ ψ : Type}

/- Show less of every file. -/
def map (f : φ → ψ) (v : View φ) : View ψ where
  file := fun i => f (v.file i)
  ref := v.ref
  valid := v.valid

variable (f : φ → ψ) (v : View φ) (i : Nat)

@[simp] theorem map_file : (v.map f).file i = f (v.file i) := rfl

@[simp] theorem map_ref : (v.map f).ref = v.ref := rfl

@[simp] theorem map_valid : (v.map f).valid = v.valid := rfl

theorem map_setFile (x : φ) : (v.setFile i x).map f = (v.map f).setFile i (f x) := by
  ext j
  · by_cases hj : j = i
    · subst hj
      simp
    · simp [hj]
  · rfl
  · rfl

theorem map_get : (v.get i).map f = (v.map f).get i := rfl

theorem map_lock : (v.lock i).map f = (v.map f).lock i := rfl

theorem map_drop : (v.drop i).map f = (v.map f).drop i := rfl

theorem map_put (v : View File) :
    (v.put File.nlink File.free i).map File.node =
      (v.map File.node).put Node.nlink Node.free i := by
  unfold put
  rw [← File.node_free, ← map_setFile]
  split
  · next hFree => exact (if_pos hFree).symm
  · next hFree => exact (if_neg hFree).symm

end View

section Put

variable {φ : Type} (nlink : φ → BitVec 16) (free : φ) (v : View φ) (i j : Nat)

/- What dropping a reference does to each inode. -/
theorem View.put_ref : (v.put nlink free i).ref = update v.ref i (v.ref i - 1) := by
  unfold put
  split <;> rfl

theorem View.put_valid :
    (v.put nlink free i).valid j =
      if v.ref i = 1 ∧ j = i then false else v.valid j := by
  have hDrop (v : View φ) : (v.drop i).valid j =
        if v.ref i = 1 ∧ j = i then false else v.valid j := by
    by_cases hOne : v.ref i = 1
    · by_cases hj : j = i
      · simp [drop, hOne, hj]
      · simp [drop, hOne, hj]
    · simp [drop, hOne]
  unfold put
  split
  · exact hDrop _
  · exact hDrop _

theorem View.put_file :
    (v.put nlink free i).file j =
      if j = i ∧ v.ref i = 1 ∧ v.valid i = true ∧ nlink (v.file i) = 0 then free
      else v.file j := by
  unfold put
  split
  · next hFree =>
      by_cases hj : j = i
      · subst hj
        rw [if_pos ⟨rfl, hFree⟩]
        exact update_self ..
      · rw [if_neg (by tauto)]
        exact update_of_ne hj ..
  · next hFree =>
      rw [if_neg (by tauto)]
      rfl

end Put

-------
-- Name Spaces
-------

/- The name space of a state. -/
def Fs.names (sb : Superblock) (s : Fs) : View Node := (s.view sb).map File.node

/- A consistent state and its name space. -/
structure Shows (sb : Superblock) (s : Fs) (n : View Node) : Prop where
  inv : Inv sb none s
  dirs : ∀ i, ((s.view sb).file i).DirOk sb
  names : s.names sb = n

namespace Shows

variable {sb : Superblock} {s : Fs} {n : View Node} {i : Nat}

theorem of_at {v : View File} (h : At sb none s v) (hDirs : ∀ i, (v.file i).DirOk sb) :
    Shows sb s (v.map File.node) where
  inv := h.inv
  dirs := by
    rw [h.view]
    exact hDirs
  names := by rw [Fs.names, h.view]

section

variable (h : Shows sb s n)
include h

/- The files behind the name space. -/
theorem exists_at :
    ∃ v : View File, At sb none s v ∧ (∀ i, (v.file i).DirOk sb) ∧ n = v.map File.node :=
  ⟨s.view sb, ⟨h.inv, rfl⟩, h.dirs, h.names.symm⟩

theorem nonneg (i : Nat) : 0 ≤ n.ref i := by
  rw [← h.names]
  exact h.inv.nonneg i

theorem backed (hValid : n.valid i = true) : 0 < n.ref i := by
  rw [← h.names] at hValid ⊢
  exact of_decide_eq_true (Bool.and_eq_true_iff.mp hValid).1

/- Only existing inodes are allocated. -/
theorem lt_ninodes (hType : (n.file i).type ≠ 0) : i < sb.ninodes := by
  rw [← h.names] at hType
  by_contra hLt
  apply hType
  change ((s.ino sb i).file s.disk).type = 0
  rw [Fs.ino, if_neg hLt]
  rfl

theorem file_of_free (hType : (n.file i).type = 0) : n.file i = Node.free := by
  rw [← h.names] at hType ⊢
  have hIno : (s.ino sb i).type = 0 := (Dinode.file_type ..).symm.trans hType
  rw [← File.node_free]
  exact congrArg File.node (Dinode.file_of_free hIno)

theorem ents_of_not_dir (hDir : (n.file i).type ≠ T_DIR) : (n.file i).ents = [] := by
  rw [← h.names] at hDir ⊢
  exact File.ents_of_not_dir hDir

end

end Shows

/- References are to allocated inodes only. -/
def View.Sound (n : View Node) : Prop := ∀ i, 0 < n.ref i → (n.file i).type ≠ 0

/-
  Every allocated inode without links is in use, and its
  table entry is valid, so that the last reference frees it.
-/
def View.Settled (n : View Node) : Prop :=
  ∀ i, (n.file i).type ≠ 0 → (n.file i).nlink = 0 →
    0 < n.ref i ∧ n.valid i = true

-------
-- Within a Call
-------

/-
  A call that started in the name space `n` has reached
  `n'`. It has made the nodes `N` and holds references to
  `held`. The inodes `known` have been locked since they are
  held. Inodes without links that only this call refers to
  may have been freed on the way.
-/
structure Partway (n : View Node) (N : Nat → Node) (held known : List Nat)
    (n' : View Node) : Prop where
  nonneg : ∀ i, 0 ≤ n.ref i
  backed : ∀ i, n.valid i = true → 0 < n.ref i
  ref : ∀ i, n'.ref i = n.ref i + (held.count i : Nat)
  valid : ∀ i, n.valid i = true → n'.valid i = true
  file : ∀ i, n'.file i = N i ∨
    n'.file i = Node.free ∧ (N i).nlink = 0 ∧ n.ref i = 0
  known : ∀ i ∈ known, i ∈ held ∧ n'.valid i = true ∧ n'.file i = N i
  settled : n.Settled → n'.Settled

namespace Partway

variable {n n' : View Node} {N : Nat → Node} {held known : List Nat} {i : Nat}
variable {held' known' : List Nat}

/- A call begins. -/
theorem start {sb : Superblock} {s : Fs} (h : Shows sb s n) :
    Partway n n.file [] [] n where
  nonneg := h.nonneg
  backed := fun _ => h.backed
  ref := fun i => by simp
  valid := fun _ hValid => hValid
  file := fun _ => .inl rfl
  known := fun i hi => by cases hi
  settled := id

section

variable (h : Partway n N held known n')
include h

theorem ref_pos (hi : i ∈ held) : 0 < n'.ref i := by
  have hCount := List.count_pos_iff.mpr hi
  have hNonneg := h.nonneg i
  rw [h.ref i]
  omega

theorem get (i : Nat) :
    Partway n N (i :: held) known (n'.get i) where
  nonneg := h.nonneg
  backed := h.backed
  ref := fun j => by
    by_cases hj : j = i
    · subst hj
      simp [View.get, h.ref j, Int.add_assoc]
    · simp [View.get, hj, h.ref j, Ne.symm hj]
  valid := h.valid
  file := h.file
  known := fun j hj =>
    ⟨List.mem_cons_of_mem i (h.known j hj).1, (h.known j hj).2⟩
  settled := fun hSettled j hType hNlink => by
    have hOld := h.settled hSettled j hType hNlink
    refine ⟨?_, hOld.2⟩
    by_cases hj : j = i
    · subst hj
      simpa [View.get] using Int.lt_add_one_of_le hOld.1.le
    · simpa [View.get, hj] using hOld.1

theorem lock (hi : i ∈ held) (hFile : n'.file i = N i) :
    Partway n N held (i :: known) (n'.lock i) where
  nonneg := h.nonneg
  backed := h.backed
  ref := h.ref
  valid := fun j hValid => by
    by_cases hj : j = i
    · subst hj
      simp [View.lock]
    · simpa [View.lock, hj] using h.valid j hValid
  file := h.file
  known := fun j hj => by
    by_cases hji : j = i
    · subst hji
      exact ⟨hi, by simp [View.lock], hFile⟩
    · have hOld := h.known j ((List.mem_cons.mp hj).resolve_left hji)
      exact ⟨hOld.1, by simpa [View.lock, hji] using hOld.2.1, hOld.2.2⟩
  settled := fun hSettled j hType hNlink => by
    have hOld := h.settled hSettled j hType hNlink
    refine ⟨hOld.1, ?_⟩
    by_cases hj : j = i
    · subst hj
      simp [View.lock]
    · simpa [View.lock, hj] using hOld.2

/- Change a node that is known. -/
theorem setFile (hi : i ∈ known) (nd : Node) :
    Partway n (update N i nd) held known (n'.setFile i nd) where
  nonneg := h.nonneg
  backed := h.backed
  ref := h.ref
  valid := h.valid
  file := fun j => by
    by_cases hj : j = i
    · subst hj
      simp
    · simpa [hj] using h.file j
  known := fun j hj => by
    have hOld := h.known j hj
    refine ⟨hOld.1, hOld.2.1, ?_⟩
    by_cases hji : j = i
    · subst hji
      simp
    · simpa [hji] using hOld.2.2
  settled := fun hSettled j hType hNlink => by
    by_cases hj : j = i
    · subst hj
      have hKnown := h.known j hi
      exact ⟨h.ref_pos hKnown.1, hKnown.2.1⟩
    · rw [setFile_file, update_of_ne hj]
        at hType hNlink
      exact h.settled hSettled j hType hNlink

/- A free inode becomes a new one. -/
theorem born (hFree : (n'.file i).type = 0) (hNew : i ∉ known) {nd : Node} (hNlink : nd.nlink ≠ 0) :
    Partway n (update N i nd) (i :: held) (i :: known) (((n'.setFile i nd).get i).lock i) where
  nonneg := h.nonneg
  backed := h.backed
  ref := (h.get i).ref
  valid := fun j hValid => by
    by_cases hj : j = i
    · subst hj
      simp [View.lock]
    · simpa [View.lock, View.get, hj] using h.valid j hValid
  file := fun j => by
    by_cases hj : j = i
    · subst hj
      simp [View.lock, View.get]
    · simpa [View.lock, View.get, hj] using h.file j
  known := fun j hj => by
    by_cases hji : j = i
    · subst hji
      simp [View.lock, View.get]
    · have hOld := h.known j ((List.mem_cons.mp hj).resolve_left hji)
      simpa [View.lock, View.get, hji] using hOld
  settled := fun hSettled j hType hZero => by
    by_cases hj : j = i
    · subst hj
      simp only [View.lock, View.get, View.setFile_file, update_self] at hZero
      exact absurd hZero hNlink
    · simp only [View.lock, View.get, View.setFile_file, update_of_ne hj] at hType hZero
      simpa [View.lock, View.get, hj] using h.settled hSettled j hType hZero

/-
  Drop a reference. What stays known is still held by
  another reference of the call.
-/
theorem put (hHeld : held.Perm (i :: held')) (hKnown : ∀ j ∈ known', j ∈ known ∧ j ∈ held') :
    Partway n N held' known' (n'.put Node.nlink Node.free i) := by
  have hCount (j : Nat) : held.count j = held'.count j + if j = i then 1 else 0 := by
    rw [hHeld.count_eq]
    by_cases hj : j = i
    · simp [hj]
    · simp [hj, Ne.symm hj]
  have hRef := h.ref i
  rw [hCount i, if_pos rfl] at hRef
  have hNonneg := h.nonneg i
  -- an entry that is left was not in use before the call
  have hLeft (hOne : n'.ref i = 1) : n.ref i = 0 ∧ i ∉ held' := by
    have hZero : held'.count i = 0 := by omega
    exact ⟨by omega, List.count_eq_zero.mp hZero⟩
  have hKeep (j : Nat) (hValid : n'.valid j = true) (hUse : n.valid j = true ∨ j ∈ held') :
      (n'.put Node.nlink Node.free i).valid j = true := by
    rw [put_valid, if_neg]
    · exact hValid
    rintro ⟨hOne, rfl⟩
    rcases hUse with hUse | hUse
    · have := h.backed j hUse
      omega
    · exact (hLeft hOne).2 hUse
  refine
    { nonneg := h.nonneg
      backed := h.backed
      ref := fun j => ?_
      valid := fun j hj => hKeep j (h.valid j hj) (.inl hj)
      file := fun j => ?_
      known := fun j hj => ?_
      settled := fun hSettled j hType hZero => ?_ }
  · rw [put_ref]
    by_cases hj : j = i
    · subst hj
      rw [update_self]
      omega
    · rw [update_of_ne hj, h.ref j, hCount j, if_neg hj, Nat.add_zero]
  · rw [put_file]
    split
    · next hFree =>
        obtain ⟨rfl, hOne, _, hNlink⟩ := hFree
        refine .inr ⟨rfl, ?_, (hLeft hOne).1⟩
        rcases h.file j with hEq | hEq
        · rw [← hEq]
          exact hNlink
        · exact hEq.2.1
    · exact h.file j
  · obtain ⟨hOld, hHeld'⟩ := hKnown j hj
    refine ⟨hHeld', hKeep j (h.known j hOld).2.1 (.inr hHeld'), ?_⟩
    rw [put_file, if_neg]
    · exact (h.known j hOld).2.2
    · rintro ⟨rfl, hOne, _⟩
      exact (hLeft hOne).2 hHeld'
  · rw [put_file] at hType hZero
    split at hType
    · exact absurd rfl hType
    next hFree =>
      rw [if_neg hFree] at hZero
      have hOld := h.settled hSettled j hType hZero
      have hMore (hj : j = i) : n'.ref j ≠ 1 := fun hOne =>
        hFree ⟨hj, hj ▸ hOne, hj ▸ hOld.2, hj ▸ hZero⟩
      rw [put_ref, put_valid]
      by_cases hj : j = i
      · subst hj
        rw [update_self, if_neg (by tauto)]
        exact ⟨by omega, hOld.2⟩
      · rw [update_of_ne hj, if_neg (by tauto)]
        exact hOld

/- The intended node of an inode may be the actual one. -/
theorem observe {nd : Node} (hFile : n'.file i = nd) :
    Partway n (update N i nd) held known n' where
  nonneg := h.nonneg
  backed := h.backed
  ref := h.ref
  valid := h.valid
  file := fun j => by
    by_cases hj : j = i
    · subst hj
      exact .inl (by rw [hFile, update_self])
    · rw [update_of_ne hj]
      exact h.file j
  known := fun j hj => by
    have hOld := h.known j hj
    refine ⟨hOld.1, hOld.2.1, ?_⟩
    by_cases hji : j = i
    · subst hji
      rw [hFile, update_self]
    · rw [update_of_ne hji]
      exact hOld.2.2
  settled := h.settled

/- The last reference frees a known inode without links. -/
theorem put_free (hHeld : held.Perm (i :: held'))
    (hKnown : ∀ j ∈ known', j ∈ known ∧ j ∈ held') (hi : i ∈ known)
    (hZero : (N i).nlink = 0) (hRef : n.ref i = 0) (hOnce : i ∉ held') :
    Partway n (update N i Node.free) held' known' (n'.put Node.nlink Node.free i) := by
  apply (h.put hHeld hKnown).observe
  have hOne : n'.ref i = 1 := by
    rw [h.ref i, hHeld.count_eq, List.count_cons_self, List.count_eq_zero.mpr hOnce, hRef]
    rfl
  obtain ⟨_, hValid, hFile⟩ := h.known i hi
  rw [put_file, if_pos]
  exact ⟨rfl, hOne, hValid, by rw [hFile]; exact hZero⟩

end

/-
  Nothing is intended for an inode that is freed in the end
  and that had neither links nor references.
-/
theorem forgetFreed (h : Partway n (update N i Node.free) held known n')
    (hGone : N i = Node.free ∨ (N i).nlink = 0 ∧ n.ref i = 0) (hi : i ∉ known) :
    Partway n N held known n' where
  nonneg := h.nonneg
  backed := h.backed
  ref := h.ref
  valid := h.valid
  file := fun j => by
    have hOld := h.file j
    by_cases hj : j = i
    · subst hj
      rw [update_self] at hOld
      have hFree : n'.file j = Node.free := hOld.elim id And.left
      rcases hGone with hEq | hDead
      · exact .inl (hFree.trans hEq.symm)
      · exact .inr ⟨hFree, hDead⟩
    · rwa [update_of_ne hj] at hOld
  known := fun j hj => by
    have hOld := h.known j hj
    have hji : j ≠ i := by
      rintro rfl
      exact hi hj
    rwa [update_of_ne hji] at hOld
  settled := h.settled

/- The entries in use during a call. -/
theorem inUse_le (h : Partway n N held known n') (sb : Superblock) :
    n'.inUse sb ≤ n.inUse sb + held.length := by
  have hSub : (range sb.ninodes).filter (0 < n'.ref ·) ⊆
        (range sb.ninodes).filter (0 < n.ref ·) ∪
          held.toFinset := by
    intro j hj
    obtain ⟨hLt, hPos⟩ := mem_filter.mp hj
    rw [h.ref j] at hPos
    by_cases hMem : j ∈ held
    · exact mem_union_right _ (List.mem_toFinset.mpr hMem)
    · rw [List.count_eq_zero.mpr hMem] at hPos
      exact mem_union_left _ (mem_filter.mpr ⟨hLt, by simpa using hPos⟩)
  calc n'.inUse sb ≤ _ := card_le_card hSub
    _ ≤ _ := card_union_le _ _
    _ ≤ n.inUse sb + held.length := Nat.add_le_add_left (List.toFinset_card_le held) _

theorem le_inUse (h : Partway n N held known n') (sb : Superblock) : n.inUse sb ≤ n'.inUse sb := by
  apply card_le_card
  intro j hj
  obtain ⟨hLt, hPos⟩ := mem_filter.mp hj
  refine mem_filter.mpr ⟨hLt, ?_⟩
  rw [h.ref j]
  omega

end Partway

end Xv6
