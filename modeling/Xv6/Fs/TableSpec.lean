import Xv6.Fs.ContentSpec

/-
  The inode table: references, validity, freeing and
  allocation of inodes.

  Main rules are:
    * `iget_rule`
    * `ilock_rule`
    * `iput_rule`
    * `ialloc_rule`
-/

open Prog (wp wp_bind wp_edit wp_ite wp_pure wp_read wp_stop)

open Function Xv6.Dinode Xv6.View

-------
-- Changing One Entry
-------

namespace Xv6

/- The number of files with references. -/
def View.inUse {φ : Type} (sb : Superblock) (v : View φ) : Nat :=
  ((Finset.range sb.ninodes).filter (fun i => 0 < v.ref i)).card

section InUse

variable {sb : Superblock} {s s' : Fs} {i : Nat}

variable {φ : Type}

/- The entries in use when that of `i` is taken or left. -/
theorem inUse_same {v v' : View φ} (h : ∀ j, 0 < v'.ref j ↔ 0 < v.ref j) :
    v'.inUse sb = v.inUse sb := by
  unfold inUse
  simp only [h]

theorem inUse_take (v v' : View φ) (hi : i < sb.ninodes) (hOld : ¬ 0 < v.ref i)
    (hNew : 0 < v'.ref i) (hOther : ∀ j, j ≠ i → v'.ref j = v.ref j) :
    v'.inUse sb = v.inUse sb + 1 := by
  have hInsert : (Finset.range sb.ninodes).filter (fun j => 0 < v'.ref j) =
        insert i ((Finset.range sb.ninodes).filter (fun j => 0 < v.ref j)) := by
    ext j
    by_cases hji : j = i
    · subst hji
      simp [hi, hNew]
    · simp [hji, hOther j hji]
  unfold inUse
  rw [hInsert]
  simp [hOld]

theorem inUse_leave (v v' : View φ) (hi : i < sb.ninodes) (hOld : 0 < v.ref i)
    (hNew : ¬ 0 < v'.ref i) (hOther : ∀ j, j ≠ i → v'.ref j = v.ref j) :
    v'.inUse sb = v.inUse sb - 1 := by
  have hTake := inUse_take v' v hi hNew hOld (fun j hj => (hOther j hj).symm)
  omega

end InUse

namespace At

variable {sb : Superblock} {s : Fs} {v : View File} {i : Nat} {dirty : Option Nat}

theorem used (h : At sb dirty s v) : s.used = v.inUse sb := by
  rw [h.inv.used, ← h.view]
  rfl

theorem nonneg (h : At sb dirty s v) (i : Nat) : 0 ≤ v.ref i := by
  rw [← h.ref]
  exact h.inv.nonneg i

theorem valid_eq (h : At sb dirty s v) (i : Nat) :
    v.valid i = (decide (0 < (s.itable i).ref) && (s.itable i).valid) := by
  rw [← h.view]
  rfl

/-
  A change of one table entry that leaves the current inode
  as it is.
-/
theorem setEntry (h : At sb none s v) (ip : Inode) (used : Nat) (hi : 0 < i ∧ i < sb.ninodes)
    (hIno : (if 0 < ip.ref ∧ ip.valid = true then ip.copy
        else sb.dinode s.disk i) = s.ino sb i)
    (hSync : 0 < ip.ref → ip.valid = true → sb.dinode s.disk i = ip.copy ∧ ip.copy.type ≠ 0)
    (hNonneg : 0 ≤ ip.ref) {v' : View File} (hFile : v'.file = v.file)
    (hRef : v'.ref = update v.ref i ip.ref)
    (hValid : v'.valid = update v.valid i (decide (0 < ip.ref) && ip.valid))
    (hUsed : used = v'.inUse sb) : At sb none { s.setInode i ip with used := used } v' := by
  have hIno' : Fs.ino sb { s.setInode i ip with used := used } = s.ino sb := by
    funext j
    by_cases hji : j = i
    · subst hji
      rw [← hIno, Fs.ino, if_pos hi.2]
      simp [Fs.copy]
    · unfold Fs.ino
      simp [Fs.copy, hji]
  have hRef' : (fun j => (update s.itable i ip j).ref) = v'.ref := by
    rw [hRef]
    funext j
    by_cases hji : j = i
    · subst hji
      rw [update_self, update_self]
    · rw [update_of_ne hji, update_of_ne hji, h.ref]
  constructor
  · exact
      { owns := by
          rw [hIno']
          exact h.inv.owns
        metadata := h.inv.metadata
        shaped := by
          rw [hIno']
          exact h.inv.shaped
        synced := fun j hj hPos hVal => by
          by_cases hji : j = i
          · subst hji
            simp only [Fs.setInode_itable, update_self] at hPos hVal
            simp only [Fs.copy, Fs.setInode_itable, update_self]
            exact (hSync hPos hVal).1
          · simp only [Fs.setInode_itable, update_of_ne hji] at hPos hVal
            simp only [Fs.copy, Fs.setInode_itable, update_of_ne hji]
            exact h.inv.synced j hj hPos hVal
        nonneg := fun j => by
          by_cases hji : j = i
          · subst hji
            simpa using hNonneg
          · simpa [hji] using h.inv.nonneg j
        ranged := fun j hPos => by
          by_cases hji : j = i
          · rwa [hji]
          · simp only [Fs.setInode_itable, update_of_ne hji] at hPos
            exact h.inv.ranged j hPos
        live := fun j hPos hVal => by
          by_cases hji : j = i
          · subst hji
            simp only [Fs.setInode_itable, update_self] at hPos hVal
            simp only [Fs.copy, Fs.setInode_itable, update_self]
            exact (hSync hPos hVal).2
          · simp only [Fs.setInode_itable, update_of_ne hji] at hPos hVal
            simp only [Fs.copy, Fs.setInode_itable, update_of_ne hji]
            exact h.inv.live j hPos hVal
        used := by
          rw [hUsed]
          unfold View.inUse Fs.inUse
          rw [← hRef']
          rfl }
  · apply View.ext
    · change fileOf (Fs.ino sb _) _ = _
      rw [hIno', hFile]
      exact h.file
    · exact hRef'
    · rw [hValid]
      funext j
      by_cases hji : j = i
      · subst hji
        simp [Fs.view]
      · simp [Fs.view, hji, h.valid_eq]

end At

-------
-- References
-------

section References

variable {sb : Superblock} {i : Nat} {s : Fs} {v : View File} {E : Halt → Fs → Prop}

namespace At

section

variable (h : At sb none s v)
include h

/- Another number of references to an entry in use. -/
theorem setRef (hRef : 0 < v.ref i) {r : Int} {used : Nat}
    {v' : View File} (hNonneg : 0 ≤ r) (hFile : v'.file = v.file)
    (hRefs : v'.ref = update v.ref i r) (hKeep : r ≠ 0 → v'.valid = v.valid)
    (hLast : r = 0 → v'.valid = update v.valid i false) (hUsed : used = v'.inUse sb) :
    At sb none
      { s.setInode i { s.itable i with ref := r } with
        used := used } v' := by
  have hPos : 0 < (s.itable i).ref := by rwa [h.ref]
  have hRange := h.inv.ranged i hPos
  refine h.setEntry { s.itable i with ref := r } used hRange ?_ ?_ hNonneg hFile hRefs ?_ hUsed
  · dsimp only
    by_cases hVal : (s.itable i).valid = true
    · rw [Fs.ino_of_active hRange.2 ⟨hPos, hVal⟩, h.inv.synced i (by simp) hPos hVal]
      exact ite_self _
    · rw [if_neg (fun hA => hVal hA.2), Fs.ino_of_not_active hRange.2 (fun hA => hVal hA.2)]
  · exact fun _ hVal => ⟨h.inv.synced i (by simp) hPos hVal, h.inv.live i hPos hVal⟩
  · have hOld := h.valid_eq i
    by_cases hZero : r = 0
    · rw [hLast hZero, hZero]
      rfl
    have hSome : decide (0 < r) = true := by
      simp only [decide_eq_true_eq]
      omega
    have hSome' : decide (0 < (s.itable i).ref) = true := by simpa using hPos
    rw [hSome'] at hOld
    rw [hKeep hZero, hSome, ← hOld, update_eq_self]

/- One more reference to an entry in use. -/
theorem addRef (hRef : 0 < v.ref i) :
    At sb none (s.setInode i
        { s.itable i with ref := (s.itable i).ref + 1 })
      (v.get i) := by
  have hPos : 0 < (s.itable i).ref := by rwa [h.ref]
  refine h.setRef hRef (by omega) rfl ?_ (fun _ => rfl) (by omega) ?_
  · rw [h.ref]
    rfl
  rw [h.used]
  symm
  apply inUse_same
  intro j
  by_cases hji : j = i
  · subst hji
    simp only [View.get, update_self]
    omega
  · simp [View.get, hji]

/- The first reference to an inode. -/
theorem firstRef (hi : 0 < i ∧ i < sb.ninodes) (hRef : v.ref i = 0) :
    At sb none
      { s.setInode i
          { s.itable i with ref := 1, valid := false } with
        used := s.used + 1 }
      (v.get i) := by
  have hZero : (s.itable i).ref = 0 := by rw [h.ref, hRef]
  refine h.setEntry
    { s.itable i with ref := 1, valid := false }
    (s.used + 1) hi ?_ (fun _ hVal => by cases hVal)
    (by simp) rfl ?_ ?_ ?_
  · rw [if_neg (fun hA => by cases hA.2), Fs.ino_of_not_active hi.2]
    rintro ⟨hPos, _⟩
    omega
  · simp [View.get, hRef]
  · have hOld := h.valid_eq i
    rw [hZero] at hOld
    rw [Bool.and_false]
    exact (update_eq_self_iff.mpr hOld.symm).symm
  · rw [h.used]
    symm
    apply inUse_take v _ hi.2
    · omega
    · simp [View.get, hRef]
    · intro j hji
      simp [View.get, hji]

/- Drop a reference. -/
theorem dropRef (hRef : 0 < v.ref i) :
    At sb none
      { s.setInode i
          { s.itable i with
            ref := (s.itable i).ref - 1 } with
        used :=
          if (s.itable i).ref = 1 then s.used - 1
          else s.used }
      (v.drop i) := by
  have hPos : 0 < (s.itable i).ref := by rwa [h.ref]
  have hi := (h.inv.ranged i hPos).2
  refine h.setRef hRef (by omega) rfl ?_ ?_ ?_ ?_
  · rw [h.ref]
    rfl
  · intro hMore
    rw [h.ref] at hMore
    exact if_neg (by omega)
  · intro hLast
    rw [h.ref] at hLast
    exact if_pos (by omega)
  · rw [h.used, h.ref]
    symm
    by_cases hOne : v.ref i = 1
    · rw [if_pos hOne]
      apply inUse_leave v _ hi hRef
      · simp [drop, hOne]
      · intro j hji
        simp [drop, hji]
    rw [if_neg hOne]
    apply inUse_same
    intro j
    by_cases hji : j = i
    · subst hji
      simp only [drop, update_self]
      omega
    · simp [drop, hji]

/- The entry is read from disk. -/
theorem load (hRef : 0 < v.ref i) (hValid : v.valid i = false) (hType : (v.file i).type ≠ 0) :
    At sb none (s.setInode i
        { s.itable i with
          valid := true
          copy := sb.dinode s.disk i })
      (v.lock i) := by
  have hPos : 0 < (s.itable i).ref := by rwa [h.ref]
  have hRange := h.inv.ranged i hPos
  have hi := hRange.2
  have hNot : ¬ s.Active i := by
    intro hActive
    rw [h.valid_of_active hActive] at hValid
    cases hValid
  have hIno : s.ino sb i = sb.dinode s.disk i := Fs.ino_of_not_active hi hNot
  have hDisk : (sb.dinode s.disk i).type ≠ 0 := by
    rw [← h.file, fileOf, file_type, hIno] at hType
    exact hType
  refine h.setEntry
    { s.itable i with
      valid := true
      copy := sb.dinode s.disk i }
    s.used hRange ?_ (fun _ _ => ⟨rfl, hDisk⟩)
    (h.inv.nonneg i) rfl ?_ ?_ h.used
  · rw [hIno]
    exact ite_self _
  · dsimp only
    rw [h.ref]
    exact (update_eq_self ..).symm
  · have hTrue : decide (0 < (s.itable i).ref) = true := by simpa using hPos
    rw [hTrue]
    rfl

end

end At

variable {Q : Unit → Fs → Prop}

theorem iget_rule {Q : Nat → Fs → Prop} (h : At sb none s v) (hi : 0 < i ∧ i < sb.ninodes)
    (hQ : ∀ s', 0 < v.ref i ∨ v.inUse sb < NINODE → At sb none s' (v.get i) → Q i s')
    (hE : v.ref i = 0 → NINODE ≤ v.inUse sb → E (.panic .igetNoInodes) s) :
    wp (iget i) Q E s := by
  have hNonneg := h.nonneg i
  unfold iget
  rw [wp_bind, wp_read, h.ref, wp_ite]
  constructor
  · intro hPos
    rw [wp_bind, wp_edit, wp_pure]
    exact hQ _ (.inl hPos) (h.addRef hPos)
  intro hPos
  have hZero : v.ref i = 0 := by omega
  rw [h.used, wp_ite]
  constructor
  · intro hLess
    rw [wp_bind, wp_edit, wp_pure]
    exact hQ _ (.inr hLess) (h.firstRef hi hZero)
  · intro hFull
    unfold panicWith
    rw [wp_stop]
    exact hE hZero (Nat.le_of_not_lt hFull)

theorem idup_rule {Q : Nat → Fs → Prop} (h : At sb none s v) (hRef : 0 < v.ref i)
    (hQ : ∀ s', At sb none s' (v.get i) → Q i s') : wp (idup i) Q E s := by
  unfold idup
  rw [wp_bind, wp_edit, wp_pure]
  exact hQ _ (h.addRef hRef)

/- A valid entry is not read again. -/
theorem View.lock_of_valid {φ : Type} {v : View φ} {i : Nat} (hValid : v.valid i = true) :
    v.lock i = v := by
  unfold lock
  rw [← hValid, update_eq_self]

theorem ilock_rule (h : At sb none s v) (hRef : 0 < v.ref i)
    (hQ : ∀ s', (v.file i).type ≠ 0 → At sb none s' (v.lock i) → Q () s')
    (hE : (v.file i).type = 0 → ∀ s', E (.panic .ilockNoType) s') : wp (ilock sb i) Q E s := by
  have hPos : ¬ (s.itable i).ref < 1 := by
    rw [h.ref]
    omega
  unfold ilock
  rw [wp_bind, wp_read, if_neg hPos]
  by_cases hVal : (s.itable i).valid = true
  · have hActive : s.Active i := by
      refine ⟨?_, hVal⟩
      omega
    have hValid := h.valid_of_active hActive
    rw [if_pos hVal, wp_pure]
    apply hQ s (h.type_ne_zero hValid)
    rw [lock_of_valid hValid]
    exact h
  have hNot : ¬ s.Active i := fun hA => hVal hA.2
  have hi : i < sb.ninodes := by
    apply And.right
    apply h.inv.ranged
    omega
  have hType : (sb.dinode s.disk i).type = (v.file i).type := by
    rw [← h.file, fileOf, file_type, Fs.ino_of_not_active hi hNot]
  have hValid : v.valid i = false := by
    rw [Bool.eq_false_iff]
    intro hTrue
    exact hNot (h.active hTrue)
  rw [if_neg hVal, wp_bind, wp_edit, hType, wp_ite]
  constructor
  · intro hZero
    unfold panicWith
    rw [wp_stop]
    exact hE hZero _
  · intro hNe
    rw [wp_pure]
    exact hQ _ hNe (h.load hRef hValid hNe)

theorem iunlock_rule {dirty : Option Nat} (h : At sb dirty s v)
    (hRef : 0 < v.ref i) (hQ : Q () s) : wp (iunlock i) Q E s := by
  unfold iunlock
  rw [wp_bind, wp_read, h.ref, if_neg (by omega), wp_pure]
  exact hQ

end References

-------
-- Freeing and Allocating Inodes
-------

/- A file that has just been allocated. -/
def File.fresh (type : BitVec 16) : File :=
  { File.free with type := type }

/-
  Drop a reference, and free the file if it was the last
  reference to a file without links.
-/
def View.put {φ : Type} (nlink : φ → BitVec 16) (free : φ) (v : View φ) (i : Nat) : View φ :=
  if v.ref i = 1 ∧ v.valid i = true ∧ nlink (v.file i) = 0
  then (v.setFile i free).drop i
  else v.drop i

section Inodes

variable {sb : Superblock} {i : Nat} {s : Fs} {v : View File} {E : Halt → Fs → Prop}

namespace At

/-
  An inode without blocks that is not in memory is replaced
  on disk by another one without blocks.
-/
theorem putInode (h : At sb none s v) (hi : 0 < i ∧ i < sb.ninodes) {di : Dinode} (s' : Fs)
    (hOld : ∀ q, ownOf (s.ino sb) s.disk (i, q) = 0)
    (hNew : ∀ d q, di.own d q = 0) (hShaped : ∀ d, (di.file d).Shaped)
    (hDisk : s'.disk = sb.putDinode s.disk i di) (hSelf : ¬ s'.Active i)
    (hNonneg : 0 ≤ (s'.itable i).ref) (hOther : ∀ j, j ≠ i → s'.itable j = s.itable j)
    (hUsed : s'.used = s'.inUse sb) :
    Inv sb none s' ∧ fileOf (s'.ino sb) s'.disk = update v.file i (di.file s'.disk) := by
  have hIno : s'.ino sb = update (s.ino sb) i di := by
    funext j
    by_cases hji : j = i
    · subst hji
      rw [update_self, Fs.ino_of_not_active hi.2 hSelf, hDisk, Superblock.dinode_putDinode_self]
    · rw [update_of_ne hji, Fs.ino, Fs.ino, Fs.copy, Fs.copy, hOther j hji, hDisk,
        Superblock.dinode_putDinode_ne _ _ hji]
  have hFrame (k : Nat × Nat) (hk : ownOf (s.ino sb) s.disk k ≠ 0) :
      s'.disk (ownOf (s.ino sb) s.disk k) = s.disk (ownOf (s.ino sb) s.disk k) := by
    rw [hDisk]
    exact Superblock.putDinode_of_inData _ _ hi.2 (h.inv.owns.inArea k hk)
  have hOwn (k : Nat × Nat) : ownOf (s'.ino sb) s'.disk k = ownOf (s.ino sb) s.disk k := by
    rw [hIno]
    by_cases hk : k.1 = i
    · have hZero := hOld k.2
      rw [← hk] at hZero
      rw [ownOf, hk, update_self, hNew]
      exact hZero.symm
    · rw [ownOf, update_of_ne hk]
      exact own_congr (hFrame (k.1, NDIRECT)) k.2
  have hFile : fileOf (s'.ino sb) s'.disk = update v.file i (di.file s'.disk) := by
    funext j
    rw [hIno]
    by_cases hji : j = i
    · subst hji
      rw [fileOf, update_self, update_self]
    · rw [fileOf, update_of_ne hji, update_of_ne hji, ← h.file]
      exact file_congr (fun q => hFrame (j, q))
  have hBit (b : Nat) : sb.bit s'.disk b = sb.bit s.disk b := by
    rw [hDisk]
    exact Superblock.bit_putDinode _ _ b hi.2
  refine ⟨?_, hFile⟩
  exact
    { owns := h.inv.owns.congr hOwn (fun b _ => hBit b)
      metadata := fun b hb => by
        rw [hBit]
        exact h.inv.metadata b hb
      shaped := fun j hj => by
        rw [hFile]
        by_cases hji : j = i
        · rw [hji, update_self]
          exact hShaped _
        · rw [update_of_ne hji, ← h.file]
          exact h.inv.shaped j hj
      synced := fun j hj hPos hVal => by
        have hji : j ≠ i := by
          rintro rfl
          exact hSelf ⟨hPos, hVal⟩
        rw [hOther j hji] at hPos hVal
        rw [hDisk, Superblock.dinode_putDinode_ne _ _ hji, Fs.copy, hOther j hji]
        exact h.inv.synced j hj hPos hVal
      nonneg := fun j => by
        by_cases hji : j = i
        · rwa [hji]
        · rw [hOther j hji]
          exact h.inv.nonneg j
      ranged := fun j hPos => by
        by_cases hji : j = i
        · rwa [hji]
        · rw [hOther j hji] at hPos
          exact h.inv.ranged j hPos
      live := fun j hPos hVal => by
        have hji : j ≠ i := by
          rintro rfl
          exact hSelf ⟨hPos, hVal⟩
        rw [hOther j hji] at hPos hVal
        rw [Fs.copy, hOther j hji]
        exact h.inv.live j hPos hVal
      used := hUsed }

/- A truncated inode has no blocks at all. -/
theorem own_of_truncated (h : At sb none s v) (hValid : v.valid i = true)
    (hNone : ∀ bn, (v.file i).blocks bn = none)
    (hInd : (s.copy i).addrs indirect = 0) (q : Nat) : ownOf (s.ino sb) s.disk (i, q) = 0 := by
  have hType := h.copy_type hValid
  rw [h.own_eq hValid]
  by_cases hq : q < NADDR
  · rcases pos_cases hq with ⟨p, rfl⟩ | ⟨j, hj, rfl⟩
    · by_cases hp : p = indirect
      · rw [hp, own_direct hType, hInd]
        rfl
      have hLt : p.1 < NDIRECT := by
        have hLe := Nat.le_of_lt_succ p.2
        apply Nat.lt_of_le_of_ne hLe
        intro hEq
        exact hp (Fin.ext hEq)
      have hPos : pos p.1 = p.1 := if_pos hLt
      have hBlock := h.blocks_eq hValid (Nat.lt_add_right NINDIRECT hLt)
      rw [hNone, hPos, h.own_eq hValid] at hBlock
      exact (blockAt_eq_none_iff _ _).mp hBlock.symm
    · rw [own_entry hType hj, if_pos hInd]
  · exact own_of_le (Nat.le_of_not_lt hq)

/- The inode is marked as free on disk and in the table. -/
theorem free (h : At sb none s v) (hValid : v.valid i = true) (hRef : v.ref i = 1)
    (hNone : ∀ bn, (v.file i).blocks bn = none) (hInd : (s.copy i).addrs indirect = 0) {s' : Fs}
    (hDisk : s'.disk = sb.putDinode s.disk i
          { s.copy i with type := 0 })
    (hSelf : (s'.itable i).ref = 0) (hOther : ∀ j, j ≠ i → s'.itable j = s.itable j)
    (hUsed : s'.used = s.used - 1) : At sb none s' ((v.setFile i File.free).drop i) := by
  have hi := h.lt_ninodes hValid
  have hRefs (j : Nat) : (s'.itable j).ref = update v.ref i 0 j := by
    by_cases hji : j = i
    · subst hji
      rw [hSelf, update_self]
    · rw [hOther j hji, update_of_ne hji, h.ref]
  have hIn : s'.used = s'.inUse sb := by
    have hLeave :=
      inUse_leave v (s'.view sb) hi (by omega) (by
          change ¬ 0 < (s'.itable i).ref
          omega)
        (fun j hji => by
          change (s'.itable j).ref = _
          rw [hRefs, update_of_ne hji])
    rw [hUsed, h.used]
    exact hLeave.symm
  have hPut :=
    h.putInode (h.inv.ranged i (h.active hValid).1) s' (h.own_of_truncated hValid hNone hInd)
      (fun _ _ => Dinode.own_of_free rfl _)
      (fun d => by
        rw [Dinode.file_of_free rfl]
        exact File.shaped_free)
      hDisk
      (fun hA => by
        have hPos := hA.1
        omega)
      (by omega) hOther hIn
  refine ⟨hPut.1, ?_⟩
  apply View.ext
  · exact hPut.2
  · funext j
    change (s'.itable j).ref = _
    rw [hRefs]
    simp [View.drop, hRef]
  · funext j
    change (decide (0 < (s'.itable j).ref) && (s'.itable j).valid) = _
    have hOld := congrFun (congrArg View.valid h.view) j
    change (decide (0 < (s.itable j).ref) && (s.itable j).valid) = v.valid j at hOld
    by_cases hji : j = i
    · subst hji
      simp [hSelf, View.drop, hRef]
    · rw [hOther j hji, hOld]
      simp [View.drop, hRef, hji]

end At

variable {Q : Unit → Fs → Prop}

/- The freeing branch of `iput`. -/
theorem ifree_idrop_rule (h : At sb none s v) (hValid : v.valid i = true)
    (hRef : v.ref i = 1) (hQ : ∀ s', At sb none s' ((v.setFile i File.free).drop i) → Q () s') :
    wp (do ifree sb i; idrop i) Q E s := by
  unfold ifree
  rw [wp_bind, wp_bind]
  apply itrunc_rule h hValid
  intro s₁ h₁ hInd
  have hRef₁ : (s₁.itable i).ref = 1 := by
    rw [h₁.ref]
    exact hRef
  simp only [wp_bind, wp_edit, iupdate, idrop]
  apply hQ
  have hView : ((v.setFile i (v.file i).truncated).setFile i File.free).drop i =
        (v.setFile i File.free).drop i := by
    rw [setFile_setFile]
  rw [← hView]
  apply h₁.free hValid hRef
  · intro bn
    rw [setFile_file, update_self]
    rfl
  · exact hInd
  · change sb.putDinode s₁.disk i (Fs.copy (Fs.setCopy s₁ i _) i) = _
    rw [Fs.setCopy_copy]
  · simp [Fs.setCopy, hRef₁]
  · intro j hji
    simp [Fs.setCopy, hji]
  · simp [Fs.setCopy, Fs.setInode, hRef₁]

theorem iput_rule (h : At sb none s v) (hRef : 0 < v.ref i)
    (hQ : ∀ s', At sb none s' (v.put File.nlink File.free i) → Q () s') :
    wp (iput sb i) Q E s := by
  unfold iput
  rw [wp_bind, wp_read, wp_ite]
  have hIff : ((s.itable i).ref = 1 ∧ (s.itable i).valid = true ∧ (s.copy i).nlink = 0) ↔
      (v.ref i = 1 ∧ v.valid i = true ∧ (v.file i).nlink = 0) := by
    constructor
    · rintro ⟨hOne, hVal, hLink⟩
      have hValid := h.valid_of_active ⟨by omega, hVal⟩
      rw [h.nlink_eq hValid, ← h.ref]
      exact ⟨hOne, hValid, hLink⟩
    · rintro ⟨hOne, hValid, hLink⟩
      rw [h.nlink_eq hValid, ← h.ref] at *
      exact ⟨hOne, (h.active hValid).2, hLink⟩
  constructor
  · intro hc
    have hc' := hIff.mp hc
    apply ifree_idrop_rule h hc'.2.1 hc'.1
    intro s' h'
    apply hQ
    rw [put, if_pos hc']
    exact h'
  · intro hc
    unfold idrop
    rw [wp_edit]
    apply hQ
    rw [put, if_neg (fun hc' => hc (hIff.mpr hc'))]
    exact h.dropRef hRef

/- On disk an inode is free exactly when its file is. -/
theorem At.dinode_type (h : At sb none s v) (hi : i < sb.ninodes) :
    (sb.dinode s.disk i).type = (v.file i).type := by
  rw [← h.file, fileOf, file_type]
  by_cases hActive : s.Active i
  · rw [Fs.ino_of_active hi hActive, h.inv.synced i (by simp) hActive.1 hActive.2]
  · rw [Fs.ino_of_not_active hi hActive]

/- A free inode is marked as allocated on disk. -/
theorem At.fresh (h : At sb none s v) (hi : 0 < i ∧ i < sb.ninodes)
    (hFree : (v.file i).type = 0) {type : BitVec 16} (hType : type ≠ 0) :
    At sb none
      { s with
        disk :=
          (sb.putDinode s.disk i
            { Dinode.zero with type := type }) }
      (v.setFile i (File.fresh type)) := by
  have hNot : ¬ s.Active i := by
    intro hActive
    exact h.type_ne_zero (h.valid_of_active hActive) hFree
  have hZero : (s.ino sb i).type = 0 := by
    rw [← h.file, fileOf, Dinode.file_type] at hFree
    exact hFree
  have hOwn (d : Disk) (q : Nat) : Dinode.own { Dinode.zero with type := type } d q =
        0 := by
    by_cases hq : q < NADDR
    · rcases Dinode.pos_cases hq with
        ⟨p, rfl⟩ | ⟨j, hj, rfl⟩
      · rw [Dinode.own_direct hType]
        rfl
      · rw [Dinode.own_entry hType hj]
        exact if_pos rfl
    · exact Dinode.own_of_le (Nat.le_of_not_lt hq)
  have hFile (d : Disk) : Dinode.file { Dinode.zero with type := type } d = File.fresh type := by
    rw [Dinode.file_of_type hType]
    refine File.ext rfl rfl rfl rfl rfl ?_
    funext bn
    dsimp only
    rw [hOwn]
    exact ite_self none
  have hPut :=
    h.putInode hi
      { s with
        disk :=
          (sb.putDinode s.disk i
            { Dinode.zero with type := type }) }
      (fun q => Dinode.own_of_free hZero q) hOwn
      (fun d => by
        rw [hFile]
        exact File.shaped_free)
      rfl hNot (h.inv.nonneg i) (fun _ _ => rfl) h.inv.used
  refine ⟨hPut.1, ?_⟩
  apply View.ext
  · have hEq := hPut.2
    rw [hFile] at hEq
    exact hEq
  · have hRef := congrArg View.ref h.view
    exact hRef
  · have hValid := congrArg View.valid h.view
    exact hValid

/- Allocation takes the first free inode. -/
theorem ialloc_rule {Q : Option Nat → Fs → Prop} {type : BitVec 16} (h : At sb none s v)
    (hType : type ≠ 0) (hNone : (∀ j, 1 ≤ j → j < sb.ninodes → (v.file j).type ≠ 0) → Q none s)
    (hSome : ∀ i s', 1 ≤ i → i < sb.ninodes → (v.file i).type = 0 →
        (∀ j, 1 ≤ j → j < i → (v.file j).type ≠ 0) →
        0 < v.ref i ∨ v.inUse sb < NINODE →
        At sb none s' ((v.setFile i (File.fresh type)).get i) →
        Q (some i) s')
    (hE : NINODE ≤ v.inUse sb → ∀ s', E (.panic .igetNoInodes) s') :
    wp (ialloc sb type) Q E s := by
  unfold ialloc
  rw [wp_bind, wp_read]
  cases hFind : (List.range' 1 (sb.ninodes - 1)).find?
        (fun i => (sb.dinode s.disk i).type == 0) with
  | none =>
    rw [wp_pure]
    apply hNone
    intro j hj hLt
    have hAll := List.find?_eq_none.mp hFind j (List.mem_range'_1.mpr (by omega))
    rw [← h.dinode_type hLt]
    simpa using hAll
  | some i =>
    rcases List.find?_range'_eq_some.mp hFind with
      ⟨hIs, hIn, hBefore⟩
    have hMem := List.mem_range'_1.mp hIn
    have hi : i < sb.ninodes := by omega
    have hFree : (v.file i).type = 0 := by
      rw [← h.dinode_type hi]
      simpa using hIs
    have hFirst (j : Nat) (hj : 1 ≤ j) (hji : j < i) : (v.file j).type ≠ 0 := by
      have hNot := hBefore j hj hji
      rw [← h.dinode_type (by omega)]
      simpa using hNot
    rw [wp_bind, wp_edit, wp_bind]
    apply iget_rule (h.fresh ⟨hMem.1, hi⟩ hFree hType) ⟨hMem.1, hi⟩
    · intro s' hLess h'
      rw [wp_pure]
      exact hSome i s' hMem.1 hi hFree hFirst hLess h'
    · intro _ hFull
      exact hE hFull _

end Inodes

end Xv6
