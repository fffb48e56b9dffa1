import Xv6.Fs.Image

/-
  Every block has one owner, whatever the operations do.

  A state is consistent if the invariant of the inode layer
  holds, directories are well-formed and references are to
  allocated inodes. Reading, writing, truncating and putting
  inodes keep the invariant of the inode layer; `create`,
  `sys_link` and `sys_unlink` keep states consistent.

  Key definitions include:
    * `BlocksOwned`
    * `Consistent`

  The main result is `every_block_has_one_owner`.
-/

open Function

open Prog (wp)

-------
-- Ownership of Blocks
-------

namespace Xv6

variable {sb : Superblock} {s : Fs}

/-
  The blocks of allocated inodes are distinct, lie in the
  data area and are the ones marked there; files have no
  holes and are not too large.
-/
structure BlocksOwned (sb : Superblock) (s : Fs) : Prop where
  owns : Owns (ownOf (s.ino sb) s.disk) sb.InData (sb.bit s.disk)
  shaped : ∀ i, (fileOf (s.ino sb) s.disk i).Shaped

/- What every system call finds and leaves. -/
structure Consistent (sb : Superblock) (s : Fs) : Prop where
  inv : Inv sb none s
  dirs : ∀ i, ((s.view sb).file i).DirOk sb
  sound : (s.names sb).Sound

theorem Inv.blocksOwned (h : Inv sb none s) :
    BlocksOwned sb s where
  owns := h.owns
  shaped := fun i => h.shaped i (by simp)

theorem Consistent.shows (h : Consistent sb s) : Shows sb s (s.names sb) := ⟨h.inv, h.dirs, rfl⟩

theorem Shows.consistent {n : View Node} (h : Shows sb s n) (hSound : n.Sound) :
    Consistent sb s := by
  refine ⟨h.inv, h.dirs, ?_⟩
  rw [h.names]
  exact hSound

-------
-- References at the End of a Call
-------

/- The types after each of the changes of the nodes. -/
theorem created_type (N : Nat → Node) (dp ip : Nat) (name : Name) (type : BitVec 16) (i : Nat) :
    (created N dp ip name type i).type =
      if i = dp then (N dp).type
      else if i = ip then type
      else (N i).type := by
  unfold created
  by_cases hdp : i = dp
  · subst hdp
    rw [update_self, if_pos rfl]
    rfl
  rw [update_of_ne hdp, if_neg hdp]
  by_cases hip : i = ip
  · subst hip
    rw [update_self, if_pos rfl]
    rfl
  · rw [update_of_ne hip, if_neg hip]

theorem linked_type (N : Nat → Node) (dp ip : Nat) (name : Name) (i : Nat) :
    (linked N dp ip name i).type = (N i).type := by
  unfold linked
  by_cases hdp : i = dp
  · subst hdp
    rw [update_self]
    rfl
  rw [update_of_ne hdp]
  by_cases hip : i = ip
  · subst hip
    rw [update_self]
    rfl
  · rw [update_of_ne hip]

theorem unlinked_type (N : Nat → Node) (dp ip m i : Nat) :
    (unlinked N dp ip m i).type = (N i).type := by
  unfold unlinked
  by_cases hip : i = ip
  · subst hip
    rw [update_self]
    rfl
  rw [update_of_ne hip]
  by_cases hdp : i = dp
  · subst hdp
    rw [update_self]
    rfl
  · rw [update_of_ne hdp]

/- What is still referred to has not been freed. -/
theorem Partway.sound {n n' : View Node} {N : Nat → Node} {held known : List Nat}
    (h : Partway n N held known n') (hHeld : held ⊆ known)
    (hType : ∀ i, i ∈ held ∨ 0 < n.ref i → (N i).type ≠ 0) : n'.Sound := by
  intro i hRef
  by_cases hi : i ∈ held
  · rw [(h.known i (hHeld hi)).2.2]
    exact hType i (.inl hi)
  have hOld : 0 < n.ref i := by
    rw [h.ref, List.count_eq_zero_of_not_mem hi] at hRef
    simpa using hRef
  rcases h.file i with hFile | ⟨_, _, hZero⟩
  · rw [hFile]
    exact hType i (.inr hOld)
  · omega

section Ends

variable {sb : Superblock} {n : View Node} {N : Nat → Node} {held known : List Nat} {s : Fs}

theorem During.consistent (h : During sb n N held known s) (hHeld : held ⊆ known)
    (hType : ∀ i, i ∈ held ∨ 0 < n.ref i → (N i).type ≠ 0) : Consistent sb s := by
  obtain ⟨n', hShows, hPart⟩ := h.finish
  exact hShows.consistent (hPart.sound hHeld hType)

/- A call that has made no new inode. -/
theorem During.consistent_of_types
    (h : During sb n N held known s) (hHeld : held ⊆ known) (hSound : n.Sound)
    (hTypes : ∀ i, (N i).type = (n.file i).type) : Consistent sb s := by
  refine h.consistent hHeld ?_
  rintro i (hi | hRef)
  · exact h.type_ne_zero (hHeld hi)
  · rw [hTypes]
    exact hSound i hRef

end Ends

-------
-- Every Block has One Owner
-------

/- The panics that tell of a broken block map. -/
def NoBlockPanic (e : Halt) (_ : Fs) : Prop :=
  e ≠ .panic .freeingFreeBlock ∧ e ≠ .panic .bmapOutOfRange

section Operations

variable {sb : Superblock} {s : Fs} {i : Nat} {E : Halt → Fs → Prop}

section

variable (h : Inv sb none s)
include h

theorem Inv.at : At sb none s (s.view sb) := ⟨h, rfl⟩

theorem Inv.valid_of_active (hActive : s.Active i) : (s.view sb).valid i = true :=
  h.at.valid_of_active hActive

theorem writei_keeps (hActive : s.Active i) (src : Nat → UInt8)
    (copyin : Nat → Option Nat) (off n : BitVec 32) :
    wp (writei sb i src copyin off n) (fun _ s' => Inv sb none s') E s := by
  apply writei_rule h.at (h.valid_of_active hActive)
  · intro _
    exact h
  · intro s' f' last _ _ hAt _ _ _
    exact hAt.inv

theorem itrunc_keeps (hActive : s.Active i) :
    wp (itrunc sb i) (fun _ s' => Inv sb none s') E s :=
  itrunc_rule h.at (h.valid_of_active hActive) (fun _ hAt _ => hAt.inv)

theorem iput_keeps (hRef : 0 < (s.itable i).ref) :
    wp (iput sb i) (fun _ s' => Inv sb none s') E s :=
  iput_rule h.at hRef (fun _ hAt => hAt.inv)

theorem readi_keeps (hActive : s.Active i) (copyout : Nat → Bool)
    (off n : BitVec 32) : wp (readi sb i copyout off n) (fun _ s' => s' = s) E s := by
  apply readi_rule h.at (h.valid_of_active hActive)
  · intro _
    rfl
  · intro _
    rfl
  · intro _ _ _
    rfl

end

variable {cwd : Nat}

section

variable (h : Consistent sb s) (hCwd : 0 < (s.itable cwd).ref)
include h hCwd

theorem create_keeps (path : Path) {type : BitVec 16} (hType : type ≠ 0) (major minor : BitVec 16) :
    wp (create sb cwd path type major minor)
      (fun _ s' => Consistent sb s') NoBlockPanic s := by
  apply create_call h.shows h.sound hCwd hType
  · intro s' hDuring _
    exact hDuring.consistent_of_types (by simp) h.sound (fun _ => rfl)
  · intro dp ip m name s' _ _ _ _ hDuring
    exact hDuring.consistent_of_types (fun _ => id) h.sound (fun _ => rfl)
  · intro dp ip name s' hPath _ _ _ _ _ _ _ hDuring
    have hDir := findPath_parent_dir hPath
    refine hDuring.consistent (fun _ => id) ?_
    intro i hi
    rw [created_type]
    split
    · rw [hDir]
      decide
    split
    · exact hType
    · next hdp hip =>
        rcases hi with hi | hRef
        · simp [hip] at hi
        · exact h.sound i hRef
  · intro _ _ _ _
    exact ⟨by simp, by simp⟩
  · intro _ _
    exact ⟨by simp, by simp⟩

theorem sysLink_keeps (old new : Path) :
    wp (sysLink sb cwd old new) (fun _ s' => Consistent sb s') NoBlockPanic s := by
  apply sysLink_call h.shows hCwd
  · intro s' hDuring _
    exact hDuring.consistent_of_types (by simp) h.sound (fun _ => rfl)
  · intro dp ip name last s' _ _ _ _ _ hDuring
    exact hDuring.consistent_of_types (by simp) h.sound (linked_type _ _ _ _)
  · intro _ _ _ _
    exact ⟨by simp, by simp⟩
  · intro _ _
    exact ⟨by simp, by simp⟩

theorem sysUnlink_keeps (path : Path) :
    wp (sysUnlink sb cwd path) (fun _ s' => Consistent sb s') NoBlockPanic s := by
  apply sysUnlink_call h.shows hCwd
  · intro s' hDuring _
    exact hDuring.consistent_of_types (by simp) h.sound (fun _ => rfl)
  · intro dp ip m name s' _ _ _ _ _ _ _ hDuring
    exact hDuring.consistent_of_types (by simp) h.sound (unlinked_type _ _ _ _)
  · intro _ _ _ _ _ _ _ _
    exact ⟨by simp, by simp⟩
  · intro _ _ _ _ _ _ _ _ _ _ _
    exact ⟨by simp, by simp⟩
  · intro _ _ _ _
    exact ⟨by simp, by simp⟩
  · intro _ _
    exact ⟨by simp, by simp⟩

end

end Operations

/-
  From a state that satisfies the invariant, the operations
  on inodes lead to such a state and do not panic, and
  reading changes nothing. If the state is consistent, so is
  the one after each change of the name space, and the block
  map never panics.
-/
theorem every_block_has_one_owner
    {sb : Superblock}
    {s : Fs}
    (h : Inv sb none s) :
    BlocksOwned sb s ∧
    (∀ i, s.Active i →
        (∀ src copyin off n, wp (writei sb i src copyin off n)
          (fun _ s' => Inv sb none s') (fun _ _ => False) s) ∧
      wp (itrunc sb i) (fun _ s' => Inv sb none s')
        (fun _ _ => False) s ∧
      (∀ copyout off n, wp (readi sb i copyout off n)
          (fun _ s' => s' = s) (fun _ _ => False) s)) ∧
    (∀ i, 0 < (s.itable i).ref → wp (iput sb i)
        (fun _ s' => Inv sb none s') (fun _ _ => False) s) ∧
    (Consistent sb s → ∀ cwd, 0 < (s.itable cwd).ref →
        (∀ path type major minor, type ≠ 0 →
          wp (create sb cwd path type major minor)
            (fun _ s' => Consistent sb s') NoBlockPanic s) ∧
        (∀ old new, wp (sysLink sb cwd old new)
            (fun _ s' => Consistent sb s') NoBlockPanic s) ∧
        (∀ path, wp (sysUnlink sb cwd path)
            (fun _ s' => Consistent sb s')
            NoBlockPanic s)) := by
  refine ⟨h.blocksOwned, ?_, ?_, ?_⟩
  · intro i hActive
    exact ⟨writei_keeps h hActive, itrunc_keeps h hActive, readi_keeps h hActive⟩
  · intro i hRef
    exact iput_keeps h hRef
  · intro hOk cwd hCwd
    refine ⟨?_, sysLink_keeps hOk hCwd, sysUnlink_keeps hOk hCwd⟩
    intro path type major minor hType
    exact create_keeps hOk hCwd path hType major minor

-------
-- The First Process
-------

/-
  The state after `userinit` on the image of `mkfs`: the
  current directory of the first process is the root.
-/
def booted (sb : Superblock) : Fs :=
  { (mounted (mkfs sb)).setInode ROOTINO
      { (mounted (mkfs sb)).itable ROOTINO with
        ref := 1
        valid := false }
    with used := (mounted (mkfs sb)).used + 1 }

/- Its name space. -/
def bootNames : View Node := mkfsNames.get ROOTINO

theorem booted_shows (hRoom : sb.dataStart < sb.size) : Shows sb (booted sb) bootNames := by
  obtain ⟨v, hAt, hDirs, hNames⟩ := (mkfs_shows hRoom).exists_at
  have hRef : v.ref ROOTINO = 0 := (congrFun (congrArg View.ref hNames) ROOTINO).symm
  have hBoot := hAt.firstRef ⟨by decide, sb.hRoot⟩ hRef
  have hShows := Shows.of_at hBoot hDirs
  rw [View.map_get, ← hNames] at hShows
  exact hShows

/- The root directory after a start. -/
theorem booted_root (hRoom : sb.dataStart < sb.size) :
    ∃ v, At sb none (booted sb) v ∧ (∀ i, (v.file i).DirOk sb) ∧ 0 < v.ref ROOTINO ∧
      v.valid ROOTINO = false ∧ (v.file ROOTINO).node = rootNode := by
  obtain ⟨v, hAt, hDirs, hNames⟩ := (booted_shows hRoom).exists_at
  have hRef : v.ref ROOTINO = 1 := (congrFun (congrArg View.ref hNames) ROOTINO).symm
  exact ⟨v, hAt, hDirs, by omega, (congrFun (congrArg View.valid hNames) ROOTINO).symm,
    (congrFun (congrArg View.file hNames) ROOTINO).symm⟩

theorem bootNames_sound : bootNames.Sound := by
  intro i hRef
  have hi : i = ROOTINO := by
    by_contra hi
    simp [bootNames, View.get, hi, mkfsNames] at hRef
  rw [hi]
  decide

theorem booted_consistent (hRoom : sb.dataStart < sb.size) : Consistent sb (booted sb) :=
  (booted_shows hRoom).consistent bootNames_sound

/- A disk of 60 blocks, for concrete runs. -/
def smallSb : Superblock where
  size := 60
  ninodes := 15
  nlog := 1
  logstart := 2
  inodestart := 3
  bmapstart := 4
  hLog := by decide
  hInodes := by decide
  hBitmap := by decide
  hData := by decide
  hSize := by decide
  hInums := by decide
  hRoot := by decide

/- The first directory on such a disk. -/
theorem block_owner_after_mkdir :
    wp (create smallSb ROOTINO [97] T_DIR 0 0) (fun _ s' => Consistent smallSb s') NoBlockPanic
      (booted smallSb) := by
  have hOk : Consistent smallSb (booted smallSb) := booted_consistent (by decide)
  exact ((every_block_has_one_owner hOk.inv).2.2.2 hOk
    ROOTINO (by decide)).1 [97] T_DIR 0 0 (by decide)

/- Ownership does not depend on bits of other blocks. -/
theorem BlocksOwned.setBit {s : Fs} (h : BlocksOwned sb s) {b : Nat} (hb : b < sb.dataStart)
    (v : Bool) :
    BlocksOwned sb
      { s with disk := sb.setBit s.disk b v } := by
  have hSize : b < sb.size := Nat.lt_of_lt_of_le hb sb.hData
  have hIno : Fs.ino sb { s with disk := sb.setBit s.disk b v } = s.ino sb := by
    funext i
    unfold Fs.ino
    split
    · next hi =>
        rw [Superblock.dinode_setBit _ _ _ hi]
        rfl
    · rfl
  have hSame (k : Nat × Nat) (hk : ownOf (s.ino sb) s.disk k ≠ 0) :
      sb.setBit s.disk b v (ownOf (s.ino sb) s.disk k) = s.disk (ownOf (s.ino sb) s.disk k) :=
    Superblock.setBit_of_inData _ _ hSize (h.owns.inArea k hk)
  constructor
  · refine h.owns.congr ?_ ?_
    · intro k
      rw [hIno]
      exact Dinode.own_congr (hSame (k.1, NDIRECT)) k.2
    · intro c hc
      have hLow := hc.1
      rw [Superblock.bit_setBit, if_neg (by omega)]
  · intro i
    rw [hIno]
    have hFile : fileOf (s.ino sb) (sb.setBit s.disk b v) i = fileOf (s.ino sb) s.disk i :=
      Dinode.file_congr (fun p => hSame (i, p))
    rw [hFile]
    exact h.shaped i

/- The super block is not marked in the bitmap. -/
def unmarked : Fs :=
  { booted smallSb with
    disk := smallSb.setBit (mkfs smallSb) 1 false }

/- `mkdir` then takes the super block for the directory. -/
theorem unmarked_super_block_is_taken :
    BlocksOwned smallSb unmarked ∧ 0 < (unmarked.itable ROOTINO).ref ∧ ∃ ip s',
        create smallSb ROOTINO [97] T_DIR 0 0 unmarked = (.ok (some ip), s') ∧
          ¬ BlocksOwned smallSb s' := by
  have hRun : (create smallSb ROOTINO [97] T_DIR 0 0 unmarked).1.toOption = some (some 2) ∧
        ownOf ((create smallSb ROOTINO [97] T_DIR 0 0 unmarked).2.ino smallSb)
            (create smallSb ROOTINO [97] T_DIR 0 0 unmarked).2.disk (2, 0) = 1 := by
    decide +kernel
  refine ⟨?_, by decide, 2, _, Prog.eq_ok hRun.1, ?_⟩
  · exact (booted_consistent (by decide)).inv.blocksOwned.setBit (by decide) false
  intro h
  have hIn := h.owns.inArea (2, 0) (by
    rw [hRun.2]
    decide)
  rw [hRun.2] at hIn
  exact absurd hIn (by decide)

end Xv6
