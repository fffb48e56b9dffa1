import Xv6.Fs.SyscallSpec

/-
  The image that `mkfs` makes of no files, and the state
  after it has been mounted.

  The super block itself, which the kernel reads once, is
  not stored in the model of the image.

  Key definitions include:
    * `mkfs`
    * `mounted`

  Main result is:
    * `mkfs_shows`
-/

open Xv6.Superblock Xv6.Dinode

-------
-- Zero Blocks
-------

namespace Xv6

/- A disk of zero blocks. -/
def zeroDisk : Disk := fun _ => Bytes.zero

theorem dinode_zeroDisk (sb : Superblock) (i : Nat) : sb.dinode zeroDisk i = Dinode.zero := by
  unfold dinode zeroDisk
  simp [zero]

theorem bit_zeroDisk (sb : Superblock) (b : Nat) : sb.bit zeroDisk b = false := by
  unfold bit zeroDisk
  simp [Bytes.bit]

/- The state after a disk has been mounted. -/
def mounted (d : Disk) : Fs where
  disk := d
  itable := fun _ =>
    { ref := 0
      valid := false
      copy := Dinode.zero }
  used := 0

theorem mounted_ino (sb : Superblock) (d : Disk) {i : Nat} (hi : i < sb.ninodes) :
    (mounted d).ino sb i = sb.dinode d i :=
  Fs.ino_of_not_active hi (fun h => by cases h.2)

-------
-- The Image
-------

/- The block of a new root directory. -/
def rootBlock : Block :=
  Bytes.zero.splice 0 (Dirent.encode ⟨ROOTINO, dot⟩ ++ Dirent.encode ⟨ROOTINO, dotdot⟩)

/- The inode of a new root directory. -/
def rootInode (sb : Superblock) : Dinode :=
  { Dinode.zero with
    type := T_DIR
    nlink := 1
    -- the size is rounded up to whole blocks
    size := BitVec.ofNat 32 BSIZE
    addrs := fun j => if j = 0 then BitVec.ofNat 32 sb.dataStart else 0 }

/- `balloc` of `mkfs`: mark the first blocks as used. -/
def markUsed (sb : Superblock) (d : Disk) (used : Nat) : Disk :=
  (List.range used).foldl (fun d b => sb.setBit d b true) d

/- The image with an empty root directory. -/
def mkfs (sb : Superblock) : Disk :=
  markUsed sb (sb.putDinode (Function.update zeroDisk sb.dataStart rootBlock)
      ROOTINO (rootInode sb))
    (sb.dataStart + 1)

/- The root directory of the image. -/
def rootFile : File where
  type := T_DIR
  major := 0
  minor := 0
  nlink := 1
  size := BitVec.ofNat 32 BSIZE
  blocks := fun bn => if bn = 0 then some rootBlock else none

/- The root directory has `.` and `..` and no other entry. -/
def rootNode : Node where
  type := T_DIR
  nlink := 1
  ents := [some (dot, ROOTINO), some (dotdot, ROOTINO)] ++ List.replicate 62 none

theorem rootFile_node : rootFile.node = rootNode := Node.ext rfl rfl (by decide)

section Mark

variable {sb : Superblock}

theorem bit_markUsed (d : Disk) (used b : Nat) :
    sb.bit (markUsed sb d used) b = (decide (b < used) || sb.bit d b) := by
  unfold markUsed
  induction used with
  | zero => simp
  | succ used ih =>
    rw [List.range_succ, List.foldl_append, List.foldl_cons,
      List.foldl_nil, bit_setBit, ih]
    by_cases hb : b = used
    · simp [hb]
    · have hLt : b < used + 1 ↔ b < used := by omega
      simp [hb, hLt]

theorem dinode_markUsed (d : Disk) (used : Nat) {i : Nat} (hi : i < sb.ninodes) :
    sb.dinode (markUsed sb d used) i = sb.dinode d i := by
  unfold markUsed
  induction used with
  | zero => rfl
  | succ used ih =>
    rw [List.range_succ, List.foldl_append, List.foldl_cons,
      List.foldl_nil, dinode_setBit _ _ _ hi, ih]

theorem markUsed_of_inData (d : Disk) {used b : Nat} (hUsed : used ≤ sb.size) (hb : sb.InData b) :
    markUsed sb d used b = d b := by
  unfold markUsed
  induction used with
  | zero => rfl
  | succ used ih =>
    rw [List.range_succ, List.foldl_append, List.foldl_cons, List.foldl_nil,
      setBit_of_inData _ _ (by omega) hb,
      ih (by omega)]

end Mark

section Image

variable {sb : Superblock}

section

variable (hRoom : sb.dataStart < sb.size)
include hRoom

theorem inData_dataStart : sb.InData sb.dataStart :=
  ⟨Nat.le_refl _, hRoom⟩

theorem mkfs_dinode {i : Nat} (hi : i < sb.ninodes) :
    sb.dinode (mkfs sb) i =
      if i = ROOTINO then rootInode sb else Dinode.zero := by
  unfold mkfs
  rw [dinode_markUsed _ _ hi]
  by_cases hRoot : i = ROOTINO
  · rw [if_pos hRoot, hRoot, dinode_putDinode_self]
  · rw [if_neg hRoot, dinode_putDinode_ne _ _ hRoot,
      dinode_update _ _ (inData_dataStart hRoom) hi,
      dinode_zeroDisk]

theorem mkfs_bit {b : Nat} (hb : b < sb.size) :
    sb.bit (mkfs sb) b = decide (b < sb.dataStart + 1) := by
  unfold mkfs
  rw [bit_markUsed, bit_putDinode _ _ _ sb.hRoot,
    bit_update _ _ (inData_dataStart hRoom) hb,
    bit_zeroDisk, Bool.or_false]

theorem mkfs_rootBlock : mkfs sb sb.dataStart = rootBlock := by
  have hData := inData_dataStart hRoom
  unfold mkfs
  rw [markUsed_of_inData _ (by omega) hData, putDinode_of_inData _ _ sb.hRoot hData,
    Function.update_self]

end

/- The only block in use is that of the root directory. -/
theorem rootInode_own (d : Disk) (q : Nat) :
    (rootInode sb).own d q =
      if q = 0 then sb.dataStart else 0 := by
  have hType : (rootInode sb).type ≠ 0 := by simp [rootInode]
  have hSize := sb.hSize
  have hData := sb.hData
  by_cases hq : q < NADDR
  · rcases pos_cases hq with ⟨j, rfl⟩ | ⟨j, hj, rfl⟩
    · rw [own_direct hType]
      unfold rootInode
      dsimp only
      by_cases hj : j = 0
      · subst hj
        have hVal : (0 : Fin (NDIRECT + 1)).1 = 0 := rfl
        apply Nat.mod_eq_of_lt
        unfold dataStart
        omega
      · have hVal : j.1 ≠ 0 := fun h => hj (Fin.ext h)
        rw [if_neg hj, if_neg hVal]
        rfl
    · rw [own_entry hType hj, if_pos, if_neg]
      · omega
      · rfl
  · rw [own_of_le (Nat.le_of_not_lt hq), if_neg]
    rintro rfl
    exact hq (by decide)

theorem mkfs_own (hRoom : sb.dataStart < sb.size) (k : Nat × Nat) :
    ownOf ((mounted (mkfs sb)).ino sb) (mkfs sb) k =
      if k = (ROOTINO, 0) then sb.dataStart else 0 := by
  obtain ⟨i, q⟩ := k
  unfold ownOf
  by_cases hi : i < sb.ninodes
  · rw [mounted_ino sb _ hi, mkfs_dinode hRoom hi]
    by_cases hRoot : i = ROOTINO
    · rw [if_pos hRoot, rootInode_own]
      simp [hRoot]
    · rw [if_neg hRoot, own_of_free rfl, if_neg]
      rintro ⟨⟩
      exact hRoot rfl
  · rw [Fs.ino, if_neg hi, own_of_free rfl, if_neg]
    rintro ⟨⟩
    exact hi sb.hRoot

theorem mkfs_file (hRoom : sb.dataStart < sb.size) (i : Nat) :
    fileOf ((mounted (mkfs sb)).ino sb) (mkfs sb) i =
      if i = ROOTINO then rootFile else File.free := by
  unfold fileOf
  by_cases hi : i < sb.ninodes
  · rw [mounted_ino sb _ hi, mkfs_dinode hRoom hi]
    by_cases hRoot : i = ROOTINO
    · rw [if_pos hRoot, if_pos hRoot, file_of_type]
      · refine File.ext rfl rfl rfl rfl rfl ?_
        funext bn
        simp only [rootInode_own, rootFile]
        by_cases hbn : bn = 0
        · subst hbn
          rw [if_pos (by decide), if_pos (by decide),
            blockAt, if_neg (inData_dataStart hRoom).ne_zero,
            mkfs_rootBlock hRoom, if_pos rfl]
        have hPos : pos bn ≠ 0 := by
          unfold pos
          split
          · exact hbn
          · omega
        rw [if_neg hPos, if_neg hbn]
        exact ite_self none
      · simp [rootInode]
    · rw [if_neg hRoot, if_neg hRoot]
      exact file_of_free rfl
  · rw [Fs.ino, if_neg hi, if_neg]
    · exact file_of_free rfl
    · rintro rfl
      exact hi sb.hRoot

end Image

/- The name space of the image. -/
def mkfsNames : View Node where
  file := fun i => if i = ROOTINO then rootNode else Node.free
  ref := fun _ => 0
  valid := fun _ => false

/- The mounted image is consistent. -/
theorem mkfs_shows {sb : Superblock} (hRoom : sb.dataStart < sb.size) :
    Shows sb (mounted (mkfs sb)) mkfsNames := by
  have hFile := mkfs_file hRoom
  have hIn : (mounted (mkfs sb)).inUse sb = 0 := by
    unfold Fs.inUse mounted
    simp
  refine
    { inv :=
        { owns :=
            { zero := fun h => h.ne_zero rfl
              inArea := fun k hk => ?_
              distinct := fun k k' hk hEq => ?_
              exact := fun b hb => ?_ }
          metadata := fun b hb => ?_
          shaped := fun i _ => ?_
          synced := fun i _ h => ?_
          nonneg := fun i => Int.le_refl 0
          ranged := fun i h => ?_
          live := fun i h => ?_
          used := hIn.symm }
      dirs := fun i => ?_
      names := ?_ }
  · change ownOf _ (mkfs sb) k ≠ 0 at hk
    change sb.InData (ownOf _ (mkfs sb) k)
    rw [mkfs_own hRoom] at hk ⊢
    split at hk
    · next hKey =>
        rw [if_pos hKey]
        exact inData_dataStart hRoom
    · exact absurd rfl hk
  · change ownOf _ (mkfs sb) k ≠ 0 at hk
    change ownOf _ (mkfs sb) k = ownOf _ (mkfs sb) k' at hEq
    rw [mkfs_own hRoom] at hk
    rw [mkfs_own hRoom, mkfs_own hRoom] at hEq
    grind
  · change sb.bit (mkfs sb) b = true ↔ ∃ k, ownOf _ (mkfs sb) k = b
    rw [mkfs_bit hRoom hb.2, decide_eq_true_iff]
    simp only [mkfs_own hRoom]
    constructor
    · intro hLt
      refine ⟨(ROOTINO, 0), ?_⟩
      have := hb.1
      rw [if_pos rfl]
      omega
    · rintro ⟨k, hk⟩
      split at hk
      · omega
      · omega
  · change sb.bit (mkfs sb) b = true
    rw [mkfs_bit hRoom (by omega), decide_eq_true_iff]
    omega
  · change (fileOf _ (mkfs sb) i).Shaped
    rw [hFile]
    split
    · constructor
      · decide
      intro bn hbn
      have hZero : bn = 0 := by
        change bn * 1024 < 1024 at hbn
        omega
      rw [hZero]
      rfl
    · exact File.shaped_free
  · cases h
  · cases h
  · cases h
  · change (fileOf _ (mkfs sb) i).DirOk sb
    rw [hFile]
    split
    · constructor
      · exact fun _ => by decide
      intro name j hMem
      have hMem' : some (name, j) ∈ rootNode.ents := by
        exact hMem
      have hj : j = ROOTINO := by
        simp [rootNode] at hMem'
        grind
      rw [hj]
      exact sb.hRoot
    · exact File.DirOk.free sb
  · apply View.ext
    · funext i
      change (fileOf _ (mkfs sb) i).node = _
      rw [hFile]
      unfold mkfsNames
      dsimp only
      split
      · exact rootFile_node
      · exact File.node_free
    · rfl
    · rfl

-------
-- Mounting Again
-------

variable {sb : Superblock} {s : Fs} {n : View Node}

/- Copies in memory agree with the disk. -/
theorem Inv.mounted_ino (h : Inv sb none s) : (mounted s.disk).ino sb = s.ino sb := by
  funext i
  by_cases hi : i < sb.ninodes
  · rw [Xv6.mounted_ino sb s.disk hi]
    by_cases hActive : s.Active i
    · rw [Fs.ino_of_active hi hActive]
      exact h.synced i (by simp) hActive.1 hActive.2
    · rw [Fs.ino_of_not_active hi hActive]
  · simp [Fs.ino, hi]

/- The disk of a state, mounted again, has the same files. -/
theorem Shows.mount (h : Shows sb s n) :
    Shows sb (mounted s.disk)
      { file := n.file
        ref := fun _ => 0
        valid := fun _ => false } := by
  have hIno := h.inv.mounted_ino
  have hView : (mounted s.disk).view sb =
        { file := (s.view sb).file
          ref := fun _ => 0
          valid := fun _ => false } := by
    apply View.ext
    · change fileOf ((mounted s.disk).ino sb) s.disk = _
      rw [hIno]
      rfl
    · rfl
    · rfl
  refine
    { inv :=
        { owns := ?_
          metadata := h.inv.metadata
          shaped := ?_
          synced := fun i _ hRef => by cases hRef
          nonneg := fun i => Int.le_refl 0
          ranged := fun i hRef => by cases hRef
          live := fun i hRef => by cases hRef
          used := ?_ }
      dirs := ?_
      names := ?_ }
  · rw [hIno]
    exact h.inv.owns
  · rw [hIno]
    exact h.inv.shaped
  · simp [mounted, Fs.inUse]
  · rw [hView]
    exact h.dirs
  · unfold Fs.names
    rw [hView, ← h.names]
    rfl

end Xv6
