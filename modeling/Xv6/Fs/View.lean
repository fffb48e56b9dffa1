import Xv6.Fs.Inode
import Xv6.Lib.Ownership

/-
  What the blocks and the inode table say about files.

  The current inode is the copy in memory while the table
  holds a valid one, and the inode on disk otherwise. A file
  is then its type, link count, size and mapped blocks; where
  the blocks lie on the disk is hidden.

  `Inv` is the invariant of the inode layer. Inside a
  function that changes an inode in memory and has not yet
  written it back, that inode is excepted from it.

  Key definitions include:
    * `Fs.ino`
    * `ownOf`
    * `fileOf`
    * `View`
    * `Inv`
    * `At`
-/

open Function

-------
-- Block Addresses
-------

namespace Xv6

/-
  The addresses that belong to an inode: those in `addrs`,
  then the entries of its indirect block.
-/
abbrev NADDR : Nat := NDIRECT + 1 + NINDIRECT

/- The address at position `p` of an inode; 0 if none. -/
def Dinode.addr (di : Dinode) (d : Disk) (p : Nat) : Nat :=
  if h : p < NDIRECT + 1 then (di.addrs ⟨p, h⟩).toNat
  else if di.addrs indirect = 0 then 0
  else
    addrAt (d (di.addrs indirect).toNat) (p - (NDIRECT + 1))

/- The addresses of an inode, if it is allocated. -/
def Dinode.own (di : Dinode) (d : Disk) (p : Nat) : Nat :=
  if di.type ≠ 0 ∧ p < NADDR then di.addr d p else 0

/- The addresses of all allocated inodes. -/
def ownOf (ino : Nat → Dinode) (d : Disk) (k : Nat × Nat) : Nat := (ino k.1).own d k.2

/- The position of the address of the `bn`th block. -/
def pos (bn : Nat) : Nat := if bn < NDIRECT then bn else bn + 1

theorem pos_inj {bn bn' : Nat} (h : pos bn = pos bn') : bn = bn' := by
  unfold pos at h
  split at h
  · split at h
    · exact h
    · omega
  · split at h
    · omega
    · omega

theorem pos_ne_indirect (bn : Nat) : pos bn ≠ NDIRECT := by
  unfold pos
  split
  · omega
  · omega

namespace Dinode

variable {di : Dinode} {d d' : Disk} {p : Nat}

theorem own_of_type (hType : di.type ≠ 0) (hp : p < NADDR) : di.own d p = di.addr d p :=
  if_pos ⟨hType, hp⟩

theorem own_of_free (hType : di.type = 0) (p : Nat) : di.own d p = 0 := if_neg (fun h => h.1 hType)

theorem own_of_le (hp : NADDR ≤ p) : di.own d p = 0 :=
  if_neg (fun h => absurd h.2 (Nat.not_lt.mpr hp))

/- A position in `addrs`. -/
theorem own_direct (hType : di.type ≠ 0) (j : Fin (NDIRECT + 1)) :
    di.own d j.1 = (di.addrs j).toNat := by
  have hj : j.1 < NADDR := Nat.lt_of_lt_of_le j.2 (Nat.le_add_right _ _)
  rw [own_of_type hType hj, addr, dif_pos j.2]

/- An entry of the indirect block. -/
theorem own_entry (hType : di.type ≠ 0) {j : Nat} (hj : j < NINDIRECT) :
    di.own d (NDIRECT + 1 + j) =
      if di.addrs indirect = 0 then 0
      else addrAt (d (di.addrs indirect).toNat) j := by
  have hLt : NDIRECT + 1 + j < NADDR := Nat.add_lt_add_left hj _
  rw [own_of_type hType hLt, addr, dif_neg (Nat.not_lt.mpr (Nat.le_add_right _ _)),
    Nat.add_sub_cancel_left]

/- Every position is of one of the two kinds. -/
theorem pos_cases (hp : p < NADDR) :
    (∃ j : Fin (NDIRECT + 1), p = j.1) ∨ ∃ j, j < NINDIRECT ∧ p = NDIRECT + 1 + j := by
  by_cases h : p < NDIRECT + 1
  · exact .inl ⟨⟨p, h⟩, rfl⟩
  · refine .inr ⟨p - (NDIRECT + 1), ?_, ?_⟩
    · simp only [NADDR] at hp
      omega
    · omega

/- The addresses depend on the indirect block only. -/
theorem own_congr (h : di.own d NDIRECT ≠ 0 → d' (di.own d NDIRECT) = d (di.own d NDIRECT))
    (p : Nat) : di.own d' p = di.own d p := by
  by_cases hType : di.type = 0
  · rw [own_of_free hType, own_of_free hType]
  by_cases hp : p < NADDR
  · rcases pos_cases hp with ⟨j, rfl⟩ | ⟨j, hj, rfl⟩
    · rw [own_direct hType, own_direct hType]
    rw [own_entry hType hj, own_entry hType hj]
    by_cases hInd : di.addrs indirect = 0
    · rw [if_pos hInd, if_pos hInd]
    have hOwn : di.own d NDIRECT = _ := own_direct hType indirect
    have hNe : di.own d NDIRECT ≠ 0 := by
      rw [hOwn]
      intro hZero
      exact hInd (BitVec.eq_of_toNat_eq hZero)
    have hBlock := h hNe
    rw [hOwn] at hBlock
    rw [if_neg hInd, if_neg hInd, hBlock]
  · rw [own_of_le (Nat.le_of_not_lt hp), own_of_le (Nat.le_of_not_lt hp)]

end Dinode

-------
-- Files
-------

/- An inode and its contents, without addresses. -/
@[ext]
structure File where
  type : BitVec 16
  major : BitVec 16
  minor : BitVec 16
  nlink : BitVec 16
  size : BitVec 32
  blocks : Nat → Option Block

/- A free inode. -/
def File.free : File where
  type := 0
  major := 0
  minor := 0
  nlink := 0
  size := 0
  blocks := fun _ => none

/- No file has holes, or blocks past the largest size. -/
def File.Shaped (f : File) : Prop :=
  f.size.toNat ≤ MAXFILE * BSIZE ∧ ∀ bn, bn * BSIZE < f.size.toNat →
    (f.blocks bn).isSome = true

theorem File.shaped_free : File.free.Shaped := by
  constructor
  · simp [free]
  · intro bn hbn
    simp [free] at hbn

/- The block at an address, where 0 stands for none. -/
def blockAt (d : Disk) (a : Nat) : Option Block := if a = 0 then none else some (d a)

/- The file of an inode. -/
def Dinode.file (di : Dinode) (d : Disk) : File :=
  if di.type = 0 then File.free
  else
    { type := di.type
      major := di.major
      minor := di.minor
      nlink := di.nlink
      size := di.size
      blocks := fun bn =>
        if bn < MAXFILE then blockAt d (di.own d (pos bn))
        else none }

/- All files. -/
def fileOf (ino : Nat → Dinode) (d : Disk) (i : Nat) : File := (ino i).file d

namespace Dinode

variable {di : Dinode} {d d' : Disk}

theorem file_of_free (hType : di.type = 0) : di.file d = File.free := if_pos hType

theorem file_type : (di.file d).type = di.type := by
  unfold file
  split
  · rename_i hType
    rw [hType]
    rfl
  · rfl

theorem file_of_type (hType : di.type ≠ 0) :
    di.file d =
      { type := di.type
        major := di.major
        minor := di.minor
        nlink := di.nlink
        size := di.size
        blocks := fun bn =>
          if bn < MAXFILE then blockAt d (di.own d (pos bn))
          else none } :=
  if_neg hType

/- The blocks of an allocated inode. -/
theorem file_blocks (hType : di.type ≠ 0) {bn : Nat} (hbn : bn < MAXFILE) :
    (di.file d).blocks bn = blockAt d (di.own d (pos bn)) := by
  rw [file_of_type hType]
  exact if_pos hbn

/- The file depends on the blocks of the inode only. -/
theorem file_congr (h : ∀ p, di.own d p ≠ 0 → d' (di.own d p) = d (di.own d p)) :
    di.file d' = di.file d := by
  have hBlock (p : Nat) : blockAt d' (di.own d p) = blockAt d (di.own d p) := by
    unfold blockAt
    by_cases hZero : di.own d p = 0
    · rw [if_pos hZero, if_pos hZero]
    · rw [if_neg hZero, if_neg hZero, h p hZero]
  unfold file
  simp only [own_congr (h NDIRECT), hBlock]

end Dinode

-------
-- Views
-------

/- Files, references to them, and valid table entries. -/
@[ext]
structure View (φ : Type) where
  file : Nat → φ
  ref : Nat → Int
  valid : Nat → Bool

namespace View

variable {φ : Type}

/- Change one file. -/
def setFile (v : View φ) (i : Nat) (f : φ) : View φ :=
  { v with file := update v.file i f }

/- Add a reference. -/
def get (v : View φ) (i : Nat) : View φ :=
  { v with ref := update v.ref i (v.ref i + 1) }

/- Mark the table entry as valid. -/
def lock (v : View φ) (i : Nat) : View φ :=
  { v with valid := update v.valid i true }

/- Drop a reference. -/
def drop (v : View φ) (i : Nat) : View φ :=
  { v with
    ref := update v.ref i (v.ref i - 1)
    valid :=
      if v.ref i = 1 then update v.valid i false
      else v.valid }

end View

namespace Fs

variable (sb : Superblock) (s : Fs)

/- The current inode. -/
def ino (i : Nat) : Dinode :=
  if i < sb.ninodes then
    if 0 < (s.itable i).ref ∧ (s.itable i).valid = true then
      s.copy i
    else sb.dinode s.disk i
  else Dinode.zero

/- The view of a state. -/
def view : View File where
  file := fileOf (s.ino sb) s.disk
  ref := fun i => (s.itable i).ref
  valid := fun i => decide (0 < (s.itable i).ref) && (s.itable i).valid

/- The number of table entries in use. -/
def inUse : Nat := ((Finset.range sb.ninodes).filter (fun i => 0 < (s.itable i).ref)).card

end Fs

/- The invariant of the inode layer. -/
structure Inv (sb : Superblock) (dirty : Option Nat) (s : Fs) : Prop where
  owns : Owns (ownOf (s.ino sb) s.disk) sb.InData (sb.bit s.disk)
  -- the bitmap never offers blocks before the data area
  metadata : ∀ b, b < sb.dataStart → sb.bit s.disk b = true
  shaped : ∀ i, some i ≠ dirty → (fileOf (s.ino sb) s.disk i).Shaped
  -- copies in memory agree with the disk
  synced : ∀ i, some i ≠ dirty → 0 < (s.itable i).ref →
    (s.itable i).valid = true →
      sb.dinode s.disk i = s.copy i
  nonneg : ∀ i, 0 ≤ (s.itable i).ref
  -- there is no inode 0
  ranged : ∀ i, 0 < (s.itable i).ref → 0 < i ∧ i < sb.ninodes
  live : ∀ i, 0 < (s.itable i).ref → (s.itable i).valid = true →
    (s.copy i).type ≠ 0
  used : s.used = s.inUse sb

/- A state that satisfies the invariant, with its view. -/
structure At (sb : Superblock) (dirty : Option Nat) (s : Fs) (v : View File) : Prop where
  inv : Inv sb dirty s
  view : s.view sb = v

end Xv6
