import Xv6.Param
import Mathlib.Tactic.FinCases
import Mathlib.Data.Fintype.Basic

/-
  The on-disk format of `fs.h`: where the super block puts
  inodes and bitmap bits, and how they are stored.

  A super block carries the order of the areas on the disk,
  so that an area cannot overlap the next one:
  [ boot | super | log | inodes | bitmap | data ].

  Key definitions include:
    * `Superblock`
    * `Dinode`
    * `Superblock.dinode`
    * `Superblock.putDinode`
    * `Superblock.bit`
    * `Superblock.setBit`

  Inodes, bits and data blocks can be changed independently:
    * `Superblock.dinode_putDinode_self`
    * `Superblock.dinode_putDinode_ne`
    * `Superblock.bit_setBit`
    * `Superblock.dinode_update`
-/

open Function

-------
-- Super Block
-------

namespace Xv6

/- `struct superblock`, for the fields that are used. -/
structure Superblock where
  size : Nat
  ninodes : Nat
  nlog : Nat
  logstart : Nat
  inodestart : Nat
  bmapstart : Nat
  hLog : 2 ≤ logstart
  hInodes : logstart + nlog ≤ inodestart
  hBitmap : inodestart + ninodes / IPB + 1 ≤ bmapstart
  hData : bmapstart + size / BPB + 1 ≤ size
  hSize : size < 2 ^ 32
  hInums : ninodes ≤ 2 ^ 16
  hRoot : ROOTINO < ninodes

namespace Superblock

/- The first block after the bitmap. -/
def dataStart (sb : Superblock) : Nat := sb.bmapstart + sb.size / BPB + 1

/- The data area. -/
def InData (sb : Superblock) (b : Nat) : Prop := sb.dataStart ≤ b ∧ b < sb.size

instance (sb : Superblock) (b : Nat) : Decidable (sb.InData b) :=
  inferInstanceAs (Decidable (_ ∧ _))

/- `IBLOCK`: the block containing inode `i`. -/
def iblock (sb : Superblock) (i : Nat) : Nat := i / IPB + sb.inodestart

/- `BBLOCK`: the block of the bitmap containing bit `b`. -/
def bblock (sb : Superblock) (b : Nat) : Nat := b / BPB + sb.bmapstart

end Superblock

-------
-- Inodes on Disk
-------

/- File types; zero marks a free inode. -/
abbrev T_DIR : BitVec 16 := 1
abbrev T_FILE : BitVec 16 := 2
abbrev T_DEVICE : BitVec 16 := 3

/- `struct dinode`. -/
@[ext]
structure Dinode where
  type : BitVec 16
  major : BitVec 16
  minor : BitVec 16
  nlink : BitVec 16
  size : BitVec 32
  addrs : Fin (NDIRECT + 1) → BitVec 32

namespace Dinode

/- `memset(dip, 0, sizeof(*dip))`. -/
def zero : Dinode where
  type := 0
  major := 0
  minor := 0
  nlink := 0
  size := 0
  addrs := fun _ => 0

/- The fields in the order in which they are stored. -/
def fields (di : Dinode) : List (Nat × Nat) :=
  [(2, di.type.toNat), (2, di.major.toNat), (2, di.minor.toNat), (2, di.nlink.toNat),
    (4, di.size.toNat)] ++
  (List.ofFn di.addrs).map (fun a => (4, a.toNat))

end Dinode

namespace Superblock

/- Inode `i` as stored on the disk. -/
def dinode (sb : Superblock) (d : Disk) (i : Nat) : Dinode :=
  let x := d (sb.iblock i)
  let off := 64 * (i % IPB)
  { type := BitVec.ofNat 16 (x.getLE off 2)
    major := BitVec.ofNat 16 (x.getLE (off + 2) 2)
    minor := BitVec.ofNat 16 (x.getLE (off + 4) 2)
    nlink := BitVec.ofNat 16 (x.getLE (off + 6) 2)
    size := BitVec.ofNat 32 (x.getLE (off + 8) 4)
    addrs := fun j => BitVec.ofNat 32 (x.getLE (off + (12 + 4 * j.1)) 4) }

/- Store inode `i` on the disk. -/
def putDinode (sb : Superblock) (d : Disk) (i : Nat) (di : Dinode) : Disk :=
  update d (sb.iblock i) ((d (sb.iblock i)).splice (64 * (i % IPB)) (encodeFields di.fields))

/- Is block `b` marked as used in the bitmap? -/
def bit (sb : Superblock) (d : Disk) (b : Nat) : Bool := (d (sb.bblock b)).bit (b % BPB)

/- Mark block `b` in the bitmap. -/
def setBit (sb : Superblock) (d : Disk) (b : Nat) (v : Bool) : Disk :=
  update d (sb.bblock b) ((d (sb.bblock b)).setBit (b % BPB) v)

-------
-- Areas
-------

variable {sb : Superblock} {b c i : Nat}

theorem iblock_lt (hi : i < sb.ninodes) : sb.iblock i < sb.bmapstart := by
  have hDiv : i / IPB ≤ sb.ninodes / IPB := Nat.div_le_div_right (Nat.le_of_lt hi)
  have hBitmap := sb.hBitmap
  unfold iblock
  omega

theorem le_bblock (b : Nat) : sb.bmapstart ≤ sb.bblock b := Nat.le_add_left _ _

theorem bblock_lt (hb : b < sb.size) : sb.bblock b < sb.dataStart := by
  have hDiv : b / BPB ≤ sb.size / BPB := Nat.div_le_div_right (Nat.le_of_lt hb)
  unfold bblock dataStart
  omega

theorem bmapstart_lt_dataStart : sb.bmapstart < sb.dataStart :=
  Nat.lt_succ_of_le (Nat.le_add_right _ _)

theorem dataStart_pos : 0 < sb.dataStart := Nat.succ_pos _

theorem InData.ne_zero (hb : sb.InData b) : b ≠ 0 := by
  have hPos := sb.dataStart_pos
  have hLow := hb.1
  omega

theorem InData.ne_iblock (hb : sb.InData b) (hi : i < sb.ninodes) : b ≠ sb.iblock i := by
  have hLow := hb.1
  have hBlock := iblock_lt hi
  have hStart := sb.bmapstart_lt_dataStart
  omega

theorem InData.ne_bblock (hb : sb.InData b) (hc : c < sb.size) : b ≠ sb.bblock c := by
  have hLow := hb.1
  have hBlock := bblock_lt hc
  omega

theorem iblock_ne_bblock (b : Nat) (hi : i < sb.ninodes) : sb.iblock i ≠ sb.bblock b := by
  have hBlock := iblock_lt hi
  have hStart := sb.le_bblock b
  omega

/- Two inodes in one block differ in their position in it. -/
theorem mod_ne_of_iblock_eq {j : Nat} (hBlock : sb.iblock i = sb.iblock j) (hij : i ≠ j) :
    i % IPB ≠ j % IPB := by
  unfold iblock at hBlock
  simp only [IPB, BSIZE] at hBlock ⊢
  omega

end Superblock

-------
-- Stored Inodes
-------

namespace Dinode

/- The widths of the fields. -/
theorem map_fst_fields (di : Dinode) :
    di.fields.map Prod.fst = [2, 2, 2, 2, 4] ++ List.replicate 13 4 := by
  simp [fields]

theorem sum_fields (di : Dinode) : (di.fields.map Prod.fst).sum = 64 := by
  rw [map_fst_fields]
  rfl

/- The part of the fields that holds the addresses. -/
theorem getElem?_fields_addr (di : Dinode) (j : Fin (NDIRECT + 1)) :
    di.fields[5 + j.1]? = some (4, (di.addrs j).toNat) := by
  fin_cases j <;> rfl

theorem fieldOffset_addr (di : Dinode) (j : Fin (NDIRECT + 1)) :
    fieldOffset di.fields (5 + j.1) = 12 + 4 * j.1 := by
  rw [fieldOffset, List.map_take, map_fst_fields]
  revert j
  decide

end Dinode

namespace Superblock

variable {sb : Superblock}

theorem dinode_fit (i : Nat) : 64 * (i % IPB) + 64 ≤ BSIZE := by
  have hMod : i % IPB < IPB := Nat.mod_lt i (by decide)
  simp only [IPB] at hMod ⊢
  omega

/- One field of an inode that was stored. -/
theorem getLE_putDinode (sb : Superblock) (d : Disk) (i : Nat) (di : Dinode) {m w v : Nat}
    (hField : di.fields[m]? = some (w, v)) :
    (sb.putDinode d i di (sb.iblock i)).getLE (64 * (i % IPB) + fieldOffset di.fields m) w =
      v % 256 ^ w := by
  rw [putDinode, update_self]
  apply Bytes.getLE_splice_encodeFields _ _ hField
  rw [Dinode.sum_fields]
  exact dinode_fit i

/- A number stored in as many bytes as it has. -/
private theorem ofNat_eq_of_mod {k a : Nat} {x : BitVec (8 * k)} (h : a = x.toNat % 256 ^ k) :
    BitVec.ofNat (8 * k) a = x := by
  have hPow : 256 ^ k = 2 ^ (8 * k) := by
    rw [pow_mul]
    norm_num
  rw [h, hPow, Nat.mod_eq_of_lt x.isLt, BitVec.ofNat_toNat, BitVec.setWidth_eq]

/- Reading back the inode that was stored. -/
theorem dinode_putDinode_self (d : Disk) (i : Nat) (di : Dinode) :
    sb.dinode (sb.putDinode d i di) i = di := by
  have hAddr (j : Fin (NDIRECT + 1)) := getLE_putDinode sb d i di (di.getElem?_fields_addr j)
  simp only [Dinode.fieldOffset_addr] at hAddr
  have hField {m w v : Nat} := getLE_putDinode (m := m) (w := w) (v := v) sb d i di
  ext1
  · exact ofNat_eq_of_mod (hField (m := 0) rfl)
  · exact ofNat_eq_of_mod (hField (m := 1) rfl)
  · exact ofNat_eq_of_mod (hField (m := 2) rfl)
  · exact ofNat_eq_of_mod (hField (m := 3) rfl)
  · exact ofNat_eq_of_mod (hField (m := 4) rfl)
  · funext j
    exact ofNat_eq_of_mod (k := 4) (hAddr j)

/- Storing one inode leaves the others as they are. -/
theorem dinode_putDinode_ne (d : Disk) {i j : Nat} (di : Dinode) (hij : j ≠ i) :
    sb.dinode (sb.putDinode d i di) j = sb.dinode d j := by
  by_cases hBlock : sb.iblock j = sb.iblock i
  · have hMod := mod_ne_of_iblock_eq hBlock hij
    have hGet (off w : Nat) (hw : off + w ≤ 64) :
        (sb.putDinode d i di (sb.iblock j)).getLE (64 * (j % IPB) + off) w =
          (d (sb.iblock j)).getLE (64 * (j % IPB) + off) w := by
      rw [putDinode, hBlock, update_self]
      apply Bytes.getLE_splice_disjoint
      rw [length_encodeFields, Dinode.sum_fields]
      omega
    have hAddr (k : Fin (NDIRECT + 1)) : 12 + 4 * k.1 + 4 ≤ 64 := by
      have hk := k.2
      simp only [NDIRECT] at hk
      omega
    unfold dinode
    have hZero := hGet 0 2 (by omega)
    simp only [Nat.add_zero] at hZero
    simp only [hZero, hGet 2 2 (by omega), hGet 4 2 (by omega), hGet 6 2 (by omega),
      hGet 8 4 (by omega), hGet _ 4 (hAddr _)]
  · unfold dinode
    rw [putDinode, update_of_ne hBlock]

theorem bit_putDinode (d : Disk) {i : Nat} (di : Dinode) (b : Nat) (hi : i < sb.ninodes) :
    sb.bit (sb.putDinode d i di) b = sb.bit d b := by
  unfold bit
  rw [putDinode, update_of_ne (iblock_ne_bblock b hi).symm]

theorem putDinode_of_inData (d : Disk) {i b : Nat} (di : Dinode) (hi : i < sb.ninodes)
    (hb : sb.InData b) : sb.putDinode d i di b = d b := by
  rw [putDinode, update_of_ne (hb.ne_iblock hi)]

-------
-- Stored Bits and Blocks
-------

variable {b c i : Nat}

/- Bits in blocks that hold `BPB` of them each. -/
theorem bit_setBit_at {k : Nat → Nat} (d : Disk) (v : Bool) (hk : k c = k b → c / BPB = b / BPB) :
    (update d (k b) ((d (k b)).setBit (b % BPB) v) (k c)).bit (c % BPB) =
      if c = b then v else (d (k c)).bit (c % BPB) := by
  by_cases hBlock : k c = k b
  · have hPos : b % BPB / 8 < BSIZE := by
      have hMod : b % BPB < BPB := Nat.mod_lt b (by decide)
      simp only [BPB] at hMod ⊢
      omega
    have hIff : c % BPB = b % BPB ↔ c = b := by
      have hDiv := hk hBlock
      simp only [BPB, BSIZE] at hDiv ⊢
      omega
    rw [hBlock, update_self, Bytes.bit_setBit _ _ _ hPos]
    simp only [hIff]
  · rw [update_of_ne hBlock, if_neg]
    rintro rfl
    exact hBlock rfl

/- Marking a block changes its bit and no other. -/
theorem bit_setBit (d : Disk) (b : Nat) (v : Bool) (c : Nat) :
    sb.bit (sb.setBit d b v) c =
      if c = b then v else sb.bit d c :=
  bit_setBit_at d v (fun h => Nat.add_right_cancel h)

theorem dinode_setBit (d : Disk) (b : Nat) (v : Bool) (hi : i < sb.ninodes) :
    sb.dinode (sb.setBit d b v) i = sb.dinode d i := by
  unfold dinode
  rw [setBit, update_of_ne (iblock_ne_bblock b hi)]

theorem setBit_of_inData (d : Disk) (v : Bool) (hb : b < sb.size) (hc : sb.InData c) :
    sb.setBit d b v c = d c := by
  rw [setBit, update_of_ne (hc.ne_bblock hb)]

/- Data blocks hold neither inodes nor the bitmap. -/
theorem dinode_update (d : Disk) (x : Block) (hb : sb.InData b) (hi : i < sb.ninodes) :
    sb.dinode (update d b x) i = sb.dinode d i := by
  unfold dinode
  rw [update_of_ne (hb.ne_iblock hi).symm]

theorem bit_update (d : Disk) (x : Block) (hb : sb.InData b) (hc : c < sb.size) :
    sb.bit (update d b x) c = sb.bit d c := by
  unfold bit
  rw [update_of_ne (hb.ne_bblock hc).symm]

end Superblock

/- From here on the format is used through its laws only. -/
attribute [irreducible] Superblock.dinode
attribute [irreducible] Superblock.putDinode
attribute [irreducible] Superblock.bit
attribute [irreducible] Superblock.setBit

end Xv6
