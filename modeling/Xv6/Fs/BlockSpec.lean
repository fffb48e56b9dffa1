import Xv6.Fs.View
import Mathlib.Order.Interval.Finset.Nat

/-
  Allocation and mapping of blocks keep the invariant.

  Every change of a mapping goes through `At.step`: one
  position of one inode gets a new address, and no other
  owned block changes. Rules for programs are stated with
  the postcondition as a parameter, so that they can be
  applied one after another.

  Main rules are:
    * `At.step`
    * `bmap_rule`
    * `bmap_of_mapped`
    * `At.write`
-/

open Prog (wp wp_bind wp_edit wp_ite wp_pure wp_read)

open Function Xv6.Dinode Xv6.Superblock Xv6.Fs

-------
-- Reading a View
-------

namespace Xv6

namespace Fs

variable {sb : Superblock} {s s' : Fs} {i : Nat}

/- The table entry is in use and valid. -/
def Active (s : Fs) (i : Nat) : Prop := 0 < (s.itable i).ref ∧ (s.itable i).valid = true

theorem ino_of_active (hi : i < sb.ninodes) (hActive : s.Active i) : s.ino sb i = s.copy i := by
  rw [ino, if_pos hi]
  exact if_pos hActive

theorem ino_of_not_active (hi : i < sb.ninodes) (hActive : ¬ s.Active i) :
    s.ino sb i = sb.dinode s.disk i := by
  rw [ino, if_pos hi]
  exact if_neg hActive

/- Changing the copy in memory changes the current inode. -/
theorem ino_update {di : Dinode} (hi : i < sb.ninodes) (hActive : s.Active i)
    (hTable : s'.itable = update s.itable i
          { s.itable i with copy := di })
    (hDisk : ∀ j, j < sb.ninodes → sb.dinode s'.disk j = sb.dinode s.disk j) :
    s'.ino sb = update (s.ino sb) i di := by
  funext j
  by_cases hji : j = i
  · subst hji
    rw [update_self, ino, if_pos hi, copy, hTable, update_self]
    exact if_pos hActive
  · rw [update_of_ne hji, ino, ino, copy, copy, hTable, update_of_ne hji]
    by_cases hj : j < sb.ninodes
    · rw [if_pos hj, if_pos hj, hDisk j hj]
    · rw [if_neg hj, if_neg hj]

end Fs

namespace Dinode

/- The same inode with other addresses. -/
structure SameMeta (di di' : Dinode) : Prop where
  type : di'.type = di.type
  major : di'.major = di.major
  minor : di'.minor = di.minor
  nlink : di'.nlink = di.nlink
  size : di'.size = di.size

theorem sameMeta_setAddr (di : Dinode) (j : Fin (NDIRECT + 1)) (a : Nat) :
    di.SameMeta (di.setAddr j a) :=
  ⟨rfl, rfl, rfl, rfl, rfl⟩

end Dinode

namespace At

variable {sb : Superblock} {dirty : Option Nat} {s : Fs} {v : View File} {i : Nat} {bn : Nat}

section

variable (h : At sb dirty s v)
include h

theorem file : fileOf (s.ino sb) s.disk = v.file := congrArg View.file h.view

theorem ref (i : Nat) : (s.itable i).ref = v.ref i :=
  congrFun (congrArg View.ref h.view) i

theorem active (hValid : v.valid i = true) : s.Active i := by
  have hEq : (s.view sb).valid i = v.valid i := congrFun (congrArg View.valid h.view) i
  rw [hValid] at hEq
  simpa [Fs.view, Fs.Active] using hEq

theorem valid_of_active (hActive : s.Active i) : v.valid i = true := by
  rw [← congrFun (congrArg View.valid h.view) i]
  simpa [Fs.view, Fs.Active] using hActive

theorem lt_ninodes (hValid : v.valid i = true) : i < sb.ninodes :=
  (h.inv.ranged i (h.active hValid).1).2

/- The copy in memory of an active inode is current. -/
theorem ino_eq (hValid : v.valid i = true) : s.ino sb i = s.copy i :=
  ino_of_active (h.lt_ninodes hValid) (h.active hValid)

theorem copy_type (hValid : v.valid i = true) : (s.copy i).type ≠ 0 :=
  h.inv.live i (h.active hValid).1 (h.active hValid).2

/- The file of an active inode, field by field. -/
theorem file_eq (hValid : v.valid i = true) : v.file i = (s.copy i).file s.disk := by
  rw [← h.file, fileOf, h.ino_eq hValid]

theorem type_eq (hValid : v.valid i = true) : (v.file i).type = (s.copy i).type := by
  rw [h.file_eq hValid, file_type]

theorem size_eq (hValid : v.valid i = true) : (v.file i).size = (s.copy i).size := by
  rw [h.file_eq hValid, file_of_type (h.copy_type hValid)]

theorem nlink_eq (hValid : v.valid i = true) : (v.file i).nlink = (s.copy i).nlink := by
  rw [h.file_eq hValid, file_of_type (h.copy_type hValid)]

theorem major_eq (hValid : v.valid i = true) : (v.file i).major = (s.copy i).major := by
  rw [h.file_eq hValid, file_of_type (h.copy_type hValid)]

theorem minor_eq (hValid : v.valid i = true) : (v.file i).minor = (s.copy i).minor := by
  rw [h.file_eq hValid, file_of_type (h.copy_type hValid)]

theorem type_ne_zero (hValid : v.valid i = true) : (v.file i).type ≠ 0 := by
  rw [h.type_eq hValid]
  exact h.copy_type hValid

/- The addresses of an active inode. -/
theorem own_eq (hValid : v.valid i = true) (p : Nat) :
    ownOf (s.ino sb) s.disk (i, p) = (s.copy i).own s.disk p := by
  rw [ownOf, h.ino_eq hValid]

/- No file has blocks past the largest size. -/
theorem blocks_of_le (i : Nat) (hbn : MAXFILE ≤ bn) : (v.file i).blocks bn = none := by
  rw [← h.file, fileOf, Dinode.file]
  split
  · rfl
  · exact if_neg (Nat.not_lt.mpr hbn)

theorem blocks_eq (hValid : v.valid i = true) (hbn : bn < MAXFILE) :
    (v.file i).blocks bn = blockAt s.disk (ownOf (s.ino sb) s.disk (i, pos bn)) := by
  rw [h.file_eq hValid, h.own_eq hValid, file_blocks (h.copy_type hValid) hbn]

end

end At

-------
-- Changing One Address
-------

/- Change what is mapped at position `p`. -/
def File.setPos (f : File) (p : Nat) (x : Option Block) : File :=
  { f with
    blocks := fun bn =>
      if bn < MAXFILE ∧ pos bn = p then x
      else f.blocks bn }

/- The indirect block is not part of the contents. -/
theorem File.setPos_indirect (f : File) (x : Option Block) : f.setPos NDIRECT x = f := by
  unfold setPos
  have hBlocks (bn : Nat) : (if bn < MAXFILE ∧ pos bn = NDIRECT then x
        else f.blocks bn) = f.blocks bn :=
    if_neg (fun h => pos_ne_indirect bn h.2)
  simp only [hBlocks]

theorem File.setPos_pos (f : File) {bn : Nat} (x : Option Block) (hbn : bn < MAXFILE) :
    f.setPos (pos bn) x =
      { f with blocks := update f.blocks bn x } := by
  unfold setPos
  congr
  funext bn'
  by_cases h : bn' = bn
  · subst h
    rw [if_pos ⟨hbn, rfl⟩, update_self]
  · rw [if_neg (fun hc => h (pos_inj hc.2)), update_of_ne h]

namespace View

variable {φ : Type}

@[simp] theorem setFile_file (v : View φ) (i : Nat) (f : φ) :
    (v.setFile i f).file = update v.file i f :=
  rfl

@[simp] theorem setFile_ref (v : View φ) (i : Nat) (f : φ) : (v.setFile i f).ref = v.ref := rfl

@[simp] theorem setFile_valid (v : View φ) (i : Nat) (f : φ) : (v.setFile i f).valid = v.valid :=
  rfl

@[simp] theorem setFile_self (v : View φ) (i : Nat) : v.setFile i (v.file i) = v := by
  unfold setFile
  rw [update_eq_self]

@[simp] theorem setFile_setFile (v : View φ) (i : Nat) (f g : φ) :
    (v.setFile i f).setFile i g = v.setFile i g := by
  unfold setFile
  simp

end View

/-
  The file after the address at position `p` has become `a`
  and no other block of the contents has changed.
-/
theorem Dinode.file_of_own {di di' : Dinode} {d d' : Disk} {p a : Nat} (hMeta : di.SameMeta di')
    (hType : di.type ≠ 0) (hOwn : ∀ q, di'.own d' q = if q = p then a else di.own d q)
    (hFrame : ∀ q, q ≠ NDIRECT → q ≠ p → di.own d q ≠ 0 → d' (di.own d q) = d (di.own d q)) :
    di'.file d' = (di.file d).setPos p (blockAt d' a) := by
  have hType' : di'.type ≠ 0 := by rwa [hMeta.type]
  rw [file_of_type hType', file_of_type hType,
    hMeta.type, hMeta.major, hMeta.minor, hMeta.nlink,
    hMeta.size]
  congr
  funext bn
  by_cases hbn : bn < MAXFILE
  · rw [if_pos hbn, hOwn]
    by_cases hp : pos bn = p
    · rw [if_pos hp, if_pos ⟨hbn, hp⟩]
    rw [if_neg hp, if_neg (fun h => hp h.2)]
    dsimp only
    rw [if_pos hbn]
    unfold blockAt
    by_cases hZero : di.own d (pos bn) = 0
    · rw [if_pos hZero, if_pos hZero]
    · rw [if_neg hZero, if_neg hZero, hFrame _ (pos_ne_indirect bn) hp hZero]
  · rw [if_neg hbn, if_neg (fun h => hbn h.1)]
    exact (if_neg hbn).symm

/-
  A change of inode `i` to `di`, and of blocks that belong
  to no other inode.
-/
structure Change (sb : Superblock) (i : Nat) (di : Dinode) (s s' : Fs) : Prop where
  table : s'.itable = update s.itable i
        { s.itable i with copy := di }
  used : s'.used = s.used
  dinodes : ∀ j, j < sb.ninodes → sb.dinode s'.disk j = sb.dinode s.disk j
  metadata : ∀ b, b < sb.dataStart → sb.bit s'.disk b = sb.bit s.disk b
  type : di.type ≠ 0
  frame : ∀ j q, j ≠ i → ownOf (s.ino sb) s.disk (j, q) ≠ 0 →
      s'.disk (ownOf (s.ino sb) s.disk (j, q)) =
        s.disk (ownOf (s.ino sb) s.disk (j, q))

namespace Change

variable {sb : Superblock} {i : Nat} {di : Dinode} {s s' : Fs} {v : View File}

section

variable (hc : Change sb i di s s') (h : At sb (some i) s v) (hValid : v.valid i = true)
include hc h hValid

theorem ino_eq : s'.ino sb = update (s.ino sb) i di :=
  ino_update (h.lt_ninodes hValid) (h.active hValid) hc.table hc.dinodes

/- The addresses after the change. -/
theorem own_eq (k : Nat × Nat) :
    ownOf (s'.ino sb) s'.disk k =
      if k.1 = i then di.own s'.disk k.2
      else ownOf (s.ino sb) s.disk k := by
  rw [hc.ino_eq h hValid]
  by_cases hk : k.1 = i
  · rw [if_pos hk, ownOf, hk, update_self]
  · rw [if_neg hk, ownOf, update_of_ne hk]
    exact own_congr (hc.frame k.1 NDIRECT hk) k.2

/- The files after the change. -/
theorem file_eq : fileOf (s'.ino sb) s'.disk = update v.file i (di.file s'.disk) := by
  funext j
  rw [fileOf, hc.ino_eq h hValid]
  by_cases hji : j = i
  · subst hji
    rw [update_self, update_self]
  · rw [update_of_ne hji, update_of_ne hji, ← h.file]
    exact file_congr (fun q => hc.frame j q hji)

/- A change keeps references and the entries' validity. -/
theorem view_eq : s'.view sb = v.setFile i (di.file s'.disk) := by
  have hEntry (j : Nat) : (s'.itable j).ref = (s.itable j).ref ∧
        (s'.itable j).valid = (s.itable j).valid := by
    rw [hc.table]
    by_cases hji : j = i
    · subst hji
      rw [update_self]
      exact ⟨rfl, rfl⟩
    · rw [update_of_ne hji]
      exact ⟨rfl, rfl⟩
  rw [← h.view]
  apply View.ext
  · have hFile := hc.file_eq h hValid
    rw [← h.view] at hFile
    exact hFile
  · funext j
    exact (hEntry j).1
  · funext j
    change (decide (0 < (s'.itable j).ref) && (s'.itable j).valid) = _
    rw [(hEntry j).1, (hEntry j).2]
    rfl

end

end Change

namespace At

variable {sb : Superblock} {i : Nat} {di : Dinode} {s s' : Fs} {v : View File}

/- A change after which ownership is still exact. -/
theorem step (h : At sb (some i) s v) (hValid : v.valid i = true) (hc : Change sb i di s s')
    (hOwns : Owns (fun k =>
          if k.1 = i then di.own s'.disk k.2
          else ownOf (s.ino sb) s.disk k)
        sb.InData (sb.bit s'.disk)) : At sb (some i) s' (v.setFile i (di.file s'.disk)) := by
  have hEntry (j : Nat) (hji : j ≠ i) : s'.itable j = s.itable j := by
    rw [hc.table, update_of_ne hji]
  have hSelf : s'.itable i = { s.itable i with copy := di } := by rw [hc.table, update_self]
  have hRef (j : Nat) : (s'.itable j).ref = (s.itable j).ref := by
    by_cases hji : j = i
    · rw [hji, hSelf]
    · rw [hEntry j hji]
  refine ⟨⟨?_, ?_, ?_, ?_, ?_, ?_, ?_, ?_⟩, hc.view_eq h hValid⟩
  · exact hOwns.congr (hc.own_eq h hValid) (fun _ _ => rfl)
  · intro b hb
    rw [hc.metadata b hb]
    exact h.inv.metadata b hb
  · intro j hj
    have hji : j ≠ i := by
      intro hEq
      exact hj (congrArg some hEq)
    rw [hc.file_eq h hValid, update_of_ne hji, ← h.file]
    exact h.inv.shaped j hj
  · intro j hj hPos hVal
    have hji : j ≠ i := by
      intro hEq
      exact hj (congrArg some hEq)
    rw [hEntry j hji] at hPos hVal
    rw [hc.dinodes j (h.inv.ranged j hPos).2, copy, hEntry j hji]
    exact h.inv.synced j hj hPos hVal
  · intro j
    rw [hRef]
    exact h.inv.nonneg j
  · intro j hPos
    rw [hRef] at hPos
    exact h.inv.ranged j hPos
  · intro j hPos hVal
    by_cases hji : j = i
    · subst hji
      rw [copy, hSelf]
      exact hc.type
    · rw [hEntry j hji] at hPos hVal
      rw [copy, hEntry j hji]
      exact h.inv.live j hPos hVal
  · rw [hc.used, h.inv.used, inUse, inUse]
    simp only [hRef]

/-
  A change of one address: position `p` of inode `i` becomes
  `a`, and no other block of its contents changes.
-/
theorem stepPos (h : At sb (some i) s v) (hValid : v.valid i = true) {p a : Nat}
    (hc : Change sb i di s s') (hMeta : (s.copy i).SameMeta di)
    (hOwn : ∀ q, di.own s'.disk q =
        if q = p then a else (s.copy i).own s.disk q)
    (hFrame : ∀ q, q ≠ NDIRECT → q ≠ p → (s.copy i).own s.disk q ≠ 0 →
        s'.disk ((s.copy i).own s.disk q) = s.disk ((s.copy i).own s.disk q))
    (hOwns : Owns (update (ownOf (s.ino sb) s.disk) (i, p) a) sb.InData (sb.bit s'.disk)) :
    At sb (some i) s' (v.setFile i ((v.file i).setPos p (blockAt s'.disk a))) ∧
      ownOf (s'.ino sb) s'.disk (i, p) = a := by
  have hAll (k : Nat × Nat) : (if k.1 = i then di.own s'.disk k.2
        else ownOf (s.ino sb) s.disk k) =
      update (ownOf (s.ino sb) s.disk) (i, p) a
        k := by
    by_cases hk : k = (i, p)
    · rw [hk, update_self, if_pos rfl, hOwn, if_pos rfl]
    rw [update_of_ne hk]
    by_cases hki : k.1 = i
    · have hkp : k.2 ≠ p := by
        intro hEq
        exact hk (Prod.ext hki hEq)
      rw [if_pos hki, hOwn, if_neg hkp, ← h.own_eq hValid, ← hki]
    · rw [if_neg hki]
  constructor
  · have hFile := file_of_own hMeta (h.copy_type hValid) hOwn hFrame
    rw [← h.file_eq hValid] at hFile
    rw [← hFile]
    exact h.step hValid hc (hOwns.congr hAll (fun _ _ => rfl))
  · rw [hc.own_eq h hValid, if_pos rfl, hOwn, if_pos rfl]

/- The owner of a block is unique. -/
theorem own_ne_of_ne (h : At sb (some i) s v) {k k' : Nat × Nat}
    (hk : ownOf (s.ino sb) s.disk k ≠ 0) (hNe : k ≠ k') :
    ownOf (s.ino sb) s.disk k ≠ ownOf (s.ino sb) s.disk k' :=
  fun hEq => hNe (h.inv.owns.distinct k k' hk hEq)

end At

-------
-- Block Allocation
-------

/- The state in which `balloc` returns `b`. -/
def Fs.alloc (sb : Superblock) (s : Fs) (b : Nat) : Fs :=
  { s with
    disk := update (sb.setBit s.disk b true) b Bytes.zero }

/- The allocated inodes. -/
def View.allocated (sb : Superblock) (v : View File) : Finset Nat :=
  (Finset.range sb.ninodes).filter (fun i => (v.file i).type ≠ 0)

/-
  There may be no free block: the allocated inodes are
  enough to own the whole data area.
-/
def View.Full (sb : Superblock) (v : View File) : Prop :=
  sb.size - sb.dataStart ≤ (v.allocated sb).card * NADDR

section Alloc

variable {sb : Superblock} {s : Fs} {b : Nat}

theorem Fs.alloc_self : (s.alloc sb b).disk b = Bytes.zero := update_self ..

theorem Fs.alloc_of_ne {c : Nat} (hb : sb.InData b) (hc : sb.InData c) (hcb : c ≠ b) :
    (s.alloc sb b).disk c = s.disk c := by
  change update _ b _ c = _
  rw [update_of_ne hcb, setBit_of_inData _ _ hb.2 hc]

theorem Fs.alloc_dinode {j : Nat} (hb : sb.InData b) (hj : j < sb.ninodes) :
    sb.dinode (s.alloc sb b).disk j = sb.dinode s.disk j := by
  change sb.dinode (update _ b _) j = _
  rw [dinode_update _ _ hb hj, dinode_setBit _ _ _ hj]

theorem Fs.alloc_bit {c : Nat} (hb : sb.InData b) (hc : c < sb.size) :
    sb.bit (s.alloc sb b).disk c = update (sb.bit s.disk) b true c := by
  change sb.bit (update _ b _) c = _
  rw [bit_update _ _ hb hc, bit_setBit, update_apply]

theorem Fs.alloc_metadata {c : Nat} (hb : sb.InData b) (hc : c < sb.dataStart) :
    sb.bit (s.alloc sb b).disk c = sb.bit s.disk c := by
  have hLow := hb.1
  have hHigh := hb.2
  rw [alloc_bit hb (by omega), update_of_ne (by omega)]

end Alloc

namespace At

variable {sb : Superblock} {dirty : Option Nat} {s : Fs} {v : View File}

/- When all blocks are used, the disk is full. -/
theorem full_of_bits (h : At sb dirty s v) (hBits : ∀ b, b < sb.size → sb.bit s.disk b = true) :
    v.Full sb := by
  have hCard :=
    h.inv.owns.card_le (Finset.Ico sb.dataStart sb.size) (v.allocated sb ×ˢ Finset.range NADDR)
      (fun b hb => by
        have hMem := Finset.mem_Ico.mp hb
        exact ⟨hMem, hBits b hMem.2⟩)
      (fun k hk => by
        have hType : (s.ino sb k.1).type ≠ 0 := by
          intro hZero
          exact hk (own_of_free hZero k.2)
        have hPos : k.2 < NADDR := by
          apply Nat.lt_of_not_le
          intro hLe
          exact hk (own_of_le hLe)
        have hLt : k.1 < sb.ninodes := by
          apply Nat.lt_of_not_le
          intro hLe
          apply hType
          rw [ino, if_neg (Nat.not_lt.mpr hLe)]
          rfl
        rw [Finset.mem_product, View.allocated, Finset.mem_filter, Finset.mem_range,
          Finset.mem_range, ← h.file, fileOf,
          file_type]
        exact ⟨⟨hLt, hType⟩, hPos⟩)
  rw [Nat.card_Ico, Finset.card_product, Finset.card_range] at hCard
  exact hCard

end At

theorem balloc_rule {sb : Superblock} {dirty : Option Nat} {s : Fs} {v : View File}
    {Q : Nat → Fs → Prop} {E : Halt → Fs → Prop} (h : At sb dirty s v)
    (hNew : ∀ b, sb.InData b → sb.bit s.disk b = false → Q b (s.alloc sb b))
    (hFull : v.Full sb → Q 0 s) : wp (balloc sb) Q E s := by
  unfold balloc
  rw [wp_bind, wp_read]
  cases hFind : (List.range sb.size).find? (fun b => !sb.bit s.disk b) with
  | none =>
    rw [wp_pure]
    apply hFull
    apply h.full_of_bits
    intro b hb
    have hNone := List.find?_eq_none.mp hFind b (List.mem_range.mpr hb)
    simpa using hNone
  | some b =>
    have hFree : sb.bit s.disk b = false := by simpa using List.find?_some hFind
    have hLt : b < sb.size := List.mem_range.mp (List.mem_of_find?_eq_some hFind)
    have hData : sb.InData b := by
      refine ⟨?_, hLt⟩
      apply Nat.le_of_not_lt
      intro hLow
      have hUsed := h.inv.metadata b hLow
      rw [hFree] at hUsed
      cases hUsed
    simp only [bzero, wp_bind, wp_edit, wp_pure]
    exact hNew b hData hFree

-------
-- Mapping a Block
-------

namespace Dinode

variable {di : Dinode} {d : Disk} {a : Nat}

theorem toNat_setAddr_self (di : Dinode) (p : Fin (NDIRECT + 1)) (ha : a < 2 ^ 32) :
    ((di.setAddr p a).addrs p).toNat = a := by
  simp only [setAddr, update_self]
  exact Nat.mod_eq_of_lt ha

theorem setAddr_of_ne (di : Dinode) {p q : Fin (NDIRECT + 1)} (a : Nat) (hqp : q ≠ p) :
    (di.setAddr p a).addrs q = di.addrs q :=
  update_of_ne hqp ..

/- The addresses after one of `addrs` has been set. -/
theorem own_setAddr (hType : di.type ≠ 0) (p : Fin (NDIRECT + 1)) (ha : a < 2 ^ 32)
    (hEntries : p = indirect → di.addrs indirect = 0 ∧ ∀ j, addrAt (d a) j = 0) (q : Nat) :
    (di.setAddr p a).own d q =
      if q = p.1 then a else di.own d q := by
  have hType' : (di.setAddr p a).type ≠ 0 := hType
  by_cases hq : q < NADDR
  · rcases pos_cases hq with ⟨j, rfl⟩ | ⟨j, hj, rfl⟩
    · rw [own_direct hType', own_direct hType]
      by_cases hjp : j = p
      · subst hjp
        rw [if_pos rfl, toNat_setAddr_self di j ha]
      · rw [if_neg (fun hEq => hjp (Fin.ext hEq)), setAddr_of_ne di a hjp]
    have hNe : NDIRECT + 1 + j ≠ p.1 := by
      omega
    rw [own_entry hType' hj, own_entry hType hj, if_neg hNe]
    by_cases hp : p = indirect
    · subst hp
      rw [if_pos (hEntries rfl).1, toNat_setAddr_self di indirect ha, (hEntries rfl).2 j, ite_self]
    · rw [setAddr_of_ne di a (Ne.symm hp)]
  · have hNe : q ≠ p.1 := by
      simp only [NADDR] at hq
      omega
    rw [own_of_le (Nat.le_of_not_lt hq), if_neg hNe, own_of_le (Nat.le_of_not_lt hq)]

end Dinode

theorem addrAt_zero (j : Nat) : addrAt Bytes.zero j = 0 := Bytes.getLE_zero ..

/- An entry of an address block after one has been set. -/
theorem addrAt_putLE (x : Block) {a j : Nat} (ha : a < 2 ^ 32) (hj : j < NINDIRECT) (j' : Nat) :
    addrAt (x.putLE (4 * j) 4 a) j' =
      if j' = j then a else addrAt x j' := by
  unfold addrAt
  by_cases hEq : j' = j
  · subst hEq
    have hFit : 4 * j' + 4 ≤ BSIZE := by
      simp only [NINDIRECT] at hj ⊢
      omega
    rw [if_pos rfl, Bytes.getLE_putLE_self _ _ _ _ hFit]
    exact Nat.mod_eq_of_lt (by omega)
  · rw [if_neg hEq, Bytes.getLE_putLE_disjoint]
    omega

namespace At

variable {sb : Superblock} {i b : Nat} {s : Fs} {v : View File}

/- Other owned blocks are not affected by an allocation. -/
theorem alloc_frame (h : At sb (some i) s v) (hb : sb.InData b)
    (hFree : sb.bit s.disk b = false) (k : Nat × Nat) (hk : ownOf (s.ino sb) s.disk k ≠ 0) :
    (s.alloc sb b).disk (ownOf (s.ino sb) s.disk k) = s.disk (ownOf (s.ino sb) s.disk k) :=
  alloc_of_ne hb (h.inv.owns.inArea k hk) (h.inv.owns.own_ne hb hFree k)

/- The allocated block is put into `addrs`. -/
theorem mapAddr (h : At sb (some i) s v) (hValid : v.valid i = true) (p : Fin (NDIRECT + 1))
    (hEmpty : (s.copy i).addrs p = 0) (hb : sb.InData b) (hFree : sb.bit s.disk b = false) :
    At sb (some i) ((s.alloc sb b).setCopy i ((s.copy i).setAddr p b))
        (v.setFile i ((v.file i).setPos p.1 (some Bytes.zero))) ∧
      ownOf (((s.alloc sb b).setCopy i ((s.copy i).setAddr p b)).ino sb)
          (s.alloc sb b).disk (i, p.1) = b := by
  have hType := h.copy_type hValid
  have hFrame := h.alloc_frame hb hFree
  have hOwnFrame (q : Nat) (hq : (s.copy i).own s.disk q ≠ 0) :
      (s.alloc sb b).disk ((s.copy i).own s.disk q) = s.disk ((s.copy i).own s.disk q) := by
    have hEq := hFrame (i, q)
    rw [h.own_eq hValid] at hEq
    exact hEq hq
  have hSize := sb.hSize
  have hb32 : b < 2 ^ 32 := Nat.lt_trans hb.2 hSize
  have hOwn (q : Nat) : ((s.copy i).setAddr p b).own (s.alloc sb b).disk q =
        if q = p.1 then b else (s.copy i).own s.disk q := by
    rw [own_setAddr hType p hb32 ?_ q, own_congr (hOwnFrame NDIRECT) q]
    rintro rfl
    refine ⟨hEmpty, ?_⟩
    intro j
    rw [alloc_self]
    exact addrAt_zero j
  have hZero : ownOf (s.ino sb) s.disk (i, p.1) = 0 := by
    rw [h.own_eq hValid, own_direct hType, hEmpty]
    rfl
  have hc : Change sb i ((s.copy i).setAddr p b) s ((s.alloc sb b).setCopy i
          ((s.copy i).setAddr p b)) :=
    { table := rfl
      used := rfl
      dinodes := fun j hj => alloc_dinode hb hj
      metadata := fun c hc => alloc_metadata hb hc
      type := hType
      frame := fun j q _ hk => hFrame (j, q) hk }
  have hStep :=
    h.stepPos hValid hc (sameMeta_setAddr ..) hOwn
      (fun q _ _ hq => hOwnFrame q hq)
      ((h.inv.owns.take hZero hb hFree).congr (fun _ => rfl) (fun c hc => alloc_bit hb hc.2))
  have hBlock : blockAt (s.alloc sb b).disk b = some Bytes.zero := by
    rw [blockAt, if_neg hb.ne_zero, alloc_self]
  rw [← hBlock]
  exact hStep

/- The allocated block is put into the indirect block. -/
theorem mapEntry (h : At sb (some i) s v) (hValid : v.valid i = true) {ind j : Nat}
    (hInd : ownOf (s.ino sb) s.disk (i, NDIRECT) = ind) (hInd0 : ind ≠ 0)
    (hj : j < NINDIRECT) (hEmpty : addrAt (s.disk ind) j = 0) (hb : sb.InData b)
    (hFree : sb.bit s.disk b = false) :
    At sb (some i) ((s.alloc sb b).setBlock ind (((s.alloc sb b).disk ind).putLE (4 * j) 4 b))
        (v.setFile i ((v.file i).setPos (NDIRECT + 1 + j) (some Bytes.zero))) ∧
      ownOf (((s.alloc sb b).setBlock ind (((s.alloc sb b).disk ind).putLE (4 * j) 4 b)).ino sb)
          ((s.alloc sb b).setBlock ind (((s.alloc sb b).disk ind).putLE (4 * j) 4 b)).disk
          (i, NDIRECT + 1 + j) = b := by
  have hType := h.copy_type hValid
  have hFrame := h.alloc_frame hb hFree
  have hOwns := h.inv.owns
  have hSize := sb.hSize
  have hb32 : b < 2 ^ 32 := Nat.lt_trans hb.2 hSize
  have hIndOwn : (s.copy i).own s.disk NDIRECT = ind := by rw [← h.own_eq hValid, hInd]
  have hIndAddr : ((s.copy i).addrs indirect).toNat = ind := by
    rw [← hIndOwn]
    exact (own_direct hType indirect).symm
  have hIndNe : (s.copy i).addrs indirect ≠ 0 := by
    intro hZero
    rw [hZero] at hIndAddr
    exact hInd0 hIndAddr.symm
  have hIndBlock : (s.alloc sb b).disk ind = s.disk ind := by
    have hEq := hFrame (i, NDIRECT)
    rw [hInd] at hEq
    exact hEq hInd0
  have hIndData : sb.InData ind := by
    have hArea := hOwns.inArea (i, NDIRECT)
    rw [hInd] at hArea
    exact hArea hInd0
  -- only the indirect block and the new block change
  have hOther (k : Nat × Nat) (hk : ownOf (s.ino sb) s.disk k ≠ 0) (hNe : k ≠ (i, NDIRECT)) :
      ((s.alloc sb b).setBlock ind (((s.alloc sb b).disk ind).putLE (4 * j) 4 b)).disk
          (ownOf (s.ino sb) s.disk k) =
        s.disk (ownOf (s.ino sb) s.disk k) := by
    have hkInd : ownOf (s.ino sb) s.disk k ≠ ind := by
      rw [← hInd]
      exact h.own_ne_of_ne hk hNe
    rw [setBlock_disk, update_of_ne hkInd]
    exact hFrame k hk
  have hOwn (q : Nat) : (s.copy i).own ((s.alloc sb b).setBlock ind
            (((s.alloc sb b).disk ind).putLE (4 * j) 4 b)).disk q =
        if q = NDIRECT + 1 + j then b
        else (s.copy i).own s.disk q := by
    by_cases hq : q < NADDR
    · rcases pos_cases hq with
        ⟨p, rfl⟩ | ⟨j', hj', rfl⟩
      · have hNe : p.1 ≠ NDIRECT + 1 + j := by
          omega
        rw [own_direct hType, own_direct hType, if_neg hNe]
      rw [own_entry hType hj', own_entry hType hj', if_neg hIndNe,
        if_neg hIndNe, hIndAddr, setBlock_disk,
        update_self, hIndBlock,
        addrAt_putLE _ hb32 hj]
      by_cases hEq : j' = j
      · rw [if_pos hEq, hEq, if_pos rfl]
      · rw [if_neg hEq, if_neg (by omega)]
    · have hNe : q ≠ NDIRECT + 1 + j := by
        simp only [NADDR] at hq
        omega
      rw [own_of_le (Nat.le_of_not_lt hq),
        own_of_le (Nat.le_of_not_lt hq), if_neg hNe]
  have hZero : ownOf (s.ino sb) s.disk (i, NDIRECT + 1 + j) = 0 := by
    rw [h.own_eq hValid, own_entry hType hj, if_neg hIndNe, hIndAddr, hEmpty]
  have hc : Change sb i (s.copy i) s ((s.alloc sb b).setBlock ind
          (((s.alloc sb b).disk ind).putLE (4 * j) 4 b)) :=
    { table := (update_eq_self i s.itable).symm
      used := rfl
      dinodes := fun j hj => by
        rw [setBlock_disk, dinode_update _ _ hIndData hj]
        exact alloc_dinode hb hj
      metadata := fun c hc => by
        have hSize := hb.1.trans_lt hb.2
        rw [setBlock_disk, bit_update _ _ hIndData (by omega)]
        exact alloc_metadata hb hc
      type := hType
      frame := fun j q hji hk => hOther (j, q) hk (fun hEq => hji (congrArg Prod.fst hEq)) }
  have hStep :=
    h.stepPos hValid hc ⟨rfl, rfl, rfl, rfl, rfl⟩ hOwn
      (fun q hq _ hk => by
        have hEq := hOther (i, q)
        rw [h.own_eq hValid] at hEq
        exact hEq hk (fun hc => hq (congrArg Prod.snd hc)))
      ((hOwns.take hZero hb hFree).congr (fun _ => rfl) (fun c hc => by
          rw [setBlock_disk, bit_update _ _ hIndData hc.2]
          exact alloc_bit hb hc.2))
  have hbInd : b ≠ ind := by
    rw [← hInd]
    exact (hOwns.own_ne hb hFree _).symm
  have hBlock : blockAt ((s.alloc sb b).setBlock ind
            (((s.alloc sb b).disk ind).putLE (4 * j) 4 b)).disk b =
        some Bytes.zero := by
    rw [blockAt, if_neg hb.ne_zero, setBlock_disk, update_of_ne hbInd, alloc_self]
  rw [← hBlock]
  exact hStep

end At

-------
-- Rules for the Block Map
-------

/- The same file with its `bn`th block mapped. -/
def File.ensure (f : File) (bn : Nat) : File :=
  { f with
    blocks := update f.blocks bn (some ((f.blocks bn).getD Bytes.zero)) }

theorem File.ensure_blocks (f : File) (bn : Nat) :
    (f.ensure bn).blocks bn = some ((f.blocks bn).getD Bytes.zero) :=
  update_self ..

theorem File.ensure_of_mapped {f : File} {bn : Nat} {x : Block} (hx : f.blocks bn = some x) :
    f.ensure bn = f := by
  unfold ensure
  rw [hx, Option.getD_some, ← hx, update_eq_self]

theorem File.ensure_of_unmapped
    {f : File} {bn : Nat} (hbn : bn < MAXFILE) (hNone : f.blocks bn = none) :
    f.ensure bn = f.setPos (pos bn) (some Bytes.zero) := by
  rw [File.setPos_pos f _ hbn, ensure, hNone, Option.getD_none]

theorem blockAt_of_ne (d : Disk) {a : Nat} (ha : a ≠ 0) : blockAt d a = some (d a) := if_neg ha

theorem blockAt_eq_none_iff (d : Disk) (a : Nat) : blockAt d a = none ↔ a = 0 := by
  unfold blockAt
  by_cases ha : a = 0
  · simp [ha]
  · simp [ha]

section Rules

variable {sb : Superblock} {i : Nat} {s : Fs} {v : View File}
variable {Q : Nat → Fs → Prop} {E : Halt → Fs → Prop}

section

variable (h : At sb (some i) s v) (hValid : v.valid i = true)
include h hValid

theorem bmapAddr_rule (p : Fin (NDIRECT + 1))
    (hOld : ownOf (s.ino sb) s.disk (i, p.1) ≠ 0 → Q (ownOf (s.ino sb) s.disk (i, p.1)) s)
    (hNew : ∀ b s', ownOf (s.ino sb) s.disk (i, p.1) = 0 → At sb (some i) s' (v.setFile i
            ((v.file i).setPos p.1 (some Bytes.zero))) →
        b ≠ 0 →
        ownOf (s'.ino sb) s'.disk (i, p.1) = b →
        Q b s')
    (hFull : v.Full sb → ownOf (s.ino sb) s.disk (i, p.1) = 0 → Q 0 s) :
    wp (bmapAddr sb i p) Q E s := by
  have hOwn : ownOf (s.ino sb) s.disk (i, p.1) = ((s.copy i).addrs p).toNat := by
    rw [h.own_eq hValid, own_direct (h.copy_type hValid)]
  unfold bmapAddr
  rw [wp_bind, wp_read, wp_ite]
  constructor
  · intro hEmpty
    have hZero : ownOf (s.ino sb) s.disk (i, p.1) = 0 := by
      rw [hOwn, hEmpty]
      rfl
    rw [wp_bind]
    apply balloc_rule h
    · intro b hb hFree
      rw [if_neg hb.ne_zero, wp_bind, wp_edit, wp_pure]
      have hMap := h.mapAddr hValid p hEmpty hb hFree
      exact hNew b _ hZero hMap.1 hb.ne_zero hMap.2
    · intro hF
      rw [if_pos rfl, wp_pure]
      exact hFull hF hZero
  · intro hSome
    rw [wp_pure, ← hOwn]
    apply hOld
    rw [hOwn]
    intro hZero
    exact hSome (BitVec.eq_of_toNat_eq hZero)

theorem bmapEntry_rule {ind j : Nat}
    (hInd : ownOf (s.ino sb) s.disk (i, NDIRECT) = ind) (hInd0 : ind ≠ 0) (hj : j < NINDIRECT)
    (hOld : ownOf (s.ino sb) s.disk (i, NDIRECT + 1 + j) ≠ 0 →
        Q (ownOf (s.ino sb) s.disk (i, NDIRECT + 1 + j)) s)
    (hNew : ∀ b s', ownOf (s.ino sb) s.disk (i, NDIRECT + 1 + j) = 0 →
        At sb (some i) s' (v.setFile i ((v.file i).setPos (NDIRECT + 1 + j) (some Bytes.zero))) →
        b ≠ 0 →
        ownOf (s'.ino sb) s'.disk (i, NDIRECT + 1 + j) = b →
        Q b s')
    (hFull : v.Full sb → ownOf (s.ino sb) s.disk (i, NDIRECT + 1 + j) = 0 → Q 0 s) :
    wp (bmapEntry sb ind j) Q E s := by
  have hType := h.copy_type hValid
  have hIndAddr : ((s.copy i).addrs indirect).toNat = ind := by
    rw [← hInd, h.own_eq hValid]
    exact (own_direct hType indirect).symm
  have hIndNe : (s.copy i).addrs indirect ≠ 0 := by
    intro hZero
    rw [hZero] at hIndAddr
    exact hInd0 hIndAddr.symm
  have hOwn : ownOf (s.ino sb) s.disk (i, NDIRECT + 1 + j) = addrAt (s.disk ind) j := by
    rw [h.own_eq hValid, own_entry hType hj, if_neg hIndNe, hIndAddr]
  unfold bmapEntry
  rw [wp_bind, wp_read, wp_ite]
  constructor
  · intro hEmpty
    rw [wp_bind]
    apply balloc_rule h
    · intro b hb hFree
      rw [if_neg hb.ne_zero, wp_bind, wp_edit, wp_pure]
      have hMap := h.mapEntry hValid hInd hInd0 hj hEmpty hb hFree
      exact hNew b _ (hOwn.trans hEmpty) hMap.1 hb.ne_zero hMap.2
    · intro hF
      rw [if_pos rfl, wp_pure]
      exact hFull hF (hOwn.trans hEmpty)
  · intro hSome
    rw [wp_pure, ← hOwn]
    apply hOld
    rw [hOwn]
    exact hSome

/-
  `bmap` returns the address of the block, mapping it first
  if necessary, or fails on a full disk.
-/
theorem bmap_rule {bn : Nat} (hbn : bn < MAXFILE)
    (hMapped : ∀ a s', a ≠ 0 → At sb (some i) s' (v.setFile i ((v.file i).ensure bn)) →
        ownOf (s'.ino sb) s'.disk (i, pos bn) = a →
        Q a s')
    (hFull : ∀ s', v.Full sb → (v.file i).blocks bn = none → At sb (some i) s' v → Q 0 s') :
    wp (bmap sb i bn) Q E s := by
  have hBlocks {s' : Fs} (h' : At sb (some i) s' v) := h'.blocks_eq hValid hbn
  -- what to do with a mapped block
  have hOld {s' : Fs} (h' : At sb (some i) s' v)
      (hOwn : ownOf (s'.ino sb) s'.disk (i, pos bn) ≠ 0) :
      Q (ownOf (s'.ino sb) s'.disk (i, pos bn)) s' := by
    apply hMapped _ s' hOwn _ rfl
    have hSome := hBlocks h'
    rw [blockAt_of_ne _ hOwn] at hSome
    rw [File.ensure_of_mapped hSome, View.setFile_self]
    exact h'
  -- what to do with a block that has just been mapped
  have hNew {s' : Fs} (h' : At sb (some i) s' v) (b : Nat) (s'' : Fs)
      (hOwn : ownOf (s'.ino sb) s'.disk (i, pos bn) = 0)
      (hAt : At sb (some i) s'' (v.setFile i ((v.file i).setPos (pos bn) (some Bytes.zero))))
      (hb : b ≠ 0)
      (hOwn' : ownOf (s''.ino sb) s''.disk (i, pos bn) = b) :
      Q b s'' := by
    apply hMapped b s'' hb _ hOwn'
    have hNone := hBlocks h'
    rw [hOwn] at hNone
    rw [File.ensure_of_unmapped hbn hNone]
    exact hAt
  have hNone {s' : Fs} (h' : At sb (some i) s' v)
      (hOwn : ownOf (s'.ino sb) s'.disk (i, pos bn) = 0) :
      (v.file i).blocks bn = none := by
    rw [hBlocks h', hOwn]
    rfl
  unfold bmap
  by_cases hDirect : bn < NDIRECT
  · have hPos : pos bn = bn := if_pos hDirect
    rw [hPos] at hOld hNew hNone
    rw [dif_pos hDirect]
    exact bmapAddr_rule h hValid ⟨bn, Nat.lt_succ_of_lt hDirect⟩ (hOld h) (hNew h)
      (fun hF hOwn => hFull s hF (hNone h hOwn) h)
  have hj : bn - NDIRECT < NINDIRECT := by
    simp only [MAXFILE] at hbn
    omega
  have hPos : pos bn = NDIRECT + 1 + (bn - NDIRECT) := by
    rw [pos, if_neg hDirect]
    omega
  rw [hPos] at hOld hNew hNone
  -- the second half, once there is an indirect block
  have hEntry {s' : Fs} {ind : Nat} (h' : At sb (some i) s' v)
      (hInd : ownOf (s'.ino sb) s'.disk (i, NDIRECT) = ind)
      (hInd0 : ind ≠ 0) :
      wp (bmapEntry sb ind (bn - NDIRECT)) Q E s' :=
    bmapEntry_rule h' hValid hInd hInd0 hj (hOld h') (hNew h')
      (fun hF hOwn => hFull s' hF (hNone h' hOwn) h')
  rw [dif_neg hDirect, if_pos hj, wp_bind]
  apply bmapAddr_rule h hValid indirect
  · intro hInd0
    rw [if_neg hInd0]
    exact hEntry h rfl hInd0
  · intro ind s' _ h' hInd0 hInd
    have hv : (v.setFile i ((v.file i).setPos indirect.1 (some Bytes.zero))) = v := by
      have hSame := (v.file i).setPos_indirect (some Bytes.zero)
      exact (congrArg (v.setFile i) hSame).trans (v.setFile_self i)
    rw [hv] at h'
    rw [if_neg hInd0]
    exact hEntry h' hInd hInd0
  · intro hF hOwn
    have hType := h.copy_type hValid
    have hInd : (s.copy i).addrs indirect = 0 := by
      rw [h.own_eq hValid, own_direct hType] at hOwn
      exact BitVec.eq_of_toNat_eq hOwn
    rw [if_pos rfl, wp_pure]
    refine hFull s hF (hNone h ?_) h
    rw [h.own_eq hValid, own_entry hType hj, if_pos hInd]

end

/- A mapped block is found without any change. -/
theorem bmap_of_mapped {dirty : Option Nat} (h : At sb dirty s v) (hValid : v.valid i = true)
    {bn : Nat} (hbn : bn < MAXFILE) (hOwn : ownOf (s.ino sb) s.disk (i, pos bn) ≠ 0)
    (hQ : Q (ownOf (s.ino sb) s.disk (i, pos bn)) s) : wp (bmap sb i bn) Q E s := by
  have hType := h.copy_type hValid
  have hAddr (p : Fin (NDIRECT + 1)) (hp : ownOf (s.ino sb) s.disk (i, p.1) ≠ 0)
      {Q' : Nat → Fs → Prop}
      (hQ' : Q' (ownOf (s.ino sb) s.disk (i, p.1)) s) :
      wp (bmapAddr sb i p) Q' E s := by
    rw [h.own_eq hValid, own_direct hType] at hp hQ'
    have hNe : (s.copy i).addrs p ≠ 0 := by
      intro hZero
      rw [hZero] at hp
      exact hp rfl
    unfold bmapAddr
    rw [wp_bind, wp_read, if_neg hNe, wp_pure]
    exact hQ'
  unfold bmap
  by_cases hDirect : bn < NDIRECT
  · have hPos : pos bn = bn := if_pos hDirect
    rw [hPos] at hOwn hQ
    rw [dif_pos hDirect]
    exact hAddr ⟨bn, Nat.lt_succ_of_lt hDirect⟩ hOwn hQ
  have hj : bn - NDIRECT < NINDIRECT := by
    simp only [MAXFILE] at hbn
    omega
  have hPos : pos bn = NDIRECT + 1 + (bn - NDIRECT) := by
    rw [pos, if_neg hDirect]
    omega
  have hEntry : ownOf (s.ino sb) s.disk (i, pos bn) =
        if (s.copy i).addrs indirect = 0 then 0
        else
          addrAt (s.disk ((s.copy i).addrs indirect).toNat) (bn - NDIRECT) := by
    rw [hPos, h.own_eq hValid, own_entry hType hj]
  have hIndNe : (s.copy i).addrs indirect ≠ 0 := by
    intro hZero
    rw [hEntry, if_pos hZero] at hOwn
    exact hOwn rfl
  have hInd : ownOf (s.ino sb) s.disk (i, indirect.1) = ((s.copy i).addrs indirect).toNat := by
    rw [h.own_eq hValid, own_direct hType]
  have hIndOwn : ownOf (s.ino sb) s.disk (i, indirect.1) ≠ 0 := by
    rw [hInd]
    intro hZero
    exact hIndNe (BitVec.eq_of_toNat_eq hZero)
  rw [if_neg hIndNe] at hEntry
  rw [dif_neg hDirect, if_pos hj, wp_bind]
  apply hAddr indirect hIndOwn
  rw [if_neg hIndOwn, hInd]
  unfold bmapEntry
  rw [wp_bind, wp_read, ← hEntry, if_neg hOwn, wp_pure]
  exact hQ

end Rules

-------
-- Writing a Block
-------

/- Change the contents of a mapped block. -/
theorem At.write {sb : Superblock} {i bn : Nat} {s : Fs} {v : View File}
    (h : At sb (some i) s v) (hValid : v.valid i = true) (hbn : bn < MAXFILE)
    (hOwn : ownOf (s.ino sb) s.disk (i, pos bn) ≠ 0) (x : Block) :
    At sb (some i) (s.setBlock (ownOf (s.ino sb) s.disk (i, pos bn)) x) (v.setFile i
        { v.file i with
          blocks := update (v.file i).blocks bn (some x) }) := by
  have hType := h.copy_type hValid
  have hData := h.inv.owns.inArea _ hOwn
  have hOther (k : Nat × Nat) (hk : ownOf (s.ino sb) s.disk k ≠ 0) (hNe : k ≠ (i, pos bn)) :
      (s.setBlock (ownOf (s.ino sb) s.disk (i, pos bn)) x).disk (ownOf (s.ino sb) s.disk k) =
        s.disk (ownOf (s.ino sb) s.disk k) := by
    rw [setBlock_disk, update_of_ne (h.own_ne_of_ne hk hNe)]
  have hSelf (q : Nat) (hq : q ≠ pos bn) (hk : (s.copy i).own s.disk q ≠ 0) :
      (s.setBlock (ownOf (s.ino sb) s.disk (i, pos bn)) x).disk ((s.copy i).own s.disk q) =
        s.disk ((s.copy i).own s.disk q) := by
    have hEq := hOther (i, q)
    rw [h.own_eq hValid q] at hEq
    exact hEq hk (fun hc => hq (congrArg Prod.snd hc))
  have hc : Change sb i (s.copy i) s (s.setBlock (ownOf (s.ino sb) s.disk (i, pos bn)) x) :=
    { table := (update_eq_self i s.itable).symm
      used := rfl
      dinodes := fun j hj => dinode_update _ _ hData hj
      metadata := fun c hc =>
        bit_update _ _ hData (hc.trans (hData.1.trans_lt hData.2))
      type := hType
      frame := fun j q hji hk => hOther (j, q) hk (fun hEq => hji (congrArg Prod.fst hEq)) }
  have hOwnSame (q : Nat) : (s.copy i).own (s.setBlock
            (ownOf (s.ino sb) s.disk (i, pos bn)) x).disk q =
        if q = pos bn then
          ownOf (s.ino sb) s.disk (i, pos bn)
        else (s.copy i).own s.disk q := by
    rw [own_congr (hSelf NDIRECT (pos_ne_indirect bn).symm) q]
    by_cases hq : q = pos bn
    · rw [if_pos hq, hq, h.own_eq hValid]
    · rw [if_neg hq]
  have hStep :=
    h.stepPos hValid hc ⟨rfl, rfl, rfl, rfl, rfl⟩ hOwnSame (fun q _ hq hk => hSelf q hq hk)
      (h.inv.owns.congr (fun k => by rw [update_eq_self]) (fun c hc =>
          bit_update _ _ hData hc.2))
  have hBlock := hStep.1
  rw [blockAt_of_ne _ hOwn, setBlock_disk, update_self, File.setPos_pos _ _ hbn] at hBlock
  exact hBlock

end Xv6
