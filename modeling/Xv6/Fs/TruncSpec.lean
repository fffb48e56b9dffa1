import Xv6.Fs.BlockSpec

/-
  Changing an inode in memory, writing it back, and
  truncating it.

  Main rules are:
    * `At.setMeta`
    * `At.sync`
    * `itrunc_rule`
-/

open Prog (wp wp_bind wp_edit wp_imp wp_ite wp_pure wp_read)

open Function Xv6.Dinode Xv6.Superblock

-------
-- Fields Other Than Addresses
-------

namespace Xv6

namespace At

variable {sb : Superblock} {i : Nat} {s : Fs} {v : View File}

/- Before an inode is changed in memory. -/
theorem dirty (h : At sb none s v) (i : Nat) : At sb (some i) s v := by
  refine ⟨?_, h.view⟩
  exact
    { h.inv with
      shaped := fun j _ => h.inv.shaped j (by simp)
      synced := fun j _ => h.inv.synced j (by simp) }

section

variable (h : At sb (some i) s v) (hValid : v.valid i = true)
include h hValid

/- Change fields other than the addresses. -/
theorem setMeta (di : Dinode) (hAddrs : di.addrs = (s.copy i).addrs) (hType : di.type ≠ 0) :
    At sb (some i) (s.setCopy i di) (v.setFile i
        { v.file i with
          type := di.type
          major := di.major
          minor := di.minor
          nlink := di.nlink
          size := di.size }) := by
  have hType' := h.copy_type hValid
  have hOwn (q : Nat) : di.own s.disk q = (s.copy i).own s.disk q := by
    have hAddr : di.addr s.disk q = (s.copy i).addr s.disk q := by
      unfold addr
      rw [hAddrs]
    by_cases hq : q < NADDR
    · rw [own_of_type hType hq, own_of_type hType' hq, hAddr]
    · rw [own_of_le (Nat.le_of_not_lt hq), own_of_le (Nat.le_of_not_lt hq)]
  have hc : Change sb i di s (s.setCopy i di) :=
    { table := rfl
      used := rfl
      dinodes := fun _ _ => rfl
      metadata := fun _ _ => rfl
      type := hType
      frame := fun _ _ _ _ => rfl }
  have hFile : di.file s.disk =
        { v.file i with
          type := di.type
          major := di.major
          minor := di.minor
          nlink := di.nlink
          size := di.size } := by
    rw [h.file_eq hValid, file_of_type hType, file_of_type hType']
    simp only [hOwn]
  rw [← hFile]
  apply h.step hValid hc
  apply h.inv.owns.congr
  · intro k
    by_cases hk : k.1 = i
    · rw [if_pos hk, Fs.setCopy_disk, hOwn, ← h.own_eq hValid, ← hk]
    · rw [if_neg hk]
  · intro _ _
    rfl

theorem setSize (size : BitVec 32) :
    At sb (some i) (s.setCopy i { s.copy i with size := size })
      (v.setFile i { v.file i with size := size }) := by
  have hSet :=
    h.setMeta hValid { s.copy i with size := size } rfl (h.copy_type hValid)
  have hFile :
      { v.file i with size := size } =
        { v.file i with
          type := (s.copy i).type
          major := (s.copy i).major
          minor := (s.copy i).minor
          nlink := (s.copy i).nlink
          size := size } :=
    File.ext (h.type_eq hValid) (h.major_eq hValid) (h.minor_eq hValid) (h.nlink_eq hValid) rfl rfl
  rw [hFile]
  exact hSet

theorem setNlink (nlink : BitVec 16) :
    At sb (some i) (s.setCopy i { s.copy i with nlink := nlink })
      (v.setFile i { v.file i with nlink := nlink }) := by
  have hSet :=
    h.setMeta hValid { s.copy i with nlink := nlink } rfl (h.copy_type hValid)
  have hFile :
      { v.file i with nlink := nlink } =
        { v.file i with
          type := (s.copy i).type
          major := (s.copy i).major
          minor := (s.copy i).minor
          nlink := nlink
          size := (s.copy i).size } :=
    File.ext (h.type_eq hValid) (h.major_eq hValid) (h.minor_eq hValid) rfl (h.size_eq hValid) rfl
  rw [hFile]
  exact hSet

/- Write the changed inode back to disk. -/
theorem sync (hShaped : (v.file i).Shaped) :
    At sb none
      { s with
        disk := sb.putDinode s.disk i (s.copy i) } v := by
  have hi := h.lt_ninodes hValid
  have hActive := h.active hValid
  have hIno : Fs.ino sb
        { s with
          disk := sb.putDinode s.disk i (s.copy i) } =
        s.ino sb := by
    funext j
    by_cases hji : j = i
    · subst hji
      rw [Fs.ino_of_active hi hActive]
      exact Fs.ino_of_active hi hActive
    · unfold Fs.ino
      rw [dinode_putDinode_ne _ _ hji]
      rfl
  have hFrame (k : Nat × Nat) (hk : ownOf (s.ino sb) s.disk k ≠ 0) :
      sb.putDinode s.disk i (s.copy i) (ownOf (s.ino sb) s.disk k) =
        s.disk (ownOf (s.ino sb) s.disk k) :=
    putDinode_of_inData _ _ hi (h.inv.owns.inArea k hk)
  have hOwn (k : Nat × Nat) : ownOf (s.ino sb) (sb.putDinode s.disk i (s.copy i)) k =
        ownOf (s.ino sb) s.disk k :=
    own_congr (hFrame (k.1, NDIRECT)) k.2
  have hFile (j : Nat) : fileOf (s.ino sb) (sb.putDinode s.disk i (s.copy i)) j =
        fileOf (s.ino sb) s.disk j :=
    file_congr (fun q => hFrame (j, q))
  have hBit (b : Nat) : sb.bit (sb.putDinode s.disk i (s.copy i)) b = sb.bit s.disk b :=
    bit_putDinode _ _ b hi
  constructor
  · exact
      { owns := by
          rw [hIno]
          exact h.inv.owns.congr hOwn (fun b _ => hBit b)
        metadata := fun b hb => by
          rw [hBit]
          exact h.inv.metadata b hb
        shaped := fun j _ => by
          rw [hIno, hFile]
          by_cases hji : j = i
          · subst hji
            rw [h.file]
            exact hShaped
          · exact h.inv.shaped j (fun hEq => hji (Option.some.inj hEq))
        synced := fun j _ hPos hVal => by
          by_cases hji : j = i
          · subst hji
            exact dinode_putDinode_self ..
          · rw [dinode_putDinode_ne _ _ hji]
            exact h.inv.synced j (fun hEq => hji (Option.some.inj hEq)) hPos hVal
        nonneg := h.inv.nonneg
        ranged := h.inv.ranged
        live := h.inv.live
        used := h.inv.used }
  · rw [← h.view]
    apply View.ext
    · change fileOf (Fs.ino sb _) _ = _
      rw [hIno]
      exact funext hFile
    · rfl
    · rfl

end

end At

-------
-- Freeing Blocks
-------

section Free

variable {sb : Superblock} {i : Nat} {s : Fs} {v : View File}
variable {Q : Unit → Fs → Prop} {E : Halt → Fs → Prop}

theorem bfree_rule {b : Nat} (hUsed : sb.bit s.disk b = true)
    (hQ : Q () { s with disk := sb.setBit s.disk b false }) : wp (bfree sb b) Q E s := by
  unfold bfree
  rw [wp_bind, wp_read, hUsed, if_neg (by simp), wp_edit]
  exact hQ

/- The blocks before `m` are not mapped. -/
def File.clear (f : File) (m : Nat) : File :=
  { f with
    blocks := fun bn => if bn < m then none else f.blocks bn }

@[simp] theorem File.clear_zero (f : File) : f.clear 0 = f := by simp [clear]

theorem File.clear_succ (f : File) {m : Nat} (hm : m < NDIRECT) :
    (f.clear m).setPos m none = f.clear (m + 1) := by
  have hPos : pos m = m := if_pos hm
  have hLt : m < MAXFILE := Nat.lt_add_right _ hm
  have hSet := (f.clear m).setPos_pos none hLt
  rw [hPos] at hSet
  rw [hSet]
  unfold clear
  congr
  funext bn
  by_cases hbn : bn = m
  · subst hbn
    rw [update_self, if_pos (Nat.lt_succ_self bn)]
  rw [update_of_ne hbn]
  dsimp only
  by_cases hLow : bn < m
  · rw [if_pos hLow, if_pos (Nat.lt_succ_of_lt hLow)]
  · rw [if_neg hLow, if_neg (by omega)]

/- Free a direct block. -/
theorem itruncDirect_rule (h : At sb (some i) s v) (hValid : v.valid i = true) {j : Nat}
    (hj : j < NDIRECT)
    (hQ : ∀ s', At sb (some i) s' (v.setFile i ((v.file i).setPos j none)) → Q () s') :
    wp (itruncDirect sb i j) Q E s := by
  have hType := h.copy_type hValid
  have hOwns := h.inv.owns
  have hj' : j < NDIRECT + 1 := Nat.lt_succ_of_lt hj
  have hOwn : ownOf (s.ino sb) s.disk (i, j) = ((s.copy i).addrs ⟨j, hj'⟩).toNat := by
    rw [h.own_eq hValid]
    exact own_direct hType ⟨j, hj'⟩
  unfold itruncDirect itruncAddr
  rw [dif_pos hj, wp_bind, wp_read, wp_ite]
  constructor
  · intro hEmpty
    rw [wp_pure]
    apply hQ
    have hPos : pos j = j := if_pos hj
    have hLt : j < MAXFILE := Nat.lt_add_right _ hj
    have hNone : (v.file i).blocks j = none := by
      rw [h.blocks_eq hValid hLt, hPos, hOwn, hEmpty]
      rfl
    have hSet := (v.file i).setPos_pos none hLt
    rw [hPos, ← hNone, update_eq_self, hNone] at hSet
    rw [hSet, View.setFile_self]
    exact h
  intro hSome
  have hOwn0 : ownOf (s.ino sb) s.disk (i, j) ≠ 0 := by
    rw [hOwn]
    intro hZero
    exact hSome (BitVec.eq_of_toNat_eq hZero)
  have hData := hOwns.inArea _ hOwn0
  rw [← hOwn, wp_bind]
  apply bfree_rule (hOwns.used_own hOwn0)
  rw [wp_edit]
  apply hQ
  have hFrame (k : Nat × Nat) (hk : ownOf (s.ino sb) s.disk k ≠ 0) :
      sb.setBit s.disk (ownOf (s.ino sb) s.disk (i, j)) false (ownOf (s.ino sb) s.disk k) =
        s.disk (ownOf (s.ino sb) s.disk k) :=
    setBit_of_inData _ _ hData.2 (hOwns.inArea k hk)
  have hSelf (q : Nat) (hq : (s.copy i).own s.disk q ≠ 0) :
      sb.setBit s.disk (ownOf (s.ino sb) s.disk (i, j)) false ((s.copy i).own s.disk q) =
        s.disk ((s.copy i).own s.disk q) := by
    have hEq := hFrame (i, q)
    rw [h.own_eq hValid q] at hEq
    exact hEq hq
  have hNotInd : (⟨j, hj'⟩ : Fin (NDIRECT + 1)) ≠ indirect := by
    intro hEq
    have hVal := congrArg Fin.val hEq
    exact Nat.ne_of_lt hj hVal
  have hc : Change sb i ((s.copy i).setAddr ⟨j, hj'⟩ 0) s (Fs.setCopy
          { s with
            disk := sb.setBit s.disk (ownOf (s.ino sb) s.disk (i, j)) false }
          i ((s.copy i).setAddr ⟨j, hj'⟩ 0)) :=
    { table := rfl
      used := rfl
      dinodes := fun k hk => dinode_setBit _ _ _ hk
      metadata := fun c hc => by
        have hLow := hData.1
        rw [Fs.setCopy_disk, bit_setBit, if_neg (by omega)]
      type := hType
      frame := fun k q _ hk => hFrame (k, q) hk }
  have hStep :=
    h.stepPos hValid hc (sameMeta_setAddr ..) (fun q => by
        rw [own_setAddr hType _ (by decide) (fun hEq => absurd hEq hNotInd), Fs.setCopy_disk,
          own_congr (hSelf NDIRECT)])
      (fun q _ _ hq => hSelf q hq)
      ((hOwns.drop hOwn0).congr (fun _ => rfl) (fun c _ => by
          rw [Fs.setCopy_disk, bit_setBit, update_apply]))
  exact hStep.1

end Free

-------
-- Freeing the Indirect Block
-------

/-
  The first `m` entries of the indirect block of `i` have
  been freed. They are still listed in the block.
-/
structure Freeing (sb : Superblock) (i : Nat) (s : Fs) (m : Nat) (s' : Fs) : Prop where
  table : s'.itable = s.itable
  used : s'.used = s.used
  dinodes : ∀ j, j < sb.ninodes → sb.dinode s'.disk j = sb.dinode s.disk j
  metadata : ∀ b, b < sb.dataStart → sb.bit s'.disk b = sb.bit s.disk b
  data : ∀ b, sb.InData b → s'.disk b = s.disk b
  owns : Owns (fun k =>
        if k.1 = i ∧ NDIRECT < k.2 ∧ k.2 ≤ NDIRECT + m
        then 0 else ownOf (s.ino sb) s.disk k)
      sb.InData (sb.bit s'.disk)

section Indirect

variable {sb : Superblock} {i : Nat} {s s' : Fs} {v : View File}
variable {Q : Unit → Fs → Prop} {E : Halt → Fs → Prop}

/- Freeing one more block. -/
theorem Freeing.setBit {m : Nat} (hf : Freeing sb i s m s') {b : Nat} (hb : sb.InData b)
    (own : Nat × Nat → Nat) (hOwns : Owns own sb.InData (update (sb.bit s'.disk) b false))
    (hOwn : ∀ k, own k =
        if k.1 = i ∧ NDIRECT < k.2 ∧ k.2 ≤ NDIRECT + (m + 1)
        then 0 else ownOf (s.ino sb) s.disk k) :
    Freeing sb i s (m + 1)
      { s' with disk := sb.setBit s'.disk b false } where
  table := hf.table
  used := hf.used
  dinodes := fun j hj => by
    rw [dinode_setBit _ _ _ hj]
    exact hf.dinodes j hj
  metadata := fun c hc => by
    have hLow := hb.1
    rw [bit_setBit, if_neg (by omega)]
    exact hf.metadata c hc
  data := fun c hc =>
    (setBit_of_inData _ _ hb.2 hc).trans (hf.data c hc)
  owns :=
    hOwns.congr (fun k => (hOwn k).symm) (fun c _ => by rw [bit_setBit, update_apply])

/- One round of the loop over the indirect block. -/
theorem itruncEntry_rule (h : At sb (some i) s v) (hValid : v.valid i = true) {ind j : Nat}
    (hInd : ownOf (s.ino sb) s.disk (i, NDIRECT) = ind) (hInd0 : ind ≠ 0)
    (hj : j < NINDIRECT) (hf : Freeing sb i s j s') :
    wp (itruncEntry sb ind j) (fun _ s'' => Freeing sb i s (j + 1) s'') E s' := by
  have hType := h.copy_type hValid
  have hIndData : sb.InData ind := by
    have hArea := h.inv.owns.inArea (i, NDIRECT)
    rw [hInd] at hArea
    exact hArea hInd0
  have hIndAddr : ((s.copy i).addrs indirect).toNat = ind := by
    rw [← hInd, h.own_eq hValid]
    exact (own_direct hType indirect).symm
  have hIndNe : (s.copy i).addrs indirect ≠ 0 := by
    intro hZero
    rw [hZero] at hIndAddr
    exact hInd0 hIndAddr.symm
  have hEntry : addrAt (s'.disk ind) j = ownOf (s.ino sb) s.disk (i, NDIRECT + 1 + j) := by
    rw [hf.data ind hIndData, h.own_eq hValid, own_entry hType hj, if_neg hIndNe, hIndAddr]
  -- the entry is still owned before this round
  have hCur : (if (i, NDIRECT + 1 + j).1 = i ∧ NDIRECT < (i, NDIRECT + 1 + j).2 ∧
          (i, NDIRECT + 1 + j).2 ≤ NDIRECT + j then 0
        else ownOf (s.ino sb) s.disk (i, NDIRECT + 1 + j)) =
      ownOf (s.ino sb) s.disk (i, NDIRECT + 1 + j) :=
    if_neg (by omega)
  -- and every other place is owned after it as before
  have hNext (k : Nat × Nat) (hk : k ≠ (i, NDIRECT + 1 + j)) :
      (if k.1 = i ∧ NDIRECT < k.2 ∧ k.2 ≤ NDIRECT + (j + 1) then 0
        else ownOf (s.ino sb) s.disk k) =
      (if k.1 = i ∧ NDIRECT < k.2 ∧ k.2 ≤ NDIRECT + j then 0
        else ownOf (s.ino sb) s.disk k) := by
    have hIff : (k.1 = i ∧ NDIRECT < k.2 ∧ k.2 ≤ NDIRECT + (j + 1)) ↔
        (k.1 = i ∧ NDIRECT < k.2 ∧ k.2 ≤ NDIRECT + j) := by
      constructor
      · rintro ⟨hki, hLow, hHigh⟩
        refine ⟨hki, hLow, ?_⟩
        have hNe : k.2 ≠ NDIRECT + 1 + j := by
          intro hEq
          exact hk (Prod.ext hki hEq)
        omega
      · rintro ⟨hki, hLow, hHigh⟩
        exact ⟨hki, hLow, by omega⟩
    by_cases hc : k.1 = i ∧ NDIRECT < k.2 ∧ k.2 ≤ NDIRECT + j
    · rw [if_pos hc, if_pos (hIff.mpr hc)]
    · rw [if_neg hc, if_neg (fun hc' => hc (hIff.mp hc'))]
  have hSelf : (if (i, NDIRECT + 1 + j).1 = i ∧ NDIRECT < (i, NDIRECT + 1 + j).2 ∧
          (i, NDIRECT + 1 + j).2 ≤ NDIRECT + (j + 1) then 0
        else ownOf (s.ino sb) s.disk (i, NDIRECT + 1 + j)) = 0 :=
    if_pos ⟨rfl, by omega, by omega⟩
  unfold itruncEntry
  rw [wp_bind, wp_read, hEntry, wp_ite]
  constructor
  · intro hZero
    rw [wp_pure]
    refine ⟨hf.table, hf.used, hf.dinodes, hf.metadata, hf.data, ?_⟩
    apply hf.owns.congr _ (fun _ _ => rfl)
    intro k
    by_cases hk : k = (i, NDIRECT + 1 + j)
    · subst hk
      rw [hSelf, hCur, hZero]
    · exact hNext k hk
  intro hOwn0
  have hDrop := hf.owns.drop (k := (i, NDIRECT + 1 + j))
  rw [hCur] at hDrop
  have hUsed := hf.owns.used_own (k := (i, NDIRECT + 1 + j))
  rw [hCur] at hUsed
  apply bfree_rule (hUsed hOwn0)
  apply hf.setBit (h.inv.owns.inArea _ hOwn0) _ (hDrop hOwn0)
  intro k
  by_cases hk : k = (i, NDIRECT + 1 + j)
  · subst hk
    rw [update_self, hSelf]
  · rw [update_of_ne hk, hNext k hk]

/- Without an indirect block there are no entries. -/
theorem Dinode.own_of_no_indirect {di : Dinode} {d : Disk} (hType : di.type ≠ 0)
    (hEmpty : di.addrs indirect = 0) {bn : Nat} (hbn : ¬ bn < NDIRECT) : di.own d (pos bn) = 0 := by
  have hPos : pos bn = NDIRECT + 1 + (bn - NDIRECT) := by
    rw [pos, if_neg hbn]
    omega
  by_cases hj : bn - NDIRECT < NINDIRECT
  · rw [hPos, own_entry hType hj, if_pos hEmpty]
  · apply own_of_le
    simp only [NADDR]
    omega

/- The file without its indirect blocks. -/
def File.keepDirect (f : File) : File :=
  { f with
    blocks := fun bn => if bn < NDIRECT then f.blocks bn else none }

/- The end of the loop: the indirect block itself. -/
theorem Freeing.itruncAddr_rule (hf : Freeing sb i s NINDIRECT s') (h : At sb (some i) s v)
    (hValid : v.valid i = true)
    (hInd : ownOf (s.ino sb) s.disk (i, NDIRECT) = ((s.copy i).addrs indirect).toNat)
    (hInd0 : ((s.copy i).addrs indirect).toNat ≠ 0)
    (hQ : ∀ s', At sb (some i) s' (v.setFile i (v.file i).keepDirect) →
        (s'.copy i).addrs indirect = 0 →
        Q () s') : wp (itruncAddr sb i indirect) Q E s' := by
  have hType := h.copy_type hValid
  have hCopy : s'.copy i = s.copy i := by rw [Fs.copy, Fs.copy, hf.table]
  have hCur : (if (i, NDIRECT).1 = i ∧ NDIRECT < (i, NDIRECT).2 ∧
          (i, NDIRECT).2 ≤ NDIRECT + NINDIRECT then 0
        else ownOf (s.ino sb) s.disk (i, NDIRECT)) =
      ((s.copy i).addrs indirect).toNat := by
    rw [if_neg (by simp), hInd]
  have hDrop := hf.owns.drop (k := (i, NDIRECT))
  have hUsed := hf.owns.used_own (k := (i, NDIRECT))
  have hArea := hf.owns.inArea (i, NDIRECT)
  rw [hCur] at hDrop hUsed hArea
  have hData := hArea hInd0
  have hNe : (s'.copy i).addrs indirect ≠ 0 := by
    rw [hCopy]
    intro hZero
    rw [hZero] at hInd0
    exact hInd0 rfl
  have hGone : ((s.copy i).setAddr indirect 0).addrs indirect = 0 :=
    BitVec.eq_of_toNat_eq (toNat_setAddr_self _ _ (by decide))
  -- the addresses once the indirect block is gone
  have hOwn (d : Disk) (q : Nat) : ((s.copy i).setAddr indirect 0).own d q =
        if q < NDIRECT then (s.copy i).own s.disk q
        else 0 := by
    have hType' : ((s.copy i).setAddr indirect 0).type ≠ 0 := hType
    by_cases hq : q < NADDR
    · rcases pos_cases hq with
        ⟨p, rfl⟩ | ⟨j, hj, rfl⟩
      · rw [own_direct hType', own_direct hType]
        by_cases hp : p = indirect
        · subst hp
          exact (if_neg (Nat.lt_irrefl NDIRECT)).symm
        have hLt : p.1 < NDIRECT := by
          have hLe := Nat.le_of_lt_succ p.2
          apply Nat.lt_of_le_of_ne hLe
          intro hEq
          exact hp (Fin.ext hEq)
        rw [setAddr_of_ne _ _ hp, if_pos hLt]
      · rw [own_entry hType' hj, if_pos hGone, if_neg (by omega)]
    · have hHigh : ¬ q < NDIRECT := by
        simp only [NADDR] at hq
        omega
      rw [own_of_le (Nat.le_of_not_lt hq), if_neg hHigh]
  unfold itruncAddr
  rw [wp_bind, wp_read, if_neg hNe, hCopy, wp_bind]
  apply bfree_rule (hUsed hInd0)
  rw [wp_edit]
  have hLast : Fs.copy
        { s' with
          disk := sb.setBit s'.disk ((s.copy i).addrs indirect).toNat false } i =
        s.copy i := hCopy
  rw [hLast]
  refine hQ _ ?_ ((congrArg (addrs · indirect) (Fs.setCopy_copy ..)).trans hGone)
  have hBlock (b : Nat) (hb : sb.InData b) : sb.setBit s'.disk
          ((s.copy i).addrs indirect).toNat false b =
        s.disk b :=
    (setBit_of_inData _ _ hData.2 hb).trans (hf.data b hb)
  have hc : Change sb i ((s.copy i).setAddr indirect 0) s (Fs.setCopy
          { s' with
            disk := sb.setBit s'.disk ((s.copy i).addrs indirect).toNat false }
          i ((s.copy i).setAddr indirect 0)) :=
    { table := by
        change update s'.itable i _ = _
        rw [hf.table]
      used := hf.used
      dinodes := fun j hj => by
        rw [Fs.setCopy_disk, dinode_setBit _ _ _ hj]
        exact hf.dinodes j hj
      metadata := fun c hc => by
        have hLow := hData.1
        rw [Fs.setCopy_disk, bit_setBit, if_neg (by omega)]
        exact hf.metadata c hc
      type := hType
      frame := fun j q _ hk => hBlock _ (h.inv.owns.inArea (j, q) hk) }
  have hFile : ((s.copy i).setAddr indirect 0).file (sb.setBit s'.disk
            ((s.copy i).addrs indirect).toNat false) =
        (v.file i).keepDirect := by
    have hType' : ((s.copy i).setAddr indirect 0).type ≠ 0 := hType
    rw [h.file_eq hValid, File.keepDirect, file_of_type hType', file_of_type hType]
    refine File.ext rfl rfl rfl rfl rfl ?_
    funext bn
    dsimp only
    rw [hOwn]
    by_cases hbn : bn < NDIRECT
    · have hPos : pos bn = bn := if_pos hbn
      have hMax : bn < MAXFILE := Nat.lt_add_right _ hbn
      rw [if_pos hMax, hPos, if_pos hbn, if_pos hbn, if_pos hMax]
      unfold blockAt
      by_cases hZero : (s.copy i).own s.disk bn = 0
      · rw [if_pos hZero, if_pos hZero]
      · have hIn := h.inv.owns.inArea (i, bn)
        rw [h.own_eq hValid] at hIn
        rw [if_neg hZero, if_neg hZero, hBlock _ (hIn hZero)]
    · have hPos : ¬ pos bn < NDIRECT := by
        rw [pos, if_neg hbn]
        omega
      rw [if_neg hPos, if_neg hbn]
      exact ite_self none
  rw [← hFile]
  apply h.step hValid hc
  apply (hDrop hInd0).congr
  · rintro ⟨k, q⟩
    by_cases hk : k = i
    · subst hk
      rw [if_pos rfl, hOwn]
      by_cases hq : q = NDIRECT
      · subst hq
        rw [update_self, if_neg (Nat.lt_irrefl NDIRECT)]
      have hNe : (k, q) ≠ (k, NDIRECT) := by
        intro hEq
        exact hq (congrArg Prod.snd hEq)
      rw [update_of_ne hNe, h.own_eq hValid]
      by_cases hLow : q < NDIRECT
      · rw [if_pos hLow, if_neg (by omega)]
      rw [if_neg hLow]
      by_cases hHigh : q ≤ NDIRECT + NINDIRECT
      · rw [if_pos ⟨rfl, by omega, hHigh⟩]
      rw [if_neg (fun hc => hHigh hc.2.2)]
      have hLe : NADDR ≤ q := by
        simp only [NADDR]
        omega
      exact (own_of_le hLe).symm
    · have hNe : (k, q) ≠ (i, NDIRECT) := by
        intro hEq
        exact hk (congrArg Prod.fst hEq)
      rw [if_neg hk, update_of_ne hNe, if_neg (fun hc => hk hc.1)]
  · intro c _
    rw [Fs.setCopy_disk, bit_setBit, update_apply]

theorem itruncIndirect_rule (h : At sb (some i) s v) (hValid : v.valid i = true)
    (hQ : ∀ s', At sb (some i) s' (v.setFile i (v.file i).keepDirect) →
        (s'.copy i).addrs indirect = 0 →
        Q () s') : wp (itruncIndirect sb i) Q E s := by
  have hType := h.copy_type hValid
  have hOwns := h.inv.owns
  have hInd : ownOf (s.ino sb) s.disk (i, NDIRECT) = ((s.copy i).addrs indirect).toNat := by
    rw [h.own_eq hValid]
    exact own_direct hType indirect
  unfold itruncIndirect
  rw [wp_bind, wp_read, wp_ite]
  constructor
  · intro hEmpty
    rw [wp_pure]
    refine hQ s ?_ hEmpty
    have hKeep : (v.file i).keepDirect = v.file i := by
      unfold File.keepDirect
      congr
      funext bn
      by_cases hDirect : bn < NDIRECT
      · rw [if_pos hDirect]
      rw [if_neg hDirect]
      by_cases hbn : bn < MAXFILE
      · rw [h.blocks_eq hValid hbn, h.own_eq hValid, own_of_no_indirect hType hEmpty hDirect]
        rfl
      · rw [h.blocks_of_le i (Nat.le_of_not_lt hbn)]
    rw [hKeep, View.setFile_self]
    exact h
  · intro hSome
    have hInd0 : ((s.copy i).addrs indirect).toNat ≠ 0 := by
      intro hZero
      exact hSome (BitVec.eq_of_toNat_eq hZero)
    have hStart : Freeing sb i s 0 s :=
      { table := rfl
        used := rfl
        dinodes := fun _ _ => rfl
        metadata := fun _ _ => rfl
        data := fun _ _ => rfl
        owns := hOwns.congr (fun k => if_neg (by omega)) (fun _ _ => rfl) }
    rw [wp_bind]
    apply wp_imp (Prog.wp_forFrom _ (Freeing sb i s) 0 NINDIRECT (fun j s' _ hj hf =>
          itruncEntry_rule h hValid hInd hInd0 (by omega) hf)
        hStart)
    intro _ s' hf
    apply hf.itruncAddr_rule h hValid hInd hInd0 hQ

end Indirect

-------
-- Truncation
-------

/- A file of size zero. -/
def File.truncated (f : File) : File :=
  { f with
    size := 0
    blocks := fun _ => none }

section Truncation

variable {sb : Superblock} {i : Nat} {s : Fs} {v : View File}
variable {Q : Unit → Fs → Prop} {E : Halt → Fs → Prop}

theorem iupdate_rule (h : At sb (some i) s v) (hValid : v.valid i = true)
    (hShaped : (v.file i).Shaped) (hQ : ∀ s', At sb none s' v → s'.copy i = s.copy i → Q () s') :
    wp (iupdate sb i) Q E s := by
  unfold iupdate
  rw [wp_edit]
  exact hQ _ (h.sync hValid hShaped) rfl

/- Truncation frees every block of the inode. -/
theorem itrunc_rule (h : At sb none s v) (hValid : v.valid i = true)
    (hQ : ∀ s', At sb none s' (v.setFile i (v.file i).truncated) → (s'.copy i).addrs indirect = 0 →
        Q () s') : wp (itrunc sb i) Q E s := by
  unfold itrunc
  rw [wp_bind]
  apply wp_imp (Prog.wp_forFrom _ (fun m s' => At sb (some i) s' (v.setFile i ((v.file i).clear m)))
      0 NDIRECT ?_ ?_)
  · intro _ s₁ h₁
    rw [wp_bind]
    apply itruncIndirect_rule h₁ hValid
    intro s₂ h₂ hInd
    rw [View.setFile_file, update_self, View.setFile_setFile] at h₂
    rw [wp_bind, wp_edit]
    apply iupdate_rule (h₂.setSize hValid 0) hValid
    · constructor
      · simp
      · intro bn hbn
        simp at hbn
    intro s₃ h₃ hCopy
    have hGone : (s₃.copy i).addrs indirect = 0 := by
      rw [hCopy, Fs.setCopy_copy]
      exact hInd
    refine hQ s₃ ?_ hGone
    rw [View.setFile_setFile, View.setFile_file, update_self] at h₃
    have hFile :
        { ((v.file i).clear NDIRECT).keepDirect with
          size := 0 } =
          (v.file i).truncated := by
      refine File.ext rfl rfl rfl rfl rfl ?_
      funext bn
      by_cases hbn : bn < NDIRECT
      · simp [File.keepDirect, File.clear, File.truncated, hbn]
      · simp [File.keepDirect, File.truncated, hbn]
    rw [← hFile]
    exact h₃
  · intro m s' _ hm h'
    apply itruncDirect_rule h' hValid (by omega)
    intro s'' h''
    rw [View.setFile_file, update_self, View.setFile_setFile, File.clear_succ _ (by omega)] at h''
    exact h''
  · rw [File.clear_zero, View.setFile_self]
    exact h.dirty i

end Truncation

end Xv6
