import Xv6.Fs.Consistency
import Mathlib.Data.List.TakeWhile

/-
  A directory is a finite map from names to inode numbers.

  Names have at most `DIRSIZ` bytes, whatever the length of
  the path element that `skipelem` cut them from. A lookup
  reads the map, `dirlink` extends it, and the zero entry
  that `sys_unlink` writes removes a name from it.

  Key definitions include:
    * `DirMap`
    * `NoBlockFor`

  Main result is:
    * `directories_are_finite_maps`
-/

open Prog (wp wp_and wp_bind wp_edit wp_imp wp_ite wp_mono wp_pure wp_read wp_stop)

open Function List

-------
-- Slots As Maps
-------

namespace Xv6

/-
  The slots hold every name at most once, and together they
  are the map `m`.
-/
structure DirMap (ents : List (Option (Name × Nat))) (m : Name → Option Nat) : Prop where
  distinct : ∀ (j k : Nat) name i i', ents[j]? = some (some (name, i)) →
      ents[k]? = some (some (name, i')) → j = k
  maps : ∀ name i, m name = some i ↔ some (name, i) ∈ ents

namespace DirMap

variable {ents : List (Option (Name × Nat))} {m : Name → Option Nat} {name : Name} {i k : Nat}

/- A search finds what the map says. -/
theorem find (h : DirMap ents m) (name : Name) :
    m (cname name) = (findEntry name 0 ents).map Prod.fst := by
  cases hFind : findEntry name 0 ents with
  | none =>
    rw [findEntry_eq_none_iff] at hFind
    rw [Option.map_none, Option.eq_none_iff_forall_ne_some]
    intro i hEq
    exact hFind i ((h.maps _ i).mp hEq)
  | some p => exact (h.maps _ p.1).mpr (mem_of_getElem? (findEntry_some hFind).2)

/- An entry with a new name. -/
theorem insert (h : DirMap ents m) (hNew : m name = none) (hk : k ≤ ents.length)
    (hEmpty : ∀ e, ents[k]? ≠ some (some e)) :
    DirMap (setSlot ents k (some (name, i))) (update m name (some i)) := by
  have hOther (c nm x) (hc : ents[c]? = some (some (nm, x))) : c ≠ k ∧ nm ≠ name := by
    refine ⟨fun hck => hEmpty _ (hck ▸ hc), ?_⟩
    rintro rfl
    rw [(h.maps nm x).mpr (mem_of_getElem? hc)] at hNew
    cases hNew
  have hSlot (c : Nat) (nm x) : (setSlot ents k (some (name, i)))[c]? = some (some (nm, x)) ↔
        c = k ∧ name = nm ∧ i = x ∨ ents[c]? = some (some (nm, x)) := by
    rw [getElem?_setSlot _ hk]
    by_cases hck : c = k
    · subst hck
      simp [hEmpty]
    · simp [hck]
  constructor
  · intro a b nm x y ha hb
    rcases (hSlot ..).mp ha with ⟨hak, hName, _⟩ | ha <;>
      rcases (hSlot ..).mp hb with ⟨hbk, hName', _⟩ | hb
    · rw [hak, hbk]
    · exact absurd hName.symm (hOther _ _ _ hb).2
    · exact absurd hName'.symm (hOther _ _ _ ha).2
    · exact h.distinct a b nm x y ha hb
  intro nm x
  simp only [mem_iff_getElem?, hSlot]
  by_cases hName : nm = name
  · subst hName
    rw [update_self]
    constructor
    · intro hEq
      exact ⟨k, .inl ⟨rfl, rfl, Option.some.inj hEq⟩⟩
    · rintro ⟨c, ⟨_, _, rfl⟩ | hc⟩
      · rfl
      · exact absurd rfl (hOther _ _ _ hc).2
  · rw [update_of_ne hName, h.maps, mem_iff_getElem?]
    refine exists_congr (fun c => ⟨.inr, ?_⟩)
    rintro (⟨_, hEq, _⟩ | hc)
    · exact absurd hEq.symm hName
    · exact hc

/- The slot of a name becomes empty. -/
theorem remove (h : DirMap ents m) (hk : ents[k]? = some (some (name, i))) :
    DirMap (setSlot ents k none) (update m name none) := by
  have hLe : k ≤ ents.length := (List.getElem?_eq_some_iff.mp hk).1.le
  have hSlot (c : Nat) (nm x) : (setSlot ents k none)[c]? = some (some (nm, x)) ↔
      c ≠ k ∧ ents[c]? = some (some (nm, x)) := by
    rw [getElem?_setSlot _ hLe]
    split <;> simp_all
  constructor
  · intro a b nm x y ha hb
    exact h.distinct a b nm x y ((hSlot ..).mp ha).2 ((hSlot ..).mp hb).2
  intro nm x
  simp only [List.mem_iff_getElem?, hSlot]
  by_cases hName : nm = name
  · subst hName
    rw [update_self]
    constructor
    · intro hEq
      cases hEq
    · rintro ⟨c, hc, hEnt⟩
      exact absurd (h.distinct c k nm x i hEnt hk) hc
  · rw [update_of_ne hName, h.maps, List.mem_iff_getElem?]
    constructor
    · rintro ⟨c, hc⟩
      refine ⟨c, ?_, hc⟩
      rintro rfl
      simp_all
    · rintro ⟨c, _, hc⟩
      exact ⟨c, hc⟩

/- A directory without names. -/
theorem empty (n : Nat) : DirMap (List.replicate n none) (fun _ => none) := by
  constructor
  · intro j k name i i' hj
    have hMem := mem_of_getElem? hj
    simp at hMem
  · simp

end DirMap

-------
-- Entries in Memory and on Disk
-------

section Entries

variable {sb : Superblock} {s : Fs} {v : View File} {dp i : Nat} {E : Halt → Fs → Prop}

/- Table entries without references do not matter. -/
theorem At.congr {s' : Fs} (h : At sb none s v) (hDisk : s'.disk = s.disk)
    (hUsed : s'.used = s.used) (hRef : ∀ j, (s'.itable j).ref = (s.itable j).ref)
    (hSame : ∀ j, 0 < (s.itable j).ref → s'.itable j = s.itable j) : At sb none s' v := by
  have hIno : s'.ino sb = s.ino sb := by
    funext j
    unfold Fs.ino Fs.copy
    by_cases hPos : 0 < (s.itable j).ref
    · rw [hSame j hPos, hDisk]
    · simp only [hRef, hDisk, hPos, false_and, if_false]
  have hInUse : s'.inUse sb = s.inUse sb := by
    unfold Fs.inUse
    simp only [hRef]
  have hInv := h.inv
  refine ⟨⟨?_, ?_, ?_, ?_, ?_, ?_, ?_, ?_⟩, ?_⟩
  · rw [hIno, hDisk]
    exact hInv.owns
  · rw [hDisk]
    exact hInv.metadata
  · rw [hIno, hDisk]
    exact hInv.shaped
  · intro j hj hPos hValid
    rw [hRef] at hPos
    rw [hSame j hPos] at hValid
    rw [hDisk, Fs.copy, hSame j hPos]
    exact hInv.synced j hj hPos hValid
  · intro j
    rw [hRef]
    exact hInv.nonneg j
  · intro j hPos
    rw [hRef] at hPos
    exact hInv.ranged j hPos
  · intro j hPos hValid
    rw [hRef] at hPos
    rw [hSame j hPos] at hValid
    rw [Fs.copy, hSame j hPos]
    exact hInv.live j hPos hValid
  · rw [hUsed, hInUse]
    exact hInv.used
  · rw [← h.view]
    apply View.ext
    · exact congrArg₂ fileOf hIno hDisk
    · exact funext hRef
    · funext j
      change (decide (0 < (s'.itable j).ref) && _) = (decide (0 < (s.itable j).ref) && _)
      by_cases hPos : 0 < (s.itable j).ref
      · rw [hSame j hPos]
      · rw [hRef, decide_eq_false hPos, Bool.false_and, Bool.false_and]

/- A reference that is dropped at once leaves no trace. -/
theorem iget_iput {Q : Unit → Fs → Prop} (h : At sb none s v) (hQ : ∀ s', At sb none s' v → Q () s')
    (hE : NINODE ≤ s.used → E (.panic .igetNoInodes) s) : wp (iget i >>= iput sb) Q E s := by
  have hNonneg := h.inv.nonneg i
  unfold iget iput idrop
  rw [wp_bind, wp_bind, wp_read, wp_ite]
  constructor
  · intro hPos
    have hMore : ¬ (s.itable i).ref + 1 = 1 := by omega
    rw [wp_bind, wp_edit, wp_pure, wp_bind, wp_read, if_neg (by simp [hMore]), wp_edit]
    apply hQ
    apply h.congr
    · rfl
    · simp [Fs.setInode, hMore]
    · intro j
      by_cases hj : j = i <;> simp [hj]
    · intro j _
      by_cases hj : j = i <;> simp [hj]
  intro hPos
  rw [wp_ite]
  constructor
  · intro _
    rw [wp_bind, wp_edit, wp_pure, wp_bind, wp_read, if_neg (by simp [Fs.setInode]), wp_edit]
    apply hQ
    apply h.congr
    · rfl
    · simp [Fs.setInode]
    · intro j
      by_cases hj : j = i
      · subst hj
        simp [Fs.setInode]
        omega
      · simp [hj]
    · intro j hj
      have hji : j ≠ i := by
        rintro rfl
        exact hPos hj
      simp [hji]
  · intro hFull
    unfold panicWith
    rw [wp_stop]
    exact hE (Nat.le_of_not_lt hFull)

/- A new reference changes the count of its inode only. -/
theorem iget_adds (i : Nat) :
    wp (iget i) (fun ip s' => ip = i ∧ s'.disk = s.disk ∧
        (s'.itable i).ref = max 0 (s.itable i).ref + 1 ∧
        ∀ j, j ≠ i → s'.itable j = s.itable j)
      (fun e _ => e = .panic .igetNoInodes ∧ NINODE ≤ s.used) s := by
  unfold iget
  rw [wp_bind, wp_read, wp_ite, wp_ite]
  refine ⟨fun hPos => ?_, fun hPos => ⟨fun _ => ?_, fun hFull => ?_⟩⟩
  · rw [wp_bind, wp_edit, wp_pure]
    refine ⟨rfl, rfl, ?_, fun j hj => update_of_ne hj ..⟩
    simp only [Fs.setInode, update_self]
    omega
  · rw [wp_bind, wp_edit, wp_pure]
    refine ⟨rfl, rfl, ?_, fun j hj => update_of_ne hj ..⟩
    simp only [Fs.setInode, update_self]
    omega
  · unfold panicWith
    rw [wp_stop]
    exact ⟨rfl, Nat.le_of_not_lt hFull⟩

/- `bmap` does not get the block of a slot. -/
def NoBlockFor (sb : Superblock) (s : Fs) (dp k : Nat) : Prop :=
  ∃ s', bmap sb dp (16 * k / BSIZE) s = (.ok 0, s')

/- An entry is written exactly if `bmap` gets its block. -/
theorem writeDirent_block {k : Nat} (h : At sb none s v) (hValid : v.valid dp = true)
    (hk : 16 * k ≤ (v.file dp).size.toNat) (hMax : k < MAXENTS) (l : List UInt8) :
    wp (writeDirent sb dp (16 * k) l) (fun r _ => r = 16 ↔ ¬ NoBlockFor sb s dp k) E s := by
  have hk32 : 16 * k + 16 ≤ MAXFILE * BSIZE := by
    simp only [MAXENTS] at hMax ⊢
    omega
  have hLimit := hk32
  simp only [MAXFILE, NDIRECT, NINDIRECT, BSIZE] at hLimit
  have hOff : (BitVec.ofNat 32 (16 * k)).toNat = 16 * k := by
    rw [BitVec.toNat_ofNat]
    omega
  have hSum : (BitVec.ofNat 32 (16 * k) + 16).toNat = 16 * k + 16 := by
    rw [BitVec.toNat_add, hOff]
    change (16 * k + 16) % 2 ^ 32 = _
    omega
  have hLow : ¬ ((s.copy dp).size < BitVec.ofNat 32 (16 * k) ∨
      BitVec.ofNat 32 (16 * k) + 16 < BitVec.ofNat 32 (16 * k)) := by
    rw [← h.size_eq hValid, BitVec.lt_def, BitVec.lt_def]
    omega
  obtain ⟨a, s₁, hRun, _⟩ :=
    Prog.exists_ok_of_wp (m := bmap sb dp (16 * k / BSIZE))
      (bmap_rule (h.dirty dp) hValid (by
          simp only [MAXFILE, NDIRECT, NINDIRECT, BSIZE]
          omega)
        (fun _ _ _ _ _ => trivial) (fun _ _ _ _ => trivial))
  have hBlock : NoBlockFor sb s dp k ↔ a = 0 := by
    constructor
    · rintro ⟨s', hZero⟩
      rw [hRun] at hZero
      cases hZero
      rfl
    · rintro rfl
      exact ⟨s₁, hRun⟩
  have hRoom : min 16 (BSIZE - 16 * k % BSIZE) = 16 := by
    simp only [BSIZE]
    omega
  unfold writeDirent writei
  rw [wp_bind, wp_read, if_neg hLow, hSum, if_neg (Nat.not_lt.mpr hk32), wp_bind, hOff, hBlock]
  change wp (writeiLoop sb dp _ _ (15 + 1) _ _ 16) _ _ _
  rw [writeiLoop, if_neg (by decide), wp_bind]
  apply Prog.wp_of_ok hRun
  by_cases ha : a = 0
  · simp [iupdate, ha]
  · rw [hRoom]
    simp [copiesIn, writeiLoop, iupdate, ha]

/- A directory has at most `MAXENTS` slots. -/
theorem At.length_ents_le (h : At sb none s v) (dp : Nat) (hDir : (v.file dp).type = T_DIR) :
    (v.file dp).ents.length ≤ MAXENTS := by
  have hShaped := (h.inv.shaped dp (by simp)).1
  rw [h.file] at hShaped
  rw [File.length_ents hDir]
  exact Nat.div_le_div_right hShaped

end Entries

-------
-- Operations on Directories
-------

/- The directory has no empty slot and cannot grow. -/
def DirFull (sb : Superblock) (s : Fs) (dp : Nat) (ents : List (Option (Name × Nat))) : Prop :=
  none ∉ ents ∧ (MAXENTS ≤ ents.length ∨ NoBlockFor sb s dp ents.length)

/- The same files, but the directory has the given slots. -/
def DirNow (sb : Superblock) (v : View File) (dp : Nat)
    (ents : List (Option (Name × Nat))) (m : Name → Option Nat)
    (s : Fs) : Prop :=
  ∃ f, At sb none s (v.setFile dp f) ∧
    f.node = { (v.file dp).node with ents := ents } ∧
    f.size.toNat % 16 = 0 ∧
    DirMap ents m

section Operations

variable {sb : Superblock} {s : Fs} {v : View File} {dp : Nat} {m : Name → Option Nat} {name : Name}

theorem DirNow.same (h : At sb none s v) (hWhole : (v.file dp).size.toNat % 16 = 0)
    (hMap : DirMap (v.file dp).ents m) : DirNow sb v dp (v.file dp).ents m s :=
  ⟨v.file dp, by rwa [View.setFile_self], rfl, hWhole, hMap⟩

/- The entry of a name that the directory does not have. -/
theorem addEntry_rule {inum : Nat} {E : Halt → Fs → Prop} (h : At sb none s v)
    (hValid : v.valid dp = true) (hDir : (v.file dp).type = T_DIR)
    (hWhole : (v.file dp).size.toNat % 16 = 0)
    (hMap : DirMap (v.file dp).ents m) (hPos : 0 < inum) (hLt : inum < 2 ^ 16)
    (name : Name) (hNew : m (cname name) = none) :
    wp (writeDirent sb dp (16 * (v.file dp).ents.findIdx Option.isNone)
        (Dirent.encode ⟨inum, name⟩))
      (fun r s' => r ≠ 16 ∧ DirFull sb s dp (v.file dp).ents ∧
          DirNow sb v dp (v.file dp).ents m s' ∨
        r = 16 ∧ ¬ DirFull sb s dp (v.file dp).ents ∧ DirNow sb v dp (setSlot (v.file dp).ents
              ((v.file dp).ents.findIdx Option.isNone)
              (some (cname name, inum)))
            (update m (cname name) (some inum)) s') E s := by
  have hLen := File.length_ents hDir
  have hLe : (v.file dp).ents.findIdx Option.isNone ≤
      (v.file dp).ents.length := List.findIdx_le_length
  have hEmpty : ∀ e, (v.file dp).ents[(v.file dp).ents.findIdx Option.isNone]? ≠ some (some e) := by
    intro e he
    obtain ⟨hLt, hGet⟩ := List.getElem?_eq_some_iff.mp he
    have hNone := List.findIdx_getElem (w := hLt)
    rw [hGet] at hNone
    cases hNone
  have hFull : none ∉ (v.file dp).ents ↔
      (v.file dp).ents.findIdx Option.isNone = (v.file dp).ents.length := by
    rw [List.findIdx_eq_length]
    constructor
    · rintro hNot (_ | e) he
      · exact absurd he hNot
      · rfl
    · intro hAll hMem
      exact absurd (hAll none hMem) (by simp)
  have hSlot := Dirent.slot_decode_encode name hPos hLt
  generalize (v.file dp).ents.findIdx Option.isNone = k at *
  have hWrite : wp (writeDirent sb dp (16 * k) (Dirent.encode ⟨inum, name⟩))
      (fun r s' => r ≠ 16 ∧ k = (v.file dp).ents.length ∧ DirNow sb v dp (v.file dp).ents m s' ∨
        r = 16 ∧ k < MAXENTS ∧ DirNow sb v dp (setSlot (v.file dp).ents k (some (cname name, inum)))
            (update m (cname name) (some inum)) s') E s := by
    apply writeDirent_rule h hValid hDir hWhole hLe (Dirent.length_encode _)
    · intro s' f' h' hNode hWhole'
      rw [hSlot] at hNode
      refine .inr ⟨rfl, ?_, f', h', hNode, hWhole', hMap.insert hNew hLe hEmpty⟩
      have hLength := h'.length_ents_le dp (by
        rw [View.setFile_file, update_self]
        exact (congrArg Node.type hNode).trans hDir)
      rw [View.setFile_file, update_self, show f'.ents = _ from congrArg Node.ents hNode] at hLength
      have hSet : (setSlot (v.file dp).ents k (some (cname name, inum)))[k]? =
          some (some (cname name, inum)) := by
        rw [getElem?_setSlot _ hLe, if_pos rfl]
      have hLess := (List.getElem?_eq_some_iff.mp hSet).1
      exact Nat.lt_of_lt_of_le hLess hLength
    · intro r s' f' hr h' hNode hWhole' hk _
      exact .inl ⟨hr, hk, f', h', hNode, hWhole', hMap⟩
  have hBlock : wp (writeDirent sb dp (16 * k) (Dirent.encode ⟨inum, name⟩))
      (fun r _ => k < MAXENTS → (r = 16 ↔ ¬ NoBlockFor sb s dp k)) E s := by
    by_cases hMax : k < MAXENTS
    · exact wp_imp (writeDirent_block h hValid (by omega) hMax _) (fun _ _ hr _ => hr)
    · exact wp_imp hWrite (fun _ _ _ hLess => absurd hLess hMax)
  refine wp_mono (wp_and hWrite hBlock) ?_ (fun _ _ hE => hE.1)
  rintro r s' ⟨⟨hr, hk, hNow⟩ | ⟨hr, hMax, hNow⟩, hRes⟩
  · refine .inl ⟨hr, ⟨hFull.mpr hk, ?_⟩, hNow⟩
    rw [← hk]
    by_cases hMax : k < MAXENTS
    · exact .inr (by_contra (fun hNo => hr ((hRes hMax).mpr hNo)))
    · exact .inl (Nat.le_of_not_lt hMax)
  · refine .inr ⟨hr, ?_, hNow⟩
    rintro ⟨hNone, hWhy⟩
    rw [← hFull.mp hNone] at hWhy
    rcases hWhy with hBig | hNo
    · omega
    · exact (hRes hMax).mp hr hNo

/-
  The operations on a directory are those on a finite map.
  They look up, add and remove the name that `skipelem` cuts
  from a path element of any length. Only a reference to the
  inode that is found may be refused, by a full inode table.
-/
theorem directories_are_finite_maps
    (h : At sb none s v)
    (hValid : v.valid dp = true)
    (hDir : (v.file dp).type = T_DIR)
    (hWhole : (v.file dp).size.toNat % 16 = 0)
    (hMap : DirMap (v.file dp).ents m)
    {elem : List UInt8}
    (hElem : elem ≠ [])
    (hSlash : slash ∉ elem)
    (hNul : 0 ∉ elem)
    {inum : Nat}
    (hPos : 0 < inum)
    (hLt : inum < 2 ^ 16) :
    skipelem elem = some (elem.take DIRSIZ, []) ∧
    wp (dirlookup sb dp (elem.take DIRSIZ)) (fun r s' =>
        match m (elem.take DIRSIZ) with
        | none => r = none ∧ s' = s
        | some i => s'.disk = s.disk ∧
            (s'.itable i).ref = (s.itable i).ref + 1 ∧
            (∀ j, j ≠ i → s'.itable j = s.itable j) ∧
            ∃ k, r = some (i, 16 * k) ∧
              (v.file dp).ents[k]? = some (some (elem.take DIRSIZ, i)))
      (fun e _ => e = .panic .igetNoInodes ∧ NINODE ≤ s.used ∧
          m (elem.take DIRSIZ) ≠ none) s ∧
    wp (dirlink sb dp (elem.take DIRSIZ) inum) (fun r s' => r = -1 ∧
          (m (elem.take DIRSIZ) ≠ none ∨
              DirFull sb s dp (v.file dp).ents) ∧
          DirNow sb v dp (v.file dp).ents m s' ∨
        r = 0 ∧ m (elem.take DIRSIZ) = none ∧
          ¬ DirFull sb s dp (v.file dp).ents ∧ DirNow sb v dp
            (setSlot (v.file dp).ents
                ((v.file dp).ents.findIdx Option.isNone)
              (some (elem.take DIRSIZ, inum)))
            (update m (elem.take DIRSIZ) (some inum)) s')
      (fun e _ => e = .panic .igetNoInodes ∧ NINODE ≤ s.used ∧
          m (elem.take DIRSIZ) ≠ none) s ∧
    ∀ i k, (v.file dp).ents[k]? = some (some (elem.take DIRSIZ, i)) →
      wp (writeDirent sb dp (16 * k) (List.replicate 16 0))
        (fun r s' => r = 16 ∧
          DirNow sb v dp (setSlot (v.file dp).ents k none)
            (update m (elem.take DIRSIZ) none) s')
        (fun _ _ => False) s := by
  have hName : cname (elem.take DIRSIZ) = elem.take DIRSIZ := by
    rw [cname, List.take_take, Nat.min_self, List.takeWhile_eq_self_iff]
    intro c hc
    simpa using ne_of_mem_of_not_mem (List.mem_of_mem_take hc) hNul
  have hSkip : skipelem elem = some (elem.take DIRSIZ, []) := by
    have hNe : ∀ c ∈ elem, c ≠ slash := fun c hc => by exact ne_of_mem_of_not_mem hc hSlash
    have hStart : elem.dropWhile (· = slash) = elem := by
      rw [List.dropWhile_eq_self_iff]
      intro hl
      simpa using hNe _ (List.getElem_mem hl)
    have hAll : elem.dropWhile (· ≠ slash) = [] := by
      simpa using hNe
    have hTake : elem.takeWhile (· ≠ slash) = elem := by
      simpa using hNe
    unfold skipelem
    rw [hStart, if_neg hElem, hAll, hTake]
    rfl
  generalize elem.take DIRSIZ = name at hName hSkip ⊢
  have hFind := hMap.find name
  rw [hName] at hFind
  refine ⟨hSkip, ?_, ?_, ?_⟩
  · apply dirlookup_rule h hValid hDir hWhole
    · intro i k hSome
      rw [hSome] at hFind
      change m name = some i at hFind
      have hEnt := (findEntry_some hSome).2
      rw [hName] at hEnt
      refine wp_mono (iget_adds i) ?_ ?_
      · rintro ip s' ⟨rfl, hDisk, hRef, hOther⟩
        rw [hFind]
        have hNonneg := h.inv.nonneg ip
        exact ⟨hDisk, by omega, hOther, k, rfl, hEnt⟩
      · rintro e s' ⟨rfl, hTable⟩
        exact ⟨rfl, hTable, by simp [hFind]⟩
    · intro hNone
      rw [hNone] at hFind
      rw [hFind]
      exact ⟨rfl, rfl⟩
  · apply dirlink_rule h hValid hDir hWhole
    · intro i k hSome
      rw [hSome] at hFind
      have hHas : m name ≠ none := by simp [hFind]
      apply iget_iput h
      · intro s' h'
        exact .inl ⟨rfl, .inl hHas, DirNow.same h' hWhole hMap⟩
      · intro hTable
        exact ⟨rfl, hTable, hHas⟩
    · intro hNone
      rw [hNone] at hFind
      have hAdd := addEntry_rule
        (E := fun e _ => e = .panic .igetNoInodes ∧ NINODE ≤ s.used ∧ m name ≠ none)
        h hValid hDir hWhole hMap hPos hLt name (by rwa [hName])
      rw [hName] at hAdd
      refine wp_imp hAdd ?_
      rintro r s' (⟨hr, hFull, hNow⟩ | ⟨hr, hFull, hNow⟩)
      · exact .inl ⟨if_neg hr, .inr hFull, hNow⟩
      · exact .inr ⟨if_pos hr, hFind, hFull, hNow⟩
  · intro i k hk
    have hLess := (List.getElem?_eq_some_iff.mp hk).1
    apply writeDirent_rule h hValid hDir hWhole hLess.le (by simp)
    · intro s' f' h' hNode hWhole'
      exact ⟨rfl, f', h', hNode, hWhole', hMap.remove hk⟩
    · intro r s' f' _ _ _ _ hEnd
      omega

end Operations

/- The map of a new root directory. -/
def rootMap : Name → Option Nat :=
  update (update (fun _ => none) dot (some ROOTINO)) dotdot (some ROOTINO)

theorem rootMap_of_root : DirMap rootNode.ents rootMap := by
  have hDot : DirMap (setSlot (replicate 64 none) 0 (some (dot, ROOTINO)))
      (update (fun _ => none) dot (some ROOTINO)) :=
    (DirMap.empty 64).insert rfl (by decide) (by simp)
  exact hDot.insert (k := 1) rfl (by decide) (by simp [setSlot])

/- The first name in the root directory. -/
theorem root_is_finite_map :
    ∃ s v, At smallSb none s v ∧ DirMap (v.file ROOTINO).ents rootMap ∧
      skipelem [97] = some ([97], []) ∧
      wp (dirlookup smallSb ROOTINO [97]) (fun r s' => r = none ∧ s' = s)
        (fun _ _ => False) s := by
  obtain ⟨v, hAt, hDirs, hRef, hInvalid, hNode⟩ :=
    booted_root (by decide : smallSb.dataStart < smallSb.size)
  have hDir : (v.file ROOTINO).type = T_DIR := congrArg Node.type hNode
  have hMap : DirMap (v.file ROOTINO).ents rootMap := by
    rw [show (v.file ROOTINO).ents = rootNode.ents from congrArg Node.ents hNode]
    exact rootMap_of_root
  have hLock := hAt.load hRef hInvalid (by rw [hDir]; decide)
  have hAll := directories_are_finite_maps hLock (by simp [View.lock]) hDir
    ((hDirs ROOTINO).whole hDir) hMap (by decide : ([97] : List UInt8) ≠ [])
    (by decide) (by decide) (by decide : 0 < 2) (by decide)
  refine ⟨_, _, hLock, hMap, hAll.1, wp_mono hAll.2.1 ?_ ?_⟩
  · intro r s' hr
    exact hr
  · rintro e s' ⟨_, _, hHas⟩
    exact hHas rfl

end Xv6
