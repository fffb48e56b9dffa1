import Xv6.Fs.Names

/-
  What the functions of `fs.c` do to the name space within a
  system call. Each rule is about the nodes the call has
  made, the inodes it holds, and those it knows.

  Main rules are:
    * `iput_call`
    * `ialloc_call`
    * `dirlookup_call`
    * `dirlink_call`
    * `namex_call`
-/

open Prog (wp wp_bind wp_edit wp_pure wp_read)

open Function Xv6.File List Xv6.View

-------
-- States Within a Call
-------

namespace Xv6

/- The state reached within a call. -/
def During (sb : Superblock) (n : View Node) (N : Nat → Node) (held known : List Nat)
    (s : Fs) : Prop :=
  ∃ v : View File, At sb none s v ∧ (∀ i, (v.file i).DirOk sb) ∧
      Partway n N held known (v.map File.node)

/-
  The allocated inodes are enough to own the whole data
  area, so that there may be no block left.
-/
def NoRoom (sb : Superblock) (N : Nat → Node) : Prop :=
  sb.size - sb.dataStart ≤
    ((Finset.range sb.ninodes).filter
        (fun i => (N i).type ≠ 0)).card * NADDR

namespace File

variable {f f' : File}

/- The entries do not depend on the link count. -/
theorem ents_congr (hType : f'.type = f.type) (hSize : f'.size = f.size)
    (hBlocks : f'.blocks = f.blocks) : f'.ents = f.ents := by
  have hSlot : f'.slot = f.slot := by
    funext k
    simp only [slot, read, byte, hBlocks]
  simp only [ents, hType, hSize, hSlot]

theorem DirOk.congr {sb : Superblock} (h : f.DirOk sb) (hType : f'.type = f.type)
    (hSize : f'.size = f.size) (hBlocks : f'.blocks = f.blocks) :
    f'.DirOk sb where
  whole := by
    rw [hType, hSize]
    exact h.whole
  ranged := by
    rw [ents_congr hType hSize hBlocks]
    exact h.ranged

/- Files that are no directories have no entries. -/
theorem DirOk.of_not_dir (sb : Superblock) (hDir : f.type ≠ T_DIR) :
    f.DirOk sb where
  whole := fun h => absurd h hDir
  ranged := fun name i hMem => by
    rw [ents_of_not_dir hDir] at hMem
    cases hMem

theorem DirOk.free (sb : Superblock) : File.free.DirOk sb := .of_not_dir sb (by decide)

end File

/- Changing one file keeps the others well-formed. -/
theorem dirOk_setFile {sb : Superblock} {v : View File} (hDirs : ∀ i, (v.file i).DirOk sb)
    {i : Nat} {f : File} (hf : f.DirOk sb) (j : Nat) : ((v.setFile i f).file j).DirOk sb := by
  by_cases hj : j = i
  · subst hj
    simpa using hf
  · simpa [hj] using hDirs j

theorem dirOk_put {sb : Superblock} {v : View File} (hDirs : ∀ i, (v.file i).DirOk sb)
    (i j : Nat) : ((v.put File.nlink File.free i).file j).DirOk sb := by
  rw [put_file]
  split
  · exact File.DirOk.free sb
  · exact hDirs j

namespace During

variable {sb : Superblock} {n : View Node} {N : Nat → Node} {held known : List Nat} {s : Fs}
variable {i : Nat}

/- A call begins. -/
theorem start (h : Shows sb s n) : During sb n n.file [] [] s := by
  have hPart := Partway.start h
  obtain ⟨v, hAt, hDirs, rfl⟩ := h.exists_at
  exact ⟨v, hAt, hDirs, hPart⟩

/- A call ends. -/
theorem finish (h : During sb n N held known s) :
    ∃ n', Shows sb s n' ∧ Partway n N held known n' := by
  obtain ⟨v, hAt, hDirs, hPart⟩ := h
  exact ⟨_, Shows.of_at hAt hDirs, hPart⟩

/- What is known may be forgotten. -/
theorem forget {known' : List Nat} (h : During sb n N held known s)
    (hKnown : known' ⊆ known) : During sb n N held known' s := by
  obtain ⟨v, hAt, hDirs, hPart⟩ := h
  exact ⟨v, hAt, hDirs,
    { hPart with
      known := fun i hi => hPart.known i (hKnown hi) }⟩

section

variable (h : During sb n N held known s) (hi : i ∈ known)
include h hi

theorem type_ne_zero : (N i).type ≠ 0 := by
  obtain ⟨v, hAt, hDirs, hPart⟩ := h
  have hKnown := hPart.known i hi
  rw [← hKnown.2.2]
  exact hAt.type_ne_zero hKnown.2.1

/- The copy in memory of a known inode. -/
theorem copy_type : (s.copy i).type = (N i).type := by
  obtain ⟨v, hAt, hDirs, hPart⟩ := h
  have hKnown := hPart.known i hi
  rw [← hKnown.2.2, ← hAt.type_eq hKnown.2.1]
  rfl

theorem copy_nlink : (s.copy i).nlink = (N i).nlink := by
  obtain ⟨v, hAt, hDirs, hPart⟩ := h
  have hKnown := hPart.known i hi
  rw [← hKnown.2.2, ← hAt.nlink_eq hKnown.2.1]
  rfl

end

theorem ranged (h : During sb n N held known s) (hi : i ∈ held) : 0 < i ∧ i < sb.ninodes := by
  obtain ⟨v, hAt, hDirs, hPart⟩ := h
  apply hAt.inv.ranged
  rw [hAt.ref]
  exact hPart.ref_pos hi

/- There may be no block left for the intended nodes. -/
theorem noRoom {v : View File} (hPart : Partway n N held known (v.map File.node))
    (hFull : v.Full sb) : NoRoom sb N := by
  have hSub : v.allocated sb ⊆ (Finset.range sb.ninodes).filter (fun i => (N i).type ≠ 0) := by
    intro i hi
    obtain ⟨hLt, hType⟩ := Finset.mem_filter.mp hi
    refine Finset.mem_filter.mpr ⟨hLt, ?_⟩
    rcases hPart.file i with hEq | hEq
    · rw [← hEq]
      exact hType
    · have hFree : (v.file i).type = 0 := congrArg Node.type hEq.1
      exact absurd hFree hType
  exact hFull.trans (Nat.mul_le_mul_right NADDR (Finset.card_le_card hSub))

end During

-------
-- References and Locks
-------

section Calls

variable {sb : Superblock} {n : View Node} {N : Nat → Node}
variable {held known : List Nat} {s : Fs} {i : Nat} {E : Halt → Fs → Prop}

variable {Q : Unit → Fs → Prop} (h : During sb n N held known s)
include h

theorem iget_call {Q : Nat → Fs → Prop} (hi : 0 < i ∧ i < sb.ninodes)
    (hQ : ∀ s', During sb n N (i :: held) known s' → Q i s')
    (hTable : NINODE ≤ n.inUse sb + held.length → ∀ s', E (.panic .igetNoInodes) s') :
    wp (iget i) Q E s := by
  obtain ⟨v, hAt, hDirs, hPart⟩ := h
  apply iget_rule hAt hi
  · intro s' _ h'
    exact hQ s' ⟨_, h', hDirs, hPart.get i⟩
  · intro _ hUse
    exact hTable (hUse.trans (hPart.inUse_le sb)) s

theorem idup_call {Q : Nat → Fs → Prop} (hRef : 0 < n.ref i)
    (hQ : ∀ s', During sb n N (i :: held) known s' → Q i s') : wp (idup i) Q E s := by
  obtain ⟨v, hAt, hDirs, hPart⟩ := h
  have hPos : 0 < v.ref i := by
    have hEq := hPart.ref i
    rw [map_ref] at hEq
    omega
  apply idup_rule hAt hPos
  intro s' h'
  exact hQ s' ⟨_, h', hDirs, hPart.get i⟩

/-
  A held inode cannot be locked if it is free, or if it was
  freed by the call because it had no links.
-/
theorem ilock_call (hi : i ∈ held)
    (hQ : ∀ s', (N i).type ≠ 0 → During sb n N held (i :: known) s' → Q () s')
    (hDead : i ∉ known → (N i).type = 0 ∨ (N i).nlink = 0 ∧ n.ref i = 0 →
        ∀ s', E (.panic .ilockNoType) s') : wp (ilock sb i) Q E s := by
  obtain ⟨v, hAt, hDirs, hPart⟩ := h
  have hFile := hPart.file i
  apply ilock_rule hAt (hPart.ref_pos hi)
  · intro s' hType h'
    have hEq : (v.file i).node = N i := by
      rcases hFile with hEq | hEq
      · exact hEq
      · have hFree : (v.file i).type = 0 := congrArg Node.type hEq.1
        exact absurd hFree hType
    refine hQ s' ?_ ⟨_, h', hDirs, hPart.lock hi hEq⟩
    rw [← hEq]
    exact hType
  · intro hType
    apply hDead
    · intro hi
      exact hAt.type_ne_zero (hPart.known i hi).2.1 hType
    rcases hFile with hEq | hEq
    · left
      rw [← hEq]
      exact hType
    · exact .inr hEq.2

theorem iunlock_call (hi : i ∈ held)
    (hQ : Q () s) : wp (iunlock i) Q E s := by
  obtain ⟨v, hAt, _, hPart⟩ := h
  exact iunlock_rule hAt (hPart.ref_pos hi) hQ

theorem iput_call (held' known' : List Nat) (hHeld : held.Perm (i :: held'))
    (hKnown : ∀ j ∈ known', j ∈ known ∧ j ∈ held')
    (hQ : ∀ s', During sb n N held' known' s' → Q () s') : wp (iput sb i) Q E s := by
  obtain ⟨v, hAt, hDirs, hPart⟩ := h
  have hi : i ∈ held := hHeld.symm.subset mem_cons_self
  apply iput_rule hAt (hPart.ref_pos hi)
  intro s' h'
  refine hQ s' ⟨_, h', dirOk_put hDirs i, ?_⟩
  rw [map_put]
  exact hPart.put hHeld hKnown

theorem iunlockput_call (held' known' : List Nat) (hHeld : held.Perm (i :: held'))
    (hKnown : ∀ j ∈ known', j ∈ known ∧ j ∈ held')
    (hQ : ∀ s', During sb n N held' known' s' → Q () s') : wp (iunlockput sb i) Q E s := by
  unfold iunlockput
  rw [wp_bind]
  apply iunlock_call h (hHeld.symm.subset mem_cons_self)
  exact iput_call h held' known' hHeld hKnown hQ

/- The last reference frees a known inode without links. -/
theorem iunlockput_free_call (held' known' : List Nat) (hHeld : held.Perm (i :: held'))
    (hKnown : ∀ j ∈ known', j ∈ known ∧ j ∈ held') (hi : i ∈ known)
    (hZero : (N i).nlink = 0) (hRef : n.ref i = 0) (hOnce : i ∉ held')
    (hQ : ∀ s', During sb n (update N i Node.free) held' known' s' → Q () s') :
    wp (iunlockput sb i) Q E s := by
  have hMem : i ∈ held := hHeld.symm.subset mem_cons_self
  unfold iunlockput
  rw [wp_bind]
  apply iunlock_call h hMem
  obtain ⟨v, hAt, hDirs, hPart⟩ := h
  apply iput_rule hAt (hPart.ref_pos hMem)
  intro s' h'
  refine hQ s' ⟨_, h', dirOk_put hDirs i, ?_⟩
  rw [map_put]
  exact hPart.put_free hHeld hKnown hi hZero hRef hOnce

/- The same node with another link count. -/
def Node.setNlink (nd : Node) (nlink : BitVec 16) : Node :=
  { nd with nlink := nlink }

theorem setNlink_call {f : BitVec 16 → BitVec 16} (hi : i ∈ known)
    (hQ : ∀ s', During sb n (update N i ((N i).setNlink (f (N i).nlink))) held known s' → Q () s') :
    wp (setNlink sb i f) Q E s := by
  obtain ⟨v, hAt, hDirs, hPart⟩ := h
  obtain ⟨_, hValid, hFile⟩ := hPart.known i hi
  have hNlink : (s.copy i).nlink = (N i).nlink := by
    rw [← hAt.nlink_eq hValid, ← hFile]
    rfl
  have hShaped : (v.file i).Shaped := by
    rw [← hAt.file]
    exact hAt.inv.shaped i (by simp)
  unfold setNlink
  rw [wp_bind, wp_edit, hNlink]
  apply iupdate_rule ((hAt.dirty i).setNlink hValid (f (N i).nlink)) hValid
  · rw [setFile_file, update_self]
    exact hShaped
  intro s' h' _
  refine hQ s' ⟨_, h', ?_, ?_⟩
  · exact dirOk_setFile hDirs ((hDirs i).congr rfl rfl rfl)
  rw [map_setFile]
  have hNode : node
          { v.file i with nlink := f (N i).nlink } =
        (N i).setNlink (f (N i).nlink) := by
    rw [← hFile]
    exact Node.ext rfl rfl (ents_congr rfl rfl rfl)
  rw [hNode]
  exact hPart.setFile hi _

end Calls

-------
-- Directories
-------

section Directories

variable {sb : Superblock} {n : View Node} {N : Nat → Node}
variable {held known : List Nat} {s : Fs} {dp : Nat} {E : Halt → Fs → Prop}

variable {Q : Bool → Fs → Prop}

/- A known directory is valid, and its node is intended. -/
theorem Partway.node_eq {v : View File} (hPart : Partway n N held known (v.map File.node))
    (hi : dp ∈ known) : v.valid dp = true ∧ (v.file dp).node = N dp :=
  (hPart.known dp hi).2

variable (h : During sb n N held known s) (hdp : dp ∈ known)
include h hdp

theorem dirlookup_call {Q : Option (Nat × Nat) → Fs → Prop} (hDir : (N dp).type = T_DIR)
    (name : Name)
    (hFound : ∀ i m s', findEntry name 0 (N dp).ents = some (i, m) →
        During sb n N (i :: held) known s' →
        Q (some (i, 16 * m)) s')
    (hNone : findEntry name 0 (N dp).ents = none → Q none s)
    (hTable : NINODE ≤ n.inUse sb + held.length → ∀ s', E (.panic .igetNoInodes) s') :
    wp (dirlookup sb dp name) Q E s := by
  have hDuring := h
  obtain ⟨v, hAt, hDirs, hPart⟩ := h
  obtain ⟨hValid, hNode⟩ := hPart.node_eq hdp
  rw [← hNode] at hDir hFound hNone
  apply dirlookup_rule hAt hValid hDir ((hDirs dp).whole hDir)
  · intro i m hFind
    have hMem : some (cname name, i) ∈ (v.file dp).ents :=
      mem_of_getElem? (findEntry_some hFind).2
    apply iget_call hDuring ⟨pos_of_mem_ents hMem, (hDirs dp).ranged _ i hMem⟩
    · intro s' h'
      exact hFound i m s' hFind h'
    · exact hTable
  · exact hNone

theorem writeDirent_call {Q : Int → Fs → Prop} (hDir : (N dp).type = T_DIR) {m : Nat}
    (hm : m ≤ (N dp).ents.length)
    {l : List UInt8} (hl : l.length = 16)
    (hRange : ∀ name i, (Dirent.decode l).slot = some (name, i) → i < sb.ninodes)
    (hDone : ∀ s', During sb n (update N dp ((N dp).setEnt m (Dirent.decode l).slot))
          held known s' →
        Q 16 s')
    (hFail : ∀ r s', r ≠ 16 → During sb n N held known s' → m = (N dp).ents.length →
        NoRoom sb N ∨ MAXENTS ≤ (N dp).ents.length →
        Q r s') : wp (writeDirent sb dp (16 * m) l) Q E s := by
  obtain ⟨v, hAt, hDirs, hPart⟩ := h
  obtain ⟨hValid, hNode⟩ := hPart.node_eq hdp
  rw [← hNode] at hDir hm hDone hFail
  apply writeDirent_rule hAt hValid hDir ((hDirs dp).whole hDir) hm hl
  · intro s' f' h' hNode' hWhole
    have hOk : f'.DirOk sb := by
      constructor
      · exact fun _ => hWhole
      intro name i hMem
      have hEnts : f'.ents = setSlot (v.file dp).ents m (Dirent.decode l).slot :=
        congrArg Node.ents hNode'
      rw [hEnts] at hMem
      rcases mem_setSlot hm hMem with hEq | hOld
      · exact hRange name i hEq.symm
      · exact (hDirs dp).ranged name i hOld
    refine hDone s' ⟨_, h', dirOk_setFile hDirs hOk, ?_⟩
    rw [map_setFile, hNode']
    exact hPart.setFile hdp _
  · intro r s' f' hr h' hNode' hWhole hEnd hReason
    have hEnts : f'.ents = (v.file dp).ents := congrArg Node.ents hNode'
    have hOk : f'.DirOk sb := by
      constructor
      · exact fun _ => hWhole
      · rw [hEnts]
        exact (hDirs dp).ranged
    refine hFail r s' hr ⟨_, h', dirOk_setFile hDirs hOk, ?_⟩ hEnd
      (hReason.imp_left (During.noRoom hPart))
    have hSame := hPart.setFile hdp (N dp)
    rw [update_eq_self] at hSame
    rw [map_setFile, hNode', hNode]
    exact hSame

/- The same directory with an entry in an empty slot. -/
def Node.addEnt (nd : Node) (name : Name) (i : Nat) : Node :=
  nd.setEnt (nd.ents.findIdx Option.isNone) (some (cname name, i))

/-
  A new entry goes to the first empty slot. It is refused if
  the name exists, the directory has its largest size, or no
  block may be left.
-/
theorem dirlink_call {Q : Int → Fs → Prop} {name : Name} {inum : Nat}
    (hDir : (N dp).type = T_DIR) (hPos : 0 < inum) (hLt : inum < sb.ninodes)
    (hDone : ∀ s', findEntry name 0 (N dp).ents = none →
        During sb n (update N dp ((N dp).addEnt name inum)) held known s' →
        Q 0 s')
    (hFail : ∀ s', During sb n N held known s' → (findEntry name 0 (N dp).ents ≠ none ∨
          NoRoom sb N ∨ MAXENTS ≤ (N dp).ents.length) →
        Q (-1) s')
    (hTable : NINODE ≤ n.inUse sb + held.length → ∀ s', E (.panic .igetNoInodes) s') :
    wp (dirlink sb dp name inum) Q E s := by
  have hSlot : (Dirent.decode (Dirent.encode ⟨inum, name⟩)).slot = some (cname name, inum) :=
    Dirent.slot_decode_encode name hPos (Nat.lt_of_lt_of_le hLt sb.hInums)
  have hDuring := h
  obtain ⟨v, hAt, hDirs, hPart⟩ := h
  obtain ⟨hValid, hNode⟩ := hPart.node_eq hdp
  have hType : (v.file dp).type = T_DIR := by
    rw [← hDir, ← hNode]
    rfl
  have hEnts : (v.file dp).ents = (N dp).ents := by
    rw [← hNode]
    rfl
  apply dirlink_rule hAt hValid hType ((hDirs dp).whole hType)
  · intro i m hFind
    have hMem : some (cname name, i) ∈ (v.file dp).ents :=
      mem_of_getElem? (findEntry_some hFind).2
    rw [wp_bind]
    apply iget_call hDuring ⟨pos_of_mem_ents hMem, (hDirs dp).ranged _ i hMem⟩
    · intro s' h'
      apply iput_call h' held known (List.Perm.refl _)
      · intro j hj
        exact ⟨hj, (hPart.known j hj).1⟩
      · intro s'' h''
        apply hFail s'' h''
        simp [← hEnts, hFind]
    · exact hTable
  · intro hFind
    rw [hEnts] at hFind ⊢
    apply writeDirent_call hDuring hdp hDir findIdx_le_length (Dirent.length_encode _)
    · intro name' i hEq
      rw [hSlot] at hEq
      cases hEq
      exact hLt
    · intro s' h'
      rw [hSlot] at h'
      exact hDone s' hFind h'
    · intro r s' hr h' _ hReason
      rw [if_neg hr]
      exact hFail s' h' (.inr hReason)

theorem isdirempty_call (hDir : (N dp).type = T_DIR)
    (hQ : Q (((N dp).ents.drop 2).all Option.isNone) s) : wp (isdirempty sb dp) Q E s := by
  obtain ⟨v, hAt, hDirs, hPart⟩ := h
  obtain ⟨hValid, hNode⟩ := hPart.node_eq hdp
  rw [← hNode] at hDir hQ
  unfold isdirempty
  rw [wp_bind, wp_read, slots_eq hAt hValid hDir ((hDirs dp).whole hDir)]
  by_cases hLen : 2 ≤ (v.file dp).ents.length
  · exact isdiremptyLoop_rule hAt hValid hDir (by omega) hQ
  have hZero : (v.file dp).ents.length - 2 = 0 := by omega
  have hDrop : (v.file dp).node.ents.drop 2 = [] := drop_eq_nil_of_le (Nat.le_of_not_le hLen)
  rw [hDrop] at hQ
  rw [hZero, isdiremptyLoop, wp_pure]
  exact hQ

theorem notEmpty_call
    (hQ : Q (decide ((N dp).type = T_DIR) && !((N dp).ents.drop 2).all Option.isNone) s) :
    wp (notEmpty sb dp) Q E s := by
  unfold notEmpty
  rw [wp_bind, wp_read, h.copy_type hdp]
  by_cases hDir : (N dp).type = T_DIR
  · rw [if_pos hDir, wp_bind]
    apply isdirempty_call h hdp hDir
    rw [decide_eq_true hDir] at hQ
    rw [wp_pure]
    exact hQ
  · rw [decide_eq_false hDir] at hQ
    rw [if_neg hDir, wp_pure]
    exact hQ

end Directories

-------
-- New Inodes
-------

/- A node that has just been made. -/
def Node.fresh (type : BitVec 16) : Node where
  type := type
  nlink := 1
  ents := []

section Born

variable {sb : Superblock} {n : View Node} {N : Nat → Node}
variable {held known : List Nat} {s : Fs} {i : Nat} {type : BitVec 16} {E : Halt → Fs → Prop}

/- New inodes are empty. -/
theorem File.DirOk.fresh (sb : Superblock) (type : BitVec 16) : (File.fresh type).DirOk sb := by
  constructor
  · exact fun _ => rfl
  · intro name j hMem
    simp [File.ents, File.fresh, File.free] at hMem

theorem File.node_fresh (type major minor : BitVec 16) :
    File.node
        { File.fresh type with
          major := major
          minor := minor
          nlink := 1 } =
      Node.fresh type := by
  simp [node, ents, fresh, free, Node.fresh]

/- The inode `i` has been allocated but not filled in. -/
def Born (sb : Superblock) (n : View Node) (N : Nat → Node) (held known : List Nat)
    (i : Nat) (type : BitVec 16) (s : Fs) : Prop :=
  ∃ v : View File, At sb none s ((v.setFile i (File.fresh type)).get i) ∧
      (∀ j, (v.file j).DirOk sb) ∧
      Partway n N held known (v.map File.node) ∧
      (v.file i).type = 0 ∧ i ∉ known

/-
  The new inode is free in the intended nodes, or has been
  freed by the call.
-/
theorem ialloc_call {Q : Option Nat → Fs → Prop} (h : During sb n N held known s) (hType : type ≠ 0)
    (hNone : (∀ j, 1 ≤ j → j < sb.ninodes → (N j).type ≠ 0) → Q none s)
    (hSome : ∀ i s', 1 ≤ i → i < sb.ninodes → ((N i).type = 0 ∨ (N i).nlink = 0 ∧ n.ref i = 0) →
        (∀ j, 1 ≤ j → j < i → (N j).type ≠ 0) →
        (n.ref i = 0 → i ∉ held → n.inUse sb < NINODE) →
        Born sb n N held known i type s' →
        Q (some i) s')
    (hTable : NINODE ≤ n.inUse sb + held.length → ∀ s', E (.panic .igetNoInodes) s') :
    wp (ialloc sb type) Q E s := by
  obtain ⟨v, hAt, hDirs, hPart⟩ := h
  apply ialloc_rule hAt hType
  · intro hAll
    apply hNone
    intro j hj hLt
    rcases hPart.file j with hEq | hEq
    · rw [← hEq]
      exact hAll j hj hLt
    · exact absurd (congrArg Node.type hEq.1) (hAll j hj hLt)
  · intro i s' hi hLt hFree hBefore hLess h'
    apply hSome i s' hi hLt
    · rcases hPart.file i with hEq | hEq
      · rw [← hEq]
        exact .inl hFree
      · exact .inr hEq.2
    · intro j hj hji
      rcases hPart.file j with hEq | hEq
      · rw [← hEq]
        exact hBefore j hj hji
      · exact absurd (congrArg Node.type hEq.1) (hBefore j hj hji)
    · intro hRef hHeld
      rcases hLess with hPos | hLess
      · have hEq := hPart.ref i
        rw [map_ref, count_eq_zero.mpr hHeld] at hEq
        omega
      · exact (hPart.le_inUse sb).trans_lt hLess
    · refine ⟨v, h', hDirs, hPart, hFree, fun hi => ?_⟩
      exact hAt.type_ne_zero (hPart.known i hi).2.1 hFree
  · intro hUse
    exact hTable (hUse.trans (hPart.inUse_le sb))

theorem createInit_call {Q : Unit → Fs → Prop} (h : Born sb n N held known i type s)
    (hType : type ≠ 0) (major minor : BitVec 16)
    (hQ : ∀ s', During sb n (update N i (Node.fresh type)) (i :: held) (i :: known) s' → Q () s') :
    wp (createInit sb i major minor) Q E s := by
  obtain ⟨v, hAt, hDirs, hPart, hFree, hNew⟩ := h
  have hFile : (((v.setFile i (fresh type)).get i).lock i).file i = fresh type := by
    simp [View.lock, View.get]
  have hRef : 0 < ((v.setFile i (fresh type)).get i).ref
      i := by
    have hGet := (hPart.get i).ref_pos mem_cons_self
    simpa [View.get] using hGet
  unfold createInit
  rw [wp_bind]
  apply ilock_rule hAt hRef
  · intro s₁ _ h₁
    have hValid : (((v.setFile i (fresh type)).get i).lock i).valid i = true := by
      simp [View.lock]
    have hCopy := h₁.type_eq hValid
    have hSize := h₁.size_eq hValid
    rw [hFile] at hCopy hSize
    rw [wp_bind, wp_edit]
    have h₂ :=
      (h₁.dirty i).setMeta hValid
        { s₁.copy i with
          major := major
          minor := minor
          nlink := 1 } rfl
        (by rw [← hCopy]; exact hType)
    have hInit : ({ (((v.setFile i (fresh type)).get i).lock i).file i with
            type := (s₁.copy i).type
            major := major
            minor := minor
            nlink := 1
            size := (s₁.copy i).size } : File) =
          { fresh type with
            major := major
            minor := minor
            nlink := 1 } := by
      rw [hFile, ← hCopy, ← hSize]
    rw [hInit] at h₂
    apply iupdate_rule h₂ hValid
    · rw [View.setFile_file, update_self]
      exact shaped_free
    intro s₂ h₃ _
    refine hQ s₂ ⟨_, h₃, dirOk_setFile (fun j => ?_) ?_, ?_⟩
    · exact dirOk_setFile hDirs (File.DirOk.fresh sb type) j
    · exact (File.DirOk.fresh sb type).congr rfl rfl rfl
    · have hBorn :=
        hPart.born hFree hNew (show (Node.fresh type).nlink ≠ 0 by simp [Node.fresh])
      rw [View.map_setFile, node_fresh, View.map_lock, View.map_get, View.map_setFile]
      rw [← View.setFile_setFile _ i (fresh type).node] at hBorn
      exact hBorn
  · intro hZero
    simp only [View.get, View.setFile_file, update_self] at hZero
    exact absurd hZero hType

end Born

-------
-- Paths
-------

/-
  Follow path elements from an inode: the inode of the last
  element, or that of its parent with the last element.
-/
def follow (N : Nat → Node) (parent : Bool) :
    List Name → Nat → Option (Nat × Name)
| [], i => if parent then none else some (i, [])
| name :: rest, i =>
    if (N i).type ≠ T_DIR then none
    else if parent ∧ rest = [] then some (i, name)
    else
      match findEntry name 0 (N i).ents with
      | none => none
      | some (next, _) => follow N parent rest next

/- The inode where a path starts. -/
def pathStart (cwd : Nat) (path : Path) : Nat := if path.head? = some slash then ROOTINO else cwd

/- The inode of a path, or its parent and last element. -/
def findPath (N : Nat → Node) (cwd : Nat) (path : Path) (parent : Bool) : Option (Nat × Name) :=
  follow N parent (pathElems path.length path) (pathStart cwd path)

variable {N : Nat → Node} {name : Name} {path : Path} {names : List Name} {parent : Bool}

/- The parent found for a path is a directory. -/
theorem follow_parent_dir {i dp : Nat}
    (h : follow N true names i = some (dp, name)) : (N dp).type = T_DIR := by
  induction names generalizing i with
  | nil => cases h
  | cons first rest ih =>
    rw [follow] at h
    by_cases hDir : (N i).type = T_DIR
    · rw [if_neg (fun hNe => hNe hDir)] at h
      by_cases hLast : rest = []
      · rw [if_pos ⟨rfl, hLast⟩] at h
        cases h
        exact hDir
      rw [if_neg (fun hAnd => hLast hAnd.2)] at h
      cases hFind : findEntry first 0 (N i).ents with
      | none =>
        rw [hFind] at h
        cases h
      | some next =>
        rw [hFind] at h
        exact ih h
    · rw [if_pos hDir] at h
      cases h

theorem findPath_parent_dir {cwd dp : Nat}
    (h : findPath N cwd path true = some (dp, name)) : (N dp).type = T_DIR :=
  follow_parent_dir h

/- Nodes that differ in link counts only. -/
structure SameTree (N N' : Nat → Node) : Prop where
  type : ∀ i, (N' i).type = (N i).type
  ents : ∀ i, (N' i).ents = (N i).ents

theorem SameTree.follow_eq
    {N N' : Nat → Node} (h : SameTree N N') (parent : Bool) (names : List Name)
    (i : Nat) : follow N' parent names i = follow N parent names i := by
  induction names generalizing i with
  | nil => rfl
  | cons name rest ih => simp only [follow, h.type, h.ents, ih]

/- The inodes a path can lead to. -/
def Sees (N : Nat → Node) (cwd i : Nat) : Prop :=
  i = ROOTINO ∨ i = cwd ∨
    ∃ d name, (N d).type = T_DIR ∧ some (name, i) ∈ (N d).ents

theorem sees_pathStart (N : Nat → Node) (cwd : Nat) (path : Path) :
    Sees N cwd (pathStart cwd path) := by
  unfold pathStart
  split
  · exact .inl rfl
  · exact .inr (.inl rfl)

theorem sees_of_findEntry
    {cwd d i m : Nat} (hDir : (N d).type = T_DIR)
    (h : findEntry name 0 (N d).ents = some (i, m)) : Sees N cwd i :=
  .inr (.inr ⟨d, cname name, hDir, mem_of_getElem? (findEntry_some h).2⟩)

/- The inodes that one path can meet. -/
def Meets (N : Nat → Node) (cwd : Nat) (path : Path) (i : Nat) : Prop :=
  i = pathStart cwd path ∨
    ∃ d name m, (N d).type = T_DIR ∧ name ∈ pathElems path.length path ∧
      findEntry name 0 (N d).ents = some (i, m)

theorem Meets.sees {cwd i : Nat} (h : Meets N cwd path i) :
    Sees N cwd i := by
  rcases h with rfl | ⟨d, name, m, hDir, _, hFind⟩
  · exact sees_pathStart N cwd path
  · exact sees_of_findEntry hDir hFind

/- A path leads to inodes that it meets. -/
theorem follow_meets {cwd i j : Nat}
    (hStart : Meets N cwd path i)
    (hNames : names ⊆ pathElems path.length path)
    (h : follow N parent names i = some (j, name)) : Meets N cwd path j := by
  induction names generalizing i with
  | nil =>
    cases parent with
    | true => cases h
    | false =>
      cases h
      exact hStart
  | cons first rest ih =>
    rw [follow] at h
    rw [cons_subset] at hNames
    split at h
    · cases h
    next hDir =>
      split at h
      · cases h
        exact hStart
      · split at h
        · cases h
        · next next m hFind =>
            exact ih (.inr ⟨i, first, m, not_not.mp hDir, hNames.1, hFind⟩) hNames.2 h

theorem findPath_meets {cwd j : Nat}
    (h : findPath N cwd path parent = some (j, name)) : Meets N cwd path j :=
  follow_meets (.inl rfl) (List.Subset.refl _) h

theorem findPath_sees {cwd j : Nat}
    (h : findPath N cwd path parent = some (j, name)) : Sees N cwd j :=
  (findPath_meets h).sees

/- The name that is left is an element of the path. -/
theorem follow_name_mem {i j : Nat}
    (h : follow N true names i = some (j, name)) : name ∈ names := by
  induction names generalizing i with
  | nil => cases h
  | cons first rest ih =>
    rw [follow] at h
    split at h
    · cases h
    split at h
    · cases h
      exact mem_cons_self
    · split at h
      · cases h
      · exact mem_cons_of_mem first (ih h)

theorem SameTree.sees {N N' : Nat → Node} (h : SameTree N N') {cwd i : Nat}
    (hSees : Sees N' cwd i) : Sees N cwd i := by
  unfold Sees at hSees
  simp only [h.type, h.ents] at hSees
  exact hSees

section Paths

variable {sb : Superblock} {n : View Node} {N : Nat → Node} {held known : List Nat} {s : Fs}
variable {E : Halt → Fs → Prop}

variable {Q : Option (Nat × Name) → Fs → Prop} {path : Path}

/-
  The loop ends with the inode that the elements lead to.
  It holds that inode in place of the first one.
-/
theorem namexLoop_call {parent : Bool} {names : List Name}
    {cwd ip : Nat} (h : During sb n N (ip :: held) known s)
    (hMeets : Meets N cwd path ip) (hNames : names ⊆ pathElems path.length path)
    (hKnown : known ⊆ held)
    (hNone : follow N parent names ip = none → ∀ s', During sb n N held known s' → Q none s')
    (hSome : ∀ i name, follow N parent names ip = some (i, name) →
        ∀ s', During sb n N (i :: held) known s' → Q (some (i, name)) s')
    (hDead : ∀ i, Meets N cwd path i → i ∉ known → (N i).type = 0 ∨ (N i).nlink = 0 ∧ n.ref i = 0 →
        ∀ s', E (.panic .ilockNoType) s')
    (hTable : NINODE ≤ n.inUse sb + (held.length + 1) → ∀ s', E (.panic .igetNoInodes) s') :
    wp (namexLoop sb parent names ip) Q E s := by
  have hStay (j : Nat) (hj : j ∈ known) : j ∈ ip :: known ∧ j ∈ held :=
    ⟨mem_cons_of_mem ip hj, hKnown hj⟩
  induction names generalizing ip s with
  | nil =>
    cases parent with
    | true =>
      rw [namexLoop, if_pos rfl, wp_bind]
      apply iput_call h held known (List.Perm.refl _)
      · exact fun j hj => ⟨hj, hKnown hj⟩
      · intro s' h'
        rw [wp_pure]
        exact hNone rfl s' h'
    | false =>
      rw [namexLoop, if_neg (by simp), wp_pure]
      exact hSome ip [] rfl s h
  | cons name rest ih =>
    rw [follow] at hNone hSome
    rw [cons_subset] at hNames
    rw [namexLoop, wp_bind]
    apply ilock_call h mem_cons_self
    · intro s₁ hType h₁
      rw [wp_bind, wp_read, h₁.copy_type mem_cons_self]
      by_cases hDir : (N ip).type = T_DIR
      · rw [if_neg (fun hNe => hNe hDir)] at hNone hSome ⊢
        by_cases hLast : parent = true ∧ rest = []
        · rw [if_pos hLast] at hNone hSome ⊢
          rw [wp_bind]
          apply iunlock_call h₁ mem_cons_self
          rw [wp_pure]
          exact hSome ip name rfl s₁ (h₁.forget (subset_cons_self ip known))
        rw [if_neg hLast] at hNone hSome ⊢
        rw [wp_bind]
        apply dirlookup_call h₁ mem_cons_self hDir
        · intro next m s₂ hFind h₂
          rw [hFind] at hNone hSome
          rw [wp_bind]
          apply iunlockput_call h₂ (next :: held) known (List.Perm.swap ..)
          · intro j hj
            exact ⟨mem_cons_of_mem ip hj, mem_cons_of_mem next (hKnown hj)⟩
          intro s₃ h₃
          apply ih h₃ ?_ hNames.2 hNone hSome
          · intro j hj
            exact ⟨mem_cons_of_mem next hj, hKnown hj⟩
          · exact .inr ⟨ip, name, m, hDir, hNames.1, hFind⟩
        · intro hFind
          rw [hFind] at hNone
          rw [wp_bind]
          apply iunlockput_call h₁ held known (List.Perm.refl _) hStay
          intro s₂ h₂
          rw [wp_pure]
          exact hNone rfl s₂ h₂
        · exact hTable
      · rw [if_pos hDir] at hNone ⊢
        rw [wp_bind]
        apply iunlockput_call h₁ held known (List.Perm.refl _) hStay
        intro s₂ h₂
        rw [wp_pure]
        exact hNone rfl s₂ h₂
    · exact hDead ip hMeets

theorem namex_call {parent : Bool} {cwd : Nat}
    (h : During sb n N held known s) (hCwd : 0 < n.ref cwd) (hKnown : known ⊆ held)
    (hNone : findPath N cwd path parent = none → ∀ s', During sb n N held known s' → Q none s')
    (hSome : ∀ i name, findPath N cwd path parent = some (i, name) →
        ∀ s', During sb n N (i :: held) known s' → Q (some (i, name)) s')
    (hDead : ∀ i, Meets N cwd path i → i ∉ known → (N i).type = 0 ∨ (N i).nlink = 0 ∧ n.ref i = 0 →
        ∀ s', E (.panic .ilockNoType) s')
    (hTable : NINODE ≤ n.inUse sb + (held.length + 1) → ∀ s', E (.panic .igetNoInodes) s') :
    wp (namex sb cwd path parent) Q E s := by
  have hLoop (s' : Fs) (h' : During sb n N (pathStart cwd path :: held) known s') :
      wp (namexLoop sb parent (pathElems path.length path) (pathStart cwd path)) Q E s' :=
    namexLoop_call h' (.inl rfl) (List.Subset.refl _) hKnown hNone hSome hDead hTable
  unfold namex namexStart
  rw [wp_bind]
  unfold pathStart at hLoop
  by_cases hSlash : path.head? = some slash
  · rw [if_pos hSlash] at hLoop ⊢
    apply iget_call h ⟨by decide, sb.hRoot⟩ hLoop
    intro hUse
    exact hTable (hUse.trans (by omega))
  · rw [if_neg hSlash] at hLoop ⊢
    exact idup_call h hCwd hLoop

theorem namei_call {Q : Option Nat → Fs → Prop} {cwd : Nat}
    (h : During sb n N held known s) (hCwd : 0 < n.ref cwd) (hKnown : known ⊆ held)
    (hNone : findPath N cwd path false = none → ∀ s', During sb n N held known s' → Q none s')
    (hSome : ∀ i name, findPath N cwd path false = some (i, name) →
        ∀ s', During sb n N (i :: held) known s' → Q (some i) s')
    (hDead : ∀ i, Meets N cwd path i → i ∉ known → (N i).type = 0 ∨ (N i).nlink = 0 ∧ n.ref i = 0 →
        ∀ s', E (.panic .ilockNoType) s')
    (hTable : NINODE ≤ n.inUse sb + (held.length + 1) → ∀ s', E (.panic .igetNoInodes) s') :
    wp (namei sb cwd path) Q E s := by
  unfold namei
  rw [wp_bind]
  apply namex_call h hCwd hKnown
  · intro hFind s' h'
    rw [wp_pure]
    exact hNone hFind s' h'
  · intro i name hFind s' h'
    rw [wp_pure]
    exact hSome i name hFind s' h'
  · exact hDead
  · exact hTable

end Paths

end Xv6
