import Xv6.Sys.KnownRuns

/-
  Name spaces that are given by a list of nodes.

  Runs on a small file system are followed by evaluating the
  changes of such a table.

  Key definitions include:
    * `nodesOf`, `refsOf`
    * `madeIn`, `linkedIn`, `unlinkedIn`
    * `SafeTable`

  Key theorems include:
    * `SafeTable.clear`
    * `standing_boot`
-/

open Function List

-------
-- Tables Of Nodes
-------

namespace Xv6

/- The nodes of a list; all other inodes are free. -/
def nodesOf (l : List Node) : Nat → Node := fun i => l.getD i Node.free

/- The counts of references to the members of a list. -/
def refsOf (r : List Nat) : Nat → Int := fun i => r.count i

/- An inode that a path may lead to. -/
def Alive (l : List Node) (r : List Nat) (i : Nat) : Prop :=
  (nodesOf l i).type ≠ 0 ∧ ((nodesOf l i).nlink ≠ 0 ∨ i ∈ r)

instance (l : List Node) (r : List Nat) (i : Nat) : Decidable (Alive l r i) :=
  inferInstanceAs (Decidable (_ ∧ _))

section Tables

variable {sb : Superblock} {l : List Node} {r : List Nat} {cwd i : Nat}

variable {dp ip : Nat}

theorem nodesOf_of_length_le (h : l.length ≤ i) : nodesOf l i = Node.free := by
  unfold nodesOf
  rw [getD_eq_getElem?_getD, getElem?_eq_none h]
  rfl

theorem nodesOf_mem (h : i < l.length) : nodesOf l i ∈ l := by
  unfold nodesOf
  rw [getD_eq_getElem?_getD, getElem?_eq_getElem h]
  exact getElem_mem h

/- One node is replaced. -/
theorem update_nodesOf (h : i < l.length) (nd : Node) :
    update (nodesOf l) i nd = nodesOf (l.set i nd) := by
  funext j
  unfold nodesOf
  by_cases hj : j = i
  · subst hj
    simp [h]
  · rw [update_of_ne hj]
    simp [Ne.symm hj]

/- Tables agree if they do so at their own places. -/
theorem nodesOf_congr {N : Nat → Node} (h : ∀ i, i < l.length → N i = nodesOf l i)
    (hFree : ∀ i, l.length ≤ i → N i = Node.free) : N = nodesOf l := by
  funext i
  rcases Nat.lt_or_ge i l.length with hi | hi
  · exact h i hi
  · rw [hFree i hi, nodesOf_of_length_le hi]

/- The freeing of inodes in a table. -/
def settledIn (l : List Node) (r : List Nat) : List Node :=
  l.mapIdx (fun i nd => if nd.nlink = 0 ∧ i ∉ r then Node.free else nd)

theorem settle_nodesOf : settle (refsOf r) (nodesOf l) = nodesOf (settledIn l r) := by
  have hIff (i : Nat) : refsOf r i = 0 ↔ i ∉ r := by
    rw [← count_eq_zero]
    unfold refsOf
    omega
  apply nodesOf_congr
  · intro i hi
    unfold settledIn at hi ⊢
    rw [length_mapIdx] at hi
    unfold settle nodesOf
    simp [hi, hIff]
  · intro i hi
    unfold settledIn at hi
    rw [length_mapIdx] at hi
    unfold settle
    rw [nodesOf_of_length_le hi]
    exact ite_self _

/- The changes of the name space in a table. -/
def madeIn (l : List Node) (dp ip : Nat) (name : Name) (type : BitVec 16) : List Node :=
  (l.set ip (newNode type dp ip)).set dp
    { (nodesOf l dp).addEnt name ip with
      nlink :=
        if type = T_DIR then (nodesOf l dp).nlink + 1
        else (nodesOf l dp).nlink }

def linkedIn (l : List Node) (dp ip : Nat) (name : Name) : List Node :=
  (l.set ip ((nodesOf l ip).setNlink ((nodesOf l ip).nlink + 1))).set
    dp ((nodesOf l dp).addEnt name ip)

def unlinkedIn (l : List Node) (dp ip m : Nat) : List Node :=
  (l.set dp
    { (nodesOf l dp).setEnt m none with
      nlink :=
        if (nodesOf l ip).type = T_DIR then
          (nodesOf l dp).nlink - 1
        else (nodesOf l dp).nlink }).set ip
    ((nodesOf l ip).setNlink ((nodesOf l ip).nlink - 1))

/- Two nodes are replaced. -/
theorem update_update_nodesOf {j : Nat} (hi : i < l.length) (hj : j < l.length) (nd nd' : Node) :
    update (update (nodesOf l) i nd) j nd' = nodesOf ((l.set i nd).set j nd') := by
  rw [update_nodesOf hi, update_nodesOf]
  rw [length_set]
  exact hj

theorem created_nodesOf (hdp : dp < l.length) (hip : ip < l.length) (name : Name)
    (type : BitVec 16) : created (nodesOf l) dp ip name type = nodesOf (madeIn l dp ip name type) :=
  update_update_nodesOf hip hdp ..

theorem linked_nodesOf (hdp : dp < l.length) (hip : ip < l.length) (name : Name) :
    linked (nodesOf l) dp ip name = nodesOf (linkedIn l dp ip name) :=
  update_update_nodesOf hip hdp ..

theorem unlinked_nodesOf (hdp : dp < l.length) (hip : ip < l.length) (m : Nat) :
    unlinked (nodesOf l) dp ip m = nodesOf (unlinkedIn l dp ip m) :=
  update_update_nodesOf hdp hip ..

theorem withRefs_refsOf (held : List Nat) : withRefs (refsOf r) held = refsOf (held ++ r) := by
  funext i
  unfold withRefs refsOf
  rw [count_append]
  push_cast
  ring

theorem moved_refsOf (old new : Nat) : moved (refsOf (old :: r)) old new = refsOf (new :: r) := by
  funext i
  unfold moved
  rw [withRefs_refsOf]
  by_cases hi : i = old
  · subst hi
    rw [update_self]
    simp only [refsOf, singleton_append, count_cons]
    rw [if_pos (beq_self_eq_true i)]
    push_cast
    ring
  · rw [update_of_ne hi]
    simp only [refsOf, singleton_append, count_cons]
    simp [Ne.symm hi]

theorem card_refsOf_le :
    ((Finset.range sb.ninodes).filter (fun i => 0 < refsOf r i)).card ≤ r.length := by
  have hSub : (Finset.range sb.ninodes).filter (fun i => 0 < refsOf r i) ⊆ r.toFinset := by
    intro i hi
    obtain ⟨_, hPos⟩ := Finset.mem_filter.mp hi
    rw [mem_toFinset, ← count_pos_iff]
    unfold refsOf at hPos
    omega
  exact (Finset.card_le_card hSub).trans r.toFinset_card_le

theorem table_refsOf (h : r.length + 2 < NINODE) :
    ((Finset.range sb.ninodes).filter (fun i => 0 < refsOf r i)).card + 2 < NINODE :=
  (Nat.add_le_add_right card_refsOf_le 2).trans_lt h

theorem card_nodesOf_lt (hLen : l ≠ []) (hZero : (nodesOf l 0).type = 0) :
    ((Finset.range sb.ninodes).filter (fun i => (nodesOf l i).type ≠ 0)).card + 1 ≤
      l.length := by
  have hSub : (Finset.range sb.ninodes).filter (fun i => (nodesOf l i).type ≠ 0) ⊆
        (Finset.range l.length).erase 0 := by
    intro i hi
    obtain ⟨_, hType⟩ := Finset.mem_filter.mp hi
    rw [Finset.mem_erase, Finset.mem_range]
    constructor
    · rintro rfl
      exact hType hZero
    · by_contra hLe
      rw [nodesOf_of_length_le (not_lt.mp hLe)] at hType
      exact hType rfl
  have hPos := length_pos_iff.mpr hLen
  have hCard := Finset.card_le_card hSub
  rw [Finset.card_erase_of_mem (Finset.mem_range.mpr hPos), Finset.card_range] at hCard
  omega

/- A small table in which paths lead to living inodes. -/
def SafeTable (sb : Superblock) (l : List Node) (r : List Nat) (cwd : Nat) : Prop :=
  (cwd ∈ r ∧ (nodesOf l cwd).type ≠ 0) ∧
  Alive l r ROOTINO ∧
  (∀ nd ∈ l, ∀ e ∈ nd.ents, ∀ x ∈ e, Alive l r x.2) ∧
  r.length + 2 < NINODE ∧
  (nodesOf l 0).type = 0 ∧
  l.length * NADDR < sb.size - sb.dataStart

instance : Decidable (SafeTable sb l r cwd) := inferInstanceAs (Decidable (_ ∧ _))

theorem refsOf_pos (h : i ∈ r) : 0 < refsOf r i := by
  have hPos := count_pos_iff.mpr h
  unfold refsOf
  omega

/- Calls in such a table cannot fail. -/
theorem SafeTable.clear (h : SafeTable sb l r cwd) : Clear sb (nodesOf l) (refsOf r) cwd := by
  obtain ⟨⟨hHere, hCwd⟩, hRoot, hEnts, hTable, hZero, hRoom⟩ := h
  have hHeld {j : Nat} (hj : Alive l r j) : (nodesOf l j).type ≠ 0 ∧
        ((nodesOf l j).nlink ≠ 0 ∨ refsOf r j ≠ 0) :=
    ⟨hj.1, hj.2.imp_right (fun hMem => (refsOf_pos hMem).ne')⟩
  refine ⟨refsOf_pos hHere, ?_, table_refsOf hTable, ?_⟩
  · rintro i (rfl | rfl | ⟨d, name, _, hMem⟩)
    · exact hHeld hRoot
    · exact hHeld ⟨hCwd, .inr hHere⟩
    · rcases Nat.lt_or_ge d l.length with hd | hd
      · exact hHeld (hEnts _ (nodesOf_mem hd) _ hMem (name, i) rfl)
      · rw [nodesOf_of_length_le hd] at hMem
        cases hMem
  · have hne : l ≠ [] := by
      rintro rfl
      exact hRoot.1 rfl
    exact (Nat.mul_le_mul_right NADDR (card_nodesOf_lt hne hZero)).trans_lt hRoom

/- Nobody names the inode. -/
theorem not_entry_nodesOf (h : ∀ nd ∈ l, ∀ e ∈ nd.ents, ∀ x ∈ e, x.2 ≠ i) (d a : Nat) (nm : Name) :
    ¬ (nodesOf l d).Entry a nm i := by
  intro hEntry
  rcases Nat.lt_or_ge d l.length with hd | hd
  · exact h _ (nodesOf_mem hd) _ hEntry.mem (nm, i) rfl rfl
  · rw [nodesOf_of_length_le hd] at hEntry
    cases hEntry

theorem firstFree_nodesOf (h : (1 ≤ i ∧ i < sb.ninodes) ∧ (nodesOf l i).type = 0 ∧
      ∀ j < i, 1 ≤ j → (nodesOf l j).type ≠ 0) : FirstFree sb (nodesOf l) i :=
  ⟨h.1.1, h.1.2, h.2.1, fun j hPos hLt => h.2.2 j hLt hPos⟩

end Tables

section Runs

variable {P : Type} [DecidableEq P] {sb : Superblock} {l : List Node} {r : List Nat}
variable {p : P} {cwd : Nat} {s : Sys P}

namespace Standing

variable {fs' : Fs}

omit [DecidableEq P] in
/- After a transaction, in a new table. -/
theorem committed (h : Standing sb (nodesOf l) (refsOf r) p cwd s) {l' : List Node}
    {N' : Nat → Node} (hKnown : Known sb (settle (refsOf r) N') (refsOf r) fs')
    (hNodes : N' = nodesOf l') :
    Standing sb (nodesOf (settledIn l' r)) (refsOf r) p cwd (s.committed fs') := by
  rw [hNodes, settle_nodesOf] at hKnown
  exact ⟨hKnown, h.runnable, h.cwd⟩

/- After a move to another directory. -/
theorem moved {ip : Nat} (h : Standing sb (nodesOf l) (refsOf (cwd :: r)) p cwd s)
    (hKnown : Known sb (settle (moved (refsOf (cwd :: r)) cwd ip) (nodesOf l))
      (moved (refsOf (cwd :: r)) cwd ip) fs') :
    Standing sb (nodesOf (settledIn l (ip :: r))) (refsOf (ip :: r)) p ip
      ((s.committed fs').setProc p
        { s.proc p with cwd := some ip }) := by
  rw [moved_refsOf, settle_nodesOf] at hKnown
  refine ⟨hKnown, ?_, ?_⟩
  · simpa [Sys.setProc] using h.runnable
  · simp [Sys.setProc]

end Standing

end Runs

/- A directory that can be made below the root. -/
def Makeable (sb : Superblock) (l : List Node) (r : List Nat) (path : Path) (ip : Nat)
    (name : Name) : Prop :=
  SafeTable sb l r ROOTINO ∧
  argstr (some path) = some path ∧
  findPath (nodesOf l) ROOTINO path true = some (ROOTINO, name) ∧
  findEntry name 0 (nodesOf l ROOTINO).ents = none ∧
  ((1 ≤ ip ∧ ip < sb.ninodes) ∧ (nodesOf l ip).type = 0 ∧
    ∀ j < ip, 1 ≤ j → (nodesOf l j).type ≠ 0) ∧
  (nodesOf l ROOTINO).ents.length < MAXENTS ∧
  (nodesOf l ROOTINO).Live ∧
  ROOTINO < l.length ∧ ip < l.length

instance (sb : Superblock) (l : List Node) (r : List Nat) (path : Path) (ip : Nat)
    (name : Name) : Decidable (Makeable sb l r path ip name) :=
  inferInstanceAs (Decidable (_ ∧ _))

/- The disk that `mkfs` makes. -/
def fullSb : Superblock where
  size := FSSIZE
  ninodes := 200
  nlog := LOGSIZE
  logstart := 2
  inodestart := 32
  bmapstart := 45
  hLog := smallSb.hLog
  hInodes := by decide
  hBitmap := by decide
  hData := by decide
  hSize := by decide
  hInums := by decide
  hRoot := by decide

/- The first table, with room for more inodes. -/
def firstTable (k : Nat) : List Node := Node.free :: rootNode :: List.replicate k Node.free

theorem bootNames_file (k : Nat) : bootNames.file = nodesOf (firstTable k) := by
  funext i
  rcases i with _ | _ | i
  · rfl
  · rfl
  · have hFree : (replicate k Node.free)[i]?.getD Node.free = Node.free := by
      rw [getElem?_replicate]
      split <;> rfl
    exact hFree.symm

theorem bootNames_ref : bootNames.ref = refsOf [ROOTINO] := by
  funext i
  by_cases hi : i = ROOTINO
  · subst hi
    rfl
  · simp [bootNames, View.get, mkfsNames, refsOf, hi, Ne.symm hi]

/- The first process after a start from `mkfs`. -/
theorem standing_mkfs {P : Type} [DecidableEq P] (E : Procs P) {sb : Superblock}
    (hRoom : sb.dataStart < sb.size) (k : Nat) :
    Standing sb (nodesOf (firstTable k)) (refsOf [ROOTINO])
      E.initproc ROOTINO (E.boot (mkfs sb)) := by
  have hShows := bootFs_shows (mkfs_shows hRoom)
  have hKnown : Known sb bootNames.file bootNames.ref (Procs.bootFs (mkfs sb)) :=
    .of_shows hShows bootNames_allLive.settled bootNames_sound
  rw [bootNames_file k, bootNames_ref] at hKnown
  exact ⟨hKnown, by simp [Procs.boot], by simp [Procs.boot]⟩

theorem standing_boot {P : Type} [DecidableEq P] (E : Procs P) (k : Nat) :
    Standing fullSb (nodesOf (firstTable k)) (refsOf [ROOTINO])
      E.initproc ROOTINO (E.boot (mkfs fullSb)) :=
  standing_mkfs E (by decide) k

end Xv6
