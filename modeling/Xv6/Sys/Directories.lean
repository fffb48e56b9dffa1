import Xv6.Sys.NameSpace

/-
  The directory tree in runs of system calls.

  The tree of directories is kept by every system call that
  adds names in linked directories only and does not overflow
  a link count. What else is kept depends on what is removed
  while it is still in use.

  Key definitions include:
    * `InLinked`
    * `NoOverflow`
    * `TreeImage`

  Key theorems include:
    * `NodesAllow.of_tree`
    * `good_of_tree`
-/

-------
-- Conditions On Calls
-------

namespace Xv6

/- Calls that may enter a name under a path. -/
def SysCall.Enters (c : SysCall) (path : Path) : Prop :=
  (∃ type, c.Makes path type) ∨ ∃ old, c = .link (some old) (some path)

/- Names are added in linked directories only. -/
def InLinked (N : Nat → Node) (cwd : Nat) (c : SysCall) : Prop :=
  ∀ path, c.Enters path → ParentLinked N cwd path

/- A link count that is to grow is not the largest one. -/
structure NoOverflow (N : Nat → Node) (cwd : Nat) (c : SysCall) : Prop where
  makes : ∀ path, c.Makes path T_DIR → ∀ dp name,
    findPath N cwd path true = some (dp, name) →
      (N dp).nlink.toInt ≠ 32767
  links : ∀ old new, c = .link (some old) (some new) →
    ∀ ip name, findPath N cwd old false = some (ip, name) →
      (N ip).nlink.toInt ≠ 32767

theorem SysCall.Makes.type_ne_zero
    {c : SysCall} {path : Path} {type : BitVec 16} (h : c.Makes path type) : type ≠ 0 := by
  rcases h with ⟨_, _, _, _, _, rfl⟩ | ⟨_, _, hCreates⟩
  · decide
  · exact hCreates.type_ne_zero

section Allow

variable {sb : Superblock} {X : (Nat → Node) → Prop} {H : Halt → Prop} {n : View Node} {cwd : Nat}
variable {c : SysCall}

/-
  A call keeps the tree, and another property of the nodes
  if each kind of change keeps it.
-/
theorem NodesAllow.of_tree (h : Tree sb.ninodes n.file) (hFree : FreeClosed sb.ninodes X)
    (hLinked : InLinked n.file cwd c) (hMax : NoOverflow n.file cwd c)
    (hDead : ∀ i, Sees n.file cwd i → n.Gone i → H (.panic .ilockNoType))
    (hMakes : ∀ dp ip name type, ip ≠ dp → (n.file dp).Live →
      (type = T_DIR → (n.file dp).nlink.toInt ≠ 32767) →
      ((n.file ip).type = 0 ∨ (n.file ip).nlink = 0) →
      X (created n.file dp ip name type))
    (hLinks : ∀ dp ip name, (n.file ip).type ≠ T_DIR → (n.file dp).type = T_DIR →
      (n.file ip).nlink.toInt ≠ 32767 →
      X (linked n.file dp ip name))
    (hUnlinks : ∀ path, c = .unlink (some path) → ∀ dp ip m name,
        findPath n.file cwd path true = some (dp, name) →
        findEntry name 0 (n.file dp).ents = some (ip, m) →
        ip ≠ dp → (n.file dp).Child m ip →
        (n.file ip).Live →
        ((n.file ip).type = T_DIR → (n.file ip).Empty) →
        ∀ M, Ends sb.ninodes n (unlinked n.file dp ip m) M → X M) :
    NodesAllow sb (fun N => Tree sb.ninodes N ∧ X N) H n cwd c where
  dead := hDead
  makes := by
    intro path type hc dp ip name hPath hFind _ hip hGone hne M hEnds
    have hDir := findPath_parent_dir hPath
    have hLive := hLinked path (.inl ⟨type, hc⟩) dp name hPath
    have hRoom : type = T_DIR → (n.file dp).nlink.toInt ≠ 32767 := by
      rintro rfl
      exact hMax.makes path hc dp name hPath
    have hGone' := hGone.imp_right (·.1)
    constructor
    · exact (h.created hne hip hc.type_ne_zero hDir hLive hRoom hGone' hFind).freed hEnds
    · exact hFree n _ M (hMakes dp ip name type hne hLive hRoom hGone') hEnds
  links := by
    intro old new hc dp ip name last hOld hNew hFile hType hFind M hEnds
    have hDir := findPath_parent_dir hNew
    have hLive := hLinked new (.inr ⟨old, hc⟩) dp name hNew
    have hRoom := hMax.links old new hc ip last hOld
    constructor
    · exact (h.linked hType hFile hDir hLive hRoom hFind).freed hEnds
    · exact hFree n _ M (hLinks dp ip name hFile hDir hRoom) hEnds
  unlinks := by
    intro path hc dp ip m name hPath hDot hDotdot hFind hne hNlink hEmpty M hEnds
    have hChild : (n.file dp).Child m ip := ⟨cname name, entry_of_findEntry hFind, hDot, hDotdot⟩
    constructor
    · exact (h.unlinked hne hChild hNlink hEmpty).freed hEnds
    · exact hUnlinks path hc dp ip m name hPath hFind hne hChild hNlink hEmpty M hEnds
  counts := by
    -- a name in a linked directory is counted
    intro path _ dp ip m name _ hDot hDotdot hFind _ hNlink
    have hEntry := entry_of_findEntry hFind
    have hLive := h.live_of_child (h.parent_live ⟨_, hEntry, hDot, hDotdot⟩) hEntry hDot
    unfold Node.Live at hLive
    omega

end Allow

-------
-- Runs
-------

/-
  A consistent image: its directories form a tree, and
  everything on it has links.
-/
def TreeImage (sb : Superblock) : Disk → Prop := SavedOk sb (fun N => Tree sb.ninodes N ∧ AllLive N)

section Start

variable {sb : Superblock} {X : (Nat → Node) → Prop}

/- What has links needs no reference. -/
theorem AllLive.settled {n : View Node} (h : AllLive n.file) : n.Settled := by
  intro i hType hZero
  exact absurd (h i hType) (Node.dead_of_zero hZero)

theorem AllLive.upward {N : Nat → Node} (h : AllLive N) : Upward N := by
  intro d hDir hDead
  exact absurd (h d (Node.allocated_of_dir hDir)) hDead

theorem TreeImage.namesOk {d : Disk} (h : TreeImage sb d) (hX : ∀ N, AllLive N → X N) :
    NamesOk sb (fun N => Tree sb.ninodes N ∧ X N) (Procs.bootFs d) where
  consistent := h.consistent
  settled := h.nodes.2.settled
  nodes := ⟨h.nodes.1, hX _ h.nodes.2⟩

/- The image that `mkfs` makes of no files. -/
theorem mkfs_treeImage (hRoom : sb.dataStart < sb.size) : TreeImage sb (mkfs sb) := by
  have hShows := bootFs_shows (mkfs_shows hRoom)
  have hNames : (Procs.bootFs (mkfs sb)).names sb = bootNames := hShows.names
  refine ⟨hShows.consistent ?_, ?_⟩
  · exact bootNames_sound
  · rw [hNames]
    exact ⟨bootNames_tree sb.hRoot, bootNames_allLive⟩

theorem tree_freeClosed (hFree : FreeClosed sb.ninodes X) :
    FreeClosed sb.ninodes (fun N => Tree sb.ninodes N ∧ X N) :=
  fun n N M h hEnds => ⟨h.1.freed hEnds, hFree n N M h.2 hEnds⟩

theorem tree_laws {H : Halt → Prop} (hFree : FreeClosed sb.ninodes X) :
    (namesSpec sb (fun N => Tree sb.ninodes N ∧ X N) H).Laws sb :=
  namesSpec_laws (tree_freeClosed hFree) (fun _ h => Node.allocated_of_dir h.1.tidy.root.1)

end Start

section Runs

variable {P : Type} [Fintype P] [DecidableEq P] {s : Sys P} {sb : Superblock}
variable {X : (Nat → Node) → Prop} {H : Halt → Prop}

omit [DecidableEq P] in
/- The working directory of a process is in use. -/
theorem Counted.ref_cwd_pos {d : Fin NFILE → Int} {l : List Nat} (h : Counted s d l) {p : P}
    (hp : (s.proc p).state = .runnable) : 0 < s.fs.ref (s.cwd p) := by
  obtain ⟨i, hi⟩ := Option.ne_none_iff_exists'.mp (h.active p hp)
  have hPos := h.ref_pos_of_cwd hi
  unfold Sys.cwd
  rw [hi]
  exact hPos

/- What every run of such calls keeps. -/
theorem good_of_tree (E : Procs P) {Image : Disk → Prop} {Allowed : Sys P → SysAction P → Prop}
    (hFree : FreeClosed sb.ninodes X)
    (hOther : ∀ e, e ≠ .panic .ilockNoType → e ≠ .panic .unlinkNlink → H e)
    (hImage : ∀ d, Image d → TreeImage sb d) (hStart : ∀ N, AllLive N → X N)
    (hCall : ∀ s p c, NamesOk sb (fun N => Tree sb.ninodes N ∧ X N) s.fs →
      0 < s.fs.ref (s.cwd p) → Allowed s (.call p c) →
      NodesAllow sb (fun N => Tree sb.ninodes N ∧ X N) H (s.fs.names sb) (s.cwd p) c)
    (hCrash : ∀ s lost, Allowed s (.crash lost) → ∀ N, X N → AllLive N)
    (h : (E.system sb Image).Reach Allowed s) :
    Good (namesSpec sb (fun N => Tree sb.ninodes N ∧ X N) H) s 0 [] := by
  refine good_of_reach E (tree_laws hFree) ?_ ?_ ?_ h
  · intro d hd
    exact (hImage d hd).namesOk hStart
  · intro s p c hGood hp hAllowed
    have hCwd := hGood.counted.ref_cwd_pos hp
    exact (hCall s p c hGood.ok hCwd hAllowed).allows
      (tree_freeClosed hFree) (fun _ => hOther _ (by simp) (by simp))
      (hOther _ (by simp) (by simp)) hGood.ok hCwd
  · -- what is on the disk is an image again
    intro s lost d _ hAllowed hSaved
    have hAll := hCrash s lost hAllowed _ hSaved.nodes.2
    exact ⟨hSaved.consistent, hAll.settled, hSaved.nodes⟩

end Runs

end Xv6
