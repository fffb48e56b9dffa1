import Xv6.Sys.NodeTables
import Xv6.Sys.RefCounts

/-
  What is removed while it is still in use.

  Inodes are freed by link and reference counts alone. Names
  can still be added to a directory that has been removed,
  the directory above it can be removed as well, and what is
  in use without links is lost in a crash. The results say
  which calls must not be made, and what holds without them.

  Main results are:
    * `lookups_find_allocated_inodes`
    * `allocated_inodes_are_reachable`
    * `recovery_leaves_no_orphans`
-/

open Xv6.Procs

-------
-- Conditions
-------

namespace Xv6

variable {P : Type}

/-
  A call adds names in linked directories only and overflows
  no link count.
-/
def Careful (sb : Superblock) (s : Sys P) (a : SysAction P) : Prop :=
  ∃ p c, a = .call p c ∧ InLinked (s.fs.names sb).file (s.cwd p) c ∧
    NoOverflow (s.fs.names sb).file (s.cwd p) c

/- No directory above a removed one is removed. -/
def SparesAbove (N : Nat → Node) (cwd : Nat) (c : SysCall) : Prop :=
  ∀ path, c = .unlink (some path) → ∀ dp name ip m,
    findPath N cwd path true = some (dp, name) →
      findEntry name 0 (N dp).ents = some (ip, m) →
      ∀ d, (N d).type = T_DIR → ¬ (N d).Live → ¬ (N d).Entry 1 dotdot ip

/- The last name of an inode in use is not removed. -/
def SparesHeld (n : View Node) (cwd : Nat) (c : SysCall) : Prop :=
  ∀ path, c = .unlink (some path) → ∀ dp name ip m,
      findPath n.file cwd path true = some (dp, name) →
      findEntry name 0 (n.file dp).ents = some (ip, m) →
      (n.file ip).nlink = 1 → n.ref ip = 0

-------
-- Invariants
-------

variable {P : Type} [Fintype P] [DecidableEq P] {s : Sys P} {sb : Superblock} {p : P} {c : SysCall}

omit [Fintype P] [DecidableEq P] in
/- Careful calls keep the tree. -/
theorem allow_careful (hOk : NamesOk sb (fun N => Tree sb.ninodes N ∧ True) s.fs)
    (hCareful : Careful sb s (.call p c)) :
    NodesAllow sb (fun N => Tree sb.ninodes N ∧ True)
      (fun e => e ≠ .panic .unlinkNlink) (s.fs.names sb)
      (s.cwd p) c := by
  obtain ⟨_, _, hEq, hLinked, hMax⟩ := hCareful
  cases hEq
  exact .of_tree hOk.nodes.1 (fun _ _ _ _ _ => trivial) hLinked hMax (fun _ _ _ => by simp)
    (fun _ _ _ _ _ _ _ _ => trivial) (fun _ _ _ _ _ _ => trivial)
    (fun _ _ _ _ _ _ _ _ _ _ _ _ _ _ => trivial)

theorem good_of_careful (E : Procs P) (h : (E.system sb (TreeImage sb)).Reach (Careful sb) s) :
    Good (namesSpec sb (fun N => Tree sb.ninodes N ∧ True) (fun e => e ≠ .panic .unlinkNlink))
      s 0 [] := by
  refine good_of_tree E (fun _ _ _ _ _ => trivial) (fun _ _ hOther => hOther) (fun _ hd => hd)
    (fun _ _ => trivial) ?_ ?_ h
  · intro s p c hOk _ hCareful
    exact allow_careful hOk hCareful
  · rintro s lost ⟨_, _, hEq, _⟩
    cases hEq

omit [DecidableEq P] in
/- The next call of a run, for the rules of system calls. -/
theorem allows_of_careful (hGood : Good (namesSpec sb (fun N => Tree sb.ninodes N ∧ True)
          (fun e => e ≠ .panic .unlinkNlink))
        s 0 [])
    (hp : (s.proc p).state = .runnable) (hCareful : Careful sb s (.call p c)) :
    (namesSpec sb (fun N => Tree sb.ninodes N ∧ True)
      (fun e => e ≠ .panic .unlinkNlink)).Allows sb s p c :=
  (allow_careful hGood.ok hCareful).allows (tree_freeClosed (fun _ _ _ _ _ => trivial))
    (fun _ => by simp) (by simp) hGood.ok
    (hGood.counted.ref_cwd_pos hp)

omit [Fintype P] [DecidableEq P] in
/- In addition, removed directories are below linked ones. -/
theorem allow_upward (hOk : NamesOk sb (fun N => Tree sb.ninodes N ∧ Upward N) s.fs)
    (hCwd : 0 < s.fs.ref (s.cwd p)) (hLinked : InLinked (s.fs.names sb).file (s.cwd p) c)
    (hMax : NoOverflow (s.fs.names sb).file (s.cwd p) c)
    (hSpares : SparesAbove (s.fs.names sb).file (s.cwd p) c) :
    NodesAllow sb (fun N => Tree sb.ninodes N ∧ Upward N)
      (fun e => e ≠ .panic .ilockNoType) (s.fs.names sb)
      (s.cwd p) c := by
  obtain ⟨hTree, hUp⟩ := hOk.nodes
  refine .of_tree hTree (fun _ _ _ => Upward.freed) hLinked hMax ?_ ?_ ?_ ?_
  · intro i hSees hGone
    exact absurd hGone (hTree.not_gone hUp hOk.settled hOk.consistent.sound hCwd hSees)
  · intro dp ip name type hne hLive hRoom hGone
    exact Upward.created hTree hne hLive hRoom hGone hUp
  · intro dp ip name hFile hDir _
    exact Upward.linked hFile hDir hUp
  · intro path hc dp ip m name hPath hFind hne hChild hLive hEmpty M hEnds
    exact (Upward.unlinked hTree hne hChild hLive hEmpty hUp
      (hSpares path hc dp name ip m hPath hFind)).freed hEnds

omit [Fintype P] [DecidableEq P] in
/- In addition, everything has links. -/
theorem allow_allLive (hOk : NamesOk sb (fun N => Tree sb.ninodes N ∧ AllLive N) s.fs)
    (hMax : NoOverflow (s.fs.names sb).file (s.cwd p) c)
    (hSpares : SparesHeld (s.fs.names sb) (s.cwd p) c) :
    NodesAllow sb (fun N => Tree sb.ninodes N ∧ AllLive N)
      (fun _ => True) (s.fs.names sb) (s.cwd p) c := by
  obtain ⟨hTree, hAll⟩ := hOk.nodes
  have hLinked : InLinked (s.fs.names sb).file (s.cwd p) c := by
    intro path _ dp name hPath
    exact hAll dp (Node.allocated_of_dir (findPath_parent_dir hPath))
  refine .of_tree hTree (fun _ _ _ => AllLive.freed) hLinked hMax (fun _ _ _ => trivial) ?_ ?_ ?_
  · intro dp ip name type hne hLive hRoom _
    exact AllLive.created hne hLive hRoom hAll
  · intro dp ip name hFile hDir hRoom
    exact AllLive.linked hFile hDir hRoom hAll
  · intro path hc dp ip m name hPath hFind hne hChild hLive hEmpty M hEnds
    exact AllLive.unlinked hTree hne hChild hLive hEmpty hAll
      (hSpares path hc dp name ip m hPath hFind) hEnds

-------
-- A Removed Directory
-------

/- Any calls, but no crash. -/
def Calling {P : Type} (_ : Sys P) (a : SysAction P) : Prop := ∃ p c, a = .call p c

/- `/a` is made, entered and removed. -/
def tableMade : List Node :=
  settledIn (madeIn (firstTable 3) ROOTINO 2 [97] T_DIR) [ROOTINO]

def tableRemoved : List Node := settledIn (unlinkedIn (settledIn tableMade [2]) ROOTINO 2 2) [2]

/- `mkdir("/a")` is the first call. -/
theorem reach_first {A : Sys Bool → SysAction Bool → Prop}
    {I : Disk → Prop} (hImage : I (mkfs fullSb))
    (hAllowed : ∀ s, (s.fs.names fullSb).file = nodesOf (firstTable 3) → s.cwd false = ROOTINO →
      A s (.call false (.mkdir (some [47, 97])))) :
    ∃ s, (pairProcs.system fullSb I).Reach A s ∧ s.fs.disk ∈ s.commits ∧
      Standing fullSb (nodesOf tableMade) (refsOf [ROOTINO]) false ROOTINO s := by
  have hStart : (pairProcs.system fullSb I).Reach A (pairProcs.boot (mkfs fullSb)) :=
    .init ⟨_, hImage, rfl⟩
  have h := standing_boot pairProcs 3
  obtain ⟨_, hStep, hKnown⟩ := h.mkdirs pairProcs [47, 97] ((SafeTable.clear (by decide)).on _)
    ROOTINO 2 [97] (by decide) ⟨by decide, by decide, firstFree_nodesOf (by decide), by decide⟩
  have h' := h.committed hKnown (created_nodesOf (by decide) (by decide) _ _)
  exact ⟨_, reach_step hStart hStep
    (hAllowed _ h.known.file h.cwd_eq), List.mem_cons_self, h'⟩

theorem reach_removed {A : Sys Bool → SysAction Bool → Prop} (hAllowed : ∀ s p c, A s (.call p c)) :
    ∃ s, (pairProcs.system fullSb (fun d => d = mkfs fullSb)).Reach A s ∧ s.fs.disk ∈ s.commits ∧
      Standing fullSb (nodesOf tableRemoved) (refsOf [2]) false 2 s := by
  obtain ⟨_, hReach₁, _, h₁⟩ := reach_first (I := (· = mkfs fullSb)) rfl
    (fun s _ _ => hAllowed s ..)
  obtain ⟨_, hStep₂, hKnown₂⟩ := h₁.chdirs (SafeTable.clear (by decide)) pairProcs [47, 97] 2
    [] (by decide) (by decide) (by decide)
  have h₂ := h₁.moved hKnown₂
  obtain ⟨_, hStep₃, hKnown₃⟩ := h₂.unlinks (SafeTable.clear (by decide)) pairProcs [47, 97]
    ROOTINO 2 2 [97] (by decide) (by decide)
    (by decide) (by decide) (by decide) (by decide) (by decide)
  have h₃ := h₂.committed hKnown₃ (unlinked_nodesOf (by decide) (by decide) _)
  have hReach₂ := reach_step hReach₁ hStep₂ (hAllowed ..)
  have hReach₃ := reach_step hReach₂ hStep₃ (hAllowed ..)
  exact ⟨_, hReach₃, List.mem_cons_self, h₃⟩

-------
-- A First Directory
-------

variable {N : Nat → Node} {cwd : Nat} {path : Path}

/- What `mkdir` makes. -/
theorem path_of_makes_mkdir {path' : Path} {type : BitVec 16}
    (h : (SysCall.mkdir (some path)).Makes path' type) : path' = path := by
  rcases h with ⟨_, _, hc, _⟩ | ⟨_, _, ⟨arg, hc, hArg, _⟩ | h⟩
  · cases hc
  · cases hc
    exact (Option.some.inj (Option.filter_eq_some_iff.mp hArg).1).symm
  · obtain ⟨_, _, _, hc, _⟩ := h
    cases hc

theorem inLinked_mkdir (hLinked : ParentLinked N cwd path) :
    InLinked N cwd (.mkdir (some path)) := by
  rintro path' (⟨type, hMakes⟩ | ⟨_, hc⟩)
  · rw [path_of_makes_mkdir hMakes]
    exact hLinked
  · cases hc

theorem noOverflow_mkdir
    (hMax : ∀ dp name, findPath N cwd path true = some (dp, name) → (N dp).nlink.toInt ≠ 32767) :
    NoOverflow N cwd (.mkdir (some path)) where
  makes := by
    intro path' hMakes
    rw [path_of_makes_mkdir hMakes]
    exact hMax
  links := by simp

theorem findPath_first :
    findPath (nodesOf (firstTable 3)) ROOTINO [47, 97] true = some (ROOTINO, [97]) := by
  decide

theorem parentLinked_first : ParentLinked (nodesOf (firstTable 3)) ROOTINO [47, 97] := by
  intro dp name hPath
  cases hPath
  decide

theorem noOverflow_first :
    NoOverflow (nodesOf (firstTable 3)) ROOTINO (.mkdir (some [47, 97])) := by
  apply noOverflow_mkdir
  intro dp name hPath
  cases hPath
  decide

theorem careful_first {s : Sys Bool} (hFile : (s.fs.names fullSb).file = nodesOf (firstTable 3))
    (hCwd : s.cwd false = ROOTINO) : Careful fullSb s (.call false (.mkdir (some [47, 97]))) := by
  refine ⟨_, _, rfl, ?_, ?_⟩
  · rw [hFile]
    exact inLinked_mkdir parentLinked_first
  · rw [hFile, hCwd]
    exact noOverflow_first

-------
-- Lookups
-------

/- A careful call that removes no directory above a removed
  one. -/
def Orderly {P : Type} (sb : Superblock) (s : Sys P) (a : SysAction P) : Prop :=
  Careful sb s a ∧ ∀ p c, a = .call p c →
    SparesAbove (s.fs.names sb).file (s.cwd p) c

theorem good_of_orderly (E : Procs P) (h : (E.system sb (TreeImage sb)).Reach (Orderly sb) s) :
    Good (namesSpec sb (fun N => Tree sb.ninodes N ∧ Upward N) (fun e => e ≠ .panic .ilockNoType))
      s 0 [] := by
  refine good_of_tree E (fun _ _ _ => Upward.freed) (fun _ hOther _ => hOther) (fun _ hd => hd)
    (fun _ => AllLive.upward) ?_ ?_ h
  · rintro s p c hOk hCwd ⟨⟨_, _, hEq, hLinked, hMax⟩, hSpares⟩
    cases hEq
    exact allow_upward hOk hCwd hLinked hMax (hSpares p c rfl)
  · rintro s lost ⟨⟨_, _, hEq, _⟩, _⟩
    cases hEq

/-
  In every run of such calls, every entry of every directory
  leads to an allocated inode, also in a directory that has
  been removed, where `..` leads to a linked directory. The
  next call does not stop in `ilock`.
-/
theorem lookups_find_allocated_inodes
    (E : Procs P)
    (sb : Superblock)
    (hReach : (E.system sb (TreeImage sb)).Reach (Orderly sb) s) :
    (∀ d a nm i, ((s.fs.names sb).file d).Entry a nm i →
        ((s.fs.names sb).file i).type ≠ 0) ∧
    (∀ d, ((s.fs.names sb).file d).type = T_DIR →
        ¬ ((s.fs.names sb).file d).Live →
      ∃ p, ((s.fs.names sb).file d).Entry 1 dotdot p ∧
        ((s.fs.names sb).file p).type = T_DIR ∧
        ((s.fs.names sb).file p).Live) ∧
    ∀ p c, Orderly sb s (.call p c) → E.step sb s (.call p c) ≠
        .fault (.fs (.panic .ilockNoType)) := by
  have hGood := good_of_orderly E hReach
  obtain ⟨hTree, hUp⟩ := hGood.ok.nodes
  refine ⟨fun d a nm i => hTree.entry_allocated hUp, hUp, ?_⟩
  rintro p c ⟨⟨_, _, hEq, hLinked, hMax⟩, hSpares⟩ hFault
  cases hEq
  obtain ⟨p', c', s', hEq, hp, _⟩ := E.fault_cases hFault
  cases hEq
  have hCwd := hGood.counted.ref_cwd_pos hp
  have hAllow := (allow_upward hGood.ok hCwd hLinked hMax
    (hSpares p c rfl)).allows (tree_freeClosed (fun _ _ _ => Upward.freed))
      (fun _ => by simp) (by simp) hGood.ok hCwd
  exact halts_of_fault E (tree_laws (fun _ _ _ => Upward.freed)) hAllow hGood hFault rfl

/- The entry `..` of the first directory. -/
theorem lookup_above_first_directory :
    ∃ s, (pairProcs.system fullSb (TreeImage fullSb)).Reach (Orderly fullSb) s ∧
      ((s.fs.names fullSb).file 2).Entry 1 dotdot ROOTINO ∧
      ((s.fs.names fullSb).file ROOTINO).type ≠ 0 := by
  obtain ⟨s, hReach, _, h⟩ := reach_first (A := Orderly fullSb) (mkfs_treeImage (by decide))
    (fun s hFile hCwd => ⟨careful_first hFile hCwd, nofun⟩)
  have hEntry : ((s.fs.names fullSb).file 2).Entry 1 dotdot ROOTINO := by
    rw [h.known.file]
    rfl
  exact ⟨s, hReach, hEntry, (lookups_find_allocated_inodes pairProcs fullSb hReach).1
      2 1 dotdot ROOTINO hEntry⟩

/- The entry `..` of the current directory names a free
  inode, and looking there stops the machine. -/
theorem lookup_above_removed_directory_panics :
    ∃ s, (pairProcs.system fullSb (fun d => d = mkfs fullSb)).Reach Calling s ∧
      pairProcs.step fullSb s (.call false (.chdir (some [46, 46]))) =
        .fault (.fs (.panic .ilockNoType)) := by
  have hCalling (s : Sys Bool) (p : Bool) (c : SysCall) : Calling s (.call p c) := ⟨p, c, rfl⟩
  obtain ⟨_, hReach₁, _, h₁⟩ := reach_first (I := (· = mkfs fullSb)) rfl
    (fun s _ _ => hCalling s ..)
  obtain ⟨_, hStep₂, hKnown₂⟩ := h₁.mkdirs pairProcs
    [47, 97, 47, 98] ((SafeTable.clear (by decide)).on _) 2 3 [98] (by decide)
    ⟨by decide, by decide, firstFree_nodesOf (by decide), by decide⟩
  have h₂ := h₁.committed hKnown₂ (created_nodesOf (by decide) (by decide) _ _)
  obtain ⟨_, hStep₃, hKnown₃⟩ := h₂.chdirs (SafeTable.clear (by decide)) pairProcs
    [47, 97, 47, 98] 3 [] (by decide) (by decide) (by decide)
  have h₃ := h₂.moved hKnown₃
  obtain ⟨_, hStep₄, hKnown₄⟩ := h₃.unlinks (SafeTable.clear (by decide)) pairProcs
    [47, 97, 47, 98] 2 3 2 [98] (by decide) (by decide) (by decide) (by decide)
    (by decide) (by decide) (by decide)
  have h₄ := h₃.committed hKnown₄ (unlinked_nodesOf (by decide) (by decide) _)
  obtain ⟨_, hStep₅, hKnown₅⟩ := h₄.unlinks (SafeTable.clear (by decide)) pairProcs [47, 97]
    ROOTINO 2 2 [97] (by decide) (by decide)
    (by decide) (by decide) (by decide) (by decide) (by decide)
  have h₅ := h₄.committed hKnown₅ (unlinked_nodesOf (by decide) (by decide) _)
  have hReach₂ := reach_step hReach₁ hStep₂ (hCalling ..)
  have hReach₃ := reach_step hReach₂ hStep₃ (hCalling ..)
  have hReach₄ := reach_step hReach₃ hStep₄ (hCalling ..)
  have hReach₅ := reach_step hReach₄ hStep₅ (hCalling ..)
  refine ⟨_, hReach₅, ?_⟩
  exact h₅.chdir_panics pairProcs (by decide)
    (table_refsOf (by decide)) [46, 46] 2 [] (by decide) (by decide) (by decide)

-------
-- Leaks
-------

omit [DecidableEq P] in
/- Nobody refers to the inode. -/
theorem Counted.ref_eq_zero (h : Counted s 0 []) {i : Nat}
    (hFiles : ∀ f, (s.ftable f).type = .inode ∨ (s.ftable f).type = .device → (s.ftable f).ip ≠ i)
    (hCwd : ∀ p, (s.proc p).cwd ≠ some i) : s.fs.ref i = 0 := by
  have hCount := h.inodes.2 i
  rw [List.count_nil, Nat.cast_zero, add_zero] at hCount
  rw [hCount]
  unfold Sys.holders
  rw [Finset.sum_eq_zero, Finset.sum_eq_zero, add_zero]
  · intro p _
    exact if_neg (hCwd p)
  · intro f _
    exact if_neg (fun hPoints => hFiles f hPoints.1 hPoints.2)

/-
  In every run of careful calls, an inode to which no file
  and no process refers is allocated if and only if some
  directory of the tree has an entry for it.
-/
theorem allocated_inodes_are_reachable
    (E : Procs P)
    (sb : Superblock)
    (hReach : (E.system sb (TreeImage sb)).Reach (Careful sb) s)
    {i : Nat}
    (hFiles : ∀ f, (s.ftable f).type = .inode ∨
        (s.ftable f).type = .device → (s.ftable f).ip ≠ i)
    (hCwd : ∀ p, (s.proc p).cwd ≠ some i) :
    ((s.fs.names sb).file i).type ≠ 0 ↔
      ∃ d a nm, Rooted (s.fs.names sb).file d ∧
        ((s.fs.names sb).file d).Entry a nm i := by
  have hGood := good_of_careful E hReach
  exact hGood.ok.nodes.1.allocated_iff hGood.ok.settled (hGood.counted.ref_eq_zero hFiles hCwd)

/- The first directory is named by the root. -/
theorem first_directory_is_reachable :
    ∃ s : Sys Bool, (pairProcs.system fullSb (TreeImage fullSb)).Reach (Careful fullSb) s ∧
      ((s.fs.names fullSb).file 2).type ≠ 0 ∧
      ∃ d a nm, Rooted (s.fs.names fullSb).file d ∧ ((s.fs.names fullSb).file d).Entry a nm 2 := by
  obtain ⟨s, hReach, _, h⟩ := reach_first (mkfs_treeImage (by decide))
    (fun s hFile hCwd => careful_first hFile hCwd)
  have hCounted := counted_of_reach pairProcs hReach
  have hZero := congrFun h.known.ref 2
  have hType : ((s.fs.names fullSb).file 2).type ≠ 0 := by
    rw [h.known.file]
    decide
  refine ⟨s, hReach, hType, (allocated_inodes_are_reachable pairProcs fullSb hReach ?_ ?_).mp hType⟩
  · intro f hFile hip
    have hPos := hCounted.ref_pos_of_file hFile
    rw [hip] at hPos
    exact absurd hZero hPos.ne'
  · intro p hCwd
    have hPos := hCounted.ref_pos_of_cwd hCwd
    exact absurd hZero hPos.ne'

/- It stays allocated without a name when its directory is
  left. -/
theorem inode_in_removed_directory_leaks :
    ∃ s, (pairProcs.system fullSb (fun d => d = mkfs fullSb)).Reach Calling s ∧
      (∀ f, (s.ftable f).type = .inode ∨ (s.ftable f).type = .device → (s.ftable f).ip ≠ 3) ∧
      (∀ p, (s.proc p).cwd ≠ some 3) ∧
      ((s.fs.names fullSb).file 3).type ≠ 0 ∧
      ¬ ∃ d a nm, Rooted (s.fs.names fullSb).file d ∧
        ((s.fs.names fullSb).file d).Entry a nm 3 := by
  have hCalling (s : Sys Bool) (p : Bool) (c : SysCall) : Calling s (.call p c) := ⟨p, c, rfl⟩
  obtain ⟨s, hReach, _, h⟩ := reach_removed hCalling
  obtain ⟨_, hStep₁, hKnown₁⟩ := h.mknods pairProcs [102] ((SafeTable.clear (by decide)).on _) 2 3
    [102] (by decide) ⟨by decide, by decide, firstFree_nodesOf (by decide), by decide⟩
  have h₁ := h.committed hKnown₁ (created_nodesOf (by decide) (by decide) _ _)
  obtain ⟨_, hStep₂, hKnown₂⟩ := h₁.chdirs (SafeTable.clear (by decide)) pairProcs [47] ROOTINO
    [] (by decide) (by decide) (by decide)
  have h₂ := h₁.moved hKnown₂
  have hReach₁ := reach_step hReach hStep₁ (hCalling ..)
  have hReach₂ := reach_step hReach₁ hStep₂ (hCalling ..)
  have hCounted := counted_of_reach pairProcs hReach₂
  have hZero := congrFun h₂.known.ref 3
  refine ⟨_, hReach₂, ?_, ?_, ?_, ?_⟩
  · intro f hType hip
    have hPos := hCounted.ref_pos_of_file hType
    rw [hip] at hPos
    exact absurd hZero hPos.ne'
  · intro p hCwd
    have hPos := hCounted.ref_pos_of_cwd hCwd
    exact absurd hZero hPos.ne'
  · rw [h₂.known.file]
    decide
  · rw [h₂.known.file]
    rintro ⟨d, a, nm, _, hEntry⟩
    exact not_entry_nodesOf (by decide) d a nm hEntry

-------
-- Crashes
-------

/-
  A call overflows no link count and does not remove the last
  name of an inode in use. The machine may crash.
-/
def Sparing {P : Type} (sb : Superblock) (s : Sys P) (a : SysAction P) : Prop :=
  ∀ p c, a = .call p c → NoOverflow (s.fs.names sb).file (s.cwd p) c ∧
      SparesHeld (s.fs.names sb) (s.cwd p) c

theorem good_of_sparing (E : Procs P) (h : (E.system sb (TreeImage sb)).Reach (Sparing sb) s) :
    Good (namesSpec sb (fun N => Tree sb.ninodes N ∧ AllLive N) (fun _ => True)) s 0 [] := by
  refine good_of_tree E (fun _ _ _ => AllLive.freed)
    (fun _ _ _ => trivial) (fun _ hd => hd) (fun _ h => h)
    ?_ (fun _ _ _ _ h => h) h
  intro s p c hOk _ hAllowed
  obtain ⟨hMax, hSpares⟩ := hAllowed p c rfl
  exact allow_allLive hOk hMax hSpares

/-
  After every crash in a run of such calls, every allocated
  inode has a link, and a directory of the tree names it.
-/
theorem recovery_leaves_no_orphans
    (E : Procs P)
    (sb : Superblock)
    (hReach : (E.system sb (TreeImage sb)).Reach (Sparing sb) s)
    {x : Disk}
    (hx : x ∈ s.commits)
    {i : Nat}
    (hType : (((Procs.bootFs x).names sb).file i).type ≠ 0) :
    1 ≤ (((Procs.bootFs x).names sb).file i).nlink.toInt ∧
      ∃ d a nm, Rooted ((Procs.bootFs x).names sb).file d ∧
        (((Procs.bootFs x).names sb).file d).Entry a nm i := by
  have hSaved := (good_of_sparing E hReach).saved x hx
  obtain ⟨hTree, hAll⟩ := hSaved.nodes
  have hLive := hAll i hType
  exact ⟨hLive, hTree.exists_entry hType hLive⟩

/- The first directory after a crash. -/
theorem crash_keeps_first_directory :
    ∃ (s : Sys Bool) (x : Disk),
      (pairProcs.system fullSb (TreeImage fullSb)).Reach (Sparing fullSb) s ∧
      x ∈ s.commits ∧
      (((Procs.bootFs x).names fullSb).file 2).type ≠ 0 ∧
      1 ≤ (((Procs.bootFs x).names fullSb).file 2).nlink.toInt := by
  obtain ⟨s, hReach, hDisk, h⟩ :=
    reach_first (A := Sparing fullSb) (mkfs_treeImage (by decide)) (fun s hFile hCwd p c hEq => by
        cases hEq
        refine ⟨?_, by rintro _ ⟨⟩⟩
        rw [hFile, hCwd]
        exact noOverflow_first)
  have hBoot := bootFs_shows h.known.shows.mount
  have hType : (((bootFs s.fs.disk).names fullSb).file 2).type ≠
        0 := by
    rw [hBoot.names]
    rw [h.known.file]
    decide
  exact ⟨s, _, hReach, hDisk, hType,
    (recovery_leaves_no_orphans pairProcs fullSb hReach hDisk hType).1⟩

/- A directory that was removed while a process is in it is
  not freed in a crash. -/
theorem crash_orphans_removed_directory :
    ∃ s x, (pairProcs.system fullSb (fun d => d = mkfs fullSb)).Reach System.Anything s ∧
      x ∈ s.commits ∧
      (((Procs.bootFs x).names fullSb).file 2).type ≠ 0 ∧
      (((Procs.bootFs x).names fullSb).file 2).nlink = 0 := by
  obtain ⟨s, hReach, hDisk, h⟩ := reach_removed (A := System.Anything) (fun _ _ _ => trivial)
  have hBoot := bootFs_shows h.known.shows.mount
  refine ⟨s, s.fs.disk, hReach, hDisk, ?_⟩
  rw [hBoot.names]
  rw [h.known.file]
  decide

end Xv6
