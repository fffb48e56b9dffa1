import Xv6.Sys.TreeRuns
import Mathlib.Tactic.IntervalCases

/-
  Link counts are 16-bit fields that `sys_link` increments
  without a check, and a directory can have more entries than
  half of their range. While no count overflows, the
  directories form a tree and the counts are exact. A file
  with 32768 names has a negative count, and one with 65536
  names is freed, so that a directory gets all of them.

  Key definitions include:
    * `grown`
    * `Naming`

  Main results are:
    * `directories_form_a_tree`
    * `link_counts_do_not_wrap`
    * `link_count_becomes_negative`
    * `directory_has_two_names`
-/

open List

-------
-- Without Overflow
-------

namespace Xv6

variable {P : Type} [Fintype P] [DecidableEq P] {s : Sys P}

/- Careful calls keep the tree of directories. -/
theorem directories_form_a_tree
    (E : Procs P)
    (sb : Superblock)
    (hReach : (E.system sb (TreeImage sb)).Reach (Careful sb) s) :
    DirectoryTree (s.fs.names sb).file :=
  (good_of_careful E hReach).ok.nodes.1.directoryTree

/- The tree after the first `mkdir`. -/
theorem first_directory_in_tree :
    ∃ s : Sys Bool, (pairProcs.system fullSb (TreeImage fullSb)).Reach (Careful fullSb) s ∧
      ((s.fs.names fullSb).file ROOTINO).Entry 2 [97] 2 ∧
      DirectoryTree (s.fs.names fullSb).file := by
  obtain ⟨s, hReach, _, h⟩ := reach_first (mkfs_treeImage (by decide))
    (fun s hFile hCwd => careful_first hFile hCwd)
  refine ⟨s, hReach, ?_, directories_form_a_tree pairProcs fullSb hReach⟩
  rw [h.known.file]
  rfl

/-
  In every run of careful calls link counts are exact, what
  a linked directory names is allocated and has links, and
  `unlink` does not find a count below one.
-/
theorem link_counts_do_not_wrap
    (E : Procs P)
    (sb : Superblock)
    (hReach : (E.system sb (TreeImage sb)).Reach (Careful sb) s) :
    LinksExact sb.ninodes (s.fs.names sb).file ∧
    (∀ d a nm i, ((s.fs.names sb).file d).Live →
        ((s.fs.names sb).file d).Entry a nm i →
      ((s.fs.names sb).file i).type ≠ 0 ∧
        1 ≤ ((s.fs.names sb).file i).nlink.toInt) ∧
    ∀ p c, Careful sb s (.call p c) → E.step sb s (.call p c) ≠
        .fault (.fs (.panic .unlinkNlink)) := by
  have hGood := good_of_careful E hReach
  have hTree := hGood.ok.nodes.1
  refine ⟨hTree.tidy.links, ?_, ?_⟩
  · intro d a nm i hLive hEntry
    exact ⟨hTree.tidy.present d a nm i hLive hEntry, hTree.live_of_entry hLive hEntry⟩
  intro p c hCareful hFault
  obtain ⟨_, _, _, hEq, hp, _⟩ := E.fault_cases hFault
  cases hEq
  exact halts_of_fault E (tree_laws (fun _ _ _ _ _ => trivial))
    (allows_of_careful hGood hp hCareful) hGood hFault rfl

-------
-- Many Links
-------

/- The links that fill one directory. -/
abbrev perDir : Nat := 17150

/- Different names of two bytes. -/
def linkByte (x : Nat) : UInt8 := UInt8.ofNat (65 + x)

def linkName (r : Nat) : Name := [linkByte (r / 150), linkByte (r % 150)]

/- The directories `/a`, `/b`, `/c`, `/d`, one after another. -/
def linkPath (k : Nat) : Path := [47, UInt8.ofNat (97 + k / perDir), 47] ++ linkName (k % perDir)

def linkEnts (j k : Nat) : List (Option (Name × Nat)) :=
  [some (dot, 3 + j), some (dotdot, ROOTINO)] ++ (List.range (min perDir (k - perDir * j))).map
      (fun r => some (linkName r, 2))

def linkDir (j k : Nat) : Node where
  type := T_DIR
  nlink := 1
  ents := linkEnts j k

/- `/f` is the inode 2, the directories follow. -/
def grownRoot : Node where
  type := T_DIR
  nlink := 5
  ents :=
    [some (dot, ROOTINO), some (dotdot, ROOTINO), some ([102], 2), some ([97], 3), some ([98], 4),
      some ([99], 5), some ([100], 6)] ++
      List.replicate 57 none

/- The name space after `k` links to `/f`. -/
def grown (type : BitVec 16) (k : Nat) : List Node :=
  [Node.free, grownRoot,
    { type := type, nlink := BitVec.ofNat 16 (1 + k)
      ents := [] },
    linkDir 0 k, linkDir 1 k, linkDir 2 k, linkDir 3 k]

section Names

variable {j k : Nat}

theorem toNat_linkByte {x : Nat} (h : x < 150) : (linkByte x).toNat = 65 + x := by
  unfold linkByte
  rw [UInt8.toNat_ofNat']
  omega

theorem linkByte_ne {x : Nat} (hx : x < 150) {c : UInt8} (hc : c.toNat < 65) : linkByte x ≠ c := by
  rintro rfl
  rw [toNat_linkByte hx] at hc
  omega

theorem linkName_inj {r r' : Nat} (hr : r < perDir) (hr' : r' < perDir)
    (h : linkName r = linkName r') : r = r' := by
  unfold perDir at hr hr'
  injection h with hFirst hRest
  injection hRest with hSecond
  have hDiv := congrArg UInt8.toNat hFirst
  have hMod := congrArg UInt8.toNat hSecond
  rw [toNat_linkByte (by omega), toNat_linkByte (by omega)] at hDiv hMod
  omega

theorem cname_linkName {r : Nat} (hr : r < perDir) : cname (linkName r) = linkName r := by
  unfold perDir at hr
  have hFirst : linkByte (r / 150) ≠ 0 := linkByte_ne (by omega) (by decide)
  have hSecond : linkByte (r % 150) ≠ 0 := linkByte_ne (by omega) (by decide)
  unfold cname linkName
  simp [hFirst, hSecond]

/- A new name is not in its directory. -/
theorem findEntry_linkEnts (hk : k - perDir * j < perDir) :
    findEntry (linkName (k - perDir * j)) 0 (linkEnts j k) =
      none := by
  rw [findEntry_eq_none_iff, cname_linkName hk]
  intro i hMem
  unfold linkEnts at hMem
  rw [mem_append] at hMem
  rcases hMem with hDots | hNames
  · -- dots are shorter, or have other bytes
    have hByte : linkByte ((k - perDir * j) / 150) ≠ 46 := by
      unfold perDir at hk ⊢
      exact linkByte_ne (by omega) (by decide)
    simp [linkName, hByte] at hDots
  · obtain ⟨r, hr, hEq⟩ := mem_map.mp hNames
    rw [mem_range] at hr
    injection hEq with hEq
    injection hEq with hName
    have hSame := linkName_inj (by omega) hk hName
    omega

theorem length_linkEnts (j k : Nat) : (linkEnts j k).length = 2 + min perDir (k - perDir * j) := by
  unfold linkEnts
  rw [length_append, length_map, length_range]
  rfl

/- The new name is the last entry. -/
theorem addEnt_linkDir (hj : perDir * j ≤ k) (hk : k - perDir * j < perDir) :
    (linkDir j k).addEnt (linkName (k - perDir * j)) 2 = linkDir j (k + 1) := by
  have hFull : (linkEnts j k).findIdx Option.isNone = (linkEnts j k).length := by
    rw [findIdx_eq_length]
    intro e he
    unfold linkEnts at he
    simp only [mem_append, mem_cons, mem_map, not_mem_nil, or_false] at he
    rcases he with (rfl | rfl) | ⟨_, _, rfl⟩ <;> rfl
  have hMin : min perDir (k - perDir * j) = k - perDir * j := by omega
  have hMin' : min perDir (k + 1 - perDir * j) = k - perDir * j + 1 := by omega
  have hEnts : linkEnts j (k + 1) = linkEnts j k ++ [some (linkName (k - perDir * j), 2)] := by
    unfold linkEnts
    rw [hMin, hMin', range_succ, map_append]
    rfl
  change Node.mk _ _ (setSlot (linkEnts j k) ((linkEnts j k).findIdx Option.isNone) _) = _
  rw [hFull, setSlot, if_neg (lt_irrefl _), cname_linkName hk, ← hEnts]
  rfl

/- Other directories stay as they are. -/
theorem linkDir_of_ne (hj : j ≠ k / perDir) : linkDir j (k + 1) = linkDir j k := by
  have hMin : min perDir (k + 1 - perDir * j) = min perDir (k - perDir * j) := by
    unfold perDir at hj ⊢
    omega
  unfold linkDir linkEnts
  rw [hMin]

end Names

section Growth

variable {type : BitVec 16} {k : Nat} {r : List Nat}

/- The directory that gets the next link. -/
theorem nodesOf_grown_dir (hk : k < 4 * perDir) :
    nodesOf (grown type k) (3 + k / perDir) = linkDir (k / perDir) k := by
  have hj : k / perDir < 4 := Nat.div_lt_of_lt_mul (by rw [mul_comm]; exact hk)
  generalize k / perDir = j at hj
  interval_cases j <;> rfl

/- One more link. -/
theorem linkedIn_grown (hk : k < 4 * perDir) :
    linkedIn (grown type k) (3 + k / perDir) 2 (linkName (k % perDir)) = grown type (k + 1) := by
  have hMod : k % perDir = k - perDir * (k / perDir) := Nat.mod_eq_sub k perDir
  have hLe : perDir * (k / perDir) ≤ k := Nat.mul_div_le ..
  have hLt : k - perDir * (k / perDir) < perDir := by
    rw [← hMod]
    exact Nat.mod_lt k (by decide)
  have hCount : BitVec.ofNat 16 (1 + k) + 1 = BitVec.ofNat 16 (1 + (k + 1)) :=
    (BitVec.ofNat_add (1 + k) 1).symm
  have hj : k / perDir < 4 := Nat.div_lt_of_lt_mul (by rw [mul_comm]; exact hk)
  have hNew : ∀ j, linkDir j (k + 1) =
      if j = k / perDir then linkDir (k / perDir) (k + 1)
      else linkDir j k := by
    intro j
    split
    · next hEq => rw [hEq]
    · next hne => exact linkDir_of_ne hne
  unfold linkedIn
  rw [nodesOf_grown_dir hk, hMod, addEnt_linkDir hLe hLt]
  unfold grown
  rw [hNew 0, hNew 1, hNew 2, hNew 3, ← hCount]
  generalize k / perDir = j at hj
  interval_cases j <;> rfl

/- The count of links stays in range of what is named. -/
theorem safe_grown (hType : type ≠ 0) (hRef : BitVec.ofNat 16 (1 + k) ≠ 0 ∨ 2 ∈ r)
    (hRoot : ROOTINO ∈ r) (hTable : r.length + 2 < NINODE) :
    SafeTable fullSb (grown type k) r ROOTINO := by
  have hFile : Alive (grown type k) r 2 := ⟨hType, hRef⟩
  have hTop : Alive (grown type k) r ROOTINO :=
    ⟨(by decide : T_DIR ≠ 0), .inl (by decide : (5 : BitVec 16) ≠ 0)⟩
  have hDir {j : Nat} (hj : j < 4) : Alive (grown type k) r (3 + j) := by
    interval_cases j <;>
      exact ⟨(by decide : T_DIR ≠ 0), .inl (by decide : (1 : BitVec 16) ≠ 0)⟩
  have hLinks {j : Nat} (hj : j < 4) : ∀ e ∈ linkEnts j k, ∀ x ∈ e, Alive (grown type k) r x.2 := by
    intro e he x hx
    unfold linkEnts at he
    simp only [mem_append, mem_cons, mem_map, not_mem_nil, or_false] at he
    rcases he with (rfl | rfl) | ⟨_, _, rfl⟩
    · cases hx
      exact hDir hj
    · cases hx
      exact hTop
    · cases hx
      exact hFile
  refine ⟨⟨hRoot, hTop.1⟩, hTop, ?_, hTable, rfl,
    (by decide : 7 * NADDR < fullSb.size - fullSb.dataStart)⟩
  intro nd hnd
  unfold grown at hnd
  simp only [mem_cons, not_mem_nil, or_false] at hnd
  rcases hnd with rfl | rfl | rfl | rfl | rfl | rfl | rfl
  · rintro _ ⟨⟩
  · intro e he x hx
    unfold grownRoot at he
    simp only [mem_append, mem_cons, not_mem_nil, or_false, mem_replicate] at he
    rcases he with (rfl | rfl | rfl | rfl | rfl | rfl | rfl) | ⟨_, rfl⟩
    · cases hx
      exact hTop
    · cases hx
      exact hTop
    · cases hx
      exact hFile
    · cases hx
      exact hDir (j := 0) (by decide)
    · cases hx
      exact hDir (j := 1) (by decide)
    · cases hx
      exact hDir (j := 2) (by decide)
    · cases hx
      exact hDir (j := 3) (by decide)
    · cases hx
  · simp
  · exact hLinks (by decide)
  · exact hLinks (by decide)
  · exact hLinks (by decide)
  · exact hLinks (by decide)

theorem pathElems_two {c x y : UInt8} (hc : c ≠ slash) (hx : x ≠ slash) (hy : y ≠ slash) :
    pathElems 5 [slash, c, slash, x, y] = [[c], [x, y]] := by
  simp [pathElems, skipelem, hc, hx, hy]

theorem findPath_grown_old :
    findPath (nodesOf (grown type k)) ROOTINO [47, 102] false = some (2, []) :=
  rfl

/- The new name is looked up in its directory. -/
theorem findPath_grown_new (hk : k < 4 * perDir) :
    findPath (nodesOf (grown type k)) ROOTINO (linkPath k) true =
      some (3 + k / perDir, linkName (k % perDir)) := by
  have hj : k / perDir < 4 := Nat.div_lt_of_lt_mul (by rw [mul_comm]; exact hk)
  have hLt : k % perDir < perDir := Nat.mod_lt k (by decide)
  have hx : linkByte (k % perDir / 150) ≠ slash :=
    linkByte_ne (by unfold perDir at hLt ⊢; omega) (by decide)
  have hy : linkByte (k % perDir % 150) ≠ slash := linkByte_ne (by omega) (by decide)
  have hElems : pathElems (linkPath k).length (linkPath k) =
      [[UInt8.ofNat (97 + k / perDir)], linkName (k % perDir)] := by
    refine pathElems_two ?_ hx hy
    generalize k / perDir = j at hj
    interval_cases j <;> decide
  unfold findPath
  rw [hElems]
  generalize k / perDir = j at hj
  interval_cases j <;> rfl

/- What stays after the freeing of inodes. -/
theorem settledIn_grown (hRef : BitVec.ofNat 16 (1 + k) ≠ 0 ∨ 2 ∈ r) :
    settledIn (grown type k) r = grown type k := by
  have hFile : ¬ (BitVec.ofNat 16 (1 + k) = 0 ∧ 2 ∉ r) := by
    rintro ⟨hZero, hNot⟩
    exact hRef.elim (fun h => h hZero) hNot
  have hTop : ¬ ((5 : BitVec 16) = 0 ∧ 1 ∉ r) := fun h => absurd h.1 (by decide)
  have hDir (i : Nat) : ¬ ((1 : BitVec 16) = 0 ∧ i ∉ r) := fun h => absurd h.1 (by decide)
  have hNone : (if (0 : BitVec 16) = 0 ∧ 0 ∉ r then Node.free
      else Node.free) = Node.free :=
    ite_self _
  unfold settledIn grown grownRoot linkDir
  simp only [mapIdx_cons,
    Nat.reduceAdd, if_neg hFile, if_neg hTop, if_neg (hDir _)]
  exact congrArg (· :: _) hNone

end Growth

-------
-- Runs
-------

/- The calls of `open` with `O_CREATE`, `mkdir`, `link` and
  `unlink`. -/
def SysCall.Renames : SysCall → Prop
| .open _ omode => hasFlag omode O_CREATE = true
| .mkdir _ => True
| .link _ _ => True
| .unlink _ => True
| _ => False

/- Such calls in linked directories, and `mknod` too. -/
def Naming {P : Type} (devices : Bool) (sb : Superblock) (s : Sys P) (a : SysAction P) : Prop :=
  ∃ p c, a = .call p c ∧
    (c.Renames ∨ devices = true ∧ ∃ path x y, c = .mknod path x y) ∧
    InLinked (s.fs.names sb).file (s.cwd p) c

section Allowed

variable {N : Nat → Node} {cwd dp : Nat} {path : Path} {name : Name} {c : SysCall}

variable {path' : Path}

/- The one path of a call leads to a linked directory. -/
theorem inLinked_of_path (hEnters : ∀ path', c.Enters path' → path' = path)
    (hPath : findPath N cwd path true = some (dp, name)) (hLive : (N dp).Live) :
    InLinked N cwd c := by
  intro path' hc dp' name' hPath'
  rw [hEnters path' hc, hPath] at hPath'
  cases hPath'
  exact hLive

theorem enters_mkdir (h : (SysCall.mkdir (some path)).Enters path') :
    path' = path := by
  rcases h with ⟨type, hMakes⟩ | ⟨_, hc⟩
  · exact path_of_makes_mkdir hMakes
  · cases hc

theorem enters_mknod {x y : Int}
    (h : (SysCall.mknod (some path) x y).Enters path') : path' = path := by
  rcases h with ⟨type, ⟨_, _, hc, _⟩ | ⟨_, _, hMakes⟩⟩ | ⟨_, hc⟩
  · cases hc
  · rcases hMakes with ⟨_, hc, _⟩ | ⟨arg, _, _, hc, hArg, _⟩
    · cases hc
    · cases hc
      exact (Option.some.inj (Option.filter_eq_some_iff.mp hArg).1).symm
  · cases hc

theorem enters_open {omode : BitVec 32}
    (h : (SysCall.open (some path) omode).Enters path') : path' = path := by
  rcases h with ⟨type, ⟨_, _, hc, hArg, _⟩ | ⟨_, _, hMakes⟩⟩ | ⟨_, hc⟩
  · cases hc
    exact (Option.some.inj (Option.filter_eq_some_iff.mp hArg).1).symm
  · rcases hMakes with ⟨_, hc, _⟩ | ⟨_, _, _, hc, _⟩
    · cases hc
    · cases hc
  · cases hc

theorem enters_link {old path' : Path}
    (h : (SysCall.link (some old) (some path)).Enters path') : path' = path := by
  rcases h with ⟨type, ⟨_, _, hc, _⟩ | ⟨_, _, hMakes⟩⟩ | ⟨_, hc⟩
  · cases hc
  · rcases hMakes with ⟨_, hc, _⟩ | ⟨_, _, _, hc, _⟩
    · cases hc
    · cases hc
  · cases hc
    rfl

end Allowed

section Linking

variable {type : BitVec 16} {k : Nat} {r : List Nat} {s : Sys Bool} {devices : Bool}

/- The call for the next link. -/
def linkCall (k : Nat) : SysCall := .link (some [47, 102]) (some (linkPath k))

/- The nodes `l`, reached by allowed calls. -/
def Made (devices : Bool) (l : List Node) (r : List Nat) (s : Sys Bool) : Prop :=
  (pairProcs.system fullSb (TreeImage fullSb)).Reach (Naming devices fullSb) s ∧
    Standing fullSb (nodesOf l) (refsOf r) false ROOTINO s

/- One more link, whose count may wrap around. -/
theorem Made.link (h : Made devices (grown type k) r s) (hk : k < 4 * perDir)
    (hType : type ≠ 0) (hFile : type ≠ T_DIR)
    (hRef : BitVec.ofNat 16 (1 + k) ≠ 0 ∨ 2 ∈ r) (hRoot : ROOTINO ∈ r)
    (hTable : r.length + 2 < NINODE) :
    ∃ s', Made devices (settledIn (grown type (k + 1)) r) r s' := by
  obtain ⟨hReach, hStanding⟩ := h
  have hNew : findPath (nodesOf (grown type k)) ROOTINO (linkPath k)
        true = some (3 + k / perDir, linkName (k % perDir)) :=
    findPath_grown_new hk
  have hMod : k % perDir = k - perDir * (k / perDir) := Nat.mod_eq_sub k perDir
  have hLt : k - perDir * (k / perDir) < perDir := by
    rw [← hMod]
    exact Nat.mod_lt k (by decide)
  have hFind : findEntry (linkName (k % perDir)) 0
      (nodesOf (grown type k) (3 + k / perDir)).ents = none := by
    rw [nodesOf_grown_dir hk, hMod]
    exact findEntry_linkEnts hLt
  have hLen : (nodesOf (grown type k) (3 + k / perDir)).ents.length < MAXENTS := by
    rw [nodesOf_grown_dir hk]
    change (linkEnts _ _).length < _
    rw [length_linkEnts]
    have hMin : min perDir (k - perDir * (k / perDir)) < perDir :=
      (Nat.min_le_right ..).trans_lt hLt
    exact (Nat.add_lt_add_left hMin 2).trans_le (by decide)
  have hdp : 3 + k / perDir < (grown type k).length := by
    have hj : k / perDir < 4 := Nat.div_lt_of_lt_mul (by rw [mul_comm]; exact hk)
    exact Nat.add_lt_add_left hj 3
  obtain ⟨_, hStep, hKnown⟩ := hStanding.links
    (SafeTable.clear (safe_grown hType hRef hRoot hTable))
    pairProcs [47, 102] (linkPath k) _ 2 _ [] (by
      rintro (hLong | hLong)
      · exact absurd hLong (by decide)
      · exact absurd hLong (by decide : ¬ MAXPATH ≤ 5))
    findPath_grown_old hFile hNew hFind hLen
  refine ⟨_, Procs.reach_step hReach hStep ⟨_, linkCall k, rfl, .inl trivial, ?_⟩, ?_⟩
  · rw [hStanding.known.file]
    refine inLinked_of_path (fun _ => enters_link) hNew ?_
    rw [nodesOf_grown_dir hk]
    exact (by decide : 0 < (1 : BitVec 16).toInt)
  · refine hStanding.committed hKnown ?_
    rw [linked_nodesOf hdp (by decide : 2 < 7), linkedIn_grown hk]

/- Any number of links, as long as the file is not freed. -/
theorem exists_made_grown {K : Nat} (hStart : ∃ s, Made devices (grown type 0) r s)
    (hK : K ≤ 4 * perDir) (hType : type ≠ 0) (hFile : type ≠ T_DIR)
    (hRef : ∀ k, k ≤ K → BitVec.ofNat 16 (1 + k) ≠ 0 ∨ 2 ∈ r)
    (hRoot : ROOTINO ∈ r) (hTable : r.length + 2 < NINODE) :
    ∃ s, Made devices (grown type K) r s := by
  induction K with
  | zero => exact hStart
  | succ K ih =>
    obtain ⟨s, hLinked⟩ := ih (by omega) (fun k hk => hRef k (by omega))
    obtain ⟨s', hNext⟩ := hLinked.link (by omega)
      hType hFile (hRef K (by omega)) hRoot hTable
    rw [settledIn_grown (hRef (K + 1) le_rfl)] at hNext
    exact ⟨s', hNext⟩

/- One more directory below the root. -/
theorem Made.mkdir {l : List Node} (h : Made devices l r s) (path : Path)
    (ip : Nat) (name : Name) (hClear : ClearOn fullSb (nodesOf l) (refsOf r) ROOTINO path)
    (hArg : argstr (some path) = some path)
    (hNew : Vacant fullSb (nodesOf l) ROOTINO path ROOTINO ip name)
    (hLive : (nodesOf l ROOTINO).Live) (hRoot : ROOTINO < l.length) (hip : ip < l.length) :
    ∃ s', Made devices (settledIn (madeIn l ROOTINO ip name T_DIR) r) r s' := by
  obtain ⟨hReach, h⟩ := h
  obtain ⟨_, hStep, hKnown⟩ := h.mkdirs pairProcs path hClear
    ROOTINO ip name hArg hNew
  refine ⟨_, Procs.reach_step hReach hStep ⟨_, .mkdir (some path), rfl, .inl trivial, ?_⟩,
    h.committed hKnown (created_nodesOf hRoot hip _ _)⟩
  rw [h.known.file, h.cwd_eq]
  exact inLinked_of_path (fun _ => enters_mkdir) hNew.path hLive

end Linking

/- The file `/f`: a device, or a file that stays open. -/
def firstType (devices : Bool) : BitVec 16 := if devices then T_DEVICE else T_FILE

def firstRefs (devices : Bool) : List Nat := if devices then [ROOTINO] else [2, ROOTINO]

def firstFile (devices : Bool) : List Node :=
  settledIn (madeIn (firstTable 5) ROOTINO 2 [102] (firstType devices)) (firstRefs devices)

theorem findPath_firstFile :
    findPath (nodesOf (firstTable 5)) ROOTINO [47, 102] true = some (ROOTINO, [102]) := by
  decide

theorem exists_made_file (devices : Bool) :
    ∃ s, Made devices (firstFile devices) (firstRefs devices) s := by
  have hStart : (pairProcs.system fullSb (TreeImage fullSb)).Reach (Naming devices fullSb)
        (pairProcs.boot (mkfs fullSb)) :=
    .init ⟨_, mkfs_treeImage (by decide), rfl⟩
  have h := standing_boot pairProcs 5
  have hLive : (nodesOf (firstTable 5) ROOTINO).Live := (by decide : 0 < (1 : BitVec 16).toInt)
  cases devices with
  | true =>
    obtain ⟨_, hStep, hKnown⟩ := h.mknods pairProcs [47, 102]
      ((SafeTable.clear (by decide)).on _) ROOTINO 2 [102] (by decide)
      ⟨findPath_firstFile, by decide, firstFree_nodesOf (by decide), by decide⟩
    refine ⟨_, Procs.reach_step hStart hStep
      ⟨_, .mknod (some [47, 102]) 0 0, rfl, .inr ⟨rfl, _, _, _, rfl⟩, ?_⟩,
      h.committed hKnown (created_nodesOf (by decide) (by decide) _ _)⟩
    rw [h.known.file]
    exact inLinked_of_path (fun _ => enters_mknod) findPath_firstFile hLive
  | false =>
    obtain ⟨s, hStep, h'⟩ := h.opens (SafeTable.clear (by decide)) pairProcs
      [47, 102] ROOTINO 2 [102] (by decide)
      ⟨findPath_firstFile, by decide, firstFree_nodesOf (by decide), by decide⟩ rfl rfl
    rw [created_nodesOf (by decide) (by decide), withRefs_refsOf, settle_nodesOf] at h'
    refine ⟨s, Procs.reach_step hStart hStep ⟨_, .open (some [47, 102]) O_CREATE, rfl,
        .inl (by decide : hasFlag O_CREATE O_CREATE = true),
        ?_⟩, h'⟩
    rw [h.known.file]
    exact inLinked_of_path (fun _ => enters_open) findPath_firstFile hLive

theorem Makeable.made {devices : Bool} {s : Sys Bool} {l : List Node} {r : List Nat} (path : Path)
    (ip : Nat) (name : Name) (h : Made devices l r s) (hMake : Makeable fullSb l r path ip name) :
    ∃ s', Made devices (settledIn (madeIn l ROOTINO ip name T_DIR) r) r s' := by
  obtain ⟨hSafe, hArg, hPath, hFind, hFree, hLen, hLive, hRoot, hip⟩ := hMake
  exact h.mkdir path ip name (hSafe.clear.on path)
    hArg ⟨hPath, hFind, firstFree_nodesOf hFree, hLen⟩ hLive hRoot hip

/- Four directories for the links. -/
theorem exists_made_dirs (devices : Bool) :
    ∃ s, Made devices (grown (firstType devices) 0) (firstRefs devices) s := by
  obtain ⟨s₀, h₀⟩ := exists_made_file devices
  obtain ⟨s₁, h₁⟩ := Makeable.made [47, 97] 3 [97] h₀ (by cases devices <;> decide)
  obtain ⟨s₂, h₂⟩ := Makeable.made [47, 98] 4 [98] h₁ (by cases devices <;> decide)
  obtain ⟨s₃, h₃⟩ := Makeable.made [47, 99] 5 [99] h₂ (by cases devices <;> decide)
  obtain ⟨s₄, h₄⟩ := Makeable.made [47, 100] 6 [100] h₃ (by cases devices <;> decide)
  refine ⟨s₄, ?_⟩
  cases devices <;> exact h₄

-------
-- Overflow
-------

/- The tree and its link counts after the first `mkdir`. -/
theorem first_directory_is_counted :
    ∃ s : Sys Bool, (pairProcs.system fullSb (TreeImage fullSb)).Reach (Careful fullSb) s ∧
      LinksExact fullSb.ninodes (s.fs.names fullSb).file ∧
      ((s.fs.names fullSb).file ROOTINO).nlink.toInt = 2 := by
  obtain ⟨s, hReach, _, h⟩ := reach_first (mkfs_treeImage (by decide))
    (fun s hFile hCwd => careful_first hFile hCwd)
  refine ⟨s, hReach, (link_counts_do_not_wrap pairProcs fullSb hReach).1, ?_⟩
  rw [h.known.file]
  rfl

/-
  After 32767 calls of `link` the file has 32768 names and a
  negative count of links.
-/
theorem link_count_becomes_negative :
    ∃ s : Sys Bool, (pairProcs.system fullSb (TreeImage fullSb)).Reach (Naming false fullSb) s ∧
      ((s.fs.names fullSb).file ROOTINO).Live ∧
      ((s.fs.names fullSb).file ROOTINO).Entry 2 [102] 2 ∧
      ((s.fs.names fullSb).file 2).nlink.toInt = -32768 ∧
      ¬ LinksExact fullSb.ninodes (s.fs.names fullSb).file := by
  obtain ⟨s, hReach, h⟩ := exists_made_grown (K := 32767)
    (exists_made_dirs false) (by decide) (by decide) (by decide)
    (fun _ _ => .inr (by decide)) (by decide) (by decide)
  have hNlink : ((s.fs.names fullSb).file 2).nlink.toInt = -32768 := by
    rw [h.known.file]
    exact (by decide : (BitVec.ofNat 16 32768).toInt = -32768)
  have hType : ((s.fs.names fullSb).file 2).type ≠ 0 := by
    rw [h.known.file]
    exact (by decide : T_FILE ≠ 0)
  refine ⟨s, hReach, ?_, ?_, hNlink, ?_⟩
  · rw [h.known.file]
    exact (by decide : 0 < (5 : BitVec 16).toInt)
  · rw [h.known.file]
    rfl
  · intro hLinks
    have hCount := hLinks.exact 2 hType
    omega

section Freed

variable {k : Nat}

/- The file is freed when its count is zero. -/
def freedTable (k : Nat) : List Node :=
  [Node.free, grownRoot, Node.free, linkDir 0 k, linkDir 1 k, linkDir 2 k, linkDir 3 k]

theorem settledIn_freed (hZero : BitVec.ofNat 16 (1 + k) = 0) :
    settledIn (grown T_DEVICE k) [ROOTINO] = freedTable k := by
  unfold grown
  rw [hZero]
  rfl

/- No directory has a name of one other letter. -/
theorem findEntry_linkEnts_other (j : Nat) : findEntry [120] 0 (linkEnts j k) = none := by
  rw [findEntry_eq_none_iff]
  intro i hMem
  have hName : cname [120] = [120] := rfl
  rw [hName] at hMem
  unfold linkEnts linkName at hMem
  simp [dotdot] at hMem

theorem findEntry_freedTable (d : Nat) :
    findEntry [120] 0 (nodesOf (freedTable k) d).ents = none := by
  rcases Nat.lt_or_ge d (freedTable k).length with hd | hd
  · have hMem := nodesOf_mem hd
    generalize nodesOf (freedTable k) d = nd at hMem
    unfold freedTable at hMem
    simp only [mem_cons, not_mem_nil, or_false] at hMem
    rcases hMem with h | h | h | h | h | h | h <;> rw [h]
    · rfl
    · decide
    · rfl
    all_goals exact findEntry_linkEnts_other _
  · rw [nodesOf_of_length_le hd]
    rfl

theorem findPath_freedTable :
    findPath (nodesOf (freedTable k)) ROOTINO [47, 120] true = some (ROOTINO, [120]) :=
  rfl

/- The path `/x` meets the root only. -/
theorem clear_freedTable :
    ClearOn fullSb (nodesOf (freedTable k)) (refsOf [ROOTINO]) ROOTINO [47, 120] where
  here := refsOf_pos (by decide)
  alive := by
    rintro i (rfl | ⟨d, name, m, hDir, hMem, hFind⟩)
    · exact ⟨(by decide : T_DIR ≠ 0), .inl (by decide : (5 : BitVec 16) ≠ 0)⟩
    · have hElems : name ∈ [[120]] := hMem
      rw [mem_singleton] at hElems
      rw [hElems, findEntry_freedTable d] at hFind
      cases hFind
  table := table_refsOf (by decide)
  room := (Nat.mul_le_mul_right NADDR (card_nodesOf_lt (cons_ne_nil _ _) rfl)).trans_lt
      (by decide : 7 * NADDR < fullSb.size - fullSb.dataStart)

end Freed

/-
  After 65535 calls of `link` the file is freed with all its
  names. The next directory is made in its inode, and then
  two entries of the root name it.
-/
theorem directory_has_two_names :
    ∃ s : Sys Bool, (pairProcs.system fullSb (TreeImage fullSb)).Reach (Naming true fullSb) s ∧
      ((s.fs.names fullSb).file 2).type = T_DIR ∧
      ((s.fs.names fullSb).file ROOTINO).Entry 2 [102] 2 ∧
      ((s.fs.names fullSb).file ROOTINO).Entry 7 [120] 2 ∧
      ¬ DirectoryTree (s.fs.names fullSb).file := by
  obtain ⟨s₀, h₀⟩ := exists_made_grown (K := 65534)
    (exists_made_dirs true) (by decide) (by decide) (by decide)
    (fun k hk => .inl (fun hZero => by
      have hNat := congrArg BitVec.toNat hZero
      change (1 + k) % 65536 = 0 at hNat
      omega)) (by decide) (by decide)
  obtain ⟨s₁, h₁⟩ := h₀.link (by decide) (by decide)
    (by decide) (.inl (by decide)) (by decide) (by decide)
  change Made true (settledIn (grown T_DEVICE 65535) [ROOTINO]) [ROOTINO] s₁ at h₁
  have hOthers : ∀ j < 2, 1 ≤ j → (nodesOf (freedTable 65535) j).type ≠ 0 := by
    intro j hj hPos
    obtain rfl : j = 1 := by omega
    exact (by decide : T_DIR ≠ 0)
  obtain ⟨s, hReach, h⟩ := h₁.mkdir [47, 120] 2 [120] clear_freedTable (by decide)
    ⟨findPath_freedTable, by decide, firstFree_nodesOf ⟨by decide, rfl, hOthers⟩, by decide⟩
    (by decide : 0 < (5 : BitVec 16).toInt) (by decide : 1 < 7) (by decide : 2 < 7)
  have hType : ((s.fs.names fullSb).file 2).type = T_DIR := by
    rw [h.known.file]
    rfl
  have hOld : ((s.fs.names fullSb).file ROOTINO).Entry 2 [102] 2 := by
    rw [h.known.file]
    rfl
  have hNew : ((s.fs.names fullSb).file ROOTINO).Entry 7 [120] 2 := by
    rw [h.known.file]
    rfl
  refine ⟨s, hReach, hType, hOld, hNew, ?_⟩
  intro hTree
  have hChild : ((s.fs.names fullSb).file ROOTINO).Child 2 2 := ⟨_, hOld, by decide, by decide⟩
  have hChild' : ((s.fs.names fullSb).file ROOTINO).Child 7 2 := ⟨_, hNew, by decide, by decide⟩
  obtain ⟨p, a, _, _, hOnly, _⟩ := hTree.above 2 (.child .root hChild hType) (by decide)
  have hFirst := hOnly _ _ hChild
  have hSecond := hOnly _ _ hChild'
  omega

end Xv6
