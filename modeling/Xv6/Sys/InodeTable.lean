import Xv6.Sys.LinkOverflow

/-
  The table of in-memory inodes has NINODE entries, fewer than
  the processes have working directories. A call that finds
  room for two more entries cannot exhaust it; processes in
  different directories can fill it, and then the next call
  stops the machine.

  Key definitions include:
    * `Spacious`
    * `dirs`

  Main results are:
    * `inode_table_suffices`
    * `inode_table_overflows`
-/

open List

-------
-- Enough Room
-------

namespace Xv6

variable {P : Type} [Fintype P] [DecidableEq P] {s : Sys P}

/- A call finds room for two more inodes in the table. -/
def Spacious {P : Type} (sb : Superblock) (s : Sys P) (a : SysAction P) : Prop :=
  (∃ p c, a = .call p c) ∧ s.fs.inUse sb + 2 < NINODE

/- Consistent images without lost inodes. -/
def SettledImage (sb : Superblock) (d : Disk) : Prop := NamesOk sb (fun _ => True) (Procs.bootFs d)

/- Nothing but consistency is kept. -/
def tableSpec (sb : Superblock) : FsSpec :=
  { namesSpec sb (fun _ => True) (fun e => e ≠ .panic .igetNoInodes) with
    Saved := fun _ => True }

theorem true_freeClosed (K : Nat) : FreeClosed K (fun _ => True) := fun _ _ _ _ _ => trivial

theorem tableSpec_laws (sb : Superblock) :
    (tableSpec sb).Laws sb where
  saved := fun _ _ => trivial
  idup := fun _ _ h => idup_runs h
  ilock := fun _ _ h => ilock_runs h
  iunlock := fun _ _ h => iunlock_runs h
  iput := fun _ _ h => iput_runs h (true_freeClosed _)
  iunlockput := fun _ _ h => iunlockput_runs h (true_freeClosed _)
  itrunc := fun _ _ h => itrunc_runs h
  readi := fun _ _ copyout off n h hLocked => readi_runs h hLocked copyout off n
  writei := fun _ _ src copyin off n h hLocked hData => writei_runs h hLocked hData src copyin off n

omit [Fintype P] [DecidableEq P] in
theorem tableSpec_allows {sb : Superblock} {p : P} {c : SysCall}
    (h : NamesOk sb (fun _ => True) s.fs) (hCwd : 0 < s.fs.ref (s.cwd p))
    (hRoom : s.fs.inUse sb + 2 < NINODE) : (tableSpec sb).Allows sb s p c := by
  have hAllow : NodesAllow sb (fun _ => True) (fun e => e ≠ .panic .igetNoInodes) (s.fs.names sb)
        (s.cwd p) c :=
    { dead := fun _ _ _ => by simp
      makes := fun _ _ _ _ _ _ _ _ _ _ _ _ _ _ => trivial
      links := fun _ _ _ _ _ _ _ _ _ _ _ _ _ _ => trivial
      unlinks := fun _ _ _ _ _ _ _ _ _ _ _ _ _ _ _ => trivial
      counts := fun _ _ _ _ _ _ _ _ _ _ _ _ => by simp }
  have hRuns := hAllow.allows (true_freeClosed _)
    (fun hFull => absurd hFull (Nat.not_le_of_lt hRoom)) (by simp)
    h hCwd
  exact ⟨hRuns.finds, hRuns.opens, hRuns.creates, hRuns.links, hRuns.unlinks⟩

/-
  In every run of calls that find room in the inode table,
  `iget` does not run out of entries.
-/
theorem inode_table_suffices
    (E : Procs P)
    (sb : Superblock)
    (hReach : (E.system sb (SettledImage sb)).Reach (Spacious sb) s)
    (p : P)
    (c : SysCall)
    (hRoom : Spacious sb s (.call p c)) :
    E.step sb s (.call p c) ≠ .fault (.fs (.panic .igetNoInodes)) := by
  have hGood : Good (tableSpec sb) s 0 [] := by
    refine good_of_reach E (tableSpec_laws sb) ?_ ?_ ?_ hReach
    · exact fun _ hd => hd
    · intro s p c hGood hp hAllowed
      exact tableSpec_allows hGood.ok (hGood.counted.ref_cwd_pos hp) hAllowed.2
    · rintro s lost d _ ⟨⟨_, _, hEq⟩, _⟩
      cases hEq
  intro hFault
  obtain ⟨_, _, _, hEq, hp, _⟩ := E.fault_cases hFault
  cases hEq
  exact halts_of_fault E (tableSpec_laws sb)
    (tableSpec_allows hGood.ok (hGood.counted.ref_cwd_pos hp) hRoom.2) hGood hFault rfl

-------
-- Many Directories
-------

variable {k : Nat}

/- A larger disk, as `mkfs` makes it. -/
def wideSb : Superblock where
  size := 16384
  ninodes := 200
  nlog := LOGSIZE
  logstart := 2
  inodestart := 32
  bmapstart := 45
  hLog := fullSb.hLog
  hInodes := fullSb.hInodes
  hBitmap := fullSb.hBitmap
  hData := by decide
  hSize := by decide
  hInums := fullSb.hInums
  hRoot := fullSb.hRoot

def dirPath (k : Nat) : Path := [47, linkByte k]

/- The root after `k` directories have been made. -/
def rootWith (k : Nat) : Node where
  type := T_DIR
  nlink := BitVec.ofNat 16 (1 + k)
  ents :=
    ([some (dot, ROOTINO), some (dotdot, ROOTINO)] ++ (List.range k).map
        (fun j => some ([linkByte j], j + 2))) ++
      List.replicate (62 - k) none

/- All nodes then, with room for 50 directories. -/
def dirs (k : Nat) : List Node :=
  Node.free :: rootWith k :: ((List.range k).map (fun j => newNode T_DIR ROOTINO (j + 2)) ++
      List.replicate (50 - k) Node.free)

/- The first free place after a full part is taken. -/
theorem set_append_replicate {α : Type} (l : List α) (x y : α) (n : Nat) :
    (l ++ List.replicate (n + 1) y).set l.length x = l ++ [x] ++ List.replicate n y := by
  rw [set_append_right _ _ (le_refl _), replicate_succ]
  simp

theorem addEnt_rootWith (hk : k < 62) :
    { (rootWith k).addEnt [linkByte k] (k + 2) with
      nlink := (rootWith k).nlink + 1 } = rootWith (k + 1) := by
  let l : List (Option (Name × Nat)) :=
    [some (dot, ROOTINO), some (dotdot, ROOTINO)] ++
      (range k).map (fun j => some ([linkByte j], j + 2))
  obtain ⟨n, hn⟩ : ∃ n, 62 - k = n + 1 := ⟨61 - k, by omega⟩
  have hn' : 62 - (k + 1) = n := by omega
  have hFull : ∀ e ∈ l, e.isNone = false := by
    intro e he
    simp only [l, mem_append, mem_cons, not_mem_nil, or_false, mem_map] at he
    rcases he with (rfl | rfl) | ⟨_, _, rfl⟩ <;> rfl
  have hIdx : (rootWith k).ents.findIdx Option.isNone =
      l.length := by
    change (l ++ replicate (62 - k) none).findIdx _ = _
    rw [hn, findIdx_append, findIdx_eq_length.mpr hFull,
      if_neg (lt_irrefl _)]
    exact Nat.zero_add l.length
  have hName : cname [linkByte k] = [linkByte k] := by
    have hByte : linkByte k ≠ 0 := linkByte_ne (by omega) (by decide)
    unfold cname
    simp [hByte]
  have hNlink : BitVec.ofNat 16 (1 + k) + 1 = BitVec.ofNat 16 (1 + (k + 1)) :=
    (BitVec.ofNat_add (1 + k) 1).symm
  have hEnts : setSlot (l ++ replicate (62 - k) none) l.length (some ([linkByte k], k + 2)) =
        (rootWith (k + 1)).ents := by
    unfold setSlot rootWith
    rw [hn, set_append_replicate, hn', range_succ]
    simp [l]
  unfold Node.addEnt Node.setEnt
  rw [hIdx, hName]
  exact Node.ext rfl hNlink hEnts

theorem made_dirs (hk : k < 50) :
    madeIn (dirs k) ROOTINO (k + 2) [linkByte k] T_DIR = dirs (k + 1) := by
  let l := (range k).map (fun j => newNode T_DIR ROOTINO (j + 2))
  obtain ⟨n, hn⟩ : ∃ n, 50 - k = n + 1 := ⟨49 - k, by omega⟩
  have hn' : 50 - (k + 1) = n := by omega
  have hLen : l.length = k := by simp [l]
  have hNew : (l ++ replicate (50 - k) Node.free).set k (newNode T_DIR ROOTINO (k + 2)) =
        (range (k + 1)).map (fun j => newNode T_DIR ROOTINO (j + 2)) ++
          replicate (50 - (k + 1)) Node.free := by
    rw [hn, hn', range_succ, map_append]
    have hSet := set_append_replicate l (newNode T_DIR ROOTINO (k + 2)) Node.free n
    rw [hLen] at hSet
    exact hSet
  unfold dirs
  rw [← hNew, ← addEnt_rootWith (by omega)]
  rfl

/- Directories with links are not freed. -/
theorem settledIn_of_links {l : List Node} (h : ∀ nd ∈ l, nd.nlink = 0 → nd = Node.free)
    (r : List Nat) : settledIn l r = l := by
  unfold settledIn
  apply ext_getElem
  · simp
  intro i hi hi'
  rw [getElem_mapIdx]
  split
  · next hBoth => exact (h _ (getElem_mem _) hBoth.1).symm
  · rfl

/- Facts about the table, by evaluation. -/
theorem makeable_dirs :
    ∀ k < 49, Makeable wideSb (dirs k) [ROOTINO] (dirPath k) (k + 2) [linkByte k] := by
  decide

theorem findPath_dirs :
    ∀ k < 49, findPath (nodesOf (dirs 49)) ROOTINO (dirPath k) false = some (k + 2, []) ∧
        (nodesOf (dirs 49) (k + 2)).type = T_DIR := by
  decide

theorem links_dirs (k : Nat) (hk : k < 50) : ∀ nd ∈ dirs k, nd.nlink = 0 → nd = Node.free := by
  intro nd hnd hZero
  unfold dirs at hnd
  simp only [mem_cons, mem_append, mem_map, mem_replicate] at hnd
  rcases hnd with rfl | rfl | ⟨_, _, rfl⟩ | ⟨_, rfl⟩
  · rfl
  · have hNat := congrArg BitVec.toNat hZero
    change (1 + k) % 65536 = 0 at hNat
    omega
  · exact absurd hZero (by decide : (1 : BitVec 16) ≠ 0)
  · rfl

theorem alive_dirs :
    ∀ nd ∈ dirs 49, ∀ e ∈ nd.ents, ∀ x ∈ e, (nodesOf (dirs 49) x.2).type ≠ 0 ∧
        (nodesOf (dirs 49) x.2).nlink ≠ 0 := by
  decide

theorem sees_dirs {R : Nat → Int} {i : Nat} (hSees : Sees (nodesOf (dirs 49)) ROOTINO i) :
    (nodesOf (dirs 49) i).type ≠ 0 ∧ ((nodesOf (dirs 49) i).nlink ≠ 0 ∨ R i ≠ 0) := by
  have hRoot : (nodesOf (dirs 49) ROOTINO).type ≠ 0 ∧ (nodesOf (dirs 49) ROOTINO).nlink ≠ 0 := by
    decide
  rcases hSees with rfl | rfl | ⟨d, name, _, hMem⟩
  · exact ⟨hRoot.1, .inl hRoot.2⟩
  · exact ⟨hRoot.1, .inl hRoot.2⟩
  · rcases Nat.lt_or_ge d (dirs 49).length with hd | hd
    · have hAlive := alive_dirs _ (nodesOf_mem hd) _ hMem (name, i) rfl
      exact ⟨hAlive.1, .inl hAlive.2⟩
    · rw [nodesOf_of_length_le hd] at hMem
      cases hMem

-------
-- Many Processes
-------

variable {j : Nat}

def allProcs : Procs (Fin NPROC) where
  procs := List.finRange NPROC
  mem_procs := List.mem_finRange
  initproc := 0

/- The first process makes the directories. -/
theorem reach_made {k : Nat} (hk : k ≤ 49) :
    ∃ s, (allProcs.system wideSb (SettledImage wideSb)).Reach Calling s ∧
      Standing wideSb (nodesOf (dirs k)) (refsOf [ROOTINO]) 0 ROOTINO s ∧
      s.proc = (allProcs.boot (mkfs wideSb)).proc := by
  induction k with
  | zero =>
    have hImage := mkfs_treeImage (by decide : wideSb.dataStart < wideSb.size)
    have hSettled : SettledImage wideSb (mkfs wideSb) :=
      ⟨hImage.consistent, hImage.nodes.2.settled, trivial⟩
    exact ⟨_, .init ⟨_, hSettled, rfl⟩, standing_mkfs allProcs (by decide) 50, rfl⟩
  | succ k ih =>
    obtain ⟨s, hReach, h, hProc⟩ := ih (by omega)
    obtain ⟨hSafe, hArg, hPath, hFind, hFree, hLen, _, hRoot, hip⟩ := makeable_dirs k (by omega)
    obtain ⟨fs', hStep, hKnown⟩ := h.mkdirs allProcs (dirPath k) (hSafe.clear.on _) ROOTINO (k + 2)
      [linkByte k] hArg ⟨hPath, hFind, firstFree_nodesOf hFree, hLen⟩
    have h' := h.committed hKnown (created_nodesOf hRoot hip _ _)
    rw [made_dirs (by omega), settledIn_of_links (links_dirs _ (by omega))] at h'
    exact ⟨_, Procs.reach_step hReach hStep ⟨_, _, rfl⟩, h', hProc⟩

/- The working directories of the first `j + 1` processes. -/
def spread : Nat → List Nat
| 0 => [ROOTINO]
| j + 1 => (j + 2) :: spread j

/- Each of `j` children is in a directory of its own. -/
structure Spread (j : Nat) (s : Sys (Fin NPROC)) : Prop where
  reach : (allProcs.system wideSb (SettledImage wideSb)).Reach Calling s
  known : Known wideSb (nodesOf (dirs 49)) (refsOf (spread j)) s.fs
  runnable : (s.proc 0).state = .runnable
  cwd : (s.proc 0).cwd = some ROOTINO
  files : ∀ fd, (s.proc 0).ofile fd = none
  used : ∀ q : Fin NPROC, ((s.proc q).state == .unused) = decide (j < q.1)

/- A call of a run stops because the inode table is full. -/
def TableFull (s : Sys (Fin NPROC)) : Prop :=
  (allProcs.system wideSb (SettledImage wideSb)).Reach Calling s ∧
    ∃ p c, allProcs.step wideSb s (.call p c) =
      .fault (.fs (.panic .igetNoInodes))

theorem find_unused :
    ∀ j < 49, (List.finRange NPROC).find? (fun q => decide (j < q.1)) =
        some (Fin.ofNat NPROC (j + 1)) := by
  decide

theorem mem_spread (j : Nat) : ROOTINO ∈ spread j := by
  induction j with
  | zero => exact mem_singleton_self ROOTINO
  | succ j ih => exact mem_cons_of_mem _ ih

/- One more child goes to its directory. -/
theorem Spread.step {s : Sys (Fin NPROC)} (h : Spread j s) (hj : j < 49) :
    (∃ s', TableFull s') ∨ ∃ s', Spread (j + 1) s' := by
  have hOld : (fun q => (s.proc q).state == .unused) = fun q : Fin NPROC => decide (j < q.1) :=
    funext h.used
  have hFirst : allProcs.procs.find? (fun q => (s.proc q).state == .unused) =
        some (Fin.ofNat NPROC (j + 1)) := by
    rw [hOld]
    exact find_unused j hj
  obtain ⟨np, hnp, hVal⟩ : ∃ np : Fin NPROC, Fin.ofNat NPROC (j + 1) = np ∧ np.1 = j + 1 :=
    ⟨_, rfl, Nat.mod_eq_of_lt (by unfold NPROC; omega)⟩
  rw [hnp] at hFirst
  have hne : (0 : Fin NPROC) ≠ np := by
    intro hEq
    rw [← hEq] at hVal
    cases hVal
  have hHere : 0 < refsOf (spread j) ROOTINO := refsOf_pos (mem_spread j)
  obtain ⟨s₁, hStep₁, hKnown₁, hProc₁⟩ :=
    (⟨h.known, h.runnable, h.cwd⟩ :
      Standing wideSb _ _ 0 ROOTINO s).forks hHere allProcs np hFirst h.files
  have hReach₁ := Procs.reach_step h.reach hStep₁ ⟨_, _, rfl⟩
  rw [withRefs_refsOf] at hKnown₁
  have hChild : Standing wideSb (nodesOf (dirs 49))
      (refsOf (ROOTINO :: spread j)) np ROOTINO s₁ := by
    refine ⟨hKnown₁, ?_, ?_⟩
    · rw [hProc₁, Function.update_self]
    · rw [hProc₁, Function.update_self]
  obtain ⟨hPath, hDir⟩ := findPath_dirs j hj
  rcases hChild.chdirs_or_full ⟨refsOf_pos mem_cons_self, fun _ => sees_dirs⟩ allProcs
    (dirPath j) (j + 2) [] rfl hPath hDir with
    ⟨fs', hStep₂, hKnown₂⟩ | ⟨hFault, _⟩
  · have hOther (q : Fin NPROC) (hq : q ≠ np) : ((s₁.committed fs').setProc np
          { s₁.proc np with cwd := some (j + 2) }).proc q = s.proc q := by
      rw [Sys.setProc_of_ne _ _ hq]
      change s₁.proc q = s.proc q
      rw [hProc₁, Function.update_of_ne hq]
    refine .inr ⟨_, Procs.reach_step hReach₁ hStep₂ ⟨_, _, rfl⟩, ?_, ?_, ?_, ?_, ?_⟩
    · have hMoved := (hChild.moved hKnown₂).known
      rwa [settledIn_of_links (links_dirs 49 (by decide))] at hMoved
    · rw [hOther 0 hne]
      exact h.runnable
    · rw [hOther 0 hne]
      exact h.cwd
    · rw [hOther 0 hne]
      exact h.files
    · intro q
      by_cases hq : q = np
      · rw [hq, hVal]
        simp [hProc₁]
      rw [hOther q hq, h.used, decide_eq_decide]
      omega
  · exact .inl ⟨s₁, hReach₁, np, _, hFault⟩

/- Either the table is full earlier, or all have moved. -/
theorem spread_or_full (hj : j ≤ 49) : (∃ s, TableFull s) ∨ ∃ s, Spread j s := by
  induction j with
  | zero =>
    obtain ⟨s, hReach, h, hProc⟩ := reach_made (le_refl 49)
    refine .inr ⟨s, hReach, h.known, h.runnable, h.cwd, ?_, ?_⟩
    · rw [hProc]
      intro fd
      rfl
    · rw [hProc]
      decide
  | succ j ih =>
    rcases ih (by omega) with hFull | ⟨s, h⟩
    · exact .inl hFull
    · exact h.step hj

theorem inUse_spread :
    ((Finset.range wideSb.ninodes).filter (fun i => 0 < refsOf (spread 49) i)).card = NINODE := by
  decide

/-
  50 processes in different directories use the whole inode
  table. One more inode stops the machine.
-/
theorem inode_table_overflows :
    ∃ s : Sys (Fin NPROC), (allProcs.system wideSb (SettledImage wideSb)).Reach Calling s ∧
      ∃ p c, allProcs.step wideSb s (.call p c) = .fault (.fs (.panic .igetNoInodes)) := by
  rcases spread_or_full (le_refl 49) with ⟨s, hReach, hFault⟩ | ⟨s, h⟩
  · exact ⟨s, hReach, hFault⟩
  have hFull : NINODE ≤ (s.fs.names wideSb).inUse wideSb := by
    unfold View.inUse
    rw [h.known.ref, inUse_spread]
  have hRoom : RoomOn wideSb (nodesOf (dirs 49)) (refsOf (spread 49)) ROOTINO (dirPath 49) :=
    ⟨refsOf_pos (mem_spread 49), fun _ hMeets => sees_dirs hMeets.sees, (Nat.mul_le_mul_right NADDR
        (card_nodesOf_lt (cons_ne_nil _ _) rfl)).trans_lt (by decide)⟩
  exact ⟨s, h.reach, 0, _, (⟨h.known, h.runnable, h.cwd⟩ :
      Standing wideSb _ _ 0 ROOTINO s).mkdir_panics allProcs
        (dirPath 49) hRoom ROOTINO 51 [linkByte 49] rfl
        ⟨by decide, by decide, firstFree_nodesOf (by decide), by decide⟩ hFull⟩

/- The first call of a run finds room in the table. -/
theorem first_call_has_room :
    ∃ s : Sys Bool, (pairProcs.system fullSb (SettledImage fullSb)).Reach (Spacious fullSb) s ∧
      pairProcs.step fullSb s (.call false (.mkdir (some [47, 97]))) ≠
        .fault (.fs (.panic .igetNoInodes)) := by
  have hImage := mkfs_treeImage (by decide : fullSb.dataStart < fullSb.size)
  have hReach : (pairProcs.system fullSb (SettledImage fullSb)).Reach
        (Spacious fullSb) (pairProcs.boot (mkfs fullSb)) :=
    .init ⟨_, ⟨hImage.consistent, hImage.nodes.2.settled, trivial⟩, rfl⟩
  have hUse : (pairProcs.boot (mkfs fullSb)).fs.inUse fullSb + 2 <
      NINODE := by
    change ((Finset.range fullSb.ninodes).filter (fun i => 0 < ((pairProcs.boot
        (mkfs fullSb)).fs.names fullSb).ref i)).card + 2 < NINODE
    rw [(standing_boot pairProcs 0).known.ref]
    exact table_refsOf (by decide)
  exact ⟨_, hReach, inode_table_suffices pairProcs fullSb hReach false _ ⟨⟨_, _, rfl⟩, hUse⟩⟩

end Xv6
