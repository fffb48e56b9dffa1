import Xv6.Fs.Tree
import Xv6.Sys.CallSpec

/-
  The name space within system calls.

  A property of the nodes that survives the freeing of inodes
  without links is kept by every system call, as soon as the
  calls that change links and entries keep it.

  Key definitions include:
    * `NamesOk`
    * `namesSpec`
    * `NodesAllow`

  Key theorems include:
    * `namesSpec_laws`
    * `NodesAllow.allows`
-/

open Function Xv6.View

-------
-- Name Spaces Between Calls
-------

namespace Xv6

/-
  The state is consistent, what has no links is still in
  use, and the nodes have the property.
-/
structure NamesOk (sb : Superblock) (J : (Nat → Node) → Prop) (fs : Fs) : Prop where
  consistent : Consistent sb fs
  settled : (fs.names sb).Settled
  nodes : J (fs.names sb).file

/- The same after a start from the disk. -/
structure SavedOk (sb : Superblock) (J : (Nat → Node) → Prop) (d : Disk) : Prop where
  consistent : Consistent sb (Procs.bootFs d)
  nodes : J ((Procs.bootFs d).names sb).file

/- What a property of the nodes means for system calls. -/
def namesSpec (sb : Superblock) (J : (Nat → Node) → Prop) (H : Halt → Prop) : FsSpec where
  Ok := NamesOk sb J
  Locked := fun fs i => fs.Active i
  Data := fun fs i => ((fs.names sb).file i).type ≠ T_DIR
  Saved := SavedOk sb J
  Halts := H

-------
-- Settled Views
-------

namespace View

variable {n : View Node} {i : Nat}

theorem Settled.get (h : n.Settled) (i : Nat) : (n.get i).Settled := by
  intro j hType hNlink
  obtain ⟨hRef, hValid⟩ := h j hType hNlink
  refine ⟨?_, hValid⟩
  by_cases hj : j = i
  · subst hj
    simp only [View.get, update_self]
    omega
  · simpa [View.get, hj] using hRef

theorem Settled.lock (h : n.Settled) (i : Nat) : (n.lock i).Settled := by
  intro j hType hNlink
  obtain ⟨hRef, hValid⟩ := h j hType hNlink
  refine ⟨hRef, ?_⟩
  by_cases hj : j = i
  · simp [View.lock, hj]
  · simpa [View.lock, hj] using hValid

/- What is in use after a put was so before. -/
theorem put_still (hRef : 0 < n.ref i) {j : Nat} (hj : 0 < (n.put Node.nlink Node.free i).ref j) :
    0 < n.ref j ∧ (n.put Node.nlink Node.free i).file j = n.file j := by
  constructor
  · rw [put_ref] at hj
    by_cases hji : j = i
    · subst hji
      exact hRef
    · rwa [update_of_ne hji] at hj
  · rw [put_file, if_neg]
    rintro ⟨rfl, hOne, _⟩
    rw [put_ref, update_self] at hj
    omega

theorem Sound.put (h : n.Sound) (hRef : 0 < n.ref i) : (n.put Node.nlink Node.free i).Sound := by
  intro j hj
  obtain ⟨hPos, hFile⟩ := put_still hRef hj
  rw [hFile]
  exact h j hPos

/- The last reference frees what has no links. -/
theorem Settled.put (h : n.Settled) (i : Nat) : (n.put Node.nlink Node.free i).Settled := by
  intro j hType hNlink
  rw [put_file] at hType hNlink
  split at hType
  · exact absurd rfl hType
  next hNot =>
    rw [if_neg hNot] at hNlink
    obtain ⟨hRef, hValid⟩ := h j hType hNlink
    rw [put_ref, put_valid]
    by_cases hj : j = i
    · subst hj
      have hMore : n.ref j ≠ 1 := fun hOne => hNot ⟨rfl, hOne, hValid, hNlink⟩
      rw [update_self, if_neg (fun h => hMore h.1)]
      exact ⟨by omega, hValid⟩
    · rw [update_of_ne hj, if_neg (fun h => hj h.2)]
      exact ⟨hRef, hValid⟩

end View

-------
-- Functions That Keep The Nodes
-------

open Prog

variable {sb : Superblock} {J : (Nat → Node) → Prop} {H : Halt → Prop} {fs fs' : Fs} {i : Nat}

namespace NamesOk

/- The files behind the name space. -/
theorem at_view (h : NamesOk sb J fs) : At sb none fs (fs.view sb) := h.consistent.inv.at

/- Another state with nodes that have the property. -/
theorem of_shows {n : View Node} (hShows : Shows sb fs' n) (hSound : n.Sound)
    (hSettled : n.Settled) (hNodes : J n.file) :
    NamesOk sb J fs' where
  consistent := hShows.consistent hSound
  settled := by
    rw [hShows.names]
    exact hSettled
  nodes := by
    rw [hShows.names]
    exact hNodes

/- A file changed, but not its node. -/
theorem of_same (h : NamesOk sb J fs) {f : File}
    (hAt : At sb none fs' ((fs.view sb).setFile i f)) (hDir : f.type ≠ T_DIR)
    (hNode : f.node = ((fs.view sb).file i).node) :
    NamesOk sb J fs' ∧ ∀ j, ((fs'.names sb).file j).type = ((fs.names sb).file j).type := by
  have hShows := Shows.of_at hAt (fun j => dirOk_setFile h.consistent.dirs
      (File.DirOk.of_not_dir sb hDir) j)
  have hSame : ((fs.view sb).setFile i f).map File.node = fs.names sb := by
    rw [map_setFile, hNode]
    change (fs.names sb).setFile i ((fs.names sb).file i) = _
    simp [setFile]
  rw [hSame] at hShows
  refine ⟨of_shows hShows h.consistent.sound h.settled h.nodes, fun j => ?_⟩
  rw [hShows.names]

end NamesOk

/- A function after which the name space is `n`. -/
theorem runs_of_shows {α : Type} {m : FsM α} {Q : α → Fs → Prop} {n : View Node}
    (hTypes : ∀ j, 0 < (fs.names sb).ref j → 0 < n.ref j →
      (n.file j).type = ((fs.names sb).file j).type)
    (hSound : n.Sound) (hSettled : n.Settled) (hNodes : J n.file)
    (hRun : wp m (fun a fs' => Shows sb fs' n ∧ Q a fs') (fun e _ => H e) fs) :
    (namesSpec sb J H).Runs m Q fs := by
  refine wp_imp hRun ?_
  rintro a fs' ⟨hShows, hQ⟩
  refine ⟨.of_shows hShows hSound hSettled hNodes, ?_, hQ⟩
  intro j hBefore hAfter hData
  have hRef : n.ref j = fs'.ref j := by
    rw [← hShows.names]
    rfl
  have hType := hTypes j hBefore (hRef ▸ hAfter)
  change ((fs'.names sb).file j).type ≠ T_DIR
  rw [hShows.names, hType]
  exact hData

variable (h : NamesOk sb J fs)
include h

theorem idup_runs (hRef : 0 < fs.ref i) : (namesSpec sb J H).Runs (idup i) FsSpec.Plain fs := by
  have hSound : ((fs.names sb).get i).Sound := by
    intro j hj
    apply h.consistent.sound
    by_cases hji : j = i
    · subst hji
      exact hRef
    · simpa [View.get, hji] using hj
  refine runs_of_shows (n := (fs.names sb).get i)
    (fun _ _ _ => rfl) hSound (h.settled.get i) h.nodes ?_
  apply idup_rule h.at_view hRef
  intro fs' hAt
  exact ⟨Shows.of_at hAt h.consistent.dirs, trivial⟩

theorem ilock_runs (hRef : 0 < fs.ref i) :
    (namesSpec sb J H).Runs (ilock sb i) (fun _ fs' => (namesSpec sb J H).Locked fs' i) fs := by
  refine runs_of_shows (n := (fs.names sb).lock i)
    (fun _ _ _ => rfl) h.consistent.sound (h.settled.lock i)
    h.nodes ?_
  apply ilock_rule h.at_view hRef
  · intro fs' _ hAt
    exact ⟨Shows.of_at hAt h.consistent.dirs, hAt.active (by simp [lock])⟩
  · intro hType
    exact absurd hType (h.consistent.sound i hRef)

theorem iunlock_runs (hRef : 0 < fs.ref i) :
    (namesSpec sb J H).Runs (iunlock i) FsSpec.Plain fs := by
  apply iunlock_rule h.at_view hRef
  exact ⟨h, fun _ _ _ hData => hData, trivial⟩

/- The name space after a reference has been put. -/
theorem iput_shows {E : Halt → Fs → Prop} (hRef : 0 < fs.ref i) :
    wp (iput sb i) (fun _ fs' => Shows sb fs' ((fs.names sb).put Node.nlink Node.free i)) E fs := by
  apply iput_rule h.at_view hRef
  intro fs' hAt
  have hShows := Shows.of_at hAt (dirOk_put h.consistent.dirs i)
  rw [map_put] at hShows
  exact hShows

theorem iput_runs (hFree : FreeClosed sb.ninodes J) (hRef : 0 < fs.ref i) :
    (namesSpec sb J H).Runs (iput sb i) FsSpec.Plain fs := by
  have hSettled := h.settled.put i
  refine wp_imp (iput_shows h hRef) ?_
  intro _ fs' hShows
  have hNodes : J ((fs.names sb).put Node.nlink Node.free i).file := by
    refine hFree (fs.names sb) _ _ h.nodes ⟨hShows.formed, fun j => ?_, fun j hType hNlink => ?_⟩
    · rw [put_file]
      split
      · next hj =>
          obtain ⟨rfl, _, _, hZero⟩ := hj
          exact .inr ⟨rfl, hZero⟩
      · exact .inl rfl
    · exact (put_still hRef (hSettled j hType hNlink).1).1
  refine ⟨.of_shows hShows ?_ hSettled hNodes, ?_, trivial⟩
  · exact h.consistent.sound.put hRef
  intro j _ hAfter hData
  have hRefs : fs'.ref j = ((fs.names sb).put Node.nlink Node.free i).ref j := by
    rw [← hShows.names]
    rfl
  change ((fs'.names sb).file j).type ≠ T_DIR
  rw [hShows.names, (put_still hRef (hRefs ▸ hAfter)).2]
  exact hData

theorem iunlockput_runs (hFree : FreeClosed sb.ninodes J) (hRef : 0 < fs.ref i) :
    (namesSpec sb J H).Runs (iunlockput sb i) FsSpec.Plain fs := by
  rw [FsSpec.Runs, iunlockput, wp_bind]
  apply iunlock_rule h.at_view hRef
  exact iput_runs h hFree hRef

theorem itrunc_runs (hLocked : fs.Active i) (hType : (fs.copy i).type = T_FILE) :
    (namesSpec sb J H).Runs (itrunc sb i) FsSpec.Plain fs := by
  have hValid := h.at_view.valid_of_active hLocked
  have hFile : ((fs.view sb).file i).type ≠ T_DIR := by
    rw [h.at_view.type_eq hValid, hType]
    decide
  apply itrunc_rule h.at_view hValid
  intro fs' hAt _
  obtain ⟨hOk, hTypes⟩ := h.of_same hAt hFile (by
      unfold File.node
      rw [File.ents_of_not_dir hFile, File.ents_of_not_dir
          (f := ((fs.view sb).file i).truncated) hFile]
      rfl)
  refine ⟨hOk, fun j _ _ hData => ?_, trivial⟩
  change ((fs'.names sb).file j).type ≠ T_DIR
  rw [hTypes]
  exact hData

theorem readi_runs (hLocked : fs.Active i) (copyout : Nat → Bool) (off n : BitVec 32) :
    (namesSpec sb J H).Runs (readi sb i copyout off n)
      (fun _ fs' => (namesSpec sb J H).Locked fs' i) fs := by
  refine wp_imp (readi_keeps h.consistent.inv hLocked copyout off n) ?_
  rintro _ _ rfl
  exact ⟨h, fun _ _ _ hData => hData, hLocked⟩

theorem writei_runs (hLocked : fs.Active i) (hData : ((fs.names sb).file i).type ≠ T_DIR)
    (src : Nat → UInt8) (copyin : Nat → Option Nat) (off n : BitVec 32) :
    (namesSpec sb J H).Runs (writei sb i src copyin off n) FsSpec.Plain fs := by
  have hValid := h.at_view.valid_of_active hLocked
  apply writei_rule h.at_view hValid
  · intro _
    exact ⟨h, fun _ _ _ hData => hData, trivial⟩
  intro fs' f' last _ _ hAt hWritten _ _
  have hType : f'.type = ((fs.view sb).file i).type := by rw [hWritten.sameMeta]
  have hDir : f'.type ≠ T_DIR := by
    rw [hType]
    exact hData
  obtain ⟨hOk, hTypes⟩ := h.of_same hAt hDir (by
      unfold File.node
      rw [File.ents_of_not_dir hDir, File.ents_of_not_dir hData]
      congr 1
      rw [hWritten.sameMeta])
  refine ⟨hOk, fun j _ _ hOld => ?_, trivial⟩
  change ((fs'.names sb).file j).type ≠ T_DIR
  rw [hTypes]
  exact hOld

end Xv6

-------
-- The End Of A Call
-------

namespace Xv6

open Prog

variable {sb : Superblock} {J : (Nat → Node) → Prop} {H : Halt → Prop} {fs fs' : Fs}
variable {N : Nat → Node} {held known : List Nat}

namespace During

variable {n : View Node} {i : Nat}

/- A known inode is locked, and its node is intended. -/
theorem active (h : During sb n N held known fs) (hi : i ∈ known) : fs.Active i := by
  obtain ⟨v, hAt, _, hPart⟩ := h
  exact hAt.active (hPart.known i hi).2.1

theorem names_file (h : During sb n N held known fs) (hi : i ∈ known) :
    (fs.names sb).file i = N i := by
  obtain ⟨n', hShows, hPart⟩ := h.finish
  rw [hShows.names]
  exact (hPart.known i hi).2.2

end During

/-
  A call that has made the nodes `N` and holds only inodes
  that it has locked.
-/
theorem NamesOk.during (h : NamesOk sb J fs) (hDuring : During sb (fs.names sb) N held known fs')
    (hHeld : held ⊆ known) (hTypes : ∀ i, 0 < fs.ref i → (N i).type = ((fs.names sb).file i).type)
    (hLinks : ∀ i ∈ held, (N i).nlink = 0 → 0 < fs.ref i)
    (hNodes : ∀ M, Ends sb.ninodes (fs.names sb) N M → J M) :
    NamesOk sb J fs' ∧ ∀ i, 0 < fs.ref i → 0 < fs'.ref i → ((fs.names sb).file i).type ≠ T_DIR →
          ((fs'.names sb).file i).type ≠ T_DIR := by
  have hKnown : ∀ i ∈ held, (N i).type ≠ 0 := fun i hi => hDuring.type_ne_zero (hHeld hi)
  obtain ⟨n', hShows, hPart⟩ := hDuring.finish
  have hSettled := hPart.settled h.settled
  have hEnds : Ends sb.ninodes (fs.names sb) N n'.file := by
    refine ⟨hShows.formed, fun i => ?_, fun i hType hNlink => ?_⟩
    · exact (hPart.file i).imp_right (fun h => ⟨h.1, h.2.1⟩)
    by_cases hi : i ∈ held
    · rw [(hPart.known i (hHeld hi)).2.2] at hNlink
      exact hLinks i hi hNlink
    · have hRef := (hSettled i hType hNlink).1
      rw [hPart.ref, List.count_eq_zero_of_not_mem hi] at hRef
      simpa using hRef
  refine ⟨.of_shows hShows ?_ hSettled (hNodes _ hEnds), ?_⟩
  · apply hPart.sound hHeld
    rintro i (hi | hRef)
    · exact hKnown i hi
    · rw [hTypes i hRef]
      exact h.consistent.sound i hRef
  · intro i hRef _ hData
    rw [hShows.names]
    rcases hPart.file i with hFile | ⟨_, _, hZero⟩
    · rw [hFile, hTypes i hRef]
      exact hData
    · change fs.ref i = 0 at hZero
      omega

/- A call that leaves the nodes as they were. -/
theorem NamesOk.during_same (h : NamesOk sb J fs) (hFree : FreeClosed sb.ninodes J)
    (hDuring : During sb (fs.names sb) (fs.names sb).file held known fs') (hHeld : held ⊆ known) :
    NamesOk sb J fs' ∧ ∀ i, 0 < fs.ref i → 0 < fs'.ref i → ((fs.names sb).file i).type ≠ T_DIR →
          ((fs'.names sb).file i).type ≠ T_DIR := by
  refine h.during hDuring hHeld (fun _ _ => rfl) ?_ (fun M hEnds => hFree _ _ M h.nodes hEnds)
  intro i hi hNlink
  exact (h.settled i (hDuring.type_ne_zero (hHeld hi)) hNlink).1

/- A call that has made a new inode. -/
theorem NamesOk.during_created (h : NamesOk sb J fs) {dp ip : Nat} {name : Name} {type : BitVec 16}
    (hDuring : During sb (fs.names sb) (created (fs.names sb).file dp ip name type) [ip] [ip] fs')
    (hGone : (fs.names sb).Gone ip) (hne : ip ≠ dp)
    (hNodes : ∀ M, Ends sb.ninodes (fs.names sb) (created (fs.names sb).file dp ip name type) M →
      J M) :
    NamesOk sb J fs' ∧ ∀ i, 0 < fs.ref i → 0 < fs'.ref i → ((fs.names sb).file i).type ≠ T_DIR →
          ((fs'.names sb).file i).type ≠ T_DIR := by
  refine h.during hDuring (fun _ => id) ?_ ?_ hNodes
  · intro i hRef
    have hi : i ≠ ip := by
      rintro rfl
      rcases hGone with hFree | ⟨_, hZero⟩
      · exact h.consistent.sound i hRef hFree
      · change fs.ref i = 0 at hZero
        omega
    rw [created_type]
    split
    · next hdp => rw [hdp]
    · rfl
  · intro i hi hNlink
    rw [List.mem_singleton.mp hi, nlink_created hne, if_pos rfl] at hNlink
    cases hNlink

-------
-- Finding And Opening
-------

variable {H : Halt → Prop} {fs : Fs} {cwd : Nat}

/- The inode that was found is held and locked. -/
theorem nameiLock_call {n : View Node} {Q : Option Nat → Fs → Prop} {E : Halt → Fs → Prop}
    (h : Shows sb fs n) (hCwd : 0 < n.ref cwd) (path : Path)
    (hNone : findPath n.file cwd path false = none →
      ∀ fs', During sb n n.file [] [] fs' → Q none fs')
    (hSome : ∀ ip name, findPath n.file cwd path false = some (ip, name) →
      ∀ fs', During sb n n.file [ip] [ip] fs' → Q (some ip) fs')
    (hDead : ∀ i, Sees n.file cwd i → n.Gone i → ∀ s', E (.panic .ilockNoType) s')
    (hTable : NINODE ≤ n.inUse sb + 1 → ∀ s', E (.panic .igetNoInodes) s') :
    wp (nameiLock sb cwd path) Q E fs := by
  rw [nameiLock, wp_bind]
  apply namei_call (During.start h) hCwd (fun _ => id)
  · intro hPath fs' hDuring
    exact (wp_pure _).mpr (hNone hPath fs' hDuring)
  · intro ip name hPath fs' hDuring
    rw [wp_bind]
    apply ilock_call hDuring (List.mem_cons_self ..)
    · intro fs'' _ hLocked
      exact (wp_pure _).mpr (hSome ip name hPath fs'' hLocked)
    · intro _ hGone
      exact hDead ip (findPath_sees hPath) hGone
  · intro i hMeets _ hGone
    exact hDead i hMeets.sees hGone
  · intro hFull
    exact hTable (by simpa using hFull)

variable (h : NamesOk sb J fs) (hFree : FreeClosed sb.ninodes J) (hCwd : 0 < fs.ref cwd)
variable
  (hDead : ∀ i, Sees (fs.names sb).file cwd i → (fs.names sb).Gone i → H (.panic .ilockNoType))
variable
  (hTable : NINODE ≤ (fs.names sb).inUse sb + 2 → H (.panic .igetNoInodes))
include h hFree hCwd hDead hTable

theorem nameiLock_runs (path : Path) :
    (namesSpec sb J H).Runs (nameiLock sb cwd path)
      (fun r fs' => ∀ ip, r = some ip → fs'.Active ip) fs := by
  apply nameiLock_call h.consistent.shows hCwd path
  · intro _ fs' hDuring
    obtain ⟨hOk, hData⟩ := h.during_same hFree hDuring (by simp)
    exact ⟨hOk, hData, by simp⟩
  · intro ip _ _ fs' hDuring
    obtain ⟨hOk, hData⟩ := h.during_same hFree hDuring (fun _ => id)
    refine ⟨hOk, hData, ?_⟩
    rintro _ ⟨rfl⟩
    exact hDuring.active (List.mem_singleton_self ip)
  · exact fun i hSees hGone _ => hDead i hSees hGone
  · exact fun hFull _ => hTable (by omega)

/- What `open` finds or makes. -/
theorem openInode_runs (path : Path) (omode : BitVec 32)
    (hMake : hasFlag omode O_CREATE = true → ∀ dp ip name,
        findPath (fs.names sb).file cwd path true = some (dp, name) →
        findEntry name 0 ((fs.names sb).file dp).ents = none →
        1 ≤ ip → ip < sb.ninodes → (fs.names sb).Gone ip →
        ip ≠ dp →
        ∀ M, Ends sb.ninodes (fs.names sb) (created (fs.names sb).file dp ip name T_FILE) M →
        J M) :
    (namesSpec sb J H).Runs (openInode sb cwd path omode)
      (fun r fs' => ∀ ip, r = some ip → fs'.Active ip ∧ (writeMode omode = true →
          ((fs'.names sb).file ip).type ≠ T_DIR)) fs := by
  unfold openInode
  rw [FsSpec.Runs, wp_ite]
  refine ⟨fun hFlag => ?_, fun _ => ?_⟩
  · apply create_call h.consistent.shows h.consistent.sound hCwd (by decide : T_FILE ≠ 0)
    · intro fs' hDuring _
      obtain ⟨hOk, hData⟩ := h.during_same hFree hDuring (by simp)
      exact ⟨hOk, hData, by simp⟩
    · intro dp ip m name fs' _ _ _ hType hDuring
      obtain ⟨hOk, hData⟩ := h.during_same hFree hDuring (fun _ => id)
      refine ⟨hOk, hData, ?_⟩
      rintro _ ⟨rfl⟩
      have hMem := List.mem_singleton_self ip
      refine ⟨hDuring.active hMem, fun _ => ?_⟩
      rw [hDuring.names_file hMem]
      rcases hType with hType | hType <;> rw [hType] <;> decide
    · intro dp ip name fs' hPath hFind hPos hLt hGone _ _ hne hDuring
      obtain ⟨hOk, hData⟩ := h.during_created hDuring hGone hne
        (hMake hFlag dp ip name hPath hFind hPos hLt hGone hne)
      refine ⟨hOk, hData, ?_⟩
      rintro _ ⟨rfl⟩
      have hMem := List.mem_singleton_self ip
      refine ⟨hDuring.active hMem, fun _ => ?_⟩
      rw [hDuring.names_file hMem, created_type, if_neg hne, if_pos rfl]
      decide
    · exact fun i hMeets hGone _ => hDead i hMeets.sees hGone
    · exact fun hFull _ => hTable hFull
  · rw [wp_bind]
    apply nameiLock_call h.consistent.shows hCwd path
    · intro _ fs' hDuring
      obtain ⟨hOk, hData⟩ := h.during_same hFree hDuring (by simp)
      exact (wp_pure _).mpr ⟨hOk, hData, by simp⟩
    · intro ip _ _ fs' hDuring
      have hMem := List.mem_singleton_self ip
      dsimp only
      rw [wp_bind, wp_read, wp_ite]
      refine ⟨fun _ => ?_, fun hDir => ?_⟩
      · rw [wp_bind]
        apply iunlockput_call hDuring [] [] (List.Perm.refl _) (by simp)
        intro fs'' hDuring'
        obtain ⟨hOk, hData⟩ := h.during_same hFree hDuring' (by simp)
        exact (wp_pure _).mpr ⟨hOk, hData, by simp⟩
      obtain ⟨hOk, hData⟩ := h.during_same hFree hDuring (fun _ => id)
      refine (wp_pure _).mpr ⟨hOk, hData, ?_⟩
      rintro _ ⟨rfl⟩
      refine ⟨hDuring.active hMem, fun hMode hType => hDir ?_⟩
      rw [hDuring.names_file hMem] at hType
      refine ⟨(hDuring.copy_type hMem).trans hType, ?_⟩
      rintro rfl
      revert hMode
      decide
    · exact fun i hSees hGone _ => hDead i hSees hGone
    · exact fun hFull _ => hTable (by omega)

end Xv6

-------
-- Changing Names
-------

namespace Xv6

open Prog

/- Calls that may make an inode of a type under a path. -/
def SysCall.Makes (c : SysCall) (path : Path) (type : BitVec 16) : Prop :=
  (∃ arg omode, c = .open arg omode ∧ argstr arg = some path ∧
    hasFlag omode O_CREATE = true ∧ type = T_FILE) ∨
  ∃ major minor, c.Creates path type major minor

/-
  What a call does to the nodes keeps the property, and the
  call stops only in the given ways.
-/
structure NodesAllow (sb : Superblock) (J : (Nat → Node) → Prop) (H : Halt → Prop)
    (n : View Node) (cwd : Nat) (c : SysCall) : Prop where
  dead : ∀ i, Sees n.file cwd i → n.Gone i → H (.panic .ilockNoType)
  makes : ∀ path type, c.Makes path type → ∀ dp ip name,
      findPath n.file cwd path true = some (dp, name) →
      findEntry name 0 (n.file dp).ents = none →
      1 ≤ ip → ip < sb.ninodes → n.Gone ip → ip ≠ dp →
      ∀ M, Ends sb.ninodes n (created n.file dp ip name type) M → J M
  links : ∀ old new, c = .link (some old) (some new) → ∀ dp ip name last,
      findPath n.file cwd old false = some (ip, last) →
      findPath n.file cwd new true = some (dp, name) →
      (n.file ip).type ≠ T_DIR → (n.file ip).type ≠ 0 →
      findEntry name 0 (n.file dp).ents = none →
      ∀ M, Ends sb.ninodes n (linked n.file dp ip name) M → J M
  unlinks : ∀ path, c = .unlink (some path) → ∀ dp ip m name,
      findPath n.file cwd path true = some (dp, name) →
      cname name ≠ dot → cname name ≠ dotdot →
      findEntry name 0 (n.file dp).ents = some (ip, m) →
      ip ≠ dp → 1 ≤ (n.file ip).nlink.toInt →
      ((n.file ip).type = T_DIR → (n.file ip).Empty) →
      ∀ M, Ends sb.ninodes n (unlinked n.file dp ip m) M → J M
  counts : ∀ path, c = .unlink (some path) → ∀ dp ip m name,
      findPath n.file cwd path true = some (dp, name) →
      cname name ≠ dot → cname name ≠ dotdot →
      findEntry name 0 (n.file dp).ents = some (ip, m) →
      (n.file ip).type ≠ 0 → (n.file ip).nlink.toInt < 1 →
      H (.panic .unlinkNlink)

variable {sb : Superblock} {J : (Nat → Node) → Prop} {H : Halt → Prop}

/- New inodes have a type. -/
theorem SysCall.Creates.type_ne_zero {c : SysCall} {path : Path} {type major minor : BitVec 16}
    (h : c.Creates path type major minor) : type ≠ 0 := by
  rcases h with ⟨_, _, _, rfl, _⟩ | ⟨_, _, _, _, _, rfl, _⟩
  · decide
  · decide

variable {P : Type} {s : Sys P} {p : P} {c : SysCall}

theorem NodesAllow.allows (hAllow : NodesAllow sb J H (s.fs.names sb) (s.cwd p) c)
    (hFree : FreeClosed sb.ninodes J)
    (hTable : NINODE ≤ (s.fs.names sb).inUse sb + 2 → H (.panic .igetNoInodes))
    (hSleep : H .sleep) (h : NamesOk sb J s.fs) (hCwd : 0 < s.fs.ref (s.cwd p)) :
    (namesSpec sb J H).Allows sb s p c where
  finds := fun path => nameiLock_runs h hFree hCwd hAllow.dead hTable path
  opens := by
    rintro arg omode path rfl hArg
    refine openInode_runs h hFree hCwd hAllow.dead hTable path omode ?_
    intro hFlag
    exact hAllow.makes path T_FILE (.inl ⟨arg, omode, rfl, hArg, hFlag, rfl⟩)
  creates := by
    intro path type major minor hCreates
    apply create_call h.consistent.shows h.consistent.sound hCwd hCreates.type_ne_zero
    · intro fs' hDuring _
      obtain ⟨hOk, hData⟩ := h.during_same hFree hDuring (by simp)
      exact ⟨hOk, hData, trivial⟩
    · intro dp ip m name fs' _ _ _ _ hDuring
      obtain ⟨hOk, hData⟩ := h.during_same hFree hDuring (fun _ => id)
      exact ⟨hOk, hData, trivial⟩
    · intro dp ip name fs' hPath hFind hPos hLt hGone _ _ hne hDuring
      obtain ⟨hOk, hData⟩ := h.during_created hDuring hGone hne
        (hAllow.makes path type (.inr ⟨major, minor, hCreates⟩)
          dp ip name hPath hFind hPos hLt hGone hne)
      exact ⟨hOk, hData, trivial⟩
    · exact fun i hMeets hGone _ => hAllow.dead i hMeets.sees hGone
    · exact fun hFull _ => hTable hFull
  links := by
    rintro old new rfl
    apply sysLink_call h.consistent.shows hCwd
    · intro fs' hDuring _
      obtain ⟨hOk, hData⟩ := h.during_same hFree hDuring (by simp)
      exact ⟨hOk, hData, trivial⟩
    · intro dp ip name last fs' hOld hNew hDir hType hFind hDuring
      obtain ⟨hOk, hData⟩ := h.during hDuring (by simp) (fun i _ => linked_type _ _ _ _ i) (by simp)
        (hAllow.links old new rfl dp ip name last hOld hNew hDir hType hFind)
      exact ⟨hOk, hData, trivial⟩
    · exact fun i hSees hGone _ => hAllow.dead i hSees hGone
    · exact fun hFull _ => hTable hFull
  unlinks := by
    rintro path rfl
    apply sysUnlink_call h.consistent.shows hCwd
    · intro fs' hDuring _
      obtain ⟨hOk, hData⟩ := h.during_same hFree hDuring (by simp)
      exact ⟨hOk, hData, trivial⟩
    · intro dp ip m name fs' hPath hDot hDotdot hFind hne hLinks hEmpty hDuring
      obtain ⟨hOk, hData⟩ := h.during hDuring (by simp)
        (fun i _ => unlinked_type _ _ _ _ i) (by simp)
        (hAllow.unlinks path rfl dp ip m name hPath hDot hDotdot hFind hne hLinks hEmpty)
      exact ⟨hOk, hData, trivial⟩
    · exact fun _ _ _ _ _ _ _ _ => hSleep
    · intro dp ip m name hPath hDot hDotdot hFind hType hLow _
      exact hAllow.counts path rfl dp ip m name hPath hDot hDotdot hFind hType hLow
    · exact fun i hSees hGone _ => hAllow.dead i hSees hGone
    · exact fun hFull _ => hTable hFull

end Xv6

-------
-- Laws
-------

namespace Xv6

variable {sb : Superblock} {J : (Nat → Node) → Prop} {H : Halt → Prop}

/- A start from a disk of which the nodes are known. -/
theorem bootFs_shows {d : Disk} {n : View Node} (h : Shows sb (mounted d) n) :
    Shows sb (Procs.bootFs d) (n.get ROOTINO) := by
  obtain ⟨v, hAt, hDirs, rfl⟩ := h.exists_at
  have hRef : v.ref ROOTINO = 0 := by
    rw [← hAt.ref]
    rfl
  have hBoot := hAt.firstRef ⟨by decide, sb.hRoot⟩ hRef
  have hEq :
      { (mounted d).setInode ROOTINO
          { (mounted d).itable ROOTINO with
            ref := 1
            valid := false }
        with used := (mounted d).used + 1 } =
        Procs.bootFs d := by
    have hTable : update (mounted d).itable ROOTINO
            { (mounted d).itable ROOTINO with
              ref := 1
              valid := false } =
          (Procs.bootFs d).itable := by
      funext i
      by_cases hi : i = ROOTINO
      · subst hi
        simp [Procs.bootFs, mounted]
      · simp [Procs.bootFs, mounted, hi]
    exact congrArg (fun x => ({ disk := d, itable := x, used := 1 } : Fs)) hTable
  rw [hEq] at hBoot
  exact Shows.of_at hBoot hDirs

theorem NamesOk.saved {fs : Fs} (h : NamesOk sb J fs) (hRoot : ∀ N, J N → (N ROOTINO).type ≠ 0) :
    SavedOk sb J fs.disk := by
  have hShows := bootFs_shows h.consistent.shows.mount
  refine ⟨hShows.consistent ?_, ?_⟩
  · intro i hRef
    have hi : i = ROOTINO := by
      by_contra hi
      simp [View.get, hi] at hRef
    rw [hi]
    exact hRoot _ h.nodes
  · rw [hShows.names]
    exact h.nodes

theorem namesSpec_laws (hFree : FreeClosed sb.ninodes J) (hRoot : ∀ N, J N → (N ROOTINO).type ≠ 0) :
    (namesSpec sb J H).Laws sb where
  saved := fun _ h => h.saved hRoot
  idup := fun _ _ h => idup_runs h
  ilock := fun _ _ h => ilock_runs h
  iunlock := fun _ _ h => iunlock_runs h
  iput := fun _ _ h => iput_runs h hFree
  iunlockput := fun _ _ h => iunlockput_runs h hFree
  itrunc := fun _ _ h => itrunc_runs h
  readi := fun _ _ copyout off n h hLocked => readi_runs h hLocked copyout off n
  writei := fun _ _ src copyin off n h hLocked hData => writei_runs h hLocked hData src copyin off n

end Xv6
