import Xv6.Sys.Directories

/-
  Runs of which every state is known.

  Where a call can neither fail nor sleep, the nodes and the
  reference counts after it are functions of those before.
  Long runs are then followed on the nodes alone.

  Key definitions include:
    * `settle`
    * `Known`
    * `Clear`
    * `Standing`

  Key theorems include:
    * `Standing.creates`, `Standing.links`
    * `Standing.unlinks`
-/

open Finset

open Function (update update_self update_of_ne)

-------
-- Known Name Spaces
-------

namespace Xv6

open Prog

/- What has neither links nor references is freed. -/
def settle (R : Nat → Int) (N : Nat → Node) : Nat → Node :=
  fun i => if (N i).nlink = 0 ∧ R i = 0 then Node.free else N i

/- The reference counts while more references are held. -/
def withRefs (R : Nat → Int) (held : List Nat) : Nat → Int := fun i => R i + held.count i

theorem withRefs_nil (R : Nat → Int) : withRefs R [] = R := by
  funext i
  exact add_zero (R i)

theorem withRefs_pos {R : Nat → Int} {held : List Nat} {i : Nat} (h : 0 < R i) :
    0 < withRefs R held i := by
  unfold withRefs
  omega

/- One process has moved from one directory to another. -/
def moved (R : Nat → Int) (old new : Nat) : Nat → Int :=
  update (withRefs R [new]) old (withRefs R [new] old - 1)

/- The nodes and the reference counts of a state. -/
structure Known (sb : Superblock) (N : Nat → Node) (R : Nat → Int) (fs : Fs) : Prop where
  shows : Shows sb fs (fs.names sb)
  file : (fs.names sb).file = N
  ref : (fs.names sb).ref = R
  settled : (fs.names sb).Settled
  sound : (fs.names sb).Sound

variable {sb : Superblock} {N N' : Nat → Node} {R : Nat → Int} {fs fs' : Fs}

namespace Known

variable {i : Nat} {held known : List Nat}

theorem of_shows {n : View Node} (hShows : Shows sb fs n) (hSettled : n.Settled)
    (hSound : n.Sound) : Known sb n.file n.ref fs := by
  obtain rfl := hShows.names
  exact ⟨hShows, rfl, rfl, hSettled, hSound⟩

section

variable (h : Known sb N R fs)
include h

/- Unreferenced inodes are free or have links. -/
theorem free_of_zero (hZero : (N i).nlink = 0) (hRef : R i = 0) : N i = Node.free := by
  by_contra hne
  have hType : (N i).type ≠ 0 := by
    intro hFree
    rw [← h.file] at hFree hne
    exact hne (h.shows.file_of_free hFree)
  rw [← h.file] at hType hZero
  have hPos := (h.settled i hType hZero).1
  rw [h.ref] at hPos
  omega

/- The state is settled already. -/
theorem settle_eq : settle R N = N := by
  funext i
  unfold settle
  split
  · next hBoth => exact (h.free_of_zero hBoth.1 hBoth.2).symm
  · rfl

/- A call has made the nodes `N'`. -/
theorem during (hDuring : During sb (fs.names sb) N' held known fs')
    (hHeld : held ⊆ known) (hSound : ∀ i, i ∈ held ∨ 0 < R i → (N' i).type ≠ 0) :
    Known sb (settle (withRefs R held) N') (withRefs R held) fs' := by
  obtain ⟨n', hShows, hPart⟩ := hDuring.finish
  have hSettled := hPart.settled h.settled
  have hRef : n'.ref = withRefs R held := by
    funext i
    rw [hPart.ref, ← h.ref]
    rfl
  have hFile : n'.file = settle (withRefs R held) N' := by
    funext i
    unfold settle
    rcases hPart.file i with hEq | ⟨hFree, hZero, hNone⟩
    · split
      · next hBoth =>
          by_contra hne
          have hType : (n'.file i).type ≠ 0 := fun hType => hne (hShows.file_of_free hType)
          have hPos := (hSettled i hType (by
            rw [hEq]
            exact hBoth.1)).1
          rw [hRef, hBoth.2] at hPos
          exact lt_irrefl 0 hPos
      · exact hEq
    · by_cases hi : i ∈ held
      · -- the call has locked what it holds
        have hKnown := (hPart.known i (hHeld hi)).2.2
        exact absurd (by rw [← hKnown, hFree]; rfl) (hSound i (.inl hi))
      rw [if_pos]
      · exact hFree
      · refine ⟨hZero, ?_⟩
        unfold withRefs
        rw [List.count_eq_zero_of_not_mem hi, ← h.ref, hNone]
        rfl
  rw [← hFile, ← hRef]
  refine of_shows hShows hSettled (hPart.sound hHeld ?_)
  intro i hi
  refine hSound i (hi.imp_right ?_)
  rw [← h.ref]
  exact id

theorem type_ne_zero (hRef : 0 < R i) : (N i).type ≠ 0 := by
  rw [← h.file]
  apply h.sound
  rw [h.ref]
  exact hRef

theorem nonneg (i : Nat) : 0 ≤ R i := by
  rw [← h.ref]
  exact h.shows.nonneg i

/- A call that leaves the nodes as they are. -/
theorem holds (hDuring : During sb (fs.names sb) N held known fs')
    (hHeld : held ⊆ known) : Known sb N (withRefs R held) fs' := by
  have hKnown := h.during hDuring hHeld (fun i hi => by
    rcases hi with hi | hRef
    · exact hDuring.type_ne_zero (hHeld hi)
    · exact h.type_ne_zero hRef)
  have hEq : settle (withRefs R held) N = N := by
    funext i
    by_cases hBoth : (N i).nlink = 0 ∧ withRefs R held i = 0
    · have hNonneg := h.nonneg i
      have hZero : R i = 0 := by
        have hSum := hBoth.2
        unfold withRefs at hSum
        omega
      exact (if_pos hBoth).trans (h.free_of_zero hBoth.1 hZero).symm
    · exact if_neg hBoth
  rwa [hEq] at hKnown

theorem ref_pos (h' : Known sb N' (withRefs R held) fs')
    (hi : i ∈ held) : 0 < (fs'.names sb).ref i := by
  have hNonneg := h.nonneg i
  have hCount := List.count_pos_iff.mpr hi
  rw [h'.ref]
  unfold withRefs
  omega

/- A call that holds nothing any more. -/
theorem done (hDuring : During sb (fs.names sb) N' [] [] fs')
    (hSound : ∀ i, 0 < R i → (N' i).type ≠ 0) : Known sb (settle R N') R fs' := by
  have hDone := h.during hDuring (List.Subset.refl _)
    (fun i hi => hSound i (hi.resolve_left List.not_mem_nil))
  rwa [withRefs_nil] at hDone

theorem namesOk : NamesOk sb (fun M => M = N) fs :=
  ⟨h.shows.consistent h.sound, h.settled, h.file⟩

/- One reference is put. -/
theorem put (hRef : 0 < R i) :
    wp (iput sb i) (fun _ fs' =>
        Known sb (settle (update R i (R i - 1)) N) (update R i (R i - 1)) fs')
      (fun _ _ => False) fs := by
  have hPos : 0 < (fs.names sb).ref i := by
    rw [h.ref]
    exact hRef
  refine wp_imp (iput_shows h.namesOk hPos) ?_
  intro _ fs' hShows
  have hSettled := h.settled.put i
  have hRefs : ((fs.names sb).put Node.nlink Node.free i).ref = update R i (R i - 1) := by
    rw [View.put_ref, ← h.ref]
  have hFile : ((fs.names sb).put Node.nlink Node.free i).file =
        settle (update R i (R i - 1)) N := by
    funext j
    rw [View.put_file, h.file]
    by_cases hj : j = i
    · subst hj
      have hValid (hZero : (N j).nlink = 0) : (fs.names sb).valid j = true := by
        rw [← h.file] at hZero
        exact (h.settled j (h.sound j hPos) hZero).2
      unfold settle
      rw [update_self, h.ref]
      refine if_congr ?_ rfl rfl
      constructor
      · rintro ⟨_, hOne, _, hZero⟩
        exact ⟨hZero, by omega⟩
      · rintro ⟨hZero, hOne⟩
        exact ⟨rfl, by omega, hValid hZero, hZero⟩
    · rw [if_neg (fun hBoth => hj hBoth.1)]
      unfold settle
      rw [update_of_ne hj]
      exact (congrFun h.settle_eq j).symm
  rw [← hFile, ← hRefs]
  exact of_shows hShows hSettled (h.sound.put hPos)

end

end Known

-------
-- Calls That Cannot Fail
-------

/-
  A call that starts in `cwd` finds no dead inode, has room
  in the inode table and blocks for one more inode.
-/
structure Clear (sb : Superblock) (N : Nat → Node) (R : Nat → Int) (cwd : Nat) : Prop where
  here : 0 < R cwd
  alive : ∀ i, Sees N cwd i → (N i).type ≠ 0 ∧ ((N i).nlink ≠ 0 ∨ R i ≠ 0)
  table : ((Finset.range sb.ninodes).filter (fun i => 0 < R i)).card +
    2 < NINODE
  room : (((Finset.range sb.ninodes).filter
      (fun i => (N i).type ≠ 0)).card + 1) * NADDR <
      sb.size - sb.dataStart

/- A call that starts in `cwd` finds no dead inode. -/
structure Passable (N : Nat → Node) (R : Nat → Int) (cwd : Nat) : Prop where
  here : 0 < R cwd
  alive : ∀ i, Sees N cwd i → (N i).type ≠ 0 ∧ ((N i).nlink ≠ 0 ∨ R i ≠ 0)

/-
  One path meets no dead inode, and there are blocks for one
  more inode.
-/
structure RoomOn (sb : Superblock) (N : Nat → Node) (R : Nat → Int) (cwd : Nat)
    (path : Path) : Prop where
  here : 0 < R cwd
  alive : ∀ i, Meets N cwd path i → (N i).type ≠ 0 ∧ ((N i).nlink ≠ 0 ∨ R i ≠ 0)
  room : (((Finset.range sb.ninodes).filter
      (fun i => (N i).type ≠ 0)).card + 1) * NADDR <
      sb.size - sb.dataStart

/- In addition, there is room in the inode table. -/
structure ClearOn (sb : Superblock) (N : Nat → Node) (R : Nat → Int) (cwd : Nat)
    (path : Path) : Prop
    extends RoomOn sb N R cwd path where
  table : ((Finset.range sb.ninodes).filter (fun i => 0 < R i)).card +
    2 < NINODE

/- The first free inode. -/
structure FirstFree (sb : Superblock) (N : Nat → Node) (ip : Nat) : Prop where
  pos : 1 ≤ ip
  lt : ip < sb.ninodes
  free : (N ip).type = 0
  least : ∀ j, 1 ≤ j → j < ip → (N j).type ≠ 0

/- A path leads to a name that is free, in a directory with room. -/
structure Vacant (sb : Superblock) (N : Nat → Node) (cwd : Nat) (path : Path) (dp ip : Nat)
    (name : Name) : Prop where
  path : findPath N cwd path true = some (dp, name)
  find : findEntry name 0 (N dp).ents = none
  free : FirstFree sb N ip
  len : (N dp).ents.length < MAXENTS

variable {sb : Superblock} {N : Nat → Node} {R : Nat → Int} {fs : Fs} {cwd : Nat}

namespace Clear

variable (h : Clear sb N R cwd)
include h

theorem has_room : ¬ NoRoom sb N := by
  have hRoom := h.room
  unfold NoRoom
  have hLe := Nat.mul_le_mul_right NADDR (Nat.le_add_right ((range sb.ninodes).filter
      (fun i => (N i).type ≠ 0)).card 1)
  omega

theorem passable : Passable N R cwd := ⟨h.here, h.alive⟩

theorem on (path : Path) : ClearOn sb N R cwd path :=
  ⟨⟨h.here, fun i hMeets => h.alive i hMeets.sees, h.room⟩, h.table⟩

end Clear

/- One more inode may be allocated. -/
theorem RoomOn.has_room_update {path : Path} (h : RoomOn sb N R cwd path) (i : Nat) (nd : Node) :
    ¬ NoRoom sb (update N i nd) := by
  have hRoom := h.room
  have hSub : (range sb.ninodes).filter (fun j => (update N i nd j).type ≠ 0) ⊆
        insert i ((range sb.ninodes).filter (fun j => (N j).type ≠ 0)) := by
    intro j hj
    rw [mem_filter] at hj
    by_cases hji : j = i
    · exact mem_insert.mpr (.inl hji)
    · rw [update_of_ne hji] at hj
      exact mem_insert_of_mem (mem_filter.mpr hj)
  have hCard := (card_le_card hSub).trans (card_insert_le ..)
  have hLe := Nat.mul_le_mul_right NADDR hCard
  unfold NoRoom
  omega

namespace Known

variable (h : Known sb N R fs)
include h

variable {path : Path} {name : Name}

theorem not_full (hTable : ((Finset.range sb.ninodes).filter (fun i => 0 < R i)).card + 2 < NINODE)
    {k : Nat} (hk : k ≤ 2) : ¬ NINODE ≤ (fs.names sb).inUse sb + k := by
  rw [← h.ref] at hTable
  unfold View.inUse
  omega

/- A path that leads to a free inode. -/
theorem finds_free (hCwd : 0 < R cwd)
    (hTable : ((Finset.range sb.ninodes).filter (fun i => 0 < R i)).card + 2 < NINODE)
    {ip : Nat} (hPath : findPath N cwd path false = some (ip, name))
    (hFree : (N ip).type = 0) :
    wp (nameiLock sb cwd path) (fun _ _ => False) (fun e _ => e = .panic .ilockNoType) fs := by
  obtain rfl := h.file
  apply nameiLock_call h.shows _ path
  · intro hNone
    rw [hPath] at hNone
    cases hNone
  · intro ip' name' hSome fs' hDuring
    rw [hPath] at hSome
    cases hSome
    exact hDuring.type_ne_zero (List.mem_singleton_self ip) hFree
  · intro _ _ _ _
    rfl
  · intro hFull
    exact absurd hFull (h.not_full hTable (by omega))
  · rw [h.ref]
    exact hCwd

theorem not_gone {i : Nat} (hAlive : (N i).type ≠ 0 ∧ ((N i).nlink ≠ 0 ∨ R i ≠ 0)) :
    ¬ (fs.names sb).Gone i := by
  obtain ⟨hType, hHeld⟩ := hAlive
  unfold View.Gone
  rw [h.file, h.ref]
  rintro (hFree | ⟨hZero, hNone⟩)
  · exact hType hFree
  · rcases hHeld with hLink | hRef
    · exact hLink hZero
    · exact hRef hNone

theorem cwd_pos (hHere : 0 < R cwd) : 0 < (fs.names sb).ref cwd := by
  rw [h.ref]
  exact hHere

/-
  A new inode under a name that is not there, unless the
  inode table is full.
-/
theorem creates_or_full {type : BitVec 16} {dp ip : Nat}
    (hRoom : RoomOn sb N R cwd path) (hType : type ≠ 0) (major minor : BitVec 16)
    (hNew : Vacant sb N cwd path dp ip name) :
    wp (create sb cwd path type major minor) (fun r fs' => r = some ip ∧
        (fs.names sb).inUse sb < NINODE ∧
        During sb (fs.names sb) (created N dp ip name type) [ip] [ip] fs')
      (fun e _ => e = .panic .igetNoInodes ∧ NINODE ≤ (fs.names sb).inUse sb + 2) fs := by
  obtain rfl := h.file
  obtain ⟨hPath, hFind, hFree, hLen⟩ := hNew
  apply create_call h.shows h.sound (h.cwd_pos hRoom.here) hType
  · intro fs' _ hFails
    exfalso
    cases hFails with
    | noParent hNone =>
      rw [hPath] at hNone
      cases hNone
    | nameExists dp' ip' m name' hSome hThere =>
      rw [hPath] at hSome
      cases hSome
      rw [hFind] at hThere
      cases hThere
    | noInode hAll => exact hAll ip hFree.pos hFree.lt hFree.free
    | noRoom ip' hNo => exact hRoom.has_room_update _ _ hNo
    | largest dp' name' hSome hMax =>
      rw [hPath] at hSome
      cases hSome
      omega
  · intro dp' ip' m name' fs' hSome hThere
    rw [hPath] at hSome
    cases hSome
    rw [hFind] at hThere
    cases hThere
  · intro dp' ip' name' fs' hSome _ hPos hLt hGone hBefore hUse
      _ hDuring
    rw [hPath] at hSome
    cases hSome
    have hFree' : ((fs.names sb).file ip').type = 0 := by
      unfold View.Gone at hGone
      rw [h.ref] at hGone
      rcases hGone with hFree' | ⟨hZero, hNone⟩
      · exact hFree'
      · rw [h.free_of_zero hZero hNone]
        rfl
    have hEq : ip' = ip := by
      rcases Nat.lt_trichotomy ip' ip with hLt' | hEq | hGt
      · exact absurd hFree' (hFree.least ip' hPos hLt')
      · exact hEq
      · exact absurd hFree.free (hBefore ip hFree.pos hGt)
    subst hEq
    exact ⟨rfl, hUse, hDuring⟩
  · intro i hMeets hGone
    exact absurd hGone (h.not_gone (hRoom.alive i hMeets))
  · intro hFull _
    exact ⟨rfl, hFull⟩

theorem creates {type : BitVec 16} {dp ip : Nat}
    (hClear : ClearOn sb N R cwd path) (hType : type ≠ 0) (major minor : BitVec 16)
    (hNew : Vacant sb N cwd path dp ip name) :
    wp (create sb cwd path type major minor) (fun r fs' => r = some ip ∧
        During sb (fs.names sb) (created N dp ip name type) [ip] [ip] fs')
      (fun _ _ => False) fs := by
  refine wp_mono (h.creates_or_full hClear.toRoomOn hType major minor hNew) ?_ ?_
  · rintro _ _ ⟨rfl, _, hDuring⟩
    exact ⟨rfl, hDuring⟩
  · rintro _ _ ⟨_, hFull⟩
    exact h.not_full hClear.table (le_refl 2) hFull

/-
  A path is found, and the inode is locked, unless the inode
  table is full.
-/
theorem finds (hPass : Passable N R cwd) {ip : Nat}
    (hPath : findPath N cwd path false = some (ip, name)) :
    wp (nameiLock sb cwd path) (fun r fs' => r = some ip ∧ During sb (fs.names sb) N [ip] [ip] fs')
      (fun e _ => e = .panic .igetNoInodes ∧ NINODE ≤ (fs.names sb).inUse sb + 1) fs := by
  obtain rfl := h.file
  apply nameiLock_call h.shows (h.cwd_pos hPass.here) path
  · intro hNone
    rw [hPath] at hNone
    cases hNone
  · intro ip' name' hSome fs' hDuring
    rw [hPath] at hSome
    cases hSome
    exact ⟨rfl, hDuring⟩
  · intro i hSees hGone
    exact absurd hGone (h.not_gone (hPass.alive i hSees))
  · intro hFull _
    exact ⟨rfl, hFull⟩

/- One more reference. -/
theorem dup {i : Nat} (hRef : 0 < R i) :
    wp (idup i) (fun r fs' => r = i ∧ Known sb N (withRefs R [i]) fs') (fun _ _ => False) fs := by
  have hSound : ((fs.names sb).get i).Sound := by
    intro j hj
    apply h.sound
    by_cases hji : j = i
    · rw [hji]
      exact h.cwd_pos hRef
    · simpa [View.get, hji] using hj
  have hCount : ((fs.names sb).get i).ref = withRefs R [i] := by
    funext j
    unfold View.get withRefs
    rw [← h.ref]
    by_cases hji : j = i
    · simp [hji]
    · simp [hji, Ne.symm hji]
  apply idup_rule h.namesOk.at_view (h.cwd_pos hRef)
  intro fs' hAt
  refine ⟨rfl, ?_⟩
  have hFile : ((fs.names sb).get i).file = N := h.file
  rw [← hCount, ← hFile]
  exact .of_shows (Shows.of_at hAt h.namesOk.consistent.dirs) (h.settled.get i) hSound

variable (hClear : Clear sb N R cwd)
include hClear

/- A new link to a file. -/
theorem links {old new : Path} {dp ip : Nat} {name last : Name}
    (hLong : ¬ (MAXPATH ≤ old.length ∨ MAXPATH ≤ new.length))
    (hOld : findPath N cwd old false = some (ip, last)) (hFile : (N ip).type ≠ T_DIR)
    (hNew : findPath N cwd new true = some (dp, name)) (hFind : findEntry name 0 (N dp).ents = none)
    (hLen : (N dp).ents.length < MAXENTS) :
    wp (sysLink sb cwd old new) (fun r fs' => r = 0 ∧ During sb (fs.names sb) (linked N dp ip name)
          [] [] fs')
      (fun _ _ => False) fs := by
  obtain rfl := h.file
  apply sysLink_call h.shows (h.cwd_pos hClear.here)
  · intro fs' _ hFails
    exfalso
    rcases hFails with hBad | hBad | ⟨ip', name', hBad, hDir⟩ |
      hBad | ⟨dp', name', hBad, hThere⟩ | hBad |
      ⟨dp', name', hBad, hMax⟩
    · exact hLong hBad
    · rw [hOld] at hBad
      cases hBad
    · rw [hOld] at hBad
      cases hBad
      exact hFile hDir
    · rw [hNew] at hBad
      cases hBad
    · rw [hNew] at hBad
      cases hBad
      exact hThere hFind
    · exact hClear.has_room hBad
    · rw [hNew] at hBad
      cases hBad
      omega
  · intro dp' ip' name' last' fs' hOld' hNew' _ _ _ hDuring
    rw [hOld] at hOld'
    rw [hNew] at hNew'
    cases hOld'
    cases hNew'
    exact ⟨rfl, hDuring⟩
  · intro i hSees hGone
    exact absurd hGone (h.not_gone (hClear.alive i hSees))
  · intro hFull
    exact absurd hFull (h.not_full hClear.table (le_refl 2))

/- A name is removed. -/
theorem unlinks {path : Path} {dp ip m : Nat} {name : Name} (hLong : ¬ MAXPATH ≤ path.length)
    (hPath : findPath N cwd path true = some (dp, name))
    (hDots : ¬ (cname name = dot ∨ cname name = dotdot))
    (hFind : findEntry name 0 (N dp).ents = some (ip, m)) (hne : ip ≠ dp)
    (hNlink : 1 ≤ (N ip).nlink.toInt) (hEmpty : (N ip).type = T_DIR → (N ip).Empty) :
    wp (sysUnlink sb cwd path) (fun r fs' => r = 0 ∧ During sb (fs.names sb) (unlinked N dp ip m)
          [] [] fs')
      (fun _ _ => False) fs := by
  obtain rfl := h.file
  apply sysUnlink_call h.shows (h.cwd_pos hClear.here)
  · intro fs' _ hFails
    exfalso
    rcases hFails with hBad | hBad | ⟨dp', name', hBad, hIs⟩ | ⟨dp', name', hBad, hNone⟩ |
      ⟨dp', ip', m', name', hBad, hSome, hDir, hFull⟩
    · exact hLong hBad
    · rw [hPath] at hBad
      cases hBad
    · rw [hPath] at hBad
      cases hBad
      exact hDots hIs
    · rw [hPath] at hBad
      cases hBad
      rw [hFind] at hNone
      cases hNone
    · rw [hPath] at hBad
      cases hBad
      rw [hFind] at hSome
      cases hSome
      exact hFull (hEmpty hDir)
  · intro dp' ip' m' name' fs' hPath' _ _ hFind' _ _ _ hDuring
    rw [hPath] at hPath'
    cases hPath'
    rw [hFind] at hFind'
    cases hFind'
    exact ⟨rfl, hDuring⟩
  · intro dp' m' name' hPath' _ _ hFind'
    rw [hPath] at hPath'
    cases hPath'
    rw [hFind] at hFind'
    cases hFind'
    exact absurd rfl hne
  · intro dp' ip' m' name' hPath' _ _ hFind' _ hLow
    rw [hPath] at hPath'
    cases hPath'
    rw [hFind] at hFind'
    cases hFind'
    omega
  · intro i hSees hGone
    exact absurd hGone (h.not_gone (hClear.alive i hSees))
  · intro hFull
    exact absurd hFull (h.not_full hClear.table (le_refl 2))

end Known

-------
-- Steps
-------

/- A process that is ready for a call in a known state. -/
structure Standing {P : Type} (sb : Superblock) (N : Nat → Node) (R : Nat → Int) (p : P) (cwd : Nat)
    (s : Sys P) : Prop where
  known : Known sb N R s.fs
  runnable : (s.proc p).state = .runnable
  cwd : (s.proc p).cwd = some cwd

/- A transaction has changed the file system. -/
def Sys.committed {P : Type} (s : Sys P) (fs : Fs) : Sys P :=
  { s with fs := fs, commits := fs.disk :: s.commits }

/- A scan of a table finds its first place if it is free. -/
theorem find_finRange_zero {n : Nat} (f : Fin (n + 1) → Bool) (h : f 0 = true) :
    (List.finRange (n + 1)).find? f = some 0 := by
  rw [List.finRange_succ, List.find?_cons_of_pos h]

section Steps

variable {P : Type} [DecidableEq P] {sb : Superblock} {N : Nat → Node}
variable {R : Nat → Int} {p : P} {cwd : Nat} {s : Sys P}

variable {Q : Sys P → Prop}

/- A call that returns is a step. -/
theorem step_of_wp (E : Procs P) {c : SysCall}
    (hp : (s.proc p).state = .runnable)
    (h : wp (E.code sb p c) (fun _ s' => Q s') (fun _ _ => False) s) :
    ∃ s', E.step sb s (.call p c) = .next s' ∧ Q s' := by
  obtain ⟨r, s', hRun, hQ⟩ := exists_ok_of_wp h
  refine ⟨s', ?_, hQ⟩
  rw [Procs.step, if_pos hp, hRun]

/- A call that may also stop is a step or a fault. -/
theorem step_or_fault_of_wp (E : Procs P) {c : SysCall} {e : Halt} {F : Prop}
    (hp : (s.proc p).state = .runnable)
    (h : wp (E.code sb p c) (fun _ s' => Q s') (fun e' _ => e' = .fs e ∧ F) s) :
    (∃ s', E.step sb s (.call p c) = .next s' ∧ Q s') ∨
      E.step sb s (.call p c) = .fault (.fs e) ∧ F := by
  unfold wp at h
  rw [Procs.step, if_pos hp]
  rcases hRun : E.code sb p c s with ⟨r, s'⟩
  rw [hRun] at h
  cases r with
  | ok _ => exact .inl ⟨s', rfl, h⟩
  | error e' =>
    obtain ⟨hEq, hF⟩ := h
    rw [show e' = .fs e from hEq]
    exact .inr ⟨rfl, hF⟩

/- One more step of a run. -/
theorem Procs.reach_step {E : Procs P} {Image : Disk → Prop} {Allowed : Sys P → SysAction P → Prop}
    {a : SysAction P} {s' : Sys P} (hReach : (E.system sb Image).Reach Allowed s)
    (hStep : E.step sb s a = .next s') (hAllowed : Allowed s a) :
    (E.system sb Image).Reach Allowed s' :=
  hReach.step hAllowed hStep

omit [DecidableEq P] in
/- File-system code in a call, with a known result. -/
theorem inFs_known {α β : Type} {m : FsM α} {f : α → SysM P β} {T : α → Fs → Prop}
    {Q : β → Sys P → Prop} {E : SysHalt → Sys P → Prop} (h : wp m T (fun _ _ => False) s.fs)
    (hNext : ∀ a fs', T a fs' → wp (f a) Q E { s with fs := fs' }) : wp (inFs m >>= f) Q E s := by
  rw [wp_bind, inFs, wp_zoom]
  exact wp_mono h hNext (fun _ _ hFalse => hFalse.elim)

namespace Standing

variable (h : Standing sb N R p cwd s)
include h

omit [DecidableEq P] in
theorem cwd_eq : s.cwd p = cwd := by
  unfold Sys.cwd
  rw [h.cwd]
  rfl

/- `chdir` to a free inode stops the machine. -/
theorem chdir_panics (E : Procs P) (hCwd : 0 < R cwd)
    (hTable : ((Finset.range sb.ninodes).filter (fun i => 0 < R i)).card + 2 < NINODE)
    (path : Path) (ip : Nat) (name : Name) (hArg : argstr (some path) = some path)
    (hPath : findPath N cwd path false = some (ip, name)) (hFree : (N ip).type = 0) :
    E.step sb s (.call p (.chdir (some path))) = .fault (.fs (.panic .ilockNoType)) := by
  have hStops : wp (E.code sb p (.chdir (some path))) (fun _ _ => False)
        (fun e _ => e = .fs (.panic .ilockNoType)) s := by
    change wp (sysChdir sb p (some path)) _ _ s
    unfold sysChdir
    rw [hArg]
    dsimp only
    rw [wp_bind, wp_read, h.cwd_eq, wp_bind, inFs, wp_zoom]
    refine wp_mono (h.known.finds_free hCwd hTable hPath hFree) ?_ ?_
    · exact fun _ _ hFalse => hFalse.elim
    · exact fun _ _ hEq => congrArg SysHalt.fs hEq
  rw [Procs.step, if_pos h.runnable]
  unfold wp at hStops
  rcases hRun : E.code sb p (.chdir (some path)) s with ⟨r, s'⟩
  rw [hRun] at hStops
  cases r with
  | ok _ => exact hStops.elim
  | error e => rw [show e = .fs (.panic .ilockNoType) from hStops]

omit [DecidableEq P] in
theorem createPut {path : Path} {type : BitVec 16} {dp ip : Nat} {name : Name}
    (hClear : ClearOn sb N R cwd path) (hType : type ≠ 0)
    (major minor : BitVec 16) (hArg : argstr (some path) = some path)
    (hNew : Vacant sb N cwd path dp ip name) :
    wp (createPut sb p (some path) type major minor) (fun _ s' => ∃ fs', s' = s.committed fs' ∧
        Known sb (settle R (created N dp ip name type)) R fs')
      (fun _ _ => False) s := by
  have hCwd := h.cwd_eq
  unfold Xv6.createPut
  rw [hArg]
  dsimp only
  rw [wp_bind, wp_read, hCwd]
  refine inFs_known (h.known.creates hClear hType major minor hNew) ?_
  rintro _ fs₁ ⟨rfl, hDuring⟩
  dsimp only
  refine inFs_known (T := fun _ fs' => Known sb (settle R (created N dp ip name type)) R fs') ?_ ?_
  · apply iunlockput_call hDuring [] [] (List.Perm.refl _) (by simp)
    intro fs₂ hDone
    refine h.known.done hDone (fun i hRef => ?_)
    have hi : i ≠ ip := by
      rintro rfl
      exact h.known.type_ne_zero hRef hNew.free.free
    rw [created_type_of_ne hi]
    exact h.known.type_ne_zero hRef
  · intro _ fs₂ hKnown
    rw [Sys.endOp, wp_bind, wp_edit, wp_pure]
    exact ⟨fs₂, rfl, hKnown⟩

/- `mkdir` and `mknod` make a new inode. -/
theorem mkdirs (E : Procs P) (path : Path) (hClear : ClearOn sb N R cwd path) (dp ip : Nat)
    (name : Name) (hArg : argstr (some path) = some path)
    (hNew : Vacant sb N cwd path dp ip name) :
    ∃ fs', E.step sb s (.call p (.mkdir (some path))) = .next (s.committed fs') ∧
      Known sb (settle R (created N dp ip name T_DIR)) R
        fs' := by
  obtain ⟨s', hStep, fs', rfl, hKnown⟩ :=
    step_of_wp E (c := .mkdir (some path)) h.runnable
      (h.createPut hClear (by decide) 0 0 hArg hNew)
  exact ⟨fs', hStep, hKnown⟩

theorem mknods (E : Procs P) (path : Path) (hClear : ClearOn sb N R cwd path) (dp ip : Nat)
    (name : Name) (hArg : argstr (some path) = some path)
    (hNew : Vacant sb N cwd path dp ip name) :
    ∃ fs', E.step sb s (.call p (.mknod (some path) 0 0)) = .next (s.committed fs') ∧
      Known sb (settle R (created N dp ip name T_DEVICE)) R
        fs' := by
  obtain ⟨s', hStep, fs', rfl, hKnown⟩ :=
    step_of_wp E (c := .mknod (some path) 0 0) h.runnable
      (h.createPut hClear (by decide) _ _ hArg hNew)
  exact ⟨fs', hStep, hKnown⟩

/-
  `chdir` moves to another directory and leaves the old one,
  unless the inode table is full.
-/
theorem chdirs_or_full (hPass : Passable N R cwd) (E : Procs P) (path : Path) (ip : Nat)
    (name : Name) (hArg : argstr (some path) = some path)
    (hPath : findPath N cwd path false = some (ip, name)) (hDir : (N ip).type = T_DIR) :
    (∃ fs', E.step sb s (.call p (.chdir (some path))) = .next ((s.committed fs').setProc p
          { s.proc p with cwd := some ip }) ∧
      Known sb (settle (moved R cwd ip) N) (moved R cwd ip) fs') ∨
    E.step sb s (.call p (.chdir (some path))) = .fault (.fs (.panic .igetNoInodes)) ∧
      NINODE ≤ (s.fs.names sb).inUse sb + 1 := by
  have hCode : wp (E.code sb p (.chdir (some path)))
        (fun _ s' => ∃ fs', s' = (s.committed fs').setProc p
            { s.proc p with cwd := some ip } ∧
          Known sb (settle (moved R cwd ip) N) (moved R cwd ip) fs')
        (fun e _ => e = .fs (.panic .igetNoInodes) ∧ NINODE ≤ (s.fs.names sb).inUse sb + 1) s := by
    have hCwd := h.cwd_eq
    change wp (sysChdir sb p (some path)) _ _ s
    unfold sysChdir
    rw [hArg]
    dsimp only
    rw [wp_bind, wp_read, hCwd, wp_bind, inFs, wp_zoom]
    refine wp_mono (h.known.finds hPass hPath) ?_
      (fun _ _ hEq => ⟨congrArg SysHalt.fs hEq.1, hEq.2⟩)
    rintro _ fs₁ ⟨rfl, hDuring⟩
    have hMem := List.mem_singleton_self ip
    have hHeld := h.known.holds hDuring (fun _ => id)
    dsimp only
    rw [wp_bind, wp_read]
    dsimp only
    rw [hDuring.copy_type hMem, if_neg (not_not.mpr hDir)]
    refine inFs_known (T := fun _ fs' => Known sb N (withRefs R [ip]) fs')
      (iunlock_rule hHeld.namesOk.at_view (h.known.ref_pos hHeld hMem) hHeld) ?_
    intro _ fs₂ hKnown
    change wp (inFs (iput sb (s.cwd p)) >>= _) _ _ _
    rw [hCwd]
    refine inFs_known (hKnown.put (withRefs_pos hPass.here)) ?_
    intro _ fs₃ hPut
    rw [Sys.endOp, wp_bind, wp_edit, wp_bind, wp_edit, wp_pure]
    exact ⟨fs₃, rfl, hPut⟩
  rcases step_or_fault_of_wp E h.runnable hCode with
    ⟨s', hStep, fs', rfl, hKnown⟩ | hFault
  · exact .inl ⟨fs', hStep, hKnown⟩
  · exact .inr hFault

/- `fork` makes a child without files in the same place. -/
theorem forks (hHere : 0 < R cwd) (E : Procs P) (np : P)
    (hFirst : E.procs.find? (fun q => (s.proc q).state == .unused) = some np)
    (hFiles : ∀ fd, (s.proc p).ofile fd = none) :
    ∃ s', E.step sb s (.call p (.fork true)) = .next s' ∧ Known sb N (withRefs R [cwd]) s'.fs ∧
      s'.proc = update s.proc np
        { s.proc np with
          pid := s.nextpid
          state := .runnable
          cwd := some cwd
          parent := some p } := by
  have hState : (s.proc np).state = .unused := by simpa using List.find?_some hFirst
  have hne : p ≠ np := by
    rintro rfl
    rw [h.runnable] at hState
    cases hState
  refine step_of_wp E h.runnable ?_
  change wp (fork E p true) _ _ s
  unfold fork
  rw [wp_bind, wp_read, hFirst]
  dsimp only
  rw [wp_bind, wp_edit, if_pos rfl]
  unfold forkChild
  rw [wp_bind]
  -- there are no files to hand on
  refine wp_imp (wp_forEach (forkFile p np) (fun _ s' => s' = _) _ ?_ rfl) ?_
  · rintro fd rest _ rfl
    have hNone : ((({ s.setProc np
        { s.proc np with pid := s.nextpid, state := .used }
        with nextpid := s.nextpid + 1 } : Sys P).proc p).ofile fd) = none := by
      simpa [hne] using hFiles fd
    unfold forkFile
    rw [wp_bind, wp_read, hNone, wp_pure]
  rintro _ _ rfl
  rw [wp_bind, wp_read]
  have hHome : ({ s.setProc np
      { s.proc np with pid := s.nextpid, state := .used }
      with nextpid := s.nextpid + 1 } : Sys P).cwd p =
        cwd := by
    rw [← h.cwd_eq]
    simp [Sys.cwd, hne]
  rw [hHome]
  refine inFs_known (h.known.dup hHere) ?_
  rintro _ fs' ⟨rfl, hKnown⟩
  rw [wp_bind, wp_edit, wp_pure]
  refine ⟨hKnown, ?_⟩
  funext q
  by_cases hq : q = np
  · subst hq
    simp
  · simp [hq]

/- `mkdir` stops the machine if the inode table is full. -/
theorem mkdir_panics (E : Procs P) (path : Path) (hRoom : RoomOn sb N R cwd path) (dp ip : Nat)
    (name : Name) (hArg : argstr (some path) = some path)
    (hNew : Vacant sb N cwd path dp ip name) (hFull : NINODE ≤ (s.fs.names sb).inUse sb) :
    E.step sb s (.call p (.mkdir (some path))) = .fault (.fs (.panic .igetNoInodes)) := by
  have hCode : wp (E.code sb p (.mkdir (some path))) (fun _ _ => False)
        (fun e _ => e = .fs (.panic .igetNoInodes) ∧ True)
        s := by
    change wp (Xv6.createPut sb p (some path) T_DIR 0 0) _ _ s
    unfold Xv6.createPut
    rw [hArg]
    dsimp only
    rw [wp_bind, wp_read, h.cwd_eq, wp_bind, inFs, wp_zoom]
    refine wp_mono (h.known.creates_or_full hRoom (by decide) 0 0 hNew) ?_ ?_
    · rintro _ _ ⟨_, hLess, _⟩
      exact absurd hFull (Nat.not_le_of_lt hLess)
    · exact fun _ _ hEq => ⟨congrArg SysHalt.fs hEq.1, trivial⟩
  rcases step_or_fault_of_wp E h.runnable
    hCode with ⟨_, _, hFalse⟩ | ⟨hFault, _⟩
  · exact hFalse.elim
  · exact hFault

variable (hClear : Clear sb N R cwd)
include hClear

/- `link` adds a name to a file. -/
theorem links (E : Procs P) (old new : Path) (dp ip : Nat) (name last : Name)
    (hLong : ¬ (MAXPATH ≤ old.length ∨ MAXPATH ≤ new.length))
    (hOld : findPath N cwd old false = some (ip, last)) (hFile : (N ip).type ≠ T_DIR)
    (hNew : findPath N cwd new true = some (dp, name)) (hFind : findEntry name 0 (N dp).ents = none)
    (hLen : (N dp).ents.length < MAXENTS) :
    ∃ fs', E.step sb s (.call p (.link (some old) (some new))) = .next (s.committed fs') ∧
      Known sb (settle R (linked N dp ip name)) R fs' := by
  obtain ⟨s', hStep, fs', rfl, hKnown⟩ :=
    step_of_wp E (c := .link (some old) (some new)) (Q := fun s' => ∃ fs', s' = s.committed fs' ∧
        Known sb (settle R (linked N dp ip name)) R fs')
      h.runnable
      (by
        change wp (procLink sb p (some old) (some new)) _ _ s
        unfold procLink
        dsimp only
        rw [wp_bind, wp_read, h.cwd_eq]
        refine inFs_known (h.known.links hClear hLong hOld hFile hNew hFind hLen) ?_
        rintro _ fs' ⟨rfl, hDuring⟩
        rw [Sys.endOp, wp_bind, wp_edit, wp_pure]
        refine ⟨fs', rfl, h.known.done hDuring ?_⟩
        intro i hRef
        rw [linked_type]
        exact h.known.type_ne_zero hRef)
  exact ⟨fs', hStep, hKnown⟩

/- `unlink` removes a name. -/
theorem unlinks (E : Procs P) (path : Path) (dp ip m : Nat) (name : Name)
    (hLong : ¬ MAXPATH ≤ path.length) (hPath : findPath N cwd path true = some (dp, name))
    (hDots : ¬ (cname name = dot ∨ cname name = dotdot))
    (hFind : findEntry name 0 (N dp).ents = some (ip, m)) (hne : ip ≠ dp)
    (hNlink : 1 ≤ (N ip).nlink.toInt) (hEmpty : (N ip).type = T_DIR → (N ip).Empty) :
    ∃ fs', E.step sb s (.call p (.unlink (some path))) = .next (s.committed fs') ∧
      Known sb (settle R (unlinked N dp ip m)) R fs' := by
  obtain ⟨s', hStep, fs', rfl, hKnown⟩ :=
    step_of_wp E (c := .unlink (some path)) (Q := fun s' => ∃ fs', s' = s.committed fs' ∧
        Known sb (settle R (unlinked N dp ip m)) R fs')
      h.runnable
      (by
        change wp (procUnlink sb p (some path)) _ _ s
        unfold procUnlink
        dsimp only
        rw [wp_bind, wp_read, h.cwd_eq]
        refine inFs_known (h.known.unlinks hClear hLong hPath hDots hFind hne hNlink hEmpty) ?_
        rintro _ fs' ⟨rfl, hDuring⟩
        rw [Sys.endOp, wp_bind, wp_edit, wp_pure]
        refine ⟨fs', rfl, h.known.done hDuring ?_⟩
        intro i hRef
        rw [unlinked_type]
        exact h.known.type_ne_zero hRef)
  exact ⟨fs', hStep, hKnown⟩

/- `chdir` moves to another directory and leaves the old. -/
theorem chdirs (E : Procs P) (path : Path) (ip : Nat) (name : Name)
    (hArg : argstr (some path) = some path) (hPath : findPath N cwd path false = some (ip, name))
    (hDir : (N ip).type = T_DIR) :
    ∃ fs', E.step sb s (.call p (.chdir (some path))) = .next ((s.committed fs').setProc p
          { s.proc p with cwd := some ip }) ∧
      Known sb (settle (moved R cwd ip) N) (moved R cwd ip)
        fs' := by
  rcases h.chdirs_or_full hClear.passable E path ip name hArg hPath hDir with hNext | ⟨_, hFull⟩
  · exact hNext
  · exact absurd hFull (h.known.not_full hClear.table (by omega))

/- `open` makes a file and a descriptor for it. -/
theorem opens (E : Procs P) (path : Path) (dp ip : Nat) (name : Name)
    (hArg : argstr (some path) = some path) (hNew : Vacant sb N cwd path dp ip name)
    (hFile : (s.ftable 0).ref = 0) (hFd : (s.proc p).ofile 0 = none) :
    ∃ s', E.step sb s (.call p (.open (some path) O_CREATE)) = .next s' ∧
      Standing sb (settle (withRefs R [ip]) (created N dp ip name T_FILE))
        (withRefs R [ip]) p cwd s' := by
  have hCwd := h.cwd_eq
  refine step_of_wp E h.runnable ?_
  change wp (sysOpen sb p (some path) O_CREATE) _ _ s
  unfold sysOpen
  rw [hArg]
  dsimp only
  rw [wp_bind, wp_read, hCwd]
  unfold openInode
  refine inFs_known (h.known.creates (hClear.on path) (by decide) 0 0 hNew) ?_
  rintro _ fs₁ ⟨rfl, hDuring⟩
  have hMem := List.mem_singleton_self ip
  have hFresh : (created N dp ip name T_FILE ip).type = T_FILE := by
    have hne : ip ≠ dp := by
      rintro rfl
      exact Node.allocated_of_dir (findPath_parent_dir hNew.path) hNew.free.free
    rw [created_type, if_neg hne, if_pos rfl]
  have hType : (fs₁.copy ip).type = T_FILE := by
    rw [hDuring.copy_type hMem]
    exact hFresh
  have hHeld := h.known.during hDuring (fun _ => id) (by
    intro i hi
    by_cases hEq : i = ip
    · rw [hEq, hFresh]
      decide
    · rw [created_type_of_ne hEq]
      refine h.known.type_ne_zero (hi.resolve_left ?_)
      exact mt List.mem_singleton.mp hEq)
  have hBad : badDevice (fs₁.copy ip) = false := by simp [badDevice, hType]
  dsimp only
  rw [wp_bind, wp_read]
  dsimp only
  rw [hBad, if_neg (by decide)]
  unfold openFile filealloc
  rw [wp_bind, wp_bind, wp_read]
  dsimp only
  rw [find_finRange_zero _ (by simpa using hFile)]
  dsimp only
  rw [wp_bind, wp_edit, wp_pure]
  unfold fdalloc
  rw [wp_bind, wp_bind, wp_read]
  dsimp only
  rw [find_finRange_zero _ (by simpa [Sys.setFile] using hFd)]
  dsimp only
  rw [wp_bind, wp_edit, wp_pure, wp_bind, wp_read, wp_bind, wp_edit]
  unfold openTrunc
  rw [if_neg (by simp [hasFlag])]
  refine inFs_known (T := fun _ fs' => Known sb _ (withRefs R [ip]) fs')
    (by rw [wp_pure]; exact hHeld) ?_
  intro _ fs₂ hHeld₂
  refine inFs_known (T := fun _ fs' => Known sb _ (withRefs R [ip]) fs')
    (iunlock_rule hHeld₂.namesOk.at_view (h.known.ref_pos hHeld₂ hMem) hHeld₂) ?_
  intro _ fs₃ hHeld₃
  rw [Sys.endOp, wp_bind, wp_edit, wp_pure]
  refine ⟨hHeld₃, ?_, ?_⟩
  · simpa [Sys.setFile, Sys.setFd] using h.runnable
  · simpa [Sys.setFile, Sys.setFd] using h.cwd

end Standing

end Steps

end Xv6
