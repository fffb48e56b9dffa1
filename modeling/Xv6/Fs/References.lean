import Xv6.Fs.Syscall
import Xv6.Lib.Holding

/-
  References to in-memory inodes.

  For every function of the file system, the references it
  takes and the ones it returns. Nothing is assumed about
  the disk.

  Key definitions include:
    * `Fs.ref`

  Key theorems include:
    * `iput_moves`
    * `namex_moves`
    * `create_moves`
    * `sysLink_keeps_refs`, `sysUnlink_keeps_refs`
-/

open Xv6.Fs

-------
-- Counts
-------

namespace Xv6

open Prog

namespace Fs

variable {b : Nat → Int} {l : List Nat} {i : Nat} {s s' : Fs}

/- References to each inode. -/
def ref (s : Fs) (i : Nat) : Int := (s.itable i).ref

/- Changes of an entry that keep its count. -/
theorem ref_setInode (s : Fs) (i : Nat) {ip : Inode} (h : ip.ref = s.ref i) :
    (s.setInode i ip).ref = s.ref := by
  funext j
  by_cases hj : j = i
  · subst hj
    simp [ref, h]
  · simp [ref, hj]

@[simp] theorem ref_setCopy (s : Fs) (i : Nat) (di : Dinode) : (s.setCopy i di).ref = s.ref :=
  s.ref_setInode i rfl

/- One more reference. -/
theorem holding_cons (h : Holding ref b l s) (hSelf : s'.ref i = s.ref i + 1)
    (hOther : ∀ j, j ≠ i → s'.ref j = s.ref j) : Holding ref b (i :: l) s' := by
  refine ⟨h.1, fun j => ?_⟩
  have hCount := h.2 j
  by_cases hj : j = i
  · subst hj
    rw [List.count_cons_self]
    omega
  · rw [List.count_cons_of_ne (Ne.symm hj), hOther j hj]
    exact hCount

/- One reference less. -/
theorem holding_tail (h : Holding ref b (i :: l) s) (hSelf : s'.ref i = s.ref i - 1)
    (hOther : ∀ j, j ≠ i → s'.ref j = s.ref j) : Holding ref b l s' := by
  refine ⟨h.1, fun j => ?_⟩
  have hCount := h.2 j
  by_cases hj : j = i
  · subst hj
    rw [List.count_cons_self] at hCount
    omega
  · rw [List.count_cons_of_ne (Ne.symm hj)] at hCount
    rw [hOther j hj]
    exact hCount

end Fs

-------
-- Inodes
-------

variable (sb : Superblock)

theorem panicWith_moves {α : Type} (p : Panic) (l : List Nat) (f : α → List Nat) :
    Moves Fs.ref (panicWith p) l f :=
  Moves.stop _

theorem iget_moves (i : Nat) : Moves Fs.ref (iget i) [] (fun r => [r]) := by
  intro b s hs
  have hNonneg : 0 ≤ s.ref i := by
    have hCount := hs.2 i
    have hb := hs.1 i
    omega
  rw [iget, wp_bind, wp_read, wp_ite]
  refine ⟨fun _ => ?_, fun hRef => ?_⟩
  · rw [wp_bind, wp_edit, wp_pure]
    apply holding_cons hs
    · simp [ref]
    · intro j hj
      simp [ref, hj]
  rw [wp_ite]
  refine ⟨fun _ => ?_, fun _ => ?_⟩
  · rw [wp_bind, wp_edit, wp_pure]
    apply holding_cons hs
    · have hZero : s.ref i = 0 := by
        unfold ref at hNonneg ⊢
        omega
      rw [hZero]
      simp [ref]
    · intro j hj
      simp [ref, hj]
  · exact (wp_stop _).mpr trivial

theorem idup_moves (i : Nat) : Moves Fs.ref (idup i) [] (fun r => [r]) := by
  intro b s hs
  rw [idup, wp_bind, wp_edit, wp_pure]
  apply holding_cons hs
  · simp [ref]
  · intro j hj
    simp [ref, hj]

theorem iupdate_keeps (i : Nat) : Keeps Fs.ref (iupdate sb i) := Keeps.edit (fun _ _ => rfl)

theorem ilock_keeps (i : Nat) : Keeps Fs.ref (ilock sb i) := by
  refine Moves.read fun s => ?_
  refine Moves.ite (panicWith_moves _ _ _) ?_
  refine Moves.ite (Keeps.pure ()) ?_
  refine Keeps.bind (Keeps.edit fun s j => ?_) fun _ => ?_
  · rw [ref_setInode]
    rfl
  · exact Moves.ite (panicWith_moves _ _ _) (Keeps.pure ())

theorem iunlock_keeps (i : Nat) : Keeps Fs.ref (iunlock i) := by
  refine Moves.read fun s => ?_
  exact Moves.ite (panicWith_moves _ _ _) (Keeps.pure ())

theorem ialloc_moves (type : BitVec 16) : Moves Fs.ref (ialloc sb type) [] (fun r => r.toList) := by
  refine Moves.read fun s => ?_
  cases (List.range' 1 (sb.ninodes - 1)).find? (fun i => (sb.dinode s.disk i).type == 0) with
  | none => exact Moves.pure (f := Option.toList) none
  | some i =>
    refine Keeps.bind (Keeps.edit fun _ _ => rfl) fun _ => ?_
    refine Moves.bind (iget_moves i) fun ip => ?_
    exact Moves.pure (f := Option.toList) (some ip)

-------
-- Blocks
-------

theorem balloc_keeps : Keeps Fs.ref (balloc sb) := by
  refine Moves.read fun s => ?_
  cases (List.range sb.size).find? (fun b => !sb.bit s.disk b) with
  | none => exact Keeps.pure 0
  | some b =>
    refine Keeps.bind (Keeps.edit fun _ _ => rfl) fun _ => ?_
    refine Keeps.bind (Keeps.edit fun _ _ => rfl) fun _ => ?_
    exact Keeps.pure b

theorem bfree_keeps (b : Nat) : Keeps Fs.ref (bfree sb b) := by
  refine Moves.read fun s => ?_
  exact Moves.ite (panicWith_moves _ _ _) (Keeps.edit fun _ _ => rfl)

theorem bmapAddr_keeps (i : Nat) (j : Fin (NDIRECT + 1)) : Keeps Fs.ref (bmapAddr sb i j) := by
  refine Moves.read fun s => ?_
  refine Moves.ite ?_ (Keeps.pure _)
  refine Keeps.bind (balloc_keeps sb) fun addr => ?_
  refine Moves.ite (Keeps.pure 0) ?_
  refine Keeps.bind (Keeps.edit fun s j => ?_) fun _ => ?_
  · rw [ref_setCopy]
  · exact Keeps.pure addr

theorem bmapEntry_keeps (ind j : Nat) : Keeps Fs.ref (bmapEntry sb ind j) := by
  refine Moves.read fun s => ?_
  refine Moves.ite ?_ (Keeps.pure _)
  refine Keeps.bind (balloc_keeps sb) fun addr => ?_
  refine Moves.ite (Keeps.pure 0) ?_
  refine Keeps.bind (Keeps.edit fun _ _ => rfl) fun _ => ?_
  exact Keeps.pure addr

theorem bmap_keeps (i bn : Nat) : Keeps Fs.ref (bmap sb i bn) := by
  unfold bmap
  by_cases hDirect : bn < NDIRECT
  · rw [dif_pos hDirect]
    exact bmapAddr_keeps sb i _
  rw [dif_neg hDirect]
  refine Moves.ite ?_ (panicWith_moves _ _ _)
  refine Keeps.bind (bmapAddr_keeps sb i indirect) fun ind => ?_
  exact Moves.ite (Keeps.pure 0) (bmapEntry_keeps sb ind _)

theorem itruncAddr_keeps (i : Nat) (j : Fin (NDIRECT + 1)) : Keeps Fs.ref (itruncAddr sb i j) := by
  refine Moves.read fun s => ?_
  refine Moves.ite (Keeps.pure ()) ?_
  refine Keeps.bind (bfree_keeps sb _) fun _ => ?_
  exact Keeps.edit fun s j => by rw [ref_setCopy]

theorem itruncEntry_keeps (ind j : Nat) : Keeps Fs.ref (itruncEntry sb ind j) := by
  refine Moves.read fun s => ?_
  exact Moves.ite (Keeps.pure ()) (bfree_keeps sb _)

theorem itruncDirect_keeps (i j : Nat) : Keeps Fs.ref (itruncDirect sb i j) := by
  unfold itruncDirect
  by_cases hDirect : j < NDIRECT
  · rw [dif_pos hDirect]
    exact itruncAddr_keeps sb i _
  · rw [dif_neg hDirect]
    exact Keeps.pure ()

theorem itruncIndirect_keeps (i : Nat) : Keeps Fs.ref (itruncIndirect sb i) := by
  refine Moves.read fun s => ?_
  refine Moves.ite (Keeps.pure ()) ?_
  refine Keeps.bind (Keeps.forFrom (itruncEntry_keeps sb _) 0 NINDIRECT) fun _ => ?_
  exact itruncAddr_keeps sb i indirect

theorem itrunc_keeps_refs (i : Nat) : Keeps Fs.ref (itrunc sb i) := by
  refine Keeps.bind (Keeps.forFrom (itruncDirect_keeps sb i) 0 NDIRECT) fun _ => ?_
  refine Keeps.bind (itruncIndirect_keeps sb i) fun _ => ?_
  refine Keeps.bind (Keeps.edit fun s j => ?_) fun _ => ?_
  · rw [ref_setCopy]
  · exact iupdate_keeps sb i

theorem ifree_keeps (i : Nat) : Keeps Fs.ref (ifree sb i) := by
  refine Keeps.bind (itrunc_keeps_refs sb i) fun _ => ?_
  refine Keeps.bind (Keeps.edit fun s j => ?_) fun _ => ?_
  · rw [ref_setCopy]
  refine Keeps.bind (iupdate_keeps sb i) fun _ => ?_
  apply Keeps.edit
  intro s j
  rw [ref_setInode]
  rfl

theorem idrop_moves (i : Nat) : Moves Fs.ref (idrop i) [i] (fun _ => []) := by
  intro b s hs
  rw [idrop, wp_edit]
  apply holding_tail hs
  · simp [ref]
  · intro j hj
    simp [ref, hj]

theorem iput_moves (i : Nat) : Moves Fs.ref (iput sb i) [i] (fun _ => []) := by
  refine Moves.read fun s => ?_
  refine Moves.ite ?_ (idrop_moves i)
  exact Keeps.bind (ifree_keeps sb i) fun _ => idrop_moves i

theorem iunlockput_moves (i : Nat) : Moves Fs.ref (iunlockput sb i) [i] (fun _ => []) :=
  Keeps.bind (iunlock_keeps i) fun _ => iput_moves sb i

-------
-- Contents
-------

theorem readiLoop_keeps (i : Nat) (copyout : Nat → Bool) (fuel off left : Nat) (dst : List UInt8) :
    Keeps Fs.ref (readiLoop sb i copyout fuel off left dst) := by
  induction fuel generalizing off left dst with
  | zero => exact Keeps.pure _
  | succ fuel ih =>
    refine Moves.ite (Keeps.pure _) ?_
    refine Keeps.bind (bmap_keeps sb i _) fun addr => ?_
    refine Moves.ite (Keeps.pure _) ?_
    refine Moves.read fun s => ?_
    exact Moves.ite (ih _ _ _) (Keeps.pure _)

theorem readi_keeps_refs (i : Nat) (copyout : Nat → Bool) (off n : BitVec 32) :
    Keeps Fs.ref (readi sb i copyout off n) := by
  refine Moves.read fun s => ?_
  exact Moves.ite (Keeps.pure _) (readiLoop_keeps sb i copyout _ _ _ _)

theorem writeiLoop_keeps (i : Nat) (src : Nat → UInt8) (copyin : Nat → Option Nat)
    (fuel off tot left : Nat) : Keeps Fs.ref (writeiLoop sb i src copyin fuel off tot left) := by
  induction fuel generalizing off tot left with
  | zero => exact Keeps.pure _
  | succ fuel ih =>
    refine Moves.ite (Keeps.pure _) ?_
    refine Keeps.bind (bmap_keeps sb i _) fun addr => ?_
    refine Moves.ite (Keeps.pure _) ?_
    cases copyin tot with
    | some k =>
      refine Keeps.bind (Keeps.edit fun _ _ => rfl) fun _ => ?_
      exact Keeps.pure _
    | none =>
      exact Keeps.bind (Keeps.edit fun _ _ => rfl) fun _ => ih _ _ _

theorem writei_keeps_refs (i : Nat) (src : Nat → UInt8) (copyin : Nat → Option Nat)
    (off n : BitVec 32) : Keeps Fs.ref (writei sb i src copyin off n) := by
  refine Moves.read fun s => ?_
  refine Moves.ite (Keeps.pure _) ?_
  refine Moves.ite (Keeps.pure _) ?_
  refine Keeps.bind (writeiLoop_keeps sb i src copyin _ _ _ _) fun r => ?_
  refine Keeps.bind (Keeps.edit fun s j => ?_) fun _ => ?_
  · by_cases hLess : (s.copy i).size.toNat < r.1
    · rw [if_pos hLess, ref_setCopy]
    · rw [if_neg hLess]
  · refine Keeps.bind (iupdate_keeps sb i) fun _ => ?_
    exact Keeps.pure _

-------
-- Directories
-------

theorem readDirent_keeps (dp off : Nat) (p : Panic) : Keeps Fs.ref (readDirent sb dp off p) := by
  refine Keeps.bind (readi_keeps_refs sb dp copies _ _) fun r => ?_
  exact Moves.ite (panicWith_moves _ _ _) (Keeps.pure _)

theorem writeDirent_keeps (dp off : Nat) (l : List UInt8) :
    Keeps Fs.ref (writeDirent sb dp off l) :=
  writei_keeps_refs sb dp _ _ _ _

/- The inode that a lookup found. -/
def found (r : Option (Nat × Nat)) : List Nat := (r.map Prod.fst).toList

theorem dirlookupLoop_moves (dp : Nat) (name : Name) (n off : Nat) :
    Moves Fs.ref (dirlookupLoop sb dp name n off) [] found := by
  induction n generalizing off with
  | zero => exact Moves.pure (f := found) none
  | succ n ih =>
    refine Keeps.bind (readDirent_keeps sb dp off _) fun de => ?_
    refine Moves.ite (ih _) ?_
    refine Moves.ite ?_ (ih _)
    refine Moves.bind (iget_moves _) fun ip => ?_
    exact Moves.pure (f := found) (some (ip, off))

theorem dirlookup_moves (dp : Nat) (name : Name) :
    Moves Fs.ref (dirlookup sb dp name) [] found := by
  refine Moves.read fun s => ?_
  exact Moves.ite (panicWith_moves _ _ _) (dirlookupLoop_moves sb dp name _ _)

theorem dirlinkLoop_keeps (dp n off : Nat) : Keeps Fs.ref (dirlinkLoop sb dp n off) := by
  induction n generalizing off with
  | zero => exact Keeps.pure _
  | succ n ih =>
    refine Keeps.bind (readDirent_keeps sb dp off _) fun de => ?_
    exact Moves.ite (Keeps.pure _) (ih _)

theorem dirlink_keeps (dp : Nat) (name : Name) (inum : Nat) :
    Keeps Fs.ref (dirlink sb dp name inum) := by
  refine Moves.bind (dirlookup_moves sb dp name) fun r => ?_
  rcases r with _ | ⟨ip, off⟩
  · refine Moves.read fun s => ?_
    refine Keeps.bind (dirlinkLoop_keeps sb dp _ _) fun off => ?_
    refine Keeps.bind (writeDirent_keeps sb dp off _) fun tot => ?_
    exact Moves.ite (Keeps.pure _) (Keeps.pure _)
  · refine Moves.bind (iput_moves sb ip) fun _ => ?_
    exact Keeps.pure _

/- The inode that a walk ended at. -/
def walked (r : Option (Nat × Name)) : List Nat := (r.map Prod.fst).toList

/- A directory is left for the one found in it. -/
theorem leave_moves (ip next : Nat) :
    Moves Fs.ref (iunlockput sb ip) [next, ip] (fun _ => [next]) :=
  ((iunlockput_moves sb ip).frame [next]).perm
    (List.Perm.swap ip next []) (fun _ => List.Perm.refl _)

theorem namexLoop_moves (parent : Bool) (names : List Name) (ip : Nat) :
    Moves Fs.ref (namexLoop sb parent names ip) [ip]
      walked := by
  induction names generalizing ip with
  | nil =>
    refine Moves.ite ?_ (Moves.pure (f := walked) (some (ip, [])))
    refine Moves.bind (iput_moves sb ip) fun _ => ?_
    exact Moves.pure (f := walked) none
  | cons name rest ih =>
    refine Keeps.bind (ilock_keeps sb ip) fun _ => ?_
    refine Moves.read fun s => ?_
    refine Moves.ite ?_ (Moves.ite ?_ ?_)
    · refine Moves.bind (iunlockput_moves sb ip) fun _ => ?_
      exact Moves.pure (f := walked) none
    · refine Keeps.bind (iunlock_keeps ip) fun _ => ?_
      exact Moves.pure (f := walked) (some (ip, name))
    · refine Moves.bind ((dirlookup_moves sb ip name).frame [ip]) fun r => ?_
      rcases r with _ | ⟨next, off⟩
      · refine Moves.bind (iunlockput_moves sb ip) fun _ => ?_
        exact Moves.pure (f := walked) none
      · exact Moves.bind (leave_moves sb ip next) fun _ => ih next

theorem namex_moves (cwd : Nat) (path : Path) (parent : Bool) :
    Moves Fs.ref (namex sb cwd path parent) [] walked := by
  have hStart : Moves ref (namexStart cwd path) [] (fun ip => [ip]) :=
    Moves.ite (iget_moves _) (idup_moves cwd)
  exact Moves.bind hStart fun ip => namexLoop_moves sb parent _ ip

theorem namei_moves (cwd : Nat) (path : Path) :
    Moves Fs.ref (namei sb cwd path) [] (fun r => r.toList) :=
  Moves.bind (namex_moves sb cwd path false)
    fun r => Moves.pure (r.map Prod.fst)

theorem nameiparent_moves (cwd : Nat) (path : Path) :
    Moves Fs.ref (nameiparent sb cwd path) [] walked :=
  namex_moves sb cwd path true

-------
-- Calls
-------

theorem setNlink_keeps (i : Nat) (f : BitVec 16 → BitVec 16) : Keeps Fs.ref (setNlink sb i f) := by
  refine Keeps.bind (Keeps.edit fun s j => ?_) fun _ => ?_
  · rw [ref_setCopy]
  · exact iupdate_keeps sb i

/- Let go of an inode and return. -/
theorem iunlockput_return {α : Type} {f : α → List Nat} {l : List Nat} (i : Nat) {a : α}
    (hLeft : f a = l) : Moves Fs.ref (do iunlockput sb i; return a) (i :: l) f := by
  refine Moves.bind ((iunlockput_moves sb i).frame l) fun _ => ?_
  exact hLeft ▸ Moves.pure a

theorem linkBad_moves (ip : Nat) : Moves Fs.ref (linkBad sb ip) [ip] (fun _ => []) := by
  refine Keeps.bind (ilock_keeps sb ip) fun _ => ?_
  refine Keeps.bind (setNlink_keeps sb ip _) fun _ => ?_
  exact iunlockput_return sb ip rfl

theorem sysLink_keeps_refs (cwd : Nat) (old new : Path) :
    Keeps Fs.ref (sysLink sb cwd old new) := by
  refine Moves.ite (Keeps.pure _) ?_
  refine Moves.bind (namei_moves sb cwd old) fun r => ?_
  rcases r with _ | ip
  · exact Keeps.pure _
  refine Keeps.bind (ilock_keeps sb ip) fun _ => ?_
  refine Moves.read fun s => ?_
  refine Moves.ite (iunlockput_return sb ip rfl) ?_
  refine Keeps.bind (setNlink_keeps sb ip _) fun _ => ?_
  refine Keeps.bind (iunlock_keeps ip) fun _ => ?_
  refine Moves.bind ((nameiparent_moves sb cwd new).frame [ip]) fun r => ?_
  rcases r with _ | ⟨dp, name⟩
  · exact linkBad_moves sb ip
  refine Keeps.bind (ilock_keeps sb dp) fun _ => ?_
  refine Keeps.bind (dirlink_keeps sb dp name ip) fun r => ?_
  refine Moves.ite ?_ ?_
  · exact Moves.bind ((iunlockput_moves sb dp).frame [ip]) fun _ => linkBad_moves sb ip
  · refine Moves.bind ((iunlockput_moves sb dp).frame [ip]) fun _ => ?_
    refine Moves.bind (iput_moves sb ip) fun _ => ?_
    exact Keeps.pure _

theorem isdiremptyLoop_keeps (dp n off : Nat) : Keeps Fs.ref (isdiremptyLoop sb dp n off) := by
  induction n generalizing off with
  | zero => exact Keeps.pure _
  | succ n ih =>
    refine Keeps.bind (readDirent_keeps sb dp off _) fun de => ?_
    exact Moves.ite (Keeps.pure _) (ih _)

theorem notEmpty_keeps (ip : Nat) : Keeps Fs.ref (notEmpty sb ip) := by
  refine Moves.read fun s => ?_
  refine Moves.ite ?_ (Keeps.pure _)
  refine Keeps.bind ?_ fun _ => Keeps.pure _
  refine Moves.read fun s => ?_
  exact isdiremptyLoop_keeps sb ip _ _

theorem dropDotdot_keeps (dp ip : Nat) : Keeps Fs.ref (dropDotdot sb dp ip) := by
  refine Moves.read fun s => ?_
  exact Moves.ite (setNlink_keeps sb dp _) (Keeps.pure _)

theorem unlinkEntry_moves (dp ip off : Nat) :
    Moves Fs.ref (unlinkEntry sb dp ip off) [dp, ip] (fun _ => []) := by
  refine Keeps.bind (writeDirent_keeps sb dp off _) fun tot => ?_
  refine Moves.ite (panicWith_moves _ _ _) ?_
  refine Keeps.bind (dropDotdot_keeps sb dp ip) fun _ => ?_
  refine Moves.bind ((iunlockput_moves sb dp).frame [ip]) fun _ => ?_
  refine Keeps.bind (setNlink_keeps sb ip _) fun _ => ?_
  exact iunlockput_return sb ip rfl

theorem sysUnlink_keeps_refs (cwd : Nat) (path : Path) : Keeps Fs.ref (sysUnlink sb cwd path) := by
  refine Moves.ite (Keeps.pure _) ?_
  refine Moves.bind (nameiparent_moves sb cwd path) fun r => ?_
  rcases r with _ | ⟨dp, name⟩
  · exact Keeps.pure _
  refine Keeps.bind (ilock_keeps sb dp) fun _ => ?_
  refine Moves.ite (iunlockput_return sb dp rfl) ?_
  refine Moves.bind ((dirlookup_moves sb dp name).frame [dp]) fun r => ?_
  rcases r with _ | ⟨ip, off⟩
  · exact iunlockput_return sb dp rfl
  refine Moves.ite (Moves.stop _) ?_
  refine Keeps.bind (ilock_keeps sb ip) fun _ => ?_
  refine Moves.read fun s => ?_
  refine Moves.ite (panicWith_moves _ _ _) ?_
  refine Keeps.bind (notEmpty_keeps sb ip) fun full => ?_
  refine Moves.ite ?_ ?_
  · exact Moves.bind ((iunlockput_moves sb ip).frame [dp]) fun _ => iunlockput_return sb dp rfl
  · exact (unlinkEntry_moves sb dp ip off).perm
      (List.Perm.swap dp ip []) (fun _ => List.Perm.refl _)

theorem createFail_moves (dp ip : Nat) :
    Moves Fs.ref (createFail sb dp ip) [ip, dp] (fun r => r.toList) := by
  refine Keeps.bind (setNlink_keeps sb ip _) fun _ => ?_
  exact Moves.bind ((iunlockput_moves sb ip).frame [dp]) fun _ => iunlockput_return sb dp rfl

theorem createDots_keeps (dp ip : Nat) (type : BitVec 16) :
    Keeps Fs.ref (createDots sb dp ip type) := by
  refine Moves.ite ?_ (Keeps.pure _)
  refine Keeps.bind (dirlink_keeps sb ip dot ip) fun r => ?_
  refine Moves.ite (Keeps.pure _) ?_
  refine Keeps.bind (dirlink_keeps sb ip dotdot dp) fun r => ?_
  exact Moves.ite (Keeps.pure _) (Keeps.pure _)

theorem createInit_keeps (ip : Nat) (major minor : BitVec 16) :
    Keeps Fs.ref (createInit sb ip major minor) := by
  refine Keeps.bind (ilock_keeps sb ip) fun _ => ?_
  refine Keeps.bind (Keeps.edit fun s j => ?_) fun _ => ?_
  · rw [ref_setCopy]
  · exact iupdate_keeps sb ip

theorem addDotdot_keeps (dp : Nat) (type : BitVec 16) : Keeps Fs.ref (addDotdot sb dp type) :=
  Moves.ite (setNlink_keeps sb dp _) (Keeps.pure _)

theorem createNew_moves (dp : Nat) (name : Name) (type major minor : BitVec 16) (ip : Nat) :
    Moves Fs.ref (createNew sb dp name type major minor ip) [ip, dp] (fun r => r.toList) := by
  refine Keeps.bind (createInit_keeps sb ip major minor) fun _ => ?_
  refine Keeps.bind (createDots_keeps sb dp ip type) fun ok => ?_
  refine Moves.ite (createFail_moves sb dp ip) ?_
  refine Keeps.bind (dirlink_keeps sb dp name ip) fun r => ?_
  refine Moves.ite (createFail_moves sb dp ip) ?_
  refine Keeps.bind (addDotdot_keeps sb dp type) fun _ => ?_
  refine Moves.bind (leave_moves sb dp ip) fun _ => ?_
  exact Moves.pure (f := Option.toList) (some ip)

theorem create_moves (cwd : Nat) (path : Path) (type major minor : BitVec 16) :
    Moves Fs.ref (create sb cwd path type major minor) [] (fun r => r.toList) := by
  refine Moves.bind (nameiparent_moves sb cwd path) fun r => ?_
  rcases r with _ | ⟨dp, name⟩
  · exact Moves.pure none
  refine Keeps.bind (ilock_keeps sb dp) fun _ => ?_
  refine Moves.bind ((dirlookup_moves sb dp name).frame [dp]) fun r => ?_
  rcases r with _ | ⟨ip, off⟩
  · refine Moves.bind ((ialloc_moves sb type).frame [dp]) fun r => ?_
    rcases r with _ | ip
    · exact iunlockput_return sb dp rfl
    · exact createNew_moves sb dp name type major minor ip
  · refine Moves.bind (leave_moves sb dp ip) fun _ => ?_
    refine Keeps.bind (ilock_keeps sb ip) fun _ => ?_
    refine Moves.read fun s => ?_
    exact Moves.ite (Moves.pure (f := Option.toList) (some ip)) (iunlockput_return sb ip rfl)

end Xv6
