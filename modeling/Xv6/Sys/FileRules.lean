import Xv6.Sys.FileSpec

/-
  Rules for the functions of `file.c` and for file-system
  code within a system call.

  What the file system keeps is a parameter, so that the
  rules serve for the counts alone and for properties of the
  name space.

  Key definitions include:
    * `FsSpec`
    * `FsSpec.Laws`
    * `Good`

  Key theorems include:
    * `inFs_good`
    * `filealloc_rule`
    * `fileclose_rule`
    * `pipealloc_rule`
-/

-------
-- What Is Kept
-------

namespace Xv6

open Prog

/-
  A property of the file system: what holds between calls to
  it, of locked inodes, of inodes whose contents may be
  written, and of the disk after a transaction; and how the
  code may stop.
-/
structure FsSpec where
  Ok : Fs → Prop
  Locked : Fs → Nat → Prop
  Data : Fs → Nat → Prop
  Saved : Disk → Prop
  Halts : Halt → Prop

namespace FsSpec

variable {α : Type} (F : FsSpec)

/- The code keeps the property and returns with `Q`. -/
def Runs (m : FsM α) (Q : α → Fs → Prop) (fs : Fs) : Prop :=
  wp m (fun a fs' =>
      F.Ok fs' ∧ (∀ i, 0 < fs.ref i → 0 < fs'.ref i → F.Data fs i →
          F.Data fs' i) ∧ Q a fs')
    (fun e _ => F.Halts e) fs

/- Any result. -/
def Plain (_ : α) (_ : Fs) : Prop := True

/- Functions that change neither links nor entries. -/
structure Laws (sb : Superblock) : Prop where
  saved : ∀ fs, F.Ok fs → F.Saved fs.disk
  idup : ∀ fs i, F.Ok fs → 0 < fs.ref i → F.Runs (idup i) Plain fs
  ilock : ∀ fs i, F.Ok fs → 0 < fs.ref i →
    F.Runs (ilock sb i) (fun _ fs' => F.Locked fs' i) fs
  iunlock : ∀ fs i, F.Ok fs → 0 < fs.ref i → F.Runs (iunlock i) Plain fs
  iput : ∀ fs i, F.Ok fs → 0 < fs.ref i → F.Runs (iput sb i) Plain fs
  iunlockput : ∀ fs i, F.Ok fs → 0 < fs.ref i →
    F.Runs (iunlockput sb i) Plain fs
  itrunc : ∀ fs i, F.Ok fs → F.Locked fs i → (fs.copy i).type = T_FILE →
    F.Runs (itrunc sb i) Plain fs
  readi : ∀ fs i copyout off n, F.Ok fs → F.Locked fs i →
    F.Runs (readi sb i copyout off n) (fun _ fs' => F.Locked fs' i) fs
  writei : ∀ fs i src copyin off n, F.Ok fs → F.Locked fs i → F.Data fs i →
    F.Runs (writei sb i src copyin off n) Plain fs

/- How a system call may stop. -/
def Stops {P : Type} (e : SysHalt) (_ : Sys P) : Prop := ∀ e', e = .fs e' → F.Halts e'

variable {F}

end FsSpec

/-
  The counts are exact up to `d` and `l`, and the property
  holds of the file system, of files that can be written,
  and of all disks after transactions.
-/
structure Good {P : Type} [Fintype P] (F : FsSpec) (s : Sys P) (d : Fin NFILE → Int)
    (l : List Nat) : Prop where
  counted : Counted s d l
  ok : F.Ok s.fs
  data : ∀ f, (s.ftable f).type = .inode → (s.ftable f).writable = true →
      F.Data s.fs (s.ftable f).ip
  saved : ∀ x ∈ s.commits, F.Saved x

-------
-- File-System Code
-------

variable {P : Type} [Fintype P] {F : FsSpec} {s t : Sys P} {d e : Fin NFILE → Int} {l k : List Nat}

omit [Fintype P] in
/- Stopping outside the file system. -/
theorem stop_rule {α : Type} {Q : α → Sys P → Prop} {h : SysHalt} (hNot : ∀ e', h ≠ .fs e') :
    wp (Prog.stop h : SysM P α) Q F.Stops s :=
  (wp_stop h).mpr (fun e' he => absurd he (hNot e'))

namespace Counted

variable {i : Nat}

theorem ref_nonneg (h : Counted s d l) (i : Nat) : 0 ≤ s.fs.ref i := by
  have hCount := h.inodes.2 i
  have hNonneg := h.inodes.1 i
  omega

/- An inode that is referred to. -/
theorem ref_pos_of_mem (h : Counted s d l) (hi : i ∈ l) : 0 < s.fs.ref i := by
  have hCount := h.inodes.2 i
  have hNonneg := h.inodes.1 i
  have hPos := List.count_pos_iff.mpr hi
  omega

theorem ref_pos_of_file (h : Counted s d l) {f : Fin NFILE}
    (hType : (s.ftable f).type = .inode ∨ (s.ftable f).type = .device) :
    0 < s.fs.ref (s.ftable f).ip := by
  have hCount := h.inodes.2 (s.ftable f).ip
  have hSelf : (s.ftable f).PointsTo (s.ftable f).ip := ⟨hType, rfl⟩
  have hOne := le_sum_of_nonneg (g := fun g =>
      if (s.ftable g).PointsTo (s.ftable f).ip
      then (1 : Int) else 0)
    (fun g => by split <;> simp) f
  have hCwds : (0 : Int) ≤ ∑ p, if (s.proc p).cwd = some (s.ftable f).ip
        then 1 else 0 :=
    Finset.sum_nonneg (fun p _ => by split <;> simp)
  rw [if_pos hSelf] at hOne
  unfold Sys.holders at hCount
  omega

theorem ref_pos_of_cwd (h : Counted s d l) {p : P} (hCwd : (s.proc p).cwd = some i) :
    0 < s.fs.ref i := by
  have hCount := h.inodes.2 i
  have hOne := le_sum_of_nonneg (g := fun q => if (s.proc q).cwd = some i then (1 : Int) else 0)
    (fun q => by split <;> simp) p
  have hFiles : (0 : Int) ≤ ∑ f, if (s.ftable f).PointsTo i then 1 else 0 :=
    Finset.sum_nonneg (fun f _ => by split <;> simp)
  rw [if_pos hCwd] at hOne
  unfold Sys.holders at hCount
  omega

end Counted

namespace Good

/- The file table and the file system stay. -/
theorem keep (h : Good F s d l) (hCounted : Counted t e k) (hFs : t.fs = s.fs)
    (hFiles : ∀ f, (t.ftable f).type = .inode → (t.ftable f).writable = true →
        F.Data s.fs (t.ftable f).ip)
    (hCommits : t.commits = s.commits) :
    Good F t e k where
  counted := hCounted
  ok := by
    rw [hFs]
    exact h.ok
  data := by
    rw [hFs]
    exact hFiles
  saved := by
    rw [hCommits]
    exact h.saved

/- A file loses its type, or keeps type, mode and inode. -/
theorem keepFile {f : Fin NFILE} {v : OpenFile} (h : Good F s d l) (hCounted : Counted t e k)
    (hFs : t.fs = s.fs) (hTable : t.ftable = (s.setFile f v).ftable)
    (hCommits : t.commits = s.commits)
    (hFile : v.type = .inode → v.writable = true → F.Data s.fs v.ip) : Good F t e k := by
  refine h.keep hCounted hFs ?_ hCommits
  intro g
  rw [hTable]
  by_cases hg : g = f
  · subst hg
    rw [Sys.setFile_self]
    exact hFile
  · rw [s.setFile_of_ne v hg]
    exact h.data g

/- A transaction ends. -/
theorem commit {sb : Superblock} (hLaws : F.Laws sb) (h : Good F s d l) :
    Good F { s with commits := s.fs.disk :: s.commits } d l where
  counted := h.counted.commit
  ok := h.ok
  data := h.data
  saved := by
    intro x hx
    rcases List.mem_cons.mp hx with rfl | hx
    · exact hLaws.saved s.fs h.ok
    · exact h.saved x hx

end Good

/-
  File-system code that hands references around. What it
  does is stated for a state `t` with the same file system.
-/
theorem inFs_good_at {α : Type} {m : FsM α} {f : α → List Nat} {Q : α → Fs → Prop}
    (hMoves : Moves Fs.ref m k f) (hRuns : F.Runs m Q s.fs)
    (h : Good F t d (k ++ l)) (hFs : t.fs = s.fs) :
    wp (inFs m : SysM P α) (fun a s' => ∃ fs', s' = { s with fs := fs' } ∧
        Good F { t with fs := fs' } d (f a ++ l) ∧ Q a fs')
      F.Stops s := by
  rw [inFs, wp_zoom]
  have hHolding := h.counted.inodes
  rw [hFs] at hHolding
  refine wp_mono (wp_and (hMoves.frame l _ s.fs hHolding) hRuns) ?_ ?_
  · rintro a fs' ⟨hHeld, hOk, hData, hQ⟩
    have hCounted := h.counted.setFs hHeld
    refine ⟨fs', rfl, ⟨hCounted, hOk, ?_, h.saved⟩, hQ⟩
    intro g hType hWritable
    have hOld := h.data g hType hWritable
    have hBefore := h.counted.ref_pos_of_file (.inl hType)
    rw [hFs] at hOld hBefore
    exact hData _ hBefore (hCounted.ref_pos_of_file (.inl hType)) hOld
  · rintro e fs' ⟨_, hE⟩ e' he'
    cases he'
    exact hE

theorem inFs_good {α : Type} {m : FsM α} {f : α → List Nat} {Q : α → Fs → Prop}
    (hMoves : Moves Fs.ref m k f) (hRuns : F.Runs m Q s.fs) (h : Good F s d (k ++ l)) :
    wp (inFs m : SysM P α) (fun a s' => ∃ fs', s' = { s with fs := fs' } ∧
        Good F s' d (f a ++ l) ∧ Q a fs')
      F.Stops s := by
  refine wp_imp (inFs_good_at hMoves hRuns h rfl) ?_
  rintro a _ ⟨fs', rfl, hGood, hQ⟩
  exact ⟨fs', rfl, hGood, hQ⟩

-------
-- The File Table
-------

variable {P : Type} [Fintype P] {F : FsSpec} {s : Sys P} {d : Fin NFILE → Int} {l : List Nat}
variable {sb : Superblock}

/- A free file gets a first reference. -/
theorem filealloc_rule (h : Good F s d l) :
    wp (filealloc : SysM P (Option (Fin NFILE))) (fun r s' =>
        match r with
        | none => s' = s
        | some f =>
          s' = s.setFile f { s.ftable f with ref := 1 } ∧ (s.ftable f).ref = 0 ∧
            (s.ftable f).type = .none ∧
            Good F s' (d + Pi.single f 1) l)
      F.Stops s := by
  rw [filealloc, wp_bind, wp_read]
  cases hFind : (List.finRange NFILE).find? (fun f => (s.ftable f).ref == 0) with
  | none => exact (wp_pure _).mpr rfl
  | some f =>
    have hZero : (s.ftable f).ref = 0 := by simpa using List.find?_some hFind
    have hSet := h.counted.setRef (f := f) (n := 1) (by simp)
    rw [hZero] at hSet
    rw [wp_bind, wp_edit, wp_pure]
    exact ⟨rfl, hZero, h.counted.free f hZero, h.keepFile hSet rfl rfl rfl (h.data f)⟩

theorem filedup_rule (f : Fin NFILE) (h : Good F s d l) :
    wp (filedup f : SysM P Unit) (fun _ s' =>
        s' = s.setFile f
            { s.ftable f with ref := (s.ftable f).ref + 1 } ∧
          Good F s' (d + Pi.single f 1) l)
      F.Stops s := by
  rw [filedup, wp_bind, wp_read, wp_ite]
  refine ⟨fun _ => stop_rule (by simp), fun hRef => ?_⟩
  rw [wp_edit]
  have hSet := h.counted.setRef (f := f) (n := (s.ftable f).ref + 1) (by omega)
  rw [add_sub_cancel_left] at hSet
  exact ⟨rfl, h.keepFile hSet rfl rfl rfl (h.data f)⟩

theorem endOp_rule (hLaws : F.Laws sb) (h : Good F s d l) :
    wp (Sys.endOp : SysM P Unit) (fun _ s' => Good F s' d l ∧ s'.proc = s.proc) F.Stops s := by
  rw [Sys.endOp, wp_edit]
  exact ⟨h.commit hLaws, rfl⟩

/- An inode that is held is put, and the transaction ends. -/
theorem iput_endOp_rule (hLaws : F.Laws sb) (i : Nat) (h : Good F s d (i :: l)) :
    wp (do inFs (iput sb i); Sys.endOp : SysM P Unit) (fun _ s' => Good F s' d l ∧ s'.proc = s.proc)
      F.Stops s := by
  have hRef := h.counted.ref_pos_of_mem (List.mem_cons_self ..)
  rw [wp_bind]
  refine wp_imp (inFs_good (iput_moves sb i) (hLaws.iput s.fs i h.ok hRef) h) ?_
  rintro _ _ ⟨fs', rfl, hPut, _⟩
  exact endOp_rule hLaws hPut

theorem fileclose_rule (hLaws : F.Laws sb) (f : Fin NFILE) (h : Good F s d l) :
    wp (fileclose sb f : SysM P Unit) (fun _ s' =>
        Good F s' (d - Pi.single f 1) l ∧ s'.proc = s.proc)
      F.Stops s := by
  rw [fileclose, wp_bind, wp_read, wp_ite]
  refine ⟨fun _ => stop_rule (by simp), fun hRef => ?_⟩
  rw [wp_ite]
  refine ⟨fun hMore => ?_, fun hLast => ?_⟩
  · rw [wp_edit]
    have hSet := h.counted.setRef (f := f) (n := (s.ftable f).ref - 1) (by omega)
    rw [sub_sub_cancel_left, Pi.single_neg] at hSet
    exact ⟨h.keepFile hSet rfl rfl rfl (h.data f), rfl⟩
  have hOne : 0 - (s.ftable f).ref = -1 := by omega
  rw [wp_bind, wp_edit]
  unfold fileRelease
  cases hType : (s.ftable f).type with
  | none =>
    have hClose := h.counted.closeNone hType
    rw [hOne, Pi.single_neg] at hClose
    exact (wp_pure _).mpr ⟨h.keepFile hClose rfl rfl rfl (by simp), rfl⟩
  | pipe =>
    have hClose := h.counted.closePipe hType
    rw [hOne, Pi.single_neg] at hClose
    rw [Sys.pipeclose, wp_edit]
    exact ⟨h.keepFile hClose rfl rfl rfl (by simp), rfl⟩
  | inode =>
    have hClose := h.counted.closeInode (.inl hType)
    rw [hOne, Pi.single_neg] at hClose
    exact iput_endOp_rule hLaws _ (h.keepFile hClose rfl rfl rfl (by simp))
  | device =>
    have hClose := h.counted.closeInode (.inr hType)
    rw [hOne, Pi.single_neg] at hClose
    exact iput_endOp_rule hLaws _ (h.keepFile hClose rfl rfl rfl (by simp))

/- Both files of a pipe that could not be made are closed. -/
theorem fileclose_two_rule {α : Type} (hLaws : F.Laws sb) (f0 f1 : Fin NFILE) (a : α)
    (h : Good F s (d + Pi.single f0 1 + Pi.single f1 1) l) :
    wp (do
        fileclose sb f0
        fileclose sb f1
        return a : SysM P α)
      (fun r s' => r = a ∧ Good F s' d l ∧ s'.proc = s.proc)
      F.Stops s := by
  rw [wp_bind]
  refine wp_imp (fileclose_rule hLaws f0 h) ?_
  rintro _ s₁ ⟨h₁, hProc₁⟩
  rw [wp_bind]
  refine wp_imp (fileclose_rule hLaws f1 h₁) ?_
  rintro _ s₂ ⟨h₂, hProc₂⟩
  rw [wp_pure]
  have hDiff : d + Pi.single f0 1 + Pi.single f1 1 - Pi.single f0 1 - Pi.single f1 1 = d := by abel
  rw [hDiff] at h₂
  exact ⟨rfl, h₂, hProc₂.trans hProc₁⟩

/- Files that are ends of a pipe are not written to disk. -/
theorem Good.openPipe {f0 f1 : Fin NFILE} {pi : Nat} (h : Good F s d l) (hNe : f1 ≠ f0)
    (hNone0 : (s.ftable f0).type = .none) (hNone1 : (s.ftable f1).type = .none)
    (hLive0 : (s.ftable f0).ref ≠ 0) (hLive1 : (s.ftable f1).ref ≠ 0) (hPage : s.pipes pi = none) :
    Good F (({ s with
          pipes := Function.update s.pipes pi (some ⟨true, true⟩) }.setFile f0
        (pipeReader (s.ftable f0) pi)).setFile f1 (pipeWriter (s.ftable f1) pi)) d l := by
  refine h.keep (h.counted.openPipe hNe hNone0 hNone1 hLive0 hLive1 hPage) rfl ?_ rfl
  intro g
  by_cases hg1 : g = f1
  · subst hg1
    rw [Sys.setFile_self]
    nofun
  rw [Sys.setFile_of_ne _ _ hg1]
  by_cases hg0 : g = f0
  · subst hg0
    rw [Sys.setFile_self]
    nofun
  · rw [Sys.setFile_of_ne _ _ hg0]
    exact h.data g

theorem pipealloc_rule (hLaws : F.Laws sb) (mem : Option Nat) (h : Good F s d l) :
    wp (pipealloc sb mem : SysM P (Option (Fin NFILE × Fin NFILE))) (fun r s' => s'.proc = s.proc ∧
        match r with
        | none => Good F s' d l
        | some (f0, f1) => Good F s' (d + Pi.single f0 1 + Pi.single f1 1) l)
      F.Stops s := by
  rw [pipealloc, wp_bind]
  refine wp_imp (filealloc_rule h) ?_
  rintro (_ | f0) s₁ h₁
  · subst h₁
    exact (wp_pure _).mpr ⟨rfl, h⟩
  obtain ⟨rfl, hZero0, hNone0, h₁⟩ := h₁
  rw [wp_bind]
  refine wp_imp (filealloc_rule h₁) ?_
  rintro (_ | f1) s₂ h₂
  · subst h₂
    rw [wp_bind]
    refine wp_imp (fileclose_rule hLaws f0 h₁) ?_
    rintro _ s₂ ⟨h₂, hProc₂⟩
    rw [add_sub_cancel_right] at h₂
    exact (wp_pure _).mpr ⟨hProc₂, h₂⟩
  obtain ⟨rfl, hZero1, hNone1, h₂⟩ := h₂
  cases mem with
  | none =>
    refine wp_imp (fileclose_two_rule hLaws f0 f1 none h₂) ?_
    rintro _ s₃ ⟨rfl, h₃, hProc₃⟩
    exact ⟨hProc₃, h₃⟩
  | some pi =>
    have hNe : f1 ≠ f0 := by
      rintro rfl
      simp at hZero1
    rw [wp_bind, wp_read, wp_ite]
    refine ⟨fun _ => stop_rule (by simp), fun hPage => ?_⟩
    rw [wp_bind, wp_edit, wp_pure]
    refine ⟨rfl, ?_⟩
    apply h₂.openPipe hNe
    · rw [Sys.setFile_of_ne _ _ (Ne.symm hNe), Sys.setFile_self]
      exact hNone0
    · rw [Sys.setFile_self]
      exact hNone1
    · rw [Sys.setFile_of_ne _ _ (Ne.symm hNe), Sys.setFile_self]
      exact one_ne_zero
    · rw [Sys.setFile_self]
      exact one_ne_zero
    · simpa using hPage

end Xv6
