import Xv6.Sys.Calls
import Xv6.Sys.FileRules

/-
  Every system call keeps the counts of files, inodes and
  pipes exact, and keeps what the file system keeps.

  Key definitions include:
    * `SysCall.Creates`
    * `FsSpec.Allows`
    * `Keeping`

  Key theorems include:
    * `sysOpen_good`
    * `sysPipe_good`
    * `fork_good`
    * `exit_good`
    * `Procs.code_good`
    * `good_of_reach`
-/

open Xv6.Procs List

-------
-- Steps Of Calls
-------

namespace Xv6

open Prog

/- Calls that create an inode and let go of it. -/
def SysCall.Creates (c : SysCall) (path : Path) (type major minor : BitVec 16) : Prop :=
  (∃ arg, c = .mkdir arg ∧ argstr arg = some path ∧ type = T_DIR ∧
      major = 0 ∧ minor = 0) ∨
  ∃ arg x y, c = .mknod arg x y ∧ argstr arg = some path ∧
    type = T_DEVICE ∧ major = BitVec.ofInt 16 x ∧
    minor = BitVec.ofInt 16 y

/- Can a file opened in this mode be written? -/
def writeMode (omode : BitVec 32) : Bool := hasFlag omode O_WRONLY || hasFlag omode O_RDWR

/-
  The part of a call that changes links and entries keeps
  the property.
-/
structure FsSpec.Allows {P : Type} (F : FsSpec) (sb : Superblock) (s : Sys P) (p : P)
    (c : SysCall) : Prop where
  finds : ∀ path, F.Runs (nameiLock sb (s.cwd p) path)
      (fun r fs' => ∀ ip, r = some ip → F.Locked fs' ip) s.fs
  opens : ∀ arg omode path, c = .open arg omode → argstr arg = some path →
    F.Runs (openInode sb (s.cwd p) path omode)
      (fun r fs' => ∀ ip, r = some ip → F.Locked fs' ip ∧
          (writeMode omode = true → F.Data fs' ip))
      s.fs
  creates : ∀ path type major minor, c.Creates path type major minor →
    F.Runs (create sb (s.cwd p) path type major minor) Plain s.fs
  links : ∀ old new, c = .link (some old) (some new) →
    F.Runs (sysLink sb (s.cwd p) old new) Plain s.fs
  unlinks : ∀ path, c = .unlink (some path) →
    F.Runs (sysUnlink sb (s.cwd p) path) Plain s.fs

variable {P : Type} [Fintype P] {F : FsSpec} {s : Sys P} {d : Fin NFILE → Int} {l : List Nat}
variable {sb : Superblock}

/- A call that ends in a good state if it returns. -/
def Keeping {α : Type} (F : FsSpec) (m : SysM P α) (s : Sys P) : Prop :=
  wp m (fun _ s' => Good F s' 0 []) F.Stops s

/- Return a value. -/
theorem return_good {α : Type} {a : α} (h : Good F s 0 []) : Keeping F (return a) s :=
  (wp_pure a).mpr h

/- End the transaction and return. -/
theorem endOp_return_good {α : Type} {a : α} (hLaws : F.Laws sb) (h : Good F s 0 []) :
    Keeping F (do Sys.endOp; return a) s := by
  rw [Keeping, wp_bind]
  refine wp_imp (endOp_rule hLaws h) ?_
  rintro _ s' ⟨h', _⟩
  exact (wp_pure a).mpr h'

/- File-system code, with what follows it. -/
theorem inFs_bind_good {α β : Type} {m : FsM α} {f : α → List Nat} {k : List Nat}
    {Q : α → Fs → Prop} {g : α → SysM P β} (hMoves : Moves Fs.ref m k f)
    (hRuns : F.Runs m Q s.fs) (h : Good F s d (k ++ l))
    (hNext : ∀ a fs', Good F { s with fs := fs' } d (f a ++ l) → Q a fs' →
        Keeping F (g a) { s with fs := fs' }) : Keeping F (inFs m >>= g) s := by
  rw [Keeping, wp_bind]
  refine wp_imp (inFs_good hMoves hRuns h) ?_
  rintro a _ ⟨fs', rfl, hFs, hQ⟩
  exact hNext a fs' hFs hQ

theorem inFs_keeps_good {α β : Type} {m : FsM α} {Q : α → Fs → Prop} {g : α → SysM P β}
    (hKeeps : Keeps Fs.ref m) (hRuns : F.Runs m Q s.fs) (h : Good F s d l)
    (hNext : ∀ a fs', Good F { s with fs := fs' } d l → Q a fs' →
        Keeping F (g a) { s with fs := fs' }) : Keeping F (inFs m >>= g) s :=
  inFs_bind_good hKeeps hRuns h hNext

/- Let go of the inode, end the transaction and return. -/
theorem iunlockput_return_good {α : Type} {a : α} (hLaws : F.Laws sb) (ip : Nat)
    (h : Good F s 0 [ip]) : Keeping F (do inFs (iunlockput sb ip); Sys.endOp; return a) s :=
  inFs_bind_good (iunlockput_moves sb ip) (hLaws.iunlockput s.fs ip h.ok
      (h.counted.ref_pos_of_mem (mem_cons_self ..))) h
    (fun _ _ h' _ => endOp_return_good hLaws h')

/- The current directory of a process that makes a call. -/
theorem Good.cwd (h : Good F s d l) {p : P} (hp : (s.proc p).state = .runnable) :
    ∃ c, (s.proc p).cwd = some c ∧ s.cwd p = c ∧ 0 < s.fs.ref c := by
  obtain ⟨c, hCwd⟩ := Option.ne_none_iff_exists'.mp (h.counted.active p hp)
  exact ⟨c, hCwd, by simp [Sys.cwd, hCwd], h.counted.ref_pos_of_cwd hCwd⟩

theorem nameiLock_moves (cwd : Nat) (path : Path) :
    Moves Fs.ref (nameiLock sb cwd path) [] (fun r => r.toList) := by
  refine Moves.bind (namei_moves sb cwd path) fun r => ?_
  rcases r with _ | ip
  · exact Moves.pure none
  refine Keeps.bind (ilock_keeps sb ip) fun _ => ?_
  exact Moves.pure (some ip)

variable [DecidableEq P]

omit [Fintype P] in
/- A free descriptor gets the file. -/
theorem fdalloc_rule (p : P) (f : Fin NFILE) :
    wp (fdalloc p f) (fun r s' =>
        match r with
        | none => s' = s
        | some fd => (s.proc p).ofile fd = none ∧ s' = s.setFd p fd (some f))
      F.Stops s := by
  rw [fdalloc, wp_bind, wp_read]
  cases hFind : (finRange NOFILE).find? (fun fd => (s.proc p).ofile fd == none) with
  | none => exact (wp_pure _).mpr rfl
  | some fd =>
    rw [wp_bind, wp_edit, wp_pure]
    exact ⟨by simpa using find?_some hFind, rfl⟩

omit [DecidableEq P] [Fintype P] in
/- A descriptor that was found is in use. -/
theorem argfd_some {p : P} {n : Int} {fd : Fin NOFILE} {f : Fin NFILE}
    (h : argfd s p n = some (fd, f)) : (s.proc p).ofile fd = some f := by
  unfold argfd at h
  split at h
  · obtain ⟨g, hg, hEq⟩ := Option.map_eq_some_iff.mp h
    obtain ⟨rfl, rfl⟩ := Prod.mk.injEq .. ▸ hEq
    exact hg
  · cases h

namespace Good

variable {p : P} {n : Fin NOFILE} {f : Fin NFILE}

/- A descriptor takes over a reference to a file. -/
theorem giveFd (h : Good F s (d + Pi.single f 1) l) (hUnused : (s.proc p).state ≠ .unused)
    (hZombie : (s.proc p).state ≠ .zombie)
    (hEmpty : (s.proc p).ofile n = none) : Good F (s.setFd p n (some f)) d l :=
  h.keep (h.counted.giveFd hUnused hZombie hEmpty) rfl h.data rfl

/- The reference of a descriptor is taken away. -/
theorem takeFd (h : Good F s d l) (hUnused : (s.proc p).state ≠ .unused)
    (hZombie : (s.proc p).state ≠ .zombie)
    (hFull : (s.proc p).ofile n = some f) : Good F (s.setFd p n none) (d + Pi.single f 1) l :=
  h.keep (h.counted.takeFd hUnused hZombie hFull) rfl h.data rfl

end Good

-------
-- Opening
-------

theorem openInode_moves (cwd : Nat) (path : Path) (omode : BitVec 32) :
    Moves Fs.ref (openInode sb cwd path omode) [] (fun r => r.toList) := by
  refine Moves.ite (create_moves sb cwd path _ _ _) ?_
  refine Moves.bind (nameiLock_moves cwd path) fun r => ?_
  rcases r with _ | ip
  · exact Moves.pure none
  refine Moves.read fun s => ?_
  exact Moves.ite (iunlockput_return sb ip rfl) (Moves.pure (some ip))

theorem openedFile_type (ff : OpenFile) (c : Dinode) (ip : Nat) (omode : BitVec 32) :
    (openedFile ff c ip omode).type = .inode ∨ (openedFile ff c ip omode).type = .device := by
  unfold openedFile
  split
  · exact .inr rfl
  · exact .inl rfl

theorem openTrunc_keeps (ip : Nat) (wanted : Bool) : Keeps Fs.ref (openTrunc sb ip wanted) :=
  Moves.ite (itrunc_keeps_refs sb ip) (Keeps.pure ())

theorem openTrunc_runs (hLaws : F.Laws sb) {fs : Fs} {ip : Nat} {omode : BitVec 32} (hOk : F.Ok fs)
    (hLocked : F.Locked fs ip) :
    F.Runs (openTrunc sb ip (hasFlag omode O_TRUNC ∧ (fs.copy ip).type = T_FILE))
      FsSpec.Plain fs := by
  rw [FsSpec.Runs, openTrunc, wp_ite]
  refine ⟨fun hWanted => ?_, fun _ => ?_⟩
  · rw [decide_eq_true_eq] at hWanted
    exact hLaws.itrunc fs ip hOk hLocked hWanted.2
  · exact (wp_pure _).mpr ⟨hOk, fun _ _ _ hData => hData, trivial⟩

variable {P : Type} [Fintype P] [DecidableEq P] {s : Sys P} {p : P}

theorem openFile_good (hLaws : F.Laws sb) (ip : Nat) (omode : BitVec 32) (h : Good F s 0 [ip])
    (hp : (s.proc p).state = .runnable) (hLocked : F.Locked s.fs ip)
    (hData : writeMode omode = true → F.Data s.fs ip) : Keeping F (openFile sb p ip omode) s := by
  rw [Keeping, openFile, wp_bind]
  refine wp_imp (filealloc_rule h) ?_
  rintro (_ | f) s₁ h₁
  · subst h₁
    exact iunlockput_return_good hLaws ip h
  obtain ⟨rfl, hZero, hNone, h₁⟩ := h₁
  rw [wp_bind]
  refine wp_imp (fdalloc_rule p f) ?_
  rintro (_ | fd) s₂ h₂
  · subst h₂
    rw [wp_bind]
    refine wp_imp (fileclose_rule hLaws f h₁) ?_
    rintro _ s₂ ⟨h₂, _⟩
    rw [add_sub_cancel_right] at h₂
    exact iunlockput_return_good hLaws ip h₂
  obtain ⟨hEmpty, rfl⟩ := h₂
  have h₂ := h₁.giveFd (by simp [Sys.setFile, hp]) (by simp [Sys.setFile, hp]) hEmpty
  rw [wp_bind, wp_read, wp_bind, wp_edit]
  have hOpen := h₂.counted.openInode (v := openedFile
      ((s.setFile f { s.ftable f with ref := 1 }).ftable f)
      (s.fs.copy ip) ip omode)
    (by simpa [Sys.setFd, Sys.setProc] using hNone)
    rfl
    (by simp [openedFile])
    (openedFile_type ..) rfl
  have h₃ := h₂.keepFile hOpen rfl rfl rfl (fun _ hWritable => hData hWritable)
  refine inFs_keeps_good (openTrunc_keeps ip _) (openTrunc_runs hLaws h₃.ok hLocked) h₃
    (fun _ fs₁ h₄ _ => ?_)
  have hRef : 0 < fs₁.ref ip := by
    have hPos := h₄.counted.ref_pos_of_file (by
        rw [Sys.setFile_self]
        exact openedFile_type ..)
    simpa [openedFile] using hPos
  refine inFs_keeps_good (iunlock_keeps ip) (hLaws.iunlock fs₁ ip h₄.ok hRef) h₄
    (fun _ fs₂ h₅ _ => ?_)
  exact endOp_return_good hLaws h₅

theorem sysOpen_good (hLaws : F.Laws sb) (arg : Option Path) (omode : BitVec 32)
    (hAllows : F.Allows sb s p (.open arg omode)) (h : Good F s 0 [])
    (hp : (s.proc p).state = .runnable) : Keeping F (sysOpen sb p arg omode) s := by
  unfold sysOpen
  cases hArg : argstr arg with
  | none => exact return_good h
  | some path =>
    rw [Keeping, wp_bind, wp_read]
    refine inFs_bind_good (openInode_moves _ path omode)
      (hAllows.opens arg omode path rfl hArg) h
      (fun r fs' h' hFound => ?_)
    rcases r with _ | ip
    · exact endOp_return_good hLaws h'
    obtain ⟨hLocked, hData⟩ := hFound ip rfl
    rw [Keeping, wp_bind, wp_read, wp_ite]
    exact ⟨fun _ => iunlockput_return_good hLaws ip h',
      fun _ => openFile_good hLaws ip omode h' hp hLocked hData⟩

-------
-- Names
-------

variable {sb : Superblock} {F : FsSpec} {P : Type} [Fintype P] {s : Sys P} {p : P}

theorem createPut_good (hLaws : F.Laws sb) (arg : Option Path) (type major minor : BitVec 16)
    (hCreate : ∀ path, argstr arg = some path →
      F.Runs (create sb (s.cwd p) path type major minor) FsSpec.Plain s.fs)
    (h : Good F s 0 []) : Keeping F (createPut sb p arg type major minor) s := by
  unfold createPut
  cases hArg : argstr arg with
  | none => exact endOp_return_good hLaws h
  | some path =>
    rw [Keeping, wp_bind, wp_read]
    refine inFs_bind_good (create_moves sb _ path type major minor)
      (hCreate path hArg) h (fun r fs' h' _ => ?_)
    rcases r with _ | ip
    · exact endOp_return_good hLaws h'
    · exact iunlockput_return_good hLaws ip h'

theorem procLink_good (hLaws : F.Laws sb) (old new : Option Path)
    (hAllows : F.Allows sb s p (.link old new)) (h : Good F s 0 []) :
    Keeping F (procLink sb p old new) s := by
  unfold procLink
  cases old with
  | none => exact return_good h
  | some old =>
    cases new with
    | none => exact return_good h
    | some new =>
      rw [Keeping, wp_bind, wp_read]
      exact inFs_keeps_good (sysLink_keeps_refs sb _ old new) (hAllows.links old new rfl) h
        (fun _ _ h' _ => endOp_return_good hLaws h')

theorem procUnlink_good (hLaws : F.Laws sb) (path : Option Path)
    (hAllows : F.Allows sb s p (.unlink path)) (h : Good F s 0 []) :
    Keeping F (procUnlink sb p path) s := by
  unfold procUnlink
  cases path with
  | none => exact return_good h
  | some path =>
    rw [Keeping, wp_bind, wp_read]
    exact inFs_keeps_good (sysUnlink_keeps_refs sb _ path) (hAllows.unlinks path rfl) h
      (fun _ _ h' _ => endOp_return_good hLaws h')

variable [DecidableEq P]

/- A process gives up its current directory. -/
theorem Good.dropCwd {l : List Nat} {d : Fin NFILE → Int} {c : Nat} (h : Good F s d l)
    (hCwd : (s.proc p).cwd = some c) :
    Good F (s.setProc p
        { s.proc p with state := .used, cwd := none })
      d (c :: l) := by
  have hCounted : Counted (s.setProc p
          { s.proc p with state := .used, cwd := none })
        d (c :: l) := by
    apply Counted.setProc h.counted
    · rfl
    · intro i
      rw [hCwd]
      by_cases hi : c = i
      · simp [hi]
        omega
      · simp [hi]
    · intro hState
      rcases hState with hState | hState <;> cases hState
    · intro hState
      cases hState
  exact h.keep hCounted rfl h.data rfl

theorem sysChdir_good (hLaws : F.Laws sb) (arg : Option Path)
    (hAllows : F.Allows sb s p (.chdir arg)) (h : Good F s 0 [])
    (hp : (s.proc p).state = .runnable) : Keeping F (sysChdir sb p arg) s := by
  unfold sysChdir
  cases argstr arg with
  | none => exact endOp_return_good hLaws h
  | some path =>
    rw [Keeping, wp_bind, wp_read]
    refine inFs_bind_good (nameiLock_moves _ path) (hAllows.finds path) h
      (fun r fs₂ h₂ _ => ?_)
    rcases r with _ | ip
    · exact endOp_return_good hLaws h₂
    rw [Keeping, wp_bind, wp_read, wp_ite]
    refine ⟨fun _ => iunlockput_return_good hLaws ip h₂, fun _ => ?_⟩
    refine inFs_keeps_good (iunlock_keeps ip) (hLaws.iunlock fs₂ ip h₂.ok
        (h₂.counted.ref_pos_of_mem (mem_cons_self ..)))
      h₂ (fun _ fs₃ h₃ _ => ?_)
    obtain ⟨c, hCwd, hOld, _⟩ := h₂.cwd hp
    rw [hOld, Keeping, wp_bind]
    -- the old directory is put while it is still named
    have hDrop := h₃.dropCwd hCwd
    have hRef := hDrop.counted.ref_pos_of_mem (mem_cons_self ..)
    refine wp_imp (inFs_good_at (iput_moves sb c)
        (hLaws.iput fs₃ c h₃.ok hRef) hDrop rfl) ?_
    rintro _ _ ⟨fs₄, rfl, hPut, _⟩
    rw [wp_bind, Sys.endOp, wp_edit, wp_bind]
    have hCommit := hPut.commit hLaws
    have hNew := hCommit.counted.setProc (p := p) (v := { s.proc p with cwd := some ip }) (k := [])
      (by simp [Sys.setProc])
      (fun i => by simp [count_cons])
      (by simp [hp]) (by simp)
    have hGood := hCommit.keep hNew rfl hCommit.data rfl
    simpa [Sys.setProc] using hGood

-------
-- Descriptors
-------

variable {sb : Superblock} {F : FsSpec} {P : Type} [Fintype P] [DecidableEq P] {s : Sys P} {p : P}

theorem sysDup_good (n : Int) (h : Good F s 0 []) (hp : (s.proc p).state = .runnable) :
    Keeping F (sysDup p n) s := by
  rw [Keeping, sysDup, wp_bind, wp_read]
  cases hArg : argfd s p n with
  | none => exact return_good h
  | some found =>
    obtain ⟨fd, f⟩ := found
    rw [wp_bind]
    refine wp_imp (fdalloc_rule p f) ?_
    rintro (_ | fd) s₁ h₁
    · subst h₁
      exact return_good h
    obtain ⟨hEmpty, rfl⟩ := h₁
    -- the descriptor comes first, the reference later
    have hOwed := h.counted.setFd (p := p) (n := fd) (x := some f) (e := - Pi.single f 1)
      (by simp [hp]) (by simp [hp])
      (fun g => by
        by_cases hg : g = f
        · simp [hEmpty, hg]
        · simp [hEmpty, Ne.symm hg])
    have h₁ := h.keep hOwed rfl h.data rfl
    rw [wp_bind]
    refine wp_imp (filedup_rule f h₁) ?_
    rintro _ s₂ ⟨_, h₂⟩
    rw [neg_add_cancel] at h₂
    exact return_good h₂

theorem sysClose_good (hLaws : F.Laws sb) (n : Int) (h : Good F s 0 [])
    (hp : (s.proc p).state = .runnable) : Keeping F (sysClose sb p n) s := by
  rw [Keeping, sysClose, wp_bind, wp_read]
  cases hArg : argfd s p n with
  | none => exact return_good h
  | some found =>
    obtain ⟨fd, f⟩ := found
    rw [wp_bind, wp_edit, wp_bind]
    have h₁ := h.takeFd (by simp [hp]) (by simp [hp]) (argfd_some hArg)
    refine wp_imp (fileclose_rule hLaws f h₁) ?_
    rintro _ s₂ ⟨h₂, _⟩
    rw [add_sub_cancel_right] at h₂
    exact return_good h₂

omit [DecidableEq P] in
theorem pipeFail_good (hLaws : F.Laws sb) (rf wf : Fin NFILE)
    (h : Good F s (0 + Pi.single rf 1 + Pi.single wf 1) []) : Keeping F (pipeFail sb rf wf) s := by
  refine wp_imp (fileclose_two_rule hLaws rf wf _ h) ?_
  rintro _ s' ⟨_, h', _⟩
  exact h'

theorem sysPipe_good (hLaws : F.Laws sb) (mem : Option Nat) (ok : Bool) (h : Good F s 0 [])
    (hp : (s.proc p).state = .runnable) : Keeping F (sysPipe sb p mem ok) s := by
  rw [Keeping, sysPipe, wp_bind]
  refine wp_imp (pipealloc_rule hLaws mem h) ?_
  rintro r s₁ ⟨hProc₁, h₁⟩
  have hp₁ : (s₁.proc p).state = .runnable := by
    rw [hProc₁]
    exact hp
  rcases r with _ | ⟨rf, wf⟩
  · exact return_good h₁
  dsimp only at h₁ ⊢
  rw [wp_bind]
  refine wp_imp (fdalloc_rule p rf) ?_
  rintro (_ | fd0) s₂ h₂
  · subst h₂
    exact pipeFail_good hLaws rf wf h₁
  obtain ⟨hEmpty0, rfl⟩ := h₂
  rw [add_right_comm] at h₁
  have h₂ := h₁.giveFd (by simp [hp₁]) (by simp [hp₁]) hEmpty0
  have hFull0 : ((s₁.setFd p fd0 (some rf)).proc p).ofile fd0 = some rf := by simp [Sys.setFd]
  have hp₂ : ((s₁.setFd p fd0 (some rf)).proc p).state =
        .runnable := by
    simp [Sys.setFd, hp₁]
  rw [wp_bind]
  refine wp_imp (fdalloc_rule p wf) ?_
  rintro (_ | fd1) s₃ h₃
  · subst h₃
    rw [wp_bind, wp_edit]
    have h₃ := h₂.takeFd (by simp [hp₂]) (by simp [hp₂]) hFull0
    rw [add_right_comm] at h₃
    exact pipeFail_good hLaws rf wf h₃
  obtain ⟨hEmpty1, rfl⟩ := h₃
  have h₃ := h₂.giveFd (by simp [hp₂]) (by simp [hp₂]) hEmpty1
  rw [wp_ite]
  refine ⟨fun _ => return_good h₃, fun _ => ?_⟩
  rw [wp_bind, wp_edit]
  have hNe : fd0 ≠ fd1 := by
    rintro rfl
    rw [hFull0] at hEmpty1
    cases hEmpty1
  have h₄ := h₃.takeFd (p := p) (n := fd0) (f := rf)
    (by simp [Sys.setFd, hp₁]) (by simp [Sys.setFd, hp₁])
    (by simp [Sys.setFd, hNe])
  have h₅ := h₄.takeFd (p := p) (n := fd1) (f := wf)
    (by simp [Sys.setFd, hp₁]) (by simp [Sys.setFd, hp₁])
    (by simp [Sys.setFd, Ne.symm hNe])
  exact pipeFail_good hLaws rf wf h₅

-------
-- Contents
-------

variable {sb : Superblock} {F : FsSpec} {P : Type} [Fintype P] {s : Sys P} {p : P}

theorem sysFstat_good (hLaws : F.Laws sb) (n : Int) (ok : Bool) (h : Good F s 0 []) :
    Keeping F (sysFstat sb p n ok) s := by
  rw [Keeping, sysFstat, wp_bind, wp_read]
  cases argfd s p n with
  | none => exact return_good h
  | some found =>
    rw [wp_ite]
    refine ⟨fun hType => ?_, fun _ => return_good h⟩
    refine inFs_keeps_good (ilock_keeps sb _) (hLaws.ilock s.fs _ h.ok
        (h.counted.ref_pos_of_file hType)) h
      (fun _ fs₁ h₁ _ => ?_)
    exact inFs_keeps_good (iunlock_keeps _) (hLaws.iunlock fs₁ _ h₁.ok
        (h₁.counted.ref_pos_of_file hType)) h₁
      (fun _ fs₂ h₂ _ => return_good h₂)

/- The offset moves, and nothing else. -/
theorem advance_rule {d : Fin NFILE → Int} {l : List Nat} (f : Fin NFILE) (r : Int)
    (h : Good F s d l) :
    wp (advance f r : SysM P Unit) (fun _ s' => Good F s' d l ∧ s'.fs = s.fs ∧
        (s'.ftable f).type = (s.ftable f).type ∧
        (s'.ftable f).writable = (s.ftable f).writable ∧
        (s'.ftable f).ip = (s.ftable f).ip)
      F.Stops s := by
  rw [advance, wp_edit]
  by_cases hr : 0 < r
  · rw [if_pos hr]
    refine ⟨h.keepFile (h.counted.setOff _) rfl rfl rfl (h.data f), rfl, ?_⟩
    rw [Sys.setFile_self]
    exact ⟨rfl, rfl, rfl⟩
  · rw [if_neg hr]
    exact ⟨h, rfl, rfl, rfl, rfl⟩

theorem sysRead_good (hLaws : F.Laws sb) (fd n : Int) (copyout : Nat → Bool) (r : Int)
    (h : Good F s 0 []) : Keeping F (sysRead sb p fd n copyout r) s := by
  rw [Keeping, sysRead, wp_bind, wp_read]
  cases argfd s p fd with
  | none => exact return_good h
  | some found =>
    rw [wp_ite]
    refine ⟨fun _ => return_good h, fun _ => ?_⟩
    cases hType : (s.ftable found.2).type with
    | none => exact stop_rule (by simp)
    | inode =>
      refine inFs_keeps_good (ilock_keeps sb _) (hLaws.ilock s.fs _ h.ok
          (h.counted.ref_pos_of_file (.inl hType))) h
        (fun _ fs₁ h₁ hLocked => ?_)
      refine inFs_keeps_good (readi_keeps_refs sb _ _ _ _)
        (hLaws.readi fs₁ _ copyout _ _ h₁.ok hLocked)
        h₁ (fun r fs₂ h₂ _ => ?_)
      rw [Keeping, wp_bind]
      refine wp_imp (advance_rule found.2 r.1 h₂) ?_
      rintro _ s₃ ⟨h₃, hFs, hType₃, _, hIp⟩
      have hRef := h₃.counted.ref_pos_of_file (.inl (hType₃.trans hType))
      rw [hIp] at hRef
      exact inFs_keeps_good (iunlock_keeps _) (hLaws.iunlock s₃.fs _ h₃.ok hRef) h₃
        (fun _ fs₄ h₄ _ => return_good h₄)
    | _ => exact return_good h

theorem filewriteLoop_good (hLaws : F.Laws sb) (f : Fin NFILE) (ip : Nat) (src : Nat → UInt8)
    (copyin : Nat → Nat → Option Nat) (fuel i left : Nat) (h : Good F s 0 [])
    (hType : (s.ftable f).type = .inode)
    (hWritable : (s.ftable f).writable = true) (hIp : (s.ftable f).ip = ip) :
    Keeping F (filewriteLoop sb f ip src copyin fuel i left) s := by
  induction fuel generalizing i left s with
  | zero => exact return_good h
  | succ fuel ih =>
    rw [Keeping, filewriteLoop, wp_ite]
    refine ⟨fun _ => return_good h, fun _ => ?_⟩
    have hRef := h.counted.ref_pos_of_file (.inl hType)
    rw [hIp] at hRef
    refine inFs_keeps_good (ilock_keeps sb ip) (hLaws.ilock s.fs ip h.ok hRef) h
      (fun _ fs₁ h₁ hLocked => ?_)
    have hData := h₁.data f hType hWritable
    rw [hIp] at hData
    rw [Keeping, wp_bind, wp_read]
    refine inFs_keeps_good (writei_keeps_refs sb _ _ _ _ _)
      (hLaws.writei fs₁ ip _ _ _ _ h₁.ok hLocked hData)
      h₁ (fun r fs₂ h₂ _ => ?_)
    rw [Keeping, wp_bind]
    refine wp_imp (advance_rule f r h₂) ?_
    rintro _ s₃ ⟨h₃, _, hType₃, hWritable₃, hIp₃⟩
    have hRef₃ := h₃.counted.ref_pos_of_file (.inl (hType₃.trans hType))
    rw [hIp₃.trans hIp] at hRef₃
    refine inFs_keeps_good (iunlock_keeps ip) (hLaws.iunlock s₃.fs ip h₃.ok hRef₃) h₃
      (fun _ fs₄ h₄ _ => ?_)
    rw [Keeping, wp_bind, Sys.endOp, wp_edit, wp_ite]
    have h₅ := h₄.commit hLaws
    exact ⟨fun _ => return_good h₅, fun _ => ih _ _ h₅ (hType₃.trans hType)
        (hWritable₃.trans hWritable) (hIp₃.trans hIp)⟩

theorem sysWrite_good (hLaws : F.Laws sb) (fd n : Int) (src : Nat → UInt8)
    (copyin : Nat → Nat → Option Nat) (r : Int) (h : Good F s 0 []) :
    Keeping F (sysWrite sb p fd n src copyin r) s := by
  rw [Keeping, sysWrite, wp_bind, wp_read]
  cases argfd s p fd with
  | none => exact return_good h
  | some found =>
    rw [wp_ite]
    refine ⟨fun _ => return_good h, fun hWritable => ?_⟩
    cases hType : (s.ftable found.2).type with
    | none => exact stop_rule (by simp)
    | inode =>
      rw [wp_bind]
      refine wp_imp (filewriteLoop_good hLaws _ _ src copyin _ _ _ h
          hType (by simpa using hWritable) rfl) ?_
      intro i s' h'
      exact return_good h'
    | _ => exact return_good h

-------
-- Exec
-------

/- Code that only reads a locked inode. -/
structure FsSpec.Reads {α : Type} (F : FsSpec) (ip : Nat) (m : FsM α) : Prop where
  keeps : Keeps Fs.ref m
  runs : ∀ fs, F.Ok fs → F.Locked fs ip → (∀ i, 0 ≤ fs.ref i) →
    F.Runs m (fun _ fs' => F.Locked fs' ip) fs

namespace FsSpec.Reads

variable {α β : Type} {ip : Nat}

theorem pure (a : α) :
    F.Reads ip (Pure.pure a) where
  keeps := Keeps.pure a
  runs := fun _ hOk hLocked _ => (wp_pure a).mpr ⟨hOk, fun _ _ _ hData => hData, hLocked⟩

theorem ite {c : Prop} [Decidable c] {m m' : FsM α} (hThen : F.Reads ip m)
    (hElse : F.Reads ip m') : F.Reads ip (if c then m else m') := by
  by_cases hc : c
  · rw [if_pos hc]
    exact hThen
  · rw [if_neg hc]
    exact hElse

/- The counts between two parts are those at the start. -/
theorem bind {m : FsM α} {g : α → FsM β} (hFirst : F.Reads ip m) (hNext : ∀ a, F.Reads ip (g a)) :
    F.Reads ip (m >>= g) where
  keeps := Keeps.bind hFirst.keeps fun a => (hNext a).keeps
  runs := by
    intro fs hOk hLocked hNonneg
    have hCounts := hFirst.keeps fs.ref fs ⟨hNonneg, fun i => by simp⟩
    rw [FsSpec.Runs, wp_bind]
    refine wp_mono (wp_and hCounts (hFirst.runs fs hOk hLocked hNonneg)) ?_ (fun _ _ hE => hE.2)
    rintro a fs₁ ⟨hHeld, hOk₁, hData₁, hLocked₁⟩
    have hRef : fs₁.ref = fs.ref := by
      funext i
      simpa using hHeld.2 i
    refine wp_imp ((hNext a).runs fs₁ hOk₁ hLocked₁ (hRef ▸ hNonneg)) ?_
    rintro b fs₂ ⟨hOk₂, hData₂, hLocked₂⟩
    refine ⟨hOk₂, fun i hi hi₂ hData => ?_, hLocked₂⟩
    have hi₁ : 0 < fs₁.ref i := by
      rw [hRef]
      exact hi
    exact hData₂ i hi₁ hi₂ (hData₁ i hi hi₁ hData)

end FsSpec.Reads

variable {ip : Nat}

theorem readi_reads (hLaws : F.Laws sb) (copyout : Nat → Bool) (off n : BitVec 32) :
    F.Reads ip (readi sb ip copyout off n) where
  keeps := readi_keeps_refs sb ip copyout off n
  runs := fun fs hOk hLocked _ => hLaws.readi fs ip copyout off n hOk hLocked

theorem loadsegLoop_reads (hLaws : F.Laws sb) (offset sz n i : Nat) :
    F.Reads ip (loadsegLoop sb ip offset sz n i) := by
  induction n generalizing i with
  | zero => exact FsSpec.Reads.pure _
  | succ n ih =>
    refine FsSpec.Reads.bind (readi_reads hLaws copies _ _) fun r => ?_
    exact FsSpec.Reads.ite (FsSpec.Reads.pure _) (ih _)

theorem execLoop_reads (hLaws : F.Laws sb) (mem : Nat → Bool) (n off : Nat) :
    F.Reads ip (execLoop sb ip mem n off) := by
  induction n generalizing off with
  | zero => exact FsSpec.Reads.pure _
  | succ n ih =>
    refine FsSpec.Reads.bind (readi_reads hLaws copies _ _) fun r => ?_
    refine FsSpec.Reads.ite (FsSpec.Reads.pure _) ?_
    refine FsSpec.Reads.ite (ih _) ?_
    refine FsSpec.Reads.ite (FsSpec.Reads.pure _) ?_
    refine FsSpec.Reads.ite (FsSpec.Reads.pure _) ?_
    refine FsSpec.Reads.bind (loadsegLoop_reads hLaws _ _ _ _) fun ok => ?_
    exact FsSpec.Reads.ite (ih _) (FsSpec.Reads.pure _)

theorem execLoad_reads (hLaws : F.Laws sb) (pagetable : Bool) (mem : Nat → Bool) :
    F.Reads ip (execLoad sb ip pagetable mem) := by
  refine FsSpec.Reads.bind (readi_reads hLaws copies _ _) fun r => ?_
  refine FsSpec.Reads.ite (FsSpec.Reads.pure _) ?_
  refine FsSpec.Reads.ite (FsSpec.Reads.pure _) ?_
  exact FsSpec.Reads.ite (FsSpec.Reads.pure _) (execLoop_reads hLaws mem _ _)

variable {P : Type} [Fintype P] {s : Sys P} {p : P}

theorem exec_good (hLaws : F.Laws sb) (arg : Option Path) (args pagetable : Bool)
    (mem : Nat → Bool) (r : Int) (hAllows : F.Allows sb s p (.exec arg args pagetable mem r))
    (h : Good F s 0 []) : Keeping F (exec sb p arg args pagetable mem r) s := by
  unfold exec
  cases argstr arg with
  | none => exact return_good h
  | some path =>
    rw [Keeping, wp_ite]
    refine ⟨fun _ => return_good h, fun _ => ?_⟩
    rw [wp_bind, wp_read]
    refine inFs_bind_good (nameiLock_moves _ path) (hAllows.finds path) h
      (fun found fs₂ h₂ hFound => ?_)
    rcases found with _ | ip
    · exact endOp_return_good hLaws h₂
    have hLocked := hFound ip rfl
    have hReads : F.Reads ip (execLoad sb ip pagetable mem) := execLoad_reads hLaws pagetable mem
    refine inFs_keeps_good hReads.keeps (hReads.runs fs₂ h₂.ok hLocked h₂.counted.ref_nonneg)
      h₂ (fun ok fs₃ h₃ _ => ?_)
    exact iunlockput_return_good hLaws ip h₃

-------
-- Processes
-------

variable {P : Type} [Fintype P] {s : Sys P} {d : Fin NFILE → Int} {l : List Nat}

/- Processes change, but not in what they refer to. -/
theorem Counted.sameProcs {t : Sys P} (h : Counted s d l) (hFs : t.fs = s.fs)
    (hFtable : t.ftable = s.ftable) (hPipes : t.pipes = s.pipes)
    (hOfile : ∀ q, (t.proc q).ofile = (s.proc q).ofile)
    (hCwd : ∀ q, (t.proc q).cwd = (s.proc q).cwd)
    (hState : ∀ q, (t.proc q).state = (s.proc q).state) :
    Counted t d l where
  files := by
    intro f
    rw [hFtable, h.files f]
    simp only [Sys.slots, hOfile]
  inodes := by
    have hSame : t.holders = s.holders := by
      funext i
      simp only [Sys.holders, hFtable, hCwd]
    rw [hSame, hFs]
    exact h.inodes
  free := by
    rw [hFtable]
    exact h.free
  ends := by
    intro pi w
    have hSame : t.ends pi w = s.ends pi w := by simp only [Sys.ends, hFtable]
    rw [hSame, hPipes]
    exact h.ends pi w
  pages := by
    rw [hPipes]
    exact h.pages
  idle := by
    intro q hq
    rw [hState q] at hq
    rw [hOfile q, hCwd q]
    exact h.idle q hq
  active := by
    intro q hq
    rw [hState q] at hq
    rw [hCwd q]
    exact h.active q hq

variable [DecidableEq P] {p np : P} (E : Procs P)

variable {rest : List (Fin NOFILE)}

/- A process changes and keeps its descriptors. -/
theorem Good.setProc {v : UserProc P} {k : List Nat} (h : Good F s d l)
    (hFiles : v.ofile = (s.proc p).ofile)
    (hInodes : ∀ i, (if v.cwd = some i then 1 else 0) + (k.count i : Int) =
        (if (s.proc p).cwd = some i then 1 else 0) + (l.count i : Int))
    (hIdle : v.state = .unused ∨ v.state = .zombie → (∀ fd, v.ofile fd = none) ∧ v.cwd = none)
    (hActive : v.state = .runnable → v.cwd ≠ none) : Good F (s.setProc p v) d k :=
  h.keep (h.counted.setProc hFiles hInodes hIdle hActive) rfl h.data rfl

/- The parent and the child while files are handed over. -/
structure Sys.Handing (F : FsSpec) (p np : P) (v : UserProc P) (rest : List (Fin NOFILE))
    (s : Sys P) : Prop where
  good : Good F s 0 []
  parent : s.proc p = v
  used : (s.proc np).state = .used
  cwd : (s.proc np).cwd = none
  empty : ∀ fd ∈ rest, (s.proc np).ofile fd = none
  nodup : rest.Nodup

theorem forkFile_rule {v : UserProc P} {fd : Fin NOFILE} (hNe : p ≠ np)
    (h : Sys.Handing F p np v (fd :: rest) s) :
    wp (forkFile p np fd) (fun _ s' => Sys.Handing F p np v rest s') F.Stops s := by
  have hEmpty := h.empty fd (mem_cons_self ..)
  rw [forkFile, wp_bind, wp_read]
  cases hFile : (s.proc p).ofile fd with
  | none =>
    exact (wp_pure _).mpr
      { h with
        empty := fun fd' hfd' => h.empty fd' (mem_cons_of_mem _ hfd')
        nodup := h.nodup.of_cons }
  | some f =>
    rw [wp_bind]
    refine wp_imp (filedup_rule f h.good) ?_
    rintro _ _ ⟨rfl, h₁⟩
    rw [wp_edit]
    have hUsed := h.used
    refine ⟨h₁.giveFd ?_ ?_ hEmpty, ?_, ?_, ?_, ?_, h.nodup.of_cons⟩
    · simp [Sys.setFile, hUsed]
    · simp [Sys.setFile, hUsed]
    · rw [Sys.setFd, Sys.setProc_of_ne _ _ hNe]
      exact h.parent
    · simpa [Sys.setFd, Sys.setFile] using hUsed
    · simpa [Sys.setFd, Sys.setFile] using h.cwd
    · intro fd' hfd'
      have hOther : fd' ≠ fd := by
        rintro rfl
        exact (nodup_cons.mp h.nodup).1 hfd'
      have hOld := h.empty fd' (mem_cons_of_mem _ hfd')
      simpa [Sys.setFd, Sys.setFile, hOther] using hOld

theorem forkChild_good (hLaws : F.Laws sb) (pid : Int) (hNe : p ≠ np)
    (hp : (s.proc p).state = .runnable)
    (h : Sys.Handing F p np (s.proc p) (List.finRange NOFILE) s) :
    Keeping F (forkChild p np pid) s := by
  rw [Keeping, forkChild, wp_bind]
  refine wp_imp (wp_forEach (forkFile p np) (Sys.Handing F p np (s.proc p)) (finRange NOFILE)
      (fun fd rest s₁ h₁ => forkFile_rule hNe h₁) h) ?_
  intro _ s₁ h₁
  obtain ⟨c, _, hEq, hRef⟩ := h₁.good.cwd (by rw [h₁.parent]; exact hp)
  rw [wp_bind, wp_read, hEq]
  refine inFs_bind_good (idup_moves c) (hLaws.idup s₁.fs c h₁.good.ok hRef) h₁.good
    (fun c fs₂ h₂ _ => ?_)
  rw [Keeping, wp_bind, wp_edit, wp_pure]
  have hCwd := h₁.cwd
  apply Good.setProc h₂
  · rfl
  · intro i
    simp [hCwd, count_cons]
  · intro hState
    rcases hState with hState | hState <;> cases hState
  · intro _ hNone
    cases hNone

theorem fork_good (hLaws : F.Laws sb) (mem : Bool) (h : Good F s 0 [])
    (hp : (s.proc p).state = .runnable) : Keeping F (fork E p mem) s := by
  rw [Keeping, fork, wp_bind, wp_read]
  cases hFind : E.procs.find? (fun q => (s.proc q).state == .unused) with
  | none => exact return_good h
  | some np =>
    have hUnused : (s.proc np).state = .unused := by simpa using find?_some hFind
    obtain ⟨hFiles, hCwd⟩ := h.counted.idle np (.inl hUnused)
    have hNe : p ≠ np := by
      rintro rfl
      rw [hp] at hUnused
      cases hUnused
    rw [wp_bind, wp_edit]
    have h₁ : Good F (s.setProc np
            { s.proc np with
              pid := s.nextpid, state := .used }) 0 [] := by
      apply Good.setProc h
      · rfl
      · exact fun _ => rfl
      · intro hState
        rcases hState with hState | hState <;> cases hState
      · intro hState
        cases hState
    have h₂ : Good F
          { s.setProc np
              { s.proc np with
                pid := s.nextpid, state := .used }
            with nextpid := s.nextpid + 1 } 0 [] :=
      h₁.keep (h₁.counted.sameProcs rfl rfl rfl (fun _ => rfl) (fun _ => rfl) (fun _ => rfl))
        rfl h₁.data rfl
    rw [wp_ite]
    refine ⟨fun _ => ?_, fun _ => ?_⟩
    · refine forkChild_good hLaws _ hNe ?_ ⟨h₂, rfl, ?_, ?_, ?_, nodup_finRange _⟩
      · simpa [hNe] using hp
      · simp
      · simpa using hCwd
      · intro fd _
        simpa using hFiles fd
    rw [wp_bind, wp_edit]
    refine return_good ?_
    apply Good.setProc h₂
    · rfl
    · exact fun _ => rfl
    · intro _
      simpa [UserProc.free] using ⟨hFiles, hCwd⟩
    · intro hState
      cases hState

/- A process that closes its files. -/
structure Sys.Closing (F : FsSpec) (p : P) (c : Nat) (rest : List (Fin NOFILE))
    (s : Sys P) : Prop where
  good : Good F s 0 []
  active : (s.proc p).state = .runnable
  cwd : (s.proc p).cwd = some c
  closed : ∀ fd, fd ∉ rest → (s.proc p).ofile fd = none

theorem exitFile_rule (hLaws : F.Laws sb) {c : Nat} {fd : Fin NOFILE}
    (h : Sys.Closing F p c (fd :: rest) s) :
    wp (exitFile sb p fd) (fun _ s' => Sys.Closing F p c rest s') F.Stops s := by
  rw [exitFile, wp_bind, wp_read]
  have hClosed : ∀ fd', fd' ≠ fd → fd' ∉ rest → (s.proc p).ofile fd' = none := by
    intro fd' hNe hRest
    exact h.closed fd' (by simp [hNe, hRest])
  cases hFile : (s.proc p).ofile fd with
  | none =>
    refine (wp_pure _).mpr { h with closed := ?_ }
    intro fd' hRest
    by_cases hNe : fd' = fd
    · rw [hNe]
      exact hFile
    · exact hClosed fd' hNe hRest
  | some f =>
    rw [wp_bind]
    refine wp_imp (fileclose_rule hLaws f h.good) ?_
    rintro _ s₁ ⟨h₁, hProc⟩
    have hState : (s₁.proc p).state = .runnable := by
      rw [hProc]
      exact h.active
    rw [wp_edit]
    have h₂ := h₁.takeFd (p := p) (by simp [hState]) (by simp [hState])
      (by rw [hProc]; exact hFile)
    rw [sub_add_cancel] at h₂
    refine ⟨h₂, ?_, ?_, ?_⟩
    · simpa [Sys.setFd] using hState
    · simpa [Sys.setFd, hProc] using h.cwd
    · intro fd' hRest
      by_cases hNe : fd' = fd
      · simp [Sys.setFd, hNe]
      · simpa [Sys.setFd, hNe, hProc] using hClosed fd' hNe hRest

omit [Fintype P] in
/- Only the parent of a process may change. -/
theorem reparent_cases (proc : P → UserProc P) (q : P) :
    (reparent E p proc q).ofile = (proc q).ofile ∧ (reparent E p proc q).cwd = (proc q).cwd ∧
      (reparent E p proc q).state = (proc q).state := by
  unfold reparent
  split
  · exact ⟨rfl, rfl, rfl⟩
  · exact ⟨rfl, rfl, rfl⟩

theorem exit_good (hLaws : F.Laws sb) (h : Good F s 0 [])
    (hp : (s.proc p).state = .runnable) : Keeping F (exit sb E p) s := by
  rw [Keeping, exit, wp_ite]
  refine ⟨fun _ => stop_rule (by simp), fun _ => ?_⟩
  obtain ⟨c, hCwd, _, _⟩ := h.cwd hp
  rw [wp_bind]
  refine wp_imp (wp_forEach (exitFile sb p) (Sys.Closing F p c) (finRange NOFILE)
      (fun fd rest s₁ h₁ => exitFile_rule hLaws h₁)
      ⟨h, hp, hCwd, fun fd hfd => absurd (mem_finRange fd) hfd⟩) ?_
  intro _ s₁ h₁
  have hOld : s₁.cwd p = c := by simp [Sys.cwd, h₁.cwd]
  rw [wp_bind, wp_read, hOld, wp_bind]
  have hDrop := h₁.good.dropCwd h₁.cwd
  have hRef := h₁.good.counted.ref_pos_of_cwd h₁.cwd
  refine wp_imp (inFs_good_at (iput_moves sb c)
      (hLaws.iput s₁.fs c h₁.good.ok hRef) hDrop rfl) ?_
  rintro _ _ ⟨fs₂, rfl, hPut, _⟩
  rw [wp_bind, Sys.endOp, wp_edit, wp_bind, wp_edit, wp_bind, wp_edit, wp_bind, wp_edit, wp_pure]
  have hFiles : ∀ fd, (s₁.proc p).ofile fd = none := fun fd => h₁.closed fd (by simp)
  have hZombie := (hPut.commit hLaws).setProc (p := p)
    (v := { s₁.proc p with state := .zombie, cwd := none }) (k := []) (by simp)
    (fun i => by simp) (fun _ => ⟨hFiles, rfl⟩) (fun hState => by cases hState)
  refine hZombie.keep (hZombie.counted.sameProcs rfl rfl rfl ?_ ?_ ?_) rfl hZombie.data rfl
  all_goals
    intro q
    by_cases hq : q = p
    · subst hq
      simp [reparent_cases]
    · simp [reparent_cases, hq]

theorem wait_good (addr ok killed : Bool) (h : Good F s 0 []) :
    Keeping F (wait E p addr ok killed) s := by
  rw [Keeping, wait, wp_bind, wp_read]
  cases hFind : E.procs.find? (fun q =>
        (s.proc q).parent = some p ∧ (s.proc q).state = .zombie) with
  | none =>
    rw [wp_ite]
    exact ⟨fun _ => return_good h, fun _ => stop_rule (by simp)⟩
  | some q =>
    have hZombie : (s.proc q).state = .zombie := by
      have hSome := find?_some hFind
      simp only [decide_eq_true_eq] at hSome
      exact hSome.2
    rw [wp_ite]
    refine ⟨fun _ => return_good h, fun _ => ?_⟩
    rw [wp_bind, wp_edit]
    refine return_good ?_
    apply Good.setProc h
    · rfl
    · exact fun _ => rfl
    · intro _
      exact h.counted.idle q (.inr hZombie)
    · intro hState
      cases hState

-------
-- Runs
-------

variable {P : Type} [Fintype P] [DecidableEq P] {s : Sys P} (E : Procs P) {F : FsSpec}
variable {sb : Superblock} {a : SysAction P}

/- Every call keeps what is to be kept. -/
theorem Procs.code_good (hLaws : F.Laws sb) (p : P) (c : SysCall) (hAllows : F.Allows sb s p c)
    (h : Good F s 0 []) (hp : (s.proc p).state = .runnable) : Keeping F (E.code sb p c) s := by
  cases c with
  | «open» path omode => exact sysOpen_good hLaws path omode hAllows h hp
  | mkdir arg =>
    exact createPut_good hLaws arg _ _ _ (fun path hArg => hAllows.creates path _ _ _
        (.inl ⟨arg, rfl, hArg, rfl, rfl, rfl⟩)) h
  | mknod arg major minor =>
    exact createPut_good hLaws arg _ _ _ (fun path hArg => hAllows.creates path _ _ _
        (.inr ⟨arg, major, minor, rfl, hArg, rfl, rfl, rfl⟩)) h
  | link old new => exact procLink_good hLaws old new hAllows h
  | unlink path => exact procUnlink_good hLaws path hAllows h
  | chdir path => exact sysChdir_good hLaws path hAllows h hp
  | dup fd => exact sysDup_good fd h hp
  | close fd => exact sysClose_good hLaws fd h hp
  | pipe mem ok => exact sysPipe_good hLaws mem ok h hp
  | fstat fd ok => exact sysFstat_good hLaws fd ok h
  | read fd n copyout r => exact sysRead_good hLaws fd n copyout r h
  | write fd n src copyin r => exact sysWrite_good hLaws fd n src copyin r h
  | exec path args pagetable mem r => exact exec_good hLaws path args pagetable mem r hAllows h
  | fork mem => exact fork_good E hLaws mem h hp
  | exit => exact exit_good E hLaws h hp
  | wait addr ok killed => exact wait_good E addr ok killed h

omit [Fintype P] in
@[simp] theorem boot_ofile (d : Disk) (p : P) (fd : Fin NOFILE) :
    ((E.boot d).proc p).ofile fd = none := by
  by_cases hInit : p = E.initproc
  · simp [Procs.boot, hInit]
  · simp [Procs.boot, hInit]

/- Only the first process has a current directory. -/
theorem boot_holders (d : Disk) (i : Nat) :
    (E.boot d).holders i = if i = ROOTINO then 1 else 0 := by
  have hFiles : ∀ f, ¬ ((E.boot d).ftable f).PointsTo i :=
    fun _ => OpenFile.not_pointsTo (.inl rfl) i
  unfold Sys.holders
  rw [Fintype.sum_eq_single E.initproc]
  · simp only [hFiles]
    simp [Procs.boot, eq_comm]
  · intro p hp
    simp [Procs.boot, hp]

/- After a start, only the root directory is held. -/
theorem boot_counted (d : Disk) :
    Counted (E.boot d) 0 [] where
  files := by
    intro f
    simp only [Sys.slots, boot_ofile]
    simp [Procs.boot]
  inodes := by
    refine ⟨fun i => Sys.holders_nonneg _ i, fun i => ?_⟩
    rw [boot_holders]
    simp [Procs.boot, bootFs, Fs.ref]
  free := fun _ _ => rfl
  ends := by
    intro pi w
    simp [Procs.boot, Sys.ends, OpenFile.IsEnd, endOpen]
  pages := fun pi hPi => by cases hPi
  idle := by
    intro p hp
    by_cases hInit : p = E.initproc
    · simp [Procs.boot, hInit] at hp
    · simp [Procs.boot, hInit]
  active := by
    intro p hp
    by_cases hInit : p = E.initproc
    · simp [Procs.boot, hInit]
    · simp [Procs.boot, hInit] at hp

theorem Procs.boot_kept {d : Disk} (hLaws : F.Laws sb) (hOk : F.Ok (Procs.bootFs d)) :
    Good F (E.boot d) 0 [] where
  counted := boot_counted E d
  ok := hOk
  data := by rintro _ ⟨⟩
  saved := by
    intro x hx
    rw [mem_singleton.mp hx]
    exact hLaws.saved _ hOk

omit [Fintype P] in
/- A step is a call that returns, or a new start. -/
theorem Procs.step_cases {s' : Sys P} (h : E.step sb s a = .next s') :
    (∃ p c r, a = .call p c ∧ (s.proc p).state = .runnable ∧ E.code sb p c s = (.ok r, s')) ∨
      ∃ lost d, a = .crash lost ∧ s.commits[lost]? = some d ∧ s' = E.boot d := by
  cases a with
  | call p c =>
    simp only [step] at h
    by_cases hp : (s.proc p).state = .runnable
    · rw [if_pos hp] at h
      rcases hRun : E.code sb p c s with ⟨r, s₁⟩
      rw [hRun] at h
      cases r with
      | error e => cases e <;> cases h
      | ok r =>
        cases h
        exact .inl ⟨p, c, r, rfl, hp, hRun⟩
    · rw [if_neg hp] at h
      cases h
  | crash lost =>
    simp only [step] at h
    cases hDisk : s.commits[lost]? with
    | none =>
      rw [hDisk] at h
      cases h
    | some d =>
      rw [hDisk] at h
      cases h
      exact .inr ⟨lost, d, rfl, hDisk, rfl⟩

omit [Fintype P] in
/- A step that faults is a call that stops. -/
theorem Procs.fault_cases {e : SysHalt} (h : E.step sb s a = .fault e) :
    ∃ p c s', a = .call p c ∧ (s.proc p).state = .runnable ∧ E.code sb p c s = (.error e, s') := by
  cases a with
  | call p c =>
    simp only [step] at h
    by_cases hp : (s.proc p).state = .runnable
    · rw [if_pos hp] at h
      rcases hRun : E.code sb p c s with ⟨r, s₁⟩
      rw [hRun] at h
      cases r with
      | ok r => cases h
      | error e' =>
        cases e' <;> cases h
        all_goals exact ⟨p, c, s₁, rfl, hp, hRun⟩
    · rw [if_neg hp] at h
      cases h
  | crash lost =>
    simp only [step] at h
    cases hDisk : s.commits[lost]? with
    | _ =>
      rw [hDisk] at h
      cases h

/-
  What holds at the start and is kept by the allowed actions
  holds in every run.
-/
theorem good_of_reach {Image : Disk → Prop} {Allowed : Sys P → SysAction P → Prop}
    (hLaws : F.Laws sb) (hImage : ∀ d, Image d → F.Ok (Procs.bootFs d))
    (hCall : ∀ s p c, Good F s 0 [] → (s.proc p).state = .runnable → Allowed s (.call p c) →
      F.Allows sb s p c)
    (hCrash : ∀ s lost d, Good F s 0 [] → Allowed s (.crash lost) → F.Saved d →
      F.Ok (Procs.bootFs d))
    (h : (E.system sb Image).Reach Allowed s) : Good F s 0 [] := by
  refine System.Reach.invariant (I := fun s => Good F s 0 []) ?_ ?_ h
  · rintro _ ⟨d, hd, rfl⟩
    exact boot_kept E hLaws (hImage d hd)
  intro s a s' h' hAllowed hStep
  rcases E.step_cases hStep with
    ⟨p, c, r, rfl, hp, hRun⟩ | ⟨lost, d, rfl, hd, rfl⟩
  · have hCode := E.code_good hLaws p c (hCall s p c h' hp hAllowed) h' hp
    exact wp_ok (Q := fun _ s' => Good F s' 0 []) hCode hRun
  · have hSaved := h'.saved d (mem_of_getElem? hd)
    exact boot_kept E hLaws (hCrash s lost d h' hAllowed hSaved)

/- How an allowed call in a run may stop. -/
theorem halts_of_fault {p : P} {c : SysCall} {e : Halt} (hLaws : F.Laws sb)
    (hAllows : F.Allows sb s p c) (h : Good F s 0 [])
    (hFault : E.step sb s (.call p c) = .fault (.fs e)) : F.Halts e := by
  obtain ⟨p', c', s', hEq, hp, hRun⟩ := E.fault_cases hFault
  cases hEq
  have hCode := E.code_good hLaws p c hAllows h hp
  exact wp_error hCode hRun e rfl

end Xv6
