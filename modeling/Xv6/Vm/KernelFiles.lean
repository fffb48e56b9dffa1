import Xv6.Sys.FileRules
import Xv6.Vm.Kernel
import Xv6.Vm.Space

/-
  The file table of the calls that allocate memory. The counts
  are those of the file table of all system calls, for a
  system without inodes.

  Key definitions include:
    * `Files.sys`
    * `FilesOk`

  Key theorems include:
    * `FilesOk.close`
    * `FilesOk.openPipe`
-/

open Function

-------
-- Counts
-------

namespace Xv6.Vm

open Prog

variable {P : Type}

/- A system with these files, and without inodes. -/
def Files.sys (F : Files P) : Sys P where
  fs :=
    { disk := fun _ => Bytes.zero
      itable := fun _ =>
        { ref := 0
          valid := false
          copy := Dinode.zero }
      used := 0 }
  ftable := F.ftable
  proc := fun p =>
    { state := .used
      pid := 0
      parent := none
      ofile := F.ofile p
      cwd := none }
  nextpid := 0
  pipes := F.pipes
  commits := []

/-
  The counts of files are exact, except that file `f` has
  `d f` references more than descriptors. The pages in `M`
  are those that hold a pipe.
-/
structure FilesOk [Fintype P] (F : Files P) (d : Fin NFILE → Int) (M : Multiset Nat) : Prop where
  counted : Counted F.sys d []
  live : ∀ pi, pi ∈ M ↔ F.pipes pi ≠ none

@[simp] theorem Files.sys_setFd [DecidableEq P] (F : Files P) (p : P) (fd : Fin NOFILE)
    (x : Option (Fin NFILE)) : (F.setFd p fd x).sys = F.sys.setFd p fd x := by
  unfold Files.sys Files.setFd Sys.setFd Sys.setProc
  congr 1
  funext q
  by_cases hq : q = p
  · subst hq
    simp
  · simp [hq]

-------
-- Changes
-------

variable {P : Type} [Fintype P] {F : Files P} {d : Fin NFILE → Int} {M : Multiset Nat}

namespace FilesOk

variable {f : Fin NFILE}

/- Files are ends of pipes. -/
theorem type_eq (h : FilesOk F d M) (f : Fin NFILE) :
    (F.ftable f).type = .none ∨ (F.ftable f).type = .pipe := by
  have hNo : ¬ ((F.ftable f).type = .inode ∨ (F.ftable f).type = .device) := by
    intro hType
    have hPos := (Counted.ref_pos_of_file h.counted hType)
    exact absurd hPos (lt_irrefl 0)
  cases hType : (F.ftable f).type with
  | none => exact .inl rfl
  | pipe => exact .inr rfl
  | inode => exact absurd (.inl hType) hNo
  | device => exact absurd (.inr hType) hNo

theorem setRef {n : Int} (h : FilesOk F d M)
    (hFree : n = 0 → (F.ftable f).type = .none) :
    FilesOk (F.setFile f { F.ftable f with ref := n }) (d + Pi.single f (n - (F.ftable f).ref)) M :=
  ⟨h.counted.setRef hFree, h.live⟩

/- A file without a type becomes free. -/
theorem closeNone (h : FilesOk F d M) (hType : (F.ftable f).type = .none) :
    FilesOk (F.setFile f
        { F.ftable f with ref := 0, type := .none })
      (d + Pi.single f (0 - (F.ftable f).ref)) M :=
  ⟨h.counted.closeNone hType, h.live⟩

/- The pipe of a file exists. -/
theorem pipe_ne_none (h : FilesOk F d M) (hType : (F.ftable f).type = .pipe) :
    F.pipes (F.ftable f).pipe ≠ none := by
  intro hNone
  have hEnds := h.counted.ends (F.ftable f).pipe (F.ftable f).writable
  have hSome := le_sum_of_nonneg (g := fun g =>
      if (F.ftable g).IsEnd (F.ftable f).pipe (F.ftable f).writable then (1 : Int) else 0)
    (fun g => by split <;> simp) f
  have hSelf : (F.ftable f).IsEnd (F.ftable f).pipe (F.ftable f).writable := ⟨hType, rfl, rfl⟩
  have hClosed : endOpen (F.ftable f).writable (F.sys.pipes (F.ftable f).pipe) = false := by
    change endOpen _ (F.pipes _) = false
    rw [hNone]
    rfl
  rw [hClosed] at hEnds
  simp only [hSelf, if_true] at hSome
  have hZero : (∑ g, if (F.ftable g).IsEnd (F.ftable f).pipe
      (F.ftable f).writable then (1 : Int) else 0) = 0 := hEnds
  omega

/- The other end of the pipe stays open. -/
theorem closeEnd {e : PipeEnds} (h : FilesOk F d M)
    (hType : (F.ftable f).type = .pipe) (hPipe : F.pipes (F.ftable f).pipe = some e)
    (hOpen : ¬ ((e.close (F.ftable f).writable).readopen = false ∧
      (e.close (F.ftable f).writable).writeopen = false)) :
    FilesOk
      { F.setFile f
          { F.ftable f with ref := 0, type := .none }
        with
        pipes := update F.pipes (F.ftable f).pipe (some (e.close (F.ftable f).writable)) }
      (d + Pi.single f (0 - (F.ftable f).ref)) M := by
  have hClose := h.counted.closePipe hType
  have hShut : (F.sys.pipes (F.ftable f).pipe).bind
      (fun e => (e.close (F.ftable f).writable).shut) = some (e.close (F.ftable f).writable) := by
    change (F.pipes _).bind _ = _
    rw [hPipe]
    exact if_neg hOpen
  rw [show (F.sys.ftable f) = F.ftable f from rfl, hShut] at hClose
  refine ⟨hClose, fun pi => ?_⟩
  change _ ↔ update F.pipes _ _ pi ≠ none
  by_cases hPi : pi = (F.ftable f).pipe
  · rw [hPi, h.live, hPipe]
    simp
  · rw [update_of_ne hPi]
    exact h.live pi

/- Both ends of the pipe are closed. -/
theorem closeLast {e : PipeEnds} (h : FilesOk F d M) (hNodup : M.Nodup)
    (hType : (F.ftable f).type = .pipe) (hPipe : F.pipes (F.ftable f).pipe = some e)
    (hShut : (e.close (F.ftable f).writable).readopen = false ∧
      (e.close (F.ftable f).writable).writeopen = false) :
    FilesOk
      { F.setFile f
          { F.ftable f with ref := 0, type := .none }
        with
        pipes := update F.pipes (F.ftable f).pipe none }
      (d + Pi.single f (0 - (F.ftable f).ref))
      (M.erase (F.ftable f).pipe) := by
  have hClose := h.counted.closePipe hType
  have hNone : (F.sys.pipes (F.ftable f).pipe).bind
      (fun e => (e.close (F.ftable f).writable).shut) =
        none := by
    change (F.pipes _).bind _ = _
    rw [hPipe]
    exact if_pos hShut
  rw [show (F.sys.ftable f) = F.ftable f from rfl, hNone] at hClose
  refine ⟨hClose, fun pi => ?_⟩
  change _ ↔ update F.pipes _ _ pi ≠ none
  rw [hNodup.mem_erase_iff]
  by_cases hPi : pi = (F.ftable f).pipe
  · rw [hPi]
    simp
  · rw [h.live]
    simp [hPi]

/- Two free files are made the ends of a new pipe. -/
theorem openPipe {f0 f1 : Fin NFILE} {pi : Nat} (h : FilesOk F d M) (hNe : f1 ≠ f0)
    (hNone0 : (F.ftable f0).type = .none) (hNone1 : (F.ftable f1).type = .none)
    (hLive0 : (F.ftable f0).ref ≠ 0) (hLive1 : (F.ftable f1).ref ≠ 0) (hPage : pi ∉ M) :
    FilesOk (({ F with
          pipes := update F.pipes pi (some ⟨true, true⟩) }.setFile f0
        (pipeReader (F.ftable f0) pi)).setFile f1 (pipeWriter (F.ftable f1) pi)) d ({pi} + M) := by
  have hNone : F.pipes pi = none := by
    by_contra hSome
    exact hPage ((h.live pi).mpr hSome)
  refine ⟨h.counted.openPipe hNe hNone0 hNone1 hLive0 hLive1 hNone, fun pj => ?_⟩
  change _ ↔ update F.pipes pi _ pj ≠ none
  rw [Multiset.mem_add]
  by_cases hPj : pj = pi
  · rw [hPj]
    simp
  · rw [h.live]
    simp [hPj]

/- A file that is referred to has a positive count. -/
theorem one_le_ref (h : FilesOk F d M) (hd : 1 ≤ d f) : 1 ≤ (F.ftable f).ref := by
  have hRef := h.counted.files f
  have hSlots := F.sys.slots_nonneg f
  change (F.ftable f).ref = _ at hRef
  omega

variable [DecidableEq P]

/- A descriptor takes over a reference to a file. -/
theorem giveFd {p : P} {n : Fin NOFILE} {f : Fin NFILE}
    (h : FilesOk F (d + Pi.single f 1) M) (hEmpty : F.ofile p n = none) :
    FilesOk (F.setFd p n (some f)) d M := by
  refine ⟨?_, h.live⟩
  rw [Files.sys_setFd]
  exact h.counted.giveFd (fun h => nomatch h) (fun h => nomatch h) hEmpty

/- The reference of a descriptor is taken away. -/
theorem takeFd {p : P} {n : Fin NOFILE} {f : Fin NFILE} (h : FilesOk F d M)
    (hFull : F.ofile p n = some f) : FilesOk (F.setFd p n none) (d + Pi.single f 1) M := by
  refine ⟨?_, h.live⟩
  rw [Files.sys_setFd]
  exact h.counted.takeFd (fun h => nomatch h) (fun h => nomatch h) hFull

end FilesOk

end Xv6.Vm
