import Xv6.Fs.References
import Xv6.Lib.Counting
import Xv6.Sys.Files
import Mathlib.Algebra.Group.Pi.Lemmas
import Mathlib.Tactic.Abel

/-
  What refers to files, inodes and pipes, and how changes of
  the tables change it.

  Key definitions include:
    * `Sys.slots`
    * `Sys.holders`
    * `Sys.ends`
    * `Counted`

  Key theorems include:
    * `Counted.change`
    * `Counted.setFd`
    * `Counted.setProc`
-/

open Function Xv6.OpenFile

-------
-- References
-------

namespace Xv6

/- Does a live file refer to inode `i`? -/
def OpenFile.PointsTo (ff : OpenFile) (i : Nat) : Prop :=
  (ff.type = .inode ∨ ff.type = .device) ∧ ff.ip = i

instance (ff : OpenFile) (i : Nat) : Decidable (ff.PointsTo i) :=
  inferInstanceAs (Decidable (_ ∧ _))

/- Is the file an end of the pipe in page `pi`? -/
def OpenFile.IsEnd (ff : OpenFile) (pi : Nat) (writable : Bool) : Prop :=
  ff.type = .pipe ∧ ff.pipe = pi ∧ ff.writable = writable

instance (ff : OpenFile) (pi : Nat) (writable : Bool) : Decidable (ff.IsEnd pi writable) :=
  inferInstanceAs (Decidable (_ ∧ _))

/- Is an end of a pipe open? -/
def endOpen (writable : Bool) :
    Option PipeEnds → Bool
| none => false
| some e => if writable then e.writeopen else e.readopen

namespace Sys

variable {P : Type} [Fintype P]

/- Descriptors that hold the file. -/
def slots (s : Sys P) (f : Fin NFILE) : Int :=
  ∑ p, ∑ fd, if (s.proc p).ofile fd = some f then 1 else 0

/- Files and current directories that refer to an inode. -/
def holders (s : Sys P) (i : Nat) : Int :=
  (∑ f, if (s.ftable f).PointsTo i then 1 else 0) + ∑ p, if (s.proc p).cwd = some i then 1 else 0

/- Files that are an end of a pipe. -/
def ends (s : Sys P) (pi : Nat) (writable : Bool) : Int :=
  ∑ f, if (s.ftable f).IsEnd pi writable then 1 else 0

end Sys

/-
  All counts are exact, except that file `f` has `d f`
  references more than descriptors, and the inodes in `l`
  are held in addition.
-/
structure Counted {P : Type} [Fintype P] (s : Sys P) (d : Fin NFILE → Int)
    (l : List Nat) : Prop where
  files : ∀ f, (s.ftable f).ref = s.slots f + d f
  inodes : Prog.Holding Fs.ref s.holders l s.fs
  free : ∀ f, (s.ftable f).ref = 0 → (s.ftable f).type = .none
  ends : ∀ pi w, s.ends pi w =
    if endOpen w (s.pipes pi) then 1 else 0
  pages : ∀ pi, s.pipes pi ≠ some ⟨false, false⟩
  idle : ∀ p, (s.proc p).state = .unused ∨ (s.proc p).state = .zombie →
      (∀ fd, (s.proc p).ofile fd = none) ∧ (s.proc p).cwd = none
  active : ∀ p, (s.proc p).state = .runnable → (s.proc p).cwd ≠ none

-------
-- Changes Of The File Table
-------

variable {P : Type} [Fintype P]

namespace Sys

omit [Fintype P] in
@[simp] theorem setFile_self (s : Sys P) (f : Fin NFILE) (v : OpenFile) :
    (s.setFile f v).ftable f = v := by
  simp [setFile]

omit [Fintype P] in
@[simp] theorem setFile_of_ne (s : Sys P) {f g : Fin NFILE} (v : OpenFile) (h : g ≠ f) :
    (s.setFile f v).ftable g = s.ftable g := by
  simp [setFile, h]

omit [Fintype P] in
/- A sum over the file table, after a change of one file. -/
theorem sum_setFile (s : Sys P) (f : Fin NFILE) (v : OpenFile) (g : OpenFile → Int) :
    ∑ f', g ((s.setFile f v).ftable f') = ∑ f', g (s.ftable f') + (g v - g (s.ftable f)) := by
  have hChange := sum_change (fun f' => g (s.ftable f')) (fun f' => g ((s.setFile f v).ftable f')) f
    (fun f' hf' => by simp [hf'])
  simpa using hChange

theorem holders_setFile (s : Sys P) (f : Fin NFILE) (v : OpenFile) (i : Nat) :
    (s.setFile f v).holders i = s.holders i + ((if v.PointsTo i then 1 else 0) -
        if (s.ftable f).PointsTo i then 1 else 0) := by
  have hSum := s.sum_setFile f v (fun ff => if ff.PointsTo i then 1 else 0)
  unfold holders
  change _ + (∑ p, if (s.proc p).cwd = some i then 1 else 0) = _
  omega

omit [Fintype P] in
theorem ends_setFile (s : Sys P) (f : Fin NFILE) (v : OpenFile) (pi : Nat) (w : Bool) :
    (s.setFile f v).ends pi w = s.ends pi w + ((if v.IsEnd pi w then 1 else 0) -
        if (s.ftable f).IsEnd pi w then 1 else 0) :=
  s.sum_setFile f v (fun ff => if ff.IsEnd pi w then 1 else 0)

theorem holders_nonneg (s : Sys P) (i : Nat) : 0 ≤ s.holders i := by
  apply add_nonneg
  · exact Finset.sum_nonneg (fun f _ => by split <;> simp)
  · exact Finset.sum_nonneg (fun p _ => by split <;> simp)

theorem slots_nonneg (s : Sys P) (f : Fin NFILE) : 0 ≤ s.slots f :=
  Finset.sum_nonneg (fun p _ => Finset.sum_nonneg (fun fd _ => by split <;> simp))

end Sys

-------
-- Changes Of The Process Table
-------

variable {P : Type} [Fintype P] [DecidableEq P]

namespace Sys

omit [Fintype P] in
@[simp] theorem setProc_self (s : Sys P) (p : P) (v : UserProc P) : (s.setProc p v).proc p = v := by
  simp [setProc]

omit [Fintype P] in
@[simp] theorem setProc_of_ne (s : Sys P) {p q : P} (v : UserProc P) (h : q ≠ p) :
    (s.setProc p v).proc q = s.proc q := by
  simp [setProc, h]

/- A process changes its current directory. -/
theorem holders_setProc (s : Sys P) (p : P) (v : UserProc P) (i : Nat) :
    (s.setProc p v).holders i = s.holders i + ((if v.cwd = some i then 1 else 0) -
        if (s.proc p).cwd = some i then 1 else 0) := by
  have hChange := sum_change (fun q => if (s.proc q).cwd = some i then (1 : Int) else 0) (fun q =>
      if ((s.setProc p v).proc q).cwd = some i then 1 else 0) p
    (fun q hq => by simp [hq])
  unfold holders
  rw [hChange, setProc_self]
  change (∑ f, if (s.ftable f).PointsTo i then 1 else 0) + _ = _
  omega

/- A process keeps its descriptors. -/
theorem slots_setProc (s : Sys P) (p : P) (v : UserProc P) (hSame : v.ofile = (s.proc p).ofile)
    (f : Fin NFILE) : (s.setProc p v).slots f = s.slots f := by
  refine Finset.sum_congr rfl (fun q _ => ?_)
  by_cases hq : q = p
  · subst hq
    rw [setProc_self, hSame]
  · rw [s.setProc_of_ne v hq]

/- A descriptor is changed. -/
theorem slots_setFd (s : Sys P) (p : P) (fd : Fin NOFILE) (x : Option (Fin NFILE)) (f : Fin NFILE) :
    (s.setFd p fd x).slots f = s.slots f + ((if x = some f then 1 else 0) -
        if (s.proc p).ofile fd = some f then 1 else 0) := by
  have hOuter := sum_change (fun q => ∑ fd',
      if (s.proc q).ofile fd' = some f then (1 : Int) else 0)
    (fun q => ∑ fd',
      if ((s.setFd p fd x).proc q).ofile fd' = some f then 1
      else 0) p
    (fun q hq => by simp [setFd, hq])
  have hInner := sum_change (fun fd' => if (s.proc p).ofile fd' = some f then (1 : Int) else 0)
    (fun fd' =>
      if ((s.setFd p fd x).proc p).ofile fd' = some f then 1
      else 0) fd
    (fun fd' hfd' => by simp [setFd, hfd'])
  unfold slots
  rw [hOuter, hInner]
  simp only [setFd, setProc_self, update_self]
  omega

theorem holders_setFd (s : Sys P) (p : P) (fd : Fin NOFILE) (x : Option (Fin NFILE)) :
    (s.setFd p fd x).holders = s.holders := by
  funext i
  simp [setFd, holders_setProc]

end Sys

-------
-- Changes Of The Counts
-------

open Prog

variable {P : Type} [Fintype P] {s : Sys P} {d : Fin NFILE → Int} {l : List Nat}

namespace Counted

variable {f : Fin NFILE}

/- Only the file system has changed. -/
theorem setFs {fs' : Fs} {l' : List Nat} (h : Counted s d l)
    (hFs : Holding Fs.ref s.holders l' fs') :
    Counted { s with fs := fs' } d l' where
  files := h.files
  inodes := hFs
  free := h.free
  ends := h.ends
  pages := h.pages
  idle := h.idle
  active := h.active

/- A transaction ends. -/
theorem commit (h : Counted s d l) :
    Counted { s with commits := s.fs.disk :: s.commits } d l where
  files := h.files
  inodes := h.inodes
  free := h.free
  ends := h.ends
  pages := h.pages
  idle := h.idle
  active := h.active

/-
  One file changes, and with it the pipes and the inodes
  that are held.
-/
theorem change {v : OpenFile} {q : Nat → Option PipeEnds} {k : List Nat}
    (h : Counted s d l) (hFree : v.ref = 0 → v.type = .none)
    (hInodes : ∀ i, (if v.PointsTo i then 1 else 0) + (k.count i : Int) =
        (if (s.ftable f).PointsTo i then 1 else 0) + (l.count i : Int))
    (hEnds : ∀ pi w, (if endOpen w (q pi) then (1 : Int) else 0) =
        (if endOpen w (s.pipes pi) then 1 else 0) + ((if v.IsEnd pi w then 1 else 0) -
            if (s.ftable f).IsEnd pi w then 1 else 0))
    (hPages : ∀ pi, q pi ≠ some ⟨false, false⟩) :
    Counted { s.setFile f v with pipes := q } (d + Pi.single f (v.ref - (s.ftable f).ref)) k where
  files := by
    intro g
    have hRef := h.files g
    change ((s.setFile f v).ftable g).ref = s.slots g + _
    by_cases hg : g = f
    · subst hg
      simp only [Sys.setFile_self, Pi.add_apply, Pi.single_eq_same]
      omega
    · simp only [s.setFile_of_ne v hg, Pi.add_apply, Pi.single_eq_of_ne hg]
      omega
  inodes := by
    refine ⟨fun i => Sys.holders_nonneg _ i, fun i => ?_⟩
    have hCount := h.inodes.2 i
    have hNew := hInodes i
    change s.fs.ref i = (s.setFile f v).holders i + _
    rw [Sys.holders_setFile]
    omega
  free := by
    intro g
    by_cases hg : g = f
    · subst hg
      rw [Sys.setFile_self]
      exact hFree
    · rw [s.setFile_of_ne v hg]
      exact h.free g
  ends := by
    intro pi w
    change (s.setFile f v).ends pi w = _
    rw [Sys.ends_setFile, h.ends pi w]
    exact (hEnds pi w).symm
  pages := hPages
  idle := h.idle
  active := h.active

/- A file with the same fields, except for the count. -/
theorem setRef {n : Int} (h : Counted s d l) (hFree : n = 0 → (s.ftable f).type = .none) :
    Counted (s.setFile f { s.ftable f with ref := n })
      (d + Pi.single f (n - (s.ftable f).ref)) l := by
  apply h.change hFree
  · exact fun _ => rfl
  · intro pi w
    change _ = _ + ((if (s.ftable f).IsEnd pi w then (1 : Int) else 0) - _)
    omega
  · exact h.pages

/- A file with the same fields, except for the offset. -/
theorem setOff (h : Counted s d l) (off : BitVec 32) :
    Counted (s.setFile f { s.ftable f with off := off }) d l := by
  have hSet := h.change (v := { s.ftable f with off := off }) (h.free f) (fun _ => rfl)
    (fun pi w => by
      change _ = _ + ((if (s.ftable f).IsEnd pi w then (1 : Int) else 0) - _)
      omega)
    h.pages
  rw [sub_self, Pi.single_zero, add_zero] at hSet
  exact hSet

end Counted

-------
-- Opening And Closing
-------

/- A file without a type refers to nothing. -/
theorem OpenFile.not_pointsTo {v : OpenFile} (h : v.type = .none ∨ v.type = .pipe) (i : Nat) :
    ¬ v.PointsTo i := by
  intro hPoints
  rcases h with h | h
  · simp [PointsTo, h] at hPoints
  · simp [PointsTo, h] at hPoints

theorem OpenFile.not_isEnd {v : OpenFile} (h : v.type ≠ .pipe) (pi : Nat) (w : Bool) :
    ¬ v.IsEnd pi w :=
  fun hEnd => h hEnd.1

variable {P : Type} [Fintype P] {s : Sys P} {d : Fin NFILE → Int} {l : List Nat}

namespace Counted

variable {f : Fin NFILE}

/- A free file is made to refer to a held inode. -/
theorem openInode {v : OpenFile} {i : Nat} (h : Counted s d (i :: l))
    (hNone : (s.ftable f).type = .none) (hRef : v.ref = (s.ftable f).ref)
    (hLive : v.ref ≠ 0) (hType : v.type = .inode ∨ v.type = .device)
    (hIp : v.ip = i) : Counted (s.setFile f v) d l := by
  have hPipe : v.type ≠ .pipe := by rcases hType with hType | hType <;> simp [hType]
  have hSet := h.change (f := f) (k := l) (fun hZero => absurd hZero hLive) (fun j => by
      have hNew : v.PointsTo j ↔ j = i :=
        ⟨fun hj => hj.2.symm.trans hIp, fun hj => ⟨hType, hIp.trans hj.symm⟩⟩
      have hOld := not_pointsTo (.inl hNone) j
      simp only [hNew, hOld]
      by_cases hj : j = i
      · simp [hj]
        omega
      · simp [hj, Ne.symm hj])
    (fun pi w => by
      have hNew := not_isEnd hPipe pi w
      have hOld := not_isEnd (by simp [hNone] : (s.ftable f).type ≠ .pipe) pi w
      simp [hNew, hOld])
    h.pages
  rw [hRef, sub_self, Pi.single_zero, add_zero] at hSet
  exact hSet

/- A file becomes free, and its inode is held instead. -/
theorem closeInode (h : Counted s d l)
    (hType : (s.ftable f).type = .inode ∨ (s.ftable f).type = .device) :
    Counted (s.setFile f
        { s.ftable f with ref := 0, type := .none })
      (d + Pi.single f (0 - (s.ftable f).ref))
      ((s.ftable f).ip :: l) := by
  have hPipe : (s.ftable f).type ≠ .pipe := by rcases hType with hType | hType <;> simp [hType]
  apply h.change (fun _ => rfl)
  · intro j
    have hOld : (s.ftable f).PointsTo j ↔ (s.ftable f).ip = j := ⟨And.right, fun hj => ⟨hType, hj⟩⟩
    have hNew := not_pointsTo (v := { s.ftable f with ref := 0, type := .none })
      (.inl rfl) j
    simp only [hOld, hNew]
    by_cases hj : (s.ftable f).ip = j
    · simp [hj]
      omega
    · simp [hj]
  · intro pi w
    have hOld := not_isEnd hPipe pi w
    have hNew := not_isEnd (v := { s.ftable f with ref := 0, type := .none })
      (by simp) pi w
    simp [hOld, hNew]
  · exact h.pages

/- A file without a type becomes free. -/
theorem closeNone (h : Counted s d l) (hType : (s.ftable f).type = .none) :
    Counted (s.setFile f
        { s.ftable f with ref := 0, type := .none })
      (d + Pi.single f (0 - (s.ftable f).ref)) l := by
  rw [← hType]
  exact h.setRef (fun _ => hType)

/- One end is closed, the other one is as before. -/
theorem endOpen_close (w w' : Bool) (o : Option PipeEnds) :
    endOpen w (o.bind (fun e => (e.close w').shut)) =
      if w = w' then false else endOpen w o := by
  rcases o with _ | ⟨r, v⟩
  · simp [endOpen]
  · cases w <;> cases w' <;> cases r <;> cases v <;> rfl

/- A page with both ends closed is freed. -/
theorem close_ne (w' : Bool) (o : Option PipeEnds) :
    o.bind (fun e => (e.close w').shut) ≠ some ⟨false, false⟩ := by
  rcases o with _ | ⟨r, v⟩
  · simp
  · cases w' <;> cases r <;> cases v <;> decide

/- A file of a pipe becomes free, and its end is closed. -/
theorem closePipe (h : Counted s d l) (hType : (s.ftable f).type = .pipe) :
    Counted
      { s.setFile f
          { s.ftable f with ref := 0, type := .none }
        with
        pipes :=
          update s.pipes (s.ftable f).pipe ((s.pipes (s.ftable f).pipe).bind (fun e =>
                (e.close (s.ftable f).writable).shut)) }
      (d + Pi.single f (0 - (s.ftable f).ref)) l := by
  apply h.change (fun _ => rfl)
  · intro j
    have hOld := not_pointsTo (.inr hType) j
    have hNew := not_pointsTo (v := { s.ftable f with ref := 0, type := .none })
      (.inl rfl) j
    simp only [hOld, hNew]
  · intro pi w
    have hNew := not_isEnd (v := { s.ftable f with ref := 0, type := .none })
      (by simp) pi w
    simp only [hNew]
    by_cases hEnd : (s.ftable f).IsEnd pi w
    · -- the end was open, since this file is one of it
      obtain ⟨_, rfl, rfl⟩ := hEnd
      have hEnds := h.ends (s.ftable f).pipe (s.ftable f).writable
      have hSome := le_sum_of_nonneg (g := fun g =>
          if (s.ftable g).IsEnd (s.ftable f).pipe (s.ftable f).writable then (1 : Int) else 0)
        (fun g => by split <;> simp) f
      have hSelf : (s.ftable f).IsEnd (s.ftable f).pipe (s.ftable f).writable := ⟨hType, rfl, rfl⟩
      simp only [hSelf, if_true] at hSome ⊢
      unfold Sys.ends at hEnds
      rw [hEnds] at hSome
      rw [update_self, endOpen_close]
      split at hSome
      · simp_all
      · omega
    · simp only [hEnd]
      by_cases hPi : pi = (s.ftable f).pipe
      · subst hPi
        have hOther : w ≠ (s.ftable f).writable := fun hw => hEnd ⟨hType, rfl, hw.symm⟩
        rw [update_self, endOpen_close, if_neg hOther]
        omega
      · rw [update_of_ne hPi]
        omega
  · intro pi
    by_cases hPi : pi = (s.ftable f).pipe
    · subst hPi
      rw [update_self]
      exact close_ne _ _
    · rw [update_of_ne hPi]
      exact h.pages pi

/- Two free files are made the ends of a new pipe. -/
theorem openPipe {f0 f1 : Fin NFILE} {pi : Nat} (h : Counted s d l) (hNe : f1 ≠ f0)
    (hNone0 : (s.ftable f0).type = .none) (hNone1 : (s.ftable f1).type = .none)
    (hLive0 : (s.ftable f0).ref ≠ 0) (hLive1 : (s.ftable f1).ref ≠ 0) (hPage : s.pipes pi = none) :
    Counted (({ s with
          pipes := update s.pipes pi (some ⟨true, true⟩) }.setFile f0
        (pipeReader (s.ftable f0) pi)).setFile f1 (pipeWriter (s.ftable f1) pi)) d l := by
  have hReader := h.change (f := f0) (v := pipeReader (s.ftable f0) pi) (q :=
      update s.pipes pi (some ⟨true, false⟩))
    (k := l) (fun hZero => absurd hZero hLive0)
    (fun j => by
      have hNew := not_pointsTo (v := pipeReader (s.ftable f0) pi) (.inr rfl) j
      have hOld := not_pointsTo (.inl hNone0) j
      simp only [hNew, hOld])
    (fun pj w => by
      by_cases hPj : pj = pi
      · subst hPj
        cases w <;>
          simp [OpenFile.IsEnd, pipeReader, hNone0, hPage, endOpen]
      · simp [OpenFile.IsEnd, pipeReader, hNone0, hPj, Ne.symm hPj])
    (fun pj => by
      by_cases hPj : pj = pi
      · simp [hPj]
      · simpa [hPj] using h.pages pj)
  rw [show (pipeReader (s.ftable f0) pi).ref = (s.ftable f0).ref from rfl, sub_self, Pi.single_zero,
    add_zero] at hReader
  have hOther : (s.setFile f0 (pipeReader (s.ftable f0) pi)).ftable f1 = s.ftable f1 :=
    s.setFile_of_ne _ hNe
  have hWriter := hReader.change (f := f1) (v := pipeWriter (s.ftable f1) pi) (q :=
      update s.pipes pi (some ⟨true, true⟩))
    (k := l) (fun hZero => absurd hZero hLive1)
    (fun j => by
      have hNew := not_pointsTo (v := pipeWriter (s.ftable f1) pi) (.inr rfl) j
      have hOld := not_pointsTo (.inl hNone1) j
      simp only [hOther, hNew, hOld])
    (fun pj w => by
      by_cases hPj : pj = pi
      · subst hPj
        cases w <;>
          simp [OpenFile.IsEnd, pipeWriter, hNone1, hOther, endOpen]
      · simp [OpenFile.IsEnd, pipeWriter, hNone1, hOther, hPj, Ne.symm hPj])
    (fun pj => by
      by_cases hPj : pj = pi
      · simp [hPj]
      · simpa [hPj] using h.pages pj)
  simp only [hOther] at hWriter
  rw [show (pipeWriter (s.ftable f1) pi).ref = (s.ftable f1).ref from rfl, sub_self, Pi.single_zero,
    add_zero] at hWriter
  exact hWriter

end Counted

-------
-- Descriptors And Directories
-------

variable {P : Type} [Fintype P] [DecidableEq P] {s : Sys P} {d : Fin NFILE → Int} {l : List Nat}

namespace Counted

variable {p : P} {n : Fin NOFILE} {f : Fin NFILE}

/- A descriptor of a process that is in use changes. -/
theorem setFd {x : Option (Fin NFILE)} {e : Fin NFILE → Int} (h : Counted s d l)
    (hUnused : (s.proc p).state ≠ .unused) (hZombie : (s.proc p).state ≠ .zombie)
    (hDiff : ∀ f, (if x = some f then 1 else 0) + e f =
        (if (s.proc p).ofile n = some f then 1 else 0) + d f) :
    Counted (s.setFd p n x) e l where
  files := by
    intro f
    have hRef := h.files f
    have hNew := hDiff f
    rw [Sys.slots_setFd]
    change (s.ftable f).ref = _
    omega
  inodes := by
    rw [Sys.holders_setFd]
    exact h.inodes
  free := h.free
  ends := h.ends
  pages := h.pages
  idle := by
    intro q hq
    by_cases hqp : q = p
    · subst hqp
      simp only [Sys.setFd, Sys.setProc_self] at hq
      exact (hq.elim hUnused hZombie).elim
    · rw [Sys.setFd, s.setProc_of_ne _ hqp] at hq ⊢
      exact h.idle q hq
  active := by
    intro q hq
    by_cases hqp : q = p
    · subst hqp
      simp only [Sys.setFd, Sys.setProc_self] at hq ⊢
      exact h.active q hq
    · rw [Sys.setFd, s.setProc_of_ne _ hqp] at hq ⊢
      exact h.active q hq

/- A descriptor takes over a reference to a file. -/
theorem giveFd (h : Counted s (d + Pi.single f 1) l) (hUnused : (s.proc p).state ≠ .unused)
    (hZombie : (s.proc p).state ≠ .zombie)
    (hEmpty : (s.proc p).ofile n = none) : Counted (s.setFd p n (some f)) d l := by
  apply h.setFd hUnused hZombie
  intro g
  by_cases hg : g = f
  · subst hg
    simp [hEmpty]
    omega
  · simp [hEmpty, Ne.symm hg]

/- The reference of a descriptor is taken away. -/
theorem takeFd (h : Counted s d l) (hUnused : (s.proc p).state ≠ .unused)
    (hZombie : (s.proc p).state ≠ .zombie)
    (hFull : (s.proc p).ofile n = some f) : Counted (s.setFd p n none) (d + Pi.single f 1) l := by
  apply h.setFd hUnused hZombie
  intro g
  by_cases hg : g = f
  · subst hg
    simp [hFull]
    omega
  · simp [hFull, Ne.symm hg]

/-
  A process keeps its descriptors and changes in other
  ways.
-/
theorem setProc {v : UserProc P} {k : List Nat} (h : Counted s d l)
    (hFiles : v.ofile = (s.proc p).ofile)
    (hInodes : ∀ i, (if v.cwd = some i then 1 else 0) + (k.count i : Int) =
        (if (s.proc p).cwd = some i then 1 else 0) + (l.count i : Int))
    (hIdle : v.state = .unused ∨ v.state = .zombie → (∀ fd, v.ofile fd = none) ∧ v.cwd = none)
    (hActive : v.state = .runnable → v.cwd ≠ none) :
    Counted (s.setProc p v) d k where
  files := by
    intro f
    rw [s.slots_setProc p v hFiles]
    exact h.files f
  inodes := by
    refine ⟨fun i => Sys.holders_nonneg _ i, fun i => ?_⟩
    have hCount := h.inodes.2 i
    have hNew := hInodes i
    rw [Sys.holders_setProc]
    change s.fs.ref i = _
    omega
  free := h.free
  ends := h.ends
  pages := h.pages
  idle := by
    intro q hq
    by_cases hqp : q = p
    · subst hqp
      rw [Sys.setProc_self] at hq ⊢
      exact hIdle hq
    · rw [s.setProc_of_ne v hqp] at hq ⊢
      exact h.idle q hq
  active := by
    intro q hq
    by_cases hqp : q = p
    · subst hqp
      rw [Sys.setProc_self] at hq ⊢
      exact hActive hq
    · rw [s.setProc_of_ne v hqp] at hq ⊢
      exact h.active q hq

end Counted

end Xv6
