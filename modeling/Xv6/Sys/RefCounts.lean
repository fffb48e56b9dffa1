import Xv6.Fs.Consistency
import Xv6.Sys.CallSpec
import Mathlib.Algebra.BigOperators.Ring.Finset

/-
  Reference counts of files, inodes and pipes are exact in
  every run of system calls.

  Key theorems include:
    * `Counted.ref_eq_card`
    * `Counted.iref_eq_card`
    * `Counted.page_iff`
    * `reference_counts_are_exact`
-/

-------
-- Counts As Numbers
-------

namespace Xv6

variable {P : Type} [Fintype P] {s : Sys P}

namespace Counted

section

variable (h : Counted s 0 [])
include h

/- A file is live if and only if it has a type. -/
theorem live_of_type {f : Fin NFILE} (hType : (s.ftable f).type ≠ .none) :
    0 < (s.ftable f).ref := by
  have hRef := h.files f
  have hSlots := s.slots_nonneg f
  have hNe : (s.ftable f).ref ≠ 0 := fun hZero => hType (h.free f hZero)
  rw [Pi.zero_apply] at hRef
  omega

theorem ref_eq_card (f : Fin NFILE) :
    (s.ftable f).ref = Fintype.card
        { x : P × Fin NOFILE // (s.proc x.1).ofile x.2 = some f } := by
  rw [h.files f, Pi.zero_apply, add_zero, Fintype.card_subtype, Finset.natCast_card_filter,
    Fintype.sum_prod_type]
  rfl

theorem iref_eq_card (i : Nat) :
    (s.fs.itable i).ref = Fintype.card
        { f : Fin NFILE // 0 < (s.ftable f).ref ∧ ((s.ftable f).type = .inode ∨
            (s.ftable f).type = .device) ∧
          (s.ftable f).ip = i } +
        Fintype.card { p : P // (s.proc p).cwd = some i } := by
  have hLive : ∀ f, (0 < (s.ftable f).ref ∧ (s.ftable f).PointsTo i) ↔ (s.ftable f).PointsTo i := by
    intro f
    refine and_iff_right_of_imp (fun hPoints => ?_)
    apply h.live_of_type
    rcases hPoints.1 with hType | hType <;> simp [hType]
  have hCount := h.inodes.2 i
  rw [List.count_nil, Nat.cast_zero, add_zero] at hCount
  change s.fs.ref i = _
  rw [hCount, Fintype.card_subtype, Fintype.card_subtype,
    Finset.natCast_card_filter, Finset.natCast_card_filter]
  change _ = (∑ f, if 0 < (s.ftable f).ref ∧ (s.ftable f).PointsTo i then (1 : Int) else 0) + _
  simp only [hLive]
  rfl

/- An end is open while there is a file for it. -/
theorem endOpen_iff (pi : Nat) (w : Bool) :
    endOpen w (s.pipes pi) = true ↔ ∃ f, 0 < (s.ftable f).ref ∧ (s.ftable f).IsEnd pi w := by
  have hEnds := h.ends pi w
  have hNonneg : ∀ f, (0 : Int) ≤ if (s.ftable f).IsEnd pi w then 1 else 0 := by
    intro f
    split <;> simp
  constructor
  · intro hOpen
    by_contra hNone
    have hZero : s.ends pi w = 0 := by
      refine Finset.sum_eq_zero (fun f _ => if_neg ?_)
      intro hEnd
      refine hNone ⟨f, h.live_of_type ?_, hEnd⟩
      simp [hEnd.1]
    rw [if_pos hOpen] at hEnds
    omega
  · rintro ⟨f, _, hEnd⟩
    have hSome := le_sum_of_nonneg hNonneg f
    rw [if_pos hEnd] at hSome
    unfold Sys.ends at hEnds
    by_contra hShut
    rw [if_neg hShut] at hEnds
    omega

/- A page holds a pipe while there is a file for one end. -/
theorem page_iff (pi : Nat) :
    s.pipes pi ≠ none ↔ ∃ f, 0 < (s.ftable f).ref ∧
        (s.ftable f).type = .pipe ∧ (s.ftable f).pipe = pi := by
  have hSome : s.pipes pi ≠ none ↔ ∃ w, endOpen w (s.pipes pi) = true := by
    have hPage := h.pages pi
    rcases hEnds : s.pipes pi with _ | ⟨r, w⟩
    · simp [endOpen]
    · cases r <;> cases w <;> simp_all [endOpen]
  rw [hSome]
  constructor
  · rintro ⟨w, hOpen⟩
    obtain ⟨f, hLive, hEnd⟩ := (h.endOpen_iff pi w).mp hOpen
    exact ⟨f, hLive, hEnd.1, hEnd.2.1⟩
  · rintro ⟨f, hLive, hType, hPipe⟩
    exact ⟨(s.ftable f).writable, (h.endOpen_iff pi _).mpr ⟨f, hLive, hType, hPipe, rfl⟩⟩

end

end Counted

-------
-- Runs
-------

variable {P : Type}

/- Nothing is kept but the counts. -/
def anySpec : FsSpec where
  Ok := fun _ => True
  Locked := fun _ _ => True
  Data := fun _ _ => True
  Saved := fun _ => True
  Halts := fun _ => True

theorem anySpec_runs {α : Type} {m : FsM α} {Q : α → Fs → Prop} (hQ : ∀ a fs, Q a fs) (fs : Fs) :
    anySpec.Runs m Q fs :=
  Prog.wp_imp (Prog.wp_true m fs) (fun a fs' _ => ⟨trivial, fun _ _ _ _ => trivial, hQ a fs'⟩)

theorem anySpec_laws (sb : Superblock) :
    anySpec.Laws sb where
  saved := fun _ _ => trivial
  idup := fun fs _ _ _ => anySpec_runs (fun _ _ => trivial) fs
  ilock := fun fs _ _ _ => anySpec_runs (fun _ _ => trivial) fs
  iunlock := fun fs _ _ _ => anySpec_runs (fun _ _ => trivial) fs
  iput := fun fs _ _ _ => anySpec_runs (fun _ _ => trivial) fs
  iunlockput := fun fs _ _ _ => anySpec_runs (fun _ _ => trivial) fs
  itrunc := fun fs _ _ _ _ => anySpec_runs (fun _ _ => trivial) fs
  readi := fun fs _ _ _ _ _ _ => anySpec_runs (fun _ _ => trivial) fs
  writei := fun fs _ _ _ _ _ _ _ _ => anySpec_runs (fun _ _ => trivial) fs

theorem anySpec_allows (sb : Superblock) (s : Sys P) (p : P) (c : SysCall) :
    anySpec.Allows sb s p c where
  finds := fun _ => anySpec_runs (fun _ _ _ _ => trivial) _
  opens := fun _ _ _ _ _ => anySpec_runs (fun _ _ _ _ => ⟨trivial, fun _ => trivial⟩) _
  creates := fun _ _ _ _ _ => anySpec_runs (fun _ _ => trivial) _
  links := fun _ _ _ => anySpec_runs (fun _ _ => trivial) _
  unlinks := fun _ _ => anySpec_runs (fun _ _ => trivial) _

/- The counts are exact in every run. -/
theorem counted_of_reach [Fintype P] [DecidableEq P] (E : Procs P) {sb : Superblock}
    {Image : Disk → Prop} {Allowed : Sys P → SysAction P → Prop} {s : Sys P}
    (h : (E.system sb Image).Reach Allowed s) : Counted s 0 [] :=
  (good_of_reach E (anySpec_laws sb) (fun _ _ => trivial)
    (fun s p c _ _ _ => anySpec_allows sb s p c)
    (fun _ _ _ _ _ _ => trivial) h).counted

-------
-- Results
-------

variable {P : Type} [Fintype P] [DecidableEq P] {s : Sys P}

/-
  Reference counts are exact after every call of every run,
  from any disk.
-/
theorem reference_counts_are_exact
    (E : Procs P)
    (sb : Superblock)
    (hReach : (E.system sb (fun _ => True)).Reach System.Anything s) :
    (∀ f, (s.ftable f).ref = Fintype.card
        { x : P × Fin NOFILE // (s.proc x.1).ofile x.2 = some f }) ∧
    (∀ i, (s.fs.itable i).ref = Fintype.card
        { f : Fin NFILE // 0 < (s.ftable f).ref ∧
            ((s.ftable f).type = .inode ∨
            (s.ftable f).type = .device) ∧
          (s.ftable f).ip = i } +
        Fintype.card { p : P // (s.proc p).cwd = some i }) ∧
    (∀ f, (s.ftable f).ref = 0 → (s.ftable f).type = .none) ∧
    (∀ p, (s.proc p).state = .unused →
        (∀ fd, (s.proc p).ofile fd = none) ∧ (s.proc p).cwd = none) ∧
    (∀ pi, s.pipes pi ≠ none ↔
        ∃ f, 0 < (s.ftable f).ref ∧ (s.ftable f).type = .pipe ∧
        (s.ftable f).pipe = pi) ∧
    ∀ pi w, endOpen w (s.pipes pi) = true ↔ ∃ f, 0 < (s.ftable f).ref ∧
        (s.ftable f).IsEnd pi w := by
  have h := counted_of_reach E hReach
  exact ⟨h.ref_eq_card, h.iref_eq_card, h.free,
    fun p hp => h.idle p (.inl hp), h.page_iff, h.endOpen_iff⟩

/- A process table with two slots. -/
def pairProcs : Procs Bool where
  procs := [false, true]
  mem_procs := by decide
  initproc := false

/- A pipe that two processes share. -/
theorem counts_of_shared_pipe :
    ∃ s : Sys Bool, (pairProcs.system smallSb (fun _ => True)).Reach System.Anything s ∧
      (s.ftable 0).ref = 2 ∧
      Fintype.card
        { x : Bool × Fin NOFILE // (s.proc x.1).ofile x.2 = some 0 } = 2 := by
  have hRun : ∃ s, (pairProcs.system smallSb (fun _ => True)).run System.Anything
        (pairProcs.boot (fun _ => Bytes.zero))
        [.call false (.pipe (some 5) true), .call false (.fork true)] = some s ∧
      (s.ftable 0).ref = 2 := ⟨_, rfl, rfl⟩
  obtain ⟨s, hRun, hRef⟩ := hRun
  have hStart : (pairProcs.system smallSb (fun _ => True)).Reach System.Anything
        (pairProcs.boot (fun _ => Bytes.zero)) :=
    .init ⟨_, trivial, rfl⟩
  have hReach := System.reach_of_run hStart hRun
  have hCounts := (reference_counts_are_exact pairProcs smallSb hReach).1 0
  refine ⟨s, hReach, hRef, ?_⟩
  omega

end Xv6
