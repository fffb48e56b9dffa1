import Mathlib.Algebra.BigOperators.Ring.Finset
import Xv6.Log.GroupCommitSafety

/-
  Log space: what `begin_op` reserves and what `log_write`
  checks.

  `begin_op` counts on `LOGSIZE` data blocks, `log_write`
  stops at `log.size - 1`. With the log that `mkfs` makes
  these differ by one, so three operations that use all of
  `MAXOPBLOCKS` blocks each do not fit. Operations that stay
  one block below the reservation always fit.

  Key definitions include:
    * `mkfsLog`
    * `opBlocks`
    * `Within`
    * `Reserved`

  The main results are:
    * `full_reservations_panic`
    * `log_space_of_lt_maxopblocks`
-/

open Xv6.LogState

-------
-- Blocks of an Operation
-------

namespace Xv6

variable {P : Type} [DecidableEq P] {tr : List (LogEvent P)}

/- The log area of the superblock that `mkfs` writes. -/
def mkfsLog : LogArea where
  start := 2
  size := LOGSIZE
  pos := by decide

/- The blocks that operation `o` has logged. -/
def loggedBy (o : OpId P) :
    List (LogEvent P) → Finset Nat
| [] => ∅
| .logged o' b :: tr =>
    if o' = o then insert b (loggedBy o tr)
    else loggedBy o tr
| .slot _ _ :: tr => loggedBy o tr
| .head _ :: tr => loggedBy o tr
| .home _ :: tr => loggedBy o tr

/- The blocks logged by the current operation of `p`. -/
def opBlocks (s : LogState P) (p : P) : Finset Nat := loggedBy (s.opId p) s.trace

/- Operations log at most `m` different blocks. -/
def Within (m : Nat) (s : LogState P) :
    LogAction P → Prop
| .logWrite p b => (insert b (opBlocks s p)).card ≤ m
| _ => True

instance (m : Nat) (s : LogState P) (a : LogAction P) : Decidable (Within m s a) := by
  cases a <;> unfold Within <;> infer_instance

theorem mem_loggedBy {o : OpId P} {b : Nat} : b ∈ loggedBy o tr ↔ .logged o b ∈ tr := by
  induction tr with
  | nil => simp [loggedBy]
  | cons e tr ih =>
    cases e with
    | logged o' b' =>
      by_cases ho : o' = o
      · subst ho
        simp [loggedBy, ih]
      · have ho' : o ≠ o' := fun h => ho h.symm
        simp [loggedBy, ih, ho, ho']
    | _ => simp [loggedBy, ih]

omit [DecidableEq P] in
/- An event is after the last header write or before one. -/
theorem mem_sinceHead_or {e : LogEvent P} (hMem : e ∈ tr) (hNot : ∀ bs, e ≠ .head bs) :
    e ∈ sinceHead tr ∨ ∃ ys bs xs, tr = ys ++ .head bs :: xs ∧ e ∈ xs := by
  induction tr with
  | nil => cases hMem
  | cons e' tr ih =>
    rw [List.mem_cons] at hMem
    by_cases hHead : ∃ bs, e' = .head bs
    · right
      rcases hHead with ⟨bs, rfl⟩
      refine ⟨[], bs, tr, rfl, ?_⟩
      rcases hMem with hEq | hTail
      · exact absurd hEq (hNot bs)
      · exact hTail
    have hSince : sinceHead (e' :: tr) = e' :: sinceHead tr := by
      cases e' with
      | head bs => exact absurd ⟨bs, rfl⟩ hHead
      | _ => rfl
    rw [hSince, List.mem_cons]
    rcases hMem with hEq | hTail
    · exact Or.inl (Or.inl hEq)
    · rcases ih hTail with hIn | ⟨ys, bs, xs, hEq, hx⟩
      · exact Or.inl (Or.inr hIn)
      · exact Or.inr ⟨e' :: ys, bs, xs, by rw [hEq]; rfl, hx⟩

/- The blocks of an open operation are in `log.lh`. -/
theorem Recorded.mem_lh_of_opBlocks {L : LogArea} {s : LogState P} (hRec : Recorded L s) {p : P}
    (hPc : s.pc p = .inOp) {b : Nat} (hb : b ∈ opBlocks s p) : b ∈ s.lh := by
  rw [opBlocks, mem_loggedBy] at hb
  rcases mem_sinceHead_or hb (fun _ h => nomatch h) with
    hSince | ⟨ys, bs, xs, hEq, hx⟩
  · exact hRec.listed _ b hSince
  · exact absurd hx (hRec.current ys bs xs hEq p hPc b)

-------
-- Reservations
-------

variable [Fintype P] {m : Nat} {s s' : LogState P} {p q : P} {L : LogArea}

/- What the operation of `p` may still log, of `m` blocks. -/
def reserve (m : Nat) (s : LogState P) (p : P) : Int :=
  if s.pc p = .inOp then m - (opBlocks s p).card else 0

/-
  Logged blocks and outstanding reservations fit; no
  operation has used more than its reservation.
-/
structure Reserved (m : Nat) (s : LogState P) : Prop where
  used : ∀ p, s.pc p = .inOp → (opBlocks s p).card ≤ m
  total : (s.lh.length : Int) + ∑ p, reserve m s p ≤ LOGSIZE - 2

omit [Fintype P] in
theorem Reserved.reserve_nonneg (hUsed : ∀ p, s.pc p = .inOp → (opBlocks s p).card ≤ m) (p : P) :
    0 ≤ reserve m s p := by
  unfold reserve
  split
  · rename_i hPc
    have hLe := hUsed p hPc
    omega
  · exact le_rfl

section

variable (hRes : Reserved m s)
include hRes

/- Steps that open nothing and log nothing. -/
theorem Reserved.moved (hLh : s'.lh.length ≤ s.lh.length) (hOps : ∀ q, opBlocks s' q = opBlocks s q)
    (hPc : ∀ q, s'.pc q = .inOp → s.pc q = .inOp) : Reserved m s' := by
  constructor
  · intro p hp
    rw [hOps p]
    exact hRes.used p (hPc p hp)
  have hLe : ∑ p, reserve m s' p ≤ ∑ p, reserve m s p := by
    apply Finset.sum_le_sum
    intro p _
    by_cases hp : s'.pc p = .inOp
    · simp [reserve, hp, hPc p hp, hOps p]
    · have hZero : reserve m s' p = 0 := by simp [reserve, hp]
      rw [hZero]
      exact Reserved.reserve_nonneg hRes.used p
  have hTotal := hRes.total
  omega

theorem Reserved.setPc {c : Pc} (hc : c ≠ .inOp) : Reserved m (s.setPc p c) := by
  refine hRes.moved le_rfl (fun _ => rfl) ?_
  intro q hq
  by_cases hqp : q = p
  · subst hqp
    rw [setPc_pc, Function.update_self] at hq
    exact absurd hq hc
  · rwa [setPc_pc, Function.update_of_ne hqp] at hq

theorem Reserved.wakeup : Reserved m s.wakeup := by
  refine hRes.moved le_rfl (fun _ => rfl) ?_
  intro q hq
  rwa [s.wakeup_pc_eq_iff q (by simp) (by simp)] at hq

/- Only the list, the places and the trace matter. -/
theorem Reserved.congr (hLh : s'.lh = s.lh) (hPc : s'.pc = s.pc)
    (hOps : opBlocks s' = opBlocks s) : Reserved m s' := by
  apply hRes.moved
  · rw [hLh]
  · intro q
    rw [hOps]
  · intro q hq
    rwa [hPc] at hq

theorem Reserved.endOp (hNext : endOp s p = .next s') : Reserved m s' := by
  have hOut : Reserved m
        { s with outstanding := s.outstanding - 1 } :=
    hRes.congr rfl rfl rfl
  unfold Xv6.endOp at hNext
  dsimp only at hNext
  split at hNext
  · cases hNext
  split at hNext
  · cases hNext
    have hBusy : Reserved m
          { s with
            outstanding := s.outstanding - 1
            committing := true } :=
      hRes.congr rfl rfl rfl
    exact hBusy.setPc (by simp)
  · cases hNext
    exact hOut.wakeup.setPc (by simp)

/- A commit logs nothing. -/
theorem Reserved.commitStep {c : CommitPc} : Reserved m (commitStep L s p c) := by
  cases c with
  | test =>
    simp only [Xv6.commitStep]
    split
    · exact hRes.setPc (by simp)
    · exact hRes.setPc (by simp)
  | writeHead | erase =>
    apply Reserved.setPc
    · exact hRes.congr rfl rfl rfl
    · simp
  | clear =>
    apply Reserved.setPc
    · refine hRes.moved ?_ (fun _ => rfl) (fun _ h => h)
      exact Nat.zero_le _
    · simp
  | finish =>
    have hOpen : Reserved m { s with committing := false } := hRes.congr rfl rfl rfl
    exact hOpen.wakeup.setPc (by simp)
  | _ =>
    simp only [Xv6.commitStep]
    split
    · apply Reserved.setPc
      · exact hRes.congr rfl rfl rfl
      · simp
    · exact hRes.setPc (by simp)

end

omit [Fintype P] in
/- A new operation has not logged anything. -/
theorem Recorded.opBlocks_enter (hRec : Recorded L s) (p : P) : opBlocks (s.enter p) p = ∅ := by
  rw [Finset.eq_empty_iff_forall_notMem]
  intro b hb
  rw [opBlocks, mem_loggedBy] at hb
  have hPast := hRec.past p _ b hb
  simp [LogState.enter] at hPast

omit [Fintype P] in
theorem opBlocks_enter_of_ne (s : LogState P) (hqp : q ≠ p) :
    opBlocks (s.enter p) q = opBlocks s q := by
  simp [opBlocks, opId, enter, hqp]

/-
  `begin_op` admits an operation only if its reservation
  fits. The log is empty when it is the first one, so one
  block per operation remains.
-/
theorem Reserved.enter (hm : m + 1 ≤ MAXOPBLOCKS) (hInv : LogInv L s) (hRes : Reserved m s)
    (hPc : s.pc p = .beginning) (hOpen : s.committing = false)
    (hRoom : ¬ s.Full) : Reserved m (s.enter p) := by
  have hEmpty := hInv.recorded.opBlocks_enter p
  have hUsed : ∀ q, (s.enter p).pc q = .inOp → (opBlocks (s.enter p) q).card ≤ m := by
    intro q hq
    by_cases hqp : q = p
    · subst hqp
      simp [hEmpty]
    · rw [opBlocks_enter_of_ne s hqp]
      apply hRes.used q
      simpa [LogState.enter, hqp] using hq
  refine ⟨hUsed, ?_⟩
  have hExcl := hInv.excl.enter (p := p) (by simp [hPc]) hOpen
  -- Each open operation reserves at most `m` blocks.
  have hSum : ∑ q, reserve m (s.enter p) q ≤ (s.outstanding + 1) * m := by
    have hLe : ∑ q, reserve m (s.enter p) q ≤ ∑ q, (if (s.enter p).pc q = .inOp then
            (1 : Int) else 0) * m := by
      apply Finset.sum_le_sum
      intro q _
      by_cases hq : (s.enter p).pc q = .inOp
      · simp [reserve, hq]
      · simp [reserve, hq]
    have hCount := hExcl.count
    rw [opens] at hCount
    rw [← Finset.sum_mul, ← hCount] at hLe
    exact hLe
  have hMax : (MAXOPBLOCKS : Int) = 10 := rfl
  have hLog : (LOGSIZE : Int) = 30 := rfl
  have hm' : (m : Int) ≤ 9 := by
    omega
  have hNonneg : 0 ≤ s.outstanding := by
    rw [hInv.excl.count]
    apply Finset.sum_nonneg
    intro q _
    split <;> omega
  have hBound : (s.outstanding + 1) * m ≤ (s.outstanding + 1) * 9 :=
    mul_le_mul_of_nonneg_left hm' (by omega)
  unfold LogState.Full at hRoom
  rw [hMax] at hRoom
  change (s.lh.length : Int) + _ ≤ _
  by_cases hFirst : s.outstanding = 0
  · have hNil := hInv.drained.empty hFirst hOpen
    rw [hNil, List.length_nil]
    omega
  · omega

omit [Fintype P] in
theorem opBlocks_addBlock (s : LogState P) (p : P) (b : Nat) :
    opBlocks (s.addBlock p b) p = insert b (opBlocks s p) := by
  simp [opBlocks, addBlock, record, opId, loggedBy]

omit [Fintype P] in
theorem opBlocks_addBlock_of_ne (s : LogState P) (hqp : q ≠ p) (b : Nat) :
    opBlocks (s.addBlock p b) q = opBlocks s q := by
  have hNe : s.opId p ≠ s.opId q := by
    intro hEq
    exact hqp (congrArg OpId.proc hEq).symm
  change loggedBy (s.opId q) (.logged (s.opId p) b :: s.trace) = _
  simp [loggedBy, hNe, opBlocks]

/- A block that is new to the log is new to its operation. -/
theorem Reserved.logWrite
    (hRec : Recorded L s) (hRes : Reserved m s) (hPc : s.pc p = .inOp) {b : Nat}
    (hWithin : Within m s (.logWrite p b)) : Reserved m (s.addBlock p b) := by
  have hWithin' : (insert b (opBlocks s p)).card ≤ m := hWithin
  constructor
  · intro q hq
    by_cases hqp : q = p
    · subst hqp
      rw [opBlocks_addBlock]
      exact hWithin'
    · rw [opBlocks_addBlock_of_ne s hqp]
      exact hRes.used q hq
  have hSum :=
    sum_change (reserve m s) (reserve m (s.addBlock p b)) p (by
        intro q hqp
        unfold reserve
        rw [opBlocks_addBlock_of_ne s hqp]
        rfl)
  have hBefore : reserve m s p = m - (opBlocks s p).card := by simp [reserve, hPc]
  have hAfter : reserve m (s.addBlock p b) p = m - (insert b (opBlocks s p)).card := by
    have hPc' : (s.addBlock p b).pc p = .inOp := hPc
    simp [reserve, hPc', opBlocks_addBlock]
  have hTotal := hRes.total
  rw [hSum, hAfter]
  change ((absorb s.lh b).length : Int) + _ ≤ _
  by_cases hb : b ∈ s.lh
  · have hLen : absorb s.lh b = s.lh := by simp [absorb, hb]
    have hCard := Finset.card_le_card (Finset.subset_insert b (opBlocks s p))
    rw [hLen]
    omega
  have hNew : b ∉ opBlocks s p := by
    intro hMem
    exact hb (hRec.mem_lh_of_opBlocks hPc hMem)
  have hLen : (absorb s.lh b).length = s.lh.length + 1 := by simp [absorb, hb]
  rw [Finset.card_insert_of_notMem hNew]
  omega

theorem Reserved.step {a : LogAction P} (hm : m + 1 ≤ MAXOPBLOCKS) (hInv : LogInv L s)
    (hRes : Reserved m s) (hWithin : Within m s a)
    (hNext : logStep L s a = .next s') : Reserved m s' := by
  cases a with
  | beginOp p =>
    simp only [logStep, beginOp] at hNext
    obtain ⟨hPc, ⟨⟩⟩ := Outcome.of_guard hNext
    split
    · exact hRes.setPc (by simp)
    rename_i hBusy
    split
    · exact hRes.setPc (by simp)
    · rename_i hRoom
      exact hRes.enter hm hInv hPc (by simpa using hBusy) hRoom
  | logWrite p b =>
    simp only [logStep, Xv6.logWrite] at hNext
    obtain ⟨hPc, hNext⟩ := Outcome.of_guard hNext
    split at hNext
    · cases hNext
    · split at hNext
      · cases hNext
      · cases hNext
        exact hRes.logWrite hInv.recorded hPc hWithin
  | endOp p =>
    obtain ⟨hPc, hNext⟩ := Outcome.of_guard hNext
    exact hRes.endOp hNext
  | commit p =>
    simp only [logStep] at hNext
    split at hNext
    · cases hNext
      exact hRes.commitStep
    · cases hNext
  | _ =>
    simp only [logStep] at hNext
    split at hNext
    · cases hNext
      exact hRes.setPc (by simp)
    · cases hNext

end Xv6

-------
-- Slots
-------

namespace Xv6

variable {P : Type} [DecidableEq P] {L : LogArea}

/- The slots written so far are in the log. -/
structure Slotted (L : LogArea) (s : LogState P) : Prop where
  fits : (s.lh.length : Int) ≤ L.size - 1
  area : ∀ a b, .slot a b ∈ s.trace → L.Area a

omit [DecidableEq P] in
theorem Slotted.start (L : LogArea) : Slotted L (LogState.start : LogState P) := by
  have hPos := L.pos
  constructor
  · simp [LogState.start]
    omega
  · simp [LogState.start]

theorem Slotted.commitStep {s : LogState P} (hSlot : Slotted L s) (p : P) (c : CommitPc) :
    Slotted L (commitStep L s p c) := by
  have hPos := L.pos
  have hFits := hSlot.fits
  cases c with
  | test =>
    simp only [Xv6.commitStep]
    split <;> exact ⟨hSlot.fits, hSlot.area⟩
  | writeLog tail =>
    simp only [Xv6.commitStep]
    split
    · rename_i hn
      refine ⟨hSlot.fits, ?_⟩
      intro a b hMem
      simp only [setPc_trace, record, List.mem_cons] at hMem
      rcases hMem with hNew | hOld
      · cases hNew
        constructor <;> omega
      · exact hSlot.area a b hOld
    · exact ⟨hSlot.fits, hSlot.area⟩
  | install tail =>
    simp only [Xv6.commitStep]
    split
    · refine ⟨hSlot.fits, ?_⟩
      intro a b hMem
      apply hSlot.area a b
      simpa [record] using hMem
    · exact ⟨hSlot.fits, hSlot.area⟩
  | clear =>
    refine ⟨?_, hSlot.area⟩
    simp [Xv6.commitStep]
    omega
  | finish => exact ⟨hSlot.fits, hSlot.area⟩
  | _ =>
    refine ⟨hSlot.fits, ?_⟩
    intro a b hMem
    apply hSlot.area a b
    simpa [Xv6.commitStep, record] using hMem

theorem Slotted.step {s s' : LogState P} (hSlot : Slotted L s) (hStep : LogStep L s s') :
    Slotted L s' := by
  cases hStep with
  | logWrite p b _ hSize _ =>
    constructor
    · change ((absorb s.lh b).length : Int) ≤ _
      unfold absorb
      split
      · exact hSlot.fits
      · rw [List.length_append, List.length_singleton]
        omega
    · intro a b' hMem
      apply hSlot.area a b'
      simpa [addBlock, record] using hMem
  | commit p c _ => exact hSlot.commitStep p c
  | _ => exact ⟨hSlot.fits, hSlot.area⟩

end Xv6

-------
-- Log Space
-------

namespace Xv6

/-
  Three operations log ten blocks each; the last block does
  not fit.
-/
theorem full_reservations_panic :
    ∃ s : LogState (Fin 3), (logSystem mkfsLog).Reach (Within MAXOPBLOCKS) s ∧
      Within MAXOPBLOCKS s (.logWrite 2 129) ∧
      logStep mkfsLog s (.logWrite 2 129) = .fault .tooBigTransaction := by
  have hFaults : (logSystem mkfsLog).faults (Within (P := Fin 3) MAXOPBLOCKS) start
        ([.callBegin 0, .callBegin 1, .callBegin 2, .beginOp 0, .beginOp 1, .beginOp 2] ++
          (List.range 10).map (fun i => .logWrite 0 (100 + i)) ++
          (List.range 10).map (fun i => .logWrite 1 (110 + i)) ++
          (List.range 9).map (fun i => .logWrite 2 (120 + i)))
        (.logWrite 2 129) .tooBigTransaction = true := by
    decide
  exact System.exists_fault (.init rfl) hFaults

variable {P : Type} [DecidableEq P] [Fintype P]

theorem Reserved.start (m : Nat) : Reserved m (LogState.start : LogState P) := by
  constructor
  · intro p hp
    cases hp
  have hZero : ∑ p, reserve m (LogState.start : LogState P) p =
        0 := by
    apply Finset.sum_eq_zero
    intro p _
    simp [reserve, LogState.start]
  rw [hZero]
  simp [LogState.start]

theorem reserved_of_reach {L : LogArea} {m : Nat} (hm : m + 1 ≤ MAXOPBLOCKS) {s : LogState P}
    (hReach : (logSystem L).Reach (Within m) s) : Reserved m s ∧ Slotted L s := by
  induction hReach with
  | init hInit =>
    cases hInit
    exact ⟨Reserved.start m, Slotted.start L⟩
  | step hReach hWithin hNext ih =>
    have hInv := logInv_of_reach hReach
    exact ⟨ih.1.step hm hInv hWithin hNext, ih.2.step (logStep_next hNext)⟩

/-
  If every operation logs fewer than `MAXOPBLOCKS` blocks,
  `log_write` finds room and the slots are in the log.
-/
theorem log_space_of_lt_maxopblocks
    {s : LogState P}
    (hReach : (logSystem mkfsLog).Reach (Within (MAXOPBLOCKS - 1)) s) :
    (∀ a, logStep mkfsLog s a ≠ .fault .tooBigTransaction) ∧
    ∀ addr b, .slot addr b ∈ s.trace → mkfsLog.Area addr := by
  rcases reserved_of_reach (by decide) hReach with
    ⟨hRes, hSlot⟩
  refine ⟨?_, hSlot.area⟩
  intro a hFault
  have hSum : 0 ≤ ∑ p, reserve (MAXOPBLOCKS - 1) s p :=
    Finset.sum_nonneg (fun p _ => Reserved.reserve_nonneg hRes.used p)
  have hTotal := hRes.total
  have hLog : LOGSIZE = 30 := rfl
  have hSize : mkfsLog.size = 30 := rfl
  cases a with
  | logWrite p b =>
    simp only [logStep, logWrite] at hFault
    split at hFault
    · split at hFault
      · omega
      · split at hFault <;> cases hFault
    · cases hFault
  | endOp p =>
    simp only [logStep, endOp] at hFault
    split at hFault
    · split at hFault
      · cases hFault
      · split at hFault <;> cases hFault
    · cases hFault
  | _ =>
    simp only [logStep] at hFault
    split at hFault <;> cases hFault

/- An operation of two blocks. -/
theorem log_space_of_two_blocks :
    ∃ s : LogState Unit, (logSystem mkfsLog).run (Within (MAXOPBLOCKS - 1)) LogState.start
          [.callBegin (), .beginOp (), .logWrite () 100, .logWrite () 101] =
        some s ∧
      ∀ a, logStep mkfsLog s a ≠ .fault .tooBigTransaction := by
  have hRun : ∃ s : LogState Unit, (logSystem mkfsLog).run (Within (MAXOPBLOCKS - 1)) start
            [.callBegin (), .beginOp (), .logWrite () 100, .logWrite () 101] =
          some s :=
    ⟨_, rfl⟩
  rcases hRun with ⟨s, hRun⟩
  have hReach := System.reach_of_run (.init rfl) hRun
  exact ⟨s, hRun, (log_space_of_lt_maxopblocks hReach).1⟩

end Xv6
