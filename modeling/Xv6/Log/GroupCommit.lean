import Xv6.Lib.System
import Xv6.Log.Commit

/-
  The group commit protocol of `log.c`: `begin_op`,
  `log_write`, `end_op` and the steps of `commit`, run by
  any number of processes.

  A section of code that runs under `log.lock` is one step.
  `commit` runs without the lock and is cut into its disk
  writes. `sleep(&log, &log.lock)` and `wakeup(&log)` move
  processes between `asleep` and `beginning`.

  The trace is not part of the kernel: it records, newest
  first, which operation logged which block and what a
  commit wrote.

  Key definitions include:
    * `Pc`
    * `LogState`
    * `logStep`
    * `logSystem`
    * `LogStep`

  Every step is one of the cases of `LogStep`:
    * `logStep_next`
-/

-------
-- States
-------

namespace Xv6

/- Where a process is inside `commit`. -/
inductive CommitPc where
  | test
  | writeLog (tail : Nat)
  | writeHead
  | install (tail : Nat)
  | clear
  | erase
  | finish
  deriving DecidableEq

/- Where a process is relative to `begin_op` and `end_op`. -/
inductive Pc where
  | idle
  | beginning
  | asleep
  | inOp
  | commit (c : CommitPc)
  deriving DecidableEq

/- The `k`-th operation of a process. -/
structure OpId (P : Type) where
  proc : P
  index : Nat
  deriving DecidableEq

/- What the trace records. -/
inductive LogEvent (P : Type) where
  | logged (o : OpId P) (b : Nat)
  | slot (addr b : Nat)
  | head (bs : List Nat)
  | home (b : Nat)

structure LogState (P : Type) where
  outstanding : Int
  committing : Bool
  lh : List Nat
  pc : P → Pc
  index : P → Nat
  trace : List (LogEvent P)

/- What a process or the scheduler can do next. -/
inductive LogAction (P : Type) where
  | callBegin (p : P)
  | beginOp (p : P)
  | kill (p : P)
  | logWrite (p : P) (b : Nat)
  | endOp (p : P)
  | commit (p : P)

-------
-- Effects
-------

variable {P : Type} [DecidableEq P]

namespace LogState

/- The state after `initlog` on a recovered disk. -/
def start : LogState P where
  outstanding := 0
  committing := false
  lh := []
  pc := fun _ => .idle
  index := fun _ => 0
  trace := []

def setPc (s : LogState P) (p : P) (c : Pc) : LogState P :=
  { s with pc := Function.update s.pc p c }

def record (s : LogState P) (e : LogEvent P) : LogState P :=
  { s with trace := e :: s.trace }

/- `wakeup(&log)`. -/
def wakeup (s : LogState P) : LogState P :=
  { s with
    pc := fun q => if s.pc q = .asleep then .beginning else s.pc q }

/- The current operation of a process. -/
def opId (s : LogState P) (p : P) : OpId P := ⟨p, s.index p⟩

/- `begin_op` returns. -/
def enter (s : LogState P) (p : P) : LogState P :=
  { s with
    outstanding := s.outstanding + 1
    pc := Function.update s.pc p .inOp
    index := Function.update s.index p (s.index p + 1) }

/- The list after `log_write`, with log absorption. -/
def absorb (lh : List Nat) (b : Nat) : List Nat := if b ∈ lh then lh else lh ++ [b]

def addBlock (s : LogState P) (p : P) (b : Nat) : LogState P :=
  { s.record (.logged (s.opId p) b) with
    lh := absorb s.lh b }

/- The test of `begin_op`, once no commit is running. -/
def Full (s : LogState P) : Prop :=
  (LOGSIZE : Int) < s.lh.length + (s.outstanding + 1) * MAXOPBLOCKS

instance (s : LogState P) : Decidable s.Full := inferInstanceAs (Decidable (_ < _))

end LogState

-------
-- Steps
-------

/- One turn of the loop of `begin_op`. -/
def beginOp (s : LogState P) (p : P) : LogState P :=
  if s.committing then s.setPc p .asleep
  else if s.Full then s.setPc p .asleep
  else s.enter p

/- `log_write`. -/
def logWrite (L : LogArea) (s : LogState P) (p : P) (b : Nat) : Outcome Panic (LogState P) :=
  if LOGSIZE ≤ s.lh.length ∨ (L.size : Int) - 1 ≤ s.lh.length then
    .fault .tooBigTransaction
  else if s.outstanding < 1 then
    .fault .logWriteOutsideTrans
  else .next (s.addBlock p b)

/- The part of `end_op` before it may call `commit`. -/
def endOp (s : LogState P) (p : P) : Outcome Panic (LogState P) :=
  let s' := { s with outstanding := s.outstanding - 1 }
  if s'.committing then .fault .logCommitting
  else if s'.outstanding = 0 then
    .next ({ s' with committing := true }.setPc p (.commit .test))
  else .next (s'.wakeup.setPc p .idle)

/- A step of `commit`, or the end of `end_op` after it. -/
def commitStep (L : LogArea) (s : LogState P) (p : P) : CommitPc → LogState P
| .test =>
    if 0 < s.lh.length then
      s.setPc p (.commit (.writeLog 0))
    else s.setPc p (.commit .finish)
| .writeLog tail =>
    if tail < s.lh.length then
      (s.record (.slot (L.start + tail + 1) (s.lh.getD tail 0))).setPc p
        (.commit (.writeLog (tail + 1)))
    else s.setPc p (.commit .writeHead)
| .writeHead => (s.record (.head s.lh)).setPc p (.commit (.install 0))
| .install tail =>
    if tail < s.lh.length then
      (s.record (.home (s.lh.getD tail 0))).setPc p (.commit (.install (tail + 1)))
    else s.setPc p (.commit .clear)
| .clear => { s with lh := [] }.setPc p (.commit .erase)
| .erase => (s.record (.head s.lh)).setPc p (.commit .finish)
| .finish =>
    { s with committing := false }.wakeup.setPc p .idle

/- The effect of an action, if its process can take it. -/
def logStep (L : LogArea) (s : LogState P) :
    LogAction P → Outcome Panic (LogState P)
| .callBegin p =>
    if s.pc p = .idle then .next (s.setPc p .beginning)
    else .disabled
| .beginOp p =>
    if s.pc p = .beginning then .next (beginOp s p)
    else .disabled
| .kill p =>
    -- `kill` makes a sleeping process runnable.
    if s.pc p = .asleep then .next (s.setPc p .beginning)
    else .disabled
| .logWrite p b =>
    if s.pc p = .inOp then logWrite L s p b
    else .disabled
| .endOp p => if s.pc p = .inOp then endOp s p else .disabled
| .commit p =>
    match s.pc p with
    | .commit c => .next (commitStep L s p c)
    | _ => .disabled

/- The processes that use the log in `L`. -/
def logSystem (L : LogArea) :
    System (LogState P) (LogAction P) Panic where
  init := fun s => s = LogState.start
  step := logStep L

-------
-- Step Cases
-------

variable {L : LogArea} {s s' : LogState P} {p : P}

/- All ways to go from one state to the next. -/
inductive LogStep (L : LogArea) (s : LogState P) : LogState P → Prop where
  | wait (p : P) (hPc : s.pc p = .idle ∨ s.pc p = .asleep) :
      LogStep L s (s.setPc p .beginning)
  | sleep (p : P) (hPc : s.pc p = .beginning)
      (hFull : s.committing = true ∨ s.Full) :
      LogStep L s (s.setPc p .asleep)
  | enter (p : P) (hPc : s.pc p = .beginning)
      (hOpen : s.committing = false) (hRoom : ¬ s.Full) :
      LogStep L s (s.enter p)
  | logWrite (p : P) (b : Nat) (hPc : s.pc p = .inOp)
      (hSize : (s.lh.length : Int) < L.size - 1)
      (hLen : s.lh.length < LOGSIZE) : LogStep L s (s.addBlock p b)
  | endOp (p : P) (hPc : s.pc p = .inOp) (hOpen : s.committing = false)
      (hMore : s.outstanding - 1 ≠ 0) : LogStep L s ({ s with
          outstanding := s.outstanding - 1 }.wakeup.setPc p .idle)
  | endLast (p : P) (hPc : s.pc p = .inOp) (hOpen : s.committing = false)
      (hLast : s.outstanding - 1 = 0) : LogStep L s ({ s with
          outstanding := s.outstanding - 1
          committing := true }.setPc p (.commit .test))
  | commit (p : P) (c : CommitPc) (hPc : s.pc p = .commit c) :
      LogStep L s (commitStep L s p c)

theorem beginOp_cases (hPc : s.pc p = .beginning) : LogStep L s (beginOp s p) := by
  unfold beginOp
  by_cases hBusy : s.committing = true
  · rw [if_pos hBusy]
    exact .sleep p hPc (Or.inl hBusy)
  rw [if_neg hBusy]
  by_cases hFull : s.Full
  · rw [if_pos hFull]
    exact .sleep p hPc (Or.inr hFull)
  · rw [if_neg hFull]
    exact .enter p hPc (by simpa using hBusy) hFull

omit [DecidableEq P] in
/- What `log_write` does when it does not panic. -/
theorem logWrite_next {b : Nat} (hNext : logWrite L s p b = .next s') :
    s' = s.addBlock p b ∧ s.lh.length < LOGSIZE ∧ (s.lh.length : Int) < L.size - 1 := by
  unfold logWrite at hNext
  split at hNext
  · cases hNext
  · split at hNext
    · cases hNext
    · cases hNext
      exact ⟨rfl, by omega, by omega⟩

/- The two ways in which `end_op` goes on. -/
theorem endOp_next (hNext : endOp s p = .next s') :
    s.committing = false ∧ (s.outstanding - 1 ≠ 0 ∧ s' =
        { s with
          outstanding := s.outstanding - 1 }.wakeup.setPc p .idle ∨
      s.outstanding - 1 = 0 ∧ s' =
        { s with
          outstanding := s.outstanding - 1
          committing := true }.setPc p (.commit .test)) := by
  unfold endOp at hNext
  dsimp only at hNext
  split at hNext
  · cases hNext
  next hBusy =>
    refine ⟨by simpa using hBusy, ?_⟩
    split at hNext
    · next hLast =>
        cases hNext
        exact .inr ⟨hLast, rfl⟩
    · next hMore =>
        cases hNext
        exact .inl ⟨hMore, rfl⟩

/- The step function takes only these steps. -/
theorem logStep_next {a : LogAction P} (hNext : logStep L s a = .next s') : LogStep L s s' := by
  unfold logStep at hNext
  cases a with
  | callBegin p =>
    obtain ⟨hPc, ⟨⟩⟩ := Outcome.of_guard hNext
    exact .wait p (Or.inl hPc)
  | beginOp p =>
    obtain ⟨hPc, ⟨⟩⟩ := Outcome.of_guard hNext
    exact beginOp_cases hPc
  | kill p =>
    obtain ⟨hPc, ⟨⟩⟩ := Outcome.of_guard hNext
    exact .wait p (Or.inr hPc)
  | logWrite p b =>
    obtain ⟨hPc, hNext⟩ := Outcome.of_guard hNext
    obtain ⟨rfl, hLen, hSize⟩ := logWrite_next hNext
    exact .logWrite p b hPc hSize hLen
  | endOp p =>
    obtain ⟨hPc, hNext⟩ := Outcome.of_guard hNext
    rcases endOp_next hNext with ⟨hOpen, ⟨hMore, rfl⟩ | ⟨hLast, rfl⟩⟩
    · exact .endOp p hPc hOpen hMore
    · exact .endLast p hPc hOpen hLast
  | commit p =>
    dsimp only at hNext
    split at hNext
    · rename_i c hPc
      cases hNext
      exact .commit p c hPc
    · cases hNext

end Xv6
