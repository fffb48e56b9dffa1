import Xv6.Pipe.Pipe

/-
  A pipe is a queue, and nobody sleeps on a pipe that is
  ready.

  The second property fails when a writer is killed between
  two bytes: it then leaves without waking up the readers.

  Key definitions include:
    * `PipeStep`
    * `Queued`
    * `Attended`

  The main results are:
    * `pipe_is_fifo`
    * `killed_writer_strands_reader`
    * `pipe_sleepers_have_to_wait`
-/

open Xv6.PipeState

-------
-- Step Cases
-------

namespace Xv6

variable {P : Type} [DecidableEq P] {s s' : PipeState P}

/- All ways to go from one state to the next. -/
inductive PipeStep (s : PipeState P) :
    PipeAction P → PipeState P → Prop where
  | call {a : PipeAction P} (p : P) (r : Int) (c : PipePc)
      (hPc : s.pc p = .out r)
      (hc : (∃ n, c = .wStart n 0) ∨ ∃ n, c = .rStart n) :
      PipeStep s a (s.setPc p c)
  | lock {a : PipeAction P} (p : P) (c : PipePc) (hFree : s.lock = none)
      (hc : (∃ n i, s.pc p = .wStart n i ∧ c = .wLoop n i) ∨
          ∃ n, s.pc p = .rStart n ∧ c = .rLoop n) :
      PipeStep s a ({ s with lock := some p }.setPc p c)
  | giveUp {a : PipeAction P} (p : P) (hLock : s.lock = some p)
      (hc : (∃ n i, s.pc p = .wLoop n i ∧
          (s.pipe.readopen = false ∨ s.killed p = true)) ∨
          ∃ n, s.pc p = .rLoop n) : PipeStep s a (s.setPc p (.unlock (-1)))
  | tryPut {a : PipeAction P} (p : P) (n : Int) (i : Nat)
      (hLock : s.lock = some p)
      (hPc : s.pc p = .wLoop n i) (hOpen : s.pipe.readopen = true)
      (hAlive : s.killed p = false) :
      PipeStep s a (s.setPc p (.wBody n i))
  | full {a : PipeAction P} (p : P) (n : Int) (i : Nat)
      (hLock : s.lock = some p)
      (hPc : s.pc p = .wBody n i) (hFull : s.pipe.Full) :
      PipeStep s a ((s.wakeup .nread).setPc p (.wFull n i))
  | put {a : PipeAction P} (p : P) (n : Int) (i : Nat) (x : UInt8)
      (hLock : s.lock = some p)
      (hPc : s.pc p = .wBody n i) (hRoom : ¬ s.pipe.Full) :
      PipeStep s a ((s.putByte x).setPc p (.wLoop n (i + 1)))
  | wroteAll {a : PipeAction P} (p : P) (r : Int) (hLock : s.lock = some p)
      (hPc : (∃ n i, s.pc p = .wLoop n i) ∨ ∃ n i, s.pc p = .wBody n i) :
      PipeStep s a (s.setPc p (.wakeReaders r))
  | sleep {a : PipeAction P} (p : P) (c : PipePc) (hLock : s.lock = some p)
      (hc : (∃ n i, s.pc p = .wFull n i ∧ c = .wSleep n i) ∨
          ∃ n, s.pc p = .rEmpty n ∧ c = .rSleep n) :
      PipeStep s a ({ s with lock := none }.setPc p c)
  | wakeReaders {a : PipeAction P} (p : P) (r : Int) (hLock : s.lock = some p)
      (hPc : s.pc p = .wakeReaders r) :
      PipeStep s a ((s.wakeup .nread).setPc p (.unlock r))
  | tryTake {a : PipeAction P} (p : P) (n : Int)
      (hLock : s.lock = some p) (hPc : s.pc p = .rLoop n)
      (hEmpty : s.pipe.Empty) (hOpen : s.pipe.writeopen = true) :
      PipeStep s a (s.setPc p (.rEmpty n))
  | startCopy {a : PipeAction P} (p : P) (n : Int) (hLock : s.lock = some p)
      (hPc : s.pc p = .rLoop n) : PipeStep s a (s.setPc p (.rCopy n 0))
  | take {a : PipeAction P} (p : P) (n : Int) (i : Nat) (c : PipePc)
      (hLock : s.lock = some p)
      (hPc : s.pc p = .rCopy n i) (hSome : ¬ s.pipe.Empty)
      (hc : c = .rCopy n (i + 1) ∨ c = .wakeWriters i) :
      PipeStep s a (s.takeByte.setPc p c)
  | readAll {a : PipeAction P} (p : P) (n : Int) (i : Nat)
      (hLock : s.lock = some p)
      (hPc : s.pc p = .rCopy n i) : PipeStep s a (s.setPc p (.wakeWriters i))
  | wakeWriters {a : PipeAction P} (p : P) (r : Int) (hLock : s.lock = some p)
      (hPc : s.pc p = .wakeWriters r) :
      PipeStep s a ((s.wakeup .nwrite).setPc p (.unlock r))
  | unlock {a : PipeAction P} (p : P) (r : Int) (hLock : s.lock = some p)
      (hPc : s.pc p = .unlock r) :
      PipeStep s a ({ s with lock := none }.setPc p (.out r))
  | close {a : PipeAction P} (writable : Bool) (hFree : s.lock = none) :
      PipeStep s a (pipeclose s writable)
  | kill (p : P) : PipeStep s (.kill p) (pipeKill s p)

/- The steps of a process that holds the lock. -/
theorem pipeRun_next {p : P} {ch : Option UInt8} {ok : Bool} {c : PipePc} (a : PipeAction P)
    (hLock : s.lock = some p) (hPc : s.pc p = c) (hNext : pipeRun s p ch ok c = .next s') :
    PipeStep s a s' := by
  cases c with
  | wLoop n i =>
    rw [pipeRun] at hNext
    split at hNext
    · split at hNext
      · next hStop =>
          cases hNext
          exact .giveUp p hLock (.inl ⟨n, i, hPc, hStop⟩)
      · next hStop =>
          cases hNext
          obtain ⟨hOpen, hAlive⟩ := not_or.mp hStop
          exact .tryPut p n i hLock hPc (by simpa using hOpen) (by simpa using hAlive)
    · cases hNext
      exact .wroteAll p i hLock (.inl ⟨n, i, hPc⟩)
  | wBody n i =>
    cases ch with
    | none =>
      rw [pipeRun] at hNext
      split at hNext
      · next hFull =>
          cases hNext
          exact .full p n i hLock hPc hFull
      · cases hNext
        exact .wroteAll p i hLock (.inr ⟨n, i, hPc⟩)
    | some x =>
      rw [pipeRun] at hNext
      split at hNext
      · next hFull =>
          cases hNext
          exact .full p n i hLock hPc hFull
      · next hRoom =>
          cases hNext
          exact .put p n i x hLock hPc hRoom
  | wFull n i =>
    cases hNext
    exact .sleep p _ hLock (.inl ⟨n, i, hPc, rfl⟩)
  | wakeReaders r =>
    cases hNext
    exact .wakeReaders p r hLock hPc
  | rLoop n =>
    rw [pipeRun] at hNext
    split at hNext
    · next hWait =>
        split at hNext
        · cases hNext
          exact .giveUp p hLock (.inr ⟨n, hPc⟩)
        · cases hNext
          exact .tryTake p n hLock hPc hWait.1 hWait.2
    · cases hNext
      exact .startCopy p n hLock hPc
  | rEmpty n =>
    cases hNext
    exact .sleep p _ hLock (.inr ⟨n, hPc, rfl⟩)
  | rCopy n i =>
    rw [pipeRun] at hNext
    split at hNext
    · next hMore =>
        split at hNext
        · cases hNext
          exact .take p n i _ hLock hPc hMore.2 (.inl rfl)
        · cases hNext
          exact .take p n i _ hLock hPc hMore.2 (.inr rfl)
    · cases hNext
      exact .readAll p n i hLock hPc
  | wakeWriters r =>
    cases hNext
    exact .wakeWriters p r hLock hPc
  | unlock r =>
    cases hNext
    exact .unlock p r hLock hPc
  | _ => cases hNext

/- The step function takes only these steps. -/
theorem pipeStep_next {a : PipeAction P} (hNext : pipeStep s a = .next s') : PipeStep s a s' := by
  unfold pipeStep at hNext
  cases a with
  | write p n =>
    dsimp only at hNext
    split at hNext
    · next r hPc =>
        cases hNext
        exact .call p r _ hPc (.inl ⟨n, rfl⟩)
    · cases hNext
  | read p n =>
    dsimp only at hNext
    split at hNext
    · next r hPc =>
        cases hNext
        exact .call p r _ hPc (.inr ⟨n, rfl⟩)
    · cases hNext
  | acquire p =>
    obtain ⟨hFree, hNext⟩ := Outcome.of_guard hNext
    split at hNext
    · next n i hPc =>
        cases hNext
        exact .lock p _ hFree.1 (.inl ⟨n, i, hPc, rfl⟩)
    · next n hPc =>
        cases hNext
        exact .lock p _ hFree.1 (.inr ⟨n, hPc, rfl⟩)
    · cases hNext
  | run p ch ok =>
    dsimp only at hNext
    split at hNext
    · next hLock => exact pipeRun_next _ hLock rfl hNext
    · cases hNext
  | close writable =>
    obtain ⟨hFree, ⟨⟩⟩ := Outcome.of_guard hNext
    exact .close writable hFree.1
  | kill p =>
    cases hNext
    exact .kill p

-------
-- Queue
-------

variable {a : PipeAction P}

theorem Pipe.empty_iff (pi : Pipe) : pi.Empty ↔ pi.ring.unread = 0 :=
  pi.ring.unread_eq_zero_iff.symm

theorem Pipe.full_iff (pi : Pipe) : pi.Full ↔ pi.ring.unread = PIPESIZE :=
  (pi.ring.unread_eq_iff (by decide)).symm

section

omit [DecidableEq P]

/- The ring holds what was put in and not yet taken out. -/
structure Queued (s : PipeState P) : Prop where
  bound : s.pipe.ring.unread ≤ PIPESIZE
  bytes : s.put = s.got ++ s.pipe.ring.contents PIPESIZE

theorem Queued.start (h : s.Start) : Queued s := by
  obtain ⟨hRead, hWrite, _, _, _, _, _, hPut, hGot⟩ := h
  have hZero : s.pipe.ring.unread = 0 := by rw [RingBuffer.unread_eq_zero_iff, hRead, hWrite]
  constructor
  · omega
  · rw [hPut, hGot, RingBuffer.contents, hZero]
    rfl

theorem Queued.congr (h : Queued s) (hRing : s'.pipe.ring = s.pipe.ring) (hPut : s'.put = s.put)
    (hGot : s'.got = s.got) : Queued s' := by
  constructor
  · rw [hRing]
    exact h.bound
  · rw [hRing, hPut, hGot]
    exact h.bytes

theorem Queued.lt_of_not_full (h : Queued s) (hRoom : ¬ s.pipe.Full) :
    s.pipe.ring.unread < PIPESIZE := by
  rw [Pipe.full_iff] at hRoom
  have hBound := h.bound
  omega

theorem Queued.put (h : Queued s) (hRoom : ¬ s.pipe.Full) (x : UInt8) : Queued (s.putByte x) := by
  have hLt := h.lt_of_not_full hRoom
  constructor
  · have hPush := RingBuffer.unread_push (show PIPESIZE < 2 ^ 32 by decide) hLt x
    change (s.pipe.ring.push PIPESIZE x).unread ≤ PIPESIZE
    omega
  · change s.put ++ [x] = s.got ++ (s.pipe.ring.push PIPESIZE x).contents PIPESIZE
    rw [RingBuffer.contents_push (by decide) (by decide) hLt, h.bytes, List.append_assoc]

theorem Queued.take (h : Queued s) (hSome : ¬ s.pipe.Empty) : Queued s.takeByte := by
  have hPos : 0 < s.pipe.ring.unread := by
    rw [Pipe.empty_iff] at hSome
    omega
  constructor
  · have hPop := RingBuffer.unread_pop hPos
    have hBound := h.bound
    change s.pipe.ring.pop.unread ≤ PIPESIZE
    omega
  · change s.put = s.got ++ [s.pipe.ring.front PIPESIZE] ++ s.pipe.ring.pop.contents PIPESIZE
    rw [h.bytes, List.append_assoc, RingBuffer.contents_pop (show PIPESIZE ∣ 2 ^ 32 by decide) hPos]
    rfl

end

theorem Queued.step (h : Queued s) (hStep : PipeStep s a s') : Queued s' := by
  cases hStep with
  | put p n i x hLock hPc hRoom => exact (h.put hRoom x).congr rfl rfl rfl
  | take p n i c hLock hPc hSome hc => exact (h.take hSome).congr rfl rfl rfl
  | close writable hFree =>
    cases writable with
    | _ => exact h.congr rfl rfl rfl
  | _ => exact h.congr rfl rfl rfl

/- No step touches a byte that is still to be read. -/
theorem Queued.unread_kept (h : Queued s) (hStep : PipeStep s a s') {j : Nat}
    (hj : j < s.pipe.ring.unread) :
    s'.pipe.ring.data ((s.pipe.ring.nread.toNat + j) % PIPESIZE) =
      s.pipe.ring.data ((s.pipe.ring.nread.toNat + j) % PIPESIZE) := by
  cases hStep with
  | put p n i x hLock hPc hRoom =>
    exact RingBuffer.data_push (show PIPESIZE ∣ 2 ^ 32 by decide) (h.lt_of_not_full hRoom) hj x
  | close writable hFree =>
    cases writable with
    | true | false => rfl
  | _ => rfl

/-
  The bytes taken out of a pipe are the first of those put
  in, the others are still in the ring, and no step touches
  these.
-/
theorem pipe_is_fifo
    {s : PipeState P}
    (hReach : pipeSystem.Reach System.Anything s) :
    (s.pipe.ring.nwrite - s.pipe.ring.nread).toNat ≤ PIPESIZE ∧
      s.got <+: s.put ∧
      s.put = s.got ++ s.pipe.ring.contents PIPESIZE ∧
      ∀ a s', pipeStep s a = .next s' →
        ∀ j < (s.pipe.ring.nwrite - s.pipe.ring.nread).toNat,
          s'.pipe.ring.data ((s.pipe.ring.nread.toNat + j) % PIPESIZE) =
            s.pipe.ring.data
              ((s.pipe.ring.nread.toNat + j) % PIPESIZE) := by
  have h : Queued s :=
    hReach.invariant (fun _ => Queued.start) (fun _ _ _ hOld _ hNext =>
        hOld.step (pipeStep_next hNext))
  refine ⟨h.bound, ⟨_, h.bytes.symm⟩, h.bytes, ?_⟩
  intro a s' hNext j hj
  exact h.unread_kept (pipeStep_next hNext) hj

/- A writer puts in two bytes and a reader takes out one. -/
theorem pipe_is_fifo_of_two_bytes :
    ∃ s : PipeState (Fin 2), pipeSystem.Reach System.Anything s ∧
      s.put = [7, 8] ∧ s.got = [7] ∧ s.got <+: s.put := by
  have hRun : ∃ s : PipeState (Fin 2), pipeSystem.run System.Anything start
            [.write 0 2, .acquire 0, .run 0 none true, .run 0 (some 7) true, .run 0 none true,
              .run 0 (some 8) true, .run 0 none true,
              .run 0 none true, .run 0 none true,
              .read 1 1, .acquire 1, .run 1 none true,
              .run 1 none true] = some s ∧
          s.put = [7, 8] ∧ s.got = [7] :=
    ⟨_, rfl, rfl, rfl⟩
  obtain ⟨s, hRun, hPut, hGot⟩ := hRun
  have hReach : pipeSystem.Reach System.Anything s :=
    System.reach_of_run (.init start_start) hRun
  exact ⟨s, hReach, hPut, hGot, (pipe_is_fifo hReach).2.1⟩

-------
-- Sleepers
-------

namespace PipeState

/- Who sleeps on `&pi->nread` has nothing to read. -/
def ReadersWait (s : PipeState P) : Prop :=
  ∀ q, (s.pc q).chan = some .nread → s.pipe.Empty ∧ s.pipe.writeopen = true

/- Who sleeps on `&pi->nwrite` has no room. -/
def WritersWait (s : PipeState P) : Prop :=
  ∀ q, (s.pc q).chan = some .nwrite → s.pipe.Full ∧ s.pipe.readopen = true

/-
  What holds where a process `p` is while it has the lock. A
  writer that may have put in a byte owes the readers a
  wakeup, so it has to get to the end of the loop.
-/
def Here (s : PipeState P) (p : P) : PipePc → Prop
| .wLoop _ _ => s.WritersWait ∧ (s.ReadersWait ∨ s.killed p = false ∧ s.pipe.readopen = true)
| .wBody _ _ => s.WritersWait ∧ s.killed p = false ∧ s.pipe.readopen = true
| .wFull _ _ => s.WritersWait ∧ s.ReadersWait ∧ s.pipe.Full ∧ s.pipe.readopen = true
| .wakeReaders _ => s.WritersWait
| .rLoop _ => s.WritersWait ∧ s.ReadersWait
| .rEmpty _ => s.WritersWait ∧ s.ReadersWait ∧ s.pipe.Empty ∧ s.pipe.writeopen = true
| .rCopy _ _ => s.ReadersWait
| .wakeWriters _ => s.ReadersWait
| .unlock _ => s.WritersWait ∧ s.ReadersWait
| _ => False

end PipeState

theorem PipePc.chan_woken (c : PipePc) : c.woken.chan = none := by
  cases c with
  | _ => rfl

theorem PipePc.woken_of_locked {c : PipePc} (h : c.locked = true) : c.woken = c := by
  cases c with
  | wSleep | rSleep => cases h
  | _ => rfl

/- Waking a process up does not give it the lock. -/
theorem PipePc.locked_woken (c : PipePc) : c.woken.locked = c.locked := by
  cases c with
  | _ => rfl

theorem PipeState.setPc_self (s : PipeState P) (p : P) (c : PipePc) : (s.setPc p c).pc p = c :=
  Function.update_self ..

theorem PipeState.setPc_other (s : PipeState P) {p q : P} (c : PipePc) (h : q ≠ p) :
    (s.setPc p c).pc q = s.pc q :=
  Function.update_of_ne h ..

/- Who sleeps after a step of `p` slept before it. -/
theorem PipeState.chan_setPc {s : PipeState P} {p q : P} {c : PipePc} {ch : PipeChan}
    (h : ((s.setPc p c).pc q).chan = some ch) (hAwake : (c.chan == some ch) = false) :
    (s.pc q).chan = some ch := by
  by_cases hq : q = p
  · subst hq
    rw [s.setPc_self] at h
    simp [h] at hAwake
  · rwa [s.setPc_other c hq] at h

/-
  Nobody is inside without the lock, nobody sleeps without a
  reason while the lock is free, and the holder keeps to what
  holds where it is.
-/
structure Attended (s : PipeState P) : Prop where
  alone : ∀ q, (s.pc q).locked = true → s.lock = some q
  free : s.lock = none → s.WritersWait ∧ s.ReadersWait
  held : ∀ p, s.lock = some p → s.Here p (s.pc p)

variable {p : P} {c : PipePc}

section Waits

omit [DecidableEq P]

/- `wakeup` leaves nobody asleep on its channel. -/
theorem PipeState.chan_wakeup {s : PipeState P} {q : P} {ch ch' : PipeChan}
    (h : ((s.wakeup ch).pc q).chan = some ch') : ch' ≠ ch ∧ (s.pc q).chan = some ch' := by
  change (if (s.pc q).chan = some ch then (s.pc q).woken
      else s.pc q).chan = some ch' at h
  split at h
  · rw [PipePc.chan_woken] at h
    cases h
  next hOther =>
    refine ⟨?_, h⟩
    intro hEq
    subst hEq
    exact hOther h

theorem PipeState.locked_wakeup (s : PipeState P) (ch : PipeChan) (q : P) :
    ((s.wakeup ch).pc q).locked = (s.pc q).locked := by
  change (if (s.pc q).chan = some ch then (s.pc q).woken
      else s.pc q).locked = (s.pc q).locked
  split
  · exact PipePc.locked_woken _
  · rfl

/- A step that puts no reader to sleep. -/
theorem PipeState.ReadersWait.congr (h : s.ReadersWait)
    (hSleep : ∀ q, (s'.pc q).chan = some .nread → (s.pc q).chan = some .nread)
    (hPipe : s'.pipe = s.pipe) : s'.ReadersWait := by
  intro q hq
  rw [hPipe]
  exact h q (hSleep q hq)

/- A step that puts no writer to sleep. -/
theorem PipeState.WritersWait.congr (h : s.WritersWait)
    (hSleep : ∀ q, (s'.pc q).chan = some .nwrite → (s.pc q).chan = some .nwrite)
    (hPipe : s'.pipe = s.pipe) : s'.WritersWait := by
  intro q hq
  rw [hPipe]
  exact h q (hSleep q hq)

theorem PipeState.ReadersWait.setLock (h : s.ReadersWait) (l : Option P) :
    { s with lock := l }.ReadersWait :=
  h.congr (fun _ hq => hq) rfl

theorem PipeState.WritersWait.setLock (h : s.WritersWait) (l : Option P) :
    { s with lock := l }.WritersWait :=
  h.congr (fun _ hq => hq) rfl

/- After `wakeup(&pi->nread)` no reader sleeps. -/
theorem PipeState.readersWait_wakeup (s : PipeState P) : (s.wakeup .nread).ReadersWait :=
  fun _ hq => absurd rfl (chan_wakeup hq).1

/- After `wakeup(&pi->nwrite)` no writer sleeps. -/
theorem PipeState.writersWait_wakeup (s : PipeState P) : (s.wakeup .nwrite).WritersWait :=
  fun _ hq => absurd rfl (chan_wakeup hq).1

/- Others can move without disturbing the holder. -/
theorem PipeState.Here.congr (h : s.Here p c) (hReaders : s.ReadersWait → s'.ReadersWait)
    (hWriters : s.WritersWait → s'.WritersWait) (hPipe : s'.pipe = s.pipe)
    (hKilled : c.inWrite = true → s'.killed p = s.killed p) : s'.Here p c := by
  cases c with
  | wLoop n i =>
    refine ⟨hWriters h.1, ?_⟩
    rw [hPipe, hKilled rfl]
    exact h.2.imp_left hReaders
  | wBody n i =>
    refine ⟨hWriters h.1, ?_⟩
    rw [hPipe, hKilled rfl]
    exact h.2
  | wFull | rEmpty =>
    refine ⟨hWriters h.1, hReaders h.2.1, ?_⟩
    rw [hPipe]
    exact h.2.2
  | wakeReaders r => exact hWriters h
  | rLoop | unlock => exact ⟨hWriters h.1, hReaders h.2⟩
  | rCopy | wakeWriters => exact hReaders h
  | _ => exact h

/- The holder of the lock is between `acquire` and `release`. -/
theorem PipeState.Here.locked (h : s.Here p c) : c.locked = true := by
  cases c with
  | out | wStart | wSleep | rStart | rSleep => exact h.elim
  | _ => rfl

/- Nobody has the lock. -/
theorem Attended.of_free (hFree : s.lock = none) (hOut : ∀ q, (s.pc q).locked = false)
    (hWriters : s.WritersWait) (hReaders : s.ReadersWait) : Attended s := by
  constructor
  · intro q hq
    rw [hOut q] at hq
    cases hq
  · intro _
    exact ⟨hWriters, hReaders⟩
  · intro p hp
    rw [hFree] at hp
    cases hp

theorem Attended.start (h : s.Start) : Attended s := by
  obtain ⟨_, _, _, _, _, hLock, hOut, _, _⟩ := h
  have hAwake (q : P) : (s.pc q).locked = false ∧ (s.pc q).chan = none := by
    obtain ⟨r, hr⟩ := hOut q
    rw [hr]
    exact ⟨rfl, rfl⟩
  refine .of_free hLock (fun q => (hAwake q).1) ?_ ?_
  all_goals
    intro q hq
    rw [(hAwake q).2] at hq
    cases hq

/- Others than the holder of the lock are outside. -/
theorem Attended.outside (h : Attended s) {q : P} (hLock : s.lock ≠ some q) :
    (s.pc q).locked = false := by
  cases hIn : (s.pc q).locked with
  | false => rfl
  | true => exact absurd (h.alone q hIn) hLock

/- What the holder of the lock can rely on. -/
theorem Attended.here (h : Attended s) (hLock : s.lock = some p) (hPc : s.pc p = c) :
    s.Here p c := by
  have hHere := h.held p hLock
  rwa [hPc] at hHere

/- Closing an end wakes up those who wait for it. -/
theorem Attended.close (h : Attended s) (writable : Bool)
    (hFree : s.lock = none) : Attended (pipeclose s writable) := by
  obtain ⟨hWriters, hReaders⟩ := h.free hFree
  have hOutside (ch : PipeChan) (q : P) : ((s.wakeup ch).pc q).locked = false := by
    rw [s.locked_wakeup]
    exact h.outside (by simp [hFree])
  cases writable with
  | true =>
    refine .of_free hFree (hOutside .nread) ?_ ?_
    · intro q hq
      exact hWriters q (s.chan_wakeup hq).2
    · intro q hq
      exact absurd rfl (s.chan_wakeup hq).1
  | false =>
    refine .of_free hFree (hOutside .nwrite) ?_ ?_
    · intro q hq
      exact absurd rfl (s.chan_wakeup hq).1
    · intro q hq
      exact hReaders q (s.chan_wakeup hq).2

end Waits

theorem PipeState.ReadersWait.setPc (h : s.ReadersWait) (hAwake : (c.chan == some .nread) = false) :
    (s.setPc p c).ReadersWait :=
  h.congr (fun _ hq => s.chan_setPc hq hAwake) rfl

theorem PipeState.WritersWait.setPc (h : s.WritersWait)
    (hAwake : (c.chan == some .nwrite) = false) : (s.setPc p c).WritersWait :=
  h.congr (fun _ hq => s.chan_setPc hq hAwake) rfl

variable (h : Attended s)

section

variable (hLock : s.lock = some p)
include h hLock

/- The holder goes on and keeps the lock. -/
theorem Attended.move (hLock' : s'.lock = s.lock)
    (hSame : ∀ q, (s'.pc q).locked = (s.pc q).locked) (hHere : (s'.setPc p c).Here p c) :
    Attended (s'.setPc p c) := by
  have hKeeps : (s'.setPc p c).lock = some p := hLock'.trans hLock
  constructor
  · intro q hq
    by_cases hqp : q = p
    · rw [hqp]
      exact hKeeps
    · rw [s'.setPc_other c hqp, hSame, h.outside (by simp [hLock, Ne.symm hqp])] at hq
      cases hq
  · intro hFree
    rw [hKeeps] at hFree
    cases hFree
  · intro q hq
    rw [hKeeps] at hq
    cases hq
    rw [s'.setPc_self]
    exact hHere

/- The holder releases the lock. -/
theorem Attended.release (hOut : c.locked = false)
    (hWriters : ({ s with lock := none }.setPc p c).WritersWait)
    (hReaders : ({ s with lock := none }.setPc p c).ReadersWait) :
    Attended ({ s with lock := none }.setPc p c) := by
  refine .of_free rfl ?_ hWriters hReaders
  intro q
  by_cases hqp : q = p
  · rw [hqp, setPc_self]
    exact hOut
  · rw [setPc_other _ c hqp]
    exact h.outside (by simp [hLock, Ne.symm hqp])

end

include h

/- A process that is in no pipe function calls one. -/
theorem Attended.call {r : Int} (hPc : s.pc p = .out r) (hAwake : c.chan = none)
    (hOut : c.locked = false) : Attended (s.setPc p c) := by
  have hNot (ch : PipeChan) : (c.chan == some ch) = false := by
    rw [hAwake]
    rfl
  constructor
  · intro q hq
    by_cases hqp : q = p
    · rw [hqp, s.setPc_self, hOut] at hq
      cases hq
    · rw [s.setPc_other c hqp] at hq
      exact h.alone q hq
  · intro hFree
    obtain ⟨hWriters, hReaders⟩ := h.free hFree
    exact ⟨hWriters.setPc (hNot _), hReaders.setPc (hNot _)⟩
  · intro q hq
    have hHere := h.held q hq
    have hqp : q ≠ p := by
      intro hEq
      rw [hEq, hPc] at hHere
      exact hHere
    rw [s.setPc_other c hqp]
    exact hHere.congr (fun hReaders => hReaders.setPc (hNot _))
      (fun hWriters => hWriters.setPc (hNot _)) rfl
      (fun _ => rfl)

/- A process acquires the lock. -/
theorem Attended.acquire (hFree : s.lock = none)
    (hHere : ({ s with lock := some p }.setPc p c).Here p c) :
    Attended ({ s with lock := some p }.setPc p c) := by
  constructor
  · intro q hq
    by_cases hqp : q = p
    · rw [hqp]
      rfl
    · rw [setPc_other _ c hqp, h.outside (by simp [hFree])] at hq
      cases hq
  · intro hNone
    cases hNone
  · intro q hq
    cases hq
    rw [setPc_self]
    exact hHere

/- A kill outside the loop of `pipewrite` does no harm. -/
theorem Attended.kill (hSafe : s.lock = some p → (s.pc p).inWrite = false) :
    Attended (pipeKill s p) := by
  have hSleep {q : P} {ch : PipeChan} (hq : ((pipeKill s p).pc q).chan = some ch) :
      (s.pc q).chan = some ch := by
    refine s.chan_setPc hq ?_
    rw [PipePc.chan_woken]
    rfl
  constructor
  · intro q hq
    apply h.alone q
    by_cases hqp : q = p
    · subst hqp
      rw [← PipePc.locked_woken]
      exact (congrArg _ (s.setPc_self q _)).symm.trans hq
    · exact (congrArg _ (s.setPc_other _ hqp)).symm.trans hq
  · intro hFree
    obtain ⟨hWriters, hReaders⟩ := h.free hFree
    exact ⟨hWriters.congr (fun _ => hSleep) rfl, hReaders.congr (fun _ => hSleep) rfl⟩
  · intro q hq
    have hLock : s.lock = some q := hq
    have hHere := h.held q hLock
    have hPc : (pipeKill s p).pc q = s.pc q := by
      by_cases hqp : q = p
      · subst hqp
        exact (s.setPc_self q _).trans (PipePc.woken_of_locked hHere.locked)
      · exact s.setPc_other _ hqp
    rw [hPc]
    refine hHere.congr (fun hReaders => hReaders.congr (fun _ => hSleep) rfl)
      (fun hWriters => hWriters.congr (fun _ => hSleep) rfl)
      rfl ?_
    intro hWrite
    have hqp : q ≠ p := by
      intro hEq
      subst hEq
      rw [hSafe hLock] at hWrite
      cases hWrite
    exact Function.update_of_ne hqp ..

omit h

-------
-- Runs
-------

/-
  No kill hits a writer in its copy loop, where it holds the
  lock and has a wakeup to do.
-/
def SparesWriters (s : PipeState P) : PipeAction P → Prop
| .kill p => s.lock = some p → (s.pc p).inWrite = false
| _ => True

instance (s : PipeState P) :
    DecidablePred (SparesWriters s)
| .kill _ => inferInstanceAs (Decidable (_ → _))
| .write _ _ => isTrue trivial
| .read _ _ => isTrue trivial
| .acquire _ => isTrue trivial
| .run _ _ _ => isTrue trivial
| .close _ => isTrue trivial

section Step

variable (hLock : s.lock = some p) {n : Int} {i : Nat}
include h hLock

/- The writer finds the ring full and wakes up the readers. -/
theorem Attended.full (hPc : s.pc p = .wBody n i)
    (hFull : s.pipe.Full) : Attended ((s.wakeup .nread).setPc p (.wFull n i)) := by
  obtain ⟨hWriters, _, hOpen⟩ := h.here hLock hPc
  have hKept : (s.wakeup .nread).WritersWait :=
    hWriters.congr (fun _ hq => (s.chan_wakeup hq).2) rfl
  exact h.move hLock rfl (s.locked_wakeup _)
    ⟨hKept.setPc rfl, s.readersWait_wakeup.setPc rfl, hFull, hOpen⟩

/- A byte goes in, and nobody was waiting for room. -/
theorem Attended.put (hPc : s.pc p = .wBody n i)
    (hRoom : ¬ s.pipe.Full) (x : UInt8) : Attended ((s.putByte x).setPc p (.wLoop n (i + 1))) := by
  obtain ⟨hWriters, hAlive, hOpen⟩ := h.here hLock hPc
  refine h.move hLock rfl (fun _ => rfl) ⟨?_, .inr ⟨hAlive, hOpen⟩⟩
  intro q hq
  have hBefore : (s.pc q).chan = some .nwrite := (s.putByte x).chan_setPc hq rfl
  exact absurd (hWriters q hBefore).1 hRoom

/- A byte comes out, and nobody was waiting for one. -/
theorem Attended.take (hPc : s.pc p = .rCopy n i) (hSome : ¬ s.pipe.Empty)
    (hc : c = .rCopy n (i + 1) ∨ c = .wakeWriters i) : Attended (s.takeByte.setPc p c) := by
  have hReaders : s.ReadersWait := h.here hLock hPc
  have hAfter (hAwake : (c.chan == some .nread) = false) : (s.takeByte.setPc p c).ReadersWait := by
    intro q hq
    have hBefore : (s.pc q).chan = some .nread := s.takeByte.chan_setPc hq hAwake
    exact absurd (hReaders q hBefore).1 hSome
  refine h.move hLock rfl (fun _ => rfl) ?_
  rcases hc with rfl | rfl
  · exact hAfter rfl
  · exact hAfter rfl

/- One of the two gives up: a writer owes nothing then. -/
theorem Attended.giveUp
    (hc : (∃ n i, s.pc p = .wLoop n i ∧ (s.pipe.readopen = false ∨ s.killed p = true)) ∨
        ∃ n, s.pc p = .rLoop n) : Attended (s.setPc p (.unlock (-1))) := by
  refine h.move hLock rfl (fun _ => rfl) ?_
  rcases hc with ⟨n, i, hPc, hStop⟩ | ⟨n, hPc⟩
  · obtain ⟨hWriters, hOwed⟩ := h.here hLock hPc
    refine ⟨hWriters.setPc rfl, ?_⟩
    rcases hOwed with hReaders | ⟨hAlive, hOpen⟩
    · exact hReaders.setPc rfl
    · -- it would have gone on
      rw [hAlive, hOpen] at hStop
      simp at hStop
  · obtain ⟨hWriters, hReaders⟩ := h.here hLock hPc
    exact ⟨hWriters.setPc rfl, hReaders.setPc rfl⟩

/- Who goes to sleep has just seen that it has to wait. -/
theorem Attended.sleep
    (hc : (∃ n i, s.pc p = .wFull n i ∧ c = .wSleep n i) ∨
        ∃ n, s.pc p = .rEmpty n ∧ c = .rSleep n) :
    Attended ({ s with lock := none }.setPc p c) := by
  rcases hc with ⟨n, i, hPc, rfl⟩ | ⟨n, hPc, rfl⟩
  · obtain ⟨_, hReaders, hFull⟩ := h.here hLock hPc
    refine h.release hLock rfl (fun _ _ => hFull) ?_
    exact (hReaders.setLock none).setPc rfl
  · obtain ⟨hWriters, _, hEmpty⟩ := h.here hLock hPc
    refine h.release hLock rfl ?_ (fun _ _ => hEmpty)
    exact (hWriters.setLock none).setPc rfl

end Step

include h in
theorem Attended.step (hSpare : SparesWriters s a) (hStep : PipeStep s a s') : Attended s' := by
  cases hStep with
  | call p r c hPc hc =>
    rcases hc with ⟨n, rfl⟩ | ⟨n, rfl⟩
    · exact h.call hPc rfl rfl
    · exact h.call hPc rfl rfl
  | lock p c hFree hc =>
    obtain ⟨hWriters, hReaders⟩ := h.free hFree
    rcases hc with ⟨n, i, _, rfl⟩ | ⟨n, _, rfl⟩
    · refine h.acquire hFree ⟨?_, .inl ?_⟩
      · exact (hWriters.setLock _).setPc rfl
      · exact (hReaders.setLock _).setPc rfl
    · refine h.acquire hFree ⟨?_, ?_⟩
      · exact (hWriters.setLock _).setPc rfl
      · exact (hReaders.setLock _).setPc rfl
  | giveUp p hLock hc => exact h.giveUp hLock hc
  | tryPut p n i hLock hPc hOpen hAlive =>
    obtain ⟨hWriters, _⟩ := h.here hLock hPc
    exact h.move hLock rfl (fun _ => rfl) ⟨hWriters.setPc rfl, hAlive, hOpen⟩
  | full p n i hLock hPc hFull => exact h.full hLock hPc hFull
  | put p n i x hLock hPc hRoom => exact h.put hLock hPc hRoom x
  | wroteAll p r hLock hPc =>
    refine h.move hLock rfl (fun _ => rfl) ?_
    rcases hPc with ⟨n, i, hPc⟩ | ⟨n, i, hPc⟩
    · exact (h.here hLock hPc).1.setPc rfl
    · exact (h.here hLock hPc).1.setPc rfl
  | sleep p c hLock hc => exact h.sleep hLock hc
  | wakeReaders p r hLock hPc =>
    have hWriters : s.WritersWait := h.here hLock hPc
    have hKept : (s.wakeup .nread).WritersWait :=
      hWriters.congr (fun _ hq => (s.chan_wakeup hq).2) rfl
    exact h.move hLock rfl (s.locked_wakeup _)
      ⟨hKept.setPc rfl, s.readersWait_wakeup.setPc rfl⟩
  | tryTake p n hLock hPc hEmpty hOpen =>
    obtain ⟨hWriters, hReaders⟩ := h.here hLock hPc
    exact h.move hLock rfl (fun _ => rfl)
      ⟨hWriters.setPc rfl, hReaders.setPc rfl, hEmpty, hOpen⟩
  | startCopy p n hLock hPc =>
    exact h.move hLock rfl (fun _ => rfl) ((h.here hLock hPc).2.setPc rfl)
  | take p n i c hLock hPc hSome hc => exact h.take hLock hPc hSome hc
  | readAll p n i hLock hPc =>
    have hReaders : s.ReadersWait := h.here hLock hPc
    exact h.move hLock rfl (fun _ => rfl) (hReaders.setPc rfl)
  | wakeWriters p r hLock hPc =>
    have hReaders : s.ReadersWait := h.here hLock hPc
    have hKept : (s.wakeup .nwrite).ReadersWait :=
      hReaders.congr (fun _ hq => (s.chan_wakeup hq).2) rfl
    exact h.move hLock rfl (s.locked_wakeup _)
      ⟨s.writersWait_wakeup.setPc rfl, hKept.setPc rfl⟩
  | unlock p r hLock hPc =>
    obtain ⟨hWriters, hReaders⟩ := h.here hLock hPc
    refine h.release hLock rfl ?_ ?_
    · exact (hWriters.setLock none).setPc rfl
    · exact (hReaders.setLock none).setPc rfl
  | close writable hFree => exact h.close writable hFree
  | kill p => exact h.kill hSpare

/-
  A reader sleeps on an empty pipe. A writer puts in a byte
  and is killed: it leaves the loop at the next turn, and it
  does not wake up the reader.
-/
theorem killed_writer_strands_reader :
    ∃ s : PipeState (Fin 2), pipeSystem.Reach System.Anything s ∧ s.lock = none ∧
      (s.pc 0).chan = some .nread ∧
      ¬ s.pipe.Empty := by
  have hRun : ∃ s : PipeState (Fin 2), pipeSystem.run System.Anything start
            [.read 0 1, .acquire 0, .run 0 none true, .run 0 none true, .write 1 2, .acquire 1,
              .run 1 none true, .run 1 (some 7) true, .kill 1,
              .run 1 none true, .run 1 none true] = some s ∧
          s.lock = none ∧ s.pc 0 = .rSleep 1 ∧
          s.pipe.ring.nread = 0 ∧ s.pipe.ring.nwrite = 1 :=
    ⟨_, rfl, rfl, rfl, rfl, rfl⟩
  obtain ⟨s, hRun, hLock, hPc, hRead, hWrite⟩ := hRun
  refine ⟨s, System.reach_of_run (.init start_start) hRun, hLock, ?_, ?_⟩
  · rw [hPc]
    rfl
  · unfold Pipe.Empty
    rw [hRead, hWrite]
    decide

/- While the lock is free, everyone asleep has to wait. -/
theorem pipe_sleepers_have_to_wait
    {s : PipeState P}
    (hReach : pipeSystem.Reach SparesWriters s)
    (hFree : s.lock = none)
    (q : P) :
    ((s.pc q).chan = some .nread →
        s.pipe.Empty ∧ s.pipe.writeopen = true) ∧
      ((s.pc q).chan = some .nwrite →
          s.pipe.Full ∧ s.pipe.readopen = true) := by
  have h : Attended s :=
    hReach.invariant (fun _ => Attended.start) (fun _ _ _ hOld hSpare hNext =>
        hOld.step hSpare (pipeStep_next hNext))
  obtain ⟨hWriters, hReaders⟩ := h.free hFree
  exact ⟨hReaders q, hWriters q⟩

/- A reader that is killed while it sleeps harms nobody. -/
theorem pipe_sleepers_of_killed_reader :
    ∃ s : PipeState (Fin 2), pipeSystem.Reach SparesWriters s ∧ s.lock = none ∧
      (s.pc 0).chan = some .nread ∧
      s.pipe.Empty := by
  have hRun : ∃ s : PipeState (Fin 2), pipeSystem.run SparesWriters start
            [.read 0 1, .acquire 0, .run 0 none true, .run 0 none true, .read 1 1, .acquire 1,
              .run 1 none true, .run 1 none true, .kill 1] =
            some s ∧
          s.lock = none ∧ s.pc 0 = .rSleep 1 :=
    ⟨_, rfl, rfl, rfl⟩
  obtain ⟨s, hRun, hLock, hPc⟩ := hRun
  have hReach : pipeSystem.Reach SparesWriters s :=
    System.reach_of_run (.init start_start) hRun
  have hChan : (s.pc 0).chan = some .nread := by
    rw [hPc]
    rfl
  exact ⟨s, hReach, hLock, hChan, ((pipe_sleepers_have_to_wait hReach hLock 0).1 hChan).1⟩

end Xv6
