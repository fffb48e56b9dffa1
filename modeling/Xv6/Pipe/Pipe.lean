import Xv6.Lib.RingBuffer
import Xv6.Lib.System

/-
  The pipes of `pipe.c`, used by any number of readers and
  writers.

  A process that holds `pi->lock` takes one step for each
  turn of its loop, so that a `kill` can land between two
  turns. `sleep` releases the lock and puts the process to
  sleep in one step, and `wakeup` reaches all sleepers in one
  step. Bytes come from and go to user memory, which may fail
  at every byte; an action says what the memory did.

  The lists `put` and `got` are not part of the kernel: they
  record the bytes put into the ring and taken out of it.

  Key definitions include:
    * `Pipe`
    * `PipePc`
    * `PipeState`
    * `pipeStep`
    * `pipeSystem`
-/

-------
-- States
-------

namespace Xv6

abbrev PIPESIZE : Nat := 512

/- `struct pipe`, without its lock. -/
structure Pipe where
  ring : RingBuffer UInt8 32
  readopen : Bool
  writeopen : Bool

namespace Pipe

def Empty (pi : Pipe) : Prop := pi.ring.nread = pi.ring.nwrite

def Full (pi : Pipe) : Prop := pi.ring.nwrite = pi.ring.nread + BitVec.ofNat 32 PIPESIZE

instance (pi : Pipe) : Decidable pi.Empty := inferInstanceAs (Decidable (_ = _))

instance (pi : Pipe) : Decidable pi.Full := inferInstanceAs (Decidable (_ = _))

end Pipe

/- The channels `&pi->nread` and `&pi->nwrite`. -/
inductive PipeChan where
  | nread
  | nwrite
  deriving DecidableEq

/-
  Where a process is. A process that is in no pipe function
  keeps the value that the last one returned.
-/
inductive PipePc where
  | out (r : Int)
  -- `pipewrite`
  | wStart (n : Int) (i : Nat)
  | wLoop (n : Int) (i : Nat)
  | wBody (n : Int) (i : Nat)
  | wFull (n : Int) (i : Nat)
  | wSleep (n : Int) (i : Nat)
  | wakeReaders (r : Int)
  -- `piperead`
  | rStart (n : Int)
  | rLoop (n : Int)
  | rEmpty (n : Int)
  | rSleep (n : Int)
  | rCopy (n : Int) (i : Nat)
  | wakeWriters (r : Int)
  -- about to release the lock and to return
  | unlock (r : Int)
  deriving DecidableEq

namespace PipePc

/- The channel that a process sleeps on. -/
def chan : PipePc → Option PipeChan
| .wSleep _ _ => some .nwrite
| .rSleep _ => some .nread
| _ => none

/- Where a process goes on when it is woken up. -/
def woken : PipePc → PipePc
| .wSleep n i => .wStart n i
| .rSleep n => .rStart n
| c => c

/- Is a process in the copy loop of `pipewrite`? -/
def inWrite : PipePc → Bool
| .wLoop _ _ => true
| .wBody _ _ => true
| _ => false

/- Is a process between `acquire` and `release`? -/
def locked : PipePc → Bool
| .wLoop _ _ => true
| .wBody _ _ => true
| .wFull _ _ => true
| .wakeReaders _ => true
| .rLoop _ => true
| .rEmpty _ => true
| .rCopy _ _ => true
| .wakeWriters _ => true
| .unlock _ => true
| _ => false

end PipePc

structure PipeState (P : Type) where
  pipe : Pipe
  -- `kfree` was called
  freed : Bool
  lock : Option P
  killed : P → Bool
  pc : P → PipePc
  put : List UInt8
  got : List UInt8

/- What a process or its environment can do next. -/
inductive PipeAction (P : Type) where
  | write (p : P) (n : Int)
  | read (p : P) (n : Int)
  | acquire (p : P)
  -- `ch` is what `copyin` yields, `ok` if `copyout` works
  | run (p : P) (ch : Option UInt8) (ok : Bool)
  | close (writable : Bool)
  | kill (p : P)

-------
-- Steps
-------

variable {P : Type} [DecidableEq P]

namespace PipeState

def setPc (s : PipeState P) (p : P) (c : PipePc) : PipeState P :=
  { s with pc := Function.update s.pc p c }

/- `wakeup(chan)`. -/
def wakeup (s : PipeState P) (ch : PipeChan) : PipeState P :=
  { s with
    pc := fun q =>
      if (s.pc q).chan = some ch then (s.pc q).woken
      else s.pc q }

/- Put a byte into the ring. -/
def putByte (s : PipeState P) (x : UInt8) : PipeState P :=
  { s with
    pipe :=
      { s.pipe with ring := s.pipe.ring.push PIPESIZE x }
    put := s.put ++ [x] }

/- Take a byte out of the ring. -/
def takeByte (s : PipeState P) : PipeState P :=
  { s with
    pipe := { s.pipe with ring := s.pipe.ring.pop }
    got := s.got ++ [s.pipe.ring.front PIPESIZE] }

end PipeState

/- One step of a process that holds the lock. -/
def pipeRun (s : PipeState P) (p : P) (ch : Option UInt8)
    (ok : Bool) : PipePc → Outcome Empty (PipeState P)
| .wLoop n i =>
    if (i : Int) < n then
      if s.pipe.readopen = false ∨ s.killed p = true then
        .next (s.setPc p (.unlock (-1)))
      else .next (s.setPc p (.wBody n i))
    else .next (s.setPc p (.wakeReaders i))
| .wBody n i =>
    if s.pipe.Full then
      .next ((s.wakeup .nread).setPc p (.wFull n i))
    else
      match ch with
      | none => .next (s.setPc p (.wakeReaders i))
      | some x => .next ((s.putByte x).setPc p (.wLoop n (i + 1)))
| .wFull n i => .next ({ s with lock := none }.setPc p (.wSleep n i))
| .wakeReaders r => .next ((s.wakeup .nread).setPc p (.unlock r))
| .rLoop n =>
    if s.pipe.Empty ∧ s.pipe.writeopen = true then
      if s.killed p = true then
        .next (s.setPc p (.unlock (-1)))
      else .next (s.setPc p (.rEmpty n))
    else .next (s.setPc p (.rCopy n 0))
| .rEmpty n => .next ({ s with lock := none }.setPc p (.rSleep n))
| .rCopy n i =>
    if (i : Int) < n ∧ ¬ s.pipe.Empty then
      if ok then
        .next (s.takeByte.setPc p (.rCopy n (i + 1)))
      else .next (s.takeByte.setPc p (.wakeWriters i))
    else .next (s.setPc p (.wakeWriters i))
| .wakeWriters r => .next ((s.wakeup .nwrite).setPc p (.unlock r))
| .unlock r => .next ({ s with lock := none }.setPc p (.out r))
| _ => .disabled

/- `pipeclose`. -/
def pipeclose (s : PipeState P) (writable : Bool) : PipeState P :=
  let s' :=
    if writable then
      { s with
        pipe := { s.pipe with writeopen := false }
        }.wakeup .nread
    else
      { s with
        pipe := { s.pipe with readopen := false }
        }.wakeup .nwrite
  { s' with
    freed := !s'.pipe.readopen && !s'.pipe.writeopen }

/- `kill` also wakes its victim up. -/
def pipeKill (s : PipeState P) (p : P) : PipeState P :=
  { s with
    killed := Function.update s.killed p true
    pc := Function.update s.pc p (s.pc p).woken }

/- The effect of an action, if it can be taken. -/
def pipeStep (s : PipeState P) :
    PipeAction P → Outcome Empty (PipeState P)
| .write p n =>
    match s.pc p with
    | .out _ => .next (s.setPc p (.wStart n 0))
    | _ => .disabled
| .read p n =>
    match s.pc p with
    | .out _ => .next (s.setPc p (.rStart n))
    | _ => .disabled
| .acquire p =>
    if s.lock = none ∧ s.freed = false then
      match s.pc p with
      | .wStart n i => .next ({ s with lock := some p }.setPc p (.wLoop n i))
      | .rStart n => .next ({ s with lock := some p }.setPc p (.rLoop n))
      | _ => .disabled
    else .disabled
| .run p ch ok =>
    if s.lock = some p then pipeRun s p ch ok (s.pc p)
    else .disabled
| .close writable =>
    if s.lock = none ∧ s.freed = false then
      .next (pipeclose s writable)
    else .disabled
| .kill p => .next (pipeKill s p)

/- The state after `pipealloc`. -/
def PipeState.Start (s : PipeState P) : Prop :=
  s.pipe.ring.nread = 0 ∧ s.pipe.ring.nwrite = 0 ∧
    s.pipe.readopen = true ∧ s.pipe.writeopen = true ∧
    s.freed = false ∧ s.lock = none ∧
    (∀ p, ∃ r, s.pc p = .out r) ∧
    s.put = [] ∧ s.got = []

/- A fresh pipe whose memory is filled with zeros. -/
def PipeState.start : PipeState P where
  pipe :=
    { ring := { data := fun _ => 0, nread := 0, nwrite := 0 }
      readopen := true
      writeopen := true }
  freed := false
  lock := none
  killed := fun _ => false
  pc := fun _ => .out 0
  put := []
  got := []

omit [DecidableEq P] in
theorem PipeState.start_start : (PipeState.start : PipeState P).Start :=
  ⟨rfl, rfl, rfl, rfl, rfl, rfl, fun _ => ⟨0, rfl⟩, rfl, rfl⟩

/- The processes that share a pipe. -/
def pipeSystem :
    System (PipeState P) (PipeAction P) Empty where
  init := PipeState.Start
  step := pipeStep

end Xv6
