import Xv6.Log.GroupCommit

/-
  Clients of the buffer cache and the log.

  Inside an operation a client reads a block, may change the
  buffer and log it, and releases the buffer. A step is one
  critical section of `bio.c` or `log.c`; what a client does
  with a buffer it has locked is its own. A commit runs while
  no operation is open, so it is one step.

  The fields `dirty` and `written` are not part of the
  kernel. They record which blocks have been changed but not
  yet logged, and what was last logged for each block.

  Key definitions include:
    * `Use`
    * `Store`
    * `Store.array`
    * `Store.arrayAfter`
    * `storeStep`
    * `storeSystem`
-/

open Function

-------
-- States
-------

namespace Xv6

/- What a client is doing with the cache. -/
inductive Use where
  | run
  -- in `bget`, waiting for the lock of buffer `i`
  | locking (i : Slot) (b : Nat)
  -- in `brelse`, after the lock was released
  | dropping (i : Slot)
  deriving DecidableEq

structure Store (P : Type) where
  mach : Machine P
  log : LogState P
  use : P → Use
  dirty : Nat → Bool
  written : Nat → Option Block

inductive StoreAction (P : Type) where
  | beginOp (p : P)
  | bget (p : P) (b : Nat)
  | lock (p : P)
  | modify (p : P) (i : Slot) (x : Block)
  | logWrite (p : P) (i : Slot)
  | unlock (p : P) (i : Slot)
  | drop (p : P)
  | endOp (p : P)

namespace Store

variable {P : Type}

/- The buffer at a position. -/
def buf (s : Store P) (i : Slot) : Buf P := s.mach.cache.buf i

/-
  The array of blocks that clients see: the contents last
  logged, or those on disk.
-/
def array (s : Store P) (b : Nat) : Block := (s.written b).getD (s.mach.disk b)

def withCache (s : Store P) (c : Bcache P) : Store P :=
  { s with mach := s.mach.withCache c }

variable [DecidableEq P]

def setUse (s : Store P) (p : P) (u : Use) : Store P :=
  { s with use := update s.use p u }

/- Process `p` is in an operation and not inside `bio.c`. -/
def Running (s : Store P) (p : P) : Prop := s.log.pc p = .inOp ∧ s.use p = .run

instance (s : Store P) (p : P) : Decidable (s.Running p) := inferInstanceAs (Decidable (_ ∧ _))

/- A running process that holds the lock of a buffer. -/
def Holding (s : Store P) (p : P) (i : Slot) : Prop := s.Running p ∧ (s.buf i).lock = some p

instance (s : Store P) (p : P) (i : Slot) : Decidable (s.Holding p i) :=
  inferInstanceAs (Decidable (_ ∧ _))

end Store

-------
-- Steps
-------

variable {P : Type} [DecidableEq P]

/- The rest of `bread`: lock the buffer and read the disk. -/
def storeLock (s : Store P) (p : P) (i : Slot) : Store P :=
  (s.withCache ((s.mach.cache.setLock i (some p)).fill s.mach.disk i)).setUse p .run

/- The client changes the buffer. -/
def storeModify (s : Store P) (i : Slot) (x : Block) : Store P :=
  { s.withCache (s.mach.cache.setData i x) with
    dirty := update s.dirty (s.buf i).blockno true }

/- The first part of `brelse`: release the lock. -/
def storeUnlock (s : Store P) (p : P) (i : Slot) : Store P :=
  (s.withCache (s.mach.cache.setLock i none)).setUse p (.dropping i)

/- The second part of `brelse`: drop the reference. -/
def storeDrop (s : Store P) (p : P) (i : Slot) : Store P :=
  (s.withCache (s.mach.cache.dropRef i)).setUse p .run

/- The state after a boot from disk `d`. -/
def Store.start (d : Disk) : Store P where
  mach := boot d
  log := LogState.start
  use := fun _ => .run
  dirty := fun _ => false
  written := fun _ => none

end Xv6
