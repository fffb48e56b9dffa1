import Xv6.Param
import Xv6.Lib.Prog
import Mathlib.Data.List.FinRange

/-
  The buffer cache of `bio.c`.

  The ring of buffers is the list `lru`, from `head.next`
  (most recently used) to `head.prev`. A buffer is named by
  its position in `bcache.buf`. `P` is the type of process
  ids. The disk keeps the list of its writes, oldest first,
  so that a crash between any two of them can be stated.

  Key definitions include:
    * `Buf`
    * `Bcache`
    * `Bcache.lookup`
    * `Bcache.bget`
    * `Bcache.dropRef`
    * `Machine`
    * `bread`
    * `bwrite`
    * `brelse`
    * `bpin`
    * `bunpin`
-/

-------
-- Buffers and the Cache
-------

namespace Xv6

/- `struct buf`. -/
structure Buf (P : Type) where
  -- has data been read from disk?
  valid : Bool
  dev : Nat
  blockno : Nat
  -- the holder of the sleep lock
  lock : Option P
  refcnt : Int
  data : Block

/- A position in `bcache.buf`. -/
abbrev Slot : Type := Fin NBUF

/- The buffers and their order of use. -/
structure Bcache (P : Type) where
  buf : Slot → Buf P
  lru : List Slot

namespace Bcache

variable {P : Type}

/- `binit`: every buffer is pushed to the head in turn. -/
def binit : Bcache P where
  buf := fun _ =>
    { valid := false
      dev := 0
      blockno := 0
      lock := none
      refcnt := 0
      data := Bytes.zero }
  lru := (List.finRange NBUF).reverse

/- Change one buffer. -/
def setBuf (c : Bcache P) (i : Slot) (b : Buf P) : Bcache P :=
  { c with buf := Function.update c.buf i b }

/- The first loop of `bget`: the buffer of a cached block. -/
def lookup (c : Bcache P) (dev blockno : Nat) : Option Slot :=
  c.lru.find? (fun i => (c.buf i).dev = dev ∧ (c.buf i).blockno = blockno)

/- The second loop of `bget`: the LRU unused buffer. -/
def unused (c : Bcache P) : Option Slot := c.lru.reverse.find? (fun i => (c.buf i).refcnt = 0)

/-
  `bget` up to the release of `bcache.lock`: find or recycle
  a buffer and take a reference to it.
-/
def bget (c : Bcache P) (dev blockno : Nat) : Except Panic (Slot × Bcache P) :=
  match c.lookup dev blockno with
  | some i =>
    .ok (i, c.setBuf i
      { c.buf i with refcnt := (c.buf i).refcnt + 1 })
  | none =>
    match c.unused with
    | some i =>
      .ok (i, c.setBuf i
        { c.buf i with
          dev := dev
          blockno := blockno
          valid := false
          refcnt := 1 })
    | none => .error .bgetNoBuffers

/- Set the holder of a buffer's sleep lock. -/
def setLock (c : Bcache P) (i : Slot) (l : Option P) : Bcache P :=
  c.setBuf i { c.buf i with lock := l }

/- Read the block from disk if the data is not valid. -/
def fill (c : Bcache P) (d : Disk) (i : Slot) : Bcache P :=
  if (c.buf i).valid then c
  else
    c.setBuf i
      { c.buf i with
        data := d (c.buf i).blockno
        valid := true }

/- Change a buffer's data. -/
def setData (c : Bcache P) (i : Slot) (x : Block) : Bcache P :=
  c.setBuf i { c.buf i with data := x }

/- Add to a buffer's reference count. -/
def addRef (c : Bcache P) (i : Slot) (k : Int) : Bcache P :=
  c.setBuf i
    { c.buf i with refcnt := (c.buf i).refcnt + k }

/-
  The critical section of `brelse`: drop a reference, and
  move the buffer to the head when no one is waiting for it.
-/
def dropRef (c : Bcache P) (i : Slot) : Bcache P :=
  let c' := c.addRef i (-1)
  if (c'.buf i).refcnt = 0 then
    { c' with lru := i :: c'.lru.erase i }
  else c'

end Bcache

-------
-- Operations on Buffers
-------

/- Cache, disk and the disk writes made so far. -/
structure Machine (P : Type) where
  cache : Bcache P
  disk : Disk
  writes : List (Nat × Block)

/- Why a kernel thread does not go on. -/
inductive Stop where
  | panic (p : Panic)
  -- asleep until another thread releases a buffer
  | sleep
  deriving DecidableEq, Repr

/- Kernel code that works on buffers. -/
abbrev BioM (P : Type) : Type → Type := Prog (Machine P) Stop

variable {P : Type} [DecidableEq P]

/- The cache of a machine, changed. -/
def Machine.withCache (m : Machine P) (c : Bcache P) : Machine P :=
  { m with cache := c }

/- `acquiresleep` on a buffer's lock. -/
def acquiresleep (p : P) (i : Slot) : BioM P Unit := do
  let m ← Prog.read
  if (m.cache.buf i).lock = none then
    Prog.edit (fun m => m.withCache (m.cache.setLock i (some p)))
  else
    Prog.stop .sleep

/- `bget`: return the locked buffer of a block. -/
def bget (p : P) (dev blockno : Nat) : BioM P Slot := do
  let m ← Prog.read
  match m.cache.bget dev blockno with
  | .ok (i, c) => do
      Prog.edit (fun m => m.withCache c)
      acquiresleep p i
      return i
  | .error e => Prog.stop (.panic e)

/- `bread`: a locked buffer with the block's contents. -/
def bread (p : P) (dev blockno : Nat) : BioM P Slot := do
  let i ← bget p dev blockno
  Prog.edit (fun m => m.withCache (m.cache.fill m.disk i))
  return i

/- `bwrite`: write a held buffer to disk. -/
def bwrite (p : P) (i : Slot) : BioM P Unit := do
  let m ← Prog.read
  if (m.cache.buf i).lock = some p then
    Prog.edit (fun m =>
      let b := m.cache.buf i
      { m with
        disk := Function.update m.disk b.blockno b.data
        writes := m.writes ++ [(b.blockno, b.data)] })
  else
    Prog.stop (.panic .bwrite)

/- `brelse`: release a held buffer. -/
def brelse (p : P) (i : Slot) : BioM P Unit := do
  let m ← Prog.read
  if (m.cache.buf i).lock = some p then do
    Prog.edit (fun m => m.withCache (m.cache.setLock i none))
    Prog.edit (fun m => m.withCache (m.cache.dropRef i))
  else
    Prog.stop (.panic .brelse)

/- `bpin`. -/
def bpin (i : Slot) : BioM P Unit := Prog.edit (fun m => m.withCache (m.cache.addRef i 1))

/- `bunpin`. -/
def bunpin (i : Slot) : BioM P Unit := Prog.edit (fun m => m.withCache (m.cache.addRef i (-1)))

/- `memmove` of a whole block into a held buffer. -/
def copyInto (i : Slot) (x : Block) : BioM P Unit :=
  Prog.edit (fun m => m.withCache (m.cache.setData i x))

/- The data of a buffer. -/
def dataOf (i : Slot) : BioM P Block := do
  let m ← Prog.read
  return (m.cache.buf i).data

end Xv6
