import Xv6.Lib.RingBuffer
import Xv6.Lib.System

/-
  The driver of `virtio_disk.c` and the device, with any
  number of threads in `virtio_disk_rw` and
  `virtio_disk_intr`.

  The device works at any time, so a thread that holds
  `vdisk_lock` takes one step for each access that the device
  can see: the slot of the avail ring, its index, the index
  and a slot of the used ring. `sleep` releases the lock and
  puts the thread to sleep in one step; `kill` can wake a
  thread up at any time. The device is the one that the
  driver assumes: it reads each entry of the avail ring once,
  performs the chain it heads, sets the status byte to zero
  and appends the head to the used ring, in any order.

  `bread` and `bwrite` pass a buffer whose sleep-lock they
  hold, which they took and will release in other steps.

  The lists `performed`, `offered`, `fetched`, `pushed` and
  `popped` are not part of the kernel or the device. They
  record the requests that the device performed and the
  traffic of the rings.

  Key definitions include:
    * `VirtioDisk`
    * `VirtioPc`
    * `VirtioDisk.alloc3Desc`, `VirtioDisk.freeDesc`
    * `virtioStep`
    * `virtioSystem`
-/

open Function

-------
-- States
-------

namespace Xv6

/- The number of descriptors and of ring entries. -/
abbrev NUM : Nat := 8

abbrev VRING_DESC_F_NEXT : BitVec 16 := 1
abbrev VRING_DESC_F_WRITE : BitVec 16 := 2

/- The memory that a descriptor is about. -/
inductive DescAddr (B : Type) where
  | null
  -- `&disk.ops[i]`
  | ops (i : Nat)
  -- `b->data`
  | data (b : B)
  -- `&disk.info[i].status`
  | status (i : Nat)

/- `struct virtq_desc`. -/
structure VirtqDesc (B : Type) where
  addr : DescAddr B
  len : Nat
  flags : BitVec 16
  next : Nat

/- Is the flag set? -/
def VirtqDesc.has {B : Type} (d : VirtqDesc B) (flag : BitVec 16) : Bool := d.flags &&& flag ≠ 0

/- `VIRTIO_BLK_T_IN` and `VIRTIO_BLK_T_OUT`. -/
inductive BlkType where
  | read
  | write
  deriving DecidableEq

/- `struct virtio_blk_req`. -/
structure VirtioBlkReq where
  type : BlkType
  sector : Nat

/- An entry of `disk.info`. -/
structure DiskInfo (B : Type) where
  b : Option B
  status : UInt8

/- What the device does for one chain. -/
structure DiskOp (B : Type) where
  type : BlkType
  sector : Nat
  b : B
  deriving DecidableEq

/-
  The arguments of a call of `virtio_disk_rw`. The number
  `start` of requests performed before it is not part of the
  kernel.
-/
structure DiskCall (B : Type) where
  b : B
  blockno : BitVec 32
  type : BlkType
  start : Nat

/- The product is computed with 32 bits. -/
def DiskCall.sector {B : Type} (r : DiskCall B) : Nat := (r.blockno * 2).toNat

/- The request of a call. -/
def DiskCall.op {B : Type} (r : DiskCall B) : DiskOp B where
  type := r.type
  sector := r.sector
  b := r.b

/- The local array `idx` of `virtio_disk_rw`. -/
structure DescIdx where
  i0 : Nat
  i1 : Nat
  i2 : Nat

def DescIdx.toList (c : DescIdx) : List Nat := [c.i0, c.i1, c.i2]

/- Where a thread is. -/
inductive VirtioPc (B : Type) where
  | out
  -- `virtio_disk_rw`, before its first `acquire`
  | start (r : DiskCall B)
  -- the loop that allocates descriptors
  | alloc (r : DiskCall B)
  | sleepFree (r : DiskCall B)
  | format (r : DiskCall B) (c : DescIdx)
  -- about to write the slot of the avail ring
  | offer (r : DiskCall B) (c : DescIdx)
  -- about to increment `avail->idx`
  | bump (r : DiskCall B) (c : DescIdx)
  -- the loop that waits for the interrupt
  | wait (r : DiskCall B) (c : DescIdx)
  | sleepBuf (r : DiskCall B) (c : DescIdx)
  | woken (r : DiskCall B) (c : DescIdx)
  -- `disk.info[idx[0]].b = 0`
  | clear (r : DiskCall B) (c : DescIdx)
  -- `free_chain`, at descriptor `i`
  | free (r : DiskCall B) (c : DescIdx) (i : Nat)
  -- about to release the lock and to return
  | leave (r : DiskCall B)
  -- `virtio_disk_intr`
  | intrStart
  | intrLoop
  | intrEntry (id : Nat)
  | intrLeave

namespace VirtioPc

variable {B : Type}

/- Where a thread goes on when it is woken up. -/
def wake : VirtioPc B → VirtioPc B
| .sleepFree r => .start r
| .sleepBuf r c => .woken r c
| pc => pc

/- Does a thread sleep on `&disk.free[0]`? -/
def onFree : VirtioPc B → Bool
| .sleepFree _ => true
| _ => false

/- Does a thread sleep on the buffer? -/
def onBuf [DecidableEq B] (b : B) : VirtioPc B → Bool
| .sleepBuf r _ => r.b = b
| _ => false

/- Is a thread between `acquire` and `release`? -/
def locked : VirtioPc B → Bool
| .alloc _ => true
| .format _ _ => true
| .offer _ _ => true
| .bump _ _ => true
| .wait _ _ => true
| .clear _ _ => true
| .free _ _ _ => true
| .leave _ => true
| .intrLoop => true
| .intrEntry _ => true
| .intrLeave => true
| _ => false

/- The call that a thread is in. -/
def call : VirtioPc B → Option (DiskCall B)
| .start r => some r
| .alloc r => some r
| .sleepFree r => some r
| .format r _ => some r
| .offer r _ => some r
| .bump r _ => some r
| .wait r _ => some r
| .sleepBuf r _ => some r
| .woken r _ => some r
| .clear r _ => some r
| .free r _ _ => some r
| .leave r => some r
| _ => none

end VirtioPc

structure VirtioDisk (T B : Type) where
  desc : Nat → VirtqDesc B
  -- `avail->ring` and `avail->idx`; the device counts the
  -- entries it has read
  avail : RingBuffer Nat 16
  -- `used->ring`, `used->idx` and `used_idx`
  used : RingBuffer Nat 16
  free : Nat → Bool
  info : Nat → DiskInfo B
  ops : Nat → VirtioBlkReq
  lock : Option T
  -- `b->disk`, and the holder of `b->lock`
  disk : B → Bool
  owner : B → Option T
  pc : T → VirtioPc B
  -- chains that the device has read, and has performed
  taken : List Nat
  done : List Nat
  performed : List (DiskOp B)
  offered : List Nat
  fetched : List Nat
  pushed : List Nat
  popped : List Nat

/- The panics of the driver, and two wild accesses. -/
inductive VirtioFault where
  | freeDesc1
  | freeDesc2
  | intrStatus
  -- the interrupt handler uses a null pointer
  | nullBuf
  -- the device reads a chain that is not a request
  | badChain
  deriving DecidableEq

inductive VirtioAction (T B : Type) where
  -- `acquiresleep(&b->lock)` and `releasesleep(&b->lock)`
  | lockBuf (t : T) (b : B)
  | unlockBuf (t : T) (b : B)
  | rw (t : T) (b : B) (blockno : BitVec 32) (type : BlkType)
  | intr (t : T)
  | acquire (t : T)
  | run (t : T)
  | kill (t : T)
  -- the device reads the avail ring
  | fetch
  -- the device performs a chain, or appends its head
  | perform (head : Nat)
  | complete (head : Nat)

-------
-- Descriptors
-------

variable {T B : Type} [DecidableEq T] [DecidableEq B]

/- An unused descriptor. -/
def VirtqDesc.zero : VirtqDesc B where
  addr := .null
  len := 0
  flags := 0
  next := 0

namespace VirtioDisk

def setPc (s : VirtioDisk T B) (t : T) (c : VirtioPc B) : VirtioDisk T B :=
  { s with pc := update s.pc t c }

/- `wakeup`, for the threads that satisfy the test. -/
def wakeup (s : VirtioDisk T B) (sleeps : VirtioPc B → Bool) : VirtioDisk T B :=
  { s with
    pc := fun t => if sleeps (s.pc t) then (s.pc t).wake else s.pc t }

/- Find a free descriptor and mark it non-free. -/
def allocDesc (s : VirtioDisk T B) : Option (Nat × VirtioDisk T B) :=
  match (List.range NUM).find? s.free with
  | some i =>
    some (i,
      { s with free := update s.free i false })
  | none => none

/- Mark a descriptor as free. -/
def freeDesc (s : VirtioDisk T B) (i : Nat) : Outcome VirtioFault (VirtioDisk T B) :=
  if NUM ≤ i then .fault .freeDesc1
  else if s.free i then .fault .freeDesc2
  else
    .next ({ s with
        desc := update s.desc i .zero
        free := update s.free i true
        }.wakeup VirtioPc.onFree)

/-
  Allocate three descriptors, or none. The loop of the source
  is unrolled.
-/
def alloc3Desc (s : VirtioDisk T B) : Outcome VirtioFault (Option DescIdx × VirtioDisk T B) :=
  match s.allocDesc with
  | none => .next (none, s)
  | some (i0, s₀) =>
    match s₀.allocDesc with
    | none => (s₀.freeDesc i0).map (fun s' => (none, s'))
    | some (i1, s₁) =>
      match s₁.allocDesc with
      | none => ((s₁.freeDesc i0).bind (fun s' => s'.freeDesc i1)).map (fun s' => (none, s'))
      | some (i2, s₂) => .next (some ⟨i0, i1, i2⟩, s₂)

/- Format the three descriptors and record the buffer. -/
def formatDesc (s : VirtioDisk T B) (r : DiskCall B) (c : DescIdx) : VirtioDisk T B :=
  { s with
    ops :=
      update s.ops c.i0
        { type := r.type, sector := r.sector }
    desc :=
      update (update (update s.desc c.i0
            { addr := .ops c.i0
              len := 16
              flags := VRING_DESC_F_NEXT
              next := c.i1 })
          c.i1
          { addr := .data r.b
            len := 1024
            flags :=
              (if r.type = .write then 0
                else VRING_DESC_F_WRITE) |||
                VRING_DESC_F_NEXT
            next := c.i2 })
        c.i2
        { addr := .status c.i0
          len := 1
          flags := VRING_DESC_F_WRITE
          next := 0 }
    info :=
      update s.info c.i0
        { b := some r.b, status := 0xff }
    disk := update s.disk r.b true }

-------
-- Steps
-------

/- One step of a thread that holds the lock. -/
def run (s : VirtioDisk T B) (t : T) :
    VirtioPc B → Outcome VirtioFault (VirtioDisk T B)
| .alloc r =>
    s.alloc3Desc.map (fun x =>
      match x with
      | (some c, s') => s'.setPc t (.format r c)
      | (none, s') =>
        { s' with lock := none }.setPc t (.sleepFree r))
| .format r c => .next ((s.formatDesc r c).setPc t (.offer r c))
| .offer r c => .next ({ s with avail := s.avail.store NUM c.i0 }.setPc t (.bump r c))
| .bump r c =>
    .next ({ s with
        avail := s.avail.advance
        offered := s.offered ++ [c.i0] }.setPc t (.wait r c))
| .wait r c =>
    if s.disk r.b then
      .next ({ s with lock := none }.setPc t (.sleepBuf r c))
    else .next (s.setPc t (.clear r c))
| .clear r c =>
    .next ({ s with
        info :=
          update s.info c.i0
            { s.info c.i0 with b := none }
        }.setPc t (.free r c c.i0))
| .free r c i =>
    let d := s.desc i
    (s.freeDesc i).map (fun s' =>
      if d.has VRING_DESC_F_NEXT then
        s'.setPc t (.free r c d.next)
      else s'.setPc t (.leave r))
| .leave _ => .next ({ s with lock := none }.setPc t .out)
| .intrLoop =>
    if s.used.nread = s.used.nwrite then
      .next (s.setPc t .intrLeave)
    else .next (s.setPc t (.intrEntry (s.used.front NUM)))
| .intrEntry id =>
    if (s.info id).status ≠ 0 then .fault .intrStatus
    else
      match (s.info id).b with
      | none => .fault .nullBuf
      | some b =>
        .next (({ s with
            disk := update s.disk b false
            used := s.used.pop
            popped := s.popped ++ [id]
            }.wakeup (VirtioPc.onBuf b)).setPc t .intrLoop)
| .intrLeave => .next ({ s with lock := none }.setPc t .out)
| _ => .disabled

/-
  The request that a chain describes, and the place of its
  status byte.
-/
def chain (s : VirtioDisk T B) (head : Nat) : Option (DiskOp B × Nat) :=
  let d0 := s.desc head
  let d1 := s.desc d0.next
  let d2 := s.desc d1.next
  match d0.addr, d1.addr, d2.addr with
  | .ops i, .data b, .status j =>
    let op := s.ops i
    if d0.has VRING_DESC_F_NEXT = true ∧ d0.len = 16 ∧
        d1.has VRING_DESC_F_NEXT = true ∧ d1.len = 1024 ∧
        (d1.has VRING_DESC_F_WRITE = true ↔ op.type = .read) ∧
        d2.has VRING_DESC_F_NEXT = false ∧ d2.len = 1 ∧
        d2.has VRING_DESC_F_WRITE = true then
      some ({ type := op.type, sector := op.sector, b := b }, j)
    else none
  | _, _, _ => none

end VirtioDisk

/- The effect of an action, if it can be taken. -/
def virtioStep (s : VirtioDisk T B) :
    VirtioAction T B → Outcome VirtioFault (VirtioDisk T B)
| .lockBuf t b =>
    match s.pc t, s.owner b with
    | .out, none =>
      .next
        { s with owner := update s.owner b (some t) }
    | _, _ => .disabled
| .unlockBuf t b =>
    match s.pc t with
    | .out =>
      if s.owner b = some t then
        .next
          { s with owner := update s.owner b none }
      else .disabled
    | _ => .disabled
| .rw t b blockno type =>
    match s.pc t with
    | .out =>
      if s.owner b = some t then
        .next (s.setPc t (.start
            { b := b
              blockno := blockno
              type := type
              start := s.performed.length }))
      else .disabled
    | _ => .disabled
| .intr t =>
    match s.pc t with
    | .out => .next (s.setPc t .intrStart)
    | _ => .disabled
| .acquire t =>
    if s.lock = none then
      match s.pc t with
      | .start r => .next ({ s with lock := some t }.setPc t (.alloc r))
      | .woken r c => .next ({ s with lock := some t }.setPc t (.wait r c))
      | .intrStart => .next ({ s with lock := some t }.setPc t .intrLoop)
      | _ => .disabled
    else .disabled
| .run t =>
    if s.lock = some t then s.run t (s.pc t)
    else .disabled
| .kill t => .next (s.setPc t (s.pc t).wake)
| .fetch =>
    if s.avail.nread = s.avail.nwrite then .disabled
    else
      .next
        { s with
          avail := s.avail.pop
          taken := s.avail.front NUM :: s.taken
          fetched := s.fetched ++ [s.avail.front NUM] }
| .perform head =>
    if head ∈ s.taken then
      match s.chain head with
      | none => .fault .badChain
      | some (op, j) =>
        .next
          { s with
            taken := s.taken.erase head
            done := head :: s.done
            info :=
              update s.info j
                { s.info j with status := 0 }
            performed := s.performed ++ [op] }
    else .disabled
| .complete head =>
    if head ∈ s.done then
      .next
        { s with
          done := s.done.erase head
          used := s.used.push NUM head
          pushed := s.pushed ++ [head] }
    else .disabled

/- The state after `virtio_disk_init`. -/
def VirtioDisk.start : VirtioDisk T B where
  desc := fun _ => .zero
  avail := { data := fun _ => 0, nread := 0, nwrite := 0 }
  used := { data := fun _ => 0, nread := 0, nwrite := 0 }
  free := fun i => i < NUM
  info := fun _ => { b := none, status := 0 }
  ops := fun _ => { type := .read, sector := 0 }
  lock := none
  disk := fun _ => false
  owner := fun _ => none
  pc := fun _ => .out
  taken := []
  done := []
  performed := []
  offered := []
  fetched := []
  pushed := []
  popped := []

/- The driver and the device. -/
def virtioSystem :
    System (VirtioDisk T B) (VirtioAction T B) VirtioFault where
  init := fun s => s = VirtioDisk.start
  step := virtioStep

end Xv6
