import Xv6.Fs.Layout
import Xv6.Lib.Prog

/-
  The inode layer of `fs.c`: block allocation, the inode
  table, and reading and writing the contents of inodes.

  Calls run one at a time on the array of blocks that the
  log and the buffer cache present. The inode table is a
  map from inode numbers, since `iget` keeps at most one
  entry in use for a number; `used` counts the entries in
  use, and a pointer to an entry is its inode number. The
  sleep lock of an inode is free whenever a call takes it,
  with one exception, which `sysUnlink` states.

  Key definitions include:
    * `Fs`
    * `balloc`, `bfree`
    * `ialloc`, `iupdate`
    * `iget`, `ilock`, `iput`
    * `bmap`, `itrunc`
    * `readi`, `writei`
-/

open Function

-------
-- State
-------

namespace Xv6

/- `struct inode`, the in-memory copy of an inode. -/
structure Inode where
  ref : Int
  -- has the inode been read from disk?
  valid : Bool
  -- copy of the disk inode
  copy : Dinode

/- The blocks and the inode table. -/
structure Fs where
  disk : Disk
  itable : Nat → Inode
  -- table entries with `ref > 0`
  used : Nat

/- How a call ends without returning. -/
inductive Halt where
  | panic (p : Panic)
  -- sleeps on a lock that the call itself holds
  | sleep
  deriving DecidableEq

/- File-system code. -/
abbrev FsM (α : Type) : Type := Prog Fs Halt α

namespace Fs

/- Change one block. -/
def setBlock (s : Fs) (b : Nat) (x : Block) : Fs :=
  { s with disk := update s.disk b x }

/- Change one entry of the inode table. -/
def setInode (s : Fs) (i : Nat) (ip : Inode) : Fs :=
  { s with itable := update s.itable i ip }

/- Change the copy of the disk inode in memory. -/
def setCopy (s : Fs) (i : Nat) (di : Dinode) : Fs := s.setInode i { s.itable i with copy := di }

/- The copy of the disk inode in memory. -/
def copy (s : Fs) (i : Nat) : Dinode := (s.itable i).copy

@[simp] theorem setBlock_disk (s : Fs) (b : Nat) (x : Block) :
    (s.setBlock b x).disk = update s.disk b x :=
  rfl

@[simp] theorem setInode_disk (s : Fs) (i : Nat) (ip : Inode) : (s.setInode i ip).disk = s.disk :=
  rfl

@[simp] theorem setInode_itable (s : Fs) (i : Nat) (ip : Inode) :
    (s.setInode i ip).itable = update s.itable i ip :=
  rfl

@[simp] theorem setCopy_disk (s : Fs) (i : Nat) (di : Dinode) : (s.setCopy i di).disk = s.disk :=
  rfl

@[simp] theorem setCopy_copy (s : Fs) (i : Nat) (di : Dinode) : (s.setCopy i di).copy i = di := by
  simp [copy, setCopy]

end Fs

/- Stop with a panic. -/
def panicWith {α : Type} (p : Panic) : FsM α := Prog.stop (.panic p)

-------
-- Blocks
-------

variable (sb : Superblock)

/- Zero a block. -/
def bzero (b : Nat) : FsM Unit := Prog.edit (fun s => s.setBlock b Bytes.zero)

/- Allocate a zeroed disk block; 0 if out of disk space. -/
def balloc : FsM Nat := do
  let s ← Prog.read
  match (List.range sb.size).find? (fun b => !sb.bit s.disk b) with
  | some b => do
      Prog.edit (fun s =>
        { s with disk := sb.setBit s.disk b true })
      bzero b
      return b
  | none => return 0

/- Free a disk block. -/
def bfree (b : Nat) : FsM Unit := do
  let s ← Prog.read
  if sb.bit s.disk b = false then
    panicWith .freeingFreeBlock
  else
    Prog.edit (fun s =>
      { s with disk := sb.setBit s.disk b false })

-------
-- Inode Table
-------

/- Copy a modified in-memory inode to disk. -/
def iupdate (i : Nat) : FsM Unit :=
  Prog.edit (fun s =>
    { s with disk := sb.putDinode s.disk i (s.copy i) })

/- Find or create the table entry of an inode number. -/
def iget (i : Nat) : FsM Nat := do
  let s ← Prog.read
  if 0 < (s.itable i).ref then do
    Prog.edit (fun s => s.setInode i
      { s.itable i with ref := (s.itable i).ref + 1 })
    return i
  else if s.used < NINODE then do
    Prog.edit (fun s =>
      { s.setInode i
          { s.itable i with ref := 1, valid := false }
        with used := s.used + 1 })
    return i
  else panicWith .igetNoInodes

/- Increment the reference count. -/
def idup (i : Nat) : FsM Nat := do
  Prog.edit (fun s => s.setInode i
    { s.itable i with ref := (s.itable i).ref + 1 })
  return i

/- Allocate an inode with the given type. -/
def ialloc (type : BitVec 16) : FsM (Option Nat) := do
  let s ← Prog.read
  match (List.range' 1 (sb.ninodes - 1)).find? (fun i => (sb.dinode s.disk i).type == 0) with
  | some i => do
      Prog.edit (fun s =>
        { s with
          disk :=
            (sb.putDinode s.disk i
              { Dinode.zero with type := type }) })
      let ip ← iget i
      return some ip
  | none => return none

/- Lock an inode, reading it from disk if necessary. -/
def ilock (i : Nat) : FsM Unit := do
  let s ← Prog.read
  if (s.itable i).ref < 1 then panicWith .ilock
  else if (s.itable i).valid then return ()
  else do
    Prog.edit (fun s => s.setInode i
      { s.itable i with
        valid := true
        copy := sb.dinode s.disk i })
    if (sb.dinode s.disk i).type = 0 then
      panicWith .ilockNoType
    else return ()

/- Unlock an inode. -/
def iunlock (i : Nat) : FsM Unit := do
  let s ← Prog.read
  if (s.itable i).ref < 1 then panicWith .iunlock
  else return ()

-------
-- Block Map
-------

/- Position of the indirect block in `addrs`. -/
def indirect : Fin (NDIRECT + 1) := ⟨NDIRECT, by decide⟩

/- Entry `j` of a block of addresses. -/
def addrAt (x : Block) (j : Nat) : Nat := x.getLE (4 * j) 4

/- Change one address of an inode in memory. -/
def Dinode.setAddr (di : Dinode) (j : Fin (NDIRECT + 1)) (a : Nat) : Dinode :=
  { di with
    addrs := update di.addrs j (BitVec.ofNat 32 a) }

/- The block at position `j` of `addrs`, allocated if none. -/
def bmapAddr (i : Nat) (j : Fin (NDIRECT + 1)) : FsM Nat := do
  let s ← Prog.read
  if (s.copy i).addrs j = 0 then do
    let addr ← balloc sb
    if addr = 0 then return 0
    else do
      Prog.edit (fun s => s.setCopy i ((s.copy i).setAddr j addr))
      return addr
  else return ((s.copy i).addrs j).toNat

/- Entry `j` of an indirect block, allocated if none. -/
def bmapEntry (ind j : Nat) : FsM Nat := do
  let s ← Prog.read
  if addrAt (s.disk ind) j = 0 then do
    let addr ← balloc sb
    if addr = 0 then return 0
    else do
      Prog.edit (fun s => s.setBlock ind ((s.disk ind).putLE (4 * j) 4 addr))
      return addr
  else return addrAt (s.disk ind) j

/-
  The disk block of the `bn`th block of inode `i`. If there
  is none, one is allocated; 0 if out of disk space.
-/
def bmap (i bn : Nat) : FsM Nat := do
  if h : bn < NDIRECT then
    bmapAddr sb i ⟨bn, Nat.lt_succ_of_lt h⟩
  else if bn - NDIRECT < NINDIRECT then do
    let ind ← bmapAddr sb i indirect
    if ind = 0 then return 0
    else bmapEntry sb ind (bn - NDIRECT)
  else panicWith .bmapOutOfRange

/- Free the block at position `j` of `addrs`, if any. -/
def itruncAddr (i : Nat) (j : Fin (NDIRECT + 1)) : FsM Unit := do
  let s ← Prog.read
  if (s.copy i).addrs j = 0 then return ()
  else do
    bfree sb ((s.copy i).addrs j).toNat
    Prog.edit (fun s => s.setCopy i ((s.copy i).setAddr j 0))

/- Free entry `j` of the indirect block `ind`, if any. -/
def itruncEntry (ind j : Nat) : FsM Unit := do
  let s ← Prog.read
  if addrAt (s.disk ind) j = 0 then return ()
  else bfree sb (addrAt (s.disk ind) j)

/- Free the direct block `j`, if any. -/
def itruncDirect (i j : Nat) : FsM Unit :=
  if h : j < NDIRECT then
    itruncAddr sb i ⟨j, Nat.lt_succ_of_lt h⟩
  else return ()

/- Free the indirect block and its entries, if any. -/
def itruncIndirect (i : Nat) : FsM Unit := do
  let s ← Prog.read
  if (s.copy i).addrs indirect = 0 then return ()
  else do
    Prog.forFrom (itruncEntry sb ((s.copy i).addrs indirect).toNat) 0 NINDIRECT
    itruncAddr sb i indirect

/- Truncate an inode: discard its contents. -/
def itrunc (i : Nat) : FsM Unit := do
  Prog.forFrom (itruncDirect sb i) 0 NDIRECT
  itruncIndirect sb i
  Prog.edit (fun s => s.setCopy i { s.copy i with size := 0 })
  iupdate sb i

/- Truncate and free an inode on disk. -/
def ifree (i : Nat) : FsM Unit := do
  itrunc sb i
  Prog.edit (fun s => s.setCopy i { s.copy i with type := 0 })
  iupdate sb i
  Prog.edit (fun s => s.setInode i
    { s.itable i with valid := false })

/- Decrement the reference count. -/
def idrop (i : Nat) : FsM Unit :=
  Prog.edit (fun s =>
    { s.setInode i
        { s.itable i with ref := (s.itable i).ref - 1 }
      with
      used := if (s.itable i).ref = 1 then s.used - 1
        else s.used })

/-
  Drop a reference to an in-memory inode. If that was the
  last reference and the inode has no links, free it.
-/
def iput (i : Nat) : FsM Unit := do
  let s ← Prog.read
  if (s.itable i).ref = 1 ∧ (s.itable i).valid = true ∧ (s.copy i).nlink = 0 then do
    ifree sb i
    idrop i
  else idrop i

/- Common idiom: unlock, then put. -/
def iunlockput (i : Nat) : FsM Unit := do
  iunlock i
  iput sb i

-------
-- Inode Contents
-------

/-
  The loop of `readi`, with the bytes copied out so far.
  `copyout` says whether the copy that starts after so many
  bytes succeeds.
-/
def readiLoop (i : Nat) (copyout : Nat → Bool) :
    Nat → Nat → Nat → List UInt8 → FsM (Int × List UInt8)
| 0, _, _, dst => return (dst.length, dst)
| fuel + 1, off, left, dst => do
    if left = 0 then return (dst.length, dst)
    else do
      let addr ← bmap sb i (off / BSIZE)
      if addr = 0 then return (dst.length, dst)
      else do
        let s ← Prog.read
        let m := min left (BSIZE - off % BSIZE)
        if copyout dst.length then
          readiLoop i copyout fuel (off + m) (left - m) (dst ++ (s.disk addr).slice (off % BSIZE) m)
        else return (-1, dst)

/- Read data from an inode; returns `tot` and the data. -/
def readi (i : Nat) (copyout : Nat → Bool) (off n : BitVec 32) : FsM (Int × List UInt8) := do
  let s ← Prog.read
  let size := (s.copy i).size
  if size < off ∨ off + n < off then return (0, [])
  else
    let n := if size < off + n then size - off else n
    readiLoop sb i copyout n.toNat off.toNat n.toNat []

/- The bytes from `src + tot` up to `src + tot + m`. -/
def srcBytes (src : Nat → UInt8) (tot m : Nat) : List UInt8 :=
  (List.range m).map (fun k => src (tot + k))

/-
  The loop of `writei`; returns the final `off` and `tot`.
  `copyin` says how the copy that starts after so many bytes
  ends: `none` if it succeeds, and otherwise after how many
  bytes it fails.
-/
def writeiLoop (i : Nat) (src : Nat → UInt8) (copyin : Nat → Option Nat) :
    Nat → Nat → Nat → Nat → FsM (Nat × Nat)
| 0, off, tot, _ => return (off, tot)
| fuel + 1, off, tot, left => do
    if left = 0 then return (off, tot)
    else do
      let addr ← bmap sb i (off / BSIZE)
      if addr = 0 then return (off, tot)
      else
        let m := min left (BSIZE - off % BSIZE)
        match copyin tot with
        | some k => do
            Prog.edit (fun s => s.setBlock addr
              ((s.disk addr).splice (off % BSIZE) (srcBytes src tot (min k m))))
            return (off, tot)
        | none => do
            Prog.edit (fun s => s.setBlock addr
              ((s.disk addr).splice (off % BSIZE) (srcBytes src tot m)))
            writeiLoop i src copyin fuel (off + m) (tot + m) (left - m)

/- Write data to an inode. -/
def writei (i : Nat) (src : Nat → UInt8) (copyin : Nat → Option Nat)
    (off n : BitVec 32) : FsM Int := do
  let s ← Prog.read
  if (s.copy i).size < off ∨ off + n < off then return -1
  else if MAXFILE * BSIZE < (off + n).toNat then return -1
  else do
    let (last, tot) ← writeiLoop sb i src copyin n.toNat off.toNat 0 n.toNat
    Prog.edit (fun s =>
      if (s.copy i).size.toNat < last then
        s.setCopy i
          { s.copy i with size := BitVec.ofNat 32 last }
      else s)
    iupdate sb i
    return tot

/- Copies within the kernel do not fail. -/
def copies (_ : Nat) : Bool := true

def copiesIn (_ : Nat) : Option Nat := none

end Xv6
