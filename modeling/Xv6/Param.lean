import Xv6.Lib.Bytes

/-
  Constants of `param.h` and `fs.h`, and the kernel's
  panics.

  Key definitions include:
    * `Block`
    * `Disk`
    * `Panic`
-/

-------
-- Parameters
-------

namespace Xv6

/- Device number of the file system's root disk. -/
abbrev ROOTDEV : Nat := 1

/- Most blocks that one file-system operation writes. -/
abbrev MAXOPBLOCKS : Nat := 10

/- Most data blocks in the on-disk log. -/
abbrev LOGSIZE : Nat := MAXOPBLOCKS * 3

/- Size of the disk block cache. -/
abbrev NBUF : Nat := MAXOPBLOCKS * 3

/- Size of the file system that `mkfs` makes, in blocks. -/
abbrev FSSIZE : Nat := 2000

/- Block size. -/
abbrev BSIZE : Nat := 1024

/- Direct block addresses in an inode. -/
abbrev NDIRECT : Nat := 12

/- Block addresses in an indirect block. -/
abbrev NINDIRECT : Nat := BSIZE / 4

/- Most blocks of one file. -/
abbrev MAXFILE : Nat := NDIRECT + NINDIRECT

/- Inodes per block. -/
abbrev IPB : Nat := BSIZE / 64

/- Bitmap bits per block. -/
abbrev BPB : Nat := BSIZE * 8

/- The root directory's inode number. -/
abbrev ROOTINO : Nat := 1

/- Longest name in a directory entry. -/
abbrev DIRSIZ : Nat := 14

/- Longest path of a system call, with its end mark. -/
abbrev MAXPATH : Nat := 128

/- Most inodes in use at a time. -/
abbrev NINODE : Nat := 50

/- Most processes. -/
abbrev NPROC : Nat := 64

/- Open files per process, and in the system. -/
abbrev NOFILE : Nat := 16
abbrev NFILE : Nat := 100

/- Major device numbers are below this. -/
abbrev NDEV : Nat := 10

/- Contents of one block: `uchar data[BSIZE]`. -/
abbrev Block : Type := Bytes BSIZE

/- The disk, a map from block numbers to contents. -/
abbrev Disk : Type := Nat → Block

-------
-- Panics
-------

/- Calls of `panic`, each with its message. -/
inductive Panic where
  -- "bget: no buffers"
  | bgetNoBuffers
  -- "bwrite"
  | bwrite
  -- "brelse"
  | brelse
  -- "log.committing"
  | logCommitting
  -- "too big a transaction"
  | tooBigTransaction
  -- "log_write outside of trans"
  | logWriteOutsideTrans
  -- "freeing free block"
  | freeingFreeBlock
  -- "iget: no inodes"
  | igetNoInodes
  -- "ilock"
  | ilock
  -- "ilock: no type"
  | ilockNoType
  -- "iunlock"
  | iunlock
  -- "bmap: out of range"
  | bmapOutOfRange
  -- "dirlookup not DIR"
  | dirlookupNotDir
  -- "dirlookup read"
  | dirlookupRead
  -- "dirlink read"
  | dirlinkRead
  -- "isdirempty: readi"
  | isdiremptyReadi
  -- "unlink: nlink < 1"
  | unlinkNlink
  -- "unlink: writei"
  | unlinkWritei
  deriving DecidableEq, Repr

end Xv6
