import Xv6.Fs.Syscall
import Xv6.Proc.Machine

/-
  Open files: `file.c`, the ends of pipes, and the tables of
  descriptors that processes have.

  Calls run one at a time. What a user address or the memory
  allocator answers is a parameter of the call. The disk at
  the end of every transaction is recorded, since these are
  the disks that a crash can leave after recovery.

  Key definitions include:
    * `OpenFile`
    * `UserProc`
    * `Sys`
    * `filealloc`, `filedup`, `fileclose`
    * `pipealloc`, `Sys.pipeclose`
    * `fdalloc`
-/

open Function

-------
-- State
-------

namespace Xv6

/- The types `FD_NONE`, `FD_PIPE`, `FD_INODE`, `FD_DEVICE`. -/
inductive FdType where
  | none
  | pipe
  | inode
  | device
  deriving DecidableEq

/- `struct file`. -/
structure OpenFile where
  type : FdType
  ref : Int
  readable : Bool
  writable : Bool
  -- for pipes
  pipe : Nat
  -- for inodes and devices
  ip : Nat
  off : BitVec 32
  major : BitVec 16

/- `struct pipe`, without its data. -/
structure PipeEnds where
  readopen : Bool
  writeopen : Bool
  deriving DecidableEq

/- The fields of `struct proc` that refer to resources. -/
structure UserProc (P : Type) where
  state : ProcState
  pid : Int
  parent : Option P
  ofile : Fin NOFILE → Option (Fin NFILE)
  -- an inode number
  cwd : Option Nat

/- The kernel's tables. -/
structure Sys (P : Type) where
  fs : Fs
  ftable : Fin NFILE → OpenFile
  proc : P → UserProc P
  nextpid : Int
  -- pages that hold a pipe
  pipes : Nat → Option PipeEnds
  -- disks at the ends of transactions, the last one first
  commits : List Disk

/- How a system call ends without returning. -/
inductive SysHalt where
  | fs (e : Halt)
  | filedup
  | fileclose
  | fileread
  | filewrite
  | initExiting
  -- sleeps, or cannot be answered in this way
  | blocks
  deriving DecidableEq

/- System calls. -/
abbrev SysM (P α : Type) : Type := Prog (Sys P) SysHalt α

/- The slots of the process table. -/
structure Procs (P : Type) where
  procs : List P
  mem_procs : ∀ p, p ∈ procs
  initproc : P

namespace Sys

variable {P : Type}

/- Change one entry of the file table. -/
def setFile (s : Sys P) (f : Fin NFILE) (v : OpenFile) : Sys P :=
  { s with ftable := update s.ftable f v }

/- The inode of the current directory. -/
def cwd (s : Sys P) (p : P) : Nat := (s.proc p).cwd.getD 0

variable [DecidableEq P]

/- Change one process. -/
def setProc (s : Sys P) (p : P) (v : UserProc P) : Sys P :=
  { s with proc := update s.proc p v }

/- Change one descriptor. -/
def setFd (s : Sys P) (p : P) (fd : Fin NOFILE) (f : Option (Fin NFILE)) : Sys P :=
  s.setProc p
    { s.proc p with
      ofile := update (s.proc p).ofile fd f }

end Sys

/- File-system code in a system call. -/
def inFs {P α : Type} (m : FsM α) : SysM P α :=
  Prog.zoom Sys.fs (fun s fs => { s with fs := fs }) .fs m

/- `end_op`: the transaction is complete. -/
def Sys.endOp {P : Type} : SysM P Unit :=
  Prog.edit (fun s =>
    { s with commits := s.fs.disk :: s.commits })

-------
-- Pipes
-------

variable {P : Type}

/- One end of a pipe is closed. -/
def PipeEnds.close (e : PipeEnds) (writable : Bool) : PipeEnds :=
  if writable then { e with writeopen := false }
  else { e with readopen := false }

/- The page is freed when both ends are closed. -/
def PipeEnds.shut (e : PipeEnds) : Option PipeEnds :=
  if e.readopen = false ∧ e.writeopen = false then none
  else some e

/- Close one end of a pipe. -/
def Sys.pipeclose (pi : Nat) (writable : Bool) : SysM P Unit :=
  Prog.edit (fun s =>
    { s with
      pipes := update s.pipes pi ((s.pipes pi).bind (fun e => (e.close writable).shut)) })

-------
-- The File Table
-------

variable {P : Type} (sb : Superblock)

/- Allocate a file structure. -/
def filealloc : SysM P (Option (Fin NFILE)) := do
  let s ← Prog.read
  match (List.finRange NFILE).find? (fun f => (s.ftable f).ref == 0) with
  | some f => do
      Prog.edit (fun s => s.setFile f { s.ftable f with ref := 1 })
      return some f
  | none => return none

/- Increment the reference count. -/
def filedup (f : Fin NFILE) : SysM P Unit := do
  let s ← Prog.read
  if (s.ftable f).ref < 1 then Prog.stop .filedup
  else
    Prog.edit (fun s =>
      s.setFile f
        { s.ftable f with ref := (s.ftable f).ref + 1 })

/- What `fileclose` does for the last reference. -/
def fileRelease (ff : OpenFile) : SysM P Unit :=
  match ff.type with
  | .pipe => Sys.pipeclose ff.pipe ff.writable
  | .inode => do
      inFs (iput sb ff.ip)
      Sys.endOp
  | .device => do
      inFs (iput sb ff.ip)
      Sys.endOp
  | .none => return ()

/- Decrement the reference count; close when it reaches 0. -/
def fileclose (f : Fin NFILE) : SysM P Unit := do
  let s ← Prog.read
  if (s.ftable f).ref < 1 then Prog.stop .fileclose
  else if 0 < (s.ftable f).ref - 1 then
    Prog.edit (fun s =>
      s.setFile f
        { s.ftable f with ref := (s.ftable f).ref - 1 })
  else do
    Prog.edit (fun s =>
      s.setFile f
        { s.ftable f with ref := 0, type := .none })
    fileRelease sb (s.ftable f)

/- The files for the two ends of a pipe. -/
def pipeReader (ff : OpenFile) (pi : Nat) : OpenFile :=
  { ff with
    type := .pipe
    readable := true
    writable := false
    pipe := pi }

def pipeWriter (ff : OpenFile) (pi : Nat) : OpenFile :=
  { ff with
    type := .pipe
    readable := false
    writable := true
    pipe := pi }

/-
  Make a pipe with its two files. `mem` is the page that
  `kalloc` returns.
-/
def pipealloc (mem : Option Nat) :
    SysM P (Option (Fin NFILE × Fin NFILE)) := do
  match ← filealloc with
  | none => return none
  | some f0 => do
      match ← filealloc with
      | none => do
          fileclose sb f0
          return none
      | some f1 =>
        match mem with
        | none => do
            fileclose sb f0
            fileclose sb f1
            return none
        | some pi => do
            let s ← Prog.read
            -- not a free page
            if s.pipes pi ≠ none then Prog.stop .blocks
            else do
              Prog.edit (fun s =>
                (({ s with
                    pipes := update s.pipes pi (some ⟨true, true⟩) }.setFile f0
                  (pipeReader (s.ftable f0) pi)).setFile f1 (pipeWriter (s.ftable f1) pi)))
              return some (f0, f1)

-------
-- Descriptors
-------

variable {P : Type} [DecidableEq P]

/- The descriptor of a user's number, and its file. -/
def argfd (s : Sys P) (p : P) (fd : Int) : Option (Fin NOFILE × Fin NFILE) :=
  if h : 0 ≤ fd ∧ fd.toNat < NOFILE then
    ((s.proc p).ofile ⟨fd.toNat, h.2⟩).map (fun f => (⟨fd.toNat, h.2⟩, f))
  else none

/-
  Allocate a descriptor for the file. It takes over the
  caller's reference.
-/
def fdalloc (p : P) (f : Fin NFILE) : SysM P (Option (Fin NOFILE)) := do
  let s ← Prog.read
  match (List.finRange NOFILE).find? (fun fd => (s.proc p).ofile fd == none) with
  | some fd => do
      Prog.edit (fun s => s.setFd p fd (some f))
      return some fd
  | none => return none

/-
  A path in user memory. It is refused if it cannot be read
  or is too long.
-/
def argstr (path : Option Path) : Option Path := path.filter (fun path => path.length < MAXPATH)

end Xv6
