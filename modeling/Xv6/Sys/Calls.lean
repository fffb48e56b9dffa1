import Xv6.Sys.Files

/-
  The system calls of `sysfile.c`, with `fork`, `exit` and
  `wait` of `proc.c` and `exec`, as far as they concern
  files and directories.

  Key definitions include:
    * `sysOpen`, `sysMkdir`, `sysMknod`
    * `sysChdir`, `sysClose`, `sysDup`
    * `sysPipe`
    * `sysRead`, `sysWrite`, `sysFstat`
    * `exec`, `fork`, `exit`, `wait`
    * `Procs.step`
    * `Procs.system`
-/

-------
-- Opening Files
-------

namespace Xv6

/- Modes of `open`. -/
abbrev O_RDONLY : BitVec 32 := 0x000
abbrev O_WRONLY : BitVec 32 := 0x001
abbrev O_RDWR : BitVec 32 := 0x002
abbrev O_CREATE : BitVec 32 := 0x200
abbrev O_TRUNC : BitVec 32 := 0x400

/- Is the flag set? -/
def hasFlag (omode flag : BitVec 32) : Bool := omode &&& flag ≠ 0

variable {P : Type} [DecidableEq P] (sb : Superblock)

/- Find an inode and lock it. -/
def nameiLock (cwd : Nat) (path : Path) : FsM (Option Nat) := do
  match ← namei sb cwd path with
  | none => return none
  | some ip => do
      ilock sb ip
      return some ip

/- The locked inode that `open` works on. -/
def openInode (cwd : Nat) (path : Path) (omode : BitVec 32) : FsM (Option Nat) := do
  if hasFlag omode O_CREATE then
    create sb cwd path T_FILE 0 0
  else
    match ← nameiLock sb cwd path with
    | none => return none
    | some ip => do
        let s ← Prog.read
        if (s.copy ip).type = T_DIR ∧ omode ≠ O_RDONLY
        then do
          iunlockput sb ip
          return none
        else return some ip

/- The fields of the file for an inode. -/
def openedFile (ff : OpenFile) (di : Dinode) (ip : Nat) (omode : BitVec 32) : OpenFile :=
  { ff with
    type := if di.type = T_DEVICE then .device else .inode
    major := if di.type = T_DEVICE then di.major else ff.major
    off := if di.type = T_DEVICE then ff.off else 0
    ip := ip
    readable := !hasFlag omode O_WRONLY
    writable := hasFlag omode O_WRONLY || hasFlag omode O_RDWR }

/- Is it a device with a major number out of range? -/
def badDevice (di : Dinode) : Bool :=
  di.type = T_DEVICE ∧ (di.major.toInt < 0 ∨ (NDEV : Int) ≤ di.major.toInt)

/- Discard the contents, if the mode asks for it. -/
def openTrunc (ip : Nat) (wanted : Bool) : FsM Unit := if wanted then itrunc sb ip else return ()

/- The failure exit of `open`, with the inode locked. -/
def openFail (ip : Nat) : SysM P Int := do
  inFs (iunlockput sb ip)
  Sys.endOp
  return -1

/- The part of `open` that makes the file. -/
def openFile (p : P) (ip : Nat) (omode : BitVec 32) : SysM P Int := do
  match ← filealloc with
  | none => openFail sb ip
  | some f => do
      match ← fdalloc p f with
      | none => do
          fileclose sb f
          openFail sb ip
      | some fd => do
          let s ← Prog.read
          Prog.edit (fun s => s.setFile f (openedFile (s.ftable f) (s.fs.copy ip) ip omode))
          inFs (openTrunc sb ip (hasFlag omode O_TRUNC ∧ (s.fs.copy ip).type = T_FILE))
          inFs (iunlock ip)
          Sys.endOp
          return fd.1

def sysOpen (p : P) (path : Option Path) (omode : BitVec 32) : SysM P Int := do
  match argstr path with
  | none => return -1
  | some path => do
      let s ← Prog.read
      match ← inFs (openInode sb (s.cwd p) path omode)
      with
      | none => do
          Sys.endOp
          return -1
      | some ip => do
          let s ← Prog.read
          if badDevice (s.fs.copy ip) then openFail sb ip
          else openFile sb p ip omode

-------
-- Names
-------

/- Make an inode and let go of it. -/
def createPut (p : P) (path : Option Path) (type major minor : BitVec 16) : SysM P Int := do
  match argstr path with
  | none => do
      Sys.endOp
      return -1
  | some path => do
      let s ← Prog.read
      match ← inFs (create sb (s.cwd p) path type major minor)
      with
      | none => do
          Sys.endOp
          return -1
      | some ip => do
          inFs (iunlockput sb ip)
          Sys.endOp
          return 0

def sysMkdir (p : P) (path : Option Path) : SysM P Int := createPut sb p path T_DIR 0 0

def sysMknod (p : P) (path : Option Path) (major minor : Int) : SysM P Int :=
  createPut sb p path T_DEVICE (BitVec.ofInt 16 major) (BitVec.ofInt 16 minor)

/- `sys_link` and `sys_unlink`, as calls of a process. -/
def procLink (p : P) (old new : Option Path) : SysM P Int := do
  match old, new with
  | some old, some new => do
      let s ← Prog.read
      let r ← inFs (sysLink sb (s.cwd p) old new)
      Sys.endOp
      return r
  | _, _ => return -1

def procUnlink (p : P) (path : Option Path) : SysM P Int := do
  match path with
  | some path => do
      let s ← Prog.read
      let r ← inFs (sysUnlink sb (s.cwd p) path)
      Sys.endOp
      return r
  | none => return -1

def sysChdir (p : P) (path : Option Path) : SysM P Int := do
  match argstr path with
  | none => do
      Sys.endOp
      return -1
  | some path => do
      let s ← Prog.read
      match ← inFs (nameiLock sb (s.cwd p) path) with
      | none => do
          Sys.endOp
          return -1
      | some ip => do
          let s ← Prog.read
          if (s.fs.copy ip).type ≠ T_DIR then
            openFail sb ip
          else do
            inFs (iunlock ip)
            inFs (iput sb (s.cwd p))
            Sys.endOp
            Prog.edit (fun s => s.setProc p { s.proc p with cwd := some ip })
            return 0

-------
-- Descriptors
-------

def sysDup (p : P) (fd : Int) : SysM P Int := do
  let s ← Prog.read
  match argfd s p fd with
  | none => return -1
  | some (_, f) => do
      match ← fdalloc p f with
      | none => return -1
      | some fd => do
          filedup f
          return fd.1

def sysClose (p : P) (fd : Int) : SysM P Int := do
  let s ← Prog.read
  match argfd s p fd with
  | none => return -1
  | some (fd, f) => do
      Prog.edit (fun s => s.setFd p fd none)
      fileclose sb f
      return 0

/- Both files of a pipe are closed. -/
def pipeFail (rf wf : Fin NFILE) : SysM P Int := do
  fileclose sb rf
  fileclose sb wf
  return -1

/-
  `mem` is what `kalloc` returns, and `ok` says whether the
  descriptors can be copied out.
-/
def sysPipe (p : P) (mem : Option Nat) (ok : Bool) : SysM P Int := do
  match ← pipealloc sb mem with
  | none => return -1
  | some (rf, wf) => do
      match ← fdalloc p rf with
      | none => pipeFail sb rf wf
      | some fd0 => do
          match ← fdalloc p wf with
          | none => do
              Prog.edit (fun s => s.setFd p fd0 none)
              pipeFail sb rf wf
          | some fd1 =>
            if ok then return 0
            else do
              Prog.edit (fun s => (s.setFd p fd0 none).setFd p fd1 none)
              pipeFail sb rf wf

/- `filestat`, if the user's address is valid. -/
def sysFstat (p : P) (fd : Int) (ok : Bool) : SysM P Int := do
  let s ← Prog.read
  match argfd s p fd with
  | none => return -1
  | some (_, f) =>
    if (s.ftable f).type = .inode ∨ (s.ftable f).type = .device then do
      inFs (ilock sb (s.ftable f).ip)
      inFs (iunlock (s.ftable f).ip)
      return if ok then 0 else -1
    else return -1

/- Move the offset of a file. -/
def advance (f : Fin NFILE) (r : Int) : SysM P Unit :=
  Prog.edit (fun s =>
    if 0 < r then
      s.setFile f
        { s.ftable f with
          off := (s.ftable f).off + BitVec.ofInt 32 r }
    else s)

/-
  `fileread`. What a pipe or a device returns is given by
  `r`, and `copyout` says which copies to the user succeed.
-/
def sysRead (p : P) (fd n : Int) (copyout : Nat → Bool) (r : Int) : SysM P Int := do
  let s ← Prog.read
  match argfd s p fd with
  | none => return -1
  | some (_, f) =>
    if (s.ftable f).readable = false then return -1
    else
      match (s.ftable f).type with
      | .pipe => return r
      | .device => return r
      | .inode => do
          inFs (ilock sb (s.ftable f).ip)
          let (r, _) ← inFs (readi sb (s.ftable f).ip copyout (s.ftable f).off (BitVec.ofInt 32 n))
          advance f r
          inFs (iunlock (s.ftable f).ip)
          return r
      | .none => Prog.stop .fileread

/- Most bytes that `filewrite` writes in a transaction. -/
def MAXWRITE : Nat := (MAXOPBLOCKS - 1 - 1 - 2) / 2 * BSIZE

/-
  The loop of `filewrite`, when `i` bytes have been written
  and `left` are left.
-/
def filewriteLoop (f : Fin NFILE) (ip : Nat) (src : Nat → UInt8) (copyin : Nat → Nat → Option Nat) :
    Nat → Nat → Nat → SysM P Nat
| 0, i, _ => return i
| fuel + 1, i, left => do
    if left = 0 then return i
    else do
      let n1 := min left MAXWRITE
      inFs (ilock sb ip)
      let s ← Prog.read
      let r ← inFs (writei sb ip (fun k => src (i + k)) (copyin i)
          (s.ftable f).off (BitVec.ofNat 32 n1))
      advance f r
      inFs (iunlock ip)
      Sys.endOp
      -- error from writei
      if r ≠ n1 then return i
      else
        filewriteLoop f ip src copyin fuel (i + n1) (left - n1)

def sysWrite (p : P) (fd n : Int) (src : Nat → UInt8) (copyin : Nat → Nat → Option Nat)
    (r : Int) : SysM P Int := do
  let s ← Prog.read
  match argfd s p fd with
  | none => return -1
  | some (_, f) =>
    if (s.ftable f).writable = false then return -1
    else
      match (s.ftable f).type with
      | .pipe => return r
      | .device => return r
      | .inode => do
          let i ← filewriteLoop sb f (s.ftable f).ip src copyin n.toNat 0 n.toNat
          return if (i : Int) = n then n else -1
      | .none => Prog.stop .filewrite

end Xv6

-------
-- Exec
-------

namespace Xv6

variable {P : Type} (sb : Superblock)

/- The number stored in `w` bytes at `off`. -/
def field (l : List UInt8) (off w : Nat) : Nat := decodeLE ((l.drop off).take w)

def ELF_MAGIC : Nat := 0x464C457F

/- The loop of `loadseg`, for the last `n` pages. -/
def loadsegLoop (ip offset sz : Nat) :
    Nat → Nat → FsM Bool
| 0, _ => return true
| n + 1, i => do
    let m := min (sz - i) 4096
    let (tot, _) ← readi sb ip copies (BitVec.ofNat 32 (offset + i)) (BitVec.ofNat 32 m)
    if tot ≠ m then return false
    else loadsegLoop ip offset sz n (i + 4096)

def loadseg (ip offset sz : Nat) : FsM Bool := loadsegLoop sb ip offset sz ((sz + 4095) / 4096) 0

/- Are the sizes in a program header acceptable? -/
def segmentOk (ph : List UInt8) : Bool :=
  field ph 32 8 ≤ field ph 40 8 ∧ field ph 16 8 + field ph 40 8 < 2 ^ 64 ∧ field ph 16 8 % 4096 = 0

/-
  The loop of `exec` over the last `n` program headers;
  `mem` says which allocations of memory succeed.
-/
def execLoop (ip : Nat) (mem : Nat → Bool) :
    Nat → Nat → FsM Bool
| 0, _ => return true
| n + 1, off => do
    let (tot, ph) ← readi sb ip copies (BitVec.ofNat 32 off) 56
    if tot ≠ 56 then return false
    else if field ph 0 4 ≠ 1 then
      execLoop ip mem n (off + 56)
    else if segmentOk ph = false then return false
    else if mem n = false then return false
    else do
      let ok ← loadseg sb ip (field ph 8 8 % 2 ^ 32) (field ph 32 8 % 2 ^ 32)
      if ok then execLoop ip mem n (off + 56)
      else return false

/- The part of `exec` that reads the program. -/
def execLoad (ip : Nat) (pagetable : Bool) (mem : Nat → Bool) : FsM Bool := do
  let (tot, elf) ← readi sb ip copies 0 64
  if tot ≠ 64 then return false
  else if field elf 0 4 ≠ ELF_MAGIC then return false
  else if pagetable = false then return false
  else execLoop sb ip mem (field elf 56 2) (field elf 32 8)

/-
  `sys_exec`. Whether the arguments can be read is given by
  `args`, and what becomes of the stack by `r`.
-/
def exec (p : P) (path : Option Path) (args pagetable : Bool) (mem : Nat → Bool)
    (r : Int) : SysM P Int := do
  match argstr path with
  | none => return -1
  | some path =>
    if args = false then return -1
    else do
      let s ← Prog.read
      match ← inFs (nameiLock sb (s.cwd p) path) with
      | none => do
          Sys.endOp
          return -1
      | some ip => do
          let ok ← inFs (execLoad sb ip pagetable mem)
          inFs (iunlockput sb ip)
          Sys.endOp
          return if ok then r else -1

-------
-- Processes
-------

variable [DecidableEq P]

/- `freeproc`, for a process without files. -/
def UserProc.free (v : UserProc P) : UserProc P :=
  { v with
    state := .unused
    pid := 0
    parent := none }

/- Give the child the parent's file `fd`. -/
def forkFile (p np : P) (fd : Fin NOFILE) : SysM P Unit := do
  let s ← Prog.read
  match (s.proc p).ofile fd with
  | none => return ()
  | some f => do
      filedup f
      Prog.edit (fun s => s.setFd np fd (some f))

/- The child `np` gets its files and starts to run. -/
def forkChild (p np : P) (pid : Int) : SysM P Int := do
  Prog.forEach (forkFile p np) (List.finRange NOFILE)
  let s ← Prog.read
  let cwd ← inFs (idup (s.cwd p))
  Prog.edit (fun s =>
    s.setProc np
      { s.proc np with
        cwd := some cwd
        parent := some p
        state := .runnable })
  return pid

/- `mem` says whether there is enough memory. -/
def fork (E : Procs P) (p : P) (mem : Bool) : SysM P Int := do
  let s ← Prog.read
  match E.procs.find? (fun q => (s.proc q).state == .unused) with
  | none => return -1
  | some np => do
      Prog.edit (fun s =>
        { s.setProc np
            { s.proc np with
              pid := s.nextpid
              state := .used }
          with nextpid := s.nextpid + 1 })
      if mem then forkChild p np s.nextpid
      else do
        Prog.edit (fun s => s.setProc np (s.proc np).free)
        return -1

/- Close the file `fd` of a process that exits. -/
def exitFile (p : P) (fd : Fin NOFILE) : SysM P Unit := do
  let s ← Prog.read
  match (s.proc p).ofile fd with
  | none => return ()
  | some f => do
      fileclose sb f
      Prog.edit (fun s => s.setFd p fd none)

/- Children of `p` become children of the first process. -/
def reparent (E : Procs P) (p : P) (proc : P → UserProc P) : P → UserProc P :=
  fun q =>
    if (proc q).parent = some p then
      { proc q with parent := some E.initproc }
    else proc q

def exit (E : Procs P) (p : P) : SysM P Int := do
  if p = E.initproc then Prog.stop .initExiting
  else do
    Prog.forEach (exitFile sb p) (List.finRange NOFILE)
    let s ← Prog.read
    inFs (iput sb (s.cwd p))
    Sys.endOp
    Prog.edit (fun s => s.setProc p { s.proc p with cwd := none })
    Prog.edit (fun s =>
      { s with proc := reparent E p s.proc })
    Prog.edit (fun s => s.setProc p { s.proc p with state := .zombie })
    return 0

/-
  `addr` says whether a status is wanted, and `ok` whether it
  can be copied out. A process that has to wait, and has not
  been killed, blocks.
-/
def wait (E : Procs P) (p : P) (addr ok killed : Bool) : SysM P Int := do
  let s ← Prog.read
  match E.procs.find? (fun q => (s.proc q).parent = some p ∧ (s.proc q).state = .zombie) with
  | some q =>
    if addr = true ∧ ok = false then return -1
    else do
      Prog.edit (fun s => s.setProc q (s.proc q).free)
      return (s.proc q).pid
  | none =>
    if (E.procs.all (fun q => (s.proc q).parent ≠ some p)) ∨ killed = true then
      return -1
    else Prog.stop .blocks

end Xv6

-------
-- The System
-------

namespace Xv6

/- System calls, with what the surroundings answer. -/
inductive SysCall where
  | open (path : Option Path) (omode : BitVec 32)
  | mkdir (path : Option Path)
  | mknod (path : Option Path) (major minor : Int)
  | link (old new : Option Path)
  | unlink (path : Option Path)
  | chdir (path : Option Path)
  | dup (fd : Int)
  | close (fd : Int)
  | pipe (mem : Option Nat) (ok : Bool)
  | fstat (fd : Int) (ok : Bool)
  | read (fd n : Int) (copyout : Nat → Bool) (r : Int)
  | write (fd n : Int) (src : Nat → UInt8)
      (copyin : Nat → Nat → Option Nat) (r : Int)
  | exec (path : Option Path) (args pagetable : Bool) (mem : Nat → Bool)
      (r : Int)
  | fork (mem : Bool)
  | exit
  | wait (addr ok killed : Bool)

inductive SysAction (P : Type) where
  | call (p : P) (c : SysCall)
  -- the machine stops and starts again; the last
  -- transactions may be lost
  | crash (lost : Nat)

variable {P : Type} [DecidableEq P]

namespace Procs

variable (E : Procs P) (sb : Superblock)

/- The code of a system call of `p`. -/
def code (p : P) : SysCall → SysM P Int
| .open path omode => sysOpen sb p path omode
| .mkdir path => sysMkdir sb p path
| .mknod path major minor => sysMknod sb p path major minor
| .link old new => procLink sb p old new
| .unlink path => procUnlink sb p path
| .chdir path => sysChdir sb p path
| .dup fd => sysDup p fd
| .close fd => sysClose sb p fd
| .pipe mem ok => sysPipe sb p mem ok
| .fstat fd ok => sysFstat sb p fd ok
| .read fd n copyout r => sysRead sb p fd n copyout r
| .write fd n src copyin r => sysWrite sb p fd n src copyin r
| .exec path args pagetable mem r => exec sb p path args pagetable mem r
| .fork mem => fork E p mem
| .exit => exit sb E p
| .wait addr ok killed => wait E p addr ok killed

/- The file system after a start from a disk. -/
def bootFs (d : Disk) : Fs where
  disk := d
  itable := fun i =>
    { ref := if i = ROOTINO then 1 else 0
      valid := false
      copy := Dinode.zero }
  used := 1

/- The tables after `userinit`. -/
def boot (d : Disk) : Sys P where
  fs := bootFs d
  ftable := fun _ =>
    { type := .none
      ref := 0
      readable := false
      writable := false
      pipe := 0
      ip := 0
      off := 0
      major := 0 }
  proc := fun p =>
    if p = E.initproc then
      { state := .runnable
        pid := 1
        parent := none
        ofile := fun _ => none
        cwd := some ROOTINO }
    else
      { state := .unused
        pid := 0
        parent := none
        ofile := fun _ => none
        cwd := none }
  nextpid := 2
  pipes := fun _ => none
  commits := [d]

/- The effect of an action. -/
def step (s : Sys P) :
    SysAction P → Outcome SysHalt (Sys P)
| .call p c =>
    if (s.proc p).state = .runnable then
      match E.code sb p c s with
      | (.ok _, s') => .next s'
      | (.error .blocks, _) => .disabled
      | (.error e, _) => .fault e
    else .disabled
| .crash lost =>
    match s.commits[lost]? with
    | some d => .next (E.boot d)
    | none => .disabled

/- All runs that start from one of the images. -/
def system (Image : Disk → Prop) :
    System (Sys P) (SysAction P) SysHalt where
  init := fun s => ∃ d, Image d ∧ s = E.boot d
  step := E.step sb

end Procs

end Xv6
