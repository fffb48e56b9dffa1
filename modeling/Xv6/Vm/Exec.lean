import Xv6.Sys.Calls
import Xv6.Vm.PageTable

/-
  `exec.c`, as far as memory is concerned.

  The file system is seen from outside: a path leads to a
  file with some contents or to none, and a read of the file
  can break off anywhere. What the process has of the file
  system during the call is counted: operations of the log,
  references to inodes, and locks.

  Key definitions include:
    * `UserMem`
    * `Task`
    * `loadseg`
    * `exec`
-/

-------
-- Processes
-------

namespace Xv6.Vm

/-
  The fields of `struct proc` for user memory. A null pointer
  is 0.
-/
structure UserMem where
  pagetable : Nat
  sz : Nat
  trapframe : Nat
  name : List UInt8

/- An inode and the bytes of its file. -/
structure Image where
  inum : Nat
  content : List UInt8

/- What a call of one process works with. -/
structure Task where
  vm : Ram
  mem : UserMem
  -- operations of the log that the process is in
  ops : Nat
  -- inodes that the process refers to, and those it locked
  refs : List Nat
  locked : List Nat
  -- where reads break off
  cuts : List (Option Nat)

/- How a call ends without returning. -/
inductive Halt where
  | vm (e : VmFault)
  -- "loadseg: address should exist"
  | loadseg
  -- beyond the end of `ustack`
  | ustack
  -- an operation that was not begun
  | endOp
  -- waits for itself
  | ilock
  -- not locked, or not referred to
  | iunlockput
  -- "init exiting"
  | initExiting
  -- "filedup"
  | filedup
  -- "fileclose"
  | fileclose
  -- sleeps
  | blocks
  -- uses a null pointer
  | null
  deriving DecidableEq

abbrev TaskM (α : Type) : Type := Prog Task Halt α

/- Code of `vm.c` in a call. -/
def inVm {α : Type} (m : VmM α) : TaskM α := Prog.zoom Task.vm (fun t s => { t with vm := s }) .vm m

-------
-- The File System
-------

def beginOp : TaskM Unit := Prog.edit (fun t => { t with ops := t.ops + 1 })

def endOp : TaskM Unit := do
  let t ← Prog.read
  if t.ops = 0 then Prog.stop .endOp
  else Prog.edit (fun t => { t with ops := t.ops - 1 })

/- Look up a path that leads to the file `found`. -/
def namei (found : Option Image) : TaskM (Option Image) :=
  match found with
  | none => return none
  | some ip => do
      Prog.edit (fun t => { t with refs := ip.inum :: t.refs })
      return some ip

def ilock (ip : Image) : TaskM Unit := do
  let t ← Prog.read
  if ip.inum ∈ t.locked then Prog.stop .ilock
  else
    Prog.edit (fun t =>
      { t with locked := ip.inum :: t.locked })

def iunlockput (ip : Image) : TaskM Unit := do
  let t ← Prog.read
  if ip.inum ∉ t.locked ∨ ip.inum ∉ t.refs then
    Prog.stop .iunlockput
  else
    Prog.edit (fun t =>
      { t with
        locked := t.locked.erase ip.inum
        refs := t.refs.erase ip.inum })

/-
  Read at most `n` bytes from the offset `off`, where both are
  numbers of type `uint`.
-/
def readi (ip : Image) (off n : Nat) : TaskM (List UInt8) := do
  let t ← Prog.read
  Prog.edit (fun t => { t with cuts := t.cuts.tail })
  let bytes :=
    if ip.content.length < off ∨ (off + n) % 2 ^ 32 < off then
      []
    else (ip.content.drop off).take n
  match t.cuts.headD none with
  | none => return bytes
  | some k => return bytes.take k

-------
-- Loading
-------

abbrev MAXARG : Nat := 32

def ELF_PROG_LOAD : Nat := 1

def flags2perm (flags : Nat) : Nat :=
  let perm := if flags &&& 1 ≠ 0 then PTE_X else 0
  if flags &&& 2 ≠ 0 then perm ||| PTE_W else perm

/- The loop of `loadseg`; false stands for -1. -/
def loadsegLoop (pagetable va : Nat) (ip : Image) (offset sz : Nat) : Nat → Nat → TaskM Bool
| k, i =>
    if i < sz then
      match k with
      | 0 => Prog.stop (.vm .diverges)
      | k + 1 => do
          let pa ← inVm (walkaddr pagetable (add64 va i))
          if pa = 0 then Prog.stop .loadseg
          else do
            let n := if sz - i < PGSIZE then sz - i else PGSIZE
            let bytes ← readi ip ((offset + i) % 2 ^ 32) n
            inVm (Prog.edit (fun s => s.setPage pa ((s.mem pa).splice 0 bytes)))
            if bytes.length ≠ n then return false
            else
              loadsegLoop pagetable va ip offset sz k ((i + PGSIZE) % 2 ^ 32)
    else return true

/- Load a program segment into pages that are mapped. -/
def loadseg (pagetable va : Nat) (ip : Image) (offset sz : Nat) : TaskM Bool :=
  loadsegLoop pagetable va ip offset sz (sz / PGSIZE + 1) 0

/-
  The loop of `exec` over the last `n` program headers. It
  returns the size of the memory, and false for `goto bad`.
-/
def execLoop (L : MemLayout) (pagetable : Nat) (ip : Image) : Nat → Nat → Nat → TaskM (Bool × Nat)
| 0, _, sz => return (true, sz)
| n + 1, off, sz => do
    let ph ← readi ip off 56
    let flags := field ph 4 4
    let poff := field ph 8 8
    let vaddr := field ph 16 8
    let filesz := field ph 32 8
    let memsz := field ph 40 8
    if ph.length ≠ 56 then return (false, sz)
    else if field ph 0 4 ≠ ELF_PROG_LOAD then
      execLoop L pagetable ip n ((off + 56) % 2 ^ 32) sz
    else if memsz < filesz then return (false, sz)
    else if add64 vaddr memsz < vaddr then return (false, sz)
    else if vaddr % PGSIZE ≠ 0 then return (false, sz)
    else do
      let sz1 ← inVm (uvmalloc L pagetable sz (add64 vaddr memsz) (flags2perm flags))
      if sz1 = 0 then return (false, sz)
      else if ← loadseg pagetable vaddr ip (poff % 2 ^ 32) (filesz % 2 ^ 32) then
        execLoop L pagetable ip n ((off + 56) % 2 ^ 32) sz1
      else return (false, sz1)

-------
-- The Stack
-------

/- Lower a stack pointer, and align it. -/
def lowered (sp n : Nat) : Nat := sub64 sp n - sub64 sp n % 16

/-
  Push argument strings. It returns the stack pointer and the
  addresses of the strings.
-/
def pushArgs (pagetable stackbase : Nat) :
    List (List UInt8) → Nat → List Nat → TaskM (Option (Nat × List Nat))
| [], sp, ustack => return some (sp, ustack)
| arg :: argv, sp, ustack =>
    if MAXARG ≤ ustack.length then return none
    else if lowered sp (arg.length + 1) < stackbase then
      return none
    else do
      if ← inVm (copyout pagetable (lowered sp (arg.length + 1)) (arg ++ [0])) then
        pushArgs pagetable stackbase argv (lowered sp (arg.length + 1))
          (ustack ++ [lowered sp (arg.length + 1)])
      else return none

/- What follows the last slash. -/
def lastName : List UInt8 → List UInt8 → List UInt8
| last, [] => last
| last, c :: s => if c = slash then lastName s s else lastName last s

/- Store a register of a trapframe. -/
def setReg (off v : Nat) : TaskM Unit :=
  Prog.edit (fun t =>
    { t with
      vm := t.vm.setPage t.mem.trapframe ((t.vm.mem t.mem.trapframe).putLE off 8 v) })

-------
-- Exec
-------

variable (L : MemLayout)

/- The way out of `exec` at the label `bad`. -/
def execBad
    {α : Type}
    (pagetable sz : Nat)
    (ip : Option Image) :
    TaskM (Option α) := do
  if pagetable ≠ 0 then inVm (procFreepagetable L pagetable sz)
  match ip with
  | none => return none
  | some ip => do
      iunlockput ip
      endOp
      return none

/- What `exec` has when nothing can fail any more. -/
structure UserImage where
  pagetable : Nat
  sz : Nat
  sp : Nat
  entry : Nat
  argc : Nat
deriving DecidableEq

/- The part of `exec` that sets up the stack. -/
def execStack
    (pagetable sz entry : Nat)
    (argv : List (List UInt8)) :
    TaskM (Option UserImage) := do
  let base := PGROUNDUP sz
  let sz ← inVm
    (uvmalloc L pagetable base (add64 base (2 * PGSIZE)) PTE_W)
  if sz = 0 then execBad L pagetable base none
  else do
    inVm (uvmclear pagetable (sub64 sz (2 * PGSIZE)))
    let stackbase := sub64 sz PGSIZE
    match ← pushArgs pagetable stackbase argv sz [] with
    | none => execBad L pagetable sz none
    | some (sp, ustack) =>
      if MAXARG ≤ ustack.length then Prog.stop .ustack
      else do
        let sp := lowered sp ((ustack.length + 1) * 8)
        if sp < stackbase then execBad L pagetable sz none
        else if ← inVm (copyout pagetable sp
            ((ustack ++ [0]).flatMap (encodeLE 8))) then
          return some ⟨pagetable, sz, sp, entry, ustack.length⟩
        else execBad L pagetable sz none

/- The part of `exec` before it commits; `none` stands for -1. -/
def execImage
    (found : Option Image)
    (argv : List (List UInt8)) :
    TaskM (Option UserImage) := do
  beginOp
  match ← namei found with
  | none => do
      endOp
      return none
  | some ip => do
      ilock ip
      let elf ← readi ip 0 64
      if elf.length ≠ 64 then execBad L 0 0 (some ip)
      else if field elf 0 4 ≠ ELF_MAGIC then
        execBad L 0 0 (some ip)
      else do
        let t ← Prog.read
        match ← inVm (procPagetable L t.mem.trapframe) with
        | none => execBad L 0 0 (some ip)
        | some pagetable => do
            match ← execLoop L pagetable ip (field elf 56 2)
                (field elf 32 8 % 2 ^ 32) 0 with
            | (false, sz) => execBad L pagetable sz (some ip)
            | (true, sz) => do
                iunlockput ip
                endOp
                execStack L pagetable sz (field elf 24 8) argv

/- Commit to the user image. -/
def execCommit
    (image : UserImage)
    (oldsz : Nat)
    (path : Path) :
    TaskM (Option Nat) := do
  -- a1
  setReg 120 image.sp
  let t ← Prog.read
  Prog.edit (fun t =>
    { t with
      mem :=
        { t.mem with
          name := (lastName path path).take 15
          pagetable := image.pagetable
          sz := image.sz } })
  -- epc and sp
  setReg 24 image.entry
  setReg 48 image.sp
  inVm (procFreepagetable L t.mem.pagetable oldsz)
  return some image.argc

/-
  Replace the memory of a process by a program. `none` stands
  for -1.
-/
def exec
    (found : Option Image)
    (path : Path)
    (argv : List (List UInt8)) :
    TaskM (Option Nat) := do
  let t ← Prog.read
  match ← execImage L found argv with
  | none => return none
  | some image => execCommit L image t.mem.sz path

end Xv6.Vm
