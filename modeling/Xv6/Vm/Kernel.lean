import Xv6.Vm.Exec

/-
  The system calls that allocate and free memory: `fork`,
  `exec`, `sbrk`, `pipe`, `close`, `exit` and `wait`.

  Calls run one at a time. What a path leads to, where reads
  of files break off and which calls of `kalloc` fail is a
  parameter of the call. Between its calls a process computes
  and changes its memory. Files are ends of pipes; inodes and
  current directories are not modelled here, and no process
  is killed.

  Key definitions include:
    * `Kernel`
    * `allocproc`, `freeproc`
    * `growproc`, `fork`
    * `sysPipe`, `sysClose`
    * `sysExec`
    * `exit`, `wait`
    * `Call`
    * `kernel`
-/

open Function

-------
-- State
-------

namespace Xv6.Vm

/- The fields of `struct proc` other than its files. -/
structure KProc (P : Type) where
  state : ProcState
  pid : Int
  parent : Option P
  xstate : BitVec 32
  mem : UserMem

/- A process that is not in use. -/
def KProc.freed {P : Type} : KProc P where
  state := .unused
  pid := 0
  parent := none
  xstate := 0
  mem :=
    { pagetable := 0
      sz := 0
      trapframe := 0
      name := [] }

/- Open files, and the descriptors of all processes. -/
structure Files (P : Type) where
  ftable : Fin NFILE → OpenFile
  ofile : P → Fin NOFILE → Option (Fin NFILE)
  -- pages that hold a pipe
  pipes : Nat → Option PipeEnds

structure Kernel (P : Type) where
  vm : Ram
  proc : P → KProc P
  nextpid : Int
  initproc : Option P
  files : Files P
  -- kernel stacks, page tables and device rings
  own : List Nat

abbrev KernelM (P α : Type) : Type := Prog (Kernel P) Halt α

section Updates

variable {P : Type} [DecidableEq P]

/- Change one process. -/
def Kernel.setProc (k : Kernel P) (p : P) (v : KProc P) : Kernel P :=
  { k with proc := update k.proc p v }

/- Change the memory of one process. -/
def Kernel.setMem (k : Kernel P) (p : P) (m : UserMem) : Kernel P :=
  k.setProc p { k.proc p with mem := m }

/- Change one entry of the file table. -/
def Files.setFile (F : Files P) (f : Fin NFILE) (v : OpenFile) : Files P :=
  { F with ftable := update F.ftable f v }

/- Change one descriptor. -/
def Files.setFd (F : Files P) (p : P) (fd : Fin NOFILE) (f : Option (Fin NFILE)) : Files P :=
  { F with
    ofile := update F.ofile p (update (F.ofile p) fd f) }

end Updates

variable {P α : Type}

/- Code that works on memory only. -/
def onVm (m : VmM α) : KernelM P α := Prog.zoom Kernel.vm (fun k s => { k with vm := s }) .vm m

/- Change the files. -/
def editFiles (f : Files P → Files P) : KernelM P Unit :=
  Prog.edit (fun k => { k with files := f k.files })

/- Code that works for one process. -/
def onTask [DecidableEq P] (p : P) (cuts : List (Option Nat)) (m : TaskM α) : KernelM P α :=
  Prog.zoom (fun k => ⟨k.vm, (k.proc p).mem, 0, [], [], cuts⟩)
    (fun k t => { k.setMem p t.mem with vm := t.vm }) id m

-------
-- Processes
-------

variable {P : Type} [DecidableEq P] (L : MemLayout)

/- Free a process and the data hanging from it. -/
def freeproc (p : P) : KernelM P Unit := do
  let k ← Prog.read
  let m := (k.proc p).mem
  if m.trapframe ≠ 0 then onVm (kfree L m.trapframe)
  if m.pagetable ≠ 0 then
    onVm (procFreepagetable L m.pagetable m.sz)
  Prog.edit (fun k => k.setProc p .freed)

/- The page table of a process that has a trapframe. -/
def allocPagetable (p : P) (tf : Nat) : KernelM P (Option P) := do
  Prog.edit (fun k => k.setMem p { (k.proc p).mem with trapframe := tf })
  match ← onVm (procPagetable L tf) with
  | none => do
      freeproc L p
      return none
  | some pagetable => do
      Prog.edit (fun k =>
        k.setMem p
          { (k.proc p).mem with pagetable := pagetable })
      return some p

/- Find a process that is not in use, and set it up. -/
def allocproc (procs : List P) : KernelM P (Option P) := do
  let k ← Prog.read
  match procs.find? (fun q => (k.proc q).state == .unused) with
  | none => return none
  | some p => do
      Prog.edit (fun k =>
        { k.setProc p
            { k.proc p with
              pid := k.nextpid
              state := .used }
          with nextpid := k.nextpid + 1 })
      match ← onVm kalloc with
      | none => do
          freeproc L p
          return none
      | some tf => allocPagetable L p tf

/- The first program, `initcode`. -/
def initcode : List UInt8 :=
  [0x17, 0x05, 0x00, 0x00, 0x13, 0x05, 0x45, 0x02, 0x97, 0x05, 0x00, 0x00, 0x93, 0x85, 0x35, 0x02,
   0x93, 0x08, 0x70, 0x00, 0x73, 0x00, 0x00, 0x00,
   0x93, 0x08, 0x20, 0x00, 0x73, 0x00, 0x00, 0x00,
   0xef, 0xf0, 0x9f, 0xff, 0x2f, 0x69, 0x6e, 0x69,
   0x74, 0x00, 0x00, 0x24, 0x00, 0x00, 0x00, 0x00,
   0x00, 0x00, 0x00, 0x00]

/-
  Set up the first process. The value tells whether there was
  enough memory for its program.
-/
def userinit (procs : List P) : KernelM P Bool := do
  match ← allocproc L procs with
  | none => Prog.stop .null
  | some p => do
      Prog.edit (fun k => { k with initproc := some p })
      let k ← Prog.read
      match ← onVm (uvmfirst (k.proc p).mem.pagetable initcode) with
      | none => Prog.stop .null
      | some ok => do
          Prog.edit (fun k => k.setMem p { (k.proc p).mem with sz := PGSIZE })
          onTask p [] (setReg 24 0)
          onTask p [] (setReg 48 PGSIZE)
          Prog.edit (fun k =>
            k.setProc p
              { k.proc p with
                -- "initcode"
                mem :=
                  { (k.proc p).mem with
                    name := [105, 110, 105, 116, 99, 111, 100, 101] }
                state := .runnable })
          return ok

/- Grow or shrink user memory; false stands for -1. -/
def growproc (p : P) (n : BitVec 32) : KernelM P Bool := do
  let k ← Prog.read
  let m := (k.proc p).mem
  if 0 < n.toInt then do
    let sz ← onVm (uvmalloc L m.pagetable m.sz (add64 m.sz n.toInt.toNat) PTE_W)
    if sz = 0 then return false
    else do
      Prog.edit (fun k => k.setMem p { m with sz := sz })
      return true
  else if n.toInt < 0 then do
    let sz ← onVm (uvmdealloc L m.pagetable m.sz (sub64 m.sz (-n.toInt).toNat))
    Prog.edit (fun k => k.setMem p { m with sz := sz })
    return true
  else return true

/- The value is the old size, or -1. -/
def sysSbrk (p : P) (n : BitVec 32) : KernelM P Int := do
  let k ← Prog.read
  if ← growproc L p n then return (k.proc p).mem.sz
  else return -1

end Xv6.Vm

-------
-- Files
-------

namespace Xv6.Vm

variable {P : Type} (L : MemLayout)

def filealloc : KernelM P (Option (Fin NFILE)) := do
  let k ← Prog.read
  match (List.finRange NFILE).find? (fun f => (k.files.ftable f).ref == 0) with
  | some f => do
      editFiles (fun F => F.setFile f { F.ftable f with ref := 1 })
      return some f
  | none => return none

def filedup (f : Fin NFILE) : KernelM P Unit := do
  let k ← Prog.read
  if (k.files.ftable f).ref < 1 then Prog.stop .filedup
  else
    editFiles (fun F =>
      F.setFile f
        { F.ftable f with ref := (F.ftable f).ref + 1 })

/- Close one end of a pipe. -/
def pipeclose (pi : Nat) (writable : Bool) : KernelM P Unit := do
  let k ← Prog.read
  match (k.files.pipes pi).map (·.close writable) with
  | none => Prog.stop .null
  | some e =>
    if e.readopen = false ∧ e.writeopen = false then do
      editFiles (fun F =>
        { F with pipes := update F.pipes pi none })
      onVm (kfree L pi)
    else
      editFiles (fun F =>
        { F with
          pipes := update F.pipes pi (some e) })

def fileclose (f : Fin NFILE) : KernelM P Unit := do
  let k ← Prog.read
  let ff := k.files.ftable f
  if ff.ref < 1 then Prog.stop .fileclose
  else if 0 < ff.ref - 1 then
    editFiles (fun F => F.setFile f { F.ftable f with ref := ff.ref - 1 })
  else do
    editFiles (fun F => F.setFile f { F.ftable f with ref := 0, type := .none })
    if ff.type = .pipe then pipeclose L ff.pipe ff.writable

/- Make a pipe with its two files. -/
def pipealloc : KernelM P (Option (Fin NFILE × Fin NFILE)) :=
  do
  match ← filealloc with
  | none => return none
  | some f0 => do
      match ← filealloc with
      | none => do
          fileclose L f0
          return none
      | some f1 => do
          match ← onVm kalloc with
          | none => do
              fileclose L f0
              fileclose L f1
              return none
          | some pi => do
              editFiles (fun F =>
                ({ F with
                    pipes := update F.pipes pi (some ⟨true, true⟩) }.setFile f0
                  (pipeReader (F.ftable f0) pi)).setFile f1 (pipeWriter (F.ftable f1) pi))
              return some (f0, f1)

variable [DecidableEq P]

def fdalloc (p : P) (f : Fin NFILE) : KernelM P (Option (Fin NOFILE)) := do
  let k ← Prog.read
  match (List.finRange NOFILE).find? (fun fd => k.files.ofile p fd == none) with
  | some fd => do
      editFiles (fun F => F.setFd p fd (some f))
      return some fd
  | none => return none

/- Both files of a pipe are closed. -/
def pipeFail (rf wf : Fin NFILE) : KernelM P Int := do
  fileclose L rf
  fileclose L wf
  return -1

def sysPipe (p : P) (fdarray : Nat) : KernelM P Int := do
  match ← pipealloc L with
  | none => return -1
  | some (rf, wf) => do
      match ← fdalloc p rf with
      | none => pipeFail L rf wf
      | some fd0 => do
          match ← fdalloc p wf with
          | none => do
              editFiles (fun F => F.setFd p fd0 none)
              pipeFail L rf wf
          | some fd1 => do
              let k ← Prog.read
              let ok ← onVm (do
                if ← copyout (k.proc p).mem.pagetable fdarray (encodeLE 4 fd0.1) then
                  copyout (k.proc p).mem.pagetable (add64 fdarray 4) (encodeLE 4 fd1.1)
                else return false)
              if ok then return 0
              else do
                editFiles (fun F => (F.setFd p fd0 none).setFd p fd1 none)
                pipeFail L rf wf

theorem fd_lt {fd : Int} (h : 0 ≤ fd ∧ fd.toNat < NOFILE) : fd.toNat < NOFILE := h.2

def sysClose (p : P) (fd : Int) : KernelM P Int := do
  let k ← Prog.read
  if h : 0 ≤ fd ∧ fd.toNat < NOFILE then
    match k.files.ofile p ⟨fd.toNat, fd_lt h⟩ with
    | none => return -1
    | some f => do
        editFiles (fun F => F.setFd p ⟨fd.toNat, fd_lt h⟩ none)
        fileclose L f
        return 0
  else return -1

-------
-- Fork, Exit And Wait
-------

variable (procs : List P)

/- Give the child the parent's file `fd`. -/
def forkFile (p np : P) (fd : Fin NOFILE) : KernelM P Unit := do
  let k ← Prog.read
  match k.files.ofile p fd with
  | none => return ()
  | some f => do
      filedup f
      editFiles (fun F => F.setFd np fd (some f))

/- Bytes of `struct trapframe`. -/
abbrev TRAPSIZE : Nat := 288

/- The child `np` gets registers and files, and can run. -/
def forkChild (p np : P) : KernelM P Int := do
  let k ← Prog.read
  let m := (k.proc p).mem
  Prog.edit (fun k => k.setMem np { (k.proc np).mem with sz := m.sz })
  onTask np [] (Prog.edit (fun t =>
    { t with
      vm := t.vm.setPage t.mem.trapframe ((t.vm.mem t.mem.trapframe).splice 0
          ((t.vm.mem m.trapframe).slice 0 TRAPSIZE)) }))
  -- a0
  onTask np [] (setReg 112 0)
  Prog.forEach (forkFile p np) (List.finRange NOFILE)
  Prog.edit (fun k =>
    k.setProc np
      { k.proc np with
        mem := { (k.proc np).mem with name := m.name }
        parent := some p
        state := .runnable })
  return (k.proc np).pid

def fork (p : P) : KernelM P Int := do
  match ← allocproc L procs with
  | none => return -1
  | some np => do
      let k ← Prog.read
      if ← onVm (uvmcopy L (k.proc p).mem.pagetable
          (k.proc np).mem.pagetable (k.proc p).mem.sz) then
        forkChild p np
      else do
        freeproc L np
        return -1

/- Close the file `fd` of a process that exits. -/
def exitFile (p : P) (fd : Fin NOFILE) : KernelM P Unit := do
  let k ← Prog.read
  match k.files.ofile p fd with
  | none => return ()
  | some f => do
      fileclose L f
      editFiles (fun F => F.setFd p fd none)

/- Children of `p` become children of the first process. -/
def reparent (p : P) (k : Kernel P) : Kernel P :=
  { k with
    proc := fun q =>
      if (k.proc q).parent = some p then
        { k.proc q with parent := k.initproc }
      else k.proc q }

def exit (p : P) (status : BitVec 32) : KernelM P Int := do
  let k ← Prog.read
  if k.initproc = some p then Prog.stop .initExiting
  else do
    Prog.forEach (exitFile L p) (List.finRange NOFILE)
    Prog.edit (reparent p)
    Prog.edit (fun k =>
      k.setProc p
        { k.proc p with
          xstate := status
          state := .zombie })
    return 0

/- A process that would have to wait blocks. -/
def wait (p : P) (addr : Nat) : KernelM P Int := do
  let k ← Prog.read
  match procs.find? (fun q => (k.proc q).parent = some p ∧ (k.proc q).state = .zombie) with
  | some q => do
      let ok ← onVm (
        if addr = 0 then return true
        else copyout (k.proc p).mem.pagetable addr (encodeLE 4 (k.proc q).xstate.toNat))
      if ok then do
        freeproc L q
        return (k.proc q).pid
      else return -1
  | none =>
    if procs.all (fun q => (k.proc q).parent ≠ some p) then
      return -1
    else Prog.stop .blocks

-------
-- The Call Of Exec
-------

/- The number at an address of the process. -/
def fetchaddr (m : UserMem) (addr : Nat) : VmM (Option Nat) :=
  if m.sz ≤ addr ∨ m.sz < add64 addr 8 then return none
  else do
    match ← copyin m.pagetable addr 8 with
    | none => return none
    | some bytes => return some (decodeLE bytes)

/-
  The loop of `sys_exec` that copies the arguments, from the
  `i`-th on. It returns the pages that were allocated, and the
  arguments unless it failed.
-/
def fetchArgs (m : UserMem) (uargv : Nat) :
    Nat → Nat → List Nat → List (List UInt8) → VmM (List Nat × Option (List (List UInt8)))
| 0, _, pages, _ => return (pages, none)
| k + 1, i, pages, argv => do
    match ← fetchaddr m (add64 uargv (8 * i)) with
    | none => return (pages, none)
    | some uarg =>
      if uarg = 0 then return (pages, some argv)
      else do
        match ← kalloc with
        | none => return (pages, none)
        | some page => do
            match ← copyinstr m.pagetable uarg PGSIZE with
            | none => return (pages ++ [page], none)
            | some arg => do
                Prog.edit (fun s => s.setPage page ((s.mem page).splice 0 (arg ++ [0])))
                fetchArgs m uargv k (i + 1) (pages ++ [page]) (argv ++ [arg])

/- `upath` and `uargv` are addresses of the process. -/
def sysExec (p : P) (upath uargv : Nat) (lookup : Path → Option Image)
    (cuts : List (Option Nat)) : KernelM P Int := do
  let k ← Prog.read
  let m := (k.proc p).mem
  match ← onVm (copyinstr m.pagetable upath MAXPATH) with
  | none => return -1
  | some path => do
      match ← onVm (fetchArgs m uargv MAXARG 0 [] []) with
      | (pages, none) => do
          onVm (Prog.forEach (kfree L) pages)
          return -1
      | (pages, some argv) => do
          let r ← onTask p cuts (exec L (lookup path) path argv)
          onVm (Prog.forEach (kfree L) pages)
          match r with
          | none => return -1
          | some argc => return argc

end Xv6.Vm

-------
-- The System
-------

namespace Xv6.Vm

/- System calls. -/
inductive Call where
  | fork
  | exec (upath uargv : Nat) (lookup : Path → Option Image)
      (cuts : List (Option Nat))
  | sbrk (n : BitVec 32)
  | pipe (fdarray : Nat)
  | close (fd : Int)
  | exit (status : BitVec 32)
  | wait (addr : Nat)

inductive Act (P : Type) where
  -- a call, with what `kalloc` refuses
  | call (p : P) (c : Call) (deny : List Bool)
  -- the process changes a page that it can access
  | store (p : P) (va : Nat) (c : Page)
  -- the registers of the process are saved
  | trap (p : P) (c : Page)

variable {P : Type} [DecidableEq P] (L : MemLayout) (procs : List P)

/- The code of a system call of `p`. -/
def callCode (p : P) : Call → KernelM P Int
| .fork => fork L procs p
| .exec upath uargv lookup cuts => sysExec L p upath uargv lookup cuts
| .sbrk n => sysSbrk L p n
| .pipe fdarray => sysPipe L p fdarray
| .close fd => sysClose L p fd
| .exit status => exit L p status
| .wait addr => wait L procs p addr

/- Change the page at a virtual address, if there is one. -/
def store (pagetable va : Nat) (c : Page) : VmM Int := do
  let pa ← walkaddr pagetable va
  if pa = 0 then return -1
  else do
    Prog.edit (fun s => s.setPage pa c)
    return 0

/- The code of an action. -/
def actCode :
    Act P → KernelM P Int
| .call p c deny => do
    Prog.edit (fun k =>
      { k with vm := { k.vm with deny := deny } })
    callCode L procs p c
| .store p va c => do
    let k ← Prog.read
    onVm (store (k.proc p).mem.pagetable va c)
| .trap p c => do
    Prog.edit (fun k =>
      { k with vm := k.vm.setPage (k.proc p).mem.trapframe c })
    return 0

def Act.proc : Act P → P
| .call p _ _ => p
| .store p _ _ => p
| .trap p _ => p

/- The effect of an action of a process that can run. -/
def actStep (k : Kernel P) (a : Act P) : Outcome Halt (Kernel P) :=
  if (k.proc a.proc).state = .runnable then
    match actCode L procs a k with
    | (.ok _, k') => .next k'
    | (.error .blocks, _) => .disabled
    | (.error e, _) => .fault e
  else .disabled

/-
  The kernel before the first process: each page is free, or
  the kernel has taken it for itself.
-/
structure Fresh (k : Kernel P) : Prop where
  pages : (k.vm.free ++ k.own).Nodup
  area : ∀ q, q ∈ k.vm.free ++ k.own ↔ L.Area q
  procs : ∀ p, (k.proc p).state = .unused ∧ (k.proc p).mem.pagetable = 0 ∧
    (k.proc p).mem.trapframe = 0 ∧ (k.proc p).mem.sz = 0
  files : ∀ f, (k.files.ftable f).ref = 0 ∧ (k.files.ftable f).type = .none
  ofile : ∀ p fd, k.files.ofile p fd = none
  pipes : ∀ pi, k.files.pipes pi = none

/- All runs after a start with enough memory. -/
def kernel : System (Kernel P) (Act P) Halt where
  init := fun k => ∃ k₀, Fresh L k₀ ∧ userinit L procs k₀ = (.ok true, k)
  step := actStep L procs

end Xv6.Vm
