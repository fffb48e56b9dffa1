import Xv6.Lib.System

/-
  The process code of `proc.c` on any number of CPUs.

  Every CPU runs the scheduler, a process or an interrupt
  handler. A critical section of one `p->lock` that touches
  only that process is one step; `p->lock` is held over
  several steps where the source hands it over: around
  `swtch`, in `sleep`, `yield` and `exit`. `wait_lock` and
  the spinlocks of the rest of the kernel are held over
  several steps as well. A step that has to spin is not
  enabled.

  The rest of the kernel is any code that keeps to the rules
  of a condition `k` guarded by a lock `lk k`: it makes the
  condition true only while it holds the lock, and then calls
  `wakeup` before it releases the lock; it calls `sleep` only
  when it found the condition false.

  Key definitions include:
    * `Proc`
    * `ProcPc`
    * `Kern`
    * `ProcTable.go`
    * `ProcTable.run`
    * `ProcTable.step`
    * `ProcTable.system`
-/

open Function

-------
-- Processes
-------

namespace Xv6

/- `enum procstate`. -/
inductive ProcState where
  | unused
  | used
  | sleeping
  | runnable
  | running
  | zombie
  deriving DecidableEq

/- The address of a process, or that of a condition. -/
inductive Chan (P K : Type) where
  | proc (p : P)
  | cond (k : K)
  deriving DecidableEq

/- The fields of `struct proc` that `proc.c` works with. -/
structure Proc (P K : Type) where
  state : ProcState
  chan : Option (Chan P K)
  killed : Bool
  xstate : Int
  pid : Int
  parent : Option P

/- `freeproc`. -/
def freeproc {P K : Type} : Proc P K where
  state := .unused
  chan := none
  killed := false
  xstate := 0
  pid := 0
  parent := none

namespace Proc

variable {P K : Type} [DecidableEq P] [DecidableEq K]

/- What `wakeup(chan)` does to a process. -/
def wakeup (ch : Option (Chan P K)) (v : Proc P K) : Proc P K :=
  if v.state = .sleeping ∧ v.chan = ch then
    { v with state := .runnable }
  else v

/- What `kill` does to its victim. -/
def kill (v : Proc P K) : Proc P K :=
  { v with
    killed := true
    state := if v.state = .sleeping then .runnable else v.state }

end Proc

-------
-- Places
-------

/- What a process calls `sleep` for. -/
inductive Why (K : Type) where
  | cond (k : K)
  -- `wait(addr)`, where `addr` is zero or not
  | wait (addr : Bool)

/-
  The places where a process holds no spinlock. Interrupts
  are on there, and a timer interrupt can make it yield.
-/
inductive Task (P K : Type) where
  -- in user space or elsewhere in the kernel; the last value
  -- returned, and what `wait` copied out
  | kernel (r : Int) (out : Option Int)
  | killScan (pid : Int) (rest : List P)
  | forkScan (rest : List P)
  | forkParent (np : P) (pid : Int)
  | forkRun (np : P) (pid : Int)
  | exitStart (status : Int)
  | waitStart (addr : Bool)
  -- the end of `sleep`: `acquire(lk)`
  | relock (w : Why K)

/- What a process does when `sched` returns. -/
inductive Resume (P K : Type) where
  | yield (t : Task P K)
  | sleep (w : Why K)
  | dead (status : Int)
  | forkret

/- Where a process is. -/
inductive ProcPc (P K L : Type) where
  | task (t : Task P K)
  -- kernel code that holds the locks `ls`
  | crit (ls : List L)
  | wake (ch : Option (Chan P K)) (rest : List P) (ls : List L)
  -- holding its own `p->lock`
  | yieldLocked (t : Task P K)
  | sleepLocked (w : Why K) (ls : List L)
  | sleepSet (w : Why K) (ls : List L)
  | switching (r : Resume P K)
  -- not on any CPU, its context is saved
  | away (r : Resume P K)
  -- back from `swtch`, holding its own `p->lock`
  | back (r : Resume P K)
  -- `wait`, holding `wait_lock`
  | waitScan (addr : Bool) (rest : List P) (havekids : Bool)
  | waitSleep (addr : Bool)
  | waitDone (r : Int) (out : Option Int)
  -- `exit`, holding `wait_lock`
  | reparent (status : Int) (rest : List P)
  | reparentWake (status : Int) (rest ws : List P)
  | wakeParent (status : Int) (ws : List P)
  | exitLocked (status : Int)
  | exitZombie (status : Int)

/- Interrupt handlers wake up processes and never sleep. -/
inductive Handler (P K L : Type) where
  | crit (ls : List L)
  | wake (ch : Option (Chan P K)) (rest : List P) (ls : List L)

/- What a CPU executes when it serves no interrupt. -/
inductive Mode (P : Type) where
  | scheduler
  -- `scheduler` in `swtch`, on the way to a process
  | picked (p : P)
  | on (p : P)
  -- back from `swtch` in `scheduler`
  | left (p : P)

/- `struct cpu`. -/
structure Cpu (P K L : Type) where
  proc : Option P
  mode : Mode P
  intr : Option (Handler P K L)

/- Who holds a spinlock of the kernel. -/
inductive Holder (C P : Type) where
  | proc (p : P)
  | intr (c : C)

def Why.chan {P K : Type} (p : P) : Why K → Chan P K
| .cond k => .cond k
| .wait _ => .proc p

/- `swtch` goes on where the context was saved. -/
def ProcPc.resume {P K L : Type} : ProcPc P K L → ProcPc P K L
| .away r => .back r
| x => x

-------
-- Kernels
-------

structure Kern (C P K L : Type) where
  cpu : C → Cpu P K L
  proc : P → Proc P K
  pc : P → ProcPc P K L
  -- the CPU that holds `p->lock`
  plock : P → Option C
  waitLock : Option P
  lock : L → Option (Holder C P)
  cond : K → Bool
  -- conditions made true for which `wakeup` is still owed
  owed : List K
  nextpid : Int

/- The table `proc`, and the locks of the conditions. -/
structure ProcTable (P K L : Type) where
  procs : List P
  mem_procs : ∀ p, p ∈ procs
  initproc : P
  lk : K → L

inductive ProcPanic where
  | acquire
  | release
  | schedLock
  | schedLocks
  | schedRunning
  | initExiting
  | zombieExit
  deriving DecidableEq

/- What kernel code does in a critical section. -/
inductive ClientOp (K L : Type) where
  | acquire (l : L)
  | release (l : L)
  | set (k : K) (b : Bool)

/- What the process on a CPU does next. -/
inductive ProcOp (P K L : Type) where
  -- the next step of the function it is in; `ok` tells if
  -- memory or a user address is there
  | go (ok : Bool)
  | yield
  | enter
  | client (o : ClientOp K L)
  | wakeup (ch : Option (Chan P K))
  | sleep (k : K)
  | kill (pid : Int)
  | fork
  | exit (status : Int)
  | wait (addr : Bool)

/- What the interrupt handler on a CPU does next. -/
inductive HandlerOp (P K L : Type) where
  | go
  | client (o : ClientOp K L)
  | wakeup (ch : Option (Chan P K))

inductive KernAction (C P K L : Type) where
  | pick (c : C) (p : P)
  | swtch (c : C)
  | drop (c : C)
  | irq (c : C)
  | reti (c : C)
  | handle (c : C) (o : HandlerOp P K L)
  | run (c : C) (o : ProcOp P K L)

namespace Kern

variable {C P K L : Type} [DecidableEq C] [DecidableEq P] [DecidableEq K] [DecidableEq L]

def setPc (s : Kern C P K L) (p : P) (x : ProcPc P K L) : Kern C P K L :=
  { s with pc := update s.pc p x }

def setProc (s : Kern C P K L) (p : P) (v : Proc P K) : Kern C P K L :=
  { s with proc := update s.proc p v }

def setPlock (s : Kern C P K L) (p : P) (h : Option C) : Kern C P K L :=
  { s with plock := update s.plock p h }

def setCpu (s : Kern C P K L) (c : C) (v : Cpu P K L) : Kern C P K L :=
  { s with cpu := update s.cpu c v }

def setLock (s : Kern C P K L) (l : L) (h : Option (Holder C P)) : Kern C P K L :=
  { s with lock := update s.lock l h }

def setWaitLock (s : Kern C P K L) (h : Option P) : Kern C P K L :=
  { s with waitLock := h }

/- One turn of the loop in `wakeup`, unless it has to spin. -/
def wakeOne (s : Kern C P K L) (self : Option P) (ch : Option (Chan P K))
    (q : P) : Option (Kern C P K L) :=
  if self = some q then some s
  else if s.plock q = none then
    some (s.setProc q ((s.proc q).wakeup ch))
  else none

end Kern

-------
-- Steps
-------

variable {C P K L : Type} [DecidableEq C] [DecidableEq P] [DecidableEq K] [DecidableEq L]

namespace ProcTable

variable (E : ProcTable P K L)

/- Kernel code of the holder `h`, who has the locks `ls`. -/
def client (s : Kern C P K L) (h : Holder C P) (ls : List L) :
    ClientOp K L → Outcome ProcPanic (Kern C P K L × List L)
| .acquire l =>
    if l ∈ ls then .fault .acquire
    else if s.lock l = none then
      .next (s.setLock l (some h), l :: ls)
    else .disabled
| .release l =>
    if l ∉ ls then .fault .release
    else if ∃ k ∈ s.owed, E.lk k = l then .disabled
    else .next (s.setLock l none, ls.filter (· ≠ l))
| .set k true =>
    if E.lk k ∈ ls then
      .next ({ s with
            cond := update s.cond k true
            owed :=
              if s.cond k = true then s.owed
              else k :: s.owed },
          ls)
    else .disabled
| .set k false => .next ({ s with cond := update s.cond k false }, ls)

/- The wakeups owed after `wakeup(ch)` under the locks `ls`. -/
def settle (s : Kern C P K L) (ch : Option (Chan P K)) (ls : List L) : Kern C P K L :=
  { s with
    owed := s.owed.filter (fun k => ¬ (ch = some (.cond k) ∧ E.lk k ∈ ls)) }

/- The next step of process `p` on CPU `c`. -/
def go (s : Kern C P K L) (c : C) (p : P) (ok : Bool) :
    ProcPc P K L → Outcome ProcPanic (Kern C P K L)
| .task (.kernel _ _) => .disabled
-- `kill`
| .task (.killScan _ []) => .next (s.setPc p (.task (.kernel (-1) none)))
| .task (.killScan pid (q :: rest)) =>
    if s.plock q = none then
      if (s.proc q).pid = pid then
        .next ((s.setProc q (s.proc q).kill).setPc p (.task (.kernel 0 none)))
      else .next (s.setPc p (.task (.killScan pid rest)))
    else .disabled
-- `fork`
| .task (.forkScan []) => .next (s.setPc p (.task (.kernel (-1) none)))
| .task (.forkScan (q :: rest)) =>
    if s.plock q = none then
      if (s.proc q).state = .unused then
        if ok then
          .next ((({ s with nextpid := s.nextpid + 1 }.setProc q
              { s.proc q with
                pid := s.nextpid
                state := .used }).setPc q (.away .forkret)
              ).setPc p (.task (.forkParent q s.nextpid)))
        else
          .next (({ s with nextpid := s.nextpid + 1 }.setProc q
              freeproc).setPc p (.task (.kernel (-1) none)))
      else .next (s.setPc p (.task (.forkScan rest)))
    else .disabled
| .task (.forkParent np pid) =>
    if s.waitLock = none then
      .next ((s.setProc np { s.proc np with parent := some p } ).setPc p (.task (.forkRun np pid)))
    else .disabled
| .task (.forkRun np pid) =>
    if s.plock np = none then
      .next ((s.setProc np { s.proc np with state := .runnable }
          ).setPc p (.task (.kernel pid none)))
    else .disabled
-- `yield`
| .yieldLocked t =>
    .next ((s.setProc p { s.proc p with state := .runnable } ).setPc p (.switching (.yield t)))
-- `sleep`
| .sleepLocked (.cond k) ls => .next ((s.setLock (E.lk k) none).setPc p (.sleepSet (.cond k) ls))
| .sleepLocked (.wait addr) ls => .next ((s.setWaitLock none).setPc p (.sleepSet (.wait addr) ls))
| .sleepSet w ls =>
    if ls = [] then
      .next ((s.setProc p
          { s.proc p with
            chan := some (w.chan p)
            state := .sleeping }).setPc p (.switching (.sleep w)))
    else .fault .schedLocks
| .task (.relock (.cond k)) =>
    if s.lock (E.lk k) = none then
      .next ((s.setLock (E.lk k) (some (.proc p))).setPc p (.crit [E.lk k]))
    else .disabled
| .task (.relock (.wait addr)) =>
    if s.waitLock = none then
      .next ((s.setWaitLock (some p)).setPc p (.waitScan addr E.procs false))
    else .disabled
-- `sched`
| .switching r =>
    if s.plock p ≠ some c then .fault .schedLock
    else if (s.proc p).state = .running then
      .fault .schedRunning
    else
      .next ((s.setCpu c { s.cpu c with mode := .left p }).setPc p (.away r))
| .away _ => .disabled
| .back (.yield t) => .next ((s.setPlock p none).setPc p (.task t))
| .back (.sleep w) =>
    .next (((s.setProc p { s.proc p with chan := none }).setPlock p
        none).setPc p (.task (.relock w)))
| .back .forkret => .next ((s.setPlock p none).setPc p (.task (.kernel 0 none)))
| .back (.dead _) => .fault .zombieExit
-- kernel code
| .crit [] => .next (s.setPc p (.task (.kernel 0 none)))
| .crit (_ :: _) => .disabled
| .wake ch [] ls => .next ((E.settle s ch ls).setPc p (.crit ls))
| .wake ch (q :: rest) ls =>
    match s.wakeOne (some p) ch q with
    | some s' => .next (s'.setPc p (.wake ch rest ls))
    | none => .disabled
-- `wait`
| .task (.waitStart addr) =>
    if s.waitLock = none then
      .next ((s.setWaitLock (some p)).setPc p (.waitScan addr E.procs false))
    else .disabled
| .waitScan addr (q :: rest) havekids =>
    if (s.proc q).parent = some p then
      if s.plock q = none then
        if (s.proc q).state = .zombie then
          if addr = true ∧ ok = false then
            .next (s.setPc p (.waitDone (-1) none))
          else
            .next ((s.setProc q freeproc).setPc p (.waitDone (s.proc q).pid
                  (if addr then some (s.proc q).xstate
                    else none)))
        else .next (s.setPc p (.waitScan addr rest true))
      else .disabled
    else .next (s.setPc p (.waitScan addr rest havekids))
| .waitScan addr [] havekids =>
    if havekids = false then
      .next (s.setPc p (.waitDone (-1) none))
    else if s.plock p = none then
      if (s.proc p).killed = true then
        .next (s.setPc p (.waitDone (-1) none))
      else .next (s.setPc p (.waitSleep addr))
    else .disabled
| .waitSleep addr =>
    if s.plock p = none then
      .next ((s.setPlock p (some c)).setPc p (.sleepLocked (.wait addr) []))
    else .disabled
| .waitDone r out => .next ((s.setWaitLock none).setPc p (.task (.kernel r out)))
-- `exit`
| .task (.exitStart status) =>
    if s.waitLock = none then
      .next ((s.setWaitLock (some p)).setPc p (.reparent status E.procs))
    else .disabled
| .reparent status (q :: rest) =>
    if (s.proc q).parent = some p then
      .next ((s.setProc q
          { s.proc q with parent := some E.initproc }).setPc p (.reparentWake status rest E.procs))
    else .next (s.setPc p (.reparent status rest))
| .reparent status [] => .next (s.setPc p (.wakeParent status E.procs))
| .reparentWake status rest [] => .next (s.setPc p (.reparent status rest))
| .reparentWake status rest (q :: ws) =>
    match s.wakeOne (some p) (some (.proc E.initproc)) q with
    | some s' => .next (s'.setPc p (.reparentWake status rest ws))
    | none => .disabled
| .wakeParent status (q :: ws) =>
    match s.wakeOne (some p) ((s.proc p).parent.map .proc) q with
    | some s' => .next (s'.setPc p (.wakeParent status ws))
    | none => .disabled
| .wakeParent status [] =>
    if s.plock p = none then
      .next ((s.setPlock p (some c)).setPc p (.exitLocked status))
    else .disabled
| .exitLocked status =>
    .next ((s.setProc p
        { s.proc p with xstate := status, state := .zombie } ).setPc p (.exitZombie status))
| .exitZombie status => .next ((s.setWaitLock none).setPc p (.switching (.dead status)))

/- What the process `p` at `x` on CPU `c` starts to do. -/
def run (s : Kern C P K L) (c : C) (p : P) :
    ProcOp P K L → ProcPc P K L → Outcome ProcPanic (Kern C P K L)
| .go ok, x => E.go s c p ok x
| .yield, .task t =>
    if s.plock p = none then
      .next ((s.setPlock p (some c)).setPc p (.yieldLocked t))
    else .disabled
| .enter, .task (.kernel _ _) => .next (s.setPc p (.crit []))
| .client o, .crit ls =>
    match E.client s (.proc p) ls o with
    | .next (s', ls') => .next (s'.setPc p (.crit ls'))
    | .fault e => .fault e
    | .disabled => .disabled
| .wakeup ch, .crit ls => .next (s.setPc p (.wake ch E.procs ls))
| .sleep k, .crit ls =>
    if E.lk k ∈ ls ∧ s.cond k = false ∧ (∀ k' ∈ s.owed, E.lk k' ≠ E.lk k) ∧ s.plock p = none then
      .next ((s.setPlock p (some c)).setPc p (.sleepLocked (.cond k) (ls.filter (· ≠ E.lk k))))
    else .disabled
| .kill pid, .task (.kernel _ _) => .next (s.setPc p (.task (.killScan pid E.procs)))
| .fork, .task (.kernel _ _) => .next (s.setPc p (.task (.forkScan E.procs)))
| .exit status, .task (.kernel _ _) =>
    if p = E.initproc then .fault .initExiting
    else .next (s.setPc p (.task (.exitStart status)))
| .wait addr, .task (.kernel _ _) => .next (s.setPc p (.task (.waitStart addr)))
| _, _ => .disabled

/- What the interrupt handler at `x` on CPU `c` does. -/
def handle (s : Kern C P K L) (c : C) :
    HandlerOp P K L → Handler P K L → Outcome ProcPanic (Kern C P K L)
| .client o, .crit ls =>
    match E.client s (.intr c) ls o with
    | .next (s', ls') =>
      .next (s'.setCpu c
          { s'.cpu c with intr := some (.crit ls') })
    | .fault e => .fault e
    | .disabled => .disabled
| .wakeup ch, .crit ls =>
    .next (s.setCpu c
        { s.cpu c with intr := some (.wake ch E.procs ls) })
| .go, .wake ch [] ls =>
    .next ((E.settle s ch ls).setCpu c
        { s.cpu c with intr := some (.crit ls) })
| .go, .wake ch (q :: rest) ls =>
    match s.wakeOne (s.cpu c).proc ch q with
    | some s' =>
      .next (s'.setCpu c
          { s'.cpu c with intr := some (.wake ch rest ls) })
    | none => .disabled
| _, _ => .disabled

/- The effect of an action, if it can be taken. -/
def step (s : Kern C P K L) :
    KernAction C P K L → Outcome ProcPanic (Kern C P K L)
-- `scheduler`
| .pick c p =>
    match (s.cpu c).mode, (s.cpu c).intr with
    | .scheduler, none =>
      if s.plock p = none ∧ (s.proc p).state = .runnable then
        .next (((s.setPlock p (some c)).setProc p
            { s.proc p with state := .running }).setCpu c
              { s.cpu c with
                proc := some p
                mode := .picked p })
      else .disabled
    | _, _ => .disabled
| .swtch c =>
    match (s.cpu c).mode with
    | .picked p => .next ((s.setCpu c { s.cpu c with mode := .on p }).setPc p (s.pc p).resume)
    | _ => .disabled
| .drop c =>
    match (s.cpu c).mode with
    | .left p =>
      .next ((s.setPlock p none).setCpu c
          { s.cpu c with proc := none, mode := .scheduler })
    | _ => .disabled
-- interrupts
| .irq c =>
    match (s.cpu c).intr, (s.cpu c).mode with
    | none, .scheduler => .next (s.setCpu c { s.cpu c with intr := some (.crit []) })
    | none, .on p =>
      match s.pc p with
      | .task _ =>
        .next (s.setCpu c
            { s.cpu c with intr := some (.crit []) })
      | _ => .disabled
    | _, _ => .disabled
| .reti c =>
    match (s.cpu c).intr with
    | some (.crit []) => .next (s.setCpu c { s.cpu c with intr := none })
    | _ => .disabled
| .handle c o =>
    match (s.cpu c).intr with
    | some x => E.handle s c o x
    | none => .disabled
-- processes
| .run c o =>
    match (s.cpu c).mode, (s.cpu c).intr with
    | .on p, none => E.run s c p o (s.pc p)
    | _, _ => .disabled

omit [DecidableEq C] [DecidableEq P] in
/- The state after `userinit`, before any CPU schedules. -/
def Start (s : Kern C P K L) : Prop :=
  (∀ c, (s.cpu c) = ⟨none, .scheduler, none⟩) ∧ (∀ p, s.pc p = .away .forkret) ∧
    (∀ p, s.plock p = none) ∧
    (∀ p, (s.proc p).parent = none) ∧
    (∀ p, p ≠ E.initproc → (s.proc p).state = .unused) ∧
    (s.proc E.initproc).state = .runnable ∧
    s.waitLock = none ∧
    (∀ l, s.lock l = none) ∧
    s.owed = []

/- Such a state, with all conditions false. -/
def start : Kern C P K L where
  cpu := fun _ => ⟨none, .scheduler, none⟩
  proc := fun p =>
    if p = E.initproc then
      { freeproc with state := .runnable, pid := 1 }
    else freeproc
  pc := fun _ => .away .forkret
  plock := fun _ => none
  waitLock := none
  lock := fun _ => none
  cond := fun _ => false
  owed := []
  nextpid := 2

omit [DecidableEq C] [DecidableEq K] [DecidableEq L] in
theorem start_start : E.Start (E.start : Kern C P K L) := by
  refine ⟨fun _ => rfl, fun _ => rfl, fun _ => rfl, ?_, ?_, ?_, rfl, fun _ => rfl, rfl⟩
  · intro p
    unfold start
    dsimp only
    split
    · rfl
    · rfl
  · intro p hp
    unfold start
    dsimp only
    rw [if_neg hp]
    rfl
  · unfold start
    dsimp only
    rw [if_pos rfl]

/- The machine, with all its CPUs and processes. -/
def system :
    System (Kern C P K L) (KernAction C P K L) ProcPanic where
  init := E.Start
  step := E.step

end ProcTable

/- Two processes and one condition, for concrete runs. -/
def twoProcs : ProcTable (Fin 2) Unit Unit where
  procs := [0, 1]
  mem_procs := by decide
  initproc := 0
  lk := fun _ => ()

end Xv6
