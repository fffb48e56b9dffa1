import Xv6.Proc.Machine

/-
  Process numbers, and the calls that work with them: `fork`,
  `exit`, `wait` and `kill`, one call after the other.

  The counter `nextpid` is a 32-bit number that wraps. A
  process that finds nothing in `wait` goes to sleep there;
  when it runs again it may do anything, and so it may look
  once more.

  Key definitions include:
    * `PidTable`
    * `fork`, `exit`
    * `wait`, `kill`
    * `system`

  Key theorems include:
    * `pids_identify_processes`
    * `kill_affects_the_named_process`
-/

-------
-- Calls
-------

namespace Xv6

/- The table of processes, and the next number. -/
structure PidTable (P K : Type) where
  proc : P → Proc P K
  nextpid : BitVec 32

namespace PidTable

variable {P K : Type} [DecidableEq P] [DecidableEq K]

def setProc (s : PidTable P K) (p : P) (v : Proc P K) : PidTable P K :=
  { s with proc := Function.update s.proc p v }

def allocpid (s : PidTable P K) : Int × PidTable P K :=
  (s.nextpid.toInt, { s with nextpid := s.nextpid + 1 })

/-
  Find a process that is not in use. The parameter tells
  whether there is memory for trapframe and page table.
-/
def allocproc (procs : List P) (mem : Bool) (s : PidTable P K) : Option P × PidTable P K :=
  match procs.find? (fun q => (s.proc q).state = .unused) with
  | none => (none, s)
  | some p =>
    let (pid, s) := s.allocpid
    let s := s.setProc p
      { s.proc p with pid := pid, state := .used }
    if mem then (some p, s)
    else (none, s.setProc p freeproc)

/- `copy` tells whether the memory could be copied. -/
def fork (procs : List P) (p : P) (mem copy : Bool) (s : PidTable P K) : Int × PidTable P K :=
  match s.allocproc procs mem with
  | (none, s) => (-1, s)
  | (some np, s) =>
    if copy then
      ((s.proc np).pid, s.setProc np
          { s.proc np with
            parent := some p
            state := .runnable })
    else (-1, s.setProc np freeproc)

/- Wake up all processes that sleep on `ch`, except `p`. -/
def wakeup (p : P) (ch : Option (Chan P K)) (s : PidTable P K) : PidTable P K :=
  { s with
    proc := fun q => if q = p then s.proc q else (s.proc q).wakeup ch }

/- A child of `p` is given to the first process. -/
def reparentOne (initproc p : P) (s : PidTable P K) (q : P) : PidTable P K :=
  if (s.proc q).parent = some p then
    (s.setProc q
      { s.proc q with parent := some initproc }).wakeup p (some (.proc initproc))
  else s

def reparent (procs : List P) (initproc p : P) (s : PidTable P K) : PidTable P K :=
  procs.foldl (reparentOne initproc p) s

/- The end of a process other than the first. -/
def exit (procs : List P) (initproc p : P) (status : Int) (s : PidTable P K) : PidTable P K :=
  let s := s.reparent procs initproc p
  let s := s.wakeup p ((s.proc p).parent.map .proc)
  s.setProc p
    { s.proc p with
      xstate := status
      state := .zombie }

def sleep (p : P) (ch : Chan P K) (s : PidTable P K) : PidTable P K :=
  s.setProc p
    { s.proc p with
      chan := some ch
      state := .sleeping }

/-
  One turn of the loop in `wait`. The status is copied out
  unless the address is zero, which may fail. There is no
  value when the process goes to sleep.
-/
def wait (procs : List P) (p : P) (addr copy : Bool)
    (s : PidTable P K) : Option Int × PidTable P K :=
  match procs.find? (fun q => (s.proc q).parent = some p ∧ (s.proc q).state = .zombie) with
  | some q =>
    if addr ∧ ¬ copy then (some (-1), s)
    else (some (s.proc q).pid, s.setProc q freeproc)
  | none =>
    if procs.all (fun q => (s.proc q).parent ≠ some p) ∨ (s.proc p).killed then (some (-1), s)
    else (none, s.sleep p (.proc p))

def kill (procs : List P) (pid : Int) (s : PidTable P K) : Int × PidTable P K :=
  match procs.find? (fun q => (s.proc q).pid = pid) with
  | some q => (0, s.setProc q (s.proc q).kill)
  | none => (-1, s)

end PidTable

-------
-- Runs
-------

inductive ProcAct (P K : Type) where
  -- the scheduler picks a process
  | run (p : P)
  | yield (p : P)
  | sleep (p : P) (ch : Chan P K)
  | wakeup (p : P) (ch : Chan P K)
  | fork (p : P) (mem copy : Bool)
  | exit (p : P) (status : Int)
  | wait (p : P) (addr copy : Bool)
  | kill (p : P) (pid : Int)

/- The process that acts. -/
def ProcAct.proc {P K : Type} : ProcAct P K → P
| .run p => p
| .yield p => p
| .sleep p _ => p
| .wakeup p _ => p
| .fork p _ _ => p
| .exit p _ => p
| .wait p _ _ => p
| .kill p _ => p

/- The state in which a process can act. -/
def ProcAct.needs {P K : Type} : ProcAct P K → ProcState
| .run _ => .runnable
| _ => .running

namespace PidTable

variable {P K : Type} [DecidableEq P] [DecidableEq K] (procs : List P) (initproc : P)

/- The effect of an action. -/
def act (s : PidTable P K) : ProcAct P K → PidTable P K
| .run p =>
    s.setProc p
      { s.proc p with chan := none, state := .running }
| .yield p => s.setProc p { s.proc p with state := .runnable }
| .sleep p ch => s.sleep p ch
| .wakeup p ch => s.wakeup p (some ch)
| .fork p mem copy => (s.fork procs p mem copy).2
| .exit p status => s.exit procs initproc p status
| .wait p addr copy => (s.wait procs p addr copy).2
| .kill _ pid => (s.kill procs pid).2

def step (s : PidTable P K) (a : ProcAct P K) : Outcome ProcPanic (PidTable P K) :=
  if (s.proc a.proc).state = a.needs then
    match a with
    | .exit p _ =>
      if p = initproc then .fault .initExiting
      else .next (s.act procs initproc a)
    | _ => .next (s.act procs initproc a)
  else .disabled

/- The table after `userinit`. -/
def start : PidTable P K where
  proc := Function.update (fun _ => freeproc) initproc
    { freeproc with pid := 1, state := .runnable }
  nextpid := 2

def system :
    System (PidTable P K) (ProcAct P K) ProcPanic where
  init := fun s => s = start initproc
  step := step procs initproc

end PidTable

-------
-- What Steps Change
-------

variable {P K : Type}

/- Is the slot taken by a process? -/
def Proc.Live (v : Proc P K) : Prop := v.state ≠ .unused

/- The same process, with the same number. -/
structure Proc.Alike (v w : Proc P K) : Prop where
  live : w.Live ↔ v.Live
  pid : w.pid = v.pid
  killed : w.killed = v.killed

theorem Proc.Alike.refl (v : Proc P K) : v.Alike v := ⟨Iff.rfl, rfl, rfl⟩

theorem Proc.Alike.trans {u v w : Proc P K} (h : u.Alike v) (h' : v.Alike w) : u.Alike w :=
  ⟨h'.live.trans h.live, h'.pid.trans h.pid, h'.killed.trans h.killed⟩

theorem Proc.alike_wakeup [DecidableEq P] [DecidableEq K] (ch : Option (Chan P K)) (v : Proc P K) :
    v.Alike (v.wakeup ch) := by
  unfold Proc.wakeup
  split
  · rename_i hSleeping
    refine ⟨?_, rfl, rfl⟩
    simp [Proc.Live, hSleeping.1]
  · exact .refl v

theorem Proc.live_kill (v : Proc P K) : v.kill.Live ↔ v.Live := by
  unfold Proc.Live Proc.kill
  split
  · rename_i hSleeping
    simp [hSleeping]
  · exact Iff.rfl

namespace PidTable

variable {s s' s'' : PidTable P K}

/- The same processes, and no number was used up. -/
structure Keeps (s s' : PidTable P K) : Prop where
  proc : ∀ q, (s.proc q).Alike (s'.proc q)
  nextpid : s'.nextpid = s.nextpid

theorem Keeps.refl (s : PidTable P K) : s.Keeps s := ⟨fun _ => .refl _, rfl⟩

theorem Keeps.trans (h : s.Keeps s') (h' : s'.Keeps s'') : s.Keeps s'' :=
  ⟨fun q => (h.proc q).trans (h'.proc q), h'.nextpid.trans h.nextpid⟩

variable [DecidableEq P]

@[simp] theorem setProc_self (s : PidTable P K) (p : P) (v : Proc P K) :
    (s.setProc p v).proc p = v := by
  simp [setProc]

@[simp] theorem setProc_of_ne (s : PidTable P K) {p q : P} (v : Proc P K) (h : q ≠ p) :
    (s.setProc p v).proc q = s.proc q := by
  simp [setProc, h]

theorem keeps_setProc {p : P} {v : Proc P K} (h : (s.proc p).Alike v) :
    s.Keeps (s.setProc p v) := by
  refine ⟨fun q => ?_, rfl⟩
  by_cases hq : q = p
  · rw [hq, setProc_self]
    exact h
  · rw [setProc_of_ne _ _ hq]
    exact .refl _

/- A process that was live gets another state. -/
theorem keeps_setState {p : P} (hLive : (s.proc p).Live) {v : Proc P K} (hState : v.Live)
    (hPid : v.pid = (s.proc p).pid) (hKilled : v.killed = (s.proc p).killed) :
    s.Keeps (s.setProc p v) :=
  keeps_setProc ⟨iff_of_true hState hLive, hPid, hKilled⟩

variable [DecidableEq K]

variable {procs : List P}

theorem keeps_wakeup (p : P) (ch : Option (Chan P K)) (s : PidTable P K) :
    s.Keeps (s.wakeup p ch) := by
  refine ⟨fun q => ?_, rfl⟩
  unfold wakeup
  dsimp only
  split
  · exact .refl _
  · exact Proc.alike_wakeup ch _

theorem keeps_reparent (procs : List P) (initproc p : P) (s : PidTable P K) :
    s.Keeps (s.reparent procs initproc p) := by
  induction procs generalizing s with
  | nil => exact .refl s
  | cons q procs ih =>
    refine Keeps.trans ?_ (ih _)
    unfold reparentOne
    split
    · refine Keeps.trans (keeps_setProc ?_) (keeps_wakeup _ _ _)
      exact ⟨Iff.rfl, rfl, rfl⟩
    · exact .refl s

theorem keeps_exit {initproc p : P} {status : Int} (hLive : (s.proc p).Live) :
    s.Keeps (s.exit procs initproc p status) := by
  have hParent := keeps_reparent procs initproc p s
  have hWake := keeps_wakeup p (((s.reparent procs initproc p).proc p).parent.map .proc)
    (s.reparent procs initproc p)
  have hBoth := hParent.trans hWake
  refine hBoth.trans (keeps_setState ?_ ?_ rfl rfl)
  · exact (hBoth.proc p).live.mpr hLive
  · simp [Proc.Live]

/- All that an action can do. -/
inductive Change (s : PidTable P K) : ProcAct P K → PidTable P K → Prop where
  | keep {a : ProcAct P K} {s' : PidTable P K} (hKeeps : s.Keeps s') :
      Change s a s'
  -- `wait` frees a child
  | free {p q : P} {addr copy : Bool} :
      Change s (.wait p addr copy) (s.setProc q freeproc)
  -- `fork` fails when it has a number already
  | lost {p np : P} {mem copy : Bool} (hUnused : ¬ (s.proc np).Live) :
      Change s (.fork p mem copy)
        { s.setProc np freeproc with
          nextpid := s.nextpid + 1 }
  | born {p np : P} {mem copy : Bool} (hUnused : ¬ (s.proc np).Live) :
      Change s (.fork p mem copy)
        { s.setProc np { s.proc np with
              pid := s.nextpid.toInt
              parent := some p
              state := .runnable } with
          nextpid := s.nextpid + 1 }
  | kill {p q : P} {pid : Int} (hPid : (s.proc q).pid = pid) :
      Change s (.kill p pid) (s.setProc q (s.proc q).kill)

omit [DecidableEq K] in
theorem change_fork (procs : List P) (p : P) (mem copy : Bool) (s : PidTable P K) :
    Change s (.fork p mem copy) (s.fork procs p mem copy).2 := by
  unfold fork allocproc allocpid
  cases hFind : procs.find? (fun q => (s.proc q).state = .unused) with
  | none => exact .keep (.refl s)
  | some np =>
    have hUnused : ¬ (s.proc np).Live := by simpa [Proc.Live] using List.find?_some hFind
    cases mem with
    | false =>
      convert Change.lost hUnused using 1
      simp [setProc]
    | true =>
      cases copy with
      | false =>
        convert Change.lost hUnused using 1
        simp [setProc]
      | true =>
        convert Change.born hUnused using 1
        simp [setProc]

omit [DecidableEq K] in
theorem change_wait {p : P} {addr copy : Bool} (hLive : (s.proc p).Live) :
    Change s (.wait p addr copy) (s.wait procs p addr copy).2 := by
  unfold wait
  split
  · split
    · exact .keep (.refl s)
    · exact .free
  · split
    · exact .keep (.refl s)
    · exact .keep (keeps_setState hLive (by simp [Proc.Live]) rfl rfl)

omit [DecidableEq K] in
theorem change_kill (procs : List P) (p : P) (pid : Int) (s : PidTable P K) :
    Change s (.kill p pid) (s.kill procs pid).2 := by
  unfold kill
  split
  · rename_i q hFind
    exact .kill (by simpa using List.find?_some hFind)
  · exact .keep (.refl s)

/- What a step can do. -/
theorem change_of_step {initproc : P} {a : ProcAct P K}
    (hStep : step procs initproc s a = .next s') : Change s a s' := by
  unfold step at hStep
  split at hStep
  case isFalse => cases hStep
  case isTrue hNeeds =>
  have hLive : (s.proc a.proc).Live := by
    unfold Proc.Live
    rw [hNeeds]
    cases a <;> simp [ProcAct.needs]
  cases a with
  | wakeup p ch =>
    cases hStep
    exact .keep (keeps_wakeup p _ s)
  | fork p mem copy =>
    cases hStep
    exact change_fork procs p mem copy s
  | exit p status =>
    dsimp only at hStep
    split at hStep
    · cases hStep
    · cases hStep
      exact .keep (keeps_exit hLive)
  | wait p addr copy =>
    cases hStep
    exact change_wait hLive
  | kill p pid =>
    cases hStep
    exact change_kill procs p pid s
  | _ =>
    cases hStep
    exact .keep (keeps_setState hLive (by simp [Proc.Live]) rfl rfl)

end PidTable

end Xv6

-------
-- Numbers
-------

namespace Xv6.PidTable

variable {P K : Type} [DecidableEq P] [DecidableEq K] {procs : List P} {initproc : P}
variable {s s' : PidTable P K} {n : BitVec 32}

/-
  Processes have different numbers. As long as the counter
  has not wrapped, it is above all of them.
-/
structure Numbered (s : PidTable P K) : Prop where
  unused : ∀ q, ¬ (s.proc q).Live → (s.proc q).pid = 0
  pos : ∀ q, (s.proc q).Live → 0 < (s.proc q).pid
  below : 0 < s.nextpid.toInt → ∀ q, (s.proc q).Live →
    (s.proc q).pid < s.nextpid.toInt
  once : ∀ q r, (s.proc q).Live → (s.proc r).Live →
    (s.proc q).pid = (s.proc r).pid → q = r

omit [DecidableEq P] [DecidableEq K] in
theorem Numbered.congr (h : s.Numbered) (hLive : ∀ q, (s'.proc q).Live ↔ (s.proc q).Live)
    (hPid : ∀ q, (s'.proc q).pid = (s.proc q).pid)
    (hNext : s'.nextpid = s.nextpid) : s'.Numbered := by
  refine ⟨fun q hq => ?_, fun q hq => ?_, fun hPos q hq => ?_, fun q r hq hr hEq => ?_⟩
  · rw [hPid]
    exact h.unused q (by rwa [hLive] at hq)
  · rw [hPid]
    exact h.pos q (by rwa [hLive] at hq)
  · rw [hNext] at hPos ⊢
    rw [hPid]
    exact h.below hPos q (by rwa [hLive] at hq)
  · rw [hPid, hPid] at hEq
    exact h.once q r (by rwa [hLive] at hq) (by rwa [hLive] at hr) hEq

omit [DecidableEq K] in
/- A slot is freed, and numbers may be used up. -/
theorem Numbered.free (h : s.Numbered) (q : P)
    (hNext : 0 < n.toInt → 0 < s.nextpid.toInt ∧ s.nextpid.toInt ≤ n.toInt) :
    Numbered { s.setProc q freeproc with nextpid := n } := by
  have hProc : ∀ r, ((s.setProc q freeproc).proc r).Live →
      (s.setProc q freeproc).proc r = s.proc r := by
    intro r hr
    refine setProc_of_ne s _ (fun hEq => ?_)
    rw [hEq, setProc_self] at hr
    exact hr rfl
  refine ⟨fun r hr => ?_, fun r hr => ?_, fun hPos r hr => ?_, fun r t hr ht hEq => ?_⟩
  · by_cases hEq : r = q
    · rw [hEq, setProc_self]
      rfl
    · rw [setProc_of_ne _ _ hEq] at hr ⊢
      exact h.unused r hr
  · have hSame := hProc r hr
    rw [hSame] at hr ⊢
    exact h.pos r hr
  · have hSame := hProc r hr
    dsimp only at hr ⊢
    rw [hSame] at hr ⊢
    have hLt := h.below (hNext hPos).1 r hr
    have hLe := (hNext hPos).2
    omega
  · have hSame := hProc r hr
    have hSame' := hProc t ht
    rw [hSame] at hr hEq
    rw [hSame'] at ht hEq
    exact h.once r t hr ht hEq

/- The counter goes up by one, unless it wraps. -/
theorem toInt_succ (hPos : 0 < n.toInt) (hNext : 0 < (n + 1).toInt) :
    (n + 1).toInt = n.toInt + 1 := by
  rw [BitVec.toInt_add] at hNext ⊢
  have hOne : (1 : BitVec 32).toInt = 1 := by decide
  have hLt := n.toInt_lt
  unfold Int.bmod at hNext ⊢
  dsimp only at hNext ⊢
  split at hNext
  · omega
  · omega

omit [DecidableEq K] in
/- A process gets the number of the counter. -/
theorem Numbered.born (h : s.Numbered) {np : P} (hPos : 0 < s.nextpid.toInt) {v : Proc P K}
    (hPid : v.pid = s.nextpid.toInt) (hLive : v.Live) :
    Numbered
      { s.setProc np v with nextpid := s.nextpid + 1 } := by
  have hOld : ∀ q, q ≠ np → (s.setProc np v).proc q = s.proc q := fun q hq => setProc_of_ne s v hq
  have hBelow := h.below hPos
  refine ⟨fun q hq => ?_, fun q hq => ?_, fun hNext q hq => ?_, fun q r hq hr hEq => ?_⟩
  · by_cases hqn : q = np
    · rw [hqn, setProc_self] at hq
      exact absurd hLive hq
    · rw [hOld q hqn] at hq ⊢
      exact h.unused q hq
  · by_cases hqn : q = np
    · rw [hqn, setProc_self, hPid]
      exact hPos
    · rw [hOld q hqn] at hq ⊢
      exact h.pos q hq
  · rw [toInt_succ hPos hNext]
    by_cases hqn : q = np
    · rw [hqn, setProc_self]
      omega
    · rw [hOld q hqn] at hq ⊢
      have hLt := hBelow q hq
      omega
  · by_cases hqn : q = np
    · by_cases hrn : r = np
      · rw [hqn, hrn]
      · rw [hqn, setProc_self, hOld r hrn] at hEq
        rw [hOld r hrn] at hr
        have hLt := hBelow r hr
        omega
    by_cases hrn : r = np
    · rw [hrn, setProc_self, hOld q hqn] at hEq
      rw [hOld q hqn] at hq
      have hLt := hBelow q hq
      omega
    · rw [hOld q hqn, hOld r hrn] at hEq
      rw [hOld q hqn] at hq
      rw [hOld r hrn] at hr
      exact h.once q r hq hr hEq

/- The counter has not wrapped when a process is made. -/
def Unwrapped (s : PidTable P K) (a : ProcAct P K) : Prop :=
  match a with
  | .fork _ _ _ => 0 < s.nextpid.toInt
  | _ => True

omit [DecidableEq K] in
theorem Numbered.change (h : s.Numbered) {a : ProcAct P K} (hAllowed : s.Unwrapped a)
    (hChange : Change s a s') : s'.Numbered := by
  cases hChange with
  | keep hKeeps =>
    exact h.congr (fun q => (hKeeps.proc q).live) (fun q => (hKeeps.proc q).pid) hKeeps.nextpid
  | free => exact h.free _ (fun hPos => ⟨hPos, Int.le_refl _⟩)
  | lost hUnused =>
    refine h.free _ (fun hPos => ⟨hAllowed, ?_⟩)
    have hSucc := toInt_succ hAllowed hPos
    omega
  | born hUnused => exact h.born hAllowed rfl (by simp [Proc.Live])
  | @kill p q pid hPid =>
    refine h.congr (fun r => ?_) (fun r => ?_) rfl
    · by_cases hr : r = q
      · rw [hr, setProc_self, Proc.live_kill]
      · rw [setProc_of_ne _ _ hr]
    · by_cases hr : r = q
      · rw [hr, setProc_self]
        rfl
      · rw [setProc_of_ne _ _ hr]

omit [DecidableEq K] in
theorem numbered_start : (start initproc : PidTable P K).Numbered := by
  have hOther : ∀ q, ((start initproc : PidTable P K).proc q).Live → q = initproc := by
    intro q hq
    by_contra hNe
    refine hq ?_
    simp [start, hNe, freeproc]
  have hFirst : ((start initproc : PidTable P K).proc initproc).pid = 1 := by simp [start]
  refine ⟨fun q hq => ?_, fun q hq => ?_, fun _ q hq => ?_, fun q r hq hr _ => ?_⟩
  · have hNe : q ≠ initproc := by
      rintro rfl
      exact hq (by simp [start, Proc.Live])
    simp [start, hNe, freeproc]
  · rw [hOther q hq, hFirst]
    decide
  · rw [hOther q hq, hFirst]
    change 1 < (2 : BitVec 32).toInt
    decide
  · rw [hOther q hq, hOther r hr]

/-
  As long as the counter has not wrapped when a process is
  made, the processes have different, positive numbers. The
  number that `fork` returns is positive, `kill` reaches the
  process with the number, and `wait` returns a number that
  only one process had.
-/
theorem pids_identify_processes
    (hAll : ∀ p, p ∈ procs)
    (hReach : (system procs initproc).Reach Unwrapped s) :
    (∀ q, (s.proc q).Live → 0 < (s.proc q).pid) ∧
      (∀ q r, (s.proc q).Live → (s.proc r).Live →
        (s.proc q).pid = (s.proc r).pid → q = r) ∧
      (∀ p mem copy, s.Unwrapped (.fork p mem copy) →
        (s.fork procs p mem copy).1 = -1 ∨
          0 < (s.fork procs p mem copy).1) ∧
      (∀ q, (s.proc q).Live →
          s.kill procs (s.proc q).pid =
            (0, s.setProc q (s.proc q).kill)) ∧
      ∀ p addr copy r, (s.wait procs p addr copy).1 = some r → r ≠ -1 →
          ∃ q, (s.proc q).Live ∧ (s.proc q).pid = r ∧
            ∀ q', (s.proc q').Live → (s.proc q').pid = r → q' = q := by
  have hNumbered : s.Numbered :=
    hReach.invariant (fun s hs => by
        cases hs
        exact numbered_start)
      (fun s a s' h hAllowed hStep => h.change hAllowed (change_of_step hStep))
  refine ⟨hNumbered.pos, hNumbered.once, ?_, ?_, ?_⟩
  · intro p mem copy hPos
    unfold fork allocproc allocpid
    cases procs.find? (fun q => (s.proc q).state = .unused) with
    | none => exact .inl rfl
    | some np =>
      cases mem with
      | false => exact .inl rfl
      | true =>
        cases copy with
        | false => exact .inl rfl
        | true =>
          have hNext : 0 < s.nextpid.toInt := hPos
          refine .inr ?_
          simpa [setProc] using hNext
  · intro q hq
    unfold kill
    cases hFind : procs.find? (fun r => (s.proc r).pid = (s.proc q).pid) with
    | none =>
      have hNone := List.find?_eq_none.mp hFind q (hAll q)
      simp at hNone
    | some r =>
      have hPid : (s.proc r).pid = (s.proc q).pid := by simpa using List.find?_some hFind
      have hLive : (s.proc r).Live := by
        by_contra hr
        have hZero := hNumbered.unused r hr
        have hPos := hNumbered.pos q hq
        omega
      rw [hNumbered.once r q hLive hq hPid]
  · intro p addr copy r hWait hr
    unfold wait at hWait
    split at hWait
    · rename_i q hFind
      have hZombie : (s.proc q).state = .zombie := by
        have hBoth := List.find?_some hFind
        simp only [decide_eq_true_eq] at hBoth
        exact hBoth.2
      have hLive : (s.proc q).Live := by simp [Proc.Live, hZombie]
      split at hWait
      · cases hWait
        exact absurd rfl hr
      · cases hWait
        exact ⟨q, hLive, rfl, fun q' hq' hEq => hNumbered.once q' q hq' hLive hEq⟩
    · split at hWait
      · cases hWait
        exact absurd rfl hr
      · cases hWait

-------
-- A Number Used Twice
-------

/- The first processes have different numbers. -/
theorem pids_identify_two :
    ∃ s : PidTable (Fin 2) Unit, (system [0, 1] 0).Reach Unwrapped s ∧
      (s.proc 0).Live ∧ (s.proc 1).Live ∧
      0 < (s.proc 1).pid := by
  have hReach : (system [0, 1] 0).Reach Unwrapped ((start 0 : PidTable (Fin 2) Unit).act [0, 1] 0
        (.run 0) |>.act [0, 1] 0 (.fork 0 true true)) :=
    .step (a := .fork 0 true true) (.step (a := .run 0) (.init rfl) trivial rfl)
      (by decide : (0 : Int) < (2 : BitVec 32).toInt) rfl
  have hChild : (((start 0 : PidTable (Fin 2) Unit).act [0, 1] 0
      (.run 0) |>.act [0, 1] 0 (.fork 0 true true)).proc 1).Live :=
    fun hEq => nomatch hEq
  exact ⟨_, hReach, (fun hEq => nomatch hEq), hChild,
    (pids_identify_processes (by decide) hReach).1 1 hChild⟩

/- The first process runs, and there is no other. -/
def alone (n : BitVec 32) : PidTable (Fin 2) Unit where
  proc := Function.update (fun _ => freeproc) 0
    { freeproc with pid := 1, state := .running }
  nextpid := n

/- It makes a child and waits until the child has ended. -/
theorem reach_alone_succ {n : BitVec 32}
    (hReach : (system [0, 1] 0).Reach System.Anything (alone n)) :
    (system [0, 1] 0).Reach System.Anything (alone (n + 1)) := by
  have hRun : (system [0, 1] 0).run System.Anything (alone n)
      [.fork 0 true true, .run 1, .exit 1 0, .wait 0 false false] = some (alone (n + 1)) := by
    refine congrArg some (?_ : PidTable.mk _ _ = _)
    refine congrArg (fun f => PidTable.mk f (n + 1)) ?_
    funext q
    match q with
    | 0 => rfl
    | 1 => rfl
  exact System.reach_of_run hReach hRun

theorem reach_alone (n : Nat) :
    (system [0, 1] 0).Reach System.Anything (alone (2 + BitVec.ofNat 32 n)) := by
  induction n with
  | zero =>
    refine .step (a := .run 0) (.init rfl) trivial ?_
    refine congrArg Outcome.next (?_ : PidTable.mk _ _ = _)
    refine congrArg (fun f => PidTable.mk f 2) ?_
    funext q
    match q with
    | 0 => rfl
    | 1 => rfl
  | succ n ih =>
    have hNext := reach_alone_succ ih
    rw [BitVec.add_assoc] at hNext
    rw [BitVec.ofNat_add]
    exact hNext

/-
  After `2 ^ 32 - 1` children the counter is back at the number
  of the first process, which is then given to a child.
-/
theorem pid_of_init_given_to_child :
    ∃ s : PidTable (Fin 2) Unit, (system [0, 1] 0).Reach System.Anything s ∧
      ∃ q r, q ≠ r ∧ (s.proc q).Live ∧ (s.proc r).Live ∧ (s.proc q).pid = (s.proc r).pid := by
  have hReach := reach_alone (2 ^ 32 - 1)
  have hOne : (2 : BitVec 32) + BitVec.ofNat 32 (2 ^ 32 - 1) = 1 := by
    decide
  rw [hOne] at hReach
  refine ⟨_, .step (a := .fork 0 true true) hReach trivial rfl, 0, 1, by decide, ?_, ?_, ?_⟩
  · exact fun h => nomatch h
  · exact fun h => nomatch h
  · rfl

-------
-- Killing
-------

/- Slots that are not in use are not marked as killed. -/
def Clean (s : PidTable P K) : Prop :=
  ∀ q, ¬ (s.proc q).Live → (s.proc q).pid = 0 ∧ (s.proc q).killed = false

/- Zero is not the number of a process. -/
def NamesProcess (_ : PidTable P K) (a : ProcAct P K) : Prop :=
  match a with
  | .kill _ pid => pid ≠ 0
  | _ => True

omit [DecidableEq K] in
theorem Clean.setProc (h : s.Clean) {p : P} {v : Proc P K}
    (hFree : ¬ v.Live → v.pid = 0 ∧ v.killed = false) (n : BitVec 32) :
    Clean { s.setProc p v with nextpid := n } := by
  intro q hq
  by_cases hEq : q = p
  · rw [hEq, setProc_self] at hq ⊢
    exact hFree hq
  · rw [setProc_of_ne _ _ hEq] at hq ⊢
    exact h q hq

omit [DecidableEq K] in
theorem Clean.change (h : s.Clean) {a : ProcAct P K} (hAllowed : s.NamesProcess a)
    (hChange : Change s a s') : s'.Clean := by
  cases hChange with
  | keep hKeeps =>
    intro q hq
    rw [(hKeeps.proc q).live] at hq
    rw [(hKeeps.proc q).pid, (hKeeps.proc q).killed]
    exact h q hq
  | born hUnused =>
    refine h.setProc (fun hFree => absurd ?_ hFree) _
    simp [Proc.Live]
  | @kill p q pid hPid =>
    refine h.setProc (fun hFree => ?_) s.nextpid
    rw [Proc.live_kill] at hFree
    exact absurd ((h q hFree).1 ▸ hPid).symm hAllowed
  | _ => exact h.setProc (fun _ => ⟨rfl, rfl⟩) _

omit [DecidableEq K] in
/- A new process takes a slot as it is. -/
theorem Clean.child (h : s.Clean) {p np : P} {mem copy : Bool}
    (hChange : Change s (.fork p mem copy) s') (hUnused : ¬ (s.proc np).Live)
    (hLive : (s'.proc np).Live) : (s'.proc np).killed = false := by
  cases hChange with
  | keep hKeeps =>
    rw [(hKeeps.proc np).live] at hLive
    exact absurd hLive hUnused
  | @lost _ q _ _ hFree =>
    by_cases hEq : np = q
    · rw [hEq]
      simp [freeproc]
    · rw [setProc_of_ne _ _ hEq] at hLive
      exact absurd hLive hUnused
  | @born _ q _ _ hFree =>
    by_cases hEq : np = q
    · rw [hEq]
      simpa using (h q hFree).2
    · rw [setProc_of_ne _ _ hEq] at hLive
      exact absurd hLive hUnused

/-
  As long as `kill` is not called with zero, it returns 0 when
  a process has the number and marks and wakes that process
  only, and otherwise returns -1 and changes nothing. A new
  process is not marked.
-/
theorem kill_affects_the_named_process
    (hAll : ∀ p, p ∈ procs)
    (hReach : (system procs initproc).Reach NamesProcess s) :
    (∀ pid ≠ 0, (s.kill procs pid).1 = 0 ∧
        (∃ q, (s.proc q).Live ∧ (s.proc q).pid = pid ∧
            (s.kill procs pid).2 = s.setProc q
                { s.proc q with
                  killed := true
                  state :=
                    if (s.proc q).state = .sleeping then
                      .runnable
                    else (s.proc q).state }) ∨
        s.kill procs pid = (-1, s) ∧ ∀ q, (s.proc q).Live → (s.proc q).pid ≠ pid) ∧
      ∀ p mem copy np, ¬ (s.proc np).Live → ((s.fork procs p mem copy).2.proc np).Live →
          ((s.fork procs p mem copy).2.proc np).killed =
            false := by
  have hClean : s.Clean :=
    hReach.invariant (fun s hs => by
        cases hs
        intro q hq
        by_cases hEq : q = initproc
        · refine absurd ?_ hq
          simp [start, hEq, Proc.Live]
        · simp [start, hEq, freeproc])
      (fun s a s' h hAllowed hStep => h.change hAllowed (change_of_step hStep))
  refine ⟨fun pid hPid => ?_, ?_⟩
  · unfold kill
    cases hFind : procs.find? (fun q => (s.proc q).pid = pid) with
    | some q =>
      have hEq : (s.proc q).pid = pid := by simpa using List.find?_some hFind
      refine .inl ⟨rfl, q, ?_, hEq, rfl⟩
      intro hUnused
      have hZero := (hClean q (fun hLive => hLive hUnused)).1
      exact hPid (hEq.symm.trans hZero)
    | none =>
      refine .inr ⟨rfl, fun q _ hEq => ?_⟩
      have hNone := List.find?_eq_none.mp hFind q (hAll q)
      simp [hEq] at hNone
  · intro p mem copy np hUnused hLive
    exact hClean.child (change_fork procs p mem copy s) hUnused hLive

/- A few steps of two processes meet the condition. -/
theorem kill_affects_one_of_two :
    ∃ s : PidTable (Fin 2) Unit, (system [0, 1] 0).Reach NamesProcess s ∧ (s.kill [0, 1] 2).1 = 0 ∧
      ∀ pid ≠ 0, (∃ q, (s.proc q).Live ∧ (s.proc q).pid = pid) ∨ s.kill [0, 1] pid = (-1, s) := by
  have hReach : (system [0, 1] 0).Reach NamesProcess ((start 0 : PidTable (Fin 2) Unit).act [0, 1] 0
        (.run 0) |>.act [0, 1] 0 (.fork 0 true true)) :=
    .step (a := .fork 0 true true) (.step (a := .run 0) (.init rfl) trivial rfl) trivial rfl
  have hKill := (kill_affects_the_named_process (by decide) hReach).1
  refine ⟨_, hReach, rfl, fun pid hPid => ?_⟩
  rcases hKill pid hPid with ⟨_, q, hLive, hEq, _⟩ | hNone
  · exact .inl ⟨q, hLive, hEq⟩
  · exact .inr hNone.1

/-
  `kill(0)` finds a slot that is not in use. The process that
  is made there next is killed from the start.
-/
theorem kill_zero_kills_next_child :
    ∃ s : PidTable (Fin 2) Unit, (system [0, 1] 0).Reach System.Anything s ∧
      (∀ q, (s.proc q).Live → (s.proc q).pid ≠ 0) ∧
      (s.kill [0, 1] 0).1 = 0 ∧
      ∃ s', (system [0, 1] 0).step s (.kill 0 0) = .next s' ∧ ¬ (s'.proc 1).Live ∧
        ((s'.fork [0, 1] 0 true true).2.proc 1).Live ∧
        ((s'.fork [0, 1] 0 true true).2.proc 1).killed =
          true := by
  have hReach : (system [0, 1] 0).Reach System.Anything
      ((start 0 : PidTable (Fin 2) Unit).act [0, 1] 0 (.run 0)) :=
    .step (a := .run 0) (.init rfl) trivial rfl
  refine ⟨_, hReach, fun q hq => ?_, rfl, _, rfl, ?_, ?_, rfl⟩
  · match q with
    | 0 => decide
    | 1 => exact absurd rfl hq
  · exact fun hLive => hLive rfl
  · exact fun hEq => nomatch hEq

end Xv6.PidTable
