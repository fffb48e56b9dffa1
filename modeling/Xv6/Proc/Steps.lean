import Xv6.Proc.Machine

/-
  All ways in which the machine of `proc.c` goes on.

  Key definitions include:
    * `QuietMove`
    * `WakeTurn`
    * `ProcStep`
    * `KernStep`

  The step function takes only these steps:
    * `ProcTable.kernStep_of_next`
-/

open Function Xv6.ProcTable

-------
-- Steps of a Process
-------

namespace Xv6

variable {C P K L : Type} [DecidableEq C] [DecidableEq P] [DecidableEq K] [DecidableEq L]

section Process

variable (E : ProcTable P K L) (s : Kern C P K L) (p : P)

/- A process goes on and changes nothing else. -/
inductive QuietMove : ProcPc P K L → ProcPc P K L → Prop where
  | enter (r : Int) (out : Option Int) :
      QuietMove (.task (.kernel r out)) (.crit [])
  | leave : QuietMove (.crit []) (.task (.kernel 0 none))
  | wakeup (ch : Option (Chan P K)) (ls : List L) :
      QuietMove (.crit ls) (.wake ch E.procs ls)
  -- `kill` and `fork`
  | kill (r : Int) (out : Option Int) (pid : Int) :
      QuietMove (.task (.kernel r out)) (.task (.killScan pid E.procs))
  | killEnd (pid : Int) :
      QuietMove (.task (.killScan pid [])) (.task (.kernel (-1) none))
  | killNext (pid : Int) (q : P) (rest : List P) :
      QuietMove (.task (.killScan pid (q :: rest))) (.task (.killScan pid rest))
  | fork (r : Int) (out : Option Int) :
      QuietMove (.task (.kernel r out)) (.task (.forkScan E.procs))
  | forkEnd : QuietMove (.task (.forkScan [])) (.task (.kernel (-1) none))
  | forkNext (q : P) (rest : List P) :
      QuietMove (.task (.forkScan (q :: rest))) (.task (.forkScan rest))
  -- `wait`
  | wait (r : Int) (out : Option Int) (addr : Bool) :
      QuietMove (.task (.kernel r out)) (.task (.waitStart addr))
  | waitNext (addr : Bool) (q : P) (rest : List P) (kids kids' : Bool)
      (hOther : (s.proc q).parent = some p → (s.proc q).state ≠ .zombie) :
      QuietMove (.waitScan addr (q :: rest) kids) (.waitScan addr rest kids')
  | waitFail (addr : Bool) (rest : List P) (kids : Bool) :
      QuietMove (.waitScan addr rest kids) (.waitDone (-1) none)
  | waitAgain (addr kids : Bool) :
      QuietMove (.waitScan addr [] kids) (.waitSleep addr)
  -- `exit`
  | exit (r : Int) (out : Option Int) (status : Int) (hInit : p ≠ E.initproc) :
      QuietMove (.task (.kernel r out)) (.task (.exitStart status))
  | reparentNext (status : Int) (q : P) (rest : List P)
      (hOther : (s.proc q).parent ≠ some p) :
      QuietMove (.reparent status (q :: rest)) (.reparent status rest)
  | reparentEnd (status : Int) :
      QuietMove (.reparent status []) (.wakeParent status E.procs)
  | reparentWoken (status : Int) (rest : List P) :
      QuietMove (.reparentWake status rest []) (.reparent status rest)

/- One turn of a `wakeup` of `ch`, which looks at `q`. -/
inductive WakeTurn :
    Option (Chan P K) → P → ProcPc P K L → ProcPc P K L → Prop where
  | wake (ch : Option (Chan P K)) (q : P) (rest : List P) (ls : List L) :
      WakeTurn ch q (.wake ch (q :: rest) ls) (.wake ch rest ls)
  | reparentWake (status : Int) (rest : List P) (q : P) (ws : List P) :
      WakeTurn (some (.proc E.initproc)) q (.reparentWake status rest (q :: ws))
        (.reparentWake status rest ws)
  | wakeParent (status : Int) (q : P) (ws : List P) :
      WakeTurn ((s.proc p).parent.map .proc) q (.wakeParent status (q :: ws))
        (.wakeParent status ws)

variable (c : C)

/- All ways for a process at `x` on CPU `c` to go on. -/
inductive ProcStep :
    ProcPc P K L → Kern C P K L → Prop where
  | quiet {x : ProcPc P K L} (x' : ProcPc P K L)
      (hQuiet : QuietMove E s p x x') :
      ProcStep x (s.setPc p x')
  -- kernel code
  | client (o : ClientOp K L) (ls ls' : List L) (s' : Kern C P K L)
      (hClient : E.client s (.proc p) ls o = .next (s', ls')) :
      ProcStep (.crit ls) (s'.setPc p (.crit ls'))
  | skip {x : ProcPc P K L} (ch : Option (Chan P K)) (x' : ProcPc P K L)
      (hTurn : WakeTurn E s p ch p x x') : ProcStep x (s.setPc p x')
  | turn {x : ProcPc P K L} (ch : Option (Chan P K)) (q : P) (x' : ProcPc P K L)
      (hTurn : WakeTurn E s p ch q x x') (hq : q ≠ p)
      (hFree : s.plock q = none) :
      ProcStep x ((s.setProc q ((s.proc q).wakeup ch)).setPc p x')
  | woken (ch : Option (Chan P K)) (ls : List L) :
      ProcStep (.wake ch [] ls) ((E.settle s ch ls).setPc p (.crit ls))
  -- `kill` and `fork`
  | kill (pid : Int) (q : P) (rest : List P) (hFree : s.plock q = none) :
      ProcStep (.task (.killScan pid (q :: rest)))
        ((s.setProc q (s.proc q).kill).setPc p (.task (.kernel 0 none)))
  | alloc (q : P) (rest : List P) (hFree : s.plock q = none)
      (hUnused : (s.proc q).state = .unused) :
      ProcStep (.task (.forkScan (q :: rest)))
        ((({ s with nextpid := s.nextpid + 1 }.setProc q
            { s.proc q with
              pid := s.nextpid
              state := .used }).setPc q (.away .forkret)
          ).setPc p (.task (.forkParent q s.nextpid)))
  | allocFail (q : P) (rest : List P) (hFree : s.plock q = none)
      (hUnused : (s.proc q).state = .unused) :
      ProcStep (.task (.forkScan (q :: rest)))
        (({ s with nextpid := s.nextpid + 1 }.setProc q
          freeproc).setPc p (.task (.kernel (-1) none)))
  | forkParent (np : P) (pid : Int) (hWait : s.waitLock = none) :
      ProcStep (.task (.forkParent np pid))
        ((s.setProc np { s.proc np with parent := some p }
          ).setPc p (.task (.forkRun np pid)))
  | forkRun (np : P) (pid : Int) (hFree : s.plock np = none) :
      ProcStep (.task (.forkRun np pid))
        ((s.setProc np { s.proc np with state := .runnable }
          ).setPc p (.task (.kernel pid none)))
  -- `yield` and `sleep`
  | yield (t : Task P K) (hFree : s.plock p = none) :
      ProcStep (.task t) ((s.setPlock p (some c)).setPc p (.yieldLocked t))
  | yielded (t : Task P K) :
      ProcStep (.yieldLocked t)
        ((s.setProc p { s.proc p with state := .runnable }
          ).setPc p (.switching (.yield t)))
  | sleep (k : K) (ls : List L) (hHeld : E.lk k ∈ ls) (hCond : s.cond k = false)
      (hOwed : ∀ k' ∈ s.owed, E.lk k' ≠ E.lk k) (hFree : s.plock p = none) :
      ProcStep (.crit ls) ((s.setPlock p (some c)).setPc p
          (.sleepLocked (.cond k) (ls.filter (· ≠ E.lk k))))
  | waitSleep (addr : Bool) (hFree : s.plock p = none) :
      ProcStep (.waitSleep addr)
        ((s.setPlock p (some c)).setPc p (.sleepLocked (.wait addr) []))
  | sleepRelease (k : K) (ls : List L) :
      ProcStep (.sleepLocked (.cond k) ls) ((s.setLock (E.lk k) none).setPc p
          (.sleepSet (.cond k) ls))
  | waitRelease (addr : Bool) (ls : List L) :
      ProcStep (.sleepLocked (.wait addr) ls) ((s.setWaitLock none).setPc p
          (.sleepSet (.wait addr) ls))
  | asleep (w : Why K) : ProcStep (.sleepSet w []) ((s.setProc p { s.proc p with
            chan := some (w.chan p)
            state := .sleeping }).setPc p (.switching (.sleep w)))
  | relock (k : K) (hFree : s.lock (E.lk k) = none) :
      ProcStep (.task (.relock (.cond k)))
        ((s.setLock (E.lk k) (some (.proc p))).setPc p (.crit [E.lk k]))
  -- `sched`
  | sched (r : Resume P K) (hLock : s.plock p = some c) :
      ProcStep (.switching r)
        ((s.setCpu c { s.cpu c with mode := .left p }).setPc p
            (.away r))
  | backYield (t : Task P K) :
      ProcStep (.back (.yield t))
        ((s.setPlock p none).setPc p (.task t))
  | backSleep (w : Why K) :
      ProcStep (.back (.sleep w))
        (((s.setProc p { s.proc p with chan := none }).setPlock
          p none).setPc p (.task (.relock w)))
  | backFork : ProcStep (.back .forkret)
      ((s.setPlock p none).setPc p (.task (.kernel 0 none)))
  -- `wait`
  | waitLock (t : Task P K) (addr : Bool)
      (hTask : t = .waitStart addr ∨ t = .relock (.wait addr))
      (hWait : s.waitLock = none) :
      ProcStep (.task t)
        ((s.setWaitLock (some p)).setPc p
            (.waitScan addr E.procs false))
  | reap (addr : Bool) (q : P) (rest : List P) (kids : Bool)
      (hChild : (s.proc q).parent = some p)
      (hFree : s.plock q = none) (hZombie : (s.proc q).state = .zombie) :
      ProcStep (.waitScan addr (q :: rest) kids) ((s.setProc q freeproc).setPc p
          (.waitDone (s.proc q).pid
              (if addr then some (s.proc q).xstate else none)))
  | waitDone (r : Int) (out : Option Int) :
      ProcStep (.waitDone r out)
        ((s.setWaitLock none).setPc p (.task (.kernel r out)))
  -- `exit`
  | exitLock (status : Int) (hWait : s.waitLock = none) :
      ProcStep (.task (.exitStart status)) ((s.setWaitLock (some p)).setPc p
          (.reparent status E.procs))
  | reparent (status : Int) (q : P) (rest : List P)
      (hChild : (s.proc q).parent = some p) :
      ProcStep (.reparent status (q :: rest)) ((s.setProc q
          { s.proc q with parent := some E.initproc }).setPc p
              (.reparentWake status rest E.procs))
  | exitOwn (status : Int) (hFree : s.plock p = none) :
      ProcStep (.wakeParent status [])
        ((s.setPlock p (some c)).setPc p (.exitLocked status))
  | zombie (status : Int) : ProcStep (.exitLocked status) ((s.setProc p
          { s.proc p with xstate := status, state := .zombie } ).setPc p
              (.exitZombie status))
  | exitUnlock (status : Int) :
      ProcStep (.exitZombie status)
        ((s.setWaitLock none).setPc p (.switching (.dead status)))

end Process

-------
-- Steps of the Machine
-------

omit [DecidableEq C] [DecidableEq L] in
/- One turn of `wakeup`, by a process or by a handler. -/
theorem Kern.wakeOne_some {s s' : Kern C P K L} {self : Option P} {ch : Option (Chan P K)} {q : P}
    (h : s.wakeOne self ch q = some s') :
    (self = some q ∧ s' = s) ∨ (self ≠ some q ∧ s.plock q = none ∧
        s' = s.setProc q ((s.proc q).wakeup ch)) := by
  unfold Kern.wakeOne at h
  split at h
  · next hSelf => exact .inl ⟨hSelf, (Option.some.inj h).symm⟩
  · next hSelf =>
      split at h
      · next hFree => exact .inr ⟨hSelf, hFree, (Option.some.inj h).symm⟩
      · cases h

variable (E : ProcTable P K L) (s : Kern C P K L)

/- All ways for an interrupt handler to go on. -/
inductive HandlerStep (c : C) :
    Handler P K L → Kern C P K L → Prop where
  | client (o : ClientOp K L) (ls ls' : List L) (s' : Kern C P K L)
      (hClient : E.client s (.intr c) ls o = .next (s', ls')) :
      HandlerStep c (.crit ls)
        (s'.setCpu c { s'.cpu c with intr := some (.crit ls') })
  | wakeup (ch : Option (Chan P K)) (ls : List L) :
      HandlerStep c (.crit ls) (s.setCpu c
          { s.cpu c with intr := some (.wake ch E.procs ls) })
  | skip (ch : Option (Chan P K)) (q : P) (rest : List P) (ls : List L)
      (hSelf : (s.cpu c).proc = some q) :
      HandlerStep c (.wake ch (q :: rest) ls) (s.setCpu c
          { s.cpu c with intr := some (.wake ch rest ls) })
  | turn (ch : Option (Chan P K)) (q : P) (rest : List P) (ls : List L)
      (hFree : s.plock q = none) :
      HandlerStep c (.wake ch (q :: rest) ls)
        ((s.setProc q ((s.proc q).wakeup ch)).setCpu c
          { s.cpu c with intr := some (.wake ch rest ls) })
  | woken (ch : Option (Chan P K)) (ls : List L) :
      HandlerStep c (.wake ch [] ls) ((E.settle s ch ls).setCpu c
          { s.cpu c with intr := some (.crit ls) })

/- All ways for the machine to go on. -/
inductive KernStep : Kern C P K L → Prop where
  | pick (c : C) (p : P) (hMode : (s.cpu c).mode = .scheduler)
      (hIntr : (s.cpu c).intr = none)
      (hFree : s.plock p = none) (hRunnable : (s.proc p).state = .runnable) :
      KernStep (((s.setPlock p (some c)).setProc p
          { s.proc p with state := .running }).setCpu c
            { s.cpu c with proc := some p, mode := .picked p })
  | swtch (c : C) (p : P) (hMode : (s.cpu c).mode = .picked p) :
      KernStep ((s.setCpu c { s.cpu c with mode := .on p }).setPc p
          (s.pc p).resume)
  | drop (c : C) (p : P) (hMode : (s.cpu c).mode = .left p) :
      KernStep ((s.setPlock p none).setCpu c
          { s.cpu c with proc := none, mode := .scheduler })
  | irq (c : C) (hIntr : (s.cpu c).intr = none)
      (hMode : (s.cpu c).mode = .scheduler ∨
          ∃ p t, (s.cpu c).mode = .on p ∧ s.pc p = .task t) :
      KernStep (s.setCpu c { s.cpu c with intr := some (.crit []) })
  | reti (c : C) (hIntr : (s.cpu c).intr = some (.crit [])) :
      KernStep (s.setCpu c { s.cpu c with intr := none })
  | handle (c : C) (x : Handler P K L) (s' : Kern C P K L)
      (hIntr : (s.cpu c).intr = some x)
      (hStep : HandlerStep E s c x s') : KernStep s'
  | run (c : C) (p : P) (s' : Kern C P K L) (hMode : (s.cpu c).mode = .on p)
      (hIntr : (s.cpu c).intr = none)
      (hStep : ProcStep E s p c (s.pc p) s') : KernStep s'

-------
-- Frames
-------

/- The states differ only in locks and conditions. -/
structure Kern.Alike (s s' : Kern C P K L) : Prop where
  cpu : s'.cpu = s.cpu
  proc : s'.proc = s.proc
  pc : s'.pc = s.pc
  plock : s'.plock = s.plock

omit [DecidableEq C] [DecidableEq P] in
/- Kernel code does not touch the processes. -/
theorem ProcTable.client_alike {E : ProcTable P K L} {s s' : Kern C P K L} {h : Holder C P}
    {ls ls' : List L} {o : ClientOp K L}
    (hClient : E.client s h ls o = .next (s', ls')) : s.Alike s' ∧ s'.waitLock = s.waitLock := by
  cases o with
  | acquire l =>
    rw [client] at hClient
    split at hClient
    · cases hClient
    · split at hClient
      · cases hClient
        exact ⟨⟨rfl, rfl, rfl, rfl⟩, rfl⟩
      · cases hClient
  | release l =>
    rw [client] at hClient
    split at hClient
    · cases hClient
    · split at hClient
      · cases hClient
      · cases hClient
        exact ⟨⟨rfl, rfl, rfl, rfl⟩, rfl⟩
  | set k b =>
    cases b with
    | true =>
      rw [client] at hClient
      split at hClient
      · cases hClient
        exact ⟨⟨rfl, rfl, rfl, rfl⟩, rfl⟩
      · cases hClient
    | false =>
      cases hClient
      exact ⟨⟨rfl, rfl, rfl, rfl⟩, rfl⟩

section Fields

omit [DecidableEq C] [DecidableEq K] [DecidableEq L]

@[simp] theorem Kern.setPc_self (p : P) (x : ProcPc P K L) : (s.setPc p x).pc p = x :=
  update_self ..

theorem Kern.setPc_other {p q : P} (x : ProcPc P K L) (hq : q ≠ p) : (s.setPc p x).pc q = s.pc q :=
  update_of_ne hq ..

@[simp] theorem Kern.setProc_self (p : P) (v : Proc P K) : (s.setProc p v).proc p = v :=
  update_self ..

theorem Kern.setProc_other {p q : P} (v : Proc P K) (hq : q ≠ p) :
    (s.setProc p v).proc q = s.proc q :=
  update_of_ne hq ..

@[simp] theorem Kern.setPlock_self (p : P) (h : Option C) : (s.setPlock p h).plock p = h :=
  update_self ..

theorem Kern.setPlock_other {p q : P} (h : Option C) (hq : q ≠ p) :
    (s.setPlock p h).plock q = s.plock q :=
  update_of_ne hq ..

end Fields

section Cpus

omit [DecidableEq P] [DecidableEq K] [DecidableEq L]

@[simp] theorem Kern.setCpu_self (c : C) (v : Cpu P K L) : (s.setCpu c v).cpu c = v :=
  update_self ..

theorem Kern.setCpu_other {c c' : C} (v : Cpu P K L) (hc : c' ≠ c) :
    (s.setCpu c v).cpu c' = s.cpu c' :=
  update_of_ne hc ..

end Cpus

-------
-- Inversion
-------

section Inversion

variable {E : ProcTable P K L} {s s' : Kern C P K L} {c : C} {p : P} {ok : Bool}

/- One turn of a loop of the process `p` itself. -/
theorem procStep_of_wakeOne {ch : Option (Chan P K)} {q : P} {x x' : ProcPc P K L}
    (hTurn : WakeTurn E s p ch q x x')
    (h : (match s.wakeOne (some p) ch q with
        | some s₁ => .next (s₁.setPc p x')
        | none => .disabled :
          Outcome ProcPanic (Kern C P K L)) = .next s') : ProcStep E s p c x s' := by
  split at h
  · next s₁ hOne =>
      cases h
      rcases Kern.wakeOne_some hOne with
        ⟨hSelf, rfl⟩ | ⟨hSelf, hFree, rfl⟩
      · cases hSelf
        exact .skip ch x' hTurn
      · have hq : q ≠ p := fun hEq => hSelf (by rw [hEq])
        exact .turn ch q x' hTurn hq hFree
  · cases h

/- The steps at the places where no spinlock is held. -/
theorem procStep_of_task {t : Task P K} (h : E.go s c p ok (.task t) = .next s') :
    ProcStep E s p c (.task t) s' := by
  cases t with
  | kernel r out => cases h
  | killScan pid rest =>
    cases rest with
    | nil =>
      cases h
      exact .quiet _ (.killEnd pid)
    | cons q rest =>
      obtain ⟨hFree, h⟩ := Outcome.of_guard h
      split at h
      · cases h
        exact .kill pid q rest hFree
      · cases h
        exact .quiet _ (.killNext pid q rest)
  | forkScan rest =>
    cases rest with
    | nil =>
      cases h
      exact .quiet _ .forkEnd
    | cons q rest =>
      obtain ⟨hFree, h⟩ := Outcome.of_guard h
      split at h
      · next hUnused =>
          split at h
          · cases h
            exact .alloc q rest hFree hUnused
          · cases h
            exact .allocFail q rest hFree hUnused
      · cases h
        exact .quiet _ (.forkNext q rest)
  | forkParent np pid =>
    obtain ⟨hWait, ⟨⟩⟩ := Outcome.of_guard h
    exact .forkParent np pid hWait
  | forkRun np pid =>
    obtain ⟨hFree, ⟨⟩⟩ := Outcome.of_guard h
    exact .forkRun np pid hFree
  | exitStart status =>
    obtain ⟨hWait, ⟨⟩⟩ := Outcome.of_guard h
    exact .exitLock status hWait
  | waitStart addr =>
    obtain ⟨hWait, ⟨⟩⟩ := Outcome.of_guard h
    exact .waitLock _ addr (.inl rfl) hWait
  | relock w =>
    cases w with
    | cond k =>
      obtain ⟨hFree, ⟨⟩⟩ := Outcome.of_guard h
      exact .relock k hFree
    | wait addr =>
      obtain ⟨hWait, ⟨⟩⟩ := Outcome.of_guard h
      exact .waitLock _ addr (.inr rfl) hWait

/- The steps in the loop of `wait`. -/
theorem procStep_of_waitScan {addr : Bool} {rest : List P} {kids : Bool}
    (h : E.go s c p ok (.waitScan addr rest kids) = .next s') :
    ProcStep E s p c (.waitScan addr rest kids) s' := by
  cases rest with
  | nil =>
    rw [go] at h
    split at h
    · cases h
      exact .quiet _ (.waitFail addr [] kids)
    split at h
    · split at h
      · cases h
        exact .quiet _ (.waitFail addr [] kids)
      · cases h
        exact .quiet _ (.waitAgain addr kids)
    · cases h
  | cons q rest =>
    rw [go] at h
    split at h
    · next hChild =>
        obtain ⟨hFree, h⟩ := Outcome.of_guard h
        split at h
        · next hZombie =>
            split at h
            · cases h
              exact .quiet _ (.waitFail addr _ kids)
            · cases h
              exact .reap addr q rest kids hChild hFree hZombie
        · next hAlive =>
            cases h
            exact .quiet _ (.waitNext addr q rest kids true (fun _ => hAlive))
    · next hOther =>
        cases h
        exact .quiet _ (.waitNext addr q rest kids kids (fun hChild => absurd hChild hOther))

/- The steps inside `exit`. -/
theorem procStep_of_reparent {status : Int} {rest : List P}
    (h : E.go s c p ok (.reparent status rest) = .next s') :
    ProcStep E s p c (.reparent status rest) s' := by
  cases rest with
  | nil =>
    cases h
    exact .quiet _ (.reparentEnd status)
  | cons q rest =>
    rw [go] at h
    split at h
    · next hChild =>
        cases h
        exact .reparent status q rest hChild
    · next hOther =>
        cases h
        exact .quiet _ (.reparentNext status q rest hOther)

theorem procStep_of_go {x : ProcPc P K L} (h : E.go s c p ok x = .next s') :
    ProcStep E s p c x s' := by
  cases x with
  | task t => exact procStep_of_task h
  | crit ls =>
    cases ls with
    | nil =>
      cases h
      exact .quiet _ .leave
    | cons l ls => cases h
  | wake ch rest ls =>
    cases rest with
    | nil =>
      cases h
      exact .woken ch ls
    | cons q rest => exact procStep_of_wakeOne (.wake ch q rest ls) h
  | yieldLocked t =>
    cases h
    exact .yielded t
  | sleepLocked w ls =>
    cases w with
    | cond k =>
      cases h
      exact .sleepRelease k ls
    | wait addr =>
      cases h
      exact .waitRelease addr ls
  | sleepSet w ls =>
    rw [go] at h
    split at h
    · next hNil =>
        cases h
        rw [hNil]
        exact .asleep w
    · cases h
  | switching r =>
    rw [go] at h
    split at h
    · cases h
    next hLock =>
      split at h
      · cases h
      · cases h
        exact .sched r (not_not.mp hLock)
  | away r => cases h
  | back r =>
    cases r with
    | yield t =>
      cases h
      exact .backYield t
    | sleep w =>
      cases h
      exact .backSleep w
    | dead status => cases h
    | forkret =>
      cases h
      exact .backFork
  | waitScan addr rest kids => exact procStep_of_waitScan h
  | waitSleep addr =>
    obtain ⟨hFree, ⟨⟩⟩ := Outcome.of_guard h
    exact .waitSleep addr hFree
  | waitDone r out =>
    cases h
    exact .waitDone r out
  | reparent status rest => exact procStep_of_reparent h
  | reparentWake status rest ws =>
    cases ws with
    | nil =>
      cases h
      exact .quiet _ (.reparentWoken status rest)
    | cons q ws => exact procStep_of_wakeOne (.reparentWake status rest q ws) h
  | wakeParent status ws =>
    cases ws with
    | nil =>
      obtain ⟨hFree, ⟨⟩⟩ := Outcome.of_guard h
      exact .exitOwn status hFree
    | cons q ws => exact procStep_of_wakeOne (.wakeParent status q ws) h
  | exitLocked status =>
    cases h
    exact .zombie status
  | exitZombie status =>
    cases h
    exact .exitUnlock status

/- What a process starts to do. -/
theorem procStep_of_run {o : ProcOp P K L} {x : ProcPc P K L} (h : E.run s c p o x = .next s') :
    ProcStep E s p c x s' := by
  unfold run at h
  split at h
  · exact procStep_of_go h
  · next t =>
      obtain ⟨hFree, ⟨⟩⟩ := Outcome.of_guard h
      exact .yield t hFree
  · next r out =>
      cases h
      exact .quiet _ (.enter r out)
  · next o ls =>
      split at h
      · next s₁ ls' hClient =>
          cases h
          exact .client o ls ls' s₁ hClient
      · cases h
      · cases h
  · next ch ls =>
      cases h
      exact .quiet _ (.wakeup ch ls)
  · next k ls =>
      obtain ⟨hSleep, ⟨⟩⟩ := Outcome.of_guard h
      exact .sleep k ls hSleep.1 hSleep.2.1 hSleep.2.2.1 hSleep.2.2.2
  · next pid r out =>
      cases h
      exact .quiet _ (.kill r out pid)
  · next r out =>
      cases h
      exact .quiet _ (.fork r out)
  · next status r out =>
      split at h
      · cases h
      · next hInit =>
          cases h
          exact .quiet _ (.exit r out status hInit)
  · next addr r out =>
      cases h
      exact .quiet _ (.wait r out addr)
  · cases h

theorem handlerStep_of_handle {o : HandlerOp P K L} {x : Handler P K L}
    (h : E.handle s c o x = .next s') : HandlerStep E s c x s' := by
  unfold handle at h
  split at h
  · next o ls =>
      split at h
      · next s₁ ls' hClient =>
          cases h
          exact .client o ls ls' s₁ hClient
      · cases h
      · cases h
  · next ch ls =>
      cases h
      exact .wakeup ch ls
  · next ch ls =>
      cases h
      exact .woken ch ls
  · next ch q rest ls =>
      split at h
      · next s₁ hOne =>
          cases h
          rcases Kern.wakeOne_some hOne with
            ⟨hSelf, rfl⟩ | ⟨_, hFree, rfl⟩
          · exact .skip ch q rest ls hSelf
          · exact .turn ch q rest ls hFree
      · cases h
  · cases h

/- The step function takes only these steps. -/
theorem ProcTable.kernStep_of_next {a : KernAction C P K L} (h : E.step s a = .next s') :
    KernStep E s s' := by
  unfold step at h
  cases a with
  | pick c p =>
    dsimp only at h
    split at h
    · next hMode hIntr =>
        obtain ⟨hPick, ⟨⟩⟩ := Outcome.of_guard h
        exact .pick c p hMode hIntr hPick.1 hPick.2
    · cases h
  | swtch c =>
    dsimp only at h
    split at h
    · next p hMode =>
        cases h
        exact .swtch c p hMode
    · cases h
  | drop c =>
    dsimp only at h
    split at h
    · next p hMode =>
        cases h
        exact .drop c p hMode
    · cases h
  | irq c =>
    dsimp only at h
    split at h
    · next hIntr hMode =>
        cases h
        exact .irq c hIntr (.inl hMode)
    · next p hIntr hMode =>
        split at h
        · next t hPc =>
            cases h
            exact .irq c hIntr (.inr ⟨p, t, hMode, hPc⟩)
        · cases h
    · cases h
  | reti c =>
    dsimp only at h
    split at h
    · next hIntr =>
        cases h
        exact .reti c hIntr
    · cases h
  | handle c o =>
    dsimp only at h
    split at h
    · next x hIntr => exact .handle c x s' hIntr (handlerStep_of_handle h)
    · cases h
  | run c o =>
    dsimp only at h
    split at h
    · next p hMode hIntr => exact .run c p s' hMode hIntr (procStep_of_run h)
    · cases h

end Inversion

end Xv6
