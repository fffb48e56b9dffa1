import Xv6.Proc.Placement

/-
  Parents and children: every exit is seen by the parent.

  `wait_lock` guards the parent pointers, the change of a
  process to a zombie and the decision of a parent to sleep.
  What a process does under it is its role.

  Key definitions include:
    * `Role`
    * `Kern.Dozes`
    * `Family`

  The main result is `every_exit_is_reaped_by_parent`.
-/

open Function Xv6.Kern Xv6.ProcTable Xv6.Proc

-------
-- Roles
-------

namespace Xv6

variable {C P K L : Type}

/- What a process does in `fork`, `exit` or `wait`. -/
inductive Role (P : Type) where
  | plain
  -- `fork` has set the parent of the child
  | making (np : P)
  -- `wait`: scanning, about to sleep, about to return
  | scanning (rest : List P)
  | resting
  | returning
  -- `wait` has released `wait_lock`; then it is asleep
  | falling
  | dozing
  -- `exit`
  | leaving
  | giving (rest : List P)
  | telling (rest ws : List P)
  | calling (ws : List P)
  | ending
  | ended (status : Int)
  | dead (status : Int)

namespace Role

/- Does it hold `wait_lock`? -/
def holds : Role P → Bool
| .scanning _ => true
| .resting => true
| .returning => true
| .giving _ => true
| .telling _ _ => true
| .calling _ => true
| .ending => true
| .ended _ => true
| _ => false

/- Is it in `exit`? -/
def exits : Role P → Bool
| .leaving => true
| .giving _ => true
| .telling _ _ => true
| .calling _ => true
| .ending => true
| .ended _ => true
| .dead _ => true
| _ => false

/- The argument of the `exit` that it ends with. -/
def status : Role P → Option Int
| .ended st => some st
| .dead st => some st
| _ => none

/- May it still have the child `q`? -/
def mayHave (q : P) : Role P → Prop
| .giving rest => q ∈ rest
| .telling rest _ => q ∈ rest
| .calling _ => False
| .ending => False
| .ended _ => False
| .dead _ => False
| _ => True

/- May it have missed the zombie `q` so far? -/
def mayMiss (q : P) : Role P → Prop
| .scanning rest => q ∈ rest
| .resting => False
| _ => True

/- Will it still wake up its parent `w`? -/
def willWake (w : P) : Role P → Prop
| .calling ws => w ∈ ws
| .ending => False
| _ => True

/- Is it still going to wake up `w`, who got its children? -/
def callsInit (w : P) : Role P → Prop
| .telling _ ws => w ∈ ws
| _ => False

end Role

def Task.role : Task P K → Role P
| .forkRun np _ => .making np
| .exitStart _ => .leaving
| _ => .plain

def ProcPc.role : ProcPc P K L → Role P
| .task t => t.role
| .yieldLocked t => t.role
| .sleepLocked (.wait _) _ => .resting
| .sleepSet (.wait _) _ => .falling
| .switching (.yield t) => t.role
| .switching (.sleep (.wait _)) => .dozing
| .switching (.dead st) => .dead st
| .away (.yield t) => t.role
| .away (.sleep (.wait _)) => .dozing
| .away (.dead st) => .dead st
| .back (.yield t) => t.role
| .back (.dead st) => .dead st
| .waitScan _ rest _ => .scanning rest
| .waitSleep _ => .resting
| .waitDone _ _ => .returning
| .reparent _ rest => .giving rest
| .reparentWake _ rest ws => .telling rest ws
| .wakeParent _ ws => .calling ws
| .exitLocked _ => .ending
| .exitZombie st => .ended st
| _ => .plain

/- Neither free, nor being made, nor a zombie. -/
def Proc.Alive (v : Proc P K) : Prop :=
  v.state = .sleeping ∨ v.state = .runnable ∨ v.state = .running

/- Not yet a process. -/
def Proc.Fresh (v : Proc P K) : Prop := v.state = .unused ∨ v.state = .used

theorem Proc.not_fresh {v : Proc P K} (h : v.Alive) : ¬ v.Fresh := by
  rintro (hBad | hBad)
  · simp [Alive, hBad] at h
  · simp [Alive, hBad] at h

namespace Kern

def role (s : Kern C P K L) (p : P) : Role P := (s.pc p).role

theorem role_of_pc {s : Kern C P K L} {p : P} {x : ProcPc P K L} (h : s.pc p = x) :
    s.role p = x.role :=
  congrArg ProcPc.role h

/- A parent sleeps in `wait`, or it is about to. -/
def Dozes (s : Kern C P K L) (p : P) : Prop :=
  s.role p = .falling ∨ (s.role p = .dozing ∧ (s.proc p).state = .sleeping)

end Kern

/-
  What `wait_lock` guards. The last but one field says who
  will wake up a parent that sleeps next to a zombie child.
-/
structure Family (E : ProcTable P K L) (s : Kern C P K L) : Prop where
  held : ∀ p, (s.role p).holds = true → s.waitLock = some p
  init_alive : (s.proc E.initproc).Alive
  init_stays : ∀ p, (s.role p).exits = true → p ≠ E.initproc
  status : ∀ p st, (s.role p).status = some st →
    (s.proc p).state = .zombie → (s.proc p).xstate = st
  alive : ∀ p q, (s.proc q).parent = some p → (s.proc p).Alive
  parent : ∀ q, q ≠ E.initproc → ¬ (s.proc q).Fresh →
    ∃ p, (s.proc q).parent = some p
  children : ∀ p q, (s.proc q).parent = some p → (s.role p).mayHave q
  made : ∀ p np, s.role p = .making np → (s.proc np).parent = some p
  zombies : ∀ p q, (s.proc q).parent = some p →
    (s.proc q).state = .zombie → (s.role p).mayMiss q
  told : ∀ p w, (s.proc p).parent = some w → s.Dozes w → (s.role p).willWake w
  woken : ∀ p q, s.Dozes p → (s.proc q).parent = some p →
      (s.proc q).state = .zombie → p = E.initproc ∧ ∃ r, (s.role r).callsInit p
  chan : ∀ p, s.role p = .dozing → (s.proc p).state = .sleeping →
    (s.proc p).chan = some (.proc p)

theorem Family.start {E : ProcTable P K L} {s : Kern C P K L} (h : E.Start s) : Family E s := by
  obtain ⟨_, hPc, _, hParent, hUnused, hInit, _, _, _⟩ := h
  have hRole (p : P) : s.role p = .plain := role_of_pc (hPc p)
  have hNone {p q : P} : (s.proc q).parent ≠ some p := by
    rw [hParent]
    simp
  refine
    { held := ?_
      init_alive := .inr (.inl hInit)
      init_stays := ?_
      status := ?_
      alive := fun _ _ hq => absurd hq hNone
      parent := fun q hq hFresh => absurd (.inl (hUnused q hq)) hFresh
      children := fun _ _ hq => absurd hq hNone
      made := ?_
      zombies := fun _ _ hq => absurd hq hNone
      told := fun _ _ hq => absurd hq hNone
      woken := fun _ _ _ hq => absurd hq hNone
      chan := ?_ }
  all_goals
    intro p
    rw [hRole]
    exact nofun

-------
-- Rules
-------

variable {E : ProcTable P K L} {s s' : Kern C P K L} {p : P} {r : Role P}
variable {x x' : ProcPc P K L} {v v' : Proc P K} {status : Int}

/-
  What a step does to the records apart from `fork`, `exit`
  and falling asleep: nobody gets a parent, becomes a zombie,
  dies, is born or falls asleep.
-/
structure Proc.Calm (v v' : Proc P K) : Prop where
  parent : v'.parent = v.parent ∨
    (v'.parent = none ∧ v.state ≠ .used ∧ v'.state = .unused)
  zombie : v'.state = .zombie → v.state = .zombie ∧ v'.xstate = v.xstate
  alive : v.Alive → v'.Alive
  fresh : v.Fresh → v'.Fresh
  sleeping : v'.state = .sleeping → v.state = .sleeping ∧ v'.chan = v.chan

theorem Proc.Calm.rfl : v.Calm v :=
  ⟨.inl (Eq.refl _), fun h => ⟨h, Eq.refl _⟩, fun h => h, fun h => h, fun h => ⟨h, Eq.refl _⟩⟩

theorem Proc.Calm.parent_some (h : v.Calm v') (hp : v'.parent = some p) :
    v.parent = some p := by
  rcases h.parent with hSame | ⟨hNone, _⟩
  · rw [← hSame]
    exact hp
  · rw [hNone] at hp
    cases hp

/- A process that runs, or may run, keeps its parent. -/
theorem Proc.Calm.of_awake (hAlive : v.Alive) (hParent : v'.parent = v.parent)
    (hState : v'.state = .runnable ∨ v'.state = .running) : v.Calm v' := by
  refine ⟨.inl hParent, ?_, fun _ => .inr hState,
    fun hFresh => absurd hFresh (not_fresh hAlive), ?_⟩
  · rcases hState with hState | hState
    · simp [hState]
    · simp [hState]
  · rcases hState with hState | hState
    · simp [hState]
    · simp [hState]

/- A record that is not alive is freed. -/
theorem Proc.Calm.free (hAlive : ¬ v.Alive) (hUsed : v.state ≠ .used) :
    v.Calm freeproc :=
  ⟨.inr ⟨Eq.refl _, hUsed, Eq.refl _⟩, by rintro ⟨⟩,
    fun h => absurd h hAlive, fun _ => .inl (Eq.refl _), by rintro ⟨⟩⟩

theorem Proc.calm_kill (v : Proc P K) : v.Calm v.kill := by
  by_cases hAsleep : v.state = .sleeping
  · refine .of_awake (.inl hAsleep) (Eq.refl _) (.inl ?_)
    unfold kill
    rw [if_pos hAsleep]
  have hState : v.kill.state = v.state := by
    unfold kill
    rw [if_neg hAsleep]
  constructor
  · exact .inl (Eq.refl _)
  · exact fun hZombie => ⟨hState.symm.trans hZombie, Eq.refl _⟩
  · unfold Proc.Alive
    rw [hState]
    exact id
  · unfold Proc.Fresh
    rw [hState]
    exact id
  · exact fun hBad => absurd (hState.symm.trans hBad) hAsleep

theorem Role.mayHave_of_stays (h : r.exits = false) (q : P) : r.mayHave q := by
  cases r with
  | giving | telling | calling | ending | ended | dead => cases h
  | _ => trivial

theorem Role.mayMiss_of_free (h : r.holds = false) (q : P) : r.mayMiss q := by
  cases r with
  | scanning | resting => cases h
  | _ => trivial

theorem Role.willWake_of_free (h : r.holds = false) (w : P) : r.willWake w := by
  cases r with
  | calling | ending => cases h
  | _ => trivial

theorem Role.willWake_of_stays (h : r.exits = false) (w : P) : r.willWake w := by
  cases r with
  | calling | ending => cases h
  | _ => trivial

/-
  The process `p` changes its role from `r` to `r'`, and the
  records stay calm.
-/
structure RoleChange (E : ProcTable P K L) (s s' : Kern C P K L) (p : P)
    (r r' : Role P) : Prop where
  holds : r'.holds = true → s'.waitLock = some p := by rintro ⟨⟩
  exits : r'.exits = true → r.exits = true ∨ p ≠ E.initproc := by
      first | exact fun _ => .inl rfl | rintro ⟨⟩
  status : ∀ st, r'.status = some st →
    r.status = some st ∨ (s.proc p).xstate = st := by
      rintro _ ⟨⟩
  children : ∀ q, (s.proc q).parent = some p → r.mayHave q → r'.mayHave q := by
      first | exact fun _ _ _ => trivial | exact fun _ _ hMay => hMay
  made : ∀ np, r' = .making np → r = .making np ∨ ((s.proc np).parent = some p ∧
          (s.proc np).state = .used) := by rintro _ ⟨⟩
  zombies : ∀ q, (s.proc q).parent = some p →
      (s.proc q).state = .zombie → r.mayMiss q →
        r'.mayMiss q := by exact fun _ _ _ _ => trivial
  told : ∀ w, (s.proc p).parent = some w → s'.Dozes w → r.willWake w →
    r'.willWake w := by
      exact fun _ _ _ _ => trivial
  -- who starts to doze has the lock and no zombie
  dozes : r' = .falling →
    r = .falling ∨ (s.waitLock = some p ∧ r.exits = false ∧
          ∀ q, (s.proc q).parent = some p →
            (s.proc q).state ≠ .zombie) := by rintro ⟨⟩
  calls : s'.Dozes E.initproc → r.callsInit E.initproc →
    r'.callsInit E.initproc := by
      exact fun _ hr => hr.elim
  chan : r' = .dozing →
    r = .dozing ∨ (r = .falling ∧
        (s.proc p).chan = some (.proc p)) := by
      rintro ⟨⟩

/- The process is done with its role. -/
theorem RoleChange.done (hCalls : ¬ r.callsInit E.initproc) : RoleChange E s s' p r .plain :=
  { calls := fun _ hr => absurd hr hCalls }

theorem RoleChange.doze (hChan : (s.proc p).chan = some (.proc p)) :
    RoleChange E s s' p .falling .dozing :=
  { chan := fun _ => .inr ⟨rfl, hChan⟩ }

/- Who has set the parent of a slot is filling it. -/
theorem ProcPc.makes_of_role {np : P} (h : x.role = .making np) :
    x.makes = some np := by
  have hTask {t : Task P K} (ht : t.role = .making np) : t.makes = some np := by
    cases t with
    | forkRun np' pid =>
      cases ht
      rfl
    | _ => cases ht
  cases x with
  | task | yieldLocked => exact hTask h
  | sleepLocked w ls | sleepSet w ls =>
    cases w with
    | _ => cases h
  | switching r | away r =>
    cases r with
    | yield t => exact hTask h
    | sleep w =>
      cases w with
      | _ => cases h
    | _ => cases h
  | back r =>
    cases r with
    | yield t => exact hTask h
    | _ => cases h
  | _ => cases h

/- Who is about to sleep in `wait` holds its own lock. -/
theorem ProcPc.own_of_falling (h : x.role = .falling) : x.own = true := by
  have hTask {t : Task P K} : t.role ≠ .falling := by
    cases t with
    | _ => rintro ⟨⟩
  cases x with
  | task t => exact absurd h hTask
  | away r =>
    cases r with
    | yield t => exact absurd h hTask
    | sleep w =>
      cases w with
      | _ => cases h
    | _ => cases h
  | yieldLocked | sleepLocked | sleepSet | switching | back => rfl
  | _ => cases h

/- Others than `p` doze only if they did so before. -/
theorem Kern.dozes_old (hCalm : ∀ q, (s.proc q).Calm (s'.proc q)) {q : P}
    (hRole : s'.role q = s.role q ∨ s'.role q = .plain) (h : s'.Dozes q) : s.Dozes q := by
  rcases h with hFalls | ⟨hDozes, hAsleep⟩
  · rcases hRole with hSame | hPlain
    · exact .inl (hSame.symm.trans hFalls)
    · exact absurd (hPlain.symm.trans hFalls) (by simp)
  · rcases hRole with hSame | hPlain
    · exact .inr ⟨hSame.symm.trans hDozes, ((hCalm q).sleeping hAsleep).1⟩
    · exact absurd (hPlain.symm.trans hDozes) (by simp)

theorem Family.held_of_pc (h : Family E s) (hPc : s.pc p = x)
    (hHolds : x.role.holds = true) : s.waitLock = some p :=
  h.held p (role_of_pc hPc ▸ hHolds)

/- Only one process is in a role that needs `wait_lock`. -/
theorem Family.free_of_holds (h : Family E s) {q : P} (hp : (s.role p).holds = true) (hq : q ≠ p) :
    (s.role q).holds = false := by
  cases hHolds : (s.role q).holds with
  | false => rfl
  | true =>
    have hLock := h.held p hp
    rw [h.held q hHolds] at hLock
    exact absurd (Option.some.inj hLock) hq

/- The record of `q` becomes `v`, and nobody moves. -/
structure RecordChange (E : ProcTable P K L) (s : Kern C P K L) (q : P) (v : Proc P K) : Prop where
  init : q = E.initproc → v.Alive
  alive : ∀ q', (s.proc q').parent = some q → v.Alive
  status : ∀ st, (s.role q).status = some st → v.state = .zombie → v.xstate = st
  parent_alive : ∀ w, v.parent = some w →
    (w = q → v.Alive) ∧ (w ≠ q → (s.proc w).Alive)
  parent : q ≠ E.initproc → ¬ v.Fresh → ∃ w, v.parent = some w
  children : ∀ w, v.parent = some w → (s.role w).mayHave q
  made : ∀ p, s.role p = .making q → v.parent = some p
  zombies : ∀ w, v.parent = some w → v.state = .zombie → (s.role w).mayMiss q
  told : ∀ w, v.parent = some w → s.Dozes w → (s.role q).willWake w
  dozes : s.role q = .dozing → v.state = .sleeping →
      (s.proc q).state = .sleeping ∧ v.chan = (s.proc q).chan
  woken : ∀ w, s.Dozes w → v.parent = some w → v.state = .zombie →
      w = E.initproc ∧ ∃ r, (s.role r).callsInit w

/- The process `q` gets the parent `w`. -/
theorem Family.adopt (h : Family E s) {q w : P} (hw : (s.proc w).Alive)
    (hHave : (s.role w).mayHave q) (hMade : ∀ p, s.role p = .making q → p = w)
    (hMiss : (s.proc q).state = .zombie → (s.role w).mayMiss q)
    (hTold : s.Dozes w → (s.role q).willWake w)
    (hWoken : s.Dozes w → (s.proc q).state = .zombie →
        w = E.initproc ∧ ∃ r, (s.role r).callsInit w) :
    RecordChange E s q { s.proc q with parent := some w } where
  init hq := hq ▸ h.init_alive
  alive q' hq' := h.alive q q' hq'
  status := h.status q
  parent_alive w' hw' := by
    cases hw'
    exact ⟨fun hq => hq ▸ hw, fun _ => hw⟩
  parent _ _ := ⟨w, rfl⟩
  children w' hw' := by
    cases hw'
    exact hHave
  made p hp := congrArg some (hMade p hp).symm
  zombies w' hw' := by
    cases hw'
    exact hMiss
  told w' hw' := by
    cases hw'
    exact hTold
  dozes _ hAsleep := ⟨hAsleep, rfl⟩
  woken w' hDoze hw' := by
    cases hw'
    exact hWoken hDoze

/- Nobody sleeps next to a zombie, unless a wakeup is due. -/
theorem Family.not_zombie_of_asleep
    (h : Family E s) (hWait : s.waitLock = none) {p q : P} {addr : Bool}
    (hPc : s.pc p = .away (.sleep (.wait addr))) (hSleeping : (s.proc p).state = .sleeping)
    (hChild : (s.proc q).parent = some p) : (s.proc q).state ≠ .zombie := by
  intro hZombie
  have hRole : s.role p = .dozing := role_of_pc hPc
  obtain ⟨_, r, hCalls⟩ := h.woken p q (.inr ⟨hRole, hSleeping⟩) hChild hZombie
  have hHolds : (s.role r).holds = true := by
    cases hr : s.role r with
    | telling rest ws => rfl
    | _ =>
      rw [hr] at hCalls
      exact hCalls.elim
  rw [h.held r hHolds] at hWait
  cases hWait

/- A zombie whose lock is free has come to the end of `exit`. -/
theorem Placed.away_of_zombie (h : Placed s) {q : P} (hZombie : (s.proc q).state = .zombie)
    (hFree : s.plock q = none) : ∃ status, s.pc q = .away (.dead status) := by
  have hNot : (s.proc q).state ≠ .running := by
    rw [hZombie]
    simp
  obtain ⟨_, r, hAway, hRested⟩ := h.rests hFree hNot
  change r.rested (s.proc q).state at hRested
  rw [hZombie] at hRested
  cases r with
  | dead status => exact ⟨status, hAway⟩
  | yield t => cases hRested
  | _ => exact absurd hRested (by simp [Resume.rested])

/- The status in the record is the argument of `exit`. -/
theorem Family.xstate_of_zombie (h : Family E s) {q : P}
    (hZombie : (s.proc q).state = .zombie)
    (hPc : s.pc q = .away (.dead status)) : (s.proc q).xstate = status := by
  refine h.status q status ?_ hZombie
  unfold role
  rw [hPc]
  rfl

/- The argument of the call of `exit` that a task is in. -/
def Task.exitArg : Task P K → Option Int
| .exitStart status => some status
| _ => none

/- The argument of the call of `exit` a process is in. -/
def ProcPc.exitArg : ProcPc P K L → Option Int
| .task t => t.exitArg
| .yieldLocked t => t.exitArg
| .switching (.yield t) => t.exitArg
| .switching (.dead status) => some status
| .away (.yield t) => t.exitArg
| .away (.dead status) => some status
| .back (.yield t) => t.exitArg
| .back (.dead status) => some status
| .reparent status _ => some status
| .reparentWake status _ _ => some status
| .wakeParent status _ => some status
| .exitLocked status => some status
| .exitZombie status => some status
| _ => none

theorem WakeTurn.exitArg {ch : Option (Chan P K)} {q : P}
    (h : WakeTurn E s p ch q x x') : x'.exitArg = x.exitArg := by
  cases h
  · rfl
  · rfl
  · rfl

/- How the parent of `q` can change in a step. -/
def Kern.ParentMoves (E : ProcTable P K L) (s s' : Kern C P K L) (q : P) : Prop :=
  -- `fork` of its creator
  (∃ p pid, s.pc p = .task (.forkParent q pid) ∧ (s'.proc q).parent = some p) ∨
    -- `exit` of its parent
    (∃ p status rest, s.pc p = .reparent status (q :: rest) ∧
        (s.proc q).parent = some p ∧
      (s'.proc q).parent = some E.initproc) ∨
    -- `freeproc`
    ((s'.proc q).parent = none ∧ (s'.proc q).state = .unused)

-------
-- Records
-------

variable [DecidableEq P]

theorem Kern.calm_setProc (hv : (s.proc p).Calm v) :
    ∀ q, (s.proc q).Calm ((s.setProc p v).proc q) :=
  forall_setProc hv (fun _ _ => .rfl)

theorem Kern.parent_setProc {q : P} (hv : q = p → v.parent = (s.proc p).parent) :
    ((s.setProc p v).proc q).parent = (s.proc q).parent :=
  forall_setProc (F := fun x v => q = x → v.parent = (s.proc x).parent) hv
    (fun _ _ _ => rfl) q rfl

theorem Kern.exitArg_setPc {s₁ : Kern C P K L} {q : P}
    (h : ((s₁.setPc p x').pc q).exitArg = some status) (hPc : s.pc p = x) (hAlike : s₁.pc = s.pc)
    (hArg : x'.exitArg = some status → x.exitArg = some status) :
    (s.pc q).exitArg = some status := by
  by_cases hq : q = p
  · subst hq
    rw [setPc_self] at h
    rw [hPc]
    exact hArg h
  · rw [setPc_other _ _ hq, hAlike] at h
    exact h

theorem Family.record (h : Family E s) {q : P} (hMine : RecordChange E s q v) :
    Family E (s.setProc q v) := by
  have hDozes {w : P} (hw : (s.setProc q v).Dozes w) : s.Dozes w := by
    rcases hw with hFalls | ⟨hDoze, hAsleep⟩
    · exact .inl hFalls
    have hOld := forall_setProc
      (F := fun p v => s.role p = .dozing → v.state = .sleeping → (s.proc p).state = .sleeping)
      (fun hDoze hAsleep => (hMine.dozes hDoze hAsleep).1) (fun _ _ _ hAsleep => hAsleep) w
    exact .inr ⟨hDoze, hOld hDoze hAsleep⟩
  constructor
  case held => exact h.held
  case init_alive =>
      exact forall_setProc (F := fun p v => p = E.initproc → v.Alive) hMine.init
        (fun p _ hp => hp ▸ h.init_alive) _ rfl
  case init_stays => exact h.init_stays
  case status =>
      intro p st hp
      exact forall_setProc
        (F := fun p v => (s.role p).status = some st → v.state = .zombie → v.xstate = st)
        (hMine.status st) (fun p _ => h.status p st) p hp
  case alive =>
      intro p q' hq'
      by_cases hq : q' = q
      · subst hq
        rw [setProc_self] at hq'
        obtain ⟨hSelf, hOther⟩ := hMine.parent_alive p hq'
        exact forall_setProc (F := fun w v => w = p → v.Alive) (fun hp => hSelf hp.symm)
          (fun w hw hp => hp ▸ hOther (hp ▸ hw)) p rfl
      · rw [setProc_other _ _ hq] at hq'
        exact forall_setProc (F := fun p v => (s.proc q').parent = some p → v.Alive)
          (hMine.alive q') (fun p _ => h.alive p q') p hq'
  case parent =>
      exact forall_setProc
        (F := fun q' v => q' ≠ E.initproc → ¬ v.Fresh → ∃ p, v.parent = some p)
        hMine.parent (fun q' _ => h.parent q')
  case children =>
      intro p
      exact forall_setProc (F := fun q' v => v.parent = some p → (s.role p).mayHave q')
        (hMine.children p) (fun q' _ => h.children p q')
  case made =>
      intro p
      exact forall_setProc (F := fun np v => s.role p = .making np → v.parent = some p)
        (hMine.made p) (fun np _ => h.made p np)
  case zombies =>
      intro p
      exact forall_setProc
        (F := fun q' v => v.parent = some p → v.state = .zombie → (s.role p).mayMiss q')
        (hMine.zombies p) (fun q' _ => h.zombies p q')
  case told =>
      intro p w hp hw
      exact forall_setProc (F := fun p v => v.parent = some w → (s.role p).willWake w)
        (fun hp => hMine.told w hp (hDozes hw)) (fun p _ hp => h.told p w hp (hDozes hw)) p hp
  case woken =>
      intro p q' hp
      exact forall_setProc (F := fun _ v => v.parent = some p → v.state = .zombie →
          p = E.initproc ∧ ∃ r, (s.role r).callsInit p)
        (hMine.woken p (hDozes hp)) (fun q' _ => h.woken p q' (hDozes hp)) q'
  case chan =>
      intro p hp
      refine forall_setProc (F := fun p v => s.role p = .dozing → v.state = .sleeping →
        v.chan = some (.proc p)) ?_ (fun p _ => h.chan p) p hp
      intro hp hAsleep
      obtain ⟨hOld, hChan⟩ := hMine.dozes hp hAsleep
      rw [hChan]
      exact h.chan q hp hOld

-------
-- Steps
-------

section

variable (h : Family E s) (hForking : Forking s)
include h hForking

theorem Family.change (hMine : RoleChange E s s' p (s.role p) (s'.role p))
    (hOther : ∀ q, q ≠ p → s'.role q = s.role q ∨ ((s.role q).holds = false ∧ s'.role q = .plain))
    (hCalm : ∀ q, (s.proc q).Calm (s'.proc q))
    (hWait : ∀ q, q ≠ p → s.waitLock = some q → s'.waitLock = some q) : Family E s' := by
  have hParent {p' q : P} (hq : (s'.proc q).parent = some p') : (s.proc q).parent = some p' :=
    (hCalm q).parent_some hq
  -- the process that starts to doze is the only exception
  have hDozes {w : P} (hw : s'.Dozes w) : s.Dozes w ∨
        (w = p ∧ s.waitLock = some p ∧ (s.role p).exits = false ∧
          ∀ q, (s.proc q).parent = some p → (s.proc q).state ≠ .zombie) := by
    by_cases hwp : w = p
    · subst hwp
      rcases hw with hFalls | ⟨hDoze, hAsleep⟩
      · rcases hMine.dozes hFalls with hOld | hNew
        · exact .inl (.inl hOld)
        · exact .inr ⟨rfl, hNew⟩
      · rcases hMine.chan hDoze with hOld | ⟨hOld, _⟩
        · exact .inl (.inr ⟨hOld, ((hCalm w).sleeping hAsleep).1⟩)
        · exact .inl (.inl hOld)
    · exact .inl (dozes_old hCalm ((hOther w hwp).imp_right And.right) hw)
  -- what the others do, apart from nothing, they did before
  have hBefore {q : P} (hq : q ≠ p) {F : Role P → Prop} (hF : F (s'.role q)) (hPlain : ¬ F .plain) :
      F (s.role q) := by
    rcases hOther q hq with hSame | ⟨_, hNew⟩
    · rwa [hSame] at hF
    · rw [hNew] at hF
      exact absurd hF hPlain
  have hAfter {q : P} {F : Role P → Prop} (hF : F (s.role q)) (hPlain : F .plain)
      (hSelf : q = p → F (s'.role q)) :
      F (s'.role q) := by
    by_cases hq : q = p
    · exact hSelf hq
    · rcases hOther q hq with hSame | ⟨_, hNew⟩
      · rwa [hSame]
      · rwa [hNew]
  constructor
  case held =>
      intro q hq
      by_cases hqp : q = p
      · subst hqp
        exact hMine.holds hq
      · exact hWait q hqp (h.held q (hBefore (F := fun r => r.holds = true) hqp hq (by rintro ⟨⟩)))
  case init_alive => exact (hCalm _).alive h.init_alive
  case init_stays =>
      intro q hq
      by_cases hqp : q = p
      · subst hqp
        exact (hMine.exits hq).elim (h.init_stays q) id
      · exact h.init_stays q (hBefore (F := fun r => r.exits = true) hqp hq (by rintro ⟨⟩))
  case status =>
      intro q st hq hZombie
      obtain ⟨hOld, hStatus⟩ := (hCalm q).zombie hZombie
      rw [hStatus]
      by_cases hqp : q = p
      · subst hqp
        exact (hMine.status st hq).elim (fun hSt => h.status q st hSt hOld) id
      · exact h.status q st (hBefore (F := fun r => r.status = some st) hqp hq (by rintro ⟨⟩)) hOld
  case alive =>
      intro p' q hq
      exact (hCalm p').alive (h.alive p' q (hParent hq))
  case parent =>
      intro q hq hFresh
      obtain ⟨p', hp'⟩ := h.parent q hq (fun hOld => hFresh ((hCalm q).fresh hOld))
      rcases (hCalm q).parent with hSame | ⟨_, _, hUnused⟩
      · exact ⟨p', hSame.trans hp'⟩
      · exact absurd (.inl hUnused) hFresh
  case children =>
      intro p' q hq
      have hOld := h.children p' q (hParent hq)
      refine hAfter hOld trivial ?_
      rintro rfl
      exact hMine.children q (hParent hq) hOld
  case made =>
      intro q np hq
      have hOld : (s.proc np).parent = some q ∧ (s.proc np).state = .used := by
        have hMakes (hRole : s.role q = .making np) :
            (s.proc np).parent = some q ∧ (s.proc np).state = .used :=
          ⟨h.made q np hRole, hForking.used q np (ProcPc.makes_of_role hRole)⟩
        by_cases hqp : q = p
        · subst hqp
          exact (hMine.made np hq).elim hMakes id
        · exact hMakes (hBefore (F := fun r => r = .making np) hqp hq (by simp))
      rcases (hCalm np).parent with hSame | ⟨_, hNot, _⟩
      · exact hSame.trans hOld.1
      · exact absurd hOld.2 hNot
  case zombies =>
      intro p' q hq hZombie
      have hZombie' := ((hCalm q).zombie hZombie).1
      have hOld := h.zombies p' q (hParent hq) hZombie'
      refine hAfter hOld trivial ?_
      rintro rfl
      exact hMine.zombies q (hParent hq) hZombie' hOld
  case told =>
      intro p' w hw hDoze
      have hOld : (s.role p').willWake w := by
        rcases hDozes hDoze with hBefore | ⟨rfl, hLock, hStay, _⟩
        · exact h.told p' w (hParent hw) hBefore
        -- nobody else has the lock
        by_cases hp : p' = w
        · subst hp
          exact Role.willWake_of_stays hStay p'
        refine Role.willWake_of_free ?_ w
        by_contra hHolds
        have hLock' := h.held p' (by simpa using hHolds)
        rw [hLock] at hLock'
        exact hp (Option.some.inj hLock').symm
      refine hAfter hOld trivial ?_
      rintro rfl
      exact hMine.told w (hParent hw) hDoze hOld
  case woken =>
      intro p' q hDoze hq hZombie
      have hZombie' := ((hCalm q).zombie hZombie).1
      rcases hDozes hDoze with hBefore | ⟨rfl, _, _, hNone⟩
      · obtain ⟨hInit, r, hr⟩ := h.woken p' q hBefore (hParent hq) hZombie'
        subst hInit
        refine ⟨rfl, r, ?_⟩
        by_cases hrp : r = p
        · subst hrp
          exact hMine.calls hDoze hr
        rcases hOther r hrp with hSame | ⟨hFree, _⟩
        · rw [hSame]
          exact hr
        cases hRole : s.role r with
        | telling rest ws =>
          rw [hRole] at hFree
          cases hFree
        | _ =>
          rw [hRole] at hr
          exact hr.elim
      · exact absurd hZombie' (hNone q (hParent hq))
  case chan =>
      intro q hq hAsleep
      obtain ⟨hOld, hChan⟩ := (hCalm q).sleeping hAsleep
      rw [hChan]
      by_cases hqp : q = p
      · subst hqp
        rcases hMine.chan hq with hBefore | ⟨_, hNow⟩
        · exact h.chan q hBefore hOld
        · exact hNow
      · exact h.chan q (hBefore (F := fun r => r = .dozing) hqp hq (by simp)) hOld

/- Nobody changes its role. -/
theorem Family.same (p : P) (hSelf : s'.role p = s.role p)
    (hOther : ∀ q, q ≠ p → s'.role q = s.role q ∨ ((s.role q).holds = false ∧ s'.role q = .plain))
    (hCalm : ∀ q, (s.proc q).Calm (s'.proc q))
    (hWait : s'.waitLock = s.waitLock) : Family E s' := by
  refine h.change hForking ?_ hOther hCalm (fun _ _ hq => hWait.trans hq)
  rw [hSelf]
  exact
    { holds := fun hHolds => hWait.trans (h.held p hHolds)
      exits := .inl
      status := fun _ => .inl
      children := fun _ _ hOld => hOld
      made := fun _ => .inl
      zombies := fun _ _ _ hOld => hOld
      told := fun _ _ _ hOld => hOld
      dozes := .inl
      calls := fun _ hOld => hOld
      chan := .inl }

/- The process `p` moves on in its role. -/
theorem Family.moveTo (hPc : s.pc p = x) (hPc' : s'.pc = update s.pc p x')
    (hRole : x'.role = x.role) (hCalm : ∀ q, (s.proc q).Calm (s'.proc q))
    (hWait : s'.waitLock = s.waitLock) : Family E s' := by
  refine h.same hForking p ?_ ?_ hCalm hWait
  · unfold role
    rw [hPc', update_self, hPc]
    exact hRole
  · intro q hq
    unfold role
    rw [hPc', update_of_ne hq]
    exact .inl rfl

/- The process `p` takes another role. -/
theorem Family.turnTo (hPc : s.pc p = x) (hPc' : s'.pc = update s.pc p x')
    (hMine : RoleChange E s s' p x.role x'.role) (hCalm : ∀ q, (s.proc q).Calm (s'.proc q))
    (hWait : ∀ q, q ≠ p → s.waitLock = some q → s'.waitLock = some q) : Family E s' := by
  have hOld : s.role p = x.role := congrArg ProcPc.role hPc
  have hNew : s'.role p = x'.role := by
    unfold role
    rw [hPc', update_self]
  rw [← hOld, ← hNew] at hMine
  refine h.change hForking hMine ?_ hCalm hWait
  intro q hq
  unfold role
  rw [hPc', update_of_ne hq]
  exact .inl rfl

/- Nothing else happens. -/
theorem Family.turn (hPc : s.pc p = x)
    (hMine : RoleChange E s (s.setPc p x') p x.role x'.role) : Family E (s.setPc p x') :=
  h.turnTo hForking hPc rfl hMine (fun _ => .rfl) (fun _ _ hq => hq)

/- Moving on without touching a record. -/
theorem Family.quiet (hQuiet : QuietMove E s p (s.pc p) x') : Family E (s.setPc p x') := by
  generalize hPc : s.pc p = x at hQuiet
  have hLock := h.held_of_pc hPc
  cases hQuiet with
  | exit r out status hInit => exact h.turn hForking hPc { exits := fun _ => .inr hInit }
  | waitNext addr q rest kids kids' hOther =>
    refine h.turn hForking hPc
      { holds := fun _ => hLock rfl, zombies := ?_ }
    intro q' hq' hZombie hIn
    rcases List.mem_cons.mp hIn with rfl | hRest
    · exact absurd hZombie (hOther hq')
    · exact hRest
  | waitFail addr rest kids =>
    exact h.turn hForking hPc
      { holds := fun _ => hLock rfl }
  | waitAgain addr kids =>
    exact h.turn hForking hPc
      { holds := fun _ => hLock rfl
        zombies := fun _ _ _ hIn => absurd hIn List.not_mem_nil }
  | reparentNext status q rest hOther =>
    refine h.turn hForking hPc
      { holds := fun _ => hLock rfl, children := ?_ }
    intro q' hq' hIn
    rcases List.mem_cons.mp hIn with rfl | hRest
    · exact absurd hq' hOther
    · exact hRest
  | reparentEnd status =>
    exact h.turn hForking hPc
      { holds := fun _ => hLock rfl
        children := fun _ _ hIn => absurd hIn List.not_mem_nil
        told := fun w _ _ _ => E.mem_procs w }
  | reparentWoken status rest =>
    exact h.turn hForking hPc
      { holds := fun _ => hLock rfl
        calls := fun _ hr => absurd hr List.not_mem_nil }
  | _ => exact h.moveTo hForking hPc rfl rfl (fun _ => .rfl) rfl

/- A turn of a loop that the process itself is in. -/
theorem Family.wakeTurn {ch : Option (Chan P K)} {q : P}
    (hTurn : WakeTurn E s p ch q (s.pc p) x') (hPc' : s'.pc = update s.pc p x')
    (hCalm : ∀ q, (s.proc q).Calm (s'.proc q)) (hWait : s'.waitLock = s.waitLock)
    (hAwake : ch = some (.proc q) → ¬ s'.Dozes q) : Family E s' := by
  generalize hPc : s.pc p = x at hTurn
  have hLock (hHolds : x.role.holds = true) : s'.waitLock = some p :=
    hWait.trans (h.held_of_pc hPc hHolds)
  have hOther (q' : P) (_ : q' ≠ p) (hq' : s.waitLock = some q') : s'.waitLock = some q' :=
    hWait.trans hq'
  cases hTurn with
  | wake ch q rest ls => exact h.moveTo hForking hPc hPc' rfl hCalm hWait
  | reparentWake status rest q ws =>
    refine h.turnTo hForking hPc hPc'
      { holds := fun _ => hLock rfl, calls := ?_ } hCalm
      hOther
    intro hDoze hIn
    rcases List.mem_cons.mp hIn with rfl | hRest
    · exact absurd hDoze (hAwake rfl)
    · exact hRest
  | wakeParent status q ws =>
    refine h.turnTo hForking hPc hPc'
      { holds := fun _ => hLock rfl, told := ?_ } hCalm
      hOther
    intro w hw hDoze hIn
    rcases List.mem_cons.mp hIn with rfl | hRest
    · refine absurd hDoze (hAwake ?_)
      rw [hw]
      rfl
    · exact hRest

/- `fork` sets the parent of the new process. -/
theorem Family.forkParent (hRunning : (s.proc p).state = .running) {np : P} {pid : Int}
    (hPc : s.pc p = .task (.forkParent np pid)) :
    Family E ((s.setProc np { s.proc np with parent := some p }
        ).setPc p (.task (.forkRun np pid))) := by
  have hMakes : (s.pc p).makes = some np := by
    rw [hPc]
    rfl
  have hUsed := hForking.used p np hMakes
  have hPlain : s.role p = .plain := role_of_pc hPc
  have hRecord : RecordChange E s np
        { s.proc np with parent := some p } := by
    have hAwake : ¬ s.Dozes p := by
      rintro (hFalls | ⟨hDoze, _⟩)
      · exact absurd (hPlain.symm.trans hFalls) (by simp)
      · exact absurd (hPlain.symm.trans hDoze) (by simp)
    refine h.adopt (.inr (.inr hRunning)) ?_ ?_ ?_ (fun hDoze => absurd hDoze hAwake)
      (fun hDoze => absurd hDoze hAwake)
    · rw [hPlain]
      trivial
    · intro p' hp'
      exact hForking.once p' p np (ProcPc.makes_of_role hp') hMakes
    · intro hZombie
      exact absurd (hUsed.symm.trans hZombie) (by simp)
  have hForking₁ : Forking (s.setProc np { s.proc np with parent := some p }) :=
    hForking.setProc (fun hUsed => hUsed)
  refine (h.record hRecord).turn hForking₁ hPc ?_
  refine { made := ?_ }
  intro np' hEq
  cases hEq
  rw [setProc_self]
  exact .inr ⟨rfl, hUsed⟩

/- `fork` makes the new process `RUNNABLE`. -/
theorem Family.forkRun {np : P} {pid : Int}
    (hPc : s.pc p = .task (.forkRun np pid)) :
    Family E ((s.setProc np { s.proc np with state := .runnable }
        ).setPc p (.task (.kernel pid none))) := by
  have hMade : (s.proc np).parent = some p := h.made p np (role_of_pc hPc)
  have hMoved : Family E (s.setPc p (.task (.kernel pid none))) := h.turn hForking hPc (.done id)
  refine hMoved.record ?_
  exact
    { init := fun _ => .inr (.inl rfl)
      alive := fun _ _ => .inr (.inl rfl)
      status := by simp
      parent_alive := fun w hw =>
        ⟨fun _ => .inr (.inl rfl), fun _ => hMoved.alive w np hw⟩
      parent := fun _ _ => ⟨p, hMade⟩
      children := fun w hw => hMoved.children w np hw
      made := fun p' hp' => hMoved.made p' np hp'
      zombies := by simp
      told := fun w hw => hMoved.told np w hw
      dozes := by simp
      woken := by simp }

/- `sleep` makes the process `SLEEPING`. -/
theorem Family.asleep (hRunning : (s.proc p).state = .running) {w : Why K}
    (hPc : s.pc p = .sleepSet w []) :
    Family E ((s.setProc p
        { s.proc p with
          chan := some (w.chan p)
          state := .sleeping }).setPc p (.switching (.sleep w))) := by
  have hRecord : RecordChange E s p
        { s.proc p with
          chan := some (w.chan p)
          state := .sleeping } := by
    refine
      { init := fun _ => .inl rfl
        alive := fun _ _ => .inl rfl
        status := by simp
        parent_alive := fun w hw => ⟨fun _ => .inl rfl, fun _ => h.alive w p hw⟩
        parent := ?_
        children := fun w hw => h.children w p hw
        made := fun p' hp' => h.made p' p hp'
        zombies := by simp
        told := fun w hw => h.told p w hw
        dozes := ?_
        woken := by simp }
    · intro hInit _
      exact h.parent p hInit (not_fresh (.inr (.inr hRunning)))
    intro hDoze
    unfold role at hDoze
    rw [hPc] at hDoze
    cases w with
    | _ => cases hDoze
  have hForking₁ : Forking (s.setProc p
          { s.proc p with
            chan := some (w.chan p)
            state := .sleeping }) :=
    hForking.setProc (fun hUsed => absurd (hRunning.symm.trans hUsed) (by simp))
  have hAsleep := h.record hRecord
  cases w with
  | cond k => exact hAsleep.moveTo hForking₁ hPc rfl rfl (fun _ => .rfl) rfl
  | wait addr =>
    refine hAsleep.turn hForking₁ hPc (.doze ?_)
    rw [setProc_self]
    rfl

/- `reparent` gives a child to init. -/
theorem Family.reparent {q : P} {rest : List P} (hPc : s.pc p = .reparent status (q :: rest))
    (hChild : (s.proc q).parent = some p) :
    Family E ((s.setProc q
        { s.proc q with parent := some E.initproc }).setPc p
          (.reparentWake status rest E.procs)) := by
  have hRole : s.role p = .giving (q :: rest) := role_of_pc hPc
  have hLock : s.waitLock = some p := h.held p (by rw [hRole]; rfl)
  have hInit : p ≠ E.initproc := h.init_stays p (by rw [hRole]; rfl)
  -- as if the wakeups were due before the child is given away
  have hTelling : Family E (s.setPc p (.reparentWake status (q :: rest) E.procs)) :=
    h.turn hForking hPc { holds := fun _ => hLock }
  have hForking₁ : Forking (s.setPc p (.reparentWake status (q :: rest) E.procs)) :=
    hForking.moveTo hPc rfl (.inr rfl) (fun _ hUsed => hUsed)
  have hRole₁ : (s.setPc p (.reparentWake status (q :: rest) E.procs)
        ).role p = .telling (q :: rest) E.procs :=
    role_of_pc (setPc_self ..)
  have hHolds : ((s.setPc p (.reparentWake status (q :: rest) E.procs) ).role p).holds = true := by
    rw [hRole₁]
    rfl
  have hRecord : RecordChange E (s.setPc p (.reparentWake status (q :: rest) E.procs))
        q { s.proc q with parent := some E.initproc } := by
    refine hTelling.adopt h.init_alive ?_ ?_ ?_ ?_ ?_
    · apply Role.mayHave_of_stays
      by_contra hExits
      exact hTelling.init_stays E.initproc (by simpa using hExits) rfl
    · intro p' hp'
      have hParent := hTelling.made p' q hp'
      have hEq : p = p' := Option.some.inj (hChild.symm.trans hParent)
      subst hEq
      exact absurd (hRole₁.symm.trans hp') (by simp)
    · intro _
      exact Role.mayMiss_of_free (hTelling.free_of_holds hHolds (Ne.symm hInit)) q
    · intro _
      by_cases hq : q = p
      · subst hq
        rw [hRole₁]
        trivial
      · exact Role.willWake_of_free (hTelling.free_of_holds hHolds hq) _
    · intro _ _
      refine ⟨rfl, p, ?_⟩
      rw [hRole₁]
      exact E.mem_procs _
  have hGiven := hTelling.record hRecord
  have hForking₂ : Forking ((s.setPc p (.reparentWake status (q :: rest) E.procs)).setProc q
            { s.proc q with parent := some E.initproc }) :=
    hForking₁.setProc (fun hUsed => hUsed)
  have hPc' : update s.pc p (.reparentWake status rest E.procs) =
        update (update s.pc p (.reparentWake status (q :: rest) E.procs)) p
          (.reparentWake status rest E.procs) :=
    (update_idem ..).symm
  refine hGiven.turnTo hForking₂ (setPc_self ..) hPc'
      { holds := fun _ => hLock
        children := ?_
        calls := fun _ hIn => hIn }
    (fun _ => .rfl) (fun _ _ hq => hq)
  intro q' hq' hIn
  rcases List.mem_cons.mp hIn with rfl | hRest
  · rw [setProc_self] at hq'
    exact absurd (Option.some.inj hq').symm hInit
  · exact hRest

/- `exit` turns the process into a zombie. -/
theorem Family.zombie (hRunning : (s.proc p).state = .running)
    (hPc : s.pc p = .exitLocked status) :
    Family E ((s.setProc p
        { s.proc p with xstate := status, state := .zombie } ).setPc p (.exitZombie status)) := by
  have hRole : s.role p = .ending := role_of_pc hPc
  have hHolds : (s.role p).holds = true := by
    rw [hRole]
    rfl
  have hInit : p ≠ E.initproc := h.init_stays p (by rw [hRole]; rfl)
  have hNoChild (q : P) : (s.proc q).parent ≠ some p := by
    intro hq
    have hMay := h.children p q hq
    rw [hRole] at hMay
    exact hMay
  have hNotSelf {w : P} (hw : (s.proc p).parent = some w) : w ≠ p := by
    rintro rfl
    exact hNoChild w hw
  have hAwake {w : P} (hw : (s.proc p).parent = some w) : ¬ s.Dozes w := by
    intro hDoze
    have hTold := h.told p w hw hDoze
    rw [hRole] at hTold
    exact hTold
  have hRecord : RecordChange E s p
        { s.proc p with xstate := status, state := .zombie } := by
    refine
      { init := fun hEq => absurd hEq hInit
        alive := fun q hq => absurd hq (hNoChild q)
        status := ?_
        parent_alive := fun w hw =>
          ⟨fun hEq => absurd hEq (hNotSelf hw), fun _ => h.alive w p hw⟩
        parent := ?_
        children := fun w hw => h.children w p hw
        made := fun p' hp' => h.made p' p hp'
        zombies := fun w hw _ =>
          Role.mayMiss_of_free (h.free_of_holds hHolds (hNotSelf hw)) p
        told := fun w hw hDoze => absurd hDoze (hAwake hw)
        dozes := by simp
        woken := fun w hDoze hw => absurd hDoze (hAwake hw) }
    · intro st hSt
      rw [hRole] at hSt
      cases hSt
    · intro _ _
      exact h.parent p hInit (not_fresh (.inr (.inr hRunning)))
  have hForking₁ : Forking (s.setProc p
          { s.proc p with
            xstate := status
            state := .zombie }) :=
    hForking.setProc (fun hUsed => absurd (hRunning.symm.trans hUsed) (by simp))
  refine (h.record hRecord).turn hForking₁ hPc ?_
  refine { holds := fun _ => h.held p hHolds, status := ?_ }
  intro st hSt
  cases hSt
  rw [setProc_self]
  exact .inr rfl

end

-------
-- Steps of the Machine
-------

variable [DecidableEq K]

theorem Proc.calm_wakeup (v : Proc P K) (ch : Option (Chan P K)) : v.Calm (v.wakeup ch) := by
  unfold wakeup
  split
  · next hAsleep => exact .of_awake (.inl hAsleep.1) (Eq.refl _) (.inl (Eq.refl _))
  · exact .rfl

theorem Proc.parent_wakeup (v : Proc P K) (ch : Option (Chan P K)) :
    (v.wakeup ch).parent = v.parent := by
  unfold wakeup
  split
  · rfl
  · rfl

/- A `wakeup` of a parent leaves it awake. -/
theorem Family.awake_of_turn (h : Family E s) (hPlaced : Placed s) {q : P}
    (hFree : s.plock q = none) (hRole : s'.role q = s.role q)
    (hProc : s'.proc q = (s.proc q).wakeup (some (.proc q))) : ¬ s'.Dozes q := by
  rintro (hFalls | ⟨hDoze, hAsleep⟩)
  · rw [hRole] at hFalls
    exact absurd (hPlaced.own_of_free hFree) (by rw [ProcPc.own_of_falling hFalls]; simp)
  rw [hRole] at hDoze
  rw [hProc] at hAsleep
  unfold wakeup at hAsleep
  split at hAsleep
  · cases hAsleep
  · next hNot => exact hNot ⟨hAsleep, h.chan q hDoze hAsleep⟩

variable [DecidableEq C] [DecidableEq L]

theorem Family.procStep (h : Family E s) (hPlaced : Placed s) (hForking : Forking s)
    {c : C} (hMode : (s.cpu c).mode = .on p)
    (hStep : ProcStep E s p c (s.pc p) s') : Family E s' := by
  have hFits := (hPlaced.on hMode).2.2
  change (s.pc p).fits (s.proc p).state at hFits
  generalize hPc : s.pc p = x at hStep hFits
  have hLock := h.held_of_pc hPc
  -- the lock is released, or was free
  have hRelease (hHolds : x.role.holds = true) (q : P) (hq : q ≠ p) (w : Option P)
      (hOther : s.waitLock = some q) : w = some q := by
    rw [hLock hHolds] at hOther
    exact absurd (Option.some.inj hOther).symm hq
  have hAcquire (hFree : s.waitLock = none) (q : P) (w : Option P)
      (hOther : s.waitLock = some q) : w = some q := by
    rw [hFree] at hOther
    cases hOther
  cases hStep with
  | quiet x' hQuiet =>
    rw [← hPc] at hQuiet
    exact h.quiet hForking hQuiet
  | client o ls ls' s₁ hClient =>
    obtain ⟨hAlike, hWait⟩ := client_alike hClient
    have hPc' : (s₁.setPc p (.crit ls')).pc = update s.pc p (.crit ls') := by
      rw [← hAlike.pc]
      rfl
    refine h.moveTo hForking hPc hPc' rfl ?_ hWait
    intro q
    change (s.proc q).Calm (s₁.proc q)
    rw [hAlike.proc]
    exact .rfl
  | skip ch x' hTurn =>
    have hNot : ¬ (s.setPc p x').Dozes p := by
      unfold Kern.Dozes role
      rw [setPc_self]
      cases hTurn with
      | _ =>
        rintro (hBad | ⟨hBad, _⟩)
        · cases hBad
        · cases hBad
    rw [← hPc] at hTurn
    exact h.wakeTurn hForking hTurn rfl (fun _ => .rfl) rfl (fun _ => hNot)
  | turn ch q x' hTurn hq hFree =>
    rw [← hPc] at hTurn
    refine h.wakeTurn hForking hTurn rfl (calm_setProc (calm_wakeup _ ch)) rfl ?_
    rintro rfl
    refine h.awake_of_turn hPlaced hFree ?_ (setProc_self ..)
    exact congrArg ProcPc.role (setPc_other _ _ hq)
  | kill pid q rest hFree =>
    exact h.moveTo hForking hPc rfl rfl (calm_setProc (calm_kill _)) rfl
  | alloc q rest hFree hUnused =>
    have hNot : (s.proc q).state ≠ .running := by
      rw [hUnused]
      simp
    obtain ⟨_, r, hAway, _⟩ := hPlaced.rests hFree hNot
    refine h.same hForking p ?_ ?_ ?_ rfl
    · unfold role
      rw [setPc_self, hPc]
      rfl
    · intro q' hq'
      unfold role
      rw [setPc_other _ _ hq']
      by_cases hEq : q' = q
      · subst hEq
        rw [setPc_self]
        refine .inr ⟨?_, rfl⟩
        rw [show s.pc q' = .away r from hAway]
        cases r with
        | yield t =>
          cases t with
          | _ => rfl
        | sleep w =>
          cases w with
          | _ => rfl
        | _ => rfl
      · rw [setPc_other _ _ hEq]
        exact .inl rfl
    · refine calm_setProc ?_
      refine ⟨.inl rfl, by simp, ?_, fun _ => .inr rfl, by simp⟩
      intro hAlive
      simp [Proc.Alive, hUnused] at hAlive
  | allocFail q rest hFree hUnused =>
    refine h.moveTo hForking hPc rfl rfl
      (calm_setProc (.free ?_ ?_)) rfl
    · simp [Proc.Alive, hUnused]
    · simp [hUnused]
  | forkParent np pid hWait => exact h.forkParent hForking hFits hPc
  | forkRun np pid hFree => exact h.forkRun hForking hPc
  | yielded t =>
    exact h.moveTo hForking hPc rfl rfl (calm_setProc
        (.of_awake (.inr (.inr hFits)) rfl (.inl rfl))) rfl
  | waitRelease addr ls =>
    have hResting : s.role p = .resting := role_of_pc hPc
    refine h.turnTo hForking hPc rfl ?_ (fun _ => .rfl) ?_
    · refine { dozes := fun _ => .inr ⟨hLock rfl, rfl, ?_⟩ }
      intro q hq hZombie
      have hMiss := h.zombies p q hq hZombie
      rw [hResting] at hMiss
      exact hMiss
    · exact fun q hq => hRelease rfl q hq _
  | asleep w => exact h.asleep hForking hFits hPc
  | sched r hHeld =>
    refine h.moveTo hForking hPc rfl ?_ (fun _ => .rfl) rfl
    cases r with
    | sleep w =>
      cases w with
      | _ => rfl
    | _ => rfl
  | backSleep w =>
    refine h.moveTo hForking hPc rfl rfl (calm_setProc ?_) rfl
    exact ⟨.inl rfl, fun hBad => ⟨hBad, rfl⟩, fun hv => hv, fun hv => hv,
      fun hBad => absurd (hFits.symm.trans hBad) (by simp)⟩
  | waitLock t addr hTask hWait =>
    refine h.turnTo hForking hPc rfl
      { holds := fun _ => rfl
        zombies := fun q _ _ _ => E.mem_procs q
        calls := ?_ } (fun _ => .rfl)
      (fun q _ => hAcquire hWait q _)
    rcases hTask with rfl | rfl
    · exact fun _ hr => hr.elim
    · exact fun _ hr => hr.elim
  | reap addr q rest kids hChild hFree hZombie =>
    refine h.turnTo hForking hPc rfl { holds := fun _ => hLock rfl }
      (calm_setProc (.free ?_ ?_)) (fun _ _ hq => hq)
    · simp [Proc.Alive, hZombie]
    · simp [hZombie]
  | waitDone r out =>
    exact h.turnTo hForking hPc rfl (.done id)
      (fun _ => .rfl) (fun q hq => hRelease rfl q hq _)
  | exitLock status hWait =>
    exact h.turnTo hForking hPc rfl
      { holds := fun _ => rfl
        children := fun q _ _ => E.mem_procs q }
      (fun _ => .rfl) (fun q _ => hAcquire hWait q _)
  | reparent status q rest hChild => exact h.reparent hForking hPc hChild
  | exitOwn status hFree =>
    exact h.turnTo hForking hPc rfl
      { holds := fun _ => hLock rfl
        told := fun _ _ _ hIn => absurd hIn List.not_mem_nil }
      (fun _ => .rfl) (fun _ _ hq => hq)
  | zombie status => exact h.zombie hForking hFits hPc
  | exitUnlock status =>
    exact h.turnTo hForking hPc rfl { status := fun _ => .inl } (fun _ => .rfl)
      (fun q hq => hRelease rfl q hq _)
  | _ => exact h.moveTo hForking hPc rfl rfl (fun _ => .rfl) rfl

/- Every step keeps the family in order. -/
theorem Family.step (h : Family E s) (hPlaced : Placed s) (hForking : Forking s)
    (hStep : KernStep E s s') : Family E s' := by
  cases hStep with
  | pick c p hMode hIntr hFree hRunnable =>
    refine h.same hForking p rfl (fun _ _ => .inl rfl) (calm_setProc
        (.of_awake (.inr (.inl hRunnable)) rfl (.inr rfl)))
      rfl
  | swtch c p hMode =>
    obtain ⟨_, _, _, r, hAway, hAlive⟩ := hPlaced.at hMode
    change s.pc p = .away r at hAway
    rw [hAway]
    cases r with
    | sleep w =>
      cases w with
      | cond k => exact h.moveTo hForking hAway rfl rfl (fun _ => .rfl) rfl
      | wait addr =>
        exact h.turnTo hForking hAway rfl (.done id) (fun _ => .rfl)
          (fun _ _ hq => hq)
    | dead status => exact absurd rfl (hAlive status)
    | _ => exact h.moveTo hForking hAway rfl rfl (fun _ => .rfl) rfl
  | drop c p hMode => exact h.same hForking p rfl (fun _ _ => .inl rfl) (fun _ => .rfl) rfl
  | handle c x s' hIntr hStep =>
    cases hStep with
    | client o ls ls' s₁ hClient =>
      obtain ⟨hAlike, hWait⟩ := client_alike hClient
      have hRole (q : P) : s₁.role q = s.role q := by
        unfold role
        rw [hAlike.pc]
      refine h.same hForking E.initproc (hRole _) (fun q _ => .inl (hRole q)) ?_ hWait
      intro q
      change (s.proc q).Calm (s₁.proc q)
      rw [hAlike.proc]
      exact .rfl
    | turn ch q rest ls hFree =>
      exact h.same hForking q rfl (fun _ _ => .inl rfl)
        (calm_setProc (calm_wakeup _ ch)) rfl
    | skip ch q rest ls hSelf =>
      exact h.same hForking q rfl (fun _ _ => .inl rfl) (fun _ => .rfl) rfl
    | _ => exact h.same hForking E.initproc rfl (fun _ _ => .inl rfl) (fun _ => .rfl) rfl
  | run c p s' hMode hIntr hStep => exact h.procStep hPlaced hForking hMode hStep
  | _ => exact h.same hForking E.initproc rfl (fun _ _ => .inl rfl) (fun _ => .rfl) rfl

theorem family_of_reach (hReach : E.system.Reach System.Anything s) :
    Family E s ∧ Placed s ∧ Forking s := by
  refine hReach.invariant (I := fun s => Family E s ∧ Placed s ∧ Forking s) (fun _ hStart =>
      ⟨.start hStart, .start hStart, .start hStart⟩) ?_
  intro s a s' hOld _ hNext
  obtain ⟨hFamily, hPlaced, hForking⟩ := hOld
  have hStep := kernStep_of_next hNext
  exact ⟨hFamily.step hPlaced hForking hStep,
    hPlaced.step hForking hStep, hForking.step hPlaced hStep⟩

-------
-- Parents and Statuses
-------

/- Parents change only in these three ways. -/
theorem KernStep.parent_moves (hStep : KernStep E s s') {q : P}
    (hMoved : (s'.proc q).parent ≠ (s.proc q).parent) : s.ParentMoves E s' q := by
  cases hStep with
  | pick c p hMode hIntr hFree hRunnable =>
    exact (hMoved (parent_setProc (fun _ => rfl))).elim
  | handle c x s' hIntr hStep =>
    cases hStep with
    | client o ls ls' s₁ hClient =>
      refine absurd ?_ hMoved
      change (s₁.proc q).parent = (s.proc q).parent
      rw [(client_alike hClient).1.proc]
    | turn ch q' rest ls hFree =>
      exact absurd (parent_setProc (fun _ => parent_wakeup _ ch)) hMoved
    | _ => exact absurd rfl hMoved
  | run c p s' hMode hIntr hStep =>
    generalize hPc : s.pc p = x at hStep
    cases hStep with
    | client o ls ls' s₁ hClient =>
      refine absurd ?_ hMoved
      change (s₁.proc q).parent = (s.proc q).parent
      rw [(client_alike hClient).1.proc]
    | turn ch q' x' hTurn hq hFree =>
      exact absurd (parent_setProc (fun _ => parent_wakeup _ ch)) hMoved
    | kill | forkRun | yielded | asleep | backSleep | zombie =>
      exact (hMoved (parent_setProc (fun _ => rfl))).elim
    | alloc q' rest hFree hUnused =>
      exact (hMoved (parent_setProc
        (fun _ => rfl))).elim
    | allocFail q' rest hFree hUnused =>
      by_cases hq : q = q'
      · subst hq
        refine .inr (.inr ?_)
        change (({ s with nextpid := s.nextpid + 1 }.setProc q freeproc).proc q).parent = none ∧
          (({ s with nextpid := s.nextpid + 1 }.setProc q freeproc).proc q).state = .unused
        rw [setProc_self]
        exact ⟨rfl, rfl⟩
      · exact absurd (parent_setProc
          (fun hEq => absurd hEq hq)) hMoved
    | forkParent np pid hWait =>
      by_cases hq : q = np
      · subst hq
        refine .inl ⟨p, pid, hPc, ?_⟩
        change ((s.setProc q _).proc q).parent = some p
        rw [setProc_self]
      · exact absurd (parent_setProc (fun hEq => absurd hEq hq)) hMoved
    | reap addr q' rest kids hChild hFree hZombie =>
      by_cases hq : q = q'
      · subst hq
        refine .inr (.inr ?_)
        change ((s.setProc q freeproc).proc q).parent = none ∧
            ((s.setProc q freeproc).proc q).state = .unused
        rw [setProc_self]
        exact ⟨rfl, rfl⟩
      · exact absurd (parent_setProc (fun hEq => absurd hEq hq)) hMoved
    | reparent status q' rest hChild =>
      by_cases hq : q = q'
      · subst hq
        refine .inr (.inl ⟨p, status, rest, hPc, hChild, ?_⟩)
        change ((s.setProc q _).proc q).parent = _
        rw [setProc_self]
      · exact absurd (parent_setProc (fun hEq => absurd hEq hq)) hMoved
    | _ => exact absurd rfl hMoved
  | _ => exact absurd rfl hMoved

/- Only a new call of `exit` brings its argument in. -/
theorem QuietMove.exitArg {c : C} (h : QuietMove E s p x x')
    (hArg : x'.exitArg = some status) :
    x.exitArg = some status ∨ E.run s c p (.exit status) x = .next (s.setPc p x') := by
  cases h with
  | exit r out status' hInit =>
    cases hArg
    exact .inr (if_neg hInit)
  | _ => exact .inl hArg

theorem ProcStep.exitArg {c : C} (h : ProcStep E s p c (s.pc p) s') {q : P}
    (hArg : (s'.pc q).exitArg = some status) :
    (s.pc q).exitArg = some status ∨ (q = p ∧ E.run s c p (.exit status) (s.pc p) = .next s') := by
  generalize hPc : s.pc p = x at h ⊢
  cases h with
  | quiet x' hQuiet =>
    by_cases hq : q = p
    · subst hq
      rw [setPc_self] at hArg
      rw [hPc]
      exact (hQuiet.exitArg hArg).imp_right (⟨rfl, ·⟩)
    · rw [setPc_other _ _ hq] at hArg
      exact .inl hArg
  | client o ls ls' s₁ hClient =>
    exact .inl (exitArg_setPc hArg hPc (client_alike hClient).1.pc id)
  | skip ch x' hTurn | turn ch q' x' hTurn hq hFree =>
    exact .inl (exitArg_setPc hArg hPc rfl (fun h => hTurn.exitArg.symm.trans h))
  | alloc q' rest hFree hUnused =>
    left
    by_cases hq : q = p
    · subst hq
      rw [setPc_self] at hArg
      exact absurd hArg (by rintro ⟨⟩)
    rw [setPc_other _ _ hq] at hArg
    by_cases hq' : q = q'
    · subst hq'
      rw [setPc_self] at hArg
      exact absurd hArg (by rintro ⟨⟩)
    · rw [setPc_other _ _ hq'] at hArg
      exact hArg
  | waitLock t addr hTask hWait => exact .inl (exitArg_setPc hArg hPc rfl (by rintro ⟨⟩))
  | sched r hLock =>
    refine .inl (exitArg_setPc hArg hPc rfl ?_)
    intro hx
    cases r with
    | _ => exact hx
  | _ => exact .inl (exitArg_setPc hArg hPc rfl id)

theorem ProcTable.step_run {c : C} (hMode : (s.cpu c).mode = .on p)
    (hIntr : (s.cpu c).intr = none) (o : ProcOp P K L) :
    E.step s (.run c o) = E.run s c p o (s.pc p) := by
  unfold step
  dsimp only
  rw [hMode, hIntr]

/- It is the argument of the system call. -/
theorem KernStep.exitArg (hStep : KernStep E s s') {q : P}
    (hArg : (s'.pc q).exitArg = some status) :
    (s.pc q).exitArg = some status ∨ ∃ c, (s.cpu c).mode = .on q ∧
        E.step s (.run c (.exit status)) = .next s' := by
  cases hStep with
  | swtch c p hMode =>
    refine .inl (exitArg_setPc hArg rfl rfl ?_)
    intro hx
    cases hPc : s.pc p with
    | away r =>
      rw [hPc] at hx
      cases r with
      | _ => exact hx
    | _ =>
      rw [hPc] at hx
      exact hx
  | handle c x s' hIntr hStep =>
    cases hStep with
    | client o ls ls' s₁ hClient =>
      change (s₁.pc q).exitArg = some status at hArg
      rw [(client_alike hClient).1.pc] at hArg
      exact .inl hArg
    | _ => exact .inl hArg
  | run c p s' hMode hIntr hStep =>
    rcases hStep.exitArg hArg with hOld | ⟨rfl, hRun⟩
    · exact .inl hOld
    · exact .inr ⟨c, hMode, (step_run hMode hIntr _).trans hRun⟩
  | _ => exact .inl hArg

-------
-- Every Exit is Reaped by the Parent
-------

/-
  The step in which `wait` of `p` takes the zombie `q` away
  and returns its pid and what it gave to `exit`.
-/
def Kern.Collects (s : Kern C P K L) (p q : P) (s' : Kern C P K L) : Prop :=
  ∃ addr rest kids status,
    s.pc p = .waitScan addr (q :: rest) kids ∧
      (s.proc q).parent = some p ∧
      s.pc q = .away (.dead status) ∧
      (s'.proc q).state = .unused ∧
      s'.pc p = .waitDone (s.proc q).pid (if addr then some status else none)

/- A zombie stays what it is until its parent collects it. -/
theorem Family.keeps_or_collects (h : Family E s) (hPlaced : Placed s) (hForking : Forking s)
    (hStep : KernStep E s s') {q : P} (hZombie : (s.proc q).state = .zombie) :
    ((s'.proc q).state = .zombie ∧ (s'.proc q).xstate = (s.proc q).xstate ∧
        (s'.proc q).pid = (s.proc q).pid) ∨
      ∃ c p, (s.cpu c).mode = .on p ∧ s.Collects p q s' := by
  rcases hPlaced.keeps_or_reaps hForking hStep with
    hKeeps | ⟨c, p, q', hMode, addr, rest, kids, hPc, hChild, hZombie', hFree, rfl⟩
  · exact .inl (hKeeps q hZombie)
  by_cases hq : q = q'
  · subst hq
    obtain ⟨status, hAway⟩ := hPlaced.away_of_zombie hZombie hFree
    refine .inr ⟨c, p, hMode, addr, rest, kids, status, hPc, hChild, hAway, ?_, ?_⟩
    · change ((s.setProc q freeproc).proc q).state = .unused
      rw [setProc_self]
      rfl
    · rw [setPc_self, h.xstate_of_zombie hZombie hAway]
  · left
    change ((s.setProc q' freeproc).proc q).state = .zombie ∧
      ((s.setProc q' freeproc).proc q).xstate = _ ∧
      ((s.setProc q' freeproc).proc q).pid = _
    rw [setProc_other _ _ hq]
    exact ⟨hZombie, rfl, rfl⟩

/- A `wait` whose `copyout` fails changes no record. -/
theorem ProcTable.wait_copyout_fails {c : C} {q : P} {rest : List P} {kids : Bool}
    (hMode : (s.cpu c).mode = .on p) (hIntr : (s.cpu c).intr = none)
    (hPc : s.pc p = .waitScan true (q :: rest) kids)
    (hChild : (s.proc q).parent = some p) (hZombie : (s.proc q).state = .zombie)
    (hFree : s.plock q = none) :
    E.step s (.run c (.go false)) = .next (s.setPc p (.waitDone (-1) none)) := by
  rw [step_run hMode hIntr, hPc]
  change E.go s c p false (.waitScan true (q :: rest) kids) = _
  unfold go
  dsimp only
  rw [if_pos hChild, if_pos hFree, if_pos hZombie, if_pos ⟨rfl, rfl⟩]

/-
  In every state the machine can get to: a process that is
  not `init` has a living parent, and while `wait_lock` is
  free, no parent of a zombie sleeps in `wait`. Zombies go
  away only in `wait` of their parent. The parent is the
  process that forked them, or `init` after its `exit`.
-/
theorem every_exit_is_reaped_by_parent
    {E : ProcTable P K L}
    {s : Kern C P K L}
    (hReach : E.system.Reach System.Anything s) :
    (∀ q, q ≠ E.initproc → (s.proc q).state ≠ .unused →
      (s.proc q).state ≠ .used → ∃ p,
        (s.proc q).parent = some p ∧ (s.proc p).state ≠ .unused ∧
          (s.proc p).state ≠ .zombie) ∧
    (s.waitLock = none → ∀ p q addr,
        s.pc p = .away (.sleep (.wait addr)) →
        (s.proc p).state = .sleeping →
        (s.proc q).parent = some p → (s.proc q).state ≠ .zombie) ∧
    (∀ a s' q, E.step s a = .next s' → (s.proc q).state = .zombie →
        ((s'.proc q).state = .zombie ∧
            (s'.proc q).xstate = (s.proc q).xstate ∧
            (s'.proc q).pid = (s.proc q).pid) ∨
          ∃ c p, (s.cpu c).mode = .on p ∧ s.Collects p q s') ∧
    (∀ a s' q status, E.step s a = .next s' →
        (s'.pc q).exitArg = some status →
        (s.pc q).exitArg = some status ∨ ∃ c, (s.cpu c).mode = .on q ∧
            E.step s (.run c (.exit status)) = .next s') ∧
    (∀ a s' q, E.step s a = .next s' →
        (s'.proc q).parent ≠ (s.proc q).parent →
        s.ParentMoves E s' q) ∧
    (∀ c p q rest kids, (s.cpu c).mode = .on p → (s.cpu c).intr = none →
      s.pc p = .waitScan true (q :: rest) kids →
      (s.proc q).parent = some p →
      (s.proc q).state = .zombie →
      s.plock q = none → E.step s (.run c (.go false)) =
          .next (s.setPc p (.waitDone (-1) none))) := by
  obtain ⟨h, hPlaced, hForking⟩ := family_of_reach hReach
  refine ⟨?_, ?_, ?_, ?_, ?_, ?_⟩
  · intro q hq hUnused hUsed
    obtain ⟨p, hp⟩ := h.parent q hq (fun hFresh => hFresh.elim hUnused hUsed)
    have hAlive := h.alive p q hp
    refine ⟨p, hp, ?_, ?_⟩
    · intro hBad
      simp [Proc.Alive, hBad] at hAlive
    · intro hBad
      simp [Proc.Alive, hBad] at hAlive
  · intro hWait p q addr hPc hSleeping hChild
    exact h.not_zombie_of_asleep hWait hPc hSleeping hChild
  · intro a s' q hNext hZombie
    exact h.keeps_or_collects hPlaced hForking (kernStep_of_next hNext) hZombie
  · intro a s' q status hNext hArg
    exact (kernStep_of_next hNext).exitArg hArg
  · intro a s' q hNext hMoved
    exact (kernStep_of_next hNext).parent_moves hMoved
  · intro c p q rest kids hMode hIntr hPc hChild hZombie hFree
    exact wait_copyout_fails hMode hIntr hPc hChild hZombie hFree

/- `init` forks, the child calls `exit(5)`, `init` waits. -/
def forkExitWait : List (KernAction (Fin 2) (Fin 2) Unit Unit) :=
  [.pick 0 0, .swtch 0, .run 0 (.go true), .run 0 .fork] ++ List.replicate 4 (.run 0 (.go true)) ++
    [.pick 1 1, .swtch 1, .run 1 (.go true), .run 1 (.exit 5)] ++
    List.replicate 10 (.run 1 (.go true)) ++
    [.drop 1, .run 0 (.wait true), .run 0 (.go true), .run 0 (.go true)]

/- The child is then collected, with the status 5. -/
theorem exit_reaped_by_first_process :
    ∃ s s' : Kern (Fin 2) (Fin 2) Unit Unit, twoProcs.system.Reach System.Anything s ∧
      (s.proc 1).state = .zombie ∧
      twoProcs.step s (.run 0 (.go true)) = .next s' ∧
      (∃ c p, (s.cpu c).mode = .on p ∧ s.Collects p 1 s') ∧
      s'.pc 0 = .waitDone 2 (some 5) := by
  have hRun : ∃ s s' : Kern (Fin 2) (Fin 2) Unit Unit,
        twoProcs.system.run System.Anything twoProcs.start forkExitWait = some s ∧
          (s.proc 1).state = .zombie ∧
          twoProcs.step s (.run 0 (.go true)) = .next s' ∧
          (s'.proc 1).state = .unused ∧
          s'.pc 0 = .waitDone 2 (some 5) :=
    ⟨_, _, rfl, rfl, rfl, rfl, rfl⟩
  obtain ⟨s, s', hRun, hZombie, hNext, hFreed, hPc⟩ := hRun
  have hReach : twoProcs.system.Reach System.Anything s :=
    System.reach_of_run (.init twoProcs.start_start) hRun
  have hCollect := (every_exit_is_reaped_by_parent hReach).2.2.1 _ s' 1 hNext hZombie
  refine ⟨s, s', hReach, hZombie, hNext, ?_, hPc⟩
  rcases hCollect with ⟨hKept, _⟩ | hCollect
  · rw [hFreed] at hKept
    cases hKept
  · exact hCollect

end Xv6
