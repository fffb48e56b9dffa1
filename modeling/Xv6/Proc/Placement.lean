import Xv6.Proc.Steps

/-
  Every process is on at most one CPU.

  The lock of a process goes from the thread that leaves to
  the scheduler and back. Whoever finds it free finds a
  process that runs and holds no lock of its own, or one
  whose context is saved and that no CPU works on.

  Key definitions include:
    * `Spot`
    * `Placed`

  The main results are:
    * `Placed.step`
    * `one_cpu_per_process`
-/

open Xv6.Kern Xv6.Proc

open Function (update update_self update_of_ne)

-------
-- Places and States
-------

namespace Xv6

variable {C P K L : Type} {r : Resume P K} {st : ProcState} {v : Proc P K}

/- Does a process at this place hold its own `p->lock`? -/
def ProcPc.own : ProcPc P K L → Bool
| .yieldLocked _ => true
| .sleepLocked _ _ => true
| .sleepSet _ _ => true
| .switching _ => true
| .back _ => true
| .exitLocked _ => true
| .exitZombie _ => true
| _ => false

/- The state of a process that has just left its CPU. -/
def Resume.parked : Resume P K → ProcState → Prop
| .yield _, st => st = .runnable
| .sleep _, st => st = .sleeping
| .dead _, st => st = .zombie
| .forkret, _ => False

/- The state of a process that no CPU works on. -/
def Resume.rested : Resume P K → ProcState → Prop
| .yield _, st => st = .runnable
| .sleep _, st => st = .sleeping ∨ st = .runnable
| .dead _, st => st = .zombie ∨ st = .unused
| .forkret, st => st = .unused ∨ st = .used ∨ st = .runnable

/- The state of a process on a CPU. -/
def ProcPc.fits : ProcPc P K L → ProcState → Prop
| .switching r, st => r.parked st
| .exitZombie _, st => st = .zombie
| .away _, _ => False
| .back (.dead _), _ => False
| _, st => st = .running

theorem Resume.rested_of_parked (h : r.parked st) : r.rested st := by
  cases r with
  | yield t => exact h
  | sleep | dead => exact .inl h
  | forkret => exact h.elim

/- Without its lock, a process on a CPU is `RUNNING`. -/
theorem ProcPc.running_of_fits {x : ProcPc P K L} (hOwn : x.own = false) (h : x.fits st) :
    st = .running := by
  cases x with
  | away r => exact h.elim
  | switching | exitZombie | back => cases hOwn
  | _ => exact h

/- A woken process still rests. -/
theorem Resume.rested_wakeup [DecidableEq P] [DecidableEq K] (h : r.rested v.state)
    (ch : Option (Chan P K)) : r.rested (v.wakeup ch).state := by
  unfold wakeup
  split
  · next hAsleep =>
      rw [hAsleep.1] at h
      cases r with
      | yield t => cases h
      | sleep w => exact .inr rfl
      | _ => simp [Resume.rested] at h
  · exact h

/- A killed process still rests. -/
theorem Resume.rested_kill (h : r.rested v.state) : r.rested v.kill.state := by
  unfold kill
  split
  · next hAsleep =>
      rw [hAsleep] at h
      cases r with
      | yield t => cases h
      | sleep w => exact .inr rfl
      | _ => simp [Resume.rested] at h
  · exact h

-------
-- Placement
-------

/- What decides where a process is. -/
structure Spot (C P K L : Type) where
  lock : Option C
  pc : ProcPc P K L
  state : ProcState

namespace Spot

/- On the CPU `c`. -/
def On (v : Spot C P K L) (c : C) : Prop :=
  v.lock = (if v.pc.own then some c else none) ∧ v.pc.fits v.state

/- The scheduler of `c` is about to switch to it. -/
def Picked (v : Spot C P K L) (c : C) : Prop :=
  v.lock = some c ∧ v.state = .running ∧ ∃ r, v.pc = .away r ∧
    ∀ status, r ≠ .dead status

/- It has just left `c`, whose scheduler goes on. -/
def Left (v : Spot C P K L) (c : C) : Prop :=
  v.lock = some c ∧ ∃ r, v.pc = .away r ∧ r.parked v.state

/- No CPU works on it. -/
def Rests (v : Spot C P K L) : Prop := v.lock = none ∧ ∃ r, v.pc = .away r ∧ r.rested v.state

end Spot

namespace Kern

def spot (s : Kern C P K L) (p : P) : Spot C P K L := ⟨s.plock p, s.pc p, (s.proc p).state⟩

/- `c->proc` is `p`. -/
def Has (s : Kern C P K L) (c : C) (p : P) : Prop := (s.cpu c).proc = some p

def CpuOk (s : Kern C P K L) (c : C) : Mode P → Prop
| .scheduler => (s.cpu c).proc = none
| .picked p => s.Has c p ∧ (s.spot p).Picked c
| .on p => s.Has c p ∧ (s.spot p).On c
| .left p => s.Has c p ∧ (s.spot p).Left c

/- The CPU may take an interrupt: it holds no spinlock. -/
def Open (s : Kern C P K L) (c : C) : Prop :=
  (s.cpu c).mode = .scheduler ∨ ∃ p t, (s.cpu c).mode = .on p ∧ s.pc p = .task t

end Kern

/-
  Every CPU agrees with the process it works on, the others
  rest, and no process is worked on twice.
-/
structure Placed (s : Kern C P K L) : Prop where
  cpu : ∀ c, s.CpuOk c (s.cpu c).mode
  intr : ∀ c, (s.cpu c).intr ≠ none → s.Open c
  rest : ∀ p, (∀ c, ¬ s.Has c p) → (s.spot p).Rests
  once : ∀ c c' p, s.Has c p → s.Has c' p → c = c'

theorem Placed.start {E : ProcTable P K L} {s : Kern C P K L} (h : E.Start s) : Placed s := by
  obtain ⟨hCpu, hPc, hPlock, _, hUnused, hInit, _, _, _⟩ := h
  have hNone (c : C) (p : P) : ¬ s.Has c p := by
    unfold Kern.Has
    rw [hCpu c]
    simp
  constructor
  · intro c
    rw [hCpu c]
    change (s.cpu c).proc = none
    rw [hCpu c]
  · intro c hIntr
    rw [hCpu c] at hIntr
    exact absurd rfl hIntr
  · intro p _
    refine ⟨hPlock p, .forkret, hPc p, ?_⟩
    by_cases hp : p = E.initproc
    · subst hp
      exact .inr (.inr hInit)
    · exact .inl (hUnused p hp)
  · intro c c' p hc _
    exact absurd hc (hNone c p)

section Facts

variable {s : Kern C P K L}

section

variable (h : Placed s)
include h

variable {p : P}

theorem Placed.at {c : C} {m : Mode P} (hMode : (s.cpu c).mode = m) : s.CpuOk c m :=
  hMode ▸ h.cpu c

/- A CPU with a process is in one of three modes. -/
theorem Placed.mode_of_has {c : C} (hHas : s.Has c p) :
    ((s.cpu c).mode = .picked p ∧ (s.spot p).Picked c) ∨
      ((s.cpu c).mode = .on p ∧ (s.spot p).On c) ∨
      ((s.cpu c).mode = .left p ∧ (s.spot p).Left c) := by
  have hCpu := h.cpu c
  generalize (s.cpu c).mode = m at hCpu ⊢
  cases m with
  | scheduler => exact absurd (hHas.symm.trans hCpu) (by simp)
  | picked q =>
    cases hHas.symm.trans hCpu.1
    exact .inl ⟨rfl, hCpu.2⟩
  | on q =>
    cases hHas.symm.trans hCpu.1
    exact .inr (.inl ⟨rfl, hCpu.2⟩)
  | left q =>
    cases hHas.symm.trans hCpu.1
    exact .inr (.inr ⟨rfl, hCpu.2⟩)

/- The process that a CPU executes. -/
theorem Placed.on {c : C} (hMode : (s.cpu c).mode = .on p) :
    s.Has c p ∧ (s.spot p).On c :=
  h.at hMode

/-
  A process with a free lock that is not `RUNNING` is left
  alone by all CPUs.
-/
theorem Placed.unowned {q : P} (hFree : s.plock q = none)
    (hState : (s.proc q).state ≠ .running) (c : C) : ¬ s.Has c q := by
  intro hHas
  rcases h.mode_of_has hHas with
    ⟨_, hPicked⟩ | ⟨_, hOn⟩ | ⟨_, hLeft⟩
  · exact absurd (hFree.symm.trans hPicked.1) (by simp)
  · obtain ⟨hLock, hFits⟩ := hOn
    have hOwn : (s.pc q).own = false := by
      cases hEq : (s.pc q).own with
      | false => rfl
      | true =>
        have hSome : s.plock q = some c := by
          change s.plock q = (if (s.pc q).own then some c else none) at hLock
          rw [hLock, hEq]
          rfl
        exact absurd (hFree.symm.trans hSome) (by simp)
    exact hState (ProcPc.running_of_fits hOwn hFits)
  · exact absurd (hFree.symm.trans hLeft.1) (by simp)

/- So it rests. -/
theorem Placed.rests {q : P} (hFree : s.plock q = none)
    (hState : (s.proc q).state ≠ .running) : (s.spot q).Rests :=
  h.rest q (h.unowned hFree hState)

/- A process on a CPU that does not hold its lock. -/
theorem Placed.running {c : C} (hMode : (s.cpu c).mode = .on p)
    (hOwn : (s.pc p).own = false) : (s.proc p).state = .running :=
  ProcPc.running_of_fits hOwn (h.on hMode).2.2

/- A process at a place where its context is not saved. -/
theorem Placed.has_of_not_away (hHere : ∀ r, s.pc p ≠ .away r) :
    ∃ c, (s.cpu c).mode = .on p := by
  by_contra hNone
  have hRests : (s.spot p).Rests := by
    apply h.rest p
    intro c hHas
    rcases h.mode_of_has hHas with
      ⟨_, _, _, r, hAway, _⟩ | ⟨hMode, _⟩ | ⟨_, _, r, hAway, _⟩
    · exact hHere r hAway
    · exact hNone ⟨c, hMode⟩
    · exact hHere r hAway
  obtain ⟨_, r, hAway, _⟩ := hRests
  exact hHere r hAway

/- A process whose lock is free does not hold it. -/
theorem Placed.own_of_free {q : P} (hFree : s.plock q = none) : (s.pc q).own = false := by
  cases hOwn : (s.pc q).own with
  | false => rfl
  | true =>
    obtain ⟨c, hMode⟩ := h.has_of_not_away (by
      intro r hAway
      rw [hAway] at hOwn
      cases hOwn)
    have hLock := (h.on hMode).2.1
    change s.plock q = (if (s.pc q).own then some c else none) at hLock
    rw [hFree, hOwn] at hLock
    cases hLock

end

end Facts

section Steps

variable {s s' : Kern C P K L} {c : C} {p : P}

/- What a step of others can do to a process. -/
def Kern.Spared (s s' : Kern C P K L) (q : P) : Prop :=
  s'.spot q = s.spot q ∨ ((∀ c, ¬ s.Has c q) ∧ (s'.spot q).Rests)

theorem Placed.cpuOk_of_spared (h : Placed s) {c' : C} (hProc : (s'.cpu c').proc = (s.cpu c').proc)
    (hSame : (s'.cpu c').mode = (s.cpu c').mode)
    (hSpared : ∀ q, s.Has c' q → s.Spared s' q) : s'.CpuOk c' (s'.cpu c').mode := by
  have hSpot {q : P} (hHas : s.Has c' q) : s'.spot q = s.spot q := by
    rcases hSpared q hHas with hEq | ⟨hNone, _⟩
    · exact hEq
    · exact absurd hHas (hNone c')
  have hOld := h.cpu c'
  rw [hSame]
  cases hMode : (s.cpu c').mode with
  | scheduler =>
    rw [hMode] at hOld
    exact hProc.trans hOld
  | _ =>
    rw [hMode] at hOld
    refine ⟨hProc.trans hOld.1, ?_⟩
    rw [hSpot hOld.1]
    exact hOld.2

theorem Placed.open_of_spared (h : Placed s) {c' : C} (hMode : (s'.cpu c').mode = (s.cpu c').mode)
    (hSpared : ∀ q, s.Has c' q → s.Spared s' q) (hOpen : s.Open c') : s'.Open c' := by
  rcases hOpen with hIdle | ⟨q, t, hOn, hTask⟩
  · exact .inl (hMode.trans hIdle)
  have hHas := (h.on hOn).1
  rcases hSpared q hHas with hSame | ⟨hNone, _⟩
  · refine .inr ⟨q, t, hMode.trans hOn, ?_⟩
    exact (congrArg Spot.pc hSame).trans hTask
  · exact absurd hHas (hNone c')

/-
  CPU `c` works on `p` before or after a step, and on nobody
  else; the other CPUs do nothing.
-/
theorem Placed.change (h : Placed s) (hCpu : ∀ c', c' ≠ c → s'.cpu c' = s.cpu c')
    (hBefore : s.Has c p ∨ ((s.cpu c).proc = none ∧ ∀ c', ¬ s.Has c' p))
    (hMode : s'.CpuOk c (s'.cpu c).mode)
    (hAfter : s'.Has c p ∨ ((s'.cpu c).proc = none ∧ (s'.spot p).Rests))
    (hIntr : (s'.cpu c).intr ≠ none → s'.Open c)
    (hSpared : ∀ q, q ≠ p → s.Spared s' q) : Placed s' := by
  have hHasSame {c' : C} (hc : c' ≠ c) (q : P) : s'.Has c' q ↔ s.Has c' q := by
    unfold Kern.Has
    rw [hCpu c' hc]
  -- the others work on other processes
  have hNotMine {c' : C} (hc : c' ≠ c) : ¬ s.Has c' p := by
    intro hHas
    rcases hBefore with hMine | ⟨_, hNobody⟩
    · exact hc (h.once c' c p hHas hMine)
    · exact hNobody c' hHas
  have hOther {c' : C} (hc : c' ≠ c) (q : P) (hHas : s.Has c' q) : s.Spared s' q := by
    apply hSpared q
    intro hEq
    rw [hEq] at hHas
    exact hNotMine hc hHas
  have hMine {q : P} (hHas : s'.Has c q) : q = p := by
    rcases hAfter with hSome | ⟨hNone, _⟩
    · exact Option.some.inj (hHas.symm.trans hSome)
    · exact absurd (hHas.symm.trans hNone) (by simp)
  constructor
  · intro c'
    by_cases hc : c' = c
    · subst hc
      exact hMode
    · exact h.cpuOk_of_spared (by rw [hCpu c' hc]) (by rw [hCpu c' hc]) (hOther hc)
  · intro c' hSome
    by_cases hc : c' = c
    · subst hc
      exact hIntr hSome
    · rw [hCpu c' hc] at hSome
      exact h.open_of_spared (by rw [hCpu c' hc]) (hOther hc) (h.intr c' hSome)
  · intro q hNone
    by_cases hq : q = p
    · subst hq
      rcases hAfter with hSome | ⟨_, hRests⟩
      · exact absurd hSome (hNone c)
      · exact hRests
    rcases hSpared q hq with hSame | ⟨_, hRests⟩
    · rw [hSame]
      apply h.rest q
      intro c' hHas
      by_cases hc : c' = c
      · subst hc
        rcases hBefore with hp | ⟨hp, _⟩
        · exact hq (Option.some.inj (hHas.symm.trans hp))
        · exact absurd (hHas.symm.trans hp) (by simp)
      · exact hNone c' ((hHasSame hc q).mpr hHas)
    · exact hRests
  · intro c₁ c₂ q h₁ h₂
    by_cases hc₁ : c₁ = c
    · subst hc₁
      rw [hMine h₁] at h₂
      by_contra hc₂
      exact hNotMine (Ne.symm hc₂) ((hHasSame (Ne.symm hc₂) p).mp h₂)
    by_cases hc₂ : c₂ = c
    · subst hc₂
      rw [hMine h₂] at h₁
      exact absurd ((hHasSame hc₁ p).mp h₁) (hNotMine hc₁)
    · exact h.once c₁ c₂ q ((hHasSame hc₁ q).mp h₁) ((hHasSame hc₂ q).mp h₂)

/- The process `p` on CPU `c` goes on. -/
theorem Placed.act (h : Placed s) (hMode : (s.cpu c).mode = .on p)
    (hIntr : (s.cpu c).intr = none) (hCpu : s'.cpu = s.cpu)
    (hOn : (s'.spot p).On c) (hSpared : ∀ q, q ≠ p → s.Spared s' q) : Placed s' := by
  have hHas := (h.on hMode).1
  have hHas' : s'.Has c p := by
    unfold Kern.Has
    rw [hCpu]
    exact hHas
  refine h.change (fun c' _ => by rw [hCpu]) (.inl hHas) ?_ (.inl hHas') ?_ hSpared
  · rw [hCpu, hMode]
    exact ⟨hHas', hOn⟩
  · intro hSome
    rw [hCpu, hIntr] at hSome
    exact absurd rfl hSome

/- An interrupt begins, goes on or ends. -/
theorem Placed.handle (h : Placed s)
    (hSame : ∀ c', (s'.cpu c').proc = (s.cpu c').proc ∧ (s'.cpu c').mode = (s.cpu c').mode)
    (hIntr : ∀ c', (s'.cpu c').intr ≠ none → s.Open c')
    (hSpared : ∀ q, s.Spared s' q) : Placed s' := by
  have hHas (c' : C) (q : P) : s'.Has c' q ↔ s.Has c' q := by
    unfold Kern.Has
    rw [(hSame c').1]
  constructor
  · intro c'
    exact h.cpuOk_of_spared (hSame c').1 (hSame c').2 (fun q _ => hSpared q)
  · intro c' hSome
    exact h.open_of_spared (hSame c').2 (fun q _ => hSpared q) (hIntr c' hSome)
  · intro q hNone
    rcases hSpared q with hEq | ⟨_, hRests⟩
    · rw [hEq]
      exact h.rest q (fun c' hc => hNone c' ((hHas c' q).mpr hc))
    · exact hRests
  · intro c₁ c₂ q h₁ h₂
    exact h.once c₁ c₂ q ((hHas c₁ q).mp h₁) ((hHas c₂ q).mp h₂)

end Steps

-------
-- Children Being Made
-------

/- The slot that a task of `fork` has allocated. -/
def Task.makes : Task P K → Option P
| .forkParent np _ => some np
| .forkRun np _ => some np
| _ => none

/- The same, for a process that may have yielded meanwhile. -/
def ProcPc.makes : ProcPc P K L → Option P
| .task t => t.makes
| .yieldLocked t => t.makes
| .switching (.yield t) => t.makes
| .away (.yield t) => t.makes
| .back (.yield t) => t.makes
| _ => none

/- A slot is `USED` while one `fork` fills it. -/
structure Forking (s : Kern C P K L) : Prop where
  used : ∀ p np, (s.pc p).makes = some np → (s.proc np).state = .used
  once : ∀ p p' np, (s.pc p).makes = some np →
    (s.pc p').makes = some np → p = p'

theorem Forking.start {E : ProcTable P K L} {s : Kern C P K L} (h : E.Start s) : Forking s := by
  have hNone (p : P) : (s.pc p).makes = none := by
    rw [h.2.1 p]
    rfl
  constructor
  · intro p np hp
    rw [hNone p] at hp
    cases hp
  · intro p p' np hp _
    rw [hNone p] at hp
    cases hp

-------
-- Rules
-------

variable {x x' : ProcPc P K L} {s s' : Kern C P K L} {E : ProcTable P K L}
variable {ch : Option (Chan P K)} {c : C} {p : P}

theorem Kern.spared_of_eq {q : P} (hPlock : s'.plock q = s.plock q) (hPc : s'.pc q = s.pc q)
    (hState : (s'.proc q).state = (s.proc q).state) : s.Spared s' q := by
  apply Or.inl
  unfold spot
  rw [hPlock, hPc, hState]

/- A process with a free lock is woken up, killed or freed. -/
theorem Placed.spared (h : Placed s) {q : P} (hFree : s.plock q = none)
    (hPlock : s'.plock q = s.plock q) (hPc : s'.pc q = s.pc q)
    (hRunning : (s.proc q).state = .running → (s'.proc q).state = .running)
    (hRested : ∀ r : Resume P K, r.rested (s.proc q).state → r.rested (s'.proc q).state) :
    s.Spared s' q := by
  by_cases hState : (s.proc q).state = .running
  · exact spared_of_eq hPlock hPc ((hRunning hState).trans hState.symm)
  · obtain ⟨_, r, hAway, hr⟩ := h.rests hFree hState
    exact .inr ⟨h.unowned hFree hState, hPlock.trans hFree, r, hPc.trans hAway, hRested r hr⟩

/- The process on CPU `c` keeps its lock and its state. -/
theorem Placed.goOn (h : Placed s) (hMode : (s.cpu c).mode = .on p)
    (hIntr : (s.cpu c).intr = none) (hPc : s.pc p = x)
    (hCpu : s'.cpu = s.cpu) (hPc' : s'.pc p = x') (hPlock : s'.plock p = s.plock p)
    (hState : (s'.proc p).state = (s.proc p).state) (hOwn : x'.own = x.own)
    (hFits : ∀ st, x.fits st → x'.fits st) (hSpared : ∀ q, q ≠ p → s.Spared s' q) : Placed s' := by
  obtain ⟨hLock, hFit⟩ := (h.on hMode).2
  subst hPc hPc'
  refine h.act hMode hIntr hCpu ⟨?_, ?_⟩ hSpared
  · change s'.plock p = (if (s'.pc p).own then some c else none)
    rw [hPlock, hOwn]
    exact hLock
  · change (s'.pc p).fits (s'.proc p).state
    rw [hState]
    exact hFits _ hFit

/- It takes or drops its lock, or changes its own state. -/
theorem Placed.turnTo (h : Placed s) (hMode : (s.cpu c).mode = .on p)
    (hIntr : (s.cpu c).intr = none) (hCpu : s'.cpu = s.cpu)
    (hPc' : s'.pc p = x') (hPlock : s'.plock p = if x'.own then some c else none)
    (hFits : x'.fits (s'.proc p).state)
    (hOther : ∀ q, q ≠ p → s'.plock q = s.plock q ∧ s'.pc q = s.pc q ∧ s'.proc q = s.proc q) :
    Placed s' := by
  subst hPc'
  refine h.act hMode hIntr hCpu ⟨hPlock, hFits⟩ ?_
  intro q hq
  obtain ⟨hEq, hPc, hProc⟩ := hOther q hq
  exact spared_of_eq hEq hPc (by rw [hProc])

theorem Kern.Alike.rfl : s.Alike s :=
  ⟨Eq.refl _, Eq.refl _, Eq.refl _, Eq.refl _⟩

/- Moving on takes no lock. -/
theorem QuietMove.own (h : QuietMove E s p x x') : x.own = false ∧ x'.own = false := by
  cases h with
  | _ => exact ⟨rfl, rfl⟩

theorem QuietMove.fits (h : QuietMove E s p x x') (st : ProcState)
    (hFits : x.fits st) : x'.fits st := by
  cases h with
  | _ => exact hFits

theorem QuietMove.makes (h : QuietMove E s p x x') : x'.makes = none := by
  cases h with
  | _ => rfl

theorem WakeTurn.own {q : P} (h : WakeTurn E s p ch q x x') : x.own = false ∧ x'.own = false := by
  cases h with
  | _ => exact ⟨rfl, rfl⟩

theorem WakeTurn.fits {q : P} (h : WakeTurn E s p ch q x x') (st : ProcState)
    (hFits : x.fits st) : x'.fits st := by
  cases h with
  | _ => exact hFits

theorem WakeTurn.makes {q : P} (h : WakeTurn E s p ch q x x') : x'.makes = none := by
  cases h with
  | _ => rfl

/- No slot is allocated, and none that is `USED` changes. -/
theorem Forking.congr (h : Forking s)
    (hMakes : ∀ q, (s'.pc q).makes = (s.pc q).makes ∨ (s'.pc q).makes = none)
    (hUsed : ∀ q np, (s'.pc q).makes = some np → (s.proc np).state = .used →
          (s'.proc np).state = .used) : Forking s' := by
  have hOld {q np : P} (hq : (s'.pc q).makes = some np) : (s.pc q).makes = some np := by
    rcases hMakes q with hEq | hNone
    · rw [← hEq]
      exact hq
    · rw [hNone] at hq
      cases hq
  constructor
  · intro q np hq
    exact hUsed q np hq (h.used q np (hOld hq))
  · intro q q' np hq hq'
    exact h.once q q' np (hOld hq) (hOld hq')

theorem Proc.kill_awake (h : v.state ≠ .sleeping) : v.kill.state = v.state :=
  if_neg h

theorem Proc.kill_used (h : v.state = .used) : v.kill.state = .used := by
  rw [kill_awake (by simp [h]), h]

/- A zombie keeps what `wait` will report. -/
def Proc.Keeps (v v' : Proc P K) : Prop :=
  v.state = .zombie → v'.state = .zombie ∧ v'.xstate = v.xstate ∧ v'.pid = v.pid

theorem Proc.keeps_rfl (v : Proc P K) : v.Keeps v := fun hZombie => ⟨hZombie, rfl, rfl⟩

theorem Proc.keeps_of_ne {v v' : Proc P K} (h : v.state ≠ .zombie) : v.Keeps v' :=
  fun hZombie => absurd hZombie h

theorem Proc.keeps_kill (v : Proc P K) : v.Keeps v.kill := by
  intro hZombie
  exact ⟨(kill_awake (by simp [hZombie])).trans hZombie, rfl, rfl⟩

-------
-- Processes that Move On
-------

variable [DecidableEq P]

/- What is true of the new record and of the others. -/
theorem Kern.forall_setProc {F : P → Proc P K → Prop} {q : P} (hSelf : F q v)
    (hOther : ∀ q', q' ≠ q → F q' (s.proc q')) (q' : P) : F q' ((s.setProc q v).proc q') := by
  by_cases hq : q' = q
  · subst hq
    rw [setProc_self]
    exact hSelf
  · rw [setProc_other _ _ hq]
    exact hOther q' hq

/- A record that changes was not `USED`, or it stays so. -/
theorem Kern.used_setProc {q : P} (hv : (s.proc q).state = .used → v.state = .used) :
    ∀ np, (s.proc np).state = .used → ((s.setProc q v).proc np).state = .used :=
  forall_setProc (F := fun q v => (s.proc q).state = .used → v.state = .used) hv
    (fun _ _ hUsed => hUsed)

theorem Kern.keeps_setProc (hv : (s.proc p).Keeps v) :
    ∀ q, (s.proc q).Keeps ((s.setProc p v).proc q) :=
  forall_setProc hv (fun _ _ => keeps_rfl _)

theorem Forking.setProc (h : Forking s) {q : P}
    (hv : (s.proc q).state = .used → v.state = .used) : Forking (s.setProc q v) :=
  h.congr (fun _ => .inl rfl) (fun _ np _ => used_setProc hv np)

/- The process `p` moves on. -/
theorem Forking.moveTo (h : Forking s) (hPc : s.pc p = x)
    (hPc' : s'.pc = update s.pc p x') (hMakes : x'.makes = x.makes ∨ x'.makes = none)
    (hUsed : ∀ np, (s.proc np).state = .used → (s'.proc np).state = .used) : Forking s' := by
  refine h.congr ?_ (fun _ np _ => hUsed np)
  intro q
  rw [hPc']
  by_cases hq : q = p
  · subst hq
    rw [update_self, hPc]
    exact hMakes
  · rw [update_of_ne hq]
    exact .inl rfl

/- A slot is allocated. -/
theorem Forking.alloc (h : Forking s) {q : P} (hUnused : (s.proc q).state = .unused)
    (hUsed : v.state = .used) {pid : Int} :
    Forking ((({ s with nextpid := s.nextpid + 1 }.setProc q v).setPc
        q (.away .forkret)).setPc p (.task (.forkParent q pid))) := by
  -- nobody filled this slot
  have hNew (q' : P) : (s.pc q').makes ≠ some q := by
    intro hq'
    rw [h.used q' q hq'] at hUnused
    cases hUnused
  have hMakes {q' np : P} (hq' : q' ≠ p)
      (hnp : (((({ s with nextpid := s.nextpid + 1 }.setProc q v).setPc q (.away .forkret)).setPc p
            (.task (.forkParent q pid))).pc q').makes = some np) :
      (s.pc q').makes = some np := by
    rw [setPc_other _ _ hq'] at hnp
    by_cases hq : q' = q
    · subst hq
      rw [setPc_self] at hnp
      cases hnp
    · rw [setPc_other _ _ hq] at hnp
      exact hnp
  have hMine {np : P}
      (hnp : (((({ s with nextpid := s.nextpid + 1 }.setProc q v).setPc q (.away .forkret)).setPc p
            (.task (.forkParent q pid))).pc p).makes = some np) :
      np = q := by
    rw [setPc_self] at hnp
    exact (Option.some.inj hnp).symm
  constructor
  · intro q' np hnp
    change (({ s with nextpid := s.nextpid + 1 }.setProc q v).proc np).state = .used
    by_cases hq' : q' = p
    · subst hq'
      rw [hMine hnp, setProc_self]
      exact hUsed
    · exact used_setProc (fun _ => hUsed) np (h.used q' np (hMakes hq' hnp))
  intro q₁ q₂ np h₁ h₂
  by_cases hq₁ : q₁ = p
  · by_cases hq₂ : q₂ = p
    · rw [hq₁, hq₂]
    · rw [hq₁] at h₁
      rw [hMine h₁] at h₂
      exact absurd (hMakes hq₂ h₂) (hNew q₂)
  · by_cases hq₂ : q₂ = p
    · rw [hq₂] at h₂
      rw [hMine h₂] at h₁
      exact absurd (hMakes hq₁ h₁) (hNew q₁)
    · exact h.once q₁ q₂ np (hMakes hq₁ h₁) (hMakes hq₂ h₂)

/- Only the place changes, locks of others apart. -/
theorem Placed.moveTo {s₁ : Kern C P K L} (h : Placed s)
    (hMode : (s.cpu c).mode = .on p) (hIntr : (s.cpu c).intr = none)
    (hPc : s.pc p = x) (hAlike : s.Alike s₁)
    (hOwn : x'.own = x.own) (hFits : ∀ st, x.fits st → x'.fits st) : Placed (s₁.setPc p x') := by
  refine h.goOn hMode hIntr hPc hAlike.cpu (setPc_self ..) ?_ ?_ hOwn hFits ?_
  · exact congrFun hAlike.plock p
  · exact congrArg state (congrFun hAlike.proc p)
  · intro q hq
    refine spared_of_eq (congrFun hAlike.plock q) ?_
      (congrArg state (congrFun hAlike.proc q))
    rw [setPc_other _ _ hq, hAlike.pc]

section

variable (h : Placed s) (hMode : (s.cpu c).mode = .on p) (hIntr : (s.cpu c).intr = none)
include h hMode hIntr

/- A step that changes the record of another process `q`. -/
theorem Placed.touch (hPc : s.pc p = x) {q : P} (hOwn : x'.own = x.own)
    (hFits : ∀ st, x.fits st → x'.fits st)
    (hSelf : q = p → v.state = (s.proc p).state)
    (hOther : q ≠ p → s.Spared ((s.setProc q v).setPc p x') q) :
    Placed ((s.setProc q v).setPc p x') := by
  refine h.goOn hMode hIntr hPc rfl (setPc_self ..) rfl ?_ hOwn hFits ?_
  · by_cases hq : q = p
    · subst hq
      exact (congrArg state (setProc_self ..)).trans (hSelf rfl)
    · exact congrArg state (setProc_other _ _ (Ne.symm hq))
  · intro q' hq'
    by_cases hq : q' = q
    · subst hq
      exact hOther hq'
    · refine spared_of_eq rfl (setPc_other _ _ hq') ?_
      exact congrArg state (setProc_other _ _ hq)

/- One whose lock is free is woken up, killed or freed. -/
theorem Placed.touchFree (hPc : s.pc p = x) {q : P} (hOwn : x'.own = x.own)
    (hFits : ∀ st, x.fits st → x'.fits st)
    (hRunning : (s.proc p).state = .running) (hFree : s.plock q = none)
    (hRun : (s.proc q).state = .running → v.state = .running)
    (hRested : ∀ r : Resume P K, r.rested (s.proc q).state → r.rested v.state) :
    Placed ((s.setProc q v).setPc p x') := by
  refine h.touch hMode hIntr hPc hOwn hFits ?_ ?_
  · rintro rfl
    exact (hRun hRunning).trans hRunning.symm
  · intro hq
    have hState : (((s.setProc q v).setPc p x').proc q).state = v.state :=
      congrArg state (setProc_self ..)
    refine h.spared hFree rfl (setPc_other _ _ hq) ?_ ?_
    · rwa [hState]
    · rwa [hState]

/- A process is allocated, or found to be free. -/
theorem Placed.alloc {q : P} {rest : List P}
    (hPc : s.pc p = .task (.forkScan (q :: rest))) (hFree : s.plock q = none)
    (hUnused : (s.proc q).state = .unused) (hUsed : v.state = .used) (pid : Int) :
    Placed ((({ s with nextpid := s.nextpid + 1 }.setProc q v).setPc
        q (.away .forkret)).setPc p (.task (.forkParent q pid))) := by
  have hRunning : (s.proc p).state = .running := h.running hMode (by rw [hPc]; rfl)
  have hNot : (s.proc q).state ≠ .running := by
    rw [hUnused]
    simp
  have hq : q ≠ p := by
    intro hEq
    rw [hEq] at hNot
    exact hNot hRunning
  refine h.goOn hMode hIntr hPc rfl (setPc_self ..) rfl
    (congrArg state (setProc_other _ _ (Ne.symm hq))) rfl
    (fun _ hFits => hFits) ?_
  intro q' hq'
  by_cases hEq : q' = q
  · subst hEq
    refine .inr ⟨h.unowned hFree hNot, hFree, .forkret, ?_, ?_⟩
    · exact (setPc_other _ _ hq').trans (setPc_self ..)
    · exact .inr (.inl ((congrArg state (setProc_self ..)).trans hUsed))
  · refine spared_of_eq rfl ?_ ?_
    · exact (setPc_other _ _ hq').trans (setPc_other _ _ hEq)
    · exact congrArg state (setProc_other _ _ hEq)

end

-------
-- Steps of the Scheduler
-------

variable [DecidableEq C]

/- A process is switched away from. -/
theorem Placed.sched (h : Placed s) (hMode : (s.cpu c).mode = .on p)
    (hIntr : (s.cpu c).intr = none) {r : Resume P K} (hPc : s.pc p = .switching r)
    (hLock : s.plock p = some c) :
    Placed ((s.setCpu c { s.cpu c with mode := .left p }).setPc p (.away r)) := by
  obtain ⟨hHas, _, hFits⟩ := h.on hMode
  change (s.pc p).fits (s.proc p).state at hFits
  rw [hPc] at hFits
  have hHas' : ((s.setCpu c { s.cpu c with mode := .left p }).setPc p (.away r)).Has c p :=
    (congrArg Cpu.proc (setCpu_self s c _)).trans hHas
  have hLeft : (((s.setCpu c { s.cpu c with mode := .left p }).setPc p
        (.away r)).cpu c).mode = .left p :=
    congrArg Cpu.mode (setCpu_self s c _)
  refine h.change (fun c' hc => setCpu_other _ _ hc) (.inl hHas) ?_ (.inl hHas') ?_ ?_
  · rw [hLeft]
    exact ⟨hHas', hLock, r, setPc_self .., hFits⟩
  · intro hSome
    refine absurd ?_ hSome
    exact (congrArg Cpu.intr (setCpu_self s c _)).trans hIntr
  · intro q hq
    exact spared_of_eq rfl (setPc_other _ _ hq) rfl

/- `scheduler` picks a process. -/
theorem Placed.pick (h : Placed s) (hMode : (s.cpu c).mode = .scheduler)
    (hIntr : (s.cpu c).intr = none) (hFree : s.plock p = none)
    (hRunnable : (s.proc p).state = .runnable) :
    Placed (((s.setPlock p (some c)).setProc p
        { s.proc p with state := .running }).setCpu c
          { s.cpu c with proc := some p, mode := .picked p }) := by
  have hNot : (s.proc p).state ≠ .running := by
    rw [hRunnable]
    simp
  obtain ⟨_, r, hAway, hr⟩ := h.rests hFree hNot
  change r.rested (s.proc p).state at hr
  rw [hRunnable] at hr
  have hAlive (status : Int) : r ≠ .dead status := by
    intro hEq
    rw [hEq] at hr
    simp [Resume.rested] at hr
  have hIdle : (s.cpu c).proc = none := h.at hMode
  have hHas' : Kern.Has (((s.setPlock p (some c)).setProc p
        { s.proc p with state := .running }).setCpu c
          { s.cpu c with proc := some p, mode := .picked p })
        c p :=
    congrArg Cpu.proc (setCpu_self ..)
  refine h.change (fun c' hc => setCpu_other _ _ hc)
    (.inr ⟨hIdle, h.unowned hFree hNot⟩) ?_ (.inl hHas') ?_ ?_
  · rw [setCpu_self]
    refine ⟨hHas', setPlock_self .., ?_, r, hAway, hAlive⟩
    exact congrArg state (setProc_self (s.setPlock p (some c)) p _)
  · intro hSome
    rw [setCpu_self] at hSome
    exact absurd hIntr hSome
  · intro q hq
    exact spared_of_eq (setPlock_other _ _ hq) rfl
      (congrArg state (setProc_other (s.setPlock p (some c)) _ hq))

/- `swtch` to the process that was picked. -/
theorem Placed.swtch (h : Placed s) (hMode : (s.cpu c).mode = .picked p) :
    Placed ((s.setCpu c { s.cpu c with mode := .on p }).setPc p (s.pc p).resume) := by
  obtain ⟨hHas, hLock, hRunning, r, hAway, hAlive⟩ := h.at hMode
  change s.pc p = .away r at hAway
  rw [hAway]
  have hHas' : ((s.setCpu c { s.cpu c with mode := .on p }).setPc p
        (ProcPc.away r).resume).Has c p :=
    (congrArg Cpu.proc (setCpu_self s c _)).trans hHas
  have hOn : (((s.setCpu c { s.cpu c with mode := .on p }).setPc p
        (ProcPc.away r).resume).cpu c).mode = .on p :=
    congrArg Cpu.mode (setCpu_self s c _)
  refine h.change (fun c' hc => setCpu_other _ _ hc) (.inl hHas) ?_ (.inl hHas') ?_ ?_
  · rw [hOn]
    refine ⟨hHas', ?_, ?_⟩
    · change s.plock p = (if ((s.setPc p (ProcPc.away r).resume).pc p).own then
          some c else none)
      rw [setPc_self]
      exact hLock
    · change ((s.setPc p (ProcPc.away r).resume).pc p).fits (s.proc p).state
      rw [setPc_self]
      cases r with
      | dead status => exact absurd rfl (hAlive status)
      | _ => exact hRunning
  · intro hSome
    have hOld : (s.cpu c).intr ≠ none := by
      intro hNone
      exact hSome ((congrArg Cpu.intr (setCpu_self s c _)).trans hNone)
    rcases h.intr c hOld with hIdle | ⟨q, t, hOn, _⟩
    · exact absurd (hMode.symm.trans hIdle) (by simp)
    · exact absurd (hMode.symm.trans hOn) (by simp)
  · intro q hq
    exact spared_of_eq rfl (setPc_other _ _ hq) rfl

/- `scheduler` is done with a process. -/
theorem Placed.drop (h : Placed s) (hMode : (s.cpu c).mode = .left p) :
    Placed ((s.setPlock p none).setCpu c
        { s.cpu c with proc := none, mode := .scheduler }) := by
  obtain ⟨hHas, _, r, hAway, hParked⟩ := h.at hMode
  have hNone : (((s.setPlock p none).setCpu c
        { s.cpu c with
          proc := none
          mode := .scheduler }).cpu c).proc = none :=
    congrArg Cpu.proc (setCpu_self ..)
  refine h.change (fun c' hc => setCpu_other _ _ hc) (.inl hHas) ?_ (.inr ⟨hNone, ?_⟩) ?_ ?_
  · rw [setCpu_self]
    exact hNone
  · exact ⟨setPlock_self .., r, hAway, Resume.rested_of_parked hParked⟩
  · intro _
    exact .inl (congrArg Cpu.mode (setCpu_self ..))
  · intro q hq
    exact spared_of_eq (setPlock_other _ _ hq) rfl rfl

omit [DecidableEq P] in
/- Only the interrupt handler of `c` goes on. -/
theorem Placed.setIntr (h : Placed s) {s₁ : Kern C P K L} (hAlike : s.Alike s₁)
    (x : Option (Handler P K L)) (hOpen : x ≠ none → s.Open c) :
    Placed (s₁.setCpu c { s₁.cpu c with intr := x }) := by
  have hCpu (c' : C) : s₁.cpu c' = s.cpu c' := congrFun hAlike.cpu c'
  refine h.handle ?_ ?_ ?_
  · intro c'
    by_cases hc : c' = c
    · subst hc
      rw [setCpu_self, hCpu]
      exact ⟨rfl, rfl⟩
    · rw [setCpu_other _ _ hc, hCpu]
      exact ⟨rfl, rfl⟩
  · intro c' hSome
    by_cases hc : c' = c
    · subst hc
      rw [setCpu_self] at hSome
      exact hOpen hSome
    · rw [setCpu_other _ _ hc, hCpu] at hSome
      exact h.intr c' hSome
  · intro q
    exact spared_of_eq (congrFun hAlike.plock q) (congrFun hAlike.pc q)
      (congrArg state (congrFun hAlike.proc q))

-------
-- Steps of the Machine
-------

variable [DecidableEq K] [DecidableEq L]

/- A process that does not sleep is not disturbed. -/
theorem Proc.wakeup_awake (h : v.state ≠ .sleeping) (ch : Option (Chan P K)) :
    v.wakeup ch = v :=
  if_neg (fun hAsleep => h hAsleep.1)

theorem Proc.wakeup_used (ch : Option (Chan P K)) (h : v.state = .used) :
    (v.wakeup ch).state = .used := by
  rw [wakeup_awake (by simp [h]), h]

theorem Proc.keeps_wakeup (v : Proc P K) (ch : Option (Chan P K)) : v.Keeps (v.wakeup ch) := by
  intro hZombie
  rw [wakeup_awake (by simp [hZombie])]
  exact ⟨hZombie, rfl, rfl⟩

theorem Placed.procStep (h : Placed s) (hForking : Forking s) (hMode : (s.cpu c).mode = .on p)
    (hIntr : (s.cpu c).intr = none) (hStep : ProcStep E s p c (s.pc p) s') : Placed s' := by
  have hOther₁ (v : Proc P K) (x : ProcPc P K L) (q : P) (hq : q ≠ p) :
      ((s.setProc p v).setPc p x).plock q = s.plock q ∧ ((s.setProc p v).setPc p x).pc q = s.pc q ∧
        ((s.setProc p v).setPc p x).proc q = s.proc q :=
    ⟨rfl, setPc_other _ _ hq, setProc_other _ _ hq⟩
  have hOther₂ (o : Option C) (x : ProcPc P K L) (q : P) (hq : q ≠ p) :
      ((s.setPlock p o).setPc p x).plock q = s.plock q ∧
        ((s.setPlock p o).setPc p x).pc q = s.pc q ∧
        ((s.setPlock p o).setPc p x).proc q = s.proc q :=
    ⟨setPlock_other _ _ hq, setPc_other _ _ hq, rfl⟩
  have hRunning (hOwn : (s.pc p).own = false) : (s.proc p).state = .running := h.running hMode hOwn
  have hFit := (h.on hMode).2.2
  change (s.pc p).fits (s.proc p).state at hFit
  have hLock := (h.on hMode).2.1
  change s.plock p = (if (s.pc p).own then some c else none) at hLock
  generalize hPc : s.pc p = x at hStep hRunning hFit hLock
  have hParent (q w : P) {x' : ProcPc P K L} (hOwn : x'.own = x.own)
      (hFits : ∀ st, x.fits st → x'.fits st) :
      Placed ((s.setProc q { s.proc q with parent := some w }).setPc p x') := by
    refine h.touch hMode hIntr hPc hOwn hFits (fun hEq => ?_) (fun hq => ?_)
    · rw [hEq]
    · refine spared_of_eq rfl (setPc_other _ _ hq) ?_
      change ((s.setProc q _).proc q).state = _
      rw [setProc_self]
  cases hStep with
  | quiet x' hQuiet =>
    exact h.moveTo hMode hIntr hPc .rfl (hQuiet.own.2.trans hQuiet.own.1.symm) hQuiet.fits
  | client o ls ls' s₁ hClient =>
    exact h.moveTo hMode hIntr hPc (ProcTable.client_alike hClient).1 rfl (fun _ hFits => hFits)
  | skip ch x' hTurn =>
    exact h.moveTo hMode hIntr hPc .rfl (hTurn.own.2.trans hTurn.own.1.symm) hTurn.fits
  | turn ch q x' hTurn hq hFree =>
    refine h.touchFree hMode hIntr hPc (hTurn.own.2.trans hTurn.own.1.symm) hTurn.fits
      (hRunning hTurn.own.1) hFree ?_ (fun _ hr => Resume.rested_wakeup hr ch)
    intro hRun
    rw [wakeup_awake (by simp [hRun]), hRun]
  | kill pid q rest hFree =>
    refine h.touchFree hMode hIntr hPc rfl (fun _ hFits => hFits) (hRunning rfl) hFree ?_
      (fun _ => Resume.rested_kill)
    intro hRun
    rw [kill_awake (by simp [hRun]), hRun]
  | alloc q rest hFree hUnused => exact h.alloc hMode hIntr hPc hFree hUnused rfl _
  | allocFail q rest hFree hUnused =>
    refine h.goOn hMode hIntr hPc rfl (setPc_self ..) rfl ?_ rfl (fun _ hFits => hFits) ?_
    · by_cases hq : q = p
      · subst hq
        rw [hRunning rfl] at hUnused
        cases hUnused
      · exact congrArg state (setProc_other _ _ (Ne.symm hq))
    · intro q' hq'
      refine spared_of_eq rfl (setPc_other _ _ hq') ?_
      by_cases hq : q' = q
      · subst hq
        exact (congrArg state (setProc_self ..)).trans hUnused.symm
      · exact congrArg state (setProc_other _ _ hq)
  | forkParent np pid hWait => exact hParent np p rfl (fun _ hFits => hFits)
  | forkRun np pid hFree =>
    have hUsed : (s.proc np).state = .used := hForking.used p np (by rw [hPc]; rfl)
    refine h.touchFree hMode hIntr hPc rfl (fun _ hFits => hFits) (hRunning rfl) hFree ?_ ?_
    · intro hRun
      exact absurd (hUsed.symm.trans hRun) (by simp)
    intro r hr
    rw [hUsed] at hr
    cases r with
    | forkret => exact .inr (.inr rfl)
    | yield t => cases hr
    | _ => simp [Resume.rested] at hr
  | yielded | asleep | zombie =>
    refine h.turnTo hMode hIntr rfl (setPc_self ..) hLock ?_ (hOther₁ _ _)
    exact congrArg state (setProc_self ..)
  | yield | sleep | waitSleep | exitOwn =>
    exact h.turnTo hMode hIntr rfl (setPc_self ..)
      (setPlock_self ..) (hRunning rfl) (hOther₂ _ _)
  | sched r hHeld => exact h.sched hMode hIntr hPc hHeld
  | backYield | backFork =>
    exact h.turnTo hMode hIntr rfl (setPc_self ..) (setPlock_self ..) hFit (hOther₂ _ _)
  | backSleep w =>
    refine h.turnTo hMode hIntr rfl (setPc_self ..) (setPlock_self ..) ?_ ?_
    · exact (congrArg state (setProc_self ..)).trans hFit
    · intro q hq
      exact ⟨setPlock_other _ _ hq, setPc_other _ _ hq, setProc_other _ _ hq⟩
  | reap addr q rest kids hChild hFree hZombie =>
    refine h.touchFree hMode hIntr hPc rfl (fun _ hFits => hFits) (hRunning rfl) hFree ?_ ?_
    · intro hRun
      exact absurd (hZombie.symm.trans hRun) (by simp)
    intro r hr
    rw [hZombie] at hr
    cases r with
    | dead status => exact .inr rfl
    | yield t => cases hr
    | _ => simp [Resume.rested] at hr
  | reparent status q rest hChild =>
    exact hParent q E.initproc rfl (fun _ hFits => hFits)
  | _ => exact h.moveTo hMode hIntr hPc ⟨rfl, rfl, rfl, rfl⟩ rfl (fun _ hFits => hFits)

theorem Forking.procStep (h : Forking s) (hPlaced : Placed s) (hMode : (s.cpu c).mode = .on p)
    (hStep : ProcStep E s p c (s.pc p) s') : Forking s' := by
  have hFits := (hPlaced.on hMode).2.2
  change (s.pc p).fits (s.proc p).state at hFits
  generalize hPc : s.pc p = x at hStep hFits
  -- a process on a CPU is not `USED`
  have hSelf (v : Proc P K) (hRun : (s.proc p).state = .running)
      (np : P) (hUsed : (s.proc np).state = .used) :
      ((s.setProc p v).proc np).state = .used := by
    refine used_setProc ?_ np hUsed
    intro hp
    rw [hRun] at hp
    cases hp
  cases hStep with
  | quiet x' hQuiet => exact h.moveTo hPc rfl (.inr hQuiet.makes) (fun _ hUsed => hUsed)
  | client o ls ls' s₁ hClient =>
    have hAlike := (ProcTable.client_alike hClient).1
    have hPc' : (s₁.setPc p (.crit ls')).pc = update s.pc p (.crit ls') := by
      rw [← hAlike.pc]
      rfl
    refine h.moveTo hPc hPc' (.inr rfl) ?_
    intro np hUsed
    change (s₁.proc np).state = .used
    rw [hAlike.proc]
    exact hUsed
  | skip ch x' hTurn => exact h.moveTo hPc rfl (.inr hTurn.makes) (fun _ hUsed => hUsed)
  | turn ch q x' hTurn hq hFree =>
    exact h.moveTo hPc rfl (.inr hTurn.makes) (used_setProc (wakeup_used ch))
  | kill pid q rest hFree => exact h.moveTo hPc rfl (.inr rfl) (used_setProc kill_used)
  | alloc q rest hFree hUnused => exact h.alloc hUnused rfl
  | allocFail q rest hFree hUnused =>
    have hKept (np : P) (hUsed : (s.proc np).state = .used) :
        ((s.setProc q freeproc).proc np).state = .used :=
      used_setProc (fun hq => absurd (hUnused.symm.trans hq) (by simp)) np hUsed
    exact h.moveTo hPc rfl (.inr rfl) hKept
  | forkParent np pid hWait =>
    exact h.moveTo hPc rfl (.inl rfl) (used_setProc (fun hUsed => hUsed))
  | forkRun np pid hFree =>
    -- only `p` fills this slot
    refine h.congr ?_ ?_
    · intro q
      by_cases hq : q = p
      · subst hq
        rw [setPc_self]
        exact .inr rfl
      · rw [setPc_other _ _ hq]
        exact .inl rfl
    intro q np' hq hUsed
    have hNot : np' ≠ np := by
      intro hEq
      subst hEq
      by_cases hqp : q = p
      · subst hqp
        rw [setPc_self] at hq
        cases hq
      · rw [setPc_other _ _ hqp] at hq
        exact hqp (h.once q p np' hq (by rw [hPc]; rfl))
    change ((s.setProc np _).proc np').state = .used
    rw [setProc_other _ _ hNot]
    exact hUsed
  | yield | backYield => exact h.moveTo hPc rfl (.inl rfl) (fun _ hUsed => hUsed)
  | yielded t => exact h.moveTo hPc rfl (.inl rfl) (hSelf _ hFits)
  | asleep | backSleep | zombie => exact h.moveTo hPc rfl (.inr rfl) (hSelf _ hFits)
  | sched r hHeld =>
    refine h.moveTo hPc rfl (.inl ?_) (fun _ hUsed => hUsed)
    cases r with
    | _ => rfl
  | reap addr q rest kids hChild hFree hZombie =>
    refine h.moveTo hPc rfl (.inr rfl) (used_setProc ?_)
    intro hUsed
    exact absurd (hZombie.symm.trans hUsed) (by simp)
  | reparent status q rest hChild =>
    exact h.moveTo hPc rfl (.inr rfl) (used_setProc (fun hUsed => hUsed))
  | _ => exact h.moveTo hPc rfl (.inr rfl) (fun _ hUsed => hUsed)

theorem Placed.handlerStep (h : Placed s) {x : Handler P K L} (hIntr : (s.cpu c).intr = some x)
    (hStep : HandlerStep E s c x s') : Placed s' := by
  have hOpen : s.Open c := by
    apply h.intr c
    rw [hIntr]
    simp
  cases hStep with
  | client o ls ls' s₁ hClient =>
    exact h.setIntr (ProcTable.client_alike hClient).1 _ (fun _ => hOpen)
  | turn ch q rest ls hFree =>
    -- first the process, then the handler
    have hWoken : Placed (s.setProc q ((s.proc q).wakeup ch)) := by
      refine h.handle (fun _ => ⟨rfl, rfl⟩) h.intr ?_
      intro q'
      by_cases hq : q' = q
      · subst hq
        refine h.spared hFree rfl rfl ?_ ?_
        · intro hRun
          rw [setProc_self]
          rw [wakeup_awake (by simp [hRun]), hRun]
        · intro r hr
          rw [setProc_self]
          exact Resume.rested_wakeup hr ch
      · exact spared_of_eq rfl rfl (congrArg state (setProc_other _ _ hq))
    exact hWoken.setIntr .rfl _ (fun _ => hOpen)
  | woken ch ls =>
    have hAlike : s.Alike (E.settle s ch ls) := ⟨rfl, rfl, rfl, rfl⟩
    exact h.setIntr hAlike _ (fun _ => hOpen)
  | _ => exact h.setIntr .rfl _ (fun _ => hOpen)

/- Every step keeps the processes in their places. -/
theorem Placed.step (h : Placed s) (hForking : Forking s) (hStep : KernStep E s s') :
    Placed s' := by
  cases hStep with
  | pick c p hMode hIntr hFree hRunnable => exact h.pick hMode hIntr hFree hRunnable
  | swtch c p hMode => exact h.swtch hMode
  | drop c p hMode => exact h.drop hMode
  | irq c hIntr hMode => exact h.setIntr .rfl _ (fun _ => hMode)
  | reti c hIntr => exact h.setIntr .rfl _ (fun hSome => absurd rfl hSome)
  | handle c x s' hIntr hStep => exact h.handlerStep hIntr hStep
  | run c p s' hMode hIntr hStep => exact h.procStep hForking hMode hIntr hStep

/- Every step keeps the slots that are being filled. -/
theorem Forking.step (h : Forking s) (hPlaced : Placed s) (hStep : KernStep E s s') :
    Forking s' := by
  cases hStep with
  | pick c p hMode hIntr hFree hRunnable =>
    refine h.congr (fun _ => .inl rfl) ?_
    intro _ np _ hUsed
    refine used_setProc ?_ np hUsed
    intro hp
    exact absurd (hRunnable.symm.trans hp) (by simp)
  | swtch c p hMode =>
    obtain ⟨_, _, _, r, hAway, _⟩ := hPlaced.at hMode
    refine h.moveTo hAway rfl (.inl ?_) (fun _ hUsed => hUsed)
    rw [show s.pc p = .away r from hAway]
    cases r with
    | _ => rfl
  | handle c x s' hIntr hStep =>
    cases hStep with
    | client o ls ls' s₁ hClient =>
      have hAlike := (ProcTable.client_alike hClient).1
      refine h.congr (fun q => .inl ?_) ?_
      · change (s₁.pc q).makes = (s.pc q).makes
        rw [hAlike.pc]
      · intro _ np _ hUsed
        change (s₁.proc np).state = .used
        rw [hAlike.proc]
        exact hUsed
    | turn ch q rest ls hFree =>
      exact h.congr (fun _ => .inl rfl) (fun _ np _ hUsed =>
          used_setProc (wakeup_used ch) np hUsed)
    | _ => exact h.congr (fun _ => .inl rfl) (fun _ _ _ hUsed => hUsed)
  | run c p s' hMode hIntr hStep => exact h.procStep hPlaced hMode hStep
  | _ => exact h.congr (fun _ => .inl rfl) (fun _ _ _ hUsed => hUsed)

/- Both hold in all reachable states. -/
theorem placed_of_reach (hReach : E.system.Reach System.Anything s) : Placed s ∧ Forking s := by
  refine hReach.invariant (I := fun s => Placed s ∧ Forking s)
    (fun _ hStart => ⟨.start hStart, .start hStart⟩) ?_
  intro s a s' hOld _ hNext
  have hStep := ProcTable.kernStep_of_next hNext
  exact ⟨hOld.1.step hOld.2 hStep, hOld.2.step hOld.1 hStep⟩

-------
-- Results
-------

/- `wait` of `p` frees its child `q` in this step. -/
def Kern.Reaps (s : Kern C P K L) (p q : P) (s' : Kern C P K L) : Prop :=
  ∃ addr rest kids, s.pc p = .waitScan addr (q :: rest) kids ∧
    (s.proc q).parent = some p ∧
      (s.proc q).state = .zombie ∧
      s.plock q = none ∧
      s' = (s.setProc q freeproc).setPc p (.waitDone (s.proc q).pid
            (if addr then some (s.proc q).xstate else none))

/- Nothing but `wait` takes a zombie away. -/
theorem Placed.keeps_or_reaps (h : Placed s) (hForking : Forking s)
    (hStep : KernStep E s s') :
    (∀ q, (s.proc q).Keeps (s'.proc q)) ∨ ∃ c p q, (s.cpu c).mode = .on p ∧ s.Reaps p q s' := by
  cases hStep with
  | pick c p hMode hIntr hFree hRunnable =>
    refine .inl (keeps_setProc (keeps_of_ne ?_))
    rw [hRunnable]
    simp
  | handle c x s' hIntr hStep =>
    cases hStep with
    | client o ls ls' s₁ hClient =>
      have hAlike := (ProcTable.client_alike hClient).1
      refine .inl (fun q => ?_)
      change (s.proc q).Keeps (s₁.proc q)
      rw [hAlike.proc]
      exact keeps_rfl _
    | turn ch q rest ls hFree => exact .inl (keeps_setProc (keeps_wakeup _ ch))
    | skip ch q rest ls hSelf => exact .inl (fun q => keeps_rfl _)
    | _ => exact .inl (fun q => keeps_rfl _)
  | run c p s' hMode hIntr hStep =>
    have hFits := (h.on hMode).2.2
    change (s.pc p).fits (s.proc p).state at hFits
    have hSelf (hRun : (s.proc p).state = .running) (v : Proc P K) (q : P) :
        (s.proc q).Keeps ((s.setProc p v).proc q) := by
      refine keeps_setProc (keeps_of_ne ?_) q
      rw [hRun]
      simp
    generalize hPc : s.pc p = x at hStep hFits
    cases hStep with
    | client o ls ls' s₁ hClient =>
      have hAlike := (ProcTable.client_alike hClient).1
      refine .inl (fun q => ?_)
      change (s.proc q).Keeps (s₁.proc q)
      rw [hAlike.proc]
      exact keeps_rfl _
    | turn ch q x' hTurn hq hFree => exact .inl (keeps_setProc (keeps_wakeup _ ch))
    | kill pid q rest hFree => exact .inl (keeps_setProc (keeps_kill _))
    | alloc q rest hFree hUnused | allocFail q rest hFree hUnused =>
      refine .inl (keeps_setProc (keeps_of_ne ?_))
      exact fun hZombie => absurd (hUnused.symm.trans hZombie) (by simp)
    | forkParent | reparent =>
      exact .inl (keeps_setProc (fun hZombie => ⟨hZombie, rfl, rfl⟩))
    | forkRun np pid hFree =>
      have hUsed : (s.proc np).state = .used := hForking.used p np (by rw [hPc]; rfl)
      refine .inl (keeps_setProc (keeps_of_ne ?_))
      rw [hUsed]
      simp
    | yielded | asleep | backSleep | zombie => exact .inl (hSelf hFits _)
    | reap addr q rest kids hChild hFree hZombie =>
      exact .inr ⟨c, p, q, hMode, addr, rest, kids, hPc, hChild, hZombie, hFree, rfl⟩
    | _ => exact .inl (fun q => keeps_rfl _)
  | _ => exact .inl (fun q => keeps_rfl _)

/-
  A `RUNNING` process is the current one of exactly one CPU.
  A CPU that is about to switch to a process, or has not
  finished to switch away from it, is the only one that works
  on it, and the process it switches to is `RUNNING`. A
  zombie is freed when no CPU is on its stack.
-/
theorem one_cpu_per_process
    (hReach : E.system.Reach System.Anything s) :
    (∀ p, (s.proc p).state = .running → ∃! c, (s.cpu c).proc = some p) ∧
      (∀ p c c', (s.cpu c).mode = .picked p ∨ (s.cpu c).mode = .on p ∨
          (s.cpu c).mode = .left p →
        (s.cpu c').mode = .picked p ∨ (s.cpu c').mode = .on p ∨
          (s.cpu c').mode = .left p →
        c = c') ∧
      (∀ c p, (s.cpu c).mode = .picked p →
          (s.proc p).state = .running) ∧
      ∀ a s' q, E.step s a = .next s' → (s.proc q).state = .zombie →
        (s'.proc q).state ≠ .zombie →
        (s'.proc q).state = .unused ∧ ∀ c, (s.cpu c).proc ≠ some q ∧
          (s.cpu c).mode ≠ .on q := by
  obtain ⟨h, hForking⟩ := placed_of_reach hReach
  have hHas {c : C} {p : P}
      (hMode : (s.cpu c).mode = .picked p ∨ (s.cpu c).mode = .on p ∨ (s.cpu c).mode = .left p) :
      s.Has c p := by
    rcases hMode with hMode | hMode | hMode
    · exact (h.at hMode).1
    · exact (h.at hMode).1
    · exact (h.at hMode).1
  refine ⟨?_, ?_, ?_, ?_⟩
  · intro p hRunning
    have hSome : ∃ c, s.Has c p := by
      by_contra hNone
      obtain ⟨_, r, _, hr⟩ := h.rest p (fun c hc => hNone ⟨c, hc⟩)
      change r.rested (s.proc p).state at hr
      rw [hRunning] at hr
      cases r with
      | yield t => cases hr
      | _ => simp [Resume.rested] at hr
    obtain ⟨c, hc⟩ := hSome
    exact ⟨c, hc, fun c' hc' => h.once c' c p hc' hc⟩
  · intro p c c' hc hc'
    exact h.once c c' p (hHas hc) (hHas hc')
  · intro c p hMode
    exact (h.at hMode).2.2.1
  · intro a s' q hNext hZombie hFreed
    have hStep := ProcTable.kernStep_of_next hNext
    rcases h.keeps_or_reaps hForking hStep with
      hKeeps | ⟨_, p, q', _, _, _, _, _, _, hZombie', hFree, rfl⟩
    · exact absurd (hKeeps q hZombie).1 hFreed
    have hq : q = q' := by
      by_contra hq
      apply hFreed
      change ((s.setProc q' freeproc).proc q).state = .zombie
      rw [setProc_other _ _ hq]
      exact hZombie
    subst hq
    have hNot : (s.proc q).state ≠ .running := by
      rw [hZombie]
      simp
    refine ⟨?_, ?_⟩
    · change ((s.setProc q freeproc).proc q).state = .unused
      rw [setProc_self]
      rfl
    · intro c
      have hNone := h.unowned hFree hNot c
      exact ⟨hNone, fun hOn => hNone (hHas (.inr (.inl hOn)))⟩

/- The first process runs on the second CPU. -/
theorem one_cpu_of_first_process :
    ∃ s : Kern (Fin 2) (Fin 2) Unit Unit, twoProcs.system.Reach System.Anything s ∧
      (s.proc 0).state = .running ∧
      ∃! c, (s.cpu c).proc = some 0 := by
  have hRun : ∃ s : Kern (Fin 2) (Fin 2) Unit Unit,
        twoProcs.system.run System.Anything twoProcs.start
            [.pick 1 0, .swtch 1, .run 1 (.go true)] =
            some s ∧
          (s.proc 0).state = .running :=
    ⟨_, rfl, rfl⟩
  obtain ⟨s, hRun, hRunning⟩ := hRun
  have hReach : twoProcs.system.Reach System.Anything s :=
    System.reach_of_run (.init twoProcs.start_start) hRun
  exact ⟨s, hReach, hRunning, (one_cpu_per_process hReach).1 0 hRunning⟩

end Xv6
