import Xv6.Proc.Placement

/-
  No wakeup is lost.

  A process that goes to sleep on a condition holds the lock
  of the condition until it has its own lock, and its own
  lock until the scheduler has it. Whoever makes the
  condition true holds the first lock and has to get the
  second one in `wakeup`.

  Key definitions include:
    * `Kern.Falls`
    * `Heard`

  The main result is `no_lost_wakeup`.
-/

open Function Xv6.Kern List Xv6.ProcPc

-------
-- Holders
-------

namespace Xv6

variable {C P K L : Type}

/- A `wakeup`: its channel, what is left, the locks held. -/
abbrev WakeLoop (P K L : Type) : Type := Option (Chan P K) × List P × List L

/- The locks of kernel code that a process holds. -/
def ProcPc.locks (E : ProcTable P K L) : ProcPc P K L → List L
| .crit ls => ls
| .wake _ _ ls => ls
| .sleepLocked (.cond k) ls => E.lk k :: ls
| .sleepLocked (.wait _) ls => ls
| .sleepSet _ ls => ls
| _ => []

def ProcPc.loop : ProcPc P K L → Option (WakeLoop P K L)
| .wake ch rest ls => some (ch, rest, ls)
| _ => none

def Handler.locks : Handler P K L → List L
| .crit ls => ls
| .wake _ _ ls => ls

def Handler.loop : Handler P K L → Option (WakeLoop P K L)
| .crit _ => none
| .wake ch rest ls => some (ch, rest, ls)

namespace Kern

def locksOf (E : ProcTable P K L) (s : Kern C P K L) : Holder C P → List L
| .proc p => (s.pc p).locks E
| .intr c =>
    match (s.cpu c).intr with
    | some x => x.locks
    | none => []

def loopOf (s : Kern C P K L) :
    Holder C P → Option (WakeLoop P K L)
| .proc p => (s.pc p).loop
| .intr c =>
    match (s.cpu c).intr with
    | some x => x.loop
    | none => none

/-
  A process is asleep on a condition, or it has released the
  lock of the condition and is about to be.
-/
def Falls (s : Kern C P K L) (p : P) (k : K) : Prop :=
  (∃ ls, s.pc p = .sleepSet (.cond k) ls) ∨ ((s.proc p).state = .sleeping ∧
      (s.proc p).chan = some (.cond k))

end Kern

/-
  Locks are held by one holder each. Who goes to sleep found
  its condition false, and owes nobody a wakeup. While a
  process sleeps on a condition that is true, somebody holds
  the lock and has yet to get to this process.
-/
structure Heard (E : ProcTable P K L) (s : Kern C P K L) : Prop where
  held : ∀ h l, l ∈ s.locksOf E h → s.lock l = some h
  fresh : ∀ p k ls, s.pc p = .sleepLocked (.cond k) ls →
      s.cond k = false ∧ E.lk k ∉ ls ∧ ∀ k' ∈ s.owed, E.lk k' ≠ E.lk k
  owed : ∀ k ∈ s.owed, s.lock (E.lk k) ≠ none
  wakes : ∀ k p, s.cond k = true → s.Falls p k → k ∈ s.owed ∧ ∀ h rest ls,
          s.loopOf h = some (some (.cond k), rest, ls) →
          E.lk k ∈ ls → p ∈ rest

theorem Heard.start {E : ProcTable P K L} {s : Kern C P K L} (h : E.Start s) : Heard E s := by
  obtain ⟨hCpu, hPc, _, _, hUnused, hInit, _, hLock, hOwed⟩ := h
  have hAwake (p : P) (k : K) : ¬ s.Falls p k := by
    rintro (⟨ls, hSet⟩ | ⟨hAsleep, _⟩)
    · rw [hPc p] at hSet
      cases hSet
    by_cases hp : p = E.initproc
    · rw [hp, hInit] at hAsleep
      cases hAsleep
    · rw [hUnused p hp] at hAsleep
      cases hAsleep
  constructor
  · intro h l hl
    cases h with
    | proc p => simp [locksOf, hPc p, locks] at hl
    | intr c => simp [locksOf, hCpu c] at hl
  · intro p k ls hSleep
    rw [hPc p] at hSleep
    cases hSleep
  · intro k hk
    rw [hOwed] at hk
    cases hk
  · intro k p _ hFalls
    exact absurd hFalls (hAwake p k)

-------
-- Rules
-------

/-
  One holder goes on, with the locks `ls` and in the loop
  `lp` afterwards, and puts nobody to sleep on a condition
  that is true.
-/
structure Kern.Turns (E : ProcTable P K L) (s s' : Kern C P K L) (h₀ : Holder C P) (ls : List L)
    (lp : Option (WakeLoop P K L)) : Prop where
  locks : s'.locksOf E h₀ = ls
  loop : s'.loopOf h₀ = lp
  other : ∀ h, h ≠ h₀ →
    s'.locksOf E h = s.locksOf E h ∧ s'.loopOf h = s.loopOf h
  falls : ∀ q k, s.cond k = true → s'.Falls q k → s.Falls q k
  sleeps : ∀ q k ls, s'.pc q = .sleepLocked (.cond k) ls →
      s.pc q = .sleepLocked (.cond k) ls ∧ h₀ ≠ .proc q

/- Locks, conditions and the wakeups that are due stay. -/
structure Kern.Still (s s' : Kern C P K L) : Prop where
  lock : s'.lock = s.lock := by rfl
  cond : s'.cond = s.cond := by rfl
  owed : s'.owed = s.owed := by rfl

variable {E : ProcTable P K L} {s s' s₁ : Kern C P K L} {h₀ : Holder C P}
variable {ls ls' : List L} {lp : Option (WakeLoop P K L)} {ch : Option (Chan P K)}
variable {x' : ProcPc P K L} {v : Proc P K} {c : C} {p q : P} {k : K} {l : L}

/- Who is in a loop afterwards was in it before. -/
theorem Kern.Turns.loop_old (hTurns : s.Turns E s' h₀ ls none) {h : Holder C P} {w : WakeLoop P K L}
    (hLoop : s'.loopOf h = some w) : h ≠ h₀ ∧ s.loopOf h = some w := by
  have hNe : h ≠ h₀ := by
    intro hEq
    rw [hEq, hTurns.loop] at hLoop
    cases hLoop
  rw [(hTurns.other h hNe).2] at hLoop
  exact ⟨hNe, hLoop⟩

/- The locks of others are held as before. -/
theorem Heard.held_turns (h : Heard E s) (hTurns : s.Turns E s' h₀ ls lp)
    (hMine : ∀ l ∈ ls, s'.lock l = some h₀)
    (hLock : ∀ h l, h ≠ h₀ → s.lock l = some h → s'.lock l = some h) :
    ∀ h l, l ∈ s'.locksOf E h → s'.lock l = some h := by
  intro h' l hl
  by_cases hEq : h' = h₀
  · subst hEq
    rw [hTurns.locks] at hl
    exact hMine l hl
  · rw [(hTurns.other h' hEq).1] at hl
    exact hLock h' l hEq (h.held h' l hl)

/- The locks stay as they are. -/
theorem Heard.held_same (h : Heard E s) (hTurns : s.Turns E s' h₀ ls lp)
    (hSub : ∀ l ∈ ls, l ∈ s.locksOf E h₀) (hLock : s'.lock = s.lock) :
    ∀ h l, l ∈ s'.locksOf E h → s'.lock l = some h := by
  refine h.held_turns hTurns ?_ ?_
  · intro l hl
    rw [hLock]
    exact h.held h₀ l (hSub l hl)
  · intro h' l _ hl
    rw [hLock]
    exact hl

/- Who still sleeps, and does not in vain, is owed a wakeup. -/
theorem Heard.wakes_old (h : Heard E s) (hTurns : s.Turns E s' h₀ ls none)
    (hTrue : s.cond k = true) (hFalls : s'.Falls p k) :
    k ∈ s.owed ∧ ∀ h' rest ls', s'.loopOf h' = some (some (.cond k), rest, ls') →
      E.lk k ∈ ls' → p ∈ rest := by
  obtain ⟨hIn, hAll⟩ := h.wakes k p hTrue (hTurns.falls p k hTrue hFalls)
  refine ⟨hIn, ?_⟩
  intro h' rest ls' hLoop hHeld
  exact hAll h' rest ls' (hTurns.loop_old hLoop).2 hHeld

/- Nothing is made true, and no wakeup is done. -/
theorem Heard.silent (h : Heard E s) (hTurns : s.Turns E s' h₀ ls lp) (hStill : s.Still s')
    (hSub : ∀ l ∈ ls, l ∈ s.locksOf E h₀)
    (hLoop : ∀ k rest ls', lp = some (some (.cond k), rest, ls') →
        ∀ q, s'.Falls q k → q ∈ rest ∨ ∃ rest', s.loopOf h₀ = some (some (.cond k), rest', ls') ∧
            (q ∈ rest' → q ∈ rest)) : Heard E s' := by
  constructor
  · exact h.held_same hTurns hSub hStill.lock
  · intro p k ls' hSleep
    rw [hStill.cond, hStill.owed]
    exact h.fresh p k ls' (hTurns.sleeps p k ls' hSleep).1
  · rw [hStill.owed, hStill.lock]
    exact h.owed
  · intro k p hTrue hFalls
    rw [hStill.cond] at hTrue
    obtain ⟨hIn, hAll⟩ := h.wakes k p hTrue (hTurns.falls p k hTrue hFalls)
    rw [hStill.owed]
    refine ⟨hIn, ?_⟩
    intro h' rest ls' hLoop' hHeld
    by_cases hEq : h' = h₀
    · subst hEq
      rw [hTurns.loop] at hLoop'
      rcases hLoop k rest ls' hLoop' p hFalls with
        hRest | ⟨rest', hOld, hImp⟩
      · exact hRest
      · exact hImp (hAll h' rest' ls' hOld hHeld)
    · rw [(hTurns.other h' hEq).2] at hLoop'
      exact hAll h' rest ls' hLoop' hHeld

/- Who is in a loop holds the locks of the loop. -/
theorem Kern.locksOf_of_loopOf (s : Kern C P K L) {h : Holder C P} {rest : List P}
    (hLoop : s.loopOf h = some (ch, rest, ls)) : s.locksOf E h = ls := by
  cases h with
  | proc p =>
    change (s.pc p).loop = _ at hLoop
    change (s.pc p).locks E = ls
    cases hPc : s.pc p with
    | wake ch' rest' ls' =>
      rw [hPc] at hLoop
      cases hLoop
      rfl
    | _ =>
      rw [hPc] at hLoop
      cases hLoop
  | intr c =>
    unfold loopOf at hLoop
    unfold locksOf
    dsimp only at hLoop ⊢
    split at hLoop
    · next x hIntr =>
        cases x with
        | crit ls' => cases hLoop
        | wake ch' rest' ls' =>
          cases hLoop
          rfl
    · cases hLoop

/- A `wakeup` gets past a process that does not sleep then. -/
theorem Heard.turn (h : Heard E s) {rest : List P}
    (hLoop : s.loopOf h₀ = some (ch, q :: rest, ls))
    (hTurns : s.Turns E s' h₀ ls (some (ch, rest, ls)))
    (hAwake : ∀ k, ch = some (.cond k) → ¬ s'.Falls q k) (hStill : s.Still s') : Heard E s' := by
  refine h.silent hTurns hStill ?_ ?_
  · intro l hl
    rw [s.locksOf_of_loopOf hLoop]
    exact hl
  intro k rest' ls' hEq q' hFalls
  cases hEq
  refine .inr ⟨q :: rest, hLoop, ?_⟩
  intro hIn
  rcases mem_cons.mp hIn with rfl | hRest
  · exact absurd hFalls (hAwake k rfl)
  · exact hRest

/- The locks and the loop of a handler. -/
theorem Kern.locksOf_intr (s : Kern C P K L) {x : Handler P K L}
    (hIntr : (s.cpu c).intr = some x) :
    s.locksOf E (.intr c) = x.locks ∧ s.loopOf (.intr c) = x.loop := by
  unfold locksOf loopOf
  dsimp only
  rw [hIntr]
  exact ⟨rfl, rfl⟩

/- The process sleeps on the channel of `k`. -/
def Proc.AsleepOn (v : Proc P K) (k : K) : Prop := v.state = .sleeping ∧ v.chan = some (.cond k)

theorem Proc.asleepOn_of_kill (h : v.kill.AsleepOn k) : v.AsleepOn k := by
  obtain ⟨hState, hChan⟩ := h
  unfold Proc.kill at hState
  split at hState
  · cases hState
  · exact ⟨hState, hChan⟩

/- Only CPU `c` goes on, or its interrupt handler. -/
theorem Kern.turns_intr (hPc : s'.pc = s.pc)
    (hOther : ∀ c', c' ≠ c → (s'.cpu c').intr = (s.cpu c').intr)
    (hProc : ∀ q k, (s'.proc q).AsleepOn k → (s.proc q).AsleepOn k) :
    s.Turns E s' (.intr c) (s'.locksOf E (.intr c)) (s'.loopOf (.intr c)) := by
  constructor
  · rfl
  · rfl
  · intro h hNe
    cases h with
    | proc q =>
      unfold locksOf loopOf
      rw [hPc]
      exact ⟨rfl, rfl⟩
    | intr c' =>
      have hc : c' ≠ c := fun hEq => hNe (by rw [hEq])
      unfold locksOf loopOf
      dsimp only
      rw [hOther c' hc]
      exact ⟨rfl, rfl⟩
  · rintro q k _ (⟨ls, hSet⟩ | hAsleep)
    · rw [hPc] at hSet
      exact .inl ⟨ls, hSet⟩
    · exact .inr (hProc q k hAsleep)
  · intro q k ls hSleep
    rw [hPc] at hSleep
    exact ⟨hSleep, by simp⟩

/- A CPU goes on without a lock or a loop of its own. -/
theorem Heard.cpu (h : Heard E s) (hPc : s'.pc = s.pc)
    (hOther : ∀ c', c' ≠ c → (s'.cpu c').intr = (s.cpu c').intr)
    (hProc : ∀ q k, (s'.proc q).AsleepOn k → (s.proc q).AsleepOn k)
    (hSelf : (s'.cpu c).intr = (s.cpu c).intr ∨ (s'.cpu c).intr = some (.crit []) ∨
        (s'.cpu c).intr = none)
    (hStill : s.Still s') : Heard E s' := by
  have hTurns : s.Turns E s' (.intr c) (s'.locksOf E (.intr c)) (s'.loopOf (.intr c)) :=
    turns_intr hPc hOther hProc
  refine h.silent hTurns hStill ?_ ?_
  · intro l hl
    unfold locksOf at hl ⊢
    dsimp only at hl ⊢
    rcases hSelf with hSame | hCrit | hNone
    · rw [hSame] at hl
      exact hl
    · rw [hCrit] at hl
      cases hl
    · rw [hNone] at hl
      cases hl
  · intro k rest ls hLoop q _
    refine .inr ⟨rest, ?_, fun hIn => hIn⟩
    unfold loopOf at hLoop ⊢
    dsimp only at hLoop ⊢
    rcases hSelf with hSame | hCrit | hNone
    · rw [hSame] at hLoop
      exact hLoop
    · rw [hCrit] at hLoop
      cases hLoop
    · rw [hNone] at hLoop
      cases hLoop

/- A place where no lock of kernel code is held. -/
def ProcPc.calm : ProcPc P K L → Bool
| .crit _ => false
| .wake _ _ _ => false
| .sleepLocked _ _ => false
| .sleepSet _ _ => false
| _ => true

theorem ProcPc.calm_locks {E : ProcTable P K L} {x : ProcPc P K L} (h : x.calm = true) :
    x.locks E = [] := by
  cases x with
  | crit | wake | sleepLocked | sleepSet => cases h
  | _ => rfl

theorem ProcPc.calm_loop {x : ProcPc P K L} (h : x.calm = true) : x.loop = none := by
  cases x with
  | wake ch rest ls => cases h
  | _ => rfl

-------
-- Locks and Conditions
-------

section Client

variable [DecidableEq L]

theorem Heard.acquire (h : Heard E s) (hNew : l ∉ ls) (hFree : s.lock l = none)
    (hMine : s.locksOf E h₀ = ls) (hTurns : s.Turns E s' h₀ (l :: ls) none)
    (hLock : s'.lock = update s.lock l (some h₀)) (hCond : s'.cond = s.cond)
    (hOwed : s'.owed = s.owed) : Heard E s' := by
  have hOld {l' : L} (hl : l' ≠ l) : s'.lock l' = s.lock l' := by
    rw [hLock]
    exact update_of_ne hl ..
  constructor
  · refine h.held_turns hTurns ?_ ?_
    · intro l' hl'
      rcases mem_cons.mp hl' with rfl | hIn
      · rw [hLock]
        exact update_self ..
      · rw [hOld (fun hEq => hNew (hEq ▸ hIn))]
        apply h.held h₀ l'
        rw [hMine]
        exact hIn
    · intro h' l' _ hl'
      rw [hOld]
      · exact hl'
      · rintro rfl
        rw [hFree] at hl'
        cases hl'
  · intro p k ls'' hSleep
    rw [hCond, hOwed]
    exact h.fresh p k ls'' (hTurns.sleeps p k ls'' hSleep).1
  · intro k hk
    rw [hOwed] at hk
    by_cases hl : E.lk k = l
    · rw [hl, hLock]
      simp
    · rw [hOld hl]
      exact h.owed k hk
  · intro k p hTrue hFalls
    rw [hCond] at hTrue
    rw [hOwed]
    exact h.wakes_old hTurns hTrue hFalls

theorem Heard.release (h : Heard E s) (hIn : l ∈ s.locksOf E h₀)
    (hSettled : ∀ k ∈ s.owed, E.lk k ≠ l) (hSub : ∀ l' ∈ ls', l' ≠ l ∧ l' ∈ s.locksOf E h₀)
    (hTurns : s.Turns E s' h₀ ls' none) (hLock : s'.lock = update s.lock l none)
    (hCond : s'.cond = s.cond) (hOwed : s'.owed = s.owed) : Heard E s' := by
  have hOld {l' : L} (hl : l' ≠ l) : s'.lock l' = s.lock l' := by
    rw [hLock]
    exact update_of_ne hl ..
  constructor
  · refine h.held_turns hTurns ?_ ?_
    · intro l' hl'
      rw [hOld (hSub l' hl').1]
      exact h.held h₀ l' (hSub l' hl').2
    intro h' l' hNe hl'
    rw [hOld]
    · exact hl'
    · rintro rfl
      rw [h.held h₀ l' hIn] at hl'
      exact hNe (Option.some.inj hl').symm
  · intro p k ls'' hSleep
    rw [hCond, hOwed]
    exact h.fresh p k ls'' (hTurns.sleeps p k ls'' hSleep).1
  · intro k hk
    rw [hOwed] at hk
    rw [hOld (hSettled k hk)]
    exact h.owed k hk
  · intro k p hTrue hFalls
    rw [hCond] at hTrue
    rw [hOwed]
    exact h.wakes_old hTurns hTrue hFalls

end Client

section Client

variable [DecidableEq K]

/- Only the holder of the lock makes a condition true. -/
theorem Heard.set (h : Heard E s) (hHeld : E.lk k ∈ s.locksOf E h₀)
    (hTurns : s.Turns E s' h₀ (s.locksOf E h₀) none) (hLock : s'.lock = s.lock)
    (hCond : s'.cond = update s.cond k true)
    (hOwed : s'.owed =
        if s.cond k = true then s.owed else k :: s.owed) : Heard E s' := by
  have hMine := h.held h₀ _ hHeld
  have hMore {k' : K} (hk : k' ∈ s.owed) : k' ∈ s'.owed := by
    rw [hOwed]
    split
    · exact hk
    · exact mem_cons_of_mem k hk
  have hLess {k' : K} (hk : k' ∈ s'.owed) : k' ∈ s.owed ∨ k' = k := by
    rw [hOwed] at hk
    split at hk
    · exact .inl hk
    · exact (mem_cons.mp hk).symm
  constructor
  · exact h.held_same hTurns (fun _ hl => hl) hLock
  · intro p k' ls'' hSleep
    obtain ⟨hPc, hNot⟩ := hTurns.sleeps p k' ls'' hSleep
    obtain ⟨hFalse, hFree, hNone⟩ := h.fresh p k' ls'' hPc
    -- the sleeper has the lock of its own condition
    have hOther : E.lk k ≠ E.lk k' := by
      intro hEq
      have hTheirs : s.lock (E.lk k') = some (.proc p) := by
        apply h.held (.proc p)
        change E.lk k' ∈ (s.pc p).locks E
        rw [hPc]
        exact mem_cons_self
      rw [← hEq, hMine] at hTheirs
      exact hNot (Option.some.inj hTheirs)
    refine ⟨?_, hFree, ?_⟩
    · rw [hCond, update_of_ne]
      · exact hFalse
      · rintro rfl
        exact hOther rfl
    · intro k'' hk''
      rcases hLess hk'' with hOld | rfl
      · exact hNone k'' hOld
      · exact hOther
  · intro k' hk'
    rw [hLock]
    rcases hLess hk' with hOld | rfl
    · exact h.owed k' hOld
    · rw [hMine]
      simp
  · intro k' p hTrue hFalls
    by_cases hOld : s.cond k' = true
    · obtain ⟨hIn, hAll⟩ := h.wakes_old hTurns hOld hFalls
      exact ⟨hMore hIn, hAll⟩
    have hk : k' = k := by
      by_contra hNe
      rw [hCond, update_of_ne hNe] at hTrue
      exact hOld hTrue
    subst hk
    refine ⟨?_, ?_⟩
    · rw [hOwed, if_neg hOld]
      exact mem_cons_self
    -- others in such a loop would have the lock, too
    intro h' rest ls'' hLoop hLk
    obtain ⟨hNe, hLoop⟩ := hTurns.loop_old hLoop
    have hTheirs : s.lock (E.lk k') = some h' := by
      apply h.held
      rw [s.locksOf_of_loopOf hLoop]
      exact hLk
    rw [hMine] at hTheirs
    exact absurd (Option.some.inj hTheirs).symm hNe

theorem Heard.unset (h : Heard E s) (hTurns : s.Turns E s' h₀ (s.locksOf E h₀) none)
    (hLock : s'.lock = s.lock) (hCond : s'.cond = update s.cond k false)
    (hOwed : s'.owed = s.owed) : Heard E s' := by
  have hOld {k' : K} (hTrue : s'.cond k' = true) : s.cond k' = true := by
    rw [hCond] at hTrue
    by_cases hk : k' = k
    · rw [hk, update_self] at hTrue
      cases hTrue
    · rw [update_of_ne hk] at hTrue
      exact hTrue
  constructor
  · exact h.held_same hTurns (fun _ hl => hl) hLock
  · intro p k' ls'' hSleep
    obtain ⟨hFalse, hRest⟩ := h.fresh p k' ls'' (hTurns.sleeps p k' ls'' hSleep).1
    rw [hOwed]
    refine ⟨?_, hRest⟩
    cases hTrue : s'.cond k' with
    | false => rfl
    | true =>
      rw [hOld hTrue] at hFalse
      cases hFalse
  · rw [hOwed, hLock]
    exact h.owed
  · intro k' p hTrue hFalls
    rw [hOwed]
    exact h.wakes_old hTurns (hOld hTrue) hFalls

variable [DecidableEq L]

/- Kernel code of any holder. -/
theorem Heard.client (h : Heard E s) {o : ClientOp K L}
    (hClient : E.client s h₀ ls o = .next (s₁, ls'))
    (hMine : s.locksOf E h₀ = ls) (hTurns : s.Turns E s' h₀ ls' none)
    (hLock : s'.lock = s₁.lock) (hCond : s'.cond = s₁.cond)
    (hOwed : s'.owed = s₁.owed) : Heard E s' := by
  cases o with
  | acquire l =>
    rw [ProcTable.client] at hClient
    split at hClient
    · cases hClient
    next hNew =>
      split at hClient
      · next hFree =>
          cases hClient
          exact h.acquire hNew hFree hMine hTurns hLock hCond hOwed
      · cases hClient
  | release l =>
    rw [ProcTable.client] at hClient
    split at hClient
    · cases hClient
    next hIn =>
      split at hClient
      · cases hClient
      next hSettled =>
        cases hClient
        refine h.release ?_ ?_ ?_ hTurns hLock hCond hOwed
        · rw [hMine]
          exact not_not.mp hIn
        · intro k hk hEq
          exact hSettled ⟨k, hk, hEq⟩
        · intro l' hl'
          obtain ⟨hIn', hNe⟩ := mem_filter.mp hl'
          rw [hMine]
          exact ⟨by simpa using hNe, hIn'⟩
  | set k b =>
    cases b with
    | true =>
      rw [ProcTable.client] at hClient
      split at hClient
      · next hHeld =>
          cases hClient
          rw [← hMine] at hTurns hHeld
          exact h.set hHeld hTurns hLock hCond hOwed
      · cases hClient
    | false =>
      cases hClient
      rw [← hMine] at hTurns
      exact h.unset hTurns hLock hCond hOwed

end Client

-------
-- Steps
-------

section Handler

variable [DecidableEq C]

/- The interrupt handlers stay where they are. -/
theorem Kern.intr_setCpu {v : Cpu P K L} (hv : v.intr = (s.cpu c).intr) (c' : C) :
    ((s.setCpu c v).cpu c').intr = (s.cpu c').intr := by
  by_cases hc : c' = c
  · rw [hc, setCpu_self, hv]
  · rw [setCpu_other s _ hc]

/- The handler of `c` is then at `x`. -/
theorem Kern.turns_handler (x : Handler P K L) {v : Cpu P K L}
    (hPc : s₁.pc = s.pc) (hCpu : s₁.cpu = s.cpu) (hIntr : v.intr = some x)
    (hProc : ∀ q k, (s₁.proc q).AsleepOn k → (s.proc q).AsleepOn k) :
    s.Turns E (s₁.setCpu c v) (.intr c) x.locks x.loop := by
  have hTurns : s.Turns E (s₁.setCpu c v) (.intr c) _ _ :=
    turns_intr hPc (fun c' hc => by rw [setCpu_other _ _ hc, hCpu]) hProc
  have hNew := locksOf_intr (E := E) (s₁.setCpu c v)
    ((congrArg Cpu.intr (setCpu_self ..)).trans hIntr)
  rw [hNew.1, hNew.2] at hTurns
  exact hTurns

end Handler

variable [DecidableEq P]

/- The process `p` moves on and does not start to sleep. -/
theorem Kern.falls_of (h : s'.Falls q k) (x' : ProcPc P K L)
    (hPc' : s'.pc = update s.pc p x') (hNot : ∀ ls, x' ≠ .sleepSet (.cond k) ls)
    (hProc : (s'.proc q).AsleepOn k → s.Falls q k) : s.Falls q k := by
  rcases h with ⟨ls, hSet⟩ | hAsleep
  · rw [hPc'] at hSet
    by_cases hq : q = p
    · rw [hq, update_self] at hSet
      exact absurd hSet (hNot ls)
    · rw [update_of_ne hq] at hSet
      exact .inl ⟨ls, hSet⟩
  · exact hProc hAsleep

theorem Kern.asleepOn_setProc (h : ((s.setProc p v).proc q).AsleepOn k)
    (hv : v.AsleepOn k → (s.proc p).AsleepOn k) : (s.proc q).AsleepOn k := by
  by_cases hq : q = p
  · subst hq
    rw [setProc_self] at h
    exact hv h
  · rwa [setProc_other _ _ hq] at h

/- Only the process `p` goes on. -/
theorem Kern.turns_pc (x' : ProcPc P K L) (hPc' : s'.pc = update s.pc p x')
    (hIntr : ∀ c, (s'.cpu c).intr = (s.cpu c).intr) (hNot : ∀ k ls, x' ≠ .sleepLocked (.cond k) ls)
    (hFalls : ∀ q k, s.cond k = true → s'.Falls q k → s.Falls q k) :
    s.Turns E s' (.proc p) (x'.locks E) x'.loop := by
  have hSelf : s'.pc p = x' := by
    rw [hPc']
    exact update_self ..
  have hOther {q : P} (hq : q ≠ p) : s'.pc q = s.pc q := by
    rw [hPc']
    exact update_of_ne hq ..
  constructor
  · exact congrArg (locks E) hSelf
  · exact congrArg loop hSelf
  · intro h hNe
    cases h with
    | proc q =>
      have hq : q ≠ p := fun hEq => hNe (by rw [hEq])
      exact ⟨congrArg (locks E) (hOther hq), congrArg loop (hOther hq)⟩
    | intr c =>
      unfold locksOf loopOf
      dsimp only
      rw [hIntr c]
      exact ⟨rfl, rfl⟩
  · exact hFalls
  · intro q k ls hSleep
    by_cases hq : q = p
    · subst hq
      rw [hSelf] at hSleep
      exact absurd hSleep (hNot k ls)
    · rw [hOther hq] at hSleep
      exact ⟨hSleep, fun hEq => hq (by cases hEq; rfl)⟩

/- It goes to a place where it does not start to sleep. -/
theorem Kern.turns_awake (x' : ProcPc P K L) (hPc' : s'.pc = update s.pc p x')
    (hIntr : ∀ c, (s'.cpu c).intr = (s.cpu c).intr) (hNot : ∀ k ls, x' ≠ .sleepLocked (.cond k) ls)
    (hNot' : ∀ k ls, x' ≠ .sleepSet (.cond k) ls)
    (hProc : ∀ q k, (s'.proc q).AsleepOn k → (s.proc q).AsleepOn k) :
    s.Turns E s' (.proc p) (x'.locks E) x'.loop :=
  turns_pc x' hPc' hIntr hNot (fun q k _ hFalls =>
    falls_of hFalls x' hPc' (hNot' k) (fun hAsleep => .inr (hProc q k hAsleep)))

/- The process `p` goes to a place without locks. -/
theorem Heard.calm (h : Heard E s) (hPc' : s'.pc = update s.pc p x') (hCalm : x'.calm = true)
    (hIntr : ∀ c, (s'.cpu c).intr = (s.cpu c).intr)
    (hProc : ∀ q k, (s'.proc q).AsleepOn k → s.Falls q k)
    (hStill : s.Still s') : Heard E s' := by
  have hTurns : s.Turns E s' (.proc p) (x'.locks E) x'.loop := by
    refine turns_pc x' hPc' hIntr ?_ ?_
    · rintro k ls rfl
      cases hCalm
    · intro q k _ hFalls
      refine falls_of hFalls x' hPc' ?_ (hProc q k)
      rintro ls rfl
      cases hCalm
  rw [calm_locks hCalm, calm_loop hCalm] at hTurns
  exact h.silent hTurns hStill (by simp) (by simp)

/- Moving on and changing nothing. -/
theorem Heard.quiet (h : Heard E s) (hQuiet : QuietMove E s p (s.pc p) x') :
    Heard E (s.setPc p x') := by
  generalize hPc : s.pc p = x at hQuiet
  cases hQuiet with
  | enter r out =>
    have hTurns : s.Turns E (s.setPc p (.crit [])) (.proc p) [] none :=
      turns_awake (.crit []) rfl (fun _ => rfl) (by simp) (by simp) (fun _ _ => id)
    exact h.silent hTurns { } (by simp) (by simp)
  | wakeup ch ls =>
    have hTurns : s.Turns E (s.setPc p (.wake ch E.procs ls)) (.proc p)
          ls (some (ch, E.procs, ls)) :=
      turns_awake (.wake ch E.procs ls) rfl (fun _ => rfl) (by simp) (by simp) (fun _ _ => id)
    refine h.silent hTurns { } ?_ ?_
    · intro l hl
      change l ∈ (s.pc p).locks E
      rw [hPc]
      exact hl
    · intro k rest ls' hEq q _
      cases hEq
      exact .inl (E.mem_procs q)
  | _ =>
    exact h.calm rfl rfl (fun _ => rfl) (fun _ _ => .inr) { }

/- A turn of a loop that the process itself is in. -/
theorem Heard.wakeTurn (h : Heard E s)
    (hTurn : WakeTurn E s p ch q (s.pc p) x') (hPc' : s'.pc = update s.pc p x')
    (hCpu : s'.cpu = s.cpu) (hProc : ∀ q' k, (s'.proc q').AsleepOn k → (s.proc q').AsleepOn k)
    (hAwake : ∀ k, ch = some (.cond k) → ¬ s'.Falls q k) (hStill : s.Still s') : Heard E s' := by
  have hIntr (c : C) : (s'.cpu c).intr = (s.cpu c).intr := by rw [hCpu]
  generalize hPc : s.pc p = x at hTurn
  cases hTurn with
  | wake ch q rest ls =>
    have hTurns : s.Turns E s' (.proc p) ls (some (ch, rest, ls)) :=
      turns_awake (.wake ch rest ls) hPc' hIntr (by simp) (by simp) hProc
    refine h.turn ?_ hTurns hAwake hStill
    change (s.pc p).loop = _
    rw [hPc]
    rfl
  | reparentWake status rest q ws | wakeParent status q ws =>
    exact h.calm hPc' rfl hIntr (fun q k hAsleep => .inr (hProc q k hAsleep)) hStill

variable [DecidableEq L]

/- `sleep` takes `p->lock` while it holds `lk`. -/
theorem Heard.sleep (h : Heard E s) (hPc : s.pc p = .crit ls) (hHeld : E.lk k ∈ ls)
    (hCond : s.cond k = false) (hOwed : ∀ k' ∈ s.owed, E.lk k' ≠ E.lk k) (c : C) :
    Heard E ((s.setPlock p (some c)).setPc p (.sleepLocked (.cond k)
          (ls.filter (· ≠ E.lk k)))) := by
  constructor
  · intro h' l hl
    apply h.held h' l
    cases h' with
    | intr c => exact hl
    | proc q =>
      change l ∈ (s.pc q).locks E
      change l ∈ (pc (setPc _ p _) q).locks E at hl
      by_cases hq : q = p
      · subst hq
        rw [setPc_self] at hl
        rw [hPc]
        rcases mem_cons.mp hl with rfl | hIn
        · exact hHeld
        · exact (mem_filter.mp hIn).1
      · rwa [setPc_other _ _ hq] at hl
  · intro q k' ls' hSleep
    by_cases hq : q = p
    · subst hq
      rw [setPc_self] at hSleep
      cases hSleep
      refine ⟨hCond, ?_, hOwed⟩
      intro hIn
      simpa using (mem_filter.mp hIn).2
    · rw [setPc_other _ _ hq] at hSleep
      exact h.fresh q k' ls' hSleep
  · exact h.owed
  · intro k' q hTrue hFalls
    have hOld : s.Falls q k' := falls_of hFalls _ rfl (by simp) .inr
    obtain ⟨hIn, hAll⟩ := h.wakes k' q hTrue hOld
    refine ⟨hIn, ?_⟩
    intro h' rest ls' hLoop hLk
    refine hAll h' rest ls' ?_ hLk
    cases h' with
    | intr c => exact hLoop
    | proc q' =>
      change (pc (setPc _ p _) q').loop = _ at hLoop
      by_cases hq : q' = p
      · subst hq
        rw [setPc_self] at hLoop
        cases hLoop
      · rwa [setPc_other _ _ hq] at hLoop

/- `sleep` releases `lk`: the condition is still false. -/
theorem Heard.sleepRelease (h : Heard E s) (hPc : s.pc p = .sleepLocked (.cond k) ls) :
    Heard E ((s.setLock (E.lk k) none).setPc p (.sleepSet (.cond k) ls)) := by
  obtain ⟨hFalse, hNot, hSettled⟩ := h.fresh p k ls hPc
  have hMine : s.locksOf E (.proc p) = E.lk k :: ls := by
    change (s.pc p).locks E = _
    rw [hPc]
    rfl
  have hTurns : s.Turns E ((s.setLock (E.lk k) none).setPc p
          (.sleepSet (.cond k) ls)) (.proc p) ls none := by
    refine turns_pc (.sleepSet (.cond k) ls) rfl (fun _ => rfl) (by simp) ?_
    rintro q k' hTrue (⟨ls', hSet⟩ | hAsleep)
    · by_cases hq : q = p
      · subst hq
        rw [setPc_self] at hSet
        cases hSet
        rw [hFalse] at hTrue
        cases hTrue
      · rw [setPc_other _ _ hq] at hSet
        exact .inl ⟨ls', hSet⟩
    · exact .inr hAsleep
  refine h.release ?_ hSettled ?_ hTurns rfl rfl rfl
  · rw [hMine]
    exact mem_cons_self
  intro l hl
  rw [hMine]
  refine ⟨?_, mem_cons_of_mem _ hl⟩
  rintro rfl
  exact hNot hl

/- The end of `sleep`. -/
theorem Heard.relock (h : Heard E s) (hPc : s.pc p = .task (.relock (.cond k)))
    (hFree : s.lock (E.lk k) = none) :
    Heard E ((s.setLock (E.lk k) (some (.proc p))).setPc p (.crit [E.lk k])) := by
  have hTurns : s.Turns E ((s.setLock (E.lk k) (some (.proc p))).setPc p
          (.crit [E.lk k])) (.proc p) [E.lk k] none :=
    turns_awake (.crit [E.lk k]) rfl (fun _ => rfl) (by simp) (by simp) (fun _ _ => id)
  refine h.acquire not_mem_nil hFree ?_ hTurns rfl rfl rfl
  change (s.pc p).locks E = []
  rw [hPc]
  rfl

variable [DecidableEq K]

/- A `wakeup` is over: nobody it had to wake still sleeps. -/
theorem Heard.settle (h : Heard E s)
    (hLoop : s.loopOf h₀ = some (ch, [], ls))
    (hSub : ∀ l ∈ ls, l ∈ s.locksOf E h₀) (hTurns : s.Turns E s' h₀ ls none)
    (hLock : s'.lock = s.lock) (hCond : s'.cond = s.cond)
    (hOwed : s'.owed = (E.settle s ch ls).owed) : Heard E s' := by
  have hLess {k : K} (hk : k ∈ s'.owed) : k ∈ s.owed := by
    rw [hOwed] at hk
    exact (mem_filter.mp hk).1
  constructor
  · exact h.held_same hTurns hSub hLock
  · intro p k ls' hSleep
    rw [hCond]
    obtain ⟨hFalse, hNot, hNone⟩ := h.fresh p k ls' (hTurns.sleeps p k ls' hSleep).1
    exact ⟨hFalse, hNot, fun k' hk' => hNone k' (hLess hk')⟩
  · intro k hk
    rw [hLock]
    exact h.owed k (hLess hk)
  · intro k p hTrue hFalls
    rw [hCond] at hTrue
    obtain ⟨hIn, hAll⟩ := h.wakes k p hTrue (hTurns.falls p k hTrue hFalls)
    refine ⟨?_, (h.wakes_old hTurns hTrue hFalls).2⟩
    rw [hOwed]
    refine mem_filter.mpr ⟨hIn, ?_⟩
    simp only [decide_not, Bool.not_eq_true', decide_eq_false_iff_not]
    rintro ⟨rfl, hHeld⟩
    exact absurd (hAll h₀ [] ls hLoop hHeld) not_mem_nil

theorem Proc.not_asleepOn_wakeup (v : Proc P K) (k : K) :
    ¬ (v.wakeup (some (.cond k))).AsleepOn k := by
  unfold Proc.wakeup
  split
  · rintro ⟨hState, _⟩
    cases hState
  · next hAwake => exact hAwake

theorem Proc.asleepOn_of_wakeup (v : Proc P K)
    (h : (v.wakeup ch).AsleepOn k) : v.AsleepOn k := by
  unfold Proc.wakeup at h
  split at h
  · cases h.1
  · exact h

omit [DecidableEq L] in
/- A turn of `wakeup` leaves a process awake. -/
theorem Placed.awake_of_turn (h : Placed s) (hFree : s.plock q = none)
    (hPc : s'.pc q = s.pc q)
    (hProc : s'.proc q = (s.proc q).wakeup (some (.cond k))) : ¬ s'.Falls q k := by
  rintro (⟨ls, hSet⟩ | hAsleep)
  · have hOwn := h.own_of_free hFree
    rw [← hPc, hSet] at hOwn
    cases hOwn
  · rw [hProc] at hAsleep
    exact Proc.not_asleepOn_wakeup _ k hAsleep

-------
-- Steps of the Machine
-------

variable [DecidableEq C]

theorem Heard.procStep (h : Heard E s) (hPlaced : Placed s) (hMode : (s.cpu c).mode = .on p)
    (hStep : ProcStep E s p c (s.pc p) s') : Heard E s' := by
  have hRunning (hOwn : (s.pc p).own = false) : (s.proc p).state = .running :=
    hPlaced.running hMode hOwn
  -- a record that is not `SLEEPING` afterwards
  have hWakes {s₁ : Kern C P K L} (hEq : s₁.proc = s.proc)
      {q : P} {v : Proc P K} (hv : v.state ≠ .sleeping)
      (q' : P) (k : K)
      (hAsleep : ((s₁.setProc q v).proc q').AsleepOn k) :
      s.Falls q' k := by
    have hOld : (s₁.proc q').AsleepOn k :=
      asleepOn_setProc hAsleep (fun hBad => absurd hBad.1 hv)
    rw [hEq] at hOld
    exact .inr hOld
  generalize hPc : s.pc p = x at hStep
  cases hStep with
  | quiet x' hQuiet =>
    rw [← hPc] at hQuiet
    exact h.quiet hQuiet
  | client o ls ls' s₁ hClient =>
    have hAlike := (ProcTable.client_alike hClient).1
    have hPc' : (s₁.setPc p (.crit ls')).pc = update s.pc p (.crit ls') := by
      rw [← hAlike.pc]
      rfl
    have hTurns : s.Turns E (s₁.setPc p (.crit ls')) (.proc p) ls'
          none := by
      refine turns_awake (.crit ls') hPc' ?_ (by simp) (by simp) ?_
      · intro c'
        change (s₁.cpu c').intr = _
        rw [hAlike.cpu]
      · intro q k hAsleep
        change (s₁.proc q).AsleepOn k at hAsleep
        rwa [hAlike.proc] at hAsleep
    refine h.client hClient ?_ hTurns rfl rfl rfl
    change (s.pc p).locks E = ls
    rw [hPc]
    rfl
  | skip ch x' hTurn =>
    have hOwn := hTurn.own.1
    rw [← hPc] at hTurn hOwn
    refine h.wakeTurn hTurn rfl rfl (fun _ _ hOld => hOld) ?_ { }
    rintro k _ (⟨ls, hSet⟩ | hAsleep)
    · have hOwn' := hTurn.own.2
      rw [setPc_self] at hSet
      rw [hSet] at hOwn'
      cases hOwn'
    · have hRun := hRunning hOwn
      exact absurd (hRun.symm.trans hAsleep.1) (by simp)
  | turn ch q x' hTurn hq hFree =>
    rw [← hPc] at hTurn
    refine h.wakeTurn hTurn rfl rfl (fun _ _ hAsleep => asleepOn_setProc hAsleep
        (Proc.asleepOn_of_wakeup _)) ?_ { }
    rintro k rfl
    exact hPlaced.awake_of_turn hFree (setPc_other _ _ hq) (setProc_self ..)
  | woken ch ls =>
    have hTurns : s.Turns E ((E.settle s ch ls).setPc p (.crit ls)) (.proc p) ls none :=
      turns_awake (.crit ls) rfl (fun _ => rfl) (by simp) (by simp) (fun _ _ => id)
    have hLoop : s.loopOf (.proc p) = some (ch, [], ls) := by
      change (s.pc p).loop = _
      rw [hPc]
      rfl
    refine h.settle hLoop ?_ hTurns rfl rfl rfl
    intro l hl
    rw [s.locksOf_of_loopOf hLoop]
    exact hl
  | kill pid q rest hFree =>
    exact h.calm rfl rfl (fun _ => rfl) (fun _ _ hAsleep => .inr (asleepOn_setProc hAsleep
        Proc.asleepOn_of_kill))
      { }
  | alloc q rest hFree hUnused =>
    -- first the new process, then the one that forks
    have hNew : Heard E (({ s with nextpid := s.nextpid + 1 }.setProc q
            { s.proc q with
              pid := s.nextpid
              state := .used }).setPc q (.away .forkret)) :=
      h.calm rfl rfl (fun _ => rfl) (hWakes rfl (by simp)) { }
    exact hNew.calm rfl rfl (fun _ => rfl) (fun _ _ => .inr) { }
  | allocFail | reap =>
    exact h.calm rfl rfl (fun _ => rfl) (hWakes rfl (by rintro ⟨⟩)) { }
  | forkParent | reparent =>
    exact h.calm rfl rfl (fun _ => rfl) (fun _ _ hAsleep => .inr (asleepOn_setProc hAsleep
        (fun hOld => hOld)))
      { }
  | forkRun | yielded | zombie =>
    exact h.calm rfl rfl (fun _ => rfl) (hWakes rfl (by simp)) { }
  | sleep k ls hHeld hCond hOwed hFree => exact h.sleep hPc hHeld hCond hOwed c
  | waitSleep addr hFree =>
    have hTurns : s.Turns E ((s.setPlock p (some c)).setPc p
            (.sleepLocked (.wait addr) [])) (.proc p) []
          none :=
      turns_awake (.sleepLocked (.wait addr) []) rfl (fun _ => rfl) (by simp) (by simp)
        (fun _ _ => id)
    exact h.silent hTurns { } (by simp) (by simp)
  | sleepRelease k ls => exact h.sleepRelease hPc
  | waitRelease addr ls =>
    have hTurns : s.Turns E ((s.setWaitLock none).setPc p
            (.sleepSet (.wait addr) ls)) (.proc p) ls none :=
      turns_awake (.sleepSet (.wait addr) ls) rfl (fun _ => rfl) (by simp) (by simp)
        (fun _ _ => id)
    refine h.silent hTurns { } ?_ (by simp)
    intro l hl
    change l ∈ (s.pc p).locks E
    rw [hPc]
    exact hl
  | asleep w =>
    refine h.calm rfl rfl (fun _ => rfl) ?_ { }
    intro q k hAsleep
    change ((s.setProc p _).proc q).AsleepOn k at hAsleep
    by_cases hq : q = p
    · subst hq
      rw [setProc_self] at hAsleep
      cases w with
      | cond k' =>
        cases hAsleep.2
        exact .inl ⟨[], hPc⟩
      | wait addr => cases hAsleep.2
    · rw [setProc_other _ _ hq] at hAsleep
      exact .inr hAsleep
  | relock k hFree => exact h.relock hPc hFree
  | sched r hHeld =>
    exact h.calm rfl rfl (intr_setCpu rfl) (fun _ _ => .inr) { }
  | backSleep w =>
    refine h.calm rfl rfl (fun _ => rfl) ?_ { }
    intro q k hAsleep
    refine .inr (asleepOn_setProc hAsleep ?_)
    intro hBad
    cases hBad.2
  | _ =>
    exact h.calm rfl rfl (fun _ => rfl) (fun _ _ => .inr) { }

theorem Heard.handlerStep (h : Heard E s) (hPlaced : Placed s) {x : Handler P K L}
    (hIntr : (s.cpu c).intr = some x) (hStep : HandlerStep E s c x s') : Heard E s' := by
  have hOld := s.locksOf_intr (E := E) hIntr
  cases hStep with
  | client o ls ls' s₁ hClient =>
    have hAlike := (ProcTable.client_alike hClient).1
    refine h.client hClient hOld.1 (turns_handler (.crit ls') hAlike.pc hAlike.cpu rfl ?_)
      rfl rfl rfl
    intro q k hAsleep
    rwa [hAlike.proc] at hAsleep
  | wakeup ch ls =>
    refine h.silent (turns_handler (.wake ch E.procs ls) rfl rfl rfl (fun _ _ => id))
      { } ?_ ?_
    · intro l hl
      rw [hOld.1]
      exact hl
    · intro k rest ls' hEq q _
      cases hEq
      exact .inl (E.mem_procs q)
  | skip ch q rest ls hSelf =>
    refine h.turn hOld.2 (turns_handler (.wake ch rest ls) rfl rfl rfl (fun _ _ => id))
      ?_ { }
    -- the interrupted process runs
    intro k _ hFalls
    have hOpen : s.Open c := by
      apply hPlaced.intr c
      rw [hIntr]
      simp
    rcases hOpen with hIdle | ⟨p, t, hMode, hTask⟩
    · have hCpu := hPlaced.cpu c
      rw [hIdle] at hCpu
      exact absurd (hSelf.symm.trans hCpu) (by simp)
    have hp : q = p :=
      Option.some.inj (hSelf.symm.trans (hPlaced.on hMode).1)
    subst hp
    rcases hFalls with ⟨ls', hSet⟩ | hAsleep
    · exact absurd (hTask.symm.trans hSet) (by simp)
    · have hRun := hPlaced.running hMode (by rw [hTask]; rfl)
      exact absurd (hRun.symm.trans hAsleep.1) (by simp)
  | turn ch q rest ls hFree =>
    refine h.turn hOld.2 (turns_handler (.wake ch rest ls) rfl rfl rfl (fun _ _ hAsleep =>
      asleepOn_setProc hAsleep (Proc.asleepOn_of_wakeup _))) ?_ { }
    rintro k rfl
    exact hPlaced.awake_of_turn hFree rfl (setProc_self ..)
  | woken ch ls =>
    refine h.settle hOld.2 ?_ (turns_handler (.crit ls) rfl rfl rfl (fun _ _ => id))
      rfl rfl rfl
    intro l hl
    rw [hOld.1]
    exact hl

/- Every step keeps the promise of a wakeup. -/
theorem Heard.step (h : Heard E s) (hPlaced : Placed s) (hStep : KernStep E s s') : Heard E s' := by
  have hOther (c : C) (s₁ : Kern C P K L) (v : Cpu P K L)
      (hCpu : s₁.cpu = s.cpu) (c' : C) (hc : c' ≠ c) :
      ((s₁.setCpu c v).cpu c').intr = (s.cpu c').intr := by
    rw [setCpu_other _ _ hc, hCpu]
  cases hStep with
  | pick c p hMode hIntr hFree hRunnable =>
    refine h.cpu rfl (hOther c ((s.setPlock p _).setProc p _) _ rfl) ?_ (.inl ?_) { }
    · intro q k hAsleep
      refine asleepOn_setProc hAsleep ?_
      intro hBad
      cases hBad.1
    · rw [setCpu_self]
  | swtch c p hMode =>
    have hCpu := hPlaced.cpu c
    rw [hMode] at hCpu
    obtain ⟨_, _, _, r, hAway, _⟩ := hCpu
    have hCalm : (s.pc p).resume.calm = true := by
      rw [show s.pc p = .away r from hAway]
      rfl
    exact h.calm rfl hCalm (intr_setCpu rfl) (fun _ _ => .inr) { }
  | drop c p hMode =>
    refine h.cpu rfl (hOther c (s.setPlock p none) _ rfl)
      (fun _ _ hAsleep => hAsleep) (.inl ?_) { }
    rw [setCpu_self]
  | irq c hIntr hMode =>
    exact h.cpu rfl (hOther c s _ rfl) (fun _ _ hAsleep => hAsleep)
      (.inr (.inl (congrArg Cpu.intr (setCpu_self s c _)))) { }
  | reti c hIntr =>
    exact h.cpu rfl (hOther c s _ rfl) (fun _ _ hAsleep => hAsleep)
      (.inr (.inr (congrArg Cpu.intr (setCpu_self s c _)))) { }
  | handle c x s' hIntr hStep => exact h.handlerStep hPlaced hIntr hStep
  | run c p s' hMode hIntr hStep => exact h.procStep hPlaced hMode hStep

-------
-- Results
-------

/-
  While the lock of a condition is free, no process sleeps on
  the condition unless it is false.
-/
theorem no_lost_wakeup
    {E : ProcTable P K L}
    {s : Kern C P K L}
    (hReach : E.system.Reach System.Anything s)
    {k : K}
    (hFree : s.lock (E.lk k) = none)
    (hCond : s.cond k = true)
    (p : P) :
    ¬ ((s.proc p).state = .sleeping ∧
        (s.proc p).chan = some (.cond k)) := by
  have hInv : Heard E s ∧ Placed s ∧ Forking s := by
    refine hReach.invariant (I := fun s => Heard E s ∧ Placed s ∧ Forking s) (fun _ hStart =>
        ⟨.start hStart, .start hStart, .start hStart⟩) ?_
    intro s a s' hOld _ hNext
    obtain ⟨hHeard, hPlaced, hForking⟩ := hOld
    have hStep := ProcTable.kernStep_of_next hNext
    exact ⟨hHeard.step hPlaced hStep, hPlaced.step hForking hStep, hForking.step hPlaced hStep⟩
  intro hAsleep
  have hIn := (hInv.1.wakes k p hCond (.inr hAsleep)).1
  exact hInv.1.owed k hIn hFree

/-
  The first process sleeps on a condition. An interrupt
  handler makes it true, wakes the process up and releases
  the lock.
-/
theorem no_lost_wakeup_by_handler :
    ∃ s : Kern Unit (Fin 2) Unit Unit, twoProcs.system.Reach System.Anything s ∧ s.lock () = none ∧
      s.cond () = true ∧
      ¬ ((s.proc 0).state = .sleeping ∧ (s.proc 0).chan = some (.cond ())) := by
  have hRun : ∃ s : Kern Unit (Fin 2) Unit Unit, twoProcs.system.run System.Anything twoProcs.start
            [.pick () 0, .swtch (), .run () (.go true),
              .run () .enter, .run () (.client (.acquire ())),
              .run () (.sleep ()), .run () (.go true),
              .run () (.go true), .run () (.go true), .drop (),
              .irq (), .handle () (.client (.acquire ())),
              .handle () (.client (.set () true)),
              .handle () (.wakeup (some (.cond ()))),
              .handle () .go, .handle () .go, .handle () .go,
              .handle () (.client (.release ()))] = some s ∧
          s.lock () = none ∧ s.cond () = true :=
    ⟨_, rfl, rfl, rfl⟩
  obtain ⟨s, hRun, hLock, hCond⟩ := hRun
  have hReach : twoProcs.system.Reach System.Anything s :=
    System.reach_of_run (.init twoProcs.start_start) hRun
  exact ⟨s, hReach, hLock, hCond, no_lost_wakeup hReach hLock hCond 0⟩

end Xv6
