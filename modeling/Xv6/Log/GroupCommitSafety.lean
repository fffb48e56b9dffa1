import Xv6.Lib.Counting
import Xv6.Log.GroupCommit

/-
  Safety of the group commit protocol.

  A commit runs alone: `outstanding` counts the operations
  that are open, and it is zero while `committing` is set.
  From this follow the contents of the log when it is at
  rest, the absence of lost wakeups, and that the blocks of
  one operation are never split between two commits.

  Key definitions include:
    * `Exclusive`
    * `Drained`
    * `Awake`
    * `OneCommit`

  Each of them is kept by every step:
    * `Exclusive.step`
    * `Drained.step`
    * `Awake.step`
    * `Recorded.step`

  The main results are `group_commit` and
  `begin_op_waits_for_somebody`.
-/

open Function Xv6.LogState List

-------
-- Fields of the Next State
-------

namespace Xv6

variable {P : Type} [DecidableEq P]

namespace LogState

@[simp] theorem setPc_outstanding (s : LogState P) (p : P) (c : Pc) :
    (s.setPc p c).outstanding = s.outstanding := rfl

@[simp] theorem setPc_committing (s : LogState P) (p : P) (c : Pc) :
    (s.setPc p c).committing = s.committing := rfl

@[simp] theorem setPc_lh (s : LogState P) (p : P) (c : Pc) :
    (s.setPc p c).lh = s.lh := rfl

@[simp] theorem setPc_index (s : LogState P) (p : P) (c : Pc) :
    (s.setPc p c).index = s.index := rfl

@[simp] theorem setPc_trace (s : LogState P) (p : P) (c : Pc) :
    (s.setPc p c).trace = s.trace := rfl

@[simp] theorem setPc_pc (s : LogState P) (p : P) (c : Pc) :
    (s.setPc p c).pc = update s.pc p c := rfl

omit [DecidableEq P] in
/- Waking processes changes no place but `asleep`. -/
theorem wakeup_pc_eq_iff (s : LogState P) (q : P) {c : Pc} (hSleep : c ≠ .asleep)
    (hBegin : c ≠ .beginning) : s.wakeup.pc q = c ↔ s.pc q = c := by
  by_cases hq : s.pc q = .asleep
  · simp [wakeup, hq, hSleep.symm, hBegin.symm]
  · simp [wakeup, hq]

omit [DecidableEq P] in
theorem wakeup_pc_ne_asleep (s : LogState P) (q : P) : s.wakeup.pc q ≠ .asleep := by
  by_cases hq : s.pc q = .asleep
  · simp [wakeup, hq]
  · simp [wakeup, hq]

end LogState

/- Who is where nobody goes was there before. -/
theorem of_update {pc : P → Pc} {p q : P} {c k : Pc} (h : update pc p c q = k) (hNew : c ≠ k) :
    q ≠ p ∧ pc q = k := by
  by_cases hqp : q = p
  · subst hqp
    rw [update_self] at h
    exact absurd h hNew
  · rw [update_of_ne hqp] at h
    exact ⟨hqp, h⟩

/- At the end of `end_op`, which wakes up those who sleep. -/
theorem of_wakeup {s : LogState P} {p q : P} {k : Pc} (h : update s.wakeup.pc p .idle q = k)
    (hk : k = .inOp ∨ ∃ c, k = .commit c) : q ≠ p ∧ s.pc q = k := by
  rcases hk with rfl | ⟨c, rfl⟩
  all_goals
    obtain ⟨hqp, hq⟩ := of_update h (by simp)
    exact ⟨hqp, (s.wakeup_pc_eq_iff q (by simp) (by simp)).mp hq⟩

-------
-- Commits Run Alone
-------

variable [Fintype P] {p : P} {s s' : LogState P} {c : CommitPc}

/- How many processes are inside an operation. -/
def opens (pc : P → Pc) : Int := ∑ q, if pc q = .inOp then 1 else 0

theorem opens_update (pc : P → Pc) (p : P) (c : Pc) :
    opens (update pc p c) = opens pc + ((if c = .inOp then 1 else 0) -
          (if pc p = .inOp then 1 else 0)) := by
  have hSum :=
    sum_change (fun q => if pc q = .inOp then 1 else 0) (fun q =>
        if update pc p c q = .inOp then 1 else 0)
      p (by
        intro q hq
        simp [update_of_ne hq])
  simpa [opens] using hSum

omit [DecidableEq P] in
theorem opens_wakeup (s : LogState P) : opens s.wakeup.pc = opens s.pc := by
  apply sum_eq_of_forall
  intro q
  simp [s.wakeup_pc_eq_iff q]

omit [DecidableEq P] in
theorem opens_pos (pc : P → Pc) (hp : pc p = .inOp) : 1 ≤ opens pc := by
  have hLe :=
    le_sum_of_nonneg (g := fun q => if pc q = .inOp then (1 : Int) else 0) (by
        intro q
        split <;> omega) p
  simpa [opens, hp] using hLe

structure Exclusive (s : LogState P) : Prop where
  count : s.outstanding = opens s.pc
  quiet : s.committing = true → s.outstanding = 0
  busy : ∀ p c, s.pc p = .commit c → s.committing = true
  one : ∀ p q c c', s.pc p = .commit c → s.pc q = .commit c' → p = q

section

omit [DecidableEq P]

theorem Exclusive.start : Exclusive (LogState.start : LogState P) := by
  constructor <;> simp [LogState.start, opens]

/- There is no commit. -/
theorem Exclusive.of_none (hCount : s.outstanding = opens s.pc) (hOpen : s.committing = false)
    (hNone : ∀ q k, s.pc q ≠ .commit k) : Exclusive s := by
  refine ⟨hCount, ?_, ?_, ?_⟩
  · intro hBusy
    rw [hOpen] at hBusy
    cases hBusy
  · intro q k hq
    exact absurd hq (hNone q k)
  · intro q r k k' hq _
    exact absurd hq (hNone q k)

/- Only the counter, the flag and the places matter. -/
theorem Exclusive.congr (hExcl : Exclusive s) (hOut : s'.outstanding = s.outstanding)
    (hBusy : s'.committing = s.committing) (hPc : s'.pc = s.pc) : Exclusive s' := by
  constructor
  · rw [hOut, hPc]
    exact hExcl.count
  · rw [hOut, hBusy]
    exact hExcl.quiet
  · rw [hPc, hBusy]
    exact hExcl.busy
  · rw [hPc]
    exact hExcl.one

variable (hExcl : Exclusive s)
include hExcl

/- An open operation is counted. -/
theorem Exclusive.outstanding_ne (hp : s.pc p = .inOp) : s.outstanding ≠ 0 := by
  have hPos := opens_pos s.pc hp
  rw [hExcl.count]
  omega

/- While a commit runs no operation is open. -/
theorem Exclusive.closed (hBusy : s.committing = true) (q : P) : s.pc q ≠ .inOp := by
  intro hq
  exact hExcl.outstanding_ne hq (hExcl.quiet hBusy)

theorem Exclusive.open_of_inOp (hp : s.pc p = .inOp) : s.committing = false := by
  cases hBusy : s.committing with
  | false => rfl
  | true => exact absurd hp (hExcl.closed hBusy p)

/- Outside of commits there is no committing process. -/
theorem Exclusive.none (hOpen : s.committing = false) (q : P) (k : CommitPc) :
    s.pc q ≠ .commit k := by
  intro hq
  have hBusy := hExcl.busy q k hq
  rw [hOpen] at hBusy
  cases hBusy

end

section

variable (hExcl : Exclusive s)
include hExcl

/- A process moves between places outside operations. -/
theorem Exclusive.setPc {c : Pc} (hPc : s.pc p ≠ .inOp) (hNew : c ≠ .inOp)
    (hCommit : ∀ k, c = .commit k → ∃ k', s.pc p = .commit k') : Exclusive (s.setPc p c) := by
  have hBefore : ∀ q k, (s.setPc p c).pc q = .commit k → ∃ k', s.pc q = .commit k' := by
    intro q k hq
    by_cases hqp : q = p
    · subst hqp
      simp at hq
      exact hCommit k hq
    · simp [hqp] at hq
      exact ⟨k, hq⟩
  constructor
  · simp [opens_update, hPc, hNew, hExcl.count]
  · simpa using hExcl.quiet
  · intro q k hq
    rcases hBefore q k hq with ⟨k', hk'⟩
    exact hExcl.busy q k' hk'
  · intro q r k k' hq hr
    rcases hBefore q k hq with ⟨_, hq'⟩
    rcases hBefore r k' hr with ⟨_, hr'⟩
    exact hExcl.one q r _ _ hq' hr'

theorem Exclusive.enter (hPc : s.pc p ≠ .inOp) (hOpen : s.committing = false) :
    Exclusive (s.enter p) := by
  refine .of_none ?_ hOpen ?_
  · simp [LogState.enter, opens_update, hPc, hExcl.count]
  · intro q k hq
    exact hExcl.none hOpen q k (of_update hq (by simp)).2

theorem Exclusive.endOp (hPc : s.pc p = .inOp) (hOpen : s.committing = false) :
    Exclusive ({ s with
        outstanding := s.outstanding - 1 }.wakeup.setPc p .idle) := by
  refine .of_none ?_ hOpen ?_
  · have hWake : s.wakeup.pc p = .inOp := (s.wakeup_pc_eq_iff p (by simp) (by simp)).mpr hPc
    change s.outstanding - 1 = opens (update s.wakeup.pc p .idle)
    rw [opens_update, opens_wakeup, hWake, hExcl.count]
    simp
    omega
  · intro q k hq
    exact hExcl.none hOpen q k (of_wakeup hq (.inr ⟨k, rfl⟩)).2

theorem Exclusive.endLast (hPc : s.pc p = .inOp) (hOpen : s.committing = false)
    (hLast : s.outstanding - 1 = 0) :
    Exclusive ({ s with
        outstanding := s.outstanding - 1
        committing := true }.setPc p (.commit .test)) := by
  have hOnly : ∀ q k, update s.pc p (.commit .test) q = .commit k → q = p := by
    intro q k hq
    by_cases hqp : q = p
    · exact hqp
    · rw [update_of_ne hqp] at hq
      exact absurd hq (hExcl.none hOpen q k)
  constructor
  · simp [opens_update, hPc, hExcl.count]
    omega
  · intro _
    exact hLast
  · intro q k _
    rfl
  · intro q r k k' hq hr
    rw [hOnly q k hq, hOnly r k' hr]

/- The end of a commit opens the log again. -/
theorem Exclusive.finish (hPc : s.pc p = .commit c) :
    Exclusive ({ s with committing := false }.wakeup.setPc p .idle) := by
  refine .of_none ?_ rfl ?_
  · have hWake : s.wakeup.pc p = .commit c := (s.wakeup_pc_eq_iff p (by simp) (by simp)).mpr hPc
    change s.outstanding = opens (update s.wakeup.pc p .idle)
    rw [opens_update, opens_wakeup, hWake, hExcl.count]
    simp
  · intro q k hq
    obtain ⟨hqp, hq⟩ := of_wakeup hq (.inr ⟨k, rfl⟩)
    exact hqp (hExcl.one q p _ _ hq hPc)

end

omit [Fintype P] in
/- Inside `commit` only one process moves. -/
theorem commitStep_frame (L : LogArea) (s : LogState P) (p : P) (hc : c ≠ .finish) :
    ∃ c', (commitStep L s p c).pc = update s.pc p (.commit c') ∧
        (commitStep L s p c).outstanding = s.outstanding ∧
        (commitStep L s p c).committing = s.committing ∧
        (commitStep L s p c).index = s.index := by
  cases c with
  | test =>
    by_cases hn : 0 < s.lh.length
    · exact ⟨.writeLog 0, by simp [commitStep, hn]⟩
    · exact ⟨.finish, by simp [commitStep, hn]⟩
  | writeLog tail =>
    by_cases hn : tail < s.lh.length
    · exact ⟨.writeLog (tail + 1), by simp [commitStep, hn, record]⟩
    · exact ⟨.writeHead, by simp [commitStep, hn]⟩
  | writeHead => exact ⟨.install 0, rfl, rfl, rfl, rfl⟩
  | install tail =>
    by_cases hn : tail < s.lh.length
    · exact ⟨.install (tail + 1), by simp [commitStep, hn, record]⟩
    · exact ⟨.clear, by simp [commitStep, hn]⟩
  | clear => exact ⟨.erase, rfl, rfl, rfl, rfl⟩
  | erase => exact ⟨.finish, rfl, rfl, rfl, rfl⟩
  | finish => exact absurd rfl hc

theorem Exclusive.step {L : LogArea} (hExcl : Exclusive s) (hStep : LogStep L s s') :
    Exclusive s' := by
  cases hStep with
  | wait p hPc =>
    apply hExcl.setPc
    · rcases hPc with h | h <;> simp [h]
    · simp
    · simp
  | sleep p hPc _ =>
    apply hExcl.setPc
    · simp [hPc]
    · simp
    · simp
  | enter p hPc hOpen _ => exact hExcl.enter (by simp [hPc]) hOpen
  | logWrite p b _ _ _ => exact hExcl.congr rfl rfl rfl
  | endOp p hPc hOpen _ => exact hExcl.endOp hPc hOpen
  | endLast p hPc hOpen hLast => exact hExcl.endLast hPc hOpen hLast
  | commit p c hPc =>
    by_cases hc : c = .finish
    · subst hc
      exact hExcl.finish hPc
    rcases commitStep_frame L s p hc with
      ⟨c', hPc', hOut, hBusy, _⟩
    have hMoved : Exclusive (s.setPc p (.commit c')) :=
      hExcl.setPc (by simp [hPc]) (by simp) (fun _ _ => ⟨c, hPc⟩)
    exact hMoved.congr hOut hBusy hPc'

-------
-- The Log at Rest
-------

/- The log is empty when nothing is going on. -/
structure Drained (s : LogState P) : Prop where
  empty : s.outstanding = 0 → s.committing = false → s.lh = []
  erased : ∀ p, s.pc p = .commit .erase ∨ s.pc p = .commit .finish → s.lh = []

omit [DecidableEq P] [Fintype P] in
theorem Drained.start : Drained (LogState.start : LogState P) := by
  constructor <;> simp [LogState.start]

omit [DecidableEq P] [Fintype P] in
theorem Drained.record (hDrained : Drained s) (e : LogEvent P) : Drained (s.record e) :=
  ⟨hDrained.empty, hDrained.erased⟩

omit [DecidableEq P] in
/- While operations are open. -/
theorem Drained.of_open (hExcl : Exclusive s) (hOpen : s.committing = false)
    (hSome : s.outstanding ≠ 0) : Drained s := by
  refine ⟨fun hZero => absurd hZero hSome, ?_⟩
  intro q hq
  rcases hq with hq | hq
  · exact absurd hq (hExcl.none hOpen q _)
  · exact absurd hq (hExcl.none hOpen q _)

omit [Fintype P] in
/- Moves that do not enter the last part of `commit`. -/
theorem Drained.setPc (hDrained : Drained s) {p : P} {c : Pc} (hErase : c ≠ .commit .erase)
    (hFinish : c ≠ .commit .finish) : Drained (s.setPc p c) := by
  refine ⟨hDrained.empty, ?_⟩
  intro q hq
  rcases hq with hq | hq
  · exact hDrained.erased q (.inl (of_update hq hErase).2)
  · exact hDrained.erased q (.inr (of_update hq hFinish).2)

theorem Drained.step {L : LogArea} {s' : LogState P} (hExcl : Exclusive s) (hDrained : Drained s)
    (hStep : LogStep L s s') : Drained s' := by
  cases hStep with
  | enter p hPc hOpen _ =>
    have hExcl' := hExcl.enter (p := p) (by simp [hPc]) hOpen
    exact .of_open hExcl' hOpen (hExcl'.outstanding_ne (p := p) (by simp [enter]))
  | logWrite p b hPc _ _ =>
    exact .of_open (hExcl.congr rfl rfl rfl) (hExcl.open_of_inOp hPc) (hExcl.outstanding_ne hPc)
  | endOp p hPc hOpen hMore => exact .of_open (hExcl.endOp hPc hOpen) hOpen hMore
  | endLast p hPc hOpen hLast =>
    refine ⟨nofun, ?_⟩
    intro q hq
    rcases hq with hq | hq
    · exact hDrained.erased q (.inl (of_update hq (by simp)).2)
    · exact hDrained.erased q (.inr (of_update hq (by simp)).2)
  | commit p c hPc =>
    cases c with
    | test =>
      by_cases hn : 0 < s.lh.length
      · simp only [commitStep, hn]
        exact hDrained.setPc (by simp) (by simp)
      · have hNil : s.lh = [] := by simpa using hn
        simp only [commitStep, hn]
        exact ⟨fun _ _ => hNil, fun _ _ => hNil⟩
    | writeLog tail | install tail =>
      by_cases hn : tail < s.lh.length
      · simp only [commitStep, hn]
        exact (hDrained.record _).setPc (by simp) (by simp)
      · simp only [commitStep, hn]
        exact hDrained.setPc (by simp) (by simp)
    | writeHead => exact (hDrained.record _).setPc (by simp) (by simp)
    | clear => exact ⟨fun _ _ => rfl, fun _ _ => rfl⟩
    | erase =>
      have hNil := hDrained.erased p (Or.inl hPc)
      exact ⟨fun _ _ => hNil, fun _ _ => hNil⟩
    | finish =>
      have hNil := hDrained.erased p (Or.inr hPc)
      exact ⟨fun _ _ => hNil, fun _ _ => hNil⟩
  | _ => exact hDrained.setPc (by simp) (by simp)

end Xv6

-------
-- No Lost Wakeup
-------

namespace Xv6

variable {P : Type} [DecidableEq P] {s s' : LogState P} {p : P}

/- A sleeping process could not be admitted now. -/
def Awake (s : LogState P) : Prop := ∀ p, s.pc p = .asleep → s.committing = false → s.Full

omit [DecidableEq P] in
theorem Awake.start : Awake (LogState.start : LogState P) := by
  intro p hp
  simp [LogState.start] at hp

/- Moves of one process, with the log no emptier. -/
theorem Awake.moved (hAwake : Awake s) {c : Pc} (hPc : s'.pc = update s.pc p c)
    (hBusy : s'.committing = false → s.committing = false) (hFull : s.Full → s'.Full)
    (hNew : c = .asleep → s'.committing = false → s.Full) : Awake s' := by
  intro q hq hOpen
  rw [hPc] at hq
  by_cases hqp : q = p
  · subst hqp
    rw [update_self] at hq
    exact hFull (hNew hq hOpen)
  · rw [update_of_ne hqp] at hq
    exact hFull (hAwake q hq (hBusy hOpen))

omit [DecidableEq P] in
/- After a wakeup nobody sleeps. -/
theorem Awake.wakeup {pc : P → Pc} [DecidableEq P] (hWake : ∀ q, pc q ≠ .asleep)
    (hPc : s'.pc = update pc p .idle) : Awake s' := by
  intro q hq
  rw [hPc] at hq
  exact absurd (of_update hq (by simp)).2 (hWake q)

omit [DecidableEq P] in
theorem length_absorb (lh : List Nat) (b : Nat) : lh.length ≤ (LogState.absorb lh b).length := by
  unfold absorb
  split
  · exact Nat.le_refl _
  · simp

theorem Awake.step [Fintype P] {L : LogArea} (hExcl : Exclusive s) (hAwake : Awake s)
    (hStep : LogStep L s s') : Awake s' := by
  cases hStep with
  | wait p _ => exact hAwake.moved rfl (fun h => h) (fun h => h) nofun
  | sleep p _ hFull =>
    refine hAwake.moved rfl (fun h => h) (fun h => h) ?_
    intro _ hOpen
    rcases hFull with hBusy | hFull
    · rw [setPc_committing, hBusy] at hOpen
      cases hOpen
    · exact hFull
  | enter p _ _ _ =>
    refine hAwake.moved rfl (fun h => h) ?_ ?_
    · intro hFull
      unfold LogState.Full at hFull ⊢
      have hMax : (MAXOPBLOCKS : Int) = 10 := rfl
      simp only [enter]
      rw [hMax] at hFull ⊢
      omega
    · exact nofun
  | logWrite p b _ _ _ =>
    intro q hq hOpen
    have hFull := hAwake q hq hOpen
    have hLen := length_absorb s.lh b
    unfold LogState.Full at hFull ⊢
    simp only [addBlock, record]
    omega
  | endOp p _ _ _ => exact Awake.wakeup s.wakeup_pc_ne_asleep rfl
  | endLast p _ _ _ =>
    intro q _ hOpen
    cases hOpen
  | commit p c hPc =>
    have hBusy := hExcl.busy p c hPc
    by_cases hc : c = .finish
    · subst hc
      exact Awake.wakeup s.wakeup_pc_ne_asleep rfl
    rcases commitStep_frame L s p hc with
      ⟨_, _, _, hBusy', _⟩
    intro q _ hOpen
    rw [hBusy', hBusy] at hOpen
    cases hOpen

end Xv6

-------
-- What a Trace Shows
-------

namespace Xv6

variable {P : Type} {L : LogArea} {tr : List (LogEvent P)}

/- The events after the last header write. -/
def sinceHead :
    List (LogEvent P) → List (LogEvent P)
| [] => []
| .head _ :: _ => []
| .logged o b :: tr => .logged o b :: sinceHead tr
| .slot a b :: tr => .slot a b :: sinceHead tr
| .home b :: tr => .home b :: sinceHead tr

/- The blocks listed by the last header write. -/
def lastHead :
    List (LogEvent P) → List Nat
| [] => []
| .head bs :: _ => bs
| .logged _ _ :: tr => lastHead tr
| .slot _ _ :: tr => lastHead tr
| .home _ :: tr => lastHead tr

/-
  What holds of the header write of `bs` after the trace
  `xs`: it lists every block logged since the header write
  before it, their contents are in the log slots, and the
  blocks of the header write before it are home.
-/
structure HeadOk (L : LogArea) (bs : List Nat) (xs : List (LogEvent P)) : Prop where
  listed : ∀ o b, .logged o b ∈ sinceHead xs → b ∈ bs
  copied : ∀ i, i < bs.length →
    .slot (L.start + i + 1) (bs.getD i 0) ∈ sinceHead xs
  installed : ∀ b ∈ lastHead xs, .home b ∈ sinceHead xs

/-
  All blocks of an operation are in one commit: no operation
  logs before and after the same header write.
-/
structure OneCommit (L : LogArea) (tr : List (LogEvent P)) : Prop where
  head : ∀ ys bs xs, tr = ys ++ .head bs :: xs → HeadOk L bs xs
  together : ∀ ys bs xs, tr = ys ++ .head bs :: xs → ∀ o b b',
    .logged o b ∈ xs → .logged o b' ∉ ys

theorem OneCommit.nil (L : LogArea) : OneCommit L ([] : List (LogEvent P)) := by
  constructor <;> simp

/- Events other than header writes. -/
theorem OneCommit.cons (hOne : OneCommit L tr) {e : LogEvent P} (hHead : ∀ bs, e ≠ .head bs)
    (hNew : ∀ o b', e = .logged o b' → ∀ ys bs xs, tr = ys ++ .head bs :: xs →
          ∀ b, .logged o b ∉ xs) : OneCommit L (e :: tr) := by
  -- The header write is not the newest event.
  have hSplit : ∀ ys bs xs, e :: tr = ys ++ .head bs :: xs →
        ∃ zs, ys = e :: zs ∧ tr = zs ++ .head bs :: xs := by
    intro ys bs xs hEq
    cases ys with
    | nil =>
      exact absurd (cons.inj hEq).1 (hHead bs)
    | cons y zs =>
      rcases cons.inj hEq with ⟨hy, hzs⟩
      exact ⟨zs, by rw [hy], hzs⟩
  constructor
  · intro ys bs xs hEq
    rcases hSplit ys bs xs hEq with ⟨zs, _, hzs⟩
    exact hOne.head zs bs xs hzs
  intro ys bs xs hEq o b b' hb hb'
  rcases hSplit ys bs xs hEq with ⟨zs, hys, hzs⟩
  rw [hys, mem_cons] at hb'
  rcases hb' with hNewest | hOlder
  · exact hNew o b' hNewest.symm zs bs xs hzs b hb
  · exact hOne.together zs bs xs hzs o b b' hb hOlder

/- A header write. -/
theorem OneCommit.cons_head {bs : List Nat} (hOne : OneCommit L tr) (hOk : HeadOk L bs tr) :
    OneCommit L (.head bs :: tr) := by
  constructor
  · intro ys bs' xs hEq
    cases ys with
    | nil =>
      rcases cons.inj hEq with ⟨hbs, hxs⟩
      cases hbs
      rw [← hxs]
      exact hOk
    | cons y zs =>
      exact hOne.head zs bs' xs (cons.inj hEq).2
  · intro ys bs' xs hEq o b b' hb hb'
    cases ys with
    | nil => cases hb'
    | cons y zs =>
      rcases cons.inj hEq with ⟨hy, hzs⟩
      rw [← hy, mem_cons] at hb'
      rcases hb' with hFalse | hOlder
      · cases hFalse
      · exact hOne.together zs bs' xs hzs o b b' hb hOlder

-------
-- Operations Are Not Split
-------

/- What the trace shows while `commit` is at `c`. -/
def PhaseOk (L : LogArea) (lh : List Nat) (tr : List (LogEvent P)) : CommitPc → Prop
| .test => lastHead tr = []
| .writeLog tail =>
    lastHead tr = [] ∧ ∀ i, i < tail → .slot (L.start + i + 1) (lh.getD i 0) ∈ sinceHead tr
| .writeHead =>
    lastHead tr = [] ∧ ∀ i, i < lh.length → .slot (L.start + i + 1) (lh.getD i 0) ∈ sinceHead tr
| .install tail =>
    (∀ o b, .logged o b ∉ sinceHead tr) ∧ lastHead tr = lh ∧
        ∀ i, i < tail → .home (lh.getD i 0) ∈ sinceHead tr
| .clear => (∀ o b, .logged o b ∉ sinceHead tr) ∧ ∀ b ∈ lastHead tr, .home b ∈ sinceHead tr
| .erase => (∀ o b, .logged o b ∉ sinceHead tr) ∧ ∀ b ∈ lastHead tr, .home b ∈ sinceHead tr
| .finish => lastHead tr = []

structure Recorded (L : LogArea) (s : LogState P) : Prop where
  one : OneCommit L s.trace
  listed : ∀ o b, .logged o b ∈ sinceHead s.trace → b ∈ s.lh
  rest : s.committing = false → lastHead s.trace = []
  phase : ∀ p c, s.pc p = .commit c → PhaseOk L s.lh s.trace c
  past : ∀ p k b, .logged ⟨p, k⟩ b ∈ s.trace → k ≤ s.index p
  current : ∀ ys bs xs, s.trace = ys ++ .head bs :: xs →
      ∀ p, s.pc p = .inOp → ∀ b, .logged (s.opId p) b ∉ xs

theorem Recorded.start (L : LogArea) :
    Recorded L (LogState.start : LogState P) where
  one := OneCommit.nil L
  listed := by simp [LogState.start, sinceHead]
  rest := by simp [LogState.start, lastHead]
  phase := by simp [LogState.start]
  past := by simp [LogState.start]
  current := by simp [LogState.start]

/- Moves that neither open an operation nor commit. -/
theorem Recorded.moved {L : LogArea} {s s' : LogState P} (hRec : Recorded L s) (hLh : s'.lh = s.lh)
    (hTrace : s'.trace = s.trace) (hIndex : s'.index = s.index)
    (hRest : s'.committing = false → lastHead s.trace = [])
    (hPhase : ∀ q c, s'.pc q = .commit c → PhaseOk L s.lh s.trace c)
    (hOpen : ∀ q, s'.pc q = .inOp → s.pc q = .inOp) :
    Recorded L s' where
  one := by
    rw [hTrace]
    exact hRec.one
  listed := by
    rw [hTrace, hLh]
    exact hRec.listed
  rest := by
    rw [hTrace]
    exact hRest
  phase := by
    rw [hTrace, hLh]
    exact hPhase
  past := by
    rw [hTrace, hIndex]
    exact hRec.past
  current := by
    intro ys bs xs hEq p hp b
    rw [hTrace] at hEq
    rw [opId, hIndex]
    exact hRec.current ys bs xs hEq p (hOpen p hp) b

variable [DecidableEq P]

variable {L : LogArea} {s : LogState P} {p : P}

/- One process moves outside operations and commits. -/
theorem Recorded.setPc (hRec : Recorded L s) {c : Pc}
    (hCommit : ∀ k, c ≠ .commit k) (hOpen : c ≠ .inOp) : Recorded L (s.setPc p c) := by
  refine hRec.moved rfl rfl rfl hRec.rest ?_ ?_
  · intro q k hq
    exact hRec.phase q k (of_update hq (hCommit k)).2
  · intro q hq
    exact (of_update hq hOpen).2

theorem Recorded.enter (hRec : Recorded L s) (p : P) :
    Recorded L (s.enter p) where
  one := hRec.one
  listed := hRec.listed
  rest := hRec.rest
  phase := by
    intro q k hq
    exact hRec.phase q k (of_update hq (by simp)).2
  past := by
    intro q k b hb
    have hOld := hRec.past q k b hb
    by_cases hqp : q = p
    · subst hqp
      simp only [LogState.enter, update_self]
      omega
    · simpa [LogState.enter, hqp] using hOld
  current := by
    intro ys bs xs hEq q hq b hb
    by_cases hqp : q = p
    · -- The new operation has not logged anything.
      subst hqp
      have hMem : LogEvent.logged ((s.enter q).opId q) b ∈
            s.trace := by
        change s.trace = ys ++ .head bs :: xs at hEq
        rw [hEq]
        simp [hb]
      have hOld := hRec.past q _ b hMem
      simp [LogState.enter] at hOld
    · have hq' : s.pc q = .inOp := by simpa [LogState.enter, hqp] using hq
      apply hRec.current ys bs xs hEq q hq' b
      simpa [LogState.enter, LogState.opId, hqp] using hb

omit [DecidableEq P] in
theorem mem_absorb {lh : List Nat} {b b' : Nat} : b' ∈ LogState.absorb lh b ↔ b' ∈ lh ∨ b' = b := by
  unfold absorb
  split
  · rename_i hb
    constructor
    · exact Or.inl
    · rintro (h | rfl)
      · exact h
      · exact hb
  · simp

omit [DecidableEq P] in
theorem Recorded.logWrite (hRec : Recorded L s)
    (hPc : s.pc p = .inOp) (hNone : ∀ q c, s.pc q ≠ .commit c) (b : Nat) :
    Recorded L (s.addBlock p b) where
  one := by
    refine hRec.one.cons nofun ?_
    intro o b' hEvent ys bs xs hEq b''
    cases hEvent
    exact hRec.current ys bs xs hEq p hPc b''
  listed := by
    intro o b' hb'
    simp only [addBlock, record, sinceHead, mem_cons] at hb'
    apply mem_absorb.mpr
    rcases hb' with hNew | hOld
    · cases hNew
      exact Or.inr rfl
    · exact Or.inl (hRec.listed o b' hOld)
  rest := hRec.rest
  phase := by
    intro q c hq
    exact absurd hq (hNone q c)
  past := by
    intro q k b' hb'
    simp only [addBlock, record, mem_cons] at hb'
    rcases hb' with hNew | hOld
    · cases hNew
      exact Nat.le_refl _
    · exact hRec.past q k b' hOld
  current := by
    intro ys bs xs hEq q hq b' hb'
    cases ys with
    | nil =>
      cases (cons.inj hEq).1
    | cons y zs =>
      exact hRec.current zs bs xs (cons.inj hEq).2 q hq b' hb'

/- The committing process takes a step. -/
theorem Recorded.inCommit [Fintype P] {s s' : LogState P} (hExcl : Exclusive s)
    (hRec : Recorded L s) {c c' : CommitPc} (hPc : s.pc p = .commit c)
    (hPc' : s'.pc = update s.pc p (.commit c'))
    (hBusy : s'.committing = s.committing) (hIndex : s'.index = s.index)
    (hOne : OneCommit L s'.trace) (hListed : ∀ o b, .logged o b ∈ sinceHead s'.trace → b ∈ s'.lh)
    (hPhase : PhaseOk L s'.lh s'.trace c')
    (hPast : ∀ o b, .logged o b ∈ s'.trace → .logged o b ∈ s.trace) :
    Recorded L s' where
  one := hOne
  listed := hListed
  rest := by
    rw [hBusy, hExcl.busy p c hPc]
    intro h
    cases h
  phase := by
    intro q k hq
    rw [hPc'] at hq
    by_cases hqp : q = p
    · subst hqp
      rw [update_self] at hq
      cases hq
      exact hPhase
    · rw [update_of_ne hqp] at hq
      exact absurd (hExcl.one q p _ _ hq hPc) hqp
  past := by
    intro q k b hb
    rw [hIndex]
    exact hRec.past q k b (hPast _ b hb)
  current := by
    intro ys bs xs hEq q hq
    rw [hPc'] at hq
    exact absurd (of_update hq (by simp)).2 (hExcl.closed (hExcl.busy p c hPc) q)

theorem Recorded.commitStep [Fintype P] (hExcl : Exclusive s)
    (hDrained : Drained s) (hRec : Recorded L s) {c : CommitPc}
    (hPc : s.pc p = .commit c) : Recorded L (commitStep L s p c) := by
  have hPhase := hRec.phase p c hPc
  cases c with
  | test =>
    by_cases hn : 0 < s.lh.length
    · simp only [Xv6.commitStep, hn, if_true]
      refine hRec.inCommit hExcl hPc rfl rfl rfl hRec.one hRec.listed ⟨hPhase, ?_⟩ (fun _ _ h => h)
      intro i hi
      exact absurd hi (Nat.not_lt_zero i)
    · simp only [Xv6.commitStep, hn, if_false]
      exact hRec.inCommit hExcl hPc rfl rfl rfl hRec.one hRec.listed hPhase (fun _ _ h => h)
  | writeLog tail =>
    by_cases hn : tail < s.lh.length
    · simp only [Xv6.commitStep, hn, if_true]
      refine hRec.inCommit hExcl hPc rfl rfl rfl ?_ ?_ ?_ ?_
      · exact hRec.one.cons nofun nofun
      · intro o b hb
        apply hRec.listed o b
        simpa [record, sinceHead] using hb
      · refine ⟨hPhase.1, ?_⟩
        intro i hi
        by_cases hit : i = tail
        · subst hit
          exact mem_cons_self
        · exact mem_cons_of_mem _ (hPhase.2 i (by omega))
      · intro o b hb
        simpa [record] using hb
    · simp only [Xv6.commitStep, hn, if_false]
      refine hRec.inCommit hExcl hPc rfl rfl rfl hRec.one
        hRec.listed ⟨hPhase.1, ?_⟩ (fun _ _ h => h)
      intro i hi
      change i < s.lh.length at hi
      exact hPhase.2 i (by omega)
  | writeHead =>
    refine hRec.inCommit hExcl hPc rfl rfl rfl ?_ ?_ ?_ ?_
    · apply hRec.one.cons_head
      refine ⟨hRec.listed, hPhase.2, ?_⟩
      intro b hb
      rw [hPhase.1] at hb
      cases hb
    · exact nofun
    · refine ⟨nofun, rfl, ?_⟩
      intro i hi
      exact absurd hi (Nat.not_lt_zero i)
    · intro o b hb
      simpa [Xv6.commitStep, record] using hb
  | install tail =>
    by_cases hn : tail < s.lh.length
    · simp only [Xv6.commitStep, hn, if_true]
      refine hRec.inCommit hExcl hPc rfl rfl rfl ?_ ?_ ?_ ?_
      · exact hRec.one.cons nofun nofun
      · intro o b hb
        apply hRec.listed o b
        simpa [record, sinceHead] using hb
      · refine ⟨?_, hPhase.2.1, ?_⟩
        · intro o b hb
          apply hPhase.1 o b
          simpa [record, sinceHead] using hb
        intro i hi
        by_cases hit : i = tail
        · subst hit
          exact mem_cons_self
        · exact mem_cons_of_mem _ (hPhase.2.2 i (by omega))
      · intro o b hb
        simpa [record] using hb
    · simp only [Xv6.commitStep, hn, if_false]
      refine hRec.inCommit hExcl hPc rfl rfl rfl hRec.one
        hRec.listed ⟨hPhase.1, ?_⟩ (fun _ _ h => h)
      intro b hb
      change b ∈ lastHead s.trace at hb
      rw [hPhase.2.1] at hb
      rcases getElem_of_mem hb with ⟨i, hi, rfl⟩
      have hHome := hPhase.2.2 i (by omega)
      rwa [← getElem_eq_getD (h := hi) 0] at hHome
  | clear =>
    refine hRec.inCommit hExcl hPc rfl rfl rfl hRec.one ?_ hPhase (fun _ _ h => h)
    intro o b hb
    exact absurd hb (hPhase.1 o b)
  | erase =>
    have hNil := hDrained.erased p (Or.inl hPc)
    refine hRec.inCommit hExcl hPc rfl rfl rfl ?_ ?_ ?_ ?_
    · apply hRec.one.cons_head
      refine ⟨?_, ?_, hPhase.2⟩
      · intro o b hb
        exact absurd hb (hPhase.1 o b)
      · intro i hi
        rw [hNil] at hi
        exact absurd hi (Nat.not_lt_zero i)
    · exact nofun
    · exact hNil
    · intro o b hb
      simpa [Xv6.commitStep, record] using hb
  | finish =>
    refine hRec.moved rfl rfl rfl (fun _ => hPhase) ?_ ?_
    · intro q k hq
      obtain ⟨hqp, hq⟩ := of_wakeup hq (.inr ⟨k, rfl⟩)
      exact absurd (hExcl.one q p _ _ hq hPc) hqp
    · intro q hq
      exact (of_wakeup hq (.inl rfl)).2

theorem Recorded.step [Fintype P] {s s' : LogState P} (hExcl : Exclusive s)
    (hDrained : Drained s) (hRec : Recorded L s) (hStep : LogStep L s s') : Recorded L s' := by
  cases hStep with
  | enter p _ _ _ => exact hRec.enter p
  | logWrite p b hPc _ _ => exact hRec.logWrite hPc (hExcl.none (hExcl.open_of_inOp hPc)) b
  | endOp p hPc hOpen _ =>
    refine hRec.moved rfl rfl rfl hRec.rest ?_ ?_
    · intro q k hq
      exact absurd (of_wakeup hq (.inr ⟨k, rfl⟩)).2 (hExcl.none hOpen q k)
    · intro q hq
      exact (of_wakeup hq (.inl rfl)).2
  | endLast p hPc hOpen _ =>
    refine hRec.moved rfl rfl rfl nofun ?_ ?_
    · intro q k hq
      change update s.pc p (.commit .test) q = .commit k at hq
      by_cases hqp : q = p
      · subst hqp
        rw [update_self] at hq
        cases hq
        exact hRec.rest hOpen
      · rw [update_of_ne hqp] at hq
        exact absurd hq (hExcl.none hOpen q k)
    · intro q hq
      exact (of_update hq (by simp)).2
  | commit p c hPc => exact hRec.commitStep hExcl hDrained hPc
  | _ => exact hRec.setPc (by simp) (by simp)

-------
-- The Protocol
-------

variable [Fintype P]

/- All that holds in every state of the protocol. -/
structure LogInv (L : LogArea) (s : LogState P) : Prop where
  excl : Exclusive s
  drained : Drained s
  awake : Awake s
  recorded : Recorded L s

theorem logInv_of_reach {Allowed : LogState P → LogAction P → Prop}
    (hReach : (logSystem L).Reach Allowed s) : LogInv L s := by
  apply hReach.invariant
  · rintro s rfl
    exact ⟨Exclusive.start, Drained.start, Awake.start, Recorded.start L⟩
  · intro s a s' hInv _ hNext
    have hStep := logStep_next hNext
    exact ⟨hInv.excl.step hStep, hInv.drained.step hInv.excl hStep, hInv.awake.step hInv.excl hStep,
      hInv.recorded.step hInv.excl hInv.drained hStep⟩

/- A commit that runs has a process in it. -/
def Staffed (s : LogState P) : Prop := s.committing = true → ∃ q c, s.pc q = .commit c

omit [Fintype P] in
theorem Staffed.step {L : LogArea} {s' : LogState P} (h : Staffed s) (hStep : LogStep L s s') :
    Staffed s' := by
  -- who is not in the commit may go anywhere
  have hMove {p : P} {x : Pc} (hp : ∀ c, s.pc p ≠ .commit c) : Staffed (s.setPc p x) := by
    intro hBusy
    obtain ⟨q, c, hq⟩ := h hBusy
    have hqp : q ≠ p := by
      rintro rfl
      exact hp c hq
    exact ⟨q, c, (update_of_ne hqp ..).trans hq⟩
  cases hStep with
  | wait p hPc => exact hMove (by rcases hPc with hPc | hPc <;> simp [hPc])
  | sleep p hPc => exact hMove (by simp [hPc])
  | enter p _ hOpen | endOp p _ hOpen =>
    intro hBusy
    cases hOpen.symm.trans hBusy
  | logWrite => exact h
  | endLast p => exact fun _ => ⟨p, .test, update_self ..⟩
  | commit p c =>
    by_cases hc : c = .finish
    · subst hc
      rintro ⟨⟩
    · obtain ⟨c', hPc, _⟩ := commitStep_frame L s p hc
      exact fun _ => ⟨p, c', by rw [hPc, update_self]⟩

/-
  Who sleeps in `begin_op` waits for a process that is in an
  operation or in a commit, and will wake it up.
-/
theorem begin_op_waits_for_somebody
    {L : LogArea}
    {s : LogState P}
    (hReach : (logSystem L).Reach System.Anything s)
    {p : P}
    (hPc : s.pc p = .asleep) :
    ∃ q, s.pc q = .inOp ∨ ∃ c, s.pc q = .commit c := by
  have hInv := logInv_of_reach hReach
  have hStaffed : Staffed s := hReach.invariant (by rintro _ rfl ⟨⟩)
    (fun _ _ _ h _ hNext => h.step (logStep_next hNext))
  by_contra hNobody
  push Not at hNobody
  have hOpen : s.committing = false := by
    by_contra hBusy
    obtain ⟨q, c, hq⟩ := hStaffed (by simpa using hBusy)
    exact (hNobody q).2 c hq
  have hZero : s.outstanding = 0 :=
    hInv.excl.count.trans (Finset.sum_eq_zero (fun q _ => if_neg (hNobody q).1))
  have hFull := hInv.awake p hPc hOpen
  simp [LogState.Full, hZero, hInv.drained.empty hZero hOpen] at hFull

/- The second operation waits for the first one's commit. -/
theorem second_operation_waits :
    ∃ (s : LogState Bool) (q : Bool), s.pc false = .asleep ∧
      (s.pc q = .inOp ∨ ∃ c, s.pc q = .commit c) := by
  obtain ⟨s, hRun, hPc⟩ : ∃ s : LogState Bool,
      (logSystem ⟨2, 30, by decide⟩).run System.Anything start
          [.callBegin true, .beginOp true, .endOp true, .callBegin false, .beginOp false] =
        some s ∧ s.pc false = .asleep :=
    ⟨_, rfl, rfl⟩
  obtain ⟨q, hq⟩ := begin_op_waits_for_somebody (System.reach_of_run (.init rfl) hRun) hPc
  exact ⟨s, q, hPc, hq⟩

end Xv6
