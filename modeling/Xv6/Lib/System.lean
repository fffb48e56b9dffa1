import Mathlib.Tactic.Common

/-
  Systems that take one step after another, and the
  induction over their runs.

  A step is taken by a function, so that a concrete run can
  be replayed. It leads to a next state, faults, or is not
  enabled. Reachability is relative to a condition on the
  steps; `fun _ _ => True` gives all runs.

  Key definitions include:
    * `Outcome`
    * `System`
    * `System.Reach`
    * `System.run`

  The induction over runs is `System.Reach.invariant`.
-/

-------
-- Systems
-------

/- What one step can lead to. -/
inductive Outcome (ε σ : Type) where
  | next (s : σ)
  | fault (e : ε)
  | disabled

namespace Outcome

variable {ε σ τ : Type}

/- Go on with the next state, if there is one. -/
def bind (x : Outcome ε σ) (f : σ → Outcome ε τ) : Outcome ε τ :=
  match x with
  | .next s => f s
  | .fault e => .fault e
  | .disabled => .disabled

def map (x : Outcome ε σ) (f : σ → τ) : Outcome ε τ := x.bind (fun s => .next (f s))

@[simp] theorem bind_next (s : σ) (f : σ → Outcome ε τ) : (Outcome.next s).bind f = f s := rfl

@[simp] theorem map_next (s : σ) (f : σ → τ) : (Outcome.next s : Outcome ε σ).map f = .next (f s) :=
  rfl

/- A guarded step that was taken. -/
theorem of_guard {c : Prop} [Decidable c] {x : Outcome ε σ} {s : σ}
    (h : (if c then x else .disabled) = .next s) : c ∧ x = .next s := by
  by_cases hc : c
  · exact ⟨hc, (if_pos hc).symm.trans h⟩
  · cases (if_neg hc).symm.trans h

/- The step cannot fault, and leads to such states. -/
def Safe (I : σ → Prop) : Outcome ε σ → Prop
| .next s => I s
| .fault _ => False
| .disabled => True

end Outcome

/- Initial states and the steps from every state. -/
structure System (σ α ε : Type) where
  init : σ → Prop
  step : σ → α → Outcome ε σ

namespace System

variable {σ α ε : Type} {M : System σ α ε} {Allowed : σ → α → Prop} {I : σ → Prop} {s : σ}
variable {as : List α}

/- States reached by runs whose steps are all allowed. -/
inductive Reach (M : System σ α ε) (Allowed : σ → α → Prop) : σ → Prop where
  | init {s : σ} (hInit : M.init s) : Reach M Allowed s
  | step {s s' : σ} {a : α} (hReach : Reach M Allowed s)
      (hAllowed : Allowed s a)
      (hStep : M.step s a = .next s') : Reach M Allowed s'

/- Every run is allowed. -/
abbrev Anything (_ : σ) (_ : α) : Prop := True

/-
  A property that holds initially and that every allowed
  step keeps holds in every state reached.
-/
theorem Reach.invariant (hInit : ∀ s, M.init s → I s)
    (hStep : ∀ s a s', I s → Allowed s a → M.step s a = .next s' → I s')
    (hReach : M.Reach Allowed s) : I s := by
  induction hReach with
  | init h => exact hInit _ h
  | step _ hAllowed hNext ih => exact hStep _ _ _ ih hAllowed hNext

/- The same for a property that also excludes faults. -/
theorem Reach.safe (hInit : ∀ s, M.init s → I s)
    (hStep : ∀ s a, I s → Allowed s a → (M.step s a).Safe I)
    (hReach : M.Reach Allowed s) : I s := by
  refine hReach.invariant hInit ?_
  intro s a s' hI hAllowed hNext
  have hSafe := hStep s a hI hAllowed
  rw [hNext] at hSafe
  exact hSafe

/- Replay a list of actions; `none` when one cannot go on. -/
def run (M : System σ α ε) (Allowed : σ → α → Prop) [∀ s a, Decidable (Allowed s a)] :
    σ → List α → Option σ
| s, [] => some s
| s, a :: as =>
    if Allowed s a then
      match M.step s a with
      | .next s' => run M Allowed s' as
      | .fault _ => none
      | .disabled => none
    else none

/- Replaying allowed actions stays within reach. -/
theorem reach_of_run [∀ s a, Decidable (Allowed s a)] {s' : σ} (hReach : M.Reach Allowed s)
    (hRun : M.run Allowed s as = some s') : M.Reach Allowed s' := by
  induction as generalizing s with
  | nil =>
    cases hRun
    exact hReach
  | cons a as ih =>
    rw [run] at hRun
    by_cases hAllowed : Allowed s a
    · rw [if_pos hAllowed] at hRun
      cases hStep : M.step s a with
      | next t =>
        rw [hStep] at hRun
        exact ih (.step hReach hAllowed hStep) hRun
      | _ =>
        rw [hStep] at hRun
        cases hRun
    · rw [if_neg hAllowed] at hRun
      cases hRun

/- After the actions `as`, the allowed action `a` faults. -/
def faults (M : System σ α ε) (Allowed : σ → α → Prop) [∀ s a, Decidable (Allowed s a)]
    [DecidableEq ε] (s : σ) (as : List α) (a : α) (e : ε) : Bool :=
  match M.run Allowed s as with
  | some s' =>
    decide (Allowed s' a) &&
      match M.step s' a with
      | .fault e' => decide (e' = e)
      | _ => false
  | none => false

theorem exists_fault [∀ s a, Decidable (Allowed s a)] [DecidableEq ε] {a : α} {e : ε}
    (hReach : M.Reach Allowed s) (hFaults : M.faults Allowed s as a e = true) :
    ∃ s', M.Reach Allowed s' ∧ Allowed s' a ∧ M.step s' a = .fault e := by
  unfold faults at hFaults
  cases hRun : M.run Allowed s as with
  | none =>
    rw [hRun] at hFaults
    cases hFaults
  | some s' =>
    rw [hRun, Bool.and_eq_true] at hFaults
    rcases hFaults with ⟨hAllowed, hFault⟩
    refine ⟨s', reach_of_run hReach hRun, of_decide_eq_true hAllowed, ?_⟩
    cases hStep : M.step s' a with
    | fault e' =>
      rw [hStep] at hFault
      rw [of_decide_eq_true hFault]
    | _ =>
      rw [hStep] at hFault
      cases hFault

/- Two threads, for concrete runs. -/
instance : @NeZero Nat Zero.ofOfNat0 2 := ⟨by decide⟩

end System
