import Mathlib.Tactic.Common

/-
  Stateful programs that may stop with an error, and rules
  of pre- and postconditions for them.

  A program keeps the state it had reached when it stops, so
  that what an interrupted run left behind can be stated.

  Key definitions include:
    * `Prog`
    * `Prog.stop`
    * `Prog.read`
    * `Prog.edit`
    * `Prog.zoom`
    * `Prog.forEach`, `Prog.forFrom`
    * `Prog.wp`
    * `Prog.Looks`

  The rules are:
    * `Prog.wp_bind`
    * `Prog.wp_mono`
    * `Prog.wp_zoom`
    * `Prog.wp_forEach`, `Prog.wp_forFrom`
-/

-------
-- Programs
-------

/-
  A program runs on a state and returns a value or an error,
  together with the state it reached.
-/
def Prog (σ ε α : Type) : Type := σ → Except ε α × σ

namespace Prog

variable {σ ε α β : Type}

/- Return a value and leave the state as it is. -/
def ret (a : α) : Prog σ ε α := fun s => (.ok a, s)

/- Run one program and continue with its value. -/
def andThen (m : Prog σ ε α) (f : α → Prog σ ε β) : Prog σ ε β :=
  fun s =>
    match m s with
    | (.ok a, s') => f a s'
    | (.error e, s') => (.error e, s')

instance : Monad (Prog σ ε) where
  pure := ret
  bind := andThen

/- Stop with an error. -/
def stop (e : ε) : Prog σ ε α := fun s => (.error e, s)

/- The current state. -/
def read : Prog σ ε σ := fun s => (.ok s, s)

/- Change the current state. -/
def edit (f : σ → σ) : Prog σ ε Unit := fun s => (.ok (), f s)

/- Run a program on a part of the state. -/
def zoom {τ δ : Type} (get : τ → σ) (set : τ → σ → τ) (err : ε → δ) (m : Prog σ ε α) : Prog τ δ α :=
  fun t =>
    match m (get t) with
    | (.ok a, s') => (.ok a, set t s')
    | (.error e, s') => (.error (err e), set t s')

/- Run `body` on the members of a list, one after another. -/
def forEach (body : β → Prog σ ε Unit) :
    List β → Prog σ ε Unit
| [] => ret ()
| b :: l => andThen (body b) (fun _ => forEach body l)

/- Run `body` on `k`, `k + 1`, ... for `n` rounds. -/
def forFrom (body : Nat → Prog σ ε Unit) :
    Nat → Nat → Prog σ ε Unit
| _, 0 => ret ()
| k, n + 1 => andThen (body k) (fun _ => forFrom body (k + 1) n)

-------
-- Weakest Preconditions
-------

/-
  Running `m` from `s` either returns and satisfies `Q`, or
  stops and satisfies `E`.
-/
def wp (m : Prog σ ε α) (Q : α → σ → Prop) (E : ε → σ → Prop) (s : σ) : Prop :=
  match m s with
  | (.ok a, s') => Q a s'
  | (.error e, s') => E e s'

variable {Q : α → σ → Prop} {E : ε → σ → Prop} {s : σ}

variable {m : Prog σ ε α} {Q' : α → σ → Prop} {s' : σ} {E' : ε → σ → Prop} {a : α}

@[simp] theorem wp_pure (a : α) : wp (pure a : Prog σ ε α) Q E s ↔ Q a s := Iff.rfl

@[simp] theorem wp_ret (a : α) : wp (ret a : Prog σ ε α) Q E s ↔ Q a s := Iff.rfl

@[simp] theorem wp_stop (e : ε) : wp (stop e : Prog σ ε α) Q E s ↔ E e s := Iff.rfl

@[simp] theorem wp_read {Q : σ → σ → Prop} : wp (read : Prog σ ε σ) Q E s ↔ Q s s := Iff.rfl

@[simp] theorem wp_edit {Q : Unit → σ → Prop} (f : σ → σ) :
    wp (edit f : Prog σ ε Unit) Q E s ↔ Q () (f s) :=
  Iff.rfl

/- A sequence is verified from its last command backwards. -/
theorem wp_andThen (m : Prog σ ε α) (f : α → Prog σ ε β) {Q : β → σ → Prop} :
    wp (andThen m f) Q E s ↔ wp m (fun a s' => wp (f a) Q E s') E s := by
  unfold wp andThen
  rcases m s with ⟨r, s'⟩
  cases r with
  | error | ok => rfl

@[simp] theorem wp_bind (m : Prog σ ε α) (f : α → Prog σ ε β) {Q : β → σ → Prop} :
    wp (m >>= f) Q E s ↔ wp m (fun a s' => wp (f a) Q E s') E s :=
  wp_andThen m f

/- Weaken both postconditions. -/
theorem wp_mono (h : wp m Q E s)
    (hQ : ∀ a s', Q a s' → Q' a s') (hE : ∀ e s', E e s' → E' e s') : wp m Q' E' s := by
  unfold wp at h ⊢
  rcases hRun : m s with ⟨r, s'⟩
  rw [hRun] at h
  cases r with
  | error e => exact hE e s' h
  | ok a => exact hQ a s' h

/- Weaken the postcondition of a normal return only. -/
theorem wp_imp (h : wp m Q E s)
    (hQ : ∀ a s', Q a s' → Q' a s') : wp m Q' E s :=
  wp_mono h hQ (fun _ _ hE => hE)

/- What holds of all states holds of those after a run. -/
theorem wp_of_forall (m : Prog σ ε α) (hQ : ∀ a s', Q a s') (hE : ∀ e s', E e s') : wp m Q E s := by
  unfold wp
  split
  · exact hQ _ _
  · exact hE _ _

/- Two facts about one run hold together. -/
theorem wp_and (h : wp m Q E s)
    (h' : wp m Q' E' s) : wp m (fun a s' => Q a s' ∧ Q' a s') (fun e s' => E e s' ∧ E' e s') s := by
  unfold wp at h h' ⊢
  rcases hRun : m s with ⟨r, s'⟩
  rw [hRun] at h h'
  cases r with
  | _ => exact ⟨h, h'⟩

theorem wp_ite (c : Prop) [Decidable c] (m m' : Prog σ ε α) :
    wp (if c then m else m') Q E s ↔ (c → wp m Q E s) ∧ (¬ c → wp m' Q E s) := by
  by_cases hc : c
  · simp [hc]
  · simp [hc]

/- The outcome of a run that returned. -/
theorem wp_ok (h : wp m Q E s)
    (hRun : m s = (.ok a, s')) : Q a s' := by
  unfold wp at h
  rw [hRun] at h
  exact h

/- A run that is known to return. -/
theorem wp_of_ok (hRun : m s = (.ok a, s')) (hQ : Q a s') :
    wp m Q E s := by
  unfold wp
  rw [hRun]
  exact hQ

/- A run whose value is known. -/
theorem eq_ok (h : (m s).1.toOption = some a) :
    m s = (.ok a, (m s).2) := by
  rcases hRun : m s with ⟨r, s'⟩
  rw [hRun] at h
  cases r with
  | error e => cases h
  | ok b =>
    cases h
    rfl

/- A run goes on with the value that was returned. -/
theorem bind_ok (f : α → Prog σ ε β)
    (h : m s = (.ok a, s')) : (m >>= f) s = f a s' := by
  change andThen m f s = _
  unfold andThen
  rw [h]

/- A function of the value and the state that are returned. -/
def onReturn (m : Prog σ ε α) (f : α → σ → β) (none : β) (s : σ) : β :=
  match m s with
  | (.ok a, s') => f a s'
  | (.error _, _) => none

theorem onReturn_ok (f : α → σ → β) (none : β)
    (h : m s = (.ok a, s')) : m.onReturn f none s = f a s' := by
  unfold onReturn
  rw [h]

/- The outcome of a run that stopped. -/
theorem wp_error {e : ε} (h : wp m Q E s)
    (hRun : m s = (.error e, s')) : E e s' := by
  unfold wp at h
  rw [hRun] at h
  exact h

/- A program on a part of the state. -/
theorem wp_zoom {τ δ : Type} {get : τ → σ} {set : τ → σ → τ} {err : ε → δ}
    {Q : α → τ → Prop} {E : δ → τ → Prop} {t : τ} :
    wp (zoom get set err m) Q E t ↔ wp m (fun a s' => Q a (set t s'))
        (fun e s' => E (err e) (set t s')) (get t) := by
  unfold wp zoom
  rcases m (get t) with ⟨r, s'⟩
  cases r with
  | error | ok => rfl

/-
  A loop over a list keeps an invariant indexed by what is
  still to be done.
-/
theorem wp_forEach (body : β → Prog σ ε Unit) (I : List β → σ → Prop) (l : List β)
    (hBody : ∀ b rest s, I (b :: rest) s → wp (body b) (fun _ s' => I rest s') E s)
    (hStart : I l s) : wp (forEach body l) (fun _ s' => I [] s') E s := by
  induction l generalizing s with
  | nil => exact (wp_ret ()).mpr hStart
  | cons b rest ih =>
    rw [forEach, wp_andThen]
    exact wp_imp (hBody b rest s hStart) (fun _ s' hs' => ih hs')

/- Every run ends in some way. -/
theorem wp_true (m : Prog σ ε α) (s : σ) : wp m (fun _ _ => True) (fun _ _ => True) s := by
  unfold wp
  rcases m s with ⟨r, s'⟩
  cases r with
  | error | ok => trivial

/- The state a run reaches, whether it returns or stops. -/
theorem wp_final {R : σ → Prop}
    (h : wp m (fun _ s' => R s') (fun _ s' => R s') s) : R (m s).2 := by
  unfold wp at h
  rcases hRun : m s with ⟨r, s'⟩
  rw [hRun] at h
  cases r with
  | error | ok => exact h

/- A run that cannot stop returns. -/
theorem exists_ok_of_wp (h : wp m Q (fun _ _ => False) s) :
    ∃ a s', m s = (.ok a, s') ∧ Q a s' := by
  unfold wp at h
  rcases hRun : m s with ⟨r, s'⟩
  rw [hRun] at h
  cases r with
  | error e => exact h.elim
  | ok a => exact ⟨a, s', rfl, h⟩

/-
  A loop keeps an invariant indexed by the round about to
  be run.
-/
theorem wp_forFrom (body : Nat → Prog σ ε Unit) (I : Nat → σ → Prop) (k n : Nat)
    (hBody : ∀ i s, k ≤ i → i < k + n → I i s → wp (body i) (fun _ s' => I (i + 1) s') E s)
    (hStart : I k s) : wp (forFrom body k n) (fun _ s' => I (k + n) s') E s := by
  induction n generalizing k s with
  | zero => simpa [forFrom] using hStart
  | succ n ih =>
    rw [forFrom, wp_andThen]
    apply wp_imp (hBody k s (Nat.le_refl k) (by omega) hStart)
    intro _ s' hs'
    have hRest := ih (k + 1) (fun i s hLow hHigh => hBody i s (by omega) (by omega)) hs'
    rw [show k + 1 + n = k + (n + 1) by omega] at hRest
    exact hRest

/- From here on `wp` is used through its rules only. -/
attribute [irreducible] wp

-------
-- Reading
-------

/- The program returns, and leaves the state as it is. -/
def Looks (m : Prog σ ε α) (s : σ) : Prop := wp m (fun _ s' => s' = s) (fun _ _ => False) s

namespace Looks

theorem wp (h : Looks m s) {Q : α → σ → Prop} {E : ε → σ → Prop} (hQ : ∀ a, Q a s) :
    Prog.wp m Q E s := by
  refine wp_mono h ?_ (fun _ _ hE => hE.elim)
  rintro a _ rfl
  exact hQ a

theorem eq_ok
    (h : Looks m s)
    (hValue : (m s).1.toOption = some a) :
    m s = (.ok a, s) := by
  have hRun := Prog.eq_ok hValue
  rw [wp_ok h hRun] at hRun
  exact hRun

theorem pure (a : α) (s : σ) : Looks (pure a : Prog σ ε α) s := (wp_pure a).mpr rfl

theorem bind {f : α → Prog σ ε β} (h : Looks m s) (hNext : ∀ a, Looks (f a) s) :
    Looks (m >>= f) s := by
  unfold Looks
  rw [wp_bind]
  exact h.wp hNext

theorem read {f : σ → Prog σ ε β} (h : Looks (f s) s) : Looks (Prog.read >>= f) s := by
  unfold Looks
  rw [wp_bind, wp_read]
  exact h

theorem ite {c : Prop} [Decidable c] {m' : Prog σ ε α} (hThen : Looks m s)
    (hElse : Looks m' s) : Looks (if c then m else m') s := by
  by_cases hc : c
  · rw [if_pos hc]
    exact hThen
  · rw [if_neg hc]
    exact hElse

end Looks

end Prog
