import Xv6.Lib.Prog
import Mathlib.Algebra.Order.Group.Int
import Mathlib.Data.List.Perm.Basic

/-
  Programs that hand references around.

  The state keeps a count for each object. A program takes
  the references in a list and returns others. A rule names
  only the references that the program deals with; the
  counts may include any further ones, and these stay.

  Key definitions include:
    * `Prog.Moves`
    * `Prog.Keeps`

  The rules are:
    * `Prog.Moves.bind`
    * `Prog.Moves.frame`
    * `Prog.Moves.perm`
    * `Prog.Keeps.moves`
    * `Prog.Keeps.forFrom`
-/

-------
-- Definitions
-------

namespace Prog

variable {σ ε α β ι : Type} [DecidableEq ι]

/- The counts are those of `b` and of the list. -/
def Holding (count : σ → ι → Int) (b : ι → Int) (l : List ι) (s : σ) : Prop :=
  (∀ i, 0 ≤ b i) ∧ ∀ i, count s i = b i + l.count i

/-
  `m` takes the references in `l`, and if it returns `a`,
  it leaves those in `f a`.
-/
def Moves (count : σ → ι → Int) (m : Prog σ ε α) (l : List ι) (f : α → List ι) : Prop :=
  ∀ b s, Holding count b l s →
    wp m (fun a s' => Holding count b (f a) s') (fun _ _ => True) s

/- `m` neither takes nor leaves a reference. -/
def Keeps (count : σ → ι → Int) (m : Prog σ ε α) : Prop := Moves count m [] (fun _ => [])

-------
-- Rules
-------

variable {count : σ → ι → Int} {b : ι → Int} {m : Prog σ ε α} {l : List ι} {f : α → List ι}

/- References of the list can be counted with the rest. -/
theorem holding_append {k : List ι} {s : σ} (h : Holding count b (l ++ k) s) :
    Holding count (fun i => b i + k.count i) l s := by
  refine ⟨fun i => ?_, fun i => ?_⟩
  · have hb := h.1 i
    dsimp only
    omega
  · have hCount := h.2 i
    rw [List.count_append] at hCount
    dsimp only
    omega

theorem Holding.append {k : List ι} {s : σ} (hb : ∀ i, 0 ≤ b i)
    (h : Holding count (fun i => b i + k.count i) l s) : Holding count b (l ++ k) s := by
  refine ⟨hb, fun i => ?_⟩
  have hCount := h.2 i
  dsimp only at hCount
  rw [List.count_append]
  omega

theorem Holding.perm {l' : List ι} {s : σ} (h : Holding count b l s) (hPerm : l.Perm l') :
    Holding count b l' s := by
  refine ⟨h.1, fun i => ?_⟩
  rw [← hPerm.count_eq i]
  exact h.2 i

namespace Moves

variable {g : β → List ι}

theorem pure (a : α) : Moves count (pure a : Prog σ ε α) (f a) f := fun _ _ h => (wp_pure a).mpr h

theorem stop (e : ε) : Moves count (stop e : Prog σ ε α) l f := fun _ _ _ => (wp_stop e).mpr trivial

/- What one program leaves, the next one takes. -/
theorem bind {k : α → Prog σ ε β} (hFirst : Moves count m l f)
    (hNext : ∀ a, Moves count (k a) (f a) g) : Moves count (m >>= k) l g := by
  intro b s h
  rw [wp_bind]
  exact wp_imp (hFirst b s h) (fun a s' hs' => hNext a b s' hs')

/- A program that depends on the state. -/
theorem read {k : σ → Prog σ ε β} (h : ∀ s, Moves count (k s) l g) :
    Moves count (Prog.read >>= k) l g := by
  intro b s hs
  rw [wp_bind, wp_read]
  exact h s b s hs

theorem ite {c : Prop} [Decidable c] {m' : Prog σ ε α} (hThen : Moves count m l f)
    (hElse : Moves count m' l f) : Moves count (if c then m else m') l f := by
  by_cases hc : c
  · rw [if_pos hc]
    exact hThen
  · rw [if_neg hc]
    exact hElse

/- Further references are not touched. -/
theorem frame (h : Moves count m l f) (k : List ι) :
    Moves count m (l ++ k) (fun a => f a ++ k) := by
  intro b s hs
  exact wp_imp (h _ s (holding_append hs)) (fun a s' hs' => hs'.append hs.1)

/- The order of references does not matter. -/
theorem perm {l' : List ι} {f' : α → List ι} (h : Moves count m l f) (hPre : l'.Perm l)
    (hPost : ∀ a, (f a).Perm (f' a)) : Moves count m l' f' := by
  intro b s hs
  exact wp_imp (h b s (hs.perm hPre)) (fun a s' hs' => hs'.perm (hPost a))

end Moves

namespace Keeps

/- A change of the state that leaves the counts alone. -/
theorem edit {g : σ → σ} (h : ∀ s i, count (g s) i = count s i) :
    Keeps count (edit g : Prog σ ε Unit) := by
  intro b s hs
  refine (wp_edit g).mpr ⟨hs.1, fun i => ?_⟩
  rw [h s i]
  exact hs.2 i

theorem moves (h : Keeps count m) (l : List ι) : Moves count m l (fun _ => l) := Moves.frame h l

theorem bind {k : α → Prog σ ε β} {g : β → List ι} (hFirst : Keeps count m)
    (hNext : ∀ a, Moves count (k a) l g) : Moves count (m >>= k) l g :=
  Moves.bind (hFirst.moves l) hNext

theorem pure (a : α) : Keeps count (pure a : Prog σ ε α) := Moves.pure (f := fun _ => []) a

/- A loop whose rounds keep the counts. -/
theorem forFrom {body : Nat → Prog σ ε Unit} (h : ∀ k, Keeps count (body k)) (k n : Nat) :
    Keeps count (forFrom body k n) := by
  induction n generalizing k with
  | zero => exact Keeps.pure ()
  | succ n ih => exact Keeps.bind (l := []) (h k) (fun _ => ih (k + 1))

end Keeps

end Prog
