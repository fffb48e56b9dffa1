import Mathlib.Algebra.Order.BigOperators.Group.Finset
import Mathlib.Tactic.Abel

/-
  A store whose cells are kept in a pool, and parties that
  take cells from the pool and give them back.

  A party knows the multiset of the cells it has. A step of a
  party changes only its own cells and free ones, and no cell
  gets lost or appears twice. Steps of a party can be put
  together, and what other parties have can be added.

  Key definitions include:
    * `Pool`
    * `Pool.Sound`
    * `Pool.Trades`

  The rules are:
    * `Pool.Trades.trans`, `Pool.Trades.frame`
    * `Pool.Trades.sound`
    * `Pool.Trades.kept`
-/

open Function Multiset

-------
-- Pools
-------

structure Pool (κ β : Type) where
  mem : κ → β
  free : List κ

namespace Pool

variable {κ β : Type}

/-
  No cell is free twice, had twice, or both. All cells are in
  the area.
-/
structure Sound (A : κ → Prop) (p : Pool κ β) (M : Multiset κ) : Prop where
  nodup : ((p.free : Multiset κ) + M).Nodup
  area : ∀ k ∈ (p.free : Multiset κ) + M, A k

/-
  From `p` to `p'` a party gives the cells in `M` and gets
  those in `M'`. Other cells that are not free stay as they
  are.
-/
structure Trades (p p' : Pool κ β) (M M' : Multiset κ) : Prop where
  cells : (p'.free : Multiset κ) + M' = p.free + M
  same : ∀ k, k ∉ p.free → k ∉ M → p'.mem k = p.mem k

namespace Sound

variable {A : κ → Prop} {p : Pool κ β} {M M' R : Multiset κ} {k : κ}

theorem mono (h : Sound A p M) (hLe : M' ≤ M) : Sound A p M' := by
  have hSub : (p.free : Multiset κ) + M' ≤ p.free + M := add_le_add_right hLe _
  exact ⟨nodup_of_le hSub h.nodup, fun k hk => h.area k (mem_of_le hSub hk)⟩

theorem left (h : Sound A p (M + R)) : Sound A p M := h.mono (Multiset.le_add_right M R)

theorem right (h : Sound A p (M + R)) : Sound A p R := h.mono (Multiset.le_add_left R M)

/- A cell that a party has is in the area. -/
theorem area_of_mem (h : Sound A p M) (hk : k ∈ M) : A k :=
  h.area k (mem_add.mpr (.inr hk))

theorem not_free (h : Sound A p M) (hk : k ∈ M) : k ∉ p.free := by
  intro hFree
  have hDisj := (nodup_add.mp h.nodup).2.2
  exact disjoint_left.mp hDisj (mem_coe.mpr hFree) hk

/- Two parties have different cells. -/
theorem not_mem (h : Sound A p (M + R)) (hk : k ∈ R) : k ∉ M := by
  intro hM
  have hNodup := (nodup_add.mp h.nodup).2.1
  have hDisj := (nodup_add.mp hNodup).2.2
  exact disjoint_left.mp hDisj hM hk

end Sound

namespace Trades

variable {A : κ → Prop} {p p' p'' : Pool κ β} {M M' M'' R : Multiset κ}

theorem refl (p : Pool κ β) (M : Multiset κ) : Trades p p M M := ⟨rfl, fun _ _ _ => rfl⟩

theorem trans (h : Trades p p' M M') (h' : Trades p' p'' M' M'') : Trades p p'' M M'' := by
  refine ⟨h'.cells.trans h.cells, ?_⟩
  intro k hFree hM
  -- a cell of others is not among those that came in
  have hNot : k ∉ (p'.free : Multiset κ) + M' := by
    rw [h.cells, mem_add]
    rintro (hk | hk)
    · exact hFree (mem_coe.mp hk)
    · exact hM hk
  rw [mem_add, not_or] at hNot
  rw [h'.same k (fun hk => hNot.1 (mem_coe.mpr hk)) hNot.2, h.same k hFree hM]

theorem congr {N N' : Multiset κ} (h : Trades p p' M M') (hM : N = M) (hM' : M' = N') :
    Trades p p' N N' := by
  rw [hM, ← hM']
  exact h

section

variable (h : Trades p p' M M')
include h

theorem length : p'.free.length + M'.card = p.free.length + M.card := by
  have hCard := congrArg card h.cells
  simpa only [card_add, coe_card] using hCard

/- What others have is not touched. -/
theorem frame (R : Multiset κ) : Trades p p' (M + R) (M' + R) := by
  refine ⟨?_, ?_⟩
  · rw [← add_assoc, h.cells, add_assoc]
  · intro k hFree hk
    exact h.same k hFree (fun hM => hk (mem_add.mpr (.inl hM)))

theorem sound (hSound : Sound A p M) : Sound A p' M' := by
  refine ⟨?_, ?_⟩
  · rw [h.cells]
    exact hSound.nodup
  · rw [h.cells]
    exact hSound.area

theorem sound_frame (hSound : Sound A p (M + R)) : Sound A p' (M' + R) :=
  (h.frame R).sound hSound

theorem kept (hSound : Sound A p (M + R)) {k : κ} (hk : k ∈ R) : p'.mem k = p.mem k :=
  h.same k (hSound.right.not_free hk) (hSound.not_mem hk)

end

variable [DecidableEq κ]

/- A free cell is taken and filled. -/
theorem take {k : κ} {l : List κ} (hFree : p.free = k :: l) (c : β) :
    Trades p
      { mem := update p.mem k c, free := l }
      0 {k} := by
  refine ⟨?_, ?_⟩
  · rw [hFree, ← cons_coe, add_zero, add_comm, singleton_add]
  · intro j hj _
    refine update_of_ne ?_ ..
    rintro rfl
    exact hj (by rw [hFree]; exact List.mem_cons_self)

/- A cell is filled and given back. -/
theorem give (p : Pool κ β) (k : κ) (c : β) :
    Trades p
      { mem := update p.mem k c, free := k :: p.free }
      {k} 0 := by
  refine ⟨?_, ?_⟩
  · rw [add_zero, ← cons_coe, add_comm, singleton_add]
  · intro j _ hj
    refine update_of_ne ?_ ..
    rintro rfl
    exact hj (mem_singleton_self j)

/- A party writes to a cell that it has. -/
theorem write (p : Pool κ β) {k : κ} (hk : k ∈ M) (c : β) :
    Trades p { p with mem := update p.mem k c } M M := by
  refine ⟨rfl, ?_⟩
  intro j _ hj
  refine update_of_ne ?_ ..
  rintro rfl
  exact hj hk

end Trades

-------
-- Cells At Places
-------

variable {ι κ : Type}

/- The cell at a place, if there is one. -/
def cell : Option κ → Multiset κ
| none => 0
| some k => {k}

@[simp] theorem mem_cell {o : Option κ} {k : κ} : k ∈ cell o ↔ o = some k := by
  cases o with
  | none => simp [cell]
  | some j =>
    simp only [cell, mem_singleton, Option.some.injEq]
    exact eq_comm

/- Different places have different cells. -/
theorem eq_of_nodup_sum {s : Finset ι} {f : ι → Multiset κ} (h : (∑ i ∈ s, f i).Nodup) {i j : ι}
    (hi : i ∈ s) (hj : j ∈ s) {k : κ} (hki : k ∈ f i) (hkj : k ∈ f j) : i = j := by
  classical
  by_contra hne
  have hSub : ({i, j} : Finset ι) ⊆ s := by
    intro x hx
    rcases Finset.mem_insert.mp hx with rfl | hx
    · exact hi
    · rwa [Finset.mem_singleton.mp hx]
  have hLe : ∑ x ∈ {i, j}, f x ≤ ∑ x ∈ s, f x := Finset.sum_le_sum_of_subset hSub
  rw [Finset.sum_pair hne] at hLe
  have hNodup := nodup_of_le hLe h
  exact disjoint_left.mp (nodup_add.mp hNodup).2.2 hki hkj

end Pool
