import Mathlib.Data.Finset.Card

/-
  Resources with exactly one owner each.

  Places of type `κ` hold resources of type `β`, where zero
  stands for an empty place. A resource of the area is marked
  as used exactly when some place holds it, and no two places
  hold the same one.

  Key definitions include:
    * `Owns`

  The operations of an allocator keep it:
    * `Owns.take`
    * `Owns.drop`
-/

open Function

-------
-- Ownership
-------

/- Places, the area of resources, and the used marks. -/
structure Owns {κ β : Type} [Zero β] (own : κ → β) (area : β → Prop) (used : β → Bool) : Prop where
  zero : ¬ area 0
  inArea : ∀ k, own k ≠ 0 → area (own k)
  distinct : ∀ k k', own k ≠ 0 → own k = own k' → k = k'
  exact : ∀ b, area b → (used b = true ↔ ∃ k, own k = b)

namespace Owns

variable {κ β : Type} [Zero β] {own own' : κ → β} {area : β → Prop} {used used' : β → Bool}

/- The marks matter within the area only. -/
theorem congr (h : Owns own area used) (hOwn : ∀ k, own' k = own k)
    (hUsed : ∀ b, area b → used' b = used b) : Owns own' area used' := by
  have hEq : own' = own := funext hOwn
  subst hEq
  refine ⟨h.zero, h.inArea, h.distinct, ?_⟩
  intro b hb
  rw [hUsed b hb]
  exact h.exact b hb

/- A resource that some place holds is marked. -/
theorem used_own (h : Owns own area used) {k : κ} (hk : own k ≠ 0) : used (own k) = true :=
  (h.exact _ (h.inArea k hk)).mpr ⟨k, rfl⟩

/- A resource that is not marked is held nowhere. -/
theorem own_ne (h : Owns own area used) {b : β} (hb : area b) (hFree : used b = false)
    (k : κ) : own k ≠ b := by
  intro hk
  have hUsed := (h.exact b hb).mpr ⟨k, hk⟩
  rw [hFree] at hUsed
  cases hUsed

variable [DecidableEq κ] [DecidableEq β]

/- An empty place takes a resource that is not used. -/
theorem take (h : Owns own area used) {k : κ} {b : β} (hk : own k = 0) (hb : area b)
    (hFree : used b = false) : Owns (update own k b) area (update used b true) := by
  have hNe := h.own_ne hb hFree
  refine ⟨h.zero, ?_, ?_, ?_⟩
  · intro j hj
    by_cases hjk : j = k
    · subst hjk
      rwa [update_self]
    · rw [update_of_ne hjk] at hj ⊢
      exact h.inArea j hj
  · intro j j' hj hEq
    by_cases hjk : j = k
    · by_cases hjk' : j' = k
      · rw [hjk, hjk']
      · subst hjk
        rw [update_self, update_of_ne hjk'] at hEq
        exact absurd hEq.symm (hNe j')
    · rw [update_of_ne hjk] at hj hEq
      by_cases hjk' : j' = k
      · subst hjk'
        rw [update_self] at hEq
        exact absurd hEq (hNe j)
      · rw [update_of_ne hjk'] at hEq
        exact h.distinct j j' hj hEq
  · intro c hc
    by_cases hcb : c = b
    · subst hcb
      simp only [update_self, true_iff]
      exact ⟨k, update_self ..⟩
    rw [update_of_ne hcb, h.exact c hc]
    constructor
    · rintro ⟨j, hj⟩
      have hjk : j ≠ k := by
        rintro rfl
        rw [hk] at hj
        exact h.zero (hj ▸ hc)
      exact ⟨j, by rwa [update_of_ne hjk]⟩
    · rintro ⟨j, hj⟩
      by_cases hjk : j = k
      · subst hjk
        rw [update_self] at hj
        exact absurd hj.symm hcb
      · rw [update_of_ne hjk] at hj
        exact ⟨j, hj⟩

/- A place gives up what it holds. -/
theorem drop (h : Owns own area used) {k : κ} (hk : own k ≠ 0) :
    Owns (update own k 0) area (update used (own k) false) := by
  have hOwn {j : κ} (hj : update own k 0 j ≠ 0) : j ≠ k ∧ update own k 0 j = own j := by
    by_cases hjk : j = k
    · subst hjk
      exact absurd (update_self ..) hj
    · exact ⟨hjk, update_of_ne hjk ..⟩
  refine ⟨h.zero, ?_, ?_, ?_⟩
  · intro j hj
    have hEq := (hOwn hj).2
    rw [hEq] at hj ⊢
    exact h.inArea j hj
  · intro j j' hj hEq
    have hj' := hEq ▸ hj
    rw [(hOwn hj).2, (hOwn hj').2] at hEq
    rw [(hOwn hj).2] at hj
    exact h.distinct j j' hj hEq
  · intro c hc
    by_cases hck : c = own k
    · subst hck
      simp only [update_self, Bool.false_eq_true, false_iff, not_exists]
      intro j hj
      have hj0 : update own k 0 j ≠ 0 := by
        rw [hj]
        exact hk
      rw [(hOwn hj0).2] at hj
      have hj0' : own j ≠ 0 := by
        rw [hj]
        exact hk
      exact (hOwn hj0).1 (h.distinct j k hj0' hj)
    · rw [update_of_ne hck, h.exact c hc]
      constructor
      · rintro ⟨j, hj⟩
        have hjk : j ≠ k := by
          rintro rfl
          exact hck hj.symm
        exact ⟨j, by rwa [update_of_ne hjk]⟩
      · rintro ⟨j, hj⟩
        have hj0 : update own k 0 j ≠ 0 := by
          rintro hZero
          rw [hZero] at hj
          exact h.zero (hj ▸ hc)
        exact ⟨j, by rwa [(hOwn hj0).2] at hj⟩

omit [DecidableEq κ] in
/- No more resources are used than there are places. -/
theorem card_le (h : Owns own area used) (A : Finset β) (K : Finset κ)
    (hA : ∀ b ∈ A, area b ∧ used b = true) (hK : ∀ k, own k ≠ 0 → k ∈ K) : A.card ≤ K.card := by
  have hSub : A ⊆ K.image own := by
    intro b hb
    rcases hA b hb with ⟨hArea, hUsed⟩
    rcases (h.exact b hArea).mp hUsed with ⟨k, hk⟩
    have hk0 : own k ≠ 0 := by
      intro hZero
      rw [hZero] at hk
      exact h.zero (hk ▸ hArea)
    exact Finset.mem_image.mpr ⟨k, hK k hk0, hk⟩
  exact (Finset.card_le_card hSub).trans Finset.card_image_le

end Owns
