import Mathlib.Data.Nat.ModEq

/-
  Ring buffers whose read and write positions are counters
  that wrap around.

  The counters have `w` bits and count all items that were
  ever put in or taken out. An item is stored at its counter
  modulo the capacity, so the capacity has to divide the
  period of the counters.

  Key definitions include:
    * `RingBuffer`
    * `RingBuffer.contents`
    * `RingBuffer.push`
    * `RingBuffer.pop`, `RingBuffer.skip`, `RingBuffer.retract`

  The operations are those of a queue:
    * `RingBuffer.contents_push`
    * `RingBuffer.contents_pop`
-/

open Function List

-------
-- Ring Buffers
-------

/- The cells and the two counters. -/
structure RingBuffer (α : Type) (w : Nat) where
  data : Nat → α
  nread : BitVec w
  nwrite : BitVec w

namespace RingBuffer

variable {α : Type} {w : Nat}

/- The number of items that can be taken out. -/
def unread (r : RingBuffer α w) : Nat := (r.nwrite - r.nread).toNat

/- The items that can be taken out, the oldest first. -/
def contents (N : Nat) (r : RingBuffer α w) : List α :=
  (List.range r.unread).map (fun j => r.data ((r.nread.toNat + j) % N))

/- Put in an item. -/
def push (N : Nat) (r : RingBuffer α w) (x : α) : RingBuffer α w :=
  { r with
    data := update r.data (r.nwrite.toNat % N) x
    nwrite := r.nwrite + 1 }

/- The two halves of `push`. -/
def store (N : Nat) (r : RingBuffer α w) (x : α) : RingBuffer α w :=
  { r with
    data := update r.data (r.nwrite.toNat % N) x }

def advance (r : RingBuffer α w) : RingBuffer α w :=
  { r with nwrite := r.nwrite + 1 }

/- Take out the oldest item. -/
def pop (r : RingBuffer α w) : RingBuffer α w :=
  { r with nread := r.nread + 1 }

/- Take out the `k` oldest items. -/
def skip (r : RingBuffer α w) (k : Nat) : RingBuffer α w :=
  { r with nread := r.nread + BitVec.ofNat w k }

/- Take out the latest item. -/
def retract (r : RingBuffer α w) : RingBuffer α w :=
  { r with nwrite := r.nwrite - 1 }

/- The cell of the oldest item. -/
def front (N : Nat) (r : RingBuffer α w) : α := r.data (r.nread.toNat % N)

@[simp] theorem length_contents (N : Nat) (r : RingBuffer α w) :
    (r.contents N).length = r.unread := by
  simp [contents]

/- The counters agree exactly when the buffer is empty. -/
theorem unread_eq_zero_iff (r : RingBuffer α w) : r.unread = 0 ↔ r.nread = r.nwrite := by
  unfold unread
  constructor
  · intro hZero
    have hSub : r.nwrite - r.nread = 0#w := BitVec.eq_of_toNat_eq (by simpa using hZero)
    exact (BitVec.sub_eq_iff_eq_add.mp hSub |>.trans (BitVec.zero_add _)).symm
  · intro hEq
    rw [hEq, BitVec.sub_self]
    rfl

theorem contents_of_eq (N : Nat) {r : RingBuffer α w} (h : r.nread = r.nwrite) :
    r.contents N = [] := by
  unfold contents
  rw [(unread_eq_zero_iff r).mpr h]
  rfl

/- The test that the buffer is full. -/
theorem unread_eq_iff {N : Nat} (hN : N < 2 ^ w) (r : RingBuffer α w) :
    r.unread = N ↔ r.nwrite = r.nread + BitVec.ofNat w N := by
  have hVal : (BitVec.ofNat w N).toNat = N := by
    exact Nat.mod_eq_of_lt hN
  unfold unread
  rw [BitVec.add_comm, ← BitVec.sub_eq_iff_eq_add, ← BitVec.toNat_inj, hVal]

/- The position of the write counter, by the read counter. -/
theorem nwrite_mod {N : Nat} (hDvd : N ∣ 2 ^ w) (r : RingBuffer α w) :
    r.nwrite.toNat % N = (r.nread.toNat + r.unread) % N := by
  have hAdd : r.nwrite = r.nread + (r.nwrite - r.nread) := by
    rw [BitVec.add_comm, BitVec.sub_add_cancel]
  have hVal := congrArg BitVec.toNat hAdd
  calc r.nwrite.toNat % N = (r.nread.toNat + r.unread) % 2 ^ w % N := by
          rw [hVal]
          rfl
    _ = (r.nread.toNat + r.unread) % N := Nat.mod_mod_of_dvd _ hDvd

/- A counter of at least one bit can count to one. -/
theorem toNat_one (hw : 1 < 2 ^ w) : (1 : BitVec w).toNat = 1 := by
  change (BitVec.ofNat w 1).toNat = 1
  exact Nat.mod_eq_of_lt hw

section Push

variable {N : Nat} {r : RingBuffer α w}

theorem unread_push (hN : N < 2 ^ w) (hRoom : r.unread < N) (x : α) :
    (r.push N x).unread = r.unread + 1 := by
  have hSub : r.nwrite + 1 - r.nread = r.nwrite - r.nread + 1 := by
    rw [BitVec.sub_eq_add_neg, BitVec.sub_eq_add_neg, BitVec.add_assoc, BitVec.add_assoc,
      BitVec.add_comm 1]
  have hOne : (1 : BitVec w).toNat = 1 := toNat_one (by omega)
  have hVal : (r.nwrite - r.nread + 1).toNat = r.unread + 1 := by
    rw [BitVec.toNat_add, hOne]
    exact Nat.mod_eq_of_lt (Nat.lt_of_le_of_lt hRoom hN)
  unfold push unread at *
  rw [hSub]
  exact hVal

section

variable (hDvd : N ∣ 2 ^ w)
include hDvd

/- The cell to be written is not one that is in use. -/
theorem cell_ne (hRoom : r.unread < N) {j : Nat} (hj : j < r.unread) :
    (r.nread.toNat + j) % N ≠ r.nwrite.toNat % N := by
  rw [r.nwrite_mod hDvd]
  intro hEq
  have hMod : j ≡ r.unread [MOD N] := Nat.ModEq.add_left_cancel' _ hEq
  have hSame := hMod.eq_of_lt_of_lt (by omega) hRoom
  omega

/- An item goes into a cell of its own. -/
theorem data_push (hRoom : r.unread < N) {j : Nat} (hj : j < r.unread)
    (x : α) : (r.push N x).data ((r.nread.toNat + j) % N) = r.data ((r.nread.toNat + j) % N) :=
  update_of_ne (cell_ne hDvd hRoom hj) ..

/- An item is put in behind all others. -/
theorem contents_push (hN : N < 2 ^ w) (hRoom : r.unread < N) (x : α) :
    (r.push N x).contents N = r.contents N ++ [x] := by
  unfold contents
  rw [unread_push hN hRoom, range_succ, map_append]
  congr 1
  · apply map_congr_left
    intro j hj
    exact data_push hDvd hRoom (mem_range.mp hj) x
  have hHere : (r.push N x).data ((r.nread.toNat + r.unread) % N) =
        x := by
    rw [← r.nwrite_mod hDvd]
    exact update_self ..
  rw [map_singleton]
  exact congrArg (fun y => [y]) hHere

/- The cell that is written first is not one in use. -/
theorem contents_store (hRoom : r.unread < N) (x : α) :
    (r.store N x).contents N = r.contents N := by
  apply map_congr_left
  intro j hj
  exact data_push hDvd hRoom (mem_range.mp hj) x

/- Then the item in that cell is put in. -/
theorem contents_advance (hN : N < 2 ^ w) (hRoom : r.unread < N) {x : α}
    (hCell : r.data (r.nwrite.toNat % N) = x) : r.advance.contents N = r.contents N ++ [x] := by
  have hSame : r.advance = r.push N x := by
    unfold advance push
    rw [← hCell, update_eq_self]
  rw [hSame]
  exact contents_push hDvd hN hRoom x

end

end Push

section Pop

variable {N : Nat} {r : RingBuffer α w}

theorem unread_pop (hSome : 0 < r.unread) : r.unread = r.pop.unread + 1 := by
  have hSub : r.nwrite - (r.nread + 1) = r.nwrite - r.nread - 1 := by
    rw [BitVec.sub_eq_add_neg, BitVec.sub_eq_add_neg, BitVec.sub_eq_add_neg, BitVec.neg_add,
      BitVec.sub_eq_add_neg, BitVec.add_assoc]
  have hLt : r.unread < 2 ^ w := (r.nwrite - r.nread).isLt
  have hOne : (1 : BitVec w).toNat = 1 := toNat_one (by omega)
  have hPop : r.pop.unread = (r.nwrite - r.nread - 1).toNat := by
    unfold unread pop
    rw [hSub]
  have hVal : (r.nwrite - r.nread - 1).toNat = r.unread - 1 := by
    rw [BitVec.toNat_sub_of_le, hOne]
    · rfl
    · rw [BitVec.le_def, hOne]
      exact hSome
  omega

/- The oldest item is taken out. -/
theorem contents_pop (hDvd : N ∣ 2 ^ w) (hSome : 0 < r.unread) :
    r.contents N = r.front N :: r.pop.contents N := by
  have hNext (j : Nat) : ((r.nread + 1).toNat + j) % N = (r.nread.toNat + (j + 1)) % N := by
    have hLt : r.unread < 2 ^ w := (r.nwrite - r.nread).isLt
    have hOne : (1 : BitVec w).toNat = 1 := toNat_one (by omega)
    rw [BitVec.toNat_add, hOne, Nat.add_mod, Nat.mod_mod_of_dvd _ hDvd, ← Nat.add_mod,
      Nat.add_assoc, Nat.add_comm 1]
  unfold contents
  rw [unread_pop hSome, range_succ_eq_map, map_cons, map_map]
  congr 1
  apply map_congr_left
  intro j _
  exact congrArg r.data (hNext j).symm

theorem skip_zero (r : RingBuffer α w) : r.skip 0 = r := by
  unfold skip
  rw [BitVec.add_zero]

theorem skip_pop (r : RingBuffer α w) (k : Nat) : r.pop.skip k = r.skip (k + 1) := by
  unfold skip pop
  have hOne : BitVec.ofNat w (k + 1) = 1 + BitVec.ofNat w k := by
    rw [Nat.add_comm, BitVec.ofNat_add]
    rfl
  rw [hOne, ← BitVec.add_assoc]

theorem contents_skip (hDvd : N ∣ 2 ^ w) {k : Nat} (hk : k ≤ r.unread) :
    (r.skip k).contents N = (r.contents N).drop k := by
  induction k generalizing r with
  | zero => rw [skip_zero, drop_zero]
  | succ k ih =>
    have hSome : 0 < r.unread := by omega
    have hPop := unread_pop hSome
    rw [← skip_pop, ih (by omega), contents_pop hDvd hSome, drop_succ_cons]

end Pop

section Retract

variable {N : Nat} {r : RingBuffer α w}

theorem unread_retract (hSome : 0 < r.unread) : r.unread = r.retract.unread + 1 := by
  unfold unread retract at *
  have hw : 1 < 2 ^ w := by omega
  have hSwap : r.nwrite - 1 - r.nread = r.nwrite - r.nread - 1 := by
    rw [BitVec.sub_sub, BitVec.sub_sub, BitVec.add_comm]
  have hLe : 1 ≤ r.nwrite - r.nread := by
    rw [BitVec.le_def, toNat_one hw]
    omega
  have hSub := BitVec.toNat_sub_of_le hLe
  rw [toNat_one hw] at hSub
  rw [hSwap]
  omega

/- The latest item is taken out. -/
theorem contents_retract (hDvd : N ∣ 2 ^ w) (hSome : 0 < r.unread) :
    r.contents N = r.retract.contents N ++ [r.data ((r.nwrite - 1).toNat % N)] := by
  have hCell := nwrite_mod hDvd r.retract
  unfold contents
  rw [unread_retract hSome, range_succ, map_append]
  refine congrArg _ (congrArg (fun i => [r.data i]) ?_)
  exact hCell.symm

end Retract

end RingBuffer
