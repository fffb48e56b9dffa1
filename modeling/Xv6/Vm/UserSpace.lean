import Xv6.Vm.PageTable

/-
  User memory as the kernel sees it through a page table:
  which pages the user can access, and their bytes.

  `copyout` and `copyin` go through the pages one by one. They
  do the same as going through the bytes one by one, up to the
  first byte that cannot be accessed.

  Key definitions include:
    * `UserSpace`
    * `UserSpace.copyout`, `UserSpace.copyinLoop`
    * `UserSpace.reach`

  Key theorems include:
    * `UserSpace.copyout_eq`
    * `UserSpace.copyinLoop_eq`
-/

open Function List

-------
-- Copying
-------

namespace Xv6

/- Pages that `walkaddr` finds, by number, and all bytes. -/
structure UserSpace where
  mapped : Nat → Bool
  byte : Nat → UInt8

namespace UserSpace

/- Can the byte be accessed? -/
def ok (u : UserSpace) (va : Nat) : Bool := u.mapped (va / PGSIZE)

/- Store bytes from an address on. -/
def store (u : UserSpace) :
    Nat → List UInt8 → UserSpace
| _, [] => u
| va, x :: l => store { u with byte := update u.byte va x } (add64 va 1) l

/- The bytes from an address on. -/
def load (u : UserSpace) :
    Nat → Nat → List UInt8
| _, 0 => []
| va, n + 1 => u.byte va :: load u (add64 va 1) n

/- Copy a page at a time; false stands for -1. -/
def copyoutLoop :
    Nat → Nat → List UInt8 → UserSpace → Bool × UserSpace
| 0, _, src, u => (src.isEmpty, u)
| k + 1, dstva, src, u =>
    if src.isEmpty then (true, u)
    else
      let va0 := PGROUNDDOWN dstva
      if u.ok va0 then
        let n := PGSIZE - (dstva - va0)
        copyoutLoop k (add64 va0 PGSIZE) (src.drop n) (u.store dstva (src.take n))
      else (false, u)

def copyout (u : UserSpace) (dstva : Nat) (src : List UInt8) : Bool × UserSpace :=
  copyoutLoop src.length dstva src u

/- The bytes that were copied, and false for -1. -/
def copyinLoop (u : UserSpace) :
    Nat → Nat → Nat → Bool × List UInt8
| 0, _, len => (len == 0, [])
| k + 1, srcva, len =>
    if len = 0 then (true, [])
    else
      let va0 := PGROUNDDOWN srcva
      if u.ok va0 then
        let n := min (PGSIZE - (srcva - va0)) len
        let (r, rest) := copyinLoop u k (add64 va0 PGSIZE) (len - n)
        (r, u.load srcva n ++ rest)
      else (false, [])

end UserSpace

/- Memory in which everything, or nothing, is mapped. -/
def wholeSpace (mapped : Bool) : UserSpace where
  mapped := fun _ => mapped
  byte := fun _ => 0

-------
-- Bytes
-------

namespace UserSpace

/- The number of bytes before the first that fails. -/
def reach (u : UserSpace) :
    Nat → Nat → Nat
| _, 0 => 0
| va, n + 1 => if u.ok va then reach u (add64 va 1) n + 1 else 0

variable {u : UserSpace}

variable {va : Nat}

theorem reach_le (u : UserSpace) (va n : Nat) : u.reach va n ≤ n := by
  induction n generalizing va with
  | zero => exact Nat.le_refl 0
  | succ n ih =>
    rw [reach]
    split
    · exact Nat.succ_le_succ (ih _)
    · exact Nat.zero_le _

theorem add64_add64 (va i j : Nat) : add64 (add64 va i) j = add64 va (i + j) := by
  unfold add64
  omega

theorem add64_zero (h : va < 2 ^ 64) : add64 va 0 = va := by
  unfold add64
  omega

theorem add64_lt (va i : Nat) : add64 va i < 2 ^ 64 := Nat.mod_lt _ (by decide)

/- When the first bytes can be accessed. -/
theorem reach_add {va m : Nat} (hva : va < 2 ^ 64) (h : ∀ i < m, u.ok (add64 va i) = true)
    (n : Nat) : u.reach va (m + n) = m + u.reach (add64 va m) n := by
  induction m generalizing va with
  | zero => rw [add64_zero hva, Nat.zero_add, Nat.zero_add]
  | succ m ih =>
    have hFirst := h 0 (Nat.succ_pos m)
    rw [add64_zero hva] at hFirst
    rw [show m + 1 + n = m + n + 1 by omega, reach,
      if_pos hFirst, ih (add64_lt _ _) (fun i hi => ?_),
      add64_add64, Nat.add_comm 1 m]
    · omega
    · rw [add64_add64]
      exact h (1 + i) (by omega)

/- Bytes of one page. -/
theorem div_add64 {va i : Nat} (hva : va < 2 ^ 64) (hi : i < PGSIZE - va % PGSIZE) :
    add64 va i / PGSIZE = va / PGSIZE := by
  unfold add64
  simp only [PGSIZE] at *
  omega

theorem ok_page {va i : Nat} (hva : va < 2 ^ 64) (hi : i < PGSIZE - va % PGSIZE) :
    u.ok (add64 va i) = u.ok va := by
  unfold ok
  rw [div_add64 hva hi]

theorem ok_rounddown (u : UserSpace) (va : Nat) : u.ok (PGROUNDDOWN va) = u.ok va := by
  unfold ok PGROUNDDOWN
  rw [Nat.mul_div_cancel _ (by decide)]

/- The next page begins after the bytes of this one. -/
theorem add64_rounddown (va : Nat) :
    add64 (PGROUNDDOWN va) PGSIZE = add64 va (PGSIZE - va % PGSIZE) := by
  unfold add64 PGROUNDDOWN
  simp only [PGSIZE] at *
  omega

theorem sub_rounddown (va : Nat) : va - PGROUNDDOWN va = va % PGSIZE := by
  unfold PGROUNDDOWN
  simp only [PGSIZE]
  omega

theorem length_load (u : UserSpace) (va n : Nat) : (u.load va n).length = n := by
  induction n generalizing va with
  | zero => rfl
  | succ n ih => rw [load, length_cons, ih]

theorem load_append (hva : va < 2 ^ 64) (m n : Nat) :
    u.load va m ++ u.load (add64 va m) n = u.load va (m + n) := by
  induction m generalizing va with
  | zero => rw [add64_zero hva, Nat.zero_add]; rfl
  | succ m ih =>
    rw [show m + 1 + n = m + n + 1 by omega, load, load,
      cons_append, ← ih (add64_lt _ _), add64_add64,
      Nat.add_comm 1 m]

theorem store_append (hva : va < 2 ^ 64) (l l' : List UInt8) (u : UserSpace) :
    (u.store va l).store (add64 va l.length) l' = u.store va (l ++ l') := by
  induction l generalizing va u with
  | nil => rw [length_nil, add64_zero hva]; rfl
  | cons x l ih =>
    rw [cons_append, store, store, ← ih (add64_lt _ _), add64_add64, length_cons,
      Nat.add_comm 1]

theorem mapped_store (u : UserSpace) (va : Nat) (l : List UInt8) :
    (u.store va l).mapped = u.mapped := by
  induction l generalizing va u with
  | nil => rfl
  | cons x l ih => rw [store, ih]

theorem ok_store (u : UserSpace) (va : Nat) (l : List UInt8) (a : Nat) :
    (u.store va l).ok a = u.ok a := by
  unfold ok
  rw [mapped_store]

theorem reach_store (u : UserSpace) (va : Nat) (l : List UInt8) (va' n : Nat) :
    (u.store va l).reach va' n = u.reach va' n := by
  induction n generalizing va' with
  | zero => rfl
  | succ n ih => rw [reach, reach, ih, ok, ok, mapped_store]

/- Only the addresses of the range change. -/
theorem byte_store_of_ne (u : UserSpace) {va a : Nat} (hva : va < 2 ^ 64) (l : List UInt8)
    (h : ∀ i < l.length, a ≠ add64 va i) : (u.store va l).byte a = u.byte a := by
  induction l generalizing va u with
  | nil => rfl
  | cons x l ih =>
    rw [store, ih _ (add64_lt _ _) (fun i hi => ?_)]
    · refine update_of_ne ?_ _ _
      have hFirst := h 0 (by simp)
      rw [add64_zero hva] at hFirst
      exact hFirst
    · rw [add64_add64]
      exact h (1 + i) (by simpa [Nat.add_comm] using hi)

theorem byte_store_first
    (u : UserSpace)
    (va : Nat)
    {x : UInt8}
    {l : List UInt8}
    (hl : l.length < 2 ^ 64) :
    (u.store va (x :: l)).byte va = x := by
  rw [store, byte_store_of_ne _ (add64_lt va 1) l]
  · exact update_self ..
  intro i hi
  unfold add64
  omega

/- The bytes of a range that were stored there. -/
theorem load_store (u : UserSpace) (hva : va < 2 ^ 64) {l : List UInt8}
    (hl : l.length ≤ 2 ^ 64) : (u.store va l).load va l.length = l := by
  induction l generalizing va u with
  | nil => rfl
  | cons x l ih =>
    rw [length_cons] at hl
    rw [length_cons, load, byte_store_first u va hl, store,
      ih _ (add64_lt _ _) (by omega)]

-------
-- Results Of Copies
-------

variable {dstva k len srcva : Nat}

/- A page step, seen byte by byte. -/
theorem reach_page (hva : va < 2 ^ 64) (hOk : u.ok va = true) :
    u.reach va len = min (PGSIZE - va % PGSIZE) len + u.reach (add64 va (PGSIZE - va % PGSIZE))
          (len - (PGSIZE - va % PGSIZE)) := by
  set n := PGSIZE - va % PGSIZE with hn
  by_cases hLe : n ≤ len
  · obtain ⟨r, rfl⟩ := Nat.exists_eq_add_of_le hLe
    rw [reach_add hva (fun i hi => by
      rw [ok_page hva hi, hOk]) r, Nat.min_eq_left hLe,
      Nat.add_sub_cancel_left]
  · have hAll := reach_add (m := len) hva (fun i hi => by
        rw [ok_page hva (by omega), hOk]) 0
    rw [reach, Nat.add_zero] at hAll
    rw [hAll, Nat.min_eq_right (by omega), Nat.sub_eq_zero_of_le (by omega), reach, Nat.add_zero]

/- The bytes of a page step, and those behind it. -/
theorem load_page (hva : va < 2 ^ 64) (hOk : u.ok va = true) :
    u.load va (u.reach va len) = u.load va (min (PGSIZE - va % PGSIZE) len) ++
        u.load (add64 va (PGSIZE - va % PGSIZE)) (u.reach (add64 va (PGSIZE - va % PGSIZE))
            (len - (PGSIZE - va % PGSIZE))) := by
  rw [reach_page hva hOk]
  by_cases hLe : PGSIZE - va % PGSIZE ≤ len
  · rw [Nat.min_eq_left hLe, load_append hva]
  · have hNone : len - (PGSIZE - va % PGSIZE) = 0 := by omega
    rw [hNone, reach, load, append_nil, Nat.add_zero]

theorem reach_of_not_ok (hOk : ¬ u.ok va = true) (len : Nat) : u.reach va len = 0 := by
  cases len with
  | zero => rfl
  | succ n => rw [reach, if_neg hOk]

/- What is left of a list after a page. -/
theorem take_min_add (l : List UInt8) (n r : Nat) (hr : r ≤ l.length - n) :
    l.take n ++ (l.drop n).take r = l.take (min n l.length + r) := by
  by_cases hLe : n ≤ l.length
  · rw [Nat.min_eq_left hLe, take_add]
  · have hZero : r = 0 := by omega
    rw [hZero, Nat.min_eq_right (by omega), take_zero,
      append_nil, Nat.add_zero, take_length,
      take_of_length_le (by omega)]

theorem copyoutLoop_eq (hva : dstva < 2 ^ 64) {src : List UInt8} (hk : src.length ≤ k)
    (u : UserSpace) :
    copyoutLoop k dstva src u = (u.reach dstva src.length == src.length, u.store dstva
          (src.take (u.reach dstva src.length))) := by
  induction k generalizing dstva src u with
  | zero =>
    cases length_eq_zero_iff.mp (Nat.le_zero.mp hk)
    rfl
  | succ k ih =>
    rw [copyoutLoop]
    cases src with
    | nil => rfl
    | cons x l =>
      rw [if_neg (by simp)]
      dsimp only
      rw [ok_rounddown, sub_rounddown, add64_rounddown]
      set src := x :: l with hSrc
      set n := PGSIZE - dstva % PGSIZE with hn
      have hPos : 0 < n := by
        rw [hn]
        simp only [PGSIZE]
        omega
      by_cases hOk : u.ok dstva = true
      · rw [if_pos hOk, ih (add64_lt _ _) (by rw [length_drop]; omega), reach_store,
          reach_page hva hOk, length_drop]
        have hLe := u.reach_le (add64 dstva n) (src.length - n)
        set r := u.reach (add64 dstva n) (src.length - n)
        refine Prod.ext ?_ ?_
        · simp only [beq_eq_beq]
          omega
        rw [← take_min_add src n r hLe]
        by_cases hn' : n ≤ src.length
        · have hTake : (src.take n).length = n := by rw [length_take, Nat.min_eq_left hn']
          rw [← store_append hva, hTake]
        · have hZero : r = 0 := by omega
          rw [hZero, take_zero, append_nil]
          rfl
      · rw [if_neg hOk, reach_of_not_ok hOk]
        refine Prod.ext ?_ rfl
        simp [hSrc]

/- `copyout` stores the bytes up to the first that fails. -/
theorem copyout_eq (hva : dstva < 2 ^ 64) (src : List UInt8) (u : UserSpace) :
    u.copyout dstva src = (u.reach dstva src.length == src.length, u.store dstva
          (src.take (u.reach dstva src.length))) :=
  copyoutLoop_eq hva (Nat.le_refl _) u

/- A single byte. -/
theorem copyout_one (hva : va < 2 ^ 64) (hOk : u.ok va = true) (x : UInt8) :
    u.copyout va [x] = (true, u.store va [x]) := by
  have hReach : u.reach va 1 = 1 := by rw [reach, if_pos hOk, reach]
  rw [copyout_eq hva, length_singleton, hReach]
  rfl

theorem copyout_of_not_ok
    (hva : va < 2 ^ 64)
    (hOk : ¬ u.ok va = true)
    (x : UInt8) :
    u.copyout va [x] = (false, u) := by
  rw [copyout_eq hva,
    reach_of_not_ok hOk]
  rfl

theorem copyinLoop_eq (hva : srcva < 2 ^ 64) (hk : len ≤ k) :
    copyinLoop u k srcva len = (u.reach srcva len == len, u.load srcva (u.reach srcva len)) := by
  induction k generalizing srcva len with
  | zero =>
    cases Nat.le_zero.mp hk
    rfl
  | succ k ih =>
    rw [copyinLoop]
    by_cases hZero : len = 0
    · cases hZero
      rfl
    rw [if_neg hZero]
    dsimp only
    rw [ok_rounddown, sub_rounddown, add64_rounddown]
    set n := PGSIZE - srcva % PGSIZE with hn
    have hPos : 0 < n := by
      rw [hn]
      simp only [PGSIZE]
      omega
    by_cases hOk : u.ok srcva = true
    · have hRest : len - min n len = len - n := by omega
      rw [if_pos hOk, hRest, ih (add64_lt _ _) (by omega),
        load_page hva hOk, reach_page hva hOk, ← hn]
      refine Prod.ext ?_ rfl
      simp only [beq_eq_beq]
      omega
    · rw [if_neg hOk, reach_of_not_ok hOk]
      refine Prod.ext ?_ rfl
      exact (beq_eq_false_iff_ne.mpr (Ne.symm hZero)).symm

end UserSpace

end Xv6
