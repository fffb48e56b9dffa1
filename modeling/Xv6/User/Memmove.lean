import Mathlib.Tactic.Ring

/-
  `memmove`, in the kernel and in the user library.

  Both copy byte by byte, upwards or downwards, and choose the
  direction by different tests. Pointers are 64-bit words.

  Key definitions include:
    * `memmove`
    * `ulibMemmove`

  Key theorems include:
    * `memmove_copies`
-/

open Function

-------
-- Loops
-------

namespace Xv6

abbrev Addr : Type := BitVec 64

/- Memory, byte by byte. -/
abbrev Memory : Type := Addr → UInt8

/- `while(n-- > 0) *d++ = *s++;` -/
def copyUp : Nat → Addr → Addr → Memory → Memory
| 0, _, _, mem => mem
| n + 1, d, s, mem => copyUp n (d + 1) (s + 1) (update mem d (mem s))

/- `while(n-- > 0) *--d = *--s;` -/
def copyDown : Nat → Addr → Addr → Memory → Memory
| 0, _, _, mem => mem
| n + 1, d, s, mem => copyDown n (d - 1) (s - 1) (update mem (d - 1) (mem (s - 1)))

/- `memmove` of `string.c`, with a `uint` count. -/
def memmove (dst src : Addr) (n : BitVec 32) (mem : Memory) : Memory :=
  if n = 0 then mem
  else if src < dst ∧ dst < src + n.setWidth 64 then
    copyDown n.toNat (dst + n.setWidth 64) (src + n.setWidth 64) mem
  else copyUp n.toNat dst src mem

/- `memmove` of `ulib.c`, with an `int` count. -/
def ulibMemmove (dst src : Addr) (n : BitVec 32) (mem : Memory) : Memory :=
  if dst < src then copyUp n.toInt.toNat dst src mem
  else copyDown n.toInt.toNat (dst + n.signExtend 64) (src + n.signExtend 64) mem

-------
-- Copies
-------

/- The address `i` bytes further. -/
abbrev Addr.at (a : Addr) (i : Nat) : Addr := a + BitVec.ofNat 64 i

/- The `n` bytes at `d` are those that were at `s`, and the others are as before. -/
structure CopyOf (d s : Addr) (n : Nat) (mem mem' : Memory) : Prop where
  same : ∀ i < n, mem' (d.at i) = mem (s.at i)
  frame : ∀ a, (∀ i < n, a ≠ d.at i) → mem' a = mem a

variable {d s : Addr} {n : Nat} {m m' m'' : Memory}

theorem CopyOf.unique (h : CopyOf d s n m m') (h' : CopyOf d s n m m'') : m' = m'' := by
  funext a
  by_cases ha : ∃ i < n, a = d.at i
  · obtain ⟨i, hi, rfl⟩ := ha
    rw [h.same i hi, h'.same i hi]
  · have hOut : ∀ i < n, a ≠ d.at i := fun i hi hEq => ha ⟨i, hi, hEq⟩
    rw [h.frame a hOut, h'.frame a hOut]

theorem Addr.at_succ (a : Addr) (i : Nat) : a.at (i + 1) = (a + 1).at i := by
  bv_omega

/- Upwards, a byte is read before it is overwritten. -/
theorem copyUp_copyOf (hn : n ≤ 2 ^ 64) (hApart : ∀ i j, i < j → j < n → s.at j ≠ d.at i) :
    CopyOf d s n m (copyUp n d s m) := by
  induction n generalizing d s m with
  | zero => exact ⟨fun i hi => absurd hi (Nat.not_lt_zero i), fun _ _ => rfl⟩
  | succ n ih =>
    have hRest := ih (s := s + 1) (m := update m d (m s)) (by omega) (by
        intro i j hij hj
        rw [← Addr.at_succ, ← Addr.at_succ]
        exact hApart (i + 1) (j + 1) (by omega) (by omega))
    have hFirst : ∀ i < n, d ≠ (d + 1).at i := by
      intro i hi
      bv_omega
    refine ⟨fun i hi => ?_, fun a ha => ?_⟩
    · cases i with
      | zero =>
        simp only [BitVec.add_zero]
        exact (hRest.frame d hFirst).trans (update_self ..)
      | succ i =>
        rw [Addr.at_succ, Addr.at_succ]
        refine (hRest.same i (by omega)).trans (update_of_ne ?_ ..)
        rw [← Addr.at_succ]
        simpa [Addr.at] using hApart 0 (i + 1) (by omega) hi
    · refine (hRest.frame a (fun i hi => ?_)).trans (update_of_ne ?_ ..)
      · rw [← Addr.at_succ]
        exact ha (i + 1) (by omega)
      · simpa [Addr.at] using ha 0 (by omega)

/- Downwards as well, from the ends of both ranges. -/
theorem copyDown_copyOf (hn : n ≤ 2 ^ 64) (hApart : ∀ i j, i < j → j < n → s.at i ≠ d.at j) :
    CopyOf d s n m (copyDown n (d.at n) (s.at n) m) := by
  induction n generalizing m with
  | zero => exact ⟨fun i hi => absurd hi (Nat.not_lt_zero i), fun _ _ => rfl⟩
  | succ n ih =>
    have hBack (a : Addr) : a.at (n + 1) - 1 = a.at n := by
      bv_omega
    rw [copyDown, hBack, hBack]
    have hRest := ih (m := update m (d.at n) (m (s.at n))) (by omega)
      (fun i j hij hj => hApart i j hij (by omega))
    have hLast : ∀ i < n, d.at n ≠ d.at i := by
      intro i hi
      bv_omega
    refine ⟨fun i hi => ?_, fun a ha => ?_⟩
    · rcases Nat.lt_succ_iff_lt_or_eq.mp hi with hi | rfl
      · exact (hRest.same i hi).trans (update_of_ne (hApart i n hi (by omega)) ..)
      · exact (hRest.frame _ hLast).trans (update_self ..)
    · refine (hRest.frame a (fun i hi => ha i (by omega))).trans ?_
      exact update_of_ne (ha n (by omega)) ..

-------
-- Both Versions
-------

/-
  Both copy as if through a temporary, for ranges that do not
  wrap around, and leave the same memory.
-/
theorem memmove_copies
    (mem : Memory)
    (dst src : Addr)
    (n : BitVec 32)
    (hn : n.toNat < 2 ^ 31)
    (hDst : dst.toNat + n.toNat ≤ 2 ^ 64)
    (hSrc : src.toNat + n.toNat ≤ 2 ^ 64) :
    CopyOf dst src n.toNat mem (memmove dst src n mem) ∧
    CopyOf dst src n.toNat mem (ulibMemmove dst src n mem) ∧
    memmove dst src n mem = ulibMemmove dst src n mem := by
  have hWide : n.setWidth 64 = BitVec.ofNat 64 n.toNat := BitVec.eq_of_toNat_eq (by simp)
  have hInt : n.toInt.toNat = n.toNat := by
    rw [BitVec.toInt_eq_toNat_of_lt (by omega), Int.toNat_natCast]
  have hSign : n.signExtend 64 = n.setWidth 64 := by
    refine BitVec.signExtend_eq_setWidth_of_msb_false ?_
    rw [BitVec.msb_eq_false_iff_two_mul_lt]
    omega
  have hKernel : CopyOf dst src n.toNat mem (memmove dst src n mem) := by
    unfold memmove
    by_cases hZero : n = 0
    · subst hZero
      exact copyUp_copyOf (by omega) (fun i j _ hj => absurd hj (Nat.not_lt_zero j))
    rw [if_neg hZero]
    by_cases hDown : src < dst ∧ dst < src + n.setWidth 64
    · rw [if_pos hDown, hWide]
      refine copyDown_copyOf (by omega) (fun i j hij hj => ?_)
      bv_omega
    · rw [if_neg hDown]
      refine copyUp_copyOf (by omega) (fun i j hij hj hEq => hDown ?_)
      constructor <;> bv_omega
  have hUlib : CopyOf dst src n.toNat mem (ulibMemmove dst src n mem) := by
    unfold ulibMemmove
    rw [hInt, hSign, hWide]
    by_cases hUp : dst < src
    · rw [if_pos hUp]
      refine copyUp_copyOf (by omega) (fun i j hij hj => ?_)
      bv_omega
    · rw [if_neg hUp]
      refine copyDown_copyOf (by omega) (fun i j hij hj => ?_)
      bv_omega
  exact ⟨hKernel, hUlib, hKernel.unique hUlib⟩

/- Three bytes are moved up by one. -/
theorem memmove_copies_overlapping :
    CopyOf 1 0 3 (fun a => UInt8.ofNat a.toNat) (memmove 1 0 3 (fun a => UInt8.ofNat a.toNat)) ∧
    ulibMemmove 1 0 3 (fun a => UInt8.ofNat a.toNat) 3 = 2 := by
  have h := memmove_copies (fun a => UInt8.ofNat a.toNat) 1 0 3 (by decide) (by decide) (by decide)
  exact ⟨h.1, h.2.1.same 2 (by decide)⟩

end Xv6
