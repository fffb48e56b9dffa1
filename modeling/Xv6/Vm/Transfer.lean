import Xv6.Vm.KernelSafety
import Xv6.Vm.UserSpace

/-
  Transfers between the kernel and user memory, through the
  entries of a page table.

  What the user can access is read from the page table. The
  loops of `copyout` and `copyin` over the pages of a process
  then do what those over `UserSpace` do, and `copyinstr`
  looks at the bytes up to the first that fails.

  Key definitions include:
    * `userPage`, `userSpace`
    * `copyinTo`, `copyinstrTo`
    * `fetchstr`, `argstr`

  Key theorems include:
    * `copyout_stores`
    * `copyout_and_copyin_transfer`
    * `copyinstr_fetches_string`
-/

open Prog (wp wp_bind wp_edit wp_pure wp_read)

open Function Xv6.UserSpace List

-------
-- Pages Of The User
-------

namespace Xv6

/- The page with number `n`, if the user can access it, or 0. -/
def userPage (mem : Nat → Page) (root n : Nat) : Nat :=
  match leafAt mem root n with
  | none => 0
  | some (pa, flags) =>
    if n < MAXVA / PGSIZE ∧ pteHas flags PTE_U = true then pa
    else 0

/- The memory of the user, as the page table shows it. -/
def userSpace (mem : Nat → Page) (root : Nat) : UserSpace where
  mapped := fun n => userPage mem root n != 0
  byte := fun va => (mem (userPage mem root (va / PGSIZE))).byte (va % PGSIZE)

variable {s : Ram} {root va : Nat} {E : VmFault → Ram → Prop}

theorem ok_userSpace (mem : Nat → Page) (root va : Nat) :
    (userSpace mem root).ok va = true ↔ userPage mem root (va / PGSIZE) ≠ 0 := by
  simp [ok, userSpace]

/- The indices of an address from a level down. -/
def pxs (va : Nat) : Nat → List Nat
| 0 => []
| level + 1 => PX (level + 1) va :: pxs va level

/- The tables are read on the way down. -/
theorem walkLoop_reads {Q : Option Nat → Ram → Prop} :
    ∀ {level pt : Nat}, Q (tableAt s.mem pt (pxs va level)) s →
        wp (walkLoop va false level pt) Q E s := by
  intro level
  induction level with
  | zero =>
    intro pt hQ
    unfold walkLoop
    rw [wp_pure]
    exact hQ
  | succ level ih =>
    intro pt hQ
    unfold walkLoop loadPte
    simp only [wp_bind, wp_read, wp_pure]
    simp only [tableAt, pxs, foldlM_cons, nodeAt] at hQ
    by_cases hV : pteHas (pteAt s.mem pt (PX (level + 1) va)) PTE_V = true
    · rw [if_pos hV] at hQ ⊢
      exact ih hQ
    · rw [if_neg hV] at hQ ⊢
      rw [if_neg Bool.false_ne_true, wp_pure]
      exact hQ

theorem pteHas_PTE_FLAGS (pte : Nat) : pteHas (PTE_FLAGS pte) PTE_U = pteHas pte PTE_U := by
  unfold pteHas PTE_FLAGS
  rw [Nat.and_assoc, show 0x3ff &&& PTE_U = PTE_U from rfl]

/- `walkaddr` finds the pages of the user. -/
theorem walkaddr_reads {Q : Nat → Ram → Prop} (hQ : Q (userPage s.mem root (va / PGSIZE)) s) :
    wp (walkaddr root va) Q E s := by
  unfold walkaddr
  unfold userPage leafAt at hQ
  by_cases hva : MAXVA ≤ va
  · have hNum : ¬ va / PGSIZE < MAXVA / PGSIZE := by
      simp only [PGSIZE] at hva ⊢
      omega
    rw [if_pos hva, wp_pure]
    simp only [hNum] at hQ
    split at hQ
    · exact hQ
    · exact hQ
  have hNum : va / PGSIZE < MAXVA / PGSIZE := by
    simp only [MAXVA, PGSIZE] at hva ⊢
    omega
  have hTop : va / PGSIZE / 512 / 512 = PX 2 va := by
    simp only [MAXVA, PGSIZE, PX] at hva ⊢
    omega
  have hMid : va / PGSIZE / 512 % 512 = PX 1 va := by
    simp only [PGSIZE, PX]
    omega
  have hLow : va / PGSIZE % 512 = PX 0 va := by
    simp only [PGSIZE, PX]
    omega
  rw [hTop, hMid, hLow] at hQ
  rw [if_neg hva]
  unfold walk
  rw [if_neg hva]
  simp only [wp_bind]
  refine walkLoop_reads ?_
  have hPath : pxs va 2 = [PX 2 va, PX 1 va] := rfl
  rw [hPath]
  cases hTable : tableAt s.mem root [PX 2 va, PX 1 va] with
  | none =>
    simp only [hTable] at hQ
    simpa only [wp_pure] using hQ
  | some pt =>
    simp only [hTable] at hQ
    simp only [loadPte]
    cases hV : pteHas (pteAt s.mem pt (PX 0 va)) PTE_V with
    | false => simpa [hV] using hQ
    | true =>
      cases hU : pteHas (pteAt s.mem pt (PX 0 va)) PTE_U with
      | _ => simpa [hV, hU, hNum, pteHas_PTE_FLAGS] using hQ

-------
-- Ranges Of Bytes
-------

namespace UserSpace

variable {u : UserSpace} {va n : Nat}

/-
  Of `n` bytes at an address exactly `k` come before the first
  page that cannot be accessed.
-/
structure Upto (u : UserSpace) (va n k : Nat) : Prop where
  le : k ≤ n
  ok : ∀ i < k, u.ok (va + i) = true
  stop : k < n → u.ok (va + k) = false

theorem Upto.all {k : Nat} (h : u.Upto va n k) : k = n ↔ ∀ i < n, u.ok (va + i) = true := by
  constructor
  · rintro rfl
    exact h.ok
  intro hAll
  by_contra hne
  have hLt := lt_of_le_of_ne h.le hne
  have hStop := h.stop hLt
  rw [hAll k hLt] at hStop
  cases hStop

theorem Upto.unique {k k' : Nat} (h : u.Upto va n k) (h' : u.Upto va n k') : k = k' := by
  rcases Nat.lt_trichotomy k k' with hLt | hEq | hGt
  · have hStop := h.stop (hLt.trans_le h'.le)
    rw [h'.ok k hLt] at hStop
    cases hStop
  · exact hEq
  · have hStop := h'.stop (hGt.trans_le h.le)
    rw [h.ok k' hGt] at hStop
    cases hStop

/- The range ends before addresses could wrap around. -/
theorem upto_reach (hTop : ∀ a, u.ok a = true → a < MAXVA) (va n : Nat) :
    u.Upto va n (u.reach va n) := by
  induction n generalizing va with
  | zero =>
    refine ⟨Nat.le_refl 0, fun i hi => ?_, fun hLt => ?_⟩
    · cases hi
    · cases hLt
  | succ n ih =>
    rw [reach]
    by_cases hOk : u.ok va = true
    · have hNext : add64 va 1 = va + 1 := by
        have hLt := hTop va hOk
        simp only [MAXVA] at hLt
        unfold add64
        omega
      rw [if_pos hOk, hNext]
      have hRest := ih (va + 1)
      refine ⟨Nat.succ_le_succ hRest.le, fun i hi => ?_, fun hLt => ?_⟩
      · cases i with
        | zero => exact hOk
        | succ i =>
          have hi' := hRest.ok i (Nat.lt_of_succ_lt_succ hi)
          rw [← hi']
          congr 1
          omega
      · rw [← hRest.stop (Nat.lt_of_succ_lt_succ hLt)]
        congr 1
        omega
    · rw [if_neg hOk]
      refine ⟨Nat.zero_le _, fun i hi => ?_, fun _ => ?_⟩
      · cases hi
      · exact Bool.eq_false_iff.mpr hOk

/- The bytes of a range. -/
def bytes (u : UserSpace) (va n : Nat) : List UInt8 := (List.range n).map (fun i => u.byte (va + i))

theorem getElem_load (hva : va < 2 ^ 64) {i : Nat} (hi : i < (u.load va n).length) :
    (u.load va n)[i] = u.byte (add64 va i) := by
  induction n generalizing va i with
  | zero => cases hi
  | succ n ih =>
    cases i with
    | zero =>
      rw [add64_zero hva]
      rfl
    | succ i =>
      have hTail := ih (add64_lt va 1) (Nat.lt_of_succ_lt_succ hi)
      rw [add64_add64, Nat.add_comm 1 i] at hTail
      exact hTail

theorem load_eq_bytes (h : ∀ i < n, va + i < MAXVA) : u.load va n = u.bytes va n := by
  cases n with
  | zero => rfl
  | succ n =>
    have hva := h 0 (Nat.succ_pos n)
    simp only [MAXVA] at hva
    refine ext_getElem (by simp [length_load, bytes]) ?_
    intro i hi _
    rw [getElem_load (by omega)]
    rw [length_load] at hi
    have hLt := h i hi
    simp only [MAXVA] at hLt
    have hSum : add64 va i = va + i := by
      unfold add64
      omega
    simp [bytes, hSum]

end UserSpace

variable {mem : Nat → Page} {root va n : Nat}

theorem lt_of_userPage (h : userPage mem root n ≠ 0) : n < MAXVA / PGSIZE := by
  unfold userPage at h
  split at h
  · exact absurd rfl h
  · split at h
    · rename_i hIf
      exact hIf.1
    · exact absurd rfl h

theorem lt_of_ok_userSpace (a : Nat) (h : (userSpace mem root).ok a = true) : a < MAXVA := by
  have hLt := lt_of_userPage ((ok_userSpace ..).mp h)
  simp only [PGSIZE] at hLt ⊢
  omega

/- The part of a page that a round is about. -/
theorem slice_userPage (mem : Nat → Page) (root : Nat) (hva : va < 2 ^ 64)
    (hn : n ≤ PGSIZE - va % PGSIZE) :
    (mem (userPage mem root (va / PGSIZE))).slice
        (va % PGSIZE) n = (userSpace mem root).load va n := by
  refine ext_getElem (by rw [Bytes.length_slice, length_load]) ?_
  intro i hi hi'
  rw [Bytes.length_slice] at hi
  rw [Bytes.getElem_slice, getElem_load hva]
  have hDiv := div_add64 hva (Nat.lt_of_lt_of_le hi hn)
  have hMod : add64 va i % PGSIZE = va % PGSIZE + i := by
    have hRest : va % PGSIZE + i < PGSIZE := by omega
    unfold add64
    simp only [PGSIZE] at hRest ⊢
    omega
  simp only [userSpace, hDiv, hMod]

-------
-- Copying In
-------

variable {s : Ram} {root va len k max : Nat}

variable {Q : Bool × List UInt8 → Ram → Prop} {l : List UInt8}

theorem rounddown_div (va : Nat) : PGROUNDDOWN va / PGSIZE = va / PGSIZE :=
  Nat.mul_div_cancel _ (by decide)

theorem rest_pos (va : Nat) : 0 < PGSIZE - va % PGSIZE :=
  Nat.sub_pos_of_lt (Nat.mod_lt va (by decide))

/- A round begins with the page of the address. -/
theorem walkaddr_round {α : Type} {f : Nat → VmM α} {Q : α → Ram → Prop}
    (hNone : (userSpace s.mem root).ok va = false → wp (f 0) Q E s)
    (hSome : ∀ pa, (userSpace s.mem root).ok va = true →
      pa = userPage s.mem root (va / PGSIZE) → pa ≠ 0 → wp (f pa) Q E s) :
    wp (walkaddr root (PGROUNDDOWN va) >>= f) Q E s := by
  rw [wp_bind]
  refine walkaddr_reads ?_
  rw [rounddown_div]
  have hOk := ok_userSpace s.mem root va
  by_cases hPage : userPage s.mem root (va / PGSIZE) = 0
  · rw [hPage]
    refine hNone (Bool.eq_false_iff.mpr (fun h => ?_))
    exact hOk.mp h hPage
  · exact hSome _ (hOk.mpr hPage) rfl hPage

theorem copyinLoop_reads (root : Nat) (hva : va < 2 ^ 64)
    (hQ : Q (UserSpace.copyinLoop (userSpace s.mem root) k va len) s) :
    wp (copyinLoop root k va len) Q E s := by
  induction k generalizing va len Q with
  | zero =>
    unfold copyinLoop
    rw [wp_pure]
    exact hQ
  | succ k ih =>
    unfold copyinLoop
    rw [UserSpace.copyinLoop] at hQ
    by_cases hLen : len = 0
    · rw [if_pos hLen] at hQ ⊢
      rw [wp_pure]
      exact hQ
    rw [if_neg hLen] at hQ ⊢
    dsimp only at hQ
    rw [UserSpace.ok_rounddown] at hQ
    refine walkaddr_round (fun hOk => ?_) (fun pa hOk hpa hne => ?_)
    · rw [hOk] at hQ
      rw [if_pos rfl, wp_pure]
      exact hQ
    rw [if_pos hOk] at hQ
    rw [if_neg hne]
    simp only [wp_bind, wp_read]
    refine ih (UserSpace.add64_lt _ _) ?_
    rw [UserSpace.sub_rounddown] at hQ ⊢
    rw [wp_pure, hpa, slice_userPage s.mem root hva (Nat.min_le_left _ _)]
    exact hQ

/- Copying goes on behind bytes without a zero. -/
theorem copyinstrPage_append (h : 0 ∉ l) (l' : List UInt8) :
    copyinstrPage (l ++ l') = ((copyinstrPage l').1, l ++ (copyinstrPage l').2) := by
  induction l with
  | nil => rfl
  | cons x l ih =>
    rw [mem_cons, not_or] at h
    rw [cons_append, copyinstrPage, if_neg (Ne.symm h.1), ih h.2]
    rfl

/- Without a zero everything is copied. -/
theorem copyinstrPage_of_not_mem (h : 0 ∉ l) : copyinstrPage l = (false, l) := by
  have hAll := copyinstrPage_append h []
  simpa [copyinstrPage] using hAll

/- Nothing behind the first zero is copied. -/
theorem copyinstrPage_zero (h : 0 ∉ l) (l' : List UInt8) :
    copyinstrPage (l ++ 0 :: l') = (true, l ++ [0]) := by
  rw [copyinstrPage_append h]
  rfl

/- `copyinstr` sees the bytes up to the first that fails. -/
theorem copyinstrLoop_reads (root : Nat) (hva : va < 2 ^ 64) (hk : max ≤ k)
    (hQ : Q (copyinstrPage ((userSpace s.mem root).load va
      ((userSpace s.mem root).reach va max))) s) : wp (copyinstrLoop root k va max) Q E s := by
  induction k generalizing va max Q with
  | zero =>
    cases Nat.le_zero.mp hk
    unfold copyinstrLoop
    rw [wp_pure]
    exact hQ
  | succ k ih =>
    unfold copyinstrLoop
    by_cases hMax : max = 0
    · cases hMax
      rw [if_pos rfl, wp_pure]
      exact hQ
    rw [if_neg hMax]
    refine walkaddr_round (fun hOk => ?_) (fun pa hOk hpa hne => ?_)
    · rw [reach_of_not_ok (by rw [hOk]; simp)] at hQ
      rw [if_pos rfl, wp_pure]
      exact hQ
    have hPos := rest_pos va
    rw [load_page hva hOk] at hQ
    rw [if_neg hne, sub_rounddown, add64_rounddown]
    simp only [wp_bind, wp_read]
    rw [hpa, slice_userPage s.mem root hva (Nat.min_le_left _ _)]
    set n := PGSIZE - va % PGSIZE with hn
    set l := (userSpace s.mem root).load va (min n max)
    by_cases hZero : 0 ∈ l
    · obtain ⟨l₀, l₁, hl, hFree⟩ := eq_append_cons_of_mem hZero
      rw [hl, append_assoc, cons_append, copyinstrPage_zero hFree] at hQ
      rw [hl, copyinstrPage_zero hFree, if_pos rfl, wp_pure]
      exact hQ
    rw [copyinstrPage_append hZero] at hQ
    rw [copyinstrPage_of_not_mem hZero, if_neg Bool.false_ne_true]
    rw [show max - min n max = max - n by omega, wp_bind]
    refine ih (add64_lt _ _) (by omega) ?_
    rw [wp_pure]
    exact hQ

-------
-- Strings
-------

namespace UserSpace

variable {u : UserSpace} {va n k : Nat}

/- A string of `k` bytes that can be accessed with its zero. -/
structure StringAt (u : UserSpace) (va k : Nat) : Prop where
  ok : ∀ i ≤ k, u.ok (va + i) = true
  zero : u.byte (va + k) = 0
  nonzero : ∀ i < k, u.byte (va + i) ≠ 0

theorem bytes_add (u : UserSpace) (va m n : Nat) :
    u.bytes va (m + n) = u.bytes va m ++ u.bytes (va + m) n := by
  simp [bytes, range_add, Nat.add_assoc]

theorem mem_bytes {x : UInt8} : x ∈ u.bytes va n ↔ ∃ i < n, u.byte (va + i) = x := by simp [bytes]

theorem StringAt.unique {k' : Nat} (h : u.StringAt va k) (h' : u.StringAt va k') : k = k' := by
  rcases Nat.lt_trichotomy k k' with hLt | hEq | hGt
  · exact absurd h.zero (h'.nonzero k hLt)
  · exact hEq
  · exact absurd h'.zero (h.nonzero k' hGt)

theorem StringAt.not_mem (h : u.StringAt va k) : 0 ∉ u.bytes va k := by
  rw [mem_bytes]
  rintro ⟨i, hi, hZero⟩
  exact h.nonzero i hi hZero

theorem StringAt.bytes_succ (h : u.StringAt va k) : u.bytes va (k + 1) = u.bytes va k ++ [0] := by
  rw [bytes_add, ← h.zero]
  rfl

/- The bytes that `copyinstr` sees, when there is a string. -/
theorem StringAt.split (h : u.StringAt va k) (hk : k < n) {m : Nat} (hUpto : u.Upto va n m) :
    ∃ l, u.bytes va m = u.bytes va k ++ 0 :: l := by
  have hLt : k < m := by
    by_contra hLe
    have hStop := hUpto.stop (by omega)
    rw [h.ok m (by omega)] at hStop
    cases hStop
  obtain ⟨r, rfl⟩ := Nat.exists_eq_add_of_lt hLt
  refine ⟨u.bytes (va + (k + 1)) r, ?_⟩
  rw [show k + r + 1 = k + 1 + r by omega, bytes_add, h.bytes_succ, append_assoc]
  rfl

/- The first zero is the end of a string. -/
theorem exists_stringAt {m : Nat} (hUpto : u.Upto va n m) (h : 0 ∈ u.bytes va m) :
    ∃ k < n, u.StringAt va k := by
  have hFirst := mem_bytes.mp h
  classical
  have hSpec := Nat.find_spec hFirst
  refine ⟨Nat.find hFirst, by have := hUpto.le; omega, fun i hi => hUpto.ok i (by omega), hSpec.2,
    fun i hi hZero => ?_⟩
  exact Nat.find_min hFirst hi ⟨by omega, hZero⟩

end UserSpace

end Xv6

namespace Xv6.Vm

/- The number of bytes before the zero. -/
def strlen : List UInt8 → Nat
| [] => 0
| x :: l => if x = 0 then 0 else strlen l + 1

/- Fetch a string from user memory; `max` is not negative. -/
def fetchstr (pagetable addr max : Nat) : VmM Int := do
  let (r, buf) ← copyinstrTo pagetable addr max
  if r then return strlen buf else return -1

/- A register of the trapframe, from `a0` to `a5`. -/
def argraw (trapframe : Nat) (n : Fin 6) : VmM Nat := do
  let s ← Prog.read
  return (s.mem trapframe).getLE (112 + 8 * n) 8

/- Fetch the string that is an argument of a call. -/
def argstr (pagetable trapframe : Nat) (n : Fin 6) (max : Nat) : VmM Int := do
  let addr ← argraw trapframe n
  fetchstr pagetable addr max

theorem strlen_append {l : List UInt8} (h : 0 ∉ l) : strlen (l ++ [0]) = l.length := by
  induction l with
  | nil => rfl
  | cons x l ih =>
    rw [mem_cons, not_or] at h
    rw [cons_append, strlen, if_neg (Ne.symm h.1), ih h.2, length_cons]

variable {s : Ram} {root va max : Nat}

/- What is stored at `dst`, with and without a string. -/
theorem copyinstrTo_eq (root max : Nat) (s : Ram) (hva : va < 2 ^ 64) :
    ∃ r dst, copyinstrTo root va max s = (.ok (r, dst), s) ∧
      ((∃ k < max, (userSpace s.mem root).StringAt va k ∧ r = true ∧
          dst = (userSpace s.mem root).bytes va (k + 1)) ∨
        (¬ ∃ k < max, (userSpace s.mem root).StringAt va k) ∧
          r = false ∧ 0 ∉ dst ∧ dst.length ≤ max) := by
  set u := userSpace s.mem root with hu
  have hUpto := u.upto_reach lt_of_ok_userSpace va max
  obtain ⟨r, s₁, hRun, rfl, hr⟩ := Prog.exists_ok_of_wp
    (copyinstrLoop_reads root hva (Nat.le_refl max)
      (Q := fun r s' => s' = s ∧ r = copyinstrPage (u.load va (u.reach va max))) ⟨rfl, rfl⟩)
  rw [load_eq_bytes (fun i hi => lt_of_ok_userSpace _ (hUpto.ok i hi))] at hr
  refine ⟨r.1, r.2, hRun, ?_⟩
  by_cases hStr : ∃ k < max, u.StringAt va k
  · obtain ⟨k, hk, hAt⟩ := hStr
    obtain ⟨l, hl⟩ := hAt.split hk hUpto
    rw [hl, copyinstrPage_zero hAt.not_mem, ← hAt.bytes_succ] at hr
    rw [hr]
    exact .inl ⟨k, hk, hAt, rfl, rfl⟩
  · have hFree : 0 ∉ u.bytes va (u.reach va max) := fun h =>
      hStr (exists_stringAt hUpto h)
    rw [copyinstrPage_of_not_mem hFree] at hr
    rw [hr]
    refine .inr ⟨hStr, rfl, hFree, ?_⟩
    simpa [bytes] using hUpto.le

/-
  `copyinstr` returns 0 just if a string with its zero lies
  within `max` bytes that can be accessed, whatever follows it.
  Then the string is at `dst`, and never more than `max` bytes
  or anything behind a zero is stored there. `fetchstr` and
  `argstr` return the length of the string, or -1.
-/
theorem copyinstr_fetches_string
    (root max : Nat)
    (srcva : BitVec 64)
    (s : Ram) :
    (∃ r dst, copyinstrTo root srcva.toNat max s = (.ok (r, dst), s) ∧
      (r = true ↔ ∃ k < max,
          (userSpace s.mem root).StringAt srcva.toNat k) ∧
      (∀ k < max, (userSpace s.mem root).StringAt srcva.toNat k →
          dst = (userSpace s.mem root).bytes srcva.toNat (k + 1)) ∧
      dst.length ≤ max ∧ 0 ∉ dst.dropLast) ∧
    ∃ len : Int, fetchstr root srcva.toNat max s = (.ok len, s) ∧
      (∀ tf n, argraw tf n s = (.ok srcva.toNat, s) →
          argstr root tf n max s = (.ok len, s)) ∧
      (∀ k < max, (userSpace s.mem root).StringAt srcva.toNat k →
          len = k) ∧
      ((¬ ∃ k < max, (userSpace s.mem root).StringAt srcva.toNat k) →
          len = -1) := by
  obtain ⟨r, dst, hRun, hCases⟩ := copyinstrTo_eq root max s srcva.isLt
  have hFetch : fetchstr root srcva.toNat max s =
      (.ok (if r then (strlen dst : Int) else -1), s) := by
    unfold fetchstr
    rw [Prog.bind_ok _ hRun]
    cases r with
    | _ => rfl
  refine ⟨⟨r, dst, hRun, ?_⟩, _, hFetch, fun tf n hRaw => (Prog.bind_ok _ hRaw).trans hFetch, ?_⟩
  · rcases hCases with ⟨k, hk, hAt, rfl, rfl⟩ | ⟨hNone, rfl, hFree, hLen⟩
    · refine ⟨iff_of_true rfl ⟨k, hk, hAt⟩, ?_, ?_, ?_⟩
      · intro k' _ hAt'
        rw [hAt.unique hAt']
      · simpa [bytes] using hk
      · rw [hAt.bytes_succ, dropLast_concat]
        exact hAt.not_mem
    · refine ⟨iff_of_false Bool.false_ne_true hNone, fun k hk hAt => ?_, hLen, fun hMem => ?_⟩
      · exact absurd ⟨k, hk, hAt⟩ hNone
      · exact hFree (mem_of_mem_dropLast hMem)
  · rcases hCases with ⟨k, hk, hAt, rfl, rfl⟩ | ⟨hNone, rfl, _⟩
    · refine ⟨fun k' _ hAt' => ?_, fun hNone => ?_⟩
      · rw [hAt.bytes_succ, strlen_append hAt.not_mem, ← hAt.unique hAt']
        simp [bytes]
      · exact absurd ⟨k, hk, hAt⟩ hNone
    · refine ⟨fun k hk hAt => ?_, fun _ => rfl⟩
      exact absurd ⟨k, hk, hAt⟩ hNone

end Xv6.Vm

-------
-- Copying Out
-------

namespace Xv6

theorem UserSpace.byte_store (u : UserSpace) {va : Nat} (hva : va < 2 ^ 64) (l : List UInt8)
    (h : va + l.length ≤ 2 ^ 64) (a : Nat) :
    (u.store va l).byte a =
      if va ≤ a then l[a - va]?.getD (u.byte a)
      else u.byte a := by
  have hSum : ∀ i < l.length, add64 va i = va + i := by
    intro i hi
    unfold add64
    omega
  by_cases hIn : va ≤ a ∧ a < va + l.length
  · obtain ⟨i, rfl⟩ := Nat.exists_eq_add_of_le hIn.1
    have hi : i < l.length := by omega
    have hGet := getElem_load (u := u.store va l)
      hva (by rwa [length_load])
    rw [hSum i hi] at hGet
    rw [if_pos hIn.1, ← hGet, Nat.add_sub_cancel_left, getElem?_eq_getElem hi]
    exact getElem_of_eq (u.load_store hva (by omega)) _
  · rw [byte_store_of_ne u hva l (fun i hi => by
      rw [hSum i hi]
      omega)]
    split
    · rw [getElem?_eq_none (by omega)]
      rfl
    · rfl

variable {L : MemLayout} {s s' : Ram} {root : Nat} {v : PtView} {N tf va n pa : Nat}
variable {E : VmFault → Ram → Prop}

theorem lt_pages (h : n < MAXVA / PGSIZE) : n < 512 * 512 * 512 := by
  simp only [MAXVA, PGSIZE] at h
  omega

theorem PtView.Shows.leafAt_user (h : v.Shows root s.mem) (hSound : s.Sound L v.tables)
    (hn : n < MAXVA / PGSIZE) : Xv6.leafAt s.mem root n = v.leaf n :=
  h.leafAt (fun _ hMem => (hSound.area_of_mem hMem).pageAddr) (lt_pages hn)

/- A page of the user is one of the view. -/
theorem PtView.Shows.leaf_of_user (h : v.Shows root s.mem) (hSound : s.Sound L v.tables)
    (hn : userPage s.mem root n ≠ 0) :
    ∃ flags, v.leaf n = some (userPage s.mem root n, flags) ∧ pteHas flags PTE_U = true := by
  have hLeaf := h.leafAt_user hSound (lt_of_userPage hn)
  unfold userPage at hn ⊢
  rw [hLeaf] at hn ⊢
  cases hv : v.leaf n with
  | none =>
    rw [hv] at hn
    exact absurd rfl hn
  | some e =>
    rw [hv] at hn
    obtain ⟨pa, flags⟩ := e
    dsimp only at hn ⊢
    split at hn
    · rename_i hIf
      exact ⟨flags, by rw [if_pos hIf], hIf.2⟩
    · exact absurd rfl hn

theorem userPage_eq_zero {mem : Nat → Page} (h : ¬ n < MAXVA / PGSIZE) :
    userPage mem root n = 0 := by
  by_contra hne
  exact h (lt_of_userPage hne)

/- Pages of the user stay while the view stays. -/
theorem PtView.Shows.userPage_congr (h : v.Shows root s.mem) (hSound : s.Sound L v.tables)
    (h' : v.Shows root s'.mem) (hSound' : s'.Sound L v.tables) :
    userPage s'.mem root = userPage s.mem root := by
  funext n
  by_cases hn : n < MAXVA / PGSIZE
  · unfold userPage
    rw [h.leafAt_user hSound hn, h'.leafAt_user hSound' hn]
  · rw [userPage_eq_zero hn, userPage_eq_zero hn]

/- A state with a page table that a process can have. -/
structure PtView.Process (L : MemLayout) (root : Nat) (v : PtView) (N tf : Nat)
    (s : Ram) : Prop where
  shows : v.Shows root s.mem
  space : v.Space L N tf
  sound : s.Sound L (v.own N)

namespace PtView.Process

section

variable (h : PtView.Process L root v N tf s)
include h

theorem mem_pages (hn : userPage s.mem root n ≠ 0) :
    userPage s.mem root n ∈ v.pages 0 N ∧ n < N := by
  obtain ⟨flags, hLeaf, hUser⟩ := h.shows.leaf_of_user h.sound.left hn
  have hLt := h.space.lt_of_user hLeaf hUser
  exact ⟨PtView.mem_pages hLeaf (Nat.zero_le _) (by omega), hLt⟩

/- No page is there twice. -/
theorem userPage_inj {m : Nat} (hn : userPage s.mem root n ≠ 0)
    (hEq : userPage s.mem root m = userPage s.mem root n) : m = n := by
  have hm := hn
  rw [← hEq] at hm
  obtain ⟨flags, hLeaf, _⟩ := h.shows.leaf_of_user h.sound.left hn
  obtain ⟨flags', hLeaf', _⟩ := h.shows.leaf_of_user h.sound.left hm
  rw [hEq] at hLeaf'
  have hNodup := (Multiset.nodup_add.mp (Multiset.nodup_add.mp h.sound.nodup).2.1).2.1
  exact PtView.eq_of_nodup_pages hNodup (h.mem_pages hm).2 (h.mem_pages hn).2 hLeaf' hLeaf

/- What the user can access. -/
theorem ok_iff (a : Nat) :
    (userSpace s.mem root).ok a = true ↔ a < MAXVA ∧
      ∃ pa flags, v.leaf (a / PGSIZE) = some (pa, flags) ∧ pteHas flags PTE_V = true ∧
        pteHas flags PTE_U = true := by
  rw [ok_userSpace]
  constructor
  · intro hne
    obtain ⟨flags, hLeaf, hUser⟩ := h.shows.leaf_of_user h.sound.left hne
    exact ⟨lt_of_ok_userSpace a ((ok_userSpace ..).mpr hne),
      _, flags, hLeaf, (h.shows.addr _ _ _ hLeaf).2.2.2.1,
      hUser⟩
  rintro ⟨ha, pa, flags, hLeaf, _, hUser⟩
  have hn : a / PGSIZE < MAXVA / PGSIZE := by
    simp only [MAXVA, PGSIZE] at ha ⊢
    omega
  unfold userPage
  rw [h.shows.leafAt_user h.sound.left hn, hLeaf]
  dsimp only
  rw [if_pos ⟨hn, hUser⟩]
  have hLt := h.space.lt_of_user hLeaf hUser
  exact (h.sound.right.area_of_mem (PtView.mem_pages hLeaf (Nat.zero_le _) (by omega))).ne_zero

/- One round of `copyout` stores a part of one page. -/
theorem write (hne : userPage s.mem root (va / PGSIZE) ≠ 0) {l : List UInt8}
    (hl : l.length ≤ PGSIZE - va % PGSIZE)
    (hs' : s' = s.setPage (userPage s.mem root (va / PGSIZE))
      ((s.mem (userPage s.mem root (va / PGSIZE))).splice (va % PGSIZE) l)) :
    PtView.Process L root v N tf s' ∧ userPage s'.mem root = userPage s.mem root ∧
      userSpace s'.mem root = (userSpace s.mem root).store va l := by
  set pa := userPage s.mem root (va / PGSIZE) with hpa
  have hLt : va < MAXVA := by
    have hLt := lt_of_userPage hne
    simp only [PGSIZE] at hLt ⊢
    omega
  have hTrades : s.Trades s' (v.pages 0 N) (v.pages 0 N) := by
    rw [hs']
    exact Pool.Trades.write _ (h.mem_pages hne).1 _
  obtain ⟨hShows, hSound⟩ := h.shows.write h.sound hTrades
  have hPages : userPage s'.mem root = userPage s.mem root :=
    h.shows.userPage_congr h.sound.left hShows hSound.left
  refine ⟨⟨hShows, h.space, hSound⟩, hPages, ?_⟩
  have hMapped : (userSpace s'.mem root).mapped = ((userSpace s.mem root).store va l).mapped := by
    rw [mapped_store]
    unfold userSpace
    rw [hPages]
  have hByte : (userSpace s'.mem root).byte = ((userSpace s.mem root).store va l).byte := by
    funext a
    simp only [MAXVA, PGSIZE] at hLt hl
    rw [byte_store _ (by omega) l (by omega)]
    simp only [userSpace]
    rw [hPages, hs']
    simp only [Ram.setPage]
    by_cases hPage : a / PGSIZE = va / PGSIZE
    · rw [hPage, update_self, Bytes.byte_splice _ _ _ (Nat.mod_lt _ (by decide))]
      simp only [PGSIZE] at hPage ⊢
      by_cases hLe : va ≤ a
      · rw [if_pos hLe, if_pos (by omega), show a % 4096 - va % 4096 = a - va by omega]
      · rw [if_neg hLe, if_neg (by omega)]
    · have hOther : userPage s.mem root (a / PGSIZE) ≠ pa :=
        fun hEq => hPage (h.userPage_inj hne hEq)
      rw [update_of_ne hOther]
      split
      · simp only [PGSIZE] at hPage
        rw [getElem?_eq_none (by omega)]
        rfl
      · rfl
  calc userSpace s'.mem root = ⟨(userSpace s'.mem root).mapped, (userSpace s'.mem root).byte⟩ := rfl
    _ = (userSpace s.mem root).store va l := by rw [hMapped, hByte]

end

end PtView.Process

/-
  The user's memory was changed to `u`, through the page table
  and without changing it. Other pages stay.
-/
structure UserWrote (L : MemLayout) (root : Nat) (v : PtView) (N tf : Nat) (s : Ram) (u : UserSpace)
    (s' : Ram) : Prop where
  process : PtView.Process L root v N tf s'
  pages : userPage s'.mem root = userPage s.mem root
  space : userSpace s'.mem root = u
  rest : ∀ q, (∀ n, userPage s.mem root n = q → q = 0) → s'.mem q = s.mem q

/- The loop of `copyout` is the one over user memory. -/
theorem copyoutLoop_writes {k : Nat} {src : List UInt8} (h : PtView.Process L root v N tf s)
    {Q : Bool → Ram → Prop}
    (hQ : ∀ s', UserWrote L root v N tf s (UserSpace.copyoutLoop k va src
          (userSpace s.mem root)).2 s' →
      Q (UserSpace.copyoutLoop k va src (userSpace s.mem root)).1 s') :
    wp (copyoutLoop root k va src) Q E s := by
  induction k generalizing va src s Q with
  | zero =>
    unfold copyoutLoop
    rw [wp_pure]
    exact hQ s ⟨h, rfl, rfl, fun _ _ => rfl⟩
  | succ k ih =>
    unfold copyoutLoop
    rw [UserSpace.copyoutLoop] at hQ
    by_cases hSrc : src.isEmpty = true
    · rw [if_pos hSrc] at hQ ⊢
      rw [wp_pure]
      exact hQ s ⟨h, rfl, rfl, fun _ _ => rfl⟩
    rw [if_neg hSrc] at hQ ⊢
    dsimp only at hQ
    rw [UserSpace.ok_rounddown] at hQ
    refine walkaddr_round (fun hOk => ?_) (fun pa hOk hpa hne => ?_)
    · rw [hOk] at hQ
      rw [if_pos rfl, wp_pure]
      exact hQ s ⟨h, rfl, rfl, fun _ _ => rfl⟩
    rw [if_pos hOk, UserSpace.sub_rounddown] at hQ
    rw [if_neg hne, UserSpace.sub_rounddown]
    simp only [wp_bind, wp_edit]
    set l := src.take (PGSIZE - va % PGSIZE)
    set s₁ := s.setPage pa ((s.mem pa).splice (va % PGSIZE) l) with hs₁
    obtain ⟨hProc, hPages, hSpace⟩ := h.write (by rw [← hpa]; exact hne)
      (length_take_le (PGSIZE - va % PGSIZE) src)
      (show s₁ = _ by rw [hs₁, hpa])
    refine ih hProc (fun s' hs' => ?_)
    rw [hSpace] at hs' ⊢
    refine hQ s' ⟨hs'.process, hs'.pages.trans hPages, hs'.space, fun q hq => ?_⟩
    have hOther : q ≠ pa := by
      rintro rfl
      exact hne (hq _ hpa.symm)
    rw [hs'.rest q (by rw [hPages]; exact hq)]
    exact update_of_ne hOther _ _

/- The bytes of physical memory after bytes were stored. -/
structure UserStored (root : Nat) (s : Ram) (va : Nat) (l : List UInt8) (s' : Ram) : Prop where
  range : ∀ i (hi : i < l.length), (userSpace s'.mem root).byte (va + i) = l[i]
  rest : ∀ q o, o < PGSIZE →
    (∀ i < l.length, userPage s.mem root ((va + i) / PGSIZE) = q →
      (va + i) % PGSIZE ≠ o) →
    (s'.mem q).byte o = (s.mem q).byte o

theorem UserWrote.stored {l : List UInt8} (hva : va < 2 ^ 64) (hl : va + l.length ≤ 2 ^ 64)
    (h : UserWrote L root v N tf s ((userSpace s.mem root).store va l) s') :
    UserStored root s va l s' where
  range := by
    intro i hi
    rw [h.space, byte_store _ hva l hl, if_pos (Nat.le_add_right va i),
      Nat.add_sub_cancel_left, getElem?_eq_getElem hi]
    rfl
  rest := by
    intro q o ho hOut
    by_cases hUser : ∃ n, userPage s.mem root n = q ∧ q ≠ 0
    · obtain ⟨n, hn, hq⟩ := hUser
      have hDiv : (n * PGSIZE + o) / PGSIZE = n := by
        simp only [PGSIZE] at ho ⊢
        omega
      have hMod : (n * PGSIZE + o) % PGSIZE = o := by
        simp only [PGSIZE] at ho ⊢
        omega
      have hByte := congrFun (congrArg byte h.space) (n * PGSIZE + o)
      rw [byte_store _ hva l hl] at hByte
      simp only [userSpace, h.pages, hDiv, hMod, hn] at hByte
      rw [hByte]
      split
      · by_cases hi : n * PGSIZE + o - va < l.length
        · have hSum : va + (n * PGSIZE + o - va) = n * PGSIZE + o := by omega
          have hNot := hOut _ hi
          rw [hSum, hDiv, hMod] at hNot
          exact absurd rfl (hNot hn)
        · rw [getElem?_eq_none (by omega)]
          rfl
      · rfl
    · rw [h.rest q (fun n hn => ?_)]
      by_contra hq
      exact hUser ⟨n, hn, hq⟩

/- `copyout`, with the bytes that it stores. -/
theorem copyout_stores (h : PtView.Process L root v N tf s) (hva : va < 2 ^ 64) (src : List UInt8) :
    ∃ k s', (userSpace s.mem root).Upto va src.length k ∧
      copyout root va src s = (.ok (decide (k = src.length)), s') ∧
      PtView.Process L root v N tf s' ∧
      userPage s'.mem root = userPage s.mem root ∧
      UserStored root s va (src.take k) s' := by
  set u := userSpace s.mem root with hu
  have hUpto := u.upto_reach lt_of_ok_userSpace va src.length
  set k := u.reach va src.length with hk
  have hLoop := copyoutLoop_eq hva (Nat.le_refl src.length) u
  obtain ⟨b, s', hRun, hWrote, hb⟩ := Prog.exists_ok_of_wp
    (copyoutLoop_writes h (fun s' hs' => ⟨hs', rfl⟩) (Q := fun b s' => UserWrote L root v N tf s
        (u.copyoutLoop src.length va src).2 s' ∧ b = (u.copyoutLoop src.length va src).1))
  rw [hLoop] at hWrote hb
  have hTop : va + (src.take k).length ≤ 2 ^ 64 := by
    rw [length_take]
    rcases Nat.eq_zero_or_pos k with hZero | hPos
    · omega
    · have hLast := lt_of_ok_userSpace _ (hUpto.ok (k - 1) (by omega))
      simp only [MAXVA] at hLast
      omega
  refine ⟨k, s', hUpto, ?_, hWrote.process, hWrote.pages, hWrote.stored hva hTop⟩
  unfold copyout
  rw [hRun, hb]
  rfl

/- What `copyin` returns, and what it stores at `dst`. -/
theorem copyin_loads (root len : Nat) (s : Ram) (hva : va < 2 ^ 64) :
    ∃ k, (userSpace s.mem root).Upto va len k ∧ copyinTo root va len s = (.ok (decide (k = len),
        (userSpace s.mem root).bytes va k), s) ∧
      copyin root va len s = (.ok (if k = len then
        some ((userSpace s.mem root).bytes va k) else none), s) := by
  set u := userSpace s.mem root with hu
  have hUpto := u.upto_reach lt_of_ok_userSpace va len
  set k := u.reach va len with hk
  have hLoop := copyinLoop_eq (u := u) hva (Nat.le_refl len)
  rw [load_eq_bytes (fun i hi => lt_of_ok_userSpace _ (hUpto.ok i hi))] at hLoop
  obtain ⟨r, s₁, hRun, rfl, hr⟩ := Prog.exists_ok_of_wp
    (copyinLoop_reads root hva (Q := fun r s' => s' = s ∧
        r = u.copyinLoop len va len) ⟨rfl, rfl⟩)
  rw [hLoop] at hr
  rw [hr] at hRun
  refine ⟨k, hUpto, hRun, ?_⟩
  refine (Prog.bind_ok _ hRun).trans ?_
  simp only [beq_iff_eq]
  rfl

/-
  `copyout` and `copyin` transfer the bytes up to the first
  page that the user cannot access, and return 0 just if there
  is none in the range. Nothing else in memory changes. What
  was copied out is read back.
-/
theorem copyout_and_copyin_transfer
    (h : PtView.Process L root v N tf s)
    (dstva : BitVec 64)
    (src : List UInt8) :
    (∀ a, (userSpace s.mem root).ok a = true ↔ a < MAXVA ∧
      ∃ pa flags, v.leaf (a / PGSIZE) = some (pa, flags) ∧
        pteHas flags PTE_V = true ∧
        pteHas flags PTE_U = true) ∧
    ∃ k s', (userSpace s.mem root).Upto dstva.toNat src.length k ∧
      copyout root dstva.toNat src s =
        (.ok (decide (k = src.length)), s') ∧
      (k = src.length ↔ ∀ i < src.length,
          (userSpace s.mem root).ok (dstva.toNat + i) = true) ∧
      UserStored root s dstva.toNat (src.take k) s' ∧
      copyinTo root dstva.toNat src.length s =
        (.ok (decide (k = src.length),
          (userSpace s.mem root).bytes dstva.toNat k), s) ∧
      (k = src.length → copyin root dstva.toNat src.length s' =
          (.ok (some src), s')) := by
  obtain ⟨k, s', hUpto, hRun, _, hPages, hStored⟩ := copyout_stores h dstva.isLt src
  obtain ⟨k₁, hUpto₁, hIn, _⟩ := copyin_loads root src.length s dstva.isLt
  cases hUpto₁.unique hUpto
  refine ⟨h.ok_iff, k, s', hUpto, hRun, hUpto.all, hStored, hIn, fun hk => ?_⟩
  -- the pages are the same, and the bytes are those of `src`
  obtain ⟨k₂, hUpto₂, _, hBack⟩ := copyin_loads root src.length s' dstva.isLt
  have hOk : (userSpace s'.mem root).ok = (userSpace s.mem root).ok := by
    funext a
    unfold ok userSpace
    rw [hPages]
  have hk₂ : k₂ = src.length := by
    rw [hUpto₂.all, hOk]
    exact hUpto.all.mp hk
  rw [hBack, if_pos hk₂, hk₂]
  rw [hk, take_length] at hStored
  have hBytes : (userSpace s'.mem root).bytes dstva.toNat src.length = src := by
    refine ext_getElem (by simp [bytes]) ?_
    intro i _ hi
    rw [← hStored.range i hi]
    simp [bytes]
  rw [hBytes]

/- The first process gets two bytes, and they are read back. -/
theorem first_process_transfers :
    ∃ v s', PtView.Process Vm.smallLayout
        (Vm.bootedKernel.proc 0).mem.pagetable v
        (npages (Vm.bootedKernel.proc 0).mem.sz)
        (Vm.bootedKernel.proc 0).mem.trapframe
        Vm.bootedKernel.vm ∧
      copyout (Vm.bootedKernel.proc 0).mem.pagetable 0 [1, 2]
        Vm.bootedKernel.vm = (.ok true, s') ∧
      (userSpace s'.mem
        (Vm.bootedKernel.proc 0).mem.pagetable).byte 1 = 2 ∧
      copyin (Vm.bootedKernel.proc 0).mem.pagetable 0 2 s' =
        (.ok (some [1, 2]), s') := by
  have hStored : (copyout (Vm.bootedKernel.proc 0).mem.pagetable
      0 [1, 2] Vm.bootedKernel.vm).1.toOption = some true := by
    decide +kernel
  obtain ⟨v, hHolds, hSound, _⟩ := Vm.exists_holds_of_reach
    Vm.reach_bootedKernel (p := 0) (by decide +kernel)
  have h : PtView.Process Vm.smallLayout _ v _ _
      Vm.bootedKernel.vm :=
    ⟨hHolds.shows, hHolds.space, hSound.left⟩
  obtain ⟨_, k, s', _, hRun, _, hBytes, _, hBack⟩ :=
    copyout_and_copyin_transfer h 0 [1, 2]
  change copyout _ 0 _ _ = _ at hRun
  rw [hRun] at hStored
  have hk : k = 2 := of_decide_eq_true (Option.some.inj hStored)
  subst hk
  exact ⟨v, s', h, hRun, hBytes.range 1 (by decide), hBack rfl⟩

end Xv6
