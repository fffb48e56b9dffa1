import Xv6.Fs.Layout
import Xv6.Lib.System

/-
  Block allocation, at the level of the loops of `fs.c`.

  `balloc` looks for a free bit by bitmap block and by bit in
  the block, and counts with the type `int`; `bfree` finds
  the bit from the block number. Both mean the same bit.

  A block that is allocated is also zeroed. So the blocks of
  the bitmap itself have to be marked as used: else `balloc`
  returns one of them and clears all of its bits.

  Key definitions include:
    * `FreeMap.balloc`, `FreeMap.bfree`
    * `freeMapSystem`

  The main results are:
    * `balloc_may_clear_bitmap`
    * `block_allocation`
-/

open Function

-------
-- Allocation
-------

namespace Xv6

/- The fields of `struct superblock` that place the bitmap. -/
structure FreeMap where
  size : BitVec 32
  bmapstart : BitVec 32

namespace FreeMap

variable (m : FreeMap)

/- Block `q` of the bitmap. -/
def mapBlock (q : BitVec 32) : Nat := (q + m.bmapstart).toNat

/-
  The inner loop of `balloc`, with `n` bits of the block `x`
  left: the first of them that is clear.
-/
def scanBits (x : Block) (b : BitVec 32) : Nat → Option Nat
| 0 => none
| n + 1 =>
    let bi := BPB - (n + 1)
    if b + BitVec.ofNat 32 bi < m.size then
      if x.bit bi then scanBits x b n else some bi
    else none

/-
  The outer loop of `balloc`, for at most so many turns: the
  block that is returned, and the blocks after the call.
-/
def scanBlocks (d : Disk) : Nat → BitVec 32 → Option (Nat × Disk)
| 0, _ => none
| fuel + 1, b =>
    if b < m.size then
      let k := m.mapBlock (b.sdiv (BitVec.ofNat 32 BPB))
      match m.scanBits (d k) b BPB with
      | some bi =>
        let bno := (b + BitVec.ofNat 32 bi).toNat
        some (bno, update (update d k ((d k).setBit bi true)) bno Bytes.zero)
      | none => scanBlocks d fuel (b + BitVec.ofNat 32 BPB)
    else some (0, d)

/- Allocate a zeroed disk block; 0 if out of disk space. -/
def balloc (fuel : Nat) (d : Disk) : Option (Nat × Disk) := m.scanBlocks d fuel 0

/- Free a disk block. -/
def bfree (b : BitVec 32) (d : Disk) : Except Panic Disk :=
  let k := m.mapBlock (b / BitVec.ofNat 32 BPB)
  let bi := (b % BitVec.ofNat 32 BPB).toNat
  if (d k).bit bi = false then .error .freeingFreeBlock
  else .ok (update d k ((d k).setBit bi false))

/- The block of the bitmap with the bit of block `b`. -/
def block (b : Nat) : Nat := m.mapBlock (BitVec.ofNat 32 (b / BPB))

/- Is block `b` marked as used? -/
def bit (d : Disk) (b : Nat) : Bool := (d (m.block b)).bit (b % BPB)

/- Mark block `b`. -/
def setBit (d : Disk) (b : Nat) (v : Bool) : Disk :=
  update d (m.block b) ((d (m.block b)).setBit (b % BPB) v)

end FreeMap

/- A bitmap that does not mark its own block as used. -/
theorem balloc_may_clear_bitmap :
    ∃ (m : FreeMap) (d d' : Disk), m.bit d 0 = true ∧ m.balloc 1 d = some (1, d') ∧
      m.bit d' 0 = false ∧ m.bfree 1 d' = .error .freeingFreeBlock := by
  refine ⟨⟨3, 1⟩, update (fun _ => Bytes.zero) 1 (Bytes.zero.setBit 0 true), _, ?_, rfl, ?_, ?_⟩
  · decide
  · decide
  · rfl

-------
-- Loops
-------

namespace FreeMap

variable {m : FreeMap} {d d' : Disk} {b c : Nat}

/- The bits of one block of the bitmap. -/
theorem scanBits_cases (x : Block) {b : BitVec 32} (hb : b.toNat + BPB ≤ 2 ^ 32) {n : Nat}
    (hn : n ≤ BPB) :
    (∃ bi, m.scanBits x b n = some bi ∧ BPB - n ≤ bi ∧ bi < BPB ∧ b.toNat + bi < m.size.toNat ∧
      x.bit bi = false ∧ ∀ k < bi, BPB - n ≤ k → x.bit k = true) ∨
    m.scanBits x b n = none ∧
      ∀ k < BPB, BPB - n ≤ k → b.toNat + k < m.size.toNat → x.bit k = true := by
  induction n with
  | zero =>
    refine .inr ⟨rfl, ?_⟩
    intro k hk hLow
    omega
  | succ n ih =>
    have hNat : (b + BitVec.ofNat 32 (BPB - (n + 1))).toNat = b.toNat + (BPB - (n + 1)) := by
      rw [BitVec.toNat_add, BitVec.toNat_ofNat, Nat.mod_eq_of_lt (by omega : _ < 2 ^ 32),
        Nat.mod_eq_of_lt (by omega)]
    rw [scanBits]
    split
    · next hIn =>
        rw [BitVec.lt_def, hNat] at hIn
        split
        · next hSet =>
            have hStep : ∀ k, BPB - (n + 1) ≤ k → k = BPB - (n + 1) ∨ BPB - n ≤ k := by omega
            rcases ih (by omega) with ⟨bi, hEq, hLow, hLt, hSize, hClear, hBefore⟩ | ⟨hEq, hAll⟩
            · refine .inl ⟨bi, hEq, by omega, hLt, hSize, hClear, ?_⟩
              intro k hk hkLow
              rcases hStep k hkLow with rfl | hLater
              · exact hSet
              · exact hBefore k hk hLater
            · refine .inr ⟨hEq, ?_⟩
              intro k hk hkLow hkSize
              rcases hStep k hkLow with rfl | hLater
              · exact hSet
              · exact hAll k hk hLater hkSize
        · next hClear =>
            exact .inl ⟨_, rfl, le_rfl, by omega, hIn, by simpa using hClear, by omega⟩
    · next hOut =>
        rw [BitVec.lt_def] at hOut
        refine .inr ⟨rfl, ?_⟩
        intro k hk hLow hkSize
        omega

/- The blocks after block `b` was allocated. -/
def taken (m : FreeMap) (d : Disk) (b : Nat) : Disk := update (m.setBit d b true) b Bytes.zero

/- The position of a bit, from a block of the bitmap. -/
theorem bit_eq (d : Disk) (j : Nat) {k : Nat} (hk : k < BPB) :
    m.bit d (BPB * j + k) = (d (m.mapBlock (BitVec.ofNat 32 j))).bit k := by
  unfold bit block
  rw [Nat.mul_add_mod, Nat.mod_eq_of_lt hk, Nat.mul_add_div (by decide), Nat.div_eq_of_lt hk]
  rfl

theorem setBit_eq (d : Disk) (j : Nat) {k : Nat} (hk : k < BPB) (v : Bool) :
    m.setBit d (BPB * j + k) v = update d (m.mapBlock (BitVec.ofNat 32 j))
      ((d (m.mapBlock (BitVec.ofNat 32 j))).setBit k v) := by
  unfold setBit block
  rw [Nat.mul_add_mod, Nat.mod_eq_of_lt hk, Nat.mul_add_div (by decide), Nat.div_eq_of_lt hk]
  rfl

/- The counter of the outer loop is a multiple of `BPB`. -/
theorem counter_eq {j : Nat} (hj : BPB * j < 2 ^ 31) :
    (BitVec.ofNat 32 (BPB * j)).toNat = BPB * j ∧
      (BitVec.ofNat 32 (BPB * j)).sdiv (BitVec.ofNat 32 BPB) = BitVec.ofNat 32 j := by
  have hNat : (BitVec.ofNat 32 (BPB * j)).toNat = BPB * j := by
    rw [BitVec.toNat_ofNat, Nat.mod_eq_of_lt (by omega)]
  have hLow : j < 2 ^ 32 := by
    simp only [BPB, BSIZE] at hj
    omega
  refine ⟨hNat, BitVec.eq_of_toNat_eq ?_⟩
  have hMsb : (BitVec.ofNat 32 (BPB * j)).msb = false := by
    rw [BitVec.msb_eq_false_iff_two_mul_lt]
    omega
  rw [BitVec.sdiv_eq, hMsb]
  simp only [show (BitVec.ofNat 32 BPB).msb = false by decide, BitVec.udiv_eq, BitVec.toNat_udiv,
    hNat, BitVec.toNat_ofNat]
  rw [Nat.mod_eq_of_lt (show BPB < 2 ^ 32 by decide), Nat.mul_div_cancel_left j (by decide),
    Nat.mod_eq_of_lt hLow]

/- The walk over the bitmap, from its block `j` on. -/
theorem scanBlocks_cases (hSize : m.size.toNat + BPB ≤ 2 ^ 31) (fuel j : Nat)
    (hFuel : m.size.toNat ≤ BPB * (j + fuel)) (hj : BPB * j < m.size.toNat + BPB)
    (hBefore : ∀ c < BPB * j, c < m.size.toNat → m.bit d c = true) :
    (∃ r < m.size.toNat, m.scanBlocks d (fuel + 1) (BitVec.ofNat 32 (BPB * j)) =
        some (r, m.taken d r) ∧ m.bit d r = false ∧ ∀ c < r, m.bit d c = true) ∨
    m.scanBlocks d (fuel + 1) (BitVec.ofNat 32 (BPB * j)) = some (0, d) ∧
      ∀ c < m.size.toNat, m.bit d c = true := by
  obtain ⟨hNat, hDiv⟩ := counter_eq (show BPB * j < 2 ^ 31 by omega)
  rw [scanBlocks]
  split
  next hIn =>
    rw [BitVec.lt_def] at hIn
    rw [hDiv]
    dsimp only
    rcases m.scanBits_cases (b := BitVec.ofNat 32 (BPB * j)) (d (m.mapBlock (BitVec.ofNat 32 j)))
      (by omega) le_rfl with
      ⟨bi, hEq, _, hLt, hbi, hClear, hSet⟩ | ⟨hEq, hAll⟩
    · have hSum : (BitVec.ofNat 32 (BPB * j) + BitVec.ofNat 32 bi).toNat = BPB * j + bi := by
        rw [← BitVec.ofNat_add, BitVec.toNat_ofNat, Nat.mod_eq_of_lt (by omega)]
      rw [hEq]
      dsimp only
      rw [hSum]
      refine .inl ⟨BPB * j + bi, by omega, ?_, ?_, ?_⟩
      · rw [taken, setBit_eq d j hLt]
      · rw [bit_eq d j hLt, hClear]
      · intro c hc
        rcases Nat.lt_or_ge c (BPB * j) with hOld | hNew
        · exact hBefore c hOld (by omega)
        · obtain ⟨k, rfl⟩ := Nat.exists_eq_add_of_le hNew
          rw [bit_eq d j (by omega)]
          exact hSet k (by omega) (by omega)
    · rw [hEq]
      have hNext : BitVec.ofNat 32 (BPB * j) + BitVec.ofNat 32 BPB =
          BitVec.ofNat 32 (BPB * (j + 1)) := by
        rw [← BitVec.ofNat_add, Nat.mul_succ]
      cases fuel with
      | zero =>
        rw [Nat.add_zero] at hFuel
        omega
      | succ fuel =>
        rw [hNext]
        refine scanBlocks_cases hSize fuel (j + 1) ?_ ?_ ?_
        · rw [show j + 1 + fuel = j + (fuel + 1) by omega]
          exact hFuel
        · rw [Nat.mul_succ]
          omega
        · intro c hc hcSize
          rcases Nat.lt_or_ge c (BPB * j) with hOld | hNew
          · exact hBefore c hOld hcSize
          · obtain ⟨k, rfl⟩ := Nat.exists_eq_add_of_le hNew
            rw [Nat.mul_succ] at hc
            rw [bit_eq d j (by omega)]
            exact hAll k (by omega) (by omega) (by omega)
  next hOut =>
    rw [BitVec.lt_def] at hOut
    refine .inr ⟨rfl, ?_⟩
    intro c hc
    exact hBefore c (by omega) hc
termination_by fuel

/- `balloc` takes the first free block, if there is one. -/
theorem balloc_cases (hSize : m.size.toNat + BPB ≤ 2 ^ 31) {fuel : Nat}
    (hFuel : m.size.toNat ≤ BPB * fuel) (d : Disk) :
    (∃ r < m.size.toNat, m.balloc (fuel + 1) d = some (r, m.taken d r) ∧ m.bit d r = false ∧
      ∀ c < r, m.bit d c = true) ∨
    m.balloc (fuel + 1) d = some (0, d) ∧ ∀ c < m.size.toNat, m.bit d c = true := by
  refine scanBlocks_cases hSize fuel 0 ?_ ?_ ?_
  · rw [Nat.zero_add]
    exact hFuel
  · exact Nat.add_pos_right _ (by decide)
  · intro c hc
    cases hc

-------
-- Bits
-------

/- Two blocks have different bits. -/
theorem bit_setBit (d : Disk) (v : Bool) (hb : b < 2 ^ 31) (hc : c < 2 ^ 31) :
    m.bit (m.setBit d b v) c = if c = b then v else m.bit d c := by
  apply Superblock.bit_setBit_at
  intro hBlock
  have hEq := congrArg BitVec.toNat ((BitVec.add_left_inj _).mp (BitVec.eq_of_toNat_eq hBlock))
  rw [BitVec.toNat_ofNat, BitVec.toNat_ofNat] at hEq
  simp only [BPB, BSIZE] at hEq ⊢
  omega

/- `bfree` looks at the bit that `balloc` sets. -/
theorem bfree_eq (b : BitVec 32) (d : Disk) :
    m.bfree b d = if m.bit d b.toNat = false then .error .freeingFreeBlock
      else .ok (m.setBit d b.toNat false) := by
  have hDiv : b / BitVec.ofNat 32 BPB = BitVec.ofNat 32 (b.toNat / BPB) := by
    apply BitVec.eq_of_toNat_eq
    rw [BitVec.toNat_udiv, BitVec.toNat_ofNat, BitVec.toNat_ofNat,
      Nat.mod_eq_of_lt (Nat.lt_of_le_of_lt (Nat.div_le_self ..) b.isLt)]
    rfl
  unfold bfree
  rw [hDiv]
  rfl

/- Allocation sets one bit, unless it clears the bitmap. -/
theorem bit_taken (hb : b < 2 ^ 31) (hc : c < 2 ^ 31) (hMap : m.block c ≠ b) :
    m.bit (m.taken d b) c = if c = b then true else m.bit d c := by
  rw [← bit_setBit d true hb hc, bit, taken, update_of_ne hMap]
  rfl

end FreeMap

-------
-- Runs
-------

/- The blocks, and those allocated and not freed since. -/
structure MapState where
  disk : Disk
  live : List Nat

inductive MapAction where
  | balloc
  | bfree (b : BitVec 32)
  -- clients of the allocated blocks, and of others
  | write (k : Nat) (x : Block)

variable (m : FreeMap) {M : Nat → Prop} {d : Disk} {fuel : Nat} {s s' : MapState} {a : MapAction}

/- Calls of `balloc` and `bfree` in any order. -/
def freeMapSystem (fuel : Nat) (d : Disk) : System MapState MapAction Panic where
  init := fun s => s = ⟨d, []⟩
  step := fun s a =>
    match a with
    | .balloc =>
      match m.balloc fuel s.disk with
      | some (r, d') => .next ⟨d', if r = 0 then s.live else r :: s.live⟩
      | none => .disabled
    | .bfree b =>
      match m.bfree b s.disk with
      | .ok d' => .next ⟨d', s.live.erase b.toNat⟩
      | .error e => .fault e
    | .write k x => .next { s with disk := update s.disk k x }

/- Nobody frees a block of `M`, or writes to the bitmap. -/
def SparesMap (M : Nat → Prop) (_ : MapState) : MapAction → Prop
| .balloc => True
| .bfree b => b.toNat < m.size.toNat ∧ ¬ M b.toNat
| .write k _ => ∀ c < m.size.toNat, m.block c ≠ k

/- The blocks of `M` and the allocated ones are in use. -/
structure MapSound (M : Nat → Prop) (s : MapState) : Prop where
  used : ∀ b < m.size.toNat, M b → m.bit s.disk b = true
  nodup : s.live.Nodup
  live : ∀ b ∈ s.live, b < m.size.toNat ∧ ¬ M b ∧ m.bit s.disk b = true

section

variable {m} (hSize : m.size.toNat + BPB ≤ 2 ^ 31) (hFuel : m.size.toNat ≤ BPB * fuel)
  (hZero : M 0) (hMap : ∀ c < m.size.toNat, M (m.block c))
include hSize hFuel hZero hMap

/- One call of `balloc`. -/
theorem MapSound.balloc (hUsed : ∀ b < m.size.toNat, M b → m.bit d b = true) :
    (m.balloc (fuel + 1) d = some (0, d) ∧ ∀ c < m.size.toNat, m.bit d c = true) ∨
    ∃ r < m.size.toNat, r ≠ 0 ∧ ¬ M r ∧ m.balloc (fuel + 1) d = some (r, m.taken d r) ∧
      m.bit d r = false ∧ (∀ c < r, m.bit d c = true) ∧
      ∀ c < m.size.toNat, m.bit (m.taken d r) c = if c = r then true else m.bit d c := by
  rcases FreeMap.balloc_cases hSize hFuel d with ⟨r, hr, hEq, hClear, hBefore⟩ | hFull
  · have hNot : ¬ M r := by
      intro hM
      rw [hUsed r hr hM] at hClear
      cases hClear
    have hNe (x : Nat) (hM : M x) : x ≠ r := by
      rintro rfl
      exact hNot hM
    refine .inr ⟨r, hr, (hNe 0 hZero).symm, hNot, hEq, hClear, hBefore, ?_⟩
    intro c hc
    exact FreeMap.bit_taken (by omega) (by omega) (hNe _ (hMap c hc))
  · exact .inl hFull

theorem MapSound.step (h : MapSound m M s) (hSpares : SparesMap m M s a)
    (hNext : (freeMapSystem m (fuel + 1) d).step s a = .next s') : MapSound m M s' := by
  cases a with
  | balloc =>
    simp only [freeMapSystem] at hNext
    rcases MapSound.balloc hSize hFuel hZero hMap h.used with
      ⟨hEq, _⟩ | ⟨r, hr, hPos, hNot, hEq, hClear, _, hBit⟩
    · rw [hEq] at hNext
      cases hNext
      exact ⟨h.used, h.nodup, h.live⟩
    · rw [hEq] at hNext
      simp only [if_neg hPos] at hNext
      cases hNext
      have hKept {c : Nat} (hc : c < m.size.toNat) (hSet : m.bit s.disk c = true) :
          m.bit (m.taken s.disk r) c = true := by
        rw [hBit c hc, hSet, ite_self]
      refine ⟨fun b hb hM => hKept hb (h.used b hb hM), ?_, ?_⟩
      · refine List.nodup_cons.mpr ⟨?_, h.nodup⟩
        intro hMem
        rw [(h.live r hMem).2.2] at hClear
        cases hClear
      · intro b hb
        rcases List.mem_cons.mp hb with rfl | hb
        · exact ⟨hr, hNot, (hBit b hr).trans (if_pos rfl)⟩
        · obtain ⟨hLt, hFree, hSet⟩ := h.live b hb
          exact ⟨hLt, hFree, hKept hLt hSet⟩
  | bfree b =>
    obtain ⟨hb, hNot⟩ := hSpares
    simp only [freeMapSystem, FreeMap.bfree_eq] at hNext
    split at hNext
    next d' hOk =>
      split at hOk
      · cases hOk
      cases hOk
      cases hNext
      have hKept {c : Nat} (hc : c < m.size.toNat) (hcb : c ≠ b.toNat) :
          m.bit (m.setBit s.disk b.toNat false) c = m.bit s.disk c := by
        rw [FreeMap.bit_setBit _ _ (by omega) (by omega), if_neg hcb]
      refine ⟨?_, h.nodup.erase _, ?_⟩
      · intro c hc hM
        rw [hKept hc (by rintro rfl; exact hNot hM)]
        exact h.used c hc hM
      · intro c hc
        obtain ⟨hcb, hMem⟩ := h.nodup.mem_erase_iff.mp hc
        obtain ⟨hLt, hFree, hSet⟩ := h.live c hMem
        exact ⟨hLt, hFree, (hKept hLt hcb).trans hSet⟩
    next => cases hNext
  | write k x =>
    cases hNext
    have hKept {c : Nat} (hc : c < m.size.toNat) :
        m.bit (update s.disk k x) c = m.bit s.disk c := by
      rw [FreeMap.bit, update_of_ne (hSpares c hc)]
      rfl
    refine ⟨fun b hb hM => (hKept hb).trans (h.used b hb hM), h.nodup, ?_⟩
    intro b hb
    obtain ⟨hLt, hFree, hSet⟩ := h.live b hb
    exact ⟨hLt, hFree, (hKept hLt).trans hSet⟩

end

/-
  Where the bits of a set `M` of blocks are set that has
  block 0 and the blocks of the bitmap in it: `balloc` takes
  the first free block, sets its bit and zeroes it, and
  returns 0 if there is none. `bfree` clears the same bit, or
  panics if it is clear. In every run, the blocks allocated
  and not freed differ from each other, and none is in `M`.
-/
theorem block_allocation
    (hSize : m.size.toNat + BPB ≤ 2 ^ 31)
    (hFuel : m.size.toNat ≤ BPB * fuel)
    (hZero : M 0)
    (hMap : ∀ c < m.size.toNat, M (m.block c))
    (hUsed : ∀ b < m.size.toNat, M b → m.bit d b = true) :
    ((m.balloc (fuel + 1) d = some (0, d) ∧
        ∀ c < m.size.toNat, m.bit d c = true) ∨
      ∃ r < m.size.toNat, ∃ d',
        m.balloc (fuel + 1) d = some (r, d') ∧ r ≠ 0 ∧ ¬ M r ∧
        m.bit d r = false ∧ (∀ c < r, m.bit d c = true) ∧
        d' = update (m.setBit d r true) r Bytes.zero ∧
        (∀ c < m.size.toNat,
            m.bit d' c = if c = r then true else m.bit d c) ∧
        ∃ d'', m.bfree (BitVec.ofNat 32 r) d' = .ok d'' ∧
          ∀ c < m.size.toNat, m.bit d'' c = m.bit d c) ∧
    (∀ b : BitVec 32, b.toNat < m.size.toNat →
      (m.bfree b d = .error .freeingFreeBlock ↔
          m.bit d b.toNat = false) ∧
      (m.bit d b.toNat = true →
          m.bfree b d = .ok (m.setBit d b.toNat false) ∧
        ∀ c < m.size.toNat, m.bit (m.setBit d b.toNat false) c =
          if c = b.toNat then false else m.bit d c)) ∧
    ∀ s, (freeMapSystem m (fuel + 1) d).Reach (SparesMap m M) s →
      s.live.Nodup ∧ ∀ b ∈ s.live, b < m.size.toNat ∧ ¬ M b ∧
        m.bit s.disk b = true := by
  refine ⟨?_, ?_, ?_⟩
  · rcases MapSound.balloc hSize hFuel hZero hMap hUsed with
      hFull | ⟨r, hr, hPos, hNot, hEq, hClear, hBefore, hBit⟩
    · exact .inl hFull
    refine .inr ⟨r, hr, _, hEq, hPos, hNot, hClear, hBefore, rfl, hBit, ?_⟩
    have hNat : (BitVec.ofNat 32 r).toNat = r := by
      rw [BitVec.toNat_ofNat, Nat.mod_eq_of_lt (by omega)]
    rw [FreeMap.bfree_eq, hNat, hBit r hr, if_pos rfl]
    refine ⟨_, rfl, ?_⟩
    intro c hc
    rw [FreeMap.bit_setBit _ _ (by omega) (by omega), hBit c hc]
    by_cases hcr : c = r
    · rw [if_pos hcr, hcr, hClear]
    · rw [if_neg hcr, if_neg hcr]
  · intro b hb
    rw [FreeMap.bfree_eq]
    refine ⟨by simp, ?_⟩
    intro hSet
    refine ⟨if_neg (by simp [hSet]), ?_⟩
    intro c hc
    exact FreeMap.bit_setBit _ _ (by omega) (by omega)
  · intro s hReach
    have hSound : MapSound m M s := by
      refine hReach.invariant ?_ ?_
      · rintro _ rfl
        exact ⟨hUsed, List.nodup_nil, nofun⟩
      · intro s a s' hOld hSpares hNext
        exact hOld.step hSize hFuel hZero hMap hSpares hNext
    exact ⟨hSound.nodup, hSound.live⟩

/- Four blocks, of which the first two are in use. -/
theorem third_block_allocated :
    ∃ (d d' : Disk) (r : Nat), (FreeMap.mk 4 1).balloc 2 d = some (r, d') ∧ ¬ r < 2 ∧
      (FreeMap.mk 4 1).bit d' r = true := by
  obtain ⟨hAlloc, _⟩ := block_allocation (FreeMap.mk 4 1) (M := fun b => b < 2)
    (d := update (fun _ => Bytes.zero) 1 ((Bytes.zero.setBit 0 true).setBit 1 true))
    (by decide) (show 4 ≤ BPB * 1 by decide) (by decide) (by decide) (by decide)
  rcases hAlloc with ⟨_, hAll⟩ | ⟨r, hr, d', hEq, _, hNot, _, _, _, hBit, _⟩
  · exact absurd (hAll 2 (by decide)) (by decide)
  · exact ⟨_, d', r, hEq, hNot, (hBit r hr).trans (if_pos rfl)⟩

end Xv6
