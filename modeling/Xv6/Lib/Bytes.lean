import Mathlib.Tactic.Ring
import Mathlib.Tactic.NormNum

/-
  Fixed-size byte buffers, copying into and out of them, and
  the little-endian numbers, bits and records stored in them.

  Key definitions include:
    * `Bytes`
    * `Bytes.byte`
    * `Bytes.slice`
    * `Bytes.splice`
    * `encodeLE`
    * `decodeLE`
    * `Bytes.getLE`
    * `Bytes.putLE`
    * `Bytes.bit`
    * `Bytes.setBit`
    * `encodeFields`

  The laws used elsewhere are:
    * `Bytes.slice_splice_self`
    * `Bytes.slice_splice_disjoint`
    * `decodeLE_encodeLE`
    * `Bytes.getLE_putLE_self`
    * `Bytes.getLE_putLE_disjoint`
    * `Bytes.bit_setBit`
    * `Bytes.getLE_splice_encodeFields`
-/

open List

-------
-- Buffers
-------

/- A buffer of `n` bytes. -/
abbrev Bytes (n : Nat) : Type := Fin n → UInt8

namespace Bytes

variable {n : Nat} {i : Nat}

/- The buffer of zero bytes. -/
def zero : Bytes n := fun _ => 0

/- The byte at offset `i`; zero past the end. -/
def byte (b : Bytes n) (i : Nat) : UInt8 := if h : i < n then b ⟨i, h⟩ else 0

/- Copy `len` bytes out of the buffer from offset `off`. -/
def slice (b : Bytes n) (off len : Nat) : List UInt8 :=
  (List.range len).map (fun k => b.byte (off + k))

/- Copy a list of bytes into the buffer at offset `off`. -/
def splice (b : Bytes n) (off : Nat) (l : List UInt8) : Bytes n :=
  fun i => if off ≤ i.1 then l[i.1 - off]?.getD (b i) else b i

@[simp] theorem byte_zero (i : Nat) : (zero : Bytes n).byte i = 0 := by
  unfold byte zero
  split
  · rfl
  · rfl

/- Bytes after a copy, inside and outside the copied range. -/
theorem byte_splice (b : Bytes n) (off : Nat) (l : List UInt8) (hi : i < n) :
    (b.splice off l).byte i =
      if off ≤ i then l[i - off]?.getD (b.byte i)
      else b.byte i := by
  simp [byte, splice, hi]

theorem byte_splice_of_outside (b : Bytes n) (off : Nat) (l : List UInt8)
    (hOut : i < off ∨ off + l.length ≤ i) : (b.splice off l).byte i = b.byte i := by
  by_cases hi : i < n
  · rw [byte_splice b off l hi]
    split
    · have hNone : l[i - off]? = none := by
        apply getElem?_eq_none
        omega
      simp [hNone]
    · rfl
  · simp [byte, hi]

theorem byte_splice_of_inside
    (b : Bytes n) (off : Nat) (l : List UInt8) {k : Nat} (hk : k < l.length)
    (hFit : off + l.length ≤ n) : (b.splice off l).byte (off + k) = l[k] := by
  rw [byte_splice b off l (by omega)]
  simp [hk]

@[simp] theorem length_slice (b : Bytes n) (off len : Nat) : (b.slice off len).length = len := by
  simp [slice]

@[simp] theorem getElem_slice (b : Bytes n) (off len k : Nat) (hk : k < (b.slice off len).length) :
    (b.slice off len)[k] = b.byte (off + k) := by
  simp [slice]

/- Reading back what was copied in. -/
theorem slice_splice_self (b : Bytes n) (off : Nat) (l : List UInt8) (hFit : off + l.length ≤ n) :
    (b.splice off l).slice off l.length = l := by
  apply ext_getElem
  · simp
  · intro k hk hk'
    rw [getElem_slice, byte_splice_of_inside b off l hk' hFit]

/- A copy does not change bytes outside its range. -/
theorem slice_splice_disjoint (b : Bytes n) (off : Nat) (l : List UInt8) (off' len : Nat)
    (hDisj : off' + len ≤ off ∨ off + l.length ≤ off') :
    (b.splice off l).slice off' len = b.slice off' len := by
  apply ext_getElem
  · simp
  intro k hk hk'
  have hkLen : k < len := by simpa using hk
  rw [getElem_slice, getElem_slice]
  apply byte_splice_of_outside
  omega

end Bytes

-------
-- Little-Endian Numbers
-------

/- The low `w` bytes of a number, least significant first. -/
def encodeLE : Nat → Nat → List UInt8
| 0, _ => []
| w + 1, v => UInt8.ofNat v :: encodeLE w (v / 256)

/- The number with the given bytes. -/
def decodeLE : List UInt8 → Nat
| [] => 0
| b :: bs => b.toNat + 256 * decodeLE bs

@[simp] theorem length_encodeLE (w v : Nat) : (encodeLE w v).length = w := by
  induction w generalizing v with
  | zero => rfl
  | succ w ih => simp [encodeLE, ih]

/- Decoding undoes encoding, up to the width. -/
theorem decodeLE_encodeLE (w v : Nat) : decodeLE (encodeLE w v) = v % 256 ^ w := by
  induction w generalizing v with
  | zero => simp [encodeLE, decodeLE, Nat.mod_one]
  | succ w ih =>
    have hByte : (UInt8.ofNat v).toNat = v % 256 := by simp
    rw [encodeLE, decodeLE, ih, hByte, pow_succ, Nat.mul_comm (256 ^ w) 256, Nat.mod_mul]

theorem decodeLE_lt (l : List UInt8) : decodeLE l < 256 ^ l.length := by
  induction l with
  | nil => simp [decodeLE]
  | cons b bs ih =>
    have hb : b.toNat < 256 := b.toNat_lt
    rw [decodeLE, length_cons]
    omega

namespace Bytes

variable {n : Nat}

/- The number stored in `w` bytes at offset `off`. -/
def getLE (b : Bytes n) (off w : Nat) : Nat := decodeLE (b.slice off w)

/- Store a number in `w` bytes at offset `off`. -/
def putLE (b : Bytes n) (off w v : Nat) : Bytes n := b.splice off (encodeLE w v)

/- Reading back the number that was stored. -/
theorem getLE_putLE_self (b : Bytes n) (off w v : Nat) (hFit : off + w ≤ n) :
    (b.putLE off w v).getLE off w = v % 256 ^ w := by
  have h := slice_splice_self b off (encodeLE w v) (by simpa)
  rw [length_encodeLE] at h
  rw [getLE, putLE, h, decodeLE_encodeLE]

/- Storing a number leaves numbers elsewhere unchanged. -/
theorem getLE_putLE_disjoint (b : Bytes n) (off w v off' w' : Nat)
    (hDisj : off' + w' ≤ off ∨ off + w ≤ off') :
    (b.putLE off w v).getLE off' w' = b.getLE off' w' := by
  rw [getLE, putLE, slice_splice_disjoint, getLE]
  simpa using hDisj

@[simp] theorem getLE_zero (off w : Nat) : (zero : Bytes n).getLE off w = 0 := by
  have hZero : ∀ l : List UInt8, (∀ x ∈ l, x = 0) → decodeLE l = 0 := by
    intro l
    induction l with
    | nil => intro _; rfl
    | cons b bs ih =>
      intro h
      have hb : b = 0 := h b (by simp)
      have hbs := ih (fun x hx => h x (by simp [hx]))
      simp [decodeLE, hb, hbs]
  apply hZero
  intro x hx
  simp only [slice, mem_map] at hx
  rcases hx with ⟨k, _, rfl⟩
  simp

end Bytes

-------
-- Bits
-------

/- The byte with only bit `k` set. -/
def bitMask (k : Nat) : UInt8 := 1 <<< UInt8.ofNat k

theorem toBitVec_bitMask {k : Nat} (hk : k < 8) : (bitMask k).toBitVec = BitVec.twoPow 8 k := by
  unfold bitMask
  simp [UInt8.toBitVec_ofNat']
  congr 1
  omega

/- The test of a bit of a byte by a mask. -/
theorem and_bitMask (x : UInt8) {k : Nat} (hk : k < 8) :
    (x &&& bitMask k != 0) = x.toBitVec.getLsbD k := by
  have hZero : x &&& bitMask k = 0 ↔ x.toBitVec.getLsbD k = false := by
    rw [← UInt8.toBitVec_inj, UInt8.toBitVec_and, toBitVec_bitMask hk, BitVec.and_twoPow]
    cases h : x.toBitVec.getLsbD k with
    | true =>
      simp only [Bool.true_eq_false, iff_false]
      intro hc
      have hBit := congrArg (BitVec.getLsbD · k) hc
      simp [hk] at hBit
    | false => simp
  cases h : x.toBitVec.getLsbD k with
  | _ =>
    rw [h] at hZero
    simpa using hZero

namespace Bytes

variable {n : Nat}

/- Bit `k` of the buffer, counted from the first byte. -/
def bit (b : Bytes n) (k : Nat) : Bool := b.byte (k / 8) &&& bitMask (k % 8) != 0

/- Set or clear bit `k` of the buffer. -/
def setBit (b : Bytes n) (k : Nat) (v : Bool) : Bytes n :=
  b.splice (k / 8) [if v then b.byte (k / 8) ||| bitMask (k % 8)
      else b.byte (k / 8) &&& ~~~bitMask (k % 8)]

theorem bit_eq_getLsbD (b : Bytes n) (k : Nat) :
    b.bit k = (b.byte (k / 8)).toBitVec.getLsbD (k % 8) :=
  and_bitMask _ (Nat.mod_lt k (by omega))

/- Setting a bit changes that bit and no other. -/
theorem bit_setBit (b : Bytes n) {k : Nat} (v : Bool) (j : Nat) (hk : k / 8 < n) :
    (b.setBit k v).bit j = if j = k then v else b.bit j := by
  rw [bit_eq_getLsbD, bit_eq_getLsbD]
  by_cases hByte : j / 8 = k / 8
  · have hGet : (b.setBit k v).byte (j / 8) =
          if v then b.byte (k / 8) ||| bitMask (k % 8)
          else b.byte (k / 8) &&& ~~~bitMask (k % 8) := by
      have h :=
        byte_splice_of_inside b (k / 8) [if v then b.byte (k / 8) ||| bitMask (k % 8)
            else b.byte (k / 8) &&& ~~~bitMask (k % 8)]
          (k := 0) (by simp) (by simp only [length_singleton]; omega)
      rw [hByte]
      simpa [setBit] using h
    have hj : j % 8 < 8 := Nat.mod_lt j (by omega)
    have hk8 : k % 8 < 8 := Nat.mod_lt k (by omega)
    have hSame : j % 8 = k % 8 ↔ j = k := by omega
    rw [hGet, hByte]
    cases v with
    | _ =>
      by_cases hjk : j = k
      · simp [toBitVec_bitMask hk8, hjk, hk8]
      · simp [toBitVec_bitMask hk8, hj, hSame, hjk]
  · have hjk : j ≠ k := by
      intro h
      exact hByte (by rw [h])
    rw [if_neg hjk, setBit, byte_splice_of_outside]
    simp only [length_singleton]
    omega

end Bytes

-------
-- Records
-------

/-
  A record is laid out as a sequence of fields, each with
  its width in bytes and its value.
-/
def encodeFields (fs : List (Nat × Nat)) : List UInt8 := fs.flatMap (fun f => encodeLE f.1 f.2)

/- The offset of field `m` in the record. -/
def fieldOffset (fs : List (Nat × Nat)) (m : Nat) : Nat := ((fs.take m).map Prod.fst).sum

variable {fs : List (Nat × Nat)}

@[simp] theorem length_encodeFields (fs : List (Nat × Nat)) :
    (encodeFields fs).length = (fs.map Prod.fst).sum := by
  simp [encodeFields, length_flatMap]

/- The bytes of one field within the record. -/
theorem take_drop_encodeFields
    {m w v : Nat} (hField : fs[m]? = some (w, v)) :
    ((encodeFields fs).drop (fieldOffset fs m)).take w = encodeLE w v := by
  induction fs generalizing m with
  | nil => simp at hField
  | cons f fs ih =>
    cases m with
    | zero =>
      simp only [getElem?_cons_zero, Option.some.injEq] at hField
      subst f
      simp [encodeFields, fieldOffset]
    | succ m =>
      have hOff : fieldOffset (f :: fs) (m + 1) = (encodeLE f.1 f.2).length + fieldOffset fs m := by
        simp [fieldOffset]
      rw [hOff]
      change ((encodeLE f.1 f.2 ++ encodeFields fs).drop _).take w = _
      rw [drop_append, Nat.add_sub_cancel_left, drop_eq_nil_of_le (Nat.le_add_right _ _)]
      exact ih hField

theorem fieldOffset_add_le {m w v : Nat} (hField : fs[m]? = some (w, v)) :
    fieldOffset fs m + w ≤ (fs.map Prod.fst).sum := by
  induction fs generalizing m with
  | nil => simp at hField
  | cons f fs ih =>
    cases m with
    | zero =>
      simp only [getElem?_cons_zero, Option.some.injEq] at hField
      subst f
      simp [fieldOffset]
    | succ m =>
      have h := ih hField
      simp only [fieldOffset, take_succ_cons, map_cons, sum_cons] at h ⊢
      omega

namespace Bytes

variable {n : Nat}

/- A part of what was copied in. -/
theorem slice_splice_sub (b : Bytes n) (off : Nat) (l : List UInt8) (k len : Nat)
    (hLen : k + len ≤ l.length) (hFit : off + l.length ≤ n) :
    (b.splice off l).slice (off + k) len = (l.drop k).take len := by
  apply ext_getElem
  · simp
    omega
  · intro i hi hi'
    have hiLen : i < len := by simpa using hi
    rw [getElem_slice, Nat.add_assoc, byte_splice_of_inside b off l (by omega) hFit]
    simp

/- Reading one field of a record that was stored. -/
theorem getLE_splice_encodeFields (b : Bytes n) (off : Nat) {fs : List (Nat × Nat)} {m w v : Nat}
    (hField : fs[m]? = some (w, v)) (hFit : off + (fs.map Prod.fst).sum ≤ n) :
    (b.splice off (encodeFields fs)).getLE (off + fieldOffset fs m) w = v % 256 ^ w := by
  rw [getLE, slice_splice_sub b off (encodeFields fs),
    take_drop_encodeFields hField, decodeLE_encodeLE]
  · simpa using fieldOffset_add_le hField
  · simpa using hFit

/- A stored list leaves numbers elsewhere unchanged. -/
theorem getLE_splice_disjoint (b : Bytes n) (off : Nat) (l : List UInt8) (off' w : Nat)
    (hDisj : off' + w ≤ off ∨ off + l.length ≤ off') :
    (b.splice off l).getLE off' w = b.getLE off' w := by
  rw [getLE, slice_splice_disjoint b off l off' w hDisj, getLE]

end Bytes
