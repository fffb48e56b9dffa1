import Xv6.Bio.Cache
import Xv6.Lib.RedoLog

/-
  The on-disk log of `log.c`: the header block, `commit` and
  `recover_from_log`.

  The in-memory header `log.lh` is the list `block[0..n)`;
  entries past `n` are never read. `log.dev` is `ROOTDEV`.

  Key definitions include:
    * `LogArea`
    * `listed`
    * `putHead`
    * `writeLog`
    * `writeHead`
    * `installTrans`
    * `commit`
    * `recoverFromLog`

  The header round trip is `listed_putHead`.
-/

-------
-- The Header Block
-------

namespace Xv6

/- `log.start` and `log.size`; the log has a header block. -/
structure LogArea where
  start : Nat
  size : Nat
  pos : 0 < size

/- The blocks of the log. -/
def LogArea.Area (L : LogArea) (b : Nat) : Prop := L.start ≤ b ∧ b < L.start + L.size

instance (L : LogArea) (b : Nat) : Decidable (L.Area b) := inferInstanceAs (Decidable (_ ∧ _))

/- The `int` with the given 32 bits. -/
def int32 (v : Nat) : Int := if v < 2 ^ 31 then v else v - 2 ^ 32

/- `lh->n` of a header block. -/
def headN (x : Block) : Int := int32 (x.getLE 0 4)

/- `lh->block[i]` of a header block. -/
def headBlock (x : Block) (i : Nat) : Nat := x.getLE (4 + 4 * i) 4

/- The block numbers that `read_head` copies. -/
def listed (x : Block) : List Nat := (List.range (headN x).toNat).map (headBlock x)

/- Store block numbers in a header block from index `i` on. -/
def putBlocks :
    Block → Nat → List Nat → Block
| x, _, [] => x
| x, i, b :: bs => putBlocks (x.putLE (4 + 4 * i) 4 b) (i + 1) bs

/- The header block that `write_head` stores. -/
def putHead (x : Block) (lh : List Nat) : Block := putBlocks (x.putLE 0 4 lh.length) 0 lh

/- Storing entries leaves the bytes before them alone. -/
theorem getLE_putBlocks_of_lt (x : Block) (i : Nat) (bs : List Nat) {off w : Nat}
    (hLow : off + w ≤ 4 + 4 * i) : (putBlocks x i bs).getLE off w = x.getLE off w := by
  induction bs generalizing x i with
  | nil => rfl
  | cons b bs ih =>
    rw [putBlocks, ih _ _ (by omega)]
    exact Bytes.getLE_putLE_disjoint _ _ _ _ _ _ (Or.inl hLow)

/- Each entry is read back as it was stored. -/
theorem headBlock_putBlocks (x : Block) (i : Nat) (bs : List Nat) (hFit : i + bs.length ≤ LOGSIZE)
    (hInt : ∀ b ∈ bs, b < 2 ^ 32) {k : Nat} (hk : k < bs.length) :
    headBlock (putBlocks x i bs) (i + k) = bs[k] := by
  induction bs generalizing x i k with
  | nil => cases hk
  | cons b bs ih =>
    rw [List.length_cons] at hFit hk
    rw [putBlocks]
    cases k with
    | zero =>
      have hb : b < 256 ^ 4 := by
        have := hInt b (by simp)
        norm_num at this ⊢
        exact this
      have hSize : 4 + 4 * i + 4 ≤ BSIZE := by
        have : LOGSIZE = 30 := rfl
        have : BSIZE = 1024 := rfl
        omega
      have hSelf := Bytes.getLE_putLE_self x (4 + 4 * i) 4 b hSize
      rw [Nat.mod_eq_of_lt hb] at hSelf
      rw [headBlock, getLE_putBlocks_of_lt _ _ _ (by omega)]
      exact hSelf
    | succ k =>
      have hRest :=
        ih (x.putLE (4 + 4 * i) 4 b) (i + 1) (k := k) (by omega) (fun c hc => hInt c (by simp [hc]))
          (by omega)
      rw [show i + (k + 1) = i + 1 + k by omega, hRest]
      simp

/- The count is read back as it was stored. -/
theorem headN_putHead (x : Block) (lh : List Nat) (hFit : lh.length ≤ LOGSIZE) :
    headN (putHead x lh) = lh.length := by
  have hLog : LOGSIZE = 30 := rfl
  have hSelf :=
    Bytes.getLE_putLE_self x 0 4 lh.length (by
      have : BSIZE = 1024 := rfl
      omega)
  rw [headN, putHead, getLE_putBlocks_of_lt _ _ _ (by omega), hSelf,
    Nat.mod_eq_of_lt (by norm_num; omega), int32,
    if_pos (by norm_num; omega)]

/- The header block round trip. -/
theorem listed_putHead (x : Block) (lh : List Nat) (hFit : lh.length ≤ LOGSIZE)
    (hInt : ∀ b ∈ lh, b < 2 ^ 32) : listed (putHead x lh) = lh := by
  rw [listed, headN_putHead x lh hFit]
  apply List.ext_getElem
  · simp
  · intro i hi hi'
    have hEntry := headBlock_putBlocks (x.putLE 0 4 lh.length) 0 lh (by omega) hInt hi'
    simpa [putHead] using hEntry

/- A header whose count is zero lists nothing. -/
theorem listed_of_headN_eq_zero {x : Block} (hZero : headN x = 0) : listed x = [] := by
  simp [listed, hZero]

theorem headN_zero : headN Bytes.zero = 0 := by simp [headN, int32]

/- The bytes of a header matter only to the lemmas above. -/
attribute [irreducible] headN listed putHead

-------
-- Commit and Recovery
-------

variable {P : Type} [DecidableEq P]

/- One round of `write_log`: copy a block to the log. -/
def writeLogBlock (L : LogArea) (p : P) (lh : List Nat) (tail : Nat) : BioM P Unit := do
  let tbuf ← bread p ROOTDEV (L.start + tail + 1)
  let fbuf ← bread p ROOTDEV (lh.getD tail 0)
  let x ← dataOf fbuf
  copyInto tbuf x
  bwrite p tbuf
  brelse p fbuf
  brelse p tbuf

/- `write_log`. -/
def writeLog (L : LogArea) (p : P) (lh : List Nat) : BioM P Unit :=
  Prog.forFrom (writeLogBlock L p lh) 0 lh.length

/- `write_head`. -/
def writeHead (L : LogArea) (p : P) (lh : List Nat) : BioM P Unit := do
  let buf ← bread p ROOTDEV L.start
  let x ← dataOf buf
  copyInto buf (putHead x lh)
  bwrite p buf
  brelse p buf

/- One round of `install_trans`: copy a block home. -/
def installBlock (L : LogArea) (p : P) (recovering : Bool) (lh : List Nat)
    (tail : Nat) : BioM P Unit := do
  let lbuf ← bread p ROOTDEV (L.start + tail + 1)
  let dbuf ← bread p ROOTDEV (lh.getD tail 0)
  let x ← dataOf lbuf
  copyInto dbuf x
  bwrite p dbuf
  if recovering = false then bunpin dbuf else pure ()
  brelse p lbuf
  brelse p dbuf

/- `install_trans`. -/
def installTrans (L : LogArea) (p : P) (recovering : Bool) (lh : List Nat) : BioM P Unit :=
  Prog.forFrom (installBlock L p recovering lh) 0 lh.length

/- `commit`; it returns the new `log.lh`. -/
def commit (L : LogArea) (p : P) (lh : List Nat) : BioM P (List Nat) := do
  if 0 < lh.length then do
    writeLog L p lh
    writeHead L p lh
    installTrans L p false lh
    writeHead L p []
    return []
  else
    return lh

/- `read_head`. -/
def readHead (L : LogArea) (p : P) : BioM P (List Nat) := do
  let buf ← bread p ROOTDEV L.start
  let x ← dataOf buf
  brelse p buf
  return listed x

/- `recover_from_log`. -/
def recoverFromLog (L : LogArea) (p : P) : BioM P Unit := do
  let lh ← readHead L p
  installTrans L p true lh
  writeHead L p []

-------
-- Crashes
-------

/- A machine that has just been switched on. -/
def boot (d : Disk) : Machine P where
  cache := Bcache.binit
  disk := d
  writes := []

/- The first `k` disk writes of `m`. -/
def writesBefore {α : Type} (m : BioM P α) (s : Machine P) (k : Nat) : List (Nat × Block) :=
  ((m s).2.writes.drop s.writes.length).take k

/- The disk when `m` is cut after its first `k` writes. -/
def crash {α : Type} (m : BioM P α) (s : Machine P) (k : Nat) : Disk :=
  replay (writesBefore m s k) s.disk

/- The disk after boots whose recoveries are all cut. -/
def crashes (L : LogArea) (p : P) :
    Disk → List Nat → Disk
| d, [] => d
| d, k :: ks => crashes L p (crash (recoverFromLog L p) (boot d) k) ks

end Xv6
