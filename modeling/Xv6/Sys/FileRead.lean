import Xv6.Console.Console
import Xv6.Fs.Consistency
import Xv6.Pipe.Delivery
import Xv6.Sys.Files
import Mathlib.Data.BitVec

/-
  `fileread` for inodes, pipes and the console, with the user
  memory it fills.

  The length is an `int`. A pipe and the console treat it as
  signed, and `readi` as unsigned: a negative length passes
  its overflow test when the offset is small, and the whole
  rest of the file is delivered.

  Key definitions include:
    * `readiUser`
    * `consoleread`
    * `fileread`

  Key theorems include:
    * `fileread_at_most`
    * `fileread_negative`
-/

open Xv6.UserSpace

open Prog (wp wp_bind wp_imp wp_ite wp_pure wp_read wp_stop wp_zoom)

-------
-- Reading Files
-------

namespace Xv6

abbrev CONSOLE : BitVec 16 := 1

section Inodes

variable (sb : Superblock)

/- The loop of `readi` with a user address. -/
def readiUserLoop (i dst : Nat) :
    Nat → Nat → Nat → Nat → UserSpace → FsM (Int × UserSpace)
| 0, _, tot, _, u => return (tot, u)
| fuel + 1, off, tot, left, u => do
    if left = 0 then return (tot, u)
    else do
      let addr ← bmap sb i (off / BSIZE)
      if addr = 0 then return (tot, u)
      else do
        let s ← Prog.read
        let m := min left (BSIZE - off % BSIZE)
        match u.copyout (add64 dst tot) ((s.disk addr).slice (off % BSIZE) m) with
        | (true, u) => readiUserLoop i dst fuel (off + m) (tot + m) (left - m) u
        | (false, u) => return (-1, u)

def readiUser (i dst : Nat) (off n : BitVec 32) (u : UserSpace) : FsM (Int × UserSpace) := do
  let s ← Prog.read
  let size := (s.copy i).size
  if size < off ∨ off + n < off then return (0, u)
  else
    let n := if size < off + n then size - off else n
    readiUserLoop sb i dst n.toNat off.toNat 0 n.toNat u

end Inodes

/-
  A call of `consoleread`, which finds the console in these
  states when it has the lock. There is no value when it is
  asleep after them.
-/
def consoleread :
    List (Bool × Console) → Reader → UserSpace → Option Int × UserSpace
| [], _, u => (none, u)
| (killed, cons) :: turns, rd, u =>
    let o := rd.run killed cons u
    if o.stop = .sleeps then consoleread turns o.rd o.u
    else (o.value, o.u)

/-
  What a reader finds: its pipe when it does not sleep any
  more, and the console whenever it has the lock.
-/
structure ReadSource where
  killed : Bool
  pipe : Pipe
  turns : List (Bool × Console)

/- The value of a read, if it has returned. -/
structure FileRead where
  value : Option Int
  file : OpenFile
  u : UserSpace

/- `f->off += r` if `r` is positive. -/
def OpenFile.advance (f : OpenFile) (r : Int) : OpenFile :=
  if 0 < r then { f with off := f.off + BitVec.ofInt 32 r }
  else f

abbrev onFs {α : Type} (m : FsM α) : Prog Fs SysHalt α := Prog.zoom id (fun _ s => s) .fs m

def fileread (sb : Superblock) (f : OpenFile) (source : ReadSource) (addr : BitVec 64)
    (n : BitVec 32) (u : UserSpace) : Prog Fs SysHalt FileRead :=
  if f.readable = false then return ⟨some (-1), f, u⟩
  else
    match f.type with
    | .pipe =>
      match piperead source.killed addr n.toInt source.pipe u with
      | none => return ⟨none, f, u⟩
      | some (r, _, u) => return ⟨some r, f, u⟩
    | .device =>
      -- only the console has a `read` function
      if f.major.toInt < 0 ∨ (NDEV : Int) ≤ f.major.toInt ∨ f.major ≠ CONSOLE then
        return ⟨some (-1), f, u⟩
      else
        let (r, u) := consoleread source.turns ⟨addr, n, n⟩ u
        return ⟨r, f, u⟩
    | .inode => do
        onFs (ilock sb f.ip)
        let (r, u) ← onFs (readiUser sb f.ip addr.toNat f.off n u)
        onFs (iunlock f.ip)
        return ⟨some r, f.advance r, u⟩
    | .none => Prog.stop .fileread

-------
-- Bytes Of User Memory
-------

namespace UserSpace

/- Exactly `m` bytes from `va` on were stored. -/
def Fills (u : UserSpace) (va m : Nat) (u' : UserSpace) : Prop :=
  ∃ l : List UInt8, l.length = m ∧ u' = u.store va l

variable {u u₁ u₂ : UserSpace} {va a b : Nat}

theorem Fills.nothing (u : UserSpace) (va : Nat) : u.Fills va 0 u := ⟨[], rfl, rfl⟩

theorem Fills.append (hva : va < 2 ^ 64) (h : u.Fills va a u₁)
    (h' : u₁.Fills (add64 va a) b u₂) : u.Fills va (a + b) u₂ := by
  rcases h with ⟨l, rfl, rfl⟩
  rcases h' with ⟨l', rfl, rfl⟩
  exact ⟨l ++ l', List.length_append, store_append hva l l' u⟩

theorem fills_copyout (u : UserSpace) (hva : va < 2 ^ 64) (src : List UInt8) :
    ∃ m ≤ src.length, u.Fills va m (u.copyout va src).2 ∧
      ((u.copyout va src).1 = true → m = src.length) := by
  have hLe := u.reach_le va src.length
  rw [copyout_eq hva]
  refine ⟨_, hLe, ⟨_, ?_, rfl⟩, eq_of_beq⟩
  rw [List.length_take, Nat.min_eq_left hLe]

theorem copyout_first
    (hva : va < 2 ^ 64)
    (hOk : u.ok va = true)
    {x : UInt8}
    {l : List UInt8}
    (hl : l.length < 2 ^ 64) :
    (u.copyout va (x :: l)).2.byte va = x := by
  rw [copyout_eq hva, List.length_cons, reach, if_pos hOk]
  refine byte_store_first u va ?_
  rw [List.length_take]
  omega

theorem copyout_byte (u : UserSpace) (hva : va < 2 ^ 64) (x : UInt8) :
    u.copyout va [x] = (true, u.store va [x]) ∨ u.copyout va [x] = (false, u) := by
  by_cases hOk : u.ok va = true
  · exact .inl (copyout_one hva hOk x)
  · exact .inr (copyout_of_not_ok hva hOk x)

end UserSpace

theorem pipereadLoop_fills (addr k i : Nat) (pi : Pipe) (u : UserSpace) :
    ∃ m ≤ k, u.Fills (add64 addr i) m (pipereadLoop addr k i pi u).2.2 ∧
      (pipereadLoop addr k i pi u).1 = i + m := by
  induction k generalizing i pi u with
  | zero => exact ⟨0, Nat.le_refl 0, .nothing .., rfl⟩
  | succ k ih =>
    rw [pipereadLoop]
    split
    · exact ⟨0, Nat.zero_le _, .nothing .., rfl⟩
    dsimp only
    have hva := add64_lt addr i
    rcases u.copyout_byte hva (pi.ring.front PIPESIZE)
      with hCopy | hCopy
    · rw [hCopy]
      rcases ih (i + 1) { pi with ring := pi.ring.pop } _
        with ⟨m, hm, hFills, hCount⟩
      rw [← add64_add64] at hFills
      refine ⟨1 + m, by omega, .append hva ⟨_, rfl, rfl⟩ hFills, ?_⟩
      rw [hCount, Nat.add_assoc]
    · rw [hCopy]
      exact ⟨0, Nat.zero_le _, .nothing .., rfl⟩

-------
-- The Console
-------

/- A signed number of bytes, when some have been taken. -/
theorem toInt_sub_ofNat {n : BitVec 32} {m : Nat} (h : m ≤ n.toInt.toNat) :
    (n - BitVec.ofNat 32 m).toInt.toNat = n.toInt.toNat - m := by
  rw [BitVec.toInt_eq_toNat_cond] at h
  simp only [BitVec.toInt_eq_toNat_cond, BitVec.toNat_sub, BitVec.toNat_ofNat]
  omega

namespace Reader

/- The reader after `m` bytes. -/
def after (rd : Reader) (m : Nat) : Reader :=
  { rd with
    dst := rd.dst + BitVec.ofNat 64 m
    n := rd.n - BitVec.ofNat 32 m }

/- Bytes were stored, and the reader knows how many. -/
def Filled (rd : Reader) (u : UserSpace) (o : ReadOut) : Prop :=
  ∃ m ≤ rd.n.toInt.toNat, u.Fills rd.dst.toNat m o.u ∧ o.rd = rd.after m

variable {rd : Reader} {u : UserSpace} {o : ReadOut}

theorem Filled.nothing (stop : ReadStop) (cons : Console) : rd.Filled u ⟨stop, rd, cons, u⟩ :=
  ⟨0, Nat.zero_le _, .nothing .., by simp [after]⟩

theorem Filled.byte (hPos : 0 < rd.n.toInt) (x : UInt8)
    (h : ({ rd with dst := rd.dst + 1, n := rd.n - 1 } :
      Reader).Filled (u.store rd.dst.toNat [x]) o) : rd.Filled u o := by
  rcases h with ⟨m, hm, hFills, hAfter⟩
  have hn := toInt_sub_ofNat (n := rd.n) (m := 1) (by omega)
  change m ≤ (rd.n - BitVec.ofNat 32 1).toInt.toNat at hm
  refine ⟨1 + m, by omega, .append rd.dst.isLt ⟨[x], rfl, rfl⟩ ?_, ?_⟩
  · simpa [add64] using hFills
  · simp only [hAfter, after, BitVec.ofNat_add, BitVec.add_assoc, sub_sub]
    rfl

end Reader

theorem consolereadLoop_fills
    (killed : Bool) (k : Nat) (rd : Reader) (cons : Console) (u : UserSpace) :
    rd.Filled u (consolereadLoop killed k rd cons u) := by
  induction k generalizing rd cons u with
  | zero => exact .nothing ..
  | succ k ih =>
    rw [consolereadLoop]
    by_cases hPos : 0 < rd.n.toInt
    case neg =>
      rw [if_neg hPos]
      exact .nothing ..
    dsimp only
    rcases u.copyout_byte rd.dst.isLt (cons.buf (cons.r.toNat % INPUT_BUF_SIZE)) with
      hCopy | hCopy
    · rw [hCopy]
      split_ifs
      all_goals first
        | exact .nothing ..
        | exact .byte hPos _ (.nothing ..)
        | exact .byte hPos _ (ih ..)
    · rw [hCopy]
      split_ifs
      all_goals exact .nothing ..

/- `a` bytes have been stored before. -/
theorem consoleread_fills (turns : List (Bool × Console)) (rd : Reader) {a : Nat}
    (hTarget : rd.target = rd.n + BitVec.ofNat 32 a)
    (ha : a + rd.n.toInt.toNat ≤ rd.target.toInt.toNat) (u : UserSpace) :
    ∃ m, a + m ≤ rd.target.toInt.toNat ∧ u.Fills rd.dst.toNat m (consoleread turns rd u).2 ∧
      ∀ r, (consoleread turns rd u).1 = some r → r = -1 ∨ r = (a + m : Nat) := by
  induction turns generalizing rd a u with
  | nil =>
    refine ⟨0, by omega, .nothing .., ?_⟩
    rintro _ ⟨⟩
  | cons t turns ih =>
    rcases t with ⟨killed, cons⟩
    rcases consolereadLoop_fills killed rd.n.toNat rd cons u
      with ⟨m, hm, hFills, hAfter⟩
    rw [consoleread]
    set o := consolereadLoop killed rd.n.toNat rd cons u
    have hSame : o.rd.target = rd.target := by
      rw [hAfter]
      rfl
    have hTarget' : o.rd.target = o.rd.n + BitVec.ofNat 32 (a + m) := by
      rw [hAfter, BitVec.ofNat_add]
      simp only [Reader.after, hTarget]
      ring
    have hn : o.rd.n.toInt.toNat = rd.n.toInt.toNat - m := by
      rw [hAfter]
      exact toInt_sub_ofNat hm
    split
    · rcases ih o.rd hTarget' (by rw [hSame]; omega) o.u with
        ⟨m', hm', hFills', hValue⟩
      have hDst : o.rd.dst.toNat = add64 rd.dst.toNat m := by
        rw [hAfter]
        simp [Reader.after, add64]
      rw [hSame] at hm'
      rw [hDst] at hFills'
      rw [Nat.add_assoc] at hm' hValue
      exact ⟨m + m', hm', hFills.append rd.dst.isLt hFills', hValue⟩
    · refine ⟨m, by omega, hFills, ?_⟩
      have hTaken : (o.rd.target - o.rd.n).toInt = (a + m : Nat) := by
        rw [hTarget', add_sub_cancel_left, BitVec.toInt_eq_toNat_cond, BitVec.toNat_ofNat]
        have hMax := rd.target.toInt_lt
        omega
      rw [ReadOut.value]
      split
      · rintro _ ⟨⟩
      · rintro _ ⟨⟩
        exact .inl rfl
      · rintro _ ⟨⟩
        exact .inr hTaken

-------
-- Inodes
-------

section Inodes

variable {sb : Superblock} {i : Nat} {I : Fs → Prop} {E : Halt → Fs → Prop}

/- `tot` bytes have been stored before. -/
theorem readiUserLoop_fills {top : Nat}
    (hBmap : ∀ o < top, ∀ s, I s → wp (bmap sb i (o / BSIZE)) (fun _ s' => I s') E s)
    (dst fuel : Nat) {off left : Nat} (hTop : off + left ≤ top) (tot : Nat)
    (u : UserSpace) {s : Fs} (hs : I s) :
    wp (readiUserLoop sb i dst fuel off tot left u)
      (fun r s' => I s' ∧ ∃ m ≤ left, u.Fills (add64 dst tot) m r.2 ∧
          (r.1 = -1 ∨ r.1 = (tot + m : Nat))) E s := by
  induction fuel generalizing off left tot u s with
  | zero =>
    rw [readiUserLoop, wp_pure]
    exact ⟨hs, 0, Nat.zero_le _, .nothing .., .inr rfl⟩
  | succ fuel ih =>
    rw [readiUserLoop]
    by_cases hLeft : left = 0
    · rw [if_pos hLeft, wp_pure]
      exact ⟨hs, 0, Nat.zero_le _, .nothing .., .inr rfl⟩
    rw [if_neg hLeft, wp_bind]
    refine wp_imp (hBmap off (by omega) s hs) ?_
    intro addr s' hs'
    rw [wp_ite]
    constructor
    · intro _
      rw [wp_pure]
      exact ⟨hs', 0, Nat.zero_le _, .nothing .., .inr rfl⟩
    intro _
    rw [wp_bind, wp_read]
    dsimp only
    set m := min left (BSIZE - off % BSIZE)
    set src := (s'.disk addr).slice (off % BSIZE) m
    have hLen : src.length = m := Bytes.length_slice ..
    have hva := add64_lt dst tot
    rcases u.fills_copyout hva src with
      ⟨k, hk, hFills, hAll⟩
    rw [hLen] at hk hAll
    cases hCopy : u.copyout (add64 dst tot) src with
    | mk ok u₁ =>
      rw [hCopy] at hFills hAll
      cases ok with
      | false =>
        rw [wp_pure]
        exact ⟨hs', k, by omega, hFills, .inl rfl⟩
      | true =>
        rw [hAll rfl] at hFills
        refine wp_imp (ih (by omega) (tot + m) u₁ hs') ?_
        rintro r s₁ ⟨hs₁, k', hk', hRest, hValue⟩
        rw [← add64_add64] at hRest
        rw [Nat.add_assoc] at hValue
        exact ⟨hs₁, m + k', by omega, hFills.append hva hRest, hValue⟩

/- Nothing is left to read, or the first byte cannot be stored. -/
theorem readiUserLoop_stuck
    {dst fuel off left tot : Nat}
    {s : Fs}
    {u : UserSpace}
    (hBmap : wp (bmap sb i (off / BSIZE)) (fun _ s' => I s') E s)
    (hs : I s)
    (hStuck : left = 0 ∨ u.ok (add64 dst tot) = false) :
    wp (readiUserLoop sb i dst fuel off tot left u)
      (fun r s' => I s' ∧ r.2 = u ∧ (r.1 = -1 ∨ r.1 = tot))
      E s := by
  cases fuel with
  | zero =>
    rw [readiUserLoop, wp_pure]
    exact ⟨hs, rfl, .inr rfl⟩
  | succ fuel =>
    rw [readiUserLoop, wp_ite]
    refine ⟨fun _ => ?_, fun hLeft => ?_⟩
    · rw [wp_pure]
      exact ⟨hs, rfl, .inr rfl⟩
    have hOk : ¬ u.ok (add64 dst tot) = true :=
      Bool.eq_false_iff.mp (hStuck.resolve_left hLeft)
    rw [wp_bind]
    refine wp_imp hBmap (fun a s' hs' => ?_)
    rw [wp_ite]
    refine ⟨fun _ => ?_, fun _ => ?_⟩
    · rw [wp_pure]
      exact ⟨hs', rfl, .inr rfl⟩
    rw [wp_bind, wp_read]
    dsimp only
    have hPos : min left (BSIZE - off % BSIZE) ≠ 0 := by
      simp only [BSIZE]
      omega
    rw [copyout_eq (add64_lt dst tot),
      reach_of_not_ok hOk, Bytes.length_slice,
      beq_false_of_ne hPos.symm]
    rw [wp_pure]
    exact ⟨hs', rfl, .inl rfl⟩

theorem readiUser_fills
    {s : Fs}
    (hs : I s)
    (hBmap : ∀ o < (s.copy i).size.toNat, ∀ s, I s →
      wp (bmap sb i (o / BSIZE)) (fun _ s' => I s') E s)
    {dst : Nat}
    (hDst : dst < 2 ^ 64)
    {off n : BitVec 32}
    {u : UserSpace}
    (hLength : 0 ≤ n.toInt ∨ -n.toInt ≤ off.toNat ∨
      (s.copy i).size ≤ off ∨ u.ok dst = false) :
    wp (readiUser sb i dst off n u)
      (fun r s' => I s' ∧ ∃ m ≤ n.toInt.toNat,
        u.Fills dst m r.2 ∧
        (r.1 = -1 ∨ (r.1 = m ∧ off.toNat + m < 2 ^ 32))) E s := by
  unfold readiUser
  rw [wp_bind, wp_read]
  set size := (s.copy i).size
  rw [wp_ite]
  constructor
  · intro _
    rw [wp_pure]
    exact ⟨hs, 0, Nat.zero_le _, .nothing .., .inr ⟨rfl, off.isLt⟩⟩
  intro hFits
  have hSum : off.toNat + n.toNat < 2 ^ 32 := by
    bv_omega
  have hNeg : 0 ≤ n.toInt ∨ -n.toInt ≤ off.toNat →
      n.toInt.toNat = n.toNat := by
    rw [BitVec.toInt_eq_toNat_cond]
    omega
  set k := if size < off + n then size - off else n with hk
  have hTop : off.toNat + k.toNat ≤ size.toNat ∧
      k.toNat ≤ n.toNat := by
    rw [hk]
    split
    · bv_omega
    · bv_omega
  by_cases hLong : 0 ≤ n.toInt ∨ -n.toInt ≤ off.toNat
  · -- the overflow test leaves no negative length
    refine wp_imp
      (readiUserLoop_fills hBmap dst k.toNat hTop.1 0 u hs) ?_
    rintro r s' ⟨hs', m, hm, hFills, hValue⟩
    rw [add64_zero hDst] at hFills
    refine ⟨hs', m, by omega, hFills, ?_⟩
    rw [Nat.zero_add] at hValue
    exact hValue.imp_right (fun hr => ⟨hr, by omega⟩)
  have hStuck : k.toNat = 0 ∨ u.ok (add64 dst 0) = false := by
    rw [add64_zero hDst]
    refine ((or_assoc.mpr hLength).resolve_left hLong).imp_left ?_
    intro hEnd
    bv_omega
  have hWp : wp (readiUserLoop sb i dst k.toNat off.toNat 0
      k.toNat u)
      (fun r s' => I s' ∧ r.2 = u ∧ (r.1 = -1 ∨ r.1 = 0)) E s := by
    by_cases hNone : k.toNat = 0
    · rw [hNone, readiUserLoop, wp_pure]
      exact ⟨hs, rfl, .inr rfl⟩
    · exact readiUserLoop_stuck
        (hBmap _ (by omega) s hs) hs hStuck
  refine wp_imp hWp ?_
  rintro ⟨r, u'⟩ s' ⟨hs', rfl, hr⟩
  exact ⟨hs', 0, Nat.zero_le _, .nothing .., hr.imp_right
    (fun h => ⟨h, off.isLt⟩)⟩

variable {v : View File} {s : Fs} {u : UserSpace} {dst : Nat}

/- The first byte is the one of the file. -/
theorem readiUserLoop_first
    (hAt : At sb none s v)
    (hValid : v.valid i = true)
    {fuel off left : Nat}
    (hLeft : left ≠ 0)
    (hTop : off + left ≤ (v.file i).size.toNat)
    (hMax : left < 2 ^ 64)
    {b : Block}
    (hBlock : (v.file i).blocks (off / BSIZE) = some b)
    (hDst : dst < 2 ^ 64)
    (hOk : u.ok dst = true) :
    wp (readiUserLoop sb i dst (fuel + 1) off 0 left u)
      (fun r _ => r.2.byte dst = b.byte (off % BSIZE))
      (fun _ _ => True) s := by
  have hBmap : ∀ o < (v.file i).size.toNat, ∀ s,
      At sb none s v → wp (bmap sb i (o / BSIZE))
        (fun _ s' => At sb none s' v) (fun _ _ => True) s :=
    fun o ho s hAt => bmap_within hAt hValid ho (fun _ _ _ => hAt)
  rw [readiUserLoop, if_neg hLeft, wp_bind]
  refine bmap_within hAt hValid (by omega) (fun a ha hDisk => ?_)
  rw [if_neg ha, wp_bind, wp_read, add64_zero hDst]
  cases hBlock.symm.trans hDisk
  dsimp only
  set m := min left (BSIZE - off % BSIZE) with hm
  have hPos : 0 < m := by
    simp only [hm, BSIZE]
    omega
  have hSrc : ∃ l : List UInt8, l.length < m ∧
      (s.disk a).slice (off % BSIZE) m =
        (s.disk a).byte (off % BSIZE) :: l := by
    rw [Bytes.slice, ← Nat.succ_pred_eq_of_pos hPos,
      List.range_succ_eq_map]
    exact ⟨_, by simp, rfl⟩
  obtain ⟨l, hl, hSrc⟩ := hSrc
  rw [hSrc]
  have hFirst := copyout_first hDst hOk
    (x := (s.disk a).byte (off % BSIZE)) (l := l) (by omega)
  cases hCopy : u.copyout dst
      ((s.disk a).byte (off % BSIZE) :: l) with
  | mk ok u₁ =>
    rw [hCopy] at hFirst
    cases ok with
    | false =>
      rw [wp_pure]
      exact hFirst
    | true =>
      refine wp_imp (readiUserLoop_fills hBmap dst fuel
        (by omega) (0 + m) u₁ hAt) ?_
      rintro ⟨r, u'⟩ s' ⟨_, k, hk, ⟨l', hl', rfl⟩, _⟩
      rw [byte_store_of_ne u₁
        (add64_lt dst _) l', hFirst]
      intro i hi
      unfold add64
      omega

/- A negative length that passes the overflow test. -/
theorem readiUser_first
    (hAt : At sb none s v)
    (hValid : v.valid i = true)
    {off n : BitVec 32}
    (hNeg : n.toInt < 0)
    (hWrap : (off.toNat : Int) < -n.toInt)
    (hOff : off < (v.file i).size)
    {b : Block}
    (hBlock : (v.file i).blocks (off.toNat / BSIZE) = some b)
    (hDst : dst < 2 ^ 64)
    (hOk : u.ok dst = true) :
    wp (readiUser sb i dst off n u)
      (fun r _ => r.2.byte dst = b.byte (off.toNat % BSIZE))
      (fun _ _ => True) s := by
  have hn : n.toNat + off.toNat < 2 ^ 32 ∧ 0 < n.toNat := by
    rw [BitVec.toInt_eq_toNat_cond] at hNeg hWrap
    omega
  unfold readiUser
  rw [wp_bind, wp_read, ← hAt.size_eq hValid]
  dsimp only
  set size := (v.file i).size with hSize
  rw [if_neg (by bv_omega)]
  set k := if size < off + n then size - off else n with hk
  have hTop : off.toNat + k.toNat ≤ size.toNat ∧
      k.toNat ≠ 0 := by
    rw [hk]
    split
    · bv_omega
    · bv_omega
  obtain ⟨k', hk'⟩ := Nat.exists_eq_succ_of_ne_zero hTop.2
  rw [hk'] at hTop ⊢
  exact readiUserLoop_first hAt hValid (Nat.succ_ne_zero k')
    hTop.1 (by omega) hBlock hDst hOk

end Inodes

/-
  At most `n` bytes from `addr` on were stored. When the call
  has returned, its value counts them, and the offset of an
  inode has moved by as many.
-/
def FileRead.AtMost (o : FileRead) (f : OpenFile) (addr : BitVec 64) (n : BitVec 32)
    (u : UserSpace) : Prop :=
  ∃ m ≤ n.toInt.toNat, u.Fills addr.toNat m o.u ∧
    ∀ r, o.value = some r → (r = -1 ∨ r = m) ∧ o.file.off.toNat = f.off.toNat +
        if f.type = .inode then r.toNat else 0

variable {sb : Superblock} {f : OpenFile} {source : ReadSource} {addr : BitVec 64}
variable {n : BitVec 32} {u : UserSpace} {s : Fs}

/- A read that stores nothing. -/
theorem FileRead.AtMost.nothing {r : Int} (hr : r = -1 ∨ r = 0) :
    (⟨some r, f, u⟩ : FileRead).AtMost f addr n u := by
  refine ⟨0, Nat.zero_le _, .nothing .., ?_⟩
  rintro _ ⟨⟩
  rcases hr with rfl | rfl
  · exact ⟨.inl rfl, by simp⟩
  · exact ⟨.inr rfl, by simp⟩

/-
  The rule of `fileread`: `I` holds while the inode is locked,
  and `E` of the states in which it stops.
-/
theorem fileread_rule
    {I : Fs → Prop}
    {E : SysHalt → Fs → Prop}
    (hLock : f.type = .inode → f.readable = true →
      wp (ilock sb f.ip)
        (fun _ s' => I s' ∧
          (0 ≤ n.toInt ∨ -n.toInt ≤ f.off.toNat ∨
            (s'.copy f.ip).size ≤ f.off ∨
            u.ok addr.toNat = false) ∧
          ∀ o < (s'.copy f.ip).size.toNat, ∀ s, I s →
            wp (bmap sb f.ip (o / BSIZE)) (fun _ s' => I s')
              (fun e => E (.fs e)) s)
        (fun e => E (.fs e)) s)
    (hUnlock : f.type = .inode → ∀ s, I s →
      wp (iunlock f.ip) (fun _ _ => True)
        (fun e => E (.fs e)) s)
    (hNone : f.type = .none → E .fileread s) :
    wp (fileread sb f source addr n u) (fun o _ => o.AtMost f addr n u) E s := by
  unfold fileread
  by_cases hReadable : f.readable = false
  · rw [if_pos hReadable, wp_pure]
    exact .nothing (.inl rfl)
  rw [if_neg hReadable]
  cases hType : f.type with
  | none =>
    rw [wp_stop]
    exact hNone hType
  | pipe =>
    dsimp only
    unfold piperead
    split_ifs
    · rw [wp_pure]
      exact .nothing (.inl rfl)
    · rw [wp_pure]
      exact ⟨0, Nat.zero_le _, .nothing .., by simp⟩
    · rcases pipereadLoop_fills addr.toNat n.toInt.toNat 0
        source.pipe u with ⟨m, hm, hFills, hCount⟩
      rw [add64_zero addr.isLt] at hFills
      rw [wp_pure]
      refine ⟨m, hm, hFills, ?_⟩
      rintro _ ⟨⟩
      rw [hCount, hType]
      exact ⟨.inr (by simp), by simp⟩
  | device =>
    rw [wp_ite]
    constructor
    · intro _
      rw [wp_pure]
      exact .nothing (.inl rfl)
    intro _
    rcases consoleread_fills source.turns ⟨addr, n, n⟩ (a := 0) (by simp) (by simp) u with
      ⟨m, hm, hFills, hValue⟩
    rw [wp_pure]
    rw [Nat.zero_add] at hm hValue
    refine ⟨m, hm, hFills, ?_⟩
    intro r hr
    rw [hType]
    exact ⟨hValue r hr, by simp⟩
  | inode =>
    rw [wp_bind, wp_zoom]
    refine wp_imp (hLock hType (Bool.not_eq_false _ ▸ hReadable)) ?_
    rintro _ s₁ ⟨hs₁, hLength, hBmap⟩
    rw [wp_bind, wp_zoom]
    refine wp_imp (readiUser_fills hs₁ hBmap addr.isLt hLength) ?_
    rintro ⟨r, u'⟩ s₂ ⟨hs₂, m, hm, hFills, hValue⟩
    rw [wp_bind, wp_zoom]
    refine wp_imp (hUnlock hType s₂ hs₂) ?_
    intro _ _ _
    rw [wp_pure]
    refine ⟨m, hm, hFills, ?_⟩
    rintro _ ⟨⟩
    rw [if_pos hType, OpenFile.advance]
    rcases hValue with rfl | ⟨rfl, hOff⟩
    · exact ⟨.inl rfl, rfl⟩
    refine ⟨.inr rfl, ?_⟩
    dsimp only
    split
    · simp [BitVec.toNat_add]
      omega
    · omega

/-
  The calls that deliver at most what they are asked for: a
  negative length does no harm if the overflow test stops it,
  if nothing is left to read, or if nothing can be stored.
-/
def ReadWithin
    (f : OpenFile)
    (size : BitVec 32)
    (u : UserSpace)
    (addr : BitVec 64)
    (n : BitVec 32) : Prop :=
  f.type = .inode → f.readable = true →
    0 ≤ n.toInt ∨ -n.toInt ≤ f.off.toNat ∨ size ≤ f.off ∨
      u.ok addr.toNat = false

/- A call that is not within bounds stores the next byte of the file. -/
theorem fileread_first
    {v : View File}
    (hAt : At sb none s v)
    (hRef : 0 < v.ref f.ip)
    (hType : f.type = .inode)
    (hReadable : f.readable = true)
    (hNeg : n.toInt < 0)
    (hWrap : (f.off.toNat : Int) < -n.toInt)
    (hOff : f.off < (v.file f.ip).size)
    {b : Block}
    (hBlock : (v.file f.ip).blocks (f.off.toNat / BSIZE) = some b)
    (hOk : u.ok addr.toNat = true) :
    wp (fileread sb f source addr n u)
      (fun o _ => o.u.byte addr.toNat =
        b.byte (f.off.toNat % BSIZE)) (fun _ _ => True) s := by
  unfold fileread
  rw [if_neg (by simp [hReadable]), hType]
  rw [wp_bind, wp_zoom]
  refine ilock_rule hAt hRef (fun s₁ _ hAt₁ => ?_)
    (fun _ _ => trivial)
  rw [wp_bind, wp_zoom]
  refine wp_imp (readiUser_first hAt₁
    (Function.update_self ..) hNeg hWrap hOff hBlock addr.isLt
    hOk) ?_
  intro r s₂ hByte
  rw [wp_bind]
  refine Prog.wp_of_forall _ (fun _ _ => ?_) (by simp)
  rw [wp_pure]
  exact hByte

/-
  A read delivers at most what it is asked for, whatever the
  user's memory holds, just if it is within bounds. In other
  states than those of the file system, which may also panic,
  it does so if the overflow test works.
-/
theorem fileread_at_most
    (sb : Superblock)
    (f : OpenFile)
    (source : ReadSource)
    (addr : BitVec 64)
    (n : BitVec 32)
    (u : UserSpace)
    (s : Fs) :
    ((f.type = .inode → f.readable = true →
        0 ≤ n.toInt ∨ -n.toInt ≤ f.off.toNat) →
      wp (fileread sb f source addr n u)
        (fun o _ => o.AtMost f addr n u) (fun _ _ => True) s) ∧
    ∀ v, At sb none s v → f.type ≠ .none →
      (f.type = .inode →
        0 < v.ref f.ip ∧ (v.file f.ip).type ≠ 0) →
      ((∀ mem, wp (fileread sb f source addr n
            { u with byte := mem })
          (fun o _ => o.AtMost f addr n { u with byte := mem })
          (fun _ _ => False) s) ↔
        ReadWithin f (v.file f.ip).size u addr n) := by
  constructor
  · intro hLength
    apply fileread_rule
    · intro hType hReadable
      refine Prog.wp_of_forall _ (fun _ s' => ?_) (by simp)
      refine ⟨trivial, ?_, fun o _ s₁ _ => ?_⟩
      · have hLong := hLength hType hReadable
        omega
      · exact Prog.wp_of_forall _ (by simp) (by simp)
    · intro _ s₁ _
      exact Prog.wp_of_forall _ (by simp) (by simp)
    · intro _
      trivial
  intro v hAt hNone hOpen
  constructor
  · intro hAll hType hReadable
    obtain ⟨hRef, hLive⟩ := hOpen hType
    by_contra hOut
    simp only [not_or, not_le, Bool.not_eq_false] at hOut
    obtain ⟨hNeg, hWrap, hSize, hOk⟩ := hOut
    have hOff := BitVec.not_le.mp hSize
    -- the byte that is stored is not the old one
    obtain ⟨_, s₁, _, hAt₁⟩ := Prog.exists_ok_of_wp
      (ilock_rule
        (Q := fun _ s' => At sb none s' (v.lock f.ip)) hAt hRef
        (fun _ _ hAt' => hAt') (fun hZero => absurd hZero hLive))
    obtain ⟨_, _, _, b, hBlock⟩ := Prog.exists_ok_of_wp
      (bmap_within hAt₁
        (Function.update_self ..) (BitVec.lt_def.mp hOff)
        (Q := fun _ _ => ∃ b, (v.file f.ip).blocks
          (f.off.toNat / BSIZE) = some b)
        (fun _ _ hBlock => ⟨_, hBlock⟩))
    obtain ⟨o, s', hRun, m, hm, ⟨l, hl, hFills⟩, _⟩ :=
      Prog.exists_ok_of_wp
        (hAll (fun _ => b.byte (f.off.toNat % BSIZE) + 1))
    have hByte := Prog.wp_ok (fileread_first hAt hRef hType
      hReadable hNeg hWrap hOff hBlock (by exact hOk)) hRun
    cases List.length_eq_zero_iff.mp (show l.length = 0 by omega)
    rw [hFills] at hByte
    simp [store] at hByte
  intro hWithin mem
  apply fileread_rule
  · intro hType hReadable
    rcases hOpen hType with ⟨hRef, hLive⟩
    apply ilock_rule hAt hRef
    · intro s' _ hAt'
      have hValid : (v.lock f.ip).valid f.ip = true :=
        Function.update_self ..
      rw [← hAt'.size_eq hValid]
      refine ⟨hAt', hWithin hType hReadable, ?_⟩
      intro o ho s₁ hAt₁
      exact bmap_within hAt₁ hValid ho (fun _ _ _ => hAt₁)
    · intro hZero
      exact absurd hZero hLive
  · intro hType s₁ hAt₁
    exact iunlock_rule hAt₁ (hOpen hType).1 trivial
  · intro hType
    exact absurd hType hNone

/- The root directory, of which one byte is left to read. -/
def openRoot : OpenFile where
  type := .inode
  ref := 1
  readable := true
  writable := false
  pipe := 0
  ip := ROOTINO
  off := 1023
  major := 0

def noSource : ReadSource where
  killed := false
  pipe := twoBytes.pipe
  turns := []

/- The byte is read. -/
theorem fileread_one_byte :
    (∀ mem, wp (fileread smallSb openRoot noSource 4096 1
        { wholeSpace true with byte := mem })
      (fun o _ => o.AtMost openRoot 4096 1
        { wholeSpace true with byte := mem })
      (fun _ _ => False) (booted smallSb)) ∧
    (fileread smallSb openRoot noSource 4096 1 (wholeSpace true)
        (booted smallSb)).1.toOption.map
        (fun o => (o.value, o.file.off)) =
      some (some 1, 1024) := by
  constructor
  · obtain ⟨v, hAt, _, hRef, _, hRoot⟩ :=
      @booted_root smallSb (by decide)
    have hType : (v.file ROOTINO).type = T_DIR :=
      congrArg Node.type hRoot
    exact ((fileread_at_most smallSb openRoot noSource 4096 1
      (wholeSpace true) (booted smallSb)).2 v hAt (by decide)
      (fun _ => ⟨hRef, hType ▸ by decide⟩)).mpr
      (fun _ _ => .inl (by decide))
  · decide +kernel

/- It is also delivered to a caller that asks for -1024 bytes. -/
theorem fileread_negative :
    (fileread smallSb openRoot noSource 4096 (-1024)
        (wholeSpace true) (booted smallSb)).1.toOption.map
        (fun o => (o.value, o.file.off)) =
      some (some 1, 1024) := by
  decide +kernel

end Xv6
