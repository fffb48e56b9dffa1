import Xv6.Fs.Consistency
import Xv6.Sys.Calls

/-
  The blocks on which a write calls `log_write`.

  One chunk of `filewrite` must fit what `begin_op` reserves.
  It writes to four blocks at most, and a chunk that touches
  four begins inside a block that is already mapped.

  Key definitions include:
    * `ballocLogs`
    * `bmapLogs`
    * `writeiLogs`

  Main result is:
    * `filewrite_chunk_fits`
-/

open Function List
open Prog (wp wp_bind wp_edit wp_imp wp_pure wp_read)

-------
-- Calls of `log_write`
-------

namespace Xv6

section Logs

variable (sb : Superblock)

/- `balloc` logs the bitmap and the block it zeroes. -/
def ballocLogs (s : Fs) : List Nat :=
  match (List.range sb.size).find? (fun b => !sb.bit s.disk b) with
  | some b => [sb.bblock b, b]
  | none => []

/- What allocating a missing block of `addrs` logs. -/
def bmapAddrLogs (i : Nat) (j : Fin (NDIRECT + 1)) (s : Fs) : List Nat :=
  if (s.copy i).addrs j = 0 then ballocLogs sb s else []

/- The indirect block is logged if it gets a new entry. -/
def bmapEntryLogs (ind j : Nat) (s : Fs) : List Nat :=
  if addrAt (s.disk ind) j = 0 then
    ballocLogs sb s ++ (balloc sb).onReturn (fun a _ => if a = 0 then [] else [ind]) [] s
  else []

def bmapLogs (i bn : Nat) (s : Fs) : List Nat :=
  if h : bn < NDIRECT then bmapAddrLogs sb i ⟨bn, Nat.lt_succ_of_lt h⟩ s
  else
    bmapAddrLogs sb i indirect s ++ (bmapAddr sb i indirect).onReturn
        (fun ind s₁ => if ind = 0 then [] else bmapEntryLogs sb ind (bn - NDIRECT) s₁) [] s

/- The loop of `writei` logs each block it has filled. -/
def writeiLoopLogs (i : Nat) (src : Nat → UInt8) (copyin : Nat → Option Nat) :
    Nat → Nat → Nat → Nat → Fs → List Nat
| 0, _, _, _, _ => []
| fuel + 1, off, tot, left, s =>
    if left = 0 then []
    else
      let m := min left (BSIZE - off % BSIZE)
      bmapLogs sb i (off / BSIZE) s ++ (bmap sb i (off / BSIZE)).onReturn (fun addr s₁ =>
          if addr = 0 then []
          else
            match copyin tot with
            | some _ => []
            | none =>
                addr :: writeiLoopLogs i src copyin fuel (off + m) (tot + m) (left - m)
                  (s₁.setBlock addr
                    ((s₁.disk addr).splice (off % BSIZE) (srcBytes src tot m)))) [] s

/- `writei` ends with `iupdate`, which logs the inode. -/
def writeiLogs (i : Nat) (src : Nat → UInt8) (copyin : Nat → Option Nat)
    (off n : BitVec 32) (s : Fs) : List Nat :=
  if (s.copy i).size < off ∨ off + n < off then []
  else if MAXFILE * BSIZE < (off + n).toNat then []
  else
    writeiLoopLogs sb i src copyin n.toNat off.toNat 0 n.toNat s ++ [sb.iblock i]

end Logs

-------
-- Counting Blocks
-------

/- The indirect block of an inode, if any. -/
def indOf (i : Nat) (s : Fs) : BitVec 32 := (s.copy i).addrs indirect

/-
  Not counting the indirect block, the list has at most `n`
  different blocks. One is kept for the bitmap while the
  indirect block is not yet allocated.
-/
def Logged (i n : Nat) (s : Fs) (l : List Nat) : Prop :=
  ∃ T : Finset Nat, T.card + (if indOf i s = 0 then 1 else 0) ≤ n ∧
    ∀ b ∈ l, b ∈ T ∨ indOf i s ≠ 0 ∧ b = (indOf i s).toNat

/- The block `bn` of the inode is mapped. -/
def MappedAt (i bn : Nat) (s : Fs) : Prop :=
  if h : bn < NDIRECT then (s.copy i).addrs ⟨bn, Nat.lt_succ_of_lt h⟩ ≠ 0
  else indOf i s ≠ 0 ∧ addrAt (s.disk (indOf i s).toNat) (bn - NDIRECT) ≠ 0

section Count

variable {i n : Nat} {s s' : Fs} {l : List Nat} (sb : Superblock)

theorem Logged.mono (h : Logged i n s l) {n' : Nat} {l' : List Nat} (hn : n ≤ n') (hl : l' ⊆ l) :
    Logged i n' s l' := by
  obtain ⟨T, hCard, hMem⟩ := h
  exact ⟨T, hCard.trans hn, fun b hb => hMem b (hl hb)⟩

/- More blocks, while the indirect block stays the same. -/
theorem Logged.add
    (h : Logged i n s l) (hInd : indOf i s' = indOf i s) (m : List Nat) {k : List Nat}
    (hk : ∀ b ∈ k, b ∈ m ∨ indOf i s ≠ 0 ∧ b = (indOf i s).toNat) :
    Logged i (n + m.length) s' (l ++ k) := by
  obtain ⟨T, hCard, hMem⟩ := h
  refine ⟨T ∪ m.toFinset, ?_, fun b hb => ?_⟩
  · have hUnion := Finset.card_union_le T m.toFinset
    have hLen := m.toFinset_card_le
    rw [hInd]
    omega
  · rw [hInd, Finset.mem_union, mem_toFinset]
    rcases mem_append.mp hb with hb | hb
    · exact (hMem b hb).imp_left .inl
    · exact (hk b hb).imp_left .inr

/- The indirect block is allocated. -/
theorem Logged.grow (h : Logged i n s l) (hZero : indOf i s = 0) (hNew : indOf i s' ≠ 0)
    {c : Nat} {k : List Nat} (hk : ∀ b ∈ k, b = c ∨ b = (indOf i s').toNat) :
    Logged i n s' (l ++ k) := by
  obtain ⟨T, hCard, hMem⟩ := h
  rw [if_pos hZero] at hCard
  refine ⟨insert c T, ?_, fun b hb => ?_⟩
  · have hInsert := Finset.card_insert_le c T
    rw [if_neg hNew]
    omega
  · rw [Finset.mem_insert]
    rcases mem_append.mp hb with hb | hb
    · exact .inl (.inr ((hMem b hb).resolve_right (fun hNe => hNe.1 hZero)))
    · exact (hk b hb).imp .inl (fun hEq => ⟨hNew, hEq⟩)

theorem balloc_logs (s : Fs) :
    wp (balloc sb) (fun a s' => s'.itable = s.itable ∧ a < 2 ^ 32 ∧
        ∀ b ∈ ballocLogs sb s, b = sb.bblock a ∨ b = a)
      (fun _ _ => False) s := by
  unfold balloc ballocLogs
  rw [wp_bind, wp_read]
  cases hFind : (range sb.size).find? (fun b => !sb.bit s.disk b) with
  | none =>
    rw [wp_pure]
    exact ⟨rfl, by decide, by simp⟩
  | some b =>
    have hLt := mem_range.mp (mem_of_find?_eq_some hFind)
    rw [wp_bind, wp_edit, bzero, wp_bind, wp_edit, wp_pure]
    exact ⟨rfl, hLt.trans sb.hSize, by simp⟩

/- A block of `addrs`: two blocks are logged if it is new. -/
theorem bmapAddr_logs (s : Fs) (j : Fin (NDIRECT + 1)) :
    wp (bmapAddr sb i j)
      (fun a s' => ((s.copy i).addrs j ≠ 0 → s' = s ∧ bmapAddrLogs sb i j s = [] ∧
          a = ((s.copy i).addrs j).toNat) ∧
        ((s.copy i).addrs j = 0 → (∀ b ∈ bmapAddrLogs sb i j s, b = sb.bblock a ∨ b = a) ∧
          if a = 0 then s'.copy i = s.copy i
          else ((s'.copy i).addrs j).toNat = a ∧
            ∀ k, k ≠ j → (s'.copy i).addrs k = (s.copy i).addrs k))
      (fun _ _ => False) s := by
  unfold bmapAddr bmapAddrLogs
  rw [wp_bind, wp_read]
  by_cases hZero : (s.copy i).addrs j = 0
  · simp only [hZero, if_true, ne_eq, not_true, false_imp_iff, true_and, true_imp_iff, wp_bind]
    refine wp_imp (balloc_logs sb s) ?_
    rintro a s₁ ⟨hTable, hLt, hLogs⟩
    have hCopy : s₁.copy i = s.copy i := by
      unfold Fs.copy
      rw [hTable]
    by_cases ha : a = 0
    · rw [if_pos ha, wp_pure]
      exact ⟨ha ▸ hLogs, hCopy⟩
    · rw [if_neg ha, wp_bind, wp_edit, wp_pure, if_neg ha, Fs.setCopy_copy, hCopy]
      refine ⟨hLogs, ?_, fun k hk => update_of_ne hk ..⟩
      simpa [Dinode.setAddr] using hLt
  · rw [if_neg hZero, if_neg hZero, wp_pure]
    exact ⟨fun _ => ⟨rfl, rfl, rfl⟩, fun hEq => absurd hEq hZero⟩

/- An entry of the indirect block. -/
theorem bmapEntry_logs (h : Logged i n s l) (hInd : indOf i s ≠ 0) (j : Nat) :
    wp (bmapEntry sb (indOf i s).toNat j) (fun a s' =>
        Logged i (n + 2) s' (l ++ (bmapEntryLogs sb (indOf i s).toNat j s ++ [a])) ∧
        (addrAt (s.disk (indOf i s).toNat) j ≠ 0 →
          Logged i (n + 1) s' (l ++ (bmapEntryLogs sb (indOf i s).toNat j s ++ [a]))))
      (fun _ _ => False) s := by
  unfold bmapEntry bmapEntryLogs
  rw [wp_bind, wp_read]
  by_cases hZero : addrAt (s.disk (indOf i s).toNat) j = 0
  · obtain ⟨a, s₁, hRun, hTable, _, hLogs⟩ := Prog.exists_ok_of_wp (balloc_logs sb s)
    rw [if_pos hZero, if_pos hZero, wp_bind, Prog.onReturn_ok _ _ hRun]
    apply Prog.wp_of_ok hRun
    have hSame : indOf i s₁ = indOf i s := by
      unfold indOf Fs.copy
      rw [hTable]
    have hTwo : Logged i (n + 2) s₁ (l ++ (ballocLogs sb s ++
        (if a = 0 then [] else [(indOf i s).toNat]) ++ [a])) := by
      refine h.add hSame [sb.bblock a, a] (fun b hb => ?_)
      rcases mem_append.mp hb with hb | hb
      · rcases mem_append.mp hb with hb | hb
        · exact .inl (by simpa using hLogs b hb)
        · split at hb
          · cases hb
          · exact .inr ⟨hInd, mem_singleton.mp hb⟩
      · exact .inl (mem_cons_of_mem _ hb)
    by_cases ha : a = 0
    · rw [if_pos ha, wp_pure]
      subst ha
      exact ⟨hTwo, fun hNe => absurd hZero hNe⟩
    · rw [if_neg ha, wp_bind, wp_edit, wp_pure]
      exact ⟨hTwo, fun hNe => absurd hZero hNe⟩
  · rw [if_neg hZero, if_neg hZero, wp_pure]
    have hOne := h.add rfl [addrAt (s.disk (indOf i s).toNat) j] (fun b hb => .inl hb)
    exact ⟨hOne.mono (by simp) (List.Subset.refl _), fun _ => hOne⟩

/- A round logs two blocks, and one if the block is mapped. -/
theorem bmap_logs (h : Logged i n s l) {bn : Nat} (hbn : bn < MAXFILE) :
    wp (bmap sb i bn) (fun a s' => Logged i (n + 2) s' (l ++ (bmapLogs sb i bn s ++ [a])) ∧
        (MappedAt i bn s → Logged i (n + 1) s' (l ++ (bmapLogs sb i bn s ++ [a]))))
      (fun _ _ => False) s := by
  unfold bmap bmapLogs MappedAt
  by_cases hDirect : bn < NDIRECT
  · simp only [hDirect, dite_true]
    generalize hj : (⟨bn, Nat.lt_succ_of_lt hDirect⟩ : Fin (NDIRECT + 1)) = j
    have hNe : indirect ≠ j := by
      rintro rfl
      exact absurd (congrArg Fin.val hj) (Nat.ne_of_lt hDirect)
    refine wp_imp (bmapAddr_logs sb s j) ?_
    rintro a s' ⟨hOld, hNew⟩
    by_cases hZero : (s.copy i).addrs j = 0
    · obtain ⟨hLogs, hCopy⟩ := hNew hZero
      have hInd : indOf i s' = indOf i s := by
        unfold indOf
        split at hCopy
        · rw [hCopy]
        · exact hCopy.2 _ hNe
      refine ⟨h.add hInd [sb.bblock a, a] ?_, fun hMap => absurd hZero hMap⟩
      simpa [or_imp, forall_and] using fun b hb => .inl (hLogs b hb)
    · obtain ⟨rfl, hLogs, _⟩ := hOld hZero
      have hOne := h.add rfl [a] (k := bmapAddrLogs sb i j s' ++ [a]) (by simp [hLogs])
      exact ⟨hOne.mono (by simp) (List.Subset.refl _), fun _ => hOne⟩
  have hRange : bn - NDIRECT < NINDIRECT := by
    simp only [MAXFILE] at hbn
    omega
  obtain ⟨ind, s₁, hRun, hOld, hNew⟩ := Prog.exists_ok_of_wp (bmapAddr_logs sb s indirect)
  simp only [hDirect, dite_false, hRange, if_true]
  rw [wp_bind, Prog.onReturn_ok _ _ hRun]
  apply Prog.wp_of_ok hRun
  by_cases hZero : indOf i s = 0
  · obtain ⟨hLogs, hCopy⟩ := hNew hZero
    by_cases hInd : ind = 0
    · rw [if_pos hInd] at hCopy ⊢
      rw [wp_pure]
      refine ⟨h.add (congrArg (·.addrs indirect) hCopy) [sb.bblock ind, ind] ?_,
        fun hMap => absurd hZero hMap.1⟩
      simpa [hInd, or_imp, forall_and] using fun b hb => .inl (hInd ▸ hLogs b hb)
    rw [if_neg hInd] at hCopy ⊢
    have hAddr : indOf i s₁ ≠ 0 := by
      intro hEq
      rw [← hCopy.1, show (s₁.copy i).addrs indirect = 0 from hEq] at hInd
      exact hInd rfl
    have hGrow := h.grow hZero hAddr (fun b hb =>
      (hLogs b hb).imp_right (fun hEq => hEq.trans hCopy.1.symm))
    have hEntry := bmapEntry_logs sb hGrow hAddr (bn - NDIRECT)
    rw [show (indOf i s₁).toNat = ind from hCopy.1] at hEntry
    rw [if_neg hInd]
    refine wp_imp hEntry (fun a s' hLogged => ?_)
    simp only [append_assoc] at hLogged ⊢
    exact ⟨hLogged.1, fun hMap => absurd hZero hMap.1⟩
  · obtain ⟨rfl, hLogs, rfl⟩ := hOld hZero
    have hInd : ((s₁.copy i).addrs indirect).toNat ≠ 0 := fun hEq =>
      hZero (BitVec.eq_of_toNat_eq hEq)
    rw [if_neg hInd, if_neg hInd, hLogs, nil_append]
    exact wp_imp (bmapEntry_logs sb h hZero _)
      (fun a s' hLogged => ⟨hLogged.1, fun hMap => hLogged.2 hMap.2⟩)

-------
-- The Loop
-------

variable {src : Nat → UInt8} {copyin : Nat → Option Nat} {fuel off tot left d k : Nat}

/- A round logs `d` blocks, and `k` are left for the rest. -/
theorem writeiLoop_round (h : Logged i n s l) (hOff : off / BSIZE < MAXFILE) (hLeft : left ≠ 0)
    (hd : d = 2 ∨ d = 1 ∧ MappedAt i (off / BSIZE) s)
    (hRest : ∀ s₁ l₁, Logged i (n + d) s₁ l₁ →
      ∃ s', Logged i (n + d + k) s' (l₁ ++ writeiLoopLogs sb i src copyin fuel
        (off + min left (BSIZE - off % BSIZE)) (tot + min left (BSIZE - off % BSIZE))
        (left - min left (BSIZE - off % BSIZE)) s₁)) :
    ∃ s', Logged i (n + d + k) s'
      (l ++ writeiLoopLogs sb i src copyin (fuel + 1) off tot left s) := by
  obtain ⟨addr, s₁, hRun, hTwo, hOne⟩ := Prog.exists_ok_of_wp (bmap_logs sb h hOff)
  have hLogged : Logged i (n + d) s₁ (l ++ (bmapLogs sb i (off / BSIZE) s ++ [addr])) := by
    rcases hd with rfl | ⟨rfl, hMap⟩
    · exact hTwo
    · exact hOne hMap
  have hStop : Logged i (n + d + k) s₁ (l ++ (bmapLogs sb i (off / BSIZE) s ++ [])) :=
    hLogged.mono (Nat.le_add_right ..) (by simp)
  rw [writeiLoopLogs, if_neg hLeft]
  dsimp only
  rw [Prog.onReturn_ok _ _ hRun]
  by_cases hAddr : addr = 0
  · rw [if_pos hAddr]
    exact ⟨s₁, hStop⟩
  rw [if_neg hAddr]
  cases copyin tot with
  | some j => exact ⟨s₁, hStop⟩
  | none =>
    obtain ⟨s', hAll⟩ := hRest (s₁.setBlock addr ((s₁.disk addr).splice (off % BSIZE)
      (srcBytes src tot (min left (BSIZE - off % BSIZE))))) _ hLogged
    exact ⟨s', by simpa using hAll⟩

/- From the start of a block, each round begins a block. -/
theorem writeiLoop_logs (hAligned : off % BSIZE = 0 ∨ left = 0) {r : Nat} (hr : left ≤ r * BSIZE)
    (hMax : off + left ≤ MAXFILE * BSIZE) (h : Logged i n s l) :
    ∃ s', Logged i (n + 2 * r) s' (l ++ writeiLoopLogs sb i src copyin fuel off tot left s) := by
  induction fuel generalizing off tot left s l n r with
  | zero => exact ⟨s, h.mono (Nat.le_add_right ..) (by simp [writeiLoopLogs])⟩
  | succ fuel ih =>
    by_cases hLeft : left = 0
    · exact ⟨s, h.mono (Nat.le_add_right ..) (by simp [writeiLoopLogs, hLeft])⟩
    obtain ⟨r, rfl⟩ : ∃ k, r = k + 1 := Nat.exists_eq_add_one_of_ne_zero (by rintro rfl; omega)
    have hBlock : off / BSIZE < MAXFILE := Nat.div_lt_of_lt_mul (by rw [Nat.mul_comm]; omega)
    rw [show n + 2 * (r + 1) = n + 2 + 2 * r by omega]
    refine writeiLoop_round sb h hBlock hLeft (.inl rfl) (fun s₁ l₁ h₁ => ih ?_ ?_ ?_ h₁)
    all_goals
      simp only [BSIZE] at *
      omega

/- The first round may begin inside a block that is mapped. -/
theorem writei_logs (hMapped : ∀ bn < MAXFILE, bn * BSIZE < (s.copy i).size.toNat → MappedAt i bn s)
    (hn : n ≤ MAXWRITE) (hOff : off ≤ (s.copy i).size.toNat) (hMax : off + n ≤ MAXFILE * BSIZE) :
    ∃ s', Logged i 8 s' (writeiLoopLogs sb i src copyin n off 0 n s) := by
  have hInit : Logged i 1 s [] := by
    refine ⟨∅, ?_, by simp⟩
    split
    · exact Nat.le_refl _
    · exact Nat.zero_le _
  have hThree : MAXWRITE = 3 * BSIZE := rfl
  by_cases hAligned : off % BSIZE = 0 ∨ n = 0
  · obtain ⟨s', h'⟩ := writeiLoop_logs sb hAligned (hThree ▸ hn) hMax hInit
    exact ⟨s', h'.mono (by decide) (List.Subset.refl _)⟩
  rw [not_or] at hAligned
  obtain ⟨fuel, rfl⟩ := Nat.exists_eq_add_one_of_ne_zero hAligned.2
  have hBlock : off / BSIZE < MAXFILE := Nat.div_lt_of_lt_mul (by rw [Nat.mul_comm]; omega)
  have hMap := hMapped (off / BSIZE) hBlock (by simp only [BSIZE] at *; omega)
  change ∃ s', Logged i (1 + 1 + 2 * 3) s' ([] ++ _)
  refine writeiLoop_round sb hInit hBlock hAligned.2 (.inr ⟨rfl, hMap⟩)
    (fun s₁ l₁ h₁ => writeiLoop_logs sb ?_ ?_ ?_ h₁)
  all_goals
    simp only [BSIZE] at *
    omega

end Count

/-
  One iteration of `filewrite` calls `log_write` on as many
  blocks as `begin_op` reserves, or fewer.
-/
theorem filewrite_chunk_fits
    (sb : Superblock)
    (i : Nat)
    (src : Nat → UInt8)
    (copyin : Nat → Option Nat)
    (off n : BitVec 32)
    (s : Fs)
    (hMapped : ∀ bn < MAXFILE, bn * BSIZE < (s.copy i).size.toNat →
        MappedAt i bn s)
    (hn : n.toNat ≤ MAXWRITE) :
    (writeiLogs sb i src copyin off n s).toFinset.card ≤
      MAXOPBLOCKS := by
  unfold writeiLogs
  split
  · simp
  rename_i hStart
  have hOff : off.toNat ≤ (s.copy i).size.toNat := by bv_omega
  have hSum : (off + n).toNat = off.toNat + n.toNat := by bv_omega
  rw [hSum]
  split
  · simp
  rename_i hMax
  obtain ⟨s', T, hCard, hMem⟩ := writei_logs sb hMapped hn hOff (Nat.le_of_not_lt hMax)
  have hSub : (writeiLoopLogs sb i src copyin n.toNat off.toNat 0 n.toNat s ++
      [sb.iblock i]).toFinset ⊆ T ∪ {(indOf i s').toNat, sb.iblock i} := by
    intro b hb
    simp only [mem_toFinset, mem_append, mem_singleton] at hb
    simp only [Finset.mem_union, Finset.mem_insert, Finset.mem_singleton]
    rcases hb with hb | hb
    · exact (hMem b hb).imp_right (fun hInd => .inl hInd.2)
    · exact .inr (.inr hb)
  have hUnion := Finset.card_union_le T {(indOf i s').toNat, sb.iblock i}
  have hTwo := Finset.card_le_two (a := (indOf i s').toNat) (b := sb.iblock i)
  have hLe := Finset.card_le_card hSub
  simp only [MAXOPBLOCKS]
  omega

/-
  A chunk that begins inside the only block of a file: the
  blocks after it are allocated.
-/
theorem unaligned_chunk_fits :
    (writeiLogs smallSb 2 (fun _ => 0) (fun _ => none) 100 3072
      ((booted smallSb).setCopy 2
        { (booted smallSb).copy 2 with
          size := 100
          addrs := fun j => if j = 0 then 50 else 0
        })).toFinset.card ≤ MAXOPBLOCKS := by
  refine filewrite_chunk_fits _ _ _ _ _ _ _
    (fun bn _ hSize => ?_) (by decide)
  have hZero : bn = 0 := by
    change bn * 1024 < 100 at hSize
    omega
  simp [hZero, MappedAt]

end Xv6
