import Xv6.User.Match

/-
  The loop of `grep.c` over its buffer of 1024 bytes.

  How much each `read` returns is given by an arbitrary
  function of the round. A line that does not fit in the
  buffer ends the loop, since `read` is then asked for nothing.

  Key definitions include:
    * `grepLines`, `grep`

  Key theorems include:
    * `grep_prints_matching_lines`
-/

open List

-------
-- The Program
-------

namespace Xv6

abbrev LF : UInt8 := 10

/- `sizeof(buf)`. -/
abbrev GREPBUF : Nat := 1024

/- The place of a byte in a string, if it is before the zero. -/
def strchr (c : UInt8) : List UInt8 → Option Nat
| [] => none
| x :: s => if x = 0 then none else if x = c then some 0 else (strchr c s).map (· + 1)

/- The string at the beginning of some bytes. -/
def cstring (bytes : List UInt8) : List UInt8 := bytes.takeWhile (· ≠ 0)

/-
  The inner loop from `p` on: what is written, the buffer with
  the newlines that were overwritten, and the last `p`. Each
  round moves `p` past a newline.
-/
def grepLines (pattern : List UInt8) :
    Nat → List UInt8 → Nat → List UInt8 × List UInt8 × Nat
| 0, buf, p => ([], buf, p)
| n + 1, buf, p =>
    match strchr LF (buf.drop p) with
    | none => ([], buf, p)
    | some k =>
        let q := p + k
        let buf := buf.set q 0
        if matchRe pattern (cstring (buf.drop p)) then
          let buf := buf.set q LF
          let (out, last) := grepLines pattern n buf (q + 1)
          ((buf.drop p).take (q + 1 - p) ++ out, last)
        else grepLines pattern n buf (q + 1)

/- `read` of at most `len` bytes, of which `want` are there, when `rest` are left. -/
def readSize (want len rest : Nat) : Nat := min (max 1 want) (min len rest)

/- The outer loop; each round reads at least one byte. -/
def grepLoop (pattern : List UInt8) (sizes : Nat → Nat) :
    Nat → List UInt8 → Nat → List UInt8 → List UInt8
| 0, _, _, _ => []
| i + 1, buf, m, text =>
    let n := readSize (sizes i) (GREPBUF - m - 1) text.length
    if n = 0 then []
    else
      let buf := (buf.take m ++ text.take n ++ buf.drop (m + n)).set (m + n) 0
      let (out, buf, p) := grepLines pattern GREPBUF buf 0
      let m := m + n - p
      -- `memmove(buf, p, m)`
      out ++ grepLoop pattern sizes i ((buf.drop p).take m ++ buf.drop m) m (text.drop n)

/- What `grep` writes. -/
def grep (pattern : List UInt8) (sizes : Nat → Nat) (text : List UInt8) : List UInt8 :=
  grepLoop pattern sizes (text.length + 1) (List.replicate GREPBUF 0) 0 text

-------
-- Lines
-------

/- Lines, each with its newline. -/
def unlines (lines : List (List UInt8)) : List UInt8 := lines.flatMap (· ++ [LF])

/- A string without a newline. -/
def Unbroken (l : List UInt8) : Prop := ∀ x ∈ l, x ≠ 0 ∧ x ≠ LF

variable {l tail rest junk buf pattern : List UInt8} {lines : List (List UInt8)}

theorem unlines_cons (l : List UInt8) (lines : List (List UInt8)) :
    unlines (l :: lines) = l ++ LF :: unlines lines := by
  simp [unlines]

theorem strchr_line (h : Unbroken l) : strchr LF (l ++ LF :: rest) = some l.length := by
  induction l with
  | nil => rfl
  | cons x l ih =>
    obtain ⟨hx, hNl⟩ := h x mem_cons_self
    rw [cons_append, strchr, if_neg hx, if_neg hNl,
      ih (fun y hy => h y (mem_cons_of_mem x hy))]
    rfl

theorem strchr_tail (h : Unbroken l) : strchr LF (l ++ 0 :: rest) = none := by
  induction l with
  | nil => rfl
  | cons x l ih =>
    obtain ⟨hx, hNl⟩ := h x mem_cons_self
    rw [cons_append, strchr, if_neg hx, if_neg hNl,
      ih (fun y hy => h y (mem_cons_of_mem x hy))]
    rfl

theorem cstring_line (h : Unbroken l) : cstring (l ++ 0 :: rest) = l := by
  unfold cstring
  rw [takeWhile_append_of_pos (fun x hx => by simpa using (h x hx).1)]
  simp

/- Every text so far is some lines and the beginning of one. -/
theorem unlines_split {data rest : List UInt8} (hLines : ∀ l ∈ lines, Unbroken l)
    (h : data ++ rest = unlines lines) :
    ∃ done todo tail, lines = done ++ todo ∧ data = unlines done ++ tail ∧ Unbroken tail ∧
      tail ++ rest = unlines todo := by
  induction lines generalizing data with
  | nil =>
    obtain ⟨rfl, rfl⟩ := append_eq_nil_iff.mp h
    exact ⟨[], [], [], rfl, rfl, fun _ hx => absurd hx not_mem_nil, rfl⟩
  | cons l lines ih =>
    -- the data may end in this line
    have hHere (hSub : ∀ x ∈ data, x ∈ l) : ∃ done todo tail, l :: lines = done ++ todo ∧
        data = unlines done ++ tail ∧ Unbroken tail ∧ tail ++ rest = unlines todo :=
      ⟨[], l :: lines, data, rfl, rfl, fun x hx => hLines l mem_cons_self x (hSub x hx), h⟩
    rw [unlines_cons] at h
    rcases append_eq_append_iff.mp h with ⟨a, rfl, -⟩ | ⟨c, rfl, hRest⟩
    · exact hHere (fun x hx => mem_append_left a hx)
    rcases cons_eq_append_iff.mp hRest with ⟨rfl, -⟩ | ⟨c, rfl, hMore⟩
    · exact hHere (fun x hx => by simpa using hx)
    obtain ⟨done, todo, tail, rfl, rfl, hTail, hTodo⟩ :=
      ih (fun l hl => hLines l (mem_cons_of_mem _ hl)) hMore.symm
    refine ⟨l :: done, todo, tail, rfl, ?_, hTail, hTodo⟩
    rw [unlines_cons, append_assoc, cons_append]

-------
-- Rounds
-------

/- What is printed of some lines. -/
def printed (pattern : List UInt8) (lines : List (List UInt8)) : List UInt8 :=
  unlines (lines.filter (matchRe pattern))

theorem printed_cons (pattern l : List UInt8) (lines : List (List UInt8)) :
    printed pattern (l :: lines) =
      (if matchRe pattern l then l ++ [LF] else []) ++ printed pattern lines := by
  unfold printed
  by_cases h : matchRe pattern l = true
  · rw [filter_cons_of_pos h, if_pos h, unlines_cons, append_assoc]
    rfl
  · rw [filter_cons_of_neg h, if_neg h, nil_append]

/- A byte of the buffer is set that is `l.length` after `p`. -/
theorem drop_set_line {p : Nat} {x : UInt8} (h : buf.drop p = l ++ x :: rest) (y : UInt8) :
    (buf.set (p + l.length) y).drop p = l ++ y :: rest := by
  rw [drop_set, h]
  simp

theorem drop_line {p : Nat} {x : UInt8} (h : buf.drop p = l ++ x :: rest) :
    buf.drop (p + l.length + 1) = rest := by
  rw [Nat.add_assoc, ← drop_drop, h]
  simp

/- The complete lines are printed, and the last one is left. -/
theorem grepLines_eq {done : List (List UInt8)} {n p : Nat} (hLines : ∀ l ∈ done, Unbroken l)
    (hTail : Unbroken tail) (hBuf : buf.drop p = unlines done ++ (tail ++ 0 :: junk))
    (hn : done.length < n) :
    ∃ buf', grepLines pattern n buf p = (printed pattern done, buf', p + (unlines done).length) ∧
      buf'.drop (p + (unlines done).length) = tail ++ 0 :: junk ∧ buf'.length = buf.length := by
  induction done generalizing n p buf with
  | nil =>
    cases n with
    | zero => exact absurd hn (Nat.not_lt_zero _)
    | succ n =>
      have hNone : strchr LF (buf.drop p) = none := hBuf ▸ strchr_tail hTail
      rw [grepLines, hNone]
      exact ⟨buf, rfl, hBuf, rfl⟩
  | cons l done ih =>
    cases n with
    | zero => exact absurd hn (Nat.not_lt_zero _)
    | succ n =>
      have hl := hLines l mem_cons_self
      have hDone : ∀ l ∈ done, Unbroken l := fun l' h => hLines l' (mem_cons_of_mem l h)
      have hLess : done.length < n := Nat.lt_of_succ_lt_succ hn
      rw [unlines_cons, append_assoc, cons_append] at hBuf
      have hFound : strchr LF (buf.drop p) = some l.length := hBuf ▸ strchr_line hl
      have hZero := drop_set_line hBuf 0
      have hLen : p + (unlines (l :: done)).length = p + l.length + 1 + (unlines done).length := by
        rw [unlines_cons, length_append, length_cons]
        omega
      rw [grepLines, hFound, printed_cons, hLen]
      dsimp only
      rw [hZero, cstring_line hl]
      by_cases hMatch : matchRe pattern l = true
      · have hBack := drop_set_line hZero LF
        obtain ⟨buf', hRun, hRest, hSame⟩ := ih hDone (drop_line hBack) hLess
        have hWrite : (l ++ LF :: (unlines done ++ (tail ++ 0 :: junk))).take
            (p + l.length + 1 - p) = l ++ [LF] := by
          rw [Nat.add_assoc, Nat.add_sub_cancel_left, take_length_add_append]
          rfl
        rw [if_pos hMatch, if_pos hMatch, hRun, hBack]
        rw [hWrite]
        exact ⟨buf', rfl, hRest, hSame.trans (by simp)⟩
      · obtain ⟨buf', hRun, hRest, hSame⟩ := ih hDone (drop_line hZero) hLess
        rw [if_neg hMatch, if_neg hMatch, hRun]
        exact ⟨buf', rfl, hRest, hSame.trans (length_set ..)⟩

theorem unlines_append (a b : List (List UInt8)) : unlines (a ++ b) = unlines a ++ unlines b :=
  flatMap_append

theorem printed_append (a b : List (List UInt8)) :
    printed pattern (a ++ b) = printed pattern a ++ printed pattern b := by
  unfold printed
  rw [filter_append, unlines_append]

theorem length_le_unlines (lines : List (List UInt8)) : lines.length ≤ (unlines lines).length := by
  induction lines with
  | nil => exact Nat.le_refl _
  | cons l lines ih =>
    rw [unlines_cons, length_append, length_cons, length_cons]
    omega

/- The beginning of a line is no longer than the line. -/
theorem Unbroken.length_le (h : Unbroken tail) (hText : tail ++ rest = unlines (l :: lines)) :
    tail.length ≤ l.length := by
  rw [unlines_cons] at hText
  rcases append_eq_append_iff.mp hText with ⟨a, rfl, -⟩ | ⟨c, rfl, hRest⟩
  · simp
  cases c with
  | nil => simp
  | cons x c =>
    obtain ⟨rfl, -⟩ := cons_eq_cons.mp hRest
    exact absurd rfl (h LF (by simp)).2

/- What was read comes after the line that was left. -/
theorem set_append_drop {data : List UInt8} (hData : data.length < buf.length) :
    ∃ junk, (data ++ buf.drop data.length).set data.length 0 = data ++ 0 :: junk := by
  rw [set_append_right _ _ (Nat.le_refl _), Nat.sub_self]
  cases hRest : buf.drop data.length with
  | nil => exact absurd (drop_eq_nil_iff.mp hRest) (by omega)
  | cons x junk => exact ⟨junk, rfl⟩

/- A line that fits in the buffer with its newline, beside the last zero. -/
def fitsBuf (l : List UInt8) : Bool := l.length + 1 < GREPBUF

theorem fitsBuf_of_mem
    (hl : l ∈ lines)
    (hLen : (unlines lines).length < GREPBUF) :
    fitsBuf l = true := by
  obtain ⟨a, b, rfl⟩ := append_of_mem hl
  rw [unlines_append, unlines_cons] at hLen
  simp only [length_append, length_cons] at hLen
  exact decide_eq_true (by omega)

/-
  With the beginning of a line at the front of the buffer, the
  rest of the text is printed line by line, up to the first
  line that does not fit: the buffer is full before its end,
  and `read` is asked for nothing.
-/
theorem grepLoop_eq
    {i m : Nat}
    {text : List UInt8}
    (sizes : Nat → Nat)
    (hLines : ∀ l ∈ lines, Unbroken l)
    (hSize : buf.length = GREPBUF)
    (hBuf : buf.take m = tail)
    (hm : tail.length = m)
    (hRoom : m < GREPBUF)
    (hTail : Unbroken tail)
    (hText : tail ++ text = unlines lines)
    (hi : text.length < i) :
    grepLoop pattern sizes i buf m text =
      printed pattern (lines.takeWhile fitsBuf) := by
  induction i generalizing buf m tail text lines with
  | zero => exact absurd hi (Nat.not_lt_zero _)
  | succ i ih =>
    unfold grepLoop
    generalize hn :
      readSize (sizes i) (GREPBUF - m - 1) text.length = n
    unfold readSize at hn
    by_cases hNone : n = 0
    · -- the text is at its end, or the buffer is full
      rw [if_pos hNone]
      cases lines with
      | nil => rfl
      | cons l ls =>
        have hLe := hTail.length_le hText
        have hLen := congrArg length hText
        rw [unlines_cons, length_append,
          length_append, length_cons] at hLen
        rw [takeWhile_cons_of_neg]
        · rfl
        · simp only [fitsBuf, decide_eq_true_eq]
          omega
    have hData : (tail ++ text.take n).length = m + n := by
      rw [length_append, length_take]
      omega
    obtain ⟨done, todo, tail', rfl, hDone, hTail', hTodo⟩ :=
      unlines_split hLines
        (show (tail ++ text.take n) ++ text.drop n =
            unlines lines by
          rw [append_assoc, take_append_drop, hText])
    have hRead : ∃ junk, ((buf.take m ++ text.take n ++
        buf.drop (m + n)).set (m + n) 0).drop 0 =
          unlines done ++ (tail' ++ 0 :: junk) := by
      simp only [hBuf,
        ← append_assoc (unlines done), ← hDone, ← hData]
      exact set_append_drop (by omega)
    obtain ⟨junk, hRead⟩ := hRead
    have hLen := congrArg length hDone
    have hCount := length_le_unlines done
    rw [hData, length_append] at hLen
    obtain ⟨buf', hRun, hRest, hSame⟩ := grepLines_eq
      (fun l hl => hLines l (mem_append_left todo hl))
      hTail' hRead (show done.length < GREPBUF by omega)
    have hFits : ∀ l ∈ done, fitsBuf l = true :=
      fun l hl => fitsBuf_of_mem hl (by omega)
    rw [if_neg hNone, takeWhile_append_of_pos hFits,
      printed_append]
    dsimp only
    rw [hRun]
    rw [hRest, Nat.zero_add,
      show m + n - (unlines done).length = tail'.length by
        omega,
      take_left]
    congr 1
    refine ih
      (fun l hl => hLines l (mem_append_right done hl))
      ?_ take_left rfl (by omega) hTail' hTodo ?_
    · rw [length_append, length_drop, hSame]
      simp
      omega
    · rw [length_drop]
      omega

-------
-- What Grep Prints
-------

/- The lines before the first that does not fit are printed. -/
theorem grep_eq
    (pattern : List UInt8)
    (sizes : Nat → Nat)
    (hLines : ∀ l ∈ lines, Unbroken l) :
    grep pattern sizes (unlines lines) =
      printed pattern (lines.takeWhile fitsBuf) :=
  grepLoop_eq sizes hLines (length_replicate ..) rfl rfl
    (by decide) (fun _ hx => absurd hx not_mem_nil) rfl
    (Nat.lt_succ_self _)

theorem printed_eq_nil :
    printed pattern lines = [] ↔
      ∀ l ∈ lines, matchRe pattern l = false := by
  simp [printed, unlines]

/-
  However the text is read, `grep` prints the lines that match
  and come before the first that does not fit in the buffer.
  These are all that match just if neither that line nor one
  after it does.
-/
theorem grep_prints_matching_lines
    (pattern : List UInt8)
    (lines : List (List UInt8))
    (sizes : Nat → Nat)
    (hLines : ∀ l ∈ lines, Unbroken l) :
    grep pattern sizes (unlines lines) =
        unlines ((lines.takeWhile fitsBuf).filter
          (matchRe pattern)) ∧
      (grep pattern sizes (unlines lines) =
          unlines (lines.filter (matchRe pattern)) ↔
        ∀ l ∈ lines.dropWhile fitsBuf,
          matchRe pattern l = false) := by
  have hAll : unlines (lines.filter (matchRe pattern)) =
      printed pattern (lines.takeWhile fitsBuf) ++
        printed pattern (lines.dropWhile fitsBuf) := by
    rw [← printed_append, takeWhile_append_dropWhile]
    rfl
  rw [grep_eq pattern sizes hLines, hAll,
    self_eq_append_right, printed_eq_nil]
  exact ⟨rfl, Iff.rfl⟩

/- The pattern `b` on two lines, read byte by byte. -/
theorem grep_prints_second_line :
    grep [98] (fun _ => 1) (unlines [[97], [98, 99]]) =
      [98, 99, LF] :=
  (grep_prints_matching_lines [98] [[97], [98, 99]]
    (fun _ => 1)
    (by unfold Unbroken; decide +kernel)).1.trans (by decide)

/- A line of 1023 bytes and a newline is lost, and so is the line after it. -/
theorem grep_loses_long_line :
    (∀ l ∈ [List.replicate 1023 97, [98]], Unbroken l) ∧
    grep [] (fun _ => 1023)
      (unlines [List.replicate 1023 97, [98]]) = [] ∧
    [98] ∈ [List.replicate 1023 97, [98]].filter
      (matchRe []) := by
  have hLines :
      ∀ l ∈ [replicate 1023 97, [98]], Unbroken l := by
    intro l hl x hx
    rcases mem_pair.mp hl with rfl | rfl
    · rw [eq_of_mem_replicate hx]
      decide
    · rw [mem_singleton.mp hx]
      decide
  refine ⟨hLines, ?_, mem_filter.mpr
    ⟨mem_cons_of_mem _ mem_cons_self, rfl⟩⟩
  rw [grep_eq [] _ hLines, takeWhile_cons_of_neg]
  · rfl
  · rw [fitsBuf, length_replicate]
    decide

end Xv6
