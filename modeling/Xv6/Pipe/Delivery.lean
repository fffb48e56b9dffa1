import Xv6.Pipe.Pipe
import Xv6.Vm.UserSpace

/-
  What `piperead` delivers to user memory.

  A reader holds the lock of the pipe from the first byte to
  the last, so that a read is one step. A byte is taken out of
  the pipe before it is copied to the user, and is lost when
  that fails.

  Key definitions include:
    * `piperead`
    * `pipeCalls`

  Key theorems include:
    * `piperead_eq`
    * `piperead_delivers`
    * `piperead_loses_byte`
-/

open RingBuffer Xv6.UserSpace

-------
-- Reading
-------

namespace Xv6

/- The loop that copies bytes, when `i` have been copied. -/
def pipereadLoop (addr : Nat) :
    Nat → Nat → Pipe → UserSpace → Nat × Pipe × UserSpace
| 0, i, pi, u => (i, pi, u)
| k + 1, i, pi, u =>
    if pi.Empty then (i, pi, u)
    else
      let ch := pi.ring.front PIPESIZE
      let pi := { pi with ring := pi.ring.pop }
      match u.copyout (add64 addr i) [ch] with
      | (true, u) => pipereadLoop addr k (i + 1) pi u
      | (false, u) => (i, pi, u)

/- There is no value when the reader has to sleep. -/
def piperead (killed : Bool) (addr : BitVec 64) (n : Int) (pi : Pipe)
    (u : UserSpace) : Option (Int × Pipe × UserSpace) :=
  if pi.Empty ∧ pi.writeopen = true then
    if killed then some (-1, pi, u) else none
  else
    let (i, pi, u) := pipereadLoop addr.toNat n.toNat 0 pi u
    some (i, pi, u)

/- The pipe, and all bytes written and delivered so far. -/
structure PipeLog where
  pipe : Pipe
  put : List UInt8
  got : List UInt8

inductive PipeCall where
  -- a byte that `pipewrite` puts in
  | write (x : UInt8)
  | read (killed : Bool) (addr : BitVec 64) (n : Int) (u : UserSpace)
  | close (writable : Bool)

/-
  The bytes delivered are those that the user finds, as many
  as the value says.
-/
def pipeCallStep (s : PipeLog) :
    PipeCall → Outcome Empty PipeLog
| .write x =>
    if s.pipe.Full then .disabled
    else
      .next
        { s with
          pipe :=
            { s.pipe with
              ring := s.pipe.ring.push PIPESIZE x }
          put := s.put ++ [x] }
| .read killed addr n u =>
    match piperead killed addr n s.pipe u with
    | none => .disabled
    | some (r, pi, u) =>
      .next
        { s with
          pipe := pi
          got := s.got ++ u.load addr.toNat r.toNat }
| .close writable =>
    if writable then
      .next
        { s with pipe := { s.pipe with writeopen := false } }
    else
      .next
        { s with pipe := { s.pipe with readopen := false } }

/- All runs after `pipealloc`. -/
def pipeCalls : System PipeLog PipeCall Empty where
  init := fun s => s.pipe.ring.nread = 0 ∧ s.pipe.ring.nwrite = 0 ∧ s.put = [] ∧ s.got = []
  step := pipeCallStep

-------
-- Working Destinations
-------

theorem PIPESIZE_dvd : PIPESIZE ∣ 2 ^ 32 := by decide

namespace Pipe

/- The pipe without its `k` oldest bytes. -/
def skip (pi : Pipe) (k : Nat) : Pipe :=
  { pi with ring := pi.ring.skip k }

/- The user can access every byte that will be delivered. -/
def Fits (pi : Pipe) (u : UserSpace) (addr : Nat) (n : Int) : Prop :=
  ∀ i < min n.toNat pi.ring.unread, u.ok (add64 addr i) = true

theorem unread_pos {pi : Pipe} (h : ¬ pi.Empty) : 0 < pi.ring.unread := by
  refine Nat.pos_of_ne_zero (fun hZero => h ?_)
  exact pi.ring.unread_eq_zero_iff.mp hZero

theorem skip_zero (pi : Pipe) : pi.skip 0 = pi := by
  unfold skip
  rw [RingBuffer.skip_zero]

end Pipe

variable {addr : BitVec 64} {u u' : UserSpace} {killed : Bool} {s : PipeLog} {n r : Int}

theorem pipereadLoop_eq {addr k i : Nat} {pi : Pipe} {u : UserSpace}
    (h : ∀ j < min k pi.ring.unread, u.ok (add64 addr (i + j)) = true) :
    pipereadLoop addr k i pi u = (i + min k pi.ring.unread, pi.skip (min k pi.ring.unread),
        u.store (add64 addr i) ((pi.ring.contents PIPESIZE).take k)) := by
  induction k generalizing i pi u with
  | zero =>
    rw [Nat.zero_min, Pipe.skip_zero]
    rfl
  | succ k ih =>
    rw [pipereadLoop]
    by_cases hEmpty : pi.Empty
    · have hZero := pi.ring.unread_eq_zero_iff.mpr hEmpty
      rw [if_pos hEmpty, hZero, Nat.min_zero, Pipe.skip_zero,
        contents_of_eq PIPESIZE hEmpty]
      rfl
    rw [if_neg hEmpty]
    have hSome := Pipe.unread_pos hEmpty
    have hPop := unread_pop hSome
    have hMin : min (k + 1) pi.ring.unread = min k pi.ring.pop.unread + 1 := by omega
    have hOk : u.ok (add64 addr i) = true := h 0 (by omega)
    dsimp only
    rw [UserSpace.copyout_one (UserSpace.add64_lt _ _) hOk]
    dsimp only
    rw [ih]
    · -- the first byte, and then the others
      rw [hMin, contents_pop PIPESIZE_dvd hSome,
        List.take_succ_cons, Pipe.skip, Pipe.skip,
        ← skip_pop, Nat.add_right_comm]
      refine congrArg _ (congrArg _ ?_)
      rw [UserSpace.store, UserSpace.store, UserSpace.store, UserSpace.add64_add64]
    · intro j hj
      rw [Nat.add_assoc, Nat.add_comm 1]
      exact h (j + 1) (by
        dsimp only at hj
        omega)

/- What `piperead` does when every byte can be delivered. -/
theorem piperead_eq {pi pi' : Pipe}
    (hFits : pi.Fits u addr.toNat n)
    (h : piperead killed addr n pi u = some (r, pi', u')) :
    (r = -1 ∧ pi' = pi ∧ u' = u) ∨ (r = min n.toNat pi.ring.unread ∧
        pi' = pi.skip (min n.toNat pi.ring.unread) ∧
        u' = u.store addr.toNat ((pi.ring.contents PIPESIZE).take n.toNat)) := by
  unfold piperead at h
  split at h
  · cases killed
    · cases h
    · cases h
      exact .inl ⟨rfl, rfl, rfl⟩
  rw [pipereadLoop_eq (by
    intro j hj
    rw [Nat.zero_add]
    exact hFits j hj)] at h
  rw [add64_zero addr.isLt, Nat.zero_add] at h
  cases h
  exact .inr ⟨rfl, rfl, rfl⟩

/- A byte that cannot be copied is taken out nevertheless. -/
theorem pipereadLoop_stuck
    {addr k i j : Nat}
    {pi : Pipe}
    {u : UserSpace}
    (hj : j < min k pi.ring.unread)
    (h : u.ok (add64 addr (i + j)) = false) :
    ∃ m < pi.ring.unread, ∃ u',
      pipereadLoop addr k i pi u =
        (i + m, pi.skip (m + 1), u') := by
  induction k generalizing i j pi u with
  | zero => omega
  | succ k ih =>
    have hSome : 0 < pi.ring.unread := by omega
    have hPop := unread_pop hSome
    have hEmpty : ¬ pi.Empty := by
      intro hEmpty
      rw [pi.ring.unread_eq_zero_iff.mpr hEmpty] at hSome
      omega
    rw [pipereadLoop, if_neg hEmpty]
    dsimp only
    by_cases hOk : u.ok (add64 addr i) = true
    · rw [copyout_one (add64_lt _ _) hOk]
      dsimp only
      obtain ⟨j, rfl⟩ : ∃ j', j = j' + 1 := by
        refine Nat.exists_eq_add_one_of_ne_zero ?_
        rintro rfl
        exact absurd (hOk.symm.trans h) (by decide)
      set pi' : Pipe := { pi with ring := pi.ring.pop }
      have hj' : j < min k pi'.ring.unread := by
        change j < min k pi.ring.pop.unread
        omega
      rw [Nat.add_comm j, ← Nat.add_assoc] at h
      rw [← ok_store] at h
      obtain ⟨m, hm, u', hLoop⟩ := ih hj' h
      refine ⟨m + 1, ?_, u', ?_⟩
      · change m < pi.ring.pop.unread at hm
        omega
      · rw [hLoop, Pipe.skip, Pipe.skip, skip_pop,
          Nat.add_assoc, Nat.add_comm 1]
    · rw [copyout_of_not_ok (add64_lt _ _) hOk]
      exact ⟨0, hSome, u, rfl⟩

/- The value then does not say how many bytes have left. -/
theorem piperead_loses
    {pi pi' : Pipe}
    {j k : Nat}
    (hj : j < min n.toNat pi.ring.unread)
    (hBad : u.ok (add64 addr.toNat j) = false)
    (h : piperead killed addr n pi u = some (r, pi', u'))
    (hk : k ≤ pi.ring.unread)
    (hRead : pi'.ring.nread =
      pi.ring.nread + BitVec.ofNat 32 k) :
    ¬ (r = k ∨ (r = -1 ∧ k = 0)) := by
  have hEmpty : ¬ (pi.Empty ∧ pi.writeopen = true) := by
    rintro ⟨hEmpty, _⟩
    rw [pi.ring.unread_eq_zero_iff.mpr hEmpty] at hj
    omega
  rw [← Nat.zero_add j] at hBad
  obtain ⟨m, hm, u₁, hLoop⟩ := pipereadLoop_stuck hj hBad
  rw [piperead, if_neg hEmpty, hLoop] at h
  cases h
  -- both numbers are below the size of the counter
  have hLt : pi.ring.unread < 2 ^ 32 :=
    (pi.ring.nwrite - pi.ring.nread).isLt
  have hSame : BitVec.ofNat 32 (m + 1) = BitVec.ofNat 32 k :=
    (BitVec.add_right_inj _).mp hRead
  have hNat := congrArg BitVec.toNat hSame
  rw [BitVec.toNat_ofNat, BitVec.toNat_ofNat,
    Nat.mod_eq_of_lt (Nat.lt_of_le_of_lt hk hLt)] at hNat
  omega

/- The read of a call can deliver all its bytes. -/
def PipeCall.Fitting (s : PipeLog) :
    PipeCall → Prop
| .read _ addr n u => s.pipe.Fits u addr.toNat n
| _ => True

/- What was written is what was delivered and what is left. -/
structure PipeLog.Kept (s : PipeLog) : Prop where
  put : s.put = s.got ++ s.pipe.ring.contents PIPESIZE
  room : s.pipe.ring.unread ≤ PIPESIZE

theorem PipeLog.Kept.write (h : s.Kept) (hFull : ¬ s.pipe.Full) (x : UInt8) :
    PipeLog.Kept
      { s with
        pipe :=
          { s.pipe with
            ring := s.pipe.ring.push PIPESIZE x }
        put := s.put ++ [x] } := by
  have hSize : PIPESIZE < 2 ^ 32 := by decide
  have hRoom : s.pipe.ring.unread < PIPESIZE := by
    refine Nat.lt_of_le_of_ne h.room (fun hEq => hFull ?_)
    exact (unread_eq_iff hSize _).mp hEq
  constructor
  · rw [contents_push PIPESIZE_dvd hSize hRoom, h.put, List.append_assoc]
  · rw [unread_push hSize hRoom]
    omega

/- The bytes of a read move from the pipe to the reader. -/
theorem PipeLog.Kept.read (h : s.Kept)
    {pi : Pipe} (hFits : s.pipe.Fits u addr.toNat n)
    (hRead : piperead killed addr n s.pipe u = some (r, pi, u')) :
    PipeLog.Kept
      { s with
        pipe := pi
        got := s.got ++ u'.load addr.toNat r.toNat } := by
  rcases piperead_eq hFits hRead with
    ⟨rfl, rfl, rfl⟩ | ⟨rfl, rfl, rfl⟩
  · constructor
    · rw [h.put]
      exact (List.append_nil _).symm ▸ rfl
    · exact h.room
  have hLength : ((s.pipe.ring.contents PIPESIZE).take n.toNat).length =
        min n.toNat s.pipe.ring.unread := by
    rw [List.length_take, length_contents]
  have hLoad := load_store u addr.isLt (l :=
    (s.pipe.ring.contents PIPESIZE).take n.toNat) (by
      have := h.room
      simp only [PIPESIZE] at *
      omega)
  have hSkip := contents_skip (r := s.pipe.ring)
    PIPESIZE_dvd (Nat.min_le_right n.toNat _)
  have hTake : (s.pipe.ring.contents PIPESIZE).take n.toNat = (s.pipe.ring.contents PIPESIZE).take
          (min n.toNat s.pipe.ring.unread) := by
    rw [← length_contents PIPESIZE, ← List.take_take, List.take_length]
  constructor
  · dsimp only [Pipe.skip]
    rw [Int.toNat_natCast, ← hLength, hLoad, hLength, hSkip,
      hTake, List.append_assoc, List.take_append_drop]
    exact h.put
  · dsimp only [Pipe.skip]
    rw [← length_contents PIPESIZE, hSkip, List.length_drop, length_contents]
    have := h.room
    omega

theorem pipeCallStep_kept {s s' : PipeLog} {a : PipeCall} (h : s.Kept) (hFits : a.Fitting s)
    (hStep : pipeCallStep s a = .next s') : s'.Kept := by
  cases a with
  | write x =>
    rw [pipeCallStep] at hStep
    by_cases hFull : s.pipe.Full
    · rw [if_pos hFull] at hStep
      cases hStep
    · rw [if_neg hFull] at hStep
      cases hStep
      exact h.write hFull x
  | read killed addr n u =>
    rw [pipeCallStep] at hStep
    cases hRead : piperead killed addr n s.pipe u with
    | none =>
      rw [hRead] at hStep
      cases hStep
    | some x =>
      rw [hRead] at hStep
      cases hStep
      exact h.read hFits hRead
  | close writable =>
    cases writable <;>
      (cases hStep; exact ⟨h.put, h.room⟩)

theorem pipeCalls_kept (h : pipeCalls.Reach (fun s a => PipeCall.Fitting s a) s) :
    s.Kept := by
  refine h.invariant ?_ ?_
  · rintro s ⟨hRead, hWrite, hPut, hGot⟩
    have hSame : s.pipe.ring.nread = s.pipe.ring.nwrite := by rw [hRead, hWrite]
    constructor
    · rw [hPut, hGot, contents_of_eq _ hSame]
      rfl
    · rw [s.pipe.ring.unread_eq_zero_iff.mpr hSame]
      omega
  · intro s a s' hKept hFits hStep
    exact pipeCallStep_kept hKept hFits hStep

/-
  A read takes exactly the bytes out of a pipe that it stores
  in user memory and reports, if and only if the user can
  access them. So readers get a prefix of what was written.
-/
theorem piperead_delivers
    (killed : Bool)
    (addr : BitVec 64)
    (n : Int)
    (pi : Pipe)
    (u : UserSpace) :
    (∀ r pi' u',
      piperead killed addr n pi u = some (r, pi', u') →
      ((∃ k ≤ pi.ring.unread,
        pi'.ring.nread = pi.ring.nread + BitVec.ofNat 32 k ∧
        u' = u.store addr.toNat
          ((pi.ring.contents PIPESIZE).take k) ∧
        (r = k ∨ (r = -1 ∧ k = 0))) ↔
        pi.Fits u addr.toNat n)) ∧
    ∀ s, pipeCalls.Reach (fun s a => PipeCall.Fitting s a) s →
      s.got <+: s.put := by
  constructor
  · intro r pi' u' h
    constructor
    · rintro ⟨k, hk, hRead, _, hValue⟩
      by_contra hNot
      simp only [Pipe.Fits, not_forall,
        Bool.not_eq_true] at hNot
      obtain ⟨j, hj, hBad⟩ := hNot
      exact piperead_loses hj hBad h hk hRead hValue
    · intro hFits
      rcases piperead_eq hFits h with
        ⟨rfl, rfl, rfl⟩ | ⟨rfl, rfl, rfl⟩
      · refine ⟨0, Nat.zero_le _, ?_, rfl, .inr ⟨rfl, rfl⟩⟩
        simp
      · refine ⟨min n.toNat pi.ring.unread,
          Nat.min_le_right _ _, rfl, ?_, .inl rfl⟩
        rw [← length_contents PIPESIZE,
          ← List.take_take, List.take_length]
  · intro s hRun
    rw [(pipeCalls_kept hRun).put]
    exact List.prefix_append _ _

-------
-- A Lost Byte
-------

/- A pipe after `pipealloc`. -/
def freshPipe : PipeLog where
  pipe :=
    { ring := { data := fun _ => 0, nread := 0, nwrite := 0 }
      readopen := true
      writeopen := true }
  put := []
  got := []

/- The same pipe when two bytes were written. -/
def twoBytes : PipeLog where
  pipe :=
    { freshPipe.pipe with
      ring := (freshPipe.pipe.ring.push PIPESIZE 97).push PIPESIZE 98 }
  put := [97, 98]
  got := []

theorem reach_twoBytes {Allowed : PipeLog → PipeCall → Prop} (h : ∀ s x, Allowed s (.write x)) :
    pipeCalls.Reach Allowed twoBytes := by
  have hInit : pipeCalls.Reach Allowed freshPipe := .init ⟨rfl, rfl, rfl, rfl⟩
  have hOne := System.Reach.step (a := PipeCall.write 97) hInit (h _ _) rfl
  exact System.Reach.step hOne (h _ _) rfl

/- One of two bytes is read. -/
theorem piperead_delivers_byte :
    (∃ k ≤ twoBytes.pipe.ring.unread, (twoBytes.pipe.skip 1).ring.nread =
        twoBytes.pipe.ring.nread + BitVec.ofNat 32 k ∧
      (wholeSpace true).store 4096 [97] = (wholeSpace true).store 4096
          ((twoBytes.pipe.ring.contents PIPESIZE).take k) ∧
      ((1 : Int) = k ∨ ((1 : Int) = -1 ∧ k = 0))) ∧
    ∃ s, pipeCalls.Reach (fun s a => PipeCall.Fitting s a) s ∧
      s.put = [97, 98] ∧ s.got = [97] ∧ s.got <+: s.put := by
  have hTwo : pipeCalls.Reach (fun s a => PipeCall.Fitting s a) twoBytes :=
    reach_twoBytes (fun _ _ => trivial)
  have hRead := System.Reach.step (a := PipeCall.read false 4096 1 (wholeSpace true)) hTwo
    (fun _ _ => rfl) rfl
  have hRun : piperead false 4096 1 twoBytes.pipe (wholeSpace true) = some (1, twoBytes.pipe.skip 1,
          (wholeSpace true).store 4096 [97]) :=
    rfl
  obtain ⟨hDelivers, hRuns⟩ := piperead_delivers false 4096 1
    twoBytes.pipe (wholeSpace true)
  exact ⟨(hDelivers _ _ _ hRun).mpr (fun _ _ => rfl),
    _, hRead, rfl, rfl, hRuns _ hRead⟩

/-
  A byte that cannot be stored is taken out of the pipe, and
  the next read begins after it.
-/
theorem piperead_loses_byte :
    piperead false 4096 1 twoBytes.pipe (wholeSpace false) =
      some (0, twoBytes.pipe.skip 1, wholeSpace false) ∧
    ∃ s, pipeCalls.Reach System.Anything s ∧ s.put = [97, 98] ∧ s.got = [98] := by
  have hTwo : pipeCalls.Reach System.Anything twoBytes := reach_twoBytes (fun _ _ => trivial)
  have hLost := System.Reach.step (a := PipeCall.read false 4096 1 (wholeSpace false)) hTwo
    trivial rfl
  have hRead := System.Reach.step (a := PipeCall.read false 4096 1 (wholeSpace true)) hLost
    trivial rfl
  exact ⟨rfl, _, hRead, rfl, rfl⟩

end Xv6
