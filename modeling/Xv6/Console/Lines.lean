import Xv6.Console.Console

/-
  The line discipline of the console.

  What was typed is split into the bytes that readers have
  taken, the committed bytes that wait for a reader, and a
  tail that can still be edited. `consoleintr` and the readers
  keep the last two in a ring of 128 bytes.

  Key definitions include:
    * `Line`
    * `Line.input`
    * `Console.Holds`

  Key theorems include:
    * `Console.Holds.intr`
    * `Console.Holds.reads`
    * `console_line_discipline`
-/

open Function List RingBuffer

-------
-- Edited Lines
-------

namespace Xv6

/- The bytes of the edited input. -/
structure Line where
  taken : List UInt8
  queue : List UInt8
  tail : List UInt8

namespace Line

def empty : Line := ⟨[], [], []⟩

/- A byte is added to the tail, or ends it. -/
def append (l : Line) (c : UInt8) : Line :=
  if c = NL ∨ c = ctrl 'D' ∨ l.queue.length + l.tail.length + 1 = INPUT_BUF_SIZE then
    { l with queue := l.queue ++ (l.tail ++ [c]), tail := [] }
  else { l with tail := l.tail ++ [c] }

/- Only the tail is edited. -/
def input (l : Line) (c : UInt8) : Line :=
  if c = ctrl 'P' then l
  else if c = ctrl 'U' then { l with tail := [] }
  else if c = ctrl 'H' ∨ c = DEL then
    { l with tail := l.tail.dropLast }
  else if c ≠ 0 ∧ l.queue.length + l.tail.length < INPUT_BUF_SIZE then
    l.append (if c = CR then NL else c)
  else l

/- What is committed stays. -/
theorem input_queue (l : Line) (c : UInt8) :
    (l.input c).taken = l.taken ∧ l.queue <+: (l.input c).queue := by
  unfold input append
  split_ifs <;>
    first
    | exact ⟨rfl, prefix_append _ _⟩
    | exact ⟨rfl, prefix_rfl⟩

/- A reader takes a byte. -/
def take (l : Line) : Line :=
  match l.queue with
  | [] => l
  | x :: q => { l with taken := l.taken ++ [x], queue := q }

def next (l : Line) : LineEvent → Line
| .input c => l.input c
| .take => l.take

/- The line after everything that happened. -/
def after (hist : List LineEvent) : Line := hist.foldl next empty

theorem after_append (hist hist' : List LineEvent) :
    after (hist ++ hist') = hist'.foldl next (after hist) :=
  foldl_append

/- Several bytes are taken. -/
theorem foldl_take (l : Line) (d q : List UInt8) (h : l.queue = d ++ q) :
    (List.replicate d.length LineEvent.take).foldl next l =
      { l with taken := l.taken ++ d, queue := q } := by
  induction d generalizing l with
  | nil =>
    rw [nil_append] at h
    rw [append_nil, ← h]
    rfl
  | cons x d ih =>
    have hTake : l.take =
        { l with
          taken := l.taken ++ [x], queue := d ++ q } := by
      unfold take
      rw [h]
      rfl
    rw [length_cons, replicate_succ, foldl_cons, next, hTake, ih _ rfl]
    rw [append_assoc, singleton_append]

end Line

end Xv6

-------
-- The Ring
-------

namespace Xv6.Console

/- The bytes between `r` and `e`. -/
def ring (cons : Console) : RingBuffer UInt8 32 where
  data := cons.buf
  nread := cons.r
  nwrite := cons.e

def bytes (cons : Console) : List UInt8 := cons.ring.contents INPUT_BUF_SIZE

/- The bytes between `r` and `w`. -/
def committed (cons : Console) : List UInt8 := cons.bytes.take (cons.w - cons.r).toNat

/- The console keeps these bytes, and the tail is one line. -/
structure Holds (cons : Console) (queue tail : List UInt8) : Prop where
  bytes : cons.bytes = queue ++ tail
  write : (cons.w - cons.r).toNat = queue.length
  room : queue.length + tail.length ≤ INPUT_BUF_SIZE
  line : NL ∉ tail

variable {cons : Console} {queue tail : List UInt8}

theorem size_dvd : INPUT_BUF_SIZE ∣ 2 ^ 32 := by decide

theorem size_lt : INPUT_BUF_SIZE < 2 ^ 32 := by decide

section

variable (h : cons.Holds queue tail)
include h

theorem Holds.unread : cons.ring.unread = queue.length + tail.length := by
  rw [← length_contents INPUT_BUF_SIZE, ← length_append, ← h.bytes]
  rfl

theorem Holds.edit : (cons.e - cons.r).toNat = queue.length + tail.length :=
  h.unread

theorem Holds.committed_eq : cons.committed = queue := by
  unfold committed
  rw [h.bytes, h.write, take_left]

/- There is a tail exactly when `e` is not at `w`. -/
theorem Holds.tail_eq_nil : cons.e = cons.w ↔ tail = [] := by
  have hEdit := h.edit
  have hQueue := h.write
  constructor
  · intro hSame
    rw [hSame] at hEdit
    exact length_eq_zero_iff.mp (by omega)
  · intro hNil
    rw [hNil, ← hQueue] at hEdit
    have hSame := BitVec.eq_of_toNat_eq hEdit
    exact (BitVec.sub_left_inj _).mp hSame

theorem Holds.queue_eq_nil : cons.r = cons.w ↔ queue = [] := by
  have hZero := unread_eq_zero_iff (⟨cons.buf, cons.r, cons.w⟩ : RingBuffer UInt8 32)
  rw [← length_eq_zero_iff, ← h.write]
  exact hZero.symm

/- The distance from `w` to `e`. -/
theorem Holds.tail_length : (cons.e - cons.w).toNat = tail.length := by
  have hEdit := h.edit
  have hWrite := h.write
  have hLe : cons.w - cons.r ≤ cons.e - cons.r := by
    rw [BitVec.le_def]
    omega
  have hSub := BitVec.toNat_sub_of_le hLe
  have hSame : cons.e - cons.r - (cons.w - cons.r) = cons.e - cons.w := by grind
  rw [hSame] at hSub
  omega

end

/- The last byte of the tail is erased. -/
theorem Holds.erase {x : UInt8} (h : cons.Holds queue (tail ++ [x])) :
    cons.e ≠ cons.w ∧
    cons.buf ((cons.e - 1).toNat % INPUT_BUF_SIZE) = x ∧
    { cons with e := cons.e - 1 }.Holds queue tail := by
  have hUnread := h.unread
  have hRoom := h.room
  rw [length_append, length_singleton] at hUnread hRoom
  have hSome : 0 < cons.ring.unread := by omega
  have hLast := contents_retract size_dvd hSome
  have hBytes := h.bytes
  unfold Console.bytes at hBytes
  rw [hLast, ← append_assoc] at hBytes
  have hParts := append_inj' hBytes rfl
  refine ⟨?_, singleton_inj.mp hParts.2, ?_⟩
  · intro hSame
    have hNil := h.tail_eq_nil.mp hSame
    simp at hNil
  · refine ⟨hParts.1, h.write, by omega, ?_⟩
    intro hMem
    exact h.line (mem_append_left _ hMem)

/- The loop erases the whole tail. -/
theorem Holds.killLine (h : cons.Holds queue tail) :
    (Xv6.killLine tail.length cons).Holds queue [] ∧
    (Xv6.killLine tail.length cons).r = cons.r := by
  induction tail using reverseRecOn generalizing cons with
  | nil => exact ⟨h, rfl⟩
  | append_singleton t x ih =>
    rcases h.erase with ⟨hNe, hLast, hErased⟩
    have hPlain : x ≠ NL := by
      rintro rfl
      exact h.line (by simp)
    rw [length_append, length_singleton, Xv6.killLine, hLast, if_pos ⟨hNe, hPlain⟩]
    exact ih hErased

/- A byte is stored behind the tail. -/
theorem Holds.append {l : Line} (h : cons.Holds l.queue l.tail)
    (hRoom : l.queue.length + l.tail.length < INPUT_BUF_SIZE) (c : UInt8) :
    (storeByte c cons).Holds (l.append c).queue (l.append c).tail ∧
    (storeByte c cons).r = cons.r := by
  have hFree : cons.ring.unread < INPUT_BUF_SIZE := by
    rw [h.unread]
    exact hRoom
  have hBytes := contents_push size_dvd size_lt hFree c
  have hUnread := unread_push size_lt hFree c
  have hAll : cons.ring.contents INPUT_BUF_SIZE = l.queue ++ l.tail := h.bytes
  rw [h.unread] at hUnread
  rw [hAll] at hBytes
  have hEdit : (cons.e + 1 - cons.r).toNat = l.queue.length + l.tail.length + 1 := hUnread
  unfold storeByte Line.append
  dsimp only
  rw [hEdit]
  by_cases hEnd : c = NL ∨ c = ctrl 'D' ∨ l.queue.length + l.tail.length + 1 = INPUT_BUF_SIZE
  · rw [if_pos hEnd, if_pos hEnd]
    refine ⟨⟨?_, ?_, ?_, not_mem_nil⟩, rfl⟩
    · rw [append_nil, ← append_assoc]
      exact hBytes
    · rw [hEdit, length_append, length_append, length_singleton, Nat.add_assoc]
    · simp only [length_append, length_singleton, length_nil]
      omega
  · rw [if_neg hEnd, if_neg hEnd]
    refine ⟨⟨?_, h.write, ?_, ?_⟩, rfl⟩
    · rw [← append_assoc]
      exact hBytes
    · simp only [length_append, length_singleton]
      omega
    · intro hMem
      rcases mem_append.mp hMem with hOld | hNew
      · exact h.line hOld
      · exact hEnd (.inl (mem_singleton.mp hNew).symm)

/- `consoleintr` edits the line. -/
theorem Holds.intr {l : Line} (h : cons.Holds l.queue l.tail) (c : UInt8) :
    (consoleintr c cons).Holds (l.input c).queue (l.input c).tail ∧
    (consoleintr c cons).r = cons.r := by
  unfold consoleintr Line.input
  by_cases hP : c = ctrl 'P'
  · rw [if_pos hP, if_pos hP]
    exact ⟨h, rfl⟩
  rw [if_neg hP, if_neg hP]
  by_cases hU : c = ctrl 'U'
  · rw [if_pos hU, if_pos hU, h.tail_length]
    exact h.killLine
  rw [if_neg hU, if_neg hU]
  by_cases hH : c = ctrl 'H' ∨ c = DEL
  · rw [if_pos hH, if_pos hH]
    rcases eq_nil_or_concat l.tail with hNil | ⟨t, x, hx⟩
    · rw [if_neg (not_not.mpr (h.tail_eq_nil.mpr hNil)), hNil]
      rw [hNil] at h
      exact ⟨h, rfl⟩
    rw [concat_eq_append] at hx
    rw [hx] at h ⊢
    rcases h.erase with ⟨hNe, -, hErased⟩
    rw [if_pos hNe, dropLast_concat]
    exact ⟨hErased, rfl⟩
  rw [if_neg hH, if_neg hH, h.edit]
  by_cases hRoom : c ≠ 0 ∧ l.queue.length + l.tail.length < INPUT_BUF_SIZE
  · rw [if_pos hRoom, if_pos hRoom]
    exact h.append hRoom.2 _
  · rw [if_neg hRoom, if_neg hRoom]
    exact ⟨h, rfl⟩

/- The oldest byte is taken. -/
theorem Holds.pop {x : UInt8} (h : cons.Holds (x :: queue) tail) :
    cons.buf (cons.r.toNat % INPUT_BUF_SIZE) = x ∧
    { cons with r := cons.r + 1 }.Holds queue tail := by
  have hUnread := h.unread
  have hRoom := h.room
  rw [List.length_cons] at hUnread hRoom
  have hSome : 0 < cons.ring.unread := by omega
  have hFirst := RingBuffer.contents_pop size_dvd hSome
  have hBytes := h.bytes
  unfold Console.bytes at hBytes
  rw [hFirst] at hBytes
  have hParts := List.cons.inj hBytes
  have hWrite := RingBuffer.unread_pop (r := (⟨cons.buf, cons.r, cons.w⟩ : RingBuffer UInt8 32)) (by
      have := h.write
      rw [List.length_cons] at this
      unfold RingBuffer.unread
      dsimp only
      omega)
  refine ⟨hParts.1, hParts.2, ?_, by omega, h.line⟩
  have hLength := h.write
  unfold RingBuffer.unread RingBuffer.pop at hWrite
  rw [List.length_cons] at hLength
  dsimp only at hWrite ⊢
  omega

/- How far `r` has moved. -/
theorem Holds.distance {cons' : Console} {d q : List UInt8} (h : cons.Holds (d ++ q) tail)
    (h' : cons'.Holds q tail) (hSame : cons'.w = cons.w) : (cons'.r - cons.r).toNat = d.length := by
  have hOld := h.write
  have hNew := h'.write
  rw [length_append] at hOld
  rw [hSame] at hNew
  have hLe : cons.w - cons'.r ≤ cons.w - cons.r := by
    rw [BitVec.le_def]
    omega
  have hSub := BitVec.toNat_sub_of_le hLe
  have hSwap : cons.w - cons.r - (cons.w - cons'.r) = cons'.r - cons.r := by grind
  rw [hSwap] at hSub
  omega

end Xv6.Console

-------
-- Readers
-------

namespace Xv6

/- The destination of a reader can be written. -/
def Reader.Works (rd : Reader) (u : UserSpace) : Prop :=
  ∀ i < rd.n.toInt.toNat, u.ok (add64 rd.dst.toNat i) = true

/- The bytes `d` are delivered, and no end of file. -/
structure Delivers (rd : Reader) (cons : Console) (u : UserSpace) (o : ReadOut)
    (d : List UInt8) : Prop where
  memory : o.u = u.store rd.dst.toNat d
  n : o.rd.n = rd.n - BitVec.ofNat 32 d.length
  target : o.rd.target = rd.target
  le : d.length ≤ rd.n.toInt.toNat
  plain : ctrl 'D' ∉ d
  write : o.cons.w = cons.w

/-
  How a reader stops. It leaves bytes behind only when it is
  done, and takes an end of file only when it has delivered
  nothing.
-/
inductive ReadStops (rd : Reader) (queue tail : List UInt8) (o : ReadOut) : List UInt8 → Prop where
  | plain {d q : List UInt8} (hQueue : queue = d ++ q)
      (hCons : o.cons.Holds q tail)
      (hDone : q ≠ [] → o.stop = .done) : ReadStops rd queue tail o d
  | eof {q : List UInt8} (hFirst : ¬ rd.n < rd.target)
      (hQueue : queue = ctrl 'D' :: q)
      (hCons : o.cons.Holds q tail) (hDone : o.stop = .done)
      (hSame : o.rd = rd) :
      ReadStops rd queue tail o []

namespace Reader

variable {rd : Reader} {u : UserSpace}

/- The count of a reader that goes on. -/
theorem toInt_sub_one {n : BitVec 32} (h : 0 < n.toInt) :
    (n - 1).toInt = n.toInt - 1 ∧ (n - 1).toNat + 1 = n.toNat := by
  have hSub : (n - 1).toNat + 1 = n.toNat := by
    have hPos : 0 < n.toNat := by
      rw [BitVec.toInt_eq_toNat_cond] at h
      split at h <;> omega
    have hLe : 1 ≤ n := by
      exact hPos
    have hOne := BitVec.toNat_sub_of_le hLe
    have : (1 : BitVec 32).toNat = 1 := rfl
    omega
  refine ⟨?_, hSub⟩
  rw [BitVec.toInt_eq_toNat_cond] at h ⊢
  rw [BitVec.toInt_eq_toNat_cond]
  split at h <;> split <;> omega

/- The reader after a byte. -/
def next (rd : Reader) : Reader :=
  { rd with dst := rd.dst + 1, n := rd.n - 1 }

theorem toNat_next_dst (rd : Reader) : rd.next.dst.toNat = add64 rd.dst.toNat 1 :=
  BitVec.toNat_add ..

theorem Works.next (h : rd.Works u) (hPos : 0 < rd.n.toInt) (l : List UInt8) :
    rd.next.Works (u.store rd.dst.toNat l) := by
  intro i hi
  have hOne := (toInt_sub_one hPos).1
  rw [UserSpace.ok_store, toNat_next_dst, UserSpace.add64_add64]
  refine h (1 + i) ?_
  unfold Reader.next at hi
  dsimp only at hi
  omega

end Reader

variable {cons : Console} {queue tail : List UInt8} {u : UserSpace} {killed : Bool}

/- Nothing is delivered. -/
theorem Delivers.nothing (rd : Reader) (u : UserSpace) (stop : ReadStop) {cons cons' : Console}
    (hWrite : cons'.w = cons.w) :
    Delivers rd cons u ⟨stop, rd, cons', u⟩ [] where
  memory := rfl
  n := (BitVec.sub_zero _).symm
  target := rfl
  le := Nat.zero_le _
  plain := not_mem_nil
  write := hWrite

/- One more byte is delivered. -/
theorem Delivers.byte {rd : Reader} {cons' : Console} {o : ReadOut} {x : UInt8} {d : List UInt8}
    (h : Delivers rd.next cons' (u.store rd.dst.toNat [x]) o d)
    (hPos : 0 < rd.n.toInt) (hx : x ≠ ctrl 'D') (hWrite : cons'.w = cons.w) :
    Delivers rd cons u o (x :: d) := by
  have hOne := (Reader.toInt_sub_one hPos).1
  have hLe := h.le
  constructor
  · rw [h.memory]
    rfl
  · rw [h.n, length_cons, Nat.add_comm, BitVec.ofNat_add]
    unfold Reader.next
    rw [BitVec.sub_sub]
    rfl
  · rw [h.target]
    rfl
  · rw [length_cons]
    unfold Reader.next at hLe
    dsimp only at hLe
    omega
  · simp only [mem_cons, not_or]
    exact ⟨hx.symm, h.plain⟩
  · rw [h.write, hWrite]

/- What a reader does until it stops. -/
theorem Console.Holds.reads
    {k : Nat} {rd : Reader} (h : cons.Holds queue tail) (hWorks : rd.Works u)
    (hLe : rd.n ≤ rd.target) :
    ∃ d, Delivers rd cons u (consolereadLoop killed k rd cons u) d ∧
      ReadStops rd queue tail (consolereadLoop killed k rd cons u) d := by
  -- by induction on the turns of the loop
  induction k generalizing cons queue rd u with
  | zero => exact ⟨[], .nothing rd u .done rfl, .plain rfl h (fun _ => rfl)⟩
  | succ k ih =>
    rw [consolereadLoop]
    by_cases hPos : 0 < rd.n.toInt
    case neg =>
      rw [if_neg hPos]
      exact ⟨[], .nothing rd u .done rfl, .plain rfl h (fun _ => rfl)⟩
    rw [if_pos hPos]
    cases queue with
    | nil =>
      rw [if_pos (h.queue_eq_nil.mpr rfl)]
      cases killed with
      | false => exact ⟨[], .nothing rd u .sleeps rfl, .plain rfl h (fun hNe => (hNe rfl).elim)⟩
      | true => exact ⟨[], .nothing rd u .killed rfl, .plain rfl h (fun hNe => (hNe rfl).elim)⟩
    | cons x q =>
      have hNe : cons.r ≠ cons.w := by
        intro hSame
        cases h.queue_eq_nil.mp hSame
      rcases h.pop with ⟨hx, hPop⟩
      rw [if_neg hNe, hx]
      by_cases hEof : x = ctrl 'D'
      · rw [if_pos hEof]
        by_cases hLess : rd.n < rd.target
        · -- the end of file is put back
          rw [if_pos hLess, BitVec.add_sub_cancel]
          exact ⟨[], .nothing rd u .done rfl, .plain rfl h (fun _ => rfl)⟩
        · rw [if_neg hLess]
          exact ⟨[], .nothing rd u .done rfl, .eof hLess (by rw [hEof]) hPop rfl rfl⟩
      have hOk : u.ok rd.dst.toNat = true := by
        have hZero := hWorks 0 (by omega)
        rwa [UserSpace.add64_zero rd.dst.isLt] at hZero
      rw [if_neg hEof, UserSpace.copyout_one rd.dst.isLt hOk]
      dsimp only
      by_cases hNl : x = NL
      · rw [if_pos hNl]
        exact ⟨[x], .byte (.nothing rd.next _ .done rfl) hPos hEof rfl,
          .plain rfl hPop (fun _ => rfl)⟩
      rw [if_neg hNl]
      have hLess : rd.next.n < rd.target := by
        have hOne := (Reader.toInt_sub_one hPos).2
        rw [BitVec.le_def] at hLe
        rw [BitVec.lt_def]
        unfold Reader.next
        dsimp only
        omega
      rcases ih hPop (hWorks.next hPos [x]) (BitVec.le_of_lt hLess) with ⟨d, hD, hS⟩
      refine ⟨x :: d, .byte hD hPos hEof rfl, ?_⟩
      cases hS with
      | plain hQueue hCons hDone => exact .plain (by rw [hQueue]; rfl) hCons hDone
      | eof hFirst _ _ _ _ => exact (hFirst hLess).elim

-------
-- The Discipline
-------

variable {P : Type} [DecidableEq P]

/- A reader that runs can write to its destination. -/
def WorkingReads (s : ConsoleState P) (a : ConsoleAct P) : Prop :=
  match a with
  | .run p _ u => ∀ rd, s.reader p = some rd → rd.Works u
  | _ => True

namespace ConsoleState

def line (s : ConsoleState P) : Line := Line.after s.hist

structure Good (s : ConsoleState P) : Prop where
  holds : s.cons.Holds s.line.queue s.line.tail
  got : s.got = s.line.taken.filter (fun x => x ≠ ctrl 'D')
  readers : ∀ p rd, s.reader p = some rd → rd.n ≤ rd.target

variable {s s' : ConsoleState P}

omit [DecidableEq P] in
theorem Good.intr (h : s.Good) (c : UInt8) :
    Good
      { s with
        cons := consoleintr c s.cons
        hist := s.hist ++ [.input c] } := by
  have hLine : Line.after (s.hist ++ [.input c]) = s.line.input c := Line.after_append ..
  constructor
  · unfold line
    rw [hLine]
    exact (h.holds.intr c).1
  · unfold line
    rw [hLine, (s.line.input_queue c).1]
    exact h.got
  · exact h.readers

theorem Good.read (h : s.Good) (p : P) (dst : BitVec 64) (n : BitVec 32) :
    Good
      { s with
        reader := update s.reader p (some ⟨dst, n, n⟩) } := by
  refine ⟨h.holds, h.got, ?_⟩
  intro q rd hRd
  dsimp only at hRd
  by_cases hq : q = p
  · subst hq
    rw [update_self] at hRd
    cases hRd
    exact BitVec.le_refl _
  · rw [update_of_ne hq] at hRd
    exact h.readers q rd hRd

/-
  The reader takes the bytes `t` and leaves `q`. It takes an
  end of file only to return zero, and stops before one that
  it leaves.
-/
structure Takes (s : ConsoleState P) (rd : Reader) (o : ReadOut) (t q : List UInt8) : Prop where
  queue : s.line.queue = t ++ q
  cons : o.cons.Holds q s.line.tail
  count : (o.cons.r - s.cons.r).toNat = t.length
  load : o.u.load rd.dst.toNat (rd.n - o.rd.n).toNat =
    t.filter (fun x => x ≠ ctrl 'D')
  le : o.rd.n ≤ o.rd.target
  eof : ctrl 'D' ∈ t → o.value = some 0
  done : q ≠ [] → o.stop = .done

omit [DecidableEq P] in
theorem Good.takes (h : s.Good) {p : P} {rd : Reader} (hReader : s.reader p = some rd)
    (killed : Bool) {u : UserSpace} (hWorks : rd.Works u) :
    ∃ t q, s.Takes rd (rd.run killed s.cons u) t q := by
  have hLe := h.readers p rd hReader
  have hRun : ∃ d, Delivers rd s.cons u (rd.run killed s.cons u) d ∧
        ReadStops rd s.line.queue s.line.tail (rd.run killed s.cons u) d :=
    h.holds.reads hWorks hLe
  rcases hRun with ⟨d, hD, hS⟩
  generalize rd.run killed s.cons u = o at hD hS ⊢
  have hNat : rd.n.toInt.toNat ≤ rd.n.toNat := by
    rw [BitVec.toInt_eq_toNat_cond]
    split <;> omega
  have hLength : d.length ≤ rd.n.toNat := hD.le.trans hNat
  have hMod : (BitVec.ofNat 32 d.length).toNat = d.length := by
    exact Nat.mod_eq_of_lt (by omega)
  have hCount : (rd.n - o.rd.n).toNat = d.length := by
    have hBack : rd.n - (rd.n - BitVec.ofNat 32 d.length) = BitVec.ofNat 32 d.length := by grind
    rw [hD.n, hBack, hMod]
  have hLoad : o.u.load rd.dst.toNat (rd.n - o.rd.n).toNat = d := by
    rw [hCount, hD.memory]
    exact UserSpace.load_store u rd.dst.isLt (by omega)
  have hPlain : d.filter (fun x => x ≠ ctrl 'D') = d := by
    rw [filter_eq_self]
    intro x hx
    refine decide_eq_true ?_
    rintro rfl
    exact hD.plain hx
  have hLeft : o.rd.n ≤ o.rd.target := by
    have hSub : BitVec.ofNat 32 d.length ≤ rd.n := by
      rw [BitVec.le_def, hMod]
      exact hLength
    rw [hD.n, hD.target, BitVec.le_def, BitVec.toNat_sub_of_le hSub]
    rw [BitVec.le_def] at hLe
    omega
  cases hS with
  | @plain _ q hQueue hCons hDone =>
    have hHolds := h.holds
    rw [hQueue] at hHolds
    refine ⟨d, q, hQueue, hCons, hHolds.distance hCons hD.write, ?_, hLeft, ?_, hDone⟩
    · rw [hLoad, hPlain]
    · intro hMem
      exact (hD.plain hMem).elim
  | @eof q hFirst hQueue hCons hDone hSame =>
    have hHolds := h.holds
    rw [hQueue] at hHolds
    refine ⟨[ctrl 'D'], q, hQueue, hCons, hHolds.distance hCons hD.write, ?_, hLeft, ?_,
      fun _ => hDone⟩
    · rw [hLoad]
      rfl
    intro _
    have hEq : rd.n = rd.target := by
      rw [BitVec.lt_def] at hFirst
      rw [BitVec.le_def] at hLe
      exact BitVec.eq_of_toNat_eq (by omega)
    unfold ReadOut.value
    rw [hDone, hSame, hEq, BitVec.sub_self]
    rfl

theorem Good.run (h : s.Good) (p : P) {rd : Reader} {o : ReadOut} {t q : List UInt8}
    (hTakes : s.Takes rd o t q) :
    Good
      { cons := o.cons
        reader := update s.reader p (if o.stop = .sleeps then some o.rd else none)
        hist := s.hist ++ List.replicate (o.cons.r - s.cons.r).toNat .take
        got := s.got ++ o.u.load rd.dst.toNat (rd.n - o.rd.n).toNat } := by
  have hLine : Line.after (s.hist ++ replicate (o.cons.r - s.cons.r).toNat .take) =
      { s.line with
        taken := s.line.taken ++ t, queue := q } := by
    rw [Line.after_append, hTakes.count]
    exact Line.foldl_take _ t q hTakes.queue
  constructor
  · unfold line
    rw [hLine]
    exact hTakes.cons
  · unfold line
    rw [hLine, hTakes.load, filter_append, ← h.got]
  · intro r rd' hRd
    dsimp only at hRd
    by_cases hr : r = p
    · subst hr
      rw [update_self] at hRd
      split at hRd
      · cases hRd
        exact hTakes.le
      · cases hRd
    · rw [update_of_ne hr] at hRd
      exact h.readers r rd' hRd

theorem good_step {a : ConsoleAct P} (h : s.Good) (hWorks : WorkingReads s a)
    (hStep : consoleStep s a = .next s') : s'.Good := by
  cases a with
  | intr c =>
    cases hStep
    exact h.intr c
  | read p dst n =>
    rw [consoleStep] at hStep
    cases hReader : s.reader p with
    | none =>
      rw [hReader] at hStep
      cases hStep
      exact h.read p dst n
    | some rd =>
      rw [hReader] at hStep
      cases hStep
  | run p killed u =>
    rw [consoleStep] at hStep
    cases hReader : s.reader p with
    | none =>
      rw [hReader] at hStep
      cases hStep
    | some rd =>
      rw [hReader] at hStep
      cases hStep
      rcases h.takes hReader killed (hWorks rd hReader)
        with ⟨t, q, hTakes⟩
      exact h.run p hTakes

theorem good_of_reach (h : consoleSystem.Reach WorkingReads s) : s.Good := by
  refine h.invariant ?_ ?_
  · rintro s ⟨hr, hw, he, hReader, hHist, hGot⟩
    have hLine : s.line = Line.empty := by
      unfold line
      rw [hHist]
      rfl
    refine ⟨⟨?_, ?_, ?_, ?_⟩, ?_, ?_⟩
    · rw [hLine]
      refine contents_of_eq _ ?_
      exact hr.trans he.symm
    · rw [hLine, hr, hw]
      rfl
    · rw [hLine]
      exact Nat.zero_le _
    · rw [hLine]
      exact not_mem_nil
    · rw [hLine, hGot]
      rfl
    · intro p rd hRd
      rw [hReader p] at hRd
      cases hRd
  · intro s a s' hGood hWorks hStep
    exact good_step hGood hWorks hStep

end ConsoleState

/-
  In every run whose readers can write to their destinations,
  however the indices wrap: `w` and `e` follow `r` in order
  and within the size of the ring, which holds the edited
  input that no reader has taken; readers got what was taken
  of it, without the ends of file; an interrupt keeps what is
  committed; and a read takes an end of file only to return
  zero, and is done when it meets one.
-/
theorem console_line_discipline
    {s : ConsoleState P}
    (h : consoleSystem.Reach WorkingReads s) :
    (s.cons.w - s.cons.r).toNat ≤ (s.cons.e - s.cons.r).toNat ∧
    (s.cons.e - s.cons.r).toNat ≤ INPUT_BUF_SIZE ∧
    s.cons.committed = s.line.queue ∧
    s.cons.bytes = s.line.queue ++ s.line.tail ∧
    s.got = s.line.taken.filter (fun x => x ≠ ctrl 'D') ∧
    (∀ c, (consoleintr c s.cons).r = s.cons.r ∧ s.cons.committed <+:
        (consoleintr c s.cons).committed) ∧
    (∀ p rd, s.reader p = some rd → ∀ killed u, rd.Works u →
      ctrl 'D' ∈ s.cons.committed.take
        ((rd.run killed s.cons u).cons.r - s.cons.r).toNat →
        (rd.run killed s.cons u).value = some 0) ∧
    (∀ p rd, s.reader p = some rd → ∀ killed u, rd.Works u →
      (rd.run killed s.cons u).cons.committed.head? = some (ctrl 'D') →
        (rd.run killed s.cons u).stop = .done) := by
  have hGood := ConsoleState.good_of_reach h
  have hHolds := hGood.holds
  refine ⟨?_, ?_, hHolds.committed_eq, hHolds.bytes, hGood.got, ?_, ?_, ?_⟩
  · rw [hHolds.write, hHolds.edit]
    omega
  · rw [hHolds.edit]
    exact hHolds.room
  · intro c
    rcases hHolds.intr c with ⟨hNew, hr⟩
    refine ⟨hr, ?_⟩
    rw [hHolds.committed_eq, hNew.committed_eq]
    exact (s.line.input_queue c).2
  · intro p rd hReader killed u hWorks hEof
    rcases hGood.takes hReader killed hWorks with
      ⟨t, q, hTakes⟩
    rw [hHolds.committed_eq, hTakes.queue, hTakes.count, take_left] at hEof
    exact hTakes.eof hEof
  · intro p rd hReader killed u hWorks hHead
    rcases hGood.takes hReader killed hWorks with
      ⟨t, q, hTakes⟩
    refine hTakes.done ?_
    rintro rfl
    rw [hTakes.cons.committed_eq] at hHead
    cases hHead

/- A console that nothing was typed on. -/
def quietConsole : ConsoleState Unit where
  cons := { buf := fun _ => 0, r := 0, w := 0, e := 0 }
  reader := fun _ => none
  hist := []
  got := []

/- A byte is erased, and the line is read. -/
theorem console_line_erased :
    ∃ s : ConsoleState Unit, consoleSystem.Reach WorkingReads s ∧ s.got = [97, NL] ∧
      (s.cons.e - s.cons.r).toNat ≤ INPUT_BUF_SIZE := by
  have hInit : consoleSystem.Reach WorkingReads quietConsole :=
    .init ⟨rfl, rfl, rfl, fun _ => rfl, rfl, rfl⟩
  have hA := System.Reach.step (a := ConsoleAct.intr 97) hInit trivial rfl
  have hB := System.Reach.step (a := ConsoleAct.intr 98) hA trivial rfl
  have hErase := System.Reach.step (a := ConsoleAct.intr (ctrl 'H')) hB trivial rfl
  have hEnd := System.Reach.step (a := ConsoleAct.intr CR) hErase trivial rfl
  have hCall := System.Reach.step (a := ConsoleAct.read () 4096 10) hEnd trivial rfl
  have hRead := System.Reach.step (a := ConsoleAct.run () false (wholeSpace true)) hCall
    (fun _ _ _ _ => rfl) rfl
  exact ⟨_, hRead, rfl, (console_line_discipline hRead).2.1⟩

end Xv6
