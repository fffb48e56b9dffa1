import Xv6.Lib.RingBuffer
import Xv6.Lib.System
import Xv6.Vm.UserSpace

/-
  The console of `console.c`: `consoleintr`, which the device
  calls for every character, and `consoleread`, which any
  number of processes may be in.

  Both hold `cons.lock`. A reader lets go of it only while it
  sleeps, so that what it does between two sleeps is one step.
  The characters that are echoed are left out.

  Key definitions include:
    * `Console`
    * `consoleintr`
    * `consolereadLoop`
    * `consoleSystem`
-/

-------
-- Interrupts
-------

namespace Xv6

abbrev INPUT_BUF_SIZE : Nat := 128

/- `C(x)`, with the control key. -/
abbrev ctrl (x : Char) : UInt8 := x.toNat.toUInt8 - 64

abbrev NL : UInt8 := 10

abbrev CR : UInt8 := 13

abbrev DEL : UInt8 := 127

/- `cons`, without its lock. -/
structure Console where
  buf : Nat → UInt8
  r : BitVec 32
  w : BitVec 32
  e : BitVec 32

/-
  The loop of `C('U')`. It makes at most as many turns as
  there are bytes between `w` and `e`.
-/
def killLine : Nat → Console → Console
| 0, cons => cons
| k + 1, cons =>
    if cons.e ≠ cons.w ∧ cons.buf ((cons.e - 1).toNat % INPUT_BUF_SIZE) ≠ NL
    then killLine k { cons with e := cons.e - 1 }
    else cons

/- Store a byte and tell the readers when a line is there. -/
def storeByte (c : UInt8) (cons : Console) : Console :=
  let cons :=
    { cons with
      buf := Function.update cons.buf (cons.e.toNat % INPUT_BUF_SIZE) c
      e := cons.e + 1 }
  if c = NL ∨ c = ctrl 'D' ∨ (cons.e - cons.r).toNat = INPUT_BUF_SIZE then
    { cons with w := cons.e }
  else cons

def consoleintr (c : UInt8) (cons : Console) : Console :=
  if c = ctrl 'P' then cons
  else if c = ctrl 'U' then
    killLine (cons.e - cons.w).toNat cons
  else if c = ctrl 'H' ∨ c = DEL then
    if cons.e ≠ cons.w then { cons with e := cons.e - 1 }
    else cons
  else if c ≠ 0 ∧ (cons.e - cons.r).toNat < INPUT_BUF_SIZE
  then storeByte (if c = CR then NL else c) cons
  else cons

-------
-- Readers
-------

/- The variables of a call to `consoleread`. -/
structure Reader where
  dst : BitVec 64
  n : BitVec 32
  target : BitVec 32

/- Why a reader lets go of the lock. -/
inductive ReadStop where
  | sleeps
  | killed
  | done
  deriving DecidableEq

structure ReadOut where
  stop : ReadStop
  rd : Reader
  cons : Console
  u : UserSpace

/- The value of a call that returns. -/
def ReadOut.value (o : ReadOut) : Option Int :=
  match o.stop with
  | .sleeps => none
  | .killed => some (-1)
  | .done => some (o.rd.target - o.rd.n).toInt

/-
  The loop of `consoleread`. Each turn lowers `n`, so that as
  many turns as `n` says are enough.
-/
def consolereadLoop (killed : Bool) :
    Nat → Reader → Console → UserSpace → ReadOut
| 0, rd, cons, u => ⟨.done, rd, cons, u⟩
| k + 1, rd, cons, u =>
    if 0 < rd.n.toInt then
      if cons.r = cons.w then
        if killed then ⟨.killed, rd, cons, u⟩
        else ⟨.sleeps, rd, cons, u⟩
      else
        let c := cons.buf (cons.r.toNat % INPUT_BUF_SIZE)
        let cons := { cons with r := cons.r + 1 }
        if c = ctrl 'D' then
          if rd.n < rd.target then
            ⟨.done, rd, { cons with r := cons.r - 1 }, u⟩
          else ⟨.done, rd, cons, u⟩
        else
          match u.copyout rd.dst.toNat [c] with
          | (false, u) => ⟨.done, rd, cons, u⟩
          | (true, u) =>
            let rd := { rd with dst := rd.dst + 1, n := rd.n - 1 }
            if c = NL then ⟨.done, rd, cons, u⟩
            else consolereadLoop killed k rd cons u
    else ⟨.done, rd, cons, u⟩

/- What a reader does until it sleeps or returns. -/
def Reader.run (rd : Reader) (killed : Bool) (cons : Console) (u : UserSpace) : ReadOut :=
  consolereadLoop killed rd.n.toNat rd cons u

/- What happened to the bytes of the console. -/
inductive LineEvent where
  | input (c : UInt8)
  | take

/-
  The readers that are in `consoleread`, what happened to the
  console, and the bytes that were delivered.
-/
structure ConsoleState (P : Type) where
  cons : Console
  reader : P → Option Reader
  hist : List LineEvent
  got : List UInt8

inductive ConsoleAct (P : Type) where
  | intr (c : UInt8)
  | read (p : P) (dst : BitVec 64) (n : BitVec 32)
  | run (p : P) (killed : Bool) (u : UserSpace)

variable {P : Type} [DecidableEq P]

/-
  A byte is delivered when the user finds it, and taken when
  `r` has gone past it.
-/
def consoleStep (s : ConsoleState P) :
    ConsoleAct P → Outcome Empty (ConsoleState P)
| .intr c =>
    .next
      { s with
        cons := consoleintr c s.cons
        hist := s.hist ++ [.input c] }
| .read p dst n =>
    match s.reader p with
    | none =>
      .next
        { s with
          reader := Function.update s.reader p (some ⟨dst, n, n⟩) }
    | some _ => .disabled
| .run p killed u =>
    match s.reader p with
    | none => .disabled
    | some rd =>
      let o := rd.run killed s.cons u
      .next
        { cons := o.cons
          reader := Function.update s.reader p (if o.stop = .sleeps then some o.rd else none)
          hist := s.hist ++ List.replicate (o.cons.r - s.cons.r).toNat .take
          got := s.got ++ o.u.load rd.dst.toNat (rd.n - o.rd.n).toNat }

/- The console when the system starts. -/
def consoleSystem :
    System (ConsoleState P) (ConsoleAct P) Empty where
  init := fun s =>
    s.cons.r = 0 ∧ s.cons.w = 0 ∧ s.cons.e = 0 ∧ (∀ p, s.reader p = none) ∧ s.hist = [] ∧ s.got = []
  step := consoleStep

end Xv6
