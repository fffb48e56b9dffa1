import Xv6.Lib.Bytes
import Xv6.Lib.Pool
import Xv6.Lib.Prog
import Mathlib.Data.Nat.Bitwise

/-
  Physical memory, `kalloc.c`, and the page tables of `vm.c`.

  Memory is a page of bytes at each address that is a multiple
  of the page size, and a page-table entry is eight bytes of a
  page. Addresses are numbers below `2 ^ 64`, and sums and
  products are reduced as those of `uint64`.

  The free list is a list of addresses; the pointers that a
  free page holds are not modelled. `kalloc` fails when the
  list is empty, and it may also fail when `deny` says so.

  A loop whose rounds cannot be counted in advance gets a
  bound, and stops with `diverges` if it does not end before.

  Key definitions include:
    * `Ram`
    * `kalloc`, `kfree`
    * `walk`, `mappages`, `uvmunmap`
    * `uvmalloc`, `uvmdealloc`, `uvmcopy`
    * `freewalk`, `uvmfree`
    * `copyout`, `copyin`, `copyinstr`
    * `procPagetable`, `procFreepagetable`
-/

-------
-- Layout
-------

namespace Xv6

/- Bytes in a page. -/
abbrev PGSIZE : Nat := 4096

abbrev KERNBASE : Nat := 0x80000000
abbrev PHYSTOP : Nat := KERNBASE + 128 * 1024 * 1024

/- One beyond the highest possible virtual address. -/
abbrev MAXVA : Nat := 2 ^ 38

abbrev TRAMPOLINE : Nat := MAXVA - PGSIZE
abbrev TRAPFRAME : Nat := TRAMPOLINE - PGSIZE

/-
  Where the linker puts the kernel: the first address after
  it, and the page of `trampoline.S`.
-/
structure MemLayout where
  kend : Nat
  trampoline : Nat
  kernbase_le : KERNBASE ≤ kend
  kend_le : kend ≤ PHYSTOP
  trampoline_aligned : trampoline % PGSIZE = 0
  trampoline_lt : trampoline < kend

/- The pages that the allocator is about. -/
def MemLayout.Area (L : MemLayout) (pa : Nat) : Prop := pa % PGSIZE = 0 ∧ L.kend ≤ pa ∧ pa < PHYSTOP

/- Sums, differences and products of `uint64`. -/
def add64 (a b : Nat) : Nat := (a + b) % 2 ^ 64
def sub64 (a b : Nat) : Nat := (a + (2 ^ 64 - b)) % 2 ^ 64
def mul64 (a b : Nat) : Nat := (a * b) % 2 ^ 64

/- A `uint64` that is assigned to an `int` and used again. -/
def throughInt (x : Nat) : Nat :=
  if x % 2 ^ 32 < 2 ^ 31 then x % 2 ^ 32
  else x % 2 ^ 32 + (2 ^ 64 - 2 ^ 32)

def PGROUNDUP (sz : Nat) : Nat := add64 sz (PGSIZE - 1) / PGSIZE * PGSIZE

def PGROUNDDOWN (a : Nat) : Nat := a / PGSIZE * PGSIZE

/- One of the three 9-bit indices of a virtual address. -/
def PX (level va : Nat) : Nat := va / 2 ^ (12 + 9 * level) % 512

abbrev PTE_V : Nat := 1
abbrev PTE_R : Nat := 2
abbrev PTE_W : Nat := 4
abbrev PTE_X : Nat := 8
abbrev PTE_U : Nat := 16

def PA2PTE (pa : Nat) : Nat := (pa >>> 12) <<< 10

def PTE2PA (pte : Nat) : Nat := ((pte >>> 10) <<< 12) % 2 ^ 64

def PTE_FLAGS (pte : Nat) : Nat := pte &&& 0x3ff

/- Is one of the flags set? -/
def pteHas (pte flag : Nat) : Bool := pte &&& flag ≠ 0

-------
-- Memory
-------

abbrev Page : Type := Bytes PGSIZE

/- Physical memory and the free list. -/
structure Ram extends Pool Nat Page where
  deny : List Bool

/- The panics of `vm.c` and `kalloc.c`. -/
inductive VmFault where
  | walk
  | mappagesSize
  | mappagesRemap
  | uvmunmapNotAligned
  | uvmunmapWalk
  | uvmunmapNotMapped
  | uvmunmapNotALeaf
  | freewalkLeaf
  | uvmcopyPte
  | uvmcopyPage
  | uvmclear
  | kfree
  | diverges
  deriving DecidableEq

abbrev VmM (α : Type) : Type := Prog Ram VmFault α

/- A page all of whose bytes are the same. -/
def filled (c : UInt8) : Page := fun _ => c

/- Change the page at an address. -/
def Ram.setPage (s : Ram) (pa : Nat) (c : Page) : Ram :=
  { s with mem := Function.update s.mem pa c }

/- Fill a page, as `memset` does. -/
def memset (pa : Nat) (c : UInt8) : VmM Unit := Prog.edit (fun s => s.setPage pa (filled c))

/- The `i`-th entry of the page table at an address. -/
def pteAt (mem : Nat → Page) (pagetable i : Nat) : Nat := (mem pagetable).getLE (8 * i) 8

def loadPte (pagetable i : Nat) : VmM Nat := do
  let s ← Prog.read
  return pteAt s.mem pagetable i

def storePte (pagetable i pte : Nat) : VmM Unit :=
  Prog.edit (fun s => s.setPage pagetable ((s.mem pagetable).putLE (8 * i) 8 pte))

/- Free a page of physical memory. -/
def kfree (L : MemLayout) (pa : Nat) : VmM Unit :=
  if pa % PGSIZE ≠ 0 ∨ pa < L.kend ∨ PHYSTOP ≤ pa then
    Prog.stop .kfree
  else
    Prog.edit (fun s =>
      { s with
        mem := Function.update s.mem pa (filled 1)
        free := pa :: s.free })

/- Allocate a page of physical memory. -/
def kalloc : VmM (Option Nat) := do
  let s ← Prog.read
  Prog.edit (fun s => { s with deny := s.deny.tail })
  match s.deny.headD false, s.free with
  | false, pa :: rest => do
      Prog.edit (fun s =>
        { s with
          mem := Function.update s.mem pa (filled 5)
          free := rest })
      return some pa
  | _, _ => return none

-------
-- Page Tables
-------

/-
  The loop of `walk`: from a table of some level down to the
  table of level 0 that is in charge of the address.
-/
def walkLoop (va : Nat) (alloc : Bool) : Nat → Nat → VmM (Option Nat)
| 0, pagetable => return some pagetable
| level + 1, pagetable => do
    let pte ← loadPte pagetable (PX (level + 1) va)
    if pteHas pte PTE_V then
      walkLoop va alloc level (PTE2PA pte)
    else if alloc then
      match ← kalloc with
      | none => return none
      | some pt => do
          memset pt 0
          storePte pagetable (PX (level + 1) va) (PA2PTE pt ||| PTE_V)
          walkLoop va alloc level pt
    else return none

/-
  The place of the entry for a virtual address: the table of
  level 0 and the index in it.
-/
def walk (pagetable va : Nat) (alloc : Bool) : VmM (Option (Nat × Nat)) :=
  if MAXVA ≤ va then Prog.stop .walk
  else do
    match ← walkLoop va alloc 2 pagetable with
    | none => return none
    | some pt => return some (pt, PX 0 va)

/- The physical address of a user page, or 0. -/
def walkaddr (pagetable va : Nat) : VmM Nat :=
  if MAXVA ≤ va then return 0
  else do
    match ← walk pagetable va false with
    | none => return 0
    | some (pt, i) => do
        let pte ← loadPte pt i
        if pteHas pte PTE_V = false then return 0
        else if pteHas pte PTE_U = false then return 0
        else return PTE2PA pte

/- The loop of `mappages`; false stands for -1. -/
def mappagesLoop (pagetable last perm : Nat) :
    Nat → Nat → Nat → VmM Bool
| 0, _, _ => Prog.stop .diverges
| n + 1, a, pa => do
    match ← walk pagetable a true with
    | none => return false
    | some (pt, i) => do
        let pte ← loadPte pt i
        if pteHas pte PTE_V then Prog.stop .mappagesRemap
        else do
          storePte pt i (PA2PTE pa ||| perm ||| PTE_V)
          if a = last then return true
          else
            mappagesLoop pagetable last perm n (add64 a PGSIZE) (add64 pa PGSIZE)

/- Create entries for a range of virtual addresses. -/
def mappages (pagetable va size pa perm : Nat) : VmM Bool :=
  if size = 0 then Prog.stop .mappagesSize
  else
    mappagesLoop pagetable (PGROUNDDOWN (add64 va (size - 1))) perm
      (size / PGSIZE + 2) (PGROUNDDOWN va) pa

/- The loop of `uvmunmap`. -/
def uvmunmapLoop (L : MemLayout) (pagetable last : Nat) (doFree : Bool) : Nat → Nat → VmM Unit
| n, a =>
    if a < last then
      match n with
      | 0 => Prog.stop .diverges
      | n + 1 => do
          match ← walk pagetable a false with
          | none => Prog.stop .uvmunmapWalk
          | some (pt, i) => do
              let pte ← loadPte pt i
              if pteHas pte PTE_V = false then
                Prog.stop .uvmunmapNotMapped
              else if PTE_FLAGS pte = PTE_V then
                Prog.stop .uvmunmapNotALeaf
              else do
                if doFree then kfree L (PTE2PA pte)
                storePte pt i 0
                uvmunmapLoop L pagetable last doFree n (add64 a PGSIZE)
    else return ()

/- Remove the mappings of a range of pages. -/
def uvmunmap (L : MemLayout) (pagetable va npages : Nat) (doFree : Bool) : VmM Unit :=
  if va % PGSIZE ≠ 0 then Prog.stop .uvmunmapNotAligned
  else
    uvmunmapLoop L pagetable (add64 va (mul64 npages PGSIZE)) doFree npages va

/- Create an empty page table. -/
def uvmcreate : VmM (Option Nat) := do
  match ← kalloc with
  | none => return none
  | some pagetable => do
      memset pagetable 0
      return some pagetable

/-
  Load the first program into page 0, when a page could be
  allocated. The value is that of `mappages`.
-/
def uvmfirst (pagetable : Nat) (src : List UInt8) : VmM (Option Bool) := do
  match ← kalloc with
  | none => return none
  | some mem => do
      memset mem 0
      let ok ← mappages pagetable 0 PGSIZE mem (PTE_W ||| PTE_R ||| PTE_X ||| PTE_U)
      Prog.edit (fun s => s.setPage mem ((s.mem mem).splice 0 src))
      return some ok

/- Remove pages to shrink from `oldsz` to `newsz`. -/
def uvmdealloc (L : MemLayout) (pagetable oldsz newsz : Nat) : VmM Nat :=
  if oldsz ≤ newsz then return oldsz
  else do
    if PGROUNDUP newsz < PGROUNDUP oldsz then
      uvmunmap L pagetable (PGROUNDUP newsz) (throughInt
          ((PGROUNDUP oldsz - PGROUNDUP newsz) / PGSIZE)) true
    return newsz

/- The loop of `uvmalloc`, with the rounded old size. -/
def uvmallocLoop (L : MemLayout) (pagetable oldsz newsz xperm : Nat) :
    Nat → Nat → VmM Nat
| n, a =>
    if a < newsz then
      match n with
      | 0 => Prog.stop .diverges
      | n + 1 => do
          match ← kalloc with
          | none => do
              let _ ← uvmdealloc L pagetable a oldsz
              return 0
          | some mem => do
              memset mem 0
              if ← mappages pagetable a PGSIZE mem (PTE_R ||| PTE_U ||| xperm) then
                uvmallocLoop L pagetable oldsz newsz xperm n (add64 a PGSIZE)
              else do
                kfree L mem
                let _ ← uvmdealloc L pagetable a oldsz
                return 0
    else return newsz

/- Allocate pages to grow from `oldsz` to `newsz`. -/
def uvmalloc (L : MemLayout) (pagetable oldsz newsz xperm : Nat) : VmM Nat :=
  if newsz < oldsz then return oldsz
  else do
    let s ← Prog.read
    uvmallocLoop L pagetable (PGROUNDUP oldsz) newsz xperm (s.free.length + 1) (PGROUNDUP oldsz)

/-
  Free the tables below a table, then the table itself. The
  recursion of the source ends when a table has no entries
  that lead to further ones.
-/
def freewalk (L : MemLayout) : Nat → Nat → VmM Unit
| 0, _ => Prog.stop .diverges
| n + 1, pagetable => do
    Prog.forFrom (fun i => do
        let pte ← loadPte pagetable i
        if pteHas pte PTE_V = true ∧ pteHas pte (PTE_R ||| PTE_W ||| PTE_X) = false then do
          freewalk L n (PTE2PA pte)
          storePte pagetable i 0
        else if pteHas pte PTE_V then
          Prog.stop .freewalkLeaf)
      0 512
    kfree L pagetable

/- Free user memory, then page-table pages. -/
def uvmfree (L : MemLayout) (pagetable sz : Nat) : VmM Unit := do
  if 0 < sz then
    uvmunmap L pagetable 0 (PGROUNDUP sz / PGSIZE) true
  freewalk L 3 pagetable

/- The loop of `uvmcopy`; false stands for -1. -/
def uvmcopyLoop (L : MemLayout) (old new sz : Nat) : Nat → Nat → VmM Bool
| n, i =>
    if i < sz then
      match n with
      | 0 => Prog.stop .diverges
      | n + 1 => do
          match ← walk old i false with
          | none => Prog.stop .uvmcopyPte
          | some (pt, j) => do
              let pte ← loadPte pt j
              if pteHas pte PTE_V = false then
                Prog.stop .uvmcopyPage
              else
                match ← kalloc with
                | none => do
                    uvmunmap L new 0 (i / PGSIZE) true
                    return false
                | some mem => do
                    Prog.edit (fun s => s.setPage mem (s.mem (PTE2PA pte)))
                    if ← mappages new i PGSIZE mem (PTE_FLAGS pte) then
                      uvmcopyLoop L old new sz n (add64 i PGSIZE)
                    else do
                      kfree L mem
                      uvmunmap L new 0 (i / PGSIZE) true
                      return false
    else return true

/- Copy the memory of a process into another page table. -/
def uvmcopy (L : MemLayout) (old new sz : Nat) : VmM Bool :=
  uvmcopyLoop L old new sz (sz / PGSIZE + 1) 0

/- Mark an entry invalid for user access. -/
def uvmclear (pagetable va : Nat) : VmM Unit := do
  match ← walk pagetable va false with
  | none => Prog.stop .uvmclear
  | some (pt, i) => do
      let pte ← loadPte pt i
      storePte pt i (Nat.ldiff pte PTE_U)

/-
  Copy bytes to a virtual address, a page at a time; false
  stands for -1. Each round copies at least one byte.
-/
def copyoutLoop (pagetable : Nat) : Nat → Nat → List UInt8 → VmM Bool
| 0, _, src => return src.isEmpty
| n + 1, dstva, src =>
    if src.isEmpty then return true
    else do
      let pa0 ← walkaddr pagetable (PGROUNDDOWN dstva)
      if pa0 = 0 then return false
      else do
        let off := dstva - PGROUNDDOWN dstva
        Prog.edit (fun s => s.setPage pa0 ((s.mem pa0).splice off (src.take (PGSIZE - off))))
        copyoutLoop pagetable n (add64 (PGROUNDDOWN dstva) PGSIZE) (src.drop (PGSIZE - off))

def copyout (pagetable dstva : Nat) (src : List UInt8) : VmM Bool :=
  copyoutLoop pagetable src.length dstva src

/-
  Copy `len` bytes from a virtual address. It returns the
  bytes stored so far, and false for -1.
-/
def copyinLoop (pagetable : Nat) :
    Nat → Nat → Nat → VmM (Bool × List UInt8)
| 0, _, len => return (len == 0, [])
| k + 1, srcva, len =>
    if len = 0 then return (true, [])
    else do
      let pa0 ← walkaddr pagetable (PGROUNDDOWN srcva)
      if pa0 = 0 then return (false, [])
      else do
        let off := srcva - PGROUNDDOWN srcva
        let n := min (PGSIZE - off) len
        let s ← Prog.read
        let (r, rest) ← copyinLoop pagetable k (add64 (PGROUNDDOWN srcva) PGSIZE) (len - n)
        return (r, (s.mem pa0).slice off n ++ rest)

def copyinTo (pagetable srcva len : Nat) : VmM (Bool × List UInt8) :=
  copyinLoop pagetable len srcva len

/- The bytes, unless the result is -1. -/
def copyin (pagetable srcva len : Nat) :
    VmM (Option (List UInt8)) := do
  let (r, bytes) ← copyinTo pagetable srcva len
  return if r then some bytes else none

/- The inner loop of `copyinstr`, over bytes of one page. -/
def copyinstrPage : List UInt8 → Bool × List UInt8
| [] => (false, [])
| x :: l =>
    if x = 0 then (true, [0])
    else
      let (r, rest) := copyinstrPage l
      (r, x :: rest)

/-
  Copy a string of less than `max` bytes, and its zero. It
  returns the bytes stored so far, and whether there was a
  zero.
-/
def copyinstrLoop (pagetable : Nat) :
    Nat → Nat → Nat → VmM (Bool × List UInt8)
| 0, _, _ => return (false, [])
| k + 1, srcva, max =>
    if max = 0 then return (false, [])
    else do
      let pa0 ← walkaddr pagetable (PGROUNDDOWN srcva)
      if pa0 = 0 then return (false, [])
      else do
        let off := srcva - PGROUNDDOWN srcva
        let n := min (PGSIZE - off) max
        let s ← Prog.read
        let (gotNull, dst) := copyinstrPage ((s.mem pa0).slice off n)
        if gotNull then return (true, dst)
        else do
          let (r, rest) ← copyinstrLoop pagetable k (add64 (PGROUNDDOWN srcva) PGSIZE) (max - n)
          return (r, dst ++ rest)

def copyinstrTo (pagetable srcva max : Nat) : VmM (Bool × List UInt8) :=
  copyinstrLoop pagetable max srcva max

/- The string without its zero, unless the result is -1. -/
def copyinstr (pagetable srcva max : Nat) :
    VmM (Option (List UInt8)) := do
  let (r, dst) ← copyinstrTo pagetable srcva max
  return if r then some dst.dropLast else none

-------
-- Page Tables Of Processes
-------

/-
  Create a page table with no user memory, but with the
  trampoline and the trapframe.
-/
def procPagetable (L : MemLayout) (trapframe : Nat) : VmM (Option Nat) := do
  match ← uvmcreate with
  | none => return none
  | some pagetable => do
      if ← mappages pagetable TRAMPOLINE PGSIZE L.trampoline (PTE_R ||| PTE_X) then do
        if ← mappages pagetable TRAPFRAME PGSIZE trapframe (PTE_R ||| PTE_W) then
          return some pagetable
        else do
          uvmunmap L pagetable TRAMPOLINE 1 false
          uvmfree L pagetable 0
          return none
      else do
        uvmfree L pagetable 0
        return none

/- Free a page table and the user memory it refers to. -/
def procFreepagetable (L : MemLayout) (pagetable sz : Nat) : VmM Unit := do
  uvmunmap L pagetable TRAMPOLINE 1 false
  uvmunmap L pagetable TRAPFRAME 1 false
  uvmfree L pagetable sz

end Xv6
