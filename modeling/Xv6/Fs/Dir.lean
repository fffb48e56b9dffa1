import Xv6.Fs.Inode

/-
  Directories and path names of `fs.c`.

  A name is the list of bytes of a C string of at most
  `DIRSIZ` bytes, and a path the list of bytes of a C string.

  Key definitions include:
    * `Dirent`
    * `namecmp`
    * `dirlookup`
    * `dirlink`
    * `skipelem`
    * `namex`
-/

-------
-- Names
-------

namespace Xv6

/- File names and paths. -/
abbrev Name : Type := List UInt8
abbrev Path : Type := List UInt8

/- `strncmp`, where a string ends at a zero byte. -/
def strncmp : Nat → List UInt8 → List UInt8 → Int
| 0, _, _ => 0
| n + 1, p, q =>
    if p.headD 0 ≠ 0 ∧ p.headD 0 = q.headD 0 then
      strncmp n p.tail q.tail
    else (p.headD 0).toNat - (q.headD 0).toNat

/- Compare two names. -/
def namecmp (s t : Name) : Int := strncmp DIRSIZ s t

/- The names `.` and `..`. -/
abbrev dot : Name := [46]
abbrev dotdot : Name := [46, 46]

/- `struct dirent`. -/
structure Dirent where
  inum : Nat
  name : Name

/- `strncpy` into a field of `n` bytes. -/
def strncpy (n : Nat) (name : Name) : List UInt8 :=
  let s := (name.take n).takeWhile (· ≠ 0)
  s ++ List.replicate (n - s.length) 0

/- The bytes of a directory entry. -/
def Dirent.encode (de : Dirent) : List UInt8 := encodeLE 2 de.inum ++ strncpy DIRSIZ de.name

/- The directory entry in a list of 16 bytes. -/
def Dirent.decode (l : List UInt8) : Dirent where
  inum := decodeLE (l.take 2)
  name := (l.drop 2).take DIRSIZ

-------
-- Directories
-------

variable (sb : Superblock)

/- Read the directory entry at offset `off`. -/
def readDirent (dp off : Nat) (p : Panic) : FsM Dirent := do
  let (tot, dst) ← readi sb dp copies (BitVec.ofNat 32 off) 16
  if tot ≠ 16 then panicWith p
  else return Dirent.decode dst

/- Write a directory entry at offset `off`. -/
def writeDirent (dp off : Nat) (l : List UInt8) : FsM Int :=
  writei sb dp (fun k => l.getD k 0) copiesIn (BitVec.ofNat 32 off) 16

/- The loop of `dirlookup`, for the last `n` entries. -/
def dirlookupLoop (dp : Nat) (name : Name) :
    Nat → Nat → FsM (Option (Nat × Nat))
| 0, _ => return none
| n + 1, off => do
    let de ← readDirent sb dp off .dirlookupRead
    if de.inum = 0 then
      dirlookupLoop dp name n (off + 16)
    else if namecmp name de.name = 0 then do
      let ip ← iget de.inum
      return some (ip, off)
    else dirlookupLoop dp name n (off + 16)

/- Entries that start below the size of a directory. -/
def slots (s : Fs) (dp : Nat) : Nat := ((s.copy dp).size.toNat + 15) / 16

/-
  Look for a directory entry in a directory; returns its
  inode and the byte offset of the entry.
-/
def dirlookup (dp : Nat) (name : Name) : FsM (Option (Nat × Nat)) := do
  let s ← Prog.read
  if (s.copy dp).type ≠ T_DIR then
    panicWith .dirlookupNotDir
  else dirlookupLoop sb dp name (slots s dp) 0

/- The search of `dirlink` for an empty entry. -/
def dirlinkLoop (dp : Nat) :
    Nat → Nat → FsM Nat
| 0, off => return off
| n + 1, off => do
    let de ← readDirent sb dp off .dirlinkRead
    if de.inum = 0 then return off
    else dirlinkLoop dp n (off + 16)

/- Write a new entry into a directory; -1 on failure. -/
def dirlink (dp : Nat) (name : Name) (inum : Nat) : FsM Int := do
  match ← dirlookup sb dp name with
  | some (ip, _) => do
      iput sb ip
      return -1
  | none => do
      let s ← Prog.read
      let off ← dirlinkLoop sb dp (slots s dp) 0
      let tot ← writeDirent sb dp off (Dirent.encode ⟨inum, name⟩)
      if tot ≠ 16 then return -1
      else return 0

-------
-- Paths
-------

/- The byte `/`. -/
abbrev slash : UInt8 := 47

/-
  The next path element and the path after it, without
  leading slashes; `none` if no element is left.
-/
def skipelem (path : Path) : Option (Name × Path) :=
  let s := path.dropWhile (· = slash)
  if s = [] then none
  else
    some ((s.takeWhile (· ≠ slash)).take DIRSIZ, (s.dropWhile (· ≠ slash)).dropWhile (· = slash))

/- The elements that `skipelem` yields one after another. -/
def pathElems : Nat → Path → List Name
| 0, _ => []
| n + 1, path =>
    match skipelem path with
    | none => []
    | some (name, rest) => name :: pathElems n rest

/- The loop of `namex` over the elements of the path. -/
def namexLoop (parent : Bool) :
    List Name → Nat → FsM (Option (Nat × Name))
| [], ip =>
    if parent then do
      iput sb ip
      return none
    else return some (ip, [])
| name :: rest, ip => do
    ilock sb ip
    let s ← Prog.read
    if (s.copy ip).type ≠ T_DIR then do
      iunlockput sb ip
      return none
    else if parent ∧ rest = [] then do
      -- Stop one level early.
      iunlock ip
      return some (ip, name)
    else do
      match ← dirlookup sb ip name with
      | none => do
          iunlockput sb ip
          return none
      | some (next, _) => do
          iunlockput sb ip
          namexLoop parent rest next

/- The inode from which a path is followed. -/
def namexStart (cwd : Nat) (path : Path) : FsM Nat :=
  if path.head? = some slash then iget ROOTINO
  else idup cwd

/-
  Look up the inode for a path name, or the inode of its
  parent together with the final element.
-/
def namex (cwd : Nat) (path : Path) (parent : Bool) : FsM (Option (Nat × Name)) := do
  let ip ← namexStart cwd path
  namexLoop sb parent (pathElems path.length path) ip

def namei (cwd : Nat) (path : Path) : FsM (Option Nat) := do
  let r ← namex sb cwd path false
  return r.map Prod.fst

def nameiparent (cwd : Nat) (path : Path) : FsM (Option (Nat × Name)) := namex sb cwd path true

end Xv6
