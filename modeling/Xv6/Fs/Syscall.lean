import Xv6.Fs.Dir

/-
  The system calls of `sysfile.c` that change the name
  space. Each takes the caller's current directory.

  Key definitions include:
    * `sysLink`
    * `isdirempty`
    * `sysUnlink`
    * `create`
-/

-------
-- Links
-------

namespace Xv6

variable (sb : Superblock)

/- Change the link count of an inode. -/
def setNlink (i : Nat) (f : BitVec 16 → BitVec 16) : FsM Unit := do
  Prog.edit (fun s => s.setCopy i
    { s.copy i with nlink := f (s.copy i).nlink })
  iupdate sb i

/- The `bad` exit of `sys_link`: take back the link. -/
def linkBad (ip : Nat) : FsM Int := do
  ilock sb ip
  setNlink sb ip (· - 1)
  iunlockput sb ip
  return -1

/- Create the path `new` as a link to the inode of `old`. -/
def sysLink (cwd : Nat) (old new : Path) : FsM Int := do
  if MAXPATH ≤ old.length ∨ MAXPATH ≤ new.length then
    return -1
  else
    match ← namei sb cwd old with
    | none => return -1
    | some ip => do
        ilock sb ip
        let s ← Prog.read
        if (s.copy ip).type = T_DIR then do
          iunlockput sb ip
          return -1
        else do
          setNlink sb ip (· + 1)
          iunlock ip
          match ← nameiparent sb cwd new with
          | none => linkBad sb ip
          | some (dp, name) => do
              ilock sb dp
              let r ← dirlink sb dp name ip
              if r < 0 then do
                iunlockput sb dp
                linkBad sb ip
              else do
                iunlockput sb dp
                iput sb ip
                return 0

/- The loop of `isdirempty`, for the last `n` entries. -/
def isdiremptyLoop (dp : Nat) :
    Nat → Nat → FsM Bool
| 0, _ => return true
| n + 1, off => do
    let de ← readDirent sb dp off .isdiremptyReadi
    if de.inum ≠ 0 then return false
    else isdiremptyLoop dp n (off + 16)

/- Is the directory empty except for `.` and `..`? -/
def isdirempty (dp : Nat) : FsM Bool := do
  let s ← Prog.read
  isdiremptyLoop sb dp (slots s dp - 2) 32

/- Does unlinking have to be refused? -/
def notEmpty (ip : Nat) : FsM Bool := do
  let s ← Prog.read
  if (s.copy ip).type = T_DIR then do
    let empty ← isdirempty sb ip
    return !empty
  else return false

/- Drop the link of the `..` entry of a directory `ip`. -/
def dropDotdot (dp ip : Nat) : FsM Unit := do
  let s ← Prog.read
  if (s.copy ip).type = T_DIR then setNlink sb dp (· - 1)
  else return ()

/- The part of `sys_unlink` after its checks. -/
def unlinkEntry (dp ip off : Nat) : FsM Int := do
  let tot ← writeDirent sb dp off (List.replicate 16 0)
  if tot ≠ 16 then panicWith .unlinkWritei
  else do
    dropDotdot sb dp ip
    iunlockput sb dp
    setNlink sb ip (· - 1)
    iunlockput sb ip
    return 0

/- Remove a directory entry. -/
def sysUnlink (cwd : Nat) (path : Path) : FsM Int := do
  if MAXPATH ≤ path.length then return -1
  else
    match ← nameiparent sb cwd path with
    | none => return -1
    | some (dp, name) => do
        ilock sb dp
        if namecmp name dot = 0 ∨ namecmp name dotdot = 0
        then do
          iunlockput sb dp
          return -1
        else
          match ← dirlookup sb dp name with
          | none => do
              iunlockput sb dp
              return -1
          | some (ip, off) =>
            -- the directory's lock is already held
            if ip = dp then Prog.stop .sleep
            else do
              ilock sb ip
              let s ← Prog.read
              if (s.copy ip).nlink.toInt < 1 then
                panicWith .unlinkNlink
              else do
                let full ← notEmpty sb ip
                if full then do
                  iunlockput sb ip
                  iunlockput sb dp
                  return -1
                else unlinkEntry sb dp ip off

-------
-- Create
-------

/- The `fail` exit of `create`: de-allocate `ip`. -/
def createFail (dp ip : Nat) : FsM (Option Nat) := do
  setNlink sb ip (fun _ => 0)
  iunlockput sb ip
  iunlockput sb dp
  return none

/- Create the `.` and `..` entries of a new directory. -/
def createDots (dp ip : Nat) (type : BitVec 16) : FsM Bool := do
  if type = T_DIR then do
    let r ← dirlink sb ip dot ip
    if r < 0 then return false
    else do
      let r ← dirlink sb ip dotdot dp
      if r < 0 then return false
      else return true
  else return true

/- Add the link of the `..` entry of a new directory. -/
def addDotdot (dp : Nat) (type : BitVec 16) : FsM Unit :=
  if type = T_DIR then setNlink sb dp (· + 1)
  else return ()

/- Fill in the fields of a new inode. -/
def createInit (ip : Nat) (major minor : BitVec 16) : FsM Unit := do
  ilock sb ip
  Prog.edit (fun s => s.setCopy ip
    { s.copy ip with
      major := major
      minor := minor
      nlink := 1 })
  iupdate sb ip

/- The part of `create` after the inode is allocated. -/
def createNew (dp : Nat) (name : Name) (type major minor : BitVec 16)
    (ip : Nat) : FsM (Option Nat) := do
  createInit sb ip major minor
  let ok ← createDots sb dp ip type
  if ok = false then createFail sb dp ip
  else do
    let r ← dirlink sb dp name ip
    if r < 0 then createFail sb dp ip
    else do
      addDotdot sb dp type
      iunlockput sb dp
      return some ip

/-
  Create a file, directory or device; returns the locked
  inode. An existing file or device is returned for a file.
-/
def create (cwd : Nat) (path : Path) (type major minor : BitVec 16) :
    FsM (Option Nat) := do
  match ← nameiparent sb cwd path with
  | none => return none
  | some (dp, name) => do
      ilock sb dp
      match ← dirlookup sb dp name with
      | some (ip, _) => do
          iunlockput sb dp
          ilock sb ip
          let s ← Prog.read
          if type = T_FILE ∧ ((s.copy ip).type = T_FILE ∨ (s.copy ip).type = T_DEVICE) then
            return some ip
          else do
            iunlockput sb ip
            return none
      | none => do
          match ← ialloc sb type with
          | none => do
              iunlockput sb dp
              return none
          | some ip => createNew sb dp name type major minor ip

end Xv6
