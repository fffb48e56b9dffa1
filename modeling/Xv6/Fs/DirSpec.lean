import Xv6.Fs.Syscall
import Xv6.Fs.TableSpec

/-
  Directories as lists of entries.

  A directory file is read as one slot for every 16 bytes,
  which is empty or holds a name and an inode number. The
  functions on directories are then searches and updates of
  a list. The name space of a state shows, for every inode,
  its type, link count and slots.

  Key definitions include:
    * `cname`
    * `Node`
    * `File.node`
    * `Shows`

  Main rules are:
    * `dirlookup_rule`
    * `dirlink_rule`
-/

open List

open Prog (wp wp_bind wp_imp wp_pure wp_read)

-------
-- Names
-------

namespace Xv6

/- The C string in a field of `DIRSIZ` bytes. -/
def cname (l : List UInt8) : Name := (l.take DIRSIZ).takeWhile (· ≠ 0)

/- The first byte of a string and the rest of it. -/
theorem takeWhile_take_succ (n : Nat) (l : List UInt8) :
    (l.take (n + 1)).takeWhile (· ≠ 0) =
      if l.headD 0 = 0 then []
      else
        l.headD 0 :: (l.tail.take n).takeWhile (· ≠ 0) := by
  cases l with
  | nil => simp
  | cons a l =>
    by_cases ha : a = 0
    · simp [ha]
    · simp [ha]

theorem strncmp_eq_zero_iff (n : Nat) (p q : List UInt8) :
    strncmp n p q = 0 ↔ (p.take n).takeWhile (· ≠ 0) = (q.take n).takeWhile (· ≠ 0) := by
  induction n generalizing p q with
  | zero => simp [strncmp]
  | succ n ih =>
    have hEq : ((p.headD 0).toNat : Int) - (q.headD 0).toNat = 0 ↔ p.headD 0 = q.headD 0 := by
      rw [Int.sub_eq_zero, Int.natCast_inj, UInt8.toNat_inj]
    rw [strncmp, takeWhile_take_succ, takeWhile_take_succ]
    by_cases hp : p.headD 0 = 0
    · rw [if_neg (fun h => h.1 hp), hEq, hp]
      by_cases hq : q.headD 0 = 0
      · rw [hq]
        simp
      · rw [if_neg hq]
        exact ⟨fun h => absurd h.symm hq, fun h => by cases h⟩
    rw [if_neg hp]
    by_cases hpq : p.headD 0 = q.headD 0
    · rw [if_pos ⟨hp, hpq⟩, ih, ← hpq, if_neg hp]
      simp
    rw [if_neg (fun h => hpq h.2), hEq]
    by_cases hq : q.headD 0 = 0
    · rw [if_pos hq]
      exact ⟨fun h => absurd h hpq, fun h => by cases h⟩
    · rw [if_neg hq, cons.injEq]
      exact ⟨fun h => absurd h hpq, fun h => absurd h.1 hpq⟩

/- Names are compared as C strings. -/
theorem namecmp_eq_zero_iff (s t : Name) : namecmp s t = 0 ↔ cname s = cname t :=
  strncmp_eq_zero_iff DIRSIZ s t

-------
-- Entries
-------

/- What a directory entry says; empty if it is not used. -/
def Dirent.slot (de : Dirent) : Option (Name × Nat) :=
  if de.inum = 0 then none
  else some (cname de.name, de.inum)

theorem length_strncpy (n : Nat) (name : Name) : (strncpy n name).length = n := by
  have hLe : ((name.take n).takeWhile (· ≠ 0)).length ≤ n :=
    (takeWhile_sublist _).length_le.trans (length_take_le n name)
  simp only [strncpy, length_append, length_replicate]
  omega

theorem Dirent.length_encode (de : Dirent) : de.encode.length = 16 := by
  simp [encode, length_strncpy, DIRSIZ]

/- A stored name is read back as the same C string. -/
theorem cname_strncpy (name : Name) : cname (strncpy DIRSIZ name) = cname name := by
  have hTake : (strncpy DIRSIZ name).take DIRSIZ = strncpy DIRSIZ name :=
    take_of_length_le (Nat.le_of_eq (length_strncpy DIRSIZ name))
  have hAll : ∀ x ∈ (name.take DIRSIZ).takeWhile (· ≠ 0), decide (x ≠ 0) = true :=
    all_eq_true.mp all_takeWhile
  unfold cname
  rw [hTake, strncpy, takeWhile_append_of_pos hAll]
  simp

/- An entry that is stored is read back. -/
theorem Dirent.slot_decode_encode
    {inum : Nat} (name : Name) (hPos : 0 < inum) (hLt : inum < 2 ^ 16) :
    (Dirent.decode (Dirent.encode ⟨inum, name⟩)).slot = some (cname name, inum) := by
  have hTake : (Dirent.encode ⟨inum, name⟩).take 2 = encodeLE 2 inum := by simp [encode]
  have hDrop : ((Dirent.encode ⟨inum, name⟩).drop 2).take DIRSIZ = strncpy DIRSIZ name := by
    exact take_of_length_le (Nat.le_of_eq (length_strncpy DIRSIZ name))
  have hInum : decodeLE (encodeLE 2 inum) = inum := by
    rw [decodeLE_encodeLE]
    exact Nat.mod_eq_of_lt hLt
  unfold slot decode
  rw [hTake, hDrop, hInum]
  dsimp only
  rw [if_neg (by omega), cname_strncpy]

theorem Dirent.slot_decode_zero : (Dirent.decode (List.replicate 16 0)).slot = none := by decide

-------
-- Nodes
-------

/- What the name space shows of an inode. -/
@[ext]
structure Node where
  type : BitVec 16
  nlink : BitVec 16
  ents : List (Option (Name × Nat))

/- A free inode. -/
def Node.free : Node where
  type := 0
  nlink := 0
  ents := []

namespace File

variable {f : File}

/- Slot `k` of a directory. -/
def slot (f : File) (k : Nat) : Option (Name × Nat) := (Dirent.decode (f.read (16 * k) 16)).slot

/- The slots of a directory; other files have none. -/
def ents (f : File) : List (Option (Name × Nat)) :=
  if f.type = T_DIR then
    (List.range (f.size.toNat / 16)).map f.slot
  else []

def node (f : File) : Node where
  type := f.type
  nlink := f.nlink
  ents := f.ents

/- A directory has whole entries, of existing inodes. -/
structure DirOk (sb : Superblock) (f : File) : Prop where
  whole : f.type = T_DIR → f.size.toNat % 16 = 0
  ranged : ∀ name i, some (name, i) ∈ f.ents → i < sb.ninodes

theorem ents_of_dir (hDir : f.type = T_DIR) :
    f.ents = (List.range (f.size.toNat / 16)).map f.slot :=
  if_pos hDir

theorem ents_of_not_dir (hDir : f.type ≠ T_DIR) : f.ents = [] := if_neg hDir

theorem length_ents (hDir : f.type = T_DIR) : f.ents.length = f.size.toNat / 16 := by
  rw [ents_of_dir hDir]
  simp

theorem getElem_ents (hDir : f.type = T_DIR) {k : Nat} (hk : k < f.ents.length) :
    f.ents[k] = f.slot k := by
  simp only [ents_of_dir hDir, getElem_map, getElem_range]

/- Entries in use have an inode number. -/
theorem pos_of_mem_ents {name : Name} {i : Nat} (hMem : some (name, i) ∈ f.ents) : 0 < i := by
  unfold ents at hMem
  split at hMem
  · obtain ⟨k, _, hSlot⟩ := mem_map.mp hMem
    unfold slot Dirent.slot at hSlot
    split at hSlot
    · cases hSlot
    · next hInum =>
        cases hSlot
        exact Nat.pos_of_ne_zero hInum
  · cases hMem

theorem node_free : File.free.node = Node.free := by simp [node, ents, File.free, Node.free]

end File

/- Put an entry at slot `m`, or after the last one. -/
def setSlot (l : List (Option (Name × Nat))) (m : Nat) (e : Option (Name × Nat)) :
    List (Option (Name × Nat)) :=
  if m < l.length then l.set m e else l ++ [e]

variable {l : List (Option (Name × Nat))}

theorem getElem?_setSlot {m : Nat} (e : Option (Name × Nat))
    (hm : m ≤ l.length) (k : Nat) : (setSlot l m e)[k]? = if k = m then some e else l[k]? := by
  unfold setSlot
  by_cases hLt : m < l.length
  · grind
  · grind

theorem mem_setSlot {m : Nat} {e x : Option (Name × Nat)}
    (hm : m ≤ l.length) (h : x ∈ setSlot l m e) : x = e ∨ x ∈ l := by
  obtain ⟨k, hk⟩ := mem_iff_getElem?.mp h
  rw [getElem?_setSlot e hm] at hk
  split at hk
  · exact .inl (Option.some.inj hk).symm
  · exact .inr (mem_of_getElem? hk)

-------
-- Searching a Directory
-------

/-
  The first entry with the name, as the inode number and the
  slot of the entry; the first slot has the number `k`.
-/
def findEntry (name : Name) :
    Nat → List (Option (Name × Nat)) → Option (Nat × Nat)
| _, [] => none
| k, e :: l =>
    match e with
    | none => findEntry name (k + 1) l
    | some (nm, i) =>
      if cname name = nm then some (i, k)
      else findEntry name (k + 1) l

theorem findEntry_some {name : Name} {k i m : Nat}
    (h : findEntry name k l = some (i, m)) : k ≤ m ∧ l[m - k]? = some (some (cname name, i)) := by
  induction l generalizing k with
  | nil => cases h
  | cons e l ih =>
    have hRest (hFind : findEntry name (k + 1) l = some (i, m)) :
        k ≤ m ∧ (e :: l)[m - k]? = some (some (cname name, i)) := by
      obtain ⟨hLe, hGet⟩ := ih hFind
      have hSub : m - k = m - (k + 1) + 1 := by omega
      rw [hSub]
      exact ⟨by omega, hGet⟩
    cases e with
    | none => exact hRest h
    | some e =>
      obtain ⟨nm, j⟩ := e
      rw [findEntry] at h
      by_cases hName : cname name = nm
      · rw [if_pos hName] at h
        cases h
        simp [hName]
      · rw [if_neg hName] at h
        exact hRest h

theorem findEntry_eq_none_iff {name : Name} {k : Nat} :
    findEntry name k l = none ↔ ∀ i, some (cname name, i) ∉ l := by
  induction l generalizing k with
  | nil => simp [findEntry]
  | cons e l ih =>
    cases e with
    | none => simp [findEntry, ih]
    | some e =>
      obtain ⟨nm, j⟩ := e
      rw [findEntry]
      by_cases hName : cname name = nm
      · rw [if_pos hName]
        refine iff_of_false (by simp) (fun hAll => ?_)
        exact hAll j (by simp [hName])
      · rw [if_neg hName, ih]
        simp [hName]

section Search

variable {sb : Superblock} {dp : Nat} {s : Fs} {v : View File} {E : Halt → Fs → Prop}

variable {Q : Option (Nat × Nat) → Fs → Prop} {name : Name} {n k : Nat}

theorem readDirent_rule {Q : Dirent → Fs → Prop} {p : Panic} (h : At sb none s v)
    (hValid : v.valid dp = true) {k : Nat} (hk : 16 * k + 16 ≤ (v.file dp).size.toNat)
    (hQ : Q (Dirent.decode ((v.file dp).read (16 * k) 16)) s) :
    wp (readDirent sb dp (16 * k) p) Q E s := by
  have hOff : (BitVec.ofNat 32 (16 * k)).toNat = 16 * k := by
    rw [BitVec.toNat_ofNat]
    omega
  have hSixteen : (16 : BitVec 32).toNat = 16 := rfl
  have hMin : min 16 ((v.file dp).size.toNat - 16 * k) = 16 := by omega
  unfold readDirent
  rw [wp_bind]
  apply readi_rule h hValid
  · intro hShort
    simp only [BitVec.lt_def, BitVec.toNat_add] at hShort
    omega
  · intro _
    rw [hOff, hSixteen, hMin]
    dsimp only
    rw [if_neg (by simp), wp_pure]
    exact hQ
  · intro t dst hCopy
    cases hCopy

/- A loop over the slots reads the slots one by one. -/
variable (h : At sb none s v) (hValid : v.valid dp = true) (hDir : (v.file dp).type = T_DIR)
include h hValid hDir

theorem readDirent_slot {Q : Dirent → Fs → Prop} {p : Panic} {k : Nat}
    (hk : k < (v.file dp).ents.length)
    (hQ : ∀ de : Dirent, de.slot = (v.file dp).ents[k] → Q de s) :
    wp (readDirent sb dp (16 * k) p) Q E s := by
  have hSize := File.length_ents hDir
  apply readDirent_rule h hValid (by omega)
  exact hQ _ (File.getElem_ents hDir hk).symm

theorem dirlookupLoop_rule (hn : k + n = (v.file dp).ents.length)
    (hFound : ∀ i m, findEntry name k ((v.file dp).ents.drop k) = some (i, m) →
        wp (iget i) (fun ip s' => Q (some (ip, 16 * m)) s') E s)
    (hNone : findEntry name k ((v.file dp).ents.drop k) = none → Q none s) :
    wp (dirlookupLoop sb dp name n (16 * k)) Q E s := by
  induction n generalizing k with
  | zero =>
    rw [dirlookupLoop, wp_pure]
    apply hNone
    rw [drop_eq_nil_of_le (by omega), findEntry]
  | succ n ih =>
    have hk : k < (v.file dp).ents.length := by omega
    rw [drop_eq_getElem_cons hk] at hFound hNone
    rw [dirlookupLoop, wp_bind]
    apply readDirent_slot h hValid hDir hk
    intro de hSlot
    rw [← hSlot] at hFound hNone
    by_cases hInum : de.inum = 0
    · have hEmpty : de.slot = none := if_pos hInum
      rw [hEmpty] at hFound hNone
      rw [if_pos hInum]
      exact ih (by omega) hFound hNone
    have hUsed : de.slot = some (cname de.name, de.inum) := if_neg hInum
    rw [hUsed] at hFound hNone
    simp only [findEntry] at hFound hNone
    rw [if_neg hInum]
    by_cases hName : cname name = cname de.name
    · rw [if_pos hName] at hFound hNone
      rw [if_pos ((namecmp_eq_zero_iff _ _).mpr hName), wp_bind]
      exact wp_imp (hFound _ _ rfl) (fun ip s' hIp => (wp_pure _).mpr hIp)
    · rw [if_neg hName] at hFound hNone
      rw [if_neg (fun hCmp => hName ((namecmp_eq_zero_iff _ _).mp hCmp))]
      exact ih (by omega) hFound hNone

theorem dirlinkLoop_rule {Q : Nat → Fs → Prop} (hn : k + n = (v.file dp).ents.length)
    (hQ : Q (16 * (k + ((v.file dp).ents.drop k).findIdx Option.isNone)) s) :
    wp (dirlinkLoop sb dp n (16 * k)) Q E s := by
  induction n generalizing k with
  | zero =>
    rw [drop_eq_nil_of_le (by omega)] at hQ
    rw [dirlinkLoop, wp_pure]
    exact hQ
  | succ n ih =>
    have hk : k < (v.file dp).ents.length := by omega
    rw [drop_eq_getElem_cons hk, findIdx_cons] at hQ
    rw [dirlinkLoop, wp_bind]
    apply readDirent_slot h hValid hDir hk
    intro de hSlot
    rw [← hSlot] at hQ
    by_cases hInum : de.inum = 0
    · have hEmpty : de.slot = none := if_pos hInum
      rw [hEmpty] at hQ
      rw [if_pos hInum, wp_pure]
      exact hQ
    · have hUsed : de.slot = some (cname de.name, de.inum) := if_neg hInum
      rw [hUsed] at hQ
      rw [if_neg hInum]
      refine ih (k := k + 1) (by omega) ?_
      simpa [Nat.add_assoc, Nat.add_comm 1] using hQ

theorem isdiremptyLoop_rule {Q : Bool → Fs → Prop} (hn : k + n = (v.file dp).ents.length)
    (hQ : Q (((v.file dp).ents.drop k).all Option.isNone) s) :
    wp (isdiremptyLoop sb dp n (16 * k)) Q E s := by
  induction n generalizing k with
  | zero =>
    rw [drop_eq_nil_of_le (by omega)] at hQ
    rw [isdiremptyLoop, wp_pure]
    exact hQ
  | succ n ih =>
    have hk : k < (v.file dp).ents.length := by omega
    rw [drop_eq_getElem_cons hk] at hQ
    rw [isdiremptyLoop, wp_bind]
    apply readDirent_slot h hValid hDir hk
    intro de hSlot
    rw [← hSlot] at hQ
    by_cases hInum : de.inum = 0
    · have hEmpty : de.slot = none := if_pos hInum
      rw [hEmpty] at hQ
      rw [if_neg (fun hNe => hNe hInum)]
      exact ih (k := k + 1) (by omega) (by simpa using hQ)
    · have hUsed : de.slot = some (cname de.name, de.inum) := if_neg hInum
      rw [hUsed] at hQ
      rw [if_pos hInum, wp_pure]
      exact hQ

/- The loops over a directory visit all of its slots. -/
theorem slots_eq (hWhole : (v.file dp).size.toNat % 16 = 0) :
    slots s dp = (v.file dp).ents.length := by
  rw [slots, File.length_ents hDir, ← h.size_eq hValid]
  omega

theorem dirlookup_rule (hWhole : (v.file dp).size.toNat % 16 = 0)
    (hFound : ∀ i m, findEntry name 0 (v.file dp).ents = some (i, m) →
        wp (iget i) (fun ip s' => Q (some (ip, 16 * m)) s') E s)
    (hNone : findEntry name 0 (v.file dp).ents = none → Q none s) :
    wp (dirlookup sb dp name) Q E s := by
  have hType : (s.copy dp).type = T_DIR := by
    rw [← h.type_eq hValid]
    exact hDir
  unfold dirlookup
  rw [wp_bind, wp_read, if_neg (fun hNe => hNe hType), slots_eq h hValid hDir hWhole]
  exact dirlookupLoop_rule h hValid hDir (Nat.zero_add _) hFound hNone

/-
  A new entry is written to the first empty slot, unless the
  name exists.
-/
theorem dirlink_rule {Q : Int → Fs → Prop} {inum : Nat}
    (hWhole : (v.file dp).size.toNat % 16 = 0)
    (hFound : ∀ i m, findEntry name 0 (v.file dp).ents = some (i, m) →
        wp (iget i >>= iput sb) (fun _ s' => Q (-1) s') E s)
    (hNone : findEntry name 0 (v.file dp).ents = none → wp (writeDirent sb dp
            (16 * (v.file dp).ents.findIdx Option.isNone)
            (Dirent.encode ⟨inum, name⟩))
          (fun r s' => Q (if r = 16 then 0 else -1) s') E s) :
    wp (dirlink sb dp name inum) Q E s := by
  unfold dirlink
  rw [wp_bind]
  apply dirlookup_rule h hValid hDir hWhole
  · intro i m hFind
    have hPut := hFound i m hFind
    rw [wp_bind] at hPut
    refine wp_imp hPut (fun ip s' hIp => ?_)
    rw [wp_bind]
    exact wp_imp hIp (fun _ s'' hQ => (wp_pure _).mpr hQ)
  intro hFind
  rw [wp_bind, wp_read, wp_bind, slots_eq h hValid hDir hWhole]
  apply dirlinkLoop_rule h hValid hDir (Nat.zero_add _)
  rw [Nat.zero_add, wp_bind]
  refine wp_imp (hNone hFind) (fun r s' hQ => ?_)
  by_cases hr : r = 16
  · rw [if_pos hr] at hQ
    rw [if_neg (fun hNe => hNe hr), wp_pure]
    exact hQ
  · rw [if_neg hr] at hQ
    rw [if_pos hr, wp_pure]
    exact hQ

end Search

-------
-- Writing an Entry
-------

/- The number of entries of the largest directory. -/
def MAXENTS : Nat := MAXFILE * BSIZE / 16

/- The slots after a list of 16 bytes has been written. -/
theorem FileWritten.slot {f f' : File} {m last : Nat} {l : List UInt8} {c : Prop} (hc : c)
    (h : FileWritten f f' (16 * m) last (fun k => l.getD k 0) c)
    (hl : l.length = 16) (hLast : last = 16 * m ∨ last = 16 * m + 16) (k : Nat) :
    f'.slot k =
      if k = m ∧ last = 16 * m + 16 then
        (Dirent.decode l).slot
      else f.slot k := by
  have hByte := fun o => h.bytes o (.inl hc)
  have hRead : f'.read (16 * k) 16 =
        if k = m ∧ last = 16 * m + 16 then l
        else f.read (16 * k) 16 := by
    apply ext_getElem
    · split
      · rw [File.length_read, hl]
      · rw [File.length_read, File.length_read]
    intro j hj hj'
    rw [File.length_read] at hj
    by_cases hHit : k = m ∧ last = 16 * m + 16
    · have hSub : 16 * m + j - 16 * m = j := by omega
      simp only [File.read, hHit, hByte, getElem_map, getElem_range]
      rw [if_pos (by omega), hSub]
      exact (getElem_eq_getD 0).symm
    · simp only [File.read, hHit, hByte, getElem_map, getElem_range, if_false]
      rw [if_neg (by omega)]
  unfold File.slot
  rw [hRead]
  split <;> rfl

/- A directory after one of its slots has been written. -/
theorem FileWritten.ents {f f' : File} {m last : Nat} {l : List UInt8} {c : Prop} (hc : c)
    (h : FileWritten f f' (16 * m) last (fun k => l.getD k 0) c)
    (hl : l.length = 16) (hLast : last = 16 * m ∨ last = 16 * m + 16)
    (hDir : f.type = T_DIR) (hm : m ≤ f.ents.length) :
    f'.ents =
      if last = 16 * m + 16 then
        setSlot f.ents m (Dirent.decode l).slot
      else f.ents := by
  have hType : f'.type = T_DIR := by
    rw [h.sameMeta]
    exact hDir
  have hSize := h.size
  have hGet (g : File) (hg : g.type = T_DIR) (k : Nat) : g.ents[k]? =
        if k < g.size.toNat / 16 then some (g.slot k)
        else none := by
    rw [File.ents_of_dir hg, getElem?_map]
    split
    · rw [getElem?_range ‹_›, Option.map_some]
    · rw [getElem?_eq_none (by simp; omega), Option.map_none]
  apply ext_getElem?
  intro k
  by_cases hEnd : last = 16 * m + 16
  · rw [if_pos hEnd, getElem?_setSlot _ hm, hGet f' hType, h.slot hc hl hLast]
    grind
  · rw [hGet f' hType, h.slot hc hl hLast, hSize]
    grind

/- The same directory with another entry at slot `m`. -/
def Node.setEnt (nd : Node) (m : Nat) (e : Option (Name × Nat)) : Node :=
  { nd with ents := setSlot nd.ents m e }

section WriteEntry

variable {sb : Superblock} {dp : Nat} {s : Fs} {v : View File} {E : Halt → Fs → Prop}

/-
  Writing an entry fails only at the end of a directory, when
  the directory has its largest size or the disk may be full.
-/
theorem writeDirent_rule {Q : Int → Fs → Prop} (h : At sb none s v) (hValid : v.valid dp = true)
    (hDir : (v.file dp).type = T_DIR) (hWhole : (v.file dp).size.toNat % 16 = 0)
    {m : Nat} (hm : m ≤ (v.file dp).ents.length) {l : List UInt8} (hl : l.length = 16)
    (hDone : ∀ s' f', At sb none s' (v.setFile dp f') → f'.node =
          (v.file dp).node.setEnt m (Dirent.decode l).slot →
        f'.size.toNat % 16 = 0 →
        Q 16 s')
    (hFail : ∀ r s' f', r ≠ 16 → At sb none s' (v.setFile dp f') → f'.node = (v.file dp).node →
        f'.size.toNat % 16 = 0 →
        m = (v.file dp).ents.length →
        v.Full sb ∨ MAXENTS ≤ (v.file dp).ents.length →
        Q r s') : wp (writeDirent sb dp (16 * m) l) Q E s := by
  have hShaped : (v.file dp).Shaped := by
    rw [← h.file]
    exact h.inv.shaped dp (by simp)
  have hMax := hShaped.1
  simp only [MAXFILE, NDIRECT, NINDIRECT, BSIZE] at hMax
  have hLen := File.length_ents hDir
  have hOff : (BitVec.ofNat 32 (16 * m)).toNat = 16 * m := by
    rw [BitVec.toNat_ofNat]
    omega
  have hSixteen : (16 : BitVec 32).toNat = 16 := rfl
  apply writei_rule h hValid
  · -- only a directory of the largest size is refused
    intro hRefuse
    simp only [BitVec.lt_def, BitVec.toNat_add, MAXFILE, NDIRECT, NINDIRECT, BSIZE]
      at hRefuse
    apply hFail (-1) s (v.file dp) (by decide)
    · rw [View.setFile_self]
      exact h
    · rfl
    · exact hWhole
    · omega
    · right
      simp only [MAXENTS, MAXFILE, NDIRECT, NINDIRECT, BSIZE]
      omega
  intro s' f' last hLe hLimit h' hWritten hFrom hEnd
  rw [hOff] at *
  have hLast : last = 16 * m ∨ last = 16 * m + 16 := by
    rcases hEnd with hEnd | ⟨_, hTo, hEnd | hEnd⟩
    · exact .inr hEnd
    · exact .inl hEnd
    · simp only [BSIZE] at hEnd
      omega
  have hEnts := hWritten.ents (.inl fun _ => rfl) hl hLast hDir hm
  have hSize := hWritten.size
  have hWhole' : f'.size.toNat % 16 = 0 := by omega
  have hType : f'.type = (v.file dp).type := by rw [hWritten.sameMeta]
  have hNlink : f'.nlink = (v.file dp).nlink := by rw [hWritten.sameMeta]
  by_cases hAll : last = 16 * m + 16
  · rw [if_pos hAll] at hEnts
    have hTot : ((last - 16 * m : Nat) : Int) = 16 := by omega
    rw [hTot]
    refine hDone s' f' h' ?_ hWhole'
    exact Node.ext hType hNlink hEnts
  rw [if_neg hAll] at hEnts
  rcases hEnd with hEnd | ⟨hStops, _, _⟩
  · exact absurd hEnd hAll
  rcases hStops with ⟨hFull, hBlock⟩ | ⟨t, hCopy⟩
  · refine hFail _ s' f' (by omega) h' (Node.ext hType hNlink hEnts) hWhole' ?_ (.inl hFull)
    -- a slot of the directory lies in a mapped block
    by_contra hNe
    have hLt : last < (v.file dp).size.toNat := by omega
    have hMapped := hShaped.2 (last / BSIZE) (Nat.lt_of_le_of_lt
        (Nat.div_mul_le_self last BSIZE) hLt)
    rw [hBlock] at hMapped
    cases hMapped
  · exact absurd rfl hCopy

end WriteEntry

end Xv6
