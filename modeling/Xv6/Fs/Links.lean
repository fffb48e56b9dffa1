import Xv6.Fs.Consistency
import Mathlib.Algebra.Order.BigOperators.Group.Finset

/-
  Link counts and the tree of directories.

  The name space is read as a graph: an edge leads from a
  directory to an inode that one of its entries names. Each
  system call adds or removes single edges, and the link
  counts follow.

  Key definitions include:
    * `linksTo`
    * `LinksExact`
    * `Tidy`

  The main result is `link_counts_stay_exact`.
-/

open Function Xv6.Node List Option

open Prog (wp)

-------
-- Entries
-------

namespace Xv6

namespace Node

/- Entry `a` has the name `nm` and leads to inode `i`. -/
def Entry (nd : Node) (a : Nat) (nm : Name) (i : Nat) : Prop := nd.ents[a]? = some (some (nm, i))

/- Entry `a` leads to `i` by a name that is not a dot name. -/
def Child (nd : Node) (a i : Nat) : Prop := ∃ nm, nd.Entry a nm i ∧ nm ≠ dot ∧ nm ≠ dotdot

/- The link count is at least one. -/
def Live (nd : Node) : Prop := 1 ≤ nd.nlink.toInt

instance (nd : Node) : Decidable nd.Live := inferInstanceAs (Decidable (_ ≤ _))

section Entries

variable {nd : Node} {a m i j : Nat} {nm nm' : Name}

theorem Entry.mem (h : nd.Entry a nm i) : some (nm, i) ∈ nd.ents := List.mem_of_getElem? h

theorem Entry.unique (h : nd.Entry a nm i) (h' : nd.Entry a nm' j) : nm' = nm ∧ j = i := by
  have hEq := h.symm.trans h'
  cases hEq
  exact ⟨rfl, rfl⟩

theorem exists_entry (h : some (nm, i) ∈ nd.ents) : ∃ a, nd.Entry a nm i :=
  mem_iff_getElem?.mp h

/- One entry is replaced. -/
theorem entry_setEnt {e : Option (Name × Nat)} (hm : m ≤ nd.ents.length) :
    (nd.setEnt m e).Entry a nm i ↔
      if a = m then e = some (nm, i) else nd.Entry a nm i := by
  unfold Entry setEnt
  rw [getElem?_setSlot e hm]
  split
  · exact some_inj
  · rfl

/- A new entry goes to a slot that is empty. -/
theorem not_entry_findIdx : ¬ nd.Entry (nd.ents.findIdx Option.isNone) nm i := by
  intro h
  obtain ⟨hLt, hGet⟩ := List.getElem?_eq_some_iff.mp h
  have hNone := List.findIdx_getElem (w := hLt)
  rw [hGet] at hNone
  cases hNone

theorem entry_addEnt {name : Name} :
    (nd.addEnt name j).Entry a nm i ↔ (a = nd.ents.findIdx Option.isNone ∧
        nm = cname name ∧ i = j) ∨ nd.Entry a nm i := by
  unfold addEnt
  rw [entry_setEnt findIdx_le_length]
  by_cases ha : a = nd.ents.findIdx isNone
  · rw [if_pos ha]
    constructor
    · intro hEq
      cases hEq
      exact .inl ⟨ha, rfl, rfl⟩
    · rintro (⟨_, rfl, rfl⟩ | h)
      · rfl
      · rw [ha] at h
        exact absurd h not_entry_findIdx
  · rw [if_neg ha]
    constructor
    · exact .inr
    · rintro (⟨h, _⟩ | h)
      · exact absurd h ha
      · exact h

/- An empty directory has no entries but the dot names. -/
theorem Empty.lt_two (hEmpty : nd.Empty) (h : nd.Entry a nm i) : a < 2 := by
  by_contra ha
  have hMem : some (nm, i) ∈ nd.ents.drop 2 := by
    refine mem_iff_getElem?.mpr ⟨a - 2, ?_⟩
    rw [getElem?_drop]
    have ha' : 2 + (a - 2) = a := by omega
    rw [ha']
    exact h
  have hNone := all_eq_true.mp hEmpty _ hMem
  cases hNone

end Entries

end Node

-------
-- Counting Links
-------

/- Does an entry lead to `i` by another name than `.`? -/
def linksEntry (i : Nat) (e : Option (Name × Nat)) : Bool :=
  match e with
  | none => false
  | some (nm, j) => j = i ∧ nm ≠ dot

/- The entries of a directory that link to `i`. -/
def Node.links (nd : Node) (i : Nat) : Nat := nd.ents.countP (linksEntry i)

/- The links from a directory that has links itself. -/
def Node.gives (nd : Node) (i : Nat) : Nat := if nd.Live then nd.links i else 0

/- All links to `i` from the first `K` inodes. -/
def linksTo (K : Nat) (N : Nat → Node) (i : Nat) : Nat := ∑ d ∈ Finset.range K, (N d).gives i

section Count

variable {nd : Node} {m i j : Nat}

variable {nm : Name}

theorem linksEntry_some : linksEntry i (some (nm, j)) = true ↔ j = i ∧ nm ≠ dot := by
  simp [linksEntry]

/- What one slot contributes. -/
theorem Node.links_setEnt {e : Option (Name × Nat)} :
    (nd.setEnt m e).links i + (if linksEntry i nd.ents[m]?.join then 1 else 0) =
      nd.links i + (if linksEntry i e then 1 else 0) := by
  unfold links setEnt setSlot
  by_cases hLt : m < nd.ents.length
  · have hOld : nd.ents[m]?.join = nd.ents[m] := by
      rw [getElem?_eq_getElem hLt]
      rfl
    have hLe : (if linksEntry i nd.ents[m] then 1 else 0) ≤ nd.ents.countP (linksEntry i) := by
      split
      · next h => exact countP_pos_iff.mpr ⟨_, getElem_mem hLt, h⟩
      · exact Nat.zero_le _
    rw [if_pos hLt, countP_set hLt, hOld]
    omega
  · have hNone : nd.ents[m]? = none := getElem?_eq_none (Nat.le_of_not_lt hLt)
    rw [if_neg hLt, hNone]
    simp [linksEntry]

theorem Node.links_addEnt {name : Name} (hName : cname name ≠ dot) :
    (nd.addEnt name j).links i = nd.links i + (if i = j then 1 else 0) := by
  have hCount :=
    nd.links_setEnt (i := i) (e := some (cname name, j)) (m := nd.ents.findIdx isNone)
  have hOld : nd.ents[nd.ents.findIdx isNone]?.join = none := by
    cases hGet : nd.ents[nd.ents.findIdx isNone]? with
    | none => rfl
    | some e =>
      cases e with
      | none => rfl
      | some p => exact absurd hGet not_entry_findIdx
  rw [hOld] at hCount
  simpa [linksEntry, hName, eq_comm, addEnt] using hCount

theorem Node.links_clear (h : nd.Entry m nm j) (hName : nm ≠ dot) :
    (nd.setEnt m none).links i + (if i = j then 1 else 0) = nd.links i := by
  have hCount := nd.links_setEnt (i := i) (e := none) (m := m)
  rw [show nd.ents[m]? = some (some (nm, j)) from h] at hCount
  simpa [linksEntry, hName, eq_comm] using hCount

theorem Node.links_pos {a : Nat} (h : nd.Entry a nm i) (hName : nm ≠ dot) :
    0 < nd.links i :=
  countP_pos_iff.mpr ⟨_, h.mem, linksEntry_some.mpr ⟨rfl, hName⟩⟩

theorem Node.gives_of_live (h : nd.Live) : nd.gives i = nd.links i := if_pos h

theorem Node.gives_of_dead (h : ¬ nd.Live) : nd.gives i = 0 := if_neg h

theorem Node.gives_of_nil (h : nd.ents = []) : nd.gives i = 0 := by
  unfold gives links
  rw [h]
  exact ite_self 0

variable {K : Nat} {N : Nat → Node} {d : Nat}

/- One directory is replaced. -/
theorem linksTo_update (hd : d < K) (nd : Node) (i : Nat) :
    linksTo K (update N d nd) i + (N d).gives i = linksTo K N i + nd.gives i := by
  have hMem : d ∈ Finset.range K := Finset.mem_range.mpr hd
  unfold linksTo
  rw [← Finset.add_sum_erase _ _ hMem, ← Finset.add_sum_erase (Finset.range K)
      (fun d => (N d).gives i) hMem,
    update_self]
  have hRest : ∑ x ∈ (Finset.range K).erase d, (update N d nd x).gives i =
        ∑ x ∈ (Finset.range K).erase d, (N x).gives i := by
    refine Finset.sum_congr rfl ?_
    intro x hx
    rw [update_of_ne (Finset.ne_of_mem_erase hx)]
  omega

theorem gives_le_linksTo (hd : d < K) : (N d).gives i ≤ linksTo K N i :=
  Finset.single_le_sum (f := fun d => (N d).gives i)
    (fun _ _ => Nat.zero_le _) (Finset.mem_range.mpr hd)

/- Nobody links to an inode without links. -/
theorem eq_dot_of_linksTo (hZero : linksTo K N i = 0) (hd : d < K) (hLive : (N d).Live) {a : Nat}
    {nm : Name} (h : (N d).Entry a nm i) : nm = dot := by
  by_contra hName
  have hPos := links_pos h hName
  have hLe := gives_le_linksTo (i := i) (N := N) hd
  rw [gives_of_live hLive] at hLe
  omega

theorem linksTo_eq_zero (h : ∀ d a nm, (N d).Live → (N d).Entry a nm i → nm = dot) :
    linksTo K N i = 0 := by
  refine Finset.sum_eq_zero ?_
  intro d _
  by_cases hLive : (N d).Live
  · rw [gives_of_live hLive]
    refine countP_eq_zero.mpr ?_
    intro e he hLink
    cases e with
    | none => cases hLink
    | some p =>
      obtain ⟨nm, j⟩ := p
      obtain ⟨rfl, hName⟩ := linksEntry_some.mp hLink
      obtain ⟨a, ha⟩ := exists_entry he
      exact hName (h d a nm hLive ha)
  · exact gives_of_dead hLive

end Count

-------
-- Tidy Name Spaces
-------

/-
  Link counts are exact, directories start with the dot
  names, and names in a directory are different.
-/
structure LinksExact (K : Nat) (N : Nat → Node) : Prop where
  exact : ∀ i, (N i).type ≠ 0 → (N i).nlink.toInt = linksTo K N i
  dots : ∀ d, (N d).type = T_DIR →
    (∃ i, (N d).Entry 0 dot i) ∧ ∃ p, (N d).Entry 1 dotdot p
  distinct : ∀ d a b nm i j, (N d).Entry a nm i → (N d).Entry b nm j → a = b

/-
  In addition, linked directories name allocated inodes, and
  they form a tree: each has one name, in the directory that
  its entry `..` leads to. The root has no name.
-/
structure Tidy (K : Nat) (N : Nat → Node) : Prop where
  links : LinksExact K N
  self : ∀ d, (N d).type = T_DIR → (N d).Entry 0 dot d
  present : ∀ d a nm i, (N d).Live → (N d).Entry a nm i → (N i).type ≠ 0
  below : ∀ d a i, (N d).Live → (N d).Child a i → (N i).type = T_DIR →
        i ≠ ROOTINO ∧ (N i).Entry 1 dotdot d
  once : ∀ d a b i, (N d).Live → (N d).Child a i → (N d).Child b i →
    (N i).type = T_DIR → a = b
  named : ∀ i, (N i).type = T_DIR → (N i).Live → i ≠ ROOTINO →
    ∃ d a, (N d).Live ∧ (N d).Child a i
  root : (N ROOTINO).type = T_DIR ∧ (N ROOTINO).Live
  top : (N ROOTINO).Entry 1 dotdot ROOTINO

/- What holds of the nodes of every consistent state. -/
structure Formed (K : Nat) (N : Nat → Node) : Prop where
  free : ∀ i, (N i).type = 0 → N i = Node.free
  plain : ∀ i, (N i).type ≠ T_DIR → (N i).ents = []
  bound : ∀ i, (N i).type ≠ 0 → i < K

theorem Shows.formed {sb : Superblock} {s : Fs} {n : View Node} (h : Shows sb s n) :
    Formed sb.ninodes n.file where
  free := fun _ => h.file_of_free
  plain := fun _ => h.ents_of_not_dir
  bound := fun _ => h.lt_ninodes

section Facts

variable {K : Nat} {N : Nat → Node} {d i : Nat}

variable {a : Nat} {nm : Name}

/- Only directories have entries. -/
theorem Formed.dir_of_entry (h : Formed K N) (hEntry : (N d).Entry a nm i) :
    (N d).type = T_DIR := by
  by_contra hDir
  have hMem := hEntry.mem
  rw [h.plain d hDir] at hMem
  cases hMem

/- Directories are allocated. -/
theorem Node.allocated_of_dir {nd : Node} (h : nd.type = T_DIR) : nd.type ≠ 0 := by
  rw [h]
  decide

theorem Formed.lt_of_dir (h : Formed K N) (hDir : (N d).type = T_DIR) : d < K :=
  h.bound d (allocated_of_dir hDir)

theorem Formed.lt_of_entry (h : Formed K N) (hEntry : (N d).Entry a nm i) : d < K :=
  h.lt_of_dir (h.dir_of_entry hEntry)

/- A link count of zero. -/
theorem Node.dead_of_zero {nd : Node} (h : nd.nlink = 0) : ¬ nd.Live := by
  unfold Node.Live
  rw [h]
  decide

theorem Node.dead_free : ¬ Node.free.Live := Node.dead_of_zero rfl

theorem Formed.dead_of_gone (h : Formed K N) (hGone : (N i).type = 0 ∨ (N i).nlink = 0) :
    ¬ (N i).Live := by
  rcases hGone with hFree | hZero
  · rw [h.free i hFree]
    exact dead_free
  · exact dead_of_zero hZero

/- The dot names are at the first two places only. -/
theorem Tidy.eq_self (h : Tidy K N) (hDir : (N d).type = T_DIR)
    (hEntry : (N d).Entry a dot i) : i = d := by
  have hSelf := h.self d hDir
  have ha := h.links.distinct d a 0 dot i d hEntry hSelf
  subst ha
  exact (hSelf.unique hEntry).2

theorem Tidy.dotdot_pos (h : Tidy K N) (hFormed : Formed K N)
    (hEntry : (N d).Entry a dotdot i) : a = 1 := by
  obtain ⟨_, p, hp⟩ := h.links.dots d (hFormed.dir_of_entry hEntry)
  exact h.links.distinct d a 1 dotdot i p hEntry hp

/- Nobody names an inode that is free or has no links. -/
theorem Tidy.linksTo_eq_zero (h : Tidy K N) (hGone : (N i).type = 0 ∨ (N i).nlink = 0) :
    linksTo K N i = 0 := by
  by_cases hType : (N i).type = 0
  · refine Xv6.linksTo_eq_zero ?_
    intro d a nm hLive hEntry
    exact absurd hType (h.present d a nm i hLive hEntry)
  · have hExact := h.links.exact i hType
    rw [hGone.resolve_left hType] at hExact
    exact Int.natCast_eq_zero.mp hExact.symm

theorem Tidy.not_named (h : Tidy K N) (hGone : (N i).type = 0 ∨ (N i).nlink = 0)
    (hDead : ¬ (N i).Live) (hd : d < K) (hDir : (N d).type = T_DIR)
    (hLive : (N d).Live) (hEntry : (N d).Entry a nm i) : False := by
  have hDot := eq_dot_of_linksTo (h.linksTo_eq_zero hGone) hd hLive hEntry
  subst hDot
  have hSelf := h.eq_self hDir hEntry
  subst hSelf
  exact hDead hLive

end Facts

/- Inodes without links may be freed. -/
theorem Tidy.freed {K : Nat} {N N' : Nat → Node} (h : Tidy K N) (hFormed : Formed K N')
    (hFile : ∀ i, N' i = N i ∨ N' i = Node.free ∧ (N i).nlink = 0) : Tidy K N' := by
  have hSame (d : Nat) (hLive : (N d).Live) : N' d = N d := by
    rcases hFile d with hEq | ⟨_, hZero⟩
    · exact hEq
    · exact absurd hLive (dead_of_zero hZero)
  have hOld (d : Nat) (hNe : N' d ≠ free) : N' d = N d := by
    rcases hFile d with hEq | ⟨hFree, _⟩
    · exact hEq
    · exact absurd hFree hNe
  have hLive (d : Nat) (hLive : (N' d).Live) : N' d = N d := by
    refine hOld d (fun hFree => ?_)
    rw [hFree] at hLive
    exact dead_free hLive
  have hType (d : Nat) (hType : (N' d).type ≠ 0) : N' d = N d := by
    refine hOld d (fun hFree => ?_)
    rw [hFree] at hType
    exact hType rfl
  have hDir (d : Nat) (hDir : (N' d).type = T_DIR) : N' d = N d :=
    hType d (allocated_of_dir hDir)
  have hEntry {d a i : Nat} {nm : Name} (hEntry : (N' d).Entry a nm i) : N' d = N d := by
    refine hOld d (fun hFree => ?_)
    rw [hFree] at hEntry
    cases hEntry.mem
  have hKept {d a i : Nat} {nm : Name} (hd : (N d).Live)
      (hEntry : (N d).Entry a nm i) : N' i = N i := by
    rcases hFile i with hEq | ⟨_, hZero⟩
    · exact hEq
    have hd' : (N' d).Entry a nm i := by
      rw [hSame d hd]
      exact hEntry
    refine (h.not_named (.inr hZero) (dead_of_zero hZero)
      (hFormed.lt_of_entry hd') ?_ hd hEntry).elim
    rw [← hSame d hd]
    exact hFormed.dir_of_entry hd'
  have hLinks (i : Nat) : linksTo K N' i = linksTo K N i := by
    refine Finset.sum_congr rfl ?_
    intro d _
    rcases hFile d with hEq | ⟨hFree, hZero⟩
    · rw [hEq]
    · rw [hFree, gives_of_dead dead_free, gives_of_dead (dead_of_zero hZero)]
  have hRoot := hSame ROOTINO h.root.2
  refine
    { links :=
        { exact := fun i hi => ?_
          dots := fun d hd => ?_
          distinct := fun d a b nm i j ha hb => ?_ }
      self := fun d hd => ?_
      present := fun d a nm i hd ha => ?_
      below := fun d a i hd ha hi => ?_
      once := fun d a b i hd ha hb hi => ?_
      named := fun i hi hLive' hne => ?_
      root := ?_
      top := ?_ }
  · have hEq := hType i hi
    rw [hEq] at hi ⊢
    rw [hLinks]
    exact h.links.exact i hi
  · have hEq := hDir d hd
    rw [hEq] at hd ⊢
    exact h.links.dots d hd
  · have hEq := hEntry ha
    rw [hEq] at ha hb
    exact h.links.distinct d a b nm i j ha hb
  · have hEq := hDir d hd
    rw [hEq] at hd ⊢
    exact h.self d hd
  · have hEq := hLive d hd
    rw [hEq] at hd ha
    rw [hKept hd ha]
    exact h.present d a nm i hd ha
  · have hEq := hLive d hd
    have hEq' := hDir i hi
    rw [hEq] at hd ha
    rw [hEq'] at hi ⊢
    exact h.below d a i hd ha hi
  · have hEq := hLive d hd
    have hEq' := hDir i hi
    rw [hEq] at hd ha hb
    rw [hEq'] at hi
    exact h.once d a b i hd ha hb hi
  · have hEq := hDir i hi
    rw [hEq] at hi hLive'
    obtain ⟨d, a, hd, ha⟩ := h.named i hi hLive' hne
    refine ⟨d, a, ?_⟩
    rw [hSame d hd]
    exact ⟨hd, ha⟩
  · rw [hRoot]
    exact h.root
  · rw [hRoot]
    exact h.top

-------
-- Adding and Removing Links
-------

/- Link counts that do not overflow. -/
theorem toInt_add_one {x : BitVec 16} (h : x.toInt ≠ 32767) : (x + 1).toInt = x.toInt + 1 := by
  rw [BitVec.toInt_eq_toNat_cond] at h ⊢
  rw [BitVec.toInt_eq_toNat_cond, BitVec.toNat_add]
  have hOne : (1 : BitVec 16).toNat = 1 := rfl
  split at h
  · omega
  · split
    · omega
    · omega

theorem toInt_sub_one {x : BitVec 16} (h : 1 ≤ x.toInt) : (x - 1).toInt = x.toInt - 1 := by
  rw [BitVec.toInt_eq_toNat_cond] at h ⊢
  rw [BitVec.toInt_eq_toNat_cond, BitVec.toNat_sub]
  have hOne : (1 : BitVec 16).toNat = 1 := rfl
  split at h
  · omega
  · omega

section Created

variable {K : Nat} {N : Nat → Node} {dp ip : Nat} {name : Name} {type : BitVec 16}

/- A name that is not found is not a dot name. -/
theorem Tidy.not_dots (h : Tidy K N) (hDir : (N dp).type = T_DIR)
    (hFind : findEntry name 0 (N dp).ents = none) : cname name ≠ dot ∧ cname name ≠ dotdot := by
  have hNone := findEntry_eq_none_iff.mp hFind
  obtain ⟨⟨i, hi⟩, p, hp⟩ := h.links.dots dp hDir
  constructor
  · intro hEq
    exact hNone i (hEq ▸ hi.mem)
  · intro hEq
    exact hNone p (hEq ▸ hp.mem)

theorem entry_newNode {a i : Nat} {nm : Name} :
    (newNode type dp ip).Entry a nm i ↔ type = T_DIR ∧
        (a = 0 ∧ nm = dot ∧ i = ip ∨ a = 1 ∧ nm = dotdot ∧ i = dp) := by
  unfold Node.Entry newNode
  by_cases hType : type = T_DIR
  · simp only [hType]
    match a with
    | 0 => simp [eq_comm]
    | 1 => simp [eq_comm]
    | a + 2 => simp
  · rw [if_neg hType]
    exact iff_of_false (by simp) (fun h => hType h.1)

theorem live_newNode : (newNode type dp ip).Live := by
  change 1 ≤ (1 : BitVec 16).toInt
  decide

theorem links_newNode (i : Nat) :
    (newNode type dp ip).links i =
      if type = T_DIR ∧ i = dp then 1 else 0 := by
  unfold links newNode
  by_cases hType : type = T_DIR
  · simp [hType, linksEntry, eq_comm]
  · rw [if_neg hType, if_neg (fun h => hType h.1)]
    rfl

/- The entries after an inode has been created. -/
theorem entry_created (hne : ip ≠ dp) {d a i : Nat} {nm : Name} :
    (created N dp ip name type d).Entry a nm i ↔ d = dp ∧ a = (N dp).ents.findIdx Option.isNone ∧
          nm = cname name ∧ i = ip ∨
        d = ip ∧ (newNode type dp ip).Entry a nm i ∨
        d ≠ ip ∧ (N d).Entry a nm i := by
  unfold created
  by_cases hdp : d = dp
  · subst hdp
    rw [update_self]
    change ((N d).addEnt name ip).Entry a nm i ↔ _
    rw [entry_addEnt]
    have hne' := hne.symm
    simp [hne']
  · rw [update_of_ne hdp]
    by_cases hip : d = ip
    · subst hip
      simp [hdp]
    · simp [hdp, hip]

theorem live_created (hne : ip ≠ dp) (hLive : (N dp).Live)
    (hMax : type = T_DIR → (N dp).nlink.toInt ≠ 32767) (d : Nat) :
    (created N dp ip name type d).Live ↔ d = ip ∨ (N d).Live := by
  unfold created
  by_cases hdp : d = dp
  · subst hdp
    rw [update_self]
    unfold Node.Live at *
    have hne' := hne.symm
    simp only [hne', false_or, hLive, iff_true]
    split
    · next hTDir =>
        rw [toInt_add_one (hMax hTDir)]
        omega
    · exact hLive
  · rw [update_of_ne hdp]
    by_cases hip : d = ip
    · subst hip
      rw [update_self]
      simp only [true_or, iff_true]
      exact live_newNode
    · simp [hip]

theorem linksTo_created (hne : ip ≠ dp) (hip : ip < K) (hdp : dp < K) (hDead : ¬ (N ip).Live)
    (hLive : (N dp).Live) (hMax : type = T_DIR → (N dp).nlink.toInt ≠ 32767)
    (hName : cname name ≠ dot) (i : Nat) :
    linksTo K (created N dp ip name type) i = linksTo K N i + (if i = ip then 1 else 0) +
        (if type = T_DIR ∧ i = dp then 1 else 0) := by
  have hNew := linksTo_update (N := N) hip (newNode type dp ip) i
  have hOld := linksTo_update (N := update N ip (newNode type dp ip)) hdp
    (created N dp ip name type dp) i
  have hSelf : (created N dp ip name type dp).gives i =
        (N dp).links i + (if i = ip then 1 else 0) := by
    rw [gives_of_live ((live_created hne hLive hMax dp).mpr (.inr hLive))]
    unfold created
    rw [update_self]
    exact links_addEnt hName
  have hCreated : created N dp ip name type = update (update N ip (newNode type dp ip)) dp
          (created N dp ip name type dp) := by
    unfold created
    rw [update_self]
  rw [update_of_ne hne.symm, gives_of_live hLive, ← hCreated] at hOld
  rw [gives_of_dead hDead, gives_of_live live_newNode, links_newNode] at hNew
  omega

theorem nlink_created (hne : ip ≠ dp) (i : Nat) :
    (created N dp ip name type i).nlink =
      if i = ip then 1
      else if type = T_DIR ∧ i = dp then (N dp).nlink + 1
      else (N i).nlink := by
  unfold created
  by_cases hdp : i = dp
  · subst hdp
    rw [update_self, if_neg hne.symm]
    simp only [and_true]
  rw [update_of_ne hdp]
  by_cases hip : i = ip
  · subst hip
    rw [update_self, if_pos rfl]
    rfl
  · rw [update_of_ne hip, if_neg hip, if_neg (fun h => hdp h.2)]

theorem LinksExact.created (h : Tidy K N) (hFormed : Formed K N) (hne : ip ≠ dp) (hip : ip < K)
    (hDir : (N dp).type = T_DIR) (hLive : (N dp).Live)
    (hMax : type = T_DIR → (N dp).nlink.toInt ≠ 32767) (hGone : (N ip).type = 0 ∨ (N ip).nlink = 0)
    (hFind : findEntry name 0 (N dp).ents = none) :
    LinksExact K (created N dp ip name type) where
  exact := fun i hi => by
    have hName := h.not_dots hDir hFind
    have hdp := hFormed.lt_of_dir hDir
    have hDead := hFormed.dead_of_gone hGone
    rw [linksTo_created hne hip hdp hDead hLive hMax hName.1, nlink_created hne]
    rw [created_type] at hi
    by_cases hiip : i = ip
    · subst hiip
      rw [if_pos rfl, if_pos rfl, if_neg (fun h => hne h.2), h.linksTo_eq_zero hGone]
      rfl
    rw [if_neg hiip, if_neg hiip]
    by_cases hidp : type = T_DIR ∧ i = dp
    · obtain ⟨hTDir, rfl⟩ := hidp
      rw [if_pos ⟨hTDir, rfl⟩, if_pos ⟨hTDir, rfl⟩, toInt_add_one (hMax hTDir),
        h.links.exact i (allocated_of_dir hDir)]
      rfl
    · rw [if_neg hidp, if_neg hidp]
      refine h.links.exact i ?_
      split at hi
      · next hEq =>
          rw [hEq]
          exact hi
      · exact hi
  dots := fun d hd => by
    simp only [entry_created hne]
    by_cases hdip : d = ip
    · subst hdip
      rw [created_type, if_neg hne, if_pos rfl] at hd
      exact ⟨⟨d, .inr (.inl ⟨rfl, entry_newNode.mpr ⟨hd, .inl ⟨rfl, rfl, rfl⟩⟩⟩)⟩,
        dp, .inr (.inl ⟨rfl, entry_newNode.mpr ⟨hd, .inr ⟨rfl, rfl, rfl⟩⟩⟩)⟩
    have hOld : (N d).type = T_DIR := by
      rw [created_type, if_neg hdip] at hd
      split at hd
      · next hEq =>
          rw [hEq]
          exact hd
      · exact hd
    obtain ⟨⟨i, hi⟩, p, hp⟩ := h.links.dots d hOld
    exact ⟨⟨i, .inr (.inr ⟨hdip, hi⟩)⟩, p, .inr (.inr ⟨hdip, hp⟩)⟩
  distinct := fun d a b nm i j ha hb => by
    have hNone := findEntry_eq_none_iff.mp hFind
    rw [entry_created hne] at ha hb
    rcases ha with
      ⟨rfl, rfl, rfl, rfl⟩ | ⟨rfl, ha⟩ | ⟨hdip, ha⟩
    · rcases hb with
        ⟨_, rfl, _, _⟩ | ⟨hEq, _⟩ | ⟨_, hb⟩
      · rfl
      · exact absurd hEq.symm hne
      · exact absurd hb.mem (hNone j)
    · rcases hb with
        ⟨hEq, _⟩ | ⟨_, hb⟩ | ⟨hBad, _⟩
      · exact absurd hEq hne
      · obtain ⟨_, ha⟩ := entry_newNode.mp ha
        obtain ⟨_, hb⟩ := entry_newNode.mp hb
        rcases ha with ⟨rfl, rfl, _⟩ | ⟨rfl, rfl, _⟩
        · rcases hb with ⟨rfl, _, _⟩ | ⟨_, hBad, _⟩
          · rfl
          · exact absurd hBad (by decide)
        · rcases hb with ⟨_, hBad, _⟩ | ⟨rfl, _, _⟩
          · exact absurd hBad (by decide)
          · rfl
      · exact absurd rfl hBad
    · rcases hb with
        ⟨rfl, _, rfl, _⟩ | ⟨hEq, _⟩ | ⟨_, hb⟩
      · exact absurd ha.mem (hNone i)
      · exact absurd hEq hdip
      · exact h.links.distinct d a b nm i j ha hb

/- A new inode in a linked directory. -/
theorem Tidy.created (h : Tidy K N) (hFormed : Formed K N) (hne : ip ≠ dp) (hip : ip < K)
    (hType : type ≠ 0) (hDir : (N dp).type = T_DIR) (hLive : (N dp).Live)
    (hMax : type = T_DIR → (N dp).nlink.toInt ≠ 32767) (hGone : (N ip).type = 0 ∨ (N ip).nlink = 0)
    (hFind : findEntry name 0 (N dp).ents = none) : Tidy K (created N dp ip name type) := by
  have hLinks := LinksExact.created h hFormed hne hip hDir hLive hMax hGone hFind
  have hName := h.not_dots hDir hFind
  have hAlive (d : Nat) : (Xv6.created N dp ip name type d).Live ↔ d = ip ∨ (N d).Live :=
    live_created hne hLive hMax d
  have hDead := hFormed.dead_of_gone hGone
  have hOldType {i : Nat} (hi : i ≠ ip) : (Xv6.created N dp ip name type i).type = (N i).type := by
    rw [created_type, if_neg hi]
    split
    · next hEq => rw [hEq]
    · rfl
  have hNewType : (Xv6.created N dp ip name type ip).type = type := by
    rw [created_type, if_neg hne, if_pos rfl]
  -- an entry of a linked directory is the new one, a dot name
  -- of the new directory, or an old one that names another
  have hCases {d a i : Nat} {nm : Name} (hd : (Xv6.created N dp ip name type d).Live)
      (he : (Xv6.created N dp ip name type d).Entry a nm i) :
      (d = dp ∧ a = (N dp).ents.findIdx isNone ∧ nm = cname name ∧ i = ip) ∨
        (d = ip ∧ (nm = dot ∧ i = ip ∨ nm = dotdot ∧ i = dp)) ∨
        (d ≠ ip ∧ (N d).Live ∧ (N d).Entry a nm i ∧ i ≠ ip) := by
    rw [hAlive] at hd
    rw [entry_created hne] at he
    rcases he with hNew | ⟨rfl, he⟩ | ⟨hdip, he⟩
    · exact .inl hNew
    · obtain ⟨_, he⟩ := entry_newNode.mp he
      exact .inr (.inl ⟨rfl, he.imp (·.2) (·.2)⟩)
    · have hd' := hd.resolve_left hdip
      refine .inr (.inr ⟨hdip, hd', he, ?_⟩)
      rintro rfl
      exact h.not_named hGone hDead (hFormed.lt_of_entry he) (hFormed.dir_of_entry he) hd' he
  have hKeep {d a i : Nat} {nm : Name} (hd : d ≠ ip) (he : (N d).Entry a nm i) :
      (Xv6.created N dp ip name type d).Entry a nm i :=
    (entry_created hne).mpr (.inr (.inr ⟨hd, he⟩))
  have hRoot : ROOTINO ≠ ip := by
    rintro rfl
    exact hDead h.root.2
  refine
    { links := hLinks
      self := fun d hd => ?_
      present := fun d a nm i hd he => ?_
      below := fun d a i hd hc hi => ?_
      once := fun d a b i hd ha hb hi => ?_
      named := fun i hi hiLive hne' => ?_
      root := ?_
      top := hKeep hRoot h.top }
  · by_cases hdip : d = ip
    · subst hdip
      rw [hNewType] at hd
      exact (entry_created hne).mpr (.inr (.inl
        ⟨rfl, entry_newNode.mpr ⟨hd, .inl ⟨rfl, rfl, rfl⟩⟩⟩))
    · rw [hOldType hdip] at hd
      exact hKeep hdip (h.self d hd)
  · rcases hCases hd he with
      ⟨_, _, _, rfl⟩ | ⟨_, ⟨_, rfl⟩ | ⟨_, rfl⟩⟩ | ⟨_, hd', he', hi⟩
    · rw [hNewType]
      exact hType
    · rw [hNewType]
      exact hType
    · rw [hOldType hne.symm, hDir]
      decide
    · rw [hOldType hi]
      exact h.present d a nm i hd' he'
  · obtain ⟨nm, he, hNm⟩ := hc
    rcases hCases hd he with
      ⟨rfl, _, _, rfl⟩ | ⟨_, ⟨hBad, _⟩ | ⟨hBad, _⟩⟩ | ⟨_, hd', he', hii⟩
    · rw [hNewType] at hi
      exact ⟨hRoot.symm, (entry_created hne).mpr (.inr (.inl
        ⟨rfl, entry_newNode.mpr ⟨hi, .inr ⟨rfl, rfl, rfl⟩⟩⟩))⟩
    · exact absurd hBad hNm.1
    · exact absurd hBad hNm.2
    · rw [hOldType hii] at hi
      obtain ⟨hTop, hUp⟩ := h.below d a i hd' ⟨nm, he', hNm⟩ hi
      exact ⟨hTop, hKeep hii hUp⟩
  · obtain ⟨nm, ha, hNm⟩ := ha
    obtain ⟨nm', hb, hNm'⟩ := hb
    rcases hCases hd ha with
      ⟨rfl, rfl, _, rfl⟩ | ⟨_, ⟨hBad, _⟩ | ⟨hBad, _⟩⟩ | ⟨_, hd', ha', hii⟩
    · rcases hCases hd hb with
        ⟨_, rfl, _, _⟩ | ⟨hBad, _⟩ | ⟨_, _, _, hBad⟩
      · rfl
      · exact absurd hBad.symm hne
      · exact absurd rfl hBad
    · exact absurd hBad hNm.1
    · exact absurd hBad hNm.2
    · rcases hCases hd hb with
        ⟨_, _, _, hBad⟩ | ⟨_, ⟨hBad, _⟩ | ⟨hBad, _⟩⟩ | ⟨_, _, hb', _⟩
      · exact absurd hBad hii
      · exact absurd hBad hNm'.1
      · exact absurd hBad hNm'.2
      · rw [hOldType hii] at hi
        exact h.once d a b i hd' ⟨nm, ha', hNm⟩ ⟨nm', hb', hNm'⟩ hi
  · by_cases hiip : i = ip
    · subst hiip
      refine ⟨dp, _, (hAlive dp).mpr (.inr hLive), cname name,
        (entry_created hne).mpr (.inl ⟨rfl, rfl, rfl, rfl⟩),
        hName⟩
    rw [hOldType hiip] at hi
    rw [hAlive] at hiLive
    obtain ⟨d, a, hd, nm, he, hNm⟩ := h.named i hi (hiLive.resolve_left hiip) hne'
    have hdip : d ≠ ip := by
      rintro rfl
      exact hDead hd
    exact ⟨d, a, (hAlive d).mpr (.inr hd), nm, hKeep hdip he, hNm⟩
  · rw [hOldType hRoot]
    exact ⟨h.root.1, (hAlive _).mpr (.inr h.root.2)⟩

end Created

section Linked

variable {K : Nat} {N : Nat → Node} {dp ip : Nat} {name : Name}

theorem entry_linked (hne : ip ≠ dp) {d a i : Nat} {nm : Name} :
    (linked N dp ip name d).Entry a nm i ↔ d = dp ∧ a = (N dp).ents.findIdx Option.isNone ∧
          nm = cname name ∧ i = ip ∨
        (N d).Entry a nm i := by
  unfold linked
  by_cases hdp : d = dp
  · subst hdp
    rw [update_self, entry_addEnt]
    simp
  rw [update_of_ne hdp]
  by_cases hip : d = ip
  · subst hip
    rw [update_self]
    simp only [hdp, false_and, false_or]
    exact Iff.rfl
  · rw [update_of_ne hip]
    simp [hdp]

theorem nlink_linked (hne : ip ≠ dp) (i : Nat) :
    (linked N dp ip name i).nlink =
      if i = ip then (N ip).nlink + 1 else (N i).nlink := by
  unfold linked
  by_cases hdp : i = dp
  · subst hdp
    rw [update_self, if_neg hne.symm]
    rfl
  rw [update_of_ne hdp]
  by_cases hip : i = ip
  · subst hip
    rw [update_self, if_pos rfl]
    rfl
  · rw [update_of_ne hip, if_neg hip]

theorem live_linked (hne : ip ≠ dp) {d : Nat} (hd : d ≠ ip) :
    (linked N dp ip name d).Live ↔ (N d).Live := by
  unfold Node.Live
  rw [nlink_linked hne, if_neg hd]

theorem linksTo_linked (hFormed : Formed K N) (hip : ip < K) (hdp : dp < K)
    (hDir : (N dp).type = T_DIR) (hFile : (N ip).type ≠ T_DIR)
    (hLive : (N dp).Live) (hName : cname name ≠ dot) (i : Nat) :
    linksTo K (linked N dp ip name) i = linksTo K N i + (if i = ip then 1 else 0) := by
  have hne : ip ≠ dp := by
    rintro rfl
    exact hFile hDir
  have hPlain := hFormed.plain ip hFile
  have hSet : ((N ip).setNlink ((N ip).nlink + 1)).ents = [] := hPlain
  have hNew := linksTo_update (N := N) hip ((N ip).setNlink ((N ip).nlink + 1)) i
  have hOld := linksTo_update (N := update N ip ((N ip).setNlink ((N ip).nlink + 1))) hdp
    ((N dp).addEnt name ip) i
  have hAdd : ((N dp).addEnt name ip).Live := hLive
  rw [update_of_ne hne.symm, gives_of_live hLive, gives_of_live hAdd,
    links_addEnt hName] at hOld
  rw [gives_of_nil hPlain, gives_of_nil hSet] at hNew
  change linksTo K (linked N dp ip name) i + _ = _ at hOld
  omega

/- A new link to a file, in a linked directory. -/
theorem Tidy.linked (h : Tidy K N) (hFormed : Formed K N) (hType : (N ip).type ≠ 0)
    (hFile : (N ip).type ≠ T_DIR) (hDir : (N dp).type = T_DIR)
    (hLive : (N dp).Live) (hMax : (N ip).nlink.toInt ≠ 32767)
    (hFind : findEntry name 0 (N dp).ents = none) : Tidy K (linked N dp ip name) := by
  have hne : ip ≠ dp := by
    rintro rfl
    exact hFile hDir
  have hip := hFormed.bound ip hType
  have hdp := hFormed.lt_of_dir hDir
  have hName := h.not_dots hDir hFind
  have hNone := findEntry_eq_none_iff.mp hFind
  have hKeep {d a i : Nat} {nm : Name} (he : (N d).Entry a nm i) :
      (Xv6.linked N dp ip name d).Entry a nm i :=
    (entry_linked hne).mpr (.inr he)
  -- directories are linked as before
  have hAlive {d : Nat} (hd : (N d).type = T_DIR) : (Xv6.linked N dp ip name d).Live ↔ (N d).Live :=
    live_linked hne (fun hEq => hFile (hEq ▸ hd))
  have hCases {d a i : Nat} {nm : Name} (hd : (Xv6.linked N dp ip name d).Live)
      (he : (Xv6.linked N dp ip name d).Entry a nm i) :
      (N d).Live ∧ (i = ip ∨ (N d).Entry a nm i) := by
    rw [entry_linked hne] at he
    rcases he with ⟨rfl, _, _, rfl⟩ | he
    · exact ⟨hLive, .inl rfl⟩
    · exact ⟨(hAlive (hFormed.dir_of_entry he)).mp hd, .inr he⟩
  have hOld {d a i : Nat} (hd : (Xv6.linked N dp ip name d).Live)
      (hc : (Xv6.linked N dp ip name d).Child a i)
      (hi : (N i).type = T_DIR) :
      (N d).Live ∧ (N d).Child a i := by
    obtain ⟨nm, he, hNm⟩ := hc
    obtain ⟨hd', rfl | he'⟩ := hCases hd he
    · exact absurd hi hFile
    · exact ⟨hd', nm, he', hNm⟩
  refine
    { links :=
        { exact := fun i hi => ?_
          dots := fun d hd => ?_
          distinct := fun d a b nm i j ha hb => ?_ }
      self := fun d hd => ?_
      present := fun d a nm i hd he => ?_
      below := fun d a i hd hc hi => ?_
      once := fun d a b i hd ha hb hi => ?_
      named := fun i hi hiLive hne' => ?_
      root := ?_
      top := hKeep h.top }
  · rw [linked_type] at hi
    rw [linksTo_linked hFormed hip hdp hDir hFile hLive hName.1, nlink_linked hne]
    by_cases hiip : i = ip
    · subst hiip
      rw [if_pos rfl, if_pos rfl, toInt_add_one hMax, h.links.exact i hi]
      rfl
    · rw [if_neg hiip, if_neg hiip]
      exact h.links.exact i hi
  · rw [linked_type] at hd
    obtain ⟨⟨i, hi⟩, p, hp⟩ := h.links.dots d hd
    exact ⟨⟨i, hKeep hi⟩, p, hKeep hp⟩
  · rw [entry_linked hne] at ha hb
    rcases ha with ⟨rfl, rfl, rfl, rfl⟩ | ha
    · rcases hb with ⟨_, rfl, _, _⟩ | hb
      · rfl
      · exact absurd hb.mem (hNone j)
    · rcases hb with ⟨rfl, _, rfl, _⟩ | hb
      · exact absurd ha.mem (hNone i)
      · exact h.links.distinct d a b nm i j ha hb
  · rw [linked_type] at hd
    exact hKeep (h.self d hd)
  · rw [linked_type]
    obtain ⟨hd', rfl | he'⟩ := hCases hd he
    · exact hType
    · exact h.present d a nm i hd' he'
  · rw [linked_type] at hi
    obtain ⟨hd', hc'⟩ := hOld hd hc hi
    obtain ⟨hTop, hUp⟩ := h.below d a i hd' hc' hi
    exact ⟨hTop, hKeep hUp⟩
  · rw [linked_type] at hi
    obtain ⟨hd', ha'⟩ := hOld hd ha hi
    exact h.once d a b i hd' ha' (hOld hd hb hi).2 hi
  · rw [linked_type] at hi
    rw [hAlive hi] at hiLive
    obtain ⟨d, a, hd, nm, he, hNm⟩ := h.named i hi hiLive hne'
    exact ⟨d, a, (hAlive (hFormed.dir_of_entry he)).mpr hd, nm, hKeep he, hNm⟩
  · rw [linked_type]
    exact ⟨h.root.1, (hAlive h.root.1).mpr h.root.2⟩

end Linked

section Unlinked

variable {K : Nat} {N : Nat → Node} {dp ip m : Nat} {nm : Name}

theorem entry_unlinked (hne : ip ≠ dp) (hm : m < (N dp).ents.length) {d a i : Nat} {nm : Name} :
    (unlinked N dp ip m d).Entry a nm i ↔ ¬ (d = dp ∧ a = m) ∧ (N d).Entry a nm i := by
  unfold unlinked
  by_cases hip : d = ip
  · subst hip
    rw [update_self]
    simp only [hne, false_and, not_false_eq_true, true_and]
    exact Iff.rfl
  rw [update_of_ne hip]
  by_cases hdp : d = dp
  · subst hdp
    rw [update_self]
    change ((N d).setEnt m none).Entry a nm i ↔ _
    rw [entry_setEnt (Nat.le_of_lt hm)]
    split
    · next ha => simp [ha]
    · next ha => simp [ha]
  · simp [hdp]

theorem nlink_unlinked (hne : ip ≠ dp) (i : Nat) :
    (unlinked N dp ip m i).nlink =
      if i = ip then (N ip).nlink - 1
      else if (N ip).type = T_DIR ∧ i = dp then
        (N dp).nlink - 1
      else (N i).nlink := by
  unfold unlinked
  by_cases hip : i = ip
  · subst hip
    rw [update_self, if_pos rfl]
    rfl
  rw [update_of_ne hip, if_neg hip]
  by_cases hdp : i = dp
  · subst hdp
    rw [update_self]
    simp only [and_true]
  · rw [update_of_ne hdp, if_neg (fun h => hdp h.2)]

/-
  The directory `ip` can be removed: its name is at the entry
  `m` of `dp`, and it is empty.
-/
structure Removable (N : Nat → Node) (dp ip m : Nat) : Prop where
  dir : (N ip).type = T_DIR
  live : (N dp).Live
  linked : (N ip).Live
  child : (N dp).Child m ip
  empty : (N ip).Empty

namespace Removable

variable (h : Tidy K N) (hr : Removable N dp ip m)

include h hr

theorem no_child {a i : Nat} : ¬ (N ip).Child a i := by
  rintro ⟨nm', he, hDot, hDotdot⟩
  have ha := hr.empty.lt_two he
  obtain ⟨⟨_, hSelf⟩, p, hp⟩ := h.links.dots ip hr.dir
  match a with
  | 0 => exact hDot (hSelf.unique he).1
  | 1 => exact hDotdot (hp.unique he).1

theorem ne_root : ip ≠ ROOTINO := (h.below dp m ip hr.live hr.child hr.dir).1

theorem up : (N ip).Entry 1 dotdot dp := (h.below dp m ip hr.live hr.child hr.dir).2

/- The links from an empty directory. -/
theorem links_eq (i : Nat) : (N ip).links i = if i = dp then 1 else 0 := by
  have hSelf := h.self ip hr.dir
  have hUp := hr.up h
  have hEmpty := hr.empty
  unfold Node.Entry at hSelf hUp
  unfold Node.Empty at hEmpty
  unfold links
  match hEnts : (N ip).ents with
  | [] =>
    rw [hEnts] at hSelf
    cases hSelf
  | [e] =>
    rw [hEnts] at hUp
    cases hUp
  | e :: e' :: rest =>
    rw [hEnts] at hSelf hUp hEmpty
    cases some.inj hSelf
    cases some.inj hUp
    have hRest : rest.countP (linksEntry i) = 0 := by
      refine countP_eq_zero.mpr ?_
      intro x hx hLink
      have hNone := all_eq_true.mp hEmpty x hx
      rw [isNone_iff_eq_none.mp hNone] at hLink
      cases hLink
    rw [countP_cons, countP_cons, hRest]
    simp [linksEntry, eq_comm]

variable (hFormed : Formed K N)

include hFormed

/- The directory above has another link than `..` below. -/
theorem two_le_linksTo : 2 ≤ linksTo K N dp := by
  have hdpDir : (N dp).type = T_DIR := by
    obtain ⟨_, he, _⟩ := hr.child
    exact hFormed.dir_of_entry he
  -- some other linked directory that links to it
  have hOther : ∃ d a nm', d ≠ ip ∧ (N d).Live ∧ (N d).Entry a nm' dp ∧ nm' ≠ dot := by
    by_cases hRoot : dp = ROOTINO
    · refine ⟨ROOTINO, 1, dotdot, (hr.ne_root h).symm, h.root.2, ?_, by decide⟩
      rw [hRoot]
      exact h.top
    obtain ⟨d, a, hd, hc⟩ := h.named dp hdpDir hr.live hRoot
    obtain ⟨nm', he, hNm⟩ := hc
    refine ⟨d, a, nm', ?_, hd, he, hNm.1⟩
    rintro rfl
    exact hr.no_child h ⟨nm', he, hNm⟩
  obtain ⟨d, a, nm', hd, hdLive, he, hNm⟩ := hOther
  have hip := hFormed.lt_of_dir hr.dir
  have hCount := linksTo_update (N := N) hip free dp
  have hLe := gives_le_linksTo (N := update N ip free) (i := dp) (hFormed.lt_of_entry he)
  rw [update_of_ne hd, gives_of_live hdLive] at hLe
  rw [gives_of_live hr.linked, hr.links_eq h,
    if_pos rfl, gives_of_dead dead_free] at hCount
  have hPos := links_pos he hNm
  omega

/- The name is the only link to an empty directory. -/
theorem eq_entry {d a : Nat} {nm' : Name} (hd : (N d).Live) (he : (N d).Entry a nm' ip)
    (hNm : nm' ≠ dot) : d = dp ∧ a = m := by
  by_cases hUp : nm' = dotdot
  · subst hUp
    have ha := h.dotdot_pos hFormed he
    subst ha
    exfalso
    by_cases hRoot : d = ROOTINO
    · subst hRoot
      exact hr.ne_root h (h.top.unique he).2
    have hdDir := hFormed.dir_of_entry he
    obtain ⟨d', a', hd', hc'⟩ := h.named d hdDir hd hRoot
    have hUp' := (h.below d' a' d hd' hc' hdDir).2
    have hEq := (he.unique hUp').2
    subst hEq
    exact hr.no_child h hc'
  · have hc : (N d).Child a ip := ⟨nm', he, hNm, hUp⟩
    have hAbove := (h.below d a ip hd hc hr.dir).2
    have hdp := ((hr.up h).unique hAbove).2
    subst hdp
    exact ⟨rfl, h.once d a m ip hd hc hr.child hr.dir⟩

theorem nlink_eq : (N ip).nlink.toInt = 1 := by
  obtain ⟨nm', he, hNm⟩ := hr.child
  have hdp := hFormed.lt_of_entry he
  have hm : m < (N dp).ents.length := (List.getElem?_eq_some_iff.mp he).1
  rw [h.links.exact ip (allocated_of_dir hr.dir)]
  -- without the entry there is no link at all
  have hCount := linksTo_update (N := N) hdp ((N dp).setEnt m none) ip
  have hZero : linksTo K (update N dp ((N dp).setEnt m none)) ip =
          0 := by
    refine linksTo_eq_zero ?_
    intro d a nm'' hd he'
    by_contra hNm''
    by_cases hdp : d = dp
    · subst hdp
      rw [update_self] at hd he'
      rw [entry_setEnt (Nat.le_of_lt hm)] at he'
      split at he'
      · cases he'
      · next ha => exact ha (hr.eq_entry h hFormed hr.live he' hNm'').2
    · rw [update_of_ne hdp] at hd he'
      exact hdp (hr.eq_entry h hFormed hd he' hNm'').1
  have hSet : ((N dp).setEnt m none).Live := hr.live
  have hLinks := links_clear (i := ip) he hNm.1
  rw [gives_of_live hr.live, gives_of_live hSet] at hCount
  rw [if_pos rfl] at hLinks
  omega

end Removable

section

variable (h : Tidy K N) (hFormed : Formed K N) (hne : ip ≠ dp)
include h hFormed hne

/- Who still has links when a link has been removed. -/
theorem live_unlinked (hRemove : (N ip).type = T_DIR → Removable N dp ip m) {d : Nat}
    (hd : (N d).type = T_DIR) : (unlinked N dp ip m d).Live ↔ (N d).Live ∧ d ≠ ip := by
  unfold Node.Live
  rw [nlink_unlinked hne]
  by_cases hdip : d = ip
  · subst hdip
    have hr := hRemove hd
    have hOne := hr.nlink_eq h hFormed
    rw [if_pos rfl, toInt_sub_one hOne.ge, hOne]
    simp
  rw [if_neg hdip]
  by_cases hAbove : (N ip).type = T_DIR ∧ d = dp
  · obtain ⟨hDir, rfl⟩ := hAbove
    have hr := hRemove hDir
    have hTwo := hr.two_le_linksTo h hFormed
    have hExact := h.links.exact d (allocated_of_dir hd)
    rw [if_pos ⟨hDir, rfl⟩, toInt_sub_one hr.live]
    refine iff_of_true ?_ ⟨hr.live, hdip⟩
    omega
  · rw [if_neg hAbove]
    simp [hdip]

theorem linksTo_unlinked (hip : ip < K)
    (hLive : (N dp).Live) (hEntry : (N dp).Entry m nm ip) (hName : nm ≠ dot)
    (hRemove : (N ip).type = T_DIR → Removable N dp ip m) (i : Nat) :
    linksTo K (unlinked N dp ip m) i + (if i = ip then 1 else 0) +
        (if (N ip).type = T_DIR ∧ i = dp then 1 else 0) =
      linksTo K N i := by
  have hdp := hFormed.lt_of_entry hEntry
  have hdpDir := hFormed.dir_of_entry hEntry
  have hAlive (d : Nat) := live_unlinked (d := d) h hFormed hne hRemove
  have hAbove := linksTo_update (N := N) hdp (unlinked N dp ip m dp) i
  have hBelow := linksTo_update (N := update N dp (unlinked N dp ip m dp)) hip
    (unlinked N dp ip m ip) i
  have hEq : update (update N dp (unlinked N dp ip m dp)) ip (unlinked N dp ip m ip) =
        unlinked N dp ip m := by
    unfold unlinked
    rw [update_self, update_of_ne hne.symm, update_self]
  have hdpGives : (unlinked N dp ip m dp).gives i + (if i = ip then 1 else 0) = (N dp).links i := by
    rw [gives_of_live ((hAlive dp hdpDir).mpr ⟨hLive, hne.symm⟩)]
    unfold unlinked
    rw [update_of_ne hne.symm, update_self]
    exact links_clear hEntry hName
  have hipGives : (unlinked N dp ip m ip).gives i +
          (if (N ip).type = T_DIR ∧ i = dp then 1 else 0) =
        (N ip).gives i := by
    by_cases hDir : (N ip).type = T_DIR
    · have hr := hRemove hDir
      have hDead : ¬ (unlinked N dp ip m ip).Live := fun hBad => ((hAlive ip hDir).mp hBad).2 rfl
      rw [gives_of_dead hDead, gives_of_live hr.linked, hr.links_eq h]
      simp only [hDir, true_and, Nat.zero_add]
    have hPlain := hFormed.plain ip hDir
    have hPlain' : (unlinked N dp ip m ip).ents = [] := by
      unfold unlinked
      rw [update_self]
      exact hPlain
    rw [gives_of_nil hPlain, gives_of_nil hPlain', if_neg (fun h => hDir h.1)]
  rw [gives_of_live hLive] at hAbove
  rw [update_of_ne hne, hEq] at hBelow
  omega

/- A link is removed from a linked directory. -/
theorem Tidy.unlinked (hLive : (N dp).Live) (hChild : (N dp).Child m ip) (hLinked : (N ip).Live)
    (hEmpty : (N ip).type = T_DIR → (N ip).Empty) : Tidy K (unlinked N dp ip m) := by
  have hRemove (hDir : (N ip).type = T_DIR) : Removable N dp ip m :=
    ⟨hDir, hLive, hLinked, hChild, hEmpty hDir⟩
  obtain ⟨nm, hEntry, hNm⟩ := id hChild
  have hType := h.present dp m nm ip hLive hEntry
  have hip := hFormed.bound ip hType
  have hm : m < (N dp).ents.length := (List.getElem?_eq_some_iff.mp hEntry).1
  have hAlive {d : Nat} (hd : (N d).type = T_DIR) := live_unlinked h hFormed hne hRemove hd
  -- entries of linked directories are old ones
  have hOld {d a i : Nat} {nm' : Name} (hd : (Xv6.unlinked N dp ip m d).Live)
      (he : (Xv6.unlinked N dp ip m d).Entry a nm' i) :
      (N d).Live ∧ (N d).Entry a nm' i := by
    obtain ⟨_, he'⟩ := (entry_unlinked hne hm).mp he
    exact ⟨((hAlive (hFormed.dir_of_entry he')).mp hd).1, he'⟩
  have hOldChild {d a i : Nat} (hd : (Xv6.unlinked N dp ip m d).Live)
      (hc : (Xv6.unlinked N dp ip m d).Child a i) :
      (N d).Live ∧ (N d).Child a i := by
    obtain ⟨nm', he, hNm'⟩ := hc
    obtain ⟨hd', he'⟩ := hOld hd he
    exact ⟨hd', nm', he', hNm'⟩
  -- the dot names stay
  have hKeep {d a i : Nat} {nm' : Name} (he : (N d).Entry a nm' i)
      (hDots : nm' = dot ∨ nm' = dotdot) :
      (Xv6.unlinked N dp ip m d).Entry a nm' i := by
    refine (entry_unlinked hne hm).mpr ⟨?_, he⟩
    rintro ⟨rfl, rfl⟩
    have hEq := (hEntry.unique he).1
    rcases hDots with rfl | rfl
    · exact hNm.1 hEq.symm
    · exact hNm.2 hEq.symm
  have hRoot : ROOTINO ≠ ip := by
    rintro hEq
    have hDir : (N ip).type = T_DIR := hEq ▸ h.root.1
    exact (hRemove hDir).ne_root h hEq.symm
  refine
    { links :=
        { exact := fun i hi => ?_
          dots := fun d hd => ?_
          distinct := fun d a b nm i j ha hb => ?_ }
      self := fun d hd => ?_
      present := fun d a nm i hd he => ?_
      below := fun d a i hd hc hi => ?_
      once := fun d a b i hd ha hb hi => ?_
      named := fun i hi hiLive hne' => ?_
      root := ?_
      top := hKeep h.top (.inr rfl) }
  · rw [unlinked_type] at hi
    have hCount := linksTo_unlinked h hFormed hne hip hLive hEntry hNm.1 hRemove i
    have hExact := h.links.exact i hi
    rw [nlink_unlinked hne]
    by_cases hiip : i = ip
    · subst hiip
      rw [if_pos rfl, if_neg (fun h => hne h.2)] at hCount
      rw [if_pos rfl, toInt_sub_one hLinked]
      omega
    rw [if_neg hiip] at hCount ⊢
    by_cases hAbove : (N ip).type = T_DIR ∧ i = dp
    · rw [if_pos hAbove] at hCount ⊢
      obtain ⟨_, rfl⟩ := hAbove
      rw [toInt_sub_one hLive]
      omega
    · rw [if_neg hAbove] at hCount ⊢
      omega
  · rw [unlinked_type] at hd
    obtain ⟨⟨i, hi⟩, p, hp⟩ := h.links.dots d hd
    exact ⟨⟨i, hKeep hi (.inl rfl)⟩, p, hKeep hp (.inr rfl)⟩
  · obtain ⟨_, ha'⟩ := (entry_unlinked hne hm).mp ha
    obtain ⟨_, hb'⟩ := (entry_unlinked hne hm).mp hb
    exact h.links.distinct d a b nm i j ha' hb'
  · rw [unlinked_type] at hd
    exact hKeep (h.self d hd) (.inl rfl)
  · rw [unlinked_type]
    obtain ⟨hd', he'⟩ := hOld hd he
    exact h.present d a nm i hd' he'
  · rw [unlinked_type] at hi
    obtain ⟨hd', hc'⟩ := hOldChild hd hc
    obtain ⟨hTop, hUp⟩ := h.below d a i hd' hc' hi
    exact ⟨hTop, hKeep hUp (.inr rfl)⟩
  · rw [unlinked_type] at hi
    obtain ⟨hd', ha'⟩ := hOldChild hd ha
    exact h.once d a b i hd' ha' (hOldChild hd hb).2 hi
  · rw [unlinked_type] at hi
    obtain ⟨hiLive', hiip⟩ := (hAlive hi).mp hiLive
    obtain ⟨d, a, hd, hc⟩ := h.named i hi hiLive' hne'
    obtain ⟨nm', he, hNm'⟩ := id hc
    have hdDir := hFormed.dir_of_entry he
    have hdip : d ≠ ip := by
      rintro rfl
      exact (hRemove hdDir).no_child h hc
    refine ⟨d, a, (hAlive hdDir).mpr ⟨hd, hdip⟩, nm', ?_, hNm'⟩
    refine (entry_unlinked hne hm).mpr ⟨?_, he⟩
    rintro ⟨rfl, rfl⟩
    exact hiip (hEntry.unique he).2
  · rw [unlinked_type]
    exact ⟨h.root.1, (hAlive h.root.1).mpr ⟨h.root.2, hRoot⟩⟩

end

end Unlinked

-------
-- Link Counts Stay Exact
-------

section Calls

variable {sb : Superblock} {s : Fs} {cwd : Nat} {n : View Node} {N : Nat → Node}
variable {held known : List Nat}

/- The end of a call that has made tidy nodes. -/
theorem During.tidy (h : During sb n N held known s) (hTidy : Tidy sb.ninodes N) :
    Tidy sb.ninodes (s.names sb).file := by
  obtain ⟨n', hShows, hPart⟩ := h.finish
  rw [hShows.names]
  refine hTidy.freed hShows.formed ?_
  intro i
  exact (hPart.file i).imp_right (fun h => ⟨h.1, h.2.1⟩)

/- What was found under a name is an entry with that name. -/
theorem entry_of_findEntry {nd : Node} {name : Name} {i m : Nat}
    (h : findEntry name 0 nd.ents = some (i, m)) : nd.Entry m (cname name) i :=
  (findEntry_some h).2

/- The parent directory of a path has links. -/
def ParentLinked (N : Nat → Node) (cwd : Nat) (path : Path) : Prop :=
  ∀ dp name, findPath N cwd path true = some (dp, name) → (N dp).Live

section

variable (h : Consistent sb s) (hTidy : Tidy sb.ninodes (s.names sb).file)
variable (hCwd : 0 < (s.itable cwd).ref)
include h hTidy hCwd

/- Neither that directory nor its links overflow. -/
theorem create_tidy {path : Path} {type : BitVec 16}
    (hType : type ≠ 0) (hParent : ParentLinked (s.names sb).file cwd path)
    (hMax : ∀ dp name, findPath (s.names sb).file cwd path true = some (dp, name) → type = T_DIR →
          ((s.names sb).file dp).nlink.toInt ≠ 32767)
    (major minor : BitVec 16) :
    wp (create sb cwd path type major minor) (fun _ s' => Tidy sb.ninodes (s'.names sb).file)
      (fun e _ => e ≠ .panic .unlinkNlink) s := by
  apply create_call h.shows h.sound hCwd hType
  · intro s' hDuring _
    exact hDuring.tidy hTidy
  · intro dp ip m name s' _ _ _ _ hDuring
    exact hDuring.tidy hTidy
  · intro dp ip name s' hPath hFind _ hLt hGone _ _ hne hDuring
    refine hDuring.tidy (hTidy.created h.shows.formed hne hLt
      hType (findPath_parent_dir hPath) (hParent dp name hPath)
      (hMax dp name hPath) (hGone.imp_right (·.1)) hFind)
  · intro _ _ _ _
    simp
  · intro _ _
    simp

theorem sysLink_tidy {old new : Path} (hParent : ParentLinked (s.names sb).file cwd new)
    (hMax : ∀ ip name, findPath (s.names sb).file cwd old false = some (ip, name) →
          ((s.names sb).file ip).nlink.toInt ≠ 32767) :
    wp (sysLink sb cwd old new) (fun _ s' => Tidy sb.ninodes (s'.names sb).file)
      (fun e _ => e ≠ .panic .unlinkNlink) s := by
  apply sysLink_call h.shows hCwd
  · intro s' hDuring _
    exact hDuring.tidy hTidy
  · intro dp ip name last s' hOld hNew hFile hType hFind hDuring
    exact hDuring.tidy (hTidy.linked h.shows.formed hType hFile
      (findPath_parent_dir hNew) (hParent dp name hNew)
      (hMax ip last hOld) hFind)
  · intro _ _ _ _
    simp
  · intro _ _
    simp

theorem sysUnlink_tidy {path : Path} (hParent : ParentLinked (s.names sb).file cwd path) :
    wp (sysUnlink sb cwd path) (fun _ s' => Tidy sb.ninodes (s'.names sb).file)
      (fun e _ => e ≠ .panic .unlinkNlink) s := by
  apply sysUnlink_call h.shows hCwd
  · intro s' hDuring _
    exact hDuring.tidy hTidy
  · intro dp ip m name s' hPath hDot hDotdot hFind hne hNlink hEmpty hDuring
    exact hDuring.tidy (hTidy.unlinked h.shows.formed hne (hParent dp name hPath)
      ⟨cname name, entry_of_findEntry hFind, hDot, hDotdot⟩
      hNlink hEmpty)
  · intro _ _ _ _ _ _ _ _
    simp
  · -- an entry of a linked directory is counted
    intro dp ip m name hPath hDot hDotdot hFind hType hNlink
    exfalso
    have hEntry := entry_of_findEntry hFind
    have hLive := hParent dp name hPath
    have hLe := gives_le_linksTo (N := (s.names sb).file) (i := ip)
      (h.shows.formed.lt_of_entry hEntry)
    have hPos := links_pos hEntry hDot
    have hExact := hTidy.links.exact ip hType
    rw [gives_of_live hLive] at hLe
    omega
  · intro _ _ _ _
    simp
  · intro _ _
    simp

end

end Calls

/-
  In a consistent and tidy state in which no inode has the
  largest link count, each call whose parent directory has
  links, whether it succeeds or fails, leads to such a state.
  `sys_unlink` never finds an inode without links.
-/
theorem link_counts_stay_exact
    {sb : Superblock}
    {s : Fs}
    (h : Consistent sb s)
    (hTidy : Tidy sb.ninodes (s.names sb).file)
    (hMax : ∀ i, ((s.names sb).file i).nlink.toInt ≠ 32767)
    {cwd : Nat}
    (hCwd : 0 < (s.itable cwd).ref) :
    LinksExact sb.ninodes (s.names sb).file ∧
    (∀ path type major minor, type ≠ 0 →
        ParentLinked (s.names sb).file cwd path →
      wp (create sb cwd path type major minor) (fun _ s' =>
          Consistent sb s' ∧ Tidy sb.ninodes (s'.names sb).file)
        (fun e _ => e ≠ .panic .unlinkNlink) s) ∧
    (∀ old new, ParentLinked (s.names sb).file cwd new →
      wp (sysLink sb cwd old new) (fun _ s' =>
          Consistent sb s' ∧ Tidy sb.ninodes (s'.names sb).file)
        (fun e _ => e ≠ .panic .unlinkNlink) s) ∧
    (∀ path, ParentLinked (s.names sb).file cwd path →
        wp (sysUnlink sb cwd path) (fun _ s' =>
          Consistent sb s' ∧ Tidy sb.ninodes (s'.names sb).file)
        (fun e _ => e ≠ .panic .unlinkNlink) s) := by
  refine ⟨hTidy.links, ?_, ?_, ?_⟩
  · intro path type major minor hType hParent
    have hKeeps := create_keeps h hCwd path hType major minor
    have hTidy' := create_tidy h hTidy hCwd hType hParent (fun dp _ _ _ => hMax dp) major minor
    exact Prog.wp_mono (Prog.wp_and hKeeps hTidy') (fun _ _ => id) (fun _ _ hE => hE.2)
  · intro old new hParent
    have hKeeps := sysLink_keeps h hCwd old new
    refine Prog.wp_mono (Prog.wp_and hKeeps (sysLink_tidy h hTidy hCwd hParent ?_))
      (fun _ _ => id) (fun _ _ hE => hE.2)
    intro ip _ _
    exact hMax ip
  · intro path hParent
    have hKeeps := sysUnlink_keeps h hCwd path
    have hTidy' := sysUnlink_tidy h hTidy hCwd hParent
    exact Prog.wp_mono (Prog.wp_and hKeeps hTidy') (fun _ _ => id) (fun _ _ hE => hE.2)

-------
-- The First Names
-------

variable {a i : Nat}

theorem entry_rootNode {nm : Name} :
    rootNode.Entry a nm i ↔ a = 0 ∧ nm = dot ∧ i = ROOTINO ∨ a = 1 ∧ nm = dotdot ∧ i = ROOTINO := by
  unfold Node.Entry rootNode
  match a with
  | 0 => simp [eq_comm]
  | 1 => simp [eq_comm]
  | a + 2 =>
    refine iff_of_false ?_ (by omega)
    change (replicate 62 none)[a]? ≠ some (some (nm, i))
    rw [getElem?_replicate]
    split
    · simp
    · simp

theorem entry_bootNames {d : Nat} {nm : Name} :
    (bootNames.file d).Entry a nm i ↔ d = ROOTINO ∧ rootNode.Entry a nm i := by
  change Node.Entry (if d = ROOTINO then rootNode else
    free) a nm i ↔ _
  split
  · next hd => simp [hd]
  · next hd => simp [hd, Node.Entry, free]

/- All inodes but the root are free. -/
theorem bootNames_of_ne (hi : i ≠ ROOTINO) : bootNames.file i = Node.free := if_neg hi

theorem eq_root_of_bootNames (hi : (bootNames.file i).type ≠ 0) : i = ROOTINO := by
  by_contra hne
  rw [bootNames_of_ne hne] at hi
  exact hi rfl

theorem not_child_bootNames {d a i : Nat} : ¬ (bootNames.file d).Child a i := by
  rintro ⟨nm, hEntry, hDot, hDotdot⟩
  rw [entry_bootNames, entry_rootNode] at hEntry
  rcases hEntry.2 with ⟨_, hNm, _⟩ | ⟨_, hNm, _⟩
  · exact hDot hNm
  · exact hDotdot hNm

/- Only the root has a name, by its own entry `..`. -/
theorem bootNames_tidy {K : Nat} (hRoot : ROOTINO < K) : Tidy K bootNames.file := by
  have hDir (d : Nat) (hd : (bootNames.file d).type = T_DIR) : d = ROOTINO :=
    eq_root_of_bootNames (by rw [hd]; decide)
  refine
    { links :=
        { exact := fun i hi => ?_
          dots := fun d hd => ?_
          distinct := fun d a b nm i j ha hb => ?_ }
      self := fun d hd => ?_
      present := fun d a nm i _ he => ?_
      below := fun _ _ _ _ hc _ => absurd hc not_child_bootNames
      once := fun _ _ _ _ _ hc _ _ => absurd hc not_child_bootNames
      named := fun i hi _ hne => absurd (hDir i hi) hne
      root := ⟨rfl, by decide⟩
      top := rfl }
  · have hEq := eq_root_of_bootNames hi
    subst hEq
    have hSum : linksTo K bootNames.file ROOTINO = 1 := by
      unfold linksTo
      rw [Finset.sum_eq_single ROOTINO]
      · decide
      · intro d _ hd
        rw [bootNames_of_ne hd]
        rfl
      · intro hBad
        exact absurd (Finset.mem_range.mpr hRoot) hBad
    rw [hSum]
    decide
  · rw [hDir d hd]
    exact ⟨⟨ROOTINO, rfl⟩, ROOTINO, rfl⟩
  · rw [entry_bootNames, entry_rootNode] at ha hb
    grind
  · rw [hDir d hd]
    rfl
  · rw [entry_bootNames, entry_rootNode] at he
    have hi : i = ROOTINO := by grind
    rw [hi]
    decide

/- The first file, on a disk of 60 blocks. -/
theorem link_counts_of_first_file :
    wp (create smallSb ROOTINO [97] T_FILE 0 0) (fun _ s' =>
        Consistent smallSb s' ∧ Tidy smallSb.ninodes (s'.names smallSb).file)
      (fun e _ => e ≠ .panic .unlinkNlink)
      (booted smallSb) := by
  have hShows : Shows smallSb (booted smallSb) bootNames := booted_shows (by decide)
  have hTidy : Tidy smallSb.ninodes ((booted smallSb).names smallSb).file := by
    rw [hShows.names]
    exact bootNames_tidy (by decide)
  have hNlink (i : Nat) : (((booted smallSb).names smallSb).file i).nlink.toInt ≠
        32767 := by
    rw [hShows.names]
    change (nlink (if i = ROOTINO then rootNode else
      free)).toInt ≠ 32767
    split
    · decide
    · decide
  have hCwd : 0 < ((booted smallSb).itable ROOTINO).ref := by decide
  refine (link_counts_stay_exact (booted_consistent (by decide))
    hTidy hNlink hCwd).2.1 [97] T_FILE 0 0 (by decide) ?_
  intro dp name hPath
  rw [hShows.names] at hPath ⊢
  have hdp : dp = ROOTINO := by
    have hFound : findPath bootNames.file ROOTINO [97] true = some (ROOTINO, [97]) := by decide
    rw [hFound] at hPath
    cases hPath
    rfl
  rw [hdp]
  decide

-------
-- A Name of a Free Inode
-------

/- Enter the free inode 2 into the root directory. -/
def dangle : FsM Int := do
  let ip ← idup ROOTINO
  ilock smallSb ip
  let r ← dirlink smallSb ip [120] 2
  iunlockput smallSb ip
  return r

def dangling : Fs := (dangle (booted smallSb)).2

/- Its nodes. -/
def danglingNodes : Nat → Node := update bootNames.file ROOTINO (rootNode.addEnt [120] 2)

theorem dangling_shows : ∃ n, Shows smallSb dangling n ∧ n.Sound ∧ n.file = danglingNodes := by
  have hBoot : Shows smallSb (booted smallSb) bootNames := booted_shows (by decide)
  have hDone : wp dangle (fun r s' => r = 0 → During smallSb bootNames danglingNodes [] [] s')
        (fun _ _ => True) (booted smallSb) := by
    unfold dangle
    simp only [Prog.wp_bind, Prog.wp_pure]
    refine idup_call (.start hBoot) (by decide) ?_
    intro s₁ h₁
    refine ilock_call h₁ (by simp) ?_ (fun _ _ _ => trivial)
    intro s₂ _ h₂
    refine dirlink_call h₂ (by simp) rfl (by decide) (by decide) ?_ ?_ (fun _ _ => trivial)
    · intro s₃ _ h₃
      refine iunlockput_call h₃ [] [] (by simp) (by simp) ?_
      intro s₄ h₄ _
      exact h₄
    · intro s₃ h₃ _
      refine iunlockput_call h₃ [] [] (by simp) (by simp) ?_
      intro s₄ _ hBad
      cases hBad
  have hRun : (dangle (booted smallSb)).1.toOption = some 0 := by decide +kernel
  have hEnd := Prog.wp_ok hDone (Prog.eq_ok hRun) rfl
  obtain ⟨n, hShows, hPart⟩ := hEnd.finish
  have hFile : n.file = danglingNodes := by
    funext i
    rcases hPart.file i with hEq | ⟨hFree, hZero, _⟩
    · exact hEq
    -- only free inodes have no links here
    rw [hFree]
    by_cases hi : i = ROOTINO
    · rw [hi] at hZero
      exact absurd hZero (by decide)
    · unfold danglingNodes
      rw [update_of_ne hi]
      exact (if_neg hi).symm
  refine ⟨n, hShows, ?_, hFile⟩
  refine hPart.sound (by simp) ?_
  rintro i (hi | hRef)
  · cases hi
  have hi : i = ROOTINO := by
    by_contra hi
    simp [bootNames, View.get, hi, mkfsNames] at hRef
  rw [hi]
  decide

theorem danglingNodes_exact : LinksExact smallSb.ninodes danglingNodes := by
  have hEntry {d a i : Nat} {nm : Name} (he : (danglingNodes d).Entry a nm i) :
      d = ROOTINO ∧ (a = 0 ∧ nm = dot ∨ a = 1 ∧ nm = dotdot ∨ a = 2 ∧ nm = [120]) := by
    unfold danglingNodes at he
    by_cases hd : d = ROOTINO
    · subst hd
      rw [update_self, entry_addEnt, entry_rootNode] at he
      refine ⟨rfl, ?_⟩
      rcases he with ⟨rfl, rfl, _⟩ | ⟨rfl, rfl, _⟩ | ⟨rfl, rfl, _⟩
      · exact .inr (.inr ⟨rfl, rfl⟩)
      · exact .inl ⟨rfl, rfl⟩
      · exact .inr (.inl ⟨rfl, rfl⟩)
    · rw [update_of_ne hd, entry_bootNames] at he
      exact absurd he.1 hd
  have hType {i : Nat} (hi : (danglingNodes i).type ≠ 0) : i = ROOTINO := by
    by_contra hne
    unfold danglingNodes at hi
    rw [update_of_ne hne] at hi
    exact hi (congrArg type (if_neg hne))
  refine ⟨fun i hi => ?_, fun d hd => ?_, fun d a b nm i j ha hb => ?_⟩
  · rw [hType hi]
    decide
  · have hEq := hType (allocated_of_dir hd)
    rw [hEq]
    exact ⟨⟨ROOTINO, rfl⟩, ROOTINO, rfl⟩
  · have ha' := (hEntry ha).2
    grind

/-
  A new file gets the inode that is named already. Its link
  count is then too small.
-/
theorem dangling_name_breaks_count :
    Consistent smallSb dangling ∧ LinksExact smallSb.ninodes (dangling.names smallSb).file ∧
      (∀ i, ((dangling.names smallSb).file i).nlink.toInt ≠ 32767) ∧
      0 < (dangling.itable ROOTINO).ref ∧
      ParentLinked (dangling.names smallSb).file ROOTINO [121] ∧
      ∃ ip s', create smallSb ROOTINO [121] T_FILE 0 0 dangling = (.ok (some ip), s') ∧
          ¬ LinksExact smallSb.ninodes (s'.names smallSb).file := by
  obtain ⟨n, hShows, hSound, hFile⟩ := dangling_shows
  have hRun : (create smallSb ROOTINO [121] T_FILE 0 0 dangling).1.toOption = some (some 2) ∧
        (((create smallSb ROOTINO [121] T_FILE 0 0
            dangling).2.names smallSb).file 2).type = T_FILE ∧
        (((create smallSb ROOTINO [121] T_FILE 0 0
            dangling).2.names smallSb).file 2).nlink.toInt = 1 ∧
        linksTo smallSb.ninodes ((create smallSb ROOTINO [121] T_FILE 0 0
            dangling).2.names smallSb).file 2 = 2 := by
    decide +kernel
  rw [hShows.names, hFile]
  refine ⟨hShows.consistent hSound, danglingNodes_exact, ?_,
    by decide +kernel, ?_, 2, _, Prog.eq_ok hRun.1, ?_⟩
  · intro i
    unfold danglingNodes
    by_cases hi : i = ROOTINO
    · rw [hi]
      decide
    rw [update_of_ne hi]
    change (nlink (if i = ROOTINO then rootNode else
      free)).toInt ≠ 32767
    rw [if_neg hi]
    decide
  · intro dp name hPath
    have hFound : findPath danglingNodes ROOTINO [121] true = some (ROOTINO, [121]) := by decide
    rw [hFound] at hPath
    cases hPath
    decide
  · intro hExact
    have hBad := hExact.exact 2 (by
      rw [hRun.2.1]
      decide)
    rw [hRun.2.2.1, hRun.2.2.2] at hBad
    exact absurd hBad (by decide)

end Xv6
