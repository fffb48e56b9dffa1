import Xv6.Fs.Links

/-
  The directories that are reachable from the root.

  Key definitions include:
    * `Ends`
    * `Rooted`
    * `Tree`
    * `Upward`
    * `AllLive`
    * `DirectoryTree`

  Key theorems include:
    * `Tree.created`, `Tree.linked`
    * `Tree.unlinked`, `Tree.freed`
-/

open Xv6.Node

-------
-- The End Of A Call
-------

namespace Xv6

/-
  Nodes `M` at the end of a call that started in `n` and has
  made the nodes `N`. What has no links may have been freed,
  and it is still there only if it was in use before.
-/
structure Ends (K : Nat) (n : View Node) (N M : Nat → Node) : Prop where
  formed : Formed K M
  file : ∀ i, M i = N i ∨ M i = Node.free ∧ (N i).nlink = 0
  kept : ∀ i, (M i).type ≠ 0 → (M i).nlink = 0 → 0 < n.ref i

/- A property that survives the freeing of inodes. -/
def FreeClosed (K : Nat) (J : (Nat → Node) → Prop) : Prop := ∀ n N M, J N → Ends K n N M → J M

-------
-- Trees
-------

/- Directories that a path of names leads to. -/
inductive Rooted (N : Nat → Node) : Nat → Prop where
  | root : Rooted N ROOTINO
  | child {d a i : Nat} :
      Rooted N d → (N d).Child a i → (N i).type = T_DIR → Rooted N i

/-
  The name space is tidy, its linked directories hang from
  the root, and directories without links are empty.
-/
structure Tree (K : Nat) (N : Nat → Node) : Prop where
  formed : Formed K N
  tidy : Tidy K N
  rooted : ∀ d, (N d).type = T_DIR → (N d).Live → Rooted N d
  bare : ∀ d a i, (N d).type = T_DIR → ¬ (N d).Live → ¬ (N d).Child a i

/- A directory without links is below one that has links. -/
def Upward (N : Nat → Node) : Prop :=
  ∀ d, (N d).type = T_DIR → ¬ (N d).Live →
    ∃ p, (N d).Entry 1 dotdot p ∧ (N p).type = T_DIR ∧ (N p).Live

/- Everything has links. -/
def AllLive (N : Nat → Node) : Prop := ∀ i, (N i).type ≠ 0 → (N i).Live

section Facts

variable {K : Nat} {N : Nat → Node} {d i : Nat}

/- A name in a linked directory is a link. -/
theorem Tree.live_of_child (h : Tree K N) {a : Nat} {nm : Name} (hLive : (N d).Live)
    (hEntry : (N d).Entry a nm i) (hNm : nm ≠ dot) : (N i).Live := by
  have hType := h.tidy.present d a nm i hLive hEntry
  have hExact := h.tidy.links.exact i hType
  have hLe := gives_le_linksTo (N := N) (i := i) (h.formed.lt_of_entry hEntry)
  have hPos := links_pos hEntry hNm
  rw [gives_of_live hLive] at hLe
  unfold Node.Live
  omega

/- Every entry of a linked directory leads to links. -/
theorem Tree.live_of_entry (h : Tree K N) {a : Nat} {nm : Name} (hLive : (N d).Live)
    (hEntry : (N d).Entry a nm i) : (N i).Live := by
  by_cases hNm : nm = dot
  · subst hNm
    rw [h.tidy.eq_self (h.formed.dir_of_entry hEntry) hEntry]
    exact hLive
  · exact h.live_of_child hLive hEntry hNm

theorem Rooted.live (hRooted : Rooted N i) (h : Tree K N) : (N i).type = T_DIR ∧ (N i).Live := by
  induction hRooted with
  | root => exact h.tidy.root
  | child _ hChild hType ih =>
    obtain ⟨nm, hEntry, hNm, _⟩ := hChild
    exact ⟨hType, h.live_of_child ih.2 hEntry hNm⟩

/- Link counts of a tree are not negative. -/
theorem Tidy.live_or_zero (h : Tidy K N) (hType : (N i).type ≠ 0) :
    (N i).Live ∨ (N i).nlink = 0 := by
  have hExact := h.links.exact i hType
  by_cases hLive : (N i).Live
  · exact .inl hLive
  · refine .inr (BitVec.eq_of_toInt_eq ?_)
    unfold Node.Live at hLive
    change (N i).nlink.toInt = 0
    omega

/- What has a name that is not a dot name is in a linked
  directory. -/
theorem Tree.parent_live (h : Tree K N) {a : Nat} (hChild : (N d).Child a i) : (N d).Live := by
  by_contra hDead
  obtain ⟨nm, hEntry, _⟩ := id hChild
  exact h.bare d a i (h.formed.dir_of_entry hEntry) hDead hChild

end Facts

-------
-- Well-Formed Nodes
-------

variable {K : Nat} {N : Nat → Node} {dp ip m : Nat} {name : Name} {type : BitVec 16}

/- Two nodes are replaced by well-formed ones. -/
theorem Formed.update (h : Formed K N) {i j : Nat} {nd nd' : Node} (hi : i < K) (hj : j < K)
    (hType : nd.type ≠ 0) (hType' : nd'.type ≠ 0) (hPlain : nd.type ≠ T_DIR → nd.ents = [])
    (hPlain' : nd'.type ≠ T_DIR → nd'.ents = []) :
    Formed K (Function.update (Function.update N i nd) j nd') := by
  have hCases {P : Nat → Node → Prop} (hN : ∀ k, P k (N k))
      (hNd : P i nd) (hNd' : P j nd') (k : Nat) :
      P k (Function.update (Function.update N i nd) j nd' k) := by
    by_cases hkj : k = j
    · subst hkj
      rw [Function.update_self]
      exact hNd'
    rw [Function.update_of_ne hkj]
    by_cases hki : k = i
    · subst hki
      rw [Function.update_self]
      exact hNd
    · rw [Function.update_of_ne hki]
      exact hN k
  refine ⟨?_, ?_, ?_⟩
  · exact hCases (P := fun _ nd => nd.type = 0 → nd = Node.free)
      h.free (absurd · hType) (absurd · hType')
  · exact hCases (P := fun _ nd => nd.type ≠ T_DIR → nd.ents = []) h.plain hPlain hPlain'
  · exact hCases (P := fun k nd => nd.type ≠ 0 → k < K) h.bound (fun _ => hi) (fun _ => hj)

theorem Formed.created (h : Formed K N) (hip : ip < K) (hType : type ≠ 0)
    (hDir : (N dp).type = T_DIR) : Formed K (created N dp ip name type) := by
  have hdp := allocated_of_dir hDir
  refine h.update hip (h.bound dp hdp) hType hdp ?_ ?_
  · intro hFile
    exact if_neg hFile
  · intro hFile
    exact absurd hDir hFile

theorem Formed.linked (h : Formed K N) (hType : (N ip).type ≠ 0) (hDir : (N dp).type = T_DIR) :
    Formed K (linked N dp ip name) := by
  have hdp := allocated_of_dir hDir
  refine h.update (h.bound ip hType) (h.bound dp hdp) hType hdp (h.plain ip) ?_
  intro hFile
  exact absurd hDir hFile

theorem Formed.unlinked (h : Formed K N) (hType : (N ip).type ≠ 0) (hDir : (N dp).type = T_DIR) :
    Formed K (unlinked N dp ip m) := by
  have hdp := allocated_of_dir hDir
  refine h.update (h.bound dp hdp) (h.bound ip hType) hdp hType ?_ (h.plain ip)
  intro hFile
  exact absurd hDir hFile

-------
-- Changes Of Trees
-------

variable {K : Nat} {N M : Nat → Node}

variable {n : View Node}

/- Freeing leaves linked directories alone. -/
theorem Ends.eq_of_live (h : Ends K n N M) {i : Nat} (hLive : (N i).Live) :
    M i = N i := by
  rcases h.file i with hEq | ⟨_, hZero⟩
  · exact hEq
  · exact absurd hLive (dead_of_zero hZero)

theorem Ends.eq_of_type (h : Ends K n N M) {i : Nat} (hType : (M i).type ≠ 0) :
    M i = N i := by
  rcases h.file i with hEq | ⟨hFree, _⟩
  · exact hEq
  · rw [hFree] at hType
    exact absurd rfl hType

/-
  Directories stay rooted when the names that lead to them
  stay. Those with the property `P` are kept.
-/
theorem Rooted.transfer {P : Nat → Prop} {d : Nat} (h : Rooted N d)
    (hStep : ∀ d a i, Rooted N d → Rooted N i → (N d).Child a i → (N i).type = T_DIR → P i →
        P d ∧ (M d).Child a i ∧ (M i).type = T_DIR)
    (hd : P d) : Rooted M d := by
  induction h with
  | root => exact .root
  | child hUp hChild hType ih =>
    obtain ⟨hUp', hChild', hType'⟩ := hStep _ _ _ hUp (hUp.child hChild hType) hChild hType hd
    exact (ih hUp').child hChild' hType'

theorem Rooted.freed (hEnds : Ends K n N M) (h : Tree K N) {d : Nat}
    (hd : Rooted N d) : Rooted M d := by
  refine hd.transfer (P := fun _ => True) ?_ trivial
  intro d a i hUp hDown hChild hType _
  rw [hEnds.eq_of_live (hUp.live h).2, hEnds.eq_of_live (hDown.live h).2]
  exact ⟨trivial, hChild, hType⟩

theorem Tree.freed (h : Tree K N) (hEnds : Ends K n N M) :
    Tree K M where
  formed := hEnds.formed
  tidy := h.tidy.freed hEnds.formed hEnds.file
  rooted := by
    intro d hType hLive
    have hEq := hEnds.eq_of_type (allocated_of_dir hType)
    rw [hEq] at hType hLive
    exact (h.rooted d hType hLive).freed hEnds h
  bare := by
    intro d a i hType hDead
    have hEq := hEnds.eq_of_type (allocated_of_dir hType)
    rw [hEq] at hType hDead ⊢
    exact h.bare d a i hType hDead

section Created

variable {dp ip : Nat} {name : Name} {type : BitVec 16}

variable (h : Tree K N) (hne : ip ≠ dp) (hip : ip < K) (hType : type ≠ 0)
variable (hDir : (N dp).type = T_DIR) (hLive : (N dp).Live)
variable (hMax : type = T_DIR → (N dp).nlink.toInt ≠ 32767)
variable (hGone : (N ip).type = 0 ∨ (N ip).nlink = 0) (hFind : findEntry name 0 (N dp).ents = none)

/- The type of an inode that is not the new one. -/
theorem created_type_of_ne {d : Nat} (hd : d ≠ ip) :
    (created N dp ip name type d).type = (N d).type := by
  rw [created_type]
  split
  · rename_i hEq
    rw [hEq]
  · rfl

include hne hLive hMax

/- Who has no links now had none before. -/
theorem not_live_created {d : Nat} (hd : ¬ (created N dp ip name type d).Live) :
    d ≠ ip ∧ ¬ (N d).Live :=
  not_or.mp (hd ∘ (live_created hne hLive hMax d).mpr)

theorem AllLive.created (hAll : AllLive N) : AllLive (created N dp ip name type) := by
  intro i hi
  rw [live_created hne hLive hMax]
  by_cases hip : i = ip
  · exact .inl hip
  · rw [created_type_of_ne hip] at hi
    exact .inr (hAll i hi)

include h hGone

theorem Upward.created (hUp : Upward N) : Upward (created N dp ip name type) := by
  intro d hd hdDead
  obtain ⟨hdip, hDead⟩ := not_live_created hne hLive hMax hdDead
  rw [created_type_of_ne hdip] at hd
  obtain ⟨p, hEntry, hpDir, hpLive⟩ := hUp d hd hDead
  have hpip : p ≠ ip := by
    rintro rfl
    exact h.formed.dead_of_gone hGone hpLive
  refine ⟨p, ?_, ?_, ?_⟩
  · exact (entry_created hne).mpr (.inr (.inr ⟨hdip, hEntry⟩))
  · rw [created_type_of_ne hpip]
    exact hpDir
  · exact (live_created hne hLive hMax p).mpr (.inr hpLive)

omit hLive hMax
include h

/- Linked directories stay where they are. -/
theorem Rooted.created {d : Nat} (hd : Rooted N d) : Rooted (created N dp ip name type) d := by
  have hOther {i : Nat} (hi : Rooted N i) : i ≠ ip := by
    rintro rfl
    exact h.formed.dead_of_gone hGone (hi.live h).2
  refine hd.transfer (P := fun _ => True) ?_ trivial
  rintro d a i hUp hDown ⟨nm, hEntry, hNm⟩ hType _
  refine ⟨trivial, ⟨nm, ?_, hNm⟩, ?_⟩
  · exact (entry_created hne).mpr (.inr (.inr ⟨hOther hUp, hEntry⟩))
  · rw [created_type_of_ne (hOther hDown)]
    exact hType

include hip hType hDir hLive hMax hFind

/- A new inode in a linked directory. -/
theorem Tree.created :
    Tree K (created N dp ip name type) where
  formed := h.formed.created hip hType hDir
  tidy := h.tidy.created h.formed hne hip hType hDir hLive hMax hGone hFind
  rooted := by
    intro d hd hdLive
    rcases (live_created hne hLive hMax d).mp hdLive with
      rfl | hOld
    · have hUp : Rooted (Xv6.created N dp d name type) dp :=
        (h.rooted dp hDir hLive).created h hne hGone
      refine hUp.child (a := (N dp).ents.findIdx Option.isNone)
        ⟨cname name, ?_, h.tidy.not_dots hDir hFind⟩ hd
      exact (entry_created hne).mpr (.inl ⟨rfl, rfl, rfl, rfl⟩)
    · have hdip : d ≠ ip := by
        rintro rfl
        exact h.formed.dead_of_gone hGone hOld
      rw [created_type_of_ne hdip] at hd
      exact (h.rooted d hd hOld).created h hne hGone
  bare := by
    intro d a i hd hdDead hChild
    obtain ⟨hdip, hDead⟩ := not_live_created hne hLive hMax hdDead
    rw [created_type_of_ne hdip] at hd
    obtain ⟨nm, hEntry, hNm⟩ := hChild
    rcases (entry_created hne).mp hEntry with
      ⟨rfl, _⟩ | ⟨rfl, _⟩ | ⟨_, hOld⟩
    · exact hDead hLive
    · exact hdip rfl
    · exact h.bare d a i hd hDead ⟨nm, hOld, hNm⟩

end Created

section Linked

variable {dp ip : Nat} {name : Name}

variable (h : Tree K N) (hType : (N ip).type ≠ 0) (hFile : (N ip).type ≠ T_DIR)
variable (hDir : (N dp).type = T_DIR) (hLive : (N dp).Live) (hMax : (N ip).nlink.toInt ≠ 32767)
variable (hFind : findEntry name 0 (N dp).ents = none)

include hFile hDir

/- The directories that have links stay the same. -/
theorem live_linked_dir {d : Nat} (hd : (N d).type = T_DIR) :
    (linked N dp ip name d).Live ↔ (N d).Live := by
  apply live_linked
  · rintro rfl
    exact hFile hDir
  · rintro rfl
    exact hFile hd

/- No entry disappears. -/
theorem Node.Entry.linked {d a i : Nat} {nm : Name} (hEntry : (N d).Entry a nm i) :
    (linked N dp ip name d).Entry a nm i := by
  have hne : ip ≠ dp := by
    rintro rfl
    exact hFile hDir
  exact (entry_linked hne).mpr (.inr hEntry)

theorem Upward.linked (hUp : Upward N) : Upward (linked N dp ip name) := by
  intro d hd hDead
  rw [linked_type] at hd
  rw [live_linked_dir hFile hDir hd] at hDead
  obtain ⟨p, hEntry, hpDir, hpLive⟩ := hUp d hd hDead
  refine ⟨p, hEntry.linked hFile hDir, ?_, ?_⟩
  · rw [linked_type]
    exact hpDir
  · exact (live_linked_dir hFile hDir hpDir).mpr hpLive

include hMax

theorem AllLive.linked (hAll : AllLive N) : AllLive (linked N dp ip name) := by
  have hne : ip ≠ dp := by
    rintro rfl
    exact hFile hDir
  intro i hi
  rw [linked_type] at hi
  have hOld := hAll i hi
  by_cases hip : i = ip
  · subst hip
    unfold Node.Live at hOld ⊢
    rw [nlink_linked hne, if_pos rfl, toInt_add_one hMax]
    omega
  · exact (live_linked hne hip).mpr hOld

include h hType hLive hFind

/- A new link to a file, in a linked directory. -/
theorem Tree.linked :
    Tree K (linked N dp ip name) where
  formed := h.formed.linked hType hDir
  tidy := h.tidy.linked h.formed hType hFile hDir hLive hMax hFind
  rooted := by
    intro d hd hdLive
    rw [linked_type] at hd
    rw [live_linked_dir hFile hDir hd] at hdLive
    refine (h.rooted d hd hdLive).transfer (P := fun _ => True) ?_ trivial
    rintro d a i _ _ ⟨nm, hEntry, hNm⟩ hi _
    rw [linked_type]
    exact ⟨trivial, ⟨nm, hEntry.linked hFile hDir, hNm⟩, hi⟩
  bare := by
    rintro d a i hd hdDead ⟨nm, hEntry, hNm⟩
    rw [linked_type] at hd
    rw [live_linked_dir hFile hDir hd] at hdDead
    have hne : ip ≠ dp := by
      rintro rfl
      exact hFile hDir
    rcases (entry_linked hne).mp hEntry with ⟨rfl, _⟩ | hOld
    · exact hdDead hLive
    · exact h.bare d a i hd hdDead ⟨nm, hOld, hNm⟩

end Linked

section Unlinked

variable (h : Tree K N) (hne : ip ≠ dp) (hChild : (N dp).Child m ip) (hLinked : (N ip).Live)
variable (hEmpty : (N ip).type = T_DIR → (N ip).Empty)

theorem Node.Child.lt_length {nd : Node} (h : nd.Child m ip) : m < nd.ents.length := by
  obtain ⟨_, hEntry, _⟩ := h
  exact (List.getElem?_eq_some_iff.mp hEntry).1

include h hChild hLinked hEmpty

theorem Tree.removable (hDir : (N ip).type = T_DIR) : Removable N dp ip m :=
  ⟨hDir, h.parent_live hChild, hLinked, hChild, hEmpty hDir⟩

include hne

/- Only a directory that was removed loses its links. -/
theorem Tree.live_unlinked {d : Nat} (hd : (N d).type = T_DIR) :
    (unlinked N dp ip m d).Live ↔ (N d).Live ∧ d ≠ ip :=
  Xv6.live_unlinked h.tidy h.formed hne (h.removable hChild hLinked hEmpty) hd

/- A name is removed. -/
theorem Tree.unlinked :
    Tree K (unlinked N dp ip m) where
  formed := by
    have hLive := h.parent_live hChild
    obtain ⟨nm, hEntry, _⟩ := hChild
    exact h.formed.unlinked (h.tidy.present dp m nm ip hLive hEntry) (h.formed.dir_of_entry hEntry)
  tidy := h.tidy.unlinked h.formed hne (h.parent_live hChild) hChild hLinked hEmpty
  rooted := by
    intro d hd hdLive
    rw [unlinked_type] at hd
    rw [h.live_unlinked hne hChild hLinked hEmpty hd] at hdLive
    refine (h.rooted d hd hdLive.1).transfer (P := fun i => i ≠ ip) ?_ hdLive.2
    rintro d a i hUp _ hd' hi hiip
    obtain ⟨nm, hEntry, hNm⟩ := id hd'
    rw [unlinked_type]
    refine ⟨?_, ⟨nm, ?_, hNm⟩, hi⟩
    · rintro rfl
      have hDir := (hUp.live h).1
      exact (h.removable hChild hLinked hEmpty hDir).no_child h.tidy hd'
    · refine (entry_unlinked hne hChild.lt_length).mpr ⟨?_, hEntry⟩
      rintro ⟨rfl, rfl⟩
      obtain ⟨_, hEntry', _⟩ := hChild
      exact hiip (hEntry'.unique hEntry).2
  bare := by
    rintro d a i hd hdDead ⟨nm, hEntry, hNm⟩
    obtain ⟨_, hOld⟩ := (entry_unlinked hne hChild.lt_length).mp hEntry
    rw [unlinked_type] at hd
    rw [h.live_unlinked hne hChild hLinked hEmpty hd, not_and_not_right] at hdDead
    by_cases hLive : (N d).Live
    · obtain rfl := hdDead hLive
      exact (h.removable hChild hLinked hEmpty hd).no_child h.tidy ⟨nm, hOld, hNm⟩
    · exact h.bare d a i hd hLive ⟨nm, hOld, hNm⟩

/-
  The directory above the removed one must not be removed
  as long as that one is there.
-/
theorem Upward.unlinked (hUp : Upward N)
    (hBelow : ∀ d, (N d).type = T_DIR → ¬ (N d).Live → ¬ (N d).Entry 1 dotdot ip) :
    Upward (unlinked N dp ip m) := by
  have hAlive {d : Nat} (hd : (N d).type = T_DIR) := h.live_unlinked hne hChild hLinked hEmpty hd
  have hKeep {d p : Nat} (he : (N d).Entry 1 dotdot p) :
      (Xv6.unlinked N dp ip m d).Entry 1 dotdot p := by
    refine (entry_unlinked hne hChild.lt_length).mpr ⟨?_, he⟩
    rintro ⟨rfl, rfl⟩
    obtain ⟨_, hEntry, _, hNm⟩ := hChild
    exact hNm (hEntry.unique he).1.symm
  intro d hd hdDead
  rw [unlinked_type] at hd
  rw [hAlive hd, not_and_not_right] at hdDead
  by_cases hLive : (N d).Live
  · obtain rfl := hdDead hLive
    have hRemove := h.removable hChild hLinked hEmpty hd
    have hDir : (N dp).type = T_DIR := by
      obtain ⟨_, hEntry, _⟩ := hChild
      exact h.formed.dir_of_entry hEntry
    refine ⟨dp, hKeep (hRemove.up h.tidy), ?_, ?_⟩
    · rw [unlinked_type]
      exact hDir
    · exact (hAlive hDir).mpr ⟨hRemove.live, hne.symm⟩
  · obtain ⟨p, hEntry, hpDir, hpLive⟩ := hUp d hd hLive
    refine ⟨p, hKeep hEntry, ?_, ?_⟩
    · rw [unlinked_type]
      exact hpDir
    · refine (hAlive hpDir).mpr ⟨hpLive, ?_⟩
      rintro rfl
      exact hBelow d hd hLive hEntry

/- The last link of an inode in use must not be removed. -/
theorem AllLive.unlinked
    {n : View Node} (hAll : AllLive N) (hLast : (N ip).nlink = 1 → n.ref ip = 0)
    (hEnds : Ends K n (unlinked N dp ip m) M) : AllLive M := by
  intro i hi
  have hEq := hEnds.eq_of_type hi
  by_cases hip : i = ip
  · subst hip
    have hNlink : (M i).nlink = (N i).nlink - 1 := by rw [hEq, nlink_unlinked hne, if_pos rfl]
    by_cases hOne : (N i).nlink = 1
    · have hKept := hEnds.kept i hi (by rw [hNlink, hOne]; rfl)
      rw [hLast hOne] at hKept
      exact absurd hKept (lt_irrefl 0)
    have hNe : (N i).nlink.toInt ≠ 1 := by
      intro hInt
      exact hOne (BitVec.eq_of_toInt_eq hInt)
    unfold Node.Live at hLinked ⊢
    rw [hNlink, toInt_sub_one hLinked]
    omega
  · rw [hEq, unlinked_type] at hi
    rw [hEq]
    have hOld := hAll i hi
    by_cases hDir : (N i).type = T_DIR
    · exact (h.live_unlinked hne hChild hLinked hEmpty hDir).mpr ⟨hOld, hip⟩
    have hdp : i ≠ dp := by
      rintro rfl
      obtain ⟨_, hEntry, _⟩ := hChild
      exact hDir (h.formed.dir_of_entry hEntry)
    unfold Node.Live at hOld ⊢
    rw [nlink_unlinked hne, if_neg hip, if_neg (fun hBoth => hdp hBoth.2)]
    exact hOld

end Unlinked

theorem Upward.freed {n : View Node} (h : Upward N) (hEnds : Ends K n N M) : Upward M := by
  intro d hd hDead
  have hEq := hEnds.eq_of_type (allocated_of_dir hd)
  rw [hEq] at hd hDead
  obtain ⟨p, hEntry, hpDir, hpLive⟩ := h d hd hDead
  refine ⟨p, ?_, ?_, ?_⟩
  · rw [hEq]
    exact hEntry
  · rw [hEnds.eq_of_live hpLive]
    exact hpDir
  · rw [hEnds.eq_of_live hpLive]
    exact hpLive

theorem AllLive.freed {n : View Node} (h : AllLive N) (hEnds : Ends K n N M) : AllLive M := by
  intro i hi
  have hEq := hEnds.eq_of_type hi
  rw [hEq] at hi ⊢
  exact h i hi

-------
-- What Trees Are For
-------

/-
  The directories that names lead to form a tree. Each but
  the root has one name, in the directory that its entry
  `..` leads to, and the root has no name.
-/
structure DirectoryTree (N : Nat → Node) : Prop where
  dir : ∀ d, Rooted N d → (N d).type = T_DIR
  self : ∀ d a i, Rooted N d → (N d).Entry a dot i → i = d
  above : ∀ d, Rooted N d → d ≠ ROOTINO → ∃ p a, Rooted N p ∧ (N p).Child a d ∧
        (∀ q b, (N q).Child b d → q = p ∧ b = a) ∧
        ∀ b i, (N d).Entry b dotdot i → i = p
  dots : ∀ d, Rooted N d →
    (∃ a, (N d).Entry a dot d) ∧ ∃ a p, (N d).Entry a dotdot p
  top : ∀ b i, (N ROOTINO).Entry b dotdot i → i = ROOTINO
  root : ∀ d a, ¬ (N d).Child a ROOTINO

variable {K : Nat} {N : Nat → Node}

/- A directory has one entry `..`. -/
theorem Tidy.eq_above (h : Tidy K N) {d a b i j : Nat} (ha : (N d).Entry a dotdot i)
    (hb : (N d).Entry b dotdot j) : j = i := by
  obtain rfl := h.links.distinct d a b dotdot i j ha hb
  exact (ha.unique hb).2

theorem Tree.directoryTree (h : Tree K N) :
    DirectoryTree N where
  dir := fun _ hd => (hd.live h).1
  self := fun _ _ _ hd hEntry => h.tidy.eq_self (hd.live h).1 hEntry
  above := by
    intro d hd hRoot
    obtain ⟨hDir, hLive⟩ := hd.live h
    obtain ⟨p, a, hpLive, hChild⟩ := h.tidy.named d hDir hLive hRoot
    obtain ⟨_, hUp⟩ := h.tidy.below p a d hpLive hChild hDir
    have hpDir : (N p).type = T_DIR := by
      obtain ⟨_, hEntry, _⟩ := hChild
      exact h.formed.dir_of_entry hEntry
    refine ⟨p, a, h.rooted p hpDir hpLive, hChild, ?_, ?_⟩
    · intro q b hOther
      have hqLive := h.parent_live hOther
      obtain ⟨_, hUp'⟩ := h.tidy.below q b d hqLive hOther hDir
      obtain rfl := h.tidy.eq_above hUp hUp'
      exact ⟨rfl, h.tidy.once q b a d hqLive hOther hChild hDir⟩
    · intro b i hEntry
      exact h.tidy.eq_above hUp hEntry
  dots := by
    intro d hd
    obtain ⟨hDir, _⟩ := hd.live h
    obtain ⟨p, hUp⟩ := (h.tidy.links.dots d hDir).2
    exact ⟨⟨0, h.tidy.self d hDir⟩, 1, p, hUp⟩
  top := fun _ _ hEntry => h.tidy.eq_above h.tidy.top hEntry
  root := by
    intro d a hChild
    have hLive := h.parent_live hChild
    exact (h.tidy.below d a ROOTINO hLive hChild h.tidy.root.1).1 rfl

/-
  An entry of a directory that is removed is a dot name, and
  `..` leads to a directory that has links.
-/
theorem Tree.entry_of_dead (h : Tree K N) (hUp : Upward N) {d a i : Nat} {nm : Name}
    (hDir : (N d).type = T_DIR) (hDead : ¬ (N d).Live)
    (hEntry : (N d).Entry a nm i) : nm = dot ∧ i = d ∨ nm = dotdot ∧ (N i).Live := by
  by_cases hDot : nm = dot
  · subst hDot
    exact .inl ⟨rfl, h.tidy.eq_self hDir hEntry⟩
  by_cases hDotdot : nm = dotdot
  · subst hDotdot
    obtain ⟨p, hpEntry, _, hpLive⟩ := hUp d hDir hDead
    obtain rfl := h.tidy.eq_above hpEntry hEntry
    exact .inr ⟨rfl, hpLive⟩
  · exact absurd ⟨nm, hEntry, hDot, hDotdot⟩ (h.bare d a i hDir hDead)

/- Every entry leads to an allocated inode. -/
theorem Tree.entry_allocated (h : Tree K N) (hUp : Upward N) {d a i : Nat} {nm : Name}
    (hEntry : (N d).Entry a nm i) : (N i).type ≠ 0 := by
  have hDir := h.formed.dir_of_entry hEntry
  by_cases hLive : (N d).Live
  · exact h.tidy.present d a nm i hLive hEntry
  rcases h.entry_of_dead hUp hDir hLive hEntry with
    ⟨_, rfl⟩ | ⟨_, hiLive⟩
  · exact allocated_of_dir hDir
  · intro hFree
    rw [h.formed.free i hFree] at hiLive
    exact dead_free hiLive

/- No path leads to an inode that is free or will be freed. -/
theorem Tree.not_gone {n : View Node} (h : Tree K n.file) (hUp : Upward n.file)
    (hSettled : n.Settled) (hSound : n.Sound) {cwd i : Nat}
    (hCwd : 0 < n.ref cwd) (hSees : Sees n.file cwd i) : ¬ n.Gone i := by
  have hLinked {j : Nat} (hj : (n.file j).Live) : ¬ n.Gone j := by
    intro hGone
    exact h.formed.dead_of_gone (hGone.imp_right fun hZero => hZero.1) hj
  have hHeld {j : Nat} (hj : (n.file j).type ≠ 0) (hRef : (n.file j).nlink = 0 → 0 < n.ref j) :
      ¬ n.Gone j := by
    rintro (hFree | ⟨hZero, hRef'⟩)
    · exact hj hFree
    · have hPos := hRef hZero
      omega
  rcases hSees with rfl | rfl | ⟨d, nm, hDir, hMem⟩
  · exact hLinked h.tidy.root.2
  · exact hHeld (hSound _ hCwd) fun _ => hCwd
  · obtain ⟨a, hEntry⟩ := exists_entry hMem
    by_cases hLive : (n.file d).Live
    · exact hLinked (h.live_of_entry hLive hEntry)
    rcases h.entry_of_dead hUp hDir hLive hEntry with
      ⟨_, rfl⟩ | ⟨_, hiLive⟩
    · have hType := allocated_of_dir hDir
      exact hHeld hType fun hZero => (hSettled i hType hZero).1
    · exact hLinked hiLive

/- What has links is named in the tree. -/
theorem Tree.exists_entry (h : Tree K N) {i : Nat} (hType : (N i).type ≠ 0) (hLive : (N i).Live) :
    ∃ d a nm, Rooted N d ∧ (N d).Entry a nm i := by
  by_contra hNone
  have hNobody : linksTo K N i = 0 := by
    apply linksTo_eq_zero
    intro d a nm hdLive hEntry
    have hDir := h.formed.dir_of_entry hEntry
    exact absurd ⟨d, a, nm, h.rooted d hDir hdLive, hEntry⟩ hNone
  have hExact := h.tidy.links.exact i hType
  unfold Node.Live at hLive
  omega

/-
  What nobody refers to is allocated just if a directory of
  the tree has an entry for it.
-/
theorem Tree.allocated_iff {n : View Node} (h : Tree K n.file) (hSettled : n.Settled) {i : Nat}
    (hRef : n.ref i = 0) :
    (n.file i).type ≠ 0 ↔ ∃ d a nm, Rooted n.file d ∧ (n.file d).Entry a nm i := by
  constructor
  · intro hType
    have hLive : (n.file i).Live := by
      refine (h.tidy.live_or_zero hType).resolve_right ?_
      intro hZero
      have hPos := (hSettled i hType hZero).1
      omega
    exact h.exists_entry hType hLive
  · rintro ⟨d, a, nm, hd, hEntry⟩
    exact h.tidy.present d a nm i (hd.live h).2 hEntry

-------
-- The First Tree
-------

theorem bootNames_allLive : AllLive bootNames.file := by
  intro i hi
  rw [eq_root_of_bootNames hi]
  decide

theorem bootNames_formed (hRoot : ROOTINO < K) :
    Formed K bootNames.file where
  free := by
    intro i hi
    by_cases hEq : i = ROOTINO
    · subst hEq
      exact absurd hi (by decide)
    · exact bootNames_of_ne hEq
  plain := by
    intro i hi
    by_cases hEq : i = ROOTINO
    · subst hEq
      exact absurd rfl hi
    · rw [bootNames_of_ne hEq]
      rfl
  bound := by
    intro i hi
    rw [eq_root_of_bootNames hi]
    exact hRoot

/- Only the root is a directory. -/
theorem bootNames_tree (hRoot : ROOTINO < K) :
    Tree K bootNames.file where
  formed := bootNames_formed hRoot
  tidy := bootNames_tidy hRoot
  rooted := by
    intro d hd _
    have hEq : d = ROOTINO := eq_root_of_bootNames (allocated_of_dir hd)
    rw [hEq]
    exact .root
  bare := fun _ _ _ _ _ => not_child_bootNames

end Xv6
