import Xv6.Fs.NameSpec

/-
  What `create`, `sys_link` and `sys_unlink` do to the name
  space: each either leaves the nodes as they are or makes
  one well-defined change.

  Key definitions include:
    * `View.Gone`
    * `created`, `linked`, `unlinked`

  Main rules are:
    * `create_call`
    * `sysLink_call`
    * `sysUnlink_call`
-/

open Prog (wp wp_bind wp_imp wp_pure wp_read wp_stop)

open Function List Xv6.Node

-------
-- Changes of the Nodes
-------

namespace Xv6

/-
  An inode that is free, or that is freed when it is looked
  up because it has neither links nor references.
-/
def View.Gone (n : View Node) (i : Nat) : Prop :=
  (n.file i).type = 0 ∨ (n.file i).nlink = 0 ∧ n.ref i = 0

/- A new inode whose parent directory is `dp`. -/
def newNode (type : BitVec 16) (dp ip : Nat) : Node where
  type := type
  nlink := 1
  ents :=
    if type = T_DIR then
      [some (dot, ip), some (dotdot, dp)]
    else []

/- The new inode `ip` has been entered into `dp`. -/
def created (N : Nat → Node) (dp ip : Nat) (name : Name) (type : BitVec 16) : Nat → Node :=
  update (update N ip (newNode type dp ip)) dp
    { (N dp).addEnt name ip with
      nlink :=
        if type = T_DIR then (N dp).nlink + 1
        else (N dp).nlink }

/- The inode `ip` has been entered into `dp`. -/
def linked (N : Nat → Node) (dp ip : Nat) (name : Name) : Nat → Node :=
  update (update N ip ((N ip).setNlink ((N ip).nlink + 1))) dp ((N dp).addEnt name ip)

/- The entry `m` of `dp`, for `ip`, has been removed. -/
def unlinked (N : Nat → Node) (dp ip m : Nat) : Nat → Node :=
  update (update N dp
      { (N dp).setEnt m none with
        nlink :=
          if (N ip).type = T_DIR then (N dp).nlink - 1
          else (N dp).nlink }) ip
    ((N ip).setNlink ((N ip).nlink - 1))

/- The names `.` and `..` are stored as they are. -/
theorem cname_dot : cname dot = dot := by decide

theorem cname_dotdot : cname dotdot = dotdot := by decide

theorem namecmp_dot (name : Name) : namecmp name dot = 0 ↔ cname name = dot := by
  rw [namecmp_eq_zero_iff, cname_dot]

theorem namecmp_dotdot (name : Name) : namecmp name dotdot = 0 ↔ cname name = dotdot := by
  rw [namecmp_eq_zero_iff, cname_dotdot]

theorem one_lt_MAXENTS : 1 < MAXENTS := by decide

/- Whether there is room depends on the types only. -/
theorem NoRoom.congr {sb : Superblock} {N N' : Nat → Node} (h : NoRoom sb N')
    (hType : ∀ i, (N' i).type = (N i).type) : NoRoom sb N := by
  unfold NoRoom at h ⊢
  simp only [hType] at h
  exact h

/- An exit that has only the inode `i` left to put. -/
theorem leave_call {sb : Superblock} {n : View Node} {N : Nat → Node} {s : Fs} {i : Nat}
    {known : List Nat} {α : Type} {a : α} {Q : α → Fs → Prop} {E : Halt → Fs → Prop}
    (h : During sb n N [i] known s) (hQ : ∀ s', During sb n N [] [] s' → Q a s') :
    wp (do iunlockput sb i; return a) Q E s := by
  rw [wp_bind]
  apply iunlockput_call h [] [] (List.Perm.refl _) (by simp)
  intro s' h'
  rw [wp_pure]
  exact hQ s' h'

-------
-- Create
-------

section Create

variable {sb : Superblock} {n : View Node} {N : Nat → Node}
variable {s : Fs} {dp ip : Nat} {type : BitVec 16} {E : Halt → Fs → Prop}

variable {Q : Option Nat → Fs → Prop}

/-
  Both entries of a new directory are written, or there may
  be no block for them. It stays an empty file otherwise.
-/
theorem createDots_call {Q : Bool → Fs → Prop} (h : During sb n (update N ip (Node.fresh type))
        [ip, dp] [ip, dp] s)
    (hDone : ∀ s', During sb n (update N ip (newNode type dp ip)) [ip, dp] [ip, dp] s' → Q true s')
    (hFail : ∀ s' nd, During sb n (update N ip nd) [ip, dp] [ip, dp] s' →
        NoRoom sb (update N ip (Node.fresh type)) →
        Q false s')
    (hTable : NINODE ≤ n.inUse sb + 2 → ∀ s', E (.panic .igetNoInodes) s') :
    wp (createDots sb dp ip type) Q E s := by
  have hip : ip ∈ [ip, dp] := mem_cons_self
  have hIp := h.ranged hip
  have hDp := h.ranged (i := dp) (by simp)
  unfold createDots
  by_cases hDir : type = T_DIR
  · have hDot : (fresh type).addEnt dot ip =
          { fresh type with
            ents := [some (dot, ip)] } := by
      simp [addEnt, setEnt, fresh, setSlot, cname_dot]
    have hDotdot : addEnt
            { fresh type with
              ents := [some (dot, ip)] } dotdot dp =
          newNode type dp ip := by
      simp [addEnt, setEnt, fresh, setSlot, cname_dotdot, newNode, hDir]
    rw [if_pos hDir, wp_bind]
    apply dirlink_call h hip (by rw [update_self]; exact hDir) hIp.1 hIp.2
    · intro s₁ _ h₁
      rw [update_self, update_idem, hDot] at h₁
      rw [if_neg (by decide), wp_bind]
      apply dirlink_call h₁ hip (by rw [update_self]; exact hDir) hDp.1 hDp.2
      · intro s₂ _ h₂
        rw [update_self, update_idem, hDotdot] at h₂
        rw [if_neg (by decide), wp_pure]
        exact hDone s₂ h₂
      · intro s₂ h₂ hReason
        rw [if_pos (by decide), wp_pure]
        apply hFail s₂ _ h₂
        rw [update_self] at hReason
        rcases hReason with hFind | hRoom | hMax
        · exact absurd rfl hFind
        · apply hRoom.congr
          intro j
          by_cases hj : j = ip
          · simp [hj]
          · simp [hj]
        · exact absurd hMax one_lt_MAXENTS.not_ge
      · exact hTable
    · intro s₁ h₁ hReason
      rw [if_pos (by decide), wp_pure]
      apply hFail s₁ _ h₁
      rw [update_self] at hReason
      rcases hReason with hFind | hRoom | hMax
      · exact absurd rfl hFind
      · exact hRoom
      · exact absurd hMax (Nat.lt_of_succ_lt one_lt_MAXENTS).not_ge
    · exact hTable
  · have hNode : fresh type = newNode type dp ip := by
      unfold newNode
      rw [if_neg hDir]
      rfl
    rw [hNode] at h
    rw [if_neg hDir, wp_pure]
    exact hDone s h

theorem createFail_call {nd : Node} (h : During sb n (update N ip nd)
        [ip, dp] [ip, dp] s)
    (hne : ip ≠ dp) (hRef : n.ref ip = 0)
    (hQ : ∀ s', During sb n (update N ip Node.free) [] [] s' →
        Q none s') : wp (createFail sb dp ip) Q E s := by
  unfold createFail
  rw [wp_bind]
  apply setNlink_call h mem_cons_self
  intro s₁ h₁
  rw [update_idem] at h₁
  rw [wp_bind]
  apply iunlockput_free_call h₁ [dp] [dp] (List.Perm.refl _)
  · intro j hj
    exact ⟨mem_cons_of_mem ip hj, hj⟩
  · exact mem_cons_self
  · rw [update_self]
    rfl
  · exact hRef
  · simpa using hne
  · intro s₂ h₂
    rw [update_idem] at h₂
    apply leave_call h₂
    intro s₃ h₃
    exact hQ s₃ h₃

/- Why `create` does not make an inode. -/
inductive CreateFails (sb : Superblock) (n : View Node) (cwd : Nat) (path : Path)
    (type : BitVec 16) : Prop
  | noParent (h : findPath n.file cwd path true = none)
  | nameExists (dp ip m : Nat) (name : Name)
      (h : findPath n.file cwd path true = some (dp, name))
      (h' : findEntry name 0 (n.file dp).ents = some (ip, m))
  | noInode (h : ∀ j, 1 ≤ j → j < sb.ninodes → (n.file j).type ≠ 0)
  | noRoom (ip : Nat) (h : NoRoom sb (update n.file ip (Node.fresh type)))
  | largest (dp : Nat) (name : Name)
      (h : findPath n.file cwd path true = some (dp, name))
      (h' : MAXENTS ≤ (n.file dp).ents.length)

/- The link of the `..` entry completes a new directory. -/
theorem addDotdot_call {Q : Unit → Fs → Prop} {name : Name} {held known : List Nat}
    (h : During sb n (update (update N ip (newNode type dp ip)) dp ((N dp).addEnt name ip))
        held known s)
    (hdp : dp ∈ known)
    (hQ : ∀ s', During sb n (created N dp ip name type) held known s' → Q () s') :
    wp (addDotdot sb dp type) Q E s := by
  unfold addDotdot
  unfold created at hQ
  by_cases hDir : type = T_DIR
  · rw [if_pos hDir] at hQ ⊢
    apply setNlink_call h hdp
    intro s' h'
    rw [update_self, update_idem] at h'
    exact hQ s' h'
  · rw [if_neg hDir] at hQ ⊢
    rw [wp_pure]
    exact hQ s h

theorem createNew_call {name : Name}
    (h : Born sb n n.file [dp] [dp] ip type s) (hType : type ≠ 0)
    (hGone : n.file ip = Node.free ∨ (n.file ip).nlink = 0 ∧ n.ref ip = 0)
    (hRef : n.ref ip = 0) (hDir : (n.file dp).type = T_DIR)
    (hFind : findEntry name 0 (n.file dp).ents = none) (major minor : BitVec 16)
    (hFail : ∀ s', During sb n n.file [] [] s' → NoRoom sb (update n.file ip (Node.fresh type)) ∨
          MAXENTS ≤ (n.file dp).ents.length →
        Q none s')
    (hNew : ∀ s', ip ≠ dp → During sb n (created n.file dp ip name type) [ip] [ip] s' →
        Q (some ip) s')
    (hTable : NINODE ≤ n.inUse sb + 2 → ∀ s', E (.panic .igetNoInodes) s') :
    wp (createNew sb dp name type major minor ip) Q E s := by
  have hne : ip ≠ dp := by
    obtain ⟨_, _, _, _, _, hNot⟩ := h
    simpa using hNot
  have hNode (nd : Node) : update n.file ip nd dp = n.file dp := update_of_ne hne.symm ..
  have hUndo (s' : Fs) (nd : Node) (h' : During sb n (update n.file ip nd) [ip, dp] [ip, dp] s')
      (hReason : NoRoom sb (update n.file ip (fresh type)) ∨
          MAXENTS ≤ (n.file dp).ents.length) :
      wp (createFail sb dp ip) Q E s' := by
    apply createFail_call h' hne hRef
    intro s'' h''
    obtain ⟨v, hAt, hDirs, hPart⟩ := h''
    exact hFail s'' ⟨v, hAt, hDirs, hPart.forgetFreed hGone (by simp)⟩ hReason
  unfold createNew
  rw [wp_bind]
  apply createInit_call h hType
  intro s₁ h₁
  rw [wp_bind]
  apply createDots_call h₁
  · intro s₂ h₂
    have hRange := h₂.ranged mem_cons_self
    rw [if_neg (by simp), wp_bind]
    apply dirlink_call h₂ (show dp ∈ [ip, dp] by simp) (by rw [hNode]; exact hDir) hRange.1 hRange.2
    · intro s₃ _ h₃
      rw [hNode] at h₃
      rw [if_neg (by decide), wp_bind]
      apply addDotdot_call h₃ (by simp)
      intro s₄ h₄
      rw [wp_bind]
      apply iunlockput_call h₄ [ip] [ip] (List.Perm.swap ..)
      · intro j hj
        rw [mem_singleton.mp hj]
        exact ⟨mem_cons_self, mem_cons_self⟩
      · intro s₅ h₅
        rw [wp_pure]
        exact hNew s₅ hne h₅
    · intro s₃ h₃ hReason
      apply hUndo s₃ _ h₃
      rw [hNode] at hReason
      rcases hReason with hSome | hRoom | hMax
      · exact absurd hFind hSome
      · left
        apply hRoom.congr
        intro j
        by_cases hj : j = ip
        · subst hj
          rw [update_self, update_self]
          rfl
        · rw [update_of_ne hj, update_of_ne hj]
      · exact .inr hMax
    · exact hTable
  · intro s₂ nd h₂ hRoom
    exact hUndo s₂ nd h₂ (.inl hRoom)
  · exact hTable

theorem create_call {cwd : Nat} {path : Path} (h : Shows sb s n)
    (hSound : n.Sound) (hCwd : 0 < n.ref cwd) (hType : type ≠ 0) (major minor : BitVec 16)
    (hFail : ∀ s', During sb n n.file [] [] s' → CreateFails sb n cwd path type → Q none s')
    (hFound : ∀ dp ip m name s', findPath n.file cwd path true = some (dp, name) →
        findEntry name 0 (n.file dp).ents = some (ip, m) →
        type = T_FILE →
        (n.file ip).type = T_FILE ∨ (n.file ip).type = T_DEVICE →
        During sb n n.file [ip] [ip] s' →
        Q (some ip) s')
    (hNew : ∀ dp ip name s', findPath n.file cwd path true = some (dp, name) →
        findEntry name 0 (n.file dp).ents = none →
        1 ≤ ip → ip < sb.ninodes → n.Gone ip →
        (∀ j, 1 ≤ j → j < ip → (n.file j).type ≠ 0) →
        n.inUse sb < NINODE →
        ip ≠ dp →
        During sb n (created n.file dp ip name type) [ip] [ip] s' →
        Q (some ip) s')
    (hDead : ∀ i, Meets n.file cwd path i → n.Gone i → ∀ s', E (.panic .ilockNoType) s')
    (hTable : NINODE ≤ n.inUse sb + 2 → ∀ s', E (.panic .igetNoInodes) s') :
    wp (create sb cwd path type major minor) Q E s := by
  have hLess (hUse : NINODE ≤ n.inUse sb + 1) : ∀ s', E (.panic .igetNoInodes) s' :=
    hTable (by omega)
  unfold create nameiparent
  rw [wp_bind]
  apply namex_call (During.start h) hCwd (List.Subset.refl _)
  · intro hPath s₁ h₁
    rw [wp_pure]
    exact hFail s₁ h₁ (.noParent hPath)
  · intro dp name hPath s₁ h₁
    have hDir := findPath_parent_dir hPath
    rw [wp_bind]
    apply ilock_call h₁ mem_cons_self
    · intro s₂ _ h₂
      rw [wp_bind]
      apply dirlookup_call h₂ mem_cons_self hDir
      · intro ip m s₃ hFind h₃
        have hMeets : Meets n.file cwd path ip :=
          .inr ⟨dp, name, m, hDir, follow_name_mem hPath, hFind⟩
        rw [wp_bind]
        apply iunlockput_call h₃ [ip] [] (List.Perm.swap ..) (by simp)
        intro s₄ h₄
        rw [wp_bind]
        apply ilock_call h₄ mem_cons_self
        · intro s₅ _ h₅
          rw [wp_bind, wp_read, h₅.copy_type mem_cons_self]
          split
          · next hOk =>
              rw [wp_pure]
              exact hFound dp ip m name s₅ hPath hFind hOk.1 hOk.2 h₅
          apply leave_call h₅
          intro s₆ h₆
          exact hFail s₆ h₆ (.nameExists dp ip m name hPath hFind)
        · intro _ hGone
          exact hDead ip hMeets hGone
      · intro hFind
        rw [wp_bind]
        apply ialloc_call h₂ hType
        · intro hAll
          apply leave_call h₂
          intro s₃ h₃
          exact hFail s₃ h₃ (.noInode hAll)
        · intro ip s₃ hOne hLt hGone hBefore hUse h₃
          have hRef : n.ref ip = 0 := by
            have hNonneg := h.nonneg ip
            by_contra hNe
            rcases hGone with hFree | hDead
            · exact hSound ip (by omega) hFree
            · exact hNe hDead.2
          apply createNew_call h₃ hType (hGone.imp_left h.file_of_free) hRef hDir hFind
          · intro s₄ h₄ hReason
            apply hFail s₄ h₄
            rcases hReason with hRoom | hMax
            · exact .noRoom ip hRoom
            · exact .largest dp name hPath hMax
          · intro s₄ hne h₄
            exact hNew dp ip name s₄ hPath hFind hOne hLt hGone hBefore
              (hUse hRef (mt mem_singleton.mp hne)) hne h₄
          · exact hTable
        · exact hLess
      · exact hLess
    · intro _ hGone
      exact hDead dp (findPath_meets hPath) hGone
  · intro i hMeets _ hGone
    exact hDead i hMeets hGone
  · exact hLess

end Create

-------
-- Link
-------

section Link

variable {sb : Superblock} {n : View Node} {N : Nat → Node} {s : Fs} {ip : Nat}
variable {E : Halt → Fs → Prop}

variable {Q : Int → Fs → Prop}

/- Nodes in which one link count differs. -/
theorem sameTree_setNlink (N : Nat → Node) (i : Nat) (nlink : BitVec 16) :
    SameTree N (update N i ((N i).setNlink nlink)) := by
  constructor <;> intro j
  all_goals
    by_cases hj : j = i
    · subst hj
      rw [update_self]
      rfl
    · rw [update_of_ne hj]

theorem SameTree.findPath_eq {N N' : Nat → Node} (h : SameTree N N') (cwd : Nat) (path : Path)
    (parent : Bool) : findPath N' cwd path parent = findPath N cwd path parent :=
  h.follow_eq parent _ _

/- The link is taken back. -/
theorem linkBad_call
    (h : During sb n (update N ip ((N ip).setNlink ((N ip).nlink + 1))) [ip] [ip] s)
    (hQ : ∀ s', During sb n N [] [] s' → Q (-1) s') : wp (linkBad sb ip) Q E s := by
  have hBack : ((N ip).setNlink ((N ip).nlink + 1)).setNlink
          (((N ip).setNlink ((N ip).nlink + 1)).nlink - 1) =
        N ip :=
    Node.ext rfl (BitVec.add_sub_cancel ..) rfl
  unfold linkBad
  rw [wp_bind]
  apply ilock_call h mem_cons_self
  · intro s₁ _ h₁
    rw [wp_bind]
    apply setNlink_call h₁ mem_cons_self
    intro s₂ h₂
    rw [update_self, update_idem, hBack, update_eq_self] at h₂
    apply leave_call h₂
    intro s₃ h₃
    exact hQ s₃ h₃
  · intro hNot
    exact absurd mem_cons_self hNot

/- Why `sys_link` makes no link. -/
inductive LinkFails (sb : Superblock) (n : View Node) (cwd : Nat) (old new : Path) : Prop
  | pathTooLong (h : MAXPATH ≤ old.length ∨ MAXPATH ≤ new.length)
  | noFile (h : findPath n.file cwd old false = none)
  | isDir (ip : Nat) (name : Name)
      (h : findPath n.file cwd old false = some (ip, name))
      (h' : (n.file ip).type = T_DIR)
  | noParent (h : findPath n.file cwd new true = none)
  | nameExists (dp : Nat) (name : Name)
      (h : findPath n.file cwd new true = some (dp, name))
      (h' : findEntry name 0 (n.file dp).ents ≠ none)
  | noRoom (h : NoRoom sb n.file)
  | largest (dp : Nat) (name : Name)
      (h : findPath n.file cwd new true = some (dp, name))
      (h' : MAXENTS ≤ (n.file dp).ents.length)

theorem sysLink_call {cwd : Nat} {old new : Path} (h : Shows sb s n)
    (hCwd : 0 < n.ref cwd)
    (hFail : ∀ s', During sb n n.file [] [] s' → LinkFails sb n cwd old new → Q (-1) s')
    (hDone : ∀ dp ip name last s', findPath n.file cwd old false = some (ip, last) →
        findPath n.file cwd new true = some (dp, name) →
        (n.file ip).type ≠ T_DIR → (n.file ip).type ≠ 0 →
        findEntry name 0 (n.file dp).ents = none →
        During sb n (linked n.file dp ip name) [] [] s' →
        Q 0 s')
    (hDead : ∀ i, Sees n.file cwd i → n.Gone i → ∀ s', E (.panic .ilockNoType) s')
    (hTable : NINODE ≤ n.inUse sb + 2 → ∀ s', E (.panic .igetNoInodes) s') :
    wp (sysLink sb cwd old new) Q E s := by
  have hLess (hUse : NINODE ≤ n.inUse sb + 1) : ∀ s', E (.panic .igetNoInodes) s' :=
    hTable (by omega)
  unfold sysLink
  by_cases hLong : MAXPATH ≤ old.length ∨ MAXPATH ≤ new.length
  · rw [if_pos hLong, wp_pure]
    exact hFail s (During.start h) (.pathTooLong hLong)
  rw [if_neg hLong, wp_bind]
  apply namei_call (During.start h) hCwd (List.Subset.refl _)
  · intro hPath s₁ h₁
    rw [wp_pure]
    exact hFail s₁ h₁ (.noFile hPath)
  · intro ip last hOld s₁ h₁
    rw [wp_bind]
    apply ilock_call h₁ mem_cons_self
    · intro s₂ hType h₂
      rw [wp_bind, wp_read, h₂.copy_type mem_cons_self]
      by_cases hDir : (n.file ip).type = T_DIR
      · rw [if_pos hDir]
        apply leave_call h₂
        intro s₃ h₃
        exact hFail s₃ h₃ (.isDir ip last hOld hDir)
      rw [if_neg hDir, wp_bind]
      apply setNlink_call h₂ mem_cons_self
      intro s₃ h₃
      have hSame := sameTree_setNlink n.file ip ((n.file ip).nlink + 1)
      rw [wp_bind]
      apply iunlock_call h₃ mem_cons_self
      rw [wp_bind]
      apply namex_call h₃ hCwd (List.Subset.refl _)
      · intro hNew s₄ h₄
        rw [hSame.findPath_eq] at hNew
        apply linkBad_call h₄
        intro s₅ h₅
        exact hFail s₅ h₅ (.noParent hNew)
      · intro dp name hNew s₄ h₄
        rw [hSame.findPath_eq] at hNew
        have hParent := findPath_parent_dir hNew
        have hne : dp ≠ ip := by
          rintro rfl
          exact hDir hParent
        have hNode : update n.file ip ((n.file ip).setNlink ((n.file ip).nlink + 1)) dp =
              n.file dp :=
          update_of_ne hne ..
        have hRange := h₄.ranged (i := ip) (by simp)
        rw [wp_bind]
        apply ilock_call h₄ mem_cons_self
        · intro s₅ _ h₅
          rw [wp_bind]
          apply dirlink_call h₅ mem_cons_self (by rw [hNode]; exact hParent) hRange.1 hRange.2
          · intro s₆ hFind h₆
            rw [hNode] at hFind h₆
            rw [if_neg (by decide), wp_bind]
            apply iunlockput_call h₆ [ip] [] (List.Perm.refl _) (by simp)
            intro s₇ h₇
            rw [wp_bind]
            apply iput_call h₇ [] [] (List.Perm.refl _) (by simp)
            intro s₈ h₈
            rw [wp_pure]
            exact hDone dp ip name last s₈ hOld hNew hDir hType hFind h₈
          · intro s₆ h₆ hReason
            rw [hNode] at hReason
            rw [if_pos (by decide), wp_bind]
            apply iunlockput_call h₆ [ip] [ip] (List.Perm.refl _)
            · intro j hj
              exact ⟨mem_cons_of_mem dp hj, hj⟩
            intro s₇ h₇
            apply linkBad_call h₇
            intro s₈ h₈
            apply hFail s₈ h₈
            rcases hReason with hSome | hRoom | hMax
            · exact .nameExists dp name hNew hSome
            · exact .noRoom (hRoom.congr hSame.type)
            · exact .largest dp name hNew hMax
          · exact hTable
        · intro _ hGone
          rw [hNode] at hGone
          exact hDead dp (findPath_sees hNew) hGone
      · intro i hMeets hNot hGone
        rw [update_of_ne (by simpa using hNot)] at hGone
        exact hDead i (hSame.sees hMeets.sees) hGone
      · exact hTable
    · intro _ hGone
      exact hDead ip (findPath_sees hOld) hGone
  · intro i hMeets _ hGone
    exact hDead i hMeets.sees hGone
  · exact hLess

end Link

-------
-- Unlink
-------

section Unlink

variable {sb : Superblock} {n : View Node} {N : Nat → Node} {s : Fs} {dp ip m : Nat}
variable {E : Halt → Fs → Prop}

/- A directory that has no entries but `.` and `..`. -/
def Node.Empty (nd : Node) : Prop := (nd.ents.drop 2).all Option.isNone = true

instance (nd : Node) : Decidable nd.Empty := inferInstanceAs (Decidable (_ = true))

variable {Q : Int → Fs → Prop}

theorem unlinkEntry_call (h : During sb n N [ip, dp] [ip, dp] s)
    (hne : ip ≠ dp) (hDir : (N dp).type = T_DIR) (hm : m < (N dp).ents.length)
    (hQ : ∀ s', During sb n (unlinked N dp ip m) [] [] s' → Q 0 s') :
    wp (unlinkEntry sb dp ip (16 * m)) Q E s := by
  have hdp : dp ∈ [ip, dp] := by simp
  unfold unlinkEntry
  rw [wp_bind]
  apply writeDirent_call h hdp hDir hm.le (length_replicate ..)
  · intro name i hSlot
    cases hSlot
  · intro s₁ h₁
    rw [if_neg (by decide), wp_bind]
    have hDrop : wp (dropDotdot sb dp ip) (fun _ s₂ =>
            During sb n (update N dp
                { (N dp).setEnt m none with
                  nlink :=
                    if (N ip).type = T_DIR then
                      (N dp).nlink - 1
                    else (N dp).nlink })
              [ip, dp] [ip, dp] s₂) E s₁ := by
      unfold dropDotdot
      rw [wp_bind, wp_read, h₁.copy_type mem_cons_self, update_of_ne hne]
      split
      · apply setNlink_call h₁ hdp
        intro s₂ h₂
        rw [update_self, update_idem] at h₂
        exact h₂
      · rw [wp_pure]
        exact h₁
    apply wp_imp hDrop
    intro _ s₂ h₂
    rw [wp_bind]
    apply iunlockput_call h₂ [ip] [ip] (List.Perm.swap ..)
    · intro j hj
      rw [mem_singleton.mp hj]
      exact ⟨mem_cons_self, mem_cons_self⟩
    intro s₃ h₃
    rw [wp_bind]
    apply setNlink_call h₃ mem_cons_self
    intro s₄ h₄
    rw [update_of_ne hne] at h₄
    apply leave_call h₄
    intro s₅ h₅
    exact hQ s₅ h₅
  · intro r s₁ _ _ hEnd
    omega

/- Why `sys_unlink` does not remove a name. -/
inductive UnlinkFails (n : View Node) (cwd : Nat) (path : Path) : Prop
  | pathTooLong (h : MAXPATH ≤ path.length)
  | noParent (h : findPath n.file cwd path true = none)
  | isDots (dp : Nat) (name : Name)
      (h : findPath n.file cwd path true = some (dp, name))
      (h' : cname name = dot ∨ cname name = dotdot)
  | noEntry (dp : Nat) (name : Name)
      (h : findPath n.file cwd path true = some (dp, name))
      (h' : findEntry name 0 (n.file dp).ents = none)
  | notEmpty (dp ip m : Nat) (name : Name)
      (h : findPath n.file cwd path true = some (dp, name))
      (h' : findEntry name 0 (n.file dp).ents = some (ip, m))
        (hDir : (n.file ip).type = T_DIR)
      (hFull : ¬ (n.file ip).Empty)

theorem sysUnlink_call {cwd : Nat} {path : Path} (h : Shows sb s n)
    (hCwd : 0 < n.ref cwd)
    (hFail : ∀ s', During sb n n.file [] [] s' → UnlinkFails n cwd path → Q (-1) s')
    (hDone : ∀ dp ip m name s', findPath n.file cwd path true = some (dp, name) →
        cname name ≠ dot → cname name ≠ dotdot →
        findEntry name 0 (n.file dp).ents = some (ip, m) →
        ip ≠ dp → 1 ≤ (n.file ip).nlink.toInt →
        ((n.file ip).type = T_DIR → (n.file ip).Empty) →
        During sb n (unlinked n.file dp ip m) [] [] s' →
        Q 0 s')
    (hSelf : ∀ dp m name, findPath n.file cwd path true = some (dp, name) →
        cname name ≠ dot → cname name ≠ dotdot →
        findEntry name 0 (n.file dp).ents = some (dp, m) →
        ∀ s', E .sleep s')
    (hNlink : ∀ dp ip m name, findPath n.file cwd path true = some (dp, name) →
        cname name ≠ dot → cname name ≠ dotdot →
        findEntry name 0 (n.file dp).ents = some (ip, m) →
        (n.file ip).type ≠ 0 →
        (n.file ip).nlink.toInt < 1 →
        ∀ s', E (.panic .unlinkNlink) s')
    (hDead : ∀ i, Sees n.file cwd i → n.Gone i → ∀ s', E (.panic .ilockNoType) s')
    (hTable : NINODE ≤ n.inUse sb + 2 → ∀ s', E (.panic .igetNoInodes) s') :
    wp (sysUnlink sb cwd path) Q E s := by
  have hLess (hUse : NINODE ≤ n.inUse sb + 1) : ∀ s', E (.panic .igetNoInodes) s' :=
    hTable (by omega)
  unfold sysUnlink
  by_cases hLong : MAXPATH ≤ path.length
  · rw [if_pos hLong, wp_pure]
    exact hFail s (During.start h) (.pathTooLong hLong)
  rw [if_neg hLong]
  rw [wp_bind]
  apply namex_call (During.start h) hCwd (List.Subset.refl _)
  · intro hPath s₁ h₁
    rw [wp_pure]
    exact hFail s₁ h₁ (.noParent hPath)
  · intro dp name hPath s₁ h₁
    have hDir := findPath_parent_dir hPath
    rw [wp_bind]
    apply ilock_call h₁ List.mem_cons_self
    · intro s₂ _ h₂
      by_cases hDots : namecmp name dot = 0 ∨ namecmp name dotdot = 0
      · rw [if_pos hDots]
        rw [namecmp_dot, namecmp_dotdot] at hDots
        exact leave_call h₂ fun s' h' => hFail s' h' (.isDots dp name hPath hDots)
      rw [if_neg hDots]
      rw [namecmp_dot, namecmp_dotdot] at hDots
      obtain ⟨hDot, hDotdot⟩ := not_or.mp hDots
      rw [wp_bind]
      apply dirlookup_call h₂ List.mem_cons_self hDir
      · intro ip m s₃ hFind h₃
        have hSees : Sees n.file cwd ip := sees_of_findEntry hDir hFind
        dsimp only
        by_cases hSame : ip = dp
        · subst hSame
          rw [if_pos rfl, wp_stop]
          exact hSelf ip m name hPath hDot hDotdot hFind s₃
        rw [if_neg hSame, wp_bind]
        apply ilock_call h₃ List.mem_cons_self
        · intro s₄ hType h₄
          rw [wp_bind, wp_read, h₄.copy_nlink List.mem_cons_self]
          by_cases hLow : (n.file ip).nlink.toInt < 1
          · rw [if_pos hLow]
            unfold panicWith
            rw [wp_stop]
            exact hNlink dp ip m name hPath hDot hDotdot hFind hType hLow s₄
          rw [if_neg hLow, wp_bind]
          apply notEmpty_call h₄ List.mem_cons_self
          split
          · next hFull =>
              obtain ⟨hIsDir, hNot⟩ : (n.file ip).type = T_DIR ∧ ¬ (n.file ip).Empty := by
                simpa [Node.Empty] using hFull
              rw [wp_bind]
              apply iunlockput_call h₄ [dp] [dp] (List.Perm.refl _)
              · intro j hj
                exact ⟨List.mem_cons_of_mem ip hj, hj⟩
              · intro s₅ h₅
                apply leave_call h₅
                intro s₆ h₆
                exact hFail s₆ h₆ (.notEmpty dp ip m name hPath hFind hIsDir hNot)
          · next hEmpty =>
              have hLt : m < (n.file dp).ents.length := by
                have hGet := (findEntry_some hFind).2
                exact (List.getElem?_eq_some_iff.mp hGet).1
              apply unlinkEntry_call h₄ hSame hDir hLt
              intro s₅ h₅
              apply hDone dp ip m name s₅ hPath hDot hDotdot hFind hSame (by omega) _ h₅
              intro hIsDir
              simpa [hIsDir, Node.Empty] using hEmpty
        · intro _ hGone
          exact hDead ip hSees hGone
      · intro hFind
        exact leave_call h₂ fun s' h' => hFail s' h' (.noEntry dp name hPath hFind)
      · exact hLess
    · intro _ hGone
      exact hDead dp (findPath_sees hPath) hGone
  · intro i hMeets _ hGone
    exact hDead i hMeets.sees hGone
  · exact hLess

end Unlink

end Xv6
