import Xv6.Fs.Consistency
import Mathlib.Data.List.TakeWhile

/-
  Path resolution is a fold of lookups over the components
  of the path.

  Key definitions include:
    * `components`
    * `lookup`
    * `resolve`, `resolveParent`

  Main result is:
    * `paths_are_resolved`
-/

open List

open Prog (wp wp_imp wp_mono)

-------
-- Components
-------

namespace Xv6

/- The non-empty parts of a path between the slashes. -/
def words (path : Path) : List Path := (path.splitOn slash).filter (· ≠ [])

/- The components of a path, cut to `DIRSIZ` bytes. -/
def components (path : Path) : List Name := (words path).map (List.take DIRSIZ)

variable {sb : Superblock} {n : View Node}

/- A slash separates words. -/
theorem words_slash (p q : Path) : words (p ++ slash :: q) = words p ++ words q := by
  rw [words, splitOn_append_cons_self, filter_append]
  rfl

theorem words_dropWhile (path : Path) : words (path.dropWhile (· = slash)) = words path := by
  induction path with
  | nil => rfl
  | cons c path ih =>
    by_cases hc : c = slash
    · rw [dropWhile_cons_of_pos (by simpa using hc), ih, hc]
      exact (words_slash [] path).symm
    · rw [dropWhile_cons_of_neg (by simpa using hc)]

/- Where a search stops. -/
theorem head_dropWhile {p : UInt8 → Bool} {path rest : Path} {c : UInt8}
    (h : path.dropWhile p = c :: rest) : p c = false := by
  have hStop := head?_dropWhile_not p path
  rwa [h] at hStop

/- The first word ends at the next slash. -/
theorem words_cons {c : UInt8} (hc : c ≠ slash) (path : Path) :
    words (c :: path) = (c :: path).takeWhile (· ≠ slash) ::
      words ((c :: path).dropWhile (· ≠ slash)) := by
  have hSlash : slash ∉ (c :: path).takeWhile (· ≠ slash) := by
    intro hMem
    have hNot := mem_takeWhile_imp hMem
    simp at hNot
  have hWord : words ((c :: path).takeWhile (· ≠ slash)) = [(c :: path).takeWhile (· ≠ slash)] := by
    rw [words, splitOn_eq_singleton hSlash]
    simp [hc]
  conv_lhs => rw [← takeWhile_append_dropWhile (p := (· ≠ slash)) (l := c :: path)]
  cases hRest : (c :: path).dropWhile (· ≠ slash) with
  | nil =>
    rw [append_nil, hWord]
    rfl
  | cons d rest =>
    have hd : d = slash := by simpa using head_dropWhile hRest
    rw [hd, words_slash, hWord]
    exact congrArg (_ :: ·) (words_slash [] rest).symm

/- The names that `skipelem` yields are the components. -/
theorem pathElems_eq {n : Nat} {path : Path} (hLen : path.length ≤ n) :
    pathElems n path = components path := by
  induction n generalizing path with
  | zero =>
    rw [eq_nil_of_length_eq_zero (Nat.le_zero.mp hLen)]
    rfl
  | succ n ih =>
    have hDrop := (dropWhile_sublist (· = slash) (l := path)).length_le
    rw [pathElems, skipelem, components, ← words_dropWhile]
    cases hStart : path.dropWhile (· = slash) with
    | nil => rfl
    | cons c rest =>
      have hc : c ≠ slash := by simpa using head_dropWhile hStart
      have hTail : ((c :: rest).dropWhile (· ≠ slash)).length ≤ rest.length := by
        rw [dropWhile_cons_of_pos (by simpa using hc)]
        exact (dropWhile_sublist _).length_le
      have hMore := (dropWhile_sublist (· = slash)
        (l := (c :: rest).dropWhile (· ≠ slash))).length_le
      rw [hStart, length_cons] at hDrop
      rw [words_cons hc, ← words_dropWhile]
      exact congrArg (_ :: ·) (ih (by omega))

-------
-- Resolution
-------

/- Look up a component in a directory. -/
def lookup (N : Nat → Node) (i : Nat) (name : Name) : Option Nat :=
  if (N i).type = T_DIR then (findEntry name 0 (N i).ents).map Prod.fst
  else none

/- The inode that the components lead to. -/
def resolve (N : Nat → Node) (names : List Name) (start : Nat) : Option Nat :=
  names.foldlM (lookup N) start

/-
  The directory that all components but the last lead to,
  with the last one.
-/
def resolveParent (N : Nat → Node) (names : List Name) (start : Nat) : Option (Nat × Name) := do
  let last ← names.getLast?
  let dp ← resolve N names.dropLast start
  if (N dp).type = T_DIR then some (dp, last) else none

theorem follow_resolve (N : Nat → Node) (names : List Name) (i : Nat) :
    (follow N false names i).map Prod.fst = resolve N names i := by
  induction names generalizing i with
  | nil => rfl
  | cons name rest ih =>
    rw [follow, resolve, foldlM_cons, lookup]
    by_cases hDir : (N i).type = T_DIR
    · rw [if_neg (fun hNe => hNe hDir), if_pos hDir]
      cases findEntry name 0 (N i).ents with
      | none => rfl
      | some next => exact ih next.1
    · rw [if_pos hDir, if_neg hDir]
      rfl

theorem follow_resolveParent (N : Nat → Node) (names : List Name) (i : Nat) :
    follow N true names i = resolveParent N names i := by
  induction names generalizing i with
  | nil => rfl
  | cons name rest ih =>
    rw [follow]
    by_cases hDir : (N i).type = T_DIR
    · rw [if_neg (fun hNe => hNe hDir)]
      cases rest with
      | nil => simp [hDir, resolveParent, resolve]
      | cons next rest =>
        cases hFind : findEntry name 0 (N i).ents with
        | none => simp [resolveParent, resolve, lookup, hFind]
        | some p => simp [ih, resolveParent, resolve, lookup, hDir, hFind]
    · have hLook : lookup N i name = none := if_neg hDir
      rw [if_pos hDir]
      cases rest with
      | nil => exact (if_neg hDir).symm
      | cons next rest => simp [resolveParent, resolve, hLook]

/- The table is full, or the path meets a dead inode. -/
def PathPanic (sb : Superblock) (n : View Node) (cwd : Nat) (path : Path) (e : Halt) : Prop :=
  e = .panic .igetNoInodes ∧ NINODE ≤ n.inUse sb + 1 ∨
    e = .panic .ilockNoType ∧ ∃ i, Meets n.file cwd path i ∧
      ((n.file i).type = 0 ∨ (n.file i).nlink = 0 ∧ n.ref i = 0)

/- The references that a call keeps. -/
theorem During.refs {N : Nat → Node} {held known : List Nat}
    {s s' : Fs} (h : Shows sb s n) (h' : During sb n N held known s') (i : Nat) :
    (s'.itable i).ref = (s.itable i).ref + (held.count i : Nat) := by
  obtain ⟨n', hShows, hPart⟩ := h'.finish
  have hRef := hPart.ref i
  rw [← hShows.names, ← h.names] at hRef
  exact hRef

theorem namex_resolves {s : Fs} (h : Shows sb s n) {cwd : Nat}
    (hCwd : 0 < n.ref cwd) (path : Path) (parent : Bool) :
    wp (namex sb cwd path parent) (fun r s' => r = findPath n.file cwd path parent ∧
        ∀ i, (s'.itable i).ref = (s.itable i).ref +
          if r.map Prod.fst = some i then 1 else 0)
      (fun e _ => PathPanic sb n cwd path e) s := by
  apply namex_call (During.start h) hCwd (List.Subset.refl _)
  · intro hPath s' h'
    refine ⟨hPath.symm, fun i => ?_⟩
    simpa using h'.refs h i
  · intro j name hPath s' h'
    refine ⟨hPath.symm, fun i => ?_⟩
    rw [h'.refs h i]
    by_cases hji : j = i <;> simp [hji]
  · intro i hMeets _ hDead _
    exact .inr ⟨rfl, i, hMeets, hDead⟩
  · intro hTable _
    exact .inl ⟨rfl, hTable⟩

/-
  A path is cut into its components, and these are looked up
  one after another. Only the inode that is found keeps a new
  reference, and only the first of several slashes matters.
-/
theorem paths_are_resolved
    {s : Fs}
    (h : Shows sb s n)
    {cwd : Nat}
    (hCwd : 0 < n.ref cwd)
    (path : Path) :
    pathElems path.length path = components path ∧
    wp (namei sb cwd path)
      (fun r s' => r = resolve n.file (components path)
          (pathStart cwd path) ∧
        ∀ i, (s'.itable i).ref =
          (s.itable i).ref + if r = some i then 1 else 0)
      (fun e _ => PathPanic sb n cwd path e) s ∧
    wp (nameiparent sb cwd path)
      (fun r s' => r = resolveParent n.file (components path)
          (pathStart cwd path) ∧
        ∀ i, (s'.itable i).ref = (s.itable i).ref +
          if r.map Prod.fst = some i then 1 else 0)
      (fun e _ => PathPanic sb n cwd path e) s ∧
    (∀ p q, path = p ++ slash :: slash :: q →
        components (p ++ slash :: q) = components path ∧
        pathStart cwd (p ++ slash :: q) = pathStart cwd path) ∧
    ∀ p, p ≠ [] → path = p ++ [slash] →
      components p = components path ∧
        pathStart cwd p = pathStart cwd path := by
  have hElems := pathElems_eq (Nat.le_refl path.length)
  have hNamex := namex_resolves h hCwd path
  simp only [findPath, hElems] at hNamex
  refine ⟨hElems, ?_, ?_, ?_, ?_⟩
  · unfold namei
    rw [Prog.wp_bind]
    refine wp_imp (hNamex false) ?_
    rintro r s' ⟨rfl, hRefs⟩
    rw [Prog.wp_pure, ← follow_resolve]
    exact ⟨rfl, hRefs⟩
  · refine wp_imp (hNamex true) ?_
    rintro r s' ⟨rfl, hRefs⟩
    exact ⟨follow_resolveParent .., hRefs⟩
  · rintro p q rfl
    constructor
    · rw [components, components, words_slash, words_slash]
      exact congrArg _ (congrArg _ (words_slash [] q).symm)
    · cases p <;> rfl
  · rintro p hNe rfl
    constructor
    · rw [components, components, words_slash]
      exact congrArg _ (append_nil _).symm
    · cases p with
      | nil => exact absurd rfl hNe
      | cons c p => rfl

/- The path `/.//..` leads to the root directory. -/
theorem dotdot_path_is_resolved :
    wp (namei smallSb ROOTINO [slash, 46, slash, slash, 46, 46])
      (fun r s' => r = some ROOTINO ∧
        ∀ i, (s'.itable i).ref = ((booted smallSb).itable i).ref +
          if r = some i then 1 else 0)
      (fun e _ => PathPanic smallSb bootNames ROOTINO
        [slash, 46, slash, slash, 46, 46] e)
      (booted smallSb) := by
  have hFound : resolve bootNames.file
      (components [slash, 46, slash, slash, 46, 46])
      ROOTINO = some ROOTINO := by
    decide +kernel
  rw [← hFound]
  exact (paths_are_resolved (booted_shows (by decide))
    (by decide) _).2.1

end Xv6
