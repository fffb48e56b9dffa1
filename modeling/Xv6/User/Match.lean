import Mathlib.Computability.Language
import Mathlib.Data.UInt

/-
  The matcher of `grep.c`, and the language of a pattern.

  A string is the list of the bytes before its zero, so that
  `*text == '\0'` says that the list is empty.

  Key definitions include:
    * `matchhere`, `matchstar`, `matchRe`
    * `lang`

  Key theorems include:
    * `match_iff_language`
-/

-------
-- The Matcher
-------

namespace Xv6

abbrev STAR : UInt8 := 42
abbrev DOT : UInt8 := 46
abbrev CARET : UInt8 := 94
abbrev DOLLAR : UInt8 := 36

/- Search for `c*re` at the beginning of the text, where `here` searches for `re`. -/
def matchstar (c : UInt8) (here : List UInt8 → Bool) : List UInt8 → Bool
| [] => here []
| x :: text => here (x :: text) || ((x == c || c == DOT) && matchstar c here text)

/- One character, and what follows in the text. -/
def matchone (c : UInt8) (here : List UInt8 → Bool) : List UInt8 → Bool
| [] => false
| x :: text => (c == DOT || c == x) && here text

/- Search for `re` at the beginning of the text. -/
def matchhere : List UInt8 → List UInt8 → Bool
| [], _ => true
| [c], text => if c = DOLLAR then text.isEmpty else matchone c (matchhere []) text
| c :: d :: re, text =>
    if d = STAR then matchstar c (matchhere re) text
    else matchone c (matchhere (d :: re)) text

/- The loop of `match`, which must look at the empty string. -/
def matchFrom (re : List UInt8) : List UInt8 → Bool
| [] => matchhere re []
| x :: text => matchhere re (x :: text) || matchFrom re text

def matchRe (re text : List UInt8) : Bool :=
  if re.head? = some CARET then matchhere re.tail text else matchFrom re text

-------
-- Languages Of Patterns
-------

open Computability

/- The characters of a pattern, and whether each is repeated. -/
def items : List UInt8 → List (UInt8 × Bool)
| [] => []
| [c] => [(c, false)]
| c :: d :: re => if d = STAR then (c, true) :: items re else (c, false) :: items (d :: re)

/- What one character stands for. -/
def single (c : UInt8) : Language UInt8 := {w | ∃ x, w = [x] ∧ (c = DOT ∨ c = x)}

/- The language of a sequence of items. -/
def lang : List (UInt8 × Bool) → Language UInt8
| [] => 1
| (c, false) :: l => single c * lang l
| (c, true) :: l => (single c)∗ * lang l

/- The end of the text is asked for. -/
abbrev ToEnd (re : List UInt8) : Prop := re.getLast? = some DOLLAR

/- A pattern without its anchor. -/
def dropDollar (re : List UInt8) : List UInt8 := if ToEnd re then re.dropLast else re

/- The beginning of the text is asked for. -/
abbrev FromStart (re : List UInt8) : Prop := re.head? = some CARET

def dropCaret (re : List UInt8) : List UInt8 := if FromStart re then re.tail else re

/- A word of `l`, and then a text with the property `H`. -/
def Starts (l : Language UInt8) (H : List UInt8 → Prop) (text : List UInt8) : Prop :=
  ∃ w ∈ l, ∃ post, text = w ++ post ∧ H post

variable {l m : Language UInt8} {H : List UInt8 → Prop} {text : List UInt8} {c : UInt8}

theorem starts_one : Starts 1 H text ↔ H text := by
  constructor
  · rintro ⟨w, rfl, post, rfl, h⟩
    exact h
  · exact fun h => ⟨[], rfl, text, rfl, h⟩

theorem starts_mul : Starts (l * m) H text ↔ Starts l (Starts m H) text := by
  constructor
  · rintro ⟨w, hw, post, rfl, h⟩
    obtain ⟨a, ha, b, hb, rfl⟩ := Language.mem_mul.mp hw
    exact ⟨a, ha, b ++ post, List.append_assoc .., b, hb, post, rfl, h⟩
  · rintro ⟨a, ha, rest, rfl, b, hb, post, rfl, h⟩
    exact ⟨a ++ b, Language.mem_mul.mpr ⟨a, ha, b, hb, rfl⟩, post, (List.append_assoc ..).symm, h⟩

theorem starts_single {x : UInt8} :
    Starts (single c) H (x :: text) ↔ (c = DOT ∨ c = x) ∧ H text := by
  constructor
  · rintro ⟨w, ⟨y, rfl, hc⟩, post, hText, h⟩
    cases hText
    exact ⟨hc, h⟩
  · rintro ⟨hc, h⟩
    exact ⟨[x], ⟨x, rfl, hc⟩, text, rfl, h⟩

theorem not_starts_single : ¬ Starts (single c) H [] := by
  rintro ⟨w, ⟨y, rfl, -⟩, post, hText, -⟩
  cases hText

/- A repetition is empty or begins with one more. -/
theorem starts_kstar : Starts l∗ H text ↔ H text ∨ Starts l (Starts l∗ H) text := by
  have hOne : Starts 1 H text ↔ H text := starts_one
  rw [← starts_mul, ← hOne]
  conv_lhs => rw [← Language.one_add_self_mul_kstar_eq_kstar]
  constructor
  · rintro ⟨w, hw | hw, hRest⟩
    · exact .inl ⟨w, hw, hRest⟩
    · exact .inr ⟨w, hw, hRest⟩
  · rintro (⟨w, hw, hRest⟩ | ⟨w, hw, hRest⟩)
    · exact ⟨w, .inl hw, hRest⟩
    · exact ⟨w, .inr hw, hRest⟩

-------
-- Agreement
-------

variable {here : List UInt8 → Bool}

theorem matchone_iff (h : ∀ t, here t = true ↔ H t) :
    matchone c here text = true ↔ Starts (single c) H text := by
  cases text with
  | nil => exact ⟨fun hNo => absurd hNo Bool.false_ne_true, fun hNo => absurd hNo not_starts_single⟩
  | cons x text =>
    rw [starts_single, ← h text]
    simp [matchone]

theorem matchstar_iff (h : ∀ t, here t = true ↔ H t) :
    matchstar c here text = true ↔ Starts (single c)∗ H text := by
  induction text with
  | nil =>
    rw [starts_kstar, or_iff_left not_starts_single]
    exact h []
  | cons x text ih =>
    rw [starts_kstar, starts_single, ← ih, ← h, or_comm (a := c = DOT), eq_comm (a := c)]
    simp [matchstar]

/- What `matchhere` searches for. -/
def MatchesHere (re : List UInt8) : List UInt8 → Prop :=
  Starts (lang (items (dropDollar re))) (fun post => ToEnd re → post = [])

theorem toEnd_cons (c d : UInt8) (re : List UInt8) :
    ToEnd (c :: d :: re) ↔ ToEnd (d :: re) := by
  simp [ToEnd]

theorem dropDollar_cons (c d : UInt8) (re : List UInt8) :
    dropDollar (c :: d :: re) = c :: dropDollar (d :: re) := by
  unfold dropDollar
  by_cases h : ToEnd (d :: re)
  · rw [if_pos h, if_pos ((toEnd_cons c d re).mpr h), List.dropLast_cons_cons]
  · rw [if_neg h, if_neg (fun hEnd => h ((toEnd_cons c d re).mp hEnd))]

/- A star is not an anchor. -/
theorem toEnd_star (re : List UInt8) : ToEnd (STAR :: re) ↔ ToEnd re := by
  cases re with
  | nil => decide
  | cons d re => exact toEnd_cons STAR d re

theorem dropDollar_star (re : List UInt8) : dropDollar (STAR :: re) = STAR :: dropDollar re := by
  cases re with
  | nil => rfl
  | cons d re => exact dropDollar_cons STAR d re

/- A character that is not followed by a star. -/
theorem items_cons {l : List UInt8} (hStar : l.head? ≠ some STAR) :
    items (c :: l) = (c, false) :: items l := by
  cases l with
  | nil => rfl
  | cons d l => exact if_neg (fun hd => hStar (congrArg some hd))

theorem matchhere_iff (re : List UInt8) :
    ∀ text, matchhere re text = true ↔ MatchesHere re text := by
  induction re using items.induct with
  | case1 =>
    intro text
    exact ⟨fun _ => starts_one.mpr (fun h => nomatch h), fun _ => rfl⟩
  | case2 c =>
    intro text
    unfold matchhere MatchesHere dropDollar
    by_cases hc : c = DOLLAR
    · subst hc
      refine Iff.trans ?_ starts_one.symm
      simp [ToEnd]
    · have hNot : ¬ ToEnd [c] := fun h => hc (Option.some.inj h)
      rw [if_neg hc, if_neg hNot]
      refine (matchone_iff (fun t => ?_)).trans starts_mul.symm
      exact ⟨fun _ => starts_one.mpr (fun h => absurd h hNot), fun _ => rfl⟩
  | case3 c re ih =>
    intro text
    unfold matchhere MatchesHere
    rw [dropDollar_cons, dropDollar_star, toEnd_cons, toEnd_star, if_pos rfl]
    exact (matchstar_iff ih).trans starts_mul.symm
  | case4 c d re hStar ih =>
    intro text
    unfold matchhere MatchesHere
    have hHead : (dropDollar (d :: re)).head? ≠ some STAR := by
      cases re with
      | nil =>
        unfold dropDollar
        split <;> simp [hStar]
      | cons e re =>
        rw [dropDollar_cons]
        simpa using hStar
    rw [if_neg hStar, dropDollar_cons, items_cons hHead]
    exact (matchone_iff ih).trans starts_mul.symm

theorem matchFrom_iff (re text : List UInt8) :
    matchFrom re text = true ↔ ∃ pre rest, text = pre ++ rest ∧ MatchesHere re rest := by
  induction text with
  | nil =>
    rw [matchFrom, matchhere_iff]
    constructor
    · exact fun h => ⟨[], [], rfl, h⟩
    · rintro ⟨pre, rest, hText, h⟩
      rwa [(List.append_eq_nil_iff.mp hText.symm).2] at h
  | cons x text ih =>
    rw [matchFrom, Bool.or_eq_true, matchhere_iff, ih]
    constructor
    · rintro (h | ⟨pre, rest, rfl, h⟩)
      · exact ⟨[], x :: text, rfl, h⟩
      · exact ⟨x :: pre, rest, rfl, h⟩
    · rintro ⟨pre, rest, hText, h⟩
      cases pre with
      | nil => exact .inl (hText ▸ h)
      | cons y pre =>
        cases hText
        exact .inr ⟨pre, rest, rfl, h⟩

/-
  `match` finds a part of the text in the language of the
  pattern, at its beginning after `^` and at its end before `$`.
-/
theorem match_iff_language (re text : List UInt8) :
    matchRe re text = true ↔
      ∃ pre w post, text = pre ++ w ++ post ∧
      w ∈ lang (items (dropDollar (dropCaret re))) ∧
      (FromStart re → pre = []) ∧
      (ToEnd (dropCaret re) → post = []) := by
  unfold matchRe dropCaret
  by_cases hRoot : FromStart re
  · rw [if_pos hRoot, if_pos hRoot, matchhere_iff]
    constructor
    · rintro ⟨w, hw, post, rfl, h⟩
      exact ⟨[], w, post, rfl, hw, fun _ => rfl, h⟩
    · rintro ⟨pre, w, post, rfl, hw, hPre, h⟩
      rw [hPre hRoot]
      exact ⟨w, hw, post, rfl, h⟩
  · rw [if_neg hRoot, if_neg hRoot, matchFrom_iff]
    constructor
    · rintro ⟨pre, rest, rfl, w, hw, post, rfl, h⟩
      exact ⟨pre, w, post, (List.append_assoc ..).symm, hw, fun hNo => absurd hNo hRoot, h⟩
    · rintro ⟨pre, w, post, rfl, hw, -, h⟩
      exact ⟨pre, w ++ post, List.append_assoc .., w, hw, post, rfl, h⟩

/- The pattern `^a*b$` on two texts. -/
example : matchRe [94, 97, 42, 98, 36] [97, 97, 98] = true := by decide
example : matchRe [94, 97, 42, 98, 36] [97, 97, 98, 99] = false := by decide

end Xv6
