import Mathlib.Data.Nat.Digits.Defs
import Posterior.Proofs.Spelling
import Posterior.Sampler.Rejection

set_option autoImplicit false

namespace Posterior.Condition

open Arithmetic Text

inductive Sign where
  | greater
  | less
  | atLeast
  | atMost
  | equals
  | doubleEquals
  deriving DecidableEq

namespace Sign

def text : Sign → List Char
  | .greater => ['>']
  | .less => ['<']
  | .atLeast => ['>', '=']
  | .atMost => ['<', '=']
  | .equals => ['=']
  | .doubleEquals => ['=', '=']

def comparison : Sign → Comparison
  | .greater => .greater
  | .less => .less
  | .atLeast => .atLeast
  | .atMost => .atMost
  | .equals | .doubleEquals => .equal

/-- What a sign between two numbers says. -/
def Holds {α : Type} [Arithmetic α] : Sign → α → α → Prop
  | .greater, x, y => lt y x = true
  | .less, x, y => lt x y = true
  | .atLeast, x, y => le y x = true
  | .atMost, x, y => le x y = true
  | .equals, x, y | .doubleEquals, x, y => eq x y = true

theorem text_injective {s t : Sign} (h : s.text = t.text) : s = t := by
  cases s <;> cases t <;> first | rfl | cases h

theorem holds_comparison_iff {α : Type} [Arithmetic α] (s : Sign) (x y : α) :
    s.comparison.holds x y = true ↔ s.Holds x y := by
  cases s <;> rfl

end Sign

def IsFigure (c : Char) : Prop := (digitValue? c).isSome = true

def figure (c : Char) : Nat := (digitValue? c).getD 0

structure Figures where
  whole : List Char
  fraction : List Char
  isFigure : ∀ c ∈ whole ++ fraction, IsFigure c
  ne_nil : whole ≠ []

namespace Figures

def text (f : Figures) : List Char :=
  f.whole ++ if f.fraction = [] then [] else '.' :: f.fraction

def value {α : Type} [Arithmetic α] (f : Figures) : α :=
  ofDecimal (Nat.ofDigits 10 ((f.whole ++ f.fraction).map figure).reverse) f.fraction.length

end Figures

/-- A condition in words: a name, a sign, and a number that may have a minus before it. -/
structure Wording where
  name : List Char
  sign : Sign
  negative : Bool
  figures : Figures
  isName : ∃ c cs, name = c :: cs ∧ (c.isAlpha = true ∨ c = '_') ∧ ∀ d ∈ cs, isWordChar d = true

namespace Wording

def number (w : Wording) : List Char := if w.negative then '-' :: w.figures.text else w.figures.text

def threshold {α : Type} [Arithmetic α] (w : Wording) : α :=
  if w.negative then -w.figures.value else w.figures.value

/-- A text words a condition if it is the name, the sign and the number, with blanks around each. -/
def Words (w : Wording) (text : String) : Prop :=
  ∃ gap : Nat → List Char, (∀ i, ∀ c ∈ gap i, isBlank c = true) ∧
    text.toList = layOut gap [w.name, w.sign.text, w.number]

def condition {α : Type} [Arithmetic α] (w : Wording) : Condition α :=
  ⟨String.ofList w.name, w.sign.comparison, w.threshold⟩

theorem criterion_iff {α : Type} [Arithmetic α] (w : Wording) (r : Result α) :
    (w.condition : Condition α).criterion r = true ↔
      ∃ x, r.bindings.get? (String.ofList w.name) = some x ∧ w.sign.Holds x w.threshold := by
  rw [condition, criterion, accepts]
  dsimp only
  cases r.bindings.get? (String.ofList w.name) with
  | none => simp
  | some x => simp [w.sign.holds_comparison_iff]

end Wording

section Classes

theorem not_contains_of_apart {s t : CodePoints} {c : Char}
    (h : ∀ r ∈ s.ranges, ∀ q ∈ t.ranges, r.2 < q.1 ∨ q.2 < r.1) (hc : s.contains c = true) :
    t.contains c = false := by
  rw [Bool.eq_false_iff]
  intro hd
  obtain ⟨r, hr, hl, hu⟩ := (s.contains_iff c).mp hc
  obtain ⟨q, hq, hl', hu'⟩ := (t.contains_iff c).mp hd
  have := h r hr q hq
  omega

theorem isWordChar_of_isBlank {c : Char} (h : isBlank c = true) : isWordChar c = false := by
  have hc : c ≠ '_' := by
    rintro rfl
    cases h
  have hapart : ∀ r ∈ blanks.ranges, ∀ q ∈ alphanumerics.ranges, r.2 < q.1 ∨ q.2 < r.1 := by
    decide +kernel
  rw [isWordChar, beq_false_of_ne hc, Bool.false_or]
  exact not_contains_of_apart hapart h

theorem isBlank_of_isFigure {c : Char} (h : IsFigure c) : isBlank c = false := by
  rw [Bool.eq_false_iff]
  intro hb
  obtain ⟨d, hd⟩ := Option.isSome_iff_exists.mp h
  obtain ⟨z, hz, hc⟩ := List.exists_of_findSome?_eq_some hd
  obtain ⟨r, hr, hl, hu⟩ := (blanks.contains_iff c).mp hb
  have hapart : ∀ r ∈ blanks.ranges, ∀ z ∈ digitZeros, r.2 < z ∨ z + 10 ≤ r.1 := by decide +kernel
  have := hapart r hr z hz
  split at hc
  · next hin =>
    simp only [Bool.and_eq_true, decide_eq_true_eq] at hin
    omega
  · cases hc

end Classes

end Posterior.Condition
