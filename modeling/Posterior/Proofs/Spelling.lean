import Posterior.Lexer
import Posterior.Proofs.Shape

/-!
Programs as text: which tokens spell a tree, with brackets only where the grouping needs them, and how
tokens are laid out with ignored text between them.
-/

set_option autoImplicit false

namespace Posterior

/-- A literal as it is written: digits with an optional point that digits follow. -/
structure Numeral where
  whole : List Char
  fraction : List Char
  isDigit : ∀ c ∈ whole ++ fraction, c.isDigit = true
  ne_nil : whole ++ fraction ≠ []

namespace Numeral

def lexeme (n : Numeral) : List Char :=
  if n.fraction = [] then n.whole else n.whole ++ '.' :: n.fraction

def value {α : Type} [Arithmetic α] (n : Numeral) : α :=
  Arithmetic.ofDecimal (Lexer.digitsValue (n.whole ++ n.fraction)) n.fraction.length

end Numeral

def IsName (name : String) : Prop :=
  ∃ c cs, name.toList = c :: cs ∧ c.isAlpha = true ∧ ∀ d ∈ cs, Lexer.isNameChar d = true

def Symbol.lexeme : Symbol Numeral → List Char
  | .number n => n.lexeme
  | .mark _ text => text.toList
  | .eof => []

def Symbol.map {α β : Type} (f : α → β) : Symbol α → Symbol β
  | .number x => .number (f x)
  | .mark m text => .mark m text
  | .eof => .eof

theorem kind_map {α β : Type} (f : α → β) (s : Symbol α) : (s.map f).kind = s.kind := by
  cases s <;> rfl

namespace Node

section

variable {α β : Type}

mutual

def map (f : α → β) : Node α → Node β
  | .number x => .number (f x)
  | .var name => .var name
  | .binary op left right => .binary op (left.map f) (right.map f)
  | .call name args => .call name (mapAll f args)
  | .assignment name expr => .assignment name (expr.map f)
  | .program statements => .program (mapAll f statements)
  | .error message position => .error message position
  | .stray text => .stray text

def mapAll (f : α → β) : List (Node α) → List (Node β)
  | [] => []
  | n :: ns => n.map f :: mapAll f ns

end

theorem mapAll_eq_map (f : α → β) (ns : List (Node α)) : mapAll f ns = ns.map (map f) := by
  induction ns with
  | nil => rfl
  | cons n ns ih => simp [mapAll, ih]

def sums : List String := ["+", "-"]

def isSum : Node α → Bool
  | .binary op _ _ => op ∈ sums
  | _ => false

def isProduct : Node α → Bool
  | .binary op _ _ => op ∉ sums
  | _ => false

def operatorMark : String → Mark
  | "+" => .plus
  | "-" => .minus
  | "*" => .star
  | _ => .slash

def enclose (needed : Bool) (ss : List (Symbol α)) : List (Symbol α) :=
  if needed then .mark .leftParen "(" :: (ss ++ [.mark .rightParen ")"]) else ss

mutual

/-- The tokens that spell a tree. A sum is put in brackets as an operand of a product and behind an operator,
a product behind `*` and `/`. -/
def spell : Node α → List (Symbol α)
  | .number x => [.number x]
  | .var name => [.mark .identifier name]
  | .binary op left right =>
    enclose (op ∉ sums && left.isSum) left.spell ++
      .mark (operatorMark op) op :: enclose (right.isSum || op ∉ sums && right.isProduct) right.spell
  | .call name args =>
    .mark .identifier name :: .mark .leftParen "(" :: (spellList args ++ [.mark .rightParen ")"])
  | .assignment name expr => .mark .identifier name :: .mark .equal "=" :: expr.spell
  | .program _ | .error .. | .stray _ => []

def spellList : List (Node α) → List (Symbol α)
  | [] => []
  | n :: ns => n.spell ++ spellRest ns

def spellRest : List (Node α) → List (Symbol α)
  | [] => []
  | n :: ns => .mark .comma "," :: (n.spell ++ spellRest ns)

end

def spellAll (ns : List (Node α)) : List (Symbol α) := ns.flatMap spell

variable {f : α → β} {valid : String → Prop}

theorem map_enclose (needed : Bool) (ss : List (Symbol α)) :
    (enclose needed ss).map (Symbol.map f) = enclose needed (ss.map (Symbol.map f)) := by
  cases needed <;> simp [enclose, Symbol.map]

theorem isSum_map (n : Node α) : (n.map f).isSum = n.isSum := by
  cases n <;> rfl

theorem isProduct_map (n : Node α) : (n.map f).isProduct = n.isProduct := by
  cases n <;> rfl

theorem spellRest_map {ns : List (Node α)}
    (h : ∀ n ∈ ns, (n.map f).spell = n.spell.map (Symbol.map f)) :
    spellRest (ns.map (map f)) = (spellRest ns).map (Symbol.map f) := by
  induction ns with
  | nil => rfl
  | cons n ns ih =>
    have hrest := ih fun a ha => h a (List.mem_cons_of_mem n ha)
    simp [spellRest, Symbol.map, h n List.mem_cons_self, hrest]

theorem spellList_map {ns : List (Node α)}
    (h : ∀ n ∈ ns, (n.map f).spell = n.spell.map (Symbol.map f)) :
    spellList (ns.map (map f)) = (spellList ns).map (Symbol.map f) := by
  cases ns with
  | nil => rfl
  | cons n ns =>
    have hrest := spellRest_map fun a ha => h a (List.mem_cons_of_mem n ha)
    simp [spellList, h n List.mem_cons_self, hrest]

theorem spell_map_expression {n : Node α} (hn : n.IsExpression valid) :
    (n.map f).spell = n.spell.map (Symbol.map f) := by
  induction hn with
  | number | var => rfl
  | binary _ _ _ ihl ihr =>
    simp [map, spell, isSum_map, isProduct_map, map_enclose, ihl, ihr, Symbol.map]
  | call _ _ ih => simp [map, spell, mapAll_eq_map, spellList_map ih, Symbol.map]

theorem isExpression_map {n : Node α} (hn : n.IsExpression valid) : (n.map f).IsExpression valid := by
  induction hn with
  | number value => exact .number (f value)
  | var h => exact .var h
  | binary ho _ _ ihl ihr => exact .binary ho ihl ihr
  | call h _ ih =>
    refine .call h ?_
    rw [mapAll_eq_map]
    exact List.forall_mem_map.mpr ih

theorem spell_map {n : Node α} (hn : n.IsStatement valid) :
    (n.map f).spell = n.spell.map (Symbol.map f) := by
  cases hn with
  | assignment _ he => simp [map, spell, spell_map_expression he, Symbol.map]
  | call he => exact spell_map_expression he

theorem isStatement_map {n : Node α} (hn : n.IsStatement valid) : (n.map f).IsStatement valid := by
  cases hn with
  | assignment h he => exact .assignment h (isExpression_map he)
  | call he => exact .call (isExpression_map he)

theorem spellAll_map {ns : List (Node α)} (hn : ∀ n ∈ ns, n.IsStatement valid) :
    spellAll (ns.map (map f)) = (spellAll ns).map (Symbol.map f) := by
  induction ns with
  | nil => rfl
  | cons n ns ih =>
    have hrest := ih fun a ha => hn a (List.mem_cons_of_mem n ha)
    simp only [spellAll] at hrest
    simp [spellAll, spell_map (hn n List.mem_cons_self), hrest]

end

end Node

/-- Text that is ignored: blanks, and comments with the line break that ends them. -/
inductive IsGap : List Char → Prop where
  | nil : IsGap []
  | blank {c : Char} {cs : List Char} (hc : Text.isBlank c = true) (h : IsGap cs) : IsGap (c :: cs)
  | comment {body cs : List Char} (hb : '\n' ∉ body) (h : IsGap cs) :
      IsGap ('#' :: (body ++ '\n' :: cs))

def layOut (gap : Nat → List Char) : List (List Char) → List Char
  | [] => gap 0
  | l :: ls => gap 0 ++ (l ++ layOut (fun i => gap (i + 1)) ls)

end Posterior
