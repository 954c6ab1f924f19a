set_option autoImplicit false

namespace Posterior

abbrev Bindings (α : Type) := List (String × α)

namespace Bindings

variable {α : Type}

def get? : Bindings α → String → Option α
  | [], _ => none
  | (key, value) :: rest, name => if key = name then some value else get? rest name

/-- Binds a name, in its old place if it had one and else behind all others. -/
def set : Bindings α → String → α → Bindings α
  | [], name, value => [(name, value)]
  | (key, old) :: rest, name, value =>
    if key = name then (key, value) :: rest else (key, old) :: set rest name value

def erase (b : Bindings α) (name : String) : Bindings α :=
  b.filter fun entry => entry.1 ≠ name

def names (b : Bindings α) : List String := b.map Prod.fst

theorem get?_set_self (b : Bindings α) (name : String) (value : α) :
    (b.set name value).get? name = some value := by
  induction b with
  | nil => simp [set, get?]
  | cons entry rest ih =>
    obtain ⟨key, old⟩ := entry
    by_cases h : key = name <;> simp [set, get?, h, ih]

theorem get?_set_of_ne (b : Bindings α) {name other : String} (value : α) (h : other ≠ name) :
    (b.set name value).get? other = b.get? other := by
  induction b with
  | nil => simp [set, get?, h.symm]
  | cons entry rest ih =>
    obtain ⟨key, old⟩ := entry
    by_cases hk : key = name
    · subst hk
      simp [set, get?, h.symm]
    · simp [set, get?, hk, ih]

theorem names_set (b : Bindings α) (name : String) (value : α) :
    (b.set name value).names = if name ∈ b.names then b.names else b.names ++ [name] := by
  induction b with
  | nil => simp [set, names]
  | cons entry rest ih =>
    obtain ⟨key, old⟩ := entry
    by_cases hk : key = name
    · subst hk
      simp [set, names]
    · simp only [set, hk, if_false]
      simp only [names, List.map_cons, List.mem_cons, Ne.symm hk, false_or] at ih ⊢
      rw [ih]
      by_cases hm : name ∈ rest.map Prod.fst <;> simp [hm]

theorem mem_names_set (b : Bindings α) (name other : String) (value : α) :
    other ∈ (b.set name value).names ↔ other = name ∨ other ∈ b.names := by
  rw [names_set]
  by_cases h : name ∈ b.names
  · rw [if_pos h]
    constructor
    · exact .inr
    · rintro (rfl | ho)
      · exact h
      · exact ho
  · rw [if_neg h, List.mem_append, List.mem_singleton, or_comm]

theorem mem_names (b : Bindings α) (name : String) : name ∈ b.names ↔ ∃ x, b.get? name = some x := by
  induction b with
  | nil => simp [names, get?]
  | cons entry rest ih =>
    obtain ⟨key, value⟩ := entry
    by_cases hk : key = name
    · simp [names, get?, hk]
    · simp only [names, List.map_cons, List.mem_cons, get?, hk, if_false] at ih ⊢
      simp [ih, Ne.symm hk]

end Bindings

end Posterior
