import Posterior.Decimal.Layout
import Posterior.Proofs.Unambiguous

set_option autoImplicit false

namespace Posterior.Decimal

open Text

def isNumeric (c : Char) : Bool := c.isDigit || c ∈ ['.', 'e', '+', '-']

def IsNumeral (cs : List Char) : Prop := cs ≠ [] ∧ ∀ c ∈ cs, isNumeric c = true

theorem isNumeric_of_isDigit {c : Char} (h : c.isDigit = true) : isNumeric c = true := by
  simp [isNumeric, h]

theorem isNumeric_of_mem_toDigits {n : Nat} {c : Char} (h : c ∈ Nat.toDigits 10 n) : isNumeric c = true :=
  isNumeric_of_isDigit (Nat.isDigit_of_mem_toDigits (by decide) (by decide) h)

theorem isNumeral_toDigits (n : Nat) : IsNumeral (Nat.toDigits 10 n) :=
  ⟨Nat.toDigits_ne_nil, fun _ => isNumeric_of_mem_toDigits⟩

theorem isNumeric_of_mem_exponentText {e : Int} {c : Char} (h : c ∈ exponentText e) : isNumeric c = true := by
  simp only [exponentText, List.mem_cons] at h
  rcases h with rfl | rfl | h
  · decide
  · split <;> decide
  · split at h
    · rcases List.mem_cons.mp h with rfl | h
      · decide
      · exact isNumeric_of_mem_toDigits h
    · exact isNumeric_of_mem_toDigits h

theorem isNumeral_scientific {digits : List Char} (h : IsNumeral digits) (e : Int) :
    IsNumeral (scientific digits e) := by
  obtain ⟨hn, hd⟩ := h
  match digits with
  | [] => exact absurd rfl hn
  | [d] => exact ⟨nofun, List.forall_mem_cons.mpr ⟨hd d (by simp), fun _ => isNumeric_of_mem_exponentText⟩⟩
  | d :: d' :: ds =>
    refine ⟨nofun, fun c hc => ?_⟩
    rcases List.mem_cons.mp hc with rfl | hc
    · exact hd c List.mem_cons_self
    · rcases List.mem_append.mp hc with hc | hc
      · rcases List.mem_cons.mp hc with rfl | hc
        · decide
        · exact hd c (List.mem_cons_of_mem d hc)
      · exact isNumeric_of_mem_exponentText hc

theorem isNumeral_positional {digits : List Char} (h : IsNumeral digits) (keepsPoint : Bool) (e : Int) :
    IsNumeral (positional keepsPoint digits e) := by
  obtain ⟨hn, hd⟩ := h
  have hzero : ∀ n, ∀ c ∈ List.replicate n '0', isNumeric c = true := by
    intro n c hc
    obtain rfl := List.eq_of_mem_replicate hc
    decide
  unfold positional
  split
  · refine ⟨nofun, ?_⟩
    simp only [List.forall_mem_cons, List.forall_mem_append]
    exact ⟨by decide, by decide, hzero _, hd⟩
  · dsimp only
    split
    · refine ⟨by simp [hn], ?_⟩
      simp only [List.forall_mem_append]
      refine ⟨⟨hd, hzero _⟩, List.all_eq_true.mp ?_⟩
      cases keepsPoint <;> decide
    · refine ⟨by simp, ?_⟩
      simp only [List.forall_mem_append, List.forall_mem_cons]
      exact ⟨fun c hc => hd c (List.mem_of_mem_take hc), by decide, fun c hc => hd c (List.mem_of_mem_drop hc)⟩

theorem Layout.isNumeral_magnitude (l : Layout) (b : Binary) : IsNumeral (l.magnitude b) := by
  unfold magnitude
  split
  · exact isNumeral_positional (isNumeral_toDigits 0) _ _
  · extract_lets s
    clear_value s
    have hs : IsNumeral s.digits.1 := isNumeral_toDigits _
    dsimp only
    split
    · exact isNumeral_positional hs _ _
    · exact isNumeral_scientific hs _

theorem Layout.isNumeral_write {l : Layout} {x : Float} {negative : Bool} {b : Binary}
    (h : Reading.ofFloat x = .finite negative b) : IsNumeral (l.write x).toList := by
  obtain ⟨hn, hd⟩ := l.isNumeral_magnitude b
  simp only [write, h, String.toList_ofList]
  refine ⟨by simp [hn], List.forall_mem_append.mpr ⟨List.all_eq_true.mp ?_, hd⟩⟩
  cases negative <;> decide

theorem isSolid_of_isNumeric {c : Char} (h : isNumeric c = true) : isSolid c = true := by
  simp only [isNumeric, Bool.or_eq_true, decide_eq_true_eq, List.mem_cons, List.not_mem_nil, or_false] at h
  rcases h with h | rfl | rfl | rfl | rfl
  · simp [isSolid, Char.isAlphanum, h]
  all_goals decide

theorem Layout.solid_write (l : Layout) (x : Float) : Solid (l.write x) := by
  cases h : Reading.ofFloat x with
  | nan =>
    have hw : l.write x = "nan" := by simp only [write, h]
    rw [hw]
    decide
  | infinite negative =>
    have hw : l.write x = if negative then "-inf" else "inf" := by simp only [write, h]
    rw [hw]
    cases negative <;> decide
  | finite => exact fun c hc => isSolid_of_isNumeric ((isNumeral_write h).2 c hc)

end Posterior.Decimal
