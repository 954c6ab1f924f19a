import Mathlib.Data.List.Forall2
import Posterior.Proofs.Decimal
import Posterior.Proofs.Json
import Posterior.Record

set_option autoImplicit false

namespace Posterior

open Text

section Likeness

def SameDigits (x y : Float) : Prop := full x = full y

/-- Values that a record does not tell apart: a distribution is taken down by its form. -/
inductive Value.Alike : Value Float → Value Float → Prop where
  | number {x y : Float} (h : SameDigits x y) : Alike (.number x) (.number y)
  | distribution {d e : Distribution Float} (h : d.form = e.form) : Alike (.distribution d) (.distribution e)

structure Observation.Alike (o p : Observation Float) : Prop where
  value : SameDigits o.value p.value
  family : o.family = p.family
  logProb : SameDigits o.logProb p.logProb

structure Result.Alike (r s : Result Float) : Prop where
  lastValue : Option.Rel Value.Alike r.lastValue s.lastValue
  bindings : List.Forall₂ (fun e f => e.1 = f.1 ∧ SameDigits e.2 f.2) r.bindings s.bindings
  totalLogProb : SameDigits r.totalLogProb s.totalLogProb
  observations : List.Forall₂ Observation.Alike r.observations s.observations

structure Record.Alike (r s : Record Float) : Prop where
  algorithm : r.algorithm = s.algorithm
  size : r.size = s.size
  samples : List.Forall₂ Result.Alike r.samples s.samples
  logProbabilities : List.Forall₂ SameDigits r.logProbabilities s.logProbabilities

end Likeness

namespace Record

open Decimal

section Numbers

def numeralOf (text : String) : String :=
  if text = "nan" then "NaN"
  else if text = "inf" then "Infinity"
  else if text = "-inf" then "-Infinity"
  else text

def digitsOf (numeral : String) : String :=
  if numeral = "NaN" then "nan"
  else if numeral = "Infinity" then "inf"
  else if numeral = "-Infinity" then "-inf"
  else numeral

theorem number_cases (x : Float) :
    (full x ∈ ["nan", "inf", "-inf"] ∧ number x = .numeral (numeralOf (full x))) ∨
      (IsNumeral (full x).toList ∧ number x = .numeral (full x)) := by
  cases h : Reading.ofFloat x with
  | nan =>
    have hf : full x = "nan" := by simp only [full, Layout.write, h]
    left
    simp [number, h, hf, numeralOf]
  | infinite negative =>
    have hf : full x = if negative then "-inf" else "inf" := by simp only [full, Layout.write, h]
    left
    cases negative <;> simp [number, h, hf, numeralOf]
  | finite =>
    right
    exact ⟨Layout.isNumeral_write h, by simp only [number, h]⟩

theorem ne_of_isNumeral {text name : String} (h : IsNumeral text.toList)
    (hn : name.toList.all isNumeric = false) : text ≠ name := by
  rintro rfl
  exact absurd (List.all_eq_true.mpr h.2) (by simp [hn])

theorem number_eq (x : Float) : number x = .numeral (numeralOf (full x)) := by
  rcases number_cases x with ⟨-, h⟩ | ⟨hn, h⟩
  · exact h
  · rw [h, numeralOf, if_neg (ne_of_isNumeral hn (by decide)), if_neg (ne_of_isNumeral hn (by decide)),
      if_neg (ne_of_isNumeral hn (by decide))]

theorem digitsOf_numeralOf (x : Float) : digitsOf (numeralOf (full x)) = full x := by
  rcases number_cases x with ⟨hf, -⟩ | ⟨hn, h⟩
  · generalize full x = text at hf
    revert text
    decide
  · rw [number_eq] at h
    rw [Json.numeral.inj h, digitsOf, if_neg (ne_of_isNumeral hn (by decide)),
      if_neg (ne_of_isNumeral hn (by decide)), if_neg (ne_of_isNumeral hn (by decide))]

theorem number_eq_iff {x y : Float} : number x = number y ↔ SameDigits x y := by
  rw [number_eq, number_eq, SameDigits, Json.numeral.injEq]
  constructor
  · intro h
    rw [← digitsOf_numeralOf x, h, digitsOf_numeralOf y]
  · intro h
    rw [h]

theorem legible_of_isNumeral {text : String} (h : IsNumeral text.toList) : (Json.numeral text).Legible := by
  refine .numeral (fun c hc => isSolid_of_isNumeric (h.2 c hc)) ?_ (ne_of_isNumeral h (by decide))
  rintro rfl
  exact h.1 rfl

theorem legible_number (x : Float) : (number x).Legible := by
  rcases number_cases x with ⟨hf, h⟩ | ⟨hn, h⟩
  · have hall : ∀ t ∈ ["nan", "inf", "-inf"],
        Solid (numeralOf t) ∧ numeralOf t ≠ "" ∧ numeralOf t ≠ "null" := by decide
    obtain ⟨hs, he, hn⟩ := hall (full x) hf
    rw [h]
    exact .numeral hs he hn
  · rw [h]
    exact legible_of_isNumeral hn

end Numbers

section Parts

theorem map_eq_map_iff_forall₂ {β γ : Type} {f : β → γ} {xs ys : List β} :
    xs.map f = ys.map f ↔ List.Forall₂ (fun x y => f x = f y) xs ys := by
  rw [← List.forall₂_eq_eq_eq, List.forall₂_map_left_iff, List.forall₂_map_right_iff]

theorem name_eq_iff {f g : Family} : f.name = g.name ↔ f = g := by
  constructor
  · intro h
    have hf := Family.ofName?_name f
    rw [h, Family.ofName?_name] at hf
    exact (Option.some.inj hf).symm
  · rintro rfl
    rfl

theorem lastValue_eq_iff {v w : Option (Value Float)} :
    lastValue v = lastValue w ↔ Option.Rel Value.Alike v w := by
  constructor
  · intro h
    match v, w with
    | none, none => exact .none
    | some (.number x), some (.number y) => exact .some (.number (number_eq_iff.mp h))
    | some (.distribution d), some (.distribution e) => exact .some (.distribution (Json.string.inj h))
    | none, some (.number _) | some (.distribution _), some (.number _) | some (.number _), none
    | some (.number _), some (.distribution _) =>
      simp only [lastValue, number_eq] at h
      cases h
    | none, some (.distribution _) | some (.distribution _), none => cases h
  · intro h
    cases h with
    | none => rfl
    | some h =>
      cases h with
      | number h => exact number_eq_iff.mpr h
      | distribution h => exact congrArg Json.string h

theorem observation_eq_iff {o p : Observation Float} : observation o = observation p ↔ o.Alike p := by
  simp only [observation, Json.object.injEq, List.cons.injEq, Prod.mk.injEq, Json.string.injEq, true_and, and_true,
    number_eq_iff, name_eq_iff]
  exact ⟨fun ⟨hv, hf, hl⟩ => ⟨hv, hf, hl⟩, fun h => ⟨h.value, h.family, h.logProb⟩⟩

theorem sample_eq_iff {r s : Result Float} : sample r = sample s ↔ r.Alike s := by
  simp only [sample, Json.object.injEq, Json.array.injEq, List.cons.injEq, Prod.mk.injEq, true_and, and_true,
    map_eq_map_iff_forall₂, lastValue_eq_iff, number_eq_iff, observation_eq_iff]
  exact ⟨fun ⟨hl, hb, ht, ho⟩ => ⟨hl, hb, ht, ho⟩,
    fun h => ⟨h.lastValue, h.bindings, h.totalLogProb, h.observations⟩⟩

theorem toJson_eq_iff {r s : Record Float} : r.toJson = s.toJson ↔ r.Alike s := by
  simp only [toJson, Json.object.injEq, Json.array.injEq, Json.string.injEq, Json.numeral.injEq, List.cons.injEq,
    Prod.mk.injEq, true_and, and_true, map_eq_map_iff_forall₂, sample_eq_iff, number_eq_iff]
  exact ⟨fun ⟨ha, _, hs, hl⟩ => ⟨ha, hs.length_eq, hs, hl⟩,
    fun h => ⟨h.algorithm, congrArg toString h.size, h.samples, h.logProbabilities⟩⟩

theorem legible_lastValue (v : Option (Value Float)) : (lastValue v).Legible := by
  match v with
  | none => exact .null
  | some (.number x) => exact legible_number x
  | some (.distribution d) => exact .string d.form

theorem legible_observation (o : Observation Float) : (observation o).Legible := by
  refine .object ?_
  simp only [List.forall_mem_cons]
  exact ⟨legible_number o.value, .string o.family.name, legible_number o.logProb, nofun⟩

theorem legible_sample (r : Result Float) : (sample r).Legible := by
  refine .object ?_
  simp only [List.forall_mem_cons]
  exact ⟨legible_lastValue r.lastValue, .object (List.forall_mem_map.mpr fun e _ => legible_number e.2),
    legible_number r.totalLogProb, .array (List.forall_mem_map.mpr fun o _ => legible_observation o), nofun⟩

theorem legible_toJson (r : Record Float) : r.toJson.Legible := by
  have hsize : IsNumeral (toString r.size).toList := by
    have hd := isNumeral_toDigits r.size
    rwa [← Nat.toList_repr] at hd
  refine .object ?_
  simp only [List.forall_mem_cons]
  exact ⟨.string r.algorithm, legible_of_isNumeral hsize,
    .array (List.forall_mem_map.mpr fun s _ => legible_sample s),
    .array (List.forall_mem_map.mpr fun x _ => legible_number x), nofun⟩

end Parts

end Record

/-- What two samplers would save is the same text exactly if their records are alike, whatever programs they
run and whatever has been asked of them: the same algorithm, the same number of samples, sample by sample the
same last value, variables, total and observations, and the same logarithms. -/
theorem Algorithm.saved_eq_iff (a b : Algorithm Float) :
    a.record.text = b.record.text ↔ a.record.Alike b.record := by
  rw [← Record.toJson_eq_iff]
  constructor
  · intro h
    exact Json.write_injective (Record.legible_toJson a.record) (Record.legible_toJson b.record) h
  · intro h
    rw [Record.text, Record.text, h]

end Posterior
