import Posterior.Evaluation.Message
import Posterior.Interpreter
import Posterior.Proofs.Guarded
import Posterior.Proofs.Trace.Adequacy

set_option autoImplicit false

namespace Posterior

open Arithmetic
open Guarded (number)

section Checks

variable {α : Type} [Arithmetic α]

theorem Family.finite_of_fault? {f : Family} {params : List α} (h : f.fault? params = none) :
    (∀ p ∈ params, Arithmetic.isFinite p = true) ∧ f.rangeFault? params = none := by
  obtain ⟨hs, hr⟩ := Option.or_eq_none_iff.mp h
  refine ⟨?_, hr⟩
  unfold Signature.fault? at hs
  split at hs
  · cases hs
  · intro p hp
    have hn := List.find?_eq_none.mp (Option.map_eq_none_iff.mp hs) p hp
    simpa using hn

omit [Arithmetic α] in
theorem ParameterFault.of_eq_none {c : Prop} [Decidable c] {fault : ParameterFault α}
    (h : (if c then none else some fault) = none) : c :=
  Decidable.by_contra fun hn => Option.some_ne_none fault ((if_neg hn).symm.trans h)

def Distribution.InRange : Distribution α → Prop
  | .normal _ deviation => lt zero deviation = true
  | .uniform low high => lt low high = true
  | .bernoulli chance => le zero chance = true ∧ le chance one = true
  | .exponential rate => lt zero rate = true

structure Distribution.Valid (d : Distribution α) : Prop where
  finite : ∀ p ∈ d.params, isFinite p = true
  range : d.InRange

theorem Distribution.valid_of_fault? {d : Distribution α} (h : d.family.fault? d.params = none) :
    d.Valid := by
  obtain ⟨hf, hr⟩ := Family.finite_of_fault? h
  refine ⟨hf, ?_⟩
  cases d with
  | normal mean deviation => exact (ParameterFault.of_eq_none hr : lt zero deviation = true)
  | uniform low high => exact (ParameterFault.of_eq_none hr : lt low high = true)
  | bernoulli chance =>
    have hrange : (le zero chance && le chance one) = true := ParameterFault.of_eq_none hr
    exact Bool.and_eq_true_iff.mp hrange
  | exponential rate => exact (ParameterFault.of_eq_none hr : lt zero rate = true)

theorem Distribution.checked_eq_make (d : Distribution α) : d.checked = d.family.make d.params := by
  unfold checked Family.make
  rw [Family.shape?_params]

omit [Arithmetic α] in
theorem Family.eq_of_shape? {f : Family} {params : List α} {d : Distribution α}
    (h : f.shape? params = some d) : d.family = f ∧ d.params = params := by
  unfold shape? at h
  split at h <;> cases h <;> exact ⟨rfl, rfl⟩

theorem Family.checked_of_shape? {f : Family} {params : List α} {d : Distribution α}
    (h : f.shape? params = some d) : d.checked = f.make params := by
  obtain ⟨rfl, rfl⟩ := eq_of_shape? h
  exact d.checked_eq_make

end Checks

section Calls

variable {α : Type} [Arithmetic α]

theorem evaluateNumbers_literals (levels : Nat) (role : Role) (ps : List α) (m : Machine α) :
    evaluateNumbers (evaluate (levels + 1)) role (ps.map .number) m = .ok ps m := by
  induction ps with
  | nil => rfl
  | cons p ps ih =>
    rw [List.map_cons, evaluateNumbers]
    refine (Step.bind_ok (b := Value.number p) rfl).trans ((Step.bind_ok (b := p) rfl).trans ?_)
    rw [Step.bind_ok ih]
    rfl

theorem evaluate_literal_call (levels : Nat) (f : Family) (ps : List α) (m : Machine α) :
    evaluate (levels + 2) (.call f.name (ps.map .number)) m =
      match f.make ps with
      | .ok d => .ok (.distribution d) m
      | .error fault => .error (.failure (.parameters fault)) m := by
  rw [evaluate]
  simp only [evaluateCall, Callee.ofName?_family]
  rw [Step.bind_ok (evaluateNumbers_literals levels _ ps m)]
  cases f.make ps <;> rfl

theorem Interpreter.evaluate_literal_call (i : Interpreter α) (g : Generator α) (f : Family)
    (ps : List α) :
    i.evaluate g (.call f.name (ps.map .number)) =
      match f.make ps with
      | .ok d => (.ok (.distribution d), i, g)
      | .error fault => (.error (.failure (.parameters fault)), i, g) := by
  have h : Posterior.evaluate maxDepth (.call f.name (ps.map .number)) ⟨i.store, g⟩ = _ :=
    Posterior.evaluate_literal_call 498 f ps ⟨i.store, g⟩
  unfold Interpreter.evaluate Interpreter.perform
  rw [h]
  cases f.make ps <;> rfl

/-- A tree yields no distribution but one that has passed its checks. -/
theorem valid_of_evaluate {levels : Nat} {n : Node α} {m m' : Machine α} {d : Distribution α}
    (h : evaluate levels n m = .ok (.distribution d) m') : d.Valid := by
  obtain ⟨-, es, hp⟩ := evaluate_eq_ok_iff.mp h
  obtain ⟨_, _, _, _, -, ha⟩ := hp.exists_acts
  obtain ⟨-, -, hfault⟩ := ha.exists_of_distribution
  exact Distribution.valid_of_fault? hfault

end Calls

section Scores

theorem eq_zero_of_lt {x : Float} (h : lt zero x = true) : eq x zero = false := by
  have hzero : (zero : Float).toModel.unpack = .zero .positive := rfl
  have hlt : (Float.Model.UnpackedFloat.compare (.zero .positive) x.toModel.unpack == some .lt) = true := by
    rw [← hzero]
    exact of_decide_eq_true (of_decide_eq_true h)
  change (Float.Model.UnpackedFloat.compare x.toModel.unpack (zero : Float).toModel.unpack == some .eq) =
    false
  rw [hzero]
  cases hx : x.toModel.unpack with
  | infinity s => cases s <;> rfl
  | notANumber => rfl
  | zero s =>
    rw [hx] at hlt
    cases hlt
  | finite s m e hm => cases s <;> rfl

def Distribution.map {α β : Type} (f : α → β) : Distribution α → Distribution β
  | .normal mean deviation => .normal (f mean) (f deviation)
  | .uniform low high => .uniform (f low) (f high)
  | .bernoulli chance => .bernoulli (f chance)
  | .exponential rate => .exponential (f rate)

def Distribution.Wide (d : Distribution Float) : Prop :=
  ∀ low high, d = .uniform low high → lt zero (high - low) = true

namespace Distribution

theorem logChance_guarded (p : Float) : logChance (number p) = number (logChance p) := by
  change (if lt zero p = true then log (number p) else negInf) = number (if lt zero p = true then _ else _)
  split
  · next h => exact Guarded.log_number h
  · rfl

/-- A valid distribution scores every point, with no logarithm of what is not above zero and no quotient by
zero. -/
theorem Valid.logProb_guarded {d : Distribution Float} (h : d.Valid) (hw : d.Wide) (x : Float) :
    (d.map number).logProb (number x) = number (d.logProb x) := by
  cases d with
  | normal mean deviation =>
    have hdeviation : lt zero deviation = true := h.range
    have hz : (number x - number mean) / number deviation = number ((x - mean) / deviation) :=
      Guarded.number_div (eq_zero_of_lt hdeviation)
    have hpeak : log (ofNat 2 * pi : Guarded Float) = number (log (ofNat 2 * pi)) :=
      Guarded.log_number (by decide)
    have hlog : log (number deviation) = number (log deviation) := Guarded.log_number hdeviation
    change -half * log (ofNat 2 * pi) - log (number deviation) -
      half * ((number x - number mean) / number deviation) * ((number x - number mean) / number deviation) = _
    rw [hz, hpeak, hlog]
    rfl
  | uniform low high =>
    have hlog : log (number high - number low) = number (log (high - low)) := Guarded.log_number (hw low high rfl)
    change (if (le low x && le x high) = true then -log (number high - number low) else negInf) =
      number (if (le low x && le x high) = true then _ else _)
    rw [hlog]
    split <;> rfl
  | bernoulli chance =>
    change (if eq x one = true then logChance (number chance)
      else if eq x zero = true then logChance (number (one - chance)) else negInf) =
        number (if eq x one = true then _ else if eq x zero = true then _ else _)
    rw [logChance_guarded, logChance_guarded]
    split
    · rfl
    · split <;> rfl
  | exponential rate =>
    have hlog : log (number rate) = number (log rate) := Guarded.log_number h.range
    change (if lt x zero = true then negInf else log (number rate) - number rate * number x) =
      number (if lt x zero = true then _ else _)
    rw [hlog]
    split <;> rfl

theorem Valid.sample_guarded {d : Distribution Float} (h : d.Valid) (draw : Float) :
    (d.map number).sample (number draw) = number (d.sample draw) := by
  cases d with
  | normal mean deviation => rfl
  | uniform low high => rfl
  | bernoulli chance =>
    change (if lt draw chance = true then one else zero) = number (if lt draw chance = true then _ else _)
    split <;> rfl
  | exponential rate =>
    have hscale : one / number rate = number (one / rate) := Guarded.number_div (eq_zero_of_lt h.range)
    change one / number rate * number draw = _
    rw [hscale]
    rfl

end Distribution

end Scores

/-- A distribution is made or refused alike, with one wording, by its family, by the constructor of its class and
by a call in a program. Any that a program yields has finite parameters in the range of its family, and is
scored at any point and sampled without a logarithm of what is not above zero and without a quotient by zero,
where the width of a uniform one is above zero. -/
theorem construction_of_distributions :
    (∀ (f : Family) (ps : List Float) (i : Interpreter Float) (g : Generator Float),
      (match f.fault? ps with
        | none => ∃ d, d.family = f ∧ d.params = ps ∧ f.make ps = .ok d ∧
            i.evaluate g (.call f.name (ps.map .number)) = (.ok (.distribution d), i, g)
        | some fault => f.make ps = .error fault ∧
            i.evaluate g (.call f.name (ps.map .number)) =
              (.error (.failure (.parameters fault)), i, g) ∧
            (Failure.parameters fault).message = fault.message) ∧
        (ps.length = f.arity → ∃ d, f.shape? ps = some d ∧ d.checked = f.make ps)) ∧
    ∀ (levels : Nat) (n : Node Float) (m m' : Machine Float) (d : Distribution Float),
      evaluate levels n m = .ok (.distribution d) m' →
        d.Valid ∧ (d.Wide → ∀ x draw : Float,
          (d.map number).logProb (number x) = number (d.logProb x) ∧
            (d.map number).sample (number draw) = number (d.sample draw)) := by
  refine ⟨fun f ps i g => ⟨?_, fun hl => ?_⟩, fun levels n m m' d h => ?_⟩
  · have hcall := i.evaluate_literal_call g f ps
    rcases f.make_cases ps with ⟨d, hd, hf, hp, hfault⟩ | ⟨fault, hd, hfault⟩
    · rw [hd] at hcall
      rw [hfault]
      exact ⟨d, hf, hp, hd, hcall⟩
    · rw [hd] at hcall
      rw [hfault]
      exact ⟨hd, hcall, rfl⟩
  · obtain ⟨d, hd, -, -⟩ := Family.exists_shape? hl
    exact ⟨d, hd, Family.checked_of_shape? hd⟩
  · have hvalid := valid_of_evaluate h
    exact ⟨hvalid, fun hw x draw => ⟨hvalid.logProb_guarded hw x, hvalid.sample_guarded draw⟩⟩

theorem construction_of_unit_interval :
    ∃ (n : Node Float) (m m' : Machine Float) (d : Distribution Float),
      n = .call "uniform" [.number 0, .number 1] ∧ d = .uniform 0 1 ∧
      evaluate 2 n m = .ok (.distribution d) m' ∧ d.checked = Family.uniform.make [0, 1] ∧ d.Valid ∧
      ∀ x, (d.map number).logProb (number x) = number (d.logProb x) := by
  let n : Node Float := .call "uniform" [.number 0, .number 1]
  let m : Machine Float := ⟨.empty, .cycle 1 #[]⟩
  obtain ⟨hmake, hyields⟩ := construction_of_distributions
  obtain ⟨d, hd, hchecked⟩ := (hmake .uniform [0, 1] ⟨[n], .empty⟩ m.generator).2 rfl
  cases hd
  have hn : evaluate 2 n m = .ok (.distribution (.uniform 0 1)) m := rfl
  obtain ⟨hvalid, hscores⟩ := hyields 2 n m m _ hn
  have hwide : (Distribution.uniform 0 1 : Distribution Float).Wide := by
    rintro low high ⟨⟩
    decide
  exact ⟨n, m, m, .uniform 0 1, rfl, rfl, hn, hchecked, hvalid, fun x => (hscores hwide x x).1⟩

/-- What has not passed its checks may come to a quotient that does not exist. -/
example (x : Float) : ((Distribution.normal (0 : Float) 0).map number).logProb (number x) = .missing := rfl

end Posterior
