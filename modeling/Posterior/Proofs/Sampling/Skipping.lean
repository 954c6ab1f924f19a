import Posterior.Proofs.Checking.Halts
import Posterior.Proofs.Sampling.Rejection
import Posterior.Source

/-!
What the policy to skip keeps out of a sampling. Every failure of the program is counted and passed over. A
draw that cannot be taken is no failure: it ends the sampling, and nothing else does.
-/

set_option autoImplicit false

namespace Posterior.Rejection

section

variable {α β : Type}

def isOverflow : Except (Halt α) β → Bool
  | .error .overflow => true
  | _ => false

theorem isOverflow_iff {outcome : Except (Halt α) β} :
    isOverflow outcome = true ↔ outcome = .error .overflow := by
  constructor
  · intro h
    unfold isOverflow at h
    split at h
    · rfl
    · cases h
  · rintro rfl
    rfl

def overflows : Except (SamplingFault α) β → Bool
  | .error (.halted .overflow) => true
  | _ => false

theorem eq_of_overflows {outcome : Except (SamplingFault α) β} (h : overflows outcome = true) :
    outcome = .error (.halted .overflow) := by
  unfold overflows at h
  split at h
  · rfl
  · cases h

end

variable {α : Type} [Arithmetic α] {r : Rejection α}

theorem arises_of_outcomes (hd : ∀ n ∈ r.interpreter.statements, n.isTooDeep = false) {i : Nat}
    {halt : Halt α} (h : r.outcomes i = .error halt) : halt.Arises (.program r.interpreter.statements) :=
  arises_of_run (i := ⟨r.interpreter.statements, .empty⟩) hd h

theorem passes_of_skip (hskip : r.policy = .skip)
    (hd : ∀ n ∈ r.interpreter.statements, n.isTooDeep = false) {i : Nat}
    (h : r.outcomes i ≠ .error .overflow) : Passes r.policy (r.outcomes i) := by
  refine passes_of ⟨h, fun ho => ?_⟩ (.inl hskip)
  exact (arises_of_outcomes hd ho).ne_tooDeep rfl

/-- Under the policy to skip, a request for samples of a program within the limit returns, with every failure
counted, unless one of its runs overflows. The first run that does ends the sampling, and it has been asked for
a draw from a uniform distribution too wide to be sampled. -/
theorem returns_of_skip (r : Rejection α) (hskip : r.policy = .skip)
    (hd : ∀ n ∈ r.interpreter.statements, n.isTooDeep = false) {wanted budget : Nat}
    {limit : Option (Argument α)} (hw : 1 ≤ wanted) (hb : 1 ≤ budget)
    (hl : limit = some (.integer budget) ∨ limit = none ∧ budget = 100 * wanted) :
    let report := r.run (.integer wanted) limit
    let last := stop r.accepts r.outcomes wanted budget
    ((∀ i < last, r.outcomes i ≠ .error .overflow) →
      ∃ summary, report.outcome = .ok summary ∧ Fulfils r wanted budget report.sampler summary) ∧
    ∀ i < last, r.outcomes i = .error .overflow → (∀ m < i, r.outcomes m ≠ .error .overflow) →
      report.outcome = .error (.halted .overflow) ∧
      OutOfRange (.program r.interpreter.statements) .overflow ∧
      report.sampler.samples.toList = acceptedIn r.accepts r.outcomes i ∧
      report.sampler.attempts = i ∧ report.sampler.failures = failuresIn r.outcomes i := by
  dsimp only
  rw [run_eq_collect r hw hb hl, collect]
  have ht : Tallies r r.restart 0 := tallies_restart r
  constructor
  · intro hn
    obtain ⟨r', events, hr, ht'⟩ :=
      loop_done hw ht (Nat.zero_add budget) (Nat.zero_le _) (fun i hi => passes_of_skip hskip hd (hn i hi))
        #[.rejectionStarted wanted]
    rw [hr]
    exact ⟨_, rfl, ht'.fulfils hw⟩
  · intro i hi ho hbefore
    obtain ⟨r', events, hr, -, -, hsamples, hattempts, hfailures⟩ :=
      loop_halted hw hi ho id (fun m hm => passes_of_skip hskip hd (hbefore m hm)) ht (Nat.zero_add budget)
        (Nat.zero_le i) #[.rejectionStarted wanted]
    rw [hr]
    exact ⟨rfl, (arises_of_outcomes hd ho).outOfRange, hsamples, hattempts, hfailures⟩

theorem returns_of_growing_width :
    ∃ r : Rejection Float,
      r.interpreter.statements =
        [.assignment "s" (.call "sample" [.call "bernoulli" [.number 0.5]]),
          .assignment "x" (.call "sample" [.call "uniform"
            [.number (-1e308), .binary "*" (.number 1e308) (.var "s")]])] ∧
      r.policy = .skip ∧
      (∃ summary, (r.run (.integer 1) none).outcome = .ok summary ∧
        Fulfils r 1 100 (r.run (.integer 1) none).sampler summary) ∧
      (r.run (.integer 2) none).outcome = .error (.halted .overflow) ∧
      OutOfRange (.program r.interpreter.statements) .overflow := by
  let r : Rejection Float :=
    { interpreter :=
        ⟨[.assignment "s" (.call "sample" [.call "bernoulli" [.number 0.5]]),
          .assignment "x" (.call "sample" [.call "uniform"
            [.number (-1e308), .binary "*" (.number 1e308) (.var "s")]])], .empty⟩
      generator := .cycle 0.75 #[0.5, 0.25]
      policy := .skip }
  have hd : ∀ n ∈ r.interpreter.statements, n.isTooDeep = false := by decide
  have hfirst : isOverflow (r.outcomes 0) = false := by decide +kernel
  have hsecond : isOverflow (r.outcomes 1) = true := by decide +kernel
  have hzero : r.outcomes 0 ≠ .error .overflow := fun ho => by
    rw [isOverflow_iff.mpr ho] at hfirst
    cases hfirst
  have hone := @returns_of_skip Float _ r rfl hd 1 100 none (by decide) (by decide) (.inr ⟨rfl, rfl⟩)
  have htwo := @returns_of_skip Float _ r rfl hd 2 200 none (by decide) (by decide) (.inr ⟨rfl, rfl⟩)
  have hstop : stop r.accepts r.outcomes 1 100 = 1 := by decide +kernel
  have hlast : 1 < stop r.accepts r.outcomes 2 200 := by decide +kernel
  obtain ⟨summary, hs, hf⟩ := hone.1 fun i hi => by
    rw [hstop, Nat.lt_one_iff] at hi
    exact hi ▸ hzero
  obtain ⟨hout, hrange, -⟩ := htwo.2 1 hlast (isOverflow_iff.mp hsecond) fun m hm => by
    rw [Nat.lt_one_iff] at hm
    exact hm ▸ hzero
  exact ⟨r, rfl, rfl, ⟨summary, hs, hf⟩, hout, hrange⟩

set_option maxRecDepth 3000 in
/-- A program text for which the policy to skip lets an overflow through. -/
theorem overflow_of_wide_uniform :
    let source := "b = 100000000000000000000000000000000000000000000000000000000000000000000000000000\n" ++
      "a = b * b * b * b\nx = sample(uniform(-a, a))"
    let a : Node Float := .var "a"
    let b : Node Float := .var "b"
    let x : Float :=
      Arithmetic.ofDecimal 100000000000000000000000000000000000000000000000000000000000000000000000000000 0
    let statements : List (Node Float) :=
      [.assignment "b" (.number x), .assignment "a" (.binary "*" (.binary "*" (.binary "*" b b) b) b),
        .assignment "x" (.call "sample" [.call "uniform" [.binary "-" (.number Arithmetic.zero) a, a]])]
    let r : Rejection Float :=
      { interpreter := ⟨statements, .empty⟩, generator := .cycle 0.5 #[], policy := .skip }
    compile source = .ok (.program statements) ∧ (∀ n ∈ statements, n.isTooDeep = false) ∧
      (r.run (.integer 1) (some (.integer 1))).outcome = .error (.halted .overflow) := by
  intro source a b x statements r
  let ts : List (Token Float) :=
    [⟨.mark .identifier "b", 0⟩, ⟨.mark .equal "=", 2⟩, ⟨.number x, 4⟩,
      ⟨.mark .identifier "a", 83⟩, ⟨.mark .equal "=", 85⟩, ⟨.mark .identifier "b", 87⟩,
      ⟨.mark .star "*", 89⟩, ⟨.mark .identifier "b", 91⟩, ⟨.mark .star "*", 93⟩,
      ⟨.mark .identifier "b", 95⟩, ⟨.mark .star "*", 97⟩, ⟨.mark .identifier "b", 99⟩,
      ⟨.mark .identifier "x", 101⟩, ⟨.mark .equal "=", 103⟩, ⟨.mark .identifier "sample", 105⟩,
      ⟨.mark .leftParen "(", 111⟩, ⟨.mark .identifier "uniform", 112⟩, ⟨.mark .leftParen "(", 119⟩,
      ⟨.mark .minus "-", 120⟩, ⟨.mark .identifier "a", 121⟩, ⟨.mark .comma ",", 122⟩,
      ⟨.mark .identifier "a", 124⟩, ⟨.mark .rightParen ")", 125⟩, ⟨.mark .rightParen ")", 126⟩,
      ⟨.eof, 127⟩]
  have ht : tokenize source = .ok ts := by
    simp only [source, tokenize, String.reduceAppend, String.reduceToList]
    rfl
  have hp : parse ts = .program statements := rfl
  refine ⟨by simp only [compile, ht, hp], by decide, ?_⟩
  exact eq_of_overflows (by decide +kernel)

end Posterior.Rejection
