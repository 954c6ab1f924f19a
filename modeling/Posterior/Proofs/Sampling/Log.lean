import Posterior.Proofs.Sampling.Importance
import Posterior.Proofs.Sampling.Refusal
import Posterior.Sampler.Message

set_option autoImplicit false

namespace Posterior

section Events

variable {α σ β : Type}

/-- What a sampler has to tell. Of each run that returns, the interpreter tells by itself. -/
def Event.ofSampler : Event α → Bool
  | .ran .. => false
  | .skipped _ | .rejectionStarted _ | .attempted .. | .rejectionCompleted .. | .budgetExhausted ..
  | .importanceStarted _ | .generated .. | .importanceCompleted .. => true

def Event.isSkip : Event α → Bool
  | .skipped _ => true
  | _ => false

def Event.isProgress : Event α → Bool
  | .attempted .. | .generated .. => true
  | _ => false

def Report.log (report : Report α σ β) : List (Event α) := report.events.filter Event.ofSampler

variable (progress : Nat → Event α) (o : Nat → Except (Halt α) (Result α))

def toldOf (i : Nat) : List (Event α) :=
  (failure? (o i)).toList.map .skipped ++ if (i + 1) % progressInterval = 0 then [progress i] else []

def toldIn (k : Nat) : List (Event α) := (List.range k).flatMap (toldOf progress o)

theorem toldIn_succ (k : Nat) : toldIn progress o (k + 1) = toldIn progress o k ++ toldOf progress o k := by
  rw [toldIn, List.range_succ, List.flatMap_append, List.flatMap_singleton]
  rfl

variable {progress}

theorem isSkip_of_isProgress {e : Event α} (h : e.isProgress = true) : e.isSkip = false := by
  cases e <;> first | rfl | cases h

theorem ofSampler_of_isProgress {e : Event α} (h : e.isProgress = true) : e.ofSampler = true := by
  cases e <;> first | rfl | cases h

theorem countP_isSkip_toldIn (hp : ∀ i, (progress i).isProgress = true) (k : Nat) :
    (toldIn progress o k).countP Event.isSkip = failuresIn o k := by
  induction k with
  | zero => rfl
  | succ k ih =>
    have hskip : ((failure? (o k)).toList.map Event.skipped).countP Event.isSkip =
        if (failure? (o k)).isSome then 1 else 0 := by
      cases failure? (o k) <;> rfl
    have hdue : (if (k + 1) % progressInterval = 0 then [progress k] else []).countP Event.isSkip = 0 := by
      split
      · exact List.countP_eq_zero.mpr (by simp [isSkip_of_isProgress (hp k)])
      · rfl
    rw [toldIn_succ, toldOf, List.countP_append, List.countP_append, ih, hskip, hdue, failuresIn_succ]
    rfl

/-- The reports of progress are those of the last run of each full interval. -/
theorem filter_isProgress_toldIn (hp : ∀ i, (progress i).isProgress = true) (k : Nat) :
    (toldIn progress o k).filter Event.isProgress =
      (List.range (k / progressInterval)).map fun j => progress (progressInterval * (j + 1) - 1) := by
  induction k with
  | zero => rfl
  | succ k ih =>
    have hskip : ((failure? (o k)).toList.map Event.skipped).filter Event.isProgress = [] := by
      cases failure? (o k) <;> rfl
    rw [toldIn_succ, toldOf, List.filter_append, List.filter_append, ih, hskip, List.nil_append]
    split
    · next hdue =>
      obtain ⟨j, hj⟩ := Nat.dvd_of_mod_eq_zero hdue
      have hpos : 0 < progressInterval := by decide
      have hbefore : k / progressInterval = j - 1 := by
        unfold progressInterval at hj ⊢
        omega
      have hj' : j - 1 + 1 = j := by
        unfold progressInterval at hj
        omega
      rw [hj, Nat.mul_div_cancel_left j hpos, hbefore, List.filter_cons_of_pos (hp k), List.filter_nil]
      conv => rhs; rw [← hj', List.range_succ, List.map_append, List.map_singleton, hj', ← hj]
      rfl
    · next hdue =>
      have hsame : (k + 1) / progressInterval = k / progressInterval := by
        unfold progressInterval at hdue ⊢
        omega
      rw [hsame, List.filter_nil, List.append_nil]

theorem countP_isProgress_toldIn (hp : ∀ i, (progress i).isProgress = true) (k : Nat) :
    (toldIn progress o k).countP Event.isProgress = k / progressInterval := by
  rw [List.countP_eq_length_filter, filter_isProgress_toldIn o hp, List.length_map, List.length_range]

theorem Argument.IsCount.exists_natCast {a : Argument α} (h : a.IsCount) :
    ∃ n : Nat, 1 ≤ n ∧ a = .integer n := by
  obtain ⟨n, hn, rfl⟩ := h
  obtain ⟨m, rfl⟩ := Int.eq_ofNat_of_zero_le (by omega : 0 ≤ n)
  exact ⟨m, by omega, rfl⟩

theorem filter_told {p : Event α → Bool} {opening : Event α} {closing : List (Event α)} (ho : p opening = false)
    (hc : ∀ e ∈ closing, p e = false) (told : List (Event α)) :
    (opening :: told ++ closing).filter p = told.filter p := by
  have hopening : ¬ p opening = true := by
    rw [ho]
    exact Bool.false_ne_true
  have hclosing : closing.filter p = [] := by
    refine List.filter_eq_nil_iff.mpr fun e he => ?_
    rw [hc e he]
    exact Bool.false_ne_true
  rw [List.filter_append, hclosing, List.append_nil, List.filter_cons_of_neg hopening]

theorem countP_told {p : Event α → Bool} {opening : Event α} {closing : List (Event α)} (ho : p opening = false)
    (hc : ∀ e ∈ closing, p e = false) (told : List (Event α)) :
    (opening :: told ++ closing).countP p = told.countP p := by
  rw [List.countP_eq_length_filter, filter_told ho hc, ← List.countP_eq_length_filter]

namespace Rejection

theorem ne_of_passes {policy : Policy} {outcome : Except (Halt α) (Result α)} (h : Passes policy outcome) :
    outcome ≠ .error .overflow ∧ outcome ≠ .error .tooDeep := by
  constructor <;> rintro rfl <;> exact h

theorem mem_closing {summary : RejectionSummary α} {wanted budget : Nat} {e : Event α}
    (h : e ∈ Event.rejectionCompleted summary.attempts summary.accepted summary.rate ::
      if summary.success then [] else [.budgetExhausted budget summary.accepted wanted]) :
    e.ofSampler = true ∧ e.isSkip = false ∧ e.isProgress = false := by
  rcases List.mem_cons.mp h with rfl | h
  · exact ⟨rfl, rfl, rfl⟩
  · split at h
    · cases h
    · obtain rfl := List.mem_singleton.mp h
      exact ⟨rfl, rfl, rfl⟩

end Rejection

end Events

variable {α : Type} [Arithmetic α]

theorem Sampler.told_of_attempt (s : Sampler α) :
    match s.attempt.outcome with
    | .ok _ => Rejection.Passes s.policy (cycle s.interpreter.statements s.generator).1 ∧
        s.attempt.events.filter Event.ofSampler =
          (failure? (cycle s.interpreter.statements s.generator).1).toList.map .skipped
    | .error halt => (cycle s.interpreter.statements s.generator).1 = .error halt ∧ s.attempt.events = [] := by
  have hcycle : (cycle s.interpreter.statements s.generator).1 = (s.interpreter.reset.run s.generator).1 := rfl
  rw [hcycle, attempt]
  rcases s.interpreter.reset.run s.generator with ⟨(f | _ | _) | result, interpreter, generator⟩
  · cases hp : s.policy with
    | raise => exact ⟨rfl, rfl⟩
    | skip => exact ⟨rfl, rfl⟩
  · exact ⟨rfl, rfl⟩
  · exact ⟨rfl, rfl⟩
  · exact ⟨trivial, rfl⟩

namespace Rejection

variable {start r : Rejection α} {k : Nat} {progress : Nat → Event α} {opening : Event α}
  {events : Array (Event α)}

structure Tells (start r : Rejection α) (k : Nat) (progress : Nat → Event α) (opening : Event α)
    (events : Array (Event α)) : Prop where
  tallies : Tallies start r k
  passed : ∀ i < k, Passes start.policy (start.outcomes i)
  log : events.toList.filter Event.ofSampler = opening :: toldIn progress start.outcomes k

theorem tells_restart (r : Rejection α) (progress : Nat → Event α) (h : opening.ofSampler = true) :
    Tells r r.restart 0 progress opening #[opening] where
  tallies := tallies_restart r
  passed := nofun
  log := List.filter_cons_of_pos h

theorem Tells.step {result : Option (Result α)} {sampler : Sampler α} {more : List (Event α)}
    (h : Tells start r k progress opening events) (hp : ∀ i, (progress i).isProgress = true)
    (ha : r.toSampler.attempt = ⟨.ok result, sampler, more⟩) :
    Tells start ({ r with toSampler := sampler }.settle result) (k + 1) progress opening
      (events ++ more ++ if (k + 1) % progressInterval = 0 then [progress k] else []) := by
  have htold := r.toSampler.told_of_attempt
  rw [ha, h.tallies.cycle, h.tallies.policy] at htold
  obtain ⟨hpasses, hmore⟩ := htold
  obtain ⟨result', sampler', more', ha', ht⟩ := h.tallies.step hpasses
  rw [ha] at ha'
  cases ha'
  refine ⟨ht, ?_, ?_⟩
  · intro i hi
    rcases Nat.lt_succ_iff_lt_or_eq.mp hi with hi | rfl
    · exact h.passed i hi
    · exact hpasses
  · -- The progress that is due comes behind the warning, and both are the sampler's own.
    have hdue : (if (k + 1) % progressInterval = 0 then [progress k] else []).filter Event.ofSampler =
        if (k + 1) % progressInterval = 0 then [progress k] else [] := by
      refine List.filter_eq_self.mpr fun e he => ?_
      split at he
      · obtain rfl := List.mem_singleton.mp he
        exact ofSampler_of_isProgress (hp k)
      · cases he
    rw [toldIn_succ, toldOf]
    simp [h.log, hmore, hdue]

theorem Tells.halt {halt : Halt α} {sampler : Sampler α} {more : List (Event α)}
    (h : Tells start r k progress opening events) (ha : r.toSampler.attempt = ⟨.error halt, sampler, more⟩) :
    start.outcomes k = .error halt ∧
      (events ++ more).toList.filter Event.ofSampler = opening :: toldIn progress start.outcomes k := by
  have htold := r.toSampler.told_of_attempt
  rw [ha, h.tallies.cycle] at htold
  obtain ⟨ho, rfl⟩ := htold
  exact ⟨ho, by simp [h.log]⟩

/-- Run `n` is the one that ends the sampling: attempts are left and samples are wanted, and all runs before it
have gone on. -/
structure Halts (start : Rejection α) (wanted budget n : Nat) (halt : Halt α) : Prop where
  left : n < budget
  needed : (acceptedIn start.accepts start.outcomes n).length < wanted
  outcome : start.outcomes n = .error halt
  passed : ∀ i < n, Passes start.policy (start.outcomes i)

/-- The progress told after run `i`. The sample that this run may bring is not among those it counts. -/
def progressAt (start : Rejection α) (i : Nat) : Event α :=
  .attempted (i + 1) (acceptedIn start.accepts start.outcomes i).length

theorem loop_tells {wanted budget left : Nat} {r' : Rejection α} {events' : Array (Event α)}
    {outcome : Except (Halt α) Unit} (h : Tells start r k start.progressAt opening events)
    (hk : k + left = budget) (hl : loop wanted left r events = (outcome, r', events')) :
    ∃ n, events'.toList.filter Event.ofSampler = opening :: toldIn start.progressAt start.outcomes n ∧
      (outcome = .ok () → Tells start r' n start.progressAt opening events') ∧
      ∀ halt, outcome = .error halt → Halts start wanted budget n halt := by
  induction left generalizing k r events with
  | zero =>
    cases hl
    exact ⟨k, h.log, fun _ => h, nofun⟩
  | succ left ih =>
    rw [loop] at hl
    split at hl
    · cases hl
      exact ⟨k, h.log, fun _ => h, nofun⟩
    · next hwanted =>
      split at hl
      · next halt sampler more ha =>
        cases hl
        obtain ⟨ho, hlog⟩ := h.halt ha
        refine ⟨k, hlog, ?_, ?_⟩
        · rintro ⟨⟩
        · rintro _ ⟨⟩
          exact ⟨by omega, h.tallies.accepted ▸ Nat.lt_of_not_le hwanted, ho, h.passed⟩
      · next result sampler more ha =>
        refine ih (h.step (fun _ => rfl) ha) (by omega) ?_
        -- The loop reports from what it has counted so far, so before the attempt is settled.
        have hprogress : r.progress = if (k + 1) % progressInterval = 0 then [start.progressAt k] else [] := by
          rw [progress, h.tallies.attempts, h.tallies.accepted]
          rfl
        rw [← hprogress]
        exact hl

structure Accounts (start : Rejection α) (wanted budget : Nat)
    (report : Report α (Rejection α) (RejectionSummary α)) : Prop where
  returned : ∀ summary, report.outcome = .ok summary →
    report.log = .rejectionStarted wanted :: toldIn start.progressAt start.outcomes summary.attempts ++
      .rejectionCompleted summary.attempts summary.accepted summary.rate ::
        (if summary.success then [] else [.budgetExhausted budget summary.accepted wanted]) ∧
    report.log.countP Event.isSkip = summary.failures ∧
    report.log.countP Event.isProgress = summary.attempts / progressInterval ∧
    summary.accepted = (acceptedIn start.accepts start.outcomes summary.attempts).length
  aborted : ∀ fault, report.outcome = .error fault →
    ∃ n halt, fault = .halted halt ∧ Halts start wanted budget n halt ∧
      report.log = .rejectionStarted wanted :: toldIn start.progressAt start.outcomes n

theorem closing_finish (r : Rejection α) (wanted budget : Nat) :
    (r.finish wanted).closing wanted budget =
      let summary := (r.finish wanted).summary wanted
      .rejectionCompleted summary.attempts summary.accepted summary.rate ::
        if summary.success then [] else [.budgetExhausted budget summary.accepted wanted] := by
  have hsuccess : ((r.finish wanted).summary wanted).success = true ↔ wanted ≤ r.accepted := decide_eq_true_iff
  dsimp only [closing]
  simp only [hsuccess]
  rfl

theorem collect_accounts (r : Rejection α) (wanted budget : Nat) :
    Accounts r wanted budget (r.collect wanted budget) := by
  rcases hl : loop wanted budget r.restart #[.rejectionStarted wanted] with ⟨halt | ⟨⟩, r', events⟩
  · obtain ⟨n, hlog, -, hhalts⟩ := loop_tells (tells_restart r r.progressAt rfl) (Nat.zero_add budget) hl
    rw [collect, hl]
    refine ⟨?_, ?_⟩ <;> rintro _ ⟨⟩
    exact ⟨n, halt, rfl, hhalts halt rfl, hlog⟩
  · obtain ⟨n, hlog, ht, -⟩ := loop_tells (tells_restart r r.progressAt rfl) (Nat.zero_add budget) hl
    obtain ⟨ht, -, -⟩ := ht rfl
    obtain rfl := ht.attempts
    rw [collect, hl]
    refine ⟨?_, ?_⟩ <;> rintro _ ⟨⟩
    have hwhole : Report.log ⟨.ok ((r'.finish wanted).summary wanted), r'.finish wanted,
        events.toList ++ (r'.finish wanted).closing wanted budget⟩ =
          .rejectionStarted wanted :: toldIn r.progressAt r.outcomes r'.attempts ++
            (r'.finish wanted).closing wanted budget := by
      have hkept : ∀ e ∈ (r'.finish wanted).closing wanted budget, e.ofSampler = true := by
        rw [closing_finish]
        exact fun e he => (mem_closing he).1
      rw [Report.log, List.filter_append, hlog, List.filter_eq_self.mpr hkept]
    dsimp only
    rw [hwhole, closing_finish]
    refine ⟨rfl, ?_, ?_, ht.accepted⟩
    · rw [countP_told rfl fun e he => (mem_closing he).2.1, countP_isSkip_toldIn _ fun _ => rfl]
      exact ht.failures.symm
    · rw [countP_told rfl fun e he => (mem_closing he).2.2, countP_isProgress_toldIn _ fun _ => rfl]
      rfl

end Rejection

namespace Importance

variable {start s : Importance α} {r : Rejection α} {k : Nat} {opening : Event α} {events : Array (Event α)}

def progressAt (wanted i : Nat) : Event α := .generated (i + 1) wanted

theorem loop_tells {wanted left : Nat} {s' : Importance α} {events' : Array (Event α)}
    {outcome : Except (Halt α) Unit}
    (h : Rejection.Tells start.peer r k (progressAt wanted) opening events) (hs : r.toSampler = s.toSampler)
    (hk : k + left = wanted) (hl : loop wanted left s events = (outcome, s', events')) :
    ∃ n, events'.toList.filter Event.ofSampler = opening :: toldIn (progressAt wanted) start.outcomes n ∧
      (outcome = .ok () → n = wanted ∧ ∃ r', r'.toSampler = s'.toSampler ∧
        Rejection.Tells start.peer r' wanted (progressAt wanted) opening events') ∧
      ∀ halt, outcome = .error halt → n < wanted ∧ start.outcomes n = .error halt ∧
        ∀ i < n, Rejection.Passes start.policy (start.outcomes i) := by
  induction left generalizing k r s events with
  | zero =>
    cases hl
    obtain rfl : k = wanted := hk
    exact ⟨k, h.log, fun _ => ⟨rfl, r, hs, h⟩, nofun⟩
  | succ left ih =>
    rw [loop] at hl
    split at hl
    · next halt sampler more ha =>
      cases hl
      obtain ⟨ho, hlog⟩ := h.halt (hs ▸ ha)
      refine ⟨k, hlog, ?_, ?_⟩
      · rintro ⟨⟩
      · rintro _ ⟨⟩
        exact ⟨by omega, ho, h.passed⟩
    · next result sampler more ha =>
      have hstep := h.step (fun _ => rfl) (hs ▸ ha)
      have hsettle := settle_lockstep (s := { s with toSampler := sampler })
        (r := { r with toSampler := sampler }) rfl h.tallies.condition result
      refine ih hstep hsettle.1 (by omega) ?_
      have hdone : wanted - left = k + 1 := by omega
      rw [hdone] at hl
      exact hl

structure Accounts (start : Importance α) (wanted : Nat)
    (report : Report α (Importance α) (ImportanceSummary α)) : Prop where
  returned : ∀ summary, report.outcome = .ok summary →
    report.log = .importanceStarted wanted :: toldIn (progressAt wanted) start.outcomes wanted ++
      [.importanceCompleted (wanted - summary.failures) summary.effectiveSize summary.ratio] ∧
    report.log.countP Event.isSkip = summary.failures ∧
    report.log.countP Event.isProgress = wanted / progressInterval
  aborted : ∀ fault, report.outcome = .error fault → ∃ n ≤ wanted,
    report.log = .importanceStarted wanted :: toldIn (progressAt wanted) start.outcomes n ∧
    (n = wanted ∧ (fault = .allFailed wanted ∨ fault = .zeroWeight) ∨
      n < wanted ∧ ∃ halt, fault = .halted halt ∧ start.outcomes n = .error halt ∧
        ∀ i < n, Rejection.Passes start.policy (start.outcomes i))

theorem conclude_accounts {s s' : Importance α} {wanted : Nat} {events : List (Event α)}
    (hlog : events.filter Event.ofSampler =
      .importanceStarted wanted :: toldIn (progressAt wanted) s.outcomes wanted)
    (hf : s'.failures = failuresIn s.outcomes wanted) (hsize : s'.samples.size + s'.failures = wanted) :
    Accounts s wanted (s'.conclude wanted events) := by
  unfold conclude
  split
  · refine ⟨nofun, ?_⟩
    rintro _ ⟨⟩
    exact ⟨wanted, Nat.le_refl wanted, hlog, .inl ⟨rfl, .inl rfl⟩⟩
  · split
    · refine ⟨nofun, ?_⟩
      rintro _ ⟨⟩
      exact ⟨wanted, Nat.le_refl wanted, hlog, .inl ⟨rfl, .inr rfl⟩⟩
    · refine ⟨?_, nofun⟩
      rintro _ ⟨⟩
      have hprogress : ∀ i, (progressAt wanted i : Event α).isProgress = true := fun _ => rfl
      have hleft : s'.samples.size = wanted - s'.failures := by omega
      simp only [Report.log, List.filter_append, hlog]
      refine ⟨by rw [hleft]; rfl, ?_, ?_⟩
      · refine Eq.trans ?_ ((countP_isSkip_toldIn s.outcomes hprogress wanted).trans hf.symm)
        exact countP_told rfl (by simp [Event.isSkip]) _
      · rw [← countP_isProgress_toldIn s.outcomes hprogress wanted]
        exact countP_told rfl (by simp [Event.isProgress]) _

theorem collect_accounts (s : Importance α) (wanted : Nat) : Accounts s wanted (s.collect wanted) := by
  have hstart : s.peer.restart.toSampler = s.restart.toSampler := rfl
  have htells := Rejection.tells_restart s.peer (progressAt wanted)
    (rfl : (Event.importanceStarted wanted : Event α).ofSampler = true)
  rcases hl : loop wanted wanted s.restart #[.importanceStarted wanted] with ⟨halt | ⟨⟩, s', events⟩
  · obtain ⟨n, hlog, -, ho⟩ := loop_tells htells hstart (Nat.zero_add wanted) hl
    obtain ⟨hn, ho, hpassed⟩ := ho halt rfl
    rw [collect, hl]
    refine ⟨?_, ?_⟩ <;> rintro _ ⟨⟩
    exact ⟨n, Nat.le_of_lt hn, hlog, .inr ⟨hn, halt, rfl, ho, hpassed⟩⟩
  · obtain ⟨n, hlog, ht, -⟩ := loop_tells htells hstart (Nat.zero_add wanted) hl
    obtain ⟨rfl, r, hr, ht, hpassed, -⟩ := ht rfl
    have hfailures : s'.failures = failuresIn s.outcomes n := (congrArg (·.failures) hr).symm.trans ht.failures
    have hsamples : s'.samples.toList = returnedIn s.outcomes n :=
      (congrArg (·.samples.toList) hr).symm.trans (ht.samples.trans (returnedIn_eq_acceptedIn _ n).symm)
    have hsize : s'.samples.size + s'.failures = n :=
      Sampler.size_add_failures (fun i hi => Rejection.ne_of_passes (hpassed i hi)) hsamples hfailures
    rw [collect, hl]
    exact conclude_accounts hlog hfailures hsize

end Importance

theorem Rejection.run_accounts (r : Rejection α) (samples : Argument α) (budget : Option (Argument α)) :
    (∃ name got, r.run samples budget = ⟨.error (.badCount name got), r, []⟩) ∨
    ∃ wanted limit : Nat, samples = .integer wanted ∧
      (budget = some (.integer limit) ∨ budget = none ∧ limit = 100 * wanted) ∧
      r.Accounts wanted limit (r.run samples budget) := by
  rcases r.run_refusal_cases samples budget with ⟨-, hr⟩ | ⟨-, b, -, -, hr⟩ | ⟨hs, hb, -⟩
  · exact .inl ⟨_, _, hr⟩
  · exact .inl ⟨_, _, hr⟩
  · obtain ⟨wanted, hw, rfl⟩ := hs.exists_natCast
    cases budget with
    | none =>
      have hrun := r.run_eq_collect hw (by omega : 1 ≤ 100 * wanted) (.inr ⟨rfl, rfl⟩)
      exact .inr ⟨wanted, 100 * wanted, rfl, .inr ⟨rfl, rfl⟩, hrun ▸ r.collect_accounts wanted _⟩
    | some b =>
      obtain ⟨limit, hl, rfl⟩ := (hb b rfl).exists_natCast
      have hrun := r.run_eq_collect hw hl (.inl rfl)
      exact .inr ⟨wanted, limit, rfl, .inl rfl, hrun ▸ r.collect_accounts wanted limit⟩

theorem Importance.run_accounts (s : Importance α) (samples : Argument α) :
    (∃ name got, s.run samples = ⟨.error (.badCount name got), s, []⟩) ∨
    ∃ wanted : Nat, samples = .integer wanted ∧ s.Accounts wanted (s.run samples) := by
  rcases s.run_refusal_cases samples with ⟨-, hs⟩ | ⟨hs, -⟩
  · exact .inl ⟨_, _, hs⟩
  · obtain ⟨wanted, hw, rfl⟩ := hs.exists_natCast
    exact .inr ⟨wanted, rfl, s.run_eq_collect hw ▸ s.collect_accounts wanted⟩

theorem line_skipped (f : Failure Float) :
    (Event.skipped f).line = "WARNING Skipping failed run: " ++ f.message := by
  have hprefix : "WARNING" ++ " " ++ "Skipping failed run: " = "WARNING Skipping failed run: " := by
    decide +kernel
  have hline (message : String) : "WARNING" ++ " " ++ ("Skipping failed run: " ++ message) =
      "WARNING Skipping failed run: " ++ message := by
    rw [← String.append_assoc, hprefix]
  exact hline f.message

/-- Whatever is requested of a sampler, its log tells of each run that was made, in their order. One that is skipped
is told of with the message of its failure. -/
theorem log_of_request (r : Rejection Float) (s : Importance Float) (samples : Argument Float)
    (budget : Option (Argument Float)) :
    ((∃ name got, r.run samples budget = ⟨.error (.badCount name got), r, []⟩) ∨
      ∃ wanted limit : Nat, samples = .integer wanted ∧
        (budget = some (.integer limit) ∨ budget = none ∧ limit = 100 * wanted) ∧
        r.Accounts wanted limit (r.run samples budget)) ∧
    ((∃ name got, s.run samples = ⟨.error (.badCount name got), s, []⟩) ∨
      ∃ wanted : Nat, samples = .integer wanted ∧ s.Accounts wanted (s.run samples)) ∧
    ∀ f : Failure Float, (Event.skipped f).line = "WARNING Skipping failed run: " ++ f.message := by
  exact ⟨r.run_accounts samples budget, s.run_accounts samples, line_skipped⟩

example :
    let r : Rejection Float := { interpreter := ⟨[.var "y"], .empty⟩, generator := .cycle 0 #[], policy := .skip }
    (r.run (.integer 1) (some (.integer 2))).log.map Event.line =
      ["INFO Starting rejection sampling to collect 1 samples...",
        "WARNING Skipping failed run: Undefined variable 'y'",
        "WARNING Skipping failed run: Undefined variable 'y'",
        "INFO Rejection sampling completed: attempts=2 accepted=0 acceptance rate=0.00%",
        "WARNING Attempt budget of 2 exhausted with 0/1 samples accepted"] := by
  decide +kernel

end Posterior
