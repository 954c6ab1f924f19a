import Posterior.Proofs.Sampling.Balance
import Posterior.Proofs.Sampling.Rejection

/-!
What importance sampling returns, told from the outcomes of the runs it makes: as many runs as are wanted, and
of these the results that come back. It makes the runs of a rejection sampler without a condition whose budget
is the number wanted.
-/

set_option autoImplicit false

namespace Posterior

section Outcomes

variable {α : Type} (o : Nat → Except (Halt α) (Result α))

def returnedIn (k : Nat) : List (Result α) := (List.range k).filterMap fun i => (o i).toOption

/-- Without a condition every result is accepted. -/
theorem returnedIn_eq_acceptedIn (k : Nat) : returnedIn o k = Rejection.acceptedIn (fun _ => true) o k := by
  have htaken : (fun i => (o i).toOption) = fun i => Rejection.taken (fun _ => true) (o i) := by
    funext i
    cases o i <;> rfl
  rw [returnedIn, htaken]
  rfl

theorem returnedIn_succ (k : Nat) : returnedIn o (k + 1) = returnedIn o k ++ (o k).toOption.toList := by
  unfold returnedIn
  rw [List.range_succ, List.filterMap_append]
  cases h : o k <;> simp [h, Except.toOption]

variable {o}

theorem length_returnedIn_add_failuresIn {k : Nat}
    (h : ∀ i < k, o i ≠ .error .overflow ∧ o i ≠ .error .tooDeep) :
    (returnedIn o k).length + failuresIn o k = k := by
  induction k with
  | zero => rfl
  | succ k ih =>
    have hk := ih fun i hi => h i (Nat.lt_succ_of_lt hi)
    obtain ⟨hoverflow, hdeep⟩ := h k (Nat.lt_succ_self k)
    rw [returnedIn_succ, failuresIn_succ, List.length_append]
    rcases ho : o k with (f | _ | _) | result
    · simp only [Except.toOption, failure?, Option.toList_none, List.length_nil, Option.isSome_some, if_true]
      omega
    · exact absurd ho hoverflow
    · exact absurd ho hdeep
    · simp only [Except.toOption, failure?, Option.toList_some, List.length_singleton, Option.isSome_none,
        Bool.false_eq_true, if_false]
      omega

theorem Sampler.size_add_failures {s : Sampler α} {k : Nat}
    (h : ∀ i < k, o i ≠ .error .overflow ∧ o i ≠ .error .tooDeep) (hs : s.samples.toList = returnedIn o k)
    (hf : s.failures = failuresIn o k) : s.samples.size + s.failures = k := by
  have hlen := length_returnedIn_add_failuresIn h
  rwa [← hs, ← hf, Array.length_toList] at hlen

theorem failure?_isSome_iff {outcome : Except (Halt α) (Result α)}
    (h : outcome ≠ .error .overflow ∧ outcome ≠ .error .tooDeep) :
    (failure? outcome).isSome = true ↔ ∀ result, outcome ≠ .ok result := by
  rcases outcome with (f | _ | _) | result
  · exact ⟨fun _ => nofun, fun _ => rfl⟩
  · exact absurd rfl h.1
  · exact absurd rfl h.2
  · exact ⟨nofun, fun hn => absurd rfl (hn result)⟩

theorem mem_returnedIn {k : Nat} {result : Result α} :
    result ∈ returnedIn o k ↔ ∃ i < k, o i = .ok result := by
  unfold returnedIn
  rw [List.mem_filterMap]
  constructor
  · rintro ⟨i, hi, ho⟩
    refine ⟨i, List.mem_range.mp hi, ?_⟩
    cases h : o i with
    | error halt =>
      rw [h] at ho
      cases ho
    | ok other =>
      rw [h] at ho
      exact congrArg _ (Option.some.inj ho)
  · rintro ⟨i, hi, ho⟩
    exact ⟨i, List.mem_range.mpr hi, by rw [ho]; rfl⟩

theorem returnedIn_ne_nil_iff {k : Nat} : returnedIn o k ≠ [] ↔ ∃ i < k, ∃ result, o i = .ok result := by
  constructor
  · intro h
    obtain ⟨result, hr⟩ := List.exists_mem_of_ne_nil _ h
    obtain ⟨i, hi, ho⟩ := mem_returnedIn.mp hr
    exact ⟨i, hi, result, ho⟩
  · rintro ⟨i, hi, result, ho⟩
    exact List.ne_nil_of_mem (mem_returnedIn.mpr ⟨i, hi, ho⟩)

theorem returnedIn_eq_nil_iff {k : Nat} (h : ∀ i < k, o i ≠ .error .overflow ∧ o i ≠ .error .tooDeep) :
    returnedIn o k = [] ↔ ∀ i < k, (failure? (o i)).isSome = true := by
  rw [List.eq_nil_iff_forall_not_mem]
  constructor
  · intro hn i hi
    rw [failure?_isSome_iff (h i hi)]
    exact fun result ho => hn result (mem_returnedIn.mpr ⟨i, hi, ho⟩)
  · intro hall result hr
    obtain ⟨i, hi, ho⟩ := mem_returnedIn.mp hr
    exact (failure?_isSome_iff (h i hi)).mp (hall i hi) result ho

theorem Rejection.stop_self (accepts : Criterion α) (wanted : Nat) :
    stop accepts o wanted wanted = wanted := by
  have hle := stop_le accepts o wanted wanted
  have hlen := acceptedIn_add_failuresIn_le accepts o (stop accepts o wanted wanted)
  rcases stop_cases accepts o wanted wanted with h | h
  · omega
  · exact h

structure Sampler.Alike (s t : Sampler α) : Prop where
  samples : t.samples = s.samples
  logProbabilities : t.logProbabilities = s.logProbabilities
  failures : t.failures = s.failures
  generator : t.generator = s.generator

theorem Sampler.alike_of_eq {s t : Sampler α} (h : s = t) : Alike s t := by
  subst h
  exact ⟨rfl, rfl, rfl, rfl⟩

end Outcomes

variable {α : Type} [Arithmetic α]

namespace Rejection

theorem loop_of_le {wanted : Nat} (budget : Nat) {r : Rejection α} (h : wanted ≤ r.accepted)
    (events : Array (Event α)) : loop wanted budget r events = (.ok (), r, events) := by
  cases budget with
  | zero => rfl
  | succ budget => rw [loop, if_pos h]

theorem loop_accepted {r : Rejection α} (h : r.accepted = r.samples.size) (wanted budget : Nat)
    (events : Array (Event α)) :
    (loop wanted budget r events).2.1.accepted = (loop wanted budget r events).2.1.samples.size := by
  have hattempt {s sampler : Sampler α} {outcome : Except (Halt α) (Option (Result α))} {events : List (Event α)}
      (ha : s.attempt = ⟨outcome, sampler, events⟩) : sampler.samples = s.samples := by
    have hs := s.attempt_stored.1
    rwa [ha] at hs
  refine loop_induction (motive := fun _ r => r.accepted = r.samples.size) ?_ ?_ h rfl
  · intro r result sampler events ha hr
    rw [← hattempt ha] at hr
    unfold settle
    cases result with
    | none => exact hr
    | some result =>
      dsimp only
      split
      · exact (congrArg (· + 1) hr).trans (Array.size_push result).symm
      · exact hr
  · intro r halt sampler events ha hr
    rwa [← hattempt ha] at hr

theorem loop_logProbabilities {r : Rejection α} (h : r.Listed) (wanted budget : Nat)
    (events : Array (Event α)) :
    r.logProbabilities.toList <+: (loop wanted budget r events).2.1.logProbabilities.toList := by
  have hsamples : r.samples.toList <+: (loop wanted budget r events).2.1.samples.toList :=
    loop_of_persists (Sampler.persists_stored _) (List.prefix_refl _) wanted budget events
  have hbehind : Sampler.Listed _ := loop_of_persists Sampler.persists_listed h wanted budget events
  unfold Sampler.Listed at h hbehind
  rw [h, hbehind]
  exact hsamples.map _

theorem loop_add (wanted first rest : Nat) (r : Rejection α) (events : Array (Event α)) :
    loop wanted (first + rest) r events =
      match loop wanted first r events with
      | (.ok (), r, events) => loop wanted rest r events
      | (.error halt, r, events) => (.error halt, r, events) := by
  induction first generalizing r events with
  | zero => rw [Nat.zero_add, loop]
  | succ first ih =>
    rw [Nat.add_right_comm, loop, loop]
    split
    · next h => exact (loop_of_le rest h events).symm
    · split
      · rfl
      · exact ih ..

end Rejection

/-- Every weight is zero: the greatest log-probability is that of zero. -/
def Weights.vanish (logProbs : List α) : Bool :=
  (Arithmetic.maximum logProbs).any fun top => Arithmetic.eq top Arithmetic.negInf

theorem Weights.normalize_eq_none_iff {logProbs : List α} (h : logProbs ≠ []) :
    normalize logProbs = none ↔ vanish logProbs = true := by
  cases logProbs with
  | nil => exact absurd rfl h
  | cons x xs =>
    unfold normalize vanish
    simp only [Arithmetic.maximum, Option.any_some]
    split
    · next he => exact ⟨fun _ => he, fun _ => rfl⟩
    · next he => exact ⟨nofun, fun ht => absurd ht he⟩

namespace Importance

variable {s : Importance α}

theorem settle_lockstep {r : Rejection α} (hs : r.toSampler = s.toSampler) (hc : r.condition = none)
    (result : Option (Result α)) :
    (r.settle result).toSampler = (s.settle result).toSampler ∧ (r.settle result).condition = none ∧
      (r.settle result).accepted ≤ r.accepted + 1 := by
  cases result with
  | none => exact ⟨hs, hc, Nat.le_succ _⟩
  | some result =>
    have haccepts : r.accepts result = true := by
      unfold Rejection.accepts
      rw [hc]
    rw [Rejection.settle_of_accepts haccepts]
    exact ⟨congrArg (·.keep result) hs, hc, Nat.le_refl _⟩

/-- Attempt by attempt, the loop stores what that of a rejection sampler without a condition stores, as long as no
more attempts are left than samples are wanted. -/
theorem loop_lockstep {wanted left : Nat} {r : Rejection α} (hs : r.toSampler = s.toSampler)
    (hc : r.condition = none) (hl : r.accepted + left ≤ wanted) (events events' : Array (Event α)) :
    (loop wanted left s events).1 = (Rejection.loop wanted left r events').1 ∧
      (loop wanted left s events).2.1.toSampler = (Rejection.loop wanted left r events').2.1.toSampler := by
  induction left generalizing r s events events' with
  | zero => exact ⟨rfl, hs.symm⟩
  | succ left ih =>
    have hn : ¬ wanted ≤ r.accepted := by omega
    rw [loop, Rejection.loop, if_neg hn, hs]
    rcases s.toSampler.attempt with ⟨halt | result, sampler, more⟩
    · exact ⟨rfl, rfl⟩
    · have hsampler : ({ r with toSampler := sampler } : Rejection α).toSampler =
          ({ s with toSampler := sampler } : Importance α).toSampler := rfl
      obtain ⟨hs', hc', (hle : _ ≤ r.accepted + 1)⟩ := settle_lockstep hsampler hc result
      exact ih hs' hc' (by omega) _ _

def outcomes (s : Importance α) : Nat → Except (Halt α) (Result α) :=
  outcomeAt s.interpreter.statements s.generator

def peer (s : Importance α) : Rejection α :=
  { interpreter := s.interpreter, generator := s.generator, policy := s.policy }

/-- What `runs` runs leave that did not end the sampling. -/
structure Gathers (start s : Importance α) (runs : Nat) : Prop where
  samples : s.samples.toList = returnedIn start.outcomes runs
  logProbabilities : s.logProbabilities.toList = (returnedIn start.outcomes runs).map (·.totalLogProb)
  failures : s.failures = failuresIn start.outcomes runs

/-- What a request for `wanted` runs comes to if none of them ends the sampling. -/
structure Concludes (start : Importance α) (wanted : Nat)
    (report : Report α (Importance α) (ImportanceSummary α)) : Prop where
  gathers : Gathers start report.sampler wanted
  generator : report.sampler.generator = generatorAt start.interpreter.statements start.generator wanted
  size_add_failures : report.sampler.samples.size + report.sampler.failures = wanted
  allFailed : report.outcome = .error (.allFailed wanted) ↔
    ∀ i < wanted, (failure? (start.outcomes i)).isSome = true
  zeroWeight : report.outcome = .error .zeroWeight ↔
    (∃ i < wanted, ∃ result, start.outcomes i = .ok result) ∧
      Weights.vanish report.sampler.logProbabilities.toList = true
  returns : report.outcome ≠ .error (.allFailed wanted) → report.outcome ≠ .error .zeroWeight →
    ∃ summary, report.outcome = .ok summary ∧ summary.phase = .completed ∧
      report.sampler.phase = .completed ∧
      summary.effectiveSize = Weights.effectiveSize report.sampler.normalized.toList ∧
      summary.ratio = summary.effectiveSize / Arithmetic.ofNat report.sampler.samples.size ∧
      summary.failures = report.sampler.failures

theorem Gathers.concludes {start : Importance α} {wanted : Nat}
    (ho : ∀ i < wanted, start.outcomes i ≠ .error .overflow ∧ start.outcomes i ≠ .error .tooDeep)
    (h : Gathers start s wanted)
    (hg : s.generator = generatorAt start.interpreter.statements start.generator wanted)
    (events : List (Event α)) : Concludes start wanted (s.conclude wanted events) := by
  have hsize : s.samples.size + s.failures = wanted := Sampler.size_add_failures ho h.samples h.failures
  have hempty : s.samples.isEmpty = true ↔ returnedIn start.outcomes wanted = [] := by
    rw [← h.samples, Array.toList_eq_nil_iff, Array.isEmpty_iff]
  unfold conclude
  cases hb : s.samples.isEmpty with
  | true =>
    have hnil := hempty.mp hb
    rw [if_pos rfl]
    exact {
      gathers := ⟨h.samples, h.logProbabilities, h.failures⟩
      generator := hg
      size_add_failures := hsize
      allFailed := ⟨fun _ => (returnedIn_eq_nil_iff ho).mp hnil, fun _ => rfl⟩
      zeroWeight := ⟨nofun, fun hz => absurd hnil (returnedIn_ne_nil_iff.mpr hz.1)⟩
      returns := fun hn => absurd rfl hn }
  | false =>
    have hne : returnedIn start.outcomes wanted ≠ [] := by
      rw [ne_eq, ← hempty, hb]
      exact Bool.false_ne_true
    have hsome := returnedIn_ne_nil_iff.mp hne
    have hnot : ¬ ∀ i < wanted, (failure? (start.outcomes i)).isSome = true := by
      rwa [← returnedIn_eq_nil_iff ho]
    rw [if_neg Bool.false_ne_true]
    have hlogs : s.logProbabilities.toList ≠ [] := by
      rwa [h.logProbabilities, ne_eq, List.map_eq_nil_iff]
    have hvanish := Weights.normalize_eq_none_iff hlogs
    cases hn : Weights.normalize s.logProbabilities.toList with
    | none =>
      exact {
        gathers := h
        generator := hg
        size_add_failures := hsize
        allFailed := ⟨nofun, fun hall => absurd hall hnot⟩
        zeroWeight := ⟨fun _ => ⟨hsome, hvanish.mp hn⟩, fun _ => rfl⟩
        returns := fun _ hz => absurd rfl hz }
    | some weights =>
      have hv : ¬ Weights.vanish s.logProbabilities.toList = true := by
        rw [← hvanish, hn]
        exact nofun
      exact {
        gathers := ⟨h.samples, h.logProbabilities, h.failures⟩
        generator := hg
        size_add_failures := hsize
        allFailed := ⟨nofun, fun hall => absurd hall hnot⟩
        zeroWeight := ⟨nofun, fun hz => absurd hz.2 hv⟩
        returns := fun _ _ => ⟨_, rfl, rfl, rfl, rfl, rfl, rfl⟩ }

theorem exists_of_peer {s : Importance α} {wanted : Nat} {outcome : Except (Halt α) Unit} {r : Rejection α}
    {events events' : Array (Event α)}
    (h : Rejection.loop wanted wanted s.peer.restart events' = (outcome, r, events)) :
    ∃ s' more, loop wanted wanted s.restart #[.importanceStarted wanted] = (outcome, s', more) ∧
      s'.toSampler = r.toSampler ∧ s'.Listed := by
  have hstart : s.restart.Listed := rfl
  have hl : Sampler.Listed _ :=
    loop_of_persists Sampler.persists_listed hstart wanted wanted #[.importanceStarted wanted]
  have hpeer : s.peer.restart.toSampler = s.restart.toSampler := rfl
  obtain ⟨ho, hs⟩ := loop_lockstep hpeer rfl (Nat.le_of_eq (Nat.zero_add wanted))
    #[.importanceStarted wanted] events'
  rw [h] at ho hs
  exact ⟨_, _, Prod.ext ho rfl, hs, hl⟩

theorem gathers_of_samples {start s : Importance α} {runs : Nat} (hs : s.Listed)
    (h : s.samples.toList = Rejection.acceptedIn start.peer.accepts start.outcomes runs)
    (hf : s.failures = failuresIn start.outcomes runs) : Gathers start s runs := by
  have haccepts : start.peer.accepts = fun _ => true := rfl
  rw [haccepts, ← returnedIn_eq_acceptedIn] at h
  exact ⟨h, by rw [← h]; exact hs, hf⟩

theorem run_eq_collect (s : Importance α) {wanted : Nat} (hw : 1 ≤ wanted) :
    s.run (.integer wanted) = s.collect wanted := by
  unfold run
  rw [Argument.count?_natCast hw]

theorem run_concludes (s : Importance α) {wanted : Nat} (hw : 1 ≤ wanted)
    (ho : ∀ i < wanted, s.outcomes i ≠ .error .overflow ∧ s.outcomes i ≠ .error .tooDeep)
    (h : s.policy = .skip ∨ ∀ i < wanted, failure? (s.outcomes i) = none) :
    Concludes s wanted (s.run (.integer wanted)) := by
  have hp : ∀ i < wanted, Rejection.Passes s.policy (s.outcomes i) :=
    fun i hi => Rejection.passes_of (ho i hi) (h.imp_right fun hn => hn i hi)
  have hstop : Rejection.stop s.peer.accepts s.peer.outcomes wanted wanted = wanted :=
    Rejection.stop_self s.peer.accepts wanted
  obtain ⟨r, events, hr, ht⟩ :=
    Rejection.loop_done hw (Rejection.tallies_restart s.peer) (Nat.zero_add wanted) (Nat.zero_le _)
      (fun i hi => hp i (hstop ▸ hi)) #[]
  obtain ⟨s', more, hl, hs, hlisted⟩ := exists_of_peer hr
  rw [hstop] at ht
  have hg : Gathers s s' wanted := by
    refine gathers_of_samples hlisted ?_ ?_
    · exact (congrArg (·.samples.toList) hs).trans ht.samples
    · exact (congrArg (·.failures) hs).trans ht.failures
  rw [run_eq_collect s hw, collect, hl]
  exact hg.concludes ho ((congrArg (·.generator) hs).trans ht.generator) _

theorem run_raises (s : Importance α) {wanted i : Nat} {f : Failure α} (hw : 1 ≤ wanted)
    (hraise : s.policy = .raise) (hi : i < wanted) (ho : s.peer.outcomes i = .error (.failure f))
    (hp : ∀ m < i, Rejection.Passes s.policy (s.outcomes m)) :
    let report := s.run (.integer wanted)
    report.outcome = .error (.halted (.failure f)) ∧ report.sampler.phase = .idle ∧
      Gathers s report.sampler i ∧
      report.sampler.generator = generatorAt s.interpreter.statements s.generator (i + 1) := by
  have hn : ¬ Rejection.Passes s.policy (.error (.failure f) : Except (Halt α) (Result α)) := by
    rw [hraise]
    exact nofun
  have hstop : Rejection.stop s.peer.accepts s.peer.outcomes wanted wanted = wanted :=
    Rejection.stop_self s.peer.accepts wanted
  obtain ⟨r, events, hr, hphase, hgenerator, hsamples, -, hfailures⟩ :=
    Rejection.loop_halted hw (hstop.symm ▸ hi) ho hn hp (Rejection.tallies_restart s.peer)
      (Nat.zero_add wanted) (Nat.zero_le i) #[]
  obtain ⟨s', more, hl, hs, hlisted⟩ := exists_of_peer hr
  dsimp only
  rw [run_eq_collect s hw, collect, hl]
  refine ⟨rfl, (congrArg (·.phase) hs).trans (hphase f rfl), ?_, (congrArg (·.generator) hs).trans hgenerator⟩
  refine gathers_of_samples hlisted ?_ ?_
  · exact (congrArg (·.samples.toList) hs).trans hsamples
  · exact (congrArg (·.failures) hs).trans hfailures

theorem conclude_ne_halted (s : Importance α) (wanted : Nat) (events : List (Event α)) (halt : Halt α) :
    (s.conclude wanted events).outcome ≠ .error (.halted halt) := by
  unfold conclude
  split
  · exact nofun
  · split <;> exact nofun

/-- How a request stands to that of a rejection sampler without a condition for as many samples. The latter has
stored at least the same. It stores more only if its budget is greater and some runs were skipped. -/
structure Parallels (wanted budget : Nat) (report : Report α (Importance α) (ImportanceSummary α))
    (other : Report α (Rejection α) (RejectionSummary α)) : Prop where
  samples : report.sampler.samples.toList <+: other.sampler.samples.toList
  logProbabilities : report.sampler.logProbabilities.toList <+: other.sampler.logProbabilities.toList
  halted : ∀ halt, report.outcome = .error (.halted halt) →
    other.outcome = .error (.halted halt) ∧ Sampler.Alike report.sampler.toSampler other.sampler.toSampler
  returns : (∀ halt, report.outcome ≠ .error (.halted halt)) →
    budget = wanted ∨ report.sampler.samples.size = wanted →
      (∃ summary, other.outcome = .ok summary) ∧
        Sampler.Alike report.sampler.toSampler other.sampler.toSampler

theorem parallels_of_error {wanted rest : Nat} {halt : Halt α} {r : Rejection α} {events : Array (Event α)}
    (hr : Rejection.loop wanted wanted s.peer.restart #[.rejectionStarted wanted] = (.error halt, r, events)) :
    Parallels wanted (wanted + rest) (s.collect wanted) (s.peer.collect wanted (wanted + rest)) := by
  have hadd := Rejection.loop_add wanted wanted rest s.peer.restart #[.rejectionStarted wanted]
  obtain ⟨s', more, hs, hsampler, -⟩ := exists_of_peer hr
  have halike := Sampler.alike_of_eq hsampler
  rw [hr] at hadd
  dsimp only at hadd
  rw [collect, Rejection.collect, hs, hadd]
  exact {
    samples := halike.samples ▸ List.prefix_refl _
    logProbabilities := halike.logProbabilities ▸ List.prefix_refl _
    halted := by
      intro _ h
      cases h
      exact ⟨rfl, halike⟩
    returns := fun hn => absurd rfl (hn halt) }

/-- A loop that came to its end goes on with what is left of a greater budget, unless enough is stored. -/
theorem parallels_of_ok {wanted rest : Nat} {r : Rejection α} {events : Array (Event α)}
    (hr : Rejection.loop wanted wanted s.peer.restart #[.rejectionStarted wanted] = (.ok (), r, events)) :
    Parallels wanted (wanted + rest) (s.collect wanted) (s.peer.collect wanted (wanted + rest)) := by
  have hadd := Rejection.loop_add wanted wanted rest s.peer.restart #[.rejectionStarted wanted]
  obtain ⟨s', more, hs, hsampler, hlisted⟩ := exists_of_peer hr
  have halike := Sampler.alike_of_eq hsampler
  have hreturned (halt : Halt α) : (s.collect wanted).outcome ≠ .error (.halted halt) := by
    rw [collect, hs]
    exact s'.conclude_ne_halted wanted more.toList halt
  have haccepted : r.accepted = r.samples.size := by
    have hcount : s.peer.restart.accepted = s.peer.restart.samples.size := rfl
    have hloop := Rejection.loop_accepted hcount wanted wanted #[.rejectionStarted wanted]
    rwa [hr] at hloop
  have hsamples : r.samples.toList <+: (Rejection.loop wanted rest r events).2.1.samples.toList :=
    Rejection.loop_of_persists (Sampler.persists_stored _) (List.prefix_refl _) wanted rest events
  have hlogs := Rejection.loop_logProbabilities (r := r) (hsampler ▸ hlisted) wanted rest events
  obtain ⟨phase, hother⟩ := s.peer.exists_of_collect wanted (wanted + rest)
  obtain ⟨normalized, effectiveSize, phase', hreport⟩ := s.exists_of_collect wanted
  rw [hr] at hadd
  dsimp only at hadd
  rw [hadd] at hother
  rw [hs] at hreport
  refine ⟨?_, ?_, fun halt h => absurd h (hreturned halt), fun _ h => ?_⟩
  · rwa [hother, hreport, ← halike.samples]
  · rwa [hother, hreport, ← halike.logProbabilities]
  · have hdone : Rejection.loop wanted rest r events = (.ok (), r, events) := by
      rcases h with h | h
      · obtain rfl : rest = 0 := by omega
        rfl
      · refine Rejection.loop_of_le rest ?_ events
        rw [haccepted, halike.samples]
        rw [hreport] at h
        exact Nat.le_of_eq h.symm
    constructor
    · rw [Rejection.collect, hadd, hdone]
      exact ⟨_, rfl⟩
    · rw [hother, hreport, hdone]
      exact ⟨halike.samples, halike.logProbabilities, halike.failures, halike.generator⟩

theorem run_parallels (s : Importance α) {wanted budget : Nat} {limit : Option (Argument α)} (hw : 1 ≤ wanted)
    (hb : wanted ≤ budget) (hl : limit = some (.integer budget) ∨ limit = none ∧ budget = 100 * wanted) :
    Parallels wanted budget (s.run (.integer wanted)) (s.peer.run (.integer wanted) limit) := by
  rw [run_eq_collect s hw, Rejection.run_eq_collect s.peer hw (Nat.le_trans hw hb) hl]
  obtain ⟨rest, rfl⟩ := Nat.exists_eq_add_of_le hb
  rcases hr : Rejection.loop wanted wanted s.peer.restart #[.rejectionStarted wanted] with
    ⟨halt | ⟨⟩, r, events⟩
  · exact parallels_of_error hr
  · exact parallels_of_ok hr

/-- What a request comes to, by the outcomes of the runs wanted: they are all made and brought to a summary or to
one of the two faults of their weights, unless the policy is to raise and one of them fails. Then the first
failure is raised. Rejection without a condition makes the same runs first, and stores the same. -/
theorem report_of_outcomes (s : Importance α) {wanted : Nat} (hw : 1 ≤ wanted)
    (ho : ∀ i < wanted, s.outcomes i ≠ .error .overflow ∧ s.outcomes i ≠ .error .tooDeep) :
    let report := s.run (.integer wanted)
    ((s.policy = .skip ∨ ∀ i < wanted, failure? (s.outcomes i) = none) → Concludes s wanted report) ∧
    (s.policy = .raise → ∀ i < wanted, ∀ f, failure? (s.outcomes i) = some f →
      (∀ m < i, failure? (s.outcomes m) = none) →
        report.outcome = .error (.halted (.failure f)) ∧ report.sampler.phase = .idle ∧
        Gathers s report.sampler i ∧
        report.sampler.generator = generatorAt s.interpreter.statements s.generator (i + 1)) ∧
    ∀ (budget : Nat) (limit : Option (Argument α)), wanted ≤ budget →
      limit = some (.integer budget) ∨ limit = none ∧ budget = 100 * wanted →
        Parallels wanted budget report (s.peer.run (.integer wanted) limit) := by
  refine ⟨run_concludes s hw ho, ?_, fun budget limit hb hl => run_parallels s hw hb hl⟩
  intro hraise i hi f hf hbefore
  have hoi : s.outcomes i = .error (.failure f) := by
    rcases hoi : s.outcomes i with (f | _ | _) | result <;> rw [hoi] at hf <;> cases hf
    rfl
  exact run_raises s hw hraise hi hoi fun m hm =>
    Rejection.passes_of (ho m (Nat.lt_trans hm hi)) (.inr (hbefore m hm))

theorem concludes_of_skipped_run :
    ∃ s : Importance Float,
      s.interpreter.statements =
        [.assignment "s" (.call "sample" [.call "bernoulli" [.number 0.5]]),
          .assignment "x" (.call "sample" [.call "uniform" [.number 0, .var "s"]])] ∧
      s.policy = .skip ∧ (failure? (s.outcomes 1)).isSome = true ∧ Concludes s 2 (s.run (.integer 2)) := by
  let s : Importance Float :=
    { interpreter :=
        ⟨[.assignment "s" (.call "sample" [.call "bernoulli" [.number 0.5]]),
          .assignment "x" (.call "sample" [.call "uniform" [.number 0, .var "s"]])], .empty⟩
      generator := .cycle 0.25 #[0.5, 0.75]
      policy := .skip
      effectiveSize := Arithmetic.zero }
  have hreturned : (s.outcomes 0).toOption.isSome = true := by decide +kernel
  have hfailed : (failure? (s.outcomes 1)).isSome = true := by decide +kernel
  have ho : ∀ i < 2, s.outcomes i ≠ .error .overflow ∧ s.outcomes i ≠ .error .tooDeep := by
    intro i hi
    rcases Nat.le_one_iff_eq_zero_or_eq_one.mp (Nat.le_of_lt_succ hi) with rfl | rfl
    · constructor <;> intro h <;> rw [h] at hreturned <;> cases hreturned
    · constructor <;> intro h <;> rw [h] at hfailed <;> cases hfailed
  have hreport := @report_of_outcomes Float _ s 2 (by decide) ho
  exact ⟨s, rfl, rfl, hfailed, hreport.1 (.inl rfl)⟩

end Importance

end Posterior
