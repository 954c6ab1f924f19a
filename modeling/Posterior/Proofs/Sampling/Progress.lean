import Posterior.Proofs.Sampling.Log

set_option autoImplicit false

namespace Posterior.Rejection

variable {α : Type}

theorem length_acceptedIn_of_sure {accepts : Criterion α} {o : Nat → Except (Halt α) (Result α)}
    (h : ∀ i, ∃ result, o i = .ok result ∧ accepts result = true) (k : Nat) :
    (acceptedIn accepts o k).length = k := by
  induction k with
  | zero => rfl
  | succ k ih =>
    obtain ⟨result, hok, haccepts⟩ := h k
    have htaken : taken accepts (o k) = some result := by rw [hok, taken, if_pos haccepts]
    rw [acceptedIn_succ, List.length_append, ih, htaken]
    rfl

variable [Arithmetic α]

/-- What the progress lines of a request show, one for each full interval of attempts. -/
structure ShowsProgress (start : Rejection α) (report : Report α (Rejection α) (RejectionSummary α)) : Prop where
  lines : ∃ runs, report.log.filter Event.isProgress =
      (List.range (runs / progressInterval)).map (fun j =>
        .attempted (progressInterval * (j + 1))
          (acceptedIn start.accepts start.outcomes (progressInterval * (j + 1) - 1)).length) ∧
    ∀ summary, report.outcome = .ok summary → summary.attempts = runs
  last : ∀ summary, report.outcome = .ok summary → 1 ≤ summary.attempts →
    summary.attempts % progressInterval = 0 → ∃ accepted,
      (report.log.filter Event.isProgress).getLast? = some (.attempted summary.attempts accepted) ∧
      summary.accepted = accepted + (taken start.accepts (start.outcomes (summary.attempts - 1))).toList.length

theorem progressAt_pred (start : Rejection α) {attempts : Nat} (h : 1 ≤ attempts) :
    start.progressAt (attempts - 1) =
      .attempted attempts (acceptedIn start.accepts start.outcomes (attempts - 1)).length := by
  rw [progressAt, Nat.sub_add_cancel h]

theorem filter_toldIn (start : Rejection α) (runs : Nat) :
    (toldIn start.progressAt start.outcomes runs).filter Event.isProgress =
      (List.range (runs / progressInterval)).map fun j =>
        .attempted (progressInterval * (j + 1))
          (acceptedIn start.accepts start.outcomes (progressInterval * (j + 1) - 1)).length := by
  rw [filter_isProgress_toldIn _ fun _ => rfl]
  refine List.map_congr_left fun j _ => progressAt_pred start ?_
  unfold progressInterval
  omega

theorem getLast?_toldIn (start : Rejection α) {runs : Nat} (hr : 1 ≤ runs) (h : runs % progressInterval = 0) :
    ((toldIn start.progressAt start.outcomes runs).filter Event.isProgress).getLast? =
      some (.attempted runs (acceptedIn start.accepts start.outcomes (runs - 1)).length) := by
  obtain ⟨k, rfl⟩ := Nat.exists_eq_add_of_le' hr
  rw [toldIn_succ, toldOf, if_pos h, ← List.append_assoc, List.filter_append,
    List.filter_cons_of_pos rfl, List.filter_nil, List.getLast?_concat]
  rfl

theorem Accounts.showsProgress {start : Rejection α} {wanted budget : Nat}
    {report : Report α (Rejection α) (RejectionSummary α)} (h : start.Accounts wanted budget report) :
    ShowsProgress start report := by
  cases ho : report.outcome with
  | error fault =>
    obtain ⟨runs, halt, -, -, hlog⟩ := h.aborted fault ho
    refine ⟨⟨runs, ?_, fun _ hs => ?_⟩, fun _ hs => ?_⟩
    · rw [hlog, List.filter_cons_of_neg Bool.false_ne_true, filter_toldIn]
    · rw [ho] at hs
      cases hs
    · rw [ho] at hs
      cases hs
  | ok summary =>
    obtain ⟨hlog, -, -, haccepted⟩ := h.returned summary ho
    have hlines : report.log.filter Event.isProgress =
        (toldIn start.progressAt start.outcomes summary.attempts).filter Event.isProgress := by
      rw [hlog]
      exact filter_told rfl (fun e he => (mem_closing he).2.2) _
    refine ⟨⟨summary.attempts, hlines.trans (filter_toldIn start _), fun _ hs => ?_⟩, fun _ hs hr hdue => ?_⟩
    · rw [ho] at hs
      cases hs
      rfl
    · rw [ho] at hs
      cases hs
      refine ⟨_, hlines ▸ getLast?_toldIn start hr hdue, ?_⟩
      obtain ⟨k, hk⟩ := Nat.exists_eq_add_of_le' hr
      rw [haccepted, hk, acceptedIn_succ, List.length_append]
      rfl

/-- The progress of any request is told with the attempts made, and with the samples accepted before the last of
them. So the line due with the last attempt of a sampling lacks the sample that this attempt brings. -/
theorem progress_of_request (r : Rejection α) (samples : Argument α) (budget : Option (Argument α)) :
    ShowsProgress r (r.run samples budget) := by
  rcases r.run_accounts samples budget with ⟨name, got, hr⟩ | ⟨wanted, limit, -, -, h⟩
  · rw [hr]
    exact ⟨⟨0, rfl, nofun⟩, nofun⟩
  · exact h.showsProgress

theorem returns_of_sure (r : Rejection α) {wanted : Nat} (hw : 1 ≤ wanted)
    (h : ∀ i, ∃ result, r.outcomes i = .ok result ∧ r.accepts result = true) :
    ∃ summary, (r.run (.integer wanted) (some (.integer wanted))).outcome = .ok summary ∧
      summary.attempts = wanted ∧ summary.accepted = wanted := by
  have hpasses (i : Nat) : Passes r.policy (r.outcomes i) := by
    obtain ⟨result, hok, -⟩ := h i
    rw [hok]
    trivial
  have hstop : stop r.accepts r.outcomes wanted wanted = wanted := stop_self r.accepts wanted
  obtain ⟨r', events, hl, ht⟩ := loop_done hw (tallies_restart r) (Nat.zero_add wanted) (Nat.zero_le _)
    (fun i _ => hpasses i) #[.rejectionStarted wanted]
  rw [hstop] at ht
  rw [run_eq_collect r hw hw (.inl rfl), collect, hl]
  exact ⟨_, rfl, ht.attempts, ht.accepted.trans (length_acceptedIn_of_sure h wanted)⟩

/-- A thousand attempts that all bring a sample. Of the last sample the line does not tell. -/
theorem progress_of_sure_attempts :
    let r : Rejection Float :=
      { interpreter := ⟨[.assignment "x" (.number 1)], .empty⟩, generator := .cycle 0.5 #[], policy := .raise }
    let report := r.run (.integer 1000) (some (.integer 1000))
    ∃ summary, report.outcome = .ok summary ∧ summary.attempts = 1000 ∧ summary.accepted = 1000 ∧
      (acceptedIn r.accepts r.outcomes 1000).length = 1000 ∧
      report.log.filter Event.isProgress = [.attempted 1000 999] := by
  intro r report
  have hsure : ∀ i, ∃ result, r.outcomes i = .ok result ∧ r.accepts result = true := fun i => ⟨_, rfl, rfl⟩
  obtain ⟨summary, ho, hattempts, haccepted⟩ := r.returns_of_sure (by decide : 1 ≤ 1000) hsure
  have hrun : report = r.collect 1000 1000 := r.run_eq_collect (by decide) (by decide) (.inl rfl)
  obtain ⟨runs, hlines, hruns⟩ := (hrun ▸ r.collect_accounts 1000 1000).showsProgress.lines
  obtain rfl : 1000 = runs := hattempts.symm.trans (hruns summary ho)
  refine ⟨summary, ho, hattempts, haccepted, length_acceptedIn_of_sure hsure 1000, hlines.trans ?_⟩
  rw [show 1000 / progressInterval = 1 from rfl, List.range_one, List.map_singleton,
    length_acceptedIn_of_sure hsure]
  rfl

end Posterior.Rejection
