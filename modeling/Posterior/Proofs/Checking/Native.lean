import Posterior.Proofs.Checking.Halts
import Posterior.Sampler.Algorithm

set_option autoImplicit false

namespace Posterior

open Node

section

variable {α σ β : Type}

def Halt.Native : Halt α → Prop
  | .failure f => f.Native
  | .overflow | .tooDeep => True

def Event.Native : Event α → Prop
  | .skipped f => f.Native
  | .ran .. | .rejectionStarted _ | .attempted .. | .rejectionCompleted .. | .budgetExhausted .. |
    .importanceStarted _ | .generated .. | .importanceCompleted .. => True

structure Report.Native (report : Report α σ β) : Prop where
  outcome : ∀ halt, report.outcome = .error (.halted halt) → halt.Native
  events : ∀ e ∈ report.events, e.Native

theorem Halt.native_failure (f : Failure α) (h : f.Native) : (Halt.failure f).Native := h

theorem native_append {events : Array (Event α)} {more : List (Event α)}
    (h : ∀ e ∈ events.toList, e.Native) (hm : ∀ e ∈ more, e.Native) :
    ∀ e ∈ (events ++ more).toList, e.Native := by
  intro e he
  rw [Array.toList_appendList, List.mem_append] at he
  exact he.elim (h e) (hm e)

end

variable {α : Type} [Arithmetic α] {valid : String → Prop}

section Evaluation

theorem stoppedBy_operator {allowed : Halt α → Prop} {op : String} (ho : op ∈ operators) (x y : α) :
    StoppedBy allowed (operate op x y) := by
  simp only [operators, List.mem_cons, List.not_mem_nil, or_false] at ho
  rcases ho with rfl | rfl | rfl | rfl <;> exact stoppedBy_pure _

/-- Expressions hold only what evaluation knows, however many levels it goes down. -/
theorem native_expression {n : Node α} (hn : n.IsExpression valid) (levels : Nat) :
    StoppedBy Halt.Native (evaluate levels n) := by
  induction hn generalizing levels with
  | number x =>
    cases levels with
    | zero => exact stoppedBy_throw trivial
    | succ levels => exact stoppedBy_pure _
  | @var name _ =>
    cases levels with
    | zero => exact stoppedBy_throw trivial
    | succ levels => exact (stoppedBy_lookup Halt.native_failure name).bind fun x => stoppedBy_pure _
  | @binary op left right ho _ _ ihl ihr =>
    cases levels with
    | zero => exact stoppedBy_throw trivial
    | succ levels =>
      rw [evaluate]
      refine (ihl levels).bind fun v => (stoppedBy_number Halt.native_failure _ v).bind fun x => ?_
      refine (ihr levels).bind fun w => (stoppedBy_number Halt.native_failure _ w).bind fun y => ?_
      exact (stoppedBy_operator ho x y).bind fun z => stoppedBy_pure _
  | call _ _ ih =>
    cases levels with
    | zero => exact stoppedBy_throw trivial
    | succ levels =>
      exact stoppedBy_call Halt.native_failure (fun _ _ _ _ _ _ _ _ => trivial) fun a ha => ih a ha levels

theorem native_statement {n : Node α} (hn : n.IsStatement valid) (levels : Nat) :
    StoppedBy Halt.Native (evaluate levels n) := by
  cases hn with
  | @assignment name expr _ he =>
    cases levels with
    | zero => exact stoppedBy_throw trivial
    | succ levels =>
      rw [evaluate]
      refine (native_expression he levels).bind fun v => ?_
      exact (stoppedBy_number Halt.native_failure _ v).bind fun x m => trivial
  | call he => exact native_expression he levels

theorem native_of_run {i : Interpreter α} (hn : ∀ n ∈ i.statements, n.IsStatement valid)
    {g : Generator α} {halt : Halt α} (h : (i.run g).1 = .error halt) : halt.Native :=
  halt_of_run (fun n hm => native_statement (hn n hm) maxDepth) h

end Evaluation

section Sampling

theorem Sampler.native_of_attempt {s sampler : Sampler α} {events : List (Event α)}
    {outcome : Except (Halt α) (Option (Result α))}
    (hn : ∀ n ∈ s.interpreter.statements, n.IsStatement valid)
    (h : s.attempt = ⟨outcome, sampler, events⟩) :
    (∀ halt, outcome = .error halt → halt.Native) ∧ (∀ e ∈ events, e.Native) ∧
      ∀ n ∈ sampler.interpreter.statements, n.IsStatement valid := by
  have hrun : ∀ halt, (s.interpreter.reset.run s.generator).1 = .error halt → halt.Native :=
    fun halt => native_of_run (i := s.interpreter.reset) hn
  have hkeeps : (s.interpreter.reset.run s.generator).2.1.statements = s.interpreter.statements := by
    unfold Interpreter.run Interpreter.perform
    split <;> rfl
  unfold attempt at h
  split at h
  · next hr =>
    rw [hr] at hkeeps
    cases h
    exact ⟨nofun, List.forall_mem_singleton.mpr trivial, hkeeps ▸ hn⟩
  · next f _ _ hr =>
    rw [hr] at hkeeps
    have hf : (Halt.failure f).Native := hrun _ (congrArg Prod.fst hr)
    split at h
    · cases h
      exact ⟨fun _ he => Except.error.inj he ▸ hf, List.forall_mem_nil _, hkeeps ▸ hn⟩
    · cases h
      exact ⟨nofun, List.forall_mem_singleton.mpr hf, hkeeps ▸ hn⟩
  · next halt _ _ _ hr =>
    rw [hr] at hkeeps
    cases h
    exact ⟨fun _ he => Except.error.inj he ▸ hrun _ (congrArg Prod.fst hr), List.forall_mem_nil _,
      hkeeps ▸ hn⟩

theorem Rejection.native_of_loop {wanted budget : Nat} {r r' : Rejection α} {events events' : Array (Event α)}
    {outcome : Except (Halt α) Unit} (hn : ∀ n ∈ r.interpreter.statements, n.IsStatement valid)
    (he : ∀ e ∈ events.toList, e.Native) (h : loop wanted budget r events = (outcome, r', events')) :
    (∀ halt, outcome = .error halt → halt.Native) ∧ ∀ e ∈ events'.toList, e.Native := by
  induction budget generalizing r events with
  | zero =>
    cases h
    exact ⟨nofun, he⟩
  | succ budget ih =>
    rw [loop] at h
    split at h
    · cases h
      exact ⟨nofun, he⟩
    · split at h
      · next halt sampler more ha =>
        obtain ⟨hhalt, hmore, -⟩ := Sampler.native_of_attempt hn ha
        cases h
        exact ⟨fun _ heq => by cases heq; exact hhalt _ rfl, native_append he hmore⟩
      · next result sampler more ha =>
        obtain ⟨-, hmore, hn'⟩ := Sampler.native_of_attempt hn ha
        refine ih ?_ (native_append (native_append he hmore) ?_) h
        · unfold settle
          split
          · exact hn'
          · dsimp only
            split <;> exact hn'
        · unfold progress
          split
          · exact List.forall_mem_singleton.mpr trivial
          · exact List.forall_mem_nil _

theorem Rejection.native_of_run {r : Rejection α} (hn : ∀ n ∈ r.interpreter.statements, n.IsStatement valid)
    (samples : Argument α) (budget : Option (Argument α)) : (r.run samples budget).Native := by
  have hcollect (wanted budget : Nat) : (r.collect wanted budget).Native := by
    have hstart : ∀ e ∈ (#[.rejectionStarted wanted] : Array (Event α)).toList, e.Native :=
      List.forall_mem_singleton.mpr trivial
    unfold collect
    split
    · next halt r' events h =>
      obtain ⟨hhalt, hevents⟩ := native_of_loop (r := r.restart) hn hstart h
      exact ⟨fun _ heq => hhalt _ (by cases heq; rfl), hevents⟩
    · next r' events h =>
      obtain ⟨-, hevents⟩ := native_of_loop (r := r.restart) hn hstart h
      refine ⟨nofun, List.forall_mem_append.mpr ⟨hevents, ?_⟩⟩
      unfold closing
      refine List.forall_mem_cons.mpr ⟨trivial, ?_⟩
      split
      · exact List.forall_mem_nil _
      · exact List.forall_mem_singleton.mpr trivial
  unfold run
  split
  · exact ⟨nofun, List.forall_mem_nil _⟩
  · split
    · exact hcollect _ _
    · split
      · exact ⟨nofun, List.forall_mem_nil _⟩
      · exact hcollect _ _

theorem Importance.native_of_loop {wanted left : Nat} {s s' : Importance α} {events events' : Array (Event α)}
    {outcome : Except (Halt α) Unit} (hn : ∀ n ∈ s.interpreter.statements, n.IsStatement valid)
    (he : ∀ e ∈ events.toList, e.Native) (h : loop wanted left s events = (outcome, s', events')) :
    (∀ halt, outcome = .error halt → halt.Native) ∧ ∀ e ∈ events'.toList, e.Native := by
  induction left generalizing s events with
  | zero =>
    cases h
    exact ⟨nofun, he⟩
  | succ left ih =>
    rw [loop] at h
    split at h
    · next halt sampler more ha =>
      obtain ⟨hhalt, hmore, -⟩ := Sampler.native_of_attempt hn ha
      cases h
      exact ⟨fun _ heq => by cases heq; exact hhalt _ rfl, native_append he hmore⟩
    · next result sampler more ha =>
      obtain ⟨-, hmore, hn'⟩ := Sampler.native_of_attempt hn ha
      refine ih ?_ (native_append (native_append he hmore) ?_) h
      · cases result <;> exact hn'
      · unfold progress
        split
        · exact List.forall_mem_singleton.mpr trivial
        · exact List.forall_mem_nil _

theorem Importance.native_of_run {s : Importance α} (hn : ∀ n ∈ s.interpreter.statements, n.IsStatement valid)
    (samples : Argument α) : (s.run samples).Native := by
  unfold run
  split
  · exact ⟨nofun, List.forall_mem_nil _⟩
  · next wanted _ =>
    have hstart : ∀ e ∈ (#[.importanceStarted wanted] : Array (Event α)).toList, e.Native :=
      List.forall_mem_singleton.mpr trivial
    unfold collect
    split
    · next halt s' events h =>
      obtain ⟨hhalt, hevents⟩ := native_of_loop (s := s.restart) hn hstart h
      exact ⟨fun _ heq => hhalt _ (by cases heq; rfl), hevents⟩
    · next s' events h =>
      obtain ⟨-, hevents⟩ := native_of_loop (s := s.restart) hn hstart h
      unfold conclude
      split
      · exact ⟨nofun, hevents⟩
      · split
        · exact ⟨nofun, hevents⟩
        · exact ⟨nofun, List.forall_mem_append.mpr ⟨hevents, List.forall_mem_singleton.mpr trivial⟩⟩

end Sampling

end Posterior
