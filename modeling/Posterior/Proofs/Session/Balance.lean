import Posterior.Proofs.Session
import Posterior.Proofs.Trace.Ledger

set_option autoImplicit false

namespace Posterior

open Node Step

variable {α : Type} [Arithmetic α]

def Store.Balanced (s : Store α) : Prop :=
  s.totalLogProb = Arithmetic.sum (s.observations.map (·.logProb))

def Result.Balanced (r : Result α) : Prop :=
  r.totalLogProb = Arithmetic.sum (r.observations.map (·.logProb))

theorem Store.balanced_empty : (Store.empty : Store α).Balanced := rfl

section Evaluation

variable {m m' : Machine α} {es : List (Effect α)}

theorem Records.balanced (hr : Records m es m')
    (ht : m'.store.totalLogProb = Effect.totalFrom m.store.totalLogProb es) (h : m.store.Balanced) :
    m'.store.Balanced := by
  unfold Store.Balanced at h ⊢
  rw [ht, hr.observations, h, Effect.totalFrom, Arithmetic.sum, Arithmetic.sum, List.map_append,
    List.foldl_append, List.foldl_map, List.foldl_map, List.foldl_map]

theorem Stopped.balanced {ns : List (Node α)} (hs : Stopped ns m m') (h : m.store.Balanced) :
    m'.store.Balanced := by
  obtain ⟨es, hs⟩ := hs
  exact hs.records.balanced hs.totalLogProb_eq h

theorem balanced_evaluate (levels : Nat) (n : Node α) (h : m.store.Balanced) :
    Leaves (evaluate levels n) m (fun _ m' => m'.store.Balanced) fun m' => m'.store.Balanced := by
  refine (traces_evaluate levels n m).imp (fun v m' hp => ?_) fun m' hs => hs.balanced h
  obtain ⟨es, hp⟩ := hp
  exact hp.records.balanced hp.totalLogProb_eq h

theorem balanced_runProgram (ns : List (Node α)) (h : m.store.Balanced) :
    Leaves (Interpreter.runProgram ns) m (fun result m' => result.Balanced ∧ m'.store.Balanced)
      fun m' => m'.store.Balanced := by
  have hall : Leaves (evaluateAll none ns) m (fun _ m' => m'.store.Balanced)
      fun m' => m'.store.Balanced := by
    refine (traces_evaluateAll none ns m).imp (fun _ m' hp => ?_) fun m' hs => hs.balanced h
    obtain ⟨es, vs, hp⟩ := hp
    exact hp.records.balanced hp.totalLogProb_eq h
  exact hall.bind fun last m' hm => ⟨hm, hm⟩

end Evaluation

theorem Interpreter.evaluate_balanced {i : Interpreter α} (h : i.store.Balanced) (g : Generator α)
    (n : Node α) : (i.evaluate g n).2.1.store.Balanced := by
  have hn : Leaves (Posterior.evaluate maxDepth n) ⟨i.store, g⟩ _ _ := balanced_evaluate maxDepth n h
  unfold Leaves at hn
  unfold Interpreter.evaluate Interpreter.perform
  split at hn
  · next he => rwa [he]
  · next he => rwa [he]

theorem Interpreter.run_balanced {i : Interpreter α} (h : i.store.Balanced) (g : Generator α) :
    (∀ result, (i.run g).1 = .ok result → result.Balanced) ∧ (i.run g).2.1.store.Balanced := by
  have hn : Leaves (runProgram i.statements) ⟨i.store, g⟩ _ _ := balanced_runProgram i.statements h
  unfold Leaves at hn
  unfold Interpreter.run Interpreter.perform
  split at hn
  · next he =>
    rw [he]
    refine ⟨fun result hr => ?_, hn.2⟩
    cases hr
    exact hn.1
  · next he =>
    rw [he]
    exact ⟨nofun, hn⟩

def Answer.Balanced (a : Answer α) : Prop := ∀ result, a = .ran (.ok result) → result.Balanced

theorem Session.perform_balanced (s : Session α) (o : Operation α) (h : s.interpreter.store.Balanced) :
    (s.perform o).1.Balanced ∧ (s.perform o).2.interpreter.store.Balanced := by
  cases o with
  | run =>
    obtain ⟨hresult, hstore⟩ := Interpreter.run_balanced h s.generator
    refine ⟨fun result hr => hresult result ?_, hstore⟩
    exact Answer.ran.inj hr
  | reset => exact ⟨nofun, Store.balanced_empty⟩
  | evaluate n => exact ⟨nofun, Interpreter.evaluate_balanced h s.generator n⟩

theorem Session.performAll_balanced (s : Session α) (os : List (Operation α))
    (h : s.interpreter.store.Balanced) :
    (∀ a ∈ (s.performAll os).1, a.Balanced) ∧ (s.performAll os).2.interpreter.store.Balanced :=
  performAll_induction (motive := fun s => s.interpreter.store.Balanced) perform_balanced h os

end Posterior
