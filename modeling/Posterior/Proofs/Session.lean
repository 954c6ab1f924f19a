import Posterior.Interpreter

/-!
An interpreter under whatever is asked of it: its program is run, its store is emptied, single trees are
evaluated. What fails leaves the store as far as it has come, and the next operation finds it so.
-/

set_option autoImplicit false

namespace Posterior

inductive Operation (α : Type) where
  | run
  | reset
  | evaluate (n : Node α)

inductive Answer (α : Type) where
  | ran (outcome : Except (Halt α) (Result α))
  | emptied
  | evaluated (outcome : Except (Halt α) (Value α))

structure Session (α : Type) where
  interpreter : Interpreter α
  generator : Generator α

namespace Session

variable {α ι : Type} [Arithmetic α]

def perform (s : Session α) : Operation α → Answer α × Session α
  | .run =>
    let after := s.interpreter.run s.generator
    (.ran after.1, ⟨after.2.1, after.2.2⟩)
  | .reset => (.emptied, { s with interpreter := s.interpreter.reset })
  | .evaluate n =>
    let after := s.interpreter.evaluate s.generator n
    (.evaluated after.1, ⟨after.2.1, after.2.2⟩)

def performAll (s : Session α) : List (Operation α) → List (Answer α) × Session α
  | [] => ([], s)
  | o :: os =>
    let first := s.perform o
    let later := first.2.performAll os
    (first.1 :: later.1, later.2)

theorem performAll_induction {motive : Session α → Prop} {told : Answer α → Prop}
    (step : ∀ s o, motive s → told (s.perform o).1 ∧ motive (s.perform o).2) {s : Session α} (h : motive s)
    (os : List (Operation α)) :
    (∀ a ∈ (s.performAll os).1, told a) ∧ motive (s.performAll os).2 := by
  induction os generalizing s with
  | nil => exact ⟨List.forall_mem_nil told, h⟩
  | cons o os ih =>
    obtain ⟨hanswer, hs⟩ := step s o h
    obtain ⟨hlater, hlast⟩ := ih hs
    exact ⟨List.forall_mem_cons.mpr ⟨hanswer, hlater⟩, hlast⟩

theorem perform_statements (s : Session α) (o : Operation α) :
    (s.perform o).2.interpreter.statements = s.interpreter.statements := by
  cases o with
  | run =>
    unfold perform Interpreter.run Interpreter.perform
    dsimp only
    split <;> rfl
  | reset => rfl
  | evaluate n =>
    unfold perform Interpreter.evaluate Interpreter.perform
    dsimp only
    split <;> rfl

section Interleaving

variable [DecidableEq ι]

/-- Performs operations on several sessions, each on the session it names, with what each comes to. The sessions
may be of one program; what they do not share is store and generator. -/
def interleave (sessions : ι → Session α) : List (ι × Operation α) → List (ι × Answer α) × (ι → Session α)
  | [] => ([], sessions)
  | (i, o) :: os =>
    let first := (sessions i).perform o
    let later := interleave (fun j => if j = i then first.2 else sessions j) os
    ((i, first.1) :: later.1, later.2)

def own {β : Type} (i : ι) (entries : List (ι × β)) : List β :=
  entries.filterMap fun entry => if entry.1 = i then some entry.2 else none

theorem own_cons_self {β : Type} (i : ι) (b : β) (entries : List (ι × β)) :
    own i ((i, b) :: entries) = b :: own i entries :=
  List.filterMap_cons_some (if_pos rfl)

theorem own_cons_of_ne {β : Type} {i j : ι} (h : j ≠ i) (b : β) (entries : List (ι × β)) :
    own i ((j, b) :: entries) = own i entries :=
  List.filterMap_cons_none (if_neg h)

/-- Among others, a session answers and ends as it does alone. -/
theorem interleave_own (sessions : ι → Session α) (os : List (ι × Operation α)) (i : ι) :
    own i (interleave sessions os).1 = ((sessions i).performAll (own i os)).1 ∧
      (interleave sessions os).2 i = ((sessions i).performAll (own i os)).2 := by
  induction os generalizing sessions with
  | nil => exact ⟨rfl, rfl⟩
  | cons entry os ih =>
    obtain ⟨j, o⟩ := entry
    obtain ⟨hanswers, hlast⟩ := ih fun k => if k = j then ((sessions j).perform o).2 else sessions k
    dsimp only [interleave]
    by_cases hj : j = i
    · subst hj
      rw [if_pos rfl] at hanswers hlast
      rw [own_cons_self, own_cons_self, performAll]
      exact ⟨congrArg _ hanswers, hlast⟩
    · rw [if_neg (Ne.symm hj)] at hanswers hlast
      rw [own_cons_of_ne hj, own_cons_of_ne hj]
      exact ⟨hanswers, hlast⟩

end Interleaving

end Session

end Posterior
