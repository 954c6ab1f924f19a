import Posterior.Proofs.Session
import Posterior.Sampler.Algorithm

/-!
The history of a sampler: requests to sample that return or raise, operations on the interpreter it drives,
variables removed from stored samples, another condition or policy. What fails leaves the sampler as it then
stands.
-/

set_option autoImplicit false

namespace Posterior

inductive Deed (α : Type) where
  | request (samples : Argument α) (budget : Option (Argument α))
  | operate (o : Operation α)
  | unbind (index : Int) (name : String)
  | setCondition (c : Condition α)
  | setPolicy (p : Policy)

theorem Sampler.exists_of_unbind {α : Type} {s t : Sampler α} {index : Int} {name : String}
    (h : s.unbind index name = .ok t) :
    ∃ (i : Nat) (result : Result α), s.samples.toList[i]? = some result ∧
      t = { s with samples :=
        s.samples.setIfInBounds i { result with bindings := result.bindings.erase name } } := by
  unfold unbind at h
  dsimp only at h
  split at h
  · cases h
  · next result hr =>
    rw [Option.ite_none_left_eq_some, ← Array.getElem?_toList] at hr
    split at h
    · cases h
    · exact ⟨_, result, hr.2, (Except.ok.inj h).symm⟩

namespace Algorithm

variable {α : Type}

@[simp] theorem sampler_withSampler (a : Algorithm α) (s : Sampler α) : (a.withSampler s).sampler = s := by
  cases a <;> rfl

variable [Arithmetic α]

def request (a : Algorithm α) (samples : Argument α) (budget : Option (Argument α)) : Algorithm α :=
  match a with
  | .plain s => .plain s
  | .rejection r => .rejection (r.run samples budget).sampler
  | .importance s => .importance (s.run samples).sampler

def operate (a : Algorithm α) (o : Operation α) : Algorithm α :=
  let after := ((Session.mk a.sampler.interpreter a.sampler.generator).perform o).2
  a.withSampler { a.sampler with interpreter := after.interpreter, generator := after.generator }

def unbind (a : Algorithm α) (index : Int) (name : String) : Algorithm α :=
  match a.sampler.unbind index name with
  | .ok s => a.withSampler s
  | .error _ => a

def follow (a : Algorithm α) : Deed α → Algorithm α
  | .request samples budget => a.request samples budget
  | .operate o => a.operate o
  | .unbind index name => a.unbind index name
  | .setCondition c => a.withCondition c
  | .setPolicy p => a.withPolicy p

def followAll (a : Algorithm α) (deeds : List (Deed α)) : Algorithm α := deeds.foldl follow a

theorem followAll_induction {motive : Algorithm α → Prop} (step : ∀ a d, motive a → motive (a.follow d))
    {a : Algorithm α} (h : motive a) (deeds : List (Deed α)) : motive (a.followAll deeds) := by
  induction deeds generalizing a with
  | nil => exact h
  | cons d deeds ih => exact ih (step a d h)

@[simp] theorem sampler_withCondition (a : Algorithm α) (c : Condition α) :
    (a.withCondition c).sampler = a.sampler := by
  cases a <;> rfl

@[simp] theorem sampler_operate (a : Algorithm α) (o : Operation α) :
    (a.operate o).sampler =
      { a.sampler with
        interpreter := ((Session.mk a.sampler.interpreter a.sampler.generator).perform o).2.interpreter
        generator := ((Session.mk a.sampler.interpreter a.sampler.generator).perform o).2.generator } :=
  sampler_withSampler _ _

end Algorithm

end Posterior
