import Posterior.Proofs.Checking.Run
import Posterior.Proofs.Trace.Run

/-!
What may stop an evaluation, well formed or not. Within the limit of levels the program fails, or a draw is
asked of a uniform distribution too wide to be sampled; nothing else ends it.
-/

set_option autoImplicit false

namespace Posterior

open Node Step

section

variable {α β γ : Type}

/-- A failure other than that of an operator or a type of node which is not known. -/
def Failure.Native : Failure α → Prop
  | .unknownOperator _ | .unknownNode _ => False
  | .undefinedVariable _ | .notNumber .. | .notDistribution .. | .argumentCount .. | .parameters _ |
    .unknownFunction _ => True

def StoppedBy (allowed : Halt α → Prop) (e : Eval α β) : Prop :=
  ∀ m, Ends e m (fun _ _ => True) allowed

variable {allowed allowed' : Halt α → Prop} {e : Eval α β}

theorem stoppedBy_pure (b : β) : StoppedBy allowed (pure b : Eval α β) := fun _ => trivial

theorem stoppedBy_throw {halt : Halt α} (h : allowed halt) :
    StoppedBy allowed (throw halt : Eval α β) := fun _ => h

theorem StoppedBy.bind_of_ok {f : β → Eval α γ} (h : StoppedBy allowed e)
    (hf : ∀ m b t, e m = .ok b t → Ends (f b) t (fun _ _ => True) allowed) :
    StoppedBy allowed (e >>= f) := by
  intro m
  have hm := h m
  unfold Ends at hm ⊢
  cases he : e m with
  | ok b t =>
    rw [bind_ok he]
    exact hf m b t he
  | error halt t =>
    rw [he] at hm
    rw [bind_error he]
    exact hm

theorem StoppedBy.bind {f : β → Eval α γ} (h : StoppedBy allowed e)
    (hf : ∀ b, StoppedBy allowed (f b)) : StoppedBy allowed (e >>= f) :=
  h.bind_of_ok fun _ b t _ => hf b t

theorem StoppedBy.imp (h : StoppedBy allowed e) (ha : ∀ halt, allowed halt → allowed' halt) :
    StoppedBy allowed' e :=
  fun m => (h m).imp (fun _ _ _ => trivial) ha

section Failing

variable (hfail : ∀ f : Failure α, f.Native → allowed (.failure f))
include hfail

theorem stoppedBy_number (role : Role) (v : Value α) : StoppedBy allowed (Eval.number role v) := by
  cases v with
  | number x => exact stoppedBy_pure x
  | distribution d => exact stoppedBy_throw (hfail _ trivial)

theorem stoppedBy_distribution (function : String) (v : Value α) :
    StoppedBy allowed (Eval.distribution function v) := by
  cases v with
  | number x => exact stoppedBy_throw (hfail _ trivial)
  | distribution d => exact stoppedBy_pure d

theorem stoppedBy_lookup (name : String) : StoppedBy allowed (Eval.lookup name) := by
  intro m
  unfold Ends
  rw [Eval.lookup_eq]
  cases m.store.bindings.get? name with
  | some x => trivial
  | none => exact hfail _ trivial

theorem stoppedBy_numbers {evaluate : Node α → Eval α (Value α)} (role : Role) {ns : List (Node α)}
    (h : ∀ n ∈ ns, StoppedBy allowed (evaluate n)) :
    StoppedBy allowed (evaluateNumbers evaluate role ns) := by
  induction ns with
  | nil => exact stoppedBy_pure []
  | cons n ns ih =>
    rw [evaluateNumbers]
    refine (h n List.mem_cons_self).bind fun v => (stoppedBy_number hfail role v).bind fun x => ?_
    exact (ih fun a ha => h a (List.mem_cons_of_mem n ha)).bind fun xs => stoppedBy_pure _

end Failing

end

variable {α : Type} [Arithmetic α]

def Halt.Arises (n : Node α) (halt : Halt α) : Prop :=
  (∃ f, halt = .failure f) ∨ OutOfRange n halt

theorem Halt.arises_failure (n : Node α) (f : Failure α) : Halt.Arises n (.failure f) := .inl ⟨f, rfl⟩

theorem Halt.Arises.child {c n : Node α} {halt : Halt α} (h : halt.Arises c) (hc : c ∈ n.children) :
    halt.Arises n :=
  h.imp_right fun ho => ho.child hc

theorem Halt.Arises.ne_tooDeep {n : Node α} {halt : Halt α} (h : halt.Arises n) : halt ≠ .tooDeep := by
  rintro rfl
  rcases h with ⟨f, hf⟩ | ho
  · cases hf
  · cases ho

theorem Halt.Arises.outOfRange {n : Node α} (h : Halt.overflow.Arises n) : OutOfRange n .overflow := by
  rcases h with ⟨f, hf⟩ | ho
  · cases hf
  · exact ho

/-- A draw that cannot be taken is one from a uniform distribution that the tree calls. -/
theorem arises_overflow {source : Node α} {d : Distribution α} {m m' : Machine α} {levels : Nat}
    (h : evaluate levels source m = .ok (.distribution d) m') (hd : d.canSample = false) :
    Halt.overflow.Arises (.call "sample" [source]) := by
  have ht := traces_evaluate levels source m
  unfold Leaves at ht
  rw [h] at ht
  obtain ⟨es, hp⟩ := ht
  cases hp with
  | cons _ ha hs =>
    cases hs
    obtain ⟨args, rfl, hfault⟩ := ha.exists_of_distribution
    cases d with
    | uniform low high => exact .inr (.width .root hfault hd)
    | normal | bernoulli | exponential => cases hd

theorem stoppedBy_sample {allowed : Halt α → Prop} {d : Distribution α}
    (h : d.canSample = false → allowed .overflow) : StoppedBy allowed (Eval.sample d) := by
  intro m
  unfold Ends Eval.sample Generator.sample
  cases hd : d.canSample with
  | true => trivial
  | false => exact h hd

theorem stoppedBy_call {allowed : Halt α → Prop} (hfail : ∀ f : Failure α, f.Native → allowed (.failure f))
    {levels : Nat} {name : String} {args : List (Node α)}
    (hdraw : ∀ source d m m', name = "sample" → args = [source] →
      evaluate levels source m = .ok (.distribution d) m' → d.canSample = false → allowed .overflow)
    (h : ∀ a ∈ args, StoppedBy allowed (evaluate levels a)) :
    StoppedBy allowed (evaluateCall (evaluate levels) name args) := by
  cases hc : Callee.ofName? name with
  | none =>
    simp only [evaluateCall, hc]
    exact stoppedBy_throw (hfail _ trivial)
  | some c =>
    cases c with
    | sample =>
      simp only [evaluateCall, hc]
      split
      · next source =>
        refine (h source (List.mem_singleton_self source)).bind_of_ok fun m v m' hv => ?_
        cases v with
        | number x => exact hfail _ trivial
        | distribution d =>
          have hd : StoppedBy allowed (Eval.sample d) :=
            stoppedBy_sample fun hd => hdraw source d m m' (Callee.name_of_sample hc) rfl hv hd
          exact hd.bind (fun x => stoppedBy_pure _) m'
      · exact stoppedBy_throw (hfail _ trivial)
    | observe =>
      simp only [evaluateCall, hc]
      split
      · next point source =>
        refine (h point (by simp)).bind fun v => (stoppedBy_number hfail _ v).bind fun x => ?_
        refine (h source (by simp)).bind fun w => (stoppedBy_distribution hfail name w).bind fun d => ?_
        exact fun m => trivial
      · exact stoppedBy_throw (hfail _ trivial)
    | family f =>
      simp only [evaluateCall, hc]
      refine (stoppedBy_numbers hfail _ h).bind fun params => ?_
      split
      · exact stoppedBy_pure _
      · exact stoppedBy_throw (hfail _ trivial)
    | math f =>
      simp only [evaluateCall, hc]
      split
      · next arg =>
        refine (h arg (by simp)).bind fun v => (stoppedBy_number hfail _ v).bind fun x => ?_
        exact stoppedBy_pure _
      · exact stoppedBy_throw (hfail _ trivial)

theorem stoppedBy_operate {allowed : Halt α → Prop} (hfail : ∀ f, allowed (.failure f)) (op : String)
    (x y : α) : StoppedBy allowed (operate op x y) := by
  rcases operate_cases op x y with ⟨z, hz⟩ | ⟨failure, hz⟩
  · rw [hz]
    exact stoppedBy_pure z
  · rw [hz]
    exact stoppedBy_throw (hfail _)

/-- With levels for every node below it, a tree is never too deep. -/
theorem stoppedBy_evaluate {levels depth : Nat} {n : Node α}
    (hd : ∀ v ∈ n.walk depth, v.depth < depth + levels) :
    StoppedBy (Halt.Arises n) (evaluate levels n) := by
  induction levels generalizing n depth with
  | zero => exact absurd (hd _ (mem_walk_self depth n)) (Nat.lt_irrefl depth)
  | succ levels ih =>
    have hfail : ∀ f : Failure α, f.Native → Halt.Arises n (.failure f) :=
      fun f _ => Halt.arises_failure n f
    have hchild : ∀ c ∈ n.children, StoppedBy (Halt.Arises n) (evaluate levels c) := by
      intro c hc
      have hc' : ∀ v ∈ c.walk (depth + 1), v.depth < depth + 1 + levels := by
        intro v hv
        have hlt := hd v (mem_walk_of_child hc hv)
        omega
      exact (ih hc').imp fun _ ha => ha.child hc
    cases n with
    | number x => exact stoppedBy_pure _
    | var name => exact (stoppedBy_lookup hfail name).bind fun x => stoppedBy_pure _
    | binary op left right =>
      rw [evaluate]
      refine (hchild left (by simp [children])).bind fun v => (stoppedBy_number hfail _ v).bind fun x => ?_
      refine (hchild right (by simp [children])).bind fun w => (stoppedBy_number hfail _ w).bind fun y => ?_
      exact (stoppedBy_operate (Halt.arises_failure _) op x y).bind fun z => stoppedBy_pure _
    | call name args =>
      refine stoppedBy_call hfail ?_ hchild
      rintro source d m m' rfl rfl hv hd
      exact arises_overflow hv hd
    | assignment name expr =>
      rw [evaluate]
      refine (hchild expr (by simp [children])).bind fun v => (stoppedBy_number hfail _ v).bind fun x => ?_
      exact fun m => trivial
    | program | error | stray => exact stoppedBy_throw (Halt.arises_failure _ _)

theorem stoppedBy_evaluateAll {allowed : Halt α → Prop} {ns : List (Node α)} (last : Option (Value α))
    (h : ∀ n ∈ ns, StoppedBy allowed (evaluate maxDepth n)) :
    StoppedBy allowed (evaluateAll last ns) := by
  induction ns generalizing last with
  | nil => exact stoppedBy_pure last
  | cons n ns ih =>
    rw [evaluateAll]
    exact (h n List.mem_cons_self).bind fun v => ih (some v) fun a ha => h a (List.mem_cons_of_mem n ha)

theorem halt_of_run {allowed : Halt α → Prop} {i : Interpreter α}
    (hn : ∀ n ∈ i.statements, StoppedBy allowed (evaluate maxDepth n)) {g : Generator α} {halt : Halt α}
    (h : (i.run g).1 = .error halt) : allowed halt := by
  have hrun : Ends (Interpreter.runProgram i.statements) ⟨i.store, g⟩ (fun _ _ => True) allowed :=
    (stoppedBy_evaluateAll none hn _).bind (fun _ _ _ => trivial) fun _ ha => ha
  unfold Ends at hrun
  unfold Interpreter.run Interpreter.perform at h
  split at hrun
  · next hr =>
    rw [hr] at h
    cases h
  · next hr =>
    rw [hr] at h
    cases h
    exact hrun

theorem arises_of_run {i : Interpreter α} (hd : ∀ n ∈ i.statements, n.isTooDeep = false) {g : Generator α}
    {halt : Halt α} (h : (i.run g).1 = .error halt) : halt.Arises (.program i.statements) := by
  have hall : ∀ n ∈ i.statements, StoppedBy (Halt.Arises (.program i.statements)) (evaluate maxDepth n) :=
    fun n hn => (stoppedBy_evaluate (lt_of_isTooDeep (hd n hn))).imp fun _ ha => ha.child hn
  exact halt_of_run hall h

end Posterior
