import Posterior.Proofs.Trace.Order
import Posterior.Step

set_option autoImplicit false

namespace Posterior

open Node Step

variable {α β : Type} [Arithmetic α]

section Lists

variable {ns ms : List (Node α)} {m m₁ m' : Machine α} {es fs : List (Effect α)}
  {vs ws : List (Value α)}

theorem Performs.append (h : Performs ns m es vs m₁) (h' : Performs ms m₁ fs ws m') :
    Performs (ns ++ ms) m (es ++ fs) (vs ++ ws) m' := by
  induction h with
  | nil => exact h'
  | cons hc ha _ _ ih =>
    have hall := Performs.cons hc ha (ih h')
    simpa only [List.append_assoc, List.cons_append] using hall

theorem Performs.stops (h : Performs ns m es vs m₁) (h' : Stops ms m₁ fs m') :
    Stops (ns ++ ms) m (es ++ fs) m' := by
  induction h with
  | nil => exact h'
  | cons hc ha _ _ ih =>
    have hall := Stops.behind hc ha (ih h')
    simpa only [List.append_assoc, List.cons_append] using hall

theorem Stops.widen {n : Node α} (h : Stops [n] m es m') (ns : List (Node α)) :
    Stops (n :: ns) m es m' := by
  cases h with
  | here => exact .here _ _
  | within hc => exact .within hc
  | behind hc ha hs =>
    cases hs
    exact .behind hc ha (.here _ _)

end Lists

def Stopped (ns : List (Node α)) (m₀ m : Machine α) : Prop := ∃ es, Stops ns m₀ es m

def Traces (e : Eval α (Value α)) (n : Node α) : Prop :=
  ∀ m, Leaves e m (fun v m' => ∃ es, Performs [n] m es [v] m') (Stopped [n] m)

def Reaches (n : Node α) (m₀ : Machine α) (done : List (Node α)) (vs : List (Value α))
    (m : Machine α) : Prop :=
  ∃ es todo, n.children = done ++ todo ∧ Performs done m₀ es vs m

section Reaching

variable {n c : Node α} {m₀ m : Machine α} {done todo : List (Node α)} {vs : List (Value α)}

theorem Reaches.start (n : Node α) (m : Machine α) : Reaches n m [] [] m :=
  ⟨[], n.children, rfl, .nil m⟩

theorem Reaches.stopped (h : Reaches n m₀ done vs m) : Stopped [n] m₀ m := by
  obtain ⟨es, todo, hc, hp⟩ := h
  have hs := hp.stops (.here todo m)
  rw [← hc] at hs
  exact ⟨_, .within hs⟩

theorem Reaches.act (h : Reaches n m₀ n.children vs m) {fs : List (Effect α)} {v : Value α}
    {m' : Machine α} (ha : Acts n vs m fs v m') : ∃ es, Performs [n] m₀ es [v] m' := by
  obtain ⟨es, -, -, hp⟩ := h
  exact ⟨_, .cons hp ha (.nil m')⟩

theorem Reaches.child {e : Eval α (Value α)} (h : Reaches n m₀ done vs m)
    (hc : n.children = done ++ c :: todo) (he : Traces e c) :
    Leaves e m (fun v m' => Reaches n m₀ (done ++ [c]) (vs ++ [v]) m') (Stopped [n] m₀) := by
  obtain ⟨es, -, -, hp⟩ := h
  refine (he m).imp (fun v m' hv => ?_) fun m' hs => ?_
  · obtain ⟨fs, hv⟩ := hv
    exact ⟨_, todo, by simp [hc], hp.append hv⟩
  · obtain ⟨fs, hs⟩ := hs
    have hall := hp.stops (hs.widen todo)
    rw [← hc] at hall
    exact ⟨_, .within hall⟩

variable {ok : β → Machine α → Prop}

theorem Reaches.fail (h : Reaches n m₀ done vs m) (failure : Failure α) :
    Leaves (Eval.fail failure : Eval α β) m ok (Stopped [n] m₀) :=
  h.stopped

theorem Reaches.bind_number {e : Eval α (Value α)} {role : Role} {f : α → Eval α β}
    (h : Reaches n m₀ done vs m) (hc : n.children = done ++ c :: todo) (he : Traces e c)
    (hf : ∀ x m', Reaches n m₀ (done ++ [c]) (vs ++ [.number x]) m' →
      Leaves (f x) m' ok (Stopped [n] m₀)) :
    Leaves (e >>= fun v => Eval.number role v >>= f) m ok (Stopped [n] m₀) := by
  refine (h.child hc he).bind fun v m' hv => ?_
  cases v with
  | number x => exact hf x m' hv
  | distribution d => exact hv.stopped

theorem Reaches.bind_distribution {e : Eval α (Value α)} {function : String}
    {f : Distribution α → Eval α β} (h : Reaches n m₀ done vs m)
    (hc : n.children = done ++ c :: todo) (he : Traces e c)
    (hf : ∀ d m', Reaches n m₀ (done ++ [c]) (vs ++ [.distribution d]) m' →
      Leaves (f d) m' ok (Stopped [n] m₀)) :
    Leaves (e >>= fun v => Eval.distribution function v >>= f) m ok (Stopped [n] m₀) := by
  refine (h.child hc he).bind fun v m' hv => ?_
  cases v with
  | number x => exact hv.stopped
  | distribution d => exact hf d m' hv

theorem Reaches.numbers {evaluate : Node α → Eval α (Value α)} {role : Role}
    (h : Reaches n m₀ done vs m) (hc : n.children = done ++ todo)
    (he : ∀ c ∈ todo, Traces (evaluate c) c) :
    Leaves (evaluateNumbers evaluate role todo) m
      (fun xs m' => Reaches n m₀ n.children (vs ++ xs.map .number) m') (Stopped [n] m₀) := by
  induction todo generalizing done vs m with
  | nil =>
    rw [hc]
    simpa [Leaves, evaluateNumbers, pure, EStateM.pure] using h
  | cons c todo ih =>
    rw [evaluateNumbers]
    refine h.bind_number hc (he c List.mem_cons_self) fun x m' hx => ?_
    have hrest := ih hx (by simp [hc]) fun a ha => he a (List.mem_cons_of_mem c ha)
    refine hrest.bind fun xs m'' hxs => ?_
    rw [List.append_assoc] at hxs
    exact hxs

end Reaching

section Calls

variable {evaluate : Node α → Eval α (Value α)} {name : String} {args : List (Node α)}

theorem traces_sample (hc : Callee.ofName? name = some .sample)
    (h : ∀ a ∈ args, Traces (evaluate a) a) :
    Traces (evaluateCall evaluate name args) (.call name args) := by
  intro m
  have hstart := Reaches.start (.call name args) m
  simp only [evaluateCall, hc]
  obtain rfl := Callee.name_of_sample hc
  split
  · next source =>
    refine hstart.bind_distribution rfl (h source (List.mem_singleton_self source)) fun d m' hd => ?_
    have hsample : Leaves (Eval.sample d) m'
        (fun x m'' => ∃ es, Performs [.call "sample" [source]] m es [.number x] m'')
        (Stopped [.call "sample" [source]] m) := by
      unfold Leaves Eval.sample Generator.sample
      by_cases hs : d.canSample = true
      · rw [if_pos hs]
        exact hd.act (.sample hs)
      · rw [if_neg hs]
        exact hd.stopped
    exact hsample.bind fun x m'' hx => hx
  · exact hstart.fail _

theorem traces_observe (hc : Callee.ofName? name = some .observe)
    (h : ∀ a ∈ args, Traces (evaluate a) a) :
    Traces (evaluateCall evaluate name args) (.call name args) := by
  intro m
  have hstart := Reaches.start (.call name args) m
  simp only [evaluateCall, hc]
  obtain rfl := Callee.name_of_observe hc
  split
  · next point source =>
    refine hstart.bind_number rfl (h point (by simp)) fun x m' hx => ?_
    refine hx.bind_distribution rfl (h source (by simp)) fun d m'' hd => ?_
    exact hd.act (.observe [point, source] x d m'')
  · exact hstart.fail _

theorem traces_math {f : MathFunction} (hc : Callee.ofName? name = some (.math f))
    (h : ∀ a ∈ args, Traces (evaluate a) a) :
    Traces (evaluateCall evaluate name args) (.call name args) := by
  intro m
  have hstart := Reaches.start (.call name args) m
  simp only [evaluateCall, hc]
  split
  · next arg =>
    refine hstart.bind_number rfl (h arg (List.mem_singleton_self arg)) fun x m' hx => ?_
    exact hx.act (.math hc)
  · exact hstart.fail _

theorem traces_family {f : Family} (hc : Callee.ofName? name = some (.family f))
    (h : ∀ a ∈ args, Traces (evaluate a) a) :
    Traces (evaluateCall evaluate name args) (.call name args) := by
  intro m
  have hstart := Reaches.start (.call name args) m
  simp only [evaluateCall, hc]
  obtain rfl := Callee.name_of_family hc
  refine (hstart.numbers rfl h).bind fun params m' hp => ?_
  split
  · next d hd => exact hp.act (.family hd)
  · exact hp.fail _

theorem traces_call (h : ∀ a ∈ args, Traces (evaluate a) a) :
    Traces (evaluateCall evaluate name args) (.call name args) := by
  cases hc : Callee.ofName? name with
  | none =>
    intro m
    simp only [evaluateCall, hc]
    exact (Reaches.start (.call name args) m).fail _
  | some c =>
    cases c with
    | sample => exact traces_sample hc h
    | observe => exact traces_observe hc h
    | family f => exact traces_family hc h
    | math f => exact traces_math hc h

end Calls

theorem operate_cases (op : String) (x y : α) :
    (∃ z, operate op x y = pure z) ∨ ∃ failure, operate op x y = Eval.fail failure := by
  unfold operate
  split
  · exact .inl ⟨_, rfl⟩
  · exact .inl ⟨_, rfl⟩
  · exact .inl ⟨_, rfl⟩
  · exact .inl ⟨_, rfl⟩
  · exact .inr ⟨_, rfl⟩

theorem traces_evaluate (levels : Nat) (n : Node α) : Traces (evaluate levels n) n := by
  induction levels generalizing n with
  | zero => exact fun m => (Reaches.start n m).stopped
  | succ levels ih =>
    intro m
    have hstart := Reaches.start n m
    cases n with
    | number x => exact hstart.act (.number x m)
    | var name =>
      have hlookup : Leaves (Eval.lookup name) m
          (fun x m' => ∃ es, Performs [.var name] m es [.number x] m') (Stopped [.var name] m) := by
        unfold Leaves
        rw [Eval.lookup_eq]
        cases hx : m.store.bindings.get? name with
        | some x => exact hstart.act (.var hx)
        | none => exact hstart.stopped
      exact hlookup.bind fun x m' hx => hx
    | binary op left right =>
      refine hstart.bind_number rfl (ih left) fun x m' hx => ?_
      refine hx.bind_number rfl (ih right) fun y m'' hy => ?_
      rcases operate_cases op x y with ⟨z, hz⟩ | ⟨failure, hz⟩
      · rw [hz]
        exact hy.act (.binary (congrFun hz m''))
      · rw [hz]
        exact hy.stopped
    | call name args => exact traces_call (fun a _ => ih a) m
    | assignment name expr =>
      refine hstart.bind_number rfl (ih expr) fun x m' hx => ?_
      exact hx.act (.assignment name expr x m')
    | program | error | stray => exact hstart.fail _

theorem traces_evaluateAll (last : Option (Value α)) (ns : List (Node α)) (m : Machine α) :
    Leaves (evaluateAll last ns) m (fun _ m' => ∃ es vs, Performs ns m es vs m') (Stopped ns m) := by
  induction ns generalizing last m with
  | nil => exact ⟨[], [], .nil m⟩
  | cons n ns ih =>
    have hn : Leaves (evaluate maxDepth n) m (fun v m' => ∃ es, Performs [n] m es [v] m')
        (Stopped (n :: ns) m) :=
      (traces_evaluate maxDepth n m).imp (fun _ _ hv => hv) fun m' ⟨es, hs⟩ => ⟨es, hs.widen ns⟩
    rw [evaluateAll]
    refine hn.bind fun v m' hv => (ih (some v) m').imp (fun _ m'' hns => ?_) fun m'' hns => ?_
    · obtain ⟨es, hp⟩ := hv
      obtain ⟨fs, vs, hps⟩ := hns
      exact ⟨_, _, hp.append hps⟩
    · obtain ⟨es, hp⟩ := hv
      obtain ⟨fs, hs⟩ := hns
      exact ⟨_, hp.stops hs⟩

/-- A run takes its draws and records its observations call by call, in the order of the program. One that
returns has come to every call; one that fails has come to the first ones. -/
theorem trace_of_run (i : Interpreter α) (g : Generator α) :
    (∀ result i' g', i.run g = (.ok result, i', g') →
      ∃ es vs, Performs i.statements ⟨i.store, g⟩ es vs ⟨i'.store, g'⟩ ∧
        Trace i.statements ⟨i.store, g⟩ es ⟨i'.store, g'⟩ ∧
        Effect.draws es = (sampleCalls i.statements).zipIdx g.used ∧
        g'.used = g.used + (sampleCalls i.statements).length ∧
        (Effect.scores es).map Prod.fst = observeCalls i.statements ∧
        i'.store.observations.length =
          i.store.observations.length + (observeCalls i.statements).length ∧
        result.observations = i'.store.observations) ∧
    ∀ halt i' g', i.run g = (.error halt, i', g') →
      ∃ es, Stops i.statements ⟨i.store, g⟩ es ⟨i'.store, g'⟩ ∧
        Trace i.statements ⟨i.store, g⟩ es ⟨i'.store, g'⟩ ∧
        g'.used ≤ g.used + (sampleCalls i.statements).length ∧
        i'.store.observations.length ≤
          i.store.observations.length + (observeCalls i.statements).length := by
  have hrun : Leaves (Interpreter.runProgram i.statements) ⟨i.store, g⟩
      (fun result m' => (∃ es vs, Performs i.statements ⟨i.store, g⟩ es vs m') ∧
        result.observations = m'.store.observations) (Stopped i.statements ⟨i.store, g⟩) :=
    (traces_evaluateAll none i.statements ⟨i.store, g⟩).bind fun _ m' hp => ⟨hp, rfl⟩
  unfold Leaves at hrun
  unfold Interpreter.run Interpreter.perform
  split at hrun
  · next result m' hr =>
    rw [hr]
    refine ⟨fun result' i' g' h => ?_, nofun⟩
    cases h
    obtain ⟨⟨es, vs, hp⟩, hresult⟩ := hrun
    have ht := hp.trace
    have hd := congrArg List.length hp.draws_eq
    have hs := congrArg List.length hp.scores_eq
    rw [List.length_zipIdx] at hd
    rw [List.length_map] at hs
    refine ⟨es, vs, hp, ht, hp.draws_eq, ?_, hp.scores_eq, ?_, hresult⟩
    · rw [ht.generator, hd]
    · rw [ht.observations, List.length_append, List.length_map, hs]
  · next halt m' hr =>
    rw [hr]
    refine ⟨nofun, fun halt' i' g' h => ?_⟩
    cases h
    obtain ⟨es, hs⟩ := hrun
    exact ⟨es, hs, hs.trace, hs.trace.used_le, hs.trace.length_observations_le⟩

theorem trace_of_nested_draw :
    ∃ (inner outer : Node Float) (i i' : Interpreter Float) (g g' : Generator Float)
      (result : Result Float),
      inner = .call "sample" [.call "exponential" [.number 1]] ∧
      outer = .call "sample" [.call "normal" [inner, .number 2]] ∧
      i = ⟨[.assignment "x" outer, .call "observe" [.var "x", .call "normal" [.number 0, .number 1]]],
        .empty⟩ ∧
      i.run g = (.ok result, i', g') ∧
      ∃ es, Trace i.statements ⟨i.store, g⟩ es ⟨i'.store, g'⟩ ∧
        Effect.draws es = [(inner, g.used), (outer, g.used + 1)] ∧ g'.used = g.used + 2 ∧
        i'.store.observations.length = 1 := by
  obtain ⟨inner, outer, i, g, result, rfl, rfl, rfl, hr⟩ :
      ∃ (inner outer : Node Float) (i : Interpreter Float) (g : Generator Float) (result : Result Float),
        inner = .call "sample" [.call "exponential" [.number 1]] ∧
        outer = .call "sample" [.call "normal" [inner, .number 2]] ∧
        i = ⟨[.assignment "x" outer,
          .call "observe" [.var "x", .call "normal" [.number 0, .number 1]]], .empty⟩ ∧
        (i.run g).1 = .ok result :=
    ⟨_, _, _, .cycle 1 #[], _, rfl, rfl, rfl, rfl⟩
  generalize hrun : Interpreter.run _ g = out at hr
  obtain ⟨outcome, i', g'⟩ := out
  obtain rfl : outcome = .ok result := hr
  obtain ⟨es, vs, -, ht, hd, hu, -, ho, -⟩ := (trace_of_run _ g).1 result i' g' hrun
  exact ⟨_, _, _, i', g, g', result, rfl, rfl, rfl, hrun, es, ht, hd, hu, ho⟩

end Posterior
