import Posterior.Proofs.Trace.Run

/-!
Evaluation and the relation that describes it agree. A tree yields a value exactly where it performs it and
has no more levels than are allowed, and a run returns exactly what its statements perform.
-/

set_option autoImplicit false

namespace Posterior

open Node Step

section

variable {α : Type}

/-- A tree of at most so many levels. -/
def Node.FitsIn : (levels : Nat) → Node α → Prop
  | 0, _ => False
  | levels + 1, n => ∀ c ∈ n.children, c.FitsIn levels

theorem Callee.ofName?_family (f : Family) : Callee.ofName? f.name = some (.family f) := by
  cases f <;> rfl

theorem exists_of_evaluateNumbers {evaluate : Node α → Eval α (Value α)} {role : Role}
    {ns : List (Node α)} {m m' : Machine α} {xs : List α}
    (h : evaluateNumbers evaluate role ns m = .ok xs m') :
    ∀ c ∈ ns, ∃ m₁ w m₂, evaluate c m₁ = .ok w m₂ := by
  induction ns generalizing m m' xs with
  | nil => exact nofun
  | cons n ns ih =>
    rw [evaluateNumbers] at h
    obtain ⟨w, m₁, hn, h⟩ := exists_of_bind_ok h
    obtain ⟨x, m₂, -, h⟩ := exists_of_bind_ok h
    obtain ⟨ys, m₃, hs, -⟩ := exists_of_bind_ok h
    exact List.forall_mem_cons.mpr ⟨⟨m, w, m₁, hn⟩, ih hs⟩

end

variable {α : Type} [Arithmetic α] {n : Node α} {ns : List (Node α)} {m m' : Machine α}
  {es : List (Effect α)} {v : Value α} {vs : List (Value α)}

theorem Performs.exists_cons (h : Performs (n :: ns) m es vs m') :
    ∃ es₁ es₂ v ws m₁, vs = v :: ws ∧ Performs [n] m es₁ [v] m₁ ∧ Performs ns m₁ es₂ ws m' := by
  cases h with
  | cons hc ha hs => exact ⟨_, _, _, _, _, rfl, .cons hc ha (.nil _), hs⟩

theorem Performs.exists_acts (h : Performs [n] m es [v] m') :
    ∃ es₁ fs ws m₁, Performs n.children m es₁ ws m₁ ∧ Acts n ws m₁ fs v m' := by
  cases h with
  | cons hc ha hs =>
    cases hs
    exact ⟨_, _, _, _, hc, ha⟩

theorem Performs.eq_nil (h : Performs ns m es [] m') : ns = [] ∧ m = m' := by
  cases h
  exact ⟨rfl, rfl⟩

theorem Performs.exists_of_value (h : Performs ns m es (v :: vs) m') :
    ∃ n ms es₁ es₂ m₁, ns = n :: ms ∧ Performs [n] m es₁ [v] m₁ ∧ Performs ms m₁ es₂ vs m' := by
  cases h with
  | cons hc ha hs => exact ⟨_, _, _, _, _, rfl, .cons hc ha (.nil _), hs⟩

theorem Performs.exists_singleton (h : Performs ns m es [v] m') :
    ∃ n es₁, ns = [n] ∧ Performs [n] m es₁ [v] m' := by
  obtain ⟨n, ms, es₁, es₂, m₁, rfl, hn, hs⟩ := h.exists_of_value
  obtain ⟨rfl, rfl⟩ := hs.eq_nil
  exact ⟨n, es₁, rfl, hn⟩

theorem Performs.exists_pair {w : Value α} (h : Performs ns m es [v, w] m') :
    ∃ left right es₁ es₂ m₁, ns = [left, right] ∧ Performs [left] m es₁ [v] m₁ ∧
      Performs [right] m₁ es₂ [w] m' := by
  obtain ⟨left, ms, es₁, es₂, m₁, rfl, hl, hs⟩ := h.exists_of_value
  obtain ⟨right, es₃, rfl, hr⟩ := hs.exists_singleton
  exact ⟨left, right, es₁, es₃, m₁, rfl, hl, hr⟩

def Follows (e : Eval α (Value α)) (n : Node α) : Prop :=
  ∀ m es v m', Performs [n] m es [v] m' → e m = .ok v m'

section Following

variable {β : Type} {e : Eval α (Value α)} {m₁ : Machine α}

theorem Follows.bind_number {x : α} (h : Follows e n) (hp : Performs [n] m es [.number x] m₁)
    (role : Role) (f : α → Eval α β) : (e >>= fun v => Eval.number role v >>= f) m = f x m₁ := by
  rw [bind_ok (h _ _ _ _ hp)]
  exact bind_ok rfl

theorem Follows.bind_distribution {d : Distribution α} (h : Follows e n)
    (hp : Performs [n] m es [.distribution d] m₁) (function : String)
    (f : Distribution α → Eval α β) :
    (e >>= fun v => Eval.distribution function v >>= f) m = f d m₁ := by
  rw [bind_ok (h _ _ _ _ hp)]
  exact bind_ok rfl

end Following

theorem evaluateNumbers_of_performs {evaluate : Node α → Eval α (Value α)} {role : Role} {xs : List α}
    (he : ∀ n ∈ ns, Follows (evaluate n) n) (h : Performs ns m es (xs.map .number) m') :
    evaluateNumbers evaluate role ns m = .ok xs m' := by
  induction ns generalizing xs m es with
  | nil =>
    generalize hv : xs.map Value.number = vs at h
    cases h
    rw [List.map_eq_nil_iff.mp hv]
    rfl
  | cons n ns ih =>
    obtain ⟨es₁, es₂, v, ws, m₁, hv, hn, hs⟩ := h.exists_cons
    obtain ⟨x, ys, rfl, rfl, rfl⟩ := List.map_eq_cons_iff.mp hv
    rw [evaluateNumbers, (he n List.mem_cons_self).bind_number hn]
    rw [bind_ok (ih (fun a ha => he a (List.mem_cons_of_mem n ha)) hs)]
    rfl

theorem follows_call {evaluate : Node α → Eval α (Value α)} {name : String} {args : List (Node α)}
    (he : ∀ a ∈ args, Follows (evaluate a) a) :
    Follows (evaluateCall evaluate name args) (.call name args) := by
  intro m es v m' h
  obtain ⟨es₁, fs, ws, m₁, hc, ha⟩ := h.exists_acts
  change Performs args m es₁ ws m₁ at hc
  cases ha with
  | @sample _ d _ hd =>
    obtain ⟨source, es₂, rfl, hs⟩ := hc.exists_singleton
    have hsample : Eval.sample d m₁ = .ok (d.sample (m₁.generator.stream m₁.generator.used))
        { m₁ with generator := { m₁.generator with used := m₁.generator.used + 1 } } := by
      unfold Eval.sample Generator.sample
      rw [if_pos hd]
      rfl
    change (evaluate source >>= fun v => Eval.distribution "sample" v >>= fun d =>
      Eval.sample d >>= fun x => pure (Value.number x)) m = _
    rw [(he source List.mem_cons_self).bind_distribution hs, bind_ok hsample]
    rfl
  | observe _ x d =>
    obtain ⟨point, source, es₂, es₃, m₂, rfl, hp, hs⟩ := hc.exists_pair
    change (evaluate point >>= fun v => Eval.number .observed v >>= fun x =>
      evaluate source >>= fun v => Eval.distribution "observe" v >>= fun d =>
      Eval.observe x d >>= fun y => pure (Value.number y)) m = _
    rw [(he point (by simp)).bind_number hp, (he source (by simp)).bind_distribution hs]
    rfl
  | @family f _ params d _ hd =>
    simp only [evaluateCall, Callee.ofName?_family]
    rw [bind_ok (evaluateNumbers_of_performs he hc), hd]
    rfl
  | @math _ f _ x _ hf =>
    obtain ⟨arg, es₂, rfl, hx⟩ := hc.exists_singleton
    simp only [evaluateCall, hf]
    rw [(he arg List.mem_cons_self).bind_number hx]
    rfl

/-- What a tree performs is what evaluation yields, with levels enough. -/
theorem follows_evaluate {levels : Nat} (hf : n.FitsIn levels) : Follows (evaluate levels n) n := by
  induction levels generalizing n with
  | zero => exact hf.elim
  | succ levels ih =>
    have hchild : ∀ c ∈ n.children, Follows (evaluate levels c) c := fun c hc => ih (hf c hc)
    intro m es v m' h
    cases n with
    | call name args => exact follows_call hchild m es v m' h
    | number x =>
      obtain ⟨es₁, fs, ws, m₁, hc, ha⟩ := h.exists_acts
      cases ha
      obtain ⟨-, rfl⟩ := hc.eq_nil
      rfl
    | var name =>
      obtain ⟨es₁, fs, ws, m₁, hc, ha⟩ := h.exists_acts
      cases ha with
      | @var _ x _ hx =>
        obtain ⟨-, rfl⟩ := hc.eq_nil
        have hl : Eval.lookup name m = .ok x m := by rw [Eval.lookup_eq, hx]
        exact bind_ok hl
    | binary op left right =>
      obtain ⟨es₁, fs, ws, m₁, hc, ha⟩ := h.exists_acts
      cases ha with
      | @binary _ _ _ x y z _ hz =>
        obtain ⟨_, _, es₂, es₃, m₂, ⟨⟩, hl, hr⟩ := hc.exists_pair
        rw [evaluate, (hchild left (by simp [children])).bind_number hl,
          (hchild right (by simp [children])).bind_number hr, bind_ok hz]
        rfl
    | assignment name expr =>
      obtain ⟨es₁, fs, ws, m₁, hc, ha⟩ := h.exists_acts
      cases ha with
      | assignment _ _ x =>
        obtain ⟨_, es₂, ⟨⟩, hx⟩ := hc.exists_singleton
        rw [evaluate, (hchild expr (by simp [children])).bind_number hx]
        rfl
    | program | error | stray =>
      obtain ⟨es₁, fs, ws, m₁, hc, ha⟩ := h.exists_acts
      cases ha

theorem exists_of_evaluateCall {evaluate : Node α → Eval α (Value α)} {name : String}
    {args : List (Node α)} (h : evaluateCall evaluate name args m = .ok v m') :
    ∀ a ∈ args, ∃ m₁ w m₂, evaluate a m₁ = .ok w m₂ := by
  cases hc : Callee.ofName? name with
  | none =>
    simp only [evaluateCall, hc] at h
    cases h
  | some c =>
    cases c with
    | sample =>
      simp only [evaluateCall, hc] at h
      split at h
      · next source =>
        obtain ⟨w, m₁, hs, -⟩ := exists_of_bind_ok h
        exact List.forall_mem_singleton.mpr ⟨m, w, m₁, hs⟩
      · cases h
    | observe =>
      simp only [evaluateCall, hc] at h
      split at h
      · next point source =>
        obtain ⟨w, m₁, hp, h⟩ := exists_of_bind_ok h
        obtain ⟨x, m₂, -, h⟩ := exists_of_bind_ok h
        obtain ⟨w', m₃, hs, -⟩ := exists_of_bind_ok h
        exact List.forall_mem_cons.mpr
          ⟨⟨m, w, m₁, hp⟩, List.forall_mem_singleton.mpr ⟨m₂, w', m₃, hs⟩⟩
      · cases h
    | family f =>
      simp only [evaluateCall, hc] at h
      obtain ⟨params, m₁, hs, -⟩ := exists_of_bind_ok h
      exact exists_of_evaluateNumbers hs
    | math f =>
      simp only [evaluateCall, hc] at h
      split at h
      · next arg =>
        obtain ⟨w, m₁, hs, -⟩ := exists_of_bind_ok h
        exact List.forall_mem_singleton.mpr ⟨m, w, m₁, hs⟩
      · cases h

theorem fitsIn_of_evaluate {levels : Nat} (h : evaluate levels n m = .ok v m') : n.FitsIn levels := by
  induction levels generalizing n m v m' with
  | zero => cases h
  | succ levels ih =>
    have hchild : ∀ c ∈ n.children, ∃ m₁ w m₂, evaluate levels c m₁ = .ok w m₂ := by
      cases n with
      | number | var => exact fun c hc => nomatch hc
      | program | error | stray => cases h
      | binary op left right =>
        rw [evaluate] at h
        obtain ⟨w, m₁, hl, h⟩ := exists_of_bind_ok h
        obtain ⟨x, m₂, -, h⟩ := exists_of_bind_ok h
        obtain ⟨w', m₃, hr, -⟩ := exists_of_bind_ok h
        exact List.forall_mem_cons.mpr ⟨⟨m, w, m₁, hl⟩, List.forall_mem_singleton.mpr ⟨m₂, w', m₃, hr⟩⟩
      | call name args => exact exists_of_evaluateCall h
      | assignment name expr =>
        rw [evaluate] at h
        obtain ⟨w, m₁, hx, -⟩ := exists_of_bind_ok h
        exact List.forall_mem_singleton.mpr ⟨m, w, m₁, hx⟩
    intro c hc
    obtain ⟨m₁, w, m₂, hw⟩ := hchild c hc
    exact ih hw

theorem evaluate_eq_ok_iff {levels : Nat} :
    evaluate levels n m = .ok v m' ↔ n.FitsIn levels ∧ ∃ es, Performs [n] m es [v] m' := by
  constructor
  · intro h
    have ht := traces_evaluate levels n m
    unfold Leaves at ht
    rw [h] at ht
    exact ⟨fitsIn_of_evaluate h, ht⟩
  · rintro ⟨hf, es, hp⟩
    exact follows_evaluate hf m es v m' hp

theorem evaluateAll_eq_ok_iff {last r : Option (Value α)} :
    evaluateAll last ns m = .ok r m' ↔
      (∀ n ∈ ns, n.FitsIn maxDepth) ∧ ∃ es vs, Performs ns m es vs m' ∧ r = vs.getLast?.or last := by
  induction ns generalizing last r m with
  | nil =>
    constructor
    · intro h
      cases h
      exact ⟨fun n hn => absurd hn List.not_mem_nil, [], [], .nil _, rfl⟩
    · rintro ⟨-, es, vs, hp, rfl⟩
      cases hp
      rfl
  | cons n ns ih =>
    have hlast (v : Value α) (ws : List (Value α)) :
        (v :: ws).getLast?.or last = ws.getLast?.or (some v) := by
      rw [List.getLast?_cons]
      cases ws.getLast? <;> rfl
    rw [evaluateAll]
    constructor
    · intro h
      obtain ⟨v, m₁, hn, hs⟩ := exists_of_bind_ok h
      obtain ⟨hf, es₁, hp⟩ := evaluate_eq_ok_iff.mp hn
      obtain ⟨hfs, es₂, ws, hps, rfl⟩ := ih.mp hs
      exact ⟨List.forall_mem_cons.mpr ⟨hf, hfs⟩, _, v :: ws, hp.append hps, (hlast v ws).symm⟩
    · rintro ⟨hf, es, vs, hp, rfl⟩
      obtain ⟨hf, hfs⟩ := List.forall_mem_cons.mp hf
      obtain ⟨es₁, es₂, v, ws, m₁, rfl, hn, hs⟩ := hp.exists_cons
      rw [bind_ok (evaluate_eq_ok_iff.mpr ⟨hf, es₁, hn⟩), hlast]
      exact ih.mpr ⟨hfs, es₂, ws, hs, rfl⟩

def Result.ofRun (vs : List (Value α)) (s : Store α) : Result α :=
  ⟨vs.getLast?, s.bindings, s.totalLogProb, s.observations⟩

theorem run_eq_ok_iff {i i' : Interpreter α} {g g' : Generator α} {result : Result α} :
    i.run g = (.ok result, i', g') ↔
      (∀ n ∈ i.statements, n.FitsIn maxDepth) ∧ i'.statements = i.statements ∧
        ∃ es vs, Performs i.statements ⟨i.store, g⟩ es vs ⟨i'.store, g'⟩ ∧
          result = .ofRun vs i'.store := by
  unfold Interpreter.run Interpreter.perform
  constructor
  · intro h
    split at h
    · next value m hr =>
      obtain ⟨r, m₁, hall, hr⟩ := exists_of_bind_ok hr
      obtain ⟨hf, es, vs, hp, rfl⟩ := evaluateAll_eq_ok_iff.mp hall
      cases hr
      cases h
      exact ⟨hf, rfl, es, vs, hp, by rw [Result.ofRun, Option.or_none]⟩
    · cases h
  · rintro ⟨hf, hi, es, vs, hp, rfl⟩
    have hall : evaluateAll none i.statements ⟨i.store, g⟩ = .ok vs.getLast? ⟨i'.store, g'⟩ :=
      evaluateAll_eq_ok_iff.mpr ⟨hf, es, vs, hp, Option.or_none.symm⟩
    have hrun : Interpreter.runProgram i.statements ⟨i.store, g⟩ =
        .ok (.ofRun vs i'.store) ⟨i'.store, g'⟩ := by
      unfold Interpreter.runProgram
      rw [bind_ok hall]
      rfl
    rw [hrun, ← hi]

end Posterior
