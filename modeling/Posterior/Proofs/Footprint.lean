import Posterior.Proofs.Replay
import Posterior.Proofs.Trace.Run

/-!
What evaluation looks at and what it changes. A footprint says which variables are looked up and whether
anything is bound, scored or drawn. A step that keeps to it takes the same course from any two machines that
are alike where the footprint looks, whether it ends in a value or fails.
-/

set_option autoImplicit false

namespace Posterior

open Node Step

variable {α β γ : Type}

structure Footprint where
  reads : String → Prop
  assigns : Prop
  scores : Prop
  draws : Prop

/-- What a step does: how it ends, what it has bound and recorded by then, and how many draws it has
taken. -/
structure Course (α β : Type) where
  outcome : Except (Halt α) β
  writes : List (String × α)
  observed : List (Observation α)
  drawn : Nat

namespace Bindings

def setAll (b : Bindings α) (ws : List (String × α)) : Bindings α :=
  ws.foldl (fun b w => b.set w.1 w.2) b

theorem setAll_append (b : Bindings α) (ws us : List (String × α)) :
    b.setAll (ws ++ us) = (b.setAll ws).setAll us := List.foldl_append

/-- What a name is bound to behind some bindings depends on nothing but what it was bound to before. -/
theorem get?_setAll_congr {b b' : Bindings α} {name : String} (h : b'.get? name = b.get? name)
    (ws : List (String × α)) : (b'.setAll ws).get? name = (b.setAll ws).get? name := by
  induction ws generalizing b b' with
  | nil => exact h
  | cons w ws ih =>
    have hset : (b'.set w.1 w.2).get? name = (b.set w.1 w.2).get? name := by
      by_cases hw : name = w.1
      · rw [hw, get?_set_self, get?_set_self]
      · rw [get?_set_of_ne b w.2 hw, get?_set_of_ne b' w.2 hw, h]
    exact ih hset

theorem get?_setAll_of_notMem (b : Bindings α) {name : String} {ws : List (String × α)}
    (h : ∀ w ∈ ws, name ≠ w.1) : (b.setAll ws).get? name = b.get? name := by
  induction ws generalizing b with
  | nil => rfl
  | cons w ws ih =>
    obtain ⟨hw, hws⟩ := List.forall_mem_cons.mp h
    exact (ih (b.set w.1 w.2) hws).trans (get?_set_of_ne b w.2 hw)

end Bindings

namespace Course

structure Fits (f : Footprint) (c : Course α β) : Prop where
  writes : ¬f.assigns → c.writes = []
  observed : ¬f.scores → c.observed = []
  drawn : ¬f.draws → c.drawn = 0

def still (outcome : Except (Halt α) β) : Course α β := ⟨outcome, [], [], 0⟩

theorem fits_still (f : Footprint) (outcome : Except (Halt α) β) : (still outcome).Fits f :=
  ⟨fun _ => rfl, fun _ => rfl, fun _ => rfl⟩

def andThen (c : Course α β) (c' : Course α γ) : Course α γ where
  outcome := c'.outcome
  writes := c.writes ++ c'.writes
  observed := c.observed ++ c'.observed
  drawn := c.drawn + c'.drawn

theorem Fits.andThen {f : Footprint} {c : Course α β} {c' : Course α γ} (h : c.Fits f)
    (h' : c'.Fits f) : (c.andThen c').Fits f where
  writes hf := by rw [Course.andThen, h.writes hf, h'.writes hf]; rfl
  observed hf := by rw [Course.andThen, h.observed hf, h'.observed hf]; rfl
  drawn hf := by rw [Course.andThen, h.drawn hf, h'.drawn hf]

end Course

structure Machine.Agrees (f : Footprint) (m m' : Machine α) : Prop where
  bindings : ∀ name, f.reads name → m'.store.bindings.get? name = m.store.bindings.get? name
  generator : f.draws → m'.generator = m.generator

theorem Machine.Agrees.refl (f : Footprint) (m : Machine α) : m.Agrees f m :=
  ⟨fun _ _ => rfl, fun _ => rfl⟩

variable [Arithmetic α]

namespace Course

def leave (c : Course α β) (m : Machine α) : Machine α where
  store :=
    { bindings := m.store.bindings.setAll c.writes
      totalLogProb := c.observed.foldl (fun t o => t + o.logProb) m.store.totalLogProb
      observations := m.store.observations ++ c.observed }
  generator := { m.generator with used := m.generator.used + c.drawn }

def take (c : Course α β) : Eval α β := fun m =>
  match c.outcome with
  | .ok b => .ok b (c.leave m)
  | .error halt => .error halt (c.leave m)

theorem leave_still (outcome : Except (Halt α) β) (m : Machine α) :
    (still outcome).leave m = m := by
  simp [leave, still, Bindings.setAll]

theorem leave_andThen (c : Course α β) (c' : Course α γ) (m : Machine α) :
    (c.andThen c').leave m = c'.leave (c.leave m) := by
  simp [leave, andThen, Bindings.setAll_append, Nat.add_assoc]

end Course

theorem Machine.Agrees.leave {f : Footprint} {m m' : Machine α} (h : m.Agrees f m')
    (c : Course α β) : (c.leave m).Agrees f (c.leave m') where
  bindings name hr := Bindings.get?_setAll_congr (h.bindings name hr) c.writes
  generator hd := by rw [Course.leave, Course.leave, h.generator hd]

/-- A step does nothing but what a footprint lets it, and looks nowhere else. -/
def KeepsTo (f : Footprint) (e : Eval α β) : Prop :=
  ∀ m : Machine α, ∃ c : Course α β, c.Fits f ∧ ∀ m', m.Agrees f m' → e m' = c.take m'

section Steps

variable (f : Footprint)

theorem keepsTo_pure (b : β) : KeepsTo f (pure b : Eval α β) := by
  refine fun m => ⟨.still (.ok b), Course.fits_still f _, fun m' _ => ?_⟩
  change EStateM.Result.ok b m' = .ok b ((Course.still (.ok b)).leave m')
  rw [Course.leave_still]

theorem keepsTo_throw (halt : Halt α) : KeepsTo f (throw halt : Eval α β) := by
  refine fun m => ⟨.still (.error halt), Course.fits_still f _, fun m' _ => ?_⟩
  change EStateM.Result.error halt m' = .error halt ((Course.still (.error halt)).leave m')
  rw [Course.leave_still]

theorem keepsTo_number (role : Role) (v : Value α) : KeepsTo f (Eval.number role v) := by
  cases v with
  | number x => exact keepsTo_pure f x
  | distribution d => exact keepsTo_throw f _

theorem keepsTo_distribution (function : String) (v : Value α) :
    KeepsTo f (Eval.distribution function v) := by
  cases v with
  | number x => exact keepsTo_throw f _
  | distribution d => exact keepsTo_pure f d

theorem keepsTo_operate (op : String) (x y : α) : KeepsTo f (operate op x y) := by
  rcases operate_cases op x y with ⟨z, hz⟩ | ⟨failure, hz⟩
  · rw [hz]
    exact keepsTo_pure f z
  · rw [hz]
    exact keepsTo_throw f _

variable {f}

theorem KeepsTo.bind {e : Eval α β} {next : β → Eval α γ} (he : KeepsTo f e)
    (hn : ∀ b, KeepsTo f (next b)) : KeepsTo f (e >>= next) := by
  intro m
  obtain ⟨c, hc, h⟩ := he m
  cases ho : c.outcome with
  | error halt =>
    refine ⟨⟨.error halt, c.writes, c.observed, c.drawn⟩, ⟨hc.writes, hc.observed, hc.drawn⟩,
      fun m' hm => bind_error ?_⟩
    rw [h m' hm, Course.take, ho]
    rfl
  | ok b =>
    obtain ⟨c', hc', h'⟩ := hn b (c.leave m)
    refine ⟨c.andThen c', hc.andThen hc', fun m' hm => ?_⟩
    have hfirst : e m' = .ok b (c.leave m') := by rw [h m' hm, Course.take, ho]
    rw [bind_ok hfirst, h' _ (hm.leave c)]
    unfold Course.take
    rw [Course.leave_andThen]
    rfl

theorem keepsTo_lookup {name : String} (h : f.reads name) :
    KeepsTo f (Eval.lookup name : Eval α α) := by
  intro m
  cases hx : m.store.bindings.get? name with
  | some x =>
    obtain ⟨c, hc, hk⟩ := keepsTo_pure (α := α) f x m
    refine ⟨c, hc, fun m' hm => ?_⟩
    rw [Eval.lookup_eq, hm.bindings name h, hx]
    exact hk m' hm
  | none =>
    obtain ⟨c, hc, hk⟩ := keepsTo_throw (β := α) f (.failure (.undefinedVariable name)) m
    refine ⟨c, hc, fun m' hm => ?_⟩
    rw [Eval.lookup_eq, hm.bindings name h, hx]
    exact hk m' hm

theorem keepsTo_assign (h : f.assigns) (name : String) (x : α) : KeepsTo f (Eval.assign name x) := by
  refine fun m => ⟨⟨.ok (), [(name, x)], [], 0⟩, ⟨absurd h, fun _ => rfl, fun _ => rfl⟩, fun m' _ => ?_⟩
  change EStateM.Result.ok () _ = .ok () _
  simp [Course.leave, Store.assign, Bindings.setAll]

theorem keepsTo_observe (h : f.scores) (x : α) (d : Distribution α) :
    KeepsTo f (Eval.observe x d) :=
  fun _ => ⟨⟨.ok (d.logProb x), [], [⟨x, d.family, d.logProb x⟩], 0⟩,
    ⟨fun _ => rfl, absurd h, fun _ => rfl⟩, fun _ _ => rfl⟩

theorem keepsTo_sample (h : f.draws) (d : Distribution α) : KeepsTo f (Eval.sample d) := by
  intro m
  by_cases hd : d.canSample = true
  · refine ⟨⟨.ok (d.sample m.generator.next.1), [], [], 1⟩, ⟨fun _ => rfl, fun _ => rfl, absurd h⟩,
      fun m' hm => ?_⟩
    simp [Eval.sample, Generator.sample, hd, Course.take, Course.leave, hm.generator h,
      Generator.next, Bindings.setAll]
  · refine ⟨.still (.error .overflow), Course.fits_still f _, fun m' _ => ?_⟩
    simp [Eval.sample, Generator.sample, hd, Course.take, Course.still, Course.leave, Bindings.setAll]

end Steps

section Trees

variable {f : Footprint}

theorem keepsTo_numbers {evaluate : Node α → Eval α (Value α)} (role : Role) {ns : List (Node α)}
    (h : ∀ n ∈ ns, KeepsTo f (evaluate n)) :
    KeepsTo f (evaluateNumbers evaluate role ns) := by
  induction ns with
  | nil => exact keepsTo_pure f []
  | cons n ns ih =>
    rw [evaluateNumbers]
    refine (h n List.mem_cons_self).bind fun v => (keepsTo_number f role v).bind fun x => ?_
    exact (ih fun a ha => h a (List.mem_cons_of_mem n ha)).bind fun xs => keepsTo_pure f _

theorem keepsTo_call {evaluate : Node α → Eval α (Value α)} {name : String} {args : List (Node α)}
    (hs : name = "sample" → f.draws) (ho : name = "observe" → f.scores)
    (h : ∀ a ∈ args, KeepsTo f (evaluate a)) :
    KeepsTo f (evaluateCall evaluate name args) := by
  cases hc : Callee.ofName? name with
  | none =>
    simp only [evaluateCall, hc]
    exact keepsTo_throw f _
  | some c =>
    cases c with
    | sample =>
      simp only [evaluateCall, hc]
      split
      · next source =>
        refine (h source (by simp)).bind fun v => (keepsTo_distribution f name v).bind fun d => ?_
        exact (keepsTo_sample (hs (Callee.name_of_sample hc)) d).bind fun x => keepsTo_pure f _
      · exact keepsTo_throw f _
    | observe =>
      simp only [evaluateCall, hc]
      split
      · next point source =>
        refine (h point (by simp)).bind fun v => (keepsTo_number f _ v).bind fun x => ?_
        refine (h source (by simp)).bind fun w => (keepsTo_distribution f name w).bind fun d => ?_
        exact (keepsTo_observe (ho (Callee.name_of_observe hc)) x d).bind fun y => keepsTo_pure f _
      · exact keepsTo_throw f _
    | family fam =>
      simp only [evaluateCall, hc]
      refine (keepsTo_numbers _ h).bind fun params => ?_
      split
      · exact keepsTo_pure f _
      · exact keepsTo_throw f _
    | math fn =>
      simp only [evaluateCall, hc]
      split
      · next arg =>
        refine (h arg (by simp)).bind fun v => (keepsTo_number f _ v).bind fun x => ?_
        exact keepsTo_pure f _
      · exact keepsTo_throw f _

omit [Arithmetic α] in
structure Footprint.Covers (f : Footprint) (n : Node α) : Prop where
  reads : ∀ name, Within (.var name) n → f.reads name
  assigns : ∀ c, Within c n → c.isAssignment = true → f.assigns
  scores : ∀ c, Within c n → c.isObserveCall = true → f.scores
  draws : ∀ c, Within c n → c.isSampleCall = true → f.draws

omit [Arithmetic α] in
theorem Footprint.Covers.child {n c : Node α} (h : f.Covers n) (hc : c ∈ n.children) : f.Covers c where
  reads name hw := h.reads name (.child hc hw)
  assigns b hw := h.assigns b (.child hc hw)
  scores b hw := h.scores b (.child hc hw)
  draws b hw := h.draws b (.child hc hw)

/-- Evaluation keeps to what the nodes of a tree let it do. -/
theorem keepsTo_evaluate (levels : Nat) {n : Node α} (hn : f.Covers n) :
    KeepsTo f (evaluate levels n) := by
  induction levels generalizing n with
  | zero => exact keepsTo_throw f _
  | succ levels ih =>
    have hchild : ∀ c ∈ n.children, KeepsTo f (evaluate levels c) := fun c hc => ih (hn.child hc)
    cases n with
    | number x => exact keepsTo_pure f _
    | var name => exact (keepsTo_lookup (hn.reads name .root)).bind fun x => keepsTo_pure f _
    | binary op left right =>
      rw [evaluate]
      refine (hchild left (by simp [children])).bind fun v => (keepsTo_number f _ v).bind fun x => ?_
      refine (hchild right (by simp [children])).bind fun w => (keepsTo_number f _ w).bind fun y => ?_
      exact (keepsTo_operate f op x y).bind fun z => keepsTo_pure f _
    | call name args =>
      refine keepsTo_call (fun hname => hn.draws _ .root ?_) (fun hname => hn.scores _ .root ?_) hchild
      · rw [hname]
        rfl
      · rw [hname]
        rfl
    | assignment name expr =>
      rw [evaluate]
      refine (hchild expr (by simp [children])).bind fun v => (keepsTo_number f _ v).bind fun x => ?_
      exact (keepsTo_assign (hn.assigns _ .root rfl) name x).bind fun _ => keepsTo_pure f _
    | program | error | stray => exact keepsTo_throw f _

theorem keepsTo_evaluateAll {ns : List (Node α)} (last : Option (Value α))
    (hn : ∀ n ∈ ns, f.Covers n) : KeepsTo f (evaluateAll last ns) := by
  induction ns generalizing last with
  | nil => exact keepsTo_pure f last
  | cons n ns ih =>
    rw [evaluateAll]
    exact (keepsTo_evaluate maxDepth (hn n List.mem_cons_self)).bind fun v =>
      ih (some v) fun a ha => hn a (List.mem_cons_of_mem n ha)

end Trees

end Posterior
