import Posterior.Proofs.Checking
import Posterior.Step

set_option autoImplicit false

namespace Posterior

open Node Step

variable {α β : Type} {bound : List String}

def Machine.Binds (m : Machine α) (bound : List String) : Prop :=
  ∀ name, name ∈ m.store.bindings.names ↔ name ∈ bound

theorem ends_lookup {name : String} {m : Machine α} (hm : m.Binds bound) :
    Ends (Eval.lookup name) m (fun _ m' => name ∈ bound ∧ m'.Binds bound) (fun _ => name ∉ bound) := by
  have hb : name ∈ bound ↔ ∃ x, m.store.bindings.get? name = some x :=
    (hm name).symm.trans (Bindings.mem_names _ name)
  unfold Ends
  rw [Eval.lookup_eq]
  cases hx : m.store.bindings.get? name with
  | some x => exact ⟨hb.mpr ⟨x, hx⟩, hm⟩
  | none =>
    intro hn
    obtain ⟨x, hx'⟩ := hb.mp hn
    rw [hx] at hx'
    cases hx'

variable [Arithmetic α]

/-- A value as an expression of its kind gives it: a distribution is one of the family called, with nothing
wrong with its parameters. -/
inductive Value.Stands (n : Node α) : Value α → Prop where
  | number {x : α} (hk : n.valueKind = .number) : Stands n (.number x)
  | distribution {d : Distribution α} {args : List (Node α)} (hn : n = .call d.family.name args)
      (hk : n.valueKind = .distribution) (hf : d.family.fault? d.params = none) :
      Stands n (.distribution d)

def Checks (bound : List String) (e : Eval α (Value α)) (n : Node α) : Prop :=
  ∀ m, m.Binds bound → Ends e m
    (fun v m' => n.Checked bound ∧ v.Stands n ∧ m'.Binds bound)
    (fun halt => n.Checked bound → OutOfRange n halt)

section

variable {n : Node α} {e : Eval α (Value α)} {m : Machine α} {ok : β → Machine α → Prop}
  {bad : Halt α → Prop}

theorem Checks.bind_number {role : Role} {f : α → Eval α β} (h : Checks bound e n)
    (hm : m.Binds bound)
    (hf : ∀ x m', n.Checked bound → n.valueKind = .number → m'.Binds bound → Ends (f x) m' ok bad)
    (hb : ∀ halt, (n.Checked bound → n.valueKind = .number → OutOfRange n halt) → bad halt) :
    Ends (e >>= fun v => Eval.number role v >>= f) m ok bad := by
  refine (h m hm).bind (fun v m' hv => ?_) fun halt hh => hb halt fun hc _ => hh hc
  obtain ⟨hc, hs, hm'⟩ := hv
  cases hs with
  | number hk => exact hf _ m' hc hk hm'
  | distribution _ hk _ =>
    refine hb _ fun _ hk' => ?_
    rw [hk] at hk'
    cases hk'

theorem Checks.bind_distribution {function : String} {f : Distribution α → Eval α β}
    (h : Checks bound e n) (hm : m.Binds bound)
    (hf : ∀ d args m', n.Checked bound → n.valueKind = .distribution → n = .call d.family.name args →
      d.family.fault? d.params = none → m'.Binds bound → Ends (f d) m' ok bad)
    (hb : ∀ halt, (n.Checked bound → n.valueKind = .distribution → OutOfRange n halt) → bad halt) :
    Ends (e >>= fun v => Eval.distribution function v >>= f) m ok bad := by
  refine (h m hm).bind (fun v m' hv => ?_) fun halt hh => hb halt fun hc _ => hh hc
  obtain ⟨hc, hs, hm'⟩ := hv
  cases hs with
  | number hk =>
    refine hb _ fun _ hk' => ?_
    rw [hk] at hk'
    cases hk'
  | distribution hn hk hd => exact hf _ _ m' hc hk hn hd hm'

end

theorem checks_numbers {evaluate : Node α → Eval α (Value α)} {role : Role} {ns : List (Node α)}
    {m : Machine α} (h : ∀ n ∈ ns, Checks bound (evaluate n) n) (hm : m.Binds bound) :
    Ends (evaluateNumbers evaluate role ns) m
      (fun xs m' => xs.length = ns.length ∧
        (∀ n ∈ ns, n.Checked bound ∧ n.valueKind = .number) ∧ m'.Binds bound)
      (fun halt => (∀ n ∈ ns, n.Checked bound ∧ n.valueKind = .number) →
        ∃ n ∈ ns, OutOfRange n halt) := by
  induction ns generalizing m with
  | nil => exact ⟨rfl, by simp, hm⟩
  | cons n ns ih =>
    rw [evaluateNumbers]
    refine (h n List.mem_cons_self).bind_number hm (fun x m' hc hk hm' => ?_) fun halt hh hall => ?_
    · have hrest := ih (fun a ha => h a (List.mem_cons_of_mem n ha)) hm'
      refine hrest.bind (fun xs m'' hxs => ?_) fun halt hh hall => ?_
      · obtain ⟨hl, hns, hm''⟩ := hxs
        refine ⟨congrArg (· + 1) hl, ?_, hm''⟩
        rintro a (_ | ⟨_, ha⟩)
        · exact ⟨hc, hk⟩
        · exact hns a ha
      · obtain ⟨a, ha, hr⟩ := hh fun a ha => hall a (List.mem_cons_of_mem n ha)
        exact ⟨a, List.mem_cons_of_mem n ha, hr⟩
    · have hn := hall n List.mem_cons_self
      exact ⟨n, List.mem_cons_self, hh hn.1 hn.2⟩

theorem exists_of_sample_none {d : Distribution α} {g g' : Generator α}
    (h : g.sample d = (none, g')) :
    ∃ low high, d = .uniform low high ∧ Arithmetic.isFinite (high - low) = false := by
  unfold Generator.sample at h
  split at h
  · cases h
  · next hs =>
    cases d with
    | uniform low high => exact ⟨low, high, rfl, by simpa [Distribution.canSample] using hs⟩
    | normal | bernoulli | exponential => exact absurd rfl hs

section

variable {evaluate : Node α → Eval α (Value α)} {name : String} {args : List (Node α)}

theorem ends_argumentCount {c : Callee} {m : Machine α} {ok : Value α → Machine α → Prop} {k : Nat}
    (hc : Callee.ofName? name = some c) (hl : args.length ≠ c.argumentKinds.length) :
    Ends (Eval.fail (.argumentCount name k args.length)) m ok
      (fun halt => (Node.call name args).Checked bound → OutOfRange (.call name args) halt) :=
  fun hw => absurd (hw.length_args hc) hl

theorem checks_sample (hc : Callee.ofName? name = some .sample)
    (h : ∀ a ∈ args, Checks bound (evaluate a) a) :
    Checks bound (evaluateCall evaluate name args) (.call name args) := by
  intro m hm
  simp only [evaluateCall, hc]
  rcases args with _ | ⟨source, _ | ⟨extra, rest⟩⟩
  · exact ends_argumentCount hc (by simp [Callee.argumentKinds])
  · have hs := h source (List.mem_singleton_self source)
    have hw : (Node.call name [source]).Checked bound ↔
        source.Checked bound ∧ source.valueKind = .distribution := by
      simp [checked_call hc, Callee.argumentKinds]
    refine hs.bind_distribution hm (fun d args m' hcs hk hn hd hm' => ?_) fun halt hh hcall => ?_
    · have hsample : Ends (Eval.sample d) m' (fun _ m'' => m''.Binds bound)
          (fun halt => OutOfRange (.call name [source]) halt) := by
        unfold Ends Eval.sample
        rcases hg : m'.generator.sample d with ⟨_ | x, g⟩
        · obtain ⟨low, high, rfl, hi⟩ := exists_of_sample_none hg
          rw [hn, Callee.name_of_sample hc]
          exact .width .root hd hi
        · exact hm'
      refine hsample.bind (fun x m'' hm'' => ?_) fun halt hh _ => hh
      exact ⟨hw.mpr ⟨hcs, hk⟩, .number (valueKind_call hc), hm''⟩
    · obtain ⟨hcs, hk⟩ := hw.mp hcall
      exact (hh hcs hk).child (List.mem_singleton_self source)
  · exact ends_argumentCount hc (by simp [Callee.argumentKinds])

theorem checks_observe (hc : Callee.ofName? name = some .observe)
    (h : ∀ a ∈ args, Checks bound (evaluate a) a) :
    Checks bound (evaluateCall evaluate name args) (.call name args) := by
  intro m hm
  simp only [evaluateCall, hc]
  rcases args with _ | ⟨point, _ | ⟨source, _ | ⟨extra, rest⟩⟩⟩
  · exact ends_argumentCount hc (by simp [Callee.argumentKinds])
  · exact ends_argumentCount hc (by simp [Callee.argumentKinds])
  · have hp := h point (by simp)
    have hs := h source (by simp)
    have hw : (Node.call name [point, source]).Checked bound ↔
        (point.Checked bound ∧ point.valueKind = .number) ∧
          (source.Checked bound ∧ source.valueKind = .distribution) := by
      simp only [checked_call hc, Callee.argumentKinds, List.forall_mem_cons, List.map_cons,
        List.map_nil, List.cons.injEq, List.not_mem_nil, false_implies, implies_true, and_true]
      exact and_and_and_comm
    refine hp.bind_number hm (fun x m' hcp hkp hm' => ?_) fun halt hh hcall => ?_
    · refine hs.bind_distribution hm' (fun d args m'' hcs hks hn hd hm'' => ?_) fun halt hh hcall => ?_
      · exact ⟨hw.mpr ⟨⟨hcp, hkp⟩, ⟨hcs, hks⟩⟩, .number (valueKind_call hc), hm''⟩
      · obtain ⟨-, hcs, hks⟩ := hw.mp hcall
        exact (hh hcs hks).child (by simp [children])
    · obtain ⟨⟨hcp, hkp⟩, -⟩ := hw.mp hcall
      exact (hh hcp hkp).child (by simp [children])
  · exact ends_argumentCount hc (by simp [Callee.argumentKinds])

theorem checks_math {f : MathFunction} (hc : Callee.ofName? name = some (.math f))
    (h : ∀ a ∈ args, Checks bound (evaluate a) a) :
    Checks bound (evaluateCall evaluate name args) (.call name args) := by
  intro m hm
  simp only [evaluateCall, hc]
  rcases args with _ | ⟨arg, _ | ⟨extra, rest⟩⟩
  · exact ends_argumentCount hc (by simp [Callee.argumentKinds])
  · have ha := h arg (List.mem_singleton_self arg)
    have hw : (Node.call name [arg]).Checked bound ↔ arg.Checked bound ∧ arg.valueKind = .number := by
      simp [checked_call hc, Callee.argumentKinds]
    refine ha.bind_number hm (fun x m' hca hk hm' => ?_) fun halt hh hcall => ?_
    · exact ⟨hw.mpr ⟨hca, hk⟩, .number (valueKind_call hc), hm'⟩
    · obtain ⟨hca, hk⟩ := hw.mp hcall
      exact (hh hca hk).child (List.mem_singleton_self arg)
  · exact ends_argumentCount hc (by simp [Callee.argumentKinds])

theorem checks_family {f : Family} (hc : Callee.ofName? name = some (.family f))
    (h : ∀ a ∈ args, Checks bound (evaluate a) a) :
    Checks bound (evaluateCall evaluate name args) (.call name args) := by
  intro m hm
  obtain rfl := Callee.name_of_family hc
  simp only [evaluateCall, hc]
  have hw : (Node.call f.name args).Checked bound ↔
      (∀ a ∈ args, a.Checked bound ∧ a.valueKind = .number) ∧ args.length = f.arity := by
    simp only [checked_call hc, Callee.argumentKinds, List.eq_replicate_iff, List.length_map,
      List.forall_mem_map]
    constructor
    · rintro ⟨ha, hl, hk⟩
      exact ⟨fun a h => ⟨ha a h, hk a h⟩, hl⟩
    · rintro ⟨ha, hl⟩
      exact ⟨fun a h => (ha a h).1, hl, fun a h => (ha a h).2⟩
  refine (checks_numbers h hm).bind (fun params m' hp => ?_) fun halt hh hcall => ?_
  · obtain ⟨hl, hargs, hm'⟩ := hp
    rcases f.make_cases params with ⟨d, hd, hf, rfl, hfault⟩ | ⟨fault, hd, hfault⟩
    · rw [hd]
      subst hf
      have hn : args.length = d.family.arity := hl.symm.trans (Family.length_of_fault? hfault)
      exact ⟨hw.mpr ⟨hargs, hn⟩, .distribution rfl (valueKind_call hc) hfault, hm'⟩
    · rw [hd]
      intro hcall
      have hn := (hw.mp hcall).2
      exact .parameters .root hn (hl.trans hn) hfault
  · obtain ⟨a, ha, hr⟩ := hh (hw.mp hcall).1
    exact hr.child ha

theorem checks_call (h : ∀ a ∈ args, Checks bound (evaluate a) a) :
    Checks bound (evaluateCall evaluate name args) (.call name args) := by
  cases hc : Callee.ofName? name with
  | none =>
    intro m _
    simp only [evaluateCall, hc]
    exact fun hw => absurd hw (not_checked_call hc)
  | some c =>
    cases c with
    | sample => exact checks_sample hc h
    | observe => exact checks_observe hc h
    | family f => exact checks_family hc h
    | math f => exact checks_math hc h

end

theorem operate_eq {op : String} (h : op ∈ operators) (x y : α) : ∃ z, operate op x y = pure z := by
  simp only [operators, List.mem_cons, List.not_mem_nil, or_false] at h
  rcases h with rfl | rfl | rfl | rfl <;> exact ⟨_, rfl⟩

/-- With levels for every node below it, an expression is checked as it is evaluated. -/
theorem checks_evaluate {valid : String → Prop} {levels depth : Nat} {n : Node α}
    (hn : n.IsExpression valid) (hd : ∀ v ∈ n.walk depth, v.depth < depth + levels) :
    Checks bound (evaluate levels n) n := by
  induction levels generalizing n depth with
  | zero =>
    rw [walk_eq] at hd
    exact absurd (hd _ List.mem_cons_self) (Nat.lt_irrefl depth)
  | succ levels ih =>
    have hchild : ∀ c ∈ n.children, ∀ v ∈ c.walk (depth + 1), v.depth < depth + 1 + levels := by
      intro c hc v hv
      rw [walk_eq] at hd
      have hlt := hd v (List.mem_cons_of_mem _ (List.mem_flatMap.mpr ⟨c, hc, hv⟩))
      omega
    cases hn with
    | number value => exact fun m hm => ⟨.number value, .number rfl, hm⟩
    | @var name _ =>
      intro m hm
      refine (ends_lookup hm).bind (fun x m' hx => ?_) fun halt hh hw => ?_
      · exact ⟨.var hx.1, .number rfl, hx.2⟩
      · exact absurd (checked_var.mp hw) hh
    | @binary op left right ho hl hr =>
      intro m hm
      have hcl : Checks bound (evaluate levels left) left := ih hl (hchild left (by simp [children]))
      have hcr : Checks bound (evaluate levels right) right := ih hr (hchild right (by simp [children]))
      refine hcl.bind_number hm (fun x m' hl' kl hm' => ?_) fun halt hh hw => ?_
      · refine hcr.bind_number hm' (fun y m'' hr' kr hm'' => ?_) fun halt hh hw => ?_
        · obtain ⟨z, hz⟩ := operate_eq ho x y
          rw [hz]
          exact ⟨.binary hl' hr' kl kr, .number rfl, hm''⟩
        · obtain ⟨-, hr', kr⟩ := checked_binary.mp hw
          exact (hh hr' kr).child (by simp [children])
      · obtain ⟨⟨hl', kl⟩, -⟩ := checked_binary.mp hw
        exact (hh hl' kl).child (by simp [children])
    | @call name args _ ha => exact checks_call fun a h => ih (ha a h) (hchild a h)

end Posterior
