import Posterior.Proofs.Grammar
import Posterior.Proofs.Spelling

set_option autoImplicit false

namespace Posterior

open Grammar Node

variable {α : Type}

def Carries (ts : List (Token α)) (ss : List (Symbol α)) : Prop := ts.map Token.symbol = ss

theorem Carries.exists_append {ts : List (Token α)} {ss rest : List (Symbol α)}
    (h : Carries ts (ss ++ rest)) : ∃ us vs, ts = us ++ vs ∧ Carries us ss ∧ Carries vs rest :=
  List.map_eq_append_iff.mp h

theorem Carries.exists_cons {ts : List (Token α)} {s : Symbol α} {ss : List (Symbol α)}
    (h : Carries ts (s :: ss)) : ∃ position us, ts = ⟨s, position⟩ :: us ∧ Carries us ss := by
  obtain ⟨⟨s', position⟩, us, rfl, rfl, hu⟩ := List.map_eq_cons_iff.mp h
  exact ⟨position, us, rfl, hu⟩

theorem Carries.eq_nil {ts : List (Token α)} (h : Carries ts []) : ts = [] :=
  List.map_eq_nil_iff.mp h

theorem mem_sums_or_products {op : String} (h : op ∈ operators) :
    (op ∈ sums ∧ operatorMark op ∈ [Mark.plus, Mark.minus]) ∨
      (op ∉ sums ∧ operatorMark op ∈ [Mark.star, Mark.slash]) := by
  simp only [operators, List.mem_cons, List.not_mem_nil, or_false] at h
  rcases h with rfl | rfl | rfl | rfl <;> decide

variable [Arithmetic α]

/-- The levels at which the tokens of a tree derive it. -/
structure DerivesSpelled (n : Node α) : Prop where
  expression {ts : List (Token α)} (h : Carries ts n.spell) : Derives .expression ts n
  term {ts : List (Token α)} (hs : n.isSum = false) (h : Carries ts n.spell) : Derives .term ts n
  factor {ts : List (Token α)} (hs : n.isSum = false) (hp : n.isProduct = false)
    (h : Carries ts n.spell) : Derives .factor ts n

namespace DerivesSpelled

variable {n : Node α}

theorem of_factor (h : ∀ {ts}, Carries ts n.spell → Derives .factor ts n) : DerivesSpelled n where
  expression hc := .term (.factor (h hc))
  term _ hc := .factor (h hc)
  factor _ _ hc := h hc

theorem group (hn : DerivesSpelled n) {ts : List (Token α)} (h : Carries ts (enclose true n.spell)) :
    Derives .factor ts n := by
  obtain ⟨i, us, rfl, hu⟩ := h.exists_cons
  obtain ⟨vs, ws, rfl, hv, hw⟩ := hu.exists_append
  obtain ⟨j, rest, rfl, hrest⟩ := hw.exists_cons
  rw [hrest.eq_nil]
  exact .group (hn.expression hv)

theorem enclosed_term (hn : DerivesSpelled n) {ts : List (Token α)} {needed : Bool}
    (hs : needed = false → n.isSum = false) (h : Carries ts (enclose needed n.spell)) :
    Derives .term ts n := by
  cases needed with
  | true => exact .factor (hn.group h)
  | false => exact hn.term (hs rfl) h

theorem enclosed_factor (hn : DerivesSpelled n) {ts : List (Token α)} {needed : Bool}
    (hs : needed = false → n.isSum = false ∧ n.isProduct = false)
    (h : Carries ts (enclose needed n.spell)) : Derives .factor ts n := by
  cases needed with
  | true => exact hn.group h
  | false => exact hn.factor (hs rfl).1 (hs rfl).2 h

end DerivesSpelled

theorem derivesSpelled_binary {op : String} {l r : Node α} (ho : op ∈ operators)
    (hl : DerivesSpelled l) (hr : DerivesSpelled r) : DerivesSpelled (.binary op l r) := by
  have hsplit {ts : List (Token α)} (h : Carries ts (Node.binary op l r).spell) :
      ∃ us position vs, ts = us ++ ⟨.mark (operatorMark op) op, position⟩ :: vs ∧
        Carries us (enclose (op ∉ sums && l.isSum) l.spell) ∧
        Carries vs (enclose (r.isSum || op ∉ sums && r.isProduct) r.spell) := by
    rw [spell] at h
    obtain ⟨us, ws, rfl, hu, hw⟩ := h.exists_append
    obtain ⟨position, vs, rfl, hv⟩ := hw.exists_cons
    exact ⟨us, position, vs, rfl, hu, hv⟩
  rcases mem_sums_or_products ho with ⟨hop, hm⟩ | ⟨hop, hm⟩
  · have hsum : (Node.binary op l r).isSum = true := by simp [isSum, hop]
    exact {
      expression := by
        intro ts h
        obtain ⟨us, position, vs, rfl, hu, hv⟩ := hsplit h
        simp only [hop, not_true_eq_false, decide_false, Bool.false_and, Bool.or_false] at hu hv
        exact .sum hm (hl.expression hu) (hr.enclosed_term id hv)
      term := fun hs => by rw [hsum] at hs; cases hs
      factor := fun hs => by rw [hsum] at hs; cases hs }
  · have hproduct : (Node.binary op l r).isProduct = true := by simp [isProduct, hop]
    have hterm {ts : List (Token α)} (h : Carries ts (Node.binary op l r).spell) :
        Derives .term ts (.binary op l r) := by
      obtain ⟨us, position, vs, rfl, hu, hv⟩ := hsplit h
      simp only [hop, not_false_eq_true, decide_true, Bool.true_and] at hu hv
      refine .product hm (hl.enclosed_term id hu) (hr.enclosed_factor (fun hn => ?_) hv)
      simpa using hn
    exact {
      expression := fun h => .term (hterm h)
      term := fun _ h => hterm h
      factor := fun _ hp => by rw [hproduct] at hp; cases hp }

theorem exists_led {ns : List (Node α)} (hn : ∀ n ∈ ns, DerivesSpelled n) {ts : List (Token α)}
    (h : Carries ts (spellRest ns)) :
    ∃ args : List (List (Token α) × Node α), args.map Prod.snd = ns ∧ Led (args.map Prod.fst) ts ∧
      ∀ a ∈ args, Derives .expression a.1 a.2 := by
  induction ns generalizing ts with
  | nil =>
    rw [h.eq_nil]
    exact ⟨[], rfl, .nil, by simp⟩
  | cons n ns ih =>
    obtain ⟨position, us, rfl, hu⟩ := h.exists_cons
    obtain ⟨vs, ws, rfl, hv, hw⟩ := hu.exists_append
    obtain ⟨args, rfl, hled, hargs⟩ := ih (fun a ha => hn a (List.mem_cons_of_mem n ha)) hw
    refine ⟨(vs, n) :: args, rfl, .cons "," position hled, ?_⟩
    exact List.forall_mem_cons.mpr ⟨(hn n List.mem_cons_self).expression hv, hargs⟩

theorem exists_separated {ns : List (Node α)} (hn : ∀ n ∈ ns, DerivesSpelled n) {ts : List (Token α)}
    (h : Carries ts (spellList ns)) :
    ∃ args : List (List (Token α) × Node α), args.map Prod.snd = ns ∧
      Separated (args.map Prod.fst) ts ∧ ∀ a ∈ args, Derives .expression a.1 a.2 := by
  cases ns with
  | nil =>
    rw [h.eq_nil]
    exact ⟨[], rfl, .none, by simp⟩
  | cons n ns =>
    obtain ⟨vs, ws, rfl, hv, hw⟩ := h.exists_append
    obtain ⟨args, rfl, hled, hargs⟩ := exists_led (fun a ha => hn a (List.mem_cons_of_mem n ha)) hw
    refine ⟨(vs, n) :: args, rfl, .some hled, ?_⟩
    exact List.forall_mem_cons.mpr ⟨(hn n List.mem_cons_self).expression hv, hargs⟩

theorem derives_call {name : String} {args : List (Node α)} (ha : ∀ a ∈ args, DerivesSpelled a)
    {ts : List (Token α)} (h : Carries ts (Node.call name args).spell) :
    Derives .call ts (.call name args) := by
  rw [spell] at h
  obtain ⟨i, us, rfl, hu⟩ := h.exists_cons
  obtain ⟨j, vs, rfl, hv⟩ := hu.exists_cons
  obtain ⟨ws, xs, rfl, hw, hx⟩ := hv.exists_append
  obtain ⟨k, rest, rfl, hrest⟩ := hx.exists_cons
  obtain ⟨runs, rfl, hs, hd⟩ := exists_separated ha hw
  rw [hrest.eq_nil]
  exact .call runs hs hd

variable {valid : String → Prop}

theorem derivesSpelled {n : Node α} (hn : n.IsExpression valid) : DerivesSpelled n := by
  induction hn with
  | number value =>
    refine .of_factor fun h => ?_
    obtain ⟨position, rest, rfl, hrest⟩ := h.exists_cons
    rw [hrest.eq_nil]
    exact .number value position
  | @var name _ =>
    refine .of_factor fun h => ?_
    obtain ⟨position, rest, rfl, hrest⟩ := h.exists_cons
    rw [hrest.eq_nil]
    exact .name name position
  | binary ho _ _ ihl ihr => exact derivesSpelled_binary ho ihl ihr
  | call _ _ ih => exact .of_factor fun h => .application (derives_call ih h)

theorem derives_statement {n : Node α} (hn : n.IsStatement valid) {ts : List (Token α)}
    (h : Carries ts n.spell) : Derives .statement ts n := by
  cases hn with
  | assignment _ he =>
    obtain ⟨i, us, rfl, hu⟩ := h.exists_cons
    obtain ⟨j, vs, rfl, hv⟩ := hu.exists_cons
    exact .assignment ((derivesSpelled he).expression hv)
  | call he =>
    cases he with
    | call _ ha => exact .callStatement (derives_call (fun a h => derivesSpelled (ha a h)) h)

theorem program_spellAll {ns : List (Node α)} (hn : ∀ n ∈ ns, n.IsStatement valid)
    {ts : List (Token α)} (h : Carries ts (spellAll ns)) : Program ts ns := by
  induction ns generalizing ts with
  | nil =>
    rw [h.eq_nil]
    exact .nil
  | cons n ns ih =>
    rw [spellAll, List.flatMap_cons] at h
    obtain ⟨us, vs, rfl, hu, hv⟩ := h.exists_append
    exact .cons (derives_statement (hn n List.mem_cons_self) hu)
      (ih (fun a ha => hn a (List.mem_cons_of_mem n ha)) hv)

end Posterior
