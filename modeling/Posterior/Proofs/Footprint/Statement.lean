import Posterior.Proofs.Footprint
import Posterior.Proofs.Replay.Run

/-!
What the evaluation of a statement leaves alone, whether it yields a value or fails. Only the last act of an
assignment binds anything, so that a statement that fails has bound nothing, though what it scored and drew
stays.
-/

set_option autoImplicit false

namespace Posterior

open Node Step Grammar

section Trees

variable {α : Type}

namespace Node

inductive IsFlat : Node α → Prop where
  | call {name : String} {args : List (Node α)}
      (h : ∀ a ∈ args, ∀ c, Within c a → c.isAssignment = false) : IsFlat (.call name args)
  | assignment {name : String} {expr : Node α} (h : ∀ c, Within c expr → c.isAssignment = false) :
      IsFlat (.assignment name expr)

/-- The least footprint that covers a tree. -/
def footprint (n : Node α) : Footprint where
  reads name := Within (.var name) n
  assigns := ∃ c, Within c n ∧ c.isAssignment = true
  scores := ∃ c, Within c n ∧ c.isObserveCall = true
  draws := ∃ c, Within c n ∧ c.isSampleCall = true

theorem covers_footprint (n : Node α) : n.footprint.Covers n where
  reads _ hw := hw
  assigns c hw hc := ⟨c, hw, hc⟩
  scores c hw hc := ⟨c, hw, hc⟩
  draws c hw hc := ⟨c, hw, hc⟩

theorem not_exists_within {n : Node α} {p : Node α → Bool} (h : ∀ c, Within c n → p c = false) :
    ¬∃ c, Within c n ∧ p c = true := by
  rintro ⟨c, hw, hc⟩
  rw [h c hw] at hc
  cases hc

/-- What a statement has bound when it ends: an assignment that yields a number has bound its name to it. -/
def writes : Node α → Except (Halt α) (Value α) → List (String × α)
  | .assignment name _, .ok (.number x) => [(name, x)]
  | _, _ => []

theorem writes_error (n : Node α) (halt : Halt α) : n.writes (.error halt) = [] := by
  cases n <;> rfl

end Node

theorem Machine.Agrees.child {n c : Node α} {m m' : Machine α} (h : m.Agrees n.footprint m')
    (hc : c ∈ n.children) : m.Agrees c.footprint m' where
  bindings name hw := h.bindings name (.child hc hw)
  generator := fun ⟨b, hw, hb⟩ => h.generator ⟨b, .child hc hw, hb⟩

structure Course.IsOf (n : Node α) (c : Course α (Value α)) : Prop extends c.Fits n.footprint where
  writes_eq : c.writes = n.writes c.outcome
  number : n.isAssignment = true → ∀ v, c.outcome = .ok v → ∃ x, v = .number x

theorem Course.IsOf.error {β : Type} {n : Node α} {c : Course α β} (hc : c.Fits n.footprint) (halt : Halt α) :
    Course.IsOf n ⟨.error halt, [], c.observed, c.drawn⟩ where
  writes _ := rfl
  observed := hc.observed
  drawn := hc.drawn
  writes_eq := (writes_error n halt).symm
  number := nofun

variable [Arithmetic α]

theorem Grammar.Derives.isFlat {ts : List (Token α)} {n : Node α} (h : Derives .statement ts n) :
    n.IsFlat := by
  have hbelow := h.isAssignment_eq_false.1
  cases h with
  | callStatement h =>
    cases h with
    | call => exact .call hbelow
  | assignment => exact .assignment (hbelow _ List.mem_cons_self)

theorem Grammar.Program.isFlat {ts : List (Token α)} {ns : List (Node α)} (h : Program ts ns) :
    ∀ n ∈ ns, n.IsFlat := by
  induction h with
  | nil => exact nofun
  | cons h _ ih => exact List.forall_mem_cons.mpr ⟨h.isFlat, ih⟩

end Trees

variable {α β : Type} [Arithmetic α]

theorem Interpreter.perform_eq {i : Interpreter α} {g : Generator α} {step : Eval α β}
    {c : Course α β} (h : step ⟨i.store, g⟩ = c.take ⟨i.store, g⟩) :
    i.perform g step =
      (c.outcome, { i with store := (c.leave ⟨i.store, g⟩).store },
        (c.leave ⟨i.store, g⟩).generator) := by
  unfold Interpreter.perform
  rw [h, Course.take]
  cases c.outcome <;> rfl

section Assignments

variable {expr : Node α}

theorem exists_course_of_assigned (name : String) (hn : ∀ c, Within c expr → c.isAssignment = false) (levels : Nat)
    (m : Machine α) :
    ∃ c : Course α α, c.Fits (Node.assignment name expr).footprint ∧ c.writes = [] ∧
      ∀ m', m.Agrees (Node.assignment name expr).footprint m' →
        (evaluate levels expr >>= Eval.number (.assigned name)) m' = c.take m' := by
  have hexpr := (keepsTo_evaluate levels (covers_footprint expr)).bind
    fun v => keepsTo_number _ (.assigned name) v
  obtain ⟨c, hc, hk⟩ := hexpr m
  have hmem : expr ∈ (Node.assignment name expr).children := List.mem_cons_self
  refine ⟨c, ⟨fun hf => absurd ⟨_, .root, rfl⟩ hf, fun hf => hc.observed ?_, fun hf => hc.drawn ?_⟩,
    hc.writes (not_exists_within hn), fun m' hm => hk m' (hm.child hmem)⟩
  · exact fun ⟨b, hw, hb⟩ => hf ⟨b, .child hmem hw, hb⟩
  · exact fun ⟨b, hw, hb⟩ => hf ⟨b, .child hmem hw, hb⟩

theorem exists_course_of_assignment (name : String) (hn : ∀ c, Within c expr → c.isAssignment = false) (levels : Nat)
    (m : Machine α) :
    ∃ c : Course α (Value α), c.IsOf (.assignment name expr) ∧
      ∀ m', m.Agrees (Node.assignment name expr).footprint m' →
        evaluate (levels + 1) (.assignment name expr) m' = c.take m' := by
  obtain ⟨c, hc, hquiet, hk⟩ := exists_course_of_assigned name hn levels m
  have hstep : evaluate (levels + 1) (.assignment name expr) =
      (evaluate levels expr >>= Eval.number (.assigned name)) >>= fun x =>
        Eval.assign name x >>= fun _ => pure (.number x) := by rw [evaluate, bind_assoc]
  cases ho : c.outcome with
  | error halt =>
    refine ⟨⟨.error halt, [], c.observed, c.drawn⟩, .error hc halt, fun m' hm => ?_⟩
    have herror : (evaluate levels expr >>= Eval.number (.assigned name)) m' = .error halt (c.leave m') := by
      rw [hk m' hm, Course.take, ho]
    rw [hstep, bind_error herror, Course.leave, hquiet]
    rfl
  | ok x =>
    refine ⟨⟨.ok (.number x), [(name, x)], c.observed, c.drawn⟩,
      ⟨⟨fun hf => absurd ⟨_, .root, rfl⟩ hf, hc.observed, hc.drawn⟩, rfl, ?_⟩, fun m' hm => ?_⟩
    · rintro - v ⟨⟩
      exact ⟨x, rfl⟩
    · have hok : (evaluate levels expr >>= Eval.number (.assigned name)) m' = .ok x (c.leave m') := by
        rw [hk m' hm, Course.take, ho]
      rw [hstep, bind_ok hok, Course.leave, hquiet]
      rfl

end Assignments

theorem exists_course_of_statement {n : Node α} (hn : n.IsFlat) (levels : Nat) (m : Machine α) :
    ∃ c : Course α (Value α), c.IsOf n ∧
      ∀ m', m.Agrees n.footprint m' → evaluate levels n m' = c.take m' := by
  cases hn with
  | call h =>
    obtain ⟨c, hc, hk⟩ := keepsTo_evaluate levels (covers_footprint _) m
    refine ⟨c, ⟨hc, hc.writes (not_exists_within fun b hw => ?_), nofun⟩, hk⟩
    cases hw with
    | root => rfl
    | child ha hw => exact h _ ha b hw
  | @assignment name expr h =>
    cases levels with
    | zero =>
      refine ⟨.still (.error .tooDeep), ⟨Course.fits_still _ _, rfl, nofun⟩, fun m' _ => ?_⟩
      rw [Course.take, Course.leave_still]
      rfl
    | succ levels => exact exists_course_of_assignment name h levels m

structure Framed (n : Node α) (outcome : Except (Halt α) (Value α)) (m m' : Machine α) : Prop where
  recorded : m.store.observations <+: m'.store.observations
  /-- A call binds nothing, and neither does a statement that fails. -/
  unbound : (∃ name args, n = .call name args) ∨ (∃ halt, outcome = .error halt) →
    m'.store.bindings = m.store.bindings
  /-- An assignment binds its name to the number it yields. -/
  bound : ∀ name expr v, n = .assignment name expr → outcome = .ok v →
    ∃ x, v = .number x ∧ m'.store.bindings = m.store.bindings.set name x
  unscored : (∀ c, Within c n → c.isObserveCall = false) →
    m'.store.totalLogProb = m.store.totalLogProb ∧ m'.store.observations = m.store.observations
  undrawn : (∀ c, Within c n → c.isSampleCall = false) → m'.generator = m.generator

theorem Course.IsOf.framed {n : Node α} {c : Course α (Value α)} (h : c.IsOf n) (m : Machine α) :
    Framed n c.outcome m (c.leave m) where
  recorded := List.prefix_append _ _
  unbound := by
    intro hn
    have hw : c.writes = [] := by
      rcases hn with ⟨name, args, rfl⟩ | ⟨halt, ho⟩
      · exact h.writes_eq
      · rw [h.writes_eq, ho, writes_error]
    rw [Course.leave, hw]
    rfl
  bound := by
    rintro name expr v rfl ho
    obtain ⟨x, rfl⟩ := h.number rfl v ho
    have hw : c.writes = [(name, x)] := by
      rw [h.writes_eq, ho]
      rfl
    refine ⟨x, rfl, ?_⟩
    rw [Course.leave, hw]
    rfl
  unscored := by
    intro hn
    rw [Course.leave, h.observed (not_exists_within hn)]
    exact ⟨rfl, List.append_nil _⟩
  undrawn := by
    intro hn
    rw [Course.leave, h.drawn (not_exists_within hn)]
    rfl

/-- However a statement of a parsed program ends, it leaves alone what the text of it does not name. What it
yields, records and draws depends on the variables in it and on the generator, and on nothing else. -/
theorem framed_of_evaluate {ts : List (Token Float)} {ns : List (Node Float)} {n : Node Float}
    (hp : parse ts = .program ns) (hn : n ∈ ns) (i : Interpreter Float) (g : Generator Float) :
    Framed n (i.evaluate g n).1 ⟨i.store, g⟩ ⟨(i.evaluate g n).2.1.store, (i.evaluate g n).2.2⟩ ∧
      ∀ j : Interpreter Float,
        (∀ name, Within (.var name) n → j.store.bindings.get? name = i.store.bindings.get? name) →
        (j.evaluate g n).1 = (i.evaluate g n).1 ∧ (j.evaluate g n).2.2 = (i.evaluate g n).2.2 ∧
          ∃ os, (i.evaluate g n).2.1.store.observations = i.store.observations ++ os ∧
            (j.evaluate g n).2.1.store.observations = j.store.observations ++ os := by
  have hflat := (eq_program_of_parse hp).isFlat n hn
  obtain ⟨c, hc, hk⟩ := exists_course_of_statement hflat maxDepth ⟨i.store, g⟩
  have hi := Interpreter.perform_eq (hk _ (Machine.Agrees.refl _ _))
  refine ⟨?_, fun j hj => ?_⟩
  · rw [Interpreter.evaluate, hi]
    exact hc.framed ⟨i.store, g⟩
  · have hagree : Machine.Agrees n.footprint ⟨i.store, g⟩ ⟨j.store, g⟩ := ⟨hj, fun _ => rfl⟩
    rw [Interpreter.evaluate, Interpreter.evaluate, hi, Interpreter.perform_eq (hk _ hagree)]
    exact ⟨rfl, rfl, c.observed, rfl, rfl⟩

/-- A product whose first factor scores and whose second one is not bound, in two stores with the same `y`. -/
theorem framed_of_unbound_factor :
    ∃ (ts : List (Token Float)) (n : Node Float) (i j : Interpreter Float) (g : Generator Float),
      n = .assignment "x" (.binary "*"
        (.call "observe" [.var "y", .call "normal" [.number 0, .number 1]]) (.var "z")) ∧
      parse ts = .program [n] ∧ i.store.bindings = [("y", 1)] ∧ j.store.bindings = [("x", 2), ("y", 1)] ∧
      (i.evaluate g n).1 = .error (.failure (.undefinedVariable "z")) ∧
      (i.evaluate g n).2.1.store.bindings = [("y", 1)] ∧ (i.evaluate g n).2.2 = g ∧
      (i.evaluate g n).2.1.store.observations ≠ i.store.observations ∧
      (j.evaluate g n).1 = (i.evaluate g n).1 := by
  let ts : List (Token Float) :=
    [⟨.mark .identifier "x", 0⟩, ⟨.mark .equal "=", 2⟩, ⟨.mark .identifier "observe", 4⟩,
      ⟨.mark .leftParen "(", 11⟩, ⟨.mark .identifier "y", 12⟩, ⟨.mark .comma ",", 13⟩,
      ⟨.mark .identifier "normal", 15⟩, ⟨.mark .leftParen "(", 21⟩, ⟨.number 0, 22⟩,
      ⟨.mark .comma ",", 23⟩, ⟨.number 1, 25⟩, ⟨.mark .rightParen ")", 26⟩,
      ⟨.mark .rightParen ")", 27⟩, ⟨.mark .star "*", 29⟩, ⟨.mark .identifier "z", 31⟩, ⟨.eof, 32⟩]
  let n : Node Float := .assignment "x" (.binary "*"
    (.call "observe" [.var "y", .call "normal" [.number 0, .number 1]]) (.var "z"))
  let i : Interpreter Float := ⟨[n], ⟨[("y", 1)], 0, []⟩⟩
  let j : Interpreter Float := ⟨[n], ⟨[("x", 2), ("y", 1)], 5, [⟨1, .normal, 5⟩]⟩⟩
  let g : Generator Float := .cycle 1 #[]
  have hp : parse ts = .program [n] := rfl
  have hvars : ∀ name, Within (.var name) n → name = "y" ∨ name = "z" := by
    intro name hw
    obtain ⟨v, hv, hvar⟩ := hw.exists_visit 0
    have hnames : ∀ w ∈ n.walk 0, ∀ name, w.node = .var name → name = "y" ∨ name = "z" := by
      simp [n, walk, walkAll]
    exact hnames v hv name hvar
  have hj : ∀ name, Within (.var name) n → j.store.bindings.get? name = i.store.bindings.get? name := by
    intro name hw
    rcases hvars name hw with rfl | rfl <;> rfl
  have hout : (i.evaluate g n).1 = .error (.failure (.undefinedVariable "z")) := rfl
  obtain ⟨hframe, hsame⟩ := framed_of_evaluate hp List.mem_cons_self i g
  have hquiet : ∀ c, Within c n → c.isSampleCall = false := by
    intro c hw
    obtain ⟨v, hv, rfl⟩ := hw.exists_visit 0
    exact (show ∀ w ∈ n.walk 0, w.node.isSampleCall = false by decide) v hv
  refine ⟨ts, n, i, j, g, rfl, hp, rfl, rfl, hout, hframe.unbound (.inr ⟨_, hout⟩),
    hframe.undrawn hquiet, fun h => ?_, (hsame j hj).1⟩
  cases h

end Posterior
