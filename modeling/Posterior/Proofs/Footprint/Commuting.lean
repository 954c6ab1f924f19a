import Posterior.Proofs.Concatenation
import Posterior.Proofs.Footprint.Statement

/-!
Assignments that change places. Each finds what it reads as if the other one had not been there: the variables
because neither reads what the other binds, the generator because one of them takes no draw. What they leave
differs in nothing but the order of the two names.
-/

set_option autoImplicit false

namespace Posterior

open Node

section Trees

variable {α : Type}

/-- Of two assignments neither reads what the other one binds, and no more than one draws, nor does more than
one score. -/
structure Independent (x : String) (d : Node α) (y : String) (e : Node α) : Prop where
  apart : x ≠ y
  unread : ¬Within (.var x) e
  unread' : ¬Within (.var y) d
  draws : (∀ c, Within c d → c.isSampleCall = false) ∨ ∀ c, Within c e → c.isSampleCall = false
  scores : (∀ c, Within c d → c.isObserveCall = false) ∨ ∀ c, Within c e → c.isObserveCall = false

theorem Independent.symm {x y : String} {d e : Node α} (h : Independent x d y e) :
    Independent y e x d :=
  ⟨h.apart.symm, h.unread', h.unread, h.draws.symm, h.scores.symm⟩

structure Machine.Matches (m m' : Machine α) : Prop where
  bindings : ∀ name, m'.store.bindings.get? name = m.store.bindings.get? name
  totalLogProb : m'.store.totalLogProb = m.store.totalLogProb
  observations : m'.store.observations = m.store.observations
  generator : m'.generator = m.generator

inductive Alike (same : Prop) :
    EStateM.Result (Halt α) (Machine α) (Option (Value α)) →
      EStateM.Result (Halt α) (Machine α) (Option (Value α)) → Prop where
  | error (halt halt' : Halt α) (m m' : Machine α) : Alike same (.error halt m) (.error halt' m')
  | ok {last last' : Option (Value α)} {m m' : Machine α} (hm : m.Matches m')
      (hl : same → last' = last) : Alike same (.ok last m) (.ok last' m')

theorem Node.Within.eq_or_of_assignment {x : String} {d c : Node α}
    (h : Within c (.assignment x d)) : c = .assignment x d ∨ Within c d := by
  cases h with
  | root => exact .inl rfl
  | child hd hw =>
    obtain rfl := List.mem_singleton.mp hd
    exact .inr hw

theorem Node.not_exists_within_assignment {x : String} {d : Node α} {p : Node α → Bool}
    (hx : p (.assignment x d) = false) (hd : ∀ c, Within c d → p c = false) :
    ¬∃ c, Within c (.assignment x d) ∧ p c = true := by
  refine not_exists_within fun c hw => ?_
  rcases hw.eq_or_of_assignment with rfl | hw
  · exact hx
  · exact hd c hw

theorem Course.IsOf.ne_of_mem_writes {x : String} {d : Node α} {c : Course α (Value α)}
    (h : c.IsOf (.assignment x d)) {name : String} (hn : name ≠ x) : ∀ w ∈ c.writes, name ≠ w.1 := by
  rw [h.writes_eq]
  intro w hw
  cases ho : c.outcome with
  | error halt =>
    rw [ho] at hw
    cases hw
  | ok v =>
    rw [ho] at hw
    cases v with
    | distribution => cases hw
    | number z =>
      obtain rfl := List.mem_singleton.mp hw
      exact hn

end Trees

variable {α : Type} [Arithmetic α]

section Matching

variable {m m' : Machine α}

theorem Machine.Matches.leave {β : Type} (h : m.Matches m') (c : Course α β) :
    (c.leave m).Matches (c.leave m') where
  bindings name := Bindings.get?_setAll_congr (h.bindings name) c.writes
  totalLogProb := by rw [Course.leave, Course.leave, h.totalLogProb]
  observations := by rw [Course.leave, Course.leave, h.observations]
  generator := by rw [Course.leave, Course.leave, h.generator]

theorem Machine.Matches.evaluateAll (h : m.Matches m') (same : Prop) (last : Option (Value α))
    (ns : List (Node α)) : Alike same (evaluateAll last ns m) (evaluateAll last ns m') := by
  let whole : Footprint := ⟨fun _ => True, True, True, True⟩
  have hcovers : ∀ n ∈ ns, whole.Covers n := fun _ _ =>
    ⟨fun _ _ => trivial, fun _ _ _ => trivial, fun _ _ _ => trivial, fun _ _ _ => trivial⟩
  obtain ⟨c, -, hc⟩ := keepsTo_evaluateAll last hcovers m
  rw [hc m (Machine.Agrees.refl whole m), hc m' ⟨fun name _ => h.bindings name, fun _ => h.generator⟩]
  unfold Course.take
  cases c.outcome with
  | ok last' => exact .ok (h.leave c) fun _ => rfl
  | error halt => exact .error halt halt _ _

theorem evaluateAll_cons_of_take {n : Node α} {c : Course α (Value α)}
    (h : evaluate maxDepth n m = c.take m) (last : Option (Value α)) (ns : List (Node α)) :
    evaluateAll last (n :: ns) m =
      match c.outcome with
      | .ok v => evaluateAll (some v) ns (c.leave m)
      | .error halt => .error halt (c.leave m) := by
  rw [evaluateAll]
  unfold Course.take at h
  cases ho : c.outcome with
  | ok v =>
    rw [ho] at h
    exact Step.bind_ok h
  | error halt =>
    rw [ho] at h
    exact Step.bind_error h

end Matching

namespace Independent

variable {x y : String} {d e : Node α} {c c' : Course α (Value α)}

/-- Behind the first assignment the second one finds what it reads as it was. -/
theorem agrees (h : Independent x d y e) (hc : c.IsOf (.assignment x d)) (m : Machine α) :
    m.Agrees (Node.assignment y e).footprint (c.leave m) where
  bindings name hw := by
    refine Bindings.get?_setAll_of_notMem _ (hc.ne_of_mem_writes ?_)
    rintro rfl
    exact h.unread (hw.eq_or_of_assignment.resolve_left nofun)
  generator hdraws := by
    have hd : c.drawn = 0 := h.draws.elim (fun hd => hc.drawn (not_exists_within_assignment rfl hd))
      fun he => absurd hdraws (not_exists_within_assignment rfl he)
    rw [Course.leave, hd]
    rfl

theorem leave_comm (h : Independent x d y e) (hc : c.IsOf (.assignment x d))
    (hc' : c'.IsOf (.assignment y e)) (m : Machine α) :
    (c'.leave (c.leave m)).Matches (c.leave (c'.leave m)) where
  bindings name := by
    change ((m.store.bindings.setAll c'.writes).setAll c.writes).get? name =
      ((m.store.bindings.setAll c.writes).setAll c'.writes).get? name
    by_cases hx : name = x
    · subst hx
      have hy := hc'.ne_of_mem_writes h.apart
      rw [Bindings.get?_setAll_of_notMem _ hy]
      exact Bindings.get?_setAll_congr (Bindings.get?_setAll_of_notMem _ hy) c.writes
    · have hx' := hc.ne_of_mem_writes hx
      rw [Bindings.get?_setAll_of_notMem _ hx']
      exact (Bindings.get?_setAll_congr (Bindings.get?_setAll_of_notMem _ hx') c'.writes).symm
  totalLogProb := by
    rcases h.scores with hd | he
    · simp only [Course.leave, hc.observed (not_exists_within_assignment rfl hd), List.foldl_nil]
    · simp only [Course.leave, hc'.observed (not_exists_within_assignment rfl he), List.foldl_nil]
  observations := by
    rcases h.scores with hd | he
    · simp only [Course.leave, hc.observed (not_exists_within_assignment rfl hd), List.append_nil]
    · simp only [Course.leave, hc'.observed (not_exists_within_assignment rfl he), List.append_nil]
  generator := congrArg (Generator.mk m.generator.stream)
    (Nat.add_right_comm m.generator.used c'.drawn c.drawn)

/-- Two independent assignments, in either order, before other statements. -/
theorem evaluateAll_swap (h : Independent x d y e) (hd : (Node.assignment x d).IsFlat)
    (he : (Node.assignment y e).IsFlat) (last : Option (Value α)) (ns : List (Node α)) (m : Machine α) :
    Alike (ns ≠ []) (evaluateAll last (.assignment x d :: .assignment y e :: ns) m)
      (evaluateAll last (.assignment y e :: .assignment x d :: ns) m) := by
  obtain ⟨c, hc, hk⟩ := exists_course_of_statement hd maxDepth m
  obtain ⟨c', hc', hk'⟩ := exists_course_of_statement he maxDepth m
  rw [evaluateAll_cons_of_take (hk m (.refl _ m)), evaluateAll_cons_of_take (hk' m (.refl _ m))]
  have hsecond (v : Value α) (ns : List (Node α)) :=
    evaluateAll_cons_of_take (hk' _ (h.agrees hc m)) (some v) ns
  have hsecond' (v : Value α) (ns : List (Node α)) :=
    evaluateAll_cons_of_take (hk _ (h.symm.agrees hc' m)) (some v) ns
  cases ho : c.outcome with
  | error halt =>
    cases ho' : c'.outcome with
    | error halt' => exact .error halt halt' _ _
    | ok v' =>
      simp only [hsecond', ho]
      exact .error halt halt _ _
  | ok v =>
    cases ho' : c'.outcome with
    | error halt' =>
      simp only [hsecond, ho']
      exact .error halt' halt' _ _
    | ok v' =>
      simp only [hsecond, hsecond', ho, ho']
      cases ns with
      | nil => exact .ok (h.leave_comm hc hc' m) fun hn => absurd rfl hn
      | cons n ns => exact (h.leave_comm hc hc' m).evaluateAll _ none (n :: ns)

end Independent

/-- Independent assignments that stand side by side in a parsed program may change places. The program then
returns from the same stores and under the same generators, with the same variables, total and observations and
after the same draws; its value is the same if another statement stands behind the two. -/
theorem run_swap {ts : List (Token Float)} {before after : List (Node Float)} {x y : String}
    {d e : Node Float} (hp : parse ts = .program (before ++ .assignment x d :: .assignment y e :: after))
    (h : Independent x d y e) (store : Store Float) (g : Generator Float) :
    let one := (Interpreter.mk (before ++ .assignment x d :: .assignment y e :: after) store).run g
    let other := (Interpreter.mk (before ++ .assignment y e :: .assignment x d :: after) store).run g
    ((∃ result, one.1 = .ok result) ↔ ∃ result, other.1 = .ok result) ∧
      ∀ result result', one.1 = .ok result → other.1 = .ok result' →
        (∀ name, result'.bindings.get? name = result.bindings.get? name) ∧
        result'.totalLogProb = result.totalLogProb ∧ result'.observations = result.observations ∧
        other.2.2 = one.2.2 ∧ (after ≠ [] → result'.lastValue = result.lastValue) := by
  have hflat := (eq_program_of_parse hp).isFlat
  have hd : (Node.assignment x d).IsFlat := hflat _ (by simp)
  have he : (Node.assignment y e).IsFlat := hflat _ (by simp)
  have halike : Alike (after ≠ [])
      (evaluateAll none (before ++ .assignment x d :: .assignment y e :: after) ⟨store, g⟩)
      (evaluateAll none (before ++ .assignment y e :: .assignment x d :: after) ⟨store, g⟩) := by
    rw [evaluateAll_append, evaluateAll_append]
    cases evaluateAll none before ⟨store, g⟩ with
    | ok last m => exact h.evaluateAll_swap hd he last after m
    | error halt m => exact .error halt halt m m
  simp only [run_eq_match]
  generalize evaluateAll none (before ++ .assignment x d :: .assignment y e :: after) ⟨store, g⟩ = one,
    evaluateAll none (before ++ .assignment y e :: .assignment x d :: after) ⟨store, g⟩ = other at halike ⊢
  cases halike with
  | error => exact ⟨⟨nofun, nofun⟩, nofun⟩
  | ok hm hl =>
    refine ⟨⟨fun _ => ⟨_, rfl⟩, fun _ => ⟨_, rfl⟩⟩, ?_⟩
    rintro result result' ⟨⟩ ⟨⟩
    exact ⟨hm.bindings, hm.totalLogProb, hm.observations, hm.generator, hl⟩

theorem run_swap_of_draw_and_score :
    ∃ (ts : List (Token Float)) (d e : Node Float) (g : Generator Float) (result result' : Result Float)
      (i i' : Interpreter Float) (g' : Generator Float),
      d = .call "sample" [.call "normal" [.var "z", .number 1]] ∧
      e = .call "observe" [.var "z", .call "normal" [.number 0, .number 1]] ∧
      parse ts = .program [.assignment "z" (.number 2), .assignment "x" d, .assignment "y" e,
        .assignment "w" (.binary "*" (.var "x") (.var "y"))] ∧
      Independent "x" d "y" e ∧
      (Interpreter.mk [.assignment "z" (.number 2), .assignment "x" d, .assignment "y" e,
        .assignment "w" (.binary "*" (.var "x") (.var "y"))] .empty).run g = (.ok result, i, g') ∧
      (Interpreter.mk [.assignment "z" (.number 2), .assignment "y" e, .assignment "x" d,
        .assignment "w" (.binary "*" (.var "x") (.var "y"))] .empty).run g = (.ok result', i', g') ∧
      g'.used = g.used + 1 ∧ result'.lastValue = result.lastValue ∧
      result.bindings.names = ["z", "x", "y", "w"] ∧ result'.bindings.names = ["z", "y", "x", "w"] ∧
      ∀ name, result'.bindings.get? name = result.bindings.get? name := by
  let ts : List (Token Float) :=
    [⟨.mark .identifier "z", 0⟩, ⟨.mark .equal "=", 2⟩, ⟨.number 2, 4⟩, ⟨.mark .identifier "x", 6⟩,
      ⟨.mark .equal "=", 8⟩, ⟨.mark .identifier "sample", 10⟩, ⟨.mark .leftParen "(", 16⟩,
      ⟨.mark .identifier "normal", 17⟩, ⟨.mark .leftParen "(", 23⟩, ⟨.mark .identifier "z", 24⟩,
      ⟨.mark .comma ",", 25⟩, ⟨.number 1, 27⟩, ⟨.mark .rightParen ")", 28⟩, ⟨.mark .rightParen ")", 29⟩,
      ⟨.mark .identifier "y", 31⟩, ⟨.mark .equal "=", 33⟩, ⟨.mark .identifier "observe", 35⟩,
      ⟨.mark .leftParen "(", 42⟩, ⟨.mark .identifier "z", 43⟩, ⟨.mark .comma ",", 44⟩,
      ⟨.mark .identifier "normal", 46⟩, ⟨.mark .leftParen "(", 52⟩, ⟨.number 0, 53⟩,
      ⟨.mark .comma ",", 54⟩, ⟨.number 1, 56⟩, ⟨.mark .rightParen ")", 57⟩, ⟨.mark .rightParen ")", 58⟩,
      ⟨.mark .identifier "w", 60⟩, ⟨.mark .equal "=", 62⟩, ⟨.mark .identifier "x", 64⟩,
      ⟨.mark .star "*", 66⟩, ⟨.mark .identifier "y", 68⟩, ⟨.eof, 69⟩]
  let d : Node Float := .call "sample" [.call "normal" [.var "z", .number 1]]
  let e : Node Float := .call "observe" [.var "z", .call "normal" [.number 0, .number 1]]
  let last : Node Float := .assignment "w" (.binary "*" (.var "x") (.var "y"))
  let g : Generator Float := .cycle 1 #[]
  have hp : parse ts = .program
      ([.assignment "z" (.number 2)] ++ .assignment "x" d :: .assignment "y" e :: [last]) := rfl
  have hunread {n : Node Float} {name : String}
      (h : ∀ v ∈ n.walk 0, v.node ≠ .var name) : ¬Within (.var name) n := by
    intro hw
    obtain ⟨v, hv, hvar⟩ := hw.exists_visit 0
    exact h v hv hvar
  have hi : Independent "x" d "y" e :=
    { apart := by decide
      unread := hunread (by simp [e, walk, walkAll])
      unread' := hunread (by simp [d, walk, walkAll])
      draws := .inr fun c hw => by
        obtain ⟨v, hv, rfl⟩ := hw.exists_visit 0
        exact (show ∀ v ∈ e.walk 0, v.node.isSampleCall = false by decide) v hv
      scores := .inl fun c hw => by
        obtain ⟨v, hv, rfl⟩ := hw.exists_visit 0
        exact (show ∀ v ∈ d.walk 0, v.node.isObserveCall = false by decide) v hv }
  obtain ⟨hreturns, hsame⟩ := run_swap hp hi .empty g
  obtain ⟨result, hr⟩ : ∃ result, ((Interpreter.mk ([.assignment "z" (.number 2)] ++
    .assignment "x" d :: .assignment "y" e :: [last]) .empty).run g).1 = .ok result := ⟨_, rfl⟩
  obtain ⟨result', hr'⟩ := hreturns.mp ⟨result, hr⟩
  obtain ⟨hbindings, -, -, hg, hlast⟩ := hsame result result' hr hr'
  refine ⟨ts, d, e, g, result, result', _, _, _, rfl, rfl, hp, hi, Prod.ext hr rfl,
    Prod.ext hr' (Prod.ext rfl hg), rfl, hlast (List.cons_ne_nil _ _), ?_, ?_, hbindings⟩
  · cases hr
    rfl
  · cases hr'
    rfl

end Posterior
