import Posterior.Proofs.Checking.Native
import Posterior.Proofs.Lexing.Partition
import Posterior.Proofs.Replay.Run
import Posterior.Source

/-!
What a source text compiles to. Names and operators come from the lexer and the shape of the tree from the
grammar, so whatever goes through a compiled tree finds only what it knows.
-/

set_option autoImplicit false

namespace Posterior

open Node Posterior.Parser

section Trees

variable {α β : Type} {valid : String → Prop}

def Walked (within : Prop) (r : Except TreeFault β) : Prop :=
  (∀ fault, r = .error fault → fault = .tooDeep) ∧ (within → ∃ b, r = .ok b)

theorem type_ne_stray_of_children {n : Node α} {depth : Nat} (hn : n.type ≠ .stray)
    (hc : ∀ c ∈ n.children, ∀ v ∈ c.walk (depth + 1), v.node.type ≠ .stray) :
    ∀ v ∈ n.walk depth, v.node.type ≠ .stray := by
  rw [walk_eq]
  refine List.forall_mem_cons.mpr ⟨hn, fun v hv => ?_⟩
  obtain ⟨c, hmem, hv⟩ := List.mem_flatMap.mp hv
  exact hc c hmem v hv

theorem Node.IsExpression.type_ne_stray {n : Node α} (h : n.IsExpression valid) (depth : Nat) :
    ∀ v ∈ n.walk depth, v.node.type ≠ .stray := by
  induction h generalizing depth with
  | number | var => exact type_ne_stray_of_children nofun nofun
  | binary _ _ _ ihl ihr =>
    refine type_ne_stray_of_children nofun fun c hc => ?_
    rcases List.mem_cons.mp hc with rfl | hc
    · exact ihl (depth + 1)
    · obtain rfl := List.mem_singleton.mp hc
      exact ihr (depth + 1)
  | call _ _ ih => exact type_ne_stray_of_children nofun fun c hc => ih c hc (depth + 1)

theorem Node.IsStatement.type_ne_stray {n : Node α} (h : n.IsStatement valid) (depth : Nat) :
    ∀ v ∈ n.walk depth, v.node.type ≠ .stray := by
  cases h with
  | assignment _ he =>
    refine type_ne_stray_of_children nofun fun c hc => ?_
    obtain rfl := List.mem_singleton.mp hc
    exact he.type_ne_stray (depth + 1)
  | call he => exact he.type_ne_stray depth

theorem fault?_of_type {v : Visit α} (h : v.node.type ≠ .stray) {fault : TreeFault}
    (hf : v.fault? = some fault) : fault = .tooDeep := by
  unfold Visit.fault? at hf
  split at hf
  · exact (Option.some.inj hf).symm
  · split at hf
    · next hs => exact absurd (congrArg type hs) h
    · cases hf

/-- The three walks through a tree all of whose nodes are of a known type. -/
theorem walked_of_type {n : Node α} (h : ∀ v ∈ n.walk 0, v.node.type ≠ .stray) :
    let within := ∀ v ∈ n.walk 0, v.depth ≤ maxDepth
    (∀ numeral place, Walked within (n.pretty numeral place)) ∧ Walked within n.summary ∧
      Walked within n.isDeterministic := by
  intro within
  have hfault : ∀ fault, n.fault? = some fault → fault = .tooDeep := by
    intro fault hf
    obtain ⟨v, hv, hf⟩ := List.exists_of_findSome?_eq_some hf
    exact fault?_of_type (h v hv) hf
  have hwithin : within → n.fault? = none := fun hd =>
    List.findSome?_eq_none_iff.mpr fun v hv => Visit.fault?_eq_none (hd v hv) (h v hv)
  refine ⟨fun numeral place => ⟨fun fault hf => ?_, fun hd => ?_⟩, ⟨fun fault hf => ?_, fun hd => ?_⟩,
    fun fault hf => ?_, fun hd => ?_⟩
  · unfold pretty at hf
    split at hf <;> cases hf
    exact hfault _ ‹_›
  · rw [pretty, hwithin hd]
    exact ⟨_, rfl⟩
  · unfold summary at hf
    split at hf <;> cases hf
    exact hfault _ ‹_›
  · rw [summary, hwithin hd]
    exact ⟨_, rfl⟩
  · unfold isDeterministic at hf
    split at hf
    · cases hf
    · next v hv =>
      split at hf <;> cases hf
      exact fault?_of_type (h v (List.mem_of_find?_eq_some hv)) ‹_›
  · unfold isDeterministic
    split
    · exact ⟨_, rfl⟩
    · next v hv =>
      have hmem := List.mem_of_find?_eq_some hv
      rw [Visit.fault?_eq_none (hd v hmem) (h v hmem)]
      exact ⟨_, rfl⟩

end Trees

section Names

variable {α : Type} [Arithmetic α]

theorem Cuts.names {ps : List Piece} {last text : List Char} (h : Cuts ps last text) (position : Nat) :
    ∀ t ∈ (tokensFrom position last ps : List (Token α)), t.Names IsName := by
  induction h generalizing position with
  | last =>
    refine List.forall_mem_singleton.mpr fun name hs => ?_
    cases hs
  | @piece gap s ps last rest _ hs _ _ ih =>
    refine List.forall_mem_cons.mpr ⟨fun name hname => ?_, ih _⟩
    cases hs with
    | number => cases hname
    | name h =>
      cases hname
      exact h
    | punctuation h =>
      cases hname
      exact absurd rfl (of_punctuation? h).2.2.2.2

theorem names_of_tokenize {source : String} {ts : List (Token α)} (h : tokenize source = .ok ts) :
    ∀ t ∈ ts, t.Names IsName := by
  obtain ⟨ps, last, hc, rfl⟩ := tokenize_eq_ok_iff.mp h
  exact hc.names 0

end Names

theorem compile_eq_ok_iff {source : String} {p : Node Float} :
    compile source = .ok p ↔ ∃ ts ns, tokenize source = .ok ts ∧ parse ts = .program ns ∧ p = .program ns := by
  unfold compile
  constructor
  · intro h
    split at h
    · cases h
    · next ts ht =>
      rcases parse_cases ts with ⟨ns, hp, -⟩ | ⟨message, position, he⟩
      · rw [hp] at h
        exact ⟨ts, ns, ht, hp, (Except.ok.inj h).symm⟩
      · rw [he] at h
        cases h
  · rintro ⟨ts, ns, ht, hp, rfl⟩
    simp only [ht, hp]

/-- What is compiled is statements as the grammar has them, with names as the lexer gives them. -/
theorem statements_of_compile {source : String} {p : Node Float} (h : compile source = .ok p) :
    ∃ ns, p = .program ns ∧ ∀ n ∈ ns, n.IsStatement IsName := by
  obtain ⟨ts, ns, ht, hp, rfl⟩ := compile_eq_ok_iff.mp h
  have hprogram := eq_program_of_parse hp
  refine ⟨ns, rfl, hprogram.shape fun t hmem => ?_⟩
  have hmem' := (List.takeWhile_sublist _).subset hmem
  exact ⟨genuine_of_tokenize ht t hmem', names_of_tokenize ht t hmem'⟩

theorem type_ne_stray_of_statements {ns : List (Node Float)} (h : ∀ n ∈ ns, n.IsStatement IsName) :
    ∀ v ∈ (Node.program ns).walk 0, v.node.type ≠ .stray :=
  type_ne_stray_of_children nofun fun c hc => (h c hc).type_ne_stray 1

/-- A compiled program is statements over expressions, with the operators and the names of the language. An
interpreter takes it. None of its runs, by itself or for a sampler, fails for an operator or a type of node
that is not known, and no walk through it does; within the limit of levels each walk ends. -/
theorem closure_of_compile {source : String} {p : Node Float} (h : compile source = .ok p) :
    ∃ ns, p = .program ns ∧ (∀ n ∈ ns, n.IsStatement IsName) ∧
      Interpreter.ofNode p = .ok ⟨ns, .empty⟩ ∧
      (∀ (store : Store Float) (g : Generator Float) (halt : Halt Float),
        ((Interpreter.mk ns store).run g).1 = .error halt → halt.Native) ∧
      (∀ r : Rejection Float, r.interpreter.statements = ns →
        ∀ samples budget, (r.run samples budget).Native) ∧
      (∀ s : Importance Float, s.interpreter.statements = ns → ∀ samples, (s.run samples).Native) ∧
      let within := ∀ v ∈ p.walk 0, v.depth ≤ maxDepth
      (∀ numeral place, Walked within (p.pretty numeral place)) ∧ Walked within p.summary ∧
        Walked within p.isDeterministic := by
  obtain ⟨ns, rfl, hn⟩ := statements_of_compile h
  refine ⟨ns, rfl, hn, rfl, fun store g halt => native_of_run (i := ⟨ns, store⟩) hn, ?_, ?_, ?_⟩
  · rintro r rfl
    exact Rejection.native_of_run hn
  · rintro s rfl
    exact Importance.native_of_run hn
  · exact walked_of_type (type_ne_stray_of_statements hn)

theorem closure_of_unbound_name :
    ∃ ns, compile "x_1 = -(2 * y)" = .ok (.program ns) ∧
      ns = [.assignment "x_1" (.binary "-" (.number Arithmetic.zero)
        (.binary "*" (.number (Arithmetic.ofNat 2)) (.var "y")))] ∧
      (∀ n ∈ ns, n.IsStatement IsName) ∧
      ∀ (store : Store Float) (g : Generator Float) (halt : Halt Float),
        ((Interpreter.mk ns store).run g).1 = .error halt → halt.Native := by
  let two : Float := Arithmetic.ofNat 2
  have ht : tokenize "x_1 = -(2 * y)" = .ok
      [⟨.mark .identifier "x_1", 0⟩, ⟨.mark .equal "=", 4⟩, ⟨.mark .minus "-", 6⟩,
        ⟨.mark .leftParen "(", 7⟩, ⟨.number two, 8⟩, ⟨.mark .star "*", 10⟩, ⟨.mark .identifier "y", 12⟩,
        ⟨.mark .rightParen ")", 13⟩, ⟨.eof, 14⟩] := by
    simp only [tokenize, String.reduceToList]
    rfl
  have hc := compile_eq_ok_iff.mpr ⟨_, _, ht, rfl, rfl⟩
  obtain ⟨ns, hns, hshape, -, hruns, -⟩ := closure_of_compile hc
  cases hns
  exact ⟨_, hc, rfl, hshape, hruns⟩

end Posterior
