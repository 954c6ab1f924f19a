import Posterior.Proofs.Footprint.Names
import Posterior.Proofs.Sampling.Coherence
import Posterior.Proofs.Sampling.Renewal

set_option autoImplicit false

namespace Posterior

open Node

section Values

variable {α : Type} {names : List String} {name : String}

def Sampler.Uniform (names : List String) (s : Sampler α) : Prop :=
  ∀ r ∈ s.samples.toList, r.bindings.names = names

namespace Sampler.Uniform

variable {s : Sampler α}

theorem length_values (h : s.Uniform names) (hn : name ∈ names) :
    (s.values name).length = s.samples.size := by
  rw [← Array.length_toList]
  refine List.filterMap_length_eq_length.mpr fun r hr => ?_
  rw [← h r hr] at hn
  exact Option.isSome_iff_exists.mpr ((r.bindings.mem_names name).mp hn)

theorem values_eq_nil (h : s.Uniform names) (hn : name ∉ names) : s.values name = [] := by
  refine List.filterMap_eq_nil_iff.mpr fun r hr => ?_
  rw [← h r hr, Bindings.mem_names, not_exists] at hn
  exact Option.eq_none_iff_forall_ne_some.mpr hn

end Sampler.Uniform

theorem length_of_mapM {β γ : Type} {f : β → Option γ} {bs : List β} {cs : List γ}
    (h : bs.mapM f = some cs) : cs.length = bs.length := by
  induction bs generalizing cs with
  | nil =>
    cases h
    rfl
  | cons b bs ih =>
    rw [List.mapM_cons] at h
    obtain ⟨c, -, h⟩ := Option.bind_eq_some_iff.mp h
    obtain ⟨ds, hds, h⟩ := Option.bind_eq_some_iff.mp h
    cases h
    rw [List.length_cons, List.length_cons, ih hds]

namespace Importance

variable {s : Importance α}

theorem map_fst_entries (s : Importance α) (name : String) :
    (s.entries name).map Prod.fst = s.values name := by
  have hvalues : s.values name =
      (s.samples.toList.zipIdx.map Prod.fst).filterMap fun r => r.bindings.get? name := by
    rw [List.zipIdx_map_fst]
    rfl
  rw [hvalues, entries, List.filterMap_map, List.map_filterMap]
  refine congrArg (List.filterMap · _) (funext fun p => ?_)
  rw [Option.map_map]
  exact Option.map_id'

theorem weightedStatistics?_of_uniform [Arithmetic α] (h : s.Uniform names) (name : String) :
    s.weightedStatistics? name = (s.weighted? name).map Statistics.ofWeighted := by
  unfold weightedStatistics?
  cases hw : s.weighted? name with
  | none => rfl
  | some ps =>
    have hlength : ps.length = (s.values name).length := by
      rw [← map_fst_entries, List.length_map]
      exact length_of_mapM hw
    by_cases hn : name ∈ names
    · rw [h.length_values hn] at hlength
      rw [Option.map_some, Option.map_some, if_neg (by omega)]
    · rw [h.values_eq_nil hn] at hlength
      obtain rfl := List.length_eq_zero_iff.mp hlength
      rw [Option.map_some, Option.map_some, show rescale ([] : List (α × α)) = [] from rfl, ite_self]

end Importance

end Values

variable {α : Type} [Arithmetic α] {statements : List (Node α)}

theorem Sampler.survives_uniform (hns : ∀ n ∈ statements, n.IsFlat) :
    Survives fun s : Sampler α =>
      s.interpreter.statements = statements ∧ s.Uniform (assignedNames statements) :=
  survives_stored (fun s : Sampler α => s.samples.toList) id
    (fun _ _ hsamples _ => congrArg Array.toList hsamples) (fun _ _ => Array.toList_push) (fun _ => rfl)
    fun _ _ hr => (bindings_of_run (i := ⟨statements, .empty⟩) hns hr).1

namespace Algorithm

def Begins (a : Algorithm α) (samples : Argument α) (budget : Option (Argument α)) : Prop :=
  match a with
  | .plain _ => False
  | .rejection r => Passed (r.run samples budget).outcome = true
  | .importance s => Passed (s.run samples).outcome = true

theorem request_of_begins {P : Sampler α → Prop} (hP : Sampler.Survives P) {a : Algorithm α}
    {samples : Argument α} {budget : Option (Argument α)} (hb : a.Begins samples budget)
    (h : P a.sampler.begin) : P (a.request samples budget).sampler := by
  cases a with
  | plain s => exact hb.elim
  | rejection r =>
    change Passed (r.run samples budget).outcome = true at hb
    change P (r.run samples budget).sampler.toSampler
    unfold Rejection.run at hb ⊢
    split at hb
    · cases hb
    · split at hb
      · exact Rejection.collect_of_survives hP h _ _
      · split at hb
        · cases hb
        · exact Rejection.collect_of_survives hP h _ _
  | importance s =>
    change Passed (s.run samples).outcome = true at hb
    change P (s.run samples).sampler.toSampler
    unfold Importance.run at hb ⊢
    split at hb
    · cases hb
    · exact Importance.collect_of_survives hP h _

theorem uniform_followAll (hns : ∀ n ∈ statements, n.IsFlat) {a : Algorithm α} {deeds : List (Deed α)}
    (hd : ∀ d ∈ deeds, ∀ index name, d ≠ .unbind index name)
    (hi : a.sampler.interpreter.statements = statements)
    (h : a.sampler.Uniform (assignedNames statements)) :
    (a.followAll deeds).sampler.Uniform (assignedNames statements) := by
  induction deeds generalizing a with
  | nil => exact h
  | cons d deeds ih =>
    obtain ⟨hd, hds⟩ := List.forall_mem_cons.mp hd
    obtain ⟨hi', h'⟩ := follow_of_survives (d := d) (Sampler.survives_uniform hns)
      (fun s _ _ _ hj h => ⟨hj.trans h.1, h.2⟩) (fun index name _ hu _ => absurd hu (hd index name)) ⟨hi, h⟩
    exact ih hds hi' h'

end Algorithm

/-- A run of a parsed program binds exactly the names that the program assigns, in the order of their first
assignments, each to the number that its last assignment yields. So all samples of a request bind the same, and
the summaries of a variable are taken over all of them or over none, until a variable is removed from one. -/
theorem assignedNames_of_runs {ts : List (Token Float)} {statements : List (Node Float)}
    (hp : parse ts = .program statements) :
    (∀ (store : Store Float) (g : Generator Float) (result : Result Float),
      ((Interpreter.mk statements store).reset.run g).1 = .ok result →
        result.bindings.names = assignedNames statements ∧ result.bindings.names.Nodup ∧
          ∀ name ∈ result.bindings.names, ∃ x, result.bindings.get? name = some x ∧
            AssignsLast statements ⟨.empty, g⟩ name x) ∧
    ∀ (a : Algorithm Float) (samples : Argument Float) (budget : Option (Argument Float))
      (deeds : List (Deed Float)), a.sampler.interpreter.statements = statements →
      a.sampler.samples = #[] ∨ a.Begins samples budget →
      (∀ d ∈ deeds, ∀ index name, d ≠ .unbind index name) →
      let b := (a.request samples budget).followAll deeds
      b.sampler.Uniform (assignedNames statements) ∧
        ∀ name, (if name ∈ assignedNames statements then
            (b.sampler.values name).length = b.sampler.samples.size else b.sampler.values name = []) ∧
          ∀ s, b = .importance s → (s.entries name).map Prod.fst = s.values name ∧
            s.weightedStatistics? name = (s.weighted? name).map Statistics.ofWeighted := by
  have hns := (eq_program_of_parse hp).isFlat
  refine ⟨fun store g result hr => ?_, fun a samples budget deeds hi hstart hd => ?_⟩
  · obtain ⟨hnames, hlast⟩ := bindings_of_run (i := ⟨statements, store⟩) hns hr
    rw [hnames]
    exact ⟨rfl, nodup_eraseDups _, hlast⟩
  · have hi' := (a.follow_statements (.request samples budget)).trans hi
    have hrequest : (a.request samples budget).sampler.Uniform (assignedNames statements) := by
      rcases hstart with hempty | hbegins
      · have ha : a.sampler.Uniform (assignedNames statements) := by
          rw [Sampler.Uniform, hempty]
          exact List.forall_mem_nil _
        have hone : ∀ d ∈ [Deed.request samples budget], ∀ index name, d ≠ .unbind index name := by simp
        exact Algorithm.uniform_followAll hns hone hi ha
      · exact (Algorithm.request_of_begins (Sampler.survives_uniform hns) hbegins
          ⟨hi, List.forall_mem_nil _⟩).2
    have huniform : ((a.request samples budget).followAll deeds).sampler.Uniform
        (assignedNames statements) := Algorithm.uniform_followAll hns hd hi' hrequest
    refine ⟨huniform, fun name => ⟨?_, ?_⟩⟩
    · split
      · next hn => exact huniform.length_values hn
      · next hn => exact huniform.values_eq_nil hn
    · intro s hs
      rw [hs] at huniform
      exact ⟨s.map_fst_entries name, Importance.weightedStatistics?_of_uniform huniform name⟩

theorem assignedNames_of_reassignment :
    ∃ (ts : List (Token Float)) (statements : List (Node Float)) (fresh : Importance Float)
      (result : Result Float) (x : Float),
      statements = [.assignment "x" (.number 1),
        .assignment "y" (.call "sample" [.call "normal" [.var "x", .number 1]]),
        .assignment "x" (.binary "+" (.var "x") (.var "y"))] ∧
      parse ts = .program statements ∧ fresh.interpreter = ⟨statements, .empty⟩ ∧
      (fresh.interpreter.reset.run fresh.generator).1 = .ok result ∧ result.bindings.names = ["x", "y"] ∧
      result.bindings.get? "x" = some x ∧ AssignsLast statements ⟨.empty, fresh.generator⟩ "x" x ∧
      ∃ s, ((Algorithm.importance fresh).request (.integer 2) none).followAll [.operate .run] =
          .importance s ∧
        s.samples.size = 2 ∧ (∀ r ∈ s.samples.toList, r.bindings.names = ["x", "y"]) ∧
        (s.values "x").length = 2 ∧ s.values "z" = [] ∧
        s.weightedStatistics? "x" = (s.weighted? "x").map Statistics.ofWeighted := by
  let ts : List (Token Float) :=
    [⟨.mark .identifier "x", 0⟩, ⟨.mark .equal "=", 2⟩, ⟨.number 1, 4⟩, ⟨.mark .identifier "y", 6⟩,
      ⟨.mark .equal "=", 8⟩, ⟨.mark .identifier "sample", 10⟩, ⟨.mark .leftParen "(", 16⟩,
      ⟨.mark .identifier "normal", 17⟩, ⟨.mark .leftParen "(", 23⟩, ⟨.mark .identifier "x", 24⟩,
      ⟨.mark .comma ",", 25⟩, ⟨.number 1, 27⟩, ⟨.mark .rightParen ")", 28⟩, ⟨.mark .rightParen ")", 29⟩,
      ⟨.mark .identifier "x", 31⟩, ⟨.mark .equal "=", 33⟩, ⟨.mark .identifier "x", 35⟩,
      ⟨.mark .plus "+", 37⟩, ⟨.mark .identifier "y", 39⟩, ⟨.eof, 40⟩]
  let statements : List (Node Float) := [.assignment "x" (.number 1),
    .assignment "y" (.call "sample" [.call "normal" [.var "x", .number 1]]),
    .assignment "x" (.binary "+" (.var "x") (.var "y"))]
  let fresh : Importance Float :=
    { interpreter := ⟨statements, .empty⟩, generator := .cycle 1 #[], policy := .raise, effectiveSize := 0 }
  have hp : parse ts = .program statements := rfl
  have hnames : assignedNames statements = ["x", "y"] := rfl
  have hbegins : Passed (fresh.run (.integer 2)).outcome = true := by decide +kernel
  have htwo : (fresh.run (.integer 2)).sampler.samples.size = 2 := by decide +kernel
  obtain ⟨hruns, hsamples⟩ := assignedNames_of_runs hp
  obtain ⟨result, hr⟩ : ∃ result, (fresh.interpreter.reset.run fresh.generator).1 = .ok result := ⟨_, rfl⟩
  obtain ⟨hbound, -, hlast⟩ := hruns .empty fresh.generator result hr
  obtain ⟨x, hx, hassigns⟩ := hlast "x" (by rw [hbound, hnames]; decide)
  obtain ⟨s, hs⟩ : ∃ s, ((Algorithm.importance fresh).request (.integer 2) none).followAll
      [.operate .run] = .importance s := ⟨_, rfl⟩
  obtain ⟨huniform, hsees⟩ := hsamples (.importance fresh) (.integer 2) none [.operate .run] rfl
    (.inr hbegins) (by simp)
  have hsize : s.samples.size = 2 := by
    cases hs
    exact htwo
  rw [hs] at huniform hsees
  obtain ⟨hvalues, hweighted⟩ := hsees "x"
  refine ⟨ts, statements, fresh, result, x, rfl, hp, rfl, hr, hbound.trans hnames, hx, hassigns, s, hs, hsize,
    fun r hr => (huniform r hr).trans hnames, ?_, ?_, (hweighted s rfl).2⟩
  · rw [if_pos (by rw [hnames]; decide)] at hvalues
    exact hvalues.trans hsize
  · have hnone := (hsees "z").1
    rwa [if_neg (by rw [hnames]; decide)] at hnone

end Posterior
