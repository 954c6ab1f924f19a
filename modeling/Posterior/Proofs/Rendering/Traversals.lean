import Mathlib.Data.List.Dedup
import Mathlib.Data.Set.Card
import Posterior.Proofs.Determinism
import Posterior.Proofs.Footprint.Names
import Posterior.Proofs.Rendering.Outline

set_option autoImplicit false

namespace Posterior.Node

open Text

section Reading

def lines (text : String) : List String := (text.toList.splitOn '\n').map String.ofList

def shownType (l : String) : String := String.ofList ((readLine l).2.toList.takeWhile (· != '('))

theorem lines_join {ls : List String} (hne : ls ≠ []) (h : ∀ l ∈ ls, OneLine l) : lines (join "\n" ls) = ls := by
  induction ls with
  | nil => exact absurd rfl hne
  | cons l ls ih =>
    obtain ⟨hl, hls⟩ := List.forall_mem_cons.mp h
    cases ls with
    | nil => rw [join_singleton, lines, List.splitOn_eq_singleton hl, List.map_singleton, String.ofList_toList]
    | cons m ls =>
      have ih := ih nofun hls
      have htext : (join "\n" (l :: m :: ls)).toList = l.toList ++ '\n' :: (join "\n" (m :: ls)).toList := by
        simp [join_cons_cons]
      rw [lines] at ih ⊢
      rw [htext, List.splitOn_append_cons_self, List.splitOn_eq_singleton hl, List.map_append, ih,
        List.map_singleton, String.ofList_toList, List.singleton_append]

theorem NodeType.name_injective : Function.Injective NodeType.name :=
  fun _ _ h => NodeType.eq_of_head? (congrArg (fun name => name.toList.head?) h)

end Reading

section Labels

variable {α : Type} {numeral : α → String} {n : Node α}

theorem takeWhile_label (h : n.type ≠ .stray) :
    String.ofList ((n.label numeral).toList.takeWhile (· != '(')) = n.type.name := by
  obtain ⟨inner, hlabel, hinner⟩ := exists_label numeral h
  have hname : ∀ c ∈ n.type.name.toList, (c != '(') = true := by
    cases n.type <;> simp [NodeType.name]
  rw [hlabel, takeWhile_append_stop hname hinner, String.ofList_toList]

/-- The label of a call that takes a draw is the label of nothing else. -/
theorem label_eq_iff_isSampleCall (h : n.type ≠ .stray) :
    n.label numeral = "FunctionCall(sample)" ↔ n.isSampleCall = true := by
  constructor
  · intro hl
    have htype : n.type = .call := by
      refine NodeType.name_injective ?_
      rw [← takeWhile_label h, hl]
      decide
    cases n with
    | call name args => exact beq_iff_eq.mpr (eq_of_bracketed hl)
    | _ => cases htype
  · intro hs
    cases n with
    | call name args =>
      obtain rfl := beq_iff_eq.mp hs
      rfl
    | _ => cases hs

end Labels

section Counts

variable (types : List NodeType)

theorem keys_tally : (tally types).map Prod.fst = types.eraseDups := by
  rw [tally, List.map_map]
  exact List.map_id _

theorem sum_tally : ((tally types).map Prod.snd).sum = types.length := by
  have hperm : types.eraseDups.Perm types.dedup :=
    (List.perm_ext_iff_of_nodup (nodup_eraseDups types) types.nodup_dedup).mpr fun t => by
      rw [List.mem_eraseDups, List.mem_dedup]
  rw [tally, List.map_map, ← List.sum_map_count_dedup_eq_length types]
  exact (hperm.map _).sum_eq

theorem count_of_mem_tally {t : NodeType} {k : Nat} (h : (t, k) ∈ tally types) : k = types.count t := by
  obtain ⟨t', -, heq⟩ := List.mem_map.mp h
  cases heq
  rfl

end Counts

section Agreement

variable {α : Type} {numeral : α → String} {n : Node α} {ls : List String}

/-- The lines of an outline, the counts of the types of nodes and the verdict on draws show one tree. -/
structure Traversed (numeral : α → String) (n : Node α) (ls : List String) (counts : List (NodeType × Nat))
    (deterministic : Bool) : Prop where
  nodes : Set.ncard {path | (n.at? path).isSome} = ls.length
  total : (counts.map Prod.snd).sum = ls.length
  keys : (counts.map Prod.fst).Nodup
  occurs : ∀ t, t ∈ counts.map Prod.fst ↔ ∃ path m, n.at? path = some m ∧ m.type = t
  count : ∀ t k, (t, k) ∈ counts → k = ls.countP fun l => shownType l = t.name
  preorder : ∃ paths : List (List Nat), paths.Pairwise (· < ·) ∧ (∀ path, path ∈ paths ↔ (n.at? path).isSome) ∧
    List.Forall₂ (fun path l => ∃ m, n.at? path = some m ∧ Shows numeral l path.length m) paths ls
  draws : deterministic = false ↔ ∃ l ∈ ls, (readLine l).2 = "FunctionCall(sample)"

theorem ncard_paths (n : Node α) : Set.ncard {path | (n.at? path).isSome} = n.paths.length := by
  have hnodup : n.paths.Nodup := n.pairwise_paths.imp fun h => ne_of_lt h
  have hpaths : {path | (n.at? path).isSome} = (n.paths.toFinset : Set (List Nat)) := by
    ext path
    rw [Finset.mem_coe, List.mem_toFinset, mem_paths_iff]
    rfl
  rw [hpaths, Set.ncard_coe_finset, List.toFinset_card_of_nodup hnodup]

theorem shows_paths {paths : List (List Nat)} {vs : List (Visit α)} (hl : List.Forall₂ (Leads n 0) paths vs)
    (hs : ShowAll numeral ls vs) :
    List.Forall₂ (fun path l => ∃ m, n.at? path = some m ∧ Shows numeral l path.length m) paths ls := by
  induction hl generalizing ls with
  | nil =>
    cases hs
    exact .nil
  | cons hlead _ ih =>
    cases hs with
    | cons hshows hs =>
      obtain ⟨hat, hdepth⟩ := hlead
      rw [Nat.zero_add] at hdepth
      exact .cons ⟨_, hat, hdepth ▸ hshows⟩ (ih hs)

theorem map_shownType {vs : List (Visit α)} (h : ShowAll numeral ls vs) (hs : ∀ v ∈ vs, v.node.type ≠ .stray) :
    ls.map shownType = vs.map fun v => v.node.type.name := by
  have hread := congrArg (List.map fun k => String.ofList (k.2.toList.takeWhile (· != '('))) (map_readLine_of_showAll h hs)
  rw [List.map_map, List.map_map] at hread
  refine hread.trans (List.map_congr_left fun v hv => ?_)
  exact takeWhile_label (hs v hv)

theorem countP_shownType {vs : List (Visit α)} (h : ShowAll numeral ls vs) (hs : ∀ v ∈ vs, v.node.type ≠ .stray)
    (t : NodeType) : ls.countP (fun l => shownType l = t.name) = (vs.map fun v => v.node.type).count t := by
  have hmap : ls.countP (fun l => shownType l = t.name) = (ls.map shownType).countP fun s => s = t.name := by
    rw [List.countP_map, Function.comp_def]
  rw [hmap, map_shownType h hs, List.countP_map, List.count_eq_countP, List.countP_map]
  refine List.countP_congr fun v _ => ?_
  simp only [Function.comp_apply, decide_eq_true_eq, beq_iff_eq]
  exact NodeType.name_injective.eq_iff

theorem traversed_of_showAll {deterministic : Bool} (h : ShowAll numeral ls (n.walk 0))
    (hs : ∀ v ∈ n.walk 0, v.node.type ≠ .stray)
    (hd : deterministic = false ↔ ∃ v ∈ n.walk 0, v.node.isSampleCall = true) :
    Traversed numeral n ls (tally ((n.walk 0).map (·.node.type))) deterministic := by
  have hlength : ls.length = (n.walk 0).length := h.length_eq
  refine {
    nodes := by rw [ncard_paths, n.length_paths 0, hlength]
    total := by rw [sum_tally, List.length_map, hlength]
    keys := by
      rw [keys_tally]
      exact nodup_eraseDups _
    occurs := fun t => ?_
    count := fun t k hk => ?_
    preorder := ⟨n.paths, n.pairwise_paths, fun _ => mem_paths_iff, shows_paths (leads_walk n 0) h⟩
    draws := ?_ }
  · rw [keys_tally, List.mem_eraseDups, List.mem_map]
    exact exists_visit_iff (q := fun m => m.type = t) 0
  · rw [count_of_mem_tally _ hk, countP_shownType h hs]
  · have hlabels : ls.map (fun l => (readLine l).2) = (n.walk 0).map fun v => v.node.label numeral := by
      have hread := congrArg (List.map Prod.snd) (map_readLine_of_showAll h hs)
      rwa [List.map_map, List.map_map] at hread
    have hmem : (∃ l ∈ ls, (readLine l).2 = "FunctionCall(sample)") ↔
        "FunctionCall(sample)" ∈ (n.walk 0).map fun v => v.node.label numeral := by
      rw [← hlabels, List.mem_map]
    rw [hd, hmem, List.mem_map]
    exact exists_congr fun v => and_congr_right fun hv => (label_eq_iff_isSampleCall (hs v hv)).symm

end Agreement

theorem summary_eq_ok_iff {α : Type} {n : Node α} {counts : List (NodeType × Nat)} :
    n.summary = .ok counts ↔ n.fault? = none ∧ tally ((n.walk 0).map (·.node.type)) = counts := by
  unfold summary
  cases n.fault? <;> simp

end Posterior.Node

namespace Posterior

open Node

/-- The three ways through a compiled program within the limit of levels end and agree. The outline has a line for each
node, in the order of their paths, and every count and the verdict can be read off it. -/
theorem traversed_of_compile {source : String} {p : Node Float} (h : compile source = .ok p)
    (hd : ∀ v ∈ p.walk 0, v.depth ≤ maxDepth) :
    ∃ text counts deterministic,
      p.pretty brief {} = .ok text ∧ p.summary = .ok counts ∧ p.isDeterministic = .ok deterministic ∧
        Traversed brief p (lines text) counts deterministic := by
  have hlegible := legible_of_compile h
  obtain ⟨ns, rfl, hn⟩ := statements_of_compile h
  have hs := type_ne_stray_of_statements hn
  obtain ⟨hpretty, hsummary, hdeterministic⟩ := walked_of_type hs
  obtain ⟨text, htext⟩ := (hpretty brief {}).2 hd
  obtain ⟨counts, hcounts⟩ := hsummary.2 hd
  obtain ⟨deterministic, hdraws⟩ := hdeterministic.2 hd
  refine ⟨text, counts, deterministic, htext, hcounts, hdraws, ?_⟩
  obtain ⟨-, rfl⟩ := pretty_eq_ok_iff.mp htext
  obtain ⟨-, rfl⟩ := summary_eq_ok_iff.mp hcounts
  have hlines : ∀ l ∈ (Node.program ns).outline brief {}, OneLine l := by
    have houtline := oneLine_outline hlegible Place.stands_root
    rwa [outline_map] at houtline
  rw [lines_join (by rw [outline_eq]; nofun) hlines]
  refine traversed_of_showAll (showAll_outline brief _ Place.stands_root) hs ?_
  rw [← isDeterministic_eq_false_iff fun v hv => Visit.fault?_eq_none (hd v hv) (hs v hv), hdraws, Except.ok.injEq]

theorem traversed_of_assigned_draw :
    ∃ p text, compile "x = sample(f(y))" = .ok p ∧ (∀ v ∈ p.walk 0, v.depth ≤ maxDepth) ∧
      p.pretty brief {} = .ok text ∧ (lines text).length = 5 ∧
      Traversed brief p (lines text) [(.program, 1), (.assignment, 1), (.call, 2), (.var, 1)] false := by
  have ht : (tokenize "x = sample(f(y))" : Except LexFault (List (Token Float))) = .ok
      [⟨.mark .identifier "x", 0⟩, ⟨.mark .equal "=", 2⟩, ⟨.mark .identifier "sample", 4⟩,
        ⟨.mark .leftParen "(", 10⟩, ⟨.mark .identifier "f", 11⟩, ⟨.mark .leftParen "(", 12⟩,
        ⟨.mark .identifier "y", 13⟩, ⟨.mark .rightParen ")", 14⟩, ⟨.mark .rightParen ")", 15⟩, ⟨.eof, 16⟩] := by
    simp only [tokenize, String.reduceToList]
    rfl
  have hp := compile_eq_ok_iff.mpr ⟨_, _, ht, rfl, rfl⟩
  have hd : ∀ v ∈ (Node.program [.assignment "x" (.call "sample" [.call "f" [.var "y"]])] : Node Float).walk 0,
      v.depth ≤ maxDepth := by
    simp [walk, walkAll, maxDepth]
  obtain ⟨text, counts, deterministic, htext, hcounts, hdraws, htraversed⟩ := traversed_of_compile hp hd
  cases hcounts
  cases hdraws
  exact ⟨_, text, hp, hd, htext, htraversed.total.symm, htraversed⟩

end Posterior
