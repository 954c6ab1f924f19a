import Posterior.Proofs.Grammar.Recognition
import Posterior.Proofs.Spelling.Derivation
import Posterior.Proofs.Spelling.Lexing
import Posterior.Source

set_option autoImplicit false

namespace Posterior

open Grammar Node

theorem legible_enclose {needed : Bool} {ss : List (Symbol Numeral)} (h : ∀ s ∈ ss, s.Legible) :
    ∀ s ∈ enclose needed ss, s.Legible := by
  cases needed with
  | false => exact h
  | true =>
    have hl : (Symbol.mark .leftParen "(" : Symbol Numeral).Legible := .punctuation (c := '(') rfl
    have hr : (Symbol.mark .rightParen ")" : Symbol Numeral).Legible := .punctuation (c := ')') rfl
    simpa [enclose, hl, hr, or_imp, forall_and] using h

theorem legible_operator {op : String} (h : op ∈ operators) :
    (Symbol.mark (operatorMark op) op : Symbol Numeral).Legible := by
  simp only [operators, List.mem_cons, List.not_mem_nil, or_false] at h
  rcases h with rfl | rfl | rfl | rfl
  · exact .punctuation (c := '+') rfl
  · exact .punctuation (c := '-') rfl
  · exact .punctuation (c := '*') rfl
  · exact .punctuation (c := '/') rfl

theorem legible_spellRest {ns : List (Node Numeral)} (h : ∀ n ∈ ns, ∀ s ∈ n.spell, s.Legible) :
    ∀ s ∈ spellRest ns, s.Legible := by
  induction ns with
  | nil => simp [spellRest]
  | cons n ns ih =>
    have hrest := ih fun a ha => h a (List.mem_cons_of_mem n ha)
    refine List.forall_mem_cons.mpr ⟨.punctuation (c := ',') rfl, ?_⟩
    exact List.forall_mem_append.mpr ⟨h n List.mem_cons_self, hrest⟩

theorem legible_spellList {ns : List (Node Numeral)} (h : ∀ n ∈ ns, ∀ s ∈ n.spell, s.Legible) :
    ∀ s ∈ spellList ns, s.Legible := by
  cases ns with
  | nil => simp [spellList]
  | cons n ns =>
    have hrest := legible_spellRest fun a ha => h a (List.mem_cons_of_mem n ha)
    exact List.forall_mem_append.mpr ⟨h n List.mem_cons_self, hrest⟩

theorem legible_spell_expression {n : Node Numeral} (hn : n.IsExpression IsName) :
    ∀ s ∈ n.spell, s.Legible := by
  induction hn with
  | number value => exact List.forall_mem_singleton.mpr (.number value)
  | var h => exact List.forall_mem_singleton.mpr (.name h)
  | binary ho _ _ ihl ihr =>
    refine List.forall_mem_append.mpr ⟨legible_enclose ihl, ?_⟩
    exact List.forall_mem_cons.mpr ⟨legible_operator ho, legible_enclose ihr⟩
  | call h _ ih =>
    refine List.forall_mem_cons.mpr ⟨.name h, List.forall_mem_cons.mpr ⟨?_, ?_⟩⟩
    · exact .punctuation (c := '(') rfl
    · refine List.forall_mem_append.mpr ⟨legible_spellList ih, List.forall_mem_singleton.mpr ?_⟩
      exact .punctuation (c := ')') rfl

theorem legible_spell {n : Node Numeral} (hn : n.IsStatement IsName) : ∀ s ∈ n.spell, s.Legible := by
  cases hn with
  | assignment h he =>
    refine List.forall_mem_cons.mpr ⟨.name h, List.forall_mem_cons.mpr ⟨?_, ?_⟩⟩
    · exact .punctuation (c := '=') rfl
    · exact legible_spell_expression he
  | call he => exact legible_spell_expression he

theorem legible_spellAll {ns : List (Node Numeral)} (hn : ∀ n ∈ ns, n.IsStatement IsName) :
    ∀ s ∈ spellAll ns, s.Legible := by
  intro s hs
  obtain ⟨n, hn', hs'⟩ := List.mem_flatMap.mp hs
  exact legible_spell (hn n hn') s hs'

/-- Programs come back from their text. The literals are read as the numbers they spell; gaps may hold
anything ignored, and only those between two tokens have to hold something. -/
theorem compile_spellAll {ns : List (Node Numeral)} (hn : ∀ n ∈ ns, n.IsStatement IsName)
    (hd : nesting ((spellAll ns).map Symbol.kind) ≤ 100) {gap : Nat → List Char}
    (hg : ∀ i, IsGap (gap i)) (hs : ∀ i, 0 < i → i < (spellAll ns).length → gap i ≠ []) :
    compile (String.ofList (layOut gap ((spellAll ns).map Symbol.lexeme))) =
      .ok (.program (ns.map (map Numeral.value))) := by
  obtain ⟨ts, hts, hsymbols⟩ := @tokenize_layOut Float _ _ (legible_spellAll hn) gap hg hs
  obtain ⟨us, es, rfl, hu, he⟩ := List.map_eq_append_iff.mp hsymbols
  obtain ⟨⟨_, position⟩, rest, rfl, rfl, hrest⟩ := List.map_eq_cons_iff.mp he
  obtain rfl := List.map_eq_nil_iff.mp hrest
  have hp : Program us (ns.map (map Numeral.value)) := by
    refine program_spellAll (List.forall_mem_map.mpr fun n hn' => isStatement_map (hn n hn')) ?_
    exact hu.trans (spellAll_map hn).symm
  have hkinds : us.map Token.kind = (spellAll ns).map Symbol.kind := by
    have hf : Symbol.kind ∘ Symbol.map (Numeral.value : Numeral → Float) = Symbol.kind :=
      funext (kind_map _)
    have hk := congrArg (List.map Symbol.kind) hu
    rwa [List.map_map, List.map_map, hf] at hk
  have hparse := parse_of_nesting hp (hkinds ▸ hd) position
  unfold compile
  rw [hts]
  dsimp only
  rw [hparse]

theorem compile_of_bracketed_sum :
    ∃ one half : Numeral, one.lexeme = ['1'] ∧ half.lexeme = ['.', '5'] ∧
      compile "x = ( 1 #+\n+ .5 ) * f ( y ) g ( )" =
        .ok (.program [.assignment "x" (.binary "*" (.binary "+" (.number one.value)
          (.number half.value)) (.call "f" [.var "y"])), .call "g" []]) := by
  let one : Numeral := ⟨['1'], [], List.forall_mem_singleton.mpr rfl, List.cons_ne_nil _ _⟩
  let half : Numeral := ⟨[], ['5'], List.forall_mem_singleton.mpr rfl, List.cons_ne_nil _ _⟩
  let ns : List (Node Numeral) :=
    [.assignment "x" (.binary "*" (.binary "+" (.number one) (.number half)) (.call "f" [.var "y"])),
      .call "g" []]
  let gap : Nat → List Char := fun i =>
    if i = 0 ∨ i = 15 then [] else if i = 4 then [' ', '#', '+', '\n'] else [' ']
  have hname (c : Char) (hc : c.isAlpha = true) : IsName (String.singleton c) :=
    ⟨c, [], String.toList_singleton c, hc, nofun⟩
  have hsum : (Node.binary "+" (.number one) (.number half)).IsExpression IsName :=
    .binary (by decide) (.number one) (.number half)
  have hcall : (Node.call "f" [.var "y"] : Node Numeral).IsExpression IsName :=
    .call (hname 'f' rfl) (List.forall_mem_singleton.mpr (.var (hname 'y' rfl)))
  have hn : ∀ n ∈ ns, n.IsStatement IsName := by
    refine List.forall_mem_cons.mpr ⟨?_, List.forall_mem_singleton.mpr ?_⟩
    · exact .assignment (hname 'x' rfl) (.binary (by decide) hsum hcall)
    · exact .call (.call (hname 'g' rfl) nofun)
  have hg : ∀ i, IsGap (gap i) := by
    intro i
    dsimp only [gap]
    split
    · exact .nil
    · split
      · exact .blank (by decide) (@IsGap.comment ['+'] [] (by decide) .nil)
      · exact .blank (by decide) .nil
  have hs : ∀ i, 0 < i → i < (spellAll ns).length → gap i ≠ [] := by
    intro i hi hl
    have hl' : i < 15 := hl
    dsimp only [gap]
    rw [if_neg (by omega)]
    split <;> simp
  have h := compile_spellAll hn (by decide) hg hs
  exact ⟨one, half, rfl, rfl, h⟩

end Posterior
