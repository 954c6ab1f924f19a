import Posterior.Parser

/-!
The grammar as a relation between tokens and trees. Operators of one level group to the left, as their
rules recurse on the left; a pair of brackets adds nothing to the tree.
-/

set_option autoImplicit false

namespace Posterior.Grammar

inductive Phrase where
  | expression
  | term
  | factor
  | call
  | statement
  deriving DecidableEq, Repr

variable {α : Type}

inductive Led : List (List (Token α)) → List (Token α) → Prop where
  | nil : Led [] []
  | cons {ts us : List (Token α)} {runs : List (List (Token α))} (text : String) (position : Int)
      (h : Led runs us) : Led (ts :: runs) (⟨.mark .comma text, position⟩ :: (ts ++ us))

inductive Separated : List (List (Token α)) → List (Token α) → Prop where
  | none : Separated [] []
  | some {ts us : List (Token α)} {runs : List (List (Token α))} (h : Led runs us) :
      Separated (ts :: runs) (ts ++ us)

/-- The tokens of a phrase and its tree. Names and operators are what the tokens say. -/
inductive Derives [Arithmetic α] : Phrase → List (Token α) → Node α → Prop where
  | term {ts : List (Token α)} {n : Node α} (h : Derives .term ts n) : Derives .expression ts n
  | sum {m : Mark} {op : String} {position : Int} {ls rs : List (Token α)} {l r : Node α}
      (hm : m ∈ [Mark.plus, Mark.minus]) (hl : Derives .expression ls l)
      (hr : Derives .term rs r) :
      Derives .expression (ls ++ ⟨.mark m op, position⟩ :: rs) (.binary op l r)
  | factor {ts : List (Token α)} {n : Node α} (h : Derives .factor ts n) : Derives .term ts n
  | product {m : Mark} {op : String} {position : Int} {ls rs : List (Token α)} {l r : Node α}
      (hm : m ∈ [Mark.star, Mark.slash]) (hl : Derives .term ls l) (hr : Derives .factor rs r) :
      Derives .term (ls ++ ⟨.mark m op, position⟩ :: rs) (.binary op l r)
  | number (value : α) (position : Int) :
      Derives .factor [⟨.number value, position⟩] (.number value)
  | name (name : String) (position : Int) :
      Derives .factor [⟨.mark .identifier name, position⟩] (.var name)
  | application {ts : List (Token α)} {n : Node α} (h : Derives .call ts n) :
      Derives .factor ts n
  | group {left right : String} {i j : Int} {ts : List (Token α)} {n : Node α}
      (h : Derives .expression ts n) :
      Derives .factor (⟨.mark .leftParen left, i⟩ :: (ts ++ [⟨.mark .rightParen right, j⟩])) n
  | negation {text : String} {position : Int} {ts : List (Token α)} {n : Node α}
      (h : Derives .factor ts n) :
      Derives .factor (⟨.mark .minus text, position⟩ :: ts)
        (.binary "-" (.number Arithmetic.zero) n)
  | call {name left right : String} {i j k : Int} {ts : List (Token α)}
      (args : List (List (Token α) × Node α)) (hs : Separated (args.map Prod.fst) ts)
      (ha : ∀ a ∈ args, Derives .expression a.1 a.2) :
      Derives .call (⟨.mark .identifier name, i⟩ :: ⟨.mark .leftParen left, j⟩ ::
        (ts ++ [⟨.mark .rightParen right, k⟩])) (.call name (args.map Prod.snd))
  | callStatement {ts : List (Token α)} {n : Node α} (h : Derives .call ts n) :
      Derives .statement ts n
  | assignment {name text : String} {i j : Int} {ts : List (Token α)} {n : Node α}
      (h : Derives .expression ts n) :
      Derives .statement (⟨.mark .identifier name, i⟩ :: ⟨.mark .equal text, j⟩ :: ts)
        (.assignment name n)

inductive Program [Arithmetic α] : List (Token α) → List (Node α) → Prop where
  | nil : Program [] []
  | cons {ts us : List (Token α)} {n : Node α} {ns : List (Node α)}
      (h : Derives .statement ts n) (hs : Program us ns) : Program (ts ++ us) (n :: ns)

theorem Led.mem {runs : List (List (Token α))} {ts : List (Token α)} (h : Led runs ts)
    {t : Token α} (ht : t ∈ ts) : (∃ us ∈ runs, t ∈ us) ∨ t.kind = .mark .comma := by
  induction h with
  | nil => simp at ht
  | cons text position h ih =>
    rcases List.mem_cons.mp ht with rfl | ht
    · exact .inr rfl
    · rcases List.mem_append.mp ht with ht | ht
      · exact .inl ⟨_, List.mem_cons_self, ht⟩
      · rcases ih ht with ⟨us, hus, hu⟩ | hc
        · exact .inl ⟨us, List.mem_cons_of_mem _ hus, hu⟩
        · exact .inr hc

theorem Separated.mem {runs : List (List (Token α))} {ts : List (Token α)} (h : Separated runs ts)
    {t : Token α} (ht : t ∈ ts) : (∃ us ∈ runs, t ∈ us) ∨ t.kind = .mark .comma := by
  cases h with
  | none => simp at ht
  | some h =>
    rcases List.mem_append.mp ht with ht | ht
    · exact .inl ⟨_, List.mem_cons_self, ht⟩
    · rcases h.mem ht with ⟨us, hus, hu⟩ | hc
      · exact .inl ⟨us, List.mem_cons_of_mem _ hus, hu⟩
      · exact .inr hc

theorem Led.subset {runs : List (List (Token α))} {ts : List (Token α)} (h : Led runs ts)
    {us : List (Token α)} (hu : us ∈ runs) : us ⊆ ts := by
  induction h with
  | nil => cases hu
  | cons text position h ih =>
    refine List.Subset.trans ?_ (List.subset_cons_self _ _)
    rcases List.mem_cons.mp hu with rfl | hu
    · exact List.subset_append_left _ _
    · exact List.Subset.trans (ih hu) (List.subset_append_right _ _)

theorem Separated.subset {runs : List (List (Token α))} {ts : List (Token α)} (h : Separated runs ts)
    {us : List (Token α)} (hu : us ∈ runs) : us ⊆ ts := by
  cases h with
  | none => cases hu
  | some h =>
    rcases List.mem_cons.mp hu with rfl | hu
    · exact List.subset_append_left _ _
    · exact List.Subset.trans (h.subset hu) (List.subset_append_right _ _)

variable [Arithmetic α]

theorem Derives.kind_ne_eof {p : Phrase} {ts : List (Token α)} {n : Node α} (h : Derives p ts n)
    {t : Token α} (ht : t ∈ ts) : t.kind ≠ .eof := by
  induction h with
  | term _ ih | factor _ ih | application _ ih | callStatement _ ih => exact ih ht
  | sum _ _ _ ihl ihr | product _ _ _ ihl ihr =>
    rcases List.mem_append.mp ht with ht | ht
    · exact ihl ht
    · rcases List.mem_cons.mp ht with rfl | ht
      · simp
      · exact ihr ht
  | number | name =>
    rw [List.mem_singleton.mp ht]
    simp
  | group _ ih =>
    simp only [List.mem_cons, List.mem_append, List.not_mem_nil, or_false] at ht
    rcases ht with rfl | ht | rfl
    · simp
    · exact ih ht
    · simp
  | negation _ ih =>
    rcases List.mem_cons.mp ht with rfl | ht
    · simp
    · exact ih ht
  | call args hs _ ih =>
    simp only [List.mem_cons, List.mem_append, List.not_mem_nil, or_false] at ht
    rcases ht with rfl | rfl | ht | rfl
    · simp
    · simp
    · rcases hs.mem ht with ⟨us, hus, hu⟩ | hc
      · obtain ⟨a, ha, rfl⟩ := List.mem_map.mp hus
        exact ih a ha hu
      · simp [hc]
    · simp
  | assignment _ ih =>
    rcases List.mem_cons.mp ht with rfl | ht
    · simp
    · rcases List.mem_cons.mp ht with rfl | ht
      · simp
      · exact ih ht

theorem Program.kind_ne_eof {ts : List (Token α)} {ns : List (Node α)} (h : Program ts ns)
    {t : Token α} (ht : t ∈ ts) : t.kind ≠ .eof := by
  induction h with
  | nil => simp at ht
  | cons h _ ih =>
    rcases List.mem_append.mp ht with ht | ht
    · exact h.kind_ne_eof ht
    · exact ih ht

end Posterior.Grammar
