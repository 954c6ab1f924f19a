import Posterior.Outline
import Posterior.Proofs.Spelling
import Posterior.Proofs.Unambiguous

/-!
The one-line form of a tree and the tree it stands for. Forms do not show literals but the texts they are
written as, so they are read here as forms of trees whose literals are texts. Where names and literals are
solid, such a tree can be read off its form, and the form shows where it ends.
-/

set_option autoImplicit false

namespace Posterior

open Text

theorem NodeType.eq_of_head? {t t' : NodeType} (h : t.name.toList.head? = t'.name.toList.head?) : t = t' := by
  cases t <;> cases t' <;> first | rfl | simp [name] at h

theorem NodeType.head?_ne (t : NodeType) {c : Char} (hc : c.isAlpha = false) :
    t.name.toList.head? ≠ some c := by
  intro h
  cases t <;> (simp only [name, String.reduceToList, List.head?_cons, Option.some.injEq] at h; subst h; cases hc)

namespace Node

section Literals

variable {α β : Type} (f : α → β) (numeral : β → String)

-- The equations that Lean derives for `form` itself are slow to come by, as they decode its texts.
theorem form_number (value : β) : (number value).form numeral = "NumberLiteral(" ++ numeral value ++ ")" := rfl

theorem form_var (name : String) : (var name).form numeral = "Variable(" ++ name ++ ")" := rfl

theorem form_binary (op : String) (left right : Node β) :
    (binary op left right).form numeral =
      "BinaryExpression(" ++ quoted op ++ ", " ++ left.form numeral ++ ", " ++ right.form numeral ++ ")" := rfl

theorem form_call (name : String) (args : List (Node β)) :
    (call name args).form numeral =
      "FunctionCall(" ++ name ++ ", [" ++ join ", " (forms numeral args) ++ "])" := rfl

theorem form_assignment (name : String) (expr : Node β) :
    (assignment name expr).form numeral = "Assignment(" ++ name ++ ", " ++ expr.form numeral ++ ")" := rfl

theorem form_program (statements : List (Node β)) :
    (program statements).form numeral = "Program([" ++ join ", " (forms numeral statements) ++ "])" := rfl

mutual

theorem form_map : ∀ n : Node α, (n.map f).form numeral = n.form (numeral ∘ f)
  | .number _ | .var _ | .error .. | .stray _ => rfl
  | .binary _ left right => by rw [map, form_binary, form_binary, form_map left, form_map right]
  | .call _ args => by rw [map, form_call, form_call, forms_map args]
  | .assignment _ expr => by rw [map, form_assignment, form_assignment, form_map expr]
  | .program statements => by rw [map, form_program, form_program, forms_map statements]

theorem forms_map : ∀ ns : List (Node α), forms numeral (mapAll f ns) = forms (numeral ∘ f) ns
  | [] => rfl
  | n :: ns => by rw [mapAll, forms, forms, form_map n, forms_map ns]

end

theorem forms_eq_map (ns : List (Node β)) : forms numeral ns = ns.map (form numeral) := by
  induction ns with
  | nil => rfl
  | cons n ns ih => rw [forms, ih, List.map_cons]

end Literals

inductive Legible : Node String → Prop where
  | number {literal : String} (h : Solid literal) : Legible (.number literal)
  | var {name : String} (h : Solid name) : Legible (.var name)
  | binary {op : String} {left right : Node String} (ho : op ∈ operators) (hl : Legible left)
      (hr : Legible right) : Legible (.binary op left right)
  | call {name : String} {args : List (Node String)} (h : Solid name) (ha : ∀ a ∈ args, Legible a) :
      Legible (.call name args)
  | assignment {name : String} {expr : Node String} (h : Solid name) (he : Legible expr) :
      Legible (.assignment name expr)
  | program {statements : List (Node String)} (hs : ∀ s ∈ statements, Legible s) :
      Legible (.program statements)

section Shape

variable {α : Type} {numeral : α → String}

theorem solid_of_isName {name : String} (h : IsName name) : Solid name := by
  obtain ⟨c, cs, hname, hc, hcs⟩ := h
  rw [Solid, hname]
  refine List.forall_mem_cons.mpr ⟨by simp [isSolid, Char.isAlphanum, hc], fun d hd => ?_⟩
  have hd := hcs d hd
  simp only [Lexer.isNameChar, Bool.or_eq_true, beq_iff_eq] at hd
  rcases hd with hd | rfl
  · simp [isSolid, hd]
  · decide

theorem IsExpression.legible {n : Node α} (h : n.IsExpression IsName) (hs : ∀ x, Solid (numeral x)) :
    (n.map numeral).Legible := by
  induction h with
  | number x => exact .number (hs x)
  | var h => exact .var (solid_of_isName h)
  | binary ho _ _ ihl ihr => exact .binary ho ihl ihr
  | call h _ ih =>
    refine .call (solid_of_isName h) ?_
    rw [mapAll_eq_map]
    exact List.forall_mem_map.mpr ih

theorem IsStatement.legible {n : Node α} (h : n.IsStatement IsName) (hs : ∀ x, Solid (numeral x)) :
    (n.map numeral).Legible := by
  cases h with
  | assignment h he => exact .assignment (solid_of_isName h) (he.legible hs)
  | call h => exact h.legible hs

theorem legible_of_statements {ns : List (Node α)} (h : ∀ n ∈ ns, n.IsStatement IsName)
    (hs : ∀ x, Solid (numeral x)) : (map numeral (.program ns)).Legible := by
  rw [map, mapAll_eq_map]
  exact .program (List.forall_mem_map.mpr fun n hn => (h n hn).legible hs)

end Shape

theorem head?_form {n : Node String} (h : n.Legible) (r : List Char) :
    ((n.form id).toList ++ r).head? = n.type.name.toList.head? := by
  cases h <;> simp [form_number, form_var, form_binary, form_call, form_assignment,
    form_program, type, NodeType.name]

theorem type_eq_of_form_append {n m : Node String} (hn : n.Legible) (hm : m.Legible) {r r' : List Char}
    (h : (n.form id).toList ++ r = (m.form id).toList ++ r') : n.type = m.type := by
  refine NodeType.eq_of_head? ?_
  rw [← head?_form hn r, h, head?_form hm r']

theorem quoted_append_inj {op op' : String} (h : op ∈ operators) (h' : op' ∈ operators) {r r' : List Char}
    (he : (quoted op).toList ++ r = (quoted op').toList ++ r') : op = op' ∧ r = r' := by
  have hlength : ∀ op ∈ operators, (quoted op).toList.length = 3 := by decide +kernel
  have hquoted : ∀ op ∈ operators, ∀ op' ∈ operators, quoted op = quoted op' → op = op' := by
    decide +kernel
  obtain ⟨hq, hr⟩ := List.append_inj he ((hlength op h).trans (hlength op' h').symm)
  exact ⟨hquoted op h op' h' (String.toList_inj.mp hq), hr⟩

/-- Forms between brackets: the bracket that closes them is not the beginning of one more. -/
theorem forms_append_inj {ns ms : List (Node String)} (hn : ∀ n ∈ ns, n.Legible)
    (hm : ∀ m ∈ ms, m.Legible)
    (hs : ∀ n ∈ ns, ∀ m ∈ ms, Separable (fun x => (form id x).toList) isSolid n m) {r r' : List Char}
    (h : (join ", " (forms id ns)).toList ++ ']' :: r = (join ", " (forms id ms)).toList ++ ']' :: r') :
    ns = ms ∧ r = r' := by
  have hopen : ∀ {ls : List (Node String)}, (∀ l ∈ ls, l.Legible) → ∀ cs,
      ((join ", " (forms id ls)).toList ++ ']' :: cs).head? = some ']' ↔ ls = [] := by
    intro ls hl cs
    cases ls with
    | nil => simp [forms]
    | cons l ls =>
      rw [forms, toList_join_cons, List.append_assoc, head?_form (hl l List.mem_cons_self)]
      exact iff_of_false (l.type.head?_ne (by decide)) nofun
  have hempty : ns = [] ↔ ms = [] := by rw [← hopen hn r, h, hopen hm r']
  rw [forms_eq_map, forms_eq_map] at h
  obtain ⟨rfl, hr⟩ := join_append_inj (show (", " : String).toList = [',', ' '] by simp) (by decide) hs hempty
    (endsRun_cons (by decide) r) (endsRun_cons (by decide) r') (endsRun_cons (by decide) r)
    (endsRun_cons (by decide) r') h
  exact ⟨rfl, List.tail_eq_of_cons_eq hr⟩

theorem form_append_inj {n m : Node String} (hn : n.Legible) (hm : m.Legible) {r r' : List Char}
    (h : (n.form id).toList ++ r = (m.form id).toList ++ r') : n = m ∧ r = r' := by
  have hclose : ∀ cs : List Char, EndsRun isSolid (")".toList ++ cs) := endsRun_cons (by decide)
  have hcomma : ∀ cs : List Char, EndsRun isSolid (", ".toList ++ cs) := fun _ => endsRun_cons (by decide) _
  have hopen : ∀ cs : List Char, EndsRun isSolid (", [".toList ++ cs) := fun _ => endsRun_cons (by decide) _
  induction hn generalizing m r r' with
  | number hs =>
    have ht := type_eq_of_form_append (.number hs) hm h
    cases hm with
    | number hs' =>
      simp only [form_number, String.toList_append, List.append_assoc] at h
      obtain ⟨rfl, hrest⟩ := hs.append_inj hs' (hclose r) (hclose r') (List.append_cancel_left h)
      exact ⟨rfl, List.append_cancel_left hrest⟩
    | _ => cases ht
  | var hs =>
    have ht := type_eq_of_form_append (.var hs) hm h
    cases hm with
    | var hs' =>
      simp only [form_var, String.toList_append, List.append_assoc] at h
      obtain ⟨rfl, hrest⟩ := hs.append_inj hs' (hclose r) (hclose r') (List.append_cancel_left h)
      exact ⟨rfl, List.append_cancel_left hrest⟩
    | _ => cases ht
  | binary ho hl hr ihl ihr =>
    have ht := type_eq_of_form_append (.binary ho hl hr) hm h
    cases hm with
    | binary ho' hl' hr' =>
      simp only [form_binary, String.toList_append, List.append_assoc] at h
      obtain ⟨rfl, hlefts⟩ := quoted_append_inj ho ho' (List.append_cancel_left h)
      obtain ⟨rfl, hrights⟩ := ihl hl' (List.append_cancel_left hlefts)
      obtain ⟨rfl, hrest⟩ := ihr hr' (List.append_cancel_left hrights)
      exact ⟨rfl, List.append_cancel_left hrest⟩
    | _ => cases ht
  | call hs ha ih =>
    have ht := type_eq_of_form_append (.call hs ha) hm h
    cases hm with
    | call hs' ha' =>
      simp only [form_call, String.toList_append, List.append_assoc] at h
      obtain ⟨rfl, hargs⟩ := hs.append_inj hs' (hopen _) (hopen _) (List.append_cancel_left h)
      obtain ⟨rfl, hrest⟩ := forms_append_inj ha ha' (fun a hmem b hb _ _ _ _ he => ih a hmem (ha' b hb) he)
        (List.append_cancel_left hargs)
      exact ⟨rfl, List.tail_eq_of_cons_eq hrest⟩
    | _ => cases ht
  | assignment hs he ih =>
    have ht := type_eq_of_form_append (.assignment hs he) hm h
    cases hm with
    | assignment hs' he' =>
      simp only [form_assignment, String.toList_append, List.append_assoc] at h
      obtain ⟨rfl, hexprs⟩ := hs.append_inj hs' (hcomma _) (hcomma _) (List.append_cancel_left h)
      obtain ⟨rfl, hrest⟩ := ih he' (List.append_cancel_left hexprs)
      exact ⟨rfl, List.append_cancel_left hrest⟩
    | _ => cases ht
  | program hs ih =>
    have ht := type_eq_of_form_append (.program hs) hm h
    cases hm with
    | program hs' =>
      simp only [form_program, String.toList_append, List.append_assoc] at h
      obtain ⟨rfl, hrest⟩ := forms_append_inj hs hs' (fun a hmem b hb _ _ _ _ he => ih a hmem (hs' b hb) he)
        (List.append_cancel_left h)
      exact ⟨rfl, List.tail_eq_of_cons_eq hrest⟩
    | _ => cases ht

theorem form_injective {n m : Node String} (hn : n.Legible) (hm : m.Legible) (h : n.form id = m.form id) :
    n = m := by
  have hl : (n.form id).toList ++ [] = (m.form id).toList ++ [] := by rw [h]
  exact (form_append_inj hn hm hl).1

end Node

end Posterior
