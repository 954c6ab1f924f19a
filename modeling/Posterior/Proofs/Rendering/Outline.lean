import Posterior.Evaluation.Message
import Posterior.Proofs.Decimal
import Posterior.Proofs.FrontEnd
import Posterior.Proofs.Rendering
import Posterior.Proofs.Rendering.Paths

/-!
The outline of a tree and the tree it stands for. A line shows the level of a node, three characters of
margin for each, and its label; the levels alone tell which nodes are whose children. With the forms of
trees this settles what the two renderings of a program show of it.
-/

set_option autoImplicit false

namespace Posterior.Node

open Text

section Margins

def isRule (c : Char) : Bool := c ∈ [' ', '│', '├', '└', '─']

def Ruled (width : Nat) (s : String) : Prop := s.toList.length = width ∧ ∀ c ∈ s.toList, isRule c = true

instance (width : Nat) (s : String) : Decidable (Ruled width s) :=
  decidable_of_iff (s.toList.length = width ∧ s.toList.all isRule = true) (by rw [Ruled, List.all_eq_true])

theorem Ruled.append {a b : Nat} {s t : String} (hs : Ruled a s) (ht : Ruled b t) : Ruled (a + b) (s ++ t) := by
  rw [Ruled, String.toList_append, List.length_append, hs.1, ht.1]
  exact ⟨rfl, List.forall_mem_append.mpr ⟨hs.2, ht.2⟩⟩

structure Place.Stands (p : Place) (depth : Nat) : Prop where
  indent : p.indent = depth
  lead : Ruled (3 * (depth - 1)) p.lead

theorem Place.stands_root : Place.Stands {} 0 := ⟨rfl, by decide⟩

theorem Place.Stands.child {p : Place} {depth : Nat} (h : p.Stands depth) (isLast : Bool) :
    (p.child isLast).Stands (depth + 1) := by
  refine ⟨by rw [Place.child, h.indent]; rfl, ?_⟩
  cases depth with
  | zero =>
    have hi : p.indent = 0 := h.indent
    have hlead : (p.child isLast).lead = "" := if_pos hi
    rw [hlead]
    decide
  | succ depth =>
    have hi : p.indent ≠ 0 := by have := h.indent; omega
    have hlead : (p.child isLast).lead = p.lead ++ (if p.isLast then "   " else "│  ") := if_neg hi
    rw [hlead]
    refine h.lead.append ?_
    cases p.isLast <;> decide

theorem Place.Stands.margin {p : Place} {depth : Nat} (h : p.Stands depth) :
    Ruled (3 * depth) (p.lead ++ p.connector) := by
  cases depth with
  | zero =>
    have hi : p.indent = 0 := h.indent
    rw [Place.connector, if_pos hi]
    exact h.lead.append (show Ruled 0 "" by decide)
  | succ depth =>
    have hi : p.indent ≠ 0 := by have := h.indent; omega
    rw [Place.connector, if_neg hi]
    refine h.lead.append ?_
    cases p.isLast <;> decide

end Margins

section Labels

variable {β : Type} (numeral : β → String)

-- As for forms, the derived equations of `label` are slow to come by.
theorem label_number (value : β) : (number value).label numeral = "NumberLiteral(" ++ numeral value ++ ")" := rfl

theorem label_var (name : String) : (var name).label numeral = "Variable(" ++ name ++ ")" := rfl

theorem label_binary (op : String) (left right : Node β) :
    (binary op left right).label numeral = "BinaryExpression(" ++ op ++ ")" := rfl

theorem label_call (name : String) (args : List (Node β)) :
    (call name args).label numeral = "FunctionCall(" ++ name ++ ")" := rfl

theorem label_assignment (name : String) (expr : Node β) :
    (assignment name expr).label numeral = "Assignment(" ++ name ++ ")" := rfl

theorem label_program (statements : List (Node β)) : (program statements).label numeral = "Program" := rfl

theorem label_error (message : String) (position : Int) :
    (error message position : Node β).label numeral = "Error(" ++ message ++ ")" := rfl

theorem exists_label {n : Node β} (h : n.type ≠ .stray) :
    ∃ inner, (n.label numeral).toList = n.type.name.toList ++ inner ∧ EndsRun (· != '(') inner := by
  have hbrackets : (∃ more, (n.label numeral).toList = n.type.name.toList ++ '(' :: more) →
      ∃ inner, (n.label numeral).toList = n.type.name.toList ++ inner ∧ EndsRun (· != '(') inner := by
    rintro ⟨more, hmore⟩
    refine ⟨_, hmore, ?_⟩
    rintro c ⟨⟩
    rfl
  cases n with
  | stray text => exact absurd rfl h
  | program statements => exact ⟨[], by simp [label_program, type, NodeType.name], endsRun_nil _⟩
  | number | var | binary | call | assignment | error =>
    refine hbrackets ?_
    simp [label_number, label_var, label_binary, label_call, label_assignment, label_error, type, NodeType.name]

theorem head?_label {n : Node β} (h : n.type ≠ .stray) :
    (n.label numeral).toList.head? = n.type.name.toList.head? := by
  obtain ⟨inner, hlabel, -⟩ := exists_label numeral h
  rw [hlabel, List.head?_append]
  cases n.type <;> simp [NodeType.name]

theorem endsRun_label {n : Node β} (h : n.type ≠ .stray) : EndsRun isRule (n.label numeral).toList := by
  intro c hc
  rw [head?_label numeral h] at hc
  cases ht : n.type <;> rw [ht] at hc <;> simp [NodeType.name] at hc <;> subst hc <;> decide

theorem Legible.type_ne_stray {n : Node String} (h : n.Legible) : n.type ≠ .stray := by
  cases h <;> nofun

def OneLine (s : String) : Prop := '\n' ∉ s.toList

instance (s : String) : Decidable (OneLine s) := inferInstanceAs (Decidable ('\n' ∉ s.toList))

theorem OneLine.append {s t : String} (hs : OneLine s) (ht : OneLine t) : OneLine (s ++ t) := by
  rw [OneLine, String.toList_append, List.mem_append]
  exact not_or_intro hs ht

theorem oneLine_of_solid {s : String} (h : Solid s) : OneLine s := by
  intro hc
  cases h '\n' hc

theorem oneLine_label {n : Node String} (h : n.Legible) : OneLine (n.label id) := by
  have hop : ∀ op ∈ operators, Solid op := by decide
  cases h with
  | number h | var h | call h | assignment h =>
    exact (OneLine.append (by decide) (oneLine_of_solid h)).append (by decide)
  | binary ho => exact (OneLine.append (by decide) (oneLine_of_solid (hop _ ho))).append (by decide)
  | program =>
    rw [label_program]
    decide

theorem eq_of_bracketed {opening s t : String} (h : opening ++ s ++ ")" = opening ++ t ++ ")") : s = t :=
  (String.append_right_inj opening).mp ((String.append_left_inj ")").mp h)

theorem eq_of_label {n m : Node String} (hn : n.Legible) (hm : m.Legible) (hl : n.label id = m.label id)
    (hc : n.children = m.children) : n = m := by
  have ht : n.type = m.type := by
    refine NodeType.eq_of_head? ?_
    rw [← head?_label id hn.type_ne_stray, hl, head?_label id hm.type_ne_stray]
  cases hn with
  | number =>
    cases hm with
    | number => exact congrArg number (eq_of_bracketed hl)
    | _ => cases ht
  | var =>
    cases hm with
    | var => exact congrArg var (eq_of_bracketed hl)
    | _ => cases ht
  | binary =>
    cases hm with
    | binary =>
      obtain ⟨rfl, hright⟩ := List.cons.inj hc
      rw [eq_of_bracketed hl, List.head_eq_of_cons_eq hright]
    | _ => cases ht
  | call =>
    cases hm with
    | call => exact congr (congrArg call (eq_of_bracketed hl)) hc
    | _ => cases ht
  | assignment =>
    cases hm with
    | assignment => exact congr (congrArg assignment (eq_of_bracketed hl)) (List.head_eq_of_cons_eq hc)
    | _ => cases ht
  | program =>
    cases hm with
    | program => exact congrArg program hc
    | _ => cases ht

end Labels

section Levels

theorem Legible.children {n : Node String} (h : n.Legible) : ∀ c ∈ n.children, c.Legible := by
  cases h with
  | number | var => nofun
  | binary _ hl hr => simp [Node.children, hl, hr]
  | call _ ha => exact ha
  | assignment _ he => simp [Node.children, he]
  | program hs => exact hs

theorem Legible.induction {motive : Node String → Prop}
    (step : ∀ n : Node String, n.Legible → (∀ c ∈ n.children, motive c) → motive n) {n : Node String}
    (h : n.Legible) : motive n := by
  induction h with
  | number h => exact step _ (.number h) nofun
  | var h => exact step _ (.var h) nofun
  | binary ho hl hr ihl ihr => exact step _ (.binary ho hl hr) (by simp [Node.children, ihl, ihr])
  | call h ha ih => exact step _ (.call h ha) ih
  | assignment h he ih => exact step _ (.assignment h he) (by simp [Node.children, ih])
  | program hs ih => exact step _ (.program hs) ih

/-- The levels and labels of a tree whose root stands at `depth`, from top to bottom. -/
def profile (depth : Nat) (n : Node String) : List (Nat × String) :=
  (n.walk depth).map fun v => (v.depth, v.node.label id)

theorem profile_eq (depth : Nat) (n : Node String) :
    n.profile depth = (depth, n.label id) :: n.children.flatMap (profile (depth + 1)) := by
  rw [profile, walk_eq, List.map_cons, List.map_flatMap]
  rfl

/-- Levels and labels tell a tree: its children are what follows one level deeper, up to the next line that is
not deeper than the tree itself. -/
theorem separable_profile {n : Node String} (hn : n.Legible) :
    ∀ {m : Node String}, m.Legible → ∀ depth, Separable (profile depth) (fun k => depth < k.1) n m := by
  refine Legible.induction (motive := fun n => ∀ {m : Node String}, m.Legible → ∀ depth,
    Separable (profile depth) (fun k => depth < k.1) n m) (fun n hn ih m hm depth r r' hr hr' h => ?_) hn
  rw [profile_eq, profile_eq, List.cons_append, List.cons_append] at h
  obtain ⟨hhead, hrest⟩ := List.cons.inj h
  have hstart : ∀ cs : List (Node String), ∀ c ∈ cs,
      ∃ k ks, profile (depth + 1) c = k :: ks ∧ (k.1 == depth + 1) = true :=
    fun _ c _ => ⟨_, _, profile_eq _ c, beq_self_eq_true _⟩
  -- What ends the tree ends each of its children and is not one more child.
  have hdeeper : ∀ {ks : List (Nat × String)}, EndsRun (fun k => depth < k.1) ks →
      EndsRun (fun k => depth + 1 < k.1) ks ∧ EndsRun (fun k => k.1 == depth + 1) ks := by
    intro ks hks
    refine ⟨fun k hk => ?_, fun k hk => ?_⟩ <;> have := hks k hk <;> simp at this ⊢ <;> omega
  obtain ⟨hc, he⟩ := flatMap_append_inj (by simp) (hstart _) (hstart _)
    (fun c hcn d hdm => ih c hcn (hm.children d hdm) (depth + 1)) (hdeeper hr).1 (hdeeper hr').1
    (hdeeper hr).2 (hdeeper hr').2 hrest
  exact ⟨eq_of_label hn hm (Prod.mk.inj hhead).2 hc, he⟩

theorem profile_injective {n m : Node String} (hn : n.Legible) (hm : m.Legible) {depth : Nat}
    (h : n.profile depth = m.profile depth) : n = m := by
  have he : n.profile depth ++ [] = m.profile depth ++ [] := by rw [h]
  exact (separable_profile hn hm depth (endsRun_nil _) (endsRun_nil _) he).1

end Levels

section Lines

def readLine (line : String) : Nat × String :=
  ((line.toList.takeWhile isRule).length / 3, String.ofList (line.toList.dropWhile isRule))

def Shows {β : Type} (numeral : β → String) (l : String) (depth : Nat) (n : Node β) : Prop :=
  ∃ margin, Ruled (3 * depth) margin ∧ l = margin ++ n.label numeral

theorem shows_line {β : Type} (numeral : β → String) {p : Place} {depth : Nat} (hp : p.Stands depth) (n : Node β) :
    Shows numeral (line numeral p n) depth n :=
  ⟨p.lead ++ p.connector, hp.margin, rfl⟩

theorem Shows.readLine {β : Type} {numeral : β → String} {l : String} {depth : Nat} {n : Node β}
    (h : Shows numeral l depth n) (hn : n.type ≠ .stray) : readLine l = (depth, n.label numeral) := by
  obtain ⟨margin, ⟨hwidth, hrules⟩, rfl⟩ := h
  have hstop := endsRun_label numeral hn
  rw [Node.readLine, String.toList_append, takeWhile_append_stop hrules hstop, dropWhile_append_stop hrules hstop,
    hwidth, Nat.mul_div_cancel_left depth (by decide), String.ofList_toList]

theorem Shows.oneLine {l : String} {depth : Nat} {n : Node String} (h : Shows id l depth n) (hn : n.Legible) :
    OneLine l := by
  obtain ⟨margin, ⟨-, hrules⟩, rfl⟩ := h
  have hmargin : OneLine margin := by
    intro hc
    cases hrules '\n' hc
  exact hmargin.append (oneLine_label hn)

theorem outline_eq {α : Type} (numeral : α → String) (p : Place) (n : Node α) :
    n.outline numeral p = line numeral p n :: outlines numeral p n.children := by
  cases n <;> simp [outline, outlines, children]

section Visits

variable {α : Type} {numeral : α → String} {ls : List String} {vs : List (Visit α)}

abbrev ShowAll (numeral : α → String) : List String → List (Visit α) → Prop :=
  List.Forall₂ fun l v => Shows numeral l v.depth v.node

theorem showAll_outlines {cs : List (Node α)} {p : Place} {depth : Nat} (hp : p.Stands depth)
    (h : ∀ c ∈ cs, ∀ {q : Place}, q.Stands (depth + 1) → ShowAll numeral (c.outline numeral q) (c.walk (depth + 1))) :
    ShowAll numeral (outlines numeral p cs) (cs.flatMap (walk (depth + 1))) := by
  induction cs with
  | nil => exact .nil
  | cons c cs ih =>
    have hrest := ih fun a ha => h a (List.mem_cons_of_mem c ha)
    rw [outlines, List.flatMap_cons]
    exact List.rel_append (h c List.mem_cons_self (hp.child _)) hrest

theorem showAll_outline (numeral : α → String) (n : Node α) {p : Place} {depth : Nat} (hp : p.Stands depth) :
    ShowAll numeral (n.outline numeral p) (n.walk depth) := by
  induction n using induction_children generalizing p depth with
  | step n ih =>
    rw [outline_eq, walk_eq]
    exact .cons (shows_line numeral hp n) (showAll_outlines hp fun c hc _ hq => ih c hc hq)

theorem map_readLine_of_showAll (h : ShowAll numeral ls vs) (hv : ∀ v ∈ vs, v.node.type ≠ .stray) :
    ls.map readLine = vs.map fun v => (v.depth, v.node.label numeral) := by
  induction h with
  | nil => rfl
  | cons hl _ ih =>
    obtain ⟨hhead, htail⟩ := List.forall_mem_cons.mp hv
    rw [List.map_cons, List.map_cons, hl.readLine hhead, ih htail]

theorem oneLine_of_showAll {vs : List (Visit String)} (h : ShowAll id ls vs) (hv : ∀ v ∈ vs, v.node.Legible) :
    ∀ l ∈ ls, OneLine l := by
  induction h with
  | nil => nofun
  | cons hl _ ih =>
    obtain ⟨hhead, htail⟩ := List.forall_mem_cons.mp hv
    exact List.forall_mem_cons.mpr ⟨hl.oneLine hhead, ih htail⟩

end Visits

theorem Legible.visits {n : Node String} (h : n.Legible) (depth : Nat) : ∀ v ∈ n.walk depth, v.node.Legible := by
  induction n using induction_children generalizing depth with
  | step n ih =>
    rw [walk_eq]
    refine List.forall_mem_cons.mpr ⟨h, fun v hv => ?_⟩
    obtain ⟨c, hc, hv⟩ := List.mem_flatMap.mp hv
    exact ih c hc (h.children c hc) (depth + 1) v hv

theorem map_readLine_outline {n : Node String} (hn : n.Legible) {p : Place} {depth : Nat} (hp : p.Stands depth) :
    (n.outline id p).map readLine = n.profile depth :=
  map_readLine_of_showAll (showAll_outline id n hp) fun v hv => (hn.visits depth v hv).type_ne_stray

theorem oneLine_outline {n : Node String} (hn : n.Legible) {p : Place} {depth : Nat} (hp : p.Stands depth) :
    ∀ l ∈ n.outline id p, OneLine l :=
  oneLine_of_showAll (showAll_outline id n hp) (hn.visits depth)

theorem lines_injective {ls ls' : List String} (hl : ∀ l ∈ ls, OneLine l) (hl' : ∀ l ∈ ls', OneLine l)
    (hn : ls = [] ↔ ls' = []) (h : join "\n" ls = join "\n" ls') : ls = ls' := by
  have hs : ∀ l ∈ ls, ∀ m ∈ ls', Separable (fun x => (id x : String).toList) (· != '\n') l m := by
    intro l hmem m hmem' r r' hr hr' he
    have hne : ∀ {k : String}, OneLine k → ∀ c ∈ k.toList, (c != '\n') = true :=
      fun hk c hc => bne_iff_ne.mpr (ne_of_mem_of_not_mem hc hk)
    obtain ⟨hlm, hrest⟩ := run_append_inj (hne (hl l hmem)) (hne (hl' m hmem')) hr hr' he
    exact ⟨String.toList_inj.mp hlm, hrest⟩
  have hc : ("\n" : String).toList = ['\n'] := by simp
  have ht : (join "\n" (ls.map id)).toList ++ [] = (join "\n" (ls'.map id)).toList ++ [] := by
    rw [List.map_id, List.map_id, h]
  exact (join_append_inj hc (by decide) hs hn (endsRun_nil _) (endsRun_nil _) (endsRun_nil _) (endsRun_nil _) ht).1

/-- A legible tree can be read off its outline. -/
theorem outline_injective {n m : Node String} (hn : n.Legible) (hm : m.Legible) {p q : Place} {depth : Nat}
    (hp : p.Stands depth) (hq : q.Stands depth)
    (h : join "\n" (n.outline id p) = join "\n" (m.outline id q)) : n = m := by
  have hempty : n.outline id p = [] ↔ m.outline id q = [] := by
    rw [outline_eq, outline_eq]
    exact iff_of_false nofun nofun
  have hlines := lines_injective (oneLine_outline hn hp) (oneLine_outline hm hq) hempty h
  have hprofiles : n.profile depth = m.profile depth := by
    rw [← map_readLine_outline hn hp, hlines, map_readLine_outline hm hq]
  exact profile_injective hn hm hprofiles

end Lines

section Literals

variable {α β : Type} (f : α → β) (numeral : β → String)

theorem isEmpty_mapAll (ns : List (Node α)) : (mapAll f ns).isEmpty = ns.isEmpty := by
  cases ns <;> rfl

mutual

theorem outline_map : ∀ (n : Node α) (p : Place), (n.map f).outline numeral p = n.outline (numeral ∘ f) p
  | .number _, _ | .var _, _ | .error .., _ | .stray _, _ => rfl
  | .binary _ left right, p => by
    rw [map, outline, outline, outline_map left, outline_map right]
    rfl
  | .call _ args, p => by
    rw [map, outline, outline, outlines_map args]
    rfl
  | .assignment _ expr, p => by
    rw [map, outline, outline, outline_map expr]
    rfl
  | .program statements, p => by
    rw [map, outline, outline, outlines_map statements]
    rfl

theorem outlines_map : ∀ (ns : List (Node α)) (p : Place),
    outlines numeral p (mapAll f ns) = outlines (numeral ∘ f) p ns
  | [], _ => rfl
  | n :: ns, p => by rw [mapAll, outlines, outlines, isEmpty_mapAll, outline_map n, outlines_map ns]

end

end Literals

theorem pretty_eq_ok_iff {α : Type} {numeral : α → String} {p : Place} {n : Node α} {text : String} :
    n.pretty numeral p = .ok text ↔ n.fault? = none ∧ join "\n" (n.outline numeral p) = text := by
  unfold pretty
  cases n.fault? <;> simp

end Posterior.Node

namespace Posterior

open Node

theorem legible_of_compile {source : String} {p : Node Float} (h : compile source = .ok p) :
    (p.map brief).Legible := by
  obtain ⟨ns, rfl, hn⟩ := statements_of_compile h
  exact legible_of_statements hn (Decimal.Layout.general.solid_write)

theorem renders_of_compile {source : String} {p : Node Float} (h : compile source = .ok p)
    (hd : p.isTooDeep = false) :
    p.render brief = .ok (p.form brief) ∧ p.pretty brief {} = .ok (Text.join "\n" (p.outline brief {})) := by
  refine ⟨by rw [render, hd]; rfl, ?_⟩
  obtain ⟨ns, rfl, hn⟩ := statements_of_compile h
  obtain ⟨hpretty, -⟩ := walked_of_type (type_ne_stray_of_statements hn)
  obtain ⟨text, ht⟩ := (hpretty brief {}).2 fun v hv => by
    have := lt_of_isTooDeep hd v hv
    omega
  rw [ht, (pretty_eq_ok_iff.mp ht).2]

/-- The two renderings of compiled programs that are not too deep. Each of them is the same for two programs
exactly if the programs themselves are the same once every literal is replaced by the text it is shown as:
nesting, order, numbers of arguments and statements, operators and names are never confused. -/
theorem renderings_of_compile {source source' : String} {p q : Node Float} (hp : compile source = .ok p)
    (hq : compile source' = .ok q) (hdp : p.isTooDeep = false) (hdq : q.isTooDeep = false) :
    ∃ form form' outline outline',
      p.render brief = .ok form ∧ q.render brief = .ok form' ∧
      p.pretty brief {} = .ok outline ∧ q.pretty brief {} = .ok outline' ∧
      (form = form' ↔ p.map brief = q.map brief) ∧ (outline = outline' ↔ p.map brief = q.map brief) := by
  obtain ⟨hform, houtline⟩ := renders_of_compile hp hdp
  obtain ⟨hform', houtline'⟩ := renders_of_compile hq hdq
  have hl := legible_of_compile hp
  have hl' := legible_of_compile hq
  have hforms : ∀ n : Node Float, n.form brief = (n.map brief).form id := fun n => (form_map brief id n).symm
  have houtlines : ∀ n : Node Float, n.outline brief {} = (n.map brief).outline id {} :=
    fun n => (outline_map brief id n {}).symm
  refine ⟨_, _, _, _, hform, hform', houtline, houtline', ?_, ?_⟩
  · rw [hforms, hforms]
    exact ⟨form_injective hl hl', fun h => by rw [h]⟩
  · rw [houtlines, houtlines]
    exact ⟨outline_injective hl hl' Place.stands_root Place.stands_root, fun h => by rw [h]⟩

theorem renderings_of_nested_call :
    ∃ p q, compile "f(g(x))" = .ok p ∧ compile "f(g, x)" = .ok q ∧
      p.isTooDeep = false ∧ q.isTooDeep = false ∧
      p.render brief ≠ q.render brief ∧ p.pretty brief {} ≠ q.pretty brief {} := by
  have ht : (tokenize "f(g(x))" : Except LexFault (List (Token Float))) = .ok
      [⟨.mark .identifier "f", 0⟩, ⟨.mark .leftParen "(", 1⟩, ⟨.mark .identifier "g", 2⟩,
        ⟨.mark .leftParen "(", 3⟩, ⟨.mark .identifier "x", 4⟩, ⟨.mark .rightParen ")", 5⟩,
        ⟨.mark .rightParen ")", 6⟩, ⟨.eof, 7⟩] := by
    simp only [tokenize, String.reduceToList]
    rfl
  have ht' : (tokenize "f(g, x)" : Except LexFault (List (Token Float))) = .ok
      [⟨.mark .identifier "f", 0⟩, ⟨.mark .leftParen "(", 1⟩, ⟨.mark .identifier "g", 2⟩,
        ⟨.mark .comma ",", 3⟩, ⟨.mark .identifier "x", 5⟩, ⟨.mark .rightParen ")", 6⟩,
        ⟨.eof, 7⟩] := by
    simp only [tokenize, String.reduceToList]
    rfl
  have hp := compile_eq_ok_iff.mpr ⟨_, _, ht, rfl, rfl⟩
  have hq := compile_eq_ok_iff.mpr ⟨_, _, ht', rfl, rfl⟩
  obtain ⟨form, form', outline, outline', hf, hf', ho, ho', hform, houtline⟩ :=
    renderings_of_compile hp hq rfl rfl
  refine ⟨_, _, hp, hq, rfl, rfl, ?_, ?_⟩
  · rw [hf, hf']
    intro h
    cases hform.mp (Except.ok.inj h)
  · rw [ho, ho']
    intro h
    cases houtline.mp (Except.ok.inj h)

end Posterior
