import Posterior.Proofs.Determinism
import Posterior.Proofs.Grammar.Recognition
import Posterior.Proofs.Replay

/-!
A replay ends as the run did, under any generator, and takes no draw. The store carries the run from tree to
tree: a call that takes a draw leaves the store alone, so that the number in its place does as well.
-/

set_option autoImplicit false

namespace Posterior

open Node Step Grammar

section Trees

variable {α : Type}

namespace Node

def changesStore (n : Node α) : Bool := n.isObserveCall || n.isAssignment

theorem DrawsApartFrom.children {sort : Node α → Bool} {n : Node α} {ns : List (Node α)}
    (h : DrawsApartFrom sort (n :: ns)) : DrawsApartFrom sort n.children :=
  fun _ hc args hw => h n List.mem_cons_self args (.child hc hw)

theorem DrawsApartFrom.tail {sort : Node α → Bool} {n : Node α} {ns : List (Node α)}
    (h : DrawsApartFrom sort (n :: ns)) : DrawsApartFrom sort ns :=
  fun c hc => h c (List.mem_cons_of_mem n hc)

theorem DrawsApartFrom.changesStore {ns : List (Node α)} (hs : DrawsApartFrom isObserveCall ns)
    (ha : DrawsApartFrom isAssignment ns) :
    DrawsApartFrom Node.changesStore ns := by
  intro n hn args hw a hmem c hc
  rw [Node.changesStore, hs n hn args hw a hmem c hc, ha n hn args hw a hmem c hc]
  rfl

theorem FitsIn.depth_lt {levels depth : Nat} {n : Node α} (h : n.FitsIn levels) :
    ∀ v ∈ n.walk depth, v.depth < depth + levels := by
  induction levels generalizing n depth with
  | zero => exact h.elim
  | succ levels ih =>
    intro v hv
    rw [walk_eq] at hv
    rcases List.mem_cons.mp hv with rfl | hv
    · exact Nat.lt_add_of_pos_right (Nat.succ_pos levels)
    · obtain ⟨c, hc, hv⟩ := List.mem_flatMap.mp hv
      have hlt := ih (h c hc) v hv
      omega

theorem Visit.fault?_eq_none {v : Visit α} (hd : v.depth ≤ maxDepth) (hn : v.node.type ≠ .stray) :
    v.fault? = none := by
  unfold Visit.fault?
  rw [if_neg (Nat.not_lt.mpr hd)]
  split
  · next hs =>
    rw [hs] at hn
    exact absurd rfl hn
  · rfl

end Node

variable [Arithmetic α]

theorem Grammar.Derives.isAssignment_eq_false {p : Phrase} {ts : List (Token α)} {n : Node α}
    (h : Derives p ts n) :
    (∀ c ∈ n.children, ∀ m, Within m c → m.isAssignment = false) ∧
      (p ≠ .statement → n.isAssignment = false) := by
  have hwithin {c : Node α} (hc : ∀ b ∈ c.children, ∀ m, Within m b → m.isAssignment = false)
      (hn : c.isAssignment = false) (m : Node α) (hm : Within m c) : m.isAssignment = false := by
    cases hm with
    | root => exact hn
    | child hb hm => exact hc _ hb m hm
  induction h with
  | term _ ih | factor _ ih | application _ ih | group _ ih => exact ⟨ih.1, fun _ => ih.2 nofun⟩
  | sum _ _ _ ihl ihr | product _ _ _ ihl ihr =>
    refine ⟨?_, fun _ => rfl⟩
    exact List.forall_mem_cons.mpr ⟨hwithin ihl.1 (ihl.2 nofun),
      List.forall_mem_singleton.mpr (hwithin ihr.1 (ihr.2 nofun))⟩
  | number | name => exact ⟨nofun, fun _ => rfl⟩
  | negation _ ih =>
    refine ⟨?_, fun _ => rfl⟩
    exact List.forall_mem_cons.mpr ⟨hwithin nofun rfl,
      List.forall_mem_singleton.mpr (hwithin ih.1 (ih.2 nofun))⟩
  | call args _ _ ih =>
    refine ⟨fun c hc => ?_, fun _ => rfl⟩
    obtain ⟨a, ha, rfl⟩ := List.mem_map.mp hc
    exact hwithin (ih a ha).1 ((ih a ha).2 nofun)
  | callStatement _ ih => exact ⟨ih.1, fun h => absurd rfl h⟩
  | assignment _ ih =>
    exact ⟨List.forall_mem_singleton.mpr (hwithin ih.1 (ih.2 nofun)), fun h => absurd rfl h⟩

theorem Grammar.Program.drawsApartFrom {ts : List (Token α)} {ns : List (Node α)}
    (h : Program ts ns) : DrawsApartFrom isAssignment ns := by
  induction h with
  | nil => exact nofun
  | cons h _ ih =>
    refine List.forall_mem_cons.mpr ⟨fun args hw a ha c hc => ?_, ih⟩
    obtain ⟨b, hb, hw'⟩ := hw.exists_child (c := a) ha
    exact h.isAssignment_eq_false.1 b hb c (hc.trans hw')

end Trees

variable {α : Type} [Arithmetic α] {n : Node α} {ns ns' : List (Node α)} {m m' : Machine α}
  {es : List (Effect α)} {v : Value α} {vs : List (Value α)}

section Stores

theorem Acts.store_eq (h : Acts n vs m es v m') (hn : n.changesStore = false) :
    m'.store = m.store := by
  cases h with
  | number | var | binary | sample | family | math => rfl
  | assignment => cases hn
  | observe => cases hn

theorem Performs.store_eq (h : Performs ns m es vs m')
    (hn : ∀ n ∈ ns, ∀ c, Within c n → c.changesStore = false) : m'.store = m.store := by
  induction h with
  | nil => rfl
  | @cons n _ _ _ _ _ _ _ _ _ _ _ _ ha _ ihc ihs =>
    rw [ihs fun a ha => hn a (List.mem_cons_of_mem n ha), ha.store_eq (hn n List.mem_cons_self n .root)]
    exact ihc fun c hc a hw => hn n List.mem_cons_self a (.child hc hw)

theorem Acts.exists_number (h : Acts n vs m es v m') (hn : n.isSampleCall = true) :
    ∃ args x, n = .call "sample" args ∧ v = .number x := by
  cases h with
  | number | var | binary | assignment | observe => cases hn
  | sample => exact ⟨_, _, rfl, rfl⟩
  | @family f =>
    rw [isSampleCall, beq_iff_eq] at hn
    exact absurd hn f.name_ne.1
  | math hf =>
    rw [isSampleCall, beq_iff_eq] at hn
    exact absurd hn (Callee.name_ne_of_math hf).1

theorem Performs.store_eq_of_sample {args : List (Node α)}
    (h : Performs [.call "sample" args] m es vs m')
    (hn : ∀ a ∈ args, ∀ c, Within c a → c.changesStore = false) : m'.store = m.store := by
  refine h.store_eq fun n hmem c hc => ?_
  obtain rfl := List.mem_singleton.mp hmem
  cases hc with
  | root => rfl
  | child ha hc => exact hn _ ha c hc

end Stores

namespace Replays

theorem length_eq (h : Replays ns m ns' vs m') : ns'.length = ns.length := by
  induction h with
  | nil => rfl
  | draw _ _ ih => exact congrArg (· + 1) ih
  | keep _ _ _ _ _ ih => exact congrArg (· + 1) ih

theorem performs (h : Replays ns m ns' vs m') : ∃ es, Performs ns m es vs m' := by
  induction h with
  | nil m => exact ⟨[], .nil m⟩
  | draw hd _ ih =>
    obtain ⟨es, hs⟩ := ih
    exact ⟨_, hd.append hs⟩
  | keep _ _ ha _ ihc ihs =>
    obtain ⟨es, hc⟩ := ihc
    obtain ⟨gs, hs⟩ := ihs
    exact ⟨_, .cons hc ha hs⟩

theorem exists_of_performs (h : Performs ns m es vs m') : ∃ ns', Replays ns m ns' vs m' := by
  induction h with
  | nil m => exact ⟨[], .nil m⟩
  | @cons n _ _ _ _ _ _ _ _ _ _ _ hc ha _ ihc ihs =>
    obtain ⟨cs, hc'⟩ := ihc
    obtain ⟨ns', hs⟩ := ihs
    cases hn : n.isSampleCall with
    | true =>
      obtain ⟨args, x, rfl, rfl⟩ := ha.exists_number hn
      exact ⟨_, .draw (.cons hc ha (.nil _)) hs⟩
    | false => exact ⟨_, .keep hn hc' ha hs⟩

/-- A replay has no more levels than what it replays. -/
theorem fitsIn {levels : Nat} (h : Replays ns m ns' vs m') (hf : ∀ n ∈ ns, n.FitsIn levels) :
    ∀ n ∈ ns', n.FitsIn levels := by
  induction h generalizing levels with
  | nil => exact hf
  | draw _ _ ih =>
    obtain ⟨hf, hfs⟩ := List.forall_mem_cons.mp hf
    refine List.forall_mem_cons.mpr ⟨?_, ih hfs⟩
    cases levels with
    | zero => exact hf.elim
    | succ levels => exact fun c hc => nomatch hc
  | keep _ hc _ _ ihc ihs =>
    obtain ⟨hf, hfs⟩ := List.forall_mem_cons.mp hf
    refine List.forall_mem_cons.mpr ⟨?_, ihs hfs⟩
    cases levels with
    | zero => exact hf.elim
    | succ levels =>
      rw [FitsIn, children_withChildren hc.length_eq]
      exact ihc hf

theorem unique {levels : Nat} {ms : List (Node α)} {ws : List (Value α)} {m₁ : Machine α}
    (h : Replays ns m ns' vs m') (h' : Replays ns m ms ws m₁)
    (hf : ∀ n ∈ ns, n.FitsIn levels) : ns' = ms ∧ vs = ws ∧ m' = m₁ := by
  have hvalue {n : Node α} {m m₁ m₂ : Machine α} {es fs : List (Effect α)} {v w : Value α}
      {levels : Nat} (hf : n.FitsIn levels) (hv : Performs [n] m es [v] m₁)
      (hw : Performs [n] m fs [w] m₂) : v = w ∧ m₁ = m₂ := by
    have heq := (follows_evaluate hf _ _ _ _ hv).symm.trans (follows_evaluate hf _ _ _ _ hw)
    cases heq
    exact ⟨rfl, rfl⟩
  induction h generalizing ms ws m₁ levels with
  | nil =>
    cases h'
    exact ⟨rfl, rfl, rfl⟩
  | draw hd _ ih =>
    obtain ⟨hf, hfs⟩ := List.forall_mem_cons.mp hf
    cases h' with
    | draw hd' hs' =>
      obtain ⟨⟨⟩, rfl⟩ := hvalue hf hd hd'
      obtain ⟨rfl, rfl, rfl⟩ := ih hs' hfs
      exact ⟨rfl, rfl, rfl⟩
    | keep hn => cases hn
  | keep hn hc ha _ ihc ihs =>
    obtain ⟨hf, hfs⟩ := List.forall_mem_cons.mp hf
    cases h' with
    | draw => cases hn
    | keep _ hc' ha' hs' =>
      cases levels with
      | zero => exact hf.elim
      | succ levels =>
        obtain ⟨rfl, rfl, rfl⟩ := ihc hc' hf
        obtain ⟨es, hp⟩ := hc.performs
        obtain ⟨rfl, rfl⟩ := hvalue hf (.cons hp ha (.nil _)) (.cons hp ha' (.nil _))
        obtain ⟨rfl, rfl, rfl⟩ := ihs hs' hfs
        exact ⟨rfl, rfl, rfl⟩

theorem walk (h : Replays ns m ns' vs m') :
    ∀ n ∈ ns', ∀ depth, ∀ v ∈ n.walk depth, v.node.isSampleCall = false ∧ v.node.type ≠ .stray := by
  induction h with
  | nil => exact nofun
  | draw _ _ ih =>
    refine List.forall_mem_cons.mpr ⟨fun depth v hv => ?_, ih⟩
    obtain rfl := List.mem_singleton.mp hv
    exact ⟨rfl, nofun⟩
  | keep hn hc ha _ ihc ihs =>
    refine List.forall_mem_cons.mpr ⟨fun depth v hv => ?_, ihs⟩
    rw [walk_eq, children_withChildren hc.length_eq] at hv
    rcases List.mem_cons.mp hv with rfl | hv
    · refine ⟨(isSampleCall_withChildren _ _).trans hn, ?_⟩
      rw [type_withChildren]
      cases ha <;> exact nofun
    · obtain ⟨c, hc, hv⟩ := List.mem_flatMap.mp hv
      exact ihc c hc (depth + 1) v hv

theorem isDeterministic_eq_true (h : Replays ns m ns' vs m') (hf : ∀ n ∈ ns, n.FitsIn maxDepth) :
    (Node.program ns').isDeterministic = .ok true := by
  refine isDeterministic_eq_true_iff.mpr fun v hv => ?_
  rw [walk_eq] at hv
  rcases List.mem_cons.mp hv with rfl | hv
  · exact ⟨Visit.fault?_eq_none (Nat.zero_le _) nofun, rfl⟩
  · obtain ⟨n, hn, hv⟩ := List.mem_flatMap.mp hv
    obtain ⟨hs, ht⟩ := h.walk n hn 1 v hv
    have hd := (h.fitsIn hf n hn).depth_lt v hv
    exact ⟨Visit.fault?_eq_none (by omega) ht, hs⟩

end Replays

/-- What a node does to the store it does over other subtrees and under another generator, unless it takes
a draw. -/
theorem Acts.keep (h : Acts n vs m es v m') (hn : n.isSampleCall = false) {cs : List (Node α)}
    (hl : cs.length = n.children.length) (g : Generator α) :
    ∃ fs, Acts (n.withChildren cs) vs ⟨m.store, g⟩ fs v ⟨m'.store, g⟩ := by
  cases h with
  | number x => exact ⟨[], .number x _⟩
  | var hx => exact ⟨[], .var hx⟩
  | @binary op _ _ x y z _ hz =>
    match cs, hl with
    | [left, right], _ =>
      refine ⟨[], .binary ?_⟩
      rcases operate_cases op x y with ⟨w, hw⟩ | ⟨failure, hw⟩
      · rw [hw] at hz ⊢
        cases hz
        rfl
      · rw [hw] at hz
        cases hz
  | assignment name expr x =>
    match cs, hl with
    | [expr], _ => exact ⟨[], .assignment name expr x _⟩
  | sample => cases hn
  | observe args x d => exact ⟨_, .observe cs x d _⟩
  | family hd => exact ⟨[], .family hd⟩
  | math hf => exact ⟨[], .math hf⟩

/-- A replay yields the same values and leaves the same store under any generator, and takes no draw. -/
theorem Replays.replayed (h : Replays ns m ns' vs m') (hd : DrawsApartFrom changesStore ns)
    (g : Generator α) : ∃ es, Performs ns' ⟨m.store, g⟩ es vs ⟨m'.store, g⟩ := by
  induction h with
  | nil => exact ⟨[], .nil _⟩
  | @draw args _ _ _ _ _ _ x _ hp _ ih =>
    obtain ⟨es, hs⟩ := ih hd.tail
    rw [hp.store_eq_of_sample (hd _ List.mem_cons_self args .root)] at hs
    exact ⟨_, .cons (.nil _) (.number x _) hs⟩
  | keep hn hc ha _ ihc ihs =>
    obtain ⟨es, hc'⟩ := ihc hd.children
    obtain ⟨gs, hs⟩ := ihs hd.tail
    obtain ⟨fs, ha'⟩ := ha.keep hn hc.length_eq g
    rw [← children_withChildren hc.length_eq] at hc'
    exact ⟨_, .cons hc' ha' hs⟩

/-- A run of a parsed program that returns has one replay, if no call that scores stands within an argument
of a call that takes a draw. The replay is deterministic, and its runs return what the run returned under any
generator and take no draw. -/
theorem replay_of_run {ts : List (Token Float)} {i i' : Interpreter Float} {g g' : Generator Float}
    {result : Result Float} (hp : parse ts = .program i.statements)
    (hs : DrawsApartFrom isObserveCall i.statements)
    (hr : i.reset.run g = (.ok result, i', g')) :
    ∃ ms, ReplayOf i.statements g ms ∧ (∀ ks, ReplayOf i.statements g ks → ks = ms) ∧
      (Node.program ms).isDeterministic = .ok true ∧
      ∀ (store : Store Float) (g₂ : Generator Float),
        (Interpreter.mk ms store).reset.run g₂ = (.ok result, ⟨ms, i'.store⟩, g₂) := by
  obtain ⟨hf, -, es, vs, hrun, rfl⟩ := run_eq_ok_iff.mp hr
  change ∀ n ∈ i.statements, n.FitsIn maxDepth at hf
  obtain ⟨ms, hms⟩ := Replays.exists_of_performs hrun
  refine ⟨ms, ⟨vs, _, hms⟩, ?_, hms.isDeterministic_eq_true hf, fun store g₂ => ?_⟩
  · rintro ks ⟨ws, m, hks⟩
    exact (hks.unique hms hf).1
  · have hapart := hs.changesStore (eq_program_of_parse hp).drawsApartFrom
    obtain ⟨fs, hreplay⟩ := hms.replayed hapart g₂
    exact run_eq_ok_iff.mpr ⟨hms.fitsIn hf, rfl, fs, vs, hreplay, rfl⟩

/-- The mean of a draw is itself drawn, and the draw is scored. -/
theorem replay_of_nested_draw :
    ∃ (ts : List (Token Float)) (ns : List (Node Float)) (g g' : Generator Float)
      (result : Result Float) (i' : Interpreter Float) (ms : List (Node Float)),
      ns = [.assignment "x" (.call "sample" [.call "normal"
          [.call "sample" [.call "exponential" [.number 1]], .number 2]]),
        .call "observe" [.var "x", .call "normal" [.number 0, .number 1]]] ∧
      parse ts = .program ns ∧ DrawsApartFrom isObserveCall ns ∧
      (Interpreter.mk ns .empty).reset.run g = (.ok result, i', g') ∧
      ReplayOf ns g ms ∧ (Node.program ms).isDeterministic = .ok true ∧
      ∀ g₂, (Interpreter.mk ms .empty).reset.run g₂ = (.ok result, ⟨ms, i'.store⟩, g₂) := by
  let ts : List (Token Float) :=
    [⟨.mark .identifier "x", 0⟩, ⟨.mark .equal "=", 2⟩, ⟨.mark .identifier "sample", 4⟩,
      ⟨.mark .leftParen "(", 10⟩, ⟨.mark .identifier "normal", 11⟩, ⟨.mark .leftParen "(", 17⟩,
      ⟨.mark .identifier "sample", 18⟩, ⟨.mark .leftParen "(", 24⟩,
      ⟨.mark .identifier "exponential", 25⟩, ⟨.mark .leftParen "(", 36⟩, ⟨.number 1, 37⟩,
      ⟨.mark .rightParen ")", 38⟩, ⟨.mark .rightParen ")", 39⟩, ⟨.mark .comma ",", 40⟩,
      ⟨.number 2, 42⟩, ⟨.mark .rightParen ")", 43⟩, ⟨.mark .rightParen ")", 44⟩,
      ⟨.mark .identifier "observe", 46⟩, ⟨.mark .leftParen "(", 53⟩, ⟨.mark .identifier "x", 54⟩,
      ⟨.mark .comma ",", 55⟩, ⟨.mark .identifier "normal", 57⟩, ⟨.mark .leftParen "(", 63⟩,
      ⟨.number 0, 64⟩, ⟨.mark .comma ",", 65⟩, ⟨.number 1, 67⟩, ⟨.mark .rightParen ")", 68⟩,
      ⟨.mark .rightParen ")", 69⟩, ⟨.eof, 70⟩]
  obtain ⟨ns, g, result, hns, hp, hr⟩ : ∃ (ns : List (Node Float)) (g : Generator Float)
      (result : Result Float),
      ns = [.assignment "x" (.call "sample" [.call "normal"
          [.call "sample" [.call "exponential" [.number 1]], .number 2]]),
        .call "observe" [.var "x", .call "normal" [.number 0, .number 1]]] ∧
      parse ts = .program ns ∧ ((Interpreter.mk ns .empty).reset.run g).1 = .ok result :=
    ⟨_, .cycle 1 #[], _, rfl, rfl, rfl⟩
  have hs : DrawsApartFrom isObserveCall ns := by
    rw [hns]
    rintro n (_ | ⟨_, _ | ⟨_, ⟨⟩⟩⟩) args hw a ha c hc
    · obtain ⟨v, hv, rfl⟩ := ((Within.child ha hc).trans hw).exists_visit 0
      exact (show ∀ w ∈ walk 0 _, w.node.isObserveCall = false by decide) v hv
    · obtain ⟨v, hv, hsample⟩ := hw.exists_visit 0
      have hn := (show ∀ w ∈ walk 0 _, w.node.isSampleCall = false by decide) v hv
      rw [hsample] at hn
      cases hn
  generalize hrun : (Interpreter.mk ns .empty).reset.run g = out at hr
  obtain ⟨outcome, i', g'⟩ := out
  obtain rfl : outcome = .ok result := hr
  obtain ⟨ms, hms, -, hd, hreplay⟩ := replay_of_run (i := ⟨ns, .empty⟩) hp hs hrun
  exact ⟨ts, ns, g, g', result, i', ms, hns, hp, hs, hrun, hms, hd, hreplay .empty⟩

end Posterior
