import Posterior.Parser.Progress
import Posterior.Proofs.Grammar.Soundness

/-!
How deep tokens nest, and how many frames the parser needs for it. A bracket is open up to its partner, a
minus sign before an operand up to the end of the operand. Frames are spent on open brackets and signs
only, however long the tokens go on: at most four on each.
-/

set_option autoImplicit false

namespace Posterior

inductive Opening where
  | bracket
  | sign
  deriving DecidableEq, Repr

namespace Nesting

def settle (openings : List Opening) : List Opening := openings.dropWhile (· = .sign)

/-- What is open behind a token, and whether an operand ends there; `next` is the kind behind it. A name
with a bracket behind it is the start of an operand, and a minus sign behind an operand is an operator. -/
def after (openings : List Opening) (operand : Bool) (next : Option Kind) :
    Kind → List Opening × Bool
  | .number => (settle openings, true)
  | .mark .identifier =>
    if next = some (.mark .leftParen) then (openings, false) else (settle openings, true)
  | .mark .leftParen => (.bracket :: openings, false)
  | .mark .rightParen => (settle (settle openings).tail, true)
  | .mark .minus => (if operand then openings else .sign :: openings, false)
  | .mark .plus | .mark .star | .mark .slash | .mark .equal | .mark .comma | .eof =>
    (openings, false)

def reach (openings : List Opening) (operand : Bool) : List Kind → Nat
  | [] => openings.length
  | k :: ks =>
    if k = .eof then openings.length
    else
      let state := after openings operand ks.head? k
      max openings.length (reach state.1 state.2 ks)

end Nesting

/-- The greatest number of brackets not yet closed and minus signs whose operand is not yet complete. -/
def nesting (ks : List Kind) : Nat := Nesting.reach [] false ks

namespace Nesting

theorem length_le_reach (openings : List Opening) (operand : Bool) (ks : List Kind) :
    openings.length ≤ reach openings operand ks := by
  cases ks with
  | nil => exact Nat.le_refl _
  | cons k ks =>
    unfold reach
    split
    · exact Nat.le_refl _
    · exact Nat.le_max_left _ _

theorem reach_after_le (openings : List Opening) (operand : Bool) {k : Kind} (ks : List Kind)
    (hk : k ≠ .eof) :
    reach (after openings operand ks.head? k).1 (after openings operand ks.head? k).2 ks ≤
      reach openings operand (k :: ks) := by
  rw [reach, if_neg hk]
  exact Nat.le_max_right _ _

/-- Only a minus sign asks whether an operand ends before it. -/
theorem reach_operand (openings : List Opening) (operand operand' : Bool) {ks : List Kind}
    (h : ks.head? ≠ some (.mark .minus)) :
    reach openings operand ks = reach openings operand' ks := by
  cases ks with
  | nil => rfl
  | cons k ks =>
    have ha : after openings operand ks.head? k = after openings operand' ks.head? k := by
      rcases k with _ | m | _
      · rfl
      · cases m with
        | minus => simp at h
        | _ => rfl
      · rfl
    simp only [reach, ha]

theorem reach_append_eof (openings : List Opening) (operand : Bool) (ks more : List Kind) :
    reach openings operand (ks ++ .eof :: more) = reach openings operand ks := by
  induction ks generalizing openings operand with
  | nil => simp [reach]
  | cons k ks ih =>
    have ha : after openings operand (ks ++ .eof :: more).head? k = after openings operand ks.head? k := by
      cases ks with
      | cons l ks => rfl
      | nil => rcases k with _ | _ | _ <;> simp [after]
    simp only [List.cons_append, reach, ha, ih]

end Nesting

namespace Parser

open Nesting

variable {α β γ : Type}

def height (openings : List Opening) (operand : Bool) (ts : List (Token α)) : Nat :=
  reach openings operand (ts.map Token.kind)

theorem head?_map_kind {ts : List (Token α)} {k : Kind} (hk : k ≠ .eof) :
    (ts.map Token.kind).head? = some k ↔ nextKind ts = k := by
  cases ts with
  | nil => simpa [nextKind] using hk.symm
  | cons t ts => simp

/-- An outcome within a height: a tree leaves tokens no higher than `m`, and if the frames ran out, `m` is
at least a fourth of `spent`. -/
def Spends (spent m : Nat) (openings : List Opening) (operand : Bool) :
    EStateM.Result (ParseStop α) (List (Token α)) β → Prop
  | .ok _ rest => height openings operand rest ≤ m
  | .error .tooDeep _ => spent ≤ 4 * m
  | .error (.fault _) _ => True

section

variable {spent m : Nat} {s s' : List Opening} {b b' : Bool} {ts : List (Token α)}

theorem Spends.bind {p : Parse α β} {f : β → Parse α γ} (hp : Spends spent m s b (p ts))
    (hf : ∀ c rest, height s b rest ≤ m → Spends spent m s' b' (f c rest)) :
    Spends spent m s' b' ((p >>= f) ts) := by
  cases hr : p ts with
  | ok c rest =>
    rw [Step.bind_ok hr]
    rw [hr] at hp
    exact hf c rest hp
  | error e rest =>
    rw [Step.bind_error hr]
    rw [hr] at hp
    cases e <;> exact hp

theorem Spends.pure {c : β} (h : height s b ts ≤ m) :
    Spends spent m s b ((Pure.pure c : Parse α β) ts) := h

theorem height_cons_le {t : Token α} {rest : List (Token α)} (ht : t.kind ≠ .eof)
    (h : height s b (t :: rest) ≤ m) :
    height (after s b (rest.map Token.kind).head? t.kind).1
      (after s b (rest.map Token.kind).head? t.kind).2 rest ≤ m :=
  Nat.le_trans (reach_after_le s b _ ht) h

theorem length_le_of_height_le (h : height s b ts ≤ m) : s.length ≤ m :=
  Nat.le_trans (length_le_reach s b _) h

theorem height_call_le {name left : String} {i j : Int} {us : List (Token α)}
    (h : height s false (⟨.mark .identifier name, i⟩ :: ⟨.mark .leftParen left, j⟩ :: us) ≤ m) :
    height (.bracket :: s) false us ≤ m := by
  have h₁ := height_cons_le (by simp) h
  simp only [Token.kind_mark, after, List.map_cons, List.head?_cons, if_true] at h₁
  exact height_cons_le (by simp) h₁

theorem spends_fail {cause : ParseCause} :
    Spends spent m s b ((fail cause : Parse α β) ts) := trivial

theorem spends_expect {k : Mark} {context : String} (s' : List Opening) (b' : Bool)
    (hk : ∀ next, after s b next (.mark k) = (s', b')) (h : height s b ts ≤ m) :
    Spends spent m s' b' (expect (.mark k) context ts) := by
  cases hx : expect (.mark k) context ts with
  | ok t rest =>
    obtain ⟨text, position, rfl, rfl⟩ := exists_of_expect_ok hx
    have hc := height_cons_le (by simp) h
    rwa [Token.kind_mark, hk] at hc
  | error e rest =>
    cases e with
    | fault f => trivial
    | tooDeep =>
      exfalso
      cases ts with
      | nil => simp [expect, fail] at hx
      | cons t ts =>
        by_cases ht : t.kind = .mark k
        · simp [expect, ht] at hx
        · simp [expect, fail, ht] at hx

def Operators (marks : List Mark) : Prop :=
  ∀ k ∈ marks, ∀ (s : List Opening) (next : Option Kind), after s true next (.mark k) = (s, false)

theorem spends_chainFuel {marks : List Mark} {operand : Parse α (Node α)}
    (hm : Operators marks)
    (ho : ∀ ts, height s false ts ≤ m → Spends spent m s true (operand ts)) (fuel : Nat)
    (n : Node α) (h : height s true ts ≤ m) :
    Spends spent m s true (chainFuel marks operand fuel n ts) := by
  induction fuel generalizing n ts with
  | zero => exact h
  | succ fuel ih =>
    rw [chainFuel]
    split
    · exact h
    · rename_i op rest hr
      obtain ⟨k, hk, position, rfl⟩ := takeMark?_eq_some hr
      have hc := height_cons_le (by simp) h
      rw [Token.kind_mark, hm k hk] at hc
      exact (ho rest hc).bind fun right rest' hrest => ih _ hrest

theorem spends_chain {marks : List Mark} {operand : Parse α (Node α)} (hm : Operators marks)
    (ho : ∀ ts, height s false ts ≤ m → Spends spent m s true (operand ts))
    (h : height s false ts ≤ m) : Spends spent m s true (chain marks operand ts) :=
  (ho ts h).bind fun left _ hrest => spends_chainFuel hm ho _ left hrest

theorem spends_moreFuel {item : Parse α (Node α)}
    (hi : ∀ ts, height s false ts ≤ m → Spends spent m s true (item ts)) (fuel : Nat)
    (h : height s true ts ≤ m) : Spends spent m s true (moreFuel item fuel ts) := by
  induction fuel generalizing ts with
  | zero => exact h
  | succ fuel ih =>
    rw [moreFuel]
    split
    · exact h
    · rename_i text rest hr
      obtain ⟨k, hk, position, rfl⟩ := takeMark?_eq_some hr
      obtain rfl := List.mem_singleton.mp hk
      have hc := height_cons_le (by simp) h
      exact (hi rest hc).bind fun first rest' hrest => (ih hrest).bind fun _ _ => Spends.pure

theorem spends_arguments {item : Parse α (Node α)}
    (hi : ∀ ts, height s false ts ≤ m → Spends spent m s true (item ts))
    (h : height s false ts ≤ m) : Spends spent m s true (arguments item ts) := by
  rw [arguments]
  split
  · rename_i hn
    have hh : (ts.map Token.kind).head? ≠ some (.mark .minus) := by
      rw [(head?_map_kind (by simp)).mpr hn]
      simp
    exact Nat.le_trans (Nat.le_of_eq (reach_operand s true false hh)) h
  · exact (hi ts h).bind fun first rest hrest =>
      (spends_moreFuel hi _ hrest).bind fun _ _ => Spends.pure

end

variable [Arithmetic α]

structure Affords (α : Type) [Arithmetic α] (frames spent m : Nat) : Prop where
  expression {s : List Opening} {ts : List (Token α)} (hs : settle s = s) (hf : spent + 2 ≤ frames + 4 * s.length)
    (h : height s false ts ≤ m) : Spends spent m s true (expression frames ts)
  term {s : List Opening} {ts : List (Token α)} (hs : settle s = s) (hf : spent + 1 ≤ frames + 4 * s.length)
    (h : height s false ts ≤ m) : Spends spent m s true (term frames ts)
  factor {s : List Opening} {ts : List (Token α)} (hf : spent ≤ frames + 4 * s.length)
    (h : height s false ts ≤ m) : Spends spent m (settle s) true (factor frames ts)
  call {s : List Opening} {name left : String} {i j : Int} {us : List (Token α)}
    (hf : spent ≤ frames + 4 * s.length + 1)
    (h : height s false (⟨.mark .identifier name, i⟩ :: ⟨.mark .leftParen left, j⟩ :: us) ≤ m) :
    Spends spent m (settle s) true
      (call frames (⟨.mark .identifier name, i⟩ :: ⟨.mark .leftParen left, j⟩ :: us))

section

variable {spent m : Nat} {s : List Opening} {ts : List (Token α)}

theorem affords_zero (spent m : Nat) : Affords α 0 spent m where
  expression := by
    intro s ts _ hf h
    have hs := length_le_of_height_le h
    change spent ≤ 4 * m
    omega
  term := by
    intro s ts _ hf h
    have hs := length_le_of_height_le h
    change spent ≤ 4 * m
    omega
  factor := by
    intro s ts hf h
    have hs := length_le_of_height_le h
    change spent ≤ 4 * m
    omega
  call := by
    intro s name left i j us hf h
    have hs := length_le_of_height_le (height_call_le h)
    rw [List.length_cons] at hs
    change spent ≤ 4 * m
    omega

variable {frames : Nat}

theorem spends_factor (ih : Affords α frames spent m) (hf : spent ≤ frames + 1 + 4 * s.length)
    (h : height s false ts ≤ m) : Spends spent m (settle s) true (factor (frames + 1) ts) := by
  rw [factor]
  dsimp only
  split
  · exact height_cons_le (by simp) h
  · rename_i name i rest
    split
    · rename_i hn
      obtain ⟨left, j, us, rfl⟩ := exists_of_nextKind hn
      exact ih.call (by omega) h
    · rename_i hn
      have hc := height_cons_le (by simp) h
      have hh : (rest.map Token.kind).head? ≠ some (.mark .leftParen) := fun e =>
        hn ((head?_map_kind (by simp)).mp e)
      simp only [Token.kind_mark, after, if_neg hh] at hc
      exact hc
  · rename_i left i rest
    have hc := height_cons_le (by simp) h
    refine (ih.expression (s := .bracket :: s) rfl (by simp only [List.length_cons]; omega) hc).bind
      fun inner rest' hrest => ?_
    exact (spends_expect (settle s) true (fun _ => rfl) hrest).bind fun _ _ => Spends.pure
  · rename_i text i rest
    have hc := height_cons_le (by simp) h
    exact (ih.factor (s := .sign :: s) (by simp only [List.length_cons]; omega) hc).bind
      fun operand rest' => Spends.pure
  · exact spends_fail

theorem spends_call (ih : Affords α frames spent m) {name left : String} {i j : Int} {us : List (Token α)}
    (hf : spent ≤ frames + 1 + 4 * s.length + 1)
    (h : height s false (⟨.mark .identifier name, i⟩ :: ⟨.mark .leftParen left, j⟩ :: us) ≤ m) :
    Spends spent m (settle s) true
      (call (frames + 1) (⟨.mark .identifier name, i⟩ :: ⟨.mark .leftParen left, j⟩ :: us)) := by
  rw [call, Step.bind_ok expect_mark_ok, Step.bind_ok expect_mark_ok]
  refine (spends_arguments (fun vs hvs => ?_) (height_call_le h)).bind fun args rest hrest => ?_
  · exact ih.expression rfl (by simp only [List.length_cons]; omega) hvs
  · exact (spends_expect (settle s) true (fun _ => rfl) hrest).bind fun _ _ => Spends.pure

end

theorem affords (frames spent m : Nat) : Affords α frames spent m := by
  induction frames with
  | zero => exact affords_zero spent m
  | succ frames ih =>
    have hsums : Operators [.plus, .minus] := by
      intro k hk openings next
      simp only [List.mem_cons, List.not_mem_nil, or_false] at hk
      rcases hk with rfl | rfl <;> rfl
    have hproducts : Operators [.star, .slash] := by
      intro k hk openings next
      simp only [List.mem_cons, List.not_mem_nil, or_false] at hk
      rcases hk with rfl | rfl <;> rfl
    refine ⟨fun hs hf h => ?_, fun hs hf h => ?_, spends_factor ih, spends_call ih⟩
    · exact spends_chain hsums (fun us hus => ih.term hs (by omega) hus) h
    · refine spends_chain hproducts (fun us hus => ?_) h
      have hu := ih.factor (by omega) hus
      rwa [hs] at hu

theorem spends_assignment (frames : Nat) {spent m : Nat} {b : Bool} {name text : String}
    {i j : Int} {us : List (Token α)} (hf : spent + 3 ≤ frames)
    (h : height [] b (⟨.mark .identifier name, i⟩ :: ⟨.mark .equal text, j⟩ :: us) ≤ m) :
    Spends spent m [] true
      (assignment frames (⟨.mark .identifier name, i⟩ :: ⟨.mark .equal text, j⟩ :: us)) := by
  cases frames with
  | zero => omega
  | succ frames =>
    have h₁ := height_cons_le (by simp) h
    have h₂ := height_cons_le (by simp) h₁
    rw [assignment, Step.bind_ok expect_mark_ok, Step.bind_ok expect_mark_ok]
    exact ((affords frames spent m).expression (s := []) rfl (by omega) h₂).bind
      fun _ _ => Spends.pure

theorem spends_statement (frames : Nat) {spent m : Nat} {b : Bool} {ts : List (Token α)}
    (hf : spent + 4 ≤ frames) (h : height [] b ts ≤ m) :
    Spends spent m [] true (statement frames ts) := by
  cases frames with
  | zero => omega
  | succ frames =>
    rw [statement]
    dsimp only
    split
    · rename_i name i rest
      split
      · rename_i hn
        obtain ⟨text, j, us, rfl⟩ := exists_of_nextKind hn
        exact spends_assignment frames (by omega) h
      · split
        · rename_i hn
          obtain ⟨left, j, us, rfl⟩ := exists_of_nextKind hn
          have hh : height [] false (⟨.mark .identifier name, i⟩ :: ⟨.mark .leftParen left, j⟩ ::
              us) ≤ m := Nat.le_trans (Nat.le_of_eq (reach_operand [] false b (by simp))) h
          exact (affords frames spent m).call (by omega) hh
        · trivial
    · exact spends_fail

theorem spends_statementsFuel (frames : Nat) {spent m : Nat} (hf : spent + 4 ≤ frames)
    (fuel : Nat) {b : Bool} {ts : List (Token α)} (h : height [] b ts ≤ m) :
    ∀ rest, statementsFuel frames fuel ts = .error .tooDeep rest → spent ≤ 4 * m := by
  intro rest hr
  induction fuel generalizing b ts with
  | zero => cases hr
  | succ fuel ih =>
    rw [statementsFuel] at hr
    split at hr
    · cases hr
    · have hs := spends_statement frames hf h
      rcases Step.exists_of_bind_error hr with hx | ⟨n, mid, hx, hmore⟩
      · rw [hx] at hs
        exact hs
      · rw [hx] at hs
        rcases Step.exists_of_bind_error hmore with hm | ⟨ns, last, -, hend⟩
        · exact ih hs hm
        · cases hend

/-- The frames run out only on tokens that nest deep. -/
theorem nesting_of_tooDeep {frames : Nat} {ts rest : List (Token α)}
    (h : program frames ts = .error .tooDeep rest) :
    frames ≤ 4 * nesting (ts.map Token.kind) + 5 := by
  by_cases hf : frames ≤ 5
  · omega
  · obtain ⟨spent, rfl⟩ : ∃ spent, frames = spent + 4 + 1 := ⟨frames - 5, by omega⟩
    rw [program_succ] at h
    split at h
    · cases h
    · rename_i e last hs
      cases h
      have hn := spends_statementsFuel (spent + 4) (Nat.le_refl _) ts.length
        (Nat.le_refl (height [] false ts)) _ hs
      unfold nesting
      unfold height at hn
      omega

end Parser

end Posterior
