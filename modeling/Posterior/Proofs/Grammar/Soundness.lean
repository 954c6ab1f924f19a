import Posterior.Parser.Progress
import Posterior.Proofs.Grammar

/-!
What the procedures of the parser read is derived by the grammar: a procedure that returns a tree has taken
the tokens of that tree off the front.
-/

set_option autoImplicit false

namespace Posterior.Parser

open Grammar

variable {α β : Type}

/-- What `p` takes off the front and returns stand in the relation `P`. -/
def Yields (p : Parse α β) (P : List (Token α) → β → Prop) : Prop :=
  ∀ ts b rest, p ts = .ok b rest → ∃ us, ts = us ++ rest ∧ P us b

theorem yields_throw (stop : ParseStop α) (P : List (Token α) → β → Prop) :
    Yields (throw stop : Parse α β) P := by
  intro ts b rest h
  cases h

theorem exists_of_expect_ok {m : Mark} {context : String} {t : Token α} {ts rest : List (Token α)}
    (h : expect (.mark m) context ts = .ok t rest) :
    ∃ text position, t = ⟨.mark m text, position⟩ ∧ ts = t :: rest := by
  cases ts with
  | nil => simp [expect, fail] at h
  | cons u us =>
    by_cases hk : u.kind = .mark m
    · simp only [expect, hk, ne_eq, not_true_eq_false, if_false, reduceCtorEq] at h
      cases h
      obtain ⟨symbol, position⟩ := t
      cases symbol with
      | mark m' text =>
        simp only [Token.kind_mark, Kind.mark.injEq] at hk
        subst hk
        exact ⟨text, position, rfl, rfl⟩
      | number value => simp at hk
      | eof => simp at hk
    · simp [expect, fail, hk] at h

theorem exists_of_nextKind {m : Mark} {ts : List (Token α)} (h : nextKind ts = .mark m) :
    ∃ text position rest, ts = ⟨.mark m text, position⟩ :: rest := by
  cases ts with
  | nil => simp [nextKind] at h
  | cons t rest =>
    obtain ⟨symbol, position⟩ := t
    cases symbol with
    | mark m' text =>
      simp only [nextKind, Token.kind_mark, Kind.mark.injEq] at h
      subst h
      exact ⟨text, position, rest, rfl⟩
    | number value => simp [nextKind] at h
    | eof => simp [nextKind] at h

section Chain

variable {marks : List Mark} {operand : Parse α (Node α)} {P Q : List (Token α) → Node α → Prop}

theorem yields_chainFuel (hop : Yields operand P)
    (hstep : ∀ {m op position ls rs l r}, m ∈ marks → Q ls l → P rs r →
      Q (ls ++ ⟨.mark m op, position⟩ :: rs) (.binary op l r))
    (fuel : Nat) {ls : List (Token α)} {l : Node α} (hl : Q ls l) :
    Yields (chainFuel marks operand fuel l) fun us n => Q (ls ++ us) n := by
  induction fuel generalizing ls l with
  | zero =>
    intro ts n rest h
    cases h
    exact ⟨[], rfl, by simpa using hl⟩
  | succ fuel ih =>
    intro ts n rest h
    rw [chainFuel] at h
    split at h
    · cases h
      exact ⟨[], rfl, by simpa using hl⟩
    · rename_i op mid hm
      obtain ⟨m, hmem, position, rfl⟩ := takeMark?_eq_some hm
      obtain ⟨r, mid', hr, hmore⟩ := Step.exists_of_bind_ok h
      obtain ⟨rs, rfl, hrs⟩ := hop _ _ _ hr
      obtain ⟨us, rfl, hus⟩ := ih (hstep hmem hl hrs) _ _ _ hmore
      exact ⟨⟨.mark m op, position⟩ :: (rs ++ us), by simp, by simpa using hus⟩

theorem yields_chain (hop : Yields operand P) (hone : ∀ {ts n}, P ts n → Q ts n)
    (hstep : ∀ {m op position ls rs l r}, m ∈ marks → Q ls l → P rs r →
      Q (ls ++ ⟨.mark m op, position⟩ :: rs) (.binary op l r)) :
    Yields (chain marks operand) Q := by
  intro ts n rest h
  obtain ⟨l, mid, hl, hmore⟩ := Step.exists_of_bind_ok h
  obtain ⟨ls, rfl, hls⟩ := hop _ _ _ hl
  obtain ⟨us, rfl, hus⟩ := yields_chainFuel hop hstep _ (hone hls) _ _ _ hmore
  exact ⟨ls ++ us, by simp, hus⟩

end Chain

section Arguments

variable {item : Parse α (Node α)} {P : List (Token α) → Node α → Prop}

/-- The trees of runs of tokens, each in the relation `P` with its tree; `S` says how the runs are put
together. -/
def Items (S : List (List (Token α)) → List (Token α) → Prop)
    (P : List (Token α) → Node α → Prop) (ts : List (Token α)) (ns : List (Node α)) : Prop :=
  ∃ args : List (List (Token α) × Node α),
    S (args.map Prod.fst) ts ∧ (∀ a ∈ args, P a.1 a.2) ∧ ns = args.map Prod.snd

theorem yields_moreFuel (hi : Yields item P) (fuel : Nat) :
    Yields (moreFuel item fuel) (Items Led P) := by
  induction fuel with
  | zero =>
    intro ts ns rest h
    cases h
    exact ⟨[], rfl, [], .nil, by simp, rfl⟩
  | succ fuel ih =>
    intro ts ns rest h
    rw [moreFuel] at h
    split at h
    · cases h
      exact ⟨[], rfl, [], .nil, by simp, rfl⟩
    · rename_i text mid hm
      obtain ⟨m, hmem, position, rfl⟩ := takeMark?_eq_some hm
      obtain rfl := List.mem_singleton.mp hmem
      obtain ⟨n, mid', hn, hmore⟩ := Step.exists_of_bind_ok h
      obtain ⟨others, last, ho, hend⟩ := Step.exists_of_bind_ok hmore
      obtain ⟨rfl, rfl⟩ := Step.pure_ok hend
      obtain ⟨us, rfl, hus⟩ := hi _ _ _ hn
      obtain ⟨vs, rfl, args, hled, hall, rfl⟩ := ih _ _ _ ho
      exact ⟨⟨.mark .comma text, position⟩ :: (us ++ vs), by simp, (us, n) :: args,
        .cons text position hled, by simpa using ⟨hus, fun a b => hall (a, b)⟩, rfl⟩

theorem yields_arguments (hi : Yields item P) : Yields (arguments item) (Items Separated P) := by
  intro ts ns rest h
  rw [arguments] at h
  split at h
  · cases h
    exact ⟨[], rfl, [], .none, by simp, rfl⟩
  · obtain ⟨n, mid, hn, hmore⟩ := Step.exists_of_bind_ok h
    obtain ⟨others, last, ho, hend⟩ := Step.exists_of_bind_ok hmore
    obtain ⟨rfl, rfl⟩ := Step.pure_ok hend
    obtain ⟨us, rfl, hus⟩ := hi _ _ _ hn
    obtain ⟨vs, rfl, args, hled, hall, rfl⟩ := yields_moreFuel hi _ _ _ _ ho
    exact ⟨us ++ vs, by simp, (us, n) :: args, .some hled,
      by simpa using ⟨hus, fun a b => hall (a, b)⟩, rfl⟩

end Arguments

variable [Arithmetic α]

theorem yields_factor {frames : Nat} (he : Yields (expression frames : Parse α (Node α)) (Derives .expression))
    (hf : Yields (factor frames : Parse α (Node α)) (Derives .factor))
    (hc : Yields (call frames : Parse α (Node α)) (Derives .call)) :
    Yields (factor (frames + 1) : Parse α (Node α)) (Derives .factor) := by
  intro ts n rest h
  rw [factor] at h
  dsimp only at h
  split at h
  · cases h
    exact ⟨[_], rfl, .number _ _⟩
  · split at h
    · obtain ⟨us, hus, hd⟩ := hc _ _ _ h
      exact ⟨us, hus, .application hd⟩
    · cases h
      exact ⟨[_], rfl, .name _ _⟩
  · rename_i left i mid
    obtain ⟨inner, mid', hi, hclose⟩ := Step.exists_of_bind_ok h
    obtain ⟨close, last, hx, hend⟩ := Step.exists_of_bind_ok hclose
    obtain ⟨rfl, rfl⟩ := Step.pure_ok hend
    obtain ⟨right, j, rfl, rfl⟩ := exists_of_expect_ok hx
    obtain ⟨us, rfl, hd⟩ := he _ _ _ hi
    exact ⟨⟨.mark .leftParen left, i⟩ :: (us ++ [⟨.mark .rightParen right, j⟩]), by simp, .group hd⟩
  · obtain ⟨operand, last, ho, hend⟩ := Step.exists_of_bind_ok h
    obtain ⟨rfl, rfl⟩ := Step.pure_ok hend
    obtain ⟨us, rfl, hd⟩ := hf _ _ _ ho
    exact ⟨_, rfl, .negation hd⟩
  · cases h

theorem yields_call {frames : Nat} (he : Yields (expression frames : Parse α (Node α)) (Derives .expression)) :
    Yields (call (frames + 1) : Parse α (Node α)) (Derives .call) := by
  intro ts n rest h
  rw [call] at h
  obtain ⟨name, mid, hn, hleft⟩ := Step.exists_of_bind_ok h
  obtain ⟨text, i, rfl, rfl⟩ := exists_of_expect_ok hn
  obtain ⟨left, mid', hl, hargs⟩ := Step.exists_of_bind_ok hleft
  obtain ⟨ltext, j, rfl, rfl⟩ := exists_of_expect_ok hl
  obtain ⟨args, inner, ha, hright⟩ := Step.exists_of_bind_ok hargs
  obtain ⟨right, last, hr, hend⟩ := Step.exists_of_bind_ok hright
  obtain ⟨rfl, rfl⟩ := Step.pure_ok hend
  obtain ⟨rtext, k, rfl, rfl⟩ := exists_of_expect_ok hr
  obtain ⟨us, rfl, parts, hs, hall, rfl⟩ := yields_arguments he _ _ _ ha
  exact ⟨⟨.mark .identifier text, i⟩ :: ⟨.mark .leftParen ltext, j⟩ ::
    (us ++ [⟨.mark .rightParen rtext, k⟩]), by simp, .call parts hs hall⟩

theorem yields_procedures (frames : Nat) :
    Yields (expression frames : Parse α (Node α)) (Derives .expression) ∧
      Yields (term frames : Parse α (Node α)) (Derives .term) ∧
      Yields (factor frames : Parse α (Node α)) (Derives .factor) ∧
      Yields (call frames : Parse α (Node α)) (Derives .call) := by
  induction frames with
  | zero =>
    exact ⟨yields_throw _ _, yields_throw _ _, yields_throw _ _, yields_throw _ _⟩
  | succ frames ih =>
    obtain ⟨he, ht, hf, hc⟩ := ih
    exact ⟨yields_chain ht .term .sum, yields_chain hf .factor .product, yields_factor he hf hc, yields_call he⟩

theorem yields_assignment (frames : Nat) :
    Yields (assignment frames : Parse α (Node α)) fun us n => Derives .statement us n ∧ n.type = .assignment := by
  cases frames with
  | zero => exact yields_throw _ _
  | succ frames =>
    intro ts n rest h
    obtain ⟨name, mid, hn, hequal⟩ := Step.exists_of_bind_ok h
    obtain ⟨text, i, rfl, rfl⟩ := exists_of_expect_ok hn
    obtain ⟨equal, mid', hq, hexpr⟩ := Step.exists_of_bind_ok hequal
    obtain ⟨qtext, j, rfl, rfl⟩ := exists_of_expect_ok hq
    obtain ⟨expr, last, he, hend⟩ := Step.exists_of_bind_ok hexpr
    obtain ⟨rfl, rfl⟩ := Step.pure_ok hend
    obtain ⟨us, rfl, hd⟩ := (yields_procedures frames).1 _ _ _ he
    exact ⟨_, rfl, .assignment hd, rfl⟩

theorem yields_statement (frames : Nat) :
    Yields (statement frames : Parse α (Node α)) (Derives .statement) := by
  cases frames with
  | zero => exact yields_throw _ _
  | succ frames =>
    intro ts n rest h
    rw [statement] at h
    dsimp only at h
    split at h
    · split at h
      · obtain ⟨us, hus, hd, -⟩ := yields_assignment frames _ _ _ h
        exact ⟨us, hus, hd⟩
      · split at h
        · obtain ⟨us, hus, hd⟩ := (yields_procedures frames).2.2.2 _ _ _ h
          exact ⟨us, hus, .callStatement hd⟩
        · cases h
    · cases h

theorem yields_statementsFuel (frames fuel : Nat) {ts rest : List (Token α)} {ns : List (Node α)}
    (hf : ts.length ≤ fuel) (h : statementsFuel frames fuel ts = .ok ns rest) :
    ∃ us, ts = us ++ rest ∧ Program us ns ∧ nextKind rest = .eof := by
  induction fuel generalizing ts ns with
  | zero =>
    have ht : ts = [] := List.eq_nil_of_length_eq_zero (by omega)
    subst ht
    cases h
    exact ⟨[], rfl, .nil, rfl⟩
  | succ fuel ih =>
    rw [statementsFuel] at h
    split at h
    · rename_i he
      cases h
      exact ⟨[], rfl, .nil, he⟩
    · obtain ⟨n, mid, hn, hmore⟩ := Step.exists_of_bind_ok h
      obtain ⟨others, last, ho, hend⟩ := Step.exists_of_bind_ok hmore
      obtain ⟨rfl, rfl⟩ := Step.pure_ok hend
      have hl := length_lt_of_statement hn
      obtain ⟨us, rfl, hd⟩ := yields_statement frames _ _ _ hn
      obtain ⟨vs, rfl, hp, he⟩ := ih (by omega) ho
      exact ⟨us ++ vs, by simp, .cons hd hp, he⟩

theorem program_sound {frames : Nat} {ts rest : List (Token α)} {n : Node α}
    (h : program frames ts = .ok n rest) :
    ∃ us ns, ts = us ++ rest ∧ Program us ns ∧ nextKind rest = .eof ∧ n = .program ns := by
  cases frames with
  | zero => cases h
  | succ frames =>
    obtain ⟨ns, last, hns, hend⟩ := Step.exists_of_bind_ok h
    obtain ⟨rfl, rfl⟩ := Step.pure_ok hend
    obtain ⟨us, rfl, hp, he⟩ := yields_statementsFuel frames _ (Nat.le_refl _) hns
    exact ⟨us, ns, rfl, hp, he, rfl⟩

end Posterior.Parser
