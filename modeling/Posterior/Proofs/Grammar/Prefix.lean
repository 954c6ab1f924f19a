import Posterior.Proofs.Grammar.Soundness

set_option autoImplicit false

namespace Posterior.Parser

open Grammar

variable {α β : Type}

/-- The tokens from the one in the way on. A wrong token behind an identifier is found before the
identifier is taken. -/
def stuck (f : ParseFault α) (rest : List (Token α)) : List (Token α) :=
  match f.cause with
  | .afterIdentifier _ => rest.tail
  | _ => rest

theorem stuck_suffix (f : ParseFault α) (rest : List (Token α)) : stuck f rest <:+ rest := by
  unfold stuck
  split
  · exact List.tail_suffix rest
  · exact List.suffix_refl rest

def Breaks (p : Parse α β) (P : List (Token α) → β → Prop) : Prop :=
  ∀ ts f rest, p ts = .error (.fault f) rest →
    f.found = (stuck f rest).head? ∧
      ∃ front more b, ts = front ++ stuck f rest ∧ P (front ++ more) b

theorem breaks_throw (P : List (Token α) → β → Prop) :
    Breaks (throw .tooDeep : Parse α β) P := by
  intro ts f rest h
  cases h

theorem Breaks.imp {p : Parse α β} {P Q : List (Token α) → β → Prop} (hp : Breaks p P)
    (h : ∀ {us b}, P us b → Q us b) : Breaks p Q := by
  intro ts f rest he
  obtain ⟨hfound, front, more, b, hts, hP⟩ := hp ts f rest he
  exact ⟨hfound, front, more, b, hts, h hP⟩

theorem expect_mark_error {m : Mark} {context : String} {ts rest : List (Token α)}
    {stop : ParseStop α} (h : expect (.mark m) context ts = .error stop rest) :
    rest = ts ∧ stop = .fault ⟨.expected (.mark m) context, ts.head?⟩ := by
  cases ts with
  | nil =>
    cases h
    exact ⟨rfl, rfl⟩
  | cons t ts =>
    by_cases hk : t.kind = .mark m
    · simp [expect, hk] at h
    · simp only [expect, hk, ne_eq, not_false_eq_true, if_true, fail] at h
      cases h
      exact ⟨rfl, rfl⟩

section Chain

variable {marks : List Mark} {operand : Parse α (Node α)} {P Q : List (Token α) → Node α → Prop}

theorem breaks_chainFuel (hb : Breaks operand P) (hy : Yields operand P)
    (hstep : ∀ {m op position ls rs l r}, m ∈ marks → Q ls l → P rs r →
      Q (ls ++ ⟨.mark m op, position⟩ :: rs) (.binary op l r))
    (fuel : Nat) {ls : List (Token α)} {l : Node α} (hl : Q ls l) :
    Breaks (chainFuel marks operand fuel l) fun us n => Q (ls ++ us) n := by
  induction fuel generalizing ls l with
  | zero =>
    intro ts f rest h
    cases h
  | succ fuel ih =>
    intro ts f rest h
    rw [chainFuel] at h
    split at h
    · cases h
    · next op mid hm =>
      obtain ⟨m, hmem, position, rfl⟩ := takeMark?_eq_some hm
      rcases Step.exists_of_bind_error h with hr | ⟨r, mid', hr, hmore⟩
      · obtain ⟨hfound, front, more, r, rfl, hP⟩ := hb _ _ _ hr
        exact ⟨hfound, ⟨.mark m op, position⟩ :: front, more, _, rfl, by simpa using hstep hmem hl hP⟩
      · obtain ⟨rs, rfl, hrs⟩ := hy _ _ _ hr
        obtain ⟨hfound, front, more, n, rfl, hQ⟩ := ih (hstep hmem hl hrs) _ _ _ hmore
        exact ⟨hfound, ⟨.mark m op, position⟩ :: (rs ++ front), more, n, by simp, by simpa using hQ⟩

theorem breaks_chain (hb : Breaks operand P) (hy : Yields operand P)
    (hone : ∀ {ts n}, P ts n → Q ts n)
    (hstep : ∀ {m op position ls rs l r}, m ∈ marks → Q ls l → P rs r →
      Q (ls ++ ⟨.mark m op, position⟩ :: rs) (.binary op l r)) :
    Breaks (chain marks operand) Q := by
  intro ts f rest h
  rcases Step.exists_of_bind_error h with hl | ⟨l, mid, hl, hmore⟩
  · exact hb.imp hone _ _ _ hl
  · obtain ⟨ls, rfl, hls⟩ := hy _ _ _ hl
    obtain ⟨hfound, front, more, n, rfl, hQ⟩ := breaks_chainFuel hb hy hstep _ (hone hls) _ _ _ hmore
    exact ⟨hfound, ls ++ front, more, n, by simp, by simpa using hQ⟩

end Chain

section Arguments

variable {item : Parse α (Node α)} {P : List (Token α) → Node α → Prop}

theorem breaks_moreFuel (hb : Breaks item P) (hy : Yields item P) (fuel : Nat) :
    Breaks (moreFuel item fuel) (Items Led P) := by
  induction fuel with
  | zero =>
    intro ts f rest h
    cases h
  | succ fuel ih =>
    intro ts f rest h
    rw [moreFuel] at h
    split at h
    · cases h
    · next text mid hm =>
      obtain ⟨m, hmem, position, rfl⟩ := takeMark?_eq_some hm
      obtain rfl := List.mem_singleton.mp hmem
      rcases Step.exists_of_bind_error h with hn | ⟨n, mid', hn, hmore⟩
      · obtain ⟨hfound, front, more, n, rfl, hP⟩ := hb _ _ _ hn
        exact ⟨hfound, ⟨.mark .comma text, position⟩ :: front, more, [n], rfl, [(front ++ more, n)],
          by simpa using Led.cons text position .nil, by simpa using hP, rfl⟩
      · obtain ⟨us, rfl, hus⟩ := hy _ _ _ hn
        rcases Step.exists_of_bind_error hmore with ho | ⟨others, last, ho, hend⟩
        · obtain ⟨hfound, front, more, ns, rfl, args, hled, hall, rfl⟩ := ih _ _ _ ho
          exact ⟨hfound, ⟨.mark .comma text, position⟩ :: (us ++ front), more, _, by simp,
            (us, n) :: args, by simpa using Led.cons text position hled,
            by simpa using ⟨hus, fun a b => hall (a, b)⟩, rfl⟩
        · cases hend

theorem breaks_arguments (hb : Breaks item P) (hy : Yields item P) :
    Breaks (arguments item) (Items Separated P) := by
  intro ts f rest h
  rw [arguments] at h
  split at h
  · cases h
  · rcases Step.exists_of_bind_error h with hn | ⟨n, mid, hn, hmore⟩
    · obtain ⟨hfound, front, more, n, rfl, hP⟩ := hb _ _ _ hn
      exact ⟨hfound, front, more, [n], rfl, [(front ++ more, n)],
        by simpa using Separated.some (.nil : Led [] ([] : List (Token α))), by simpa using hP, rfl⟩
    · obtain ⟨us, rfl, hus⟩ := hy _ _ _ hn
      rcases Step.exists_of_bind_error hmore with ho | ⟨others, last, ho, hend⟩
      · obtain ⟨hfound, front, more, ns, rfl, args, hled, hall, rfl⟩ := breaks_moreFuel hb hy _ _ _ _ ho
        exact ⟨hfound, us ++ front, more, _, by simp, (us, n) :: args,
          by simpa using Separated.some hled, by simpa using ⟨hus, fun a b => hall (a, b)⟩, rfl⟩
      · cases hend

end Arguments

variable [Arithmetic α]

theorem derives_number : Derives .expression [(⟨.number Arithmetic.zero, 0⟩ : Token α)]
    (.number Arithmetic.zero) :=
  .term (.factor (.number _ _))

theorem breaks_factor {frames : Nat} (he : Breaks (expression frames : Parse α (Node α)) (Derives .expression))
    (hf : Breaks (factor frames : Parse α (Node α)) (Derives .factor))
    (hc : Breaks (call frames : Parse α (Node α)) (Derives .call)) :
    Breaks (factor (frames + 1) : Parse α (Node α)) (Derives .factor) := by
  intro ts f rest h
  rw [factor] at h
  dsimp only at h
  split at h
  · cases h
  · split at h
    · exact hc.imp .application _ _ _ h
    · cases h
  · next left i mid =>
    rcases Step.exists_of_bind_error h with hi | ⟨inner, mid', hi, hclose⟩
    · obtain ⟨hfound, front, more, n, rfl, hd⟩ := he _ _ _ hi
      exact ⟨hfound, ⟨.mark .leftParen left, i⟩ :: front, more ++ [⟨.mark .rightParen ")", 0⟩], n,
        rfl, by simpa using Derives.group hd⟩
    · obtain ⟨us, rfl, hd⟩ := (yields_procedures frames).1 _ _ _ hi
      rcases Step.exists_of_bind_error hclose with hx | ⟨close, last, -, hend⟩
      · obtain ⟨rfl, hstop⟩ := expect_mark_error hx
        cases hstop
        exact ⟨rfl, ⟨.mark .leftParen left, i⟩ :: us, [⟨.mark .rightParen ")", 0⟩], inner, rfl, .group hd⟩
      · cases hend
  · next text i mid =>
    rcases Step.exists_of_bind_error h with ho | ⟨operand, last, -, hend⟩
    · obtain ⟨hfound, front, more, n, rfl, hd⟩ := hf _ _ _ ho
      exact ⟨hfound, ⟨.mark .minus text, i⟩ :: front, more, _, rfl, .negation hd⟩
    · cases hend
  · cases h
    exact ⟨rfl, [], [⟨.number Arithmetic.zero, 0⟩], _, rfl, .number _ _⟩

theorem breaks_call {frames : Nat} (he : Breaks (expression frames : Parse α (Node α)) (Derives .expression)) :
    Breaks (call (frames + 1) : Parse α (Node α)) (Derives .call) := by
  have ye := (@yields_procedures α _ frames).1
  intro ts f rest h
  rw [call] at h
  rcases Step.exists_of_bind_error h with hn | ⟨name, mid, hn, hleft⟩
  · obtain ⟨rfl, hstop⟩ := expect_mark_error hn
    cases hstop
    exact ⟨rfl, [], [⟨.mark .identifier "f", 0⟩, ⟨.mark .leftParen "(", 0⟩,
      ⟨.mark .rightParen ")", 0⟩], _, rfl, .call [] .none (List.forall_mem_nil _)⟩
  · obtain ⟨text, i, rfl, rfl⟩ := exists_of_expect_ok hn
    rcases Step.exists_of_bind_error hleft with hl | ⟨left, mid', hl, hargs⟩
    · obtain ⟨rfl, hstop⟩ := expect_mark_error hl
      cases hstop
      exact ⟨rfl, [⟨.mark .identifier text, i⟩], [⟨.mark .leftParen "(", 0⟩,
        ⟨.mark .rightParen ")", 0⟩], _, rfl, .call [] .none (List.forall_mem_nil _)⟩
    · obtain ⟨ltext, j, rfl, rfl⟩ := exists_of_expect_ok hl
      rcases Step.exists_of_bind_error hargs with ha | ⟨args, inner, ha, hright⟩
      · obtain ⟨hfound, front, more, ns, rfl, parts, hs, hall, rfl⟩ := breaks_arguments he ye _ _ _ ha
        exact ⟨hfound, ⟨.mark .identifier text, i⟩ :: ⟨.mark .leftParen ltext, j⟩ :: front,
          more ++ [⟨.mark .rightParen ")", 0⟩], _, rfl, by simpa using Derives.call parts hs hall⟩
      · obtain ⟨us, rfl, parts, hs, hall, rfl⟩ := yields_arguments ye _ _ _ ha
        rcases Step.exists_of_bind_error hright with hr | ⟨right, last, -, hend⟩
        · obtain ⟨rfl, hstop⟩ := expect_mark_error hr
          cases hstop
          exact ⟨rfl, ⟨.mark .identifier text, i⟩ :: ⟨.mark .leftParen ltext, j⟩ :: us,
            [⟨.mark .rightParen ")", 0⟩], _, rfl, .call parts hs hall⟩
        · cases hend

theorem breaks_procedures (frames : Nat) :
    Breaks (expression frames : Parse α (Node α)) (Derives .expression) ∧
      Breaks (term frames : Parse α (Node α)) (Derives .term) ∧
      Breaks (factor frames : Parse α (Node α)) (Derives .factor) ∧
      Breaks (call frames : Parse α (Node α)) (Derives .call) := by
  induction frames with
  | zero => exact ⟨breaks_throw _, breaks_throw _, breaks_throw _, breaks_throw _⟩
  | succ frames ih =>
    obtain ⟨he, ht, hf, hc⟩ := ih
    obtain ⟨-, yt, yf, -⟩ := @yields_procedures α _ frames
    exact ⟨breaks_chain ht yt .term .sum, breaks_chain hf yf .factor .product, breaks_factor he hf hc,
      breaks_call he⟩

theorem breaks_assignment (frames : Nat) :
    Breaks (assignment frames : Parse α (Node α)) fun us n => Derives .statement us n ∧ n.type = .assignment := by
  cases frames with
  | zero => exact breaks_throw _
  | succ frames =>
    intro ts f rest h
    rcases Step.exists_of_bind_error h with hn | ⟨name, mid, hn, hequal⟩
    · obtain ⟨rfl, hstop⟩ := expect_mark_error hn
      cases hstop
      exact ⟨rfl, [], [⟨.mark .identifier "x", 0⟩, ⟨.mark .equal "=", 0⟩, _], _, rfl,
        .assignment derives_number, rfl⟩
    · obtain ⟨text, i, rfl, rfl⟩ := exists_of_expect_ok hn
      rcases Step.exists_of_bind_error hequal with hq | ⟨equal, mid', hq, hexpr⟩
      · obtain ⟨rfl, hstop⟩ := expect_mark_error hq
        cases hstop
        exact ⟨rfl, [⟨.mark .identifier text, i⟩], [⟨.mark .equal "=", 0⟩, _], _, rfl,
          .assignment derives_number, rfl⟩
      · obtain ⟨qtext, j, rfl, rfl⟩ := exists_of_expect_ok hq
        rcases Step.exists_of_bind_error hexpr with he | ⟨expr, last, -, hend⟩
        · obtain ⟨hfound, front, more, n, rfl, hd⟩ := (breaks_procedures frames).1 _ _ _ he
          exact ⟨hfound, ⟨.mark .identifier text, i⟩ :: ⟨.mark .equal qtext, j⟩ :: front, more, _, rfl,
            .assignment hd, rfl⟩
        · cases hend

theorem breaks_statement (frames : Nat) :
    Breaks (statement frames : Parse α (Node α)) (Derives .statement) := by
  cases frames with
  | zero => exact breaks_throw _
  | succ frames =>
    intro ts f rest h
    rw [statement] at h
    dsimp only at h
    split at h
    · next name i mid =>
      split at h
      · exact (breaks_assignment frames).imp And.left _ _ _ h
      · split at h
        · exact (breaks_procedures frames).2.2.2.imp .callStatement _ _ _ h
        · -- The identifier is read, though it is not taken.
          cases h
          exact ⟨rfl, [⟨.mark .identifier name, i⟩], [⟨.mark .equal "=", 0⟩, _], _, rfl,
            .assignment derives_number⟩
    · cases h
      exact ⟨rfl, [], [⟨.mark .identifier "x", 0⟩, ⟨.mark .equal "=", 0⟩, _], _, rfl,
        .assignment derives_number⟩

theorem breaks_statementsFuel (frames fuel : Nat) :
    Breaks (statementsFuel frames fuel : Parse α (List (Node α))) Program := by
  induction fuel with
  | zero =>
    intro ts f rest h
    cases h
  | succ fuel ih =>
    intro ts f rest h
    rw [statementsFuel] at h
    split at h
    · cases h
    · rcases Step.exists_of_bind_error h with hn | ⟨n, mid, hn, hmore⟩
      · obtain ⟨hfound, front, more, n, rfl, hd⟩ := breaks_statement frames _ _ _ hn
        exact ⟨hfound, front, more, [n], rfl, by simpa using Program.cons hd .nil⟩
      · obtain ⟨us, rfl, hd⟩ := yields_statement frames _ _ _ hn
        rcases Step.exists_of_bind_error hmore with ho | ⟨others, last, -, hend⟩
        · obtain ⟨hfound, front, more, ns, rfl, hp⟩ := ih _ _ _ ho
          exact ⟨hfound, us ++ front, more, n :: ns, by simp, by simpa using Program.cons hd hp⟩
        · cases hend

theorem breaks_program (frames : Nat) :
    Breaks (program frames : Parse α (Node α)) fun us n => ∃ ns, Program us ns ∧ n = .program ns := by
  cases frames with
  | zero => exact breaks_throw _
  | succ frames =>
    intro ts f rest h
    rcases Step.exists_of_bind_error h with hn | ⟨ns, last, -, hend⟩
    · obtain ⟨hfound, front, more, ns, hts, hp⟩ := breaks_statementsFuel frames _ _ _ _ hn
      exact ⟨hfound, front, more, _, hts, ns, hp, rfl⟩
    · cases hend

end Posterior.Parser
