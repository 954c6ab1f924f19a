import Posterior.Parser.Related

/-!
The procedures of the grammar only ever drop tokens from the front of what is left, also when they fail.
So the number of tokens bounds the rounds of every loop, and fuel beyond it changes nothing.
-/

set_option autoImplicit false

namespace Posterior.Parser

variable {α β γ : Type}

def left : EStateM.Result (ParseStop α) (List (Token α)) β → List (Token α)
  | .ok _ rest => rest
  | .error _ rest => rest

def Drops (p : Parse α β) : Prop := ∀ ts, left (p ts) <:+ ts

theorem drops_pure (b : β) : Drops (pure b : Parse α β) := fun _ => List.suffix_refl _

theorem drops_throw (stop : ParseStop α) : Drops (throw stop : Parse α β) :=
  fun _ => List.suffix_refl _

theorem Drops.bind {p : Parse α β} {f : β → Parse α γ} (hp : Drops p) (hf : ∀ b, Drops (f b)) :
    Drops (p >>= f) := by
  intro ts
  have h := hp ts
  cases hr : p ts with
  | ok b rest =>
    rw [hr] at h
    rw [Step.bind_ok hr]
    exact (hf b rest).trans h
  | error e rest =>
    rw [hr] at h
    rw [Step.bind_error hr]
    exact h

theorem compatible_drops : Compatible fun _ (ts : List (Token α)) r _ => left r <:+ ts where
  ok _ ts := List.suffix_refl ts
  fail _ ts := List.suffix_refl ts
  skip h := h.trans (List.suffix_cons _ _)
  bind h hf := Drops.bind h hf

theorem Drops.length_le_of_ok {p : Parse α β} (hp : Drops p) {ts rest : List (Token α)} {b : β}
    (h : p ts = .ok b rest) : rest.length ≤ ts.length := by
  have hd := hp ts
  rw [h] at hd
  exact hd.length_le

theorem drops_expect (kind : Kind) (context : String) : Drops (expect kind context : Parse α (Token α)) :=
  compatible_drops.expect kind context

theorem expect_mark_ok {m : Mark} {context : String} {text : String} {position : Int}
    {ts : List (Token α)} :
    expect (.mark m) context (⟨.mark m text, position⟩ :: ts) =
      .ok ⟨.mark m text, position⟩ ts := by
  simp [expect, Token.kind, Symbol.kind]

section Loops

variable {marks : List Mark} {operand item : Parse α (Node α)}

theorem drops_chainFuel (h : Drops operand) (fuel : Nat) (n : Node α) : Drops (chainFuel marks operand fuel n) :=
  compatible_drops.chainFuel (q := operand) h fuel n

theorem drops_moreFuel (h : Drops item) (fuel : Nat) : Drops (moreFuel item fuel) :=
  compatible_drops.moreFuel (q := item) h fuel

theorem drops_arguments (h : Drops item) : Drops (arguments item) := compatible_drops.arguments (q := item) h

end Loops

theorem chainFuel_succ {marks : List Mark} {operand : Parse α (Node α)} (h : Drops operand)
    (fuel : Nat) (n : Node α) (ts : List (Token α)) (hf : ts.length ≤ fuel) :
    chainFuel marks operand (fuel + 1) n ts = chainFuel marks operand fuel n ts := by
  induction fuel generalizing n ts with
  | zero =>
    have : ts = [] := List.eq_nil_of_length_eq_zero (by omega)
    subst this
    rfl
  | succ fuel ih =>
    rw [chainFuel, chainFuel]
    split
    · rfl
    · next op rest hm =>
      obtain ⟨m, -, position, rfl⟩ := takeMark?_eq_some hm
      have hl := h rest
      cases hr : operand rest with
      | error e rest' => rw [Step.bind_error hr, Step.bind_error hr]
      | ok right rest' =>
        rw [hr] at hl
        rw [Step.bind_ok hr, Step.bind_ok hr]
        have hlen := hl.length_le
        simp only [left, List.length_cons] at hlen hf
        exact ih _ _ (by omega)

theorem moreFuel_succ {item : Parse α (Node α)} (h : Drops item) (fuel : Nat)
    (ts : List (Token α)) (hf : ts.length ≤ fuel) :
    moreFuel item (fuel + 1) ts = moreFuel item fuel ts := by
  induction fuel generalizing ts with
  | zero =>
    have : ts = [] := List.eq_nil_of_length_eq_zero (by omega)
    subst this
    rfl
  | succ fuel ih =>
    rw [moreFuel, moreFuel]
    split
    · rfl
    · next text rest hm =>
      obtain ⟨m, -, position, rfl⟩ := takeMark?_eq_some hm
      have hl := h rest
      cases hr : item rest with
      | error e rest' => rw [Step.bind_error hr, Step.bind_error hr]
      | ok first rest' =>
        rw [hr] at hl
        rw [Step.bind_ok hr, Step.bind_ok hr]
        have hlen := hl.length_le
        simp only [left, List.length_cons] at hlen hf
        have hi := ih rest' (by omega)
        cases hm' : moreFuel item fuel rest' with
        | error e rest'' => rw [Step.bind_error hm', Step.bind_error (hi.trans hm')]
        | ok others rest'' => rw [Step.bind_ok hm', Step.bind_ok (hi.trans hm')]

variable [Arithmetic α]

theorem Procedure.drops_read (p : Procedure) (frames : Nat) : Drops (p.read frames : Parse α (Node α)) :=
  compatible_drops.read 0 (fun _ _ _ => List.suffix_refl _) (fun _ => drops_throw .tooDeep) p frames

theorem drops_statementsFuel (frames fuel : Nat) :
    Drops (statementsFuel frames fuel : Parse α (List (Node α))) :=
  compatible_drops.statementsFuel 0 (fun _ _ _ => List.suffix_refl _) (fun _ => drops_throw .tooDeep) frames fuel

theorem length_lt_of_statement {frames : Nat} {ts rest : List (Token α)} {n : Node α}
    (h : statement frames ts = .ok n rest) : rest.length < ts.length := by
  cases frames with
  | zero => cases h
  | succ frames =>
    rw [statement] at h
    dsimp only at h
    split at h
    · next name position rest' =>
      split at h
      · cases frames with
        | zero => cases h
        | succ frames =>
          rw [assignment, Step.bind_ok expect_mark_ok] at h
          refine Nat.lt_succ_of_le (Drops.length_le_of_ok ?_ h)
          exact (drops_expect _ _).bind fun _ => (Procedure.expression.drops_read frames).bind fun expr =>
            drops_pure (Node.assignment name expr)
      · split at h
        · cases frames with
          | zero => cases h
          | succ frames =>
            rw [call, Step.bind_ok expect_mark_ok] at h
            refine Nat.lt_succ_of_le (Drops.length_le_of_ok ?_ h)
            exact (drops_expect _ _).bind fun _ =>
              (drops_arguments (Procedure.expression.drops_read frames)).bind fun args =>
                (drops_expect _ _).bind fun _ => drops_pure (Node.call name args)
        · simp at h
    · simp [fail] at h

theorem statementsFuel_succ (frames fuel : Nat) (ts : List (Token α)) (hf : ts.length ≤ fuel) :
    statementsFuel frames (fuel + 1) ts = statementsFuel frames fuel ts := by
  induction fuel generalizing ts with
  | zero =>
    have : ts = [] := List.eq_nil_of_length_eq_zero (by omega)
    subst this
    rfl
  | succ fuel ih =>
    rw [statementsFuel, statementsFuel]
    split
    · rfl
    · cases hr : statement frames ts with
      | error e rest => rw [Step.bind_error hr, Step.bind_error hr]
      | ok first rest =>
        rw [Step.bind_ok hr, Step.bind_ok hr]
        have hl := length_lt_of_statement hr
        have hi := ih rest (by omega)
        cases hm : statementsFuel frames fuel rest with
        | error e rest' => rw [Step.bind_error hm, Step.bind_error (hi.trans hm)]
        | ok others rest' => rw [Step.bind_ok hm, Step.bind_ok (hi.trans hm)]

theorem program_succ (frames : Nat) (ts : List (Token α)) :
    program (frames + 1) ts =
      match statementsFuel frames ts.length ts with
      | .ok ns rest => .ok (.program ns) rest
      | .error e rest => .error e rest := by
  rw [program]
  cases h : statementsFuel frames ts.length ts with
  | ok ns rest => exact Step.bind_ok (p := fun ts => statementsFuel frames ts.length ts) h
  | error e rest => exact Step.bind_error (p := fun ts => statementsFuel frames ts.length ts) h

end Posterior.Parser
