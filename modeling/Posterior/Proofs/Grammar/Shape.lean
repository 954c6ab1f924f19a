import Posterior.Lexer
import Posterior.Proofs.Grammar.Recognition
import Posterior.Proofs.Shape

set_option autoImplicit false

namespace Posterior

open Grammar Node

variable {α : Type}

def Symbol.Genuine : Symbol α → Prop
  | .mark m text => m ≠ .identifier → ∃ c, Lexer.punctuation? c = some m ∧ text = String.singleton c
  | .number _ | .eof => True

def Token.Genuine (t : Token α) : Prop := t.symbol.Genuine

def Token.Names (valid : String → Prop) (t : Token α) : Prop :=
  ∀ name, t.symbol = .mark .identifier name → valid name

theorem mem_operators {m : Mark} {op : String} {position : Int}
    (h : (⟨.mark m op, position⟩ : Token α).Genuine)
    (hm : m ∈ [Mark.plus, Mark.minus] ∨ m ∈ [Mark.star, Mark.slash]) :
    op ∈ operators := by
  obtain ⟨c, hc, rfl⟩ := h (by rintro rfl; simp at hm)
  unfold Lexer.punctuation? at hc
  split at hc <;> cases hc
  all_goals first
    | decide
    | simp at hm

section Lexing

variable [Arithmetic α]

theorem Lexer.genuine_of_munch {cs : List Char} {symbol : Symbol α} {n : Nat}
    (h : munch cs = .ok (symbol, n)) : symbol.Genuine := by
  cases cs with
  | nil =>
    simp only [munch, Except.ok.injEq, Prod.mk.injEq] at h
    rw [← h.1]
    trivial
  | cons c cs =>
    simp only [munch] at h
    split at h
    · simp only [Except.ok.injEq, Prod.mk.injEq] at h
      rw [← h.1]
      exact fun hm => absurd rfl hm
    · split at h
      · simp only [munchNumber] at h
        split at h
        · split at h
          · cases h
          · cases h
            trivial
        · cases h
          trivial
      · split at h
        · next m hm =>
          cases h
          exact fun _ => ⟨c, hm, rfl⟩
        · cases h

theorem Lexer.genuine_of_scanAll {fuel position : Nat} {rest : List Char} {ts : List (Token α)}
    (h : scanAll fuel position rest = .ok ts) : ∀ t ∈ ts, t.Genuine := by
  induction fuel generalizing position rest ts with
  | zero =>
    cases h
    simp
  | succ fuel ih =>
    rw [scanAll] at h
    split at h
    · cases h
    · next token stop hs =>
      have ht : token.Genuine := by
        unfold scan at hs
        dsimp only at hs
        split at hs
        · next hm =>
          cases hs
          exact genuine_of_munch hm
        · cases hs
      split at h
      · cases h
        simpa using ht
      · split at h
        · next tokens hall =>
          cases h
          exact List.forall_mem_cons.mpr ⟨ht, ih hall⟩
        · cases h

theorem genuine_of_tokenize {source : String} {ts : List (Token α)}
    (h : tokenize source = .ok ts) : ∀ t ∈ ts, t.Genuine := by
  unfold tokenize Lexer.tokens at h
  split at h
  · next hall =>
    cases h
    exact Lexer.genuine_of_scanAll hall
  · cases h

end Lexing

variable [Arithmetic α] {valid : String → Prop}

theorem Grammar.Derives.shape {p : Phrase} {ts : List (Token α)} {n : Node α} (h : Derives p ts n)
    (hg : ∀ t ∈ ts, t.Genuine ∧ t.Names valid) :
    (p ≠ .statement → n.IsExpression valid) ∧ (p = .call ∨ p = .statement → n.IsStatement valid) := by
  induction h with
  | term _ ih | factor _ ih => exact ⟨fun _ => (ih hg).1 nofun, nofun⟩
  | @sum m op position ls rs l r hm _ _ ihl ihr =>
    have ho : op ∈ operators :=
      mem_operators (hg ⟨.mark m op, position⟩ (by simp)).1 (.inl hm)
    exact ⟨fun _ => .binary ho ((ihl fun t ht => hg t (by simp [ht])).1 nofun)
      ((ihr fun t ht => hg t (by simp [ht])).1 nofun), nofun⟩
  | @product m op position ls rs l r hm _ _ ihl ihr =>
    have ho : op ∈ operators :=
      mem_operators (hg ⟨.mark m op, position⟩ (by simp)).1 (.inr hm)
    exact ⟨fun _ => .binary ho ((ihl fun t ht => hg t (by simp [ht])).1 nofun)
      ((ihr fun t ht => hg t (by simp [ht])).1 nofun), nofun⟩
  | number value position => exact ⟨fun _ => .number value, nofun⟩
  | name name position => exact ⟨fun _ => .var ((hg _ List.mem_cons_self).2 name rfl), nofun⟩
  | application _ ih => exact ⟨fun _ => (ih hg).1 nofun, nofun⟩
  | group _ ih => exact ⟨fun _ => (ih fun t ht => hg t (by simp [ht])).1 nofun, nofun⟩
  | negation _ ih =>
    refine ⟨fun _ => ?_, nofun⟩
    exact .binary (by decide) (.number _) ((ih fun t ht => hg t (by simp [ht])).1 nofun)
  | @call name _ _ _ _ _ ts args hs _ ih =>
    have hname : valid name := (hg _ List.mem_cons_self).2 name rfl
    have he : (Node.call name (args.map Prod.snd)).IsExpression valid := by
      refine .call hname fun n hn => ?_
      obtain ⟨a, ha, rfl⟩ := List.mem_map.mp hn
      have hsub : a.1 ⊆ ts := hs.subset (List.mem_map.mpr ⟨a, ha, rfl⟩)
      exact (ih a ha fun t ht => hg t (by simp [hsub ht])).1 nofun
    exact ⟨fun _ => he, fun _ => .call he⟩
  | callStatement _ ih => exact ⟨nofun, fun _ => (ih hg).2 (.inl rfl)⟩
  | @assignment name _ _ _ _ _ _ ih =>
    have hname : valid name := (hg _ List.mem_cons_self).2 name rfl
    exact ⟨nofun, fun _ => .assignment hname ((ih fun t ht => hg t (by simp [ht])).1 nofun)⟩

theorem Grammar.Program.shape {ts : List (Token α)} {ns : List (Node α)} (h : Program ts ns)
    (hg : ∀ t ∈ ts, t.Genuine ∧ t.Names valid) : ∀ n ∈ ns, n.IsStatement valid := by
  induction h with
  | nil => simp
  | cons h _ ih =>
    refine List.forall_mem_cons.mpr ⟨?_, ih fun t ht => hg t (List.mem_append_right _ ht)⟩
    exact (h.shape fun t ht => hg t (List.mem_append_left _ ht)).2 (.inr rfl)

theorem shape_of_parse {ts : List (Token Float)} {ns : List (Node Float)} (h : parse ts = .program ns)
    (hg : ∀ t ∈ ts, t.Genuine) : ∀ n ∈ ns, n.IsStatement fun _ => True := by
  have hp : Program (visible ts) ns := eq_program_of_parse h
  exact hp.shape fun t ht => ⟨hg t ((List.takeWhile_sublist _).subset ht), fun _ _ => trivial⟩

end Posterior
