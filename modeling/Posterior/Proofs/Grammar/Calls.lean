import Posterior.Cursor
import Posterior.Proofs.Grammar.Procedures

set_option autoImplicit false

namespace Posterior.Cursor

open Posterior.Parser

section Places

variable {α β : Type} {ts us back : List (Token α)} {c : Cursor α}

structure Placed (ts : List (Token α)) (c : Cursor α) : Prop where
  tokens : c.tokens = closeTokens ts
  before : ∀ t ∈ c.tokens.take c.index, t.kind ≠ .eof

theorem placed_ofTokens (ts : List (Token α)) : Placed ts (ofTokens ts) :=
  ⟨rfl, by simp [ofTokens]⟩

theorem Placed.hasEnd (h : Placed ts c) : HasEnd c.rest := by
  obtain ⟨t, ht, hk⟩ := hasEnd_closeTokens ts
  rw [← h.tokens, ← List.take_append_drop c.index c.tokens] at ht
  rcases List.mem_append.mp ht with ht | ht
  · exact absurd hk (h.before t ht)
  · exact ⟨t, ht, hk⟩

theorem current?_eq_head? (c : Cursor α) : c.current? = c.rest.head? := by
  rw [current?, rest, List.head?_drop]

theorem Placed.exists_rest (h : Placed ts c) : ∃ t back, c.rest = t :: back ∧ c.current? = some t := by
  obtain ⟨t, back, hrest⟩ := h.hasEnd.exists_cons
  exact ⟨t, back, hrest, by rw [current?_eq_head?, hrest, List.head?_cons]⟩

theorem Placed.index_lt (h : Placed ts c) : c.index < c.tokens.length := by
  obtain ⟨t, -, -, ht⟩ := h.exists_rest
  exact (List.getElem?_eq_some_iff.mp ht).1

theorem Placed.exists_peek (h : Placed ts c) (offset : Nat) : ∃ t, c.peek? offset = some t := by
  have hlt := h.index_lt
  unfold peek?
  dsimp only
  rw [if_neg (by omega), if_neg (by omega)]
  exact ⟨_, List.getElem?_eq_getElem (by omega)⟩

def moved (c : Cursor α) (count : Nat) : Cursor α := { c with index := c.index + count }

theorem rest_moved (h : c.rest = us ++ back) : (c.moved us.length).rest = back := by
  rw [rest, moved, ← List.drop_drop, ← rest, h, List.drop_left]

def Passes (c c' : Cursor α) : Prop :=
  ∃ us back, c.rest = us ++ back ∧ (∀ t ∈ us, t.kind ≠ .eof) ∧ c' = c.moved us.length

theorem passes_refl (c : Cursor α) : Passes c c := ⟨[], c.rest, rfl, nofun, rfl⟩

theorem Passes.index_le {c' : Cursor α} (h : Passes c c') : c.index ≤ c'.index := by
  obtain ⟨us, -, -, -, rfl⟩ := h
  exact Nat.le_add_right c.index us.length

theorem Passes.placed {c' : Cursor α} (h : Passes c c') (hc : Placed ts c) : Placed ts c' := by
  obtain ⟨us, back, hrest, hus, rfl⟩ := h
  refine ⟨hc.tokens, ?_⟩
  have htake : c.tokens.take (c.index + us.length) = c.tokens.take c.index ++ us := by
    rw [List.take_add, ← rest, hrest, List.take_left]
  change ∀ t ∈ c.tokens.take (c.index + us.length), t.kind ≠ .eof
  rw [htake]
  exact List.forall_mem_append.mpr ⟨hc.before, hus⟩

def outcome : EStateM.Result (ParseStop α) (List (Token α)) β → Except (ParseStop α) β
  | .ok value _ => .ok value
  | .error stop _ => .error stop

theorem run_eq (c : Cursor α) (p : Parse α β) :
    c.run p = (outcome (p c.rest), { c with index := c.tokens.length - (left (p c.rest)).length }) := by
  unfold run
  cases p c.rest <;> rfl

theorem exists_of_run_ok {p : Parse α β} {value : β} (h : (c.run p).1 = .ok value) :
    ∃ last, p c.rest = .ok value last := by
  rw [run_eq] at h
  cases hp : p c.rest with
  | ok value' last =>
    rw [hp] at h
    cases h
    exact ⟨last, rfl⟩
  | error stop last =>
    rw [hp] at h
    cases h

theorem exists_of_run_error {p : Parse α β} {stop : ParseStop α} (h : (c.run p).1 = .error stop) :
    ∃ last, p c.rest = .error stop last := by
  rw [run_eq] at h
  cases hp : p c.rest with
  | ok value last =>
    rw [hp] at h
    cases h
  | error stop' last =>
    rw [hp] at h
    cases h
    exact ⟨last, rfl⟩

theorem Placed.run_moved (h : Placed ts c) {p : Parse α β} (hrest : c.rest = us ++ left (p c.rest)) :
    (c.run p).2 = c.moved us.length := by
  have hlt := h.index_lt
  have hlength := congrArg List.length hrest
  have hdrop : c.rest.length = c.tokens.length - c.index := List.length_drop
  rw [List.length_append, hdrop] at hlength
  rw [run_eq]
  refine congrArg (Cursor.mk c.tokens) ?_
  omega

theorem Placed.advance_cases (h : Placed ts c) :
    ∃ t back, c.rest = t :: back ∧ c.advance = (some t, if t.kind = .eof then c else c.moved 1) := by
  obtain ⟨t, back, hrest, ht⟩ := h.exists_rest
  exact ⟨t, back, hrest, by rw [advance, ht]; rfl⟩

theorem exists_taken_of_expect (kind : Kind) (context : String) (ts : List (Token α)) :
    ∃ us, ts = us ++ left (expect kind context ts) ∧ ∀ t ∈ us, t.kind ≠ .eof := by
  cases ts with
  | nil => exact ⟨[], rfl, nofun⟩
  | cons t ts =>
    rw [expect]
    split
    · exact ⟨[], rfl, nofun⟩
    · next hk =>
      split
      · exact ⟨[], rfl, nofun⟩
      · next he =>
        refine ⟨[t], rfl, ?_⟩
        rw [List.forall_mem_singleton]
        exact fun ht => he (Decidable.of_not_not hk ▸ ht)

theorem Placed.unexpected (h : Placed ts c) {kind : Kind} {context : String} {stop : ParseStop α}
    (hr : (c.run (expect kind context)).1 = .error stop) :
    (∃ f, stop = .fault f ∧ f.found = c.current?) ∧ (c.run (expect kind context)).2 = c := by
  obtain ⟨last, hexpect⟩ := exists_of_run_error hr
  obtain ⟨t, back, hrest, ht⟩ := h.exists_rest
  have hstop : stop = .fault ⟨.expected kind context, some t⟩ ∧ last = c.rest := by
    rw [hrest] at hexpect ⊢
    rw [expect] at hexpect
    split at hexpect
    · cases hexpect
      exact ⟨rfl, rfl⟩
    · split at hexpect <;> cases hexpect
  obtain ⟨rfl, rfl⟩ := hstop
  have hmoved : (c.run (expect kind context)).2 = c.moved ([] : List (Token α)).length :=
    h.run_moved (by rw [hexpect]; rfl)
  exact ⟨⟨_, rfl, ht.symm⟩, hmoved⟩

end Places

variable {α : Type} [Arithmetic α] {ts : List (Token α)} {c : Cursor α}

inductive Call where
  | current
  | peek (offset : Nat)
  | advance
  | expect (kind : Kind) (context : String)
  | read (procedure : Procedure) (frames : Nat)

inductive Reply (α : Type) where
  | token (found : Option (Token α))
  | expected (outcome : Except (ParseStop α) (Token α))
  | tree (outcome : Except (ParseStop α) (Node α))

def ask (c : Cursor α) : Call → Reply α × Cursor α
  | .current => (.token c.current?, c)
  | .peek offset => (.token (c.peek? offset), c)
  | .advance => (.token c.advance.1, c.advance.2)
  | .expect kind context =>
    let answer := c.run (Parser.expect kind context)
    (.expected answer.1, answer.2)
  | .read procedure frames =>
    let answer := c.run (procedure.read frames)
    (.tree answer.1, answer.2)

def askAll (c : Cursor α) : List Call → Cursor α
  | [] => c
  | call :: calls => (c.ask call).2.askAll calls

theorem Placed.passes_ask (h : Placed ts c) (call : Call) : Passes c (c.ask call).2 := by
  cases call with
  | current => exact passes_refl c
  | peek offset => exact passes_refl c
  | advance =>
    obtain ⟨t, back, hrest, hadvance⟩ := h.advance_cases
    rw [ask, hadvance]
    dsimp only
    split
    · exact passes_refl c
    · next hk => exact ⟨[t], back, hrest, by simpa using hk, rfl⟩
  | expect kind context =>
    obtain ⟨us, hrest, hus⟩ := exists_taken_of_expect kind context c.rest
    exact ⟨us, _, hrest, hus, h.run_moved hrest⟩
  | read p frames =>
    obtain ⟨us, hrest⟩ := p.drops_read frames c.rest
    exact ⟨us, _, hrest.symm, (p.begins_of_read frames hrest.symm).kind_ne_eof, h.run_moved hrest.symm⟩

theorem Placed.askAll (h : Placed ts c) (calls : List Call) : Placed ts (c.askAll calls) := by
  induction calls generalizing c with
  | nil => exact h
  | cons call calls ih => exact ih ((h.passes_ask call).placed h)

/-- Where a procedure returns a tree, the cursor passes the tokens of the tree, and no longer phrase is there. -/
structure Reads (p : Procedure) (c c' : Cursor α) (n : Node α) : Prop where
  derives : p.Derives (c.rest.take (c'.index - c.index)) n
  progress : p ≠ .program → c.index < c'.index
  longest : ∀ count m, p.Derives (c.rest.take count) m → count ≤ c'.index - c.index
  past : Past p.operators c'.rest
  whole : p = .program → nextKind c'.rest = .eof

/-- Where a procedure finds a fault, the tokens up to the one in the way begin a phrase, and with that one they do
not. The cursor stands at it, or at the identifier before it if that begins no statement with it. -/
structure Refuses (p : Procedure) (c c' : Cursor α) (f : ParseFault α) (count : Nat) (t : Token α) : Prop where
  found : f.found = some t
  stands : c.rest[count]? = some t
  begins : p.Begins (c.rest.take count)
  ends : ¬ p.Begins (c.rest.take (count + 1))
  place : c'.index = c.index + count ∨
    (p = .statement ∨ p = .program) ∧ c'.index + 1 = c.index + count ∧
      ∃ name i, f.cause = .afterIdentifier name ∧ c'.current? = some ⟨.mark .identifier name, i⟩

section Answers

variable {p : Procedure} {frames : Nat}

theorem Placed.reads (h : Placed ts c) {n : Node α} (hr : (c.run (p.read frames)).1 = .ok n) :
    Reads p c (c.run (p.read frames)).2 n := by
  obtain ⟨last, hread⟩ := exists_of_run_ok hr
  obtain ⟨us, hrest, hd⟩ := p.yields_read frames _ _ _ hread
  have hmoved : (c.run (p.read frames)).2 = c.moved us.length := h.run_moved (by rw [hread]; exact hrest)
  have hplaced : Placed ts (c.moved us.length) := hmoved ▸ (h.passes_ask (.read p frames)).placed h
  have hlast : (c.moved us.length).rest = last := rest_moved hrest
  have hcount : (c.moved us.length).index - c.index = us.length := Nat.add_sub_cancel_left ..
  obtain ⟨hpast, hwhole⟩ := p.past_of_read hread
  rw [hmoved]
  refine ⟨?_, fun hp => ?_, fun count m hm => ?_, hlast ▸ hpast, hlast ▸ hwhole⟩
  · rw [hcount, hrest, List.take_left]
    exact hd
  · have hpos := List.length_pos_iff.mpr (Procedure.ne_nil_of_derives hp hd)
    exact Nat.lt_add_of_pos_right hpos
  · have hl := Procedure.longest_of_read hread (List.take_append_drop count c.rest).symm hm
    obtain ⟨t, back, rfl, -⟩ := hlast ▸ hplaced.exists_rest
    have hlength := congrArg List.length hrest
    rw [List.length_drop, List.length_cons] at hl
    rw [List.length_append, List.length_cons] at hlength
    omega

theorem Placed.refuses (h : Placed ts c) {f : ParseFault α} (hr : (c.run (p.read frames)).1 = .error (.fault f)) :
    ∃ count t, Refuses p c (c.run (p.read frames)).2 f count t := by
  obtain ⟨last, hread⟩ := exists_of_run_error hr
  obtain ⟨front, t, back, hts, hs, hfound, hbegins⟩ :=
    exists_of_breaks (p.breaks_read frames) Procedure.kind_ne_eof_of_derives hread h.hasEnd
  obtain ⟨us, hrest⟩ := p.drops_read frames c.rest
  rw [hread] at hrest
  have hmoved : (c.run (p.read frames)).2 = c.moved us.length := h.run_moved (by rw [hread]; exact hrest.symm)
  rw [hmoved]
  refine ⟨front.length, t, hfound, by simp [hts], by rwa [hts, List.take_left], ?_, ?_⟩
  · rw [hts, List.append_cons, List.take_left' (by simp)]
    exact Procedure.not_begins_of_fault (hts ▸ hread) hs
  · have hlast : us ++ last = front ++ t :: back := hrest.trans hts
    have hpoint := p.stuck_of_read hread
    rw [hs] at hpoint
    rcases hpoint with rfl | ⟨hp, name, i, hcause, rfl⟩
    · rw [List.append_cancel_right hlast]
      exact .inl rfl
    · -- The identifier is the last token before the one in the way.
      have hcurrent := (current?_eq_head? _).trans (congrArg List.head? (rest_moved hrest.symm))
      rw [List.append_cons] at hlast
      refine .inr ⟨hp, ?_, name, i, hcause, hcurrent⟩
      rw [← List.append_cancel_right hlast, List.length_append]
      rfl

end Answers

structure Serves (c : Cursor α) : Prop where
  within : c.index < c.tokens.length
  forward : ∀ call, c.index ≤ (c.ask call).2.index
  answered : ∀ call, (c.ask call).1 ≠ .token none
  unexpected : ∀ kind context stop, (c.ask (.expect kind context)).1 = .expected (.error stop) →
    (∃ f, stop = .fault f ∧ f.found = c.current?) ∧ (c.ask (.expect kind context)).2 = c
  reads : ∀ p frames n, (c.ask (.read p frames)).1 = .tree (.ok n) → Reads p c (c.ask (.read p frames)).2 n
  refuses : ∀ p frames f, (c.ask (.read p frames)).1 = .tree (.error (.fault f)) →
    ∃ count t, Refuses p c (c.ask (.read p frames)).2 f count t
  enough : ∀ p frames, 4 * nesting (c.rest.map Token.kind) + 5 < frames →
    (c.ask (.read p frames)).1 ≠ .tree (.error .tooDeep) ∧
      ∀ more, frames ≤ more → c.ask (.read p more) = c.ask (.read p frames)

theorem Placed.answered (h : Placed ts c) (call : Call) : (c.ask call).1 ≠ .token none := by
  intro hnone
  cases call with
  | current =>
    obtain ⟨t, -, -, ht⟩ := h.exists_rest
    rw [ask, ht] at hnone
    cases hnone
  | peek offset =>
    obtain ⟨t, ht⟩ := h.exists_peek offset
    rw [ask, ht] at hnone
    cases hnone
  | advance =>
    obtain ⟨t, back, -, ht⟩ := h.advance_cases
    rw [ask, ht] at hnone
    cases hnone
  | expect kind context => cases hnone
  | read p frames => cases hnone

theorem enough_frames (c : Cursor α) (p : Procedure) {frames : Nat}
    (h : 4 * nesting (c.rest.map Token.kind) + 5 < frames) :
    (c.ask (.read p frames)).1 ≠ .tree (.error .tooDeep) ∧
      ∀ more, frames ≤ more → c.ask (.read p more) = c.ask (.read p frames) := by
  have hdeep := p.read_ne_tooDeep h
  refine ⟨fun hr => ?_, fun more hm => ?_⟩
  · obtain ⟨last, hread⟩ := exists_of_run_error (Reply.tree.inj hr)
    exact hdeep last hread
  · simp only [ask, run_eq, p.read_eq_of_le hdeep hm]

/-- A cursor may be asked for anything at any time. It has a token to look at, it never goes back, and it never goes
beyond the first end. -/
theorem serves_of_calls (ts : List (Token α)) (calls : List Call) :
    Placed ts ((ofTokens ts).askAll calls) ∧ Serves ((ofTokens ts).askAll calls) := by
  have h := (placed_ofTokens ts).askAll calls
  refine ⟨h, ?_⟩
  generalize (ofTokens ts).askAll calls = c at h
  exact {
    within := h.index_lt
    forward := fun call => (h.passes_ask call).index_le
    answered := h.answered
    unexpected := fun kind context stop hr => h.unexpected (Reply.expected.inj hr)
    reads := fun p frames n hr => h.reads (Reply.tree.inj hr)
    refuses := fun p frames f hr => h.refuses (Reply.tree.inj hr)
    enough := fun p frames hf => c.enough_frames p hf }

example :
    let ts : List (Token Float) := [⟨.mark .identifier "x", 0⟩, ⟨.eof, 1⟩, ⟨.mark .identifier "y", 2⟩]
    ((ofTokens ts).askAll [.read .statement 9]).index = 0 ∧
      ((ofTokens ts).askAll [.read .statement 9, .read .term 9, .advance, .read .program 9]).index = 1 :=
  ⟨rfl, rfl⟩

end Posterior.Cursor
