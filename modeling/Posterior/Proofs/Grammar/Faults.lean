import Posterior.Proofs.Grammar.Lookahead
import Posterior.Proofs.Grammar.Recognition

set_option autoImplicit false

namespace Posterior

open Grammar Posterior.Parser

/-- Tokens that some more make a program of. -/
def Grammar.Viable {α : Type} [Arithmetic α] (front : List (Token α)) : Prop :=
  ∃ more ns, Program (front ++ more) ns

section Prefixes

variable {α : Type} [Arithmetic α]

theorem Grammar.Viable.left {front more : List (Token α)} (h : Viable (front ++ more)) :
    Viable front := by
  obtain ⟨rest, ns, hp⟩ := h
  exact ⟨more ++ rest, ns, by rwa [← List.append_assoc]⟩

theorem Grammar.Viable.kind_ne_eof {front : List (Token α)} (h : Viable front) {t : Token α}
    (ht : t ∈ front) : t.kind ≠ .eof := by
  obtain ⟨more, ns, hp⟩ := h
  exact hp.kind_ne_eof (List.mem_append_left more ht)

theorem viable_take_iff {front back : List (Token α)} {t : Token α} (hv : Viable front)
    (hn : ¬ Viable (front ++ [t])) (j : Nat) :
    Viable ((front ++ t :: back).take j) ↔ j ≤ front.length := by
  constructor
  · intro h
    refine Nat.le_of_not_lt fun hj => hn ?_
    obtain ⟨i, rfl⟩ : ∃ i, j = front.length + (i + 1) := ⟨j - front.length - 1, by omega⟩
    rw [List.take_append, List.take_of_length_le (by omega), Nat.add_sub_cancel_left,
      List.take_succ_cons] at h
    rw [List.append_cons] at h
    exact h.left
  · intro hj
    rw [List.take_append_of_le_length hj]
    rw [← List.take_append_drop j front] at hv
    exact hv.left

end Prefixes

theorem message_ne_tooDeepMessage (f : ParseFault Float) : f.message ≠ tooDeepMessage := by
  intro h
  have hl : f.message.toList.take 5 = tooDeepMessage.toList.take 5 := by rw [h]
  delta ParseFault.message ParseCause.message tooDeepMessage at hl
  generalize (f.found.map Token.describe).getD "end of input" = found at hl
  cases hc : f.cause <;> rw [hc] at hl <;> simp [String.toList_append, toString] at hl

theorem exists_of_parse_error {ts : List (Token Float)} {message : String} {position : Int}
    (h : parse ts = .error message position) (hm : message ≠ tooDeepMessage) :
    ∃ f rest, program frameLimit (closeTokens ts) = .error (.fault f) rest ∧ f.position = position := by
  unfold parse at h
  split at h
  · next tree rest hr =>
    obtain ⟨us, ns, -, -, -, rfl⟩ := program_sound hr
    cases h
  · next f rest hr =>
    cases h
    exact ⟨f, rest, hr, rfl⟩
  · cases h
    exact absurd rfl hm

theorem parse_of_fault {ts : List (Token Float)} {f : ParseFault Float} {rest : List (Token Float)}
    (h : program frameLimit (closeTokens ts) = .error (.fault f) rest) :
    parse ts = .error f.message f.position := by
  unfold parse
  rw [h]

theorem map_kind_closeTokens {α : Type} {ts ts' : List (Token α)}
    (h : ts'.map Token.kind = ts.map Token.kind) :
    (closeTokens ts').map Token.kind = (closeTokens ts).map Token.kind := by
  have hlast := congrArg List.getLast? h
  rw [List.getLast?_map, List.getLast?_map] at hlast
  unfold closeTokens
  cases hl : ts.getLast? with
  | none =>
    rw [hl] at hlast
    rw [Option.map_eq_none_iff.mp hlast]
  | some t =>
    rw [hl, Option.map_some, Option.map_eq_some_iff] at hlast
    obtain ⟨t', ht', hk⟩ := hlast
    rw [ht']
    dsimp only
    rw [hk]
    split
    · exact h
    · simp [h]

theorem hasEnd_closeTokens {α : Type} (ts : List (Token α)) : HasEnd (closeTokens ts) := by
  unfold closeTokens
  split
  · exact ⟨_, List.mem_singleton_self _, rfl⟩
  · next t ht =>
    split
    · next hk => exact ⟨t, List.mem_of_getLast? ht, hk⟩
    · exact ⟨_, List.mem_append_right _ (List.mem_singleton_self _), rfl⟩

section Stops

variable {α β : Type} {p : Parse α β} {ts rest : List (Token α)} {f : ParseFault α}

theorem exists_of_breaks {P : List (Token α) → β → Prop} (hp : Breaks p P)
    (hP : ∀ {us : List (Token α)} {b : β}, P us b → ∀ t ∈ us, t.kind ≠ .eof)
    (h : p ts = .error (.fault f) rest) (hend : HasEnd ts) :
    ∃ front t back, ts = front ++ t :: back ∧ stuck f rest = t :: back ∧ f.found = some t ∧
      ∃ more b, P (front ++ more) b := by
  obtain ⟨hfound, front, more, b, hts, hb⟩ := hp _ _ _ h
  cases hs : stuck f rest with
  | nil =>
    rw [hs, List.append_nil] at hts
    subst hts
    obtain ⟨t, ht, hk⟩ := hend
    exact absurd hk (hP hb t (List.mem_append_left more ht))
  | cons t back =>
    rw [hs] at hts hfound
    exact ⟨front, t, back, hts, rfl, hfound, more, b, hb⟩

/-- The tokens up to the one in the way decide on the fault by their kinds. -/
theorem fault_of_sameKinds (hp : Foresees p p) {front back us' : List (Token α)} {t : Token α}
    (h : p (front ++ t :: back) = .error (.fault f) rest)
    (hs : stuck f rest = t :: back) (hk : SameKinds (front ++ [t]) us') (back' : List (Token α)) :
    ∃ f' rest' t', p (us' ++ back') = .error (.fault f') rest' ∧ stuck f' rest' = t' :: back' := by
  have hf := hp.foreseen hk back back'
  rw [← List.append_cons, h] at hf
  generalize hr' : p (us' ++ back') = r' at hf
  cases hf with
  | past hl =>
    rw [place, hs, List.length_cons] at hl
    omega
  | @fault vs vs' _ rest' _ f' hv hn hst hst' =>
    rw [hs] at hst
    obtain rfl : vs = [t] := List.append_cancel_right (hst.symm.trans List.singleton_append.symm)
    obtain ⟨t', rfl⟩ : ∃ t', vs' = [t'] := by
      cases hv <;> rename_i hv <;> cases hv <;> exact ⟨_, rfl⟩
    exact ⟨f', rest', t', rfl, hst'⟩

variable [Arithmetic α] {frames : Nat}

theorem exists_of_fault (h : program frames ts = .error (.fault f) rest) (hend : HasEnd ts) :
    ∃ front t back, ts = front ++ t :: back ∧ stuck f rest = t :: back ∧ f.position = t.position ∧
      Viable front := by
  obtain ⟨front, t, back, hts, hs, hfound, more, n, ns, hp, -⟩ :=
    exists_of_breaks (breaks_program frames) (fun ⟨ns, hp, _⟩ t => hp.kind_ne_eof) h hend
  refine ⟨front, t, back, hts, hs, ?_, more, ns, hp⟩
  rw [ParseFault.position, hfound]
  rfl

theorem not_viable_of_fault {front back : List (Token α)} {t : Token α}
    (h : program frames (front ++ t :: back) = .error (.fault f) rest)
    (hs : stuck f rest = t :: back) : ¬ Viable (front ++ [t]) := by
  rintro ⟨more, ns, hp⟩
  obtain ⟨f', rest', t', hf', -⟩ := fault_of_sameKinds (foresees_program frames) h hs (.refl _) more
  have ha := agrees_program frames hp nextKind_nil
  rw [List.append_nil, hf'] at ha
  rcases ha with ha | ⟨left, ha⟩ <;> cases ha

theorem exists_fault_of_map_kind {front back ts' : List (Token α)} {t : Token α}
    (h : program frames (front ++ t :: back) = .error (.fault f) rest)
    (hs : stuck f rest = t :: back) (hend : HasEnd ts')
    (hk : ts'.map Token.kind = (front ++ t :: back).map Token.kind) :
    ∃ f' rest' t', program frames ts' = .error (.fault f') rest' ∧ ts'[front.length]? = some t' ∧
      f'.position = t'.position := by
  rw [List.append_cons, List.map_append, List.map_eq_append_iff] at hk
  obtain ⟨us', back', rfl, hfront, -⟩ := hk
  obtain ⟨f', rest', t', hf', hs'⟩ :=
    fault_of_sameKinds (foresees_program frames) h hs (sameKinds_of_map hfront.symm) back'
  obtain ⟨front', t'', back'', hts', hs'', hpos', -⟩ := exists_of_fault hf' hend
  rw [hs'] at hs''
  cases hs''
  have hl := congrArg List.length hts'
  have hl' := congrArg List.length hfront
  simp only [List.length_append, List.length_cons, List.length_map, List.length_nil] at hl hl'
  have hlength : front'.length = front.length := by omega
  exact ⟨f', rest', t', hf', by simp [hts', ← hlength], hpos'⟩

end Stops

/-- A parse that does not end for want of frames stops at the one token up to which the tokens can become
a program, or at the first end if they are none. Only the kinds of the tokens tell which one it is. -/
theorem viable_of_parse_error {ts : List (Token Float)} {message : String} {position : Int}
    (h : parse ts = .error message position) (hm : message ≠ tooDeepMessage) :
    ∃ k t, (closeTokens ts)[k]? = some t ∧ t.position = position ∧
      (∀ u ∈ (closeTokens ts).take k, u.kind ≠ .eof) ∧
      (∀ j, Viable ((closeTokens ts).take j) ↔ j ≤ k) ∧
      (t.kind = .eof → ∀ ns, ¬ Program ((closeTokens ts).take k) ns) ∧
      ∀ ts', ts'.map Token.kind = ts.map Token.kind →
        ∃ message' t', (closeTokens ts')[k]? = some t' ∧ parse ts' = .error message' t'.position ∧
          message' ≠ tooDeepMessage := by
  obtain ⟨f, rest, hf, rfl⟩ := exists_of_parse_error h hm
  obtain ⟨front, t, back, hts, hs, hpos, hv⟩ := exists_of_fault hf (hasEnd_closeTokens ts)
  rw [hts] at hf
  have hn := not_viable_of_fault hf hs
  refine ⟨front.length, t, by simp [hts], hpos.symm, ?_, ?_, ?_, fun ts' hk => ?_⟩
  · rw [hts, List.take_left]
    exact fun u hu => hv.kind_ne_eof hu
  · rw [hts]
    exact viable_take_iff hv hn
  · rw [hts, List.take_left]
    intro he ns hp
    have ha : Agrees (program frameLimit (front ++ t :: back)) (.ok (.program ns) (t :: back)) :=
      agrees_program frameLimit hp he
    rw [hf] at ha
    rcases ha with ha | ⟨left, ha⟩ <;> cases ha
  · have hkinds := map_kind_closeTokens hk
    rw [hts] at hkinds
    obtain ⟨f', rest', t', hf', hget, hpos'⟩ :=
      exists_fault_of_map_kind hf hs (hasEnd_closeTokens ts') hkinds
    exact ⟨f'.message, t', hget, hpos' ▸ parse_of_fault hf', message_ne_tooDeepMessage f'⟩

/-- A number behind a second statement's name, reported though the name is not yet taken. -/
theorem viable_of_number_behind_name :
    ∃ (ts : List (Token Float)) (message : String) (position : Int),
      ts = [⟨.mark .identifier "x", 0⟩, ⟨.mark .equal "=", 1⟩, ⟨.mark .identifier "f", 2⟩,
        ⟨.mark .leftParen "(", 3⟩, ⟨.mark .rightParen ")", 4⟩, ⟨.mark .identifier "y", 5⟩,
        ⟨.number 1, 6⟩] ∧ position = 6 ∧
      parse ts = .error message position ∧ message ≠ tooDeepMessage ∧
      ∃ k t, (closeTokens ts)[k]? = some t ∧ t.position = position ∧
        ∀ j, Viable ((closeTokens ts).take j) ↔ j ≤ k := by
  let ts : List (Token Float) :=
    [⟨.mark .identifier "x", 0⟩, ⟨.mark .equal "=", 1⟩, ⟨.mark .identifier "f", 2⟩,
      ⟨.mark .leftParen "(", 3⟩, ⟨.mark .rightParen ")", 4⟩, ⟨.mark .identifier "y", 5⟩,
      ⟨.number 1, 6⟩]
  let f : ParseFault Float := ⟨.afterIdentifier "y", some ⟨.number 1, 6⟩⟩
  have hf : program frameLimit (closeTokens ts) =
      .error (.fault f) [⟨.mark .identifier "y", 5⟩, ⟨.number 1, 6⟩, ⟨.eof, 7⟩] := rfl
  have hp := parse_of_fault hf
  have hm := message_ne_tooDeepMessage f
  obtain ⟨k, t, hget, hpos, -, hviable, -⟩ := viable_of_parse_error hp hm
  exact ⟨ts, _, _, rfl, rfl, hp, hm, k, t, hget, hpos, hviable⟩

end Posterior
