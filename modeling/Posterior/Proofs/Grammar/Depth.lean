import Mathlib.Order.Lattice.Nat
import Posterior.Proofs.Grammar.Procedures

set_option autoImplicit false

namespace Posterior

open Grammar Posterior.Parser

namespace Nesting

theorem length_settle_le (openings : List Opening) : (settle openings).length ≤ openings.length :=
  (List.dropWhile_sublist _).length_le

theorem length_after_le (openings : List Opening) (operand : Bool) (next : Option Kind) (k : Kind) :
    (after openings operand next k).1.length ≤ openings.length + 1 := by
  have hs := length_settle_le openings
  have ht := length_settle_le (settle openings).tail
  have hl := (settle openings).length_tail
  rcases k with _ | m | _
  · simp only [after]
    omega
  · cases m with
    | identifier =>
      simp only [after]
      split <;> simp only <;> omega
    | minus =>
      simp only [after]
      split <;> simp
    | leftParen => simp [after]
    | rightParen =>
      simp only [after]
      omega
    | plus | star | slash | equal | comma => simp [after]
  · simp [after]

theorem reach_le (openings : List Opening) (operand : Bool) (ks : List Kind) :
    reach openings operand ks ≤ openings.length + ks.length := by
  induction ks generalizing openings operand with
  | nil => simp [reach]
  | cons k ks ih =>
    have ha := length_after_le openings operand ks.head? k
    have hr := ih (after openings operand ks.head? k).1 (after openings operand ks.head? k).2
    simp only [reach, List.length_cons]
    split <;> omega

/-- Without what follows a name its operand is complete, so that no more is open behind it. -/
theorem length_after_le_max (openings : List Opening) (operand : Bool) (next : Option Kind) (k : Kind) :
    (after openings operand next k).1.length ≤ max openings.length (after openings operand none k).1.length := by
  rcases k with _ | m | _
  · exact Nat.le_max_right _ _
  · cases m with
    | identifier =>
      simp only [after]
      split
      · exact Nat.le_max_left _ _
      · exact Nat.le_max_right _ _
    | _ => exact Nat.le_max_right _ _
  · exact Nat.le_max_right _ _

theorem reach_append_le (openings : List Opening) (operand : Bool) (ks ls : List Kind) :
    reach openings operand (ks ++ ls) ≤ reach openings operand ks + ls.length := by
  induction ks generalizing openings operand with
  | nil => exact reach_le openings operand ls
  | cons k ks ih =>
    simp only [List.cons_append, reach]
    split
    · exact Nat.le_add_right _ _
    · cases ks with
      | nil =>
        have ha := length_after_le_max openings operand ls.head? k
        have hr := reach_le (after openings operand ls.head? k).1 (after openings operand ls.head? k).2 ls
        simp only [List.nil_append, List.head?_nil, reach]
        omega
      | cons l ks =>
        have hr := ih (after openings operand (some l) k).1 (after openings operand (some l) k).2
        simp only [List.cons_append, List.head?_cons] at hr ⊢
        omega

end Nesting

section Reading

variable {α : Type} [Arithmetic α] {frames : Nat} {ts rest : List (Token α)}

theorem viable_of_tooDeep (h : program frames ts = .error .tooDeep rest) :
    ∃ front, ts = front ++ rest ∧ Viable front := by
  obtain ⟨front, hts⟩ : left (program frames ts) <:+ ts := Procedure.program.drops_read frames ts
  obtain ⟨more, n, ns, hp, -⟩ := Procedure.program.begins_of_read frames hts.symm
  rw [h] at hts
  exact ⟨front, hts.symm, more, ns, hp⟩

/-- Whether the frames run out at a place depends on nothing behind the next two tokens there. -/
theorem tooDeep_of_take {front : List (Token α)} (h : program frames (front ++ rest) = .error .tooDeep rest) :
    ∃ last, program frames (front ++ rest.take 2) = .error .tooDeep last := by
  by_cases hlength : rest.length < 2
  · exact ⟨rest, by rwa [List.take_of_length_le (by omega)]⟩
  have hf := (foresees_program frames).foreseen (.refl (front ++ rest.take 2)) (rest.drop 2) []
  rw [List.append_assoc, List.take_append_drop, List.append_nil, h] at hf
  generalize program frames (front ++ rest.take 2) = r at hf
  generalize hr : (EStateM.Result.error .tooDeep rest : EStateM.Result (ParseStop α) _ (Node α)) = r₀ at hf
  cases hf with
  | past hl =>
    subst hr
    simp only [place, List.length_tail, List.length_drop] at hl
    omega
  | ok | fault => cases hr
  | deep => exact ⟨_, rfl⟩

end Reading

section Depth

variable {α : Type} [Arithmetic α]

/-- The nesting of tokens up to the first end and the first token with which they cannot become a program: the
greatest number of brackets not yet closed and signs whose operand is not yet complete in any part of them that
may begin one. -/
noncomputable def depth (ts : List (Token α)) : Nat :=
  sSup {n | ∃ front, front <+: ts ∧ Viable front ∧ nesting (front.map Token.kind) = n}

theorem nesting_le_length (ks : List Kind) : nesting ks ≤ ks.length := by
  have hr := Nesting.reach_le [] false ks
  rwa [List.length_nil, Nat.zero_add] at hr

theorem nesting_le_depth {front ts : List (Token α)} (h : front <+: ts) (hv : Viable front) :
    nesting (front.map Token.kind) ≤ depth ts := by
  refine le_csSup ⟨ts.length, ?_⟩ ⟨front, h, hv, rfl⟩
  rintro n ⟨us, hus, -, rfl⟩
  have hn := nesting_le_length (us.map Token.kind)
  rw [List.length_map] at hn
  exact hn.trans hus.length_le

theorem depth_le {ts : List (Token α)} {bound : Nat}
    (h : ∀ front, front <+: ts → Viable front → nesting (front.map Token.kind) ≤ bound) : depth ts ≤ bound := by
  refine csSup_le' ?_
  rintro n ⟨front, hfront, hv, rfl⟩
  exact h front hfront hv

theorem depth_le_length {front back : List (Token α)} {t : Token α} (h : ¬ Viable (front ++ [t])) :
    depth (front ++ t :: back) ≤ front.length := by
  refine depth_le fun us hus hv => ?_
  have hread : us.length ≤ front.length := by
    refine Nat.le_of_not_lt fun hlt => h ?_
    have hlength : (front ++ [t]).length ≤ us.length := by
      rwa [List.length_append, List.length_singleton]
    rw [List.append_cons] at hus
    obtain ⟨more, rfl⟩ := List.prefix_of_prefix_length_le (List.prefix_append _ back) hus hlength
    exact hv.left
  have hn := nesting_le_length (us.map Token.kind)
  rw [List.length_map] at hn
  exact hn.trans hread

theorem prefix_of_closeTokens {front ts : List (Token α)} (h : front <+: closeTokens ts) (hv : Viable front) :
    front <+: ts := by
  rcases closeTokens_eq ts with hc | ⟨position, hc⟩
  · rwa [hc] at h
  · rw [hc, List.prefix_concat_iff] at h
    rcases h with rfl | h
    · exact absurd rfl (hv.kind_ne_eof (t := ⟨.eof, position⟩) (by simp))
    · exact h

/-- Frames run out only where the tokens that can be read nest deep. -/
theorem depth_of_tooDeep {frames : Nat} {ts rest : List (Token α)}
    (h : program frames (closeTokens ts) = .error .tooDeep rest) : frames ≤ 4 * depth ts + 13 := by
  obtain ⟨front, hts, hv⟩ := viable_of_tooDeep h
  have hdepth := nesting_le_depth (prefix_of_closeTokens ⟨rest, hts.symm⟩ hv) hv
  rw [hts] at h
  obtain ⟨last, hlast⟩ := tooDeep_of_take h
  have hframes := nesting_of_tooDeep hlast
  have hmore := Nesting.reach_append_le [] false (front.map Token.kind) ((rest.take 2).map Token.kind)
  have hlength : ((rest.take 2).map Token.kind).length ≤ 2 := by
    rw [List.length_map]
    exact List.length_take_le 2 rest
  rw [List.map_append, nesting] at hframes
  rw [nesting] at hdepth
  omega

end Depth

/-- Depth is governed by nesting, not by length. Four frames for each level that is open at once in what can be read
of the tokens, and thirteen besides, are enough, whatever the tokens are and however many: the parser does not run
out of more frames than these, and does the same with all of them. So up to a hundred levels it never reports
that they nest too deep, and less than half of the limit is spent on them. -/
theorem frames_of_depth (ts : List (Token Float)) :
    (∀ frames, 4 * depth ts + 13 < frames →
      (∀ rest, program frames (closeTokens ts) ≠ .error .tooDeep rest) ∧
        ∀ more, frames ≤ more → program more (closeTokens ts) = program frames (closeTokens ts)) ∧
      (depth ts ≤ 100 → 2 * (4 * depth ts + 13) < frameLimit ∧
        ∀ position, parse ts ≠ .error tooDeepMessage position) := by
  have hdeep : ∀ frames, 4 * depth ts + 13 < frames →
      ∀ rest, program frames (closeTokens ts) ≠ .error .tooDeep rest := by
    intro frames hf rest h
    have hframes := depth_of_tooDeep h
    omega
  refine ⟨fun frames hf => ⟨hdeep frames hf, fun more => ?_⟩, fun hd => ⟨?_, fun position h => ?_⟩⟩
  · exact Procedure.program.read_eq_of_le (hdeep frames hf)
  · rw [frameLimit]
    omega
  · have hlimit := hdeep frameLimit (by rw [frameLimit]; omega)
    unfold parse at h
    split at h
    · next hr =>
      obtain ⟨us, ns, -, -, -, rfl⟩ := program_sound hr
      cases h
    · next f _ _ => exact message_ne_tooDeepMessage f (Node.error.inj h).1
    · next rest hr => exact hlimit rest hr

/-- Three hundred brackets behind an equals sign that is out of place. -/
theorem depth_of_misplaced_equal :
    ∃ ts : List (Token Float),
      ts = [⟨.mark .identifier "x", 0⟩, ⟨.mark .equal "=", 1⟩, ⟨.mark .minus "-", 2⟩, ⟨.mark .leftParen "(", 3⟩,
        ⟨.number 1, 4⟩, ⟨.mark .equal "=", 5⟩] ++ List.replicate 300 ⟨.mark .leftParen "(", 6⟩ ∧
      nesting (ts.map Token.kind) = 302 ∧ depth ts ≤ 100 ∧
      ∀ position, parse ts ≠ .error tooDeepMessage position := by
  let front : List (Token Float) :=
    [⟨.mark .identifier "x", 0⟩, ⟨.mark .equal "=", 1⟩, ⟨.mark .minus "-", 2⟩, ⟨.mark .leftParen "(", 3⟩,
      ⟨.number 1, 4⟩]
  let equal : Token Float := ⟨.mark .equal "=", 5⟩
  let f : ParseFault Float := ⟨.expected (.mark .rightParen) "to close '('", some equal⟩
  have hf : program frameLimit (front ++ [equal]) = .error (.fault f) [equal] := rfl
  have hdepth : depth (front ++ equal :: List.replicate 300 ⟨.mark .leftParen "(", 6⟩) ≤ 5 :=
    depth_le_length (not_viable_of_fault hf rfl)
  have hd := Nat.le_trans hdepth (show 5 ≤ 100 by decide)
  exact ⟨_, rfl, by decide +kernel, hd, ((frames_of_depth _).2 hd).2⟩

end Posterior
