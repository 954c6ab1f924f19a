import Posterior.Proofs.Lexing.Unreadable

set_option autoImplicit false

namespace Posterior

open Lexer Text

/-- The fault names the line and the column of its character, both counted from one, where the text is
split at line feeds. -/
def LexFault.Locates (text : List Char) (f : LexFault) : Prop :=
  ∃ above below front behind, text.splitOn '\n' = above ++ (front ++ f.char :: behind) :: below ∧
    f.line = above.length + 1 ∧ f.column = front.length + 1 ∧
    f.position = (above.flatMap (· ++ ['\n']) ++ front).length

section Location

theorem exists_lines (text : List Char) : ∃ (lines : List (List Char)) (current : List Char),
    text = lines.flatMap (· ++ ['\n']) ++ current ∧ (∀ l ∈ lines, '\n' ∉ l) ∧ '\n' ∉ current := by
  induction text with
  | nil => exact ⟨[], [], rfl, nofun, List.not_mem_nil⟩
  | cons c text ih =>
    obtain ⟨lines, current, rfl, hl, hc⟩ := ih
    by_cases h : c = '\n'
    · subst h
      exact ⟨[] :: lines, current, rfl, List.forall_mem_cons.mpr ⟨List.not_mem_nil, hl⟩, hc⟩
    · cases lines with
      | nil => exact ⟨[], c :: current, rfl, nofun, by simp [Ne.symm h, hc]⟩
      | cons l lines =>
        obtain ⟨hhead, htail⟩ := List.forall_mem_cons.mp hl
        exact ⟨(c :: l) :: lines, current, by simp,
          List.forall_mem_cons.mpr ⟨by simp [Ne.symm h, hhead], htail⟩, hc⟩

variable {lines : List (List Char)}

theorem splitOn_lines (hl : ∀ l ∈ lines, '\n' ∉ l) (text : List Char) :
    (lines.flatMap (· ++ ['\n']) ++ text).splitOn '\n' = lines ++ text.splitOn '\n' := by
  induction lines with
  | nil => rfl
  | cons l lines ih =>
    obtain ⟨hhead, htail⟩ := List.forall_mem_cons.mp hl
    simp only [List.flatMap_cons, List.append_assoc, List.cons_append, List.nil_append,
      List.splitOn_append_cons_self, List.splitOn_eq_singleton hhead, ih htail]

theorem count_lines (hl : ∀ l ∈ lines, '\n' ∉ l) :
    (lines.flatMap (· ++ ['\n'])).count '\n' = lines.length := by
  induction lines with
  | nil => rfl
  | cons l lines ih =>
    obtain ⟨hhead, htail⟩ := List.forall_mem_cons.mp hl
    simp [List.count_eq_zero.mpr hhead, ih htail]

theorem takeWhile_reverse_lines (lines : List (List Char)) {current : List Char}
    (hc : '\n' ∉ current) :
    (lines.flatMap (· ++ ['\n']) ++ current).reverse.takeWhile (· != '\n') = current.reverse := by
  rw [List.reverse_append]
  refine takeWhile_append_stop (fun c h => ?_) (fun c h => ?_)
  · refine bne_iff_ne.mpr ?_
    rintro rfl
    exact hc (List.mem_reverse.mp h)
  · rcases List.eq_nil_or_concat lines with rfl | ⟨lines, l, rfl⟩
    · cases h
    · simp only [List.concat_eq_append, List.flatMap_append, List.flatMap_cons, List.flatMap_nil,
        List.append_nil, List.reverse_append, List.reverse_singleton, List.cons_append,
        List.head?_cons, Option.mem_some] at h
      subst h
      rfl

theorem splitOn_line {front : List Char} (hf : '\n' ∉ front) (text : List Char) :
    ∃ behind below, (front ++ text).splitOn '\n' = (front ++ behind) :: below := by
  obtain ⟨run, rest, rfl, -, hrun, hrest⟩ := exists_takeWhile (· != '\n') text
  have hmem : '\n' ∉ front ++ run := by
    simp only [List.mem_append, hf, false_or]
    exact fun h => by simpa using hrun _ h
  cases rest with
  | nil => exact ⟨run, [], by rw [List.append_nil, List.splitOn_eq_singleton hmem]⟩
  | cons c rest =>
    obtain rfl : c = '\n' := by simpa using hrest c rfl
    refine ⟨run, rest.splitOn '\n', ?_⟩
    rw [← List.append_assoc, List.splitOn_append_cons_self, List.splitOn_eq_singleton hmem]
    rfl

theorem locates_at (before : List Char) {c : Char} (hc : c ≠ '\n') (after : List Char) :
    (LexFault.at (before ++ c :: after) before.length).Locates (before ++ c :: after) := by
  obtain ⟨lines, current, rfl, hl, hcur⟩ := exists_lines before
  obtain ⟨behind, below, hsplit⟩ := @splitOn_line (current ++ [c]) (by simp [hcur, Ne.symm hc]) after
  have hwhile := takeWhile_reverse_lines lines hcur
  refine ⟨lines, below, current, behind, ?_, ?_, ?_, ?_⟩
  · rw [List.append_assoc, splitOn_lines hl]
    simpa [LexFault.at] using hsplit
  · rw [LexFault.at, List.take_left, List.count_append, count_lines hl, List.count_eq_zero.mpr hcur,
      Nat.add_zero]
  · rw [LexFault.at, List.take_left, hwhile, List.length_reverse]
  · rfl

end Location

section Errors

variable {α : Type} [Arithmetic α]

theorem Unreadable.lt_length {text : List Char} {p : Nat} (h : Unreadable text p) :
    p < text.length := by
  obtain ⟨before, c, after, rfl, rfl, -⟩ := h
  simp

/-- Before a character that cannot be read a text may be cut off. -/
theorem readable_of_cut {before after : List Char} {c : Char}
    (hc : Unreadable (before ++ c :: after) before.length) {p : Nat} (hp : Unreadable before p) :
    Unreadable (before ++ c :: after) p := by
  obtain ⟨front, d, behind, rfl, hl, hh, ho, hr⟩ := hp
  refine ⟨front, d, behind ++ c :: after, by simp, hl, hh, ho, fun hread => hr ?_⟩
  cases hread with
  | blank h => exact .blank h
  | letter h => exact .letter h
  | digit h => exact .digit h
  | punctuation h => exact .punctuation h
  | underscore h => exact .underscore h
  | point h =>
    -- Only for a point at the cut is what stands behind it cut off, and that is no digit.
    cases behind with
    | cons e behind => exact .point h
    | nil =>
      obtain ⟨e, he, hdigit⟩ := h
      cases he
      obtain ⟨before', c', after', htext, hlen, -, -, hr'⟩ := hc
      obtain ⟨-, htail⟩ := List.append_inj htext hlen.symm
      cases htail
      exact absurd (.digit hdigit) hr'

theorem tokenize_firstUnreadable (source : String) :
    (∃ ts : List (Token α), tokenize source = .ok ts ∧
      firstUnreadable false false source.toList = none) ∨
    ∃ k, (tokenize source : Except LexFault (List (Token α))) = .error (.at source.toList k) ∧
      firstUnreadable false false source.toList = some k := by
  simp only [tokenize, tokens]
  rcases @scanAll_firstUnreadable α _ (source.toList.length + 1) 0 source.toList false (Nat.lt_succ_self _)
    (apart_false _) with ⟨ts, hts, hnone⟩ | ⟨k, hk, hsome⟩
  · exact .inl ⟨ts, by rw [hts], hnone⟩
  · rw [Nat.zero_add] at hk
    exact .inr ⟨k, by rw [hk], hsome⟩

theorem firstUnreadable_start (text : List Char) :
    (∀ k, firstUnreadable false false text = some k → Unreadable text k) ∧
      ∀ p, Unreadable text p → ∃ k ≤ p, firstUnreadable false false text = some k := by
  have hc : ¬ OpensComment [] := by
    rintro ⟨front, body, h, -⟩
    cases front <;> cases h
  have hn : ¬ EndsInName [] := by
    rintro ⟨d, h, -⟩
    cases h
  have hspec := @firstUnreadable_spec false false [] text (by simp [hc]) (by simp [hn])
  simpa using hspec

theorem tokenize_eq_ok_of_readable {source : String} (h : ∀ p, ¬ Unreadable source.toList p) :
    ∃ ts : List (Token α), tokenize source = .ok ts := by
  rcases @tokenize_firstUnreadable α _ source with ⟨ts, hts, -⟩ | ⟨k, -, hk⟩
  · exact ⟨ts, hts⟩
  · exact absurd ((firstUnreadable_start _).1 k hk) (h k)

/-- A text is read unless some character of it cannot be. The lexer stops at the first of these, names its
line and column, and would have read the text before it. -/
theorem unreadable_of_tokenize (source : String) :
    ((∃ f, (tokenize source : Except LexFault (List (Token α))) = .error f) ↔
      ∃ p, Unreadable source.toList p) ∧
    ∀ f, (tokenize source : Except LexFault (List (Token α))) = .error f →
      Unreadable source.toList f.position ∧ (∀ p < f.position, ¬ Unreadable source.toList p) ∧
      source.toList[f.position]? = some f.char ∧ f.Locates source.toList ∧
      ∃ ts : List (Token α), tokenize (String.ofList (source.toList.take f.position)) = .ok ts := by
  obtain ⟨hfirst, hleast⟩ := firstUnreadable_start source.toList
  rcases @tokenize_firstUnreadable α _ source with ⟨ts, hts, hnone⟩ | ⟨k, hk, hsome⟩
  · refine ⟨⟨fun ⟨f, hf⟩ => ?_, fun ⟨p, hp⟩ => ?_⟩, fun f hf => ?_⟩
    · rw [hts] at hf
      cases hf
    · obtain ⟨k, -, hk⟩ := hleast p hp
      rw [hnone] at hk
      cases hk
    · rw [hts] at hf
      cases hf
  · have hunreadable := hfirst k hsome
    refine ⟨⟨fun _ => ⟨k, hunreadable⟩, fun _ => ⟨_, hk⟩⟩, fun f hf => ?_⟩
    rw [hk] at hf
    cases hf
    have hbefore : ∀ p < k, ¬ Unreadable source.toList p := by
      intro p hp hu
      obtain ⟨j, hj, hsome'⟩ := hleast p hu
      rw [hsome, Option.some.injEq] at hsome'
      omega
    obtain ⟨before, c, after, htext, rfl, -, -, hr⟩ := hfirst k hsome
    have hnewline : c ≠ '\n' := by
      rintro rfl
      exact hr (.blank isBlank_newline)
    refine ⟨hunreadable, hbefore, by simp [LexFault.at, htext], ?_, ?_⟩
    · rw [htext]
      exact locates_at before hnewline after
    · refine tokenize_eq_ok_of_readable fun p hp => ?_
      rw [String.toList_ofList, htext, LexFault.at, List.take_left] at hp
      have hlt := hp.lt_length
      rw [htext] at hunreadable hbefore
      exact hbefore p hlt (readable_of_cut hunreadable hp)

/-- A point that no digit follows, behind a comment with characters of all sorts, and an underscore behind
digits alone that is not reached. -/
theorem unreadable_point :
    ∃ f, (tokenize "x_1 = .5 # !\n 3.x 4_" : Except LexFault (List (Token Float))) = .error f ∧
      f = ⟨'.', 15, 2, 3⟩ ∧ Unreadable "x_1 = .5 # !\n 3.x 4_".toList f.position ∧
      (∀ p < f.position, ¬ Unreadable "x_1 = .5 # !\n 3.x 4_".toList p) ∧
      f.Locates "x_1 = .5 # !\n 3.x 4_".toList := by
  have ht : (tokenize "x_1 = .5 # !\n 3.x 4_" : Except LexFault (List (Token Float))) =
      .error ⟨'.', 15, 2, 3⟩ := by
    simp only [tokenize, String.reduceToList]
    rfl
  obtain ⟨hu, hleast, -, hlocates, -⟩ := (unreadable_of_tokenize "x_1 = .5 # !\n 3.x 4_").2 _ ht
  exact ⟨_, ht, rfl, hu, hleast, hlocates⟩

end Errors

end Posterior
