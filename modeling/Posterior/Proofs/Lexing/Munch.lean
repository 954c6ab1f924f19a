import Posterior.Proofs.Lexing

/-!
One gap and one token at a time: the lexer takes exactly the blanks and comments before a lexeme, and
exactly the lexeme that stops where it stands.
-/

set_option autoImplicit false

namespace Posterior

open Lexer Text

variable {α : Type} [Arithmetic α]

def StartsLexeme (cs : List Char) : Prop := ∀ c ∈ cs.head?, isBlank c = false ∧ c ≠ '#'

section Gaps

theorem toNat_of_isBlank {c : Char} (h : isBlank c = true) : c.toNat ≤ 32 ∨ 133 ≤ c.toNat := by
  obtain ⟨r, hr, hl, hu⟩ := (blanks.contains_iff c).mp h
  simp only [blanks, List.mem_cons, List.not_mem_nil, or_false] at hr
  rcases hr with rfl | rfl | rfl | rfl | rfl | rfl | rfl | rfl | rfl | rfl <;> simp at hl hu <;> omega

theorem isBlank_hash : isBlank '#' = false := by decide

theorem gapLength_comment {body rest : List Char} (hb : '\n' ∉ body)
    (hr : ∀ c ∈ rest.head?, c = '\n') :
    gapLength true (body ++ rest) = body.length + gapLength false rest := by
  induction body with
  | nil =>
    cases rest with
    | nil => rfl
    | cons c rest =>
      obtain rfl := hr c rfl
      simp [gapLength, isBlank_newline]
  | cons c body ih =>
    have hc : c ≠ '\n' := fun h => hb (h ▸ List.mem_cons_self)
    have hbody := ih fun h => hb (List.mem_cons_of_mem c h)
    simp only [List.cons_append, gapLength, if_true, bne_iff_ne.mpr hc, hbody, List.length_cons]
    omega

theorem gapLength_of_ignored {gap rest : List Char} (hg : IgnoredBefore rest gap)
    (hr : StartsLexeme rest) : gapLength false (gap ++ rest) = gap.length := by
  induction hg with
  | nil =>
    cases rest with
    | nil => rfl
    | cons c rest =>
      obtain ⟨hb, hc⟩ := hr c rfl
      simp [gapLength, hb, hc]
  | blank hc _ ih =>
    simp only [List.cons_append, gapLength, hc, ih, if_true, Bool.false_eq_true, if_false,
      List.length_cons]
    omega
  | @comment body cs hb hs _ ih =>
    have hbody := gapLength_comment hb hs
    simp only [List.cons_append, List.append_assoc, gapLength, isBlank_hash, Bool.false_eq_true,
      if_false, beq_self_eq_true, if_true, hbody, ih, List.length_cons, List.length_append]
    omega

theorem exists_ignored (cs : List Char) :
    (∃ gap rest, cs = gap ++ rest ∧ gap.length = gapLength false cs ∧ IgnoredBefore rest gap ∧
      StartsLexeme rest) ∧
    ∃ body gap rest, cs = body ++ (gap ++ rest) ∧ '\n' ∉ body ∧
      (∀ c ∈ (gap ++ rest).head?, c = '\n') ∧ body.length + gap.length = gapLength true cs ∧
      IgnoredBefore rest gap ∧ StartsLexeme rest := by
  induction cs with
  | nil =>
    exact ⟨⟨[], [], rfl, rfl, .nil, nofun⟩, [], [], [], rfl, List.not_mem_nil, nofun, rfl, .nil, nofun⟩
  | cons c cs ih =>
    obtain ⟨⟨gap, rest, hcs, hl, hg, hr⟩, body, gap', rest', hcs', hb, hs, hl', hg', hr'⟩ := ih
    constructor
    · by_cases hc : isBlank c = true
      · refine ⟨c :: gap, rest, by simp [hcs], ?_, .blank hc hg, hr⟩
        simp [gapLength, hc, hl]
        omega
      · by_cases hh : c = '#'
        · subst hh
          refine ⟨'#' :: (body ++ gap'), rest', by simp [hcs'], ?_, .comment hb hs hg', hr'⟩
          simp [gapLength, hc, ← hl']
          omega
        · refine ⟨[], c :: cs, rfl, by simp [gapLength, hc, hh], .nil, fun d hd => ?_⟩
          cases hd
          exact ⟨by simpa using hc, hh⟩
    · by_cases hc : c = '\n'
      · subst hc
        refine ⟨[], '\n' :: gap, rest, by simp [hcs], List.not_mem_nil, by simp, ?_,
          .blank isBlank_newline hg, hr⟩
        simp [gapLength, hl]
        omega
      · refine ⟨c :: body, gap', rest', by simp [hcs'], by simp [Ne.symm hc, hb], hs, ?_, hg', hr'⟩
        simp only [gapLength, if_true, bne_iff_ne.mpr hc, ← hl', List.length_cons]
        omega

end Gaps

section Classes

theorem isAlpha_iff {c : Char} :
    c.isAlpha = true ↔ (65 ≤ c.toNat ∧ c.toNat ≤ 90) ∨ (97 ≤ c.toNat ∧ c.toNat ≤ 122) := by
  have hu : c.isUpper = decide ('A'.val ≤ c.val ∧ c.val ≤ 'Z'.val) := rfl
  have hl : c.isLower = (decide ('a'.val ≤ c.val) && decide (c.val ≤ 'z'.val)) := rfl
  have ha : c.isAlpha = (c.isUpper || c.isLower) := rfl
  rw [ha, hu, hl, Bool.or_eq_true, Bool.and_eq_true]
  simp only [decide_eq_true_eq, UInt32.le_iff_toNat_le]
  exact Iff.rfl

theorem toNat_of_isNameChar {c : Char} (h : isNameChar c = true) : 48 ≤ c.toNat ∧ c.toNat ≤ 122 := by
  simp only [isNameChar, Char.isAlphanum, Bool.or_eq_true, beq_iff_eq] at h
  rcases h with (h | h) | rfl
  · have ha := isAlpha_iff.mp h
    omega
  · have hd : 48 ≤ c.toNat ∧ c.toNat ≤ 57 := Char.isDigit_iff_toNat.mp h
    omega
  · decide

theorem isNameChar_of_isBlank {c : Char} (h : isBlank c = true) : isNameChar c = false := by
  by_cases hn : isNameChar c = true
  · have hb := toNat_of_isBlank h
    have hl := toNat_of_isNameChar hn
    omega
  · simpa using hn

theorem isNameChar_of_isDigit {c : Char} (h : c.isDigit = true) : isNameChar c = true := by
  simp [isNameChar, Char.isAlphanum, h]

theorem isNameChar_of_isAlpha {c : Char} (h : c.isAlpha = true) : isNameChar c = true := by
  simp [isNameChar, Char.isAlphanum, h]

theorem isAlpha_of_isDigit {c : Char} (h : c.isDigit = true) : c.isAlpha = false := by
  have hd : 48 ≤ c.toNat ∧ c.toNat ≤ 57 := Char.isDigit_iff_toNat.mp h
  by_cases ha : c.isAlpha = true
  · have hn := isAlpha_iff.mp ha
    omega
  · simpa using ha

theorem isDigit_of_not_isNameChar {c : Char} (h : isNameChar c = false) : c.isDigit = false := by
  cases hd : c.isDigit with
  | false => rfl
  | true =>
    rw [isNameChar_of_isDigit hd] at h
    cases h

theorem of_punctuation? {c : Char} {m : Mark} (h : punctuation? c = some m) :
    isNameChar c = false ∧ isBlank c = false ∧ c ≠ '.' ∧ c ≠ '#' ∧ m ≠ .identifier := by
  unfold punctuation? at h
  split at h <;> cases h <;> decide

end Classes

section Lexemes

theorem takeWhile_append_stop {p : Char → Bool} {cs rest : List Char} (hc : ∀ c ∈ cs, p c = true)
    (hr : ∀ c ∈ rest.head?, p c = false) : (cs ++ rest).takeWhile p = cs := by
  rw [List.takeWhile_append_of_pos hc]
  cases rest with
  | nil => simp
  | cons c rest => simp [hr c rfl]

theorem dropWhile_append_stop {p : Char → Bool} {cs rest : List Char} (hc : ∀ c ∈ cs, p c = true)
    (hr : ∀ c ∈ rest.head?, p c = false) : (cs ++ rest).dropWhile p = rest := by
  rw [List.dropWhile_append_of_pos hc]
  cases rest with
  | nil => rfl
  | cons c rest => exact List.dropWhile_cons_of_neg (Bool.eq_false_iff.mp (hr c rfl))

theorem exists_takeWhile (p : Char → Bool) (cs : List Char) :
    ∃ run rest, cs = run ++ rest ∧ cs.takeWhile p = run ∧ (∀ c ∈ run, p c = true) ∧
      ∀ c ∈ rest.head?, p c = false := by
  refine ⟨cs.takeWhile p, cs.dropWhile p, List.takeWhile_append_dropWhile.symm, rfl, ?_, ?_⟩
  · exact List.all_eq_true.mp List.all_takeWhile
  · intro c hc
    simpa [Option.mem_def.mp hc] using List.head?_dropWhile_not p cs

namespace Numeral

theorem isDigit_whole (n : Numeral) : ∀ c ∈ n.whole, c.isDigit = true :=
  fun c hc => n.isDigit c (List.mem_append_left _ hc)

theorem isDigit_fraction (n : Numeral) : ∀ c ∈ n.fraction, c.isDigit = true :=
  fun c hc => n.isDigit c (List.mem_append_right _ hc)

theorem point_mem_lexeme (n : Numeral) : '.' ∈ n.lexeme ↔ n.fraction ≠ [] := by
  unfold lexeme
  split
  · next h =>
    refine ⟨fun hp => ?_, fun hf => absurd h hf⟩
    exact absurd (n.isDigit_whole '.' hp) (by decide)
  · next h => simp [h]

theorem lexeme_cases (n : Numeral) :
    (∃ c cs, n.lexeme = c :: cs ∧ c.isDigit = true) ∨
      ∃ d ds, n.lexeme = '.' :: d :: ds ∧ d.isDigit = true := by
  unfold lexeme
  cases hw : n.whole with
  | cons c cs =>
    have hc := n.isDigit c (by simp [hw])
    split
    · exact .inl ⟨c, cs, rfl, hc⟩
    · exact .inl ⟨c, _, rfl, hc⟩
  | nil =>
    cases hf : n.fraction with
    | nil => exact absurd (by simp [hw, hf]) n.ne_nil
    | cons d ds => exact .inr ⟨d, ds, by simp, n.isDigit d (by simp [hf])⟩

theorem takeWhile_lexeme (n : Numeral) : n.lexeme.takeWhile Char.isDigit = n.whole := by
  unfold lexeme
  split
  · have ht := @takeWhile_append_stop Char.isDigit n.whole [] n.isDigit_whole nofun
    rwa [List.append_nil] at ht
  · exact takeWhile_append_stop n.isDigit_whole (by simp)

theorem drop_lexeme (n : Numeral) : n.lexeme.drop (n.whole.length + 1) = n.fraction := by
  unfold lexeme
  split
  · next h => simp [h]
  · simp

theorem lexeme_injective {n n' : Numeral} (h : n.lexeme = n'.lexeme) : n = n' := by
  have hw : n.whole = n'.whole := by rw [← n.takeWhile_lexeme, ← n'.takeWhile_lexeme, h]
  have hf : n.fraction = n'.fraction := by rw [← n.drop_lexeme, ← n'.drop_lexeme, h, hw]
  cases n
  cases n'
  simp only at hw hf
  subst hw hf
  rfl

end Numeral

theorem munchNumber_lexeme (n : Numeral) {rest : List Char} (hr : (Symbol.number n).Stops rest) :
    munchNumber (n.lexeme ++ rest) = .ok ((.number n.value : Symbol α), n.lexeme.length) := by
  have hd : ∀ c ∈ rest.head?, c.isDigit = false := fun c hc => (hr c hc).1
  by_cases hn : n.fraction = []
  · have hl : n.lexeme = n.whole := if_pos hn
    have ht := takeWhile_append_stop n.isDigit_whole hd
    simp only [munchNumber, hl, ht, List.drop_left]
    split
    · next more =>
      -- A point may not stand right behind the digits.
      have hp := (hr '.' rfl).2
      rw [n.point_mem_lexeme] at hp
      exact absurd rfl (hp (not_not_intro hn))
    · simp [literalValue, Numeral.value, hn]
  · have hl : n.lexeme = n.whole ++ '.' :: n.fraction := if_neg hn
    have ht : (n.whole ++ '.' :: (n.fraction ++ rest)).takeWhile Char.isDigit = n.whole :=
      takeWhile_append_stop n.isDigit_whole (by simp)
    have ht' := takeWhile_append_stop n.isDigit_fraction hd
    simp only [munchNumber, hl, List.append_assoc, List.cons_append, ht, List.drop_left, ht']
    simp [literalValue, Numeral.value, hn]
    omega

theorem munch_name {name : String} (hn : IsName name) {rest : List Char}
    (hr : ∀ c ∈ rest.head?, isNameChar c = false) :
    munch (name.toList ++ rest) = .ok ((.mark .identifier name : Symbol α), name.toList.length) := by
  obtain ⟨c, cs, hname, hc, hcs⟩ := hn
  have hall : ∀ d ∈ name.toList, Lexer.isNameChar d = true := by
    rw [hname]
    exact List.forall_mem_cons.mpr ⟨isNameChar_of_isAlpha hc, hcs⟩
  have ht := takeWhile_append_stop hall hr
  rw [hname, List.cons_append] at ht ⊢
  simp only [munch, hc, if_true, ht]
  rw [← hname, String.ofList_toList]

theorem munch_number (n : Numeral) {rest : List Char} (hr : (Symbol.number n).Stops rest) :
    munch (n.lexeme ++ rest) = .ok ((.number n.value : Symbol α), n.lexeme.length) := by
  have hm := @munchNumber_lexeme α _ n rest hr
  rcases n.lexeme_cases with ⟨c, cs, hl, hc⟩ | ⟨d, ds, hl, hd⟩
  · rw [hl, List.cons_append] at hm ⊢
    simp only [munch, isAlpha_of_isDigit hc, Bool.false_eq_true, if_false, hc, Bool.true_or, if_true]
    exact hm
  · have hp : ('.' : Char).isAlpha = false ∧ ('.' : Char).isDigit = false := by decide
    rw [hl, List.cons_append] at hm ⊢
    simp only [munch, hp, Bool.false_eq_true, if_false, List.cons_append, startsWithDigit, hd,
      beq_self_eq_true, Bool.and_self, Bool.or_true, if_true]
    exact hm

theorem munch_punctuation {c : Char} {m : Mark} (h : punctuation? c = some m) (rest : List Char) :
    munch (c :: rest) = .ok ((.mark m (String.singleton c) : Symbol α), 1) := by
  obtain ⟨hn, -, hp, -⟩ := of_punctuation? h
  simp only [isNameChar, Char.isAlphanum, Bool.or_eq_false_iff] at hn
  simp [munch, hn, hp, h]

theorem munch_lexeme {s : Symbol Numeral} (hs : s.Legible) {rest : List Char} (hr : s.Stops rest) :
    munch (s.lexeme ++ rest) = .ok (s.map (Numeral.value : Numeral → α), s.lexeme.length) := by
  cases hs with
  | number n => exact munch_number n hr
  | name h => exact munch_name h hr
  | punctuation h =>
    simp only [Symbol.lexeme, String.toList_singleton]
    exact munch_punctuation h rest

theorem startsLexeme_lexeme {s : Symbol Numeral} (hs : s.Legible) (rest : List Char) :
    s.lexeme ≠ [] ∧ StartsLexeme (s.lexeme ++ rest) := by
  have hstart {c : Char} {cs : List Char} (hl : s.lexeme = c :: cs) (hc : isBlank c = false)
      (hh : c ≠ '#') : s.lexeme ≠ [] ∧ StartsLexeme (s.lexeme ++ rest) := by
    refine ⟨by simp [hl], fun d hd => ?_⟩
    rw [hl] at hd
    cases hd
    exact ⟨hc, hh⟩
  have hname {c : Char} {cs : List Char} (hl : s.lexeme = c :: cs) (hc : isNameChar c = true) :
      s.lexeme ≠ [] ∧ StartsLexeme (s.lexeme ++ rest) := by
    refine hstart hl (Bool.eq_false_iff.mpr fun hb => ?_) ?_
    · rw [isNameChar_of_isBlank hb] at hc
      cases hc
    · rintro rfl
      cases hc
  cases hs with
  | number n =>
    rcases n.lexeme_cases with ⟨c, cs, hl, hc⟩ | ⟨d, ds, hl, hd⟩
    · exact hname hl (isNameChar_of_isDigit hc)
    · exact hstart hl (by decide) (by decide)
  | name h =>
    obtain ⟨c, cs, hl, hc, -⟩ := h
    exact hname hl (isNameChar_of_isAlpha hc)
  | punctuation h =>
    obtain ⟨-, hb, -, hh, -⟩ := of_punctuation? h
    exact hstart (String.toList_singleton _) hb hh

theorem kind_map_value {s : Symbol Numeral} (hs : s.Legible) (position : Int) :
    (⟨s.map Numeral.value, position⟩ : Token α).kind ≠ .eof := by
  cases hs <;> simp [Symbol.map]

theorem exists_numeral {cs : List Char} {symbol : Symbol α} {k : Nat}
    (h : munchNumber cs = .ok (symbol, k))
    (hc : ∃ c cs', cs = c :: cs' ∧ (c.isDigit = true ∨ c = '.')) :
    ∃ (n : Numeral) (rest : List Char), cs = n.lexeme ++ rest ∧ symbol = .number n.value ∧
      k = n.lexeme.length ∧ (Symbol.number n).Stops rest := by
  obtain ⟨whole, behind, rfl, htake, hwhole, hbehind⟩ := exists_takeWhile Char.isDigit cs
  simp only [munchNumber, htake, List.drop_left] at h
  split at h
  · next more =>
    obtain ⟨fraction, rest, rfl, htake', hfraction, hrest⟩ := exists_takeWhile Char.isDigit more
    rw [htake'] at h
    split at h
    · cases h
    · next hf =>
      have hne : fraction ≠ [] := by simpa using hf
      let n : Numeral :=
        ⟨whole, fraction, List.forall_mem_append.mpr ⟨hwhole, hfraction⟩, by simp [hne]⟩
      have hl : n.lexeme = whole ++ '.' :: fraction := if_neg hne
      cases h
      refine ⟨n, rest, by simp [hl], rfl, by simp [hl]; omega, fun c hc => ⟨hrest c hc, fun hp => ?_⟩⟩
      exact absurd (by simp [hl]) hp
  · next hpoint =>
    have hne : whole ≠ [] := by
      rintro rfl
      obtain ⟨c, cs', hcs, hd | rfl⟩ := hc
      · rw [List.nil_append] at hcs
        subst hcs
        rw [hbehind c rfl] at hd
        cases hd
      · exact hpoint cs' hcs
    let n : Numeral := ⟨whole, [], by simpa using hwhole, by simp [hne]⟩
    have hl : n.lexeme = whole := if_pos rfl
    cases h
    refine ⟨n, behind, by rw [hl], rfl, by rw [hl], fun c hc => ⟨hbehind c hc, ?_⟩⟩
    rintro - rfl
    cases behind with
    | nil => cases hc
    | cons d more =>
      cases hc
      exact hpoint more rfl

theorem exists_lexeme {cs : List Char} {symbol : Symbol α} {k : Nat} (hn : cs ≠ [])
    (h : munch cs = .ok (symbol, k)) :
    ∃ (s : Symbol Numeral) (rest : List Char), s.Legible ∧ cs = s.lexeme ++ rest ∧
      symbol = s.map Numeral.value ∧ k = s.lexeme.length ∧ s.Stops rest := by
  cases cs with
  | nil => exact absurd rfl hn
  | cons c cs =>
    simp only [munch] at h
    split at h
    · next hc =>
      obtain ⟨run, rest, hcs, htake, hrun, hrest⟩ := exists_takeWhile isNameChar (c :: cs)
      rw [List.takeWhile_cons_of_pos (isNameChar_of_isAlpha hc)] at htake
      subst htake
      have hname : IsName (String.ofList (c :: cs.takeWhile isNameChar)) :=
        ⟨c, _, String.toList_ofList, hc, fun d hd => hrun d (List.mem_cons_of_mem c hd)⟩
      rw [List.takeWhile_cons_of_pos (isNameChar_of_isAlpha hc)] at h
      cases h
      exact ⟨_, rest, .name hname, by simpa [Symbol.lexeme] using hcs, rfl, by simp [Symbol.lexeme],
        hrest⟩
    · split at h
      · next hc =>
        have hstart : c.isDigit = true ∨ c = '.' := by
          simp only [Bool.or_eq_true, Bool.and_eq_true, beq_iff_eq] at hc
          exact hc.imp_right And.left
        obtain ⟨n, rest, hcs, hs, hk, hr⟩ := exists_numeral h ⟨c, cs, rfl, hstart⟩
        exact ⟨.number n, rest, .number n, hcs, hs, hk, hr⟩
      · split at h
        · next m hm =>
          cases h
          refine ⟨.mark m (String.singleton c), cs, .punctuation hm, by simp [Symbol.lexeme], rfl,
            by simp [Symbol.lexeme], ?_⟩
          have hname := (of_punctuation? hm).2.2.2.2
          cases m <;> first | exact absurd rfl hname | trivial
        · cases h

theorem Symbol.Legible.eq_of_lexeme {s s' : Symbol Numeral} (hs : s.Legible) (hs' : s'.Legible)
    (h : s.lexeme = s'.lexeme) : s = s' := by
  have hstops : ∀ t : Symbol Numeral, t.Stops [] := by
    rintro (n | ⟨_ | _, text⟩ | _) <;> simp [Stops]
  have hm := @munch_lexeme Float _ s hs [] (hstops s)
  rw [h, munch_lexeme hs' (hstops s')] at hm
  simp only [Except.ok.injEq, Prod.mk.injEq, and_true] at hm
  cases s with
  | number n =>
    cases s' with
    | number n' => rw [Numeral.lexeme_injective h]
    | mark => cases hm
    | eof => cases hm
  | mark m text =>
    cases s' with
    | mark => cases hm; rfl
    | number => cases hm
    | eof => cases hm
  | eof => cases hs

end Lexemes

end Posterior
