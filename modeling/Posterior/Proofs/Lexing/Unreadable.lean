import Posterior.Proofs.Lexing.Partition

/-!
Which texts the lexer cannot read. Whether a character can be read is told by what stands right before and
behind it, and the lexer stops at the first one that cannot.
-/

set_option autoImplicit false

namespace Posterior

open Lexer Text

def OpensComment (before : List Char) : Prop :=
  ∃ front body, before = front ++ '#' :: body ∧ '\n' ∉ body

/-- Some letter stands in the run of letters, digits and underscores right before a place. -/
def EndsInName (before : List Char) : Prop :=
  ∃ d ∈ before.reverse.takeWhile isNameChar, d.isAlpha = true

/-- The characters that can be read between `before` and `after`, outside of comments. -/
inductive ReadableBetween (before after : List Char) : Char → Prop where
  | blank {c : Char} (h : isBlank c = true) : ReadableBetween before after c
  | letter {c : Char} (h : c.isAlpha = true) : ReadableBetween before after c
  | digit {c : Char} (h : c.isDigit = true) : ReadableBetween before after c
  | punctuation {c : Char} (h : c ∈ ['+', '-', '*', '/', '=', '(', ')', ',']) :
      ReadableBetween before after c
  | point (h : ∃ d ∈ after.head?, d.isDigit = true) : ReadableBetween before after '.'
  | underscore (h : EndsInName before) : ReadableBetween before after '_'

def Unreadable (text : List Char) (position : Nat) : Prop :=
  ∃ before c after, text = before ++ c :: after ∧ before.length = position ∧
    c ≠ '#' ∧ ¬ OpensComment before ∧ ¬ ReadableBetween before after c

/-- Whether a character outside of comments can be read before `after`; `named` says that a name may go on. -/
def isReadable (named : Bool) (c : Char) (after : List Char) : Bool :=
  isBlank c || c.isAlphanum || (punctuation? c).isSome || (c == '.' && startsWithDigit after) ||
    (c == '_' && named)

/-- The offset of the first character that cannot be read, where `comment` says whether a comment is
open. -/
def firstUnreadable : (comment named : Bool) → List Char → Option Nat
  | _, _, [] => none
  | comment, named, c :: cs =>
    if comment || c == '#' || isReadable named c cs then
      (firstUnreadable ((comment || c == '#') && c != '\n') (isNameChar c && (named || c.isAlpha))
        cs).map (· + 1)
    else some 0

section Local

theorem opensComment_snoc {before : List Char} {c : Char} :
    OpensComment (before ++ [c]) ↔ (OpensComment before ∨ c = '#') ∧ c ≠ '\n' := by
  constructor
  · rintro ⟨front, body, h, hb⟩
    rcases List.eq_nil_or_concat body with rfl | ⟨body, d, rfl⟩
    · obtain ⟨-, hc⟩ := List.append_inj' h rfl
      cases hc
      exact ⟨.inr rfl, by decide⟩
    · rw [List.concat_eq_append, ← List.cons_append, ← List.append_assoc] at h
      obtain ⟨rfl, hc⟩ := List.append_inj' h rfl
      cases hc
      simp only [List.concat_eq_append, List.mem_append, List.mem_singleton, not_or] at hb
      exact ⟨.inl ⟨front, body, rfl, hb.1⟩, Ne.symm hb.2⟩
  · rintro ⟨⟨front, body, rfl, hb⟩ | rfl, hc⟩
    · exact ⟨front, body ++ [c], by simp, by simp [hb, Ne.symm hc]⟩
    · exact ⟨before, [], rfl, List.not_mem_nil⟩

theorem endsInName_snoc {before : List Char} {c : Char} :
    EndsInName (before ++ [c]) ↔ isNameChar c = true ∧ (EndsInName before ∨ c.isAlpha = true) := by
  unfold EndsInName
  rw [List.reverse_append, List.reverse_singleton, List.singleton_append]
  by_cases hc : isNameChar c = true
  · rw [List.takeWhile_cons_of_pos hc]
    simp [hc, or_comm]
  · rw [List.takeWhile_cons_of_neg hc]
    simp [hc]

theorem punctuation?_isSome {c : Char} :
    (punctuation? c).isSome = true ↔ c ∈ ['+', '-', '*', '/', '=', '(', ')', ','] := by
  unfold punctuation?
  split <;> simp_all

theorem startsWithDigit_iff {cs : List Char} :
    startsWithDigit cs = true ↔ ∃ d ∈ cs.head?, d.isDigit = true := by
  cases cs <;> simp [startsWithDigit]

theorem isReadable_iff {named : Bool} {before : List Char} (hn : named = true ↔ EndsInName before)
    (c : Char) (after : List Char) :
    isReadable named c after = true ↔ ReadableBetween before after c := by
  simp only [isReadable, Bool.or_eq_true, Bool.and_eq_true, beq_iff_eq, Char.isAlphanum,
    punctuation?_isSome, startsWithDigit_iff, hn]
  constructor
  · rintro ((((h | h | h) | h) | ⟨rfl, h⟩) | ⟨rfl, h⟩)
    · exact .blank h
    · exact .letter h
    · exact .digit h
    · exact .punctuation h
    · exact .point h
    · exact .underscore h
  · rintro (h | h | h | h | h | h)
    · exact .inl (.inl (.inl (.inl h)))
    · exact .inl (.inl (.inl (.inr (.inl h))))
    · exact .inl (.inl (.inl (.inr (.inr h))))
    · exact .inl (.inl (.inr h))
    · exact .inl (.inr ⟨rfl, h⟩)
    · exact .inr ⟨rfl, h⟩

theorem unreadable_here {comment named : Bool} {before : List Char}
    (hc : comment = true ↔ OpensComment before) (hn : named = true ↔ EndsInName before)
    (c : Char) (after : List Char) :
    Unreadable (before ++ c :: after) before.length ↔
      ¬ (comment || c == '#' || isReadable named c after) = true := by
  simp only [Bool.or_eq_true, beq_iff_eq, hc, isReadable_iff hn, not_or]
  constructor
  · rintro ⟨before', c', after', h, hl, hh, ho, hr⟩
    obtain ⟨rfl, ht⟩ := List.append_inj h hl.symm
    cases ht
    exact ⟨⟨ho, hh⟩, hr⟩
  · rintro ⟨⟨ho, hh⟩, hr⟩
    exact ⟨before, c, after, rfl, rfl, hh, ho, hr⟩

theorem firstUnreadable_spec {comment named : Bool} {before : List Char} (rest : List Char)
    (hc : comment = true ↔ OpensComment before) (hn : named = true ↔ EndsInName before) :
    (∀ k, firstUnreadable comment named rest = some k →
      Unreadable (before ++ rest) (before.length + k)) ∧
    ∀ p, Unreadable (before ++ rest) (before.length + p) →
      ∃ k ≤ p, firstUnreadable comment named rest = some k := by
  induction rest generalizing comment named before with
  | nil =>
    refine ⟨nofun, ?_⟩
    rintro p ⟨before', c, after, h, hl, -⟩
    have hlen := congrArg List.length h
    simp only [List.append_nil, List.length_append, List.length_cons] at hlen
    omega
  | cons c cs ih =>
    have hhere := unreadable_here hc hn c cs
    obtain ⟨ihs, ihp⟩ := @ih ((comment || c == '#') && c != '\n')
      (isNameChar c && (named || c.isAlpha)) (before ++ [c])
      (by rw [opensComment_snoc, ← hc]; simp) (by rw [endsInName_snoc, ← hn]; simp)
    simp only [List.append_assoc, List.singleton_append, List.length_append, List.length_singleton,
      Nat.add_assoc, Nat.add_comm 1] at ihs ihp
    rw [firstUnreadable]
    split
    · next hread =>
      refine ⟨fun k hk => ?_, fun p hp => ?_⟩
      · obtain ⟨j, hj, rfl⟩ := Option.map_eq_some_iff.mp hk
        exact ihs j hj
      · cases p with
        | zero => exact absurd hread (hhere.mp hp)
        | succ p =>
          obtain ⟨k, hk, he⟩ := ihp p hp
          exact ⟨k + 1, by omega, by rw [he]; rfl⟩
    · next hread =>
      refine ⟨fun k hk => ?_, fun p _ => ⟨0, Nat.zero_le p, rfl⟩⟩
      cases hk
      exact hhere.mpr hread

end Local

section Scanning

def Apart (named : Bool) (rest : List Char) : Prop :=
  named = true → ∀ c ∈ rest.head?, isNameChar c = false

theorem apart_false (rest : List Char) : Apart false rest := by
  intro h
  cases h

theorem Apart.eq_false {named : Bool} {c : Char} {cs : List Char} (ha : Apart named (c :: cs))
    (hc : isNameChar c = true) : named = false := by
  cases named with
  | false => rfl
  | true =>
    rw [ha rfl c rfl] at hc
    cases hc

theorem map_add_map_add (o : Option Nat) (i j : Nat) :
    (o.map (· + i)).map (· + j) = o.map (· + (i + j)) := by
  simp [Option.map_map, Function.comp_def, Nat.add_assoc]

theorem firstUnreadable_cons {named : Bool} {c : Char} {cs : List Char}
    (h : isReadable named c cs = true) (hc : c ≠ '#') :
    firstUnreadable false named (c :: cs) =
      (firstUnreadable false (isNameChar c && (named || c.isAlpha)) cs).map (· + 1) := by
  simp [firstUnreadable, h, beq_eq_false_iff_ne.mpr hc]

def ReadsOver (comment named : Bool) (front rest : List Char) : Prop :=
  ∃ named', Apart named' rest ∧ firstUnreadable comment named (front ++ rest) =
    (firstUnreadable false named' rest).map (· + front.length)

theorem ReadsOver.cons {comment comment' named named' : Bool} {c : Char} {front rest : List Char}
    (h : ReadsOver comment' named' front rest)
    (hc : firstUnreadable comment named (c :: (front ++ rest)) =
      (firstUnreadable comment' named' (front ++ rest)).map (· + 1)) :
    ReadsOver comment named (c :: front) rest := by
  obtain ⟨named'', ha, he⟩ := h
  refine ⟨named'', ha, ?_⟩
  rw [List.cons_append, hc, he, map_add_map_add, List.length_cons]

theorem ReadsOver.comment {body gap rest : List Char} (hb : '\n' ∉ body)
    (hs : ∀ c ∈ (gap ++ rest).head?, c = '\n') (h : ReadsOver false false gap rest) (named : Bool) :
    ReadsOver true named (body ++ gap) rest := by
  induction body generalizing named with
  | nil =>
    obtain ⟨named', ha, he⟩ := h
    refine ⟨named', ha, he ▸ ?_⟩
    rw [List.nil_append]
    generalize gap ++ rest = behind at hs
    cases behind with
    | nil => rfl
    | cons c behind =>
      obtain rfl := hs c rfl
      have hn : isNameChar '\n' = false := by decide
      simp [firstUnreadable, isReadable, isBlank_newline, hn]
  | cons c body ih =>
    have hc : c ≠ '\n' := fun h => hb (h ▸ List.mem_cons_self)
    have hbody := ih (fun h => hb (List.mem_cons_of_mem c h)) (isNameChar c && (named || c.isAlpha))
    exact hbody.cons (by simp [firstUnreadable, bne_iff_ne.mpr hc])

theorem readsOver_ignored {gap rest : List Char} (hg : IgnoredBefore rest gap) {named : Bool}
    (ha : Apart named (gap ++ rest)) : ReadsOver false named gap rest := by
  induction hg generalizing named with
  | nil => exact ⟨named, ha, by simp⟩
  | @blank c cs hc _ ih =>
    have hh : c ≠ '#' := by
      rintro rfl
      cases hc
    have hread : isReadable named c (cs ++ rest) = true := by simp [isReadable, hc]
    refine (ih (apart_false _)).cons ?_
    rw [firstUnreadable_cons hread hh, isNameChar_of_isBlank hc, Bool.false_and]
  | comment hb hs _ ih =>
    have hn : isNameChar '#' = false := by decide
    exact (ReadsOver.comment hb hs (ih (apart_false _)) false).cons (by simp [firstUnreadable, hn])

theorem ne_hash_of_isNameChar {c : Char} (h : isNameChar c = true) : c ≠ '#' := by
  rintro rfl
  cases h

/-- Letters, digits and underscores go on with a name that has begun; digits alone start none. -/
theorem firstUnreadable_run {named : Bool} {run : List Char}
    (hr : ∀ c ∈ run, isNameChar c = true ∧ (named = true ∨ c.isDigit = true)) (rest : List Char) :
    firstUnreadable false named (run ++ rest) =
      (firstUnreadable false named rest).map (· + run.length) := by
  induction run with
  | nil => simp
  | cons c run ih =>
    obtain ⟨hc, hd⟩ := hr c List.mem_cons_self
    have hrun := ih fun d hd => hr d (List.mem_cons_of_mem c hd)
    have hread : isReadable named c (run ++ rest) = true ∧ (named || c.isAlpha) = named := by
      rcases hd with rfl | hd
      · simp only [isNameChar, Bool.or_eq_true] at hc
        rcases hc with hc | hc <;> simp [isReadable, hc]
      · simp [isReadable, Char.isAlphanum, hd, isAlpha_of_isDigit hd]
    rw [List.cons_append, firstUnreadable_cons hread.1 (ne_hash_of_isNameChar hc), hc, hread.2,
      Bool.true_and, hrun, map_add_map_add, List.length_cons]

theorem firstUnreadable_digits {run : List Char} (hr : ∀ c ∈ run, c.isDigit = true)
    (rest : List Char) :
    firstUnreadable false false (run ++ rest) =
      (firstUnreadable false false rest).map (· + run.length) :=
  firstUnreadable_run (fun c hc => ⟨isNameChar_of_isDigit (hr c hc), .inr (hr c hc)⟩) rest

theorem firstUnreadable_point (named : Bool) {fraction : List Char} (hf : fraction ≠ [])
    (hd : ∀ c ∈ fraction, c.isDigit = true) (rest : List Char) :
    firstUnreadable false named ('.' :: (fraction ++ rest)) =
      (firstUnreadable false false rest).map (· + (fraction.length + 1)) := by
  obtain ⟨d, ds, rfl⟩ := List.exists_cons_of_ne_nil hf
  have hdigit := hd d List.mem_cons_self
  have hread : isReadable named '.' (d :: ds ++ rest) = true := by
    simp [isReadable, startsWithDigit, hdigit]
  have hp : isNameChar '.' = false := by decide
  rw [firstUnreadable_cons hread (by decide), hp, Bool.false_and, firstUnreadable_digits hd,
    map_add_map_add]

theorem firstUnreadable_numeral (n : Numeral) {rest : List Char} {named : Bool}
    (ha : Apart named (n.lexeme ++ rest)) :
    firstUnreadable false named (n.lexeme ++ rest) =
      (firstUnreadable false false rest).map (· + n.lexeme.length) := by
  have hnamed : n.whole ≠ [] → named = false := by
    intro hw
    obtain ⟨c, cs, hcs⟩ := List.exists_cons_of_ne_nil hw
    have hl : ∃ more, n.lexeme ++ rest = c :: more := by
      unfold Numeral.lexeme
      split <;> simp [hcs]
    obtain ⟨more, hmore⟩ := hl
    rw [hmore] at ha
    exact ha.eq_false (isNameChar_of_isDigit (n.isDigit_whole c (by simp [hcs])))
  by_cases hf : n.fraction = []
  · have hw : n.whole ≠ [] := fun hw => n.ne_nil (by simp [hw, hf])
    have hl : n.lexeme = n.whole := if_pos hf
    rw [hl, hnamed hw, firstUnreadable_digits n.isDigit_whole]
  · have hl : n.lexeme = n.whole ++ '.' :: n.fraction := if_neg hf
    rw [hl, List.append_assoc, List.cons_append, List.length_append, List.length_cons]
    by_cases hw : n.whole = []
    · rw [hw, List.nil_append, firstUnreadable_point named hf n.isDigit_fraction, List.length_nil,
        Nat.zero_add]
    · rw [hnamed hw, firstUnreadable_digits n.isDigit_whole,
        firstUnreadable_point false hf n.isDigit_fraction, map_add_map_add, Nat.add_comm]

theorem readsOver_lexeme {s : Symbol Numeral} (hs : s.Legible) {rest : List Char} (hr : s.Stops rest)
    {named : Bool} (ha : Apart named (s.lexeme ++ rest)) : ReadsOver false named s.lexeme rest := by
  cases hs with
  | number n => exact ⟨false, apart_false _, firstUnreadable_numeral n ha⟩
  | name h =>
    obtain ⟨c, cs, hname, hc, hcs⟩ := h
    have hn := isNameChar_of_isAlpha hc
    have hread : isReadable named c (cs ++ rest) = true := by
      simp [isReadable, Char.isAlphanum, hc]
    refine ⟨true, fun _ => hr, ?_⟩
    rw [Symbol.lexeme, hname, List.cons_append, firstUnreadable_cons hread (ne_hash_of_isNameChar hn), hn,
      hc, Bool.or_true, Bool.and_self, firstUnreadable_run fun d hd => ⟨hcs d hd, .inl rfl⟩,
      map_add_map_add, List.length_cons]
  | @punctuation c m h =>
    have hread : isReadable named c rest = true := by simp [isReadable, h]
    obtain ⟨hn, -, -, hh, -⟩ := of_punctuation? h
    refine ⟨false, apart_false _, ?_⟩
    rw [Symbol.lexeme, String.toList_singleton, List.singleton_append,
      firstUnreadable_cons hread hh, hn, Bool.false_and, List.length_singleton]

theorem firstUnreadable_of_munchNumber {α : Type} [Arithmetic α] {cs : List Char} {k : Nat}
    (h : (munchNumber cs : Except Nat (Symbol α × Nat)) = .error k)
    (hs : ∀ more, cs = '.' :: more → startsWithDigit more = true) {named : Bool} (ha : Apart named cs) :
    firstUnreadable false named cs = some k := by
  obtain ⟨run, rest, rfl, htake, hrun, -⟩ := exists_takeWhile Char.isDigit cs
  simp only [munchNumber, htake, List.drop_left] at h
  split at h
  · next more =>
    split at h
    · next hf =>
      cases h
      have hmore : startsWithDigit more = false := by
        cases more with
        | nil => rfl
        | cons d ds =>
          cases hd : d.isDigit with
          | false => exact hd
          | true => simp [List.takeWhile_cons_of_pos hd] at hf
      -- A point without digits before it has one behind it, or it would not start a number.
      cases run with
      | nil =>
        rw [hs more rfl] at hmore
        cases hmore
      | cons c run =>
        rw [ha.eq_false (isNameChar_of_isDigit (hrun c List.mem_cons_self)), firstUnreadable_digits hrun]
        have hread : isReadable false '.' more = false := by
          simp only [isReadable, hmore]
          decide
        simp [firstUnreadable, hread]
    · cases h
  · cases h

theorem firstUnreadable_of_munch {α : Type} [Arithmetic α] {rest : List Char} {k : Nat}
    (h : (munch rest : Except Nat (Symbol α × Nat)) = .error k) (hs : StartsLexeme rest)
    {named : Bool} (ha : Apart named rest) : firstUnreadable false named rest = some k := by
  cases rest with
  | nil => cases h
  | cons c cs =>
    obtain ⟨hb, hh⟩ := hs c rfl
    simp only [munch] at h
    split at h
    · cases h
    · next hletter =>
      split at h
      · next hc =>
        refine firstUnreadable_of_munchNumber h (fun more hmore => ?_) ha
        cases hmore
        simpa using hc
      · next hc =>
        split at h
        · cases h
        · next hp =>
          cases h
          -- An underscore goes on with a name, and there is none.
          have hnamed : (c == '_' && named) = false := by
            by_cases hu : c = '_'
            · subst hu
              simp [ha.eq_false (by decide)]
            · simp [hu]
          have hread : isReadable named c cs = false := by
            simp only [Bool.not_eq_true, Bool.or_eq_false_iff] at hletter hc
            simp [isReadable, Char.isAlphanum, hb, hletter, hc, hp, hnamed]
          simp [firstUnreadable, hh, hread]

/-- The lexer stops at the first character that cannot be read. -/
theorem scanAll_firstUnreadable {α : Type} [Arithmetic α] {fuel position : Nat} {rest : List Char}
    {named : Bool} (hf : rest.length < fuel) (ha : Apart named rest) :
    (∃ ts : List (Token α), scanAll fuel position rest = .ok ts ∧
      firstUnreadable false named rest = none) ∨
    ∃ k, (scanAll fuel position rest : Except Nat (List (Token α))) = .error (position + k) ∧
      firstUnreadable false named rest = some k := by
  induction fuel generalizing position rest named with
  | zero => omega
  | succ fuel ih =>
    obtain ⟨⟨gap, behind, rfl, hl, hg, hstart⟩, -⟩ := exists_ignored rest
    obtain ⟨named', ha', hgap⟩ := readsOver_ignored hg ha
    cases hm : (munch behind : Except Nat (Symbol α × Nat)) with
    | error k =>
      refine .inr ⟨k + gap.length, ?_, ?_⟩
      · simp only [scanAll, scan, ← hl, List.drop_left, hm]
        congr 1
        omega
      · rw [hgap, firstUnreadable_of_munch hm hstart ha']
        rfl
    | ok symbol =>
      by_cases hb : behind = []
      · subst hb
        rw [List.append_nil] at hgap ⊢
        have hscan : scanAll (fuel + 1) position gap =
            .ok [(⟨.eof, (position + gap.length : Nat)⟩ : Token α)] := by
          simp [scanAll, scan_last hg]
        exact .inl ⟨_, hscan, by rw [hgap]; rfl⟩
      · obtain ⟨s, rest, hs, rfl, -, -, hr⟩ := exists_lexeme hb hm
        obtain ⟨named'', ha'', hlexeme⟩ := readsOver_lexeme hs hr ha'
        rw [hlexeme, map_add_map_add] at hgap
        have hpos := List.length_pos_iff.mpr (startsLexeme_lexeme hs rest).1
        simp only [List.length_append] at hf
        rw [hgap, scanAll, scan_piece hg hs hr]
        dsimp only
        rw [if_neg (kind_map_value hs _), drop_piece]
        rcases @ih (position + gap.length + s.lexeme.length) rest named'' (by omega) ha'' with
          ⟨ts, hts, hnone⟩ | ⟨k, hk, hsome⟩
        · exact .inl ⟨_, by rw [hts], by rw [hnone]; rfl⟩
        · refine .inr ⟨k + (s.lexeme.length + gap.length), ?_, by rw [hsome]; rfl⟩
          rw [hk]
          dsimp only
          congr 1
          omega

end Scanning

end Posterior
