import Mathlib.Data.List.Induction
import Posterior.Proofs.Condition
import Posterior.Proofs.Lexing.Munch

/-!
Reading conditions. Each reader takes exactly what was worded, from whatever it stands before that cannot belong
to it, and takes nothing that is not so worded. A text is therefore read in one way at most.
-/

set_option autoImplicit false

namespace Posterior.Condition

open Arithmetic Text

section Parts

theorem skipBlanks_append {gap rest : List Char} (hg : ∀ c ∈ gap, isBlank c = true)
    (hr : ∀ c ∈ rest.head?, isBlank c = false) : skipBlanks (gap ++ rest) = rest :=
  dropWhile_append_stop hg hr

theorem exists_blanks (cs : List Char) :
    ∃ gap, (∀ c ∈ gap, isBlank c = true) ∧ cs = gap ++ skipBlanks cs :=
  ⟨cs.takeWhile isBlank, List.all_eq_true.mp List.all_takeWhile, List.takeWhile_append_dropWhile.symm⟩

theorem readName_append {c : Char} {cs rest : List Char} (hc : c.isAlpha = true ∨ c = '_')
    (hcs : ∀ d ∈ cs, isWordChar d = true) (hr : ∀ d ∈ rest.head?, isWordChar d = false) :
    readName (c :: cs ++ rest) = some (c :: cs, rest) := by
  have hstart : (c.isAlpha || c == '_') = true := by simpa using hc
  rw [List.cons_append, readName, if_pos hstart, takeWhile_append_stop hcs hr, dropWhile_append_stop hcs hr]

theorem exists_of_readName {cs name rest : List Char} (h : readName cs = some (name, rest)) :
    cs = name ++ rest ∧ ∃ c tail, name = c :: tail ∧ (c.isAlpha = true ∨ c = '_') ∧
      ∀ d ∈ tail, isWordChar d = true := by
  cases cs with
  | nil => cases h
  | cons c cs =>
    rw [readName, Option.ite_none_right_eq_some] at h
    obtain ⟨hc, hs⟩ := h
    cases hs
    refine ⟨by rw [List.cons_append, List.takeWhile_append_dropWhile], c, _, rfl, by simpa using hc, ?_⟩
    exact List.all_eq_true.mp List.all_takeWhile

/-- A sign is read to its end; only behind a second character of the wrong kind would it be misread. -/
theorem readComparison_append (s : Sign) {rest : List Char} (h : rest.head? ≠ some '=') :
    readComparison (s.text ++ rest) = some (s.comparison, rest) := by
  cases s with
  | atLeast | atMost | doubleEquals => rfl
  | greater | less | equals =>
    cases rest with
    | nil => rfl
    | cons c rest =>
      have hc : c ≠ '=' := fun e => h (by rw [e]; rfl)
      simp [Sign.text, readComparison, Sign.comparison, hc]

theorem exists_of_readComparison {cs rest : List Char} {c : Comparison}
    (h : readComparison cs = some (c, rest)) : ∃ s : Sign, cs = s.text ++ rest ∧ c = s.comparison := by
  unfold readComparison at h
  split at h <;> cases h
  · exact ⟨.atLeast, rfl, rfl⟩
  · exact ⟨.atMost, rfl, rfl⟩
  · exact ⟨.doubleEquals, rfl, rfl⟩
  · exact ⟨.greater, rfl, rfl⟩
  · exact ⟨.less, rfl, rfl⟩
  · exact ⟨.equals, rfl, rfl⟩

end Parts

section Numbers

theorem spanDigits_append {ds rest : List Char} (hd : ∀ c ∈ ds, IsFigure c)
    (hr : ∀ c ∈ rest.head?, ¬ IsFigure c) : spanDigits (ds ++ rest) = (ds.map figure, rest) := by
  induction ds with
  | nil =>
    cases rest with
    | nil => rfl
    | cons c rest =>
      have hc : digitValue? c = none := by simpa [IsFigure] using hr c rfl
      simp [spanDigits, hc]
  | cons c ds ih =>
    obtain ⟨d, hc⟩ := Option.isSome_iff_exists.mp (hd c List.mem_cons_self)
    have htail := ih fun c' h => hd c' (List.mem_cons_of_mem c h)
    simp [spanDigits, hc, htail, figure]

theorem exists_figures (cs : List Char) :
    ∃ ds rest, cs = ds ++ rest ∧ (∀ c ∈ ds, IsFigure c) ∧ spanDigits cs = (ds.map figure, rest) := by
  induction cs with
  | nil => exact ⟨[], [], rfl, nofun, rfl⟩
  | cons c cs ih =>
    obtain ⟨ds, rest, rfl, hd, hs⟩ := ih
    cases hc : digitValue? c with
    | none => exact ⟨[], c :: (ds ++ rest), rfl, nofun, by simp [spanDigits, hc]⟩
    | some d =>
      refine ⟨c :: ds, rest, rfl, List.forall_mem_cons.mpr ⟨by simp [IsFigure, hc], hd⟩, ?_⟩
      simp [spanDigits, hc, hs, figure]

theorem digitsValue_eq (ds : List Nat) : digitsValue ds = Nat.ofDigits 10 ds.reverse := by
  induction ds using List.reverseRecOn with
  | nil => rfl
  | append_singleton ds d ih =>
    rw [digitsValue, List.foldl_append, List.reverse_concat, Nat.ofDigits_cons, ← ih]
    exact Nat.add_comm _ _

theorem not_isFigure_point : ¬ IsFigure '.' := by
  unfold IsFigure
  decide +kernel

/-- What may stand behind a number, so that it ends there. -/
def EndsNumber (rest : List Char) : Prop := ∀ c ∈ rest.head?, ¬ IsFigure c ∧ c ≠ '.'

variable {α : Type} [Arithmetic α]

theorem readMagnitude_whole {cs rest : List Char} {d : Nat} {ds : List Nat}
    (hs : spanDigits cs = (d :: ds, rest)) (hr : ∀ c ∈ rest.head?, c ≠ '.') :
    readMagnitude cs = some ((ofDecimal (digitsValue (d :: ds)) 0 : α), rest) := by
  unfold readMagnitude
  rw [hs]
  cases rest with
  | nil => rfl
  | cons c rest =>
    have hc := hr c rfl
    split
    · next h => cases h
    · next h =>
      cases h
      exact absurd rfl hc
    · next h =>
      cases h
      rfl

theorem readMagnitude_fraction {cs rest rest' : List Char} {d e : Nat} {ds es : List Nat}
    (hs : spanDigits cs = (d :: ds, '.' :: rest)) (hf : spanDigits rest = (e :: es, rest')) :
    readMagnitude cs =
      some ((ofDecimal (digitsValue (d :: ds ++ e :: es)) (e :: es).length : α), rest') := by
  unfold readMagnitude
  rw [hs]
  simp only [hf]

theorem readMagnitude_append (f : Figures) {rest : List Char} (hr : EndsNumber rest) :
    readMagnitude (f.text ++ rest) = some ((f.value : α), rest) := by
  obtain ⟨whole, fraction, hfigure, hne⟩ := f
  have hwhole : ∀ c ∈ whole, IsFigure c := fun c hc => hfigure c (List.mem_append_left _ hc)
  have hfraction : ∀ c ∈ fraction, IsFigure c := fun c hc => hfigure c (List.mem_append_right _ hc)
  obtain ⟨c, cs, rfl⟩ := List.exists_cons_of_ne_nil hne
  have hrest := spanDigits_append hfraction fun c hc => (hr c hc).1
  cases fraction with
  | nil =>
    have hs := spanDigits_append hwhole fun c hc => (hr c hc).1
    have hread := readMagnitude_whole (α := α) hs fun c hc => (hr c hc).2
    simpa [Figures.text, Figures.value, digitsValue_eq] using hread
  | cons b bs =>
    have hpoint : ∀ c ∈ ('.' :: (b :: bs ++ rest)).head?, ¬ IsFigure c := fun c hc => by
      cases hc
      exact not_isFigure_point
    have hs := spanDigits_append hwhole hpoint
    have hread := readMagnitude_fraction (α := α) hs hrest
    simpa [Figures.text, Figures.value, digitsValue_eq] using hread

theorem exists_of_readMagnitude {cs rest : List Char} {x : α} (h : readMagnitude cs = some (x, rest)) :
    ∃ f : Figures, cs = f.text ++ rest ∧ x = f.value := by
  obtain ⟨whole, behind, rfl, hwhole, hs⟩ := exists_figures cs
  cases whole with
  | nil =>
    unfold readMagnitude at h
    rw [hs] at h
    cases h
  | cons c ws =>
    by_cases hp : ∀ c ∈ behind.head?, c ≠ '.'
    · rw [readMagnitude_whole hs hp] at h
      cases h
      refine ⟨⟨c :: ws, [], by simpa using hwhole, List.cons_ne_nil _ _⟩, by simp [Figures.text], ?_⟩
      simp [Figures.value, digitsValue_eq]
    · obtain ⟨behind, rfl⟩ : ∃ more, behind = '.' :: more := by
        cases behind with
        | nil => exact absurd nofun hp
        | cons b more => exact ⟨more, by simpa using hp⟩
      obtain ⟨fraction, rest', rfl, hfraction, hf⟩ := exists_figures behind
      cases fraction with
      | nil =>
        unfold readMagnitude at h
        rw [hs] at h
        simp only [List.map_cons, hf] at h
        cases h
      | cons b bs =>
        rw [readMagnitude_fraction hs hf] at h
        cases h
        refine ⟨⟨c :: ws, b :: bs, List.forall_mem_append.mpr ⟨hwhole, hfraction⟩, List.cons_ne_nil _ _⟩, ?_, ?_⟩
        · simp [Figures.text]
        · simp [Figures.value, digitsValue_eq]

theorem exists_text_cons (f : Figures) : ∃ c cs, f.text = c :: cs ∧ IsFigure c := by
  obtain ⟨whole, fraction, hfigure, hne⟩ := f
  obtain ⟨c, cs, rfl⟩ := List.exists_cons_of_ne_nil hne
  have hc : IsFigure c := hfigure c (List.mem_append_left _ List.mem_cons_self)
  exact ⟨c, _, rfl, hc⟩

theorem not_isFigure_minus : ¬ IsFigure '-' := by
  unfold IsFigure
  decide +kernel

theorem not_isFigure_equals : ¬ IsFigure '=' := by
  unfold IsFigure
  decide +kernel

theorem readNumber_append (w : Wording) {rest : List Char} (hr : EndsNumber rest) :
    readNumber (w.number ++ rest) = some ((w.threshold : α), rest) := by
  have hread := readMagnitude_append (α := α) w.figures hr
  unfold Wording.number Wording.threshold
  cases w.negative with
  | true =>
    simp only [if_true, List.cons_append, readNumber, hread]
    rfl
  | false =>
    obtain ⟨c, cs, htext, hc⟩ := exists_text_cons w.figures
    have hminus : c ≠ '-' := fun e => not_isFigure_minus (e ▸ hc)
    simp only [Bool.false_eq_true, if_false]
    rw [← hread, htext, List.cons_append]
    unfold readNumber
    split
    · next h =>
      cases h
      exact absurd rfl hminus
    · rfl

theorem exists_of_readNumber {cs rest : List Char} {x : α} (h : readNumber cs = some (x, rest)) :
    ∃ (negative : Bool) (f : Figures), cs = (if negative then '-' :: f.text else f.text) ++ rest ∧
      x = if negative then -f.value else f.value := by
  unfold readNumber at h
  split at h
  · next cs =>
    obtain ⟨⟨y, rest'⟩, hy, hp⟩ := Option.map_eq_some_iff.mp h
    cases hp
    obtain ⟨f, rfl, rfl⟩ := exists_of_readMagnitude hy
    exact ⟨true, f, rfl, rfl⟩
  · obtain ⟨f, rfl, rfl⟩ := exists_of_readMagnitude h
    exact ⟨false, f, rfl, rfl⟩

theorem takeWhile_text (f : Figures) : f.text.takeWhile (fun c => (digitValue? c).isSome) = f.whole := by
  refine takeWhile_append_stop (fun c hc => f.isFigure c (List.mem_append_left _ hc)) fun c hc => ?_
  split at hc <;> cases hc
  exact Bool.eq_false_iff.mpr not_isFigure_point

theorem text_injective {f g : Figures} (h : f.text = g.text) : f = g := by
  have hwhole : f.whole = g.whole := by rw [← takeWhile_text f, h, takeWhile_text]
  have hfraction : f.fraction = g.fraction := by
    rw [Figures.text, Figures.text, hwhole] at h
    have hbehind := List.append_cancel_left h
    split at hbehind
    · next hf =>
      split at hbehind
      · next hg => rw [hf, hg]
      · cases hbehind
    · split at hbehind
      · cases hbehind
      · exact List.tail_eq_of_cons_eq hbehind
  obtain ⟨whole, fraction, _, _⟩ := f
  obtain ⟨whole', fraction', _, _⟩ := g
  cases hwhole
  cases hfraction
  rfl

theorem number_injective {w v : Wording} (h : w.number = v.number) :
    w.negative = v.negative ∧ w.figures = v.figures := by
  have hhead (f g : Figures) : '-' :: f.text ≠ g.text := by
    obtain ⟨c, cs, htext, hc⟩ := exists_text_cons g
    rw [htext]
    rintro ⟨⟩
    exact not_isFigure_minus hc
  unfold Wording.number at h
  cases hw : w.negative <;> cases hv : v.negative <;> rw [hw, hv] at h
  · exact ⟨rfl, text_injective h⟩
  · exact absurd h.symm (hhead _ _)
  · exact absurd h (hhead _ _)
  · exact ⟨rfl, text_injective (List.tail_eq_of_cons_eq h)⟩

end Numbers

section Wordings

theorem mem_head?_append {c : Char} {front rest : List Char} (h : c ∈ (front ++ rest).head?) :
    c ∈ front ∨ c ∈ rest.head? := by
  cases front with
  | nil => exact .inr h
  | cons d front =>
    cases h
    exact .inl List.mem_cons_self

theorem Wording.head_name (w : Wording) (rest : List Char) :
    ∀ c ∈ (w.name ++ rest).head?, isBlank c = false := by
  obtain ⟨c, cs, hname, hc, -⟩ := w.isName
  rw [hname]
  rintro _ ⟨⟩
  refine Bool.eq_false_iff.mpr fun hb => ?_
  have hn := isNameChar_of_isBlank hb
  rcases hc with hc | rfl
  · rw [Lexer.isNameChar, Char.isAlphanum, hc] at hn
    cases hn
  · cases hn

theorem Sign.head_text (s : Sign) (rest : List Char) :
    ∀ c ∈ (s.text ++ rest).head?, isBlank c = false ∧ isWordChar c = false := by
  intro c hc
  cases s <;> cases hc <;> decide +kernel

theorem Wording.head_number (w : Wording) (rest : List Char) :
    ∀ c ∈ (w.number ++ rest).head?, isBlank c = false ∧ c ≠ '=' := by
  obtain ⟨d, ds, htext, hd⟩ := exists_text_cons w.figures
  unfold Wording.number
  rw [htext]
  cases w.negative with
  | true =>
    rintro _ ⟨⟩
    decide
  | false =>
    rintro _ ⟨⟩
    refine ⟨isBlank_of_isFigure hd, ?_⟩
    rintro rfl
    exact absurd hd not_isFigure_equals

theorem endsNumber_of_blanks {gap : List Char} (h : ∀ c ∈ gap, isBlank c = true) : EndsNumber gap := by
  intro c hc
  have hb := h c (List.mem_of_mem_head? hc)
  refine ⟨fun hf => ?_, ?_⟩
  · rw [isBlank_of_isFigure hf] at hb
    cases hb
  · rintro rfl
    cases hb

variable {α : Type} [Arithmetic α]

/-- How a text is read that words a condition: what each reader finds, and what it leaves. -/
theorem reads_of_words {w : Wording} {text : String} (h : w.Words text) :
    ∃ afterName afterSign behind,
      readName (skipBlanks text.toList) = some (w.name, afterName) ∧
      skipBlanks afterName = w.sign.text ++ afterSign ∧
      readComparison (w.sign.text ++ afterSign) = some (w.sign.comparison, afterSign) ∧
      skipBlanks afterSign = w.number ++ behind ∧
      readNumber (w.number ++ behind) = some ((w.threshold : α), behind) ∧ skipBlanks behind = [] := by
  obtain ⟨gap, hgap, htext⟩ := h
  have hlayOut : layOut gap [w.name, w.sign.text, w.number] =
      gap 0 ++ (w.name ++ (gap 1 ++ (w.sign.text ++ (gap 2 ++ (w.number ++ gap 3))))) := rfl
  refine ⟨gap 1 ++ (w.sign.text ++ (gap 2 ++ (w.number ++ gap 3))), gap 2 ++ (w.number ++ gap 3), gap 3,
    ?_, skipBlanks_append (hgap 1) fun c hc => (w.sign.head_text _ c hc).1, readComparison_append w.sign ?_,
    skipBlanks_append (hgap 2) fun c hc => (w.head_number _ c hc).1,
    readNumber_append w (endsNumber_of_blanks (hgap 3)), ?_⟩
  · obtain ⟨c, cs, hname, hc, hcs⟩ := w.isName
    rw [htext, hlayOut, skipBlanks_append (hgap 0) (w.head_name _), hname]
    refine readName_append hc hcs fun d hd => ?_
    rcases mem_head?_append hd with hd | hd
    · exact isWordChar_of_isBlank (hgap 1 d hd)
    · exact (w.sign.head_text _ d hd).2
  · intro he
    rcases mem_head?_append he with he | he
    · cases hgap 2 _ he
    · exact (w.head_number _ _ he).2 rfl
  · rw [← List.append_nil (gap 3)]
    exact skipBlanks_append (hgap 3) nofun

theorem read?_of_words {w : Wording} {text : String} (h : w.Words text) :
    read? text = some (w.condition : Condition α) := by
  obtain ⟨afterName, afterSign, behind, hname, hsign, hcomparison, hnumber, hthreshold, hend⟩ :=
    reads_of_words (α := α) h
  simp only [read?, readChars, hname, hsign, hcomparison, hnumber, hthreshold, hend, Option.bind_eq_bind,
    Option.bind_some, List.isEmpty_nil, if_true]
  rfl

theorem Wording.Words.unique {w v : Wording} {text : String} (hw : w.Words text) (hv : v.Words text) :
    w = v := by
  obtain ⟨_, _, _, hname, hsign, hcomparison, hnumber, hthreshold, -⟩ := reads_of_words (α := Float) hw
  obtain ⟨_, _, _, hname', hsign', hcomparison', hnumber', hthreshold', -⟩ := reads_of_words (α := Float) hv
  obtain ⟨hn, rfl⟩ := Prod.mk.inj (Option.some.inj (hname.symm.trans hname'))
  have hs := hsign.symm.trans hsign'
  rw [hs] at hcomparison
  obtain ⟨-, rfl⟩ := Prod.mk.inj (Option.some.inj (hcomparison.symm.trans hcomparison'))
  have hm := hnumber.symm.trans hnumber'
  rw [hm] at hthreshold
  obtain ⟨-, rfl⟩ := Prod.mk.inj (Option.some.inj (hthreshold.symm.trans hthreshold'))
  have hsame := Sign.text_injective (List.append_cancel_right hs)
  obtain ⟨hnegative, hfigures⟩ := number_injective (List.append_cancel_right hm)
  obtain ⟨⟩ := w
  obtain ⟨⟩ := v
  cases hn
  cases hsame
  cases hnegative
  cases hfigures
  rfl

theorem exists_of_read? {text : String} {c : Condition α} (h : read? text = some c) :
    ∃ w : Wording, w.Words text ∧ c = w.condition := by
  simp only [read?, readChars, Option.bind_eq_bind, Option.bind_eq_some_iff] at h
  obtain ⟨⟨name, afterName⟩, hname, ⟨_, afterSign⟩, hcomparison, ⟨_, behind⟩, hthreshold, hc⟩ := h
  obtain ⟨g₀, hg₀, htext⟩ := exists_blanks text.toList
  obtain ⟨g₁, hg₁, hafterName⟩ := exists_blanks afterName
  obtain ⟨g₂, hg₂, hafterSign⟩ := exists_blanks afterSign
  obtain ⟨g₃, hg₃, hbehind⟩ := exists_blanks behind
  obtain ⟨hn, hisName⟩ := exists_of_readName hname
  obtain ⟨sign, hs, rfl⟩ := exists_of_readComparison hcomparison
  obtain ⟨negative, figures, hm, rfl⟩ := exists_of_readNumber hthreshold
  rw [Option.ite_none_right_eq_some, List.isEmpty_iff] at hc
  obtain ⟨hend, hc⟩ := hc
  cases hc
  rw [hend, List.append_nil] at hbehind
  rw [hn, hafterName, hs, hafterSign, hm, hbehind] at htext
  let gap : Nat → List Char
    | 0 => g₀
    | 1 => g₁
    | 2 => g₂
    | _ => g₃
  refine ⟨⟨name, sign, negative, figures, hisName⟩, ⟨gap, ?_, htext⟩, rfl⟩
  rintro (_ | _ | _ | _)
  · exact hg₀
  · exact hg₁
  · exact hg₂
  · exact hg₃

end Wordings

variable {α : Type} [Arithmetic α]

/-- A text is read as a condition exactly if it words one, and then as that one; no text words two. The condition
is met by the results that bind its name to a number on the right side of its threshold. -/
theorem condition_of_text (text : String) :
    (∀ c : Condition α, read? text = some c ↔ ∃ w : Wording, w.Words text ∧ c = w.condition) ∧
    ((read? text : Option (Condition α)) = none ↔ ¬ ∃ w : Wording, w.Words text) ∧
    (∀ w v : Wording, w.Words text → v.Words text → w = v) ∧
    ∀ (w : Wording) (r : Result α), (w.condition : Condition α).criterion r = true ↔
      ∃ x, r.bindings.get? (String.ofList w.name) = some x ∧ w.sign.Holds x w.threshold := by
  have hread (c : Condition α) : read? text = some c ↔ ∃ w : Wording, w.Words text ∧ c = w.condition := by
    constructor
    · exact exists_of_read?
    · rintro ⟨w, hw, rfl⟩
      exact read?_of_words hw
  refine ⟨hread, ?_, fun w v hw hv => hw.unique hv, fun w r => w.criterion_iff r⟩
  constructor
  · rintro hn ⟨w, hw⟩
    rw [read?_of_words (α := α) hw] at hn
    cases hn
  · intro hn
    refine Option.eq_none_iff_forall_ne_some.mpr fun c hc => hn ?_
    obtain ⟨w, hw, -⟩ := exists_of_read? hc
    exact ⟨w, hw⟩

theorem condition_of_spread_text :
    let text := " height\u2003>= -\u0663.5\n"
    let c : Condition Float := ⟨"height", .atLeast, -ofDecimal 35 1⟩
    read? text = some c ∧ ∃ w : Wording, w.Words text ∧ (∀ v : Wording, v.Words text → v = w) ∧
      ∀ r : Result Float, c.criterion r = true ↔
        ∃ x, r.bindings.get? "height" = some x ∧ w.sign.Holds x c.threshold := by
  intro text c
  obtain ⟨hread, -, hunique, hmeets⟩ := condition_of_text (α := Float) text
  have htext : text.toList =
      [' ', 'h', 'e', 'i', 'g', 'h', 't', '\u2003', '>', '=', ' ', '-', '\u0663', '.', '5', '\n'] := by
    decide +kernel
  have hletters : ∀ d ∈ ['e', 'i', 'g', 'h', 't'], isWordChar d = true :=
    List.all_eq_true.mp (by decide +kernel)
  have hfigures : ∀ d ∈ ['\u0663', '5'], (digitValue? d).isSome = true :=
    List.all_eq_true.mp (by decide +kernel)
  let w : Wording :=
    { name := ['h', 'e', 'i', 'g', 'h', 't']
      sign := .atLeast
      negative := true
      figures := ⟨['\u0663'], ['5'], hfigures, nofun⟩
      isName := ⟨'h', _, rfl, .inl rfl, hletters⟩ }
  let gap : Nat → List Char
    | 0 | 2 => [' ']
    | 1 => ['\u2003']
    | _ => ['\n']
  have hgap : ∀ i, ∀ d ∈ gap i, isBlank d = true := by
    have hall : ∀ d ∈ [' ', '\u2003', '\n'], isBlank d = true :=
      List.all_eq_true.mp (by decide +kernel)
    rintro (_ | _ | _ | _) d hd <;> exact hall d (by simp_all [gap])
  have hwords : w.Words text := ⟨gap, hgap, htext⟩
  exact ⟨(hread c).mpr ⟨w, hwords, rfl⟩, w, hwords, fun v hv => hunique v w hv hwords, hmeets w⟩

example : (read? "x>=-1." : Option (Condition Float)).isNone = true ∧
    (read? "x= =1" : Option (Condition Float)).isNone = true := by
  decide +kernel

end Posterior.Condition
