import Posterior.Proofs.Lexing.Partition

/-!
One lexer under any calls for the next token and for all tokens. A text falls into one stream of tokens. The lexer
gives it token by token and stays where it ends, at the end of the text or at the character in the way, also where
the digits of a number stand before that. A call for all tokens gives the whole stream, wherever the lexer stood.
-/

set_option autoImplicit false

namespace Posterior

namespace Lexer

open Text

variable {α : Type}

inductive Call where
  | next
  | all

inductive Reply (α : Type) where
  | token (outcome : Except LexFault (Token α))
  | tokens (outcome : Except LexFault (List (Token α)))

/-- What a reply shows to be the last of a stream: the end, or a fault. -/
def Reply.last? : Reply α → Option (Except LexFault (Token α))
  | .token (.ok t) => if t.kind = .eof then some (.ok t) else none
  | .token (.error f) | .tokens (.error f) => some (.error f)
  | .tokens (.ok ts) => ts.getLast?.map .ok

/-- What a text falls into: the tokens before its end or before a fault, and the end or the fault. -/
structure Stream (α : Type) where
  front : List (Token α)
  last : Except LexFault (Token α)

namespace Stream

def get (s : Stream α) (k : Nat) : Except LexFault (Token α) := ((s.front.map .ok)[k]?).getD s.last

def whole (s : Stream α) : Except LexFault (List (Token α)) := s.last.map fun t => s.front ++ [t]

def rest (s : Stream α) (text : List Char) : Nat :=
  match s.last with
  | .ok _ => text.length
  | .error f => f.position

/-- What the stream answers to calls if `k` places of it have been passed. A call for all tokens passes them
all. -/
def replies (s : Stream α) : (k : Nat) → List Call → List (Reply α)
  | _, [] => []
  | k, .next :: cs => .token (s.get k) :: s.replies (k + 1) cs
  | _, .all :: cs => .tokens s.whole :: s.replies (s.front.length + 1) cs

/-- How many places of the stream calls pass, if `k` have been passed before. -/
def passed (s : Stream α) : (k : Nat) → List Call → Nat
  | k, [] => k
  | k, .next :: cs => s.passed (k + 1) cs
  | _, .all :: cs => s.passed (s.front.length + 1) cs

structure Ends (s : Stream α) (text : List Char) : Prop where
  front : ∀ t ∈ s.front, t.kind ≠ .eof
  ok : ∀ t, s.last = .ok t → t = ⟨.eof, text.length⟩
  error : ∀ f, s.last = .error f → f.position < text.length ∧ f = .at text f.position

theorem get_of_le {s : Stream α} {k : Nat} (h : s.front.length ≤ k) : s.get k = s.last := by
  rw [get, List.getElem?_eq_none (by rwa [List.length_map]), Option.getD_none]

theorem last?_get {s : Stream α} {text : List Char} (hends : s.Ends text) {k : Nat}
    {outcome : Except LexFault (Token α)} (h : (Reply.token (s.get k)).last? = some outcome) :
    outcome = s.last ∧ s.front.length ≤ k := by
  by_cases hk : k < s.front.length
  · have hget : s.get k = .ok s.front[k] := by simp [get, hk]
    rw [hget, Reply.last?, if_neg (hends.front _ (List.getElem_mem hk))] at h
    cases h
  · refine ⟨?_, Nat.le_of_not_lt hk⟩
    rw [get_of_le (Nat.le_of_not_lt hk)] at h
    cases hlast : s.last with
    | error f =>
      rw [hlast] at h
      cases h
      rfl
    | ok t =>
      obtain rfl := hends.ok t hlast
      rw [hlast] at h
      cases h
      rfl

theorem last?_whole {s : Stream α} {outcome : Except LexFault (Token α)}
    (h : (Reply.tokens s.whole).last? = some outcome) : outcome = s.last := by
  unfold whole at h
  cases hlast : s.last with
  | error f =>
    rw [hlast] at h
    cases h
    rfl
  | ok t =>
    rw [hlast] at h
    simpa [Except.map, Reply.last?, eq_comm] using h

theorem le_passed (s : Stream α) {k : Nat} (h : s.front.length < k) (cs : List Call) :
    s.front.length < s.passed k cs := by
  induction cs generalizing k with
  | nil => exact h
  | cons c cs ih =>
    cases c with
    | next => exact ih (Nat.lt_succ_of_lt h)
    | all => exact ih (Nat.lt_succ_self _)

theorem last?_replies {s : Stream α} {text : List Char} (hends : s.Ends text) {k : Nat} {cs : List Call}
    {r : Reply α} (hr : r ∈ s.replies k cs) {outcome : Except LexFault (Token α)}
    (h : r.last? = some outcome) : outcome = s.last ∧ s.front.length < s.passed k cs := by
  induction cs generalizing k with
  | nil => cases hr
  | cons c cs ih =>
    cases c with
    | next =>
      rcases List.mem_cons.mp hr with rfl | hr
      · obtain ⟨hlast, hk⟩ := last?_get hends h
        exact ⟨hlast, s.le_passed (Nat.lt_succ_of_le hk) cs⟩
      · exact ih hr
    | all =>
      rcases List.mem_cons.mp hr with rfl | hr
      · exact ⟨last?_whole h, s.le_passed (Nat.lt_succ_self _) cs⟩
      · exact ih hr

theorem whole_cons (s : Stream α) (t : Token α) :
    whole ⟨t :: s.front, s.last⟩ = s.whole.map (t :: ·) := by
  unfold whole
  dsimp only
  cases s.last <;> rfl

theorem Ends.rest_le {s : Stream α} {text : List Char} (h : s.Ends text) : s.rest text ≤ text.length := by
  unfold rest
  split
  · exact Nat.le_refl _
  · next f hf => exact Nat.le_of_lt (h.error f hf).1

end Stream

section Munching

variable [Arithmetic α]

theorem startsWithDigit_of_takeWhile {cs : List Char} (h : (cs.takeWhile Char.isDigit).isEmpty = true) :
    startsWithDigit cs = false := by
  cases cs with
  | nil => rfl
  | cons c cs =>
    cases hc : c.isDigit with
    | false => exact hc
    | true =>
      rw [List.takeWhile_cons_of_pos hc] at h
      cases h

theorem munch_point {cs : List Char} (h : startsWithDigit cs = false) :
    (munch ('.' :: cs) : Except Nat (Symbol α × Nat)) = .error 0 := by
  have hpoint : ('.').isAlpha = false ∧ ('.').isDigit = false := by decide
  rw [munch, hpoint.1, hpoint.2, h]
  rfl

/-- The character in the way stands there also for a lexer that starts at it. Behind digits it is a point. -/
theorem munch_of_error {cs : List Char} {k : Nat} (h : (munch cs : Except Nat (Symbol α × Nat)) = .error k) :
    (munch (cs.drop k) : Except Nat (Symbol α × Nat)) = .error 0 ∧
      (k = 0 ∨ ∃ more, cs.drop k = '.' :: more) := by
  cases cs with
  | nil => cases h
  | cons c cs =>
    have hmunch := h
    rw [munch] at h
    split at h
    · cases h
    · split at h
      · -- Only a number fails behind its first character, and then at its point.
        simp only [munchNumber] at h
        split at h
        · next more hd =>
          split at h
          · next he =>
            cases h
            rw [hd]
            exact ⟨munch_point (startsWithDigit_of_takeWhile he), .inr ⟨more, rfl⟩⟩
          · cases h
        · cases h
      · split at h
        · cases h
        · cases h
          exact ⟨hmunch, .inl rfl⟩

theorem scan_of_error {position k : Nat} {text : List Char}
    (h : (scan position text : Except Nat (Token α × Nat)) = .error k) :
    position ≤ k ∧ k < position + text.length ∧
      (scan k (text.drop (k - position)) : Except Nat (Token α × Nat)) = .error k := by
  obtain ⟨⟨gap, behind, rfl, hl, -, hstarts⟩, -⟩ := exists_ignored text
  simp only [scan, ← hl, List.drop_left] at h
  split at h
  · cases h
  · next offset hm =>
    cases h
    obtain ⟨hagain, hoffset⟩ := munch_of_error hm
    have hlt : offset < behind.length := by
      refine Nat.lt_of_not_le fun hn => ?_
      rw [List.drop_eq_nil_of_le hn] at hagain
      cases hagain
    have hgap : gapLength false (behind.drop offset) = 0 := by
      have hnone : StartsLexeme (behind.drop offset) := by
        rcases hoffset with rfl | ⟨more, hmore⟩
        · exact hstarts
        · rw [hmore]
          rintro c ⟨⟩
          decide
      exact gapLength_of_ignored .nil hnone
    have hdrop : (gap ++ behind).drop (position + gap.length + offset - position) = behind.drop offset := by
      rw [Nat.add_assoc, Nat.add_sub_cancel_left, List.drop_length_add_append]
    refine ⟨by omega, by rw [List.length_append]; omega, ?_⟩
    rw [hdrop, scan, hgap]
    simp only [List.drop_zero, hagain, Nat.add_zero]

end Munching

variable [Arithmetic α] {l l' : Lexer} {s : Stream α} {k : Nat}

theorem next_of_scan_ok {t : Token α} {stop : Nat}
    (h : scan l.position (l.source.drop l.position) = .ok (t, stop)) :
    l.next = (.ok t, { l with position := stop }) := by
  rw [next, h]

theorem next_of_scan_error {position : Nat}
    (h : (scan l.position (l.source.drop l.position) : Except Nat (Token α × Nat)) = .error position) :
    (l.next : Except LexFault (Token α) × Lexer) =
      (.error (.at l.source position), { l with position }) := by
  rw [next, h]

inductive Reads (last : Except LexFault (Token α)) (rest : Lexer) : List (Token α) → Lexer → Prop where
  | last {l : Lexer} (h : l.next = (last, rest)) (again : rest.next = (last, rest)) : Reads last rest [] l
  | token {t : Token α} {front : List (Token α)} {l l' : Lexer} (h : l.next = (.ok t, l'))
      (more : Reads last rest front l') : Reads last rest (t :: front) l

theorem Reads.again {last : Except LexFault (Token α)} {rest : Lexer} {front : List (Token α)}
    (h : Reads last rest front l) : rest.next = (last, rest) := by
  induction h with
  | last _ again => exact again
  | token _ _ ih => exact ih

theorem next_at_end (text : List Char) :
    Lexer.next ⟨text, text.length⟩ = (.ok (⟨.eof, text.length⟩ : Token α), ⟨text, text.length⟩) := by
  have hscan := @scan_last α _ [] .nil text.length
  refine next_of_scan_ok ?_
  simpa using hscan

theorem scan_ok_cases {t : Token α} {stop : Nat} (hl : l.position ≤ l.source.length)
    (h : scan l.position (l.source.drop l.position) = .ok (t, stop)) :
    t = ⟨.eof, l.source.length⟩ ∧ stop = l.source.length ∨
      t.kind ≠ .eof ∧ l.position < stop ∧ stop ≤ l.source.length := by
  rcases scan_cases h with ⟨hg, -⟩ | ⟨gap, s, rest, htext, -, hs, -, rfl, rfl⟩
  · rw [scan_last hg] at h
    cases h
    have hlength : l.position + (l.source.drop l.position).length = l.source.length := by
      rw [List.length_drop]
      omega
    rw [hlength]
    exact .inl ⟨rfl, rfl⟩
  · have hpos := List.length_pos_iff.mpr (startsLexeme_lexeme hs rest).1
    have hlength := congrArg List.length htext
    simp only [List.length_drop, List.length_append] at hlength
    exact .inr ⟨kind_map_value hs _, by omega, by omega⟩

theorem next_of_fault {k : Nat} (hl : l.position ≤ l.source.length)
    (h : (scan l.position (l.source.drop l.position) : Except Nat (Token α × Nat)) = .error k) :
    l.position ≤ k ∧ k < l.source.length ∧
      (Lexer.next ⟨l.source, k⟩ : Except LexFault (Token α) × Lexer) =
        (.error (.at l.source k), ⟨l.source, k⟩) := by
  obtain ⟨hle, hlt, hagain⟩ := scan_of_error h
  rw [List.length_drop] at hlt
  rw [List.drop_drop, Nat.add_sub_cancel' hle] at hagain
  exact ⟨hle, by omega, next_of_scan_error hagain⟩

theorem tokens_eq (text : List Char) :
    (tokens text : Except LexFault (List (Token α))) =
      (scanAll (text.length + 1) 0 text).mapError (.at text) := by
  unfold tokens
  cases (scanAll (text.length + 1) 0 text : Except Nat (List (Token α))) <;> rfl

/-- From where a lexer stands to where its text ends there is one stream, told token by token and at once. -/
theorem exists_stream {fuel : Nat} (hl : l.position ≤ l.source.length)
    (hf : l.source.length < fuel + l.position) :
    ∃ s : Stream α, s.Ends l.source ∧ Reads s.last ⟨l.source, s.rest l.source⟩ s.front l ∧
      (scanAll fuel l.position (l.source.drop l.position)).mapError (.at l.source) = s.whole := by
  induction fuel generalizing l with
  | zero => omega
  | succ fuel ih =>
    cases hscan : (scan l.position (l.source.drop l.position) : Except Nat (Token α × Nat)) with
    | error k =>
      have hnext := next_of_scan_error hscan
      obtain ⟨-, hlt, hagain⟩ := next_of_fault hl hscan
      refine ⟨⟨[], .error (.at l.source k)⟩, ⟨?_, ?_, ?_⟩, .last hnext hagain, ?_⟩
      · rintro t ⟨⟩
      · rintro t ⟨⟩
      · rintro f ⟨⟩
        exact ⟨hlt, rfl⟩
      · rw [scanAll, hscan]
        rfl
    | ok result =>
      obtain ⟨t, stop⟩ := result
      have hnext := next_of_scan_ok hscan
      rcases scan_ok_cases hl hscan with ⟨rfl, rfl⟩ | ⟨ht, hlt, hle⟩
      · refine ⟨⟨[], .ok ⟨.eof, l.source.length⟩⟩, ⟨?_, ?_, ?_⟩, .last hnext (next_at_end _), ?_⟩
        · rintro t ⟨⟩
        · rintro t ⟨⟩
          rfl
        · rintro f ⟨⟩
        · rw [scanAll, hscan]
          rfl
      · -- The rest of the text is the stream of the lexer behind this token.
        obtain ⟨s, hends, hreads, hall⟩ := @ih ⟨l.source, stop⟩ hle (by dsimp only; omega)
        have hfront : ∀ t' ∈ t :: s.front, t'.kind ≠ .eof := List.forall_mem_cons.mpr ⟨ht, hends.front⟩
        refine ⟨⟨t :: s.front, s.last⟩, ⟨hfront, hends.ok, hends.error⟩, .token hnext hreads, ?_⟩
        have hdrop : (l.source.drop l.position).drop (stop - l.position) = l.source.drop stop := by
          rw [List.drop_drop, Nat.add_sub_cancel' (Nat.le_of_lt hlt)]
        rw [scanAll, hscan]
        dsimp only
        rw [if_neg ht, hdrop, s.whole_cons t, ← hall]
        cases (scanAll fuel stop (l.source.drop stop) : Except Nat (List (Token α))) <;> rfl

def ask (l : Lexer) : Call → Reply α × Lexer
  | .next =>
    let answer : Except LexFault (Token α) × Lexer := l.next
    (.token answer.1, answer.2)
  | .all =>
    let answer : Except LexFault (List (Token α)) × Lexer := l.all
    (.tokens answer.1, answer.2)

def askAll (l : Lexer) : List Call → List (Reply α) × Lexer
  | [] => ([], l)
  | c :: cs =>
    let first : Reply α × Lexer := l.ask c
    let later := first.2.askAll cs
    (first.1 :: later.1, later.2)

theorem le_next (l : Lexer) : l.position ≤ (l.next : Except LexFault (Token α) × Lexer).2.position := by
  unfold next scan
  split
  · next h =>
    split at h
    · cases h
      dsimp only
      omega
    · cases h
  · next h =>
    split at h
    · cases h
    · cases h
      dsimp only
      omega

theorem next_within (hl : l.position ≤ l.source.length) :
    (l.next : Except LexFault (Token α) × Lexer).2.position ≤ l.source.length := by
  cases hscan : (scan l.position (l.source.drop l.position) : Except Nat (Token α × Nat)) with
  | error k =>
    rw [next_of_scan_error hscan]
    exact Nat.le_of_lt (next_of_fault hl hscan).2.1
  | ok result =>
    obtain ⟨t, stop⟩ := result
    rw [next_of_scan_ok hscan]
    rcases scan_ok_cases hl hscan with ⟨-, hstop⟩ | ⟨-, -, hstop⟩
    · exact Nat.le_of_eq hstop
    · exact hstop

theorem next_source (l : Lexer) : (l.next : Except LexFault (Token α) × Lexer).2.source = l.source := by
  unfold next
  split <;> rfl

/-- The lexer has passed `k` places of the stream of its text. Behind the last of them it rests. -/
structure Stands (text : List Char) (s : Stream α) (k : Nat) (l : Lexer) : Prop where
  source : l.source = text
  within : l.position ≤ text.length
  reads : Reads s.last ⟨text, s.rest text⟩ (s.front.drop k) l
  rest : s.front.length < k → l = ⟨text, s.rest text⟩

variable {text : List Char}

theorem stands_of_rest (hends : s.Ends text)
    (hagain : Lexer.next ⟨text, s.rest text⟩ = (s.last, ⟨text, s.rest text⟩)) (hk : s.front.length < k) :
    Stands text s k ⟨text, s.rest text⟩ where
  source := rfl
  within := hends.rest_le
  reads := by
    rw [List.drop_eq_nil_of_le (Nat.le_of_lt hk)]
    exact .last hagain hagain
  rest _ := rfl

theorem Stands.next (hends : s.Ends text) (h : Stands text s k l) :
    (l.next : Except LexFault (Token α) × Lexer).1 = s.get k ∧
      Stands text s (k + 1) (l.next : Except LexFault (Token α) × Lexer).2 := by
  have hreads := h.reads
  generalize hfront : s.front.drop k = front at hreads
  cases hreads with
  | last hnext hagain =>
    have hk := List.drop_eq_nil_iff.mp hfront
    rw [hnext]
    exact ⟨(Stream.get_of_le hk).symm, stands_of_rest hends hagain (Nat.lt_succ_of_le hk)⟩
  | @token t front _ l' hnext more =>
    have hk : k < s.front.length := by
      refine Nat.lt_of_not_le fun hn => ?_
      rw [List.drop_eq_nil_of_le hn] at hfront
      cases hfront
    rw [List.drop_eq_getElem_cons hk, List.cons.injEq] at hfront
    obtain ⟨hget, hdrop⟩ := hfront
    have hsource := @next_source α _ l
    have hwithin := @next_within α _ l (h.source ▸ h.within)
    rw [hnext] at hsource hwithin
    rw [hnext]
    refine ⟨?_, hsource.trans h.source, h.source ▸ hwithin, hdrop ▸ more, fun hlt => by omega⟩
    simp [Stream.get, hk, hget]

theorem all_eq (htokens : tokens l.source = s.whole) : l.all = (s.whole, ⟨l.source, s.rest l.source⟩) := by
  unfold all
  rw [htokens]
  unfold Stream.whole Stream.rest
  cases s.last <;> rfl

theorem Stands.askAll (hends : s.Ends text) (htokens : tokens text = s.whole) (h : Stands text s k l)
    (cs : List Call) :
    (l.askAll cs).1 = s.replies k cs ∧
      Stands text s (s.passed k cs) (l.askAll cs : List (Reply α) × Lexer).2 := by
  induction cs generalizing k l with
  | nil => exact ⟨rfl, h⟩
  | cons c cs ih =>
    cases c with
    | next =>
      obtain ⟨hget, hstands⟩ := h.next hends
      obtain ⟨hreplies, hlast⟩ := ih hstands
      refine ⟨?_, hlast⟩
      rw [Stream.replies, ← hget, ← hreplies]
      rfl
    | all =>
      have hall := all_eq (h.source ▸ htokens)
      rw [h.source] at hall
      obtain ⟨hreplies, hlast⟩ := ih (stands_of_rest hends h.reads.again (Nat.lt_succ_self _))
      refine ⟨?_, ?_⟩
      · rw [Stream.replies, ← hreplies, Lexer.askAll, Lexer.ask]
        simp only [hall]
      · rw [Lexer.askAll, Lexer.ask]
        simp only [hall]
        exact hlast

structure Serves (source : String) (s : Stream α) (calls : List Call) (replies : List (Reply α)) (l : Lexer) :
    Prop where
  told : replies = s.replies 0 calls
  within : l.position ≤ source.length
  forward : l.position ≤ (l.next : Except LexFault (Token α) × Lexer).2.position
  all : (l.all : Except LexFault (List (Token α)) × Lexer).1 = tokenize source
  settled : ∀ r ∈ replies, ∀ outcome, r.last? = some outcome → l.next = (outcome, l) ∧
    (∀ t, outcome = .ok t → t = ⟨.eof, source.length⟩ ∧ l.position = source.length) ∧
    ∀ f, outcome = .error f → f = .at source.toList f.position ∧ l.position = f.position

/-- A text is one stream, and whatever is asked of a lexer of it is answered from there. What comes last is told
for ever. -/
theorem stream_of_calls (source : String) :
    ∃ s : Stream α, s.Ends source.toList ∧ tokenize source = s.whole ∧
      ∀ calls, Serves source s calls ((ofString source).askAll calls).1
        ((ofString source).askAll calls : List (Reply α) × Lexer).2 := by
  obtain ⟨s, hends, hreads, hwhole⟩ := @exists_stream α _ (ofString source) (source.toList.length + 1)
    (Nat.zero_le _) (Nat.lt_succ_self _)
  have htokens : tokens source.toList = s.whole := (tokens_eq _).trans hwhole
  have hstart : Stands source.toList s 0 (ofString source) := ⟨rfl, Nat.zero_le _, hreads, nofun⟩
  refine ⟨s, hends, htokens, fun calls => ?_⟩
  obtain ⟨hreplies, hstands⟩ := hstart.askAll hends htokens calls
  refine ⟨hreplies, String.length_toList ▸ hstands.within, le_next _, ?_, fun r hr outcome ho => ?_⟩
  · have hsource : _ = source.toList := hstands.source
    rw [all_eq (hsource ▸ htokens)]
    exact htokens.symm
  · rw [hreplies] at hr
    obtain ⟨rfl, hpassed⟩ := Stream.last?_replies hends hr ho
    rw [hstands.rest hpassed]
    refine ⟨hreads.again, fun t ht => ?_, fun f hf => ⟨(hends.error f hf).2, ?_⟩⟩
    · rw [Stream.rest, ht]
      exact ⟨hends.ok t ht, rfl⟩
    · rw [Stream.rest, hf]

example :
    let fault : LexFault := ⟨'.', 3, 1, 4⟩
    ((ofString "x 1.").askAll [.next, .next, .next, .all, .next] : List (Reply Float) × Lexer) =
      ([.token (.ok ⟨.mark .identifier "x", 0⟩), .token (.error fault), .token (.error fault),
        .tokens (.error fault), .token (.error fault)], ⟨"x 1.".toList, 3⟩) := by
  rfl

end Lexer

end Posterior
