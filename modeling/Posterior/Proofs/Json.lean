import Mathlib.Data.Nat.Basic
import Posterior.Proofs.Unambiguous
import Posterior.Text.Json

/-!
A JSON value and the text it is written as. Quoted text is read back character by character, escapes
included; whole values are told apart by their texts as soon as their numerals are solid and none of them is
the name of the empty value.
-/

set_option autoImplicit false

namespace Posterior.Text

section Hexadecimal

def hexDigitValue (c : Char) : Nat := if c.isDigit then c.toNat - 48 else c.toNat - 87

def hexValue (ds : List Char) : Nat := ds.foldl (fun n c => 16 * n + hexDigitValue c) 0

theorem hexDigitValue_hexDigit {d : Nat} (h : d < 16) : hexDigitValue (hexDigit d) = d := by
  have hall : ∀ d : Fin 16, hexDigitValue (hexDigit d) = d := by decide
  exact hall ⟨d, h⟩

theorem hexValue_hex (w n : Nat) : hexValue (hex w n) = n % Nat.pow 16 w := by
  induction w generalizing n with
  | zero => simp [hex, hexValue, Nat.mod_one]
  | succ w ih =>
    have hd := hexDigitValue_hexDigit (Nat.mod_lt n (by decide : 0 < 16))
    have hpow : Nat.pow 16 (w + 1) = 16 * Nat.pow 16 w := Nat.mul_comm _ _
    simp only [hexValue, hex, List.foldl_append, List.foldl_cons, List.foldl_nil] at ih ⊢
    rw [ih, hd, hpow, Nat.mod_mul, Nat.add_comm]

end Hexadecimal

namespace Json

section Quotes

def plainEscape (c : Char) : Char :=
  if c = 'n' then '\n'
  else if c = 'r' then '\r'
  else if c = 't' then '\t'
  else if c = 'b' then '\x08'
  else if c = 'f' then '\x0c'
  else c

def readUnit (cs : List Char) : Nat × List Char := (hexValue (cs.take 4), cs.drop 4)

/-- The first character of quoted text, with what follows it. Two code units may make one character. -/
def readChar? : List Char → Option (Char × List Char)
  | '\\' :: 'u' :: cs =>
    let (unit, rest) := readUnit cs
    if 0xd800 ≤ unit ∧ unit < 0xdc00 then
      let (low, rest) := readUnit (rest.drop 2)
      some (Char.ofNat (0x10000 + (unit - 0xd800) * 0x400 + (low - 0xdc00)), rest)
    else some (Char.ofNat unit, rest)
  | '\\' :: c :: cs => some (plainEscape c, cs)
  | c :: cs => some (c, cs)
  | [] => none

theorem readUnit_hex {n : Nat} (h : n < 0x10000) (cs : List Char) : readUnit (hex 4 n ++ cs) = (n, cs) := by
  rw [readUnit, List.take_left' (hex_length 4 n), List.drop_left' (hex_length 4 n), hexValue_hex,
    Nat.mod_eq_of_lt h]

theorem readChar?_unit {n : Nat} (h : n < 0xd800 ∨ 0xdc00 ≤ n ∧ n < 0x10000) (r : List Char) :
    readChar? (unitEscape n ++ r) = some (Char.ofNat n, r) := by
  have hn : n < 0x10000 := by omega
  have hu : ¬ (0xd800 ≤ n ∧ n < 0xdc00) := by omega
  simp only [unitEscape, List.cons_append, readChar?, readUnit_hex hn, if_neg hu]

theorem readChar?_units {m : Nat} (h : m < 0x100000) (r : List Char) :
    readChar? (unitEscape (0xd800 + m / 0x400) ++ unitEscape (0xdc00 + m % 0x400) ++ r) =
      some (Char.ofNat (0x10000 + m), r) := by
  have hhigh : 0xd800 ≤ 0xd800 + m / 0x400 ∧ 0xd800 + m / 0x400 < 0xdc00 := by omega
  have hunit : 0xd800 + m / 0x400 < 0x10000 := by omega
  have hlow : 0xdc00 + m % 0x400 < 0x10000 := by omega
  have hm : 0x10000 + (0xd800 + m / 0x400 - 0xd800) * 0x400 + (0xdc00 + m % 0x400 - 0xdc00) = 0x10000 + m := by
    omega
  simp only [unitEscape, List.cons_append, List.append_assoc, readChar?, readUnit_hex hunit, if_pos hhigh,
    List.drop_succ_cons, List.drop_zero, readUnit_hex hlow, hm]

theorem readChar?_plain {c : Char} (h : c ≠ '\\') (r : List Char) : readChar? (c :: r) = some (c, r) := by
  unfold readChar?
  split <;> simp_all

/-- Whatever is written inside quotes is read back. -/
theorem readChar?_escapeChar (c : Char) (r : List Char) : readChar? (escapeChar c ++ r) = some (c, r) := by
  have hvalid : c.toNat < 0xd800 ∨ 0xdfff < c.toNat ∧ c.toNat < 0x110000 := c.valid
  unfold escapeChar
  split
  · next h =>
    rcases (Bool.or_eq_true _ _).mp h with h | h <;> obtain rfl := eq_of_beq h <;> rfl
  · next h =>
    -- The five characters with a letter of their own, then what is written as it is.
    iterate 5
      split
      · next he => obtain rfl := eq_of_beq he; rfl
    split
    · exact readChar?_plain (fun he => h (by simp [he])) r
    · split
      · rw [readChar?_unit (by omega), Char.ofNat_toNat]
      · have hm : 0x10000 + (c.toNat - 0x10000) = c.toNat := by omega
        rw [readChar?_units (by omega), hm, Char.ofNat_toNat]

example : escapeChar '😀' = ['\\', 'u', 'd', '8', '3', 'd', '\\', 'u', 'd', 'e', '0', '0'] := by decide

/-- A character inside quotes is told from any other, and from the quote that ends the text. -/
theorem separable_escapeChar (c d : Char) : Separable escapeChar (fun _ => false) c d := by
  intro r r' _ _ h
  have hread := congrArg readChar? h
  rw [readChar?_escapeChar, readChar?_escapeChar] at hread
  exact Prod.mk.inj (Option.some.inj hread)

theorem exists_escapeChar (c : Char) : ∃ d ds, escapeChar c = d :: ds ∧ (d != '"') = true := by
  unfold escapeChar
  split
  · exact ⟨_, _, rfl, rfl⟩
  · next h =>
    iterate 5
      split
      · exact ⟨_, _, rfl, rfl⟩
    split
    · exact ⟨c, [], rfl, by simp_all⟩
    · split <;> exact ⟨_, _, rfl, rfl⟩

theorem quote_append_inj {s t : String} {r r' : List Char}
    (h : (quote s).toList ++ r = (quote t).toList ++ r') : s = t ∧ r = r' := by
  simp only [quote, String.toList_ofList, List.cons_append, List.append_assoc] at h
  have hstop : ∀ cs : List Char, EndsRun (· != '"') ('"' :: cs) := endsRun_cons (by decide)
  obtain ⟨hchars, hrest⟩ := flatMap_append_inj (fun _ _ => rfl) (fun c _ => exists_escapeChar c)
    (fun c _ => exists_escapeChar c) (fun c _ d _ => separable_escapeChar c d) (fun _ _ => rfl)
    (fun _ _ => rfl) (hstop _) (hstop _) (List.tail_eq_of_cons_eq h)
  exact ⟨String.toList_inj.mp hchars, List.tail_eq_of_cons_eq hrest⟩

end Quotes

section Blocks

theorem toList_newline (level : Nat) : (newline level).toList = '\n' :: List.replicate (2 * level) ' ' :=
  String.toList_ofList

theorem toList_block_nil (left right : String) (level : Nat) :
    (block left right level []).toList = left.toList ++ right.toList := String.toList_append

theorem toList_block_cons (left right : String) (level : Nat) (item : String) (items : List String) :
    (block left right level (item :: items)).toList =
      left.toList ++ ((newline (level + 1)).toList ++
        ((join ("," ++ newline (level + 1)) (item :: items)).toList ++
          ((newline level).toList ++ right.toList))) := by
  simp only [block, List.isEmpty_cons, Bool.false_eq_true, if_false, String.toList_append, List.append_assoc]

variable {β : Type} {xs ys : List β} {r r' : List Char} {left right : String} {c : Char} {level : Nat}

theorem block_nil_append_ne (hc : right.toList = [c]) (hn : c ≠ '\n') (item : String) (items : List String) :
    (block left right level []).toList ++ r ≠ (block left right level (item :: items)).toList ++ r' := by
  intro h
  rw [toList_block_nil, toList_block_cons, hc, toList_newline] at h
  simp only [List.append_assoc] at h
  exact hn (List.head_eq_of_cons_eq (List.append_cancel_left h))

theorem block_append_inj {write : β → String} (hc : right.toList = [c]) (hn : c ≠ '\n')
    (hs : ∀ x ∈ xs, ∀ y ∈ ys, Separable (fun x => (write x).toList) isSolid x y)
    (h : (block left right level (xs.map write)).toList ++ r =
      (block left right level (ys.map write)).toList ++ r') : xs = ys ∧ r = r' := by
  cases xs with
  | nil =>
    cases ys with
    | nil => exact ⟨rfl, List.append_cancel_left h⟩
    | cons y ys => exact absurd h (block_nil_append_ne hc hn _ _)
  | cons x xs =>
    cases ys with
    | nil => exact absurd h.symm (block_nil_append_ne hc hn _ _)
    | cons y ys =>
      rw [List.map_cons, List.map_cons, toList_block_cons, toList_block_cons, ← List.map_cons,
        ← List.map_cons] at h
      simp only [List.append_assoc] at h
      -- The line break that ends the list is neither solid nor the comma of one more item.
      have hbreak : ∀ {p : Char → Bool} (cs : List Char), p '\n' = false →
          EndsRun p ((newline level).toList ++ cs) := by
        intro p cs hp
        rw [toList_newline]
        exact endsRun_cons hp _
      have hseparator : ("," ++ newline (level + 1)).toList =
          ',' :: '\n' :: List.replicate (2 * (level + 1)) ' ' := by
        rw [String.toList_append, toList_newline]
        rfl
      have hitems := List.append_cancel_left (List.append_cancel_left h)
      obtain ⟨hxy, hrest⟩ := join_append_inj hseparator (by decide) hs (iff_of_false nofun nofun)
        (hbreak _ (by decide)) (hbreak _ (by decide)) (hbreak _ (by decide)) (hbreak _ (by decide)) hitems
      exact ⟨hxy, List.append_cancel_left (List.append_cancel_left hrest)⟩

end Blocks

section Values

/-- A value whose numerals are solid, and none of them the name of the empty value. -/
inductive Legible : Json → Prop where
  | null : Legible .null
  | numeral {text : String} (hs : Solid text) (he : text ≠ "") (hn : text ≠ "null") : Legible (.numeral text)
  | string (text : String) : Legible (.string text)
  | array {items : List Json} (h : ∀ i ∈ items, Legible i) : Legible (.array items)
  | object {fields : List (String × Json)} (h : ∀ f ∈ fields, Legible f.2) : Legible (.object fields)

def opening : Json → Option Char
  | .null | .numeral _ => none
  | .string _ => some '"'
  | .array _ => some '['
  | .object _ => some '\x7b'

theorem writeItems_eq_map (level : Nat) (items : List Json) :
    writeItems level items = items.map (write level) := by
  induction items with
  | nil => rfl
  | cons item items ih => rw [writeItems, ih, List.map_cons]

theorem write_array (level : Nat) (items : List Json) :
    (array items).write level = block "[" "]" level (items.map (write (level + 1))) :=
  congrArg (block "[" "]" level) (writeItems_eq_map (level + 1) items)

def writeField (level : Nat) (f : String × Json) : String := quote f.1 ++ ": " ++ f.2.write level

theorem writeFields_eq_map (level : Nat) (fields : List (String × Json)) :
    writeFields level fields = fields.map (writeField level) := by
  induction fields with
  | nil => rfl
  | cons f fields ih => rw [writeFields, ih, List.map_cons, writeField]

theorem write_object (level : Nat) (fields : List (String × Json)) :
    (object fields).write level = block "\x7b" "\x7d" level (fields.map (writeField (level + 1))) :=
  congrArg (block "\x7b" "\x7d" level) (writeFields_eq_map (level + 1) fields)

theorem exists_block {left : String} {c : Char} (hl : left.toList = [c]) (right : String) (level : Nat)
    (items : List String) : ∃ cs, (block left right level items).toList = c :: cs := by
  cases items with
  | nil => exact ⟨_, by rw [toList_block_nil, hl]; rfl⟩
  | cons => exact ⟨_, by rw [toList_block_cons, hl]; rfl⟩

theorem exists_write {v : Json} (h : v.Legible) (level : Nat) :
    ∃ c cs, (v.write level).toList = c :: cs ∧ v.opening = if isSolid c then none else some c := by
  cases h with
  | null => exact ⟨'n', _, (by decide : ("null" : String).toList = ['n', 'u', 'l', 'l']), rfl⟩
  | @numeral text hs he hn =>
    have hne : text.toList ≠ [] := fun h => he (String.toList_eq_nil_iff.mp h)
    obtain ⟨c, cs, hc⟩ := List.exists_cons_of_ne_nil hne
    refine ⟨c, cs, hc, ?_⟩
    rw [if_pos (hs c (by rw [hc]; exact List.mem_cons_self))]
    rfl
  | string text => exact ⟨'"', _, String.toList_ofList, rfl⟩
  | array =>
    obtain ⟨cs, hcs⟩ := exists_block (by decide : ("[" : String).toList = ['[']) "]" level _
    exact ⟨_, cs, by rw [write_array, hcs], rfl⟩
  | object =>
    obtain ⟨cs, hcs⟩ := exists_block (by decide : ("\x7b" : String).toList = ['\x7b']) "\x7d" level _
    exact ⟨_, cs, by rw [write_object, hcs], rfl⟩

theorem opening_eq_of_write_append {v w : Json} (hv : v.Legible) (hw : w.Legible) {level : Nat}
    {r r' : List Char} (h : (v.write level).toList ++ r = (w.write level).toList ++ r') :
    v.opening = w.opening := by
  obtain ⟨c, cs, hc, ho⟩ := exists_write hv level
  obtain ⟨d, ds, hd, ho'⟩ := exists_write hw level
  rw [hc, hd] at h
  rw [ho, ho', List.head_eq_of_cons_eq h]

theorem separable_writeField {f g : String × Json} {level : Nat}
    (h : Separable (fun x => (x.write level).toList) isSolid f.2 g.2) :
    Separable (fun x => (writeField level x).toList) isSolid f g := by
  intro r r' hr hr' he
  simp only [writeField, String.toList_append, List.append_assoc] at he
  obtain ⟨hkey, hvalues⟩ := quote_append_inj he
  obtain ⟨hvalue, hrest⟩ := h hr hr' (List.append_cancel_left hvalues)
  exact ⟨Prod.ext hkey hvalue, hrest⟩

/-- Legible values are told apart by their texts at any level. -/
theorem separable_write {v : Json} (hv : v.Legible) :
    ∀ {w : Json}, w.Legible → ∀ level, Separable (fun x => (x.write level).toList) isSolid v w := by
  have hnull : Solid "null" := by decide
  induction hv with
  | null =>
    intro w hw level r r' hr hr' h
    have ho := opening_eq_of_write_append .null hw h
    cases hw with
    | null => exact ⟨rfl, List.append_cancel_left h⟩
    | numeral hs he hn => exact absurd (hnull.append_inj hs hr hr' h).1.symm hn
    | _ => cases ho
  | numeral hs he hn =>
    intro w hw level r r' hr hr' h
    have ho := opening_eq_of_write_append (.numeral hs he hn) hw h
    cases hw with
    | null => exact absurd (hs.append_inj hnull hr hr' h).1 hn
    | numeral hs' =>
      obtain ⟨htext, hrest⟩ := hs.append_inj hs' hr hr' h
      exact ⟨congrArg numeral htext, hrest⟩
    | _ => cases ho
  | string text =>
    intro w hw level r r' hr hr' h
    have ho := opening_eq_of_write_append (.string text) hw h
    cases hw with
    | string text' =>
      obtain ⟨htext, hrest⟩ := quote_append_inj h
      exact ⟨congrArg string htext, hrest⟩
    | _ => cases ho
  | array hi ih =>
    intro w hw level r r' hr hr' h
    have ho := opening_eq_of_write_append (.array hi) hw h
    cases hw with
    | array hi' =>
      simp only [write_array] at h
      obtain ⟨hitems, hrest⟩ := block_append_inj (by decide : ("]" : String).toList = [']']) (by decide)
        (fun x hx y hy => ih x hx (hi' y hy) (level + 1)) h
      exact ⟨congrArg array hitems, hrest⟩
    | _ => cases ho
  | object hf ih =>
    intro w hw level r r' hr hr' h
    have ho := opening_eq_of_write_append (.object hf) hw h
    cases hw with
    | object hf' =>
      simp only [write_object] at h
      obtain ⟨hfields, hrest⟩ := block_append_inj (by decide : ("\x7d" : String).toList = ['\x7d']) (by decide)
        (fun x hx y hy => separable_writeField (ih x hx (hf' y hy) (level + 1))) h
      exact ⟨congrArg object hfields, hrest⟩
    | _ => cases ho

theorem write_injective {v w : Json} (hv : v.Legible) (hw : w.Legible) {level : Nat}
    (h : v.write level = w.write level) : v = w := by
  have hl : (v.write level).toList ++ [] = (w.write level).toList ++ [] := by rw [h]
  exact (separable_write hv hw level (endsRun_nil _) (endsRun_nil _) hl).1

end Values

end Json

end Posterior.Text
