import Posterior.Proofs.Lexing.Munch
import Posterior.Text.Join

/-!
Texts that can be read in one way only. A value is written unambiguously if its text shows where it ends,
given what may follow it; lists of such values are then unambiguous too, with or without a separator, as
long as what follows the list cannot be taken for one more item.
-/

set_option autoImplicit false

namespace Posterior.Text

section Ends

variable {β γ : Type}

/-- A text at which a run of a class ends. -/
def EndsRun (p : γ → Bool) (cs : List γ) : Prop := ∀ c ∈ cs.head?, p c = false

theorem endsRun_nil (p : γ → Bool) : EndsRun p [] := nofun

theorem endsRun_cons {p : γ → Bool} {c : γ} (h : p c = false) (cs : List γ) : EndsRun p (c :: cs) := by
  intro d hd
  cases hd
  exact h

/-- Two values are told apart by their texts, whatever follows them, as long as it ends a run of `p`. -/
def Separable (write : β → List γ) (p : γ → Bool) (x y : β) : Prop :=
  ∀ ⦃r r' : List γ⦄, EndsRun p r → EndsRun p r' → write x ++ r = write y ++ r' → x = y ∧ r = r'

variable {p first : γ → Bool} {write : β → List γ} {xs ys : List β} {r r' : List γ}

theorem endsRun_flatMap (hp : ∀ c, first c = true → p c = false)
    (hx : ∀ x ∈ xs, ∃ c cs, write x = c :: cs ∧ first c = true) (hr : EndsRun p r) :
    EndsRun p (xs.flatMap write ++ r) := by
  cases xs with
  | nil => exact hr
  | cons x xs =>
    obtain ⟨c, cs, hw, hc⟩ := hx x List.mem_cons_self
    rw [List.flatMap_cons, hw]
    exact endsRun_cons (hp c hc) _

/-- Items one behind the other: each shows where it ends, and by its beginning that it is one. -/
theorem flatMap_append_inj (hp : ∀ c, first c = true → p c = false)
    (hx : ∀ x ∈ xs, ∃ c cs, write x = c :: cs ∧ first c = true)
    (hy : ∀ y ∈ ys, ∃ c cs, write y = c :: cs ∧ first c = true)
    (hs : ∀ x ∈ xs, ∀ y ∈ ys, Separable write p x y) (hr : EndsRun p r) (hr' : EndsRun p r')
    (hf : EndsRun first r) (hf' : EndsRun first r') (h : xs.flatMap write ++ r = ys.flatMap write ++ r') :
    xs = ys ∧ r = r' := by
  induction xs generalizing ys with
  | nil =>
    cases ys with
    | nil => exact ⟨rfl, h⟩
    | cons y ys =>
      obtain ⟨c, cs, hw, hc⟩ := hy y List.mem_cons_self
      rw [List.flatMap_nil, List.nil_append, List.flatMap_cons, hw] at h
      subst h
      cases hc.symm.trans (hf c rfl)
  | cons x xs ih =>
    cases ys with
    | nil =>
      obtain ⟨c, cs, hw, hc⟩ := hx x List.mem_cons_self
      rw [List.flatMap_nil, List.nil_append, List.flatMap_cons, hw] at h
      subst h
      cases hc.symm.trans (hf' c rfl)
    | cons y ys =>
      have hx' := fun a ha => hx a (List.mem_cons_of_mem x ha)
      have hy' := fun a ha => hy a (List.mem_cons_of_mem y ha)
      rw [List.flatMap_cons, List.flatMap_cons, List.append_assoc, List.append_assoc] at h
      -- Behind an item stands the beginning of another one or the rest; either ends a run of `p`.
      obtain ⟨rfl, hrest⟩ := hs x List.mem_cons_self y List.mem_cons_self (endsRun_flatMap hp hx' hr)
        (endsRun_flatMap hp hy' hr') h
      obtain ⟨rfl, he⟩ := ih hx' hy' (fun a ha b hb => hs a (List.mem_cons_of_mem _ ha) b
        (List.mem_cons_of_mem _ hb)) hrest
      exact ⟨rfl, he⟩

end Ends

theorem run_append_inj {p : Char → Bool} {cs ds r r' : List Char} (hc : ∀ c ∈ cs, p c = true)
    (hd : ∀ c ∈ ds, p c = true) (hr : EndsRun p r) (hr' : EndsRun p r') (h : cs ++ r = ds ++ r') :
    cs = ds ∧ r = r' := by
  have hcs : (cs ++ r).takeWhile p = cs := takeWhile_append_stop hc hr
  have hds : (ds ++ r').takeWhile p = ds := takeWhile_append_stop hd hr'
  have he : cs = ds := by rw [← hcs, h, hds]
  subst he
  exact ⟨rfl, List.append_cancel_left h⟩

section Lists

variable {β : Type} {p : Char → Bool} {xs ys : List β} {r r' : List Char}

theorem toList_join_cons (separator s : String) (ss : List String) :
    (join separator (s :: ss)).toList = s.toList ++ ss.flatMap fun t => separator.toList ++ t.toList := by
  induction ss generalizing s with
  | nil => simp
  | cons t ss ih => simp [join_cons_cons, ih]

/-- Items with a separator between them, as long as the separator shows by its first character that the item
before it has ended and that the list has not. -/
theorem join_append_inj {write : β → String} {separator : String} {c : Char} {cs : List Char}
    (hc : separator.toList = c :: cs) (hp : p c = false)
    (hs : ∀ x ∈ xs, ∀ y ∈ ys, Separable (fun x => (write x).toList) p x y) (hn : xs = [] ↔ ys = [])
    (hr : EndsRun p r) (hr' : EndsRun p r') (hf : EndsRun (· == c) r) (hf' : EndsRun (· == c) r')
    (h : (join separator (xs.map write)).toList ++ r = (join separator (ys.map write)).toList ++ r') :
    xs = ys ∧ r = r' := by
  cases xs with
  | nil =>
    obtain rfl := hn.mp rfl
    exact ⟨rfl, h⟩
  | cons x xs =>
    cases ys with
    | nil => cases hn.mpr rfl
    | cons y ys =>
      let tail : β → List Char := fun x => separator.toList ++ (write x).toList
      have hfirst : ∀ d, (d == c) = true → p d = false := fun d hd => eq_of_beq hd ▸ hp
      have hstart : ∀ zs : List β, ∀ x ∈ zs, ∃ d ds, tail x = d :: ds ∧ (d == c) = true :=
        fun _ x _ => ⟨c, cs ++ (write x).toList, by simp [tail, hc], beq_self_eq_true c⟩
      rw [List.map_cons, List.map_cons, toList_join_cons, toList_join_cons, List.flatMap_map,
        List.flatMap_map, List.append_assoc, List.append_assoc] at h
      obtain ⟨rfl, hrest⟩ := hs x List.mem_cons_self y List.mem_cons_self
        (endsRun_flatMap hfirst (hstart xs) hr) (endsRun_flatMap hfirst (hstart ys) hr') h
      have htail : ∀ a ∈ xs, ∀ b ∈ ys, Separable tail p a b := by
        intro a ha b hb s s' ht ht' he
        rw [List.append_assoc, List.append_assoc] at he
        exact hs a (List.mem_cons_of_mem _ ha) b (List.mem_cons_of_mem _ hb) ht ht'
          (List.append_cancel_left he)
      obtain ⟨rfl, he⟩ := flatMap_append_inj hfirst (hstart xs) (hstart ys) htail hr hr' hf hf' hrest
      exact ⟨rfl, he⟩

end Lists

def isSolid (c : Char) : Bool := c.isAlphanum || c ∈ ['_', '.', '+', '-', '*', '/']

def Solid (s : String) : Prop := ∀ c ∈ s.toList, isSolid c = true

instance (s : String) : Decidable (Solid s) :=
  decidable_of_iff (s.toList.all isSolid = true) List.all_eq_true

theorem Solid.append_inj {s t : String} (hs : Solid s) (ht : Solid t) {r r' : List Char}
    (hr : EndsRun isSolid r) (hr' : EndsRun isSolid r') (h : s.toList ++ r = t.toList ++ r') :
    s = t ∧ r = r' := by
  obtain ⟨he, hrest⟩ := run_append_inj hs ht hr hr' h
  exact ⟨String.toList_inj.mp he, hrest⟩

end Posterior.Text
