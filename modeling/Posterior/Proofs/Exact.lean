import Mathlib.Analysis.SpecialFunctions.Log.Basic
import Mathlib.Analysis.SpecialFunctions.Trigonometric.Basic
import Mathlib.Data.EReal.Basic
import Mathlib.Data.Sign.Basic
import Posterior.Arithmetic

/-!
Exact numbers: floating point with no rounding. The reals are taken with the two infinities and with what is
not a number, by the rules of floating point but for the sign of zero, of which there is one.
-/

set_option autoImplicit false

namespace Posterior

inductive Extended where
  | nan
  | negInf
  | finite (x : ℝ)
  | posInf

namespace Extended

/-- Where a number stands among the extended reals. What is not a number stands nowhere. -/
noncomputable def rank : Extended → Option EReal
  | nan => none
  | negInf => some ⊥
  | finite x => some x
  | posInf => some ⊤

open Classical in
noncomputable def compare (r : EReal → EReal → Prop) (x y : Extended) : Bool :=
  decide (∃ a b, x.rank = some a ∧ y.rank = some b ∧ r a b)

noncomputable def sign : Extended → SignType
  | nan => 0
  | negInf => -1
  | finite x => SignType.sign x
  | posInf => 1

def ofSign : SignType → Extended
  | .neg => negInf
  | .zero => nan
  | .pos => posInf

protected noncomputable def add : Extended → Extended → Extended
  | finite x, finite y => finite (x + y)
  | finite _, y => y
  | x, finite _ => x
  | negInf, negInf => negInf
  | posInf, posInf => posInf
  | _, _ => nan

protected noncomputable def neg : Extended → Extended
  | nan => nan
  | negInf => posInf
  | finite x => finite (-x)
  | posInf => negInf

protected noncomputable def mul : Extended → Extended → Extended
  | finite x, finite y => finite (x * y)
  | x, y => ofSign (x.sign * y.sign)

open Classical in
protected noncomputable def div : Extended → Extended → Extended
  | finite x, finite y => if y = 0 then ofSign (SignType.sign x) else finite (x / y)
  | finite _, negInf | finite _, posInf => finite 0
  | x, finite y => ofSign (x.sign * if y = 0 then 1 else SignType.sign y)
  | _, _ => nan

protected noncomputable def exp : Extended → Extended
  | nan => nan
  | negInf => finite 0
  | finite x => finite (Real.exp x)
  | posInf => posInf

open Classical in
protected noncomputable def log : Extended → Extended
  | nan | negInf => nan
  | finite x => if x < 0 then nan else if x = 0 then negInf else finite (Real.log x)
  | posInf => posInf

open Classical in
protected noncomputable def sqrt : Extended → Extended
  | nan | negInf => nan
  | finite x => if x < 0 then nan else finite (Real.sqrt x)
  | posInf => posInf

protected noncomputable def abs : Extended → Extended
  | nan => nan
  | finite x => finite |x|
  | negInf | posInf => posInf

def isFinite : Extended → Bool
  | finite _ => true
  | nan | negInf | posInf => false

noncomputable instance : Arithmetic Extended where
  add := Extended.add
  sub x y := Extended.add x (Extended.neg y)
  mul := Extended.mul
  div := Extended.div
  neg := Extended.neg
  ofDecimal digits places := finite (digits / 10 ^ places)
  pi := finite Real.pi
  negInf := negInf
  exp := Extended.exp
  log := Extended.log
  sqrt := Extended.sqrt
  abs := Extended.abs
  square x := Extended.mul x x
  lt := compare (· < ·)
  le := compare (· ≤ ·)
  eq := compare (· = ·)
  isFinite := isFinite

section Finite

variable (x y : ℝ)

@[simp] theorem ofNat_eq (n : Nat) : (Arithmetic.ofNat n : Extended) = finite n :=
  congrArg finite (by rw [pow_zero, div_one])

@[simp] theorem zero_eq : (Arithmetic.zero : Extended) = finite 0 :=
  (ofNat_eq 0).trans (by rw [Nat.cast_zero])

@[simp] theorem one_eq : (Arithmetic.one : Extended) = finite 1 :=
  (ofNat_eq 1).trans (by rw [Nat.cast_one])

@[simp] theorem half_eq : (Arithmetic.half : Extended) = finite (1 / 2) :=
  congrArg finite (by norm_num)

@[simp] theorem pi_eq : (Arithmetic.pi : Extended) = finite Real.pi := rfl

@[simp] theorem negInf_eq : (Arithmetic.negInf : Extended) = negInf := rfl

@[simp] theorem finite_add : finite x + finite y = finite (x + y) := rfl

@[simp] theorem finite_sub : finite x - finite y = finite (x - y) :=
  congrArg finite (sub_eq_add_neg x y).symm

@[simp] theorem finite_neg : -finite x = finite (-x) := rfl

@[simp] theorem finite_mul : finite x * finite y = finite (x * y) := rfl

theorem finite_div {y : ℝ} (hy : y ≠ 0) : finite x / finite y = finite (x / y) := if_neg hy

open Classical in
theorem nan_div (y : Extended) : nan / y = nan := by
  cases y with
  | finite y => exact congrArg ofSign (zero_mul (if y = 0 then 1 else SignType.sign y))
  | nan | negInf | posInf => rfl

@[simp] theorem exp_finite : Arithmetic.exp (finite x) = finite (Real.exp x) := rfl

theorem sqrt_finite {x : ℝ} (hx : 0 ≤ x) : Arithmetic.sqrt (finite x) = finite (Real.sqrt x) :=
  if_neg (not_lt.mpr hx)

theorem log_finite {x : ℝ} (hx : 0 < x) : Arithmetic.log (finite x) = finite (Real.log x) := by
  have hn : ¬ x < 0 := not_lt.mpr hx.le
  exact (if_neg hn).trans (if_neg hx.ne')

@[simp] theorem isFinite_iff {x : Extended} : Arithmetic.isFinite x = true ↔ ∃ r, x = finite r := by
  cases x with
  | finite r => exact ⟨fun _ => ⟨r, rfl⟩, fun _ => rfl⟩
  | nan | negInf | posInf => exact ⟨nofun, nofun⟩

end Finite

section Order

variable {x y z : Extended}

open Classical in
theorem compare_eq_true_iff {r : EReal → EReal → Prop} :
    compare r x y = true ↔ ∃ a b, x.rank = some a ∧ y.rank = some b ∧ r a b :=
  decide_eq_true_iff

theorem lt_iff : Arithmetic.lt x y = true ↔ ∃ a b, x.rank = some a ∧ y.rank = some b ∧ a < b :=
  compare_eq_true_iff

theorem le_iff : Arithmetic.le x y = true ↔ ∃ a b, x.rank = some a ∧ y.rank = some b ∧ a ≤ b :=
  compare_eq_true_iff

@[simp] theorem lt_finite {x y : ℝ} : Arithmetic.lt (finite x) (finite y) = true ↔ x < y := by
  simp [lt_iff, rank]

@[simp] theorem le_finite {x y : ℝ} : Arithmetic.le (finite x) (finite y) = true ↔ x ≤ y := by
  simp [le_iff, rank]

theorem rank_injective (h : x.rank = y.rank) : x = y := by
  cases x <;> cases y <;> simp_all [rank]

theorem exists_rank (hx : x ≠ nan) : ∃ a, x.rank = some a := by
  cases x with
  | nan => exact absurd rfl hx
  | negInf | finite | posInf => exact ⟨_, rfl⟩

theorem eq_iff : Arithmetic.eq x y = true ↔ x ≠ nan ∧ x = y := by
  have hrank : Arithmetic.eq x y = true ↔ ∃ a b, x.rank = some a ∧ y.rank = some b ∧ a = b :=
    compare_eq_true_iff
  rw [hrank]
  constructor
  · rintro ⟨a, _, hx, hy, rfl⟩
    refine ⟨?_, rank_injective (hx.trans hy.symm)⟩
    rintro rfl
    cases hx
  · rintro ⟨hn, rfl⟩
    obtain ⟨a, ha⟩ := exists_rank hn
    exact ⟨a, a, ha, ha, rfl⟩

theorem isNaN_iff : Arithmetic.isNaN x = true ↔ x = nan := by
  have h := @eq_iff x x
  unfold Arithmetic.isNaN
  rw [Bool.not_eq_true', ← Bool.not_eq_true, h]
  tauto

theorem le_trans (h : Arithmetic.le x y = true) (h' : Arithmetic.le y z = true) :
    Arithmetic.le x z = true := by
  obtain ⟨a, b, hx, hy, hab⟩ := le_iff.mp h
  obtain ⟨b', c, hy', hz, hbc⟩ := le_iff.mp h'
  cases hy.symm.trans hy'
  exact le_iff.mpr ⟨a, c, hx, hz, hab.trans hbc⟩

theorem ne_nan_of_le (h : Arithmetic.le x y = true) : x ≠ nan ∧ y ≠ nan := by
  obtain ⟨a, b, hx, hy, -⟩ := le_iff.mp h
  constructor
  · rintro rfl
    cases hx
  · rintro rfl
    cases hy

theorem le_of_not_le (hx : x ≠ nan) (hy : y ≠ nan) (h : ¬ Arithmetic.le y x = true) :
    Arithmetic.le x y = true := by
  obtain ⟨a, ha⟩ := exists_rank hx
  obtain ⟨b, hb⟩ := exists_rank hy
  refine le_iff.mpr ⟨a, b, ha, hb, le_of_not_ge fun hba => h ?_⟩
  exact le_iff.mpr ⟨b, a, hb, ha, hba⟩

theorem kept_iff {P : Extended → Prop} {keep : Bool} (hn : ¬ P nan) (hkeep : keep = true → P x → P y)
    (hdrop : x ≠ nan → y ≠ nan → ¬ keep = true → P y → P x) :
    P (if Arithmetic.isNaN x || keep then x else y) ↔ P x ∧ P y := by
  by_cases hx : x = nan
  · have hb : (Arithmetic.isNaN x || keep) = true := by rw [isNaN_iff.mpr hx, Bool.true_or]
    rw [if_pos hb, hx]
    exact ⟨fun h => absurd h hn, fun h => h.1⟩
  · have hf : Arithmetic.isNaN x = false := Bool.eq_false_iff.mpr fun h => hx (isNaN_iff.mp h)
    rw [hf, Bool.false_or]
    by_cases hk : keep = true
    · rw [if_pos hk]
      exact ⟨fun h => ⟨h, hkeep hk h⟩, fun h => h.1⟩
    · rw [if_neg hk]
      refine ⟨fun h => ⟨hdrop hx ?_ hk h, h⟩, fun h => h.2⟩
      rintro rfl
      exact hn h

theorem max_le_iff : Arithmetic.le (Arithmetic.max x y) z = true ↔
    Arithmetic.le x z = true ∧ Arithmetic.le y z = true :=
  kept_iff (P := fun w => Arithmetic.le w z = true) (fun h => (ne_nan_of_le h).1 rfl)
    (fun hk h => le_trans hk h) (fun hx hy hk h => le_trans (le_of_not_le hx hy hk) h)

theorem le_min_iff : Arithmetic.le z (Arithmetic.min x y) = true ↔
    Arithmetic.le z x = true ∧ Arithmetic.le z y = true :=
  kept_iff (P := fun w => Arithmetic.le z w = true) (fun h => (ne_nan_of_le h).2 rfl)
    (fun hk h => le_trans h hk) (fun hx hy hk h => le_trans h (le_of_not_le hy hx hk))

end Order

section Range

variable {xs : List Extended}

theorem foldl_kept {f : Extended → Extended → Extended} (hf : ∀ x y, f x y = x ∨ f x y = y) (x : Extended)
    (xs : List Extended) :
    xs.foldl f x ∈ x :: xs ∧
      ∀ P : Extended → Prop, (∀ x y, P (f x y) ↔ P x ∧ P y) → (P (xs.foldl f x) ↔ ∀ y ∈ x :: xs, P y) := by
  induction xs generalizing x with
  | nil => exact ⟨List.mem_cons_self, fun P _ => List.forall_mem_singleton.symm⟩
  | cons y ys ih =>
    obtain ⟨hmem, hiff⟩ := ih (f x y)
    rw [List.foldl_cons]
    constructor
    · rcases List.mem_cons.mp hmem with h | h
      · rcases hf x y with hx | hy
        · exact List.mem_cons.mpr (.inl (h.trans hx))
        · exact List.mem_cons_of_mem _ (List.mem_cons.mpr (.inl (h.trans hy)))
      · exact List.mem_cons_of_mem _ (List.mem_cons_of_mem _ h)
    · intro P hP
      rw [hiff P hP]
      simp only [List.forall_mem_cons, hP, and_assoc]

theorem mem_of_maximum {top : Extended} (h : Arithmetic.maximum xs = some top) :
    top ∈ xs ∧ ∀ z, Arithmetic.le top z = true ↔ ∀ x ∈ xs, Arithmetic.le x z = true := by
  cases xs with
  | nil => cases h
  | cons x xs =>
    cases h
    have hmax (x y : Extended) : Arithmetic.max x y = x ∨ Arithmetic.max x y = y := ite_eq_or_eq _ _ _
    obtain ⟨hmem, hiff⟩ := foldl_kept hmax x xs
    exact ⟨hmem, fun z => hiff (fun w => Arithmetic.le w z = true) fun _ _ => max_le_iff⟩

theorem mem_of_minimum {least : Extended} (h : Arithmetic.minimum xs = some least) :
    least ∈ xs ∧ ∀ z, Arithmetic.le z least = true ↔ ∀ x ∈ xs, Arithmetic.le z x = true := by
  cases xs with
  | nil => cases h
  | cons x xs =>
    cases h
    have hmin (x y : Extended) : Arithmetic.min x y = x ∨ Arithmetic.min x y = y := ite_eq_or_eq _ _ _
    obtain ⟨hmem, hiff⟩ := foldl_kept hmin x xs
    exact ⟨hmem, fun z => hiff (fun w => Arithmetic.le z w = true) fun _ _ => le_min_iff⟩

end Range

section Lists

theorem sum_finite (xs : List ℝ) : Arithmetic.sum (xs.map finite) = finite xs.sum := by
  have hfold (a : ℝ) : (xs.map finite).foldl (· + ·) (finite a) = finite (a + xs.sum) := by
    induction xs generalizing a with
    | nil => rw [List.sum_nil, add_zero]; rfl
    | cons x xs ih =>
      rw [List.map_cons, List.foldl_cons, finite_add, ih, List.sum_cons, add_assoc]
  rw [Arithmetic.sum, zero_eq, hfold, zero_add]

/-- Numbers that compare like what they stand for have their greatest where that has it. -/
theorem exists_maximum {β : Type} [Preorder β] {f : β → Extended} {xs : List β}
    (hf : ∀ a b, Arithmetic.le (f a) (f b) = true ↔ a ≤ b) (h : xs ≠ []) :
    ∃ top, Arithmetic.maximum (xs.map f) = some (f top) ∧ IsGreatest {x | x ∈ xs} top := by
  obtain ⟨x, xs, rfl⟩ := List.exists_cons_of_ne_nil h
  have htop : Arithmetic.maximum ((x :: xs).map f) = some _ := rfl
  obtain ⟨hmem, hle⟩ := mem_of_maximum htop
  obtain ⟨top, hx, heq⟩ := List.mem_map.mp hmem
  refine ⟨top, htop.trans (congrArg some heq.symm), hx, fun y hy => ?_⟩
  rw [← heq] at hle
  exact (hf y top).mp ((hle _).mp ((hf top top).mpr le_rfl) _ (List.mem_map_of_mem hy))

theorem exists_minimum {β : Type} [Preorder β] {f : β → Extended} {xs : List β}
    (hf : ∀ a b, Arithmetic.le (f a) (f b) = true ↔ a ≤ b) (h : xs ≠ []) :
    ∃ least, Arithmetic.minimum (xs.map f) = some (f least) ∧ IsLeast {x | x ∈ xs} least := by
  obtain ⟨x, xs, rfl⟩ := List.exists_cons_of_ne_nil h
  have hleast : Arithmetic.minimum ((x :: xs).map f) = some _ := rfl
  obtain ⟨hmem, hle⟩ := mem_of_minimum hleast
  obtain ⟨least, hx, heq⟩ := List.mem_map.mp hmem
  refine ⟨least, hleast.trans (congrArg some heq.symm), hx, fun y hy => ?_⟩
  rw [← heq] at hle
  exact (hf least y).mp ((hle _).mp ((hf least least).mpr le_rfl) _ (List.mem_map_of_mem hy))

end Lists

theorem exists_map {β γ : Type} {f : β → γ} {ys : List γ} (h : ∀ y ∈ ys, ∃ x, y = f x) :
    ∃ xs : List β, ys = xs.map f := by
  have hrange : ys ∈ Set.range (List.map f) := by
    rw [Set.range_list_map]
    exact fun y hy => (h y hy).imp fun _ => Eq.symm
  exact hrange.imp fun _ => Eq.symm

end Extended

end Posterior
