import Packrat.Calculator.Arithmetic
import Packrat.Decimal
import Mathlib.Algebra.Order.Ring.Int

/-!
# `Packrat.Proofs.Arithmetic` — the operators are exact

Each operator tests beforehand whether its result leaves the 64-bit numbers. The tests compute with 64-bit numbers
themselves, in ways that cannot leave them.

## Contents
- **Exact results.** `Operator.exact`, on all integers, with division rounding toward zero.
- **Tests.** Each test answers whether the exact result fits.
- **Operators.** `apply_eq`: an operator yields the exact result, or the fault that says why it does not.
- **Steps.** `stepwise` applies an operator with a function that carries out each operation on the way. What that
  function does where a result does not fit is of no account: `stepwise_eq`.
- **Exactness.** `apply_exact`.
-/

namespace Packrat.Calculator

/-! ## Exact results -/

/-- What an operator stands for on all integers. -/
def Operator.exact : Operator → Int → Int → Int
  | .add, a, b => a + b
  | .sub, a, b => a - b
  | .mul, a, b => a * b
  | .div, a, b => a.tdiv b

theorem fits_iff {n : Int} : Decimal.fits n = true ↔ -2 ^ 63 ≤ n ∧ n < 2 ^ 63 := by
  unfold Decimal.fits
  rw [Bool.and_eq_true, decide_eq_true_eq, decide_eq_true_eq, Int64.toInt_minValue, Int64.toInt_maxValue]
  omega

theorem fits_toInt (n : Int64) : Decimal.fits n.toInt = true := fits_iff.mpr ⟨n.le_toInt, n.toInt_lt⟩

/-- A number that fits is not changed by wrapping it around. -/
theorem bmod_of_fits {n : Int} (h : Decimal.fits n = true) : n.bmod (2 ^ 64) = n := by
  rw [fits_iff] at h
  exact Int.bmod_eq_of_le (by omega) (by omega)

theorem toInt_ofInt_of_fits {n : Int} (h : Decimal.fits n = true) : (Int64.ofInt n).toInt = n := by
  rw [Int64.toInt_ofInt]
  exact bmod_of_fits h

/-- A 64-bit number is determined by the integer that it stands for. -/
theorem eq_ofInt {n : Int64} {m : Int} (h : n.toInt = m.bmod (2 ^ 64)) : n = Int64.ofInt m := by
  rw [← Int64.toInt_inj, Int64.toInt_ofInt]
  exact h

theorem toInt_largest : largest.toInt = 2 ^ 63 - 1 := Int64.toInt_maxValue

theorem toInt_smallest : smallest.toInt = -2 ^ 63 := Int64.toInt_minValue

/-! ## Tests -/

section Tests

variable {l r : Int64}

theorem toInt_sub_of_fits (h : Decimal.fits (l.toInt - r.toInt) = true) : (l - r).toInt = l.toInt - r.toInt := by
  rw [Int64.toInt_sub, bmod_of_fits h]

theorem toInt_add_of_fits (h : Decimal.fits (l.toInt + r.toInt) = true) : (l + r).toInt = l.toInt + r.toInt := by
  rw [Int64.toInt_add, bmod_of_fits h]

theorem fits_largest_sub (hr : 0 < r.toInt) : Decimal.fits (largest.toInt - r.toInt) = true := by
  have hbound := r.toInt_lt
  rw [fits_iff, toInt_largest]
  omega

theorem fits_smallest_sub (hr : r.toInt < 0) : Decimal.fits (smallest.toInt - r.toInt) = true := by
  have hbound := r.le_toInt
  rw [fits_iff, toInt_smallest]
  omega

theorem fits_largest_add (hr : r.toInt < 0) : Decimal.fits (largest.toInt + r.toInt) = true := by
  have hbound := r.le_toInt
  rw [fits_iff, toInt_largest]
  omega

theorem fits_smallest_add (hr : 0 < r.toInt) : Decimal.fits (smallest.toInt + r.toInt) = true := by
  have hbound := r.toInt_lt
  rw [fits_iff, toInt_smallest]
  omega

theorem addOverflows_eq (l r : Int64) : addOverflows l r = !Decimal.fits (l.toInt + r.toInt) := by
  have hl := fits_iff.mp (fits_toInt l)
  have hr := fits_iff.mp (fits_toInt r)
  have hupper : 0 < r.toInt → (largest - r).toInt = 2 ^ 63 - 1 - r.toInt := by
    intro hpos
    rw [toInt_sub_of_fits (fits_largest_sub hpos), toInt_largest]
  have hlower : r.toInt < 0 → (smallest - r).toInt = -2 ^ 63 - r.toInt := by
    intro hneg
    rw [toInt_sub_of_fits (fits_smallest_sub hneg), toInt_smallest]
  rw [Bool.eq_iff_iff, Bool.not_eq_true', ← Bool.not_eq_true, fits_iff]
  simp only [addOverflows, Bool.or_eq_true, Bool.and_eq_true, decide_eq_true_eq, Int64.lt_iff_toInt_lt,
    Int64.toInt_zero]
  omega

theorem subOverflows_eq (l r : Int64) : subOverflows l r = !Decimal.fits (l.toInt - r.toInt) := by
  have hl := fits_iff.mp (fits_toInt l)
  have hr := fits_iff.mp (fits_toInt r)
  have hupper : r.toInt < 0 → (largest + r).toInt = 2 ^ 63 - 1 + r.toInt := by
    intro hneg
    rw [toInt_add_of_fits (fits_largest_add hneg), toInt_largest]
  have hlower : 0 < r.toInt → (smallest + r).toInt = -2 ^ 63 + r.toInt := by
    intro hpos
    rw [toInt_add_of_fits (fits_smallest_add hpos), toInt_smallest]
  rw [Bool.eq_iff_iff, Bool.not_eq_true', ← Bool.not_eq_true, fits_iff]
  simp only [subOverflows, Bool.or_eq_true, Bool.and_eq_true, decide_eq_true_eq, Int64.lt_iff_toInt_lt,
    Int64.toInt_zero]
  omega

/-- A quotient rounded toward zero fits, unless it is that of the smallest number by -1. -/
theorem fits_tdiv {a b : Int} (ha : Decimal.fits a = true) (h : a ≠ -2 ^ 63 ∨ b ≠ -1) :
    Decimal.fits (a.tdiv b) = true := by
  rw [fits_iff] at ha ⊢
  have habs : (a.tdiv b).natAbs = a.natAbs / b.natAbs := Int.natAbs_tdiv a b
  have hle : a.natAbs / b.natAbs ≤ a.natAbs := Nat.div_le_self _ _
  by_cases hsmallest : a = -2 ^ 63
  · have hdivisor : b ≠ -1 := h.resolve_left fun hne => hne hsmallest
    by_cases hone : b = 1
    · rw [hone, Int.tdiv_one]
      omega
    · by_cases hzero : b = 0
      · rw [hzero, Int.tdiv_zero]
        omega
      · have hhalf : a.natAbs / b.natAbs ≤ a.natAbs / 2 := Nat.div_le_div_left (by omega) (by omega)
        omega
  · omega

/-- The quotient of the largest number by any other fits. -/
theorem fits_largest_div (r : Int64) : Decimal.fits (largest.toInt.tdiv r.toInt) = true := by
  refine fits_tdiv (fits_toInt _) (.inl ?_)
  rw [toInt_largest]
  decide

/-- The quotient of the smallest number by a positive one fits. -/
theorem fits_smallest_div (hr : 0 < r.toInt) : Decimal.fits (smallest.toInt.tdiv r.toInt) = true :=
  fits_tdiv (fits_toInt _) (.inr (by omega))

theorem toInt_div_of_fits (h : Decimal.fits (l.toInt.tdiv r.toInt) = true) :
    (l / r).toInt = l.toInt.tdiv r.toInt := by
  rw [Int64.toInt_div, bmod_of_fits h]

/-- A quotient of the largest number by a positive one lies below a number exactly if the product is too
large. -/
theorem largest_div_lt (hr : 0 < r.toInt) : (largest / r).toInt < l.toInt ↔ 2 ^ 63 - 1 < l.toInt * r.toInt := by
  rw [toInt_div_of_fits (fits_largest_div r), toInt_largest, Int.tdiv_eq_ediv_of_nonneg (by decide),
    Int.ediv_lt_iff_lt_mul hr]

/-- A quotient of the smallest number by a positive one lies above a number exactly if the product is too
small. -/
theorem lt_smallest_div (hr : 0 < r.toInt) : l.toInt < (smallest / r).toInt ↔ l.toInt * r.toInt < -2 ^ 63 := by
  have hneg : (-l.toInt) * r.toInt = -(l.toInt * r.toInt) := Int.neg_mul _ _
  have hflip : l.toInt < -((2 ^ 63 : Int) / r.toInt) ↔ (2 ^ 63 : Int) / r.toInt < -l.toInt := by omega
  rw [toInt_div_of_fits (fits_smallest_div hr), toInt_smallest, Int.neg_tdiv,
    Int.tdiv_eq_ediv_of_nonneg (by decide), hflip, Int.ediv_lt_iff_lt_mul hr, hneg]
  omega

/-- A quotient of the largest number by a negative one lies above a number exactly if the product is too
large. -/
theorem lt_largest_div (hr : r.toInt < 0) : l.toInt < (largest / r).toInt ↔ 2 ^ 63 - 1 < l.toInt * r.toInt := by
  have hquotient : (2 ^ 63 - 1 : Int).tdiv r.toInt = -((2 ^ 63 - 1 : Int) / (-r.toInt)) := by
    rw [← Int.tdiv_eq_ediv_of_nonneg (by decide), Int.tdiv_neg, Int.neg_neg]
  have hproduct : (-l.toInt) * (-r.toInt) = l.toInt * r.toInt := Int.neg_mul_neg _ _
  have hflip : l.toInt < -((2 ^ 63 - 1 : Int) / (-r.toInt)) ↔ (2 ^ 63 - 1 : Int) / (-r.toInt) < -l.toInt := by
    omega
  rw [toInt_div_of_fits (fits_largest_div r), toInt_largest, hquotient, hflip,
    Int.ediv_lt_iff_lt_mul (by omega), hproduct]

theorem mulOverflows_eq (l r : Int64) : mulOverflows l r = !Decimal.fits (l.toInt * r.toInt) := by
  rw [Bool.eq_iff_iff, Bool.not_eq_true', ← Bool.not_eq_true, fits_iff]
  simp only [mulOverflows]
  by_cases hzero : l.toInt = 0 ∨ r.toInt = 0
  · have hproduct : l.toInt * r.toInt = 0 := Int.mul_eq_zero.mpr hzero
    have htest : (l == 0 || r == 0) = true := by
      rw [Bool.or_eq_true, beq_iff_eq, beq_iff_eq, ← Int64.toInt_inj, ← Int64.toInt_inj]
      exact hzero
    rw [if_pos htest, hproduct]
    decide
  · have htest : ¬(l == 0 || r == 0) = true := by
      rw [Bool.or_eq_true, beq_iff_eq, beq_iff_eq, ← Int64.toInt_inj, ← Int64.toInt_inj]
      exact hzero
    rw [if_neg htest]
    rw [not_or] at hzero
    have hcomm : r.toInt * l.toInt = l.toInt * r.toInt := Int.mul_comm _ _
    simp only [Int64.lt_iff_toInt_lt, Int64.toInt_zero]
    -- each pair of signs has its own test against a quotient; the product is positive in two of them
    by_cases hl : 0 < l.toInt
    · by_cases hr : 0 < r.toInt
      · have hpos : 0 < l.toInt * r.toInt := Int.mul_pos hl hr
        rw [if_pos hl, if_pos hr, decide_eq_true_eq, largest_div_lt hr]
        omega
      · have hneg : l.toInt * r.toInt < 0 := Int.mul_neg_of_pos_of_neg hl (by omega)
        rw [if_pos hl, if_neg hr, decide_eq_true_eq, lt_smallest_div hl, hcomm]
        omega
    · by_cases hr : 0 < r.toInt
      · have hneg : l.toInt * r.toInt < 0 := Int.mul_neg_of_neg_of_pos (by omega) hr
        rw [if_neg hl, if_pos hr, decide_eq_true_eq, lt_smallest_div hr]
        omega
      · have hpos : 0 < l.toInt * r.toInt := Int.mul_pos_of_neg_of_neg (by omega) (by omega)
        rw [if_neg hl, if_neg hr, decide_eq_true_eq, lt_largest_div (by omega), hcomm]
        omega

theorem divOverflows_eq (l r : Int64) :
    (l == smallest && r == -1) = !Decimal.fits (l.toInt.tdiv r.toInt) := by
  have hextreme : (l == smallest && r == -1) = true ↔ l.toInt = -2 ^ 63 ∧ r.toInt = -1 := by
    rw [Bool.and_eq_true, beq_iff_eq, beq_iff_eq, ← Int64.toInt_inj, ← Int64.toInt_inj, toInt_smallest]
    rfl
  rw [Bool.eq_iff_iff, hextreme]
  by_cases hout : l.toInt = -2 ^ 63 ∧ r.toInt = -1
  · rw [hout.1, hout.2]
    decide
  · rw [fits_tdiv (fits_toInt l) (by omega), Bool.not_true]
    exact ⟨fun h => absurd h hout, fun h => absurd h Bool.false_ne_true⟩

end Tests

/-! ## Operators -/

/-- An operator yields the exact result if that fits, and otherwise says why not. -/
theorem apply_eq (op : Operator) (l r : Int64) :
    apply op l r =
      if op = .div ∧ r.toInt = 0 then .error .divisionByZero
      else if Decimal.fits (op.exact l.toInt r.toInt) then .ok (Int64.ofInt (op.exact l.toInt r.toInt))
      else .error .overflow := by
  cases op with
  | add =>
    have hsum : l + r = Int64.ofInt (l.toInt + r.toInt) := eq_ofInt (Int64.toInt_add l r)
    rw [if_neg (by simp), apply, addOverflows_eq, hsum]
    cases hfits : Decimal.fits (l.toInt + r.toInt) <;> simp [Operator.exact, hfits]
  | sub =>
    have hdifference : l - r = Int64.ofInt (l.toInt - r.toInt) := eq_ofInt (Int64.toInt_sub l r)
    rw [if_neg (by simp), apply, subOverflows_eq, hdifference]
    cases hfits : Decimal.fits (l.toInt - r.toInt) <;> simp [Operator.exact, hfits]
  | mul =>
    have hproduct : l * r = Int64.ofInt (l.toInt * r.toInt) := eq_ofInt (Int64.toInt_mul l r)
    rw [if_neg (by simp), apply, mulOverflows_eq, hproduct]
    cases hfits : Decimal.fits (l.toInt * r.toInt) <;> simp [Operator.exact, hfits]
  | div =>
    have hquotient : l / r = Int64.ofInt (l.toInt.tdiv r.toInt) := eq_ofInt (Int64.toInt_div l r)
    have hzero : (r == 0) = true ↔ r.toInt = 0 := by rw [beq_iff_eq, ← Int64.toInt_inj]; rfl
    rw [apply, divOverflows_eq, hquotient]
    by_cases hr : r.toInt = 0
    · rw [if_pos (hzero.mpr hr), if_pos ⟨rfl, hr⟩]
    · have hnonzero : ¬(Operator.div = Operator.div ∧ r.toInt = 0) := fun h => hr h.2
      rw [if_neg (mt hzero.mp hr), if_neg hnonzero]
      cases hfits : Decimal.fits (l.toInt.tdiv r.toInt) <;> simp [Operator.exact, hfits]

/-! ## Steps -/

/-- Carries out an operation on 64-bit numbers, and wraps the result around. -/
def wrapped (op : Operator) (a b : Int64) : Int64 :=
  match op with
  | .add => a + b
  | .sub => a - b
  | .mul => a * b
  | .div => a / b

/-- An operation on 64-bit numbers does not divide by zero, and its exact result fits. -/
def Safe (op : Operator) (a b : Int64) : Prop :=
  ¬(op = .div ∧ b = 0) ∧ Decimal.fits (op.exact a.toInt b.toInt) = true

instance (op : Operator) (a b : Int64) : Decidable (Safe op a b) := inferInstanceAs (Decidable (_ ∧ _))

/-- Carries out an operation on 64-bit numbers if it is safe. There is no result otherwise. -/
def checked (op : Operator) (a b : Int64) : Option Int64 := if Safe op a b then some (wrapped op a b) else none

section Stepwise

variable {m : Type → Type} [Monad m]

/-- Comes to the second test only if the first one holds. -/
def both (first : Bool) (second : m Bool) : m Bool := if first then second else return false

/-- Comes to the second test only if the first one does not hold. -/
def either (first second : m Bool) : m Bool := do if ← first then return true else second

/-- Computes a result, unless the test says that it does not fit. -/
def guarded (test : m Bool) (result : m Int64) : m (Except HostFault Int64) := do
  if ← test then return .error .overflow else return .ok (← result)

section Definitions

variable (step : Operator → Int64 → Int64 → m Int64)

/-- The test of a sum, step by step. -/
def addTest (l r : Int64) : m Bool :=
  either (both (0 < r) do return (← step .sub largest r) < l) (both (r < 0) do return l < (← step .sub smallest r))

/-- The test of a difference, step by step. -/
def subTest (l r : Int64) : m Bool :=
  either (both (r < 0) do return (← step .add largest r) < l) (both (0 < r) do return l < (← step .add smallest r))

/-- The test of a product, step by step. -/
def mulTest (l r : Int64) : m Bool :=
  if l == 0 || r == 0 then return false
  else if 0 < l then
    if 0 < r then do return (← step .div largest r) < l else do return r < (← step .div smallest l)
  else if 0 < r then do return l < (← step .div smallest r)
  else do return r < (← step .div largest l)

/-- Applies an operator, where `step` carries out each operation on the way. -/
def stepwise (op : Operator) (l r : Int64) : m (Except HostFault Int64) :=
  match op with
  | .add => guarded (addTest step l r) (step .add l r)
  | .sub => guarded (subTest step l r) (step .sub l r)
  | .mul => guarded (mulTest step l r) (step .mul l r)
  | .div =>
    if r == 0 then return .error .divisionByZero
    else guarded (return l == smallest && r == -1) (step .div l r)

end Definitions

theorem both_eq {b c : Bool} {x : m Bool} (h : b = true → x = pure c) : both b x = pure (b && c) := by
  cases b with
  | false => rfl
  | true => exact h rfl

variable [LawfulMonad m]

theorem either_eq (b c : Bool) : either (pure b : m Bool) (pure c) = pure (b || c) := by
  unfold either
  rw [pure_bind]
  cases b <;> rfl

theorem guarded_eq {b : Bool} {n : Int64} {x : m Int64} (h : b = false → x = pure n) :
    guarded (pure b) x = pure (if b then .error .overflow else .ok n) := by
  unfold guarded
  rw [pure_bind]
  cases b with
  | false =>
    rw [h rfl, if_neg Bool.false_ne_true, pure_bind]
    rfl
  | true => rfl

section Agreement

-- the function that carries out the operations need not agree with wrapping around where the result does not fit
variable {step : Operator → Int64 → Int64 → m Int64}
  (hstep : ∀ op a b, Safe op a b → step op a b = pure (wrapped op a b))

include hstep

/-- A test of the result of an operation that is safe. -/
theorem step_bind {op : Operator} {a b : Int64} (p : Int64 → Bool) (h : Safe op a b) :
    (do return p (← step op a b)) = (pure (p (wrapped op a b)) : m Bool) := by
  rw [hstep op a b h, pure_bind]

theorem addTest_eq (l r : Int64) : addTest step l r = pure (addOverflows l r) := by
  have hupper (hr : decide (0 < r) = true) := step_bind hstep (fun n => decide (n < l))
    (show Safe .sub largest r from ⟨by simp, fits_largest_sub (Int64.lt_iff_toInt_lt.mp (of_decide_eq_true hr))⟩)
  have hlower (hr : decide (r < 0) = true) := step_bind hstep (fun n => decide (l < n))
    (show Safe .sub smallest r from ⟨by simp, fits_smallest_sub (Int64.lt_iff_toInt_lt.mp (of_decide_eq_true hr))⟩)
  rw [addTest, both_eq hupper, both_eq hlower, either_eq]
  rfl

theorem subTest_eq (l r : Int64) : subTest step l r = pure (subOverflows l r) := by
  have hupper (hr : decide (r < 0) = true) := step_bind hstep (fun n => decide (n < l))
    (show Safe .add largest r from ⟨by simp, fits_largest_add (Int64.lt_iff_toInt_lt.mp (of_decide_eq_true hr))⟩)
  have hlower (hr : decide (0 < r) = true) := step_bind hstep (fun n => decide (l < n))
    (show Safe .add smallest r from ⟨by simp, fits_smallest_add (Int64.lt_iff_toInt_lt.mp (of_decide_eq_true hr))⟩)
  rw [subTest, both_eq hupper, both_eq hlower, either_eq]
  rfl

theorem mulTest_eq (l r : Int64) : mulTest step l r = pure (mulOverflows l r) := by
  have hlargest (n : Int64) (hn : n ≠ 0) : Safe .div largest n := ⟨fun h => hn h.2, fits_largest_div n⟩
  have hsmallest (n : Int64) (hn : 0 < n) : Safe .div smallest n := by
    have hpos := Int64.lt_iff_toInt_lt.mp hn
    refine ⟨?_, fits_smallest_div hpos⟩
    rintro ⟨-, rfl⟩
    exact absurd hpos (by decide)
  unfold mulTest mulOverflows
  by_cases hzero : (l == 0 || r == 0) = true
  · rw [if_pos hzero, if_pos hzero]
  · have hne : l ≠ 0 ∧ r ≠ 0 := by simpa using hzero
    rw [if_neg hzero, if_neg hzero]
    by_cases hl : 0 < l
    · by_cases hr : 0 < r
      · rw [if_pos hl, if_pos hr, if_pos hl, if_pos hr]
        exact step_bind hstep (fun n => decide (n < l)) (hlargest r hne.2)
      · rw [if_pos hl, if_neg hr, if_pos hl, if_neg hr]
        exact step_bind hstep (fun n => decide (r < n)) (hsmallest l hl)
    · by_cases hr : 0 < r
      · rw [if_neg hl, if_pos hr, if_neg hl, if_pos hr]
        exact step_bind hstep (fun n => decide (l < n)) (hsmallest r hr)
      · rw [if_neg hl, if_neg hr, if_neg hl, if_neg hr]
        exact step_bind hstep (fun n => decide (r < n)) (hlargest l hne.1)

/-- Whatever carries out the operations: if it wraps around where that changes nothing, `apply` results. Every
operation that is come to is safe. -/
theorem stepwise_eq (op : Operator) (l r : Int64) : stepwise step op l r = pure (apply op l r) := by
  have hsafe {op : Operator} {b : Bool} (hnonzero : ¬(op = .div ∧ r = 0))
      (hb : b = !Decimal.fits (op.exact l.toInt r.toInt)) (hpass : b = false) :
      step op l r = pure (wrapped op l r) := by
    refine hstep op l r ⟨hnonzero, ?_⟩
    rwa [hpass, eq_comm, Bool.not_eq_false'] at hb
  cases op with
  | add =>
    rw [stepwise, addTest_eq hstep, guarded_eq (hsafe (by simp) (addOverflows_eq l r))]
    rfl
  | sub =>
    rw [stepwise, subTest_eq hstep, guarded_eq (hsafe (by simp) (subOverflows_eq l r))]
    rfl
  | mul =>
    rw [stepwise, mulTest_eq hstep, guarded_eq (hsafe (by simp) (mulOverflows_eq l r))]
    rfl
  | div =>
    rw [stepwise, apply]
    by_cases hzero : (r == 0) = true
    · rw [if_pos hzero, if_pos hzero]
    · have hr : ¬(Operator.div = Operator.div ∧ r = 0) := fun h => hzero (beq_iff_eq.mpr h.2)
      rw [if_neg hzero, if_neg hzero, guarded_eq (hsafe hr (divOverflows_eq l r))]
      rfl

end Agreement

end Stepwise

/-! ## Exactness -/

/-- **The operators are exact.** An operator yields the exact result, division rounding toward zero, if it does not
divide by zero and the result fits in 64 bits. Otherwise it says which of the two fails. On the way every operation is
safe: an arithmetic without results for the others gives the same answer, as does one that wraps around. -/
theorem apply_exact (op : Operator) (l r : Int64) :
    ((∃ n, apply op l r = .ok n) ↔
      ¬(op = .div ∧ r = 0) ∧ -2 ^ 63 ≤ op.exact l.toInt r.toInt ∧ op.exact l.toInt r.toInt < 2 ^ 63) ∧
    (∀ n, apply op l r = .ok n → n.toInt = op.exact l.toInt r.toInt) ∧
    (apply op l r = .error .divisionByZero ↔ op = .div ∧ r = 0) ∧
    (apply op l r = .error .overflow ↔
      ¬(op = .div ∧ r = 0) ∧ ¬(-2 ^ 63 ≤ op.exact l.toInt r.toInt ∧ op.exact l.toInt r.toInt < 2 ^ 63)) ∧
    stepwise checked op l r = some (apply op l r) ∧
    stepwise (m := Id) wrapped op l r = apply op l r := by
  have hzero : r.toInt = 0 ↔ r = 0 := by
    rw [← Int64.toInt_inj]
    rfl
  have hchecked : stepwise checked op l r = some (apply op l r) :=
    stepwise_eq (fun op a b h => if_pos h) op l r
  have hwrapped : stepwise (m := Id) wrapped op l r = apply op l r :=
    stepwise_eq (fun op a b _ => rfl) op l r
  rw [← fits_iff]
  -- Three cases exclude each other: a division by zero, a result that fits, and one that does not.
  by_cases hdivides : op = .div ∧ r = 0
  · obtain ⟨rfl, rfl⟩ := hdivides
    have hanswer : apply .div l 0 = .error .divisionByZero := by rw [apply_eq, if_pos ⟨rfl, rfl⟩]
    exact ⟨by simp [hanswer], by simp [hanswer], by simp [hanswer], by simp [hanswer], hchecked, hwrapped⟩
  · have hnonzero : ¬(op = .div ∧ r.toInt = 0) := fun h => hdivides ⟨h.1, hzero.mp h.2⟩
    by_cases hfits : Decimal.fits (op.exact l.toInt r.toInt) = true
    · have hanswer : apply op l r = .ok (Int64.ofInt (op.exact l.toInt r.toInt)) := by
        rw [apply_eq, if_neg hnonzero, if_pos hfits]
      refine ⟨by simp [hanswer, hdivides, hfits], ?_, by simp [hanswer, hdivides], by simp [hanswer, hfits],
        hchecked, hwrapped⟩
      intro n hn
      rw [hanswer] at hn
      cases hn
      exact toInt_ofInt_of_fits hfits
    · have hanswer : apply op l r = .error .overflow := by
        rw [apply_eq, if_neg hnonzero, if_neg hfits]
      exact ⟨by simp [hanswer, hfits], by simp [hanswer], by simp [hanswer, hdivides],
        by simp [hanswer, hdivides, hfits], hchecked, hwrapped⟩

end Packrat.Calculator
