import Egg.Rational.ScaledDecimal

/-! Scaled decimals are added, subtracted, multiplied, divided and compared exactly. -/
namespace Egg.Rational

namespace Fraction

theorem new_eq {n d : Int} (nonzero : d ≠ 0) : ∃ fraction, new n d = some fraction ∧
    fraction.value = (n : ℚ) / d ∧ fraction.numerator.natAbs = n.natAbs ∧
    fraction.denominator.natAbs = d.natAbs := by
  by_cases negative : d < 0
  · refine ⟨⟨-n, -d, neg_pos.mpr negative⟩, ?_, ?_, Int.natAbs_neg n, Int.natAbs_neg d⟩
    · rw [new, dif_neg nonzero, dif_pos negative]
    · rw [value, Int.cast_neg, Int.cast_neg, neg_div_neg_eq]
  · exact ⟨⟨n, d, _⟩, new_positive (by omega), rfl, rfl, rfl⟩

theorem value_eq_zero_iff (self : Fraction) : self.value = 0 ↔ self.numerator = 0 := by
  rw [value, div_eq_zero_iff, or_iff_left self.denominator_ne_zero, Int.cast_eq_zero]

theorem value_neg_iff (self : Fraction) : self.value < 0 ↔ self.numerator < 0 := by
  have positive : (0 : ℚ) < self.denominator := Int.cast_pos.mpr self.positive
  rw [value, div_lt_iff₀ positive, zero_mul, Int.cast_lt_zero]

theorem value_pos_iff (self : Fraction) : 0 < self.value ↔ 0 < self.numerator := by
  have positive : (0 : ℚ) < self.denominator := Int.cast_pos.mpr self.positive
  rw [value, lt_div_iff₀ positive, zero_mul, Int.cast_pos]

end Fraction

namespace Argument

def value : Argument → ℚ
  | integer value => value
  | scaledDecimal value => value.toFraction.value

/-- The larger of two scales; an integer is given the scale of the other operand. -/
def largerScale (scale : Nat) : Argument → Nat
  | integer _ => scale
  | scaledDecimal value => max scale value.scale

end Argument

namespace ScaledDecimal

/-- The answer is the number in lowest terms, with the scale. -/
def Denotes (answer : Option ScaledDecimal) (value : ℚ) (scale : Nat) : Prop :=
  ∃ result, answer = some result ∧ result.toFraction.value = value ∧
    result.toFraction.LowestTerms ∧ result.scale = scale

section Results

variable {self aScaledDecimal : ScaledDecimal}

theorem reduced_denotes (fraction : Fraction) (scale : Nat) :
    Denotes (reduced ⟨fraction, scale⟩) fraction.value scale := by
  obtain ⟨n, d, positive⟩ := fraction
  have common := Integer.gcd_eq n d
  have some : 0 < Int.gcd n d := Int.gcd_pos_of_ne_zero_right n positive.ne'
  rw [reduced, common]
  dsimp only
  split
  · next one => exact ⟨_, rfl, rfl, Nat.cast_eq_one.mp one, rfl⟩
  · have numerator : n.fdiv (Int.gcd n d) = n / Int.gcd n d :=
      Int.fdiv_eq_ediv_of_nonneg n (Int.natCast_nonneg _)
    have denominator : d.fdiv (Int.gcd n d) = d / Int.gcd n d :=
      Int.fdiv_eq_ediv_of_nonneg d (Int.natCast_nonneg _)
    have quotient : 0 < d / Int.gcd n d :=
      Int.ediv_pos_of_pos_of_dvd positive (Int.natCast_nonneg _) (Int.gcd_dvd_right n d)
    rw [numerator, denominator, new, Fraction.new_positive quotient]
    refine ⟨_, rfl, ?_, Int.gcd_ediv_gcd_ediv_gcd some, rfl⟩
    have nonzero : ((Int.gcd n d : Int) : ℚ) ≠ 0 := Int.cast_ne_zero.mpr (by omega)
    rw [Fraction.value, Fraction.value, Int.cast_div (Int.gcd_dvd_left n d) nonzero,
      Int.cast_div (Int.gcd_dvd_right n d) nonzero]
    exact div_div_div_cancel_right₀ nonzero _ _

theorem newReduced_denotes {n d : Int} (nonzero : d ≠ 0) {value : ℚ} (same : (n : ℚ) / d = value)
    (scale : Nat) :
    Denotes ((Fraction.new n d).bind fun fraction => reduced ⟨fraction, scale⟩) value scale := by
  obtain ⟨fraction, made, whole, -⟩ := @Fraction.new_eq n d nonzero
  rw [made, ← same, ← whole]
  exact reduced_denotes fraction scale

theorem addToScaledDecimal_denotes : Denotes (addToScaledDecimal self aScaledDecimal)
    (aScaledDecimal.toFraction.value + self.toFraction.value)
    (max self.scale aScaledDecimal.scale) := by
  have left := aScaledDecimal.denominator_ne_zero
  have right := self.denominator_ne_zero
  rw [addToScaledDecimal, Fraction.value, Fraction.value]
  dsimp only
  split
  · next same =>
    apply newReduced_denotes self.positive.ne'
    rw [Int.cast_add, add_comm, add_div, same]
  · apply newReduced_denotes (mul_pos self.positive aScaledDecimal.positive).ne'
    rw [div_add_div _ _ left right]
    push_cast
    ring

theorem subtractFromScaledDecimal_denotes : Denotes (subtractFromScaledDecimal self aScaledDecimal)
    (aScaledDecimal.toFraction.value - self.toFraction.value)
    (max self.scale aScaledDecimal.scale) := by
  have left := aScaledDecimal.denominator_ne_zero
  have right := self.denominator_ne_zero
  rw [subtractFromScaledDecimal, Fraction.value, Fraction.value]
  dsimp only
  split
  · next same =>
    apply newReduced_denotes self.positive.ne'
    rw [Int.cast_sub, sub_div, same]
  · apply newReduced_denotes (mul_pos self.positive aScaledDecimal.positive).ne'
    rw [div_sub_div _ _ left right]
    push_cast
    ring

theorem multiplyScaledDecimal_denotes : Denotes (multiplyScaledDecimal self aScaledDecimal)
    (aScaledDecimal.toFraction.value * self.toFraction.value)
    (max self.scale aScaledDecimal.scale) := by
  apply newReduced_denotes (mul_pos aScaledDecimal.positive self.positive).ne'
  rw [Int.cast_mul, Int.cast_mul, ← div_mul_div_comm]
  rfl

theorem divideIntoScaledDecimal_denotes (nonzero : self.toFraction.value ≠ 0) :
    Denotes (divideIntoScaledDecimal self aScaledDecimal)
      (aScaledDecimal.toFraction.value / self.toFraction.value)
      (max self.scale aScaledDecimal.scale) := by
  have some : self.numerator ≠ 0 := mt self.value_eq_zero_iff.mpr nonzero
  apply newReduced_denotes (mul_ne_zero aScaledDecimal.positive.ne' some)
  rw [Int.cast_mul, Int.cast_mul, ← div_div_div_eq]
  rfl

/-- An integer is coerced to itself over one. -/
theorem coerce_eq (value : Int) :
    self.coerce value = some ⟨⟨value, 1, Int.one_pos⟩, self.scale⟩ := by
  rw [coerce, fromNumber, new, Fraction.new_positive one_pos]
  rfl

theorem coerced_value (value : Int) (scale : Nat) :
    (ScaledDecimal.mk ⟨value, 1, Int.one_pos⟩ scale).toFraction.value = value := by
  rw [Fraction.value, Int.cast_one, div_one]

variable {selector : ScaledDecimal → ScaledDecimal → Option ScaledDecimal} {operation : ℚ → ℚ → ℚ}

/-- What holds of an operation on scaled decimals holds of it on integers. -/
theorem dispatch_denotes (Allowed : ℚ → Prop)
    (exact : ∀ {divisor dividend : ScaledDecimal}, Allowed divisor.toFraction.value →
      Denotes (selector divisor dividend)
        (operation dividend.toFraction.value divisor.toFraction.value)
        (max divisor.scale dividend.scale))
    {aNumber : Argument} (allowed : Allowed aNumber.value) :
    Denotes (dispatch selector self aNumber) (operation self.toFraction.value aNumber.value)
      (aNumber.largerScale self.scale) := by
  cases aNumber with
  | scaledDecimal other =>
    have answered := @exact other self allowed
    rw [max_comm] at answered
    exact answered
  | integer value =>
    have same := coerced_value value self.scale
    have answered := @exact ⟨⟨value, 1, one_pos⟩, self.scale⟩ self (same.symm ▸ allowed)
    rw [same, max_self] at answered
    rw [dispatch, coerce_eq]
    exact answered

theorem plus_denotes (aNumber : Argument) : Denotes (self.plus aNumber)
    (self.toFraction.value + aNumber.value) (aNumber.largerScale self.scale) :=
  dispatch_denotes (fun _ => True) (fun _ => addToScaledDecimal_denotes) trivial

theorem minus_denotes (aNumber : Argument) : Denotes (self.minus aNumber)
    (self.toFraction.value - aNumber.value) (aNumber.largerScale self.scale) :=
  dispatch_denotes (fun _ => True) (fun _ => subtractFromScaledDecimal_denotes) trivial

theorem times_denotes (aNumber : Argument) : Denotes (self.times aNumber)
    (self.toFraction.value * aNumber.value) (aNumber.largerScale self.scale) :=
  dispatch_denotes (fun _ => True) (fun _ => multiplyScaledDecimal_denotes) trivial

theorem dividedBy_denotes {aNumber : Argument} (nonzero : aNumber.value ≠ 0) :
    Denotes (self.dividedBy aNumber)
      (self.toFraction.value / aNumber.value) (aNumber.largerScale self.scale) :=
  dispatch_denotes (· ≠ 0) divideIntoScaledDecimal_denotes nonzero

theorem negated_eq (self : ScaledDecimal) : ∃ opposite,
    self.negated = some opposite ∧ opposite.toFraction.value = -self.toFraction.value ∧
      (self.toFraction.LowestTerms → opposite.toFraction.LowestTerms) ∧
      opposite.scale = self.scale := by
  refine ⟨⟨⟨-self.numerator, self.denominator, self.positive⟩, self.scale⟩, ?_, ?_, ?_, rfl⟩
  · simp only [negated, fromNumber, new, Fraction.new_positive self.positive, Option.bind_eq_bind,
      Option.bind_some]
  · rw [Fraction.value, Fraction.value, Int.cast_neg, neg_div]
  · intro lowest
    rw [Fraction.LowestTerms, Int.neg_gcd]
    exact lowest

theorem fromNumber_fraction (fraction : Fraction) (scale : Nat) :
    fromNumber (.fraction fraction) scale = some ⟨fraction, scale⟩ := by
  rw [fromNumber, new, Fraction.new_positive fraction.positive]
  rfl

/-- Numerator and denominator change places. -/
theorem reciprocal_eq (nonzero : self.toFraction.value ≠ 0) : ∃ inverse,
    self.reciprocal = some inverse ∧ inverse.toFraction.value = (self.toFraction.value)⁻¹ ∧
      (self.toFraction.LowestTerms → inverse.toFraction.LowestTerms) ∧
      inverse.scale = self.scale := by
  have some : self.numerator ≠ 0 := mt self.value_eq_zero_iff.mpr nonzero
  rw [reciprocal, fractionReciprocal, asFraction]
  by_cases unit : |self.numerator| = 1
  · rw [if_pos unit]
    refine ⟨⟨⟨self.denominator * self.numerator, 1, one_pos⟩, self.scale⟩, ?_, ?_, ?_, rfl⟩
    · simp only [fromNumber, new, Fraction.new_positive one_pos, Option.bind_eq_bind,
        Option.bind_some]
    · have square : (self.numerator : ℚ) * self.numerator = 1 := by
        have same := abs_mul_abs_self self.numerator
        rw [unit, one_mul] at same
        exact_mod_cast same.symm
      rw [Fraction.value, Fraction.value, inv_div, Int.cast_one, div_one, Int.cast_mul,
        eq_div_iff (Int.cast_ne_zero.mpr some), mul_assoc, square, mul_one]
    · intro _
      exact Int.gcd_one_right _
  · obtain ⟨inverse, made, same, numerator, denominator⟩ :=
      @Fraction.new_eq self.denominator self.numerator some
    rw [if_neg unit, made]
    refine ⟨⟨inverse, self.scale⟩, fromNumber_fraction inverse _, ?_, fun lowest => ?_, rfl⟩
    · rw [same, Fraction.value, inv_div]
    · rw [Fraction.LowestTerms, Int.gcd_def, numerator, denominator, Nat.gcd_comm]
      exact lowest

theorem equals_iff {aNumber : Argument} :
    self.equals aNumber = true ↔ self.toFraction.value = aNumber.value := by
  have left := self.denominator_ne_zero
  cases aNumber with
  | scaledDecimal other =>
    rw [equals, decide_eq_true_iff, Argument.value, Fraction.value, Fraction.value,
      div_eq_div_iff left other.denominator_ne_zero, mul_comm self.denominator]
    norm_cast
  | integer value =>
    rw [equals, decide_eq_true_iff, Argument.value, Fraction.value, div_eq_iff left, mul_comm]
    norm_cast

theorem isZero_iff {aNumber : Argument} : isZero aNumber = true ↔ aNumber.value = 0 := by
  cases aNumber with
  | scaledDecimal other =>
    rw [isZero, equals_iff]
    exact Iff.of_eq (congrArg _ Int.cast_zero)
  | integer value =>
    rw [isZero, decide_eq_true_iff]
    exact Int.cast_eq_zero.symm

theorem lessThan_eq (aNumber : Argument) :
    self.lessThan aNumber = some (decide (self.toFraction.value < aNumber.value)) := by
  rw [lessThan]
  split
  · next zero => simp only [isZero_iff.mp zero, self.value_neg_iff]
  · obtain ⟨difference, answered, same, -⟩ := @minus_denotes self aNumber
    rw [answered]
    refine congrArg some (decide_eq_decide.mpr ?_)
    rw [← difference.value_neg_iff, same, sub_neg]

theorem greaterThan_eq (aNumber : Argument) :
    self.greaterThan aNumber = some (decide (aNumber.value < self.toFraction.value)) := by
  rw [greaterThan]
  split
  · next zero => simp only [isZero_iff.mp zero, self.value_pos_iff]
  · obtain ⟨difference, answered, same, -⟩ := @minus_denotes self aNumber
    rw [answered]
    refine congrArg some (decide_eq_decide.mpr ?_)
    rw [← difference.value_pos_iff, same, sub_pos]

theorem lessEqual_eq (aNumber : Argument) :
    self.lessEqual aNumber = some (decide (self.toFraction.value ≤ aNumber.value)) := by
  rw [lessEqual, lessThan_eq]
  refine congrArg some (Bool.eq_iff_iff.mpr ?_)
  rw [Bool.or_eq_true, equals_iff, decide_eq_true_iff, decide_eq_true_iff, le_iff_lt_or_eq]

theorem greaterEqual_eq (aNumber : Argument) :
    self.greaterEqual aNumber = some (decide (aNumber.value ≤ self.toFraction.value)) := by
  rw [greaterEqual, greaterThan_eq]
  refine congrArg some (Bool.eq_iff_iff.mpr ?_)
  rw [Bool.or_eq_true, equals_iff, decide_eq_true_iff, decide_eq_true_iff, le_iff_lt_or_eq,
    eq_comm]

end Results

end ScaledDecimal

namespace Integer

open Arithmetic ScaledDecimal

variable {self : Int} {aNumber : ScaledDecimal}

theorem plusDecimal_denotes :
    Denotes (plusDecimal self aNumber) (self + aNumber.toFraction.value) aNumber.scale := by
  rw [add_comm]
  exact plus_denotes (.integer self)

theorem timesDecimal_denotes :
    Denotes (timesDecimal self aNumber) (self * aNumber.toFraction.value) aNumber.scale := by
  rw [mul_comm]
  exact times_denotes (.integer self)

theorem minusDecimal_denotes :
    Denotes (minusDecimal self aNumber) (self - aNumber.toFraction.value) aNumber.scale := by
  rw [minusDecimal]
  split
  · obtain ⟨difference, answered, same, lowest, scale⟩ := @minus_denotes aNumber (.integer self)
    obtain ⟨opposite, negated, value, kept, equal⟩ := negated_eq difference
    rw [answered]
    refine ⟨opposite, negated, ?_, kept lowest, equal.trans scale⟩
    rw [value, same, neg_sub]
    rfl
  · obtain ⟨opposite, negated, value, -, equal⟩ := negated_eq aNumber
    have sum := @plus_denotes opposite (.integer self)
    rw [value, neg_add_eq_sub] at sum
    rw [negated, ← equal]
    exact sum

theorem dividedByDecimal_denotes (nonzero : aNumber.toFraction.value ≠ 0) :
    Denotes (dividedByDecimal self aNumber) (self / aNumber.toFraction.value)
      aNumber.scale := by
  rw [dividedByDecimal]
  split
  · obtain ⟨inverse, answered, value, -, equal⟩ := reciprocal_eq nonzero
    have product := @times_denotes inverse (.integer self)
    rw [value, mul_comm, ← div_eq_mul_inv] at product
    rw [answered, ← equal]
    exact product
  · next large =>
    have some : (Argument.integer self).value ≠ 0 := by
      apply Int.cast_ne_zero.mpr
      rintro rfl
      exact large (by decide)
    obtain ⟨quotient, answered, same, lowest, scale⟩ := @dividedBy_denotes aNumber _ some
    have quotientNonzero : quotient.toFraction.value ≠ 0 := by
      rw [same]
      exact div_ne_zero nonzero some
    obtain ⟨inverse, inverted, value, kept, equal⟩ := reciprocal_eq quotientNonzero
    rw [answered]
    refine ⟨inverse, inverted, ?_, kept lowest, equal.trans scale⟩
    rw [value, same, inv_div]
    rfl

theorem lessThanDecimal_eq : lessThanDecimal self aNumber =
    some (decide ((self : ℚ) < aNumber.toFraction.value)) :=
  greaterThan_eq (.integer self)

theorem lessEqualDecimal_eq : lessEqualDecimal self aNumber =
    some (decide ((self : ℚ) ≤ aNumber.toFraction.value)) :=
  greaterEqual_eq (.integer self)

theorem greaterThanDecimal_eq : greaterThanDecimal self aNumber =
    some (decide (aNumber.toFraction.value < self)) := by
  rw [greaterThanDecimal]
  split
  · exact lessThan_eq (.integer self)
  · rw [lessEqualDecimal_eq, Option.map_some, ← decide_not]
    simp only [not_le]

theorem greaterEqualDecimal_eq : greaterEqualDecimal self aNumber =
    some (decide (aNumber.toFraction.value ≤ self)) := by
  rw [greaterEqualDecimal]
  split
  · exact lessEqual_eq (.integer self)
  · rw [lessThanDecimal_eq, Option.map_some, ← decide_not]
    simp only [not_lt]

theorem equalsDecimal_iff : equalsDecimal self aNumber = true ↔
    (self : ℚ) = aNumber.toFraction.value := by
  rw [equalsDecimal, equals_iff]
  exact eq_comm

end Integer

end Egg.Rational
