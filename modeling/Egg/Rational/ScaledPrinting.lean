import Egg.Numerals.RadixRoundTrip
import Egg.Rational.ScaledDecimal
import Mathlib.Algebra.Order.Field.Basic
import Mathlib.Tactic.Linarith

/-! Scaled decimals are printed to the nearest decimal of their scale. -/
namespace Egg.Rational.ScaledDecimal

open Numerals

section Model

/-- The digits behind the point, one for each repetition. -/
def fractionDigits (scaler : Int) : (count : Nat) → (rem : Int) → List Char
  | 0, _ => []
  | count + 1, rem =>
    let rem := rem * 10
    digitValue (rem.fdiv scaler).toNat :: fractionDigits scaler count (rem.fmod scaler)

/-- The number in units of the last digit. -/
def scaled (self : ScaledDecimal) : Int :=
  let scaler := 10 ^ self.scale
  (self.numerator * scaler + Integer.bitShift self.denominator (-1)).fdiv self.denominator

def printOn (self : ScaledDecimal) : List Char :=
  let scaler := 10 ^ self.scale
  let scaled := if self.numerator < 0 then -self.scaled else self.scaled
  let quo := scaled.fdiv scaler
  let rem := scaled.fmod scaler
  (if self.numerator < 0 then ['-'] else []) ++ Numerals.printOn quo .ten 0 '0' ++
    (if 0 < self.scale then ['.'] else []) ++ fractionDigits scaler self.scale rem ++
      's' :: Numerals.printOn self.scale .ten 0 '0'

end Model

/-- The text is a decimal with as many digits behind the point as the scale says; what they stand
for is at most half a unit of the last of them from the number. -/
def Prints (self : ScaledDecimal) : Prop :=
  ∃ (whole : Nat) (fraction : List Nat), fraction.length = self.scale ∧
    (∀ d ∈ fraction, d < 10) ∧
    self.printOn = (if self.numerator < 0 then ['-'] else []) ++ numeral .ten whole ++
      (if 0 < self.scale then ['.'] else []) ++ fraction.map digitValue ++
        's' :: numeral .ten self.scale ∧
    |self.toFraction.value - (if self.numerator < 0 then -1 else 1) *
      (whole + valueOf .ten fraction / 10 ^ self.scale)| ≤ 1 / 2 / 10 ^ self.scale

section Digits

/-- The digits of a remainder are those of its multiple by a power of ten. -/
theorem fractionDigits_eq {scaler : Nat} (count rem : Nat) (small : rem < scaler) :
    ∃ digits : List Nat, fractionDigits scaler count rem = digits.map digitValue ∧
      digits.length = count ∧ (∀ d ∈ digits, d < 10) ∧
      valueOf .ten digits = rem * 10 ^ count / scaler := by
  induction count generalizing rem with
  | zero =>
    refine ⟨[], rfl, rfl, by simp, ?_⟩
    rw [pow_zero, mul_one, Nat.div_eq_of_lt small]
    rfl
  | succ count ih =>
    have positive : 0 < scaler := by omega
    obtain ⟨digits, text, length, decimals, value⟩ := ih (rem * 10 % scaler) (Nat.mod_lt _ positive)
    have quotient : ((rem : Int) * 10).fdiv scaler = (rem * 10 / scaler : Nat) := by
      rw [Int.fdiv_eq_ediv_of_nonneg _ (Int.natCast_nonneg _)]
      norm_cast
    have rest : ((rem : Int) * 10).fmod scaler = (rem * 10 % scaler : Nat) := by
      rw [Int.fmod_eq_emod_of_nonneg _ (Int.natCast_nonneg _)]
      norm_cast
    refine ⟨rem * 10 / scaler :: digits, ?_, ?_, ?_, ?_⟩
    · rw [fractionDigits, quotient, rest, text, Int.toNat_natCast, List.map_cons]
    · rw [List.length_cons, length]
    · intro d member
      obtain rfl | later := List.mem_cons.mp member
      · exact Nat.div_lt_of_lt_mul (by omega)
      · exact decimals d later
    · have joined := @valueOf_append .ten [rem * 10 / scaler] digits
      have first : valueOf .ten [rem * 10 / scaler] = rem * 10 / scaler := by
        rw [valueOf, List.foldl_cons, List.foldl_nil, Nat.zero_mul, Nat.zero_add]
      have whole : rem * 10 ^ (count + 1) =
          scaler * (rem * 10 / scaler * 10 ^ count) + rem * 10 % scaler * 10 ^ count := by
        rw [← mul_assoc, ← add_mul, Nat.div_add_mod, pow_succ', mul_assoc]
      rw [first, length, value] at joined
      rw [whole, Nat.mul_add_div positive]
      exact joined

end Digits

section Rounding

variable (self : ScaledDecimal)

theorem half_denominator : Integer.bitShift self.denominator (-1) = self.denominator / 2 := by
  rw [Integer.bitShift, if_neg (by decide), Int.fdiv_eq_ediv_of_nonneg _ (by decide)]
  rfl

/-- The units are rounded to the nearest integer. -/
theorem scaled_nearest :
    2 * |self.numerator * 10 ^ self.scale - self.denominator * self.scaled| ≤ self.denominator := by
  have positive := self.positive
  rw [scaled, half_denominator, Int.fdiv_eq_ediv_of_nonneg _ positive.le]
  generalize self.numerator * 10 ^ self.scale = units
  have least := Int.mul_ediv_self_le (x := units + self.denominator / 2) positive.ne'
  have greatest := Int.lt_mul_ediv_self_add (x := units + self.denominator / 2) positive
  have bound : |units - self.denominator * ((units + self.denominator / 2) / self.denominator)| ≤
      self.denominator / 2 := by
    rw [abs_le]
    omega
  omega

/-- The sign that is written is that of the rounded number. -/
theorem scaled_sign : 0 ≤ if self.numerator < 0 then -self.scaled else self.scaled := by
  have positive := self.positive
  have power : (0 : Int) < 10 ^ self.scale := pow_pos (by decide) _
  rw [scaled, half_denominator, Int.fdiv_eq_ediv_of_nonneg _ positive.le]
  split
  · next negative =>
    have below : self.numerator * 10 ^ self.scale + self.denominator / 2 < self.denominator := by
      have product := mul_neg_of_neg_of_pos negative power
      omega
    have quotient : (self.numerator * 10 ^ self.scale + self.denominator / 2) / self.denominator < 1 :=
      Int.ediv_lt_of_lt_mul positive (by rwa [one_mul])
    omega
  · next nonneg =>
    apply Int.ediv_nonneg _ positive.le
    have product := mul_nonneg (not_lt.mp nonneg) power.le
    omega

end Rounding

/-- The rounded units differ from the number by at most half of one. -/
theorem scaled_error (self : ScaledDecimal) :
    |self.toFraction.value - (self.scaled : ℚ) / 10 ^ self.scale| ≤ 1 / 2 / 10 ^ self.scale := by
  have power : (0 : ℚ) < 10 ^ self.scale := pow_pos (by norm_num) _
  have denominator : (0 : ℚ) < self.denominator := Int.cast_pos.mpr self.positive
  have nearest : 2 * |(self.numerator : ℚ) * 10 ^ self.scale - self.denominator * self.scaled| ≤
      self.denominator := by
    exact_mod_cast scaled_nearest self
  have difference : self.toFraction.value - (self.scaled : ℚ) / 10 ^ self.scale =
      (self.numerator * 10 ^ self.scale - self.denominator * self.scaled) /
        (self.denominator * 10 ^ self.scale) := by
    rw [Fraction.value, div_sub_div _ _ denominator.ne' power.ne']
  rw [difference, abs_div, abs_of_pos (mul_pos denominator power), ← div_div]
  apply div_le_div_of_nonneg_right _ power.le
  rw [div_le_iff₀ denominator]
  linarith

/-- Every scaled decimal is printed so. -/
theorem printOn_prints (self : ScaledDecimal) : self.Prints := by
  obtain ⟨units, same⟩ := Int.eq_ofNat_of_zero_le (scaled_sign self)
  have power : 0 < 10 ^ self.scale := Nat.pow_pos (by decide)
  obtain ⟨digits, text, length, decimals, value⟩ :=
    fractionDigits_eq self.scale (units % 10 ^ self.scale) (Nat.mod_lt units power)
  rw [Nat.mul_div_cancel _ power] at value
  have scaler : ((10 : Int) ^ self.scale) = (10 ^ self.scale : Nat) := (Nat.cast_pow 10 _).symm
  refine ⟨units / 10 ^ self.scale, digits, length, decimals, ?_, ?_⟩
  · have quo : (units : Int).fdiv (10 ^ self.scale : Nat) = (units / 10 ^ self.scale : Nat) := by
      rw [Int.fdiv_eq_ediv_of_nonneg _ (Int.natCast_nonneg _)]
      norm_cast
    have rem : (units : Int).fmod (10 ^ self.scale : Nat) = (units % 10 ^ self.scale : Nat) := by
      rw [Int.fmod_eq_emod_of_nonneg _ (Int.natCast_nonneg _)]
      norm_cast
    have printed : ∀ number : Nat, Numerals.printOn number .ten 0 '0' = numeral .ten number := by
      intro number
      rw [printOn_of_nonneg (Int.natCast_nonneg _), padded_zero, Int.natAbs_natCast]
      rfl
    rw [printOn, same, scaler, quo, rem, text, printed, printed]
  · have split : (units : ℚ) = 10 ^ self.scale * (units / 10 ^ self.scale : Nat) +
        (units % 10 ^ self.scale : Nat) := by
      exact_mod_cast (Nat.div_add_mod units (10 ^ self.scale)).symm
    have nonzero : (10 : ℚ) ^ self.scale ≠ 0 := pow_ne_zero _ (by norm_num)
    have joined : ((units / 10 ^ self.scale : Nat) : ℚ) +
        (units % 10 ^ self.scale : Nat) / 10 ^ self.scale = units / 10 ^ self.scale := by
      rw [split, add_div, mul_div_cancel_left₀ _ nonzero]
    have signed : (if self.numerator < 0 then -1 else 1 : ℚ) * units = self.scaled := by
      have cast : (if self.numerator < 0 then -1 else 1 : Int) * units = self.scaled := by
        rw [← same]
        split <;> ring
      exact_mod_cast cast
    rw [value, joined, ← mul_div_assoc, signed]
    exact scaled_error self

end Egg.Rational.ScaledDecimal
