import Egg.Data.Bitwise
import Mathlib.Algebra.Order.Ring.Unbundled.Rat
import Mathlib.Data.Rat.Lemmas
import Mathlib.RingTheory.Multiplicity
import Mathlib.Tactic.FieldSimp

/-! Integers without bound, the lowest of their bits, and the fractions their division answers. -/
namespace Egg.Rational

open Egg.Data

/-- Common factors stay unless who builds the fraction cancels them. -/
structure Fraction where
  numerator : Int
  denominator : Int
  positive : 0 < denominator
deriving DecidableEq

namespace Fraction

/-- The sign goes to the numerator; a denominator of zero is an error. -/
def new (n d : Int) : Option Fraction :=
  if zero : d = 0 then none
  else if negative : d < 0 then some ⟨-n, -d, neg_pos.mpr negative⟩
  else some ⟨n, d, lt_of_le_of_ne (not_lt.mp negative) (Ne.symm zero)⟩

def value (self : Fraction) : ℚ :=
  self.numerator / self.denominator

def LowestTerms (self : Fraction) : Prop :=
  Int.gcd self.numerator self.denominator = 1

instance (self : Fraction) : Decidable self.LowestTerms :=
  inferInstanceAs (Decidable (_ = _))

theorem new_positive {n d : Int} (positive : 0 < d) : new n d = some ⟨n, d, positive⟩ := by
  rw [new, dif_neg positive.ne', dif_neg positive.not_gt]

theorem denominator_ne_zero (self : Fraction) : (self.denominator : ℚ) ≠ 0 :=
  Int.cast_ne_zero.mpr self.positive.ne'

end Fraction

inductive Number where
  | integer (value : Int)
  | fraction (value : Fraction)
deriving DecidableEq

def Number.value : Number → ℚ
  | integer value => value
  | fraction value => value.value

namespace Integer

def bitShift (self anInteger : Int) : Int :=
  let factor := 2 ^ anInteger.natAbs
  if 0 ≤ anInteger then self * factor else self.fdiv factor

/-- Whether the bits of a mask are on. -/
def isOnBit (self n : Int) : Bool :=
  Int.land self n = n

/-- The place of the first bit that is on, from the bit of a mask. -/
def lowBitFrom (self : Int) : (fuel : Nat) → (count : Nat) → (mask : Int) → Option Nat
  | 0, _, _ => none
  | fuel + 1, count, mask =>
    if isOnBit self mask then some count
    else lowBitFrom self fuel (count + 1) (bitShift mask 1)

def lowBit (self : Int) : Option Nat :=
  if self = 0 then none else lowBitFrom self (self.natAbs.log2 + 1) 1 1

theorem natAbs_fmod_lt (m : Int) {n : Int} (nonzero : n ≠ 0) : (m.fmod n).natAbs < n.natAbs := by
  obtain negative | positive := lt_or_gt_of_ne nonzero
  · have bound := Int.fmod_lt_of_pos (-m) (neg_pos.mpr negative)
    have nonneg := Int.fmod_nonneg_of_pos (-m) (neg_pos.mpr negative)
    rw [Int.neg_fmod_neg] at bound nonneg
    omega
  · have bound := Int.fmod_lt_of_pos m positive
    have nonneg := Int.fmod_nonneg_of_pos m positive
    omega

/-- Euclid's algorithm, whose remainders have the sign of the divisor. -/
def gcd (n m : Int) : Int :=
  if n = 0 then |m| else gcd (m.fmod n) n
termination_by n.natAbs
decreasing_by
  apply natAbs_fmod_lt
  assumption

/-- The quotient in lowest terms. -/
def divide (self aNumber : Int) : Option Number :=
  let gcd := gcd self aNumber
  if gcd = |aNumber| then some (.integer (self.fdiv aNumber))
  else (Fraction.new (self.fdiv gcd) (aNumber.fdiv gcd)).map .fraction

section LowBit

variable {odd : Int} {zeroes : Nat}

theorem bitShift_one (self : Int) : bitShift self 1 = 2 * self := by
  rw [bitShift, if_pos (by decide), mul_comm]
  rfl

theorem isOnBit_double (self n : Int) : isOnBit (2 * self) (2 * n) = isOnBit self n := by
  have same : Int.land (2 * self) (2 * n) = 2 * Int.land self n := by
    have both := Int.land_bit false self false n
    simpa only [Int.bit_val, cond_false, add_zero, Bool.and_self] using both
  rw [isOnBit, isOnBit, same, decide_eq_decide]
  exact mul_right_inj' (by decide)

theorem isOnBit_one (set : Bool) (half : Int) : isOnBit (Int.bit set half) 1 = set := by
  have none : Int.land half 0 = 0 := by
    cases half with
    | ofNat value => exact congrArg Nat.cast (Nat.and_zero value)
    | negSucc value =>
      apply congrArg Nat.cast
      simp [Nat.ldiff]
  have both : Int.land (Int.bit set half) 1 = Int.bit set 0 := by
    have same := Int.land_bit set half true 0
    rwa [none, Bool.and_true] at same
  rw [isOnBit, both]
  cases set <;> rfl

theorem isOnBit_place (self : Int) (place : Nat) :
    isOnBit (2 ^ place * self) (2 ^ place) = isOnBit self 1 := by
  induction place with
  | zero => rw [pow_zero, one_mul]
  | succ place ih =>
    rw [pow_succ', mul_assoc, isOnBit_double]
    exact ih

theorem isOnBit_of_even (half : Int) : isOnBit (2 * half) 1 = false := by
  have even := isOnBit_one false half
  rwa [Int.bit_val, cond_false, add_zero] at even

theorem isOnBit_of_odd (isOdd : ¬ 2 ∣ odd) : isOnBit odd 1 = true := by
  have on := isOnBit_one true (odd / 2)
  have whole : 2 * (odd / 2) + 1 = odd := by omega
  rwa [Int.bit_val, cond_true, whole] at on

/-- The bits below the first that is on are passed one after the other. -/
theorem lowBitFrom_eq (isOdd : ¬ 2 ∣ odd) (fuel count place : Nat) :
    lowBitFrom (2 ^ place * (2 ^ zeroes * odd)) (fuel + zeroes + 1) count (2 ^ place) =
      some (count + zeroes) := by
  induction zeroes generalizing count place with
  | zero =>
    rw [lowBitFrom, isOnBit_place, pow_zero, one_mul, isOnBit_of_odd isOdd]
    rfl
  | succ zeroes ih =>
    have off : isOnBit (2 ^ place * (2 ^ (zeroes + 1) * odd)) (2 ^ place) = false := by
      rw [isOnBit_place, pow_succ', mul_assoc]
      exact isOnBit_of_even _
    have same : (2 : Int) ^ (place + 1) * (2 ^ zeroes * odd) =
        2 ^ place * (2 ^ (zeroes + 1) * odd) := by
      ring
    have next := ih (count + 1) (place + 1)
    rw [lowBitFrom, off, bitShift_one, ← pow_succ', ← same]
    exact next.trans (congrArg some (Nat.add_right_comm _ _ _))

theorem lowBit_eq (isOdd : ¬ 2 ∣ odd) : lowBit (2 ^ zeroes * odd) = some (zeroes + 1) := by
  have nonzero : 2 ^ zeroes * odd ≠ 0 := by
    apply mul_ne_zero (pow_ne_zero _ (by decide))
    rintro rfl
    exact isOdd (dvd_zero _)
  have enough : zeroes ≤ (2 ^ zeroes * odd).natAbs.log2 := by
    apply (Nat.le_log2 (Int.natAbs_ne_zero.mpr nonzero)).mpr
    rw [Int.natAbs_mul, Int.natAbs_pow]
    apply Nat.le_mul_of_pos_right
    exact Int.natAbs_pos.mpr (right_ne_zero_of_mul nonzero)
  have found := @lowBitFrom_eq odd zeroes isOdd ((2 ^ zeroes * odd).natAbs.log2 - zeroes) 1 0
  rw [Nat.sub_add_cancel enough, pow_zero, one_mul, add_comm 1] at found
  rw [lowBit, if_neg nonzero, found]

/-- An integer other than zero is an odd one, shifted. -/
theorem exists_odd {value : Int} (nonzero : value ≠ 0) :
    ∃ (zeroes : Nat) (odd : Int), ¬ 2 ∣ odd ∧ value = 2 ^ zeroes * odd := by
  have finite : FiniteMultiplicity 2 value := Int.finiteMultiplicity_iff.mpr ⟨by decide, nonzero⟩
  obtain ⟨odd, same, isOdd⟩ := finite.exists_eq_pow_mul_and_not_dvd
  exact ⟨_, odd, isOdd, same⟩

end LowBit

theorem gcd_eq (n m : Int) : gcd n m = Int.gcd n m := by
  induction n, m using gcd.induct with
  | case1 m =>
    rw [gcd, if_pos rfl, Int.gcd_zero_left, Int.natCast_natAbs]
  | case2 n m nonzero ih =>
    have same : m.fmod n = m - n * m.fdiv n := Int.fmod_def m n
    rw [gcd, if_neg nonzero, ih, same, Int.gcd_sub_mul_left_left, Int.gcd_comm]

/-- Integers without a common factor are divided into a fraction of the two. -/
theorem divide_of_coprime {n d : Int} (coprime : Int.gcd n d = 1) (more : 1 < d) :
    divide n d = some (.fraction ⟨n, d, by omega⟩) := by
  have rest : (1 : Int) ≠ |d| := by
    rw [abs_of_pos (by omega)]
    exact more.ne
  rw [divide, gcd_eq, coprime, Nat.cast_one, if_neg rest, Int.fdiv_one, Int.fdiv_one,
    Fraction.new_positive (by omega)]
  rfl

end Integer

end Egg.Rational
