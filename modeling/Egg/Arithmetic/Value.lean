import Egg.Arithmetic.LargeInteger
import Egg.Data.Digits
import Mathlib.Data.Nat.Digits.Lemmas

/-! The integer that a number stands for. -/
namespace Egg.Arithmetic

open Egg.Data

/-- The logarithm is exact for numbers of 32 bits, and at most rounded up for larger ones. -/
structure Accurate (log2 : Nat → Int) : Prop where
  exact : ∀ n, 0 < n → n < 2 ^ 32 → log2 n = Nat.log2 n
  bounded : ∀ n, 0 < n → n < 2 ^ 62 → Nat.log2 n ≤ log2 n ∧ log2 n ≤ Nat.log2 n + 1

@[simp] theorem cast_base : ((base : Nat) : Int) = 65536 := rfl

theorem base_pow_pos (count : Nat) : (0 : Int) < (base : Int) ^ count :=
  pow_pos (by decide) count

theorem base_pow_le {count more : Nat} (least : count ≤ more) :
    (base : Int) ^ count ≤ (base : Int) ^ more :=
  pow_le_pow_right₀ (by decide) least

/-- The digits are the lowest of an integer. -/
def Holds (digits : List UInt16) (value : Int) : Prop :=
  Represents base (digits.map UInt16.toNat) value

theorem toNat_lt_base (digit : UInt16) : digit.toNat < base :=
  digit.toNat_lt

theorem Holds.getElem {digits : List UInt16} {value : Int} (held : Holds digits value)
    (index : Nat) (inside : index < digits.length) :
    (digits[index].toNat : Int) = value / (base : Int) ^ index % base := by
  have digit := Represents.getElem held index (by simpa using inside)
  rwa [List.getElem_map] at digit

/-- The integers that a number of digits of a class stand for. -/
def Within (negative : Bool) (count : Nat) (value : Int) : Prop :=
  if negative then -(base : Int) ^ count ≤ value ∧ value < 0
  else 0 ≤ value ∧ value < (base : Int) ^ count

/-- Above its digits an integer has its sign only. -/
theorem Within.ediv {negative : Bool} {count : Nat} {value : Int}
    (within : Within negative count value) {more : Nat} (beyond : count ≤ more) :
    value / (base : Int) ^ more = if negative then -1 else 0 := by
  have larger := base_pow_le beyond
  rw [Within] at within
  split at within
  · rw [if_pos (by assumption), Int.ediv_eq_iff_of_pos (base_pow_pos more)]
    omega
  · rw [if_neg (by assumption)]
    exact Int.ediv_eq_zero_of_lt within.1 (by omega)

namespace LargeInteger

def toInt (self : LargeInteger) : Int :=
  (Nat.ofDigits base (self.digits.map UInt16.toNat) : Nat) -
    if self.negative then (base : Int) ^ self.nbDigits else 0

theorem holds_toInt (self : LargeInteger) : Holds self.digits self.toInt := by
  have plain : Holds self.digits (Nat.ofDigits base (self.digits.map UInt16.toNat) : Nat) := by
    refine Represents.of_ofDigits fun digit member => ?_
    obtain ⟨source, _, rfl⟩ := List.mem_map.mp member
    exact toNat_lt_base source
  have shifted := Represents.add_mul_pow plain (if self.negative then -1 else 0)
  rw [List.length_map] at shifted
  have same : self.toInt = (Nat.ofDigits base (self.digits.map UInt16.toNat) : Nat) +
      (base : Int) ^ self.digits.length * (if self.negative then -1 else 0) := by
    rw [toInt, nbDigits]
    split <;> ring
  rw [same]
  exact shifted

theorem within_toInt (self : LargeInteger) : Within self.negative self.nbDigits self.toInt := by
  have bound : Nat.ofDigits base (self.digits.map UInt16.toNat) < base ^ self.nbDigits := by
    have small := @Nat.ofDigits_lt_base_pow_length base (self.digits.map UInt16.toNat) (by decide)
      fun digit member => by
        obtain ⟨source, _, rfl⟩ := List.mem_map.mp member
        exact toNat_lt_base source
    rwa [List.length_map] at small
  have cast : ((Nat.ofDigits base (self.digits.map UInt16.toNat) : Nat) : Int) <
      (base : Int) ^ self.nbDigits := by exact_mod_cast bound
  rw [Within, toInt]
  split
  · omega
  · omega

/-- The digits and the class determine the integer. -/
theorem toInt_eq {self : LargeInteger} {value : Int} (held : Holds self.digits value)
    (within : Within self.negative self.nbDigits value) : self.toInt = value := by
  have length : (self.digits.map UInt16.toNat).length = self.nbDigits := List.length_map ..
  rw [Within] at within
  rw [toInt]
  split at within
  · rw [if_pos (by assumption), ← length]
    exact Represents.ofDigits_of_neg held within.2 (length ▸ within.1)
  · rw [if_neg (by assumption), sub_zero]
    exact Represents.ofDigits_of_nonneg held within.1 (length ▸ within.2)

theorem toInt_neg {self : LargeInteger} (negative : self.negative = true) : self.toInt < 0 := by
  have within := self.within_toInt
  rw [Within, if_pos negative] at within
  exact within.2

theorem toInt_nonneg {self : LargeInteger} (positive : self.negative = false) : 0 ≤ self.toInt := by
  have within := self.within_toInt
  rw [Within, if_neg (by simp [positive])] at within
  exact within.1

theorem negative_iff (self : LargeInteger) : self.negative = true ↔ self.toInt < 0 := by
  refine ⟨toInt_neg, fun less => ?_⟩
  by_contra positive
  have nonneg := toInt_nonneg (by simpa using positive)
  omega

/-- Two large integers of one size and class that stand for one integer are the same. -/
theorem ext_toInt {self other : LargeInteger} (sign : self.negative = other.negative)
    (size : self.nbDigits = other.nbDigits) (same : self.toInt = other.toInt) : self = other := by
  have digits : self.digits.map UInt16.toNat = other.digits.map UInt16.toNat := by
    refine Represents.unique self.holds_toInt (same ▸ other.holds_toInt) ?_
    rw [List.length_map, List.length_map]
    exact size
  have injective : Function.Injective UInt16.toNat := fun _ _ => UInt16.toNat_inj.mp
  cases self
  cases other
  cases sign
  cases injective.list_map digits
  rfl

/-- A digit, also beyond the size, is that of the integer. -/
theorem wideDigitAt_eq (self : LargeInteger) (index : Nat) :
    (self.wideDigitAt (index + 1) : Int) = self.toInt / (base : Int) ^ index % base := by
  rw [wideDigitAt, Nat.add_sub_cancel, List.getD_eq_getElem?_getD]
  by_cases inside : index < self.digits.length
  · rw [List.getElem?_eq_getElem inside, Option.getD_some]
    exact self.holds_toInt.getElem index inside
  · rw [List.getElem?_eq_none (by omega), Option.getD_none]
    have above := self.within_toInt.ediv (show self.nbDigits ≤ index by rw [nbDigits]; omega)
    rw [above, sign]
    split <;> rfl

theorem wideDigitAt_mod (self : LargeInteger) (index : Nat) :
    (self.wideDigitAt (index + 1) : Int) = self.toInt / (base : Int) ^ index % 65536 :=
  self.wideDigitAt_eq index

theorem wideDigitAt_lt (self : LargeInteger) (index : Nat) : self.wideDigitAt index < base :=
  toNat_lt_base _

end LargeInteger

namespace Number

def toInt : Number → Int
  | small value => value
  | large integer => integer.toInt

theorem negative_eq (self : Number) : self.negative = decide (self.toInt < 0) := by
  cases self with
  | small value => rfl
  | large integer =>
    rw [Bool.eq_iff_iff, decide_eq_true_iff]
    exact integer.negative_iff

theorem positive_eq (self : Number) : self.positive = decide (0 ≤ self.toInt) := by
  rw [positive, negative_eq, ← decide_not, decide_eq_decide, not_lt]

theorem wideDigitAt_eq (self : Number) (index : Nat) :
    (self.wideDigitAt (index + 1) : Int) = self.toInt / (base : Int) ^ index % base := by
  cases self with
  | large integer => exact integer.wideDigitAt_eq index
  | small value =>
    have power : ((2 ^ (index * bits) : Nat) : Int) = (base : Int) ^ index := by
      rw [Nat.mul_comm, pow_mul]
      norm_cast
    rw [wideDigitAt, Nat.add_sub_cancel, Int.shiftRight_eq_div_pow, power,
      Int.toNat_of_nonneg (Int.emod_nonneg _ (by decide))]
    rfl

end Number

end Egg.Arithmetic
