import Egg.Arithmetic.Addition

/-! Sums, differences and negation of numbers of either kind. -/
namespace Egg.Arithmetic

open Egg.Data

variable {log2 : Nat → Int}

theorem newIntObject_eq {value : Int} (fits : Fits value) : newIntObject value = some value := by
  unfold Fits at fits
  rw [newIntObject, if_neg (by lia)]

theorem newIntObject_none {value : Int} (large : ¬ Fits value) : newIntObject value = none := by
  unfold Fits at large
  rw [newIntObject, if_pos (by lia)]

namespace Number

open LargeInteger

theorem asLargeInteger_length (value : Int) : (asLargeInteger log2 value).digits.length = 4 := by
  rw [asLargeInteger, from_length]
  rfl

theorem asLargeInteger_negative (value : Int) :
    (asLargeInteger log2 value).negative = decide (value < 0) :=
  rfl

section Copied

variable (accurate : Accurate log2)

include accurate

/-- A positive integer has no bytes beyond its size. -/
theorem lt_pow_of_size {value : Int} (fits : Fits value) (positive : 0 < value) {count : Nat}
    (beyond : primitiveSMISize log2 value ≤ count) : value < 256 ^ count := by
  unfold Fits minimum maximum at fits
  rw [primitiveSMISize, if_neg (by lia)] at beyond
  have least := (accurate.bounded value.toNat (by lia) (by lia)).1
  have log := (@Nat.log2_lt value.toNat (8 * count) (by lia)).mp (by lia)
  have power : ((2 ^ (8 * count) : Nat) : Int) = 256 ^ count := by
    rw [pow_mul]
    norm_cast
  rw [← power]
  lia

/-- The bytes of a positive integer, copied as far as its size. -/
theorem copied_byte {value : Int} (fits : Fits value) (positive : 0 ≤ value) {index : Nat}
    (inside : index < 8) :
    (((if ((index + 1 : Nat) : Int) ≤ min 8 (primitiveSMISize log2 value) then
      (small value).byteAt (index + 1) else 0 : Nat)) : Int) = value / 256 ^ index % 256 := by
  split
  · rw [byteAt, if_neg (by unfold wordSize; lia), smallIntegerByteAt, Nat.add_sub_cancel]
    exact Int.toNat_of_nonneg (Int.emod_nonneg _ (by decide))
  · next beyond =>
    rcases positive.eq_or_lt with rfl | more
    · rw [Int.zero_ediv]
      rfl
    · have less := @lt_pow_of_size log2 accurate value fits more index (by lia)
      rw [Int.ediv_eq_zero_of_lt positive less]
      rfl

/-- The digits of a positive small integer are copied. -/
theorem asLargeInteger_toInt {value : Int} (fits : Fits value) (positive : 0 ≤ value) :
    (asLargeInteger log2 value).toInt = value := by
  have held : Holds (asLargeInteger log2 value).digits value := by
    refine Represents.of_getElem fun index inside => ?_
    rw [List.length_map] at inside
    have inside' : index < (new (decide (value < 0)) wordSize).digits.length := by
      rw [asLargeInteger, from_length] at inside
      exact inside
    have four : index < 4 := by
      rw [asLargeInteger_length] at inside
      exact inside
    have zero : (new (decide (value < 0)) wordSize).digits[index] = 0 := by
      simp only [new, List.getElem_replicate, sign]
      rw [if_neg (by simpa using positive)]
    have digit : ((asLargeInteger log2 value).digits[index]).toNat = _ :=
      @from_digit log2 (new (decide (value < 0)) wordSize) (small value)
        (min 8 (primitiveSMISize log2 value)) rfl index inside inside' 0 zero
    have high := @copied_byte log2 accurate value fits positive (2 * index + 1) (by lia)
    have low := @copied_byte log2 accurate value fits positive (2 * index) (by lia)
    have power : (base : Int) ^ index = 256 ^ (2 * index) := by
      rw [pow_mul]
      rfl
    have above : value / 256 ^ (2 * index + 1) = value / 256 ^ (2 * index) / 256 := by
      rw [pow_succ, Int.ediv_ediv_of_nonneg (by positivity)]
    rw [above] at high
    rw [List.getElem_map]
    refine Eq.trans ?_ (congrArg Nat.cast digit).symm
    rw [Nat.cast_add, Nat.cast_mul, power, cast_base,
      show (0 : UInt16).toNat / 256 = 0 from rfl, show (0 : UInt16).toNat % 256 = 0 from rfl]
    have split : value / 256 ^ (2 * index) % 65536 =
        value / 256 ^ (2 * index) / 256 % 256 * 256 + value / 256 ^ (2 * index) % 256 := by lia
    rw [split, ← high, ← low]
    rfl
  refine toInt_eq held ?_
  rw [asLargeInteger_negative, nbDigits, asLargeInteger_length, Within,
    if_neg (by simpa using positive)]
  have four : (base : Int) ^ 4 = 2 ^ 64 := rfl
  unfold Fits minimum maximum at fits
  lia

end Copied

/-- Only the lowest byte of a negative small integer is copied. -/
theorem asLargeInteger_digits_of_neg {value : Int} (negative : value < 0) :
    (asLargeInteger log2 value).digits =
      [UInt16.ofNat (0xFF00 + (value % 256).toNat), 0xFFFF, 0xFFFF, 0xFFFF] := by
  have size : primitiveSMISize log2 value = 1 := if_pos negative
  have sign : decide (value < 0) = true := decide_eq_true negative
  have byte : smallIntegerByteAt value 1 = (value % 256).toNat := by
    rw [smallIntegerByteAt, Nat.sub_self, pow_zero, Int.ediv_one]
  have count : min ((new true wordSize).sizeInBytes : Int) ((small value).sizeInBytes log2) = 1 := by
    rw [sizeInBytes, size]
    decide
  have filled : (new true wordSize).digits = [0xFFFF, 0xFFFF, 0xFFFF, 0xFFFF] := by
    decide
  have first : (small value).byteAt 1 = (value % 256).toNat := byte
  rw [asLargeInteger, sign, LargeInteger.from, count, filled]
  simp only [List.mapIdx_cons, List.mapIdx_nil, List.cons.injEq]
  refine ⟨?_, ?_, ?_, ?_, trivial⟩
  · rw [if_neg (by decide), if_pos (by decide), Nat.mul_zero, Nat.zero_add, first]
    rfl
  all_goals
    rw [if_neg (by decide), if_neg (by decide)]
    rfl

theorem asLargeInteger_toInt_of_neg {value : Int} (negative : value < 0) :
    (asLargeInteger log2 value).toInt = value % 256 - 256 := by
  have low : (UInt16.ofNat (0xFF00 + (value % 256).toNat)).toNat =
      0xFF00 + (value % 256).toNat := by
    rw [UInt16.toNat_ofNat']
    lia
  have held : Holds (asLargeInteger log2 value).digits (value % 256 - 256) := by
    rw [asLargeInteger_digits_of_neg negative]
    refine ⟨?_, ?_, ?_, ?_, trivial⟩
    · rw [low, cast_base]
      lia
    · rw [cast_base]
      show _ = (65535 : Int)
      lia
    · rw [cast_base]
      show _ = (65535 : Int)
      lia
    · rw [cast_base]
      show _ = (65535 : Int)
      lia
  refine toInt_eq held ?_
  rw [asLargeInteger_negative, nbDigits, asLargeInteger_length, Within,
    if_pos (decide_eq_true negative)]
  have four : (base : Int) ^ 4 = 2 ^ 64 := rfl
  lia

/-- A large integer from a small one is an operand. -/
theorem asLargeInteger_operand (value : Int) :
    Operand (.large (asLargeInteger log2 value)) := by
  have four : (base : Int) ^ 4 = 2 ^ 64 := rfl
  refine ⟨by rw [nbDigits, asLargeInteger_length], fun negative => ?_⟩
  rw [asLargeInteger_negative, decide_eq_true_iff] at negative
  rw [nbDigits, asLargeInteger_length, asLargeInteger_toInt_of_neg negative]
  lia

theorem plus_of_fits {a b : Int} (fits : Fits (a + b)) :
    plus log2 (small a) (small b) = some (small (a + b)) := by
  rw [plus, newIntObject_eq fits]

theorem plus_of_large {a b : Int} (large : ¬ Fits (a + b)) :
    plus log2 (small a) (small b) = (asLargeInteger log2 a).plus log2 (small b) := by
  rw [plus, newIntObject_none large]

section Sums

variable (accurate : Accurate log2)

include accurate

/-- A sum that overflows is that of the converted receiver. -/
theorem plus_converted {a b : Int} (fitsA : Fits a) (fitsB : Fits b) (large : ¬ Fits (a + b)) :
    Exact (plus log2 (small a) (small b)) ((asLargeInteger log2 a).toInt + b) := by
  rw [plus_of_large large]
  refine LargeInteger.plus_exact accurate (asLargeInteger_operand a) fitsB (.inr ?_)
  intro zero
  cases zero
  exact large ((add_zero a).symm ▸ fitsA)

theorem plus_exact_of_nonneg {a b : Int} (fitsA : Fits a) (fitsB : Fits b) (nonneg : 0 ≤ a) :
    Exact (plus log2 (small a) (small b)) (a + b) := by
  by_cases fits : Fits (a + b)
  · rw [plus_of_fits fits]
    exact exact_small fits
  · have converted := plus_converted accurate fitsA fitsB fits
    rwa [asLargeInteger_toInt accurate fitsA nonneg] at converted

/-- An operand of either kind plus one. -/
theorem plus_one_exact {number : Number} (operand : Operand number) :
    Exact (plus log2 number (small 1)) (number.toInt + 1) := by
  cases number with
  | small value =>
    by_cases nonneg : 0 ≤ value
    · exact plus_exact_of_nonneg accurate operand (by decide) nonneg
    · have fits : Fits (value + 1) := by
        have bounds : Fits value := operand
        unfold Fits minimum maximum at *
        lia
      rw [plus_of_fits fits]
      exact exact_small fits
  | large integer =>
    exact LargeInteger.plus_exact accurate operand (show Fits 1 by decide)
      (.inr fun same => nomatch same)

theorem negated_exact {number : Number} (operand : Operand number) :
    Exact (negated log2 number) (-number.toInt) := by
  cases number with
  | small value =>
    rw [negated]
    by_cases least : value = minimum
    · subst least
      rw [if_pos rfl]
      exact plus_one_exact accurate (show Fits maximum by decide)
    · have fits : Fits (0 - value) := by
        have bounds : Fits value := operand
        unfold Fits minimum maximum at *
        lia
      rw [if_neg least, newIntObject_eq fits, toInt, ← Int.zero_sub]
      exact exact_small fits
  | large integer =>
    obtain ⟨inverse, found, operand', value⟩ := LargeInteger.bitInvert_operand accurate operand
    have sum := plus_one_exact accurate operand'
    rw [value] at sum
    rw [negated, found, toInt, show -integer.toInt = -integer.toInt - 1 + 1 by lia]
    exact sum

theorem plus_exact_iff {a b : Int} (fitsA : Fits a) (fitsB : Fits b) :
    Exact (plus log2 (small a) (small b)) (a + b) ↔ Fits (a + b) ∨ -256 ≤ a := by
  by_cases fits : Fits (a + b)
  · rw [plus_of_fits fits]
    exact iff_of_true (exact_small fits) (.inl fits)
  · by_cases nonneg : 0 ≤ a
    · exact iff_of_true (plus_exact_of_nonneg accurate fitsA fitsB nonneg) (.inr (by lia))
    · have converted := plus_converted accurate fitsA fitsB fits
      rw [asLargeInteger_toInt_of_neg (by lia)] at converted
      constructor
      · intro exact
        have same := exact.unique converted
        exact .inr (by lia)
      · rintro (less | near)
        · exact absurd less fits
        · rwa [show a % 256 - 256 = a by lia] at converted

/-- A difference of a large integer is a sum. -/
theorem large_minus_exact {integer : LargeInteger} {number : Number}
    (operand : Operand (large integer)) (argument : Canonical number)
    (either : Canonical (large integer) ∨ number.toInt ≠ 0) :
    Exact (integer.minus log2 number) (integer.toInt - number.toInt) := by
  obtain ⟨result, found, canonical, value⟩ := negated_exact accurate argument.operand
  rw [LargeInteger.minus, found, Int.sub_eq_add_neg, ← value]
  refine LargeInteger.plus_exact accurate operand canonical (either.imp_right ?_)
  intro nonzero zero
  subst zero
  have none : (0 : Int) = -number.toInt := value
  lia

theorem minus_converted {a b : Int} (fitsA : Fits a) (fitsB : Fits b) (past : ¬ Fits (a - b)) :
    Exact (minus log2 (small a) (small b)) ((asLargeInteger log2 a).toInt - b) := by
  rw [minus, newIntObject_none past]
  refine @large_minus_exact log2 accurate _ (small b) (asLargeInteger_operand a) fitsB (.inr ?_)
  intro zero
  have none : b = 0 := zero
  exact past (by rwa [none, sub_zero])

theorem minus_exact_iff {a b : Int} (fitsA : Fits a) (fitsB : Fits b) :
    Exact (minus log2 (small a) (small b)) (a - b) ↔ Fits (a - b) ∨ -256 ≤ a := by
  by_cases fits : Fits (a - b)
  · rw [minus, newIntObject_eq fits]
    exact iff_of_true (exact_small fits) (.inl fits)
  · have converted := minus_converted accurate fitsA fitsB fits
    by_cases nonneg : 0 ≤ a
    · rw [asLargeInteger_toInt accurate fitsA nonneg] at converted
      exact iff_of_true converted (.inr (by lia))
    · rw [asLargeInteger_toInt_of_neg (by lia)] at converted
      constructor
      · intro exact
        have same := exact.unique converted
        exact .inr (by lia)
      · rintro (less | near)
        · exact absurd less fits
        · rwa [show a % 256 - 256 = a by lia] at converted

end Sums

end Number

end Egg.Arithmetic
