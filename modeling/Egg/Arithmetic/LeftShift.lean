import Egg.Arithmetic.BitShift
import Egg.Arithmetic.SmallInteger

/-! Shifts of small integers to the left, beyond the small integers. -/
namespace Egg.Arithmetic

open Egg.Data

namespace LargeInteger

variable {self : LargeInteger} {log2 : Nat → Int}

theorem base_pow_eq (index : Nat) : (base : Int) ^ index = 256 ^ (2 * index) := by
  rw [pow_mul]
  rfl

/-- A byte, also beyond the size, is that of the integer. -/
theorem byteAt_eq (self : LargeInteger) (index : Nat) :
    (self.byteAt (index + 1) : Int) = self.toInt / 256 ^ index % 256 := by
  rcases Nat.even_or_odd' index with ⟨digit, rfl | rfl⟩
  · rw [byteAt_low, Int.natCast_mod, wideDigitAt_mod, ← base_pow_eq]
    lia
  · have next : self.toInt / 256 ^ (2 * digit + 1) = self.toInt / (base : Int) ^ digit / 256 := by
      rw [pow_succ, ← base_pow_eq, Int.ediv_ediv_of_nonneg (base_pow_pos digit).le]
    rw [byteAt_high, Int.natCast_div, wideDigitAt_mod, next]
    lia

@[simp] theorem byteAtPut_negative (index byte : Nat) :
    (self.byteAtPut index byte).negative = self.negative :=
  rfl

@[simp] theorem byteAtPut_nbDigits (index byte : Nat) :
    (self.byteAtPut index byte).nbDigits = self.nbDigits :=
  List.length_modify ..

/-- A byte that is stored where there is none adds so much at its place. -/
theorem byteAtPut_toInt {index byte : Nat} (inside : index < 2 * self.nbDigits)
    (small : byte < 256) (free : self.byteAt (index + 1) = 0) :
    (self.byteAtPut (index + 1) byte).toInt = self.toInt + byte * 256 ^ index := by
  have within : index / 2 < self.digits.length := by
    rw [nbDigits] at inside
    lia
  have digit : self.wideDigitAt (index / 2 + 1) = self.digits[index / 2].toNat := by
    rw [wideDigitAt, Nat.add_sub_cancel, List.getD_eq_getElem?_getD,
      List.getElem?_eq_getElem within, Option.getD_some]
  have below := self.digits[index / 2].toNat_lt
  have grows : (UInt16.ofNat (if (index + 1) % 2 = 1 then
      self.digits[index / 2].toNat / 256 * 256 + byte
      else byte * 256 + self.digits[index / 2].toNat % 256)).toNat =
        self.digits[index / 2].toNat + byte * 256 ^ (index % 2) := by
    rw [UInt16.toNat_ofNat']
    rcases Nat.mod_two_eq_zero_or_one index with even | odd
    · rw [show index = 2 * (index / 2) by lia, byteAt_low, digit] at free
      rw [even, if_pos (by lia), pow_zero]
      lia
    · rw [show index + 1 = 2 * (index / 2) + 2 by lia, byteAt_high, digit] at free
      rw [odd, if_neg (by lia), pow_one]
      lia
  have sum := @ofDigits_modify _ UInt16.toNat base self.digits (index / 2)
    (byte * 256 ^ (index % 2)) (fun digit => UInt16.ofNat (if (index + 1) % 2 = 1 then
      digit.toNat / 256 * 256 + byte else byte * 256 + digit.toNat % 256)) within grows
  have place : (256 : Int) ^ (index % 2) * (base : Int) ^ (index / 2) = 256 ^ index := by
    rw [base_pow_eq, ← pow_add]
    congr 1
    lia
  rw [toInt, toInt, byteAtPut_nbDigits, byteAtPut_negative, byteAtPut, Nat.add_sub_cancel]
  simp only
  rw [sum]
  push_cast
  rw [mul_assoc, place]
  ring

/-- The bytes of an integer are put where there are none. -/
theorem putBytes_toInt {integer : Int} (nonneg : 0 ≤ integer) {start : Nat} (size : Nat)
    {result : LargeInteger} (positive : result.negative = false)
    (room : start + size ≤ 2 * result.nbDigits) (short : size ≤ wordSize)
    (free : result.toInt = 0) :
    (putBytes integer start size result).negative = false ∧
      (putBytes integer start size result).nbDigits = result.nbDigits ∧
      (putBytes integer start size result).toInt = integer % 256 ^ size * 256 ^ start := by
  induction size with
  | zero =>
    refine ⟨positive, rfl, ?_⟩
    rw [putBytes, free, pow_zero, Int.emod_one, zero_mul]
  | succ size ih =>
    obtain ⟨sign, count, value⟩ := ih (by lia) (by lia)
    have byte : (((Number.small integer).byteAt (size + 1) : Nat) : Int) =
        integer / 256 ^ size % 256 := by
      rw [Number.byteAt, if_neg (by lia), smallIntegerByteAt, Nat.add_sub_cancel]
      exact Int.toNat_of_nonneg (Int.emod_nonneg _ (by decide))
    have below : integer % 256 ^ size * 256 ^ start < 256 ^ (start + size) := by
      rw [pow_add, mul_comm]
      exact mul_lt_mul_of_pos_left (Int.emod_lt_of_pos _ (by positivity)) (by positivity)
    have above : 0 ≤ integer % 256 ^ size * 256 ^ start :=
      mul_nonneg (Int.emod_nonneg _ (by positivity)) (by positivity)
    have none : (putBytes integer start size result).byteAt (start + size + 1) = 0 := by
      have zero := byteAt_eq (putBytes integer start size result) (start + size)
      rw [value, Int.ediv_eq_zero_of_lt above below] at zero
      exact_mod_cast zero
    rw [putBytes, ← Nat.add_assoc]
    refine ⟨sign, by rw [byteAtPut_nbDigits, count], ?_⟩
    rw [byteAtPut_toInt (by rw [count]; lia) (Number.byteAt_lt _ _) none, value, byte]
    have split : integer % 256 ^ (size + 1) =
        integer % 256 ^ size + 256 ^ size * (integer / 256 ^ size % 256) := by
      obtain ⟨number, rfl⟩ := Int.eq_ofNat_of_zero_le nonneg
      rw [pow_succ]
      exact_mod_cast @Nat.mod_mul (256 ^ size) 256 number
    rw [split, pow_add]
    ring

theorem new_toInt (bytes : Int) : (new false bytes).toInt = 0 := by
  rw [toInt, new]
  simp only [sign, Bool.false_eq_true, if_false, List.map_replicate, sub_zero]
  have zeros := (Represents.replicate_zero base
    ((bytes + digitLength - 1) / digitLength).toNat).ofDigits_eq
  rw [Int.zero_emod] at zeros
  exact zeros

section Accurately

variable (accurate : Accurate log2)

include accurate

/-- A positive integer takes at most eight bytes. -/
theorem size_bounds {value : Int} (fits : Fits value) (positive : 0 < value) :
    1 ≤ primitiveSMISize log2 value ∧ primitiveSMISize log2 value ≤ 8 ∧
      primitiveSMISize log2 value = log2 value.toNat / 8 + 1 ∧
      value < 256 ^ (primitiveSMISize log2 value).toNat := by
  have size : primitiveSMISize log2 value = log2 value.toNat / 8 + 1 := by
    rw [primitiveSMISize, if_neg (by lia)]
  have fits' := fits
  unfold Fits minimum maximum at fits'
  obtain ⟨least, most⟩ := accurate.bounded value.toNat (by lia) (by lia)
  have log := (@Nat.log2_lt value.toNat 62 (by lia)).mpr (by lia)
  have nonneg := Int.natCast_nonneg (Nat.log2 value.toNat)
  refine ⟨by lia, by lia, size, ?_⟩
  exact @Number.lt_pow_of_size log2 accurate value fits positive _ (by lia)

/-- An integer that is moved up by whole bytes. -/
theorem fromInteger_toInt {value shift : Int} (fits : Fits value) (positive : 0 < value)
    (nonneg : 0 ≤ shift) :
    (fromInteger log2 value shift).negative = false ∧
      ((fromInteger log2 value shift).nbDigits : Int) =
        (primitiveSMISize log2 value + shift + 1) / 2 ∧
      (fromInteger log2 value shift).toInt = value * 256 ^ shift.toNat := by
  obtain ⟨least, most, -, below⟩ := size_bounds accurate fits positive
  have sign : decide (value < 0) = false := decide_eq_false (by lia)
  have count := length_new false (primitiveSMISize log2 value + shift)
  obtain ⟨sign', count', value'⟩ := @putBytes_toInt value positive.le shift.toNat
    (primitiveSMISize log2 value).toNat (new false (primitiveSMISize log2 value + shift)) rfl
    (by rw [count]; lia) (by unfold wordSize; lia) (new_toInt _)
  simp only [fromInteger]
  rw [sign, show primitiveSMISize log2 value + shift - primitiveSMISize log2 value = shift by lia]
  refine ⟨sign', by rw [count', count]; lia, ?_⟩
  rw [value', Int.emod_eq_of_lt positive.le below]

end Accurately

end LargeInteger

namespace Number

open LargeInteger

variable {log2 : Nat → Int} {self : Int} {n : Nat}

/-- The bits that a shift moves out of a byte are those of the next byte already. -/
theorem lor_high (value : Nat) {count : Nat} (short : count ≤ 8) :
    Int.lor ((value : Int) / 2 ^ (8 - count))
      ((small ((value : Int) % 256 * 2 ^ count)).byteAt 2 : Nat) =
        (value : Int) / 2 ^ (8 - count) := by
  have whole : 2 ^ (8 - count) * 2 ^ count = 256 := by
    rw [← pow_add, Nat.sub_add_cancel short]
    rfl
  have carried : (small ((value : Int) % 256 * 2 ^ count)).byteAt 2 =
      value % 256 / 2 ^ (8 - count) := by
    have cut : value % 256 * 2 ^ count / 256 = value % 256 / 2 ^ (8 - count) := by
      rw [← whole, Nat.mul_div_mul_right _ _ (by positivity)]
    have below : value % 256 / 2 ^ (8 - count) < 256 :=
      Nat.lt_of_le_of_lt (Nat.div_le_self ..) (Nat.mod_lt _ (by decide))
    have byte : ((value : Int) % 256 * 2 ^ count) / 256 ^ (2 - 1) % 256 =
        ((value % 256 * 2 ^ count / 256 % 256 : Nat) : Int) := by
      push_cast
      rfl
    rw [byteAt, if_neg (by decide), smallIntegerByteAt, byte, Int.toNat_natCast, cut,
      Nat.mod_eq_of_lt below]
  have split : value / 2 ^ (8 - count) =
      2 ^ count * (value / 256) + value % 256 / 2 ^ (8 - count) := by
    conv_lhs => rw [← Nat.div_add_mod value 256, ← whole, mul_assoc,
      Nat.mul_add_div (by positivity), whole]
  have small : value % 256 / 2 ^ (8 - count) < 2 ^ count := by
    rw [Nat.div_lt_iff_lt_mul (by positivity), Nat.mul_comm, whole]
    exact Nat.mod_lt _ (by decide)
  have joined : value / 2 ^ (8 - count) ||| value % 256 / 2 ^ (8 - count) =
      value / 2 ^ (8 - count) := by
    refine Nat.eq_of_testBit_eq fun place => ?_
    rw [Nat.testBit_or, split, Nat.testBit_two_pow_mul_add _ small]
    split_ifs with low
    · exact Bool.or_self _
    · rw [Nat.testBit_lt_two_pow (small.trans_le (Nat.pow_le_pow_right (by decide) (by lia))),
        Bool.or_false]
  rw [carried]
  exact_mod_cast congrArg Int.ofNat joined

/-- A number without its lowest bits has so many fewer. -/
theorem log2_div {number count : Nat} (some : 0 < number / 2 ^ count) :
    Nat.log2 (number / 2 ^ count) + count = Nat.log2 number := by
  have log := (@Nat.log2_eq_iff (number / 2 ^ count) _ (by lia)).mp rfl
  have above : 0 < number := Nat.pos_of_ne_zero fun zero => by
    rw [zero, Nat.zero_div] at some
    exact absurd some (lt_irrefl 0)
  refine ((Nat.log2_eq_iff (by lia)).mpr ⟨?_, ?_⟩).symm
  · rw [pow_add]
    exact (Nat.le_div_iff_mul_le (by positivity)).mp log.1
  · rw [Nat.add_right_comm, pow_add]
    exact (Nat.div_lt_iff_lt_mul (by positivity)).mp log.2

theorem bitShiftLeft_none (nonneg : 0 ≤ self) (past : ¬ Fits (self * 2 ^ n)) :
    Arithmetic.bitShiftLeft self n = none := by
  have positive : (0 : Int) < 2 ^ n := by positivity
  rw [Arithmetic.bitShiftLeft, if_pos]
  refine .inr ⟨?_, .inl ?_⟩
  · rintro rfl
    rw [zero_mul] at past
    exact past (by decide)
  · by_contra inside
    rw [not_lt, Int.shiftRight_eq_div_pow] at inside
    push_cast at inside
    refine past ⟨?_, (Int.le_ediv_iff_mul_le positive).mp inside⟩
    have above := mul_nonneg nonneg positive.le
    unfold minimum
    lia

theorem bitShift_past (positive : 0 < self) (some : 0 < n) (past : ¬ Fits (self * 2 ^ n)) :
    bitShift log2 (small self) n = (shiftedLeft log2 self n).map large := by
  rw [bitShift, if_pos (by lia), Int.toNat_natCast, bitShiftLeft_none positive.le past]
  simp only
  rw [bitShiftLeft, if_neg positive.ne', if_neg (by lia)]

section Shifted

variable (accurate : Accurate log2)

include accurate

theorem highBit_eq {value : Int} (fits : Fits value) (positive : 0 < value) :
    highBit log2 value.toNat = log2 value.toNat + 1 ∧ 0 ≤ log2 value.toNat := by
  unfold Fits minimum maximum at fits
  have least := (accurate.bounded value.toNat (by lia) (by lia)).1
  rw [highBit, if_neg (by lia)]
  exact ⟨rfl, by lia⟩

/-- A shift by whole bytes moves them. -/
theorem shiftedLeft_whole (fits : Fits self) (positive : 0 < self) (whole : n % 8 = 0) :
    ∃ result, shiftedLeft log2 self n = some result ∧ result.negative = false ∧
      (result.nbDigits : Int) = (primitiveSMISize log2 self + (n / 8 : Nat) + 1) / 2 ∧
      result.toInt = self * 256 ^ (n / 8) := by
  obtain ⟨high, nonneg⟩ := highBit_eq accurate fits positive
  obtain ⟨-, -, size, -⟩ := size_bounds accurate fits positive
  obtain ⟨sign, count, value⟩ := @fromInteger_toInt log2 accurate self ((n / 8 : Nat) : Int) fits
    positive (Int.natCast_nonneg _)
  refine ⟨fromInteger log2 self ((n / 8 : Nat) : Int), ?_, sign, count, ?_⟩
  · rw [shiftedLeft]
    simp only [whole, if_true, high, size]
    congr 2
    lia
  · rw [value, Int.toNat_natCast]

/-- A shift by other counts puts the high part and the low byte side by side; the place of the high
part depends on what is taken for the sizes. -/
theorem shiftedLeft_parts (fits : Fits self) (positive : 0 < self) (part : n % 8 ≠ 0)
    (high : 0 < self / 2 ^ (8 - n % 8)) {shift : Int}
    (place : shift = ((n : Int) + log2 self.toNat + 8) / 8 -
      primitiveSMISize log2 (self / 2 ^ (8 - n % 8))) :
    (shift < 1 → shiftedLeft log2 self n = none) ∧
    (1 ≤ shift → ∃ result, shiftedLeft log2 self n = some result ∧ result.negative = false ∧
      (result.nbDigits : Int) = (((n : Int) + log2 self.toNat + 8) / 8 + 1) / 2 ∧
      result.toInt = self / 2 ^ (8 - n % 8) * 256 ^ shift.toNat +
        self * 2 ^ (n % 8) % 256 * 256 ^ (shift.toNat - 1)) := by
  obtain ⟨log, nonneg⟩ := highBit_eq accurate fits positive
  obtain ⟨number, rfl⟩ := Int.eq_ofNat_of_zero_le positive.le
  have fits' : Fits ((number : Int) / 2 ^ (8 - n % 8)) := by
    have less := Int.ediv_le_self (2 ^ (8 - n % 8)) positive.le
    unfold Fits minimum maximum at *
    lia
  have lows : (number : Int) % 256 * 2 ^ (n % 8) % 256 = number * 2 ^ (n % 8) % 256 := by
    rw [Int.mul_emod, Int.emod_emod_of_dvd _ (dvd_refl 256), ← Int.mul_emod]
  have parts := lor_high number (show n % 8 ≤ 8 by lia)
  have unfolded : shiftedLeft log2 number n =
      if shift < 1 then none
      else some ((fromInteger log2 ((number : Int) / 2 ^ (8 - n % 8)) shift).byteAtPut shift.toNat
        ((number : Int) * 2 ^ (n % 8) % 256).toNat) := by
    have place' : ((n : Int) + (log2 (number : Int).toNat + 1) + 7) / 2 ^ 3 -
        primitiveSMISize log2 ((number : Int) / 2 ^ (8 - n % 8)) = shift := by
      rw [place]
      lia
    rw [shiftedLeft]
    simp only [part, if_false, parts, if_neg high.ne', lows, log, place']
  rw [unfolded]
  refine ⟨fun small => if_pos small, fun large => ⟨_, if_neg (not_lt.mpr large), ?_, ?_, ?_⟩⟩
  all_goals obtain ⟨sign, count, value⟩ := fromInteger_toInt accurate fits' high (by lia : 0 ≤ shift)
  · exact sign
  · rw [byteAtPut_nbDigits, count, place]
    congr 2
    lia
  · obtain ⟨index, rfl⟩ : ∃ index : Nat, shift = index + 1 := ⟨(shift - 1).toNat, by lia⟩
    have index' : ((index : Int) + 1).toNat = index + 1 := by lia
    have low : 0 ≤ (number : Int) * 2 ^ (n % 8) % 256 ∧ (number : Int) * 2 ^ (n % 8) % 256 < 256 :=
      ⟨Int.emod_nonneg _ (by decide), Int.emod_lt_of_pos _ (by decide)⟩
    rw [index'] at value ⊢
    have free : (fromInteger log2 ((number : Int) / 2 ^ (8 - n % 8)) (index + 1)).byteAt
        (index + 1) = 0 := by
      have byte := byteAt_eq (fromInteger log2 ((number : Int) / 2 ^ (8 - n % 8)) (index + 1)) index
      rw [value, pow_succ, mul_comm ((256 : Int) ^ index), ← mul_assoc,
        Int.mul_ediv_cancel _ (by positivity), Int.mul_emod_left] at byte
      exact_mod_cast byte
    obtain ⟨-, -, size, -⟩ := size_bounds accurate fits' high
    have least := (highBit_eq accurate fits' high).2
    rw [byteAtPut_toInt (by lia) (by lia) free, value, Int.toNat_of_nonneg low.1,
      Nat.add_sub_cancel]

/-- A number that stays within a byte is shifted there, and then moved. -/
theorem shiftedLeft_byte (fits : Fits self) (positive : 0 < self) (part : n % 8 ≠ 0)
    (low : self / 2 ^ (8 - n % 8) = 0) :
    ∃ result, shiftedLeft log2 self n = some result ∧ result.negative = false ∧
      (result.nbDigits : Int) = (((n : Int) + log2 self.toNat + 8) / 8 + 1) / 2 ∧
      result.toInt = self * 2 ^ n := by
  obtain ⟨log, nonneg⟩ := highBit_eq accurate fits positive
  obtain ⟨number, rfl⟩ := Int.eq_ofNat_of_zero_le positive.le
  have whole : (2 : Int) ^ (8 - n % 8) * 2 ^ (n % 8) = 256 := by
    rw [← pow_add, Nat.sub_add_cancel (by lia)]
    rfl
  have below : (number : Int) < 2 ^ (8 - n % 8) := by
    by_contra above
    have one := Int.le_ediv_of_mul_le (by positivity) (show 1 * 2 ^ (8 - n % 8) ≤ (number : Int) by
      rwa [one_mul, ← not_lt])
    lia
  have byte : (number : Int) * 2 ^ (n % 8) < 256 := by
    rw [← whole]
    exact mul_lt_mul_of_pos_right below (by positivity)
  have small : (number : Int) < 256 := by
    have one : (1 : Int) ≤ 2 ^ (n % 8) := one_le_pow₀ (by decide)
    nlinarith
  have positive' : 0 < (number : Int) * 2 ^ (n % 8) := by positivity
  have parts := lor_high number (show n % 8 ≤ 8 by lia)
  have logs : log2 number + n % 8 < 8 := by
    rw [accurate.exact number (by lia) (by lia)]
    have bound := (@Nat.log2_lt number (8 - n % 8) (by lia)).mpr (by exact_mod_cast below)
    lia
  obtain ⟨sign, count, value⟩ := @fromInteger_toInt log2 accurate ((number : Int) * 2 ^ (n % 8))
    ((n / 8 : Nat) : Int) (by unfold Fits minimum maximum; lia) positive' (Int.natCast_nonneg _)
  refine ⟨fromInteger log2 ((number : Int) * 2 ^ (n % 8)) ((n / 8 : Nat) : Int), ?_, sign, ?_, ?_⟩
  · have place : ((n : Int) + (log2 (number : Int).toNat + 1) + 7) / 2 ^ 3 - 1 = (n / 8 : Nat) := by
      rw [Int.toNat_natCast] at nonneg ⊢
      lia
    rw [low] at parts
    rw [shiftedLeft]
    simp only [part, if_false, low, parts, if_true, log, place]
    rw [Int.emod_eq_of_lt positive.le small, Int.emod_eq_of_lt positive'.le byte]
  · have one : primitiveSMISize log2 ((number : Int) * 2 ^ (n % 8)) = 1 := by
      obtain ⟨least, -, size, -⟩ := @size_bounds log2 accurate ((number : Int) * 2 ^ (n % 8))
        (by unfold Fits minimum maximum; lia) positive'
      have exact := accurate.exact ((number : Int) * 2 ^ (n % 8)).toNat (by lia) (by lia)
      have bound := (@Nat.log2_lt ((number : Int) * 2 ^ (n % 8)).toNat 8 (by lia)).mpr (by lia)
      lia
    rw [count, one, Int.toNat_natCast]
    rw [Int.toNat_natCast] at nonneg
    lia
  · have power : (256 : Int) ^ (n / 8) = 2 ^ (8 * (n / 8)) := by
      rw [pow_mul]
      rfl
    rw [value, Int.toNat_natCast, power, mul_assoc, ← pow_add, Nat.mod_add_div]

/-- Where no logarithm is rounded up, a shift beyond the small integers is right. -/
theorem shiftedLeft_exact (fits : Fits self) (positive : 0 < self)
    (unrounded : log2 self.toNat = Nat.log2 self.toNat)
    (high : n % 8 ≠ 0 → 0 < self / 2 ^ (8 - n % 8) → log2 (self / 2 ^ (8 - n % 8)).toNat =
      Nat.log2 (self / 2 ^ (8 - n % 8)).toNat) :
    ∃ result, shiftedLeft log2 self n = some result ∧ result.negative = false ∧
      (result.nbDigits : Int) = (((n : Int) + log2 self.toNat + 8) / 8 + 1) / 2 ∧
      result.toInt = self * 2 ^ n := by
  by_cases whole : n % 8 = 0
  · obtain ⟨result, found, sign, count, value⟩ := shiftedLeft_whole accurate fits positive whole
    obtain ⟨-, -, size, -⟩ := size_bounds accurate fits positive
    refine ⟨result, found, sign, by rw [count, size]; lia, ?_⟩
    have power : (2 : Int) ^ n = 256 ^ (n / 8) := by
      conv_lhs => rw [← Nat.mul_div_cancel' (Nat.dvd_of_mod_eq_zero whole), pow_mul]
      rfl
    rw [value, power]
  · by_cases low : self / 2 ^ (8 - n % 8) = 0
    · exact shiftedLeft_byte accurate fits positive whole low
    · have above : 0 < self / 2 ^ (8 - n % 8) := by
        have nonneg := Int.ediv_nonneg positive.le (show (0 : Int) ≤ 2 ^ (8 - n % 8) by positivity)
        lia
      obtain ⟨-, -, size, -⟩ := @size_bounds log2 accurate (self / 2 ^ (8 - n % 8)) (by
        have less := Int.ediv_le_self (2 ^ (8 - n % 8)) positive.le
        unfold Fits minimum maximum at *
        lia) above
      have place : ((n / 8 + 1 : Nat) : Int) = ((n : Int) + log2 self.toNat + 8) / 8 -
          primitiveSMISize log2 (self / 2 ^ (8 - n % 8)) := by
        obtain ⟨number, rfl⟩ := Int.eq_ofNat_of_zero_le positive.le
        have cut : ((number : Int) / 2 ^ (8 - n % 8)).toNat = number / 2 ^ (8 - n % 8) := by
          rw [← Int.toNat_natCast (number / 2 ^ (8 - n % 8))]
          push_cast
          rfl
        have log := @log2_div number (8 - n % 8) (by rw [← cut]; lia)
        rw [size, high whole above, unrounded, cut, Int.toNat_natCast]
        lia
      obtain ⟨-, found⟩ := shiftedLeft_parts accurate fits positive whole above place
      obtain ⟨result, found, sign, count, value⟩ := found (by lia)
      refine ⟨result, found, sign, count, ?_⟩
      have bits : (2 : Int) ^ (8 - n % 8) * 2 ^ (n % 8) = 256 := by
        rw [← pow_add, Nat.sub_add_cancel (by lia)]
        rfl
      have halves : self / 2 ^ (8 - n % 8) = self * 2 ^ (n % 8) / 256 := by
        rw [← bits, Int.mul_ediv_mul_of_pos_left _ _ (by positivity)]
      have split := Int.mul_ediv_add_emod (self * 2 ^ (n % 8)) 256
      have power : (2 : Int) ^ n = 2 ^ (n % 8) * 256 ^ (n / 8) := by
        conv_lhs => rw [← Nat.mod_add_div n 8, pow_add, pow_mul]
        rfl
      rw [value, Int.toNat_natCast, Nat.add_sub_cancel, halves, power, pow_succ]
      linear_combination (256 : Int) ^ (n / 8) * split

/-- The logarithm is not rounded up for what a shift takes the sizes of. -/
def Sized (log2 : Nat → Int) (self : Int) (n : Nat) : Prop :=
  log2 self.toNat = Nat.log2 self.toNat ∧
    (n % 8 ≠ 0 → 0 < self / 2 ^ (8 - n % 8) → log2 (self / 2 ^ (8 - n % 8)).toNat =
      Nat.log2 (self / 2 ^ (8 - n % 8)).toNat)

/-- The logarithms of numbers of 32 bits are exact. -/
theorem sized_of_lt (positive : 0 < self) (small : self < 2 ^ 32) : Sized log2 self n := by
  refine ⟨accurate.exact _ (by lia) (by lia), fun _ above => ?_⟩
  have less := Int.ediv_le_self (2 ^ (8 - n % 8)) positive.le
  exact accurate.exact _ (by lia) (by lia)

/-- A shift beyond the small integers is canonical. -/
theorem shiftedLeft_canonical (fits : Fits self) (positive : 0 < self) (sized : Sized log2 self n)
    (past : ¬ Fits (self * 2 ^ n)) :
    Exact ((shiftedLeft log2 self n).map large) (self * 2 ^ n) := by
  obtain ⟨result, found, sign, count, value⟩ :=
    shiftedLeft_exact accurate fits positive sized.1 sized.2
  obtain ⟨log, nonneg⟩ := highBit_eq accurate fits positive
  rw [sized.1] at count nonneg
  have within := result.within_toInt
  rw [Within, if_neg (by rw [sign]; decide)] at within
  refine ⟨large result, by rw [found]; rfl, ⟨by rwa [value], ?_⟩, value⟩
  rw [Takes, if_neg (by rw [sign]; decide)]
  refine ⟨within.1, within.2, .inr ?_⟩
  obtain ⟨number, rfl⟩ := Int.eq_ofNat_of_zero_le positive.le
  rw [Int.toNat_natCast] at count
  have log := Nat.log2_self_le (n := number) (by lia)
  have power : (base : Int) ^ (result.nbDigits - 1) ≤ (2 : Int) ^ (Nat.log2 number + n) := by
    rw [show (base : Int) = 2 ^ 16 from rfl, ← pow_mul]
    exact pow_le_pow_right₀ (by decide) (by lia)
  rw [value]
  refine power.trans ?_
  rw [pow_add]
  exact mul_le_mul_of_nonneg_right (by exact_mod_cast log) (by positivity)

/-- A shift of a small integer to the left is exact where it stays small, or the sizes are right. -/
theorem bitShift_small_exact (fits : Fits self) (nonneg : 0 ≤ self)
    (sized : Fits (self * 2 ^ n) ∨ Sized log2 self n) :
    Exact (bitShift log2 (small self) n) (self * 2 ^ n) := by
  by_cases still : n = 0
  · subst still
    rw [bitShift, if_neg (by decide), if_neg (by decide), pow_zero, mul_one]
    simp only [Int.natCast_zero, Int.neg_zero, Int.toNat_zero, pow_zero, Int.ediv_one]
    exact exact_small fits
  · rw [bitShift, if_pos (by lia), Int.toNat_natCast]
    by_cases zero : self = 0
    · subst zero
      rw [zero_mul, bitShiftLeft, if_pos rfl]
      cases shifted : Arithmetic.bitShiftLeft 0 n with
      | none => exact exact_small (by decide)
      | some result =>
        rw [Arithmetic.bitShiftLeft] at shifted
        split_ifs at shifted
        cases shifted
        simp only [zero_mul]
        exact exact_small (by decide)
    · have positive : 0 < self := by lia
      by_cases inside : Fits (self * 2 ^ n)
      · have short : n < 63 := by
          by_contra long
          have power : (2 : Int) ^ 63 ≤ 2 ^ n := pow_le_pow_right₀ (by decide) (by lia)
          unfold Fits maximum at inside
          nlinarith
        rw [bitShiftLeft_eq inside short]
        exact exact_small inside
      · have past := @bitShift_past log2 self n positive (by lia) inside
        rw [bitShift, if_pos (by lia), Int.toNat_natCast] at past
        rw [past]
        exact shiftedLeft_canonical accurate fits positive (sized.resolve_left inside) inside

end Shifted

end Number

end Egg.Arithmetic
