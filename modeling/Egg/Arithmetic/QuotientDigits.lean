import Egg.Arithmetic.LargeDivision
import Egg.Arithmetic.LeftShift
import Egg.Data.LongDivision

/-! The digits of a quotient are estimated and corrected. -/
namespace Egg.Arithmetic

open Egg.Data

section Machine

variable {a b : Int}

theorem Fits.ediv_pos (fits : Fits a) (positive : 0 < b) : Fits (a / b) := by
  have apart := (fdiv_fits_iff fits positive.ne').mpr (by omega)
  rwa [Int.fdiv_eq_ediv_of_nonneg _ positive.le] at apart

/-- The machine divides by a positive number as one does by hand. -/
theorem machine_div (fits : Fits a) (positive : 0 < b) :
    machine primitiveSMIIntDiv a b = some (a / b) := by
  rw [machine, if_neg positive.ne', primitiveSMIIntDiv_eq positive.ne',
    Int.fdiv_eq_ediv_of_nonneg _ positive.le, (tagged_iff.mpr (fits.ediv_pos positive)).2]

theorem machine_mod (fits : Fits b) (positive : 0 < b) :
    machine primitiveSMIIntQuot a b = some (a % b) := by
  rw [machine, if_neg positive.ne', primitiveSMIIntQuot_eq,
    (tagged_iff.mpr (fmod_fits fits positive.ne')).2, Int.fmod_eq_emod_of_nonneg _ positive.le]

end Machine

namespace LargeInteger

theorem aux_digits {low high : Nat} (small : low < base) (small' : high < base) :
    (aux low high).wideDigitAt 1 = low ∧ (aux low high).wideDigitAt 2 = high := by
  constructor
  · change (UInt16.ofNat low).toNat = low
    rw [UInt16.toNat_ofNat']
    exact Nat.mod_eq_of_lt small
  · change (UInt16.ofNat high).toNat = high
    rw [UInt16.toNat_ofNat']
    exact Nat.mod_eq_of_lt small'

/-- The lowest bits of the divisor are left out first, and come back in the remainder. -/
theorem twoDigitsQuoRem_eq {low high d : Nat} (small : low < base) (small' : high < base)
    (least : 4 ≤ d) (most : d < base) : (aux low high).twoDigitsQuoRem d =
      some (((high * base + low : Nat) : Int) / d, ((high * base + low : Nat) : Int) % d) := by
  obtain ⟨first, second⟩ := aux_digits small small'
  rw [show base = 65536 from rfl] at *
  have shifted : Arithmetic.bitShiftLeft (high : Int) (bits - twoDigitDivisionBits) =
      some ((high : Int) * 16384) :=
    bitShiftLeft_eq (by unfold Fits minimum maximum bits twoDigitDivisionBits; omega) (by decide)
  have lows : Int.land (d : Int) (2 ^ twoDigitDivisionBits - 1) = (d : Int) % 4 := by
    change ((d &&& (2 ^ 2 - 1) : Nat) : Int) = _
    rw [Nat.and_two_pow_sub_one_eq_mod]
    rfl
  obtain ⟨d1, quarter⟩ : ∃ d1 : Int, d1 = (d : Int) / 2 ^ twoDigitDivisionBits := ⟨_, rfl⟩
  have cut : (d : Int) = 4 * d1 + (d : Int) % 4 := by
    unfold twoDigitDivisionBits at quarter
    omega
  have positive : 0 < d1 := by omega
  obtain ⟨q1, quotient⟩ : ∃ q1 : Int, q1 = (high : Int) * 16384 / d1 := ⟨_, rfl⟩
  obtain ⟨r1, remainder⟩ : ∃ r1 : Int, r1 = (high : Int) * 16384 % d1 := ⟨_, rfl⟩
  have split := Int.mul_ediv_add_emod ((high : Int) * 16384) d1
  rw [← quotient, ← remainder] at split
  have above : 0 ≤ r1 := remainder ▸ Int.emod_nonneg _ positive.ne'
  have below : r1 < d1 := remainder ▸ Int.emod_lt_of_pos _ positive
  have above' : 0 ≤ q1 := quotient ▸ Int.ediv_nonneg (by omega) positive.le
  have below' : q1 ≤ high * 16384 := quotient ▸ Int.ediv_le_self _ (by omega)
  have back : Arithmetic.bitShiftLeft r1 twoDigitDivisionBits = some (r1 * 4) :=
    bitShiftLeft_eq (by unfold Fits minimum maximum twoDigitDivisionBits; omega) (by decide)
  have whole : r1 * 4 - (d : Int) % 4 * q1 + low =
      ((high * 65536 + low : Nat) : Int) + d * -q1 := by
    push_cast
    linear_combination (4 : Int) * split + q1 * cut
  have fits : Fits (r1 * 4 - (d : Int) % 4 * q1 + low) := by
    have product : 0 ≤ (d : Int) % 4 * q1 ∧ (d : Int) % 4 * q1 ≤ 3 * q1 :=
      ⟨mul_nonneg (by omega) above', mul_le_mul_of_nonneg_right (by omega) above'⟩
    unfold Fits minimum maximum
    omega
  have fits' : Fits (d : Int) := by
    unfold Fits minimum maximum
    omega
  have divisor : (0 : Int) < d := by omega
  rw [twoDigitsQuoRem]
  simp only [first, second, lows, shifted, ← quarter, Option.bind_eq_bind, Option.bind_some]
  rw [machine_div (by unfold Fits minimum maximum; omega) positive,
    machine_mod (by unfold Fits minimum maximum; omega) positive, ← quotient, ← remainder]
  simp only [Option.bind_some, back]
  rw [machine_div fits divisor, machine_mod fits' divisor, whole, Int.add_mul_emod_self_left,
    Int.add_mul_ediv_left _ _ divisor.ne']
  simp only [Option.bind_some]
  congr 2
  omega

section Lowered

variable {v2 a2 b : Nat}

/-- The estimate is lowered to the quotient of the three leading digits by the two. -/
theorem lowered_eq (small : v2 < base) (small' : a2 < base) (positive : 0 < b) {qhat rhat : Nat}
    (below : qhat < base)
    (enough : ((qhat * b + rhat) * base + a2) / (b * base + v2) ≤ qhat) :
    lowered v2 a2 b qhat rhat = ((qhat * b + rhat) * base + a2) / (b * base + v2) := by
  induction qhat generalizing rhat with
  | zero => exact (Nat.le_zero.mp enough).symm
  | succ qhat ih =>
    have product : (qhat + 1) * v2 < base * base := Nat.mul_lt_mul'' below small
    have high : (Number.small ((qhat + 1 : Nat) * v2)).wideDigitAt 2 = (qhat + 1) * v2 / base := by
      have digit := Number.wideDigitAt_eq (.small ((qhat + 1 : Nat) * v2)) 1
      have bound : (qhat + 1) * v2 / base < base := Nat.div_lt_of_lt_mul product
      have same : ((Number.small ((qhat + 1 : Nat) * v2)).toInt / (base : Int) ^ 1 % base) =
          (((qhat + 1) * v2 / base % base : Nat) : Int) := by
        rw [pow_one]
        push_cast
        rfl
      rw [same, Nat.mod_eq_of_lt bound] at digit
      exact_mod_cast digit
    have low : (Number.small ((qhat + 1 : Nat) * v2)).wideDigitAt 1 = (qhat + 1) * v2 % base := by
      have digit := Number.wideDigitAt_eq (.small ((qhat + 1 : Nat) * v2)) 0
      have same : ((Number.small ((qhat + 1 : Nat) * v2)).toInt / (base : Int) ^ 0 % base) =
          (((qhat + 1) * v2 % base : Nat) : Int) := by
        rw [pow_zero, Int.ediv_one]
        push_cast
        rfl
      rw [same] at digit
      exact_mod_cast digit
    have positive' : 0 < b * base + v2 := by
      have least := Nat.mul_pos positive (show 0 < base by decide)
      omega
    have split := Nat.div_add_mod ((qhat + 1) * v2) base
    have rest := Nat.mod_lt ((qhat + 1) * v2) (show 0 < base by decide)
    have compared : (rhat < (qhat + 1) * v2 / base ∨
        rhat = (qhat + 1) * v2 / base ∧ a2 < (qhat + 1) * v2 % base) ↔
          ((qhat + 1) * b + rhat) * base + a2 < (qhat + 1) * (b * base + v2) := by
      have parts : ((qhat + 1) * b + rhat) * base + a2 =
          (qhat + 1) * (b * base) + (base * rhat + a2) := by ring
      rw [parts, mul_add, Nat.add_lt_add_iff_left, ← split]
      rw [show base = 65536 from rfl] at *
      omega
    rw [lowered]
    simp only [high, low]
    by_cases above : ((qhat + 1) * b + rhat) * base + a2 < (qhat + 1) * (b * base + v2)
    · have same : qhat * b + (rhat + b) = (qhat + 1) * b + rhat := by ring
      rw [if_pos (compared.mpr above), ih (by omega) (by
        rw [same]
        exact Nat.le_of_lt_succ ((Nat.div_lt_iff_lt_mul positive').mpr above)), same]
    · rw [if_neg fun less => above (compared.mp less)]
      exact Nat.le_antisymm ((Nat.le_div_iff_mul_le positive').mpr (not_lt.mp above)) enough

end Lowered

/-- The digits of a natural number. -/
theorem wideDigitAt_nat {u : Number} {U : Nat} (value : u.toInt = U) (index : Nat) :
    u.wideDigitAt (index + 1) = U / base ^ index % base := by
  have digit := u.wideDigitAt_eq index
  rw [value] at digit
  exact_mod_cast digit

/-- A divisor of two digits or more whose highest one has its highest bit. -/
structure Normalised (v : Number) (V n b : Nat) : Prop where
  value : v.toInt = V
  two : 2 ≤ n
  below : V < base ^ n
  leading : V / base ^ (n - 1) = b
  half : base ≤ 2 * b

/-- Two digits are divided by one, by the machine or in parts. -/
theorem leadingQuoRem_eq {a0 a1 b : Nat} (small : a0 < base) (small' : a1 < base)
    (least : 4 ≤ b) (most : b < base) : leadingQuoRem a0 a1 b =
      some ((((a0 * base + a1) / b : Nat) : Int), (((a0 * base + a1) % b : Nat) : Int)) := by
  have positive : (0 : Int) < b := by omega
  rw [leadingQuoRem]
  split_ifs with low
  · have shifted : Arithmetic.bitShiftLeft (a0 : Int) bits = some ((a0 : Int) * 65536) :=
      bitShiftLeft_eq (by unfold Fits minimum maximum bits; omega) (by decide)
    have joined : (a0 : Int) * 65536 + a1 = ((a0 * base + a1 : Nat) : Int) := by
      rw [show base = 65536 from rfl]
      push_cast
      ring
    rw [shifted]
    simp only [Option.bind_eq_bind, Option.bind_some, joined]
    rw [machine_div (by
      rw [← joined]
      unfold Fits minimum maximum
      rw [show base = 65536 from rfl] at small'
      omega) positive]
    simp only [Option.bind_some]
    generalize a0 * base + a1 = t
    have split := Int.mul_ediv_add_emod (t : Int) b
    rw [Int.natCast_div, Int.natCast_mod]
    congr 2
    linear_combination -split
  · rw [twoDigitsQuoRem_eq small' small least most]
    rfl

section Estimates

variable {u v : Number} {U V n b j : Nat}

theorem Normalised.positive (normal : Normalised v V n b) : 0 < V := by
  rcases Nat.eq_zero_or_pos V with rfl | positive
  · have leading := normal.leading
    have half := normal.half
    rw [Nat.zero_div] at leading
    rw [← leading] at half
    exact absurd half (by decide)
  · exact positive

/-- Without equal leading digits the estimate is made from a quotient of two digits. -/
theorem estimate_of_ne {u v : Number} {n k b q r : Nat} (other : u.wideDigitAt k ≠ b)
    (divided : leadingQuoRem (u.wideDigitAt k) (u.wideDigitAt (k - 1)) b =
      some ((q : Int), (r : Int))) :
    estimate u v n k b = some (lowered (v.wideDigitAt (n - 1)) (u.wideDigitAt (k - 2)) b q r) := by
  rw [estimate]
  dsimp only
  rw [if_neg other, divided]
  rfl

/-- The digit is that of the quotient or the next one. -/
theorem estimate_spec (normal : Normalised v V n b) (value : u.toInt = U)
    (below : U < V * base ^ (j + 1)) :
    ∃ qhat, estimate u v n (j + 1 + n) b = some qhat ∧ qhat < base ∧
      U / (V * base ^ j) ≤ qhat ∧ qhat ≤ U / (V * base ^ j) + 1 := by
  have positive := normal.positive
  obtain ⟨value', two, within, leading, half⟩ := normal
  obtain ⟨n, rfl⟩ : ∃ more, n = more + 2 := ⟨n - 2, by omega⟩
  rw [show n + 2 - 1 = n + 1 by omega] at leading
  have place (count : Nat) : 0 < base ^ count := Nat.pow_pos (by decide)
  have digitBelow : b < base := by
    rw [← leading, Nat.div_lt_iff_lt_mul (place _), ← Nat.pow_succ']
    exact within
  have quotient : U / (V * base ^ j) < base := by
    rw [Nat.div_lt_iff_lt_mul (Nat.mul_pos positive (place j))]
    calc U < V * base ^ (j + 1) := below
      _ = base * (V * base ^ j) := by ring
  have nearV : V < base ^ (n + 1) * (b + 1) := by
    rw [← leading]
    exact Nat.lt_mul_div_succ V (place _)
  have top : U / base ^ (j + n + 2) ≤ b := by
    rw [← Nat.lt_succ_iff, Nat.div_lt_iff_lt_mul (place _)]
    calc U < V * base ^ (j + 1) := below
      _ ≤ base ^ (n + 1) * (b + 1) * base ^ (j + 1) := Nat.mul_le_mul_right _ nearV.le
      _ = (b + 1) * base ^ (j + n + 2) := by ring
  have a0 : u.wideDigitAt (j + 1 + (n + 2)) = U / base ^ (j + n + 2) := by
    rw [show j + 1 + (n + 2) = j + n + 2 + 1 by omega, wideDigitAt_nat value,
      Nat.mod_eq_of_lt (top.trans_lt digitBelow)]
  have scaled (count : Nat) : V * base ^ j / (base ^ count * base ^ j) = V / base ^ count :=
    Nat.mul_div_mul_right _ _ (place j)
  by_cases same : U / base ^ (j + n + 2) = b
  · rw [estimate, a0]
    dsimp only
    rw [if_pos same]
    have highest := @LongDivision.highest_estimate base U (V * base ^ j)
      (base ^ (n + 1) * base ^ j) (by rw [scaled, leading]; omega) (by
        rw [scaled, leading, show base ^ (n + 1) * base ^ j * base = base ^ (j + n + 2) by ring]
        exact same) quotient
    exact ⟨base - 1, rfl, by decide, highest⟩
  · have other : u.wideDigitAt (j + 1 + (n + 2)) ≠ b := a0 ▸ same
    have a1 : u.wideDigitAt (j + 1 + (n + 2) - 1) = U / base ^ (j + n + 1) % base := by
      rw [show j + 1 + (n + 2) - 1 = j + n + 1 + 1 by omega, wideDigitAt_nat value]
    have a2 : u.wideDigitAt (j + 1 + (n + 2) - 2) = U / base ^ (j + n) % base := by
      rw [show j + 1 + (n + 2) - 2 = j + n + 1 by omega, wideDigitAt_nat value]
    have v2 : v.wideDigitAt (n + 2 - 1) = V / base ^ n % base := by
      rw [show n + 2 - 1 = n + 1 by omega, wideDigitAt_nat value']
    have next (W count : Nat) : W / base ^ (count + 1) * base + W / base ^ count % base =
        W / base ^ count := by
      rw [Nat.pow_succ, ← Nat.div_div_eq_div_mul, Nat.mul_comm, Nat.div_add_mod]
    have less : U / base ^ (j + n + 2) < b := lt_of_le_of_ne top same
    have least : 0 < b := by omega
    have two := next U (j + n + 1)
    have three := next U (j + n)
    have divisor := next V n
    rw [leading] at divisor
    have quotientBelow : U / base ^ (j + n + 1) / b < base := by
      rw [Nat.div_lt_iff_lt_mul least, ← two]
      have rest := Nat.mod_lt (U / base ^ (j + n + 1)) (show 0 < base by decide)
      calc U / base ^ (j + n + 2) * base + U / base ^ (j + n + 1) % base
          < (U / base ^ (j + n + 2) + 1) * base := by rw [Nat.succ_mul]; omega
        _ ≤ b * base := Nat.mul_le_mul_right _ less
        _ = base * b := Nat.mul_comm ..
    have divided := @leadingQuoRem_eq (U / base ^ (j + n + 2)) (U / base ^ (j + n + 1) % base) b
      (less.trans digitBelow) (Nat.mod_lt _ (by decide))
      (by rw [show base = 65536 from rfl] at half; omega) digitBelow
    rw [two] at divided
    have whole := Nat.div_add_mod' (U / base ^ (j + n + 1)) b
    have lower := @lowered_eq (V / base ^ n % base) (U / base ^ (j + n) % base) b
      (Nat.mod_lt _ (by decide)) (Nat.mod_lt _ (by decide)) least
      (U / base ^ (j + n + 1) / b) (U / base ^ (j + n + 1) % b) quotientBelow
    rw [whole, three, divisor] at lower
    rw [← a0, ← a1] at divided
    rw [estimate_of_ne other divided, a2, v2]
    have cut (count : Nat) : U / (base ^ count * base ^ j) = U / base ^ (j + count) := by
      rw [← Nat.pow_add, Nat.add_comm]
    have once : V / base ^ n / base = b := by
      rw [Nat.div_div_eq_div_mul, ← Nat.pow_succ, leading]
    have wide : 0 < V / base ^ n / base := once ▸ least
    have lowest : base ≤ V / base ^ n := by
      rw [← divisor]
      exact Nat.le_add_right_of_le (Nat.le_mul_of_pos_left _ least)
    have first : U / base ^ (j + n) / (V / base ^ n) ≤ U / base ^ (j + n + 1) / b := by
      have bound := @LongDivision.le_estimate (U / base ^ (j + n)) (V / base ^ n) base wide
      rwa [once, Nat.div_div_eq_div_mul U _ base, ← Nat.pow_succ] at bound
    refine ⟨U / base ^ (j + n) / (V / base ^ n), ?_, first.trans_lt quotientBelow, ?_, ?_⟩
    · rw [lower first]
    · have bound := @LongDivision.le_estimate U (V * base ^ j) (base ^ n * base ^ j) (by
        rw [scaled]
        omega)
      rwa [scaled, cut] at bound
    · have bound := @LongDivision.estimate_le U (V * base ^ j) (base ^ n * base ^ j) (by
        rw [scaled]
        exact quotient.trans_le lowest)
      rwa [scaled, cut] at bound

end Estimates

/-- All digits are in their range. -/
def InRange (digits : List Int) : Prop :=
  ∀ digit ∈ digits, 0 ≤ digit ∧ digit < base

theorem inRange_nil : InRange [] := by
  rintro digit ⟨⟩

theorem inRange_cons {digit : Int} {digits : List Int} :
    InRange (digit :: digits) ↔ (0 ≤ digit ∧ digit < base) ∧ InRange digits :=
  List.forall_mem_cons

/-- A digit in its range that is stored where there is none adds so much at its place. -/
theorem digitAtPut_eq {self : LargeInteger} {index : Nat} {integer : Int}
    (inside : index < self.nbDigits) (range : 0 ≤ integer ∧ integer < base)
    (free : (base : Int) ^ (index + 1) ∣ self.toInt) :
    ∃ result, self.digitAtPut (index + 1) integer = some result ∧
      result.negative = self.negative ∧ result.nbDigits = self.nbDigits ∧
      result.toInt = self.toInt + integer * base ^ index ∧
      (base : Int) ^ index ∣ result.toInt := by
  obtain ⟨digit, rfl⟩ := Int.eq_ofNat_of_zero_le range.1
  have small : digit < base := by exact_mod_cast range.2
  have within : index < self.digits.length := inside
  have zero : self.digits[index].toNat = 0 := by
    have held := self.holds_toInt.getElem index within
    obtain ⟨factor, value⟩ := free
    rw [value, pow_succ, mul_assoc, Int.mul_ediv_cancel_left _ (base_pow_pos index).ne',
      Int.mul_emod_right] at held
    exact_mod_cast held
  have stored : (UInt16.ofNat digit).toNat = digit := by
    rw [UInt16.toNat_ofNat']
    exact Nat.mod_eq_of_lt small
  have value := @ofDigits_modify _ UInt16.toNat base self.digits index digit
    (fun _ => UInt16.ofNat digit) within (by rw [stored, zero, Nat.zero_add])
  rw [← List.set_eq_modify] at value
  have length : (self.digits.set index (UInt16.ofNat digit)).length = self.nbDigits :=
    List.length_set ..
  have sum : (⟨self.negative, self.digits.set index (UInt16.ofNat digit)⟩ : LargeInteger).toInt =
      self.toInt + digit * base ^ index := by
    rw [toInt, toInt, nbDigits, length, value]
    push_cast
    ring
  have kept : ((digit : Int) % base).toNat = digit := by
    rw [Int.emod_eq_of_lt range.1 range.2, Int.toNat_natCast]
  refine ⟨⟨self.negative, self.digits.set index (UInt16.ofNat digit)⟩, ?_, rfl, length, sum, ?_⟩
  · rw [digitAtPut, if_pos ⟨by omega, inside⟩, kept, Nat.add_sub_cancel]
  · rw [sum]
    exact dvd_add ((pow_dvd_pow _ (Nat.le_succ index)).trans free) (Dvd.intro_left _ rfl)

section Fast

variable {self : LargeInteger} {divisor : Nat}

/-- One digit of the quotient by one digit. -/
theorem fastDigit_eq {a1 u : Nat} (small : a1 < base) (below : u < divisor) (most : divisor < base) :
    fastDigit a1 u divisor =
      some (((u * base + a1 : Nat) : Int) / divisor, ((u * base + a1 : Nat) : Int) % divisor) := by
  have positive : (0 : Int) < divisor := by omega
  have most' : divisor < 65536 := most
  have small' : a1 < 65536 := small
  rw [fastDigit]
  split_ifs with low
  · have shifted : Arithmetic.bitShiftLeft (u : Int) bits = some ((u : Int) * 65536) :=
      bitShiftLeft_eq (by unfold Fits minimum maximum bits; omega) (by decide)
    have joined : (u : Int) * 65536 + a1 = ((u * base + a1 : Nat) : Int) := by
      rw [show base = 65536 from rfl]
      push_cast
      ring
    have fits : Fits ((u * base + a1 : Nat) : Int) := by
      rw [← joined]
      unfold Fits minimum maximum
      omega
    rw [shifted]
    simp only [Option.bind_eq_bind, Option.bind_some, joined]
    rw [machine_div fits positive, machine_mod (by unfold Fits minimum maximum; omega) positive]
    simp only [Option.bind_some]
  · rw [Int.toNat_natCast]
    exact twoDigitsQuoRem_eq small (below.trans most) (by omega) most

/-- A division by one digit is exact. -/
theorem fastDigits_eq (most : divisor < base) {j u : Nat} {quo : LargeInteger}
    (below : u < divisor) (inside : j ≤ quo.nbDigits) (free : (base : Int) ^ j ∣ quo.toInt) :
    ∃ quo' r digits, fastDigits self divisor j u quo = some (quo', r, digits) ∧
      quo'.negative = quo.negative ∧ quo'.nbDigits = quo.nbDigits ∧
      u * base ^ j + self.toInt % base ^ j = (quo'.toInt - quo.toInt) * divisor + r ∧
      0 ≤ r ∧ r < divisor ∧ InRange digits := by
  induction j generalizing u quo with
  | zero =>
    refine ⟨quo, u, [], rfl, rfl, rfl, ?_, by omega, by omega, inRange_nil⟩
    rw [pow_zero, Int.emod_one]
    ring
  | succ j ih =>
    have positive : (0 : Int) < divisor := by omega
    have positive' : 0 < divisor := by omega
    obtain ⟨a1, first⟩ : ∃ a1, self.wideDigitAt (j + 1) = a1 := ⟨_, rfl⟩
    have digit := self.wideDigitAt_eq j
    have small : a1 < base := first ▸ self.wideDigitAt_lt _
    rw [first] at digit
    obtain ⟨qhat, quotient⟩ : ∃ qhat, (u * base + a1) / divisor = qhat := ⟨_, rfl⟩
    obtain ⟨rest, remainder⟩ : ∃ rest, (u * base + a1) % divisor = rest := ⟨_, rfl⟩
    have split := Nat.div_add_mod (u * base + a1) divisor
    have less : rest < divisor := remainder ▸ Nat.mod_lt _ positive'
    have range : qhat < base := by
      rw [← quotient, Nat.div_lt_iff_lt_mul positive']
      calc u * base + a1 < (u + 1) * base := by rw [Nat.succ_mul]; omega
        _ ≤ divisor * base := Nat.mul_le_mul_right _ below
        _ = base * divisor := Nat.mul_comm ..
    rw [quotient, remainder] at split
    obtain ⟨quo₁, stored, sign, count, value, free₁⟩ := @digitAtPut_eq quo j qhat inside
      ⟨by omega, by exact_mod_cast range⟩ free
    obtain ⟨quo₂, r, digits, found, sign', count', value', least, most', range'⟩ :=
      ih less (by omega) free₁
    refine ⟨quo₂, r, qhat :: digits, ?_, sign'.trans sign, count'.trans count, ?_, least, most',
      inRange_cons.mpr ⟨⟨by omega, by exact_mod_cast range⟩, range'⟩⟩
    · have answered := fastDigit_eq small below most
      rw [← Int.natCast_div, ← Int.natCast_mod, quotient, remainder] at answered
      rw [fastDigits, first, answered]
      simp only [Option.bind_eq_bind, Option.bind_some, stored, found]
    · have digits' := Int.emod_add_mul_ediv self.toInt ((base : Int) ^ j)
      have above := Int.emod_add_mul_ediv (self.toInt / (base : Int) ^ j) base
      have whole := Int.emod_add_mul_ediv self.toInt ((base : Int) ^ (j + 1))
      rw [← digit] at above
      have deeper : self.toInt / (base : Int) ^ j / base = self.toInt / (base : Int) ^ (j + 1) := by
        rw [Int.ediv_ediv_of_nonneg (base_pow_pos j).le, pow_succ]
      rw [deeper] at above
      have split' : (divisor : Int) * qhat + rest = u * base + a1 := by exact_mod_cast split
      rw [value] at value'
      rw [pow_succ] at above whole ⊢
      linear_combination value' - (base : Int) ^ j * split' + whole - digits' - (base : Int) ^ j * above

end Fast

section Long

variable {log2 : Nat → Int} {u v : Number} {V n b : Nat}

/-- A multiple of the divisor is taken away exactly. -/
theorem takeAway_exact (accurate : Accurate log2) (canonical : Canonical u) (divisor : Operand v)
    (nonneg : 0 ≤ u.toInt) (positive : 0 ≤ v.toInt) {qhat : Int} (range : 0 ≤ qhat ∧ qhat < base)
    (place : Nat) :
    Exact (takeAway log2 u v qhat place) (u.toInt - v.toInt * (qhat * base ^ place)) := by
  have power : (2 : Int) ^ (place * bits) = base ^ place := by
    rw [Nat.mul_comm, pow_mul]
    norm_cast
  have small : qhat < 65536 := range.2
  have fits : Fits qhat := by
    unfold Fits minimum maximum
    omega
  obtain ⟨shifted, moved, canonical₁, value₁⟩ :=
    Number.bitShift_small_exact (n := place * bits) accurate fits range.1 (by
      rcases range.1.lt_or_eq with above | zero
      · exact .inr (Number.sized_of_lt accurate above (small.trans (by decide)))
      · rw [← zero, zero_mul]
        exact .inl (by decide))
  obtain ⟨product, multiplied, canonical₂, value₂⟩ :
      Exact (Number.times log2 v shifted) (v.toInt * shifted.toInt) := by
    cases v with
    | small a =>
      refine (product_exact_iff (x := .small a) accurate divisor canonical₁).mpr ?_
      rintro ⟨a, -, same, -, -, less⟩
      cases same
      exact absurd positive (not_le.mpr less)
    | large integer => exact large_times_exact accurate divisor (.inl positive) canonical₁
  have exact := (difference_exact_iff accurate canonical canonical₂).mpr (by
    rintro ⟨a, -, rfl, -, -, less⟩
    exact absurd nonneg (not_le.mpr (less.trans (by decide))))
  rw [value₂, value₁, power] at exact
  rw [takeAway, moved]
  simp only [Option.bind_eq_bind, Option.bind_some, multiplied]
  exact exact

theorem negative_of_value {number : Number} {value : Int} (same : number.toInt = value) :
    number.negative = decide (value < 0) :=
  same ▸ number.negative_eq

theorem eq_zero_iff (canonical : Canonical u) : u = .small 0 ↔ u.toInt = 0 := by
  refine ⟨fun zero => zero ▸ rfl, fun zero => ?_⟩
  have fits : Canonical (.small 0) := by decide
  exact canonical.ext fits zero

/-- The estimate, or the digit below it where that takes too much away, is the digit. -/
theorem corrected_exact (accurate : Accurate log2) (normal : Normalised v V n b)
    (divisor : Canonical v) (canonical : Canonical u) {U qhat j : Nat} (value : u.toInt = U)
    (range : qhat < base) (least : U / (V * base ^ j) ≤ qhat)
    (most : qhat ≤ U / (V * base ^ j) + 1) :
    ∃ t, takeAway log2 u v qhat j = some t ∧
      ((t.negative = true ∧ ((qhat : Int) - 1 = (U / (V * base ^ j) : Nat)) ∧
          ∃ rest, takeAway log2 u v ((qhat : Int) - 1) j = some rest ∧ Canonical rest ∧
            rest.toInt = (U % (V * base ^ j) : Nat)) ∨
        (t.negative = false ∧ qhat = U / (V * base ^ j) ∧ Canonical t ∧
          t.toInt = (U % (V * base ^ j) : Nat))) := by
  have positive := normal.positive
  have scale : 0 < V * base ^ j := Nat.mul_pos positive (Nat.pow_pos (by decide))
  have nonneg : 0 ≤ u.toInt := by omega
  have nonneg' : 0 ≤ v.toInt := by
    rw [normal.value]
    exact Int.natCast_nonneg V
  have digit := LongDivision.corrected least most scale
  have split := Nat.div_add_mod U (V * base ^ j)
  have taken (d : Nat) : u.toInt - v.toInt * (d * base ^ j) = (U : Int) - (V * base ^ j * d : Nat) := by
    rw [value, normal.value]
    push_cast
    ring
  obtain ⟨t, found, canonical', value'⟩ := takeAway_exact accurate canonical divisor.operand nonneg nonneg'
    ⟨Int.natCast_nonneg qhat, by exact_mod_cast range⟩ j
  rw [taken] at value'
  refine ⟨t, found, ?_⟩
  have sign := negative_of_value value'
  by_cases less : U < V * base ^ j * qhat
  · rw [if_pos less] at digit
    rw [decide_eq_true (by omega)] at sign
    obtain ⟨lower, rfl⟩ : ∃ lower, qhat = lower + 1 :=
      Nat.exists_eq_succ_of_ne_zero fun zero => by simp [zero] at less
    have same : (((lower + 1 : Nat) : Int) - 1) = lower := by omega
    rw [Nat.add_sub_cancel] at digit
    have range' : 0 ≤ (lower : Int) ∧ (lower : Int) < base := ⟨by omega, by omega⟩
    obtain ⟨rest, found₁, canonical₁, value₁⟩ :=
      takeAway_exact accurate canonical divisor.operand nonneg nonneg' range' j
    rw [taken, digit] at value₁
    rw [same, ← digit]
    exact .inl ⟨sign, rfl, rest, digit ▸ found₁, canonical₁, by rw [value₁]; omega⟩
  · rw [if_neg less] at digit
    rw [decide_eq_false (by omega)] at sign
    rw [digit] at value'
    exact .inr ⟨sign, digit, canonical', by rw [value']; omega⟩

/-- The loop is a long division: what is left is the remainder, and all digits are in range. -/
theorem quotientDigits_eq (accurate : Accurate log2) (normal : Normalised v V n b)
    (divisor : Canonical v) {j : Nat} {quo : LargeInteger} (canonical : Canonical u)
    (nonneg : 0 ≤ u.toInt) (below : u.toInt < (V * base ^ j : Nat)) (inside : j ≤ quo.nbDigits)
    (free : (base : Int) ^ j ∣ quo.toInt) :
    ∃ quo' rem digits, quotientDigits log2 v n b j u quo = some (quo', rem, digits) ∧
      quo'.negative = quo.negative ∧ quo'.nbDigits = quo.nbDigits ∧ Canonical rem ∧
      u.toInt = (quo'.toInt - quo.toInt) * V + rem.toInt ∧ 0 ≤ rem.toInt ∧ rem.toInt < V ∧
      InRange digits := by
  induction j generalizing u quo with
  | zero =>
    rw [pow_zero, mul_one] at below
    exact ⟨quo, u, [], rfl, rfl, rfl, canonical, by ring, nonneg, below, inRange_nil⟩
  | succ j ih =>
    obtain ⟨U, value⟩ := Int.eq_ofNat_of_zero_le nonneg
    have below' : U < V * base ^ (j + 1) := by omega
    have scale : 0 < V * base ^ j := Nat.mul_pos normal.positive (Nat.pow_pos (by decide))
    obtain ⟨qhat, estimated, range, least, most⟩ := estimate_spec normal value below'
    have range' : 0 ≤ (qhat : Int) ∧ (qhat : Int) < base := ⟨by omega, by exact_mod_cast range⟩
    obtain ⟨d, digit⟩ : ∃ d, U / (V * base ^ j) = d := ⟨_, rfl⟩
    have split := Nat.div_add_mod U (V * base ^ j)
    rw [digit] at split
    have small : 0 ≤ (d : Int) ∧ (d : Int) < base := ⟨by omega, by omega⟩
    obtain ⟨quo₁, stored, sign, count, value₁, free₁⟩ := digitAtPut_eq inside small free
    -- one step of the loop, whether or not the estimate is corrected
    obtain ⟨rest, canonical₁, value₂, step⟩ : ∃ rest : Number, Canonical rest ∧
        rest.toInt = (U % (V * base ^ j) : Nat) ∧ quotientDigits log2 v n b (j + 1) u quo =
          (if rest = .small 0 then some (quo₁, rest, [(qhat : Int), (d : Int)])
          else do
            let left ← quotientDigits log2 v n b j rest quo₁
            some (left.1, left.2.1, (qhat : Int) :: (d : Int) :: left.2.2)) := by
      obtain ⟨t, found, ⟨sign, same, rest, found₁, canonical₁, value₁⟩ |
        ⟨sign, same, canonical₁, value₁⟩⟩ :=
          corrected_exact accurate normal divisor canonical value range least most
      · rw [digit] at same
        rw [same] at found₁
        refine ⟨rest, canonical₁, value₁, ?_⟩
        rw [quotientDigits, estimated]
        simp only [Option.bind_eq_bind, Option.bind_some, found, sign, if_true, same, found₁, stored]
      · rw [digit] at same
        refine ⟨t, canonical₁, value₁, ?_⟩
        rw [quotientDigits, estimated]
        simp only [Option.bind_eq_bind, Option.bind_some, found, sign, ← same]
        rw [← same] at stored
        simp only [stored, Bool.false_eq_true, if_false, Option.bind_some]
    have less := Nat.mod_lt U scale
    have whole : u.toInt = d * base ^ j * V + rest.toInt := by
      have split' : (V : Int) * base ^ j * d + rest.toInt = U := by
        rw [value₂]
        exact_mod_cast split
      linear_combination value - split'
    have advance : quo₁.toInt - quo.toInt = d * base ^ j := by omega
    rw [step]
    split_ifs with zero
    · subst zero
      refine ⟨quo₁, .small 0, [(qhat : Int), (d : Int)], rfl, sign, count, canonical₁, ?_,
        Int.le_refl 0, Int.natCast_pos.mpr normal.positive, ?_⟩
      · rw [advance]
        exact whole
      · exact inRange_cons.mpr ⟨range', inRange_cons.mpr ⟨small, inRange_nil⟩⟩
    · obtain ⟨quo₂, rem, digits, found, sign', count', canonical₂, value₃, least', most', ranges⟩ :=
        ih canonical₁ (by omega) (by omega) (by omega) free₁
      refine ⟨quo₂, rem, _, by rw [found]; rfl, sign'.trans sign, count'.trans count, canonical₂,
        ?_, least', most', inRange_cons.mpr ⟨range', inRange_cons.mpr ⟨small, ranges⟩⟩⟩
      linear_combination whole + value₃ - (V : Int) * advance

/-- A step of the loop stores the estimate or the digit below it, and may go on. -/
theorem quotientDigits_step {j : Nat} {quo quo' : LargeInteger} {rem : Number} {digits : List Int}
    (found : quotientDigits log2 v n b (j + 1) u quo = some (quo', rem, digits))
    (range : InRange digits) (inside : j < quo.nbDigits) (free : (base : Int) ^ (j + 1) ∣ quo.toInt) :
    ∃ (qhat : Nat) (digit : Int) (quo₁ : LargeInteger), estimate u v n (j + 1 + n) b = some qhat ∧
      (qhat : Int) - 1 ≤ digit ∧ 0 ≤ digit ∧ quo₁.negative = quo.negative ∧
      quo₁.nbDigits = quo.nbDigits ∧ quo₁.toInt = quo.toInt + digit * base ^ j ∧
      (base : Int) ^ j ∣ quo₁.toInt ∧
      (quo' = quo₁ ∨ ∃ u₁ more, quotientDigits log2 v n b j u₁ quo₁ = some (quo', rem, more) ∧
        InRange more) := by
  -- what follows in the loop is the same whether or not the estimate is corrected
  have after (qhat : Nat) (digit : Int) (u₁ : Number) (near : (qhat : Int) - 1 ≤ digit)
      (estimated : estimate u v n (j + 1 + n) b = some qhat) (continued : (do
        let quo ← quo.digitAtPut (j + 1) digit
        if u₁ = .small 0 then some (quo, u₁, [(qhat : Int), digit])
        else do
          let left ← quotientDigits log2 v n b j u₁ quo
          some (left.1, left.2.1, (qhat : Int) :: digit :: left.2.2)) = some (quo', rem, digits)) :
      ∃ (qhat : Nat) (digit : Int) (quo₁ : LargeInteger), estimate u v n (j + 1 + n) b = some qhat ∧
        (qhat : Int) - 1 ≤ digit ∧ 0 ≤ digit ∧ quo₁.negative = quo.negative ∧
        quo₁.nbDigits = quo.nbDigits ∧ quo₁.toInt = quo.toInt + digit * base ^ j ∧
        (base : Int) ^ j ∣ quo₁.toInt ∧
        (quo' = quo₁ ∨ ∃ u₁ more, quotientDigits log2 v n b j u₁ quo₁ = some (quo', rem, more) ∧
          InRange more) := by
    simp only [Option.bind_eq_bind, Option.bind_eq_some_iff] at continued
    obtain ⟨quo₁, stored, continued⟩ := continued
    refine ⟨qhat, digit, quo₁, estimated, near, ?_⟩
    have next (small : 0 ≤ digit ∧ digit < base) : 0 ≤ digit ∧ quo₁.negative = quo.negative ∧
        quo₁.nbDigits = quo.nbDigits ∧ quo₁.toInt = quo.toInt + digit * base ^ j ∧
          (base : Int) ^ j ∣ quo₁.toInt := by
      obtain ⟨quo₂, stored', sign, count, value, free₁⟩ := digitAtPut_eq inside small free
      cases stored.symm.trans stored'
      exact ⟨small.1, sign, count, value, free₁⟩
    split_ifs at continued with zero
    · cases continued
      obtain ⟨least, sign, count, value, free₁⟩ := next (inRange_cons.mp (inRange_cons.mp range).2).1
      exact ⟨least, sign, count, value, free₁, .inl rfl⟩
    · obtain ⟨⟨quo₂, rem₂, more⟩, deeper, same⟩ := Option.bind_eq_some_iff.mp continued
      cases same
      obtain ⟨small, range⟩ := inRange_cons.mp (inRange_cons.mp range).2
      obtain ⟨least, sign, count, value, free₁⟩ := next small
      exact ⟨least, sign, count, value, free₁, .inr ⟨u₁, more, deeper, range⟩⟩
  rw [quotientDigits] at found
  obtain ⟨qhat, estimated, found⟩ := Option.bind_eq_some_iff.mp found
  obtain ⟨t, -, found⟩ := Option.bind_eq_some_iff.mp found
  split at found
  · obtain ⟨u₁, -, found⟩ := Option.bind_eq_some_iff.mp found
    exact after _ _ _ (Int.le_refl _) estimated found
  · exact after _ _ _ (by omega) estimated found

/-- The last step of the loop. -/
theorem quotientDigits_one {quo quo' : LargeInteger} {rem : Number} {digits : List Int}
    (found : quotientDigits log2 v n b 1 u quo = some (quo', rem, digits)) :
    ∃ qhat t, estimate u v n (1 + n) b = some qhat ∧ takeAway log2 u v qhat 0 = some t ∧
      quo.digitAtPut 1 (if t.negative then (qhat : Int) - 1 else qhat) = some quo' := by
  rw [quotientDigits] at found
  obtain ⟨qhat, estimated, found⟩ := Option.bind_eq_some_iff.mp found
  obtain ⟨t, taken, found⟩ := Option.bind_eq_some_iff.mp found
  -- nothing is left of the loop after it, whatever remains
  have stored (digit : Int) (u₁ : Number) (continued : (do
      let quo ← quo.digitAtPut 1 digit
      if u₁ = .small 0 then some (quo, u₁, [(qhat : Int), digit])
      else do
        let left ← quotientDigits log2 v n b 0 u₁ quo
        some (left.1, left.2.1, (qhat : Int) :: digit :: left.2.2)) = some (quo', rem, digits)) :
      quo.digitAtPut 1 digit = some quo' := by
    simp only [Option.bind_eq_bind, Option.bind_eq_some_iff] at continued
    obtain ⟨quo₁, stored, continued⟩ := continued
    rw [quotientDigits] at continued
    split_ifs at continued <;> cases continued <;> exact stored
  refine ⟨qhat, t, estimated, taken, ?_⟩
  split at found
  · rename_i negative
    obtain ⟨u₁, -, found⟩ := Option.bind_eq_some_iff.mp found
    rw [if_pos negative]
    exact stored _ _ found
  · rename_i negative
    rw [if_neg negative]
    exact stored _ _ found

/-- Digits in their range only make the quotient larger. -/
theorem quotientDigits_grows {j : Nat} {quo quo' : LargeInteger} {rem : Number} {digits : List Int}
    (found : quotientDigits log2 v n b j u quo = some (quo', rem, digits)) (range : InRange digits)
    (inside : j ≤ quo.nbDigits) (free : (base : Int) ^ j ∣ quo.toInt) :
    quo'.negative = quo.negative ∧ quo'.nbDigits = quo.nbDigits ∧ quo.toInt ≤ quo'.toInt := by
  induction j generalizing u quo digits with
  | zero =>
    cases found
    exact ⟨rfl, rfl, Int.le_refl _⟩
  | succ j ih =>
    obtain ⟨qhat, digit, quo₁, -, -, least, sign, count, value, free₁, next⟩ :=
      quotientDigits_step found range inside free
    have more := mul_nonneg least (base_pow_pos j).le
    rcases next with rfl | ⟨u₁, digits', deeper, range'⟩
    · exact ⟨sign, count, by omega⟩
    · obtain ⟨sign', count', least'⟩ := ih deeper range' (by omega) free₁
      exact ⟨sign'.trans sign, count'.trans count, by omega⟩

end Long

end LargeInteger

end Egg.Arithmetic
