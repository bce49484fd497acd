import Mathlib.Data.Nat.Log
import Mathlib.Tactic.Ring

/-! Floating point numbers of 64 bits, finite ones counted in units of the least of them. -/
namespace Egg.Data

/-- A sign, a biased exponent of 11 bits and a fraction of 52 bits. -/
structure Binary64 where
  bits : UInt64
deriving DecidableEq, Repr

namespace Binary64

def negative (self : Binary64) : Bool :=
  2 ^ 63 ≤ self.bits.toNat

/-- The bits below the sign. -/
def magnitude (self : Binary64) : Nat :=
  self.bits.toNat % 2 ^ 63

def exponent (self : Binary64) : Nat :=
  self.magnitude / 2 ^ 52

def fraction (self : Binary64) : Nat :=
  self.magnitude % 2 ^ 52

def IsFinite (self : Binary64) : Prop :=
  self.exponent < 2047

instance (self : Binary64) : Decidable self.IsFinite :=
  inferInstanceAs (Decidable (_ < _))

def isNaN (self : Binary64) : Bool :=
  self.exponent = 2047 && self.fraction ≠ 0

/-- The units that the bits below the sign stand for. -/
def magnitudeUnits (bits : Nat) : Nat :=
  if bits / 2 ^ 52 = 0 then bits % 2 ^ 52 else (2 ^ 52 + bits % 2 ^ 52) * 2 ^ (bits / 2 ^ 52 - 1)

/-- The units of a finite number. -/
def units (self : Binary64) : Int :=
  if self.negative then -magnitudeUnits self.magnitude else magnitudeUnits self.magnitude

/-- The units of the number one. -/
def one : Nat := 2 ^ 1074

/-- Two numbers compare equal; there are two zeros, and no NaN equals any number. -/
def equals (self other : Binary64) : Bool :=
  !self.isNaN && !other.isNaN && (self == other || (self.magnitude == 0 && other.magnitude == 0))

def ofSign (negative : Bool) (magnitude : Nat) : Binary64 :=
  ⟨UInt64.ofNat ((if negative then 2 ^ 63 else 0) + magnitude)⟩

def negated (self : Binary64) : Binary64 :=
  ofSign (!self.negative) self.magnitude

/-- The bits that a quotient of this many units loses. -/
def shift (quotient : Nat) : Nat :=
  quotient.log2 - 52

/-- The multiple of a unit nearest to a number of them; of two as near, the even one. -/
def nearest (numerator unit : Nat) : Nat :=
  let floor := numerator / unit
  let rest := numerator % unit
  if unit < 2 * rest ∨ (unit = 2 * rest ∧ floor % 2 = 1) then floor + 1 else floor

/-- The bits of the number nearest to a quotient of units, infinity past the greatest. -/
def roundMagnitude (numerator denominator : Nat) : Nat :=
  let shift := shift (numerator / denominator)
  min (shift * 2 ^ 52 + nearest numerator (denominator * 2 ^ shift)) (2047 * 2 ^ 52)

/-- The number nearest to a quotient. -/
def round (negative : Bool) (numerator denominator : Nat) : Binary64 :=
  ofSign negative (roundMagnitude (numerator * one) denominator)

def ofInt (value : Int) : Binary64 :=
  round (value < 0) value.natAbs 1

/-- The quotient of finite numbers, the second not zero. -/
def div (self other : Binary64) : Binary64 :=
  round (self.negative != other.negative) self.units.natAbs other.units.natAbs

/-- A finite number scaled by a power of two. -/
def timesTwoPower (self : Binary64) (exponent : Int) : Binary64 :=
  round self.negative (self.units.natAbs * 2 ^ exponent.toNat) (one * 2 ^ (-exponent).toNat)

theorem ofSign_toNat {negative : Bool} {magnitude : Nat} (below : magnitude < 2 ^ 63) :
    (ofSign negative magnitude).bits.toNat = (if negative then 2 ^ 63 else 0) + magnitude := by
  rw [ofSign, UInt64.toNat_ofNat']
  apply Nat.mod_eq_of_lt
  split <;> omega

@[simp] theorem ofSign_magnitude {negative : Bool} {magnitude : Nat} (below : magnitude < 2 ^ 63) :
    (ofSign negative magnitude).magnitude = magnitude := by
  rw [Binary64.magnitude, ofSign_toNat below]
  split <;> omega

@[simp] theorem ofSign_negative {negative : Bool} {magnitude : Nat} (below : magnitude < 2 ^ 63) :
    (ofSign negative magnitude).negative = negative := by
  rw [Binary64.negative, ofSign_toNat below]
  cases negative
  · simpa using below
  · simp

/-- Bits that count the places of the significand before its own. -/
theorem magnitudeUnits_shifted {shift significand : Nat} (below : significand ≤ 2 ^ 53)
    (leading : shift = 0 ∨ 2 ^ 52 ≤ significand) :
    magnitudeUnits (shift * 2 ^ 52 + significand) = significand * 2 ^ shift := by
  have division : (shift * 2 ^ 52 + significand) / 2 ^ 52 = shift + significand / 2 ^ 52 := by omega
  have remainder : (shift * 2 ^ 52 + significand) % 2 ^ 52 = significand % 2 ^ 52 := by omega
  rw [magnitudeUnits, division, remainder]
  obtain small | normal | carried :
      significand < 2 ^ 52 ∨ significand / 2 ^ 52 = 1 ∨ significand = 2 ^ 53 := by omega
  · obtain rfl : shift = 0 := leading.resolve_right (by omega)
    rw [if_pos (by omega), pow_zero, mul_one]
    exact Nat.mod_eq_of_lt small
  · rw [if_neg (by omega), normal, Nat.add_sub_cancel]
    congr 1
    omega
  · subst carried
    rw [if_neg (by omega), show shift + 2 ^ 53 / 2 ^ 52 - 1 = shift + 1 by omega, pow_succ]
    ring

section Rounding

variable {numerator denominator : Nat}

theorem nearest_bounds (unit : Nat) :
    numerator / unit ≤ nearest numerator unit ∧ nearest numerator unit ≤ numerator / unit + 1 := by
  unfold nearest
  dsimp only
  split <;> omega

theorem nearest_of_dvd {unit : Nat} (positive : 0 < unit) (divides : unit ∣ numerator) :
    nearest numerator unit = numerator / unit := by
  unfold nearest
  dsimp only
  rw [Nat.mod_eq_zero_of_dvd divides, if_neg (by omega)]

/-- The significand has at most 53 bits, and exactly that many where bits are lost. -/
theorem significand_bounds :
    numerator / (denominator * 2 ^ shift (numerator / denominator)) < 2 ^ 53 ∧
    (shift (numerator / denominator) = 0 ∨
      2 ^ 52 ≤ numerator / (denominator * 2 ^ shift (numerator / denominator))) := by
  rw [← Nat.div_div_eq_div_mul]
  generalize numerator / denominator = quotient
  obtain rfl | nonzero := Nat.eq_zero_or_pos quotient
  · exact ⟨by rw [Nat.zero_div]; decide, .inl rfl⟩
  have below : quotient < 2 ^ (quotient.log2 + 1) := Nat.lt_log2_self
  have above : 2 ^ quotient.log2 ≤ quotient := Nat.log2_self_le (by omega)
  have least : quotient.log2 ≤ 52 + shift quotient := by
    unfold shift
    omega
  constructor
  · apply (Nat.div_lt_iff_lt_mul (pow_pos (by decide) _)).mpr
    rw [← pow_add]
    exact lt_of_lt_of_le below (Nat.pow_le_pow_right (by decide) (by omega))
  · by_cases short : quotient.log2 ≤ 52
    · left
      unfold shift
      omega
    · right
      apply (Nat.le_div_iff_mul_le (pow_pos (by decide) _)).mpr
      rw [← pow_add]
      refine le_trans (Nat.pow_le_pow_right (by decide) ?_) above
      unfold shift
      omega

/-- Short of the greatest number, rounding answers the nearest multiple of the unit. -/
theorem units_roundMagnitude (short : (numerator / denominator).log2 < 2097) :
    roundMagnitude numerator denominator < 2 ^ 63 ∧
    magnitudeUnits (roundMagnitude numerator denominator) =
      nearest numerator (denominator * 2 ^ shift (numerator / denominator)) *
        2 ^ shift (numerator / denominator) := by
  obtain ⟨below, leading⟩ := @significand_bounds numerator denominator
  have bounds := @nearest_bounds numerator (denominator * 2 ^ shift (numerator / denominator))
  have least : shift (numerator / denominator) < 2045 := by
    unfold shift
    omega
  have whole : roundMagnitude numerator denominator = shift (numerator / denominator) * 2 ^ 52 +
      nearest numerator (denominator * 2 ^ shift (numerator / denominator)) := by
    rw [roundMagnitude]
    apply min_eq_left
    omega
  constructor
  · rw [whole]
    omega
  · rw [whole]
    apply magnitudeUnits_shifted
    · omega
    · omega

end Rounding

theorem log2_mul_one {value : Nat} (nonzero : value ≠ 0) :
    (value * one).log2 = value.log2 + 1074 := by
  have positive : 0 < one := pow_pos (by decide) _
  rw [Nat.log2_eq_iff (Nat.mul_ne_zero nonzero (by omega))]
  constructor
  · rw [pow_add]
    exact Nat.mul_le_mul_right _ (Nat.log2_self_le nonzero)
  · rw [Nat.add_right_comm, pow_add]
    exact Nat.mul_lt_mul_of_pos_right Nat.lt_log2_self positive

section Integers

variable {value : Int}

theorem ofInt_units (fits : value.natAbs < 2 ^ 63) :
    (ofInt value).units = (if value < 0 then -1 else 1) *
      (nearest (value.natAbs * one) (2 ^ shift (value.natAbs * one)) *
        2 ^ shift (value.natAbs * one) : Nat) := by
  have short : (value.natAbs * one / 1).log2 < 2097 := by
    rw [Nat.div_one]
    by_cases zero : value.natAbs = 0
    · rw [zero, Nat.zero_mul]
      decide
    · rw [log2_mul_one zero]
      have log := (Nat.log2_lt zero).mpr fits
      omega
  obtain ⟨below, same⟩ := units_roundMagnitude short
  rw [Nat.div_one, Nat.one_mul] at same
  rw [units, ofInt, round, ofSign_negative below, ofSign_magnitude below, same]
  by_cases negative : value < 0
  · rw [decide_eq_true negative, if_pos rfl, if_pos negative]
    ring
  · rw [decide_eq_false negative, if_neg Bool.false_ne_true, if_neg negative]
    ring

/-- Integers up to 53 bits are exact. -/
theorem units_ofInt_exact (small : value.natAbs ≤ 2 ^ 53) : (ofInt value).units = value * one := by
  have divides : 2 ^ shift (value.natAbs * one) ∣ value.natAbs * one := by
    obtain zero | nonzero := Nat.eq_zero_or_pos value.natAbs
    · rw [zero, Nat.zero_mul]
      exact dvd_zero _
    · rw [shift, log2_mul_one (by omega)]
      obtain greatest | less : value.natAbs = 2 ^ 53 ∨ value.natAbs < 2 ^ 53 := by omega
      · rw [greatest, Nat.log2_two_pow, one, ← pow_add]
        exact pow_dvd_pow 2 (by omega)
      · have log := (Nat.log2_lt (by omega)).mpr less
        exact dvd_mul_of_dvd_right (pow_dvd_pow 2 (by omega)) _
  rw [ofInt_units (by omega), nearest_of_dvd (pow_pos (by decide) _) divides,
    Nat.div_mul_cancel divides, Nat.cast_mul, ← mul_assoc]
  congr 1
  split <;> omega

/-- Beyond 53 bits an integer is rounded to one of at least as many. -/
theorem units_ofInt_large (large : 2 ^ 53 ≤ value.natAbs) (fits : value.natAbs < 2 ^ 63) :
    ∃ rounded : Nat, 2 ^ 53 ≤ rounded ∧ rounded ≤ 2 ^ (value.natAbs.log2 + 1) ∧
      (ofInt value).units = (if value < 0 then -1 else 1) * (rounded * one : Nat) := by
  have log : 53 ≤ value.natAbs.log2 := (Nat.le_log2 (by omega)).mpr large
  have least : shift (value.natAbs * one) = value.natAbs.log2 - 53 + 1 + 1074 := by
    rw [shift, log2_mul_one (by omega)]
    omega
  obtain ⟨below, leading⟩ := @significand_bounds (value.natAbs * one) 1
  rw [Nat.div_one, Nat.one_mul] at below leading
  have bound := leading.resolve_left (by omega)
  have rounding := @nearest_bounds (value.natAbs * one) (2 ^ shift (value.natAbs * one))
  refine ⟨nearest (value.natAbs * one) (2 ^ shift (value.natAbs * one)) *
    2 ^ (value.natAbs.log2 - 53 + 1), ?_, ?_, ?_⟩
  · calc 2 ^ 53 = 2 ^ 52 * 2 ^ 1 := rfl
      _ ≤ _ := Nat.mul_le_mul (by omega) (Nat.pow_le_pow_right (by decide) (by omega))
  · calc _ ≤ 2 ^ 53 * 2 ^ (value.natAbs.log2 - 53 + 1) := Nat.mul_le_mul_right _ (by omega)
      _ = 2 ^ (value.natAbs.log2 + 1) := by
        rw [← pow_add, show 53 + (value.natAbs.log2 - 53 + 1) = value.natAbs.log2 + 1 by omega]
  · have whole : 2 ^ (value.natAbs.log2 - 53 + 1) * one = 2 ^ shift (value.natAbs * one) :=
      (pow_add 2 _ 1074).symm.trans (congrArg (2 ^ ·) least.symm)
    rw [ofInt_units fits, mul_assoc, whole]

end Integers

theorem equals_iff {self other : Binary64} : self.equals other = true ↔
    self.isNaN = false ∧ other.isNaN = false ∧
      (self = other ∨ self.magnitude = 0 ∧ other.magnitude = 0) := by
  rw [equals, Bool.and_eq_true, Bool.and_eq_true, Bool.or_eq_true, Bool.and_eq_true, beq_iff_eq,
    beq_iff_eq, beq_iff_eq, Bool.not_eq_true', Bool.not_eq_true', and_assoc]

theorem units_eq_zero {self : Binary64} (zero : self.magnitude = 0) : self.units = 0 := by
  rw [units, zero]
  split <;> rfl

/-- Numbers that compare equal stand for the same units. -/
theorem units_eq_of_equals {self other : Binary64} (same : self.equals other = true) :
    self.units = other.units := by
  obtain ⟨_, _, rfl | ⟨zero, zero'⟩⟩ := equals_iff.mp same
  · rfl
  · rw [units_eq_zero zero, units_eq_zero zero']

theorem equals_symm {self other : Binary64} (same : self.equals other = true) :
    other.equals self = true := by
  obtain ⟨left, right, either⟩ := equals_iff.mp same
  exact equals_iff.mpr ⟨right, left, either.imp Eq.symm And.symm⟩

theorem equals_trans {first second third : Binary64} (same : first.equals second = true)
    (next : second.equals third = true) : first.equals third = true := by
  obtain ⟨left, _, rfl | ⟨zero, zero'⟩⟩ := equals_iff.mp same
  · exact next
  · obtain ⟨_, right, rfl | ⟨_, zero''⟩⟩ := equals_iff.mp next
    · exact same
    · exact equals_iff.mpr ⟨left, right, .inr ⟨zero, zero''⟩⟩

end Binary64

end Egg.Data
