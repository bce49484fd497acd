import Egg.Arithmetic.Float
import Egg.Rational.Number
import Mathlib.Data.Nat.Prime.Basic

/-! Floats as the fractions that their bits denote. -/
namespace Egg.Rational

open Egg.Data Integer

namespace Float

def uShortAtOffset (self : Binary64) (offset : Nat) : Int :=
  Arithmetic.Float.byteAt self (offset + 1) +
    bitShift (Arithmetic.Float.byteAt self (offset + 2)) 8

def uLongAtOffset (self : Binary64) (offset : Nat) : Int :=
  let low := uShortAtOffset self offset
  let high := uShortAtOffset self (offset + 2)
  let high := bitShift high 16
  high + low

def isSpecialValue (self : Binary64) : Bool :=
  Int.land (uShortAtOffset self 6) 0x7FF0 = 0x7FF0

/-- A significand other than zero, divided by a power of two. -/
def dividedByPower (fraction exp : Int) : Option Number := do
  if exp < 0 then some (.integer (bitShift fraction (-exp)))
  else
    let lowBit ← lowBit fraction
    let zeroes : Int := lowBit - 1
    let exp := exp - zeroes
    if exp ≤ 0 then some (.integer (bitShift fraction (-zeroes - exp)))
    else
      let numerator := bitShift fraction (-zeroes)
      if exp = 0 then some (.integer numerator)
      else
        let denominator := bitShift 1 exp
        divide numerator denominator

/-- Infinities and NaNs are errors. -/
def asTrueFraction (self : Binary64) : Option Number :=
  if isSpecialValue self then none
  else
    let high := uLongAtOffset self 4
    let exponent := bitShift high (-20)
    let positive := Int.land exponent 0x800 = 0
    let exponent := if positive then exponent else Int.land exponent 0x7FF
    let low := uLongAtOffset self 0
    let significand := bitShift (Int.land high 0xFFFFF) 32 + low
    if exponent = 0 ∧ significand = 0 then some (.integer 0)
    else
      let fraction :=
        if exponent = 0 then bitShift significand 1 else Int.lor significand 0x10000000000000
      let fraction := if positive then fraction else -fraction
      dividedByPower fraction (1075 - exponent)

end Float

namespace Number

/-- A fraction in lowest terms, its denominator a power of two; or an integer. -/
def IsDyadic : Number → Prop
  | integer _ => True
  | fraction value => value.LowestTerms ∧ ∃ places, 0 < places ∧ value.denominator = 2 ^ places

/-- Only integers stand for integers. -/
theorem IsDyadic.isInteger {number : Number} (dyadic : number.IsDyadic) {value : Int}
    (same : number.value = value) : number = .integer value := by
  cases number with
  | integer other =>
    have equal : other = value := Int.cast_injective same
    rw [equal]
  | fraction fraction =>
    obtain ⟨lowest, places, some, power⟩ := dyadic
    have whole : fraction.numerator = value * fraction.denominator := by
      have product := (div_eq_iff fraction.denominator_ne_zero).mp same
      exact_mod_cast product
    have unit : fraction.denominator = 1 := by
      rw [Fraction.LowestTerms, whole, Int.gcd_mul_left_left] at lowest
      have positive := fraction.positive
      omega
    have less : (1 : Int) < 2 ^ places := one_lt_pow₀ (by decide) some.ne'
    rw [power] at unit
    exact absurd unit less.ne'

end Number

namespace Float

section Shifts

variable {odd : Int} {zeroes : Nat}

theorem bitShift_left (self : Int) (count : Nat) : bitShift self count = self * 2 ^ count := by
  rw [bitShift, if_pos (Int.natCast_nonneg count), Int.natAbs_natCast]

theorem bitShift_right (self : Int) (count : Nat) : bitShift self (-count) = self / 2 ^ count := by
  have positive : (0 : Int) ≤ 2 ^ count := pow_nonneg (by decide) count
  rw [bitShift, Int.natAbs_neg, Int.natAbs_natCast, Int.fdiv_eq_ediv_of_nonneg _ positive]
  cases count with
  | zero => simp
  | succ count => exact if_neg (by omega)

/-- Past the powers of two that multiply, the trailing zeroes are found. -/
theorem dividedByPower_of_nonneg (isOdd : ¬ 2 ∣ odd) {exp : Int} (nonneg : 0 ≤ exp) :
    dividedByPower (2 ^ zeroes * odd) exp =
      if exp - zeroes ≤ 0 then some (.integer (bitShift (2 ^ zeroes * odd) (-exp)))
      else divide odd (bitShift 1 (exp - zeroes)) := by
  have place : (((zeroes + 1 : Nat) : Int) - 1) = zeroes := by
    rw [Nat.cast_succ, add_sub_cancel_right]
  have cancelled : -(zeroes : Int) - (exp - zeroes) = -exp := by ring
  have removed : bitShift (2 ^ zeroes * odd) (-zeroes) = odd := by
    rw [bitShift_right]
    exact Int.mul_ediv_cancel_left odd (pow_ne_zero zeroes (by decide))
  rw [dividedByPower, if_neg nonneg.not_gt, lowBit_eq isOdd]
  change (if exp - (((zeroes + 1 : Nat) : Int) - 1) ≤ 0 then _ else _) = _
  rw [place, cancelled, removed]
  split
  · rfl
  · next more => exact if_neg (not_le.mp more).ne'

theorem gcd_pow_two (isOdd : ¬ 2 ∣ odd) (places : Nat) : Int.gcd odd (2 ^ places) = 1 := by
  have notDivides : ¬ 2 ∣ odd.natAbs := mt Int.natCast_dvd.mpr isOdd
  have coprime : Nat.Coprime 2 odd.natAbs := Nat.prime_two.coprime_iff_not_dvd.mpr notDivides
  rw [Int.gcd_def, Int.natAbs_pow]
  exact coprime.symm.pow_right places

/-- The answer denotes the quotient by the power of two, negative powers included. -/
theorem dividedByPower_exact (isOdd : ¬ 2 ∣ odd) (exp : Int) :
    ∃ answer, dividedByPower (2 ^ zeroes * odd) exp = some answer ∧ answer.IsDyadic ∧
      answer.value = ((2 ^ zeroes * odd : Int) : ℚ) * 2 ^ (-exp) := by
  obtain negative | nonneg := lt_or_ge exp 0
  · obtain ⟨count, same⟩ := Int.eq_ofNat_of_zero_le (neg_pos.mpr negative).le
    refine ⟨.integer (2 ^ zeroes * odd * 2 ^ count), ?_, trivial, ?_⟩
    · rw [dividedByPower, if_pos negative, same, bitShift_left]
    · rw [same, zpow_natCast, Number.value]
      push_cast
      rfl
  · obtain ⟨count, rfl⟩ := Int.eq_ofNat_of_zero_le nonneg
    rw [dividedByPower_of_nonneg isOdd nonneg, zpow_neg, zpow_natCast, bitShift_right]
    obtain few | more := le_or_gt count zeroes
    · obtain ⟨rest, rfl⟩ := Nat.exists_eq_add_of_le few
      have power : (2 : Int) ^ (count + rest) * odd = 2 ^ count * (2 ^ rest * odd) := by ring
      have shifted : (2 : Int) ^ (count + rest) * odd / 2 ^ count = 2 ^ rest * odd := by
        rw [power]
        exact Int.mul_ediv_cancel_left _ (pow_ne_zero count (by decide))
      refine ⟨.integer (2 ^ rest * odd), ?_, trivial, ?_⟩
      · rw [if_pos (by push_cast; omega), shifted]
      · rw [Number.value, power]
        push_cast
        field_simp
    · obtain ⟨places, rfl⟩ := Nat.exists_eq_add_of_lt more
      have left : ((zeroes + places + 1 : Nat) : Int) - zeroes = (places + 1 : Nat) := by
        push_cast
        ring
      have greater : (1 : Int) < 2 ^ (places + 1) := one_lt_pow₀ (by decide) (Nat.succ_ne_zero places)
      refine ⟨.fraction ⟨odd, 2 ^ (places + 1), by positivity⟩, ?_, ?_, ?_⟩
      · rw [left, if_neg (by omega), bitShift_left, one_mul]
        exact divide_of_coprime (gcd_pow_two isOdd _) greater
      · exact ⟨gcd_pow_two isOdd _, _, Nat.succ_pos _, rfl⟩
      · rw [Number.value, Fraction.value]
        push_cast
        field_simp
        ring

end Shifts

section Fields

theorem uShortAtOffset_eq (self : Binary64) (offset : Nat) :
    uShortAtOffset self offset = (self.bits.toNat / 256 ^ offset % 65536 : Nat) := by
  have above : self.bits.toNat / 256 ^ (offset + 1) = self.bits.toNat / 256 ^ offset / 256 := by
    rw [pow_succ, Nat.div_div_eq_div_mul]
  have shifted : ∀ byte : Nat, bitShift byte 8 = (byte * 256 : Nat) := fun byte => by
    rw [Nat.cast_mul]
    exact bitShift_left byte 8
  rw [uShortAtOffset, shifted, ← Nat.cast_add, Arithmetic.Float.byteAt, Arithmetic.Float.byteAt,
    Nat.add_sub_cancel, Nat.add_sub_cancel_right (offset + 1) 1, above]
  congr 1
  omega

theorem uLongAtOffset_eq (self : Binary64) (offset : Nat) :
    uLongAtOffset self offset = (self.bits.toNat / 256 ^ offset % 2 ^ 32 : Nat) := by
  have above : self.bits.toNat / 256 ^ (offset + 2) = self.bits.toNat / 256 ^ offset / 65536 := by
    rw [pow_add, ← Nat.div_div_eq_div_mul]
    rfl
  have shifted : ∀ short : Nat, bitShift short 16 = (short * 65536 : Nat) := fun short => by
    rw [Nat.cast_mul]
    exact bitShift_left short 16
  rw [uLongAtOffset, uShortAtOffset_eq, uShortAtOffset_eq]
  rw [shifted, ← Nat.cast_add, above]
  congr 1
  omega

/-- The bits of the exponent are those above four others. -/
theorem isSpecialValue_iff (self : Binary64) : isSpecialValue self = true ↔ ¬ self.IsFinite := by
  have small := self.bits.toNat_lt
  have short : uShortAtOffset self 6 = (self.bits.toNat / 2 ^ 48 : Nat) := by
    rw [uShortAtOffset_eq]
    congr 1
    omega
  have high : (self.bits.toNat / 2 ^ 48 &&& 0x7FF0) / 2 ^ 4 = self.exponent := by
    rw [Nat.and_div_two_pow, Binary64.exponent, Binary64.magnitude]
    refine Eq.trans (Nat.and_two_pow_sub_one_eq_mod _ 11) ?_
    omega
  have low : (self.bits.toNat / 2 ^ 48 &&& 0x7FF0) % 2 ^ 4 = 0 := by
    rw [Nat.and_mod_two_pow]
    exact Nat.and_zero _
  have bound : self.exponent < 2048 := by
    rw [Binary64.exponent, Binary64.magnitude]
    omega
  have masked : isSpecialValue self = true ↔ self.bits.toNat / 2 ^ 48 &&& 0x7FF0 = 0x7FF0 := by
    rw [isSpecialValue, short, decide_eq_true_iff]
    exact Int.ofNat_inj
  rw [masked, Binary64.IsFinite]
  omega

theorem high_eq (self : Binary64) : uLongAtOffset self 4 = (self.bits.toNat / 2 ^ 32 : Nat) := by
  have small := self.bits.toNat_lt
  rw [uLongAtOffset_eq]
  congr 1
  omega

/-- The sign and the exponent. -/
theorem top_eq (self : Binary64) :
    bitShift (uLongAtOffset self 4) (-20) = (self.bits.toNat / 2 ^ 52 : Nat) := by
  have shifted := bitShift_right ((self.bits.toNat / 2 ^ 32 : Nat) : Int) 20
  rw [high_eq]
  refine Eq.trans shifted ?_
  norm_cast
  rw [Nat.div_div_eq_div_mul, ← pow_add]

theorem positive_iff (self : Binary64) :
    Int.land (bitShift (uLongAtOffset self 4) (-20)) 0x800 = 0 ↔ self.negative = false := by
  have small := self.bits.toNat_lt
  have masked : self.bits.toNat / 2 ^ 52 &&& 0x800 =
      (self.bits.toNat / 2 ^ 52 / 2 ^ 11 % 2) * 2 ^ 11 := by
    refine Eq.trans (Nat.and_two_pow _ 11) ?_
    rw [Nat.testBit_eq_decide_div_mod_eq]
    obtain zero | one := Nat.mod_two_eq_zero_or_one (self.bits.toNat / 2 ^ 52 / 2 ^ 11)
    · rw [zero]
      rfl
    · rw [one]
      rfl
  have natural : Int.land (bitShift (uLongAtOffset self 4) (-20)) 0x800 = 0 ↔
      self.bits.toNat / 2 ^ 52 &&& 0x800 = 0 := by
    rw [top_eq]
    exact Int.ofNat_inj
  rw [natural, masked, Binary64.negative, decide_eq_false_iff_not]
  omega

theorem exponent_eq (self : Binary64) :
    (if Int.land (bitShift (uLongAtOffset self 4) (-20)) 0x800 = 0 then
      bitShift (uLongAtOffset self 4) (-20)
    else Int.land (bitShift (uLongAtOffset self 4) (-20)) 0x7FF) = self.exponent := by
  have small := self.bits.toNat_lt
  rw [Binary64.exponent, Binary64.magnitude]
  split
  · next positive =>
    have plus := (positive_iff self).mp positive
    rw [Binary64.negative, decide_eq_false_iff_not] at plus
    rw [top_eq]
    congr 1
    omega
  · rw [top_eq]
    refine (congrArg Nat.cast (Nat.and_two_pow_sub_one_eq_mod (self.bits.toNat / 2 ^ 52) 11)).trans ?_
    congr 1
    omega

theorem significand_eq (self : Binary64) :
    bitShift (Int.land (uLongAtOffset self 4) 0xFFFFF) 32 + uLongAtOffset self 0 =
      self.fraction := by
  have masked : Int.land (uLongAtOffset self 4) 0xFFFFF =
      (self.bits.toNat / 2 ^ 32 % 2 ^ 20 : Nat) := by
    rw [high_eq]
    exact congrArg Nat.cast (Nat.and_two_pow_sub_one_eq_mod (self.bits.toNat / 2 ^ 32) 20)
  have shifted := bitShift_left ((self.bits.toNat / 2 ^ 32 % 2 ^ 20 : Nat) : Int) 32
  rw [masked, uLongAtOffset_eq, Binary64.fraction, Binary64.magnitude]
  refine (congrArg (· + _) shifted).trans ?_
  norm_cast
  omega

theorem hidden_eq (self : Binary64) :
    Int.lor self.fraction 0x10000000000000 = (2 ^ 52 + self.fraction : Nat) := by
  have small : self.fraction < 2 ^ 52 := Nat.mod_lt _ (by decide)
  have joined := Nat.two_pow_add_eq_or_of_lt small 1
  rw [mul_one, Nat.lor_comm] at joined
  exact congrArg Nat.cast joined.symm

/-- The significand, its hidden bit included; that of a denormal number is doubled. -/
def significand (self : Binary64) : Nat :=
  if self.exponent = 0 then self.fraction * 2 else 2 ^ 52 + self.fraction

theorem asTrueFraction_eq {self : Binary64} (finite : self.IsFinite) :
    asTrueFraction self =
      if significand self = 0 then some (.integer 0)
      else dividedByPower (if self.negative then -significand self else significand self)
        (1075 - self.exponent) := by
  have ordinary : ¬ isSpecialValue self = true := mt (isSpecialValue_iff self).mp (not_not.mpr finite)
  rw [asTrueFraction, if_neg ordinary]
  dsimp only
  rw [exponent_eq, significand_eq, hidden_eq]
  have zero : ((self.exponent : Int) = 0 ∧ (self.fraction : Int) = 0) ↔ significand self = 0 := by
    rw [significand]
    split <;> omega
  have doubled : bitShift self.fraction 1 = (self.fraction * 2 : Nat) := by
    rw [bitShift_one, mul_comm, Nat.cast_mul]
    rfl
  have same : (if (self.exponent : Int) = 0 then bitShift self.fraction 1
      else (2 ^ 52 + self.fraction : Nat)) = significand self := by
    rw [doubled, significand, ← Nat.cast_ite]
    simp only [Nat.cast_eq_zero]
  have sign : ∀ value : Int, (if Int.land (bitShift (uLongAtOffset self 4) (-20)) 0x800 = 0 then
      value else -value) = if self.negative then -value else value := fun value => by
    simp only [positive_iff]
    cases self.negative <;> rfl
  rw [same, sign]
  simp only [zero]

/-- The significand counts halves of the units that the exponent multiplies. -/
theorem significand_units (self : Binary64) :
    significand self * 2 ^ self.exponent = Binary64.magnitudeUnits self.magnitude * 2 := by
  rw [significand, Binary64.magnitudeUnits, ← Binary64.exponent, ← Binary64.fraction]
  split
  · next denormal => rw [denormal, pow_zero, mul_one]
  · next normal =>
    rw [mul_assoc, ← pow_succ, Nat.sub_add_cancel (Nat.pos_of_ne_zero normal)]

theorem signed_units (self : Binary64) :
    ((if self.negative then -(significand self : Int) else significand self : Int) : ℚ) *
      2 ^ (-(1075 - self.exponent : Int)) = (self.units : ℚ) / Binary64.one := by
  have units : (significand self : ℚ) * 2 ^ self.exponent =
      (Binary64.magnitudeUnits self.magnitude : ℚ) * 2 := by
    exact_mod_cast significand_units self
  have power : (2 : ℚ) ^ (-(1075 - self.exponent : Int)) = 2 ^ self.exponent / 2 ^ 1075 := by
    rw [neg_sub, zpow_sub₀ (by decide), zpow_natCast]
    rfl
  have half : ∀ value : ℚ, value * 2 / 2 ^ 1075 = value / 2 ^ 1074 := fun value => by
    rw [pow_succ, mul_div_mul_right _ _ (by decide)]
  have one : ((Binary64.one : Nat) : ℚ) = 2 ^ 1074 := by
    rw [Binary64.one, Nat.cast_pow]
    rfl
  rw [Binary64.units, power, one, ← mul_div_assoc]
  cases self.negative with
  | false =>
    rw [if_neg Bool.false_ne_true, if_neg Bool.false_ne_true, Int.cast_natCast, Int.cast_natCast,
      units, half]
  | true =>
    rw [if_pos rfl, if_pos rfl, Int.cast_neg, Int.cast_neg, Int.cast_natCast, Int.cast_natCast,
      neg_mul, units, ← neg_mul, half]

end Fields

end Float

end Egg.Rational
