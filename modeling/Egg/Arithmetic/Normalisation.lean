import Egg.Arithmetic.QuotientDigits

/-! The highest bit of a divisor is made that of a digit. -/
namespace Egg.Arithmetic

open LargeInteger Number

variable {log2 : Nat → Int}

/-- The places by which the highest bit is below that of its digit. -/
def places (divisor : Nat) : Nat :=
  15 - Nat.log2 divisor % 16

/-- The logarithm is not rounded up for what the normalisation of a small divisor of three or four
digits takes the sizes of. -/
structure Normal (log2 : Nat → Int) (divisor : Nat) : Prop where
  three : 2 ^ 32 ≤ divisor → divisor < 2 ^ 48 → log2 (divisor * 2 ^ places divisor) = 47
  four : 2 ^ 48 ≤ divisor → divisor < 2 ^ 62 → Sized log2 divisor (places divisor)

section Digits

variable {divisor : Nat}

theorem base_pow_two (count : Nat) : base ^ count = 2 ^ (16 * count) := by
  rw [show base = 2 ^ 16 from rfl, ← pow_mul]

/-- The highest bit of the shifted divisor is that of a digit. -/
theorem shifted_bounds (positive : 0 < divisor) :
    base ^ (Nat.log2 divisor / 16 + 1) ≤ 2 * (divisor * 2 ^ places divisor) ∧
      divisor * 2 ^ places divisor < base ^ (Nat.log2 divisor / 16 + 1) := by
  have log := (@Nat.log2_eq_iff divisor _ positive.ne').mp rfl
  have least : Nat.log2 divisor + 1 + places divisor = 16 * (Nat.log2 divisor / 16 + 1) := by
    unfold places
    lia
  rw [base_pow_two, ← least, pow_add, pow_succ]
  constructor
  · calc 2 ^ Nat.log2 divisor * 2 * 2 ^ places divisor
        ≤ divisor * 2 * 2 ^ places divisor :=
          Nat.mul_le_mul_right _ (Nat.mul_le_mul_right _ log.1)
      _ = 2 * (divisor * 2 ^ places divisor) := by ring
  · exact Nat.mul_lt_mul_of_pos_right log.2 (by positivity)

theorem log2_shifted (positive : 0 < divisor) :
    Nat.log2 (divisor * 2 ^ places divisor) = 16 * (Nat.log2 divisor / 16) + 15 := by
  obtain ⟨half, below⟩ := shifted_bounds positive
  rw [base_pow_two, mul_add, mul_one] at half below
  refine (Nat.log2_eq_iff (by positivity)).mpr ⟨?_, below⟩
  rw [show 16 * (Nat.log2 divisor / 16) + 16 = 16 * (Nat.log2 divisor / 16) + 15 + 1 by lia,
    pow_succ] at half
  lia

/-- The digit of the highest bit. -/
theorem highBit_leading (accurate : Accurate log2) (positive : 0 < divisor) :
    divisor / base ^ (Nat.log2 divisor / 16) < base ∧
      bits - highBit log2 (divisor / base ^ (Nat.log2 divisor / 16)) = places divisor := by
  have log := (@Nat.log2_eq_iff divisor _ positive.ne').mp rfl
  have low : base ^ (Nat.log2 divisor / 16) ≤ divisor := by
    rw [base_pow_two]
    exact (Nat.pow_le_pow_right (by decide) (by lia)).trans log.1
  have some : 0 < divisor / base ^ (Nat.log2 divisor / 16) := Nat.div_pos low (Nat.pow_pos (by decide))
  have below : divisor / base ^ (Nat.log2 divisor / 16) < base := by
    rw [Nat.div_lt_iff_lt_mul (Nat.pow_pos (by decide)), ← Nat.pow_succ', base_pow_two]
    exact log.2.trans_le (Nat.pow_le_pow_right (by decide) (by lia))
  refine ⟨below, ?_⟩
  have digit := accurate.exact _ some (below.trans (by decide))
  have parts : Nat.log2 (divisor / base ^ (Nat.log2 divisor / 16)) + 16 * (Nat.log2 divisor / 16) =
      Nat.log2 divisor := by
    rw [base_pow_two] at some ⊢
    exact log2_div some
  rw [highBit, if_neg some.ne', digit]
  unfold places bits
  lia

/-- A canonical integer has as many digits as its value takes. -/
theorem large_nbDigits {self : LargeInteger} (canonical : Canonical (.large self)) (count : Nat)
    (least : (base : Int) ^ count ≤ self.toInt) (most : self.toInt < (base : Int) ^ (count + 1)) :
    self.nbDigits = count + 1 := by
  have positive := base_pow_pos count
  have sign : self.negative = false := by
    by_contra negative
    have less := toInt_neg (by simpa using negative)
    lia
  have takes := canonical.2
  rw [Takes, if_neg (by simp [sign])] at takes
  obtain ⟨-, below, above⟩ := takes
  have more : count < self.nbDigits :=
    (pow_lt_pow_iff_right₀ (show (1 : Int) < base by decide)).mp (least.trans_lt below)
  rcases above with one | above
  · lia
  · have fewer : self.nbDigits - 1 < count + 1 :=
      (pow_lt_pow_iff_right₀ (show (1 : Int) < base by decide)).mp (above.trans_lt most)
    lia

theorem large_digits {self : LargeInteger} (canonical : Canonical (.large self)) {value : Nat}
    (same : self.toInt = value) {count : Nat} (least : base ^ count ≤ value)
    (most : value < base ^ (count + 1)) :
    ((Number.large self).sizeInBytes log2 + digitLength - 1) / digitLength * digitLength =
        2 * (count + 1 : Nat) ∧
      (Number.large self).highWideDigit log2 = value / base ^ count % base := by
  have length := large_nbDigits canonical count (by rw [same]; exact_mod_cast least)
    (by rw [same]; exact_mod_cast most)
  have digit := self.wideDigitAt_eq count
  rw [same] at digit
  constructor
  · rw [Number.sizeInBytes, LargeInteger.sizeInBytes, length]
    unfold digitLength
    lia
  · rw [Number.highWideDigit, LargeInteger.highWideDigit, length]
    exact_mod_cast digit

/-- The digits that a small integer takes and the highest of them, by what is taken for its
logarithm. -/
theorem small_digits (accurate : Accurate log2) {value : Nat} (fits : Fits value)
    (positive : 0 < value) {count : Nat} (log : log2 value / 16 = count) :
    ((Number.small value).sizeInBytes log2 + digitLength - 1) / digitLength * digitLength =
        2 * (count + 1 : Nat) ∧
      (Number.small value).highWideDigit log2 = value / base ^ count % base := by
  obtain ⟨least, most, size, -⟩ := size_bounds accurate fits (by exact_mod_cast positive)
  rw [Int.toNat_natCast] at size
  constructor
  · rw [Number.sizeInBytes]
    unfold digitLength
    lia
  · have highest : (if primitiveSMISize log2 value % 2 = 1 then primitiveSMISize log2 value + 1
        else primitiveSMISize log2 value) = 2 * count + 2 := by
      split_ifs <;> lia
    have byte (index : Nat) (inside : index < 8) :
        (Number.small value).byteAt (index + 1) = value / 256 ^ index % 256 := by
      rw [Number.byteAt, if_neg (by unfold wordSize; lia), smallIntegerByteAt, Nat.add_sub_cancel]
      have cast : (value : Int) / 256 ^ index % 256 = (value / 256 ^ index % 256 : Nat) := by
        push_cast
        rfl
      rw [cast, Int.toNat_natCast]
    have power : base ^ count = 256 ^ (2 * count) := by
      rw [pow_mul]
      rfl
    rw [Number.highWideDigit]
    simp only [highest]
    rw [show (2 * (count : Int) + 2).toNat = 2 * count + 1 + 1 by lia,
      show (2 * (count : Int) + 2 - 1).toNat = 2 * count + 1 by lia, byte _ (by lia),
      byte _ (by lia), pow_succ, ← Nat.div_div_eq_div_mul, power, show base = 65536 from rfl]
    lia

/-- What the loop is given where the normalisation is right. -/
structure Shifted (log2 : Nat → Int) (divisor : Number) (D : Nat) (v : Number) : Prop where
  shift : bits - highBit log2 (divisor.highWideDigit log2) = places D
  found : divisor.bitShift log2 (places D) = some v
  canonical : Canonical v
  size : (v.sizeInBytes log2 + digitLength - 1) / digitLength * digitLength =
    2 * (Nat.log2 D / 16 + 1 : Nat)
  normalised : Normalised v (D * 2 ^ places D) (Nat.log2 D / 16 + 1) (v.highWideDigit log2)

/-- A canonical number in the bounds of the shifted divisor is one, but for what is taken for its
size. -/
theorem Shifted.of_digits {number v : Number} {D : Nat} (large : base ≤ D)
    (shift : bits - highBit log2 (number.highWideDigit log2) = places D)
    (found : number.bitShift log2 (places D) = some v) (canonical : Canonical v)
    (value : v.toInt = (D * 2 ^ places D : Nat))
    (digits : (v.sizeInBytes log2 + digitLength - 1) / digitLength * digitLength =
        2 * (Nat.log2 D / 16 + 1 : Nat) ∧
      v.highWideDigit log2 =
        D * 2 ^ places D / base ^ (Nat.log2 D / 16) % base) : Shifted log2 number D v := by
  have positive : 0 < D := Nat.lt_of_lt_of_le (by decide) large
  obtain ⟨half, below⟩ := shifted_bounds positive
  have log := (@Nat.log2_eq_iff D _ positive.ne').mp rfl
  have wide : 16 ≤ Nat.log2 D := by
    by_contra less
    have bound := log.2.trans_le (Nat.pow_le_pow_right (show 0 < 2 by decide)
      (show Nat.log2 D + 1 ≤ 16 by lia))
    exact absurd (large.trans_lt bound) (by decide)
  have place : 0 < base ^ (Nat.log2 D / 16) := Nat.pow_pos (by decide)
  have top : D * 2 ^ places D / base ^ (Nat.log2 D / 16) < base := by
    rw [Nat.div_lt_iff_lt_mul place, ← Nat.pow_succ']
    exact below
  rw [Nat.mod_eq_of_lt top] at digits
  refine ⟨shift, found, canonical, digits.1, value, by lia, below, digits.2.symm, ?_⟩
  rw [digits.2]
  have scaled : base / 2 * base ^ (Nat.log2 D / 16) ≤ D * 2 ^ places D := by
    rw [pow_succ, show base ^ (Nat.log2 D / 16) * base =
      2 * (base / 2 * base ^ (Nat.log2 D / 16)) by
        rw [show base / 2 = 32768 from rfl, show base = 65536 from rfl]
        ring] at half
    exact Nat.le_of_mul_le_mul_left half (by decide)
  have least := (Nat.le_div_iff_mul_le place).mpr scaled
  rw [show base / 2 = 32768 from rfl] at least
  rw [show base = 65536 from rfl] at *
  lia

/-- A large divisor is normalised. -/
theorem large_shifted (accurate : Accurate log2) {integer : LargeInteger} {D : Nat}
    (canonical : Canonical (.large integer)) (value : integer.toInt = D) :
    ∃ v, Shifted log2 (.large integer) D v := by
  have wide : 2 ^ 62 ≤ D := by
    have past := canonical.1
    unfold Fits minimum maximum at past
    lia
  have positive : 0 < D := by lia
  obtain ⟨half, below⟩ := shifted_bounds positive
  obtain ⟨small, shift⟩ := highBit_leading accurate positive
  have log := (@Nat.log2_eq_iff D _ positive.ne').mp rfl
  have least : base ^ (Nat.log2 D / 16) ≤ D := by
    rw [base_pow_two]
    exact (Nat.pow_le_pow_right (by decide) (by lia)).trans log.1
  have grown : D ≤ D * 2 ^ places D := Nat.le_mul_of_pos_right _ (by positivity)
  have top := (@large_digits log2 integer canonical D value _ least (grown.trans_lt below)).2
  have sign : integer.negative = false := by
    by_contra negative
    have less := toInt_neg (by simpa using negative)
    lia
  have exact := (@bitShift_exact_iff log2 integer (places D) accurate canonical).mpr fun past => by
    rw [sign] at past
    exact Bool.noConfusion past.1
  rw [scaled, if_pos (Int.natCast_nonneg _), Int.toNat_natCast, value] at exact
  obtain ⟨v, found, canonical', value'⟩ := exact
  have value' : v.toInt = (D * 2 ^ places D : Nat) := by
    rw [value']
    push_cast
    rfl
  refine ⟨v, .of_digits ?_ ?_ found canonical' value' ?_⟩
  · exact (show base ≤ 2 ^ 62 by decide).trans wide
  · rw [top, Nat.mod_eq_of_lt small, shift]
  · cases v with
    | small V =>
      have value' : V = (D * 2 ^ places D : Nat) := value'
      have fits : Fits V := canonical'
      unfold Fits maximum at fits
      lia
    | large v => exact large_digits canonical' value' (least.trans grown) below

/-- The shift for a small divisor, by what is taken for its logarithm. -/
theorem small_shift (accurate : Accurate log2) {D : Nat} (fits : Fits D) (positive : 0 < D) :
    (log2 D / 16 = (Nat.log2 D / 16 : Nat) →
      bits - highBit log2 ((Number.small D).highWideDigit log2) = places D) ∧
    (log2 D / 16 ≠ (Nat.log2 D / 16 : Nat) → D < base ^ (Nat.log2 D / 16 + 1) ∧
      Nat.log2 D % 16 = 15 ∧ log2 D = Nat.log2 D + 1 ∧
      bits - highBit log2 ((Number.small D).highWideDigit log2) = 16) := by
  have log := (@Nat.log2_eq_iff D _ positive.ne').mp rfl
  unfold Fits maximum at fits
  obtain ⟨least, most⟩ := accurate.bounded D positive (by lia)
  obtain ⟨small, shift⟩ := highBit_leading accurate positive
  constructor
  · intro same
    rw [(small_digits accurate (by unfold Fits minimum maximum; lia) positive same).2,
      Nat.mod_eq_of_lt small, shift]
  · intro other
    have next : log2 D / 16 = (Nat.log2 D / 16 + 1 : Nat) := by lia
    have below : D < base ^ (Nat.log2 D / 16 + 1) := by
      rw [base_pow_two]
      exact log.2.trans_le (Nat.pow_le_pow_right (by decide) (by lia))
    refine ⟨below, by lia, by lia, ?_⟩
    rw [(small_digits accurate (by unfold Fits minimum maximum; lia) positive next).2,
      Nat.div_eq_of_lt below]
    rfl

/-- A small divisor is normalised where its logarithms are not rounded up. -/
theorem small_shifted (accurate : Accurate log2) {D : Nat} (fits : Fits D) (large : base ≤ D)
    (normal : Normal log2 D) : ∃ v, Shifted log2 (.small D) D v := by
  have positive : 0 < D := Nat.lt_of_lt_of_le (by decide) large
  have log := (@Nat.log2_eq_iff D _ positive.ne').mp rfl
  obtain ⟨half, below⟩ := shifted_bounds positive
  have within := fits
  unfold Fits maximum at within
  have wide : D < 2 ^ 62 := by lia
  have logs : Nat.log2 D < 62 := (Nat.log2_lt positive.ne').mpr wide
  rw [show base = 2 ^ 16 from rfl] at large
  have logs' : 16 ≤ Nat.log2 D := by
    by_contra less
    have bound := (Nat.log2_lt positive.ne').mp (show Nat.log2 D < 16 by lia)
    lia
  obtain ⟨right, wrong⟩ := small_shift accurate fits positive
  by_cases four : 2 ^ 48 ≤ D
  · have three : 48 ≤ Nat.log2 D := by
      by_contra less
      have bound := (Nat.log2_lt positive.ne').mp (show Nat.log2 D < 48 by lia)
      lia
    have sized := normal.four four wide
    have exact := sized.1
    rw [Int.toNat_natCast] at exact
    obtain ⟨v, found, canonical, value⟩ :=
      Number.bitShift_small_exact accurate fits (Int.natCast_nonneg D) (.inr sized)
    have value : v.toInt = (D * 2 ^ places D : Nat) := by
      rw [value]
      push_cast
      rfl
    refine ⟨v, .of_digits large (right (by lia)) found canonical value ?_⟩
    have least : base ^ (Nat.log2 D / 16) ≤ D := by
      rw [base_pow_two]
      exact (Nat.pow_le_pow_right (by decide) (by lia)).trans log.1
    have grown : D ≤ D * 2 ^ places D := Nat.le_mul_of_pos_right _ (by positivity)
    cases v with
    | small V =>
      have value : V = (D * 2 ^ places D : Nat) := value
      have fits' : Fits V := canonical
      rw [show Nat.log2 D / 16 + 1 = 4 by lia, show base ^ 4 = 2 ^ 64 from rfl] at half
      unfold Fits maximum at fits'
      lia
    | large v => exact large_digits canonical value (least.trans grown) below
  · have logs'' : Nat.log2 D < 48 := (Nat.log2_lt positive.ne').mpr (not_le.mp four)
    have narrow : D < 2 ^ 32 ↔ Nat.log2 D < 32 := (Nat.log2_lt positive.ne').symm
    have same : log2 D / 16 = (Nat.log2 D / 16 : Nat) := by
      by_contra other
      obtain ⟨-, top, rounded, -⟩ := wrong other
      by_cases two : D < 2 ^ 32
      · have exact := accurate.exact D positive two
        lia
      · have exact := normal.three (not_lt.mp two) (not_le.mp four)
        rw [show places D = 0 by unfold places; lia, pow_zero, mul_one] at exact
        lia
    have power : base ^ (Nat.log2 D / 16 + 1) ≤ 2 ^ 48 := by
      rw [base_pow_two]
      exact Nat.pow_le_pow_right (by decide) (by lia)
    have cast : (D : Int) * 2 ^ places D = (D * 2 ^ places D : Nat) := by
      push_cast
      rfl
    have log' : log2 (D * 2 ^ places D : Nat) / 16 = (Nat.log2 D / 16 : Nat) := by
      by_cases two : D < 2 ^ 32
      · have power' : base ^ (Nat.log2 D / 16 + 1) ≤ 2 ^ 32 := by
          rw [base_pow_two]
          exact Nat.pow_le_pow_right (by decide) (by lia)
        have exact := accurate.exact (D * 2 ^ places D) (by positivity) (below.trans_le power')
        have value := log2_shifted positive
        lia
      · have exact := normal.three (not_lt.mp two) (not_le.mp four)
        lia
    have digits := @small_digits log2 accurate (D * 2 ^ places D)
      (by unfold Fits minimum maximum; lia) (by positivity) _ log'
    obtain ⟨v, found, canonical, value⟩ := Number.bitShift_small_exact (n := places D) accurate fits
      (Int.natCast_nonneg D) (.inl (by rw [cast]; unfold Fits minimum maximum; lia))
    rw [cast] at value
    have fits' : Canonical (.small (D * 2 ^ places D : Nat)) := by
      change Fits _
      unfold Fits minimum maximum
      lia
    cases canonical.ext fits' value
    exact ⟨_, .of_digits large (right same) found canonical value digits⟩

end Digits

end Egg.Arithmetic
