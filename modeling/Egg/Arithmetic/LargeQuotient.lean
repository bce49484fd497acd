import Egg.Arithmetic.Normalisation

/-! Quotients and remainders of large integers. -/
namespace Egg.Arithmetic

open LargeInteger Number

variable {log2 : Nat → Int}

/-- A shift to the right of a number that is not negative. -/
theorem bitShift_right_exact (accurate : Accurate log2) {number : Number}
    (canonical : Canonical number) (nonneg : 0 ≤ number.toInt) (n : Nat) :
    Exact (number.bitShift log2 (-n)) (number.toInt / 2 ^ n) := by
  cases number with
  | small value =>
    have nonneg : 0 ≤ value := nonneg
    have fits : Fits value := canonical
    have less := Int.ediv_le_self (2 ^ n) nonneg
    have least := Int.ediv_nonneg nonneg (show (0 : Int) ≤ 2 ^ n by positivity)
    rw [Number.bitShift, if_neg (by omega), Int.neg_neg, Int.toNat_natCast, Number.toInt]
    split_ifs with past negative
    · omega
    · have power : (2 : Int) ^ 63 ≤ 2 ^ n := pow_le_pow_right₀ (by decide) (by omega)
      unfold Fits maximum at fits
      rw [Int.ediv_eq_zero_of_lt nonneg (by omega)]
      exact exact_small (by decide)
    · unfold Fits minimum at fits
      exact exact_small ⟨by unfold minimum; omega, less.trans fits.2⟩
  | large integer =>
    have nonneg : 0 ≤ integer.toInt := nonneg
    have exact := (@bitShift_exact_iff log2 integer (-n) accurate canonical).mpr fun past => by
      have less := toInt_neg past.1
      omega
    rw [Number.bitShift, Number.toInt]
    rw [scaled] at exact
    split_ifs at exact with zero
    · obtain rfl : n = 0 := by omega
      simp only [Int.natCast_zero, Int.neg_zero, Int.toNat_zero, pow_zero, mul_one] at exact
      rw [pow_zero, Int.ediv_one]
      exact exact
    · rwa [Int.neg_neg, Int.toNat_natCast] at exact

theorem reduced_canonical (accurate : Accurate log2) {integer : LargeInteger}
    (canonical : Canonical (.large integer)) : Exact (integer.reduced log2) integer.toInt := by
  obtain ⟨size, signed⟩ := canonical.operand
  exact reduced_exact accurate (by omega) signed

/-- A quotient and a remainder in canonical form, with all digits in their range. -/
structure Divided (data : QuoRem) (quo rem : Int) : Prop where
  quo : Exact (some data.quo) quo
  rem : Exact (some data.rem) rem
  digits : InRange data.digits

section Positive

variable {self : LargeInteger} {U D : Nat}

theorem large_value (canonical : Canonical (.large self)) (value : self.toInt = U) :
    2 ^ 62 ≤ U ∧ self.negative = false := by
  have past := canonical.1
  refine ⟨?_, ?_⟩
  · unfold Fits minimum maximum at past
    omega
  · by_contra negative
    have less := toInt_neg (by simpa using negative)
    omega

variable (accurate : Accurate log2) (canonical : Canonical (.large self)) (value : self.toInt = U)

include accurate canonical value

/-- The dividend, shifted to the left. -/
theorem shifted_dividend (s : Nat) : ∃ u : LargeInteger, self.bitShift log2 s = some (.large u) ∧
    Canonical (.large u) ∧ u.toInt = (U * 2 ^ s : Nat) := by
  obtain ⟨wide, sign⟩ := large_value canonical value
  obtain ⟨u, found, canonical', value'⟩ :=
    (@bitShift_exact_iff log2 self s accurate canonical).mpr fun past => by
      rw [sign] at past
      exact Bool.noConfusion past.1
  rw [scaled, if_pos (Int.natCast_nonneg _), Int.toNat_natCast, value] at value'
  have value' : u.toInt = (U * 2 ^ s : Nat) := by
    rw [value']
    push_cast
    rfl
  have grown : U ≤ U * 2 ^ s := Nat.le_mul_of_pos_right _ (by positivity)
  cases u with
  | small u =>
    have value' : u = (U * 2 ^ s : Nat) := value'
    have fits : Fits u := canonical'
    unfold Fits maximum at fits
    omega
  | large u => exact ⟨u, found, canonical', value'⟩

/-- Division by more than a digit is exact where the divisor is normalised. -/
theorem longQuoRem_exact {divisor v : Number} (shifted : Shifted log2 divisor D v)
    (positive : 0 < D) (enough : D ≤ U) :
    ∃ data, computeQuoRem.longQuoRem log2 self divisor = some data ∧
      Divided data (U / D : Nat) (U % D : Nat) := by
  obtain ⟨shift, foundV, canonicalV, size, normal⟩ := shifted
  obtain ⟨u, foundU, canonicalU, valueU⟩ := shifted_dividend accurate canonical value (places D)
  obtain ⟨wide, sign⟩ := large_value canonical value
  obtain ⟨half, below⟩ := shifted_bounds positive
  obtain ⟨n, digits⟩ : ∃ n, Nat.log2 D / 16 = n := ⟨_, rfl⟩
  rw [digits] at half below size normal
  have power : 0 < 2 ^ places D := by positivity
  have place : base ^ n ≤ D * 2 ^ places D := by
    rw [pow_succ, show base = 2 * 32768 from rfl] at half
    rw [show base = 2 * 32768 from rfl]
    have least := Nat.pow_pos (n := n) (show 0 < 2 * 32768 by decide)
    omega
  have least : D * 2 ^ places D ≤ U * 2 ^ places D := Nat.mul_le_mul_right _ enough
  -- the dividend has at least as many digits as the divisor
  have within := u.within_toInt
  rw [Within, if_neg (by simp [(large_value canonicalU valueU).2]), valueU] at within
  have small : U * 2 ^ places D < base ^ u.nbDigits := by exact_mod_cast within.2
  have count : n < u.nbDigits :=
    (Nat.pow_lt_pow_iff_right (by decide)).mp ((place.trans least).trans_lt small)
  obtain ⟨m, length⟩ : ∃ m, u.nbDigits = n + (m + 1) := ⟨u.nbDigits - n - 1, by omega⟩
  have bytes : (Number.large u).sizeInBytes log2 - 2 * (n + 1 : Nat) + digitLength =
      2 * (m + 1 : Nat) := by
    rw [Number.sizeInBytes, LargeInteger.sizeInBytes, length]
    unfold digitLength
    omega
  have room : (new self.negative (2 * (m + 1 : Nat))).nbDigits = m + 1 := by
    rw [length_new]
    omega
  have zero : (new self.negative (2 * (m + 1 : Nat))).toInt = 0 := by
    rw [sign]
    exact new_toInt _
  have nonneg : 0 ≤ (Number.large u).toInt := by
    change 0 ≤ u.toInt
    omega
  have wholes : (Number.large u).toInt < (D * 2 ^ places D * base ^ (m + 1) : Nat) := by
    change u.toInt < _
    rw [length, pow_add] at small
    rw [valueU, Int.ofNat_lt]
    exact small.trans_le (Nat.mul_le_mul_right _ place)
  obtain ⟨quo, rem, digits, found, sign', count', canonicalR, split, above, less, range⟩ :=
    quotientDigits_eq accurate normal canonicalV canonicalU nonneg wholes room.ge
      (zero ▸ dvd_zero _)
  obtain ⟨q, reduced, canonicalQ, valueQ⟩ := @reduced_exact quo log2 accurate (by omega)
    fun negative => by
      rw [sign', new, sign] at negative
      exact Bool.noConfusion negative
  -- what is left is the shifted remainder
  obtain ⟨R, remainder⟩ := Int.eq_ofNat_of_zero_le above
  have above' : 0 ≤ quo.toInt := toInt_nonneg (by rw [sign', new, sign])
  obtain ⟨Q, quotient⟩ := Int.eq_ofNat_of_zero_le above'
  have split' : U * 2 ^ places D = Q * (D * 2 ^ places D) + R := by
    have split : u.toInt = (quo.toInt - (new self.negative (2 * (m + 1 : Nat))).toInt) *
      (D * 2 ^ places D : Nat) + rem.toInt := split
    rw [zero, sub_zero, quotient, remainder, valueU] at split
    exact_mod_cast split
  have less' : R < D * 2 ^ places D := by
    rw [remainder] at less
    exact_mod_cast less
  obtain ⟨whole, rest⟩ : U / D = Q ∧ U % D * 2 ^ places D = R := by
    have parts : U * 2 ^ places D / (D * 2 ^ places D) = Q ∧
        U * 2 ^ places D % (D * 2 ^ places D) = R :=
      (Nat.div_mod_unique (by positivity)).mpr ⟨by rw [split']; ring, less'⟩
    rwa [Nat.mul_div_mul_right U D power, Nat.mul_mod_mul_right] at parts
  have quo' : Exact (some q) (U / D : Nat) := ⟨q, rfl, canonicalQ, by rw [valueQ, quotient, whole]⟩
  rw [computeQuoRem.longQuoRem]
  simp only [shift, foundU, foundV, Option.bind_eq_bind, Option.bind_some, size, bytes]
  rw [show (2 * ((n + 1 : Nat) : Int) / digitLength).toNat = n + 1 by unfold digitLength; omega,
    show (2 * ((m + 1 : Nat) : Int) / digitLength).toNat = m + 1 by unfold digitLength; omega, found]
  simp only [Option.bind_some, reduced]
  by_cases nothing : rem = .small 0
  · have zero' : R = 0 := by
      rw [nothing] at remainder
      have remainder : (0 : Int) = R := remainder
      omega
    rw [if_pos nothing]
    refine ⟨_, rfl, quo', ?_, range⟩
    rw [zero'] at rest
    rw [show U % D = 0 from (Nat.mul_eq_zero.mp rest).resolve_right power.ne']
    exact exact_small (by decide)
  · obtain ⟨last, shiftedBack, canonicalL, valueL⟩ :=
      bitShift_right_exact accurate canonicalR above (places D)
    have valueL : last.toInt = (U % D : Nat) := by
      rw [valueL, remainder, ← rest]
      push_cast
      rw [Int.mul_ediv_cancel _ (by positivity)]
    rw [if_neg nothing, shiftedBack]
    simp only [Option.bind_some]
    cases last with
    | small last => exact ⟨_, rfl, quo', ⟨_, rfl, canonicalL, valueL⟩, range⟩
    | large last =>
      obtain ⟨rem', reduced', canonicalR', valueR'⟩ := reduced_canonical accurate canonicalL
      simp only [reduced', Option.bind_some]
      exact ⟨_, rfl, quo', ⟨_, rfl, canonicalR', valueR'.trans valueL⟩, range⟩

/-- Division by a digit is exact. -/
theorem fastQuoRem_exact (positive : 0 < D) (small : D < base) :
    ∃ data, self.fastQuoRem log2 D = some data ∧ Divided data (U / D : Nat) (U % D : Nat) := by
  obtain ⟨wide, sign⟩ := large_value canonical value
  have size := canonical.operand.1
  have room : (new self.negative self.sizeInBytes).nbDigits = self.nbDigits := by
    rw [length_new]
    unfold LargeInteger.sizeInBytes digitLength
    omega
  have zero : (new self.negative self.sizeInBytes).toInt = 0 := by
    rw [sign]
    exact new_toInt _
  have within := self.within_toInt
  rw [Within, if_neg (by simp [sign])] at within
  obtain ⟨quo, r, digits, found, sign', count, split, least, less, range⟩ :=
    @fastDigits_eq self D small self.nbDigits 0 (new self.negative self.sizeInBytes) positive
      room.ge (zero ▸ dvd_zero _)
  obtain ⟨q, reduced, canonicalQ, valueQ⟩ := @reduced_exact quo log2 accurate (by omega)
    fun negative => by
      rw [sign', new, sign] at negative
      exact Bool.noConfusion negative
  obtain ⟨Q, quotient⟩ := Int.eq_ofNat_of_zero_le
    (@toInt_nonneg quo (by rw [sign', new, sign]))
  obtain ⟨R, rfl⟩ := Int.eq_ofNat_of_zero_le least
  rw [Nat.cast_zero, zero_mul, zero_add, Int.emod_eq_of_lt within.1 within.2, zero, sub_zero,
    quotient, value] at split
  obtain ⟨whole, rest⟩ : U / D = Q ∧ U % D = R := by
    have split : U = Q * D + R := by exact_mod_cast split
    exact (Nat.div_mod_unique positive).mpr ⟨by rw [split]; ring, by omega⟩
  have small : D < 65536 := small
  rw [fastQuoRem]
  simp only [Option.bind_eq_bind]
  rw [show ((0 : Nat) : Int) = 0 from rfl] at found
  rw [found]
  simp only [Option.bind_some, reduced, sign, Bool.false_eq_true, if_false]
  refine ⟨_, rfl, ⟨q, rfl, canonicalQ, by rw [valueQ, quotient, whole]⟩, ?_, range⟩
  rw [rest]
  exact exact_small (by unfold Fits minimum maximum; omega)

/-- `computeQuoRem:` by a divisor that is normalised right is exact. -/
theorem computeQuoRem_exact {divisor : Number} (argument : Canonical divisor)
    (value' : divisor.toInt = D) (positive : 0 < D) (enough : D ≤ U) (normal : Normal log2 D) :
    ∃ data, self.computeQuoRem log2 divisor = some data ∧
      Divided data (U / D : Nat) (U % D : Nat) := by
  obtain ⟨wide, sign⟩ := large_value canonical value
  have size := canonical.operand.1
  have long : ¬ (self.sizeInBytes : Int) < divisor.sizeInBytes log2 := by
    cases divisor with
    | small d =>
      have value' : d = D := value'
      have most := primitiveSMISize_le accurate argument (show d ≠ 0 by omega)
      rw [Number.sizeInBytes]
      unfold LargeInteger.sizeInBytes digitLength
      omega
    | large d =>
      have value' : d.toInt = D := value'
      have takes := argument.2
      rw [Takes, if_neg (by simp [(large_value argument value').2]), value'] at takes
      have within := self.within_toInt
      rw [Within, if_neg (by simp [sign]), value] at within
      have less : (base : Int) ^ (d.nbDigits - 1) < (base : Int) ^ self.nbDigits :=
        (takes.2.2.resolve_left (by have four := argument.operand.1; omega)).trans_lt
          ((Int.ofNat_le.mpr enough).trans_lt within.2)
      have count := (pow_lt_pow_iff_right₀ (show (1 : Int) < base by decide)).mp less
      rw [Number.sizeInBytes]
      unfold LargeInteger.sizeInBytes digitLength
      omega
  rw [computeQuoRem.eq_def, if_neg long]
  cases divisor with
  | small d =>
    obtain rfl : d = D := value'
    dsimp only
    by_cases digit : D < base
    · rw [if_pos (by exact_mod_cast digit)]
      exact fastQuoRem_exact accurate canonical value positive digit
    · rw [if_neg (by exact_mod_cast digit)]
      obtain ⟨v, shifted⟩ := small_shifted accurate argument (not_lt.mp digit) normal
      exact longQuoRem_exact accurate canonical value shifted positive enough
  | large d =>
    obtain ⟨v, shifted⟩ := large_shifted accurate argument value'
    exact longQuoRem_exact accurate canonical value shifted positive enough

end Positive

section Signs

variable (accurate : Accurate log2) {x y : Number}

include accurate

/-- A sum whose receiver is not negative is exact. -/
theorem sum_exact (canonical : Canonical x) (argument : Canonical y)
    (nonneg : (∃ integer, x = .large integer) ∨ 0 ≤ x.toInt) :
    Exact (Number.plus log2 x y) (x.toInt + y.toInt) := by
  refine (sum_exact_iff accurate canonical argument).mpr ?_
  rintro ⟨a, -, rfl, -, -, less⟩
  rcases nonneg with ⟨_, same⟩ | nonneg
  · cases same
  · exact absurd nonneg (not_le.mpr (less.trans (by decide)))

theorem difference_exact (canonical : Canonical x) (argument : Canonical y) (nonneg : 0 ≤ x.toInt) :
    Exact (Number.minus log2 x y) (x.toInt - y.toInt) := by
  refine (difference_exact_iff accurate canonical argument).mpr ?_
  rintro ⟨a, -, rfl, -, -, less⟩
  exact absurd nonneg (not_le.mpr (less.trans (by decide)))

theorem abs_exact (canonical : Canonical x) : Exact (x.abs log2) (x.toInt.natAbs : Nat) := by
  rw [Number.abs, negative_eq]
  by_cases negative : x.toInt < 0
  · rw [decide_eq_true negative, if_pos rfl, Int.ofNat_natAbs_of_nonpos negative.le]
    exact negated_exact accurate canonical.operand
  · rw [decide_eq_false negative, if_neg (by decide), Int.natAbs_of_nonneg (not_lt.mp negative)]
    exact ⟨x, rfl, canonical, rfl⟩

end Signs

/-- What is divided and what is left, in terms of the floor. -/
theorem Divided.floor {data : QuoRem} {x y q r : Int} (divided : Divided data q r)
    (split : r + y * q = x) (range : 0 < y ∧ 0 ≤ r ∧ r < y ∨ y < 0 ∧ y < r ∧ r ≤ 0) :
    Divided data (x.fdiv y) (x.fmod y) := by
  have same : x.fdiv y = q ∧ x.fmod y = r := by
    rcases range with ⟨positive, least, less⟩ | ⟨negative, less, most⟩
    · exact (Int.fdiv_fmod_unique positive).mpr ⟨split, least, less⟩
    · exact (Int.fdiv_fmod_unique' negative).mpr ⟨split, less, most⟩
  rw [same.1, same.2]
  exact divided

section Quotients

variable (accurate : Accurate log2) {self : LargeInteger} {divisor : Number}
  (canonical : Canonical (.large self)) (argument : Canonical divisor)

include accurate canonical argument

/-- Both are divided without their signs. -/
theorem abs_divided (nonzero : divisor.toInt ≠ 0)
    (enough : divisor.toInt.natAbs ≤ self.toInt.natAbs)
    (normal : Normal log2 divisor.toInt.natAbs) :
    ∃ data, quoRem.abs log2 self divisor = some data ∧
      Divided data (self.toInt.natAbs / divisor.toInt.natAbs : Nat)
        (self.toInt.natAbs % divisor.toInt.natAbs : Nat) := by
  obtain ⟨receiver, found, canonical', value⟩ := abs_exact accurate canonical
  obtain ⟨divisor', found', argument', value'⟩ := abs_exact accurate argument
  rw [quoRem.abs]
  simp only [found, found', Option.bind_eq_bind, Option.bind_some]
  cases receiver with
  | small value' =>
    have value : value' = (self.toInt.natAbs : Nat) := value
    have fits : Fits value' := canonical'
    have past := canonical.1
    unfold Fits minimum maximum at fits past
    omega
  | large receiver =>
    exact computeQuoRem_exact accurate canonical' value argument' value' (by omega) enough normal

omit canonical argument in
/-- The quotient is negated, and lowered before where something is left. -/
theorem Divided.adjusted {data : QuoRem} {q r : Nat} (divided : Divided data q r) :
    (data.rem = .small 0 ↔ r = 0) ∧ Exact (data.quo.negated log2) (-q) ∧
      ∃ next, data.quo.plus log2 (.small 1) = some next ∧ Exact (next.negated log2) (-(q + 1)) := by
  obtain ⟨quo, found, canonicalQ, valueQ⟩ := divided.quo
  obtain ⟨rem, found', canonicalR, valueR⟩ := divided.rem
  cases found
  cases found'
  have one : Canonical (.small 1) := by decide
  refine ⟨?_, ?_, ?_⟩
  · rw [eq_zero_iff canonicalR, valueR]
    omega
  · have exact := negated_exact accurate canonicalQ.operand
    rwa [valueQ] at exact
  · obtain ⟨next, found, canonicalN, valueN⟩ :=
      sum_exact accurate canonicalQ one (.inr (by rw [valueQ]; omega))
    have exact := negated_exact accurate canonicalN.operand
    rw [valueN, valueQ] at exact
    exact ⟨next, found, exact⟩

/-- `quoRem:` rounds the quotient down, whatever the signs. -/
theorem quoRem_exact (nonzero : divisor.toInt ≠ 0) (normal : Normal log2 divisor.toInt.natAbs) :
    ∃ data, self.quoRem log2 divisor = some data ∧
      Divided data (self.toInt.fdiv divisor.toInt) (self.toInt.fmod divisor.toInt) := by
  have sign := self.negative_iff
  have positive := divisor.positive_eq
  have divided := abs_divided accurate canonical argument nonzero
  have split := Nat.div_add_mod self.toInt.natAbs divisor.toInt.natAbs
  have rest := Nat.mod_lt self.toInt.natAbs (Int.natAbs_pos.mpr nonzero)
  obtain ⟨q, quotient⟩ : ∃ q, self.toInt.natAbs / divisor.toInt.natAbs = q := ⟨_, rfl⟩
  obtain ⟨r, remainder⟩ : ∃ r, self.toInt.natAbs % divisor.toInt.natAbs = r := ⟨_, rfl⟩
  rw [quotient, remainder] at divided split
  rw [remainder] at rest
  have split : ((divisor.toInt.natAbs : Int) * q + r) = self.toInt.natAbs := by exact_mod_cast split
  have zero : Canonical (.small 0) := by decide
  have one : Canonical (.small 1) := by decide
  rw [LargeInteger.quoRem]
  by_cases negative : self.toInt < 0
  · rw [if_pos (sign.mpr negative)]
    rw [Int.ofNat_natAbs_of_nonpos negative.le] at split
    by_cases above : 0 ≤ divisor.toInt
    · rw [Int.natAbs_of_nonneg above] at split
      rw [positive, if_pos (decide_eq_true above)]
      obtain ⟨s, found, canonicalS, value⟩ := sum_exact accurate argument canonical (.inr above)
      have value : s.toInt = divisor.toInt + self.toInt := value
      have less := less_iff zero canonicalS
      rw [value] at less
      simp only [found, Option.bind_eq_bind, Option.bind_some]
      by_cases short : 0 < divisor.toInt + self.toInt
      · rw [if_pos (less.mpr short)]
        exact ⟨_, rfl, Divided.floor ⟨exact_small (by decide), ⟨s, rfl, canonicalS, value⟩,
          inRange_nil⟩ (by ring) (.inl ⟨by omega, by omega, by omega⟩)⟩
      · rw [if_neg fun holds => short (less.mp holds)]
        obtain ⟨data, found', exact⟩ := divided (by omega) normal
        obtain ⟨nothing, ⟨quo, found₁, canonicalQ, valueQ⟩, next, found₂, quo', found₃, canonicalQ',
          valueQ'⟩ := exact.adjusted accurate
        simp only [found', Option.bind_some]
        by_cases none : r = 0
        · subst none
          rw [if_pos (nothing.mpr rfl), found₁]
          exact ⟨_, rfl, Divided.floor ⟨⟨quo, rfl, canonicalQ, valueQ⟩, exact.rem, exact.digits⟩
            (by push_cast at split ⊢; linear_combination -split) (.inl ⟨by omega, by simp, by omega⟩)⟩
        · obtain ⟨rem, foundR, canonicalR, valueR⟩ := exact.rem
          cases foundR
          obtain ⟨rest', found₄, canonicalR', valueR'⟩ :=
            difference_exact accurate argument canonicalR above
          rw [if_neg fun holds => none (nothing.mp holds), found₂]
          simp only [Option.bind_some, found₃, found₄]
          exact ⟨_, rfl, Divided.floor ⟨⟨quo', rfl, canonicalQ', valueQ'⟩,
            ⟨rest', rfl, canonicalR', valueR'.trans (by rw [valueR])⟩, exact.digits⟩
            (by linear_combination -split) (.inl ⟨by omega, by omega, by omega⟩)⟩
    · rw [positive, if_neg (by simpa using above)]
      rw [Int.ofNat_natAbs_of_nonpos (not_le.mp above).le] at split
      have greater : self.greater divisor = true ↔ divisor.toInt < self.toInt := by
        have less := order_iff canonical argument true
        rw [LargeInteger.greater, Bool.not_eq_true', ← Bool.not_eq_true, LargeInteger.lessEqual,
          less]
        simp only [and_true]
        omega
      by_cases short : divisor.toInt < self.toInt
      · rw [if_pos (greater.mpr short)]
        have kept : Divided ⟨.small 0, .large self, []⟩ 0 self.toInt :=
          ⟨exact_small (by decide), ⟨_, rfl, canonical, rfl⟩, inRange_nil⟩
        exact ⟨_, rfl, kept.floor (by ring) (.inr ⟨by omega, short, negative.le⟩)⟩
      · rw [if_neg fun holds => short (greater.mp holds)]
        obtain ⟨data, found', exact⟩ := divided (by omega) normal
        obtain ⟨nothing, -⟩ := exact.adjusted accurate
        simp only [found', Option.bind_eq_bind, Option.bind_some]
        by_cases none : r = 0
        · subst none
          rw [if_pos (nothing.mpr rfl)]
          exact ⟨_, rfl, exact.floor (by push_cast at split ⊢; linear_combination -split)
            (.inr ⟨by omega, by simp; omega, by simp⟩)⟩
        · obtain ⟨rem, foundR, canonicalR, valueR⟩ := exact.rem
          cases foundR
          obtain ⟨rest', found₄, canonicalR', valueR'⟩ := negated_exact accurate canonicalR.operand
          rw [if_neg fun holds => none (nothing.mp holds), found₄]
          exact ⟨_, rfl, Divided.floor ⟨exact.quo,
            ⟨rest', rfl, canonicalR', valueR'.trans (by rw [valueR])⟩, exact.digits⟩
            (by linear_combination -split) (.inr ⟨by omega, by omega, by omega⟩)⟩
  · rw [if_neg fun holds => negative (sign.mp holds)]
    rw [Int.natAbs_of_nonneg (not_lt.mp negative)] at split
    by_cases above : 0 ≤ divisor.toInt
    · rw [Int.natAbs_of_nonneg above] at split
      rw [positive, if_pos (decide_eq_true above)]
      have less : self.less divisor = true ↔ self.toInt < divisor.toInt := by
        have less := order_iff canonical argument false
        rw [LargeInteger.less, less]
        simp
      by_cases short : self.toInt < divisor.toInt
      · rw [if_pos (less.mpr short)]
        have kept : Divided ⟨.small 0, .large self, []⟩ 0 self.toInt :=
          ⟨exact_small (by decide), ⟨_, rfl, canonical, rfl⟩, inRange_nil⟩
        exact ⟨_, rfl, kept.floor (by ring) (.inl ⟨by omega, by omega, short⟩)⟩
      · rw [if_neg fun holds => short (less.mp holds)]
        obtain ⟨data, found', exact⟩ := divided (by omega) normal
        exact ⟨data, found', exact.floor (by linear_combination split)
          (.inl ⟨by omega, by omega, by omega⟩)⟩
    · rw [positive, if_neg (by simpa using above)]
      rw [Int.ofNat_natAbs_of_nonpos (not_le.mp above).le] at split
      obtain ⟨s, found, canonicalS, value⟩ := sum_exact accurate canonical argument (.inl ⟨_, rfl⟩)
      have value : s.toInt = self.toInt + divisor.toInt := value
      have found : self.plus log2 divisor = some s := found
      have less := less_iff canonicalS zero
      rw [value] at less
      simp only [found, Option.bind_eq_bind, Option.bind_some]
      have some : self.toInt ≠ 0 := fun nothing => canonical.1 (by rw [nothing]; decide)
      by_cases short : self.toInt + divisor.toInt < 0
      · rw [if_pos (less.mpr short)]
        exact ⟨_, rfl, Divided.floor ⟨exact_small (by decide), ⟨s, rfl, canonicalS, value⟩,
          inRange_nil⟩ (by ring) (.inr ⟨by omega, by omega, by omega⟩)⟩
      · rw [if_neg fun holds => short (less.mp holds)]
        obtain ⟨data, found', exact⟩ := divided (by omega) normal
        obtain ⟨nothing, ⟨quo, found₁, canonicalQ, valueQ⟩, next, found₂, quo', found₃, canonicalQ',
          valueQ'⟩ := exact.adjusted accurate
        simp only [found', Option.bind_some]
        by_cases none : r = 0
        · subst none
          rw [if_pos (nothing.mpr rfl), found₁]
          exact ⟨_, rfl, Divided.floor ⟨⟨quo, rfl, canonicalQ, valueQ⟩, exact.rem, exact.digits⟩
            (by push_cast at split ⊢; linear_combination split)
            (.inr ⟨by omega, by simp; omega, by simp⟩)⟩
        · obtain ⟨rem, foundR, canonicalR, valueR⟩ := exact.rem
          cases foundR
          obtain ⟨rest', found₄, canonicalR', valueR'⟩ :=
            sum_exact accurate canonicalR argument (.inr (by rw [valueR]; omega))
          rw [if_neg fun holds => none (nothing.mp holds), found₂]
          simp only [Option.bind_some, found₃, found₄]
          exact ⟨_, rfl, Divided.floor ⟨⟨quo', rfl, canonicalQ', valueQ'⟩,
            ⟨rest', rfl, canonicalR', valueR'.trans (by rw [valueR])⟩, exact.digits⟩
            (by linear_combination split) (.inr ⟨by omega, by omega, by omega⟩)⟩

/-- `quo:` cuts the quotient, whatever the signs. -/
theorem quo_exact (nonzero : divisor.toInt ≠ 0) (normal : Normal log2 divisor.toInt.natAbs) :
    Exact (self.quo log2 divisor) (self.toInt.tdiv divisor.toInt) := by
  obtain ⟨data, found, ⟨quo, foundQ, canonicalQ, valueQ⟩, ⟨rem, foundR, canonicalR, valueR⟩, -⟩ :=
    quoRem_exact accurate canonical argument nonzero normal
  cases foundQ
  cases foundR
  have apart : divisor ≠ .small 0 := by
    rintro rfl
    exact nonzero rfl
  have one : Canonical (.small 1) := by decide
  have next : Exact (data.quo.plus log2 (.small 1)) (self.toInt.fdiv divisor.toInt + 1) := by
    have exact := (sum_exact_iff accurate canonicalQ one).mpr (by
      rintro ⟨a, b, same, same', past, less⟩
      rw [same] at canonicalQ past
      cases same'
      have fits : Fits a := canonicalQ
      refine past ?_
      change Fits (a + 1)
      unfold Fits minimum maximum at *
      omega)
    rwa [valueQ] at exact
  have kept : Exact (some data.quo) (self.toInt.fdiv divisor.toInt) := ⟨_, rfl, canonicalQ, valueQ⟩
  have divides : self.toInt.fmod divisor.toInt = 0 ↔ divisor.toInt ∣ self.toInt :=
    Int.dvd_iff_fmod_eq_zero.symm
  have sign := self.negative_iff
  have nothing := eq_zero_iff canonicalR
  rw [valueR, divides] at nothing
  rw [LargeInteger.quo, if_neg apart, found]
  simp only [Option.bind_eq_bind, Option.bind_some, divisor.negative_eq, data.rem.negative_eq, valueR,
    sign, nothing, decide_eq_true_eq]
  rw [Int.tdiv_eq_fdiv]
  by_cases negative : self.toInt < 0
  · rw [if_pos negative]
    by_cases below : divisor.toInt < 0
    · rw [if_pos below, if_neg (not_le.mpr negative), if_neg (not_le.mpr below),
        Int.sign_eq_neg_one_of_neg below, Int.add_right_neg, ite_self, add_zero]
      exact kept
    · rw [if_neg below, if_neg (not_le.mpr negative), if_pos (not_lt.mp below),
        Int.sign_eq_one_of_pos (by omega)]
      split_ifs with exact
      · rwa [add_zero]
      · exact next
  · rw [if_neg negative, if_pos (not_lt.mp negative)]
    by_cases below : divisor.toInt < 0
    · have most := ((Int.fdiv_fmod_unique' below).mp
        ⟨rfl, @rfl _ (self.toInt.fmod divisor.toInt)⟩).2.2
      rw [if_neg (not_le.mpr below)]
      by_cases exact : divisor.toInt ∣ self.toInt
      · rw [if_neg (by rw [divides.mpr exact]; decide), if_pos exact, add_zero]
        exact kept
      · have some := fun zero => exact (divides.mp zero)
        rw [if_pos (lt_of_le_of_ne most some), if_neg exact]
        exact next
    · have least := Int.fmod_nonneg (not_lt.mp negative) (not_lt.mp below)
      rw [if_neg (not_lt.mpr least), if_pos (not_lt.mp below), ite_self, add_zero]
      exact kept

end Quotients

end Egg.Arithmetic
