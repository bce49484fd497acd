import Egg.Arithmetic.LargeQuotient

/-! Which divisors every large integer is divided by exactly. -/
namespace Egg.Arithmetic

open LargeInteger Number Egg.Data

variable {log2 : Nat → Int}

section Loop

variable {self : LargeInteger} {divisor : Number} {data : QuoRem}

/-- An answer of the division comes from the loop. -/
theorem longQuoRem_some
    (found : computeQuoRem.longQuoRem log2 self divisor = some data) :
    ∃ u v quo rem, self.bitShift log2 (bits - highBit log2 (divisor.highWideDigit log2)) = some u ∧
      divisor.bitShift log2 (bits - highBit log2 (divisor.highWideDigit log2)) = some v ∧
      quotientDigits log2 v ((v.sizeInBytes log2 + digitLength - 1) / digitLength * digitLength /
          digitLength).toNat (v.highWideDigit log2)
        ((u.sizeInBytes log2 - (v.sizeInBytes log2 + digitLength - 1) / digitLength * digitLength +
          digitLength) / digitLength).toNat u
        (new self.negative (u.sizeInBytes log2 -
          (v.sizeInBytes log2 + digitLength - 1) / digitLength * digitLength + digitLength)) =
          some (quo, rem, data.digits) ∧
      quo.reduced log2 = some data.quo := by
  rw [computeQuoRem.longQuoRem] at found
  simp only [Option.bind_eq_bind, Option.bind_eq_some_iff] at found
  obtain ⟨u, foundU, v, foundV, ⟨quo, rem, digits⟩, looped, q, reduced, found⟩ := found
  refine ⟨u, v, quo, rem, foundU, foundV, ?_⟩
  dsimp only at found reduced
  split_ifs at found with zero
  · cases found
    exact ⟨looped, reduced⟩
  · obtain ⟨last, -, found⟩ := Option.bind_eq_some_iff.mp found
    cases last with
    | small last =>
      cases found
      exact ⟨looped, reduced⟩
    | large last =>
      obtain ⟨rem', -, found⟩ := Option.bind_eq_some_iff.mp found
      cases found
      exact ⟨looped, reduced⟩

end Loop

section Lengths

theorem new_nbDigits (k : Nat) : (new false (2 * (k + 1 : Nat))).nbDigits = k + 1 := by
  rw [length_new]
  lia

variable (accurate : Accurate log2) {self : LargeInteger} {divisor v : Number} {data : QuoRem}
  {U s p k : Nat} (canonical : Canonical (.large self)) (value : self.toInt = U)
  (shift : bits - highBit log2 (divisor.highWideDigit log2) = s)
  (shifted : divisor.bitShift log2 s = some v)
  (size : (v.sizeInBytes log2 + digitLength - 1) / digitLength * digitLength = 2 * (p + 1 : Nat))
  (least : base ^ (p + k) ≤ U * 2 ^ s) (most : U * 2 ^ s < base ^ (p + k + 1))
  (found : computeQuoRem.longQuoRem log2 self divisor = some data)

include accurate canonical value shift shifted size least most found

/-- The loop that an answer comes from, where the shifted numbers take so many digits. -/
theorem longQuoRem_parts : ∃ (u : LargeInteger) (quo : LargeInteger) (rem : Number),
    u.toInt = (U * 2 ^ s : Nat) ∧ Canonical (.large u) ∧
      quotientDigits log2 v (p + 1) (v.highWideDigit log2) (k + 1) (.large u)
        (new false (2 * (k + 1 : Nat))) = some (quo, rem, data.digits) ∧
      quo.reduced log2 = some data.quo := by
  obtain ⟨wide, sign⟩ := large_value canonical value
  obtain ⟨u, foundU, canonicalU, valueU⟩ := shifted_dividend accurate canonical value s
  obtain ⟨u', v', quo, rem, foundU', foundV', looped, reduced⟩ := longQuoRem_some found
  rw [shift] at foundU' foundV'
  cases foundU.symm.trans foundU'
  cases shifted.symm.trans foundV'
  have length := large_nbDigits canonicalU (p + k) (by rw [valueU]; exact_mod_cast least)
    (by rw [valueU]; exact_mod_cast most)
  have bytes : (Number.large u).sizeInBytes log2 - 2 * (p + 1 : Nat) + digitLength =
      2 * (k + 1 : Nat) := by
    rw [Number.sizeInBytes, LargeInteger.sizeInBytes, length]
    unfold digitLength
    lia
  rw [size, bytes, show (2 * ((p + 1 : Nat) : Int) / digitLength).toNat = p + 1 by
    unfold digitLength; lia, show (2 * ((k + 1 : Nat) : Int) / digitLength).toNat = k + 1 by
    unfold digitLength; lia, sign] at looped
  exact ⟨u, quo, rem, valueU, canonicalU, looped, reduced⟩

/-- Where the quotient takes one digit it is the first estimate, or the one below. -/
theorem longQuoRem_one (single : k = 0) : ∃ (u : LargeInteger) (qhat : Nat) (t : Number),
    u.toInt = (U * 2 ^ s : Nat) ∧ Canonical (.large u) ∧
      estimate (.large u) v (p + 1) (p + 2) (v.highWideDigit log2) = some qhat ∧
      takeAway log2 (.large u) v qhat 0 = some t ∧
      ∀ digit : Int, digit = (if t.negative then (qhat : Int) - 1 else qhat) → 0 ≤ digit →
        digit < base → Exact (some data.quo) digit := by
  obtain ⟨u, quo, rem, valueU, canonicalU, looped, reduced⟩ :=
    longQuoRem_parts accurate canonical value shift shifted size least most found
  subst single
  obtain ⟨qhat, t, estimated, taken, stored⟩ := quotientDigits_one looped
  rw [show 1 + (p + 1) = p + 2 by lia] at estimated
  refine ⟨u, qhat, t, valueU, canonicalU, estimated, taken, fun digit same least below => ?_⟩
  have room := new_nbDigits 0
  obtain ⟨quo', stored', sign, count, value', -⟩ := @digitAtPut_eq _ 0 digit room.ge
    ⟨least, below⟩ (by
      rw [new_toInt]
      exact dvd_zero _)
  rw [← same] at stored
  cases stored.symm.trans stored'
  obtain ⟨q, reduced', canonicalQ, valueQ⟩ := @reduced_exact quo log2 accurate (by lia)
    fun negative => by
      rw [sign] at negative
      exact Bool.noConfusion negative
  cases reduced.symm.trans reduced'
  refine ⟨_, rfl, canonicalQ, ?_⟩
  rw [valueQ, value', new_toInt, pow_zero]
  lia

variable (range : InRange data.digits)

include range

theorem longQuoRem_loop : ∃ (u : LargeInteger) (quo : LargeInteger) (rem : Number),
    u.toInt = (U * 2 ^ s : Nat) ∧
      quotientDigits log2 v (p + 1) (v.highWideDigit log2) (k + 1) (.large u)
        (new false (2 * (k + 1 : Nat))) = some (quo, rem, data.digits) ∧
      data.quo.toInt = quo.toInt ∧ quo.negative = false ∧ quo.nbDigits = k + 1 := by
  obtain ⟨u, quo, rem, valueU, -, looped, reduced⟩ :=
    longQuoRem_parts accurate canonical value shift shifted size least most found
  have room := new_nbDigits k
  obtain ⟨sign', count, -⟩ := quotientDigits_grows looped range room.ge (by
    rw [new_toInt]
    exact dvd_zero _)
  obtain ⟨q, reduced', -, valueQ⟩ := @reduced_exact quo log2 accurate (by lia)
    fun negative => by
      rw [sign'] at negative
      exact Bool.noConfusion negative
  cases reduced.symm.trans reduced'
  exact ⟨u, quo, rem, valueU, looped, valueQ, sign', count.trans room⟩

/-- The quotient takes no more digits than the loop stores. -/
theorem longQuoRem_lt : data.quo.toInt < (base : Int) ^ (k + 1) := by
  obtain ⟨u, quo, rem, -, -, same, sign, count⟩ :=
    longQuoRem_loop accurate canonical value shift shifted size least most found range
  have within := quo.within_toInt
  rw [Within, if_neg (by simp [sign]), count] at within
  rw [same]
  exact within.2

/-- The highest digit of the quotient is the first estimate or the one below. -/
theorem longQuoRem_ge : ∃ (u : LargeInteger) (qhat : Nat), u.toInt = (U * 2 ^ s : Nat) ∧
    estimate (.large u) v (p + 1) (k + 1 + (p + 1)) (v.highWideDigit log2) = some qhat ∧
      ((qhat : Int) - 1) * base ^ k ≤ data.quo.toInt := by
  obtain ⟨u, quo, rem, valueU, looped, same, -, -⟩ :=
    longQuoRem_loop accurate canonical value shift shifted size least most found range
  have room := new_nbDigits k
  obtain ⟨qhat, digit, quo₁, estimated, near, nonneg, sign, count, value₁, free, next⟩ :=
    quotientDigits_step looped range (by lia) (by
      rw [new_toInt]
      exact dvd_zero _)
  rw [new_toInt, zero_add] at value₁
  have least : ((qhat : Int) - 1) * base ^ k ≤ quo₁.toInt := by
    rw [value₁]
    exact mul_le_mul_of_nonneg_right near (base_pow_pos k).le
  refine ⟨u, qhat, valueU, estimated, ?_⟩
  rw [same]
  rcases next with rfl | ⟨u₁, more, deeper, range'⟩
  · exact least
  · exact least.trans (quotientDigits_grows deeper range' (by lia) free).2.2

end Lengths

section Misplaced

theorem size_large (integer : LargeInteger) {count : Nat} (length : integer.nbDigits = count) :
    ((Number.large integer).sizeInBytes log2 + digitLength - 1) / digitLength * digitLength =
      2 * (count : Nat) := by
  rw [Number.sizeInBytes, LargeInteger.sizeInBytes, length]
  unfold digitLength
  lia

/-- What the loop is given for a divisor whose logarithms are rounded up: nothing, one digit too
many, or a divisor without its lowest byte. -/
def Misplaced (log2 : Nat → Int) (D s : Nat) : Prop :=
  Number.bitShift log2 (.small D) s = none ∨
  (∃ v p, Number.bitShift log2 (.small D) s = some v ∧
    (v.sizeInBytes log2 + digitLength - 1) / digitLength * digitLength = 2 * (p + 1 : Nat) ∧
    base ^ (p + 2) ≤ D * base ^ 3 * 2 ^ s ∧ D * base ^ 3 * 2 ^ s < base ^ (p + 2 + 1)) ∨
  (∃ (v : LargeInteger) (W : Nat), Number.bitShift log2 (.small D) s = some (.large v) ∧
    v.nbDigits = 4 ∧ v.toInt = W ∧ D * 2 ^ s = 256 * W ∧ 2 ^ 55 ≤ W ∧ W < 2 ^ 56)

variable (accurate : Accurate log2) {D : Nat} (wrong : ¬ Normal log2 D)

include accurate wrong

theorem misplaced_three (least : 2 ^ 32 ≤ D) (most : D < 2 ^ 48) :
    ∃ s : Nat, bits - highBit log2 ((Number.small D).highWideDigit log2) = s ∧
      Misplaced log2 D s := by
  have positive : 0 < D := by lia
  have fits : Fits D := by
    unfold Fits minimum maximum
    lia
  have logs : Nat.log2 D < 48 := (Nat.log2_lt positive.ne').mpr most
  have logs' : 32 ≤ Nat.log2 D := by
    by_contra less
    have bound := (Nat.log2_lt positive.ne').mp (show Nat.log2 D < 32 by lia)
    lia
  have rounded : log2 (D * 2 ^ places D : Nat) ≠ 47 := fun exact =>
    wrong ⟨fun _ _ => exact, fun past => absurd most (not_lt.mpr past)⟩
  obtain ⟨half, below⟩ := shifted_bounds positive
  obtain ⟨right, other⟩ := small_shift accurate fits positive
  have digits : Nat.log2 D / 16 = 2 := by lia
  rw [digits] at half below right other
  rw [show base ^ (2 + 1) = 2 ^ 48 from rfl] at half below
  by_cases same : log2 D / 16 = (2 : Nat)
  · refine ⟨places D, right same, .inr (.inl ?_)⟩
    have cast : (D : Int) * 2 ^ places D = (D * 2 ^ places D : Nat) := by
      push_cast
      rfl
    have log := log2_shifted positive
    have bounded := accurate.bounded (D * 2 ^ places D) (by lia) (by lia)
    have size := @small_digits log2 accurate (D * 2 ^ places D)
      (by unfold Fits minimum maximum; lia) (by lia) 3 (by lia)
    obtain ⟨v, found, canonical, value⟩ := Number.bitShift_small_exact (n := places D) accurate fits
      (Int.natCast_nonneg D) (.inl (by rw [cast]; unfold Fits minimum maximum; lia))
    rw [cast] at value
    have fits' : Canonical (.small (D * 2 ^ places D : Nat)) := by
      change Fits _
      unfold Fits minimum maximum
      lia
    cases canonical.ext fits' value
    refine ⟨_, 3, found, size.1, ?_⟩
    rw [Nat.mul_right_comm, show base ^ (3 + 2) = 2 ^ 80 from rfl,
      show base ^ (3 + 2 + 1) = 2 ^ 96 from rfl, show base ^ 3 = 2 ^ 48 from rfl]
    lia
  · obtain ⟨-, top, log, shift⟩ := other same
    refine ⟨16, shift, .inr (.inl ?_)⟩
    have high : 2 ^ 47 ≤ D := by
      have own := (@Nat.log2_eq_iff D _ positive.ne').mp rfl
      rw [show Nat.log2 D = 47 by lia] at own
      exact own.1
    obtain ⟨v, found, -, length, -⟩ :=
      shiftedLeft_whole (n := 16) accurate fits (by exact_mod_cast positive) (by decide)
    rw [primitiveSMISize, if_neg (by lia), Int.toNat_natCast, log] at length
    refine ⟨.large v, 4, ?_, size_large v (by lia), ?_⟩
    · rw [bitShift_past (by exact_mod_cast positive) (by decide) (by
        unfold Fits maximum
        lia), found]
      rfl
    · rw [show base ^ (4 + 2) = 2 ^ 96 from rfl, show base ^ (4 + 2 + 1) = 2 ^ 112 from rfl,
        show base ^ 3 = 2 ^ 48 from rfl]
      lia

theorem misplaced_four (least : 2 ^ 48 ≤ D) (most : D < 2 ^ 62) :
    ∃ s : Nat, bits - highBit log2 ((Number.small D).highWideDigit log2) = s ∧
      Misplaced log2 D s := by
  have positive : 0 < D := by lia
  have positive' : (0 : Int) < D := by lia
  have fits : Fits D := by
    unfold Fits minimum maximum
    lia
  have logs : Nat.log2 D < 62 := (Nat.log2_lt positive.ne').mpr most
  have logs' : 48 ≤ Nat.log2 D := by
    by_contra less
    have bound := (Nat.log2_lt positive.ne').mp (show Nat.log2 D < 48 by lia)
    lia
  have bounded := accurate.bounded D positive most
  have rounded : ¬ Sized log2 D (places D) := fun sized =>
    wrong ⟨fun _ past => absurd least (not_le.mpr past), fun _ _ => sized⟩
  obtain ⟨half, below⟩ := shifted_bounds positive
  obtain ⟨right, -⟩ := small_shift accurate fits positive
  rw [show Nat.log2 D / 16 = 3 by lia] at half below right
  obtain ⟨s, place⟩ : ∃ s, places D = s := ⟨_, rfl⟩
  have total : s + Nat.log2 D = 63 := by
    rw [← place]
    unfold places
    lia
  rw [place] at half below right rounded
  rw [show base ^ (3 + 1) = 2 ^ 64 from rfl] at half below
  have past := @bitShift_past log2 D s positive' (by lia) (by
    have cast : (D : Int) * 2 ^ s = (D * 2 ^ s : Nat) := by
      push_cast
      rfl
    rw [cast]
    unfold Fits maximum
    lia)
  refine ⟨s, right (by lia), ?_⟩
  rw [Misplaced, past]
  -- one digit too many, where the size of the divisor is a byte too large
  have longer {v : LargeInteger} (found : shiftedLeft log2 D s = some v) (length : v.nbDigits = 5) :
      ∃ (v : Number) (p : Nat), (shiftedLeft log2 D s).map Number.large = some v ∧
        (v.sizeInBytes log2 + digitLength - 1) / digitLength * digitLength = 2 * (p + 1 : Nat) ∧
        base ^ (p + 2) ≤ D * base ^ 3 * 2 ^ s ∧ D * base ^ 3 * 2 ^ s < base ^ (p + 2 + 1) := by
    refine ⟨.large v, 4, by rw [found]; rfl, size_large v (by lia), ?_⟩
    rw [Nat.mul_right_comm, show base ^ (4 + 2) = 2 ^ 96 from rfl,
      show base ^ (4 + 2 + 1) = 2 ^ 112 from rfl, show base ^ 3 = 2 ^ 48 from rfl]
    lia
  by_cases whole : s % 8 = 0
  · have log : log2 D = Nat.log2 D + 1 := by
      by_contra exact
      exact rounded ⟨by rw [Int.toNat_natCast]; lia, fun part => absurd whole part⟩
    obtain ⟨v, found, -, length, -⟩ := shiftedLeft_whole accurate fits positive' whole
    rw [primitiveSMISize, if_neg (by lia), Int.toNat_natCast, log] at length
    exact .inr (.inl (longer found (by lia)))
  · obtain ⟨hi, high⟩ : ∃ hi, D / 2 ^ (8 - s % 8) = hi := ⟨_, rfl⟩
    have cast : (D : Int) / 2 ^ (8 - s % 8) = hi := by
      rw [← high]
      push_cast
      rfl
    have some : 0 < hi := by
      rw [← high]
      refine Nat.div_pos (le_trans ?_ least) (by positivity)
      exact Nat.pow_le_pow_right (by decide) (by lia)
    have logHi : Nat.log2 hi + (8 - s % 8) = Nat.log2 D := by
      rw [← high] at some ⊢
      exact log2_div some
    have less : hi ≤ D := high ▸ Nat.div_le_self _ _
    have boundedHi := accurate.bounded hi some (less.trans_lt most)
    have size : primitiveSMISize log2 hi = log2 hi / 8 + 1 := by
      rw [primitiveSMISize, if_neg (by lia), Int.toNat_natCast]
    obtain ⟨missing, parts⟩ := shiftedLeft_parts (n := s) accurate fits positive'
      whole (by rw [cast]; exact_mod_cast some) rfl
    rw [cast, size, Int.toNat_natCast] at missing parts
    by_cases log : log2 D = Nat.log2 D
    · have logHi' : log2 hi = Nat.log2 hi + 1 := by
        by_contra exact
        refine rounded ⟨by rw [Int.toNat_natCast]; exact log, fun _ _ => ?_⟩
        rw [cast, Int.toNat_natCast]
        lia
      by_cases low : s < 8
      · refine .inl ?_
        rw [missing (by lia)]
        rfl
      · have shift : ((s : Int) + log2 D + 8) / 8 - (log2 hi / 8 + 1) = 1 := by
          clear missing parts
          lia
        obtain ⟨v, found, -, length, value⟩ := parts shift.ge
        rw [shift, show (1 : Int).toNat = 1 from rfl, pow_one, Nat.sub_self, pow_zero,
          mul_one] at value
        have power : 2 ^ (8 - s % 8) * 2 ^ (s % 8) = 256 := by
          rw [← pow_add, Nat.sub_add_cancel (by lia)]
          rfl
        have power' : 2 ^ s = 256 * 2 ^ (s % 8) := by
          rw [show 256 = 2 ^ 8 from rfl, ← pow_add]
          congr 1
          lia
        have halves : hi = D * 2 ^ (s % 8) / 256 := by
          rw [← high, ← power, Nat.mul_div_mul_right _ _ (by positivity)]
        have whole' : D * 2 ^ s = 256 * (D * 2 ^ (s % 8)) := by
          rw [power']
          ring
        refine .inr (.inr ⟨v, D * 2 ^ (s % 8), by rw [found]; rfl, by lia, ?_, whole', by lia,
          by lia⟩)
        have low : (D : Int) * 2 ^ (s % 8) % 256 = (D * 2 ^ (s % 8) % 256 : Nat) := by
          push_cast
          rfl
        rw [value, low]
        lia
    · obtain ⟨v, found, -, length, -⟩ := parts (by lia)
      exact .inr (.inl (longer found (by lia)))

end Misplaced

/-- Without its lowest byte the divisor is taken away 256 times too often. -/
theorem estimate_wide {u v : Number} {W : Nat} (least : 2 ^ 55 ≤ W) (most : W < 2 ^ 56)
    (dividend : u.toInt = (256 * W * base ^ 3 : Nat)) (divisor : v.toInt = W) :
    ∃ qhat, estimate u v 4 8 (W / base ^ 3) = some qhat ∧ 256 ≤ qhat := by
  have two : base ^ 2 = 2 ^ 32 := rfl
  have three : base ^ 3 = 2 ^ 48 := rfl
  have a0 : u.wideDigitAt 8 = 0 := by
    rw [wideDigitAt_nat dividend 7, show base ^ 7 = 2 ^ 112 from rfl, three,
      show base = 65536 from rfl]
    lia
  have a1 : u.wideDigitAt 7 = 256 * W / base ^ 3 := by
    rw [wideDigitAt_nat dividend 6, show base ^ 6 = 2 ^ 96 from rfl, three,
      show base = 65536 from rfl]
    omega
  have a2 : u.wideDigitAt 6 = 256 * W / base ^ 2 % base := by
    rw [wideDigitAt_nat dividend 5, show base ^ 5 = 2 ^ 80 from rfl, three, two,
      show base = 65536 from rfl]
    omega
  have v2 : v.wideDigitAt 3 = W / base ^ 2 % base := wideDigitAt_nat divisor 2
  obtain ⟨b, leading⟩ : ∃ b, W / base ^ 3 = b := ⟨_, rfl⟩
  obtain ⟨d, digit⟩ : ∃ d, 256 * W / base ^ 3 = d := ⟨_, rfl⟩
  have range : 128 ≤ b ∧ b < 256 := by
    rw [three] at leading
    lia
  have small : d < base := by
    rw [three] at digit
    rw [show base = 65536 from rfl]
    lia
  have divided := @leadingQuoRem_eq 0 d b (by decide) small (by lia) (by
    rw [show base = 65536 from rfl]
    lia)
  rw [Nat.zero_mul, Nat.zero_add] at divided
  have cut (X : Nat) : X / base ^ 3 * base + X / base ^ 2 % base = X / base ^ 2 := by
    rw [pow_succ, ← Nat.div_div_eq_div_mul, Nat.mul_comm, Nat.div_add_mod]
  have joined := cut (256 * W)
  have joined' := cut W
  rw [digit] at joined
  rw [leading] at joined'
  have positive : 0 < W / base ^ 2 := by
    rw [two]
    lia
  have enough := @LongDivision.le_estimate (256 * W / base ^ 2) (W / base ^ 2) base (by
    rw [Nat.div_div_eq_div_mul, ← pow_succ, leading]
    lia)
  rw [Nat.div_div_eq_div_mul (256 * W) _ base, ← pow_succ, Nat.div_div_eq_div_mul W _ base,
    ← pow_succ, leading, digit] at enough
  have lower := @lowered_eq (W / base ^ 2 % base) (256 * W / base ^ 2 % base) b
    (Nat.mod_lt _ (by decide)) (Nat.mod_lt _ (by decide)) (by lia) (d / b) (d % b)
    ((Nat.div_le_self d b).trans_lt small)
  rw [Nat.div_add_mod', joined, joined'] at lower
  refine ⟨256 * W / base ^ 2 / (W / base ^ 2), ?_, ?_⟩
  · rw [estimate]
    simp only [a0, a1, a2, v2, leading, digit, divided, Option.bind_eq_bind, Option.bind_some,
      Int.toNat_natCast]
    rw [if_neg (by lia), lower enough]
  · rw [Nat.le_div_iff_mul_le positive, Nat.le_div_iff_mul_le (by decide), Nat.mul_assoc]
    exact Nat.mul_le_mul_left _ (Nat.div_mul_le_self W _)

section Wrong

variable (accurate : Accurate log2) {D : Nat} (wrong : ¬ Normal log2 D) (least : 2 ^ 32 ≤ D)
  (most : D < 2 ^ 62)

include accurate wrong least most

theorem misplaced : ∃ s : Nat, bits - highBit log2 ((Number.small D).highWideDigit log2) = s ∧
    Misplaced log2 D s := by
  rcases Nat.lt_or_ge D (2 ^ 48) with three | four
  · exact misplaced_three accurate wrong least three
  · exact misplaced_four accurate wrong four most

/-- The multiple of the divisor by three digits is not divided right. -/
theorem wrong_quotient {self : LargeInteger} {data : QuoRem} (canonical : Canonical (.large self))
    (value : self.toInt = (D * base ^ 3 : Nat))
    (found : computeQuoRem.longQuoRem log2 self (.small D) = some data)
    (range : InRange data.digits) : data.quo.toInt ≠ base ^ 3 := by
  obtain ⟨s, shift, none | ⟨v, p, shifted, size, low, high⟩ |
    ⟨v, W, shifted, length, valueV, whole, above, below⟩⟩ := misplaced accurate wrong least most
  · obtain ⟨-, v, -, -, -, shifted, -⟩ := longQuoRem_some found
    rw [shift, none] at shifted
    cases shifted
  · exact (longQuoRem_lt accurate canonical value shift shifted size low high found range).ne
  · have product : D * base ^ 3 * 2 ^ s = 256 * W * base ^ 3 := by
      rw [Nat.mul_right_comm, whole]
    obtain ⟨u, qhat, dividend, estimated, least'⟩ :=
      longQuoRem_ge accurate canonical value shift shifted (p := 3) (k := 3)
        (by rw [size_large v length]) (by
          rw [product, show base ^ (3 + 3) = 2 ^ 96 from rfl, show base ^ 3 = 2 ^ 48 from rfl]
          lia) (by
          rw [product, show base ^ (3 + 3 + 1) = 2 ^ 112 from rfl, show base ^ 3 = 2 ^ 48 from rfl]
          lia) found range
    rw [product] at dividend
    have top : (Number.large v).highWideDigit log2 = W / base ^ 3 := by
      have digit := wideDigitAt_nat (u := .large v) valueV 3
      rw [Number.highWideDigit, LargeInteger.highWideDigit, length]
      refine digit.trans (Nat.mod_eq_of_lt ?_)
      rw [show base ^ 3 = 2 ^ 48 from rfl, show base = 65536 from rfl]
      lia
    rw [top] at estimated
    obtain ⟨qhat', estimated', many⟩ :=
      @estimate_wide (.large u) (.large v) W above below dividend valueV
    cases estimated.symm.trans estimated'
    have power := base_pow_pos 3
    have more : (255 : Int) * base ^ 3 ≤ ((qhat : Int) - 1) * base ^ 3 :=
      mul_le_mul_of_nonneg_right (by lia) power.le
    lia

end Wrong

/-- The division of a large integer by a small one of more than a digit. -/
theorem quoRem_long (accurate : Accurate log2) {D : Nat} (least : 2 ^ 32 ≤ D) (most : D < 2 ^ 62)
    {self : LargeInteger} (canonical : Canonical (.large self)) (wide : (D : Int) ≤ self.toInt) :
    self.quoRem log2 (.small D) = computeQuoRem.longQuoRem log2 self (.small D) := by
  have fits : Canonical (.small (D : Int)) := by
    change Fits _
    unfold Fits minimum maximum
    lia
  have positive : (Number.small D).positive = true := by
    rw [positive_eq]
    exact decide_eq_true (Int.natCast_nonneg D)
  have less : ¬ self.less (.small D) = true := by
    rw [LargeInteger.less, order_iff canonical fits]
    simp only [Bool.false_eq_true, and_false, or_false, not_lt]
    exact wide
  obtain ⟨U, value⟩ := Int.eq_ofNat_of_zero_le (show 0 ≤ self.toInt by lia)
  have sign := (large_value canonical value).2
  have own : (Number.large self).abs log2 = some (.large self) := by
    rw [Number.abs, Number.negative, sign]
    rfl
  have other : (Number.small D).abs log2 = some (.small D) := by
    rw [Number.abs, Number.negative, decide_eq_false (by lia)]
    rfl
  have long : ¬ (self.sizeInBytes : Int) < (Number.small D).sizeInBytes log2 := by
    have size := canonical.operand.1
    have most := primitiveSMISize_le accurate fits (show (D : Int) ≠ 0 by lia)
    rw [Number.sizeInBytes]
    unfold LargeInteger.sizeInBytes digitLength
    lia
  have digit : ¬ (D : Int) < base := by
    rw [cast_base]
    lia
  rw [LargeInteger.quoRem, sign, if_neg (by decide), if_pos positive, if_neg less, quoRem.abs]
  simp only [own, other, Option.bind_eq_bind, Option.bind_some]
  rw [computeQuoRem.eq_def, if_neg long]
  dsimp only
  rw [if_neg digit]

/-- No answer for the multiple is right. -/
theorem wrong_quoRem (accurate : Accurate log2) {D : Nat} (wrong : ¬ Normal log2 D)
    (least : 2 ^ 32 ≤ D) (most : D < 2 ^ 62) : ∃ self : LargeInteger, Canonical (.large self) ∧ 0 < self.toInt ∧
    ∀ data, self.quoRem log2 (.small D) = some data → InRange data.digits →
      ¬ (self.toInt = data.quo.toInt * D + data.rem.toInt ∧ 0 ≤ data.rem.toInt ∧
        data.rem.toInt < D) := by
  have fits : Canonical (.small (D : Int)) := by
    change Fits _
    unfold Fits minimum maximum
    lia
  have power : Canonical (.small (2 ^ 48)) := by decide
  have cube : base ^ 3 = 2 ^ 48 := rfl
  obtain ⟨product, -, canonical, value⟩ := (product_exact_iff accurate power fits).mpr (by
    rintro ⟨a, b, same, -, -, less⟩
    cases same
    exact absurd less (by decide))
  have value : product.toInt = (D * base ^ 3 : Nat) := by
    rw [value, cube]
    push_cast
    exact Int.mul_comm _ _
  cases product with
  | small product =>
    have value : product = (D * base ^ 3 : Nat) := value
    have fits : Fits product := canonical
    rw [cube] at value
    unfold Fits maximum at fits
    lia
  | large self =>
    have value : self.toInt = (D * base ^ 3 : Nat) := value
    have wide : (D : Int) ≤ self.toInt := by
      rw [value, cube]
      lia
    refine ⟨self, canonical, by lia, fun data found range right => ?_⟩
    rw [quoRem_long accurate least most canonical wide] at found
    have quotient := wrong_quotient accurate wrong least most canonical value found range
    refine quotient ?_
    have unique : self.toInt / D = data.quo.toInt ∧ self.toInt % D = data.rem.toInt :=
      (Int.ediv_emod_unique (by lia)).mpr ⟨by rw [right.1]; ring, right.2.1, right.2.2⟩
    rw [← unique.1, value]
    push_cast
    exact Int.mul_ediv_cancel_left _ (by lia)

/-- Every large integer is divided right by a number, with all digits of the quotient in their
range, if and only if no logarithm is rounded up in the normalisation of the divisor. -/
theorem quoRem_right_iff (accurate : Accurate log2) {divisor : Number} (argument : Canonical divisor)
    (positive : 0 < divisor.toInt) :
    (∀ self : LargeInteger, Canonical (.large self) → 0 < self.toInt →
      (∃ data, self.quoRem log2 divisor = some data ∧ Canonical data.quo ∧ Canonical data.rem ∧
        self.toInt = data.quo.toInt * divisor.toInt + data.rem.toInt ∧ 0 ≤ data.rem.toInt ∧
        data.rem.toInt < divisor.toInt ∧ InRange data.digits) ∧
      ∀ (receiver : LargeInteger) (other : Number), Canonical (.large receiver) → Canonical other →
        |receiver.toInt| = self.toInt → |other.toInt| = divisor.toInt →
          Exact (receiver.quo log2 other) (receiver.toInt.tdiv other.toInt)) ↔
      Normal log2 divisor.toInt.toNat := by
  constructor
  · intro right
    by_contra wrong
    have least : 2 ^ 32 ≤ divisor.toInt.toNat := by
      by_contra small
      exact wrong ⟨fun past => absurd past small, fun past => absurd past (by lia)⟩
    have most : divisor.toInt.toNat < 2 ^ 62 := by
      by_contra large
      exact wrong ⟨fun _ past => absurd past (by lia), fun _ past => absurd past large⟩
    cases divisor with
    | large integer =>
      have past := argument.1
      have same : (Number.large integer).toInt = integer.toInt := rfl
      unfold Fits minimum maximum at past
      lia
    | small value =>
      obtain ⟨D, rfl⟩ := Int.eq_ofNat_of_zero_le positive.le
      obtain ⟨self, canonical, positive', none⟩ := wrong_quoRem accurate wrong least most
      obtain ⟨⟨data, found, -, -, split, above, below, range⟩, -⟩ := right self canonical positive'
      exact none data found range ⟨split, above, below⟩
  · intro normal self canonical positive'
    have natAbs {other : Number} (same : |other.toInt| = divisor.toInt) :
        other.toInt ≠ 0 ∧ other.toInt.natAbs = divisor.toInt.toNat := by
      rw [Int.abs_eq_natAbs] at same
      lia
    refine ⟨?_, fun receiver other large argument' _ same => ?_⟩
    · obtain ⟨nonzero, same⟩ := natAbs (abs_of_pos positive)
      obtain ⟨data, found, ⟨quo, foundQ, canonicalQ, valueQ⟩, ⟨rem, foundR, canonicalR, valueR⟩,
        range⟩ := quoRem_exact accurate canonical argument nonzero (same ▸ normal)
      cases foundQ
      cases foundR
      refine ⟨data, found, canonicalQ, canonicalR, ?_, ?_, ?_, range⟩
      · rw [valueQ, valueR, Int.mul_comm]
        exact (Int.mul_fdiv_add_fmod ..).symm
      · rw [valueR]
        exact Int.fmod_nonneg_of_pos _ positive
      · rw [valueR]
        exact Int.fmod_lt_of_pos _ positive
    · obtain ⟨nonzero, same⟩ := natAbs same
      exact quo_exact accurate large argument' nonzero (same ▸ normal)

theorem quoRem_right_iff_hundred :
    Normal (fun n => Nat.log2 n) 100 ∧
      Exact (LargeInteger.quo (fun n => Nat.log2 n) ⟨true, [0, 0, 0, 0, 0xFFC0]⟩ (.small (-100)))
        (2 ^ 70 / 100) := by
  have normal : Normal (fun n => Nat.log2 n) 100 :=
    ⟨fun past => absurd past (by decide), fun past => absurd past (by decide)⟩
  have right := (@quoRem_right_iff _ accurate_log2 (.small 100) (by decide) (by decide)).mpr normal
    ⟨false, [0, 0, 0, 0, 64]⟩ (by decide) (by decide)
  exact ⟨normal, right.2 ⟨true, [0, 0, 0, 0, 0xFFC0]⟩ (.small (-100)) (by decide) (by decide)
    (by decide) (by decide)⟩

/-- The logarithm of a double, which is rounded up where the double is. -/
def log2OfDouble (n : Nat) : Int :=
  if n = 2 ^ 56 - 1 then 56 else Nat.log2 n

theorem accurate_log2OfDouble : Accurate log2OfDouble := by
  have log : Nat.log2 (2 ^ 56 - 1) = 55 := by decide
  refine ⟨fun n positive small => ?_, fun n positive small => ?_⟩
  · rw [log2OfDouble, if_neg (by lia)]
  · rw [log2OfDouble]
    split_ifs with same
    · rw [same, log]
      decide
    · exact ⟨Int.le_refl _, by lia⟩

/-- The remainder of `2^70` by `2^56 - 1` is negative. -/
theorem quoRem_leaves_negative : ¬ ∀ log2, Accurate log2 → ∀ (self : LargeInteger)
    (divisor : Number), Canonical (.large self) → Canonical divisor → 0 < self.toInt →
      0 < divisor.toInt → ∃ data, self.quoRem log2 divisor = some data ∧
        self.toInt = data.quo.toInt * divisor.toInt + data.rem.toInt ∧ 0 ≤ data.rem.toInt ∧
          data.rem.toInt < divisor.toInt := by
  intro always
  obtain ⟨data, found, -, nonneg, -⟩ := always log2OfDouble accurate_log2OfDouble
    ⟨false, [0, 0, 0, 0, 64]⟩ (.small (2 ^ 56 - 1)) (by decide) (by decide) (by decide) (by decide)
  have answer : (LargeInteger.quoRem log2OfDouble ⟨false, [0, 0, 0, 0, 64]⟩
      (.small (2 ^ 56 - 1))).map (fun data => decide (data.rem.toInt < 0)) = some true := by
    decide +kernel
  rw [found] at answer
  simp only [Option.map_some, Option.some.injEq, decide_eq_true_eq] at answer
  lia

end Egg.Arithmetic
