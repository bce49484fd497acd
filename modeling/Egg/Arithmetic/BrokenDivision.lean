import Egg.Arithmetic.QuotientExactness

/-! What a division by a small integer close below `2^62` answers where its logarithms are rounded
up. -/
namespace Egg.Arithmetic

open LargeInteger Number

variable {log2 : Nat → Int} (accurate : Accurate log2) {D : Nat}

section Shift

variable (least : 2 ^ 62 - 2 ^ 16 < D) (most : D < 2 ^ 62) (wrong : ¬ Normal log2 D)

include accurate least most wrong

/-- The divisor is lost, is shifted a byte too far, or is led by a zero. -/
theorem broken_shift : bits - highBit log2 ((Number.small D).highWideDigit log2) = (2 : Nat) ∧
    (Number.bitShift log2 (.small D) (2 : Nat) = none ∨ ∃ v : LargeInteger,
      Number.bitShift log2 (.small D) (2 : Nat) = some (.large v) ∧ v.negative = false ∧
        v.nbDigits = 5 ∧ (v.toInt = (1024 * D : Nat) ∨ v.toInt = (4 * D : Nat))) := by
  have positive : 0 < D := by lia
  have positive' : (0 : Int) < D := by lia
  have fits : Fits D := by
    unfold Fits minimum maximum
    lia
  have log (number count : Nat) (low : 2 ^ count ≤ number) (high : number < 2 ^ (count + 1))
      (short : count < 62) : Nat.log2 number = count ∧ (count : Int) ≤ log2 number ∧
        log2 number ≤ count + 1 := by
    have some : 0 < number := (Nat.pow_pos (by decide)).trans_le low
    have own := (Nat.log2_eq_iff some.ne').mpr ⟨low, high⟩
    have bounded := accurate.bounded number some
      (high.trans_le (Nat.pow_le_pow_right (by decide) short))
    lia
  obtain ⟨own, bounds⟩ := log D 61 (by lia) most (by decide)
  have place : places D = 2 := by
    unfold places
    lia
  obtain ⟨right, -⟩ := small_shift accurate fits positive
  rw [place] at right
  refine ⟨right (by lia), ?_⟩
  have rounded : ¬ Sized log2 D (places D) := fun sized =>
    wrong ⟨fun _ past => by lia, fun _ _ => sized⟩
  rw [place] at rounded
  obtain ⟨hi, high⟩ : ∃ hi, D / 2 ^ 6 = hi := ⟨_, rfl⟩
  have cast : (D : Int) / 2 ^ (8 - 2 % 8) = hi := by
    rw [← high]
    push_cast
    rfl
  obtain ⟨-, boundsHi⟩ := log hi 55 (by lia) (by lia) (by decide)
  have size : primitiveSMISize log2 hi = log2 hi / 8 + 1 := by
    rw [primitiveSMISize, if_neg (by lia), Int.toNat_natCast]
  obtain ⟨missing, parts⟩ := shiftedLeft_parts (n := 2) accurate fits positive' (by decide)
    (by rw [cast]; lia) rfl
  rw [cast, size, Int.toNat_natCast] at missing parts
  have past := @bitShift_past log2 D 2 positive' (by decide) (by unfold Fits maximum; lia)
  rw [past]
  by_cases exact : log2 D = 61
  · have exactHi : log2 hi = 56 := by
      by_contra other
      refine rounded ⟨by rw [Int.toNat_natCast, own, exact]; rfl, fun _ _ => ?_⟩
      rw [cast, Int.toNat_natCast, (log hi 55 (by lia) (by lia) (by decide)).1]
      lia
    rw [missing (by lia)]
    exact .inl rfl
  · have log : log2 D = 62 := by lia
    rw [log] at parts
    obtain ⟨v, found, sign, length, value⟩ := parts (by lia)
    refine .inr ⟨v, by rw [found]; rfl, sign, by lia, ?_⟩
    have low : (D : Int) * 2 ^ (2 % 8) % 256 = (D * 4 % 256 : Nat) := by
      push_cast
      rfl
    rw [low] at value
    rcases boundsHi.1.eq_or_lt with exactHi | roundedHi
    · rw [← exactHi] at value
      change v.toInt = (hi : Int) * 256 ^ 2 + (D * 4 % 256 : Nat) * 256 ^ 1 at value
      lia
    · have roundedHi : log2 hi = 56 := by lia
      rw [roundedHi] at value
      change v.toInt = (hi : Int) * 256 ^ 1 + (D * 4 % 256 : Nat) * 256 ^ 0 at value
      lia

/-- A number that the divisor is in once is divided to nothing, or almost a whole digit. -/
theorem broken_quotient {self : LargeInteger} (canonical : Canonical (.large self)) {U : Nat}
    (value : self.toInt = U) (wide : 2 ^ 62 ≤ U) (narrow : U < 2 ^ 63) :
    self.quoRem log2 (.small D) = none ∨ ∃ data, self.quoRem log2 (.small D) = some data ∧
      ∃ quotient, (quotient = 0 ∨ quotient = 65534 ∨ quotient = 65535) ∧
        Exact (some data.quo) quotient := by
  rw [quoRem_long accurate (by lia) most canonical (by lia)]
  cases found : computeQuoRem.longQuoRem log2 self (.small D) with
  | none => exact .inl rfl
  | some data =>
    refine .inr ⟨data, rfl, ?_⟩
    obtain ⟨shift, lost | ⟨v, shifted, sign, length, kind⟩⟩ :=
      broken_shift accurate least most wrong
    · obtain ⟨-, v, -, -, -, shifted, -⟩ := longQuoRem_some found
      rw [shift, lost] at shifted
      cases shifted
    · obtain ⟨u, qhat, t, dividend, canonicalU, estimated, taken, stored⟩ :=
        longQuoRem_one accurate canonical value shift shifted (p := 4) (size_large v length)
          (show base ^ (4 + 0) ≤ U * 2 ^ 2 by
            rw [show base ^ (4 + 0) = 2 ^ 64 from rfl]
            lia)
          (by
            rw [show base ^ (4 + 0 + 1) = 2 ^ 80 from rfl]
            lia) found rfl
      have four : base ^ 4 = 2 ^ 64 := rfl
      have digit : base = 65536 := rfl
      have top : u.wideDigitAt 6 = 0 := by
        refine (wideDigitAt_nat (u := .large u) dividend 5).trans ?_
        rw [show base ^ 5 = 2 ^ 80 from rfl, digit]
        lia
      have leading (W : Nat) (same : v.toInt = W) :
          (Number.large v).highWideDigit log2 = W / 2 ^ 64 % 65536 := by
        rw [Number.highWideDigit, LargeInteger.highWideDigit, length]
        exact wideDigitAt_nat (u := .large v) same 4
      rw [estimate] at estimated
      simp only [Number.wideDigitAt, top] at estimated
      rcases kind with far | led
      · have b : 1024 * D / 2 ^ 64 % 65536 = 255 := by omega
        have one : u.wideDigitAt 5 = 1 := by
          refine (wideDigitAt_nat (u := .large u) dividend 4).trans ?_
          rw [four, digit]
          omega
        rw [leading _ far, b, if_neg (by decide), show 6 - 1 = 5 from rfl, one,
          leadingQuoRem_eq (by decide) (by decide) (by decide) (by decide)] at estimated
        obtain rfl : 0 = qhat := Option.some.inj estimated
        have argument : Operand (.large v) := ⟨by lia, fun negative => by
          rw [sign] at negative
          exact Bool.noConfusion negative⟩
        have same : (Number.large v).toInt = (1024 * D : Nat) := far
        have nonneg : (Number.large u).toInt = (U * 2 ^ 2 : Nat) := dividend
        obtain ⟨t', taken', -, valueT⟩ := takeAway_exact accurate canonicalU argument (by lia)
          (by lia) (show 0 ≤ ((0 : Nat) : Int) ∧ ((0 : Nat) : Int) < base by decide) 0
        cases taken.symm.trans taken'
        have negative : t.negative = false := by
          rw [negative_of_value valueT]
          exact decide_eq_false (by rw [Nat.cast_zero, zero_mul, mul_zero]; lia)
        exact ⟨0, .inl rfl, stored 0 (by rw [negative]; rfl) (Int.le_refl 0) (by decide)⟩
      · have b : 4 * D / 2 ^ 64 % 65536 = 0 := by lia
        rw [leading _ led, b, if_pos rfl] at estimated
        obtain rfl : base - 1 = qhat := Option.some.inj estimated
        rw [digit] at stored
        cases sign' : t.negative with
        | true => exact ⟨65534, .inr (.inl rfl), stored _ (by rw [sign']; rfl) (by decide) (by decide)⟩
        | false => exact ⟨65535, .inr (.inr rfl), stored _ (by rw [sign']; rfl) (by decide) (by decide)⟩

end Shift

end Egg.Arithmetic
