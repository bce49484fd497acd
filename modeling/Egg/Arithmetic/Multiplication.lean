import Egg.Arithmetic.SmallInteger
import Mathlib.Algebra.Order.Ring.Abs

/-! Products. -/
namespace Egg.Arithmetic

open Egg.Data

variable {log2 : Nat → Int}

namespace LargeInteger

/-- The natural number that the digits of a positive integer stand for. -/
def magnitude (digits : List UInt16) : Nat :=
  Nat.ofDigits base (digits.map UInt16.toNat)

theorem magnitude_cons (digit : UInt16) (digits : List UInt16) :
    magnitude (digit :: digits) = digit.toNat + base * magnitude digits :=
  Nat.ofDigits_cons ..

theorem magnitude_append (low high : List UInt16) :
    magnitude (low ++ high) = magnitude low + base ^ low.length * magnitude high := by
  rw [magnitude, List.map_append, Nat.ofDigits_append, List.length_map]
  rfl

/-- The carry of an addition stays inside the digits when the sum does. -/
theorem addFromDigit_eq {integer : Nat} {digits : List UInt16}
    (room : magnitude digits + integer < base ^ digits.length) :
    ∃ sum, addFromDigit integer digits = some sum ∧ sum.length = digits.length ∧
      magnitude sum = magnitude digits + integer := by
  induction digits generalizing integer with
  | nil =>
    cases integer with
    | zero => exact ⟨[], rfl, rfl, rfl⟩
    | succ integer =>
      rw [List.length_nil, pow_zero] at room
      lia
  | cons digit digits ih =>
    cases integer with
    | zero => exact ⟨_, rfl, rfl, rfl⟩
    | succ integer =>
      have bound : base = 65536 := rfl
      rw [magnitude_cons, List.length_cons, pow_succ', bound] at room
      obtain ⟨sum, found, length, value⟩ := @ih ((integer + 1 + digit.toNat) / base) (by
        rw [bound]
        lia)
      refine ⟨UInt16.ofNat (integer + 1 + digit.toNat) :: sum, ?_, ?_, ?_⟩
      · rw [addFromDigit, found]
        rfl
      · rw [List.length_cons, length, List.length_cons]
      · rw [magnitude_cons, magnitude_cons, value, UInt16.toNat_ofNat', bound]
        lia

/-- A row of the product. -/
theorem multDigit_eq {number : Number} {value : Nat} (same : number.toInt = value)
    (digit i : Nat) {n : Nat} {result : List UInt16} (inside : i + n ≤ result.length)
    (room : magnitude result + digit * (value % base ^ n) * base ^ i < base ^ result.length) :
    ∃ row, multDigit number digit i n result = some row ∧ row.length = result.length ∧
      magnitude row = magnitude result + digit * (value % base ^ n) * base ^ i := by
  induction n with
  | zero =>
    refine ⟨result, rfl, rfl, ?_⟩
    rw [pow_zero, Nat.mod_one, Nat.mul_zero, Nat.zero_mul, Nat.add_zero]
  | succ j ih =>
    have next : number.wideDigitAt (j + 1) = value / base ^ j % base := by
      have cast := number.wideDigitAt_eq j
      rw [same] at cast
      exact_mod_cast cast
    have split : digit * (value % base ^ (j + 1)) * base ^ i =
        digit * (value % base ^ j) * base ^ i +
          digit * number.wideDigitAt (j + 1) * base ^ (i + j) := by
      rw [next, Nat.mod_pow_succ, pow_add]
      ring
    rw [split, ← Nat.add_assoc] at room ⊢
    obtain ⟨row, found, length, total⟩ := ih (by lia) (by lia)
    have inner : (row.take (i + j)).length = i + j := by
      rw [List.length_take]
      lia
    have parts : magnitude row =
        magnitude (row.take (i + j)) + base ^ (i + j) * magnitude (row.drop (i + j)) := by
      have whole := magnitude_append (row.take (i + j)) (row.drop (i + j))
      rwa [List.take_append_drop, inner] at whole
    have power : base ^ result.length = base ^ (i + j) * base ^ (row.drop (i + j)).length := by
      rw [← pow_add, List.length_drop]
      congr 1
      lia
    have fits : magnitude (row.drop (i + j)) + digit * number.wideDigitAt (j + 1) <
        base ^ (row.drop (i + j)).length := by
      rw [power, ← total, parts] at room
      refine Nat.lt_of_mul_lt_mul_left (a := base ^ (i + j)) ?_
      rw [Nat.mul_add, Nat.mul_comm _ (digit * _)]
      lia
    obtain ⟨high, added, highLength, sum⟩ := addFromDigit_eq fits
    refine ⟨row.take (i + j) ++ high, ?_, ?_, ?_⟩
    · rw [multDigit, found]
      dsimp only [Option.bind_eq_bind, Option.bind_some]
      rw [added]
      rfl
    · rw [List.length_append, highLength, ← List.length_append, List.take_append_drop, length]
    · rw [magnitude_append, inner, sum, ← total, parts]
      ring

/-- All rows of the product. -/
theorem multDigits_eq {self : LargeInteger} {number : Number} {left right : Nat}
    (own : self.toInt = left) (same : number.toInt = right) {n m count : Nat}
    (below : right < base ^ n) (room : left * right < base ^ count) (inside : m + n ≤ count) :
    ∃ product, multDigits self number n m (List.replicate count 0) = some product ∧
      product.length = count ∧ magnitude product = left % base ^ m * right := by
  induction m with
  | zero =>
    refine ⟨_, rfl, List.length_replicate, ?_⟩
    have zeros := (Represents.replicate_zero base count).ofDigits_eq
    rw [Int.zero_emod] at zeros
    rw [pow_zero, Nat.mod_one, Nat.zero_mul, magnitude, List.map_replicate]
    exact_mod_cast zeros
  | succ i ih =>
    obtain ⟨partialProduct, found, length, total⟩ := ih (by lia)
    have digit : self.wideDigitAt (i + 1) = left / base ^ i % base := by
      have cast := self.wideDigitAt_eq i
      rw [own] at cast
      exact_mod_cast cast
    have split : left % base ^ (i + 1) * right =
        left % base ^ i * right + self.wideDigitAt (i + 1) * right * base ^ i := by
      rw [digit, Nat.mod_pow_succ]
      ring
    have bound : left % base ^ (i + 1) * right ≤ left * right :=
      Nat.mul_le_mul_right right (Nat.mod_le ..)
    obtain ⟨row, rowFound, rowLength, rowTotal⟩ := @multDigit_eq number right same
      (self.wideDigitAt (i + 1)) i n partialProduct (by lia) (by
        rw [length, total, Nat.mod_eq_of_lt below, ← split]
        lia)
    refine ⟨row, ?_, rowLength.trans length, ?_⟩
    · rw [multDigits, found]
      exact rowFound
    · rw [rowTotal, total, Nat.mod_eq_of_lt below, split]

end LargeInteger

open LargeInteger

section

variable (accurate : Accurate log2)

include accurate

/-- The digits that are multiplied hold the whole argument. -/
theorem nbDigits_room {number : Number} (argument : Operand number) (nonneg : 0 ≤ number.toInt)
    (nonzero : number ≠ .small 0) :
    ∃ n : Nat, (number.sizeInBytes log2 + digitLength - 1) / digitLength = n ∧
      number.toInt < (base : Int) ^ n := by
  cases number with
  | small value =>
    have positive : 0 < value := by
      rcases nonneg.lt_or_eq with less | equal
      · exact less
      · exact absurd (congrArg Number.small equal.symm) nonzero
    have fits : Fits value := argument
    have size : 0 < primitiveSMISize log2 value := by
      have bounds := fits
      unfold Fits minimum maximum at bounds
      have least := (accurate.bounded value.toNat (by lia) (by lia)).1
      rw [primitiveSMISize, if_neg (by lia)]
      lia
    have power : (base : Int) ^ ((primitiveSMISize log2 value + digitLength - 1) /
        digitLength).toNat = 256 ^ (2 * ((primitiveSMISize log2 value + digitLength - 1) /
          digitLength).toNat) := by
      rw [pow_mul]
      rfl
    refine ⟨((primitiveSMISize log2 value + digitLength - 1) / digitLength).toNat, ?_, ?_⟩
    · rw [Number.sizeInBytes]
      unfold digitLength
      lia
    · rw [power]
      refine Number.lt_pow_of_size accurate fits positive ?_
      unfold digitLength
      lia
  | large integer =>
    have within := integer.within_toInt
    refine ⟨integer.nbDigits, ?_, ?_⟩
    · rw [Number.sizeInBytes, sizeInBytes]
      unfold digitLength
      lia
    · rw [Within] at within
      rw [Number.toInt] at nonneg ⊢
      split at within <;> lia

theorem mult_exact {self : LargeInteger} {number : Number} (positive : self.negative = false)
    (size : 1 ≤ self.nbDigits) (argument : Operand number) (nonneg : 0 ≤ number.toInt)
    (nonzero : number ≠ .small 0) :
    Exact (self.mult log2 number) (self.toInt * number.toInt) := by
  obtain ⟨n, count, below⟩ := nbDigits_room accurate argument nonneg nonzero
  have within := self.within_toInt
  rw [Within, if_neg (by simp [positive])] at within
  obtain ⟨left, own⟩ := Int.eq_ofNat_of_zero_le within.1
  obtain ⟨right, same⟩ := Int.eq_ofNat_of_zero_le nonneg
  have leftBelow : left < base ^ self.nbDigits := by
    have cast := within.2
    rw [own] at cast
    exact_mod_cast cast
  have rightBelow : right < base ^ n := by
    rw [same] at below
    exact_mod_cast below
  have room : left * right < base ^ (self.nbDigits + n) := by
    rw [pow_add]
    exact Nat.mul_lt_mul'' leftBelow rightBelow
  obtain ⟨product, found, length, total⟩ :=
    multDigits_eq own same rightBelow room (Nat.le_refl _)
  rw [Nat.mod_eq_of_lt leftBelow] at total
  have filled : (new false ((n + self.nbDigits) * digitLength)).digits =
      List.replicate (self.nbDigits + n) 0 := by
    rw [new]
    dsimp only
    rw [show (((n : Int) + self.nbDigits) * digitLength + digitLength - 1) / digitLength =
      (self.nbDigits + n : Nat) by unfold digitLength; lia]
    rfl
  have value : (⟨false, product⟩ : LargeInteger).toInt = self.toInt * number.toInt := by
    rw [toInt, own, same]
    show ((magnitude product : Nat) : Int) - 0 = _
    rw [total, sub_zero]
    exact Int.natCast_mul left right
  rw [mult, count, filled, Int.toNat_natCast, found, ← value]
  refine @reduced_exact ⟨false, product⟩ log2 accurate ?_ (fun other => by cases other)
  rw [nbDigits, length]
  lia

/-- The absolute value of an operand; that of a negative one is reduced. -/
theorem abs_operand {number : Number} (operand : Operand number) :
    ∃ result, number.abs log2 = some result ∧ Operand result ∧ result.toInt = |number.toInt| ∧
      (number.toInt < 0 → Canonical result) := by
  rw [Number.abs, number.negative_eq]
  by_cases negative : number.toInt < 0
  · obtain ⟨result, found, canonical, value⟩ := Number.negated_exact accurate operand
    rw [decide_eq_true negative, if_pos rfl, abs_of_neg negative]
    exact ⟨result, found, canonical.operand, value, fun _ => canonical⟩
  · rw [decide_eq_false negative, if_neg (by decide), abs_of_nonneg (by lia)]
    exact ⟨number, rfl, operand, rfl, fun less => absurd less negative⟩

/-- The absolute value is large enough to be multiplied. -/
theorem abs_large {integer : LargeInteger} (operand : Operand (.large integer))
    (apart : 0 ≤ integer.toInt ∨ ¬ Fits (-integer.toInt)) :
    ∃ left, (Number.large integer).abs log2 = some (.large left) ∧ left.negative = false ∧
      1 ≤ left.nbDigits ∧ left.toInt = |integer.toInt| := by
  obtain ⟨result, found, operand', value, canonical⟩ := abs_operand accurate operand
  have value : result.toInt = |integer.toInt| := value
  cases result with
  | small small =>
    by_cases negative : integer.toInt < 0
    · have fits : Fits small := operand'
      have same : small = -integer.toInt := value.trans (abs_of_neg negative)
      exact absurd (same ▸ fits) (apart.resolve_left (by lia))
    · rw [Number.abs, Number.negative_eq, decide_eq_false (by exact negative)] at found
      cases found
  | large left =>
    refine ⟨left, found, ?_, by have := operand'.1; lia, value⟩
    by_contra other
    have less := toInt_neg (show left.negative = true by simpa using other)
    have nonneg := abs_nonneg integer.toInt
    rw [Number.toInt] at value
    lia

theorem large_times_exact {integer : LargeInteger} {number : Number}
    (operand : Operand (.large integer)) (apart : 0 ≤ integer.toInt ∨ ¬ Fits (-integer.toInt))
    (argument : Canonical number) :
    Exact (integer.times log2 number) (integer.toInt * number.toInt) := by
  rw [LargeInteger.times]
  by_cases zero : number = .small 0
  · subst zero
    rw [if_pos rfl, Number.toInt, mul_zero]
    exact exact_small (by decide)
  · obtain ⟨left, leftFound, positive, size, leftValue⟩ := abs_large accurate operand apart
    obtain ⟨right, rightFound, rightOperand, rightValue, _⟩ :=
      abs_operand accurate argument.operand
    have nonzero : right ≠ .small 0 := by
      rintro rfl
      have none : number.toInt = 0 := abs_eq_zero.mp rightValue.symm
      cases number with
      | small value => exact zero (congrArg Number.small none)
      | large other =>
        have value : other.toInt = 0 := none
        exact argument.1 (value ▸ by decide)
    obtain ⟨product, productFound, canonical, value⟩ := mult_exact accurate positive size
      rightOperand (rightValue ▸ abs_nonneg _) nonzero
    rw [if_neg zero, leftFound, rightFound]
    dsimp only [Option.bind_eq_bind, Option.bind_some]
    rw [Number.mult, positive, if_neg (by decide), productFound]
    dsimp only [Option.bind_some]
    rw [leftValue, rightValue] at value
    rw [← abs_mul] at value
    have own : integer.positive = decide (0 ≤ integer.toInt) :=
      Number.positive_eq (.large integer)
    rw [own, Number.positive_eq]
    by_cases same : 0 ≤ integer.toInt ↔ 0 ≤ number.toInt
    · have nonneg : 0 ≤ integer.toInt * number.toInt := by
        by_cases first : 0 ≤ integer.toInt
        · exact mul_nonneg first (same.mp first)
        · have second : ¬ 0 ≤ number.toInt := mt same.mpr first
          exact mul_nonneg_of_nonpos_of_nonpos (by lia) (by lia)
      rw [abs_of_nonneg nonneg] at value
      rw [decide_eq_decide.mpr same, BEq.rfl, if_pos rfl]
      exact ⟨product, rfl, canonical, value⟩
    · have nonpos : integer.toInt * number.toInt ≤ 0 := by
        by_cases first : 0 ≤ integer.toInt
        · have second : ¬ 0 ≤ number.toInt := fun also => same (iff_of_true first also)
          exact mul_nonpos_of_nonneg_of_nonpos first (by lia)
        · have second : 0 ≤ number.toInt := by
            by_contra also
            exact same (iff_of_false first also)
          exact mul_nonpos_of_nonpos_of_nonneg (by lia) second
      rw [abs_of_nonpos nonpos] at value
      have differ : (decide (0 ≤ integer.toInt) == decide (0 ≤ number.toInt)) = false := by
        rw [beq_eq_false_iff_ne, Ne, decide_eq_decide]
        exact same
      have opposite := Number.negated_exact accurate canonical.operand
      rw [value, neg_neg] at opposite
      rw [differ, if_neg (by decide)]
      exact opposite

end

end Egg.Arithmetic
