import Egg.Arithmetic.Comparison
import Egg.Arithmetic.Multiplication

/-! Which operations on numbers are exact. -/
namespace Egg.Arithmetic

open Number

variable {log2 : Nat → Int}

/-- The logarithm without rounding. -/
theorem accurate_log2 : Accurate fun n => (Nat.log2 n : Int) :=
  ⟨fun _ _ _ => rfl, fun _ _ _ => ⟨Int.le_refl _, by omega⟩⟩

section Products

variable (accurate : Accurate log2)

include accurate

/-- A negative receiver is converted to a number whose absolute value is small. -/
theorem times_converted_of_neg {a b : Int} (negative : a < 0) (past : ¬ Fits (a * b)) :
    times log2 (small a) (small b) = none := by
  have nonzero : small b ≠ small 0 := by
    intro same
    cases same
    rw [mul_zero] at past
    exact past (by decide)
  have converted := @asLargeInteger_toInt_of_neg log2 a negative
  obtain ⟨left, found, canonical, value⟩ := negated_exact accurate (@asLargeInteger_operand log2 a)
  have value : left.toInt = -(asLargeInteger log2 a).toInt := value
  have absolute : (Number.large (asLargeInteger log2 a)).abs log2 = some left := by
    rw [Number.abs, Number.negative, asLargeInteger_negative, decide_eq_true negative, if_pos rfl]
    exact found
  rw [times, newIntObject_none past]
  dsimp only
  rw [LargeInteger.times, if_neg nonzero, absolute]
  dsimp only [Option.bind_eq_bind, Option.bind_some]
  cases left with
  | small left =>
    cases (small b).abs log2 <;> rfl
  | large left =>
    have value : left.toInt = -(asLargeInteger log2 a).toInt := value
    have fits : Fits left.toInt := by
      unfold Fits minimum maximum
      omega
    exact absurd fits canonical.1

theorem times_exact_iff {a b : Int} (fitsA : Fits a) (fitsB : Fits b) :
    Exact (times log2 (small a) (small b)) (a * b) ↔ Fits (a * b) ∨ 0 ≤ a := by
  by_cases fits : Fits (a * b)
  · rw [times, newIntObject_eq fits]
    exact iff_of_true (exact_small fits) (.inl fits)
  · by_cases nonneg : 0 ≤ a
    · have value := asLargeInteger_toInt accurate fitsA nonneg
      have exact := @large_times_exact log2 accurate _ (small b) (asLargeInteger_operand a)
        (.inl (value.symm ▸ nonneg)) fitsB
      rw [value] at exact
      rw [times, newIntObject_none fits]
      exact iff_of_true exact (.inr nonneg)
    · rw [times_converted_of_neg accurate (by omega) fits]
      refine iff_of_false ?_ (fun either => either.elim fits (fun less => nonneg less))
      rintro ⟨_, found, _⟩
      cases found

end Products

/-- Addition, subtraction and multiplication of small integers. A negative receiver is converted
to a large integer by its lowest byte only, and is never multiplied. -/
theorem smallInteger_exact_iff (accurate : Accurate log2) {a b : Int} (fitsA : Fits a)
    (fitsB : Fits b) :
    (Exact (plus log2 (small a) (small b)) (a + b) ↔ Fits (a + b) ∨ -256 ≤ a) ∧
    (Exact (minus log2 (small a) (small b)) (a - b) ↔ Fits (a - b) ∨ -256 ≤ a) ∧
    (Exact (times log2 (small a) (small b)) (a * b) ↔ Fits (a * b) ∨ 0 ≤ a) :=
  ⟨plus_exact_iff accurate fitsA fitsB, minus_exact_iff accurate fitsA fitsB,
    times_exact_iff accurate fitsA fitsB⟩

theorem smallInteger_exact_iff_maximum :
    Exact (plus (fun n => Nat.log2 n) (small maximum) (small 1)) (maximum + 1) ∧
    Exact (times (fun n => Nat.log2 n) (small maximum) (small minimum)) (maximum * minimum) := by
  have kept := @smallInteger_exact_iff _ accurate_log2 maximum
  exact ⟨(@kept 1 (by decide) (by decide)).1.mpr (by decide),
    (@kept minimum (by decide) (by decide)).2.2.mpr (by decide)⟩

/-- The least small integer and minus one add up to -257. -/
theorem smallInteger_loses_bytes : ¬ ∀ log2, Accurate log2 → ∀ a b, Fits a → Fits b →
    Exact (plus log2 (small a) (small b)) (a + b) := by
  intro always
  have exact := always _ accurate_log2 minimum (-1) (by decide) (by decide)
  rw [plus_exact_iff accurate_log2 (by decide) (by decide)] at exact
  exact absurd exact (by decide)

/-- Both numbers are small, the result is large, and the receiver is below the bound. -/
def Misconverted (x y : Number) (result bound : Int) : Prop :=
  ∃ a b, x = small a ∧ y = small b ∧ ¬ Fits result ∧ a < bound

theorem not_misconverted_iff {a b result bound : Int} :
    ¬ Misconverted (small a) (small b) result bound ↔ Fits result ∨ bound ≤ a := by
  constructor
  · intro sound
    by_cases fits : Fits result
    · exact .inl fits
    · refine .inr (not_lt.mp fun less => sound ⟨a, b, rfl, rfl, fits, less⟩)
  · rintro either ⟨_, _, same, _, past, less⟩
    cases same
    exact either.elim past (not_le.mpr less)

theorem not_misconverted_left {integer : LargeInteger} {y : Number} {result bound : Int} :
    ¬ Misconverted (large integer) y result bound :=
  fun ⟨_, _, same, _⟩ => nomatch same

theorem not_misconverted_right {x : Number} {integer : LargeInteger} {result bound : Int} :
    ¬ Misconverted x (large integer) result bound :=
  fun ⟨_, _, _, same, _⟩ => nomatch same

section Operations

variable (accurate : Accurate log2) {x y : Number} (canonical : Canonical x)
  (argument : Canonical y)

include accurate canonical argument

theorem sum_exact_iff : Exact (plus log2 x y) (x.toInt + y.toInt) ↔
    ¬ Misconverted x y (x.toInt + y.toInt) (-256) := by
  cases x with
  | large a =>
    exact iff_of_true (LargeInteger.plus_exact accurate canonical.operand argument (.inl canonical))
      not_misconverted_left
  | small a =>
    cases y with
    | small b => exact (plus_exact_iff accurate canonical argument).trans not_misconverted_iff.symm
    | large b =>
      have exact := LargeInteger.plus_exact accurate argument.operand canonical (.inl argument)
      rw [Int.add_comm] at exact
      exact iff_of_true exact not_misconverted_right

theorem difference_exact_iff : Exact (minus log2 x y) (x.toInt - y.toInt) ↔
    ¬ Misconverted x y (x.toInt - y.toInt) (-256) := by
  cases x with
  | large a =>
    exact iff_of_true (large_minus_exact accurate canonical.operand argument (.inl canonical))
      not_misconverted_left
  | small a =>
    cases y with
    | small b => exact (minus_exact_iff accurate canonical argument).trans not_misconverted_iff.symm
    | large b =>
      obtain ⟨result, found, reduced, value⟩ :=
        large_minus_exact accurate argument.operand canonical (.inl argument)
      have exact := negated_exact accurate reduced.operand
      rw [value, neg_sub] at exact
      refine iff_of_true ?_ not_misconverted_right
      rw [minus, found]
      exact exact

theorem product_exact_iff : Exact (times log2 x y) (x.toInt * y.toInt) ↔
    ¬ Misconverted x y (x.toInt * y.toInt) 0 := by
  have apart {integer : LargeInteger} (wide : ¬ Fits integer.toInt) :
      0 ≤ integer.toInt ∨ ¬ Fits (-integer.toInt) := by
    unfold Fits minimum maximum at *
    omega
  cases x with
  | large a =>
    exact iff_of_true (large_times_exact accurate canonical.operand (apart canonical.1) argument)
      not_misconverted_left
  | small a =>
    cases y with
    | small b => exact (times_exact_iff accurate canonical argument).trans not_misconverted_iff.symm
    | large b =>
      have exact := large_times_exact accurate argument.operand (apart argument.1) canonical
      rw [Int.mul_comm] at exact
      exact iff_of_true exact not_misconverted_right

/-- The operations of numbers in canonical form are exact but for the conversion of a small
receiver, and order, equality and hash are those of the integers. -/
theorem number_exact_iff (floatHash : LargeInteger → Int) :
    (Exact (plus log2 x y) (x.toInt + y.toInt) ↔
      ¬ Misconverted x y (x.toInt + y.toInt) (-256)) ∧
    (Exact (minus log2 x y) (x.toInt - y.toInt) ↔
      ¬ Misconverted x y (x.toInt - y.toInt) (-256)) ∧
    (Exact (times log2 x y) (x.toInt * y.toInt) ↔
      ¬ Misconverted x y (x.toInt * y.toInt) 0) ∧
    Exact (negated log2 x) (-x.toInt) ∧
    (x.less y = true ↔ x.toInt < y.toInt) ∧
    (x.equals y = true ↔ x.toInt = y.toInt) ∧
    (x.toInt = y.toInt → x.hash floatHash = y.hash floatHash) := by
  refine ⟨sum_exact_iff accurate canonical argument, difference_exact_iff accurate canonical argument,
    product_exact_iff accurate canonical argument, negated_exact accurate canonical.operand,
    less_iff canonical argument, equals_iff canonical argument, fun same => ?_⟩
  rw [canonical.ext argument same]

end Operations

/-- The least small integer and the first large one. -/
theorem number_exact_iff_limits :
    Exact (plus (fun n => Nat.log2 n) (small minimum) (large ⟨false, [0, 0, 0, 0x4000]⟩)) 0 ∧
    (small minimum).less (large ⟨false, [0, 0, 0, 0x4000]⟩) = true := by
  have kept := @number_exact_iff _ accurate_log2 (small minimum)
    (large ⟨false, [0, 0, 0, 0x4000]⟩) (by decide) (by decide) fun _ => 0
  exact ⟨kept.1.mpr not_misconverted_right, kept.2.2.2.2.1.mpr (by decide)⟩

/-- The product of -2 and the greatest small integer is not answered. -/
theorem number_loses_product : ¬ ∀ log2, Accurate log2 → ∀ x y, Canonical x → Canonical y →
    Exact (times log2 x y) (x.toInt * y.toInt) := by
  intro always
  have exact := always _ accurate_log2 (small (-2)) (small maximum) (by decide) (by decide)
  rw [product_exact_iff accurate_log2 (by decide) (by decide)] at exact
  exact exact ⟨-2, maximum, rfl, rfl, by decide, by decide⟩

end Egg.Arithmetic
