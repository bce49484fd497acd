import Egg.Arithmetic.Fraction

/-! Equality of numbers of all classes, and their hashes. -/
namespace Egg.Arithmetic

open Egg.Data

variable {log2 : Nat → Int} {floatHash : LargeInteger → Int} {cast : Binary64 → Int}

theorem hashMultiply_lt (self : Nat) : hashMultiply self 0x19660D < 2 ^ 28 := by
  unfold hashMultiply
  split
  · omega
  · exact Nat.lt_of_le_of_lt Nat.and_le_right (by decide)

/-- One step of the hash of bytes. -/
theorem hashStep_lt (hash : Nat) {byte : Nat} (below : byte < 256) :
    hashMultiply hash 0x19660D ^^^ byte < 2 ^ 28 :=
  Nat.xor_lt_two_pow (hashMultiply_lt hash) (by omega)

namespace Float

variable {self other : Binary64}

theorem hashBytes_lt : hashBytes self < 2 ^ 28 := by
  rw [hashBytes, List.range_succ, List.foldl_append]
  exact hashStep_lt _ (Nat.mod_lt _ (by decide))

/-- Equal floats have one hash, zeros of either sign included. -/
theorem hash_eq_of_equals (finite : self.IsFinite) (finite' : other.IsFinite)
    (same : self.equals other = true) : hash cast self = hash cast other := by
  have hash_zero {number : Binary64} (finite : number.IsFinite) (zero : number.units = 0) :
      hash cast number = 0 := by
    have whole : HashesInteger number := by
      refine ⟨finite, by rw [fractionPart, zero, Int.zero_tmod], .inl ?_⟩
      rw [zero]
      exact ⟨by decide +kernel, by decide +kernel⟩
    rw [hash, if_pos whole, truncated, zero, Int.zero_tdiv]
    rfl
  obtain ⟨_, _, rfl | ⟨zero, zero'⟩⟩ := Binary64.equals_iff.mp same
  · rfl
  · rw [hash_zero finite (Binary64.units_eq_zero zero),
      hash_zero finite' (Binary64.units_eq_zero zero')]

theorem one_pos : (0 : Int) < Binary64.one := by
  exact_mod_cast (pow_pos (by decide) _ : 0 < 2 ^ 1074)

/-- Which integers a float hashes as. -/
theorem hashesInteger_iff {value : Int} (finite : self.IsFinite)
    (same : self.units = value * Binary64.one) :
    HashesInteger self ↔ (-2 ^ 30 ≤ value ∧ value < 2 ^ 30) ∨ 2 ^ 53 < value.natAbs := by
  have positive := one_pos
  have whole : fractionPart self = 0 := by
    rw [fractionPart, same]
    exact Int.mul_tmod_left ..
  rw [HashesInteger, same, Int.mul_le_mul_iff_of_pos_right positive,
    Int.mul_le_mul_iff_of_pos_right positive, Int.mul_lt_mul_right positive,
    Int.mul_lt_mul_right positive]
  constructor
  · rintro ⟨_, _, range⟩
    omega
  · intro range
    exact ⟨finite, whole, by omega⟩

theorem truncated_eq {value : Int} (same : self.units = value * Binary64.one)
    (bounds : -2 ^ 63 ≤ value ∧ value < 2 ^ 63) : truncated cast self = value.bmod (2 ^ 63) := by
  rw [truncated, same, Int.mul_tdiv_cancel _ one_pos.ne']
  exact if_pos bounds

theorem bmod_of_fits {value : Int} (fits : Fits value) : value.bmod (2 ^ 63) = value := by
  unfold Fits minimum maximum at fits
  rw [Int.bmod_eq_emod]
  split <;> omega

end Float

section Products

variable (accurate : Accurate log2) {x y : Number} (canonical : Canonical x)
  (argument : Canonical y)

include accurate canonical argument

/-- Where a product is answered, it is exact. -/
theorem times_answered {product : Number} (found : Number.times log2 x y = some product) :
    ¬ Misconverted x y (x.toInt * y.toInt) 0 ∧ Canonical product ∧
      product.toInt = x.toInt * y.toInt := by
  have sound : ¬ Misconverted x y (x.toInt * y.toInt) 0 := by
    rintro ⟨a, b, rfl, rfl, past, negative⟩
    rw [@times_converted_of_neg log2 accurate a b negative past] at found
    cases found
  obtain ⟨_, answered, canonical, value⟩ :=
    (product_exact_iff accurate canonical argument).mpr sound
  obtain rfl := Option.some.inj (found.symm.trans answered)
  exact ⟨sound, canonical, value⟩

end Products

namespace Fraction

variable {self other : Fraction}

/-- Fractions that compare equal have the same cross products. -/
theorem equalsFraction_answered (accurate : Accurate log2)
    (same : self.equalsFraction log2 other = some true) :
    self.numerator.toInt * other.denominator.toInt =
      self.denominator.toInt * other.numerator.toInt ∧
    ¬ Misconverted self.numerator other.denominator
      (self.numerator.toInt * other.denominator.toInt) 0 := by
  rw [equalsFraction] at same
  obtain ⟨left, foundLeft, same⟩ := Option.bind_eq_some_iff.mp same
  obtain ⟨right, foundRight, same⟩ := Option.bind_eq_some_iff.mp same
  obtain ⟨sound, canonical, value⟩ :=
    times_answered accurate self.canonicalNumerator other.canonicalDenominator foundLeft
  obtain ⟨_, canonical', value'⟩ :=
    times_answered accurate self.canonicalDenominator other.canonicalNumerator foundRight
  have equal := (Number.equals_iff canonical canonical').mp (Option.some.inj same)
  rw [value, value'] at equal
  exact ⟨equal, sound⟩

theorem equalsInteger_answered (accurate : Accurate log2) {number : Number}
    (canonical : Canonical number) (same : self.equalsInteger log2 number = some true) :
    self.numerator.toInt = self.denominator.toInt * number.toInt := by
  rw [equalsInteger] at same
  obtain ⟨product, found, same⟩ := Option.bind_eq_some_iff.mp same
  obtain ⟨_, canonical', value⟩ :=
    times_answered accurate self.canonicalDenominator canonical found
  have equal := (Number.equals_iff self.canonicalNumerator canonical').mp (Option.some.inj same)
  rwa [value] at equal

end Fraction

namespace Numeric

/-- The hash of a fraction with the given numerator multiplies without overflow. -/
def Hashable : Number → Prop
  | .small value => Fits (Int.xor (Arithmetic.hashMultiply 2 0x19660D) value * 0x19660D)
  | .large _ => True

theorem large_hash (integer : LargeInteger) :
    (Number.large integer).hash floatHash = integer.hashBytes := by
  rw [Number.hash]
  cases sign : integer.negative
  · have wide : integer.lessEqual (.small 0x20000000000000) = false := by
      rw [LargeInteger.lessEqual, LargeInteger.order, sign]
      rfl
    rw [if_neg Bool.false_ne_true, wide]
    rfl
  · have wide : integer.greaterEqual (.small (-0x20000000000000)) = false := by
      rw [LargeInteger.greaterEqual, LargeInteger.less, LargeInteger.order, sign]
      rfl
    rw [if_pos rfl, wide]
    rfl

theorem hashMultiply_answered {hash : Int}
    (fits : hash < 162 → Fits (hash * 0x19660D)) : ∃ product, hashMultiply log2 hash = some product := by
  rw [hashMultiply]
  split
  · rw [Number.times, newIntObject_eq (fits (by assumption))]
    exact ⟨_, rfl⟩
  · exact ⟨_, rfl⟩

theorem fractionHash_answered {self : Fraction} (hashable : Hashable self.numerator) :
    ∃ hash, fractionHash log2 floatHash self = some hash := by
  have fits : ∃ product, hashMultiply log2 (Int.xor (Arithmetic.hashMultiply 2 0x19660D)
      (self.numerator.hash floatHash)) = some product := by
    apply hashMultiply_answered
    intro small
    cases number : self.numerator with
    | small value =>
      rw [number] at hashable
      exact hashable
    | large integer =>
      rw [number, large_hash] at small
      rw [large_hash]
      have natural : Int.xor (Arithmetic.hashMultiply 2 0x19660D : Nat) (integer.hashBytes : Nat) =
          (Arithmetic.hashMultiply 2 0x19660D ^^^ integer.hashBytes : Nat) := rfl
      rw [natural] at small ⊢
      unfold Fits minimum maximum
      omega
  obtain ⟨product, found⟩ := fits
  rw [fractionHash, hashWith, found]
  exact ⟨_, rfl⟩

/-- Fractions and scaled decimals. -/
def asRational : Numeric → Option Fraction
  | fraction value => some value
  | scaledDecimal value => some value.toFraction
  | _ => none

/-- The floats a fraction or scaled decimal is converted to for comparison. -/
def conversions (log2 : Nat → Int) : Numeric → List (Option Binary64)
  | fraction value => [value.asFloat log2]
  | scaledDecimal value => [value.asFraction.asFloat log2, value.asFloat log2]
  | _ => []

/-- A float to which an integer is rounded is that integer, and hashes as it does. -/
def RoundsExactly (value : Int) (number : Binary64) : Prop :=
  (Binary64.ofInt value).equals number = true →
    number.units = value * Binary64.one ∧
      ((-2 ^ 30 ≤ value ∧ value < 2 ^ 30) ∨ 2 ^ 53 < value.natAbs)

/-- Fractions of one value are of one form, and those that are compared hash. -/
def OneForm (self other : Fraction) : Prop :=
  self.numerator.toInt * other.denominator.toInt =
      self.denominator.toInt * other.numerator.toInt →
    self.numerator = other.numerator ∧ self.denominator = other.denominator ∧
      (¬ Misconverted self.numerator self.denominator
        (self.numerator.toInt * self.denominator.toInt) 0 → Hashable self.numerator)

/-- What equality needs of a fraction that floats are compared with as the given conversions: no
integer has its value, no conversion is the other float, and other fractions are in its form. -/
def FractionConsistent (self : Fraction) (conversions : List (Option Binary64)) : Numeric → Prop
  | integer value _ => self.numerator.toInt ≠ self.denominator.toInt * value.toInt
  | fraction value => OneForm self value
  | scaledDecimal value => OneForm self value.toFraction
  | float value _ => ∀ converted, some converted ∈ conversions → converted.equals value = false

/-- What equality needs of two numbers. -/
def Consistent (log2 : Nat → Int) (self other : Numeric) : Prop :=
  match self, other with
  | integer (.small value) _, float number _ => RoundsExactly value number
  | integer _ _, _ => True
  | float _ _, _ => True
  | fraction value, other => FractionConsistent value (self.conversions log2) other
  | scaledDecimal value, other => FractionConsistent value.toFraction (self.conversions log2) other

def Equal (log2 : Nat → Int) (self other : Numeric) : Prop :=
  self.equals log2 other = some true

/-- Equality among some numbers is symmetric and transitive, and equal ones have one hash. -/
structure Lawful (log2 : Nat → Int) (floatHash : LargeInteger → Int) (cast : Binary64 → Int)
    (numbers : Set Numeric) : Prop where
  symmetric : ∀ a ∈ numbers, ∀ b ∈ numbers, Equal log2 a b → Equal log2 b a
  transitive : ∀ a ∈ numbers, ∀ b ∈ numbers, ∀ c ∈ numbers,
    Equal log2 a b → Equal log2 b c → Equal log2 a c
  hashes : ∀ a ∈ numbers, ∀ b ∈ numbers, Equal log2 a b →
    ∃ hash, a.hash log2 floatHash cast = some hash ∧ b.hash log2 floatHash cast = some hash

section Hashes

variable {value : Int} {number : Binary64}

/-- A float to which an integer is rounded hashes as the integer only where it stands for it. -/
theorem roundsExactly_iff (fits : Fits value) (finite : number.IsFinite)
    (rounded : (Binary64.ofInt value).equals number = true) :
    RoundsExactly value number ↔ Float.hash cast number = value := by
  have bounds : -2 ^ 62 ≤ value ∧ value < 2 ^ 62 := by
    unfold Fits minimum maximum at fits
    omega
  have units := Binary64.units_eq_of_equals rounded
  constructor
  · intro exactly
    obtain ⟨same, range⟩ := exactly rounded
    have whole := (Float.hashesInteger_iff finite same).mpr range
    rw [Float.hash, if_pos whole, Float.truncated_eq same (by omega), Float.bmod_of_fits fits]
  · intro same _
    by_cases small : value.natAbs ≤ 2 ^ 53
    · rw [Binary64.units_ofInt_exact small] at units
      refine ⟨units.symm, ?_⟩
      by_contra beyond
      rw [Float.hash, if_neg fun whole =>
        beyond ((Float.hashesInteger_iff finite units.symm).mp whole)] at same
      have below := @Float.hashBytes_lt number
      omega
    · obtain ⟨magnitude, least, most, whole⟩ :=
        @Binary64.units_ofInt_large value (by omega) (by omega)
      rw [Nat.cast_mul, ← mul_assoc] at whole
      have log : value.natAbs.log2 < 62 ∨ value = -2 ^ 62 := by
        obtain rfl | less : value = -2 ^ 62 ∨ value.natAbs < 2 ^ 62 := by omega
        · exact .inr rfl
        · exact .inl ((Nat.log2_lt (by omega)).mpr less)
      have most : magnitude ≤ 2 ^ 62 ∨ (value = -2 ^ 62 ∧ magnitude ≤ 2 ^ 63) := by
        obtain log | rfl := log
        · exact .inl (le_trans most (Nat.pow_le_pow_right (by decide) log))
        · exact .inr ⟨rfl, most⟩
      generalize sign : (if value < 0 then (-1 : Int) else 1) * magnitude = integer at whole
      have same_units := units.symm.trans whole
      by_cases hashes : Float.HashesInteger number
      · have bounds : -2 ^ 63 ≤ integer ∧ integer < 2 ^ 63 := by
          split at sign <;> omega
        rw [Float.hash, if_pos hashes, Float.truncated_eq same_units bounds,
          Int.bmod_eq_emod] at same
        have equal : integer = value := by
          split at sign <;> split at same <;> omega
        exact ⟨equal ▸ same_units, .inr (by omega)⟩
      · rw [Float.hash, if_neg hashes] at same
        have below := @Float.hashBytes_lt number
        omega

end Hashes

section Rationals

variable {a b : Numeric} {p q : Fraction}

theorem equals_rational (left : a.asRational = some p) (right : b.asRational = some q) :
    a.equals log2 b = p.equalsFraction log2 q := by
  cases a with
  | fraction value =>
    cases left
    cases b with
    | fraction value' => cases right; rfl
    | scaledDecimal value' => cases right; rfl
    | integer value' canonical => cases right
    | float value' finite => cases right
  | scaledDecimal value =>
    cases left
    cases b with
    | fraction value' => cases right; rfl
    | scaledDecimal value' => cases right; rfl
    | integer value' canonical => cases right
    | float value' finite => cases right
  | integer value canonical => cases left
  | float value finite => cases left

theorem hash_rational (rational : a.asRational = some p) :
    a.hash log2 floatHash cast = fractionHash log2 floatHash p := by
  cases a with
  | fraction value => cases rational; rfl
  | scaledDecimal value => cases rational; rfl
  | integer value canonical => cases rational
  | float value finite => cases rational

/-- An integer and a fraction are compared one way. -/
theorem equals_integer (rational : a.asRational = some p) (value : Number)
    (canonical : Canonical value) :
    a.equals log2 (integer value canonical) = p.equalsInteger log2 value ∧
    (integer value canonical).equals log2 a = p.equalsInteger log2 value := by
  cases a with
  | fraction value => cases rational; exact ⟨rfl, rfl⟩
  | scaledDecimal value => cases rational; exact ⟨rfl, rfl⟩
  | integer value canonical => cases rational
  | float value finite => cases rational

/-- A float equals a fraction only where it equals a conversion of it. -/
theorem equal_float (rational : a.asRational = some p) {value : Binary64} (finite : value.IsFinite)
    (same : Equal log2 a (float value finite) ∨ Equal log2 (float value finite) a) :
    ∃ converted, some converted ∈ a.conversions log2 ∧ converted.equals value = true := by
  have answered {conversion : Option Binary64} (member : conversion ∈ a.conversions log2)
      (found : (do let other ← conversion; some (other.equals value)) = some true ∨
        (do let other ← conversion; some (value.equals other)) = some true) :
      ∃ converted, some converted ∈ a.conversions log2 ∧ converted.equals value = true := by
    obtain found | found := found
    · obtain ⟨other, rfl, equal⟩ := Option.bind_eq_some_iff.mp found
      exact ⟨other, member, Option.some.inj equal⟩
    · obtain ⟨other, rfl, equal⟩ := Option.bind_eq_some_iff.mp found
      exact ⟨other, member, Binary64.equals_symm (Option.some.inj equal)⟩
  cases a with
  | fraction number => exact answered List.mem_cons_self same
  | scaledDecimal number =>
    obtain same | same := same
    · exact answered List.mem_cons_self (.inl same)
    · exact answered (List.mem_cons_of_mem _ List.mem_cons_self) (.inr same)
  | integer value canonical => cases rational
  | float value finite => cases rational

theorem Consistent.fraction (rational : a.asRational = some p) (consistent : Consistent log2 a b) :
    FractionConsistent p (a.conversions log2) b := by
  cases a with
  | fraction value => cases rational; exact consistent
  | scaledDecimal value => cases rational; exact consistent
  | integer value canonical => cases rational
  | float value finite => cases rational

/-- What a consistent fraction equals is a fraction. -/
theorem rational_of_equal (accurate : Accurate log2) (rational : a.asRational = some p)
    (consistent : Consistent log2 a b) (same : Equal log2 a b ∨ Equal log2 b a) :
    ∃ q, b.asRational = some q ∧ OneForm p q := by
  have consistent := consistent.fraction rational
  cases b with
  | fraction value => exact ⟨_, rfl, consistent⟩
  | scaledDecimal value => exact ⟨_, rfl, consistent⟩
  | integer value canonical =>
    obtain ⟨left, right⟩ := @equals_integer log2 a p rational value canonical
    rw [Equal, Equal, left, right, or_self] at same
    exact absurd (Fraction.equalsInteger_answered accurate canonical same) consistent
  | float value finite =>
    obtain ⟨converted, member, equal⟩ := equal_float rational finite same
    rw [consistent converted member] at equal
    cases equal

/-- It is the same fraction. -/
theorem same_rational (accurate : Accurate log2) (rational : a.asRational = some p)
    (consistent : Consistent log2 a b) (same : Equal log2 a b ∨ Equal log2 b a) :
    b.asRational = some p ∧ p.equalsFraction log2 p = some true ∧ Hashable p.numerator := by
  obtain ⟨q, rational', form⟩ := rational_of_equal accurate rational consistent same
  rw [Equal, Equal, equals_rational rational rational', equals_rational rational' rational] at same
  have cross : p.numerator.toInt * q.denominator.toInt =
      p.denominator.toInt * q.numerator.toInt := by
    obtain same | same := same
    · exact (Fraction.equalsFraction_answered accurate same).1
    · have cross := (Fraction.equalsFraction_answered accurate same).1
      rw [mul_comm, ← cross, mul_comm]
  obtain ⟨numerator, denominator, hashable⟩ := form cross
  obtain rfl : p = q := by
    cases p
    cases q
    cases numerator
    cases denominator
    rfl
  rw [or_self] at same
  exact ⟨rational', same, hashable (Fraction.equalsFraction_answered accurate same).2⟩

end Rationals

section Integers

variable {value : Number} {canonical : Canonical value} {number : Binary64}

/-- Only small integers equal floats. -/
theorem floatEquals_integer_iff (accurate : Accurate log2) :
    floatEquals log2 number (integer value canonical) = some true ↔
      ∃ small, value = .small small ∧ number.equals (Binary64.ofInt small) = true := by
  cases value with
  | small small =>
    constructor
    · intro same
      exact ⟨small, rfl, Option.some.inj same⟩
    · rintro ⟨_, equal, same⟩
      cases equal
      exact congrArg some same
  | large large =>
    refine iff_of_false ?_ (fun ⟨_, same, _⟩ => nomatch same)
    rw [floatEquals, Number.asFloat]
    cases sign : large.negative
    · rw [if_neg Bool.false_ne_true]
      exact fun same => Bool.false_ne_true (Option.some.inj same)
    · obtain ⟨opposite, found, canonical', negated⟩ :=
        Number.negated_exact accurate canonical.operand
      rw [if_pos rfl, found]
      cases opposite with
      | small opposite =>
        have less := LargeInteger.toInt_neg sign
        have wide := canonical.1
        have fits : Fits (-large.toInt) := negated ▸ canonical'
        unfold Fits minimum maximum at wide fits
        omega
      | large opposite => exact fun same => nomatch same

theorem integer_equal_float_iff (accurate : Accurate log2) {finite : number.IsFinite} :
    Equal log2 (integer value canonical) (float number finite) ↔
      ∃ small, value = .small small ∧ (Binary64.ofInt small).equals number = true := by
  refine (@floatEquals_integer_iff log2 value canonical number accurate).trans ?_
  constructor
  · rintro ⟨small, rfl, same⟩
    exact ⟨small, rfl, Binary64.equals_symm same⟩
  · rintro ⟨small, rfl, same⟩
    exact ⟨small, rfl, Binary64.equals_symm same⟩

/-- A float and an integer are compared one way. -/
theorem float_equal_integer {finite : number.IsFinite} :
    Equal log2 (float number finite) (integer value canonical) ↔
      Equal log2 (integer value canonical) (float number finite) :=
  Iff.rfl

end Integers

/-- Equal integers are one. -/
theorem integer_equal_integer {first second : Number} {canonical : Canonical first}
    {canonical' : Canonical second}
    (same : Equal log2 (integer first canonical) (integer second canonical')) : first = second :=
  canonical.ext canonical' ((Number.equals_iff canonical canonical').mp (Option.some.inj same))

theorem integer_equal_self {value : Number} {canonical : Canonical value} :
    Equal log2 (integer value canonical) (integer value canonical) :=
  congrArg some ((Number.equals_iff canonical canonical).mpr rfl)

section Lawful

variable {numbers : Set Numeric} (accurate : Accurate log2)
  (consistent : ∀ a ∈ numbers, ∀ b ∈ numbers, Consistent log2 a b)

include accurate consistent

theorem equal_symmetric {a b : Numeric} (memberA : a ∈ numbers) (memberB : b ∈ numbers)
    (same : Equal log2 a b) : Equal log2 b a := by
  cases rational : a.asRational with
  | some p =>
    obtain ⟨rational', equal, _⟩ :=
      same_rational accurate rational (consistent a memberA b memberB) (.inl same)
    rwa [Equal, equals_rational rational' rational]
  | none =>
    cases rational' : b.asRational with
    | some q =>
      obtain ⟨found, _⟩ :=
        same_rational accurate rational' (consistent b memberB a memberA) (.inr same)
      rw [rational] at found
      cases found
    | none =>
      cases a with
      | fraction value => cases rational
      | scaledDecimal value => cases rational
      | integer value canonical =>
        cases b with
        | fraction value' => cases rational'
        | scaledDecimal value' => cases rational'
        | integer value' canonical' =>
          obtain rfl := integer_equal_integer same
          exact integer_equal_self
        | float number finite => exact same
      | float number finite =>
        cases b with
        | fraction value' => cases rational'
        | scaledDecimal value' => cases rational'
        | integer value canonical => exact same
        | float number' finite' =>
          exact congrArg some (Binary64.equals_symm (Option.some.inj same))

/-- Two integers that are rounded to one float are the same. -/
theorem integers_of_float {first second : Number} {canonical : Canonical first}
    {canonical' : Canonical second} {number : Binary64} {finite : number.IsFinite}
    (memberA : integer first canonical ∈ numbers) (memberB : float number finite ∈ numbers)
    (memberC : integer second canonical' ∈ numbers)
    (same : Equal log2 (integer first canonical) (float number finite))
    (next : Equal log2 (integer second canonical') (float number finite)) : first = second := by
  obtain ⟨value, rfl, rounded⟩ := (integer_equal_float_iff accurate).mp same
  obtain ⟨value', rfl, rounded'⟩ := (integer_equal_float_iff accurate).mp next
  have units := (consistent _ memberA _ memberB rounded).1
  rw [(consistent _ memberC _ memberB rounded').1] at units
  rw [mul_right_cancel₀ Float.one_pos.ne' units]

theorem equal_transitive {a b c : Numeric} (memberA : a ∈ numbers) (memberB : b ∈ numbers)
    (memberC : c ∈ numbers) (same : Equal log2 a b) (next : Equal log2 b c) : Equal log2 a c := by
  have symmetric {x y : Numeric} (memberX : x ∈ numbers) (memberY : y ∈ numbers) :=
    @equal_symmetric log2 numbers accurate consistent x y memberX memberY
  cases rational : b.asRational with
  | some p =>
    obtain ⟨left, equal, _⟩ :=
      same_rational accurate rational (consistent b memberB a memberA) (.inr same)
    obtain ⟨right, _⟩ :=
      same_rational accurate rational (consistent b memberB c memberC) (.inl next)
    rwa [Equal, equals_rational left right]
  | none =>
    have plain {x : Numeric} (member : x ∈ numbers) (equal : Equal log2 x b) :
        x.asRational = none := by
      cases found : x.asRational with
      | none => rfl
      | some p =>
        obtain ⟨rational', _⟩ :=
          same_rational accurate found (consistent x member b memberB) (.inl equal)
        rw [rational] at rational'
        cases rational'
    have plainA := plain memberA same
    have plainC := plain memberC (symmetric memberB memberC next)
    cases b with
    | fraction value => cases rational
    | scaledDecimal value => cases rational
    | integer value canonical =>
      cases a with
      | fraction value' => cases plainA
      | scaledDecimal value' => cases plainA
      | integer value' canonical' =>
        obtain rfl := integer_equal_integer same
        exact next
      | float number finite =>
        cases c with
        | fraction value' => cases plainC
        | scaledDecimal value' => cases plainC
        | integer value' canonical' =>
          obtain rfl := integer_equal_integer next
          exact same
        | float number' finite' =>
          obtain ⟨small, rfl, rounded⟩ :=
            (integer_equal_float_iff accurate).mp (float_equal_integer.mp same)
          obtain ⟨_, equal, rounded'⟩ := (integer_equal_float_iff accurate).mp next
          cases equal
          exact congrArg some (Binary64.equals_trans (Binary64.equals_symm rounded) rounded')
    | float number finite =>
      cases a with
      | fraction value' => cases plainA
      | scaledDecimal value' => cases plainA
      | integer value canonical =>
        cases c with
        | fraction value' => cases plainC
        | scaledDecimal value' => cases plainC
        | integer value' canonical' =>
          obtain rfl := integers_of_float accurate consistent memberA memberB memberC same
            (float_equal_integer.mp next)
          exact integer_equal_self
        | float number' finite' =>
          obtain ⟨small, same, rounded⟩ := (integer_equal_float_iff accurate).mp same
          exact (integer_equal_float_iff accurate).mpr
            ⟨small, same, Binary64.equals_trans rounded (Option.some.inj next)⟩
      | float number' finite' =>
        cases c with
        | fraction value' => cases plainC
        | scaledDecimal value' => cases plainC
        | integer value' canonical' =>
          obtain ⟨small, equal, rounded⟩ :=
            (integer_equal_float_iff accurate).mp (float_equal_integer.mp next)
          exact float_equal_integer.mpr ((integer_equal_float_iff accurate).mpr
            ⟨small, equal, Binary64.equals_trans rounded
              (Binary64.equals_symm (Option.some.inj same))⟩)
        | float number'' finite'' =>
          exact congrArg some (Binary64.equals_trans (Option.some.inj same) (Option.some.inj next))

theorem equal_hashes {a b : Numeric} (memberA : a ∈ numbers) (memberB : b ∈ numbers)
    (same : Equal log2 a b) :
    ∃ hash, a.hash log2 floatHash cast = some hash ∧ b.hash log2 floatHash cast = some hash := by
  cases rational : a.asRational with
  | some p =>
    obtain ⟨rational', _, hashable⟩ :=
      same_rational accurate rational (consistent a memberA b memberB) (.inl same)
    rw [hash_rational rational, hash_rational rational']
    obtain ⟨hash, found⟩ := @fractionHash_answered log2 floatHash p hashable
    exact ⟨hash, found, found⟩
  | none =>
    cases rational' : b.asRational with
    | some q =>
      obtain ⟨found, _⟩ :=
        same_rational accurate rational' (consistent b memberB a memberA) (.inr same)
      rw [rational] at found
      cases found
    | none =>
      cases a with
      | fraction value => cases rational
      | scaledDecimal value => cases rational
      | integer value canonical =>
        cases b with
        | fraction value' => cases rational'
        | scaledDecimal value' => cases rational'
        | integer value' canonical' =>
          obtain rfl := integer_equal_integer same
          exact ⟨_, rfl, rfl⟩
        | float number finite =>
          obtain ⟨small, rfl, rounded⟩ := (integer_equal_float_iff accurate).mp same
          have equal := (@roundsExactly_iff cast small number canonical finite rounded).mp
            (consistent _ memberA _ memberB)
          exact ⟨small, rfl, congrArg some equal⟩
      | float number finite =>
        cases b with
        | fraction value' => cases rational'
        | scaledDecimal value' => cases rational'
        | integer value canonical =>
          obtain ⟨small, rfl, rounded⟩ :=
            (integer_equal_float_iff accurate).mp (float_equal_integer.mp same)
          have equal := (@roundsExactly_iff cast small number canonical finite rounded).mp
            (consistent _ memberB _ memberA)
          exact ⟨small, congrArg some equal, rfl⟩
        | float number' finite' =>
          exact ⟨_, rfl, congrArg some
            (Float.hash_eq_of_equals finite finite' (Option.some.inj same)).symm⟩

end Lawful

end Numeric

end Egg.Arithmetic
