import Egg.Arithmetic.Addition
import Egg.Arithmetic.Bits

/-! Which shifts of large integers are exact. -/
namespace Egg.Arithmetic

open Egg.Data

/-- The floor of the value times a power of two. -/
def scaled (value shift : Int) : Int :=
  if 0 ≤ shift then value * 2 ^ shift.toNat else value / 2 ^ (-shift).toNat

theorem scaled_zero (value : Int) : scaled value 0 = value := by
  rw [scaled, if_pos (Int.le_refl 0), Int.toNat_zero, pow_zero, mul_one]

/-- A number is split into a low digit and the rest. -/
theorem split_digit {total low high : Int} (split : total = low + 65536 * high) (nonneg : 0 ≤ low)
    (small : low < 65536) : total % 65536 = low ∧ total / 65536 = high := by
  lia

theorem bits_pow {count : Nat} (short : count ≤ bits) : 2 ^ (bits - count) * 2 ^ count = base := by
  rw [← pow_add, Nat.sub_add_cancel short]
  rfl

namespace LargeInteger

theorem length_shiftLeftDigits (count carry : Nat) (digits : List UInt16) :
    (shiftLeftDigits count carry digits).length = digits.length := by
  induction digits generalizing carry with
  | nil => rfl
  | cons d digits ih => rw [shiftLeftDigits, List.length_cons, List.length_cons, ih]

theorem length_shiftRightDigits (count carry : Nat) (digits : List UInt16) :
    (shiftRightDigits count carry digits).1.length = digits.length := by
  induction digits with
  | nil => rfl
  | cons sigma digits ih => rw [shiftRightDigits, List.length_cons, List.length_cons, ih]

/-- The digits shifted to the left hold the multiple, with the carry below. -/
theorem holds_shiftLeftDigits {count carry : Nat} {digits : List UInt16} {value : Int}
    (short : count ≤ bits) (small : carry < 2 ^ count) (held : Holds digits value) :
    Holds (shiftLeftDigits count carry digits) (value * 2 ^ count + carry) := by
  induction digits generalizing carry value with
  | nil => trivial
  | cons d digits ih =>
    have power := bits_pow short
    have first : value % 65536 = d.toNat := held.1
    have narrow : d.toNat / 2 ^ (bits - count) < 2 ^ count := by
      apply Nat.div_lt_of_lt_mul
      rw [power]
      exact toNat_lt_base d
    have lower : d.toNat <<< count % base = d.toNat % 2 ^ (bits - count) * 2 ^ count := by
      rw [Nat.shiftLeft_eq, ← power, Nat.mul_mod_mul_right]
    have joined : d.toNat <<< count % base ||| carry =
        d.toNat % 2 ^ (bits - count) * 2 ^ count + carry := by
      rw [lower, Nat.mul_comm, Nat.two_pow_add_eq_or_of_lt small]
    have below : d.toNat % 2 ^ (bits - count) * 2 ^ count + carry < 65536 := by
      have digit : d.toNat % 2 ^ (bits - count) + 1 ≤ 2 ^ (bits - count) :=
        Nat.mod_lt _ (pow_pos (by decide) _)
      have scaled := Nat.mul_le_mul_right (2 ^ count) digit
      rw [power, Nat.add_mul, Nat.one_mul] at scaled
      exact Nat.lt_of_lt_of_le (Nat.add_lt_add_left small _) scaled
    have split : value * 2 ^ count + carry =
        ((d.toNat % 2 ^ (bits - count) * 2 ^ count + carry : Nat) : Int) +
          65536 * (value / 65536 * 2 ^ count + (d.toNat / 2 ^ (bits - count) : Nat)) := by
      have whole := Int.emod_add_mul_ediv value 65536
      have digit : ((d.toNat % 2 ^ (bits - count) : Nat) : Int) +
          2 ^ (bits - count) * (d.toNat / 2 ^ (bits - count) : Nat) = d.toNat := by
        exact_mod_cast Nat.mod_add_div d.toNat (2 ^ (bits - count))
      have product : (2 : Int) ^ (bits - count) * 2 ^ count = 65536 := by
        exact_mod_cast power
      rw [first] at whole
      push_cast
      push_cast at digit
      linear_combination (-2 ^ count) * whole + (-2 ^ count) * digit +
        ((d.toNat : Int) / 2 ^ (bits - count)) * product
    obtain ⟨low, high⟩ := split_digit split (Int.natCast_nonneg _) (by exact_mod_cast below)
    rw [shiftLeftDigits]
    refine ⟨?_, ?_⟩
    · rw [cast_base, low, UInt16.toNat_ofNat', joined, Nat.mod_eq_of_lt below]
    · rw [← Nat.shiftRight_eq_div_pow] at narrow high
      rw [cast_base, high]
      exact ih narrow held.2

/-- The digits shifted to the right hold the quotient where the carry is what comes from above. -/
theorem holds_shiftRightDigits {count carry : Nat} {digits : List UInt16} {value : Int}
    (short : count ≤ bits) (held : Holds digits value)
    (above : (carry : Int) =
      value / (base : Int) ^ digits.length % 2 ^ count * 2 ^ (bits - count)) :
    Holds (shiftRightDigits count carry digits).1 (value / 2 ^ count) ∧
      ((shiftRightDigits count carry digits).2 : Int) = value % 2 ^ count * 2 ^ (bits - count) := by
  induction digits generalizing value with
  | nil =>
    rw [List.length_nil, pow_zero, Int.ediv_one] at above
    exact ⟨trivial, above⟩
  | cons sigma digits ih =>
    have power := bits_pow short
    have product : (2 : Int) ^ (bits - count) * 2 ^ count = 65536 := by
      exact_mod_cast power
    have positive : (0 : Int) < 2 ^ count := pow_pos (by decide) _
    have first : value % 65536 = sigma.toNat := held.1
    rw [List.length_cons, ← Represents.ediv_pow_succ, cast_base] at above
    obtain ⟨rest, carried⟩ := ih held.2 above
    rw [cast_base] at rest carried
    have whole := Int.emod_add_mul_ediv value 65536
    rw [first] at whole
    have sum : value = sigma.toNat + 2 ^ count * (value / 65536 * 2 ^ (bits - count)) := by
      linear_combination -whole - (value / 65536) * product
    -- what comes from the digits above is a multiple, the digit's own bits are below it
    have next : ((shiftRightDigits count carry digits).2 : Int) =
        ((value / 65536 % 2 ^ count).toNat * 2 ^ (bits - count) : Nat) := by
      rw [carried]
      push_cast
      rw [Int.toNat_of_nonneg (Int.emod_nonneg _ positive.ne')]
    have next := Int.ofNat_inj.mp next
    have own : sigma.toNat / 2 ^ count < 2 ^ (bits - count) := by
      apply Nat.div_lt_of_lt_mul
      rw [Nat.mul_comm, power]
      exact toNat_lt_base sigma
    have joined : sigma.toNat >>> count ||| (shiftRightDigits count carry digits).2 =
        (value / 65536 % 2 ^ count).toNat * 2 ^ (bits - count) + sigma.toNat / 2 ^ count := by
      rw [Nat.shiftRight_eq_div_pow, next, Nat.lor_comm, Nat.mul_comm,
        Nat.two_pow_add_eq_or_of_lt own]
    have top : (value / 65536 % 2 ^ count).toNat < 2 ^ count := by
      have less := Int.emod_lt_of_pos (value / 65536) positive
      have nonneg := Int.emod_nonneg (value / 65536) positive.ne'
      have cast : ((2 ^ count : Nat) : Int) = 2 ^ count := by norm_cast
      lia
    have below : (value / 65536 % 2 ^ count).toNat * 2 ^ (bits - count) +
        sigma.toNat / 2 ^ count < 65536 := by
      have scaled := Nat.mul_le_mul_right (2 ^ (bits - count)) (show _ + 1 ≤ _ from top)
      rw [Nat.mul_comm (2 ^ count), power, Nat.add_mul, Nat.one_mul] at scaled
      exact Nat.lt_of_lt_of_le (Nat.add_lt_add_left own _) scaled
    have quotient : value / 2 ^ count =
        value / 65536 * 2 ^ (bits - count) + (sigma.toNat / 2 ^ count : Nat) := by
      calc value / 2 ^ count
          = (sigma.toNat + 2 ^ count * (value / 65536 * 2 ^ (bits - count))) / 2 ^ count := by
            rw [← sum]
        _ = _ := by
            rw [Int.add_mul_ediv_left _ _ positive.ne', add_comm]
            push_cast
            rfl
    have split : value / 2 ^ count =
        (((value / 65536 % 2 ^ count).toNat * 2 ^ (bits - count) + sigma.toNat / 2 ^ count : Nat) :
          Int) + 65536 * (value / 65536 / 2 ^ count) := by
      have upper := Int.emod_add_mul_ediv (value / 65536) (2 ^ count)
      rw [quotient]
      push_cast
      rw [Int.toNat_of_nonneg (Int.emod_nonneg _ positive.ne')]
      linear_combination (-2 ^ (bits - count)) * upper +
        (value / 65536 / 2 ^ count) * product
    obtain ⟨low, high⟩ := split_digit split (Int.natCast_nonneg _) (by exact_mod_cast below)
    rw [shiftRightDigits]
    refine ⟨⟨?_, ?_⟩, ?_⟩
    · rw [cast_base, low, UInt16.toNat_ofNat', joined, Nat.mod_eq_of_lt below]
    · rw [cast_base, high]
      exact rest
    · have lower : sigma.toNat <<< (bits - count) % base =
          sigma.toNat % 2 ^ count * 2 ^ (bits - count) := by
        rw [Nat.shiftLeft_eq, ← power, Nat.mul_comm (2 ^ (bits - count)), Nat.mul_mod_mul_right]
      have same : value % 2 ^ count = sigma.toNat % 2 ^ count := by
        rw [sum, Int.add_mul_emod_self_left]
      rw [lower, same]
      push_cast
      rfl

theorem length_new (negative : Bool) (bytes : Int) :
    (new negative bytes).nbDigits = ((bytes + 1) / 2).toNat := by
  rw [nbDigits, new, List.length_replicate]
  unfold digitLength
  lia

theorem ofNat_wideDigitAt (self : LargeInteger) (index : Nat) :
    (UInt16.ofNat (self.wideDigitAt index)).toNat = self.wideDigitAt index := by
  rw [UInt16.toNat_ofNat']
  exact Nat.mod_eq_of_lt (self.wideDigitAt_lt index)

/-- Digits copied from the given one on hold the quotient. -/
theorem holds_copied_right (self : LargeInteger) (count q : Nat) :
    Holds ((List.range count).map fun i => UInt16.ofNat (self.wideDigitAt (i + q + 1)))
      (self.toInt / (base : Int) ^ q) := by
  refine Represents.of_getElem fun index inside => ?_
  rw [List.getElem_map, List.getElem_map, List.getElem_range, ofNat_wideDigitAt, wideDigitAt_eq,
    Int.ediv_ediv_of_nonneg (base_pow_pos q).le, ← pow_add, Nat.add_comm q]

/-- Digits copied above zeros hold the multiple. -/
theorem holds_copied_left (self : LargeInteger) (count q : Nat) :
    Holds ((List.range count).map fun i =>
        if q ≤ i then UInt16.ofNat (self.wideDigitAt (i - q + 1)) else 0)
      (self.toInt * (base : Int) ^ q) := by
  refine Represents.of_getElem fun index inside => ?_
  rw [List.getElem_map, List.getElem_map, List.getElem_range]
  by_cases above : q ≤ index
  · have power : (base : Int) ^ index = (base : Int) ^ q * (base : Int) ^ (index - q) := by
      rw [← pow_add, Nat.add_sub_cancel' above]
    rw [if_pos above, ofNat_wideDigitAt, wideDigitAt_eq, power,
      ← Int.ediv_ediv_of_nonneg (base_pow_pos q).le, Int.mul_ediv_cancel _ (base_pow_pos q).ne']
  · have power : (base : Int) ^ q = (base : Int) ^ (q - index - 1) * base * (base : Int) ^ index := by
      rw [← pow_succ, ← pow_add]
      congr 1
      lia
    rw [if_neg above, power, ← mul_assoc, Int.mul_ediv_cancel _ (base_pow_pos index).ne',
      ← mul_assoc, Int.mul_emod_left]
    rfl

section Shifts

variable {log2 : Nat → Int} {self : LargeInteger} {delta : Int}

/-- The digits of the result are those that its bits take. -/
theorem shifted_digits (negative : Bool) {bitCount : Int} (some : 0 < bitCount) : ∃ m : Nat,
    (new negative (((bitCount + 3) / 4 + bits / 4 - 1) / (bits / 4) * digitLength)).nbDigits = m ∧
      bitCount ≤ m * bits ∧ m * bits < bitCount + bits := by
  refine ⟨_, rfl, ?_⟩
  rw [length_new]
  unfold bits digitLength
  lia

theorem bitShift_left (positive : 0 < delta) : ∃ digits : List UInt16,
    self.bitShift log2 delta = reduced log2 ⟨self.negative, digits⟩ ∧
      self.nbDigits * bits + delta ≤ digits.length * bits ∧
      Holds digits (self.toInt * 2 ^ delta.toNat) := by
  have room : 0 < self.nbDigits * bits + delta := by
    have nonneg : (0 : Int) ≤ self.nbDigits * bits := by positivity
    lia
  obtain ⟨m, length, enough, _⟩ := shifted_digits self.negative room
  have copied := self.holds_copied_left m (delta.natAbs / bits)
  have parts : (2 : Int) ^ delta.toNat =
      (base : Int) ^ (delta.natAbs / bits) * 2 ^ (delta.natAbs % bits) := by
    rw [show ((base : Nat) : Int) = 2 ^ bits from rfl, ← pow_mul, ← pow_add, Nat.div_add_mod]
    congr 1
    lia
  rw [bitShift, if_neg positive.ne', if_neg (not_le.mpr room)]
  simp only [length, if_pos positive.le]
  refine ⟨_, rfl, ?_⟩
  by_cases rest : 0 < delta.natAbs % bits
  · have held := holds_shiftLeftDigits (Nat.mod_lt delta.natAbs (show 0 < bits by decide)).le
      (Nat.two_pow_pos (delta.natAbs % bits)) copied
    rw [Nat.cast_zero, add_zero, mul_assoc, ← parts] at held
    rw [if_pos rest]
    refine ⟨?_, held⟩
    rw [length_shiftLeftDigits, List.length_map, List.length_range]
    exact enough
  · rw [show delta.natAbs % bits = 0 by lia, pow_zero, mul_one] at parts
    rw [if_neg rest, parts]
    refine ⟨?_, copied⟩
    rw [List.length_map, List.length_range]
    exact enough

theorem bitShift_right (less : delta < 0) (room : 0 < self.nbDigits * bits + delta) :
    ∃ digits : List UInt16,
      self.bitShift log2 delta = (do
        let result ← reduced log2 ⟨self.negative, digits⟩
        if self.negative ∧ result = .small 0 then some (.small (-1)) else some result) ∧
      digits.length + delta.natAbs / bits = self.nbDigits ∧
      Holds digits (self.toInt / 2 ^ (-delta).toNat) := by
  obtain ⟨m, length, enough, most⟩ := shifted_digits self.negative room
  have copied := self.holds_copied_right m (delta.natAbs / bits)
  have count : m + delta.natAbs / bits = self.nbDigits := by
    unfold bits at *
    lia
  have parts : (2 : Int) ^ (-delta).toNat =
      (base : Int) ^ (delta.natAbs / bits) * 2 ^ (delta.natAbs % bits) := by
    rw [show ((base : Nat) : Int) = 2 ^ bits from rfl, ← pow_mul, ← pow_add, Nat.div_add_mod]
    congr 1
    lia
  rw [bitShift, if_neg less.ne, if_neg (not_le.mpr room)]
  simp only [length, if_neg (not_le.mpr less)]
  refine ⟨_, rfl, ?_⟩
  by_cases rest : 0 < delta.natAbs % bits
  · have short : delta.natAbs % bits ≤ bits := (Nat.mod_lt _ (show 0 < bits by decide)).le
    have carry : ((if self.negative then base - 2 ^ (bits - delta.natAbs % bits) else 0 : Nat) : Int) =
        self.toInt / (base : Int) ^ (delta.natAbs / bits) / (base : Int) ^ m %
          2 ^ (delta.natAbs % bits) * 2 ^ (bits - delta.natAbs % bits) := by
      rw [Int.ediv_ediv_of_nonneg (base_pow_pos _).le, ← pow_add, Nat.add_comm, count,
        self.within_toInt.ediv (Nat.le_refl _)]
      have power := bits_pow short
      split
      · have all : (-1 : Int) % 2 ^ (delta.natAbs % bits) = 2 ^ (delta.natAbs % bits) - 1 := by
          have positive : (0 : Int) < 2 ^ (delta.natAbs % bits) := pow_pos (by decide) _
          rw [← Int.add_emod_right, Int.emod_eq_of_lt (by lia) (by lia), Int.sub_eq_add_neg,
            Int.add_comm]
        have least : 2 ^ (bits - delta.natAbs % bits) ≤ base := by
          rw [← power]
          exact Nat.le_mul_of_pos_right _ (Nat.two_pow_pos _)
        rw [all, Nat.cast_sub least, ← power]
        push_cast
        ring
      · rw [Int.zero_emod, zero_mul]
        rfl
    have held := (holds_shiftRightDigits short copied
      (by rw [List.length_map, List.length_range]; exact carry)).1
    rw [Int.ediv_ediv_of_nonneg (base_pow_pos _).le, ← parts] at held
    rw [if_pos rest]
    refine ⟨?_, held⟩
    rw [length_shiftRightDigits, List.length_map, List.length_range]
    exact count
  · rw [show delta.natAbs % bits = 0 by lia, pow_zero, mul_one] at parts
    rw [if_neg rest, parts]
    refine ⟨?_, copied⟩
    rw [List.length_map, List.length_range]
    exact count

/-- A shift to the left keeps the sign and the room for it. -/
theorem within_left {negative : Bool} {n m : Nat} {value : Int} {count : Nat}
    (within : Within negative n value) (enough : n * bits + count ≤ m * bits) :
    Within negative m (value * 2 ^ count) ∧
      (-(base : Int) ^ n ≤ 2 * value → -(base : Int) ^ m ≤ 2 * (value * 2 ^ count)) := by
  have positive : (0 : Int) < 2 ^ count := pow_pos (by decide) _
  have power : (base : Int) ^ n * 2 ^ count ≤ (base : Int) ^ m := by
    rw [show ((base : Nat) : Int) = 2 ^ bits from rfl, ← pow_mul, ← pow_mul, ← pow_add]
    apply pow_le_pow_right₀ (by decide)
    rw [Nat.mul_comm bits, Nat.mul_comm bits]
    exact enough
  have signed (least : -(base : Int) ^ n ≤ 2 * value) :
      -(base : Int) ^ m ≤ 2 * (value * 2 ^ count) := by
    have scaled := mul_le_mul_of_nonneg_right least positive.le
    rw [neg_mul, mul_assoc] at scaled
    lia
  refine ⟨?_, signed⟩
  rw [Within] at *
  split at within
  · rw [if_pos (by assumption)]
    refine ⟨?_, mul_neg_of_neg_of_pos within.2 positive⟩
    have scaled := mul_le_mul_of_nonneg_right within.1 positive.le
    rw [neg_mul] at scaled
    lia
  · rw [if_neg (by assumption)]
    refine ⟨mul_nonneg within.1 positive.le, ?_⟩
    have scaled := mul_lt_mul_of_pos_right within.2 positive
    lia

/-- A shift to the right keeps them in the digits that are left. -/
theorem within_right {negative : Bool} {m q : Nat} {value : Int} {count : Nat}
    (within : Within negative (m + q) value) (some : 0 < m)
    (signed : negative = true → -(base : Int) ^ (m + q) ≤ 2 * value)
    (most : q * bits ≤ count) :
    Within negative m (value / 2 ^ count) ∧
      (negative = true → -(base : Int) ^ m ≤ 2 * (value / 2 ^ count)) := by
  have positive : (0 : Int) < 2 ^ count := pow_pos (by decide) _
  have power : (base : Int) ^ q ≤ 2 ^ count := by
    rw [show ((base : Nat) : Int) = 2 ^ bits from rfl, ← pow_mul, Nat.mul_comm]
    exact pow_le_pow_right₀ (by decide) most
  obtain ⟨n, rfl⟩ : ∃ n, m = n + 1 := ⟨m - 1, by lia⟩
  have digit := base_pow_succ n
  have least := base_pow_pos n
  rw [pow_add] at signed
  rw [Within, pow_add] at within
  rw [Within]
  split at within
  · have half : -(32768 * (base : Int) ^ n) ≤ value / 2 ^ count := by
      rw [Int.le_ediv_iff_mul_le positive]
      have large := signed (by assumption)
      rw [digit] at large
      have scaled := mul_le_mul_of_nonneg_left power (show 0 ≤ 32768 * (base : Int) ^ n by lia)
      rw [neg_mul]
      linarith
    have below : value / 2 ^ count < 0 := Int.ediv_neg_of_neg_of_pos within.2 positive
    rw [if_pos (by assumption)]
    exact ⟨⟨by lia, below⟩, fun _ => by lia⟩
  · rw [if_neg (by assumption)]
    refine ⟨⟨Int.ediv_nonneg within.1 positive.le, ?_⟩, fun negative => absurd negative (by assumption)⟩
    rw [Int.ediv_lt_iff_lt_mul positive]
    have scaled := mul_le_mul_of_nonneg_left power (base_pow_pos (n + 1)).le
    linarith

/-- Where nothing is left of the digits there is the sign only. -/
theorem within_past {negative : Bool} {n : Nat} {value : Int} {count : Nat}
    (within : Within negative n value) (past : n * bits ≤ count) :
    value / 2 ^ count = if negative then -1 else 0 := by
  have power : (base : Int) ^ n ≤ 2 ^ count := by
    rw [show ((base : Nat) : Int) = 2 ^ bits from rfl, ← pow_mul, Nat.mul_comm]
    exact pow_le_pow_right₀ (by decide) past
  have positive : (0 : Int) < 2 ^ count := pow_pos (by decide) _
  rw [Within] at within
  split at within
  · rw [if_pos (by assumption), Int.ediv_eq_iff_of_pos positive]
    lia
  · rw [if_neg (by assumption)]
    exact Int.ediv_eq_zero_of_lt within.1 (by lia)

/-- The shift of a large integer is exact, but a negative one of which no bit is left. -/
theorem bitShift_exact_iff (accurate : Accurate log2) (canonical : Canonical (.large self)) :
    Exact (self.bitShift log2 delta) (scaled self.toInt delta) ↔
      ¬ (self.negative = true ∧ self.nbDigits * bits + delta ≤ 0) := by
  obtain ⟨size, signed⟩ := canonical.operand
  have within := self.within_toInt
  rcases lt_trichotomy delta 0 with less | rfl | positive
  · rw [scaled, if_neg (not_le.mpr less)]
    by_cases room : 0 < self.nbDigits * bits + delta
    · obtain ⟨digits, same, count, held⟩ := @bitShift_right log2 self delta less room
      have some : 0 < digits.length := by
        unfold bits at *
        lia
      rw [← count] at within signed
      obtain ⟨inside, least⟩ := @within_right _ _ _ _ (-delta).toNat within some signed (by
        unfold bits
        lia)
      have value : (⟨self.negative, digits⟩ : LargeInteger).toInt =
          self.toInt / 2 ^ (-delta).toNat := toInt_eq held inside
      obtain ⟨result, found, reduced, exact⟩ := @reduced_exact ⟨self.negative, digits⟩ log2 accurate
        some (fun negative => value.symm ▸ least negative)
      rw [same, found]
      refine iff_of_true ⟨result, ?_, reduced, exact.trans value⟩ fun past => not_le.mpr room past.2
      refine if_neg ?_
      rintro ⟨negative, rfl⟩
      rw [value] at exact
      rw [Within, if_pos negative] at inside
      exact inside.2.ne exact.symm
    · have nothing := within_past within (show self.nbDigits * bits ≤ (-delta).toNat by
        unfold bits at *
        lia)
      rw [bitShift, if_neg less.ne, if_pos (not_lt.mp room), nothing]
      by_cases negative : self.negative = true
      · refine iff_of_false ?_ (fun right => right ⟨negative, not_lt.mp room⟩)
        rw [if_pos negative]
        intro exact
        have zero := exact.unique (exact_small (show Fits 0 by decide))
        lia
      · rw [if_neg negative]
        exact iff_of_true (exact_small (by decide)) fun past => negative past.1
  · rw [bitShift, if_pos rfl, scaled_zero]
    refine iff_of_true ⟨_, rfl, canonical, rfl⟩ ?_
    unfold bits
    lia
  · obtain ⟨digits, same, enough, held⟩ := @bitShift_left log2 self delta positive
    have enough : self.nbDigits * bits + delta.toNat ≤ digits.length * bits := by
      unfold bits at *
      lia
    obtain ⟨inside, least⟩ := within_left within enough
    have value : (⟨self.negative, digits⟩ : LargeInteger).toInt = self.toInt * 2 ^ delta.toNat :=
      toInt_eq held inside
    have exact := @reduced_exact ⟨self.negative, digits⟩ log2 accurate
      (show 1 ≤ digits.length by unfold bits at *; lia)
      (fun negative => value.symm ▸ least (signed negative))
    rw [same, scaled, if_pos positive.le, ← value]
    refine iff_of_true exact ?_
    unfold bits
    lia

end Shifts

end LargeInteger

end Egg.Arithmetic
