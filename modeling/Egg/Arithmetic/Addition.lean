import Egg.Arithmetic.Reduced

/-! Addition and negation are exact. -/
namespace Egg.Arithmetic

open Egg.Data

/-- What the operations take: at least four digits, and the sign bit in a negative integer. -/
def Operand : Number → Prop
  | .small value => Fits value
  | .large integer => 4 ≤ integer.nbDigits ∧
    (integer.negative = true → -(base : Int) ^ integer.nbDigits ≤ 2 * integer.toInt)

theorem Canonical.operand {number : Number} (canonical : Canonical number) : Operand number := by
  cases number with
  | small value => exact canonical
  | large integer =>
    obtain ⟨wide, takes⟩ := canonical
    rw [Takes] at takes
    refine ⟨?_, fun negative => ?_⟩
    · by_contra short
      have smaller := @base_pow_le integer.nbDigits 3 (by lia)
      have three : (base : Int) ^ 3 = 2 ^ 48 := rfl
      unfold Fits minimum maximum at wide
      split at takes <;> lia
    · rw [if_pos negative] at takes
      exact takes.1

/-- An answer is exact for one integer only. -/
theorem Exact.unique {answer : Option Number} {value other : Int} (exact : Exact answer value)
    (also : Exact answer other) : value = other := by
  obtain ⟨result, found, _, rfl⟩ := exact
  obtain ⟨result', found', _, rfl⟩ := also
  cases found.symm.trans found'
  rfl

theorem Number.byteAt_lt (self : Number) (index : Nat) : self.byteAt index < 256 := by
  cases self with
  | small value =>
    rw [byteAt, smallIntegerByteAt]
    split <;> lia
  | large integer =>
    have small : integer.wideDigitAt ((index + 1) / 2) < 65536 := integer.wideDigitAt_lt _
    rw [byteAt, LargeInteger.byteAt]
    split <;> lia

namespace LargeInteger

variable {log2 : Nat → Int} {self : LargeInteger}

theorem join_bytes {high low : Nat} (highSmall : high < 256) (lowSmall : low < 256) :
    (UInt16.ofNat (high * 256 + low)).toNat = high * 256 + low := by
  rw [UInt16.toNat_ofNat']
  lia

theorem byteAt_low (index : Nat) :
    self.byteAt (2 * index + 1) = self.wideDigitAt (index + 1) % 256 := by
  rw [byteAt, if_pos (by lia), show (2 * index + 1 + 1) / 2 = index + 1 by lia]

theorem byteAt_high (index : Nat) :
    self.byteAt (2 * index + 2) = self.wideDigitAt (index + 1) / 256 := by
  rw [byteAt, if_neg (by lia), show (2 * index + 2 + 1) / 2 = index + 1 by lia]

theorem from_length (other : Number) : (self.from log2 other).digits.length = self.digits.length :=
  List.length_mapIdx

/-- The bytes of a digit after a replacement. -/
theorem from_digit {other : Number} {n : Int}
    (count : min (self.sizeInBytes : Int) (other.sizeInBytes log2) = n) (index : Nat)
    (inside : index < (self.from log2 other).digits.length) {inside' : index < self.digits.length}
    {digit : UInt16} (before : self.digits[index] = digit) :
    ((self.from log2 other).digits[index]).toNat =
      (if (2 * index + 2 : Nat) ≤ n then other.byteAt (2 * index + 2) else digit.toNat / 256) * 256 +
      (if (2 * index + 1 : Nat) ≤ n then other.byteAt (2 * index + 1) else digit.toNat % 256) := by
  subst before
  have digit := self.digits[index].toNat_lt
  have first := other.byteAt_lt (2 * index + 1)
  have second := other.byteAt_lt (2 * index + 2)
  subst count
  simp only [LargeInteger.from, List.getElem_mapIdx]
  refine join_bytes ?_ ?_
  · split <;> lia
  · split <;> lia

/-- A large integer with the digits that the copy has before the bytes are replaced. -/
theorem copyOfSize_eq (n : Int) : ∃ copy : LargeInteger,
    self.copyOfSize log2 n = copy.from log2 (.large self) ∧ copy.negative = false ∧
      copy.digits.length = ((n + 1) / 2).toNat ∧
      ∀ index (inside : index < copy.digits.length), self.nbDigits ≤ index →
        copy.digits[index] = sign self.negative := by
  have size : ((n + digitLength - 1) / digitLength).toNat = ((n + 1) / 2).toNat := by
    unfold digitLength
    lia
  by_cases negative : self.negative = true
  · refine ⟨_, by rw [copyOfSize, if_pos negative], rfl, ?_, fun index inside beyond => ?_⟩
    · rw [List.length_mapIdx, new, List.length_replicate, size]
    · simp only [List.getElem_mapIdx]
      rw [if_pos beyond, sign, if_pos negative]
  · refine ⟨_, by rw [copyOfSize, if_neg negative], rfl, ?_, fun index inside beyond => ?_⟩
    · rw [new, List.length_replicate, size]
    · simp only [new, List.getElem_replicate]
      rw [sign, if_neg (by decide), sign, if_neg negative]

theorem copyOfSize_length (n : Int) :
    (self.copyOfSize log2 n).digits.length = ((n + 1) / 2).toNat := by
  obtain ⟨copy, same, _, length, _⟩ := @copyOfSize_eq log2 self n
  rw [same, from_length, length]

theorem copyOfSize_negative (n : Int) : (self.copyOfSize log2 n).negative = false := by
  obtain ⟨copy, same, positive, _⟩ := @copyOfSize_eq log2 self n
  rw [same]
  exact positive

/-- A copy has the digits of the integer, also beyond its size. -/
theorem copyOfSize_digit {n : Int} (size : self.sizeInBytes ≤ n) (index : Nat)
    (inside : index < (self.copyOfSize log2 n).digits.length) :
    ((self.copyOfSize log2 n).digits[index]).toNat = self.wideDigitAt (index + 1) := by
  obtain ⟨copy, same, _, length, beyond⟩ := @copyOfSize_eq log2 self n
  have inside' : index < copy.digits.length := by
    rw [same, from_length] at inside
    exact inside
  have count : min (copy.sizeInBytes : Int) ((Number.large self).sizeInBytes log2) =
      (2 * self.nbDigits : Nat) := by
    rw [Number.sizeInBytes, sizeInBytes, nbDigits, length]
    unfold sizeInBytes digitLength at *
    lia
  simp only [same]
  rw [from_digit count index (same ▸ inside) (show copy.digits[index] = _ from rfl)]
  rcases Nat.lt_or_ge index self.nbDigits with below | above
  · have low := @byteAt_low self index
    have high := @byteAt_high self index
    rw [if_pos (by lia), if_pos (by lia), Number.byteAt, Number.byteAt, low, high]
    lia
  · have fill := beyond index inside' above
    have none : self.digits.getD (index + 1 - 1) (sign self.negative) = sign self.negative := by
      rw [List.getD_eq_getElem?_getD, List.getElem?_eq_none (by rw [nbDigits] at above; lia),
        Option.getD_none]
    rw [if_neg (by lia), if_neg (by lia), fill, wideDigitAt, none]
    lia

theorem holds_copyOfSize {n : Int} (size : self.sizeInBytes ≤ n) :
    Holds (self.copyOfSize log2 n).digits self.toInt := by
  refine Represents.of_getElem fun index inside => ?_
  rw [List.length_map] at inside
  rw [List.getElem_map, copyOfSize_digit size index inside]
  exact (self.wideDigitAt_eq index).symm

/-- The carry loop adds. -/
theorem holds_plusDigits {number : Number} {digits : List UInt16} {value other : Int}
    {index carry : Nat} (held : Holds digits value)
    (digit : ∀ offset, (number.wideDigitAt (index + offset) : Int) =
      other / (base : Int) ^ offset % base) (bit : carry ≤ 1) :
    Holds (plusDigits number digits index carry) (value + other + carry) := by
  induction digits generalizing value other index carry with
  | nil => trivial
  | cons first digits ih =>
    obtain ⟨low, rest⟩ := held
    have low : value % 65536 = first.toNat := low
    have next := digit 0
    rw [Nat.add_zero, pow_zero, Int.ediv_one, cast_base] at next
    have small := first.toNat_lt
    have less : (other % 65536 : Int) < 65536 := Int.emod_lt_of_pos _ (by decide)
    have positive : (0 : Int) ≤ other % 65536 := Int.emod_nonneg _ (by decide)
    rw [plusDigits]
    refine ⟨?_, ?_⟩
    · show (value + other + carry) % 65536 = _
      rw [UInt16.toNat_ofNat']
      lia
    · have carried : (value + other + carry) / (base : Int) = value / (base : Int) +
          other / (base : Int) + ((if base ≤ first.toNat + (number.wideDigitAt index + carry) then 1
            else 0 : Nat) : Int) := by
        have bound : base = 65536 := rfl
        rw [cast_base, bound]
        split <;> lia
      rw [carried]
      refine ih rest (fun offset => ?_) (by split <;> lia)
      rw [Represents.ediv_pow_succ, Nat.add_assoc, Nat.add_comm 1]
      exact digit (offset + 1)

theorem plusDigits_length (number : Number) (digits : List UInt16) (index carry : Nat) :
    (plusDigits number digits index carry).length = digits.length := by
  induction digits generalizing index carry with
  | nil => rfl
  | cons digit digits ih => rw [plusDigits, List.length_cons, ih, List.length_cons]

theorem highWideDigit_eq {value : Int} {n : Nat} (held : Holds self.digits value)
    (size : self.nbDigits = n + 1) :
    (self.highWideDigit : Int) = value / (base : Int) ^ n % 65536 := by
  have inside : n < self.digits.length := by
    rw [← nbDigits, size]
    exact Nat.lt_succ_self n
  rw [highWideDigit, wideDigitAt, size, Nat.add_sub_cancel, List.getD_eq_getElem?_getD,
    List.getElem?_eq_getElem inside, Option.getD_some]
  exact held.getElem n inside

theorem highWideDigit_lt (self : LargeInteger) : self.highWideDigit < base :=
  self.wideDigitAt_lt _

theorem xor_mask (digit : UInt16) : (digit ^^^ 0xFFFF).toNat = base - 1 - digit.toNat := by
  have inverse : digit ^^^ 0xFFFF = ~~~digit := UInt16.xor_neg_one
  rw [inverse, UInt16.toNat_not]
  rfl

theorem holds_inverted : Holds (self.digits.map (· ^^^ 0xFFFF)) (-self.toInt - 1) := by
  have complement := Represents.complement (by decide) self.holds_toInt
  have same : (self.digits.map (· ^^^ 0xFFFF)).map UInt16.toNat =
      (self.digits.map UInt16.toNat).map (base - 1 - ·) := by
    rw [List.map_map, List.map_map]
    exact List.map_congr_left fun digit _ => xor_mask digit
  rw [Holds, same]
  exact complement

/-- The inverted digits of a positive integer, with the sign above them. -/
theorem holds_inverted_append (positive : self.negative = false) (count : Nat) :
    Holds (self.digits.map (· ^^^ 0xFFFF) ++ List.replicate count 0xFFFF) (-self.toInt - 1) := by
  have within := self.within_toInt
  have power := base_pow_pos self.nbDigits
  rw [Within, if_neg (by simp [positive])] at within
  have above : (-self.toInt - 1) / (base : Int) ^ self.nbDigits = -1 := by
    rw [Int.ediv_eq_iff_of_pos power]
    lia
  rw [Holds, List.map_append]
  refine Represents.append holds_inverted ?_
  rw [List.length_map, List.length_map, ← nbDigits, above, List.map_replicate]
  exact Represents.replicate_top (by decide) count

section Signs

variable (accurate : Accurate log2)

include accurate

/-- The sign bit of digits that hold an integer with room for it. -/
theorem highBit_iff_neg {value : Int} (held : Holds self.digits value) (size : 1 ≤ self.nbDigits)
    (lower : -(base : Int) ^ self.nbDigits ≤ 2 * value)
    (upper : 2 * value < (base : Int) ^ self.nbDigits) :
    highBit log2 self.highWideDigit = bits ↔ value < 0 := by
  obtain ⟨n, count⟩ : ∃ n, self.nbDigits = n + 1 := ⟨self.nbDigits - 1, by lia⟩
  have digit := highWideDigit_eq held count
  have positive := base_pow_pos n
  rw [count, base_pow_succ] at lower upper
  have least : -32768 ≤ value / (base : Int) ^ n := by
    rw [le_ediv_base_pow]
    lia
  have most : value / (base : Int) ^ n < 32768 := by
    rw [ediv_base_pow_lt]
    lia
  have sign : value / (base : Int) ^ n < 0 ↔ value < 0 := by
    rw [ediv_base_pow_lt, zero_mul]
  rw [highBit_eq_bits accurate self.highWideDigit_lt, ← sign]
  lia

theorem highBit_iff_large (positive : self.negative = false) (size : 1 ≤ self.nbDigits) :
    highBit log2 self.highWideDigit = bits ↔ (base : Int) ^ self.nbDigits ≤ 2 * self.toInt := by
  obtain ⟨n, count⟩ : ∃ n, self.nbDigits = n + 1 := ⟨self.nbDigits - 1, by lia⟩
  have within := self.within_toInt
  rw [Within, if_neg (by simp [positive]), count] at within
  have top := top_of_nonneg within.1 within.2
  have half : (base : Int) ^ (n + 1) ≤ 2 * self.toInt ↔
      32768 ≤ self.toInt / (base : Int) ^ n := by
    rw [le_ediv_base_pow, base_pow_succ]
    lia
  rw [highBit_eq_bits accurate self.highWideDigit_lt, highWideDigit, count, half]
  lia

theorem primitiveSMISize_le {value : Int} (fits : Fits value) (nonzero : value ≠ 0) :
    primitiveSMISize log2 value ≤ 8 := by
  rw [primitiveSMISize]
  split
  · decide
  · unfold Fits minimum maximum at fits
    have bound := (accurate.bounded value.toNat (by lia) (by lia)).2
    have log := @Nat.log2_lt value.toNat 62 (by lia)
    lia

/-- The larger of the operands' sizes, and what the sign bits say about the operands. -/
theorem size_room {number : Number} (operand : Operand (.large self)) (argument : Operand number)
    (nonzero : number ≠ .small 0) :
    ∃ count : Nat, max (self.sizeInBytes : Int) (number.sizeInBytes log2) = 2 * count ∧
      self.nbDigits ≤ count ∧
      (-(base : Int) ^ count ≤ self.toInt ∧ self.toInt < (base : Int) ^ count) ∧
      (self.toInt < 0 → -(base : Int) ^ count ≤ 2 * self.toInt) ∧
      (0 ≤ self.toInt → highBit log2 self.highWideDigit ≠ bits →
        2 * self.toInt < (base : Int) ^ count) ∧
      (-(base : Int) ^ count ≤ number.toInt ∧ number.toInt < (base : Int) ^ count) ∧
      (highBit log2 (number.highWideDigit log2) ≠ bits →
        -(base : Int) ^ count ≤ 2 * number.toInt ∧ 2 * number.toInt < (base : Int) ^ count) := by
  obtain ⟨size, signed⟩ := operand
  have within := self.within_toInt
  have bytes : (self.sizeInBytes : Int) = 2 * self.nbDigits := by
    unfold sizeInBytes digitLength
    lia
  have own : (-(base : Int) ^ self.nbDigits ≤ self.toInt ∧
      self.toInt < (base : Int) ^ self.nbDigits) ∧
      (self.toInt < 0 → -(base : Int) ^ self.nbDigits ≤ 2 * self.toInt) ∧
      (0 ≤ self.toInt → highBit log2 self.highWideDigit ≠ bits →
        2 * self.toInt < (base : Int) ^ self.nbDigits) := by
    have power := base_pow_pos self.nbDigits
    have negative := self.negative_iff
    rw [Within] at within
    refine ⟨by split at within <;> lia, fun less => signed (negative.mpr less),
      fun nonneg low => ?_⟩
    have positive : self.negative = false := by
      by_contra other
      have less := negative.mp (by simpa using other)
      lia
    have high := highBit_iff_large accurate positive (by lia)
    lia
  cases number with
  | small value =>
    have fits : Fits value := argument
    have eight := primitiveSMISize_le accurate fits (fun zero => nonzero (zero ▸ rfl))
    have four : (base : Int) ^ 4 = 2 ^ 64 := rfl
    have larger := @base_pow_le 4 self.nbDigits size
    rw [four] at larger
    unfold Fits minimum maximum at fits
    refine ⟨self.nbDigits, ?_, Nat.le_refl _, own.1, own.2.1, own.2.2, ?_, fun _ => ?_⟩
    · rw [Number.sizeInBytes]
      lia
    · rw [Number.toInt]
      lia
    · rw [Number.toInt]
      lia
  | large integer =>
    have withinOther := integer.within_toInt
    obtain ⟨sizeOther, signedOther⟩ := argument
    have bytesOther : (integer.sizeInBytes : Int) = 2 * integer.nbDigits := by
      unfold sizeInBytes digitLength
      lia
    have first := base_pow_le (Nat.le_max_left self.nbDigits integer.nbDigits)
    have second := base_pow_le (Nat.le_max_right self.nbDigits integer.nbDigits)
    have power := base_pow_pos integer.nbDigits
    rw [Within] at withinOther
    refine ⟨max self.nbDigits integer.nbDigits, ?_, Nat.le_max_left _ _, ?_, ?_, ?_, ?_, ?_⟩
    · rw [Number.sizeInBytes]
      lia
    · lia
    · intro less
      have := own.2.1 less
      lia
    · intro nonneg low
      have := own.2.2 nonneg low
      lia
    · rw [Number.toInt]
      split at withinOther <;> lia
    · intro low
      rw [Number.toInt]
      split at withinOther
      · next negative =>
        have lower := signedOther negative
        have high := highBit_iff_neg accurate integer.holds_toInt (by lia) lower (by lia)
        exact absurd (high.mpr withinOther.2) low
      · next negative =>
        have high := highBit_iff_large accurate (by simpa using negative) (by lia)
        rw [Number.highWideDigit] at low
        lia

/-- The size for a sum has room for it and its sign bit. -/
theorem sizeOfSum_room {number : Number} (operand : Operand (.large self))
    (argument : Operand number) (nonzero : number ≠ .small 0) :
    ∃ count : Nat, self.sizeOfSum log2 number = 2 * count ∧ self.nbDigits ≤ count ∧
      -(base : Int) ^ count ≤ 2 * (self.toInt + number.toInt) ∧
      2 * (self.toInt + number.toInt) < (base : Int) ^ count := by
  obtain ⟨count, size, more, bounds, signed, unsigned, boundsOther, plainOther⟩ :=
    size_room accurate operand argument nonzero
  rw [sizeOfSum, size]
  split
  · have power := base_pow_succ count
    exact ⟨count + 1, by unfold digitLength; lia, by lia, by lia, by lia⟩
  · next same =>
    rw [Bool.or_eq_true, Bool.or_eq_true, Bool.and_eq_true, decide_eq_true_iff,
      decide_eq_true_iff, beq_iff_eq, positive, Number.positive, Number.negative_eq] at same
    have sign := self.negative_iff
    have low : highBit log2 (number.highWideDigit log2) ≠ bits := fun high => same (.inr high)
    have plain := plainOther low
    refine ⟨count, rfl, more, ?_⟩
    by_cases less : self.toInt < 0
    · have lower := signed less
      have other : ¬ number.toInt < 0 := by
        intro lessOther
        refine same (.inl (.inl ?_))
        rw [sign.mpr less, decide_eq_true lessOther]
      lia
    · have positive : self.negative = false := by
        by_contra negative
        exact less (sign.mp (by simpa using negative))
      have upper := unsigned (by lia) fun high => same (.inl (.inr ⟨by rw [positive]; rfl, high⟩))
      have other : number.toInt < 0 := by
        by_contra nonneg
        refine same (.inl (.inl ?_))
        rw [positive, decide_eq_false nonneg]
      lia

/-- The sum of two operands. -/
theorem addDigits_exact {number : Number} (operand : Operand (.large self))
    (argument : Operand number) (nonzero : number ≠ .small 0) :
    Exact (self.addDigits log2 number) (self.toInt + number.toInt) := by
  obtain ⟨count, size, more, lower, upper⟩ := sizeOfSum_room accurate operand argument nonzero
  have four : 4 ≤ self.nbDigits := operand.1
  have bytes : self.sizeInBytes ≤ (2 * count : Int) := by
    unfold sizeInBytes digitLength
    lia
  have held := @holds_plusDigits number _ self.toInt number.toInt 1 0
    (@holds_copyOfSize log2 self (2 * count) bytes)
    (fun offset => by rw [Nat.add_comm 1]; exact number.wideDigitAt_eq offset) (by decide)
  rw [Nat.cast_zero, add_zero] at held
  have positive := @copyOfSize_negative log2 self (2 * count)
  have length := @copyOfSize_length log2 self (2 * count)
  rw [addDigits, size]
  generalize self.copyOfSize log2 (2 * count) = copy at held positive length
  have digits : (plusDigits number copy.digits 1 0).length = count := by
    rw [plusDigits_length, length]
    lia
  have bit := @highBit_iff_neg log2 { copy with digits := plusDigits number copy.digits 1 0 }
    accurate _ held (by rw [nbDigits, digits]; lia) (by rw [nbDigits, digits]; lia)
    (by rw [nbDigits, digits]; lia)
  dsimp only
  by_cases less : self.toInt + number.toInt < 0
  · have sign : (self.negative || number.negative) = true := by
      rw [Bool.or_eq_true, self.negative_iff, number.negative_eq, decide_eq_true_iff]
      lia
    rw [sign, Bool.true_and, if_pos (decide_eq_true (bit.mpr less))]
    have value : ({ negative := true, digits := plusDigits number copy.digits 1 0 } :
        LargeInteger).toInt = self.toInt + number.toInt := by
      refine toInt_eq held ?_
      rw [Within, if_pos rfl, nbDigits, digits]
      lia
    rw [← value]
    refine reduced_exact accurate (by rw [nbDigits, digits]; lia) fun _ => ?_
    rw [value, nbDigits, digits]
    exact lower
  · have value : ({ copy with digits := plusDigits number copy.digits 1 0 } :
        LargeInteger).toInt = self.toInt + number.toInt := by
      refine toInt_eq held ?_
      dsimp only
      rw [Within, positive, if_neg (by decide), nbDigits, digits]
      lia
    rw [decide_eq_false (mt bit.mp less), Bool.and_false, if_neg (by decide), ← value]
    refine reduced_exact accurate (by rw [nbDigits, digits]; lia) fun negative => ?_
    cases positive.symm.trans negative

/-- A sum with a canonical argument, where the receiver is canonical or the argument not zero. -/
theorem plus_exact {number : Number} (operand : Operand (.large self))
    (argument : Canonical number) (either : Canonical (.large self) ∨ number ≠ .small 0) :
    Exact (self.plus log2 number) (self.toInt + number.toInt) := by
  rw [plus]
  by_cases zero : number = .small 0
  · have canonical : Canonical (.large self) := either.resolve_right (not_not.mpr zero)
    subst zero
    rw [if_pos rfl]
    exact ⟨_, rfl, canonical, (add_zero _).symm⟩
  · rw [if_neg zero]
    exact addDigits_exact accurate operand argument.operand zero

/-- The inverse of an operand is an operand. -/
theorem bitInvert_operand (operand : Operand (.large self)) :
    ∃ result, self.bitInvert log2 = some result ∧ Operand result ∧
      result.toInt = -self.toInt - 1 := by
  obtain ⟨size, signed⟩ := operand
  have within := self.within_toInt
  rw [bitInvert]
  by_cases negative : self.negative = true
  · have value : (⟨false, self.digits.map (· ^^^ 0xFFFF)⟩ : LargeInteger).toInt =
        -self.toInt - 1 := by
      refine toInt_eq holds_inverted ?_
      rw [Within, if_pos negative] at within
      rw [Within, if_neg Bool.false_ne_true, nbDigits, List.length_map, ← nbDigits]
      lia
    have exact := @reduced_exact ⟨false, self.digits.map (· ^^^ 0xFFFF)⟩ log2 accurate
      (by rw [nbDigits, List.length_map, ← nbDigits]; lia) (fun other => by cases other)
    obtain ⟨result, found, canonical, same⟩ := exact
    refine ⟨result, ?_, canonical.operand, same.trans value⟩
    rw [if_pos negative]
    exact found
  · have positive : self.negative = false := by simpa using negative
    rw [Within, if_neg negative] at within
    have high := highBit_iff_large accurate positive (by lia)
    rw [if_neg negative]
    dsimp only
    obtain ⟨count, bytes, more, room⟩ : ∃ count : Nat,
        (if highBit log2 self.highWideDigit = bits then self.sizeInBytes + digitLength
          else self.sizeInBytes) = 2 * count ∧ self.nbDigits ≤ count ∧
        -(base : Int) ^ count ≤ 2 * (-self.toInt - 1) := by
      have double : self.sizeInBytes = 2 * self.nbDigits := Nat.mul_comm ..
      have power := base_pow_succ self.nbDigits
      have parity := base_pow_succ (self.nbDigits - 1)
      rw [Nat.sub_add_cancel (by lia)] at parity
      split
      · exact ⟨self.nbDigits + 1, by unfold digitLength; lia, by lia, by lia⟩
      · exact ⟨self.nbDigits, by lia, by lia, by lia⟩
    rw [bytes]
    have filled : (new true (2 * count : Nat)).digits.drop self.nbDigits =
        List.replicate (count - self.nbDigits) 0xFFFF := by
      rw [new, show (((2 * count : Nat) : Int) + digitLength - 1) / digitLength = count by
        unfold digitLength; lia]
      exact List.drop_replicate ..
    rw [filled]
    have held := @holds_inverted_append self positive (count - self.nbDigits)
    have length : (self.digits.map (· ^^^ 0xFFFF) ++
        List.replicate (count - self.nbDigits) 0xFFFF).length = count := by
      rw [List.length_append, List.length_map, List.length_replicate, ← nbDigits]
      lia
    have value : (⟨true, self.digits.map (· ^^^ 0xFFFF) ++
        List.replicate (count - self.nbDigits) 0xFFFF⟩ : LargeInteger).toInt =
          -self.toInt - 1 := by
      refine toInt_eq held ?_
      rw [Within, if_pos rfl, nbDigits, length]
      lia
    refine ⟨_, rfl, ⟨?_, fun _ => ?_⟩, value⟩
    · rw [nbDigits, length]
      lia
    · rw [nbDigits, length]
      exact value ▸ room

end Signs

end LargeInteger

end Egg.Arithmetic
