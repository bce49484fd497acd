import Egg.Arithmetic.Value
import Mathlib.Tactic.Linarith

/-! Reduction answers the canonical form. -/
namespace Egg.Arithmetic

open Egg.Data

def Fits (value : Int) : Prop :=
  minimum ≤ value ∧ value ≤ maximum

instance (value : Int) : Decidable (Fits value) :=
  inferInstanceAs (Decidable (_ ∧ _))

/-- The integer takes so many digits of the class: a positive one has no zero on top, a negative
one has its sign bit and would not have it without the top digit. -/
def Takes (negative : Bool) (count : Nat) (value : Int) : Prop :=
  if negative then
    -(base : Int) ^ count ≤ 2 * value ∧ value < 0 ∧
      (count ≤ 1 ∨ 2 * value < -(base : Int) ^ (count - 1))
  else 0 ≤ value ∧ value < (base : Int) ^ count ∧ (count ≤ 1 ∨ (base : Int) ^ (count - 1) ≤ value)

/-- A small integer where the value fits, else the shortest large one. -/
def Canonical : Number → Prop
  | .small value => Fits value
  | .large integer =>
    ¬ Fits integer.toInt ∧ Takes integer.negative integer.nbDigits integer.toInt

instance (negative : Bool) (count : Nat) (value : Int) : Decidable (Takes negative count value) :=
  match negative with
  | true => inferInstanceAs (Decidable (_ ≤ _ ∧ _ < _ ∧ (_ ≤ _ ∨ _ < _)))
  | false => inferInstanceAs (Decidable (_ ≤ _ ∧ _ < _ ∧ (_ ≤ _ ∨ _ ≤ _)))

instance : DecidablePred Canonical
  | .small value => inferInstanceAs (Decidable (Fits value))
  | .large integer => inferInstanceAs
    (Decidable (¬ Fits integer.toInt ∧ Takes integer.negative integer.nbDigits integer.toInt))

/-- The answer is the canonical form of the integer. -/
def Exact (answer : Option Number) (value : Int) : Prop :=
  ∃ result, answer = some result ∧ Canonical result ∧ result.toInt = value

theorem exact_small {value : Int} (fits : Fits value) : Exact (some (.small value)) value :=
  ⟨_, rfl, fits, rfl⟩

section Powers

theorem base_pow_succ (count : Nat) : (base : Int) ^ (count + 1) = (base : Int) ^ count * 65536 :=
  pow_succ ..

/-- Division by a power of the base, and what is known of the quotient. -/
theorem ediv_base_pow (value : Int) (count : Nat) :
    (base : Int) ^ count * (value / (base : Int) ^ count) ≤ value ∧
      value < (base : Int) ^ count * (value / (base : Int) ^ count) + (base : Int) ^ count :=
  ⟨Int.mul_ediv_self_le (base_pow_pos count).ne', Int.lt_mul_ediv_self_add (base_pow_pos count)⟩

theorem le_ediv_base_pow {bound value : Int} {count : Nat} :
    bound ≤ value / (base : Int) ^ count ↔ bound * (base : Int) ^ count ≤ value :=
  Int.le_ediv_iff_mul_le (base_pow_pos count)

theorem ediv_base_pow_lt {bound value : Int} {count : Nat} :
    value / (base : Int) ^ count < bound ↔ value < bound * (base : Int) ^ count :=
  Int.ediv_lt_iff_lt_mul (base_pow_pos count)

theorem ediv_base_pow_succ (value : Int) (count : Nat) :
    value / (base : Int) ^ (count + 1) = value / (base : Int) ^ count / 65536 := by
  rw [base_pow_succ, Int.ediv_ediv_of_nonneg (base_pow_pos count).le]

theorem Fits.ediv {value : Int} (fits : Fits value) (count : Nat) :
    Fits (value / (base : Int) ^ count) := by
  induction count with
  | zero =>
    rw [pow_zero, Int.ediv_one]
    exact fits
  | succ count ih =>
    rw [ediv_base_pow_succ]
    unfold Fits minimum maximum at *
    omega

end Powers

section Bits

variable {log2 : Nat → Int} (accurate : Accurate log2)

include accurate

/-- The sign bit of a digit. -/
theorem highBit_eq_bits {digit : Nat} (small : digit < base) :
    highBit log2 digit = bits ↔ 0x8000 ≤ digit := by
  rw [highBit]
  have narrow : digit < 65536 := small
  by_cases zero : digit = 0
  · subst zero
    simp [bits]
  · have log := accurate.exact digit (by omega) (by omega)
    have lower := @Nat.le_log2 digit 15 zero
    have upper := @Nat.log2_lt digit 16 zero
    rw [if_neg zero, log, bits]
    omega

end Bits

/-- A shift that does not overflow. -/
theorem bitShiftLeft_eq {value : Int} {shift : Nat} (fits : Fits (value * 2 ^ shift))
    (short : shift < 63) : bitShiftLeft value shift = some (value * 2 ^ shift) := by
  rw [bitShiftLeft, if_neg]
  have positive : (0 : Int) < 2 ^ shift := by positivity
  have upper : value ≤ maximum >>> shift := by
    rw [Int.shiftRight_eq_div_pow]
    push_cast
    exact (Int.le_ediv_iff_mul_le positive).mpr fits.2
  have lower : minimum >>> shift ≤ value := by
    rw [Int.shiftRight_eq_div_pow]
    push_cast
    exact Int.ediv_le_of_le_mul positive fits.1
  rintro (long | ⟨_, past | under⟩) <;> omega

namespace LargeInteger

variable {self : LargeInteger} {log2 : Nat → Int}

/-- The digits come back together from the highest to the lowest. -/
theorem shiftDigits_eq (fits : Fits self.toInt) (n : Nat) :
    self.shiftDigits (self.toInt / (base : Int) ^ n) n = some self.toInt := by
  induction n with
  | zero => rw [shiftDigits, pow_zero, Int.ediv_one]
  | succ n ih =>
    have inner := fits.ediv n
    have split : self.toInt / (base : Int) ^ (n + 1) * 2 ^ bits + self.wideDigitAt (n + 1) =
        self.toInt / (base : Int) ^ n := by
      rw [wideDigitAt_eq, ediv_base_pow_succ]
      exact Int.ediv_mul_add_emod _ 65536
    have shifted : bitShiftLeft (self.toInt / (base : Int) ^ (n + 1)) bits =
        some (self.toInt / (base : Int) ^ (n + 1) * 2 ^ bits) := by
      refine bitShiftLeft_eq ?_ (by decide)
      rw [ediv_base_pow_succ]
      unfold Fits minimum maximum bits at *
      omega
    rw [shiftDigits, shifted, Option.bind_eq_bind, Option.bind_some, split]
    exact ih

theorem top_of_nonneg {n : Nat} (nonneg : 0 ≤ self.toInt)
    (small : self.toInt < (base : Int) ^ (n + 1)) :
    (self.wideDigitAt (n + 1) : Int) = self.toInt / (base : Int) ^ n := by
  rw [wideDigitAt_eq]
  refine Int.emod_eq_of_lt (Int.ediv_nonneg nonneg (base_pow_pos n).le) ?_
  rw [ediv_base_pow_lt, ← pow_succ']
  exact small

theorem top_of_neg {n : Nat} (negative : self.toInt < 0)
    (large : -(base : Int) ^ (n + 1) ≤ 2 * self.toInt) :
    (self.wideDigitAt (n + 1) : Int) = self.toInt / (base : Int) ^ n + 65536 := by
  have positive := base_pow_pos n
  rw [base_pow_succ] at large
  have lower : -32768 ≤ self.toInt / (base : Int) ^ n := by
    rw [le_ediv_base_pow]
    omega
  have upper : self.toInt / (base : Int) ^ n < 0 := by
    rw [ediv_base_pow_lt]
    omega
  have digit := self.wideDigitAt_mod n
  omega

theorem toInt_take {n : Nat} (inside : n ≤ self.nbDigits)
    (takes : Takes self.negative n self.toInt) :
    ({ self with digits := self.digits.take n } : LargeInteger).toInt = self.toInt ∧
      ({ self with digits := self.digits.take n } : LargeInteger).nbDigits = n := by
  have length : ({ self with digits := self.digits.take n } : LargeInteger).nbDigits = n := by
    rw [nbDigits, List.length_take]
    exact Nat.min_eq_left inside
  refine ⟨toInt_eq ?_ ?_, length⟩
  · have held := Represents.take self.holds_toInt n
    rwa [← List.map_take] at held
  · rw [length, Within]
    dsimp only
    rw [Takes] at takes
    split at takes
    · rw [if_pos (by assumption)]
      omega
    · rw [if_neg (by assumption)]
      omega

/-- The value of the top digit tells whether the integer is small. -/
theorem wide_iff {n : Nat} (takes : Takes self.negative (n + 1) self.toInt) :
    (4 < n + 1 ∨ (n + 1 = 4 ∧ (if self.negative then decide (self.wideDigitAt (n + 1) < 0xC000)
      else decide (0x4000 ≤ self.wideDigitAt (n + 1))) = true)) ↔ ¬ Fits self.toInt := by
  have bounds := ediv_base_pow self.toInt n
  have four : (base : Int) ^ 4 = 2 ^ 64 := rfl
  have three : (base : Int) ^ 3 = 2 ^ 48 := rfl
  rw [Takes, Nat.add_sub_cancel] at takes
  unfold Fits minimum maximum
  rcases Nat.lt_or_ge 3 n with long | short
  · have larger := @base_pow_le 4 n long
    split at takes <;> omega
  · rcases Nat.lt_or_ge n 3 with less | more
    · have smaller := @base_pow_le (n + 1) 3 less
      split at takes <;> omega
    · obtain rfl : n = 3 := by omega
      rw [three] at bounds
      split at takes
      · have top := top_of_neg takes.2.1 takes.1
        rw [three] at top
        rw [show (base : Int) ^ (3 + 1) = 2 ^ 64 from rfl, three] at takes
        rw [if_pos (by assumption), decide_eq_true_iff]
        omega
      · have top := top_of_nonneg takes.1 takes.2.1
        rw [three] at top
        rw [show (base : Int) ^ (3 + 1) = 2 ^ 64 from rfl, three] at takes
        rw [if_neg (by assumption), decide_eq_true_iff]
        omega

theorem sign_bit {digit : Nat} (small : digit < base) (set : 0x8000 ≤ digit) :
    digit &&& 0x8000 = 0x8000 := by
  have narrow : digit < 65536 := small
  have one : digit / 2 ^ 15 % 2 = 1 := by omega
  have bit : digit.testBit 15 = true := by
    rw [Nat.testBit_eq_decide_div_mod_eq, one]
    rfl
  refine Nat.eq_of_testBit_eq fun index => ?_
  rw [Nat.testBit_and, show 0x8000 = 2 ^ 15 from rfl, Nat.testBit_two_pow]
  by_cases same : 15 = index
  · subst same
    rw [bit, Bool.true_and]
  · rw [decide_eq_false same, Bool.and_false]

theorem reducedTo_exact {n : Nat} (inside : n + 1 ≤ self.nbDigits)
    (takes : Takes self.negative (n + 1) self.toInt) :
    Exact (self.reducedTo (n + 1)) self.toInt := by
  rw [reducedTo]
  by_cases wide : 4 < n + 1 ∨ (n + 1 = 4 ∧
      (if self.negative then decide (self.wideDigitAt (n + 1) < 0xC000)
        else decide (0x4000 ≤ self.wideDigitAt (n + 1))) = true)
  · obtain ⟨same, length⟩ := toInt_take inside takes
    refine ⟨_, if_pos wide, ⟨?_, ?_⟩, same⟩
    · rw [same]
      exact (wide_iff takes).mp wide
    · rw [same, length]
      exact takes
  · have fits : Fits self.toInt := not_not.mp (mt (wide_iff takes).mpr wide)
    have high : (self.wideDigitAt (n + 1) : Int) -
        ((if self.negative then self.wideDigitAt (n + 1) &&& 0x8000 else 0 : Nat) : Int) * 2 =
          self.toInt / (base : Int) ^ n := by
      rw [Takes] at takes
      split at takes
      · have top := top_of_neg takes.2.1 takes.1
        have large := takes.1
        rw [base_pow_succ] at large
        have positive := base_pow_pos n
        have lower : -32768 ≤ self.toInt / (base : Int) ^ n := by
          rw [le_ediv_base_pow]
          omega
        rw [if_pos (by assumption), sign_bit (self.wideDigitAt_lt _) (by omega)]
        omega
      · have top := top_of_nonneg takes.1 takes.2.1
        rw [if_neg (by assumption)]
        omega
    rw [if_neg wide]
    dsimp only
    rw [high, Nat.add_sub_cancel, shiftDigits_eq fits]
    exact exact_small fits

theorem stripZeros_takes (nonneg : 0 ≤ self.toInt) {n : Nat}
    (small : self.toInt < (base : Int) ^ (n + 1)) (zero : self.wideDigitAt (n + 1) = 0) :
    ∃ count, self.stripZeros (n + 1) = count + 1 ∧ count ≤ n ∧
      Takes false (count + 1) self.toInt := by
  induction n with
  | zero => exact ⟨0, rfl, Nat.le_refl 0, nonneg, small, .inl (Nat.le_refl 1)⟩
  | succ n ih =>
    have quotient := top_of_nonneg nonneg small
    have below : self.toInt < (base : Int) ^ (n + 1) := by
      have bounds := ediv_base_pow self.toInt (n + 1)
      rw [zero, Nat.cast_zero] at quotient
      rw [← quotient, mul_zero] at bounds
      omega
    rw [stripZeros]
    by_cases next : self.wideDigitAt (n + 1) = 0
    · obtain ⟨count, same, least, takes⟩ := ih below next
      exact ⟨count, (if_pos next).trans same, Nat.le_succ_of_le least, takes⟩
    · have top := top_of_nonneg nonneg below
      refine ⟨n, if_neg next, Nat.le_succ n, nonneg, below, .inr ?_⟩
      have one : 1 ≤ self.toInt / (base : Int) ^ n := by omega
      rw [le_ediv_base_pow, one_mul] at one
      exact one

theorem stripSigns_takes (accurate : Accurate log2) (negative : self.toInt < 0) {n : Nat}
    (signed : -(base : Int) ^ (n + 1) ≤ 2 * self.toInt) :
    ∃ count, self.stripSigns log2 (n + 1) = count + 1 ∧ count ≤ n ∧
      Takes true (count + 1) self.toInt := by
  induction n with
  | zero => exact ⟨0, rfl, Nat.le_refl 0, signed, negative, .inl (Nat.le_refl 1)⟩
  | succ n ih =>
    have high := top_of_neg negative signed
    have low := self.wideDigitAt_mod n
    have above := ediv_base_pow_succ self.toInt n
    have positive := base_pow_pos n
    have power := base_pow_succ n
    have repeats : (self.wideDigitAt (n + 1 + 1) = base - 1 ∧
        highBit log2 (self.wideDigitAt (n + 1)) = bits) ↔
          -(base : Int) ^ (n + 1) ≤ 2 * self.toInt := by
      rw [highBit_eq_bits accurate (self.wideDigitAt_lt _)]
      have half : -(base : Int) ^ (n + 1) ≤ 2 * self.toInt ↔
          -32768 ≤ self.toInt / (base : Int) ^ n := by
        rw [le_ediv_base_pow]
        omega
      have below : self.toInt / (base : Int) ^ n < 0 := by
        rw [ediv_base_pow_lt]
        omega
      have top : base - 1 = 65535 := rfl
      rw [half, top]
      omega
    rw [stripSigns]
    by_cases more : -(base : Int) ^ (n + 1) ≤ 2 * self.toInt
    · obtain ⟨count, same, least, takes⟩ := ih more
      exact ⟨count, (if_pos (repeats.mpr more)).trans same, Nat.le_succ_of_le least, takes⟩
    · refine ⟨n + 1, if_neg (mt repeats.mp more), Nat.le_refl _, signed, negative, .inr ?_⟩
      rw [Nat.add_sub_cancel]
      omega

theorem equals_iff {other : LargeInteger} :
    self.equals other = true ↔ self.negative = other.negative ∧
      self.nbDigits = other.nbDigits ∧ self.toInt = other.toInt := by
  have count : (other.sizeInBytes + digitLength - 1) / digitLength = other.nbDigits := by
    unfold sizeInBytes digitLength
    omega
  rw [equals, count, Bool.and_eq_true, Bool.and_eq_true, decide_eq_true_iff, beq_iff_eq,
    List.all_eq_true]
  unfold LargeInteger.positive
  rw [Bool.not_inj_iff, and_assoc]
  refine and_congr_right fun sign => and_congr_right fun size => ⟨fun digits => ?_, fun same => ?_⟩
  · have held : Holds self.digits other.toInt := by
      refine Represents.of_getElem fun index inside => ?_
      rw [List.length_map] at inside
      have digit := of_decide_eq_true (digits index (List.mem_range.mpr inside))
      rw [← other.wideDigitAt_eq, ← digit, self.wideDigitAt_eq, List.getElem_map]
      exact (self.holds_toInt.getElem index inside).symm
    refine toInt_eq held ?_
    rw [sign, size]
    exact other.within_toInt
  · rw [ext_toInt sign size same]
    exact fun _ _ => decide_eq_true rfl

theorem leftLimit_toInt : leftLimit.toInt = minimum := by
  decide

/-- The top of a positive integer tells whether it is small. -/
theorem large_iff (size : 1 ≤ self.nbDigits) (takes : Takes false self.nbDigits self.toInt) :
    (wordSize < self.sizeInBytes ∨ 63 < self.byteAt wordSize) ↔ ¬ Fits self.toInt := by
  have four : (base : Int) ^ 4 = 2 ^ 64 := rfl
  have three : (base : Int) ^ 3 = 2 ^ 48 := rfl
  have byte : self.byteAt wordSize = self.wideDigitAt (3 + 1) / 256 := rfl
  rw [Takes, if_neg (by decide)] at takes
  rw [byte, sizeInBytes]
  unfold Fits minimum maximum wordSize digitLength
  rcases Nat.lt_or_ge 4 self.nbDigits with long | short
  · have larger := @base_pow_le 4 (self.nbDigits - 1) (by omega)
    omega
  · have smaller := @base_pow_le self.nbDigits 4 short
    rw [four] at smaller
    have top := @top_of_nonneg self 3 takes.1 (by rw [four]; omega)
    have bounds := ediv_base_pow self.toInt 3
    rw [three] at top bounds
    omega

/-- The digits come together at their places. -/
theorem sumDigits_eq (fits : Fits self.toInt) (nonneg : 0 ≤ self.toInt) {n : Nat} (short : n ≤ 4) :
    self.sumDigits n = some (self.toInt % (base : Int) ^ n) := by
  induction n with
  | zero => rw [sumDigits, pow_zero, Int.emod_one]
  | succ i ih =>
    have digit := self.wideDigitAt_mod i
    have power : (2 : Int) ^ (i * bits) = (base : Int) ^ i := by
      rw [Nat.mul_comm, pow_mul]
      rfl
    have bounds := ediv_base_pow self.toInt i
    have positive := base_pow_pos i
    have split : self.toInt % (base : Int) ^ (i + 1) =
        self.toInt / (base : Int) ^ i % 65536 * (base : Int) ^ i + self.toInt % (base : Int) ^ i := by
      have whole := Int.emod_add_mul_ediv self.toInt ((base : Int) ^ i)
      have wider := Int.emod_add_mul_ediv self.toInt ((base : Int) ^ (i + 1))
      have inner := Int.emod_add_mul_ediv (self.toInt / (base : Int) ^ i) 65536
      rw [ediv_base_pow_succ, base_pow_succ] at wider
      rw [base_pow_succ]
      linear_combination wider - whole - (base : Int) ^ i * inner
    have below : self.toInt / (base : Int) ^ i % 65536 * (base : Int) ^ i ≤ self.toInt := by
      have quotient : self.toInt / (base : Int) ^ i % 65536 ≤ self.toInt / (base : Int) ^ i := by
        have nonneg := Int.ediv_nonneg nonneg positive.le
        omega
      have scaled := mul_le_mul_of_nonneg_right quotient positive.le
      linarith
    have shifted : bitShiftLeft (self.wideDigitAt (i + 1)) (i * bits) =
        some ((self.wideDigitAt (i + 1) : Int) * 2 ^ (i * bits)) := by
      refine bitShiftLeft_eq ?_ (by unfold bits; omega)
      rw [digit, power]
      have least : 0 ≤ self.toInt / (base : Int) ^ i % 65536 * (base : Int) ^ i :=
        mul_nonneg (Int.emod_nonneg _ (by decide)) positive.le
      unfold Fits minimum maximum at *
      omega
    rw [sumDigits, ih (by omega), Option.bind_eq_bind, Option.bind_some, shifted,
      Option.bind_some, split, digit, power]

/-- A positive result that may still be large although it fits. -/
def Stripped : Number → Prop
  | .small value => Fits value
  | .large integer => integer.negative = false ∧ 1 ≤ integer.nbDigits ∧
    Takes false integer.nbDigits integer.toInt

theorem demoted_exact {result : Number} {value : Int} (same : result.toInt = value)
    (stripped : Stripped result) : Exact (demoted result) value := by
  subst same
  cases result with
  | small value => exact exact_small stripped
  | large integer =>
    obtain ⟨positive, size, takes⟩ := stripped
    have large := large_iff size takes
    rw [demoted]
    by_cases fits : Fits integer.toInt
    · have short : ¬ (wordSize < integer.sizeInBytes ∨ 63 < integer.byteAt wordSize) :=
        fun past => large.mp past fits
      have count : integer.sizeInBytes / digitLength = integer.nbDigits := by
        unfold sizeInBytes digitLength
        omega
      have four : integer.nbDigits ≤ 4 := by
        unfold sizeInBytes digitLength wordSize at short
        omega
      rw [Takes, if_neg (by decide)] at takes
      rw [if_neg short, count, sumDigits_eq fits takes.1 four,
        Int.emod_eq_of_lt takes.1 takes.2.1]
      exact exact_small fits
    · rw [if_pos (large.mpr fits)]
      exact ⟨_, rfl, ⟨fits, positive ▸ takes⟩, rfl⟩

/-- Reduction answers the canonical form of what it is given. -/
theorem reduced_exact (accurate : Accurate log2) (size : 1 ≤ self.nbDigits)
    (signed : self.negative = true → -(base : Int) ^ self.nbDigits ≤ 2 * self.toInt) :
    Exact (self.reduced log2) self.toInt := by
  obtain ⟨n, count⟩ : ∃ n, self.nbDigits = n + 1 := ⟨self.nbDigits - 1, by omega⟩
  have within := self.within_toInt
  rw [reduced]
  by_cases negative : self.negative = true
  · rw [if_pos negative]
    by_cases limit : self.equals leftLimit = true
    · have value : self.toInt = minimum := (equals_iff.mp limit).2.2.trans leftLimit_toInt
      rw [if_pos limit, value]
      exact exact_small (by decide)
    · obtain ⟨fewer, same, least, takes⟩ :=
        stripSigns_takes accurate (toInt_neg negative) (count ▸ signed negative)
      rw [if_neg limit, count, same]
      exact reducedTo_exact (by omega) (negative.symm ▸ takes)
  · have positive : self.negative = false := by simpa using negative
    rw [Within, if_neg negative, count] at within
    rw [if_neg negative]
    dsimp only
    rw [count]
    by_cases top : self.wideDigitAt (n + 1) ≠ 0
    · have digit := top_of_nonneg within.1 within.2
      have one : 1 ≤ self.toInt / (base : Int) ^ n := by omega
      rw [le_ediv_base_pow, one_mul] at one
      rw [if_pos top]
      refine @demoted_exact (.large self) _ rfl ?_
      exact ⟨positive, size, within.1, count ▸ within.2, .inr (by
        rw [count, Nat.add_sub_cancel]
        exact one)⟩
    · obtain ⟨fewer, same, least, takes⟩ :=
        stripZeros_takes within.1 within.2 (not_not.mp top)
      obtain ⟨result, found, canonical, value⟩ :=
        reducedTo_exact (show fewer + 1 ≤ self.nbDigits by omega) (positive.symm ▸ takes)
      rw [if_neg top, same, found]
      refine demoted_exact value ?_
      cases result with
      | small value => exact canonical
      | large integer =>
        have value : integer.toInt = self.toInt := value
        have sign : integer.negative = false := by
          by_contra other
          have less := toInt_neg (by simpa using other)
          omega
        obtain ⟨wide, takes⟩ := canonical
        refine ⟨sign, ?_, sign ▸ takes⟩
        by_contra empty
        have zero : integer.toInt = 0 := by
          have within := integer.within_toInt
          rw [Within, if_neg (by simp [sign]), show integer.nbDigits = 0 by omega, pow_zero] at within
          omega
        rw [zero] at wide
        exact wide (by decide)

end LargeInteger

end Egg.Arithmetic
