import Egg.Arithmetic.Addition

/-! Order, equality and hash of numbers. -/
namespace Egg.Arithmetic

namespace LargeInteger

/-- Compare the digits from the highest of the first `n`; `same` tells the answer for none. -/
def compareDigits (self other : LargeInteger) (same : Bool) : (n : Nat) → Bool
  | 0 => same
  | i + 1 =>
    let d := self.wideDigitAt (i + 1)
    let e := other.wideDigitAt (i + 1)
    if d ≠ e then d < e else compareDigits self other same i

def order (self : LargeInteger) (aNumber : Number) (same : Bool) : Bool :=
  if self.negative ≠ aNumber.negative then self.negative
  else match aNumber with
    | .small _ => self.negative
    | .large other =>
      let n := self.sizeInBytes
      let m := other.sizeInBytes
      if m < n then self.negative
      else if n < m then self.positive
      else compareDigits self other same (n / digitLength)

def less (self : LargeInteger) (aNumber : Number) : Bool :=
  self.order aNumber false

def lessEqual (self : LargeInteger) (aNumber : Number) : Bool :=
  self.order aNumber true

def greater (self : LargeInteger) (aNumber : Number) : Bool :=
  !self.lessEqual aNumber

def greaterEqual (self : LargeInteger) (aNumber : Number) : Bool :=
  !self.less aNumber

end LargeInteger

def hashMultiply (self aNumber : Nat) : Nat :=
  if self < 162 ∧ aNumber = 0x19660D then self * 0x19660D
  else
    let low14a := self &&& 0x3FFF
    let high14a := self >>> 14 &&& 0x3FFF
    let low14b := aNumber &&& 0x3FFF
    let high14b := aNumber >>> 14 &&& 0x3FFF
    (0x4000 * (low14b * high14a + high14b * low14a &&& 0x3FFF) + low14b * low14a) &&& 0xFFFFFFF

/-- The hash of the bytes, the lowest first. -/
def LargeInteger.hashBytes (self : LargeInteger) : Nat :=
  (List.range self.sizeInBytes).foldl
    (fun hash i => hashMultiply hash 0x19660D ^^^ self.byteAt (i + 1)) self.sizeInBytes

namespace Number

def less (self aNumber : Number) : Bool :=
  match self, aNumber with
  | small a, small b => a < b
  | small a, large b => b.greater (small a)
  | large a, b => a.less b

def equals (self aNumber : Number) : Bool :=
  match self, aNumber with
  | small a, small b => a = b
  | small _, large _ => false
  | large _, small _ => false
  | large a, large b => a.equals b

/-- The hash; that of numbers a float may stand for is the float's. -/
def hash (floatHash : LargeInteger → Int) (self : Number) : Int :=
  match self with
  | small value => value
  | large integer =>
    let narrow := if integer.negative then integer.greaterEqual (small (-0x20000000000000))
      else integer.lessEqual (small 0x20000000000000)
    if narrow = true then floatHash integer else integer.hashBytes

end Number

/-- Of two canonical integers of a class, the one of more digits is farther from zero. -/
theorem Canonical.apart {first second : LargeInteger} (canonical : Canonical (.large first))
    (other : Canonical (.large second)) (sign : first.negative = second.negative)
    (fewer : first.nbDigits < second.nbDigits) :
    if first.negative then second.toInt < first.toInt else first.toInt < second.toInt := by
  have takes := canonical.2
  have takesOther := other.2
  have size : 4 ≤ second.nbDigits := other.operand.1
  have power := @base_pow_le first.nbDigits (second.nbDigits - 1) (by lia)
  rw [Takes] at takes takesOther
  rw [← sign] at takesOther
  split at takes
  · rw [if_pos (by assumption)] at takesOther ⊢
    lia
  · rw [if_neg (by assumption)] at takesOther ⊢
    lia

/-- A number in canonical form is determined by its integer. -/
theorem Canonical.ext {first second : Number} (canonical : Canonical first)
    (other : Canonical second) (same : first.toInt = second.toInt) : first = second := by
  cases first with
  | small value =>
    cases second with
    | small value' => exact congrArg Number.small same
    | large integer =>
      have same : value = integer.toInt := same
      exact absurd (same ▸ canonical) other.1
  | large integer =>
    cases second with
    | small value =>
      have same : integer.toInt = value := same
      exact absurd (same ▸ other) canonical.1
    | large integer' =>
      have same : integer.toInt = integer'.toInt := same
      have sign : integer.negative = integer'.negative := by
        rw [Bool.eq_iff_iff, integer.negative_iff, integer'.negative_iff, same]
      have sizes : integer.nbDigits = integer'.nbDigits := by
        rcases Nat.lt_trichotomy integer.nbDigits integer'.nbDigits with fewer | equal | more
        · have apart := canonical.apart other sign fewer
          split at apart <;> lia
        · exact equal
        · have apart := other.apart canonical sign.symm more
          split at apart <;> lia
      exact congrArg Number.large (LargeInteger.ext_toInt sign sizes same)

namespace LargeInteger

variable {self : LargeInteger} {number : Number}

theorem compareDigits_iff {other : LargeInteger} {same : Bool} {n : Nat}
    (above : self.toInt / (base : Int) ^ n = other.toInt / (base : Int) ^ n) :
    self.compareDigits other same n = true ↔
      self.toInt < other.toInt ∨ (self.toInt = other.toInt ∧ same = true) := by
  induction n with
  | zero =>
    rw [pow_zero, Int.ediv_one, Int.ediv_one] at above
    rw [compareDigits, above]
    simp
  | succ n ih =>
    have digit := self.wideDigitAt_mod n
    have digit' := other.wideDigitAt_mod n
    rw [ediv_base_pow_succ, ediv_base_pow_succ] at above
    rw [compareDigits]
    by_cases equal : self.wideDigitAt (n + 1) = other.wideDigitAt (n + 1)
    · rw [if_neg (not_not.mpr equal)]
      exact ih (by lia)
    · rw [if_pos equal, decide_eq_true_iff]
      have bounds := ediv_base_pow self.toInt n
      have bounds' := ediv_base_pow other.toInt n
      have positive := base_pow_pos n
      constructor
      · intro less
        have quotient : self.toInt / (base : Int) ^ n + 1 ≤ other.toInt / (base : Int) ^ n := by lia
        have scaled := mul_le_mul_of_nonneg_left quotient positive.le
        rw [mul_add, mul_one] at scaled
        exact .inl (by lia)
      · intro order
        have least := Int.ediv_le_ediv positive (show self.toInt ≤ other.toInt by lia)
        lia

theorem order_iff (canonical : Canonical (.large self)) (argument : Canonical number)
    (same : Bool) : self.order number same = true ↔
      self.toInt < number.toInt ∨ (self.toInt = number.toInt ∧ same = true) := by
  have own := self.negative_iff
  unfold order
  rw [number.negative_eq]
  by_cases signs : self.negative ≠ decide (number.toInt < 0)
  · rw [if_pos signs, own]
    by_cases less : number.toInt < 0
    · have positive : ¬ self.negative = true := fun negative => signs (by rw [negative, decide_eq_true less])
      rw [own] at positive
      lia
    · have negative : self.negative = true := by
        by_contra positive
        exact signs (by rw [(Bool.not_eq_true _).mp positive, decide_eq_false less])
      rw [own] at negative
      lia
  · have signs : self.toInt < 0 ↔ number.toInt < 0 := by
      rw [← own, not_not.mp signs, decide_eq_true_iff]
    rw [if_neg (by assumption)]
    cases number with
    | small value =>
      have fits : Fits value := argument
      have wide := canonical.1
      have signs : self.toInt < 0 ↔ value < 0 := signs
      show self.negative = true ↔ self.toInt < value ∨ (self.toInt = value ∧ same = true)
      rw [own]
      unfold Fits minimum maximum at *
      lia
    | large other =>
      have signs : self.toInt < 0 ↔ other.toInt < 0 := signs
      show _ ↔ self.toInt < other.toInt ∨ (self.toInt = other.toInt ∧ same = true)
      have sign : self.negative = other.negative := by
        rw [Bool.eq_iff_iff, own, other.negative_iff, signs]
      dsimp only
      unfold sizeInBytes digitLength
      by_cases more : other.nbDigits * 2 < self.nbDigits * 2
      · have apart := argument.apart canonical sign.symm (by lia)
        rw [if_pos more, own]
        rw [← sign] at apart
        split at apart <;> rename_i found <;> rw [own] at found <;> lia
      · rw [if_neg more]
        by_cases fewer : self.nbDigits * 2 < other.nbDigits * 2
        · have apart := canonical.apart argument sign (by lia)
          have positive : self.positive = true ↔ 0 ≤ self.toInt := by
            rw [show self.positive = decide (0 ≤ self.toInt) from
              Number.positive_eq (.large self), decide_eq_true_iff]
          rw [if_pos fewer, positive]
          split at apart <;> rename_i found <;> rw [own] at found <;> lia
        · have size : self.nbDigits = other.nbDigits := by lia
          rw [if_neg fewer, Nat.mul_div_cancel _ (by decide)]
          refine compareDigits_iff ?_
          rw [self.within_toInt.ediv (Nat.le_refl _), other.within_toInt.ediv (Nat.le_of_eq size.symm),
            sign]

end LargeInteger

namespace Number

variable {x y : Number}

theorem less_iff (canonical : Canonical x) (argument : Canonical y) :
    x.less y = true ↔ x.toInt < y.toInt := by
  cases x with
  | small a =>
    cases y with
    | small b =>
      rw [less, decide_eq_true_iff]
      rfl
    | large b =>
      have order := LargeInteger.order_iff argument canonical true
      rw [less, LargeInteger.greater, Bool.not_eq_true', ← Bool.not_eq_true,
        LargeInteger.lessEqual, order, eq_self, and_true]
      show ¬ (b.toInt < a ∨ b.toInt = a) ↔ a < b.toInt
      lia
  | large a =>
    have order := LargeInteger.order_iff canonical argument false
    rw [less, LargeInteger.less, order]
    simp [toInt]

theorem equals_iff (canonical : Canonical x) (argument : Canonical y) :
    x.equals y = true ↔ x.toInt = y.toInt := by
  have ext := canonical.ext argument
  cases x with
  | small a =>
    cases y with
    | small b =>
      rw [equals, decide_eq_true_iff]
      rfl
    | large b => exact iff_of_false (by rw [equals]; decide) fun same => nomatch ext same
  | large a =>
    cases y with
    | small b => exact iff_of_false (by rw [equals]; decide) fun same => nomatch ext same
    | large b =>
      rw [equals, LargeInteger.equals_iff]
      refine ⟨fun found => found.2.2, fun same => ?_⟩
      cases ext same
      exact ⟨rfl, rfl, rfl⟩

end Number

end Egg.Arithmetic
