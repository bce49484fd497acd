import Egg.Arithmetic.Division
import Egg.Arithmetic.LargeQuotient
import Egg.Data.Fuel
import Egg.Data.NewtonRoot

/-! Integer square roots. -/
namespace Egg.Arithmetic

open Egg.Data

variable (log2 : Nat → Int)

namespace LargeInteger

/-- The highest bit of the first `n` digits. -/
def highBitTo (self : LargeInteger) : (n : Nat) → Int
  | 0 => 0
  | n + 1 =>
    let last := self.wideDigitAt (n + 1)
    if last = 0 then highBitTo self n else Arithmetic.highBit log2 last + bits * n

def highBit (self : LargeInteger) : Int :=
  self.highBitTo log2 self.nbDigits

/-- `//`; there is none by zero. -/
def intDiv (self : LargeInteger) (aNumber : Number) : Option Number :=
  if aNumber = .small 0 then none else (self.quoRem log2 aNumber).map QuoRem.quo

end LargeInteger

namespace Number

/-- `highBit` of a number that is not negative. -/
def highBitOf : Number → Int
  | small value => Arithmetic.highBit log2 value.toNat
  | large integer => integer.highBit log2

/-- `//`, with the address of a large argument. -/
def intDiv (self aNumber : Number) (address : Nat) : Option Number :=
  match self with
  | small value =>
    match Arithmetic.intDiv value aNumber address with
    | .answer result _ => some result
    | _ => none
  | large integer => integer.intDiv log2 aNumber

/-- The loop of `sqrtFloor`, with the addresses of the divisors that are large. -/
def sqrtGuesses (self : Number) : (fuel : Nat) → (address : Nat → Nat) → (guess : Number) →
    Option Number
  | 0, _, _ => none
  | fuel + 1, address, guess => do
    let square ← guess.times log2 guess
    let difference ← square.minus log2 self
    let double ← guess.bitShift log2 1
    let delta ← difference.intDiv log2 double (address 0)
    if delta.equals (small 0) then
      if square.equals self then some guess else guess.minus log2 (small 1)
    else do
      let guess ← guess.minus log2 delta
      sqrtGuesses self fuel (fun i => address (i + 1)) guess

def sqrtFloor (self : Number) (address : Nat → Nat) (fuel : Nat) : Option Number := do
  let guess ← (small 1).bitShift log2 ((self.highBitOf log2 + 1) / 2)
  sqrtGuesses log2 self fuel address guess

end Number

open Number

variable {log2}

section Divisions

variable {a b : Int}

/-- A small integer by a positive one. -/
theorem intDiv_small (fits : Fits a) (positive : 0 < b) (address : Nat) :
    (small a).intDiv log2 (small b) address = some (small (a / b)) := by
  have whole := (tagged_iff.mpr (fits.ediv_pos positive)).2
  rw [Number.intDiv, Arithmetic.intDiv, divisionBy, Number.asNative, if_neg positive.ne',
    primitiveSMIIntDiv_eq positive.ne', Int.fdiv_eq_ediv_of_nonneg _ positive.le, whole]

/-- A large argument counts as half of its address. -/
theorem intDiv_address (fits : Fits a) {address : Nat} (defined : 2 ≤ address)
    (integer : LargeInteger) : (small a).intDiv log2 (large integer) address =
      some (small (a / (address / 2 : Nat))) := by
  have positive : (0 : Int) < (address / 2 : Nat) := by lia
  have whole := (tagged_iff.mpr (fits.ediv_pos positive)).2
  rw [Number.intDiv, Arithmetic.intDiv, divisionBy, Number.asNative, if_neg positive.ne',
    primitiveSMIIntDiv_eq positive.ne', Int.fdiv_eq_ediv_of_nonneg _ positive.le, whole]

/-- A large integer by a divisor that is normalised right. -/
theorem intDiv_large (accurate : Accurate log2) {integer : LargeInteger} {divisor : Number}
    (canonical : Canonical (large integer)) (argument : Canonical divisor)
    (positive : 0 < divisor.toInt) (normal : Normal log2 divisor.toInt.toNat) (address : Nat) :
    Exact ((large integer).intDiv log2 divisor address) (integer.toInt / divisor.toInt) := by
  have apart : divisor ≠ small 0 := by
    rintro rfl
    exact absurd positive (by decide)
  have same : divisor.toInt.natAbs = divisor.toInt.toNat := by lia
  obtain ⟨data, found, divided⟩ :=
    quoRem_exact accurate canonical argument positive.ne' (same ▸ normal)
  rw [Number.intDiv, LargeInteger.intDiv, if_neg apart, found, Option.map_some,
    ← Int.fdiv_eq_ediv_of_nonneg _ positive.le]
  exact divided.quo

end Divisions

section Doubles

variable (accurate : Accurate log2)

include accurate

/-- The sizes are right also where the logarithms are rounded up. -/
theorem double_past {value : Int} (least : 2 ^ 61 ≤ value) (most : value < 2 ^ 62) :
    Exact (Number.bitShift log2 (small value) 1) (value * 2) := by
  have positive : 0 < value := by lia
  have fits : Fits value := by
    unfold Fits minimum maximum
    lia
  have bounds (number : Int) (count : Nat) (low : 2 ^ count ≤ number)
      (high : number < 2 ^ (count + 1)) (short : count < 62) :
      (count : Int) ≤ log2 number.toNat ∧ log2 number.toNat ≤ count + 1 := by
    obtain ⟨N, rfl⟩ := Int.eq_ofNat_of_zero_le ((pow_pos (by decide) count).le.trans low)
    have low' : 2 ^ count ≤ N := by exact_mod_cast low
    have high' : N < 2 ^ (count + 1) := by exact_mod_cast high
    have most : N < 2 ^ 62 := high'.trans_le (Nat.pow_le_pow_right (by decide) short)
    have some : 0 < N := (Nat.pow_pos (by decide)).trans_le low'
    have log := (Nat.log2_eq_iff some.ne').mpr ⟨low', high'⟩
    have bounded := accurate.bounded N some most
    rw [Int.toNat_natCast]
    lia
  have whole := bounds value 61 least most (by decide)
  have high : 2 ^ 54 ≤ value / 2 ^ 7 ∧ value / 2 ^ 7 < 2 ^ 55 := by lia
  have part := bounds (value / 2 ^ 7) 54 high.1 high.2 (by decide)
  have size : primitiveSMISize log2 (value / 2 ^ (8 - 1 % 8)) = 7 := by
    change primitiveSMISize log2 (value / 2 ^ 7) = 7
    rw [primitiveSMISize, if_neg (by lia)]
    lia
  obtain ⟨-, parts⟩ := shiftedLeft_parts (n := 1) accurate fits positive (by decide)
    (show 0 < value / 2 ^ (8 - 1 % 8) from (by lia : (0 : Int) < value / 2 ^ 7)) rfl
  rw [size] at parts
  have shift : ((1 : Nat) + log2 value.toNat + 8) / 8 - 7 = 1 := by lia
  rw [shift] at parts
  obtain ⟨result, found, sign, count, same⟩ := parts (by decide)
  have same : result.toInt = value * 2 := by
    change _ = value / 2 ^ 7 * 256 ^ 1 + value * 2 ^ 1 % 256 * 256 ^ 0 at same
    lia
  have length : result.nbDigits = 4 := by lia
  have past : Number.bitShift log2 (small value) 1 = (shiftedLeft log2 value 1).map large :=
    bitShift_past (n := 1) positive (by decide) (by unfold Fits maximum; lia)
  rw [past, found]
  refine ⟨_, rfl, ⟨by rw [same]; unfold Fits maximum; lia, ?_⟩, same⟩
  rw [Takes, if_neg (by simp [sign]), same, length]
  change 0 ≤ value * 2 ∧ value * 2 < 2 ^ 64 ∧ (4 ≤ 1 ∨ 2 ^ 48 ≤ value * 2)
  lia

/-- Twice a positive number. -/
theorem double_exact {guess : Number} (canonical : Canonical guess) (positive : 0 < guess.toInt) :
    Exact (guess.bitShift log2 1) (2 * guess.toInt) := by
  rw [Int.mul_comm]
  cases guess with
  | small value =>
    have positive : 0 < value := positive
    have fits : Fits value := canonical
    by_cases inside : value < 2 ^ 61
    · have exact := Number.bitShift_small_exact (n := 1) accurate fits positive.le (.inl (by
        unfold Fits minimum maximum
        lia))
      rwa [pow_one] at exact
    · unfold Fits maximum at fits
      exact double_past accurate (not_lt.mp inside) (by lia)
  | large integer =>
    have nonneg : 0 ≤ integer.toInt := positive.le
    have exact := (@LargeInteger.bitShift_exact_iff log2 integer 1 accurate canonical).mpr
      fun past => by
        have less := LargeInteger.toInt_neg past.1
        lia
    exact exact

end Doubles

/-- The division of the loop answers this for the guess. -/
def Answers (log2 : Nat → Int) (n : Int) (address : Nat) (g quotient : Int) : Prop :=
  ∀ difference double : Number, Canonical difference → Canonical double →
    difference.toInt = g * g - n → double.toInt = 2 * g →
      Exact (difference.intDiv log2 double address) quotient

section Answers

variable {n g : Int} {address : Nat}

/-- Numbers of one kind are divided exactly where the divisor is normalised right. -/
theorem answers_exact (positive : 0 < g) (accurate : Accurate log2) (small : Fits (g * g - n) → 2 * g < 2 ^ 62)
    (normal : ¬ Fits (g * g - n) → Normal log2 (2 * g).toNat) :
    Answers log2 n address g ((g * g - n) / (2 * g)) := by
  intro difference double canonical canonical' value value'
  cases difference with
  | large integer =>
    have value : integer.toInt = g * g - n := value
    have past : ¬ Fits integer.toInt := canonical.1
    rw [value] at past
    have right := normal past
    rw [← value'] at right
    have exact := intDiv_large accurate canonical canonical' (by lia) right address
    rwa [value, value'] at exact
  | small d =>
    have value : d = g * g - n := value
    have fits : Fits d := canonical
    cases double with
    | large integer =>
      have value' : integer.toInt = 2 * g := value'
      have past := canonical'.1
      have less := small (value ▸ fits)
      unfold Fits minimum maximum at past
      lia
    | small e =>
      have value' : e = 2 * g := value'
      rw [intDiv_small fits (by lia), value, value']
      exact exact_small ((value ▸ fits).ediv_pos (by lia))

/-- A small remainder is divided by half the address of a large divisor. -/
theorem answers_address (fits : Fits (g * g - n)) (wide : 2 ^ 62 ≤ 2 * g) (defined : 2 ≤ address) :
    Answers log2 n address g ((g * g - n) / (address / 2 : Nat)) := by
  intro difference double canonical canonical' value value'
  have same : difference = .small (g * g - n) := canonical.ext fits value
  subst same
  cases double with
  | small e =>
    have value' : e = 2 * g := value'
    have fits' : Fits e := canonical'
    unfold Fits maximum at fits'
    lia
  | large integer =>
    rw [intDiv_address fits defined]
    exact exact_small (fits.ediv_pos (by lia))

end Answers

/-- The division of the loop is right for the guess: a small remainder is divided by a small number,
or is below what a large one counts as, and a large remainder by what is normalised right. -/
structure Sound (log2 : Nat → Int) (least : Nat) (n g : Int) : Prop where
  placed : 2 ^ 61 ≤ g → g * g - n < 2 ^ 62 → g * g - n < (least / 2 : Nat)
  normal : 2 ^ 62 ≤ g * g - n → Normal log2 (2 * g).toNat

section Steps

variable (accurate : Accurate log2) {self guess : Number} {n g : Int} (canonical : Canonical self)
  (value : self.toInt = n) (current : Canonical guess) (same : guess.toInt = g) (positive : 0 < g)

include accurate canonical value current same positive

/-- What is computed for a guess before the division. -/
theorem guess_parts : ∃ square difference double, guess.times log2 guess = some square ∧
    square.minus log2 self = some difference ∧ guess.bitShift log2 1 = some double ∧
    Canonical square ∧ Canonical difference ∧ Canonical double ∧ square.toInt = g * g ∧
    difference.toInt = g * g - n ∧ double.toInt = 2 * g := by
  obtain ⟨square, found, canonicalS, valueS⟩ := (product_exact_iff accurate current current).mpr (by
    rintro ⟨a, -, rfl, -, -, less⟩
    rw [← same] at positive
    exact absurd positive (not_lt.mpr less.le))
  rw [same] at valueS
  have nonneg := mul_nonneg positive.le positive.le
  obtain ⟨difference, found', canonicalD, valueD⟩ :=
    difference_exact accurate canonicalS canonical (by lia)
  rw [valueS, value] at valueD
  obtain ⟨double, found₂, canonical₂, value₂⟩ := double_exact accurate current (same ▸ positive)
  exact ⟨square, difference, double, found, found', found₂, canonicalS, canonicalD, canonical₂,
    valueS, valueD, same ▸ value₂⟩

/-- A step, given what the division answers. -/
theorem guess_step {quotient : Int} (addresses : Nat → Nat)
    (answers : Answers log2 n (addresses 0) g quotient) :
    (quotient = 0 → ∃ s, Canonical s ∧ s.toInt = (if g * g = n then g else g - 1) ∧
      ∀ fuel, sqrtGuesses log2 self (fuel + 1) addresses guess = some s) ∧
    (quotient ≠ 0 → ∃ guess', Canonical guess' ∧ guess'.toInt = g - quotient ∧
      ∀ fuel, sqrtGuesses log2 self (fuel + 1) addresses guess =
        sqrtGuesses log2 self fuel (fun i => addresses (i + 1)) guess') := by
  obtain ⟨square, difference, double, foundS, foundD, foundDouble, canonicalS, canonicalD,
    canonicalDouble, valueS, valueD, valueDouble⟩ :=
      guess_parts accurate canonical value current same positive
  obtain ⟨delta, answered, canonical', rfl⟩ :=
    answers difference double canonicalD canonicalDouble valueD valueDouble
  have zero : Canonical (small 0) := by decide
  have one : Canonical (small 1) := by decide
  have stops : delta.equals (small 0) = true ↔ delta.toInt = 0 := equals_iff canonical' zero
  have exact := equals_iff canonicalS canonical
  rw [valueS, value] at exact
  constructor
  · intro stop
    by_cases root : g * g = n
    · refine ⟨guess, current, by rw [if_pos root, same], fun fuel => ?_⟩
      rw [sqrtGuesses]
      simp only [foundS, foundD, foundDouble, answered, Option.bind_eq_bind, Option.bind_some,
        stops.mpr stop, exact.mpr root, if_true]
    · obtain ⟨s, found, canonicalR, valueR⟩ :=
        difference_exact accurate current one (by rw [same]; exact positive.le)
      refine ⟨s, canonicalR, by rw [if_neg root, valueR, same]; rfl, fun fuel => ?_⟩
      rw [sqrtGuesses]
      simp only [foundS, foundD, foundDouble, answered, Option.bind_eq_bind, Option.bind_some,
        stops.mpr stop, if_true]
      rw [if_neg fun holds => root (exact.mp holds)]
      exact found
  · intro more
    obtain ⟨guess', found, canonicalG, valueG⟩ :=
      difference_exact accurate current canonical' (by rw [same]; exact positive.le)
    refine ⟨guess', canonicalG, by rw [valueG, same], fun fuel => ?_⟩
    rw [sqrtGuesses]
    simp only [foundS, foundD, foundDouble, answered, Option.bind_eq_bind, Option.bind_some]
    rw [if_neg fun holds => more (stops.mp holds)]
    simp only [found, Option.bind_some]

end Steps

/-- A sound guess is divided right. -/
theorem sound_answers (accurate : Accurate log2) {n g : Int} {least address : Nat}
    (positive : 0 < g) (placed : least ≤ address) (above : n ≤ g * g)
    (sound : Sound log2 least n g) : Answers log2 n address g ((g * g - n) / (2 * g)) := by
  by_cases counted : Fits (g * g - n) ∧ 2 ^ 62 ≤ 2 * g
  · have fits := counted.1
    unfold Fits maximum at fits
    have less := sound.placed (by lia) (by lia)
    have answers := @answers_address log2 n g address counted.1 counted.2 (by lia)
    rw [Int.ediv_eq_zero_of_lt (by lia) (by lia)] at answers
    rwa [Int.ediv_eq_zero_of_lt (by lia) (by lia)]
  · refine answers_exact positive accurate
      (fun fits => not_le.mp fun large => counted ⟨fits, large⟩) fun past => ?_
    refine sound.normal ?_
    unfold Fits minimum maximum at past
    lia

/-- Guesses that are sound, from one that is not too low, end in the root. -/
theorem sqrtGuesses_converges (accurate : Accurate log2) {least : Nat}
    {self : Number} {n : Int} (canonical : Canonical self) (value : self.toInt = n) (nonneg : 0 ≤ n)
    {Reached : Int → Prop} (sound : ∀ g, Reached g → 0 < g → n ≤ g * g → Sound log2 least n g)
    (kept : ∀ g, Reached g → 0 < g → n ≤ g * g → Reached (NewtonRoot.next n g))
    {guess : Number} (current : Canonical guess) (positive : 0 < guess.toInt)
    (above : n ≤ guess.toInt * guess.toInt) (reached : Reached guess.toInt) {address : Nat → Nat}
    (placed : ∀ i, least ≤ address i) :
    ∃ s, Converges (fun fuel => sqrtGuesses log2 self fuel address guess) s ∧ Canonical s ∧
      0 ≤ s.toInt ∧ s.toInt * s.toInt ≤ n ∧ n < (s.toInt + 1) * (s.toInt + 1) := by
  obtain ⟨size, bound⟩ := Int.eq_ofNat_of_zero_le positive.le
  induction size using Nat.strong_induction_on generalizing guess address with
  | _ size ih =>
    have answers := sound_answers accurate positive (placed 0) above
      (sound _ reached positive above)
    obtain ⟨stops, goes⟩ := guess_step accurate canonical value current rfl positive address answers
    by_cases zero : (guess.toInt * guess.toInt - n) / (2 * guess.toInt) = 0
    · obtain ⟨s, canonicalS, root, found⟩ := stops zero
      refine ⟨s, ⟨1, fun fuel enough => ?_⟩, canonicalS,
        NewtonRoot.root_of_quotient_zero positive zero root⟩
      obtain ⟨fuel, rfl⟩ := Nat.exists_eq_add_of_le' enough
      exact found fuel
    · obtain ⟨guess', canonical', valueG, found⟩ := goes zero
      have next : guess'.toInt = NewtonRoot.next n guess.toInt := valueG
      have less := NewtonRoot.next_lt positive above zero
      have positive' := NewtonRoot.next_pos nonneg positive
      obtain ⟨s, ⟨bound', converges⟩, right⟩ := @ih guess'.toInt.toNat (by lia) guess' canonical'
        (by lia) (by rw [next]; exact NewtonRoot.le_next positive)
        (by rw [next]; exact kept _ reached positive above) (fun i => address (i + 1))
        (fun i => placed (i + 1)) (by lia)
      refine ⟨s, ⟨bound' + 1, fun fuel enough => ?_⟩, right⟩
      obtain ⟨fuel, rfl⟩ := Nat.exists_eq_add_of_le' (show 1 ≤ fuel by lia)
      exact (found fuel).trans (converges fuel (by lia))

end Egg.Arithmetic
