import Egg.Arithmetic.Exactness
import Mathlib.Data.Int.Bitwise

/-! Division of small integers by the machine. -/
namespace Egg.Arithmetic

open Number

/-- What a send of a division ends in. -/
inductive Outcome where
  | answer (result : Number) (byFallback : Bool)
  | zeroDivide
  /-- The machine divides by zero. -/
  | trap
  deriving DecidableEq

/-- What the primitive takes the argument for: of a large integer, half its address. -/
def Number.asNative : Number → (address : Nat) → Int
  | small value, _ => value
  | large _, address => (address / 2 : Nat)

/-- The 63 bits that are left of an integer when it is tagged in a word. -/
def tagged (value : Int) : Int :=
  (value + 2 ^ 62) % 2 ^ 63 - 2 ^ 62

def primitiveSMIIntDiv (a b : Int) : Int :=
  let q := a.tdiv b
  let q := if a.tmod b ≠ 0 ∧ Int.xor a b < 0 then q - 1 else q
  tagged q

def primitiveSMIIntQuot (a b : Int) : Int :=
  let r := a.tmod b
  let r := if r ≠ 0 ∧ Int.xor a b < 0 then r + b else r
  tagged r

/-- `//` and `\\` have a primitive that never fails, and no code behind it. -/
def divisionBy (primitive : Int → Int → Int) (a : Int) (aNumber : Number) (address : Nat) :
    Outcome :=
  if aNumber.asNative address = 0 then .trap
  else .answer (small (primitive a (aNumber.asNative address))) false

def intDiv : Int → Number → (address : Nat) → Outcome := divisionBy primitiveSMIIntDiv

def intQuot : Int → Number → (address : Nat) → Outcome := divisionBy primitiveSMIIntQuot

/-- The outcome is the value in canonical form, for a large argument by the fallback; a division
by zero is signalled. -/
def Divides (aNumber : Number) (value : Int) (outcome : Outcome) : Prop :=
  if aNumber.toInt = 0 then outcome = .zeroDivide
  else ∃ result byFallback, outcome = .answer result byFallback ∧ Canonical result ∧
    result.toInt = value ∧ ((∃ integer, aNumber = large integer) → byFallback = true)

section Machine

variable {a b : Int}

theorem xor_neg_iff : Int.xor a b < 0 ↔ (a < 0 ↔ 0 ≤ b) := by
  have below (n : Nat) : Int.negSucc n < 0 := Int.negSucc_lt_zero n
  have least (n : Nat) : 0 ≤ Int.ofNat n := Int.natCast_nonneg n
  cases a with
  | ofNat a =>
    cases b with
    | ofNat b =>
      have first := least a
      have second := least b
      have both := least (a ^^^ b)
      change Int.ofNat (a ^^^ b) < 0 ↔ _
      omega
    | negSucc b =>
      have first := least a
      have second := below b
      have both := below (a ^^^ b)
      change Int.negSucc (a ^^^ b) < 0 ↔ _
      omega
  | negSucc a =>
    cases b with
    | ofNat b =>
      have first := below a
      have second := least b
      have both := below (a ^^^ b)
      change Int.negSucc (a ^^^ b) < 0 ↔ _
      omega
    | negSucc b =>
      have first := below a
      have second := below b
      have both := least (a ^^^ b)
      change Int.ofNat (a ^^^ b) < 0 ↔ _
      omega

/-- The correction makes the truncated quotient the floor. -/
theorem quotient_eq (nonzero : b ≠ 0) :
    (if a.tmod b ≠ 0 ∧ Int.xor a b < 0 then a.tdiv b - 1 else a.tdiv b) = a.fdiv b := by
  have divides : a.tmod b = 0 ↔ b ∣ a := Int.dvd_iff_tmod_eq_zero.symm
  simp only [xor_neg_iff, Int.fdiv_eq_tdiv, Ne, divides]
  by_cases exact : b ∣ a
  · simp only [exact, not_true, false_and, if_false, if_true, sub_zero]
  · rcases Int.lt_or_gt_of_ne nonzero with negative | positive
    · rw [Int.sign_eq_neg_one_of_neg negative]
      simp only [exact, not_false_eq_true, true_and, if_false]
      split_ifs <;> omega
    · rw [Int.sign_eq_one_of_pos positive]
      simp only [exact, not_false_eq_true, true_and, if_false]
      split_ifs <;> omega

theorem remainder_eq :
    (if a.tmod b ≠ 0 ∧ Int.xor a b < 0 then a.tmod b + b else a.tmod b) = a.fmod b := by
  have divides : a.tmod b = 0 ↔ b ∣ a := Int.dvd_iff_tmod_eq_zero.symm
  simp only [xor_neg_iff, Int.fmod_eq_tmod, Ne, divides]
  by_cases exact : b ∣ a
  · simp only [exact, not_true, false_and, if_false, if_true, add_zero]
  · simp only [exact, not_false_eq_true, true_and, if_false]
    split_ifs <;> omega

theorem tagged_iff : (Fits (tagged a) ∧ tagged a = a) ↔ Fits a := by
  unfold Fits tagged minimum maximum
  omega

/-- A quotient leaves the small integers only where the least one is divided by minus one. -/
theorem fdiv_fits_iff (fits : Fits a) (nonzero : b ≠ 0) :
    Fits (a.fdiv b) ↔ ¬ (a = minimum ∧ b = -1) := by
  have shrinks (e c : Int) (positive : 0 < c) : (0 ≤ e → 0 ≤ e / c ∧ e / c ≤ e) ∧
      (e < 0 → e ≤ e / c ∧ e / c < 0) := by
    constructor
    · intro above
      exact ⟨Int.ediv_nonneg above positive.le, Int.ediv_le_self c above⟩
    · intro below
      constructor
      · apply Int.le_ediv_of_mul_le positive
        nlinarith
      · exact Int.ediv_neg_of_neg_of_pos below positive
  unfold Fits minimum maximum at *
  rcases Int.lt_or_gt_of_ne nonzero with negative | positive
  · obtain ⟨above, below⟩ := shrinks (-a) (-b) (by omega)
    rw [← Int.neg_fdiv_neg, Int.fdiv_eq_ediv_of_nonneg _ (by omega : 0 ≤ -b)]
    by_cases unit : b = -1
    · subst unit
      rw [neg_neg, Int.ediv_one]
      omega
    · have halved : 0 ≤ -a → -a / -b * 2 ≤ -a := by
        intro nonnegative
        have whole := Int.ediv_mul_le (-a) (by omega : -b ≠ 0)
        have twice := mul_le_mul_of_nonneg_left (by omega : 2 ≤ -b) (above nonnegative).1
        omega
      omega
  · obtain ⟨above, below⟩ := shrinks a b positive
    rw [Int.fdiv_eq_ediv_of_nonneg _ positive.le]
    omega

theorem fmod_fits (fits : Fits b) (nonzero : b ≠ 0) : Fits (a.fmod b) := by
  unfold Fits at *
  rcases Int.lt_or_gt_of_ne nonzero with negative | positive
  · have mirrored := Int.neg_fmod_neg a b
    have lower := Int.fmod_nonneg_of_pos (-a) (by omega : 0 < -b)
    have upper := Int.fmod_lt_of_pos (-a) (by omega : 0 < -b)
    unfold minimum maximum at *
    omega
  · have lower := Int.fmod_nonneg_of_pos a positive
    have upper := Int.fmod_lt_of_pos a positive
    unfold minimum maximum at *
    omega

theorem primitiveSMIIntDiv_eq (nonzero : b ≠ 0) :
    primitiveSMIIntDiv a b = tagged (a.fdiv b) := by
  exact congrArg tagged (quotient_eq nonzero)

theorem primitiveSMIIntQuot_eq : primitiveSMIIntQuot a b = tagged (a.fmod b) := by
  exact congrArg tagged remainder_eq

end Machine

section Sends

variable {a value : Int} {aNumber : Number} {address : Nat} {primitive : Int → Int → Int}

theorem divides_small_iff {n : Int} (nonzero : n ≠ 0) :
    Divides (small n) value (.answer (small a) false) ↔ Fits a ∧ a = value := by
  have defined : (small n).toInt ≠ 0 := nonzero
  unfold Divides
  rw [if_neg defined]
  constructor
  · rintro ⟨result, byFallback, same, canonical, equal, -⟩
    cases same
    exact ⟨canonical, equal⟩
  · rintro ⟨canonical, equal⟩
    refine ⟨small a, false, rfl, canonical, equal, ?_⟩
    rintro ⟨integer, large⟩
    cases large

/-- With no code behind the primitive only a small argument other than zero is divided by. -/
theorem divides_iff (canonical : Canonical aNumber)
    (tags : ∀ n, n ≠ 0 → aNumber = small n → primitive a n = tagged value) :
    Divides aNumber value (divisionBy primitive a aNumber address) ↔
      (∃ n, aNumber = small n ∧ n ≠ 0) ∧ Fits value := by
  cases aNumber with
  | small n =>
    by_cases zero : n = 0
    · subst zero
      constructor
      · intro divides
        cases divides
      · rintro ⟨⟨n, same, nonzero⟩, -⟩
        cases same
        exact absurd rfl nonzero
    · have answers : divisionBy primitive a (small n) address =
          .answer (small (tagged value)) false := by
        rw [← tags n zero rfl]
        exact if_neg zero
      rw [answers, divides_small_iff zero, tagged_iff]
      exact ⟨fun fits => ⟨⟨n, rfl, zero⟩, fits⟩, fun both => both.2⟩
  | large integer =>
    have nonzero : (large integer).toInt ≠ 0 := by
      intro zero
      apply canonical.1
      rw [show integer.toInt = 0 from zero]
      decide
    constructor
    · intro divides
      unfold Divides at divides
      rw [if_neg nonzero] at divides
      obtain ⟨result, byFallback, same, -, -, behind⟩ := divides
      have byCode := behind ⟨integer, rfl⟩
      unfold divisionBy at same
      split_ifs at same
      cases same
      cases byCode
    · rintro ⟨⟨n, same, -⟩, -⟩
      cases same

end Sends

/-- The two sends do what they promise exactly for a small argument other than zero, and of the
quotients all but the one that is no small integer. -/
theorem division_iff (a : Int) (aNumber : Number) (address : Nat) (fits : Fits a)
    (canonical : Canonical aNumber) :
    (Divides aNumber (a.fdiv aNumber.toInt) (intDiv a aNumber address) ↔
      ∃ n, aNumber = small n ∧ n ≠ 0 ∧ ¬ (a = minimum ∧ n = -1)) ∧
    (Divides aNumber (a - a.fdiv aNumber.toInt * aNumber.toInt) (intQuot a aNumber address) ↔
      ∃ n, aNumber = small n ∧ n ≠ 0) := by
  have remainder (n : Int) : a - a.fdiv n * n = a.fmod n := by
    have whole := Int.fmod_add_fdiv_mul a n
    omega
  constructor
  · unfold intDiv
    rw [divides_iff canonical]
    · constructor
      · rintro ⟨⟨n, rfl, nonzero⟩, inside⟩
        exact ⟨n, rfl, nonzero, (fdiv_fits_iff fits nonzero).mp inside⟩
      · rintro ⟨n, rfl, nonzero, apart⟩
        exact ⟨⟨n, rfl, nonzero⟩, (fdiv_fits_iff fits nonzero).mpr apart⟩
    · rintro n nonzero rfl
      exact primitiveSMIIntDiv_eq nonzero
  · unfold intQuot
    rw [remainder, divides_iff canonical]
    · constructor
      · exact fun both => both.1
      · rintro ⟨n, rfl, nonzero⟩
        exact ⟨⟨n, rfl, nonzero⟩, fmod_fits canonical nonzero⟩
    · rintro n nonzero rfl
      exact primitiveSMIIntQuot_eq

/-- Seven by minus two. -/
theorem division_iff_seven :
    Divides (small (-2)) (Int.fdiv 7 (-2)) (intDiv 7 (small (-2)) 0) :=
  (division_iff 7 (small (-2)) 0 (by decide) (by decide)).1.mpr
    ⟨-2, rfl, by decide, by decide⟩

/-- A division by zero traps and is not signalled. -/
theorem zero_divide_traps :
    Canonical (small 0) ∧ intDiv 5 (small 0) 0 = .trap ∧
      ¬ Divides (small 0) (Int.fdiv 5 0) (intDiv 5 (small 0) 0) := by
  refine ⟨by decide, rfl, ?_⟩
  intro divides
  cases divides

end Egg.Arithmetic
