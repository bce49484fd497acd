import Egg.Arithmetic.BrokenDivision
import Egg.Arithmetic.SquareRootExactness

/-! Guesses that never end, and for which numbers they end in the square root. -/
namespace Egg.Arithmetic

open Egg.Data Number

variable {log2 : Nat → Int} {n g : Int} {address : Nat}

/-- The division of the loop has no result for the guess. -/
def Fails (log2 : Nat → Int) (n : Int) (address : Nat) (g : Int) : Prop :=
  ∀ difference double : Number, Canonical difference → Canonical double →
    difference.toInt = g * g - n → double.toInt = 2 * g →
      difference.intDiv log2 double address = none

/-- Where the remainder is negative so is the quotient. -/
theorem answers_negative (positive : 0 < g) (accurate : Accurate log2) (defined : 2 ≤ address)
    (below : g * g < n) (wide : Fits (g * g - n) ∨ 2 ^ 62 ≤ 2 * g) :
    ∃ quotient, quotient < 0 ∧ Answers log2 n address g quotient := by
  by_cases counted : Fits (g * g - n) ∧ 2 ^ 62 ≤ 2 * g
  · exact ⟨_, Int.ediv_neg_of_neg_of_pos (by lia) (by lia),
      answers_address counted.1 counted.2 defined⟩
  · exact ⟨_, Int.ediv_neg_of_neg_of_pos (by lia) (by lia),
      answers_exact positive accurate (fun fits => not_le.mp fun large => counted ⟨fits, large⟩)
        fun past => have large := wide.resolve_left past
          ⟨fun _ less => by lia, fun _ less => by lia⟩⟩

section Endless

variable (accurate : Accurate log2) {self guess : Number} (canonical : Canonical self)
  (value : self.toInt = n) (Stuck : Int → Prop)

include accurate canonical value

theorem sqrtGuesses_fails (current : Canonical guess) (positive : 0 < guess.toInt)
    (fails : Fails log2 n address guess.toInt) (fuel : Nat) :
    sqrtGuesses log2 self fuel (fun _ => address) guess = none := by
  obtain ⟨square, difference, double, foundS, foundD, foundDouble, -, canonicalD, canonicalDouble,
    -, valueD, valueDouble⟩ := guess_parts accurate canonical value current rfl positive
  cases fuel with
  | zero => rfl
  | succ fuel =>
    rw [sqrtGuesses]
    simp only [foundS, foundD, foundDouble, Option.bind_eq_bind, Option.bind_some,
      fails difference double canonicalD canonicalDouble valueD valueDouble, Option.bind_none]

/-- Guesses that are followed by one of them never end. -/
theorem sqrtGuesses_never (each : ∀ g, Stuck g → 0 < g ∧
      ∃ quotient, quotient ≠ 0 ∧ Stuck (g - quotient) ∧ Answers log2 n address g quotient)
    (current : Canonical guess) (stuck : Stuck guess.toInt) (fuel : Nat) :
    sqrtGuesses log2 self fuel (fun _ => address) guess = none := by
  induction fuel generalizing guess with
  | zero => rfl
  | succ fuel ih =>
    obtain ⟨positive, quotient, more, stuck', answers⟩ := each guess.toInt stuck
    obtain ⟨guess', canonical', next, found⟩ :=
      (guess_step accurate canonical value current rfl positive (fun _ => address) answers).2 more
    rw [found fuel]
    exact ih canonical' (next ▸ stuck')

end Endless

section Misplaced

variable (accurate : Accurate log2) {self guess : Number} (canonical : Canonical self)
  (value : self.toInt = n)

include accurate canonical value

/-- Where the remainder of the least guess that is not too low counts as one divisor, the guesses
pass the root downwards and return. -/
theorem sqrtGuesses_passes (large : 2 ^ 61 ≤ g) (low : (g - 1) * (g - 1) < n) (above : n < g * g)
    (fits : g * g - n < 2 ^ 62) (current : Canonical guess) (start : g ≤ guess.toInt) (fuel : Nat) :
    sqrtGuesses log2 self fuel (fun _ => (2 * (g * g - n) + 1).toNat) guess = none := by
  obtain ⟨d, rest⟩ : ∃ d, g * g - n = d := ⟨_, rfl⟩
  rw [rest] at fits ⊢
  have half : (((2 * d + 1).toNat / 2 : Nat) : Int) = d := by lia
  refine sqrtGuesses_never accurate canonical value (fun x => g - 1 ≤ x)
    (fun x stuck => ⟨by lia, ?_⟩) current (by lia) fuel
  rcases lt_trichotomy x g with below | same | more
  · obtain rfl : x = g - 1 := by lia
    have square : (g - 1) * (g - 1) - n = d - 2 * g + 1 := by
      rw [← rest]
      ring
    obtain ⟨quotient, negative, answers⟩ := @answers_negative log2 n (g - 1) (2 * d + 1).toNat
      (show 0 < g - 1 by lia) accurate (by lia) low (by
        rw [square]
        unfold Fits minimum maximum
        lia)
    exact ⟨quotient, negative.ne, by lia, answers⟩
  · subst same
    have answers := @answers_address log2 n x (2 * d + 1).toNat
      (by rw [rest]; unfold Fits minimum maximum; lia) (by lia) (by lia)
    rw [half, rest, Int.ediv_self (by lia)] at answers
    exact ⟨1, by decide, Int.le_refl _, answers⟩
  · have wide : 2 * x ≤ x * x - n := by nlinarith
    have answers := @answers_exact log2 n x (2 * d + 1).toNat (by lia) accurate (by
      unfold Fits maximum
      lia) fun _ => ⟨fun _ less => by lia, fun _ less => by lia⟩
    have many := Int.le_ediv_of_mul_le (show 0 < 2 * x by lia) (show 1 * (2 * x) ≤ x * x - n by lia)
    refine ⟨_, by lia, ?_, answers⟩
    have next := NewtonRoot.le_next (n := n) (show 0 < x by lia)
    have positive := NewtonRoot.next_pos (n := n) (by nlinarith) (show 0 < x by lia)
    unfold NewtonRoot.next at next positive
    by_contra lower
    have squares : (x - (x * x - n) / (2 * x)) * (x - (x * x - n) / (2 * x)) ≤ (g - 1) * (g - 1) :=
      mul_le_mul (by lia) (by lia) positive.le (by lia)
    lia

/-- Below the square of an even root the guesses pass it too where the remainder counts twice. -/
theorem sqrtGuesses_skips (square : n = (2 ^ 61 - 1) * (2 ^ 61 - 1)) (current : Canonical guess)
    (start : guess.toInt = 2 ^ 61) (fuel : Nat) :
    sqrtGuesses log2 self fuel (fun _ => 2 ^ 62 - 1) guess = none := by
  subst square
  refine sqrtGuesses_never accurate canonical value (fun x => x = 2 ^ 61 ∨ x = 2 ^ 61 - 2)
    (fun x stuck => ?_) current (.inl start) fuel
  rcases stuck with rfl | rfl
  · have answers := @answers_address log2 ((2 ^ 61 - 1) * (2 ^ 61 - 1)) (2 ^ 61) (2 ^ 62 - 1)
      (by decide) (by decide) (by decide)
    exact ⟨by decide, 2, by decide, .inr rfl, answers⟩
  · have answers := @answers_exact log2 ((2 ^ 61 - 1) * (2 ^ 61 - 1)) (2 ^ 61 - 2) (2 ^ 62 - 1)
      (by decide) accurate (fun _ => by decide) fun past => absurd (by decide) past
    rw [show ((2 ^ 61 - 2) * (2 ^ 61 - 2) - (2 ^ 61 - 1) * (2 ^ 61 - 1)) / (2 * (2 ^ 61 - 2)) =
      (-2 : Int) by decide] at answers
    exact ⟨by decide, -2, by decide, .inl rfl, answers⟩

end Misplaced

section Broken

variable (rounded : Rounded log2) {self guess : Number} (canonical : Canonical self)
  (value : self.toInt = n) {q r : Int} (small : 0 ≤ q ∧ q < 2 ^ 15) (rest : 0 ≤ r ∧ r < 2 ^ 62)
  (split : n = 2 ^ 122 - (2 ^ 62 * q + r)) (more : 2 ^ 62 ≤ r + q * q)

include small rest split more

/-- What is left of the number for the second guess. -/
theorem second_remainder : (2 ^ 61 - q) * (2 ^ 61 - q) - n = r + q * q ∧ 1 ≤ q ∧
    r + q * q < 2 ^ 62 + 2 ^ 30 := by
  have square : q * q ≤ 2 ^ 15 * 2 ^ 15 :=
    mul_le_mul small.2.le small.2.le small.1 (by decide)
  refine ⟨by rw [split]; ring, ?_, by lia⟩
  by_contra none
  obtain rfl : q = 0 := by lia
  lia

/-- A quotient of almost a whole digit is taken back in the next step. -/
theorem answers_back (rounded : Rounded log2) {quotient : Int}
    (digit : quotient = 65534 ∨ quotient = 65535) :
    Answers log2 n address (2 ^ 61 - q - quotient) (-quotient) := by
  obtain ⟨remainder, least, below⟩ := second_remainder small rest split more
  obtain ⟨s, square⟩ : ∃ s, r + q * q = s := ⟨_, rfl⟩
  rw [square] at remainder below more
  have parts : (2 ^ 61 - q - quotient) * (2 ^ 61 - q - quotient) - n =
      s - 2 * (2 ^ 61 - q) * quotient + quotient * quotient := by
    rw [← remainder]
    ring
  have back : ((2 ^ 61 - q - quotient) * (2 ^ 61 - q - quotient) - n) /
      (2 * (2 ^ 61 - q - quotient)) = -quotient := by
    rw [Int.ediv_eq_iff_of_pos (by lia), parts]
    rcases digit with rfl | rfl <;> lia
  rw [← back]
  refine answers_exact (by lia) rounded.toAccurate (fun fits => ?_) fun _ => ?_
  · lia
  · obtain ⟨D, double⟩ := Int.eq_ofNat_of_zero_le (show 0 ≤ 2 * (2 ^ 61 - q - quotient) by lia)
    rw [double, Int.toNat_natCast]
    refine rounded.normal (by lia) fun near => ?_
    have log := (Nat.log2_eq_iff (show D ≠ 0 by lia)).mpr
      ⟨show 2 ^ 61 ≤ D by lia, show D < 2 ^ (61 + 1) by lia⟩
    rw [Near, log] at near
    lia

include canonical value

/-- Where the second guess is divided wrong there is no right answer. -/
theorem second_wrong (rounded : Rounded log2) (wrong : ¬ Normal log2 (2 ^ 62 - 2 * q).toNat)
    (current : Canonical guess) (second : guess.toInt = 2 ^ 61 - q) {s : Number}
    (converges : Converges (fun fuel => sqrtGuesses log2 self fuel (fun _ => address) guess) s) :
    n < s.toInt * s.toInt := by
  have accurate := rounded.toAccurate
  obtain ⟨remainder, least, below⟩ := second_remainder small rest split more
  have positive : 0 < guess.toInt := by lia
  obtain ⟨-, difference, double, -, -, -, -, canonicalD, canonicalDouble, -, valueD, valueDouble⟩ :=
    guess_parts accurate canonical value current rfl positive
  obtain ⟨bound, ends⟩ := converges
  -- the division is of these numbers only
  have unique (other double' : Number) (canonicalO : Canonical other)
      (canonicalDouble' : Canonical double') (valueO : other.toInt = guess.toInt * guess.toInt - n)
      (valueDouble' : double'.toInt = 2 * guess.toInt) :
      other.intDiv log2 double' address = difference.intDiv log2 double address := by
    rw [canonicalO.ext canonicalD (valueO.trans valueD.symm),
      canonicalDouble'.ext canonicalDouble (valueDouble'.trans valueDouble.symm)]
  cases difference with
  | small d =>
    have fits : Fits d := canonicalD
    have valueD : d = guess.toInt * guess.toInt - n := valueD
    rw [second, remainder] at valueD
    unfold Fits maximum at fits
    lia
  | large integer =>
  have valueD : integer.toInt = guess.toInt * guess.toInt - n := valueD
  obtain ⟨D, divisor⟩ := Int.eq_ofNat_of_zero_le (show 0 ≤ 2 * guess.toInt by lia)
  have fits : Canonical (.small (D : Int)) := by
    change Fits _
    unfold Fits minimum maximum
    lia
  cases canonicalDouble.ext fits (valueDouble.trans divisor)
  have same : (2 ^ 62 - 2 * q).toNat = D := by lia
  rw [same] at wrong
  have dividend : integer.toInt = r + q * q := by rw [valueD, second, remainder]
  obtain ⟨U, valueU⟩ := Int.eq_ofNat_of_zero_le (show 0 ≤ integer.toInt by lia)
  have divided : (Number.large integer).intDiv log2 (.small D) address =
      (integer.quoRem log2 (.small D)).map QuoRem.quo := by
    rw [Number.intDiv, LargeInteger.intDiv, if_neg]
    intro zero
    have zero : (D : Int) = 0 := congrArg Number.toInt zero
    lia
  rcases broken_quotient accurate (by lia) (by lia) wrong canonicalD valueU (by lia)
    (by lia) with none | ⟨data, found, quotient, kind, exact⟩
  · rw [none] at divided
    have never := sqrtGuesses_fails accurate canonical value current positive
      (fun other double' c c' v v' => (unique other double' c c' v v').trans divided) bound
    exact absurd (never.symm.trans (ends bound le_rfl)) (by simp)
  · rw [found] at divided
    have answers : Answers log2 n address guess.toInt quotient :=
      fun other double' c c' v v' => by
        rw [unique other double' c c' v v', divided]
        exact exact
    rcases kind with rfl | digit
    · obtain ⟨s', -, root, stops⟩ :=
        (guess_step accurate canonical value current rfl positive (fun _ => address) answers).1 rfl
      cases (stops bound).symm.trans (ends (bound + 1) (by lia))
      rw [if_neg (by lia)] at root
      rw [root, second]
      have square : (2 ^ 61 - q - 1) * (2 ^ 61 - q - 1) =
          (2 ^ 61 - q) * (2 ^ 61 - q) - 2 ^ 62 + 2 * q + 1 := by ring
      lia
    · have never : sqrtGuesses log2 self bound (fun _ => address) guess = none :=
        sqrtGuesses_never accurate canonical value
        (fun x => x = guess.toInt ∨ x = guess.toInt - quotient) (fun x stuck => by
          rcases stuck with rfl | rfl
          · exact ⟨positive, quotient, by lia, .inr rfl, answers⟩
          · refine ⟨by lia, -quotient, by lia, .inl (by lia), ?_⟩
            rw [second]
            exact answers_back small rest split more rounded digit) current (.inl rfl) bound
      exact absurd (never.symm.trans (ends bound le_rfl)) (by simp)

end Broken

theorem start_exact {n k : Nat} (least : 2 ^ 121 ≤ n) (most : n < 2 ^ 122) (below : n < 2 ^ (2 * k))
    (start : k ≤ 32 ∧ n < 2 ^ 62 ∨ 2 ^ (2 * k) ≤ 4 * n ∧ 2 ^ 62 ≤ n) : k = 61 := by
  have low : 2 * k > 121 := (Nat.pow_lt_pow_iff_right (by decide)).mp (least.trans_lt below)
  have power : 2 ^ (2 * k) < 2 ^ 124 := by lia
  have high : 2 * k < 124 := (Nat.pow_lt_pow_iff_right (by decide)).mp power
  lia

section Converse

variable (rounded : Rounded log2) {least : Nat} {self : Number} (canonical : Canonical self)
  (nonneg : 0 ≤ self.toInt) (right : ∀ address : Nat → Nat,
    (∀ i, least ≤ address i ∧ address i < 2 ^ 64) → ∃ s, Converges (self.sqrtFloor log2 address) s ∧
      Canonical s ∧ 0 ≤ s.toInt ∧ s.toInt * s.toInt ≤ self.toInt ∧
        self.toInt < (s.toInt + 1) * (s.toInt + 1))

include rounded canonical nonneg right

theorem placed_of_right (defined : 2 ≤ least) (most : least ≤ 2 ^ 48) (large : 2 ^ 61 ≤ g) (above : self.toInt ≤ g * g)
    (fits : g * g - self.toInt < 2 ^ 62) : g * g - self.toInt < (least / 2 : Nat) := by
  by_contra counts
  have accurate := rounded.toAccurate
  obtain ⟨n, value⟩ := Int.eq_ofNat_of_zero_le nonneg
  obtain ⟨k, guess, current, first, below, start, same⟩ :=
    sqrtFloor_start accurate canonical value
  rw [value] at above fits counts
  -- no address may keep the guesses from ending
  have never (address : Nat) (enough : least ≤ address) (short : address < 2 ^ 64) :
      ¬ ∀ fuel, sqrtGuesses log2 self fuel (fun _ => address) guess = none := by
    intro none
    obtain ⟨s, ⟨bound, ends⟩, -⟩ := right (fun _ => address) fun _ => ⟨enough, short⟩
    have found := ends bound le_rfl
    rw [same, none] at found
    cases found
  have square : (2 : Int) ^ (2 * k) = 2 ^ k * 2 ^ k := by rw [two_mul, pow_add]
  have less : (n : Int) < 2 ^ (2 * k) := by exact_mod_cast below
  by_cases low : (g - 1) * (g - 1) < n
  · have higher : g ≤ guess.toInt := by
      rw [first]
      by_contra lower
      have power : (0 : Int) < 2 ^ k := by positivity
      have squares : (2 : Int) ^ k * 2 ^ k ≤ (g - 1) * (g - 1) :=
        mul_le_mul (by lia) (by lia) power.le (by lia)
      lia
    exact never (2 * (g * g - n) + 1).toNat (by lia) (by lia) fun fuel =>
      sqrtGuesses_passes accurate canonical value large low (by lia) fits current higher fuel
  · have previous : (g - 1) * (g - 1) = g * g - 2 * g + 1 := by ring
    obtain rfl : g = 2 ^ 61 := by lia
    have exact : (n : Int) = (2 ^ 61 - 1) * (2 ^ 61 - 1) := by lia
    have top := start_exact (by lia) (by lia) below start
    subst top
    exact never (2 ^ 62 - 1) (by lia) (by decide) fun fuel =>
      sqrtGuesses_skips accurate canonical value exact current first fuel

theorem normal_of_right (most : least ≤ 2 ^ 48) {q r : Int} (small : 0 ≤ q ∧ q < 2 ^ 15)
    (rest : 0 ≤ r ∧ r < 2 ^ 62) (split : self.toInt = 2 ^ 122 - (2 ^ 62 * q + r))
    (more : 2 ^ 62 ≤ r + q * q) : Normal log2 (2 ^ 62 - 2 * q).toNat := by
  by_contra wrong
  have accurate := rounded.toAccurate
  obtain ⟨n, value⟩ := Int.eq_ofNat_of_zero_le nonneg
  obtain ⟨k, guess, current, first, below, start, same⟩ :=
    sqrtFloor_start accurate canonical value
  rw [value] at split
  obtain ⟨-, some, -⟩ := second_remainder small rest split more
  have top := start_exact (by lia) (by lia) below start
  subst top
  have answers := @answers_exact log2 n (2 ^ 61) least (by decide) accurate
    (fun fits => by unfold Fits maximum at fits; lia)
    fun _ => ⟨fun _ less => absurd less (by decide), fun _ less => absurd less (by decide)⟩
  have quotient : (2 ^ 61 * 2 ^ 61 - (n : Int)) / (2 * 2 ^ 61) = q := by lia
  rw [quotient] at answers
  obtain ⟨guess', current', second, found⟩ := (guess_step accurate canonical value current first
    (by decide) (fun _ => least) answers).2 (by lia)
  obtain ⟨s, ⟨bound, ends⟩, -, -, root, -⟩ := right (fun _ => least) fun _ => ⟨le_rfl, by lia⟩
  have converges : Converges (fun fuel => sqrtGuesses log2 self fuel (fun _ => least) guess') s :=
    ⟨bound, fun fuel enough =>
      (found fuel).symm.trans ((same _ _).symm.trans (ends (fuel + 1) (by lia)))⟩
  have over' := second_wrong canonical value small rest split more rounded wrong current' second
    converges
  lia

end Converse

/-- The guesses end in the square root, whatever the addresses of the divisors, if and only if no
remainder counts as more than an address and the second guess is not divided wrong. -/
theorem sqrtFloor_right_iff (rounded : Rounded log2) {least : Nat} (defined : 2 ≤ least)
    (most : least ≤ 2 ^ 48) {self : Number} (canonical : Canonical self) (nonneg : 0 ≤ self.toInt) :
    (∀ address : Nat → Nat, (∀ i, least ≤ address i ∧ address i < 2 ^ 64) →
      ∃ s, Converges (self.sqrtFloor log2 address) s ∧ Canonical s ∧ 0 ≤ s.toInt ∧
        s.toInt * s.toInt ≤ self.toInt ∧ self.toInt < (s.toInt + 1) * (s.toInt + 1)) ↔
      Rooted log2 least self.toInt := by
  constructor
  · intro right
    refine ⟨fun g large above fits => ?_, fun q r least' below nonneg' less split more => ?_⟩
    · exact placed_of_right rounded canonical nonneg right defined most large above fits
    · exact normal_of_right rounded canonical nonneg right most ⟨least', below⟩ ⟨nonneg', less⟩
        split more
  · intro rooted address placed
    exact sqrtFloor_converges rounded canonical nonneg rooted fun i => (placed i).1

theorem rounded_log2 : Rounded fun n => (Nat.log2 n : Int) :=
  ⟨accurate_log2, fun _ _ _ other => absurd rfl other⟩

theorem sqrtFloor_right_iff_power : Rooted (fun n => Nat.log2 n) (2 ^ 20) (2 ^ 70) ∧
    ∃ s, Converges (Number.sqrtFloor (fun n => Nat.log2 n) (.large ⟨false, [0, 0, 0, 0, 64]⟩)
      fun _ => 2 ^ 20) s ∧ s.toInt * s.toInt ≤ 2 ^ 70 ∧ 2 ^ 70 < (s.toInt + 1) * (s.toInt + 1) := by
  have rooted : Rooted (fun n => Nat.log2 n) (2 ^ 20) (2 ^ 70) := by
    refine ⟨fun g large _ fits => ?_, fun q r _ _ _ _ split => ?_⟩
    · have square : (2 : Int) ^ 61 * 2 ^ 61 ≤ g * g := mul_le_mul large large (by decide) (by lia)
      lia
    · lia
  obtain ⟨s, converges, -, -, low, high⟩ := (@sqrtFloor_right_iff _ rounded_log2 (2 ^ 20) (by decide)
    (by decide) (.large ⟨false, [0, 0, 0, 0, 64]⟩) (by decide) (by decide)).mpr rooted
      (fun _ => 2 ^ 20) fun _ => ⟨le_rfl, by decide⟩
  exact ⟨rooted, s, converges, low, high⟩

/-- The guesses for `2^122 - 2^61` are `2^61` and `2^61 - 2^16` in turn. -/
theorem sqrtFloor_never_ends : ¬ ∀ log2, Rounded log2 → ∀ self : Number, Canonical self →
    0 ≤ self.toInt → ∀ address : Nat → Nat, (∀ i, 2 ^ 20 ≤ address i ∧ address i < 2 ^ 47) →
      ∃ s, Converges (self.sqrtFloor log2 address) s ∧ s.toInt * s.toInt ≤ self.toInt ∧
        self.toInt < (s.toInt + 1) * (s.toInt + 1) := by
  intro always
  have accurate := rounded_log2.toAccurate
  obtain ⟨self, canonical, value⟩ : ∃ self : Number, Canonical self ∧
      self.toInt = (2 ^ 122 - 2 ^ 61 : Nat) :=
    ⟨.large ⟨false, [0, 0, 0, 0xE000, 0xFFFF, 0xFFFF, 0xFFFF, 0x3FF]⟩, by decide, by decide⟩
  obtain ⟨s, ⟨bound, ends⟩, -⟩ := always _ rounded_log2 self canonical (by lia) (fun _ => 2 ^ 46)
    fun _ => by decide
  obtain ⟨k, guess, current, first, below, start, same⟩ := sqrtFloor_start accurate canonical value
  have top := start_exact (by decide) (by decide) below start
  subst top
  have never : sqrtGuesses (fun n => Nat.log2 n) self bound (fun _ => 2 ^ 46) guess = none := by
    refine sqrtGuesses_never accurate canonical value (fun x => x = 2 ^ 61 ∨ x = 2 ^ 61 - 2 ^ 16)
      (fun x stuck => ?_) current (.inl first) bound
    rcases stuck with rfl | rfl
    · have answers := @answers_address (fun n => Nat.log2 n) (2 ^ 122 - 2 ^ 61) (2 ^ 61) (2 ^ 46)
        (by decide) (by decide) (by decide)
      exact ⟨by decide, 2 ^ 16, by decide, .inr rfl, answers⟩
    · have answers := @answers_exact (fun n => Nat.log2 n) (2 ^ 122 - 2 ^ 61) (2 ^ 61 - 2 ^ 16)
        (2 ^ 46) (by decide) accurate (fun fits => absurd fits (by decide)) fun _ =>
          rounded_log2.normal (by decide) (by unfold Near; decide)
      rw [show ((2 ^ 61 - 2 ^ 16) * (2 ^ 61 - 2 ^ 16) - (2 ^ 122 - 2 ^ 61)) /
        (2 * (2 ^ 61 - 2 ^ 16)) = (-2 ^ 16 : Int) by decide] at answers
      exact ⟨by decide, -2 ^ 16, by decide, .inl rfl, answers⟩
  have found := ends bound le_rfl
  rw [same, never] at found
  cases found

end Egg.Arithmetic
