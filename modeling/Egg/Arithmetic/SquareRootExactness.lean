import Egg.Arithmetic.QuotientExactness
import Egg.Arithmetic.SquareRootStart

/-! For which numbers the guesses end in the square root. -/
namespace Egg.Arithmetic

open Egg.Data Number

variable {log2 : Nat → Int} {least : Nat}

/-- No square is so little above the number that the remainder counts as more than the address of
the divisor, and the second guess is not divided by a number that is normalised wrong. -/
structure Rooted (log2 : Nat → Int) (least : Nat) (n : Int) : Prop where
  placed : ∀ g : Int, 2 ^ 61 ≤ g → n ≤ g * g → g * g - n < 2 ^ 62 → g * g - n < (least / 2 : Nat)
  normal : ∀ q r : Int, 0 ≤ q → q < 2 ^ 15 → 0 ≤ r → r < 2 ^ 62 → n = 2 ^ 122 - (2 ^ 62 * q + r) →
    2 ^ 62 ≤ r + q * q → Normal log2 (2 ^ 62 - 2 * q).toNat

section Forward

variable {n k : Nat} {g : Int}

/-- The guesses are the first one, or below the second. -/
def Reached (n : Int) (k : Nat) (g : Int) : Prop :=
  g = 2 ^ k ∨ g ≤ NewtonRoot.next n (2 ^ k)

theorem next_le_first (below : n < 2 ^ (2 * k)) : NewtonRoot.next n (2 ^ k) ≤ 2 ^ k := by
  have square : (2 : Int) ^ (2 * k) = 2 ^ k * 2 ^ k := by rw [two_mul, pow_add]
  have less : (n : Int) < 2 ^ (2 * k) := by exact_mod_cast below
  have nonneg := Int.ediv_nonneg (show 0 ≤ (2 : Int) ^ k * 2 ^ k - n by lia)
    (show (0 : Int) ≤ 2 * 2 ^ k by positivity)
  unfold NewtonRoot.next
  lia

theorem reached_next (below : n < 2 ^ (2 * k)) (reached : Reached n k g) (positive : 0 < g)
    (above : n ≤ g * g) : Reached n k (NewtonRoot.next n g) := by
  have first := next_le_first below
  rcases reached with rfl | less
  · exact .inr (Int.le_refl _)
  · have nonneg := Int.ediv_nonneg (show 0 ≤ g * g - n by lia) (show 0 ≤ 2 * g by lia)
    refine .inr (le_trans ?_ less)
    unfold NewtonRoot.next
    lia

/-- A guess with a large remainder whose double is close below a power of two is the second one. -/
theorem reached_near (below : n < 2 ^ (2 * k))
    (start : k ≤ 32 ∧ n < 2 ^ 62 ∨ 2 ^ (2 * k) ≤ 4 * n ∧ 2 ^ 62 ≤ n) (reached : Reached n k g)
    (positive : 0 < g) (wide : 2 ^ 62 ≤ g * g - n) (short : 2 * g < 2 ^ 62)
    (near : Near (2 * g).toNat) : ∃ q r : Int, 0 ≤ q ∧ q < 2 ^ 15 ∧ 0 ≤ r ∧ r < 2 ^ 62 ∧
      (n : Int) = 2 ^ 122 - (2 ^ 62 * q + r) ∧ 2 ^ 62 ≤ r + q * q ∧ 2 * g = 2 ^ 62 - 2 * q := by
  have apart (count : Nat) : 2 * g ≠ 2 ^ count := by
    intro same
    rw [same] at near
    exact not_near_power count (by exact_mod_cast near)
  have lessPower : g ≤ NewtonRoot.next n (2 ^ k) :=
    reached.resolve_left fun same => apart (k + 1) (by rw [same, pow_succ, mul_comm])
  have first := next_le_first below
  obtain ⟨G, rfl⟩ := Int.eq_ofNat_of_zero_le positive.le
  have double : (2 * (G : Int)).toNat = 2 * G := by lia
  rw [double] at near
  -- the bits of the double, where it is between two powers of two
  have closely (count : Nat) (low : 2 ^ count ≤ 2 * G) (high : 2 * G < 2 ^ (count + 1)) :
      (2 ^ (count + 1) - 2 * G) * 2 ^ 46 < 2 ^ (count + 1) := by
    have log := (Nat.log2_eq_iff (show 2 * G ≠ 0 by lia)).mpr ⟨low, high⟩
    rwa [Near, log] at near
  rcases start with ⟨narrow, small⟩ | ⟨low, -⟩
  · have power : (2 : Int) ^ k ≤ 2 ^ 32 := pow_le_pow_right₀ (by decide) narrow
    have high : 2 ^ 31 ≤ G := by
      by_contra low
      have square : (G : Int) * G < 2 ^ 31 * 2 ^ 31 := mul_lt_mul'' (by lia) (by lia)
        positive.le positive.le
      lia
    have other := apart 33
    have close := closely 32 (by lia) (by lia)
    lia
  · obtain ⟨P, power⟩ : ∃ P : Int, (2 : Int) ^ k = P := ⟨_, rfl⟩
    have some : 0 < P := power ▸ pow_pos (by decide) k
    have square : (2 : Int) ^ (2 * k) = P * P := by rw [two_mul, pow_add, power]
    have low' : P * P ≤ 4 * n := by
      rw [← square]
      exact_mod_cast low
    have half : P ≤ 2 * G := by
      by_contra above
      have more : 2 * (G : Int) * (2 * G) < P * P :=
        mul_lt_mul'' (by lia) (by lia) (by lia) (by lia)
      have wider : 2 * (G : Int) * (2 * G) = 4 * (G * G) := by ring
      lia
    rw [power] at first lessPower
    have next : (2 : Int) ^ (k + 1) = 2 * P := by rw [pow_succ, power, mul_comm]
    have other := apart (k + 1)
    rw [next] at other
    have close : (2 * P - 2 * G) * 2 ^ 46 < 2 * P := by
      have close := closely k (by
        rw [← power] at half
        exact_mod_cast half) (by
        have less : 2 * (G : Int) < 2 ^ (k + 1) := by lia
        exact_mod_cast less)
      have room : 2 * G ≤ 2 ^ (k + 1) := by
        have less : 2 * (G : Int) ≤ 2 ^ (k + 1) := by lia
        exact_mod_cast less
      have cast : (((2 ^ (k + 1) - 2 * G) * 2 ^ 46 : Nat) : Int) < (2 ^ (k + 1) : Nat) :=
        Int.ofNat_lt.mpr close
      push_cast [room] at cast
      rwa [next] at cast
    have bounded : k < 62 := by
      have less : (2 : Int) ^ k < 2 ^ 62 := by lia
      exact (pow_lt_pow_iff_right₀ (by decide)).mp less
    have most : P ≤ 2 ^ 61 := power ▸ pow_le_pow_right₀ (by decide) (by lia)
    have step := @NewtonRoot.next_remainder n P
    have whole := Int.mul_ediv_add_emod (P * P - n) (2 * P)
    have nonneg := Int.emod_nonneg (P * P - n) (show 2 * P ≠ 0 by lia)
    have less := Int.emod_lt_of_pos (P * P - n) (show 0 < 2 * P by lia)
    have quotient : P - NewtonRoot.next n P = (P * P - n) / (2 * P) := by
      unfold NewtonRoot.next
      lia
    rw [← quotient] at whole
    obtain ⟨x, guess⟩ : ∃ x, NewtonRoot.next n P = x := ⟨_, rfl⟩
    obtain ⟨r, rest⟩ : ∃ r, (P * P - n) % (2 * P) = r := ⟨_, rfl⟩
    obtain ⟨q, taken⟩ : ∃ q, P - x = q := ⟨_, rfl⟩
    rw [guess] at step whole lessPower first
    rw [rest] at step whole nonneg less
    rw [taken] at step whole
    have small : 0 ≤ q ∧ q < 2 ^ 15 := by lia
    have squares : 0 ≤ q * q ∧ q * q ≤ 2 ^ 15 * 2 ^ 15 :=
      ⟨mul_nonneg small.1 small.1, mul_le_mul small.2.le small.2.le small.1 (by decide)⟩
    have same : (G : Int) = x := by
      by_contra different
      have lower : (G : Int) * G ≤ (x - 1) * (x - 1) :=
        mul_le_mul (by lia) (by lia) positive.le (by lia)
      have product : (x - 1) * (x - 1) = x * x - 2 * x + 1 := by ring
      lia
    have top : k = 61 := by
      by_contra other
      have power' : P ≤ 2 ^ 60 := power ▸ pow_le_pow_right₀ (by decide) (by lia)
      rw [same] at wide
      lia
    subst top
    have exact : P = 2 ^ 61 := power.symm
    subst exact
    rw [same] at wide
    exact ⟨q, r, small.1, small.2, nonneg, by lia, by lia, by lia, by lia⟩

/-- Every guess from the first one on is sound. -/
theorem reached_sound (rounded : Rounded log2) (below : n < 2 ^ (2 * k))
    (start : k ≤ 32 ∧ n < 2 ^ 62 ∨ 2 ^ (2 * k) ≤ 4 * n ∧ 2 ^ 62 ≤ n) (rooted : Rooted log2 least n)
    (reached : Reached n k g) (positive : 0 < g) (above : n ≤ g * g) : Sound log2 least n g := by
  refine ⟨fun large short => rooted.placed g large above short, fun wide => ?_⟩
  by_contra wrong
  have short : 2 * g < 2 ^ 62 := by
    by_contra large
    exact wrong ⟨fun _ less => by lia, fun _ less => by lia⟩
  have near : Near (2 * g).toNat := by
    by_contra apart
    exact wrong (rounded.normal (by lia) apart)
  obtain ⟨q, r, nonneg, less, nonneg', less', split, more, double⟩ :=
    reached_near below start reached positive wide short near
  have normal := rooted.normal q r nonneg less nonneg' less' split more
  rw [← double] at normal
  exact wrong normal

/-- The first guess is a power of two. -/
theorem sqrtFloor_start (accurate : Accurate log2) {self : Number} (canonical : Canonical self)
    (value : self.toInt = n) : ∃ (k : Nat) (guess : Number), Canonical guess ∧
      guess.toInt = 2 ^ k ∧ n < 2 ^ (2 * k) ∧
      (k ≤ 32 ∧ n < 2 ^ 62 ∨ 2 ^ (2 * k) ≤ 4 * n ∧ 2 ^ 62 ≤ n) ∧
      ∀ address fuel, self.sqrtFloor log2 address fuel =
        sqrtGuesses log2 self fuel address guess := by
  obtain ⟨k, half, below, start⟩ := highBit_bounds accurate canonical value
  have one : Fits 1 := by decide
  obtain ⟨guess, found, current, first⟩ := Number.bitShift_small_exact (n := k) accurate one
    (by decide) (.inr (sized_of_lt accurate (by decide) (by decide)))
  rw [one_mul] at first
  refine ⟨k, guess, current, first, below, start, fun address fuel => ?_⟩
  rw [Number.sqrtFloor, half, found]
  rfl

theorem sqrtFloor_converges (rounded : Rounded log2) {self : Number} (canonical : Canonical self)
    (nonneg : 0 ≤ self.toInt) (rooted : Rooted log2 least self.toInt) {address : Nat → Nat}
    (placed : ∀ i, least ≤ address i) :
    ∃ s, Converges (self.sqrtFloor log2 address) s ∧ Canonical s ∧ 0 ≤ s.toInt ∧
      s.toInt * s.toInt ≤ self.toInt ∧ self.toInt < (s.toInt + 1) * (s.toInt + 1) := by
  have accurate := rounded.toAccurate
  obtain ⟨n, value⟩ := Int.eq_ofNat_of_zero_le nonneg
  obtain ⟨k, guess, current, first, below, start, same⟩ :=
    sqrtFloor_start accurate canonical value
  rw [value] at rooted ⊢
  have square : (2 : Int) ^ (2 * k) = 2 ^ k * 2 ^ k := by rw [two_mul, pow_add]
  have less : (n : Int) < 2 ^ (2 * k) := by exact_mod_cast below
  obtain ⟨s, ⟨bound, ends⟩, right⟩ := sqrtGuesses_converges accurate canonical value
    (Int.natCast_nonneg n) (fun g reached positive above =>
      reached_sound rounded below start rooted reached positive above)
    (fun g reached positive above => reached_next below reached positive above) current
    (by rw [first]; positivity) (by rw [first]; lia) (.inl first) placed
  exact ⟨s, ⟨bound, fun fuel enough => (same address fuel).trans (ends fuel enough)⟩, right⟩

end Forward

end Egg.Arithmetic
