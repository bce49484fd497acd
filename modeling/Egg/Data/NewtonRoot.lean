import Mathlib.Tactic.Linarith
import Mathlib.Tactic.LinearCombination

/-! Integer square roots by successive guesses, each the mean of the one before and its quotient,
rounded up. -/
namespace Egg.Data.NewtonRoot

/-- The guess after `g`. -/
def next (n g : Int) : Int :=
  g - (g * g - n) / (2 * g)

variable {n g : Int}

/-- A guess after a positive one is never too low. -/
theorem le_next (positive : 0 < g) : n ≤ next n g * next n g := by
  have whole := Int.mul_ediv_self_le (x := g * g - n) (show 2 * g ≠ 0 by omega)
  unfold next
  nlinarith [sq_nonneg ((g * g - n) / (2 * g))]

theorem next_pos (nonneg : 0 ≤ n) (positive : 0 < g) : 0 < next n g := by
  have whole := Int.mul_ediv_self_le (x := g * g - n) (show 2 * g ≠ 0 by omega)
  unfold next
  by_contra low
  have above : g ≤ (g * g - n) / (2 * g) := by omega
  nlinarith

/-- The guesses stay where the remainder is less than twice the guess. -/
theorem quotient_zero_iff (positive : 0 < g) :
    (g * g - n) / (2 * g) = 0 ↔ n ≤ g * g ∧ g * g < n + 2 * g := by
  rw [Int.ediv_eq_iff_of_pos (by omega)]
  constructor
  · rintro ⟨low, high⟩
    constructor <;> linarith
  · rintro ⟨low, high⟩
    constructor <;> linarith

theorem next_lt (positive : 0 < g) (above : n ≤ g * g) (more : (g * g - n) / (2 * g) ≠ 0) :
    next n g < g := by
  have nonneg := Int.ediv_nonneg (show 0 ≤ g * g - n by omega) (show 0 ≤ 2 * g by omega)
  unfold next
  omega

/-- Where the guesses stay they tell the root. -/
theorem root_of_quotient_zero (positive : 0 < g) (zero : (g * g - n) / (2 * g) = 0) {s : Int}
    (root : s = if g * g = n then g else g - 1) :
    0 ≤ s ∧ s * s ≤ n ∧ n < (s + 1) * (s + 1) := by
  obtain ⟨low, high⟩ := (quotient_zero_iff positive).mp zero
  subst root
  split_ifs with exact
  · exact ⟨positive.le, exact.le, by nlinarith⟩
  · have less : n < g * g := lt_of_le_of_ne low (Ne.symm exact)
    refine ⟨by omega, by nlinarith, ?_⟩
    rw [sub_add_cancel]
    exact less

/-- The remainder after a step from above. -/
theorem next_remainder : next n g * next n g - n =
    (g * g - n) % (2 * g) + (g - next n g) * (g - next n g) := by
  have whole := Int.mul_ediv_add_emod (g * g - n) (2 * g)
  unfold next
  linear_combination -whole

end Egg.Data.NewtonRoot
