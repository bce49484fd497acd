import Mathlib.Algebra.Order.Ring.Nat
import Mathlib.Tactic.Linarith
import Mathlib.Tactic.Ring

/-! Long division in any base: a digit of the quotient, estimated from leading digits. -/
namespace Egg.Data.LongDivision

variable {base u v scale : Nat}

/-- What is estimated from leading digits is not too low. -/
theorem le_estimate (some : 0 < v / scale) : u / v ≤ u / scale / (v / scale) := by
  rw [Nat.le_div_iff_mul_le some]
  rcases Nat.eq_zero_or_pos scale with rfl | positive
  · simp at some
  · rw [Nat.le_div_iff_mul_le positive]
    calc u / v * (v / scale) * scale = u / v * (v / scale * scale) := Nat.mul_assoc ..
      _ ≤ u / v * v := Nat.mul_le_mul_left _ (Nat.div_mul_le_self v scale)
      _ ≤ u := Nat.div_mul_le_self u v

/-- It is too high by one at most, where the leading digits of the divisor exceed the quotient. -/
theorem estimate_le (below : u / v < v / scale) : u / scale / (v / scale) ≤ u / v + 1 := by
  by_contra high
  have least := (Nat.le_div_iff_mul_le (Nat.zero_lt_of_lt below)).mp (not_le.mp high)
  rcases Nat.eq_zero_or_pos scale with rfl | positive
  · simp at below
  · rcases Nat.eq_zero_or_pos v with rfl | positive'
    · simp at below
    · have product := (Nat.le_div_iff_mul_le positive).mp least
      have less := Nat.lt_mul_div_succ u positive'
      have near := Nat.lt_mul_div_succ v positive
      have above : (u / v + 1) * v < (u / v + 1) * (scale * (v / scale + 1)) :=
        Nat.mul_lt_mul_of_pos_left near (Nat.succ_pos _)
      have strict : (u / v + 1 + 1) * (v / scale) * scale <
          (u / v + 1) * (v / scale + 1) * scale := by
        calc (u / v + 1 + 1) * (v / scale) * scale ≤ u := product
          _ < v * (u / v + 1) := less
          _ = (u / v + 1) * v := Nat.mul_comm ..
          _ < (u / v + 1) * (scale * (v / scale + 1)) := above
          _ = (u / v + 1) * (v / scale + 1) * scale := by ring
      have digits := Nat.lt_of_mul_lt_mul_right strict
      have wide : (u / v + 1 + 1) * (v / scale) = (u / v + 1) * (v / scale) + v / scale := by ring
      have wide' : (u / v + 1) * (v / scale + 1) = (u / v + 1) * (v / scale) + (u / v + 1) := by ring
      lia

/-- Where the leading digits are the same the highest digit is too high by one at most. -/
theorem highest_estimate (normal : base ≤ 2 * (v / scale) + 1) (same : u / (scale * base) = v / scale)
    (below : u / v < base) : u / v ≤ base - 1 ∧ base - 1 ≤ u / v + 1 := by
  refine ⟨by lia, ?_⟩
  have nonneg := Nat.zero_le (u / v)
  rcases Nat.eq_zero_or_pos scale with rfl | positive
  · simp at normal
    lia
  · rcases Nat.lt_or_ge base 2 with small | large
    · lia
    · have product := Nat.div_mul_le_self u (scale * base)
      rw [same] at product
      have near := Nat.lt_mul_div_succ v positive
      have positive' : 0 < v := by
        rcases Nat.eq_zero_or_pos v with rfl | positive'
        · simp at normal
          lia
        · exact positive'
      have enough : base - 2 ≤ u / v := by
        rw [Nat.le_div_iff_mul_le positive']
        obtain ⟨rest, rfl⟩ := Nat.exists_eq_add_of_le large
        rw [Nat.add_sub_cancel_left]
        calc rest * v ≤ rest * (scale * (v / scale + 1)) := Nat.mul_le_mul_left _ near.le
          _ = scale * (rest * (v / scale) + rest) := by ring
          _ ≤ scale * ((2 + rest) * (v / scale)) := by
            apply Nat.mul_le_mul_left
            have split : (2 + rest) * (v / scale) = rest * (v / scale) + 2 * (v / scale) := by ring
            lia
          _ = v / scale * (scale * (2 + rest)) := by ring
          _ ≤ u := product
      lia

/-- An estimate that is right or too high by one is corrected by looking at the remainder. -/
theorem corrected {estimate : Nat} (least : u / v ≤ estimate) (most : estimate ≤ u / v + 1)
    (positive : 0 < v) : (if u < v * estimate then estimate - 1 else estimate) = u / v := by
  rcases Nat.lt_or_ge u (v * estimate) with less | enough
  · rw [if_pos less]
    have high : u / v < estimate := (Nat.div_lt_iff_lt_mul positive).mpr (Nat.mul_comm v _ ▸ less)
    generalize u / v = quotient at *
    lia
  · rw [if_neg (not_lt.mpr enough)]
    have low : estimate ≤ u / v := (Nat.le_div_iff_mul_le positive).mpr (Nat.mul_comm v _ ▸ enough)
    exact Nat.le_antisymm low least

end Egg.Data.LongDivision
