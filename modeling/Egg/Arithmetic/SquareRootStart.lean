import Egg.Arithmetic.SquareRoot

/-! The first guesses of a square root, and logarithms that are rounded up close below a power of
two only. -/
namespace Egg.Arithmetic

open Egg.Data Number

variable {log2 : Nat → Int}

/-- The number is close below a power of two. -/
def Near (n : Nat) : Prop :=
  (2 ^ (Nat.log2 n + 1) - n) * 2 ^ 46 < 2 ^ (Nat.log2 n + 1)

/-- The logarithm is rounded up only close below a power of two. -/
structure Rounded (log2 : Nat → Int) : Prop extends Accurate log2 where
  near : ∀ n, 0 < n → n < 2 ^ 62 → log2 n ≠ Nat.log2 n → Near n

section Near

variable {number D count : Nat}

/-- A number that begins with one that is close below a power of two is close below one too. -/
theorem Near.of_part (near : Near number) (part : number * 2 ^ count ≤ D)
    (log : Nat.log2 number + count = Nat.log2 D) : Near D := by
  have scaled := Nat.mul_lt_mul_of_pos_right near (Nat.pow_pos (n := count) (show 0 < 2 by decide))
  have power : 2 ^ (Nat.log2 D + 1) = 2 ^ (Nat.log2 number + 1) * 2 ^ count := by
    rw [← pow_add]
    congr 1
    lia
  rw [Near, power]
  refine lt_of_le_of_lt ?_ scaled
  rw [Nat.mul_right_comm]
  refine Nat.mul_le_mul_right _ ?_
  rw [Nat.sub_mul]
  exact Nat.sub_le_sub_left part _

theorem Near.of_multiple (positive : 0 < D) (near : Near (D * 2 ^ count)) : Near D := by
  have log : Nat.log2 (D * 2 ^ count) = Nat.log2 D + count := by
    have bounds := (@Nat.log2_eq_iff D _ positive.ne').mp rfl
    refine (Nat.log2_eq_iff (by positivity)).mpr ⟨?_, ?_⟩
    · rw [pow_add]
      exact Nat.mul_le_mul_right _ bounds.1
    · rw [Nat.add_right_comm, pow_add]
      exact Nat.mul_lt_mul_of_pos_right bounds.2 (by positivity)
  rw [Near, log, Nat.add_right_comm, pow_add, ← Nat.sub_mul, Nat.mul_right_comm] at near
  exact Nat.lt_of_mul_lt_mul_right near

/-- The normalisation of a divisor is right but close below a power of two. -/
theorem Rounded.normal (rounded : Rounded log2) (positive : 0 < D) (apart : ¬ Near D) :
    Normal log2 D := by
  constructor
  · intro least most
    have log := log2_shifted positive
    have below := (shifted_bounds positive).2
    have three : Nat.log2 D / 16 = 2 := by
      have high := (Nat.log2_lt positive.ne').mpr most
      have low : 32 ≤ Nat.log2 D := by
        by_contra less
        have bound := (Nat.log2_lt positive.ne').mp (show Nat.log2 D < 32 by lia)
        lia
      lia
    rw [three] at log below
    by_contra other
    have near := rounded.near (D * 2 ^ places D) (by positivity) (below.trans (by decide)) (by
      rw [log]
      exact other)
    exact apart (near.of_multiple positive)
  · intro least most
    have own (number : Nat) (some : 0 < number) (less : number < 2 ^ 62)
        (near : Near number → Near D) : log2 number = Nat.log2 number := by
      by_contra other
      exact apart (near (rounded.near number some less other))
    refine ⟨own D positive most id, fun _ high => ?_⟩
    have cast : (D : Int) / 2 ^ (8 - places D % 8) = (D / 2 ^ (8 - places D % 8) : Nat) := by
      push_cast
      rfl
    rw [cast] at high ⊢
    rw [Int.toNat_natCast]
    have some : 0 < D / 2 ^ (8 - places D % 8) := by exact_mod_cast high
    refine own _ some ((Nat.div_le_self _ _).trans_lt most) fun near => ?_
    exact near.of_part (Nat.div_mul_le_self _ _) (log2_div some)

theorem not_near_power (count : Nat) : ¬ Near (2 ^ count) := by
  have power : 0 < 2 ^ count := by positivity
  rw [Near, Nat.log2_two_pow, pow_succ]
  lia

end Near

section Start

variable {n : Nat}

/-- The highest bit of a positive integer is exact but for small ones that are rounded up. -/
theorem highBit_bounds (accurate : Accurate log2) {self : Number} (canonical : Canonical self)
    (value : self.toInt = n) : ∃ k : Nat, (self.highBitOf log2 + 1) / 2 = k ∧ n < 2 ^ (2 * k) ∧
      (k ≤ 32 ∧ n < 2 ^ 62 ∨ 2 ^ (2 * k) ≤ 4 * n ∧ 2 ^ 62 ≤ n) := by
  cases self with
  | small v =>
    obtain rfl : v = n := value
    have fits : Fits n := canonical
    unfold Fits maximum at fits
    rw [Number.highBitOf, Int.toNat_natCast]
    rcases Nat.eq_zero_or_pos n with rfl | positive
    · exact ⟨0, rfl, by decide, .inl ⟨by decide, by decide⟩⟩
    · have logs := (Nat.log2_lt positive.ne').mpr (show n < 2 ^ 62 by lia)
      have bounds := accurate.bounded n positive (by lia)
      rw [Arithmetic.highBit, if_neg positive.ne']
      obtain ⟨k, half⟩ := Int.eq_ofNat_of_zero_le (show 0 ≤ (log2 n + 1 + 1) / 2 by lia)
      have log := (@Nat.log2_eq_iff n _ positive.ne').mp rfl
      refine ⟨k, half, log.2.trans_le (Nat.pow_le_pow_right (by decide) (by lia)),
        .inl ⟨by lia, by lia⟩⟩
  | large integer =>
    have value : integer.toInt = n := value
    obtain ⟨wide, sign⟩ := large_value canonical value
    have positive : 0 < n := by lia
    obtain ⟨small, shift⟩ := highBit_leading accurate positive
    have log := (@Nat.log2_eq_iff n _ positive.ne').mp rfl
    have low : base ^ (Nat.log2 n / 16) ≤ n := by
      rw [base_pow_two]
      exact (Nat.pow_le_pow_right (by decide) (by lia)).trans log.1
    have high : n < base ^ (Nat.log2 n / 16 + 1) := by
      rw [base_pow_two]
      exact log.2.trans_le (Nat.pow_le_pow_right (by decide) (by lia))
    have count := large_nbDigits canonical (Nat.log2 n / 16) (by rw [value]; exact_mod_cast low)
      (by rw [value]; exact_mod_cast high)
    have top := (@large_digits log2 integer canonical n value _ low high).2
    rw [Number.highWideDigit, LargeInteger.highWideDigit, count, Nat.mod_eq_of_lt small] at top
    have nonzero : n / base ^ (Nat.log2 n / 16) ≠ 0 :=
      (Nat.div_pos low (Nat.pow_pos (by decide))).ne'
    have highest : integer.highBit log2 = Nat.log2 n + 1 := by
      rw [LargeInteger.highBit, count, LargeInteger.highBitTo]
      simp only [top]
      rw [if_neg nonzero]
      unfold places at shift
      unfold bits at *
      lia
    obtain ⟨k, half⟩ := Int.eq_ofNat_of_zero_le (show 0 ≤ ((Nat.log2 n : Int) + 1 + 1) / 2 by lia)
    refine ⟨k, by rw [Number.highBitOf, highest]; exact half,
      log.2.trans_le (Nat.pow_le_pow_right (by decide) (by lia)), .inr ⟨?_, wide⟩⟩
    have power : 2 ^ (2 * k) ≤ 2 ^ (Nat.log2 n + 2) := Nat.pow_le_pow_right (by decide) (by lia)
    rw [pow_add] at power
    lia

end Start

end Egg.Arithmetic
