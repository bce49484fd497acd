import Egg.Data.Digits
import Mathlib.Data.Int.Bitwise
import Mathlib.Data.Nat.Bitwise

/-! Bitwise operations on integers in two's complement, digit by digit. -/
namespace Egg.Data

namespace Bitwise

theorem testBit_natCast (value place : Nat) : (value : Int).testBit place = value.testBit place :=
  rfl

theorem testBit_negSucc (value place : Nat) :
    (Int.negSucc value).testBit place = !value.testBit place :=
  rfl

/-- Integers of the same bits are the same. -/
theorem eq_of_testBit_eq {first second : Int}
    (same : ∀ place, first.testBit place = second.testBit place) : first = second := by
  have apart (left right : Nat) :
      ¬ ∀ place, (left : Int).testBit place = (Int.negSucc right).testBit place := by
    intro same
    have high := same (left + right)
    have leftBelow : left < 2 ^ (left + right) :=
      Nat.lt_of_le_of_lt (Nat.le_add_right ..) Nat.lt_two_pow_self
    have rightBelow : right < 2 ^ (left + right) :=
      Nat.lt_of_le_of_lt (Nat.le_add_left ..) Nat.lt_two_pow_self
    rw [testBit_natCast, testBit_negSucc, Nat.testBit_lt_two_pow leftBelow,
      Nat.testBit_lt_two_pow rightBelow] at high
    cases high
  cases first with
  | ofNat left =>
    cases second with
    | ofNat right => exact congrArg Int.ofNat (Nat.eq_of_testBit_eq same)
    | negSucc right => exact absurd same (apart left right)
  | negSucc left =>
    cases second with
    | ofNat right => exact absurd (fun place => (same place).symm) (apart right left)
    | negSucc right =>
      exact congrArg Int.negSucc (Nat.eq_of_testBit_eq fun place => Bool.not_inj (same place))

theorem negSucc_ediv (value count : Nat) :
    Int.negSucc value / 2 ^ count = Int.negSucc (value / 2 ^ count) := by
  have positive : (0 : Int) < 2 ^ count := pow_pos (by decide) _
  rw [Int.negSucc_ediv _ positive]
  rfl

theorem testBit_ediv (value : Int) (count place : Nat) :
    (value / 2 ^ count).testBit place = value.testBit (place + count) := by
  cases value with
  | ofNat value => exact Nat.testBit_div_two_pow ..
  | negSucc value =>
    rw [negSucc_ediv, testBit_negSucc, testBit_negSucc, Nat.testBit_div_two_pow]

theorem testBit_emod (value : Int) (count place : Nat) :
    (value % 2 ^ count).toNat.testBit place = (decide (place < count) && value.testBit place) := by
  cases value with
  | ofNat value => exact Nat.testBit_mod_two_pow ..
  | negSucc value =>
    have below : value % 2 ^ count < 2 ^ count := Nat.mod_lt _ (pow_pos (by decide) _)
    have rest : (Int.negSucc value % 2 ^ count).toNat = 2 ^ count - (value % 2 ^ count + 1) := by
      have positive : (0 : Int) < 2 ^ count := pow_pos (by decide) _
      rw [Int.negSucc_emod _ positive]
      have cast : ((value % 2 ^ count : Nat) : Int) = (value : Int) % 2 ^ count := by
        rw [Int.natCast_mod, Nat.cast_pow]
        rfl
      rw [← cast]
      have bound : ((2 ^ count : Nat) : Int) = 2 ^ count := by norm_cast
      omega
    rw [rest, Nat.testBit_two_pow_sub_succ below, testBit_negSucc, Nat.testBit_mod_two_pow]
    cases decide (place < count) <;> simp

variable (op : Bool → Bool → Bool) (first second : Int)

theorem bitwise_ediv (count : Nat) : Int.bitwise op first second / 2 ^ count =
    Int.bitwise op (first / 2 ^ count) (second / 2 ^ count) := by
  apply eq_of_testBit_eq
  intro place
  rw [testBit_ediv, Int.testBit_bitwise, Int.testBit_bitwise, testBit_ediv, testBit_ediv]

/-- The digits of the result are the results of the digits. -/
theorem bitwise_emod (zero : op false false = false) (count : Nat) :
    (Int.bitwise op first second % 2 ^ count).toNat =
      Nat.bitwise op (first % 2 ^ count).toNat (second % 2 ^ count).toNat := by
  apply Nat.eq_of_testBit_eq
  intro place
  rw [testBit_emod, Int.testBit_bitwise, Nat.testBit_bitwise zero, testBit_emod, testBit_emod]
  cases decide (place < count)
  · exact zero.symm
  · rfl

end Bitwise

end Egg.Data
