import Egg.Rational.ScaledArithmetic
import Egg.Rational.ScaledPrinting
import Mathlib.Data.Rat.Floor

/-! Where all operations of scaled decimals are exact, the quotient rounded down among them. -/
namespace Egg.Rational

open Arithmetic ScaledDecimal

/-- Two operands, one of them a scaled decimal at least. -/
inductive Operands where
  | ofDecimal (a : ScaledDecimal) (b : Argument)
  | ofInteger (a : Int) (b : ScaledDecimal)
deriving DecidableEq

namespace Operands

section Model

def plus : Operands → Option ScaledDecimal
  | ofDecimal a b => a.plus b
  | ofInteger a b => Integer.plusDecimal a b

def minus : Operands → Option ScaledDecimal
  | ofDecimal a b => a.minus b
  | ofInteger a b => Integer.minusDecimal a b

def times : Operands → Option ScaledDecimal
  | ofDecimal a b => a.times b
  | ofInteger a b => Integer.timesDecimal a b

def dividedBy : Operands → Option ScaledDecimal
  | ofDecimal a b => a.dividedBy b
  | ofInteger a b => Integer.dividedByDecimal a b

def lessThan : Operands → Option Bool
  | ofDecimal a b => a.lessThan b
  | ofInteger a b => Integer.lessThanDecimal a b

def lessEqual : Operands → Option Bool
  | ofDecimal a b => a.lessEqual b
  | ofInteger a b => Integer.lessEqualDecimal a b

def greaterThan : Operands → Option Bool
  | ofDecimal a b => a.greaterThan b
  | ofInteger a b => Integer.greaterThanDecimal a b

def greaterEqual : Operands → Option Bool
  | ofDecimal a b => a.greaterEqual b
  | ofInteger a b => Integer.greaterEqualDecimal a b

def equals : Operands → Bool
  | ofDecimal a b => a.equals b
  | ofInteger a b => Integer.equalsDecimal a b

/-- The address is that of the second operand. -/
def floorDivide (address : Nat) : Operands → (fuel : Nat) → Option Int
  | ofDecimal a b, fuel => a.floorDivide b fuel
  | ofInteger a _, _ => Integer.floorDivideDecimal a address

end Model

section Meaning

def left : Operands → ℚ
  | ofDecimal a _ => a.toFraction.value
  | ofInteger a _ => a

def right : Operands → ℚ
  | ofDecimal _ b => b.value
  | ofInteger _ b => b.toFraction.value

def scale : Operands → Nat
  | ofDecimal a b => b.largerScale a.scale
  | ofInteger _ b => b.scale

/-- The scaled decimals that are operands. -/
def decimals : Operands → List ScaledDecimal
  | ofDecimal a (.scaledDecimal b) => [a, b]
  | ofDecimal a (.integer _) => [a]
  | ofInteger _ b => [b]

/-- What the operations answer for numbers that are represented exactly. -/
structure Correct (address : Nat) (operands : Operands) : Prop where
  plus : Denotes operands.plus (operands.left + operands.right) operands.scale
  minus : Denotes operands.minus (operands.left - operands.right) operands.scale
  times : Denotes operands.times (operands.left * operands.right) operands.scale
  dividedBy : operands.right ≠ 0 →
    Denotes operands.dividedBy (operands.left / operands.right) operands.scale
  lessThan : operands.lessThan = some (decide (operands.left < operands.right))
  lessEqual : operands.lessEqual = some (decide (operands.left ≤ operands.right))
  greaterThan : operands.greaterThan = some (decide (operands.right < operands.left))
  greaterEqual : operands.greaterEqual = some (decide (operands.right ≤ operands.left))
  equals : operands.equals = true ↔ operands.left = operands.right
  floorDivide : operands.right ≠ 0 →
    ∃ fuel, operands.floorDivide address fuel = some ⌊operands.left / operands.right⌋
  prints : ∀ decimal ∈ operands.decimals, decimal.Prints

/-- The receiver is a small integer whose quotient by half the address of the divisor is that by
its value, both rounded down. -/
def DividesByAddress (address : Nat) : Operands → Prop
  | ofDecimal _ _ => False
  | ofInteger a b => Fits a ∧ address / 2 ≠ 0 ∧
    a.fdiv (address / 2 : Nat) = (a * b.denominator).fdiv b.numerator

end Meaning

/-- The floor of the quotient is asked for without end. -/
theorem floorDivide_none (self : ScaledDecimal) (aNumber : Argument) (fuel : Nat) :
    self.floorDivide aNumber fuel = none := by
  induction fuel generalizing self aNumber with
  | zero => rfl
  | succ fuel ih =>
    rw [ScaledDecimal.floorDivide]
    cases self.dividedBy aNumber with
    | none => rfl
    | some q =>
      change (q.floorDivide (.integer 1) fuel).bind _ = none
      rw [ih]
      rfl

theorem floor_eq_fdiv (a b : Int) : ⌊(a : ℚ) / b⌋ = a.fdiv b := by
  have natural : ∀ (a : Int) (b : Nat), ⌊(a : ℚ) / (b : Int)⌋ = a.fdiv b := fun a b => by
    rw [Int.fdiv_eq_ediv_of_nonneg a (Int.natCast_nonneg b), Int.cast_natCast]
    exact Rat.floor_intCast_div_natCast a b
  obtain nonneg | negative := le_or_gt 0 b
  · obtain ⟨divisor, rfl⟩ := Int.eq_ofNat_of_zero_le nonneg
    exact natural a divisor
  · obtain ⟨divisor, same⟩ := Int.eq_ofNat_of_zero_le (neg_pos.mpr negative).le
    rw [← Int.neg_fdiv_neg, ← neg_div_neg_eq, same, ← natural, ← same]
    push_cast
    rfl

theorem floor_quotient (a : Int) (b : ScaledDecimal) :
    ⌊(a : ℚ) / b.toFraction.value⌋ = (a * b.denominator).fdiv b.numerator := by
  rw [← floor_eq_fdiv, Fraction.value, div_div_eq_mul_div, Int.cast_mul]

theorem floorDivideDecimal_iff {a : Int} {b : ScaledDecimal} (address : Nat) :
    Integer.floorDivideDecimal a address = some ⌊(a : ℚ) / b.toFraction.value⌋ ↔
      (ofInteger a b).DividesByAddress address := by
  rw [floor_quotient, Integer.floorDivideDecimal, DividesByAddress]
  split
  · next fits =>
    split
    · next zero => exact iff_of_false (by simp) (fun divides => divides.2.1 zero)
    · next nonzero =>
      have divisor : ((address / 2 : Nat) : Int) ≠ 0 := Int.natCast_ne_zero.mpr nonzero
      have quotient : Fits (a.fdiv (address / 2 : Nat)) := by
        apply (fdiv_fits_iff fits divisor).mpr
        omega
      rw [primitiveSMIIntDiv_eq divisor, (tagged_iff.mpr quotient).2, Option.some_inj]
      exact ⟨fun same => ⟨fits, nonzero, same⟩, fun divides => divides.2.2⟩
  · next large => exact iff_of_false (by simp) (fun divides => large divides.1)

section Correctness

variable (operands : Operands)

theorem plus_denotes : Denotes operands.plus (operands.left + operands.right) operands.scale := by
  cases operands with
  | ofDecimal a b => exact ScaledDecimal.plus_denotes b
  | ofInteger a b => exact Integer.plusDecimal_denotes

theorem minus_denotes : Denotes operands.minus (operands.left - operands.right) operands.scale := by
  cases operands with
  | ofDecimal a b => exact ScaledDecimal.minus_denotes b
  | ofInteger a b => exact Integer.minusDecimal_denotes

theorem times_denotes : Denotes operands.times (operands.left * operands.right) operands.scale := by
  cases operands with
  | ofDecimal a b => exact ScaledDecimal.times_denotes b
  | ofInteger a b => exact Integer.timesDecimal_denotes

theorem dividedBy_denotes (nonzero : operands.right ≠ 0) :
    Denotes operands.dividedBy (operands.left / operands.right) operands.scale := by
  cases operands with
  | ofDecimal a b => exact ScaledDecimal.dividedBy_denotes nonzero
  | ofInteger a b => exact Integer.dividedByDecimal_denotes nonzero

theorem lessThan_eq : operands.lessThan = some (decide (operands.left < operands.right)) := by
  cases operands with
  | ofDecimal a b => exact ScaledDecimal.lessThan_eq b
  | ofInteger a b => exact Integer.lessThanDecimal_eq

theorem lessEqual_eq : operands.lessEqual = some (decide (operands.left ≤ operands.right)) := by
  cases operands with
  | ofDecimal a b => exact ScaledDecimal.lessEqual_eq b
  | ofInteger a b => exact Integer.lessEqualDecimal_eq

theorem greaterThan_eq :
    operands.greaterThan = some (decide (operands.right < operands.left)) := by
  cases operands with
  | ofDecimal a b => exact ScaledDecimal.greaterThan_eq b
  | ofInteger a b => exact Integer.greaterThanDecimal_eq

theorem greaterEqual_eq :
    operands.greaterEqual = some (decide (operands.right ≤ operands.left)) := by
  cases operands with
  | ofDecimal a b => exact ScaledDecimal.greaterEqual_eq b
  | ofInteger a b => exact Integer.greaterEqualDecimal_eq

theorem equals_iff : operands.equals = true ↔ operands.left = operands.right := by
  cases operands with
  | ofDecimal a b => exact ScaledDecimal.equals_iff
  | ofInteger a b => exact Integer.equalsDecimal_iff

theorem floorDivide_iff (address : Nat) :
    (∃ fuel, operands.floorDivide address fuel = some ⌊operands.left / operands.right⌋) ↔
      operands.DividesByAddress address := by
  cases operands with
  | ofDecimal a b =>
    apply iff_of_false
    · rintro ⟨fuel, answered⟩
      have none := floorDivide_none a b fuel
      exact absurd (none.symm.trans answered) (by simp)
    · exact not_false
  | ofInteger a b =>
    rw [← floorDivideDecimal_iff]
    exact ⟨fun ⟨_, answered⟩ => answered, fun answered => ⟨0, answered⟩⟩

end Correctness

end Operands

end Egg.Rational
