import Egg.Arithmetic.Division
import Egg.Rational.Number

/-! Arithmetic and comparison of scaled decimals, with integers on either side. -/
namespace Egg.Rational

/-- A fraction with the number of digits that are printed behind the point. -/
structure ScaledDecimal extends Fraction where
  scale : Nat
deriving DecidableEq

/-- The argument of a message to a scaled decimal. -/
inductive Argument where
  | integer (value : Int)
  | scaledDecimal (value : ScaledDecimal)
deriving DecidableEq

namespace ScaledDecimal

section Model

def new (n d : Int) (scale : Nat) : Option ScaledDecimal := do
  let fraction ← Fraction.new n d
  some ⟨fraction, scale⟩

def asFraction (self : ScaledDecimal) : Fraction :=
  self.toFraction

def reduced (self : ScaledDecimal) : Option ScaledDecimal :=
  let gcd := Integer.gcd self.numerator self.denominator
  if gcd = 1 then some self
  else new (self.numerator.fdiv gcd) (self.denominator.fdiv gcd) self.scale

def addToScaledDecimal (self aScaledDecimal : ScaledDecimal) : Option ScaledDecimal := do
  let s := max self.scale aScaledDecimal.scale
  let den := aScaledDecimal.denominator
  let fraction ←
    if self.denominator = den then
      Fraction.new (self.numerator + aScaledDecimal.numerator) self.denominator
    else
      Fraction.new (self.numerator * den + aScaledDecimal.numerator * self.denominator)
        (self.denominator * den)
  reduced ⟨fraction, s⟩

def subtractFromScaledDecimal (self aScaledDecimal : ScaledDecimal) : Option ScaledDecimal := do
  let s := max self.scale aScaledDecimal.scale
  let den := aScaledDecimal.denominator
  let fraction ←
    if self.denominator = den then
      Fraction.new (aScaledDecimal.numerator - self.numerator) self.denominator
    else
      Fraction.new (aScaledDecimal.numerator * self.denominator - self.numerator * den)
        (self.denominator * den)
  reduced ⟨fraction, s⟩

def multiplyScaledDecimal (self aScaledDecimal : ScaledDecimal) : Option ScaledDecimal := do
  let s := max self.scale aScaledDecimal.scale
  let fraction ← Fraction.new (aScaledDecimal.numerator * self.numerator)
    (aScaledDecimal.denominator * self.denominator)
  reduced ⟨fraction, s⟩

def divideIntoScaledDecimal (self aScaledDecimal : ScaledDecimal) : Option ScaledDecimal := do
  let s := max self.scale aScaledDecimal.scale
  let fraction ← Fraction.new (aScaledDecimal.numerator * self.denominator)
    (aScaledDecimal.denominator * self.numerator)
  reduced ⟨fraction, s⟩

/-- An integer is its own numerator. -/
def fromNumber (aNumber : Number) (scale : Nat) : Option ScaledDecimal :=
  match aNumber with
  | .integer value => new value 1 scale
  | .fraction value => new value.numerator value.denominator scale

def coerce (self : ScaledDecimal) (anInteger : Int) : Option ScaledDecimal :=
  fromNumber (.integer anInteger) self.scale

/-- Arithmetic is left to the argument, coerced where it is an integer. -/
def dispatch (selector : ScaledDecimal → ScaledDecimal → Option ScaledDecimal)
    (self : ScaledDecimal) : Argument → Option ScaledDecimal
  | .scaledDecimal aNumber => selector aNumber self
  | .integer value => do
    let aNumber ← self.coerce value
    selector aNumber self

def minus : ScaledDecimal → Argument → Option ScaledDecimal := dispatch subtractFromScaledDecimal

def times : ScaledDecimal → Argument → Option ScaledDecimal := dispatch multiplyScaledDecimal

def dividedBy : ScaledDecimal → Argument → Option ScaledDecimal := dispatch divideIntoScaledDecimal

def plus : ScaledDecimal → Argument → Option ScaledDecimal := dispatch addToScaledDecimal

def negated (self : ScaledDecimal) : Option ScaledDecimal := do
  let opposite ← Fraction.new (-self.numerator) self.denominator
  fromNumber (.fraction opposite) self.scale

/-- `Fraction>>reciprocal` answers an integer for a numerator of one. -/
def fractionReciprocal (self : Fraction) : Option Number :=
  if |self.numerator| = 1 then some (.integer (self.denominator * self.numerator))
  else (Fraction.new self.denominator self.numerator).map .fraction

def reciprocal (self : ScaledDecimal) : Option ScaledDecimal := do
  let inverse ← fractionReciprocal self.asFraction
  fromNumber inverse self.scale

def equals (self : ScaledDecimal) : Argument → Bool
  | .scaledDecimal aNumber =>
    self.numerator * aNumber.denominator = self.denominator * aNumber.numerator
  | .integer value => self.numerator = self.denominator * value

/-- The comparison with zero that every argument answers. -/
def isZero : Argument → Bool
  | .scaledDecimal aNumber => aNumber.equals (.integer 0)
  | .integer value => value = 0

/-- The difference is compared with the integer zero in turn. -/
def lessThan (self : ScaledDecimal) (aNumber : Argument) : Option Bool := do
  if isZero aNumber then some (self.numerator < 0)
  else
    let difference ← self.minus aNumber
    some (difference.numerator < 0)

def greaterThan (self : ScaledDecimal) (aNumber : Argument) : Option Bool := do
  if isZero aNumber then some (0 < self.numerator)
  else
    let difference ← self.minus aNumber
    some (0 < difference.numerator)

def lessEqual (self : ScaledDecimal) (aNumber : Argument) : Option Bool := do
  let less ← self.lessThan aNumber
  some (less || self.equals aNumber)

def greaterEqual (self : ScaledDecimal) (aNumber : Argument) : Option Bool := do
  let greater ← self.greaterThan aNumber
  some (greater || self.equals aNumber)

/-- The floor of the quotient is its own quotient by one. -/
def floorDivide (self : ScaledDecimal) (aNumber : Argument) : (fuel : Nat) → Option Int
  | 0 => none
  | fuel + 1 => do
    let q ← self.dividedBy aNumber
    let quo ← floorDivide q (.integer 1) fuel
    some (if q.numerator < 0 ∧ ¬ q.equals (.integer quo) then quo else quo - 1)

end Model

end ScaledDecimal

namespace Integer

section Model

open Arithmetic ScaledDecimal

variable (self : Int) (aNumber : ScaledDecimal)

def plusDecimal : Option ScaledDecimal :=
  aNumber.plus (.integer self)

/-- Small integers negate the difference, large ones the argument. -/
def minusDecimal : Option ScaledDecimal := do
  if Fits self then
    let difference ← aNumber.minus (.integer self)
    difference.negated
  else
    let opposite ← aNumber.negated
    opposite.plus (.integer self)

def timesDecimal : Option ScaledDecimal :=
  aNumber.times (.integer self)

def dividedByDecimal : Option ScaledDecimal := do
  if Fits self then
    let inverse ← aNumber.reciprocal
    inverse.times (.integer self)
  else
    let quotient ← aNumber.dividedBy (.integer self)
    quotient.reciprocal

def lessThanDecimal : Option Bool :=
  aNumber.greaterThan (.integer self)

def lessEqualDecimal : Option Bool :=
  aNumber.greaterEqual (.integer self)

def greaterThanDecimal : Option Bool :=
  if Fits self then aNumber.lessThan (.integer self)
  else (lessEqualDecimal self aNumber).map not

def greaterEqualDecimal : Option Bool :=
  if Fits self then aNumber.lessEqual (.integer self)
  else (lessThanDecimal self aNumber).map not

def equalsDecimal : Bool :=
  aNumber.equals (.integer self)

/-- The primitive takes the address of the argument for an integer; a large receiver does not
divide by it. -/
def floorDivideDecimal (address : Nat) : Option Int :=
  if Fits self then
    if address / 2 = 0 then none else some (primitiveSMIIntDiv self (address / 2 : Nat))
  else none

end Model

end Integer

end Egg.Rational
