import Egg.Arithmetic.Float
import Mathlib.Data.Int.Bitwise

/-! Fractions, scaled decimals, their conversion to floats and the equality of all numbers. -/
namespace Egg.Arithmetic

open Egg.Data

/-- The constructor makes the denominator positive; it does not cancel common factors. -/
structure Fraction where
  numerator : Number
  denominator : Number
  canonicalNumerator : Canonical numerator
  canonicalDenominator : Canonical denominator
  positive : 0 < denominator.toInt

structure ScaledDecimal extends Fraction where
  scale : Number

variable (log2 : Nat → Int)

namespace Number

/-- The place of the highest bit of a positive integer; that of a large one is found in its
digits. -/
def highBit (value : Nat) : Int :=
  if Fits value then Arithmetic.highBit log2 value else value.log2 + 1

/-- A quotient of floats; the class of floats does not divide, nor is it converted. -/
def quotient (dividend divisor : Option Converted) : Option Binary64 := do
  match ← dividend, ← divisor with
  | .float value, .float other => some (value.div other)
  | _, _ => none

end Number

namespace Fraction

open Number

/-- The quotient of an integer by the denominator, to 54 bits. -/
structure Mantissa where
  q : Nat
  r : Int
  exponent : Int

/-- Bring the quotient to 54 bits; `hq` is the highest bit it has. -/
def mantissa (b q : Nat) (r : Int) (exponent hq : Int) : Mantissa :=
  let n : Int := 54
  if n < hq then
    -- one shifted to the right is zero, and the mask has all bits
    ⟨q >>> (hq - n).toNat, q * b + r, exponent + hq - n⟩
  else if hq < n then
    let q1 := (r.toNat <<< (n - hq).toNat) / b
    ⟨q <<< (n - hq).toNat &&& q1, r - q1 * b, exponent + hq - n⟩
  else ⟨q, r, exponent⟩

/-- The float close to a fraction; small exponents signal an underflow. -/
def asFloat (self : Fraction) : Option Binary64 :=
  let a := self.numerator.toInt.natAbs
  let b := self.denominator.toInt.natAbs
  let ha := highBit log2 a
  let hb := highBit log2 b
  if ha < 54 ∧ hb < 54 then quotient (self.numerator.asFloat log2) (self.denominator.asFloat log2)
  else
    let exponent := ha - hb - 54
    let b := if 0 < exponent then b <<< exponent.toNat else b
    let a := if 0 < exponent then a else a <<< (-exponent).toNat
    let q := a / b
    let hq := highBit log2 q
    if -1023 < exponent + hq - 1 then
      let rounded := mantissa b q (a - q * b : Nat) exponent hq
      let q := if rounded.q % 2 = 0 ∨ rounded.r = 0 then rounded.q else rounded.q + 1
      let float := Binary64.ofInt q
      some ((if self.numerator.positive then float else float.negated).timesTwoPower
        rounded.exponent)
    else none

def equalsInteger (self : Fraction) (aNumber : Number) : Option Bool := do
  let product ← self.denominator.times log2 aNumber
  some (self.numerator.equals product)

def equalsFraction (self aNumber : Fraction) : Option Bool := do
  let left ← self.numerator.times log2 aNumber.denominator
  let right ← self.denominator.times log2 aNumber.numerator
  some (left.equals right)

end Fraction

namespace ScaledDecimal

def asFraction (self : ScaledDecimal) : Fraction :=
  self.toFraction

def asFloat (self : ScaledDecimal) : Option Binary64 :=
  Number.quotient (self.numerator.asFloat log2) (self.denominator.asFloat log2)

/-- A fraction with the scale of the receiver. -/
def coerce (self : ScaledDecimal) (aNumber : Fraction) : ScaledDecimal :=
  { aNumber with scale := self.scale }

end ScaledDecimal

/-- Integers in canonical form, fractions, scaled decimals and finite floats. -/
inductive Numeric where
  | integer (value : Number) (canonical : Canonical value)
  | fraction (value : Fraction)
  | scaledDecimal (value : ScaledDecimal)
  | float (value : Binary64) (finite : value.IsFinite)

namespace Numeric

/-- The class of floats is no number. -/
def floatEquals (self : Binary64) : Numeric → Option Bool
  | integer value _ => do
    match ← value.asFloat log2 with
    | .float other => some (self.equals other)
    | .floatClass => some false
  | fraction value => do
    let other ← value.asFloat log2
    some (self.equals other)
  | scaledDecimal value => do
    let other ← value.asFloat log2
    some (self.equals other)
  | float other _ => some (self.equals other)

def fractionEquals (self : Fraction) : Numeric → Option Bool
  | integer value _ => self.equalsInteger log2 value
  | fraction value => self.equalsFraction log2 value
  | scaledDecimal value =>
    (value.coerce self).asFraction.equalsFraction log2 value.asFraction
  | float value _ => do
    let coerced ← self.asFloat log2
    some (coerced.equals value)

def scaledDecimalEquals (self : ScaledDecimal) : Numeric → Option Bool
  | scaledDecimal value => self.asFraction.equalsFraction log2 value.asFraction
  | aNumber => fractionEquals log2 self.asFraction aNumber

/-- An integer leaves the comparison with other classes to the argument. -/
def integerEquals (self : Number) (canonical : Canonical self) : Numeric → Option Bool
  | integer value _ => some (self.equals value)
  | fraction value => fractionEquals log2 value (integer self canonical)
  | scaledDecimal value => scaledDecimalEquals log2 value (integer self canonical)
  | float value _ => floatEquals log2 value (integer self canonical)

def equals (self aNumber : Numeric) : Option Bool :=
  match self with
  | integer value canonical => integerEquals log2 value canonical aNumber
  | fraction value => fractionEquals log2 value aNumber
  | scaledDecimal value => scaledDecimalEquals log2 value aNumber
  | float value _ => floatEquals log2 value aNumber

/-- Multiply a small hash; no product here is large. -/
def hashMultiply (self : Int) : Option Int :=
  if self < 162 then
    match Number.times log2 (.small self) (.small 0x19660D) with
    | some (.small product) => some product
    | _ => none
  else some (Arithmetic.hashMultiply self.toNat 0x19660D)

def hashWith (self a : Int) : Option Int := do
  let hash := Int.xor (Arithmetic.hashMultiply 2 0x19660D) self
  let product ← hashMultiply log2 hash
  some (Int.xor product a)

section

variable (floatHash : LargeInteger → Int) (cast : Binary64 → Int)

def fractionHash (self : Fraction) : Option Int :=
  hashWith log2 (self.numerator.hash floatHash) (self.denominator.hash floatHash)

def hash : Numeric → Option Int
  | integer value _ => some (value.hash floatHash)
  | fraction value => fractionHash log2 floatHash value
  | scaledDecimal value => fractionHash log2 floatHash value.toFraction
  | float value _ => some (Float.hash cast value)

end

end Numeric

end Egg.Arithmetic
