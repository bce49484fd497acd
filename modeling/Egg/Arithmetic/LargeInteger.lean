import Mathlib.Algebra.Group.Int.Defs
import Mathlib.Algebra.Group.Nat.Defs
import Mathlib.Tactic.Common

/-! Small integers, large integers and their digits. -/
namespace Egg.Arithmetic

/-- The size of a word in bytes. -/
def wordSize : Nat := 8

/-- The bits of a digit. -/
def bits : Nat := 16

def base : Nat := 2 ^ bits

/-- The bytes of a digit. -/
def digitLength : Nat := 2

def maximum : Int := 2 ^ 62 - 1

def minimum : Int := -2 ^ 62

/-- The class of a large integer gives its sign; its digits are those of two's complement, the
lowest first. -/
structure LargeInteger where
  negative : Bool
  digits : List UInt16
deriving DecidableEq, Repr

inductive Number where
  | small (value : Int)
  | large (integer : LargeInteger)
deriving DecidableEq, Repr

/-- The byte of an integer at a one-based index. -/
def smallIntegerByteAt (value : Int) (index : Nat) : Nat :=
  (value / 256 ^ (index - 1) % 256).toNat

/-- The primitive shift to the left; it fails where the result is no small integer. -/
def bitShiftLeft (value : Int) (shift : Nat) : Option Int :=
  if 63 ≤ shift ∨ (value ≠ 0 ∧ (maximum >>> shift < value ∨ value < minimum >>> shift)) then none
  else some (value * 2 ^ shift)

section

-- the logarithm of the C library, cut to an integer
variable (log2 : Nat → Int)

def highBit (number : Nat) : Int :=
  if number = 0 then 0 else log2 number + 1

def primitiveSMISize (number : Int) : Int :=
  if number < 0 then 1 else log2 number.toNat / 8 + 1

end

namespace LargeInteger

/-- The digit that a large integer has beyond its size. -/
def sign (negative : Bool) : UInt16 :=
  if negative then 0xFFFF else 0

/-- A large integer of the given bytes, all digits as beyond its size. -/
def new (negative : Bool) (bytes : Int) : LargeInteger where
  negative := negative
  digits := List.replicate ((bytes + digitLength - 1) / digitLength).toNat (sign negative)

def nbDigits (self : LargeInteger) : Nat :=
  self.digits.length

def sizeInBytes (self : LargeInteger) : Nat :=
  self.nbDigits * digitLength

def positive (self : LargeInteger) : Bool :=
  !self.negative

/-- The digit at a one-based index. -/
def wideDigitAt (self : LargeInteger) (index : Nat) : Nat :=
  (self.digits.getD (index - 1) (sign self.negative)).toNat

/-- The byte at a one-based index, two bytes a digit. -/
def byteAt (self : LargeInteger) (index : Nat) : Nat :=
  if index % 2 = 1 then self.wideDigitAt ((index + 1) / 2) % 256
  else self.wideDigitAt ((index + 1) / 2) / 256

def highWideDigit (self : LargeInteger) : Nat :=
  self.wideDigitAt self.nbDigits

/-- Whether the digits are those of a large integer of the same sign. -/
def equals (self other : LargeInteger) : Bool :=
  self.positive == other.positive &&
    decide (self.nbDigits = (other.sizeInBytes + digitLength - 1) / digitLength) &&
    (List.range self.nbDigits).all fun i => self.wideDigitAt (i + 1) = other.wideDigitAt (i + 1)

end LargeInteger

namespace Number

variable (log2 : Nat → Int)

def sizeInBytes : Number → Int
  | small value => primitiveSMISize log2 value
  | large integer => integer.sizeInBytes

def negative : Number → Bool
  | small value => value < 0
  | large integer => integer.negative

def positive (self : Number) : Bool :=
  !self.negative

def byteAt : Number → Nat → Nat
  | small value, index => if wordSize < index then 0 else smallIntegerByteAt value index
  | large integer, index => integer.byteAt index

def wideDigitAt : Number → Nat → Nat
  | small value, index => (value >>> ((index - 1) * bits) % base).toNat
  | large integer, index => integer.wideDigitAt index

def highWideDigit : Number → Nat
  | small value =>
    let highest := primitiveSMISize log2 value
    let highest := if highest % 2 = 1 then highest + 1 else highest
    (small value).byteAt highest.toNat * 2 ^ 8 + (small value).byteAt (highest - 1).toNat
  | large integer => integer.highWideDigit

end Number

namespace LargeInteger

variable (log2 : Nat → Int)

/-- Replace the first bytes by those of another number, as many as both have. -/
def «from» (self : LargeInteger) (other : Number) : LargeInteger :=
  let n := min (self.sizeInBytes : Int) (other.sizeInBytes log2)
  { self with
    digits := self.digits.mapIdx fun i digit =>
      let low := if (2 * i + 1 : Nat) ≤ n then other.byteAt (2 * i + 1) else digit.toNat % 256
      let high := if (2 * i + 2 : Nat) ≤ n then other.byteAt (2 * i + 2) else digit.toNat / 256
      UInt16.ofNat (high * 256 + low) }

/-- A positive copy with the given bytes; above those of a negative integer all bits are set. -/
def copyOfSize (self : LargeInteger) (n : Int) : LargeInteger :=
  let copy := new false n
  let copy := if self.negative then
    { copy with
      digits := copy.digits.mapIdx fun i digit => if self.nbDigits ≤ i then 0xFFFF else digit }
    else copy
  copy.from log2 (.large self)

/-- The primitive conversion of the digits, from the highest of the first `n`. -/
def shiftDigits (self : LargeInteger) (high : Int) : Nat → Option Int
  | 0 => some high
  | n + 1 => do
    let result ← bitShiftLeft high bits
    shiftDigits self (result + self.wideDigitAt (n + 1)) n

/-- The first `n` digits, as a small integer where they fit. -/
def reducedTo (self : LargeInteger) (n : Nat) : Option Number :=
  let hi := self.wideDigitAt n
  let wide := if self.negative then decide (hi < 0xC000) else decide (0x4000 ≤ hi)
  if 4 < n ∨ (n = 4 ∧ wide = true) then some (.large { self with digits := self.digits.take n })
  else do
    let sign := if self.negative then hi &&& 0x8000 else 0
    let value ← self.shiftDigits ((hi : Int) - sign * 2) (n - 1)
    some (.small value)

/-- The number of digits of a positive integer without the zeros above them. -/
def stripZeros (self : LargeInteger) : Nat → Nat
  | n + 2 => if self.wideDigitAt (n + 1) = 0 then stripZeros self (n + 1) else n + 1
  | n => n

/-- The number of digits of a negative integer without those that repeat its sign. -/
def stripSigns (self : LargeInteger) : Nat → Nat
  | n + 2 =>
    if self.wideDigitAt (n + 2) = base - 1 ∧ highBit log2 (self.wideDigitAt (n + 1)) = bits then
      stripSigns self (n + 1)
    else n + 2
  | n => n

/-- The sum of the digits below the given one at their places. -/
def sumDigits (self : LargeInteger) : Nat → Option Int
  | 0 => some 0
  | i + 1 => do
    let integer ← sumDigits self i
    let shifted ← bitShiftLeft (self.wideDigitAt (i + 1)) (i * bits)
    some (shifted + integer)

def leftLimit : LargeInteger :=
  ⟨true, [0, 0, 0, 0xC000]⟩

/-- A positive result as a small integer where it fits. -/
def demoted : Number → Option Number
  | .small value => some (.small value)
  | .large result =>
    if wordSize < result.sizeInBytes ∨ 63 < result.byteAt wordSize then some (.large result)
    else do
      let value ← result.sumDigits (result.sizeInBytes / digitLength)
      some (.small value)

/-- The same integer in as few digits as there may be. -/
def reduced (self : LargeInteger) : Option Number :=
  if self.negative then
    if self.equals leftLimit then some (.small minimum)
    else self.reducedTo (self.stripSigns log2 self.nbDigits)
  else do
    let n := self.nbDigits
    let result ← if self.wideDigitAt n ≠ 0 then some (.large self)
      else self.reducedTo (self.stripZeros n)
    demoted result

/-- Add a number digit by digit, from the given digit on. -/
def plusDigits (anInteger : Number) : (digits : List UInt16) → (index carry : Nat) → List UInt16
  | [], _, _ => []
  | digit :: digits, index, carry =>
    let s := digit.toNat + (anInteger.wideDigitAt index + carry)
    UInt16.ofNat s :: plusDigits anInteger digits (index + 1) (if base ≤ s then 1 else 0)

/-- The bytes that a sum takes. -/
def sizeOfSum (self : LargeInteger) (anInteger : Number) : Int :=
  let n := max (self.sizeInBytes : Int) (anInteger.sizeInBytes log2)
  if self.positive == anInteger.positive ||
      (self.positive && highBit log2 self.highWideDigit = bits) ||
      highBit log2 (anInteger.highWideDigit log2) = bits then
    n + digitLength
  else n

def addDigits (self : LargeInteger) (anInteger : Number) : Option Number :=
  let integer := self.copyOfSize log2 (self.sizeOfSum log2 anInteger)
  let integer := { integer with digits := plusDigits anInteger integer.digits 1 0 }
  let integer := if (self.negative || anInteger.negative) &&
      highBit log2 integer.highWideDigit = bits then
    { integer with negative := true } else integer
  integer.reduced log2

def plus (self : LargeInteger) (aNumber : Number) : Option Number :=
  if aNumber = .small 0 then some (.large self) else self.addDigits log2 aNumber

def bitInvert (self : LargeInteger) : Option Number :=
  let inverted := self.digits.map (· ^^^ 0xFFFF)
  if self.negative then
    reduced log2 { new false self.sizeInBytes with digits := inverted }
  else
    let n := if highBit log2 self.highWideDigit = bits then self.sizeInBytes + digitLength
      else self.sizeInBytes
    let integer := new true n
    some (.large { integer with digits := inverted ++ integer.digits.drop self.nbDigits })

/-- Add an integer to the digits that start at its place; there is none above the last. -/
def addFromDigit : (integer : Nat) → (digits : List UInt16) → Option (List UInt16)
  | 0, digits => some digits
  | _ + 1, [] => none
  | integer + 1, digit :: digits => do
    let sum := integer + 1 + digit.toNat
    let digits ← addFromDigit (sum / base) digits
    some (UInt16.ofNat sum :: digits)

/-- Add the product of a digit with the first `n` ones of an integer. -/
def multDigit (integer : Number) (digit i : Nat) : (n : Nat) → List UInt16 → Option (List UInt16)
  | 0, result => some result
  | j + 1, result => do
    let result ← multDigit integer digit i j result
    let d := integer.wideDigitAt (j + 1)
    let high ← addFromDigit (digit * d) (result.drop (i + j))
    some (result.take (i + j) ++ high)

/-- Add the products of the first `m` digits with an integer of `n` digits. -/
def multDigits (self : LargeInteger) (integer : Number) (n : Nat) :
    (m : Nat) → List UInt16 → Option (List UInt16)
  | 0, result => some result
  | i + 1, result => do
    let result ← multDigits self integer n i result
    multDigit integer (self.wideDigitAt (i + 1)) i n result

def mult (self : LargeInteger) (aNumber : Number) : Option Number := do
  let m := self.nbDigits
  let n := (aNumber.sizeInBytes log2 + digitLength - 1) / digitLength
  let result := new false ((n + m) * digitLength)
  let digits ← multDigits self aNumber n.toNat m result.digits
  reduced log2 { result with digits := digits }

end LargeInteger

/-- The primitives answer a small integer or fail. -/
def newIntObject (result : Int) : Option Int :=
  if result < minimum ∨ maximum < result then none else some result

namespace Number

variable (log2 : Nat → Int)

def asLargeInteger (self : Int) : LargeInteger :=
  (LargeInteger.new (decide (self < 0)) wordSize).from log2 (small self)

def plus (self aNumber : Number) : Option Number :=
  match self, aNumber with
  | small a, small b =>
    match newIntObject (a + b) with
    | some result => some (small result)
    | none => (asLargeInteger log2 a).plus log2 (small b)
  | small a, large b => b.plus log2 (small a)
  | large a, b => a.plus log2 b

def negated (self : Number) : Option Number :=
  match self with
  | small a =>
    if a = minimum then plus log2 (small maximum) (small 1)
    else (newIntObject (0 - a)).map small
  | large a => do
    let inverted ← a.bitInvert log2
    plus log2 inverted (small 1)

end Number

namespace LargeInteger

variable (log2 : Nat → Int)

def minus (self : LargeInteger) (aNumber : Number) : Option Number := do
  let negated ← aNumber.negated log2
  self.plus log2 negated

end LargeInteger

namespace Number

variable (log2 : Nat → Int)

def minus (self aNumber : Number) : Option Number :=
  match self, aNumber with
  | small a, small b =>
    match newIntObject (a - b) with
    | some result => some (small result)
    | none => (asLargeInteger log2 a).minus log2 (small b)
  | small a, large b => do
    let result ← b.minus log2 (small a)
    result.negated log2
  | large a, b => a.minus log2 b

def abs (self : Number) : Option Number :=
  if self.negative then self.negated log2 else some self

/-- Only large positive integers understand `mult:`. -/
def mult (self aNumber : Number) : Option Number :=
  match self with
  | small _ => none
  | large integer => if integer.negative then none else integer.mult log2 aNumber

end Number

namespace LargeInteger

variable (log2 : Nat → Int)

def times (self : LargeInteger) (aNumber : Number) : Option Number :=
  if aNumber = .small 0 then some (.small 0)
  else do
    let left ← (Number.large self).abs log2
    let right ← aNumber.abs log2
    let product ← left.mult log2 right
    if self.positive == aNumber.positive then some product else product.negated log2

end LargeInteger

def Number.times (log2 : Nat → Int) (self aNumber : Number) : Option Number :=
  match self, aNumber with
  | .small a, .small b =>
    match newIntObject (a * b) with
    | some result => some (.small result)
    | none => (Number.asLargeInteger log2 a).times log2 (.small b)
  | .small a, .large b => b.times log2 (.small a)
  | .large a, b => a.times log2 b

end Egg.Arithmetic
