import Egg.Arithmetic.Bits
import Egg.Arithmetic.Comparison
import Egg.Arithmetic.Division

/-! Division of large integers, a digit of the quotient at a time. -/
namespace Egg.Arithmetic

/-- What the machine makes of a division of small integers; by zero it traps. -/
def machine (primitive : Int → Int → Int) (a b : Int) : Option Int :=
  if b = 0 then none else some (primitive a b)

/-- A quotient with its remainder, and the digits that were estimated or stored on the way. -/
structure QuoRem where
  quo : Number
  rem : Number
  digits : List Int

namespace LargeInteger

/-- `digitAt:put:`, which keeps the lowest bits of the integer. -/
def digitAtPut (self : LargeInteger) (index : Nat) (integer : Int) : Option LargeInteger :=
  if 1 ≤ index ∧ index ≤ self.nbDigits then
    some { self with
      digits := self.digits.set (index - 1) (UInt16.ofNat (integer % base).toNat) }
  else none

/-- Two digits, which need not be those of a canonical integer. -/
def aux (low high : Nat) : LargeInteger :=
  ⟨false, [UInt16.ofNat low, UInt16.ofNat high]⟩

def twoDigitDivisionBits : Nat := 2

/-- `twoDigitsQuoRem:on:` -/
def twoDigitsQuoRem (self : LargeInteger) (d : Int) : Option (Int × Int) := do
  let k := twoDigitDivisionBits
  let a := self.wideDigitAt 2
  let d1 := d / 2 ^ k
  let s := Int.land d (2 ^ k - 1)
  let c ← bitShiftLeft a (bits - k)
  let q1 ← machine primitiveSMIIntDiv c d1
  let b := self.wideDigitAt 1
  let r1 ← machine primitiveSMIIntQuot c d1
  let shifted ← bitShiftLeft r1 k
  let rem := shifted - s * q1 + b
  let q ← machine primitiveSMIIntDiv rem d
  let r ← machine primitiveSMIIntQuot rem d
  some (q + q1, r)

/-- A digit, with what is left of those above it, divided by one digit. -/
def fastDigit (a1 : Nat) (u divisor : Int) : Option (Int × Int) :=
  if u < 0x4000 then do
    let shifted ← bitShiftLeft u bits
    let b := shifted + a1
    let qhat ← machine primitiveSMIIntDiv b divisor
    let u ← machine primitiveSMIIntQuot b divisor
    some (qhat, u)
  else (aux a1 u.toNat).twoDigitsQuoRem divisor

/-- The loop of `fastQuoRem:`, over the digits below the given one. -/
def fastDigits (self : LargeInteger) (divisor : Int) :
    (j : Nat) → (u : Int) → (quo : LargeInteger) → Option (LargeInteger × Int × List Int)
  | 0, u, quo => some (quo, u, [])
  | j + 1, u, quo => do
    let (qhat, u) ← fastDigit (self.wideDigitAt (j + 1)) u divisor
    let quo ← quo.digitAtPut (j + 1) qhat
    let (quo, u, digits) ← fastDigits self divisor j u quo
    some (quo, u, qhat :: digits)

section

variable (log2 : Nat → Int)

/-- `fastQuoRem:`, by a divisor of one digit. -/
def fastQuoRem (self : LargeInteger) (divisor : Int) : Option QuoRem := do
  let quo := new self.negative self.sizeInBytes
  let (quo, u, digits) ← fastDigits self divisor self.nbDigits 0 quo
  let quo ← quo.reduced log2
  some ⟨quo, .small (if self.negative then 0 - u else u), digits⟩

end

/-- Lower an estimate while the second digit of the divisor shows that it is too high. -/
def lowered (v2 a2 b : Nat) : (qhat rhat : Nat) → Nat
  | 0, _ => 0
  | qhat + 1, rhat =>
    let s := Number.small ((qhat + 1 : Nat) * v2)
    let s2 := s.wideDigitAt 2
    if rhat < s2 ∨ rhat = s2 ∧ a2 < s.wideDigitAt 1 then lowered v2 a2 b qhat (rhat + b)
    else qhat + 1

/-- The two leading digits of the remainder, divided by the highest one of the divisor. -/
def leadingQuoRem (a0 a1 b : Nat) : Option (Int × Int) :=
  if a0 < 0x4000 then do
    let shifted ← bitShiftLeft a0 bits
    let t := shifted + a1
    let qhat ← machine primitiveSMIIntDiv t b
    some (qhat, t - qhat * b)
  else (aux a1 a0).twoDigitsQuoRem b

/-- A digit of the quotient, estimated from the three leading digits of the remainder and the two
of the divisor, whose highest one is `b`. -/
def estimate (u v : Number) (n k b : Nat) : Option Nat :=
  let a0 := u.wideDigitAt k
  if a0 = b then some (base - 1)
  else do
    let (qhat, rhat) ← leadingQuoRem a0 (u.wideDigitAt (k - 1)) b
    let a2 := u.wideDigitAt (k - 2)
    some (lowered (v.wideDigitAt (n - 1)) a2 b qhat.toNat rhat.toNat)

variable (log2 : Nat → Int)

/-- What is left of `u` when so many multiples of `v` are taken away, at the given place. -/
def takeAway (u v : Number) (qhat : Int) (place : Nat) : Option Number := do
  let shifted ← (Number.small qhat).bitShift log2 (place * bits : Nat)
  let product ← v.times log2 shifted
  u.minus log2 product

/-- The loop of `computeQuoRem:`, over the digits of the quotient below the given one; a remainder
of zero ends it. -/
def quotientDigits (v : Number) (n b : Nat) :
    (j : Nat) → (u : Number) → (quo : LargeInteger) →
      Option (LargeInteger × Number × List Int)
  | 0, u, quo => some (quo, u, [])
  | j + 1, u, quo => do
    let qhat ← estimate u v n (j + 1 + n) b
    let t ← takeAway log2 u v qhat j
    let (u, digit) ← if t.negative then do
        let u ← takeAway log2 u v ((qhat : Int) - 1) j
        some (u, (qhat : Int) - 1)
      else some (t, (qhat : Int))
    let quo ← quo.digitAtPut (j + 1) digit
    if u = .small 0 then some (quo, u, [(qhat : Int), digit])
    else do
      let (quo, u, digits) ← quotientDigits v n b j u quo
      some (quo, u, (qhat : Int) :: digit :: digits)

/-- `computeQuoRem:` of positive numbers. -/
def computeQuoRem (self : LargeInteger) (divisor : Number) : Option QuoRem :=
  if (self.sizeInBytes : Int) < divisor.sizeInBytes log2 then some ⟨.small 0, .large self, []⟩
  else
    match divisor with
    | .small value =>
      if value < base then self.fastQuoRem log2 value else longQuoRem self (.small value)
    | .large integer => longQuoRem self (.large integer)
where
  /-- Both are shifted until the highest bit of the divisor is that of a digit. -/
  longQuoRem (self : LargeInteger) (divisor : Number) : Option QuoRem := do
    let shift := bits - highBit log2 (divisor.highWideDigit log2)
    let u ← self.bitShift log2 shift
    let v ← divisor.bitShift log2 shift
    let n := (v.sizeInBytes log2 + digitLength - 1) / digitLength * digitLength
    let m := u.sizeInBytes log2 - n + digitLength
    let (quo, u, digits) ← quotientDigits log2 v (n / digitLength).toNat (v.highWideDigit log2)
      (m / digitLength).toNat u (new self.negative m)
    let quo ← quo.reduced log2
    if u = .small 0 then some ⟨quo, .small 0, digits⟩
    else do
      let u ← u.bitShift log2 (-shift)
      match u with
      | .small value => some ⟨quo, .small value, digits⟩
      | .large integer => do
        let rem ← integer.reduced log2
        some ⟨quo, rem, digits⟩

/-- `quoRem:`, with the quotient rounded down. -/
def quoRem (self : LargeInteger) (divisor : Number) : Option QuoRem :=
  if self.negative then do
    if divisor.positive then
      let s ← divisor.plus log2 (.large self)
      if (Number.small 0).less s then some ⟨.small (-1), s, []⟩
      else
        let data ← abs self divisor
        if data.rem = .small 0 then do
          let quo ← data.quo.negated log2
          some { data with quo := quo }
        else do
          let quo ← data.quo.plus log2 (.small 1)
          let quo ← quo.negated log2
          let rem ← divisor.minus log2 data.rem
          some { data with quo := quo, rem := rem }
    else if self.greater divisor then some ⟨.small 0, .large self, []⟩
    else
      let data ← abs self divisor
      if data.rem = .small 0 then some data
      else do
        let rem ← data.rem.negated log2
        some { data with rem := rem }
  else if divisor.positive then
    if self.less divisor then some ⟨.small 0, .large self, []⟩ else abs self divisor
  else do
    let s ← self.plus log2 divisor
    if s.less (.small 0) then some ⟨.small (-1), s, []⟩
    else
      let data ← abs self divisor
      if data.rem = .small 0 then do
        let quo ← data.quo.negated log2
        some { data with quo := quo }
      else do
        let quo ← data.quo.plus log2 (.small 1)
        let quo ← quo.negated log2
        let rem ← data.rem.plus log2 divisor
        some { data with quo := quo, rem := rem }
where
  /-- Small integers do not understand `computeQuoRem:`. -/
  abs (self : LargeInteger) (divisor : Number) : Option QuoRem := do
    let receiver ← (Number.large self).abs log2
    let divisor ← divisor.abs log2
    match receiver with
    | .small _ => none
    | .large receiver => receiver.computeQuoRem log2 divisor

/-- `quo:`, with the quotient cut; there is none by zero. -/
def quo (self : LargeInteger) (divisor : Number) : Option Number :=
  if divisor = .small 0 then none
  else do
    let data ← self.quoRem log2 divisor
    if self.negative then
      if divisor.negative then some data.quo
      else if data.rem = .small 0 then some data.quo
      else data.quo.plus log2 (.small 1)
    else if data.rem.negative then data.quo.plus log2 (.small 1)
    else some data.quo

end LargeInteger

end Egg.Arithmetic
