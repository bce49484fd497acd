import Egg.Arithmetic.LargeInteger
import Mathlib.Data.Int.Bitwise

/-! Bit operations and shifts. -/
namespace Egg.Arithmetic

namespace LargeInteger

/-- The digits below `count` of the two numbers, combined. -/
def bitDigits (operation : Nat → Nat → Nat) (self : LargeInteger) (anInteger : Number)
    (count : Nat) : List UInt16 :=
  (List.range count).map fun i =>
    UInt16.ofNat (operation (self.wideDigitAt (i + 1)) (anInteger.wideDigitAt (i + 1)))

section

variable (log2 : Nat → Int)

/-- A large integer of the given bytes with the combined digits, reduced. -/
def combined (operation : Nat → Nat → Nat) (self : LargeInteger) (anInteger : Number)
    (negative : Bool) (bytes : Int) : Option Number :=
  let integer := new negative bytes
  reduced log2 { integer with digits := bitDigits operation self anInteger integer.nbDigits }

def bitAnd (self : LargeInteger) (anInteger : Number) : Option Number :=
  if anInteger = .small 0 then some (.small 0)
  else
    let n : Int := self.sizeInBytes
    let m := anInteger.sizeInBytes log2
    if self.negative && anInteger.negative then
      combined log2 (· &&& ·) self anInteger true (max n m)
    else
      let s := if self.positive then if anInteger.negative then n else min n m else m
      combined log2 (· &&& ·) self anInteger false s

def bitOr (self : LargeInteger) (anInteger : Number) : Option Number :=
  if anInteger = .small (-1) then some (.small (-1))
  else
    let n : Int := self.sizeInBytes
    let m := anInteger.sizeInBytes log2
    if self.positive && anInteger.positive then
      combined log2 (· ||| ·) self anInteger false (max n m)
    else
      let s := if self.negative then if anInteger.positive then n else min n m else m
      combined log2 (· ||| ·) self anInteger true (s + digitLength)

def bitXor (self : LargeInteger) (anInteger : Number) : Option Number :=
  let n := max (self.sizeInBytes : Int) (anInteger.sizeInBytes log2)
  combined log2 (· ^^^ ·) self anInteger (self.positive != anInteger.positive) n

end

/-- Shift the digits to the left by less than a digit, the lowest first. -/
def shiftLeftDigits (count : Nat) : (carry : Nat) → List UInt16 → List UInt16
  | _, [] => []
  | carry, d :: digits =>
    let sigma := d.toNat <<< count
    UInt16.ofNat (sigma % base ||| carry) ::
      shiftLeftDigits count (d.toNat >>> (bits - count)) digits

/-- Shift the digits to the right by less than a digit, the highest first; what the last one
carries is answered too. -/
def shiftRightDigits (count carry : Nat) : List UInt16 → List UInt16 × Nat
  | [] => ([], carry)
  | sigma :: digits =>
    let (shifted, carry) := shiftRightDigits count carry digits
    (UInt16.ofNat (sigma.toNat >>> count ||| carry) :: shifted,
      sigma.toNat <<< (bits - count) % base)

variable (log2 : Nat → Int)

def bitShift (self : LargeInteger) (delta : Int) : Option Number :=
  if delta = 0 then some (.large self)
  else
    let bitCount := self.nbDigits * bits + delta
    if bitCount ≤ 0 then some (.small 0)
    else
      let result := new self.negative (((bitCount + 3) / 4 + bits / 4 - 1) / (bits / 4) * digitLength)
      let m := result.nbDigits
      let count := delta.natAbs
      let q := count / bits
      let count := count % bits
      if 0 ≤ delta then
        -- the digits from `q` on are copied, those below are zero
        let digits := (List.range m).map fun i =>
          if q ≤ i then UInt16.ofNat (self.wideDigitAt (i - q + 1)) else 0
        let digits := if 0 < count then shiftLeftDigits count 0 digits else digits
        reduced log2 { result with digits := digits }
      else do
        let digits := (List.range m).map fun i => UInt16.ofNat (self.wideDigitAt (i + q + 1))
        let carry := if self.negative then base - 2 ^ (bits - count) else 0
        let digits := if 0 < count then (shiftRightDigits count carry digits).1 else digits
        let result ← reduced log2 { result with digits := digits }
        if self.negative ∧ result = .small 0 then some (.small (-1)) else some result

/-- Store a byte at a one-based index. -/
def byteAtPut (self : LargeInteger) (index byte : Nat) : LargeInteger :=
  { self with
    digits := self.digits.modify ((index - 1) / 2) fun digit =>
      UInt16.ofNat (if index % 2 = 1 then digit.toNat / 256 * 256 + byte
        else byte * 256 + digit.toNat % 256) }

/-- Store the first bytes of a small integer after the given position. -/
def putBytes (integer : Int) (start : Nat) : (size : Nat) → LargeInteger → LargeInteger
  | 0, result => result
  | i + 1, result =>
    (putBytes integer start i result).byteAtPut (start + (i + 1))
      ((Number.small integer).byteAt (i + 1))

/-- A small integer moved up by whole bytes. -/
def fromInteger (anInteger : Int) (shift : Int) : LargeInteger :=
  let size := primitiveSMISize log2 anInteger
  let bytes := size + shift
  putBytes anInteger (bytes - size).toNat size.toNat (new (decide (anInteger < 0)) bytes)

end LargeInteger

namespace Number

variable (log2 : Nat → Int)

/-- The shift of a positive small integer to the left, beyond the small integers. There is no byte
before the first. -/
def shiftedLeft (self : Int) (anInteger : Nat) : Option LargeInteger :=
  let total := anInteger + highBit log2 self.toNat
  let bytes := (total + 7) / 2 ^ 3
  let bits := anInteger % 8
  if bits = 0 then some (LargeInteger.fromInteger log2 self (bytes - primitiveSMISize log2 self))
  else
    let hi := self / 2 ^ (8 - bits)
    let lo := self % 256 * 2 ^ bits
    let hi := Int.lor hi ((small lo).byteAt 2)
    let lo := lo % 256
    if hi = 0 then some (LargeInteger.fromInteger log2 lo (bytes - 1))
    else
      let shift := bytes - primitiveSMISize log2 hi
      if shift < 1 then none
      else some ((LargeInteger.fromInteger log2 hi shift).byteAtPut shift.toNat lo.toNat)

/-- Large integers do not understand `bitShiftLeft:`. -/
def bitShiftLeft (self : Int) (anInteger : Nat) : Option Number :=
  if self = 0 then some (small 0)
  else if self < 0 then do
    match ← (small self).negated log2 with
    | small negated =>
      match Arithmetic.bitShiftLeft negated anInteger with
      | some result => (small result).negated log2
      | none => do
        let result ← shiftedLeft log2 negated anInteger
        (large result).negated log2
    | large _ => none
  else (shiftedLeft log2 self anInteger).map large

def bitShift (self : Number) (shift : Int) : Option Number :=
  match self with
  | small value =>
    if 0 < shift then
      match Arithmetic.bitShiftLeft value shift.toNat with
      | some result => some (small result)
      | none => bitShiftLeft log2 value shift.toNat
    else if 63 ≤ -shift then some (small (if value < 0 then -1 else 0))
    else some (small (value / 2 ^ (-shift).toNat))
  | large integer => integer.bitShift log2 shift

/-- The common bits, a byte at a time from the highest. -/
def bitAndBytes (self : Int) (anInteger : Number) : (i : Nat) → (sum : Number) → Option Number
  | 0, sum => some sum
  | i + 1, sum => do
    let ai := anInteger.byteAt (i + 1)
    let si := (small self).byteAt (i + 1)
    let shifted ← sum.bitShift log2 8
    let sum ← shifted.plus log2 (small (si &&& ai : Nat))
    bitAndBytes self anInteger i sum

def bitAnd (self anInteger : Number) : Option Number :=
  match self, anInteger with
  | small a, small b => some (small (Int.land a b))
  | small a, large b =>
    if a < 0 ∧ b.negative then b.bitAnd log2 (small a)
    else bitAndBytes log2 a (large b) wordSize (small 0)
  | large a, small b =>
    -- only the positive ones hand a positive argument over
    if a.positive ∧ 0 < b then bitAndBytes log2 b (large a) wordSize (small 0)
    else a.bitAnd log2 (small b)
  | large a, large b => a.bitAnd log2 (large b)

def bitOr (self anInteger : Number) : Option Number :=
  match self, anInteger with
  | small a, small b => some (small (Int.lor a b))
  | small a, large b => b.bitOr log2 (small a)
  | large a, b => a.bitOr log2 b

def bitXor (self anInteger : Number) : Option Number :=
  match self, anInteger with
  | small a, small b => some (small (Int.xor a b))
  | small a, large b => b.bitXor log2 (small a)
  | large a, b => a.bitXor log2 b

def bitInvert (self : Number) : Option Number :=
  match self with
  | small a => (small (-1)).minus log2 (small a)
  | large integer => integer.bitInvert log2

end Number

end Egg.Arithmetic
