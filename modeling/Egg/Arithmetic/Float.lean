import Egg.Arithmetic.Exactness
import Egg.Data.Binary64

/-! Floats: conversion of integers to them, equality and hash. -/
namespace Egg.Arithmetic

open Egg.Data

/-- The primitive conversion takes small integers only; where it fails, the method answers its
receiver, the class. -/
inductive Converted where
  | float (value : Binary64)
  | floatClass

namespace Float

def fromInteger : Number → Converted
  | .small value => .float (Binary64.ofInt value)
  | .large _ => .floatClass

def fractionPart (self : Binary64) : Int :=
  self.units.tmod Binary64.one

section

-- the machine's conversion of a number past its integers
variable (cast : Binary64 → Int)

/-- The integer part as a small integer, whose tag takes the highest bit. -/
def truncated (self : Binary64) : Int :=
  let intPart := self.units.tdiv Binary64.one
  if -2 ^ 63 ≤ intPart ∧ intPart < 2 ^ 63 then intPart.bmod (2 ^ 63) else cast self

/-- The byte at a one-based index. -/
def byteAt (self : Binary64) (index : Nat) : Nat :=
  self.bits.toNat / 256 ^ (index - 1) % 256

def hashBytes (self : Binary64) : Nat :=
  (List.range 8).foldl (fun hash i => hashMultiply hash 0x19660D ^^^ byteAt self (i + 1)) 8

/-- Whether the hash is that of the integer part. -/
def HashesInteger (self : Binary64) : Prop :=
  self.IsFinite ∧ fractionPart self = 0 ∧
    ((-1073741824 * Binary64.one ≤ self.units ∧ self.units ≤ 1073741823 * Binary64.one) ∨
      9007199254740992 * Binary64.one < self.units ∨
      self.units < -9007199254740992 * Binary64.one)

instance (self : Binary64) : Decidable (HashesInteger self) :=
  inferInstanceAs (Decidable (_ ∧ _ ∧ _))

def hash (self : Binary64) : Int :=
  if HashesInteger self then truncated cast self else hashBytes self

end

end Float

namespace Number

variable (log2 : Nat → Int)

/-- The class does not understand `negated`. -/
def asFloat : Number → Option Converted
  | small value => some (Float.fromInteger (small value))
  | large integer =>
    if integer.negative then do
      let opposite ← negated log2 (large integer)
      match Float.fromInteger opposite with
      | .float value => some (.float value.negated)
      | .floatClass => none
    else some (Float.fromInteger (large integer))

end Number

end Egg.Arithmetic
