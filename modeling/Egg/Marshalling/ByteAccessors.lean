import Egg.Data.Bytes
import Mathlib.Data.Int.Bitwise

/-! The accessors of numbers of two, four and eight bytes within an object of bytes. -/
namespace Egg.Marshalling

open Egg.Data

def smallestInteger : Int := -2 ^ 62
def largestInteger : Int := 2 ^ 62 - 1

def isSmallInteger (value : Int) : Bool :=
  smallestInteger ≤ value && value ≤ largestInteger

theorem isSmallInteger_iff {value : Int} :
    isSmallInteger value = true ↔ smallestInteger ≤ value ∧ value ≤ largestInteger := by
  simp [isSmallInteger]

/-- An integer as an object; a large one has bytes at an address. -/
inductive IntegerObject where
  | small (value : Int)
  | large (value : Int) (size address : Nat)
  deriving DecidableEq

namespace IntegerObject

def value : IntegerObject → Int
  | small value => value
  | large value _ _ => value

/-- Small integers have no indexed part. -/
def size : IntegerObject → Nat
  | small _ => 0
  | large _ size _ => size

/-- `asNative`, which takes any pointer for a tagged integer. -/
def native : IntegerObject → Int
  | small value => value
  | large _ _ address => Int.bmod address (2 ^ 64) / 2

/-- Integers are large only where they have to be. -/
def Normal : IntegerObject → Prop
  | small value => isSmallInteger value
  | large value _ _ => ¬ isSmallInteger value

end IntegerObject

/-- What keeps an access from being done. -/
inductive Failure where
  | outOfBounds
  | doesNotFit
  | doesNotUnderstand
  | assertion
  deriving DecidableEq

/-- The classes of objects with bytes, as far as their accessors differ. -/
inductive Species where
  | byteArray
  | string
  | wideString
  | symbol
  deriving DecidableEq

/-- An object of bytes in memory; `_size` counts all of its bytes. -/
structure Receiver where
  species : Species
  address : Nat
  size : Nat
  bounded : size < 2 ^ 32

/-- The kinds of numbers, by the names of their accessors. -/
inductive Kind where
  | short
  | uShort
  | long
  | uLong
  | large
  | uLarge
  deriving DecidableEq

namespace Kind

def width : Kind → Nat
  | short => 2
  | uShort => 2
  | long => 4
  | uLong => 4
  | large => 8
  | uLarge => 8

def signed : Kind → Bool
  | short => true
  | long => true
  | large => true
  | _ => false

end Kind

namespace Receiver

section Primitives

variable (asserts : Bool) (self : Receiver) (memory : Bytes)

/-- What a `uint32_t` keeps of an integer. -/
def uint32 (integer : Int) : Nat := (integer % 2 ^ 32).toNat

/-- An address within the object, where the assertion on the last byte holds or is left out. -/
def place (last : Nat → Nat) (offset : Int) : Except Failure Nat :=
  let subscript := uint32 offset
  if asserts = true ∧ ¬ last subscript % 2 ^ 32 < self.size then .error .assertion
  else .ok (self.address + subscript)

def uint16offset (offset : Int) : Except Failure Nat := self.place asserts (· + 1) offset

def uint32offset (offset : Int) : Except Failure Nat := self.place asserts (· * 4 + 3) offset

def uint64offset (offset : Int) : Except Failure Nat := self.place asserts (· + 7) offset

/-- A tag is put in the place of the first bit. -/
def newIntObject (number : Nat) : Except Failure Int :=
  let intVal := Int.bmod number (2 ^ 64)
  if asserts = true ∧ ¬ isSmallInteger intVal then .error .assertion
  else .ok (Int.bmod intVal (2 ^ 63))

/-- The number at an address, as an object. -/
def answerAt (width : Nat) (found : Except Failure Nat) : Except Failure Int := do
  newIntObject asserts (memory.load (← found) width)

/-- The value is cast to the type of the number. -/
def storeAt (width : Nat) (value : IntegerObject) (found : Except Failure Nat) :
    Except Failure Bytes := do
  let address ← found
  match value with
  | .small native => .ok (memory.store address width (native % 256 ^ width).toNat)
  | .large .. =>
    if asserts then .error .assertion
    else .ok (memory.store address width (value.native % 256 ^ width).toNat)

/-- `_byteAt:`, which checks nothing. -/
def byteAtValid (index : Int) : Int :=
  (memory (self.address + uint32 (uint32 index - 1))).toNat

end Primitives

section Checks

variable (self : Receiver) (memory : Bytes)

/-- The access is done where the offset is not negative and this last one is within the size. -/
def checked {α : Type} (last : Int) (offset : Int) (access : Except Failure α) :
    Except Failure α :=
  if isSmallInteger offset ∧ 0 ≤ offset ∧ offset + last ≤ self.size then access
  else .error .outOfBounds

/-- `at:` of a byte array. -/
def at_ (index : Int) : Except Failure Int :=
  if 1 ≤ index ∧ index ≤ self.size then .ok (self.byteAtValid memory index)
  else .error .outOfBounds

/-- `byteAt:`; the last byte of a string ends it. -/
def byteAt (index : Int) : Except Failure Int :=
  if 1 ≤ index ∧ (if self.species = .string then index < self.size else index ≤ self.size) then
    .ok (self.byteAtValid memory index)
  else .error .outOfBounds

end Checks

section Readers

variable (asserts : Bool) (self : Receiver) (memory : Bytes)

def shortAtValidOffset (offset : Int) : Int :=
  let lo := self.byteAtValid memory (offset + 1)
  let hi := self.byteAtValid memory (offset + 2)
  let sign := hi.land 0x80
  let hi := hi - sign * 2
  hi * 0x100 + lo

def shortAtOffset (offset : Int) : Except Failure Int :=
  self.checked 2 offset (.ok (self.shortAtValidOffset memory offset))

def uShortAtValidOffset (offset : Int) : Int :=
  self.byteAtValid memory (offset + 2) * 0x100 + self.byteAtValid memory (offset + 1)

def uShortAtOffset (offset : Int) : Except Failure Int :=
  self.checked 1 offset (.ok (self.uShortAtValidOffset memory offset))

def longAtValidOffset (offset : Int) : Int :=
  let lo := self.uShortAtValidOffset memory offset
  let hi := self.uShortAtValidOffset memory (offset + 2)
  let sign := hi.land 0x8000
  let hi := hi - sign * 2
  hi * 0x10000 + lo

def longAtOffset (offset : Int) : Except Failure Int :=
  self.checked 3 offset (.ok (self.longAtValidOffset memory offset))

/-- `_primitiveULongAtOffset:` never answers nil. -/
def uLongAtValidOffset (offset : Int) : Except Failure Int :=
  answerAt asserts memory 4 (self.uint32offset asserts offset)

def uLongAtOffset (offset : Int) : Except Failure Int :=
  self.checked 3 offset (self.uLongAtValidOffset asserts memory offset)

def uLargeAtValidOffset (offset : Int) : Except Failure Int :=
  answerAt asserts memory 8 (self.uint64offset asserts offset)

def uLargeAtOffset (offset : Int) : Except Failure Int :=
  self.checked 7 offset (self.uLargeAtValidOffset asserts memory offset)

/-- The digits of a negative number are inverted, from the last one to the first. -/
def largeAtOffset (offset : Int) : Except Failure Int := do
  if (← self.at_ memory (offset + 8)) ≥ 0x80 then
    let integer ← ([8, 7, 6, 5, 4, 3, 2, 1] : List Int).foldlM (fun integer i => do
      .ok (integer * 256 + Int.xor (← self.at_ memory (offset + i)) 0xFF)) 0
    .ok (-(integer + 1))
  else
    let lo ← self.uLongAtOffset asserts memory 0
    let hi ← self.uLongAtOffset asserts memory 4
    .ok (hi * 2 ^ 32 + lo)

namespace CharacterArray

/-- Bytes behind the end are taken for zeros. -/
def uShortAtOffset (anInteger : Int) : Except Failure Int := do
  let index := anInteger + 1
  let lo ← if index > self.size then .ok 0 else self.byteAt memory index
  let hi ← if index + 1 > self.size then .ok 0 else self.byteAt memory (index + 1)
  .ok (hi * 256 + lo)

def shortAtOffset (offset : Int) : Except Failure Int := do
  let integer ← uShortAtOffset self memory offset
  .ok (if 0x7FFF < integer then integer - 0x10000 else integer)

def uLongAtOffset (offset : Int) : Except Failure Int := do
  let low ← uShortAtOffset self memory offset
  let high ← uShortAtOffset self memory (offset + 2)
  .ok (high * 2 ^ 16 + low)

end CharacterArray

/-- The accessor that is found for the class of the receiver. -/
def read : Kind → Int → Except Failure Int
  | .short, offset =>
    if self.species = .byteArray then self.shortAtOffset memory offset
    else CharacterArray.shortAtOffset self memory offset
  | .uShort, offset =>
    if self.species = .byteArray then self.uShortAtOffset memory offset
    else CharacterArray.uShortAtOffset self memory offset
  | .long, offset =>
    if self.species = .byteArray then self.longAtOffset memory offset
    else .error .doesNotUnderstand
  | .uLong, offset =>
    if self.species = .byteArray then self.uLongAtOffset asserts memory offset
    else CharacterArray.uLongAtOffset self memory offset
  | .large, offset =>
    if self.species = .byteArray then self.largeAtOffset asserts memory offset
    else .error .doesNotUnderstand
  | .uLarge, offset => self.uLargeAtOffset asserts memory offset

end Readers

section Writers

-- New large integers have the size and the address that are allocated for them.
variable (asserts : Bool) (allocated : Nat × Nat) (self : Receiver) (memory : Bytes)

/-- The integer that an operation answers. -/
def integerFor (value : Int) : IntegerObject :=
  if isSmallInteger value then .small value else .large value allocated.1 allocated.2

/-- The primitives store what has no more bytes than the number. -/
def ifFits (bytes : Nat) (anInteger : IntegerObject) (access : Except Failure Bytes) :
    Except Failure Bytes :=
  if anInteger.size > bytes then .error .doesNotFit else access

def uShortAtOffsetPut (offset : Int) (anInteger : IntegerObject) : Except Failure Bytes :=
  self.checked 1 offset
    (ifFits 2 anInteger (storeAt asserts memory 2 anInteger (self.uint16offset asserts offset)))

/-- `_uLongAtValidOffset:put:` does not look at the size. -/
def uLongAtOffsetPut (offset : Int) (anInteger : IntegerObject) : Except Failure Bytes :=
  self.checked 3 offset (storeAt asserts memory 4 anInteger (self.uint32offset asserts offset))

def longAtOffsetPut (offset : Int) (anInteger : IntegerObject) : Except Failure Bytes :=
  let ulong := if anInteger.value < 0 then integerFor allocated (0x100000000 + anInteger.value)
    else anInteger
  self.uLongAtOffsetPut asserts memory offset ulong

def uLargeAtOffsetPut (offset : Int) (anInteger : IntegerObject) : Except Failure Bytes :=
  self.checked 7 offset
    (ifFits 8 anInteger (storeAt asserts memory 8 anInteger (self.uint64offset asserts offset)))

/-- The accessor that is found for the class of the receiver; two kinds have none. -/
def write : Kind → Int → IntegerObject → Except Failure Bytes
  | .short, _, _ => .error .doesNotUnderstand
  | .uShort, offset, anInteger => self.uShortAtOffsetPut asserts memory offset anInteger
  | .long, offset, anInteger =>
    if self.species = .byteArray then self.longAtOffsetPut asserts allocated memory offset anInteger
    else .error .doesNotUnderstand
  | .uLong, offset, anInteger => self.uLongAtOffsetPut asserts memory offset anInteger
  | .large, _, _ => .error .doesNotUnderstand
  | .uLarge, offset, anInteger => self.uLargeAtOffsetPut asserts memory offset anInteger

end Writers

end Receiver

end Egg.Marshalling
