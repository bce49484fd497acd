import Egg.Streams.ReadStream
import Egg.Streams.StringWriting

/-! Marshalling: numbers and strings written on a stream as bytes, and read back. -/
namespace Egg.Streams

open Egg.Data

namespace Contents

/-- `byteAt:put:`. -/
def byteAtPut (self : Contents) (index byte : Nat) : Option Contents :=
  if (1 ≤ index ∧ index ≤ self.bytes.length) ∧ byte < 256 then
    some { self with bytes := overwrite self.bytes (index - 1) [byte] }
  else none

end Contents

namespace WriteStream

/-- `putBytesFrom:` of all the bytes of a byte array. -/
def putBytesFrom (self : WriteStream) (aByteArray : List Nat) : Option WriteStream := do
  let length := aByteArray.length
  let w := self.contents.species.characterSize
  let stop := length / w + self.position
  let self ← if self.limit < stop then self.growBy (stop - self.limit : Nat) else some self
  let contents ←
    self.contents.replaceBytes (self.position * w + 1) (self.position * w + length) aByteArray 1
  some { self.moveTo stop with contents }

/-- `InternalWriteStream>>nextBytePut:`; of a negative number its low byte. -/
def nextBytePut (self : WriteStream) (byte : Int) : Option WriteStream := do
  let b := if byte < 0 then byte % 256 else byte
  let self ← if self.position = self.limit then self.grow else some self
  let position := self.position + 1
  let contents ← self.contents.byteAtPut position b.toNat
  some { self.moveTo position with contents }

def nextLongPut (self : WriteStream) (anInteger : Int) : Option WriteStream :=
  let ulong := if anInteger < 0 then 0x100000000 + anInteger else anInteger
  self.putBytesFrom (littleEndian 4 ulong.toNat)

def nextUShortPut (self : WriteStream) (anInteger : Nat) : Option WriteStream :=
  self.putBytesFrom (littleEndian 2 anInteger)

/-- Seven bits at a time, the low ones first; bytes with more behind them have the eighth. -/
def putInteger (self : WriteStream) (anInteger : Int) : Option WriteStream :=
  if anInteger < 128 then self.nextBytePut anInteger
  else do
    let self ← self.nextBytePut (anInteger % 128 + 128)
    self.putInteger (anInteger / 128)
termination_by anInteger.toNat
decreasing_by lia

variable (streamClass : StreamClass)

/-- The four low bytes of a number, each as an element or as a character. -/
def nextULongPut (self : WriteStream) (anInteger : Nat) : Option WriteStream :=
  (littleEndian 4 anInteger).foldlM (nextPut streamClass) self

def nextStringPut (self : WriteStream) (aString : Contents) : Option WriteStream := do
  let self ← self.nextULongPut streamClass aString.size
  self.nextPutAll streamClass aString

end WriteStream

namespace InternalReadStream

variable (self : InternalReadStream Nat)

/-- The bytes behind the position; an error is no result. -/
def readInto (count : Nat) : Option (Reading Nat) :=
  let stop := self.position + count
  if stop > self.limit then none
  else some ((self.contents.drop self.position).take count, self.atPosition stop)

def nextByte : Option (Nat × InternalReadStream Nat) := do
  if self.atEnd then none
  else
    let byte ← elementAt self.contents (self.position + 1)
    some (byte, self.atPosition (self.position + 1))

/-- `longAtOffset:` of four bytes. -/
def longAtOffset (bytes : List Nat) : Int :=
  let lo : Nat := Nat.ofDigits 256 (bytes.take 2)
  let hi : Nat := Nat.ofDigits 256 ((bytes.drop 2).take 2)
  let sign := if hi.testBit 15 then 0x8000 else 0
  ((hi : Int) - sign * 2) * 0x10000 + lo

def nextLong : Option (Int × InternalReadStream Nat) := do
  let (bytes, self) ← self.readInto 4
  some (longAtOffset bytes, self)

/-- `nextULong` of a stream on a byte array or on a string of bytes. -/
def nextULong : Option (Nat × InternalReadStream Nat) :=
  let position := self.position + 4
  if position > self.limit then none
  else some (Nat.ofDigits 256 ((self.contents.drop (position - 4)).take 4), self.atPosition position)

def nextUShort : Option (Nat × InternalReadStream Nat) := do
  let (a0, self) ← self.nextByte
  let (a1, self) ← self.nextByte
  some (a1 * 256 + a0, self)

/-- `ByteArray>>asString` leaves out a null at the end. -/
def asString (binary : Bool) (elements : List Nat) : List Nat :=
  if binary ∧ elements.getLast? = some 0 then elements.dropLast else elements

def nextString (binary : Bool) : Option (Reading Nat) := do
  let (size, self) ← self.nextULong
  let (elements, self) ← self.nextCount size
  some (asString binary elements, self)

theorem nextByte_position {self next : InternalReadStream Nat} {byte : Nat}
    (read : self.nextByte = some (byte, next)) :
    self.position < self.limit ∧ next = self.atPosition (self.position + 1) := by
  rw [nextByte] at read
  split at read
  · cases read
  · next inside =>
    obtain ⟨byte', -, same⟩ := Option.bind_eq_some_iff.mp read
    have room : self.position < self.limit := by
      rw [atEnd, decide_eq_true_iff] at inside
      exact Nat.lt_of_not_le inside
    exact ⟨room, (congrArg Prod.snd (Option.some.inj same)).symm⟩

def getInteger (self : InternalReadStream Nat) : Option (Nat × InternalReadStream Nat) :=
  match _read : self.nextByte with
  | none => none
  | some (byte, next) =>
    if 128 ≤ byte then do
      let (rest, behind) ← next.getInteger
      some (rest * 128 + byte - 128, behind)
    else some (byte, next)
termination_by self.limit - self.position
decreasing_by
  obtain ⟨inside, same⟩ := nextByte_position _read
  rw [same, atPosition_limit, atPosition_position]
  lia

end InternalReadStream

/-- What can be marshalled. -/
inductive Value where
  | long (anInteger : Int)
  | uLong (anInteger : Nat)
  | uShort (anInteger : Nat)
  | string (codes : List Nat)
  | integer (anInteger : Int)
deriving DecidableEq

namespace Value

/-- Numbers within the range of their format, strings of bytes, and any integer. -/
def Admitted : Value → Prop
  | long anInteger => -0x80000000 ≤ anInteger ∧ anInteger < 0x80000000
  | uLong anInteger => anInteger < 0x100000000
  | uShort anInteger => anInteger < 0x10000
  | string codes => ∀ code ∈ codes, code < 256
  | integer _ => True

instance : (value : Value) → Decidable value.Admitted
  | long anInteger => inferInstanceAs (Decidable (-0x80000000 ≤ anInteger ∧ anInteger < 0x80000000))
  | uLong anInteger => inferInstanceAs (Decidable (anInteger < 0x100000000))
  | uShort anInteger => inferInstanceAs (Decidable (anInteger < 0x10000))
  | string codes => inferInstanceAs (Decidable (∀ code ∈ codes, code < 256))
  | integer _ => inferInstanceAs (Decidable True)

def write (streamClass : StreamClass) (self : WriteStream) : Value → Option WriteStream
  | long anInteger => self.nextLongPut anInteger
  | uLong anInteger => self.nextULongPut streamClass anInteger
  | uShort anInteger => self.nextUShortPut anInteger
  | string codes => self.nextStringPut streamClass ⟨.string, codes⟩
  | integer anInteger => self.putInteger anInteger

/-- The reading of a value of the same format. -/
def read (binary : Bool) (self : InternalReadStream Nat) : Value → Option (Value × InternalReadStream Nat)
  | long _ => self.nextLong.map fun (anInteger, next) => (long anInteger, next)
  | uLong _ => self.nextULong.map fun (anInteger, next) => (uLong anInteger, next)
  | uShort _ => self.nextUShort.map fun (anInteger, next) => (uShort anInteger, next)
  | string _ => (self.nextString binary).map fun (codes, next) => (string codes, next)
  | integer _ => self.getInteger.map fun (anInteger, next) => (integer anInteger, next)

/-- Values written one after another. -/
def writeAll (streamClass : StreamClass) (self : WriteStream) (values : List Value) :
    Option WriteStream :=
  values.foldlM (write streamClass) self

/-- What is read in the same order. -/
def readAll (binary : Bool) (self : InternalReadStream Nat) :
    List Value → Option (List Value × InternalReadStream Nat)
  | [] => some ([], self)
  | value :: values => do
    let (answer, self) ← read binary self value
    let (answers, self) ← readAll binary self values
    some (answer :: answers, self)

end Value

end Egg.Streams
