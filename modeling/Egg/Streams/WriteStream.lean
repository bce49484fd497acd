import Egg.Data.LittleEndian
import Egg.Strings.SubstringSearch

/-! Write streams on byte arrays and strings. The contents are bytes: one for each element of a byte
array or a string, four for each character of a wide string. An error is no result. -/
namespace Egg.Streams

open Egg.Data

/-- The classes of contents. -/
inductive Species where
  | byteArray
  | string
  | wideString
deriving DecidableEq

def Species.characterSize : Species → Nat
  | .wideString => 4
  | _ => 1

/-- The object a stream writes to; the null at the end of a string is not one of its bytes. -/
structure Contents where
  species : Species
  bytes : List Nat
deriving DecidableEq

namespace Contents

def new (species : Species) (anInteger : Nat) : Contents :=
  ⟨species, List.replicate (anInteger * species.characterSize) 0⟩

def size (self : Contents) : Nat :=
  self.bytes.length / self.species.characterSize

/-- The bytes from an offset on are overwritten. -/
def overwrite (bytes : List Nat) (offset : Nat) (source : List Nat) : List Nat :=
  bytes.take offset ++ source ++ bytes.drop (offset + source.length)

def atPut (self : Contents) (index token : Nat) : Option Contents :=
  if 1 ≤ index ∧ index ≤ self.size then
    match self.species with
    | .wideString =>
      some ⟨.wideString, overwrite self.bytes ((index - 1) * 4) (littleEndian 4 token)⟩
    | species => if token < 256 then some ⟨species, overwrite self.bytes (index - 1) [token]⟩ else none
  else none

/-- `replaceBytesFrom:to:with:startingAt:` of other contents. -/
def replaceBytes (self : Contents) (start stop : Nat) (source : List Nat) (position : Nat) :
    Option Contents :=
  if stop < start then some self
  else if 1 ≤ start ∧ stop ≤ self.bytes.length ∧ position + stop - start ≤ source.length then
    some { self with
      bytes := overwrite self.bytes (start - 1)
        ((source.drop (position - 1)).take (stop + 1 - start)) }
  else none

def asWideString (self : Contents) : Contents :=
  match self.species with
  | .wideString => self
  | _ => ⟨.wideString, self.bytes.flatMap fun byte => [byte, 0, 0, 0]⟩

/-- `replaceFrom:to:with:startingAt:` from the first element of other contents. -/
def replaceFrom (self : Contents) (start stop : Nat) (source : Contents) : Option Contents :=
  match self.species with
  | .wideString =>
    self.replaceBytes ((start - 1) * 4 + 1) (stop * 4) source.asWideString.bytes 1
  | _ => self.replaceBytes start stop source.bytes 1

/-- The elements up to a position. -/
def copyTo (self : Contents) (size : Nat) : Contents :=
  { self with bytes := self.bytes.take (size * self.species.characterSize) }

/-- The codes of a string's characters. -/
def characters (self : Contents) : List Nat :=
  (List.range self.size).map fun index =>
    Nat.ofDigits 256
      ((self.bytes.drop (index * self.species.characterSize)).take self.species.characterSize)

/-- A string as contents. -/
def ofText (text : Strings.Text) : Contents :=
  match text.kind with
  | .wideString => ⟨.wideString, bytesOf 4 text.codes⟩
  | _ => ⟨.string, text.codes⟩

end Contents

/-- The classes of the streams. -/
inductive StreamClass where
  | internalWriteStream
  | writeStringStream
deriving DecidableEq

structure WriteStream where
  contents : Contents
  position : Nat
  size : Nat
  limit : Nat
deriving DecidableEq

namespace WriteStream

def on (aCollection : Contents) : WriteStream where
  contents := aCollection
  position := 0
  size := 0
  limit := aCollection.size

/-- `with:`. -/
def onAll (aCollection : Contents) : WriteStream :=
  { on aCollection with position := aCollection.size, size := aCollection.size }

def isWide (self : WriteStream) : Bool :=
  self.contents.species = .wideString

/-- `grow:`. -/
def growBy (self : WriteStream) (extra : Int) : Option WriteStream := do
  if extra ≤ 0 then some self
  else
    let collection := Contents.new self.contents.species (self.contents.size + extra.toNat)
    let collection ← collection.replaceFrom 1 self.contents.size self.contents
    some { self with contents := collection, limit := collection.size }

def grow (self : WriteStream) : Option WriteStream :=
  self.growBy (min (max self.contents.size 20) 1000000 : Nat)

def growAtLeast (self : WriteStream) (extra : Int) : Option WriteStream :=
  self.growBy (max ((self.contents.size * 2 : Nat) : Int) extra + 10)

/-- The size follows the position. -/
def moveTo (self : WriteStream) (position : Nat) : WriteStream :=
  { self with position, size := max self.size position }

namespace InternalWriteStream

def beWide (self : WriteStream) : WriteStream :=
  if self.isWide then self else { self with contents := self.contents.asWideString }

def nextPut (self : WriteStream) (token : Nat) : Option WriteStream := do
  let index := self.position + 1
  let self ← if index > self.limit then self.grow else some self
  let contents ← self.contents.atPut index token
  some { self.moveTo index with contents }

/-- A wide string makes the contents wide, but the bytes are counted as if a character had two. -/
def nextPutAll (self : WriteStream) (aCollection : Contents) : Option WriteStream := do
  let n := aCollection.size
  if n = 0 then some self
  else
    let extra : Int := n - (self.limit - self.position)
    let self ← if extra > 0 then self.growAtLeast extra else some self
    let stop := self.position + n
    if self.contents.species = .string ∧ aCollection.species = .wideString then
      let self := beWide self
      let contents ←
        self.contents.replaceBytes (self.position * 2 + 1) (stop * 2) aCollection.bytes 1
      some { self.moveTo stop with contents }
    else
      let contents ← self.contents.replaceFrom (self.position + 1) stop aCollection
      some { self.moveTo stop with contents }

end InternalWriteStream

namespace WriteStringStream

def beWide (self : WriteStream) : WriteStream :=
  let self := InternalWriteStream.beWide self
  { self with limit := self.contents.size }

def nextPut (self : WriteStream) (aCharacter : Nat) : Option WriteStream :=
  if aCharacter < 256 then InternalWriteStream.nextPut self aCharacter
  else InternalWriteStream.nextPut (beWide self) aCharacter

def nextPutAll (self : WriteStream) (aString : Contents) : Option WriteStream :=
  let wide := self.contents.species = .wideString
  if wide ↔ aString.species = .wideString then InternalWriteStream.nextPutAll self aString
  else if wide then InternalWriteStream.nextPutAll self aString.asWideString
  else InternalWriteStream.nextPutAll (beWide self) aString

end WriteStringStream

variable (streamClass : StreamClass)

def beWide (self : WriteStream) : WriteStream :=
  match streamClass with
  | .internalWriteStream => InternalWriteStream.beWide self
  | .writeStringStream => WriteStringStream.beWide self

def nextPut (self : WriteStream) (token : Nat) : Option WriteStream :=
  match streamClass with
  | .internalWriteStream => InternalWriteStream.nextPut self token
  | .writeStringStream => WriteStringStream.nextPut self token

def nextPutAll (self : WriteStream) (aCollection : Contents) : Option WriteStream :=
  match streamClass with
  | .internalWriteStream => InternalWriteStream.nextPutAll self aCollection
  | .writeStringStream => WriteStringStream.nextPutAll self aCollection

def nextPutChar (self : WriteStream) (aCharacter : Nat) : Option WriteStream :=
  if ¬ self.isWide ∧ ¬ aCharacter < 256 then nextPut streamClass (beWide streamClass self) aCharacter
  else nextPut streamClass self aCharacter

def nextPutString (self : WriteStream) (aString : Contents) : Option WriteStream :=
  if self.isWide then nextPutAll streamClass self aString.asWideString
  else if aString.species = .wideString then
    nextPutAll streamClass (beWide streamClass self) aString
  else nextPutAll streamClass self aString

/-- `position:`. -/
def atPosition (self : WriteStream) (anInteger : Int) : Option WriteStream :=
  if 0 ≤ anInteger ∧ anInteger ≤ self.limit then some { self with position := anInteger.toNat }
  else none

def setToEnd (self : WriteStream) : WriteStream :=
  { self with position := self.size }

/-- What the stream answers as its contents. -/
def written (self : WriteStream) : Contents :=
  self.contents.copyTo self.size

end WriteStream

end Egg.Streams
