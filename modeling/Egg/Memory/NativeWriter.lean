import Mathlib.Logic.Function.Basic
import Egg.Arithmetic.LargeInteger
import Egg.Memory.SegmentFile
import Egg.Unicode.Text

/-! Image segments as they are written: objects laid out one after the other, and references
encoded by where their objects were laid out. -/
namespace Egg.Memory

open Egg.Data
open Egg.Unicode (Text)

/-- What a slot holds: a tagged integer, or an object with its identity. -/
inductive Slot (ι : Type) where
  | smallInteger (value : Int) (fits : Arithmetic.minimum ≤ value ∧ value ≤ Arithmetic.maximum)
  | object (id : ι)

/-- The bytes that a string has in its body; a string of bytes has a zero at the end. -/
def textContents : Text → List UInt8
  | .string bytes => bytes ++ [0]
  | .wideString longs => longs.flatMap fun long => numberBytes 4 long.toNat

inductive Body (ι : Type) where
  | slots (pointers : List (Slot ι))
  | bytes (contents : List UInt8)
  | text (characters : Text)

namespace Body

variable {ι : Type}

def isBytes : Body ι → Bool
  | slots _ => false
  | bytes _ | text _ => true

def contents : Body ι → List UInt8
  | slots _ => []
  | bytes held => held
  | text characters => textContents characters

def pointers : Body ι → List (Slot ι)
  | slots held => held
  | bytes _ | text _ => []

/-- The size in the header: of the slots, or of the bytes. -/
def headerSize : Body ι → Nat
  | slots held => held.length
  | bytes held => held.length
  | text characters => (textContents characters).length

/-- What `size` answers: a string counts its characters. -/
def size : Body ι → Nat
  | slots held => held.length
  | bytes held => held.length
  | text characters => characters.size

def sizeInBytes : Body ι → Nat
  | slots held => held.length * wordSize
  | bytes held => (held.length + wordSize - 1) / wordSize * wordSize
  | text characters => ((textContents characters).length + wordSize - 1) / wordSize * wordSize

end Body

/-- An object as the memory of the writing system has it: its flags tell what its body holds, and
its header can tell how large it is. -/
structure ImageObject (ι : Type) where
  hash : UInt16
  flags : UInt8
  behavior : ι
  body : Body ι
  bytes_flag : (flags &&& isBytesFlag == isBytesFlag) = body.isBytes
  small : (flags &&& isSmallFlag == isSmallFlag) = true → body.headerSize ≤ maxSmallSize
  size : body.headerSize < 2 ^ 31
  room : body.sizeInBytes < 2 ^ 32

namespace ImageObject

variable {ι : Type} (object : ImageObject ι)

def isLarge : Bool := !(object.flags &&& isSmallFlag == isSmallFlag)

end ImageObject

inductive Token where
  | nil
  | string (text : Text)
  | strings (texts : List Text)

structure SymbolicReference where
  linker : Text
  token : Token

namespace SymbolicReference

/-- The linker and the strings of the token. -/
def descriptor (reference : SymbolicReference) : List Text :=
  reference.linker :: match reference.token with
    | .nil => []
    | .string text => [text]
    | .strings texts => texts

end SymbolicReference

/-! ### Streams of bytes -/

/-- `anInteger at: i` for the first bytes of an integer, in two's complement. -/
def integerBytes (width : Nat) (integer : Int) : List UInt8 :=
  numberBytes width (integer % 256 ^ width).toNat

def nextULargePut (stream : List UInt8) (integer : Int) : List UInt8 :=
  stream ++ integerBytes 8 integer

def nextULongPut (stream : List UInt8) (integer : Int) : List UInt8 :=
  stream ++ integerBytes 4 integer

def nextUShortPut (stream : List UInt8) (integer : Int) : List UInt8 :=
  stream ++ integerBytes 2 integer

def nextPut (stream : List UInt8) (byte : UInt8) : List UInt8 :=
  stream ++ [byte]

/-- As many bytes of a collection of bytes as it has elements. -/
def nextPutAll (stream contents : List UInt8) (size : Nat) : List UInt8 :=
  stream ++ contents.take size

def putText (stream : List UInt8) (text : Text) : List UInt8 :=
  nextPutAll stream (textContents text) text.size

/-! ### The writer -/

/-- What is written: the objects of a closure and the references across its boundary, in the orders
in which the collections that hold them enumerate them. -/
structure NativeWriter (ι : Type) where
  heap : ι → ImageObject ι
  objects : List (Slot ι)
  imports : List (ι × SymbolicReference)
  mapping : List (ι × ι)
  exports : List (Text × Slot ι)
  module : ι
  nilToken : ι
  closureNilToken : ι
  base : Nat

namespace NativeWriter

variable {ι : Type} [DecidableEq ι] (writer : NativeWriter ι)

def objectsOffset : Nat := 40

def objectHeaderSizeInBytes (object : ImageObject ι) : Nat :=
  if object.isLarge then 16 else 8

/-- The offsets so far, and the next one. -/
def layoutObject (layout : (ι → Option Nat) × Nat) (id : ι) : (ι → Option Nat) × Nat :=
  let oop := layout.2 + objectHeaderSizeInBytes (writer.heap id)
  (Function.update layout.1 id (some oop), oop + (writer.heap id).body.sizeInBytes)

/-- Integers of the closure are not laid out. -/
def layoutSlot (layout : (ι → Option Nat) × Nat) : Slot ι → (ι → Option Nat) × Nat
  | .smallInteger _ _ => layout
  | .object id => writer.layoutObject layout id

def layoutImport (offsets : ι → Option Nat) (id : ι) (subscript : Nat) : ι → Option Nat :=
  Function.update offsets id (some (subscript <<< 2 ||| 2))

def layoutReference (layout : (ι → Option Nat) × Nat) (entry : ι × SymbolicReference) :
    (ι → Option Nat) × Nat :=
  (layoutImport layout.1 entry.1 layout.2, layout.2 + 1)

/-- A mapped object has the offset of its surrogate. -/
def layoutMapped (offsets : ι → Option Nat) (entry : ι × ι) : ι → Option Nat :=
  match offsets entry.2 with
  | some offset => Function.update offsets entry.1 (some offset)
  | none => offsets

/-- Where the objects, the imports and the mapped objects are, and the size of the segment. -/
def layoutObjects : (ι → Option Nat) × Nat :=
  let objects := writer.objects.foldl writer.layoutSlot (fun _ => none, objectsOffset)
  let imports := writer.imports.foldl layoutReference (objects.1, 0)
  (writer.mapping.foldl layoutMapped imports.1, objects.2)

def offsets : ι → Option Nat := writer.layoutObjects.1
def size : Nat := writer.layoutObjects.2

def offsetOf (id : ι) : Option Nat := writer.offsets id

def encodedReferenceTo : Slot ι → Option Int
  | .smallInteger value _ => some (value * 2 + 1)
  | .object id => do
    let key := if writer.nilToken = id then writer.closureNilToken else id
    let offset ← writer.offsets key
    if offset &&& 2 = 2 then some (offset : Int) else some ((writer.base + offset : Nat) : Int)

def writeReferenceTo (stream : List UInt8) (slot : Slot ι) : Option (List UInt8) := do
  let encoded ← writer.encodedReferenceTo slot
  some (nextULargePut stream encoded)

def writeSignature (stream : List UInt8) : List UInt8 :=
  nextPut (nextPut (stream ++ [0x45, 0x47, 0x47, 0x5F, 0x49, 0x53]) 0x0A) 0

def writeHeader (stream : List UInt8) : Option (List UInt8) :=
  let stream := nextULargePut stream writer.base
  let stream := nextULargePut stream writer.size
  let stream := nextULargePut stream (writer.size + 0x20000 : Nat)
  writer.writeReferenceTo stream (.object writer.module)

/-- The end of the header is where the object was laid out, as the writer asserts. -/
def writeObjectHeader (stream : List UInt8) (id : ι) : Option (List UInt8) := do
  let object := writer.heap id
  let stream :=
    if object.isLarge then nextULongPut (nextULongPut stream object.body.headerSize) 0 else stream
  let smallsize := if object.isLarge then 0 else object.body.headerSize
  let behavior ← writer.encodedReferenceTo (.object object.behavior)
  let stream := nextUShortPut stream object.hash.toNat
  let stream := nextPut (nextPut stream (UInt8.ofNat smallsize)) object.flags
  let stream := nextULongPut stream behavior
  if writer.offsetOf id = some stream.length then some stream else none

def writeObjectBytes (stream : List UInt8) (body : Body ι) : List UInt8 :=
  let initial := stream.length
  let stream := nextPutAll stream body.contents body.size
  let written := stream.length - initial
  let size := body.headerSize
  let stream := stream ++ List.replicate (size - written) 0
  let misalignment := size % wordSize
  if misalignment = 0 then stream
  else stream ++ List.replicate (wordSize - misalignment) 0

def writeObjectSlots (stream : List UInt8) (body : Body ι) : Option (List UInt8) :=
  body.pointers.foldlM writer.writeReferenceTo stream

def writeObjectBody (stream : List UInt8) (body : Body ι) : Option (List UInt8) :=
  if body.isBytes then some (writeObjectBytes stream body) else writer.writeObjectSlots stream body

def writeObject (stream : List UInt8) (slot : Slot ι) : Option (List UInt8) :=
  match slot with
  | .smallInteger _ _ => some stream
  | .object id => do
    let stream ← writer.writeObjectHeader stream id
    writer.writeObjectBody stream (writer.heap id).body

def writeObjects (stream : List UInt8) : Option (List UInt8) :=
  if stream.length = objectsOffset then writer.objects.foldlM writer.writeObject stream else none

/-- The strings in the order of their subscripts. -/
def addImportString (importStrings : List Text) (text : Text) : List Text :=
  if importStrings.any text.equals then importStrings else importStrings ++ [text]

def computeImportStrings : List Text :=
  writer.imports.foldl (fun importStrings entry =>
    entry.2.descriptor.foldl addImportString importStrings) []

def importStringAt (text : Text) : Option Nat :=
  writer.computeImportStrings.findIdx? text.equals

def writeImportStrings (stream : List UInt8) : List UInt8 :=
  writer.computeImportStrings.foldl
    (fun stream text => putText (nextULongPut stream text.size) text)
    (nextULongPut stream writer.computeImportStrings.length)

def writeImport (stream : List UInt8) (reference : SymbolicReference) : Option (List UInt8) :=
  reference.descriptor.foldlM (fun stream text => do
    let subscript ← writer.importStringAt text
    some (nextULongPut stream subscript)) (nextULongPut stream reference.descriptor.length)

def writeImports (stream : List UInt8) : Option (List UInt8) :=
  writer.imports.foldlM (fun stream entry => writer.writeImport stream entry.2)
    (nextULongPut stream writer.imports.length)

def writeExport (stream : List UInt8) (entry : Text × Slot ι) : Option (List UInt8) := do
  let encoded ← writer.encodedReferenceTo entry.2
  some (putText (nextULargePut (nextULargePut stream encoded) entry.1.size) entry.1)

def writeExports (stream : List UInt8) : Option (List UInt8) :=
  writer.exports.foldlM writer.writeExport (nextULongPut stream writer.exports.length)

/-- The bytes of the segment; none where a reference leads out of the closure. -/
def write : Option (List UInt8) := do
  let stream ← writer.writeHeader (writeSignature [])
  let stream ← writer.writeObjects stream
  let stream ← writer.writeImports (writer.writeImportStrings stream)
  writer.writeExports stream

end NativeWriter

end Egg.Memory
