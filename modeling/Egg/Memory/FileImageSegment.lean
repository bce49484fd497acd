import Egg.Data.Reader
import Egg.Memory.HeapObject

/-! Image segments: loaded from a file, at an address that need not be the one they were
written for, and relocated to it. -/
namespace Egg.Memory

open Egg.Data

structure ImageSegmentHeader where
  signature : List UInt8
  baseAddress : Nat
  size : Nat
  reservedSize : Nat
  module : Nat

/-- `sizeof(ImageSegmentHeader)`. -/
def imageSegmentHeaderSize : Nat := 40

structure FileImageSegment where
  header : ImageSegmentHeader
  currentBase : Nat
  importStrings : List (List UInt8)
  importDescriptors : List (List Nat)
  exports : List UInt8 → Option Nat

/-- What the loader relies on of the machine: its pages, and the upper half of the addresses that
behaviors have. -/
structure Platform where
  pageSize : Nat
  behaviorAddressSpace : Nat
  aligned : behaviorAddressSpace % 2 ^ 32 = 0

def signature : List UInt8 := [0x45, 0x47, 0x47, 0x5F, 0x49, 0x53, 0x0A, 0x00]

namespace FileImageSegment

variable (platform : Platform) (segment : FileImageSegment)

def spaceStart : Nat := segment.currentBase + imageSegmentHeaderSize
def spaceEnd : Nat := segment.currentBase + segment.header.size

/-- How far the segment has moved, in 64 bits. -/
def delta : Nat := (segment.currentBase + (2 ^ 64 - segment.header.baseAddress)) % 2 ^ 64

def relocatedAddress (object : Nat) : Nat := (object + segment.delta) % 2 ^ 64

/-! ### Loading -/

def number : List UInt8 → Nat
  | [] => 0
  | byte :: bytes => byte.toNat + 256 * number bytes

def readNumber (width : Nat) : Reader Nat := do
  let bytes ← Reader.byte.times width
  pure (number bytes)

def readHeader : Reader ImageSegmentHeader := do
  let signature ← Reader.byte.times 8
  let baseAddress ← readNumber 8
  let size ← readNumber 8
  let reservedSize ← readNumber 8
  let module ← readNumber 8
  pure { signature, baseAddress, size, reservedSize, module }

def readImportString : Reader (List UInt8) := do
  let stringSize ← readNumber 4
  Reader.byte.times stringSize

def readImportStrings : Reader (List (List UInt8)) := do
  let importStringsSize ← readNumber 4
  readImportString.times importStringsSize

def readImportDescriptor : Reader (List Nat) := do
  let descriptorSize ← readNumber 4
  (readNumber 4).times descriptorSize

def readImportDescriptors : Reader (List (List Nat)) := do
  let importDescriptorsSize ← readNumber 4
  readImportDescriptor.times importDescriptorsSize

def readExport : Reader (List UInt8 × Nat) := do
  let exportHeapAddress ← readNumber 8
  let exportSizeOfName ← readNumber 8
  let exportName ← Reader.byte.times exportSizeOfName
  pure (exportName, exportHeapAddress)

def readExports : Reader (List (List UInt8 × Nat)) := do
  let exportDescriptorsSize ← readNumber 4
  readExport.times exportDescriptorsSize

/-- The tables that follow the objects in the file. -/
def readTables : Reader (List (List UInt8) × List (List Nat) × List (List UInt8 × Nat)) := do
  let importStrings ← readImportStrings
  let importDescriptors ← readImportDescriptors
  let exports ← readExports
  pure (importStrings, importDescriptors, exports)

/-- Enter an export under its name, in place of an earlier one of that name. -/
def addExport (exports : List UInt8 → Option Nat) (entry : List UInt8 × Nat) :
    List UInt8 → Option Nat := fun name =>
  if name = entry.1 then some (segment.relocatedAddress entry.2) else exports name

/-- `FileImageSegment::load`, where the memory reserved for the segment is at `currentBase`. -/
def load (currentBase : Nat) (file : List UInt8) (memory : Bytes) :
    Option (FileImageSegment × Bytes) := do
  let (header, _) ← readHeader file
  if header.signature ≠ signature then none
  else if header.baseAddress % platform.pageSize ≠ 0 then none
  else if file.length < header.size then none
  else do
    let memory := memory.fill currentBase header.reservedSize 0
    let memory := memory.copy currentBase (file.take header.size)
    let ((importStrings, importDescriptors, exports), rest) ← readTables (file.drop header.size)
    let segment : FileImageSegment :=
      { header, currentBase, importStrings, importDescriptors, exports := fun _ => none }
    if rest ≠ [] then none
    else some ({ segment with exports := exports.foldl segment.addExport segment.exports }, memory)

/-! ### Relocation -/

/-- `HeapObject::behavior`, which asserts that the behavior is in its address space. -/
def setBehavior (memory : Bytes) (object behavior : Nat) : Option Bytes :=
  if behavior / 2 ^ 32 = platform.behaviorAddressSpace / 2 ^ 32 then
    some (HeapObject.behavior memory object behavior)
  else none

/-- The base address without its lower 32 bits. -/
def oldBehaviorBase : Nat := segment.header.baseAddress / 2 ^ 32 * 2 ^ 32

variable (imports : List Nat)

def fixBehavior (memory : Bytes) (current : Nat) : Option Bytes :=
  let behavior := HeapObject.basicBehavior memory current
  if behavior % 4 = 0 then
    setBehavior platform memory current
      ((segment.oldBehaviorBase + behavior + segment.delta) % 2 ^ 64)
  else if behavior % 4 = 2 then do
    let behavior ← imports[behavior / 4]?
    setBehavior platform memory current behavior
  else some memory

def fixSlot (current : Nat) (memory : Bytes) (index : Nat) : Option Bytes :=
  let slot := HeapObject.slot memory current index
  if slot % 4 = 0 then
    some (HeapObject.setSlot memory current index ((slot + segment.delta) % 2 ^ 64))
  else if slot % 4 = 2 then do
    let slot ← imports[slot / 4]?
    some (HeapObject.setSlot memory current index slot)
  else some memory

/-- One round of the loop over the objects. -/
def fixObject (memory : Bytes) (current : Nat) : Option Bytes := do
  let memory ← segment.fixBehavior platform imports memory current
  (List.range (HeapObject.pointersSize memory current)).foldlM
    (segment.fixSlot imports current) memory

def fixObjects (memory : Bytes) (current : Nat) : Option Bytes :=
  if current < segment.spaceEnd then do
    let memory ← segment.fixObject platform imports memory current
    fixObjects memory (HeapObject.nextObject memory current)
  else some memory
termination_by segment.spaceEnd - current
decreasing_by
  have above := nextObject_above memory current
  omega

def fixPointerSlots (memory : Bytes) : Option (FileImageSegment × Bytes) := do
  let memory ← segment.fixObjects platform imports memory
    (ObjectHeader.object memory segment.spaceStart)
  some ({ segment with header := { segment.header with
    module := segment.relocatedAddress segment.header.module } }, memory)

end FileImageSegment

end Egg.Memory
