import Egg.Memory.HeapObject

/-! The heap: spaces that objects are allocated in one after the other, the zone that old spaces
are taken from, and the allocation of slots and bytes. -/
namespace Egg.Memory

open Egg.Data HeapObject

def mb : Nat := 1024 * 1024

/-- What the heap asks of the operating system: its pages, and whether pages that the heap has not
mapped itself are free. -/
structure System where
  pageSize : Nat
  positive : 0 < pageSize
  available : Nat → Nat → Bool
  behaviorAddressSpace : Nat
  /-- The end of the addresses that are tried, `Egg::limit`. -/
  limit : Nat
  /-- The address of `nil`. -/
  nil : Nat

namespace System

variable (system : System)

def pagealign (address : Nat) : Nat :=
  (address + (system.pageSize - 1)) / system.pageSize * system.pageSize

/-- Whether `mmap` maps the pages: not over another mapping, nor beyond the addresses there are. -/
def mappable (mappings : List (Nat × Nat)) (base size : Nat) : Bool :=
  system.available base size && decide (0 < base ∧ base + size ≤ 2 ^ 47) &&
    mappings.all fun mapping => decide (base + size ≤ mapping.1 ∨ mapping.2 ≤ base)

end System

structure GCSpace where
  base : Nat
  next : Nat
  softLimit : Nat
  committedLimit : Nat
  reservedLimit : Nat

structure AllocationZone where
  nextFree : Nat
  limit : Nat
  /-- Positions of the zone's current and next space among the heap's. -/
  current : Nat
  next : Nat
  emptySpaces : List Nat

/-- 256 kb spaces. -/
def spaceSize : Nat := 1 <<< 18

structure GCHeap where
  memory : Bytes
  spaces : List GCSpace
  oldZone : AllocationZone
  countdown : Int
  gcNeeded : Bool
  atGCSafepoint : Bool
  atGCUnsafepoint : Bool
  /-- `Egg::nextFree` and the memory reserved so far. -/
  nextFree : Nat
  mappings : List (Nat × Nat)

/-- Why an allocation answers no object: there is no memory, or objects are to be moved first. -/
inductive Stop where
  | outOfMemory
  | collecting

namespace GCSpace

variable (space : GCSpace)

def reservedSize : Nat := space.reservedLimit - space.base

/-- An empty space of reserved memory. -/
def allocatedAt (base limit : Nat) : GCSpace := ⟨base, base, base, base, limit⟩

def commitMemoryUpTo (system : System) (memory : Bytes) (address : Nat) :
    Option (GCSpace × Bytes) :=
  let newLimit := min (system.pagealign address) space.reservedLimit
  if newLimit < address then none
  else some ({ space with committedLimit := newLimit },
    memory.fill space.committedLimit (newLimit - space.committedLimit) 0)

def allocateIfPossible (size : Nat) : Option (Nat × GCSpace) :=
  if space.next + size < space.softLimit then
    some (space.next, { space with next := space.next + size })
  else none

def allocateCommittingIfNeeded (system : System) (memory : Bytes) (size : Nat) :
    Option (Nat × GCSpace × Bytes) :=
  if space.next + size ≤ space.softLimit then
    some (space.next, { space with next := space.next + size }, memory)
  else do
    let (committed, memory) ← space.commitMemoryUpTo system memory (space.next + size)
    some (space.next, { committed with
      softLimit := committed.committedLimit, next := space.next + size }, memory)

/-- The objects that a block is applied to from a header on. -/
def objectsDo (memory : Bytes) (next header : Nat) : List Nat :=
  if header < next then
    let object := ObjectHeader.object memory header
    object :: objectsDo memory next (nextHeader memory object)
  else []
termination_by next - header
decreasing_by
  have above := object_above memory header
  have further : ObjectHeader.object memory header ≤
      nextHeader memory (ObjectHeader.object memory header) := Nat.le_add_right ..
  omega

/-- The objects of a space, from its base. -/
def objects (memory : Bytes) : List Nat := objectsDo memory space.next space.base

end GCSpace

namespace GCHeap

variable (heap : GCHeap) (system : System)

/-! ### Reserving memory -/

/-- Try one address after the other until the pages can be mapped. -/
def reserveFrom (size base : Nat) : Option (Nat × GCHeap) :=
  if system.mappable heap.mappings base (system.pagealign size) then
    some (base, { heap with
      nextFree := system.pagealign (base + size)
      mappings := (base, base + system.pagealign size) :: heap.mappings })
  else if system.limit ≤ base + 0x10000 then none
  else reserveFrom size (base + 0x10000)
termination_by system.limit - base

/-- `ReserveMemory`; without a base that can be used, from where the last reservation ended. -/
def reserveMemory (base size : Nat) : Option (Nat × GCHeap) :=
  heap.reserveFrom system size
    (if base = 0 ∨ base < system.behaviorAddressSpace ∨ system.limit < base then heap.nextFree
      else base)

/-- An `int` passed as an address: negative ones have all their upper bits set. -/
def signExtended (size : Nat) : Nat := if size < 2 ^ 31 then size else 2 ^ 64 - 2 ^ 32 + size

def addNewSpaceSized (size : Nat) : Option GCHeap := do
  let (base, heap) ← heap.reserveMemory system 0 (signExtended size)
  some { heap with spaces := heap.spaces ++ [.allocatedAt base (base + signExtended size)] }

/-! ### The zone of old spaces -/

def createEmptySpace : Option GCHeap :=
  if heap.oldZone.nextFree = heap.oldZone.limit then none
  else
    let start := heap.oldZone.nextFree
    some { heap with
      spaces := heap.spaces ++ [.allocatedAt start (start + spaceSize)]
      oldZone := { heap.oldZone with
        -- The second half of what is taken is for forwarders.
        nextFree := start + spaceSize + spaceSize
        emptySpaces := heap.oldZone.emptySpaces ++ [heap.spaces.length] } }

/-- Commit the whole of a space, as far as it can be. -/
def commitSpace (index : Nat) : Option GCHeap := do
  let space ← heap.spaces[index]?
  let (committed, memory) := (space.commitMemoryUpTo system heap.memory
    (space.committedLimit + space.reservedSize)).getD (space, heap.memory)
  some { heap with
    memory := memory
    spaces := heap.spaces.set index { committed with softLimit := committed.committedLimit } }

/-- The next space becomes the current one. -/
def advance : GCHeap :=
  { heap with oldZone := { heap.oldZone with current := heap.oldZone.next } }

/-- The last of the empty spaces becomes the next one. -/
def popEmptySpace (index : Nat) : GCHeap :=
  { heap with oldZone := { heap.oldZone with
    next := index
    emptySpaces := heap.oldZone.emptySpaces.dropLast } }

def bumpSpace : Option GCHeap := do
  let heap := heap.advance
  let heap ← (if heap.oldZone.emptySpaces.isEmpty then heap.createEmptySpace else some heap)
  let index ← heap.oldZone.emptySpaces.getLast?
  (heap.popEmptySpace index).commitSpace system index

def allocateIfPossibleCurrent (size : Nat) : Option (Nat × GCHeap) := do
  let space ← heap.spaces[heap.oldZone.current]?
  let (address, space) ← space.allocateIfPossible size
  some (address, { heap with spaces := heap.spaces.set heap.oldZone.current space })

def allocateIfPossibleBumping (size : Nat) : Option (Nat × GCHeap) :=
  match heap.allocateIfPossibleCurrent size with
  | some result => some result
  | none => do
    let heap ← heap.bumpSpace system
    heap.allocateIfPossibleCurrent size

/-! ### Allocation -/

def isGCAllowed : Bool := heap.atGCSafepoint && !heap.atGCUnsafepoint
def requestGC : GCHeap := { heap with gcNeeded := true }
def requestUnlessAllowed : GCHeap := if heap.isGCAllowed then heap else heap.requestGC
def hasReachedCountdown : Bool := decide (heap.countdown ≤ 0)
def tenured (size : Nat) : GCHeap := { heap with countdown := heap.countdown - size }

def largeThreshold : Nat := 64 * 1024

/-- Allocate in a space of its own; the answer names the space. -/
def allocateLarge (size : Nat) : Option (Nat × Nat × GCHeap) := do
  let heap ← heap.addNewSpaceSized system size
  let index := heap.spaces.length - 1
  let space ← heap.spaces[index]?
  let (address, space, memory) ← space.allocateCommittingIfNeeded system heap.memory size
  some (index, address, { heap with memory, spaces := heap.spaces.set index space })

/-- Allocate so many bytes; the size is a 32-bit number. The answer names the space and the
address. -/
def allocate (size : Nat) : Except Stop (Nat × Nat × GCHeap) :=
  match heap.allocateIfPossibleCurrent size with
  | some (address, heap) => .ok (heap.oldZone.current, address, heap.tenured size)
  | none =>
    if largeThreshold < size then
      match heap.allocateLarge system size with
      | some result => .ok result
      | none => .error .outOfMemory
    else if heap.isGCAllowed && (heap.gcNeeded || heap.hasReachedCountdown) then
      .error .collecting
    else
      match (heap.requestUnlessAllowed.tenured size).allocateIfPossibleBumping system size with
      | some (address, heap) => .ok (heap.oldZone.current, address, heap)
      | none => .error .outOfMemory

/-- The constructor: eden, the zone, and the zone's first two spaces. Until the first bump the zone
has no current space. -/
def new (nextFree : Nat) : Option GCHeap := do
  let heap : GCHeap := {
    memory := fun _ => 0
    spaces := []
    oldZone := ⟨0, 0, 0, 0, []⟩
    countdown := mb
    gcNeeded := false
    atGCSafepoint := false
    atGCUnsafepoint := false
    nextFree := nextFree
    mappings := [] }
  let heap ← heap.addNewSpaceSized system (16 * mb)
  let (address, heap) ← heap.reserveMemory system 0x100000000 (128 * mb)
  let heap := { heap with oldZone := ⟨address, address + 128 * mb, 0, 0, []⟩ }
  let heap ← heap.bumpSpace system
  heap.bumpSpace system

/-- What an allocation gives: a space's bytes, and the object in them. -/
structure Allocation where
  space : Nat
  buffer : Nat
  granted : Nat
  object : Nat

def headerSize (size : Nat) : Nat := if size ≤ maxSmallSize then 8 else 16

/-- The size, in a small or large header whose bytes are zero. -/
def writeSize (memory : Bytes) (object size : Nat) : Bytes :=
  if size ≤ maxSmallSize then setSmallSize (beSmall memory object) object size
  else setLargeSize (beLarge memory object) object size

/-- Every slot refers to `nil`. -/
def fillSlots (memory : Bytes) (object size nil : Nat) : Bytes := fun place =>
  if object ≤ place ∧ place < object + size * wordSize then
    UInt8.ofNat (nil / 256 ^ ((place - object) % wordSize))
  else memory place

def slotsTotalSize (size : Nat) : Nat := headerSize size + size * wordSize

/-- The number of bytes is passed to `allocate` as a 32-bit number. -/
def allocateSlots (size : Nat) : Except Stop (Allocation × GCHeap) := do
  let granted := slotsTotalSize size % 2 ^ 32
  let (space, buffer, heap) ← heap.allocate system granted
  let object := buffer + headerSize size
  let memory := heap.memory.fill buffer (headerSize size) 0
  let memory := writeSize memory object size
  let memory := fillSlots memory object size system.nil
  pure (⟨space, buffer, granted, object⟩, { heap with memory })

def bytesTotalSize (size : Nat) : Nat :=
  headerSize size + (size + (wordSize - 1)) / wordSize * wordSize

def allocateBytes (size : Nat) : Except Stop (Allocation × GCHeap) := do
  let granted := bytesTotalSize size % 2 ^ 32
  let (space, buffer, heap) ← heap.allocate system granted
  let object := buffer + headerSize size
  let memory := heap.memory.fill buffer (bytesTotalSize size) 0
  let memory := writeSize memory object size
  let memory := beArrayed (beBytes memory object) object
  pure (⟨space, buffer, granted, object⟩, { heap with memory })

/-- What is asked of the heap. -/
inductive Request where
  | slots (size : Nat)
  | bytes (size : Nat)

def Request.size : Request → Nat
  | slots size => size
  | bytes size => size

def Request.isBytes : Request → Bool
  | slots _ => false
  | bytes _ => true

def Request.totalSize : Request → Nat
  | slots size => slotsTotalSize size
  | bytes size => bytesTotalSize size

def allocateRequest : Request → Except Stop (Allocation × GCHeap)
  | .slots size => heap.allocateSlots system size
  | .bytes size => heap.allocateBytes system size

/-- One allocation after the other. -/
def allocateAll (heap : GCHeap) : List Request → Except Stop (List Allocation × GCHeap)
  | [] => pure ([], heap)
  | request :: requests => do
    let (allocation, heap) ← heap.allocateRequest system request
    let (allocations, heap) ← heap.allocateAll requests
    pure (allocation :: allocations, heap)

end GCHeap

end Egg.Memory
