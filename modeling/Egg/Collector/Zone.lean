import Egg.Memory.Heap

/-! The zone of the old heap as the collector sees it: its regions one after the other, each with as
much memory behind it for forwarders, and what was found to be occupied in each. -/
namespace Egg.Collector

open Egg.Data Egg.Memory

def isRememberedFlag : UInt8 := 0x08
def isSpecialFlag : UInt8 := 0x10
def hasBeenSeenFlag : UInt8 := 0x20

def hasBeenSeen (memory : Bytes) (object : Nat) : Bool :=
  HeapObject.testFlags memory object hasBeenSeenFlag

def isRemembered (memory : Bytes) (object : Nat) : Bool :=
  HeapObject.testFlags memory object isRememberedFlag

def headerSizeInBytes (memory : Bytes) (object : Nat) : Nat :=
  if HeapObject.isSmall memory object then 8 else 16

def totalSizeInBytes (memory : Bytes) (object : Nat) : Nat :=
  headerSizeInBytes memory object + HeapObject.bodySizeInBytes memory object

/-- A heap with its zone: the zone's first address, the positions of its spaces among the heap's,
and the bytes that were found to be occupied in each of the regions that there can be. -/
structure Zone where
  heap : GCHeap
  base : Nat
  regions : List Nat
  occupancy : List Nat

/-- The distance from an object to its forwarder, the size of a region. -/
def forwarderOffset : Nat := spaceSize

def forwarder (object : Nat) : Nat := object + forwarderOffset

def copyOf (memory : Bytes) (object : Nat) : Nat := memory.load (forwarder object) 8

def storeForwarder (memory : Bytes) (object copy : Nat) : Bytes :=
  memory.store (forwarder object) 8 copy

namespace Zone

variable (zone : Zone)

def limit : Nat := zone.heap.oldZone.limit

def spaces : List GCSpace := zone.regions.filterMap fun position => zone.heap.spaces[position]?

/-- The one-based index of the region that an address is in; half of the space are forwarders. -/
def indexOfPointer (address : Nat) : Nat := (address - zone.base) / spaceSize / 2 + 1

def regionIndexOf (object : Nat) : Int :=
  if object < zone.base then -1
  else if zone.limit ≤ object then -1
  else zone.indexOfPointer object

def regionCount : Nat := zone.indexOfPointer (zone.heap.oldZone.nextFree - 1)

def hasToEvacuate (evacuated : List Bool) (object : Nat) : Bool :=
  let index := zone.regionIndexOf object
  decide (0 < index) && evacuated.getD (index.toNat - 1) false

def committedBytes : Nat := (zone.spaces.map fun space => space.committedLimit - space.base).sum

/-- Half of each reserved area is held for evacuation and not directly usable. -/
def usableBytes : Nat := (zone.limit - zone.base) / 2

def availableBytes : Nat := zone.usableBytes - zone.committedBytes

def markAsFull (position : Nat) : Zone :=
  match zone.heap.spaces[position]? with
  | some space =>
    { zone with occupancy := zone.occupancy.set (zone.indexOfPointer space.base - 1) spaceSize }
  | none => zone

def resetOccupancy : Zone :=
  let zone := { zone with occupancy := zone.occupancy.map fun _ => 0 }
  (zone.markAsFull zone.heap.oldZone.current).markAsFull zone.heap.oldZone.next

def updateRegionOccupancy (object : Nat) : Zone :=
  let index := zone.regionIndexOf object
  let bytes := HeapObject.bodySizeInBytes zone.heap.memory object
  if index < 0 then zone
  else { zone with occupancy := zone.occupancy.modify (index.toNat - 1) fun sum => sum + bytes }

/-- The empty space that is taken next is one of the zone's regions, too, and counts as full. -/
def bumpSpace (system : System) : Option Zone := do
  let heap ← zone.heap.bumpSpace system
  let regions := if zone.heap.oldZone.emptySpaces.isEmpty then
      zone.regions ++ [zone.heap.spaces.length]
    else zone.regions
  let zone := { zone with heap, regions }
  some (zone.markAsFull heap.oldZone.next)

/-! ### Choosing the regions to evacuate -/

/-- `uintptr_t(_forwarderOffset * 0.8)`. -/
def threshold : Nat := spaceSize * 8 / 10

/-- What is left of the room for copies, and the regions chosen so far. -/
structure Choice where
  headroom : Nat
  evacuated : List Bool
  memory : Bytes

def consider (choice : Choice) (region : Nat) : Choice :=
  match zone.regions[region]? with
  | none => choice
  | some position =>
    match zone.heap.spaces[position]? with
    | none => choice
    | some space =>
      let occupied := zone.occupancy.getD region 0
      let used := space.next - space.base
      let size := space.reservedSize
      if 0 < occupied ∧ occupied < threshold ∧ position ≠ zone.heap.oldZone.current ∧
          choice.headroom > used then
        { headroom := choice.headroom - used
          evacuated := choice.evacuated.set region true
          memory := choice.memory.fill (space.base + size) size 0 }
      else choice

def chosen : Choice :=
  (List.range zone.regionCount).foldl zone.consider
    ⟨zone.availableBytes * 9 / 10, zone.occupancy.map fun _ => false, zone.heap.memory⟩

/-- The regions that are to be evacuated, and the zone with memory for their forwarders. -/
def determineEvacuatedSpaces : List Bool × Zone :=
  let choice := zone.chosen
  (choice.evacuated, resetOccupancy { zone with heap := { zone.heap with memory := choice.memory } })

end Zone

end Egg.Collector
