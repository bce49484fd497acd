import Egg.Tracing.G1GC

/-! Allocation, which may collect first, and the primitive that allocates twice. -/
namespace Egg.Tracing

/-- What the runtime knows of the kernel, and which objects lie in loaded images, that is, outside of
the zone. -/
structure Known where
  ephemeronClass : Nat
  processStackClass : Nat
  openHashTableClass : Nat
  nil : Nat
  loaded : Nat → Bool

/-- What the heap does at an allocation: whether it collects first, the objects that are in
regions chosen for evacuation, in the region that was created last, in regions committed again
afterwards, and in the region that is current then. -/
structure Occasion where
  collects : Bool
  chosen : Nat → Bool
  last : Nat → Bool
  committed : Nat → Bool
  current : Nat → Bool

/-- The heap and the roots: the receiver, the other registers with the stack, and the references the
runtime holds. Released objects were in regions that are protected now. -/
structure Machine where
  heap : Nat → HeapObject
  next : Nat
  released : Nat → Bool
  current : Nat → Bool
  self : Reference
  context : List Reference
  gcedRefs : List Reference

namespace HeapObject

/-- Slots counted from zero. -/
def slot (object : HeapObject) (index : Nat) : Reference := object.slotAt (index + 1)

def beUnseen (object : HeapObject) : HeapObject := { object with hasBeenSeen := false }

/-- What memory that was wiped holds. -/
def wiped : HeapObject := ⟨.immediate 0, [], [], false, false⟩

/-- An object whose slots hold nil and whose header is zero. -/
def filledWith (nil size : Nat) : HeapObject :=
  ⟨.immediate 0, List.replicate size (.object nil), [], false, false⟩

end HeapObject

namespace Machine

variable (known : Known)

/-- Loaded objects and the current region stay where they are. -/
def hasToEvacuate (machine : Machine) (occasion : Occasion) (object : Nat) : Bool :=
  decide (object < machine.next) && !known.loaded object && !machine.current object &&
    occasion.chosen object

/-- The collector at the start of a collection, all marks cleared. -/
def initializeLocals (machine : Machine) : G1GC where
  heap object := (machine.heap object).beUnseen
  next := machine.next
  forwarder := fun _ => 0
  _stack := []
  _scanned := 0
  _index := 0
  _limit := 0
  _stacks := []
  _weakContainers := []
  _uncheckedEphemerons := []
  _unreachedEphemerons := []
  _rescuedEphemerons := []
  _liveEphemerons := []
  context := machine.self :: machine.context
  gcedRefs := machine.gcedRefs

/-- The evacuated regions are wiped and protected, all but the one created last, and the roots are as
the collector left them. (So are regions without any occupancy, where nothing is read any more.) -/
def releaseLocals (machine : Machine) (released : Nat → Bool) (gc : G1GC) : Machine :=
  { machine with
    heap := fun object => if released object then .wiped else gc.heap object
    next := gc.next
    released := fun object => released object || machine.released object
    self := gc.context.headD machine.self
    context := gc.context.tail
    gcedRefs := gc.gcedRefs }

/-- A collection; what it does to weak containers and rescued ephemerons at its end is left out. -/
def collectOld (fuel : Nat) (occasion : Occasion) (machine : Machine) : Option Machine :=
  let evacuated := machine.hasToEvacuate known occasion
  (machine.initializeLocals.followRoots
    ⟨known.ephemeronClass, known.processStackClass, evacuated⟩ fuel).map
    (machine.releaseLocals fun object => evacuated object && !occasion.last object)

/-- A new object in the region that is current now. -/
def bump (size : Nat) (occasion : Occasion) (machine : Machine) : Machine × Nat :=
  ({ machine with
      heap := Function.update machine.heap machine.next (.filledWith known.nil size)
      next := machine.next + 1
      released := fun object => decide (object ≠ machine.next) && machine.released object &&
        !occasion.committed object
      current := fun object => decide (object = machine.next) || occasion.current object },
    machine.next)

def allocateSlots (fuel size : Nat) (occasion : Occasion) (machine : Machine) :
    Option (Machine × Nat) :=
  (if occasion.collects then machine.collectOld known fuel occasion else some machine).map
    (bump known size occasion)

/-- Reading from a protected region ends the process. -/
def fetch (machine : Machine) (object : Nat) : Option HeapObject :=
  if machine.released object then none else some (machine.heap object)

def put (machine : Machine) (object : Nat) (changed : HeapObject) : Machine :=
  { machine with heap := Function.update machine.heap object changed }

def store (machine : Machine) (object : Nat) (changed : HeapObject) : Option Machine :=
  if machine.released object then none else some (machine.put object changed)

def slotPut (machine : Machine) (object index : Nat) (value : Reference) : Option Machine :=
  (machine.fetch object).bind fun read => machine.store object (read.slotAtPut (index + 1) value)

def behaviorPut (machine : Machine) (object : Nat) (behavior : Reference) : Option Machine :=
  (machine.fetch object).bind fun read => machine.store object { read with behavior := behavior }

/-- The low bits of the format, a small integer. -/
def speciesInstanceSize_ (machine : Machine) (species : Nat) : Option Nat :=
  (machine.fetch species).bind fun read => match read.slot 2 with
    | .immediate format => some (format % 128).toNat
    | .object _ => none

def speciesInstanceBehavior_ (machine : Machine) (species : Nat) : Option Reference :=
  (machine.fetch species).map fun read => read.slot 1

/-- The behavior is pushed while the object is allocated. -/
def newSlots_size_ (fuel : Nat) (occasion : Occasion) (machine : Machine) (species size : Nat) :
    Option (Machine × Nat) := do
  let ivars ← machine.speciesInstanceSize_ species
  let behavior ← machine.speciesInstanceBehavior_ species
  let pushed := { machine with context := behavior :: machine.context }
  let (allocated, result) ← pushed.allocateSlots known fuel (ivars + size) occasion
  let gcedBehavior := allocated.context.headD (.immediate 0)
  let done ← allocated.behaviorPut result gcedBehavior
  return ({ done with context := done.context.tail }, result)

def newSlotsOf_ (fuel : Nat) (occasion : Occasion) (machine : Machine) (species : Nat) :
    Option (Machine × Nat) :=
  machine.newSlots_size_ known fuel occasion species 0

def primitiveDictionaryNew (fuel : Nat) (first second : Occasion) (machine : Machine) :
    Option (Machine × Nat) :=
  match machine.self with
  | .immediate _ => none
  | .object species => do
    let (withTable, table) ←
      machine.newSlots_size_ known fuel first known.openHashTableClass 7
    let (withInstance, instance_) ← withTable.newSlotsOf_ known fuel second species
    let tallied ← withInstance.slotPut instance_ 0 (.immediate 0)
    let filled ← tallied.slotPut instance_ 1 (.object table)
    let linked ← filled.slotPut table 0 (.object instance_)
    return (linked, instance_)

end Machine

end Egg.Tracing
