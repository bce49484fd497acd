import Mathlib.Logic.Function.Basic
import Egg.Data.Fuel

/-! The tracing collector: objects are marked, and copied out of evacuated regions, when they are
first reached; ephemerons wait until their keys are. -/
namespace Egg.Tracing

open Egg.Data (loop)

/-- A pointer word: a small integer or a null, or the address of an object. -/
inductive Reference where
  | immediate (value : Int)
  | object (address : Nat)
  deriving DecidableEq

/-- An object as the tracer sees it; bytes have no slots. The frames are the words of a suspended
process' native stack, which lies in a buffer of its own. -/
structure HeapObject where
  behavior : Reference
  slots : List Reference
  frames : List Reference
  isSpecial : Bool
  hasBeenSeen : Bool
  deriving DecidableEq

namespace HeapObject

def size (object : HeapObject) : Nat := object.slots.length

def strongPointersSize (object : HeapObject) : Nat :=
  if object.isSpecial then 0 else object.size

/-- Slots are counted from one. -/
def slotAt (object : HeapObject) (index : Nat) : Reference :=
  object.slots.getD (index - 1) (.immediate 0)

def slotAtPut (object : HeapObject) (index : Nat) (value : Reference) : HeapObject :=
  { object with slots := object.slots.set (index - 1) value }

def beSeen (object : HeapObject) : HeapObject := { object with hasBeenSeen := true }

end HeapObject

/-- The classes of special objects, and the objects in regions that are evacuated. -/
structure Runtime where
  ephemeronClass : Nat
  processStackClass : Nat
  evacuated : Nat → Bool

/-- The objects at their addresses. Copies go to the addresses from `next` on, and the originals
are forwarded to them. -/
structure Objects where
  heap : Nat → HeapObject
  next : Nat
  forwarder : Nat → Nat

/-- The collector. Vectors have their last element first; the entries of the stack are an object
and the indices left to scan in it. `_liveEphemerons` only records what `checkEphemerons` finds
live. -/
structure G1GC extends Objects where
  _stack : List (Nat × Nat × Nat)
  _scanned : Nat
  _index : Nat
  _limit : Nat
  _stacks : List Nat
  _weakContainers : List Nat
  _uncheckedEphemerons : List Nat
  _unreachedEphemerons : List Nat
  _rescuedEphemerons : List Nat
  _liveEphemerons : List Nat
  context : List Reference
  gcedRefs : List Reference

namespace Objects

def atPut (objects : Objects) (address : Nat) (object : HeapObject) : Objects :=
  { objects with heap := Function.update objects.heap address object }

/-- Copy an object and leave a forwarder to the copy. -/
def evacuate (objects : Objects) (object : Nat) : Objects :=
  { objects.atPut objects.next (objects.heap object) with
    forwarder := Function.update objects.forwarder object objects.next
    next := objects.next + 1 }

end Objects

namespace G1GC

def atPut (gc : G1GC) (address : Nat) (object : HeapObject) : G1GC :=
  { gc with toObjects := gc.toObjects.atPut address object }

def scan_from_to (gc : G1GC) (object start limit : Nat) : G1GC :=
  { gc with _stack := (object, start, limit) :: gc._stack }

def queueCurrent (gc : G1GC) : G1GC :=
  gc.scan_from_to gc._scanned (gc._index + 1) gc._limit

def copyOf (gc : G1GC) (object : Nat) : Nat := gc.forwarder object

def evacuate (gc : G1GC) (object : Nat) : G1GC × Nat :=
  ({ gc with toObjects := gc.toObjects.evacuate object }, gc.next)

/-- The class in the first slot of the behavior. -/
def speciesOf (gc : G1GC) (object : Nat) : Reference :=
  match (gc.heap object).behavior with
  | .object behavior => (gc.heap behavior).slotAt 1
  | .immediate value => .immediate value

variable (runtime : Runtime)

def rememberSpecial (gc : G1GC) (object : Nat) : G1GC :=
  if gc.speciesOf object = .object runtime.ephemeronClass then
    { gc with _uncheckedEphemerons := object :: gc._uncheckedEphemerons }
  else if gc.speciesOf object = .object runtime.processStackClass then
    { gc with _stacks := object :: gc._stacks }
  else { gc with _weakContainers := object :: gc._weakContainers }

/-- The current address of an object, which is marked and copied when it is first reached. -/
def resolveObject (gc : G1GC) (object : Nat) : G1GC × Nat :=
  let evacuate := runtime.evacuated object
  if (gc.heap object).hasBeenSeen then (gc, if evacuate then gc.copyOf object else object)
  else
    let seen := gc.atPut object (gc.heap object).beSeen
    let (moved, current) := if evacuate then seen.evacuate object else (seen, object)
    if (moved.heap current).isSpecial then (moved.rememberSpecial runtime current, current)
    else (moved, current)

/-- Go on inside an object that has just been reached. -/
def scanInside (gc : G1GC) (object : Nat) : G1GC :=
  let queued := if gc._index < gc._limit then gc.queueCurrent else gc
  { queued with
    _index := 0
    _limit := (gc.heap object).strongPointersSize
    _scanned := object }

def scanNext (gc : G1GC) : G1GC := { gc with _index := gc._index + 1 }

def scanBehavior (gc : G1GC) : G1GC :=
  match (gc.heap gc._scanned).behavior with
  | .immediate _ => gc.scanNext
  | .object behavior =>
    let wasSeen := (gc.heap behavior).hasBeenSeen
    let (resolved, current) := gc.resolveObject runtime behavior
    let stored := resolved.atPut gc._scanned
      { resolved.heap gc._scanned with behavior := .object current }
    if wasSeen then stored.scanNext else stored.scanInside current

def scanSlot (gc : G1GC) : G1GC :=
  match (gc.heap gc._scanned).slotAt gc._index with
  | .immediate _ => gc.scanNext
  | .object slot =>
    let wasSeen := (gc.heap slot).hasBeenSeen
    let (resolved, current) := gc.resolveObject runtime slot
    let stored := resolved.atPut gc._scanned
      ((resolved.heap gc._scanned).slotAtPut gc._index (.object current))
    if wasSeen then stored.scanNext else stored.scanInside current

def scanRoot (gc : G1GC) : Reference → G1GC × Reference
  | .immediate value => (gc, .immediate value)
  | .object slot =>
    let wasSeen := (gc.heap slot).hasBeenSeen
    let (resolved, current) := gc.resolveObject runtime slot
    if wasSeen then (resolved, .object current)
    else (resolved.scan_from_to current 0 (resolved.heap current).strongPointersSize,
      .object current)

def scanRoots (gc : G1GC) : List Reference → G1GC × List Reference
  | [] => (gc, [])
  | root :: roots =>
    let (scanned, updated) := gc.scanRoot runtime root
    let (done, others) := scanned.scanRoots roots
    (done, updated :: others)

/-- R, S, E, M and the words of the frames of the running context. -/
def scanCurrentContext (gc : G1GC) : G1GC :=
  let (scanned, context) := gc.scanRoots runtime gc.context
  { scanned with context := context }

def followGCedRefs (gc : G1GC) : G1GC :=
  let (scanned, gcedRefs) := gc.scanRoots runtime gc.gcedRefs
  { scanned with gcedRefs := gcedRefs }

def scanSpecialSlots (gc : G1GC) (special : Nat) : G1GC :=
  gc.scan_from_to special 1 (gc.heap special).size

/-- Update the frames in the buffer of a suspended process. -/
def scanStack (gc : G1GC) (processVMStack : Nat) : G1GC :=
  let (scanned, frames) := gc.scanRoots runtime (gc.heap processVMStack).frames
  scanned.atPut processVMStack { scanned.heap processVMStack with frames := frames }

/-- Take the next entry into the registers. -/
def popEntry (gc : G1GC) : G1GC :=
  match gc._stack with
  | [] => gc
  | (object, index, limit) :: rest =>
    { gc with _stack := rest, _scanned := object, _index := index, _limit := limit }

def scanIndex (gc : G1GC) : G1GC :=
  if gc._index = 0 then gc.scanBehavior runtime else gc.scanSlot runtime

def followObjects (fuel : Nat) (gc : G1GC) : Option G1GC :=
  loop (fun gc => gc._stack.isEmpty)
    (fun fuel gc => loop (fun gc => gc._limit < gc._index)
      (fun _ gc => some (gc.scanIndex runtime)) fuel gc.popEntry) fuel gc

def scanStacks (fuel : Nat) (gc : G1GC) : Option G1GC :=
  loop (fun gc => gc._stacks.isEmpty)
    (fun _ gc => match gc._stacks with
      | [] => some gc
      | stack :: rest =>
        some ((({ gc with _stacks := rest }).scanSpecialSlots stack).scanStack runtime stack))
    fuel gc

def followClosure (fuel : Nat) (gc : G1GC) : Option G1GC :=
  loop (fun gc => gc._stack.isEmpty && gc._stacks.isEmpty)
    (fun fuel gc => (gc.followObjects runtime fuel).bind (scanStacks runtime fuel))
    fuel (gc.followGCedRefs runtime)

def followEphemeronWeaks (fuel : Nat) (gc : G1GC) (ephemeron : Nat) : Option G1GC :=
  (gc.scan_from_to ephemeron 1 (gc.heap ephemeron).size).followClosure runtime fuel

def checkReachableProperty (gc : G1GC) (ephemeron : Nat) : Bool :=
  match (gc.heap ephemeron).slotAt 1 with
  | .immediate _ => true
  | .object key => (gc.heap key).hasBeenSeen

/-- One round of the loop of `checkEphemerons`. -/
def checkLast (fuel : Nat) (gc : G1GC) (done : Bool) : Option (Bool × G1GC) :=
  match gc._uncheckedEphemerons with
  | [] => some (done, gc)
  | ephemeron :: rest =>
    let popped := { gc with _uncheckedEphemerons := rest }
    if popped.checkReachableProperty ephemeron then
      let live := { popped with _liveEphemerons := ephemeron :: popped._liveEphemerons }
      (live.followEphemeronWeaks runtime fuel ephemeron).map fun followed => (false, followed)
    else some (done,
      { popped with _unreachedEphemerons := ephemeron :: popped._unreachedEphemerons })

def checkEphemerons (fuel : Nat) (gc : G1GC) : Option (Bool × G1GC) :=
  loop (fun state => state.2._uncheckedEphemerons.isEmpty)
    (fun fuel (done, gc) => gc.checkLast runtime fuel done) fuel (true, gc)

def swapUncheckedWithUnreached (gc : G1GC) : G1GC :=
  { gc with
    _uncheckedEphemerons := gc._unreachedEphemerons
    _unreachedEphemerons := gc._uncheckedEphemerons }

def followLiveEphemerons (fuel : Nat) (gc : G1GC) : Option G1GC :=
  (loop Prod.fst
    (fun fuel state => (state.2.checkEphemerons runtime fuel).map fun (done, checked) =>
      if done then (true, checked) else (false, checked.swapUncheckedWithUnreached))
    fuel (false, gc)).map Prod.snd

def rescueEphemeron (fuel : Nat) (gc : G1GC) (ephemeron : Nat) : Option G1GC :=
  (gc.followEphemeronWeaks runtime fuel ephemeron).map fun followed =>
    { followed with _rescuedEphemerons := ephemeron :: followed._rescuedEphemerons }

def rescueUnreachableEphemerons (fuel : Nat) (gc : G1GC) : Option (Bool × G1GC) :=
  let done := gc._unreachedEphemerons.isEmpty
  (gc._unreachedEphemerons.reverse.foldlM (rescueEphemeron runtime fuel) gc).map fun rescued =>
    (done, { rescued with _unreachedEphemerons := [] })

def followEphemerons (fuel : Nat) (gc : G1GC) : Option G1GC :=
  (loop Prod.fst
    (fun fuel state => (state.2.followLiveEphemerons runtime fuel).bind
      (rescueUnreachableEphemerons runtime fuel)) fuel (false, gc)).map Prod.snd

def followRoots (fuel : Nat) (gc : G1GC) : Option G1GC :=
  ((gc.scanCurrentContext runtime).followClosure runtime fuel).bind (followEphemerons runtime fuel)

end G1GC

end Egg.Tracing
