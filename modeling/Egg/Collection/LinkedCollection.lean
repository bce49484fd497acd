import Mathlib.Data.List.Basic

/-! Collections of links, each of them twice as long as the one before. -/
namespace Egg.Collection

/-- Links with their slots, of which the first ones are taken; `next` is nil in the last one. -/
inductive LinkedCollection (α : Type) where
  | last (slots : List (Option α)) (localSize : Nat)
  | link (slots : List (Option α)) (localSize : Nat) (next : LinkedCollection α)

/-- What a message answers; objects may be nil. -/
inductive Answer (α : Type) where
  | done
  | object (anObject : Option α)
  | outOfBoundsIndex (anInteger : Int)
  | size (anInteger : Nat)
  | elements (anArray : List (Option α))
deriving DecidableEq

namespace LinkedCollection

variable {α : Type}

/-- `new:`. -/
def ofSize (anInteger : Nat) : LinkedCollection α := .last (List.replicate anInteger none) 0

/-- A link that is full gets a next one; one without slots would go on getting them. -/
def add (anObject : Option α) : Nat → LinkedCollection α → Option (LinkedCollection α)
  | 0, _ => none
  | fuel + 1, .last slots localSize =>
    if localSize = slots.length then do
      let next ← add anObject fuel (ofSize (slots.length * 2))
      some (.link slots localSize next)
    else some (.last (slots.set localSize anObject) (localSize + 1))
  | fuel + 1, .link slots localSize next => do
    let next ← add anObject fuel next
    some (.link slots localSize next)

/-- `at:`, which looks at all slots of a link, taken or not. -/
def «at» : LinkedCollection α → Int → Answer α
  | .last slots _, anInteger =>
    if 0 < anInteger ∧ anInteger ≤ slots.length then
      .object (slots[(anInteger - 1).toNat]?.getD none)
    else .outOfBoundsIndex anInteger
  | .link slots localSize next, anInteger =>
    if 0 < anInteger ∧ anInteger ≤ slots.length then
      .object (slots[(anInteger - 1).toNat]?.getD none)
    else next.at (anInteger - localSize)

/-- `at:put:`, which looks at the slots that are taken; the error names the index in the last link. -/
def atPut (anObject : Option α) : LinkedCollection α → Int → Except Int (LinkedCollection α)
  | .last slots localSize, anInteger =>
    if 0 < anInteger ∧ anInteger ≤ localSize then
      .ok (.last (slots.set (anInteger - 1).toNat anObject) localSize)
    else .error anInteger
  | .link slots localSize next, anInteger =>
    if 0 < anInteger ∧ anInteger ≤ localSize then
      .ok (.link (slots.set (anInteger - 1).toNat anObject) localSize next)
    else (next.atPut anObject (anInteger - localSize)).map (.link slots localSize)

def size : LinkedCollection α → Nat
  | .last _ localSize => localSize
  | .link _ localSize next => localSize + next.size

/-- The objects that `do:` evaluates its block with. -/
def elements : LinkedCollection α → List (Option α)
  | .last slots localSize => slots.take localSize
  | .link slots localSize next => slots.take localSize ++ next.elements

/-- All slots, taken or not. -/
def capacity : LinkedCollection α → Nat
  | .last slots _ => slots.length
  | .link slots _ next => slots.length + next.capacity

end LinkedCollection

inductive Message (α : Type) where
  | add (anObject : Option α)
  | at (anInteger : Int)
  | atPut (anInteger : Int) (anObject : Option α)
  | size
  | «do»

/-- What a message answers, and the collection behind it. -/
def LinkedCollection.perform {α : Type} (fuel : Nat) (self : LinkedCollection α) :
    Message α → Option (Answer α × LinkedCollection α)
  | .add anObject => (self.add anObject fuel).map (.done, ·)
  | .at anInteger => some (self.at anInteger, self)
  | .atPut anInteger anObject =>
    match self.atPut anObject anInteger with
    | .ok after => some (.done, after)
    | .error index => some (.outOfBoundsIndex index, self)
  | .size => some (.size self.size, self)
  | .do => some (.elements self.elements, self)

def LinkedCollection.run {α : Type} (fuel : Nat) (self : LinkedCollection α) :
    List (Message α) → Option (List (Answer α) × LinkedCollection α)
  | [] => some ([], self)
  | message :: messages => do
    let (answer, after) ← self.perform fuel message
    let (answers, final) ← after.run fuel messages
    some (answer :: answers, final)

end Egg.Collection
