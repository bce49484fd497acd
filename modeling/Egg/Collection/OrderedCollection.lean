import Egg.Collection.SequenceableCollection

/-! Ordered collections: a window of an array, with room on both sides. -/
namespace Egg.Collection

open Egg.Data

variable {α : Type}

/-- The elements are the slots from `start` to `stop`. -/
structure OrderedCollection (α : Type) where
  start : Int
  stop : Int
  contents : Contents α
deriving DecidableEq, Repr

/-- What is added to a collection: other elements, or those of the receiver itself. -/
inductive Argument (α : Type) where
  | receiver
  | other (elements : List (Option α))
deriving DecidableEq, Repr

namespace OrderedCollection

/-- `new:` -/
def new (anInteger : Nat) : OrderedCollection α where
  start := 1
  stop := 0
  contents := List.replicate anInteger none

def collectionSize (self : OrderedCollection α) : Int :=
  self.stop - self.start + 1

/-- The elements from the first to the last. -/
def elements (self : OrderedCollection α) : List (Option α) :=
  (self.contents.drop (self.start - 1).toNat).take self.collectionSize.toNat

/-- An effect on the contents, with the collection around them. -/
def lift (self : OrderedCollection α) : Effect (Contents α) → Effect (OrderedCollection α)
  | .ok contents => .ok { self with contents := contents }
  | .error contents => .error { self with contents := contents }

def «at» (self : OrderedCollection α) (anInteger : Int) : Option (Option α) :=
  let index := anInteger + self.start - 1
  if self.start ≤ index ∧ index ≤ self.stop then self.contents.at index else none

def growSize (self : OrderedCollection α) : Int :=
  min (max self.collectionSize 10) 1000000

def growTo (self : OrderedCollection α) (anInteger : Int) : Effect (OrderedCollection α) :=
  let copy : Contents α := List.replicate anInteger.toNat none
  match copy.replaceFromOther self.start self.stop (fun _ j => self.contents.at j) self.start with
  | .ok copy => .ok { self with contents := copy }
  | .error _ => .error self

def grow (self : OrderedCollection α) : Effect (OrderedCollection α) :=
  self.growTo (self.contents.length + self.growSize)

def compact (self : OrderedCollection α) : Effect (OrderedCollection α) :=
  if self.start = 1 then .ok self
  else
    let size := self.collectionSize
    let e := self.stop
    (self.lift (self.contents.replaceFromSelf 1 size self.start)).bind fun self =>
      let self := { self with start := 1, stop := size }
      self.lift (self.contents.replaceFromWithNil (self.stop + 1) e)

def makeRoomBefore (self : OrderedCollection α) : Effect (OrderedCollection α) :=
  let n := self.collectionSize
  let moved :=
    if self.stop = self.contents.length then
      self.grow.map fun self =>
        { self with stop := (self.contents.length + self.stop + 1) / 2 }
    else .ok { self with stop := self.contents.length }
  moved.bind fun self =>
    let s := self.start
    let self := { self with start := self.stop - n + 1 }
    (self.lift (self.contents.replaceFromSelf self.start self.stop s)).bind fun self =>
      self.lift (self.contents.replaceFromWithNil s (self.start - 1))

def makeRoomBehind (self : OrderedCollection α) : Effect (OrderedCollection α) :=
  if self.start = 1 then self.grow
  else
    let s := self.start / 2
    let n := self.collectionSize
    let e := self.stop
    let self := { self with stop := s + n - 1 }
    (self.lift (self.contents.replaceFromSelf s self.stop self.start)).bind fun self =>
      (self.lift (self.contents.replaceFromWithNil (self.stop + 1) e)).map fun self =>
        { self with start := s }

/-- `makeRoomBehind:` -/
def makeRoomBehindIndex (self : OrderedCollection α) (anInteger : Int) :
    Effect (OrderedCollection α) :=
  if anInteger = 0 ∧ 1 < self.start then .ok { self with start := self.start - 1 }
  else
    (if self.stop = self.contents.length then self.makeRoomBehind else .ok self).bind fun self =>
      let self := { self with stop := self.stop + 1 }
      self.lift (self.contents.replaceFromSelf (self.start + anInteger + 1) self.stop
        (self.start + anInteger))

/-- `add:at:` -/
def addAt (self : OrderedCollection α) (anObject : Option α) (anInteger : Int) :
    Effect (OrderedCollection α) :=
  (self.makeRoomBehindIndex (anInteger - 1)).bind fun self =>
    self.lift (self.contents.atPut (self.start + anInteger - 1) anObject)

def addFirst (self : OrderedCollection α) (anObject : Option α) : Effect (OrderedCollection α) :=
  (if self.start = 1 then self.makeRoomBefore else .ok self).bind fun self =>
    let self := { self with start := self.start - 1 }
    self.lift (self.contents.atPut self.start anObject)

def basicAdd (self : OrderedCollection α) (anObject : Option α) : Effect (OrderedCollection α) :=
  (if self.stop = self.contents.length then self.makeRoomBehind else .ok self).bind fun self =>
    let self := { self with stop := self.stop + 1 }
    self.lift (self.contents.atPut self.stop anObject)

def addLast (self : OrderedCollection α) (anObject : Option α) : Effect (OrderedCollection α) :=
  self.basicAdd anObject

end OrderedCollection

namespace Argument

def size (argument : Argument α) (self : OrderedCollection α) : Int :=
  match argument with
  | receiver => self.collectionSize
  | other elements => elements.length

def isReceiver : Argument α → Bool
  | receiver => true
  | other _ => false

/-- How `at:` reads the argument while the receiver's contents change. -/
def read (argument : Argument α) (self : OrderedCollection α) :
    Contents α → Int → Option (Option α) :=
  match argument with
  | receiver => fun contents j => { self with contents := contents }.at j
  | other elements => Contents.readOf elements

end Argument

namespace OrderedCollection

/-- The loop of `addAllFirst:`, a block of the elements at a time from the last on. -/
def addBlocksFirst (argument : Argument α) :
    (fuel : Nat) → (pending : Int) → OrderedCollection α → Effect (OrderedCollection α)
  | 0, _, self => .error self
  | fuel + 1, pending, self =>
    (if 0 < pending ∧ self.start - 1 = 0 then self.makeRoomBefore else .ok self).bind fun self =>
      let n := min (self.start - 1) pending
      if n ≤ 0 then .ok self
      else
        (self.lift (self.contents.replaceFromOther (self.start - n) (self.start - 1)
          (argument.read self) (pending - n + 1))).bind fun self =>
            addBlocksFirst argument fuel (pending - n) { self with start := self.start - n }

def addAllFirst (self : OrderedCollection α) (aCollection : Argument α) :
    Effect (OrderedCollection α) :=
  addBlocksFirst aCollection ((aCollection.size self).toNat + 1) (aCollection.size self) self

/-- The loop of `addAllLast:`, of `m` elements from `index` on. -/
def addBlocksLast (argument : Argument α) (m : Int) :
    (fuel : Nat) → (index : Int) → OrderedCollection α → Effect (OrderedCollection α)
  | 0, _, self => .error self
  | fuel + 1, index, self =>
    let pending := m - index + 1
    let roomy : Except (OrderedCollection α) (OrderedCollection α × Int) :=
      if 0 < pending ∧ self.contents.length - self.stop = 0 then
        (if 1 < self.start then self.compact else self.grow).map fun self =>
          (self, self.contents.length - self.collectionSize)
      else .ok (self, self.contents.length - self.stop)
    roomy.bind fun (self, free) =>
      let n := min free pending
      if n ≤ 0 then .ok self
      else
        (self.lift (self.contents.replaceFromOther (self.stop + 1) (self.stop + n)
          (argument.read self) index)).bind fun self =>
            addBlocksLast argument m fuel (index + n) { self with stop := self.stop + n }

def addAllLast (self : OrderedCollection α) (aCollection : Argument α) :
    Effect (OrderedCollection α) :=
  addBlocksLast aCollection (aCollection.size self) ((aCollection.size self).toNat + 1) 1 self

/-- An empty collection starts at the first slot again. -/
def restarted (self : OrderedCollection α) : OrderedCollection α :=
  if self.stop < self.start then { self with start := 1, stop := 0 } else self

def removeFirst (self : OrderedCollection α) :
    Except (OrderedCollection α) (OrderedCollection α × Option α) :=
  if self.stop < self.start then .error self
  else
    match self.contents.at self.start with
    | none => .error self
    | some first =>
      (self.lift (self.contents.atPut self.start none)).map fun self =>
        ({ self with start := self.start + 1 }.restarted, first)

def removeLast (self : OrderedCollection α) :
    Except (OrderedCollection α) (OrderedCollection α × Option α) :=
  if self.stop < self.start then .error self
  else
    match self.contents.at self.stop with
    | none => .error self
    | some last =>
      (self.lift (self.contents.atPut self.stop none)).map fun self =>
        ({ self with stop := self.stop - 1 }.restarted, last)

def removeIndex (self : OrderedCollection α) (anInteger : Int) : Effect (OrderedCollection α) :=
  let absolute := anInteger + self.start - 1
  if self.start ≤ absolute ∧ absolute ≤ self.stop then
    if absolute ≤ (self.start + self.stop) / 2 then
      (self.lift (self.contents.replaceFromSelf (self.start + 1) absolute self.start)).bind
        fun self => (self.lift (self.contents.atPut self.start none)).map fun self =>
          { self with start := self.start + 1 }.restarted
    else
      (self.lift (self.contents.replaceFromSelf absolute (self.stop - 1) (absolute + 1))).bind
        fun self => (self.lift (self.contents.atPut self.stop none)).map fun self =>
          { self with stop := self.stop - 1 }.restarted
  else .error self

/-- Move the elements that are kept to the slots from `n` on. -/
def keepUnless (aBlock : Option α → Bool) :
    (count : Nat) → (index n : Int) → Contents α → Except (Contents α) (Contents α × Int)
  | 0, _, n, contents => .ok (contents, n)
  | count + 1, index, n, contents =>
    match contents.at index with
    | none => .error contents
    | some element =>
      if aBlock element then keepUnless aBlock count (index + 1) n contents
      else
        (contents.atPut n element).bind (keepUnless aBlock count (index + 1) (n + 1))

def removeAllSuchThat (self : OrderedCollection α) (aBlock : Option α → Bool) :
    Effect (OrderedCollection α) :=
  let count := (self.stop + 1 - self.start).toNat
  match keepUnless aBlock count self.start self.start self.contents with
  | .error contents => .error { self with contents := contents }
  | .ok (contents, n) =>
    (self.lift (contents.replaceFromWithNil n self.stop)).map fun self =>
      { self with stop := n - 1 }.restarted

/-- `replaceFrom:to:with:startingAt:`, with the block copies of the receiver. -/
def replaceFromStartingAt (self : OrderedCollection α) (first last : Int)
    (aCollection : Argument α) (position : Int) : Effect (OrderedCollection α) :=
  if last < first then .ok self
  else
    let final := position + last - first
    let read := aCollection.read self
    self.lift
      (if aCollection.isReceiver ∧ position ≤ first ∧ first ≤ final then
        self.contents.replaceBackwardFrom (self.start + last - 1) (self.start + first - 1) read final
      else
        self.contents.replaceForwardFrom (self.start + first - 1) (self.start + last - 1) read
          position)

/-- `replaceFrom:to:with:` -/
def replaceFromToWith (self : OrderedCollection α) (firstIndex lastIndex : Int)
    (aCollection : Argument α) : Effect (OrderedCollection α) :=
  let m := aCollection.size self
  let d := lastIndex - firstIndex + 1
  let n := self.collectionSize - d + m
  (if self.contents.length < n then self.growTo (n / 2 + n) else .ok self).bind fun self =>
    let e := self.stop
    let self := { self with stop := self.contents.length }
    (self.replaceFromStartingAt (firstIndex + m) n .receiver (lastIndex + 1)).bind fun self =>
      (self.replaceFromStartingAt firstIndex (firstIndex + m - 1) aCollection 1).bind fun self =>
        let self := { self with stop := self.start + n - 1 }
        self.lift (self.contents.replaceFromWithNil (e + m - d + 1) e)

end OrderedCollection

end Egg.Collection
