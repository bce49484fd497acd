import Egg.Collection.OrderedCollection

/-! Sorted collections: quicksort of a range, and binary search for the place of an element. -/
namespace Egg.Collection

open Egg.Data

variable {α : Type}

/-- What a sort block answers of two elements. -/
abbrev Sorter (α : Type) := Option α → Option α → Bool

namespace Contents

/-- The inner loop of `sort:to:`, of the next `count` elements after `remaining`. -/
def separate (sorter : Sorter α) (temp : Option α) :
    (count : Nat) → (remaining last : Int) → Contents α → Except (Contents α) (Contents α × Int)
  | 0, _, last, contents => .ok (contents, last)
  | count + 1, remaining, last, contents =>
    match contents.at (remaining + 1) with
    | none => .error contents
    | some swapper =>
      if sorter swapper temp then
        if last + 1 = remaining + 1 then
          separate sorter temp count (remaining + 1) (last + 1) contents
        else
          match contents.at (last + 1) with
          | none => .error contents
          | some first =>
            ((contents.atPut (remaining + 1) first).bind fun contents =>
              contents.atPut (last + 1) swapper).bind
                (separate sorter temp count (remaining + 1) (last + 1))
      else separate sorter temp count (remaining + 1) last contents

/-- The loop of `sort:to:`, which is left with one of the two parts and sends itself for the
other. -/
def sortLoop (sorter : Sorter α) :
    (fuel : Nat) → (i j : Int) → Contents α → Effect (Contents α)
  | 0, _, _, contents => .error contents
  | fuel + 1, i, j, contents =>
    if j - i ≤ 1 then
      if j - i = 1 then
        match contents.at j, contents.at i with
        | some remaining, some swapper =>
          if sorter remaining swapper then
            (contents.atPut i remaining).bind fun contents => contents.atPut j swapper
          else .ok contents
        | _, _ => .error contents
      else .ok contents
    else
      let middle := (i + j) / 2
      match contents.at middle, contents.at i with
      | some temp, some first =>
        (contents.atPut middle first).bind fun contents =>
          (separate sorter temp (j - i).toNat i i contents).bind fun (contents, last) =>
            match contents.at last with
            | none => .error contents
            | some bound =>
              ((contents.atPut i bound).bind fun contents => contents.atPut last temp).bind
                fun contents =>
                  if middle < last then
                    (sortLoop sorter fuel (last + 1) j contents).bind
                      (sortLoop sorter fuel i (last - 1))
                  else
                    (sortLoop sorter fuel i (last - 1) contents).bind
                      (sortLoop sorter fuel (last + 1) j)
      | _, _ => .error contents

/-- `sort:to:` -/
def sortFromTo (sorter : Sorter α) (left right : Int) (contents : Contents α) :
    Effect (Contents α) :=
  sortLoop sorter ((right - left + 1).toNat + 1) left right contents

/-- The loop of `indexFor:` -/
def indexForLoop (sorter : Sorter α) (newObject : Option α) (contents : Contents α) :
    (fuel : Nat) → (low high : Int) → Option Int
  | 0, _, _ => none
  | fuel + 1, low, high =>
    let index := (high + low) / 2
    if high < low then some low
    else
      match contents.at index with
      | none => none
      | some element =>
        if sorter element newObject then
          indexForLoop sorter newObject contents fuel (index + 1) high
        else indexForLoop sorter newObject contents fuel low (index - 1)

/-- The first of so many slots with an equal element, where one of them is there. -/
def findEqual (equals : Option α → Option α → Bool) (anObject : Option α) (contents : Contents α) :
    (count : Nat) → (i : Int) → Option Int
  | 0, _ => none
  | count + 1, i =>
    match contents.at i with
    | none => none
    | some element =>
      if equals anObject element then some i else findEqual equals anObject contents count (i + 1)

end Contents

/-- `do:` with a step that changes what is read. -/
def doEach {σ : Type} (read : σ → Int → Option (Option α)) (aBlock : σ → Option α → Effect σ) :
    (count : Nat) → (i : Int) → σ → Effect σ
  | 0, _, state => .ok state
  | count + 1, i, state =>
    match read state i with
    | none => .error state
    | some each => (aBlock state each).bind (doEach read aBlock count (i + 1))

/-- Without a sort block the elements are compared by what they answer to `<=`. -/
structure SortedCollection (α : Type) extends OrderedCollection α where
  sortBlock : Option (Sorter α)

namespace SortedCollection

/-- `new:` -/
def new (anInteger : Nat) : SortedCollection α where
  toOrderedCollection := .new anInteger
  sortBlock := none

/-- `sortBlock ifNil: [self]`, where the collection itself compares by `lessOrEqual`. -/
def sorter (lessOrEqual : Sorter α) (self : SortedCollection α) : Sorter α :=
  self.sortBlock.getD lessOrEqual

/-- What a method of ordered collections does to a sorted one. -/
def inherit (self : SortedCollection α) : Effect (OrderedCollection α) → Effect (SortedCollection α)
  | .ok collection => .ok { self with toOrderedCollection := collection }
  | .error collection => .error { self with toOrderedCollection := collection }

def indexFor (lessOrEqual : Sorter α) (self : SortedCollection α) (newObject : Option α) :
    Option Int :=
  (Contents.indexForLoop (self.sorter lessOrEqual) newObject self.contents
    ((self.stop + 1 - self.start).toNat + 1) self.start self.stop).map fun low =>
      low - self.start + 1

def add (lessOrEqual : Sorter α) (self : SortedCollection α) (anObject : Option α) :
    Effect (SortedCollection α) :=
  match self.indexFor lessOrEqual anObject with
  | none => .error self
  | some idx => self.inherit (self.addAt anObject idx)

def reSort (lessOrEqual : Sorter α) (self : SortedCollection α) : Effect (SortedCollection α) :=
  self.inherit (self.lift (self.contents.sortFromTo (self.sorter lessOrEqual) self.start self.stop))

/-- `do:` of a collection that may be the receiver itself, whose bounds are read once. -/
def forEach (self : SortedCollection α) (aCollection : Argument α)
    (aBlock : SortedCollection α → Option α → Effect (SortedCollection α)) :
    Effect (SortedCollection α) :=
  match aCollection with
  | .receiver =>
    doEach (fun self i => self.contents.at i) aBlock (self.stop + 1 - self.start).toNat self.start
      self
  | .other elements =>
    doEach (fun _ i => Contents.at elements i) aBlock elements.length 1 self

def addAll (lessOrEqual : Sorter α) (self : SortedCollection α) (aCollection : Argument α) :
    Effect (SortedCollection α) :=
  if self.collectionSize / 3 < aCollection.size self.toOrderedCollection then
    (self.forEach aCollection fun self each => self.inherit (self.addLast each)).bind
      (reSort lessOrEqual)
  else self.forEach aCollection (add lessOrEqual)

/-- `remove:`, which is an error where no element is equal. -/
def remove (equals : Option α → Option α → Bool) (self : SortedCollection α)
    (anObject : Option α) : Effect (SortedCollection α) :=
  match self.contents.findEqual equals anObject (self.stop + 1 - self.start).toNat self.start with
  | none => .error self
  | some i => self.inherit (self.removeIndex (i - self.start + 1))

/-- `sortBlock:` and `sortBy:` -/
def setSortBlock (lessOrEqual : Sorter α) (self : SortedCollection α) (aBlock : Sorter α) :
    Effect (SortedCollection α) :=
  { self with sortBlock := some aBlock }.reSort lessOrEqual

end SortedCollection

end Egg.Collection
