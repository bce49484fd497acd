import Egg.Data.Rearrangement

/-! The sorts of sequenceable collections: quicksort of a range, insertion sort of one that fits
another array, and quicksort that leaves short ranges to insertion sort. -/
namespace Egg.Collection.RangeSort

open Egg.Data

variable {α : Type}

/-- The positions that can be accessed; an access elsewhere is an error. -/
structure Window where
  first : Int
  last : Int

/-- What a sort block answers at each of its calls; it may answer differently another time. -/
abbrev Block (α : Type) := (calls : Nat) → α → α → Bool

/-- The elements of the sequence, those of the scratch, and how often the block was called. -/
structure State (α : Type) where
  elements : Int → α
  scratch : Int → α
  calls : Nat

namespace State

def «at» (window : Window) (self : State α) (index : Int) : Option α :=
  if window.first ≤ index ∧ index ≤ window.last then some (self.elements index) else none

def atPut (window : Window) (self : State α) (index : Int) (element : α) : Option (State α) :=
  if window.first ≤ index ∧ index ≤ window.last then
    some { self with elements := Function.update self.elements index element }
  else none

/-- `at:` of the scratch. -/
def scratchAt (size : Nat) (self : State α) (index : Int) : Option α :=
  if 1 ≤ index ∧ index ≤ size then some (self.scratch index) else none

def scratchAtPut (size : Nat) (self : State α) (index : Int) (element : α) : Option (State α) :=
  if 1 ≤ index ∧ index ≤ size then
    some { self with scratch := Function.update self.scratch index element }
  else none

/-- The block has been called once more. -/
def called (self : State α) : State α :=
  { self with calls := self.calls + 1 }

/-- `swap:with:`. -/
def swap (window : Window) (self : State α) (index1 index2 : Int) : Option (State α) := do
  let temp ← self.at window index1
  let other ← self.at window index2
  let self ← self.atPut window index1 other
  self.atPut window index2 temp

end State

variable (window : Window) (block : Block α)

section Quicksort

/-- An element is compared with the pivot, and moved where it is before it. -/
def separateStep (pivot : α) (i last : Int) (self : State α) : Option (Int × State α) := do
  let x0 ← self.at window i
  if block self.calls x0 pivot then
    if last + 1 = i then some (last + 1, self.called)
    else do
      let other ← self.at window (last + 1)
      let self ← self.called.atPut window i other
      let self ← self.atPut window (last + 1) x0
      some (last + 1, self)
  else some (last, self.called)

/-- The inner loop of `sort:to:with:`. -/
def separate (pivot : α) (i1 i last : Int) (self : State α) : Option (Int × State α) := do
  let (last, self) ← separateStep window block pivot (i + 1) last self
  if i + 1 < i1 then separate pivot i1 (i + 1) last self else some (last, self)
termination_by (i1 - i).toNat
decreasing_by lia

/-- A range of two. -/
def sortPair (i0 i1 : Int) (self : State α) : Option (State α) := do
  let x1 ← self.at window i1
  let x0 ← self.at window i0
  if block self.calls x1 x0 then do
    let self ← self.called.atPut window i0 x1
    self.atPut window i1 x0
  else some self.called

/-- The elements before the pivot are moved before it, those not before it behind it. -/
def divide (i0 i1 : Int) (self : State α) : Option (Int × State α) := do
  let mid := (i0 + i1) / 2
  let pivot ← self.at window mid
  let first ← self.at window i0
  let self ← self.atPut window mid first
  let (last, self) ← separate window block pivot i1 i0 i0 self
  let other ← self.at window last
  let self ← self.atPut window i0 other
  let self ← self.atPut window last pivot
  some (last, self)

/-- `sort:to:with:`, which is left with one of the two parts and sends itself for the other. -/
def sortToWith : (fuel : Nat) → (i0 i1 : Int) → State α → Option (State α)
  | 0, _, _, _ => none
  | fuel + 1, i0, i1, self =>
    if i1 - i0 ≤ 1 then
      if i0 < i1 then sortPair window block i0 i1 self else some self
    else do
      let (last, self) ← divide window block i0 i1 self
      if (i0 + i1) / 2 < last then do
        let self ← sortToWith fuel (last + 1) i1 self
        sortToWith fuel i0 (last - 1) self
      else do
        let self ← sortToWith fuel i0 (last - 1) self
        sortToWith fuel (last + 1) i1 self

end Quicksort

section InsertionSort

variable (size : Nat)

/-- The position of the first element of the scratch that the block does not put before this one. -/
def findPlace (ai : α) (i j : Int) (self : State α) : Option (Int × State α) :=
  if j < i then do
    let other ← self.scratchAt size j
    if block self.calls other ai then findPlace ai i (j + 1) self.called else some (j, self.called)
  else some (j, self)
termination_by (i - j).toNat
decreasing_by lia

/-- Elements of the scratch move up by one. -/
def shift (j s : Int) (self : State α) : Option (State α) :=
  if j < s then do
    let other ← self.scratchAt size (s - 1)
    let self ← self.scratchAtPut size s other
    shift j (s - 1) self
  else some self
termination_by (s - j).toNat
decreasing_by lia

/-- Room for an element of the scratch, where it is not behind all others. -/
def makeRoom (j i : Int) (self : State α) : Option (State α) :=
  if j < i then shift size j i self else some self

def insert (start i : Int) (self : State α) : Option (State α) := do
  let ai ← self.at window (start + i - 1)
  let (j, self) ← findPlace block size ai i 1 self
  let self ← makeRoom size j i self
  self.scratchAtPut size j ai

/-- The elements of the range are put into the scratch, each in its place. -/
def insertAll (start n i : Int) (self : State α) : Option (State α) :=
  if i ≤ n then do
    let self ← insert window block size start i self
    insertAll start n (i + 1) self
  else some self
termination_by (n + 1 - i).toNat
decreasing_by lia

def copyBack (start n i : Int) (self : State α) : Option (State α) :=
  if i ≤ n then do
    let element ← self.scratchAt size i
    let self ← self.atPut window (start + i - 1) element
    copyBack start n (i + 1) self
  else some self
termination_by (n + 1 - i).toNat
decreasing_by lia

/-- `insertSortFrom:to:with:scratch:`. -/
def insertSort (start stop : Int) (self : State α) : Option (State α) :=
  let n := stop + 1 - start
  if n ≤ 1 then some self
  else do
    let first ← self.at window start
    let self ← self.scratchAtPut size 1 first
    let self ← insertAll window block size start n 2 self
    copyBack window size start n 1 self

end InsertionSort

section HybridSort

variable (size : Nat)

/-- The first and the last element are put in order. -/
def orderEnds (start stop : Int) (self : State α) : Option (α × α × State α) := do
  let di ← self.at window start
  let dj ← self.at window stop
  if block self.calls di dj then some (di, dj, self.called)
  else do
    let self ← self.called.swap window start stop
    some (dj, di, self)

/-- The median of the first, the middle and the last element is put in the middle. -/
def orderMiddle (start stop : Int) (di dj : α) (self : State α) : Option (α × State α) := do
  let ij := (start + stop) / 2
  let dij ← self.at window ij
  if block self.calls di dij then
    if block self.called.calls dij dj then some (dij, self.called.called)
    else do
      let self ← self.called.called.swap window stop ij
      some (dj, self)
  else do
    let self ← self.called.swap window start ij
    some (di, self)

/-- Down to an element that the block does not put behind the pivot. -/
def scanDown (dij : α) (k l : Int) (self : State α) : Option (Int × State α) :=
  if k ≤ l - 1 then do
    let dl ← self.at window (l - 1)
    if block self.calls dij dl then scanDown dij k (l - 1) self.called else some (l - 1, self.called)
  else some (l - 1, self)
termination_by (l - k).toNat
decreasing_by lia

/-- Up to an element that the block does not put before the pivot. -/
def scanUp (dij : α) (l k : Int) (self : State α) : Option (Int × State α) :=
  if k + 1 ≤ l then do
    let dk ← self.at window (k + 1)
    if block self.calls dk dij then scanUp dij l (k + 1) self.called else some (k + 1, self.called)
  else some (k + 1, self)
termination_by (l - k).toNat
decreasing_by lia

/-- Elements on the wrong sides are swapped until the two positions have passed each other. -/
def cross (dij : α) : (fuel : Nat) → (k l : Int) → State α → Option (Int × Int × State α)
  | 0, _, _, _ => none
  | fuel + 1, k, l, self => do
    let (l, self) ← scanDown window block dij k l self
    let (k, self) ← scanUp window block dij l k self
    if k ≤ l then do
      let self ← self.swap window k l
      cross dij fuel k l self
    else some (k, l, self)

/-- Ranges that are sorted already are skipped. -/
def skipSorted (dij : α) (stop k : Int) (self : State α) : Option (Int × State α) :=
  if k < stop then do
    let dk ← self.at window k
    if block self.calls dk dij then skipSorted dij stop (k + 1) self.called
    else some (k, self.called)
  else some (k, self)
termination_by (stop - k).toNat
decreasing_by lia

/-- `hybridSortFrom:to:with:scratch:`. -/
def hybridSort : (fuel : Nat) → (start stop : Int) → State α → Option (State α)
  | 0, _, _, _ => none
  | fuel + 1, start, stop, self =>
    let n := stop + 1 - start
    if n ≤ 1 then some self
    else if n ≤ size then insertSort window block size start stop self
    else do
      let (di, dj, self) ← orderEnds window block start stop self
      let (dij, self) ← orderMiddle window block start stop di dj self
      let (k, l, self) ← cross window block dij fuel start stop self
      let (k, self) ← skipSorted window block dij stop k self
      let self ← hybridSort fuel start l self
      hybridSort fuel k stop self

end HybridSort

end Egg.Collection.RangeSort
