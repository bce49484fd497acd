import Egg.Strings.SubstringSearch

/-! Read streams on collections, and reading up to a delimiter. -/
namespace Egg.Streams

open Egg.Data Egg.Strings

/-- A stream on a collection; the elements past the limit are not read. -/
structure InternalReadStream (α : Type) where
  contents : List α
  position : Nat
  limit : Nat

/-- What was read, and the stream behind it. -/
abbrev Reading (α : Type) := List α × InternalReadStream α

namespace InternalReadStream

variable {α : Type}

def on (aCollection : List α) : InternalReadStream α where
  contents := aCollection
  position := 0
  limit := aCollection.length

def size (self : InternalReadStream α) : Nat :=
  self.limit

def atEnd (self : InternalReadStream α) : Bool :=
  self.limit ≤ self.position

def atPosition (self : InternalReadStream α) (anInteger : Nat) : InternalReadStream α :=
  { self with position := anInteger }

@[simp] theorem atPosition_contents (self : InternalReadStream α) (anInteger : Nat) :
    (self.atPosition anInteger).contents = self.contents := rfl

@[simp] theorem atPosition_position (self : InternalReadStream α) (anInteger : Nat) :
    (self.atPosition anInteger).position = anInteger := rfl

@[simp] theorem atPosition_limit (self : InternalReadStream α) (anInteger : Nat) :
    (self.atPosition anInteger).limit = self.limit := rfl

def reset (self : InternalReadStream α) : InternalReadStream α :=
  self.atPosition 0

def skip (self : InternalReadStream α) (n : Int) : InternalReadStream α :=
  self.atPosition (max 0 (min (self.position + n) self.size)).toNat

def sizeToEnd (self : InternalReadStream α) : Nat :=
  self.size - self.position

/-- An element and the stream behind it; an error is no result. -/
def next (self : InternalReadStream α) : Option (α × InternalReadStream α) := do
  if self.position < self.limit then
    let element ← elementAt self.contents (self.position + 1)
    some (element, self.atPosition (self.position + 1))
  else none

theorem next_position {self next : InternalReadStream α} {element : α}
    (read : self.next = some (element, next)) :
    self.position < self.limit ∧ next = self.atPosition (self.position + 1) := by
  rw [InternalReadStream.next] at read
  split at read
  · rename_i inside
    obtain ⟨element', -, same⟩ := Option.bind_eq_some_iff.mp read
    exact ⟨inside, (congrArg Prod.snd (Option.some.inj same)).symm⟩
  · cases read

/-- `copyFrom:to:`. -/
def copyFrom (contents : List α) (start stop : Nat) : Option (List α) :=
  if start ≤ stop ∧ contents.length < stop then none
  else some ((contents.take stop).drop (start - 1))

/-- `next:`. -/
def nextCount (self : InternalReadStream α) (n : Nat) : Option (Reading α) := do
  let stop := self.position + n
  if stop > self.limit then none
  else
    let result ← copyFrom self.contents (self.position + 1) stop
    some (result, self.atPosition stop)

def upToEnd (self : InternalReadStream α) : Option (Reading α) :=
  self.nextCount self.sizeToEnd

section Delimiters

variable [BEq α]

/-- The state of the generic reading up to a delimiter. -/
structure Matching (α : Type) where
  self : InternalReadStream α
  pattern : InternalReadStream α
  result : List α
  aux : List α

def Matching.done (matching : Matching α) : Bool :=
  matching.self.atEnd || matching.pattern.atEnd

/-- An element is compared; where it differs the stream moves back. -/
def Matching.step (matching : Matching α) : Option (Matching α) := do
  let (next, self) ← matching.self.next
  let (expected, pattern) ← matching.pattern.next
  if next == expected then
    some { matching with self, pattern, aux := matching.aux ++ [next] }
  else
    some {
      self := self.atPosition (self.position - matching.aux.length)
      pattern := pattern.reset
      result := matching.result ++ matching.aux ++ [next]
      aux := [] }

/-- `ReadStream>>upToAll:`. -/
def readUpToAll (self : InternalReadStream α) (aCollection : List α) (fuel : Nat) :
    Option (Reading α) := do
  let ended ← loop Matching.done (fun _ matching => matching.step) fuel
    { self, pattern := on aCollection, result := [], aux := [] }
  some (ended.result, ended.self)

/-- The elements from a position on, up to the token. -/
def indexOfFrom (contents : List α) (token : α) (start : Nat) : Option Nat :=
  ((contents.drop (start - 1)).findIdx? (· == token)).map (start + ·)

/-- `ReadStream>>skipTo:`. -/
def readSkipTo (self : InternalReadStream α) (token : α) :
    Option (Bool × InternalReadStream α) :=
  if self.atEnd then some (false, self)
  else
    match _read : self.next with
    | none => none
    | some (element, self) => if element == token then some (true, self) else self.readSkipTo token
termination_by self.limit - self.position
decreasing_by
  obtain ⟨inside, rfl⟩ := next_position _read
  exact Nat.sub_lt_sub_left inside (Nat.lt_succ_self _)

/-- The token is looked for in the whole contents. -/
def skipTo (self : InternalReadStream α) (token : α) : Option (Bool × InternalReadStream α) :=
  match indexOfFrom self.contents token (self.position + 1) with
  | some index => some (true, self.skip (index - self.position))
  | none => self.readSkipTo token

def upTo (self : InternalReadStream α) (token : α) : Option (Reading α) := do
  let pos := self.position
  let (found, self) ← self.skipTo token
  let offset := if found then 1 else 0
  let result ← copyFrom self.contents (pos + 1) (self.position - offset)
  some (result, self)

/-- `InternalReadStream>>upToAll:`; the search is that of the contents for the collection with its
table. -/
def upToAll (indexOfSubcollection : (start stop fuel : Nat) → Option Nat)
    (self : InternalReadStream α) (aCollection : List α) (fuel : Nat) : Option (Reading α) := do
  if aCollection.length > 1 then
    let index ← indexOfSubcollection (self.position + 1) self.limit fuel
    if index = 0 then self.upToEnd
    else
      let (string, self) ← self.nextCount (index - self.position - 1)
      some (string, self.skip aCollection.length)
  else
    match aCollection with
    | [] => self.upToEnd
    | first :: _ => self.upTo first

/-- `throughAll:` on top of either reading. -/
def throughAll (upToAll : InternalReadStream α → List α → Nat → Option (Reading α))
    (self : InternalReadStream α) (aCollection : List α) (fuel : Nat) : Option (Reading α) := do
  let pos := self.position
  let (collection, self) ← upToAll self aCollection fuel
  if self.atEnd then (self.atPosition pos).upToEnd
  else some (collection ++ aCollection, self)

end Delimiters

end InternalReadStream

end Egg.Streams
