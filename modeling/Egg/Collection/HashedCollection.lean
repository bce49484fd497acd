import Egg.Collection.HashTable

/-! Sets and dictionaries on hash tables. -/
namespace Egg.Collection

variable {Value : Type}

structure HashedCollection (Value : Type) where
  tally : Nat
  table : HashTable Value

/-- What is done to a collection: `add:` or `at:put:`, and `remove:` or `removeKey:`. Sets
have no values. -/
inductive Operation (Value : Type) where
  | put (key value : Element Value)
  | remove (key : Element Value)

namespace HashedCollection

def sizeFor (count : Nat) : Nat :=
  max 7 (count * 3 / 2)

/-- `new:`, with the table of `contentOfSize:`. -/
def new (kind : Kind) (count : Nat) : HashedCollection Value where
  tally := 0
  table := .new kind (sizeFor count)

variable (hashing : Hashing Value) (kind : Kind)

/-- `rebuildOn:`, whose copy counts what it is given. -/
def rebuildOn (collection copy : HashedCollection Value) : Option (HashedCollection Value) := do
  let copied ← (collection.table.keysAndElements kind collection.tally).foldlM
    (fun (copy : HashedCollection Value) entry => do
      let table ← copy.table.basicAtKeyPut hashing kind entry.1 entry.2
      some { tally := copy.tally + 1, table := table }) copy
  match kind with
  | .set => some copied
  | .dictionary | .inlinedDictionary => some { collection with table := copied.table }

def resizeTo (collection : HashedCollection Value) (count : Nat) :
    Option (HashedCollection Value) :=
  collection.rebuildOn hashing kind { tally := 0, table := .new kind (sizeFor count) }

def grow (collection : HashedCollection Value) : Option (HashedCollection Value) :=
  collection.resizeTo hashing kind (collection.tally * 2)

def incrementTally (collection : HashedCollection Value) : Option (HashedCollection Value) :=
  let counted := { collection with tally := collection.tally + 1 }
  if counted.table.isCapacityGreaterThan kind counted.tally then some counted
  else counted.grow hashing kind

/-- Count an element that was new, its slot having answered nil. -/
def counting (collection : HashedCollection Value) (answer : Object Value) :
    Option (HashedCollection Value) :=
  if answer.isNil then collection.incrementTally hashing kind else some collection

/-- `add:` of a set. -/
def add (collection : HashedCollection Value) (element : Object Value) :
    Option (HashedCollection Value) := do
  let (_, answer, table) ← collection.table.atKeyPut hashing .set element element
  { collection with table := table }.counting hashing .set answer

/-- `at:put:` of a dictionary adds an association; one that is there already gets the value. -/
def atPut (collection : HashedCollection Value) (key value : Object Value) :
    Option (HashedCollection Value) := do
  let (index, existing, table) ←
    collection.table.atKeyPut hashing .dictionary key (.association key value)
  let stored :=
    if existing.isNil then table
    else table.basicAtPut index (.association existing.key value)
  { collection with table := stored }.counting hashing .dictionary existing

/-- `at:put:` of an inlined dictionary. -/
def inlinedAtPut (collection : HashedCollection Value) (key value : Object Value) :
    Option (HashedCollection Value) := do
  let (_, answer, table) ← collection.table.atKeyPut hashing .inlinedDictionary key value
  { collection with table := table }.counting hashing .inlinedDictionary answer

def put (collection : HashedCollection Value) (key value : Object Value) :
    Option (HashedCollection Value) :=
  match kind with
  | .set => collection.add hashing key
  | .dictionary => collection.atPut hashing key value
  | .inlinedDictionary => collection.inlinedAtPut hashing key value

/-- `remove:ifAbsent:` of a set and `removeKey:ifAbsent:` of a dictionary. -/
def remove (collection : HashedCollection Value) (key : Object Value) :
    Option (HashedCollection Value) := do
  match ← collection.table.removeKey hashing kind key with
  | none => some collection
  | some table => some { tally := collection.tally - 1, table := table }

/-- `at:ifAbsent:` of a dictionary; on a set, the element that is found. -/
def at? (collection : HashedCollection Value) (key : Object Value) :
    Option (Option (Object Value)) :=
  (collection.table.lookupKey hashing kind key).map fun answer =>
    match kind with
    | .set | .inlinedDictionary => answer
    | .dictionary => answer.map Object.value

/-- `includes:` of a set and `includesKey:` of a dictionary, which compares with nil. -/
def includes (collection : HashedCollection Value) (key : Object Value) : Option Bool :=
  match kind with
  | .set =>
    if collection.tally = 0 then some false
    else (collection.table.lookupKey hashing .set key).map Option.isSome
  | .dictionary | .inlinedDictionary =>
    (collection.table.lookupKey hashing kind key).map fun answer =>
      answer.any fun object => !object.isNil

def step (collection : HashedCollection Value) : Operation Value → Option (HashedCollection Value)
  | .put key value => collection.put hashing kind (.of key) (.of value)
  | .remove key => collection.remove hashing kind (.of key)

end HashedCollection

end Egg.Collection
