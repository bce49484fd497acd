import Mathlib.Logic.Function.Basic
import Mathlib.Tactic.Common

/-! Hash tables of the kernel: one slot for each element, or key and value side by side. -/
namespace Egg.Collection

/-- What a slot can hold: nil when it is free, NilToken for an element that is nil. -/
inductive Object (Value : Type) where
  | nil
  | nilToken
  | plain (object : Value)
  | association (key value : Object Value)
deriving DecidableEq

/-- What elements, keys and values are outside of a table: nil or some other object. -/
abbrev Element (Value : Type) := Option Value

namespace Object

variable {Value : Type}

def of : Element Value → Object Value
  | none => .nil
  | some object => .plain object

def isNil : Object Value → Bool
  | .nil => true
  | _ => false

def isNilToken : Object Value → Bool
  | .nilToken => true
  | _ => false

/-- What is stored for an object by `at:put:`. -/
def orToken : Object Value → Object Value
  | .nil => .nilToken
  | object => object

/-- What is read for a stored object, `ifFalse:` answering nil for the token. -/
def unlessToken : Object Value → Object Value
  | .nilToken => .nil
  | object => object

/-- `key`, which only associations understand. -/
def key : Object Value → Object Value
  | .association key _ => key
  | object => object

/-- `value` of an association. -/
def value : Object Value → Object Value
  | .association _ value => value
  | object => object

end Object

/-- A hash and an equality that agree on what can be an element. -/
structure Hashing (Value : Type) where
  hash : Object Value → Int
  equals : Object Value → Object Value → Bool
  refl : ∀ element, equals (.of element) (.of element) = true
  symm : ∀ left right, equals (.of left) (.of right) = true →
    equals (.of right) (.of left) = true
  trans : ∀ left middle right, equals (.of left) (.of middle) = true →
    equals (.of middle) (.of right) = true → equals (.of left) (.of right) = true
  agree : ∀ left right, equals (.of left) (.of right) = true →
    hash (.of left) = hash (.of right)

/-- The collections: a set and a dictionary of associations on open tables, and a dictionary
on an inlined table. -/
inductive Kind where
  | set
  | dictionary
  | inlinedDictionary
deriving DecidableEq

section Sizes

/-- The primes that `initializeSizes` reads. -/
def smallPrimes : List Nat :=
  [2, 3, 5, 7, 11, 13, 17, 19, 23, 29, 31, 37, 41, 43, 47, 53, 59, 61, 67, 71, 73, 79,
    83, 89, 97, 101, 103, 107, 109, 113, 127, 131, 137, 139, 149, 151, 157, 163,
    167, 173, 179, 181, 191, 193, 197, 199, 211, 223, 227, 229, 233, 239, 241, 251]

/-- The loop of `initializeSizes` from `index` on, `count` sizes before its end. -/
def sizesFrom (prime : Nat) (primes : List Nat) (index : Nat) : Nat → List Nat
  | 0 => []
  | count + 1 =>
    let (prime, primes) :=
      if prime < index * 2 - 1 then (primes.headD 0, primes.tail) else (prime, primes)
    prime :: sizesFrom prime primes (index + 1) count

def sizes : List Nat :=
  sizesFrom (smallPrimes.headD 0) smallPrimes.tail 1 126

def goodPrimes : List Nat :=
  [269, 359, 479, 641, 857, 1151, 1549, 2069, 2237, 2423, 2617, 2797, 2999, 3167, 3359, 3539,
    3727, 3911, 4441, 4787, 5119, 5471, 5801, 6143, 6521, 6827, 7177, 7517, 7853, 8783, 9601,
    10243, 10867, 11549, 12239, 12919, 13679, 14293, 15013, 15731, 17569, 19051, 20443, 21767,
    23159, 24611, 25847, 27397, 28571, 30047, 31397, 35771, 38201, 40841, 43973, 46633, 48989,
    51631, 54371, 57349, 60139, 62969, 70589, 76091, 80347, 85843, 90697, 95791, 101051, 106261,
    111143, 115777, 120691, 126311, 140863, 150523, 160969, 170557, 181243, 190717, 201653,
    211891, 221251, 232591, 242873, 251443, 282089, 300869, 321949, 341227, 362353, 383681,
    401411, 422927, 443231, 464951, 482033, 504011, 562621, 605779, 647659, 681607, 723623,
    763307, 808261, 844709, 886163, 926623, 967229, 1014617, 1121987, 1201469, 1268789, 1345651,
    1429531, 1492177, 1577839, 1651547, 1722601, 1800377, 1878623, 1942141, 2028401, 2242727,
    2399581, 2559173, 2686813, 2836357, 3005579, 3144971, 3283993, 3460133, 3582923, 3757093,
    3903769, 4061261, 4455361, 4783837, 5068529, 5418079, 5680243, 6000023, 6292981, 6611497,
    6884641, 7211599, 7514189, 7798313, 8077189, 9031853, 9612721, 10226107, 10745291, 11338417,
    11939203, 12567671, 13212697, 13816333, 14337529, 14938571, 15595673, 16147291, 17851577,
    18993941, 20180239, 21228533, 22375079, 23450491, 24635579, 25683871, 26850101, 27921689,
    29090911, 30153841, 31292507, 32467307, 35817611, 37983761, 40234253, 42457253, 44750177,
    46957969, 49175831, 51442639, 53726417, 55954637, 58126987, 60365939, 62666977, 64826669,
    71582779, 76039231, 80534381, 84995153, 89500331, 93956777, 98470819, 102879613, 107400389,
    111856841, 116365721, 120819287, 125246581, 129732203, 143163379, 152076289, 161031319,
    169981667, 179000669, 187913573, 196826447, 205826729, 214748357, 223713691, 232679021,
    241591901, 250504801, 259470131, 285162679, 301939921, 318717121, 335494331, 352271573,
    369148753, 385926017, 402603193, 419480419, 436157621, 453034849, 469712051, 486589307,
    503366497, 520043707, 570475349, 603929813, 637584271, 671138659, 704693081, 738247541,
    771801929, 805356457, 838910803, 872365267, 905919671, 939574117, 973128521, 1006682977,
    1040137411, 1073741833]

def primeFor (size : Nat) : Nat :=
  let n := size ||| 1
  if n ≤ 251 then sizes.getD (n / 2) 0
  else (goodPrimes.find? (n < ·)).getD n

end Sizes

/-- A table; `slots` is addressed from one. -/
structure HashTable (Value : Type) where
  size : Nat
  slots : Nat → Object Value

namespace HashTable

variable {Value : Type}

/-- `new:` of the table's class. -/
def new (kind : Kind) (count : Nat) : HashTable Value where
  size :=
    match kind with
    | .set | .dictionary => primeFor count
    | .inlinedDictionary => primeFor count * 2
  slots _ := .nil

def basicAtPut (table : HashTable Value) (index : Nat) (object : Object Value) :
    HashTable Value :=
  { table with slots := Function.update table.slots index object }

def atPut (table : HashTable Value) (index : Nat) (object : Object Value) : HashTable Value :=
  table.basicAtPut index object.orToken

def slotsPerElement : Kind → Nat
  | .set | .dictionary => 1
  | .inlinedDictionary => 2

def indexOfHash (kind : Kind) (table : HashTable Value) (hash : Int) : Nat :=
  match kind with
  | .set | .dictionary => (hash % (table.size : Int)).toNat + 1
  | .inlinedDictionary => (hash % ((table.size / 2 : Nat) : Int)).toNat * 2 + 1

def isCapacityGreaterThan (kind : Kind) (table : HashTable Value) (count : Nat) : Bool :=
  match kind with
  | .set | .dictionary => table.size * 75 > count * 100
  | .inlinedDictionary => table.size * 3 > count * 8

/-- The index after one element, going round at the end. -/
def following (kind : Kind) (table : HashTable Value) (index : Nat) : Nat :=
  if index + slotsPerElement kind > table.size then 1 else index + slotsPerElement kind

/-- `findFirst:startingAt:`; no result is the error that nothing was found. -/
def findFirst (kind : Kind) (table : HashTable Value) (first : Nat) (holds : Object Value → Bool) :
    Nat → Nat → Option Nat
  | 0, _ => none
  | fuel + 1, index =>
    if holds (table.slots index) then some index
    else if table.following kind index = first then none
    else findFirst kind table first holds fuel (table.following kind index)

variable (hashing : Hashing Value)

/-- `equates:with:` of the collection. -/
def equates (kind : Kind) (key element : Object Value) : Bool :=
  match kind with
  | .set | .inlinedDictionary => hashing.equals key element
  | .dictionary => hashing.equals key element.key

/-- `keyFor:` of the collection. -/
def keyFor (kind : Kind) (object : Object Value) : Object Value :=
  match kind with
  | .set | .inlinedDictionary => object
  | .dictionary => object.key

/-- The free slot or the slot of an equal key, from the hash of the key on. -/
def indexOfKey (kind : Kind) (table : HashTable Value) (key : Object Value) : Option Nat :=
  let first := table.indexOfHash kind (hashing.hash key)
  table.findFirst kind first
    (fun object => object.isNil || equates hashing kind key object.unlessToken) table.size first

/-- `valueAt:ifAbsent:`; no result stands for the absent block. -/
def valueAt (kind : Kind) (table : HashTable Value) (index : Nat) : Option (Object Value) :=
  if (table.slots index).isNil then none
  else match kind with
    | .set | .dictionary => some (table.slots index).unlessToken
    | .inlinedDictionary => some (table.slots (index + 1)).unlessToken

/-- `lookupKey:ifAbsent:` and, on inlined tables, `lookupValue:ifAbsent:`. The outer result
is missing on an error, the inner one when the key is absent. -/
def lookupKey (kind : Kind) (table : HashTable Value) (key : Object Value) :
    Option (Option (Object Value)) :=
  (table.indexOfKey hashing kind key).map (table.valueAt kind)

/-- `at:key:put:` answers nil for a new element. -/
def atKeyPutAt (kind : Kind) (table : HashTable Value) (index : Nat)
    (key element : Object Value) : Object Value × HashTable Value :=
  match kind with
  | .set | .dictionary =>
    if (table.slots index).isNil then (.nil, table.atPut index element)
    else (table.slots index, table)
  | .inlinedDictionary =>
    if (table.slots index).isNil then
      (.nil, (table.atPut index key).atPut (index + 1) element)
    else (key, table.atPut (index + 1) element)

/-- `atKey:put:`, with the index it found. -/
def atKeyPut (kind : Kind) (table : HashTable Value) (key element : Object Value) :
    Option (Nat × Object Value × HashTable Value) :=
  (table.indexOfKey hashing kind key).map fun index =>
    (index, table.atKeyPutAt kind index key element)

def basicAtKeyPut (kind : Kind) (table : HashTable Value) (key element : Object Value) :
    Option (HashTable Value) :=
  (table.indexOfKey hashing kind key).map fun index =>
    match kind with
    | .set | .dictionary => table.atPut index element
    | .inlinedDictionary => (table.atPut index key).atPut (index + 1) element

def clearSlot (kind : Kind) (table : HashTable Value) (index : Nat) : HashTable Value :=
  match kind with
  | .set | .dictionary => table.basicAtPut index .nil
  | .inlinedDictionary => (table.basicAtPut index .nil).basicAtPut (index + 1) .nil

def moveSlot (kind : Kind) (table : HashTable Value) (source target : Nat) : HashTable Value :=
  match kind with
  | .set | .dictionary =>
    (table.basicAtPut source .nil).basicAtPut target (table.slots source)
  | .inlinedDictionary =>
    (((table.basicAtPut source .nil).basicAtPut (source + 1) .nil).basicAtPut target
      (table.slots source)).basicAtPut (target + 1) (table.slots (source + 1))

/-- The loop at the end of `removeKey:ifAbsent:`, which moves elements back until it meets a
free slot or comes round. -/
def moveBack (kind : Kind) (first : Nat) : Nat → Nat → HashTable Value → Option (HashTable Value)
  | 0, _, _ => none
  | fuel + 1, index, table =>
    if (table.slots index).isNil then some table
    else do
      let target ← table.indexOfKey hashing kind (keyFor kind (table.slots index))
      let moved :=
        if (table.slots target).isNil then table.moveSlot kind index target else table
      if moved.following kind index = first then some moved
      else moveBack kind first fuel (moved.following kind index) moved

/-- `removeKey:ifAbsent:`; the inner result is missing when the key is absent. -/
def removeKey (kind : Kind) (table : HashTable Value) (key : Object Value) :
    Option (Option (HashTable Value)) := do
  let index ← table.indexOfKey hashing kind key
  if (table.slots index).isNil then some none
  else
    let cleared := table.clearSlot kind index
    let first := cleared.following kind index
    let moved ← moveBack hashing kind first table.size first cleared
    some (some moved)

/-- The indices of the elements, in order. -/
def elementIndices (kind : Kind) (table : HashTable Value) : List Nat :=
  match kind with
  | .set | .dictionary => (List.range table.size).map (· + 1)
  | .inlinedDictionary => (List.range (table.size / 2)).map (· * 2 + 1)

/-- `elementsDo:count:` and, on inlined tables, `keysAndValuesDo:`: the keys and what is
stored for them. -/
def keysAndElements (kind : Kind) (table : HashTable Value) (count : Nat) :
    List (Object Value × Object Value) :=
  let found := (table.elementIndices kind).filter fun index => !(table.slots index).isNil
  match kind with
  | .set => (found.take count).map fun index =>
    ((table.slots index).unlessToken, (table.slots index).unlessToken)
  | .dictionary => (found.take count).map fun index =>
    ((table.slots index).unlessToken.key, (table.slots index).unlessToken)
  | .inlinedDictionary => found.map fun index =>
    ((table.slots index).unlessToken, (table.slots (index + 1)).unlessToken)

end HashTable

end Egg.Collection
