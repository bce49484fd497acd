import Egg.Data.Fuel
import Egg.Data.Occurrences

/-! Searches of strings and sequences for a part of them. A failing access is no answer. -/
namespace Egg.Strings

open Egg.Data

section Sequences

variable {α : Type} [BEq α]

/-- A dictionary as its associations; keys are compared by `=`. -/
abbrev Dictionary (α : Type) := List (α × Nat)

namespace Dictionary

def atIfAbsent (dictionary : Dictionary α) (key : α) : Option Nat :=
  (dictionary.find? fun association => key == association.1).map Prod.snd

def atIfAbsentPut (dictionary : Dictionary α) (key : α) (value : Nat) : Dictionary α :=
  if (dictionary.atIfAbsent key).isSome then dictionary else dictionary ++ [(key, value)]

end Dictionary

/-- The comparison of the window at `k` with the collection, up to a difference. -/
def differenceFrom (aCollection self : List α) (k i : Nat) : Option Nat :=
  if i ≤ aCollection.length then do
    let expected ← elementAt aCollection i
    let element ← elementAt self (k + i - 1)
    if expected == element then differenceFrom aCollection self k (i + 1) else some i
  else some i
termination_by aCollection.length + 1 - i

/-- The search by skips; the delta is found from the element behind the window. -/
def skippingFrom (aCollection self : List α) (stop : Nat) (delta : α → Option Nat) :
    (fuel k : Nat) → Option Nat
  | 0, _ => none
  | fuel + 1, k => do
    let m := aCollection.length
    if k + m - 1 ≤ stop then
      let i ← differenceFrom aCollection self k 1
      if m < i then some k
      else if stop < k + m then some 0
      else
        let object ← elementAt self (k + m)
        let delta' ← delta object
        skippingFrom aCollection self stop delta fuel (k + delta')
    else some 0

namespace SequenceableCollection

def td1 (self : List α) : Dictionary α :=
  self.zipIdx.foldr (fun (object, i) td1 => td1.atIfAbsentPut object (self.length - i)) []

def indexOfSubcollectionTd1 (self aCollection : List α) (start stop : Nat)
    (aDictionary : Dictionary α) (fuel : Nat) : Option Nat :=
  let m := aCollection.length
  if m = 0 then some 0
  else skippingFrom aCollection self stop
    (fun object => some ((aDictionary.atIfAbsent object).getD (m + 1))) fuel start

/-- The rest of the collection is compared where its first element is found. -/
def restFrom (self aCollection : List α) (i j : Nat) : Option Nat :=
  if j ≤ aCollection.length then do
    let element ← elementAt self (i + j - 1)
    let expected ← elementAt aCollection j
    if element == expected then restFrom self aCollection i (j + 1) else some j
  else some j
termination_by aCollection.length + 1 - j

def indexOfSubcollectionFrom (self aCollection : List α) (first : α) (n : Int) (i : Nat) :
    Option Nat :=
  if i ≤ n then do
    let element ← elementAt self i
    if element == first then
      let j ← restFrom self aCollection i 2
      if aCollection.length < j then some i
      else indexOfSubcollectionFrom self aCollection first n (i + 1)
    else indexOfSubcollectionFrom self aCollection first n (i + 1)
  else some 0
termination_by (n + 1 - i).toNat

def indexOfSubcollectionStartingAt (self aCollection : List α) (anInteger : Nat) : Option Nat := do
  let m := aCollection.length
  if m = 0 then some 0
  else
    let first ← elementAt aCollection 1
    indexOfSubcollectionFrom self aCollection first (self.length - m + 1) anInteger

end SequenceableCollection

end Sequences

namespace CharacterArray

/-- Characters are known by their codes. -/
def indexOfStringLoop (self aString : List Nat) (limit base : Int) (i : Nat) : Option Nat :=
  if base > limit then some 0
  else if i ≤ aString.length then do
    let element ← elementAt self (base + i).toNat
    let expected ← elementAt aString i
    if element == expected then indexOfStringLoop self aString limit base (i + 1)
    else indexOfStringLoop self aString limit (base + 1) 1
  else some (if i > 1 then (base + 1).toNat else 0)
termination_by ((limit + 1 - base).toNat, aString.length + 1 - i)

def indexOfString (self aString : List Nat) (start stop : Nat) : Option Nat :=
  indexOfStringLoop self aString (stop - aString.length) (start - 1) 1

def indexOfLastStringLoop (self aString : List Nat) (limit base : Int) (i : Nat) : Option Nat :=
  if base < limit then some 0
  else if i ≤ aString.length then do
    let element ← elementAt self (base - i).toNat
    let expected ← elementAt aString (aString.length - i + 1)
    if element == expected then indexOfLastStringLoop self aString limit base (i + 1)
    else indexOfLastStringLoop self aString limit (base - 1) 1
  else some (if i > 1 then (base - aString.length).toNat else 0)
termination_by ((base + 1 - limit).toNat, aString.length + 1 - i)

def indexOfLastString (self aString : List Nat) (start stop : Nat) : Option Nat :=
  indexOfLastStringLoop self aString (aString.length + start) (stop + 1) 1

end CharacterArray

/-- A skip table: an array of 256 slots or a dictionary, both by the code plus one. -/
inductive Table where
  | array (slots : List (Option Nat))
  | dictionary (associations : Dictionary Nat)

namespace Table

/-- `at:`; an index that is not there is an error. -/
def «at» : Table → Nat → Option (Option Nat)
  | array slots, index => elementAt slots index
  | dictionary associations, key => (associations.atIfAbsent key).map some

/-- `at:ifAbsent: nil`. -/
def atIfAbsent : Table → Nat → Option Nat
  | array slots, index =>
    if 1 ≤ index ∧ index ≤ slots.length then (elementAt slots index).join else none
  | dictionary associations, key => associations.atIfAbsent key

end Table

/-- The classes of strings. -/
inductive Kind where
  | string
  | symbol
  | wideString
deriving DecidableEq

/-- A string as the codes of its characters; a byte holds the code of a narrow one. -/
structure Text where
  kind : Kind
  codes : List Nat
  narrow : kind ≠ .wideString → ∀ code ∈ codes, code < 256

/-- The table of a string of bytes. -/
def byteTable (codes : List Nat) : List (Option Nat) :=
  codes.zipIdx.foldr (fun (byte, i) td1 =>
    if elementAt td1 (byte + 1) = some none then td1.set byte (some (codes.length - i)) else td1)
    (List.replicate 256 none)

/-- The search in a string of bytes, with the table indexed by `at:`. -/
def byteSearch (self aString : List Nat) (start stop : Nat) (anArray : Table) (fuel : Nat) :
    Option Nat :=
  let m := aString.length
  if m = 0 then some 0
  else skippingFrom aString self stop
    (fun byte => (anArray.at (byte + 1)).map fun delta => delta.getD (m + 1)) fuel start

namespace String

def td1 (self : List Nat) : Table :=
  .array (byteTable self)

def indexOfStringTd1 (self aString : List Nat) (start stop : Nat) (anArray : Table) (fuel : Nat) :
    Option Nat :=
  byteSearch self aString start stop anArray fuel

end String

namespace Symbol

def td1 (self : List Nat) : Table :=
  .array (byteTable self)

def indexOfStringTd1 (self aString : List Nat) (start stop : Nat) (anArray : Table) (fuel : Nat) :
    Option Nat :=
  byteSearch self aString start stop anArray fuel

end Symbol

namespace WideString

def td1 (self : List Nat) : Table :=
  .dictionary <| self.zipIdx.foldr
    (fun (code, i) td1 => td1.atIfAbsentPut (code + 1) (self.length - i)) []

def indexOfStringTd1 (self aString : List Nat) (start stop : Nat) (anArray : Table) (fuel : Nat) :
    Option Nat :=
  let m := aString.length
  if m = 0 then some 0
  else skippingFrom aString self stop
    (fun code => some ((anArray.atIfAbsent (code + 1)).getD (m + 1))) fuel start

end WideString

namespace Text

def td1 (self : Text) : Table :=
  match self.kind with
  | .string => String.td1 self.codes
  | .symbol => Symbol.td1 self.codes
  | .wideString => WideString.td1 self.codes

def indexOfStringTd1 (self aString : Text) (start stop : Nat) (anArray : Table) (fuel : Nat) :
    Option Nat :=
  match self.kind with
  | .string => String.indexOfStringTd1 self.codes aString.codes start stop anArray fuel
  | .symbol => Symbol.indexOfStringTd1 self.codes aString.codes start stop anArray fuel
  | .wideString => WideString.indexOfStringTd1 self.codes aString.codes start stop anArray fuel

/-- Strings search for parts of them as for strings. -/
def indexOfSubcollectionTd1 (self aString : Text) (start stop : Nat) (anArray : Table)
    (fuel : Nat) : Option Nat :=
  self.indexOfStringTd1 aString start stop anArray fuel

end Text

end Egg.Strings
