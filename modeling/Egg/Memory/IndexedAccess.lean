import Egg.Memory.HeapObject

/-! Access to the indexed elements of an object, which come after its named slots. -/
namespace Egg.Memory

open Egg.Data

def isNamedFlag : UInt8 := 0x04

/-- Zero-based slots of behaviors and species. -/
def behaviorClassOffset : Nat := 0
def speciesFormatOffset : Nat := 2

/-- What an `int` keeps of an integer. -/
def narrow (integer : Int) : Int := integer.bmod (2 ^ 32)

/-- What an `unsigned` keeps of an integer. -/
def unsigned (integer : Int) : Nat := (integer % 2 ^ 32).toNat

/-- What a variable of a frame holds. -/
inductive Oop where
  | smallInteger (value : Int)
  | object (address : Nat)

/-- How a primitive that writes ends. -/
inductive Put where
  | done (memory : Bytes)
  | failed
  | error (message : String)

namespace HeapObject

def isNamed (memory : Bytes) (object : Nat) : Bool := testFlags memory object isNamedFlag

/-- The slot and the byte at a one-based index, which is taken for an unsigned one. -/
def slotAt (object : Nat) (index : Int) : Nat := slotAddress object (unsigned (index - 1))
def byteAt (object : Nat) (index : Int) : Nat := object + unsigned (index - 1)

end HeapObject

open HeapObject

section Runtime

variable (addressSpace : Nat) (memory : Bytes)

def behaviorOf (object : Nat) : Nat := basicBehavior memory object ||| addressSpace

def behaviorClass (behavior : Nat) : Nat := slot memory behavior behaviorClassOffset

def speciesOf (object : Nat) : Nat := behaviorClass memory (behaviorOf addressSpace memory object)

/-- The lowest seven bits of the format, without its tag. -/
def speciesInstanceSize (species : Nat) : Nat := slot memory species speciesFormatOffset / 2 % 128

def indexedSlotAt (object : Nat) (index : Int) : Nat :=
  let index := narrow index
  let slot := if isNamed memory object then
      index + speciesInstanceSize memory (speciesOf addressSpace memory object)
    else index
  slotAt object slot

def primitiveAt : Oop → Oop → Option Nat
  | .smallInteger _, _ => none
  | .object _, .object _ => none
  | .object receiver, .smallInteger index =>
    if isBytes memory receiver then
      if index < 1 ∨ unsigned (index - 1) ≥ size memory receiver then none
      else some ((memory (byteAt receiver index)).toNat * 2 + 1)
    else
      let instSize := if isNamed memory receiver then
        speciesInstanceSize memory (speciesOf addressSpace memory receiver) else 0
      let rawSlot := if isNamed memory receiver then index + instSize else index
      if rawSlot < 1 ∨ unsigned (rawSlot - 1) ≥ size memory receiver then none
      else some (memory.load (indexedSlotAt addressSpace memory receiver index) 8)

/-- Nothing is checked but that the receiver is an object and the index an integer. -/
def primitiveAtPut : Oop → Oop → UInt64 → Put
  | .smallInteger _, _, _ => .error "primitiveAtPut: receiver must not be an integer"
  | .object _, .object _, _ => .error "primitiveAtPut: index must be an integer"
  | .object receiver, .smallInteger index, value =>
    if isBytes memory receiver then
      let native := value.toNat / 2
      .done (memory.store (byteAt receiver index) 1 (native % 256))
    else
      .done (memory.store (indexedSlotAt addressSpace memory receiver index) 8 value.toNat)

/-! ### Elements -/

/-- The slots before the first element. -/
def namedSize (object : Nat) : Nat :=
  if isBytes memory object then 0
  else if isNamed memory object then speciesInstanceSize memory (speciesOf addressSpace memory object)
  else 0

def indexedSize (object : Nat) : Nat := size memory object - namedSize addressSpace memory object

def elementWidth (object : Nat) : Nat := if isBytes memory object then 1 else wordSize

def elementAddress (object : Nat) (index : Nat) : Nat :=
  object + (namedSize addressSpace memory object + (index - 1)) * elementWidth memory object

def InRange (object : Nat) (index : Int) : Prop :=
  1 ≤ index ∧ index ≤ indexedSize addressSpace memory object

instance (object : Nat) (index : Int) : Decidable (InRange addressSpace memory object index) :=
  inferInstanceAs (Decidable (1 ≤ index ∧ index ≤ indexedSize addressSpace memory object))

/-- The word for what the bytes of an element are. -/
def elementWord (object bytes : Nat) : Nat := if isBytes memory object then bytes * 2 + 1 else bytes

/-- The bytes of an element for a word. -/
def elementBytes (object : Nat) (word : UInt64) : Nat :=
  if isBytes memory object then word.toNat / 2 % 256 else word.toNat

/-- The element is read where there is one. -/
def ReadsSlot (object : Nat) (index : Int) (outcome : Option Nat) : Prop :=
  if InRange addressSpace memory object index then
    outcome = some (elementWord memory object
      (memory.load (elementAddress addressSpace memory object index.toNat) (elementWidth memory object)))
  else outcome = none

/-- The element is written where there is one, and no byte but those of the element. -/
def WritesSlot (object : Nat) (index : Int) (value : UInt64) (outcome : Put) : Prop :=
  if InRange addressSpace memory object index then
    ∃ other, outcome = .done other ∧
      other.load (elementAddress addressSpace memory object index.toNat)
        (elementWidth memory object) = elementBytes memory object value ∧
      Bytes.SameOutside (elementAddress addressSpace memory object index.toNat)
        (elementAddress addressSpace memory object index.toNat + elementWidth memory object) memory other
  else outcome = .failed

end Runtime

section Confinement

variable {addressSpace : Nat} {memory : Bytes} {object : Nat} {index : Int}

theorem size_lt : size memory object < 2 ^ 32 := by
  rw [size]
  split
  · have bound : smallSize memory object < 256 ^ 1 := Bytes.load_lt
    exact Nat.lt_trans bound (by decide)
  · have bound : largeSize memory object < 256 ^ 4 := Bytes.load_lt
    exact bound

theorem namedSize_lt : namedSize addressSpace memory object < 128 := by
  rw [namedSize]
  split_ifs
  · decide
  · exact Nat.mod_lt _ (by decide)
  · decide

theorem unsigned_of_lt (least : 0 ≤ index) (below : index < 2 ^ 32) : unsigned index = index.toNat := by
  rw [unsigned, Int.emod_eq_of_lt least below]

theorem unsigned_narrow_add (offset : Int) :
    unsigned (narrow index + offset) = unsigned (index + offset) := by
  have same : narrow index % 2 ^ 32 = index % 2 ^ 32 := Int.bmod_emod
  rw [unsigned, unsigned, Int.add_emod, same, ← Int.add_emod]

/-- Where the body is read or written, whether or not there is an element. -/
def place (addressSpace : Nat) (memory : Bytes) (object : Nat) (index : Int) : Nat :=
  object + unsigned (index + namedSize addressSpace memory object - 1) * elementWidth memory object

theorem byteAt_eq (bytes : isBytes memory object = true) :
    byteAt object index = place addressSpace memory object index := by
  rw [byteAt, place, namedSize, elementWidth, if_pos bytes, if_pos bytes, Nat.mul_one]
  norm_num

theorem indexedSlotAt_eq (pointers : ¬ isBytes memory object = true) :
    indexedSlotAt addressSpace memory object index = place addressSpace memory object index := by
  rw [indexedSlotAt, place, namedSize, elementWidth, if_neg pointers, if_neg pointers]
  simp only [slotAt, slotAddress]
  split_ifs with named
  · rw [add_sub_assoc, unsigned_narrow_add, add_sub_assoc]
  · rw [sub_eq_add_neg, unsigned_narrow_add, ← sub_eq_add_neg]
    norm_num

theorem primitiveAt_eq : primitiveAt addressSpace memory (.object object) (.smallInteger index) =
    if index + namedSize addressSpace memory object < 1 ∨
        unsigned (index + namedSize addressSpace memory object - 1) ≥ size memory object then none
    else some (elementWord memory object
      (memory.load (place addressSpace memory object index) (elementWidth memory object))) := by
  rw [primitiveAt]
  by_cases bytes : isBytes memory object = true
  · have none_named : namedSize addressSpace memory object = 0 := if_pos bytes
    rw [if_pos bytes, none_named, @byteAt_eq addressSpace _ _ _ bytes, elementWord,
      elementWidth, if_pos bytes, if_pos bytes, Bytes.load_one]
    norm_num
  · rw [if_neg bytes, indexedSlotAt_eq bytes, elementWord, elementWidth, namedSize, if_neg bytes,
      if_neg bytes, if_neg bytes]
    by_cases named : isNamed memory object = true
    · simp only [if_pos named]
      rfl
    · simp only [if_neg named, Nat.cast_zero, add_zero]
      rfl

theorem primitiveAtPut_eq (value : UInt64) :
    primitiveAtPut addressSpace memory (.object object) (.smallInteger index) value =
      .done (memory.store (place addressSpace memory object index) (elementWidth memory object)
        (elementBytes memory object value)) := by
  rw [primitiveAtPut, elementWidth, elementBytes]
  by_cases bytes : isBytes memory object = true
  · rw [if_pos bytes, if_pos bytes, if_pos bytes, @byteAt_eq addressSpace _ _ _ bytes]
  · rw [if_neg bytes, if_neg bytes, if_neg bytes, indexedSlotAt_eq bytes]
    rfl

theorem place_eq (range : InRange addressSpace memory object index) :
    place addressSpace memory object index =
      elementAddress addressSpace memory object index.toNat := by
  obtain ⟨positive, inside⟩ := range
  have sized : size memory object < 2 ^ 32 := size_lt
  unfold indexedSize at inside
  rw [place, elementAddress, unsigned_of_lt (by lia) (by lia)]
  congr 2
  lia

theorem elementBytes_lt (value : UInt64) :
    elementBytes memory object value < 256 ^ elementWidth memory object := by
  rw [elementBytes, elementWidth]
  split_ifs
  · lia
  · exact value.toNat_lt

theorem readsSlot_iff : ReadsSlot addressSpace memory object index
      (primitiveAt addressSpace memory (.object object) (.smallInteger index)) ↔
    (1 ≤ index ∨ index + namedSize addressSpace memory object < 1 ∨
        size memory object < index + namedSize addressSpace memory object) ∧
      (index + namedSize addressSpace memory object ≤ 2 ^ 32 ∨
        size memory object ≤ unsigned (index + namedSize addressSpace memory object - 1)) := by
  have sized : size memory object < 2 ^ 32 := size_lt
  have named : namedSize addressSpace memory object < 128 := namedSize_lt
  rw [ReadsSlot, primitiveAt_eq]
  by_cases range : InRange addressSpace memory object index
  · obtain ⟨positive, inside⟩ := id range
    unfold indexedSize at inside
    have lower : unsigned (index + namedSize addressSpace memory object - 1) =
        (index + namedSize addressSpace memory object - 1).toNat :=
      unsigned_of_lt (by lia) (by lia)
    rw [if_pos range, if_neg (by lia), place_eq range]
    exact ⟨fun _ => ⟨by lia, by lia⟩, fun _ => rfl⟩
  · rw [if_neg range]
    have outside : 1 ≤ index → size memory object < index + namedSize addressSpace memory object := by
      intro positive
      by_contra within
      exact range ⟨positive, by unfold indexedSize; lia⟩
    have small : 1 ≤ index + namedSize addressSpace memory object →
        index + namedSize addressSpace memory object ≤ 2 ^ 32 →
        unsigned (index + namedSize addressSpace memory object - 1) =
          (index + namedSize addressSpace memory object - 1).toNat := by
      intro positive bounded
      exact unsigned_of_lt (by lia) (by lia)
    split_ifs with fails
    · simp only [true_iff]
      lia
    · simp only [false_iff]
      lia

theorem writesSlot_iff {value : UInt64} : WritesSlot addressSpace memory object index value
      (primitiveAtPut addressSpace memory (.object object) (.smallInteger index) value) ↔
    InRange addressSpace memory object index := by
  rw [WritesSlot, primitiveAtPut_eq]
  split_ifs with range
  · rw [place_eq range]
    refine ⟨fun _ => range, fun _ => ⟨_, rfl, ?_, ?_⟩⟩
    · exact Bytes.load_store (elementBytes_lt value)
    · intro address outside
      exact Bytes.store_outside outside
  · constructor
    · intro impossible
      cases impossible
    · intro inside
      exact absurd inside range

end Confinement

/-- Reading is confined except at the indices of the named slots and at those that thirty-two bits
do not tell from the index of a slot; writing is confined only where there is an element. -/
theorem indexedAccess_iff (addressSpace : Nat) (memory : Bytes) (object : Nat) (index : Int)
    (value : UInt64) :
    (ReadsSlot addressSpace memory object index
        (primitiveAt addressSpace memory (.object object) (.smallInteger index)) ↔
      (1 ≤ index ∨ index + namedSize addressSpace memory object < 1 ∨
        size memory object < index + namedSize addressSpace memory object) ∧
        (index + namedSize addressSpace memory object ≤ 2 ^ 32 ∨
          size memory object ≤ unsigned (index + namedSize addressSpace memory object - 1))) ∧
    (WritesSlot addressSpace memory object index value
        (primitiveAtPut addressSpace memory (.object object) (.smallInteger index) value) ↔
      1 ≤ index ∧ index ≤ indexedSize addressSpace memory object) :=
  ⟨readsSlot_iff, writesSlot_iff⟩

/-- An array of three slots at 104, of a class at 300 whose instances have two named slots. -/
def namedArray : Bytes := fun address =>
  if address = 98 then 3 else if address = 99 then 0x84 else if address = 100 then 200
  else if address = 200 then 44 else if address = 201 then 1 else if address = 316 then 5 else 0

/-- At the index zero the last named slot is read, and written. -/
theorem named_slot_exposed :
    indexedSize 0 namedArray 104 = 1 ∧
      ¬ ReadsSlot 0 namedArray 104 0 (primitiveAt 0 namedArray (.object 104) (.smallInteger 0)) ∧
      ¬ WritesSlot 0 namedArray 104 0 7
        (primitiveAtPut 0 namedArray (.object 104) (.smallInteger 0) 7) := by
  refine ⟨by decide +kernel, ?_, ?_⟩
  · rw [readsSlot_iff]
    decide +kernel
  · rw [writesSlot_iff]
    decide +kernel

end Egg.Memory
