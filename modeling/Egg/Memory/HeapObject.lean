import Egg.Data.Bytes

/-! Objects in memory: an object is the address after its header, and the header before it tells
how large the object is and whether its body holds pointers. -/
namespace Egg.Memory

open Egg.Data

/-- Flags of a small header. -/
def isBytesFlag : UInt8 := 0x01
def isArrayedFlag : UInt8 := 0x02
def isSmallFlag : UInt8 := 0x80

def maxSmallSize : Nat := 0xFF

/-- `WORD_SIZE`. -/
def wordSize : Nat := 8

namespace ObjectHeader

/-- The byte that a small header has its flags in. -/
def flags (memory : Bytes) (header : Nat) : UInt8 := memory (header + 3)

/-- The object of a header, small or large; in a large header the same byte belongs to its size. -/
def object (memory : Bytes) (header : Nat) : Nat :=
  if flags memory header &&& isSmallFlag ≠ 0 then header + 8 else header + 16

end ObjectHeader

namespace HeapObject

variable (memory : Bytes) (object : Nat)

def flags : UInt8 := memory (object - 5)
def testFlags (flag : UInt8) : Bool := flags memory object &&& flag == flag
def isBytes : Bool := testFlags memory object isBytesFlag
def isSmall : Bool := testFlags memory object isSmallFlag

def setFlags (flag : UInt8) : Bytes :=
  memory.store (object - 5) 1 (flags memory object ||| flag).toNat

def unsetFlags (flag : UInt8) : Bytes :=
  memory.store (object - 5) 1 (flags memory object &&& (flag ^^^ 0xFF)).toNat

def beBytes : Bytes := setFlags memory object isBytesFlag
def beArrayed : Bytes := setFlags memory object isArrayedFlag
def beSmall : Bytes := setFlags memory object isSmallFlag
def beLarge : Bytes := unsetFlags memory object isSmallFlag

def basicBehavior : Nat := memory.load (object - 4) 4

/-- Store the lower half of a behavior's address. -/
def behavior (address : Nat) : Bytes := memory.store (object - 4) 4 (address % 2 ^ 32)

def smallSize : Nat := memory.load (object - 6) 1
def largeSize : Nat := memory.load (object - 16) 4
def setSmallSize (size : Nat) : Bytes := memory.store (object - 6) 1 size
def setLargeSize (size : Nat) : Bytes := memory.store (object - 16) 4 size

def size : Nat := if isSmall memory object then smallSize memory object else largeSize memory object

/-- The size of the body, a multiple of the word size, in 32 bits. -/
def bodySizeInBytes : Nat :=
  if isBytes memory object then
    (size memory object + wordSize - 1) / wordSize * wordSize % 2 ^ 32
  else size memory object * wordSize % 2 ^ 32

def pointersSize : Nat := if isBytes memory object then 0 else size memory object

def slotAddress (index : Nat) : Nat := object + index * wordSize
def slot (index : Nat) : Nat := memory.load (slotAddress object index) 8
def setSlot (index word : Nat) : Bytes := memory.store (slotAddress object index) 8 word

def nextHeader : Nat := object + bodySizeInBytes memory object
def nextObject : Nat := ObjectHeader.object memory (nextHeader memory object)

end HeapObject

open HeapObject

theorem object_above (memory : Bytes) (header : Nat) : header + 8 ≤ ObjectHeader.object memory header := by
  rw [ObjectHeader.object]
  split <;> lia

theorem nextObject_above (memory : Bytes) (object : Nat) :
    object + 8 ≤ nextObject memory object :=
  Nat.le_trans (Nat.add_le_add_right (Nat.le_add_right ..) 8) (object_above ..)

/-! ### Objects one after the other -/

/-- The bytes that the body of an object needs, whatever its header can say of them. -/
def wholeBody (memory : Bytes) (object : Nat) : Nat :=
  if isBytes memory object then (size memory object + wordSize - 1) / wordSize * wordSize
  else size memory object * wordSize

/-- The header of the object starts there, small or large as its flags say. -/
def HeaderAt (memory : Bytes) (header object : Nat) : Prop :=
  if isSmall memory object then object = header + 8 else object = header + 16

/-- The objects fill the memory from the start to the limit, each one a header and a body. -/
def Tiles (memory : Bytes) (start limit : Nat) : List Nat → Prop
  | [] => start = limit
  | object :: objects => HeaderAt memory start object ∧
      Tiles memory (object + wholeBody memory object) limit objects

instance (memory : Bytes) (header object : Nat) : Decidable (HeaderAt memory header object) :=
  inferInstanceAs (Decidable
    (if isSmall memory object then object = header + 8 else object = header + 16))

instance Tiles.decidable (memory : Bytes) : (start limit : Nat) → (objects : List Nat) →
    Decidable (Tiles memory start limit objects)
  | start, limit, [] => inferInstanceAs (Decidable (start = limit))
  | start, limit, object :: objects =>
    have := decidable memory (object + wholeBody memory object) limit objects
    inferInstanceAs (Decidable (HeaderAt memory start object ∧
      Tiles memory (object + wholeBody memory object) limit objects))

/-- The header can tell the size: it leaves the flag bit alone and its bytes fit in 32 bits. -/
def Measurable (memory : Bytes) (object : Nat) : Prop :=
  size memory object < 2 ^ 31 ∧ wholeBody memory object < 2 ^ 32

instance (memory : Bytes) (object : Nat) : Decidable (Measurable memory object) :=
  inferInstanceAs (Decidable (size memory object < 2 ^ 31 ∧ wholeBody memory object < 2 ^ 32))

/-- The small flag is the highest bit of its byte. -/
theorem isSmallFlag_eq (flags : UInt8) :
    flags &&& isSmallFlag = if flags.toNat < 128 then 0 else isSmallFlag := by
  have all : ∀ number < 256, UInt8.ofNat number &&& isSmallFlag =
      if (UInt8.ofNat number).toNat < 128 then 0 else isSmallFlag := by
    decide +kernel
  have held := all flags.toNat flags.toNat_lt
  rwa [UInt8.ofNat_toNat] at held

theorem isSmall_iff (memory : Bytes) (object : Nat) :
    isSmall memory object = true ↔ 128 ≤ (flags memory object).toNat := by
  rw [isSmall, testFlags, isSmallFlag_eq, beq_iff_eq]
  split <;> simp_all [isSmallFlag]

theorem object_of_small {memory : Bytes} {header : Nat}
    (small : 128 ≤ (ObjectHeader.flags memory header).toNat) :
    ObjectHeader.object memory header = header + 8 := by
  rw [ObjectHeader.object, isSmallFlag_eq, if_neg (Nat.not_lt.mpr small)]
  exact if_pos (by decide)

theorem object_of_large {memory : Bytes} {header : Nat}
    (large : (ObjectHeader.flags memory header).toNat < 128) :
    ObjectHeader.object memory header = header + 16 := by
  rw [ObjectHeader.object, isSmallFlag_eq, if_pos large]
  exact if_neg (not_not.mpr rfl)

variable {memory other : Bytes} {start limit header object : Nat} {objects : List Nat}

theorem HeaderAt.above (at_header : HeaderAt memory header object) : header + 8 ≤ object := by
  rw [HeaderAt] at at_header
  split at at_header <;> lia

/-- The highest byte of a large size, where a small header has its flags. -/
theorem topByte_lt (bounded : memory.load header 4 < 2 ^ 31) :
    (ObjectHeader.flags memory header).toNat < 128 := by
  have top : memory.load header 4 = (memory header).toNat + 256 * ((memory (header + 1)).toNat +
      256 * ((memory (header + 2)).toNat + 256 * (memory (header + 3)).toNat)) := rfl
  rw [ObjectHeader.flags]
  lia

theorem HeaderAt.object_eq (at_header : HeaderAt memory header object)
    (measurable : Measurable memory object) : ObjectHeader.object memory header = object := by
  rw [HeaderAt] at at_header
  split at at_header
  next small =>
    subst at_header
    exact object_of_small ((isSmall_iff memory _).mp small)
  next large =>
    subst at_header
    have sized : largeSize memory (header + 16) < 2 ^ 31 := by
      have bounded := measurable.1
      rwa [size, if_neg large] at bounded
    exact object_of_large (topByte_lt sized)

theorem bodySizeInBytes_eq (measurable : Measurable memory object) :
    bodySizeInBytes memory object = wholeBody memory object := by
  have bounded := measurable.2
  rw [wholeBody] at bounded
  rw [bodySizeInBytes, wholeBody]
  split at bounded
  next bytes =>
    rw [if_pos bytes, if_pos bytes, Nat.mod_eq_of_lt bounded]
  next pointers =>
    rw [if_neg pointers, if_neg pointers, Nat.mod_eq_of_lt bounded]

theorem nextHeader_eq (measurable : Measurable memory object) :
    nextHeader memory object = object + wholeBody memory object := by
  rw [nextHeader, bodySizeInBytes_eq measurable]

theorem pointersSize_le : pointersSize memory object * wordSize ≤ wholeBody memory object := by
  rw [pointersSize, wholeBody]
  split
  · lia
  · exact Nat.le_refl _

/-! ### Moved copies -/

/-- The same header fields, but for the behavior. -/
structure SameHeader (memory : Bytes) (object : Nat) (other : Bytes) (target : Nat) : Prop where
  flags : flags other target = flags memory object
  size : size other target = size memory object

namespace SameHeader

variable {target : Nat} (same : SameHeader memory object other target)

include same

theorem isSmall : HeapObject.isSmall other target = HeapObject.isSmall memory object := by
  rw [HeapObject.isSmall, testFlags, same.flags, HeapObject.isSmall, testFlags]

theorem isBytes : HeapObject.isBytes other target = HeapObject.isBytes memory object := by
  rw [HeapObject.isBytes, testFlags, same.flags, HeapObject.isBytes, testFlags]

theorem wholeBody : wholeBody other target = Memory.wholeBody memory object := by
  rw [Memory.wholeBody, same.isBytes, same.size, Memory.wholeBody]

theorem pointersSize :
    HeapObject.pointersSize other target = HeapObject.pointersSize memory object := by
  rw [HeapObject.pointersSize, same.isBytes, same.size, HeapObject.pointersSize]

theorem measurable (measurable : Measurable memory object) : Measurable other target := by
  rw [Measurable, same.size, same.wholeBody]
  exact measurable

end SameHeader

/-- An object's header and those of the copy that stands so many bytes further. -/
theorem HeaderAt.same {shift : Nat} (at_header : HeaderAt memory header object)
    (equal : ∀ place, header ≤ place → place < object - 4 → other (shift + place) = memory place) :
    SameHeader memory object other (shift + object) := by
  have above := at_header.above
  have flags_eq : flags other (shift + object) = flags memory object := by
    rw [flags, Nat.add_sub_assoc (by lia)]
    exact equal _ (by lia) (by lia)
  have small_eq : isSmall other (shift + object) = isSmall memory object := by
    rw [isSmall, testFlags, flags_eq, isSmall, testFlags]
  refine ⟨flags_eq, ?_⟩
  rw [HeaderAt] at at_header
  rw [size, small_eq, size]
  split at at_header
  next small =>
    rw [if_pos small, if_pos small]
    refine Bytes.load_congr fun index inside => ?_
    rw [Nat.add_sub_assoc (by lia), Nat.add_assoc]
    exact equal _ (by lia) (by lia)
  next large =>
    rw [if_neg large, if_neg large]
    refine Bytes.load_congr fun index inside => ?_
    rw [Nat.add_sub_assoc (by lia), Nat.add_assoc]
    exact equal _ (by lia) (by lia)

theorem HeaderAt.moved {shift : Nat} (at_header : HeaderAt memory header object)
    (same : SameHeader memory object other (shift + object)) :
    HeaderAt other (shift + header) (shift + object) := by
  rw [HeaderAt] at at_header ⊢
  rw [same.isSmall]
  split at at_header
  next small => rw [if_pos small, at_header, Nat.add_assoc]
  next large => rw [if_neg large, at_header, Nat.add_assoc]

theorem Tiles.le (tiles : Tiles memory start limit objects) : start ≤ limit := by
  induction objects generalizing start with
  | nil => exact Nat.le_of_eq tiles
  | cons object objects ih =>
    have above := tiles.1.above
    have rest := ih tiles.2
    lia

/-- Where an object of the tiling stands. -/
theorem Tiles.object_inside (tiles : Tiles memory start limit objects)
    (member : object ∈ objects) : start + 8 ≤ object ∧ object + wholeBody memory object ≤ limit := by
  induction objects generalizing start with
  | nil => cases member
  | cons first objects ih =>
    have above := tiles.1.above
    rcases List.mem_cons.mp member with same | further
    · rw [same]
      exact ⟨above, tiles.2.le⟩
    · obtain ⟨low, high⟩ := ih tiles.2 further
      exact ⟨by lia, high⟩

/-- A later object has its header after the body of an earlier one. -/
theorem Tiles.apart {earlier : Nat} (tiles : Tiles memory start limit objects)
    (earlierMember : earlier ∈ objects) (member : object ∈ objects) (before : earlier < object) :
    earlier + wholeBody memory earlier + 8 ≤ object := by
  induction objects generalizing start with
  | nil => cases member
  | cons first objects ih =>
    rcases List.mem_cons.mp member with same | further
    · rcases List.mem_cons.mp earlierMember with sameEarlier | earlierFurther
      · lia
      · have after := (tiles.2.object_inside earlierFurther).1
        lia
    · rcases List.mem_cons.mp earlierMember with sameEarlier | earlierFurther
      · rw [sameEarlier]
        exact (tiles.2.object_inside further).1
      · exact ih tiles.2 earlierFurther further

/-- The same objects stand in a copy that is so many bytes further. -/
theorem Tiles.moved {shift : Nat} (tiles : Tiles memory start limit objects)
    (equal : ∀ place, start ≤ place → place < limit → other (shift + place) = memory place) :
    Tiles other (shift + start) (shift + limit) (objects.map (shift + ·)) := by
  induction objects generalizing start with
  | nil => exact congrArg (shift + ·) tiles
  | cons object objects ih =>
    have above := tiles.1.above
    have rest := tiles.2.le
    have same := tiles.1.same fun place low high => equal place low (by lia)
    refine ⟨tiles.1.moved same, ?_⟩
    rw [same.wholeBody, Nat.add_assoc]
    exact ih tiles.2 fun place low high => equal place (by lia) high

theorem Tiles.same_header (tiles : Tiles memory start limit objects) (member : object ∈ objects)
    (equal : ∀ place, start ≤ place → place < limit → other place = memory place) :
    SameHeader memory object other object := by
  induction objects generalizing start with
  | nil => cases member
  | cons first objects ih =>
    have above := tiles.1.above
    have rest := tiles.2.le
    rcases List.mem_cons.mp member with same | further
    · have moved : SameHeader memory first other (0 + first) :=
        tiles.1.same fun place low high => by rw [Nat.zero_add]; exact equal place low (by lia)
      rwa [Nat.zero_add, ← same] at moved
    · exact ih tiles.2 further fun place low high => equal place (by lia) high

/-- The same bytes hold the same objects. -/
theorem Tiles.congr (tiles : Tiles memory start limit objects)
    (equal : ∀ place, start ≤ place → place < limit → other place = memory place) :
    Tiles other start limit objects := by
  have moved : Tiles other (0 + start) (0 + limit) (objects.map (0 + ·)) :=
    tiles.moved fun place above below => by rw [Nat.zero_add]; exact equal place above below
  simpa using moved

theorem Tiles.append {middle : Nat} {more : List Nat} (tiles : Tiles memory start middle objects)
    (rest : Tiles memory middle limit more) : Tiles memory start limit (objects ++ more) := by
  induction objects generalizing start with
  | nil =>
    have reached : start = middle := tiles
    rw [reached]
    exact rest
  | cons object objects ih => exact ⟨tiles.1, ih tiles.2⟩

end Egg.Memory
