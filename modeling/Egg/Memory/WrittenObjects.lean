import Egg.Memory.WrittenSegment

/-! What the file of a writer holds where an object was laid out, and that it is a well-formed
segment. -/
namespace Egg.Memory

open Egg.Data HeapObject
open Egg.Unicode (Text)

theorem numberBytes_getElem? (width value index : Nat) (byte : UInt8)
    (found : (numberBytes width value)[index]? = some byte) :
    byte = UInt8.ofNat (value / 256 ^ index) := by
  induction width generalizing value index with
  | zero => cases found
  | succ width ih =>
    cases index with
    | zero =>
      rw [pow_zero, Nat.div_one]
      exact (Option.some.inj found).symm
    | succ index =>
      rw [pow_succ', ← Nat.div_div_eq_div_mul]
      exact ih _ _ found

theorem load_numberBytes {memory : Bytes} {address width value : Nat}
    (holds : Bytes.HoldsAt memory address (numberBytes width value)) :
    memory.load address width = value % 256 ^ width := by
  apply Bytes.load_of_digits
  intro index inside
  have long : index < (numberBytes width value).length := by
    rwa [numberBytes_length]
  have here := holds index _ (List.getElem?_eq_getElem long)
  rw [here]
  exact numberBytes_getElem? width value index _ (List.getElem?_eq_getElem long)

theorem load_integerBytes {memory : Bytes} {address width : Nat} {integer : Int}
    (holds : Bytes.HoldsAt memory address (integerBytes width integer)) :
    memory.load address width = (integer % 256 ^ width).toNat := by
  have positive : (0 : Int) < 256 ^ width := Int.pow_pos (by decide)
  have small := Int.emod_lt_of_pos integer positive
  have natural := Int.emod_nonneg integer positive.ne'
  have bound : (integer % 256 ^ width).toNat < 256 ^ width := by
    have cast : ((256 ^ width : Nat) : Int) = 256 ^ width := by norm_cast
    omega
  rw [load_numberBytes holds, Nat.mod_eq_of_lt bound]

/-- Items of one width, one after the other. -/
theorem holdsAt_item {α : Type} {memory : Bytes} {address width : Nat} {encode : α → List UInt8}
    {items : List α} (each : ∀ item, (encode item).length = width)
    (holds : Bytes.HoldsAt memory address (items.flatMap encode)) {index : Nat} {item : α}
    (found : items[index]? = some item) :
    Bytes.HoldsAt memory (address + index * width) (encode item) := by
  induction items generalizing address index with
  | nil => cases found
  | cons first items ih =>
    rw [List.flatMap_cons] at holds
    cases index with
    | zero =>
      rw [Nat.zero_mul, Nat.add_zero, ← Option.some.inj found]
      exact holds.left
    | succ index =>
      have rest := holds.right
      rw [each] at rest
      have later := ih rest found
      rwa [Nat.succ_mul, Nat.add_comm (index * width), ← Nat.add_assoc]

namespace NativeWriter

variable {ι : Type} [DecidableEq ι] {writer : NativeWriter ι}

section Closed

variable (closed : writer.Closed)

include closed

/-! ### Places -/

theorem Closed.place_header {id : ι} (here : id ∈ writer.stored) :
    objectsOffset + objectHeaderSizeInBytes (writer.heap id) ≤ writer.place id := by
  obtain ⟨front, back, split⟩ := List.append_of_mem here
  rw [closed.place_stored split]
  omega

theorem Closed.place_body {id : ι} (here : id ∈ writer.stored) :
    writer.place id + (writer.heap id).body.sizeInBytes ≤ writer.size := by
  obtain ⟨front, back, split⟩ := List.append_of_mem here
  rw [closed.place_stored split, size_eq, split, areaSize_append, areaSize_cons]
  omega

/-- An earlier object ends before the header of a later one. -/
theorem Closed.place_before {front back : List ι} {id other : ι}
    (split : writer.stored = front ++ id :: back) (before : other ∈ front) :
    writer.place other + (writer.heap other).body.sizeInBytes +
      objectHeaderSizeInBytes (writer.heap id) ≤ writer.place id := by
  obtain ⟨first, second, rfl⟩ := List.append_of_mem before
  have earlier : writer.stored = first ++ other :: (second ++ id :: back) := by
    rw [split, List.append_assoc, List.cons_append]
  rw [closed.place_stored split, closed.place_stored earlier, areaSize_append, areaSize_cons]
  omega

/-- The bytes of the file that are an object's: its header and its body. -/
def Covers (writer : NativeWriter ι) (id : ι) (place : Nat) : Prop :=
  writer.place id - objectHeaderSizeInBytes (writer.heap id) ≤ place ∧
    place < writer.place id + (writer.heap id).body.sizeInBytes

theorem Closed.covers_unique {id other : ι} {place : Nat} (here : id ∈ writer.stored)
    (there : other ∈ writer.stored) (covers : writer.Covers id place)
    (covers_other : writer.Covers other place) : other = id := by
  obtain ⟨front, back, split⟩ := List.append_of_mem here
  have header := closed.place_header here
  have header_other := closed.place_header there
  rw [Covers] at covers covers_other
  rw [split, List.mem_append, List.mem_cons] at there
  rcases there with before | same | after
  · have apart := closed.place_before split before
    omega
  · exact same
  · obtain ⟨middle, last, rfl⟩ := List.append_of_mem after
    have later : writer.stored = (front ++ id :: middle) ++ other :: last := by
      rw [split, List.append_assoc, List.cons_append]
    have apart := closed.place_before later (List.mem_append_right _ (List.mem_cons_self ..))
    omega

/-- Wherever the headers can be read, the objects stand one after the other. -/
theorem Closed.tiles {memory : Bytes} {shift : Nat}
    (flags_eq : ∀ id ∈ writer.stored, flags memory (shift + writer.place id) =
      (writer.heap id).flags)
    (size_eq : ∀ id ∈ writer.stored, HeapObject.size memory (shift + writer.place id) =
      (writer.heap id).body.headerSize) :
    Tiles memory (shift + objectsOffset) (shift + writer.size)
      (writer.stored.map fun id => shift + writer.place id) := by
  have from_front : ∀ front back, writer.stored = front ++ back →
      Tiles memory (shift + (objectsOffset + writer.areaSize front)) (shift + writer.size)
        (back.map fun id => shift + writer.place id) := by
    intro front back
    induction back generalizing front with
    | nil =>
      intro split
      rw [List.append_nil] at split
      rw [NativeWriter.size_eq, split]
      rfl
    | cons id back ih =>
      intro split
      have here : id ∈ writer.stored := split ▸ List.mem_append_right _ (List.mem_cons_self ..)
      have small : isSmall memory (shift + writer.place id) = !(writer.heap id).isLarge := by
        rw [isSmall, testFlags, flags_eq id here, ImageObject.isLarge, Bool.not_not]
      have whole : wholeBody memory (shift + writer.place id) =
          (writer.heap id).body.sizeInBytes := by
        rw [wholeBody, isBytes, testFlags, flags_eq id here, (writer.heap id).bytes_flag,
          size_eq id here]
        cases (writer.heap id).body <;> rfl
      have next := ih (front ++ [id]) (by rw [split, List.append_assoc, List.singleton_append])
      have placed := closed.place_stored split
      refine ⟨?_, ?_⟩
      · have header : HeaderAt memory (shift + (objectsOffset + writer.areaSize front))
            (shift + writer.place id) := by
          rw [HeaderAt, small, placed, objectHeaderSizeInBytes]
          cases (writer.heap id).isLarge with
          | false => exact (Nat.add_assoc ..).symm
          | true => exact (Nat.add_assoc ..).symm
        exact header
      · have reached : shift + writer.place id + wholeBody memory (shift + writer.place id) =
            shift + (objectsOffset + writer.areaSize (front ++ [id])) := by
          rw [whole, placed, areaSize_append, areaSize_cons]
          have none : writer.areaSize [] = 0 := rfl
          omega
        rw [reached]
        exact next
  exact from_front [] writer.stored rfl

end Closed

/-! ### Objects -/

/-- What a memory holds of an object of the file, as it was written. -/
structure Held (writer : NativeWriter ι) (memory : Bytes) (object : Nat) (id : ι) : Prop where
  hash : memory.load (object - 8) 2 = (writer.heap id).hash.toNat
  flags : flags memory object = (writer.heap id).flags
  size : HeapObject.size memory object = (writer.heap id).body.headerSize
  behavior : basicBehavior memory object =
    (writer.encoding (.object (writer.heap id).behavior) % 256 ^ 4).toNat
  slot : ∀ index slot, (writer.heap id).body.pointers[index]? = some slot →
    HeapObject.slot memory object index = writer.word slot
  bytes : (writer.heap id).body.isBytes = true →
    Bytes.HoldsAt memory object (writer.bodyBytes (writer.heap id).body)

omit [DecidableEq ι] in
theorem pointers_length (body : Body ι) :
    (if body.isBytes then 0 else body.headerSize) = body.pointers.length := by
  cases body <;> rfl

theorem Held.isBytes {memory : Bytes} {object : Nat} {id : ι}
    (held : writer.Held memory object id) :
    HeapObject.isBytes memory object = (writer.heap id).body.isBytes := by
  rw [HeapObject.isBytes, testFlags, held.flags, (writer.heap id).bytes_flag]

theorem Held.pointersSize {memory : Bytes} {object : Nat} {id : ι}
    (held : writer.Held memory object id) :
    HeapObject.pointersSize memory object = (writer.heap id).body.pointers.length := by
  rw [HeapObject.pointersSize, held.isBytes, held.size, pointers_length]

theorem Held.wholeBody {memory : Bytes} {object : Nat} {id : ι}
    (held : writer.Held memory object id) :
    Memory.wholeBody memory object = (writer.heap id).body.sizeInBytes := by
  rw [Memory.wholeBody, held.isBytes, held.size]
  cases (writer.heap id).body <;> rfl

theorem holds_object {front back : List ι} {id : ι}
    (split : writer.stored = front ++ id :: back) :
    Bytes.HoldsAt writer.segmentFile.memory (objectsOffset + writer.areaSize front)
      (writer.objectBytes id) := by
  have position : writer.segmentFile.headerBytes.length = objectsOffset := by
    simp only [SegmentFile.headerBytes, List.length_append, numberBytes_length]
    rfl
  have image : Bytes.HoldsAt writer.segmentFile.memory 0 writer.segmentFile.image :=
    Bytes.holdsAt_copy _ 0 _
  have area := image.right
  have listed : writer.segmentFile.area = front.flatMap writer.objectBytes ++
      (writer.objectBytes id ++ back.flatMap writer.objectBytes) := by
    have all : writer.segmentFile.area = writer.stored.flatMap writer.objectBytes := rfl
    rw [all, split, List.flatMap_append, List.flatMap_cons]
  rw [Nat.zero_add, position, listed] at area
  have behind := area.right
  rw [area_length] at behind
  exact behind.left

section Closed

variable (closed : writer.Closed)

include closed

theorem Closed.held {id : ι} (here : id ∈ writer.stored) :
    writer.Held writer.segmentFile.memory (writer.place id) id := by
  obtain ⟨front, back, split⟩ := List.append_of_mem here
  have placed := closed.place_stored split
  have object := holds_object split
  rw [objectBytes] at object
  have header := object.left
  have body := object.right
  rw [objectHeaderBytes_length, ← placed] at body
  have optional : (if (writer.heap id).isLarge then
      numberBytes 4 (writer.heap id).body.headerSize ++ numberBytes 4 0 else []).length + 8 =
      objectHeaderSizeInBytes (writer.heap id) := by
    rw [objectHeaderSizeInBytes]
    split
    · rw [List.length_append, numberBytes_length, numberBytes_length]
    · rfl
  rw [objectHeaderBytes] at header
  have small := header.right
  have start : objectsOffset + writer.areaSize front + (if (writer.heap id).isLarge then
      numberBytes 4 (writer.heap id).body.headerSize ++ numberBytes 4 0 else []).length =
      writer.place id - 8 := by
    omega
  have above := closed.place_header here
  rw [objectsOffset] at above
  rw [start] at small
  have sizes := small.right
  rw [numberBytes_length] at sizes
  have others := sizes.right.right
  have flags_at : writer.place id - 5 = writer.place id - 8 + 2 + 1 := by omega
  have flags_eq : flags writer.segmentFile.memory (writer.place id) = (writer.heap id).flags := by
    rw [flags, flags_at]
    exact sizes.right.head
  have is_small : isSmall writer.segmentFile.memory (writer.place id) =
      !(writer.heap id).isLarge := by
    rw [isSmall, testFlags, flags_eq, ImageObject.isLarge, Bool.not_not]
  refine ⟨?_, flags_eq, ?_, ?_, ?_, ?_⟩
  · rw [load_numberBytes small.left]
    exact Nat.mod_eq_of_lt (writer.heap id).hash.toNat_lt
  · rw [HeapObject.size, is_small]
    cases large : (writer.heap id).isLarge with
    | false =>
      have flagged := large
      rw [ImageObject.isLarge, Bool.not_eq_false'] at flagged
      have bound := (writer.heap id).small flagged
      have size_at : writer.place id - 6 = writer.place id - 8 + 2 := by omega
      have byte := sizes.left.head
      rw [large, if_neg Bool.false_ne_true] at byte
      rw [Bool.not_false, if_pos rfl, smallSize, size_at, Bytes.load_one, byte,
        UInt8.toNat_ofNat']
      rw [maxSmallSize] at bound
      omega
    | true =>
      have sized := (writer.heap id).size
      rw [objectHeaderSizeInBytes, large, if_pos rfl] at placed
      rw [large, if_pos rfl] at header
      have size_at : writer.place id - 16 = objectsOffset + writer.areaSize front := by omega
      rw [Bool.not_true, if_neg Bool.false_ne_true, largeSize, size_at,
        load_numberBytes header.left.left]
      omega
  · have behavior_at : writer.place id - 4 = writer.place id - 8 + 2 + 1 + 1 := by omega
    rw [basicBehavior, behavior_at]
    exact load_integerBytes others
  · intro index slot found
    rw [HeapObject.slot, slotAddress, wordSize]
    cases shape : (writer.heap id).body with
    | bytes held => rw [shape] at found; cases found
    | text characters => rw [shape] at found; cases found
    | slots held =>
      rw [shape] at found body
      exact load_integerBytes (holdsAt_item (fun _ => integerBytes_length 8 _) body found)
  · exact fun _ => body

end Closed

end NativeWriter

end Egg.Memory
