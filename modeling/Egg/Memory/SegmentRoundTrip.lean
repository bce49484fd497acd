import Egg.Memory.SegmentTables

/-! When the segment that is loaded from what a writer wrote is the object graph that was
written. -/
namespace Egg.Memory

open Egg.Data HeapObject FileImageSegment
open Egg.Unicode (Text)

namespace NativeWriter

variable {ι : Type} [DecidableEq ι] (writer : NativeWriter ι)

/-- An object in memory is the one that was written. -/
structure ObjectImage (platform : Platform) (imports : List Nat) (currentBase : Nat)
    (memory : Bytes) (id : ι) : Prop where
  hash : memory.load (currentBase + writer.place id - 8) 2 = (writer.heap id).hash.toNat
  flags : flags memory (currentBase + writer.place id) = (writer.heap id).flags
  size : HeapObject.size memory (currentBase + writer.place id) = (writer.heap id).body.headerSize
  behavior : writer.image currentBase imports (.object (writer.heap id).behavior) = some
    (platform.behaviorAddressSpace + basicBehavior memory (currentBase + writer.place id))
  slot : ∀ index slot, (writer.heap id).body.pointers[index]? = some slot →
    writer.image currentBase imports slot =
      some (HeapObject.slot memory (currentBase + writer.place id) index)
  bytes : Bytes.HoldsAt memory (currentBase + writer.place id) (writer.heap id).body.contents

/-- The objects of the segment are those that were written, one after the other, and the imports,
the exports and the module are theirs. -/
structure Isomorphic (platform : Platform) (imports : List Nat) (segment : FileImageSegment)
    (memory : Bytes) : Prop where
  objects : ∀ id ∈ writer.stored,
    writer.ObjectImage platform imports segment.currentBase memory id
  tiles : Tiles memory segment.spaceStart segment.spaceEnd
    (writer.stored.map fun id => segment.currentBase + writer.place id)
  injective : ∀ id ∈ writer.stored, ∀ other ∈ writer.stored,
    writer.place id = writer.place other → id = other
  descriptors : List.Forall₂ (fun descriptor entry =>
      List.Forall₂ (fun subscript text => ∃ string : List UInt8,
        segment.importStrings[subscript]? = some string ∧ string.map UInt8.toNat = text.codes)
      descriptor (SymbolicReference.descriptor (Prod.snd entry)))
    segment.importDescriptors writer.imports
  exports : ∀ entry ∈ writer.exports, ∃ (name : List UInt8) (address : Nat),
    name.map UInt8.toNat = entry.1.codes ∧ segment.exports name = some address ∧
      writer.image segment.currentBase imports entry.2 = some address
  module : writer.image segment.currentBase imports (.object writer.module) =
    some segment.header.module

/-- The address of a behavior is the one that its word in the file already has. -/
def BehaviorUnmoved (platform : Platform) (imports : List Nat) (currentBase : Nat) (id : ι) :
    Prop :=
  (writer.surrogateFor id ∈ writer.stored ∧ currentBase % 2 ^ 32 = writer.base % 2 ^ 32) ∨
    ∃ subscript : Nat, writer.imported[subscript]? = some (writer.surrogateFor id) ∧
      imports[subscript]? = some (platform.behaviorAddressSpace + (subscript * 4 + 2))

/-- What keeps a closed set of objects whole: the last object has a body or a behavior that stays
where it is, no wide string has more than zeros after as many bytes as it has characters, in a body
or in a table, and the exports are objects of the segment. -/
structure Survives (platform : Platform) (imports : List Nat) (currentBase : Nat) : Prop where
  last : ∀ front id, writer.stored = front ++ [id] → (writer.heap id).body.sizeInBytes = 0 →
    writer.BehaviorUnmoved platform imports currentBase (writer.heap id).behavior
  body : ∀ id ∈ writer.stored, ∀ longs, (writer.heap id).body = .text (.wideString longs) →
    ∀ byte ∈ (textContents (.wideString longs)).drop longs.length, byte = 0
  importText : ∀ text ∈ writer.importTexts, ∀ first,
    writer.importTexts.find? text.equals = some first →
      (writtenText first).map UInt8.toNat = text.codes
  name : ∀ entry ∈ writer.exports, (writtenText entry.1).map UInt8.toNat = entry.1.codes
  exported : ∀ entry ∈ writer.exports, writer.Movable imports currentBase entry.2

variable {writer} {platform : Platform} {imports : List Nat} {currentBase : Nat}

omit [DecidableEq ι] in
theorem contents_pointers (body : Body ι) (pointers : body.isBytes = false) :
    body.contents = [] := by
  cases body with
  | slots held => rfl
  | bytes held => cases pointers
  | text characters => cases pointers

section Closed

variable (closed : writer.Closed)

include closed

/-! ### What is not relocated -/

theorem Held.headerAt {id : ι} (here : id ∈ writer.stored) :
    HeaderAt writer.segmentFile.memory
      (writer.place id - objectHeaderSizeInBytes (writer.heap id)) (writer.place id) := by
  have above := closed.place_header here
  rw [HeaderAt, isSmall, testFlags, (closed.held here).flags]
  rw [objectHeaderSizeInBytes, ImageObject.isLarge] at above ⊢
  cases flagged : (writer.heap id).flags &&& isSmallFlag == isSmallFlag with
  | false =>
    rw [flagged] at above
    simp only [Bool.not_false, if_true, Bool.false_eq_true, if_false] at above ⊢
    lia
  | true =>
    rw [flagged] at above
    simp only [Bool.not_true, if_true, Bool.false_eq_true, if_false] at above ⊢
    lia

variable {loaded fixed : Bytes} (done : Fixed platform (writer.segmentFile.segment currentBase)
  imports writer.segmentFile.memory imageSegmentHeaderSize (writer.stored.map writer.place)
  loaded fixed)

include done

/-- A byte of an object that is not of its behavior or its slots stays. -/
theorem Closed.kept {id : ι} (here : id ∈ writer.stored) {place : Nat}
    (covers : writer.Covers id place)
    (outside : ¬ InWords writer.segmentFile.memory (writer.place id) place) :
    fixed (currentBase + place) = writer.segmentFile.memory place := by
  have above := closed.place_header here
  have below := closed.place_body here
  have inside := covers
  rw [Covers] at inside
  refine done.kept place ?_ ?_ fun object member _ words => ?_
  · rw [objectsOffset] at above
    rw [imageSegmentHeaderSize]
    lia
  · have size : (writer.segmentFile.segment currentBase).header.size = writer.size := rfl
    lia
  · obtain ⟨other, there, rfl⟩ := List.mem_map.mp member
    have held := closed.held there
    have fits : pointersSize writer.segmentFile.memory (writer.place other) * wordSize ≤
        wholeBody writer.segmentFile.memory (writer.place other) := pointersSize_le
    have header := closed.place_header there
    rw [held.wholeBody] at fits
    have covers_other : writer.Covers other place := by
      rw [InWords, slotAddress] at words
      have room : 8 ≤ objectHeaderSizeInBytes (writer.heap other) := by
        rw [objectHeaderSizeInBytes]
        split <;> lia
      rw [Covers]
      lia
    have same := closed.covers_unique here there covers covers_other
    exact outside (same ▸ words)

theorem Closed.kept_header {id : ι} (here : id ∈ writer.stored) {place : Nat}
    (above : writer.place id - objectHeaderSizeInBytes (writer.heap id) ≤ place)
    (below : place < writer.place id - 4) :
    fixed (currentBase + place) = writer.segmentFile.memory place := by
  refine closed.kept done here ⟨above, by lia⟩ fun words => ?_
  rw [InWords] at words
  lia

theorem Closed.same_header {id : ι} (here : id ∈ writer.stored) :
    SameHeader writer.segmentFile.memory (writer.place id) fixed
      (currentBase + writer.place id) :=
  (Held.headerAt closed here).same fun _ above below => closed.kept_header done here above below

theorem Closed.hash_kept {id : ι} (here : id ∈ writer.stored) :
    fixed.load (currentBase + writer.place id - 8) 2 = (writer.heap id).hash.toNat := by
  have above := closed.place_header here
  have room : 8 ≤ objectHeaderSizeInBytes (writer.heap id) := by
    rw [objectHeaderSizeInBytes]
    split <;> lia
  rw [← (closed.held here).hash]
  refine Bytes.load_congr fun index inside => ?_
  rw [Nat.add_sub_assoc (by lia), Nat.add_assoc]
  exact closed.kept_header done here (by lia) (by lia)

/-- A body of bytes is as it is in the file. -/
theorem Closed.body_kept {id : ι} (here : id ∈ writer.stored)
    (bytes : (writer.heap id).body.isBytes = true) :
    Bytes.HoldsAt fixed (currentBase + writer.place id) (writer.bodyBytes (writer.heap id).body) := by
  intro index byte found
  have held := closed.held here
  have inside := (List.getElem?_eq_some_iff.mp found).1
  rw [bodyBytes_length] at inside
  rw [← held.bytes bytes index byte found, Nat.add_assoc]
  refine closed.kept done here ⟨by lia, by lia⟩ fun words => ?_
  have none : pointersSize writer.segmentFile.memory (writer.place id) = 0 := by
    rw [pointersSize, if_pos (held.isBytes.trans bytes)]
  rw [InWords, slotAddress, none] at words
  lia

/-- The bytes of a body are whole exactly if those after the elements are zeros. -/
theorem Closed.contents_iff {id : ι} (here : id ∈ writer.stored) :
    Bytes.HoldsAt fixed (currentBase + writer.place id) (writer.heap id).body.contents ↔
      ∀ byte ∈ (writer.heap id).body.contents.drop (writer.heap id).body.size, byte = 0 := by
  cases bytes : (writer.heap id).body.isBytes with
  | false =>
    have none := contents_pointers _ bytes
    rw [none, List.drop_nil]
    exact ⟨fun _ => nofun, fun _ => nofun⟩
  | true =>
    have held := closed.body_kept done here bytes
    have within := bodySize_le _ bytes
    have whole := headerSize_eq _ bytes
    have rounded := sizeInBytes_eq _ bytes
    rw [wordSize] at rounded
    rw [bodyBytes, if_pos bytes] at held
    have counted : ((writer.heap id).body.contents.take (writer.heap id).body.size).length =
        (writer.heap id).body.size := by
      rw [List.length_take, Nat.min_eq_left within]
    have zero_at : ∀ index, (writer.heap id).body.size ≤ index →
        index < (writer.heap id).body.contents.length →
        fixed (currentBase + writer.place id + index) = 0 := by
      intro index beyond inside
      have zeros := held.right
      rw [counted] at zeros
      have zero := zeros (index - (writer.heap id).body.size) 0
        (List.getElem?_eq_some_iff.mpr ⟨by rw [List.length_replicate]; lia, List.getElem_replicate ..⟩)
      rwa [Nat.add_assoc, Nat.add_sub_cancel' beyond] at zero
    constructor
    · intro complete byte member
      obtain ⟨index, found⟩ := List.mem_iff_getElem?.mp member
      rw [List.getElem?_drop] at found
      have inside := (List.getElem?_eq_some_iff.mp found).1
      rw [← complete _ byte found]
      exact zero_at _ (Nat.le_add_right ..) inside
    · intro zeros index byte found
      have inside := (List.getElem?_eq_some_iff.mp found).1
      by_cases element : index < (writer.heap id).body.size
      · refine held.left index byte ?_
        rwa [List.getElem?_take_of_lt element]
      · have beyond : (writer.heap id).body.size ≤ index := by lia
        have last : byte ∈ (writer.heap id).body.contents.drop (writer.heap id).body.size := by
          refine List.mem_iff_getElem?.mpr ⟨index - (writer.heap id).body.size, ?_⟩
          rwa [List.getElem?_drop, Nat.add_sub_cancel' beyond]
        rw [zeros byte last]
        exact zero_at index beyond inside

end Closed

omit [DecidableEq ι] in
/-- Only a wide string can have more in its body than the writer copies. -/
theorem dropped_iff (body : Body ι) : (∀ byte ∈ body.contents.drop body.size, byte = 0) ↔
    ∀ longs, body = .text (.wideString longs) →
      ∀ byte ∈ (textContents (.wideString longs)).drop longs.length, byte = 0 := by
  have wide_size : ∀ longs : List UInt32, (Text.wideString longs).size = longs.length := by
    intro longs
    rw [Text.size, Text.codes, List.length_map]
  cases body with
  | slots held =>
    refine ⟨fun _ _ other => (by cases other), fun _ byte member => ?_⟩
    have none : (Body.slots held).contents.drop (Body.slots held).size = [] := List.drop_nil
    rw [none] at member
    cases member
  | bytes held =>
    refine ⟨fun _ _ other => (by cases other), fun _ byte member => ?_⟩
    have none : (Body.bytes (ι := ι) held).contents.drop (Body.bytes (ι := ι) held).size = [] :=
      List.drop_length
    rw [none] at member
    cases member
  | text characters =>
    cases characters with
    | string bytes =>
      refine ⟨fun _ _ other => (by cases other), fun _ byte member => ?_⟩
      have counted : (Body.text (ι := ι) (.string bytes)).size = bytes.length := by
        rw [Body.size, Text.size, Text.codes, List.length_map]
      have ended : (Body.text (ι := ι) (.string bytes)).contents.drop
          (Body.text (ι := ι) (.string bytes)).size = [0] := by
        rw [counted]
        exact List.drop_left
      rw [ended] at member
      exact List.mem_singleton.mp member
    | wideString longs =>
      have same : (Body.text (ι := ι) (.wideString longs)).size = longs.length := wide_size longs
      rw [same]
      constructor
      · rintro zeros _ ⟨⟩
        exact zeros
      · intro zeros
        exact zeros longs rfl

/-! ### References -/

section Closed

variable (closed : writer.Closed)

include closed

/-- An object ends the segment exactly if it is the last one and has no body. -/
theorem Closed.place_eq_size {id : ι} (here : id ∈ writer.stored) :
    writer.place id = writer.size ↔
      ∃ front, writer.stored = front ++ [id] ∧ (writer.heap id).body.sizeInBytes = 0 := by
  obtain ⟨front, back, split⟩ := List.append_of_mem here
  have position := closed.place_stored split
  have total : writer.size = objectsOffset + writer.areaSize writer.stored := size_eq
  rw [split, areaSize_append, areaSize_cons] at total
  constructor
  · intro ended
    have empty : (writer.heap id).body.sizeInBytes = 0 ∧ writer.areaSize back = 0 := by lia
    cases back with
    | nil => exact ⟨front, split, empty.1⟩
    | cons next back =>
      have area := empty.2
      have header : 8 ≤ objectHeaderSizeInBytes (writer.heap next) := by
        rw [objectHeaderSizeInBytes]
        split <;> lia
      rw [areaSize_cons] at area
      lia
  · rintro ⟨other, ends, empty⟩
    have reached := closed.place_stored ends
    have all : writer.size = objectsOffset + writer.areaSize writer.stored := size_eq
    have none : writer.areaSize [] = 0 := rfl
    rw [ends, areaSize_append, areaSize_cons] at all
    lia

theorem Closed.place_injective {id other : ι} (here : id ∈ writer.stored)
    (there : other ∈ writer.stored) (same : writer.place id = writer.place other) : id = other := by
  have header := closed.place_header here
  have room : ∀ id, 8 ≤ objectHeaderSizeInBytes (writer.heap id) := by
    intro id
    rw [objectHeaderSizeInBytes]
    split <;> lia
  have covers : ∀ id, objectsOffset < writer.place id →
      writer.Covers id (writer.place id - 1) := by
    intro id above
    have least := room id
    rw [Covers]
    lia
  have positive := room id
  refine closed.covers_unique there here (covers other ?_) ?_
  · lia
  · rw [← same]
    exact covers id (by lia)

variable (fits : writer.Fits platform)

include fits

theorem Closed.unmoved_iff {id : ι} (here : id ∈ writer.stored) :
    (writer.segmentFile.segment currentBase).UnmovedBehavior platform imports
        (basicBehavior writer.segmentFile.memory (writer.place id)) ↔
      writer.BehaviorUnmoved platform imports currentBase (writer.heap id).behavior := by
  rw [UnmovedBehavior, (closed.held here).behavior, BehaviorUnmoved]
  rcases known_cases (closed.behavior id here) with stored | ⟨subscript, found⟩
  · have aligned := closed.place_mod stored
    have base := fits.base_mod
    rw [closed.behaviorWord_stored fits stored, if_pos (by lia)]
    refine ⟨fun same => Or.inl ⟨stored, same⟩, ?_⟩
    rintro (⟨_, same⟩ | ⟨subscript, found, _⟩)
    · exact same
    · exact absurd (List.mem_of_getElem? found) (closed.apart _ stored)
  · have index : (subscript * 4 + 2) / 4 = subscript := by lia
    rw [closed.behaviorWord_imported fits found, if_neg (by lia), if_pos (by lia), index]
    refine ⟨fun same => Or.inr ⟨subscript, found, same⟩, ?_⟩
    rintro (⟨stored, _⟩ | ⟨other, also, same⟩)
    · exact absurd (List.mem_of_getElem? found) (closed.apart _ stored)
    · have one : other = subscript := by
        have first := idxOf?_of_nodup closed.imported also
        rw [idxOf?_of_nodup closed.imported found] at first
        exact (Option.some.inj first).symm
      rwa [one] at same

theorem Closed.last_iff : (∀ object ∈ writer.stored.map writer.place,
      object = (writer.segmentFile.segment currentBase).header.size →
        (writer.segmentFile.segment currentBase).UnmovedBehavior platform imports
          (basicBehavior writer.segmentFile.memory object)) ↔
    ∀ front id, writer.stored = front ++ [id] → (writer.heap id).body.sizeInBytes = 0 →
      writer.BehaviorUnmoved platform imports currentBase (writer.heap id).behavior := by
  constructor
  · intro unmoved front id ends empty
    have here : id ∈ writer.stored := ends ▸ List.mem_append_right _ (List.mem_singleton_self id)
    have reached := (closed.place_eq_size here).mpr ⟨front, ends, empty⟩
    exact (closed.unmoved_iff fits here).mp (unmoved _ (List.mem_map_of_mem here) reached)
  · intro unmoved object member reached
    obtain ⟨id, here, rfl⟩ := List.mem_map.mp member
    obtain ⟨front, ends, empty⟩ := (closed.place_eq_size here).mp reached
    exact (closed.unmoved_iff fits here).mpr (unmoved front id ends empty)

variable (placed : writer.Placed platform imports currentBase)

include placed


theorem Closed.relocated_iff {id : ι} (here : id ∈ writer.stored) {memory : Bytes} :
    (writer.segmentFile.segment currentBase).ObjectRelocated platform imports
        writer.segmentFile.memory (writer.place id) memory ↔
      writer.image currentBase imports (.object (writer.heap id).behavior) = some
        (platform.behaviorAddressSpace + basicBehavior memory (currentBase + writer.place id)) ∧
      ∀ index slot, (writer.heap id).body.pointers[index]? = some slot →
        writer.image currentBase imports slot =
          some (HeapObject.slot memory (currentBase + writer.place id) index) := by
  have held := closed.held here
  have behavior_iff : Denotes currentBase imports
      (platform.behaviorAddressSpace + basicBehavior memory (currentBase + writer.place id))
      ((writer.segmentFile.segment currentBase).behaviorReference platform
        (writer.encoding (.object (writer.heap id).behavior) % 256 ^ 4).toNat) ↔ _ :=
    closed.behavior_denotes_iff fits placed (closed.behavior id here)
  constructor
  · intro relocated
    have behavior := relocated.behavior
    rw [held.behavior] at behavior
    refine ⟨behavior_iff.mp behavior, fun index slot found => ?_⟩
    have inside := (List.getElem?_eq_some_iff.mp found).1
    have denotes := relocated.slot index (held.pointersSize ▸ inside)
    rw [held.slot index slot found] at denotes
    exact (closed.slot_denotes_iff fits placed
      (closed.pointer id here slot (List.mem_of_getElem? found))).mp denotes
  · rintro ⟨behavior, slots⟩
    refine ⟨?_, fun index inside => ?_⟩
    · rw [held.behavior]
      exact behavior_iff.mpr behavior
    · rw [held.pointersSize] at inside
      have found := List.getElem?_eq_getElem inside
      rw [held.slot index _ found]
      exact (closed.slot_denotes_iff fits placed
        (closed.pointer id here _ (List.getElem_mem inside))).mpr (slots index _ found)

/-! ### The object graph -/

theorem Closed.objects_iff {loaded fixed : Bytes} (done : Fixed platform
      (writer.segmentFile.segment currentBase) imports writer.segmentFile.memory
      imageSegmentHeaderSize (writer.stored.map writer.place) loaded fixed) :
    (∀ id ∈ writer.stored, writer.ObjectImage platform imports currentBase fixed id) ↔
      (∀ object ∈ writer.stored.map writer.place,
        (writer.segmentFile.segment currentBase).ObjectRelocated platform imports
          writer.segmentFile.memory object fixed) ∧
      ∀ id ∈ writer.stored, ∀ longs, (writer.heap id).body = .text (.wideString longs) →
        ∀ byte ∈ (textContents (.wideString longs)).drop longs.length, byte = 0 := by
  constructor
  · intro images
    constructor
    · intro object member
      obtain ⟨id, here, rfl⟩ := List.mem_map.mp member
      exact (closed.relocated_iff fits placed here).mpr
        ⟨(images id here).behavior, (images id here).slot⟩
    · intro id here
      exact (dropped_iff _).mp ((closed.contents_iff done here).mp (images id here).bytes)
  · rintro ⟨relocated, whole⟩ id here
    have references := (closed.relocated_iff fits placed here).mp
      (relocated _ (List.mem_map_of_mem here))
    have header := closed.same_header done here
    have held := closed.held here
    exact {
      hash := closed.hash_kept done here
      flags := header.flags.trans held.flags
      size := header.size.trans held.size
      behavior := references.1
      slot := references.2
      bytes := (closed.contents_iff done here).mpr ((dropped_iff _).mpr (whole id here)) }

theorem Closed.isomorphic_iff {loaded fixed : Bytes} (done : Fixed platform
      (writer.segmentFile.segment currentBase) imports writer.segmentFile.memory
      imageSegmentHeaderSize (writer.stored.map writer.place) loaded fixed) :
    writer.Isomorphic platform imports (writer.segmentFile.fixedSegment currentBase) fixed ↔
      writer.Survives platform imports currentBase := by
  have relocated_iff := (done.relocated_iff fits.base (closed.wellFormed fits).tiles
    fun object member => by
      obtain ⟨id, here, rfl⟩ := List.mem_map.mp member
      exact closed.bindable fits placed here).trans (closed.last_iff fits)
  have objects_iff := closed.objects_iff fits placed done
  have exports_iff := closed.exports_iff fits placed
  have module : writer.Known (.object writer.module) := Or.inl closed.module
  constructor
  · intro isomorphic
    have objects := objects_iff.mp isomorphic.objects
    have exports := exports_iff.mp isomorphic.exports
    exact {
      last := relocated_iff.mp objects.1
      body := objects.2
      importText := descriptors_iff.mp isomorphic.descriptors
      name := exports.1
      exported := exports.2 }
  · intro survives
    exact {
      objects := objects_iff.mpr ⟨relocated_iff.mpr survives.last, survives.body⟩
      tiles := closed.tiles
        (fun id here => (closed.same_header done here).flags.trans (closed.held here).flags)
        (fun id here => (closed.same_header done here).size.trans (closed.held here).size)
      injective := fun id here other there same => closed.place_injective here there same
      descriptors := descriptors_iff.mpr survives.importText
      exports := exports_iff.mpr ⟨survives.name, survives.exported⟩
      module := (closed.movable_iff fits placed module).mpr (Or.inl closed.module) }

end Closed

/-- A module with a negative integer, a mapped object, an array of bytes and two imports. -/
def sample : NativeWriter Nat where
  heap := fun id =>
    if id = 0 then
      { hash := 7, flags := 0x84, behavior := 0
        body := .slots [.smallInteger (-3) (by decide), .object 4, .object 2]
        bytes_flag := rfl, small := by decide, size := by decide, room := by decide }
    else
      { hash := 9, flags := 0x81, behavior := 3, body := .bytes [1, 2, 3]
        bytes_flag := rfl, small := by decide, size := by decide, room := by decide }
  objects := [.object 0, .smallInteger (-3) (by decide), .object 1]
  imports := [(2, ⟨.string [0x61], .string (.string [0x62])⟩),
    (3, ⟨.string [0x63], .strings [.string [0x62], .string [0x64]]⟩)]
  mapping := [(4, 1)]
  exports := [(.string [0x6D], .object 0)]
  module := 0
  nilToken := 5
  closureNilToken := 6
  base := 0x1000000

theorem sample_closed : sample.Closed where
  stored := by decide +kernel
  imported := by decide +kernel
  apart := by decide +kernel
  mapping := by decide +kernel
  mapped := by decide +kernel
  behavior := by decide +kernel
  pointer := by decide +kernel
  exported := by decide +kernel
  names := List.pairwise_singleton ..
  module := by decide +kernel

theorem sample_fits : sample.Fits lowPlatform where
  words := by decide +kernel
  aligned := by decide +kernel
  base := by decide +kernel
  window := by decide +kernel
  imports := by decide +kernel
  descriptor := by decide +kernel
  importTexts := by decide +kernel
  importText := by decide +kernel
  exports := by decide +kernel
  name := by decide +kernel

theorem sample_placed : sample.Placed lowPlatform [0x500000, 0x600000] 0x2000000 where
  room := by decide +kernel
  bound := by decide +kernel
  address := by decide +kernel
  behavior := by
    have all : ∀ id ∈ sample.stored, ((sample.image 0x2000000 [0x500000, 0x600000]
        (.object (sample.heap id).behavior)).map (· / 2 ^ 32)) = some 0 := by decide +kernel
    intro id here address found
    have space := all id here
    rw [found] at space
    exact Option.some.inj space

theorem sample_survives :
    sample.Survives lowPlatform [0x500000, 0x600000] 0x2000000 where
  last := by
    intro front id ends empty
    have here : id ∈ sample.stored := ends ▸ List.mem_append_right _ (List.mem_singleton_self id)
    have filled : ∀ id ∈ sample.stored, (sample.heap id).body.sizeInBytes ≠ 0 := by decide +kernel
    exact absurd empty (filled id here)
  body := by
    have narrow : ∀ id ∈ sample.stored, ∀ byte ∈ (sample.heap id).body.contents.drop
        (sample.heap id).body.size, byte = 0 := by decide +kernel
    intro id here
    exact (dropped_iff _).mp (narrow id here)
  importText := by
    have narrow : ∀ text ∈ sample.importTexts, ((sample.importTexts.find? text.equals).map
        fun first => (writtenText first).map UInt8.toNat) = some text.codes := by decide +kernel
    intro text entered first found
    have same := narrow text entered
    rw [found] at same
    exact Option.some.inj same
  name := by decide +kernel
  exported := by
    intro entry member
    obtain rfl := List.mem_singleton.mp member
    exact Or.inl (by decide +kernel)

/-- A module with a wide string of two Greek letters. -/
def wideSample : NativeWriter Nat where
  heap := fun id =>
    if id = 0 then
      { hash := 7, flags := 0x84, behavior := 0, body := .slots [.object 1]
        bytes_flag := rfl, small := by decide +kernel, size := by decide, room := by decide }
    else
      { hash := 9, flags := 0x81, behavior := 0, body := .text (.wideString [0x3BB, 0x3BC])
        bytes_flag := rfl, small := by decide +kernel, size := by decide, room := by decide }
  objects := [.object 0, .object 1]
  imports := []
  mapping := []
  exports := []
  module := 0
  nilToken := 5
  closureNilToken := 6
  base := 0x1000000

theorem wideSample_closed : wideSample.Closed where
  stored := by decide +kernel
  imported := by decide +kernel
  apart := by decide +kernel
  mapping := by decide +kernel
  mapped := by decide +kernel
  behavior := by decide +kernel
  pointer := by decide +kernel
  exported := by decide +kernel
  names := List.Pairwise.nil
  module := by decide +kernel

theorem wideSample_fits : wideSample.Fits lowPlatform where
  words := by decide +kernel
  aligned := by decide +kernel
  base := by decide +kernel
  window := by decide +kernel
  imports := by decide +kernel
  descriptor := by decide +kernel
  importTexts := by decide +kernel
  importText := by decide +kernel
  exports := by decide +kernel
  name := by decide +kernel

theorem wideSample_placed : wideSample.Placed lowPlatform [] 0x2000000 where
  room := by decide +kernel
  bound := by decide +kernel
  address := nofun
  behavior := by
    have all : ∀ id ∈ wideSample.stored, ((wideSample.image 0x2000000 []
        (.object (wideSample.heap id).behavior)).map (· / 2 ^ 32)) = some 0 := by decide +kernel
    intro id here address found
    have space := all id here
    rw [found] at space
    exact Option.some.inj space

end NativeWriter

end Egg.Memory
