import Egg.Memory.WrittenObjects

/-! What the references of a written segment denote once it is loaded, and where its file can be
loaded. -/
namespace Egg.Memory

open Egg.Data HeapObject FileImageSegment
open Egg.Unicode (Text)

namespace NativeWriter

variable {ι : Type} [DecidableEq ι] (writer : NativeWriter ι)

/-- Every number that is written fits in its field, and all behaviors of the segment are in the four
gigabytes of its base, whose upper half their words leave out. -/
structure Fits (platform : Platform) : Prop where
  words : platform.pageSize % wordSize = 0
  aligned : writer.base % platform.pageSize = 0
  base : writer.base < 2 ^ 64
  window : writer.base % 2 ^ 32 + writer.size < 2 ^ 32
  imports : writer.imports.length ≤ 2 ^ 30
  descriptor : ∀ entry ∈ writer.imports, entry.2.descriptor.length < 2 ^ 32
  importTexts : writer.importTexts.length < 2 ^ 32
  importText : ∀ text ∈ writer.importTexts, text.size < 2 ^ 32
  exports : writer.exports.length < 2 ^ 32
  name : ∀ entry ∈ writer.exports, entry.1.size < 2 ^ 64

/-- The word that stands for a reference in memory: the tagged integer, the object of the segment
where it is loaded, or the import that it is bound to. -/
def image (currentBase : Nat) (imports : List Nat) : Slot ι → Option Nat
  | .smallInteger value _ => some ((value * 2 + 1) % 256 ^ 8).toNat
  | .object id =>
    if writer.surrogateFor id ∈ writer.stored then
      some (currentBase + writer.place (writer.surrogateFor id))
    else (writer.imported.idxOf? (writer.surrogateFor id)).bind (imports[·]?)

/-- The base has room for the segment, every import is bound to an object, and all behaviors are in
the address space that the loader asserts for them. -/
structure Placed (platform : Platform) (imports : List Nat) (currentBase : Nat) : Prop where
  room : currentBase + writer.size < 2 ^ 64
  bound : imports.length = writer.imports.length
  address : ∀ address ∈ imports, address < 2 ^ 64
  behavior : ∀ id ∈ writer.stored, ∀ address,
    writer.image currentBase imports (.object (writer.heap id).behavior) = some address →
      address / 2 ^ 32 = platform.behaviorAddressSpace / 2 ^ 32

variable {writer} {platform : Platform} {imports : List Nat} {currentBase : Nat}

omit [DecidableEq ι] in
theorem imported_length : writer.imported.length = writer.imports.length :=
  List.length_map _

theorem idxOf?_of_nodup {ids : List ι} {id : ι} {subscript : Nat} (unique : ids.Nodup)
    (found : ids[subscript]? = some id) : ids.idxOf? id = some subscript := by
  obtain ⟨inside, same⟩ := List.getElem?_eq_some_iff.mp found
  obtain ⟨first, is_first⟩ := Option.isSome_iff_exists.mp
    (List.isSome_idxOf?.mpr (List.mem_of_getElem? found))
  obtain ⟨within, equal, _⟩ := List.idxOf?_eq_some_iff.mp is_first
  have one : first = subscript := (unique.getElem_inj_iff).mp (equal.trans same.symm)
  rw [is_first, one]

theorem denotes_internal {offset word : Nat} : Denotes currentBase imports word (.internal offset) ↔
    word = (currentBase + offset) % 2 ^ 64 :=
  ⟨fun denotes => by cases denotes; assumption, .internal⟩

theorem denotes_imported {index word : Nat} : Denotes currentBase imports word (.imported index) ↔
    imports[index]? = some word :=
  ⟨fun denotes => by cases denotes; assumption, .imported⟩

theorem denotes_immediate {value word : Nat} :
    Denotes currentBase imports word (.immediate value) ↔ word = value :=
  ⟨fun denotes => by cases denotes; rfl, fun same => same ▸ .immediate word⟩

/-- A reference of a closed set is to an object of the segment or to an import. -/
theorem known_cases {id : ι} (known : writer.Known (.object id)) :
    writer.surrogateFor id ∈ writer.stored ∨
      ∃ subscript : Nat, writer.imported[subscript]? = some (writer.surrogateFor id) :=
  known.imp_right List.mem_iff_getElem?.mp

theorem image_stored {id : ι} (here : writer.surrogateFor id ∈ writer.stored) :
    writer.image currentBase imports (.object id) =
      some (currentBase + writer.place (writer.surrogateFor id)) :=
  if_pos here

theorem Fits.base_mod (fits : writer.Fits platform) : writer.base % 8 = 0 := by
  have pages : 8 ∣ platform.pageSize := Nat.dvd_of_mod_eq_zero fits.words
  have base : platform.pageSize ∣ writer.base := Nat.dvd_of_mod_eq_zero fits.aligned
  exact Nat.mod_eq_zero_of_dvd (pages.trans base)

theorem Fits.subscript_lt {id : ι} {subscript : Nat} (fits : writer.Fits platform)
    (found : writer.imported[subscript]? = some id) : subscript < 2 ^ 30 := by
  have inside := (List.getElem?_eq_some_iff.mp found).1
  have few := fits.imports
  rw [imported_length] at inside
  omega

theorem addImportString_sublist (importStrings rest : List Text) (text : Text) :
    (addImportString importStrings text ++ rest).Sublist (importStrings ++ text :: rest) := by
  rw [addImportString]
  split
  · exact (List.Sublist.refl _).append (List.sublist_cons_self text rest)
  · rw [List.append_assoc, List.singleton_append]

omit [DecidableEq ι] in
theorem importStrings_sublist : writer.computeImportStrings.Sublist writer.importTexts := by
  have from_any : ∀ texts importStrings : List Text,
      (texts.foldl addImportString importStrings).Sublist (importStrings ++ texts) := by
    intro texts
    induction texts with
    | nil =>
      intro importStrings
      rw [List.append_nil]
      exact List.Sublist.refl _
    | cons text texts ih =>
      intro importStrings
      exact (ih _).trans (addImportString_sublist importStrings texts text)
  rw [computeImportStrings_eq]
  exact from_any writer.importTexts []

section Closed

variable (closed : writer.Closed)

include closed

theorem Closed.image_imported {id : ι} {subscript : Nat}
    (found : writer.imported[subscript]? = some (writer.surrogateFor id)) :
    writer.image currentBase imports (.object id) = imports[subscript]? := by
  have outside : writer.surrogateFor id ∉ writer.stored := fun here =>
    closed.apart _ here (List.mem_of_getElem? found)
  rw [image, if_neg outside, idxOf?_of_nodup closed.imported found, Option.bind_some]

/-- Every object of the segment is in the four gigabytes of its base. -/
theorem Closed.place_window {id : ι} (fits : writer.Fits platform) (here : id ∈ writer.stored) :
    writer.base % 2 ^ 32 + writer.place id < 2 ^ 32 := by
  have body := closed.place_body here
  have window := fits.window
  omega

/-! ### Words -/

theorem Closed.encoding_stored {id : ι} (here : writer.surrogateFor id ∈ writer.stored) :
    writer.encoding (.object id) =
      ((writer.base + writer.place (writer.surrogateFor id) : Nat) : Int) := by
  rw [encoding, closed.encoded_stored here, Option.getD_some]

theorem Closed.encoding_imported {id : ι} {subscript : Nat}
    (found : writer.imported[subscript]? = some (writer.surrogateFor id)) :
    writer.encoding (.object id) = ((subscript * 4 + 2 : Nat) : Int) := by
  rw [encoding, closed.encoded_imported found, Option.getD_some]

theorem Closed.word_stored {id : ι} (fits : writer.Fits platform)
    (here : writer.surrogateFor id ∈ writer.stored) : writer.word (.object id) =
      writer.base + writer.place (writer.surrogateFor id) := by
  have window := closed.place_window fits here
  have base := fits.base
  rw [word, closed.encoding_stored here]
  omega

theorem Closed.word_imported {id : ι} {subscript : Nat} (fits : writer.Fits platform)
    (found : writer.imported[subscript]? = some (writer.surrogateFor id)) :
    writer.word (.object id) = subscript * 4 + 2 := by
  have few := fits.subscript_lt found
  rw [word, closed.encoding_imported found]
  omega

theorem Closed.behaviorWord_stored {id : ι} (fits : writer.Fits platform)
    (here : writer.surrogateFor id ∈ writer.stored) :
    (writer.encoding (.object id) % 256 ^ 4).toNat =
      writer.base % 2 ^ 32 + writer.place (writer.surrogateFor id) := by
  have window := closed.place_window fits here
  rw [closed.encoding_stored here]
  omega

theorem Closed.behaviorWord_imported {id : ι} {subscript : Nat} (fits : writer.Fits platform)
    (found : writer.imported[subscript]? = some (writer.surrogateFor id)) :
    (writer.encoding (.object id) % 256 ^ 4).toNat = subscript * 4 + 2 := by
  have few := fits.subscript_lt found
  rw [closed.encoding_imported found]
  omega

/-- A slot is relocated exactly if it holds the image of what it held. -/
theorem Closed.slot_denotes_iff (fits : writer.Fits platform)
    (placed : writer.Placed platform imports currentBase) {slot : Slot ι}
    (known : writer.Known slot) {target : Nat} :
    Denotes currentBase imports target
      ((writer.segmentFile.segment currentBase).slotReference (writer.word slot)) ↔
    writer.image currentBase imports slot = some target := by
  rw [slotReference]
  cases slot with
  | smallInteger value bounds =>
    have odd : writer.word (.smallInteger value bounds) % 2 = 1 := by
      rw [word, encoding_smallInteger]
      omega
    rw [if_neg (by omega), if_neg (by omega), denotes_immediate, image, Option.some.injEq]
    exact eq_comm
  | object id =>
    rcases known_cases known with here | ⟨subscript, found⟩
    · have aligned := closed.place_mod here
      have base := fits.base_mod
      have wide := fits.base
      have window := closed.place_window fits here
      have room := placed.room
      have inside := closed.place_body here
      have above := closed.place_header here
      have offset_eq : (writer.segmentFile.segment currentBase).offset (writer.base +
          writer.place (writer.surrogateFor id)) = writer.place (writer.surrogateFor id) := by
        have header : (writer.segmentFile.segment currentBase).header.baseAddress = writer.base :=
          rfl
        rw [offset, header]
        omega
      rw [closed.word_stored fits here, if_pos (by omega), denotes_internal, offset_eq,
        image_stored here, Option.some.injEq, Nat.mod_eq_of_lt (by omega)]
      exact eq_comm
    · rw [closed.word_imported fits found, if_neg (by omega), if_pos (by omega),
        denotes_imported, closed.image_imported found]
      have index : (subscript * 4 + 2) / 4 = subscript := by omega
      rw [index]

/-- A behavior is relocated exactly if its address is the image of the behavior. -/
theorem Closed.behavior_denotes_iff (fits : writer.Fits platform)
    (placed : writer.Placed platform imports currentBase) {id : ι}
    (known : writer.Known (.object id)) {target : Nat} :
    Denotes currentBase imports target
      ((writer.segmentFile.segment currentBase).behaviorReference platform
        (writer.encoding (.object id) % 256 ^ 4).toNat) ↔
    writer.image currentBase imports (.object id) = some target := by
  rw [behaviorReference]
  rcases known_cases known with here | ⟨subscript, found⟩
  · have aligned := closed.place_mod here
    have base := fits.base_mod
    have wide := fits.base
    have window := closed.place_window fits here
    have room := placed.room
    have inside := closed.place_body here
    have old : (writer.segmentFile.segment currentBase).oldBehaviorBase =
        writer.base / 2 ^ 32 * 2 ^ 32 := rfl
    have offset_eq : (writer.segmentFile.segment currentBase).offset
        (writer.base / 2 ^ 32 * 2 ^ 32 +
          (writer.base % 2 ^ 32 + writer.place (writer.surrogateFor id))) =
        writer.place (writer.surrogateFor id) := by
      have header : (writer.segmentFile.segment currentBase).header.baseAddress = writer.base :=
        rfl
      rw [offset, header]
      omega
    rw [closed.behaviorWord_stored fits here, if_pos (by omega), denotes_internal, old, offset_eq,
      image_stored here, Option.some.injEq, Nat.mod_eq_of_lt (by omega)]
    exact eq_comm
  · have index : (subscript * 4 + 2) / 4 = subscript := by omega
    rw [closed.behaviorWord_imported fits found, if_neg (by omega), if_pos (by omega),
      denotes_imported, closed.image_imported found, index]

/-! ### The file -/

theorem Closed.image_some (placed : writer.Placed platform imports currentBase) {slot : Slot ι}
    (known : writer.Known slot) : ∃ target, writer.image currentBase imports slot = some target := by
  cases slot with
  | smallInteger value bounds => exact ⟨_, rfl⟩
  | object id =>
    rcases known_cases known with here | ⟨subscript, found⟩
    · exact ⟨_, image_stored here⟩
    · have inside := (List.getElem?_eq_some_iff.mp found).1
      rw [imported_length, ← placed.bound] at inside
      exact ⟨imports[subscript], by rw [closed.image_imported found, List.getElem?_eq_getElem inside]⟩

theorem Closed.bindableSlot (fits : writer.Fits platform)
    (placed : writer.Placed platform imports currentBase) {slot : Slot ι}
    (known : writer.Known slot) : BindableSlot imports (writer.word slot) := by
  intro tagged
  cases slot with
  | smallInteger value bounds =>
    rw [word, encoding_smallInteger] at tagged
    omega
  | object id =>
    rcases known_cases known with here | ⟨subscript, found⟩
    · have aligned := closed.place_mod here
      have base := fits.base_mod
      rw [closed.word_stored fits here] at tagged
      omega
    · have inside := (List.getElem?_eq_some_iff.mp found).1
      rw [imported_length, ← placed.bound] at inside
      have index : (subscript * 4 + 2) / 4 = subscript := by omega
      rw [closed.word_imported fits found, index]
      exact ⟨imports[subscript], List.getElem?_eq_getElem inside,
        placed.address _ (List.getElem_mem inside)⟩

/-- Every reference of an object of the file can be given its address. -/
theorem Closed.bindable (fits : writer.Fits platform)
    (placed : writer.Placed platform imports currentBase) {id : ι} (here : id ∈ writer.stored) :
    (writer.segmentFile.segment currentBase).Bindable platform imports writer.segmentFile.memory
      (writer.place id) := by
  have held := closed.held here
  have known := closed.behavior id here
  obtain ⟨address, image_eq⟩ := closed.image_some placed known
  have space := placed.behavior id here address image_eq
  refine ⟨?_, fun index inside => ?_⟩
  · rw [BindableBehavior, held.behavior]
    rcases known_cases known with stored | ⟨subscript, found⟩
    · have aligned := closed.place_mod stored
      have base := fits.base_mod
      have wide := fits.base
      have window := closed.place_window fits stored
      have room := placed.room
      have within := closed.place_body stored
      rw [image_stored stored] at image_eq
      have target := Option.some.inj image_eq
      have old : (writer.segmentFile.segment currentBase).oldBehaviorBase =
          writer.base / 2 ^ 32 * 2 ^ 32 := rfl
      have moved : (writer.segmentFile.segment currentBase).delta =
          (currentBase + (2 ^ 64 - writer.base)) % 2 ^ 64 := rfl
      rw [closed.behaviorWord_stored fits stored, if_pos (by omega), old, moved, ← space, ← target]
      congr 1
      omega
    · have index : (subscript * 4 + 2) / 4 = subscript := by omega
      rw [closed.image_imported found] at image_eq
      rw [closed.behaviorWord_imported fits found, if_neg (by omega), if_pos (by omega), index]
      exact ⟨address, image_eq, space⟩
  · rw [held.pointersSize] at inside
    have found := List.getElem?_eq_getElem inside
    have known := closed.pointer id here _ (List.getElem_mem inside)
    rw [held.slot index _ found]
    exact closed.bindableSlot fits placed known

theorem Closed.wellFormed (fits : writer.Fits platform) :
    writer.segmentFile.WellFormed platform (writer.stored.map writer.place) := by
  have window := fits.window
  have few := fits.imports
  have strings : writer.computeImportStrings.length ≤ writer.importTexts.length :=
    importStrings_sublist.length_le
  have texts := fits.importTexts
  have word_lt : ∀ slot, writer.word slot < 2 ^ 64 := by
    intro slot
    rw [word]
    omega
  have subscript_lt : ∀ text, (writer.importStringAt text).getD 0 < 2 ^ 32 := by
    intro text
    cases found : writer.importStringAt text with
    | none => exact Nat.two_pow_pos 32
    | some subscript =>
      have inside := (List.findIdx?_eq_some_iff_getElem.mp found).1
      rw [Option.getD_some]
      omega
  exact {
    signature := rfl
    aligned := fits.aligned
    baseAddress := fits.base
    size := show writer.size < 2 ^ 64 by omega
    reservedSize := show writer.size + 0x20000 < 2 ^ 64 by omega
    module := word_lt _
    area := by
      have area : (writer.stored.flatMap writer.objectBytes).length =
          writer.areaSize writer.stored := area_length _
      have size : writer.size = objectsOffset + writer.areaSize writer.stored := size_eq
      rw [← area] at size
      exact size.symm
    importStrings := show (writer.computeImportStrings.map writtenText).length < 2 ^ 32 by
      rw [List.length_map]
      omega
    importString := by
      intro string member
      obtain ⟨text, entered, rfl⟩ := List.mem_map.mp member
      rw [writtenText_length]
      exact fits.importText text (importStrings_sublist.subset entered)
    importDescriptors := by
      have counted : writer.segmentFile.importDescriptors.length = writer.imports.length :=
        List.length_map _
      omega
    importDescriptor := by
      intro descriptor member
      obtain ⟨entry, imported, rfl⟩ := List.mem_map.mp member
      refine ⟨?_, fun word within => ?_⟩
      · rw [List.length_map]
        exact fits.descriptor entry imported
      · obtain ⟨text, _, rfl⟩ := List.mem_map.mp within
        exact subscript_lt text
    exports := by
      have counted : writer.segmentFile.exports.length = writer.exports.length :=
        List.length_map _
      have short := fits.exports
      omega
    exported := by
      intro entry member
      obtain ⟨source, exported, rfl⟩ := List.mem_map.mp member
      refine ⟨?_, word_lt _⟩
      rw [writtenText_length]
      exact fits.name source exported
    tiles := by
      have tiles := closed.tiles
        (fun id here => by rw [Nat.zero_add]; exact (closed.held here).flags)
        (fun id here => by rw [Nat.zero_add]; exact (closed.held here).size)
      rw [Nat.zero_add, Nat.zero_add] at tiles
      have places : (writer.stored.map fun id => 0 + writer.place id) =
          writer.stored.map writer.place :=
        List.map_congr_left fun id _ => Nat.zero_add _
      rwa [places] at tiles
    measurable := by
      intro object member
      obtain ⟨id, here, rfl⟩ := List.mem_map.mp member
      rw [Measurable, (closed.held here).size, (closed.held here).wholeBody]
      exact ⟨(writer.heap id).size, (writer.heap id).room⟩ }

end Closed

end NativeWriter

end Egg.Memory
