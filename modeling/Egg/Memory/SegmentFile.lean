import Mathlib.Data.List.Induction
import Egg.Memory.Relocation

/-! Segment files: what a well-formed one holds, how it is read, and when loading it relocates
every object. -/
namespace Egg.Memory

open Egg.Data HeapObject FileImageSegment

def numberBytes : Nat → Nat → List UInt8
  | 0, _ => []
  | width + 1, value => UInt8.ofNat value :: numberBytes width (value / 256)

structure SegmentFile where
  header : ImageSegmentHeader
  area : List UInt8
  importStrings : List (List UInt8)
  importDescriptors : List (List Nat)
  exports : List (List UInt8 × Nat)

namespace SegmentFile

def importStringBytes (string : List UInt8) : List UInt8 :=
  numberBytes 4 string.length ++ string

def importDescriptorBytes (descriptor : List Nat) : List UInt8 :=
  numberBytes 4 descriptor.length ++ descriptor.flatMap (numberBytes 4)

def exportBytes (entry : List UInt8 × Nat) : List UInt8 :=
  numberBytes 8 entry.2 ++ (numberBytes 8 entry.1.length ++ entry.1)

variable (file : SegmentFile)

def headerBytes : List UInt8 :=
  file.header.signature ++ (numberBytes 8 file.header.baseAddress ++
    (numberBytes 8 file.header.size ++ (numberBytes 8 file.header.reservedSize ++
      numberBytes 8 file.header.module)))

/-- What is copied to memory: the header and the objects. -/
def image : List UInt8 := file.headerBytes ++ file.area

def tables : List UInt8 :=
  (numberBytes 4 file.importStrings.length ++ file.importStrings.flatMap importStringBytes) ++
    ((numberBytes 4 file.importDescriptors.length ++
        file.importDescriptors.flatMap importDescriptorBytes) ++
      (numberBytes 4 file.exports.length ++ file.exports.flatMap exportBytes))

def bytes : List UInt8 := file.image ++ file.tables

/-- The image as a memory that starts at address 0. -/
def memory : Bytes := Bytes.copy (fun _ => 0) 0 file.image

/-- Every number of the file fits in its field, and the objects fill the area. -/
structure WellFormed (platform : Platform) (objects : List Nat) : Prop where
  signature : file.header.signature = Memory.signature
  aligned : file.header.baseAddress % platform.pageSize = 0
  baseAddress : file.header.baseAddress < 2 ^ 64
  size : file.header.size < 2 ^ 64
  reservedSize : file.header.reservedSize < 2 ^ 64
  module : file.header.module < 2 ^ 64
  area : imageSegmentHeaderSize + file.area.length = file.header.size
  importStrings : file.importStrings.length < 2 ^ 32
  importString : ∀ string ∈ file.importStrings, string.length < 2 ^ 32
  importDescriptors : file.importDescriptors.length < 2 ^ 32
  importDescriptor : ∀ descriptor ∈ file.importDescriptors,
    descriptor.length < 2 ^ 32 ∧ ∀ word ∈ descriptor, word < 2 ^ 32
  exports : file.exports.length < 2 ^ 32
  exported : ∀ entry ∈ file.exports, entry.1.length < 2 ^ 64 ∧ entry.2 < 2 ^ 64
  tiles : Tiles file.memory imageSegmentHeaderSize file.header.size objects
  measurable : ∀ object ∈ objects, Measurable file.memory object

end SegmentFile

/-! ### Reading the file -/

theorem numberBytes_length (width value : Nat) : (numberBytes width value).length = width := by
  induction width generalizing value with
  | zero => rfl
  | succ width ih => rw [numberBytes, List.length_cons, ih]

theorem number_numberBytes {width value : Nat} (small : value < 256 ^ width) :
    number (numberBytes width value) = value := by
  induction width generalizing value with
  | zero =>
    rw [pow_zero] at small
    rw [numberBytes, number]
    omega
  | succ width ih =>
    have rest : value / 256 < 256 ^ width := by
      rw [pow_succ] at small
      omega
    rw [numberBytes, number, ih rest, UInt8.toNat_ofNat']
    omega

open Reader

theorem reads_number {width value : Nat} (small : value < 256 ^ width) :
    Reads (readNumber width) (numberBytes width value) value := by
  have bytes : Reads (byte.times width) (numberBytes width value) (numberBytes width value) := by
    have all := reads_bytes (numberBytes width value)
    rwa [numberBytes_length] at all
  have read := bytes.map number
  rwa [number_numberBytes small] at read

/-- A count and then so many items. -/
theorem reads_counted {α : Type} {reader : Reader α} {encode : α → List UInt8} {items : List α}
    {width : Nat} (few : items.length < 256 ^ width)
    (each : ∀ item ∈ items, Reads reader (encode item) item) :
    Reads (do let count ← readNumber width; reader.times count)
      (numberBytes width items.length ++ items.flatMap encode) items := by
  have all : Reads (reader.times items.length) (items.flatMap encode) (items.map id) :=
    Reads.times each
  rw [List.map_id] at all
  exact (reads_number few).bind all

namespace SegmentFile

variable {file : SegmentFile} {platform : Platform} {objects : List Nat}

theorem reads_header (wellFormed : file.WellFormed platform objects) :
    Reads readHeader file.headerBytes file.header := by
  have signature : Reads (byte.times 8) file.header.signature file.header.signature := by
    have all := reads_bytes file.header.signature
    rwa [wellFormed.signature] at all ⊢
  exact signature.bind ((reads_number wellFormed.baseAddress).bind
    ((reads_number wellFormed.size).bind ((reads_number wellFormed.reservedSize).bind
      ((reads_number wellFormed.module).map _))))

theorem reads_importString {string : List UInt8} (short : string.length < 2 ^ 32) :
    Reads readImportString (importStringBytes string) string :=
  (reads_number short).bind (reads_bytes string)

theorem reads_importDescriptor {descriptor : List Nat} (short : descriptor.length < 2 ^ 32)
    (words : ∀ word ∈ descriptor, word < 2 ^ 32) :
    Reads readImportDescriptor (importDescriptorBytes descriptor) descriptor :=
  reads_counted short fun word member => reads_number (words word member)

theorem reads_export {entry : List UInt8 × Nat} (short : entry.1.length < 2 ^ 64)
    (address : entry.2 < 2 ^ 64) : Reads readExport (exportBytes entry) entry :=
  (reads_number address).bind ((reads_number short).bind ((reads_bytes entry.1).map _))

theorem reads_tables (wellFormed : file.WellFormed platform objects) :
    Reads readTables file.tables (file.importStrings, file.importDescriptors, file.exports) := by
  have strings := reads_counted (show _ < 256 ^ 4 from wellFormed.importStrings) fun string member =>
    reads_importString (wellFormed.importString string member)
  have descriptors := reads_counted (show _ < 256 ^ 4 from wellFormed.importDescriptors) fun descriptor member =>
    reads_importDescriptor (wellFormed.importDescriptor descriptor member).1
      (wellFormed.importDescriptor descriptor member).2
  have exports := reads_counted (show _ < 256 ^ 4 from wellFormed.exports) fun entry member =>
    reads_export (wellFormed.exported entry member).1 (wellFormed.exported entry member).2
  exact strings.bind (descriptors.bind (exports.map _))

theorem image_length (wellFormed : file.WellFormed platform objects) :
    file.image.length = file.header.size := by
  have area := wellFormed.area
  simp only [image, headerBytes, List.length_append, numberBytes_length, wellFormed.signature,
    signature, List.length_cons, List.length_nil, imageSegmentHeaderSize] at area ⊢
  omega

/-- The segment that the file is loaded as. -/
def segment (file : SegmentFile) (currentBase : Nat) : FileImageSegment :=
  let segment : FileImageSegment :=
    { file with currentBase, exports := fun _ => none }
  { segment with exports := file.exports.foldl segment.addExport segment.exports }

theorem load_eq (wellFormed : file.WellFormed platform objects) (currentBase : Nat)
    (memory : Bytes) :
    load platform currentBase file.bytes memory = some (file.segment currentBase,
      (memory.fill currentBase file.header.reservedSize 0).copy currentBase file.image) := by
  have length := image_length wellFormed
  have header : readHeader file.bytes = some (file.header, file.area ++ file.tables) := by
    rw [bytes, image, List.append_assoc]
    exact reads_header wellFormed _
  have front : file.bytes.take file.header.size = file.image := by
    rw [bytes, ← length, List.take_left]
  have back : file.bytes.drop file.header.size = file.tables := by
    rw [bytes, ← length, List.drop_left]
  have tables : readTables file.tables =
      some ((file.importStrings, file.importDescriptors, file.exports), []) := by
    have read := reads_tables wellFormed []
    rwa [List.append_nil] at read
  have long : ¬ file.bytes.length < file.header.size := by
    rw [bytes, List.length_append, length]
    omega
  rw [load, header, Option.bind_eq_bind, Option.bind_some]
  simp only [ne_eq, wellFormed.signature, wellFormed.aligned, not_true_eq_false, if_false, long,
    front, back, tables]
  rfl

theorem load_copied (wellFormed : file.WellFormed platform objects) (currentBase : Nat)
    (memory : Bytes) : (file.segment currentBase).Copied file.memory 0 file.header.size
      (memory.copy currentBase file.image) := by
  intro place _ below
  rw [← image_length wellFormed] at below
  have here : Bytes.copy (fun _ => 0) 0 file.image (0 + place) = file.image[place] :=
    Bytes.copy_inside below
  rw [Nat.zero_add] at here
  rw [SegmentFile.memory, here]
  exact Bytes.copy_inside below

/-- An export's name leads to the relocated object of the last entry of that name. -/
theorem segment_exports (file : SegmentFile) (currentBase : Nat) (name : List UInt8) :
    (file.segment currentBase).exports name = (file.exports.reverse.lookup name).map
      (file.segment currentBase).relocatedAddress := by
  obtain ⟨header, area, importStrings, importDescriptors, exports⟩ := file
  induction exports using List.reverseRecOn with
  | nil => rfl
  | append_singleton exports entry ih =>
    obtain ⟨entryName, address⟩ := entry
    rw [List.reverse_append, List.reverse_singleton, List.singleton_append, List.lookup_cons]
    simp only [segment, List.foldl_append, List.foldl_cons, List.foldl_nil, addExport] at ih ⊢
    by_cases named : name = entryName
    · simp [named]
      rfl
    · simp only [named, if_false, beq_eq_false_iff_ne.mpr named]
      exact ih

/-! ### Completeness -/

/-- Every object of the file stands relocated in memory, no other byte of the image is changed, and
the exports and the module are relocated too. -/
structure Relocated (platform : Platform) (file : SegmentFile) (objects : List Nat)
    (imports : List Nat) (currentBase : Nat) (segment : FileImageSegment) (memory : Bytes) :
    Prop where
  references : ∀ object ∈ objects,
    (file.segment currentBase).ObjectRelocated platform imports file.memory object memory
  others : ∀ place < file.header.size, (∀ object ∈ objects, ¬ InWords file.memory object place) →
    memory (currentBase + place) = file.memory place
  exports : ∀ name, segment.exports name = (file.exports.reverse.lookup name).map
    fun address => (currentBase + (file.segment currentBase).offset address) % 2 ^ 64
  module : segment.header.module =
    (currentBase + (file.segment currentBase).offset file.header.module) % 2 ^ 64

/-- The segment after relocation. -/
def fixedSegment (file : SegmentFile) (currentBase : Nat) : FileImageSegment :=
  { file.segment currentBase with
    header := { file.header with
      module := (file.segment currentBase).relocatedAddress file.header.module } }

theorem load_and_fix (wellFormed : file.WellFormed platform objects) {imports : List Nat}
    {currentBase : Nat} (bindable : ∀ object ∈ objects,
      (file.segment currentBase).Bindable platform imports file.memory object)
    (memory : Bytes) : ∃ loaded fixed,
      load platform currentBase file.bytes memory = some (file.segment currentBase, loaded) ∧
      (file.segment currentBase).fixPointerSlots platform imports loaded =
        some (file.fixedSegment currentBase, fixed) ∧
      (file.segment currentBase).Copied file.memory 0 file.header.size loaded ∧
      Fixed platform (file.segment currentBase) imports file.memory imageSegmentHeaderSize objects
        loaded fixed := by
  have copied := load_copied wellFormed currentBase
    (memory.fill currentBase file.header.reservedSize 0)
  obtain ⟨fixed, run, done⟩ := fixObjects_spec wellFormed.tiles wellFormed.measurable bindable
    (copied.mono (Nat.zero_le _) (Nat.le_refl _))
  refine ⟨_, fixed, load_eq wellFormed currentBase memory, ?_, copied, done⟩
  rw [fixPointerSlots, spaceStart, run]
  rfl

theorem fixed_relocated_iff (wellFormed : file.WellFormed platform objects) {imports : List Nat}
    {currentBase : Nat} {loaded fixed : Bytes} (bindable : ∀ object ∈ objects,
      (file.segment currentBase).Bindable platform imports file.memory object)
    (copied : (file.segment currentBase).Copied file.memory 0 file.header.size loaded)
    (done : Fixed platform (file.segment currentBase) imports file.memory imageSegmentHeaderSize
      objects loaded fixed) :
    Relocated platform file objects imports currentBase (file.fixedSegment currentBase) fixed ↔
      ∀ object ∈ objects, object = file.header.size →
        (file.segment currentBase).UnmovedBehavior platform imports
          (basicBehavior file.memory object) := by
  have references_iff := done.relocated_iff wellFormed.baseAddress wellFormed.tiles bindable
  refine Iff.trans ⟨Relocated.references, fun relocated => ⟨relocated,
    fun place below unchanged => ?_, fun name => ?_, relocated_offset _⟩⟩ references_iff
  · by_cases inArea : imageSegmentHeaderSize ≤ place
    · exact done.kept place inArea below fun object member _ => unchanged object member
    · rw [done.outside _ (Or.inl (by simp only [segment]; omega))]
      exact copied place (Nat.zero_le _) below
  · have found := segment_exports file currentBase name
    exact found.trans (congrArg (Option.map · _) (funext relocated_offset))

/-- A well-formed file is loaded and fixed wherever its references can be bound. All of it is
relocated exactly if no object without a body stands at the very end with a behavior that moves. -/
theorem loaded_relocated_iff (wellFormed : file.WellFormed platform objects) {imports : List Nat}
    {currentBase : Nat} (bindable : ∀ object ∈ objects,
      (file.segment currentBase).Bindable platform imports file.memory object)
    (memory : Bytes) : ∃ segment loaded relocated fixed,
      load platform currentBase file.bytes memory = some (segment, loaded) ∧
      segment.fixPointerSlots platform imports loaded = some (relocated, fixed) ∧
      (Relocated platform file objects imports currentBase relocated fixed ↔
        ∀ object ∈ objects, object = file.header.size →
          segment.UnmovedBehavior platform imports (basicBehavior file.memory object)) := by
  obtain ⟨loaded, fixed, loading, fixing, copied, done⟩ := load_and_fix wellFormed bindable memory
  exact ⟨_, loaded, _, fixed, loading, fixing,
    fixed_relocated_iff wellFormed bindable copied done⟩

end SegmentFile

/-- A platform where behaviors are in the lowest four gigabytes. -/
def lowPlatform : Platform := ⟨4096, 0, rfl⟩

/-- A file with an object that has no body, and one that has two slots. -/
def twoObjects : SegmentFile where
  header := ⟨signature, 0x200000, 72, 0x1000, 0x200038⟩
  area := [0, 0, 0, 0x80, 0x38, 0, 0x20, 0] ++ [0, 0, 2, 0x80, 2, 0, 0, 0] ++
    [0x30, 0, 0x20, 0, 0, 0, 0, 0] ++ [2, 0, 0, 0, 0, 0, 0, 0]
  importStrings := []
  importDescriptors := []
  exports := [([0x61], 0x200030)]

theorem twoObjects_wellFormed : twoObjects.WellFormed lowPlatform [48, 56] where
  signature := rfl
  aligned := by decide
  baseAddress := by decide
  size := by decide
  reservedSize := by decide
  module := by decide
  area := by decide
  importStrings := by decide
  importString := by decide
  importDescriptors := by decide
  importDescriptor := by decide
  exports := by decide
  exported := by decide
  tiles := by decide
  measurable := by decide

theorem twoObjects_bindable : ∀ object ∈ [48, 56], (twoObjects.segment 0x300000).Bindable
    lowPlatform [0x500000] twoObjects.memory object := by
  have slot_bound : ∀ index < 2, BindableSlot [0x500000] (slot twoObjects.memory 56 index) := by
    intro index inside imported
    have small : slot twoObjects.memory 56 index / 4 = 0 ∨
        slot twoObjects.memory 56 index % 4 ≠ 2 := by
      have all : ∀ index < 2, slot twoObjects.memory 56 index / 4 = 0 ∨
        slot twoObjects.memory 56 index % 4 ≠ 2 := by decide
      exact all index inside
    rcases small with first | other
    · rw [first]
      exact ⟨0x500000, rfl, by decide⟩
    · exact absurd imported other
  intro object member
  rcases List.mem_cons.mp member with rfl | further
  · refine ⟨?_, fun index inside => absurd inside (Nat.not_lt_zero index)⟩
    show if _ then _ else _
    rw [if_pos (by decide)]
    decide
  · obtain rfl := List.mem_singleton.mp further
    refine ⟨?_, slot_bound⟩
    show if _ then _ else _
    rw [if_neg (by decide), if_pos (by decide)]
    exact ⟨0x500000, by decide, by decide⟩

theorem SegmentFile.loaded_relocated_iff_slots :
    ∃ segment loaded relocated fixed,
      load lowPlatform 0x300000 twoObjects.bytes (fun _ => 0) = some (segment, loaded) ∧
      segment.fixPointerSlots lowPlatform [0x500000] loaded = some (relocated, fixed) ∧
      twoObjects.Relocated lowPlatform [48, 56] [0x500000] 0x300000 relocated fixed := by
  obtain ⟨segment, loaded, relocated, fixed, loading, fixing, complete⟩ :=
    SegmentFile.loaded_relocated_iff twoObjects_wellFormed twoObjects_bindable (fun _ => 0)
  have inside : ∀ object ∈ [48, 56], object ≠ twoObjects.header.size := by decide
  exact ⟨segment, loaded, relocated, fixed, loading, fixing,
    complete.mpr fun object member last => absurd last (inside object member)⟩

/-- A file whose only object has no body. -/
def bareObject : SegmentFile where
  header := ⟨signature, 0x200000, 48, 0x1000, 0x200030⟩
  area := [0, 0, 0, 0x80, 0x30, 0, 0x20, 0]
  importStrings := []
  importDescriptors := []
  exports := []

theorem bareObject_wellFormed : bareObject.WellFormed lowPlatform [48] where
  signature := rfl
  aligned := by decide
  baseAddress := by decide
  size := by decide
  reservedSize := by decide
  module := by decide
  area := by decide
  importStrings := by decide
  importString := by decide
  importDescriptors := by decide
  importDescriptor := by decide
  exports := by decide
  exported := by decide
  tiles := by decide
  measurable := by decide

/-- The behavior of the last object keeps the address it had in the file. -/
theorem SegmentFile.last_behavior_unmoved : ∃ segment loaded relocated fixed,
    bareObject.WellFormed lowPlatform [48] ∧
    load lowPlatform 0x300000 bareObject.bytes (fun _ => 0) = some (segment, loaded) ∧
    segment.fixPointerSlots lowPlatform [] loaded = some (relocated, fixed) ∧
    ¬ bareObject.Relocated lowPlatform [48] [] 0x300000 relocated fixed := by
  have bindable : ∀ object ∈ [48], (bareObject.segment 0x300000).Bindable lowPlatform []
      bareObject.memory object := by
    intro object member
    obtain rfl := List.mem_singleton.mp member
    refine ⟨?_, fun index inside => absurd inside (Nat.not_lt_zero index)⟩
    show if _ then _ else _
    rw [if_pos (by decide)]
    decide
  obtain ⟨loaded, fixed, loading, fixing, copied, done⟩ :=
    SegmentFile.load_and_fix bareObject_wellFormed bindable (fun _ => 0)
  refine ⟨_, loaded, _, fixed, bareObject_wellFormed, loading, fixing, fun relocated => ?_⟩
  have unmoved := (SegmentFile.fixed_relocated_iff bareObject_wellFormed bindable copied done).mp
    relocated 48 (List.mem_singleton_self 48) rfl
  have internal : basicBehavior bareObject.memory 48 % 4 = 0 := by decide
  rw [UnmovedBehavior, if_pos internal] at unmoved
  exact absurd unmoved (by decide)

end Egg.Memory
