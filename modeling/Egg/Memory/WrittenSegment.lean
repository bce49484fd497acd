import Egg.Memory.Layout

/-! The bytes that a writer leaves for a closed set of objects: those of a segment file. -/
namespace Egg.Memory

open Egg.Data
open Egg.Unicode (Text)

/-! ### Numbers and strings -/

theorem numberBytes_mod (width value : Nat) :
    numberBytes width (value % 256 ^ width) = numberBytes width value := by
  induction width generalizing value with
  | zero => rfl
  | succ width ih =>
    have low : UInt8.ofNat (value % 256 ^ (width + 1)) = UInt8.ofNat value := by
      apply UInt8.toNat_inj.mp
      rw [UInt8.toNat_ofNat', UInt8.toNat_ofNat', pow_succ']
      exact Nat.mod_mul_right_mod ..
    have high : value % 256 ^ (width + 1) / 256 = value / 256 % 256 ^ width := by
      rw [pow_succ', Nat.mod_mul_right_div_self]
    rw [numberBytes, numberBytes, low, high, ih]

/-- A number that is not negative is written as itself. -/
theorem integerBytes_nat (width value : Nat) :
    integerBytes width (value : Int) = numberBytes width value := by
  have cast : ((value : Int) % 256 ^ width).toNat = value % 256 ^ width := by
    have power : (256 ^ width : Int) = ((256 ^ width : Nat) : Int) := by norm_cast
    rw [power, ← Int.natCast_mod, Int.toNat_natCast]
  rw [integerBytes, cast, numberBytes_mod]

theorem integerBytes_length (width : Nat) (integer : Int) :
    (integerBytes width integer).length = width :=
  numberBytes_length ..

theorem longsBytes_length (longs : List UInt32) :
    (longs.flatMap fun long => numberBytes 4 long.toNat).length = 4 * longs.length := by
  induction longs with
  | nil => rfl
  | cons long longs ih =>
    rw [List.flatMap_cons, List.length_append, numberBytes_length, ih, List.length_cons]
    lia

theorem textSize_le (text : Text) : text.size ≤ (textContents text).length := by
  cases text with
  | string bytes => simp [Text.size, Text.codes, textContents]
  | wideString longs =>
    rw [textContents, longsBytes_length]
    simp only [Text.size, Text.codes, List.length_map]
    lia

/-- The bytes that stand for a string in the tables. -/
def writtenText (text : Text) : List UInt8 := (textContents text).take text.size

theorem writtenText_length (text : Text) : (writtenText text).length = text.size := by
  rw [writtenText, List.length_take, Nat.min_eq_left (textSize_le text)]

theorem putText_eq (stream : List UInt8) (text : Text) :
    putText stream text = stream ++ writtenText text :=
  rfl

theorem bodySize_le {ι : Type} (body : Body ι) (bytes : body.isBytes = true) :
    body.size ≤ body.contents.length := by
  cases body with
  | slots held => exact absurd bytes Bool.false_ne_true
  | bytes held => exact Nat.le_refl _
  | text characters => exact textSize_le characters

theorem headerSize_eq {ι : Type} (body : Body ι) (bytes : body.isBytes = true) :
    body.headerSize = body.contents.length := by
  cases body with
  | slots held => exact absurd bytes Bool.false_ne_true
  | bytes held => rfl
  | text characters => rfl

theorem sizeInBytes_eq {ι : Type} (body : Body ι) (bytes : body.isBytes = true) :
    body.sizeInBytes = (body.headerSize + wordSize - 1) / wordSize * wordSize := by
  cases body with
  | slots held => exact absurd bytes Bool.false_ne_true
  | bytes held => rfl
  | text characters => rfl

namespace NativeWriter

variable {ι : Type} [DecidableEq ι] (writer : NativeWriter ι)

/-! ### The file -/

def objectHeaderBytes (id : ι) : List UInt8 :=
  let object := writer.heap id
  (if object.isLarge then numberBytes 4 object.body.headerSize ++ numberBytes 4 0 else []) ++
    (numberBytes 2 object.hash.toNat ++
      ([UInt8.ofNat (if object.isLarge then 0 else object.body.headerSize)] ++ ([object.flags] ++
        integerBytes 4 (writer.encoding (.object object.behavior)))))

/-- The elements of a body of bytes, and zeros from there on. -/
def bodyBytes (body : Body ι) : List UInt8 :=
  if body.isBytes then
    body.contents.take body.size ++ List.replicate (body.sizeInBytes - body.size) 0
  else body.pointers.flatMap fun slot => integerBytes 8 (writer.encoding slot)

def objectBytes (id : ι) : List UInt8 :=
  writer.objectHeaderBytes id ++ writer.bodyBytes (writer.heap id).body

/-- The word that a reference is in the file. -/
def word (slot : Slot ι) : Nat := (writer.encoding slot % 256 ^ 8).toNat

/-- What the writer writes. -/
def segmentFile : SegmentFile where
  header := ⟨signature, writer.base, writer.size, writer.size + 0x20000,
    writer.word (.object writer.module)⟩
  area := writer.stored.flatMap writer.objectBytes
  importStrings := writer.computeImportStrings.map writtenText
  importDescriptors := writer.imports.map fun entry =>
    entry.2.descriptor.map fun text => (writer.importStringAt text).getD 0
  exports := writer.exports.map fun entry => (writtenText entry.1, writer.word entry.2)

variable {writer}

omit [DecidableEq ι] in
theorem writeObjectBytes_eq (stream : List UInt8) {body : Body ι} (bytes : body.isBytes = true) :
    writeObjectBytes stream body = stream ++
      (body.contents.take body.size ++ List.replicate (body.sizeInBytes - body.size) 0) := by
  have within := bodySize_le body bytes
  have whole := headerSize_eq body bytes
  have rounded := sizeInBytes_eq body bytes
  have written : (nextPutAll stream body.contents body.size).length - stream.length = body.size := by
    rw [nextPutAll, List.length_append, List.length_take, Nat.min_eq_left within]
    lia
  rw [wordSize] at rounded
  simp only [writeObjectBytes, written, wordSize]
  split
  next aligned =>
    have total : body.sizeInBytes - body.size = body.headerSize - body.size := by lia
    rw [nextPutAll, total, List.append_assoc]
  next misaligned =>
    have total : body.sizeInBytes - body.size =
        (body.headerSize - body.size) + (8 - body.headerSize % 8) := by lia
    rw [nextPutAll, total, List.replicate_add]
    simp only [List.append_assoc]

theorem bodyBytes_length (body : Body ι) : (writer.bodyBytes body).length = body.sizeInBytes := by
  rw [bodyBytes]
  split
  next bytes =>
    have within := bodySize_le body bytes
    have whole := headerSize_eq body bytes
    have rounded := sizeInBytes_eq body bytes
    rw [wordSize] at rounded
    rw [List.length_append, List.length_take, List.length_replicate, Nat.min_eq_left within]
    lia
  next pointers =>
    cases body with
    | bytes held => exact absurd rfl pointers
    | text characters => exact absurd rfl pointers
    | slots held =>
      have words : ∀ slots : List (Slot ι), (slots.flatMap fun slot =>
          integerBytes 8 (writer.encoding slot)).length = slots.length * wordSize := by
        intro slots
        induction slots with
        | nil => rfl
        | cons slot slots ih =>
          rw [List.flatMap_cons, List.length_append, integerBytes_length, ih, List.length_cons,
            wordSize]
          lia
      exact words held

theorem objectHeaderBytes_length (id : ι) :
    (writer.objectHeaderBytes id).length = objectHeaderSizeInBytes (writer.heap id) := by
  rw [objectHeaderBytes, objectHeaderSizeInBytes]
  split <;> simp [numberBytes_length, integerBytes_length]

theorem objectBytes_length (id : ι) : (writer.objectBytes id).length =
    objectHeaderSizeInBytes (writer.heap id) + (writer.heap id).body.sizeInBytes := by
  rw [objectBytes, List.length_append, objectHeaderBytes_length, bodyBytes_length]

theorem area_length (ids : List ι) :
    (ids.flatMap writer.objectBytes).length = writer.areaSize ids := by
  induction ids with
  | nil => rfl
  | cons id ids ih =>
    rw [List.flatMap_cons, List.length_append, objectBytes_length, ih, areaSize_cons]

/-! ### Writing -/

/-- A loop that appends the bytes of each item. -/
theorem foldlM_appends {α : Type} {step : List UInt8 → α → Option (List UInt8)}
    {encode : α → List UInt8} {items : List α} (stream : List UInt8)
    (each : ∀ item ∈ items, ∀ stream, step stream item = some (stream ++ encode item)) :
    items.foldlM step stream = some (stream ++ items.flatMap encode) := by
  induction items generalizing stream with
  | nil =>
    rw [List.flatMap_nil, List.append_nil]
    rfl
  | cons item items ih =>
    have rest := ih (stream ++ encode item) fun other member =>
      each other (List.mem_cons_of_mem _ member)
    rw [List.foldlM_cons, each item (List.mem_cons_self ..), Option.bind_eq_bind, Option.bind_some,
      rest, List.flatMap_cons, List.append_assoc]

section Closed

variable (closed : writer.Closed)

include closed

theorem Closed.writeReferenceTo_eq {slot : Slot ι} (known : writer.Known slot)
    (stream : List UInt8) : writer.writeReferenceTo stream slot =
      some (stream ++ integerBytes 8 (writer.encoding slot)) := by
  rw [writeReferenceTo, closed.encoded known]
  rfl

theorem Closed.writeHeader_eq : writer.writeHeader (writeSignature []) =
    some (writer.segmentFile.headerBytes) := by
  have known : writer.Known (.object writer.module) := Or.inl closed.module
  have whole : integerBytes 8 (writer.encoding (.object writer.module)) =
      numberBytes 8 (writer.word (.object writer.module)) :=
    rfl
  rw [writeHeader, closed.writeReferenceTo_eq known, whole, nextULargePut, nextULargePut,
    nextULargePut, integerBytes_nat, integerBytes_nat, integerBytes_nat]
  simp only [SegmentFile.headerBytes, segmentFile, signature, writeSignature, nextPut,
    List.nil_append, List.append_assoc, List.cons_append]

theorem Closed.writeObjectHeader_eq {front back : List ι} {id : ι} {stream : List UInt8}
    (split : writer.stored = front ++ id :: back)
    (position : stream.length = objectsOffset + writer.areaSize front) :
    writer.writeObjectHeader stream id = some (stream ++ writer.objectHeaderBytes id) := by
  have member : id ∈ writer.stored := split ▸ List.mem_append_right _ (List.mem_cons_self ..)
  have written : nextULongPut (nextPut (nextPut (nextUShortPut
      (if (writer.heap id).isLarge then
        nextULongPut (nextULongPut stream (writer.heap id).body.headerSize) 0 else stream)
      (writer.heap id).hash.toNat)
      (UInt8.ofNat (if (writer.heap id).isLarge then 0 else (writer.heap id).body.headerSize)))
      (writer.heap id).flags) (writer.encoding (.object (writer.heap id).behavior)) =
        stream ++ writer.objectHeaderBytes id := by
    have zero : integerBytes 4 0 = numberBytes 4 0 := integerBytes_nat 4 0
    rw [objectHeaderBytes, nextULongPut, nextPut, nextPut, nextUShortPut, integerBytes_nat]
    cases (writer.heap id).isLarge with
    | false => simp only [Bool.false_eq_true, if_false, List.nil_append, List.append_assoc]
    | true =>
      simp only [if_true, nextULongPut, integerBytes_nat, zero, List.append_assoc]
  have here : writer.offsetOf id = some (stream ++ writer.objectHeaderBytes id).length := by
    rw [offsetOf, closed.offsets_stored split, List.length_append, objectHeaderBytes_length,
      position]
  rw [writeObjectHeader, closed.encoded (closed.behavior id member)]
  simp only [Option.bind_eq_bind, Option.bind_some]
  rw [written, if_pos here]

theorem Closed.writeObjectBody_eq {id : ι} (here : id ∈ writer.stored) (stream : List UInt8) :
    writer.writeObjectBody stream (writer.heap id).body =
      some (stream ++ writer.bodyBytes (writer.heap id).body) := by
  rw [writeObjectBody, bodyBytes]
  split
  next bytes => rw [writeObjectBytes_eq stream bytes]
  next pointers =>
    apply foldlM_appends
    intro slot member stream
    exact closed.writeReferenceTo_eq (closed.pointer id here slot member) stream

theorem Closed.writeStored_eq {front back : List ι} {stream : List UInt8}
    (split : writer.stored = front ++ back)
    (position : stream.length = objectsOffset + writer.areaSize front) :
    back.foldlM (fun stream id => writer.writeObject stream (.object id)) stream =
      some (stream ++ back.flatMap writer.objectBytes) := by
  induction back generalizing front stream with
  | nil =>
    rw [List.flatMap_nil, List.append_nil]
    rfl
  | cons id back ih =>
    have member : id ∈ writer.stored := split ▸ List.mem_append_right _ (List.mem_cons_self ..)
    have object : writer.writeObject stream (.object id) =
        some (stream ++ writer.objectBytes id) := by
      rw [writeObject, closed.writeObjectHeader_eq split position, Option.bind_eq_bind,
        Option.bind_some, closed.writeObjectBody_eq member, objectBytes, List.append_assoc]
    have moved : (stream ++ writer.objectBytes id).length =
        objectsOffset + writer.areaSize (front ++ [id]) := by
      rw [List.length_append, objectBytes_length, position, areaSize_append, areaSize_cons]
      exact Nat.add_assoc ..
    have after : writer.stored = (front ++ [id]) ++ back := by
      rw [split, List.append_assoc, List.singleton_append]
    rw [List.foldlM_cons, object, Option.bind_eq_bind, Option.bind_some, ih after moved,
      List.flatMap_cons, List.append_assoc]

end Closed

theorem writeSlots_stored (slots : List (Slot ι)) (stream : List UInt8) :
    slots.foldlM writer.writeObject stream = (slots.filterMap fun slot => match slot with
      | .smallInteger _ _ => none
      | .object id => some id).foldlM (fun stream id => writer.writeObject stream (.object id))
        stream := by
  induction slots generalizing stream with
  | nil => rfl
  | cons slot slots ih =>
    cases slot with
    | smallInteger value fits => exact ih stream
    | object id =>
      rw [List.foldlM_cons]
      refine Eq.trans ?_ List.foldlM_cons.symm
      exact congrArg _ (funext ih)

/-! ### Import strings -/

/-- The strings of the descriptors, in the order in which they are entered. -/
def importTexts (writer : NativeWriter ι) : List Text :=
  writer.imports.flatMap fun entry => entry.2.descriptor

omit [DecidableEq ι] in
theorem computeImportStrings_eq :
    writer.computeImportStrings = writer.importTexts.foldl addImportString [] := by
  rw [computeImportStrings, importTexts, List.foldl_flatMap]

theorem equals_iff {text other : Text} : text.equals other = true ↔ text.codes = other.codes :=
  decide_eq_true_iff

/-- Entering a string that is there already finds the same strings as before. -/
theorem addImportString_find (importStrings rest : List Text) (entered text : Text) :
    (addImportString importStrings entered ++ rest).find? text.equals =
      (importStrings ++ entered :: rest).find? text.equals := by
  rw [addImportString]
  split
  next present =>
    obtain ⟨earlier, member, same⟩ := List.any_eq_true.mp present
    rw [List.find?_append, List.find?_append, List.find?_cons]
    cases found : importStrings.find? text.equals with
    | some first => rfl
    | none =>
      have other : text.equals entered = false := by
        apply Bool.eq_false_iff.mpr
        intro equal
        have chained : text.equals earlier = true :=
          equals_iff.mpr ((equals_iff.mp equal).trans (equals_iff.mp same))
        exact absurd chained (by simpa using List.find?_eq_none.mp found earlier member)
      rw [other]
  next absent => rw [List.append_assoc, List.singleton_append]

theorem addImportStrings_find (importStrings texts : List Text) (text : Text) :
    (texts.foldl addImportString importStrings).find? text.equals =
      (importStrings ++ texts).find? text.equals := by
  induction texts generalizing importStrings with
  | nil => rw [List.foldl_nil, List.append_nil]
  | cons entered texts ih => rw [List.foldl_cons, ih, addImportString_find]

omit [DecidableEq ι] in
theorem computeImportStrings_find (text : Text) :
    writer.computeImportStrings.find? text.equals = writer.importTexts.find? text.equals := by
  rw [computeImportStrings_eq, addImportStrings_find, List.nil_append]

omit [DecidableEq ι] in
/-- The string that a descriptor's subscript leads to is the first equal one. -/
theorem importStringAt_found {text : Text} (entered : text ∈ writer.importTexts) :
    ∃ subscript first, writer.importStringAt text = some subscript ∧
      writer.computeImportStrings[subscript]? = some first ∧
      writer.importTexts.find? text.equals = some first := by
  obtain ⟨first, found⟩ := Option.isSome_iff_exists.mp
    (List.find?_isSome.mpr ⟨text, entered, equals_iff.mpr rfl⟩)
  have here : writer.computeImportStrings.find? text.equals =
      writer.importTexts.find? text.equals := computeImportStrings_find text
  rw [found] at here
  rw [List.find?_eq_bind_findIdx?_getElem?] at here
  obtain ⟨subscript, at_subscript, present⟩ := Option.bind_eq_some_iff.mp here
  exact ⟨subscript, first, at_subscript, present, found⟩

omit [DecidableEq ι] in
theorem writeImportStrings_eq (stream : List UInt8) : writer.writeImportStrings stream =
    stream ++ (numberBytes 4 (writer.computeImportStrings.map writtenText).length ++
      (writer.computeImportStrings.map writtenText).flatMap SegmentFile.importStringBytes) := by
  have each : ∀ (texts : List Text) (stream : List UInt8),
      texts.foldl (fun stream text => putText (nextULongPut stream text.size) text) stream =
        stream ++ (texts.map writtenText).flatMap SegmentFile.importStringBytes := by
    intro texts
    induction texts with
    | nil =>
      intro stream
      exact (List.append_nil stream).symm
    | cons text texts ih =>
      intro stream
      rw [List.foldl_cons, ih, List.map_cons, List.flatMap_cons, SegmentFile.importStringBytes,
        writtenText_length, putText_eq, nextULongPut, integerBytes_nat]
      simp only [List.append_assoc]
  rw [writeImportStrings, each, List.length_map, nextULongPut, integerBytes_nat, List.append_assoc]

omit [DecidableEq ι] in
theorem writeImport_eq {entry : ι × SymbolicReference} (member : entry ∈ writer.imports)
    (stream : List UInt8) : writer.writeImport stream entry.2 =
      some (stream ++ SegmentFile.importDescriptorBytes
        (entry.2.descriptor.map fun text => (writer.importStringAt text).getD 0)) := by
  have each : ∀ text ∈ entry.2.descriptor, ∀ stream,
      (do
        let subscript ← writer.importStringAt text
        some (nextULongPut stream subscript)) =
        some (stream ++ numberBytes 4 ((writer.importStringAt text).getD 0)) := by
    intro text inside stream
    obtain ⟨subscript, _, found, _⟩ :=
      importStringAt_found (List.mem_flatMap.mpr ⟨entry, member, inside⟩)
    rw [found]
    exact congrArg (fun bytes => some (stream ++ bytes)) (integerBytes_nat 4 subscript)
  rw [writeImport, foldlM_appends _ each, SegmentFile.importDescriptorBytes, List.length_map,
    nextULongPut, integerBytes_nat, List.flatMap_map, List.append_assoc]

omit [DecidableEq ι] in
theorem writeImports_eq (stream : List UInt8) : writer.writeImports stream =
    some (stream ++ (numberBytes 4 writer.imports.length ++ writer.imports.flatMap fun entry =>
      SegmentFile.importDescriptorBytes
        (entry.2.descriptor.map fun text => (writer.importStringAt text).getD 0))) := by
  rw [writeImports, foldlM_appends _ fun entry member => writeImport_eq member, nextULongPut,
    integerBytes_nat, List.append_assoc]

/-! ### The whole segment -/

section Closed

variable (closed : writer.Closed)

include closed

theorem Closed.writeObjects_eq {stream : List UInt8} (position : stream.length = objectsOffset) :
    writer.writeObjects stream = some (stream ++ writer.segmentFile.area) := by
  have start : stream.length = objectsOffset + writer.areaSize [] := position
  rw [writeObjects, if_pos position, writeSlots_stored]
  exact closed.writeStored_eq (List.nil_append _).symm start

theorem Closed.writeExports_eq (stream : List UInt8) : writer.writeExports stream =
    some (stream ++ (numberBytes 4 writer.exports.length ++ writer.exports.flatMap fun entry =>
      SegmentFile.exportBytes (writtenText entry.1, writer.word entry.2))) := by
  have each : ∀ entry ∈ writer.exports, ∀ stream, writer.writeExport stream entry =
      some (stream ++ SegmentFile.exportBytes (writtenText entry.1, writer.word entry.2)) := by
    intro entry member stream
    have whole : integerBytes 8 (writer.encoding entry.2) = numberBytes 8 (writer.word entry.2) :=
      rfl
    rw [writeExport, closed.encoded (closed.exported entry member), Option.bind_eq_bind,
      Option.bind_some, SegmentFile.exportBytes, writtenText_length, putText_eq, nextULargePut,
      nextULargePut, integerBytes_nat, whole]
    simp only [List.append_assoc]
  rw [writeExports, foldlM_appends _ each, nextULongPut, integerBytes_nat, List.append_assoc]

/-- A closed set of objects is written, and the bytes are those of its segment file. -/
theorem Closed.write_eq : writer.write = some writer.segmentFile.bytes := by
  have position : writer.segmentFile.headerBytes.length = objectsOffset := by
    simp only [SegmentFile.headerBytes, List.length_append, numberBytes_length]
    rfl
  rw [write, closed.writeHeader_eq, Option.bind_eq_bind, Option.bind_some,
    closed.writeObjects_eq position, Option.bind_some, writeImportStrings_eq, writeImports_eq,
    Option.bind_some, closed.writeExports_eq]
  simp only [SegmentFile.bytes, SegmentFile.image, SegmentFile.tables, segmentFile, List.length_map,
    List.flatMap_map, List.append_assoc]

end Closed

end NativeWriter

end Egg.Memory
