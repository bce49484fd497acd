import Mathlib.Data.List.Pairwise
import Egg.Memory.SegmentReferences

/-! The tables of a written segment: which strings they keep, and which exports name what was
exported. -/
namespace Egg.Memory

open Egg.Data FileImageSegment
open Egg.Unicode (Text)

/-! ### Strings -/

theorem codes_injective {bytes other : List UInt8}
    (same : bytes.map UInt8.toNat = other.map UInt8.toNat) : bytes = other :=
  (List.map_injective_iff.mpr fun _ _ => UInt8.toNat_inj.mp) same

theorem writtenText_string (bytes : List UInt8) : writtenText (.string bytes) = bytes := by
  have counted : (Text.string bytes).size = bytes.length := by
    rw [Text.size, Text.codes, List.length_map]
  rw [writtenText, counted]
  exact List.take_left

/-- The bytes of a wide string, four for each character. -/
theorem longsBytes_getElem? (longs : List UInt32) (index : Nat) :
    (longs.flatMap fun long => numberBytes 4 long.toNat)[index]? =
      longs[index / 4]?.map fun long => UInt8.ofNat (long.toNat / 256 ^ (index % 4)) := by
  induction longs generalizing index with
  | nil => rfl
  | cons long longs ih =>
    rw [List.flatMap_cons]
    by_cases first : index < 4
    · have inside : index < (numberBytes 4 long.toNat).length := by
        rwa [numberBytes_length]
      have zero : index / 4 = 0 := by lia
      have same : index % 4 = index := Nat.mod_eq_of_lt first
      have found := List.getElem?_eq_getElem inside
      rw [List.getElem?_append_left inside, zero, same, found,
        numberBytes_getElem? 4 long.toNat index _ found]
      rfl
    · obtain ⟨rest, rfl⟩ := Nat.exists_eq_add_of_le (Nat.not_lt.mp first)
      have later : (4 + rest) / 4 = rest / 4 + 1 := by lia
      have same : (4 + rest) % 4 = rest % 4 := by lia
      have past : (numberBytes 4 long.toNat).length ≤ 4 + rest := by
        rw [numberBytes_length]
        lia
      rw [List.getElem?_append_right past, numberBytes_length, Nat.add_sub_cancel_left, ih, later,
        same, List.getElem?_cons_succ]

theorem writtenText_wide {longs : List UInt32} {index : Nat} (inside : index < longs.length) :
    (writtenText (.wideString longs))[index]? =
      longs[index / 4]?.map fun long => UInt8.ofNat (long.toNat / 256 ^ (index % 4)) := by
  have counted : (Text.wideString longs).size = longs.length := by
    rw [Text.size, Text.codes, List.length_map]
  rw [writtenText, counted, List.getElem?_take_of_lt inside, textContents, longsBytes_getElem?]

theorem byte_above {number index : Nat} (small : number < 256) (positive : index ≠ 0) :
    number / 256 ^ index = 0 := by
  refine Nat.div_eq_of_lt (Nat.lt_of_lt_of_le small ?_)
  calc 256 = 256 ^ 1 := rfl
    _ ≤ 256 ^ index := Nat.pow_le_pow_right (by decide) (by lia)

/-- A wide string whose written bytes are its characters has one of them at most, and zeros. -/
theorem writtenText_wide_whole {longs : List UInt32}
    (low : ∀ long ∈ longs, long.toNat < 256)
    (zeros : ∀ index long, longs[index + 1]? = some long → long = 0) :
    (writtenText (.wideString longs)).map UInt8.toNat = (Text.wideString longs).codes := by
  apply List.ext_getElem?
  intro index
  rw [List.getElem?_map, Text.codes, List.getElem?_map]
  by_cases inside : index < longs.length
  · rw [writtenText_wide inside]
    cases index with
    | zero =>
      rw [Nat.zero_div, Nat.zero_mod, pow_zero, List.getElem?_eq_getElem inside]
      have small := low _ (List.getElem_mem inside)
      simp only [Option.map_some, Nat.div_one, UInt8.toNat_ofNat', Option.some.injEq]
      exact Nat.mod_eq_of_lt small
    | succ index =>
      have here := List.getElem?_eq_getElem inside
      have zero := zeros index _ here
      have quarter : (index + 1) / 4 < longs.length := by lia
      have found := List.getElem?_eq_getElem quarter
      have small := low _ (List.getElem_mem quarter)
      have byte : longs[(index + 1) / 4].toNat / 256 ^ ((index + 1) % 4) = 0 := by
        by_cases aligned : (index + 1) % 4 = 0
        · obtain ⟨before, previous⟩ := Nat.exists_eq_succ_of_ne_zero
            (show (index + 1) / 4 ≠ 0 by lia)
          have ended : longs[(index + 1) / 4] = 0 := by
            refine zeros before _ ?_
            rw [← Nat.succ_eq_add_one, ← previous]
            exact found
          rw [ended]
          exact Nat.zero_div _
        · exact byte_above small aligned
      rw [found, here, zero]
      simp only [Option.map_some, byte]
      rfl
  · have written : (writtenText (.wideString longs)).length ≤ index := by
      rw [writtenText_length, Text.size, Text.codes, List.length_map]
      lia
    rw [List.getElem?_eq_none written, List.getElem?_eq_none (Nat.not_lt.mp inside)]
    rfl

/-- Where every string is among those that were written, and no two are equal, every string was
written as it is. -/
theorem written_whole {α : Type} {entries : List α} {name : α → Text}
    (distinct : entries.Pairwise fun entry other => (name entry).codes ≠ (name other).codes)
    (found : ∀ entry ∈ entries, ∃ other ∈ entries,
      (writtenText (name other)).map UInt8.toNat = (name entry).codes) :
    ∀ entry ∈ entries, (writtenText (name entry)).map UInt8.toNat = (name entry).codes := by
  have low : ∀ entry ∈ entries, ∀ longs, name entry = .wideString longs →
      ∀ long ∈ longs, long.toNat < 256 := by
    intro entry member longs wide long inside
    obtain ⟨other, _, same⟩ := found entry member
    rw [wide] at same
    have code : long.toNat ∈ (Text.wideString longs).codes := List.mem_map_of_mem inside
    rw [← same] at code
    obtain ⟨byte, _, equal⟩ := List.mem_map.mp code
    have small := byte.toNat_lt
    lia
  have source : ∀ entry ∈ entries, ∀ longs, name entry = .wideString longs →
      ∃ other ∈ entries, ∃ longer, name other = .wideString longer ∧
        (writtenText (.wideString longer)).map UInt8.toNat = longs.map UInt32.toNat := by
    intro entry member longs wide
    obtain ⟨other, there, same⟩ := found entry member
    rw [wide] at same
    cases shape : name other with
    | wideString longer =>
      rw [shape] at same
      exact ⟨other, there, longer, shape, same⟩
    | string bytes =>
      rw [shape, writtenText_string] at same
      have apart : other ≠ entry := by
        intro equal
        rw [equal, wide] at shape
        cases shape
      have symmetric : Std.Symm fun entry other : α => (name entry).codes ≠ (name other).codes :=
        ⟨fun _ _ unequal => unequal.symm⟩
      have different := distinct.forall there member apart
      rw [shape, wide] at different
      exact absurd same different
  have zeros : ∀ index, ∀ entry ∈ entries, ∀ longs, name entry = .wideString longs →
      ∀ long, longs[index + 1]? = some long → long = 0 := by
    -- A character came from a quarter as far in another string, where only the lowest byte counts.
    intro index
    induction index using Nat.strongRecOn with
    | ind index ih =>
      intro entry member longs wide long here
      obtain ⟨other, there, longer, shape, same⟩ := source entry member longs wide
      have counted := congrArg List.length same
      rw [List.length_map, List.length_map, writtenText_length, Text.size, Text.codes,
        List.length_map] at counted
      have inside := (List.getElem?_eq_some_iff.mp here).1
      have quarter : (index + 1) / 4 < longer.length := by lia
      have origin := List.getElem?_eq_getElem quarter
      have at_index := congrArg (·[index + 1]?) same
      simp only [List.getElem?_map, here, Option.map_some] at at_index
      rw [writtenText_wide (by lia), origin] at at_index
      simp only [Option.map_some, Option.some.injEq] at at_index
      have byte : longer[(index + 1) / 4].toNat / 256 ^ ((index + 1) % 4) = 0 := by
        by_cases aligned : (index + 1) % 4 = 0
        · obtain ⟨before, previous⟩ := Nat.exists_eq_succ_of_ne_zero
            (show (index + 1) / 4 ≠ 0 by lia)
          have ended : longer[(index + 1) / 4] = 0 := by
            refine ih before (by lia) other there longer shape _ ?_
            rw [← Nat.succ_eq_add_one, ← previous]
            exact origin
          rw [ended]
          exact Nat.zero_div _
        · have small := low other there longer shape _ (List.getElem_mem quarter)
          exact byte_above small aligned
      rw [byte] at at_index
      exact UInt32.toNat_inj.mp at_index.symm
  intro entry member
  cases shape : name entry with
  | string bytes =>
    rw [writtenText_string]
    rfl
  | wideString longs =>
    exact writtenText_wide_whole (low entry member longs shape)
      fun index long here => zeros index entry member longs shape long here

/-! ### Lookups -/

section Lookup

variable {α β : Type} [BEq α] [LawfulBEq α] {entries : List (α × β)} {key : α} {value : β}

theorem mem_of_lookup (found : entries.lookup key = some value) : (key, value) ∈ entries := by
  obtain ⟨front, back, rfl, _⟩ := List.lookup_eq_some_iff.mp found
  exact List.mem_append_right _ (List.mem_cons_self ..)

theorem lookup_of_mem (distinct : entries.Pairwise fun first second => first.1 ≠ second.1)
    (member : (key, value) ∈ entries) : entries.lookup key = some value := by
  induction entries with
  | nil => cases member
  | cons entry entries ih =>
    obtain ⟨apart, distinct⟩ := List.pairwise_cons.mp distinct
    rw [List.lookup_cons]
    rcases List.mem_cons.mp member with rfl | later
    · rw [beq_self_eq_true]
    · have different : key ≠ entry.1 := (apart _ later).symm
      rw [beq_eq_false_iff_ne.mpr different]
      exact ih distinct later

end Lookup

namespace NativeWriter

variable {ι : Type} [DecidableEq ι] (writer : NativeWriter ι)

/-- An export that may be moved with the segment: an object of it, or what happens to be at the
address that its word has then. -/
def Movable (imports : List Nat) (currentBase : Nat) : Slot ι → Prop
  | .smallInteger _ _ => currentBase = writer.base
  | .object id => writer.surrogateFor id ∈ writer.stored ∨
    ∃ subscript : Nat, writer.imported[subscript]? = some (writer.surrogateFor id) ∧
      imports[subscript]? =
        some ((subscript * 4 + 2 + (currentBase + (2 ^ 64 - writer.base))) % 2 ^ 64)

variable {writer} {platform : Platform} {imports : List Nat} {currentBase : Nat}

/-! ### Imports -/

omit [DecidableEq ι] in
/-- The string that a subscript leads to is the first equal one, as it was written. -/
theorem importString_found {text : Text} (entered : text ∈ writer.importTexts) :
    ∃ first, writer.importTexts.find? text.equals = some first ∧
      (writer.computeImportStrings.map writtenText)[(writer.importStringAt text).getD 0]? =
        some (writtenText first) := by
  obtain ⟨subscript, first, at_subscript, present, found⟩ := importStringAt_found entered
  refine ⟨first, found, ?_⟩
  rw [at_subscript, Option.getD_some, List.getElem?_map, present]
  rfl

omit [DecidableEq ι] in
theorem descriptors_iff : List.Forall₂ (fun descriptor entry =>
      List.Forall₂ (fun subscript text => ∃ string : List UInt8,
        (writer.computeImportStrings.map writtenText)[subscript]? = some string ∧
          string.map UInt8.toNat = text.codes)
      descriptor (SymbolicReference.descriptor (Prod.snd entry)))
    (writer.imports.map fun entry =>
      entry.2.descriptor.map fun text => (writer.importStringAt text).getD 0) writer.imports ↔
    ∀ text ∈ writer.importTexts, ∀ first, writer.importTexts.find? text.equals = some first →
      (writtenText first).map UInt8.toNat = text.codes := by
  rw [List.forall₂_map_left_iff, List.forall₂_same]
  constructor
  · intro all text entered first found
    obtain ⟨entry, member, inside⟩ := List.mem_flatMap.mp entered
    have each := all entry member
    rw [List.forall₂_map_left_iff, List.forall₂_same] at each
    obtain ⟨string, present, same⟩ := each text inside
    obtain ⟨other, also, written⟩ := importString_found entered
    have one : other = first := Option.some.inj (also.symm.trans found)
    have string_eq : string = writtenText first := by
      rw [written, one] at present
      exact (Option.some.inj present).symm
    rwa [string_eq] at same
  · intro all entry member
    rw [List.forall₂_map_left_iff, List.forall₂_same]
    intro text inside
    have entered : text ∈ writer.importTexts := List.mem_flatMap.mpr ⟨entry, member, inside⟩
    obtain ⟨first, found, written⟩ := importString_found entered
    exact ⟨_, written, all text entered first found⟩

/-! ### Exports -/

section Closed

variable (closed : writer.Closed) (fits : writer.Fits platform)
  (placed : writer.Placed platform imports currentBase)

include closed fits placed

/-- An export is moved to the image of its object exactly if it may be moved with the segment. -/
theorem Closed.movable_iff {slot : Slot ι} (known : writer.Known slot) :
    writer.image currentBase imports slot =
        some ((writer.segmentFile.segment currentBase).relocatedAddress (writer.word slot)) ↔
      writer.Movable imports currentBase slot := by
  have base := fits.base
  have room := placed.room
  have moved : ∀ address, (writer.segmentFile.segment currentBase).relocatedAddress address =
      (address + (currentBase + (2 ^ 64 - writer.base)) % 2 ^ 64) % 2 ^ 64 := fun _ => rfl
  rw [moved]
  cases slot with
  | smallInteger value bounds =>
    have whole : (value * 2 + 1) % 256 ^ 8 < 2 ^ 64 := Int.emod_lt_of_pos _ (by decide)
    rw [image, word, encoding_smallInteger, Option.some.injEq, Movable]
    lia
  | object id =>
    rw [Movable]
    rcases known_cases known with here | ⟨subscript, found⟩
    · have window := closed.place_window fits here
      have inside := closed.place_body here
      refine ⟨fun _ => Or.inl here, fun _ => ?_⟩
      rw [image_stored here, closed.word_stored fits here]
      congr 1
      lia
    · rw [closed.image_imported found, closed.word_imported fits found, Nat.add_mod_mod]
      refine ⟨fun same => Or.inr ⟨subscript, found, same⟩, ?_⟩
      rintro (stored | ⟨other, also, same⟩)
      · exact absurd (List.mem_of_getElem? found) (closed.apart _ stored)
      · have one : other = subscript := by
          have first := idxOf?_of_nodup closed.imported also
          rw [idxOf?_of_nodup closed.imported found] at first
          exact (Option.some.inj first).symm
        rwa [one] at same

/-- The exports lead to what was exported exactly if every name was written as it is and every
object may be moved with the segment. -/
theorem Closed.exports_iff : (∀ entry ∈ writer.exports, ∃ (name : List UInt8) (address : Nat),
      name.map UInt8.toNat = entry.1.codes ∧
        (writer.segmentFile.segment currentBase).exports name = some address ∧
        writer.image currentBase imports entry.2 = some address) ↔
    (∀ entry ∈ writer.exports, (writtenText entry.1).map UInt8.toNat = entry.1.codes) ∧
      ∀ entry ∈ writer.exports, writer.Movable imports currentBase entry.2 := by
  have exports_eq : ∀ name, (writer.segmentFile.segment currentBase).exports name =
      (writer.segmentFile.exports.reverse.lookup name).map
        (writer.segmentFile.segment currentBase).relocatedAddress :=
    SegmentFile.segment_exports writer.segmentFile currentBase
  have own : (∀ entry ∈ writer.exports, (writtenText entry.1).map UInt8.toNat = entry.1.codes) →
      ∀ entry ∈ writer.exports, (writer.segmentFile.segment currentBase).exports
        (writtenText entry.1) = some
          ((writer.segmentFile.segment currentBase).relocatedAddress (writer.word entry.2)) := by
    intro whole entry member
    have distinct : writer.segmentFile.exports.Pairwise fun first second => first.1 ≠ second.1 := by
      refine List.pairwise_map.mpr (closed.names.imp_of_mem fun first second different same => ?_)
      have codes := congrArg (List.map UInt8.toNat) same
      rw [whole _ first, whole _ second] at codes
      exact different codes
    have reversed : writer.segmentFile.exports.reverse.Pairwise
        fun first second => first.1 ≠ second.1 :=
      List.pairwise_reverse.mpr (distinct.imp fun different => different.symm)
    have listed : (writtenText entry.1, writer.word entry.2) ∈ writer.segmentFile.exports.reverse :=
      List.mem_reverse.mpr (List.mem_map.mpr ⟨entry, member, rfl⟩)
    rw [exports_eq, lookup_of_mem reversed listed]
    rfl
  constructor
  · intro right
    have whole : ∀ entry ∈ writer.exports,
        (writtenText entry.1).map UInt8.toNat = entry.1.codes := by
      refine written_whole closed.names fun entry member => ?_
      obtain ⟨name, address, same, found, _⟩ := right entry member
      rw [exports_eq] at found
      obtain ⟨word, listed, _⟩ := Option.map_eq_some_iff.mp found
      obtain ⟨other, exported, equal⟩ :=
        List.mem_map.mp (List.mem_reverse.mp (mem_of_lookup listed))
      have name_eq : writtenText other.1 = name := congrArg Prod.fst equal
      exact ⟨other, exported, name_eq ▸ same⟩
    refine ⟨whole, fun entry member => ?_⟩
    obtain ⟨name, address, same, found, image_eq⟩ := right entry member
    have name_eq : writtenText entry.1 = name :=
      codes_injective ((whole entry member).trans same.symm)
    rw [← name_eq, own whole entry member] at found
    rw [← found] at image_eq
    exact (closed.movable_iff fits placed (closed.exported entry member)).mp image_eq
  · rintro ⟨whole, movable⟩ entry member
    exact ⟨_, _, whole entry member, own whole entry member,
      (closed.movable_iff fits placed (closed.exported entry member)).mpr (movable entry member)⟩

end Closed

end NativeWriter

end Egg.Memory
