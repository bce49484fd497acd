import Mathlib.Data.List.Nodup
import Egg.Memory.NativeWriter

/-! Where a writer lays out a closed set of objects, and how it encodes the references among
them. -/
namespace Egg.Memory

open Egg.Data
open Egg.Unicode (Text)

namespace NativeWriter

variable {ι : Type} [DecidableEq ι] (writer : NativeWriter ι)

def stored : List ι :=
  writer.objects.filterMap fun slot => match slot with
    | .smallInteger _ _ => none
    | .object id => some id

def imported : List ι := writer.imports.map Prod.fst

/-- `ObjectClosure >> surrogateFor:`. -/
def surrogateFor (id : ι) : ι :=
  if writer.nilToken = id then writer.closureNilToken else (writer.mapping.lookup id).getD id

/-- An integer, or an object that the segment or its imports have. -/
def Known : Slot ι → Prop
  | .smallInteger _ _ => True
  | .object id => writer.surrogateFor id ∈ writer.stored ∨ writer.surrogateFor id ∈ writer.imported

instance (slot : Slot ι) : Decidable (writer.Known slot) :=
  match slot with
  | .smallInteger _ _ => isTrue trivial
  | .object id => inferInstanceAs (Decidable
    (writer.surrogateFor id ∈ writer.stored ∨ writer.surrogateFor id ∈ writer.imported))

/-- Every reference leads to an object of the closure or to one of its boundary, and both hold
surrogates only, each once. -/
structure Closed : Prop where
  stored : writer.stored.Nodup
  imported : writer.imported.Nodup
  apart : ∀ id ∈ writer.stored, id ∉ writer.imported
  mapping : (writer.mapping.map Prod.fst).Nodup
  mapped : ∀ entry ∈ writer.mapping, entry.1 ∉ writer.stored ∧ entry.1 ∉ writer.imported
  behavior : ∀ id ∈ writer.stored, writer.Known (.object (writer.heap id).behavior)
  pointer : ∀ id ∈ writer.stored, ∀ slot ∈ (writer.heap id).body.pointers, writer.Known slot
  exported : ∀ entry ∈ writer.exports, writer.Known entry.2
  names : writer.exports.Pairwise fun entry other => entry.1.codes ≠ other.1.codes
  module : writer.surrogateFor writer.module ∈ writer.stored

/-- The room that objects take with their headers. -/
def areaSize (ids : List ι) : Nat :=
  (ids.map fun id =>
    objectHeaderSizeInBytes (writer.heap id) + (writer.heap id).body.sizeInBytes).sum

variable {writer}

/-! ### Layout -/

omit [DecidableEq ι] in
theorem areaSize_cons (id : ι) (ids : List ι) : writer.areaSize (id :: ids) =
    objectHeaderSizeInBytes (writer.heap id) + (writer.heap id).body.sizeInBytes +
      writer.areaSize ids := by
  rw [areaSize, List.map_cons, List.sum_cons, areaSize]

omit [DecidableEq ι] in
theorem areaSize_append (front back : List ι) :
    writer.areaSize (front ++ back) = writer.areaSize front + writer.areaSize back := by
  rw [areaSize, List.map_append, List.sum_append, areaSize, areaSize]

theorem layout_stored (layout : (ι → Option Nat) × Nat) (slots : List (Slot ι)) :
    slots.foldl writer.layoutSlot layout = (slots.filterMap fun slot => match slot with
      | .smallInteger _ _ => none
      | .object id => some id).foldl writer.layoutObject layout := by
  induction slots generalizing layout with
  | nil => rfl
  | cons slot slots ih =>
    cases slot with
    | smallInteger value fits => exact ih layout
    | object id => exact ih (writer.layoutObject layout id)

theorem layoutObjects_size (layout : (ι → Option Nat) × Nat) (ids : List ι) :
    (ids.foldl writer.layoutObject layout).2 = layout.2 + writer.areaSize ids := by
  induction ids generalizing layout with
  | nil => rfl
  | cons id ids ih =>
    rw [List.foldl_cons, ih, areaSize_cons, layoutObject]
    lia

theorem layoutObjects_absent (layout : (ι → Option Nat) × Nat) {ids : List ι} {id : ι}
    (absent : id ∉ ids) : (ids.foldl writer.layoutObject layout).1 id = layout.1 id := by
  induction ids generalizing layout with
  | nil => rfl
  | cons first ids ih =>
    rw [List.mem_cons, not_or] at absent
    rw [List.foldl_cons, ih _ absent.2]
    exact Function.update_of_ne absent.1 _ _

/-- An object stands after those before it and its own header. -/
theorem layoutObjects_present (layout : (ι → Option Nat) × Nat) {front back : List ι} {id : ι}
    (absent : id ∉ back) : ((front ++ id :: back).foldl writer.layoutObject layout).1 id =
      some (layout.2 + writer.areaSize front + objectHeaderSizeInBytes (writer.heap id)) := by
  rw [List.foldl_append, List.foldl_cons, layoutObjects_absent _ absent]
  have placed : (front.foldl writer.layoutObject layout).2 = layout.2 + writer.areaSize front :=
    layoutObjects_size layout front
  rw [layoutObject, placed]
  exact Function.update_self ..

theorem layoutReferences_absent (layout : (ι → Option Nat) × Nat)
    {entries : List (ι × SymbolicReference)} {id : ι} (absent : id ∉ entries.map Prod.fst) :
    (entries.foldl layoutReference layout).1 id = layout.1 id := by
  induction entries generalizing layout with
  | nil => rfl
  | cons entry entries ih =>
    rw [List.map_cons, List.mem_cons, not_or] at absent
    rw [List.foldl_cons, ih _ absent.2]
    exact Function.update_of_ne absent.1 _ _

theorem subscript_eq (subscript : Nat) : subscript <<< 2 ||| 2 = subscript * 4 + 2 := by
  rw [Nat.shiftLeft_eq, Nat.mul_comm]
  exact (Nat.two_pow_add_eq_or_of_lt (by decide : 2 < 2 ^ 2) subscript).symm

theorem layoutReferences_present (layout : (ι → Option Nat) × Nat)
    {entries : List (ι × SymbolicReference)} {id : ι} {subscript : Nat}
    (unique : (entries.map Prod.fst).Nodup)
    (found : (entries.map Prod.fst)[subscript]? = some id) :
    (entries.foldl layoutReference layout).1 id = some ((layout.2 + subscript) * 4 + 2) := by
  induction entries generalizing layout subscript with
  | nil => cases found
  | cons entry entries ih =>
    rw [List.map_cons] at unique found
    obtain ⟨fresh, unique⟩ := List.nodup_cons.mp unique
    rw [List.foldl_cons]
    cases subscript with
    | zero =>
      have same : entry.1 = id := Option.some.inj found
      rw [layoutReferences_absent _ (same ▸ fresh), ← same, Nat.add_zero, ← subscript_eq]
      exact Function.update_self ..
    | succ subscript =>
      have next := ih (layoutReference layout entry) unique found
      rw [next, layoutReference]
      simp only [Option.some.injEq]
      lia

theorem layoutMapped_ne (offsets : ι → Option Nat) {entry : ι × ι} {id : ι} (other : id ≠ entry.1) :
    layoutMapped offsets entry id = offsets id := by
  rw [layoutMapped]
  cases offsets entry.2 with
  | none => rfl
  | some offset => exact Function.update_of_ne other _ _

theorem layoutMapped_absent (offsets : ι → Option Nat) {mapping : List (ι × ι)} {id : ι}
    (absent : id ∉ mapping.map Prod.fst) : mapping.foldl layoutMapped offsets id = offsets id := by
  induction mapping generalizing offsets with
  | nil => rfl
  | cons entry mapping ih =>
    rw [List.map_cons, List.mem_cons, not_or] at absent
    rw [List.foldl_cons, ih _ absent.2, layoutMapped_ne offsets absent.1]

/-- A mapped object is where its surrogate is. -/
theorem layoutMapped_present (offsets : ι → Option Nat) {mapping : List (ι × ι)} {id surrogate : ι}
    {offset : Nat} (unique : (mapping.map Prod.fst).Nodup)
    (unmapped : surrogate ∉ mapping.map Prod.fst) (found : mapping.lookup id = some surrogate)
    (known : offsets surrogate = some offset) :
    mapping.foldl layoutMapped offsets id = some offset := by
  induction mapping generalizing offsets with
  | nil => cases found
  | cons entry mapping ih =>
    rw [List.map_cons] at unique unmapped
    obtain ⟨fresh, unique⟩ := List.nodup_cons.mp unique
    rw [List.mem_cons, not_or] at unmapped
    rw [List.foldl_cons]
    rw [List.lookup_cons] at found
    by_cases same : id = entry.1
    · rw [beq_iff_eq.mpr same] at found
      have target : entry.2 = surrogate := Option.some.inj found
      rw [same, layoutMapped_absent _ fresh, layoutMapped, target, known]
      exact Function.update_self ..
    · rw [beq_eq_false_iff_ne.mpr same] at found
      refine ih _ unique unmapped.2 found ?_
      rw [layoutMapped_ne offsets unmapped.1, known]

theorem lookup_none {mapping : List (ι × ι)} {id : ι} (missing : mapping.lookup id = none) :
    id ∉ mapping.map Prod.fst := by
  intro member
  obtain ⟨entry, present, rfl⟩ := List.mem_map.mp member
  have unequal := List.lookup_eq_none_iff.mp missing entry present
  simp at unequal

/-- The offsets before those of the mapped objects. -/
def ownOffsets (writer : NativeWriter ι) : ι → Option Nat :=
  (writer.imports.foldl layoutReference
    ((writer.stored.foldl writer.layoutObject (fun _ => none, objectsOffset)).1, 0)).1

theorem offsets_eq : writer.offsets = writer.mapping.foldl layoutMapped writer.ownOffsets := by
  rw [offsets, layoutObjects, layout_stored]
  rfl

theorem size_eq : writer.size = objectsOffset + writer.areaSize writer.stored := by
  rw [size, layoutObjects, layout_stored]
  exact layoutObjects_size _ writer.stored

/-- Where an object stands in the segment. -/
def place (writer : NativeWriter ι) (id : ι) : Nat := (writer.offsets id).getD 0

section Closed

variable (closed : writer.Closed)

include closed

theorem Closed.unmapped {id : ι} (here : id ∈ writer.stored ∨ id ∈ writer.imported) :
    id ∉ writer.mapping.map Prod.fst := by
  intro member
  obtain ⟨entry, mapped, rfl⟩ := List.mem_map.mp member
  exact here.elim (closed.mapped entry mapped).1 (closed.mapped entry mapped).2

theorem Closed.offsets_stored {front back : List ι} {id : ι}
    (split : writer.stored = front ++ id :: back) : writer.offsets id =
      some (objectsOffset + writer.areaSize front + objectHeaderSizeInBytes (writer.heap id)) := by
  have member : id ∈ writer.stored := split ▸ List.mem_append_right _ (List.mem_cons_self ..)
  have unique := closed.stored
  rw [split] at unique
  have absent : id ∉ back := (List.nodup_cons.mp unique.of_append_right).1
  rw [offsets_eq, layoutMapped_absent _ (closed.unmapped (Or.inl member)), ownOffsets,
    layoutReferences_absent _ (closed.apart id member), split]
  exact layoutObjects_present _ absent

theorem Closed.offsets_imported {id : ι} {subscript : Nat}
    (found : writer.imported[subscript]? = some id) :
    writer.offsets id = some (subscript * 4 + 2) := by
  have member : id ∈ writer.imported := List.mem_of_getElem? found
  rw [offsets_eq, layoutMapped_absent _ (closed.unmapped (Or.inr member)), ownOffsets,
    layoutReferences_present _ closed.imported found, Nat.zero_add]

/-- The key under which a reference is looked up has the offset of its surrogate. -/
theorem Closed.offsets_key {id : ι} {offset : Nat}
    (here : writer.surrogateFor id ∈ writer.stored ∨ writer.surrogateFor id ∈ writer.imported)
    (known : writer.offsets (writer.surrogateFor id) = some offset) :
    writer.offsets (if writer.nilToken = id then writer.closureNilToken else id) = some offset := by
  rw [surrogateFor] at known here
  split
  next token => rwa [if_pos token] at known
  next other =>
    rw [if_neg other] at known here
    cases found : writer.mapping.lookup id with
    | none => rwa [found, Option.getD_none] at known
    | some surrogate =>
      rw [found, Option.getD_some] at known here
      rw [offsets_eq] at known ⊢
      rw [layoutMapped_absent _ (closed.unmapped here)] at known
      exact layoutMapped_present _ closed.mapping (closed.unmapped here) found known

theorem Closed.place_stored {front back : List ι} {id : ι}
    (split : writer.stored = front ++ id :: back) : writer.place id =
      objectsOffset + writer.areaSize front + objectHeaderSizeInBytes (writer.heap id) := by
  rw [place, closed.offsets_stored split, Option.getD_some]

end Closed

/-! ### References -/

omit [DecidableEq ι] in
theorem headerSize_mod (object : ImageObject ι) : objectHeaderSizeInBytes object % 8 = 0 := by
  rw [objectHeaderSizeInBytes]
  split <;> rfl

omit [DecidableEq ι] in
theorem bodySize_mod (body : Body ι) : body.sizeInBytes % 8 = 0 := by
  cases body with
  | slots held => exact Nat.mul_mod_left ..
  | bytes held => exact Nat.mul_mod_left ..
  | text characters => exact Nat.mul_mod_left ..

omit [DecidableEq ι] in
theorem areaSize_mod (ids : List ι) : writer.areaSize ids % 8 = 0 := by
  induction ids with
  | nil => rfl
  | cons id ids ih =>
    have header := headerSize_mod (writer.heap id)
    have body := bodySize_mod (writer.heap id).body
    rw [areaSize_cons]
    lia

theorem and_two (number : Nat) : number &&& 2 = number % 4 &&& 2 := by
  have low : (number &&& 2) % 2 ^ 2 = number % 2 ^ 2 &&& 2 % 2 ^ 2 := Nat.and_mod_two_pow
  have small : number &&& 2 ≤ 2 := Nat.and_le_right
  rwa [Nat.mod_eq_of_lt (by lia)] at low

/-- What is written for a reference. -/
def encoding (writer : NativeWriter ι) (slot : Slot ι) : Int :=
  (writer.encodedReferenceTo slot).getD 0

theorem encoding_smallInteger (value : Int) (fits) :
    writer.encoding (.smallInteger value fits) = value * 2 + 1 :=
  rfl

section Closed

variable (closed : writer.Closed)

include closed

theorem Closed.place_mod {id : ι} (here : id ∈ writer.stored) : writer.place id % 8 = 0 := by
  obtain ⟨front, back, split⟩ := List.append_of_mem here
  have area : writer.areaSize front % 8 = 0 := areaSize_mod front
  have header := headerSize_mod (writer.heap id)
  rw [closed.place_stored split, objectsOffset]
  lia

theorem Closed.encoded_stored {id : ι} (here : writer.surrogateFor id ∈ writer.stored) :
    writer.encodedReferenceTo (.object id) =
      some ((writer.base + writer.place (writer.surrogateFor id) : Nat) : Int) := by
  obtain ⟨front, back, split⟩ := List.append_of_mem here
  have aligned := closed.place_mod here
  have known := closed.offsets_key (Or.inl here) (closed.offsets_stored split)
  rw [← closed.place_stored split] at known
  have untagged : writer.place (writer.surrogateFor id) &&& 2 ≠ 2 := by
    have low : writer.place (writer.surrogateFor id) % 4 = 0 := by lia
    rw [and_two, low]
    decide
  simp only [encodedReferenceTo, known, Option.bind_eq_bind, Option.bind_some, if_neg untagged]

theorem Closed.encoded_imported {id : ι} {subscript : Nat}
    (found : writer.imported[subscript]? = some (writer.surrogateFor id)) :
    writer.encodedReferenceTo (.object id) = some ((subscript * 4 + 2 : Nat) : Int) := by
  have known := closed.offsets_key (Or.inr (List.mem_of_getElem? found))
    (closed.offsets_imported found)
  have tagged : (subscript * 4 + 2) &&& 2 = 2 := by
    have low : (subscript * 4 + 2) % 4 = 2 := by lia
    rw [and_two, low]
    decide
  simp only [encodedReferenceTo, known, Option.bind_eq_bind, Option.bind_some, if_pos tagged]

theorem Closed.encoded {slot : Slot ι} (known : writer.Known slot) :
    writer.encodedReferenceTo slot = some (writer.encoding slot) := by
  cases slot with
  | smallInteger value fits => rfl
  | object id =>
    rcases known with here | outside
    · rw [encoding, closed.encoded_stored here, Option.getD_some]
    · obtain ⟨subscript, found⟩ := List.mem_iff_getElem?.mp outside
      rw [encoding, closed.encoded_imported found, Option.getD_some]

end Closed

end NativeWriter

end Egg.Memory
