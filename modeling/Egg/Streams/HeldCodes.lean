import Egg.Streams.WriteStream

/-! What contents hold: the codes their bytes stand for, and what each operation does to them. -/
namespace Egg.Streams

open Egg.Data

theorem Species.characterSize_of_narrow {species : Species} (narrow : species ≠ .wideString) :
    species.characterSize = 1 := by
  cases species with
  | wideString => exact absurd rfl narrow
  | _ => rfl

namespace Contents

/-- The bytes are those of such codes. -/
structure Holds (contents : Contents) (codes : List Nat) : Prop where
  bytes : contents.bytes = bytesOf contents.species.characterSize codes
  fit : ∀ code ∈ codes, code < 256 ^ contents.species.characterSize

section Holding

variable {self source : Contents} {codes others : List Nat}

theorem Holds.size (holds : self.Holds codes) : self.size = codes.length := by
  have width : 0 < self.species.characterSize := by cases self.species <;> decide
  rw [Contents.size, holds.bytes, bytesOf_length, Nat.mul_div_cancel _ width]

theorem bytesOf_overwrite (width position : Nat) (codes others : List Nat) :
    overwrite (bytesOf width codes) (position * width) (bytesOf width others) =
      bytesOf width (overwrite codes position others) := by
  rw [overwrite, overwrite, bytesOf_append, bytesOf_append, bytesOf_take, bytesOf_length,
    ← Nat.add_mul, bytesOf_drop]

theorem mem_overwrite {position code : Nat} (member : code ∈ overwrite codes position others) :
    code ∈ codes ∨ code ∈ others := by
  rw [overwrite, List.mem_append, List.mem_append] at member
  rcases member with (before | new) | behind
  · exact .inl (List.mem_of_mem_take before)
  · exact .inr new
  · exact .inl (List.mem_of_mem_drop behind)

theorem Holds.overwrite (holds : self.Holds codes)
    (fit : ∀ code ∈ others, code < 256 ^ self.species.characterSize) (position : Nat) :
    Holds ⟨self.species, Contents.overwrite self.bytes (position * self.species.characterSize)
      (bytesOf self.species.characterSize others)⟩ (Contents.overwrite codes position others) where
  bytes := by rw [holds.bytes, bytesOf_overwrite]
  fit code member := (mem_overwrite member).elim (holds.fit code) (fit code)

theorem Holds.atPut (holds : self.Holds codes) {index token : Nat}
    (fits : token < 256 ^ self.species.characterSize) (inside : index < codes.length) :
    ∃ result, self.atPut (index + 1) token = some result ∧ result.species = self.species ∧
      result.Holds (Contents.overwrite codes index [token]) := by
  have written := @Holds.overwrite _ _ [token] holds
    (fun code member => List.mem_singleton.mp member ▸ fits) index
  have within : 1 ≤ index + 1 ∧ index + 1 ≤ self.size := ⟨Nat.le_add_left 1 index, holds.size ▸ inside⟩
  refine ⟨_, ?_, ?_, written⟩
  · rw [Contents.atPut.eq_def, if_pos within]
    obtain ⟨species, bytes⟩ := self
    cases species with
    | wideString => simp [bytesOf, Species.characterSize]
    | _ =>
      have byte : token < 256 := fits
      simp [bytesOf, Species.characterSize, byte, littleEndian_one byte]
  · rfl

theorem replaceBytes_eq {offset count : Nat} {bytes : List Nat}
    (inside : offset + count ≤ self.bytes.length) (enough : count ≤ bytes.length) :
    self.replaceBytes (offset + 1) (offset + count) bytes 1 =
      some { self with bytes := Contents.overwrite self.bytes offset (bytes.take count) } := by
  rw [replaceBytes]
  by_cases none : count = 0
  · subst none
    rw [if_pos (Nat.lt_succ_self _), List.take_zero, Contents.overwrite, List.append_nil,
      List.length_nil, Nat.add_zero, List.take_append_drop]
  · have within : 1 ≤ offset + 1 ∧ offset + count ≤ self.bytes.length ∧
        1 + (offset + count) - (offset + 1) ≤ bytes.length := by lia
    have length : offset + count + 1 - (offset + 1) = count := by lia
    rw [if_neg (by lia), if_pos within, length]
    rfl

theorem asWideString_species (self : Contents) : self.asWideString.species = .wideString := by
  rw [asWideString.eq_def]
  cases species : self.species <;> simp [species]

/-- Making a string wide keeps its characters. -/
theorem Holds.asWideString (holds : self.Holds codes) : self.asWideString.Holds codes := by
  obtain ⟨species, bytes⟩ := self
  have widened (narrow : Contents.Holds ⟨species, bytes⟩ codes)
      (single : species.characterSize = 1) :
      Contents.Holds ⟨.wideString, bytes.flatMap fun byte => [byte, 0, 0, 0]⟩ codes := by
    have small : ∀ code ∈ codes, code < 256 := by
      intro code member
      have fits := narrow.fit code member
      rwa [single, pow_one] at fits
    have same : bytes = codes := by
      have held := narrow.bytes
      rw [single, bytesOf_one small] at held
      exact held
    subst same
    refine ⟨?_, fun code member => Nat.lt_trans (small code member) (show 256 < 256 ^ 4 by decide)⟩
    refine List.flatMap_congr fun code member => ?_
    have byte := small code member
    simp only [Species.characterSize, littleEndian, Nat.mod_eq_of_lt byte, Nat.div_eq_of_lt byte,
      Nat.zero_mod, Nat.zero_div]
  cases species with
  | byteArray => exact widened holds rfl
  | string => exact widened holds rfl
  | wideString => exact holds

/-- Characters of other contents are copied, made wide where they have to be. -/
theorem Holds.replaceFrom (holds : self.Holds codes) (held : source.Holds others)
    (same : self.species = .wideString ∨ source.species ≠ .wideString) {start : Nat}
    (inside : start + others.length ≤ codes.length) :
    ∃ result, self.replaceFrom (start + 1) (start + others.length) source = some result ∧
      result.species = self.species ∧ result.Holds (Contents.overwrite codes start others) := by
  by_cases wide : self.species = .wideString
  · have held' := held.asWideString
    have size : self.species.characterSize = 4 := by rw [wide]; rfl
    have bytes : source.asWideString.bytes = bytesOf self.species.characterSize others := by
      rw [held'.bytes, asWideString_species, wide]
    have fit : ∀ code ∈ others, code < 256 ^ self.species.characterSize := by
      intro code member
      have fits := held'.fit code member
      rwa [asWideString_species, ← wide] at fits
    refine ⟨_, ?_, ?_, holds.overwrite fit start⟩
    swap
    · rfl
    have length : source.asWideString.bytes.length = others.length * 4 := by
      rw [bytes, bytesOf_length, size]
    have room : start * 4 + others.length * 4 ≤ self.bytes.length := by
      rw [holds.bytes, bytesOf_length, size]
      lia
    have copied : self.replaceFrom (start + 1) (start + others.length) source =
        self.replaceBytes (start * 4 + 1) (start * 4 + others.length * 4)
          source.asWideString.bytes 1 := by
      rw [Contents.replaceFrom.eq_def, wide]
      simp only [Nat.add_sub_cancel, Nat.add_mul]
    rw [copied, replaceBytes_eq room length.ge, ← length, List.take_length, bytes, size]
  · have narrow := same.resolve_left wide
    have width := Species.characterSize_of_narrow wide
    have width' := Species.characterSize_of_narrow narrow
    have bytes : source.bytes = bytesOf self.species.characterSize others := by
      rw [held.bytes, width', width]
    have fit : ∀ code ∈ others, code < 256 ^ self.species.characterSize := by
      intro code member
      have fits := held.fit code member
      rwa [width', ← width] at fits
    refine ⟨_, ?_, ?_, holds.overwrite fit start⟩
    swap
    · rfl
    have length : source.bytes.length = others.length := by
      rw [bytes, bytesOf_length, width, Nat.mul_one]
    have room : start + others.length ≤ self.bytes.length := by
      rw [holds.bytes, bytesOf_length, width]
      lia
    have copied : self.replaceFrom (start + 1) (start + others.length) source =
        self.replaceBytes (start + 1) (start + others.length) source.bytes 1 := by
      obtain ⟨species, held⟩ := self
      cases species with
      | wideString => exact absurd rfl wide
      | _ => rfl
    rw [copied, replaceBytes_eq room length.ge, ← length, List.take_length, bytes, width,
      Nat.mul_one]

theorem holds_new (species : Species) (count : Nat) :
    (Contents.new species count).Holds (List.replicate count 0) where
  bytes := (bytesOf_replicate_zero species.characterSize count).symm
  fit code member := by
    rw [List.eq_of_mem_replicate member]
    exact Nat.pow_pos (by decide)

theorem Holds.copyTo (holds : self.Holds codes) (count : Nat) :
    (self.copyTo count).Holds (codes.take count) where
  bytes := by
    rw [Contents.copyTo, holds.bytes, bytesOf_take]
  fit code member := holds.fit code (List.mem_of_mem_take member)

/-- The characters of contents are the codes they hold. -/
theorem Holds.characters (holds : self.Holds codes) : self.characters = codes := by
  rw [Contents.characters, holds.size]
  refine List.ext_getElem (by simp) fun index _ inside => ?_
  simp only [List.getElem_map, List.getElem_range]
  have here : (codes.drop index).take 1 = [codes[index]] := by
    rw [List.drop_eq_getElem_cons inside]
    rfl
  have width := bytesOf_take self.species.characterSize 1 (codes.drop index)
  rw [Nat.one_mul, here] at width
  rw [holds.bytes, bytesOf_drop, width, bytesOf, List.flatMap_singleton]
  exact ofDigits_of_lt (holds.fit _ (List.getElem_mem inside))

end Holding

end Contents

end Egg.Streams
