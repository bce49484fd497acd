import Mathlib.Algebra.Group.Int.Defs
import Mathlib.Algebra.Group.Nat.Defs
import Mathlib.Tactic.Common

/-! Strings of bytes and wide strings. -/
namespace Egg.Unicode

/-- A string holds a byte for each character, a wide string four. -/
inductive Text where
  | string (bytes : List UInt8)
  | wideString (longs : List UInt32)

namespace Text

def codes : Text → List Nat
  | string bytes => bytes.map UInt8.toNat
  | wideString longs => longs.map UInt32.toNat

def size (text : Text) : Nat :=
  text.codes.length

/-- Strings of either width are equal when their codes are. -/
def equals (text other : Text) : Bool :=
  text.codes = other.codes

/-- A string of the given size, filled with zeros. -/
def new (size : Nat) : Text :=
  string (List.replicate size 0)

def asWideString : Text → Text
  | string bytes => wideString (bytes.map fun byte => UInt32.ofNat byte.toNat)
  | wideString longs => wideString longs

/-- Store a code at a one-based index; bytes only hold bytes. -/
def atPutCode (text : Text) (index : Nat) (code : Int) : Option Text :=
  match text with
  | string bytes =>
    if 1 ≤ index ∧ index ≤ bytes.length ∧ 0 ≤ code ∧ code < 256 then
      some (string (bytes.set (index - 1) (UInt8.ofInt code)))
    else none
  | wideString longs =>
    if 1 ≤ index ∧ index ≤ longs.length then
      some (wideString (longs.set (index - 1) (UInt32.ofInt code)))
    else none

def copyTo (text : Text) (index : Nat) : Text :=
  match text with
  | string bytes => string (bytes.take index)
  | wideString longs => wideString (longs.take index)

theorem codes_new (size : Nat) : (new size).codes = List.replicate size 0 := by
  simp [new, codes]

theorem codes_asWideString (text : Text) : text.asWideString.codes = text.codes := by
  cases text with
  | wideString longs => rfl
  | string bytes =>
    simp only [asWideString, codes, List.map_map, List.map_inj_left, Function.comp_apply]
    intro byte _
    have small := byte.toNat_lt
    rw [UInt32.toNat_ofNat']
    exact Nat.mod_eq_of_lt (by omega)

theorem codes_copyTo (text : Text) (index : Nat) :
    (text.copyTo index).codes = text.codes.take index := by
  cases text <;> simp only [copyTo, codes, List.map_take]

/-- A code that fits is stored at its index and nowhere else. -/
theorem atPutCode_eq_some {text : Text} {index : Nat} {code : Nat} (inside : index < text.size)
    (fits : code < 2 ^ 32)
    (narrow : code < 256 ∨ ∃ longs, text = wideString longs) :
    ∃ stored, text.atPutCode (index + 1) code = some stored ∧
      stored.codes = text.codes.set index code ∧
      ((∃ longs, text = wideString longs) → ∃ longs, stored = wideString longs) := by
  cases text with
  | string bytes =>
    have small : code < 256 := by
      rcases narrow with small | ⟨longs, same⟩
      · exact small
      · cases same
    have within : index < bytes.length := by simpa [size, codes] using inside
    refine ⟨string (bytes.set index (UInt8.ofInt code)), ?_, ?_, ?_⟩
    · rw [atPutCode, if_pos ⟨by omega, by omega, by omega, by omega⟩]
      rfl
    · simp only [codes, List.map_set]
      congr 1
      simp only [UInt8.ofInt, UInt8.toNat_ofNat']
      omega
    · rintro ⟨longs, same⟩
      cases same
  | wideString longs =>
    have within : index < longs.length := by simpa [size, codes] using inside
    refine ⟨wideString (longs.set index (UInt32.ofInt code)), ?_, ?_, ?_⟩
    · rw [atPutCode, if_pos ⟨by omega, by omega⟩]
      rfl
    · simp only [codes, List.map_set]
      congr 1
      simp only [UInt32.ofInt, UInt32.toNat_ofNat']
      omega
    · exact fun _ => ⟨_, rfl⟩

end Text

end Egg.Unicode
