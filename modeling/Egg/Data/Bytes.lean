import Mathlib.Algebra.Order.Group.Nat
import Mathlib.Tactic.Common
import Mathlib.Tactic.Ring

/-! Memories of bytes: little-endian numbers, fills and copied lists. -/
namespace Egg.Data

/-- The byte at every address. -/
abbrev Bytes : Type := Nat → UInt8

namespace Bytes

/-- The number of so many bytes that starts at the address. -/
def load (memory : Bytes) (address : Nat) : Nat → Nat
  | 0 => 0
  | width + 1 => (memory address).toNat + 256 * load memory (address + 1) width

def store (memory : Bytes) (address width value : Nat) : Bytes := fun place =>
  if address ≤ place ∧ place < address + width then
    UInt8.ofNat (value / 256 ^ (place - address))
  else memory place

def fill (memory : Bytes) (address count : Nat) (byte : UInt8) : Bytes := fun place =>
  if address ≤ place ∧ place < address + count then byte else memory place

def copy (memory : Bytes) (address : Nat) (bytes : List UInt8) : Bytes := fun place =>
  if address ≤ place ∧ place < address + bytes.length then bytes.getD (place - address) 0
  else memory place

variable {memory other : Bytes} {address count width value : Nat}

/-- Equal bytes hold equal numbers, also where one memory is a moved copy of the other. -/
theorem load_congr {target : Nat}
    (same : ∀ index < width, memory (address + index) = other (target + index)) :
    memory.load address width = other.load target width := by
  induction width generalizing address target with
  | zero => rfl
  | succ width ih =>
    have first := same 0 (Nat.succ_pos width)
    rw [Nat.add_zero, Nat.add_zero] at first
    rw [load, load, first, ih fun index inside => ?_]
    have next := same (index + 1) (Nat.succ_lt_succ inside)
    rwa [Nat.add_comm index, ← Nat.add_assoc, ← Nat.add_assoc] at next

theorem load_lt : memory.load address width < 256 ^ width := by
  induction width generalizing address with
  | zero => exact Nat.one_pos
  | succ width ih =>
    have rest : memory.load (address + 1) width < 256 ^ width := ih
    have first := (memory address).toNat_lt
    rw [load, pow_succ]
    omega

theorem load_of_digits
    (held : ∀ index < width, memory (address + index) = UInt8.ofNat (value / 256 ^ index)) :
    memory.load address width = value % 256 ^ width := by
  induction width generalizing address value with
  | zero => rw [load, pow_zero, Nat.mod_one]
  | succ width ih =>
    have first : memory address = UInt8.ofNat value := by
      have at0 := held 0 (Nat.succ_pos width)
      rwa [Nat.add_zero, pow_zero, Nat.div_one] at at0
    have rest : memory.load (address + 1) width = value / 256 % 256 ^ width := ih fun index inside => by
      have next := held (index + 1) (Nat.succ_lt_succ inside)
      rwa [pow_succ', ← Nat.div_div_eq_div_mul, Nat.add_comm index, ← Nat.add_assoc] at next
    rw [load, first, rest, UInt8.toNat_ofNat', pow_succ' 256, Nat.mod_mul]

theorem load_store (room : value < 256 ^ width) :
    (memory.store address width value).load address width = value := by
  rw [load_of_digits fun index inside => ?_, Nat.mod_eq_of_lt room]
  rw [store, if_pos ⟨Nat.le_add_right .., Nat.add_lt_add_left inside address⟩,
    Nat.add_sub_cancel_left]

theorem store_outside {place : Nat} (outside : place < address ∨ address + width ≤ place) :
    memory.store address width value place = memory place :=
  if_neg (by omega)

theorem load_store_apart {start wide : Nat}
    (apart : start + wide ≤ address ∨ address + width ≤ start) :
    (memory.store address width value).load start wide = memory.load start wide :=
  load_congr fun index inside => store_outside (by omega)

/-- A byte of a number by itself. -/
theorem load_one : memory.load address 1 = (memory address).toNat := rfl

theorem store_byte (memory : Bytes) (address : Nat) (byte : UInt8) :
    memory.store address 1 byte.toNat address = byte := by
  rw [store, if_pos ⟨Nat.le_refl _, Nat.lt_succ_self _⟩, Nat.sub_self, pow_zero, Nat.div_one,
    UInt8.ofNat_toNat]

/-- The same bytes but for those between two addresses. -/
def SameOutside (low high : Nat) (memory other : Bytes) : Prop :=
  ∀ place, place < low ∨ high ≤ place → other place = memory place

theorem SameOutside.refl (low high : Nat) (memory : Bytes) : SameOutside low high memory memory :=
  fun _ _ => rfl

theorem SameOutside.trans {low high : Nat} {middle other : Bytes}
    (first : SameOutside low high memory middle) (second : SameOutside low high middle other) :
    SameOutside low high memory other :=
  fun place outside => (second place outside).trans (first place outside)

theorem SameOutside.mono {low high lower higher : Nat} {other : Bytes}
    (same : SameOutside low high memory other) (below : lower ≤ low) (above : high ≤ higher) :
    SameOutside lower higher memory other :=
  fun place outside => same place (by omega)

theorem fill_inside {byte : UInt8} {place : Nat} (above : address ≤ place)
    (below : place < address + count) : memory.fill address count byte place = byte :=
  if_pos ⟨above, below⟩

theorem fill_outside {byte : UInt8} {place : Nat}
    (outside : place < address ∨ address + count ≤ place) :
    memory.fill address count byte place = memory place :=
  if_neg (by omega)

theorem copy_inside {bytes : List UInt8} {index : Nat} (inside : index < bytes.length) :
    memory.copy address bytes (address + index) = bytes[index] := by
  rw [copy, if_pos ⟨Nat.le_add_right .., Nat.add_lt_add_left inside address⟩,
    Nat.add_sub_cancel_left, List.getD_eq_getElem?_getD, List.getElem?_eq_getElem inside,
    Option.getD_some]

/-- The bytes stand from the address on. -/
def HoldsAt (memory : Bytes) (address : Nat) (bytes : List UInt8) : Prop :=
  ∀ index byte, bytes[index]? = some byte → memory (address + index) = byte

theorem holdsAt_copy (memory : Bytes) (address : Nat) (bytes : List UInt8) :
    HoldsAt (memory.copy address bytes) address bytes := by
  intro index byte found
  obtain ⟨inside, same⟩ := List.getElem?_eq_some_iff.mp found
  rw [copy_inside inside, same]

theorem HoldsAt.left {first second : List UInt8} (holds : HoldsAt memory address (first ++ second)) :
    HoldsAt memory address first := by
  intro index byte found
  have inside := (List.getElem?_eq_some_iff.mp found).1
  exact holds index byte (by rwa [List.getElem?_append_left inside])

theorem HoldsAt.right {first second : List UInt8}
    (holds : HoldsAt memory address (first ++ second)) :
    HoldsAt memory (address + first.length) second := by
  intro index byte found
  rw [Nat.add_assoc]
  refine holds _ byte ?_
  rwa [List.getElem?_append_right (Nat.le_add_right ..), Nat.add_sub_cancel_left]

theorem HoldsAt.head {byte : UInt8} {bytes : List UInt8}
    (holds : HoldsAt memory address (byte :: bytes)) : memory address = byte :=
  holds 0 byte rfl

end Bytes

end Egg.Data
