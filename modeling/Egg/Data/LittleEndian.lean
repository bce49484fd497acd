import Mathlib.Data.Nat.Digits.Defs
import Mathlib.Tactic.Ring

/-! Numbers as so many bytes, the lowest first, and lists of such numbers. -/
namespace Egg.Data

def littleEndian : (width value : Nat) → List Nat
  | 0, _ => []
  | width + 1, value => value % 256 :: littleEndian width (value / 256)

section Numbers

variable {width value : Nat}

@[simp] theorem littleEndian_length (width value : Nat) :
    (littleEndian width value).length = width := by
  induction width generalizing value with
  | zero => rfl
  | succ width ih => rw [littleEndian, List.length_cons, ih]

theorem ofDigits_littleEndian (width value : Nat) :
    Nat.ofDigits 256 (littleEndian width value) = value % 256 ^ width := by
  induction width generalizing value with
  | zero => rw [littleEndian, Nat.ofDigits_nil, pow_zero, Nat.mod_one]
  | succ width ih =>
    rw [littleEndian, Nat.ofDigits_cons, ih, pow_succ', Nat.mod_mul]

theorem ofDigits_of_lt (room : value < 256 ^ width) :
    Nat.ofDigits 256 (littleEndian width value) = value := by
  rw [ofDigits_littleEndian, Nat.mod_eq_of_lt room]

theorem littleEndian_add (width others value : Nat) : littleEndian (width + others) value =
    littleEndian width value ++ littleEndian others (value / 256 ^ width) := by
  induction width generalizing value with
  | zero => rw [Nat.zero_add, littleEndian, List.nil_append, pow_zero, Nat.div_one]
  | succ width ih =>
    rw [Nat.add_right_comm, littleEndian, littleEndian, ih, List.cons_append, Nat.div_div_eq_div_mul,
      pow_succ']

theorem littleEndian_zero (width : Nat) : littleEndian width 0 = List.replicate width 0 := by
  induction width with
  | zero => rfl
  | succ width ih => rw [littleEndian, Nat.zero_mod, Nat.zero_div, ih, List.replicate_succ]

theorem littleEndian_one (byte : value < 256) : littleEndian 1 value = [value] := by
  rw [littleEndian, littleEndian, Nat.mod_eq_of_lt byte]

end Numbers

section Lists

variable {width : Nat} {values : List Nat}

/-- The bytes of so many numbers. -/
def bytesOf (width : Nat) (values : List Nat) : List Nat :=
  values.flatMap (littleEndian width)

theorem bytesOf_append (width : Nat) (values others : List Nat) :
    bytesOf width (values ++ others) = bytesOf width values ++ bytesOf width others :=
  List.flatMap_append

@[simp] theorem bytesOf_length (width : Nat) (values : List Nat) :
    (bytesOf width values).length = values.length * width := by
  induction values with
  | nil => rw [bytesOf, List.flatMap_nil, List.length_nil, Nat.zero_mul]
  | cons value values ih =>
    rw [bytesOf, List.flatMap_cons, List.length_append, littleEndian_length, ← bytesOf, ih,
      List.length_cons, Nat.succ_mul, Nat.add_comm]

theorem bytesOf_take (width count : Nat) (values : List Nat) :
    (bytesOf width values).take (count * width) = bytesOf width (values.take count) := by
  induction count generalizing values with
  | zero => rw [Nat.zero_mul]; rfl
  | succ count ih =>
    cases values with
    | nil => rw [List.take_nil, bytesOf, List.flatMap_nil, List.take_nil]
    | cons value values =>
      rw [List.take_succ_cons, bytesOf, bytesOf, List.flatMap_cons, List.flatMap_cons, ← bytesOf,
        ← bytesOf, ← ih, Nat.succ_mul, Nat.add_comm, List.take_append, littleEndian_length,
        List.take_of_length_le (by rw [littleEndian_length]; exact Nat.le_add_right _ _),
        Nat.add_sub_cancel_left]

theorem bytesOf_drop (width count : Nat) (values : List Nat) :
    (bytesOf width values).drop (count * width) = bytesOf width (values.drop count) := by
  induction count generalizing values with
  | zero => rw [Nat.zero_mul]; rfl
  | succ count ih =>
    cases values with
    | nil => rw [List.drop_nil, bytesOf, List.flatMap_nil, List.drop_nil]
    | cons value values =>
      rw [List.drop_succ_cons, ← ih, bytesOf, List.flatMap_cons, ← bytesOf, Nat.succ_mul,
        Nat.add_comm, List.drop_append, littleEndian_length,
        List.drop_of_length_le (by rw [littleEndian_length]; exact Nat.le_add_right _ _),
        List.nil_append, Nat.add_sub_cancel_left]

theorem bytesOf_replicate_zero (width count : Nat) :
    bytesOf width (List.replicate count 0) = List.replicate (count * width) 0 := by
  induction count with
  | zero => rw [Nat.zero_mul]; rfl
  | succ count ih =>
    rw [List.replicate_succ, bytesOf, List.flatMap_cons, ← bytesOf, ih, littleEndian_zero,
      List.replicate_append_replicate, Nat.succ_mul, Nat.add_comm]

theorem bytesOf_one (bytes : ∀ value ∈ values, value < 256) : bytesOf 1 values = values := by
  induction values with
  | nil => rfl
  | cons value values ih =>
    rw [bytesOf, List.flatMap_cons, ← bytesOf, littleEndian_one (bytes value List.mem_cons_self),
      ih fun other member => bytes other (List.mem_cons_of_mem value member)]
    rfl

end Lists

end Egg.Data
