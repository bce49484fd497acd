import Mathlib.Data.Nat.Digits.Defs
import Mathlib.Tactic.LinearCombination

/-! Digits of integers in a base, the lowest first. The digits of a negative integer go on for
ever, so a list holds an integer only up to a power of the base. -/
namespace Egg.Data

/-- The list holds the lowest digits of the value. -/
def Represents (base : Nat) : List Nat → Int → Prop
  | [], _ => True
  | digit :: digits, value => value % base = digit ∧ Represents base digits (value / base)

namespace Represents

variable {base : Nat} {digits : List Nat} {value : Int}

theorem ediv_pow_succ (value : Int) (base index : Nat) :
    value / base / (base : Int) ^ index = value / (base : Int) ^ (index + 1) := by
  rw [Int.ediv_ediv_of_nonneg (Int.natCast_nonneg base), pow_succ']

/-- A digit of the list is that of the value. -/
theorem getElem (held : Represents base digits value) (index : Nat) (inside : index < digits.length) :
    (digits[index] : Int) = value / (base : Int) ^ index % base := by
  induction digits generalizing value index with
  | nil => exact absurd inside (Nat.not_lt_zero index)
  | cons digit digits ih =>
    cases index with
    | zero =>
      rw [List.getElem_cons_zero, pow_zero, Int.ediv_one]
      exact held.1.symm
    | succ index =>
      rw [List.getElem_cons_succ, ih held.2 index (Nat.lt_of_succ_lt_succ inside), ediv_pow_succ]

theorem of_getElem (held : ∀ index (inside : index < digits.length),
    value / (base : Int) ^ index % base = (digits[index] : Int)) : Represents base digits value := by
  induction digits generalizing value with
  | nil => trivial
  | cons digit digits ih =>
    refine ⟨?_, ih fun index inside => ?_⟩
    · have first := held 0 (Nat.succ_pos _)
      rwa [pow_zero, Int.ediv_one] at first
    · rw [ediv_pow_succ]
      exact held (index + 1) (Nat.succ_lt_succ inside)

theorem append {more : List Nat} (held : Represents base digits value)
    (rest : Represents base more (value / (base : Int) ^ digits.length)) :
    Represents base (digits ++ more) value := by
  induction digits generalizing value with
  | nil =>
    rw [List.length_nil, pow_zero, Int.ediv_one] at rest
    exact rest
  | cons digit digits ih =>
    refine ⟨held.1, ih held.2 ?_⟩
    rw [ediv_pow_succ]
    exact rest

theorem take (held : Represents base digits value) (count : Nat) :
    Represents base (digits.take count) value := by
  induction digits generalizing value count with
  | nil => rw [List.take_nil]; trivial
  | cons digit digits ih =>
    cases count with
    | zero => trivial
    | succ count => exact ⟨held.1, ih held.2 count⟩

/-- The value of the list is that of the integer below the power of the base. -/
theorem ofDigits_eq (held : Represents base digits value) :
    ((Nat.ofDigits base digits : Nat) : Int) = value % (base : Int) ^ digits.length := by
  induction digits generalizing value with
  | nil => rw [List.length_nil, pow_zero, Int.emod_one, Nat.ofDigits_nil, Nat.cast_zero]
  | cons digit digits ih =>
    have split := Int.emod_add_mul_ediv value base
    have inner := Int.emod_add_mul_ediv (value / base) ((base : Int) ^ digits.length)
    have outer := Int.emod_add_mul_ediv value ((base : Int) ^ (digits.length + 1))
    rw [ediv_pow_succ] at inner
    rw [pow_succ' (base : Int)] at inner outer
    rw [Nat.ofDigits_cons, Nat.cast_add, Nat.cast_mul, ih held.2, List.length_cons, ← held.1,
      pow_succ' (base : Int)]
    linear_combination split - outer + (base : Int) * inner

theorem ofDigits_of_nonneg (held : Represents base digits value) (nonneg : 0 ≤ value)
    (small : value < (base : Int) ^ digits.length) : ((Nat.ofDigits base digits : Nat) : Int) = value := by
  rw [held.ofDigits_eq, Int.emod_eq_of_lt nonneg small]

theorem ofDigits_of_neg (held : Represents base digits value) (negative : value < 0)
    (large : -(base : Int) ^ digits.length ≤ value) :
    ((Nat.ofDigits base digits : Nat) : Int) - (base : Int) ^ digits.length = value := by
  have shifted : value % (base : Int) ^ digits.length = value + (base : Int) ^ digits.length := by
    rw [← Int.add_emod_right]
    exact Int.emod_eq_of_lt (by lia) (by lia)
  rw [held.ofDigits_eq, shifted, Int.add_sub_cancel]

/-- Lists of one length that hold the same value are the same. -/
theorem unique {others : List Nat} (held : Represents base digits value)
    (other : Represents base others value) (same : digits.length = others.length) :
    digits = others := by
  refine List.ext_getElem same fun index inside inside' => ?_
  have equal := (held.getElem index inside).trans (other.getElem index inside').symm
  exact Int.ofNat_inj.mp equal

/-- Powers of the base above the list do not matter. -/
theorem add_mul_pow (held : Represents base digits value) (factor : Int) :
    Represents base digits (value + (base : Int) ^ digits.length * factor) := by
  induction digits generalizing value with
  | nil => trivial
  | cons digit digits ih =>
    rcases Nat.eq_zero_or_pos base with rfl | positive
    · have zero : ((0 : Nat) : Int) ^ (digit :: digits).length = 0 := by
        rw [List.length_cons, pow_succ, Nat.cast_zero, mul_zero]
      rw [zero, zero_mul, add_zero]
      exact held
    · have split : value + (base : Int) ^ (digit :: digits).length * factor =
          value + base * ((base : Int) ^ digits.length * factor) := by
        rw [List.length_cons, pow_succ', mul_assoc]
      have nonzero : (base : Int) ≠ 0 := by lia
      rw [split]
      refine ⟨?_, ?_⟩
      · rw [Int.add_mul_emod_self_left]
        exact held.1
      · rw [Int.add_mul_ediv_left _ _ nonzero]
        exact ih held.2

theorem of_ofDigits (bounded : ∀ digit ∈ digits, digit < base) :
    Represents base digits (Nat.ofDigits base digits : Nat) := by
  induction digits with
  | nil => trivial
  | cons digit digits ih =>
    have small := bounded digit (List.mem_cons_self ..)
    have positive : 0 < base := Nat.zero_lt_of_lt small
    have nonzero : (base : Int) ≠ 0 := by lia
    rw [Nat.ofDigits_cons, Nat.cast_add, Nat.cast_mul]
    refine ⟨?_, ?_⟩
    · rw [Int.add_mul_emod_self_left]
      exact Int.emod_eq_of_lt (by lia) (by lia)
    · rw [Int.add_mul_ediv_left _ _ nonzero, Int.ediv_eq_zero_of_lt (by lia) (by lia), zero_add]
      exact ih fun other member => bounded other (List.mem_cons_of_mem _ member)

/-- Inverting every digit inverts the value. -/
theorem complement (positive : 0 < base) (held : Represents base digits value) :
    Represents base (digits.map (base - 1 - ·)) (-value - 1) := by
  induction digits generalizing value with
  | nil => trivial
  | cons digit digits ih =>
    have split := Int.emod_add_mul_ediv value base
    have small := Int.emod_lt_of_pos value (show (0 : Int) < base by lia)
    have nonneg := Int.emod_nonneg value (show (base : Int) ≠ 0 by lia)
    have nonzero : (base : Int) ≠ 0 := by lia
    have first := held.1
    have inverted : -value - 1 = (base - 1 - digit : Int) + base * (-(value / base) - 1) := by
      linear_combination split - first
    rw [List.map_cons, inverted]
    refine ⟨?_, ?_⟩
    · rw [Int.add_mul_emod_self_left, Int.emod_eq_of_lt (by lia) (by lia)]
      lia
    · rw [Int.add_mul_ediv_left _ _ nonzero, Int.ediv_eq_zero_of_lt (by lia) (by lia), zero_add]
      exact ih held.2

/-- The digits of a value below the power of the base beyond it are all zero. -/
theorem replicate_zero (base count : Nat) : Represents base (List.replicate count 0) 0 := by
  induction count with
  | zero => trivial
  | succ count ih => exact ⟨Int.zero_emod base, (Int.zero_ediv base).symm ▸ ih⟩

theorem replicate_top (positive : 0 < base) (count : Nat) :
    Represents base (List.replicate count (base - 1)) (-1) := by
  have inverted := (replicate_zero base count).complement positive
  simpa using inverted

end Represents

/-- A digit that grows adds so much at its place. -/
theorem ofDigits_modify {α : Type*} (digit : α → Nat) {base : Nat} {digits : List α}
    {index more : Nat} {change : α → α} (inside : index < digits.length)
    (grows : digit (change digits[index]) = digit digits[index] + more) :
    Nat.ofDigits base ((digits.modify index change).map digit) =
      Nat.ofDigits base (digits.map digit) + more * base ^ index := by
  induction digits generalizing index with
  | nil => exact absurd inside (Nat.not_lt_zero index)
  | cons first digits ih =>
    cases index with
    | zero =>
      rw [List.getElem_cons_zero] at grows
      rw [List.modify_zero_cons, List.map_cons, List.map_cons, Nat.ofDigits_cons,
        Nat.ofDigits_cons, grows, pow_zero]
      lia
    | succ index =>
      rw [List.getElem_cons_succ] at grows
      rw [List.modify_succ_cons, List.map_cons, List.map_cons, Nat.ofDigits_cons,
        Nat.ofDigits_cons, ih (Nat.lt_of_succ_lt_succ inside) grows, pow_succ]
      ring

end Egg.Data
