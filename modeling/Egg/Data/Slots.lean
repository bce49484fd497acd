import Mathlib.Data.List.Basic
import Mathlib.Tactic.Common

/-! Lists of slots read by one-based indices, with nothing outside. -/
namespace Egg.Data

variable {α : Type}

/-- The slot at a one-based index. -/
def slot (slots : List (Option α)) (i : Int) : Option α :=
  if 1 ≤ i then slots[(i - 1).toNat]?.join else none

variable {slots more : List (Option α)} {i : Int} {n : Nat}

theorem slot_succ (slots : List (Option α)) (n : Nat) : slot slots (n + 1) = slots[n]?.join := by
  rw [slot, if_pos (by omega), show ((n : Int) + 1 - 1).toNat = n by omega]

theorem slot_of_nonpos (outside : i ≤ 0) : slot slots i = none := by
  rw [slot, if_neg (by omega)]

theorem slot_of_length_lt (outside : (slots.length : Int) < i) : slot slots i = none := by
  rw [slot, if_pos (by omega), List.getElem?_eq_none (by omega)]
  rfl

theorem slot_outside (outside : i ≤ 0 ∨ (slots.length : Int) < i) : slot slots i = none :=
  outside.elim slot_of_nonpos slot_of_length_lt

/-- Two indices are the same or both outside. -/
theorem slot_congr {j : Int} (same : i = j ∨ (i ≤ 0 ∨ (slots.length : Int) < i) ∧
    (j ≤ 0 ∨ (slots.length : Int) < j)) : slot slots i = slot slots j := by
  rcases same with rfl | ⟨outside, outside'⟩
  · rfl
  · rw [slot_outside outside, slot_outside outside']

/-- Every index is the successor of a natural number or not positive. -/
theorem index_cases (i : Int) : i ≤ 0 ∨ ∃ n : Nat, i = n + 1 := by
  by_cases positive : 1 ≤ i
  · exact .inr ⟨(i - 1).toNat, by omega⟩
  · exact .inl (by omega)

@[simp] theorem slot_nil : slot ([] : List (Option α)) i = none := by
  rcases index_cases i with outside | ⟨n, rfl⟩
  · exact slot_of_nonpos outside
  · rw [slot_succ]
    rfl

theorem slot_replicate : slot (List.replicate n (none : Option α)) i = none := by
  rcases index_cases i with outside | ⟨k, rfl⟩
  · exact slot_of_nonpos outside
  · rw [slot_succ, List.getElem?_replicate]
    split <;> rfl

theorem slot_append : slot (slots ++ more) i =
    if i ≤ slots.length then slot slots i else slot more (i - slots.length) := by
  rcases index_cases i with outside | ⟨n, rfl⟩
  · rw [slot_of_nonpos outside, if_pos (by omega), slot_of_nonpos outside]
  · rw [slot_succ]
    split
    · rw [slot_succ, List.getElem?_append_left (by omega)]
    · obtain ⟨rest, same⟩ := Nat.exists_eq_add_of_le (show slots.length ≤ n by omega)
      rw [List.getElem?_append_right (by omega), show (n : Int) + 1 - slots.length = rest + 1 by omega,
        slot_succ, show n - slots.length = rest by omega]

theorem slot_cons {x : Option α} : slot (x :: slots) i = if i = 1 then x else slot slots (i - 1) := by
  rcases index_cases i with outside | ⟨n, rfl⟩
  · rw [slot_of_nonpos outside, if_neg (by omega), slot_of_nonpos (by omega)]
  · rw [slot_succ, show (n : Int) + 1 - 1 = n by omega]
    cases n with
    | zero => rfl
    | succ n => rw [if_neg (by omega), Int.natCast_succ, slot_succ, List.getElem?_cons_succ]

theorem slot_take : slot (slots.take n) i = if i ≤ n then slot slots i else none := by
  rcases index_cases i with outside | ⟨k, rfl⟩
  · rw [slot_of_nonpos outside, slot_of_nonpos outside, ite_self]
  · rw [slot_succ, slot_succ, List.getElem?_take]
    by_cases inside : k < n
    · rw [if_pos inside, if_pos (by omega)]
    · rw [if_neg inside, if_neg (by omega)]
      rfl

theorem slot_drop : slot (slots.drop n) i = if 1 ≤ i then slot slots (i + n) else none := by
  rcases index_cases i with outside | ⟨k, rfl⟩
  · rw [slot_of_nonpos outside, if_neg (by omega)]
  · rw [if_pos (by omega), show (k : Int) + 1 + n = (n + k : Nat) + 1 by omega, slot_succ, slot_succ,
      List.getElem?_drop]

theorem slot_set {x : Option α} (inside : n < slots.length) :
    slot (slots.set n x) i = if i = n + 1 then x else slot slots i := by
  rcases index_cases i with outside | ⟨k, rfl⟩
  · rw [slot_of_nonpos outside, if_neg (by omega), slot_of_nonpos outside]
  · rw [slot_succ, slot_succ]
    by_cases same : k = n
    · subst same
      rw [if_pos rfl, List.getElem?_set_self inside]
      rfl
    · rw [if_neg (by omega), List.getElem?_set_ne (by omega)]

theorem slot_insertIdx {x : Option α} (inside : n ≤ slots.length) :
    slot (slots.insertIdx n x) i =
      if i ≤ n then slot slots i else if i = n + 1 then x else slot slots (i - 1) := by
  rcases index_cases i with outside | ⟨k, rfl⟩
  · rw [slot_of_nonpos outside, if_pos (by omega), slot_of_nonpos outside]
  · rw [slot_succ, List.getElem?_insertIdx]
    rcases Nat.lt_trichotomy k n with below | rfl | above
    · rw [if_pos below, if_pos (by omega), slot_succ]
    · rw [if_neg (by omega), if_pos rfl, if_pos inside, if_neg (by omega), if_pos rfl]
      rfl
    · obtain ⟨rest, rfl⟩ := Nat.exists_eq_add_of_lt above
      rw [if_neg (by omega), if_neg (by omega), if_neg (by omega), if_neg (by omega),
        show ((n + rest + 1 : Nat) : Int) + 1 - 1 = (n + rest : Nat) + 1 by omega, slot_succ]
      rfl

theorem slot_eraseIdx : slot (slots.eraseIdx n) i =
    if i ≤ n then slot slots i else if 1 ≤ i then slot slots (i + 1) else none := by
  rcases index_cases i with outside | ⟨k, rfl⟩
  · rw [slot_of_nonpos outside, slot_of_nonpos outside, if_neg (show ¬ 1 ≤ i by omega), ite_self]
  · rw [slot_succ, List.getElem?_eraseIdx]
    by_cases below : k < n
    · rw [if_pos below, if_pos (by omega), slot_succ]
    · rw [if_neg below, if_neg (by omega), if_pos (by omega),
        show (k : Int) + 1 + 1 = (k + 1 : Nat) + 1 by omega, slot_succ]

/-- Lists of one length with the same slots are the same. -/
theorem ext_slots (length : slots.length = more.length) (same : ∀ i, slot slots i = slot more i) :
    slots = more := by
  apply List.ext_getElem length
  intro k inside inside'
  have equal := same (k + 1)
  rw [slot_succ, slot_succ, List.getElem?_eq_getElem inside, List.getElem?_eq_getElem inside'] at equal
  exact equal

end Egg.Data
