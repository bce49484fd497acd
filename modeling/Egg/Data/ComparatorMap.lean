import Mathlib.Data.List.Basic

/-! Maps whose keys are told apart by a caller's comparator alone: an entry
answers a key exactly when the comparator puts neither of the two first. -/
namespace Egg.Data

universe u v

variable {Key : Type u} {Value : Type v}

/-- The comparator puts neither key before the other. -/
def equivalent (before : Key → Key → Bool) (left right : Key) : Bool :=
  !before left right && !before right left

/-- The entries of an ordered map, with the comparator in its type. -/
structure ComparatorMap (before : Key → Key → Bool) (Value : Type v) where
  entries : List (Key × Value)

namespace ComparatorMap

variable {before : Key → Key → Bool}

def empty : ComparatorMap before Value := ⟨[]⟩

/-- Some entry whose key is equivalent to the one asked for. -/
def find (map : ComparatorMap before Value) (key : Key) : Option Value :=
  (map.entries.find? fun entry => equivalent before entry.1 key).map Prod.snd

/-- Insertion keeps the entry that is already equivalent to the key. -/
def insert (map : ComparatorMap before Value) (key : Key) (value : Value) :
    ComparatorMap before Value :=
  match map.find key with
  | some _ => map
  | none => ⟨map.entries ++ [(key, value)]⟩

/-- Replace the value of every entry equivalent to the key. -/
def modify (map : ComparatorMap before Value) (key : Key) (change : Value → Value) :
    ComparatorMap before Value :=
  ⟨map.entries.map fun entry =>
    if equivalent before entry.1 key then (entry.1, change entry.2) else entry⟩

def erase (map : ComparatorMap before Value) (key : Key) : ComparatorMap before Value :=
  ⟨map.entries.filter fun entry => !equivalent before entry.1 key⟩

/-- A found value belongs to an entry with an equivalent key. -/
theorem exists_equivalent_of_find {map : ComparatorMap before Value} {key : Key} {value : Value}
    (found : map.find key = some value) :
    ∃ stored, (stored, value) ∈ map.entries ∧ equivalent before stored key = true := by
  obtain ⟨⟨stored, value'⟩, hit, same⟩ := Option.map_eq_some_iff.mp found
  subst same
  have matched : equivalent before stored key = true := by simpa using List.find?_some hit
  exact ⟨stored, List.mem_of_find?_eq_some hit, matched⟩

/-- A comparator that always orders two keys makes no two keys equivalent. -/
theorem not_equivalent_of_total (total : ∀ left right, (before left right || before right left) = true)
    (left right : Key) : equivalent before left right = false := by
  have ordered := total left right
  cases forward : before left right
  · simp [equivalent, forward, show before right left = true by simpa [forward] using ordered]
  · simp [equivalent, forward]

section Total

variable (total : ∀ left right, (before left right || before right left) = true)
include total

theorem find_eq_none_of_total (map : ComparatorMap before Value) (key : Key) :
    map.find key = none := by
  cases found : map.find key with
  | none => rfl
  | some value =>
    obtain ⟨stored, _, same⟩ := exists_equivalent_of_find found
    rw [not_equivalent_of_total total] at same
    cases same

theorem erase_eq_self_of_total (map : ComparatorMap before Value) (key : Key) :
    map.erase key = map := by
  simp [erase, not_equivalent_of_total total]

end Total

end ComparatorMap

end Egg.Data
