import Mathlib.Data.List.Perm.Basic
import Mathlib.Data.List.Pairwise
import Mathlib.Tactic.Common

/-! Finite maps as lists of entries, up to an equality of keys. -/
namespace Egg.Data.FiniteMap

variable {Key Value : Type} (same : Key → Key → Bool)

def lookup (map : List (Key × Value)) (key : Key) : Option Value :=
  (map.find? fun entry => same key entry.1).map Prod.snd

def has (map : List (Key × Value)) (key : Key) : Bool :=
  map.any fun entry => same key entry.1

/-- Add an entry, unless its key is there already. -/
def add (map : List (Key × Value)) (key : Key) (value : Value) : List (Key × Value) :=
  if has same map key then map else (key, value) :: map

/-- Give a key its value. -/
def put (map : List (Key × Value)) (key : Key) (value : Value) : List (Key × Value) :=
  if has same map key then
    map.map fun entry => if same key entry.1 then (entry.1, value) else entry
  else (key, value) :: map

def remove (map : List (Key × Value)) (key : Key) : List (Key × Value) :=
  map.filter fun entry => !same key entry.1

/-- No key is there twice. -/
def Distinct (map : List (Key × Value)) : Prop :=
  map.Pairwise fun left right => ¬ same left.1 right.1 = true

variable {same} {map rest : List (Key × Value)} {key : Key} {value : Value} {entry : Key × Value}

theorem lookup_absent (absent : ∀ entry ∈ map, ¬ same key entry.1 = true) :
    lookup same map key = none := by
  rw [lookup, List.find?_eq_none.mpr absent]
  rfl

theorem has_absent (absent : ∀ entry ∈ map, ¬ same key entry.1 = true) :
    has same map key = false := by
  rw [has, List.any_eq_false]
  exact absent

theorem has_present (member : entry ∈ map) (equal : same key entry.1 = true) :
    has same map key = true :=
  List.any_eq_true.mpr ⟨entry, member, equal⟩

theorem add_absent (absent : ∀ entry ∈ map, ¬ same key entry.1 = true) :
    add same map key value = (key, value) :: map := by
  rw [add, has_absent absent]
  rfl

theorem put_absent (absent : ∀ entry ∈ map, ¬ same key entry.1 = true) :
    put same map key value = (key, value) :: map := by
  rw [put, has_absent absent]
  rfl

theorem remove_absent (absent : ∀ entry ∈ map, ¬ same key entry.1 = true) :
    remove same map key = map := by
  rw [remove, List.filter_eq_self]
  intro entry member
  simpa using absent entry member

theorem add_present (member : entry ∈ map) (equal : same key entry.1 = true) :
    add same map key value = map := by
  rw [add, has_present member equal]
  rfl

section Equality

variable (equality : Equivalence fun left right => same left right = true)

include equality

theorem Distinct.perm (distinct : Distinct same map) (perm : map.Perm rest) :
    Distinct same rest :=
  perm.pairwise_iff (fun {_ _} apart equal => apart (equality.symm equal)) |>.mp distinct

/-- Next to an entry with an equal key no other one has it. -/
theorem Distinct.others (distinct : Distinct same (entry :: rest))
    (equal : same key entry.1 = true) : ∀ other ∈ rest, ¬ same key other.1 = true := by
  intro other member also
  exact (List.pairwise_cons.mp distinct).1 other member
    (equality.trans (equality.symm equal) also)

theorem lookup_present (distinct : Distinct same map) (member : entry ∈ map)
    (equal : same key entry.1 = true) : lookup same map key = some entry.2 := by
  induction map with
  | nil => cases member
  | cons first others ih =>
    rcases List.mem_cons.mp member with rfl | old
    · simp [lookup, equal]
    · have miss : ¬ same key first.1 = true := fun hit =>
        distinct.others equality hit entry old equal
      have skipped : lookup same (first :: others) key = lookup same others key := by
        simp [lookup, miss]
      rw [skipped]
      exact ih (List.pairwise_cons.mp distinct).2 old

/-- Putting a key that is there changes the value of its entry. -/
theorem put_present (distinct : Distinct same map) (perm : map.Perm (entry :: rest))
    (equal : same key entry.1 = true) :
    (put same map key value).Perm ((entry.1, value) :: rest) := by
  have others := (distinct.perm equality perm).others equality equal
  rw [put, has_present (perm.mem_iff.mpr List.mem_cons_self) equal, if_pos rfl]
  refine (perm.map _).trans ?_
  rw [List.map_cons, if_pos equal]
  have kept : (rest.map fun entry => if same key entry.1 then (entry.1, value) else entry) =
      rest := by
    conv_rhs => rw [← List.map_id rest]
    refine List.map_congr_left fun other member => ?_
    rw [if_neg (others other member)]
    rfl
  rw [kept]

theorem remove_present (distinct : Distinct same map) (perm : map.Perm (entry :: rest))
    (equal : same key entry.1 = true) : (remove same map key).Perm rest := by
  have others := (distinct.perm equality perm).others equality equal
  refine (perm.filter _).trans ?_
  rw [List.filter_cons_of_neg (by simp [equal])]
  rw [List.filter_eq_self.mpr fun other member => by simpa using others other member]

end Equality

theorem Distinct.add (distinct : Distinct same map) : Distinct same (add same map key value) := by
  unfold FiniteMap.add
  split
  · exact distinct
  · rename_i absent
    refine List.pairwise_cons.mpr ⟨fun entry member equal => absent ?_, distinct⟩
    exact has_present member equal

theorem Distinct.put (distinct : Distinct same map) : Distinct same (put same map key value) := by
  unfold FiniteMap.put
  split
  · refine List.pairwise_map.mpr (distinct.imp fun {left right} apart equal => apart ?_)
    split at equal <;> split at equal <;> exact equal
  · rename_i absent
    refine List.pairwise_cons.mpr ⟨fun entry member equal => absent ?_, distinct⟩
    exact has_present member equal

theorem Distinct.remove (distinct : Distinct same map) : Distinct same (remove same map key) :=
  distinct.filter _

end Egg.Data.FiniteMap
