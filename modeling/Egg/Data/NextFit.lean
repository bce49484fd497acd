import Mathlib.Algebra.GroupWithZero.Nat
import Mathlib.Data.List.Perm.Subperm

/-! Next fit: items are put in one bin as long as they fit, then in the next one, which is never left
again. Items above a limit that do not fit are kept elsewhere. -/
namespace Egg.Data

/-- What is left of the bin in use, and how many bins there are after it. -/
structure NextFit where
  room : Nat
  spare : Nat
  deriving DecidableEq

namespace NextFit

variable (capacity limit : Nat)

def put (bins : NextFit) (item : Nat) : Option NextFit :=
  if item ≤ bins.room then some { bins with room := bins.room - item }
  else if limit < item then some bins
  else if bins.spare = 0 then none
  else some ⟨capacity - item, bins.spare - 1⟩

def putAll (bins : NextFit) (items : List Nat) : Option NextFit :=
  items.foldlM (put capacity limit) bins

/-- The items make groups, one for each bin, and each group together with the item that follows it
is too large for its bin. -/
inductive Spills : NextFit → List Nat → Prop where
  | last {room item : Nat} (group : List Nat) : group.sum ≤ room → room < group.sum + item →
      item ≤ limit → Spills ⟨room, 0⟩ (group ++ [item])
  | next {room spare item : Nat} {rest : List Nat} (group : List Nat) : group.sum ≤ room →
      room < group.sum + item → item ≤ limit → Spills ⟨capacity - item, spare⟩ rest →
      Spills ⟨room, spare + 1⟩ (group ++ item :: rest)

variable {capacity limit} {bins : NextFit} {item : Nat} {items more : List Nat}

theorem putAll_nil : putAll capacity limit bins [] = some bins := rfl

theorem putAll_cons : putAll capacity limit bins (item :: items) =
    (put capacity limit bins item).bind fun next => putAll capacity limit next items := rfl

theorem Spills.cons {room spare : Nat} (fits : item ≤ room)
    (spills : Spills capacity limit ⟨room - item, spare⟩ items) :
    Spills capacity limit ⟨room, spare⟩ (item :: items) := by
  generalize left : room - item = rest at spills
  cases spills with
  | @last _ last group inside full small =>
    apply Spills.last (item :: group) _ _ small
    · rw [List.sum_cons]
      omega
    · rw [List.sum_cons]
      omega
  | @next _ spare last rest group inside full small further =>
    apply Spills.next (item :: group) _ _ small further
    · rw [List.sum_cons]
      omega
    · rw [List.sum_cons]
      omega

/-- Where a run has no bin left, some of its items spill. -/
theorem exists_spills (none_left : putAll capacity limit bins items = none) :
    ∃ selection, selection.Sublist items ∧ Spills capacity limit bins selection := by
  induction items generalizing bins with
  | nil => cases none_left
  | cons item items ih =>
    obtain ⟨room, spare⟩ := bins
    rw [putAll_cons, put] at none_left
    split_ifs at none_left with fits large last
    · obtain ⟨selection, inside, spills⟩ := ih none_left
      exact ⟨item :: selection, inside.cons_cons item, spills.cons fits⟩
    · obtain ⟨selection, inside, spills⟩ := ih none_left
      exact ⟨selection, inside.cons item, spills⟩
    · refine ⟨[item], List.singleton_sublist.mpr (List.mem_cons_self ..), ?_⟩
      simp only at last
      subst last
      exact Spills.last [] (Nat.zero_le room) (by simpa using fits) (by omega)
    · obtain ⟨selection, inside, spills⟩ := ih none_left
      refine ⟨item :: selection, inside.cons_cons item, ?_⟩
      obtain ⟨before, rfl⟩ : ∃ before, spare = before + 1 := ⟨spare - 1, by simp only at last; omega⟩
      exact Spills.next [] (Nat.zero_le room) (by simpa using fits) (by omega) spills

end NextFit

end Egg.Data
