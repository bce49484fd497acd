import Mathlib.Logic.Function.Basic
import Mathlib.Order.Basic

/-! Trees of numbers that are given by a parent of each, which is a lower number. -/
namespace Egg.Data

/-- The number `j` is reached from the given one by going to the parents. -/
inductive Chain (parent : Nat → Option Nat) (j : Nat) : Nat → Prop
  | here : Chain parent j j
  | up {i p : Nat} : parent i = some p → Chain parent j p → Chain parent j i

/-- The root is its own parent; all other parents are lower numbers that have parents again. -/
structure Descending (parent : Nat → Option Nat) : Prop where
  root : parent 0 = some 0
  less : ∀ i p, i ≠ 0 → parent i = some p → p < i
  defined : ∀ i p, parent i = some p → ∃ q, parent p = some q

namespace Chain

variable {parent parent' : Nat → Option Nat} {i j k p v : Nat}

theorem trans (outer : Chain parent k j) (inner : Chain parent j i) : Chain parent k i := by
  induction inner with
  | here => exact outer
  | up found _ ih => exact .up found ih

/-- Below the number itself a chain is that of the parent. -/
theorem of_parent (chain : Chain parent j i) (apart : j ≠ i) (found : parent i = some p) :
    Chain parent j p := by
  cases chain with
  | here => exact absurd rfl apart
  | up found' chain =>
    cases found.symm.trans found'
    exact chain

section

variable (descending : Descending parent)

include descending

theorem le (chain : Chain parent j i) : j ≤ i := by
  induction chain with
  | here => exact Nat.le_refl _
  | @up i p found _ ih =>
    by_cases root : i = 0
    · subst root
      cases found.symm.trans descending.root
      exact ih
    · exact Nat.le_trans ih (Nat.le_of_lt (descending.less i p root found))

/-- The numbers on a chain are on the chains of one another. -/
theorem of_le (chain : Chain parent j i) (other : Chain parent k i) (less : j ≤ k) :
    Chain parent j k := by
  induction other with
  | here => exact chain
  | @up i p found other ih =>
    by_cases same : j = i
    · subst same
      exact Nat.le_antisymm less ((Chain.up found other).le descending) ▸ .here
    · exact ih (chain.of_parent same found)

theorem defined (chain : Chain parent j i) (found : parent i = some p) :
    ∃ q, parent j = some q := by
  induction chain generalizing p with
  | here => exact ⟨p, found⟩
  | up found' _ ih =>
    obtain ⟨q, found⟩ := descending.defined _ _ found'
    exact ih found

theorem root (found : parent i = some p) : Chain parent 0 i := by
  induction i using Nat.strongRecOn generalizing p with
  | _ i ih =>
    by_cases zero : i = 0
    · exact zero ▸ .here
    · obtain ⟨q, found'⟩ := descending.defined _ _ found
      exact .up found (ih p (descending.less i p zero found) found')

/-- A chain depends on the parents of lower numbers only. -/
theorem congr (same : ∀ u ≤ v, parent u = parent' u) (chain : Chain parent j v) :
    Chain parent' j v := by
  induction chain with
  | here => exact .here
  | @up i p found chain ih =>
    have less : p ≤ i := (Chain.up found .here).le descending
    exact .up ((same i (Nat.le_refl _)).symm.trans found)
      (ih fun u below => same u (Nat.le_trans below less))

end

/-- The chains get shorter when a parent moves up along its chain. -/
theorem of_update (chain : Chain (Function.update parent i (some k)) j v)
    (found : parent i = some p) (above : Chain parent k p) : Chain parent j v := by
  induction chain with
  | here => exact .here
  | @up u q found' _ ih =>
    rw [Function.update_apply] at found'
    split at found'
    · rename_i same
      cases found'
      exact .up (same ▸ found) (ih.trans above)
    · exact .up found' ih

end Chain

theorem Descending.update {parent : Nat → Option Nat} {i c q : Nat} (descending : Descending parent)
    (less : c < i) (found : parent c = some q) :
    Descending (Function.update parent i (some c)) where
  root := by
    rw [Function.update_apply, if_neg (by omega)]
    exact descending.root
  less j p nonzero found' := by
    rw [Function.update_apply] at found'
    split at found'
    · cases found'
      omega
    · exact descending.less j p nonzero found'
  defined j p found' := by
    have other (u : Nat) (some : ∃ q, parent u = some q) :
        ∃ q, Function.update parent i (Option.some c) u = Option.some q := by
      rw [Function.update_apply]
      split
      · exact ⟨c, rfl⟩
      · exact some
    rw [Function.update_apply] at found'
    split at found'
    · cases found'
      exact other c ⟨q, found⟩
    · exact other p (descending.defined j p found')

end Egg.Data
