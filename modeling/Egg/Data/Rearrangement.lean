import Mathlib.Logic.Equiv.Basic
import Mathlib.Tactic.Ring

/-! Elements at positions, and the same elements of a range in another order. -/
namespace Egg.Data

variable {α : Type} {before between after : Int → α} {start stop : Int}

/-- The elements of a range are permuted; all others stay. -/
def Rearranges (before after : Int → α) (start stop : Int) : Prop :=
  ∃ moves : Equiv.Perm Int, (∀ p, ¬ (start ≤ p ∧ p ≤ stop) → moves p = p) ∧ after = before ∘ moves

namespace Rearranges

theorem refl (elements : Int → α) (start stop : Int) : Rearranges elements elements start stop :=
  ⟨Equiv.refl Int, fun _ _ => rfl, rfl⟩

theorem trans (first : Rearranges before between start stop)
    (second : Rearranges between after start stop) : Rearranges before after start stop := by
  obtain ⟨moves, stays, rfl⟩ := first
  obtain ⟨moves', stays', rfl⟩ := second
  refine ⟨moves'.trans moves, fun p outside => ?_, rfl⟩
  rw [Equiv.trans_apply, stays' p outside, stays p outside]

/-- A range within the range. -/
theorem widen {start' stop' : Int} (rearranges : Rearranges before after start stop)
    (low : start ≤ stop → start' ≤ start) (high : start ≤ stop → stop ≤ stop') :
    Rearranges before after start' stop' := by
  obtain ⟨moves, stays, same⟩ := rearranges
  exact ⟨moves, fun p outside => stays p (by lia), same⟩

theorem swap (elements : Int → α) {i j : Int} (first : start ≤ i ∧ i ≤ stop)
    (second : start ≤ j ∧ j ≤ stop) : Rearranges elements (elements ∘ Equiv.swap i j) start stop :=
  ⟨Equiv.swap i j, fun p outside => Equiv.swap_apply_of_ne_of_ne (by lia) (by lia), rfl⟩

theorem outside (rearranges : Rearranges before after start stop) {p : Int}
    (away : ¬ (start ≤ p ∧ p ≤ stop)) : after p = before p := by
  obtain ⟨moves, stays, rfl⟩ := rearranges
  rw [Function.comp_apply, stays p away]

/-- What holds of all elements of the range still does. -/
theorem all (rearranges : Rearranges before after start stop) {P : α → Prop}
    (holds : ∀ p, start ≤ p → p ≤ stop → P (before p)) {p : Int} (low : start ≤ p) (high : p ≤ stop) :
    P (after p) := by
  obtain ⟨moves, stays, rfl⟩ := rearranges
  have inside : start ≤ moves p ∧ moves p ≤ stop := by
    by_contra away
    have fixed := moves.injective (stays (moves p) away)
    rw [fixed] at away
    exact away ⟨low, high⟩
  exact holds (moves p) inside.1 inside.2

end Rearranges

namespace Rearranges

/-- An element outside the range that is replaced. -/
theorem update (rearranges : Rearranges before after start stop) {p : Int}
    (away : ¬ (start ≤ p ∧ p ≤ stop)) (element : α) :
    Rearranges (Function.update before p element) (Function.update after p element) start stop := by
  obtain ⟨moves, stays, rfl⟩ := rearranges
  refine ⟨moves, stays, funext fun q => ?_⟩
  by_cases here : q = p
  · subst here
    rw [Function.comp_apply, stays q away, Function.update_self, Function.update_self]
  · have other : moves q ≠ p := by
      rw [← stays p away]
      exact fun same => here (moves.injective same)
    rw [Function.comp_apply, Function.update_of_ne here, Function.update_of_ne other,
      Function.comp_apply]

/-- What agrees in the range is rearranged alike. -/
theorem alike {others : Int → α} (rearranges : Rearranges before after start stop)
    (agree : ∀ p, start ≤ p → p ≤ stop → before p = others p) :
    ∃ others', Rearranges others others' start stop ∧
      ∀ p, start ≤ p → p ≤ stop → after p = others' p := by
  obtain ⟨moves, stays, rfl⟩ := rearranges
  have copied : Rearranges others (others ∘ moves) start stop := ⟨moves, stays, rfl⟩
  refine ⟨others ∘ moves, copied, fun p low high => ?_⟩
  have positions : Rearranges id (id ∘ moves) start stop := ⟨moves, stays, rfl⟩
  have inside : start ≤ moves p ∧ moves p ≤ stop :=
    positions.all (P := fun q => start ≤ q ∧ q ≤ stop) (fun q low' high' => ⟨low', high'⟩) low high
  exact agree (moves p) inside.1 inside.2

/-- The positions may be counted from elsewhere. -/
theorem shift (d : Int) (rearranges : Rearranges (fun p => before (d + p)) after start stop) :
    Rearranges before (fun q => after (q - d)) (d + start) (d + stop) := by
  obtain ⟨moves, stays, rfl⟩ := rearranges
  refine ⟨(Equiv.subRight d).trans (moves.trans (Equiv.addLeft d)), fun q outside => ?_, rfl⟩
  simp only [Equiv.trans_apply, Equiv.subRight_apply, Equiv.coe_addLeft]
  rw [stays (q - d) (by lia)]
  ring

/-- The positions from `j` to `i` when the last of them comes first. -/
def lastFirst {j i : Int} (order : j ≤ i) : Equiv.Perm Int where
  toFun p := if p = j then i else if j < p ∧ p ≤ i then p - 1 else p
  invFun p := if p = i then j else if j ≤ p ∧ p < i then p + 1 else p
  left_inv p := by
    simp only
    split_ifs <;> lia
  right_inv p := by
    simp only
    split_ifs <;> lia

/-- The last element is inserted before others. -/
theorem insert (elements : Int → α) {j i : Int} (order : j ≤ i) :
    Rearranges elements
      (fun p => if p = j then elements i else if j < p ∧ p ≤ i then elements (p - 1) else elements p)
      j i := by
  refine ⟨lastFirst order, fun p outside => ?_, funext fun p => ?_⟩
  · rw [lastFirst, Equiv.coe_fn_mk, if_neg (by lia), if_neg (by lia)]
  · rw [Function.comp_apply, lastFirst, Equiv.coe_fn_mk]
    split_ifs <;> rfl

end Rearranges

/-- Each element of the range is in order with all behind it. -/
def Ordered (le : α → α → Prop) (elements : Int → α) (start stop : Int) : Prop :=
  ∀ p q, start ≤ p → p < q → q ≤ stop → le (elements p) (elements q)

namespace Ordered

variable {le : α → α → Prop} {elements : Int → α}

theorem short (none : stop ≤ start) : Ordered le elements start stop :=
  fun p q low less high => absurd low (by lia)

/-- A range that is ordered stays so where another is rearranged. -/
theorem keep {start' stop' : Int} (ordered : Ordered le before start stop)
    (rearranges : Rearranges before after start' stop')
    (apart : ∀ p, start ≤ p → p ≤ stop → ¬ (start' ≤ p ∧ p ≤ stop')) :
    Ordered le after start stop := by
  intro p q low less high
  rw [rearranges.outside (apart p low (by lia)), rearranges.outside (apart q (by lia) high)]
  exact ordered p q low less high

end Ordered

/-- The elements before `k` are before a pivot, and those after `l` behind it. -/
structure Parted (le : α → α → Prop) (elements : Int → α) (start l k stop : Int) (pivot : α) :
    Prop where
  lows : ∀ p, start ≤ p → p < k → le (elements p) pivot
  highs : ∀ p, l < p → p ≤ stop → le pivot (elements p)

namespace Parted

variable {le : α → α → Prop} {elements : Int → α} {l k : Int} {pivot : α}

/-- They still are when the first part is rearranged. -/
theorem left (parted : Parted le before start l k stop pivot) (apart : l < k)
    (rearranges : Rearranges before after start l) : Parted le after start l k stop pivot where
  lows p low less := by
    by_cases inLeft : p ≤ l
    · exact rearranges.all (P := fun x => le x pivot)
        (fun q low' high => parted.lows q low' (Int.lt_of_le_of_lt high apart)) low inLeft
    · rw [rearranges.outside fun inside => inLeft inside.2]
      exact parted.lows p low less
  highs p low high := by
    rw [rearranges.outside fun inside => absurd inside.2 (Int.not_le.mpr low)]
    exact parted.highs p low high

/-- They still are when the last part is. -/
theorem right (parted : Parted le before start l k stop pivot) (apart : l < k)
    (rearranges : Rearranges before after k stop) : Parted le after start l k stop pivot where
  lows p low less := by
    rw [rearranges.outside fun inside => absurd inside.1 (Int.not_le.mpr less)]
    exact parted.lows p low less
  highs p low high := by
    by_cases inRight : k ≤ p
    · exact rearranges.all (P := fun x => le pivot x)
        (fun q low' high' => parted.highs q (Int.lt_of_lt_of_le apart low') high') inRight high
    · rw [rearranges.outside fun inside => inRight inside.1]
      exact parted.highs p low high

/-- Ordered parts make an ordered range. -/
theorem join (parted : Parted le elements start l k stop pivot)
    (trans : ∀ x y z, le x y → le y z → le x z) (left : Ordered le elements start l)
    (right : Ordered le elements k stop) : Ordered le elements start stop := by
  intro p q low less high
  by_cases inLeft : q ≤ l
  · exact left p q low less inLeft
  · by_cases inRight : k ≤ p
    · exact right p q inRight less high
    · exact trans _ pivot _ (parted.lows p low (by lia)) (parted.highs q (by lia) high)

end Parted

end Egg.Data
