import Egg.Collection.SortedCollection
import Mathlib.Data.List.Perm.Basic

/-! The quicksort of sorted collections sorts its range. -/
namespace Egg.Collection

open Egg.Data

variable {α : Type}

/-- Any two elements are in one order or the other, and the order is transitive. -/
structure TotalPreorder (sorter : Sorter α) : Prop where
  total : ∀ x y, sorter x y ∨ sorter y x
  trans : ∀ x y z, sorter x y → sorter y z → sorter x z

/-- Each element is before all that follow it, or equal to them. -/
def Sorted (sorter : Sorter α) (items : List (Option α)) : Prop :=
  items.Pairwise fun x y => sorter x y

namespace Contents

section Positions

variable {front back : List (Option α)} {x y : Option α} {index : Int}

theorem at_middle (here : index = front.length + 1) :
    Contents.at (front ++ x :: back) index = some x := by
  subst here
  rw [at_eq (by lia) (by rw [List.length_append, List.length_cons]; lia), slot_append,
    if_neg (by lia), slot_cons, if_pos (by lia)]

theorem atPut_middle (here : index = front.length + 1) :
    atPut (front ++ x :: back) index y = .ok (front ++ y :: back) := by
  subst here
  rw [atPut, if_pos ⟨by lia, by rw [List.length_append, List.length_cons]; lia⟩,
    show ((front.length : Int) + 1 - 1).toNat = front.length by lia]
  simp only [List.set_append_right, Nat.le_refl, Nat.sub_self, List.set_cons_zero]

end Positions

section Separation

variable {sorter : Sorter α} {temp : Option α} {front back : List (Option α)}

theorem swapped (middle rest : List (Option α)) (x y : Option α) :
    ([x] ++ (middle ++ ([y] ++ rest))).Perm ((y :: middle) ++ (x :: rest)) :=
  (List.perm_middle.cons x).trans ((List.Perm.swap y x _).trans (List.perm_middle.symm.cons y))

/-- The elements that were compared stand in two blocks, those before the pivot first. -/
theorem separate_splits (rest : List (Option α)) {lows highs : List (Option α)}
    (before : ∀ x ∈ lows, sorter x temp) (behind : ∀ x ∈ highs, ¬ sorter x temp) :
    ∃ lows' highs', separate sorter temp rest.length
        (front.length + lows.length + highs.length) (front.length + lows.length)
        (front ++ (lows ++ (highs ++ (rest ++ back)))) =
          .ok (front ++ (lows' ++ (highs' ++ back)), front.length + lows'.length) ∧
      (lows' ++ highs').Perm (lows ++ (highs ++ rest)) ∧
      (∀ x ∈ lows', sorter x temp) ∧ ∀ x ∈ highs', ¬ sorter x temp := by
  induction rest generalizing lows highs with
  | nil => exact ⟨lows, highs, rfl, by rw [List.append_nil], before, behind⟩
  | cons y rest ih =>
    have next : Contents.at (front ++ (lows ++ (highs ++ (y :: rest ++ back))))
        (front.length + lows.length + highs.length + 1) = some y := by
      have split : front ++ (lows ++ (highs ++ (y :: rest ++ back))) =
          (front ++ lows ++ highs) ++ y :: (rest ++ back) := by
        simp only [List.append_assoc, List.cons_append]
      rw [split]
      exact at_middle (by simp only [List.length_append]; lia)
    rw [List.length_cons, separate, next]
    simp only
    by_cases low : sorter y temp
    · rw [if_pos low]
      have before' : ∀ x ∈ lows ++ [y], sorter x temp := by
        intro x member
        rcases List.mem_append.mp member with old | new
        · exact before x old
        · rwa [List.mem_singleton.mp new]
      cases highs with
      | nil =>
        obtain ⟨lows', highs', separated, permuted, ends⟩ := ih before' behind
        refine ⟨lows', highs', ?_, ?_, ends⟩
        · rw [if_pos (by simp only [List.length_nil]; lia), ← separated]
          simp only [List.length_append, List.length_nil, List.length_cons, List.append_assoc,
            List.nil_append, List.cons_append, Int.natCast_add, Int.natCast_zero, Int.natCast_one,
            Int.add_zero, Int.add_assoc, Nat.zero_add]
        · rwa [List.append_assoc] at permuted
      | cons h highs =>
        have behind' : ∀ x ∈ highs ++ [h], ¬ sorter x temp := by
          intro x member
          rcases List.mem_append.mp member with old | new
          · exact behind x (List.mem_cons_of_mem h old)
          · rw [List.mem_singleton.mp new]
            exact behind h List.mem_cons_self
        obtain ⟨lows', highs', separated, permuted, ends⟩ := ih before' behind'
        refine ⟨lows', highs', ?_, permuted.trans ?_, ends⟩
        · have split : front ++ (lows ++ (h :: highs ++ (y :: rest ++ back))) =
              front ++ lows ++ h :: (highs ++ y :: (rest ++ back)) := by
            simp only [List.append_assoc, List.cons_append]
          have split' : front ++ lows ++ h :: (highs ++ y :: (rest ++ back)) =
              (front ++ lows ++ h :: highs) ++ y :: (rest ++ back) := by
            simp only [List.append_assoc, List.cons_append]
          have split'' : (front ++ lows ++ h :: highs) ++ h :: (rest ++ back) =
              front ++ lows ++ h :: (highs ++ h :: (rest ++ back)) := by
            simp only [List.append_assoc, List.cons_append]
          rw [if_neg (by simp only [List.length_cons]; lia), split,
            at_middle (by simp only [List.length_append]; lia)]
          simp only
          rw [split', atPut_middle (by simp only [List.length_append]; lia)]
          simp only [Except.bind]
          rw [split'', atPut_middle (by simp only [List.length_append]; lia), ← separated]
          simp only [List.length_append, List.length_nil, List.length_cons, List.append_assoc,
            List.nil_append, List.cons_append, Int.natCast_add, Int.natCast_one, Int.add_assoc,
            Int.add_comm 1, Nat.zero_add]
        · rw [List.append_assoc, List.append_assoc]
          exact (swapped highs rest y h).append_left lows
    · rw [if_neg low]
      have behind' : ∀ x ∈ highs ++ [y], ¬ sorter x temp := by
        intro x member
        rcases List.mem_append.mp member with old | new
        · exact behind x old
        · rwa [List.mem_singleton.mp new]
      obtain ⟨lows', highs', separated, permuted, ends⟩ := ih before behind'
      refine ⟨lows', highs', ?_, ?_, ends⟩
      · rw [← separated]
        simp only [List.length_append, List.length_cons, List.length_nil, List.append_assoc,
          List.nil_append, List.cons_append, Int.natCast_add, Int.natCast_one, Int.add_assoc,
          Nat.zero_add]
      · rwa [List.append_assoc] at permuted

end Separation

section Sorting

variable {sorter : Sorter α} {temp : Option α} {front back : List (Option α)}

/-- The pivot goes between what is before it and what is not. -/
theorem sorted_around_pivot (preorder : TotalPreorder sorter) {lows highs : List (Option α)}
    (sortedLows : Sorted sorter lows) (sortedHighs : Sorted sorter highs)
    (before : ∀ x ∈ lows, sorter x temp) (behind : ∀ x ∈ highs, ¬ sorter x temp) :
    Sorted sorter (lows ++ temp :: highs) := by
  have after : ∀ x ∈ highs, sorter temp x := fun x member =>
    (preorder.total temp x).resolve_right (behind x member)
  refine List.pairwise_append.mpr ⟨sortedLows, List.pairwise_cons.mpr ⟨after, sortedHighs⟩, ?_⟩
  intro x low y member
  rcases List.mem_cons.mp member with rfl | high
  · exact before x low
  · exact preorder.trans x temp y (before x low) (after y high)

/-- The last element before the pivot takes the first slot, and the pivot takes its slot. -/
theorem place_pivot {first : Option α} {rest lows : List (Option α)} :
    ∃ bound lows', lows'.Perm lows ∧
      Contents.at (front ++ first :: (lows ++ rest)) (front.length + 1 + lows.length) = some bound ∧
      ((atPut (front ++ first :: (lows ++ rest)) (front.length + 1) bound).bind fun contents =>
        atPut contents (front.length + 1 + lows.length) temp) =
          .ok (front ++ (lows' ++ temp :: rest)) := by
  rcases List.eq_nil_or_concat lows with rfl | ⟨lows, bound, rfl⟩
  · refine ⟨first, [], .refl _, at_middle (by rw [List.length_nil]; lia), ?_⟩
    rw [atPut_middle rfl]
    exact atPut_middle (by rw [List.length_nil]; lia)
  · have split (start : Option α) : front ++ start :: (lows.concat bound ++ rest) =
        (front ++ start :: lows) ++ bound :: rest := by
      simp only [List.concat_eq_append, List.append_assoc, List.cons_append, List.nil_append]
    have here : (front.length : Int) + 1 + (lows.concat bound).length =
        ((front ++ first :: lows).length : Int) + 1 := by
      rw [List.length_concat, List.length_append, List.length_cons]
      lia
    refine ⟨bound, bound :: lows, ?_, ?_, ?_⟩
    · rw [List.concat_eq_append]
      exact (List.perm_append_singleton bound lows).symm
    · rw [split, at_middle here]
    · rw [atPut_middle rfl]
      simp only [Except.bind]
      rw [split, atPut_middle (here.trans (by simp only [List.length_append, List.length_cons])),
        List.append_assoc, List.cons_append]

/-- A range of three or more elements falls into those before a pivot, the pivot, and those not
before it. -/
theorem sortLoop_splits {fuel : Nat} {first : Option α} {tail : List (Option α)}
    (long : 2 ≤ tail.length) :
    ∃ temp lows highs, (lows ++ temp :: highs).Perm (first :: tail) ∧
      (∀ x ∈ lows, sorter x temp) ∧ (∀ x ∈ highs, ¬ sorter x temp) ∧
      ∃ middle : Int, sortLoop sorter (fuel + 1) (front.length + 1)
          (front.length + (first :: tail).length) (front ++ (first :: tail ++ back)) =
        if middle < front.length + 1 + lows.length then
          (sortLoop sorter fuel (front.length + 1 + lows.length + 1)
            (front.length + (first :: tail).length)
            (front ++ (lows ++ temp :: (highs ++ back)))).bind
              (sortLoop sorter fuel (front.length + 1) (front.length + 1 + lows.length - 1))
        else
          (sortLoop sorter fuel (front.length + 1) (front.length + 1 + lows.length - 1)
            (front ++ (lows ++ temp :: (highs ++ back)))).bind
              (sortLoop sorter fuel (front.length + 1 + lows.length + 1)
                (front.length + (first :: tail).length)) := by
  have count : ((first :: tail).length : Int) = tail.length + 1 := by
    rw [List.length_cons, Int.natCast_succ]
  obtain ⟨k, middle, least, most⟩ : ∃ k : Nat,
      ((front.length : Int) + 1 + (front.length + (first :: tail).length)) / 2 =
        front.length + 1 + (k + 1) ∧ 0 ≤ k ∧ k < tail.length :=
    ⟨(((front.length : Int) + 1 + (front.length + (first :: tail).length)) / 2 -
      (front.length + 2)).toNat, by lia, by lia, by lia⟩
  obtain ⟨u, temp, v, rfl, length⟩ : ∃ u temp v, tail = u ++ temp :: v ∧ u.length = k :=
    ⟨tail.take k, tail[k], tail.drop (k + 1), by
      rw [List.getElem_cons_drop, List.take_append_drop], by rw [List.length_take]; lia⟩
  have pivot : front ++ (first :: (u ++ temp :: v) ++ back) =
      (front ++ first :: u) ++ temp :: (v ++ back) := by
    simp only [List.append_assoc, List.cons_append]
  have here : ((front.length : Int) + 1 + (front.length + (first :: (u ++ temp :: v)).length)) / 2 =
      ((front ++ first :: u).length : Int) + 1 := by
    rw [middle, List.length_append, List.length_cons, length]
    lia
  obtain ⟨lows, highs, separated, permuted, before, behind⟩ := @separate_splits _ sorter temp
    (front ++ [first]) back (u ++ first :: v) [] [] (fun _ none => absurd none List.not_mem_nil)
    (fun _ none => absurd none List.not_mem_nil)
  obtain ⟨bound, lows', same, placed, put⟩ := @place_pivot _ temp front first (highs ++ back) lows
  refine ⟨temp, lows', highs, ?_, fun x member => before x (same.mem_iff.mp member), behind,
    ((front.length : Int) + 1 + (front.length + (first :: (u ++ temp :: v)).length)) / 2, ?_⟩
  · calc lows' ++ temp :: highs
      List.Perm _ (temp :: (lows' ++ highs)) := List.perm_middle
      List.Perm _ (temp :: (lows ++ highs)) := (same.append_right highs).cons temp
      List.Perm _ (temp :: (u ++ first :: v)) := permuted.cons temp
      List.Perm _ (first :: (u ++ temp :: v)) := by
        exact swapped u v temp first
  · have length' : ((front.length : Int) + (first :: (u ++ temp :: v)).length -
        (front.length + 1)).toNat = (u ++ first :: v).length := by
      simp only [List.length_append, List.length_cons]
      lia
    have divided : separate sorter temp (u ++ first :: v).length (front.length + 1)
        (front.length + 1) ((front ++ first :: u) ++ first :: (v ++ back)) =
          .ok (front ++ first :: (lows ++ (highs ++ back)), front.length + 1 + lows.length) := by
      simp only [List.length_append, List.length_singleton, List.length_nil] at separated
      rw [← List.length_append] at separated
      simp only [Int.natCast_add, Int.natCast_one, Int.natCast_zero, Int.add_zero,
        List.append_assoc, List.cons_append, List.nil_append] at separated ⊢
      exact separated
    rw [sortLoop, if_neg (by lia)]
    generalize ((front.length : Int) + 1 +
      (front.length + (first :: (u ++ temp :: v)).length)) / 2 = middle at here ⊢
    simp only
    rw [length', pivot, at_middle here, ← pivot, List.cons_append, at_middle rfl, ← List.cons_append,
      pivot]
    simp only
    rw [atPut_middle here]
    simp only [Except.bind]
    rw [divided]
    simp only
    rw [placed]
    simp only [Except.bind] at put
    simp only
    rw [put, same.length_eq]

/-- Whichever part is sorted first, the range is sorted when its two parts are. -/
theorem sortLoop_sorts (preorder : TotalPreorder sorter) {fuel : Nat}
    {range : List (Option α)} (enough : range.length < fuel) :
    ∃ sorted, sortLoop sorter fuel (front.length + 1) (front.length + range.length)
        (front ++ (range ++ back)) = .ok (front ++ (sorted ++ back)) ∧
      sorted.Perm range ∧ Sorted sorter sorted := by
  induction fuel generalizing range front back with
  | zero => lia
  | succ fuel ih =>
    match range, enough with
    | [], _ =>
      refine ⟨[], ?_, .refl _, List.Pairwise.nil⟩
      rw [sortLoop, if_pos (by rw [List.length_nil]; lia), if_neg (by rw [List.length_nil]; lia)]
    | [x], _ =>
      refine ⟨[x], ?_, .refl _, List.pairwise_singleton _ x⟩
      rw [sortLoop, if_pos (by rw [List.length_singleton]; lia),
        if_neg (by rw [List.length_singleton]; lia)]
    | [x, y], _ =>
      have first : Contents.at (front ++ ([x, y] ++ back)) (front.length + 1) = some x :=
        at_middle rfl
      have second : Contents.at (front ++ ([x, y] ++ back)) (front.length + [x, y].length) =
          some y := by
        rw [show front ++ ([x, y] ++ back) = (front ++ [x]) ++ y :: back by
          simp only [List.append_assoc, List.cons_append, List.nil_append]]
        exact at_middle (by simp only [List.length_append, List.length_cons, List.length_nil]; lia)
      have two : ([x, y].length : Int) = 2 := rfl
      rw [sortLoop, if_pos (by lia), if_pos (by lia), second, first]
      simp only
      by_cases before : sorter y x
      · refine ⟨[y, x], ?_, List.Perm.swap x y [], ?_⟩
        · rw [if_pos before, show front ++ ([x, y] ++ back) = front ++ x :: ([y] ++ back) from rfl,
            atPut_middle rfl]
          simp only [Except.bind]
          rw [show front ++ y :: ([y] ++ back) = (front ++ [y]) ++ y :: back by
              simp only [List.append_assoc, List.cons_append, List.nil_append],
            atPut_middle (by simp only [List.length_append, List.length_cons, List.length_nil]; lia)]
          simp only [List.append_assoc, List.cons_append, List.nil_append]
        · exact List.pairwise_pair.mpr before
      · refine ⟨[x, y], if_neg before, .refl _, List.pairwise_pair.mpr ?_⟩
        exact (preorder.total x y).resolve_right before
    | first :: y :: z :: more, enough =>
      obtain ⟨temp, lows, highs, permuted, before, behind, middle, split⟩ :=
        @sortLoop_splits _ sorter front back fuel first (y :: z :: more)
          (by simp only [List.length_cons]; lia)
      have count := permuted.length_eq
      rw [List.length_append, List.length_cons] at count
      have sortLows (highs' : List (Option α)) : ∃ sorted,
          sortLoop sorter fuel (front.length + 1) (front.length + 1 + lows.length - 1)
            (front ++ (lows ++ temp :: (highs' ++ back))) =
              .ok (front ++ (sorted ++ temp :: (highs' ++ back))) ∧
          sorted.Perm lows ∧ Sorted sorter sorted := by
        obtain ⟨sorted, done, same, ordered⟩ := @ih front (temp :: (highs' ++ back)) lows (by lia)
        refine ⟨sorted, ?_, same, ordered⟩
        rw [← done, show (front.length : Int) + 1 + lows.length - 1 = front.length + lows.length by
          lia]
      have sortHighs {lows' : List (Option α)} (length : lows'.length = lows.length) : ∃ sorted,
          sortLoop sorter fuel (front.length + 1 + lows.length + 1)
            (front.length + (first :: y :: z :: more).length)
            (front ++ (lows' ++ temp :: (highs ++ back))) =
              .ok (front ++ (lows' ++ temp :: (sorted ++ back))) ∧
          sorted.Perm highs ∧ Sorted sorter sorted := by
        obtain ⟨sorted, done, same, ordered⟩ := @ih (front ++ (lows' ++ [temp])) back highs
          (by lia)
        refine ⟨sorted, ?_, same, ordered⟩
        have placed : ((front ++ (lows' ++ [temp])).length : Int) =
            front.length + 1 + lows.length := by
          simp only [List.length_append, List.length_singleton, length]
          lia
        rw [placed, show (front.length : Int) + 1 + lows.length + highs.length =
          front.length + (first :: y :: z :: more).length by lia] at done
        simpa only [List.append_assoc, List.cons_append, List.nil_append] using done
      have joined {sortedLows sortedHighs : List (Option α)} (sameLows : sortedLows.Perm lows)
          (sameHighs : sortedHighs.Perm highs) (orderedLows : Sorted sorter sortedLows)
          (orderedHighs : Sorted sorter sortedHighs) :
          (sortedLows ++ temp :: sortedHighs).Perm (first :: y :: z :: more) ∧
            Sorted sorter (sortedLows ++ temp :: sortedHighs) :=
        ⟨(sameLows.append (sameHighs.cons temp)).trans permuted,
          sorted_around_pivot preorder orderedLows orderedHighs
            (fun x member => before x (sameLows.mem_iff.mp member))
            fun x member => behind x (sameHighs.mem_iff.mp member)⟩
      rw [split]
      split_ifs
      · obtain ⟨sortedHighs, done, sameHighs, orderedHighs⟩ := sortHighs rfl
        obtain ⟨sortedLows, done', sameLows, orderedLows⟩ := sortLows sortedHighs
        refine ⟨_, ?_, joined sameLows sameHighs orderedLows orderedHighs⟩
        rw [done, List.append_assoc, List.cons_append]
        exact done'
      · obtain ⟨sortedLows, done, sameLows, orderedLows⟩ := sortLows highs
        obtain ⟨sortedHighs, done', sameHighs, orderedHighs⟩ := sortHighs sameLows.length_eq
        refine ⟨_, ?_, joined sameLows sameHighs orderedLows orderedHighs⟩
        rw [done, List.append_assoc, List.cons_append]
        exact done'

/-- Any range is sorted, and nothing else is moved. -/
theorem sortFromTo_sorts (preorder : TotalPreorder sorter) {left right : Int}
    {contents : Contents α} (low : 1 ≤ left) (ordered : left ≤ right + 1)
    (high : right ≤ contents.length) :
    ∃ sorted, sortFromTo sorter left right contents =
        .ok (contents.take (left - 1).toNat ++ (sorted ++ contents.drop right.toNat)) ∧
      sorted.Perm ((contents.take right.toNat).drop (left - 1).toNat) ∧ Sorted sorter sorted := by
  obtain ⟨front, rfl⟩ : ∃ front : Nat, left = front + 1 := ⟨(left - 1).toNat, by lia⟩
  obtain ⟨last, rfl⟩ : ∃ last : Nat, right = last := ⟨right.toNat, by lia⟩
  rw [show ((front : Int) + 1 - 1).toNat = front by lia, Int.toNat_natCast]
  have whole : contents = contents.take front ++ ((contents.take last).drop front ++
      contents.drop last) := by
    have start : contents.take front = (contents.take last).take front := by
      rw [List.take_take, Nat.min_eq_left (by lia)]
    rw [start, ← List.append_assoc, List.take_append_drop, List.take_append_drop]
  have frontLength : (contents.take front).length = front := by
    rw [List.length_take]
    lia
  have length : ((contents.take last).drop front).length = last - front := by
    rw [List.length_drop, List.length_take]
    lia
  obtain ⟨sorted, done, same, isSorted⟩ := @sortLoop_sorts _ sorter (contents.take front)
    (contents.drop last) preorder (((last : Int) - (front + 1) + 1).toNat + 1)
    ((contents.take last).drop front) (by lia)
  rw [← whole, frontLength, length, show (front : Int) + (last - front : Nat) = last by lia] at done
  exact ⟨sorted, done, same, isSorted⟩

end Sorting

end Contents

end Egg.Collection
