import Egg.Collection.OrderedRuns
import Egg.Collection.Quicksort
import Mathlib.Data.Multiset.AddSub

/-! Runs of operations on a sorted collection. -/
namespace Egg.Collection

open Egg.Data Contents OrderedCollection

variable {α : Type}

section Search

variable {sorter : Sorter α} {newObject : Option α} {start stop : Int} {contents : Contents α}
  {items : List (Option α)}

/-- What is searched is between the elements that are before the new one and those that are not. -/
theorem indexForLoop_finds (preorder : TotalPreorder sorter)
    (lists : Lists ⟨start, stop, contents⟩ items) (sorted : Sorted sorter items) {fuel a b : Nat}
    (enough : b < a + fuel) (ordered : a ≤ b) (inside : b ≤ items.length)
    (before : ∀ x ∈ items.take a, sorter x newObject)
    (behind : ∀ x ∈ items.drop b, ¬ sorter x newObject) :
    ∃ k : Nat, indexForLoop sorter newObject contents fuel (start + a) (start + b - 1) =
        some (start + k) ∧ k ≤ items.length ∧
      (∀ x ∈ items.take k, sorter x newObject) ∧ ∀ x ∈ items.drop k, ¬ sorter x newObject := by
  induction fuel generalizing a b with
  | zero => lia
  | succ fuel ih =>
    rw [indexForLoop]
    by_cases done : a = b
    · subst done
      exact ⟨a, if_pos (by lia), inside, before, behind⟩
    · obtain ⟨m, index, low, high⟩ : ∃ m : Nat,
          (start + b - 1 + (start + a)) / 2 = start + m ∧ a ≤ m ∧ m < b :=
        ⟨((start + b - 1 + (start + a)) / 2 - start).toNat, by lia, by lia, by lia⟩
      have within : m < items.length := by lia
      have found : contents.at (start + m) = some items[m] := by
        obtain ⟨first, last, inside', slots⟩ := lists
        simp only at first last inside' slots
        rw [at_eq (by lia) (by lia), slots, show start + m - start + 1 = (m : Int) + 1 by lia,
          slot_succ, List.getElem?_eq_getElem within]
        rfl
      have ends := List.pairwise_append.mp ((List.take_append_drop m items).symm ▸ sorted)
      rw [← List.getElem_cons_drop within] at ends
      obtain ⟨-, follows, precedes⟩ := ends
      rw [if_neg (by lia), index, found]
      simp only
      split_ifs with lower
      · have next := @ih (m + 1) b (by lia) (by lia) inside ?_ behind
        · rwa [show start + (m + 1 : Nat) = start + m + 1 by lia] at next
        · intro x member
          rw [List.take_succ_eq_append_getElem within] at member
          rcases List.mem_append.mp member with earlier | here
          · exact preorder.trans x _ _ (precedes x earlier _ List.mem_cons_self) lower
          · rwa [List.mem_singleton.mp here]
      · have next := @ih a m (by lia) low (by lia) before ?_
        · exact next
        · intro x member
          rw [← List.getElem_cons_drop within] at member
          rcases List.mem_cons.mp member with rfl | later
          · exact lower
          · exact fun under => lower (preorder.trans _ x _
              ((List.pairwise_cons.mp follows).1 x later) under)

end Search

theorem insertIdx_eq_append {items : List (Option α)} {k : Nat} {x : Option α}
    (inside : k ≤ items.length) : items.insertIdx k x = items.take k ++ x :: items.drop k := by
  induction k generalizing items with
  | zero => rfl
  | succ k ih =>
    cases items with
    | nil => exact absurd inside (Nat.not_succ_le_zero k)
    | cons y items =>
      rw [List.insertIdx_succ_cons, ih (Nat.le_of_succ_le_succ inside)]
      rfl

/-- What each element of another collection adds to an invariant, all of them have added. -/
theorem doEach_elements {σ : Type} {aBlock : σ → Option α → Effect σ}
    {invariant : List (Option α) → σ → Prop} {elements : List (Option α)}
    (step : ∀ added state each, invariant added state →
      ∃ next, aBlock state each = .ok next ∧ invariant (added ++ [each]) next)
    {count k : Nat} {state : σ} (rest : count + k = elements.length)
    (holds : invariant (elements.take k) state) :
    ∃ result, doEach (fun _ i => Contents.at elements i) aBlock count (k + 1) state = .ok result ∧
      invariant elements result := by
  induction count generalizing k state with
  | zero =>
    refine ⟨state, rfl, ?_⟩
    rwa [show k = elements.length by lia, List.take_length] at holds
  | succ count ih =>
    have within : k < elements.length := by lia
    have read : Contents.at elements (k + 1) = some elements[k] := by
      rw [at_eq (by lia) (by lia), slot_succ, List.getElem?_eq_getElem within]
      rfl
    obtain ⟨next, done, holds'⟩ := step _ state elements[k] holds
    rw [← List.take_succ_eq_append_getElem within] at holds'
    obtain ⟨result, enumerated, all⟩ := ih (by lia) holds'
    refine ⟨result, ?_, all⟩
    simp only [doEach, read, done, Except.bind]
    exact enumerated

namespace SortedCollection

section Effects

variable {lessOrEqual : Sorter α} {self : SortedCollection α} {items : List (Option α)}

/-- The elements, in an order that the sort block allows. -/
structure Holds (lessOrEqual : Sorter α) (collection : SortedCollection α)
    (items : List (Option α)) : Prop where
  lists : collection.toOrderedCollection.Lists items
  sorted : Sorted (collection.sorter lessOrEqual) items

/-- What an operation leaves holds a permutation of the elements under the same sort block. -/
def Leaves (lessOrEqual : Sorter α) (self : SortedCollection α)
    (effect : Effect (SortedCollection α)) (elements : List (Option α)) : Prop :=
  ∃ result items, effect = .ok result ∧ result.sortBlock = self.sortBlock ∧
    result.Holds lessOrEqual items ∧ items.Perm elements

theorem indexFor_keeps (preorder : TotalPreorder (self.sorter lessOrEqual))
    (holds : self.Holds lessOrEqual items) (newObject : Option α) :
    ∃ k : Nat, self.indexFor lessOrEqual newObject = some ((k : Int) + 1) ∧ k ≤ items.length ∧
      Sorted (self.sorter lessOrEqual) (items.insertIdx k newObject) := by
  obtain ⟨⟨start, stop, contents⟩, sortBlock⟩ := self
  obtain ⟨lists, sorted⟩ := holds
  have last := lists.last
  simp only at last
  obtain ⟨k, found, inside, before, behind⟩ := @indexForLoop_finds _ _ newObject _ _ _ _ preorder
    lists sorted ((stop + 1 - start).toNat + 1) 0 items.length (by lia) (Nat.zero_le _)
    (Nat.le_refl _) (fun _ none => absurd none List.not_mem_nil) (by
      rw [List.drop_length]
      exact fun _ none => absurd none List.not_mem_nil)
  refine ⟨k, ?_, inside, ?_⟩
  · rw [Int.natCast_zero, Int.add_zero, show start + items.length - 1 = stop by lia] at found
    rw [indexFor]
    simp only [found, Option.map_some]
    exact congrArg some (by lia)
  · rw [insertIdx_eq_append inside]
    have halves := List.pairwise_append.mp ((List.take_append_drop k items).symm ▸ sorted)
    exact sorted_around_pivot preorder halves.1 halves.2.1 before behind

theorem add_leaves (preorder : TotalPreorder (self.sorter lessOrEqual))
    (holds : self.Holds lessOrEqual items) (anObject : Option α) :
    Leaves lessOrEqual self (self.add lessOrEqual anObject) (anObject :: items) := by
  obtain ⟨k, found, inside, sorted⟩ := indexFor_keeps preorder holds anObject
  obtain ⟨result, added, lists⟩ := addAt_lists holds.lists anObject inside
  refine ⟨{ self with toOrderedCollection := result }, _, ?_, rfl, ⟨lists, sorted⟩,
    List.perm_insertIdx anObject items inside⟩
  simp only [add, found, added]
  rfl

theorem reSort_leaves (preorder : TotalPreorder (self.sorter lessOrEqual))
    (lists : self.toOrderedCollection.Lists items) :
    Leaves lessOrEqual self (self.reSort lessOrEqual) items := by
  obtain ⟨⟨start, stop, contents⟩, sortBlock⟩ := self
  have elements := lists.elements_eq
  have listed := lists
  obtain ⟨first, last, inside, slots⟩ := listed
  simp only at first last inside slots
  rw [OrderedCollection.elements, collectionSize] at elements
  simp only at elements
  obtain ⟨sorted, done, same, ordered⟩ := sortFromTo_sorts preorder first (by lia) inside
  rw [List.drop_take, show stop.toNat - (start - 1).toNat = (stop - start + 1).toNat by lia,
    elements] at same
  refine ⟨⟨⟨start, stop, contents.take (start - 1).toNat ++ (sorted ++ contents.drop stop.toNat)⟩,
    sortBlock⟩, sorted, ?_, rfl, ⟨⟨first, ?_, ?_, fun i => ?_⟩, ordered⟩, same⟩
  · rw [reSort, done]
    rfl
  · rw [same.length_eq]
    exact last
  · simp only [List.length_append, List.length_take, List.length_drop, same.length_eq]
    lia
  · have length := same.length_eq
    simp only [slot_append, slot_take, slot_drop, List.length_take, length, slots]
    split_ifs
    all_goals first
      | lia
      | exact slot_congr (.inl (by lia))
      | exact (slot_outside (by lia)).trans (slot_outside (by lia)).symm

/-- Storing behind the last element keeps the first index where nothing has to slide. -/
theorem basicAdd_stays {start stop : Int} {contents : Contents α} {result : OrderedCollection α}
    {anObject : Option α} (fixed : start = 1 ∨ stop ≠ contents.length)
    (done : basicAdd ⟨start, stop, contents⟩ anObject = .ok result) :
    result.start = start ∧ (stop ≠ contents.length →
      result.stop = stop + 1 ∧ result.contents.length = contents.length) := by
  by_cases full : stop = contents.length
  · obtain rfl : start = 1 := fixed.resolve_right (absurd full)
    rw [basicAdd, if_pos full, makeRoomBehind, if_pos rfl, grow, growTo] at done
    refine ⟨?_, absurd full⟩
    split at done
    · simp only [Except.bind, atPut] at done
      split_ifs at done
      · cases done
        rfl
      · cases done
    · cases done
  · rw [basicAdd, if_neg full] at done
    simp only [Except.bind, atPut] at done
    split_ifs at done
    · cases done
      exact ⟨rfl, fun _ => ⟨rfl, List.length_set⟩⟩
    · cases done

/-- Enumerating the receiver while its elements are added behind reads each of them once, as long
as it does not slide before the last one was read. -/
theorem doEach_receiver {count k : Nat}
    (lists : self.toOrderedCollection.Lists (items ++ items.take k))
    (rest : count + k = items.length)
    (fixed : self.start = 1 ∨ (count : Int) ≤ self.contents.length - self.stop + 1) :
    ∃ result : OrderedCollection α, doEach (fun self i => self.contents.at i)
        (fun self each => self.inherit (self.addLast each)) count (self.start + k) self =
          .ok { self with toOrderedCollection := result } ∧ result.Lists (items ++ items) := by
  induction count generalizing k self with
  | zero =>
    refine ⟨self.toOrderedCollection, rfl, ?_⟩
    rwa [show k = items.length by lia, List.take_length] at lists
  | succ count ih =>
    have within : k < items.length := by lia
    obtain ⟨⟨start, stop, contents⟩, sortBlock⟩ := self
    have listed := lists
    obtain ⟨first, last, inside, slots⟩ := listed
    rw [List.length_append, List.length_take] at last
    simp only at first last inside slots fixed
    have read : contents.at (start + k) = some items[k] := by
      rw [at_eq (by lia) (by lia), slots, show start + k - start + 1 = (k : Int) + 1 by lia,
        slot_append, if_pos (by lia), slot_succ, List.getElem?_eq_getElem within]
      rfl
    obtain ⟨result, done, lists'⟩ := basicAdd_lists lists items[k]
    rw [List.append_assoc, ← List.take_succ_eq_append_getElem within] at lists'
    by_cases final : count = 0
    · subst final
      refine ⟨result, ?_, ?_⟩
      · simp only [doEach, read, OrderedCollection.addLast, done, inherit, Except.bind]
      · rwa [show k + 1 = items.length by lia, List.take_length] at lists'
    · obtain ⟨kept, room⟩ : result.start = start ∧
          (result.start = 1 ∨ (count : Int) ≤ result.contents.length - result.stop + 1) := by
        rcases fixed with one | free
        · obtain ⟨kept, -⟩ := basicAdd_stays (.inl one) done
          exact ⟨kept, .inl (kept.trans one)⟩
        · have notFull : stop ≠ contents.length := by lia
          obtain ⟨kept, more⟩ := basicAdd_stays (.inr notFull) done
          obtain ⟨stop', length⟩ := more notFull
          exact ⟨kept, .inr (by lia)⟩
      obtain ⟨last', enumerated, doubled⟩ := @ih ⟨result, sortBlock⟩ (k + 1) lists' (by lia) room
      refine ⟨last', ?_, doubled⟩
      simp only [doEach, read, OrderedCollection.addLast, done, inherit, Except.bind]
      simp only [kept] at enumerated
      rwa [show start + k + 1 = start + (k + 1 : Nat) by lia]

theorem sorter_congr {collection : SortedCollection α} (same : collection.sortBlock = self.sortBlock) :
    collection.sorter lessOrEqual = self.sorter lessOrEqual := by
  rw [sorter, same]
  rfl

/-- A collection that is added to itself stays where it is until its last element was read. -/
def StaysForItself (self : SortedCollection α) : Prop :=
  self.start = 1 ∨ self.collectionSize ≤ self.contents.length - self.stop + 1

instance (self : SortedCollection α) : Decidable self.StaysForItself :=
  inferInstanceAs (Decidable (_ ∨ _))

/-- The elements of the argument are appended and all are sorted, or each is put in its place. -/
theorem addAll_leaves (preorder : TotalPreorder (self.sorter lessOrEqual))
    (holds : self.Holds lessOrEqual items) {aCollection : Argument α} {elements : List (Option α)}
    (source : aCollection = .other elements ∨
      aCollection = .receiver ∧ elements = items ∧ self.StaysForItself) :
    Leaves lessOrEqual self (self.addAll lessOrEqual aCollection) (items ++ elements) := by
  have resorted {collection : SortedCollection α} (same : collection.sortBlock = self.sortBlock)
      (lists : collection.toOrderedCollection.Lists (items ++ elements)) :
      Leaves lessOrEqual self (collection.reSort lessOrEqual) (items ++ elements) := by
    obtain ⟨result, items', done, same', holds', permuted⟩ := reSort_leaves
      (sorter_congr same ▸ preorder) lists
    exact ⟨result, items', done, same'.trans same, holds', permuted⟩
  have size := holds.lists.size
  rcases source with rfl | ⟨rfl, rfl, stays⟩
  · by_cases bulk : self.collectionSize / 3 < elements.length
    · obtain ⟨collection, done, same, lists⟩ := @doEach_elements _ _
        (fun self each => self.inherit (self.addLast each))
        (fun added state => state.sortBlock = self.sortBlock ∧
          state.toOrderedCollection.Lists (items ++ added)) elements
        (fun added state each held => by
          obtain ⟨same, lists⟩ := held
          obtain ⟨result, done, lists'⟩ := basicAdd_lists lists each
          rw [List.append_assoc] at lists'
          exact ⟨⟨result, state.sortBlock⟩, by rw [addLast, done]; rfl, same, lists'⟩)
        elements.length 0 self rfl ⟨rfl, by rw [List.take_zero, List.append_nil]; exact holds.lists⟩
      rw [Int.natCast_zero, Int.zero_add] at done
      rw [addAll, Argument.size, if_pos bulk, forEach, done]
      exact resorted same lists
    · obtain ⟨collection, done, same, items', holds', permuted⟩ := @doEach_elements _ _
        (add lessOrEqual)
        (fun added state => state.sortBlock = self.sortBlock ∧
          ∃ items', state.Holds lessOrEqual items' ∧ items'.Perm (items ++ added)) elements
        (fun added state each held => by
          obtain ⟨same, items', holds', permuted⟩ := held
          obtain ⟨result, items'', done, same', holds'', permuted'⟩ :=
            add_leaves (sorter_congr same ▸ preorder) holds' each
          refine ⟨result, done, same'.trans same, items'', holds'', ?_⟩
          rw [← List.append_assoc]
          exact permuted'.trans ((permuted.cons each).trans
            (List.perm_append_singleton each _).symm))
        elements.length 0 self rfl ⟨rfl, items, holds, by
          rw [List.take_zero, List.append_nil]⟩
      rw [Int.natCast_zero, Int.zero_add] at done
      refine ⟨collection, items', ?_, same, holds', permuted⟩
      rw [addAll, Argument.size, if_neg bulk]
      exact done
  · have last := holds.lists.last
    have count : (self.stop + 1 - self.start).toNat = elements.length := by lia
    by_cases bulk : self.collectionSize / 3 < self.collectionSize
    · have begins : self.toOrderedCollection.Lists (elements ++ elements.take 0) := by
        rw [List.take_zero, List.append_nil]
        exact holds.lists
      obtain ⟨result, done, doubled⟩ := @doEach_receiver _ self elements elements.length 0 begins rfl
        (by rw [← size]; exact stays)
      rw [Int.natCast_zero, Int.add_zero] at done
      rw [addAll, Argument.size, if_pos bulk, forEach, count, done]
      exact @resorted ⟨result, self.sortBlock⟩ rfl doubled
    · obtain rfl : elements = [] := List.eq_nil_of_length_eq_zero (by lia)
      refine ⟨self, [], ?_, rfl, holds, .refl _⟩
      rw [addAll, Argument.size, if_neg bulk, forEach, count]
      rfl

/-- The first equal element is found, or none is equal. -/
theorem findEqual_finds {equals : Option α → Option α → Bool} {anObject : Option α}
    {start stop : Int} {contents : Contents α} (lists : Lists ⟨start, stop, contents⟩ items)
    {count k : Nat} (rest : count + k = items.length) :
    (∃ (m : Nat) (within : m < items.length), equals anObject items[m] ∧
      contents.findEqual equals anObject count (start + k) = some (start + m)) ∨
    (∀ x ∈ items.drop k, ¬ equals anObject x) ∧
      contents.findEqual equals anObject count (start + k) = none := by
  induction count generalizing k with
  | zero =>
    refine .inr ⟨fun x member => ?_, rfl⟩
    rw [show k = items.length by lia, List.drop_length] at member
    exact absurd member List.not_mem_nil
  | succ count ih =>
    have within : k < items.length := by lia
    have read : contents.at (start + k) = some items[k] := by
      obtain ⟨first, last, inside, slots⟩ := lists
      simp only at first last inside slots
      rw [at_eq (by lia) (by lia), slots, show start + k - start + 1 = (k : Int) + 1 by lia,
        slot_succ, List.getElem?_eq_getElem within]
      rfl
    rw [findEqual, read]
    simp only
    by_cases equal : equals anObject items[k]
    · exact .inl ⟨k, within, equal, if_pos equal⟩
    · rw [if_neg equal, show start + (k : Int) + 1 = start + (k + 1 : Nat) by lia]
      refine (@ih (k + 1) (by lia)).imp_right fun ⟨absent, found⟩ => ⟨fun x member => ?_, found⟩
      rw [← List.getElem_cons_drop within] at member
      rcases List.mem_cons.mp member with rfl | later
      · exact equal
      · exact absent x later

/-- One equal element is removed; where there is none the collection is left as it is. -/
theorem remove_leaves {equals : Option α → Option α → Bool} (holds : self.Holds lessOrEqual items)
    (anObject : Option α) :
    (∃ removed result items', equals anObject removed ∧ (removed :: items').Perm items ∧
      self.remove equals anObject = .ok result ∧ result.sortBlock = self.sortBlock ∧
      result.Holds lessOrEqual items') ∨
    (∀ x ∈ items, ¬ equals anObject x) ∧ self.remove equals anObject = .error self := by
  obtain ⟨⟨start, stop, contents⟩, sortBlock⟩ := self
  obtain ⟨lists, sorted⟩ := holds
  have last := lists.last
  simp only at last
  have count : (stop + 1 - start).toNat = items.length := by lia
  rcases @findEqual_finds _ items equals anObject start stop contents lists items.length 0 rfl with
    ⟨m, within, equal, found⟩ | ⟨absent, found⟩
  · obtain ⟨result, removed, lists'⟩ := removeIndex_lists lists within
    refine .inl ⟨items[m], ⟨result, sortBlock⟩, items.eraseIdx m, equal,
      List.getElem_cons_eraseIdx_perm within, ?_, rfl, lists', sorted.sublist
        (List.eraseIdx_sublist items m)⟩
    rw [Int.natCast_zero, Int.add_zero] at found
    simp only [remove, count, found]
    rw [show start + (m : Int) - start + 1 = m + 1 by lia, removed]
    rfl
  · refine .inr ⟨by rwa [List.drop_zero] at absent, ?_⟩
    rw [Int.natCast_zero, Int.add_zero] at found
    simp only [remove, count, found]

end Effects

/-- Operations that leave a sorted collection sorted. -/
inductive Operation (α : Type) where
  | add (anObject : Option α)
  | addAll (aCollection : Argument α)
  | remove (anObject : Option α)
  | reSort
  | setSortBlock (aBlock : Sorter α)

namespace Operation

section Runs

variable (lessOrEqual : Sorter α) (equals : Option α → Option α → Bool)

def perform : Operation α → SortedCollection α → Effect (SortedCollection α)
  | add anObject, self => self.add lessOrEqual anObject
  | addAll aCollection, self => self.addAll lessOrEqual aCollection
  | remove anObject, self => self.remove equals anObject
  | reSort, self => self.reSort lessOrEqual
  | setSortBlock aBlock, self => self.setSortBlock lessOrEqual aBlock

/-- What the operation makes of the multiset of the elements. -/
def Makes : Operation α → Multiset (Option α) → Multiset (Option α) → Prop
  | add anObject, before, after => after = anObject ::ₘ before
  | addAll (.other elements), before, after => after = before + ↑elements
  | addAll .receiver, before, after => after = before + before
  | remove anObject, before, after =>
    (∃ removed, equals anObject removed ∧ before = removed ::ₘ after) ∨
      (∀ x ∈ before, ¬ equals anObject x) ∧ after = before
  | reSort, before, after | setSortBlock _, before, after => after = before

/-- The sort block is a total preorder. -/
def Ordered : SortedCollection α → Operation α → Prop
  | _, setSortBlock aBlock => TotalPreorder aBlock
  | self, _ => TotalPreorder (self.sorter lessOrEqual)

/-- A collection that is added to itself does not slide before it was read. -/
def Stays : SortedCollection α → Operation α → Prop
  | self, addAll .receiver => self.StaysForItself
  | _, _ => True

variable {lessOrEqual : Sorter α} {equals : Option α → Option α → Bool}

/-- An operation leaves the elements sorted that it makes; only one that has nothing to remove ends
in an error, and changes nothing. -/
theorem perform_holds {self : SortedCollection α} {items : List (Option α)}
    (holds : self.Holds lessOrEqual items) (operation : Operation α)
    (ordered : Ordered lessOrEqual self operation) (stays : Stays self operation) :
    ∃ items', (left (operation.perform lessOrEqual equals self)).Holds lessOrEqual items' ∧
      operation.Makes equals items items' ∧
      ((∃ result, operation.perform lessOrEqual equals self = .ok result) ∨
        ∃ anObject, operation = remove anObject ∧ ∀ x ∈ items, ¬ equals anObject x) := by
  have leaves {elements : List (Option α)}
      (left' : Leaves lessOrEqual self (operation.perform lessOrEqual equals self) elements) :
      ∃ items', (left (operation.perform lessOrEqual equals self)).Holds lessOrEqual items' ∧
        (items' : Multiset (Option α)) = elements ∧
        ∃ result, operation.perform lessOrEqual equals self = .ok result := by
    obtain ⟨result, items', done, -, holds', permuted⟩ := left'
    rw [done]
    exact ⟨items', holds', Multiset.coe_eq_coe.mpr permuted, result, rfl⟩
  cases operation with
  | add anObject =>
    obtain ⟨items', holds', same, succeeds⟩ := leaves (add_leaves ordered holds anObject)
    exact ⟨items', holds', same, .inl succeeds⟩
  | addAll aCollection =>
    cases aCollection with
    | receiver =>
      obtain ⟨items', holds', same, succeeds⟩ := leaves
        (addAll_leaves ordered holds (.inr ⟨rfl, rfl, stays⟩))
      exact ⟨items', holds', same, .inl succeeds⟩
    | other elements =>
      obtain ⟨items', holds', same, succeeds⟩ := leaves (addAll_leaves ordered holds (.inl rfl))
      exact ⟨items', holds', same, .inl succeeds⟩
  | remove anObject =>
    rcases @remove_leaves _ _ _ _ equals holds anObject with
      ⟨removed, result, items', equal, same, done, -, holds'⟩ | ⟨absent, failed⟩
    · rw [perform, done]
      exact ⟨items', holds', .inl ⟨removed, equal, (Multiset.coe_eq_coe.mpr same).symm⟩,
        .inl ⟨result, rfl⟩⟩
    · rw [perform, failed]
      exact ⟨items, holds, .inr ⟨absent, rfl⟩, .inr ⟨anObject, rfl, absent⟩⟩
  | reSort =>
    obtain ⟨items', holds', same, succeeds⟩ := leaves (reSort_leaves ordered holds.lists)
    exact ⟨items', holds', same, .inl succeeds⟩
  | setSortBlock aBlock =>
    obtain ⟨result, items', done, -, holds', permuted⟩ := @reSort_leaves _ lessOrEqual
      { self with sortBlock := some aBlock } items ordered holds.lists
    rw [perform, SortedCollection.setSortBlock, done]
    exact ⟨items', holds', Multiset.coe_eq_coe.mpr permuted, .inl ⟨result, rfl⟩⟩

end Runs

end Operation

section Runs

variable {lessOrEqual : Sorter α} {equals : Option α → Option α → Bool}

/-- A run of operations that are allowed in the states they start from. -/
inductive Run (lessOrEqual : Sorter α) (equals : Option α → Option α → Bool)
    (allowed : SortedCollection α → Operation α → Prop) :
    SortedCollection α → List (Operation α) → SortedCollection α → Prop where
  | nil (collection : SortedCollection α) : Run lessOrEqual equals allowed collection [] collection
  | snoc {first middle operations operation} :
      Run lessOrEqual equals allowed first operations middle → allowed middle operation →
      Run lessOrEqual equals allowed first (operations ++ [operation])
        (left (operation.perform lessOrEqual equals middle))

/-- The multisets that operations make of an empty collection. -/
inductive Made (equals : Option α → Option α → Bool) :
    List (Operation α) → Multiset (Option α) → Prop where
  | nil : Made equals [] 0
  | snoc {operations operation before after} :
      Made equals operations before → operation.Makes equals before after →
      Made equals (operations ++ [operation]) after

/-- What a sorted collection promises after the given operations: the elements that they make, each
one less than or equal to those behind it; only a removal of what is not there fails, and a new
element has an index that keeps the order. -/
structure Promises (lessOrEqual : Sorter α) (equals : Option α → Option α → Bool)
    (operations : List (Operation α)) (collection : SortedCollection α)
    (items : List (Option α)) : Prop where
  refines : collection.toOrderedCollection.Refines items
  sorted : Sorted (collection.sorter lessOrEqual) items
  made : Made equals operations items
  succeeds : ∀ operation, Operation.Ordered lessOrEqual collection operation →
    Operation.Stays collection operation →
    (∃ next, operation.perform lessOrEqual equals collection = .ok next) ∨
      ∃ anObject, operation = .remove anObject ∧ ∀ x ∈ items, ¬ equals anObject x
  index : TotalPreorder (collection.sorter lessOrEqual) → ∀ newObject, ∃ k : Nat,
    collection.indexFor lessOrEqual newObject = some ((k : Int) + 1) ∧ k ≤ items.length ∧
      Sorted (collection.sorter lessOrEqual) (items.insertIdx k newObject)

/-- The range is replaced by its elements in order, and nothing else changes. -/
def Sorts (sorter : Sorter α) (contents : Contents α) (first last : Int) : Prop :=
  ∃ sorted, contents.sortFromTo sorter first last =
      .ok (contents.take (first - 1).toNat ++ (sorted ++ contents.drop last.toNat)) ∧
    sorted.Perm ((contents.take last.toNat).drop (first - 1).toNat) ∧ Sorted sorter sorted

/-- Under total preorders, and where no collection that is added to itself slides before it was
read, the elements stay sorted; any range is sorted. -/
theorem Run.stays_sorted {size : Nat} {collection : SortedCollection α}
    {operations : List (Operation α)}
    (run : Run lessOrEqual equals (fun self operation =>
      Operation.Ordered lessOrEqual self operation ∧ Operation.Stays self operation)
      (.new size) operations collection) :
    (∃ items, Promises lessOrEqual equals operations collection items) ∧
      ∀ (sorter : Sorter α), TotalPreorder sorter → ∀ (contents : Contents α) (first last : Int),
        1 ≤ first → first ≤ last + 1 → last ≤ contents.length →
        Sorts sorter contents first last := by
  have holds : ∃ items : List (Option α), collection.Holds lessOrEqual items ∧
      Made equals operations items := by
    induction run with
    | nil => exact ⟨[], ⟨.new size, List.Pairwise.nil⟩, .nil⟩
    | snoc before allowed ih =>
      obtain ⟨items, holds, made⟩ := ih
      obtain ⟨items', holds', makes, -⟩ := @Operation.perform_holds _ _ equals _ _ holds _
        allowed.1 allowed.2
      exact ⟨items', holds', .snoc made makes⟩
  obtain ⟨items, holds, made⟩ := holds
  refine ⟨⟨items, holds.lists.toRefines, holds.sorted, made, fun operation ordered stays => ?_,
    fun preorder newObject => indexFor_keeps preorder holds newObject⟩,
    fun sorter preorder contents first last low ordered high =>
      sortFromTo_sorts preorder low ordered high⟩
  obtain ⟨-, -, -, succeeds⟩ := Operation.perform_holds holds operation ordered stays
  exact succeeds

end Runs

section Numbers

/-- Numbers by their values, with nil as zero. -/
def byValue : Sorter Nat := fun x y => x.getD 0 ≤ y.getD 0

theorem byValue_preorder : TotalPreorder byValue where
  total x y := by
    simp only [byValue, decide_eq_true_eq]
    exact Nat.le_total _ _
  trans x y z first second := by
    simp only [byValue, decide_eq_true_eq] at first second ⊢
    exact Nat.le_trans first second

/-- Two numbers, and the same two once more. -/
theorem Run.stays_sorted_added_twice : ∃ (collection : SortedCollection Nat) (items : _),
    Promises byValue (· == ·) ([] ++ [.addAll (.other [some 3, some 1])] ++ [.addAll .receiver])
      collection items := by
  have run : Run byValue (· == ·) (fun self operation =>
      Operation.Ordered byValue self operation ∧ Operation.Stays self operation) (.new 4)
      ([] ++ [.addAll (.other [some 3, some 1])] ++ [.addAll .receiver]) _ :=
    .snoc (.snoc (.nil _) ⟨byValue_preorder, trivial⟩) ⟨byValue_preorder, by
      refine .inl ?_
      decide +kernel⟩
  exact ⟨_, (Run.stays_sorted run).1⟩

theorem Made.of_nil {equals : Option α → Option α → Bool} {after : Multiset (Option α)}
    (made : Made equals [] after) : after = 0 := by
  generalize none : ([] : List (Operation α)) = operations at made
  cases made with
  | nil => rfl
  | snoc => exact absurd none.symm (List.append_ne_nil_of_right_ne_nil _ (List.cons_ne_nil _ _))

theorem Made.of_snoc {operations : List (Operation α)} {operation : Operation α}
    {equals : Option α → Option α → Bool} {after : Multiset (Option α)}
    (made : Made equals (operations ++ [operation]) after) :
    ∃ before, Made equals operations before ∧ operation.Makes equals before after := by
  generalize all : operations ++ [operation] = operations' at made
  cases made with
  | nil => exact absurd all (List.append_ne_nil_of_right_ne_nil _ (List.cons_ne_nil _ _))
  | snoc before makes =>
    obtain ⟨rfl, same⟩ := List.append_inj' all rfl
    cases same
    exact ⟨_, before, makes⟩

/-- Four numbers fill their contents; without the first one, the others are added to themselves
while they slide to the front. -/
theorem Run.added_itself_sliding : ¬ ∀ (size : Nat) (operations : List (Operation Nat)) collection,
    Run byValue (· == ·) (Operation.Ordered byValue) (.new size) operations collection →
    ∃ items, Promises byValue (· == ·) operations collection items := by
  intro always
  have run : Run byValue (· == ·) (Operation.Ordered byValue) (.new 4)
      ([] ++ [.addAll (.other [some 1, some 2, some 3, some 4])] ++ [.remove (some 1)] ++
        [.addAll .receiver]) _ :=
    .snoc (.snoc (.snoc (.nil _) byValue_preorder) byValue_preorder) byValue_preorder
  obtain ⟨items, promises⟩ := always 4 _ _ run
  have elements := promises.refines.elements
  obtain ⟨second, made, doubled⟩ := promises.made.of_snoc
  obtain ⟨first, made, removed⟩ := made.of_snoc
  obtain ⟨empty, made, added⟩ := made.of_snoc
  obtain rfl := made.of_nil
  have four : first = [some 1, some 2, some 3, some 4] := added.trans (Multiset.zero_add _)
  have three : second = [some 2, some 3, some 4] := by
    rcases removed with ⟨one, equal, same⟩ | ⟨absent, -⟩
    · obtain rfl : some 1 = one := eq_of_beq equal
      have rest : some 1 ::ₘ ([some 2, some 3, some 4] : Multiset (Option Nat)) =
          some 1 ::ₘ second := four.symm.trans same
      exact ((Multiset.cons_inj_right (some 1)).mp rest).symm
    · exact absurd rfl (absent (some 1) (by rw [four]; decide))
  have six : (items : Multiset (Option Nat)) =
      ([some 2, some 3, some 4, some 2, some 3, some 4] : List (Option Nat)) := by
    rw [show (items : Multiset (Option Nat)) = second + second from doubled, three]
    rfl
  rw [← elements] at six
  exact absurd (Multiset.coe_eq_coe.mp six) (by decide +kernel)

end Numbers

end SortedCollection

end Egg.Collection
