import Egg.Collection.ListRefinement

/-! Runs of operations on an ordered collection. -/
namespace Egg.Collection.OrderedCollection

open Egg.Data Contents

variable {α : Type}

section Blocks

variable {start stop : Int} {contents : Contents α} {items elements : List (Option α)}

/-- Blocks of other elements are put in front, the last ones first. -/
theorem addBlocksFirst_lists {fuel p : Nat} (inside : p ≤ elements.length) (enough : p < fuel)
    (lists : Lists ⟨start, stop, contents⟩ items) :
    ∃ result, addBlocksFirst (.other elements) fuel p ⟨start, stop, contents⟩ = .ok result ∧
      Lists result (elements.take p ++ items) := by
  induction fuel generalizing p start stop contents items with
  | zero => lia
  | succ fuel ih =>
    obtain ⟨start', stop', moved, made, kept, room⟩ : ∃ start' stop' moved,
        (if 0 < (p : Int) ∧ start - 1 = 0 then makeRoomBefore ⟨start, stop, contents⟩
          else .ok ⟨start, stop, contents⟩) = .ok ⟨start', stop', moved⟩ ∧
        Lists ⟨start', stop', moved⟩ items ∧ (0 < p → 1 < start') := by
      have first := lists.first
      simp only at first
      by_cases full : 0 < (p : Int) ∧ start - 1 = 0
      · obtain rfl : start = 1 := by lia
        obtain ⟨stop', moved, made, kept, room⟩ := makeRoomBefore_lists lists
        exact ⟨_, stop', moved, (if_pos full).trans made, kept, fun _ => by lia⟩
      · exact ⟨start, stop, contents, if_neg full, lists, fun some => by lia⟩
    by_cases none : p = 0
    · subst none
      have first := kept.first
      simp only at first
      refine ⟨_, ?_, by rwa [List.take_zero, List.nil_append]⟩
      simp only [addBlocksFirst, made, Except.bind]
      exact if_pos (by lia)
    · obtain ⟨n, same, least⟩ : ∃ n : Nat, min (start' - 1) (p : Int) = n ∧ 0 < n :=
        ⟨(min (start' - 1) (p : Int)).toNat, by lia, by lia⟩
      obtain ⟨first, last, inside', slots⟩ := kept
      simp only at first last inside' slots
      obtain ⟨copied, lifted, length, slots'⟩ := @lift_becomes _ start' stop' moved _ _
        (@replaceFromOther_becomes _ moved (start' - n) (start' - 1) (p - n + 1)
          (readOf elements) (slot elements) (by lia) (by
            intro j low high copied _ _
            exact at_eq (by lia) (by lia)))
      have block : Lists ⟨start' - n, stop', copied⟩
          ((elements.take p).drop (p - n) ++ items) := by
        have size : ((elements.take p).drop (p - n)).length = n := by
          rw [List.length_drop, List.length_take]
          lia
        refine ⟨by simp only; lia, ?_, by simp only; lia, fun i => ?_⟩
        · rw [List.length_append, size]
          simp only
          lia
        · simp only [slots', slots, slot_append, size, slot_drop, slot_take]
          split_ifs
          all_goals first
            | lia
            | exact slot_congr (by lia)
            | exact slot_outside (by lia)
      obtain ⟨result, done, listed⟩ := @ih _ _ _ _ (p - n) (by lia) (by lia) block
      refine ⟨result, ?_, ?_⟩
      · simp only [addBlocksFirst, made, Except.bind, same, Argument.read, lifted]
        rw [if_neg (by lia), show (p : Int) - n = (p - n : Nat) by lia]
        exact done
      · have joined : elements.take (p - n) ++ (elements.take p).drop (p - n) = elements.take p := by
          conv_rhs => rw [← List.take_append_drop (p - n) (elements.take p), List.take_take,
            Nat.min_eq_left (Nat.sub_le p n)]
        rwa [← List.append_assoc, joined] at listed

/-- The argument answers the elements while its own are not overwritten. -/
theorem read_elements {argument : Argument α} {moved copied : Contents α}
    (source : argument = .other elements ∨ argument = .receiver ∧ elements <+: items)
    (lists : Lists ⟨start, stop, moved⟩ items) (length : copied.length = moved.length)
    (kept : ∀ x, start ≤ x → x ≤ stop → slot copied x = slot moved x) {j : Int} (low : 1 ≤ j)
    (high : j ≤ elements.length) :
    argument.read ⟨start, stop, moved⟩ copied j = some (slot elements j) := by
  rcases source with rfl | ⟨rfl, rest, rfl⟩
  · exact at_eq low high
  · obtain ⟨first, last, inside, slots⟩ := lists
    simp only [List.length_append] at first last inside slots
    simp only [Argument.read, OrderedCollection.at]
    rw [if_pos (by lia), at_eq (by lia) (by lia), kept _ (by lia) (by lia), slots,
      slot_append, if_pos (by lia)]
    exact congrArg _ (slot_congr (.inl (by lia)))

/-- Where elements are pending there is room for some, or it is made. -/
theorem roomForBlock_lists (lists : Lists ⟨start, stop, contents⟩ items) (pending : Int) :
    ∃ start' stop' moved free,
      (if 0 < pending ∧ (contents.length : Int) - stop = 0 then
        (if 1 < start then compact ⟨start, stop, contents⟩
          else grow ⟨start, stop, contents⟩).map fun self =>
            (self, (self.contents.length : Int) - self.collectionSize)
        else .ok (⟨start, stop, contents⟩, (contents.length : Int) - stop)) =
          .ok (⟨start', stop', moved⟩, free) ∧
      Lists ⟨start', stop', moved⟩ items ∧ stop' + free ≤ moved.length ∧
      (0 < pending → 0 < free) := by
  have first := lists.first
  have last := lists.last
  have inside := lists.inside
  simp only at first last inside
  by_cases full : 0 < pending ∧ (contents.length : Int) - stop = 0
  · by_cases begun : 1 < start
    · obtain ⟨moved, made, kept, length⟩ := compact_lists lists
      refine ⟨1, items.length, moved, moved.length - items.length, ?_, kept, by lia, by lia⟩
      rw [if_pos full, if_pos begun, made]
      simp only [Except.map, kept.size]
    · obtain ⟨grown, made, kept, length⟩ := grow_lists lists
      refine ⟨start, stop, grown, grown.length - items.length, ?_, kept, by lia, by lia⟩
      rw [if_pos full, if_neg begun, made]
      simp only [Except.map, kept.size]
  · exact ⟨start, stop, contents, _, if_neg full, lists, by lia, by lia⟩

/-- Blocks of elements are put behind, also where they are the receiver's own. -/
theorem addBlocksLast_lists {argument : Argument α} {fuel k : Nat} (within : k ≤ elements.length)
    (enough : elements.length < k + fuel)
    (source : argument = .other elements ∨ argument = .receiver ∧ elements <+: items)
    (lists : Lists ⟨start, stop, contents⟩ items) :
    ∃ result, addBlocksLast argument elements.length fuel (k + 1) ⟨start, stop, contents⟩ =
        .ok result ∧ Lists result (items ++ elements.drop k) := by
  induction fuel generalizing k start stop contents items with
  | zero => lia
  | succ fuel ih =>
    obtain ⟨start', stop', moved, free, made, kept, fits, room⟩ :=
      roomForBlock_lists lists (elements.length - (k + 1) + 1)
    by_cases none : k = elements.length
    · subst none
      refine ⟨_, ?_, by rwa [List.drop_length, List.append_nil]⟩
      simp only [addBlocksLast, made, Except.bind]
      exact if_pos (by lia)
    · obtain ⟨n, same, least⟩ : ∃ n : Nat,
          min free ((elements.length : Int) - (k + 1) + 1) = n ∧ 0 < n :=
        ⟨(min free ((elements.length : Int) - (k + 1) + 1)).toNat, by lia, by lia⟩
      have window := kept
      obtain ⟨first, last, inside', slots⟩ := kept
      simp only at first last inside' slots
      obtain ⟨copied, lifted, length, slots'⟩ := @lift_becomes _ start' stop' moved _ _
        (@replaceFromOther_becomes _ moved (stop' + 1) (stop' + n) (k + 1)
          (argument.read ⟨start', stop', moved⟩) (slot elements) (by lia) (by
            intro j low high copied size untouched
            exact read_elements source window size (fun x _ most => untouched x (by lia))
              (by lia) (by lia)))
      have block : Lists ⟨start', stop' + n, copied⟩ (items ++ (elements.drop k).take n) := by
        have size : ((elements.drop k).take n).length = n := by
          rw [List.length_take, List.length_drop]
          lia
        refine ⟨first, ?_, by simp only; lia, fun i => ?_⟩
        · rw [List.length_append, size]
          simp only
          lia
        · simp only [slots', slots, slot_append, slot_drop, slot_take]
          split_ifs
          all_goals first
            | lia
            | exact slot_congr (by lia)
            | exact slot_outside (by lia)
      obtain ⟨result, done, listed⟩ := @ih _ _ _ _ (k + n) (by lia) (by lia)
        (source.imp_right fun ⟨own, before⟩ => ⟨own, before.trans (List.prefix_append ..)⟩) block
      refine ⟨result, ?_, ?_⟩
      · simp only [addBlocksLast, made, Except.bind, same, lifted]
        rw [if_neg (by lia), show (k : Int) + 1 + n = (k + n : Nat) + 1 by lia]
        exact done
      · have joined : (elements.drop k).take n ++ elements.drop (k + n) = elements.drop k := by
          rw [← List.drop_drop]
          exact List.take_append_drop n (elements.drop k)
        rwa [List.append_assoc, joined] at listed

/-- The elements of the receiver fit before its first one, once there is room. -/
def FitsBefore (self : OrderedCollection α) : Prop :=
  self.collectionSize ≤ self.roomBefore

instance (self : OrderedCollection α) : Decidable self.FitsBefore :=
  inferInstanceAs (Decidable (_ ≤ _))

/-- A collection that fits before its first element is added to itself in one block. -/
theorem addAllFirst_receiver (lists : Lists ⟨start, stop, contents⟩ items)
    (fits : FitsBefore ⟨start, stop, contents⟩) :
    ∃ result, addAllFirst ⟨start, stop, contents⟩ .receiver = .ok result ∧
      Lists result (items ++ items) := by
  have size := lists.size
  have first := lists.first
  simp only at first
  rw [FitsBefore, size] at fits
  by_cases empty : items = []
  · subst empty
    refine ⟨⟨start, stop, contents⟩, ?_, lists⟩
    simp only [addAllFirst, Argument.size, size]
    simp only [List.length_nil, Int.natCast_zero, Int.toNat_zero, addBlocksFirst]
    rw [if_neg (by lia)]
    exact if_pos (by lia)
  · have some : 0 < items.length := List.length_pos_iff.mpr empty
    obtain ⟨start', stop', moved, made, kept, room⟩ : ∃ start' stop' moved,
        (if 0 < (items.length : Int) ∧ start - 1 = 0 then makeRoomBefore ⟨start, stop, contents⟩
          else .ok ⟨start, stop, contents⟩) = .ok ⟨start', stop', moved⟩ ∧
        Lists ⟨start', stop', moved⟩ items ∧ items.length < start' := by
      by_cases full : 0 < (items.length : Int) ∧ start - 1 = 0
      · obtain rfl : start = 1 := by lia
        obtain ⟨stop', moved, made, kept, room⟩ := makeRoomBefore_lists lists
        exact ⟨_, stop', moved, (if_pos full).trans made, kept, by lia⟩
      · refine ⟨start, stop, contents, if_neg full, lists, ?_⟩
        rw [roomBefore, if_neg (show ¬ start = 1 by lia)] at fits
        simp only at fits
        lia
    have window := kept
    obtain ⟨first', last, inside, slots⟩ := kept
    simp only at first' last inside slots
    obtain ⟨copied, lifted, length, slots'⟩ := @lift_becomes _ start' stop' moved _ _
      (@replaceFromOther_becomes _ moved (start' - items.length) (start' - 1)
        (items.length - items.length + 1) ((Argument.receiver : Argument α).read
          ⟨start', stop', moved⟩) (slot items) (by lia) (by
          intro j low high copied size' untouched
          exact read_elements (.inr ⟨rfl, List.prefix_refl items⟩) window size'
            (fun x least _ => untouched x (by lia)) (by lia) (by lia)))
    refine ⟨⟨start' - items.length, stop', copied⟩, ?_, ⟨by simp only; lia, ?_,
      by simp only; lia, fun i => ?_⟩⟩
    · simp only [addAllFirst, Argument.size, size, Int.toNat_natCast]
      obtain ⟨more, same⟩ : ∃ more, items.length = more + 1 := ⟨items.length - 1, by lia⟩
      rw [addBlocksFirst, made]
      simp only [Except.bind]
      rw [if_neg (by lia), show min (start' - 1) (items.length : Int) = items.length by lia,
        lifted]
      simp only
      rw [same, addBlocksFirst, if_neg (by lia)]
      simp only [Except.bind]
      exact if_pos (by lia)
    · rw [List.length_append]
      simp only
      lia
    · simp only [slots', slots, slot_append]
      split_ifs
      all_goals first
        | lia
        | exact slot_congr (by lia)

end Blocks

inductive Operation (α : Type) where
  | addFirst (anObject : Option α)
  | addLast (anObject : Option α)
  | addAt (anObject : Option α) (anInteger : Int)
  | addAllFirst (aCollection : Argument α)
  | addAllLast (aCollection : Argument α)
  | removeFirst
  | removeLast
  | removeIndex (anInteger : Int)
  | removeAllSuchThat (aBlock : Option α → Bool)
  | compact

namespace Operation

def perform : Operation α → OrderedCollection α → Effect (OrderedCollection α)
  | addFirst anObject, self => self.addFirst anObject
  | addLast anObject, self => self.addLast anObject
  | addAt anObject anInteger, self => self.addAt anObject anInteger
  | addAllFirst aCollection, self => self.addAllFirst aCollection
  | addAllLast aCollection, self => self.addAllLast aCollection
  | removeFirst, self => self.removeFirst.map Prod.fst
  | removeLast, self => self.removeLast.map Prod.fst
  | removeIndex anInteger, self => self.removeIndex anInteger
  | removeAllSuchThat aBlock, self => self.removeAllSuchThat aBlock
  | compact, self => self.compact

/-- The list that the operation makes of a list. -/
def define : Operation α → List (Option α) → List (Option α)
  | addFirst anObject, items => anObject :: items
  | addLast anObject, items => items ++ [anObject]
  | addAt anObject anInteger, items => items.insertIdx (anInteger - 1).toNat anObject
  | addAllFirst .receiver, items | addAllLast .receiver, items => items ++ items
  | addAllFirst (.other elements), items => elements ++ items
  | addAllLast (.other elements), items => items ++ elements
  | removeFirst, items => items.tail
  | removeLast, items => items.dropLast
  | removeIndex anInteger, items =>
    if 1 ≤ anInteger then items.eraseIdx (anInteger - 1).toNat else items
  | removeAllSuchThat aBlock, items => items.filter (!aBlock ·)
  | compact, items => items

/-- There is an element to remove. -/
def Succeeds : Operation α → List (Option α) → Prop
  | removeFirst, items | removeLast, items => items ≠ []
  | removeIndex anInteger, items => 1 ≤ anInteger ∧ anInteger ≤ items.length
  | _, _ => True

/-- An index to add at is one of the list or the next one, and a collection that is added to
itself in front fits there. -/
def Meets : OrderedCollection α → Operation α → Prop
  | self, addAt _ anInteger => 1 ≤ anInteger ∧ anInteger ≤ self.collectionSize + 1
  | self, addAllFirst .receiver => self.FitsBefore
  | _, _ => True

instance (self : OrderedCollection α) (operation : Operation α) :
    Decidable (Meets self operation) := by
  cases operation with
  | addAt _ _ => exact inferInstanceAs (Decidable (_ ∧ _))
  | addAllFirst aCollection =>
    cases aCollection with
    | receiver => exact inferInstanceAs (Decidable (FitsBefore self))
    | other _ => exact .isTrue trivial
  | _ => exact .isTrue trivial

/-- Each operation does to the elements what it does to their list; without an element to remove
it ends in an error and changes nothing. -/
theorem perform_lists {self : OrderedCollection α} {items : List (Option α)}
    (lists : self.Lists items) (operation : Operation α) (meets : Meets self operation) :
    (∃ result, operation.perform self = .ok result ∧ result.Lists (operation.define items)) ∨
    ¬ operation.Succeeds items ∧ operation.perform self = .error self ∧
      operation.define items = items := by
  obtain ⟨start, stop, contents⟩ := self
  have size := lists.size
  cases operation with
  | addFirst anObject => exact .inl (addFirst_lists lists anObject)
  | addLast anObject => exact .inl (basicAdd_lists lists anObject)
  | addAt anObject anInteger =>
    obtain ⟨low, high⟩ := meets
    obtain ⟨k, rfl⟩ : ∃ k : Nat, anInteger = k + 1 := ⟨(anInteger - 1).toNat, by lia⟩
    rw [define, show ((k : Int) + 1 - 1).toNat = k by lia]
    exact .inl (addAt_lists lists anObject (by lia))
  | addAllFirst aCollection =>
    cases aCollection with
    | receiver => exact .inl (addAllFirst_receiver lists meets)
    | other elements =>
      obtain ⟨result, done, listed⟩ := @addBlocksFirst_lists _ _ _ _ _ elements
        ((elements.length : Int).toNat + 1) elements.length (Nat.le_refl _) (by lia) lists
      rw [List.take_length] at listed
      exact .inl ⟨result, done, listed⟩
  | addAllLast aCollection =>
    cases aCollection with
    | receiver =>
      obtain ⟨result, done, listed⟩ := @addBlocksLast_lists _ _ _ _ _ items .receiver
        (items.length + 1) 0 (Nat.zero_le _) (by lia) (.inr ⟨rfl, List.prefix_refl _⟩) lists
      rw [List.drop_zero] at listed
      refine .inl ⟨result, ?_, listed⟩
      simp only [perform, OrderedCollection.addAllLast, Argument.size, size, Int.toNat_natCast]
      exact done
    | other elements =>
      obtain ⟨result, done, listed⟩ := @addBlocksLast_lists _ _ _ _ _ elements (.other elements)
        (elements.length + 1) 0 (Nat.zero_le _) (by lia) (.inl rfl) lists
      rw [List.drop_zero] at listed
      refine .inl ⟨result, ?_, listed⟩
      simp only [perform, OrderedCollection.addAllLast, Argument.size, Int.toNat_natCast]
      exact done
  | removeFirst =>
    cases items with
    | nil =>
      have last := lists.last
      simp only [List.length_nil] at last
      refine .inr ⟨fun some => some rfl, ?_, rfl⟩
      simp only [perform, OrderedCollection.removeFirst]
      rw [if_pos (by lia)]
      rfl
    | cons anObject items =>
      obtain ⟨result, done, listed⟩ := removeFirst_lists lists
      exact .inl ⟨result, by rw [perform, done]; rfl, listed⟩
  | removeLast =>
    rcases List.eq_nil_or_concat items with rfl | ⟨items, anObject, rfl⟩
    · have last := lists.last
      simp only [List.length_nil] at last
      refine .inr ⟨fun some => some rfl, ?_, rfl⟩
      simp only [perform, OrderedCollection.removeLast]
      rw [if_pos (by lia)]
      rfl
    · obtain ⟨result, done, listed⟩ := removeLast_lists (by rwa [List.concat_eq_append] at lists)
      refine .inl ⟨result, by rw [perform, done]; rfl, ?_⟩
      rwa [define, List.concat_eq_append, List.dropLast_concat]
  | removeIndex anInteger =>
    by_cases inside : 1 ≤ anInteger ∧ anInteger ≤ items.length
    · obtain ⟨k, rfl⟩ : ∃ k : Nat, anInteger = k + 1 := ⟨(anInteger - 1).toNat, by lia⟩
      rw [define, if_pos (by lia), show ((k : Int) + 1 - 1).toNat = k by lia]
      exact .inl (removeIndex_lists lists (by lia))
    · have last := lists.last
      simp only at last
      refine .inr ⟨inside, ?_, ?_⟩
      · simp only [perform, OrderedCollection.removeIndex]
        exact if_neg (by lia)
      · rw [define]
        split_ifs
        · exact List.eraseIdx_of_length_le (by lia)
        · rfl
  | removeAllSuchThat aBlock => exact .inl (removeAllSuchThat_lists lists aBlock)
  | compact =>
    obtain ⟨moved, done, listed, _⟩ := compact_lists lists
    exact .inl ⟨_, done, listed⟩

end Operation

/-- A run of operations that are allowed in the states they start from. -/
inductive Run (allowed : OrderedCollection α → Operation α → Prop) :
    OrderedCollection α → List (Operation α) → OrderedCollection α → Prop where
  | nil (collection : OrderedCollection α) : Run allowed collection [] collection
  | snoc {first middle operations operation} :
      Run allowed first operations middle → allowed middle operation →
      Run allowed first (operations ++ [operation]) (left (operation.perform middle))

/-- The collection holds a list: its elements are those of the list, its bounds are inside the
contents, and there is nil outside of them. -/
structure Refines (collection : OrderedCollection α) (items : List (Option α)) : Prop where
  elements : collection.elements = items
  bounds : 1 ≤ collection.start ∧ collection.start ≤ collection.stop + 1 ∧
    collection.stop ≤ collection.contents.length
  outside : ∀ i, i < collection.start ∨ collection.stop < i → slot collection.contents i = none

theorem Lists.toRefines {collection : OrderedCollection α} {items : List (Option α)}
    (lists : collection.Lists items) : collection.Refines items where
  elements := lists.elements_eq
  bounds := ⟨lists.first, by have last := lists.last; lia, lists.inside⟩
  outside i out := by
    have last := lists.last
    rw [lists.slots]
    exact slot_outside (by lia)

/-- Where no index to add at is wrong and no collection is added to itself in front without room
for it, a collection is the list that the operations define, and only removals fail. -/
theorem Run.refines_list {size : Nat} {collection : OrderedCollection α}
    {operations : List (Operation α)} (run : Run Operation.Meets (.new size) operations collection) :
    collection.Refines (operations.foldl (fun items operation => operation.define items) []) ∧
      ∀ operation : Operation α, Operation.Meets collection operation →
        operation.Succeeds (operations.foldl (fun items operation => operation.define items) []) →
        ∃ next, operation.perform collection = .ok next := by
  have lists : collection.Lists
      (operations.foldl (fun items operation => operation.define items) []) := by
    induction run with
    | nil => exact .new size
    | snoc before meets ih =>
      rw [List.foldl_append, List.foldl_cons, List.foldl_nil]
      rcases Operation.perform_lists ih _ meets with ⟨result, done, listed⟩ | ⟨-, failed, same⟩
      · rw [done]
        exact listed
      · rw [failed, same]
        exact ih
  refine ⟨lists.toRefines, fun operation meets succeeds => ?_⟩
  rcases Operation.perform_lists lists operation meets with ⟨result, done, -⟩ | ⟨never, -⟩
  · exact ⟨result, done⟩
  · exact absurd succeeds never

section Runs

/-- Three elements, one of them put in front, and all of them added to themselves on both sides. -/
theorem Run.refines_list_doubled : ∃ collection : OrderedCollection Nat,
    Refines collection ((List.replicate 2 [some 3, some 1, some 2]).flatten ++
      (List.replicate 2 [some 3, some 1, some 2]).flatten) := by
  have run := (((Run.nil (.new 10)).snoc (show Operation.Meets _
    (.addAllLast (.other [some 1, some 2])) by decide)).snoc (show Operation.Meets _
    (.addFirst (some 3)) by decide)).snoc (show Operation.Meets _ (.addAllFirst .receiver) by decide)
  have run := run.snoc (show Operation.Meets _ (.addAllLast .receiver) by decide)
  exact ⟨_, (Run.refines_list run).1⟩

/-- Ten elements that fill their contents are put before themselves in two blocks, the second of
them read where the elements stood before. -/
theorem Run.added_itself_first : ¬ ∀ (size : Nat) (operations : List (Operation Nat)) collection,
    Run (fun _ _ => True) (.new size) operations collection →
    Refines collection (operations.foldl (fun items operation => operation.define items) []) := by
  intro always
  have run : Run (fun _ _ => True) (.new 10)
      ([] ++ [.addAllLast (.other ((List.range 10).map some))] ++ [.addAllFirst .receiver]) _ :=
    .snoc (.snoc (.nil _) trivial) trivial
  have refines := always 10 _ _ run
  exact absurd refines.elements (by decide)

end Runs

end Egg.Collection.OrderedCollection
