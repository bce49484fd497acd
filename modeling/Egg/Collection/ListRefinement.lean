import Egg.Collection.OrderedCollection

/-! What each operation of an ordered collection does to the list of its elements. -/
namespace Egg.Collection.OrderedCollection

open Egg.Data Contents

variable {α : Type}

/-- The elements stand in the window of the contents, and nil outside of it. -/
structure Lists (collection : OrderedCollection α) (items : List (Option α)) : Prop where
  first : 1 ≤ collection.start
  last : collection.stop + 1 = collection.start + items.length
  inside : collection.stop ≤ collection.contents.length
  slots : ∀ i, slot collection.contents i = slot items (i - collection.start + 1)

theorem Lists.size {self : OrderedCollection α} {items : List (Option α)} (lists : self.Lists items) :
    self.collectionSize = items.length := by
  have last := lists.last
  rw [collectionSize]
  lia

/-- The window, cut out of the contents, is the list. -/
theorem Lists.elements_eq {self : OrderedCollection α} {items : List (Option α)}
    (lists : self.Lists items) : self.elements = items := by
  have first := lists.first
  have last := lists.last
  have inside := lists.inside
  rw [elements, lists.size, Int.toNat_natCast]
  apply ext_slots
  · rw [List.length_take, List.length_drop]
    lia
  · intro i
    rw [slot_take, slot_drop]
    split_ifs with low high
    · rw [lists.slots]
      exact slot_congr (.inl (by lia))
    · exact (slot_outside (by lia)).symm
    · exact (slot_outside (by lia)).symm

theorem Lists.new (anInteger : Nat) : (OrderedCollection.new anInteger : OrderedCollection α).Lists [] where
  first := Int.le_refl 1
  last := rfl
  inside := Int.natCast_nonneg _
  slots _ := slot_replicate.trans slot_nil.symm

section Effects

variable {start stop : Int} {contents : Contents α} {items : List (Option α)}

theorem lift_becomes {effect : Effect (Contents α)} {slots : Int → Option α}
    (becomes : Becomes effect contents slots) :
    ∃ result, lift ⟨start, stop, contents⟩ effect = .ok ⟨start, stop, result⟩ ∧
      result.length = contents.length ∧ ∀ i, slot result i = slots i := by
  obtain ⟨result, done, length, slots⟩ := becomes
  exact ⟨result, by rw [done]; rfl, length, slots⟩

/-- Larger contents hold the elements at the same indices. -/
theorem growTo_lists {anInteger : Int} (lists : Lists ⟨start, stop, contents⟩ items)
    (room : stop ≤ anInteger) :
    ∃ grown, growTo ⟨start, stop, contents⟩ anInteger = .ok ⟨start, stop, grown⟩ ∧
      Lists ⟨start, stop, grown⟩ items ∧ grown.length = anInteger := by
  obtain ⟨first, last, inside, slots⟩ := lists
  simp only at first last inside slots
  obtain ⟨grown, copied, length, slots'⟩ := @replaceFromOther_becomes _
    (List.replicate anInteger.toNat none) start stop start (fun _ j => contents.at j) (slot contents)
    (by simp only [List.length_replicate]; lia)
    (by
      intro j low high copied _ _
      exact at_eq (by lia) (by lia))
  rw [List.length_replicate] at length
  refine ⟨grown, ?_, ⟨first, last, by simp only; lia, fun i => ?_⟩, by lia⟩
  · rw [growTo, copied]
  · simp only [slots', slots, slot_replicate]
    split_ifs
    · exact slot_congr (.inl (by lia))
    · exact (slot_outside (by lia)).symm

theorem grow_lists (lists : Lists ⟨start, stop, contents⟩ items) :
    ∃ grown, grow ⟨start, stop, contents⟩ = .ok ⟨start, stop, grown⟩ ∧
      Lists ⟨start, stop, grown⟩ items ∧
      (grown.length : Int) = contents.length + min (max items.length 10) 1000000 := by
  have inside := lists.inside
  have size := lists.size
  simp only at inside
  rw [grow, growSize, size]
  obtain ⟨grown, copied, kept, length⟩ := growTo_lists lists (show stop ≤
    contents.length + min (max (items.length : Int) 10) 1000000 by lia)
  exact ⟨grown, copied, kept, by lia⟩

/-- Moving the window within the contents leaves nil behind. -/
theorem compact_lists (lists : Lists ⟨start, stop, contents⟩ items) :
    ∃ moved, compact ⟨start, stop, contents⟩ = .ok ⟨1, items.length, moved⟩ ∧
      Lists ⟨1, items.length, moved⟩ items ∧ moved.length = contents.length := by
  have size := lists.size
  obtain ⟨first, last, inside, slots⟩ := lists
  simp only at first last inside slots size
  by_cases begun : start = 1
  · subst begun
    obtain rfl : stop = items.length := by lia
    exact ⟨contents, if_pos rfl, ⟨first, last, inside, slots⟩, rfl⟩
  · obtain ⟨copied, lifted, length, slots'⟩ := @lift_becomes _ start stop contents _ _
      (@replaceFromSelf_becomes _ contents 1 items.length start (by lia))
    obtain ⟨cleared, lifted', length', slots''⟩ := @lift_becomes _ 1 items.length copied _ _
      (@replaceFromWithNil_becomes _ copied (items.length + 1) stop (by lia))
    refine ⟨cleared, ?_, ⟨Int.le_refl 1, by simp only; lia, by simp only; lia, fun i => ?_⟩,
      by lia⟩
    · simp only [compact, if_neg begun, size, lifted, Except.bind, lifted']
    · simp only [slots'', slots', slots]
      split_ifs
      · exact (slot_outside (by lia)).symm
      · exact slot_congr (by lia)
      · exact slot_congr (by lia)

/-- The slots before the first element once there is room. -/
def roomBefore (self : OrderedCollection α) : Int :=
  if self.start = 1 then
    (if self.stop = self.contents.length then
      (self.contents.length + self.growSize + self.stop + 1) / 2
    else self.contents.length) - self.collectionSize
  else self.start - 1

/-- The window moves to the end, or to the middle of larger contents. -/
theorem makeRoomBefore_lists (lists : Lists ⟨1, stop, contents⟩ items) :
    ∃ stop' moved, makeRoomBefore ⟨1, stop, contents⟩ =
        .ok ⟨roomBefore ⟨1, stop, contents⟩ + 1, stop', moved⟩ ∧
      Lists ⟨roomBefore ⟨1, stop, contents⟩ + 1, stop', moved⟩ items ∧
      0 < roomBefore ⟨1, stop, contents⟩ := by
  have size := lists.size
  obtain ⟨room, same⟩ : ∃ room, roomBefore ⟨1, stop, contents⟩ = room := ⟨_, rfl⟩
  rw [same]
  have moved (length : Contents α) (stop' : Int) (kept : Lists ⟨1, stop, length⟩ items)
      (above : stop < stop') (enough : stop' ≤ length.length)
      (place : stop' - items.length = room) : ∃ result,
      (lift ⟨stop' - items.length + 1, stop', length⟩
        (length.replaceFromSelf (stop' - items.length + 1) stop' 1)).bind (fun self =>
          self.lift (self.contents.replaceFromWithNil 1 (self.start - 1))) =
        .ok ⟨room + 1, stop', result⟩ ∧ Lists ⟨room + 1, stop', result⟩ items := by
    obtain ⟨first, last, inside, slots⟩ := kept
    simp only at first last inside slots
    obtain ⟨copied, lifted, length', slots'⟩ :=
      @lift_becomes _ (stop' - items.length + 1) stop' length _ _
        (@replaceFromSelf_becomes _ length (stop' - items.length + 1) stop' 1 (by lia))
    obtain ⟨cleared, lifted', length'', slots''⟩ :=
      @lift_becomes _ (stop' - items.length + 1) stop' copied _ _
        (@replaceFromWithNil_becomes _ copied 1 (stop' - items.length + 1 - 1) (by lia))
    subst place
    refine ⟨cleared, ?_, ⟨by simp only; lia, by simp only; lia, by simp only; lia,
      fun i => ?_⟩⟩
    · simp only [lifted, Except.bind, lifted']
    · simp only [slots'', slots', slots]
      split_ifs
      · exact (slot_outside (by lia)).symm
      · exact slot_congr (by lia)
      · exact slot_congr (by lia)
  have inside := lists.inside
  have last := lists.last
  simp only at inside last
  unfold roomBefore at same
  simp only [if_true, size, growSize] at same
  by_cases full : stop = contents.length
  · obtain ⟨grown, done, kept, length⟩ := grow_lists lists
    rw [if_pos full] at same
    obtain ⟨result, made, window⟩ := moved grown ((grown.length + stop + 1) / 2) kept
      (by lia) (by lia) (by lia)
    refine ⟨(grown.length + stop + 1) / 2, result, ?_, window, by lia⟩
    simp only [makeRoomBefore, if_pos full, done, Except.map, Except.bind, size] at made ⊢
    exact made
  · rw [if_neg full] at same
    obtain ⟨result, made, window⟩ := moved contents contents.length lists (by lia) (by lia) same
    refine ⟨contents.length, result, ?_, window, by lia⟩
    simp only [makeRoomBefore, if_neg full, Except.bind, size] at made ⊢
    exact made

/-- The window moves half way to the front, or the contents grow. -/
theorem makeRoomBehind_lists (lists : Lists ⟨start, stop, contents⟩ items)
    (full : stop = contents.length) :
    ∃ start' stop' moved, makeRoomBehind ⟨start, stop, contents⟩ = .ok ⟨start', stop', moved⟩ ∧
      Lists ⟨start', stop', moved⟩ items ∧ stop' < moved.length := by
  by_cases begun : start = 1
  · obtain ⟨grown, done, kept, length⟩ := grow_lists lists
    exact ⟨start, stop, grown, by rw [makeRoomBehind, if_pos begun, done], kept, by lia⟩
  · have size := lists.size
    obtain ⟨first, last, inside, slots⟩ := lists
    simp only at first last inside slots size
    obtain ⟨copied, lifted, length, slots'⟩ :=
      @lift_becomes _ start (start / 2 + items.length - 1) contents _ _
        (@replaceFromSelf_becomes _ contents (start / 2) (start / 2 + items.length - 1) start
          (by lia))
    obtain ⟨cleared, lifted', length', slots''⟩ :=
      @lift_becomes _ start (start / 2 + items.length - 1) copied _ _
        (@replaceFromWithNil_becomes _ copied (start / 2 + items.length - 1 + 1) stop (by lia))
    refine ⟨start / 2, start / 2 + items.length - 1, cleared, ?_,
      ⟨by simp only; lia, by simp only; lia, by simp only; lia, fun i => ?_⟩, by lia⟩
    · simp only [makeRoomBehind, if_neg begun, size, lifted, Except.bind, lifted', Except.map]
    · simp only [slots'', slots', slots]
      split_ifs
      · exact (slot_outside (by lia)).symm
      · exact slot_congr (by lia)
      · exact slot_congr (by lia)

/-- There is a slot behind the last element, or room is made for one. -/
theorem roomBehind_lists (lists : Lists ⟨start, stop, contents⟩ items) :
    ∃ start' stop' moved,
      (if stop = contents.length then makeRoomBehind ⟨start, stop, contents⟩
        else .ok ⟨start, stop, contents⟩) = .ok ⟨start', stop', moved⟩ ∧
      Lists ⟨start', stop', moved⟩ items ∧ stop' < moved.length := by
  by_cases full : stop = contents.length
  · rw [if_pos full]
    exact makeRoomBehind_lists lists full
  · have inside := lists.inside
    simp only at inside
    exact ⟨start, stop, contents, if_neg full, lists, by lia⟩

/-- Storing an element right behind the last one. -/
theorem basicAdd_lists (lists : Lists ⟨start, stop, contents⟩ items) (anObject : Option α) :
    ∃ result, basicAdd ⟨start, stop, contents⟩ anObject = .ok result ∧
      Lists result (items ++ [anObject]) := by
  obtain ⟨start', stop', moved, made, kept, room⟩ := roomBehind_lists lists
  obtain ⟨first, last, inside, slots⟩ := kept
  simp only at first last inside slots
  obtain ⟨stored, lifted, length, slots'⟩ := @lift_becomes _ start' (stop' + 1) moved _ _
    (@atPut_becomes _ moved (stop' + 1) (by lia) (by lia) anObject)
  refine ⟨⟨start', stop' + 1, stored⟩, ?_, ⟨first, ?_, by simp only; lia, fun i => ?_⟩⟩
  · simp only [basicAdd, made, Except.bind, lifted]
  · simp only [List.length_append, List.length_cons, List.length_nil]
    lia
  · simp only [slots', slots, slot_append, slot_cons, slot_nil]
    split_ifs
    · lia
    · rfl
    · lia
    · rfl
    · lia
    · exact slot_outside (by lia)

theorem addFirst_lists (lists : Lists ⟨start, stop, contents⟩ items) (anObject : Option α) :
    ∃ result, addFirst ⟨start, stop, contents⟩ anObject = .ok result ∧
      Lists result (anObject :: items) := by
  obtain ⟨start', stop', moved, made, kept, room⟩ : ∃ start' stop' moved,
      (if start = 1 then makeRoomBefore ⟨start, stop, contents⟩
        else .ok ⟨start, stop, contents⟩) = .ok ⟨start', stop', moved⟩ ∧
      Lists ⟨start', stop', moved⟩ items ∧ 1 < start' := by
    by_cases begun : start = 1
    · subst begun
      obtain ⟨stop', moved, made, kept, room⟩ := makeRoomBefore_lists lists
      exact ⟨_, stop', moved, (if_pos rfl).trans made, kept, by lia⟩
    · have first := lists.first
      simp only at first
      exact ⟨start, stop, contents, if_neg begun, lists, by lia⟩
  obtain ⟨first, last, inside, slots⟩ := kept
  simp only at first last inside slots
  obtain ⟨stored, lifted, length, slots'⟩ := @lift_becomes _ (start' - 1) stop' moved _ _
    (@atPut_becomes _ moved (start' - 1) (by lia) (by lia) anObject)
  refine ⟨⟨start' - 1, stop', stored⟩, ?_, ⟨by simp only; lia, ?_, by simp only; lia,
    fun i => ?_⟩⟩
  · simp only [addFirst, made, Except.bind, lifted]
  · simp only [List.length_cons]
    lia
  · simp only [slots', slots, slot_cons]
    split_ifs
    · rfl
    · lia
    · lia
    · exact slot_congr (.inl (by lia))

/-- Inserting moves the elements from the index on behind. -/
theorem addAt_lists (lists : Lists ⟨start, stop, contents⟩ items) (anObject : Option α) {k : Nat}
    (inside : k ≤ items.length) :
    ∃ result, addAt ⟨start, stop, contents⟩ anObject (k + 1) = .ok result ∧
      Lists result (items.insertIdx k anObject) := by
  have longer : (items.insertIdx k anObject).length = items.length + 1 :=
    List.length_insertIdx_of_le_length inside anObject
  by_cases front : k = 0 ∧ 1 < start
  · obtain ⟨rfl, before⟩ := front
    obtain ⟨first, last, inside, slots⟩ := lists
    simp only at first last inside slots
    obtain ⟨stored, lifted, length, slots'⟩ := @lift_becomes _ (start - 1) stop contents _ _
      (@atPut_becomes _ contents (start - 1 + ((0 : Nat) + 1) - 1) (by lia) (by lia) anObject)
    refine ⟨⟨start - 1, stop, stored⟩, ?_, ⟨by simp only; lia, by simp only; lia,
      by simp only; lia, fun i => ?_⟩⟩
    · simp only [addAt, makeRoomBehindIndex]
      rw [if_pos (by lia)]
      simp only [Except.bind, lifted]
    · simp only [slots', slots, slot_insertIdx (Nat.zero_le items.length)]
      split_ifs
      · lia
      · rfl
      · lia
      · exact slot_congr (by lia)
      · lia
      · exact slot_congr (by lia)
  · obtain ⟨start', stop', moved, made, kept, room⟩ := roomBehind_lists lists
    obtain ⟨first, last, inside', slots⟩ := kept
    simp only at first last inside' slots
    obtain ⟨copied, lifted, length, slots'⟩ := @lift_becomes _ start' (stop' + 1) moved _ _
      (@replaceFromSelf_becomes _ moved (start' + (k + 1 - 1) + 1) (stop' + 1)
        (start' + (k + 1 - 1)) (by lia))
    obtain ⟨stored, lifted', length', slots''⟩ := @lift_becomes _ start' (stop' + 1) copied _ _
      (@atPut_becomes _ copied (start' + (k + 1) - 1) (by lia) (by lia) anObject)
    refine ⟨⟨start', stop' + 1, stored⟩, ?_, ⟨first, by simp only; lia, by simp only; lia,
      fun i => ?_⟩⟩
    · have begun := lists.first
      simp only at begun
      simp only [addAt, makeRoomBehindIndex]
      rw [if_neg (by lia)]
      simp only [made, Except.bind, lifted, lifted']
    · simp only [slots'', slots', slots, slot_insertIdx inside]
      split_ifs
      · lia
      · rfl
      · lia
      · exact slot_congr (by lia)
      · lia
      · exact slot_congr (by lia)
      · exact slot_congr (by lia)
      · lia
      · exact slot_congr (by lia)

/-- An empty window may start anywhere. -/
theorem Lists.restarted {self : OrderedCollection α} (lists : Lists self items) :
    Lists self.restarted items := by
  rw [OrderedCollection.restarted]
  split_ifs with empty
  · obtain ⟨first, last, inside, slots⟩ := lists
    obtain rfl : items = [] := List.eq_nil_of_length_eq_zero (by lia)
    exact ⟨Int.le_refl 1, rfl, Int.natCast_nonneg _, fun i => by rw [slots, slot_nil, slot_nil]⟩
  · exact lists

theorem removeFirst_lists {anObject : Option α} (lists : Lists ⟨start, stop, contents⟩
    (anObject :: items)) :
    ∃ result, removeFirst ⟨start, stop, contents⟩ = .ok (result, anObject) ∧
      Lists result items := by
  obtain ⟨first, last, inside, slots⟩ := lists
  simp only [List.length_cons] at first last inside slots
  have found : contents.at start = some anObject := by
    rw [at_eq first (by lia), slots, slot_cons, if_pos (by lia)]
  obtain ⟨cleared, lifted, length, slots'⟩ := @lift_becomes _ start stop contents _ _
    (@atPut_becomes _ contents start first (by lia) none)
  have kept : Lists ⟨start + 1, stop, cleared⟩ items := by
    refine ⟨by simp only; lia, by simp only; lia, by simp only; lia, fun i => ?_⟩
    simp only [slots', slots, slot_cons]
    split_ifs
    · exact (slot_outside (by lia)).symm
    · lia
    · exact slot_congr (.inl (by lia))
  refine ⟨_, ?_, kept.restarted⟩
  simp only [removeFirst]
  rw [if_neg (by lia)]
  simp only [found, lifted, Except.map]

theorem removeLast_lists {anObject : Option α} (lists : Lists ⟨start, stop, contents⟩
    (items ++ [anObject])) :
    ∃ result, removeLast ⟨start, stop, contents⟩ = .ok (result, anObject) ∧
      Lists result items := by
  obtain ⟨first, last, inside, slots⟩ := lists
  simp only [List.length_append, List.length_cons, List.length_nil] at first last inside slots
  have found : contents.at stop = some anObject := by
    rw [at_eq (by lia) inside, slots, slot_append, if_neg (by lia), slot_cons, if_pos (by lia)]
  obtain ⟨cleared, lifted, length, slots'⟩ := @lift_becomes _ start stop contents _ _
    (@atPut_becomes _ contents stop (by lia) inside none)
  have kept : Lists ⟨start, stop - 1, cleared⟩ items := by
    refine ⟨first, by simp only; lia, by simp only; lia, fun i => ?_⟩
    simp only [slots', slots, slot_append, slot_cons, slot_nil]
    split_ifs
    · exact (slot_outside (by lia)).symm
    · rfl
    · lia
    · exact (slot_outside (by lia)).symm
  refine ⟨_, ?_, kept.restarted⟩
  simp only [removeLast]
  rw [if_neg (by lia)]
  simp only [found, lifted, Except.map]

/-- The shorter side closes the gap. -/
theorem removeIndex_lists (lists : Lists ⟨start, stop, contents⟩ items) {k : Nat}
    (within : k < items.length) :
    ∃ result, removeIndex ⟨start, stop, contents⟩ (k + 1) = .ok result ∧
      Lists result (items.eraseIdx k) := by
  have shorter : (items.eraseIdx k).length + 1 = items.length := by
    rw [List.length_eraseIdx_of_lt within]
    lia
  obtain ⟨first, last, inside, slots⟩ := lists
  simp only at first last inside slots
  by_cases front : (k : Int) + 1 + start - 1 ≤ (start + stop) / 2
  · obtain ⟨copied, lifted, length, slots'⟩ := @lift_becomes _ start stop contents _ _
      (@replaceFromSelf_becomes _ contents (start + 1) (k + 1 + start - 1) start (by lia))
    obtain ⟨cleared, lifted', length', slots''⟩ := @lift_becomes _ start stop copied _ _
      (@atPut_becomes _ copied start first (by lia) none)
    have kept : Lists ⟨start + 1, stop, cleared⟩ (items.eraseIdx k) := by
      refine ⟨by simp only; lia, by simp only; lia, by simp only; lia, fun i => ?_⟩
      simp only [slots'', slots', slots, slot_eraseIdx]
      split_ifs
      all_goals first
        | exact (slot_outside (by lia)).symm
        | exact slot_congr (by lia)
        | exact slot_outside (by lia)
        | lia
    refine ⟨_, ?_, kept.restarted⟩
    simp only [removeIndex]
    rw [if_pos (by lia), if_pos front]
    simp only [lifted, Except.bind, lifted', Except.map]
  · obtain ⟨copied, lifted, length, slots'⟩ := @lift_becomes _ start stop contents _ _
      (@replaceFromSelf_becomes _ contents (k + 1 + start - 1) (stop - 1) (k + 1 + start - 1 + 1)
        (by lia))
    obtain ⟨cleared, lifted', length', slots''⟩ := @lift_becomes _ start stop copied _ _
      (@atPut_becomes _ copied stop (by lia) (by lia) none)
    have kept : Lists ⟨start, stop - 1, cleared⟩ (items.eraseIdx k) := by
      refine ⟨first, by simp only; lia, by simp only; lia, fun i => ?_⟩
      simp only [slots'', slots', slots, slot_eraseIdx]
      split_ifs
      all_goals first
        | exact (slot_outside (by lia)).symm
        | exact slot_congr (by lia)
        | exact slot_outside (by lia)
        | lia
    refine ⟨_, ?_, kept.restarted⟩
    simp only [removeIndex]
    rw [if_pos (by lia), if_neg front]
    simp only [lifted, Except.bind, lifted', Except.map]

/-- The elements that are kept move together, before those not looked at yet. -/
theorem keepUnless_lists (aBlock : Option α → Bool) (rest : List (Option α)) {index n : Int}
    (first : 1 ≤ n) (behind : n ≤ index) (inside : index + rest.length ≤ contents.length + 1)
    (reads : ∀ i : Int, 1 ≤ i → i ≤ rest.length → slot contents (index + i - 1) = slot rest i) :
    ∃ result : Contents α, keepUnless aBlock rest.length index n contents =
        .ok (result, n + (rest.filter (!aBlock ·)).length) ∧ result.length = contents.length ∧
      ∀ i, slot result i = if n ≤ i ∧ i < n + (rest.filter (!aBlock ·)).length then
        slot (rest.filter (!aBlock ·)) (i - n + 1) else slot contents i := by
  induction rest generalizing contents index n with
  | nil =>
    refine ⟨contents, by simp [keepUnless], rfl, fun i => ?_⟩
    rw [if_neg (by simp only [List.filter_nil, List.length_nil]; lia)]
  | cons element rest ih =>
    simp only [List.length_cons] at inside reads
    have found : contents.at index = some element := by
      have head := reads 1 (by lia) (by lia)
      rw [slot_cons, if_pos rfl] at head
      rw [at_eq (by lia) (by lia), ← head]
      exact congrArg _ (slot_congr (.inl (by lia)))
    have tail (i : Int) (low : 1 ≤ i) (high : i ≤ rest.length) :
        slot contents (index + 1 + i - 1) = slot rest i := by
      have next := reads (i + 1) (by lia) (by lia)
      rw [slot_cons, if_neg (by lia), show i + 1 - 1 = i by lia] at next
      rw [← next]
      exact slot_congr (.inl (by lia))
    cases dropped : aBlock element with
    | true =>
      obtain ⟨result, done, length, slots⟩ := ih first (by lia) (by lia) tail
      have same : (element :: rest).filter (!aBlock ·) = rest.filter (!aBlock ·) := by
        simp [dropped]
      rw [same]
      refine ⟨result, ?_, length, slots⟩
      simp only [List.length_cons, keepUnless, found, dropped, if_true, done]
    | false =>
      obtain ⟨stored, written, length, slots⟩ := @atPut_becomes _ contents n first (by lia) element
      beta_reduce at slots
      obtain ⟨result, done, length', slots'⟩ := @ih stored (index + 1) (n + 1) (by lia) (by lia)
        (by lia) (fun i low high => by rw [slots, if_neg (by lia), tail i low high])
      have same : (element :: rest).filter (!aBlock ·) = element :: rest.filter (!aBlock ·) := by
        simp [dropped]
      rw [same]
      refine ⟨result, ?_, length'.trans length, fun i => ?_⟩
      · simp only [List.length_cons, keepUnless, found, dropped, Bool.false_eq_true, if_false,
          written, Except.bind, done]
        congr 2
        lia
      · rw [slots', slots, slot_cons, List.length_cons]
        split_ifs
        all_goals lia

theorem removeAllSuchThat_lists (lists : Lists ⟨start, stop, contents⟩ items)
    (aBlock : Option α → Bool) :
    ∃ result, removeAllSuchThat ⟨start, stop, contents⟩ aBlock = .ok result ∧
      Lists result (items.filter (!aBlock ·)) := by
  have fewer : (items.filter (!aBlock ·)).length ≤ items.length := List.length_filter_le ..
  obtain ⟨first, last, inside, slots⟩ := lists
  simp only at first last inside slots
  obtain ⟨moved, done, length, slots'⟩ := @keepUnless_lists _ contents aBlock items start start first
    (Int.le_refl _) (by lia) (fun i low high => (slots _).trans (slot_congr (.inl (by lia))))
  obtain ⟨cleared, lifted, length', slots''⟩ := @lift_becomes _ start stop moved _ _
    (@replaceFromWithNil_becomes _ moved (start + (items.filter (!aBlock ·)).length) stop (by lia))
  have kept : Lists ⟨start, start + (items.filter (!aBlock ·)).length - 1, cleared⟩
      (items.filter (!aBlock ·)) := by
    refine ⟨first, by simp only; lia, by simp only; lia, fun i => ?_⟩
    simp only [slots'', slots', slots]
    split_ifs
    · exact (slot_outside (by lia)).symm
    · rfl
    · rw [slot_outside (by lia), slot_outside (by lia)]
  refine ⟨_, ?_, kept.restarted⟩
  simp only [removeAllSuchThat]
  rw [show (stop + 1 - start).toNat = items.length by lia, done]
  have lifted' : lift ⟨start, stop, contents⟩ (moved.replaceFromWithNil
      (start + (items.filter (!aBlock ·)).length) stop) = .ok ⟨start, stop, cleared⟩ := lifted
  simp only [lifted', Except.map]

end Effects

end Egg.Collection.OrderedCollection
