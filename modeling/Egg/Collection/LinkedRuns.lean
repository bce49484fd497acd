import Egg.Collection.LinkedCollection
import Egg.Data.Fuel

/-! Linked collections are lists that grow. -/
namespace Egg.Collection

open Egg.Data

/-- A list and the room there is for it. -/
structure Growing (α : Type) where
  elements : List (Option α)
  capacity : Nat

/-- How much room there is after an object was added: twice as much and the first size `m`. -/
def grown (m size capacity : Nat) : Nat := if size = capacity then 2 * capacity + m else capacity

/-- The error for an index: half of the room that came behind the first size is left out. -/
def Growing.outOfBounds {α : Type} (m : Nat) (self : Growing α) (anInteger : Int) : Int :=
  anInteger - ((self.capacity - m) / 2 : Nat)

/-- What is meant: a list, of which there are nils up to its capacity. -/
def Growing.perform {α : Type} (m : Nat) (self : Growing α) :
    Message α → Answer α × Growing α
  | .add anObject =>
    (.done, ⟨self.elements ++ [anObject], grown m self.elements.length self.capacity⟩)
  | .at anInteger =>
    (if 0 < anInteger ∧ anInteger ≤ self.capacity then
      .object (self.elements[(anInteger - 1).toNat]?.getD none)
    else .outOfBoundsIndex (self.outOfBounds m anInteger), self)
  | .atPut anInteger anObject =>
    if 0 < anInteger ∧ anInteger ≤ self.elements.length then
      (.done, { self with elements := self.elements.set (anInteger - 1).toNat anObject })
    else (.outOfBoundsIndex (self.outOfBounds m anInteger), self)
  | .size => (.size self.elements.length, self)
  | .do => (.elements self.elements, self)

def Growing.run {α : Type} (m : Nat) (self : Growing α) :
    List (Message α) → List (Answer α) × Growing α
  | [] => ([], self)
  | message :: messages =>
    let first := self.perform m message
    let rest := first.2.run m messages
    (first.1 :: rest.1, rest.2)

/-- The list that a collection stands for. -/
def LinkedCollection.growing {α : Type} (self : LinkedCollection α) : Growing α :=
  ⟨self.elements, self.capacity⟩

/-! ### Links in a chain -/

/-- A chain from a link with `m` slots on: links are full but for the last, which is nil behind
what is taken, and each is twice as long as the one before. -/
inductive Chained {α : Type} : (m : Nat) → LinkedCollection α → Prop where
  | last {slots : List (Option α)} {localSize : Nat} (some : 0 < slots.length)
      (inside : localSize ≤ slots.length) (free : ∀ i, localSize ≤ i → slots[i]?.getD none = none) :
      Chained slots.length (.last slots localSize)
  | link {slots : List (Option α)} {next : LinkedCollection α} (some : 0 < slots.length)
      (rest : Chained (slots.length * 2) next) : Chained slots.length (.link slots slots.length next)

namespace Chained

open LinkedCollection

variable {α : Type} {m : Nat} {self : LinkedCollection α}

theorem free_slots (m i : Nat) : (List.replicate m (none : Option α))[i]?.getD none = none := by
  rcases Nat.lt_or_ge i m with inside | outside
  · rw [List.getElem?_replicate, if_pos inside]
    rfl
  · rw [List.getElem?_eq_none (by rwa [List.length_replicate])]
    rfl

theorem ofSize (positive : 0 < m) : Chained m (LinkedCollection.ofSize m : LinkedCollection α) := by
  have chained : Chained (List.replicate m (none : Option α)).length
      (.last (List.replicate m none) 0) :=
    .last (by rwa [List.length_replicate]) (Nat.zero_le _) fun i _ => free_slots m i
  rwa [List.length_replicate] at chained

theorem size_eq (chained : Chained m self) : self.size = self.elements.length := by
  induction chained with
  | last some inside free =>
    rw [size, elements, List.length_take, Nat.min_eq_left inside]
  | link some rest inductionHypothesis =>
    rw [size, elements, List.length_append, List.take_length, inductionHypothesis]

theorem size_le (chained : Chained m self) : self.elements.length ≤ self.capacity := by
  induction chained with
  | last some inside free =>
    rw [elements, capacity]
    exact (List.length_take_le _ _).trans inside
  | link some rest inductionHypothesis =>
    rw [elements, capacity, List.length_append, List.take_length]
    lia

theorem elements_ofSize (m : Nat) : (LinkedCollection.ofSize m : LinkedCollection α).elements = [] :=
  rfl

theorem capacity_ofSize (m : Nat) : (LinkedCollection.ofSize m : LinkedCollection α).capacity = m :=
  List.length_replicate

/-- An object that is added to a link with a free slot. -/
theorem add_free {slots : List (Option α)} {localSize : Nat} (anObject : Option α)
    (inside : localSize < slots.length) (free : ∀ i, localSize ≤ i → slots[i]?.getD none = none) :
    Chained slots.length (.last (slots.set localSize anObject) (localSize + 1)) ∧
      elements (.last (slots.set localSize anObject) (localSize + 1)) =
        slots.take localSize ++ [anObject] := by
  have size : (slots.set localSize anObject).length = slots.length := List.length_set
  have chained : Chained (slots.set localSize anObject).length
      (.last (slots.set localSize anObject) (localSize + 1)) := by
    refine .last (by lia) (by lia) fun i later => ?_
    rw [List.getElem?_set_ne (by lia)]
    exact free i (by lia)
  rw [size] at chained
  refine ⟨chained, ?_⟩
  rw [elements, List.take_add_one, List.getElem?_set_self inside, Option.toList_some,
    List.take_set_of_le (Nat.le_refl _)]

/-- What is added comes last. -/
theorem add_spec (chained : Chained m self) (anObject : Option α) : ∃ after,
    Converges (fun fuel => self.add anObject fuel) after ∧ Chained m after ∧
      after.elements = self.elements ++ [anObject] ∧
      after.capacity = grown m self.elements.length self.capacity := by
  induction chained with
  | @last slots localSize some inside free =>
    by_cases full : localSize = slots.length
    · obtain ⟨chained, contents⟩ := @add_free α (List.replicate (slots.length * 2) none) 0 anObject
        (by rw [List.length_replicate]; lia) fun i _ => free_slots _ i
      rw [List.length_replicate] at chained
      refine ⟨.link slots slots.length
        (.last ((List.replicate (slots.length * 2) none).set 0 anObject) 1), ⟨2, fun fuel enough => ?_⟩,
        .link some chained, ?_, ?_⟩
      · obtain ⟨fuel, rfl⟩ := Nat.exists_eq_add_of_le' enough
        have empty : ¬ 0 = (List.replicate (slots.length * 2) (none : Option α)).length := by
          rw [List.length_replicate]
          lia
        simp only [add, full, if_true, LinkedCollection.ofSize, if_neg empty, Option.bind_eq_bind,
          Option.bind_some, Nat.zero_add]
      · have single : elements (.last ((List.replicate (slots.length * 2) none).set 0 anObject) 1) =
            [anObject] := contents
        simp only [elements] at single ⊢
        rw [single, full]
      · rw [capacity, capacity, capacity, List.length_set, List.length_replicate, elements,
          List.length_take, Nat.min_eq_left inside, grown, if_pos full]
        lia
    · have room := Nat.lt_of_le_of_ne inside full
      obtain ⟨chained, contents⟩ := add_free anObject room free
      refine ⟨_, ⟨1, fun fuel enough => ?_⟩, chained, contents, ?_⟩
      · obtain ⟨fuel, rfl⟩ := Nat.exists_eq_add_of_le' enough
        exact if_neg full
      · rw [capacity, List.length_set, elements, List.length_take, Nat.min_eq_left inside, grown,
          capacity, if_neg full]
  | @link slots next some rest inductionHypothesis =>
    obtain ⟨after, ⟨bound, adds⟩, chained, contents, room⟩ := inductionHypothesis
    refine ⟨.link slots slots.length after, ⟨bound + 1, fun fuel enough => ?_⟩, .link some chained,
      ?_, ?_⟩
    · obtain ⟨fuel, rfl⟩ := Nat.exists_eq_add_of_le' (Nat.one_le_of_lt enough)
      simp only [add, adds fuel (by lia), Option.bind_eq_bind, Option.bind_some]
    · rw [elements, contents, elements, List.append_assoc]
    · rw [capacity, room, capacity, elements, List.length_append, List.take_length, grown, grown]
      split_ifs <;> lia

/-- The links before the last one are half of what comes behind the first size. -/
theorem capacity_eq (chained : Chained m self) : ∃ before, self.capacity = m + 2 * before := by
  induction chained with
  | last some inside free => exact ⟨0, rfl⟩
  | @link slots next some rest inductionHypothesis =>
    obtain ⟨before, room⟩ := inductionHypothesis
    exact ⟨slots.length + before, by rw [capacity, room]; lia⟩

theorem at_spec (chained : Chained m self) (anInteger : Int) :
    self.at anInteger = (self.growing.perform m (.at anInteger)).1 := by
  induction chained generalizing anInteger with
  | @last slots localSize some inside free =>
    rw [LinkedCollection.at, Growing.perform, growing, Growing.outOfBounds, capacity, elements]
    by_cases within : 0 < anInteger ∧ anInteger ≤ slots.length
    · rw [if_pos within, if_pos within]
      by_cases taken : (anInteger - 1).toNat < localSize
      · rw [List.getElem?_take_of_lt taken]
      · rw [free _ (Nat.le_of_not_lt taken), List.getElem?_eq_none]
        · rfl
        · rw [List.length_take]
          lia
    · rw [if_neg within, if_neg within, Nat.sub_self]
      simp
  | @link slots next some rest inductionHypothesis =>
    obtain ⟨before, room⟩ := rest.capacity_eq
    rw [LinkedCollection.at, inductionHypothesis]
    simp only [Growing.perform, growing, Growing.outOfBounds, capacity, elements, List.take_length,
      room]
    by_cases within : 0 < anInteger ∧ anInteger ≤ slots.length
    · rw [if_pos within, if_pos (by lia), List.getElem?_append_left (by lia)]
    · rw [if_neg within]
      by_cases further : 0 < anInteger ∧ anInteger ≤ (slots.length + (slots.length * 2 +
        2 * before) : Nat)
      · rw [if_pos further, if_pos (by lia), List.getElem?_append_right (by lia)]
        congr 3
        lia
      · rw [if_neg further, if_neg (by lia)]
        congr 1
        lia

/-- What is put is what was there, but for one object. -/
theorem atPut_spec (chained : Chained m self) (anObject : Option α) (anInteger : Int) :
    (0 < anInteger ∧ anInteger ≤ self.elements.length ∧ ∃ after,
      self.atPut anObject anInteger = .ok after ∧ Chained m after ∧
        after.elements = self.elements.set (anInteger - 1).toNat anObject ∧
        after.capacity = self.capacity) ∨
      ¬ (0 < anInteger ∧ anInteger ≤ self.elements.length) ∧
        self.atPut anObject anInteger = .error (self.growing.outOfBounds m anInteger) := by
  induction chained generalizing anInteger with
  | @last slots localSize some inside free =>
    rw [elements, List.length_take, Nat.min_eq_left inside, atPut]
    by_cases within : 0 < anInteger ∧ anInteger ≤ localSize
    · rw [if_pos within]
      have size : (slots.set (anInteger - 1).toNat anObject).length = slots.length :=
        List.length_set
      have chained : Chained (slots.set (anInteger - 1).toNat anObject).length
          (.last (slots.set (anInteger - 1).toNat anObject) localSize) := by
        refine .last (by lia) (by lia) fun i later => ?_
        rw [List.getElem?_set_ne (by lia)]
        exact free i later
      rw [size] at chained
      exact .inl ⟨within.1, within.2, _, rfl, chained, List.take_set .., size⟩
    · rw [if_neg within]
      refine .inr ⟨within, ?_⟩
      rw [Growing.outOfBounds, growing, capacity, Nat.sub_self]
      simp
  | @link slots next some rest inductionHypothesis =>
    rw [elements, List.length_append, List.take_length, atPut]
    by_cases within : 0 < anInteger ∧ anInteger ≤ slots.length
    · rw [if_pos within]
      have size : (slots.set (anInteger - 1).toNat anObject).length = slots.length :=
        List.length_set
      have chained : Chained (slots.set (anInteger - 1).toNat anObject).length
          (.link (slots.set (anInteger - 1).toNat anObject)
            (slots.set (anInteger - 1).toNat anObject).length next) :=
        .link (by lia) (by rwa [size])
      rw [size] at chained
      refine .inl ⟨within.1, by lia, _, rfl, chained, ?_, ?_⟩
      · rw [elements, List.take_of_length_le (Nat.le_of_eq size), List.set_append_left _ _ (by lia)]
      · rw [capacity, capacity, size]
    · rw [if_neg within]
      obtain ⟨before, room⟩ := rest.capacity_eq
      rcases inductionHypothesis (anInteger - slots.length) with
        ⟨positive, bounded, after, put, chained, contents, same⟩ | ⟨outside, failed⟩
      · refine .inl ⟨by lia, by lia, .link slots slots.length after, by rw [put]; rfl,
          .link some chained, ?_, ?_⟩
        · rw [elements, contents, List.take_length, List.set_append_right _ _ (by lia)]
          congr 2
          lia
        · rw [capacity, capacity, same]
      · refine .inr ⟨fun inside => outside (by lia), ?_⟩
        rw [failed]
        refine congrArg Except.error ?_
        simp only [Growing.outOfBounds, growing, capacity, room]
        lia

/-- One message is answered as by the list. -/
theorem perform_spec (chained : Chained m self) (message : Message α) : ∃ answer after,
    Converges (fun fuel => self.perform fuel message) (answer, after) ∧ Chained m after ∧
      self.growing.perform m message = (answer, after.growing) := by
  cases message with
  | add anObject =>
    obtain ⟨after, adds, chained', contents, room⟩ := chained.add_spec anObject
    refine ⟨.done, after, adds.map fun after => (Answer.done, after), chained', ?_⟩
    rw [growing, growing, contents, room]
    rfl
  | «at» anInteger =>
    refine ⟨_, self, .pure _, chained, ?_⟩
    rw [chained.at_spec]
    rfl
  | atPut anInteger anObject =>
    rcases chained.atPut_spec anObject anInteger with
      ⟨positive, bounded, after, put, chained', contents, room⟩ | ⟨outside, failed⟩
    · refine ⟨.done, after, ⟨0, fun _ _ => by simp only [LinkedCollection.perform, put]⟩, chained', ?_⟩
      rw [Growing.perform, growing, if_pos ⟨positive, bounded⟩, growing, contents, room]
    · refine ⟨.outOfBoundsIndex (self.growing.outOfBounds m anInteger), self,
        ⟨0, fun _ _ => by simp only [LinkedCollection.perform, failed]⟩, chained, ?_⟩
      exact if_neg outside
  | size =>
    refine ⟨_, self, .pure _, chained, ?_⟩
    rw [chained.size_eq]
    rfl
  | «do» => exact ⟨_, self, .pure _, chained, rfl⟩

/-- All messages are answered as by the list. -/
theorem run_spec (chained : Chained m self) (messages : List (Message α)) : ∃ answers after,
    Converges (fun fuel => self.run fuel messages) (answers, after) ∧
      self.growing.run m messages = (answers, after.growing) := by
  induction messages generalizing self with
  | nil => exact ⟨[], self, .pure _, rfl⟩
  | cons message messages inductionHypothesis =>
    obtain ⟨answer, next, performs, chained', means⟩ := chained.perform_spec message
    obtain ⟨answers, after, runs, means'⟩ := inductionHypothesis chained'
    refine ⟨answer :: answers, after, ?_, ?_⟩
    · obtain ⟨bound, performs⟩ := performs
      obtain ⟨bound', runs⟩ := runs
      refine ⟨max bound bound', fun fuel enough => ?_⟩
      simp only [LinkedCollection.run, performs fuel (by lia), runs fuel (by lia),
        Option.bind_eq_bind, Option.bind_some]
    · rw [Growing.run, means]
      simp only [means']

end Chained

namespace LinkedCollection

variable {α : Type}

/-- A first link without slots is followed by others without slots. -/
theorem add_diverges (anObject : Option α) (fuel : Nat) : (ofSize 0).add anObject fuel = none := by
  induction fuel with
  | zero => rfl
  | succ fuel inductionHypothesis =>
    show ((ofSize 0).add anObject fuel).bind _ = none
    rw [inductionHypothesis]
    rfl

theorem run_diverges {anObject : Option α} {messages : List (Message α)}
    (adds : .add anObject ∈ messages) (fuel : Nat) : (ofSize 0).run fuel messages = none := by
  induction messages with
  | nil => cases adds
  | cons message messages inductionHypothesis =>
    by_cases here : ∃ anObject, message = .add anObject
    · obtain ⟨anObject, rfl⟩ := here
      simp only [run, perform, add_diverges, Option.map_none, Option.bind_eq_bind, Option.bind_none]
    · have later : .add anObject ∈ messages := by
        rcases List.mem_cons.mp adds with same | later
        · exact absurd ⟨anObject, same.symm⟩ here
        · exact later
      have stays : ∃ answer, (ofSize 0 : LinkedCollection α).perform fuel message =
          some (answer, ofSize 0) := by
        cases message with
        | add other => exact absurd ⟨other, rfl⟩ here
        | «at» anInteger => exact ⟨_, rfl⟩
        | atPut anInteger anObject =>
          have outside : ¬ (0 < anInteger ∧ anInteger ≤ ((0 : Nat) : Int)) := by lia
          refine ⟨.outOfBoundsIndex anInteger, ?_⟩
          rw [perform, ofSize, atPut, if_neg outside]
        | size => exact ⟨_, rfl⟩
        | «do» => exact ⟨_, rfl⟩
      obtain ⟨answer, performs⟩ := stays
      rw [run, performs]
      simp only [Option.bind_eq_bind, Option.bind_some, inductionHypothesis later, Option.bind_none]

/-- A collection is a list that grows, if it has slots at first; otherwise nothing is added. -/
theorem run_refines (anInteger : Nat) (messages : List (Message α)) :
    (0 < anInteger → ∃ answers after,
      Converges (fun fuel => (ofSize anInteger).run fuel messages) (answers, after) ∧
        Growing.run anInteger ⟨[], anInteger⟩ messages = (answers, after.growing)) ∧
      (anInteger = 0 → (∃ anObject, .add anObject ∈ messages) →
        ∀ fuel, (ofSize anInteger : LinkedCollection α).run fuel messages = none) := by
  constructor
  · intro positive
    obtain ⟨answers, after, runs, means⟩ := (Chained.ofSize positive).run_spec messages
    have start : (ofSize anInteger : LinkedCollection α).growing = ⟨[], anInteger⟩ := by
      rw [growing, Chained.elements_ofSize, Chained.capacity_ofSize]
    rw [start] at means
    exact ⟨answers, after, runs, means⟩
  · rintro rfl ⟨anObject, adds⟩ fuel
    exact run_diverges adds fuel

end LinkedCollection

end Egg.Collection
