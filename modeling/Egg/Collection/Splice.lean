import Egg.Collection.OrderedRuns

/-! When an ordered collection splices what replaces a range of its elements. -/
namespace Egg.Collection

open Egg.Data

variable {α : Type}

theorem slot_left_atPut {contents : Contents α} {index : Int} (anObject : Option α) :
    (left (contents.atPut index anObject)).length = contents.length ∧
      ∀ x, x ≠ index → slot (left (contents.atPut index anObject)) x = slot contents x := by
  rw [Contents.atPut]
  split_ifs with inside
  · refine ⟨List.length_set, fun x apart => ?_⟩
    rw [left, slot_set (by lia), if_neg (by lia)]
  · exact ⟨rfl, fun _ _ => rfl⟩

/-- What the first effect leaves and the next one keeps is left by both. -/
theorem left_bind {σ : Type} {P : σ → Prop} {effect : Effect σ} {next : σ → Effect σ}
    (first : P (left effect)) (rest : ∀ state, P state → P (left (next state))) :
    P (left (effect.bind next)) := by
  cases effect with
  | error state => exact first
  | ok state => exact rest state first

namespace Contents

section Moves

variable {read : Contents α → Int → Option (Option α)} {step i j : Int} {contents : Contents α}

theorem step_succ (i step : Int) (k : Nat) : i + step * (k + 1 : Nat) = i + step + step * k := by
  rw [Int.natCast_succ, Int.mul_add, Int.mul_one]
  lia

theorem step_zero (i step : Int) : i + step * (0 : Nat) = i := by
  rw [Int.natCast_zero, Int.mul_zero, Int.add_zero]

/-- A copy changes only the slots that it is for, however far it comes. -/
theorem left_replaceEach (count : Nat) :
    (left (replaceEach read step count i j contents)).length = contents.length ∧
      ∀ x, (∀ k : Nat, k < count → x ≠ i + step * k) →
        slot (left (replaceEach read step count i j contents)) x = slot contents x := by
  induction count generalizing i j contents with
  | zero => exact ⟨rfl, fun _ _ => rfl⟩
  | succ count ih =>
    rw [replaceEach]
    cases read contents j with
    | none => exact ⟨rfl, fun _ _ => rfl⟩
    | some element =>
      obtain ⟨length, apart⟩ := @slot_left_atPut _ contents i element
      simp only
      cases written : contents.atPut i element with
      | error kept =>
        rw [written] at length apart
        exact ⟨length, fun x outside => apart x (step_zero i step ▸ outside 0 (Nat.succ_pos count))⟩
      | ok stored =>
        rw [written] at length apart
        obtain ⟨length', apart'⟩ := @ih (i + step) (j + step) stored
        refine ⟨length'.trans length, fun x outside => (apart' x fun k within => ?_).trans
          (apart x (step_zero i step ▸ outside 0 (Nat.succ_pos count)))⟩
        exact step_succ i step k ▸ outside (k + 1) (by lia)

/-- Clearing changes only the slots that it is for. -/
theorem left_replaceWithNil (count : Nat) :
    (left (replaceWithNil count i contents)).length = contents.length ∧
      ∀ x, x < i ∨ i + count ≤ x →
        slot (left (replaceWithNil count i contents)) x = slot contents x := by
  induction count generalizing i contents with
  | zero => exact ⟨rfl, fun _ _ => rfl⟩
  | succ count ih =>
    obtain ⟨length, apart⟩ := @slot_left_atPut _ contents i none
    rw [replaceWithNil]
    cases written : contents.atPut i none with
    | error kept =>
      rw [written] at length apart
      exact ⟨length, fun x outside => apart x (by lia)⟩
    | ok stored =>
      rw [written] at length apart
      obtain ⟨length', apart'⟩ := @ih (i + 1) stored
      exact ⟨length'.trans length, fun x outside =>
        (apart' x (by lia)).trans (apart x (by lia))⟩

/-- The `k`-th element can be read, and has a slot to go to. -/
def Goes (read : Contents α → Int → Option (Option α)) (contents : Contents α) (step i j : Int)
    (k : Nat) : Prop :=
  (read contents (j + step * k)).isSome ∧ 1 ≤ i + step * k ∧ i + step * k ≤ contents.length

/-- Every slot that a copy comes to before its first error already holds what is copied there. -/
def Spares (read : Contents α → Int → Option (Option α)) (contents : Contents α) (step : Int)
    (count : Nat) (i j : Int) : Prop :=
  ∀ k : Nat, k < count → (∀ before : Nat, before ≤ k → Goes read contents step i j before) →
    read contents (j + step * k) = some (slot contents (i + step * k))

def Completes (read : Contents α → Int → Option (Option α)) (contents : Contents α) (step : Int)
    (count : Nat) (i j : Int) : Prop :=
  ∀ k : Nat, k < count → Goes read contents step i j k

theorem Goes.succ_iff {k : Nat} :
    Goes read contents step i j (k + 1) ↔ Goes read contents step (i + step) (j + step) k := by
  unfold Goes
  rw [step_succ, step_succ]

/-- A copy that spares the contents leaves them, and fails where it does not complete; another one
leaves other contents. -/
theorem replaceEach_spares (apart : step ≠ 0) (count : Nat) :
    (Spares read contents step count i j →
      (Completes read contents step count i j ∧
        replaceEach read step count i j contents = .ok contents) ∨
      (¬ Completes read contents step count i j ∧
        replaceEach read step count i j contents = .error contents)) ∧
    (¬ Spares read contents step count i j → ∃ k : Nat, k < count ∧
      slot (left (replaceEach read step count i j contents)) (i + step * k) ≠
        slot contents (i + step * k)) := by
  induction count generalizing i j with
  | zero =>
    have done : Completes read contents step 0 i j := fun k within => absurd within (Nat.not_lt_zero k)
    have spared : Spares read contents step 0 i j := fun k within => absurd within (Nat.not_lt_zero k)
    exact ⟨fun _ => .inl ⟨done, rfl⟩, fun spares => absurd spared spares⟩
  | succ count ih =>
    by_cases goes : Goes read contents step i j 0
    · obtain ⟨readable, low, high⟩ := goes
      rw [step_zero] at readable low high
      obtain ⟨element, found⟩ := Option.isSome_iff_exists.mp readable
      obtain ⟨stored, written, length, slots⟩ := @atPut_becomes _ contents i low high element
      beta_reduce at slots
      rw [replaceEach, found]
      simp only [written, Except.bind]
      by_cases same : element = slot contents i
      · obtain rfl : stored = contents := by
          refine ext_slots length fun x => ?_
          rw [slots]
          split_ifs with here
          · rw [here, same]
          · rfl
        have goes : Goes read stored step i j 0 := by
          refine ⟨?_, ?_, ?_⟩ <;> rw [step_zero] <;> assumption
        have spares : Spares read stored step (count + 1) i j ↔
            Spares read stored step count (i + step) (j + step) := by
          constructor
          · intro spares k within reached
            have next := spares (k + 1) (by lia) fun before most => by
              cases before with
              | zero => exact goes
              | succ before => exact Goes.succ_iff.mpr (reached before (by lia))
            rwa [step_succ, step_succ] at next
          · intro spares k within reached
            cases k with
            | zero => rw [step_zero, step_zero, found, same]
            | succ k =>
              have next := spares k (by lia) fun before most =>
                Goes.succ_iff.mp (reached (before + 1) (by lia))
              rwa [step_succ, step_succ]
        have completes : Completes read stored step (count + 1) i j ↔
            Completes read stored step count (i + step) (j + step) := by
          constructor
          · exact fun done k within => Goes.succ_iff.mp (done (k + 1) (by lia))
          · intro done k within
            cases k with
            | zero => exact goes
            | succ k => exact Goes.succ_iff.mpr (done k (by lia))
        rw [spares, completes]
        refine ⟨ih.1, fun changed => ?_⟩
        obtain ⟨k, within, other⟩ := ih.2 changed
        refine ⟨k + 1, by lia, ?_⟩
        rwa [step_succ]
      · refine ⟨fun spares => ?_, fun _ => ⟨0, Nat.succ_pos count, ?_⟩⟩
        · have first := spares 0 (Nat.succ_pos count) fun before most => by
            obtain rfl : before = 0 := by lia
            exact ⟨by rwa [step_zero], by rwa [step_zero], by rwa [step_zero]⟩
          rw [step_zero, step_zero, found] at first
          exact absurd (Option.some.inj first) same
        · rw [step_zero]
          have kept := (@left_replaceEach _ read step (i + step) (j + step) stored count).2 i
            fun k _ equal => by
              have zero : step * ((k + 1 : Nat) : Int) = 0 := by
                have next := step_succ i step k
                omega
              rcases Int.mul_eq_zero.mp zero with none | none
              · exact apart none
              · lia
          rw [kept, slots, if_pos rfl]
          exact same
    · have stuck : replaceEach read step (count + 1) i j contents = .error contents := by
        rw [replaceEach]
        unfold Goes at goes
        rw [step_zero, step_zero] at goes
        cases found : read contents j with
        | none => rfl
        | some element =>
          have outside : ¬ (1 ≤ i ∧ i ≤ contents.length) := fun inside =>
            goes ⟨by rw [found]; rfl, inside⟩
          simp only [atPut, if_neg outside, Except.bind]
      refine ⟨fun _ => .inr ⟨fun done => goes (done 0 (Nat.succ_pos count)), stuck⟩, fun spares => ?_⟩
      exact absurd (fun k within reached => absurd (reached 0 (Nat.zero_le k)) goes) spares

/-- A copy that ends well has written every slot that it is for. -/
theorem inside_of_replaceEach {count : Nat} {result : Contents α}
    (done : replaceEach read step count i j contents = .ok result) {k : Nat} (within : k < count) :
    1 ≤ i + step * k ∧ i + step * k ≤ contents.length := by
  induction count generalizing i j k contents with
  | zero => lia
  | succ count ih =>
    rw [replaceEach] at done
    cases found : read contents j with
    | none =>
      rw [found] at done
      cases done
    | some element =>
      rw [found] at done
      simp only [atPut] at done
      split_ifs at done with inside
      · cases k with
        | zero => rwa [step_zero]
        | succ k =>
          have rest := ih done (Nat.lt_of_succ_lt_succ within)
          rwa [step_succ, ← @List.length_set _ contents (i - 1).toNat element]
      · cases done

end Moves

end Contents

namespace OrderedCollection

open Contents

/-- The bounds are inside the contents. -/
structure Bounded (collection : OrderedCollection α) : Prop where
  first : 1 ≤ collection.start
  ordered : collection.start ≤ collection.stop + 1
  inside : collection.stop ≤ collection.contents.length

theorem length_elements {self : OrderedCollection α} (bounded : self.Bounded) :
    (self.elements.length : Int) = self.collectionSize := by
  obtain ⟨first, ordered, inside⟩ := bounded
  rw [elements, List.length_take, List.length_drop]
  unfold collectionSize
  lia

theorem slot_elements {self : OrderedCollection α} (bounded : self.Bounded) (k : Int) :
    slot self.elements k =
      if 1 ≤ k ∧ k ≤ self.collectionSize then slot self.contents (self.start + k - 1) else none := by
  obtain ⟨first, ordered, inside⟩ := bounded
  rw [elements, slot_take, slot_drop]
  have size : self.collectionSize = self.stop - self.start + 1 := rfl
  split_ifs
  all_goals first
    | lia
    | rfl
    | exact slot_congr (.inl (by lia))

theorem elements_eq_of_slots {self : OrderedCollection α} {items : List (Option α)}
    (bounded : self.Bounded) (size : self.collectionSize = items.length)
    (slots : ∀ k, 1 ≤ k → k ≤ self.collectionSize →
      slot self.contents (self.start + k - 1) = slot items k) : self.elements = items := by
  have length := length_elements bounded
  refine ext_slots (by lia) fun k => ?_
  rw [slot_elements bounded]
  split_ifs with inside
  · exact slots k inside.1 inside.2
  · exact (slot_outside (by lia)).symm

end OrderedCollection

/-- The elements that a receiver is given. -/
def Argument.elements (argument : Argument α) (self : OrderedCollection α) : List (Option α) :=
  match argument with
  | receiver => self.elements
  | other elements => elements

theorem Argument.length_elements (argument : Argument α) {self : OrderedCollection α}
    (bounded : self.Bounded) : ((argument.elements self).length : Int) = argument.size self := by
  cases argument with
  | receiver => exact OrderedCollection.length_elements bounded
  | other elements => rfl

namespace OrderedCollection

open Contents

section Blocks

variable {start stop : Int} {contents : Contents α} {first last position : Int}

/-- A block that is moved inside the collection, whose window is opened to the end. -/
theorem moved_receiver (low : 1 ≤ start) (window : first ≤ last → 1 ≤ first ∧
    start + last - 1 ≤ contents.length ∧ 1 ≤ position ∧
    start + (position + last - first) - 1 ≤ contents.length) :
    ∃ result, replaceFromStartingAt ⟨start, contents.length, contents⟩ first last .receiver
        position = .ok ⟨start, contents.length, result⟩ ∧ result.length = contents.length ∧
      ∀ x, slot result x = if start + first - 1 ≤ x ∧ x ≤ start + last - 1 then
        slot contents (x - first + position) else slot contents x := by
  by_cases empty : last < first
  · exact ⟨contents, if_pos empty, rfl, fun x => (if_neg (by lia)).symm⟩
  · obtain ⟨least, most, least', most'⟩ := window (by lia)
    have reads (copied : Contents α) (length : copied.length = contents.length) {j : Int}
        (least : 1 ≤ j) (most : start + j - 1 ≤ contents.length)
        (kept : slot copied (start + j - 1) = slot contents (start + j - 1)) :
        Argument.receiver.read ⟨start, contents.length, contents⟩ copied j =
          some (slot contents (start + j - 1)) := by
      simp only [Argument.read, OrderedCollection.at]
      rw [if_pos (by lia), at_eq (by lia) (by lia), ← kept]
      exact congrArg _ (slot_congr (.inl (by lia)))
    rw [replaceFromStartingAt, if_neg empty]
    by_cases upwards : position ≤ first ∧ first ≤ position + last - first
    · obtain ⟨result, lifted, length, slots⟩ := @lift_becomes _ start contents.length contents _ _
        (@replaceEach_becomes _ contents (Argument.receiver.read ⟨start, contents.length, contents⟩)
          (fun j => slot contents (start + j - 1)) (-1) (.inr rfl)
          (start + last - 1 + 1 - (start + first - 1)).toNat (start + last - 1)
          (position + last - first) (by lia) (by
            intro k few copied same kept
            exact reads copied same (by lia) (by lia) (kept _ (by lia))))
      refine ⟨result, ?_, length, fun x => ?_⟩
      · simp only [Argument.isReceiver, true_and, if_pos upwards, replaceBackwardFrom]
        exact lifted
      · rw [slots]
        split_ifs
        all_goals lia
    · obtain ⟨result, lifted, length, slots⟩ := @lift_becomes _ start contents.length contents _ _
        (@replaceEach_becomes _ contents (Argument.receiver.read ⟨start, contents.length, contents⟩)
          (fun j => slot contents (start + j - 1)) 1 (.inl rfl)
          (start + last - 1 + 1 - (start + first - 1)).toNat (start + first - 1) position (by lia)
          (by
            intro k few copied same kept
            exact reads copied same (by lia) (by lia) (kept _ (by lia))))
      refine ⟨result, ?_, length, fun x => ?_⟩
      · simp only [Argument.isReceiver, true_and, if_neg upwards, replaceForwardFrom]
        exact lifted
      · rw [slots]
        split_ifs
        all_goals lia

/-- A block of other elements. -/
theorem moved_other {elements : List (Option α)} (low : 1 ≤ start) (window : first ≤ last →
    1 ≤ first ∧ start + last - 1 ≤ contents.length ∧ last - first < elements.length) :
    ∃ result, replaceFromStartingAt ⟨start, contents.length, contents⟩ first last
        (.other elements) 1 = .ok ⟨start, contents.length, result⟩ ∧
      result.length = contents.length ∧
      ∀ x, slot result x = if start + first - 1 ≤ x ∧ x ≤ start + last - 1 then
        slot elements (x - (start + first - 1) + 1) else slot contents x := by
  by_cases empty : last < first
  · exact ⟨contents, if_pos empty, rfl, fun x => (if_neg (by lia)).symm⟩
  · obtain ⟨least, most, enough⟩ := window (by lia)
    obtain ⟨result, lifted, length, slots⟩ := @lift_becomes _ start contents.length contents _ _
      (@replaceEach_becomes _ contents (readOf elements) (slot elements) 1 (.inl rfl)
        (start + last - 1 + 1 - (start + first - 1)).toNat (start + first - 1) 1 (by lia) (by
          intro k few copied _ _
          exact at_eq (by lia) (by lia)))
    refine ⟨result, ?_, length, fun x => ?_⟩
    · rw [replaceFromStartingAt, if_neg empty]
      simp only [Argument.isReceiver, Bool.false_eq_true, false_and, if_false, replaceForwardFrom]
      exact lifted
    · rw [slots]
      split_ifs
      all_goals lia

/-- A block move that ends well has written all its slots, which are inside the contents. -/
theorem inside_of_move {self result : OrderedCollection α} {aCollection : Argument α}
    (done : self.replaceFromStartingAt first last aCollection position = .ok result)
    (some : first ≤ last) :
    1 ≤ self.start + first - 1 ∧ self.start + last - 1 ≤ self.contents.length ∧
      result.start = self.start ∧ result.contents.length = self.contents.length := by
  rw [replaceFromStartingAt, if_neg (by lia)] at done
  simp only at done
  split_ifs at done
  · cases copied : self.contents.replaceBackwardFrom (self.start + last - 1)
      (self.start + first - 1) (aCollection.read self) (position + last - first) with
    | error kept =>
      rw [copied] at done
      cases done
    | ok stored =>
      rw [copied] at done
      cases done
      rw [replaceBackwardFrom] at copied
      have top := @inside_of_replaceEach _ _ _ _ _ _ _ _ copied 0 (by lia)
      have bottom := @inside_of_replaceEach _ _ _ _ _ _ _ _ copied (last - first).toNat (by lia)
      have length := (@left_replaceEach _ (aCollection.read self) (-1) (self.start + last - 1)
        (position + last - first) self.contents
        (self.start + last - 1 + 1 - (self.start + first - 1)).toNat).1
      rw [copied] at length
      exact ⟨by lia, by lia, rfl, length⟩
  · cases copied : self.contents.replaceForwardFrom (self.start + first - 1)
      (self.start + last - 1) (aCollection.read self) position with
    | error kept =>
      rw [copied] at done
      cases done
    | ok stored =>
      rw [copied] at done
      cases done
      rw [replaceForwardFrom] at copied
      have bottom := @inside_of_replaceEach _ _ _ _ _ _ _ _ copied 0 (by lia)
      have top := @inside_of_replaceEach _ _ _ _ _ _ _ _ copied (last - first).toNat (by lia)
      have length := (@left_replaceEach _ (aCollection.read self) 1 (self.start + first - 1)
        position self.contents (self.start + last - 1 + 1 - (self.start + first - 1)).toNat).1
      rw [copied] at length
      exact ⟨by lia, by lia, rfl, length⟩

end Blocks

section Ranges

variable {self : OrderedCollection α} {firstIndex lastIndex : Int} {aCollection : Argument α}

/-- The ranges of a list with one empty range in front of each element and one behind all. -/
def ValidRange (self : OrderedCollection α) (firstIndex lastIndex : Int) : Prop :=
  1 ≤ firstIndex ∧ firstIndex ≤ lastIndex + 1 ∧ lastIndex ≤ self.collectionSize

instance : Decidable (self.ValidRange firstIndex lastIndex) :=
  inferInstanceAs (Decidable (_ ∧ _ ∧ _))

/-- The size that a replaced range leaves. -/
def splicedSize (self : OrderedCollection α) (firstIndex lastIndex : Int)
    (aCollection : Argument α) : Int :=
  self.collectionSize - (lastIndex - firstIndex + 1) + aCollection.size self

/-- The length of the contents once they were grown for so many elements. -/
def roomFor (self : OrderedCollection α) (n : Int) : Int :=
  if self.contents.length < n then n / 2 + n else self.contents.length

/-- The block copies of `replaceFrom:to:with:`, with the window opened to the end. -/
def replaced (opened : OrderedCollection α) (firstIndex lastIndex m n e : Int)
    (aCollection : Argument α) : Effect (OrderedCollection α) :=
  (opened.replaceFromStartingAt (firstIndex + m) n .receiver (lastIndex + 1)).bind fun self =>
    (self.replaceFromStartingAt firstIndex (firstIndex + m - 1) aCollection 1).bind fun self =>
      let self := { self with stop := self.start + n - 1 }
      self.lift (self.contents.replaceFromWithNil
        (e + m - (lastIndex - firstIndex + 1) + 1) e)

/-- Growing keeps the elements at their indices. -/
theorem replaceFromToWith_eq (bounded : self.Bounded) :
    ∃ contents, self.replaceFromToWith firstIndex lastIndex aCollection =
        replaced ⟨self.start, contents.length, contents⟩ firstIndex lastIndex
          (aCollection.size self) (self.splicedSize firstIndex lastIndex aCollection) self.stop
          aCollection ∧
      (contents.length : Int) =
        self.roomFor (self.splicedSize firstIndex lastIndex aCollection) ∧
      (∀ x, self.start ≤ x → x ≤ self.stop → slot contents x = slot self.contents x) ∧
      (self.splicedSize firstIndex lastIndex aCollection ≤ self.contents.length →
        contents = self.contents) := by
  obtain ⟨first, ordered, inside⟩ := bounded
  have grown : (if self.contents.length < self.splicedSize firstIndex lastIndex aCollection then
      self.growTo (self.splicedSize firstIndex lastIndex aCollection / 2 +
        self.splicedSize firstIndex lastIndex aCollection) else .ok self).bind
      (fun self' => replaced { self' with stop := self'.contents.length } firstIndex lastIndex
        (aCollection.size self) (self.splicedSize firstIndex lastIndex aCollection) self'.stop
        aCollection) = self.replaceFromToWith firstIndex lastIndex aCollection := rfl
  generalize size : self.splicedSize firstIndex lastIndex aCollection = n at grown ⊢
  by_cases short : (self.contents.length : Int) < n
  · obtain ⟨copy, copied, length, slots⟩ := @replaceFromOther_becomes _
      (List.replicate (n / 2 + n).toNat none) self.start self.stop self.start
      (fun _ j => self.contents.at j) (slot self.contents)
      (by simp only [List.length_replicate]; lia)
      (by
        intro j low high _ _ _
        exact at_eq (by lia) (by lia))
    rw [List.length_replicate] at length
    have succeeded : self.growTo (n / 2 + n) = .ok ⟨self.start, self.stop, copy⟩ := by
      rw [growTo, copied]
    rw [if_pos short, succeeded] at grown
    refine ⟨copy, grown.symm, ?_, fun x low high => ?_, fun fits => absurd fits (by lia)⟩
    · rw [roomFor, if_pos short]
      lia
    · rw [slots]
      beta_reduce
      rw [if_pos ⟨low, high⟩]
      exact slot_congr (.inl (by lia))
  · rw [if_neg short] at grown
    refine ⟨self.contents, grown.symm, ?_, fun _ _ _ => rfl, fun _ => rfl⟩
    rw [roomFor, if_neg short]

/-- The elements that are to be there end inside the contents. -/
def SpliceFits (self : OrderedCollection α) (firstIndex lastIndex : Int)
    (aCollection : Argument α) : Prop :=
  self.start + self.splicedSize firstIndex lastIndex aCollection - 1 ≤
    self.roomFor (self.splicedSize firstIndex lastIndex aCollection)

instance : Decidable (self.SpliceFits firstIndex lastIndex aCollection) :=
  inferInstanceAs (Decidable (_ ≤ _))

/-- With the room, the elements between the others are the new ones. -/
theorem replaced_of_fits (bounded : self.Bounded) (valid : self.ValidRange firstIndex lastIndex)
    (fits : self.SpliceFits firstIndex lastIndex aCollection) :
    ∃ result, self.replaceFromToWith firstIndex lastIndex aCollection = .ok result ∧
      result.Bounded ∧ result.elements = self.elements.take (firstIndex - 1).toNat ++
        aCollection.elements self ++ self.elements.drop lastIndex.toNat := by
  obtain ⟨contents, opened, length, kept, -⟩ := @replaceFromToWith_eq _ _ firstIndex lastIndex
    aCollection bounded
  obtain ⟨low, ordered, high⟩ := valid
  obtain ⟨first, last, inside⟩ := bounded
  have added := aCollection.length_elements ⟨first, last, inside⟩
  have before := length_elements ⟨first, last, inside⟩
  rw [SpliceFits, ← length] at fits
  have room : self.stop ≤ contents.length := by
    rw [length, roomFor]
    split_ifs <;> lia
  unfold splicedSize at opened fits
  generalize count : aCollection.size self = m at opened fits added
  have size : self.collectionSize = self.stop - self.start + 1 := rfl
  obtain ⟨tail, moved, length', slots'⟩ := @moved_receiver _ self.start contents
    (firstIndex + m) (self.collectionSize - (lastIndex - firstIndex + 1) + m) (lastIndex + 1) first
    (by lia)
  obtain ⟨spliced, copied, length'', slots''⟩ : ∃ spliced,
      replaceFromStartingAt ⟨self.start, contents.length, tail⟩ firstIndex (firstIndex + m - 1)
        aCollection 1 = .ok ⟨self.start, contents.length, spliced⟩ ∧
      spliced.length = contents.length ∧
      ∀ x, slot spliced x = if self.start + firstIndex - 1 ≤ x ∧
        x ≤ self.start + (firstIndex + m - 1) - 1 then
        slot (aCollection.elements self) (x - (self.start + firstIndex - 1) + 1)
        else slot tail x := by
    cases aCollection with
    | receiver =>
      have all : m = self.collectionSize := count.symm
      obtain ⟨spliced, copied, same, slots⟩ := @moved_receiver _ self.start tail firstIndex
        (firstIndex + m - 1) 1 first (by lia)
      rw [length'] at copied
      refine ⟨spliced, copied, same.trans length', fun x => ?_⟩
      rw [slots]
      split_ifs with here
      · have reads : slot (Argument.receiver.elements self) (x - (self.start + firstIndex - 1) + 1) =
            slot self.contents (x - firstIndex + 1) := by
          rw [Argument.elements, slot_elements ⟨first, last, inside⟩, if_pos (by lia)]
          exact slot_congr (.inl (by lia))
        rw [reads, slots', if_neg (by lia), kept _ (by lia) (by lia)]
      · rfl
    | other elements =>
      obtain ⟨spliced, copied, same, slots⟩ := @moved_other _ self.start tail firstIndex
        (firstIndex + m - 1) elements first (fun _ => by
          change (elements.length : Int) = m at added
          lia)
      rw [length'] at copied
      exact ⟨spliced, copied, same.trans length', slots⟩
  obtain ⟨result, cleared, length, slots⟩ := @lift_becomes _ self.start
    (self.start + (self.collectionSize - (lastIndex - firstIndex + 1) + m) - 1) spliced _ _
    (@replaceFromWithNil_becomes _ spliced
      (self.stop + m - (lastIndex - firstIndex + 1) + 1) self.stop (by lia))
  obtain ⟨n, splicedSize⟩ :
      ∃ n, n = self.collectionSize - (lastIndex - firstIndex + 1) + m := ⟨_, rfl⟩
  rw [← splicedSize] at opened moved cleared
  have within : Bounded ⟨self.start, self.start + n - 1, result⟩ :=
    ⟨first, by simp only; lia, by simp only; lia⟩
  refine ⟨_, ?_, within, elements_eq_of_slots within ?_ fun k least most => ?_⟩
  · rw [opened, replaced, moved]
    simp only [Except.bind, copied]
    exact cleared
  · simp only [collectionSize, List.length_append, List.length_take, List.length_drop] at before ⊢
    lia
  · simp only [collectionSize] at most
    change slot result (self.start + k - 1) = _
    rw [slots, if_neg (by lia), slots'', slots']
    by_cases inFront : k < firstIndex
    · rw [if_neg (by lia), if_neg (by lia), kept _ (by lia) (by lia), slot_append,
        if_pos (by rw [List.length_append, List.length_take]; lia), slot_append,
        if_pos (by rw [List.length_take]; lia), slot_take, if_pos (by lia),
        slot_elements ⟨first, last, inside⟩, if_pos (by lia)]
    · by_cases inside' : k < firstIndex + m
      · rw [if_pos (by lia), slot_append,
          if_pos (by rw [List.length_append, List.length_take]; lia), slot_append,
          if_neg (by rw [List.length_take]; lia), List.length_take]
        exact slot_congr (.inl (by lia))
      · rw [if_neg (by lia), if_pos (by lia), kept _ (by lia) (by lia), slot_append,
          if_neg (by rw [List.length_append, List.length_take]; lia), List.length_append,
          List.length_take, slot_drop, if_pos (by lia), slot_elements ⟨first, last, inside⟩,
          if_pos (by lia)]
        exact slot_congr (.inl (by lia))

/-- Without the room, the last slot that is to be written is missing. -/
theorem fits_of_replaced {result : OrderedCollection α} (bounded : self.Bounded)
    (valid : self.ValidRange firstIndex lastIndex)
    (done : self.replaceFromToWith firstIndex lastIndex aCollection = .ok result) :
    self.SpliceFits firstIndex lastIndex aCollection := by
  obtain ⟨contents, opened, length, -, -⟩ := @replaceFromToWith_eq _ _ firstIndex lastIndex
    aCollection bounded
  obtain ⟨low, ordered, high⟩ := valid
  have added := aCollection.length_elements bounded
  obtain ⟨first, last, inside⟩ := bounded
  have size : self.collectionSize = self.stop - self.start + 1 := rfl
  have room : self.stop ≤ self.roomFor (self.splicedSize firstIndex lastIndex aCollection) := by
    rw [roomFor]
    split_ifs <;> lia
  rw [SpliceFits]
  generalize named : self.splicedSize firstIndex lastIndex aCollection = n at opened length room ⊢
  rw [splicedSize] at named
  rw [opened, replaced] at done
  cases moved : replaceFromStartingAt ⟨self.start, contents.length, contents⟩
      (firstIndex + aCollection.size self) n .receiver (lastIndex + 1) with
  | error kept =>
    rw [moved] at done
    cases done
  | ok tail =>
    rw [moved] at done
    by_cases behind : lastIndex < self.collectionSize
    · obtain ⟨-, most, -⟩ := inside_of_move moved (by lia)
      simp only at most
      lia
    · cases copied : tail.replaceFromStartingAt firstIndex
          (firstIndex + aCollection.size self - 1) aCollection 1 with
      | error kept =>
        simp only [Except.bind, copied] at done
        cases done
      | ok spliced =>
        have same : tail = ⟨self.start, contents.length, contents⟩ := by
          rw [replaceFromStartingAt, if_pos (by lia)] at moved
          exact (Except.ok.inj moved).symm
        by_cases none : aCollection.size self = 0
        · lia
        · obtain ⟨-, most, -⟩ := inside_of_move copied (by lia)
          rw [same] at most
          simp only at most
          lia

/-- A block copy comes only to slots that already hold what it writes. -/
def MoveSpares (self : OrderedCollection α) (first last : Int) (aCollection : Argument α)
    (position : Int) : Prop :=
  first ≤ last →
    if aCollection.isReceiver ∧ position ≤ first ∧ first ≤ position + last - first then
      Spares (aCollection.read self) self.contents (-1) (last + 1 - first).toNat
        (self.start + last - 1) (position + last - first)
    else
      Spares (aCollection.read self) self.contents 1 (last + 1 - first).toNat
        (self.start + first - 1) position

/-- A block copy has all the slots that it reads and writes. -/
def MoveCompletes (self : OrderedCollection α) (first last : Int) (aCollection : Argument α)
    (position : Int) : Prop :=
  first ≤ last →
    if aCollection.isReceiver ∧ position ≤ first ∧ first ≤ position + last - first then
      Completes (aCollection.read self) self.contents (-1) (last + 1 - first).toNat
        (self.start + last - 1) (position + last - first)
    else
      Completes (aCollection.read self) self.contents 1 (last + 1 - first).toNat
        (self.start + first - 1) position

theorem move_spares {first last position : Int} :
    (self.MoveSpares first last aCollection position →
      (self.MoveCompletes first last aCollection position ∧
        self.replaceFromStartingAt first last aCollection position = .ok self) ∨
      (¬ self.MoveCompletes first last aCollection position ∧
        self.replaceFromStartingAt first last aCollection position = .error self)) ∧
    (¬ self.MoveSpares first last aCollection position → ∃ x,
      self.start + first - 1 ≤ x ∧ x ≤ self.start + last - 1 ∧
      slot (left (self.replaceFromStartingAt first last aCollection position)).contents x ≠
        slot self.contents x) := by
  by_cases empty : last < first
  · refine ⟨fun _ => .inl ⟨fun some => absurd some (by lia), if_pos empty⟩, fun changed => ?_⟩
    exact absurd (fun some => absurd some (by lia)) changed
  · have some : first ≤ last := by lia
    have count : (self.start + last - 1 + 1 - (self.start + first - 1)).toNat =
        (last + 1 - first).toNat := by lia
    have lifted (effect : Effect (Contents α)) :
        (effect = .ok self.contents → self.lift effect = .ok self) ∧
        (effect = .error self.contents → self.lift effect = .error self) ∧
        (left (self.lift effect)).contents = left effect := by
      refine ⟨?_, ?_, ?_⟩
      · rintro rfl
        rfl
      · rintro rfl
        rfl
      · cases effect <;> rfl
    unfold MoveSpares MoveCompletes
    simp only [some, true_implies]
    rw [replaceFromStartingAt, if_neg empty]
    simp only
    split_ifs with upwards
    · obtain ⟨spares, changes⟩ := @replaceEach_spares _ (aCollection.read self) (-1)
        (self.start + last - 1) (position + last - first) self.contents (by lia)
        (last + 1 - first).toNat
      rw [replaceBackwardFrom, count]
      refine ⟨fun spared => (spares spared).imp (.imp_right (lifted _).1)
        (.imp_right (lifted _).2.1), fun changed => ?_⟩
      obtain ⟨k, within, other⟩ := changes changed
      refine ⟨self.start + last - 1 + -1 * k, by lia, by lia, ?_⟩
      rwa [(lifted _).2.2]
    · obtain ⟨spares, changes⟩ := @replaceEach_spares _ (aCollection.read self) 1
        (self.start + first - 1) position self.contents (by lia) (last + 1 - first).toNat
      rw [replaceForwardFrom, count]
      refine ⟨fun spared => (spares spared).imp (.imp_right (lifted _).1)
        (.imp_right (lifted _).2.1), fun changed => ?_⟩
      obtain ⟨k, within, other⟩ := changes changed
      refine ⟨self.start + first - 1 + 1 * k, by lia, by lia, ?_⟩
      rwa [(lifted _).2.2]

/-- A block copy leaves the window and the slots outside of the block. -/
theorem left_move {first last position : Int} :
    (left (self.replaceFromStartingAt first last aCollection position)).start = self.start ∧
    (left (self.replaceFromStartingAt first last aCollection position)).stop = self.stop ∧
    (left (self.replaceFromStartingAt first last aCollection position)).contents.length =
      self.contents.length ∧
    ∀ x, x < self.start + first - 1 ∨ self.start + last - 1 < x →
      slot (left (self.replaceFromStartingAt first last aCollection position)).contents x =
        slot self.contents x := by
  by_cases empty : last < first
  · rw [replaceFromStartingAt, if_pos empty]
    exact ⟨rfl, rfl, rfl, fun _ _ => rfl⟩
  · have lifted (effect : Effect (Contents α)) : left (self.lift effect) =
        ⟨self.start, self.stop, left effect⟩ := by
      cases effect <;> rfl
    rw [replaceFromStartingAt, if_neg empty]
    simp only [lifted, true_and]
    split_ifs with upwards
    · obtain ⟨length, kept⟩ := @left_replaceEach _ (aCollection.read self) (-1)
        (self.start + last - 1) (position + last - first) self.contents
        (self.start + last - 1 + 1 - (self.start + first - 1)).toNat
      exact ⟨length, fun x outside => kept x (by lia)⟩
    · obtain ⟨length, kept⟩ := @left_replaceEach _ (aCollection.read self) 1
        (self.start + first - 1) position self.contents
        (self.start + last - 1 + 1 - (self.start + first - 1)).toNat
      exact ⟨length, fun x outside => kept x (by lia)⟩

/-- What is left of the contents after a first block copy, whether or not one ends in an error. -/
structure Kept (opened : OrderedCollection α) (low high : Int) (moved : Contents α)
    (state : OrderedCollection α) : Prop where
  start : state.start = opened.start
  length : state.contents.length = opened.contents.length
  slots : ∀ x, low ≤ x → x ≤ high → slot state.contents x = slot moved x

/-- Neither the second copy nor the clearing comes to what the first copy wrote. -/
theorem left_replaced {opened : OrderedCollection α} {m n e : Int}
    (ends : e + m - (lastIndex - firstIndex + 1) + 1 = opened.start + n) :
    Kept opened (opened.start + (firstIndex + m) - 1) (opened.start + n - 1)
      (left (opened.replaceFromStartingAt (firstIndex + m) n .receiver (lastIndex + 1))).contents
      (left (replaced opened firstIndex lastIndex m n e aCollection)) := by
  refine left_bind ?_ fun state kept => left_bind ?_ fun state kept => ?_
  · obtain ⟨start, -, length, -⟩ := @left_move _ opened .receiver (firstIndex + m) n (lastIndex + 1)
    exact ⟨start, length, fun _ _ _ => rfl⟩
  · obtain ⟨start, -, length, slots⟩ := @left_move _ state aCollection firstIndex
      (firstIndex + m - 1) 1
    rw [kept.start] at slots start
    exact ⟨start, length.trans kept.length, fun x low high =>
      (slots x (by lia)).trans (kept.slots x low high)⟩
  · obtain ⟨length, slots⟩ := @left_replaceWithNil _ (e + m - (lastIndex - firstIndex + 1) + 1)
      state.contents (e + 1 - (e + m - (lastIndex - firstIndex + 1) + 1)).toNat
    simp only
    rw [replaceFromWithNil]
    cases cleared : replaceWithNil (e + 1 - (e + m - (lastIndex - firstIndex + 1) + 1)).toNat
        (e + m - (lastIndex - firstIndex + 1) + 1) state.contents with
    | ok contents =>
      rw [cleared] at length slots
      exact ⟨kept.start, length.trans kept.length, fun x low high =>
        (slots x (by lia)).trans (kept.slots x low high)⟩
    | error contents =>
      rw [cleared] at length slots
      exact ⟨kept.start, length.trans kept.length, fun x low high =>
        (slots x (by lia)).trans (kept.slots x low high)⟩

/-- A replacement that nothing shows: there is room, each block copy comes only to slots that
already hold what it writes, and the end of the window is where it was. -/
def Harmless (self : OrderedCollection α) (firstIndex lastIndex : Int)
    (aCollection : Argument α) : Prop :=
  let opened : OrderedCollection α := { self with stop := self.contents.length }
  let m := aCollection.size self
  let n := self.splicedSize firstIndex lastIndex aCollection
  n ≤ self.contents.length ∧
  opened.MoveSpares (firstIndex + m) n .receiver (lastIndex + 1) ∧
  (opened.MoveCompletes (firstIndex + m) n .receiver (lastIndex + 1) →
    opened.MoveSpares firstIndex (firstIndex + m - 1) aCollection 1 ∧
    (opened.MoveCompletes firstIndex (firstIndex + m - 1) aCollection 1 →
      m = lastIndex - firstIndex + 1)) ∧
  (¬ opened.MoveCompletes (firstIndex + m) n .receiver (lastIndex + 1) ∨
    ¬ opened.MoveCompletes firstIndex (firstIndex + m - 1) aCollection 1 →
      self.stop = self.contents.length)

theorem left_lift_stop (effect : Effect (Contents α)) : (left (self.lift effect)).stop = self.stop := by
  cases effect <;> rfl

theorem replaceFromWithNil_of_lt {contents : Contents α} {start stop : Int} (empty : stop < start) :
    contents.replaceFromWithNil start stop = .ok contents := by
  rw [replaceFromWithNil, show (stop + 1 - start).toNat = 0 by lia]
  rfl

theorem left_replaceFromToWith (bounded : self.Bounded) :
    left (self.replaceFromToWith firstIndex lastIndex aCollection) = self ↔
      self.Harmless firstIndex lastIndex aCollection := by
  obtain ⟨contents, opened, length, -, unchanged⟩ := @replaceFromToWith_eq _ _ firstIndex lastIndex
    aCollection bounded
  rw [opened]
  have size : self.collectionSize = self.stop - self.start + 1 := rfl
  have named : self.splicedSize firstIndex lastIndex aCollection =
    self.collectionSize - (lastIndex - firstIndex + 1) + aCollection.size self := rfl
  unfold Harmless
  simp only
  generalize self.splicedSize firstIndex lastIndex aCollection = n at length unchanged named ⊢
  generalize aCollection.size self = m at length named ⊢
  have kept := @left_replaced _ firstIndex lastIndex aCollection
    ⟨self.start, contents.length, contents⟩ m n self.stop (by simp only; lia)
  by_cases room : n ≤ self.contents.length
  swap
  · refine ⟨fun same => ?_, fun harmless => absurd harmless.1 room⟩
    have grown := kept.length
    rw [same] at grown
    simp only at grown
    rw [roomFor, if_pos (by lia)] at length
    lia
  obtain rfl := unchanged room
  obtain ⟨start, stop, contents⟩ := self
  simp only at *
  obtain ⟨spares, changes⟩ := @move_spares _ ⟨start, contents.length, contents⟩ .receiver
    (firstIndex + m) n (lastIndex + 1)
  by_cases first : MoveSpares ⟨start, contents.length, contents⟩ (firstIndex + m) n .receiver
      (lastIndex + 1)
  swap
  · refine ⟨fun same => ?_, fun harmless => absurd harmless.2.1 first⟩
    obtain ⟨x, low, high, other⟩ := changes first
    have written := kept.slots x low high
    rw [same] at written
    exact absurd written.symm other
  rcases spares first with ⟨done, moved⟩ | ⟨stuck, moved⟩
  swap
  · rw [replaced, moved]
    refine ⟨fun same => ⟨room, first, fun done => absurd done stuck, fun _ => ?_⟩, fun harmless => ?_⟩
    · exact (congrArg OrderedCollection.stop same).symm
    · rw [harmless.2.2.2 (.inl stuck)]
      rfl
  obtain ⟨spares', changes'⟩ := @move_spares _ ⟨start, contents.length, contents⟩ aCollection
    firstIndex (firstIndex + m - 1) 1
  rw [replaced, moved]
  simp only [Except.bind]
  by_cases second : MoveSpares ⟨start, contents.length, contents⟩ firstIndex (firstIndex + m - 1)
      aCollection 1
  · rcases spares' second with ⟨done', copied⟩ | ⟨stuck', copied⟩
    · rw [copied]
      simp only
      refine ⟨fun same => ⟨room, first, fun _ => ⟨second, fun _ => ?_⟩, fun stuck => ?_⟩,
        fun harmless => ?_⟩
      · have window := congrArg OrderedCollection.stop same
        rw [left_lift_stop] at window
        simp only at window
        lia
      · exact (stuck.elim (fun stuck => stuck done) fun stuck => stuck done').elim
      · have equal := (harmless.2.2.1 done).2 done'
        rw [replaceFromWithNil_of_lt (by lia), show start + n - 1 = stop by lia]
        rfl
    · rw [copied]
      refine ⟨fun same => ⟨room, first, fun _ => ⟨second, fun done' => absurd done' stuck'⟩,
        fun _ => ?_⟩, fun harmless => ?_⟩
      · exact (congrArg OrderedCollection.stop same).symm
      · rw [harmless.2.2.2 (.inr stuck')]
        rfl
  · refine ⟨fun same => ?_, fun harmless => absurd (harmless.2.2.1 done).1 second⟩
    obtain ⟨x, low, high, other⟩ := changes' second
    cases copied : replaceFromStartingAt ⟨start, contents.length, contents⟩ firstIndex
        (firstIndex + m - 1) aCollection 1 with
    | error state =>
      rw [copied] at same other
      simp only [left] at same other
      rw [same] at other
      exact absurd rfl other
    | ok state =>
      rw [copied] at same other
      have window := congrArg OrderedCollection.stop same
      rw [left_lift_stop] at window
      have kept' := (@left_move _ ⟨start, contents.length, contents⟩ aCollection firstIndex
        (firstIndex + m - 1) 1).1
      rw [copied] at kept'
      simp only [left] at kept'
      simp only at same window
      rw [replaceFromWithNil_of_lt (by lia)] at same
      exact absurd (congrArg (slot · x) (congrArg OrderedCollection.contents same)) other

/-- A valid range is replaced by the elements of the argument; an invalid one changes nothing. -/
def Splices (self : OrderedCollection α) (firstIndex lastIndex : Int)
    (aCollection : Argument α) : Prop :=
  if self.ValidRange firstIndex lastIndex then
    ∃ result, self.replaceFromToWith firstIndex lastIndex aCollection = .ok result ∧
      result.Bounded ∧ result.elements = self.elements.take (firstIndex - 1).toNat ++
        aCollection.elements self ++ self.elements.drop lastIndex.toNat
  else left (self.replaceFromToWith firstIndex lastIndex aCollection) = self

end Ranges

end OrderedCollection

end Egg.Collection
