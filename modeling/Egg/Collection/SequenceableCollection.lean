import Egg.Data.Slots

/-! Arrays, and the block copies of sequenceable collections. -/
namespace Egg.Collection

open Egg.Data

variable {α : Type}

/-- The slots of an array; nil is `none`. -/
abbrev Contents (α : Type) := List (Option α)

/-- What an operation leaves behind, also where it ends in an error. -/
abbrev Effect (σ : Type) : Type := Except σ σ

/-- What is left, also after an error. -/
def left {σ : Type} : Effect σ → σ
  | .ok state => state
  | .error state => state

namespace Contents

def «at» (contents : Contents α) (index : Int) : Option (Option α) :=
  if 1 ≤ index ∧ index ≤ contents.length then some (slot contents index) else none

/-- An error leaves the contents as they are at that point. -/
def atPut (contents : Contents α) (index : Int) (anObject : Option α) : Effect (Contents α) :=
  if 1 ≤ index ∧ index ≤ contents.length then .ok (contents.set (index - 1).toNat anObject)
  else .error contents

/-- Copy so many elements one by one, the next ones `step` further; what is read may be the array
itself. -/
def replaceEach (read : Contents α → Int → Option (Option α)) (step : Int) :
    (count : Nat) → (i j : Int) → Contents α → Effect (Contents α)
  | 0, _, _, contents => .ok contents
  | count + 1, i, j, contents =>
    match read contents j with
    | none => .error contents
    | some element =>
      (contents.atPut i element).bind (replaceEach read step count (i + step) (j + step))

def replaceForwardFrom (contents : Contents α) (start stop : Int)
    (read : Contents α → Int → Option (Option α)) (position : Int) : Effect (Contents α) :=
  replaceEach read 1 (stop + 1 - start).toNat start position contents

def replaceBackwardFrom (contents : Contents α) (stop start : Int)
    (read : Contents α → Int → Option (Option α)) (position : Int) : Effect (Contents α) :=
  replaceEach read (-1) (stop + 1 - start).toNat stop position contents

/-- `replaceFrom:to:with:startingAt:` of another collection. -/
def replaceFromOther (contents : Contents α) (start stop : Int)
    (read : Contents α → Int → Option (Option α)) (position : Int) : Effect (Contents α) :=
  if stop < start then .ok contents else contents.replaceForwardFrom start stop read position

/-- `replaceFrom:to:with:startingAt:` of the array itself. -/
def replaceFromSelf (contents : Contents α) (start stop position : Int) : Effect (Contents α) :=
  if stop < start then .ok contents
  else
    let last := position + stop - start
    if position ≤ start ∧ start ≤ last then contents.replaceBackwardFrom stop start Contents.at last
    else contents.replaceForwardFrom start stop Contents.at position

/-- `replaceFrom:to:withObject:` with nil. -/
def replaceWithNil : (count : Nat) → (start : Int) → Contents α → Effect (Contents α)
  | 0, _, contents => .ok contents
  | count + 1, start, contents =>
    (contents.atPut start none).bind (replaceWithNil count (start + 1))

def replaceFromWithNil (contents : Contents α) (start stop : Int) : Effect (Contents α) :=
  replaceWithNil (stop + 1 - start).toNat start contents

/-- The read of a collection with the given elements. -/
def readOf (elements : List (Option α)) (_ : Contents α) (index : Int) : Option (Option α) :=
  Contents.at elements index

/-- The contents succeed to others of the same length, slot by slot. -/
def Becomes (effect : Effect (Contents α)) (contents : Contents α)
    (slots : Int → Option α) : Prop :=
  ∃ result : Contents α, effect = .ok result ∧ result.length = contents.length ∧
    ∀ i, slot result i = slots i

section Effects

variable {contents : Contents α}

theorem at_eq {index : Int} (first : 1 ≤ index) (last : index ≤ contents.length) :
    contents.at index = some (slot contents index) :=
  if_pos ⟨first, last⟩

theorem atPut_becomes {index : Int} (first : 1 ≤ index) (last : index ≤ contents.length)
    (anObject : Option α) :
    Becomes (contents.atPut index anObject) contents fun i =>
      if i = index then anObject else slot contents i := by
  refine ⟨_, if_pos ⟨first, last⟩, List.length_set, fun i => ?_⟩
  rw [slot_set (by lia), show ((index - 1).toNat : Int) + 1 = index by lia]

/-- Copying writes what was there where no slot is read after it was written. -/
theorem replaceEach_becomes {read : Contents α → Int → Option (Option α)}
    {source : Int → Option α} {step : Int} (unit : step = 1 ∨ step = -1) (count : Nat) {i j : Int}
    (inside : 0 < count → 1 ≤ i ∧ 1 ≤ i + step * (count - 1) ∧ i ≤ contents.length ∧
      i + step * (count - 1) ≤ contents.length)
    (reads : ∀ k : Nat, k < count → ∀ copied : Contents α, copied.length = contents.length →
      (∀ x, (x - i) * step < 0 ∨ k ≤ (x - i) * step → slot copied x = slot contents x) →
      read copied (j + step * k) = some (source (j + step * k))) :
    Becomes (replaceEach read step count i j contents) contents fun x =>
      if 0 ≤ (x - i) * step ∧ (x - i) * step < count then source (x - i + j)
      else slot contents x := by
  induction count generalizing contents i j with
  | zero => exact ⟨contents, rfl, rfl, fun x => (if_neg (by lia)).symm⟩
  | succ count ih =>
    obtain ⟨first, first', last, last'⟩ := inside (Nat.succ_pos count)
    have found := reads 0 (Nat.succ_pos count) contents rfl fun _ _ => rfl
    rw [Int.natCast_zero, Int.mul_zero, Int.add_zero] at found
    obtain ⟨next, written, length, slots⟩ := @atPut_becomes _ contents _ first last (source j)
    beta_reduce at slots
    obtain ⟨result, copied, length', slots'⟩ := @ih next (i + step) (j + step)
      (by rcases unit with rfl | rfl <;> lia) (by
      intro k within copied same kept
      have shifted := reads (k + 1) (by lia) copied (same.trans length) fun x apart => by
        rw [kept x (by rcases unit with rfl | rfl <;> lia), slots,
          if_neg (by rcases unit with rfl | rfl <;> lia)]
      rwa [show j + step + step * (k : Int) = j + step * (k + 1 : Nat) by
        rcases unit with rfl | rfl <;> lia])
    beta_reduce at slots'
    refine ⟨result, ?_, length'.trans length, fun x => ?_⟩
    · simp only [replaceEach, found, written]
      exact copied
    · beta_reduce
      rw [slots', slots]
      by_cases here : x = i
      · subst here
        rw [if_neg (by rcases unit with rfl | rfl <;> lia), if_pos rfl, if_pos (by lia),
          show x - x + j = j by lia]
      · by_cases within : 0 ≤ (x - i) * step ∧ (x - i) * step < (count + 1 : Nat)
        · rw [if_pos (by rcases unit with rfl | rfl <;> lia), if_pos within,
            show x - (i + step) + (j + step) = x - i + j by lia]
        · rw [if_neg (by rcases unit with rfl | rfl <;> lia), if_neg here, if_neg within]

/-- Copying inside the array moves a block, whether or not the two overlap. -/
theorem replaceFromSelf_becomes {start stop position : Int}
    (inside : start ≤ stop → 1 ≤ start ∧ stop ≤ contents.length ∧ 1 ≤ position ∧
      position + stop - start ≤ contents.length) :
    Becomes (contents.replaceFromSelf start stop position) contents fun x =>
      if start ≤ x ∧ x ≤ stop then slot contents (x - start + position) else slot contents x := by
  by_cases empty : stop < start
  · exact ⟨contents, if_pos empty, rfl, fun x => (if_neg (by lia)).symm⟩
  · obtain ⟨first, last, firstRead, lastRead⟩ := inside (by lia)
    rw [replaceFromSelf, if_neg empty]
    by_cases upwards : position ≤ start ∧ start ≤ position + stop - start
    · rw [if_pos upwards, replaceBackwardFrom]
      obtain ⟨result, done, length, slots⟩ := @replaceEach_becomes _ contents Contents.at
        (slot contents) (-1) (.inr rfl) (stop + 1 - start).toNat stop (position + stop - start)
        (by lia) (by
          intro k few copied same kept
          rw [at_eq (by lia) (by lia), kept _ (by lia)])
      refine ⟨result, done, length, fun x => (slots x).trans ?_⟩
      beta_reduce
      by_cases block : start ≤ x ∧ x ≤ stop
      · rw [if_pos (by lia), if_pos block,
          show x - stop + (position + stop - start) = x - start + position by lia]
      · rw [if_neg (by lia), if_neg block]
    · rw [if_neg upwards, replaceForwardFrom]
      obtain ⟨result, done, length, slots⟩ := @replaceEach_becomes _ contents Contents.at
        (slot contents) 1 (.inl rfl) (stop + 1 - start).toNat start position (by lia) (by
          intro k few copied same kept
          rw [at_eq (by lia) (by lia), kept _ (by lia)])
      refine ⟨result, done, length, fun x => (slots x).trans ?_⟩
      beta_reduce
      by_cases block : start ≤ x ∧ x ≤ stop
      · rw [if_pos (by lia), if_pos block]
      · rw [if_neg (by lia), if_neg block]

/-- Copying from another collection, or from slots that are not written. -/
theorem replaceFromOther_becomes {start stop position : Int}
    {read : Contents α → Int → Option (Option α)} {source : Int → Option α}
    (inside : start ≤ stop → 1 ≤ start ∧ stop ≤ contents.length)
    (reads : ∀ j, position ≤ j → j ≤ position + stop - start → ∀ copied : Contents α,
      copied.length = contents.length →
      (∀ x, x < start ∨ stop < x → slot copied x = slot contents x) →
      read copied j = some (source j)) :
    Becomes (contents.replaceFromOther start stop read position) contents fun x =>
      if start ≤ x ∧ x ≤ stop then source (x - start + position) else slot contents x := by
  by_cases empty : stop < start
  · exact ⟨contents, if_pos empty, rfl, fun x => (if_neg (by lia)).symm⟩
  · obtain ⟨first, last⟩ := inside (by lia)
    rw [replaceFromOther, if_neg empty, replaceForwardFrom]
    obtain ⟨result, done, length, slots⟩ := @replaceEach_becomes _ contents read source 1
      (.inl rfl) (stop + 1 - start).toNat start position (by lia) (by
        intro k few copied same kept
        exact reads _ (by lia) (by lia) copied same fun x apart => kept x (by lia))
    refine ⟨result, done, length, fun x => (slots x).trans ?_⟩
    beta_reduce
    by_cases block : start ≤ x ∧ x ≤ stop
    · rw [if_pos (by lia), if_pos block]
    · rw [if_neg (by lia), if_neg block]

theorem replaceWithNil_becomes (count : Nat) {start : Int} (first : 1 ≤ start)
    (last : start + count ≤ contents.length + 1) :
    Becomes (replaceWithNil count start contents) contents fun x =>
      if start ≤ x ∧ x < start + count then none else slot contents x := by
  induction count generalizing contents start with
  | zero => exact ⟨contents, rfl, rfl, fun x => (if_neg (by lia)).symm⟩
  | succ count ih =>
    obtain ⟨next, written, length, slots⟩ := @atPut_becomes _ contents _ first (by lia) none
    beta_reduce at slots
    obtain ⟨result, done, length', slots'⟩ := @ih next (start + 1) (by lia) (by lia)
    beta_reduce at slots'
    refine ⟨result, ?_, length'.trans length, fun x => ?_⟩
    · rw [replaceWithNil, written]
      exact done
    · beta_reduce
      rw [slots', slots]
      split_ifs <;> first | rfl | lia

theorem replaceFromWithNil_becomes {start stop : Int}
    (inside : start ≤ stop → 1 ≤ start ∧ stop ≤ contents.length) :
    Becomes (contents.replaceFromWithNil start stop) contents fun x =>
      if start ≤ x ∧ x ≤ stop then none else slot contents x := by
  by_cases empty : stop < start
  · refine ⟨contents, ?_, rfl, fun x => (if_neg (by lia)).symm⟩
    rw [replaceFromWithNil, show (stop + 1 - start).toNat = 0 by lia]
    rfl
  · obtain ⟨first, last⟩ := inside (by lia)
    obtain ⟨result, done, length, slots⟩ :=
      @replaceWithNil_becomes _ contents (stop + 1 - start).toNat start first (by lia)
    refine ⟨result, done, length, fun x => (slots x).trans ?_⟩
    beta_reduce
    split_ifs <;> first | rfl | lia

end Effects

end Contents

end Egg.Collection
