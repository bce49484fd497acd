import Egg.Collector.Zone
import Egg.Memory.IndexedAccess

/-! The weak phase: the elements of weak containers after everything that is reached strongly was
seen. -/
namespace Egg.Collector

open Egg.Data Egg.Memory HeapObject

/-- The memory, and the places of elements that were accessed so far with the container they were
accessed for. -/
structure Cleaning where
  memory : Bytes
  accessed : List (Nat × Nat)

namespace Cleaning

/-- Access the element of a container that is at a place. -/
def access (cleaning : Cleaning) (container place : Nat) : Cleaning :=
  { cleaning with accessed := cleaning.accessed ++ [(container, place)] }

def store (cleaning : Cleaning) (place word : Nat) : Cleaning :=
  { cleaning with memory := cleaning.memory.store place 8 word }

end Cleaning

section Weak

variable (zone : Zone) (evacuated : List Bool) (tombstone : Nat)

def updateWeakAt (cleaning : Cleaning) (weakContainer index : Nat) : Cleaning :=
  let place := slotAt weakContainer index
  let cleaning := cleaning.access weakContainer place
  let object := cleaning.memory.load place 8
  if object % 2 = 1 then cleaning
  else
    let cleaning := if hasBeenSeen cleaning.memory object then cleaning
      else cleaning.store place tombstone
    if zone.hasToEvacuate evacuated object then
      cleaning.store place (copyOf cleaning.memory object)
    else cleaning

/-- The loop over the elements, from an index on. -/
def updateWeakReferencesFrom (cleaning : Cleaning) (weakContainer index : Nat) : Cleaning :=
  if index < HeapObject.size cleaning.memory weakContainer then
    updateWeakReferencesFrom (updateWeakAt zone evacuated tombstone cleaning weakContainer index)
      weakContainer (index + 1)
  else cleaning
termination_by 2 ^ 32 - index
decreasing_by
  have bounded : HeapObject.size cleaning.memory weakContainer < 2 ^ 32 := size_lt
  omega

def updateWeakReferencesOf (cleaning : Cleaning) (weakContainer : Nat) : Cleaning :=
  updateWeakReferencesFrom zone evacuated tombstone cleaning weakContainer 0

def scanWeakContainers (weakContainers : List Nat) (memory : Bytes) : Cleaning :=
  weakContainers.foldl (updateWeakReferencesOf zone evacuated tombstone) ⟨memory, []⟩

/-! ### What the phase is for -/

/-- Whether an object is in one of the spaces that are collected. -/
def collects (object : Nat) : Bool :=
  zone.heap.spaces.any fun space => decide (space.base < object ∧ object < space.next)

/-- What an element is to be: its referent where it is now, or the tombstone. -/
def strengthened (memory : Bytes) (word : Nat) : Nat :=
  if word % 2 = 1 ∨ ¬ collects zone word then word
  else if hasBeenSeen memory word then
    if zone.hasToEvacuate evacuated word then copyOf memory word else word
  else tombstone

/-- Every element of the containers is what it is to be, and nothing else was accessed. -/
structure Cleaned (weakContainers : List Nat) (memory : Bytes) (cleaning : Cleaning) : Prop where
  elements : ∀ container ∈ weakContainers, ∀ index : Nat, 1 ≤ index →
    index ≤ HeapObject.size memory container →
    slot cleaning.memory container (index - 1) =
      strengthened zone evacuated tombstone memory (slot memory container (index - 1))
  frame : ∀ place, (∀ container ∈ weakContainers, place < container ∨
      container + HeapObject.size memory container * wordSize ≤ place) →
    cleaning.memory place = memory place
  accessed : ∀ container place, (container, place) ∈ cleaning.accessed → ∃ index : Nat,
    1 ≤ index ∧ index ≤ HeapObject.size memory container ∧
      place = slotAddress container (index - 1)

end Weak

section Exactness

variable {zone : Zone} {evacuated : List Bool} {tombstone : Nat} {cleaning : Cleaning}
  {container place : Nat}

theorem updateWeakReferencesOf_empty (empty : HeapObject.size cleaning.memory container = 0) :
    updateWeakReferencesOf zone evacuated tombstone cleaning container = cleaning := by
  rw [updateWeakReferencesOf, updateWeakReferencesFrom, empty, if_neg (Nat.lt_irrefl 0)]

/-- What was accessed stays accessed. -/
theorem updateWeakAt_accessed (index : Nat) :
    (updateWeakAt zone evacuated tombstone cleaning container index).accessed =
      cleaning.accessed ++ [(container, slotAt container index)] := by
  unfold updateWeakAt
  simp only
  split_ifs <;> rfl

theorem updateWeakReferencesFrom_accessed {pair : Nat × Nat} (index : Nat)
    (before : pair ∈ cleaning.accessed) :
    pair ∈ (updateWeakReferencesFrom zone evacuated tombstone cleaning container index).accessed := by
  induction cleaning, index using updateWeakReferencesFrom.induct zone evacuated tombstone container with
  | case1 cleaning index inside ih =>
    rw [updateWeakReferencesFrom, if_pos inside]
    apply ih
    rw [updateWeakAt_accessed]
    exact List.mem_append_left _ before
  | case2 cleaning index outside =>
    rw [updateWeakReferencesFrom, if_neg outside]
    exact before

theorem scan_accessed {containers : List Nat} {pair : Nat × Nat}
    (before : pair ∈ cleaning.accessed) :
    pair ∈ (containers.foldl (updateWeakReferencesOf zone evacuated tombstone) cleaning).accessed := by
  induction containers generalizing cleaning with
  | nil => exact before
  | cons container containers ih => exact ih (updateWeakReferencesFrom_accessed 0 before)

theorem scan_empty {containers : List Nat}
    (empty : ∀ container ∈ containers, HeapObject.size cleaning.memory container = 0) :
    containers.foldl (updateWeakReferencesOf zone evacuated tombstone) cleaning = cleaning := by
  induction containers with
  | nil => rfl
  | cons container containers ih =>
    rw [List.foldl_cons, updateWeakReferencesOf_empty (empty container (by simp))]
    exact ih fun other member => empty other (by simp [member])

/-- The element before the first one is accessed, which is none of the container. -/
theorem scan_first {before after : List Nat}
    (empty : ∀ other ∈ before, HeapObject.size cleaning.memory other = 0)
    (elements : 0 < HeapObject.size cleaning.memory container) :
    (container, slotAt container 0) ∈ ((before ++ container :: after).foldl
      (updateWeakReferencesOf zone evacuated tombstone) cleaning).accessed := by
  rw [List.foldl_append, scan_empty empty, List.foldl_cons]
  apply scan_accessed
  rw [updateWeakReferencesOf, updateWeakReferencesFrom, if_pos elements]
  apply updateWeakReferencesFrom_accessed
  rw [updateWeakAt_accessed]
  simp

theorem slotAt_zero : slotAt container 0 = slotAddress container (2 ^ 32 - 1) := by
  rfl

variable {weakContainers : List Nat} {memory : Bytes}

/-- A container with elements is not accessed within its elements only. -/
theorem Cleaned.empty (cleaned : Cleaned zone evacuated tombstone weakContainers memory
    (scanWeakContainers zone evacuated tombstone weakContainers memory)) :
    ∀ container ∈ weakContainers, HeapObject.size memory container = 0 := by
  suffices absent : weakContainers.find? (fun container => decide
      (0 < HeapObject.size memory container)) = none by
    simpa using List.find?_eq_none.mp absent
  cases found : weakContainers.find? (fun container => decide
      (0 < HeapObject.size memory container)) with
  | none => rfl
  | some container =>
    obtain ⟨elements, before, after, parts, missed⟩ := List.find?_eq_some_iff_append.mp found
    have first : (container, slotAt container 0) ∈
        (scanWeakContainers zone evacuated tombstone weakContainers memory).accessed := by
      rw [scanWeakContainers, parts]
      exact scan_first (by simpa using missed) (by simpa using elements)
    obtain ⟨index, positive, inside, same⟩ := cleaned.accessed _ _ first
    have bounded : HeapObject.size memory container < 2 ^ 32 := size_lt
    rw [slotAt_zero, slotAddress, slotAddress, wordSize] at same
    lia

theorem scanWeakContainers_cleaned
    (empty : ∀ container ∈ weakContainers, HeapObject.size memory container = 0) :
    Cleaned zone evacuated tombstone weakContainers memory
      (scanWeakContainers zone evacuated tombstone weakContainers memory) := by
  have still : scanWeakContainers zone evacuated tombstone weakContainers memory = ⟨memory, []⟩ :=
    scan_empty empty
  rw [still]
  refine ⟨?_, fun _ _ => rfl, ?_⟩
  · intro container member index positive inside
    rw [empty container member] at inside
    lia
  · intro container place member
    cases member

end Exactness

/-- The weak phase is right exactly when the containers have no elements. -/
theorem scanWeakContainers_iff (zone : Zone) (evacuated : List Bool) (tombstone : Nat)
    (weakContainers : List Nat) (memory : Bytes) :
    Cleaned zone evacuated tombstone weakContainers memory
        (scanWeakContainers zone evacuated tombstone weakContainers memory) ↔
      ∀ container ∈ weakContainers, HeapObject.size memory container = 0 :=
  ⟨Cleaned.empty, scanWeakContainers_cleaned⟩

/-- A zone of one region, its space from 0x100000 to 0x140000. -/
def oneRegion : Zone where
  heap := {
    memory := fun _ => 0
    spaces := [⟨0x100000, 0x100000, 0x140000, 0x140000, 0x140000⟩]
    oldZone := ⟨0x180000, 0x180000, 0, 0, []⟩
    countdown := mb
    gcNeeded := false
    atGCSafepoint := false
    atGCUnsafepoint := false
    nextFree := 0x180000
    mappings := [(0x100000, 0x180000)] }
  base := 0x100000
  regions := [0]
  occupancy := [0]

/-- A weak container of one element, at 0x100008. -/
def weakArray : Bytes := fun address =>
  if address = 0x100002 then 1 else if address = 0x100003 then 0x90 else 0

theorem weak_element_missed :
    HeapObject.size weakArray 0x100008 = 1 ∧
      ¬ Cleaned oneRegion [false] 0 [0x100008] weakArray
        (scanWeakContainers oneRegion [false] 0 [0x100008] weakArray) := by
  refine ⟨by decide +kernel, ?_⟩
  intro cleaned
  exact absurd (cleaned.empty 0x100008 (by simp)) (by decide +kernel)

end Egg.Collector
