import Egg.Collector.Forwarders
import Egg.Data.NextFit
import Egg.Memory.Allocation

/-! Room for the copies of the objects in the regions that are evacuated. -/
namespace Egg.Collector

open Egg.Data Egg.Memory HeapObject

/-- Why there is no copy: the old zone has no region left, the system has no memory, or a space that
was there for the copy has no room for it. -/
inductive Failure where
  | outOfOldZone
  | outOfMemory
  | noCopy
  deriving DecidableEq

namespace Zone

variable (zone : Zone) (system : System)

/-- The allocation of a copy in the space at a position. -/
def allocateIn (position size : Nat) : Option (Nat × Zone) := do
  let space ← zone.heap.spaces[position]?
  let (address, space, memory) ← space.allocateCommittingIfNeeded system zone.heap.memory size
  some (address, { zone with heap := { zone.heap with
    memory, spaces := zone.heap.spaces.set position space } })

def createLargeSpace (size : Nat) : Option Zone := do
  let (base, heap) ← zone.heap.reserveMemory system 0 size
  some { zone with heap := { heap with spaces := heap.spaces ++ [.allocatedAt base (base + size)] } }

/-- Where an object of so many bytes is copied to. -/
def shallowCopyCommiting (size : Nat) : Except Failure (Nat × Zone) :=
  match zone.allocateIn system zone.heap.oldZone.current size with
  | some copy => .ok copy
  | none =>
    if GCHeap.largeThreshold < size then
      match zone.createLargeSpace system size with
      | none => .error .outOfMemory
      | some zone =>
        match zone.allocateIn system (zone.heap.spaces.length - 1) size with
        | some copy => .ok copy
        | none => .error .noCopy
    else
      match zone.bumpSpace system with
      | none => .error .outOfOldZone
      | some zone =>
        match zone.allocateIn system zone.heap.oldZone.current size with
        | some copy => .ok copy
        | none => .error .noCopy

/-- Objects of these sizes are copied one after the other. -/
def copyAll (zone : Zone) : List Nat → Except Failure Zone
  | [] => .ok zone
  | size :: sizes =>
    match zone.shallowCopyCommiting system size with
    | .error failure => .error failure
    | .ok (_, zone) => copyAll zone sizes

end Zone

/-- The limits of a space lie within the memory that is reserved for it. -/
structure Ordered (space : GCSpace) : Prop where
  next : space.next ≤ space.reservedLimit
  soft : space.softLimit ≤ space.reservedLimit
  committed : space.committedLimit ≤ space.reservedLimit

namespace Heap

variable (heap : GCHeap)

/-- What a collection finds: a space in use, an empty one that is next, and other empty ones. -/
structure Ready : Prop where
  ordered : ∀ space ∈ heap.spaces, Ordered space
  current : heap.oldZone.current < heap.spaces.length
  empty : ∀ position ∈ heap.oldZone.next :: heap.oldZone.emptySpaces, ∃ space,
    heap.spaces[position]? = some space ∧ space.next = space.base ∧
      space.reservedLimit = space.base + spaceSize
  distinct : (heap.oldZone.current :: heap.oldZone.next :: heap.oldZone.emptySpaces).Nodup
  ahead : ∃ count, heap.oldZone.limit = heap.oldZone.nextFree + count * (spaceSize + spaceSize)

/-- What is left of the space in use. -/
def room : Nat :=
  match heap.spaces[heap.oldZone.current]? with
  | some space => space.reservedLimit - space.next
  | none => 0

/-- How many empty regions there are after the next one, or can be created. -/
def spare : Nat := heap.oldZone.emptySpaces.length +
  (heap.oldZone.limit - heap.oldZone.nextFree) / (spaceSize + spaceSize)

def bins : NextFit := ⟨room heap, spare heap⟩

variable {heap} {other : GCHeap} {system : System} {position size : Nat} {space : GCSpace}

/-- A space takes what its reserved memory has room for, committed or not. -/
theorem allocateCommittingIfNeeded_fits {memory : Bytes} (ordered : Ordered space)
    (fits : space.next + size ≤ space.reservedLimit) :
    ∃ taken changed, space.allocateCommittingIfNeeded system memory size =
        some (space.next, taken, changed) ∧
      taken.next = space.next + size ∧ taken.reservedLimit = space.reservedLimit ∧
      Ordered taken := by
  have aligned := GCHeap.le_pagealign system (space.next + size)
  rw [GCSpace.allocateCommittingIfNeeded]
  split_ifs with soft
  · exact ⟨_, _, rfl, rfl, rfl, ⟨fits, ordered.soft, ordered.committed⟩⟩
  · rw [GCSpace.commitMemoryUpTo]
    simp only
    rw [if_neg (by lia)]
    exact ⟨_, _, rfl, rfl, rfl, ⟨fits, Nat.min_le_right _ _, Nat.min_le_right _ _⟩⟩

theorem allocateCommittingIfNeeded_full {memory : Bytes} (ordered : Ordered space)
    (full : space.reservedLimit < space.next + size) :
    space.allocateCommittingIfNeeded system memory size = none := by
  have soft := ordered.soft
  rw [GCSpace.allocateCommittingIfNeeded, if_neg (by lia), GCSpace.commitMemoryUpTo]
  simp only
  rw [if_pos (by lia)]
  rfl

theorem Ready.exists_current (ready : Ready heap) : ∃ space,
    heap.spaces[heap.oldZone.current]? = some space ∧ Ordered space ∧
      room heap = space.reservedLimit - space.next := by
  refine ⟨_, List.getElem?_eq_getElem ready.current,
    ready.ordered _ (List.getElem_mem ready.current), ?_⟩
  unfold room
  rw [List.getElem?_eq_getElem ready.current]

/-- Setting the space in use to one with the same limits and less room. -/
theorem Ready.set_current {taken : GCSpace} {memory : Bytes} (ready : Ready heap)
    (ordered : Ordered taken) :
    Ready { heap with memory, spaces := heap.spaces.set heap.oldZone.current taken } := by
  refine ⟨?_, ?_, ?_, ready.distinct, ready.ahead⟩
  · intro other member
    rcases List.mem_or_eq_of_mem_set member with there | rfl
    · exact ready.ordered other there
    · exact ordered
  · rw [List.length_set]
    exact ready.current
  · intro position member
    obtain ⟨space, found, start, whole⟩ := ready.empty position member
    have apart : heap.oldZone.current ≠ position := by
      intro same
      exact (List.nodup_cons.mp ready.distinct).1 (same ▸ member)
    exact ⟨space, by rw [List.getElem?_set_ne apart]; exact found, start, whole⟩

/-- Committing a space whole leaves where it starts, ends and goes on. -/
theorem commitSpace_eq (ordered : Ordered space) (found : heap.spaces[position]? = some space) :
    ∃ committed memory, heap.commitSpace system position = some { heap with
        memory, spaces := heap.spaces.set position committed } ∧
      committed.base = space.base ∧ committed.next = space.next ∧
      committed.reservedLimit = space.reservedLimit ∧ Ordered committed := by
  rw [GCHeap.commitSpace, found]
  simp only [Option.bind_eq_bind, Option.bind_some, GCSpace.commitMemoryUpTo]
  split_ifs with short
  · exact ⟨_, _, rfl, rfl, rfl, rfl, ⟨ordered.next, ordered.committed, ordered.committed⟩⟩
  · exact ⟨_, _, rfl, rfl, rfl, rfl, ⟨ordered.next, Nat.min_le_right _ _, Nat.min_le_right _ _⟩⟩

/-- A space that is empty and as large as a region. -/
def Fresh (heap : GCHeap) (position : Nat) : Prop :=
  ∃ space, heap.spaces[position]? = some space ∧ space.next = space.base ∧
    space.reservedLimit = space.base + spaceSize

/-- The heap in the middle of a bump, with at least one empty space. -/
structure Filled (heap : GCHeap) (filled : GCHeap) (rest : List Nat) (last : Nat) : Prop where
  current : filled.oldZone.current = heap.oldZone.next
  emptySpaces : filled.oldZone.emptySpaces = rest ++ [last]
  ordered : ∀ space ∈ filled.spaces, Ordered space
  empty : ∀ position ∈ heap.oldZone.next :: (rest ++ [last]), Fresh filled position
  distinct : (heap.oldZone.next :: (rest ++ [last])).Nodup
  ahead : ∃ count, filled.oldZone.limit =
    filled.oldZone.nextFree + count * (spaceSize + spaceSize)
  spare : spare heap = rest.length +
    (filled.oldZone.limit - filled.oldZone.nextFree) / (spaceSize + spaceSize) + 1

theorem Ready.filled (ready : Ready heap) (left : 0 < spare heap) : ∃ filled rest last,
    (if heap.advance.oldZone.emptySpaces.isEmpty then heap.advance.createEmptySpace
      else some heap.advance) = some filled ∧ Filled heap filled rest last := by
  obtain ⟨count, ahead⟩ := ready.ahead
  have size : spaceSize = 262144 := rfl
  have distinct := (List.nodup_cons.mp ready.distinct).2
  rcases List.eq_nil_or_concat heap.oldZone.emptySpaces with none_left | ⟨rest, last, some_left⟩
  · have more : 0 < count := by
      unfold spare at left
      rw [none_left, ahead, size] at left
      simp only [List.length_nil] at left
      lia
    have room : heap.oldZone.nextFree ≠ heap.oldZone.limit := by
      rw [ahead, size]
      lia
    have isEmpty : heap.advance.oldZone.emptySpaces.isEmpty = true := by
      change heap.oldZone.emptySpaces.isEmpty = true
      rw [none_left]
      rfl
    rw [if_pos isEmpty, GCHeap.createEmptySpace]
    rw [if_neg (show ¬ heap.advance.oldZone.nextFree = heap.advance.oldZone.limit from room)]
    obtain ⟨space, found, start, whole⟩ := ready.empty _ (List.mem_cons_self ..)
    have inside := (List.getElem?_eq_some_iff.mp found).1
    refine ⟨_, [], heap.spaces.length, rfl, rfl, ?_, ?_, ?_, ?_, ⟨count - 1, ?_⟩, ?_⟩
    · change heap.oldZone.emptySpaces ++ [heap.spaces.length] = _
      rw [none_left]
    · intro space member
      rcases List.mem_append.mp member with there | added
      · exact ready.ordered space there
      · rw [List.mem_singleton.mp added]
        exact ⟨Nat.le_add_right .., Nat.le_add_right .., Nat.le_add_right ..⟩
    · intro position member
      rcases List.mem_cons.mp member with rfl | further
      · exact ⟨space, (List.getElem?_append_left inside).trans found, start, whole⟩
      · rw [List.mem_singleton.mp further]
        exact ⟨_, List.getElem?_concat_length, rfl, rfl⟩
    · simp only [List.nil_append, List.nodup_cons, List.mem_singleton, List.not_mem_nil,
        not_false_eq_true, List.nodup_nil, and_true]
      lia
    · change heap.oldZone.limit = heap.oldZone.nextFree + spaceSize + spaceSize + _
      rw [ahead, size]
      lia
    · unfold spare
      change _ = _ + (heap.oldZone.limit - (heap.oldZone.nextFree + spaceSize + spaceSize)) / _ + 1
      rw [none_left, ahead, size]
      simp only [List.length_nil]
      lia
  · have isEmpty : ¬ heap.advance.oldZone.emptySpaces.isEmpty = true := by
      change ¬ heap.oldZone.emptySpaces.isEmpty = true
      rw [some_left]
      simp
    rw [if_neg isEmpty]
    have equal : heap.oldZone.emptySpaces = rest ++ [last] := by
      rw [some_left, List.concat_eq_append]
    refine ⟨_, rest, last, rfl, rfl, equal, ready.ordered, ?_, ?_, ready.ahead, ?_⟩
    · rw [← equal]
      exact ready.empty
    · rw [← equal]
      exact distinct
    · unfold spare
      rw [equal, List.length_append, List.length_singleton]
      change _ = _ + (heap.oldZone.limit - heap.oldZone.nextFree) / _ + 1
      lia

theorem bumpSpace_ready (ready : Ready heap) (left : 0 < spare heap) : ∃ other,
    heap.bumpSpace system = some other ∧ Ready other ∧ bins other = ⟨spaceSize, spare heap - 1⟩ := by
  obtain ⟨filled, rest, last, filling, shape⟩ := ready.filled left
  have found := shape.empty last (by simp)
  obtain ⟨space, here, start, whole⟩ := found
  have ordered := shape.ordered space (List.mem_of_getElem? here)
  obtain ⟨committed, memory, committing, base, next, limit, kept⟩ :=
    @commitSpace_eq (filled.popEmptySpace last) system last space ordered here
  have emptySpaces : (filled.popEmptySpace last).oldZone.emptySpaces = rest := by
    change filled.oldZone.emptySpaces.dropLast = rest
    rw [shape.emptySpaces, List.dropLast_concat]
  have apart (position : Nat) (member : position ∈ heap.oldZone.next :: rest) :
      Fresh { filled.popEmptySpace last with
        memory, spaces := filled.spaces.set last committed } position := by
    obtain ⟨space, there, start, whole⟩ := shape.empty position (by
      rcases List.mem_cons.mp member with rfl | further
      · exact List.mem_cons_self ..
      · exact List.mem_cons_of_mem _ (List.mem_append_left _ further))
    have different : last ≠ position := by
      have distinct := shape.distinct
      rw [← List.cons_append, List.nodup_append] at distinct
      exact fun same => distinct.2.2 position member last (by simp) same.symm
    exact ⟨space, (List.getElem?_set_ne different).trans there, start, whole⟩
  refine ⟨{ filled.popEmptySpace last with
    memory, spaces := filled.spaces.set last committed }, ?_, ?_, ?_⟩
  · rw [GCHeap.bumpSpace]
    simp only [Option.bind_eq_bind]
    rw [filling, Option.bind_some, shape.emptySpaces]
    simp only [List.getLast?_append, List.getLast?_singleton, Option.some_or, Option.bind_some]
    exact committing
  · refine ⟨?_, ?_, ?_, ?_, shape.ahead⟩
    · intro other member
      rcases List.mem_or_eq_of_mem_set member with there | rfl
      · exact shape.ordered other there
      · exact kept
    · obtain ⟨current, there, -⟩ := apart heap.oldZone.next (List.mem_cons_self ..)
      have inside := (List.getElem?_eq_some_iff.mp there).1
      rw [← shape.current] at inside
      exact inside
    · intro position member
      change position ∈ last :: (filled.popEmptySpace last).oldZone.emptySpaces at member
      rw [emptySpaces] at member
      rcases List.mem_cons.mp member with rfl | further
      · refine ⟨committed, List.getElem?_set_self (List.getElem?_eq_some_iff.mp here).1, ?_, ?_⟩
        · rw [next, base, start]
        · rw [limit, base, whole]
      · exact apart position (List.mem_cons_of_mem _ further)
    · change (filled.oldZone.current :: last ::
        (filled.popEmptySpace last).oldZone.emptySpaces).Nodup
      rw [emptySpaces, shape.current]
      have same : (heap.oldZone.next :: last :: rest).Perm (heap.oldZone.next :: (rest ++ [last])) :=
        (List.perm_append_singleton last rest).symm.cons _
      exact same.nodup_iff.mpr shape.distinct
  · obtain ⟨current, there, beginning, all⟩ := apart heap.oldZone.next (List.mem_cons_self ..)
    rw [← shape.current] at there
    unfold bins
    congr 1
    · unfold room
      change (match (filled.spaces.set last committed)[filled.oldZone.current]? with
        | some space => space.reservedLimit - space.next
        | none => 0) = spaceSize
      rw [there]
      simp only
      lia
    · unfold spare
      change (filled.popEmptySpace last).oldZone.emptySpaces.length +
        (filled.oldZone.limit - filled.oldZone.nextFree) / (spaceSize + spaceSize) = spare heap - 1
      rw [emptySpaces, shape.spare, Nat.add_sub_cancel]

theorem bumpSpace_none (ready : Ready heap) (none_left : spare heap = 0) :
    heap.bumpSpace system = none := by
  obtain ⟨count, ahead⟩ := ready.ahead
  have size : spaceSize = 262144 := rfl
  unfold spare at none_left
  rw [ahead, size] at none_left
  have noSpaces : heap.oldZone.emptySpaces = [] := List.length_eq_zero_iff.mp (by lia)
  have isEmpty : heap.advance.oldZone.emptySpaces.isEmpty = true := by
    change heap.oldZone.emptySpaces.isEmpty = true
    rw [noSpaces]
    rfl
  have full : heap.advance.oldZone.nextFree = heap.advance.oldZone.limit := by
    change heap.oldZone.nextFree = heap.oldZone.limit
    rw [ahead, size]
    lia
  rw [GCHeap.bumpSpace]
  simp only [Option.bind_eq_bind]
  rw [if_pos isEmpty, GCHeap.createEmptySpace, if_pos full]
  rfl

/-- A heap with another space and the same zone. -/
theorem Ready.append {more : List GCSpace} (ready : Ready heap)
    (zone : other.oldZone = heap.oldZone) (spaces : other.spaces = heap.spaces ++ more)
    (ordered : ∀ space ∈ more, Ordered space) : Ready other ∧ bins other = bins heap := by
  have keeps (position : Nat) (space : GCSpace) (found : heap.spaces[position]? = some space) :
      other.spaces[position]? = some space := by
    rw [spaces, List.getElem?_append_left (List.getElem?_eq_some_iff.mp found).1]
    exact found
  constructor
  · refine ⟨?_, ?_, ?_, zone ▸ ready.distinct, zone ▸ ready.ahead⟩
    · intro space member
      rw [spaces] at member
      rcases List.mem_append.mp member with there | added
      · exact ready.ordered space there
      · exact ordered space added
    · rw [zone, spaces, List.length_append]
      exact Nat.lt_add_right _ ready.current
    · rw [zone]
      intro position member
      obtain ⟨space, found, shape⟩ := ready.empty position member
      exact ⟨space, keeps position space found, shape⟩
  · have here := List.getElem?_eq_getElem ready.current
    unfold bins room spare
    rw [zone, here, keeps _ _ here]

end Heap

namespace Zone

variable {zone : Zone} {system : System} {size : Nat}

open Heap

theorem allocateIn_fits (ready : Ready zone.heap) (fits : size ≤ room zone.heap) :
    ∃ address next, zone.allocateIn system zone.heap.oldZone.current size = some (address, next) ∧
      Ready next.heap ∧ bins next.heap = ⟨room zone.heap - size, spare zone.heap⟩ := by
  obtain ⟨space, found, ordered, left⟩ := ready.exists_current
  have inside := ordered.next
  obtain ⟨taken, memory, allocated, next, limit, kept⟩ :=
    @allocateCommittingIfNeeded_fits system size space zone.heap.memory ordered (by lia)
  refine ⟨space.next, { zone with heap := { zone.heap with
    memory, spaces := zone.heap.spaces.set zone.heap.oldZone.current taken } }, ?_,
    ready.set_current kept, ?_⟩
  · unfold allocateIn
    rw [found, Option.bind_eq_bind, Option.bind_some, allocated]
    rfl
  · unfold bins
    congr 1
    unfold room
    simp only
    rw [List.getElem?_set_self ready.current, found]
    simp only
    lia

theorem allocateIn_full (ready : Ready zone.heap) (full : room zone.heap < size) :
    zone.allocateIn system zone.heap.oldZone.current size = none := by
  obtain ⟨space, found, ordered, left⟩ := ready.exists_current
  have inside := ordered.next
  unfold allocateIn
  rw [found, Option.bind_eq_bind, Option.bind_some,
    allocateCommittingIfNeeded_full ordered (by lia)]
  rfl

/-- A large object gets a space of its own, unless the system has no memory for one. -/
theorem copy_large (ready : Ready zone.heap) (full : room zone.heap < size)
    (large : GCHeap.largeThreshold < size) :
    (∃ address next, zone.shallowCopyCommiting system size = .ok (address, next) ∧
        Ready next.heap ∧ bins next.heap = bins zone.heap) ∨
      zone.shallowCopyCommiting system size = .error .outOfMemory := by
  unfold shallowCopyCommiting
  rw [allocateIn_full ready full]
  simp only
  rw [if_pos large]
  unfold createLargeSpace
  cases reserved : zone.heap.reserveMemory system 0 size with
  | none => exact Or.inr rfl
  | some result =>
    obtain ⟨base, heap⟩ := result
    left
    obtain ⟨⟨nextFree, same⟩, -⟩ := GCHeap.reserveMemory_spec reserved
    have ordered : Ordered (.allocatedAt base (base + size)) :=
      ⟨Nat.le_add_right .., Nat.le_add_right .., Nat.le_add_right ..⟩
    obtain ⟨taken, memory, allocated, -, -, kept⟩ :=
      @allocateCommittingIfNeeded_fits system size _ heap.memory ordered (Nat.le_refl _)
    have last : (heap.spaces ++ [GCSpace.allocatedAt base (base + size)])[
        (heap.spaces ++ [GCSpace.allocatedAt base (base + size)]).length - 1]? =
          some (.allocatedAt base (base + size)) := by
      rw [List.length_append, List.length_singleton, Nat.add_sub_cancel,
        List.getElem?_concat_length]
    have placed : (heap.spaces ++ [GCSpace.allocatedAt base (base + size)]).set
        ((heap.spaces ++ [GCSpace.allocatedAt base (base + size)]).length - 1) taken =
          heap.spaces ++ [taken] := by
      rw [List.length_append, List.length_singleton, Nat.add_sub_cancel]
      simp
    simp only [Option.bind_eq_bind, Option.bind_some, allocateIn]
    rw [last, Option.bind_some, allocated]
    subst same
    refine ⟨base, { zone with heap := { zone.heap with
      nextFree := nextFree
      mappings := (base, base + system.pagealign size) :: zone.heap.mappings
      memory := memory
      spaces := zone.heap.spaces ++ [taken] } }, ?_, ?_⟩
    · simp only [Option.bind_some, placed]
      rfl
    · have added : ∀ space ∈ [taken], Ordered space := by
        intro space member
        rw [List.mem_singleton.mp member]
        exact kept
      exact @Ready.append zone.heap _ [taken] ready rfl rfl added

theorem bumpSpace_heap : (zone.bumpSpace system).map Zone.heap = zone.heap.bumpSpace system := by
  unfold bumpSpace
  cases zone.heap.bumpSpace system with
  | none => rfl
  | some heap =>
    simp only [Option.bind_eq_bind, Option.bind_some, Option.map_some, markAsFull]
    split <;> rfl

/-- What the copy of an object of so many bytes does to the room there is. -/
theorem copy_spec (ready : Ready zone.heap) :
    match NextFit.put spaceSize GCHeap.largeThreshold (bins zone.heap) size with
    | none => zone.shallowCopyCommiting system size = .error .outOfOldZone
    | some left => (∃ address next, zone.shallowCopyCommiting system size = .ok (address, next) ∧
        Ready next.heap ∧ bins next.heap = left) ∨
      zone.shallowCopyCommiting system size = .error .outOfMemory ∧
        GCHeap.largeThreshold < size ∧ room zone.heap < size := by
  unfold NextFit.put
  by_cases fits : size ≤ (bins zone.heap).room
  · rw [if_pos fits]
    left
    obtain ⟨address, next, allocated, kept⟩ := @allocateIn_fits zone system size ready fits
    refine ⟨address, next, ?_, kept⟩
    unfold shallowCopyCommiting
    rw [allocated]
  · have full : room zone.heap < size := Nat.lt_of_not_le fits
    rw [if_neg fits]
    by_cases large : GCHeap.largeThreshold < size
    · rw [if_pos large]
      rcases @copy_large zone system size ready full large with copied | failed
      · exact Or.inl copied
      · exact Or.inr ⟨failed, large, full⟩
    · rw [if_neg large]
      have bumping := @bumpSpace_heap zone system
      unfold shallowCopyCommiting
      rw [allocateIn_full ready full]
      simp only
      rw [if_neg large]
      by_cases none_left : (bins zone.heap).spare = 0
      · rw [if_pos none_left]
        rw [bumpSpace_none ready none_left, Option.map_eq_none_iff] at bumping
        simp only [bumping]
      · rw [if_neg none_left]
        obtain ⟨heap, bumped, fresh, whole⟩ :=
          @bumpSpace_ready zone.heap system ready (Nat.pos_of_ne_zero none_left)
        rw [bumped, Option.map_eq_some_iff] at bumping
        obtain ⟨middle, advanced, rfl⟩ := bumping
        have room_eq : room middle.heap = spaceSize := congrArg NextFit.room whole
        have spare_eq : spare middle.heap = spare zone.heap - 1 := congrArg NextFit.spare whole
        have within : GCHeap.largeThreshold ≤ spaceSize := by decide
        obtain ⟨address, next, allocated, kept, left⟩ :=
          @allocateIn_fits middle system size fresh (by lia)
        left
        refine ⟨address, next, ?_, kept, ?_⟩
        · simp only [advanced, allocated]
        · rw [left, room_eq, spare_eq]
          rfl

/-- Where the old zone runs out of regions, a run of next fit has no bin left. -/
theorem copyAll_putAll {sizes : List Nat} (ready : Ready zone.heap)
    (failed : zone.copyAll system sizes = .error .outOfOldZone) :
    NextFit.putAll spaceSize GCHeap.largeThreshold (bins zone.heap) sizes = none := by
  induction sizes generalizing zone with
  | nil => cases failed
  | cons size sizes ih =>
    have spec := @copy_spec zone system size ready
    rw [NextFit.putAll_cons]
    cases placed : NextFit.put spaceSize GCHeap.largeThreshold (bins zone.heap) size with
    | none => rfl
    | some left =>
      rw [placed] at spec
      rw [copyAll] at failed
      obtain ⟨address, next, copied, kept, rfl⟩ | ⟨stopped, -⟩ := spec
      · rw [copied] at failed
        exact ih kept failed
      · rw [stopped] at failed
        cases failed

/-- A group that fits is copied to the space in use. -/
theorem copyAll_group {group sizes : List Nat} (ready : Ready zone.heap)
    (fits : group.sum ≤ room zone.heap) : ∃ next : Zone,
    zone.copyAll system (group ++ sizes) = next.copyAll system sizes ∧ Ready next.heap ∧
      bins next.heap = ⟨room zone.heap - group.sum, spare zone.heap⟩ := by
  induction group generalizing zone with
  | nil => exact ⟨zone, rfl, ready, rfl⟩
  | cons size group ih =>
    rw [List.sum_cons] at fits
    have small : size ≤ room zone.heap := by lia
    have spec := @copy_spec zone system size ready
    have placed : NextFit.put spaceSize GCHeap.largeThreshold (bins zone.heap) size =
        some ⟨room zone.heap - size, spare zone.heap⟩ := if_pos small
    rw [placed] at spec
    obtain ⟨address, next, copied, kept, left⟩ | ⟨-, -, full⟩ := spec
    · have room_eq : room next.heap = room zone.heap - size := congrArg NextFit.room left
      have spare_eq : spare next.heap = spare zone.heap := congrArg NextFit.spare left
      obtain ⟨last, run, ends, rest⟩ := ih kept (by lia)
      refine ⟨last, ?_, ends, ?_⟩
      · rw [List.cons_append, copyAll, copied]
        exact run
      · rw [rest, room_eq, spare_eq, List.sum_cons, Nat.sub_sub]
    · lia

theorem copyAll_spills {left : NextFit} {sizes more : List Nat} (ready : Ready zone.heap)
    (same : bins zone.heap = left)
    (spills : NextFit.Spills spaceSize GCHeap.largeThreshold left sizes) :
    zone.copyAll system (sizes ++ more) = .error .outOfOldZone := by
  induction spills generalizing zone with
  | @last left item group fits full small =>
    have room_eq : room zone.heap = left := congrArg NextFit.room same
    have spare_eq : spare zone.heap = 0 := congrArg NextFit.spare same
    rw [List.append_assoc]
    obtain ⟨next, run, kept, rest⟩ := @copyAll_group zone system group ([item] ++ more) ready (by lia)
    rw [run]
    have spec := @copy_spec next system item kept
    have none_left : NextFit.put spaceSize GCHeap.largeThreshold (bins next.heap) item = none := by
      rw [rest, NextFit.put, if_neg (by simp only; lia), if_neg (by lia), if_pos spare_eq]
    rw [none_left] at spec
    rw [List.singleton_append, copyAll, spec]
  | @next left count item rest group fits full small _ ih =>
    have room_eq : room zone.heap = left := congrArg NextFit.room same
    have spare_eq : spare zone.heap = count + 1 := congrArg NextFit.spare same
    rw [List.append_assoc]
    obtain ⟨middle, run, kept, shape⟩ :=
      @copyAll_group zone system group (item :: rest ++ more) ready (by lia)
    rw [run]
    have spec := @copy_spec middle system item kept
    have bumped : NextFit.put spaceSize GCHeap.largeThreshold (bins middle.heap) item =
        some ⟨spaceSize - item, count⟩ := by
      rw [shape, spare_eq, NextFit.put, if_neg (by simp only; lia), if_neg (by lia),
        if_neg (Nat.succ_ne_zero count)]
      rfl
    rw [bumped] at spec
    obtain ⟨address, last, copied, ends, whole⟩ | ⟨-, large, -⟩ := spec
    · rw [List.cons_append, copyAll, copied]
      exact ih ends whole
    · lia

theorem markAsFull_heap (position : Nat) : (zone.markAsFull position).heap = zone.heap := by
  unfold markAsFull
  split <;> rfl

theorem determineEvacuatedSpaces_heap :
    zone.determineEvacuatedSpaces.2.heap = { zone.heap with memory := zone.chosen.memory } := by
  unfold determineEvacuatedSpaces resetOccupancy
  simp only
  rw [markAsFull_heap, markAsFull_heap]

end Zone

open Heap

/-- A collection that starts: the heap, and the objects it will find alive in the regions that are
evacuated. -/
structure Start where
  regions : Regions
  ready : Ready regions.zone.heap
  live : List Nat
  distinct : live.Nodup
  chosen : ∀ object ∈ live, ∃ region, regions.Copied regions.zone.determineEvacuatedSpaces.1
    (fun object => object ∈ live) region object

namespace Start

variable (start : Start)

def size (object : Nat) : Nat := totalSizeInBytes start.regions.zone.heap.memory object

/-- The copies, in the order in which the objects are found. -/
def evacuates (system : System) (order : List Nat) : Except Failure Zone :=
  start.regions.zone.determineEvacuatedSpaces.2.copyAll system (order.map start.size)

/-- Objects can be dealt to the space in use and to one region after the other so that each time the
next object does not fit, until there is no region left. -/
def Overfull : Prop :=
  ∃ selection : List Nat, selection.Subperm (start.live.map start.size) ∧
    NextFit.Spills spaceSize GCHeap.largeThreshold (bins start.regions.zone.heap) selection

theorem ready_chosen :
    Ready start.regions.zone.determineEvacuatedSpaces.2.heap ∧
      bins start.regions.zone.determineEvacuatedSpaces.2.heap = bins start.regions.zone.heap := by
  rw [Zone.determineEvacuatedSpaces_heap]
  obtain ⟨ordered, current, empty, distinct, ahead⟩ := start.ready
  exact ⟨⟨ordered, current, empty, distinct, ahead⟩, rfl⟩

variable {start} {system : System}

theorem Overfull.fails (overfull : start.Overfull) :
    ∃ order : List Nat, order.Perm start.live ∧
      start.evacuates system order = .error .outOfOldZone := by
  obtain ⟨ready, same⟩ := start.ready_chosen
  obtain ⟨selection, ⟨copy, equal, inside⟩, spills⟩ := overfull
  obtain ⟨rest, whole⟩ := inside.exists_perm_append
  have sized : (selection ++ rest).Perm (start.live.map start.size) :=
    (equal.symm.append_right rest).trans whole.symm
  have listed : Relation.Comp (fun sizes order => sizes = order.map start.size) List.Perm
      (selection ++ rest) start.live := by
    rw [List.eq_map_comp_perm]
    exact sized
  obtain ⟨order, sizes, permuted⟩ := listed
  refine ⟨order, permuted, ?_⟩
  rw [evacuates, ← sizes]
  exact Zone.copyAll_spills ready same spills

theorem overfull_of_fails {order : List Nat} (permuted : order.Perm start.live)
    (failed : start.evacuates system order = .error .outOfOldZone) : start.Overfull := by
  obtain ⟨ready, same⟩ := start.ready_chosen
  have none_left := Zone.copyAll_putAll ready failed
  rw [same] at none_left
  obtain ⟨selection, inside, spills⟩ := NextFit.exists_spills none_left
  exact ⟨selection, inside.subperm.trans (permuted.map start.size).subperm, spills⟩

end Start

/-! ### A heap that cannot be evacuated -/

def fragmentedBase : Nat := 0x100000000

/-- Where the objects of a region end: ten regions with four objects, one full region after the
other, and an empty one. -/
def fragmentedUsed (region : Nat) : Nat :=
  if region < 10 then 209728 else if region < 246 then 262136 else 0

def fragmentedSpace (region : Nat) : GCSpace :=
  let base := fragmentedBase + region * 0x80000
  ⟨base, base + fragmentedUsed region, base + 0x40000, base + 0x40000, base + 0x40000⟩

/-- Headers of objects of 52416 bytes in the first ten regions, of 262120 bytes in the others. -/
def fragmentedMemory : Bytes := fun address =>
  let place := (address - fragmentedBase) % 0x80000
  if (address - fragmentedBase) / 0x80000 < 10 then
    if place % 52432 = 0 then 0xC0 else if place % 52432 = 1 then 0xCC
    else if place % 52432 = 11 then 1 else 0
  else if place = 0 then 0xE8 else if place = 1 then 0xFF else if place = 2 then 3
  else if place = 11 then 1 else 0

def fragmentedObjects (region : Nat) : List Nat :=
  let base := fragmentedBase + region * 0x80000
  if region < 10 then [base + 16, base + 52448, base + 104880, base + 157312]
  else if region < 246 then [base + 16] else []

/-- 247 of the 256 regions of the zone, and none of them left for the evacuation. -/
def fragmented : Zone where
  heap := {
    memory := fragmentedMemory
    spaces := (List.range 247).map fragmentedSpace
    oldZone := ⟨fragmentedBase + 247 * 0x80000, fragmentedBase + 256 * 0x80000, 245, 246, []⟩
    countdown := 0
    gcNeeded := true
    atGCSafepoint := true
    atGCUnsafepoint := false
    nextFree := fragmentedBase + 256 * 0x80000
    mappings := [(fragmentedBase, fragmentedBase + 256 * 0x80000)] }
  base := fragmentedBase
  regions := List.range 247
  occupancy := (List.range 256).map fun region =>
    if region < 10 then 209664 else if region < 245 then 262120
    else if region < 247 then spaceSize else 0

/-- A region that was chosen stays chosen. -/
theorem consider_keeps {zone : Zone} {choice : Zone.Choice} {region : Nat} (next : Nat)
    (taken : choice.evacuated[region]? = some true) :
    (zone.consider choice next).evacuated[region]? = some true := by
  have inside := (List.getElem?_eq_some_iff.mp taken).1
  have set : (choice.evacuated.set next true)[region]? = some true := by
    by_cases same : next = region
    · rw [same, List.getElem?_set_self inside]
    · rw [List.getElem?_set_ne same, taken]
  unfold Zone.consider
  cases zone.regions[next]? with
  | none => exact taken
  | some position =>
    dsimp only
    cases zone.heap.spaces[position]? with
    | none => exact taken
    | some space =>
      dsimp only
      split
      · exact set
      · exact taken

/-- So it is enough to choose it among the first regions. -/
theorem determined_of_first (zone : Zone) {few more region : Nat}
    (count : zone.regionCount = few + more)
    (taken : ((List.range few).foldl zone.consider ⟨zone.availableBytes * 9 / 10,
      zone.occupancy.map fun _ => false, zone.heap.memory⟩).evacuated[region]? = some true) :
    zone.determineEvacuatedSpaces.1[region]? = some true := by
  have rest (regions : List Nat) (choice : Zone.Choice)
      (taken : choice.evacuated[region]? = some true) :
      (regions.foldl zone.consider choice).evacuated[region]? = some true := by
    induction regions generalizing choice with
    | nil => exact taken
    | cons next regions ih => exact ih _ (consider_keeps next taken)
  show zone.chosen.evacuated[region]? = some true
  rw [Zone.chosen, count, List.range_add, List.foldl_append]
  exact rest _ _ taken

theorem fragmented_regions : fragmented.regions = List.range 247 := by
  rw [fragmented]

theorem fragmented_found {position : Nat} (inside : position < 247) :
    fragmented.heap.spaces[position]? = some (fragmentedSpace position) := by
  change ((List.range 247).map fragmentedSpace)[position]? = _
  rw [List.getElem?_map, List.getElem?_range inside]
  rfl

theorem fragmented_available : fragmented.availableBytes * 9 / 10 = 2123366 := by
  have spaces : fragmented.spaces = (List.range 247).map fragmentedSpace := by
    rw [Zone.spaces, fragmented_regions, ← List.filterMap_eq_map]
    exact List.filterMap_congr fun position member => fragmented_found (List.mem_range.mp member)
  have committed : fragmented.committedBytes = 247 * 0x40000 := by
    have each (region : Nat) : (fragmentedSpace region).committedLimit -
        (fragmentedSpace region).base = 0x40000 := Nat.add_sub_cancel_left _ _
    rw [Zone.committedBytes, spaces, List.map_map]
    simp only [Function.comp_def, each, List.map_const', List.length_range]
    exact List.sum_replicate_nat
  rw [Zone.availableBytes, committed]
  rfl

theorem fragmented_begun : ((List.range 10).foldl fragmented.consider
    ⟨fragmented.availableBytes * 9 / 10, fragmented.occupancy.map fun _ => false,
      fragmented.heap.memory⟩).evacuated.take 10 = List.replicate 10 true := by
  rw [fragmented_available]
  decide +kernel

theorem fragmented_chosen : ∀ region < 10,
    fragmented.determineEvacuatedSpaces.1[region]? = some true := by
  intro region inside
  apply @determined_of_first fragmented 10 237 region (by decide +kernel)
  rw [← List.getElem?_take_of_lt inside, fragmented_begun]
  exact List.getElem?_replicate_of_lt inside

theorem fragmented_tiles : ∀ region < 247,
    Tiles fragmentedMemory (fragmentedSpace region).base (fragmentedSpace region).next
      (fragmentedObjects region) := by
  decide +kernel

theorem fragmented_measurable : ∀ region < 247, ∀ object ∈ fragmentedObjects region,
    Measurable fragmentedMemory object := by
  decide +kernel

theorem fragmented_space {space : GCSpace} (member : space ∈ fragmented.heap.spaces) :
    ∃ region < 247, space = fragmentedSpace region := by
  obtain ⟨region, inside, rfl⟩ := List.mem_map.mp member
  exact ⟨region, List.mem_range.mp inside, rfl⟩

theorem fragmentedUsed_le (region : Nat) : fragmentedUsed region ≤ 0x40000 := by
  unfold fragmentedUsed
  split_ifs <;> lia

theorem fragmented_parsed (position : Nat) : ∃ objects, fragmented.heap.Parsed position objects := by
  unfold GCHeap.Parsed
  by_cases inside : position < 247
  · rw [fragmented_found inside]
    exact ⟨_, fragmented_tiles position inside, fragmented_measurable position inside⟩
  · have missing : fragmented.heap.spaces[position]? = none := by
      apply List.getElem?_eq_none
      change ((List.range 247).map fragmentedSpace).length ≤ position
      simpa using inside
    rw [missing]
    exact ⟨[], rfl⟩

theorem fragmented_laid : fragmented.heap.Laid where
  spaces := by
    intro space member
    obtain ⟨region, inside, rfl⟩ := fragmented_space member
    have used := fragmentedUsed_le region
    constructor <;> simp only [fragmentedSpace] <;> lia
  apart := by
    change ((List.range 247).map fragmentedSpace).Pairwise GCSpace.Apart
    rw [List.pairwise_map]
    apply List.pairwise_lt_range.imp
    intro region other before
    left
    simp only [fragmentedSpace]
    lia
  mapped := by
    intro space member
    obtain ⟨region, inside, rfl⟩ := fragmented_space member
    refine ⟨_, List.mem_singleton_self _, ?_⟩
    simp only [fragmentedSpace]
    lia
  zoneMapped := ⟨_, List.mem_singleton_self _, by decide +kernel⟩
  ahead := by
    intro space member
    obtain ⟨region, inside, rfl⟩ := fragmented_space member
    left
    change (fragmentedSpace region).reservedLimit ≤ fragmentedBase + 247 * 0x80000
    simp only [fragmentedSpace]
    lia
  regions := ⟨9, by decide +kernel⟩

def fragmentedRegions : Regions where
  zone := fragmented
  parsable := ⟨fragmented_laid, fragmented_parsed⟩
  word := by decide +kernel
  placed := by
    intro region position found
    obtain ⟨inside, same⟩ := List.getElem?_eq_some_iff.mp found
    have region_lt : region < 247 := by simpa [fragmented] using inside
    have position_eq : region = position := by simpa [fragmented] using same
    subst position_eq
    exact ⟨_, fragmented_found region_lt, rfl, rfl⟩
  within := by decide +kernel
  beside := by
    intro position space found missing
    have inside := (List.getElem?_eq_some_iff.mp found).1
    change position < ((List.range 247).map fragmentedSpace).length at inside
    rw [List.length_map, List.length_range] at inside
    rw [fragmented_regions] at missing
    exact absurd (List.mem_range.mpr inside) missing

theorem fragmented_ready : Heap.Ready fragmented.heap where
  ordered := by
    intro space member
    obtain ⟨region, inside, rfl⟩ := fragmented_space member
    have used := fragmentedUsed_le region
    constructor <;> simp only [fragmentedSpace] <;> lia
  current := by decide +kernel
  empty := by
    intro position member
    rw [List.mem_singleton.mp member]
    exact ⟨_, fragmented_found (by decide), by decide, by decide +kernel⟩
  distinct := by decide +kernel
  ahead := ⟨9, by decide +kernel⟩

def fragmentedStart : Start where
  regions := fragmentedRegions
  ready := fragmented_ready
  live := (List.range 10).flatMap fragmentedObjects
  distinct := by decide +kernel
  chosen := by
    intro object member
    obtain ⟨region, inside, object_in⟩ := List.mem_flatMap.mp member
    have region_lt := List.mem_range.mp inside
    refine ⟨region, fragmented_chosen region region_lt, ⟨region, ?_, ?_⟩, member⟩
    · change fragmented.regions[region]? = some region
      rw [fragmented_regions]
      exact List.getElem?_range (by omega)
    · have parsed : fragmented.heap.Parsed region (fragmentedObjects region) := by
        unfold GCHeap.Parsed
        rw [fragmented_found (by omega)]
        exact ⟨fragmented_tiles region (by omega), fragmented_measurable region (by omega)⟩
      change object ∈ fragmented.heap.objectsIn region
      rw [parsed.objectsIn_eq]
      exact object_in

end Egg.Collector
