import Mathlib.Data.List.Forall2
import Egg.Memory.Heap

/-! Parsable heaps: spaces that do not overlap, each filled with objects up to its next free byte.
Allocation keeps them so, and adds its object at the end of one space. -/
namespace Egg.Memory

open Egg.Data HeapObject

/-! ### Walking a space -/

theorem objectsDo_eq {memory : Bytes} {start next : Nat} {objects : List Nat}
    (tiles : Tiles memory start next objects)
    (measurable : ∀ object ∈ objects, Measurable memory object) :
    GCSpace.objectsDo memory next start = objects := by
  induction objects generalizing start with
  | nil =>
    have ended : start = next := tiles
    rw [GCSpace.objectsDo, if_neg (by omega)]
  | cons object objects ih =>
    have above := tiles.1.above
    have rest := tiles.2.le
    have here : Measurable memory object := measurable object (List.mem_cons_self ..)
    rw [GCSpace.objectsDo, if_pos (by omega)]
    simp only [tiles.1.object_eq here, nextHeader_eq here]
    rw [ih tiles.2 fun other member => measurable other (List.mem_cons_of_mem _ member)]

/-! ### The layout of a heap -/

namespace GCSpace

/-- The limits of a space are in order, and an `int` holds its size. -/
structure Laid (space : GCSpace) : Prop where
  next : space.base ≤ space.next
  committed : space.next ≤ space.committedLimit
  soft : space.softLimit ≤ space.committedLimit
  reserved : space.committedLimit ≤ space.reservedLimit
  size : space.reservedLimit < space.base + 2 ^ 31

/-- The memory reserved for two spaces does not overlap. -/
def Apart (space other : GCSpace) : Prop :=
  space.reservedLimit ≤ other.base ∨ other.reservedLimit ≤ space.base

end GCSpace

namespace GCHeap

/-- Every space stands in memory that is reserved, apart from the others and from what the zone
has left. -/
structure Laid (heap : GCHeap) : Prop where
  spaces : ∀ space ∈ heap.spaces, space.Laid
  apart : heap.spaces.Pairwise GCSpace.Apart
  mapped : ∀ space ∈ heap.spaces, ∃ mapping ∈ heap.mappings,
    mapping.1 ≤ space.base ∧ space.reservedLimit ≤ mapping.2
  zoneMapped : ∃ mapping ∈ heap.mappings,
    mapping.1 ≤ heap.oldZone.nextFree ∧ heap.oldZone.limit ≤ mapping.2
  ahead : ∀ space ∈ heap.spaces,
    space.reservedLimit ≤ heap.oldZone.nextFree ∨ heap.oldZone.limit ≤ space.base
  regions : ∃ count, heap.oldZone.limit = heap.oldZone.nextFree + count * (spaceSize + spaceSize)

/-- The space at the position is full of these objects up to its next free byte. -/
def Parsed (heap : GCHeap) (index : Nat) (objects : List Nat) : Prop :=
  match heap.spaces[index]? with
  | some space => Tiles heap.memory space.base space.next objects ∧
      ∀ object ∈ objects, Measurable heap.memory object
  | none => objects = []

/-- The objects of the space at the position, as a walk finds them. -/
def objectsIn (heap : GCHeap) (index : Nat) : List Nat :=
  match heap.spaces[index]? with
  | some space => space.objects heap.memory
  | none => []

theorem Parsed.objectsIn_eq {heap : GCHeap} {index : Nat} {objects : List Nat}
    (parsed : heap.Parsed index objects) : heap.objectsIn index = objects := by
  rw [Parsed] at parsed
  rw [objectsIn]
  split at parsed
  · exact objectsDo_eq parsed.1 parsed.2
  · exact parsed.symm

/-- A heap that can be walked. -/
structure Parsable (heap : GCHeap) : Prop where
  laid : heap.Laid
  parsed : ∀ index, ∃ objects, heap.Parsed index objects

/-- A heap with the same objects, and room for others. -/
structure Extends (heap other : GCHeap) : Prop where
  kept : ∀ (index : Nat) (space : GCSpace), heap.spaces[index]? = some space → ∃ grown : GCSpace,
    other.spaces[index]? = some grown ∧ grown.base = space.base ∧ grown.next = space.next
  fresh : ∀ (index : Nat) (space : GCSpace), heap.spaces[index]? = none →
    other.spaces[index]? = some space → space.next = space.base
  memory : ∀ space ∈ heap.spaces, ∀ place, space.base ≤ place → place < space.next →
    other.memory place = heap.memory place

variable {heap middle other : GCHeap} {index : Nat} {objects : List Nat}

theorem Extends.refl (heap : GCHeap) : heap.Extends heap where
  kept := fun _ space found => ⟨space, found, rfl, rfl⟩
  fresh := fun _ _ absent found => by rw [absent] at found; cases found
  memory := fun _ _ _ _ _ => rfl

theorem Extends.trans (first : heap.Extends middle) (second : middle.Extends other) :
    heap.Extends other where
  kept := by
    intro index space found
    obtain ⟨grown, there, base, next⟩ := first.kept index space found
    obtain ⟨last, here, base', next'⟩ := second.kept index grown there
    exact ⟨last, here, base'.trans base, next'.trans next⟩
  fresh := by
    intro index space absent found
    cases there : middle.spaces[index]? with
    | none => exact second.fresh index space there found
    | some grown =>
      obtain ⟨last, here, base, next⟩ := second.kept index grown there
      obtain rfl := Option.some.inj (here.symm.trans found)
      rw [base, next]
      exact first.fresh index grown absent there
  memory := by
    intro space member place above below
    obtain ⟨index, found⟩ := List.mem_iff_getElem?.mp member
    obtain ⟨grown, there, base, next⟩ := first.kept index space found
    rw [second.memory grown (List.mem_of_getElem? there) place (base ▸ above) (next ▸ below)]
    exact first.memory space member place above below

theorem Extends.parsed (grows : heap.Extends other) (parsed : heap.Parsed index objects) :
    other.Parsed index objects := by
  rw [Parsed] at parsed ⊢
  cases found : heap.spaces[index]? with
  | none =>
    rw [found] at parsed
    have empty : objects = [] := parsed
    cases there : other.spaces[index]? with
    | none => exact empty
    | some space =>
      rw [empty]
      exact ⟨(grows.fresh index space found there).symm, nofun⟩
  | some space =>
    rw [found] at parsed
    obtain ⟨tiles, measurable⟩ := parsed
    obtain ⟨grown, there, base, next⟩ := grows.kept index space found
    have equal := grows.memory space (List.mem_of_getElem? found)
    simp only [there, base, next]
    exact ⟨tiles.congr equal, fun object member =>
      (tiles.same_header member equal).measurable (measurable object member)⟩

/-! ### What keeps the layout -/

theorem Laid.apart_of_ne {left right : Nat} {space beside : GCSpace} (laid : heap.Laid)
    (here : heap.spaces[left]? = some space) (there : heap.spaces[right]? = some beside)
    (different : left ≠ right) : space.Apart beside := by
  obtain ⟨leftInside, leftEq⟩ := List.getElem?_eq_some_iff.mp here
  obtain ⟨rightInside, rightEq⟩ := List.getElem?_eq_some_iff.mp there
  have pairs := List.pairwise_iff_getElem.mp laid.apart
  rcases Nat.lt_or_gt_of_ne different with before | after
  · have apart := pairs left right leftInside rightInside before
    rwa [leftEq, rightEq] at apart
  · have apart := pairs right left rightInside leftInside after
    rw [leftEq, rightEq] at apart
    exact Or.symm apart

/-- The reserved memory of a space beyond its next free byte holds no object of any space. -/
theorem Laid.unused {space used : GCSpace} (laid : heap.Laid)
    (found : heap.spaces[index]? = some space) (place : Nat) (free : space.next ≤ place)
    (reserved : place < space.reservedLimit) (member : used ∈ heap.spaces) :
    place < used.base ∨ used.next ≤ place := by
  obtain ⟨other, there⟩ := List.mem_iff_getElem?.mp member
  by_cases same : index = other
  · rw [← same, found] at there
    obtain rfl := Option.some.inj there
    exact Or.inr free
  · have ordered := laid.spaces space (List.mem_of_getElem? found)
    have usedOrdered := laid.spaces used member
    have baseNext := ordered.next
    have usedCommitted := usedOrdered.committed
    have usedReserved := usedOrdered.reserved
    rcases laid.apart_of_ne found there same with below | above
    · exact Or.inl (by omega)
    · exact Or.inr (by omega)

/-- A space may fill up or be committed where it is. -/
theorem Laid.set {space grown : GCSpace} (laid : heap.Laid)
    (found : heap.spaces[index]? = some space) (ordered : grown.Laid)
    (base : grown.base = space.base) (reserved : grown.reservedLimit = space.reservedLimit)
    (memory : Bytes) :
    Laid { heap with memory, spaces := heap.spaces.set index grown } := by
  have member := List.mem_of_getElem? found
  have either : ∀ one ∈ heap.spaces.set index grown, one ∈ heap.spaces ∨ one = grown :=
    fun one => List.mem_or_eq_of_mem_set
  refine ⟨fun one there => ?_, ?_, fun one there => ?_, laid.zoneMapped, fun one there => ?_,
    laid.regions⟩
  · rcases either one there with old | rfl
    · exact laid.spaces one old
    · exact ordered
  · let extent : GCSpace → Nat × Nat := fun space => (space.base, space.reservedLimit)
    have same : (heap.spaces.set index grown).map extent = heap.spaces.map extent := by
      have equal : extent grown = extent space := Prod.ext base reserved
      obtain ⟨inside, rfl⟩ := List.getElem?_eq_some_iff.mp found
      rw [List.map_set, equal, ← List.getElem_map (h := by simpa using inside) extent,
        List.set_getElem_self]
    have before : (heap.spaces.map extent).Pairwise fun one two => one.2 ≤ two.1 ∨ two.2 ≤ one.1 :=
      List.pairwise_map.mpr laid.apart
    rw [← same] at before
    exact (List.pairwise_map (f := extent)).mp before
  · rcases either one there with old | rfl
    · exact laid.mapped one old
    · rw [base, reserved]
      exact laid.mapped space member
  · rcases either one there with old | rfl
    · exact laid.ahead one old
    · rw [base, reserved]
      exact laid.ahead space member

theorem Extends.set {space : GCSpace} {memory : Bytes} (grown : GCSpace)
    (found : heap.spaces[index]? = some space) (base : grown.base = space.base)
    (next : grown.next = space.next) (same : ∀ used ∈ heap.spaces, ∀ place, used.base ≤ place →
      place < used.next → memory place = heap.memory place) :
    heap.Extends { heap with memory, spaces := heap.spaces.set index grown } where
  kept := by
    intro other beside there
    obtain ⟨inside, _⟩ := List.getElem?_eq_some_iff.mp found
    by_cases here : index = other
    · rw [← here, found] at there
      obtain rfl := Option.some.inj there
      exact ⟨grown, by rw [← here]; exact List.getElem?_set_self inside, base, next⟩
    · exact ⟨beside, by rw [← there]; exact List.getElem?_set_ne here, rfl, rfl⟩
  fresh := by
    intro other beside absent there
    have length := List.getElem?_eq_none_iff.mp absent
    have inside := (List.getElem?_eq_some_iff.mp there).1
    rw [List.length_set] at inside
    omega
  memory := same

/-! ### New spaces -/

theorem allocatedAt_laid {base limit : Nat} (ordered : base ≤ limit) (size : limit < base + 2 ^ 31) :
    (GCSpace.allocatedAt base limit).Laid :=
  ⟨Nat.le_refl _, Nat.le_refl _, Nat.le_refl _, ordered, size⟩

theorem Extends.append {base limit : Nat} (spaces : other.spaces = heap.spaces ++
    [.allocatedAt base limit]) (memory : other.memory = heap.memory) : heap.Extends other where
  kept := by
    intro index space found
    have inside := (List.getElem?_eq_some_iff.mp found).1
    exact ⟨space, by rw [spaces, List.getElem?_append_left inside, found], rfl, rfl⟩
  fresh := by
    intro index space absent found
    have outside := List.getElem?_eq_none_iff.mp absent
    rw [spaces, List.getElem?_append_right outside] at found
    obtain rfl := List.mem_singleton.mp (List.mem_of_getElem? found)
    rfl
  memory := fun _ _ _ _ _ => by rw [memory]

/-- A new space apart from all others. -/
theorem Laid.append {base limit : Nat} (laid : heap.Laid)
    (spaces : other.spaces = heap.spaces ++ [.allocatedAt base limit]) (ordered : base ≤ limit)
    (size : limit < base + 2 ^ 31)
    (apart : ∀ space ∈ heap.spaces, space.reservedLimit ≤ base ∨ limit ≤ space.base)
    (mappings : ∀ mapping ∈ heap.mappings, mapping ∈ other.mappings)
    (mapped : ∃ mapping ∈ other.mappings, mapping.1 ≤ base ∧ limit ≤ mapping.2)
    (zone : other.oldZone.limit = heap.oldZone.limit ∧
      heap.oldZone.nextFree ≤ other.oldZone.nextFree)
    (ahead : limit ≤ other.oldZone.nextFree ∨ other.oldZone.limit ≤ base)
    (regions : ∃ count,
      other.oldZone.limit = other.oldZone.nextFree + count * (spaceSize + spaceSize)) :
    other.Laid := by
  have either : ∀ one ∈ other.spaces, one ∈ heap.spaces ∨ one = .allocatedAt base limit := by
    intro one member
    rw [spaces, List.mem_append, List.mem_singleton] at member
    exact member
  refine ⟨fun one member => ?_, ?_, fun one member => ?_, ?_, fun one member => ?_, regions⟩
  · rcases either one member with old | rfl
    · exact laid.spaces one old
    · exact allocatedAt_laid ordered size
  · rw [spaces]
    refine List.pairwise_append.mpr ⟨laid.apart, List.pairwise_singleton .., ?_⟩
    intro space member last there
    obtain rfl := List.mem_singleton.mp there
    exact apart space member
  · rcases either one member with old | rfl
    · obtain ⟨mapping, there, inside⟩ := laid.mapped one old
      exact ⟨mapping, mappings mapping there, inside⟩
    · exact mapped
  · obtain ⟨mapping, there, below, above⟩ := laid.zoneMapped
    exact ⟨mapping, mappings mapping there, Nat.le_trans below zone.2, zone.1 ▸ above⟩
  · rcases either one member with old | rfl
    · rw [zone.1]
      exact (laid.ahead one old).imp_left (Nat.le_trans · zone.2)
    · exact ahead

theorem createEmptySpace_spec (laid : heap.Laid) (created : heap.createEmptySpace = some other) :
    other.Laid ∧ heap.Extends other := by
  rw [createEmptySpace] at created
  split at created
  · cases created
  next room =>
    obtain rfl := Option.some.inj created
    obtain ⟨count, regions⟩ := laid.regions
    cases count with
    | zero => omega
    | succ count =>
      have size : spaceSize = 262144 := rfl
      have more : heap.oldZone.limit = heap.oldZone.nextFree + spaceSize + spaceSize +
          count * (spaceSize + spaceSize) := by rw [regions, Nat.succ_mul]; omega
      refine ⟨laid.append rfl (by omega) (by omega) (fun space member => ?_) (fun _ => id) ?_
        ⟨rfl, by simp only; omega⟩ (Or.inl (by simp only; omega)) ⟨count, more⟩,
        Extends.append rfl rfl⟩
      · rcases laid.ahead space member with below | above
        · exact Or.inl below
        · exact Or.inr (by omega)
      · obtain ⟨mapping, there, below, above⟩ := laid.zoneMapped
        exact ⟨mapping, there, below, by omega⟩

theorem le_pagealign (system : System) (address : Nat) : address ≤ system.pagealign address := by
  have positive := system.positive
  have whole := Nat.div_add_mod (address + (system.pageSize - 1)) system.pageSize
  have rest := Nat.mod_lt (address + (system.pageSize - 1)) positive
  rw [System.pagealign, Nat.mul_comm]
  omega

/-- What is reserved is apart from all that was. -/
theorem reserveFrom_spec {system : System} {size start base : Nat}
    (reserved : heap.reserveFrom system size start = some (base, other)) :
    (∃ nextFree, other = { heap with
      nextFree := nextFree
      mappings := (base, base + system.pagealign size) :: heap.mappings }) ∧
    base + system.pagealign size ≤ 2 ^ 47 ∧
    ∀ mapping ∈ heap.mappings, base + system.pagealign size ≤ mapping.1 ∨ mapping.2 ≤ base := by
  induction start using reserveFrom.induct heap system size with
  | case1 start mapped =>
    rw [reserveFrom, if_pos mapped] at reserved
    obtain ⟨rfl, rfl⟩ := Prod.mk.inj (Option.some.inj reserved)
    simp only [System.mappable, Bool.and_eq_true, decide_eq_true_eq, List.all_eq_true] at mapped
    exact ⟨⟨_, rfl⟩, mapped.1.2.2, mapped.2⟩
  | case2 start unmapped last =>
    rw [reserveFrom, if_neg unmapped, if_pos last] at reserved
    cases reserved
  | case3 start unmapped more ih =>
    rw [reserveFrom, if_neg unmapped, if_neg more] at reserved
    exact ih reserved

theorem reserveMemory_spec {system : System} {start size base : Nat}
    (reserved : heap.reserveMemory system start size = some (base, other)) :
    (∃ nextFree, other = { heap with
      nextFree := nextFree
      mappings := (base, base + system.pagealign size) :: heap.mappings }) ∧
    base + system.pagealign size ≤ 2 ^ 47 ∧
    ∀ mapping ∈ heap.mappings, base + system.pagealign size ≤ mapping.1 ∨ mapping.2 ≤ base :=
  reserveFrom_spec reserved

theorem addNewSpaceSized_spec {system : System} {size : Nat} (laid : heap.Laid)
    (added : heap.addNewSpaceSized system size = some other) :
    size < 2 ^ 31 ∧ other.Laid ∧ heap.Extends other ∧
      ∃ base, other.spaces = heap.spaces ++ [.allocatedAt base (base + size)] := by
  rw [addNewSpaceSized] at added
  obtain ⟨⟨base, middle⟩, reserving, rest⟩ := Option.bind_eq_some_iff.mp added
  obtain rfl := Option.some.inj rest
  obtain ⟨⟨nextFree, rfl⟩, below, apart⟩ := reserveMemory_spec reserving
  have covers := le_pagealign system (signExtended size)
  have small : size < 2 ^ 31 := by
    by_contra large
    rw [signExtended, if_neg large] at covers below
    omega
  rw [signExtended, if_pos small] at covers below apart ⊢
  refine ⟨small, laid.append rfl (by omega) (by omega) (fun space member => ?_)
    (fun mapping => List.mem_cons_of_mem _) ⟨_, List.mem_cons_self .., Nat.le_refl _, by simp only; omega⟩
    ⟨rfl, Nat.le_refl _⟩ ?_ laid.regions, Extends.append rfl rfl, base, rfl⟩
  · obtain ⟨mapping, there, low, high⟩ := laid.mapped space member
    rcases apart mapping there with before | after
    · exact Or.inr (by omega)
    · exact Or.inl (by omega)
  · obtain ⟨mapping, there, low, high⟩ := laid.zoneMapped
    rcases apart mapping there with before | after
    · exact Or.inl (by simp only; omega)
    · exact Or.inr (by simp only; omega)

/-! ### Other spaces of the zone -/

theorem Laid.congr (laid : heap.Laid) (spaces : other.spaces = heap.spaces)
    (mappings : other.mappings = heap.mappings)
    (nextFree : other.oldZone.nextFree = heap.oldZone.nextFree)
    (limit : other.oldZone.limit = heap.oldZone.limit) : other.Laid := by
  refine ⟨?_, ?_, ?_, ?_, ?_, ?_⟩ <;> simp only [spaces, mappings, nextFree, limit]
  · exact laid.spaces
  · exact laid.apart
  · exact laid.mapped
  · exact laid.zoneMapped
  · exact laid.ahead
  · exact laid.regions

theorem Extends.congr (spaces : other.spaces = heap.spaces) (memory : other.memory = heap.memory) :
    heap.Extends other where
  kept := fun _ space found => ⟨space, spaces ▸ found, rfl, rfl⟩
  fresh := fun _ _ absent found => by rw [spaces, absent] at found; cases found
  memory := fun _ _ _ _ _ => by rw [memory]

/-- Committing changes the limit of a space, and clears memory that holds no object. -/
theorem commitMemoryUpTo_spec {system : System} {space committed : GCSpace} {memory : Bytes}
    {address : Nat} (laid : heap.Laid) (found : heap.spaces[index]? = some space)
    (commit : space.commitMemoryUpTo system heap.memory address = some (committed, memory)) :
    (∃ newLimit, committed = { space with committedLimit := newLimit } ∧ address ≤ newLimit ∧
      newLimit ≤ space.reservedLimit) ∧
    ∀ used ∈ heap.spaces, ∀ place, used.base ≤ place → place < used.next →
      memory place = heap.memory place := by
  have ordered := laid.spaces space (List.mem_of_getElem? found)
  rw [GCSpace.commitMemoryUpTo] at commit
  split at commit
  · cases commit
  next enough =>
    obtain ⟨rfl, rfl⟩ := Prod.mk.inj (Option.some.inj commit)
    refine ⟨⟨_, rfl, by omega, Nat.min_le_right ..⟩, fun used member place above below => ?_⟩
    refine Bytes.fill_outside ?_
    by_contra inside
    have committedNext := ordered.committed
    have free := laid.unused found place (by omega) (by omega) member
    omega

theorem commitSpace_spec {system : System} (laid : heap.Laid)
    (committing : heap.commitSpace system index = some other) :
    other.Laid ∧ heap.Extends other := by
  rw [commitSpace] at committing
  obtain ⟨space, found, rest⟩ := Option.bind_eq_some_iff.mp committing
  have ordered := laid.spaces space (List.mem_of_getElem? found)
  have next := ordered.next
  have committedNext := ordered.committed
  have reserved := ordered.reserved
  cases commit : space.commitMemoryUpTo system heap.memory
      (space.committedLimit + space.reservedSize) with
  | none =>
    rw [commit] at rest
    obtain rfl := Option.some.inj rest
    have grown : GCSpace.Laid { space with softLimit := space.committedLimit } :=
      ⟨next, committedNext, Nat.le_refl _, reserved, ordered.size⟩
    exact ⟨laid.set found grown rfl rfl _, Extends.set _ found rfl rfl fun _ _ _ _ _ => rfl⟩
  | some result =>
    obtain ⟨committed, memory⟩ := result
    rw [commit] at rest
    obtain rfl := Option.some.inj rest
    obtain ⟨⟨newLimit, rfl, above, below⟩, same⟩ := commitMemoryUpTo_spec laid found commit
    have grown : GCSpace.Laid
        { space with softLimit := newLimit, committedLimit := newLimit } :=
      ⟨next, by simp only; omega, Nat.le_refl _, below, ordered.size⟩
    exact ⟨laid.set found grown rfl rfl _, Extends.set _ found rfl rfl same⟩

theorem bumpSpace_spec {system : System} (laid : heap.Laid)
    (bumped : heap.bumpSpace system = some other) : other.Laid ∧ heap.Extends other := by
  rw [bumpSpace] at bumped
  obtain ⟨middle, filling, rest⟩ := Option.bind_eq_some_iff.mp bumped
  obtain ⟨index, _, committing⟩ := Option.bind_eq_some_iff.mp rest
  have moved : heap.advance.Laid := laid.congr rfl rfl rfl rfl
  have grows : heap.Extends heap.advance := Extends.congr rfl rfl
  have filled : middle.Laid ∧ heap.Extends middle := by
    split at filling
    · obtain ⟨created, more⟩ := createEmptySpace_spec moved filling
      exact ⟨created, grows.trans more⟩
    · obtain rfl := Option.some.inj filling
      exact ⟨moved, grows⟩
  have popped : middle.Extends (middle.popEmptySpace index) := Extends.congr rfl rfl
  have ready : (middle.popEmptySpace index).Laid := filled.1.congr rfl rfl rfl rfl
  have committed := commitSpace_spec ready committing
  exact ⟨committed.1, filled.2.trans (popped.trans committed.2)⟩

theorem Parsable.of_extends (parsable : heap.Parsable) (laid : other.Laid)
    (grows : heap.Extends other) : other.Parsable :=
  ⟨laid, fun index => (parsable.parsed index).imp fun _ parsed => grows.parsed parsed⟩

/-- A new heap is parsable. -/
theorem new_parsable {system : System} {nextFree : Nat} (created : new system nextFree = some heap) :
    heap.Parsable := by
  rw [new] at created
  obtain ⟨withEden, eden, rest⟩ := Option.bind_eq_some_iff.mp created
  obtain ⟨⟨address, withZone⟩, zone, rest⟩ := Option.bind_eq_some_iff.mp rest
  obtain ⟨first, bump, last⟩ := Option.bind_eq_some_iff.mp rest
  obtain ⟨⟨base, edenHeap⟩, reserving, added⟩ := Option.bind_eq_some_iff.mp eden
  obtain rfl := Option.some.inj added
  obtain ⟨⟨edenFree, rfl⟩, _, _⟩ := reserveMemory_spec reserving
  obtain ⟨⟨zoneFree, rfl⟩, _, apart⟩ := reserveMemory_spec zone
  have edenSize : signExtended (16 * mb) = 16 * mb := rfl
  have edenPages := le_pagealign system (signExtended (16 * mb))
  have zonePages := le_pagealign system (128 * mb)
  have beside := apart _ (List.mem_singleton_self _)
  have megabyte : mb = 1048576 := rfl
  have space : spaceSize = 262144 := rfl
  simp only [edenSize] at *
  have built : Laid
      { memory := fun _ => 0, spaces := [.allocatedAt base (base + 16 * mb)],
        oldZone := ⟨address, address + 128 * mb, 0, 0, []⟩, countdown := mb, gcNeeded := false,
        atGCSafepoint := false, atGCUnsafepoint := false, nextFree := zoneFree,
        mappings := [(address, address + system.pagealign (128 * mb)),
          (base, base + system.pagealign (16 * mb))] } := by
    refine ⟨fun one member => ?_, List.pairwise_singleton .., fun one member => ?_,
      ⟨_, List.mem_cons_self .., Nat.le_refl _, ?_⟩, fun one member => ?_, ⟨256, ?_⟩⟩
    · rw [List.mem_singleton.mp member]
      exact allocatedAt_laid (by omega) (by omega)
    · rw [List.mem_singleton.mp member]
      refine ⟨_, List.mem_cons_of_mem _ (List.mem_singleton_self _), Nat.le_refl _, ?_⟩
      exact Nat.add_le_add_left edenPages base
    · exact Nat.add_le_add_left zonePages address
    · rw [List.mem_singleton.mp member]
      simp only [GCSpace.allocatedAt] at beside ⊢
      omega
    · simp only
      omega
  obtain ⟨firstLaid, firstGrows⟩ := bumpSpace_spec built bump
  obtain ⟨lastLaid, lastGrows⟩ := bumpSpace_spec firstLaid last
  refine Parsable.of_extends ⟨built, fun index => ⟨[], ?_⟩⟩ lastLaid (firstGrows.trans lastGrows)
  rw [Parsed]
  cases index with
  | zero => exact ⟨rfl, nofun⟩
  | succ index => exact rfl

/-! ### Taking bytes of a space -/

/-- The heap gives out so many bytes at the next free address of a space. -/
structure Takes (heap : GCHeap) (size index address : Nat) (other : GCHeap) : Prop where
  laid : other.Laid
  small : size < 2 ^ 31
  space : ∃ space, heap.spaces[index]? = some space ∧ space.next = address ∧
    other.spaces = heap.spaces.set index { space with next := address + size } ∧
    address + size ≤ space.reservedLimit
  memory : other.memory = heap.memory

theorem allocateIfPossibleCurrent_spec {size address : Nat} (laid : heap.Laid)
    (allocated : heap.allocateIfPossibleCurrent size = some (address, other)) :
    heap.Takes size heap.oldZone.current address other ∧
      other.oldZone.current = heap.oldZone.current := by
  rw [allocateIfPossibleCurrent] at allocated
  obtain ⟨space, found, rest⟩ := Option.bind_eq_some_iff.mp allocated
  obtain ⟨⟨start, taken⟩, taking, rest⟩ := Option.bind_eq_some_iff.mp rest
  obtain ⟨rfl, rfl⟩ := Prod.mk.inj (Option.some.inj rest)
  rw [GCSpace.allocateIfPossible] at taking
  split at taking
  next room =>
    obtain ⟨rfl, rfl⟩ := Prod.mk.inj (Option.some.inj taking)
    have ordered := laid.spaces space (List.mem_of_getElem? found)
    have next := ordered.next
    have soft := ordered.soft
    have reserved := ordered.reserved
    have length := ordered.size
    have grown : GCSpace.Laid { space with next := space.next + size } :=
      ⟨Nat.le_trans next (Nat.le_add_right ..), by simp only; omega, soft, reserved, length⟩
    exact ⟨⟨laid.set found grown rfl rfl _, by omega, ⟨space, found, rfl, rfl, by omega⟩, rfl⟩, rfl⟩
  · cases taking

theorem Takes.congr {size address : Nat} {last : GCHeap} (takes : heap.Takes size index address other)
    (spaces : last.spaces = other.spaces) (memory : last.memory = other.memory)
    (mappings : last.mappings = other.mappings) (zone : last.oldZone = other.oldZone) :
    heap.Takes size index address last := by
  obtain ⟨laid, small, ⟨space, found, next, taken, room⟩, same⟩ := takes
  exact ⟨laid.congr spaces mappings (by rw [zone]) (by rw [zone]), small,
    ⟨space, found, next, spaces.trans taken, room⟩, memory.trans same⟩

theorem allocateCommittingIfNeeded_spec {system : System} {space taken : GCSpace}
    {memory : Bytes} {size address : Nat} (laid : heap.Laid) (small : size < 2 ^ 31)
    (found : heap.spaces[index]? = some space)
    (allocated : space.allocateCommittingIfNeeded system heap.memory size =
      some (address, taken, memory)) :
    ∃ middle : GCHeap, heap.Extends middle ∧ middle.Laid ∧ middle.Takes size index address
      { heap with memory, spaces := heap.spaces.set index taken } := by
  have ordered := laid.spaces space (List.mem_of_getElem? found)
  have next := ordered.next
  have committedNext := ordered.committed
  have soft := ordered.soft
  have reserved := ordered.reserved
  have length := ordered.size
  rw [GCSpace.allocateCommittingIfNeeded] at allocated
  split at allocated
  next room =>
    obtain ⟨rfl, rest⟩ := Prod.mk.inj (Option.some.inj allocated)
    obtain ⟨rfl, rfl⟩ := Prod.mk.inj rest
    have grown : GCSpace.Laid { space with next := space.next + size } :=
      ⟨Nat.le_trans next (Nat.le_add_right ..), by simp only; omega, soft, reserved, length⟩
    exact ⟨heap, Extends.refl heap, laid, laid.set found grown rfl rfl _, small,
      ⟨space, found, rfl, rfl, by omega⟩, rfl⟩
  · obtain ⟨⟨committed, filled⟩, commit, rest⟩ := Option.bind_eq_some_iff.mp allocated
    obtain ⟨rfl, pair⟩ := Prod.mk.inj (Option.some.inj rest)
    obtain ⟨rfl, rfl⟩ := Prod.mk.inj pair
    obtain ⟨⟨newLimit, rfl, above, below⟩, same⟩ := commitMemoryUpTo_spec laid found commit
    let wider : GCSpace := { space with softLimit := newLimit, committedLimit := newLimit }
    have widerLaid : wider.Laid := ⟨next, by simp only [wider]; omega, Nat.le_refl _, below, length⟩
    have grown : GCSpace.Laid { wider with next := space.next + size } :=
      ⟨Nat.le_trans next (Nat.le_add_right ..), above, Nat.le_refl _, below, length⟩
    have inside := (List.getElem?_eq_some_iff.mp found).1
    let middle : GCHeap := { heap with memory := filled, spaces := heap.spaces.set index wider }
    have there : middle.spaces[index]? = some wider := List.getElem?_set_self inside
    refine ⟨middle, Extends.set wider found rfl rfl same, laid.set found widerLaid rfl rfl _,
      laid.set found grown rfl rfl _, small, ⟨wider, there, rfl, ?_, ?_⟩, rfl⟩
    · exact (List.set_set ..).symm
    · simp only [wider]
      omega

theorem allocateLarge_spec {system : System} {size address : Nat} (laid : heap.Laid)
    (allocated : heap.allocateLarge system size = some (index, address, other)) :
    ∃ middle : GCHeap, heap.Extends middle ∧ middle.Laid ∧ middle.Takes size index address other := by
  rw [allocateLarge] at allocated
  obtain ⟨added, adding, rest⟩ := Option.bind_eq_some_iff.mp allocated
  obtain ⟨space, found, rest⟩ := Option.bind_eq_some_iff.mp rest
  obtain ⟨⟨start, taken, memory⟩, taking, rest⟩ := Option.bind_eq_some_iff.mp rest
  obtain ⟨rfl, pair⟩ := Prod.mk.inj (Option.some.inj rest)
  obtain ⟨rfl, rfl⟩ := Prod.mk.inj pair
  obtain ⟨small, addedLaid, grows, base, spaces⟩ := addNewSpaceSized_spec laid adding
  obtain ⟨middle, more, middleLaid, takes⟩ :=
    allocateCommittingIfNeeded_spec addedLaid small found taking
  exact ⟨middle, grows.trans more, middleLaid, takes⟩

theorem allocateIfPossibleBumping_spec {system : System} {size address : Nat} (laid : heap.Laid)
    (allocated : heap.allocateIfPossibleBumping system size = some (address, other)) :
    ∃ middle : GCHeap, heap.Extends middle ∧ middle.Laid ∧
      middle.Takes size other.oldZone.current address other := by
  rw [allocateIfPossibleBumping] at allocated
  split at allocated
  next result current =>
    obtain rfl := Option.some.inj allocated
    obtain ⟨takes, zone⟩ := allocateIfPossibleCurrent_spec laid current
    exact ⟨heap, Extends.refl heap, laid, zone ▸ takes⟩
  · obtain ⟨bumped, bumping, rest⟩ := Option.bind_eq_some_iff.mp allocated
    obtain ⟨bumpedLaid, grows⟩ := bumpSpace_spec laid bumping
    obtain ⟨takes, zone⟩ := allocateIfPossibleCurrent_spec bumpedLaid rest
    exact ⟨bumped, grows, bumpedLaid, zone ▸ takes⟩

/-- An allocation makes room if need be, and then takes the bytes of one space. -/
theorem allocate_spec {system : System} {size address : Nat} (laid : heap.Laid)
    (allocated : heap.allocate system size = .ok (index, address, other)) :
    ∃ middle : GCHeap, heap.Extends middle ∧ middle.Laid ∧ middle.Takes size index address other := by
  rw [allocate] at allocated
  split at allocated
  next start taken current =>
    obtain ⟨rfl, rest⟩ := Prod.mk.inj (Except.ok.inj allocated)
    obtain ⟨rfl, rfl⟩ := Prod.mk.inj rest
    obtain ⟨takes, zone⟩ := allocateIfPossibleCurrent_spec laid current
    rw [zone]
    exact ⟨heap, Extends.refl heap, laid, takes.congr rfl rfl rfl rfl⟩
  · split at allocated
    · split at allocated
      next result large =>
        obtain rfl := Except.ok.inj allocated
        exact allocateLarge_spec laid large
      · cases allocated
    · split at allocated
      · cases allocated
      · split at allocated
        next start taken bumping =>
          obtain ⟨rfl, rest⟩ := Prod.mk.inj (Except.ok.inj allocated)
          obtain ⟨rfl, rfl⟩ := Prod.mk.inj rest
          have ready : (heap.requestUnlessAllowed.tenured size).Laid := by
            rw [requestUnlessAllowed]
            split <;> exact laid.congr rfl rfl rfl rfl
          have same : heap.Extends (heap.requestUnlessAllowed.tenured size) := by
            rw [requestUnlessAllowed]
            split <;> exact Extends.congr rfl rfl
          obtain ⟨middle, grows, middleLaid, takes⟩ := allocateIfPossibleBumping_spec ready bumping
          exact ⟨middle, same.trans grows, middleLaid, takes⟩
        · cases allocated

end GCHeap

end Egg.Memory
