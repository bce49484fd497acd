import Egg.Memory.Parsable

/-! What allocation writes in the bytes it takes, and what whole runs of allocations leave: enough
bytes for each object, none given twice, and spaces that a walk finds the same objects in. -/
namespace Egg.Memory

open Egg.Data HeapObject

/-! ### Writing headers -/

section Headers

variable {memory : Bytes} {object size : Nat}

theorem flags_setFlags (memory : Bytes) (object : Nat) (flag : UInt8) :
    flags (setFlags memory object flag) object = flags memory object ||| flag :=
  Bytes.store_byte ..

theorem flags_unsetFlags (memory : Bytes) (object : Nat) (flag : UInt8) :
    flags (unsetFlags memory object flag) object = flags memory object &&& (flag ^^^ 0xFF) :=
  Bytes.store_byte ..

theorem setFlags_outside (above : 8 ≤ object) (flag : UInt8) :
    Bytes.SameOutside (object - 5) (object - 4) memory (setFlags memory object flag) :=
  fun place outside => Bytes.store_outside (by lia)

theorem unsetFlags_outside (above : 8 ≤ object) (flag : UInt8) :
    Bytes.SameOutside (object - 5) (object - 4) memory (unsetFlags memory object flag) :=
  fun place outside => Bytes.store_outside (by lia)

/-- The size of an object whose flags say which header it has. -/
theorem size_of_flags {flag : UInt8} (flags_eq : flags memory object = flag)
    (kind : (flag &&& isSmallFlag == isSmallFlag) = decide (size ≤ maxSmallSize))
    (sized : if size ≤ maxSmallSize then smallSize memory object = size
      else largeSize memory object = size) : HeapObject.size memory object = size := by
  rw [HeapObject.size, isSmall, testFlags, flags_eq, kind]
  split at sized
  next small => rw [if_pos (decide_eq_true small), sized]
  next large => rw [if_neg (by simpa using large), sized]

/-- The size stays while only flags and the body change. -/
theorem sized_congr {changed : Bytes} (above : GCHeap.headerSize size ≤ object)
    (same : ∀ place, place < object - 5 → changed place = memory place)
    (sized : if size ≤ maxSmallSize then smallSize memory object = size
      else largeSize memory object = size) :
    if size ≤ maxSmallSize then smallSize changed object = size
      else largeSize changed object = size := by
  rw [GCHeap.headerSize] at above
  split at sized
  next small =>
    rw [if_pos small] at above ⊢
    exact (Bytes.load_congr fun index inside => same _ (by lia)).trans sized
  next large =>
    rw [if_neg large] at above ⊢
    exact (Bytes.load_congr fun index inside => same _ (by lia)).trans sized

/-- A size is written in the header that fits it. -/
theorem writeSize_spec (cleared : flags memory object = 0) (room : size < 2 ^ 32)
    (above : GCHeap.headerSize size ≤ object) :
    flags (GCHeap.writeSize memory object size) object =
        (if size ≤ maxSmallSize then isSmallFlag else 0) ∧
      (if size ≤ maxSmallSize then smallSize (GCHeap.writeSize memory object size) object = size
        else largeSize (GCHeap.writeSize memory object size) object = size) ∧
      Bytes.SameOutside (object - GCHeap.headerSize size) object memory
        (GCHeap.writeSize memory object size) := by
  rw [GCHeap.headerSize] at above
  rw [GCHeap.writeSize, GCHeap.headerSize]
  by_cases small : size ≤ maxSmallSize
  · simp only [if_pos small] at above ⊢
    refine ⟨?_, ?_, fun place outside => ?_⟩
    · rw [flags, setSmallSize, Bytes.store_outside (by lia)]
      exact (flags_setFlags ..).trans (by rw [cleared]; rfl)
    · rw [smallSize, setSmallSize, Bytes.load_store]
      rw [maxSmallSize] at small
      lia
    · rw [setSmallSize, Bytes.store_outside (by lia)]
      exact setFlags_outside above _ place (by lia)
  · simp only [if_neg small] at above ⊢
    refine ⟨?_, ?_, fun place outside => ?_⟩
    · rw [flags, setLargeSize, Bytes.store_outside (by lia)]
      exact (flags_unsetFlags ..).trans (by rw [cleared]; rfl)
    · rw [largeSize, setLargeSize, Bytes.load_store room]
    · rw [setLargeSize, Bytes.store_outside (by lia)]
      exact unsetFlags_outside (by lia) _ place (by lia)

end Headers

namespace GCHeap

/-- The object that was asked for stands in the bytes from the buffer on. -/
structure Initialised (memory : Bytes) (buffer object : Nat) (request : Request) : Prop where
  header : HeaderAt memory buffer object
  size : HeapObject.size memory object = request.size
  kind : isBytes memory object = request.isBytes

variable {heap middle other : GCHeap} {index : Nat} {memory : Bytes} {buffer size : Nat}
  {request : Request}

theorem initialised_of_flags (request : Request) {flag : UInt8}
    (flags_eq : flags memory (buffer + headerSize request.size) = flag)
    (small : (flag &&& isSmallFlag == isSmallFlag) = decide (request.size ≤ maxSmallSize))
    (kind : (flag &&& isBytesFlag == isBytesFlag) = request.isBytes)
    (sized : if request.size ≤ maxSmallSize
      then smallSize memory (buffer + headerSize request.size) = request.size
      else largeSize memory (buffer + headerSize request.size) = request.size) :
    Initialised memory buffer (buffer + headerSize request.size) request := by
  refine ⟨?_, size_of_flags flags_eq small sized, ?_⟩
  · rw [HeaderAt, isSmall, testFlags, flags_eq, small, headerSize]
    split
    next fits => rw [if_pos (of_decide_eq_true fits)]
    next long => rw [if_neg (fun fits => long (decide_eq_true fits))]
  · rw [isBytes, testFlags, flags_eq, kind]

theorem headerSize_cases (size : Nat) : headerSize size = 8 ∨ headerSize size = 16 := by
  rw [headerSize]
  split
  · exact Or.inl rfl
  · exact Or.inr rfl

/-- What is written for slots: their header, and `nil` in each of them. -/
theorem slots_written (memory : Bytes) (buffer nil : Nat) (room : size < 2 ^ 32) :
    let written := fillSlots (writeSize (memory.fill buffer (headerSize size) 0)
      (buffer + headerSize size) size) (buffer + headerSize size) size nil
    Initialised written buffer (buffer + headerSize size) (.slots size) ∧
      Bytes.SameOutside buffer (buffer + slotsTotalSize size) memory written := by
  intro written
  have header := headerSize_cases size
  have cleared : flags (memory.fill buffer (headerSize size) 0) (buffer + headerSize size) = 0 :=
    Bytes.fill_inside (by lia) (by lia)
  obtain ⟨flags_eq, sized, outside⟩ := writeSize_spec cleared room (Nat.le_add_left ..)
  have below : Bytes.SameOutside (buffer + headerSize size) (buffer + slotsTotalSize size)
      (writeSize (memory.fill buffer (headerSize size) 0) (buffer + headerSize size) size) written := by
    intro place apart
    refine if_neg ?_
    rw [slotsTotalSize] at apart
    lia
  have kept : flags written (buffer + headerSize size) = _ :=
    (below _ (Or.inl (by lia))).trans flags_eq
  have kept_size := sized_congr (Nat.le_add_left ..)
    (fun place under => below place (Or.inl (by lia))) sized
  refine ⟨initialised_of_flags (.slots size) kept ?_ ?_ kept_size, fun place apart => ?_⟩
  · by_cases fits : size ≤ maxSmallSize
    · rw [if_pos fits, Request.size, decide_eq_true fits]
      rfl
    · rw [if_neg fits, Request.size, decide_eq_false fits]
      rfl
  · split <;> rfl
  · rw [slotsTotalSize] at apart
    rw [below place (by rw [slotsTotalSize]; lia), outside place (by lia)]
    exact Bytes.fill_outside (by lia)

/-- What is written for bytes: their header, and zeroes. -/
theorem bytes_written (memory : Bytes) (buffer : Nat) (room : size < 2 ^ 32) :
    let object := buffer + headerSize size
    let written := writeSize (memory.fill buffer (bytesTotalSize size) 0) object size
    Initialised (beArrayed (beBytes written object) object) buffer object (.bytes size) ∧
      Bytes.SameOutside buffer (buffer + bytesTotalSize size) memory
        (beArrayed (beBytes written object) object) := by
  intro object written
  have header := headerSize_cases size
  have total : headerSize size ≤ bytesTotalSize size := Nat.le_add_right ..
  have cleared : flags (memory.fill buffer (bytesTotalSize size) 0) object = 0 :=
    Bytes.fill_inside (by simp only [object]; lia) (by simp only [object]; lia)
  obtain ⟨flags_eq, sized, outside⟩ := writeSize_spec cleared room (Nat.le_add_left ..)
  have flagged : Bytes.SameOutside (object - 5) (object - 4) written
      (beArrayed (beBytes written object) object) :=
    (setFlags_outside (by simp only [object]; lia) _).trans
      (setFlags_outside (by simp only [object]; lia) _)
  have both : flags (beArrayed (beBytes written object) object) object =
      (if size ≤ maxSmallSize then isSmallFlag else 0) ||| isBytesFlag ||| isArrayedFlag := by
    rw [beArrayed, flags_setFlags, beBytes, flags_setFlags, flags_eq]
  have kept_size := sized_congr (Nat.le_add_left ..)
    (fun place under => flagged place (Or.inl under)) sized
  refine ⟨initialised_of_flags (.bytes size) both ?_ ?_ kept_size, fun place apart => ?_⟩
  · by_cases fits : size ≤ maxSmallSize
    · rw [if_pos fits, Request.size, decide_eq_true fits]
      rfl
    · rw [if_neg fits, Request.size, decide_eq_false fits]
      rfl
  · split <;> rfl
  · rw [flagged place (by simp only [object]; lia)]
    exact (outside place (by simp only [object]; lia)).trans (Bytes.fill_outside (by lia))

/-! ### One allocation -/

/-- What one allocation does: the heap makes room and takes the bytes asked for, and the object
is written there and nowhere else. -/
structure Allocates (heap : GCHeap) (request : Request) (allocation : Allocation)
    (other : GCHeap) : Prop where
  granted : allocation.granted = request.totalSize
  object : allocation.object = allocation.buffer + headerSize request.size
  taken : ∃ middle taken : GCHeap, heap.Extends middle ∧ middle.Laid ∧
    middle.Takes request.totalSize allocation.space allocation.buffer taken ∧
    other.spaces = taken.spaces ∧ other.Laid ∧
    Bytes.SameOutside allocation.buffer (allocation.buffer + request.totalSize) taken.memory
      other.memory
  initialised : Initialised other.memory allocation.buffer allocation.object request

theorem size_le_totalSize (request : Request) : request.size ≤ request.totalSize := by
  cases request with
  | slots size =>
    rw [Request.size, Request.totalSize, slotsTotalSize, wordSize]
    lia
  | bytes size =>
    rw [Request.size, Request.totalSize, bytesTotalSize, wordSize]
    lia

theorem allocateRequest_spec {system : System} {allocation : Allocation} (laid : heap.Laid)
    (fits : request.totalSize < 2 ^ 32)
    (run : heap.allocateRequest system request = .ok (allocation, other)) :
    heap.Allocates request allocation other := by
  have small := Nat.lt_of_le_of_lt (size_le_totalSize request) fits
  cases request with
  | slots size =>
    have exact_size : slotsTotalSize size % 2 ^ 32 = slotsTotalSize size := Nat.mod_eq_of_lt fits
    rw [allocateRequest, allocateSlots, exact_size] at run
    cases granting : heap.allocate system (slotsTotalSize size) with
    | error stop =>
      rw [granting] at run
      cases run
    | ok result =>
      obtain ⟨index, buffer, taken⟩ := result
      rw [granting] at run
      obtain ⟨rfl, rfl⟩ := Prod.mk.inj (Except.ok.inj run)
      obtain ⟨middle, grows, middleLaid, takes⟩ := allocate_spec laid granting
      obtain ⟨initialised, outside⟩ := slots_written taken.memory buffer system.nil small
      exact ⟨rfl, rfl, ⟨middle, taken, grows, middleLaid, takes, rfl,
        takes.laid.congr rfl rfl rfl rfl, outside⟩, initialised⟩
  | bytes size =>
    have exact_size : bytesTotalSize size % 2 ^ 32 = bytesTotalSize size := Nat.mod_eq_of_lt fits
    rw [allocateRequest, allocateBytes, exact_size] at run
    cases granting : heap.allocate system (bytesTotalSize size) with
    | error stop =>
      rw [granting] at run
      cases run
    | ok result =>
      obtain ⟨index, buffer, taken⟩ := result
      rw [granting] at run
      obtain ⟨rfl, rfl⟩ := Prod.mk.inj (Except.ok.inj run)
      obtain ⟨middle, grows, middleLaid, takes⟩ := allocate_spec laid granting
      obtain ⟨initialised, outside⟩ := bytes_written taken.memory buffer small
      exact ⟨rfl, rfl, ⟨middle, taken, grows, middleLaid, takes, rfl,
        takes.laid.congr rfl rfl rfl rfl, outside⟩, initialised⟩

/-- The bytes of the object, header and body, are those that were asked for. -/
theorem Initialised.total {object : Nat} (initialised : Initialised memory buffer object request)
    (start : object = buffer + headerSize request.size) :
    object + wholeBody memory object = buffer + request.totalSize := by
  rw [wholeBody, initialised.size, initialised.kind, start]
  cases request with
  | slots size => exact (Nat.add_assoc ..)
  | bytes size => exact (Nat.add_assoc ..)

theorem Initialised.measurable {object : Nat}
    (initialised : Initialised memory buffer object request)
    (start : object = buffer + headerSize request.size) (small : request.totalSize < 2 ^ 31) :
    Measurable memory object := by
  have total := initialised.total start
  have size := size_le_totalSize request
  refine ⟨?_, by lia⟩
  rw [initialised.size]
  lia

theorem Takes.parsed {taken : GCHeap} {total object : Nat} {objects : List Nat}
    (laid : middle.Laid) (takes : middle.Takes total index buffer taken)
    (spaces : other.spaces = taken.spaces)
    (outside : Bytes.SameOutside buffer (buffer + total) taken.memory other.memory)
    (header : HeaderAt other.memory buffer object)
    (whole : object + wholeBody other.memory object = buffer + total)
    (measurable : Measurable other.memory object) {place : Nat}
    (parsed : middle.Parsed place objects) :
    other.Parsed place (objects ++ if index = place then [object] else []) := by
  obtain ⟨space, found, next, grown, room⟩ := takes.space
  have inside := (List.getElem?_eq_some_iff.mp found).1
  rw [Parsed] at parsed ⊢
  rw [spaces, grown]
  by_cases here : index = place
  · subst here
    rw [found] at parsed
    rw [List.getElem?_set_self inside, if_pos rfl]
    obtain ⟨tiles, old⟩ := parsed
    have equal : ∀ place, space.base ≤ place → place < space.next →
        other.memory place = middle.memory place := by
      intro place _ under
      rw [outside place (by lia), takes.memory]
    have last : Tiles other.memory buffer (buffer + total) [object] := ⟨header, whole⟩
    refine ⟨(next ▸ tiles.congr equal).append last, fun one member => ?_⟩
    rcases List.mem_append.mp member with before | same
    · exact (tiles.same_header before equal).measurable (old one before)
    · rw [List.mem_singleton.mp same]
      exact measurable
  · rw [List.getElem?_set_ne here, if_neg here, List.append_nil]
    cases there : middle.spaces[place]? with
    | none =>
      rw [there] at parsed
      exact parsed
    | some beside =>
      rw [there] at parsed
      obtain ⟨tiles, old⟩ := parsed
      have equal : ∀ place, beside.base ≤ place → place < beside.next →
          other.memory place = middle.memory place := by
        intro place above under
        rw [outside place ?_, takes.memory]
        by_contra taken
        have free := laid.unused found place (by lia) (by lia)
          (List.mem_of_getElem? there)
        lia
      exact ⟨tiles.congr equal, fun one member =>
        (tiles.same_header member equal).measurable (old one member)⟩

/-- An allocation adds its object to one space, after the others. -/
theorem Allocates.parsed {allocation : Allocation} {objects : List Nat} {place : Nat}
    (allocates : heap.Allocates request allocation other) (parsed : heap.Parsed place objects) :
    other.Parsed place (objects ++ if allocation.space = place then [allocation.object] else []) := by
  obtain ⟨middle, taken, grows, middleLaid, takes, spaces, _, outside⟩ := allocates.taken
  have initialised := allocates.initialised
  exact takes.parsed middleLaid spaces outside initialised.header
    (initialised.total allocates.object) (initialised.measurable allocates.object takes.small)
    (grows.parsed parsed)

/-! ### Bytes in use -/

/-- The bytes between the addresses have been given out. -/
def Used (heap : GCHeap) (low high : Nat) : Prop :=
  ∃ (index : Nat) (space : GCSpace), heap.spaces[index]? = some space ∧
    space.base ≤ low ∧ high ≤ space.next

theorem Extends.used {low high : Nat} (grows : heap.Extends other) (used : heap.Used low high) :
    other.Used low high := by
  obtain ⟨index, space, found, above, below⟩ := used
  obtain ⟨grown, there, base, next⟩ := grows.kept index space found
  exact ⟨index, grown, there, base ▸ above, next ▸ below⟩

theorem Extends.same {low high place : Nat} (grows : heap.Extends other)
    (used : heap.Used low high) (above : low ≤ place) (below : place < high) :
    other.memory place = heap.memory place := by
  obtain ⟨index, space, found, base, next⟩ := used
  exact grows.memory space (List.mem_of_getElem? found) place (by lia) (by lia)

theorem Takes.apart {taken : GCHeap} {total low high : Nat} (laid : middle.Laid)
    (takes : middle.Takes total index buffer taken) (used : middle.Used low high) :
    high ≤ buffer ∨ buffer + total ≤ low := by
  obtain ⟨space, found, next, _, room⟩ := takes.space
  obtain ⟨place, beside, there, above, below⟩ := used
  by_cases here : index = place
  · subst here
    obtain rfl := Option.some.inj (found.symm.trans there)
    exact Or.inl (by lia)
  · have ordered := laid.spaces space (List.mem_of_getElem? found)
    have besideOrdered := laid.spaces beside (List.mem_of_getElem? there)
    have base := ordered.next
    have committed := besideOrdered.committed
    have reserved := besideOrdered.reserved
    rcases laid.apart_of_ne found there here with before | after
    · exact Or.inr (by lia)
    · exact Or.inl (by lia)

theorem Takes.used {taken : GCHeap} {total low high : Nat}
    (takes : middle.Takes total index buffer taken) (used : middle.Used low high) :
    taken.Used low high := by
  obtain ⟨space, found, next, grown, _⟩ := takes.space
  have inside := (List.getElem?_eq_some_iff.mp found).1
  obtain ⟨place, beside, there, above, below⟩ := used
  by_cases here : index = place
  · subst here
    obtain rfl := Option.some.inj (found.symm.trans there)
    exact ⟨index, { space with next := buffer + total },
      by rw [grown, List.getElem?_set_self inside], above, by simp only; lia⟩
  · exact ⟨place, beside, by rw [grown, List.getElem?_set_ne here, there], above, below⟩

/-- The bytes of an allocation were free before it and are in use after it; those in use before
it still are, and hold what they held. -/
theorem Allocates.used {allocation : Allocation}
    (allocates : heap.Allocates request allocation other) :
    other.Used allocation.buffer (allocation.buffer + allocation.granted) ∧
      ∀ low high, heap.Used low high → other.Used low high ∧
        (high ≤ allocation.buffer ∨ allocation.buffer + allocation.granted ≤ low) ∧
        ∀ place, low ≤ place → place < high → other.memory place = heap.memory place := by
  obtain ⟨middle, taken, grows, middleLaid, takes, spaces, _, outside⟩ := allocates.taken
  have same_used : ∀ low high, taken.Used low high → other.Used low high := by
    rintro low high ⟨index, space, found, above, below⟩
    exact ⟨index, space, spaces ▸ found, above, below⟩
  rw [allocates.granted]
  constructor
  · obtain ⟨space, found, next, grown, _⟩ := takes.space
    have inside := (List.getElem?_eq_some_iff.mp found).1
    have ordered := middleLaid.spaces space (List.mem_of_getElem? found)
    exact same_used _ _ ⟨allocation.space,
      { space with next := allocation.buffer + request.totalSize },
      by rw [grown, List.getElem?_set_self inside], next ▸ ordered.next, Nat.le_refl _⟩
  · intro low high used
    have apart := takes.apart middleLaid (grows.used used)
    refine ⟨same_used _ _ (takes.used (grows.used used)), apart, fun place above below => ?_⟩
    rw [outside place (by lia), takes.memory]
    exact grows.same used above below

/-! ### Runs -/

/-- The bytes that the body asked for needs, in whole words. -/
def Request.bodySize : Request → Nat
  | slots size => size * wordSize
  | bytes size => (size + (wordSize - 1)) / wordSize * wordSize

theorem totalSize_eq (request : Request) :
    request.totalSize = headerSize request.size + request.bodySize := by
  cases request <;> rfl

/-- The bytes given are enough for header and body, and the object there has the kind and the
size that were asked for. -/
structure Given (memory : Bytes) (request : Request) (allocation : Allocation) : Prop where
  enough : headerSize request.size + request.bodySize ≤ allocation.granted
  inside : allocation.object = allocation.buffer + headerSize request.size
  size : HeapObject.size memory allocation.object = request.size
  kind : isBytes memory allocation.object = request.isBytes

/-- The bytes of two allocations do not overlap. -/
def Apart (allocation other : Allocation) : Prop :=
  allocation.buffer + allocation.granted ≤ other.buffer ∨
    other.buffer + other.granted ≤ allocation.buffer

/-- The objects of the allocations made in the space at the position. -/
def objectsAdded (allocations : List Allocation) (index : Nat) : List Nat :=
  (allocations.filter fun allocation => decide (allocation.space = index)).map Allocation.object

/-- What a run of allocations leaves. -/
structure AllocatesAll (heap : GCHeap) (requests : List Request) (allocations : List Allocation)
    (other : GCHeap) : Prop where
  laid : other.Laid
  given : List.Forall₂ (Given other.memory) requests allocations
  apart : allocations.Pairwise Apart
  parsed : ∀ index objects, heap.Parsed index objects →
    other.Parsed index (objects ++ objectsAdded allocations index)
  used : ∀ low high, heap.Used low high → other.Used low high ∧
    (∀ allocation ∈ allocations,
      high ≤ allocation.buffer ∨ allocation.buffer + allocation.granted ≤ low) ∧
    ∀ place, low ≤ place → place < high → other.memory place = heap.memory place

theorem bind_eq_ok {ε α β : Type} {first : Except ε α} {next : α → Except ε β} {value : β}
    (run : (first >>= next) = .ok value) : ∃ middle, first = .ok middle ∧ next middle = .ok value := by
  cases first with
  | error stop => cases run
  | ok middle => exact ⟨middle, rfl, run⟩

/-- The object of an allocation keeps its header while its bytes are in use. -/
theorem Allocates.given {allocation : Allocation} {changed : Bytes}
    (allocates : heap.Allocates request allocation other)
    (same : ∀ place, allocation.buffer ≤ place →
      place < allocation.buffer + allocation.granted → changed place = other.memory place) :
    Given changed request allocation := by
  obtain ⟨header, size, kind⟩ := allocates.initialised
  have total := totalSize_eq request
  have start := allocates.object
  have granted := allocates.granted
  have kept : SameHeader other.memory allocation.object changed (0 + allocation.object) :=
    header.same fun place above below => by
      rw [Nat.zero_add]
      exact same place above (by lia)
  rw [Nat.zero_add] at kept
  exact ⟨by lia, start, kept.size.trans size, kept.isBytes.trans kind⟩

theorem objectsAdded_cons (allocation : Allocation) (allocations : List Allocation) (index : Nat) :
    objectsAdded (allocation :: allocations) index =
      (if allocation.space = index then [allocation.object] else []) ++
        objectsAdded allocations index := by
  rw [objectsAdded, objectsAdded, List.filter_cons]
  by_cases here : allocation.space = index
  · rw [if_pos (decide_eq_true here), if_pos here]
    rfl
  · rw [if_neg (by simpa using here), if_neg here]
    rfl

theorem allocateAll_spec {system : System} {requests : List Request}
    {allocations : List Allocation} (laid : heap.Laid)
    (fit : ∀ request ∈ requests, request.totalSize < 2 ^ 32)
    (run : heap.allocateAll system requests = .ok (allocations, other)) :
    heap.AllocatesAll requests allocations other := by
  induction requests generalizing heap allocations with
  | nil =>
    obtain ⟨rfl, rfl⟩ := Prod.mk.inj (Except.ok.inj run)
    refine ⟨laid, .nil, .nil, fun index objects parsed => ?_,
      fun low high used => ⟨used, nofun, fun _ _ _ => rfl⟩⟩
    rw [objectsAdded, List.filter_nil, List.map_nil, List.append_nil]
    exact parsed
  | cons request requests ih =>
    obtain ⟨⟨allocation, middle⟩, first, run⟩ := bind_eq_ok run
    obtain ⟨⟨others, last⟩, rest, run⟩ := bind_eq_ok run
    obtain ⟨rfl, rfl⟩ := Prod.mk.inj (Except.ok.inj run)
    have allocates := allocateRequest_spec laid (fit request (List.mem_cons_self ..)) first
    obtain ⟨_, _, _, _, _, _, middleLaid, _⟩ := allocates.taken
    have further := ih middleLaid (fun one member => fit one (List.mem_cons_of_mem _ member)) rest
    obtain ⟨inUse, before⟩ := allocates.used
    obtain ⟨_, apart, same⟩ := further.used _ _ inUse
    refine ⟨further.laid, .cons (allocates.given same) further.given,
      .cons (fun one member => apart one member) further.apart, fun index objects parsed => ?_,
      fun low high used => ?_⟩
    · rw [objectsAdded_cons, ← List.append_assoc]
      exact further.parsed index _ (allocates.parsed parsed)
    · obtain ⟨stillUsed, firstApart, firstSame⟩ := before low high used
      obtain ⟨lastUsed, othersApart, othersSame⟩ := further.used low high stillUsed
      refine ⟨lastUsed, fun one member => ?_, fun place above below =>
        (othersSame place above below).trans (firstSame place above below)⟩
      rcases List.mem_cons.mp member with rfl | later
      · exact firstApart
      · exact othersApart one later

/-- In a run of allocations of which none asks for 4 GB or more, each object gets the bytes of its
header and body, no byte is given twice, and walking a space finds what it found before and then
the objects allocated there, in order and with the sizes they were allocated with. -/
theorem allocations_parsable {system : System} {requests : List Request}
    {allocations : List Allocation} (parsable : heap.Parsable)
    (fit : ∀ request ∈ requests, request.totalSize < 2 ^ 32)
    (run : heap.allocateAll system requests = .ok (allocations, other)) :
    other.Parsable ∧
      List.Forall₂ (Given other.memory) requests allocations ∧
      allocations.Pairwise Apart ∧
      (∀ low high, heap.Used low high → ∀ allocation ∈ allocations,
        high ≤ allocation.buffer ∨ allocation.buffer + allocation.granted ≤ low) ∧
      ∀ index, other.objectsIn index = heap.objectsIn index ++ objectsAdded allocations index := by
  have all := allocateAll_spec parsable.laid fit run
  refine ⟨⟨all.laid, fun index => ?_⟩, all.given, all.apart,
    fun low high used => (all.used low high used).2.1, fun index => ?_⟩
  · obtain ⟨objects, parsed⟩ := parsable.parsed index
    exact ⟨_, all.parsed index objects parsed⟩
  · obtain ⟨objects, parsed⟩ := parsable.parsed index
    rw [(all.parsed index objects parsed).objectsIn_eq, parsed.objectsIn_eq]

end GCHeap

/-- A system with 4 kb pages, where everything not mapped by the heap is free. -/
def freeSystem : System where
  pageSize := 4096
  positive := by decide
  available := fun _ _ => true
  behaviorAddressSpace := 0
  limit := 2 ^ 32
  nil := 0x2000

/-- A heap with one empty region to allocate in, and a next one. -/
def emptyRegions : GCHeap where
  memory := fun _ => 0
  spaces := [⟨0x100000, 0x100000, 0x140000, 0x140000, 0x140000⟩,
    ⟨0x180000, 0x180000, 0x1C0000, 0x1C0000, 0x1C0000⟩]
  oldZone := ⟨0x200000, 0x200000, 0, 1, []⟩
  countdown := mb
  gcNeeded := false
  atGCSafepoint := false
  atGCUnsafepoint := false
  nextFree := 0x200000
  mappings := [(0x100000, 0x200000)]

theorem emptyRegions_parsable : emptyRegions.Parsable where
  laid := {
    spaces := by
      intro space member
      rcases List.mem_cons.mp member with rfl | further
      · constructor <;> decide
      · rw [List.mem_singleton.mp further]
        constructor <;> decide
    apart := .cons (fun space member => by
      rw [List.mem_singleton.mp member]
      exact Or.inl (by decide)) (List.pairwise_singleton ..)
    mapped := by
      intro space member
      refine ⟨_, List.mem_singleton_self _, ?_⟩
      rcases List.mem_cons.mp member with rfl | further
      · decide
      · rw [List.mem_singleton.mp further]
        decide
    zoneMapped := ⟨_, List.mem_singleton_self _, by decide⟩
    ahead := by
      intro space member
      rcases List.mem_cons.mp member with rfl | further
      · exact Or.inl (by decide)
      · rw [List.mem_singleton.mp further]
        exact Or.inl (by decide)
    regions := ⟨0, rfl⟩ }
  parsed := by
    intro index
    refine ⟨[], ?_⟩
    match index with
    | 0 => exact ⟨rfl, nofun⟩
    | 1 => exact ⟨rfl, nofun⟩
    | _ + 2 => rfl

theorem GCHeap.allocations_parsable_mixed : ∃ allocations other,
    emptyRegions.allocateAll freeSystem [.slots 2, .bytes 5, .slots 300] = .ok (allocations, other) ∧
      other.objectsIn 0 = emptyRegions.objectsIn 0 ++ objectsAdded allocations 0 := by
  have fit : ∀ request ∈ [Request.slots 2, .bytes 5, .slots 300], request.totalSize < 2 ^ 32 := by
    intro request member
    simp only [List.mem_cons, List.not_mem_nil, or_false] at member
    rcases member with rfl | rfl | rfl <;> decide
  exact ⟨_, _, rfl, (GCHeap.allocations_parsable emptyRegions_parsable fit rfl).2.2.2.2 0⟩

/-- Asked for 2^29 slots, which take 4 GB, the heap gives the 16 bytes of the header. -/
theorem GCHeap.slots_overrun : ∃ allocation other,
    emptyRegions.Parsable ∧
    emptyRegions.allocateSlots freeSystem (2 ^ 29) = .ok (allocation, other) ∧
    allocation.granted < headerSize (2 ^ 29) + 2 ^ 29 * wordSize :=
  ⟨_, _, emptyRegions_parsable, rfl, by decide⟩

end Egg.Memory
