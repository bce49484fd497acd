import Egg.Memory.FileImageSegment

/-! What relocation does to the objects of a segment: which references its words hold in the file,
what they denote in memory, and what the loop over the objects leaves. -/
namespace Egg.Memory

open Egg.Data HeapObject

/-- What a word of the file stands for, wherever the segment is loaded. -/
inductive Reference where
  | internal (offset : Nat)
  | imported (index : Nat)
  | immediate (word : Nat)

/-- The word denotes in memory what the reference stands for. -/
inductive Denotes (currentBase : Nat) (imports : List Nat) : Nat → Reference → Prop
  | internal {offset word : Nat} (moved : word = (currentBase + offset) % 2 ^ 64) :
      Denotes currentBase imports word (.internal offset)
  | imported {index word : Nat} (found : imports[index]? = some word) :
      Denotes currentBase imports word (.imported index)
  | immediate (word : Nat) : Denotes currentBase imports word (.immediate word)

namespace FileImageSegment

variable (platform : Platform) (segment : FileImageSegment) (imports : List Nat)

/-- The distance of an address from the base that the file assumes. -/
def offset (address : Nat) : Nat :=
  (address + (2 ^ 64 - segment.header.baseAddress)) % 2 ^ 64

def slotReference (word : Nat) : Reference :=
  if word % 4 = 0 then .internal (segment.offset word)
  else if word % 4 = 2 then .imported (word / 4)
  else .immediate word

def behaviorReference (word : Nat) : Reference :=
  if word % 4 = 0 then .internal (segment.offset (segment.oldBehaviorBase + word))
  else if word % 4 = 2 then .imported (word / 4)
  else .immediate (platform.behaviorAddressSpace + word)

/-- A behavior that can be given to an object at this base: its import exists, and its address is
one of a behavior. -/
def BindableBehavior (word : Nat) : Prop :=
  if word % 4 = 0 then
    (segment.oldBehaviorBase + word + segment.delta) % 2 ^ 64 / 2 ^ 32 =
      platform.behaviorAddressSpace / 2 ^ 32
  else if word % 4 = 2 then
    ∃ address, imports[word / 4]? = some address ∧
      address / 2 ^ 32 = platform.behaviorAddressSpace / 2 ^ 32
  else True

def BindableSlot (word : Nat) : Prop :=
  word % 4 = 2 → ∃ address, imports[word / 4]? = some address ∧ address < 2 ^ 64

/-- Every reference of the object can be given its address. -/
structure Bindable (file : Bytes) (object : Nat) : Prop where
  behavior : segment.BindableBehavior platform imports (basicBehavior file object)
  slot : ∀ index < pointersSize file object, BindableSlot imports (slot file object index)

/-- The words of an object denote in memory what they stand for in the file. -/
structure ObjectRelocated (file : Bytes) (object : Nat) (memory : Bytes) : Prop where
  behavior : Denotes segment.currentBase imports
    (platform.behaviorAddressSpace + basicBehavior memory (segment.currentBase + object))
    (segment.behaviorReference platform (basicBehavior file object))
  slot : ∀ index < pointersSize file object, Denotes segment.currentBase imports
    (slot memory (segment.currentBase + object) index)
    (segment.slotReference (slot file object index))

variable {platform segment imports} {file memory : Bytes} {object word : Nat}

theorem relocated_offset (address : Nat) :
    (address + segment.delta) % 2 ^ 64 = (segment.currentBase + segment.offset address) % 2 ^ 64 := by
  rw [delta, offset]
  lia

/-! ### Behaviors -/

theorem behavior_div_add_mod {address : Nat}
    (space : address / 2 ^ 32 = platform.behaviorAddressSpace / 2 ^ 32) :
    platform.behaviorAddressSpace + address % 2 ^ 32 = address := by
  have aligned := platform.aligned
  lia

theorem setBehavior_eq {address : Nat}
    (space : address / 2 ^ 32 = platform.behaviorAddressSpace / 2 ^ 32) :
    setBehavior platform memory object address =
      some (HeapObject.behavior memory object address) :=
  if_pos space

theorem basicBehavior_set (memory : Bytes) (object address : Nat) :
    basicBehavior (HeapObject.behavior memory object address) object = address % 2 ^ 32 := by
  rw [basicBehavior, HeapObject.behavior, Bytes.load_store]
  exact Nat.mod_lt _ (by decide)

theorem fixBehavior_spec (header : 4 ≤ object)
    (bindable : segment.BindableBehavior platform imports (basicBehavior memory object)) :
    ∃ fixed, segment.fixBehavior platform imports memory object = some fixed ∧
      Bytes.SameOutside (object - 4) object memory fixed ∧
      Denotes segment.currentBase imports
        (platform.behaviorAddressSpace + basicBehavior fixed object)
        (segment.behaviorReference platform (basicBehavior memory object)) := by
  have outside : ∀ address, Bytes.SameOutside (object - 4) object memory
      (HeapObject.behavior memory object address) := by
    intro address place apart
    exact Bytes.store_outside (by lia)
  rw [BindableBehavior] at bindable
  rw [fixBehavior, behaviorReference]
  split at bindable
  next internal =>
    simp only [if_pos internal, setBehavior_eq bindable]
    refine ⟨_, rfl, outside _, ?_⟩
    rw [basicBehavior_set, behavior_div_add_mod bindable]
    exact .internal (relocated_offset _)
  next external =>
    split at bindable
    next imported =>
      obtain ⟨address, found, space⟩ := bindable
      simp only [if_neg external, if_pos imported, found, Option.bind_eq_bind, Option.bind_some,
        setBehavior_eq space]
      refine ⟨_, rfl, outside _, ?_⟩
      rw [basicBehavior_set, behavior_div_add_mod space]
      exact .imported found
    next immediate =>
      simp only [if_neg external, if_neg immediate]
      exact ⟨memory, rfl, Bytes.SameOutside.refl _ _ _, .immediate _⟩

/-! ### Slots -/

theorem slot_set {index value : Nat} (room : value < 2 ^ 64) :
    slot (setSlot memory object index value) object index = value :=
  Bytes.load_store room

theorem setSlot_outside (memory : Bytes) (object index value : Nat) :
    Bytes.SameOutside (slotAddress object index) (slotAddress object (index + 1)) memory
      (setSlot memory object index value) := by
  intro place apart
  refine Bytes.store_outside ?_
  simp only [slotAddress, wordSize] at apart ⊢
  lia

theorem slot_congr {low high index : Nat} {other : Bytes} (same : Bytes.SameOutside low high memory other)
    (apart : slotAddress object (index + 1) ≤ low ∨ high ≤ slotAddress object index) :
    slot other object index = slot memory object index := by
  refine Bytes.load_congr fun offset inside => same _ ?_
  simp only [slotAddress, wordSize] at apart ⊢
  lia

theorem fixSlot_spec {index : Nat} (bindable : BindableSlot imports (slot memory object index)) :
    ∃ fixed, segment.fixSlot imports object memory index = some fixed ∧
      Bytes.SameOutside (slotAddress object index) (slotAddress object (index + 1)) memory fixed ∧
      Denotes segment.currentBase imports (slot fixed object index)
        (segment.slotReference (slot memory object index)) := by
  rw [fixSlot, slotReference]
  by_cases internal : slot memory object index % 4 = 0
  · simp only [if_pos internal]
    refine ⟨_, rfl, setSlot_outside _ _ _ _, ?_⟩
    rw [slot_set (Nat.mod_lt _ (by decide))]
    exact .internal (relocated_offset _)
  · by_cases imported : slot memory object index % 4 = 2
    · obtain ⟨address, found, small⟩ := bindable imported
      simp only [if_neg internal, if_pos imported, found, Option.bind_eq_bind, Option.bind_some]
      refine ⟨_, rfl, setSlot_outside _ _ _ _, ?_⟩
      rw [slot_set small]
      exact .imported found
    · simp only [if_neg internal, if_neg imported]
      exact ⟨memory, rfl, Bytes.SameOutside.refl _ _ _, .immediate _⟩

/-- The slots up to the count are relocated, the memory elsewhere is as before. -/
theorem fixSlots_spec {count : Nat}
    (bindable : ∀ index < count, BindableSlot imports (slot memory object index)) :
    ∃ fixed, (List.range count).foldlM (segment.fixSlot imports object) memory = some fixed ∧
      Bytes.SameOutside object (slotAddress object count) memory fixed ∧
      ∀ index < count, Denotes segment.currentBase imports (slot fixed object index)
        (segment.slotReference (slot memory object index)) := by
  induction count with
  | zero => exact ⟨memory, rfl, Bytes.SameOutside.refl _ _ _, nofun⟩
  | succ count ih =>
    obtain ⟨middle, run, outside, fixed⟩ := ih fun index inside => bindable index (by lia)
    have untouched : slot middle object count = slot memory object count :=
      slot_congr outside (Or.inr (Nat.le_refl _))
    have bound : BindableSlot imports (slot middle object count) := by
      rw [untouched]
      exact bindable count (Nat.lt_succ_self count)
    obtain ⟨last, step, beyond, denotes⟩ : ∃ fixed,
        segment.fixSlot imports object middle count = some fixed ∧
        Bytes.SameOutside (slotAddress object count) (slotAddress object (count + 1)) middle fixed ∧
        Denotes segment.currentBase imports (slot fixed object count)
          (segment.slotReference (slot middle object count)) := fixSlot_spec bound
    refine ⟨last, ?_, ?_, ?_⟩
    · rw [List.range_succ, List.foldlM_append, run, Option.bind_eq_bind, Option.bind_some,
        List.foldlM_cons, step]
      rfl
    · refine (outside.mono (Nat.le_refl _) ?_).trans (beyond.mono ?_ (Nat.le_refl _))
      · simp only [slotAddress, wordSize]; lia
      · simp only [slotAddress, wordSize]; lia
    · intro index inside
      by_cases earlier : index < count
      · have apart : slotAddress object (index + 1) ≤ slotAddress object count := by
          simp only [slotAddress, wordSize]; lia
        rw [slot_congr beyond (Or.inl apart)]
        exact fixed index earlier
      · have equal : index = count := by lia
        subst equal
        rw [← untouched]
        exact denotes

/-! ### Objects -/

/-- The segment's memory holds the bytes of the file from one offset to another. -/
def Copied (segment : FileImageSegment) (file : Bytes) (start limit : Nat) (memory : Bytes) : Prop :=
  ∀ place, start ≤ place → place < limit → memory (segment.currentBase + place) = file place

theorem Copied.mono {start limit low high : Nat} (copied : segment.Copied file start limit memory)
    (below : start ≤ low) (above : high ≤ limit) : segment.Copied file low high memory :=
  fun place past under => copied place (by lia) (by lia)

theorem Copied.after {start limit low high : Nat} {other : Bytes}
    (copied : segment.Copied file start limit memory) (same : Bytes.SameOutside low high memory other)
    (apart : segment.currentBase + limit ≤ low ∨ high ≤ segment.currentBase + start) :
    segment.Copied file start limit other := by
  intro place above below
  rw [same _ (by lia)]
  exact copied place above below

theorem Copied.slot {index : Nat} (inside : index < pointersSize file object)
    (copied : segment.Copied file object (object + wholeBody file object) memory) :
    slot memory (segment.currentBase + object) index = slot file object index := by
  have fits : pointersSize file object * wordSize ≤ wholeBody file object := pointersSize_le
  refine Bytes.load_congr fun offset inner => ?_
  simp only [slotAddress, wordSize] at fits ⊢
  rw [Nat.add_assoc, Nat.add_assoc, ← Nat.add_assoc object]
  exact copied _ (by lia) (by lia)

theorem Copied.basicBehavior (above : 4 ≤ object)
    (copied : segment.Copied file (object - 4) object memory) :
    basicBehavior memory (segment.currentBase + object) = basicBehavior file object := by
  refine Bytes.load_congr fun offset inner => ?_
  rw [Nat.add_sub_assoc above, Nat.add_assoc]
  exact copied _ (by lia) (by lia)

/-- The bytes of an object that relocation may change: its behavior word and its slots. -/
def InWords (file : Bytes) (object place : Nat) : Prop :=
  object - 4 ≤ place ∧ place < slotAddress object (pointersSize file object)

theorem fixObject_spec {header : Nat} (at_header : HeaderAt file header object)
    (bindable : segment.Bindable platform imports file object)
    (copied : segment.Copied file header (object + wholeBody file object) memory) :
    ∃ fixed, segment.fixObject platform imports memory (segment.currentBase + object) = some fixed ∧
      Bytes.SameOutside (segment.currentBase + object - 4)
        (segment.currentBase + slotAddress object (pointersSize file object)) memory fixed ∧
      segment.ObjectRelocated platform imports file object fixed := by
  have above := at_header.above
  have behavior_eq : basicBehavior memory (segment.currentBase + object) = basicBehavior file object :=
    (copied.mono (by lia) (by lia)).basicBehavior (by lia)
  obtain ⟨middle, behaviorRun, behaviorOutside, behaviorDenotes⟩ : ∃ fixed,
      segment.fixBehavior platform imports memory (segment.currentBase + object) = some fixed ∧
      Bytes.SameOutside (segment.currentBase + object - 4) (segment.currentBase + object) memory fixed ∧
      Denotes segment.currentBase imports
        (platform.behaviorAddressSpace + basicBehavior fixed (segment.currentBase + object))
        (segment.behaviorReference platform
          (basicBehavior memory (segment.currentBase + object))) := by
    refine fixBehavior_spec (by lia) ?_
    rw [behavior_eq]
    exact bindable.behavior
  have header_copied : segment.Copied file header (object - 4) middle :=
    (copied.mono (Nat.le_refl _) (by lia)).after behaviorOutside (Or.inl (by lia))
  have body_copied : segment.Copied file object (object + wholeBody file object) middle :=
    (copied.mono (by lia) (Nat.le_refl _)).after behaviorOutside (Or.inr (by lia))
  have counted : pointersSize middle (segment.currentBase + object) = pointersSize file object :=
    (at_header.same header_copied).pointersSize
  obtain ⟨fixed, slotsRun, slotsOutside, slotsDenote⟩ : ∃ fixed,
      (List.range (pointersSize file object)).foldlM
        (segment.fixSlot imports (segment.currentBase + object)) middle = some fixed ∧
      Bytes.SameOutside (segment.currentBase + object)
        (slotAddress (segment.currentBase + object) (pointersSize file object)) middle fixed ∧
      ∀ index < pointersSize file object, Denotes segment.currentBase imports
        (slot fixed (segment.currentBase + object) index)
        (segment.slotReference (slot middle (segment.currentBase + object) index)) := by
    refine fixSlots_spec fun index inside => ?_
    rw [body_copied.slot inside]
    exact bindable.slot index inside
  have reaches : slotAddress (segment.currentBase + object) (pointersSize file object) =
      segment.currentBase + slotAddress object (pointersSize file object) := by
    rw [slotAddress, slotAddress, Nat.add_assoc]
  refine ⟨fixed, ?_, ?_, ?_, fun index inside => ?_⟩
  · rw [fixObject, behaviorRun, Option.bind_eq_bind, Option.bind_some, counted]
    exact slotsRun
  · rw [← reaches]
    refine (behaviorOutside.mono (Nat.le_refl _) ?_).trans
      (slotsOutside.mono (Nat.sub_le ..) (Nat.le_refl _))
    exact Nat.le_add_right ..
  · have kept : basicBehavior fixed (segment.currentBase + object) =
        basicBehavior middle (segment.currentBase + object) :=
      Bytes.load_congr fun offset inner => slotsOutside _ (Or.inl (by lia))
    rw [kept, ← behavior_eq]
    exact behaviorDenotes
  · have denotes := slotsDenote index inside
    rwa [body_copied.slot inside] at denotes

/-! ### The whole segment -/

/-- What the loop leaves of the objects from an offset to the end of the segment: those that stand
before the end are relocated, and no byte of another word is changed. -/
structure Fixed (platform : Platform) (segment : FileImageSegment) (imports : List Nat)
    (file : Bytes) (start : Nat) (objects : List Nat) (memory fixed : Bytes) : Prop where
  relocated : ∀ object ∈ objects, object < segment.header.size →
    segment.ObjectRelocated platform imports file object fixed
  kept : ∀ place, start ≤ place → place < segment.header.size →
    (∀ object ∈ objects, object < segment.header.size → ¬ InWords file object place) →
    fixed (segment.currentBase + place) = file place
  outside : Bytes.SameOutside (segment.currentBase + start)
    (segment.currentBase + segment.header.size) memory fixed

theorem ObjectRelocated.after {low high : Nat} {other : Bytes} (above : 4 ≤ object)
    (relocated : segment.ObjectRelocated platform imports file object memory)
    (same : Bytes.SameOutside low high memory other)
    (apart : segment.currentBase + slotAddress object (pointersSize file object) ≤ low) :
    segment.ObjectRelocated platform imports file object other := by
  simp only [slotAddress, wordSize] at apart
  refine ⟨?_, fun index inside => ?_⟩
  · have kept : basicBehavior other (segment.currentBase + object) =
        basicBehavior memory (segment.currentBase + object) :=
      Bytes.load_congr fun offset inner => same _ (Or.inl (by lia))
    rw [kept]
    exact relocated.behavior
  · rw [slot_congr same (Or.inl ?_)]
    · exact relocated.slot index inside
    · simp only [slotAddress, wordSize]
      lia

theorem fixObjects_spec {start : Nat} {objects : List Nat}
    (tiles : Tiles file start segment.header.size objects)
    (measurable : ∀ object ∈ objects, Measurable file object)
    (bindable : ∀ object ∈ objects, segment.Bindable platform imports file object)
    (copied : segment.Copied file start segment.header.size memory) :
    ∃ fixed, segment.fixObjects platform imports memory
        (ObjectHeader.object memory (segment.currentBase + start)) = some fixed ∧
      Fixed platform segment imports file start objects memory fixed := by
  induction objects generalizing start memory with
  | nil =>
    have past := object_above memory (segment.currentBase + start)
    have ended : start = segment.header.size := tiles
    refine ⟨memory, ?_, nofun, fun place above below _ => copied place above below,
      Bytes.SameOutside.refl _ _ _⟩
    rw [fixObjects, if_neg]
    rw [spaceEnd]
    lia
  | cons object objects ih =>
    have above := tiles.1.above
    have rest := tiles.2.le
    have here : Measurable file object := measurable object (List.mem_cons_self ..)
    have moved : SameHeader file object memory (segment.currentBase + object) :=
      tiles.1.same (copied.mono (Nat.le_refl _) (by lia))
    have found : ObjectHeader.object memory (segment.currentBase + start) =
        segment.currentBase + object :=
      (tiles.1.moved moved).object_eq (moved.measurable here)
    rw [found, fixObjects]
    by_cases inside : object < segment.header.size
    · obtain ⟨middle, run, outside, relocated⟩ := fixObject_spec tiles.1
        (bindable object (List.mem_cons_self ..)) (copied.mono (Nat.le_refl _) rest)
      have words : slotAddress object (pointersSize file object) ≤
          object + wholeBody file object := Nat.add_le_add_left pointersSize_le object
      have header_kept : SameHeader file object middle (segment.currentBase + object) :=
        tiles.1.same ((copied.mono (Nat.le_refl _) (by lia)).after outside (Or.inl (by lia)))
      have next : nextObject middle (segment.currentBase + object) = ObjectHeader.object middle
          (segment.currentBase + (object + wholeBody file object)) := by
        rw [nextObject, nextHeader_eq (header_kept.measurable here), header_kept.wholeBody,
          Nat.add_assoc]
      obtain ⟨fixed, restRun, restFixed⟩ := ih tiles.2
        (fun other member => measurable other (List.mem_cons_of_mem _ member))
        (fun other member => bindable other (List.mem_cons_of_mem _ member))
        ((copied.mono (by lia) (Nat.le_refl _)).after outside (Or.inr (by lia)))
      refine ⟨fixed, ?_, ?_, ?_, ?_⟩
      · have before_end : segment.currentBase + object < segment.spaceEnd :=
          Nat.add_lt_add_left inside _
        rw [if_pos before_end, run, Option.bind_eq_bind, Option.bind_some, next]
        exact restRun
      · intro other member before
        rcases List.mem_cons.mp member with same | further
        · rw [same]
          exact relocated.after (by lia) restFixed.outside (by lia)
        · exact restFixed.relocated other further before
      · intro place past under unchanged
        by_cases further : object + wholeBody file object ≤ place
        · exact restFixed.kept place further under fun other member =>
            unchanged other (List.mem_cons_of_mem _ member)
        · have apart : ¬ InWords file object place :=
            unchanged object (List.mem_cons_self ..) inside
          rw [InWords] at apart
          rw [restFixed.outside _ (Or.inl (by lia)), outside _ (by lia)]
          exact copied place past under
      · exact (outside.mono (by lia) (by lia)).trans
          (restFixed.outside.mono (by lia) (Nat.le_refl _))
    · -- Only an object without body stands at the very end, and nothing comes after it.
      refine ⟨memory, ?_, fun other member before => ?_,
        fun place past under _ => copied place past under, Bytes.SameOutside.refl _ _ _⟩
      · rw [if_neg (by rw [spaceEnd]; lia)]
      · rcases List.mem_cons.mp member with same | further
        · exact absurd (same ▸ before) inside
        · have after := (tiles.2.object_inside further).1
          lia

/-! ### The object at the very end -/

/-- Relocation gives back the same behavior word. -/
def UnmovedBehavior (platform : Platform) (segment : FileImageSegment) (imports : List Nat)
    (word : Nat) : Prop :=
  if word % 4 = 0 then segment.currentBase % 2 ^ 32 = segment.header.baseAddress % 2 ^ 32
  else if word % 4 = 2 then imports[word / 4]? = some (platform.behaviorAddressSpace + word)
  else True

theorem unmoved_iff (wide : segment.header.baseAddress < 2 ^ 64) (small : word < 2 ^ 32)
    (bindable : segment.BindableBehavior platform imports word) :
    Denotes segment.currentBase imports (platform.behaviorAddressSpace + word)
      (segment.behaviorReference platform word) ↔
    segment.UnmovedBehavior platform imports word := by
  rw [BindableBehavior] at bindable
  rw [UnmovedBehavior, behaviorReference]
  split at bindable
  next internal =>
    rw [if_pos internal, if_pos internal]
    have target := behavior_div_add_mod bindable
    have reached : (segment.oldBehaviorBase + word + segment.delta) % 2 ^ 64 =
        (segment.currentBase + segment.offset (segment.oldBehaviorBase + word)) % 2 ^ 64 :=
      relocated_offset _
    have same_low : segment.oldBehaviorBase % 2 ^ 32 = 0 := Nat.mul_mod_left ..
    rw [delta] at target reached
    constructor
    · rintro (moved | _)
      lia
    · intro equal
      refine .internal ?_
      lia
  next external =>
    rw [if_neg external, if_neg external]
    split at bindable
    next imported =>
      rw [if_pos imported, if_pos imported]
      exact ⟨fun denotes => by cases denotes; assumption, .imported⟩
    next immediate =>
      rw [if_neg immediate, if_neg immediate]
      exact ⟨fun _ => trivial, fun _ => .immediate _⟩

theorem basicBehavior_lt (memory : Bytes) (object : Nat) : basicBehavior memory object < 2 ^ 32 :=
  Bytes.load_lt

/-- The behavior word of an object at the very end stays as it is in the file. -/
theorem Fixed.last_behavior {start : Nat} {objects : List Nat} {fixed : Bytes}
    (tiles : Tiles file start segment.header.size objects)
    (done : Fixed platform segment imports file start objects memory fixed)
    (member : object ∈ objects) (last : object = segment.header.size) :
    basicBehavior fixed (segment.currentBase + object) = basicBehavior file object := by
  have above := (tiles.object_inside member).1
  refine Bytes.load_congr fun offset inner => ?_
  rw [Nat.add_sub_assoc (by lia), Nat.add_assoc]
  refine done.kept _ (by lia) (by lia) fun earlier earlierMember before words => ?_
  have apart := tiles.apart earlierMember member (last ▸ before)
  have body : pointersSize file earlier * wordSize ≤ wholeBody file earlier := pointersSize_le
  rw [InWords, slotAddress] at words
  lia

theorem Fixed.relocated_iff {start : Nat} {objects : List Nat} {fixed : Bytes}
    (wide : segment.header.baseAddress < 2 ^ 64)
    (tiles : Tiles file start segment.header.size objects)
    (bindable : ∀ object ∈ objects, segment.Bindable platform imports file object)
    (done : Fixed platform segment imports file start objects memory fixed) :
    (∀ object ∈ objects, segment.ObjectRelocated platform imports file object fixed) ↔
      ∀ object ∈ objects, object = segment.header.size →
        segment.UnmovedBehavior platform imports (basicBehavior file object) := by
  constructor
  · intro all object member last
    have denotes := (all object member).behavior
    rw [done.last_behavior tiles member last] at denotes
    exact (unmoved_iff wide (basicBehavior_lt ..) (bindable object member).behavior).mp denotes
  · intro unmoved object member
    have inside := (tiles.object_inside member).2
    by_cases last : object = segment.header.size
    · have empty : pointersSize file object * wordSize ≤ wholeBody file object := pointersSize_le
      refine ⟨?_, fun index within => ?_⟩
      · rw [done.last_behavior tiles member last]
        exact (unmoved_iff wide (basicBehavior_lt ..) (bindable object member).behavior).mpr
          (unmoved object member last)
      · rw [wordSize] at empty
        lia
    · exact done.relocated object member (by lia)

end FileImageSegment

end Egg.Memory
