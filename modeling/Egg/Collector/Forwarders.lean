import Egg.Collector.Zone
import Egg.Memory.Parsable

/-! Where the collector leaves the address of a copy: in the memory behind the region of the object
that was copied. -/
namespace Egg.Memory

open HeapObject

variable {memory : Data.Bytes} {start limit object : Nat} {objects : List Nat}

theorem wholeBody_words : 8 ∣ wholeBody memory object := by
  rw [wholeBody, wordSize]
  split
  · exact Dvd.intro_left _ rfl
  · exact Dvd.intro_left _ rfl

/-- Objects are as far from a word as the start of their space. -/
theorem Tiles.aligned (tiles : Tiles memory start limit objects) (member : object ∈ objects) :
    object % 8 = start % 8 := by
  induction objects generalizing start with
  | nil => cases member
  | cons first objects ih =>
    have header : first % 8 = start % 8 := by
      have standing := tiles.1
      unfold HeaderAt at standing
      split_ifs at standing <;> omega
    rcases List.mem_cons.mp member with same | further
    · rw [same, header]
    · have words : 8 ∣ wholeBody memory first := wholeBody_words
      have rest := ih tiles.2 further
      omega

/-- An object has its header in its space, too. -/
theorem Tiles.whole_inside (tiles : Tiles memory start limit objects) (member : object ∈ objects) :
    start + Collector.headerSizeInBytes memory object ≤ object ∧
      object + wholeBody memory object ≤ limit := by
  induction objects generalizing start with
  | nil => cases member
  | cons first objects ih =>
    have above := tiles.1.above
    rcases List.mem_cons.mp member with same | further
    · rw [same]
      refine ⟨?_, tiles.2.le⟩
      have standing := tiles.1
      unfold HeaderAt at standing
      unfold Collector.headerSizeInBytes
      split_ifs at standing ⊢ <;> omega
    · obtain ⟨low, high⟩ := ih tiles.2 further
      exact ⟨by omega, high⟩

end Egg.Memory

namespace Egg.Collector

open Egg.Data Egg.Memory HeapObject

/-- A heap that can be walked, whose zone's regions stand one after the other. -/
structure Regions where
  zone : Zone
  parsable : zone.heap.Parsable
  word : 8 ∣ zone.base
  placed : ∀ region position, zone.regions[region]? = some position → ∃ space,
    zone.heap.spaces[position]? = some space ∧
      space.base = zone.base + region * (spaceSize + spaceSize) ∧
      space.reservedLimit = space.base + spaceSize
  within : zone.base + zone.regions.length * (spaceSize + spaceSize) ≤ zone.limit
  beside : ∀ position space, zone.heap.spaces[position]? = some space → position ∉ zone.regions →
    space.reservedLimit ≤ zone.base ∨ zone.limit ≤ space.base

namespace Regions

variable (regions : Regions) (evacuated : List Bool) (live : Nat → Prop)

/-- The first address of a region. -/
def baseOf (region : Nat) : Nat := regions.zone.base + region * (spaceSize + spaceSize)

/-- The address after the last one that objects of a region can have. -/
def limitOf (region : Nat) : Nat := regions.baseOf region + spaceSize

/-- An object of an evacuated region is reached. -/
structure Copied (region object : Nat) : Prop where
  chosen : evacuated[region]? = some true
  inside : ∃ position, regions.zone.regions[region]? = some position ∧
    object ∈ regions.zone.heap.objectsIn position
  live : live object

/-- Forwarders stand in the half of their own region, apart from each other and from every object
that is live. -/
structure Private : Prop where
  own : ∀ region object, regions.Copied evacuated live region object →
    regions.limitOf region ≤ forwarder object ∧
      forwarder object + 8 ≤ regions.limitOf region + spaceSize
  distinct : ∀ region object beside other, regions.Copied evacuated live region object →
    regions.Copied evacuated live beside other → object ≠ other →
    forwarder object + 8 ≤ forwarder other ∨ forwarder other + 8 ≤ forwarder object
  apart : ∀ region object position other, regions.Copied evacuated live region object →
    other ∈ regions.zone.heap.objectsIn position → live other →
    forwarder object + 8 ≤ other - headerSizeInBytes regions.zone.heap.memory other ∨
      other + wholeBody regions.zone.heap.memory other ≤ forwarder object

variable {regions evacuated live} {region object position : Nat}

theorem exists_space (inside : object ∈ regions.zone.heap.objectsIn position) :
    ∃ space objects, regions.zone.heap.spaces[position]? = some space ∧ object ∈ objects ∧
      Tiles regions.zone.heap.memory space.base space.next objects := by
  obtain ⟨objects, parsed⟩ := regions.parsable.parsed position
  have walked := parsed.objectsIn_eq
  unfold GCHeap.Parsed at parsed
  split at parsed
  next space found => exact ⟨space, objects, found, walked ▸ inside, parsed.1⟩
  next missing =>
    rw [walked, parsed] at inside
    cases inside

theorem space_laid {space : GCSpace} (found : regions.zone.heap.spaces[position]? = some space) :
    space.Laid :=
  regions.parsable.laid.spaces space (List.mem_of_getElem? found)

/-- Where an object of a region stands: its address can be the region's limit. -/
structure Standing (region object : Nat) : Prop where
  known : region < regions.zone.regions.length
  above : regions.baseOf region + 8 ≤ object
  below : object ≤ regions.limitOf region
  word : object % 8 = 0

theorem baseOf_word : regions.baseOf region % 8 = 0 := by
  obtain ⟨words, base⟩ := regions.word
  have size : spaceSize = 262144 := rfl
  rw [baseOf, base, size]
  omega

theorem standing (found : regions.zone.regions[region]? = some position)
    (inside : object ∈ regions.zone.heap.objectsIn position) :
    regions.Standing region object := by
  obtain ⟨space, objects, here, member, tiles⟩ := exists_space inside
  obtain ⟨same, there, base, limit⟩ := regions.placed region position found
  rw [here] at there
  cases there
  obtain ⟨low, high⟩ := tiles.object_inside member
  have laid := space_laid here
  have next := laid.committed.trans laid.reserved
  have aligned := tiles.aligned member
  have word : regions.baseOf region % 8 = 0 := baseOf_word
  have start : space.base = regions.baseOf region := base
  refine ⟨(List.getElem?_eq_some_iff.mp found).1, by omega, ?_, by omega⟩
  rw [limitOf, ← start, ← limit]
  omega

theorem Copied.standing (copied : regions.Copied evacuated live region object) :
    regions.Standing region object := by
  obtain ⟨position, found, inside⟩ := copied.inside
  exact Regions.standing found inside

/-- The collector takes an object for one of the region it is in, at its limit, too. -/
theorem Standing.hasToEvacuate (standing : regions.Standing region object) :
    regions.zone.hasToEvacuate evacuated object = evacuated.getD region false := by
  obtain ⟨known, above, below, -⟩ := standing
  have within := regions.within
  have size : spaceSize = 262144 := rfl
  unfold limitOf at below
  unfold baseOf at above below
  rw [size] at above below within
  have pointer : regions.zone.indexOfPointer object = region + 1 := by
    rw [Zone.indexOfPointer, size]
    omega
  have index : regions.zone.regionIndexOf object = (region + 1 : Nat) := by
    rw [Zone.regionIndexOf, if_neg (by omega), if_neg (by omega), pointer]
  rw [Zone.hasToEvacuate, index]
  simp

theorem forwarder_own (standing : regions.Standing region object)
    (apart : object ≠ regions.limitOf region) :
    regions.limitOf region ≤ forwarder object ∧
      forwarder object + 8 ≤ regions.limitOf region + spaceSize := by
  obtain ⟨-, above, below, word⟩ := standing
  have base : regions.baseOf region % 8 = 0 := baseOf_word
  have size : spaceSize = 262144 := rfl
  unfold limitOf at apart below ⊢
  rw [forwarder, forwarderOffset]
  omega

theorem Private.bounded (own_half : regions.Private evacuated live)
    (copied : regions.Copied evacuated live region object) : object ≠ regions.limitOf region := by
  intro last
  obtain ⟨-, below⟩ := own_half.own region object copied
  rw [forwarder, forwarderOffset, last] at below
  omega

/-- Memory for forwarders holds no objects. -/
theorem half_apart {other beside : Nat} (known : region < regions.zone.regions.length)
    (inside : other ∈ regions.zone.heap.objectsIn beside) :
    regions.limitOf region + spaceSize ≤ other - headerSizeInBytes regions.zone.heap.memory other ∨
      other + wholeBody regions.zone.heap.memory other ≤ regions.limitOf region := by
  obtain ⟨space, objects, here, member, tiles⟩ := exists_space inside
  obtain ⟨low, high⟩ := tiles.whole_inside member
  have laid := space_laid here
  have next := laid.committed.trans laid.reserved
  have within := regions.within
  have size : spaceSize = 262144 := rfl
  by_cases owned : beside ∈ regions.zone.regions
  · obtain ⟨place, found⟩ := List.mem_iff_getElem?.mp owned
    obtain ⟨same, there, base, limit⟩ := regions.placed place beside found
    rw [here] at there
    cases there
    rw [limitOf, baseOf]
    rw [size] at base limit ⊢
    omega
  · rcases regions.beside beside space here owned with below | above
    · right
      rw [limitOf, baseOf]
      omega
    · left
      rw [limitOf, baseOf]
      rw [size] at within ⊢
      omega

/-- Forwarders are private exactly when no object that is copied ends where its region does with
nothing but a header. -/
theorem private_iff (regions : Regions) (evacuated : List Bool) (live : Nat → Prop) :
    regions.Private evacuated live ↔ ∀ region object,
      regions.Copied evacuated live region object → object ≠ regions.limitOf region := by
  constructor
  · intro own_half region object copied
    exact own_half.bounded copied
  · intro bounded
    refine ⟨?_, ?_, ?_⟩
    · intro region object copied
      exact forwarder_own copied.standing (bounded region object copied)
    · intro region object beside other copied also different
      have word := copied.standing.word
      have otherWord := also.standing.word
      rw [forwarder, forwarder]
      omega
    · intro region object position other copied inside _
      obtain ⟨above, below⟩ := forwarder_own copied.standing (bounded region object copied)
      rcases half_apart copied.standing.known inside with after | before
      · exact Or.inl (below.trans after)
      · exact Or.inr (before.trans above)

/-- While forwarders are private, storing one keeps the others and every live object. -/
theorem Private.stored {memory : Bytes} {copy : Nat} (own_half : regions.Private evacuated live)
    (copied : regions.Copied evacuated live region object) (address : copy < 2 ^ 64) :
    copyOf (storeForwarder memory object copy) object = copy ∧
      (∀ beside other, regions.Copied evacuated live beside other → other ≠ object →
        copyOf (storeForwarder memory object copy) other = copyOf memory other) ∧
      ∀ position other, other ∈ regions.zone.heap.objectsIn position → live other →
        ∀ place, other - headerSizeInBytes regions.zone.heap.memory other ≤ place →
          place < other + wholeBody regions.zone.heap.memory other →
          storeForwarder memory object copy place = memory place := by
  refine ⟨Bytes.load_store address, ?_, ?_⟩
  · intro beside other also different
    exact Bytes.load_store_apart (own_half.distinct beside other region object also copied different)
  · intro position other inside reached place above below
    have apart := own_half.apart region object position other copied inside reached
    exact Bytes.store_outside (by omega)

end Regions

/-- Two regions: in the first one an object of bytes, and one without a body at the very end; in
the second one an object at the start. -/
def fullRegions : Zone where
  heap := {
    memory := fun address =>
      if address = 0x100000 then 0xE8 else if address = 0x100001 then 0xFF
      else if address = 0x100002 then 3 else if address = 0x10000B then 1
      else if address = 0x13FFFB then 0x80 else if address = 0x180003 then 0x80 else 0
    spaces := [⟨0x100000, 0x140000, 0x140000, 0x140000, 0x140000⟩,
      ⟨0x180000, 0x180008, 0x1C0000, 0x1C0000, 0x1C0000⟩]
    oldZone := ⟨0x200000, 0x200000, 1, 1, []⟩
    countdown := mb
    gcNeeded := false
    atGCSafepoint := false
    atGCUnsafepoint := false
    nextFree := 0x200000
    mappings := [(0x100000, 0x200000)] }
  base := 0x100000
  regions := [0, 1]
  occupancy := [1, spaceSize]

theorem fullRegions_parsed (index : Nat) : fullRegions.heap.Parsed index
    (match index with
      | 0 => [0x100010, 0x140000]
      | 1 => [0x180008]
      | _ + 2 => []) := by
  match index with
  | 0 =>
    constructor
    · decide +kernel
    · intro object member
      simp only [List.mem_cons, List.not_mem_nil, or_false] at member
      rcases member with rfl | rfl <;> decide +kernel
  | 1 =>
    constructor
    · decide +kernel
    · intro object member
      rw [List.mem_singleton.mp member]
      decide +kernel
  | _ + 2 => rfl

theorem fullRegions_laid : fullRegions.heap.Laid where
  spaces := by
    intro space member
    rcases List.mem_cons.mp member with rfl | further
    · constructor <;> decide
    · rw [List.mem_singleton.mp further]
      constructor <;> decide
  apart := .cons (fun space member => by
    rw [List.mem_singleton.mp member]
    exact Or.inl (by decide)) (List.pairwise_singleton ..)
  mapped := by
    intro space member
    refine ⟨_, List.mem_singleton_self _, ?_⟩
    rcases List.mem_cons.mp member with rfl | further
    · decide
    · rw [List.mem_singleton.mp further]
      decide
  zoneMapped := ⟨_, List.mem_singleton_self _, by decide⟩
  ahead := by
    intro space member
    rcases List.mem_cons.mp member with rfl | further
    · exact Or.inl (by decide)
    · rw [List.mem_singleton.mp further]
      exact Or.inl (by decide)
  regions := ⟨0, rfl⟩

def regionsFull : Regions where
  zone := fullRegions
  parsable := ⟨fullRegions_laid, fun index => ⟨_, fullRegions_parsed index⟩⟩
  word := by decide
  placed := by
    intro region position found
    match region with
    | 0 =>
      cases found
      exact ⟨_, rfl, by decide, by decide⟩
    | 1 =>
      cases found
      exact ⟨_, rfl, by decide, by decide⟩
    | _ + 2 => cases found
  within := by decide
  beside := by
    intro position space found missing
    match position with
    | 0 => exact absurd (List.mem_cons_self ..) missing
    | 1 => exact absurd (List.mem_cons_of_mem _ (List.mem_cons_self ..)) missing
    | _ + 2 => cases found

/-- The forwarder of the object at the end of the first region is where the second one starts, over
the header of its first object. -/
theorem last_forwarder_overlaps :
    regionsFull.Copied [true, false] (fun _ => True) 0 0x140000 ∧
      forwarder 0x140000 = 0x180008 - headerSizeInBytes fullRegions.heap.memory 0x180008 ∧
      ¬ regionsFull.Private [true, false] fun _ => True := by
  have copied : regionsFull.Copied [true, false] (fun _ => True) 0 0x140000 := by
    refine ⟨rfl, ⟨0, rfl, ?_⟩, trivial⟩
    change 0x140000 ∈ fullRegions.heap.objectsIn 0
    rw [(fullRegions_parsed 0).objectsIn_eq]
    simp
  refine ⟨copied, by decide +kernel, ?_⟩
  intro own_half
  exact own_half.bounded copied (by decide)

end Egg.Collector
