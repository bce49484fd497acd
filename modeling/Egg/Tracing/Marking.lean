import Mathlib.Data.List.Forall2
import Egg.Tracing.G1GC

/-! What tracing keeps: where every object is, which words are up to date, and which are still to be
scanned. -/
namespace Egg.Tracing

namespace HeapObject

/-- The words the tracer scans: the behavior at index zero, then the slots. -/
def word (object : HeapObject) : Nat → Reference
  | 0 => object.behavior
  | index + 1 => object.slotAt (index + 1)

def wordPut (object : HeapObject) (value : Reference) : Nat → HeapObject
  | 0 => { object with behavior := value }
  | index + 1 => object.slotAtPut (index + 1) value

theorem word_wordPut {object : HeapObject} {value : Reference} {index : Nat}
    (inside : index ≤ object.size) (other : Nat) :
    (object.wordPut value index).word other = if other = index then value else object.word other := by
  cases index with
  | zero =>
    cases other with
    | zero => rfl
    | succ other => rfl
  | succ index =>
    cases other with
    | zero => rfl
    | succ other =>
      simp only [wordPut, word, slotAt, slotAtPut, Nat.add_sub_cancel, Nat.add_right_cancel_iff]
      split
      · next same =>
        subst same
        have less : other < object.slots.length := inside
        simp [List.getD_eq_getElem?_getD, less]
      · next different =>
        rw [List.getD_eq_getElem?_getD, List.getElem?_set_ne (Ne.symm different),
          ← List.getD_eq_getElem?_getD]

theorem word_above {object : HeapObject} {index : Nat} (above : object.size < index) :
    object.word index = .immediate 0 := by
  obtain ⟨less, rfl⟩ := Nat.exists_eq_add_of_lt above
  have beyond : object.slots.length ≤ object.size + less := Nat.le_add_right ..
  simp [word, slotAt, List.getD_eq_getElem?_getD, beyond]

variable (object : HeapObject) (value : Reference) (index : Nat)

@[simp] theorem wordPut_hasBeenSeen :
    (object.wordPut value index).hasBeenSeen = object.hasBeenSeen := by cases index <;> rfl

@[simp] theorem wordPut_isSpecial : (object.wordPut value index).isSpecial = object.isSpecial := by
  cases index <;> rfl

@[simp] theorem wordPut_frames : (object.wordPut value index).frames = object.frames := by
  cases index <;> rfl

@[simp] theorem wordPut_size : (object.wordPut value index).size = object.size := by
  cases index with
  | zero => rfl
  | succ index => exact List.length_set

@[simp] theorem beSeen_word : object.beSeen.word index = object.word index := by
  cases index <;> rfl

end HeapObject

/-- What a collection starts with: the marks are cleared, no word leaves the heap, the regions to
evacuate hold objects of the heap, and the classes of special objects lie outside them. -/
structure Start where
  runtime : Runtime
  heap : Nat → HeapObject
  count : Nat
  context : List Reference
  gcedRefs : List Reference
  unmarked : ∀ object < count, (heap object).hasBeenSeen = false
  closed : ∀ object < count, ∀ index target,
    (heap object).word index = .object target → target < count
  framesClosed : ∀ object < count, ∀ target,
    Reference.object target ∈ (heap object).frames → target < count
  rootsClosed : ∀ target, Reference.object target ∈ context ++ gcedRefs → target < count
  evacuated_lt : ∀ object, runtime.evacuated object = true → object < count
  ephemeronClass : runtime.ephemeronClass < count ∧
    runtime.evacuated runtime.ephemeronClass = false
  processStackClass : runtime.processStackClass < count ∧
    runtime.evacuated runtime.processStackClass = false

namespace Start

variable (start : Start)

/-- The collector before it has reached anything. -/
def gc : G1GC where
  heap := start.heap
  next := start.count
  forwarder := fun _ => 0
  _stack := []
  _scanned := 0
  _index := 0
  _limit := 0
  _stacks := []
  _weakContainers := []
  _uncheckedEphemerons := []
  _unreachedEphemerons := []
  _rescuedEphemerons := []
  _liveEphemerons := []
  context := start.context
  gcedRefs := start.gcedRefs

def IsEphemeron (object : Nat) : Prop :=
  (start.heap object).isSpecial = true ∧
    start.gc.speciesOf object = .object start.runtime.ephemeronClass

def IsProcessStack (object : Nat) : Prop :=
  (start.heap object).isSpecial = true ∧
    start.gc.speciesOf object ≠ .object start.runtime.ephemeronClass ∧
    start.gc.speciesOf object = .object start.runtime.processStackClass

/-- A set of objects closed under what the collector traces: behaviors, strong slots, the slots and
frames of suspended stacks, and the slots of ephemerons whose keys are in the set. -/
structure Closed (reached : Nat → Prop) : Prop where
  behavior : ∀ object target, object < start.count → reached object →
    (start.heap object).word 0 = .object target → reached target
  slot : ∀ object index target, object < start.count → reached object →
    (start.heap object).isSpecial = false → (start.heap object).word index = .object target →
    reached target
  processStack : ∀ object target, object < start.count → reached object →
    start.IsProcessStack object →
    (∃ index, (start.heap object).word index = .object target) ∨
      Reference.object target ∈ (start.heap object).frames → reached target
  ephemeron : ∀ object index target, object < start.count → reached object →
    start.IsEphemeron object →
    (∀ key, (start.heap object).slotAt 1 = .object key → reached key) →
    (start.heap object).word index = .object target → reached target

/-- The least such set with some objects in it. -/
inductive Reached (base : Nat → Prop) : Nat → Prop where
  | base {target} : base target → Reached base target
  | behavior {object target} : Reached base object →
      (start.heap object).word 0 = .object target → Reached base target
  | slot {object index target} : Reached base object → (start.heap object).isSpecial = false →
      (start.heap object).word index = .object target → Reached base target
  | processStack {object index target} : Reached base object → start.IsProcessStack object →
      (start.heap object).word index = .object target → Reached base target
  | frame {object target} : Reached base object → start.IsProcessStack object →
      Reference.object target ∈ (start.heap object).frames → Reached base target
  | ephemeron {object index target} : Reached base object → start.IsEphemeron object →
      (∀ key, (start.heap object).slotAt 1 = .object key → Reached base key) →
      (start.heap object).word index = .object target → Reached base target

theorem reached_closed {base : Nat → Prop} : start.Closed (start.Reached base) where
  behavior _ _ _ := .behavior
  slot _ _ _ _ := .slot
  processStack := by
    intro object target _ reached kind target
    rcases target with ⟨index, target⟩ | target
    · exact .processStack reached kind target
    · exact .frame reached kind target
  ephemeron _ _ _ _ := .ephemeron

/-- What the roots refer to. -/
def Root (target : Nat) : Prop := Reference.object target ∈ start.context ++ start.gcedRefs

/-- The whole heap is closed. -/
theorem closed_all : start.Closed (· < start.count) where
  behavior object target inside _ word := start.closed object inside 0 target word
  slot object index target inside _ _ word := start.closed object inside index target word
  processStack := by
    intro object target inside _ _ target
    rcases target with ⟨index, target⟩ | target
    · exact start.closed object inside index _ target
    · exact start.framesClosed object inside _ target
  ephemeron object index target inside _ _ _ word := start.closed object inside index target word

end Start

variable {start : Start}

/-- Where an object is: at its copy once it has been evacuated. -/
def current (start : Start) (objects : Objects) (object : Nat) : Nat :=
  if start.runtime.evacuated object && (objects.heap object).hasBeenSeen then objects.forwarder object
  else object

/-- A word that started as the first one holds the current address of its referent. -/
def Resolved (start : Start) (objects : Objects) : Reference → Reference → Prop
  | .immediate value, word => word = .immediate value
  | .object target, word =>
    (objects.heap target).hasBeenSeen = true ∧ word = .object (current start objects target)

/-- An object in the place of one of the start, some of its words up to date. -/
structure Keeps (start : Start) (objects : Objects) (original object : HeapObject) : Prop where
  special : object.isSpecial = original.isSpecial
  size : object.size = original.size
  word : ∀ index, object.word index = original.word index ∨
    Resolved start objects (original.word index) (object.word index)
  frames : object.frames = original.frames ∨
    List.Forall₂ (Resolved start objects) original.frames object.frames

/-- Objects that were not reached are as they were, and so are those that copies were made of;
copies have addresses of their own, and what was reached is kept at its current address. -/
structure Heaped (start : Start) (objects : Objects) : Prop where
  count_le : start.count ≤ objects.next
  unseen : ∀ object < start.count, (objects.heap object).hasBeenSeen = false →
    objects.heap object = start.heap object
  left : ∀ object, start.runtime.evacuated object = true →
    (objects.heap object).hasBeenSeen = true → objects.heap object = (start.heap object).beSeen
  fresh : ∀ object, start.runtime.evacuated object = true →
    (objects.heap object).hasBeenSeen = true →
    start.count ≤ objects.forwarder object ∧ objects.forwarder object < objects.next
  apart : ∀ object other, start.runtime.evacuated object = true →
    (objects.heap object).hasBeenSeen = true → start.runtime.evacuated other = true →
    (objects.heap other).hasBeenSeen = true → objects.forwarder object = objects.forwarder other → object = other
  marked : ∀ object < start.count, (objects.heap object).hasBeenSeen = true →
    (objects.heap (current start objects object)).hasBeenSeen = true
  kept : ∀ object < start.count, (objects.heap object).hasBeenSeen = true →
    Keeps start objects (start.heap object) (objects.heap (current start objects object))
  filled : ∀ address, start.count ≤ address → address < objects.next → ∃ object,
    start.runtime.evacuated object = true ∧ (objects.heap object).hasBeenSeen = true ∧
      objects.forwarder object = address

section Addresses

variable {objects : Objects}

theorem current_unmoved {object : Nat} (stays : start.runtime.evacuated object = false) :
    current start objects object = object := by
  simp [current, stays]

theorem current_unseen {object : Nat} (unseen : (objects.heap object).hasBeenSeen = false) :
    current start objects object = object := by
  simp [current, unseen]

theorem current_moved {object : Nat} (moves : start.runtime.evacuated object = true)
    (seen : (objects.heap object).hasBeenSeen = true) :
    current start objects object = objects.forwarder object := by
  simp [current, moves, seen]

namespace Heaped

variable (heaped : Heaped start objects)

include heaped

theorem current_lt {object : Nat} (inside : object < start.count) :
    current start objects object < objects.next := by
  have count := heaped.count_le
  unfold current
  split
  · next moved =>
    rw [Bool.and_eq_true] at moved
    exact (heaped.fresh object moved.1 moved.2).2
  · lia

/-- A current address inside the old heap is that of an object that stays. -/
theorem eq_of_current_lt {object : Nat} (low : current start objects object < start.count) :
    current start objects object = object := by
  unfold current at low ⊢
  split at low
  · next moved =>
    rw [Bool.and_eq_true] at moved
    have fresh := (heaped.fresh object moved.1 moved.2).1
    lia
  · next stays => rw [if_neg stays]

theorem current_injective {object other : Nat} (inside : object < start.count)
    (inside' : other < start.count)
    (same : current start objects object = current start objects other) : object = other := by
  by_cases low : current start objects object < start.count
  · have first := heaped.eq_of_current_lt low
    have second := heaped.eq_of_current_lt (same ▸ low)
    rw [← first, same, second]
  · unfold current at same low
    split at same
    · next moved =>
      rw [Bool.and_eq_true] at moved
      split at same
      · next moved' =>
        rw [Bool.and_eq_true] at moved'
        exact heaped.apart object other moved.1 moved.2 moved'.1 moved'.2 same
      · have fresh := (heaped.fresh object moved.1 moved.2).1
        lia
    · next stays =>
      rw [if_neg stays] at low
      exact absurd inside low

/-- What was reached is not where something unreached is. -/
theorem current_ne_unseen {object other : Nat} (inside : object < start.count)
    (seen : (objects.heap object).hasBeenSeen = true)
    (unseen : (objects.heap other).hasBeenSeen = false) : current start objects object ≠ other := by
  intro same
  have marked := heaped.marked object inside seen
  rw [same, unseen] at marked
  cases marked

/-- A word at an old address is as it was, or up to date. -/
theorem old_word {object : Nat} (inside : object < start.count) (index : Nat) :
    (objects.heap object).word index = (start.heap object).word index ∨
      Resolved start objects ((start.heap object).word index) ((objects.heap object).word index) := by
  cases seen : (objects.heap object).hasBeenSeen with
  | false =>
    left
    rw [heaped.unseen object inside seen]
  | true =>
    cases moves : start.runtime.evacuated object with
    | true =>
      left
      rw [heaped.left object moves seen, HeapObject.beSeen_word]
    | false =>
      have kept := (heaped.kept object inside seen).word index
      rwa [current_unmoved moves] at kept

/-- Whether a word refers to an object that does not move is not changed by updating it. -/
theorem refers_iff {original word : Reference} {target : Nat}
    (stands : word = original ∨ Resolved start objects original word) (inside : target < start.count)
    (stays : start.runtime.evacuated target = false) :
    word = .object target ↔ original = .object target := by
  rcases stands with same | resolved
  · rw [same]
  · cases original with
    | immediate value =>
      have same : word = .immediate value := resolved
      simp [same]
    | object referent =>
      have same := resolved.2
      rw [same, Reference.object.injEq, Reference.object.injEq]
      constructor
      · intro here
        have unmoved := heaped.eq_of_current_lt (here ▸ inside)
        rw [← unmoved, here]
      · intro here
        rw [here, current_unmoved stays]

end Heaped

/-- The species of an object whose behavior was not scanned yet is that of the start. -/
theorem Heaped.species_iff {gc : G1GC} (heaped : Heaped start gc.toObjects)
    {object original target : Nat} (inside : original < start.count)
    (same : (gc.heap object).behavior = (start.heap original).behavior)
    (below : target < start.count) (stays : start.runtime.evacuated target = false) :
    gc.speciesOf object = .object target ↔ start.gc.speciesOf original = .object target := by
  have started : (start.gc.heap original).behavior = (start.heap original).behavior := rfl
  rw [G1GC.speciesOf, G1GC.speciesOf, started, same]
  cases word : (start.heap original).behavior with
  | immediate value => rfl
  | object behavior =>
    have low := start.closed original inside 0 behavior word
    exact heaped.refers_iff (heaped.old_word low 1) below stays

end Addresses

/-- Marks are not taken back, and what was reached does not move again. -/
structure Extends (start : Start) (objects objects' : Objects) : Prop where
  seen : ∀ object, (objects.heap object).hasBeenSeen = true →
    (objects'.heap object).hasBeenSeen = true
  current : ∀ object, (objects.heap object).hasBeenSeen = true →
    current start objects' object = current start objects object

section Marks

variable {objects objects' : Objects}

theorem Extends.refl (objects : Objects) : Extends start objects objects :=
  ⟨fun _ seen => seen, fun _ _ => rfl⟩

theorem Extends.trans {objects'' : Objects} (first : Extends start objects objects')
    (second : Extends start objects' objects'') : Extends start objects objects'' where
  seen object seen := second.seen object (first.seen object seen)
  current object seen :=
    (second.current object (first.seen object seen)).trans (first.current object seen)

theorem Extends.resolved (extends_ : Extends start objects objects') {original word : Reference}
    (resolved : Resolved start objects original word) : Resolved start objects' original word := by
  cases original with
  | immediate value => exact resolved
  | object target =>
    obtain ⟨seen, same⟩ := resolved
    refine ⟨extends_.seen target seen, ?_⟩
    rw [same, extends_.current target seen]

theorem Extends.keeps (extends_ : Extends start objects objects') {original object : HeapObject}
    (keeps : Keeps start objects original object) : Keeps start objects' original object where
  special := keeps.special
  size := keeps.size
  word index := (keeps.word index).imp id extends_.resolved
  frames := keeps.frames.imp id (List.Forall₂.imp fun _ _ => extends_.resolved)

/-- A copy of an object, or the object itself once it is marked. -/
theorem Keeps.beSeen (objects : Objects) (original : HeapObject) :
    Keeps start objects original original.beSeen where
  special := rfl
  size := rfl
  word _ := Or.inl (HeapObject.beSeen_word ..)
  frames := Or.inl rfl

/-- Where a first marked object is put: in its own place, or at the next free address. -/
structure Puts (start : Start) (objects : Objects) (target place : Nat) (objects' : Objects) :
    Prop where
  before : Heaped start objects
  inside : target < start.count
  unseen : (objects.heap target).hasBeenSeen = false
  choice : start.runtime.evacuated target = false ∧ place = target ∧
      objects'.next = objects.next ∨
    start.runtime.evacuated target = true ∧ place = objects.next ∧
      objects'.next = objects.next + 1 ∧ objects'.forwarder target = place
  original : objects'.heap target = (start.heap target).beSeen
  copy : objects'.heap place = (start.heap target).beSeen
  heap : ∀ address, address ≠ target → address ≠ place →
    objects'.heap address = objects.heap address
  forwarder : ∀ object, object ≠ target → objects'.forwarder object = objects.forwarder object

theorem Heaped.puts (heaped : Heaped start objects) {target : Nat} (inside : target < start.count)
    (unseen : (objects.heap target).hasBeenSeen = false) :
    let seen := objects.atPut target (objects.heap target).beSeen
    Puts start objects target (if start.runtime.evacuated target then objects.next else target)
      (if start.runtime.evacuated target then seen.evacuate target else seen) := by
  have there := heaped.unseen target inside unseen
  have count := heaped.count_le
  cases moves : start.runtime.evacuated target with
  | false =>
    refine ⟨heaped, inside, unseen, Or.inl ⟨moves, rfl, rfl⟩, ?_, ?_, fun address different _ => ?_, fun _ _ => rfl⟩
    · simp [Objects.atPut, there]
    · simp [Objects.atPut, there]
    · simp [Objects.atPut, different]
  | true =>
    have apart : target ≠ objects.next := by lia
    refine ⟨heaped, inside, unseen, Or.inr ⟨moves, rfl, rfl, ?_⟩, ?_, ?_,
      fun address different new => ?_, fun object different => ?_⟩
    · simp [Objects.evacuate, Objects.atPut]
    · simp [Objects.evacuate, Objects.atPut, apart, there]
    · simp [Objects.evacuate, Objects.atPut, there]
    · simp only [if_true] at new
      simp [Objects.evacuate, Objects.atPut, different, new]
    · simp [Objects.evacuate, Objects.atPut, different]

namespace Puts

variable {target place : Nat} (puts : Puts start objects target place objects')

include puts

theorem current_target : current start objects' target = place := by
  rcases puts.choice with ⟨stays, same, _⟩ | ⟨moves, _, _, forward⟩
  · rw [current_unmoved stays, same]
  · rw [current_moved moves (by rw [puts.original]; rfl), forward]

theorem old_ne_place {address : Nat} (old : address < objects.next)
    (different : address ≠ target) : address ≠ place := by
  rcases puts.choice with ⟨_, same, _⟩ | ⟨_, same, _⟩
  · rw [same]
    exact different
  · lia

theorem current_other {object : Nat} (different : object ≠ target) :
    current start objects' object = current start objects object := by
  cases moves : start.runtime.evacuated object with
  | false => rw [current_unmoved moves, current_unmoved moves]
  | true =>
    have below := start.evacuated_lt object moves
    have count := puts.before.count_le
    have apart := puts.old_ne_place (by lia) different
    unfold current
    rw [puts.heap object different apart, puts.forwarder object different]

theorem ne_target {object : Nat} (seen : (objects.heap object).hasBeenSeen = true) :
    object ≠ target := by
  rintro rfl
  rw [puts.unseen] at seen
  cases seen

theorem extends_ : Extends start objects objects' := by
  constructor
  · intro object seen
    by_cases copied : object = place
    · rw [copied, puts.copy]
      rfl
    · rw [puts.heap object (puts.ne_target seen) copied]
      exact seen
  · intro object seen
    exact puts.current_other (puts.ne_target seen)

/-- In the old heap only the target's mark changes. -/
theorem heap_old {object : Nat} (old : object < start.count) (different : object ≠ target) :
    objects'.heap object = objects.heap object := by
  have count := puts.before.count_le
  exact puts.heap object different
    (puts.old_ne_place (Nat.lt_of_lt_of_le old count) different)

theorem seen_iff {object : Nat} (old : object < start.count) :
    (objects'.heap object).hasBeenSeen = true ↔
      (objects.heap object).hasBeenSeen = true ∨ object = target := by
  by_cases same : object = target
  · rw [same, puts.original]
    simp [HeapObject.beSeen]
  · rw [puts.heap_old old same]
    simp [same]

/-- What was reached before is still held where it was. -/
theorem heap_current {object : Nat} (old : object < start.count)
    (seen : (objects.heap object).hasBeenSeen = true) :
    objects'.heap (current start objects object) = objects.heap (current start objects object) := by
  have apart := puts.before.current_ne_unseen old seen puts.unseen
  exact puts.heap _ apart
    (puts.old_ne_place (puts.before.current_lt old) apart)

theorem heaped : Heaped start objects' := by
  have count := puts.before.count_le
  have moved : ∀ object, start.runtime.evacuated object = true →
      (objects'.heap object).hasBeenSeen = true → object ≠ target →
      (objects.heap object).hasBeenSeen = true := by
    intro object moves seen different
    rwa [puts.heap_old (start.evacuated_lt object moves) different] at seen
  constructor
  · rcases puts.choice with ⟨_, _, next⟩ | ⟨_, _, next, _⟩ <;> lia
  · intro object old unseen'
    have different : object ≠ target := by
      rintro rfl
      rw [puts.original] at unseen'
      cases unseen'
    have same := puts.heap_old old different
    rw [same] at unseen' ⊢
    exact puts.before.unseen object old unseen'
  · intro object moves seen
    by_cases same : object = target
    · rw [same, puts.original]
    · rw [puts.heap_old (start.evacuated_lt object moves) same]
      exact puts.before.left object moves (moved object moves seen same)
  · intro object moves seen
    by_cases same : object = target
    · rcases puts.choice with ⟨stays, _⟩ | ⟨_, place, next, forward⟩
      · rw [← same, moves] at stays
        cases stays
      · rw [same, forward]
        lia
    · have fresh := puts.before.fresh object moves (moved object moves seen same)
      rw [puts.forwarder object same]
      rcases puts.choice with ⟨_, _, next⟩ | ⟨_, _, next, _⟩ <;> lia
  · intro object other moves seen moves' seen' forwarded
    by_cases same : object = target
    · by_cases same' : other = target
      · rw [same, same']
      · have fresh := puts.before.fresh other moves' (moved other moves' seen' same')
        rw [puts.forwarder other same', same] at forwarded
        rcases puts.choice with ⟨stays, _⟩ | ⟨_, place, _, forward⟩
        · rw [← same, moves] at stays
          cases stays
        · lia
    · have fresh := puts.before.fresh object moves (moved object moves seen same)
      by_cases same' : other = target
      · rw [puts.forwarder object same, same'] at forwarded
        rcases puts.choice with ⟨stays, _⟩ | ⟨_, place, _, forward⟩
        · rw [← same', moves'] at stays
          cases stays
        · lia
      · rw [puts.forwarder object same, puts.forwarder other same'] at forwarded
        exact puts.before.apart object other moves (moved object moves seen same) moves'
          (moved other moves' seen' same') forwarded
  · intro object old seen
    by_cases same : object = target
    · rw [same, puts.current_target, puts.copy]
      rfl
    · have before := ((puts.seen_iff old).mp seen).resolve_right same
      rw [puts.current_other same,
        puts.heap_current old before]
      exact puts.before.marked object old before
  · intro object old seen
    by_cases same : object = target
    · rw [same, puts.current_target, puts.copy]
      exact .beSeen objects' _
    · have before := ((puts.seen_iff old).mp seen).resolve_right same
      rw [puts.current_other same,
        puts.heap_current old before]
      exact puts.extends_.keeps (puts.before.kept object old before)
  · intro address low high
    by_cases earlier : address < objects.next
    · obtain ⟨object, moves, seen, forward⟩ := puts.before.filled address low earlier
      have different := puts.ne_target seen
      exact ⟨object, moves, puts.extends_.seen object seen,
        (puts.forwarder object different).trans forward⟩
    · rcases puts.choice with ⟨_, _, next⟩ | ⟨moves, there, next, forward⟩
      · lia
      · refine ⟨target, moves, ?_, by lia⟩
        rw [puts.original]
        rfl

end Puts

end Marks

end Egg.Tracing
