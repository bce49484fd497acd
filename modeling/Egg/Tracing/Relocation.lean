import Egg.Tracing.Allocation
import Egg.Tracing.Fixpoint

/-! What an allocation that may collect does to the objects that were there: the roots follow them. -/
namespace Egg.Tracing

open Egg.Data

namespace Reference

/-- A word after the objects have moved. -/
def relocate (now : Nat → Nat) : Reference → Reference
  | .immediate value => .immediate value
  | .object address => .object (now address)

@[simp] theorem relocate_id (word : Reference) : word.relocate id = word := by
  cases word <;> rfl

end Reference

section Words

variable {start : Start} {objects : Objects}

theorem Resolved.relocate {original word : Reference} (resolved : Resolved start objects original word) :
    word = original.relocate (current start objects) := by
  cases original with
  | immediate value => exact resolved
  | object target => exact resolved.2

theorem relocate_of_resolved {originals words : List Reference}
    (resolved : List.Forall₂ (Resolved start objects) originals words) :
    words = originals.map (Reference.relocate (current start objects)) := by
  induction resolved with
  | nil => rfl
  | cons first _ ih => rw [List.map_cons, first.relocate, ih]

theorem Keeps.refl (objects : Objects) (original : HeapObject) : Keeps start objects original original :=
  ⟨rfl, rfl, fun _ => Or.inl rfl, Or.inl rfl⟩

/-- Every object is one of the start, or a copy of one. -/
theorem Heaped.keeps_address (heaped : Heaped start objects) {address : Nat}
    (below : address < objects.next) :
    ∃ original < start.count, (address < start.count → original = address) ∧
      Keeps start objects (start.heap original) (objects.heap address) := by
  by_cases old : address < start.count
  · refine ⟨address, old, fun _ => rfl, ?_⟩
    cases seen : (objects.heap address).hasBeenSeen with
    | false =>
      rw [heaped.unseen address old seen]
      exact .refl objects _
    | true =>
      cases moves : start.runtime.evacuated address with
      | true =>
        rw [heaped.left address moves seen]
        exact .beSeen objects _
      | false =>
        have kept := heaped.kept address old seen
        rwa [current_unmoved moves] at kept
  · obtain ⟨object, moves, seen, forward⟩ := heaped.filled address (Nat.le_of_not_lt old) below
    have inside := start.evacuated_lt object moves
    have kept := heaped.kept object inside seen
    rw [current_moved moves seen, forward] at kept
    exact ⟨object, inside, fun old' => absurd old' old, kept⟩

/-- What was reached is not in an evacuated region any more. -/
theorem Heaped.current_stays (heaped : Heaped start objects) {object : Nat}
    (seen : Seen start objects object) :
    start.runtime.evacuated (current start objects object) = false := by
  rw [← Bool.not_eq_true]
  intro moves
  have same := heaped.eq_of_current_lt (start.evacuated_lt _ moves)
  rw [same] at moves
  have fresh := (heaped.fresh object moves seen.2).1
  rw [← current_moved moves seen.2, same] at fresh
  exact absurd seen.1 (Nat.not_lt_of_le fresh)

theorem Resolved.current_lt (heaped : Heaped start objects) {original word : Reference} {target : Nat}
    (closed : ∀ referent, original = .object referent → referent < start.count)
    (resolved : Resolved start objects original word) (refers : word = .object target) :
    target < objects.next := by
  cases original with
  | immediate value =>
    rw [show word = .immediate value from resolved] at refers
    cases refers
  | object referent =>
    have same := resolved.2
    rw [refers] at same
    cases same
    exact heaped.current_lt (closed referent rfl)

/-- Words that stand for those of the start stay inside the heap. -/
theorem Heaped.stands_lt (heaped : Heaped start objects) {originals words : List Reference}
    (closed : ∀ referent, Reference.object referent ∈ originals → referent < start.count)
    (stands : List.Forall₂ (Stands start objects) originals words) {target : Nat}
    (member : Reference.object target ∈ words) : target < objects.next := by
  induction stands with
  | nil => cases member
  | @cons original word originals words first _ ih =>
    rcases List.mem_cons.mp member with same | later
    · have inside : ∀ referent, original = .object referent → referent < start.count := by
        rintro referent rfl
        exact closed referent (List.mem_cons_self ..)
      rcases first with old | resolved
      · exact Nat.lt_of_lt_of_le (inside target (old.symm.trans same.symm)) heaped.count_le
      · exact resolved.current_lt heaped inside same.symm
    · exact ih (fun referent there => closed referent (List.mem_cons_of_mem _ there)) later

end Words

namespace HeapObject

@[simp] theorem beUnseen_word (object : HeapObject) (index : Nat) :
    object.beUnseen.word index = object.word index := by
  cases index <;> rfl

theorem filledWith_word (nil size : Nat) (index : Nat) : (filledWith nil size).word index =
    if 0 < index ∧ index ≤ size then .object nil else .immediate 0 := by
  cases index with
  | zero => rfl
  | succ index =>
    simp only [word, slotAt, filledWith, Nat.add_sub_cancel, List.getD_eq_getElem?_getD,
      List.getElem?_replicate, Nat.succ_pos, true_and, Nat.succ_le_iff]
    split <;> rfl

theorem wiped_word (index : Nat) : wiped.word index = .immediate 0 := by
  cases index <;> rfl

end HeapObject

namespace Machine

variable {known : Known} {machine : Machine}

/-- No word leaves the heap, and the kernel is loaded. -/
structure Sound (known : Known) (machine : Machine) : Prop where
  closed : ∀ object < machine.next, ∀ index target,
    (machine.heap object).word index = .object target → target < machine.next
  framesClosed : ∀ object < machine.next, ∀ target,
    Reference.object target ∈ (machine.heap object).frames → target < machine.next
  rootsClosed : ∀ target, Reference.object target ∈
    (machine.self :: machine.context) ++ machine.gcedRefs → target < machine.next
  released_lt : ∀ object, machine.released object = true → object < machine.next
  kernel : ∀ object ∈ [known.ephemeronClass, known.processStackClass, known.nil],
    object < machine.next ∧ known.loaded object = true

/-- The machine at the start of a collection. -/
def Sound.start (sound : machine.Sound known) (occasion : Occasion) : Start where
  runtime := ⟨known.ephemeronClass, known.processStackClass, machine.hasToEvacuate known occasion⟩
  heap object := (machine.heap object).beUnseen
  count := machine.next
  context := machine.self :: machine.context
  gcedRefs := machine.gcedRefs
  unmarked _ _ := rfl
  closed object inside index target word :=
    sound.closed object inside index target (by rwa [HeapObject.beUnseen_word] at word)
  framesClosed := sound.framesClosed
  rootsClosed := sound.rootsClosed
  evacuated_lt object moves := by
    simp only [hasToEvacuate, Bool.and_eq_true, decide_eq_true_eq] at moves
    exact moves.1.1.1
  ephemeronClass := by
    obtain ⟨below, loaded⟩ := sound.kernel known.ephemeronClass (by simp)
    exact ⟨below, by simp [hasToEvacuate, loaded]⟩
  processStackClass := by
    obtain ⟨below, loaded⟩ := sound.kernel known.processStackClass (by simp)
    exact ⟨below, by simp [hasToEvacuate, loaded]⟩

/-- The machine after a collection. -/
def after (known : Known) (machine : Machine) (occasion : Occasion) (gc : G1GC) : Machine :=
  machine.releaseLocals
    (fun object => machine.hasToEvacuate known occasion object && !occasion.last object) gc

/-- A collection ends, with the roots followed. -/
theorem Sound.collectOld (sound : machine.Sound known) (occasion : Occasion) :
    ∃ gc, Converges (fun fuel => machine.collectOld known fuel occasion)
        (machine.after known occasion gc) ∧
      Between (sound.start occasion) (· < machine.next) gc := by
  obtain ⟨gc, runs, between, _⟩ :=
    (sound.start occasion).follow (sound.start occasion).closed_all (rooted_all _)
  obtain ⟨gc', runs', finished⟩ := between.followEphemerons
  exact ⟨gc', (runs.bind runs').map _, finished.toBetween⟩

/-- An allocation collects, and moves the object. -/
def moves (known : Known) (machine : Machine) (occasion : Occasion) (object : Nat) : Bool :=
  occasion.collects && machine.hasToEvacuate known occasion object

/-- A root, or what an ordinary root refers to. -/
inductive Held (machine : Machine) : Nat → Prop where
  | root {object : Nat} : Reference.object object ∈ machine.self :: machine.context →
      Held machine object
  | word {object index target : Nat} : Reference.object object ∈ machine.self :: machine.context →
      (machine.heap object).isSpecial = false →
      (machine.heap object).word index = .object target → Held machine target

/-- What has become of the machine: objects are where `now` says, the roots follow them, and so do
the words of ordinary roots. Memory that was evacuated is wiped, or as it was before. -/
structure Relocates (known : Known) (occasion : Occasion) (machine machine' : Machine)
    (now : Nat → Nat) : Prop where
  sound : machine'.Sound known
  next_le : machine.next ≤ machine'.next
  self : machine'.self = machine.self.relocate now
  context : machine'.context = machine.context.map (Reference.relocate now)
  stays : ∀ object, machine.moves known occasion object = false → now object = object
  apart : ∀ object, now object = object ∨ machine.next ≤ now object
  leaves : ∀ object, Held machine object → machine.moves known occasion object = true →
    machine.next ≤ now object
  injective : ∀ object other, Held machine object → Held machine other →
    now object = now other → object = other
  safe : ∀ object, Held machine object → machine.released object = false →
    machine'.released (now object) = false
  words : ∀ object, Reference.object object ∈ machine.self :: machine.context →
    (machine.heap object).isSpecial = false → (machine'.heap (now object)).isSpecial = false ∧
      ∀ index, (machine'.heap (now object)).word index =
        ((machine.heap object).word index).relocate now
  lost : ∀ object, machine.moves known occasion object = true → occasion.last object = false →
    machine'.heap object = .wiped
  stale : ∀ object, machine.moves known occasion object = true → occasion.last object = true →
    (∀ index, (machine'.heap object).word index = (machine.heap object).word index) ∧
      (machine.released object = false → machine'.released object = false)
  kept : ∀ object < machine.next, machine.moves known occasion object = false →
    (machine'.heap object).size = (machine.heap object).size ∧
    (machine.released object = false → machine'.released object = false) ∧
    ∀ index, (machine'.heap object).word index = (machine.heap object).word index ∨
      (machine'.heap object).word index = ((machine.heap object).word index).relocate now

theorem moves_lt {occasion : Occasion} {object : Nat}
    (moves : machine.moves known occasion object = true) : object < machine.next := by
  simp only [Machine.moves, hasToEvacuate, Bool.and_eq_true, decide_eq_true_eq] at moves
  exact moves.2.1.1.1

theorem Relocates.refl (sound : machine.Sound known) {occasion : Occasion}
    (idle : occasion.collects = false) : Relocates known occasion machine machine id where
  sound := sound
  next_le := Nat.le_refl _
  self := (Reference.relocate_id _).symm
  context := by
    have same : Reference.relocate id = id := funext Reference.relocate_id
    rw [same, List.map_id]
  stays _ _ := rfl
  apart _ := Or.inl rfl
  leaves _ _ never := by simp [Machine.moves, idle] at never
  injective _ _ _ _ := id
  safe _ _ := id
  words _ _ ordinary := ⟨ordinary, fun _ => (Reference.relocate_id _).symm⟩
  lost _ never := by simp [Machine.moves, idle] at never
  stale _ never := by simp [Machine.moves, idle] at never
  kept _ _ _ := ⟨rfl, id, fun _ => Or.inl rfl⟩

theorem Sound.roots {sound : machine.Sound known} {occasion : Occasion} {gc : G1GC}
    (between : Between (sound.start occasion) (· < machine.next) gc) :
    let machine' := machine.after known occasion gc
    machine'.self :: machine'.context = gc.context := by
  have context := relocate_of_resolved between.ready.context
  simp only [Machine.after, Machine.releaseLocals, context, Sound.start, List.map_cons, List.headD_cons,
    List.tail_cons]

/-- Memory that is released is wiped, the rest holds objects of the start. -/
theorem Sound.after_heap {sound : machine.Sound known} {occasion : Occasion} {gc : G1GC}
    (between : Between (sound.start occasion) (· < machine.next) gc) {object : Nat}
    (below : object < gc.next) : (machine.after known occasion gc).heap object = .wiped ∨
      ∃ original < machine.next, (object < machine.next → original = object) ∧
        (machine.after known occasion gc).heap object = gc.heap object ∧
        Keeps (sound.start occasion) gc.toObjects (machine.heap original).beUnseen
          (gc.heap object) := by
  cases gone : machine.hasToEvacuate known occasion object && !occasion.last object with
  | true =>
    left
    simp only [Machine.after, Machine.releaseLocals, gone, if_true]
  | false =>
    right
    obtain ⟨original, inside, same, keeps⟩ := between.ready.marking.heaped.keeps_address below
    refine ⟨original, inside, same, ?_, keeps⟩
    simp only [Machine.after, Machine.releaseLocals, gone, Bool.false_eq_true, if_false]

/-- The machine after a collection is sound again. -/
theorem Sound.after (sound : machine.Sound known) {occasion : Occasion} {gc : G1GC}
    (between : Between (sound.start occasion) (· < machine.next) gc) :
    (machine.after known occasion gc).Sound known := by
  have heaped := between.ready.marking.heaped
  have next_le : machine.next ≤ gc.next := heaped.count_le
  have counted : ∀ {target}, target < machine.next → target < gc.next :=
    fun below => Nat.lt_of_lt_of_le below next_le
  constructor
  · intro object below index target word
    rcases Sound.after_heap between below with gone | ⟨original, inside, _, here, keeps⟩
    · rw [gone, HeapObject.wiped_word] at word
      cases word
    · rw [here] at word
      rcases keeps.word index with same | resolved
      · rw [same] at word
        exact counted ((sound.start occasion).closed original inside index target word)
      · exact resolved.current_lt heaped
          ((sound.start occasion).closed original inside index) word
  · intro object below target member
    rcases Sound.after_heap between below with gone | ⟨original, inside, _, here, keeps⟩
    · rw [gone] at member
      cases member
    · rw [here] at member
      refine heaped.stands_lt ((sound.start occasion).framesClosed original inside) ?_ member
      rcases keeps.frames with same | resolved
      · rw [same]
        exact List.forall₂_same.mpr fun _ _ => Or.inl rfl
      · exact forall₂_stands resolved
  · intro target member
    have roots := List.rel_append between.ready.marking.context between.ready.marking.gcedRefs
    rw [Sound.roots between] at member
    exact heaped.stands_lt (sound.start occasion).rootsClosed roots member
  · intro object released
    simp only [Machine.after, Machine.releaseLocals, Bool.or_eq_true, Bool.and_eq_true] at released
    rcases released with ⟨moves, _⟩ | before
    · exact counted ((sound.start occasion).evacuated_lt object moves)
    · exact counted (sound.released_lt object before)
  · intro object member
    exact ⟨counted (sound.kernel object member).1, (sound.kernel object member).2⟩

theorem Sound.held_seen {sound : machine.Sound known} {occasion : Occasion} {gc : G1GC}
    (between : Between (sound.start occasion) (· < machine.next) gc) {object : Nat}
    (held : Held machine object) : Seen (sound.start occasion) gc.toObjects object := by
  have roots : ∀ object, Reference.object object ∈ machine.self :: machine.context →
      Seen (sound.start occasion) gc.toObjects object := fun object member =>
    ⟨sound.rootsClosed object (List.mem_append_left _ member),
      seen_of_resolved between.ready.context member⟩
  cases held with
  | root member => exact roots object member
  | @word source index _ member ordinary word =>
    have word' : ((sound.start occasion).heap source).word index = .object object :=
      (HeapObject.beUnseen_word _ index).trans word
    exact between.ready.follows (roots source member) (Or.inr (Or.inl ordinary)) word'

theorem Sound.relocates (sound : machine.Sound known) {occasion : Occasion} {gc : G1GC}
    (collects : occasion.collects = true)
    (between : Between (sound.start occasion) (· < machine.next) gc) :
    Relocates known occasion machine (machine.after known occasion gc)
      (Egg.Tracing.current (sound.start occasion) gc.toObjects) := by
  have ready := between.ready
  have heaped := ready.marking.heaped
  have moves : ∀ object, machine.moves known occasion object =
      (sound.start occasion).runtime.evacuated object := by
    intro object
    simp only [Machine.moves, collects, Bool.true_and]
    rfl
  have all := (Sound.roots between).trans (relocate_of_resolved ready.context)
  have put : ∀ object, (machine.hasToEvacuate known occasion object && !occasion.last object) =
      false → (machine.after known occasion gc).heap object = gc.heap object := by
    intro object stays
    simp only [Machine.after, Machine.releaseLocals, stays, Bool.false_eq_true, if_false]
  have held : ∀ object, (machine.hasToEvacuate known occasion object && !occasion.last object) =
      false → (machine.after known occasion gc).released object = machine.released object := by
    intro object stays
    simp only [Machine.after, Machine.releaseLocals, stays, Bool.false_or]
  have now : ∀ object, Seen (sound.start occasion) gc.toObjects object →
      (machine.hasToEvacuate known occasion
        (Egg.Tracing.current (sound.start occasion) gc.toObjects object) &&
          !occasion.last (Egg.Tracing.current (sound.start occasion) gc.toObjects object)) =
        false := by
    intro object seen
    have stays : machine.hasToEvacuate known occasion
        (Egg.Tracing.current (sound.start occasion) gc.toObjects object) = false :=
      heaped.current_stays seen
    rw [stays, Bool.false_and]
  constructor
  · exact sound.after between
  · exact heaped.count_le
  · exact (List.cons.inj all).1
  · exact (List.cons.inj all).2
  · intro object stays
    rw [moves] at stays
    exact current_unmoved stays
  · intro object
    rcases Nat.lt_or_ge (Egg.Tracing.current (sound.start occasion) gc.toObjects object)
      machine.next with low | high
    · exact Or.inl (heaped.eq_of_current_lt low)
    · exact Or.inr high
  · intro object there moved
    rw [moves] at moved
    have seen := Sound.held_seen between there
    rw [current_moved moved seen.2]
    exact (heaped.fresh object moved seen.2).1
  · intro object other there there' same
    exact heaped.current_injective (Sound.held_seen between there).1
      (Sound.held_seen between there').1 same
  · intro object there unreleased
    rw [held _ (now object (Sound.held_seen between there)), ← Bool.not_eq_true]
    intro released
    rw [heaped.eq_of_current_lt (sound.released_lt _ released), unreleased] at released
    cases released
  · intro object member ordinary
    have seen := Sound.held_seen between (.root member)
    have keeps := heaped.kept object seen.1 seen.2
    rw [put _ (now object seen)]
    refine ⟨keeps.special.trans ordinary, fun index => ?_⟩
    by_cases low : index ≤ ((sound.start occasion).heap object).size
    · have resolved := ready.resolved seen low (Or.inr (Or.inl ordinary))
      exact resolved.relocate.trans (congrArg _ (HeapObject.beUnseen_word _ index))
    · have above : (machine.heap object).size < index := Nat.lt_of_not_le low
      rw [HeapObject.word_above above, HeapObject.word_above (keeps.size ▸ above)]
      rfl
  · intro object moved notLast
    rw [moves] at moved
    have gone : machine.hasToEvacuate known occasion object = true := moved
    simp only [Machine.after, Machine.releaseLocals, gone, notLast, Bool.not_false, Bool.and_true,
      if_true]
  · intro object moved last
    rw [moves] at moved
    have intact : (machine.hasToEvacuate known occasion object && !occasion.last object) = false := by
      rw [last, Bool.not_true, Bool.and_false]
    rw [put object intact, held object intact]
    refine ⟨fun index => ?_, id⟩
    have inside := (sound.start occasion).evacuated_lt object moved
    cases seen : (gc.heap object).hasBeenSeen with
    | false =>
      rw [heaped.unseen object inside seen]
      exact HeapObject.beUnseen_word _ index
    | true =>
      rw [heaped.left object moved seen, HeapObject.beSeen_word]
      exact HeapObject.beUnseen_word _ index
  · intro object inside stays
    rw [moves] at stays
    have unmoved : machine.hasToEvacuate known occasion object = false := stays
    have intact : (machine.hasToEvacuate known occasion object && !occasion.last object) = false := by
      rw [unmoved, Bool.false_and]
    obtain ⟨original, _, same, keeps⟩ :=
      heaped.keeps_address (Nat.lt_of_lt_of_le inside heaped.count_le)
    rw [put object intact, held object intact]
    rw [same inside] at keeps
    refine ⟨keeps.size, id, fun index => ?_⟩
    have word := keeps.word index
    rw [show ((sound.start occasion).heap object).word index = (machine.heap object).word index from
      HeapObject.beUnseen_word _ index] at word
    exact word.imp id Resolved.relocate

theorem Relocates.now_lt {machine' : Machine} {occasion : Occasion} {now : Nat → Nat}
    (relocates : Relocates known occasion machine machine' now) {object : Nat}
    (member : Reference.object object ∈ machine.self :: machine.context) :
    now object < machine'.next := by
  refine relocates.sound.rootsClosed _ (List.mem_append_left _ ?_)
  rw [relocates.self, relocates.context, ← List.map_cons]
  exact List.mem_map_of_mem member

/-- Changes elsewhere do not matter. -/
theorem Relocates.congr {machine' machine'' : Machine} {occasion : Occasion} {now : Nat → Nat}
    (relocates : Relocates known occasion machine machine' now) (sound : machine''.Sound known)
    (next_le : machine'.next ≤ machine''.next) (self : machine''.self = machine'.self)
    (context : machine''.context = machine'.context)
    (old : ∀ object < machine.next, machine''.heap object = machine'.heap object)
    (roots : ∀ object, Reference.object object ∈ machine.self :: machine.context →
      machine''.heap (now object) = machine'.heap (now object))
    (released : ∀ object, machine'.released object = false → machine''.released object = false) :
    Relocates known occasion machine machine'' now where
  sound := sound
  next_le := Nat.le_trans relocates.next_le next_le
  self := self.trans relocates.self
  context := context.trans relocates.context
  stays := relocates.stays
  apart := relocates.apart
  leaves := relocates.leaves
  injective := relocates.injective
  safe object held before := released _ (relocates.safe object held before)
  words object member ordinary := by
    rw [roots object member]
    exact relocates.words object member ordinary
  lost object moved notLast := by
    rw [old object (moves_lt moved)]
    exact relocates.lost object moved notLast
  stale object moved last := by
    rw [old object (moves_lt moved)]
    exact (relocates.stale object moved last).imp id fun held before => released _ (held before)
  kept object below stays := by
    rw [old object below]
    obtain ⟨size, held, words⟩ := relocates.kept object below stays
    exact ⟨size, fun before => released _ (held before), words⟩

/-- Nothing that was there notices a new object. -/
theorem Relocates.bump {machine' : Machine} {occasion : Occasion} {now : Nat → Nat}
    (relocates : Relocates known occasion machine machine' now) (size : Nat) :
    Relocates known occasion machine (machine'.bump known size occasion).1 now := by
  have sound := relocates.sound
  have old : ∀ object, object < machine'.next →
      (machine'.bump known size occasion).1.heap object = machine'.heap object :=
    fun object below => Function.update_of_ne (Nat.ne_of_lt below) _ _
  have new : (machine'.bump known size occasion).1.heap machine'.next =
      .filledWith known.nil size := Function.update_self ..
  have soundNow : (machine'.bump known size occasion).1.Sound known := by
    constructor
    · intro object below index target word
      rcases Nat.lt_succ_iff_lt_or_eq.mp below with before | rfl
      · rw [old object before] at word
        exact Nat.lt_succ_of_lt (sound.closed object before index target word)
      · rw [new, HeapObject.filledWith_word] at word
        split at word
        · cases word
          exact Nat.lt_succ_of_lt (sound.kernel known.nil (by simp)).1
        · cases word
    · intro object below target member
      rcases Nat.lt_succ_iff_lt_or_eq.mp below with before | rfl
      · rw [old object before] at member
        exact Nat.lt_succ_of_lt (sound.framesClosed object before target member)
      · rw [new] at member
        cases member
    · intro target member
      exact Nat.lt_succ_of_lt (sound.rootsClosed target member)
    · intro object there
      simp only [Machine.bump, Bool.and_eq_true] at there
      exact Nat.lt_succ_of_lt (sound.released_lt object there.1.2)
    · intro object member
      exact ⟨Nat.lt_succ_of_lt (sound.kernel object member).1, (sound.kernel object member).2⟩
  refine relocates.congr soundNow (Nat.le_succ _) rfl rfl
    (fun object below => old object (Nat.lt_of_lt_of_le below relocates.next_le))
    (fun object member => old _ (relocates.now_lt member)) fun object before => ?_
  simp only [Machine.bump, before, Bool.and_false, Bool.false_and]

/-- An object that has just been allocated. -/
structure Allocates (known : Known) (occasion : Occasion) (filled : HeapObject)
    (machine machine' : Machine) (now : Nat → Nat) (result : Nat) : Prop where
  relocates : Relocates known occasion machine machine' now
  low : machine.next ≤ result
  apart : ∀ object, Reference.object object ∈ machine.self :: machine.context → now object ≠ result
  high : result < machine'.next
  heap : machine'.heap result = filled
  unreleased : machine'.released result = false
  current : machine'.current result = true

theorem Sound.allocateSlots (sound : machine.Sound known) (size : Nat) (occasion : Occasion) :
    ∃ machine' now result,
      Converges (fun fuel => machine.allocateSlots known fuel size occasion) (machine', result) ∧
      Allocates known occasion (.filledWith known.nil size) machine machine' now result := by
  have bumped : ∀ {ready : Machine} {now : Nat → Nat}, Relocates known occasion machine ready now →
      Allocates known occasion (.filledWith known.nil size) machine
        (ready.bump known size occasion).1 now ready.next := by
    intro ready now relocates
    exact ⟨relocates.bump size, relocates.next_le,
      fun object member => Nat.ne_of_lt (relocates.now_lt member), Nat.lt_succ_self _,
      Function.update_self .., by simp [Machine.bump], by simp [Machine.bump]⟩
  cases collects : occasion.collects with
  | true =>
    obtain ⟨gc, runs, between⟩ := sound.collectOld occasion
    refine ⟨_, _, _, ?_, bumped (sound.relocates collects between)⟩
    simp only [Machine.allocateSlots, collects, if_true]
    exact runs.map _
  | false =>
    refine ⟨_, _, _, ?_, bumped (.refl sound collects)⟩
    simp only [Machine.allocateSlots, collects, Bool.false_eq_true, if_false, Option.map_some]
    exact .pure _

/-- The new object is initialized. -/
theorem Allocates.put {occasion : Occasion} {filled : HeapObject} {machine' : Machine}
    {now : Nat → Nat} {result : Nat}
    (allocates : Allocates known occasion filled machine machine' now result) {object : HeapObject}
    (closed : ∀ index target, object.word index = .object target → target < machine'.next)
    (frames : object.frames = []) :
    Allocates known occasion object machine (machine'.put result object) now result := by
  have sound := allocates.relocates.sound
  have new : (machine'.put result object).heap result = object := Function.update_self ..
  have others : ∀ {other}, other ≠ result →
      (machine'.put result object).heap other = machine'.heap other :=
    fun different => Function.update_of_ne different _ _
  have soundNow : (machine'.put result object).Sound known := by
    refine ⟨?_, ?_, sound.rootsClosed, sound.released_lt, sound.kernel⟩
    · intro other below index target word
      by_cases here : other = result
      · subst here
        rw [new] at word
        exact closed index target word
      · rw [others here] at word
        exact sound.closed other below index target word
    · intro other below target member
      by_cases here : other = result
      · subst here
        rw [new, frames] at member
        cases member
      · rw [others here] at member
        exact sound.framesClosed other below target member
  exact ⟨allocates.relocates.congr soundNow (Nat.le_refl _) rfl rfl
      (fun other below => others (Nat.ne_of_lt (Nat.lt_of_lt_of_le below allocates.low)))
      (fun other member => others (allocates.apart other member)) fun _ => id,
    allocates.low, allocates.apart, allocates.high, new, allocates.unreleased, allocates.current⟩

/-- A root that was pushed for the allocation. -/
theorem Held.push {pushed : Reference} {object : Nat} (held : Held machine object) :
    Held { machine with context := pushed :: machine.context } object := by
  have more : ∀ {word}, word ∈ machine.self :: machine.context →
      word ∈ machine.self :: pushed :: machine.context := by
    intro word member
    rcases List.mem_cons.mp member with rfl | later
    · exact List.mem_cons_self
    · exact List.mem_cons_of_mem _ (List.mem_cons_of_mem _ later)
  cases held with
  | root member => exact .root (more member)
  | word member ordinary word => exact .word (more member) ordinary word

/-- It is popped afterwards. -/
theorem Allocates.pop {occasion : Occasion} {filled : HeapObject} {machine' : Machine}
    {now : Nat → Nat} {result : Nat} {pushed : Reference}
    (allocates : Allocates known occasion filled { machine with context := pushed :: machine.context }
      machine' now result) :
    Allocates known occasion filled machine { machine' with context := machine'.context.tail } now
      result := by
  have relocates := allocates.relocates
  have sound := relocates.sound
  have context : machine'.context = pushed.relocate now ::
    machine.context.map (Reference.relocate now) := relocates.context
  have more : ∀ {word}, word ∈ machine.self :: machine.context →
      word ∈ machine.self :: pushed :: machine.context := by
    intro word member
    rcases List.mem_cons.mp member with rfl | later
    · exact List.mem_cons_self
    · exact List.mem_cons_of_mem _ (List.mem_cons_of_mem _ later)
  refine ⟨⟨⟨sound.closed, sound.framesClosed, ?_, sound.released_lt, sound.kernel⟩,
    relocates.next_le, relocates.self, congrArg List.tail context, relocates.stays, relocates.apart,
    fun other held => relocates.leaves other held.push,
    fun object other held held' => relocates.injective object other held.push held'.push,
    fun other held => relocates.safe other held.push,
    fun other member => relocates.words other (more member), relocates.lost, relocates.stale,
    relocates.kept⟩, allocates.low, fun other member => allocates.apart other (more member),
    allocates.high, allocates.heap, allocates.unreleased, allocates.current⟩
  intro target member
  refine sound.rootsClosed target ?_
  simp only [context, List.tail_cons, List.cons_append, List.mem_cons] at member ⊢
  rcases member with same | later
  · exact Or.inl same
  · exact Or.inr (Or.inr later)

/-- The behavior is held while the object is allocated. -/
theorem Sound.newSlots (sound : machine.Sound known) {species : Nat} {behavior : Reference}
    {format : Int} (occasion : Occasion) (size : Nat) (unreleased : machine.released species = false)
    (formatted : (machine.heap species).slot 2 = .immediate format)
    (behaves : (machine.heap species).slot 1 = behavior)
    (inside : ∀ target, behavior = .object target → target < machine.next) :
    ∃ machine' now result,
      Converges (fun fuel => machine.newSlots_size_ known fuel occasion species size)
        (machine', result) ∧
      Allocates known occasion { HeapObject.filledWith known.nil ((format % 128).toNat + size) with
        behavior := behavior.relocate now } machine machine' now result ∧
      ∀ target, behavior = .object target →
        (machine.released target = false → machine'.released (now target) = false) ∧
        ∀ object, Held machine object → now target = now object → target = object := by
  let pushed : Machine := { machine with context := behavior :: machine.context }
  have soundPushed : pushed.Sound known := by
    refine ⟨sound.closed, sound.framesClosed, fun target member => ?_, sound.released_lt,
      sound.kernel⟩
    simp only [pushed, List.cons_append, List.mem_cons] at member
    rcases member with same | same | later
    · exact sound.rootsClosed target (by simp [same])
    · exact inside target same.symm
    · exact sound.rootsClosed target (List.mem_cons_of_mem _ later)
  obtain ⟨allocated, now, result, runs, allocates⟩ :=
    soundPushed.allocateSlots ((format % 128).toNat + size) occasion
  have head : allocated.context.headD (.immediate 0) = behavior.relocate now := by
    rw [allocates.relocates.context]
    rfl
  have member : ∀ target, behavior = .object target →
      Reference.object target ∈ pushed.self :: pushed.context := by
    rintro target rfl
    exact List.mem_cons_of_mem _ List.mem_cons_self
  let made : HeapObject := { HeapObject.filledWith known.nil ((format % 128).toNat + size) with
    behavior := behavior.relocate now }
  have filled : Allocates known occasion made pushed (allocated.put result made) now result := by
    refine allocates.put (fun index target word => ?_) rfl
    cases index with
    | zero =>
      have holds : behavior.relocate now = .object target := word
      cases behavior with
      | immediate value => cases holds
      | object behavior =>
        cases holds
        exact allocates.relocates.now_lt (member behavior rfl)
    | succ index =>
      have holds : (HeapObject.filledWith known.nil ((format % 128).toNat + size)).word (index + 1) =
          .object target := word
      rw [HeapObject.filledWith_word] at holds
      split at holds
      · cases holds
        exact (allocates.relocates.sound.kernel known.nil (by simp)).1
      · cases holds
  refine ⟨_, now, result, ?_, filled.pop, fun target same => ⟨fun before =>
    allocates.relocates.safe target (.root (member target same)) before, fun object held equal =>
      allocates.relocates.injective target object (.root (member target same)) held.push equal⟩⟩
  have initialized : allocated.behaviorPut result (allocated.context.headD (.immediate 0)) =
      some (allocated.put result made) := by
    rw [head]
    simp only [Machine.behaviorPut, Machine.fetch, Machine.store, allocates.unreleased,
      Bool.false_eq_true, if_false, Option.bind_some, allocates.heap]
    rfl
  have starts : ∀ fuel, machine.newSlots_size_ known fuel occasion species size =
      (pushed.allocateSlots known fuel ((format % 128).toNat + size) occasion).bind
        fun made =>
          (made.1.behaviorPut made.2 (made.1.context.headD (.immediate 0))).bind
            fun done => some ({ done with context := done.context.tail }, made.2) := by
    intro fuel
    simp only [Machine.newSlots_size_, Machine.speciesInstanceSize_,
      Machine.speciesInstanceBehavior_, Machine.fetch, unreleased, Bool.false_eq_true, if_false,
      Option.bind_some, formatted, Option.map_some, behaves, Option.bind_eq_bind]
    rfl
  simp only [starts]
  refine runs.bind ?_
  simp only [initialized, Option.bind_some]
  exact .pure _

end Machine

end Egg.Tracing
