import Egg.Tracing.Marking

/-! The invariant of tracing: a word the tracer has to follow is up to date or waits to be scanned. -/
namespace Egg.Tracing

variable {start : Start}

/-- The collector after it has reached one more object. -/
structure Reaches (start : Start) (gc : G1GC) (target : Nat) (gc' : G1GC) : Prop where
  puts : Puts start gc.toObjects target (current start gc'.toObjects target) gc'.toObjects
  frame : gc' = { gc with
    toObjects := gc'.toObjects
    _stacks := gc'._stacks
    _weakContainers := gc'._weakContainers
    _uncheckedEphemerons := gc'._uncheckedEphemerons }
  ephemeron : start.IsEphemeron target → gc'._uncheckedEphemerons =
    current start gc'.toObjects target :: gc._uncheckedEphemerons
  notEphemeron : ¬ start.IsEphemeron target → gc'._uncheckedEphemerons = gc._uncheckedEphemerons
  processStack : start.IsProcessStack target →
    gc'._stacks = current start gc'.toObjects target :: gc._stacks
  notProcessStack : ¬ start.IsProcessStack target → gc'._stacks = gc._stacks

section Resolve

variable {gc : G1GC}

/-- Resolving what was reached answers its current address and does nothing. -/
theorem Heaped.resolve_seen (heaped : Heaped start gc.toObjects) {target address : Nat}
    (inside : target < start.count) (seen : (gc.heap target).hasBeenSeen = true)
    (stands : address = target ∨ address = current start gc.toObjects target) :
    (gc.heap address).hasBeenSeen = true ∧
      gc.resolveObject start.runtime address = (gc, current start gc.toObjects target) := by
  have marked : (gc.heap address).hasBeenSeen = true := by
    rcases stands with rfl | rfl
    · exact seen
    · exact heaped.marked target inside seen
  refine ⟨marked, ?_⟩
  simp only [G1GC.resolveObject, marked, if_true]
  congr 1
  cases moves : start.runtime.evacuated target with
  | false =>
    have here : current start gc.toObjects target = target := current_unmoved moves
    obtain rfl : address = target := by
      rcases stands with same | same
      · exact same
      · rw [same, here]
    rw [here, moves]
    rfl
  | true =>
    have there : current start gc.toObjects target = gc.forwarder target :=
      current_moved moves seen
    rcases stands with rfl | rfl
    · rw [there, moves]
      rfl
    · have fresh := (heaped.fresh target moves seen).1
      cases again : start.runtime.evacuated (current start gc.toObjects target) with
      | false => rfl
      | true =>
        have below := start.evacuated_lt _ again
        rw [there] at below
        lia

/-- Resolving what was not reached marks it, copies it if it has to move, and remembers it if it is
special. -/
theorem Heaped.resolve_unseen (heaped : Heaped start gc.toObjects) {target : Nat}
    (inside : target < start.count) (unseen : (gc.heap target).hasBeenSeen = false) :
    ∃ gc', gc.resolveObject start.runtime target = (gc', current start gc'.toObjects target) ∧
      Reaches start gc target gc' := by
  have puts := heaped.puts inside unseen
  simp only at puts
  generalize moved : (if start.runtime.evacuated target then
    (gc.toObjects.atPut target (gc.heap target).beSeen).evacuate target
    else gc.toObjects.atPut target (gc.heap target).beSeen) = objects at puts
  generalize there : (if start.runtime.evacuated target then gc.next else target) = place at puts
  have resolved : gc.resolveObject start.runtime target =
      if (objects.heap place).isSpecial then
        (({ gc with toObjects := objects } : G1GC).rememberSpecial start.runtime place, place)
      else ({ gc with toObjects := objects }, place) := by
    rw [← moved, ← there]
    simp only [G1GC.resolveObject, unseen, Bool.false_eq_true, if_false, G1GC.evacuate, G1GC.atPut]
    cases start.runtime.evacuated target <;> rfl
  have at_ := puts.current_target
  have special : (objects.heap place).isSpecial = (start.heap target).isSpecial := by
    rw [puts.copy]
    rfl
  have behavior : (objects.heap place).behavior = (start.heap target).behavior := by
    rw [puts.copy]
    rfl
  let marked : G1GC := { gc with toObjects := objects }
  have isEphemeron : marked.speciesOf place = .object start.runtime.ephemeronClass ↔
      start.gc.speciesOf target = .object start.runtime.ephemeronClass :=
    puts.heaped.species_iff inside behavior start.ephemeronClass.1 start.ephemeronClass.2
  have isProcessStack : marked.speciesOf place = .object start.runtime.processStackClass ↔
      start.gc.speciesOf target = .object start.runtime.processStackClass :=
    puts.heaped.species_iff inside behavior start.processStackClass.1 start.processStackClass.2
  rw [special] at resolved
  cases ordinary : (start.heap target).isSpecial with
  | false =>
    rw [ordinary, if_neg Bool.false_ne_true] at resolved
    have notSpecial : ∀ {p : Prop}, ((start.heap target).isSpecial = true ∧ p) → False := by
      intro p kind
      rw [ordinary] at kind
      cases kind.1
    refine ⟨marked, by rw [resolved, at_], ?_, rfl, fun kind => (notSpecial kind).elim, fun _ => rfl,
      fun kind => (notSpecial kind).elim, fun _ => rfl⟩
    rw [at_]
    exact puts
  | true =>
    rw [ordinary, if_pos rfl] at resolved
    refine ⟨marked.rememberSpecial start.runtime place, ?_⟩
    unfold G1GC.rememberSpecial at resolved ⊢
    by_cases ephemeron : start.gc.speciesOf target = .object start.runtime.ephemeronClass
    · have here := isEphemeron.mpr ephemeron
      rw [if_pos here] at resolved ⊢
      refine ⟨by rw [resolved, at_], ?_, rfl, fun _ => by rw [at_], fun kind => ?_, fun kind => ?_,
        fun _ => rfl⟩
      · rw [at_]
        exact puts
      · exact absurd ⟨ordinary, ephemeron⟩ kind
      · exact absurd ephemeron kind.2.1
    · have here := mt isEphemeron.mp ephemeron
      rw [if_neg here] at resolved ⊢
      by_cases processStack : start.gc.speciesOf target = .object start.runtime.processStackClass
      · have there := isProcessStack.mpr processStack
        rw [if_pos there] at resolved ⊢
        refine ⟨by rw [resolved, at_], ?_, rfl, fun kind => ?_, fun _ => rfl, fun _ => by rw [at_],
          fun kind => ?_⟩
        · rw [at_]
          exact puts
        · exact absurd kind.2 ephemeron
        · exact absurd ⟨ordinary, ephemeron, processStack⟩ kind
      · have there := mt isProcessStack.mp processStack
        rw [if_neg there] at resolved ⊢
        refine ⟨by rw [resolved, at_], ?_, rfl, fun kind => ?_, fun _ => rfl, fun kind => ?_,
          fun _ => rfl⟩
        · rw [at_]
          exact puts
        · exact absurd kind.2 ephemeron
        · exact absurd kind.2.2 processStack

end Resolve

/-- An index of an object waits to be scanned. -/
def Pending (work : List (Nat × Nat × Nat)) (address index : Nat) : Prop :=
  ∃ entry ∈ work, entry.1 = address ∧ entry.2.1 ≤ index ∧ index ≤ entry.2.2

/-- An entry of the work stack: words of an object, whose referents may be reached. -/
def Entry (start : Start) (reached : Nat → Prop) (objects : Objects) (entry : Nat × Nat × Nat) :
    Prop :=
  ∃ object < start.count, (objects.heap object).hasBeenSeen = true ∧
    entry.1 = current start objects object ∧ entry.2.2 ≤ (start.heap object).size ∧
    ∀ index target, entry.2.1 ≤ index → index ≤ entry.2.2 →
      (start.heap object).word index = .object target → reached target

/-- A special object whose words are traced: neither does it wait, nor is it held back. -/
def Opened (start : Start) (held : List Nat) (gc : G1GC) (object : Nat) : Prop :=
  start.IsProcessStack object ∧ current start gc.toObjects object ∉ held ++ gc._stacks ∨
    start.IsEphemeron object ∧
      current start gc.toObjects object ∉ held ++ gc._uncheckedEphemerons

/-- The words of an object that the tracer follows. -/
def Traced (start : Start) (held : List Nat) (gc : G1GC) (object index : Nat) : Prop :=
  index = 0 ∨ (start.heap object).isSpecial = false ∨ Opened start held gc object

/-- A root as it was, or up to date. -/
def Stands (start : Start) (objects : Objects) (original word : Reference) : Prop :=
  word = original ∨ Resolved start objects original word

/-- The invariant, for a bound on what may be reached, the special objects that are held back, and
the work that is left. -/
structure Marking (start : Start) (reached : Nat → Prop) (held : List Nat) (gc : G1GC)
    (work : List (Nat × Nat × Nat)) : Prop where
  heaped : Heaped start gc.toObjects
  bounded : ∀ object < start.count, (gc.heap object).hasBeenSeen = true → reached object
  entries : ∀ entry ∈ work, Entry start reached gc.toObjects entry
  covered : ∀ object < start.count, (gc.heap object).hasBeenSeen = true →
    ∀ index ≤ (start.heap object).size, Traced start held gc object index →
      Resolved start gc.toObjects ((start.heap object).word index)
        ((gc.heap (current start gc.toObjects object)).word index) ∨
      Pending work (current start gc.toObjects object) index
  framed : ∀ object < start.count, (gc.heap object).hasBeenSeen = true →
    start.IsProcessStack object → current start gc.toObjects object ∉ held ++ gc._stacks →
    List.Forall₂ (Resolved start gc.toObjects) (start.heap object).frames
      (gc.heap (current start gc.toObjects object)).frames
  suspended : ∀ address ∈ gc._stacks, ∃ object < start.count, (gc.heap object).hasBeenSeen = true ∧
    start.IsProcessStack object ∧ address = current start gc.toObjects object
  waiting : ∀ address ∈ gc._uncheckedEphemerons, ∃ object < start.count,
    (gc.heap object).hasBeenSeen = true ∧ start.IsEphemeron object ∧
      address = current start gc.toObjects object
  nodup : gc._uncheckedEphemerons.Nodup
  context : List.Forall₂ (Stands start gc.toObjects) start.context gc.context
  gcedRefs : List.Forall₂ (Stands start gc.toObjects) start.gcedRefs gc.gcedRefs

section Invariant

variable {reached : Nat → Prop} {held : List Nat} {gc gc' : G1GC} {work work' : List (Nat × Nat × Nat)}

theorem Start.not_both {object : Nat} (ephemeron : start.IsEphemeron object) :
    ¬ start.IsProcessStack object := fun processStack => processStack.2.1 ephemeron.2

theorem Reaches.unchecked_subset {target : Nat} (reaches : Reaches start gc target gc') :
    gc._uncheckedEphemerons ⊆ gc'._uncheckedEphemerons := by
  by_cases kind : start.IsEphemeron target
  · rw [reaches.ephemeron kind]
    exact List.subset_cons_self _ _
  · rw [reaches.notEphemeron kind]
    exact List.Subset.refl _

theorem Reaches.stacks_subset {target : Nat} (reaches : Reaches start gc target gc') :
    gc._stacks ⊆ gc'._stacks := by
  by_cases kind : start.IsProcessStack target
  · rw [reaches.processStack kind]
    exact List.subset_cons_self _ _
  · rw [reaches.notProcessStack kind]
    exact List.Subset.refl _

theorem held_subset (held : List Nat) {some more : List Nat} (subset : some ⊆ more) :
    held ++ some ⊆ held ++ more :=
  List.append_subset.mpr ⟨List.subset_append_left .., List.subset_append_of_subset_right _ subset⟩

/-- What was opened stays so when something else is reached, and nothing else is opened. -/
theorem Reaches.opened {target object : Nat} (reaches : Reaches start gc target gc')
    (seen : (gc.heap object).hasBeenSeen = true) (opened : Opened start held gc' object) :
    Opened start held gc object := by
  have same := reaches.puts.extends_.current object seen
  rcases opened with ⟨kind, outside⟩ | ⟨kind, outside⟩
  · rw [same] at outside
    exact Or.inl ⟨kind, fun member => outside (held_subset held reaches.stacks_subset member)⟩
  · rw [same] at outside
    exact Or.inr ⟨kind, fun member => outside (held_subset held reaches.unchecked_subset member)⟩

/-- What has just been reached is not opened. -/
theorem Reaches.not_opened {target : Nat} (reaches : Reaches start gc target gc') :
    ¬ Opened start held gc' target := by
  rintro (⟨kind, outside⟩ | ⟨kind, outside⟩)
  · rw [reaches.processStack kind] at outside
    exact outside (List.mem_append_right _ (List.mem_cons_self ..))
  · rw [reaches.ephemeron kind] at outside
    exact outside (List.mem_append_right _ (List.mem_cons_self ..))

theorem Entry.extend {objects objects' : Objects} {entry : Nat × Nat × Nat}
    (valid : Entry start reached objects entry) (extends_ : Extends start objects objects') :
    Entry start reached objects' entry := by
  obtain ⟨object, inside, seen, same, short, allowed⟩ := valid
  exact ⟨object, inside, extends_.seen object seen, by rw [same, extends_.current object seen],
    short, allowed⟩

theorem Stands.extend {objects objects' : Objects} (extends_ : Extends start objects objects')
    {original word : Reference} (stands : Stands start objects original word) :
    Stands start objects' original word :=
  stands.imp id extends_.resolved

/-- The words of a first reached object that the tracer follows at once. -/
theorem Start.Closed.strong (closed : start.Closed reached) {target : Nat}
    (inside : target < start.count) (allowed : reached target) :
    ∀ index referent, index ≤ (start.heap target).strongPointersSize →
      (start.heap target).word index = .object referent → reached referent := by
  intro index referent low word
  cases index with
  | zero => exact closed.behavior target referent inside allowed word
  | succ index =>
    unfold HeapObject.strongPointersSize at low
    split at low
    · lia
    · next ordinary =>
      rw [Bool.not_eq_true] at ordinary
      exact closed.slot target (index + 1) referent inside allowed ordinary word

/-- Reaching one more object keeps the invariant, its words being put to the work. -/
theorem Marking.reach (closed : start.Closed reached) (marking : Marking start reached held gc work)
    {target : Nat} (allowed : reached target) (reaches : Reaches start gc target gc') :
    Marking start reached held gc' ((current start gc'.toObjects target, 0,
      (start.heap target).strongPointersSize) :: work) := by
  have puts := reaches.puts
  have extends_ := puts.extends_
  have before : ∀ object < start.count, (gc'.heap object).hasBeenSeen = true → object ≠ target →
      (gc.heap object).hasBeenSeen = true := fun object inside seen different =>
    ((puts.seen_iff inside).mp seen).resolve_right different
  have marked : (gc'.heap target).hasBeenSeen = true :=
    (puts.seen_iff puts.inside).mpr (Or.inr rfl)
  have apart : ∀ object < start.count, (gc.heap object).hasBeenSeen = true →
      current start gc.toObjects object ≠ current start gc'.toObjects target := by
    intro object inside seen same
    rw [← extends_.current object seen] at same
    exact puts.ne_target seen (puts.heaped.current_injective inside puts.inside same)
  have waiting : ∀ address ∈ gc._uncheckedEphemerons, ∃ object < start.count,
      (gc'.heap object).hasBeenSeen = true ∧ start.IsEphemeron object ∧
        address = current start gc'.toObjects object := by
    intro address member
    obtain ⟨object, inside, seen, kind, same⟩ := marking.waiting address member
    exact ⟨object, inside, extends_.seen object seen, kind,
      by rw [same, extends_.current object seen]⟩
  have suspended : ∀ address ∈ gc._stacks, ∃ object < start.count,
      (gc'.heap object).hasBeenSeen = true ∧ start.IsProcessStack object ∧
        address = current start gc'.toObjects object := by
    intro address member
    obtain ⟨object, inside, seen, kind, same⟩ := marking.suspended address member
    exact ⟨object, inside, extends_.seen object seen, kind,
      by rw [same, extends_.current object seen]⟩
  constructor
  · exact puts.heaped
  · intro object inside seen
    rcases (puts.seen_iff inside).mp seen with old | rfl
    · exact marking.bounded object inside old
    · exact allowed
  · intro entry member
    rcases List.mem_cons.mp member with rfl | old
    · refine ⟨target, puts.inside, marked, rfl, ?_, ?_⟩
      · unfold HeapObject.strongPointersSize
        split
        · exact Nat.zero_le _
        · exact Nat.le_refl _
      · intro index referent _ low word
        exact closed.strong puts.inside allowed index referent low word
    · exact (marking.entries entry old).extend extends_
  · intro object inside seen index low traced
    by_cases same : object = target
    · subst same
      right
      refine ⟨_, List.mem_cons_self .., rfl, Nat.zero_le _, ?_⟩
      rcases traced with rfl | ordinary | opened
      · exact Nat.zero_le _
      · simp only [HeapObject.strongPointersSize, ordinary, Bool.false_eq_true, if_false]
        exact low
      · exact absurd opened reaches.not_opened
    · have old := before object inside seen same
      have traced' : Traced start held gc object index :=
        traced.imp id (Or.imp id (reaches.opened old))
      rw [extends_.current object old, puts.heap_current inside old]
      rcases marking.covered object inside old index low traced' with resolved | pending
      · exact Or.inl (extends_.resolved resolved)
      · obtain ⟨entry, member, pending⟩ := pending
        exact Or.inr ⟨entry, List.mem_cons_of_mem _ member, pending⟩
  · intro object inside seen kind outside
    by_cases same : object = target
    · subst same
      rw [reaches.processStack kind] at outside
      exact absurd (List.mem_append_right _ (List.mem_cons_self ..)) outside
    · have old := before object inside seen same
      rw [extends_.current object old] at outside ⊢
      rw [puts.heap_current inside old]
      have framed := marking.framed object inside old kind
        fun member => outside (held_subset held reaches.stacks_subset member)
      exact framed.imp fun _ _ => extends_.resolved
  · intro address member
    by_cases kind : start.IsProcessStack target
    · rw [reaches.processStack kind] at member
      rcases List.mem_cons.mp member with rfl | old
      · exact ⟨target, puts.inside, marked, kind, rfl⟩
      · exact suspended address old
    · rw [reaches.notProcessStack kind] at member
      exact suspended address member
  · intro address member
    by_cases kind : start.IsEphemeron target
    · rw [reaches.ephemeron kind] at member
      rcases List.mem_cons.mp member with rfl | old
      · exact ⟨target, puts.inside, marked, kind, rfl⟩
      · exact waiting address old
    · rw [reaches.notEphemeron kind] at member
      exact waiting address member
  · by_cases kind : start.IsEphemeron target
    · rw [reaches.ephemeron kind, List.nodup_cons]
      refine ⟨fun member => ?_, marking.nodup⟩
      obtain ⟨object, inside, seen, _, same⟩ := marking.waiting _ member
      exact apart object inside seen same.symm
    · rw [reaches.notEphemeron kind]
      exact marking.nodup
  · rw [show gc'.context = gc.context from
      (congrArg G1GC.context reaches.frame).trans rfl]
    exact marking.context.imp fun _ _ => .extend extends_
  · rw [show gc'.gcedRefs = gc.gcedRefs from
      (congrArg G1GC.gcedRefs reaches.frame).trans rfl]
    exact marking.gcedRefs.imp fun _ _ => .extend extends_

/-- Nothing that the invariant does not mention matters. -/
theorem Marking.congr (marking : Marking start reached held gc work)
    (objects : gc'.toObjects = gc.toObjects) (suspended : gc'._stacks = gc._stacks)
    (unchecked : gc'._uncheckedEphemerons = gc._uncheckedEphemerons)
    (context : gc'.context = gc.context) (gcedRefs : gc'.gcedRefs = gc.gcedRefs) :
    Marking start reached held gc' work := by
  obtain ⟨⟩ := gc
  obtain ⟨⟩ := gc'
  simp only at objects suspended unchecked context gcedRefs
  subst objects suspended unchecked context gcedRefs
  exact ⟨marking.1, marking.2, marking.3, marking.4, marking.5, marking.6, marking.7, marking.8,
    marking.9, marking.10⟩

/-- The words of an object are up to date or wait to be scanned. -/
def Followed (start : Start) (gc : G1GC) (work : List (Nat × Nat × Nat)) (object : Nat) : Prop :=
  (∀ index, 0 < index → index ≤ (start.heap object).size →
    Resolved start gc.toObjects ((start.heap object).word index)
      ((gc.heap (current start gc.toObjects object)).word index) ∨
    Pending work (current start gc.toObjects object) index) ∧
  (start.IsProcessStack object → List.Forall₂ (Resolved start gc.toObjects)
    (start.heap object).frames (gc.heap (current start gc.toObjects object)).frames)

/-- Other special objects may be held back, or wait, when those that are let go are followed. -/
theorem Marking.regroup {held' : List Nat} (marking : Marking start reached held gc work)
    (objects : gc'.toObjects = gc.toObjects) (context : gc'.context = gc.context)
    (gcedRefs : gc'.gcedRefs = gc.gcedRefs) (suspended : gc'._stacks ⊆ gc._stacks)
    (waiting : ∀ address ∈ gc'._uncheckedEphemerons, ∃ object < start.count,
      (gc.heap object).hasBeenSeen = true ∧ start.IsEphemeron object ∧
        address = current start gc.toObjects object)
    (nodup : gc'._uncheckedEphemerons.Nodup)
    (opened : ∀ object < start.count, (gc.heap object).hasBeenSeen = true →
      Opened start held' gc' object → ¬ Opened start held gc object →
      Followed start gc work object) :
    Marking start reached held' gc' work := by
  have either : ∀ object < start.count, (gc.heap object).hasBeenSeen = true →
      Opened start held' gc' object → Opened start held gc object ∨ Followed start gc work object := by
    intro object inside seen now
    by_cases before : Opened start held gc object
    · exact Or.inl before
    · exact Or.inr (opened object inside seen now before)
  clear opened
  obtain ⟨⟩ := gc
  obtain ⟨⟩ := gc'
  simp only at objects context gcedRefs suspended waiting nodup either
  subst objects context gcedRefs
  refine ⟨marking.1, marking.2, marking.3, ?_, ?_, fun address member =>
    marking.6 address (suspended member), waiting, nodup, marking.9, marking.10⟩
  · intro object inside seen index low traced
    rcases Nat.eq_zero_or_pos index with rfl | positive
    · exact marking.4 object inside seen 0 low (Or.inl rfl)
    · rcases traced with zero | ordinary | now
      · exact absurd zero (Nat.ne_of_gt positive)
      · exact marking.4 object inside seen index low (Or.inr (Or.inl ordinary))
      · rcases either object inside seen now with before | followed
        · exact marking.4 object inside seen index low (Or.inr (Or.inr before))
        · exact followed.1 index positive low
  · intro object inside seen kind outside
    rcases either object inside seen (Or.inl ⟨kind, outside⟩) with before | followed
    · rcases before with ⟨_, outside'⟩ | ⟨ephemeron, _⟩
      · exact marking.5 object inside seen kind outside'
      · exact absurd kind (Start.not_both ephemeron)
    · exact followed.2 kind

/-- The work may shrink when what it drops is up to date. -/
theorem Marking.rework (marking : Marking start reached held gc work)
    (entries : ∀ entry ∈ work', ∃ entry' ∈ work, entry.1 = entry'.1 ∧ entry'.2.1 ≤ entry.2.1 ∧
      entry.2.2 ≤ entry'.2.2)
    (pending : ∀ object < start.count, (gc.heap object).hasBeenSeen = true → ∀ index,
      Pending work (current start gc.toObjects object) index →
      Resolved start gc.toObjects ((start.heap object).word index)
        ((gc.heap (current start gc.toObjects object)).word index) ∨
      Pending work' (current start gc.toObjects object) index) :
    Marking start reached held gc work' where
  heaped := marking.heaped
  bounded := marking.bounded
  entries := by
    intro entry member
    obtain ⟨entry', member', same, first, last⟩ := entries entry member
    obtain ⟨object, inside, seen, here, short, allowed⟩ := marking.entries entry' member'
    refine ⟨object, inside, seen, same.trans here, Nat.le_trans last short, ?_⟩
    intro index target low high word
    exact allowed index target (Nat.le_trans first low) (Nat.le_trans high last) word
  covered := by
    intro object inside seen index low traced
    rcases marking.covered object inside seen index low traced with resolved | waits
    · exact Or.inl resolved
    · exact pending object inside seen index waits
  framed := marking.framed
  suspended := marking.suspended
  waiting := marking.waiting
  nodup := marking.nodup
  context := marking.context
  gcedRefs := marking.gcedRefs

/-- An object some of whose words were brought up to date. -/
structure Improves (start : Start) (objects : Objects) (original old new : HeapObject) : Prop where
  seen : new.hasBeenSeen = old.hasBeenSeen
  keeps : Keeps start objects original new
  word : ∀ index, Resolved start objects (original.word index) (old.word index) →
    Resolved start objects (original.word index) (new.word index)
  frames : List.Forall₂ (Resolved start objects) original.frames old.frames →
    List.Forall₂ (Resolved start objects) original.frames new.frames

theorem Improves.wordPut {objects : Objects} {original old : HeapObject} {index : Nat}
    {value : Reference} (keeps : Keeps start objects original old) (inside : index ≤ original.size)
    (resolved : Resolved start objects (original.word index) value) :
    Improves start objects original old (old.wordPut value index) := by
  have words := @HeapObject.word_wordPut old value index (keeps.size ▸ inside)
  refine ⟨by simp, ⟨?_, ?_, fun other => ?_, ?_⟩, fun other fine => ?_, ?_⟩
  · rw [HeapObject.wordPut_isSpecial, keeps.special]
  · rw [HeapObject.wordPut_size, keeps.size]
  · rw [words]
    split
    · next same =>
      subst same
      exact Or.inr resolved
    · exact keeps.word other
  · rw [HeapObject.wordPut_frames]
    exact keeps.frames
  · rw [words]
    split
    · next same =>
      subst same
      exact resolved
    · exact fine
  · rw [HeapObject.wordPut_frames]
    exact id

theorem current_atPut {objects : Objects} {address : Nat} {new : HeapObject}
    (seen : new.hasBeenSeen = (objects.heap address).hasBeenSeen) (object : Nat) :
    ((objects.atPut address new).heap object).hasBeenSeen = (objects.heap object).hasBeenSeen ∧
      current start (objects.atPut address new) object = current start objects object := by
  have same : ((objects.atPut address new).heap object).hasBeenSeen =
      (objects.heap object).hasBeenSeen := by
    by_cases here : object = address
    · subst here
      simp [Objects.atPut, seen]
    · simp [Objects.atPut, here]
  refine ⟨same, ?_⟩
  unfold current
  rw [same]
  rfl

theorem Extends.atPut {objects : Objects} {address : Nat} {new : HeapObject}
    (seen : new.hasBeenSeen = (objects.heap address).hasBeenSeen) :
    Extends start objects (objects.atPut address new) where
  seen object marked := by rw [(@current_atPut start _ _ _ seen object).1, marked]
  current object _ := (current_atPut seen object).2

/-- What is not at the address that is written. -/
theorem heap_atPut_current {objects : Objects} (heaped : Heaped start objects)
    {object other : Nat} {new : HeapObject} (inside : object < start.count)
    (inside' : other < start.count) :
    (objects.atPut (current start objects object) new).heap (current start objects other) =
      if other = object then new else objects.heap (current start objects other) := by
  by_cases same : other = object
  · subst same
    simp [Objects.atPut]
  · have apart : current start objects other ≠ current start objects object :=
      fun same' => same (heaped.current_injective inside' inside same')
    simp [Objects.atPut, same, apart]

theorem Heaped.atPut {objects : Objects} (heaped : Heaped start objects) {object : Nat}
    {new : HeapObject} (inside : object < start.count)
    (seen : (objects.heap object).hasBeenSeen = true)
    (improves : Improves start objects (start.heap object)
      (objects.heap (current start objects object)) new) :
    Heaped start (objects.atPut (current start objects object) new) := by
  have extends_ : Extends start objects (objects.atPut (current start objects object) new) :=
    .atPut improves.seen
  have same := @current_atPut start _ _ _ improves.seen
  constructor
  · exact heaped.count_le
  · intro other inside' unseen
    rw [(same other).1] at unseen
    have apart := heaped.current_ne_unseen inside seen unseen
    have kept : (objects.atPut (current start objects object) new).heap other =
        objects.heap other := Function.update_of_ne apart.symm _ _
    rw [kept]
    exact heaped.unseen other inside' unseen
  · intro other moves seen'
    rw [(same other).1] at seen'
    have apart : other ≠ current start objects object := by
      intro here
      have low := start.evacuated_lt other moves
      have unmoved := heaped.eq_of_current_lt (here ▸ low)
      rw [unmoved] at here
      subst here
      have fresh := (heaped.fresh other moves seen').1
      rw [← current_moved moves seen', unmoved] at fresh
      lia
    have kept : (objects.atPut (current start objects object) new).heap other =
        objects.heap other := Function.update_of_ne apart _ _
    rw [kept]
    exact heaped.left other moves seen'
  · intro other moves seen'
    rw [(same other).1] at seen'
    exact heaped.fresh other moves seen'
  · intro first second moves seen' moves' seen'' forwarded
    rw [(same first).1] at seen'
    rw [(same second).1] at seen''
    exact heaped.apart first second moves seen' moves' seen'' forwarded
  · intro other inside' seen'
    rw [(same other).1] at seen'
    rw [(same other).2, (same _).1]
    exact heaped.marked other inside' seen'
  · intro other inside' seen'
    rw [(same other).1] at seen'
    rw [(same other).2, heap_atPut_current heaped inside inside']
    split
    · next here =>
      subst here
      exact extends_.keeps improves.keeps
    · exact extends_.keeps (heaped.kept other inside' seen')
  · intro address low high
    obtain ⟨other, moves, seen', forward⟩ := heaped.filled address low high
    exact ⟨other, moves, by rw [(same other).1, seen'], forward⟩

/-- Bringing words of an object up to date keeps the invariant. -/
theorem Marking.atPut (marking : Marking start reached held gc work) {object : Nat} {new : HeapObject}
    (inside : object < start.count) (seen : (gc.heap object).hasBeenSeen = true)
    (improves : Improves start gc.toObjects (start.heap object)
      (gc.heap (current start gc.toObjects object)) new) :
    Marking start reached held (gc.atPut (current start gc.toObjects object) new) work := by
  have extends_ : Extends start gc.toObjects
      (gc.toObjects.atPut (current start gc.toObjects object) new) := .atPut improves.seen
  have same := @current_atPut start _ _ _ improves.seen
  have here : ∀ other, current start (gc.atPut (current start gc.toObjects object) new).toObjects
      other = current start gc.toObjects other := fun other => (same other).2
  have marked : ∀ other, ((gc.atPut (current start gc.toObjects object) new).heap other).hasBeenSeen
      = (gc.heap other).hasBeenSeen := fun other => (same other).1
  have words : ∀ other < start.count,
      (gc.atPut (current start gc.toObjects object) new).heap (current start gc.toObjects other) =
        if other = object then new else gc.heap (current start gc.toObjects other) :=
    fun other inside' => heap_atPut_current marking.heaped inside inside'
  constructor
  · exact marking.heaped.atPut inside seen improves
  · intro other inside' seen'
    rw [marked] at seen'
    exact marking.bounded other inside' seen'
  · intro entry member
    exact (marking.entries entry member).extend extends_
  · intro other inside' seen' index low traced
    rw [marked] at seen'
    have traced' : Traced start held gc other index := by
      simp only [Traced, Opened, here] at traced ⊢
      exact traced
    rw [here, words other inside']
    rcases marking.covered other inside' seen' index low traced' with resolved | pending
    · left
      split
      · next there =>
        subst there
        exact extends_.resolved (improves.word index resolved)
      · exact extends_.resolved resolved
    · exact Or.inr pending
  · intro other inside' seen' kind outside
    rw [marked] at seen'
    rw [here] at outside ⊢
    rw [words other inside']
    have framed := marking.framed other inside' seen' kind outside
    split
    · next there =>
      subst there
      exact (improves.frames framed).imp fun _ _ => extends_.resolved
    · exact framed.imp fun _ _ => extends_.resolved
  · intro address member
    obtain ⟨other, inside', seen', kind, there⟩ := marking.suspended address member
    exact ⟨other, inside', by rw [marked, seen'], kind, by rw [here, there]⟩
  · intro address member
    obtain ⟨other, inside', seen', kind, there⟩ := marking.waiting address member
    exact ⟨other, inside', by rw [marked, seen'], kind, by rw [here, there]⟩
  · exact marking.nodup
  · exact marking.context.imp fun _ _ => .extend extends_
  · exact marking.gcedRefs.imp fun _ _ => .extend extends_

end Invariant

end Egg.Tracing
