import Egg.Tracing.Relocation

/-! The dictionary that `primitiveDictionaryNew` answers, whatever its allocations do. -/
namespace Egg.Tracing

open Egg.Data

/-- The primitive sent to a class of dictionaries: it has a format with two instance variables at
least, and the class of tables is in the kernel. -/
structure Request (known : Known) where
  machine : Machine
  sound : machine.Sound known
  species : Nat
  behavior : Nat
  format : Int
  tableBehavior : Nat
  tableFormat : Int
  self : machine.self = .object species
  ordinary : (machine.heap species).isSpecial = false
  behaves : (machine.heap species).slot 1 = .object behavior
  formatted : (machine.heap species).slot 2 = .immediate format
  named : 2 ≤ (format % 128).toNat
  held : machine.released species = false ∧ machine.released behavior = false
  tableClass : known.openHashTableClass < machine.next ∧
    machine.released known.openHashTableClass = false
  tableBehaves : (machine.heap known.openHashTableClass).slot 1 = .object tableBehavior
  tableFormatted : (machine.heap known.openHashTableClass).slot 2 = .immediate tableFormat
  tableHeld : known.loaded tableBehavior = true ∧ machine.released tableBehavior = false

variable {known : Known}

/-- The answer is a dictionary of the receiver's class, wherever that is now, with a new table. -/
structure Answers (request : Request known) (machine : Machine) (dictionary : Nat) : Prop where
  made : request.machine.next ≤ dictionary ∧ machine.released dictionary = false
  behavior : ∃ species behavior, machine.self = .object species ∧
    machine.released species = false ∧ (machine.heap species).slot 1 = .object behavior ∧
    (machine.heap dictionary).behavior = .object behavior ∧ machine.released behavior = false
  tally : (machine.heap dictionary).slot 0 = .immediate 0
  table : ∃ table, (machine.heap dictionary).slot 1 = .object table ∧ table ≠ dictionary ∧
    request.machine.next ≤ table ∧ machine.released table = false ∧
    (machine.heap table).behavior = .object request.tableBehavior ∧
    machine.released request.tableBehavior = false ∧
    (machine.heap table).size = (request.tableFormat % 128).toNat + 7 ∧
    (machine.heap table).slot 0 = .object dictionary ∧
    ∀ index, 0 < index → index < (machine.heap table).size →
      (machine.heap table).slot index = .object known.nil

namespace Machine

/-- The dictionary and its table refer to each other. -/
def link (machine : Machine) (instance_ table : Nat) : Machine :=
  let tallied := machine.put instance_
    ((machine.heap instance_).slotAtPut 1 (.immediate 0))
  let filled := tallied.put instance_ ((tallied.heap instance_).slotAtPut 2 (.object table))
  filled.put table ((filled.heap table).slotAtPut 1 (.object instance_))

theorem link_heap {machine : Machine} {instance_ table : Nat} (apart : table ≠ instance_)
    (object : Nat) : (machine.link instance_ table).heap object =
      if object = table then (machine.heap table).slotAtPut 1 (.object instance_)
      else if object = instance_ then ((machine.heap instance_).slotAtPut 1 (.immediate 0)).slotAtPut 2
        (.object table)
      else machine.heap object := by
  simp only [link, put, Function.update_apply, if_neg apart, if_true]
  by_cases here : object = instance_
  · simp only [here, if_true]
  · simp only [here, if_false]

theorem primitiveDictionaryNew_eq {machine : Machine} {species : Nat}
    (self : machine.self = .object species) (first second : Occasion) (fuel : Nat) :
    machine.primitiveDictionaryNew known fuel first second =
      (machine.newSlots_size_ known fuel first known.openHashTableClass 7).bind
        fun (withTable, table) => (withTable.newSlotsOf_ known fuel second species).bind
          fun (withInstance, instance_) =>
            (withInstance.slotPut instance_ 0 (.immediate 0)).bind fun tallied =>
              (tallied.slotPut instance_ 1 (.object table)).bind fun filled =>
                (filled.slotPut table 0 (.object instance_)).bind fun linked =>
                  some (linked, instance_) := by
  simp only [primitiveDictionaryNew, self]
  rfl

/-- Both allocations done, the rest cannot fail. -/
theorem primitiveDictionaryNew_runs {machine machine' machine'' : Machine} {first second : Occasion}
    {species table instance_ : Nat} (self : machine.self = .object species)
    (runs : Converges (fun fuel => machine.newSlots_size_ known fuel first known.openHashTableClass 7)
      (machine', table))
    (runs' : Converges (fun fuel => machine'.newSlotsOf_ known fuel second species)
      (machine'', instance_))
    (unreleased : machine''.released instance_ = false)
    (unreleased' : machine''.released table = false) :
    Converges (fun fuel => machine.primitiveDictionaryNew known fuel first second)
      (machine''.link instance_ table, instance_) := by
  have slotPut : ∀ {machine : Machine} {object index : Nat} {value : Reference},
      machine.released object = false → machine.slotPut object index value =
        some (machine.put object ((machine.heap object).slotAtPut (index + 1) value)) := by
    intro machine object index value held
    simp only [Machine.slotPut, fetch, store, held, Bool.false_eq_true, if_false, Option.bind_some]
  simp only [primitiveDictionaryNew_eq self]
  refine runs.bind (runs'.bind ?_)
  have tallied := @slotPut machine'' instance_ 0 (.immediate 0) unreleased
  simp only [tallied, Option.bind_some]
  have filled := @slotPut (machine''.put instance_ ((machine''.heap instance_).slotAtPut 1 (.immediate 0)))
    instance_ 1 (.object table) unreleased
  simp only [filled, Option.bind_some]
  have linked := @slotPut ((machine''.put instance_
      ((machine''.heap instance_).slotAtPut 1 (.immediate 0))).put instance_
        (((machine''.put instance_ ((machine''.heap instance_).slotAtPut 1 (.immediate 0))).heap
          instance_).slotAtPut 2 (.object table)))
    table 0 (.object instance_) unreleased'
  simp only [linked, Option.bind_some]
  exact .pure _

end Machine

namespace Request

variable (request : Request known)

theorem species_lt : request.species < request.machine.next :=
  request.sound.rootsClosed _ (List.mem_append_left _ (by rw [request.self]; exact List.mem_cons_self))

/-- The first allocation does not move the receiver; or it does, but leaves its memory as it is, and
the behavior the receiver refers to does not move. -/
def Readable (first : Occasion) : Prop :=
  request.machine.moves known first request.species = false ∨
    first.last request.species = true ∧ request.machine.moves known first request.behavior = false

theorem loaded_stays {machine : Machine} {occasion : Occasion} {object : Nat}
    (loaded : known.loaded object = true) : machine.moves known occasion object = false := by
  simp only [Machine.moves, Machine.hasToEvacuate, loaded, Bool.not_true, Bool.and_false,
    Bool.false_and]

/-- A fresh table. -/
def table : HeapObject :=
  { HeapObject.filledWith known.nil ((request.tableFormat % 128).toNat + 7) with
    behavior := .object request.tableBehavior }

theorem allocates_table (first : Occasion) :
    ∃ machine now table,
      Converges (fun fuel => request.machine.newSlots_size_ known fuel first
        known.openHashTableClass 7) (machine, table) ∧
      Machine.Allocates known first request.table request.machine machine now table := by
  obtain ⟨machine, now, table, runs, allocates, _⟩ := request.sound.newSlots first 7
    request.tableClass.2 request.tableFormatted request.tableBehaves fun target same => by
      cases same
      exact request.sound.closed _ request.tableClass.1 2 _ request.tableBehaves
  have stays : now request.tableBehavior = request.tableBehavior :=
    allocates.relocates.stays _ (loaded_stays request.tableHeld.1)
  simp only [Reference.relocate, stays] at allocates
  exact ⟨machine, now, table, runs, allocates⟩

/-- The table stays where it is when the dictionary is allocated, and nothing in it changes. -/
theorem table_stays {first second : Occasion} {filled : HeapObject} {machine machine' : Machine}
    {now now' : Nat → Nat} {table instance_ : Nat}
    (one : Machine.Allocates known first request.table request.machine machine now table)
    (two : Machine.Allocates known second filled machine machine' now' instance_) :
    (machine'.heap table).size = (request.tableFormat % 128).toNat + 7 ∧
      machine'.released table = false ∧
      ∀ index, (machine'.heap table).word index = request.table.word index := by
  have stays : machine.moves known second table = false := by
    simp only [Machine.moves, Machine.hasToEvacuate, one.current, Bool.not_true, Bool.and_false,
      Bool.false_and]
  obtain ⟨size, held, words⟩ := two.relocates.kept table one.high stays
  rw [one.heap] at size words
  refine ⟨size.trans List.length_replicate, held one.unreleased, fun index => ?_⟩
  have loaded : ∀ object, known.loaded object = true → now' object = object :=
    fun object loaded => two.relocates.stays object (loaded_stays loaded)
  have fixed : (request.table.word index).relocate now' = request.table.word index := by
    cases index with
    | zero => exact congrArg Reference.object (loaded _ request.tableHeld.1)
    | succ index =>
      have word : request.table.word (index + 1) = (HeapObject.filledWith known.nil
        ((request.tableFormat % 128).toNat + 7)).word (index + 1) := rfl
      rw [word, HeapObject.filledWith_word]
      split
      · exact congrArg Reference.object
          (loaded _ (request.sound.kernel known.nil (by simp)).2)
      · rfl
  rcases words index with same | moved
  · exact same
  · exact moved.trans fixed

theorem tableBehavior_held {first second : Occasion} {made filled : HeapObject}
    {machine machine' : Machine} {now now' : Nat → Nat} {table instance_ : Nat}
    (one : Machine.Allocates known first made request.machine machine now table)
    (two : Machine.Allocates known second filled machine machine' now' instance_) :
    machine'.released request.tableBehavior = false := by
  have below : request.tableBehavior < request.machine.next :=
    request.sound.closed _ request.tableClass.1 2 _ request.tableBehaves
  have once := (one.relocates.kept _ below (loaded_stays request.tableHeld.1)).2.1
    request.tableHeld.2
  exact (two.relocates.kept _ (Nat.lt_of_lt_of_le below one.relocates.next_le)
    (loaded_stays request.tableHeld.1)).2.1 once

/-- The dictionary and its table, whatever the dictionary was made of. -/
theorem table_answers {machine' : Machine} {table instance_ : Nat} (apart : table ≠ instance_)
    (size : (machine'.heap table).size = (request.tableFormat % 128).toNat + 7)
    (words : ∀ index, (machine'.heap table).word index = request.table.word index) :
    let linked := machine'.link instance_ table
    (linked.heap table).behavior = .object request.tableBehavior ∧
      (linked.heap table).size = (request.tableFormat % 128).toNat + 7 ∧
      (linked.heap table).slot 0 = .object instance_ ∧
      ∀ index, 0 < index → index < (linked.heap table).size →
        (linked.heap table).slot index = .object known.nil := by
  have heap : (machine'.link instance_ table).heap table =
      (machine'.heap table).wordPut (.object instance_) 1 := by
    rw [Machine.link_heap apart, if_pos rfl]
    rfl
  have low : 1 ≤ (machine'.heap table).size := by omega
  have put := @HeapObject.word_wordPut (machine'.heap table) (.object instance_) 1 low
  simp only [heap, HeapObject.wordPut_size, size]
  refine ⟨?_, trivial, (put 1).trans (if_pos rfl), fun index positive below => ?_⟩
  · exact (put 0).trans (words 0)
  · have here : ((machine'.heap table).wordPut (.object instance_) 1).slot index =
        request.table.word (index + 1) :=
      (put (index + 1)).trans ((if_neg (by omega)).trans (words (index + 1)))
    have word : request.table.word (index + 1) = (HeapObject.filledWith known.nil
      ((request.tableFormat % 128).toNat + 7)).word (index + 1) := rfl
    rw [here, word, HeapObject.filledWith_word, if_pos ⟨Nat.succ_pos index, below⟩]

theorem root : Reference.object request.species ∈ request.machine.self :: request.machine.context := by
  rw [request.self]
  exact List.mem_cons_self

theorem behavior_held : Machine.Held request.machine request.behavior := by
  have word : (request.machine.heap request.species).word 2 = .object request.behavior :=
    request.behaves
  exact .word request.root request.ordinary word

/-- The receiver after the first allocation. -/
structure Receives (machine : Machine) (now : Nat → Nat) : Prop where
  self : machine.self = .object (now request.species)
  held : machine.released (now request.species) = false
  ordinary : (machine.heap (now request.species)).isSpecial = false
  behaves : (machine.heap (now request.species)).slot 1 = .object (now request.behavior)
  behaviorHeld : machine.released (now request.behavior) = false

theorem receives {first : Occasion} {made : HeapObject} {machine : Machine} {now : Nat → Nat}
    {table : Nat} (one : Machine.Allocates known first made request.machine machine now table) :
    request.Receives machine now := by
  have moved := one.relocates
  obtain ⟨ordinary, words⟩ := moved.words _ request.root request.ordinary
  have was : (request.machine.heap request.species).word 2 = .object request.behavior :=
    request.behaves
  have behaves := words 2
  rw [was] at behaves
  refine ⟨?_, moved.safe _ (.root request.root) request.held.1, ordinary, behaves,
    moved.safe _ request.behavior_held request.held.2⟩
  rw [moved.self, request.self, Reference.relocate]

/-- The receiver after both, at its current address and with its current behavior. -/
theorem receives_again {first second : Occasion} {made filled : HeapObject}
    {machine machine' : Machine} {now now' : Nat → Nat} {table instance_ : Nat}
    (one : Machine.Allocates known first made request.machine machine now table)
    (two : Machine.Allocates known second filled machine machine' now' instance_) :
    machine'.self = .object (now' (now request.species)) ∧
      machine'.released (now' (now request.species)) = false ∧
      ((machine'.link instance_ table).heap (now' (now request.species))).slot 1 =
        .object (now' (now request.behavior)) := by
  have receives := request.receives one
  have root : Reference.object (now request.species) ∈ machine.self :: machine.context := by
    rw [receives.self]
    exact List.mem_cons_self
  have apart : table ≠ instance_ := Nat.ne_of_lt (Nat.lt_of_lt_of_le one.high two.low)
  have notTable : now' (now request.species) ≠ table := by
    rcases two.relocates.apart (now request.species) with same | high
    · rw [same]
      exact one.apart _ request.root
    · exact Nat.ne_of_gt (Nat.lt_of_lt_of_le one.high high)
  have word := (two.relocates.words _ root receives.ordinary).2 2
  have was : (machine.heap (now request.species)).word 2 = .object (now request.behavior) :=
    receives.behaves
  rw [was] at word
  refine ⟨?_, two.relocates.safe _ (.root root) receives.held, ?_⟩
  · rw [two.relocates.self, receives.self, Reference.relocate]
  · rw [Machine.link_heap apart, if_neg notTable, if_neg (two.apart _ root)]
    exact word

/-- What the stale pointer reads when the receiver's memory is as it was. -/
theorem reads {first : Occasion} {made : HeapObject} {machine : Machine} {now : Nat → Nat}
    {table : Nat} (one : Machine.Allocates known first made request.machine machine now table)
    (intact : request.machine.moves known first request.species = false ∨
      first.last request.species = true) :
    machine.released request.species = false ∧
      (machine.heap request.species).slot 2 = .immediate request.format ∧
      ((machine.heap request.species).slot 1 = .object (now request.behavior) ∨
        request.machine.moves known first request.species = true ∧
          (machine.heap request.species).slot 1 = .object request.behavior) := by
  have moved := one.relocates
  cases moves : request.machine.moves known first request.species with
  | false =>
    have here := moved.stays _ moves
    have receives := request.receives one
    have words := (moved.words _ request.root request.ordinary).2
    have was : (request.machine.heap request.species).word 3 = .immediate request.format :=
      request.formatted
    have formatted := words 3
    have held := receives.held
    have behaves := receives.behaves
    rw [here] at formatted held behaves
    rw [was] at formatted
    exact ⟨held, formatted, Or.inl behaves⟩
  | true =>
    have last := intact.resolve_left (by rw [moves]; exact Bool.false_ne_true ∘ Eq.symm)
    obtain ⟨words, held⟩ := moved.stale _ moves last
    exact ⟨held request.held.1, (words 3).trans request.formatted,
      Or.inr ⟨rfl, (words 2).trans request.behaves⟩⟩

/-- When the receiver can still be read, its dictionary is answered. -/
theorem answers_of_readable {first : Occasion} (second : Occasion) (readable : request.Readable first) :
    ∃ machine dictionary, Converges (fun fuel =>
        request.machine.primitiveDictionaryNew known fuel first second) (machine, dictionary) ∧
      Answers request machine dictionary := by
  obtain ⟨machine, now, table, runs, one⟩ := request.allocates_table first
  have moved := one.relocates
  obtain ⟨held, formatted, behaves⟩ := request.reads one (readable.imp id And.left)
  have behaves : (machine.heap request.species).slot 1 = .object (now request.behavior) := by
    rcases behaves with same | ⟨moves, same⟩
    · exact same
    · rcases readable with stays | ⟨_, stays⟩
      · rw [moves] at stays
        cases stays
      · rw [same, moved.stays _ stays]
  have below : request.species < machine.next := Nat.lt_of_lt_of_le request.species_lt moved.next_le
  obtain ⟨machine', now', instance_, runs', two, safe⟩ := moved.sound.newSlots second 0 held formatted
    behaves fun target same => by
      cases same
      exact moved.sound.closed _ below 2 _ behaves
  obtain ⟨size, tableHeld, words⟩ := request.table_stays one two
  have apart : table ≠ instance_ := Nat.ne_of_lt (Nat.lt_of_lt_of_le one.high two.low)
  refine ⟨_, _, Machine.primitiveDictionaryNew_runs request.self runs runs' two.unreleased tableHeld,
    ?_⟩
  obtain ⟨self, selfHeld, classBehaves⟩ := request.receives_again one two
  have dictionary : (machine'.link instance_ table).heap instance_ =
      ((machine'.heap instance_).wordPut (.immediate 0) 1).wordPut (.object table) 2 := by
    rw [Machine.link_heap apart, if_neg apart.symm, if_pos rfl]
    rfl
  have named : 2 ≤ (machine'.heap instance_).size := by
    rw [two.heap]
    exact Nat.le_trans request.named (Nat.le_of_eq List.length_replicate.symm)
  have tally := @HeapObject.word_wordPut (machine'.heap instance_) (.immediate 0) 1 (by omega)
  have filled := @HeapObject.word_wordPut ((machine'.heap instance_).wordPut (.immediate 0) 1)
    (.object table) 2 (by simpa using named)
  have tableBehaviorHeld := request.tableBehavior_held one two
  have unmoved := request.table_answers apart size words
  refine ⟨⟨Nat.le_trans moved.next_le two.low, two.unreleased⟩, ⟨_, _, self, selfHeld, classBehaves,
    ?_, (safe _ rfl).1 (request.receives one).behaviorHeld⟩, ?_, ⟨table, ?_, apart, one.low,
    tableHeld, unmoved.1, tableBehaviorHeld, unmoved.2⟩⟩
  · rw [dictionary]
    refine (filled 0).trans ((tally 0).trans ?_)
    rw [two.heap]
    rfl
  · rw [dictionary]
    exact (filled 1).trans (tally 1)
  · rw [dictionary]
    exact filled 2

/-- Otherwise the stale pointer reads memory that is protected or wiped, or an old behavior. -/
theorem not_answers {first : Occasion} (second : Occasion) (unreadable : ¬ request.Readable first)
    {machine : Machine} {dictionary : Nat} (runs : Converges (fun fuel =>
      request.machine.primitiveDictionaryNew known fuel first second) (machine, dictionary)) :
    ¬ Answers request machine dictionary := by
  intro answers
  obtain ⟨withTable, now, table, allocated, one⟩ := request.allocates_table first
  have moves : request.machine.moves known first request.species = true := by
    rw [← Bool.not_eq_false]
    exact fun stays => unreadable (Or.inl stays)
  cases held : withTable.released request.species with
  | true =>
    obtain ⟨bound, runs⟩ := runs
    obtain ⟨bound', allocated⟩ := allocated
    have ran := runs _ (Nat.le_max_left bound bound')
    have gone : ∀ fuel, withTable.newSlotsOf_ known fuel second request.species = none := by
      intro fuel
      simp only [Machine.newSlotsOf_, Machine.newSlots_size_, Machine.speciesInstanceSize_,
        Machine.fetch, held, if_true, Option.bind_none, Option.bind_eq_bind]
    simp only [Machine.primitiveDictionaryNew_eq request.self,
      allocated _ (Nat.le_max_right bound bound'), Option.bind_some, gone, Option.bind_none] at ran
    cases ran
  | false =>
    -- what the pointer reads as format and behavior
    obtain ⟨format, behavior, formatted, behaves, old⟩ : ∃ (format : Int) (behavior : Reference),
        (withTable.heap request.species).slot 2 = .immediate format ∧
        (withTable.heap request.species).slot 1 = behavior ∧
        (behavior = .immediate 0 ∨ behavior = .object request.behavior ∧
          request.machine.moves known first request.behavior = true) := by
      cases last : first.last request.species with
      | false =>
        have wiped := one.relocates.lost _ moves last
        refine ⟨0, _, ?_, rfl, Or.inl ?_⟩
        · rw [wiped]
          rfl
        · rw [wiped]
          rfl
      | true =>
        obtain ⟨words, _⟩ := one.relocates.stale _ moves last
        refine ⟨request.format, _, (words 3).trans request.formatted, rfl,
          Or.inr ⟨(words 2).trans request.behaves, ?_⟩⟩
        rw [← Bool.not_eq_false]
        exact fun stays => unreadable (Or.inr ⟨last, stays⟩)
    have below : request.species < withTable.next :=
      Nat.lt_of_lt_of_le request.species_lt one.relocates.next_le
    obtain ⟨withInstance, now', instance_, allocated', two, apartNow⟩ :=
      one.relocates.sound.newSlots second 0 held formatted behaves fun target same =>
        one.relocates.sound.closed _ below 2 _ (behaves.trans same)
    obtain ⟨_, tableHeld, _⟩ := request.table_stays one two
    have apart : table ≠ instance_ := Nat.ne_of_lt (Nat.lt_of_lt_of_le one.high two.low)
    have same := runs.unique (Machine.primitiveDictionaryNew_runs request.self allocated allocated'
      two.unreleased tableHeld)
    obtain ⟨rfl, rfl⟩ := Prod.mk.inj same
    obtain ⟨self, _, classBehaves⟩ := request.receives_again one two
    obtain ⟨species, behavior', self', _, classBehaves', holds, _⟩ := answers.behavior
    have here : species = now' (now request.species) :=
      Reference.object.inj (self'.symm.trans self)
    rw [here, classBehaves] at classBehaves'
    rw [Machine.link_heap apart, if_neg apart.symm, if_pos rfl, two.heap, ← classBehaves'] at holds
    have stored : behavior.relocate now' = .object (now' (now request.behavior)) := holds
    rcases old with rfl | ⟨rfl, left⟩
    · cases stored
    · have receives := request.receives one
      have heldNow : Machine.Held withTable (now request.behavior) := by
        have word : (withTable.heap (now request.species)).word 2 =
            .object (now request.behavior) := receives.behaves
        refine .word ?_ receives.ordinary word
        rw [receives.self]
        exact List.mem_cons_self
      have equal := (apartNow _ rfl).2 _ heldNow (Reference.object.inj stored)
      have high := one.relocates.leaves _ request.behavior_held left
      rw [← equal] at high
      exact absurd (Machine.moves_lt left) (Nat.not_lt_of_le high)

/-- The dictionary is as requested exactly when the receiver can be read after the first allocation. -/
theorem dictionaryNew_iff (first second : Occasion) :
    (∃ machine dictionary, Converges (fun fuel =>
        request.machine.primitiveDictionaryNew known fuel first second) (machine, dictionary) ∧
      Answers request machine dictionary) ↔ request.Readable first := by
  constructor
  · rintro ⟨machine, dictionary, runs, answers⟩
    by_contra unreadable
    exact request.not_answers second unreadable runs answers
  · exact request.answers_of_readable second

end Request

section Stale

/-- The kernel's classes, nil, and the behavior of tables are loaded. -/
def kernel : Known where
  ephemeronClass := 0
  processStackClass := 1
  openHashTableClass := 2
  nil := 3
  loaded object := decide (object < 5)

/-- Tables have one instance variable, dictionaries have two. -/
def objects : List HeapObject :=
  [.filledWith 3 0, .filledWith 3 0,
    { HeapObject.filledWith 3 0 with slots := [.object 3, .object 4, .immediate 1] },
    .filledWith 3 0, .filledWith 3 0,
    { HeapObject.filledWith 3 0 with slots := [.object 3, .object 6, .immediate 2] },
    .filledWith 3 0]

def evaluator : Machine where
  heap object := objects.getD object .wiped
  next := 7
  released _ := false
  current _ := false
  self := .object 5
  context := []
  gcedRefs := []

def Reference.below (count : Nat) : Reference → Bool
  | .immediate _ => true
  | .object address => decide (address < count)

theorem word_mem {object : HeapObject} {index target : Nat}
    (word : object.word index = .object target) :
    Reference.object target ∈ object.behavior :: object.slots := by
  cases index with
  | zero => exact List.mem_cons.mpr (Or.inl word.symm)
  | succ index =>
    have slot : object.slots.getD index (.immediate 0) = .object target := word
    rw [List.getD_eq_getElem?_getD] at slot
    cases found : object.slots[index]? with
    | none =>
      rw [found] at slot
      cases slot
    | some value =>
      rw [found] at slot
      exact List.mem_cons_of_mem _ (slot ▸ List.mem_of_getElem? found)

theorem evaluator_closed : ∀ object < 7,
    ∀ word ∈ (evaluator.heap object).behavior :: (evaluator.heap object).slots,
      word.below 7 = true := by
  decide

theorem evaluator_framesClosed : ∀ object < 7, (evaluator.heap object).frames = [] := by
  decide

/-- The receiver, object 5, may move. -/
def request : Request kernel where
  machine := evaluator
  sound :=
    { closed := fun object inside index target word =>
        of_decide_eq_true (evaluator_closed object inside _ (word_mem word))
      framesClosed := fun object inside target member =>
        absurd member (evaluator_framesClosed object inside ▸ List.not_mem_nil)
      rootsClosed := fun target member => by
        rcases List.mem_cons.mp member with same | never
        · cases same
          decide
        · cases never
      released_lt := fun _ never => by cases never
      kernel := by decide }
  species := 5
  behavior := 6
  format := 2
  tableBehavior := 4
  tableFormat := 1
  self := rfl
  ordinary := rfl
  behaves := rfl
  formatted := rfl
  named := by decide
  held := ⟨rfl, rfl⟩
  tableClass := by decide
  tableBehaves := rfl
  tableFormatted := rfl
  tableHeld := by decide

/-- A collection moves the receiver at the first allocation; its memory is wiped when the dictionary is
allocated from it. -/
def collecting : Occasion where
  collects := true
  chosen object := decide (object = 5)
  last _ := false
  committed _ := true
  current _ := false

def idle : Occasion where
  collects := false
  chosen _ := false
  last _ := false
  committed _ := false
  current _ := false

theorem dictionary_loses_class : ∃ (known : Known) (request : Request known)
    (first second : Occasion) (fuel : Nat) (machine : Machine) (dictionary : Nat),
    request.machine.primitiveDictionaryNew known fuel first second = some (machine, dictionary) ∧
      ¬ Answers request machine dictionary := by
  have lost : (request.machine.primitiveDictionaryNew kernel 20 collecting idle).map
      (fun answer => (answer.1.heap answer.2).behavior) = some (.immediate 0) := by
    decide +kernel
  obtain ⟨⟨machine, dictionary⟩, runs, behavior⟩ := Option.map_eq_some_iff.mp lost
  refine ⟨kernel, request, collecting, idle, 20, machine, dictionary, runs, fun answers => ?_⟩
  obtain ⟨_, _, _, _, _, holds, _⟩ := answers.behavior
  rw [behavior] at holds
  cases holds

end Stale

end Egg.Tracing
