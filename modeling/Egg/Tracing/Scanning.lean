import Mathlib.Data.Finset.Card
import Mathlib.Data.Finset.Range
import Mathlib.Data.Prod.Lex
import Egg.Tracing.Invariant

/-! One step of the tracer, and passes over roots: each keeps the invariant and reaches more. -/
namespace Egg.Tracing

variable {start : Start}

/-- The objects that were not reached yet. -/
def unseen (start : Start) (objects : Objects) : Finset Nat :=
  (Finset.range start.count).filter fun object => (objects.heap object).hasBeenSeen = false

/-- What tracing leaves as it was, and the ephemerons it finds. -/
structure Grows (start : Start) (gc gc' : G1GC) : Prop where
  extends_ : Extends start gc.toObjects gc'.toObjects
  unreached : gc'._unreachedEphemerons = gc._unreachedEphemerons
  rescued : gc'._rescuedEphemerons = gc._rescuedEphemerons
  live : gc'._liveEphemerons = gc._liveEphemerons
  unchecked : ∃ new, gc'._uncheckedEphemerons = new ++ gc._uncheckedEphemerons ∧
    ∀ address, address ∈ new ↔ ∃ object < start.count, (gc.heap object).hasBeenSeen = false ∧
      (gc'.heap object).hasBeenSeen = true ∧ start.IsEphemeron object ∧
      address = current start gc'.toObjects object
  context : List.Forall₂ (Resolved start gc.toObjects) start.context gc.context →
    List.Forall₂ (Resolved start gc'.toObjects) start.context gc'.context

section Grows

variable {gc gc' gc'' : G1GC}

theorem Extends.unseen_subset {objects objects' : Objects}
    (extends_ : Extends start objects objects') : unseen start objects' ⊆ unseen start objects := by
  intro object member
  obtain ⟨inside, fresh⟩ := Finset.mem_filter.mp member
  refine Finset.mem_filter.mpr ⟨inside, ?_⟩
  rw [← Bool.not_eq_true] at fresh ⊢
  exact mt (extends_.seen object) fresh

theorem Extends.unseen_le {objects objects' : Objects}
    (extends_ : Extends start objects objects') :
    (unseen start objects').card ≤ (unseen start objects).card :=
  Finset.card_le_card extends_.unseen_subset

/-- Something was reached, or only this happened. -/
def Moves (start : Start) (gc gc' : G1GC) (otherwise : Prop) : Prop :=
  (unseen start gc'.toObjects).card < (unseen start gc.toObjects).card ∨ otherwise

theorem Moves.trans {p q r : Prop} (extends_ : Extends start gc.toObjects gc'.toObjects)
    (extends_' : Extends start gc'.toObjects gc''.toObjects)
    (first : Moves start gc gc' p) (second : Moves start gc' gc'' q) (both : p → q → r) :
    Moves start gc gc'' r := by
  rcases first with less | one
  · exact Or.inl (Nat.lt_of_le_of_lt extends_'.unseen_le less)
  · rcases second with less | other
    · exact Or.inl (Nat.lt_of_lt_of_le less extends_.unseen_le)
    · exact Or.inr (both one other)

/-- What is left to reach comes first in every measure. -/
theorem Moves.lex_lt {μ : Type} [Preorder μ] {p : Prop} {before after : μ}
    (extends_ : Extends start gc.toObjects gc'.toObjects) (moves : Moves start gc gc' p)
    (less : p → after < before) :
    toLex ((unseen start gc'.toObjects).card, after) <
      toLex ((unseen start gc.toObjects).card, before) := by
  rw [Prod.Lex.toLex_lt_toLex]
  rcases moves with fewer | happened
  · exact Or.inl fewer
  · rcases Nat.lt_or_eq_of_le extends_.unseen_le with fewer | same
    · exact Or.inl fewer
    · exact Or.inr ⟨same, less happened⟩

theorem Grows.refl (gc : G1GC) : Grows start gc gc where
  extends_ := .refl _
  unreached := rfl
  rescued := rfl
  live := rfl
  unchecked := by
    refine ⟨[], rfl, fun address => ?_⟩
    simp only [List.not_mem_nil, false_iff]
    rintro ⟨object, _, fresh, seen, _⟩
    rw [fresh] at seen
    cases seen
  context := id

theorem Grows.trans (first : Grows start gc gc') (second : Grows start gc' gc'') :
    Grows start gc gc'' where
  extends_ := first.extends_.trans second.extends_
  unreached := second.unreached.trans first.unreached
  rescued := second.rescued.trans first.rescued
  live := second.live.trans first.live
  unchecked := by
    obtain ⟨new, listed, found⟩ := first.unchecked
    obtain ⟨new', listed', found'⟩ := second.unchecked
    refine ⟨new' ++ new, by rw [listed', listed, List.append_assoc], fun address => ?_⟩
    rw [List.mem_append, found, found']
    constructor
    · rintro (⟨object, inside, fresh, seen, kind, same⟩ | ⟨object, inside, fresh, seen, kind, same⟩)
      · refine ⟨object, inside, ?_, seen, kind, same⟩
        rw [← Bool.not_eq_true] at fresh ⊢
        exact mt (first.extends_.seen object) fresh
      · exact ⟨object, inside, fresh, second.extends_.seen object seen, kind,
          by rw [same, second.extends_.current object seen]⟩
    · rintro ⟨object, inside, fresh, seen, kind, same⟩
      cases between : (gc'.heap object).hasBeenSeen with
      | false => exact Or.inl ⟨object, inside, between, seen, kind, same⟩
      | true =>
        exact Or.inr ⟨object, inside, fresh, between, kind,
          by rw [same, second.extends_.current object between]⟩
  context resolved := second.context (first.context resolved)

/-- Reaching one more object. -/
theorem Reaches.grows {target : Nat} (reaches : Reaches start gc target gc') :
    Grows start gc gc' where
  extends_ := reaches.puts.extends_
  unreached := (congrArg G1GC._unreachedEphemerons reaches.frame).trans rfl
  rescued := (congrArg G1GC._rescuedEphemerons reaches.frame).trans rfl
  live := (congrArg G1GC._liveEphemerons reaches.frame).trans rfl
  unchecked := by
    have fresh : ∀ object < start.count, (gc.heap object).hasBeenSeen = false →
        (gc'.heap object).hasBeenSeen = true → object = target := by
      intro object inside fresh seen
      rcases (reaches.puts.seen_iff inside).mp seen with old | same
      · rw [fresh] at old
        cases old
      · exact same
    by_cases kind : start.IsEphemeron target
    · refine ⟨[current start gc'.toObjects target], reaches.ephemeron kind, fun address => ?_⟩
      rw [List.mem_singleton]
      constructor
      · intro same
        exact ⟨target, reaches.puts.inside, reaches.puts.unseen,
          (reaches.puts.seen_iff reaches.puts.inside).mpr (Or.inr rfl), kind, same⟩
      · rintro ⟨object, inside, unseen, seen, _, same⟩
        rw [same, fresh object inside unseen seen]
    · refine ⟨[], reaches.notEphemeron kind, fun address => ?_⟩
      simp only [List.not_mem_nil, false_iff]
      rintro ⟨object, inside, unseen, seen, kind', _⟩
      rw [fresh object inside unseen seen] at kind'
      exact kind kind'
  context resolved := by
    rw [(congrArg G1GC.context reaches.frame).trans rfl]
    exact resolved.imp fun _ _ => reaches.puts.extends_.resolved

/-- There is less to reach afterwards. -/
theorem Reaches.unseen_lt {target : Nat} (reaches : Reaches start gc target gc') :
    (unseen start gc'.toObjects).card < (unseen start gc.toObjects).card := by
  refine Finset.card_lt_card ((Finset.ssubset_iff_of_subset
    reaches.puts.extends_.unseen_subset).mpr ⟨target, ?_, fun member => ?_⟩)
  · exact Finset.mem_filter.mpr ⟨Finset.mem_range.mpr reaches.puts.inside, reaches.puts.unseen⟩
  · have marked := (reaches.puts.seen_iff reaches.puts.inside).mpr (Or.inr rfl)
    rw [(Finset.mem_filter.mp member).2] at marked
    cases marked

/-- Bringing words of an object up to date. -/
theorem Grows.atPut {address : Nat} {new : HeapObject}
    (seen : new.hasBeenSeen = (gc.heap address).hasBeenSeen) :
    Grows start gc (gc.atPut address new) := by
  have extends_ : Extends start gc.toObjects (gc.toObjects.atPut address new) := .atPut seen
  refine ⟨extends_, rfl, rfl, rfl, ⟨[], rfl, fun other => ?_⟩,
    List.Forall₂.imp fun _ _ => extends_.resolved⟩
  simp only [List.not_mem_nil, false_iff]
  rintro ⟨object, _, fresh, now, _⟩
  have marked := (@current_atPut start gc.toObjects address new seen object).1
  rw [fresh] at marked
  exact Bool.false_ne_true (marked.symm.trans now)

end Grows

section Scan

variable {reached : Nat → Prop} {held : List Nat} {gc gc' gc'' : G1GC}

theorem Grows.congr (grows : Grows start gc gc') (objects : gc''.toObjects = gc'.toObjects)
    (unchecked : gc''._uncheckedEphemerons = gc'._uncheckedEphemerons)
    (unreached : gc''._unreachedEphemerons = gc'._unreachedEphemerons)
    (rescued : gc''._rescuedEphemerons = gc'._rescuedEphemerons)
    (live : gc''._liveEphemerons = gc'._liveEphemerons) (context : gc''.context = gc'.context) :
    Grows start gc gc'' := by
  obtain ⟨⟩ := gc'
  obtain ⟨⟩ := gc''
  simp only at objects unchecked unreached rescued live context
  subst objects unchecked unreached rescued live context
  exact ⟨grows.1, grows.2, grows.3, grows.4, grows.5, grows.6⟩

/-- Behaviors and slots are scanned alike. -/
theorem scanIndex_eq (gc : G1GC) (runtime : Runtime) : gc.scanIndex runtime =
    match (gc.heap gc._scanned).word gc._index with
    | .immediate _ => gc.scanNext
    | .object address =>
      let resolved := gc.resolveObject runtime address
      let stored := resolved.1.atPut gc._scanned
        ((resolved.1.heap gc._scanned).wordPut (.object resolved.2) gc._index)
      if (gc.heap address).hasBeenSeen then stored.scanNext else stored.scanInside resolved.2 := by
  unfold G1GC.scanIndex
  cases position : gc._index with
  | zero =>
    rw [if_pos rfl]
    unfold G1GC.scanBehavior
    cases word : (gc.heap gc._scanned).behavior with
    | immediate value => simp only [HeapObject.word, word]
    | object address =>
      simp only [HeapObject.word, word]
      rfl
  | succ index =>
    rw [if_neg (Nat.succ_ne_zero index)]
    unfold G1GC.scanSlot
    rw [position]
    cases word : (gc.heap gc._scanned).slotAt (index + 1) with
    | immediate value => simp only [HeapObject.word, word]
    | object address =>
      simp only [HeapObject.word, word]
      rfl

/-- The word an entry scans, against what it was at the start. -/
theorem Keeps.cases {objects : Objects} {original object : HeapObject}
    (keeps : Keeps start objects original object) (index : Nat) :
    (∃ value, original.word index = .immediate value ∧ object.word index = .immediate value) ∨
      ∃ target address, original.word index = .object target ∧
        object.word index = .object address ∧ (address = target ∨
          (objects.heap target).hasBeenSeen = true ∧ address = current start objects target) := by
  have stands := keeps.word index
  cases word : original.word index with
  | immediate value =>
    left
    rw [word] at stands
    exact ⟨value, rfl, stands.elim id id⟩
  | object target =>
    right
    rw [word] at stands
    rcases stands with same | ⟨seen, same⟩
    · exact ⟨target, target, rfl, same, Or.inl rfl⟩
    · exact ⟨target, _, rfl, same, Or.inr ⟨seen, rfl⟩⟩

/-- The entry in the registers has one word less to scan. -/
theorem Marking.advance {object index limit : Nat} {work : List (Nat × Nat × Nat)}
    (marking : Marking start reached held gc
      ((current start gc.toObjects object, index, limit) :: work))
    (inside : object < start.count)
    (resolved : Resolved start gc.toObjects ((start.heap object).word index)
      ((gc.heap (current start gc.toObjects object)).word index)) :
    Marking start reached held gc
      ((current start gc.toObjects object, index + 1, limit) :: work) := by
  refine marking.rework ?_ ?_
  · intro entry member
    rcases List.mem_cons.mp member with rfl | old
    · exact ⟨_, List.mem_cons_self .., rfl, Nat.le_succ index, Nat.le_refl _⟩
    · exact ⟨entry, List.mem_cons_of_mem _ old, rfl, Nat.le_refl _, Nat.le_refl _⟩
  · rintro other inside' _ waits ⟨entry, member, here, low, high⟩
    rcases List.mem_cons.mp member with rfl | old
    · obtain rfl := marking.heaped.current_injective inside inside' here
      rcases Nat.eq_or_lt_of_le low with same | less
      · subst same
        exact Or.inl resolved
      · exact Or.inr ⟨_, List.mem_cons_self .., rfl, less, high⟩
    · exact Or.inr ⟨entry, List.mem_cons_of_mem _ old, here, low, high⟩

/-- An entry that has nothing left is dropped. -/
theorem Marking.drop {address index limit : Nat} {work : List (Nat × Nat × Nat)}
    (marking : Marking start reached held gc ((address, index, limit) :: work)) (done : limit < index) :
    Marking start reached held gc work := by
  refine marking.rework ?_ ?_
  · intro entry member
    exact ⟨entry, List.mem_cons_of_mem _ member, rfl, Nat.le_refl _, Nat.le_refl _⟩
  · rintro other _ _ waits ⟨entry, member, here, low, high⟩
    rcases List.mem_cons.mp member with rfl | old
    · simp only at low high
      omega
    · exact Or.inr ⟨entry, old, here, low, high⟩

theorem Marking.swap {first second : Nat × Nat × Nat} {work : List (Nat × Nat × Nat)}
    (marking : Marking start reached held gc (first :: second :: work)) :
    Marking start reached held gc (second :: first :: work) := by
  refine marking.rework ?_ ?_
  · intro entry member
    exact ⟨entry, (List.Perm.swap ..).subset member, rfl, Nat.le_refl _, Nat.le_refl _⟩
  · rintro other _ _ waits ⟨entry, member, pending⟩
    exact Or.inr ⟨entry, (List.Perm.swap ..).subset member, pending⟩

/-- The work while an entry is in the registers. -/
def G1GC.work (gc : G1GC) : List (Nat × Nat × Nat) :=
  (gc._scanned, gc._index, gc._limit) :: gc._stack

/-- One step of the tracer: it keeps the invariant, and reaches an object or moves on. -/
structure Scans (start : Start) (gc gc' : G1GC) : Prop where
  grows : Grows start gc gc'
  moves : Moves start gc gc' (gc'._stack = gc._stack ∧ gc'._stacks = gc._stacks ∧
    gc'._limit = gc._limit ∧ gc'._index = gc._index + 1)

theorem scanInside_eq (gc : G1GC) (object : Nat) : gc.scanInside object =
    { gc with
      _stack := if gc._index < gc._limit then
        (gc._scanned, gc._index + 1, gc._limit) :: gc._stack else gc._stack
      _index := 0
      _limit := (gc.heap object).strongPointersSize
      _scanned := object } := by
  unfold G1GC.scanInside
  split <;> rfl

theorem Keeps.strongPointersSize {objects : Objects} {original object : HeapObject}
    (keeps : Keeps start objects original object) :
    object.strongPointersSize = original.strongPointersSize := by
  rw [HeapObject.strongPointersSize, HeapObject.strongPointersSize, keeps.special, keeps.size]

/-- A word of an object and what storing the current address of its referent leaves. -/
structure Stores (start : Start) (object index : Nat) (gc gc' : G1GC) : Prop where
  grows : Grows start gc gc'
  here : ∀ other, current start gc'.toObjects other = current start gc.toObjects other
  resolved : Resolved start gc'.toObjects ((start.heap object).word index)
    ((gc'.heap (current start gc'.toObjects object)).word index)

theorem Marking.store {work : List (Nat × Nat × Nat)} {object index target : Nat}
    (marking : Marking start reached held gc work) (inside : object < start.count)
    (seen : (gc.heap object).hasBeenSeen = true) (low : index ≤ (start.heap object).size)
    (word : (start.heap object).word index = .object target)
    (marked : (gc.heap target).hasBeenSeen = true) :
    let gc' := gc.atPut (current start gc.toObjects object)
      ((gc.heap (current start gc.toObjects object)).wordPut
        (.object (current start gc.toObjects target)) index)
    Marking start reached held gc' work ∧ Stores start object index gc gc' := by
  have keeps := marking.heaped.kept object inside seen
  have improves : Improves start gc.toObjects (start.heap object) _ _ :=
    .wordPut keeps low (by rw [word]; exact ⟨marked, rfl⟩)
  have same := @current_atPut start _ _ _ improves.seen
  refine ⟨marking.atPut inside seen improves, Grows.atPut improves.seen,
    fun other => (same other).2, ?_⟩
  have put : ∀ new, (gc.atPut (current start gc.toObjects object) new).heap
      (current start gc.toObjects object) = new := fun new => Function.update_self ..
  have there : ∀ other, current start (gc.atPut (current start gc.toObjects object)
      ((gc.heap (current start gc.toObjects object)).wordPut
        (.object (current start gc.toObjects target)) index)).toObjects other =
      current start gc.toObjects other := fun other => (same other).2
  rw [there, word, put, HeapObject.word_wordPut (keeps.size ▸ low), if_pos rfl]
  exact ⟨(same target).1.trans marked, by rw [there]⟩

theorem Marking.scanIndex (closed : start.Closed reached)
    (marking : Marking start reached held gc gc.work) (low : gc._index ≤ gc._limit) :
    Marking start reached held (gc.scanIndex start.runtime) (gc.scanIndex start.runtime).work ∧
      Scans start gc (gc.scanIndex start.runtime) := by
  obtain ⟨object, inside, seen, here, short, allowed⟩ :=
    marking.entries _ (List.mem_cons_self ..)
  simp only at here short allowed
  have keeps := marking.heaped.kept object inside seen
  have high : gc._index ≤ (start.heap object).size := Nat.le_trans low short
  have work : gc.work = (current start gc.toObjects object, gc._index, gc._limit) :: gc._stack := by
    rw [← here]
    rfl
  rw [work] at marking
  rw [scanIndex_eq]
  rcases keeps.cases gc._index with ⟨value, was, is⟩ | ⟨target, address, was, is, stands⟩
  · have scanned : (gc.heap gc._scanned).word gc._index = .immediate value := by rw [here, is]
    simp only [scanned]
    refine ⟨?_, .congr (.refl gc) rfl rfl rfl rfl rfl rfl, Or.inr ⟨rfl, rfl, rfl, rfl⟩⟩
    have advanced := marking.advance inside (by rw [was, is]; rfl)
    rw [← here] at advanced
    exact advanced.congr rfl rfl rfl rfl rfl
  · have scanned : (gc.heap gc._scanned).word gc._index = .object address := by rw [here, is]
    have inside' := start.closed object inside gc._index target was
    simp only [scanned]
    cases seen' : (gc.heap target).hasBeenSeen with
    | true =>
      obtain ⟨marked, resolved⟩ := marking.heaped.resolve_seen inside' seen'
        (stands.imp id And.right)
      obtain ⟨kept, stores⟩ := marking.store inside seen high was seen'
      simp only [← here] at kept stores
      simp only [resolved, marked, if_true]
      refine ⟨?_, stores.grows.congr rfl rfl rfl rfl rfl rfl, Or.inr ⟨rfl, rfl, rfl, rfl⟩⟩
      have advanced := Marking.advance (by rw [stores.here, ← here]; exact kept) inside
        stores.resolved
      rw [stores.here, ← here] at advanced
      exact advanced.congr rfl rfl rfl rfl rfl
    | false =>
      have same : address = target := by
        rcases stands with same | ⟨seen, _⟩
        · exact same
        · rw [seen'] at seen
          cases seen
      subst same
      obtain ⟨found, resolved, reaches⟩ := marking.heaped.resolve_unseen inside' seen'
      simp only [resolved, seen', Bool.false_eq_true, if_false]
      have extends_ := reaches.puts.extends_
      have reachedMarking := marking.reach closed (allowed gc._index address (Nat.le_refl _) low was)
        reaches
      have there := extends_.current object seen
      have marked := (reaches.puts.seen_iff inside').mpr (Or.inr rfl)
      obtain ⟨kept, stores⟩ := reachedMarking.store inside (extends_.seen object seen) high was marked
      simp only [there, ← here] at kept stores
      generalize stored : found.atPut gc._scanned ((found.heap gc._scanned).wordPut
        (.object (current start found.toObjects address)) gc._index) = gc' at kept stores
      have entry : (gc'.heap (current start found.toObjects address)).strongPointersSize =
          (start.heap address).strongPointersSize := by
        have held := kept.heaped.kept address inside' (stores.grows.extends_.seen address marked)
        rw [stores.here] at held
        exact held.strongPointersSize
      have less : (unseen start gc'.toObjects).card < (unseen start gc.toObjects).card :=
        Nat.lt_of_le_of_lt stores.grows.extends_.unseen_le reaches.unseen_lt
      have registers : gc'._scanned = gc._scanned ∧ gc'._index = gc._index ∧
          gc'._limit = gc._limit ∧ gc'._stack = gc._stack := by
        rw [← stored, reaches.frame]
        exact ⟨rfl, rfl, rfl, rfl⟩
      obtain ⟨scanned', index', limit', stack'⟩ := registers
      rw [scanInside_eq]
      refine ⟨?_, (reaches.grows.trans stores.grows).congr rfl rfl rfl rfl rfl rfl, Or.inl less⟩
      have advanced := Marking.advance (by rw [stores.here, there, ← here]; exact kept.swap) inside
        stores.resolved
      rw [stores.here, there, ← here] at advanced
      simp only [G1GC.work, entry, scanned', index', limit', stack']
      split
      · exact advanced.swap.congr rfl rfl rfl rfl rfl
      · next last => exact (advanced.drop (by omega)).congr rfl rfl rfl rfl rfl

end Scan

end Egg.Tracing
