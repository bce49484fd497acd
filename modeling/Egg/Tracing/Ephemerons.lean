import Egg.Tracing.Closure

/-! Ephemerons: the live ones are followed to a fixpoint, then those left over are rescued. -/
namespace Egg.Tracing

open Egg.Data

variable {start : Start} {reached : Nat → Prop} {held : List Nat} {gc gc' gc'' : G1GC}

/-- The key of an ephemeron is an immediate, or was reached. -/
def Keyed (start : Start) (objects : Objects) (object : Nat) : Prop :=
  ∀ key, (start.heap object).slotAt 1 = .object key → (objects.heap key).hasBeenSeen = true

theorem Keyed.extend {objects objects' : Objects} (extends_ : Extends start objects objects')
    {object : Nat} (keyed : Keyed start objects object) : Keyed start objects' object :=
  fun key slot => extends_.seen key (keyed key slot)

theorem Heaped.checkReachableProperty_iff (heaped : Heaped start gc.toObjects) {object : Nat}
    (inside : object < start.count) (seen : (gc.heap object).hasBeenSeen = true) :
    gc.checkReachableProperty (current start gc.toObjects object) = true ↔
      Keyed start gc.toObjects object := by
  rcases (heaped.kept object inside seen).cases 1 with ⟨value, was, is⟩ | ⟨key, address, was, is, stands⟩
  · have was' : (start.heap object).slotAt 1 = .immediate value := was
    have is' : (gc.heap (current start gc.toObjects object)).slotAt 1 = .immediate value := is
    simp [G1GC.checkReachableProperty, Keyed, was', is']
  · have was' : (start.heap object).slotAt 1 = .object key := was
    have is' : (gc.heap (current start gc.toObjects object)).slotAt 1 = .object address := is
    have below := start.closed object inside 1 key was
    simp only [G1GC.checkReachableProperty, Keyed, was', is', Reference.object.injEq, forall_eq']
    rcases stands with rfl | ⟨marked, rfl⟩
    · exact Iff.rfl
    · exact ⟨fun _ => marked, fun _ => heaped.marked key below marked⟩

/-- The ephemerons that were reached are at these addresses, each at one of them. -/
structure Lists (start : Start) (objects : Objects) (addresses : List Nat) : Prop where
  nodup : addresses.Nodup
  mem_iff : ∀ address, address ∈ addresses ↔ ∃ object < start.count,
    (objects.heap object).hasBeenSeen = true ∧ start.IsEphemeron object ∧
      address = current start objects object

theorem Lists.perm {objects : Objects} {addresses addresses' : List Nat}
    (lists : Lists start objects addresses) (same : addresses'.Perm addresses) :
    Lists start objects addresses' where
  nodup := same.nodup_iff.mpr lists.nodup
  mem_iff address := same.mem_iff.trans (lists.mem_iff address)

/-- The ephemerons that tracing finds are listed when they are reached. -/
theorem Lists.grows {others : List Nat}
    (lists : Lists start gc.toObjects (gc._uncheckedEphemerons ++ others))
    (grows : Grows start gc gc') (heaped : Heaped start gc'.toObjects)
    (nodup : gc'._uncheckedEphemerons.Nodup) :
    Lists start gc'.toObjects (gc'._uncheckedEphemerons ++ others) := by
  obtain ⟨new, listed, found⟩ := grows.unchecked
  have extends_ := grows.extends_
  rw [listed] at nodup ⊢
  rw [List.append_assoc]
  constructor
  · refine List.nodup_append.mpr ⟨(List.nodup_append.mp nodup).1, lists.nodup, ?_⟩
    rintro address fresh _ old rfl
    obtain ⟨object, inside, unseen, seen, _, here⟩ := (found address).mp fresh
    obtain ⟨other, inside', seen', _, there⟩ := (lists.mem_iff address).mp old
    rw [here, ← extends_.current other seen'] at there
    rw [heaped.current_injective inside inside' there, seen'] at unseen
    cases unseen
  · intro address
    rw [List.mem_append, found, lists.mem_iff]
    constructor
    · rintro (⟨object, inside, _, seen, kind, here⟩ | ⟨object, inside, seen, kind, here⟩)
      · exact ⟨object, inside, seen, kind, here⟩
      · exact ⟨object, inside, extends_.seen object seen, kind,
          by rw [here, extends_.current object seen]⟩
    · rintro ⟨object, inside, seen, kind, here⟩
      cases before : (gc.heap object).hasBeenSeen with
      | false => exact Or.inl ⟨object, inside, before, seen, kind, here⟩
      | true => exact Or.inr ⟨object, inside, before, kind,
          by rw [here, extends_.current object before]⟩

/-- When nothing was reached, no ephemeron was. -/
theorem Grows.moves (grows : Grows start gc gc') :
    Moves start gc gc' (gc'._uncheckedEphemerons = gc._uncheckedEphemerons) := by
  rcases Nat.lt_or_eq_of_le grows.extends_.unseen_le with less | same
  · exact Or.inl less
  · right
    obtain ⟨new, listed, found⟩ := grows.unchecked
    have nothing : new = [] := by
      refine List.eq_nil_iff_forall_not_mem.mpr fun address member => ?_
      obtain ⟨object, inside, unseen', seen, _⟩ := (found address).mp member
      have equal := Finset.eq_of_subset_of_card_le grows.extends_.unseen_subset (Nat.le_of_eq same.symm)
      have left : object ∈ unseen start gc.toObjects :=
        Finset.mem_filter.mpr ⟨Finset.mem_range.mpr inside, unseen'⟩
      rw [← equal] at left
      rw [(Finset.mem_filter.mp left).2] at seen
      cases seen
    rw [listed, nothing, List.nil_append]

/-- Nothing is left to scan. -/
structure Ready (start : Start) (reached : Nat → Prop) (held : List Nat) (gc : G1GC) : Prop where
  marking : Marking start reached held gc []
  stack : gc._stack = []
  suspended : gc._stacks = []
  context : List.Forall₂ (Resolved start gc.toObjects) start.context gc.context

/-- An ephemeron that waited to be checked is held back. -/
theorem Ready.take {address : Nat} {rest : List Nat} (ready : Ready start reached held gc)
    (unchecked : gc._uncheckedEphemerons = address :: rest) :
    Ready start reached (address :: held) { gc with _uncheckedEphemerons := rest } := by
  have subset : rest ⊆ gc._uncheckedEphemerons := unchecked ▸ List.subset_cons_self _ _
  refine ⟨ready.marking.regroup rfl rfl rfl (List.Subset.refl _)
    (fun other member => ready.marking.waiting other (subset member)) ?_ ?_, ready.stack,
    ready.suspended, ready.context⟩
  · have nodup := ready.marking.nodup
    rw [unchecked] at nodup
    exact (List.nodup_cons.mp nodup).2
  · intro object inside seen now before
    refine absurd (now.imp (And.imp id fun outside member => outside (List.mem_cons_of_mem _ member))
      (And.imp id fun outside member => outside ?_)) before
    rw [unchecked] at member
    exact List.perm_middle.subset member

/-- The slots of an ephemeron are followed, and all that they lead to. -/
theorem Ready.followEphemeronWeaks (closed : start.Closed reached) (rooted : Rooted start reached)
    {object address : Nat} (ready : Ready start reached (address :: held) gc)
    (inside : object < start.count) (seen : (gc.heap object).hasBeenSeen = true)
    (kind : start.IsEphemeron object) (here : address = current start gc.toObjects object)
    (allowed : ∀ index target, (start.heap object).word index = .object target → reached target) :
    ∃ gc', Converges (fun fuel => gc.followEphemeronWeaks start.runtime fuel address) gc' ∧
      Ready start reached held gc' ∧ Grows start gc gc' := by
  subst here
  have size : (gc.heap (current start gc.toObjects object)).size = (start.heap object).size :=
    (ready.marking.heaped.kept object inside seen).size
  let entry := (current start gc.toObjects object, 1,
    (gc.heap (current start gc.toObjects object)).size)
  have valid : Entry start reached gc.toObjects entry :=
    ⟨object, inside, seen, rfl, Nat.le_of_eq size, fun index target _ _ => allowed index target⟩
  have pushed := (ready.marking.push valid).release inside
    ⟨fun index positive low => Or.inr ⟨entry, List.mem_cons_self .., rfl, positive,
      Nat.le_trans low (Nat.le_of_eq size.symm)⟩,
      fun processStack => absurd processStack (Start.not_both kind)⟩
  let queued := gc.scan_from_to (current start gc.toObjects object) 1
    (gc.heap (current start gc.toObjects object)).size
  have stack : queued._stack = [entry] := congrArg (entry :: ·) ready.stack
  have starts : Marking start reached held queued queued._stack := by
    rw [stack]
    exact pushed.congr rfl rfl rfl rfl rfl
  obtain ⟨gc', runs, done⟩ := starts.followClosure closed rooted
  have grown : Grows start gc queued := .congr (.refl gc) rfl rfl rfl rfl rfl rfl
  have grows := grown.trans done.grows
  exact ⟨gc', runs, ⟨done.marking, done.stack, done.suspended, grows.context ready.context⟩, grows⟩

/-- The ephemerons that were reached, by what has been found about them. -/
def G1GC.ephemerons (gc : G1GC) : List Nat :=
  gc._uncheckedEphemerons ++ (gc._unreachedEphemerons ++ (gc._liveEphemerons ++ gc._rescuedEphemerons))

/-- Those not found live nor rescued. -/
def G1GC.waits (gc : G1GC) : Nat := gc._uncheckedEphemerons.length + gc._unreachedEphemerons.length

/-- Ephemerons that were found unreached had keys that were not reached. -/
def Unkeyed (start : Start) (gc : G1GC) : Prop :=
  ∀ address ∈ gc._unreachedEphemerons, ∃ object < start.count,
    (gc.heap object).hasBeenSeen = true ∧ start.IsEphemeron object ∧
      ¬ Keyed start gc.toObjects object ∧ address = current start gc.toObjects object

/-- Ephemerons have been checked, as far as this has got. -/
structure Checks (start : Start) (reached : Nat → Prop) (gc gc' : G1GC) : Prop where
  ready : Ready start reached gc'._unreachedEphemerons gc'
  lists : Lists start gc'.toObjects gc'.ephemerons
  extends_ : Extends start gc.toObjects gc'.toObjects
  rescued : gc'._rescuedEphemerons = gc._rescuedEphemerons
  liveKept : gc._liveEphemerons ⊆ gc'._liveEphemerons
  live : ∀ address ∈ gc'._liveEphemerons, address ∈ gc._liveEphemerons ∨ ∃ object < start.count,
    (gc'.heap object).hasBeenSeen = true ∧ start.IsEphemeron object ∧
      Keyed start gc'.toObjects object ∧ address = current start gc'.toObjects object

/-- When none was live, those that were checked had keys that were not reached. -/
structure Checked (start : Start) (reached : Nat → Prop) (gc : G1GC) (done : Bool) (gc' : G1GC) :
    Prop extends Checks start reached gc gc' where
  left : done = true → Unkeyed start gc'
  moves : Moves start gc gc' (gc'.waits + (if done then 0 else 1) ≤ gc.waits)

theorem Ready.congr (ready : Ready start reached held gc) (objects : gc'.toObjects = gc.toObjects)
    (stack : gc'._stack = gc._stack) (suspended : gc'._stacks = gc._stacks)
    (unchecked : gc'._uncheckedEphemerons = gc._uncheckedEphemerons)
    (context : gc'.context = gc.context) (gcedRefs : gc'.gcedRefs = gc.gcedRefs) :
    Ready start reached held gc' where
  marking := ready.marking.congr objects suspended unchecked context gcedRefs
  stack := stack.trans ready.stack
  suspended := suspended.trans ready.suspended
  context := by
    rw [context, objects]
    exact ready.context

/-- The contents of an ephemeron may be reached once the ephemeron and its key are. -/
theorem Marking.contents {work : List (Nat × Nat × Nat)} (closed : start.Closed reached)
    (marking : Marking start reached held gc work) {object : Nat} (inside : object < start.count)
    (seen : (gc.heap object).hasBeenSeen = true) (kind : start.IsEphemeron object)
    (keyed : Keyed start gc.toObjects object) (index target : Nat)
    (word : (start.heap object).word index = .object target) : reached target := by
  refine closed.ephemeron object index target inside (marking.bounded object inside seen) kind ?_ word
  intro key slot
  exact marking.bounded key (start.closed object inside 1 key slot) (keyed key slot)

/-- A live ephemeron is followed. -/
theorem Checked.live_step (closed : start.Closed reached) (rooted : Rooted start reached) {done : Bool}
    (checks : Checked start reached gc done gc') {object : Nat} {rest : List Nat}
    (inside : object < start.count) (seen : (gc'.heap object).hasBeenSeen = true)
    (kind : start.IsEphemeron object)
    (unchecked : gc'._uncheckedEphemerons = current start gc'.toObjects object :: rest)
    (keyed : Keyed start gc'.toObjects object) :
    ∃ next, Converges (fun fuel => ({ gc' with
        _uncheckedEphemerons := rest
        _liveEphemerons := current start gc'.toObjects object :: gc'._liveEphemerons } :
        G1GC).followEphemeronWeaks start.runtime fuel (current start gc'.toObjects object)) next ∧
      Checked start reached gc false next ∧ Extends start gc'.toObjects next.toObjects ∧
      Moves start gc' next (next._uncheckedEphemerons = rest) := by
  let live : G1GC := { gc' with
    _uncheckedEphemerons := rest
    _liveEphemerons := current start gc'.toObjects object :: gc'._liveEphemerons }
  have ready : Ready start reached (current start gc'.toObjects object :: gc'._unreachedEphemerons)
      live := (checks.ready.take unchecked).congr rfl rfl rfl rfl rfl rfl
  obtain ⟨next, runs, ready', grows⟩ := ready.followEphemeronWeaks closed rooted inside seen kind rfl
    (checks.ready.marking.contents closed inside seen kind keyed)
  have extends_ : Extends start gc'.toObjects next.toObjects := grows.extends_
  have unreached : next._unreachedEphemerons = gc'._unreachedEphemerons := grows.unreached
  have found : next._liveEphemerons =
      current start gc'.toObjects object :: gc'._liveEphemerons := grows.live
  have rescued : next._rescuedEphemerons = gc'._rescuedEphemerons := grows.rescued
  have moves : Moves start gc' next (next._uncheckedEphemerons = rest) := grows.moves
  refine ⟨next, runs, ⟨⟨?_, ?_, checks.extends_.trans extends_, rescued.trans checks.rescued, ?_, ?_⟩,
    fun never => absurd never Bool.false_ne_true, ?_⟩, extends_,
    moves⟩
  · rw [unreached]
    exact ready'
  · have lists : Lists start live.toObjects live.ephemerons := by
      refine checks.lists.perm ?_
      simp only [G1GC.ephemerons, live, unchecked, List.cons_append]
      exact (List.perm_middle.append_left rest).trans List.perm_middle
    have listed := Lists.grows lists grows ready'.marking.heaped ready'.marking.nodup
    rw [← grows.unreached, ← grows.live, ← grows.rescued] at listed
    exact listed
  · rw [found]
    exact List.subset_cons_of_subset _ checks.liveKept
  · intro address member
    rw [found] at member
    rcases List.mem_cons.mp member with rfl | old
    · exact Or.inr ⟨object, inside, extends_.seen object seen, kind, keyed.extend extends_,
        (extends_.current object seen).symm⟩
    · refine (checks.live address old).imp id ?_
      rintro ⟨other, inside', seen', kind', keyed', here⟩
      exact ⟨other, inside', extends_.seen other seen', kind', keyed'.extend extends_,
        by rw [here, extends_.current other seen']⟩
  · refine .trans checks.extends_ extends_ checks.moves moves fun before after => ?_
    simp only [G1GC.waits, unreached, after] at before ⊢
    rw [unchecked, List.length_cons] at before
    simp only [Bool.false_eq_true, if_false]
    omega

/-- An ephemeron whose key was not reached is put aside. -/
theorem Checked.unreached_step {done : Bool} (checks : Checked start reached gc done gc') {object : Nat}
    {rest : List Nat} (inside : object < start.count)
    (seen : (gc'.heap object).hasBeenSeen = true) (kind : start.IsEphemeron object)
    (unchecked : gc'._uncheckedEphemerons = current start gc'.toObjects object :: rest)
    (unkeyed : ¬ Keyed start gc'.toObjects object) :
    Checked start reached gc done { gc' with
      _uncheckedEphemerons := rest
      _unreachedEphemerons := current start gc'.toObjects object :: gc'._unreachedEphemerons } := by
  refine ⟨⟨(checks.ready.take unchecked).congr rfl rfl rfl rfl rfl rfl, ?_, checks.extends_,
    checks.rescued, checks.liveKept, checks.live⟩, fun none address member => ?_, ?_⟩
  · refine checks.lists.perm ?_
    simp only [G1GC.ephemerons, unchecked, List.cons_append]
    exact List.perm_middle
  · rcases List.mem_cons.mp member with rfl | old
    · exact ⟨object, inside, seen, kind, unkeyed, rfl⟩
    · exact checks.left none address old
  · refine checks.moves.imp id fun before => ?_
    simp only [G1GC.waits, unchecked, List.length_cons] at before ⊢
    omega

/-- One more ephemeron is checked. -/
theorem Checked.checkLast (closed : start.Closed reached) (rooted : Rooted start reached)
    {done : Bool} (checks : Checked start reached gc done gc')
    (going : gc'._uncheckedEphemerons ≠ []) :
    ∃ done' next, Converges (fun fuel => gc'.checkLast start.runtime fuel done) (done', next) ∧
      Checked start reached gc done' next ∧
      toLex ((unseen start next.toObjects).card, next._uncheckedEphemerons.length) <
        toLex ((unseen start gc'.toObjects).card, gc'._uncheckedEphemerons.length) := by
  obtain ⟨ephemeron, rest, unchecked⟩ := List.exists_cons_of_ne_nil going
  obtain ⟨object, inside, seen, kind, rfl⟩ :=
    checks.ready.marking.waiting ephemeron (by rw [unchecked]; exact List.mem_cons_self)
  have reachable : ({ gc' with _uncheckedEphemerons := rest } : G1GC).checkReachableProperty
      (current start gc'.toObjects object) = true ↔ Keyed start gc'.toObjects object :=
    checks.ready.marking.heaped.checkReachableProperty_iff inside seen
  have less : rest.length < gc'._uncheckedEphemerons.length := by
    rw [unchecked]
    exact Nat.lt_succ_self _
  by_cases keyed : Keyed start gc'.toObjects object
  · obtain ⟨next, runs, checks', extends_, moves⟩ :=
      checks.live_step closed rooted inside seen kind unchecked keyed
    refine ⟨false, next, ?_, checks', ?_⟩
    · simp only [G1GC.checkLast, unchecked, reachable.mpr keyed, if_true]
      exact runs.map _
    · refine Moves.lex_lt extends_ moves fun same => ?_
      rw [same]
      exact less
  · refine ⟨done, _, ?_, checks.unreached_step inside seen kind unchecked keyed, ?_⟩
    · simp only [G1GC.checkLast, unchecked, if_neg (mt reachable.mp keyed)]
      exact .pure _
    · rw [Prod.Lex.toLex_lt_toLex]
      exact Or.inr ⟨rfl, less⟩

theorem Ready.checkEphemerons (closed : start.Closed reached) (rooted : Rooted start reached)
    (ready : Ready start reached [] gc) (none : gc._unreachedEphemerons = [])
    (lists : Lists start gc.toObjects gc.ephemerons) :
    ∃ done gc', Converges (fun fuel => gc.checkEphemerons start.runtime fuel) (done, gc') ∧
      Checked start reached gc done gc' ∧ gc'._uncheckedEphemerons = [] := by
  have starts : Checked start reached gc true gc := by
    refine ⟨⟨none ▸ ready, lists, .refl _, rfl, List.Subset.refl _, fun _ => Or.inl⟩,
      fun _ address member => ?_, Or.inr (Nat.le_refl _)⟩
    rw [none] at member
    cases member
  have step : ∀ state : Bool × G1GC, Checked start reached gc state.1 state.2 →
      state.2._uncheckedEphemerons.isEmpty = false →
      ∃ next : Bool × G1GC,
        Converges (fun fuel => state.2.checkLast start.runtime fuel state.1) next ∧
        Checked start reached gc next.1 next.2 ∧
        toLex ((unseen start next.2.toObjects).card, next.2._uncheckedEphemerons.length) <
          toLex ((unseen start state.2.toObjects).card, state.2._uncheckedEphemerons.length) := by
    intro state checks going
    obtain ⟨done, next, rest⟩ :=
      checks.checkLast closed rooted (List.isEmpty_eq_false_iff.mp going)
    exact ⟨(done, next), rest⟩
  obtain ⟨⟨done, gc'⟩, runs, checks, empty⟩ := @Converges.loop_of_measure _ _ _ _
    (fun state : Bool × G1GC => state.2._uncheckedEphemerons.isEmpty) _
    (fun state : Bool × G1GC =>
      toLex ((unseen start state.2.toObjects).card, state.2._uncheckedEphemerons.length)) _ step
    (true, gc) starts
  exact ⟨done, gc', runs, checks, List.isEmpty_iff.mp empty⟩

theorem Checks.trans (first : Checks start reached gc gc') (second : Checks start reached gc' gc'') :
    Checks start reached gc gc'' where
  ready := second.ready
  lists := second.lists
  extends_ := first.extends_.trans second.extends_
  rescued := second.rescued.trans first.rescued
  liveKept := List.Subset.trans first.liveKept second.liveKept
  live := by
    intro address member
    rcases second.live address member with old | new
    · refine (first.live address old).imp id ?_
      rintro ⟨object, inside, seen, kind, keyed, here⟩
      exact ⟨object, inside, second.extends_.seen object seen, kind, keyed.extend second.extends_,
        by rw [here, second.extends_.current object seen]⟩
    · exact Or.inr new

/-- No suspended stack is listed with the ephemerons. -/
theorem Lists.not_mem {objects : Objects} {addresses : List Nat}
    (lists : Lists start objects addresses) (heaped : Heaped start objects) {object : Nat}
    (inside : object < start.count) (kind : start.IsProcessStack object) :
    current start objects object ∉ addresses := by
  intro member
  obtain ⟨other, inside', _, kind', here⟩ := (lists.mem_iff _).mp member
  rw [← heaped.current_injective inside inside' here] at kind'
  exact Start.not_both kind' kind

theorem Checks.swap (checks : Checks start reached gc gc') (none : gc'._uncheckedEphemerons = []) :
    Checks start reached gc gc'.swapUncheckedWithUnreached := by
  have subset : gc'._unreachedEphemerons ⊆ gc'.ephemerons := by
    simp only [G1GC.ephemerons, none, List.nil_append]
    exact List.subset_append_left ..
  have lists := checks.lists
  have listed : Lists start gc'.toObjects gc'.swapUncheckedWithUnreached.ephemerons := by
    refine lists.perm ?_
    simp only [G1GC.ephemerons, G1GC.swapUncheckedWithUnreached, none, List.nil_append]
    exact .refl _
  refine ⟨⟨?_, checks.ready.stack, checks.ready.suspended, checks.ready.context⟩, listed, checks.extends_,
    checks.rescued, checks.liveKept, checks.live⟩
  refine checks.ready.marking.regroup rfl rfl rfl (List.Subset.refl _) ?_ ?_ ?_
  · intro address member
    exact (lists.mem_iff address).mp (subset member)
  · exact (List.nodup_append.mp listed.nodup).1
  · intro object inside seen now before
    rcases now with ⟨kind, _⟩ | ⟨kind, outside⟩
    · refine absurd (Or.inl ⟨kind, fun member => ?_⟩) before
      rw [checks.ready.suspended, List.append_nil] at member
      exact lists.not_mem checks.ready.marking.heaped inside kind (subset member)
    · refine absurd (Or.inr ⟨kind, fun member => ?_⟩) before
      rw [none, List.append_nil] at member
      exact outside (List.mem_append_right _ member)

/-- What following the live ephemerons comes to. -/
structure Settled (start : Start) (reached : Nat → Prop) (gc gc' : G1GC) : Prop
    extends Checks start reached gc gc' where
  unchecked : gc'._uncheckedEphemerons = []
  left : Unkeyed start gc'
  moves : Moves start gc gc' (gc'.waits ≤ gc.waits)

/-- Rounds of checks, the last of which found none live. -/
structure Rounds (start : Start) (reached : Nat → Prop) (gc : G1GC) (done : Bool) (gc' : G1GC) :
    Prop extends Checks start reached gc gc' where
  ended : done = true → gc'._uncheckedEphemerons = [] ∧ Unkeyed start gc'
  going : done = false → gc'._unreachedEphemerons = []
  moves : Moves start gc gc' (gc'.waits ≤ gc.waits)

theorem Rounds.next (closed : start.Closed reached) (rooted : Rooted start reached)
    (rounds : Rounds start reached gc false gc') :
    ∃ done next, Converges (fun fuel => (gc'.checkEphemerons start.runtime fuel).map
        fun (done, checked) =>
          if done then (true, checked) else (false, checked.swapUncheckedWithUnreached))
        (done, next) ∧
      Rounds start reached gc done next ∧
      toLex ((unseen start next.toObjects).card, next.waits + if done then 0 else 1) <
        toLex ((unseen start gc'.toObjects).card, gc'.waits + 1) := by
  have none := rounds.going rfl
  have ready := rounds.ready
  rw [none] at ready
  obtain ⟨done, next, runs, checks, empty⟩ := ready.checkEphemerons closed rooted none rounds.lists
  have ran := runs.map fun (done, checked) =>
    if done then (true, checked) else (false, checked.swapUncheckedWithUnreached)
  have both := rounds.toChecks.trans checks.toChecks
  have moves := checks.moves
  cases done with
  | true =>
    have kept : Moves start gc' next (next.waits ≤ gc'.waits) := moves
    refine ⟨true, next, ran, ⟨both, fun _ => ⟨empty, checks.left rfl⟩,
      fun never => absurd never.symm Bool.false_ne_true, ?_⟩, ?_⟩
    · exact .trans rounds.extends_ checks.extends_ rounds.moves kept fun early late =>
        Nat.le_trans late early
    · exact Moves.lex_lt checks.extends_ kept fun late => Nat.lt_succ_of_le late
  | false =>
    have fewer : Moves start gc' next (next.waits + 1 ≤ gc'.waits) := moves
    have waits : next.swapUncheckedWithUnreached.waits = next.waits := Nat.add_comm ..
    refine ⟨false, next.swapUncheckedWithUnreached, ran, ⟨both.swap empty,
      fun never => absurd never Bool.false_ne_true, fun _ => empty, ?_⟩, ?_⟩
    · rw [waits]
      exact .trans rounds.extends_ checks.extends_ rounds.moves fewer fun early late =>
        Nat.le_trans (Nat.le_of_succ_le late) early
    · rw [waits]
      exact Moves.lex_lt checks.extends_ fewer fun late => Nat.lt_succ_of_le late

theorem Ready.followLiveEphemerons (closed : start.Closed reached) (rooted : Rooted start reached)
    (ready : Ready start reached [] gc) (none : gc._unreachedEphemerons = [])
    (lists : Lists start gc.toObjects gc.ephemerons) :
    ∃ gc', Converges (fun fuel => gc.followLiveEphemerons start.runtime fuel) gc' ∧
      Settled start reached gc gc' := by
  have starts : Rounds start reached gc false gc :=
    ⟨⟨none ▸ ready, lists, .refl _, rfl, List.Subset.refl _, fun _ => Or.inl⟩,
      fun never => absurd never Bool.false_ne_true, fun _ => none, Or.inr (Nat.le_refl _)⟩
  have step : ∀ state : Bool × G1GC, Rounds start reached gc state.1 state.2 → state.1 = false →
      ∃ next : Bool × G1GC,
        Converges (fun fuel => (state.2.checkEphemerons start.runtime fuel).map
          fun (done, checked) =>
            if done then (true, checked) else (false, checked.swapUncheckedWithUnreached)) next ∧
        Rounds start reached gc next.1 next.2 ∧
        toLex ((unseen start next.2.toObjects).card, next.2.waits + if next.1 then 0 else 1) <
          toLex ((unseen start state.2.toObjects).card, state.2.waits + if state.1 then 0 else 1) := by
    rintro ⟨_, state⟩ rounds rfl
    obtain ⟨done, next, rest⟩ := rounds.next closed rooted
    exact ⟨(done, next), rest⟩
  obtain ⟨⟨done, gc'⟩, runs, rounds, ended⟩ := @Converges.loop_of_measure _ _ _ _ Prod.fst _
    (fun state : Bool × G1GC =>
      toLex ((unseen start state.2.toObjects).card, state.2.waits + if state.1 then 0 else 1)) _ step
    (false, gc) starts
  obtain ⟨empty, left⟩ := rounds.ended ended
  exact ⟨gc', runs.map Prod.snd, rounds.toChecks, empty, left, rounds.moves⟩

end Egg.Tracing
