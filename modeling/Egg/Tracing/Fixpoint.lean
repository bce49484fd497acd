import Egg.Tracing.Ephemerons

/-! The fixpoint of the ephemerons: what is reached, what is found live, and what is rescued. -/
namespace Egg.Tracing

open Egg.Data

variable {start : Start} {reached : Nat → Prop} {held : List Nat} {gc gc' gc'' : G1GC}

/-- An object of the start that was reached. -/
def Seen (start : Start) (objects : Objects) (object : Nat) : Prop :=
  object < start.count ∧ (objects.heap object).hasBeenSeen = true

/-- The bound on what may be reached only matters while work is left. -/
theorem Ready.rebound {reached' : Nat → Prop} (ready : Ready start reached held gc)
    (bounded : ∀ object, Seen start gc.toObjects object → reached' object) :
    Ready start reached' held gc := by
  have marking := ready.marking
  exact ⟨⟨marking.1, fun object inside seen => bounded object ⟨inside, seen⟩,
    fun _ member => absurd member List.not_mem_nil, marking.4, marking.5, marking.6, marking.7,
    marking.8, marking.9, marking.10⟩, ready.stack, ready.suspended, ready.context⟩

theorem Ready.reheld {held' : List Nat} (ready : Ready start reached held gc)
    (subset : held ⊆ held') : Ready start reached held' gc := by
  refine ⟨ready.marking.regroup rfl rfl rfl (List.Subset.refl _) ready.marking.waiting
    ready.marking.nodup ?_, ready.stack, ready.suspended, ready.context⟩
  intro object _ _ now before
  have more : ∀ others, held ++ others ⊆ held' ++ others := fun others =>
    List.append_subset.mpr ⟨List.subset_append_of_subset_left _ subset,
      List.subset_append_right ..⟩
  exact absurd (now.imp (And.imp_right fun outside member => outside (more _ member))
    (And.imp_right fun outside member => outside (more _ member))) before

/-- An ephemeron is rescued: its slots are followed although its key was not reached. -/
structure Rescues (start : Start) (gc : G1GC) (passed : List Nat) (gc' : G1GC) : Prop where
  ready : ∀ rest, gc._unreachedEphemerons.reverse = passed ++ rest →
    Ready start (· < start.count) rest gc'
  lists : Lists start gc'.toObjects (gc'._uncheckedEphemerons ++
    (gc._unreachedEphemerons ++ (gc._liveEphemerons ++ gc._rescuedEphemerons)))
  extends_ : Extends start gc.toObjects gc'.toObjects
  unreached : gc'._unreachedEphemerons = gc._unreachedEphemerons
  live : gc'._liveEphemerons = gc._liveEphemerons
  rescued : gc'._rescuedEphemerons = passed.reverse ++ gc._rescuedEphemerons
  moves : Moves start gc gc' (gc'._uncheckedEphemerons = gc._uncheckedEphemerons)
  idle : passed = [] → gc'._uncheckedEphemerons = gc._uncheckedEphemerons

theorem rooted_all (start : Start) : Rooted start (· < start.count) := start.rootsClosed

theorem Rescues.rescueEphemeron {passed rest : List Nat} {ephemeron : Nat}
    (lists : Lists start gc.toObjects gc.ephemerons)
    (split : gc._unreachedEphemerons.reverse = passed ++ ephemeron :: rest)
    (rescues : Rescues start gc passed gc') :
    ∃ next, Converges (fun fuel => gc'.rescueEphemeron start.runtime fuel ephemeron) next ∧
      Rescues start gc (passed ++ [ephemeron]) next := by
  have listed : ephemeron ∈ gc.ephemerons := by
    refine List.mem_append_right _ (List.mem_append_left _ ?_)
    rw [← List.mem_reverse, split]
    exact List.mem_append_right _ List.mem_cons_self
  obtain ⟨object, inside, seen, kind, here⟩ := (lists.mem_iff ephemeron).mp listed
  have here' : ephemeron = current start gc'.toObjects object := by
    rw [here, rescues.extends_.current object seen]
  obtain ⟨next, runs, ready, grows⟩ := (rescues.ready _ split).followEphemeronWeaks
    start.closed_all (rooted_all start) inside (rescues.extends_.seen object seen) kind here'
    (fun index target => start.closed object inside index target)
  have listed' := rescues.lists.grows grows ready.marking.heaped ready.marking.nodup
  have rescued : Rescues start gc (passed ++ [ephemeron])
      { next with _rescuedEphemerons := ephemeron :: next._rescuedEphemerons } := by
    refine ⟨fun rest' split' => ?_, listed', rescues.extends_.trans grows.extends_,
      grows.unreached.trans rescues.unreached, grows.live.trans rescues.live, ?_, ?_,
      fun nothing => absurd nothing (by simp)⟩
    · have same : rest' = rest := by
        rw [split, List.append_assoc, List.singleton_append] at split'
        exact (List.cons.inj (List.append_cancel_left split')).2.symm
      rw [same]
      exact ready.congr rfl rfl rfl rfl rfl rfl
    · simp only [grows.rescued, rescues.rescued, List.reverse_append, List.reverse_singleton,
        List.nil_append, List.cons_append]
    · exact .trans rescues.extends_ grows.extends_ rescues.moves grows.moves fun same same' =>
        same'.trans same
  exact ⟨_, runs.map _, rescued⟩

/-- What a round of rescues comes to. -/
structure Rescued (start : Start) (gc gc' : G1GC) : Prop where
  ready : Ready start (· < start.count) [] gc'
  lists : Lists start gc'.toObjects gc'.ephemerons
  extends_ : Extends start gc.toObjects gc'.toObjects
  unreached : gc'._unreachedEphemerons = []
  live : gc'._liveEphemerons = gc._liveEphemerons
  rescued : gc'._rescuedEphemerons = gc._unreachedEphemerons ++ gc._rescuedEphemerons
  moves : Moves start gc gc' (gc'._uncheckedEphemerons = gc._uncheckedEphemerons)
  idle : gc._unreachedEphemerons = [] → gc'._uncheckedEphemerons = gc._uncheckedEphemerons

theorem Ready.rescueUnreachableEphemerons
    (ready : Ready start (· < start.count) gc._unreachedEphemerons gc)
    (lists : Lists start gc.toObjects gc.ephemerons) :
    ∃ gc', Converges (fun fuel => gc.rescueUnreachableEphemerons start.runtime fuel)
        (gc._unreachedEphemerons.isEmpty, gc') ∧ Rescued start gc gc' := by
  have starts : Rescues start gc [] gc := by
    refine ⟨fun rest split => ?_, lists, .refl _, rfl, rfl, rfl, Or.inr rfl, fun _ => rfl⟩
    refine ready.reheld fun address member => ?_
    rw [← List.nil_append rest, ← split]
    exact List.mem_reverse.mpr member
  obtain ⟨last, runs, rescues⟩ := @Converges.foldlM _ _ gc._unreachedEphemerons.reverse
    (fun fuel gc ephemeron => gc.rescueEphemeron start.runtime fuel ephemeron)
    (Rescues start gc) (fun passed ephemeron rest state split rescues =>
      rescues.rescueEphemeron lists split) gc starts
  have rescued : last._rescuedEphemerons = gc._unreachedEphemerons ++ gc._rescuedEphemerons := by
    rw [rescues.rescued, List.reverse_reverse]
  refine ⟨_, runs.map _, (rescues.ready [] (List.append_nil _).symm).congr rfl rfl rfl rfl rfl rfl,
    rescues.lists.perm ?_, rescues.extends_, rfl, rescues.live, rescued, rescues.moves,
    fun nothing => rescues.idle (List.reverse_eq_nil_iff.mpr nothing)⟩
  simp only [G1GC.ephemerons, rescues.live, rescued, List.nil_append]
  refine List.Perm.append_left _ ?_
  rw [← List.append_assoc, ← List.append_assoc]
  exact List.perm_append_comm.append_right _

/-- The words that are traced are up to date once nothing is left to scan. -/
theorem Ready.resolved (ready : Ready start reached held gc) {object index : Nat}
    (seen : Seen start gc.toObjects object) (low : index ≤ (start.heap object).size)
    (traced : Traced start held gc object index) :
    Resolved start gc.toObjects ((start.heap object).word index)
      ((gc.heap (current start gc.toObjects object)).word index) := by
  rcases ready.marking.covered object seen.1 seen.2 index low traced with resolved | ⟨_, member, _⟩
  · exact resolved
  · cases member

/-- So their referents were reached. -/
theorem Ready.follows (ready : Ready start reached held gc) {object index target : Nat}
    (seen : Seen start gc.toObjects object) (traced : Traced start held gc object index)
    (word : (start.heap object).word index = .object target) : Seen start gc.toObjects target := by
  have low : index ≤ (start.heap object).size := by
    refine Nat.le_of_not_lt fun above => ?_
    rw [HeapObject.word_above above] at word
    cases word
  have resolved := ready.resolved seen low traced
  rw [word] at resolved
  exact ⟨start.closed object seen.1 index target word, resolved.1⟩

/-- An ephemeron whose key was reached is not among those left unreached. -/
theorem Settled.not_unreached (settled : Settled start reached gc gc') {object : Nat}
    (inside : object < start.count) (keyed : Keyed start gc'.toObjects object) :
    current start gc'.toObjects object ∉ gc'._unreachedEphemerons := by
  intro member
  obtain ⟨other, inside', _, _, unkeyed, here⟩ := settled.left _ member
  rw [settled.ready.marking.heaped.current_injective inside inside' here] at keyed
  exact unkeyed keyed

/-- What has been followed is closed. -/
theorem Settled.complete (settled : Settled start reached gc gc') {base : Nat → Prop}
    (has : ∀ target, base target → Seen start gc'.toObjects target) {object : Nat}
    (there : start.Reached base object) : Seen start gc'.toObjects object := by
  have ready := settled.ready
  have suspended : ∀ object, Seen start gc'.toObjects object → start.IsProcessStack object →
      current start gc'.toObjects object ∉ gc'._unreachedEphemerons ++ gc'._stacks := by
    intro object seen kind member
    rw [ready.suspended, List.append_nil] at member
    exact settled.lists.not_mem ready.marking.heaped seen.1 kind
      (List.mem_append_right _ (List.mem_append_left _ member))
  induction there with
  | base there => exact has _ there
  | behavior _ word ih => exact ready.follows ih (Or.inl rfl) word
  | slot _ ordinary word ih => exact ready.follows ih (Or.inr (Or.inl ordinary)) word
  | processStack _ kind word ih =>
    exact ready.follows ih (Or.inr (Or.inr (Or.inl ⟨kind, suspended _ ih kind⟩))) word
  | @frame object target _ kind member ih =>
    have framed := ready.marking.framed object ih.1 ih.2 kind (suspended _ ih kind)
    exact ⟨start.framesClosed object ih.1 target member, seen_of_resolved framed member⟩
  | @ephemeron object _ _ _ kind _ word ih keyed =>
    refine ready.follows ih (Or.inr (Or.inr (Or.inr ⟨kind, fun member => ?_⟩))) word
    rw [settled.unchecked, List.append_nil] at member
    exact settled.not_unreached ih.1 (fun key slot => (keyed key slot).2) member

/-- The live ephemerons of the least fixpoint: they are reached, and their keys are. -/
def Start.Live (start : Start) (base : Nat → Prop) (object : Nat) : Prop :=
  start.IsEphemeron object ∧ start.Reached base object ∧
    ∀ key, (start.heap object).slotAt 1 = .object key → start.Reached base key

/-- What was reached before a pass and what it reached: the least fixpoint. -/
theorem Settled.seen_iff {base : Nat → Prop} (settled : Settled start (start.Reached base) gc gc')
    (has : ∀ target, base target → Seen start gc'.toObjects target) (object : Nat) :
    Seen start gc'.toObjects object ↔ start.Reached base object :=
  ⟨fun seen => settled.ready.marking.bounded object seen.1 seen.2, settled.complete has⟩

theorem Settled.keyed_iff {base : Nat → Prop} (settled : Settled start (start.Reached base) gc gc')
    (has : ∀ target, base target → Seen start gc'.toObjects target) {object : Nat}
    (inside : object < start.count) : Keyed start gc'.toObjects object ↔
      ∀ key, (start.heap object).slotAt 1 = .object key → start.Reached base key := by
  refine forall₂_congr fun key slot => ?_
  have below : key < start.count := start.closed object inside 1 key slot
  rw [← settled.seen_iff has]
  exact ⟨fun seen => ⟨below, seen⟩, And.right⟩

/-- The live ephemerons of a pass are those of the least fixpoint. -/
theorem Settled.live_iff {base : Nat → Prop} (settled : Settled start (start.Reached base) gc gc')
    (has : ∀ target, base target → Seen start gc'.toObjects target) (address : Nat) :
    address ∈ gc'._liveEphemerons ↔ address ∈ gc._liveEphemerons ∨
      address ∉ gc._rescuedEphemerons ∧ ∃ object < start.count, start.Live base object ∧
        address = current start gc'.toObjects object := by
  have parts : ∀ address, address ∈ gc'._liveEphemerons → address ∉ gc'._rescuedEphemerons := by
    intro address member member'
    have nodup := settled.lists.nodup
    simp only [G1GC.ephemerons] at nodup
    have tail := (List.nodup_append.mp (List.nodup_append.mp nodup).2.1).2.1
    exact (List.nodup_append.mp tail).2.2 address member address member' rfl
  constructor
  · intro member
    rcases settled.live address member with old | ⟨object, inside, seen, kind, keyed, here⟩
    · exact Or.inl old
    · refine Or.inr ⟨settled.rescued ▸ parts address member, object, inside, ⟨kind, ?_, ?_⟩, here⟩
      · exact (settled.seen_iff has object).mp ⟨inside, seen⟩
      · exact (settled.keyed_iff has inside).mp keyed
  · rintro (old | ⟨fresh, object, inside, ⟨kind, there, keys⟩, rfl⟩)
    · exact settled.liveKept old
    · have seen := (settled.seen_iff has object).mpr there
      have listed := (settled.lists.mem_iff _).mpr ⟨object, inside, seen.2, kind, rfl⟩
      simp only [G1GC.ephemerons, settled.unchecked, List.nil_append, List.mem_append,
        settled.rescued] at listed
      have keyed := (settled.keyed_iff has inside).mpr keys
      exact (listed.resolve_left (settled.not_unreached inside keyed)).resolve_right fresh

/-- The ephemerons a pass leaves unreached: they are reached, and their keys are not. -/
theorem Settled.unreached_iff {base : Nat → Prop}
    (settled : Settled start (start.Reached base) gc gc')
    (has : ∀ target, base target → Seen start gc'.toObjects target) (address : Nat) :
    address ∈ gc'._unreachedEphemerons ↔
      address ∉ gc'._liveEphemerons ++ gc'._rescuedEphemerons ∧ ∃ object < start.count,
        start.IsEphemeron object ∧ start.Reached base object ∧ ¬ start.Live base object ∧
          address = current start gc'.toObjects object := by
  constructor
  · intro member
    obtain ⟨object, inside, seen, kind, unkeyed, here⟩ := settled.left address member
    refine ⟨fun member' => ?_, object, inside, kind, (settled.seen_iff has object).mp ⟨inside, seen⟩,
      fun live => unkeyed ((settled.keyed_iff has inside).mpr live.2.2), here⟩
    have nodup := settled.lists.nodup
    simp only [G1GC.ephemerons] at nodup
    have tail := (List.nodup_append.mp nodup).2.1
    exact (List.nodup_append.mp tail).2.2 address member address member' rfl
  · rintro ⟨fresh, object, inside, kind, there, _, rfl⟩
    have seen := (settled.seen_iff has object).mpr there
    have listed := (settled.lists.mem_iff _).mpr ⟨object, inside, seen.2, kind, rfl⟩
    simp only [G1GC.ephemerons, settled.unchecked, List.nil_append] at listed
    exact (List.mem_append.mp listed).resolve_right fresh

/-- The collector before the first round of its loop, and before each other one. -/
structure Between (start : Start) (reached : Nat → Prop) (gc : G1GC) : Prop where
  ready : Ready start reached [] gc
  none : gc._unreachedEphemerons = []
  lists : Lists start gc.toObjects gc.ephemerons
  rooted : ∀ target, start.Root target → Seen start gc.toObjects target

/-- A round of the loop: the live ephemerons of the least fixpoint are followed, those left over are
rescued. -/
structure Sorts (start : Start) (gc live rescued : G1GC) : Prop where
  settled : Settled start (start.Reached (Seen start gc.toObjects)) gc live
  rescues : Rescued start live rescued

theorem Between.round (between : Between start (· < start.count) gc) :
    ∃ live rescued, Converges (fun fuel => gc.followLiveEphemerons start.runtime fuel) live ∧
      Converges (fun fuel => live.rescueUnreachableEphemerons start.runtime fuel)
        (live._unreachedEphemerons.isEmpty, rescued) ∧
      Sorts start gc live rescued ∧ Between start (· < start.count) rescued := by
  have rooted : Rooted start (start.Reached (Seen start gc.toObjects)) :=
    fun target root => .base (between.rooted target root)
  obtain ⟨live, runs, settled⟩ := (between.ready.rebound fun _ => .base).followLiveEphemerons
    start.reached_closed rooted between.none between.lists
  obtain ⟨rescued, runs', rescues⟩ :=
    (settled.ready.rebound fun _ => And.left).rescueUnreachableEphemerons settled.lists
  refine ⟨live, rescued, runs, runs', ⟨settled, rescues⟩, rescues.ready, rescues.unreached,
    rescues.lists, fun target root => ?_⟩
  have seen := between.rooted target root
  exact ⟨seen.1, rescues.extends_.seen target (settled.extends_.seen target seen.2)⟩

/-- Each round but the last reaches objects or leaves fewer ephemerons waiting. -/
theorem Sorts.lt {live rescued : G1GC} (sorts : Sorts start gc live rescued) :
    toLex ((unseen start rescued.toObjects).card,
        rescued.waits + if live._unreachedEphemerons.isEmpty then 0 else 1) <
      toLex ((unseen start gc.toObjects).card, gc.waits + 1) := by
  have moves : Moves start gc rescued (rescued._uncheckedEphemerons = [] ∧ live.waits ≤ gc.waits) :=
    .trans sorts.settled.extends_ sorts.rescues.extends_ sorts.settled.moves sorts.rescues.moves
      fun waits same => ⟨same.trans sorts.settled.unchecked, waits⟩
  refine Moves.lex_lt (sorts.settled.extends_.trans sorts.rescues.extends_) moves ?_
  rintro ⟨empty, waits⟩
  have nothing : rescued.waits = 0 := by
    rw [G1GC.waits, empty, sorts.rescues.unreached]
    rfl
  have left : live.waits = live._unreachedEphemerons.length := by
    rw [G1GC.waits, sorts.settled.unchecked]
    exact Nat.zero_add _
  rw [nothing, Nat.zero_add]
  split
  · exact Nat.succ_pos _
  · next some =>
    have positive : 0 < live._unreachedEphemerons.length :=
      List.length_pos_iff.mpr fun empty' => some (List.isEmpty_iff.mpr empty')
    omega

/-- The collector after its loop. -/
structure Finished (start : Start) (gc : G1GC) : Prop extends Between start (· < start.count) gc where
  unchecked : gc._uncheckedEphemerons = []

theorem Between.followEphemerons (between : Between start (· < start.count) gc) :
    ∃ gc', Converges (fun fuel => gc.followEphemerons start.runtime fuel) gc' ∧
      Finished start gc' := by
  have step : ∀ state : Bool × G1GC,
      Between start (· < start.count) state.2 ∧
        (state.1 = true → state.2._uncheckedEphemerons = []) → state.1 = false →
      ∃ next : Bool × G1GC,
        Converges (fun fuel => (state.2.followLiveEphemerons start.runtime fuel).bind
          (G1GC.rescueUnreachableEphemerons start.runtime fuel)) next ∧
        (Between start (· < start.count) next.2 ∧
          (next.1 = true → next.2._uncheckedEphemerons = [])) ∧
        toLex ((unseen start next.2.toObjects).card, next.2.waits + if next.1 then 0 else 1) <
          toLex ((unseen start state.2.toObjects).card, state.2.waits + if state.1 then 0 else 1) := by
    rintro ⟨_, state⟩ ⟨between, _⟩ rfl
    obtain ⟨live, rescued, runs, runs', sorts, between'⟩ := between.round
    refine ⟨(live._unreachedEphemerons.isEmpty, rescued), runs.bind runs', ⟨between', ?_⟩, sorts.lt⟩
    intro ended
    exact (sorts.rescues.idle (List.isEmpty_iff.mp ended)).trans sorts.settled.unchecked
  obtain ⟨⟨done, gc'⟩, runs, ⟨between', unchecked⟩, ended⟩ := @Converges.loop_of_measure _ _ _ _
    Prod.fst _ (fun state : Bool × G1GC =>
      toLex ((unseen start state.2.toObjects).card, state.2.waits + if state.1 then 0 else 1)) _ step
    (false, gc) ⟨between, fun never => absurd never Bool.false_ne_true⟩
  exact ⟨gc', runs.map Prod.snd, between', unchecked ended⟩

/-- Nothing has been reached at the start. -/
theorem Start.marking (start : Start) (reached : Nat → Prop) :
    Marking start reached [] start.gc [] := by
  have never : ∀ object < start.count, ¬ (start.gc.heap object).hasBeenSeen = true := by
    intro object inside seen
    have unmarked : (start.gc.heap object).hasBeenSeen = false := start.unmarked object inside
    rw [unmarked] at seen
    cases seen
  have moved : ∀ object, start.runtime.evacuated object = true →
      ¬ (start.gc.heap object).hasBeenSeen = true :=
    fun object moves => never object (start.evacuated_lt object moves)
  have heaped : Heaped start start.gc.toObjects :=
    ⟨Nat.le_refl _, fun _ _ _ => rfl, fun object moves seen => (moved object moves seen).elim,
      fun object moves seen => (moved object moves seen).elim,
      fun object _ moves seen => (moved object moves seen).elim,
      fun object inside seen => (never object inside seen).elim,
      fun object inside seen => (never object inside seen).elim,
      fun address low high => absurd high (Nat.not_lt_of_le low)⟩
  have stands : ∀ roots, List.Forall₂ (Stands start start.gc.toObjects) roots roots :=
    fun roots => List.forall₂_same.mpr fun _ _ => Or.inl rfl
  exact ⟨heaped, fun object inside seen => (never object inside seen).elim,
    fun _ member => absurd member List.not_mem_nil,
    fun object inside seen => (never object inside seen).elim,
    fun object inside seen => (never object inside seen).elim, fun _ member => absurd member List.not_mem_nil,
    fun _ member => absurd member List.not_mem_nil, List.nodup_nil, stands _, stands _⟩

/-- The roots are followed. -/
theorem Start.follow (start : Start) {reached : Nat → Prop} (closed : start.Closed reached)
    (rooted : Rooted start reached) :
    ∃ gc, Converges (fun fuel => (start.gc.scanCurrentContext start.runtime).followClosure
        start.runtime fuel) gc ∧
      Between start reached gc ∧ gc._liveEphemerons = [] ∧ gc._rescuedEphemerons = [] := by
  have starts : Marking start reached [] start.gc start.gc._stack := start.marking reached
  obtain ⟨marking, grows, context⟩ := starts.scanCurrentContext closed rooted
  obtain ⟨gc, runs, done⟩ := marking.followClosure closed rooted
  have grows' := grows.trans done.grows
  have unreached : gc._unreachedEphemerons = [] := grows'.unreached
  have live : gc._liveEphemerons = [] := grows'.live
  have rescued : gc._rescuedEphemerons = [] := grows'.rescued
  have empty : Lists start start.gc.toObjects (start.gc._uncheckedEphemerons ++ []) := by
    refine ⟨List.nodup_nil, fun address => ⟨fun member => absurd member List.not_mem_nil, ?_⟩⟩
    rintro ⟨object, inside, seen, _⟩
    have unmarked : (start.gc.heap object).hasBeenSeen = false := start.unmarked object inside
    exact absurd seen (Bool.not_eq_true _ ▸ unmarked)
  have lists := empty.grows grows' done.marking.heaped done.marking.nodup
  refine ⟨gc, runs, ⟨⟨done.marking, done.stack, done.suspended, done.grows.context context⟩, unreached, ?_, ?_⟩, live, rescued⟩
  · rw [G1GC.ephemerons, unreached, live, rescued]
    exact lists
  · intro target root
    refine ⟨start.rootsClosed target root, ?_⟩
    rcases List.mem_append.mp root with early | late
    · exact done.grows.extends_.seen target (seen_of_resolved context early)
    · exact done.rooted target late

/-- The heads of the loop of `followEphemerons`. -/
inductive Round (start : Start) : G1GC → Prop where
  | first {gc : G1GC} : Converges (fun fuel =>
      (start.gc.scanCurrentContext start.runtime).followClosure start.runtime fuel) gc → Round start gc
  | next {gc live rescued : G1GC} : Round start gc →
      Converges (fun fuel => gc.followLiveEphemerons start.runtime fuel) live →
      Converges (fun fuel => live.rescueUnreachableEphemerons start.runtime fuel) (false, rescued) →
      Round start rescued

theorem Round.between (round : Round start gc) : Between start (· < start.count) gc := by
  induction round with
  | first runs =>
    obtain ⟨gc', runs', between, _⟩ := start.follow start.closed_all (rooted_all start)
    rw [runs.unique runs']
    exact between
  | next _ runs runs' between =>
    obtain ⟨live', rescued', ran, ran', _, between'⟩ := between.round
    rw [runs.unique ran] at runs'
    have same := runs'.unique ran'
    rw [(Prod.mk.inj same).2]
    exact between'

/-- Every ephemeron that was reached is found live or rescued, once, and its slots are up to date. -/
structure Classified (start : Start) (gc : G1GC) : Prop where
  once : (gc._liveEphemerons ++ gc._rescuedEphemerons).Nodup
  mem_iff : ∀ address, address ∈ gc._liveEphemerons ++ gc._rescuedEphemerons ↔
    ∃ object < start.count, (gc.heap object).hasBeenSeen = true ∧ start.IsEphemeron object ∧
      address = current start gc.toObjects object
  slots : ∀ object < start.count, (gc.heap object).hasBeenSeen = true → start.IsEphemeron object →
    ∀ index ≤ (start.heap object).size,
      Resolved start gc.toObjects ((start.heap object).word index)
        ((gc.heap (current start gc.toObjects object)).word index)

theorem Finished.classified (finished : Finished start gc) : Classified start gc := by
  have lists := finished.lists
  rw [G1GC.ephemerons, finished.unchecked, finished.none, List.nil_append, List.nil_append] at lists
  refine ⟨lists.nodup, lists.mem_iff, fun object inside seen kind index low => ?_⟩
  refine finished.ready.resolved ⟨inside, seen⟩ low (Or.inr (Or.inr (Or.inr ⟨kind, ?_⟩)))
  rw [finished.unchecked]
  exact List.not_mem_nil

end Egg.Tracing
