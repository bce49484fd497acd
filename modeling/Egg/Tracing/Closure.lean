import Egg.Tracing.Scanning

/-! Following the closure: it ends, and every word it has to follow is up to date. -/
namespace Egg.Tracing

open Egg.Data

variable {start : Start} {reached : Nat → Prop} {held : List Nat} {gc gc' gc'' : G1GC}

/-- A pass over roots: it keeps them apart from the collector's own, and reaches objects or does
nothing. -/
structure Passes (start : Start) (gc gc' : G1GC) : Prop where
  grows : Grows start gc gc'
  context : gc'.context = gc.context
  gcedRefs : gc'.gcedRefs = gc.gcedRefs
  stack : gc._stack ⊆ gc'._stack
  moves : Moves start gc gc' (gc'._stacks = gc._stacks)

theorem Passes.refl (gc : G1GC) : Passes start gc gc :=
  ⟨.refl gc, rfl, rfl, List.Subset.refl _, Or.inr rfl⟩

theorem Passes.trans (first : Passes start gc gc') (second : Passes start gc' gc'') :
    Passes start gc gc'' where
  grows := first.grows.trans second.grows
  context := second.context.trans first.context
  gcedRefs := second.gcedRefs.trans first.gcedRefs
  stack := List.Subset.trans first.stack second.stack
  moves := .trans first.grows.extends_ second.grows.extends_ first.moves second.moves
    fun same same' => same'.trans same

/-- A root may refer to what may be reached. -/
def Allows (start : Start) (reached : Nat → Prop) (original : Reference) : Prop :=
  ∀ target, original = .object target → target < start.count ∧ reached target

theorem Marking.scanRoot (closed : start.Closed reached)
    (marking : Marking start reached held gc gc._stack) {original word : Reference}
    (stands : Stands start gc.toObjects original word) (allows : Allows start reached original) :
    let scanned := gc.scanRoot start.runtime word
    Marking start reached held scanned.1 scanned.1._stack ∧ Passes start gc scanned.1 ∧
      Resolved start scanned.1.toObjects original scanned.2 := by
  cases original with
  | immediate value =>
    obtain rfl : word = .immediate value := stands.elim id id
    exact ⟨marking, .refl gc, rfl⟩
  | object target =>
    obtain ⟨inside, allowed⟩ := allows target rfl
    obtain ⟨address, rfl, place⟩ : ∃ address, word = .object address ∧ (address = target ∨
        (gc.heap target).hasBeenSeen = true ∧ address = current start gc.toObjects target) := by
      rcases stands with same | ⟨seen, same⟩
      · exact ⟨target, same, Or.inl rfl⟩
      · exact ⟨_, same, Or.inr ⟨seen, rfl⟩⟩
    cases seen : (gc.heap target).hasBeenSeen with
    | true =>
      obtain ⟨marked, resolved⟩ := marking.heaped.resolve_seen inside seen (place.imp id And.right)
      simp only [G1GC.scanRoot, resolved, marked, if_true]
      exact ⟨marking, .refl gc, seen, rfl⟩
    | false =>
      have same : address = target := by
        rcases place with same | ⟨seen', _⟩
        · exact same
        · rw [seen] at seen'
          cases seen'
      subst same
      obtain ⟨found, resolved, reaches⟩ := marking.heaped.resolve_unseen inside seen
      have marked := (reaches.puts.seen_iff inside).mpr (Or.inr rfl)
      have kept := marking.reach closed allowed reaches
      have strong := (kept.heaped.kept address inside marked).strongPointersSize
      have stack : found._stack = gc._stack := (congrArg G1GC._stack reaches.frame).trans rfl
      simp only [G1GC.scanRoot, resolved, seen, Bool.false_eq_true, if_false, strong]
      rw [← stack] at kept
      refine ⟨kept.congr rfl rfl rfl rfl rfl, ⟨reaches.grows.congr rfl rfl rfl rfl rfl rfl, ?_, ?_,
        ?_, Or.inl reaches.unseen_lt⟩, marked, rfl⟩
      · exact (congrArg G1GC.context reaches.frame).trans rfl
      · exact (congrArg G1GC.gcedRefs reaches.frame).trans rfl
      · rw [← stack]
        exact List.subset_cons_self _ _

theorem Marking.scanRoots (closed : start.Closed reached) {originals words : List Reference}
    (marking : Marking start reached held gc gc._stack)
    (stands : List.Forall₂ (Stands start gc.toObjects) originals words)
    (allows : ∀ original ∈ originals, Allows start reached original) :
    let scanned := gc.scanRoots start.runtime words
    Marking start reached held scanned.1 scanned.1._stack ∧ Passes start gc scanned.1 ∧
      List.Forall₂ (Resolved start scanned.1.toObjects) originals scanned.2 := by
  induction words generalizing gc originals with
  | nil =>
    cases stands
    exact ⟨marking, .refl gc, .nil⟩
  | cons word words ih =>
    cases stands with
    | @cons original _ originals _ first rest =>
      obtain ⟨kept, passes, resolved⟩ := marking.scanRoot closed first
        (allows original (List.mem_cons_self ..))
      obtain ⟨kept', passes', resolved'⟩ := ih kept
        (rest.imp fun _ _ => .extend passes.grows.extends_)
        fun other member => allows other (List.mem_cons_of_mem _ member)
      exact ⟨kept', passes.trans passes', .cons (passes'.grows.extends_.resolved resolved) resolved'⟩

/-- The roots of the collector itself. -/
theorem Marking.withRoots {work : List (Nat × Nat × Nat)}
    (marking : Marking start reached held gc work) {context gcedRefs : List Reference}
    (standing : List.Forall₂ (Stands start gc.toObjects) start.context context)
    (standing' : List.Forall₂ (Stands start gc.toObjects) start.gcedRefs gcedRefs) :
    Marking start reached held { gc with context := context, gcedRefs := gcedRefs } work :=
  ⟨marking.1, marking.2, marking.3, marking.4, marking.5, marking.6, marking.7, marking.8,
    standing, standing'⟩

/-- Words that are up to date stand for what they were. -/
theorem forall₂_stands {objects : Objects} {originals words : List Reference}
    (resolved : List.Forall₂ (Resolved start objects) originals words) :
    List.Forall₂ (Stands start objects) originals words :=
  resolved.imp fun _ _ => Or.inr

theorem seen_of_resolved {objects : Objects} {originals words : List Reference}
    (resolved : List.Forall₂ (Resolved start objects) originals words) {target : Nat}
    (member : Reference.object target ∈ originals) :
    (objects.heap target).hasBeenSeen = true := by
  induction resolved with
  | nil => cases member
  | cons first _ ih =>
    rcases List.mem_cons.mp member with rfl | later
    · exact first.1
    · exact ih later

/-- Every root may be reached. -/
def Rooted (start : Start) (reached : Nat → Prop) : Prop := ∀ target, start.Root target → reached target

theorem Rooted.allows (rooted : Rooted start reached) :
    ∀ original ∈ start.context ++ start.gcedRefs, Allows start reached original := by
  rintro original member target rfl
  exact ⟨start.rootsClosed target member, rooted target member⟩

theorem Marking.scanCurrentContext (closed : start.Closed reached) (rooted : Rooted start reached)
    (marking : Marking start reached held gc gc._stack) :
    let scanned := gc.scanCurrentContext start.runtime
    Marking start reached held scanned scanned._stack ∧ Grows start gc scanned ∧
      List.Forall₂ (Resolved start scanned.toObjects) start.context scanned.context := by
  obtain ⟨kept, passes, resolved⟩ := marking.scanRoots closed marking.context
    fun original member => rooted.allows original (List.mem_append_left _ member)
  exact ⟨(kept.withRoots (forall₂_stands resolved) kept.gcedRefs).congr rfl rfl rfl rfl rfl,
    ⟨passes.grows.1, passes.grows.2, passes.grows.3, passes.grows.4, passes.grows.5,
      fun _ => resolved⟩, resolved⟩

theorem Marking.followGCedRefs (closed : start.Closed reached) (rooted : Rooted start reached)
    (marking : Marking start reached held gc gc._stack) :
    let scanned := gc.followGCedRefs start.runtime
    Marking start reached held scanned scanned._stack ∧ Grows start gc scanned ∧
      (∀ target, Reference.object target ∈ start.gcedRefs →
        (scanned.heap target).hasBeenSeen = true) := by
  obtain ⟨kept, passes, resolved⟩ := marking.scanRoots closed marking.gcedRefs
    fun original member => rooted.allows original (List.mem_append_right _ member)
  exact ⟨(kept.withRoots kept.context (forall₂_stands resolved)).congr rfl rfl rfl rfl rfl,
    passes.grows.congr rfl rfl rfl rfl rfl rfl, fun target => seen_of_resolved resolved⟩

/-- A trace of an entry, as far as it has got. -/
structure Scanned (start : Start) (reached : Nat → Prop) (held : List Nat)
    (work : G1GC → List (Nat × Nat × Nat)) (gc gc' : G1GC) : Prop where
  marking : Marking start reached held gc' (work gc')
  grows : Grows start gc gc'
  moves : Moves start gc gc' (gc'._stack = gc._stack ∧ gc'._stacks = gc._stacks)

/-- The entry in the registers is scanned to its end. -/
theorem Marking.scanEntry (closed : start.Closed reached)
    (marking : Marking start reached held gc gc.work) :
    ∃ gc', Converges (fun fuel => loop (fun gc => gc._limit < gc._index)
        (fun _ gc => some (gc.scanIndex start.runtime)) fuel gc) gc' ∧
      Scanned start reached held G1GC._stack gc gc' := by
  have step : ∀ state : G1GC, Scanned start reached held G1GC.work gc state →
      decide (state._limit < state._index) = false →
      ∃ next, Converges (fun _ => some (state.scanIndex start.runtime)) next ∧
        Scanned start reached held G1GC.work gc next ∧
        toLex ((unseen start next.toObjects).card, next._limit + 1 - next._index) <
          toLex ((unseen start state.toObjects).card, state._limit + 1 - state._index) := by
    intro state scanned going
    have low : state._index ≤ state._limit := Nat.le_of_not_lt (of_decide_eq_false going)
    obtain ⟨kept, scans⟩ := scanned.marking.scanIndex closed low
    refine ⟨_, .pure _, ⟨kept, scanned.grows.trans scans.grows, ?_⟩, ?_⟩
    · refine .trans scanned.grows.extends_ scans.grows.extends_ scanned.moves scans.moves ?_
      rintro ⟨stack, suspended⟩ ⟨stack', suspended', _⟩
      exact ⟨stack'.trans stack, suspended'.trans suspended⟩
    · refine Moves.lex_lt scans.grows.extends_ scans.moves ?_
      rintro ⟨_, _, limit, index⟩
      rw [limit, index]
      omega
  obtain ⟨gc', runs, scanned, done⟩ := Converges.loop_of_measure
    (fun gc : G1GC => decide (gc._limit < gc._index)) (fun _ gc => some (gc.scanIndex start.runtime))
    (fun gc => toLex ((unseen start gc.toObjects).card, gc._limit + 1 - gc._index)) step
    ⟨marking, .refl gc, Or.inr ⟨rfl, rfl⟩⟩
  exact ⟨gc', runs, scanned.marking.drop (of_decide_eq_true done), scanned.grows, scanned.moves⟩

/-- Tracing that reaches objects, or leaves the stacks that wait. -/
structure Follows (start : Start) (reached : Nat → Prop) (held : List Nat) (gc gc' : G1GC) : Prop
    where
  marking : Marking start reached held gc' gc'._stack
  grows : Grows start gc gc'
  moves : Moves start gc gc' (gc'._stacks = gc._stacks)

theorem Marking.followObjects (closed : start.Closed reached)
    (marking : Marking start reached held gc gc._stack) :
    ∃ gc', Converges (fun fuel => gc.followObjects start.runtime fuel) gc' ∧
      Follows start reached held gc gc' ∧ gc'._stack = [] := by
  have step : ∀ state : G1GC, Follows start reached held gc state → state._stack.isEmpty = false →
      ∃ next, Converges (fun fuel => loop (fun gc => gc._limit < gc._index)
          (fun _ gc => some (gc.scanIndex start.runtime)) fuel state.popEntry) next ∧
        Follows start reached held gc next ∧
        toLex ((unseen start next.toObjects).card, next._stack.length) <
          toLex ((unseen start state.toObjects).card, state._stack.length) := by
    intro state follows going
    obtain ⟨⟨object, index, limit⟩, rest, stack⟩ :=
      List.exists_cons_of_ne_nil (List.isEmpty_eq_false_iff.mp going)
    have popped : state.popEntry =
        { state with _stack := rest, _scanned := object, _index := index, _limit := limit } := by
      simp only [G1GC.popEntry, stack]
    have marking := follows.marking
    rw [stack] at marking
    have entry : Marking start reached held state.popEntry state.popEntry.work := by
      rw [popped]
      exact marking.congr rfl rfl rfl rfl rfl
    have grown : Grows start state state.popEntry := by
      rw [popped]
      exact .congr (.refl state) rfl rfl rfl rfl rfl rfl
    obtain ⟨next, runs, scanned⟩ := entry.scanEntry closed
    have same : state.popEntry._stack = rest ∧ state.popEntry._stacks = state._stacks := by
      rw [popped]
      exact ⟨rfl, rfl⟩
    have moves : Moves start state next (next._stack = rest ∧ next._stacks = state._stacks) := by
      rw [← same.1, ← same.2]
      exact .trans grown.extends_ scanned.grows.extends_ (Or.inr trivial) scanned.moves fun _ => id
    have grows := grown.trans scanned.grows
    refine ⟨next, runs, ⟨scanned.marking, follows.grows.trans grows, ?_⟩, ?_⟩
    · exact .trans follows.grows.extends_ grows.extends_ follows.moves moves fun kept last => last.2.trans kept
    · refine Moves.lex_lt grows.extends_ moves ?_
      rintro ⟨last, _⟩
      rw [last, stack, List.length_cons]
      exact Nat.lt_succ_self _
  obtain ⟨gc', runs, follows, done⟩ := Converges.loop_of_measure _ _
    (fun gc : G1GC => toLex ((unseen start gc.toObjects).card, gc._stack.length)) step
    ⟨marking, .refl gc, Or.inr rfl⟩
  exact ⟨gc', runs, follows, List.isEmpty_iff.mp done⟩

theorem Marking.push {work : List (Nat × Nat × Nat)} {entry : Nat × Nat × Nat}
    (marking : Marking start reached held gc work)
    (valid : Entry start reached gc.toObjects entry) :
    Marking start reached held gc (entry :: work) where
  heaped := marking.heaped
  bounded := marking.bounded
  entries := by
    intro other member
    rcases List.mem_cons.mp member with rfl | old
    · exact valid
    · exact marking.entries other old
  covered := by
    intro object inside seen index low traced
    rcases marking.covered object inside seen index low traced with resolved | ⟨other, old, waits⟩
    · exact Or.inl resolved
    · exact Or.inr ⟨other, List.mem_cons_of_mem _ old, waits⟩
  framed := marking.framed
  suspended := marking.suspended
  waiting := marking.waiting
  nodup := marking.nodup
  context := marking.context
  gcedRefs := marking.gcedRefs

theorem Improves.framesPut {objects : Objects} {original old : HeapObject}
    {frames : List Reference} (keeps : Keeps start objects original old)
    (resolved : List.Forall₂ (Resolved start objects) original.frames frames) :
    Improves start objects original old { old with frames := frames } := by
  have words : ∀ index, ({ old with frames := frames } : HeapObject).word index = old.word index := by
    intro index
    cases index <;> rfl
  refine ⟨rfl, ⟨keeps.special, keeps.size, fun index => ?_, Or.inr resolved⟩, fun index fine => ?_,
    fun _ => resolved⟩
  · rw [words]
    exact keeps.word index
  · rw [words]
    exact fine

/-- A stack whose slots wait to be scanned and whose frames are up to date is opened. -/
theorem Marking.release {object : Nat} {work : List (Nat × Nat × Nat)}
    (marking : Marking start reached (current start gc.toObjects object :: held) gc work)
    (inside : object < start.count) (followed : Followed start gc work object) :
    Marking start reached held gc work := by
  refine marking.regroup rfl rfl rfl (List.Subset.refl _) marking.waiting marking.nodup ?_
  intro other inside' seen now before
  by_cases same : other = object
  · rwa [same]
  · refine absurd ?_ before
    have apart : current start gc.toObjects other ≠ current start gc.toObjects object :=
      fun same' => same (marking.heaped.current_injective inside' inside same')
    exact now.imp (And.imp id fun outside member =>
        outside ((List.mem_cons.mp member).resolve_left apart))
      (And.imp id fun outside member => outside ((List.mem_cons.mp member).resolve_left apart))

theorem Marking.hold {work : List (Nat × Nat × Nat)} {address : Nat} {rest : List Nat}
    (marking : Marking start reached held gc work) (suspended : gc._stacks = address :: rest) :
    Marking start reached (address :: held) { gc with _stacks := rest } work := by
  have subset : rest ⊆ gc._stacks := suspended ▸ List.subset_cons_self _ _
  refine marking.regroup rfl rfl rfl subset marking.waiting marking.nodup ?_
  intro object inside seen now before
  refine absurd (now.imp (And.imp id fun outside member => outside ?_)
    (And.imp id fun outside member => outside (List.mem_cons_of_mem _ member))) before
  rw [suspended] at member
  exact List.perm_middle.subset member

/-- Storing frames that are up to date. -/
theorem Marking.storeFrames {work : List (Nat × Nat × Nat)} {object : Nat}
    {frames : List Reference} (marking : Marking start reached held gc work)
    (inside : object < start.count) (seen : (gc.heap object).hasBeenSeen = true)
    (resolved : List.Forall₂ (Resolved start gc.toObjects) (start.heap object).frames frames) :
    let gc' := gc.atPut (current start gc.toObjects object)
      { gc.heap (current start gc.toObjects object) with frames := frames }
    Marking start reached held gc' work ∧ Grows start gc gc' ∧
      (∀ other, current start gc'.toObjects other = current start gc.toObjects other) ∧
      List.Forall₂ (Resolved start gc'.toObjects) (start.heap object).frames
        (gc'.heap (current start gc.toObjects object)).frames := by
  have improves := Improves.framesPut (marking.heaped.kept object inside seen) resolved
  have extends_ : Extends start gc.toObjects (gc.toObjects.atPut (current start gc.toObjects object)
      { gc.heap (current start gc.toObjects object) with frames := frames }) := .atPut improves.seen
  refine ⟨marking.atPut inside seen improves, Grows.atPut improves.seen,
    fun other => (current_atPut improves.seen other).2, ?_⟩
  have put : ∀ new, (gc.atPut (current start gc.toObjects object) new).heap
      (current start gc.toObjects object) = new := fun new => Function.update_self ..
  rw [put]
  exact resolved.imp fun _ _ => extends_.resolved

/-- One stack that waited is opened. -/
theorem Marking.scanWaiting (closed : start.Closed reached)
    (marking : Marking start reached held gc gc._stack) {address : Nat} {rest : List Nat}
    (suspended : gc._stacks = address :: rest) :
    let scanned := (({ gc with _stacks := rest }).scanSpecialSlots address).scanStack
      start.runtime address
    Marking start reached held scanned scanned._stack ∧ Grows start gc scanned ∧
      Moves start gc scanned (scanned._stacks = rest) := by
  obtain ⟨object, inside, seen, kind, here⟩ := marking.suspended address (by simp [suspended])
  have allowed := marking.bounded object inside seen
  have keeps := marking.heaped.kept object inside seen
  rw [← here] at keeps
  have entry : Entry start reached gc.toObjects (address, 1, (gc.heap address).size) := by
    refine ⟨object, inside, seen, here, Nat.le_of_eq keeps.size, ?_⟩
    intro index target _ _ word
    exact closed.processStack object target inside allowed kind (Or.inl ⟨index, word⟩)
  let popped := ({ gc with _stacks := rest }).scanSpecialSlots address
  have waiting : Marking start reached (address :: held) popped popped._stack :=
    ((marking.push entry).hold suspended).congr rfl rfl rfl rfl rfl
  have grown : Grows start gc popped := .congr (.refl gc) rfl rfl rfl rfl rfl rfl
  have stands : List.Forall₂ (Stands start popped.toObjects) (start.heap object).frames
      (popped.heap address).frames := by
    rcases keeps.frames with same | resolved
    · have equal : (popped.heap address).frames = (start.heap object).frames := same
      rw [equal]
      exact List.forall₂_same.mpr fun _ _ => Or.inl rfl
    · exact forall₂_stands resolved
  have allows : ∀ original ∈ (start.heap object).frames, Allows start reached original := by
    rintro original member target rfl
    exact ⟨start.framesClosed object inside target member,
      closed.processStack object target inside allowed kind (Or.inr member)⟩
  obtain ⟨kept, passes, resolved⟩ := waiting.scanRoots closed stands allows
  generalize scanned : popped.scanRoots start.runtime (popped.heap address).frames = result
    at kept passes resolved
  have done : popped.scanStack start.runtime address =
      result.1.atPut address { result.1.heap address with frames := result.2 } := by
    rw [← scanned]
    rfl
  have seen' := passes.grows.extends_.seen object seen
  have there : current start result.1.toObjects object = address :=
    (passes.grows.extends_.current object seen).trans here.symm
  obtain ⟨stored, grows, unmoved, framed⟩ := kept.storeFrames inside seen' resolved
  have suspended' : (result.1.atPut address
      { result.1.heap address with frames := result.2 })._stacks = result.1._stacks := rfl
  have stack : (result.1.atPut address
      { result.1.heap address with frames := result.2 })._stack = result.1._stack := rfl
  rw [there] at stored grows unmoved framed
  have whole : Marking start reached held (popped.scanStack start.runtime address)
      (popped.scanStack start.runtime address)._stack ∧
      Grows start gc (popped.scanStack start.runtime address) ∧
      Moves start gc (popped.scanStack start.runtime address)
        ((popped.scanStack start.runtime address)._stacks = rest) := by
    rw [done]
    generalize result.1.atPut address { result.1.heap address with frames := result.2 } = final
      at stored grows unmoved framed suspended' stack
    have here' : current start final.toObjects object = address := (unmoved object).trans there
    rw [stack, suspended']
    refine ⟨?_, (grown.trans passes.grows).trans grows, ?_⟩
    · rw [← here'] at stored framed
      refine stored.release inside ⟨fun index positive low => Or.inr ?_, fun _ => framed⟩
      rw [here']
      exact ⟨_, passes.stack (List.mem_cons_self ..), rfl, positive, keeps.size ▸ low⟩
    · exact .trans (grown.trans passes.grows).extends_ grows.extends_
        (.trans grown.extends_ passes.grows.extends_ (Or.inr trivial) passes.moves fun _ => id) (Or.inr trivial)
        fun same _ => same
  exact whole

/-- The closure, as far as it has been followed. -/
structure Closes (start : Start) (reached : Nat → Prop) (held : List Nat) (gc gc' : G1GC) : Prop where
  marking : Marking start reached held gc' gc'._stack
  grows : Grows start gc gc'

theorem Closes.scanStack {state : G1GC} (closed : start.Closed reached)
    (closes : Closes start reached held gc state)
    (moved : Moves start gc state (gc._stacks = [] ∧ state = gc ∨ gc._stacks ≠ []))
    (going : state._stacks.isEmpty = false) :
    ∃ next, Converges (fun _ => match state._stacks with
        | [] => some state
        | stack :: rest => some ((({ state with _stacks := rest }).scanSpecialSlots stack).scanStack
            start.runtime stack)) next ∧
      (Closes start reached held gc next ∧
        Moves start gc next (gc._stacks = [] ∧ next = gc ∨ gc._stacks ≠ [])) ∧
      toLex ((unseen start next.toObjects).card, next._stacks.length) <
        toLex ((unseen start state.toObjects).card, state._stacks.length) := by
  obtain ⟨stack, rest, suspended⟩ :=
    List.exists_cons_of_ne_nil (List.isEmpty_eq_false_iff.mp going)
  obtain ⟨kept, grows, moves⟩ := closes.marking.scanWaiting closed suspended
  simp only [suspended]
  refine ⟨_, .pure _, ⟨⟨kept, closes.grows.trans grows⟩, ?_⟩, ?_⟩
  · refine .trans closes.grows.extends_ grows.extends_ moved moves ?_
    rintro (⟨none, rfl⟩ | some) _
    · rw [none] at suspended
      cases suspended
    · exact Or.inr some
  · refine Moves.lex_lt grows.extends_ moves fun same => ?_
    rw [same, List.length_cons]
    exact Nat.lt_succ_self _

theorem Marking.scanStacks (closed : start.Closed reached)
    (marking : Marking start reached held gc gc._stack) :
    ∃ gc', Converges (fun fuel => gc.scanStacks start.runtime fuel) gc' ∧
      Closes start reached held gc gc' ∧ gc'._stacks = [] ∧
      Moves start gc gc' (gc._stacks = [] ∧ gc' = gc ∨ gc._stacks ≠ []) := by
  obtain ⟨gc', runs, ⟨closes, moved⟩, done⟩ := @Converges.loop_of_measure _ _ _ _
    (fun gc : G1GC => gc._stacks.isEmpty) _
    (fun gc : G1GC => toLex ((unseen start gc.toObjects).card, gc._stacks.length))
    (fun state => Closes start reached held gc state ∧
      Moves start gc state (gc._stacks = [] ∧ state = gc ∨ gc._stacks ≠ []))
    (fun _ kept going => kept.1.scanStack closed kept.2 going) gc
    ⟨⟨marking, .refl gc⟩, Or.inr (by
      by_cases none : gc._stacks = []
      · exact Or.inl ⟨none, rfl⟩
      · exact Or.inr none)⟩
  exact ⟨gc', runs, closes, List.isEmpty_iff.mp done, moved⟩

/-- The stacks that wait, then the work. -/
def G1GC.left (gc : G1GC) : Nat ×ₗ Nat := toLex (gc._stacks.length, gc._stack.length)

theorem Marking.followRound (closed : start.Closed reached)
    (marking : Marking start reached held gc gc._stack)
    (going : (gc._stack.isEmpty && gc._stacks.isEmpty) = false) :
    ∃ gc', Converges (fun fuel => (gc.followObjects start.runtime fuel).bind
        (G1GC.scanStacks start.runtime fuel)) gc' ∧
      Closes start reached held gc gc' ∧ Moves start gc gc' (gc'.left < gc.left) := by
  obtain ⟨traced, runs, follows, none⟩ := marking.followObjects closed
  obtain ⟨scanned, runs', closes, opened, moves⟩ := follows.marking.scanStacks closed
  refine ⟨scanned, runs.bind runs', ⟨closes.marking, follows.grows.trans closes.grows⟩,
    .trans follows.grows.extends_ closes.grows.extends_ follows.moves moves ?_⟩
  rintro same (⟨empty, rfl⟩ | some)
  · have work : gc._stack ≠ [] := by
      rintro nothing
      rw [← same, empty, nothing] at going
      cases going
    simp only [G1GC.left, same, none, Prod.Lex.toLex_lt_toLex]
    exact Or.inr ⟨trivial, List.length_pos_iff.mpr work⟩
  · simp only [G1GC.left, opened, Prod.Lex.toLex_lt_toLex]
    rw [same] at some
    exact Or.inl (List.length_pos_iff.mpr some)

/-- The closure is followed to its end. -/
structure Closed (start : Start) (reached : Nat → Prop) (held : List Nat) (gc gc' : G1GC) : Prop where
  marking : Marking start reached held gc' []
  grows : Grows start gc gc'
  stack : gc'._stack = []
  suspended : gc'._stacks = []
  rooted : ∀ target, Reference.object target ∈ start.gcedRefs →
    (gc'.heap target).hasBeenSeen = true

theorem Marking.followClosure (closed : start.Closed reached) (rooted : Rooted start reached)
    (marking : Marking start reached held gc gc._stack) :
    ∃ gc', Converges (fun fuel => gc.followClosure start.runtime fuel) gc' ∧
      Closed start reached held gc gc' := by
  obtain ⟨kept, grows, seen⟩ := marking.followGCedRefs closed rooted
  have step : ∀ state : G1GC, Closes start reached held (gc.followGCedRefs start.runtime) state →
      (state._stack.isEmpty && state._stacks.isEmpty) = false →
      ∃ next, Converges (fun fuel => (state.followObjects start.runtime fuel).bind
          (G1GC.scanStacks start.runtime fuel)) next ∧
        Closes start reached held (gc.followGCedRefs start.runtime) next ∧
        toLex ((unseen start next.toObjects).card, next.left) <
          toLex ((unseen start state.toObjects).card, state.left) := by
    intro state closes going
    obtain ⟨next, runs, more, moves⟩ := closes.marking.followRound closed going
    exact ⟨next, runs, ⟨more.marking, closes.grows.trans more.grows⟩,
      Moves.lex_lt more.grows.extends_ moves id⟩
  obtain ⟨gc', runs, closes, done⟩ := Converges.loop_of_measure
    (fun gc : G1GC => gc._stack.isEmpty && gc._stacks.isEmpty) _
    (fun gc : G1GC => toLex ((unseen start gc.toObjects).card, gc.left)) step ⟨kept, .refl _⟩
  rw [Bool.and_eq_true, List.isEmpty_iff, List.isEmpty_iff] at done
  refine ⟨gc', runs, ?_, grows.trans closes.grows, done.1, done.2, fun target member => ?_⟩
  · rw [← done.1]
    exact closes.marking
  · exact closes.grows.extends_.seen target (seen target member)

end Egg.Tracing
