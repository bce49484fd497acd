import Mathlib.Data.List.Perm.Basic
import Mathlib.Data.List.Nodup
import Mathlib.Data.List.Pairwise
import Mathlib.Data.List.Range
import Mathlib.Logic.Function.Basic
import Mathlib.Tactic.Common

/-! Tables with open addressing and linear probing, and deletion by moving entries back. -/
namespace Egg.Data.LinearProbing

/-- A position lies on the way from one to another, going round. -/
def Between (first position last : Nat) : Prop :=
  (first ≤ last ∧ first ≤ position ∧ position ≤ last) ∨
    (last < first ∧ (first ≤ position ∨ position ≤ last))

def next (size position : Nat) : Nat :=
  if position + 1 = size then 0 else position + 1

/-- How many steps lead from one position to another. -/
def gap (size first last : Nat) : Nat :=
  if first ≤ last then last - first else size + last - first

/-- The first position from `start` on, going round, where something holds. -/
structure First (size : Nat) (holds : Nat → Prop) (start found : Nat) : Prop where
  inside : found < size
  here : holds found
  before : ∀ position, position < size → Between start position found → position ≠ found →
    ¬ holds position

theorem next_lt {size position : Nat} (inside : position < size) : next size position < size := by
  unfold next
  split <;> lia

theorem gap_next {size position last : Nat} (inside : position < size) (bounded : last < size)
    (other : position ≠ last) : gap size (next size position) last + 1 = gap size position last := by
  unfold gap next
  split_ifs <;> lia

theorem gap_lt {size first last : Nat} (inside : first < size) (bounded : last < size) :
    gap size first last < size := by
  unfold gap
  split_ifs <;> lia

theorem Between.total (first left right : Nat) :
    Between first left right ∨ Between first right left := by
  unfold Between
  lia

theorem Between.refl (first last : Nat) : Between first last last := by
  unfold Between
  lia

theorem Between.first (first last : Nat) : Between first first last := by
  unfold Between
  lia

section Between

variable {first middle position last stop size current : Nat}

theorem Between.antisymm (near : Between first position last) (far : Between first last position) :
    position = last := by
  unfold Between at near far
  lia

theorem Between.trans (near : Between first position middle) (far : Between first middle last) :
    Between first position last := by
  unfold Between at *
  lia

/-- The rest of a way belongs to the way. -/
theorem Between.rest (way : Between first middle last) (behind : Between middle position last) :
    Between first position last := by
  unfold Between at *
  lia

/-- A way that goes past where another one ends goes through that end. -/
theorem Between.past (way : Between first middle last) (beyond : ¬ Between middle last stop) :
    Between first stop last :=
  way.rest ((Between.total middle stop last).resolve_right beyond)

theorem Between.of_next (bound : stop < size) (other : current ≠ stop)
    (between : Between (LinearProbing.next size current) position stop) :
    Between current position stop ∧ position ≠ current := by
  unfold Between LinearProbing.next at *
  split at between <;> lia

theorem Between.next (below : position < size) (between : Between current position stop)
    (other : position ≠ current) : Between (LinearProbing.next size current) position stop := by
  unfold Between LinearProbing.next at *
  split <;> lia

end Between

/-- Searching goes on from the next position when nothing is found here. -/
theorem First.step {size start found : Nat} {holds : Nat → Prop} (missing : ¬ holds start)
    (first : First size holds (next size start) found) : First size holds start found where
  inside := first.inside
  here := first.here
  before position bounded between other := by
    by_cases same : position = start
    · exact same ▸ missing
    · have bound := first.inside
      refine first.before position bounded ?_ other
      have apart : start ≠ found := fun equal => missing (equal ▸ first.here)
      unfold Between next at *
      split_ifs <;> lia

/-- Going round from any position, something that holds somewhere holds first somewhere. -/
theorem exists_first (holds : Nat → Prop) {size start witness : Nat} (inside : start < size)
    (witnessInside : witness < size) (witnessed : holds witness) :
    ∃ found, First size holds start found := by
  induction steps : gap size start witness generalizing start with
  | zero =>
    have same : start = witness := by
      unfold gap at steps
      split_ifs at steps <;> lia
    refine ⟨witness, witnessInside, witnessed, fun position _ between other => ?_⟩
    unfold Between at between
    lia
  | succ steps ih =>
    by_cases here : holds start
    · refine ⟨start, inside, here, fun position _ between other => ?_⟩
      unfold Between at between
      lia
    · have other : start ≠ witness := by
        rintro rfl
        exact here witnessed
      have nearer := gap_next inside witnessInside other
      obtain ⟨found, first⟩ := ih (next_lt inside) (by lia)
      exact ⟨found, first.step here⟩

/-- How many positions a search that began at `first` can still look at. -/
def remaining (size first position : Nat) : Nat :=
  if position = first then size else gap size position first

theorem remaining_next {size first position : Nat} (inside : position < size)
    (firstInside : first < size) (other : next size position ≠ first) :
    remaining size first (next size position) + 1 = remaining size first position := by
  unfold remaining gap next at *
  split_ifs at * <;> lia

theorem remaining_last {size first position : Nat}
    (last : next size position = first) : remaining size first position = 1 := by
  unfold remaining gap next at *
  split_ifs at * <;> lia

variable {Entry : Type} {size : Nat} {home : Entry → Nat} {cells : Nat → Option Entry}

/-- Every entry is reached from its home without meeting an empty cell. -/
structure Probed (size : Nat) (home : Entry → Nat) (cells : Nat → Option Entry) : Prop where
  bounded : ∀ position entry, position < size → cells position = some entry → home entry < size
  reached : ∀ position entry, position < size → cells position = some entry →
    ∀ passed, passed < size → Between (home entry) passed position → cells passed ≠ none

theorem Probed.empty : Probed size home (fun _ => none) where
  bounded _ _ _ found := by cases found
  reached _ _ _ found := by cases found

/-- A search for what has its home at `start` finds it, or an empty cell when it is nowhere. -/
theorem Probed.lookup (probed : Probed size home cells) {wanted : Entry → Prop}
    {start found : Nat} (starts : ∀ entry, wanted entry → home entry = start)
    (first : First size
      (fun position => cells position = none ∨ ∃ entry, cells position = some entry ∧ wanted entry)
      start found) :
    (∃ entry, cells found = some entry ∧ wanted entry) ∨
      (cells found = none ∧
        ∀ position entry, position < size → cells position = some entry → ¬ wanted entry) := by
  rcases first.here with vacant | present
  · refine .inr ⟨vacant, fun position entry inside occupied want => ?_⟩
    have way := probed.reached position entry inside occupied
    rw [starts entry want] at way
    rcases Between.total start found position with past | under
    · exact way found first.inside past vacant
    · have other : position ≠ found := by
        rintro rfl
        rw [vacant] at occupied
        cases occupied
      exact first.before position inside under other (.inr ⟨entry, occupied, want⟩)
  · exact .inl present

/-- An entry may be put where the way from its home has no empty cell. -/
theorem Probed.put (probed : Probed size home cells) {entry : Entry} {found : Nat}
    (inside : home entry < size)
    (way : ∀ position, position < size → Between (home entry) position found →
      position ≠ found → cells position ≠ none) :
    Probed size home (Function.update cells found (some entry)) where
  bounded position other bound occupied := by
    by_cases same : position = found
    · subst same
      rw [Function.update_self] at occupied
      obtain rfl := Option.some.inj occupied
      exact inside
    · rw [Function.update_of_ne same] at occupied
      exact probed.bounded position other bound occupied
  reached position other bound occupied passed below between := by
    by_cases hit : passed = found
    · rw [hit, Function.update_self]
      exact Option.some_ne_none _
    · rw [Function.update_of_ne hit]
      by_cases same : position = found
      · subst same
        rw [Function.update_self] at occupied
        obtain rfl := Option.some.inj occupied
        exact way passed below between hit
      · rw [Function.update_of_ne same] at occupied
        exact probed.reached position other bound occupied passed below between

/-- An entry goes to the cell where the search for it ends. -/
theorem Probed.insert (probed : Probed size home cells) {entry : Entry} {found : Nat}
    {holds : Nat → Prop} (inside : home entry < size)
    (empty : ∀ position, cells position = none → holds position)
    (first : First size holds (home entry) found) :
    Probed size home (Function.update cells found (some entry)) :=
  probed.put inside fun position bound between other vacant =>
    first.before position bound between other (empty position vacant)

/-- An entry may be replaced by one with the same home. -/
theorem Probed.replace (probed : Probed size home cells) {old new : Entry} {position : Nat}
    (inside : position < size) (occupied : cells position = some old)
    (same : home new = home old) :
    Probed size home (Function.update cells position (some new)) := by
  refine probed.put (same ▸ probed.bounded position old inside occupied) ?_
  rw [same]
  exact fun passed bound between _ => probed.reached position old inside occupied passed bound between

/-- A deletion on its way: the cells from `current` to the empty one at `stop` are still to be
looked at, and of those passed only `hole` was emptied. -/
structure Shifting (size : Nat) (home : Entry → Nat) (cells : Nat → Option Entry)
    (hole current stop : Nat) : Prop where
  holeInside : hole < size
  currentInside : current < size
  stopInside : stop < size
  holeEmpty : cells hole = none
  stopEmpty : cells stop = none
  apart : hole ≠ stop
  bounded : ∀ position entry, position < size → cells position = some entry → home entry < size
  ahead : ∀ position, position < size → Between current position stop → position ≠ stop →
    cells position ≠ none
  settled : ∀ position entry, position < size → cells position = some entry →
    ¬ Between current position stop →
    ∀ passed, passed < size → Between (home entry) passed position → cells passed ≠ none
  pending : ∀ position entry, position < size → cells position = some entry →
    Between current position stop →
    ∀ passed, passed < size → Between (home entry) passed position → cells passed = none →
      passed = hole

/-- Clearing a cell leaves a hole; the next empty cell is where moving back will stop. -/
theorem Shifting.start (probed : Probed size home cells) {removed stop : Nat}
    (inside : removed < size) (apart : removed ≠ stop)
    (first : First size (fun position => cells position = none) (next size removed) stop) :
    Shifting size home (Function.update cells removed none) removed (next size removed) stop := by
  have bound := first.inside
  have kept : ∀ {position entry},
      Function.update cells removed none position = some entry →
        position ≠ removed ∧ cells position = some entry := by
    intro position entry occupied
    by_cases same : position = removed
    · rw [same, Function.update_self] at occupied
      cases occupied
    · rw [Function.update_of_ne same] at occupied
      exact ⟨same, occupied⟩
  refine {
    holeInside := inside
    currentInside := next_lt inside
    stopInside := bound
    holeEmpty := Function.update_self ..
    stopEmpty := by rw [Function.update_of_ne apart.symm]; exact first.here
    apart := apart
    bounded := fun position entry below occupied =>
      probed.bounded position entry below (kept occupied).2
    ahead := ?_
    settled := ?_
    pending := ?_ }
  · intro position below between other
    have elsewhere := (Between.of_next bound apart between).2
    rw [Function.update_of_ne elsewhere]
    exact first.before position below between other
  · intro position entry below occupied passedBy passed under between
    obtain ⟨elsewhere, was⟩ := kept occupied
    have way := probed.reached position entry below was
    by_cases hit : passed = removed
    · -- the way through the removed cell would also go through the empty one at `stop`
      subst hit
      have beyond : ¬ Between passed position stop :=
        fun still => passedBy (still.next below elsewhere)
      exact absurd first.here (way stop bound (between.past beyond))
    · rw [Function.update_of_ne hit]
      exact way passed under between
  · intro position entry below occupied _ passed under between vacant
    obtain ⟨_, was⟩ := kept occupied
    by_contra hit
    rw [Function.update_of_ne hit] at vacant
    exact probed.reached position entry below was passed under between vacant

/-- Nothing is left to move when the empty cell is reached. -/
theorem Shifting.done {hole stop : Nat} (shifting : Shifting size home cells hole stop stop) :
    Probed size home cells where
  bounded := shifting.bounded
  reached position entry below occupied := by
    refine shifting.settled position entry below occupied fun between => ?_
    have same : position = stop := by
      unfold Between at between
      lia
    rw [same, shifting.stopEmpty] at occupied
    cases occupied

/-- The search for an entry on the way ends at the hole, if that lies between its home and its
cell, and else at the entry itself. -/
theorem Shifting.found {hole current stop found : Nat}
    (shifting : Shifting size home cells hole current stop) {entry : Entry}
    (occupied : cells current = some entry) {wanted : Entry → Prop} (self : wanted entry)
    (unique : ∀ position other, position < size → cells position = some other → wanted other →
      position = current)
    (first : First size
      (fun position => cells position = none ∨ ∃ other, cells position = some other ∧ wanted other)
      (home entry) found) :
    (found = hole ∧ Between (home entry) hole current) ∨
      (found = current ∧ ¬ Between (home entry) hole current) := by
  have onTheWay := Between.first current stop
  have inside := shifting.currentInside
  have bound := first.inside
  have apart : hole ≠ current := by
    rintro rfl
    rw [shifting.holeEmpty] at occupied
    cases occupied
  have notBefore : Between (home entry) current found → current = found := fun between => by
    by_contra other
    exact first.before current inside between other (.inr ⟨entry, occupied, self⟩)
  rcases first.here with vacant | ⟨other, present, want⟩
  · have under : Between (home entry) found current := by
      rcases Between.total (home entry) found current with hit | miss
      · exact hit
      · rw [notBefore miss]
        exact Between.refl _ _
    have same := shifting.pending current entry inside occupied onTheWay found bound under vacant
    exact .inl ⟨same, same ▸ under⟩
  · have same := unique found other bound present want
    refine .inr ⟨same, fun between => ?_⟩
    exact first.before hole shifting.holeInside (same ▸ between) (same ▸ apart)
      (.inl shifting.holeEmpty)

/-- An entry whose way has no hole stays. -/
theorem Shifting.keep {hole current stop : Nat}
    (shifting : Shifting size home cells hole current stop) (other : current ≠ stop)
    {entry : Entry} (occupied : cells current = some entry)
    (whole : ¬ Between (home entry) hole current) :
    Shifting size home cells hole (next size current) stop := by
  have inside := shifting.currentInside
  have bound := shifting.stopInside
  refine { shifting with
    currentInside := next_lt inside
    ahead := fun position below between =>
      shifting.ahead position below (Between.of_next bound other between).1
    settled := ?_
    pending := fun position entry below was between =>
      shifting.pending position entry below was (Between.of_next bound other between).1 }
  intro position here below was passedBy passed under between vacant
  by_cases same : position = current
  · subst same
    obtain rfl := Option.some.inj (occupied.symm.trans was)
    have onTheWay := Between.first position stop
    have hit := shifting.pending position entry inside was onTheWay passed under between vacant
    exact whole (hit ▸ between)
  · exact shifting.settled position here below was
      (fun still => passedBy (still.next below same)) passed under between vacant

section Moving

variable {hole current stop : Nat} {entry : Entry}

/-- The cells after the entry at `current` was moved to the hole. -/
def movedBack (cells : Nat → Option Entry) (hole current : Nat) (entry : Entry) :
    Nat → Option Entry :=
  Function.update (Function.update cells current none) hole (some entry)

theorem movedBack_hole : movedBack cells hole current entry hole = some entry :=
  Function.update_self ..

theorem movedBack_current (apart : hole ≠ current) :
    movedBack cells hole current entry current = none := by
  rw [movedBack, Function.update_of_ne apart.symm, Function.update_self]

theorem movedBack_other {position : Nat} (notHole : position ≠ hole)
    (notCurrent : position ≠ current) :
    movedBack cells hole current entry position = cells position := by
  rw [movedBack, Function.update_of_ne notHole, Function.update_of_ne notCurrent]

/-- What is in the cells afterwards was there, or is the entry that was moved. -/
theorem movedBack_kept (apart : hole ≠ current) {position : Nat} {here : Entry}
    (was : movedBack cells hole current entry position = some here) :
    position ≠ current ∧
      ((position = hole ∧ here = entry) ∨ (position ≠ hole ∧ cells position = some here)) := by
  have notCurrent : position ≠ current := by
    rintro rfl
    rw [movedBack_current apart] at was
    cases was
  by_cases same : position = hole
  · subst same
    rw [movedBack_hole] at was
    exact ⟨notCurrent, .inl ⟨rfl, (Option.some.inj was).symm⟩⟩
  · rw [movedBack_other same notCurrent] at was
    exact ⟨notCurrent, .inr ⟨same, was⟩⟩

theorem movedBack_emptied {passed : Nat}
    (vacant : movedBack cells hole current entry passed = none) :
    passed = current ∨ (passed ≠ hole ∧ cells passed = none) := by
  by_cases same : passed = current
  · exact .inl same
  · have notHole : passed ≠ hole := by
      rintro rfl
      rw [movedBack_hole] at vacant
      cases vacant
    rw [movedBack_other notHole same] at vacant
    exact .inr ⟨notHole, vacant⟩

/-- The moved entry is nearer to its home, and the hole was the only empty cell on its way. -/
theorem Shifting.move_reached (shifting : Shifting size home cells hole current stop)
    (apart : hole ≠ current) (occupied : cells current = some entry)
    (through : Between (home entry) hole current) {passed : Nat} (under : passed < size)
    (between : Between (home entry) passed hole) :
    movedBack cells hole current entry passed ≠ none := by
  intro vacant
  rcases movedBack_emptied vacant with rfl | ⟨notHole, wasEmpty⟩
  · exact apart (through.antisymm between)
  · exact notHole (shifting.pending current entry shifting.currentInside occupied
      (Between.first current stop) passed under (between.trans through) wasEmpty)

/-- An entry that was passed keeps its way: through the new hole it would go on to the empty cell
at `stop`. -/
theorem Shifting.move_passed (shifting : Shifting size home cells hole current stop)
    {position : Nat} {here : Entry} (below : position < size) (notCurrent : position ≠ current)
    (before : cells position = some here)
    (passedBy : ¬ Between (LinearProbing.next size current) position stop) {passed : Nat}
    (under : passed < size) (between : Between (home here) passed position) :
    movedBack cells hole current entry passed ≠ none := by
  intro vacant
  have beyond : ¬ Between current position stop :=
    fun still => passedBy (still.next below notCurrent)
  have way := shifting.settled position here below before beyond
  rcases movedBack_emptied vacant with rfl | ⟨-, wasEmpty⟩
  · exact way stop shifting.stopInside (between.past beyond) shifting.stopEmpty
  · exact way passed under between wasEmpty

/-- An entry whose way goes through the hole moves there and leaves a hole behind. -/
theorem Shifting.move (shifting : Shifting size home cells hole current stop)
    (other : current ≠ stop) (occupied : cells current = some entry)
    (through : Between (home entry) hole current) :
    Shifting size home (Function.update (Function.update cells current none) hole (some entry))
      current (next size current) stop := by
  have inside := shifting.currentInside
  have bound := shifting.stopInside
  have apart : hole ≠ current := by
    rintro rfl
    rw [shifting.holeEmpty] at occupied
    cases occupied
  have notHole : ∀ position, Between current position stop → position ≠ hole := by
    rintro position between rfl
    exact shifting.ahead position shifting.holeInside between shifting.apart shifting.holeEmpty
  refine {
    holeInside := inside
    currentInside := next_lt inside
    stopInside := bound
    holeEmpty := movedBack_current apart
    stopEmpty := (movedBack_other shifting.apart.symm other.symm).trans shifting.stopEmpty
    apart := other
    bounded := ?_
    ahead := ?_
    settled := ?_
    pending := ?_ }
  · intro position here below was
    rcases (movedBack_kept apart was).2 with ⟨-, rfl⟩ | ⟨-, before⟩
    · exact shifting.bounded current here inside occupied
    · exact shifting.bounded position here below before
  · intro position below between notStop
    obtain ⟨still, notCurrent⟩ := Between.of_next bound other between
    have same := @movedBack_other _ cells _ _ entry _ (notHole position still) notCurrent
    exact same.trans_ne (shifting.ahead position below still notStop)
  · intro position here below was passedBy passed under between
    obtain ⟨notCurrent, place⟩ := movedBack_kept apart was
    rcases place with ⟨rfl, rfl⟩ | ⟨-, before⟩
    · exact shifting.move_reached apart occupied through under between
    · exact shifting.move_passed below notCurrent before passedBy under between
  · intro position here below was between passed under passes vacant
    obtain ⟨still, -⟩ := Between.of_next bound other between
    rcases (movedBack_kept apart was).2 with ⟨same, -⟩ | ⟨-, before⟩
    · exact absurd same (notHole position still)
    · rcases movedBack_emptied vacant with same | ⟨passedNotHole, wasEmpty⟩
      · exact same
      · exact absurd (shifting.pending position here below before still passed under passes wasEmpty)
          passedNotHole

end Moving

/-- The entries of the cells, in order. -/
def entries (size : Nat) (cells : Nat → Option Entry) : List Entry :=
  (List.range size).filterMap cells

theorem mem_entries {entry : Entry} :
    entry ∈ entries size cells ↔ ∃ position, position < size ∧ cells position = some entry := by
  simp only [entries, List.mem_filterMap, List.mem_range]

theorem entries_length_le : (entries size cells).length ≤ size := by
  simpa [entries] using List.length_filterMap_le cells (List.range size)

/-- Filling an empty cell adds its entry. -/
theorem entries_fill (cells : Nat → Option Entry) {position : Nat} (inside : position < size)
    (vacant : cells position = none) (entry : Entry) :
    (entries size (Function.update cells position (some entry))).Perm
      (entry :: entries size cells) := by
  obtain ⟨before, after, split⟩ := List.append_of_mem (List.mem_range.mpr inside)
  have nodup : (before ++ position :: after).Nodup := split ▸ List.nodup_range
  have elsewhere : ∀ other ∈ before ++ after, other ≠ position := by
    intro other member same
    subst same
    exact (List.nodup_middle.mp nodup).notMem member
  have same : ∀ part : List Nat, (∀ other ∈ part, other ≠ position) →
      part.filterMap (Function.update cells position (some entry)) = part.filterMap cells :=
    fun part apart => List.filterMap_congr fun other member =>
      Function.update_of_ne (apart other member) _ _
  rw [entries, entries, split, List.filterMap_append, List.filterMap_append,
    List.filterMap_cons_some (Function.update_self ..), List.filterMap_cons_none vacant,
    same before fun other member => elsewhere other (List.mem_append_left _ member),
    same after fun other member => elsewhere other (List.mem_append_right _ member)]
  exact List.perm_middle

/-- Clearing a cell removes its entry. -/
theorem entries_clear {position : Nat} (inside : position < size) {entry : Entry}
    (occupied : cells position = some entry) :
    (entries size cells).Perm (entry :: entries size (Function.update cells position none)) := by
  have filled := entries_fill (Function.update cells position none) inside
    (Function.update_self ..) entry
  rwa [Function.update_idem, ← occupied, Function.update_eq_self] at filled

/-- Overwriting a cell is clearing it and filling it. -/
theorem entries_replace (cells : Nat → Option Entry) {position : Nat} (inside : position < size) (new : Entry) :
    (entries size (Function.update cells position (some new))).Perm
      (new :: entries size (Function.update cells position none)) := by
  have filled := entries_fill (Function.update cells position none) inside
    (Function.update_self ..) new
  rwa [Function.update_idem] at filled

/-- Moving an entry to an empty cell changes their order only. -/
theorem entries_move {source target : Nat} (sourceInside : source < size)
    (targetInside : target < size) {entry : Entry} (occupied : cells source = some entry)
    (vacant : cells target = none) :
    (entries size (Function.update (Function.update cells source none) target (some entry))).Perm
      (entries size cells) := by
  have apart : target ≠ source := by
    rintro rfl
    rw [vacant] at occupied
    cases occupied
  have empty : Function.update cells source none target = none := by
    rw [Function.update_of_ne apart, vacant]
  exact (entries_fill _ targetInside empty entry).trans (entries_clear sourceInside occupied).symm

/-- With fewer entries than cells some cell is empty. -/
theorem exists_empty (room : (entries size cells).length < size) :
    ∃ position, position < size ∧ cells position = none := by
  by_contra full
  have occupied : ∀ position ∈ List.range size, (cells position).isSome := by
    intro position member
    rw [Option.isSome_iff_ne_none]
    exact fun vacant => full ⟨position, List.mem_range.mp member, vacant⟩
  have length : (entries size cells).length = size := by
    rw [entries, List.length_filterMap_eq_countP, List.countP_eq_length.mpr occupied,
      List.length_range]
  lia

/-- Entries that are pairwise different are in one cell each. -/
theorem position_unique {same : Entry → Entry → Prop} (symmetric : ∀ {left right},
      same left right → same right left)
    (distinct : (entries size cells).Pairwise fun left right => ¬ same left right)
    {first second : Nat} {left right : Entry} (firstInside : first < size)
    (secondInside : second < size) (foundFirst : cells first = some left)
    (foundSecond : cells second = some right) (equal : same left right) : first = second := by
  rw [entries, List.pairwise_filterMap] at distinct
  have ordered : ∀ {low high : Nat}, low < high → high < size →
      ∀ {lower higher}, cells low = some lower → cells high = some higher →
        ¬ same lower higher := by
    intro low high less bound lower higher foundLow foundHigh
    have at_ := List.pairwise_iff_getElem.mp distinct low high (by simpa using Nat.lt_trans less bound)
      (by simpa using bound) less
    simp only [List.getElem_range] at at_
    exact at_ lower foundLow higher foundHigh
  rcases Nat.lt_trichotomy first second with less | equalPositions | greater
  · exact absurd equal (ordered less secondInside foundFirst foundSecond)
  · exact equalPositions
  · exact absurd (symmetric equal) (ordered greater firstInside foundSecond foundFirst)

end Egg.Data.LinearProbing
