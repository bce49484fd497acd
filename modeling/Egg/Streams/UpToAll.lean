import Egg.Streams.ReadStream
import Egg.Strings.SubstringExactness
import Mathlib.Data.Nat.Find

/-! The generic reading up to a delimiter is exact where it meets no element of the delimiter's
start too early; that of streams on collections is exact where its search is. -/
namespace Egg.Streams

open Egg.Data Egg.Strings InternalReadStream

variable {α : Type}

namespace InternalReadStream

structure InBounds (stream : InternalReadStream α) : Prop where
  position : stream.position ≤ stream.limit
  limit : stream.limit ≤ stream.contents.length

/-- The elements behind one position, up to another. -/
def between (self : InternalReadStream α) (start stop : Nat) : List α :=
  (self.contents.take stop).drop start

theorem between_succ {self : InternalReadStream α} {start stop : Nat} {element : α}
    (ordered : start ≤ stop) (here : elementAt self.contents (stop + 1) = some element) :
    self.between start (stop + 1) = self.between start stop ++ [element] := by
  obtain ⟨inside, rfl⟩ := List.getElem?_eq_some_iff.mp (here : self.contents[stop]? = some element)
  rw [between, List.take_succ_eq_append_getElem inside, List.drop_append_of_le_length]
  · rfl
  · rw [List.length_take]
    lia

theorem next_eq {self : InternalReadStream α} {element : α} (inside : self.position < self.limit)
    (here : elementAt self.contents (self.position + 1) = some element) :
    self.next = some (element, self.atPosition (self.position + 1)) := by
  rw [next, if_pos inside, here]
  rfl

theorem between_self (self : InternalReadStream α) (start : Nat) : self.between start start = [] := by
  rw [between, List.drop_eq_nil_iff, List.length_take]
  exact Nat.min_le_left _ _

theorem between_length (self : InternalReadStream α) {start stop : Nat}
    (inside : stop ≤ self.contents.length) : (self.between start stop).length = stop - start := by
  rw [between, List.length_drop, List.length_take, Nat.min_eq_left inside]

variable [BEq α]

/-- What reading up to a delimiter should answer. -/
inductive ReadsUpTo (self : InternalReadStream α) (aCollection : List α) : Reading α → Prop where
  | found {k : Nat}
      (first : FirstOccurrence aCollection self.contents (self.position + 1) self.limit k)
      (positive : 0 < k) :
      ReadsUpTo self aCollection
        (self.between self.position (k - 1), self.atPosition (k - 1 + aCollection.length))
  | absent (nowhere : FirstOccurrence aCollection self.contents (self.position + 1) self.limit 0) :
      ReadsUpTo self aCollection (self.between self.position self.limit, self.atPosition self.limit)

section Generic

variable {self : InternalReadStream α} {aCollection : List α}

/-- The state in which so many elements behind `start` have matched. -/
def window (self : InternalReadStream α) (aCollection : List α) (start matched : Nat)
    (result : List α) : Matching α where
  self := self.atPosition (start + matched)
  pattern := (on aCollection).atPosition matched
  result := result
  aux := self.between start (start + matched)

omit [BEq α] in
theorem window_done {start matched : Nat} {result : List α} :
    (self.window aCollection start matched result).done = true ↔
      self.limit ≤ start + matched ∨ aCollection.length ≤ matched := by
  rw [Matching.done, Bool.or_eq_true]
  exact or_congr decide_eq_true_iff decide_eq_true_iff

omit [BEq α] in
theorem window_going {start matched : Nat} {result : List α} (inside : start + matched < self.limit)
    (within : matched < aCollection.length) :
    (self.window aCollection start matched result).done = false := by
  refine Bool.eq_false_iff.mpr fun ended => ?_
  rcases window_done.mp ended with past | past
  · exact absurd inside (Nat.not_lt_of_le past)
  · exact absurd within (Nat.not_lt_of_le past)

/-- Where the loop ends from one state, it ends from another. -/
def EndsLike (state other : Matching α) : Prop :=
  ∀ final, Converges (fun fuel => loop Matching.done (fun _ matching => matching.step) fuel other)
      final →
    Converges (fun fuel => loop Matching.done (fun _ matching => matching.step) fuel state) final

theorem EndsLike.of_step {state other : Matching α} (going : state.done = false)
    (step : state.step = some other) : EndsLike state other := by
  intro final ends
  refine Converges.loop_step going ?_ ends
  rw [step]
  exact .pure other

theorem EndsLike.trans {state middle other : Matching α} (first : EndsLike state middle)
    (second : EndsLike middle other) : EndsLike state other :=
  fun final ends => first final (second final ends)

/-- The generic reading ends where its loop does. -/
theorem readUpToAll_ends {final : Matching α}
    (ends : Converges (fun fuel => loop Matching.done (fun _ matching => matching.step) fuel
      (self.window aCollection self.position 0 [])) final) :
    Converges (self.readUpToAll aCollection) (final.result, final.self) := by
  have start : self.window aCollection self.position 0 [] =
      { self, pattern := on aCollection, result := [], aux := [] } := by
    rw [window, Nat.add_zero, between_self]
    rfl
  rw [start] at ends
  exact ends.bind (.pure _)

theorem window_ended {start matched : Nat} {result : List α}
    (past : self.limit ≤ start + matched ∨ aCollection.length ≤ matched) :
    Converges (fun fuel => loop Matching.done (fun _ matching => matching.step) fuel
      (self.window aCollection start matched result)) (self.window aCollection start matched result) :=
  Converges.loop_done (window_done.mpr past)

variable [PartialEquivBEq α] {start matched : Nat} {result : List α}

/-- One step compares the next elements. -/
theorem window_step (bounded : self.limit ≤ self.contents.length)
    (inside : start + matched < self.limit) (within : matched < aCollection.length) :
    ∃ element, elementAt self.contents (start + matched + 1) = some element ∧
      (Agrees aCollection self.contents (start + 1) (matched + 1) →
        (self.window aCollection start matched result).step =
          some (self.window aCollection start (matched + 1) result)) ∧
      (¬ Agrees aCollection self.contents (start + 1) (matched + 1) →
        (self.window aCollection start matched result).step =
          some (self.window aCollection (start + 1) 0
            (result ++ self.between start (start + matched + 1)))) := by
  obtain ⟨element, here⟩ := @elementAt_isSome _ self.contents (start + matched + 1) (by lia) (by lia)
  obtain ⟨expected, wanted⟩ := @elementAt_isSome _ aCollection (matched + 1) (by lia) (by lia)
  have there : elementAt self.contents (start + 1 + (matched + 1) - 1) = some element := by
    rw [← here]
    exact congrArg _ (by lia)
  have agrees := agrees_iff wanted there
  have grown := between_succ (Nat.le_add_right start matched) here
  have read := @next_eq _ (self.atPosition (start + matched)) element inside here
  have read' := @next_eq _ ((on aCollection).atPosition matched) expected within wanted
  refine ⟨element, here, fun same => ?_, fun differs => ?_⟩
  · rw [Matching.step, window, read]
    simp only [Option.bind_eq_bind, Option.bind_some, read', if_pos (BEq.symm (agrees.mp same))]
    rw [← grown]
    rfl
  · have back := @between_length _ self start (start + matched) (by lia)
    have moved : start + matched + 1 - (start + matched - start) = start + 1 := by lia
    rw [Matching.step, window, read]
    simp only [Option.bind_eq_bind, Option.bind_some, read',
      if_neg fun same => differs (agrees.mpr (BEq.symm same))]
    rw [List.append_assoc, ← grown, window, between_self]
    simp only [atPosition, back, moved]
    rfl

/-- Where the delimiter occurs, it is matched to its end. -/
theorem window_matches (bounded : self.limit ≤ self.contents.length)
    (occurs : OccursAt aCollection self.contents (start + 1))
    (inside : start + aCollection.length ≤ self.limit) {count : Nat}
    (rest : matched + count = aCollection.length) :
    EndsLike (self.window aCollection start matched result)
      (self.window aCollection start aCollection.length result) := by
  induction count generalizing matched with
  | zero =>
    obtain rfl : matched = aCollection.length := rest
    exact fun final ends => ends
  | succ count ih =>
    have here : start + matched < self.limit := by lia
    have within : matched < aCollection.length := by lia
    obtain ⟨element, -, matches_, -⟩ := @window_step _ _ self aCollection _ start matched result
      bounded here within
    have step := matches_ (occurs (matched + 1) (by lia) within)
    exact (EndsLike.of_step (window_going here within) step).trans (ih (by lia))

/-- Where the delimiter does not occur, the stream moves back behind the window's first element; what
matched is read again. -/
theorem window_differs (bounded : self.limit ≤ self.contents.length)
    (differs : ¬ OccursAt aCollection self.contents (start + 1))
    (inside : start + aCollection.length ≤ self.limit) {count : Nat}
    (rest : matched + count = aCollection.length)
    (agreed : ∀ i, 1 ≤ i → i ≤ matched → Agrees aCollection self.contents (start + 1) i) :
    ∃ j, j < aCollection.length ∧ ¬ Agrees aCollection self.contents (start + 1) (j + 1) ∧
      EndsLike (self.window aCollection start matched result)
        (self.window aCollection (start + 1) 0
          (result ++ self.between start (start + j + 1))) := by
  induction count generalizing matched with
  | zero => exact absurd (fun i first last => agreed i first (by lia)) differs
  | succ count ih =>
    have here : start + matched < self.limit := by lia
    have within : matched < aCollection.length := by lia
    obtain ⟨element, -, same, other⟩ := @window_step _ _ self aCollection _ start matched result
      bounded here within
    by_cases next : Agrees aCollection self.contents (start + 1) (matched + 1)
    · obtain ⟨j, before, apart, ends⟩ := @ih (matched + 1) (by lia) (by
        intro i first last
        by_cases new : i = matched + 1
        · exact new ▸ next
        · exact agreed i first (by lia))
      exact ⟨j, before, apart, (EndsLike.of_step (window_going here within) (same next)).trans ends⟩
    · exact ⟨matched, within, next, EndsLike.of_step (window_going here within) (other next)⟩

/-- No element before the first occurrence of the delimiter, and without one no element at all,
is the delimiter's first. -/
def NoEarlyStart (self : InternalReadStream α) (aCollection : List α) : Prop :=
  ∀ j, self.position < j → j ≤ self.limit → Agrees aCollection self.contents j 1 →
    ∃ k, self.position < k ∧ k ≤ j ∧ k + aCollection.length - 1 ≤ self.limit ∧
      OccursAt aCollection self.contents k

/-- Elements that do not start the delimiter are read as they are. -/
theorem windows_pass (bounds : self.InBounds) (nonempty : 0 < aCollection.length) {count stop : Nat}
    (reached : stop = self.position + count) (inside : stop ≤ self.limit)
    (apart : ∀ j, self.position < j → j ≤ stop → ¬ Agrees aCollection self.contents j 1) :
    EndsLike (self.window aCollection self.position 0 [])
      (self.window aCollection stop 0 (self.between self.position stop)) := by
  induction count generalizing stop with
  | zero =>
    obtain rfl : stop = self.position := reached
    rw [between_self]
    exact fun final ends => ends
  | succ count ih =>
    obtain ⟨start, rfl⟩ : ∃ start, stop = start + 1 := ⟨self.position + count, reached⟩
    have earlier := @ih start (by lia) (by lia) fun j after before =>
      apart j after (by lia)
    have here : start + 0 < self.limit := by lia
    obtain ⟨element, next, -, other⟩ := @window_step _ _ self aCollection _ start 0
      (self.between self.position start) bounds.limit here nonempty
    have step := other (apart (start + 1) (by lia) le_rfl)
    have grown := @between_succ _ self self.position start element (by lia) next
    have single := @between_succ _ self start start element le_rfl next
    rw [between_self, List.nil_append] at single
    rw [show start + 0 + 1 = start + 1 from rfl] at step grown
    rw [single, ← grown] at step
    exact earlier.trans (EndsLike.of_step (window_going here nonempty) step)

/-- Without an early start the generic reading is exact. -/
theorem readUpToAll_exact (bounds : self.InBounds) (nonempty : 0 < aCollection.length)
    (apart : NoEarlyStart self aCollection) :
    ∃ answer, Converges (self.readUpToAll aCollection) answer ∧
      ReadsUpTo self aCollection answer := by
  by_cases occurs : ∃ k, self.position < k ∧ k + aCollection.length - 1 ≤ self.limit ∧
      OccursAt aCollection self.contents k
  · classical
    obtain ⟨after, fits, here⟩ := Nat.find_spec occurs
    have least := fun j before => Nat.find_min occurs (m := j) before
    generalize Nat.find occurs = k at after fits here least
    obtain ⟨start, rfl⟩ : ∃ start, k = start + 1 := ⟨k - 1, by lia⟩
    have early : ∀ j, self.position < j → j ≤ start → ¬ Agrees aCollection self.contents j 1 := by
      intro j behind before agrees
      obtain ⟨k', after', before', fits', here'⟩ := apart j behind (by lia) agrees
      exact least k' (by lia) ⟨after', fits', here'⟩
    have passes := @windows_pass _ _ self aCollection _ bounds nonempty (start - self.position) start
      (by lia) (by lia) early
    have matches_ := @window_matches _ _ self aCollection _ start 0 (self.between self.position start)
      bounds.limit here (by lia) _ (Nat.zero_add aCollection.length)
    have ends := readUpToAll_ends (passes _ (matches_ _ (window_ended (.inr le_rfl))))
    refine ⟨_, ends, ?_⟩
    refine ReadsUpTo.found (.found after fits here fun j from_ before found => ?_) (Nat.succ_pos start)
    exact least j before ⟨from_, by lia, found⟩
  · have none : ∀ j, self.position < j → j ≤ self.limit →
        ¬ Agrees aCollection self.contents j 1 := by
      intro j behind before agrees
      obtain ⟨k, after, -, fits, here⟩ := apart j behind before agrees
      exact occurs ⟨k, after, fits, here⟩
    have passes := @windows_pass _ _ self aCollection _ bounds nonempty
      (self.limit - self.position) self.limit (by have := bounds.position; lia) le_rfl none
    have ends := readUpToAll_ends (passes _ (window_ended (.inl le_rfl)))
    refine ⟨_, ends, .absent (.absent fun j from_ fits here => ?_)⟩
    exact occurs ⟨j, from_, fits, here⟩

/-- Every window adds its first element to the result, and what matched besides. -/
theorem windows_grow (bounded : self.limit ≤ self.contents.length)
    {count stop : Nat} (reached : stop = self.position + count)
    (inside : stop + aCollection.length ≤ self.limit + 1)
    (differs : ∀ k, self.position < k → k ≤ stop → ¬ OccursAt aCollection self.contents k) :
    ∃ result, EndsLike (self.window aCollection self.position 0 [])
        (self.window aCollection stop 0 result) ∧ count ≤ result.length ∧
      ∀ j, self.position < j → j ≤ stop → Agrees aCollection self.contents j 1 →
        count < result.length := by
  induction count generalizing stop with
  | zero =>
    obtain rfl : stop = self.position := reached
    exact ⟨[], fun final ends => ends, le_rfl, fun j after before => absurd after (by lia)⟩
  | succ count ih =>
    obtain ⟨start, rfl⟩ : ∃ start, stop = start + 1 := ⟨self.position + count, reached⟩
    obtain ⟨result, ends, long, longer⟩ := @ih start (by lia) (by lia) fun k after before =>
      differs k after (by lia)
    obtain ⟨j, before, apart, further⟩ := @window_differs _ _ self aCollection _ start 0 result bounded
      (differs (start + 1) (by lia) le_rfl) (by lia) _ (Nat.zero_add aCollection.length)
      fun i first last => absurd first (by lia)
    have added := @between_length _ self start (start + j + 1) (by lia)
    refine ⟨_, ends.trans further, ?_, fun j' after before' agrees => ?_⟩
    · rw [List.length_append, added]
      lia
    · rw [List.length_append, added]
      by_cases new : j' = start + 1
      · have positive : 0 < j := by
          refine Nat.pos_of_ne_zero fun zero => apart ?_
          rw [zero, ← new]
          exact agrees
        lia
      · have old := longer j' after (by lia) agrees
        lia

/-- Where the delimiter occurs, the generic reading is exact only without an early start. -/
theorem noEarlyStart_of_exact (bounds : self.InBounds) (nonempty : 0 < aCollection.length)
    {k : Nat} (first : FirstOccurrence aCollection self.contents (self.position + 1) self.limit k)
    (positive : 0 < k) {answer : Reading α} (ends : Converges (self.readUpToAll aCollection) answer)
    (exact_ : ReadsUpTo self aCollection answer) : NoEarlyStart self aCollection := by
  cases first with
  | absent => cases positive
  | found after fits here least =>
    intro j behind before agrees
    by_cases later : k ≤ j
    · exact ⟨k, after, later, fits, here⟩
    · obtain ⟨start, rfl⟩ : ∃ start, k = start + 1 := ⟨k - 1, by lia⟩
      obtain ⟨result, passes, -, longer⟩ := @windows_grow _ _ self aCollection _ bounds.limit
        (start - self.position) start (by lia) (by lia) fun k' after' before' =>
          least k' after' (by lia)
      have matches_ := @window_matches _ _ self aCollection _ start 0 result bounds.limit here (by lia) _
        (Nat.zero_add aCollection.length)
      have ends' := readUpToAll_ends (passes _ (matches_ _ (window_ended (.inr le_rfl))))
      have same := ends.unique ends'
      have long := longer j behind (by lia) agrees
      have first := FirstOccurrence.found after fits here least
      cases exact_ with
      | absent nowhere => cases first.unique nowhere
      | found first' =>
        obtain rfl := first.unique first'
        have read : self.between self.position (start + 1 - 1) = result :=
          congrArg Prod.fst same
        rw [← read, between_length _ (by have := bounds.limit; lia)] at long
        exact absurd long (by lia)

end Generic

end InternalReadStream

end Egg.Streams
