import Egg.Streams.UpToAll
import Mathlib.Data.List.Forall2

/-! Reading up to a delimiter on streams on collections, and through it. -/
namespace Egg.Streams

open Egg.Data Egg.Strings InternalReadStream

variable {α : Type}

namespace InternalReadStream

section Reading

variable {self : InternalReadStream α}

theorem between_append {start middle stop : Nat} (first : start ≤ middle) (second : middle ≤ stop)
    (inside : stop ≤ self.contents.length) :
    self.between start middle ++ self.between middle stop = self.between start stop := by
  have split : self.contents.take stop =
      self.contents.take middle ++ self.between middle stop := by
    have halves := List.take_append_drop middle (self.contents.take stop)
    rw [List.take_take, Nat.min_eq_left second] at halves
    exact halves.symm
  have whole : self.between start middle ++ self.between middle stop =
      (self.contents.take middle ++ self.between middle stop).drop start := by
    rw [List.drop_append_of_le_length]
    · rfl
    · rw [List.length_take]
      lia
  rw [whole, ← split]
  rfl

theorem copyFrom_eq {start stop : Nat} (inside : stop ≤ self.contents.length) :
    copyFrom self.contents (start + 1) stop = some (self.between start stop) := by
  rw [copyFrom, if_neg fun outside => Nat.not_lt_of_le inside outside.2]
  rfl

theorem nextCount_eq {n : Nat} (bounded : self.limit ≤ self.contents.length)
    (inside : self.position + n ≤ self.limit) : self.nextCount n =
      some (self.between self.position (self.position + n), self.atPosition (self.position + n)) := by
  have copied := @copyFrom_eq _ self self.position (self.position + n) (by lia)
  simp only [nextCount, gt_iff_lt, if_neg (Nat.not_lt_of_le inside), copied, Option.bind_eq_bind,
    Option.bind_some]

theorem upToEnd_eq (bounds : self.InBounds) : self.upToEnd =
    some (self.between self.position self.limit, self.atPosition self.limit) := by
  have position := bounds.position
  have end_ : self.position + self.sizeToEnd = self.limit := by
    rw [sizeToEnd, size]
    lia
  rw [upToEnd, nextCount_eq bounds.limit end_.le, end_]

end Reading

section Searching

variable [BEq α] {self : InternalReadStream α} {aCollection : List α}
  {search : (start stop fuel : Nat) → Option Nat}

/-- Where the search answers, the reading is exact. -/
theorem upToAll_exact (bounds : self.InBounds) (many : 1 < aCollection.length)
    (finds : Answers (search (self.position + 1) self.limit)
      (FirstOccurrence aCollection self.contents (self.position + 1) self.limit)) :
    ∃ answer, Converges (self.upToAll search aCollection) answer ∧
      ReadsUpTo self aCollection answer := by
  obtain ⟨index, ⟨bound, found⟩, first⟩ := finds
  have ends (fuel : Nat) (enough : bound ≤ fuel) : self.upToAll search aCollection fuel =
      if index = 0 then self.upToEnd
      else (self.nextCount (index - self.position - 1)).bind fun read =>
        some (read.1, read.2.skip aCollection.length) := by
    rw [upToAll.eq_def, if_pos many, found fuel enough]
    rfl
  cases first with
  | absent nowhere =>
    refine ⟨_, ⟨bound, fun fuel enough => ?_⟩, .absent (.absent nowhere)⟩
    rw [ends fuel enough, if_pos rfl, upToEnd_eq bounds]
  | found after fits here least =>
    refine ⟨_, ⟨bound, fun fuel enough => ?_⟩, .found (.found after fits here least) (by lia)⟩
    have length : self.position + (index - self.position - 1) = index - 1 := by lia
    rw [ends fuel enough, if_neg (by lia), nextCount_eq bounds.limit (by lia), length]
    simp only [Option.bind_some, skip, atPosition, size]
    congr 3
    lia

/-- The reading is exact exactly if the search can be made. -/
theorem upToAll_iff (bounds : self.InBounds) (many : 1 < aCollection.length) {can : Prop}
    (finds : can → Answers (search (self.position + 1) self.limit)
      (FirstOccurrence aCollection self.contents (self.position + 1) self.limit))
    (needs : ∀ fuel index, search (self.position + 1) self.limit fuel = some index → can) :
    (∃ answer, Converges (self.upToAll search aCollection) answer ∧
      ReadsUpTo self aCollection answer) ↔ can := by
  constructor
  · rintro ⟨answer, ⟨bound, found⟩, -⟩
    have reads : self.upToAll search aCollection bound = some answer := found bound le_rfl
    rw [upToAll.eq_def, if_pos many] at reads
    obtain ⟨index, searched, -⟩ := Option.bind_eq_some_iff.mp reads
    exact needs bound index searched
  · exact fun possible => upToAll_exact bounds many (finds possible)

end Searching

section Tokens

variable [BEq α] {self : InternalReadStream α} {token : α}

theorem occursAt_singleton {text : List α} {k : Nat} :
    OccursAt [token] text k ↔ ∃ element, elementAt text k = some element ∧ token == element := by
  constructor
  · intro occurs
    obtain ⟨expected, element, here, there, same⟩ := occurs 1 le_rfl le_rfl
    cases here
    exact ⟨element, there, same⟩
  · rintro ⟨element, there, same⟩ i first last
    obtain rfl : i = 1 := Nat.le_antisymm last first
    exact ⟨token, element, rfl, there, same⟩

/-- A token that is in the contents only past the limit is not looked for there. -/
def StaysInside (self : InternalReadStream α) (token : α) : Prop :=
  ∀ j, self.position < self.limit → self.limit < j → OccursAt [token] self.contents j →
    ∃ k, self.position < k ∧ k ≤ self.limit ∧ OccursAt [token] self.contents k

variable [PartialEquivBEq α]

theorem indexOfFrom_spec (contents : List α) (token : α) (position : Nat) :
    (indexOfFrom contents token (position + 1) = none ∧
      ∀ j, position < j → ¬ OccursAt [token] contents j) ∨
    ∃ index, indexOfFrom contents token (position + 1) = some index ∧ position < index ∧
      index ≤ contents.length ∧ OccursAt [token] contents index ∧
      ∀ j, position < j → j < index → ¬ OccursAt [token] contents j := by
  have place {j : Nat} (after : position < j) :
      elementAt contents j = (contents.drop position)[j - position - 1]? := by
    obtain ⟨j, rfl⟩ := Nat.exists_eq_add_of_lt after
    rw [List.getElem?_drop]
    exact congrArg (contents[·]?) (by lia)
  rw [indexOfFrom, Nat.add_sub_cancel]
  cases found : (contents.drop position).findIdx? (· == token) with
  | none =>
    refine .inl ⟨rfl, fun j after occurs => ?_⟩
    obtain ⟨element, there, same⟩ := occursAt_singleton.mp occurs
    rw [place after] at there
    have differs := List.findIdx?_eq_none_iff.mp found element (List.mem_of_getElem? there)
    rw [BEq.comm, same] at differs
    cases differs
  | some i =>
    obtain ⟨inside, here, least⟩ := List.findIdx?_eq_some_iff_getElem.mp found
    rw [List.length_drop] at inside
    refine .inr ⟨position + 1 + i, rfl, by lia, by lia, ?_, fun j after before occurs => ?_⟩
    · refine occursAt_singleton.mpr ⟨_, ?_, BEq.symm here⟩
      rw [place (by lia), show position + 1 + i - position - 1 = i by lia]
      exact List.getElem?_eq_getElem _
    · obtain ⟨element, there, same⟩ := occursAt_singleton.mp occurs
      rw [place after] at there
      obtain ⟨bound, rfl⟩ := List.getElem?_eq_some_iff.mp there
      exact least (j - position - 1) (by lia) (BEq.symm same)

theorem readSkipTo_absent (bounds : self.InBounds)
    (nowhere : ∀ j, self.position < j → j ≤ self.limit → ¬ OccursAt [token] self.contents j) :
    self.readSkipTo token = some (false, self.atPosition self.limit) := by
  have position := bounds.position
  induction left : self.limit - self.position generalizing self with
  | zero =>
    have ended : self.position = self.limit := by lia
    have ends : self.atEnd = true := decide_eq_true ended.ge
    rw [readSkipTo, if_pos ends, ← ended]
    rfl
  | succ left ih =>
    have inside : self.position < self.limit := by lia
    have within := bounds.limit
    obtain ⟨element, here⟩ := @elementAt_isSome _ self.contents (self.position + 1) (by lia) (by lia)
    have differs : ¬ (element == token) = true := fun same =>
      nowhere (self.position + 1) (Nat.lt_succ_self _) inside
        (occursAt_singleton.mpr ⟨element, here, BEq.symm same⟩)
    have going : ¬ self.atEnd = true := fun ended => absurd (of_decide_eq_true ended) (by lia)
    rw [readSkipTo, if_neg going]
    split
    · rename_i failed
      rw [next_eq inside here] at failed
      cases failed
    · rename_i read
      rw [next_eq inside here] at read
      cases read
      rw [if_neg differs]
      exact ih ⟨inside, within⟩ (fun j after => nowhere j (by have : self.position + 1 < j := after; lia))
        inside (by simp only [atPosition]; lia)

/-- The reading up to one element is exact exactly if its search stays inside. -/
theorem upTo_iff (bounds : self.InBounds) :
    (∃ answer, self.upTo token = some answer ∧ ReadsUpTo self [token] answer) ↔
      StaysInside self token := by
  have position := bounds.position
  have limit := bounds.limit
  rcases indexOfFrom_spec self.contents token self.position with
    ⟨absent, nowhere⟩ | ⟨index, found, after, inside, here, least⟩
  · have reads : self.upTo token =
        some (self.between self.position self.limit, self.atPosition self.limit) := by
      have skipped := readSkipTo_absent bounds fun j behind _ => nowhere j behind
      simp only [upTo, skipTo, absent, skipped, Option.bind_eq_bind, Option.bind_some,
        Bool.false_eq_true, if_false, Nat.sub_zero, atPosition_position, atPosition_contents,
        copyFrom_eq limit]
    refine iff_of_true ⟨_, reads, .absent (.absent fun j behind _ => nowhere j behind)⟩ ?_
    exact fun j _ past occurs => absurd occurs (nowhere j (by lia))
  · have reads : self.upTo token = some (self.between self.position (min index self.limit - 1),
        self.atPosition (min index self.limit)) := by
      have moved : self.skip (index - self.position) = self.atPosition (min index self.limit) := by
        simp only [skip, size]
        congr 1
        lia
      have copied := @copyFrom_eq _ self self.position (min index self.limit - 1) (by lia)
      simp only [upTo, skipTo, found, moved, Option.bind_eq_bind, Option.bind_some, if_true,
        atPosition_position, atPosition_contents, copied]
    by_cases within : index ≤ self.limit
    · rw [Nat.min_eq_left within] at reads
      refine iff_of_true ⟨_, reads, ?_⟩ fun _ _ _ _ => ⟨index, after, within, here⟩
      have answered := @ReadsUpTo.found _ _ self [token] index
        (.found after (by simpa using within) here fun j behind before => least j behind before)
        (by lia)
      rwa [List.length_singleton, Nat.sub_add_cancel (by lia)] at answered
    · rw [Nat.min_eq_right (by lia)] at reads
      constructor
      · rintro ⟨answer, read, exact_⟩ j inside' past occurs
        rw [reads] at read
        cases read
        generalize answered : (self.between self.position (self.limit - 1),
          self.atPosition self.limit) = answer at exact_
        cases exact_ with
        | @found k first positive =>
          cases first with
          | absent => cases positive
          | found after' fits here' => exact ⟨k, after', by simpa using fits, here'⟩
        | absent nowhere =>
          have lengths := congrArg (fun reading => reading.1.length) answered
          simp only [between_length _ limit, @between_length _ self _ (self.limit - 1) (by lia)]
            at lengths
          lia
      · intro stays
        have ended : self.position = self.limit := by
          refine Nat.le_antisymm position (Nat.le_of_not_lt fun inside' => ?_)
          obtain ⟨k, after', before, occurs⟩ := stays index inside' (by lia) here
          exact least k after' (by lia) occurs
        refine ⟨_, reads, ?_⟩
        have empty : self.between self.position (self.limit - 1) =
            self.between self.position self.limit := by
          rw [← ended, between_self, between, List.drop_eq_nil_iff, List.length_take]
          lia
        rw [empty]
        refine .absent (.absent fun j behind fits occurs => ?_)
        rw [List.length_singleton] at fits
        lia

end Tokens

section Through

variable [BEq α] {self : InternalReadStream α} {aCollection : List α}

/-- Where the delimiter occurs, the elements there are those of the delimiter. -/
theorem between_occurrence {start : Nat} (occurs : OccursAt aCollection self.contents (start + 1))
    (inside : start + aCollection.length ≤ self.contents.length) :
    List.Forall₂ (fun expected element => expected == element) aCollection
      (self.between start (start + aCollection.length)) := by
  rw [List.forall₂_iff_get]
  refine ⟨by rw [between_length _ inside]; lia, fun i within within' => ?_⟩
  obtain ⟨expected, element, here, there, same⟩ := occurs (i + 1) (by lia) (by lia)
  have wanted : aCollection.get ⟨i, within⟩ = expected :=
    (List.getElem?_eq_some_iff.mp here).2
  have position : start + 1 + (i + 1) - 1 = start + i + 1 := by lia
  rw [position] at there
  obtain ⟨bound, found⟩ := List.getElem?_eq_some_iff.mp there
  rw [wanted]
  have read : (self.between start (start + aCollection.length)).get ⟨i, within'⟩ = element := by
    rw [← found, List.get_eq_getElem]
    simp only [between, List.getElem_drop, List.getElem_take]
  rw [read]
  exact same

omit [BEq α] in
theorem atEnd_atPosition {position : Nat} :
    (self.atPosition position).atEnd = true ↔ self.limit ≤ position :=
  decide_eq_true_iff

variable [PartialEquivBEq α]

/-- What equals something equals itself. -/
theorem equal_self {delimiter : List α}
    (same : List.Forall₂ (fun expected element => expected == element) aCollection delimiter) :
    List.Forall₂ (fun expected element => expected == element) aCollection aCollection := by
  induction same with
  | nil => exact .nil
  | cons first _ ih => exact .cons (BEq.trans first (BEq.symm first)) ih

/-- What reading through a delimiter should answer where it occurs first at a position. -/
def ReadsThrough (self : InternalReadStream α) (aCollection : List α) (k : Nat)
    (computation : Nat → Option (Reading α)) : Prop :=
  ∃ delimiter, List.Forall₂ (fun expected element => expected == element) aCollection delimiter ∧
    Converges computation (self.between self.position (k - 1) ++ delimiter,
      self.atPosition (k - 1 + aCollection.length))

/-- Reading through the delimiter is exact where reading up to it is. -/
theorem throughAll_exact (bounds : self.InBounds) {k : Nat}
    {upToAll : InternalReadStream α → List α → Nat → Option (Reading α)}
    (first : FirstOccurrence aCollection self.contents (self.position + 1) self.limit k)
    (positive : 0 < k) {answer : Reading α} (ends : Converges (upToAll self aCollection) answer)
    (exact_ : ReadsUpTo self aCollection answer) :
    ReadsThrough self aCollection k (self.throughAll upToAll aCollection) := by
  cases exact_ with
  | absent nowhere => exact absurd (first.unique nowhere) (Nat.ne_of_gt positive)
  | @found k' first' =>
    obtain rfl := first.unique first'
    cases first with
    | absent => cases positive
    | found after fits here least =>
      obtain ⟨start, rfl⟩ : ∃ start, k = start + 1 := ⟨k - 1, by lia⟩
      rw [Nat.add_sub_cancel] at ends
      have limit := bounds.limit
      have matches_ := between_occurrence here (by lia)
      obtain ⟨bound, found⟩ := ends
      have reads (fuel : Nat) (enough : bound ≤ fuel) : self.throughAll upToAll aCollection fuel =
          if (self.atPosition (start + aCollection.length)).atEnd then
            ((self.atPosition (start + aCollection.length)).atPosition self.position).upToEnd
          else some (self.between self.position start ++ aCollection,
            self.atPosition (start + aCollection.length)) := by
        rw [throughAll, found fuel enough]
        rfl
      by_cases ended : self.limit ≤ start + aCollection.length
      · have whole : start + aCollection.length = self.limit := by lia
        refine ⟨_, matches_, bound, fun fuel enough => ?_⟩
        rw [reads fuel enough, if_pos (atEnd_atPosition.mpr ended)]
        have stream : (self.atPosition (start + aCollection.length)).atPosition self.position =
          self := rfl
        rw [stream, upToEnd_eq bounds, Nat.add_sub_cancel, between_append (by lia) (by lia) (by lia),
          whole]
      · refine ⟨aCollection, ?_, bound, fun fuel enough => ?_⟩
        · exact equal_self matches_
        · rw [reads fuel enough, if_neg fun ends => ended (atEnd_atPosition.mp ends)]
          rfl

/-- Reading up to a delimiter and through it is exact, with a search of the contents. -/
structure ReadsExactly (search : (start stop fuel : Nat) → Option Nat)
    (stream : InternalReadStream α) (aCollection : List α) : Prop where
  generic : ∃ answer, Converges (stream.readUpToAll aCollection) answer ∧
    ReadsUpTo stream aCollection answer
  internal : ∃ answer, Converges (stream.upToAll search aCollection) answer ∧
    ReadsUpTo stream aCollection answer
  through : ∀ k, FirstOccurrence aCollection stream.contents (stream.position + 1) stream.limit k →
    0 < k → ReadsThrough stream aCollection k (stream.throughAll readUpToAll aCollection) ∧
      ReadsThrough stream aCollection k
        (stream.throughAll (InternalReadStream.upToAll search) aCollection)

/-- The search can be made, or stays inside for a delimiter of one element. -/
def Searchable (can : Prop) (self : InternalReadStream α) : List α → Prop
  | [token] => StaysInside self token
  | _ => can

variable {search : (start stop fuel : Nat) → Option Nat}

theorem internal_iff (bounds : self.InBounds) (nonempty : 0 < aCollection.length) {can : Prop}
    (finds : can → Answers (search (self.position + 1) self.limit)
      (FirstOccurrence aCollection self.contents (self.position + 1) self.limit))
    (needs : ∀ fuel index, search (self.position + 1) self.limit fuel = some index → can) :
    (∃ answer, Converges (self.upToAll search aCollection) answer ∧
      ReadsUpTo self aCollection answer) ↔ Searchable can self aCollection := by
  match aCollection with
  | [] => cases nonempty
  | [token] =>
    have reads (fuel : Nat) : self.upToAll search [token] fuel = self.upTo token := rfl
    have same {answer : Reading α} : Converges (self.upToAll search [token]) answer ↔
        self.upTo token = some answer :=
      ⟨fun ⟨bound, found⟩ => found bound le_rfl, fun found => ⟨0, fun _ _ => found⟩⟩
    simp only [same, Searchable]
    exact upTo_iff bounds
  | first :: second :: rest =>
    have many : 1 < (first :: second :: rest).length := Nat.succ_lt_succ (Nat.succ_pos rest.length)
    exact upToAll_iff bounds many finds needs

/-- Reading is exact where the search can be made and there is no early start; the first is always
needed, the second where the delimiter occurs. -/
def ExactWhen (can : Prop) (search : (start stop fuel : Nat) → Option Nat)
    (self : InternalReadStream α) (aCollection : List α) : Prop :=
  (Searchable can self aCollection → NoEarlyStart self aCollection →
    ReadsExactly search self aCollection) ∧
  (ReadsExactly search self aCollection → Searchable can self aCollection ∧
    ((∃ k, self.position < k ∧ k + aCollection.length - 1 ≤ self.limit ∧
      OccursAt aCollection self.contents k) → NoEarlyStart self aCollection))

theorem exactWhen (bounds : self.InBounds) (nonempty : 0 < aCollection.length) {can : Prop}
    (finds : can → Answers (search (self.position + 1) self.limit)
      (FirstOccurrence aCollection self.contents (self.position + 1) self.limit))
    (needs : ∀ fuel index, search (self.position + 1) self.limit fuel = some index → can) :
    ExactWhen can search self aCollection := by
  have internal := internal_iff bounds nonempty finds needs
  constructor
  · intro searchable early
    have generic := readUpToAll_exact bounds nonempty early
    have searched := internal.mpr searchable
    obtain ⟨answer, ends, exact_⟩ := generic
    obtain ⟨answer', ends', exact_'⟩ := searched
    exact {
      generic := ⟨answer, ends, exact_⟩
      internal := ⟨answer', ends', exact_'⟩
      through := fun k first positive =>
        ⟨throughAll_exact bounds first positive ends exact_,
          throughAll_exact bounds first positive ends' exact_'⟩ }
  · intro reads
    refine ⟨internal.mp reads.internal, fun occurs => ?_⟩
    obtain ⟨answer, ends, exact_⟩ := reads.generic
    cases exact_ with
    | @found k first positive =>
      exact noEarlyStart_of_exact bounds nonempty first positive ends (.found first positive)
    | absent nowhere =>
      obtain ⟨k, after, fits, here⟩ := occurs
      cases nowhere with
      | absent nowhere => exact absurd here (nowhere k after fits)
      | found after' => cases after'

end Through

end InternalReadStream

section Streams

/-- The search of a sequence for another. -/
def sequenceSearch [BEq α] (contents aCollection : List α) (start stop fuel : Nat) : Option Nat :=
  SequenceableCollection.indexOfSubcollectionTd1 contents aCollection start stop
    (SequenceableCollection.td1 aCollection) fuel

/-- The search of a string for another. -/
def stringSearch (contents aString : Text) (start stop fuel : Nat) : Option Nat :=
  contents.indexOfSubcollectionTd1 aString start stop aString.td1 fuel

/-- The string 'aab' at its start. -/
def aab : InternalReadStream Nat :=
  on [97, 97, 98]

end Streams

end Egg.Streams
