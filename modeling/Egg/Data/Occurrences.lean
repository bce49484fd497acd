import Mathlib.Data.List.Basic

/-! Where a pattern stands in a text, positions from one, and how far a search may skip. -/
namespace Egg.Data

variable {α : Type}

/-- The element at a position counted from one. -/
def elementAt (items : List α) : Nat → Option α
  | 0 => none
  | index + 1 => items[index]?

theorem elementAt_isSome {items : List α} {index : Nat} (first : 1 ≤ index)
    (last : index ≤ items.length) : ∃ element, elementAt items index = some element := by
  obtain ⟨index, rfl⟩ := Nat.exists_eq_add_of_le' first
  exact ⟨items[index], List.getElem?_eq_getElem last⟩

theorem elementAt_mem {items : List α} {index : Nat} {element : α}
    (found : elementAt items index = some element) : element ∈ items := by
  cases index with
  | zero => cases found
  | succ index => exact List.mem_of_getElem? found

section Occurrences

variable [BEq α] {pattern text : List α} {start stop k : Nat}

/-- The pattern's element at `i` stands in the text where the pattern is laid at `k`. -/
def Agrees (pattern text : List α) (k i : Nat) : Prop :=
  ∃ expected element, elementAt pattern i = some expected ∧
    elementAt text (k + i - 1) = some element ∧ expected == element

def OccursAt (pattern text : List α) (k : Nat) : Prop :=
  ∀ i, 1 ≤ i → i ≤ pattern.length → Agrees pattern text k i

theorem agrees_iff {i : Nat} {expected element : α} (here : elementAt pattern i = some expected)
    (there : elementAt text (k + i - 1) = some element) :
    Agrees pattern text k i ↔ expected == element := by
  constructor
  · rintro ⟨expected', element', here', there', same⟩
    rw [here] at here'
    rw [there] at there'
    cases here'
    cases there'
    exact same
  · exact fun same => ⟨expected, element, here, there, same⟩

/-- The least position in the range at which the pattern stands, or zero. -/
inductive FirstOccurrence (pattern text : List α) (start stop : Nat) : Nat → Prop where
  | absent (nowhere : ∀ j, start ≤ j → j + pattern.length - 1 ≤ stop → ¬ OccursAt pattern text j) :
      FirstOccurrence pattern text start stop 0
  | found {k : Nat} (from_start : start ≤ k) (to_stop : k + pattern.length - 1 ≤ stop)
      (occurs : OccursAt pattern text k) (least : ∀ j, start ≤ j → j < k → ¬ OccursAt pattern text j) :
      FirstOccurrence pattern text start stop k

/-- The greatest position in the range at which the pattern stands, or zero. -/
inductive LastOccurrence (pattern text : List α) (start stop : Nat) : Nat → Prop where
  | absent (nowhere : ∀ j, start ≤ j → j + pattern.length - 1 ≤ stop → ¬ OccursAt pattern text j) :
      LastOccurrence pattern text start stop 0
  | found {k : Nat} (from_start : start ≤ k) (to_stop : k + pattern.length - 1 ≤ stop)
      (occurs : OccursAt pattern text k)
      (greatest : ∀ j, k < j → j + pattern.length - 1 ≤ stop → ¬ OccursAt pattern text j) :
      LastOccurrence pattern text start stop k

theorem FirstOccurrence.unique {one other : Nat}
    (first : FirstOccurrence pattern text start stop one)
    (second : FirstOccurrence pattern text start stop other) : one = other := by
  cases first with
  | absent nowhere =>
    cases second with
    | absent => rfl
    | found from_start to_stop occurs => exact absurd occurs (nowhere other from_start to_stop)
  | found from_start to_stop occurs least =>
    cases second with
    | absent nowhere => exact absurd occurs (nowhere one from_start to_stop)
    | found from_start' to_stop' occurs' least' =>
      rcases Nat.lt_trichotomy one other with before | same | behind
      · exact absurd occurs (least' one from_start before)
      · exact same
      · exact absurd occurs' (least other from_start' behind)

theorem FirstOccurrence.widen {answer next : Nat} (later : start ≤ next)
    (skipped : ∀ j, start ≤ j → j < next → ¬ OccursAt pattern text j)
    (first : FirstOccurrence pattern text next stop answer) :
    FirstOccurrence pattern text start stop answer := by
  cases first with
  | absent nowhere =>
    apply FirstOccurrence.absent
    intro j after inside
    by_cases before : j < next
    · exact skipped j after before
    · exact nowhere j (Nat.le_of_not_lt before) inside
  | found from_start to_stop occurs least =>
    apply FirstOccurrence.found (Nat.le_trans later from_start) to_stop occurs
    intro j after before
    by_cases early : j < next
    · exact skipped j after early
    · exact least j (Nat.le_of_not_lt early) before

end Occurrences

section Skips

variable [BEq α] {pattern text : List α} {start stop k : Nat}

/-- How far the last place of an element in the pattern is from the pattern's end, that place
included; past the whole pattern for an element that is not in it. -/
def shift (pattern : List α) (element : α) : Nat :=
  pattern.reverse.findIdx (· == element) + 1

theorem shift_pos (pattern : List α) (element : α) : 0 < shift pattern element :=
  Nat.succ_pos _

theorem shift_le_succ (pattern : List α) (element : α) :
    shift pattern element ≤ pattern.length + 1 := by
  have bounded := @List.findIdx_le_length _ (· == element) pattern.reverse
  rw [List.length_reverse] at bounded
  exact Nat.succ_le_succ bounded

/-- The skip by the element behind a window does not pass an occurrence of the pattern. -/
theorem shift_le {element : α} {j : Nat} (before : k < j)
    (behind : elementAt text (k + pattern.length) = some element) (occurs : OccursAt pattern text j) :
    k + shift pattern element ≤ j := by
  by_cases past : k + pattern.length < j
  · have bounded := shift_le_succ pattern element
    lia
  · obtain ⟨expected, element', here, there, same⟩ :=
      occurs (k + pattern.length + 1 - j) (by lia) (by lia)
    have position : j + (k + pattern.length + 1 - j) - 1 = k + pattern.length := by lia
    rw [position, behind] at there
    cases there
    have index : k + pattern.length + 1 - j = (k + pattern.length - j) + 1 := by lia
    rw [index] at here
    have mirrored : pattern.reverse[j - k - 1]? = some expected := by
      rw [List.getElem?_reverse (by lia), ← here]
      exact congrArg (pattern[·]?) (by lia)
    obtain ⟨inside, here'⟩ := List.getElem?_eq_some_iff.mp mirrored
    have early : ¬ j - k - 1 < pattern.reverse.findIdx (· == element) := by
      intro early
      have differs := List.not_of_lt_findIdx early
      rw [here', same] at differs
      cases differs
    rw [shift]
    lia

/-- The windows a search from `k` comes to when it skips by the element behind each window, up to
the first occurrence. -/
inductive Visits (pattern text : List α) (stop : Nat) : Nat → Nat → Prop where
  | here (k : Nat) : Visits pattern text stop k k
  | skip {k k' : Nat} {element : α} (differs : ¬ OccursAt pattern text k)
      (inside : k + pattern.length ≤ stop)
      (behind : elementAt text (k + pattern.length) = some element)
      (rest : Visits pattern text stop (k + shift pattern element) k') :
      Visits pattern text stop k k'

/-- Every element that a search by skips looks at behind a window is one of these. -/
def LooksOnlyAt (known : α → Prop) (pattern text : List α) (stop k : Nat) : Prop :=
  ∀ k' element, Visits pattern text stop k k' → ¬ OccursAt pattern text k' →
    k' + pattern.length ≤ stop → elementAt text (k' + pattern.length) = some element → known element

theorem LooksOnlyAt.of_skip {known : α → Prop} {element : α}
    (looks : LooksOnlyAt known pattern text stop k) (differs : ¬ OccursAt pattern text k)
    (inside : k + pattern.length ≤ stop)
    (behind : elementAt text (k + pattern.length) = some element) :
    LooksOnlyAt known pattern text stop (k + shift pattern element) :=
  fun k' element' visited => looks k' element' (.skip differs inside behind visited)

theorem looksOnlyAt_skip {known : α → Prop} {element : α}
    (behind : elementAt text (k + pattern.length) = some element) (knows : known element)
    (rest : LooksOnlyAt known pattern text stop (k + shift pattern element)) :
    LooksOnlyAt known pattern text stop k := by
  intro k' element' visited differs' inside' behind'
  cases visited with
  | here =>
    rw [behind] at behind'
    cases behind'
    exact knows
  | skip _ _ behind'' further =>
    rw [behind] at behind''
    cases behind''
    exact rest k' element' further differs' inside' behind'

end Skips

end Egg.Data
