import Mathlib.Data.List.Sort
import Mathlib.Tactic.Common
import Mathlib.Tactic.Linarith
import Mathlib.Tactic.Ring

/-! Intervals of integers, and the arithmetic progressions that they stand for. -/
namespace Egg.Collection

/-- An interval; `stop` is its `end`. A step of zero is an error. -/
structure Interval where
  start : Int
  stop : Int
  step : Int
  nonzero : step ≠ 0

namespace Interval

/-- `between:and:` of magnitudes. -/
def between (number min max : Int) : Bool := min ≤ number && number ≤ max

def size (self : Interval) : Int :=
  let size := max 0 ((self.stop - self.start).fdiv self.step + 1)
  let x := self.step * size + self.start
  if (self.step < 0 && self.stop ≤ x) || (self.step > 0 && x ≤ self.stop) then size + 1 else size

/-- `at:`; no result for an index out of bounds. -/
def at? (self : Interval) (anInteger : Int) : Option Int :=
  let answer := self.start + (anInteger - 1) * self.step
  if anInteger > 0 then
    if self.step > 0 && between answer self.start self.stop then some answer
    else if self.step < 0 && between answer self.stop self.start then some answer
    else if anInteger = self.size then some self.stop
    else none
  else none

def first (self : Interval) : Option Int := self.at? 1

def last (self : Interval) : Option Int := self.at? self.size

def isEmpty (self : Interval) : Bool := self.size = 0

def reversed (self : Interval) : Interval where
  start := self.stop
  stop := self.start
  step := -self.step
  nonzero := Int.neg_ne_zero.mpr self.nonzero

/-- What `intersection:` answers: `#()` or an interval. -/
inductive Intersection where
  | emptyArray
  | interval (progression : Interval)

/-- `intersection:` of two intervals; no result where their steps differ, which the superclass
does not understand. -/
def intersection (self aCollection : Interval) : Option Intersection :=
  if self.step ≠ aCollection.step then none
  else if self.isEmpty then some .emptyArray
  else if aCollection.isEmpty then some .emptyArray
  else do
    let first ← aCollection.first
    let last ← aCollection.last
    let s := max self.start first
    let e := min self.stop last
    if s ≤ e then some (.interval ⟨s, e, self.step, self.nonzero⟩) else some .emptyArray

/-- The elements, at the indices from one to the size. -/
def elements (self : Interval) : List Int :=
  (List.range self.size.toNat).filterMap fun index : Nat => self.at? (index + 1)

def Intersection.elements : Intersection → List Int
  | .emptyArray => []
  | interval progression => progression.elements

/-- A number that lies between the ends. -/
def Inside (self : Interval) (number : Int) : Prop :=
  (0 < self.step ∧ self.start ≤ number ∧ number ≤ self.stop) ∨
    (self.step < 0 ∧ self.stop ≤ number ∧ number ≤ self.start)

instance (self : Interval) (number : Int) : Decidable (self.Inside number) :=
  inferInstanceAs (Decidable (_ ∨ _))

/-- The term of the progression after some steps. -/
def term (self : Interval) (steps : Int) : Int := self.start + steps * self.step

/-- The order in which steps go from one number to another. -/
def Before (step left right : Int) : Prop := 0 < (right - left) * step

instance (step : Int) : Std.Irrefl (Before step) where
  irrefl number before := by simp [Before] at before

instance (step : Int) : Std.Antisymm (Before step) where
  antisymm left right before behind := by
    unfold Before at before behind
    have opposite : (left - right) * step = -((right - left) * step) := by ring
    omega

section Size

variable (self : Interval)

theorem step_cases : 0 < self.step ∨ self.step < 0 := by
  have nonzero := self.nonzero
  lia

variable {self} in
theorem inside_up (up : 0 < self.step) {number : Int} :
    self.Inside number ↔ self.start ≤ number ∧ number ≤ self.stop := by
  unfold Inside
  lia

variable {self} in
theorem inside_down (down : self.step < 0) {number : Int} :
    self.Inside number ↔ self.stop ≤ number ∧ number ≤ self.start := by
  unfold Inside
  lia

/-- How often the step goes into the way from start to end. -/
theorem le_fdiv_iff (steps : Int) :
    steps ≤ (self.stop - self.start).fdiv self.step ↔
      (0 < self.step ∧ self.term steps ≤ self.stop) ∨
        (self.step < 0 ∧ self.stop ≤ self.term steps) := by
  unfold term
  rcases self.step_cases with up | down
  · rw [Int.fdiv_eq_ediv_of_nonneg _ up.le, Int.le_ediv_iff_mul_le up]
    lia
  · rw [← Int.neg_fdiv_neg, Int.fdiv_eq_ediv_of_nonneg _ (by lia),
      Int.le_ediv_iff_mul_le (by lia), Int.mul_neg]
    lia

/-- The correction at the end of `size` never applies. -/
theorem size_eq : self.size = max 0 ((self.stop - self.start).fdiv self.step + 1) := by
  unfold size
  rw [if_neg]
  obtain ⟨count, same⟩ : ∃ count, max 0 ((self.stop - self.start).fdiv self.step + 1) = count :=
    ⟨_, rfl⟩
  have past : ¬ count ≤ (self.stop - self.start).fdiv self.step := by lia
  rw [self.le_fdiv_iff, term] at past
  simp only [same, Bool.or_eq_true, Bool.and_eq_true, decide_eq_true_eq]
  rw [Int.mul_comm self.step, Int.add_comm]
  lia

theorem size_nonneg : 0 ≤ self.size := by
  rw [size_eq]
  exact le_max_left ..

/-- The size is the number of terms that do not pass the end. -/
theorem lt_size_iff {steps : Int} (nonneg : 0 ≤ steps) :
    steps < self.size ↔ self.Inside (self.term steps) := by
  have reaches := self.le_fdiv_iff steps
  have within : steps < self.size ↔ steps ≤ (self.stop - self.start).fdiv self.step := by
    rw [size_eq]
    lia
  rw [within, reaches, Inside]
  rcases self.step_cases with up | down
  · have ahead : self.start ≤ self.term steps := by
      have := Int.mul_nonneg nonneg up.le
      unfold term
      lia
    lia
  · have ahead : self.term steps ≤ self.start := by
      have := Int.mul_nonpos_of_nonneg_of_nonpos nonneg down.le
      unfold term
      lia
    lia

theorem isEmpty_iff : self.isEmpty = true ↔ ¬ self.Inside self.start := by
  have first := self.lt_size_iff (le_refl 0)
  have nonneg := self.size_nonneg
  have zero : self.term 0 = self.start := by simp [term]
  rw [zero] at first
  rw [← first, isEmpty, decide_eq_true_eq]
  lia

theorem at?_eq (index : Int) :
    self.at? index = if 1 ≤ index ∧ index ≤ self.size then some (self.term (index - 1)) else none := by
  by_cases valid : 1 ≤ index ∧ index ≤ self.size
  · have inside := (self.lt_size_iff (by lia)).mp (show index - 1 < self.size by lia)
    rw [if_pos valid, at?, if_pos (show index > 0 from valid.1)]
    rcases inside with ⟨up, low, high⟩ | ⟨down, low, high⟩
    · have holds : (decide (self.step > 0) &&
          between (self.term (index - 1)) self.start self.stop) = true := by
        simp only [between, Bool.and_eq_true, decide_eq_true_eq]
        exact ⟨up, low, high⟩
      exact if_pos holds
    · have holds : (decide (self.step < 0) &&
          between (self.term (index - 1)) self.stop self.start) = true := by
        simp only [between, Bool.and_eq_true, decide_eq_true_eq]
        exact ⟨down, low, high⟩
      have other : ¬ (decide (self.step > 0) &&
          between (self.term (index - 1)) self.start self.stop) = true := fun up => by
        simp only [Bool.and_eq_true, decide_eq_true_eq] at up
        lia
      exact (if_neg other).trans (if_pos holds)
  · rw [if_neg valid, at?]
    split
    · rename_i positive
      have beyond : ¬ self.Inside (self.term (index - 1)) := fun inside => by
        have below := (self.lt_size_iff (by lia)).mpr inside
        lia
      have above : ¬ (decide (self.step > 0) &&
          between (self.term (index - 1)) self.start self.stop) = true := fun holds => by
        simp only [between, Bool.and_eq_true, decide_eq_true_eq] at holds
        exact beyond (.inl holds)
      have under : ¬ (decide (self.step < 0) &&
          between (self.term (index - 1)) self.stop self.start) = true := fun holds => by
        simp only [between, Bool.and_eq_true, decide_eq_true_eq] at holds
        exact beyond (.inr holds)
      exact ((if_neg above).trans (if_neg under)).trans (if_neg (by lia))
    · rfl

end Size

section Elements

variable {self : Interval}

theorem elements_eq : self.elements = (List.range self.size.toNat).map fun index : Nat =>
    self.term index := by
  rw [elements, ← List.filterMap_eq_map]
  refine List.filterMap_congr fun index member => ?_
  have below := List.mem_range.mp member
  rw [at?_eq, if_pos (by lia), Int.add_sub_cancel]
  rfl

/-- The elements are what lies between the ends and is reached by steps from the start. -/
theorem mem_elements {number : Int} :
    number ∈ self.elements ↔ self.step ∣ number - self.start ∧ self.Inside number := by
  rw [elements_eq, List.mem_map]
  constructor
  · rintro ⟨index, member, rfl⟩
    have below := List.mem_range.mp member
    refine ⟨⟨index, by simp [term, Int.mul_comm]⟩, ?_⟩
    exact (self.lt_size_iff (Int.natCast_nonneg index)).mp (by lia)
  · rintro ⟨⟨steps, same⟩, inside⟩
    have reached : number = self.term steps := by
      rw [term, Int.mul_comm, ← same]
      lia
    have nonneg : 0 ≤ steps := by
      rcases inside with ⟨up, low, -⟩ | ⟨down, -, high⟩
      · exact nonneg_of_mul_nonneg_right (by lia : 0 ≤ self.step * steps) up
      · by_contra negative
        have := mul_pos_of_neg_of_neg down (Int.not_le.mp negative)
        lia
    have below := (self.lt_size_iff nonneg).mpr (reached ▸ inside)
    refine ⟨steps.toNat, List.mem_range.mpr (by lia), ?_⟩
    rw [Int.toNat_of_nonneg nonneg, reached]

theorem elements_pairwise : self.elements.Pairwise (Before self.step) := by
  rw [elements_eq, List.pairwise_map]
  refine List.pairwise_lt_range.imp fun {left right} less => ?_
  have way : (self.term right - self.term left) * self.step =
      (right - left : Int) * (self.step * self.step) := by
    unfold term
    ring
  have square := mul_self_pos.mpr self.nonzero
  rw [Before, way]
  exact mul_pos (by lia) square

/-- Intervals that go the same way are told apart by what they contain. -/
theorem eq_of_mem_iff {numbers : List Int} (ordered : numbers.Pairwise (Before self.step))
    (same : ∀ number, number ∈ self.elements ↔ number ∈ numbers) : self.elements = numbers :=
  elements_pairwise.eq_of_mem_iff ordered same

end Elements

section Reversal

variable {self : Interval}

theorem reversed_inside (number : Int) : self.reversed.Inside number ↔ self.Inside number := by
  unfold Inside reversed
  dsimp only
  lia

/-- Nothing is inside an empty interval. -/
theorem inside_start {number : Int} (inside : self.Inside number) : self.Inside self.start := by
  unfold Inside at *
  lia

theorem inside_stop {number : Int} (inside : self.Inside number) : self.Inside self.stop := by
  unfold Inside at *
  lia

/-- Reversing keeps the elements exactly when there are none or the end is one of them. -/
theorem reversed_elements_iff :
    self.reversed.elements = self.elements.reverse ↔
      ¬ self.Inside self.start ∨ self.step ∣ self.stop - self.start := by
  constructor
  · intro same
    by_cases inside : self.Inside self.start
    · right
      have last : self.stop ∈ self.reversed.elements := by
        refine mem_elements.mpr ⟨?_, (reversed_inside _).mpr (inside_stop inside)⟩
        rw [reversed, Int.sub_self]
        exact dvd_zero _
      rw [same, List.mem_reverse] at last
      exact (mem_elements.mp last).1
    · exact .inl inside
  · intro even
    refine eq_of_mem_iff ?_ fun number => ?_
    · rw [List.pairwise_reverse]
      refine elements_pairwise.imp fun {left right} before => ?_
      have opposite : (left - right) * -self.step = (right - left) * self.step := by ring
      change 0 < (left - right) * -self.step
      rwa [opposite]
    · rw [List.mem_reverse, mem_elements, mem_elements, reversed_inside]
      rcases even with empty | divides
      · constructor <;> exact fun member => absurd (inside_start member.2) empty
      · refine and_congr_left fun _ => ?_
        have apart : number - self.start = number - self.stop + (self.stop - self.start) := by ring
        rw [apart, Int.dvd_add_left divides]
        exact Int.neg_dvd

end Reversal

section Intersection

variable {self aCollection : Interval}

/-- The last term of an interval that is not empty. -/
def lastTerm (self : Interval) : Int := self.term ((self.stop - self.start).fdiv self.step)

theorem lastTerm_dvd (self : Interval) : self.step ∣ self.lastTerm - self.start := by
  refine ⟨(self.stop - self.start).fdiv self.step, ?_⟩
  rw [lastTerm, term, add_sub_cancel_left, Int.mul_comm]

theorem first_eq (inside : self.Inside self.start) : self.first = some self.start := by
  have zero : self.term 0 = self.start := by simp [term]
  have some_element := (self.lt_size_iff (le_refl 0)).mpr (zero.symm ▸ inside)
  rw [first, at?_eq, if_pos (by lia), Int.sub_self, zero]

theorem last_eq (inside : self.Inside self.start) : self.last = some self.lastTerm := by
  have zero : self.term 0 = self.start := by simp [term]
  have some_element := (self.lt_size_iff (le_refl 0)).mpr (zero.symm ▸ inside)
  have size := self.size_eq
  rw [last, at?_eq, if_pos (by lia), lastTerm]
  congr 2
  lia

theorem term_le_up (up : 0 < self.step) {less more : Int} :
    self.term less ≤ self.term more ↔ less ≤ more := by
  unfold term
  rw [Int.add_le_add_iff_left]
  exact Int.mul_le_mul_iff_of_pos_right up

theorem term_le_down (down : self.step < 0) {less more : Int} :
    self.term more ≤ self.term less ↔ less ≤ more := by
  unfold term
  rw [Int.add_le_add_iff_left]
  exact mul_le_mul_right_of_neg down

/-- An interval that goes up has the terms from its start to its last one. -/
theorem mem_up (up : 0 < self.step) {number : Int} :
    number ∈ self.elements ↔
      self.step ∣ number - self.start ∧ self.start ≤ number ∧ number ≤ self.lastTerm := by
  rw [mem_elements]
  refine and_congr_right fun ⟨steps, same⟩ => ?_
  have reached : number = self.term steps := by
    rw [term, Int.mul_comm, ← same]
    lia
  have last := self.le_fdiv_iff steps
  rw [← term_le_up up, ← lastTerm, ← reached] at last
  unfold Inside
  lia

theorem mem_down (down : self.step < 0) {number : Int} :
    number ∈ self.elements ↔
      self.step ∣ number - self.start ∧ self.lastTerm ≤ number ∧ number ≤ self.start := by
  rw [mem_elements]
  refine and_congr_right fun ⟨steps, same⟩ => ?_
  have reached : number = self.term steps := by
    rw [term, Int.mul_comm, ← same]
    lia
  have last := self.le_fdiv_iff steps
  rw [← term_le_down down, ← lastTerm, ← reached] at last
  unfold Inside
  lia

theorem start_mem (inside : self.Inside self.start) : self.start ∈ self.elements := by
  refine mem_elements.mpr ⟨?_, inside⟩
  rw [Int.sub_self]
  exact dvd_zero _

/-- What two intervals have in common. -/
def common (self aCollection : Interval) : List Int :=
  self.elements.filter (· ∈ aCollection.elements)

theorem mem_common {number : Int} :
    number ∈ self.common aCollection ↔ number ∈ self.elements ∧ number ∈ aCollection.elements := by
  rw [common, List.mem_filter, decide_eq_true_eq]

/-- The numbers from the greater start to the smaller end. -/
def overlap (self aCollection : Interval) : Interval where
  start := max self.start aCollection.start
  stop := min self.stop aCollection.lastTerm
  step := self.step
  nonzero := self.nonzero

theorem intersection_eq (same : self.step = aCollection.step) (inside : self.Inside self.start)
    (inside' : aCollection.Inside aCollection.start) :
    self.intersection aCollection =
      if (self.overlap aCollection).start ≤ (self.overlap aCollection).stop then
        some (.interval (self.overlap aCollection))
      else some .emptyArray := by
  have full : ¬ self.isEmpty = true := fun empty => self.isEmpty_iff.mp empty inside
  have full' : ¬ aCollection.isEmpty = true := fun empty => aCollection.isEmpty_iff.mp empty inside'
  rw [intersection, if_neg (not_not.mpr same), if_neg full, if_neg full', first_eq inside',
    last_eq inside']
  rfl

/-- The answer and the common elements are in the same order. -/
theorem answer_eq_common_iff (same : self.step = aCollection.step)
    (inside : self.Inside self.start) (inside' : aCollection.Inside aCollection.start) :
    (∃ answer, self.intersection aCollection = some answer ∧
        answer.elements = self.common aCollection) ↔
      ∀ number, ((self.overlap aCollection).start ≤ (self.overlap aCollection).stop ∧
          number ∈ (self.overlap aCollection).elements) ↔
        number ∈ self.elements ∧ number ∈ aCollection.elements := by
  have ordered : (self.common aCollection).Pairwise (Before self.step) :=
    elements_pairwise.filter _
  rw [intersection_eq same inside inside']
  split
  · rename_i overlaps
    simp only [Option.some.injEq, exists_eq_left', Intersection.elements, overlaps, true_and]
    constructor
    · intro equal number
      rw [equal, mem_common]
    · intro members
      exact @eq_of_mem_iff (self.overlap aCollection) _ ordered fun number =>
        (members number).trans mem_common.symm
  · rename_i apart
    simp only [Option.some.injEq, exists_eq_left', Intersection.elements, apart, false_and,
      false_iff]
    rw [eq_comm, List.eq_nil_iff_forall_not_mem]
    simp only [mem_common]

/-- In phase, steps from either start reach the same numbers. -/
theorem phase_iff {step left right : Int} (phase : step ∣ right - left) (number : Int) :
    step ∣ number - right ↔ step ∣ number - left := by
  have apart : number - left = number - right + (right - left) := by ring
  rw [apart, Int.dvd_add_left phase]

theorem phase_of_common {step left right number : Int} (mine : step ∣ number - left)
    (yours : step ∣ number - right) : step ∣ right - left := by
  have difference := Int.dvd_sub mine yours
  rwa [sub_sub_sub_cancel_left] at difference

section Direction

variable (same : self.step = aCollection.step) (inside : self.Inside self.start)
  (inside' : aCollection.Inside aCollection.start)

include same inside inside'

/-- Going up, the answer is right for intervals in phase, and for disjoint ranges. -/
theorem overlap_up (up : 0 < self.step) :
    (∀ number, ((self.overlap aCollection).start ≤ (self.overlap aCollection).stop ∧
          number ∈ (self.overlap aCollection).elements) ↔
        number ∈ self.elements ∧ number ∈ aCollection.elements) ↔
      self.step ∣ aCollection.start - self.start ∨ self.stop < aCollection.start ∨
        aCollection.lastTerm < self.start := by
  have up' : 0 < aCollection.step := same ▸ up
  have last := ((mem_up up').mp (start_mem inside')).2
  have up'' : 0 < (self.overlap aCollection).step := up
  have nonempty := (inside_up up).mp inside
  have starts : (self.overlap aCollection).start = max self.start aCollection.start := rfl
  have stops : (self.overlap aCollection).stop = min self.stop aCollection.lastTerm := rfl
  constructor
  · intro members
    by_contra wrong
    obtain ⟨phase, touching, touching'⟩ : ¬ self.step ∣ aCollection.start - self.start ∧
        aCollection.start ≤ self.stop ∧ self.start ≤ aCollection.lastTerm := by
      simpa only [not_or, Int.not_lt] using wrong
    have overlaps : (self.overlap aCollection).start ≤ (self.overlap aCollection).stop := by lia
    have first : (self.overlap aCollection).Inside (self.overlap aCollection).start :=
      (inside_up up'').mpr ⟨le_refl _, overlaps⟩
    obtain ⟨mine, yours⟩ := (members _).mp ⟨overlaps, start_mem first⟩
    exact phase (phase_of_common (mem_elements.mp mine).1 (same ▸ (mem_elements.mp yours).1))
  · intro right number
    rw [mem_elements, inside_up up'', mem_elements, inside_up up, mem_up up', ← same, starts, stops]
    change (_ ∧ self.step ∣ _ ∧ _) ↔ _
    rcases right with phase | beyond
    · have greater : self.step ∣ max self.start aCollection.start - self.start := by
        rcases max_choice self.start aCollection.start with choice | choice
        · rw [choice, Int.sub_self]
          exact dvd_zero _
        · rwa [choice]
      rw [phase_iff phase, phase_iff greater]
      lia
    · lia

/-- Going down, the answer is right only where nothing is shared, and for one and the same
number. -/
theorem overlap_down (down : self.step < 0) :
    (∀ number, ((self.overlap aCollection).start ≤ (self.overlap aCollection).stop ∧
          number ∈ (self.overlap aCollection).elements) ↔
        number ∈ self.elements ∧ number ∈ aCollection.elements) ↔
      ¬ self.step ∣ aCollection.start - self.start ∨ self.start < aCollection.lastTerm ∨
        aCollection.start < self.lastTerm ∨ (self.start = self.stop ∧
          aCollection.start = self.start ∧ aCollection.lastTerm = self.start) := by
  have down' : aCollection.step < 0 := same ▸ down
  have last := ((mem_down down).mp (start_mem inside)).2
  have last' := ((mem_down down').mp (start_mem inside')).2
  have down'' : (self.overlap aCollection).step < 0 := down
  have nonempty := (inside_down down).mp inside
  have ends := (inside_down down).mp
    (mem_elements.mp ((mem_down down).mpr ⟨self.lastTerm_dvd, le_refl _, last.1⟩)).2
  have starts : (self.overlap aCollection).start = max self.start aCollection.start := rfl
  have stops : (self.overlap aCollection).stop = min self.stop aCollection.lastTerm := rfl
  constructor
  · intro members
    by_contra wrong
    obtain ⟨phase, touching, touching', single⟩ :
        self.step ∣ aCollection.start - self.start ∧ aCollection.lastTerm ≤ self.start ∧
          self.lastTerm ≤ aCollection.start ∧ ¬ (self.start = self.stop ∧
            aCollection.start = self.start ∧ aCollection.lastTerm = self.start) := by
      simpa only [not_or, not_not, Int.not_lt] using wrong
    have smaller : self.step ∣ min self.start aCollection.start - self.start := by
      rcases min_choice self.start aCollection.start with choice | choice
      · rw [choice, Int.sub_self]
        exact dvd_zero _
      · rwa [choice]
    have mine := (mem_down down).mpr ⟨smaller, le_min last.1 touching', min_le_left ..⟩
    have yours := (mem_down down').mpr ⟨same ▸ (phase_iff phase _).mpr smaller,
      le_min touching last'.1, min_le_right ..⟩
    obtain ⟨overlaps, member⟩ := (members _).mpr ⟨mine, yours⟩
    have between := (inside_down down'').mp (mem_elements.mp member).2
    lia
  · intro right number
    rw [mem_elements, inside_down down'', mem_down down, mem_down down', ← same, starts, stops]
    change (_ ∧ self.step ∣ _ ∧ _) ↔ _
    rcases right with phase | beyond | beyond | ⟨equal, equal', equal''⟩
    · constructor
      · rintro ⟨overlaps, -, low, high⟩
        have start : aCollection.start - self.start = 0 := by lia
        exact absurd (start ▸ dvd_zero _) phase
      · rintro ⟨⟨mine, -⟩, yours, -⟩
        exact absurd (phase_of_common mine yours) phase
    · lia
    · lia
    · constructor
      · rintro ⟨overlaps, divides, low, high⟩
        have number_eq : number = self.start := by lia
        rw [number_eq, equal', Int.sub_self]
        exact ⟨⟨dvd_zero _, by lia⟩, dvd_zero _, by lia⟩
      · rintro ⟨⟨divides, mine⟩, -, yours⟩
        have number_eq : number = self.start := by lia
        rw [number_eq, equal', max_self, Int.sub_self]
        exact ⟨by lia, dvd_zero _, by lia⟩

end Direction

/-- The intervals for which the answer of `intersection:` has the common elements. -/
def IntersectionRight (self aCollection : Interval) : Prop :=
  ¬ self.Inside self.start ∨ ¬ aCollection.Inside aCollection.start ∨
    (0 < self.step ∧ (self.step ∣ aCollection.start - self.start ∨
      self.stop < aCollection.start ∨ aCollection.lastTerm < self.start)) ∨
    (self.step < 0 ∧ (¬ self.step ∣ aCollection.start - self.start ∨
      self.start < aCollection.lastTerm ∨ aCollection.start < self.lastTerm ∨
      (self.start = self.stop ∧ aCollection.start = self.start ∧
        aCollection.lastTerm = self.start)))

theorem empty_elements {interval : Interval} (empty : ¬ interval.Inside interval.start) :
    interval.elements = [] :=
  List.eq_nil_iff_forall_not_mem.mpr fun _ member =>
    empty (inside_start (mem_elements.mp member).2)

theorem intersection_right_iff (same : self.step = aCollection.step) :
    (∃ answer, self.intersection aCollection = some answer ∧
        answer.elements = self.common aCollection) ↔ self.IntersectionRight aCollection := by
  by_cases inside : self.Inside self.start
  · by_cases inside' : aCollection.Inside aCollection.start
    · rw [answer_eq_common_iff same inside inside', IntersectionRight]
      rcases self.step_cases with up | down
      · rw [overlap_up same inside inside' up]
        simp only [inside, inside', up, up.not_gt, not_true, false_or, true_and, false_and, or_false]
      · rw [overlap_down same inside inside' down]
        simp only [inside, inside', down, down.not_gt, not_true, false_or, true_and, false_and]
    · have nothing : self.common aCollection = [] := by
        rw [common, empty_elements inside']
        exact List.filter_eq_nil_iff.mpr fun _ _ => by simp
      refine iff_of_true ⟨.emptyArray, ?_, nothing.symm⟩ (.inr (.inl inside'))
      rw [intersection, if_neg (not_not.mpr same), if_pos (aCollection.isEmpty_iff.mpr inside')]
      exact ite_self _
  · refine iff_of_true ⟨.emptyArray, ?_, ?_⟩ (.inl inside)
    · rw [intersection, if_neg (not_not.mpr same), if_pos (self.isEmpty_iff.mpr inside)]
    · rw [common, empty_elements inside]
      rfl

end Intersection

/-- Size and elements are those of an arithmetic progression, reversing gives the elements
the other way round, and the intersection has the common elements. -/
structure Denotes (interval other : Interval) : Prop where
  size : ∀ steps : Nat, (steps : Int) < interval.size ↔ interval.Inside (interval.term steps)
  at? : ∀ index, interval.at? index =
    if 1 ≤ index ∧ index ≤ interval.size then
      some (interval.start + (index - 1) * interval.step)
    else none
  reversed : interval.reversed.elements = interval.elements.reverse
  intersection : ∃ answer, interval.intersection other = some answer ∧
    answer.elements = interval.common other

def byTwo (start stop : Int) : Interval := ⟨start, stop, 2, by decide⟩

end Interval

end Egg.Collection
