import Egg.Collection.RangeSort

/-! `sort:to:with:` sorts its range with any block that is an order, permutes it with any block at
all, and accesses nothing else. -/
namespace Egg.Collection.RangeSort

open Egg.Data

variable {α : Type}

/-- A range that can be accessed. -/
def Window.Admits (window : Window) (start stop : Int) : Prop :=
  window.first ≤ start ∧ stop ≤ window.last

/-- What the block puts before another element is before it in the order, else behind it. -/
structure Orders (block : Block α) (le : α → α → Prop) : Prop where
  trans : ∀ x y z, le x y → le y z → le x z
  before : ∀ calls x y, block calls x y → le x y
  behind : ∀ calls x y, ¬ block calls x y → le y x

theorem Orders.refl {block : Block α} {le : α → α → Prop} (orders : Orders block le) (x : α) :
    le x x := by
  by_cases before : block 0 x x
  · exact orders.before 0 x x before
  · exact orders.behind 0 x x before

namespace State

variable {window : Window} {self : State α} {index start stop : Int}

theorem at_eq (admits : window.Admits start stop) (low : start ≤ index) (high : index ≤ stop) :
    self.at window index = some (self.elements index) :=
  if_pos ⟨Int.le_trans admits.1 low, Int.le_trans high admits.2⟩

theorem atPut_eq (admits : window.Admits start stop) (low : start ≤ index) (high : index ≤ stop)
    (element : α) : self.atPut window index element =
      some { self with elements := Function.update self.elements index element } :=
  if_pos ⟨Int.le_trans admits.1 low, Int.le_trans high admits.2⟩

/-- Two elements in each other's places. -/
def exchange (self : State α) (i j : Int) : State α :=
  { self with elements := self.elements ∘ Equiv.swap i j }

theorem exchange_elements (self : State α) (i j p : Int) :
    (self.exchange i j).elements p = self.elements (Equiv.swap i j p) := rfl

theorem exchange_eq (self : State α) (i j : Int) : { self with
    elements := Function.update (Function.update self.elements i (self.elements j)) j
      (self.elements i) } = self.exchange j i := by
  rw [exchange, Equiv.comp_swap_eq_update]

end State

variable {block : Block α} {pivot : α}

theorem separateStep_spec {i last : Int} (less : last < i) (self : State α) :
    ∃ last' after, (∀ window : Window, window.Admits (last + 1) i →
        separateStep window block pivot i last self = some (last', after)) ∧
      last ≤ last' ∧ last' ≤ i ∧ after.scratch = self.scratch ∧
      Rearranges self.elements after.elements (last + 1) i ∧
      ∀ le, Orders block le → (∀ p, last < p → p < i → le pivot (self.elements p)) →
        (∀ p, last < p → p ≤ last' → le (after.elements p) pivot) ∧
        ∀ p, last' < p → p ≤ i → le pivot (after.elements p) := by
  by_cases before : block self.calls (self.elements i) pivot
  · by_cases same : last + 1 = i
    · refine ⟨last + 1, self.called, fun window admits => ?_, by lia, by lia, rfl, .refl _ _ _,
        fun le orders highs => ⟨fun p low high => ?_, fun p low high => absurd low (by lia)⟩⟩
      · simp only [separateStep, State.at_eq admits less (Int.le_refl i), Option.bind_eq_bind,
          Option.bind_some, if_pos before, if_pos same]
      · have here : p = i := by lia
        rw [here]
        exact orders.before _ _ _ before
    · refine ⟨last + 1, self.called.exchange (last + 1) i,
        fun window admits => ?_, by lia, by lia, rfl, .swap _ (by lia) (by lia),
        fun le orders highs => ⟨fun p low high => ?_, fun p low high => ?_⟩⟩
      · have put := @State.atPut_eq _ window self.called i (last + 1) i admits (by lia) (by lia)
          (self.elements (last + 1))
        simp only [separateStep, State.at_eq admits less (Int.le_refl i),
          @State.at_eq _ window self (last + 1) (last + 1) i admits (by lia) (by lia),
          Option.bind_eq_bind, Option.bind_some, if_pos before, if_neg same, put,
          State.atPut_eq admits (Int.le_refl (last + 1)) less]
        rw [← State.exchange_eq]
        rfl
      · have here : p = last + 1 := by lia
        rw [here, State.exchange_elements, Equiv.swap_apply_left]
        exact orders.before _ _ _ before
      · rw [State.exchange_elements]
        by_cases here : p = i
        · rw [here, Equiv.swap_apply_right]
          exact highs (last + 1) (by lia) (by lia)
        · rw [Equiv.swap_apply_of_ne_of_ne (by lia) here]
          exact highs p (by lia) (by lia)
  · refine ⟨last, self.called, fun window admits => ?_, by lia, by lia, rfl, .refl _ _ _,
      fun le orders highs => ⟨fun p low high => absurd low (by lia), fun p low high => ?_⟩⟩
    · simp only [separateStep, State.at_eq admits less (Int.le_refl i), Option.bind_eq_bind,
        Option.bind_some, if_neg before]
    · by_cases here : p = i
      · rw [here]
        exact orders.behind _ _ _ before
      · exact highs p low (by lia)

/-- The loop leaves the elements before the pivot in front of those that are not. -/
theorem separate_spec {i1 i last : Int} (order : last ≤ i) (more : i < i1) (self : State α) :
    ∃ last' after, (∀ window : Window, window.Admits (last + 1) i1 →
        separate window block pivot i1 i last self = some (last', after)) ∧
      last ≤ last' ∧ last' ≤ i1 ∧ after.scratch = self.scratch ∧
      Rearranges self.elements after.elements (last + 1) i1 ∧
      ∀ le, Orders block le → (∀ p, last < p → p ≤ i → le pivot (self.elements p)) →
        (∀ p, last < p → p ≤ last' → le (after.elements p) pivot) ∧
        ∀ p, last' < p → p ≤ i1 → le pivot (after.elements p) := by
  induction rounds : (i1 - i).toNat generalizing i last self with
  | zero => lia
  | succ rounds ih =>
    obtain ⟨l1, s1, steps, low1, high1, scratch1, moved1, parts1⟩ :=
      @separateStep_spec _ block pivot (i + 1) last (by lia) self
    by_cases goes : i + 1 < i1
    · obtain ⟨l2, s2, rest, low2, high2, scratch2, moved2, parts2⟩ :=
        @ih (i + 1) l1 high1 goes s1 (by lia)
      refine ⟨l2, s2, fun window admits => ?_, Int.le_trans low1 low2, high2, scratch2.trans scratch1,
        ?_, fun le orders highs => ?_⟩
      · have narrow : window.Admits (last + 1) (i + 1) :=
          ⟨admits.1, Int.le_trans (Int.le_of_lt goes) admits.2⟩
        have rest' := rest window ⟨by have := admits.1; lia, admits.2⟩
        rw [separate, steps window narrow]
        simp only [Option.bind_eq_bind, Option.bind_some, if_pos goes, rest']
      · exact (moved1.widen (fun _ => Int.le_refl _) (fun _ => Int.le_of_lt goes)).trans
          (moved2.widen (fun _ => by lia) fun _ => Int.le_refl _)
      · obtain ⟨lows1, highs1⟩ := parts1 le orders fun p low high => highs p low (by lia)
        obtain ⟨lows2, highs2⟩ := parts2 le orders highs1
        refine ⟨fun p low high => ?_, highs2⟩
        by_cases early : p ≤ l1
        · rw [moved2.outside (by lia)]
          exact lows1 p low early
        · exact lows2 p (by lia) high
    · have last_round : i + 1 = i1 := by lia
      subst last_round
      refine ⟨l1, s1, fun window admits => ?_, low1, high1, scratch1, moved1, fun le orders highs => ?_⟩
      · rw [separate, steps window admits]
        simp only [Option.bind_eq_bind, Option.bind_some, if_neg goes]
      · exact parts1 le orders fun p low high => highs p low (by lia)

/-- The pivot is put between the elements before it and those that are not. -/
theorem divide_spec {i0 i1 : Int} (long : 1 < i1 - i0) (self : State α) :
    ∃ last after, (∀ window : Window, window.Admits i0 i1 →
        divide window block i0 i1 self = some (last, after)) ∧
      i0 ≤ last ∧ last ≤ i1 ∧ after.scratch = self.scratch ∧
      Rearranges self.elements after.elements i0 i1 ∧
      ∀ le, Orders block le →
        ∃ pivot, Parted le after.elements i0 (last - 1) (last + 1) i1 pivot := by
  obtain ⟨mid, middle⟩ : ∃ mid, (i0 + i1) / 2 = mid := ⟨_, rfl⟩
  have low : i0 < mid := by lia
  have high : mid ≤ i1 := by lia
  obtain ⟨pivot, here⟩ : ∃ pivot, self.elements mid = pivot := ⟨_, rfl⟩
  obtain ⟨last, s1, separated, first, most, scratch, moved, parts⟩ :=
    @separate_spec _ block pivot i1 i0 i0 (Int.le_refl i0) (by lia)
      { self with elements := Function.update self.elements mid (self.elements i0) }
  have held : Function.update (Function.update s1.elements i0 (s1.elements last)) last pivot =
      Function.update s1.elements i0 pivot ∘ Equiv.swap last i0 := by
    rw [Equiv.comp_swap_eq_update, Function.update_idem, Function.update_self]
    by_cases same : last = i0
    · rw [same, Function.update_idem, Function.update_idem]
    · rw [Function.update_of_ne same]
  have pivoted : Rearranges self.elements (Function.update s1.elements i0 pivot) i0 i1 := by
    -- as if the pivot were in the first place, where the loop does not look
    have started : Rearranges self.elements (self.elements ∘ Equiv.swap i0 mid) i0 i1 :=
      .swap _ (by lia) (by lia)
    rw [Equiv.comp_swap_eq_update, here] at started
    have looped := moved.update (p := i0) (by lia) pivot
    exact started.trans (looped.widen (fun _ => by lia) fun _ => Int.le_refl i1)
  refine ⟨last, { s1 with
      elements := Function.update (Function.update s1.elements i0 (s1.elements last)) last pivot },
    fun window admits => ?_, first, most, scratch, ?_, fun le orders => ⟨pivot, ?_⟩⟩
  · have separated' := separated window ⟨by have := admits.1; lia, admits.2⟩
    have copied := @State.atPut_eq _ window self mid i0 i1 admits (Int.le_of_lt low) high
      (self.elements i0)
    simp only [divide, middle, State.at_eq admits (Int.le_of_lt low) high,
      State.at_eq admits (Int.le_refl i0) (show i0 ≤ i1 by lia), Option.bind_eq_bind,
      Option.bind_some, copied, here, separated', State.at_eq admits first most,
      State.atPut_eq admits (Int.le_refl i0) (show i0 ≤ i1 by lia), State.atPut_eq admits first most]
  · rw [held]
    exact pivoted.trans (.swap _ ⟨first, most⟩ (by lia))
  · obtain ⟨lows, highs⟩ := parts le orders fun p early late => absurd early (by lia)
    change Parted le (Function.update (Function.update s1.elements i0 (s1.elements last)) last pivot)
      i0 (last - 1) (last + 1) i1 pivot
    constructor
    · intro p early less
      by_cases last_ : p = last
      · rw [last_, Function.update_self]
        exact orders.refl pivot
      · rw [Function.update_of_ne last_]
        by_cases first_ : p = i0
        · rw [first_, Function.update_self]
          exact lows last (by lia) (Int.le_refl last)
        · rw [Function.update_of_ne first_]
          exact lows p (by lia) (by lia)
    · intro p late inside
      by_cases last_ : p = last
      · rw [last_, Function.update_self]
        exact orders.refl pivot
      · rw [Function.update_of_ne last_, Function.update_of_ne (by lia)]
        exact highs p (by lia) inside

theorem sortToWith_spec {i0 i1 : Int} {fuel : Nat} (enough : (i1 + 1 - i0).toNat < fuel)
    (self : State α) :
    ∃ after, (∀ window : Window, window.Admits i0 i1 →
        sortToWith window block fuel i0 i1 self = some after) ∧
      after.scratch = self.scratch ∧ Rearranges self.elements after.elements i0 i1 ∧
      ∀ le, Orders block le → Ordered le after.elements i0 i1 := by
  induction fuel generalizing i0 i1 self with
  | zero => lia
  | succ fuel ih =>
    by_cases short : i1 - i0 ≤ 1
    · by_cases pair : i0 < i1
      · have two : i1 = i0 + 1 := by lia
        subst two
        by_cases before : block self.calls (self.elements (i0 + 1)) (self.elements i0)
        · refine ⟨self.called.exchange (i0 + 1) i0, fun window admits => ?_, rfl,
            .swap _ (by lia) (by lia), fun le orders p q low less high => ?_⟩
          · have put := @State.atPut_eq _ window self.called i0 i0 (i0 + 1) admits (by lia) (by lia)
              (self.elements (i0 + 1))
            simp only [sortToWith, if_pos short, if_pos pair, sortPair,
              State.at_eq admits (Int.le_of_lt pair) (Int.le_refl (i0 + 1)),
              State.at_eq admits (Int.le_refl i0) (Int.le_of_lt pair), Option.bind_eq_bind,
              Option.bind_some, if_pos before, put,
              State.atPut_eq admits (Int.le_of_lt pair) (Int.le_refl (i0 + 1))]
            rw [← State.exchange_eq]
            rfl
          · have first : p = i0 := by lia
            have second : q = i0 + 1 := by lia
            rw [first, second, State.exchange_elements, State.exchange_elements,
              Equiv.swap_apply_right, Equiv.swap_apply_left]
            exact orders.before _ _ _ before
        · refine ⟨self.called, fun window admits => ?_, rfl, .refl _ _ _,
            fun le orders p q low less high => ?_⟩
          · simp only [sortToWith, if_pos short, if_pos pair, sortPair,
              State.at_eq admits (Int.le_of_lt pair) (Int.le_refl (i0 + 1)),
              State.at_eq admits (Int.le_refl i0) (Int.le_of_lt pair), Option.bind_eq_bind,
              Option.bind_some, if_neg before]
          · have first : p = i0 := by lia
            have second : q = i0 + 1 := by lia
            rw [first, second]
            exact orders.behind _ _ _ before
      · refine ⟨self, fun window admits => ?_, rfl, .refl _ _ _, fun le orders => .short (by lia)⟩
        simp only [sortToWith, if_pos short, if_neg pair]
    · obtain ⟨last, s1, divided, low, high, scratch1, moved1, parts⟩ :=
        @divide_spec _ block i0 i1 (by lia) self
      by_cases upper : (i0 + i1) / 2 < last
      · obtain ⟨s2, run2, scratch2, moved2, ordered2⟩ :=
          @ih (last + 1) i1 (by lia) s1
        obtain ⟨s3, run3, scratch3, moved3, ordered3⟩ :=
          @ih i0 (last - 1) (by lia) s2
        refine ⟨s3, fun window admits => ?_, scratch3.trans (scratch2.trans scratch1), ?_,
          fun le orders => ?_⟩
        · have right : window.Admits (last + 1) i1 := ⟨by have := admits.1; lia, admits.2⟩
          have left : window.Admits i0 (last - 1) := ⟨admits.1, by have := admits.2; lia⟩
          simp only [sortToWith, if_neg short, divided window admits, Option.bind_eq_bind,
            Option.bind_some, if_pos upper, run2 window right, run3 window left]
        · exact moved1.trans ((moved2.widen (fun _ => by lia) fun _ => Int.le_refl i1).trans
            (moved3.widen (fun _ => Int.le_refl i0) fun _ => by lia))
        · obtain ⟨pivot, parted⟩ := parts le orders
          have parted' := (parted.right (by lia) moved2).left (by lia) moved3
          have right := (ordered2 le orders).keep moved3 fun p early late => by lia
          exact parted'.join orders.trans (ordered3 le orders) right
      · obtain ⟨s2, run2, scratch2, moved2, ordered2⟩ :=
          @ih i0 (last - 1) (by lia) s1
        obtain ⟨s3, run3, scratch3, moved3, ordered3⟩ :=
          @ih (last + 1) i1 (by lia) s2
        refine ⟨s3, fun window admits => ?_, scratch3.trans (scratch2.trans scratch1), ?_,
          fun le orders => ?_⟩
        · have right : window.Admits (last + 1) i1 := ⟨by have := admits.1; lia, admits.2⟩
          have left : window.Admits i0 (last - 1) := ⟨admits.1, by have := admits.2; lia⟩
          simp only [sortToWith, if_neg short, divided window admits, Option.bind_eq_bind,
            Option.bind_some, if_neg upper, run2 window left, run3 window right]
        · exact moved1.trans ((moved2.widen (fun _ => Int.le_refl i0) fun _ => by lia).trans
            (moved3.widen (fun _ => by lia) fun _ => Int.le_refl i1))
        · obtain ⟨pivot, parted⟩ := parts le orders
          have parted' := (parted.left (by lia) moved2).right (by lia) moved3
          have left := (ordered2 le orders).keep moved3 fun p early late => by lia
          exact parted'.join orders.trans left (ordered3 le orders)

end Egg.Collection.RangeSort
