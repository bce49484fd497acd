import Egg.Collection.InsertionSorted

/-! Quicksort with a median of three, whose two positions run towards each other, and insertion sort
for the ranges that fit the scratch. -/
namespace Egg.Collection.RangeSort

open Egg.Data

variable {α : Type} {block : Block α}

theorem State.swap_eq {window : Window} {self : State α} {start stop i j : Int}
    (admits : window.Admits start stop) (first : start ≤ i ∧ i ≤ stop) (second : start ≤ j ∧ j ≤ stop) :
    self.swap window i j = some (self.exchange j i) := by
  rw [← exchange_eq]
  simp only [swap, at_eq admits first.1 first.2, at_eq admits second.1 second.2, Option.bind_eq_bind,
    Option.bind_some, atPut_eq admits first.1 first.2, atPut_eq admits second.1 second.2]

theorem orderEnds_spec {start stop : Int} (order : start < stop) (self : State α) :
    ∃ di dj after, (∀ window : Window, window.Admits start stop →
        orderEnds window block start stop self = some (di, dj, after)) ∧
      Rearranges self.elements after.elements start stop ∧
      after.elements start = di ∧ after.elements stop = dj ∧ ∀ le, Orders block le → le di dj := by
  have low := Int.le_refl start
  have high := Int.le_refl stop
  have inside := Int.le_of_lt order
  by_cases before : block self.calls (self.elements start) (self.elements stop)
  · refine ⟨self.elements start, self.elements stop, self.called, fun window admits => ?_,
      .refl _ _ _, rfl, rfl,
      fun le orders => orders.before _ _ _ before⟩
    simp only [orderEnds, State.at_eq admits low inside, State.at_eq admits inside high,
      Option.bind_eq_bind, Option.bind_some, if_pos before]
  · refine ⟨self.elements stop, self.elements start, self.called.exchange stop start,
      fun window admits => ?_, .swap _ ⟨inside, high⟩ ⟨low, inside⟩, ?_, ?_,
      fun le orders => orders.behind _ _ _ before⟩
    · simp only [orderEnds, State.at_eq admits low inside, State.at_eq admits inside high,
        Option.bind_eq_bind, Option.bind_some, if_neg before,
        State.swap_eq admits ⟨low, inside⟩ ⟨inside, high⟩]
    · rw [State.exchange_elements, Equiv.swap_apply_right]
      rfl
    · rw [State.exchange_elements, Equiv.swap_apply_left]
      rfl

/-- The median is neither before the first element nor behind the last one. -/
theorem orderMiddle_spec {start stop : Int} {di dj : α} (order : start < stop) {self : State α}
    (first : self.elements start = di) (last : self.elements stop = dj) :
    ∃ dij after, (∀ window : Window, window.Admits start stop →
        orderMiddle window block start stop di dj self = some (dij, after)) ∧
      Rearranges self.elements after.elements start stop ∧
      ∀ le, Orders block le → le di dj → le (after.elements start) dij ∧ le dij (after.elements stop) := by
  obtain ⟨ij, middle⟩ : ∃ ij, (start + stop) / 2 = ij := ⟨_, rfl⟩
  have low : start ≤ ij := by lia
  have less : ij < stop := by lia
  have high := Int.le_of_lt less
  have inside := Int.le_of_lt order
  by_cases before : block self.calls di (self.elements ij)
  · by_cases behind : block self.called.calls (self.elements ij) dj
    · refine ⟨self.elements ij, self.called.called, fun window admits => ?_, .refl _ _ _,
        fun le orders ends => ⟨?_, ?_⟩⟩
      · simp only [orderMiddle, middle, State.at_eq admits low high, Option.bind_eq_bind,
          Option.bind_some, if_pos before, if_pos behind]
      · have here : self.called.called.elements start = di := first
        rw [here]
        exact orders.before _ _ _ before
      · have here : self.called.called.elements stop = dj := last
        rw [here]
        exact orders.before _ _ _ behind
    · refine ⟨dj, self.called.called.exchange ij stop, fun window admits => ?_,
        .swap _ ⟨low, high⟩ ⟨inside, Int.le_refl stop⟩, fun le orders ends => ⟨?_, ?_⟩⟩
      · simp only [orderMiddle, middle, State.at_eq admits low high, Option.bind_eq_bind,
          Option.bind_some, if_pos before, if_neg behind,
          State.swap_eq admits ⟨inside, Int.le_refl stop⟩ ⟨low, high⟩]
      · rw [State.exchange_elements]
        by_cases same : start = ij
        · have here : self.called.called.elements stop = dj := last
          rw [same, Equiv.swap_apply_left, here]
          exact orders.refl dj
        · have here : self.called.called.elements start = di := first
          rw [Equiv.swap_apply_of_ne_of_ne same (Int.ne_of_lt order), here]
          exact ends
      · rw [State.exchange_elements, Equiv.swap_apply_right]
        exact orders.behind _ _ _ behind
  · refine ⟨di, self.called.exchange ij start, fun window admits => ?_,
      .swap _ ⟨low, high⟩ ⟨Int.le_refl start, inside⟩, fun le orders ends => ⟨?_, ?_⟩⟩
    · simp only [orderMiddle, middle, State.at_eq admits low high, Option.bind_eq_bind,
        Option.bind_some, if_neg before, State.swap_eq admits ⟨Int.le_refl start, inside⟩ ⟨low, high⟩]
    · rw [State.exchange_elements, Equiv.swap_apply_right]
      exact orders.behind _ _ _ before
    · have here : self.called.elements stop = dj := last
      rw [State.exchange_elements, Equiv.swap_apply_of_ne_of_ne (Int.ne_of_gt less)
        (Int.ne_of_gt order), here]
      exact ends

theorem scanDown_spec {dij : α} {k l : Int} (order : k ≤ l) (self : State α) :
    ∃ l' after, (∀ window : Window, window.Admits k (l - 1) →
        scanDown window block dij k l self = some (l', after)) ∧
      after.elements = self.elements ∧ k - 1 ≤ l' ∧ l' ≤ l - 1 ∧ ∀ le, Orders block le →
        (∀ p, l' < p → p < l → le dij (self.elements p)) ∧ (k ≤ l' → le (self.elements l') dij) := by
  induction rounds : (l - k).toNat generalizing l self with
  | zero =>
    have passed : ¬ k ≤ l - 1 := by lia
    refine ⟨l - 1, self, fun window admits => ?_, rfl, by lia, Int.le_refl _, fun le orders =>
      ⟨fun p above below => absurd above (by lia), fun more => absurd more passed⟩⟩
    rw [scanDown, if_neg passed]
  | succ rounds ih =>
    have more : k ≤ l - 1 := by lia
    by_cases behind : block self.calls dij (self.elements (l - 1))
    · obtain ⟨l', after, rest, same, low, high, scanned⟩ := @ih (l - 1) more self.called (by lia)
      refine ⟨l', after, fun window admits => ?_, same, low, by lia, fun le orders => ?_⟩
      · have inner : window.Admits k (l - 1 - 1) := ⟨admits.1, by have := admits.2; lia⟩
        rw [scanDown, if_pos more, State.at_eq admits more (Int.le_refl _)]
        simp only [Option.bind_eq_bind, Option.bind_some, if_pos behind, rest window inner]
      · obtain ⟨behinds, before⟩ := scanned le orders
        refine ⟨fun p above below => ?_, before⟩
        by_cases here : p = l - 1
        · rw [here]
          exact orders.before _ _ _ behind
        · exact behinds p above (by lia)
    · refine ⟨l - 1, self.called, fun window admits => ?_, rfl, by lia, Int.le_refl _, fun le orders =>
        ⟨fun p above below => absurd above (by lia), fun _ => orders.behind _ _ _ behind⟩⟩
      rw [scanDown, if_pos more, State.at_eq admits more (Int.le_refl _)]
      simp only [Option.bind_eq_bind, Option.bind_some, if_neg behind]

theorem scanUp_spec {dij : α} {k l : Int} (self : State α) :
    ∃ k' after, (∀ window : Window, window.Admits (k + 1) l →
        scanUp window block dij l k self = some (k', after)) ∧
      after.elements = self.elements ∧ k + 1 ≤ k' ∧ (k' ≤ k + 1 ∨ k' ≤ l + 1) ∧
      ∀ le, Orders block le →
        (∀ p, k < p → p < k' → le (self.elements p) dij) ∧ (k' ≤ l → le dij (self.elements k')) := by
  induction rounds : (l - k).toNat generalizing k self with
  | zero =>
    have passed : ¬ k + 1 ≤ l := by lia
    refine ⟨k + 1, self, fun window admits => ?_, rfl, Int.le_refl _, .inl (Int.le_refl _),
      fun le orders => ⟨fun p above below => absurd above (by lia), fun more => absurd more passed⟩⟩
    rw [scanUp, if_neg passed]
  | succ rounds ih =>
    have more : k + 1 ≤ l := by lia
    by_cases before : block self.calls (self.elements (k + 1)) dij
    · obtain ⟨k', after, rest, same, low, high, scanned⟩ := @ih (k + 1) self.called (by lia)
      refine ⟨k', after, fun window admits => ?_, same, by lia, .inr (by lia), fun le orders => ?_⟩
      · have inner : window.Admits (k + 1 + 1) l := ⟨by have := admits.1; lia, admits.2⟩
        rw [scanUp, if_pos more, State.at_eq admits (Int.le_refl _) more]
        simp only [Option.bind_eq_bind, Option.bind_some, if_pos before, rest window inner]
      · obtain ⟨befores, behind⟩ := scanned le orders
        refine ⟨fun p above below => ?_, behind⟩
        by_cases here : p = k + 1
        · rw [here]
          exact orders.before _ _ _ before
        · exact befores p (by lia) below
    · refine ⟨k + 1, self.called, fun window admits => ?_, rfl, Int.le_refl _, .inl (Int.le_refl _),
        fun le orders =>
          ⟨fun p above below => absurd above (by lia), fun _ => orders.behind _ _ _ before⟩⟩
      rw [scanUp, if_pos more, State.at_eq admits (Int.le_refl _) more]
      simp only [Option.bind_eq_bind, Option.bind_some, if_neg before]

/-- The two positions pass each other, and swap what is on the wrong side. -/
theorem cross_spec {dij : α} {start stop k l : Int} {fuel : Nat} (enough : (l - k).toNat < fuel)
    (order : k ≤ l) (low : start ≤ k) (high : l ≤ stop) (self : State α) :
    ∃ k' l' after, (∀ window : Window, window.Admits start stop →
        cross window block dij fuel k l self = some (k', l', after)) ∧
      Rearranges self.elements after.elements start stop ∧
      (start < k' ∧ k' ≤ stop + 1) ∧ (start - 1 ≤ l' ∧ l' < stop) ∧ l' < k' ∧
      ∀ le, Orders block le → (∀ p, start ≤ p → p ≤ k → le (self.elements p) dij) →
        (∀ p, l ≤ p → p ≤ stop → le dij (self.elements p)) →
        Parted le after.elements start l' k' stop dij := by
  induction fuel generalizing k l self with
  | zero => lia
  | succ fuel ih =>
    obtain ⟨l1, s1, down, same1, low1, high1, scanned1⟩ := @scanDown_spec _ block dij k l order self
    obtain ⟨k1, s2, up, same2, low2, high2, scanned2⟩ := @scanUp_spec _ block dij k l1 s1
    have downs {window : Window} (admits : window.Admits start stop) :
        scanDown window block dij k l self = some (l1, s1) :=
      down window ⟨Int.le_trans admits.1 low, by have := admits.2; lia⟩
    have ups {window : Window} (admits : window.Admits start stop) :
        scanUp window block dij l1 k s1 = some (k1, s2) :=
      up window ⟨by have := admits.1; lia, by have := admits.2; lia⟩
    have same : s2.elements = self.elements := same2.trans same1
    by_cases more : k1 ≤ l1
    · obtain ⟨k', l', after, rest, moved, first, last, passed, parted⟩ :=
        @ih k1 l1 (by lia) more (by lia) (by lia) (s2.exchange l1 k1)
      have here : start ≤ k1 ∧ k1 ≤ stop := by lia
      have there : start ≤ l1 ∧ l1 ≤ stop := by lia
      refine ⟨k', l', after, fun window admits => ?_, ?_, first, last, passed,
        fun le orders lows highs => parted le orders (fun p early late => ?_) fun p early late => ?_⟩
      · rw [cross, downs admits]
        simp only [Option.bind_eq_bind, Option.bind_some, ups admits, if_pos more,
          State.swap_eq admits here there, rest window admits]
      · have swapped := Rearranges.swap s2.elements there here
        rw [same] at swapped
        exact swapped.trans (same ▸ moved)
      · obtain ⟨-, before⟩ := scanned1 le orders
        obtain ⟨befores, -⟩ := scanned2 le orders
        rw [State.exchange_elements, same]
        by_cases at_ : p = k1
        · rw [at_, Equiv.swap_apply_right]
          exact before (by lia)
        · rw [Equiv.swap_apply_of_ne_of_ne (by lia) at_]
          by_cases old : p ≤ k
          · exact lows p early old
          · rw [← same1]
            exact befores p (by lia) (by lia)
      · obtain ⟨behinds, -⟩ := scanned1 le orders
        obtain ⟨-, behind⟩ := scanned2 le orders
        rw [State.exchange_elements, same]
        by_cases at_ : p = l1
        · rw [at_, Equiv.swap_apply_left, ← same1]
          exact behind more
        · rw [Equiv.swap_apply_of_ne_of_ne at_ (by lia)]
          by_cases old : l ≤ p
          · exact highs p old late
          · exact behinds p (by lia) (by lia)
    · refine ⟨k1, l1, s2, fun window admits => ?_, same ▸ .refl _ _ _, by lia, by lia, by lia,
        fun le orders lows highs => ?_⟩
      · rw [cross, downs admits]
        simp only [Option.bind_eq_bind, Option.bind_some, ups admits, if_neg more]
      · obtain ⟨behinds, -⟩ := scanned1 le orders
        obtain ⟨befores, -⟩ := scanned2 le orders
        rw [same]
        constructor
        · intro p early less
          by_cases old : p ≤ k
          · exact lows p early old
          · rw [← same1]
            exact befores p (by lia) less
        · intro p above late
          by_cases old : l ≤ p
          · exact highs p old late
          · exact behinds p above (by lia)

theorem skipSorted_spec {dij : α} {stop k : Int} (self : State α) :
    ∃ k' after, (∀ window : Window, window.Admits k stop →
        skipSorted window block dij stop k self = some (k', after)) ∧
      after.elements = self.elements ∧ k ≤ k' ∧ (k' ≤ k ∨ k' ≤ stop) ∧
      ∀ le, Orders block le → ∀ p, k ≤ p → p < k' → le (self.elements p) dij := by
  induction rounds : (stop - k).toNat generalizing k self with
  | zero =>
    have done : ¬ k < stop := by lia
    refine ⟨k, self, fun window admits => ?_, rfl, Int.le_refl k, .inl (Int.le_refl k),
      fun le orders p early late => absurd late (by lia)⟩
    rw [skipSorted, if_neg done]
  | succ rounds ih =>
    have more : k < stop := by lia
    by_cases before : block self.calls (self.elements k) dij
    · obtain ⟨k', after, rest, same, low, high, skipped⟩ := @ih (k + 1) self.called (by lia)
      refine ⟨k', after, fun window admits => ?_, same, by lia, .inr (by lia),
        fun le orders p early late => ?_⟩
      · have inner : window.Admits (k + 1) stop := ⟨by have := admits.1; lia, admits.2⟩
        rw [skipSorted, if_pos more, State.at_eq admits (Int.le_refl k) (Int.le_of_lt more)]
        simp only [Option.bind_eq_bind, Option.bind_some, if_pos before, rest window inner]
      · by_cases here : p = k
        · rw [here]
          exact orders.before _ _ _ before
        · exact skipped le orders p (by lia) late
    · refine ⟨k, self.called, fun window admits => ?_, rfl, Int.le_refl k, .inl (Int.le_refl k),
        fun le orders p early late => absurd late (by lia)⟩
      rw [skipSorted, if_pos more, State.at_eq admits (Int.le_refl k) (Int.le_of_lt more)]
      simp only [Option.bind_eq_bind, Option.bind_some, if_neg before]

theorem hybridSort_spec {size : Nat} {start stop : Int} {fuel : Nat}
    (enough : (stop + 1 - start).toNat < fuel) (self : State α) :
    ∃ after, (∀ window : Window, window.Admits start stop →
        hybridSort window block size fuel start stop self = some after) ∧
      Rearranges self.elements after.elements start stop ∧
      ∀ le, Orders block le → Ordered le after.elements start stop := by
  induction fuel generalizing start stop self with
  | zero => lia
  | succ fuel ih =>
    by_cases short : stop + 1 - start ≤ 1
    · refine ⟨self, fun window admits => ?_, .refl _ _ _, fun le orders => .short (by lia)⟩
      simp only [hybridSort, if_pos short]
    by_cases fits : stop + 1 - start ≤ size
    · obtain ⟨after, sorts, moved, ordered⟩ := @insertSort_spec _ block size start stop fits self
      refine ⟨after, fun window admits => ?_, moved, ordered⟩
      simp only [hybridSort, if_neg short, if_pos fits, sorts window admits]
    have order : start < stop := by lia
    obtain ⟨di, dj, s1, ends, moved1, first, last, endsOrdered⟩ := @orderEnds_spec _ block _ _ order self
    obtain ⟨dij, s2, middle, moved2, middleOrdered⟩ := @orderMiddle_spec _ block _ _ _ _ order s1 first last
    obtain ⟨k, l, s3, crossed, moved3, ⟨low, high⟩, ⟨low', high'⟩, passed, parted⟩ :=
      @cross_spec _ block dij start stop start stop fuel (by lia) (Int.le_of_lt order)
        (Int.le_refl start) (Int.le_refl stop) s2
    obtain ⟨k', s4, skips, same4, later, room, skipped⟩ := @skipSorted_spec _ block dij stop k s3
    obtain ⟨s5, left, moved5, ordered5⟩ := @ih start l (by lia) s4
    obtain ⟨s6, right, moved6, ordered6⟩ := @ih k' stop (by lia) s5
    refine ⟨s6, fun window admits => ?_, ?_, fun le orders => ?_⟩
    · have inLeft : window.Admits start l := ⟨admits.1, by have := admits.2; lia⟩
      have inRight : window.Admits k stop := ⟨by have := admits.1; lia, admits.2⟩
      have inLast : window.Admits k' stop := ⟨by have := admits.1; lia, admits.2⟩
      simp only [hybridSort, if_neg short, if_neg fits, ends window admits, Option.bind_eq_bind,
        Option.bind_some, middle window admits, crossed window admits, skips window inRight,
        left window inLeft, right window inLast]
    · have moved := moved1.trans (moved2.trans moved3)
      rw [← same4] at moved
      exact moved.trans ((moved5.widen (fun _ => Int.le_refl start) fun _ => by lia).trans
        (moved6.widen (fun _ => by lia) fun _ => Int.le_refl stop))
    · obtain ⟨before, behind⟩ := middleOrdered le orders (endsOrdered le orders)
      have parts := parted le orders (fun p early late => by rwa [Int.le_antisymm late early])
        fun p early late => by rwa [Int.le_antisymm late early]
      have parts4 : Parted le s4.elements start l k' stop dij := by
        rw [same4]
        refine ⟨fun p early less => ?_, parts.highs⟩
        by_cases old : p < k
        · exact parts.lows p early old
        · exact skipped le orders p (by lia) less
      have apart : l < k' := Int.lt_of_lt_of_le passed later
      have parts6 := (parts4.left apart moved5).right apart moved6
      have leftOrdered := (ordered5 le orders).keep moved6 fun p early late => by lia
      exact parts6.join orders.trans leftOrdered (ordered6 le orders)

/-- Any two elements are in one order or the other, and the order is transitive. -/
structure TotalPreorder (le : α → α → Prop) : Prop where
  total : ∀ x y, le x y ∨ le y x
  trans : ∀ x y z, le x y → le y z → le x z

/-- The block answers the order, or its strict part. -/
def Answers (block : Block α) (le : α → α → Prop) : Prop :=
  (∀ calls x y, block calls x y ↔ le x y) ∨ ∀ calls x y, block calls x y ↔ le x y ∧ ¬ le y x

theorem Answers.orders {le : α → α → Prop} (answers : Answers block le)
    (preorder : TotalPreorder le) : Orders block le where
  trans := preorder.trans
  before calls x y before := by
    rcases answers with weak | strict
    · exact (weak calls x y).mp before
    · exact ((strict calls x y).mp before).1
  behind calls x y behind := by
    rcases answers with weak | strict
    · exact (preorder.total x y).resolve_left fun before => behind ((weak calls x y).mpr before)
    · by_contra other
      have before := (preorder.total x y).resolve_right other
      exact behind ((strict calls x y).mpr ⟨before, other⟩)

/-- A sort ends without an access outside its range, permutes the range, and leaves each element in
order with its successor where the block answers a total preorder. -/
def Sorts (block : Block α) (start stop : Int) (self : State α)
    (sort : Window → Option (State α)) : Prop :=
  ∃ after, (∀ window : Window, window.Admits start stop → sort window = some after) ∧
    Rearranges self.elements after.elements start stop ∧
    ∀ le, TotalPreorder le → Answers block le →
      ∀ p, start ≤ p → p < stop → le (after.elements p) (after.elements (p + 1))

theorem Orders.sorts {start stop : Int} {self after : State α} {sort : Window → Option (State α)}
    (sorted : ∀ window : Window, window.Admits start stop → sort window = some after)
    (moved : Rearranges self.elements after.elements start stop)
    (ordered : ∀ le, Orders block le → Ordered le after.elements start stop) :
    Sorts block start stop self sort :=
  ⟨after, sorted, moved, fun le preorder answers p low less =>
    ordered le (answers.orders preorder) p (p + 1) low (Int.lt_succ p) less⟩

/-- All three sorts do so, with whatever the block answers at each of its calls. -/
theorem sorts_range (block : Block α) (size : Nat) (start stop : Int) (self : State α) (fuel : Nat)
    (enough : (stop + 1 - start).toNat < fuel) :
    Sorts block start stop self (fun window => sortToWith window block fuel start stop self) ∧
    Sorts block start stop self (fun window => hybridSort window block size fuel start stop self) ∧
    (stop + 1 - start ≤ size →
      Sorts block start stop self fun window => insertSort window block size start stop self) := by
  refine ⟨?_, ?_, fun fits => ?_⟩
  · obtain ⟨after, sorted, -, moved, ordered⟩ := @sortToWith_spec _ block start stop fuel enough self
    exact Orders.sorts sorted moved ordered
  · obtain ⟨after, sorted, moved, ordered⟩ := @hybridSort_spec _ block size start stop fuel enough self
    exact Orders.sorts sorted moved ordered
  · obtain ⟨after, sorted, moved, ordered⟩ := @insertSort_spec _ block size start stop fits self
    exact Orders.sorts sorted moved ordered

/-- Three numbers, where nothing else can be accessed. -/
theorem sorts_range_of_three : ∃ after : State Nat,
    sortToWith ⟨1, 3⟩ (fun _ x y => decide (x ≤ y)) 4 1 3
      ⟨fun p => [3, 1, 2].getD (p - 1).toNat 0, fun _ => 0, 0⟩ = some after ∧
    after.elements 1 ≤ after.elements 2 ∧ after.elements 2 ≤ after.elements 3 := by
  obtain ⟨⟨after, sorted, -, ordered⟩, -⟩ := sorts_range (fun _ x y => decide (x ≤ y)) 2 1 3
    ⟨fun p => [3, 1, 2].getD (p - 1).toNat 0, fun _ => 0, 0⟩ 4 (by decide)
  have preorder : TotalPreorder fun x y : Nat => x ≤ y :=
    ⟨Nat.le_total, fun _ _ _ first second => Nat.le_trans first second⟩
  have inOrder := ordered _ preorder (.inl fun _ _ _ => decide_eq_true_iff)
  exact ⟨after, sorted ⟨1, 3⟩ ⟨Int.le_refl 1, Int.le_refl 3⟩, inOrder 1 (by decide) (by decide),
    inOrder 2 (by decide) (by decide)⟩

end Egg.Collection.RangeSort
