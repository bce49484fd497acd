import Egg.Collection.RangeSorted

/-! Insertion sort of a range that fits the scratch. -/
namespace Egg.Collection.RangeSort

open Egg.Data

variable {α : Type} {block : Block α} {size : Nat}

namespace State

variable {self : State α} {index : Int}

theorem scratchAt_eq (low : 1 ≤ index) (high : index ≤ size) :
    self.scratchAt size index = some (self.scratch index) :=
  if_pos ⟨low, high⟩

theorem scratchAtPut_eq (low : 1 ≤ index) (high : index ≤ size) (element : α) :
    self.scratchAtPut size index element =
      some { self with scratch := Function.update self.scratch index element } :=
  if_pos ⟨low, high⟩

end State

/-- The place is behind elements that are before this one, and before one that is not. -/
theorem findPlace_spec {ai : α} {i j : Int} (low : 1 ≤ j) (order : j ≤ i) (room : i - 1 ≤ size)
    (self : State α) :
    ∃ j' calls, findPlace block size ai i j self = some (j', { self with calls }) ∧
      j ≤ j' ∧ j' ≤ i ∧ ∀ le, Orders block le →
        (∀ p, j ≤ p → p < j' → le (self.scratch p) ai) ∧ (j' < i → le ai (self.scratch j')) := by
  induction rounds : (i - j).toNat generalizing j self with
  | zero =>
    have done : ¬ j < i := by lia
    refine ⟨j, self.calls, ?_, Int.le_refl j, order, fun le orders =>
      ⟨fun p early late => absurd late (by lia), fun more => absurd more done⟩⟩
    rw [findPlace, if_neg done]
  | succ rounds ih =>
    have more : j < i := by lia
    have read := @State.scratchAt_eq _ size self j low (by lia)
    by_cases before : block self.calls (self.scratch j) ai
    · obtain ⟨j', calls, rest, later, inside, places⟩ :=
        @ih (j + 1) (by lia) (by lia) self.called (by lia)
      refine ⟨j', calls, ?_, by lia, inside, fun le orders => ?_⟩
      · rw [findPlace, if_pos more, read]
        simp only [Option.bind_eq_bind, Option.bind_some, if_pos before, rest]
        rfl
      · obtain ⟨befores, behind⟩ := places le orders
        refine ⟨fun p early late => ?_, behind⟩
        by_cases here : p = j
        · rw [here]
          exact orders.before _ _ _ before
        · exact befores p (by lia) late
    · refine ⟨j, self.called.calls, ?_, Int.le_refl j, order, fun le orders =>
        ⟨fun p early late => absurd late (by lia), fun _ => orders.behind _ _ _ before⟩⟩
      rw [findPlace, if_pos more, read]
      simp only [Option.bind_eq_bind, Option.bind_some, if_neg before]
      rfl

/-- The elements from a position on are one position higher. -/
theorem shift_spec {j s : Int} (low : 1 ≤ j) (order : j ≤ s) (high : s ≤ size) (self : State α) :
    shift size j s self = some { self with
      scratch := fun p => if j < p ∧ p ≤ s then self.scratch (p - 1) else self.scratch p } := by
  induction rounds : (s - j).toNat generalizing s self with
  | zero =>
    have done : ¬ j < s := by lia
    have same : (fun p => if j < p ∧ p ≤ s then self.scratch (p - 1) else self.scratch p) =
        self.scratch := funext fun p => if_neg (by lia)
    rw [shift, if_neg done, same]
  | succ rounds ih =>
    have more : j < s := by lia
    have read := @State.scratchAt_eq _ size self (s - 1) (by lia) (by lia)
    have wrote := @State.scratchAtPut_eq _ size self s (by lia) high (self.scratch (s - 1))
    have rest := @ih (s - 1) (by lia) (by lia)
      { self with scratch := Function.update self.scratch s (self.scratch (s - 1)) } (by lia)
    rw [shift, if_pos more, read]
    simp only [Option.bind_eq_bind, Option.bind_some, wrote, rest]
    congr 2
    funext p
    by_cases top : p = s
    · rw [if_neg (by lia), if_pos (by lia), top, Function.update_self]
    · by_cases inside : j < p ∧ p ≤ s - 1
      · have other : p - 1 ≠ s := by lia
        rw [if_pos inside, if_pos (by lia), Function.update_of_ne other]
      · rw [if_neg inside, if_neg (by lia), Function.update_of_ne top]

/-- An element of the range is in its place among those before it. -/
theorem insert_spec {start i : Int} (low : 2 ≤ i) (room : i ≤ size) (self : State α) :
    ∃ after, (∀ window : Window, window.Admits start (start + i - 1) →
        insert window block size start i self = some after) ∧
      after.elements = self.elements ∧
      Rearranges (Function.update self.scratch i (self.elements (start + i - 1))) after.scratch 1 i ∧
      ∀ le, Orders block le → Ordered le self.scratch 1 (i - 1) → Ordered le after.scratch 1 i := by
  obtain ⟨ai, here⟩ : ∃ ai, self.elements (start + i - 1) = ai := ⟨_, rfl⟩
  obtain ⟨j, calls, found, first, last, places⟩ :=
    @findPlace_spec _ block size ai i 1 (Int.le_refl 1) (by lia) (by lia) self
  obtain ⟨inserted, same⟩ : ∃ inserted : Int → α, inserted = fun p =>
      if p = j then ai else if j < p ∧ p ≤ i then self.scratch (p - 1) else self.scratch p := ⟨_, rfl⟩
  refine ⟨{ self with scratch := inserted, calls }, fun window admits => ?_, rfl, ?_,
    fun le orders ordered => ?_⟩
  · have read := @State.at_eq _ window self (start + i - 1) _ _ admits (by lia) (Int.le_refl _)
    have moved : makeRoom size j i { self with calls } = some { self with
        scratch := fun p => if j < p ∧ p ≤ i then self.scratch (p - 1) else self.scratch p, calls } := by
      rw [makeRoom]
      split
      · exact shift_spec first last room _
      · have top : j = i := by lia
        subst top
        congr 2
        exact funext fun p => (if_neg (by lia)).symm
    simp only [insert, read, here, Option.bind_eq_bind, Option.bind_some, found, moved,
      State.scratchAtPut_eq first (Int.le_trans last room), same]
    congr 2
    funext p
    by_cases place : p = j
    · rw [place, Function.update_self, if_pos rfl]
    · rw [Function.update_of_ne place, if_neg place]
  · have rearranged : Rearranges (Function.update self.scratch i ai) _ 1 i :=
      (Rearranges.insert _ last).widen (fun _ => first) fun _ => Int.le_refl i
    have agree : inserted = fun p => if p = j then Function.update self.scratch i ai i
        else if j < p ∧ p ≤ i then Function.update self.scratch i ai (p - 1)
        else Function.update self.scratch i ai p := by
      rw [same, Function.update_self]
      funext p
      split
      · rfl
      · next place =>
        split
        · next inside =>
          have other : p - 1 ≠ i := by lia
          rw [Function.update_of_ne other]
        · next away =>
          have other : p ≠ i := by lia
          rw [Function.update_of_ne other]
    rw [here]
    change Rearranges _ inserted 1 i
    rw [agree]
    exact rearranged
  · obtain ⟨befores, behind⟩ := places le orders
    intro p q early less late
    change le (inserted p) (inserted q)
    have low_ {p : Int} (less : p < j) : inserted p = self.scratch p := by
      rw [same]
      exact (if_neg (by lia)).trans (if_neg (by lia))
    have place : inserted j = ai := by
      rw [same]
      exact if_pos rfl
    have high_ {p : Int} (above : j < p) (top : p ≤ i) : inserted p = self.scratch (p - 1) := by
      rw [same]
      exact (if_neg (by lia)).trans (if_pos ⟨above, top⟩)
    rcases Int.lt_trichotomy p j with below | rfl | above
    · rw [low_ below]
      rcases Int.lt_trichotomy q j with below' | rfl | above'
      · rw [low_ below']
        exact ordered p q early less (by lia)
      · rw [place]
        exact befores p early below
      · rw [high_ above' late]
        exact ordered p (q - 1) early (by lia) (by lia)
    · rw [place, high_ less late]
      have next := behind (by lia)
      by_cases adjacent : q - 1 = p
      · rwa [adjacent]
      · exact orders.trans _ _ _ next (ordered p (q - 1) early (by lia) (by lia))
    · rw [high_ above (by lia), high_ (Int.lt_trans above less) late]
      exact ordered (p - 1) (q - 1) (by lia) (by lia) (by lia)

/-- The scratch holds the first elements of the range. -/
def Holds (start i : Int) (self : State α) : Prop :=
  ∃ held, Rearranges (fun p => self.elements (start - 1 + p)) held 1 i ∧
    ∀ p, 1 ≤ p → p ≤ i → self.scratch p = held p

theorem insertAll_spec {start n i : Int} (low : 2 ≤ i) (order : i ≤ n + 1) (room : n ≤ size)
    (self : State α) (holds : Holds start (i - 1) self) :
    ∃ after, (∀ window : Window, window.Admits start (start + n - 1) →
        insertAll window block size start n i self = some after) ∧
      after.elements = self.elements ∧ Holds start n after ∧
      ∀ le, Orders block le → Ordered le self.scratch 1 (i - 1) → Ordered le after.scratch 1 n := by
  induction rounds : (n + 1 - i).toNat generalizing i self with
  | zero =>
    have last : i - 1 = n := by lia
    refine ⟨self, fun window admits => ?_, rfl, last ▸ holds, fun le orders ordered => last ▸ ordered⟩
    rw [insertAll, if_neg (by lia)]
  | succ rounds ih =>
    obtain ⟨s1, inserts, elements1, moved1, ordered1⟩ :=
      @insert_spec _ block size start i low (by lia) self
    have holds1 : Holds start (i + 1 - 1) s1 := by
      obtain ⟨held, rearranged, same⟩ := holds
      have agree (p : Int) (early : 1 ≤ p) (late : p ≤ i) :
          Function.update self.scratch i (self.elements (start + i - 1)) p = held p := by
        by_cases top : p = i
        · have position : start - 1 + i = start + i - 1 := by ring
          rw [top, Function.update_self, rearranged.outside (by lia), position]
        · rw [Function.update_of_ne top]
          exact same p early (by lia)
      obtain ⟨held', rearranged', same'⟩ := moved1.alike agree
      rw [Int.add_sub_cancel]
      refine ⟨held', ?_, same'⟩
      rw [elements1]
      exact (rearranged.widen (fun _ => Int.le_refl 1) fun _ => by lia).trans rearranged'
    obtain ⟨s2, rest, elements2, holds2, ordered2⟩ := @ih (i + 1) (by lia) (by lia) s1 holds1 (by lia)
    refine ⟨s2, fun window admits => ?_, elements2.trans elements1, holds2, fun le orders ordered => ?_⟩
    · have first := inserts window ⟨admits.1, by have := admits.2; lia⟩
      rw [insertAll, if_pos (by lia), first]
      exact rest window admits
    · have next := ordered1 le orders ordered
      rw [← Int.add_sub_cancel i 1] at next
      exact ordered2 le orders next

theorem copyBack_spec {start n i : Int} (low : 1 ≤ i) (room : n ≤ size) (self : State α) :
    ∃ after, (∀ window : Window, window.Admits start (start + n - 1) →
        copyBack window size start n i self = some after) ∧ after.scratch = self.scratch ∧
      after.elements = fun q => if start + i - 1 ≤ q ∧ q ≤ start + n - 1 then
        self.scratch (q - (start - 1)) else self.elements q := by
  induction rounds : (n + 1 - i).toNat generalizing i self with
  | zero =>
    refine ⟨self, fun window admits => ?_, rfl, funext fun q => (if_neg (by lia)).symm⟩
    rw [copyBack, if_neg (by lia)]
  | succ rounds ih =>
    obtain ⟨after, rest, scratch, elements⟩ := @ih (i + 1) (by lia)
      { self with elements := Function.update self.elements (start + i - 1) (self.scratch i) } (by lia)
    refine ⟨after, fun window admits => ?_, scratch, ?_⟩
    · have read := @State.scratchAt_eq _ size self i low (by lia)
      have wrote := @State.atPut_eq _ window self (start + i - 1) _ _ admits (by lia) (by lia)
        (self.scratch i)
      rw [copyBack, if_pos (by lia), read]
      simp only [Option.bind_eq_bind, Option.bind_some, wrote, rest window admits]
    · rw [elements]
      funext q
      dsimp only
      by_cases first : q = start + i - 1
      · have position : start + i - 1 - (start - 1) = i := by ring
        rw [if_neg (by lia), if_pos (by lia), first, Function.update_self, position]
      · rw [Function.update_of_ne first]
        by_cases inside : start + (i + 1) - 1 ≤ q ∧ q ≤ start + n - 1
        · rw [if_pos inside, if_pos (by lia)]
        · rw [if_neg inside, if_neg (by lia)]

/-- A range that fits the scratch is sorted. -/
theorem insertSort_spec {start stop : Int} (room : stop + 1 - start ≤ size) (self : State α) :
    ∃ after, (∀ window : Window, window.Admits start stop →
        insertSort window block size start stop self = some after) ∧
      Rearranges self.elements after.elements start stop ∧
      ∀ le, Orders block le → Ordered le after.elements start stop := by
  by_cases short : stop + 1 - start ≤ 1
  · refine ⟨self, fun window admits => ?_, .refl _ _ _, fun le orders => .short (by lia)⟩
    simp only [insertSort, if_pos short]
  · obtain ⟨n, count⟩ : ∃ n, stop + 1 - start = n := ⟨_, rfl⟩
    rw [count] at short room
    have last : start + n - 1 = stop := by lia
    obtain ⟨s0, begun⟩ : ∃ s0 : State α, s0 =
        { self with scratch := Function.update self.scratch 1 (self.elements start) } := ⟨_, rfl⟩
    have elements0 : s0.elements = self.elements := by rw [begun]
    have holds : Holds start (2 - 1) s0 := by
      refine ⟨_, .refl _ _ _, fun p low high => ?_⟩
      have first : p = 1 := by lia
      have position : start - 1 + 1 = start := by ring
      rw [first, position, elements0, begun]
      simp only [Function.update_self]
    obtain ⟨s1, inserted, elements1, ⟨held, rearranged, same⟩, ordered1⟩ :=
      @insertAll_spec _ block size start n 2 (Int.le_refl 2) (by lia) room s0 holds
    obtain ⟨s2, copied, scratch2, elements2⟩ := @copyBack_spec _ size start n 1 (Int.le_refl 1) room s1
    have inside (q : Int) : start + 1 - 1 ≤ q ∧ q ≤ start + n - 1 ↔ start ≤ q ∧ q ≤ stop := by lia
    refine ⟨s2, fun window admits => ?_, ?_, fun le orders p q early less late => ?_⟩
    · have read := @State.at_eq _ window self start start stop admits (Int.le_refl start) (by lia)
      have wrote := @State.scratchAtPut_eq _ size self 1 (Int.le_refl 1) (by lia) (self.elements start)
      rw [← last] at admits
      simp only [insertSort, count, if_neg short, read, wrote, Option.bind_eq_bind, Option.bind_some,
        ← begun, inserted window admits, copied window admits]
    · rw [elements1, elements0] at rearranged
      have moved := rearranged.shift (start - 1)
      have start_ : start - 1 + 1 = start := by ring
      have stop_ : start - 1 + n = stop := by lia
      rw [start_, stop_] at moved
      have agree : s2.elements = fun q => held (q - (start - 1)) := by
        rw [elements2]
        funext q
        by_cases within : start ≤ q ∧ q ≤ stop
        · rw [if_pos ((inside q).mpr within)]
          exact same _ (by lia) (by lia)
        · have position : start - 1 + (q - (start - 1)) = q := by ring
          rw [if_neg fun within' => within ((inside q).mp within'), elements1, elements0,
            rearranged.outside (by lia), position]
      rw [agree]
      exact moved
    · have whole : Ordered le s0.scratch 1 (2 - 1) := .short (by lia)
      rw [elements2]
      dsimp only
      rw [if_pos ((inside p).mpr ⟨early, by lia⟩), if_pos ((inside q).mpr ⟨by lia, late⟩)]
      exact ordered1 le orders whole _ _ (by lia) (by lia) (by lia)

end Egg.Collection.RangeSort
