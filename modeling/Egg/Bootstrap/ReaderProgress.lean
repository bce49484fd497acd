import Egg.Bootstrap.TonelReader

/-! Where the reader of Tonel files ends, and the turns of its loops that take nothing. -/
namespace Egg.Bootstrap

open Egg.Data

section Lengths

theorem skipSeparators_le (input : Text) : (skipSeparators input).length ≤ input.length :=
  (List.dropWhile_suffix isSeparator).length_le

theorem not_separator {input rest : Text} {c : Nat} (starts : skipSeparators input = c :: rest) :
    isSeparator c = false := by
  have head := List.head?_dropWhile_not isSeparator input
  rw [skipSeparators] at starts
  simpa [starts] using head

theorem skipSeparators_of_starts {input rest : Text} {c : Nat}
    (starts : skipSeparators input = c :: rest) : skipSeparators (c :: rest) = c :: rest := by
  rw [skipSeparators, List.dropWhile_cons_of_neg]
  simp [not_separator starts]

theorem skipOptional_le (c : Char) (input : Text) :
    (skipOptional c input).length ≤ input.length := by
  rw [skipOptional]
  have separated := skipSeparators_le input
  split
  · exact (List.drop_suffix ..).length_le.trans separated
  · exact separated

theorem skipOptional_lt {c : Char} {input rest : Text}
    (next : skipSeparators input = c.toNat :: rest) :
    (skipOptional c input).length < input.length := by
  have separated := skipSeparators_le input
  simp only [next, List.length_cons] at separated
  simp only [skipOptional, next, List.head?_cons, if_true, List.drop_succ_cons, List.drop_zero]
  exact separated

theorem skipToMatch_le (quote : Nat) (input : Text) :
    (skipToMatch quote input).length ≤ input.length := by
  fun_induction skipToMatch quote input with
  | case1 => exact le_rfl
  | case2 => exact Nat.zero_le _
  | case3 more ih => exact ih.trans (Nat.le_add_right _ 2)
  | case4 => exact Nat.le_succ _
  | case5 c rest _ ih => exact ih.trans (Nat.le_succ _)

theorem stringBody_le (input : Text) : (stringBody input).2.length ≤ input.length := by
  fun_induction stringBody input with
  | case1 => exact le_rfl
  | case2 => exact Nat.zero_le _
  | case3 more string after same ih =>
    rw [same] at ih
    exact ih.trans (Nat.le_add_right _ 2)
  | case4 => exact Nat.le_succ _
  | case5 c rest _ string after same ih =>
    rw [same] at ih
    exact ih.trans (Nat.le_succ _)

theorem parseSTONSymbol_le (c : Nat) (rest : Text) :
    (parseSTONSymbol (c :: rest)).2.length ≤ rest.length := by
  rw [parseSTONSymbol]
  simp only [List.drop_succ_cons, List.drop_zero]
  split
  · exact (stringBody_le _).trans (List.drop_suffix ..).length_le
  · exact (List.dropWhile_suffix _).length_le

theorem find_lt {sought : Text} (proper : sought ≠ []) {input before after : Text}
    (found : find sought input = some (before, after)) : after.length < input.length := by
  induction input generalizing before after with
  | nil => simp [find] at found
  | cons c rest ih =>
    rw [find] at found
    split at found
    · simp only [Option.some.injEq, Prod.mk.injEq] at found
      obtain ⟨-, rfl⟩ := found
      have positive := List.length_pos_iff.mpr proper
      simp only [List.length_drop, List.length_cons]
      lia
    · obtain ⟨⟨earlier, later⟩, found', same⟩ := Option.map_eq_some_iff.mp found
      simp only [Prod.mk.injEq] at same
      obtain ⟨-, rfl⟩ := same
      exact (ih found').trans (Nat.lt_succ_self _)

end Lengths

section Values

/-- Something was read, or a mark stands here that ends a word. -/
def Consumed (input after : Text) : Prop :=
  after.length < input.length ∨ after = input ∧ ∀ c, input.head? = some c → inWord c = false

theorem Consumed.le {input after : Text} (consumed : Consumed input after) :
    after.length ≤ input.length := by
  obtain less | ⟨rfl, -⟩ := consumed
  · exact less.le
  · exact le_rfl

theorem word_consumed (input : Text) : Consumed input (input.dropWhile inWord) := by
  cases input with
  | nil => exact .inr ⟨rfl, by simp⟩
  | cons c rest =>
    cases inside : inWord c with
    | true =>
      left
      rw [List.dropWhile_cons_of_pos inside]
      exact Nat.lt_succ_of_le (List.dropWhile_suffix _).length_le
    | false =>
      right
      rw [List.dropWhile_cons_of_neg (by simp [inside])]
      exact ⟨rfl, by simp [inside]⟩

/-- A mark that ends a word without being a separator. -/
theorem mark_of_not_inWord {input rest : Text} {c : Nat}
    (starts : skipSeparators input = c :: rest) (outside : inWord c = false) :
    c = ','.toNat ∨ c = '}'.toNat ∨ c = ':'.toNat := by
  have inside := not_separator starts
  simpa [inWord, inside, or_iff_not_imp_left] using outside

theorem values_consume (fuel : Nat) :
    (∀ input value after, parseSTONValue fuel input = some (value, after) →
      Consumed (skipSeparators input) after) ∧
    ∀ arr input values after, parseSTONArray fuel arr input = some (values, after) →
      after.length ≤ input.length := by
  induction fuel with
  | zero => exact ⟨nofun, nofun⟩
  | succ fuel ih =>
    obtain ⟨value_ih, array_ih⟩ := ih
    constructor
    · intro input value after found
      rw [parseSTONValue] at found
      cases starts : skipSeparators input with
      | nil =>
        simp only [starts, Option.some.injEq, Prod.mk.injEq] at found
        exact .inr ⟨found.2.symm, nofun⟩
      | cons c rest =>
        simp only [starts] at found
        split_ifs at found
        · left
          simp only [Option.some.injEq] at found
          simpa [found] using Nat.lt_succ_of_le (parseSTONSymbol_le c rest)
        · left
          simp only [parseSTONString, List.drop_succ_cons, List.drop_zero,
            Option.some.injEq] at found
          simpa [found] using Nat.lt_succ_of_le (stringBody_le rest)
        · left
          obtain ⟨⟨arr, after'⟩, found', same⟩ := Option.map_eq_some_iff.mp found
          simp only [Prod.mk.injEq] at same
          obtain ⟨-, rfl⟩ := same
          exact Nat.lt_succ_of_le (array_ih _ _ _ _ found')
        · simp only [Option.some.injEq, Prod.mk.injEq] at found
          rw [← found.2]
          exact word_consumed _
    · intro arr input values after found
      rw [parseSTONArray] at found
      have separated := skipSeparators_le input
      cases starts : skipSeparators input with
      | nil =>
        simp only [starts, Option.some.injEq, Prod.mk.injEq] at found
        simp [← found.2]
      | cons c rest =>
        simp only [starts] at found
        rw [starts] at separated
        split_ifs at found
        · simp only [Option.some.injEq, Prod.mk.injEq] at found
          rw [← found.2]
          exact (Nat.le_succ _).trans separated
        · obtain ⟨⟨element, middle⟩, begun, found'⟩ := Option.bind_eq_some_iff.mp found
          have read := (value_ih _ _ _ begun).le
          rw [skipSeparators_of_starts starts] at read
          calc after.length
              ≤ (skipOptional ',' middle).length := array_ih _ _ _ _ found'
            _ ≤ middle.length := skipOptional_le ..
            _ ≤ (c :: rest).length := read
            _ ≤ input.length := separated

theorem values_grow (fuel : Nat) :
    (∀ input, Extends (parseSTONValue fuel input) (parseSTONValue (fuel + 1) input)) ∧
    ∀ arr input, Extends (parseSTONArray fuel arr input) (parseSTONArray (fuel + 1) arr input) := by
  induction fuel with
  | zero => exact ⟨fun _ => .nothing, fun _ _ => .nothing⟩
  | succ fuel ih =>
    obtain ⟨value_ih, array_ih⟩ := ih
    constructor
    · intro input
      rw [parseSTONValue, parseSTONValue]
      cases skipSeparators input with
      | nil => exact .refl _
      | cons c rest =>
        dsimp only
        split_ifs
        · exact .refl _
        · exact .refl _
        · exact (array_ih [] rest).map _
        · exact .refl _
    · intro arr input
      rw [parseSTONArray, parseSTONArray]
      cases skipSeparators input with
      | nil => exact .refl _
      | cons c rest =>
        dsimp only
        split_ifs
        · exact .refl _
        · exact (value_ih _).bind fun _ => array_ih _ _

theorem value_grows (input : Text) : Grows fun fuel => parseSTONValue fuel input :=
  fun fuel => (values_grow fuel).1 input

theorem array_grows (arr : List Text) (input : Text) :
    Grows fun fuel => parseSTONArray fuel arr input :=
  fun fuel => (values_grow fuel).2 arr input

theorem value_consumes {input value after : Text}
    (reads : Converges (fun fuel => parseSTONValue fuel input) (value, after)) :
    Consumed (skipSeparators input) after := by
  obtain ⟨bound, reads⟩ := reads
  exact (values_consume bound).1 _ _ _ (reads bound le_rfl)

end Values

section Maps

theorem mapEntry_grows (input : Text) : Grows fun fuel => mapEntry fuel input :=
  fun _ => (value_grows input _).bind fun _ => (value_grows _ _).map _

/-- An entry takes a mark at least, where it does not stand at the end of the map. -/
theorem mapEntry_lt {input rest after : Text} {c fuel : Nat} {entry : Text × Text}
    (starts : skipSeparators input = c :: rest) («open» : c ≠ '}'.toNat)
    (found : mapEntry fuel (c :: rest) = some (entry, after)) :
    after.length < (c :: rest).length := by
  obtain ⟨⟨key, middle⟩, keyed, found⟩ := Option.bind_eq_some_iff.mp found
  obtain ⟨⟨value, last⟩, valued, same⟩ := Option.map_eq_some_iff.mp found
  simp only [Prod.mk.injEq] at same
  obtain ⟨-, rfl⟩ := same
  have key_read := (values_consume fuel).1 _ _ _ keyed
  have value_read := (values_consume fuel).1 _ _ _ valued
  rw [skipSeparators_of_starts starts] at key_read
  have comma := skipOptional_le ',' last
  have colon := skipOptional_le ':' middle
  have separated := skipSeparators_le (skipSeparators (skipOptional ':' middle))
  have separated' := skipSeparators_le (skipOptional ':' middle)
  have value_le := value_read.le
  obtain less | ⟨rfl, outside⟩ := key_read
  · lia
  · have mark := mark_of_not_inWord starts (outside c rfl)
    have again := skipSeparators_of_starts starts
    obtain rfl | rfl | rfl := mark
    · have kept : skipOptional ':' (','.toNat :: rest) = ','.toNat :: rest := by
        simp only [skipOptional, again, List.head?_cons]
        rfl
      rw [kept, again] at value_read
      obtain less | ⟨rfl, -⟩ := again ▸ value_read
      · lia
      · exact skipOptional_lt again
    · exact absurd rfl «open»
    · have passed := skipOptional_lt again
      lia

theorem mapEntries_grow (fuel : Nat) :
    ∀ map input, Extends (mapEntries fuel map input) (mapEntries (fuel + 1) map input) := by
  induction fuel with
  | zero => exact fun _ _ => .nothing
  | succ fuel ih =>
    intro map input
    rw [mapEntries, mapEntries]
    cases skipSeparators input with
    | nil => exact .refl _
    | cons c rest =>
      dsimp only
      split_ifs
      · exact .refl _
      · exact (mapEntry_grows _ _).bind fun _ => ih _ _

theorem mapEntries_le {fuel : Nat} : ∀ {map fields : Fields} {input after : Text},
    mapEntries fuel map input = some (fields, after) → after.length ≤ input.length := by
  induction fuel with
  | zero => exact nofun
  | succ fuel ih =>
    intro map fields input after found
    rw [mapEntries] at found
    have separated := skipSeparators_le input
    cases starts : skipSeparators input with
    | nil =>
      simp only [starts, Option.some.injEq, Prod.mk.injEq] at found
      simp [← found.2]
    | cons c rest =>
      simp only [starts] at found
      rw [starts] at separated
      split_ifs at found with closed
      · simp only [Option.some.injEq, Prod.mk.injEq] at found
        rw [← found.2]
        exact (Nat.le_succ _).trans separated
      · obtain ⟨⟨entry, middle⟩, begun, found'⟩ := Option.bind_eq_some_iff.mp found
        calc after.length
            ≤ middle.length := ih found'
          _ ≤ (c :: rest).length := (mapEntry_lt starts closed begun).le
          _ ≤ input.length := separated

theorem parseSTONMap_grows (input : Text) : Grows fun fuel => parseSTONMap fuel input := by
  intro fuel
  simp only [parseSTONMap]
  cases skipSeparators input with
  | nil => exact .refl _
  | cons c rest =>
    dsimp only
    split_ifs
    · exact mapEntries_grow fuel _ _
    · exact .refl _

/-- Nothing is read where no brace stands. -/
theorem parseSTONMap_le {fuel : Nat} {input after : Text} {fields : Fields}
    (found : parseSTONMap fuel input = some (fields, after)) :
    after.length < (skipSeparators input).length ∨ after = skipSeparators input ∧
      (skipSeparators input).head? ≠ some '{'.toNat := by
  rw [parseSTONMap] at found
  cases starts : skipSeparators input with
  | nil =>
    simp only [starts, Option.some.injEq, Prod.mk.injEq] at found
    exact .inr ⟨found.2.symm, nofun⟩
  | cons c rest =>
    simp only [starts] at found
    split_ifs at found with opened
    · exact .inl (Nat.lt_succ_of_le (mapEntries_le found))
    · simp only [Option.some.injEq, Prod.mk.injEq] at found
      exact .inr ⟨found.2.symm, by simpa using opened⟩

end Maps

section Methods

theorem turn_lt {block : Block} (going : block.left ≠ []) :
    block.turn.left.length < block.left.length := by
  obtain ⟨nested, prev, left⟩ := block
  cases left with
  | nil => exact absurd rfl going
  | cons ch rest =>
    simp only [Block.turn]
    split_ifs
    · exact Nat.lt_succ_self _
    · exact Nat.lt_succ_self _
    · exact Nat.lt_succ_self _
    · exact Nat.lt_succ_of_le (skipToMatch_le ch rest)
    · exact Nat.lt_succ_self _

theorem nextBlock_grows (input : Text) : Grows fun fuel => nextBlock fuel input :=
  fun fuel => (Extends.loop (fun _ _ => .refl _) fuel _).map _

/-- The loop over a body always comes to an end. -/
theorem nextBlock_ends (input : Text) :
    ∃ outcome, Converges (fun fuel => nextBlock fuel input) outcome := by
  have step : ∀ block : Block, True → block.done = false → ∃ next,
      Converges (fun _ => some block.turn) next ∧ True ∧
        next.left.length < block.left.length := by
    intro block _ going
    simp only [Block.done, Bool.or_eq_false_iff, decide_eq_false_iff_not] at going
    exact ⟨block.turn, .pure _, trivial, turn_lt going.2⟩
  obtain ⟨block, runs, -⟩ := Converges.loop_of_measure Block.done
    (fun _ block => some block.turn) (fun block => block.left.length) step
    (trivial : (fun _ : Block => True) ⟨1, 0, input.dropWhile isNewline⟩)
  exact ⟨_, runs.map _⟩

theorem loop_left_le (fuel : Nat) : ∀ {block last : Block},
    loop Block.done (fun _ block => some block.turn) fuel block = some last →
    last.left.length ≤ block.left.length := by
  induction fuel with
  | zero => exact nofun
  | succ fuel ih =>
    intro block last found
    rw [loop] at found
    split at found
    · simp only [Option.some.injEq] at found
      rw [found]
    · rename_i going
      simp only [Block.done, Bool.or_eq_true, decide_eq_true_eq, not_or] at going
      exact (ih found).trans (turn_lt going.2).le

theorem nextBlock_le {fuel : Nat} {input body after : Text}
    (found : nextBlock fuel input = some (.ok (body, after))) : after.length ≤ input.length := by
  obtain ⟨block, runs, same⟩ := Option.map_eq_some_iff.mp found
  split at same
  · simp only [Except.ok.injEq, Prod.mk.injEq] at same
    rw [← same.2]
    exact (loop_left_le fuel runs).trans (List.dropWhile_suffix _).length_le
  · exact nomatch same

theorem methodHeading_grows (input : Text) : Grows fun fuel => methodHeading fuel input :=
  fun _ => (parseSTONMap_grows _ _).map _

theorem nextMethod_grows (input : Text) : Grows fun fuel => nextMethod fuel input := by
  intro fuel
  refine (methodHeading_grows input fuel).bind fun heading => ?_
  obtain ⟨heading | heading, after⟩ := heading
  · exact .refl _
  · exact (nextBlock_grows after fuel).map _

theorem readMethod_grows (spec : ClassSpec) (input : Text) :
    Grows fun fuel => readMethod fuel spec input :=
  fun _ => (nextMethod_grows input _).map _

theorem readMethods_grow (fuel : Nat) :
    ∀ spec input, Extends (readMethods fuel spec input) (readMethods (fuel + 1) spec input) := by
  induction fuel with
  | zero => exact fun _ _ => .nothing
  | succ fuel ih =>
    intro spec input
    rw [readMethods, readMethods]
    cases skipSeparators input with
    | nil => exact .refl _
    | cons c rest =>
      refine (readMethod_grows spec _ fuel).bind fun outcome => ?_
      cases outcome with
      | error error => exact .refl _
      | ok state => exact ih _ _

end Methods

end Egg.Bootstrap
