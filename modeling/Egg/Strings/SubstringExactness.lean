import Egg.Strings.SubstringSearch

/-! The searches find the first or the last occurrence; a narrow string searched with the table of
a wide one does so where it looks only at characters of the pattern. -/
namespace Egg.Strings

open Egg.Data

section Windows

variable {α : Type} [BEq α] {aCollection self : List α} {k : Nat}

/-- The comparison ends at the first difference, or past the collection. -/
theorem differenceFrom_spec (first : 1 ≤ k) (inside : k + aCollection.length - 1 ≤ self.length)
    {i : Nat} (positive : 1 ≤ i) (agreed : ∀ n, 1 ≤ n → n < i → Agrees aCollection self k n) :
    ∃ j, differenceFrom aCollection self k i = some j ∧
      (aCollection.length < j ↔ OccursAt aCollection self k) := by
  fun_induction differenceFrom aCollection self k i with
  | case1 i within ih =>
    obtain ⟨expected, here⟩ := elementAt_isSome positive within
    obtain ⟨element, there⟩ := @elementAt_isSome _ self (k + i - 1) (by lia) (by lia)
    simp only [here, there, Option.bind_eq_bind, Option.bind_some]
    have agrees := @agrees_iff _ _ aCollection self k i expected element here there
    split
    · rename_i same
      apply ih (Nat.le_add_left 1 i)
      intro n least before
      by_cases last : n = i
      · exact last ▸ agrees.mpr same
      · exact agreed n least (by lia)
    · rename_i differs
      refine ⟨i, rfl, iff_of_false (Nat.not_lt_of_le within) fun occurs => ?_⟩
      exact differs (agrees.mp (occurs i positive within))
  | case2 i past =>
    refine ⟨i, rfl, iff_of_true (Nat.lt_of_not_le past) fun n least most => ?_⟩
    exact agreed n least (by lia)

theorem difference_iff (first : 1 ≤ k) (inside : k + aCollection.length - 1 ≤ self.length) :
    ∃ j, differenceFrom aCollection self k 1 = some j ∧
      (aCollection.length < j ↔ OccursAt aCollection self k) :=
  differenceFrom_spec first inside le_rfl fun _ least before =>
    absurd least (Nat.not_le_of_lt before)

end Windows

section Skipping

variable {α : Type} [BEq α] {aCollection self : List α} {stop : Nat} {delta : α → Option Nat}

/-- The deltas are Sunday's where there are any. -/
def Sunday (aCollection : List α) (delta : α → Option Nat) : Prop :=
  ∀ element value, delta element = some value → value = shift aCollection element

/-- One window of the search. -/
theorem skippingFrom_window (nonempty : 0 < aCollection.length) (bounded : stop ≤ self.length)
    {fuel k : Nat} (first : 1 ≤ k) (inside : k + aCollection.length - 1 ≤ stop) :
    (OccursAt aCollection self k ∧
      skippingFrom aCollection self stop delta (fuel + 1) k = some k) ∨
    (¬ OccursAt aCollection self k ∧ stop < k + aCollection.length ∧
      skippingFrom aCollection self stop delta (fuel + 1) k = some 0) ∨
    (¬ OccursAt aCollection self k ∧ k + aCollection.length ≤ stop ∧
      ∃ element, elementAt self (k + aCollection.length) = some element ∧
        skippingFrom aCollection self stop delta (fuel + 1) k =
          (delta element).bind fun value =>
            skippingFrom aCollection self stop delta fuel (k + value)) := by
  obtain ⟨j, compared, occurs⟩ := @difference_iff _ _ aCollection self k first (by lia)
  simp only [skippingFrom, if_pos inside, compared, Option.bind_eq_bind, Option.bind_some]
  by_cases here : aCollection.length < j
  · exact .inl ⟨occurs.mp here, if_pos here⟩
  · have differs := fun found => here (occurs.mpr found)
    rw [if_neg here]
    by_cases last : stop < k + aCollection.length
    · exact .inr (.inl ⟨differs, last, if_pos last⟩)
    · obtain ⟨element, behind⟩ :=
        @elementAt_isSome _ self (k + aCollection.length) (by lia) (by lia)
      refine .inr (.inr ⟨differs, Nat.le_of_not_lt last, element, behind, ?_⟩)
      rw [if_neg last, behind]
      rfl

/-- A search whose deltas are there finds the first occurrence. -/
theorem skippingFrom_first (nonempty : 0 < aCollection.length) (bounded : stop ≤ self.length)
    (sunday : Sunday aCollection delta) {fuel k : Nat} (first : 1 ≤ k) (fueled : 0 < fuel)
    (enough : stop + 1 < fuel + k)
    (looks : LooksOnlyAt (fun element => (delta element).isSome) aCollection self stop k) :
    ∃ answer, skippingFrom aCollection self stop delta fuel k = some answer ∧
      FirstOccurrence aCollection self k stop answer := by
  induction fuel generalizing k with
  | zero => exact absurd fueled (Nat.lt_irrefl 0)
  | succ fuel ih =>
    by_cases inside : k + aCollection.length - 1 ≤ stop
    · rcases @skippingFrom_window _ _ _ _ _ delta nonempty bounded fuel k first inside with
        ⟨occurs, found⟩ | ⟨differs, last, found⟩ | ⟨differs, further, element, behind, found⟩
      · refine ⟨k, found, .found le_rfl inside occurs fun j after before => ?_⟩
        exact absurd after (Nat.not_le_of_lt before)
      · refine ⟨0, found, .absent fun j after fits => ?_⟩
        have same : j = k := by lia
        exact same ▸ differs
      · obtain ⟨value, known⟩ := Option.isSome_iff_exists.mp
          (looks k element (.here k) differs further behind)
        obtain rfl := sunday element value known
        have positive := shift_pos aCollection element
        obtain ⟨answer, rest, answered⟩ := @ih (k + shift aCollection element) (by lia) (by lia)
          (by lia) (looks.of_skip differs further behind)
        refine ⟨answer, ?_, answered.widen (by lia) fun j after before occurs => ?_⟩
        · rw [found, known]
          exact rest
        · by_cases same : j = k
          · exact differs (same ▸ occurs)
          · have beyond := shift_le (by lia) behind occurs
            lia
    · refine ⟨0, ?_, .absent fun j after fits => ?_⟩
      · rw [skippingFrom, if_neg inside]
      · lia

/-- A search that looks at an element without a delta ends in an error. -/
theorem skippingFrom_fails (nonempty : 0 < aCollection.length) (bounded : stop ≤ self.length)
    (sunday : Sunday aCollection delta) {k k' : Nat} (first : 1 ≤ k)
    (visited : Visits aCollection self stop k k') (differs : ¬ OccursAt aCollection self k')
    (further : k' + aCollection.length ≤ stop) {element : α}
    (behind : elementAt self (k' + aCollection.length) = some element)
    (unknown : delta element = none) (fuel : Nat) :
    skippingFrom aCollection self stop delta fuel k = none := by
  induction visited generalizing fuel with
  | here k =>
    cases fuel with
    | zero => rfl
    | succ fuel =>
      rcases @skippingFrom_window _ _ _ _ _ delta nonempty bounded fuel k first (by lia) with
        ⟨occurs, _⟩ | ⟨_, last, _⟩ | ⟨_, _, element', behind', found⟩
      · exact absurd occurs differs
      · exact absurd further (Nat.not_le_of_lt last)
      · rw [behind] at behind'
        cases behind'
        rw [found, unknown]
        rfl
  | @skip k k' passed differs' further' behind' rest ih =>
    cases fuel with
    | zero => rfl
    | succ fuel =>
      rcases @skippingFrom_window _ _ _ _ _ delta nonempty bounded fuel k first (by lia) with
        ⟨occurs, _⟩ | ⟨_, last, _⟩ | ⟨_, _, element', behind'', found⟩
      · exact absurd occurs differs'
      · exact absurd further' (Nat.not_le_of_lt last)
      · rw [behind'] at behind''
        cases behind''
        rw [found]
        cases known : delta passed with
        | none => rfl
        | some value =>
          obtain rfl := sunday passed value known
          exact ih (by lia) differs further behind fuel

/-- The answers of a computation are as specified. -/
def Answers (computation : Nat → Option Nat) (spec : Nat → Prop) : Prop :=
  ∃ answer, Converges computation answer ∧ spec answer

/-- A search that answers has looked only at elements with a delta. -/
theorem looks_of_skippingFrom (nonempty : 0 < aCollection.length) (bounded : stop ≤ self.length)
    (sunday : Sunday aCollection delta) {fuel k answer : Nat} (first : 1 ≤ k)
    (found : skippingFrom aCollection self stop delta fuel k = some answer) :
    LooksOnlyAt (fun element => (delta element).isSome) aCollection self stop k := by
  intro k' element visited differs further behind
  refine Option.isSome_iff_ne_none.mpr fun unknown => ?_
  have fails := skippingFrom_fails nonempty bounded sunday first visited differs further behind
    unknown fuel
  cases found.symm.trans fails

/-- A search by Sunday's skips finds the first occurrence exactly if the deltas it needs are
there. -/
theorem skippingFrom_iff (nonempty : 0 < aCollection.length) (bounded : stop ≤ self.length)
    (sunday : Sunday aCollection delta) {k : Nat} (first : 1 ≤ k) :
    Answers (fun fuel => skippingFrom aCollection self stop delta fuel k)
        (FirstOccurrence aCollection self k stop) ↔
      LooksOnlyAt (fun element => (delta element).isSome) aCollection self stop k := by
  constructor
  · rintro ⟨answer, ⟨bound, found⟩, -⟩
    exact looks_of_skippingFrom nonempty bounded sunday first (found bound le_rfl)
  · intro looks
    have ends : ∀ fuel, stop + 2 ≤ fuel → _ := fun fuel enough =>
      @skippingFrom_first _ _ _ _ _ _ nonempty bounded sunday fuel k first (by lia) (by lia) looks
    obtain ⟨answer, found, answered⟩ := ends (stop + 2) le_rfl
    refine ⟨answer, ⟨stop + 2, fun fuel enough => ?_⟩, answered⟩
    obtain ⟨answer', found', answered'⟩ := ends fuel enough
    exact answered.unique answered' ▸ found'

end Skipping

section Tables

variable {α : Type} [BEq α]

/-- The skip by an element that is in the pattern. -/
def lastPlace (pattern : List α) (element : α) : Option Nat :=
  (pattern.reverse.findIdx? (· == element)).map (· + 1)

theorem lastPlace_cons (first : α) (rest : List α) (element : α) :
    lastPlace (first :: rest) element = (lastPlace rest element).or
      (if first == element then some (rest.length + 1) else none) := by
  rw [lastPlace, lastPlace, List.reverse_cons, List.findIdx?_append]
  cases rest.reverse.findIdx? (· == element) with
  | none =>
    cases same : first == element <;> simp [same]
  | some place => rfl

theorem lastPlace_getD (pattern : List α) (element : α) :
    (lastPlace pattern element).getD (pattern.length + 1) = shift pattern element := by
  rw [lastPlace, shift]
  cases found : pattern.reverse.findIdx? (· == element) with
  | none =>
    rw [List.findIdx?_eq_none_iff_findIdx_eq.mp found, List.length_reverse]
    rfl
  | some place =>
    rw [(List.findIdx?_eq_some_iff_findIdx_eq.mp found).2]
    rfl

theorem shift_of_lastPlace {pattern : List α} {element : α} {value : Nat}
    (place : lastPlace pattern element = some value) : value = shift pattern element := by
  rw [← lastPlace_getD, place]
  rfl

theorem lastPlace_isSome {pattern : List α} {element : α} :
    (lastPlace pattern element).isSome ↔ ∃ expected ∈ pattern, expected == element := by
  simp [lastPlace, List.findIdx?_isSome]

namespace Dictionary

variable {dictionary : Dictionary α}

theorem atIfAbsent_isSome {key : α} :
    (dictionary.atIfAbsent key).isSome ↔ ∃ association ∈ dictionary, key == association.1 := by
  simp [atIfAbsent]

variable [PartialEquivBEq α]

/-- A value that is put is found unless there is one for the key. -/
theorem atIfAbsent_put (key : α) (value : Nat) (wanted : α) :
    (dictionary.atIfAbsentPut key value).atIfAbsent wanted =
      (dictionary.atIfAbsent wanted).or (if key == wanted then some value else none) := by
  rw [atIfAbsentPut]
  split
  · rename_i present
    by_cases same : key == wanted
    · obtain ⟨association, member, equal⟩ := atIfAbsent_isSome.mp present
      have present' : (dictionary.atIfAbsent wanted).isSome :=
        atIfAbsent_isSome.mpr ⟨association, member, BEq.trans (BEq.symm same) equal⟩
      obtain ⟨found, here⟩ := Option.isSome_iff_exists.mp present'
      rw [here]
      rfl
    · rw [if_neg same, Option.or_none]
  · rw [atIfAbsent, List.find?_append, atIfAbsent, List.find?_singleton, BEq.comm]
    cases dictionary.find? fun association => wanted == association.1 with
    | none => cases key == wanted <;> rfl
    | some association => rfl

/-- The last place of each key wins. -/
theorem atIfAbsent_table {β : Type} (key : β → α) (wanted : α) (size : Nat) (objects : List β)
    {n : Nat} (position : n + objects.length = size) :
    Dictionary.atIfAbsent ((objects.zipIdx n).foldr
      (fun (object, i) td1 => atIfAbsentPut td1 (key object) (size - i)) []) wanted =
        lastPlace (objects.map key) wanted := by
  induction objects generalizing n with
  | nil => rfl
  | cons object rest ih =>
    rw [List.length_cons] at position
    rw [List.zipIdx_cons, List.foldr_cons, atIfAbsent_put, ih (by lia), List.map_cons,
      lastPlace_cons, List.length_map, show size - n = rest.length + 1 by lia]

end Dictionary

/-- The slots of a table of bytes are the last places. -/
theorem byteTable_spec (size : Nat) (codes : List Nat) (bytes : ∀ code ∈ codes, code < 256) {n : Nat}
    (position : n + codes.length = size) (slots : List (Option Nat))
    (built : slots = (codes.zipIdx n).foldr (fun (byte, i) td1 =>
      if elementAt td1 (byte + 1) = some none then td1.set byte (some (size - i)) else td1)
      (List.replicate 256 none)) :
    slots.length = 256 ∧ ∀ code, code < 256 → elementAt slots (code + 1) =
      some (lastPlace codes code) := by
  induction codes generalizing n slots with
  | nil =>
    subst built
    refine ⟨List.length_replicate, fun code small => ?_⟩
    rw [elementAt, List.zipIdx_nil, List.foldr_nil, List.getElem?_replicate, if_pos small]
    rfl
  | cons byte rest ih =>
    rw [List.length_cons] at position
    obtain ⟨length, places⟩ := ih (fun code member => bytes code (List.mem_cons_of_mem byte member))
      (show n + 1 + rest.length = size by lia) _ rfl
    have small := bytes byte List.mem_cons_self
    simp only [List.zipIdx_cons, List.foldr_cons, places byte small] at built
    split at built
    · rename_i absent
      subst built
      refine ⟨by rw [List.length_set, length], fun code small' => ?_⟩
      rw [lastPlace_cons]
      have there := places code small'
      rw [elementAt] at there ⊢
      rw [List.getElem?_set]
      by_cases same : byte = code
      · subst same
        rw [if_pos rfl, if_pos (by lia), Option.some.inj absent]
        simp
        lia
      · rw [if_neg same, there]
        simp [same]
    · rename_i present
      subst built
      refine ⟨length, fun code small' => ?_⟩
      rw [places code small', lastPlace_cons]
      by_cases same : byte = code
      · subst same
        cases place : lastPlace rest byte with
        | none => exact absurd (congrArg some place) present
        | some value => rfl
      · simp [same]

end Tables

section Direct

variable {self aString : List Nat} {start stop : Nat}

theorem indexOfStringLoop_first (nonempty : 0 < aString.length) (bounded : stop ≤ self.length)
    {limit base : Int} {i k : Nat} (limits : limit = stop - aString.length) (here : base = k - 1)
    (first : 1 ≤ k) (later : start ≤ k) (positive : 1 ≤ i)
    (earlier : ∀ j, start ≤ j → j < k → ¬ OccursAt aString self j)
    (agreed : ∀ n, 1 ≤ n → n < i → Agrees aString self k n) :
    ∃ answer, CharacterArray.indexOfStringLoop self aString limit base i = some answer ∧
      FirstOccurrence aString self start stop answer := by
  fun_induction CharacterArray.indexOfStringLoop self aString limit base i generalizing k with
  | case1 base i past =>
    exact ⟨0, rfl, .absent fun j after fits => earlier j after (by lia)⟩
  | case2 base i inside within ih next =>
    have position : (base + i).toNat = k + i - 1 := by lia
    obtain ⟨element, there⟩ := @elementAt_isSome _ self (k + i - 1) (by lia) (by lia)
    obtain ⟨expected, wanted⟩ := elementAt_isSome positive within
    have agrees := @agrees_iff _ _ aString self k i expected element wanted there
    simp only [position, there, wanted, Option.bind_eq_bind, Option.bind_some]
    split
    · rename_i same
      apply ih here first later (Nat.le_add_left 1 i) earlier
      intro n least before
      by_cases last : n = i
      · exact last ▸ agrees.mpr (BEq.symm same)
      · exact agreed n least (by lia)
    · rename_i differs
      apply @next (k + 1) (by lia) (by lia) (by lia) le_rfl
      · intro j after before occurs
        by_cases same : j = k
        · exact differs (BEq.symm (agrees.mp (same ▸ occurs i positive within)))
        · exact earlier j after (by lia) occurs
      · exact fun n least before => absurd least (Nat.not_le_of_lt before)
  | case3 base i inside ended =>
    have occurs : OccursAt aString self k := fun n least most => agreed n least (by lia)
    have answer : (if i > 1 then (base + 1).toNat else 0) = k := by
      rw [if_pos (by lia)]
      lia
    exact ⟨k, congrArg some answer, .found later (by lia) occurs earlier⟩

/-- The direct search from the start. -/
theorem indexOfString_first (nonempty : 0 < aString.length) (first : 1 ≤ start)
    (bounded : stop ≤ self.length) :
    ∃ answer, CharacterArray.indexOfString self aString start stop = some answer ∧
      FirstOccurrence aString self start stop answer :=
  indexOfStringLoop_first nonempty bounded rfl rfl first le_rfl le_rfl
    (fun _ after before => absurd after (Nat.not_le_of_lt before))
    (fun _ least before => absurd least (Nat.not_le_of_lt before))

theorem indexOfLastStringLoop_last (nonempty : 0 < aString.length) (positive : 1 ≤ start)
    {limit base : Int} {i k : Nat} (limits : limit = aString.length + start)
    (here : base = k + aString.length) (inside : k + aString.length - 1 ≤ stop)
    (bounded : stop ≤ self.length) (counted : 1 ≤ i)
    (later : ∀ j, k < j → j + aString.length - 1 ≤ stop → ¬ OccursAt aString self j)
    (agreed : ∀ n, aString.length + 1 < n + i → n ≤ aString.length → Agrees aString self k n) :
    ∃ answer, CharacterArray.indexOfLastStringLoop self aString limit base i = some answer ∧
      LastOccurrence aString self start stop answer := by
  fun_induction CharacterArray.indexOfLastStringLoop self aString limit base i generalizing k with
  | case1 base i past =>
    exact ⟨0, rfl, .absent fun j after fits => later j (by lia) fits⟩
  | case2 base i inside' within ih next =>
    have position : (base - i).toNat = k + (aString.length - i + 1) - 1 := by lia
    obtain ⟨element, there⟩ :=
      @elementAt_isSome _ self (k + (aString.length - i + 1) - 1) (by lia) (by lia)
    obtain ⟨expected, wanted⟩ :=
      @elementAt_isSome _ aString (aString.length - i + 1) (by lia) (by lia)
    have agrees := @agrees_iff _ _ aString self k (aString.length - i + 1) expected element wanted there
    simp only [position, there, wanted, Option.bind_eq_bind, Option.bind_some]
    split
    · rename_i same
      apply ih here inside (Nat.le_add_left 1 i) later
      intro n least most
      by_cases last : n = aString.length - i + 1
      · exact last ▸ agrees.mpr (BEq.symm same)
      · exact agreed n (by lia) most
    · rename_i differs
      apply @next (k - 1) (by lia) (by lia) le_rfl
      · intro j after fits occurs
        by_cases same : j = k
        · exact differs (BEq.symm (agrees.mp (same ▸ occurs _ (by lia) (by lia))))
        · exact later j (by lia) fits occurs
      · exact fun n least most => absurd least (by lia)
  | case3 base i inside' ended =>
    have occurs : OccursAt aString self k := fun n least most => agreed n (by lia) most
    have answer : (if i > 1 then (base - aString.length).toNat else 0) = k := by
      rw [if_pos (by lia)]
      lia
    exact ⟨k, congrArg some answer, .found (by lia) inside occurs later⟩

theorem indexOfLastString_last (nonempty : 0 < aString.length) (first : 1 ≤ start)
    (bounded : stop ≤ self.length) :
    ∃ answer, CharacterArray.indexOfLastString self aString start stop = some answer ∧
      LastOccurrence aString self start stop answer := by
  by_cases fits : aString.length ≤ stop + 1
  · apply indexOfLastStringLoop_last (k := stop + 1 - aString.length) nonempty first rfl (by lia)
      (by lia) bounded le_rfl
    · exact fun j after fits' => absurd fits' (by lia)
    · exact fun n least most => absurd least (by lia)
  · refine ⟨0, ?_, .absent fun j after fits' => ?_⟩
    · rw [CharacterArray.indexOfLastString, CharacterArray.indexOfLastStringLoop, if_pos (by lia)]
    · lia

end Direct

section Sequences

variable {α : Type} [BEq α] [PartialEquivBEq α] {self aCollection : List α}

theorem restFrom_eq (i j : Nat) :
    SequenceableCollection.restFrom self aCollection i j = differenceFrom aCollection self i j := by
  fun_induction SequenceableCollection.restFrom self aCollection i j with
  | case1 j within ih =>
    rw [differenceFrom, if_pos within]
    cases elementAt self (i + j - 1) with
    | none => cases elementAt aCollection j <;> rfl
    | some element =>
      cases elementAt aCollection j with
      | none => rfl
      | some expected =>
        simp only [Option.bind_eq_bind, Option.bind_some, ih]
        rw [BEq.comm]
  | case2 j past => rw [differenceFrom, if_neg past]

theorem indexOfSubcollectionFrom_first (nonempty : 0 < aCollection.length) {first : α} {n : Int}
    {start i : Nat} (firstElement : elementAt aCollection 1 = some first)
    (last : n = self.length - aCollection.length + 1) (positive : 1 ≤ i) (later : start ≤ i)
    (earlier : ∀ j, start ≤ j → j < i → ¬ OccursAt aCollection self j) :
    ∃ answer, SequenceableCollection.indexOfSubcollectionFrom self aCollection first n i =
        some answer ∧ FirstOccurrence aCollection self start self.length answer := by
  fun_induction SequenceableCollection.indexOfSubcollectionFrom self aCollection first n i with
  | case1 i within ih =>
    obtain ⟨element, here⟩ := @elementAt_isSome _ self i positive (by lia)
    have there : elementAt self (i + 1 - 1) = some element := here
    have agrees := agrees_iff firstElement there
    have beyond (differs : ¬ OccursAt aCollection self i) : ∀ j, start ≤ j → j < i + 1 →
        ¬ OccursAt aCollection self j := by
      intro j after before
      by_cases same : j = i
      · exact same ▸ differs
      · exact earlier j after (by lia)
    simp only [here, Option.bind_eq_bind, Option.bind_some]
    split
    · rename_i same
      have agreed : ∀ n, 1 ≤ n → n < 2 → Agrees aCollection self i n := by
        intro n least before
        obtain rfl : n = 1 := by lia
        exact agrees.mpr (BEq.symm same)
      obtain ⟨j, compared, occurs⟩ :=
        differenceFrom_spec positive (by lia) (Nat.le_succ 1) agreed
      rw [restFrom_eq, compared]
      simp only [Option.bind_some]
      split
      · rename_i whole
        exact ⟨i, rfl, .found later (by lia) (occurs.mp whole) earlier⟩
      · rename_i partly
        exact ih (by lia) (by lia) (beyond fun found => partly (occurs.mpr found))
    · rename_i differs
      apply ih (by lia) (by lia)
      exact beyond fun found => differs (BEq.symm (agrees.mp (found 1 le_rfl nonempty)))
  | case2 i past =>
    exact ⟨0, rfl, .absent fun j after fits => earlier j after (by lia)⟩

theorem indexOfSubcollectionStartingAt_first (nonempty : 0 < aCollection.length) {start : Nat}
    (positive : 1 ≤ start) :
    ∃ answer, SequenceableCollection.indexOfSubcollectionStartingAt self aCollection start =
        some answer ∧ FirstOccurrence aCollection self start self.length answer := by
  obtain ⟨first, firstElement⟩ := @elementAt_isSome _ aCollection 1 le_rfl nonempty
  rw [SequenceableCollection.indexOfSubcollectionStartingAt]
  simp only [firstElement, Option.bind_eq_bind, Option.bind_some]
  rw [if_neg (Nat.ne_of_gt nonempty)]
  exact indexOfSubcollectionFrom_first nonempty firstElement rfl positive le_rfl
    fun _ after before => absurd after (Nat.not_le_of_lt before)

/-- The skipping search of sequences. -/
theorem indexOfSubcollectionTd1_first (nonempty : 0 < aCollection.length) {start stop : Nat}
    (positive : 1 ≤ start) (bounded : stop ≤ self.length) :
    Answers (SequenceableCollection.indexOfSubcollectionTd1 self aCollection start stop
      (SequenceableCollection.td1 aCollection)) (FirstOccurrence aCollection self start stop) := by
  have table (element : α) :
      (SequenceableCollection.td1 aCollection).atIfAbsent element = lastPlace aCollection element := by
    have places := Dictionary.atIfAbsent_table id element aCollection.length aCollection
      (Nat.zero_add aCollection.length)
    rwa [List.map_id] at places
  have sunday : Sunday aCollection fun element => some
      (((SequenceableCollection.td1 aCollection).atIfAbsent element).getD
        (aCollection.length + 1)) := by
    intro element value known
    beta_reduce at known
    rw [table, lastPlace_getD] at known
    exact (Option.some.inj known).symm
  have answers := (skippingFrom_iff nonempty bounded sunday positive).mpr fun _ _ _ _ _ _ => rfl
  obtain ⟨answer, ⟨bound, found⟩, first⟩ := answers
  refine ⟨answer, ⟨bound, fun fuel enough => ?_⟩, first⟩
  rw [SequenceableCollection.indexOfSubcollectionTd1]
  simp only [if_neg (Nat.ne_of_gt nonempty)]
  exact found fuel enough

end Sequences

section Texts

variable {self aString : Text} {start stop : Nat}

/-- The deltas of a table of a string. -/
theorem byteTable_places (codes : List Nat) (bytes : ∀ code ∈ codes, code < 256) :
    (byteTable codes).length = 256 ∧ ∀ code, code < 256 →
      elementAt (byteTable codes) (code + 1) = some (lastPlace codes code) :=
  byteTable_spec codes.length codes bytes (Nat.zero_add _) _ rfl

theorem wideTable_places (codes : List Nat) (code : Nat) :
    Table.atIfAbsent (WideString.td1 codes) (code + 1) = lastPlace codes code := by
  have places := Dictionary.atIfAbsent_table (· + 1) (code + 1) codes.length codes
    (Nat.zero_add codes.length)
  have shifted : lastPlace (codes.map (· + 1)) (code + 1) = lastPlace codes code := by
    rw [lastPlace, lastPlace, ← List.map_reverse, List.findIdx?_map]
    congr 2
    funext other
    simp
  exact places.trans shifted

theorem narrowTable_places (codes : List Nat) (bytes : ∀ code ∈ codes, code < 256) (code : Nat) :
    Table.atIfAbsent (.array (byteTable codes)) (code + 1) = lastPlace codes code := by
  obtain ⟨length, places⟩ := byteTable_places codes bytes
  rw [Table.atIfAbsent]
  by_cases small : code < 256
  · rw [if_pos (by lia), places code small]
    rfl
  · rw [if_neg (by lia)]
    refine (Option.not_isSome_iff_eq_none.mp fun present => ?_).symm
    obtain ⟨expected, member, same⟩ := lastPlace_isSome.mp present
    exact small (eq_of_beq same ▸ bytes expected member)

/-- The table of any string has the last places where `nil` stands for an absent code. -/
theorem td1_places (aString : Text) (code : Nat) :
    aString.td1.atIfAbsent (code + 1) = lastPlace aString.codes code := by
  cases kind : aString.kind with
  | string =>
    rw [Text.td1, kind]
    exact narrowTable_places _ (aString.narrow (by simp [kind])) code
  | symbol =>
    rw [Text.td1, kind]
    exact narrowTable_places _ (aString.narrow (by simp [kind])) code
  | wideString =>
    rw [Text.td1, kind]
    exact wideTable_places _ code

/-- Indexed by `at:`, a table of bytes has a delta for every byte. -/
theorem narrowTable_at {codes : List Nat} (bytes : ∀ code ∈ codes, code < 256) {code : Nat}
    (small : code < 256) :
    (Table.at (.array (byteTable codes)) (code + 1)).map (·.getD (codes.length + 1)) =
      some (shift codes code) := by
  rw [Table.at, (byteTable_places codes bytes).2 code small, ← lastPlace_getD]
  rfl

/-- Indexed by `at:`, a dictionary has a delta for the characters of its string. -/
theorem wideTable_at (codes : List Nat) (code : Nat) :
    (Table.at (WideString.td1 codes) (code + 1)).map (·.getD (codes.length + 1)) =
      lastPlace codes code := by
  have places := wideTable_places codes code
  rw [WideString.td1, Table.atIfAbsent] at places
  rw [WideString.td1, Table.at, places]
  cases lastPlace codes code <;> rfl

/-- A search of one string for another can skip where the table has the deltas it needs. -/
def CanSkip (self aString : Text) (start stop : Nat) : Prop :=
  self.kind = .wideString ∨ aString.kind ≠ .wideString ∨
    LooksOnlyAt (· ∈ aString.codes) aString.codes self.codes stop start

theorem byteSearch_eq (nonempty : 0 < aString.codes.length) (fuel : Nat) :
    byteSearch self.codes aString.codes start stop aString.td1 fuel =
      skippingFrom aString.codes self.codes stop (fun byte =>
        (aString.td1.at (byte + 1)).map fun delta => delta.getD (aString.codes.length + 1))
        fuel start := by
  rw [byteSearch]
  simp only [if_neg (Nat.ne_of_gt nonempty)]

theorem mem_of_lastPlace {codes : List Nat} {code : Nat} :
    (lastPlace codes code).isSome ↔ code ∈ codes := by
  simp [lastPlace_isSome]

/-- A search for a wide string that answers has looked only at its characters. -/
theorem looks_of_byteSearch (nonempty : 0 < aString.codes.length) (positive : 1 ≤ start)
    (bounded : stop ≤ self.codes.length) (wide : aString.kind = .wideString) {fuel answer : Nat}
    (found : byteSearch self.codes aString.codes start stop aString.td1 fuel = some answer) :
    LooksOnlyAt (· ∈ aString.codes) aString.codes self.codes stop start := by
  have table : aString.td1 = WideString.td1 aString.codes := by rw [Text.td1, wide]
  rw [byteSearch_eq nonempty, table] at found
  simp only [wideTable_at] at found
  have looks := looks_of_skippingFrom nonempty bounded (fun _ _ => shift_of_lastPlace) positive found
  exact fun k code visited differs further behind =>
    mem_of_lastPlace.mp (looks k code visited differs further behind)

theorem byteSearch_iff (nonempty : 0 < aString.codes.length) (positive : 1 ≤ start)
    (bounded : stop ≤ self.codes.length) (bytes : ∀ code ∈ self.codes, code < 256) :
    Answers (byteSearch self.codes aString.codes start stop aString.td1)
        (FirstOccurrence aString.codes self.codes start stop) ↔
      aString.kind ≠ .wideString ∨
        LooksOnlyAt (· ∈ aString.codes) aString.codes self.codes stop start := by
  have unfolded : byteSearch self.codes aString.codes start stop aString.td1 = _ :=
    funext fun fuel => byteSearch_eq nonempty fuel
  rw [unfolded]
  by_cases wide : aString.kind = .wideString
  · have table : aString.td1 = WideString.td1 aString.codes := by rw [Text.td1, wide]
    simp only [table, wideTable_at]
    rw [skippingFrom_iff nonempty bounded (fun _ _ => shift_of_lastPlace) positive]
    simp only [mem_of_lastPlace, wide, ne_eq, not_true_eq_false, false_or]
  · have table : aString.td1 = .array (byteTable aString.codes) := by
      rw [Text.td1]
      cases kind : aString.kind with
      | string => rfl
      | symbol => rfl
      | wideString => exact absurd kind wide
    have narrow := aString.narrow wide
    refine iff_of_true ?_ (.inl wide)
    rw [table]
    refine (skippingFrom_iff nonempty bounded ?_ positive).mpr ?_
    · intro code value known
      beta_reduce at known
      by_cases small : code < 256
      · rw [narrowTable_at narrow small] at known
        exact (Option.some.inj known).symm
      · have length := (byteTable_places aString.codes narrow).1
        have outside : (byteTable aString.codes)[code]? = none :=
          List.getElem?_eq_none (by lia)
        simp only [Table.at, elementAt, outside, Option.map_none] at known
        cases known
    · intro k code _ _ _ behind
      rw [narrowTable_at narrow (bytes code (elementAt_mem behind))]
      rfl

theorem wideSearch_first (nonempty : 0 < aString.codes.length) (positive : 1 ≤ start)
    (bounded : stop ≤ self.codes.length) :
    Answers (WideString.indexOfStringTd1 self.codes aString.codes start stop aString.td1)
      (FirstOccurrence aString.codes self.codes start stop) := by
  have unfolded : WideString.indexOfStringTd1 self.codes aString.codes start stop aString.td1 =
      fun fuel => skippingFrom aString.codes self.codes stop
        (fun code => some (shift aString.codes code)) fuel start := by
    funext fuel
    rw [WideString.indexOfStringTd1]
    simp only [if_neg (Nat.ne_of_gt nonempty), td1_places, lastPlace_getD]
  rw [unfolded]
  refine (skippingFrom_iff nonempty bounded ?_ positive).mpr fun _ _ _ _ _ _ => rfl
  exact fun code value known => (Option.some.inj known).symm

/-- The skipping search finds the first occurrence exactly if it can skip. -/
theorem indexOfStringTd1_iff (nonempty : 0 < aString.codes.length) (positive : 1 ≤ start)
    (bounded : stop ≤ self.codes.length) :
    Answers (self.indexOfStringTd1 aString start stop aString.td1)
        (FirstOccurrence aString.codes self.codes start stop) ↔ CanSkip self aString start stop := by
  unfold CanSkip
  cases kind : self.kind with
  | string =>
    have bytes := self.narrow (by simp [kind])
    have search : self.indexOfStringTd1 aString start stop aString.td1 =
        byteSearch self.codes aString.codes start stop aString.td1 := by
      funext fuel
      rw [Text.indexOfStringTd1, kind]
      rfl
    rw [search, byteSearch_iff nonempty positive bounded bytes]
    simp
  | symbol =>
    have bytes := self.narrow (by simp [kind])
    have search : self.indexOfStringTd1 aString start stop aString.td1 =
        byteSearch self.codes aString.codes start stop aString.td1 := by
      funext fuel
      rw [Text.indexOfStringTd1, kind]
      rfl
    rw [search, byteSearch_iff nonempty positive bounded bytes]
    simp
  | wideString =>
    have search : self.indexOfStringTd1 aString start stop aString.td1 =
        WideString.indexOfStringTd1 self.codes aString.codes start stop aString.td1 := by
      funext fuel
      rw [Text.indexOfStringTd1, kind]
    rw [search]
    exact iff_of_true (wideSearch_first nonempty positive bounded) (.inl rfl)

/-- A search that answers could skip. -/
theorem canSkip_of_indexOfStringTd1 (nonempty : 0 < aString.codes.length) (positive : 1 ≤ start)
    (bounded : stop ≤ self.codes.length) {fuel answer : Nat}
    (found : self.indexOfStringTd1 aString start stop aString.td1 fuel = some answer) :
    CanSkip self aString start stop := by
  by_cases wide : aString.kind = .wideString
  · cases kind : self.kind with
    | string =>
      rw [Text.indexOfStringTd1, kind] at found
      exact .inr (.inr (looks_of_byteSearch nonempty positive bounded wide found))
    | symbol =>
      rw [Text.indexOfStringTd1, kind] at found
      exact .inr (.inr (looks_of_byteSearch nonempty positive bounded wide found))
    | wideString => exact .inl kind
  · exact .inr (.inl wide)

/-- The searches of one string for another agree with their definition. -/
structure SearchesAgree (text aString : Text) (start stop : Nat) : Prop where
  indexOfStringTd1 : Answers (text.indexOfStringTd1 aString start stop aString.td1)
    (FirstOccurrence aString.codes text.codes start stop)
  indexOfSubcollectionTd1 : Answers (text.indexOfSubcollectionTd1 aString start stop aString.td1)
    (FirstOccurrence aString.codes text.codes start stop)
  indexOfString : ∃ answer,
    CharacterArray.indexOfString text.codes aString.codes start stop = some answer ∧
      FirstOccurrence aString.codes text.codes start stop answer
  startingAt : ∃ answer,
    SequenceableCollection.indexOfSubcollectionStartingAt text.codes aString.codes start =
      some answer ∧ FirstOccurrence aString.codes text.codes start text.codes.length answer
  indexOfLastString : ∃ answer,
    CharacterArray.indexOfLastString text.codes aString.codes start stop = some answer ∧
      LastOccurrence aString.codes text.codes start stop answer

/-- The searches of sequences agree with their definition. -/
structure SequencesAgree {α : Type} [BEq α] (text aCollection : List α) (start stop : Nat) :
    Prop where
  indexOfSubcollectionTd1 : Answers (SequenceableCollection.indexOfSubcollectionTd1 text aCollection
    start stop (SequenceableCollection.td1 aCollection))
    (FirstOccurrence aCollection text start stop)
  startingAt : ∃ answer,
    SequenceableCollection.indexOfSubcollectionStartingAt text aCollection start = some answer ∧
      FirstOccurrence aCollection text start text.length answer

/-- The string 'ab'. -/
def ab : Text := ⟨.string, [97, 98], by decide⟩

/-- A wide string of one Greek letter. -/
def lambda : Text := ⟨.wideString, [955], by decide⟩

end Texts

end Egg.Strings
