import Egg.Bootstrap.ReaderLoops

/-! A file is read to an end exactly when no turn of a loop is wasted. -/
namespace Egg.Bootstrap

open Egg.Data

section Parts

variable {input rest : Text} {c : Nat}

theorem array_iff (starts : skipSeparators input = c :: rest) (going : c ≠ ']'.toNat)
    {arr : List Text} {outcome : List Text × Text} :
    Converges (fun fuel => parseSTONArray fuel arr input) outcome ↔ ∃ element after,
      Converges (fun fuel => parseSTONValue fuel (c :: rest)) (element, after) ∧
      Converges (fun fuel => parseSTONArray fuel (arr ++ [element]) (skipOptional ',' after))
        outcome := by
  rw [← Converges.succ_iff]
  simp only [parseSTONArray, starts, going, if_false]
  constructor
  · intro whole
    obtain ⟨⟨element, after⟩, reads, goes⟩ := (value_grows (c :: rest)).parts whole
    exact ⟨element, after, reads, goes⟩
  · rintro ⟨element, after, reads, goes⟩
    exact reads.bind goes

theorem map_iff (starts : skipSeparators input = c :: rest) (going : c ≠ '}'.toNat)
    {map : Fields} {outcome : Fields × Text} :
    Converges (fun fuel => mapEntries fuel map input) outcome ↔ ∃ entry after,
      Converges (fun fuel => mapEntry fuel (c :: rest)) (entry, after) ∧
      Converges (fun fuel => mapEntries fuel (map.put entry.1 entry.2) after) outcome := by
  rw [← Converges.succ_iff]
  simp only [mapEntries, starts, going, if_false]
  constructor
  · intro whole
    obtain ⟨⟨entry, after⟩, reads, goes⟩ := (mapEntry_grows (c :: rest)).parts whole
    exact ⟨entry, after, reads, goes⟩
  · rintro ⟨entry, after, reads, goes⟩
    exact reads.bind goes

theorem value_of_bracket (starts : skipSeparators input = '['.toNat :: rest)
    {value after : Text} :
    Converges (fun fuel => parseSTONValue fuel input) (value, after) ↔ ∃ arr,
      Converges (fun fuel => parseSTONArray fuel [] rest) (arr, after) ∧
      (text ",").intercalate arr = value := by
  have hash : ¬ '['.toNat = '#'.toNat := by decide
  have quote : ¬ '['.toNat = '\''.toNat := by decide
  rw [← Converges.succ_iff]
  simp only [parseSTONValue, starts, hash, quote, if_false, if_true]
  constructor
  · intro whole
    obtain ⟨⟨arr, last⟩, reads, same⟩ := (array_grows [] rest).mapped whole
    simp only [Prod.mk.injEq] at same
    obtain ⟨joined, rfl⟩ := same
    exact ⟨arr, reads, joined⟩
  · rintro ⟨arr, reads, rfl⟩
    exact reads.map _

theorem metadata_iff (starts : skipSeparators input = '{'.toNat :: rest)
    {outcome : Fields × Text} :
    Converges (fun fuel => parseSTONMap fuel input) outcome ↔
      Converges (fun fuel => mapEntries fuel [] rest) outcome := by
  simp only [parseSTONMap, starts, if_true]

/-- What a file does once a method is read. -/
def afterMethod (fuel : Nat) :
    Except ParseError (ClassSpec × Text) → Option (Except ParseError ClassSpec)
  | .error error => some (.error error)
  | .ok (spec, after) => readMethods fuel spec after

theorem methods_iff (starts : skipSeparators input = c :: rest) {spec : ClassSpec}
    {outcome : Except ParseError ClassSpec} :
    Converges (fun fuel => readMethods fuel spec input) outcome ↔ ∃ read,
      Converges (fun fuel => readMethod fuel spec (c :: rest)) read ∧
      Converges (fun fuel => afterMethod fuel read) outcome := by
  rw [← Converges.succ_iff]
  simp only [readMethods, starts]
  constructor
  · intro whole
    obtain ⟨read, reads, goes⟩ := (readMethod_grows spec (c :: rest)).parts whole
    exact ⟨read, reads, goes⟩
  · rintro ⟨read, reads, goes⟩
    exact reads.bind goes

end Parts

section Ends

/-- The loop comes to an end here, whatever it has read before. -/
def Ends : Loop → Text → Prop
  | .array, input => ∃ arr outcome, Converges (fun fuel => parseSTONArray fuel arr input) outcome
  | .map, input => ∃ map outcome, Converges (fun fuel => mapEntries fuel map input) outcome
  | .methods, input => ∃ spec outcome, Converges (fun fuel => readMethods fuel spec input) outcome
  | _, _ => True

theorem ends_next {loop loop' : Loop} {input after : Text} (turn : Next loop input loop' after)
    (ends : Ends loop input) : Ends loop' after := by
  cases turn with
  | element starts going reads =>
    obtain ⟨arr, outcome, runs⟩ := ends
    obtain ⟨element, last, reads', goes⟩ := (array_iff starts going).mp runs
    obtain ⟨-, rfl⟩ := Prod.mk.injEq .. ▸ reads.unique reads'
    exact ⟨_, outcome, goes⟩
  | entry starts going reads =>
    obtain ⟨map, outcome, runs⟩ := ends
    obtain ⟨entry, last, reads', goes⟩ := (map_iff starts going).mp runs
    obtain ⟨-, rfl⟩ := Prod.mk.injEq .. ▸ reads.unique reads'
    exact ⟨_, outcome, goes⟩
  | method starts reads =>
    obtain ⟨spec, outcome, runs⟩ := ends
    obtain ⟨read, reads', goes⟩ := (methods_iff starts).mp runs
    have same := (reads.map _).unique reads'
    rw [← same] at goes
    exact ⟨_, outcome, goes⟩
  | character _ => trivial
  | skipped _ => trivial
  | doubled => trivial

theorem ends_starts {loop loop' : Loop} {input after : Text} (turn : Starts loop input loop' after)
    (ends : Ends loop input) : Ends loop' after := by
  cases turn with
  | nested starts =>
    obtain ⟨arr, outcome, runs⟩ := ends
    obtain ⟨element, last, reads, -⟩ := (array_iff starts (by decide)).mp runs
    obtain ⟨inner, runs, -⟩ := (value_of_bracket (skipSeparators_of_starts starts)).mp reads
    exact ⟨[], _, runs⟩
  | key starts =>
    obtain ⟨map, outcome, runs⟩ := ends
    obtain ⟨entry, last, reads, -⟩ := (map_iff starts (by decide)).mp runs
    obtain ⟨⟨key, middle⟩, reads, -⟩ := (value_grows _).parts reads
    obtain ⟨inner, runs, -⟩ := (value_of_bracket (skipSeparators_of_starts starts)).mp reads
    exact ⟨[], _, runs⟩
  | value starts going reads opens =>
    obtain ⟨map, outcome, runs⟩ := ends
    obtain ⟨entry, last, reads', -⟩ := (map_iff starts going).mp runs
    obtain ⟨⟨key, middle⟩, keyed, valued⟩ := (value_grows _).parts reads'
    obtain ⟨-, rfl⟩ := Prod.mk.injEq .. ▸ reads.unique keyed
    obtain ⟨⟨value, last⟩, reads, -⟩ := (value_grows _).mapped valued
    rw [opens] at reads
    obtain ⟨arr, runs, -⟩ := (value_of_bracket (skipSeparators_of_starts opens)).mp reads
    exact ⟨[], _, runs⟩
  | metadata starts =>
    obtain ⟨spec, outcome, runs⟩ := ends
    obtain ⟨read, reads, -⟩ := (methods_iff starts).mp runs
    obtain ⟨method, reads, -⟩ := (nextMethod_grows _).mapped reads
    obtain ⟨heading, reads, -⟩ := (methodHeading_grows _).parts reads
    obtain ⟨fields, reads, -⟩ := (parseSTONMap_grows _).mapped reads
    have again := skipSeparators_of_starts starts
    rw [again] at reads
    exact ⟨[], _, (metadata_iff again).mp reads⟩
  | body _ _ => trivial
  | literal _ _ => trivial

/-- A mark that ends words reads as an empty one. -/
theorem value_of_mark {input rest : Text} {c : Nat} (starts : skipSeparators input = c :: rest)
    (mark : c = '}'.toNat ∨ c = ':'.toNat) (fuel : Nat) :
    parseSTONValue (fuel + 1) input = some ([], c :: rest) := by
  rw [parseSTONValue, starts]
  obtain rfl | rfl := mark
  · rfl
  · rfl

theorem array_wasted (fuel : Nat) : ∀ {arr : List Text} {input : Text}, Wasted .array input →
    parseSTONArray fuel arr input = none := by
  induction fuel with
  | zero => exact fun _ => rfl
  | succ fuel ih =>
    intro arr input wasted
    cases starts : skipSeparators input with
    | nil => simp [Wasted, starts] at wasted
    | cons c rest =>
      have again := skipSeparators_of_starts starts
      have mark : c = '}'.toNat ∨ c = ':'.toNat := by
        simpa only [Wasted, starts, List.head?_cons, Option.some.injEq] using wasted
      have going : c ≠ ']'.toNat := by
        obtain rfl | rfl := mark <;> decide
      have kept : skipOptional ',' (c :: rest) = c :: rest := by
        simp only [skipOptional, again, List.head?_cons]
        obtain rfl | rfl := mark <;> rfl
      simp only [parseSTONArray, starts, going, if_false]
      cases fuel with
      | zero => rfl
      | succ fuel =>
        rw [value_of_mark again mark, Option.bind_some, kept]
        apply ih
        simpa only [Wasted, again, List.head?_cons, Option.some.injEq] using mark

theorem methods_wasted (fuel : Nat) : ∀ {spec : ClassSpec} {input : Text},
    Wasted .methods input → readMethods fuel spec input = none := by
  induction fuel with
  | zero => exact fun _ => rfl
  | succ fuel ih =>
    intro spec input wasted
    obtain ⟨some_left, brace, arrow⟩ := wasted
    cases starts : skipSeparators input with
    | nil => exact absurd starts some_left
    | cons c rest =>
      have again := skipSeparators_of_starts starts
      have other : ¬ c = '{'.toNat := fun same => brace (by rw [starts, same]; rfl)
      rw [starts] at arrow
      have unread : readMethod fuel spec (c :: rest) = some (.ok (spec, c :: rest)) := by
        simp only [readMethod, nextMethod, methodHeading, parseSTONMap, again, other, if_false,
          Option.map_some, Option.bind_some, arrow]
        rfl
      simp only [readMethods, starts, unread, Option.bind_some]
      apply ih
      refine ⟨?_, ?_, ?_⟩
      · rw [again]
        exact List.cons_ne_nil c rest
      · rwa [again, ← starts]
      · rwa [again]

theorem not_ends {loop : Loop} {input : Text} (wasted : Wasted loop input) :
    ¬ Ends loop input := by
  cases loop with
  | array =>
    rintro ⟨arr, outcome, bound, runs⟩
    exact nomatch (array_wasted bound wasted).symm.trans (runs bound le_rfl)
  | methods =>
    rintro ⟨spec, outcome, bound, runs⟩
    exact nomatch (methods_wasted bound wasted).symm.trans (runs bound le_rfl)
  | map => exact wasted.elim
  | block => exact wasted.elim
  | quoted => exact wasted.elim

end Ends

section Files

variable {utf8Source filename : List UInt8}

/-- The class that a file describes once its definition is read. -/
def fileSpec (utf8Source : List UInt8) (fields : Fields) : ClassSpec :=
  specOf (readComments (fromUtf8 utf8Source)).1 (typeOf (fromUtf8 utf8Source)).1 fields

/-- What is done with a file once its definition is read. -/
def afterDefinition (utf8Source filename : List UInt8) (fuel : Nat) (read : Fields × Text) :
    Option (Except (List UInt8) ClassSpec) :=
  if isKnown (typeOf (fromUtf8 utf8Source)).1 then
    (readMethods fuel (fileSpec utf8Source read.1) read.2).map
      (Except.mapError (parseError (fromUtf8 utf8Source) filename))
  else some (.error (parseError (fromUtf8 utf8Source) filename
    ⟨ascii "Unknown Tonel type: " ++ toUtf8 (typeOf (fromUtf8 utf8Source)).1, read.2⟩))

theorem parseFile_eq (fuel : Nat) : parseFile fuel utf8Source filename =
    (readDefinition fuel (typeOf (fromUtf8 utf8Source)).2).bind
      (afterDefinition utf8Source filename fuel) := rfl

theorem parseFile_parts {outcome : Except (List UInt8) ClassSpec}
    (whole : Converges (fun fuel => parseFile fuel utf8Source filename) outcome) :
    ∃ fields rest, Converges (fun fuel => readDefinition fuel (typeOf (fromUtf8 utf8Source)).2)
      (fields, rest) ∧ (isKnown (typeOf (fromUtf8 utf8Source)).1 = true → Ends .methods rest) := by
  have grows : Grows fun fuel => readDefinition fuel (typeOf (fromUtf8 utf8Source)).2 :=
    parseSTONMap_grows _
  simp only [parseFile_eq] at whole
  obtain ⟨⟨fields, rest⟩, reads, goes⟩ := grows.parts whole
  refine ⟨fields, rest, reads, fun known => ?_⟩
  simp only [afterDefinition, known, if_true] at goes
  have more : Grows fun fuel => readMethods fuel (fileSpec utf8Source fields) rest :=
    fun fuel => readMethods_grow fuel _ _
  obtain ⟨result, runs, -⟩ := more.mapped goes
  exact ⟨_, result, runs⟩

/-- Where a file is read to an end, so are the loops that this comes to. -/
theorem reached_ends {outcome : Except (List UInt8) ClassSpec}
    (whole : Converges (fun fuel => parseFile fuel utf8Source filename) outcome)
    {loop : Loop} {input : Text} (reached : Reached (fromUtf8 utf8Source) loop input) :
    Ends loop input := by
  obtain ⟨fields, rest, reads, goes⟩ := parseFile_parts whole
  induction reached with
  | comment _ => trivial
  | definition starts =>
    have again := skipSeparators_of_starts starts
    rw [← starts] at again
    exact ⟨[], _, (metadata_iff (again.trans starts)).mp reads⟩
  | methods known reads' =>
    obtain ⟨-, rfl⟩ := Prod.mk.injEq .. ▸ reads.unique reads'
    exact goes known
  | next _ turn ih => exact ends_next turn ih
  | inner _ turn ih => exact ends_starts turn ih

end Files

section Progress

variable {source : Text} (useful : ∀ loop input, Reached source loop input → ¬ Wasted loop input)

theorem value_ends {input : Text} (arrays : ∀ inner, skipSeparators input = '['.toNat :: inner →
      ∃ outcome, Converges (fun fuel => parseSTONArray fuel [] inner) outcome) :
    ∃ outcome, Converges (fun fuel => parseSTONValue fuel input) outcome := by
  cases starts : skipSeparators input with
  | nil =>
    refine ⟨([], []), (value_grows input).converges (?_ : parseSTONValue 1 input = _)⟩
    rw [parseSTONValue, starts]
  | cons c rest =>
    by_cases bracket : c = '['.toNat
    · rw [bracket] at starts
      obtain ⟨⟨arr, after⟩, runs⟩ := arrays rest starts
      exact ⟨_, (value_of_bracket starts).mpr ⟨arr, runs, rfl⟩⟩
    · have plain : ∃ outcome, parseSTONValue 1 input = some outcome := by
        simp only [parseSTONValue, starts, bracket, if_false]
        split_ifs
        · exact ⟨_, rfl⟩
        · exact ⟨_, rfl⟩
        · exact ⟨_, rfl⟩
      obtain ⟨outcome, found⟩ := plain
      exact ⟨outcome, (value_grows input).converges found⟩

include useful

theorem array_ends {input : Text} (reached : Reached source .array input) (arr : List Text) :
    ∃ outcome, Converges (fun fuel => parseSTONArray fuel arr input) outcome := by
  induction size : input.length using Nat.strong_induction_on generalizing input arr with
  | _ size ih =>
    subst size
    have separated := skipSeparators_le input
    cases starts : skipSeparators input with
    | nil =>
      refine ⟨(arr, []), (array_grows arr input).converges (?_ : parseSTONArray 1 arr input = _)⟩
      rw [parseSTONArray, starts]
    | cons c rest =>
      rw [starts] at separated
      by_cases closed : c = ']'.toNat
      · refine ⟨(arr, rest), (array_grows arr input).converges
          (?_ : parseSTONArray 1 arr input = _)⟩
        simp only [parseSTONArray, starts, closed, if_true]
      · have valued : ∃ outcome, Converges (fun fuel => parseSTONValue fuel (c :: rest)) outcome := by
          apply value_ends
          intro inner opens
          rw [skipSeparators_of_starts starts] at opens
          exact ih inner.length ((by simp [opens] : inner.length < (c :: rest).length).trans_le
            separated) (reached.inner (.nested (starts.trans opens))) [] rfl
        obtain ⟨⟨element, after⟩, reads⟩ := valued
        have turn : Next .array input .array (skipOptional ',' after) :=
          .element starts closed reads
        obtain ⟨outcome, runs⟩ := ih _ (next_lt (useful _ _ reached) turn) (reached.next turn)
          (arr ++ [element]) rfl
        exact ⟨outcome, (array_iff starts closed).mpr ⟨element, after, reads, runs⟩⟩

theorem map_ends {input : Text} (reached : Reached source .map input) (map : Fields) :
    ∃ outcome, Converges (fun fuel => mapEntries fuel map input) outcome := by
  induction size : input.length using Nat.strong_induction_on generalizing input map with
  | _ size ih =>
    subst size
    have grows : Grows fun fuel => mapEntries fuel map input := fun fuel => mapEntries_grow fuel _ _
    cases starts : skipSeparators input with
    | nil =>
      refine ⟨(map, []), grows.converges (?_ : mapEntries 1 map input = _)⟩
      rw [mapEntries, starts]
    | cons c rest =>
      by_cases closed : c = '}'.toNat
      · refine ⟨(map, rest), grows.converges (?_ : mapEntries 1 map input = _)⟩
        simp only [mapEntries, starts, closed, if_true]
      · have keyed : ∃ outcome, Converges (fun fuel => parseSTONValue fuel (c :: rest)) outcome := by
          apply value_ends
          intro inner opens
          rw [skipSeparators_of_starts starts] at opens
          exact array_ends useful (reached.inner (.key (starts.trans opens))) []
        obtain ⟨⟨key, middle⟩, reads⟩ := keyed
        have valued : ∃ outcome, Converges (fun fuel =>
            parseSTONValue fuel (skipSeparators (skipOptional ':' middle))) outcome := by
          apply value_ends
          intro inner opens
          rw [skipSeparators, skipSeparators, List.dropWhile_idempotent] at opens
          exact array_ends useful (reached.inner (.value starts closed reads opens)) []
        obtain ⟨⟨value, last⟩, reads'⟩ := valued
        have entered : Converges (fun fuel => mapEntry fuel (c :: rest))
            ((key, value), skipOptional ',' last) := reads.bind (reads'.map _)
        have turn := Next.entry starts closed entered
        obtain ⟨outcome, runs⟩ := ih _ (next_lt (useful _ _ reached) turn) (reached.next turn)
          (map.put key value) rfl
        exact ⟨outcome, (map_iff starts closed).mpr ⟨_, _, entered, runs⟩⟩

theorem metadata_ends {input : Text} (reached : ∀ rest, skipSeparators input = '{'.toNat :: rest →
      Reached source .map rest) :
    ∃ outcome, Converges (fun fuel => parseSTONMap fuel input) outcome := by
  cases starts : skipSeparators input with
  | nil =>
    simp only [parseSTONMap, starts]
    exact ⟨_, .pure _⟩
  | cons c rest =>
    by_cases opened : c = '{'.toNat
    · rw [opened] at starts
      obtain ⟨outcome, runs⟩ := map_ends useful (reached rest starts) []
      exact ⟨outcome, (metadata_iff starts).mpr runs⟩
    · simp only [parseSTONMap, starts, opened, if_false]
      exact ⟨_, .pure _⟩

theorem nextMethod_ends {input rest : Text} {c : Nat} (reached : Reached source .methods input)
    (starts : skipSeparators input = c :: rest) :
    ∃ outcome, Converges (fun fuel => nextMethod fuel (c :: rest)) outcome := by
  have metadata : ∃ outcome, Converges
      (fun fuel => parseSTONMap fuel (skipSeparators (c :: rest))) outcome := by
    apply metadata_ends useful
    intro inner opens
    simp only [skipSeparators_of_starts starts] at opens
    exact reached.inner (.metadata (starts.trans opens))
  obtain ⟨read, runs⟩ := metadata
  have headed : ∃ outcome, Converges (fun fuel => methodHeading fuel (c :: rest)) outcome :=
    ⟨_, runs.map _⟩
  obtain ⟨⟨heading, after⟩, headed⟩ := headed
  cases heading with
  | none => exact ⟨_, headed.bind (.pure _)⟩
  | some heading =>
    obtain ⟨outcome, ends⟩ := nextBlock_ends after
    exact ⟨_, headed.bind (ends.map _)⟩

theorem methods_ends {input : Text} (reached : Reached source .methods input) (spec : ClassSpec) :
    ∃ outcome, Converges (fun fuel => readMethods fuel spec input) outcome := by
  induction size : input.length using Nat.strong_induction_on generalizing input spec with
  | _ size ih =>
    subst size
    have grows : Grows fun fuel => readMethods fuel spec input :=
      fun fuel => readMethods_grow fuel _ _
    cases starts : skipSeparators input with
    | nil =>
      refine ⟨.ok spec, grows.converges (?_ : readMethods 1 spec input = _)⟩
      rw [readMethods, starts]
    | cons c rest =>
      obtain ⟨outcome, runs⟩ := nextMethod_ends useful reached starts
      cases outcome with
      | error error =>
        have read : Converges (fun fuel => readMethod fuel spec (c :: rest)) (.error error) :=
          runs.map _
        exact ⟨.error error, (methods_iff starts).mpr ⟨_, read, .pure _⟩⟩
      | ok state =>
        obtain ⟨method, after⟩ := state
        have read : Converges (fun fuel => readMethod fuel spec (c :: rest))
            (.ok (spec.addMethod method, after)) := runs.map _
        have turn := Next.method starts runs
        obtain ⟨outcome, goes⟩ := ih _ (next_lt (useful _ _ reached) turn) (reached.next turn)
          (spec.addMethod method) rfl
        exact ⟨outcome, (methods_iff starts).mpr ⟨_, read, goes⟩⟩

end Progress

section Termination

variable (utf8Source filename : List UInt8)

/-- A file with a turn that takes nothing is never read to an end. -/
theorem not_read_of_wasted {loop : Loop} {input : Text}
    (reached : Reached (fromUtf8 utf8Source) loop input) (wasted : Wasted loop input) :
    ¬ ∃ outcome, Converges (fun fuel => parseFile fuel utf8Source filename) outcome := by
  rintro ⟨outcome, whole⟩
  exact not_ends wasted (reached_ends whole reached)

/-- Reading a file ends, every turn of its loops taking something, exactly when no element of an
array starts with a brace or a colon and every method has one of its first marks. -/
theorem parseFile_terminates_iff :
    ((∃ outcome, Converges (fun fuel => parseFile fuel utf8Source filename) outcome) ∧
      ∀ loop input, Reached (fromUtf8 utf8Source) loop input → ∀ loop' after,
        Next loop input loop' after → after.length < input.length) ↔
    ∀ loop input, Reached (fromUtf8 utf8Source) loop input → ¬ Wasted loop input := by
  constructor
  · rintro ⟨ends, -⟩ loop input reached wasted
    exact not_read_of_wasted utf8Source filename reached wasted ends
  · intro useful
    refine ⟨?_, fun loop input reached loop' after turn => next_lt (useful _ _ reached) turn⟩
    have metadata : ∃ outcome, Converges
        (fun fuel => readDefinition fuel (typeOf (fromUtf8 utf8Source)).2) outcome := by
      apply metadata_ends useful
      intro rest starts
      rw [skipSeparators, skipSeparators, List.dropWhile_idempotent] at starts
      exact .definition starts
    obtain ⟨⟨fields, rest⟩, reads⟩ := metadata
    have goes : ∃ outcome, Converges
        (fun fuel => afterDefinition utf8Source filename fuel (fields, rest)) outcome := by
      cases known : isKnown (typeOf (fromUtf8 utf8Source)).1 with
      | true =>
        obtain ⟨outcome, runs⟩ := methods_ends useful (.methods known reads)
          (fileSpec utf8Source fields)
        simp only [afterDefinition, known, if_true]
        exact ⟨_, runs.map _⟩
      | false =>
        simp only [afterDefinition, known, Bool.false_eq_true, if_false]
        exact ⟨_, .pure _⟩
    obtain ⟨outcome, goes⟩ := goes
    exact ⟨outcome, reads.bind goes⟩

/-- A word after the definition is looked at again and again. -/
theorem trailing_word_not_read :
    ¬ ∃ outcome, Converges (fun fuel => parseFile fuel (ascii "Class{}x") []) outcome := by
  have definition : readDefinition 2 (typeOf (fromUtf8 (ascii "Class{}x"))).2 =
      some ([], text "x") := by decide
  have reached : Reached (fromUtf8 (ascii "Class{}x")) .methods (text "x") :=
    .methods (by decide) ((parseSTONMap_grows _).converges definition)
  exact not_read_of_wasted _ _ reached ⟨by decide, by decide, by decide⟩

end Termination

end Egg.Bootstrap
