import Egg.Bootstrap.ReaderProgress

/-! The loops of the reader, the turns they take, and when all of them come to an end. -/
namespace Egg.Bootstrap

open Egg.Data

section Turns

/-- The loops of the reader over its text. -/
inductive Loop where
  | array
  | map
  | methods
  | block (nested prev : Nat)
  | quoted (quote : Nat)
  deriving DecidableEq

/-- A turn of a loop that goes on with another. -/
inductive Next : Loop → Text → Loop → Text → Prop
  | element {input rest after element : Text} {c : Nat} (starts : skipSeparators input = c :: rest)
      (going : c ≠ ']'.toNat)
      (reads : Converges (fun fuel => parseSTONValue fuel (c :: rest)) (element, after)) :
      Next .array input .array (skipOptional ',' after)
  | entry {input rest after : Text} {entry : Text × Text} {c : Nat}
      (starts : skipSeparators input = c :: rest) (going : c ≠ '}'.toNat)
      (reads : Converges (fun fuel => mapEntry fuel (c :: rest)) (entry, after)) :
      Next .map input .map after
  | method {input rest after : Text} {method : Option (Bool × MethodSpec)} {c : Nat}
      (starts : skipSeparators input = c :: rest)
      (reads : Converges (fun fuel => nextMethod fuel (c :: rest)) (.ok (method, after))) :
      Next .methods input .methods after
  | character {block : Block} (going : block.done = false) :
      Next (.block block.nested block.prev) block.left
        (.block block.turn.nested block.turn.prev) block.turn.left
  | skipped {quote c : Nat} {rest : Text} (other : c ≠ quote) :
      Next (.quoted quote) (c :: rest) (.quoted quote) rest
  | doubled {quote : Nat} {rest : Text} :
      Next (.quoted quote) (quote :: quote :: rest) (.quoted quote) rest

/-- A turn of a loop that another loop is a part of. -/
inductive Starts : Loop → Text → Loop → Text → Prop
  | nested {input rest : Text} (starts : skipSeparators input = '['.toNat :: rest) :
      Starts .array input .array rest
  | key {input rest : Text} (starts : skipSeparators input = '['.toNat :: rest) :
      Starts .map input .array rest
  | value {input rest key after inner : Text} {c : Nat}
      (starts : skipSeparators input = c :: rest) (going : c ≠ '}'.toNat)
      (reads : Converges (fun fuel => parseSTONValue fuel (c :: rest)) (key, after))
      (opens : skipSeparators (skipOptional ':' after) = '['.toNat :: inner) :
      Starts .map input .array inner
  | metadata {input rest : Text} (starts : skipSeparators input = '{'.toNat :: rest) :
      Starts .methods input .map rest
  | body {input rest after : Text} {heading : Heading} {c : Nat}
      (starts : skipSeparators input = c :: rest)
      (reads : Converges (fun fuel => methodHeading fuel (c :: rest)) (some heading, after)) :
      Starts .methods input (.block 1 0) (after.dropWhile isNewline)
  | literal {nested prev quote : Nat} {rest : Text} (plain : prev ≠ '$'.toNat)
      (quotes : quote = '\''.toNat ∨ quote = '"'.toNat) :
      Starts (.block nested prev) (quote :: rest) (.quoted quote) rest

/-- The type of a file, and what stands after it. -/
def typeOf (source : Text) : Text × Text := readType (readComments source).2

/-- The turns of loops that reading a file comes to. -/
inductive Reached (source : Text) : Loop → Text → Prop
  | comment {rest : Text} (starts : skipSeparators source = '"'.toNat :: rest) :
      Reached source (.quoted '"'.toNat) rest
  | definition {rest : Text} (starts : skipSeparators (typeOf source).2 = '{'.toNat :: rest) :
      Reached source .map rest
  | methods {fields : Fields} {rest : Text} (known : isKnown (typeOf source).1 = true)
      (reads : Converges (fun fuel => readDefinition fuel (typeOf source).2) (fields, rest)) :
      Reached source .methods rest
  | next {loop loop' : Loop} {input after : Text} (earlier : Reached source loop input)
      (turn : Next loop input loop' after) : Reached source loop' after
  | inner {loop loop' : Loop} {input after : Text} (earlier : Reached source loop input)
      (turn : Starts loop input loop' after) : Reached source loop' after

/-- An element starts with a mark of a map, or a method with neither of its own. -/
def Wasted : Loop → Text → Prop
  | .array, input => (skipSeparators input).head? = some '}'.toNat ∨
      (skipSeparators input).head? = some ':'.toNat
  | .methods, input => skipSeparators input ≠ [] ∧
      (skipSeparators input).head? ≠ some '{'.toNat ∧
        find (text " >> ") (skipSeparators input) = none
  | _, _ => False

end Turns

section Shorter

/-- A heading takes something, unless its first marks are both missing. -/
theorem methodHeading_le {fuel : Nat} {input after : Text} {heading : Option Heading}
    (found : methodHeading fuel input = some (heading, after)) :
    after.length < (skipSeparators input).length ∨
      (skipSeparators input).head? ≠ some '{'.toNat ∧
        find (text " >> ") (skipSeparators input) = none := by
  obtain ⟨⟨metadata, middle⟩, read, same⟩ := Option.map_eq_some_iff.mp found
  have separated := skipSeparators_le middle
  have idem : skipSeparators (skipSeparators input) = skipSeparators input :=
    List.dropWhile_idempotent _ _
  have mapped := parseSTONMap_le read
  rw [idem] at mapped
  dsimp only at same
  cases arrow : find (text " >> ") (skipSeparators middle) with
  | none =>
    simp only [arrow, Prod.mk.injEq] at same
    obtain ⟨-, rfl⟩ := same
    obtain less | ⟨rfl, other⟩ := mapped
    · exact .inl (separated.trans_lt less)
    · rw [idem] at arrow
      exact .inr ⟨other, arrow⟩
  | some parts =>
    obtain ⟨className, signed⟩ := parts
    have passed := find_lt (by simp [text]) arrow
    have mapped_le : middle.length ≤ (skipSeparators input).length := by
      obtain less | ⟨rfl, -⟩ := mapped
      · exact less.le
      · exact le_rfl
    left
    cases bracket : find (text "[") signed with
    | none =>
      simp only [arrow, bracket, Prod.mk.injEq] at same
      rw [← same.2]
      omega
    | some parts =>
      obtain ⟨signature, body⟩ := parts
      have passed' := find_lt (by simp [text]) bracket
      simp only [arrow, bracket, Prod.mk.injEq] at same
      rw [← same.2]
      omega

theorem nextMethod_le {fuel : Nat} {input after : Text} {method : Option (Bool × MethodSpec)}
    (found : nextMethod fuel input = some (.ok (method, after))) :
    after.length < (skipSeparators input).length ∨
      (skipSeparators input).head? ≠ some '{'.toNat ∧
        find (text " >> ") (skipSeparators input) = none := by
  obtain ⟨⟨heading, middle⟩, read, same⟩ := Option.bind_eq_some_iff.mp found
  have headed := methodHeading_le read
  cases heading with
  | none =>
    simp only [Option.some.injEq, Except.ok.injEq, Prod.mk.injEq] at same
    rwa [same.2] at headed
  | some heading =>
    obtain ⟨outcome, ran, same⟩ := Option.map_eq_some_iff.mp same
    cases outcome with
    | error error => exact nomatch same
    | ok state =>
      obtain ⟨body, last⟩ := state
      simp only [Except.ok.injEq, Prod.mk.injEq] at same
      rw [← same.2]
      have shorter := nextBlock_le ran
      exact headed.imp_left shorter.trans_lt

/-- A turn that is not wasted leaves less text than there was. -/
theorem next_lt {loop loop' : Loop} {input after : Text} (useful : ¬ Wasted loop input)
    (turn : Next loop input loop' after) : after.length < input.length := by
  cases turn with
  | @element _ rest after element c starts going reads =>
    have separated := skipSeparators_le input
    have comma := skipOptional_le ',' after
    have again := skipSeparators_of_starts starts
    have consumed := value_consumes reads
    rw [again] at consumed
    rw [starts] at separated
    obtain less | ⟨rfl, outside⟩ := consumed
    · omega
    · simp only [Wasted, starts, List.head?_cons, Option.some.injEq, not_or] at useful
      obtain rfl | brace | colon := mark_of_not_inWord starts (outside c rfl)
      · exact (skipOptional_lt again).trans_le separated
      · exact absurd brace useful.1
      · exact absurd colon useful.2
  | entry starts going reads =>
    have separated := skipSeparators_le input
    rw [starts] at separated
    obtain ⟨bound, reads⟩ := reads
    exact (mapEntry_lt starts going (reads bound le_rfl)).trans_le separated
  | method starts reads =>
    have separated := skipSeparators_le input
    obtain ⟨bound, reads⟩ := reads
    have shorter := nextMethod_le (reads bound le_rfl)
    rw [skipSeparators_of_starts starts, ← starts] at shorter
    obtain less | ⟨brace, arrow⟩ := shorter
    · exact less.trans_le separated
    · exact absurd ⟨by simp [starts], brace, arrow⟩ useful
  | character going =>
    simp only [Block.done, Bool.or_eq_false_iff, decide_eq_false_iff_not] at going
    exact turn_lt going.2
  | skipped other => exact Nat.lt_succ_self _
  | doubled => exact Nat.lt_add_of_pos_right (by decide : 0 < 2)

end Shorter

end Egg.Bootstrap
