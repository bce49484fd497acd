import Egg.Strings.StringPattern
import Mathlib.Data.List.TakeWhile

/-! What a pattern stands for in a string, and the tokens that it is scanned into. -/
namespace Egg.Strings

open Egg.Data

/-- A pattern stands in a string from `start` to `stop`. An asterisk is for any characters and a
question mark for one, but for itself where asterisks are before and behind it. -/
def Stands (string : List Nat) (stop : Nat) :
    (wild : Bool) → (pattern : List Nat) → (start : Nat) → Prop
  | _, [], start => start = stop + 1
  | wild, code :: pattern, start =>
    if code = asterisk then
      ∃ k, start ≤ k ∧ Stands string stop (decide (asterisk ∉ pattern)) pattern k
    else
      (∃ char, elementAt string start = some char ∧
        (char = code ∨ code = questionMark ∧ wild = true)) ∧
        Stands string stop wild pattern (start + 1)

/-- A text stands at a position. -/
def Fits (string : List Nat) (wild : Bool) (text : List Nat) (k : Nat) : Prop :=
  ∀ i code, text[i]? = some code → ∃ char, elementAt string (k + i) = some char ∧
    (char = code ∨ code = questionMark ∧ wild = true)

/-- Texts stand one behind another between two positions. -/
def Scattered (string : List Nat) : List (List Nat) → (start stop : Nat) → Prop
  | [], start, stop => start ≤ stop
  | text :: texts, start, stop =>
    ∃ j, start ≤ j ∧ Fits string false text j ∧ Scattered string texts (j + text.length) stop

/-- A pattern stands at the position or behind it. -/
def Behind (string : List Nat) (stop : Nat) (pattern : List Nat) (start : Nat) : Prop :=
  ∃ k, start ≤ k ∧ Stands string stop (decide (asterisk ∉ pattern)) pattern k

section Meaning

variable {string text pattern : List Nat} {wild : Bool} {start stop k : Nat}

theorem fits_nil (string : List Nat) (wild : Bool) (k : Nat) : Fits string wild [] k := by
  intro i code there
  cases there

theorem fits_cons {code : Nat} : Fits string wild (code :: text) k ↔
    (∃ char, elementAt string k = some char ∧ (char = code ∨ code = questionMark ∧ wild = true)) ∧
      Fits string wild text (k + 1) := by
  constructor
  · intro fits
    refine ⟨fits 0 code rfl, fun i other there => ?_⟩
    have next := fits (i + 1) other there
    rwa [← Nat.add_assoc, Nat.add_right_comm] at next
  · rintro ⟨first, rest⟩ i other there
    cases i with
    | zero =>
      obtain rfl := Option.some.inj there
      exact first
    | succ i =>
      have next := rest i other there
      rwa [Nat.add_right_comm] at next

theorem Fits.mono (fits : Fits string false text k) : Fits string wild text k := by
  intro i code there
  obtain ⟨char, here, same | ⟨-, impossible⟩⟩ := fits i code there
  · exact ⟨char, here, .inl same⟩
  · cases impossible

/-- A text that is not empty ends in the string. -/
theorem Fits.bounded (fits : Fits string wild text k) (nonempty : 0 < text.length) :
    k + text.length ≤ string.length + 1 := by
  obtain ⟨char, here, -⟩ := fits (text.length - 1) _
    (List.getElem?_eq_getElem (Nat.sub_lt nonempty Nat.one_pos))
  rcases position : k + (text.length - 1) with _ | index
  · lia
  · rw [position, elementAt] at here
    have inside := (List.getElem?_eq_some_iff.mp here).1
    lia

theorem stands_append (plain : asterisk ∉ text) : Stands string stop wild (text ++ pattern) k ↔
    Fits string wild text k ∧ Stands string stop wild pattern (k + text.length) := by
  induction text generalizing k with
  | nil => exact (and_iff_right (fits_nil string wild k)).symm
  | cons code text inductionHypothesis =>
    rw [List.mem_cons, not_or] at plain
    rw [List.cons_append, Stands, if_neg (Ne.symm plain.1), inductionHypothesis plain.2, fits_cons,
      List.length_cons, and_assoc, Nat.add_assoc k 1, Nat.add_comm 1]

theorem stands_plain (plain : asterisk ∉ text) : Stands string stop wild text k ↔
    Fits string wild text k ∧ k + text.length = stop + 1 := by
  have whole : Stands string stop wild (text ++ []) k ↔ _ := stands_append plain
  rwa [List.append_nil] at whole

theorem stands_asterisk :
    Stands string stop wild (asterisk :: pattern) k ↔ Behind string stop pattern k := by
  rw [Stands, if_pos rfl]
  rfl

theorem behind_asterisk :
    Behind string stop (asterisk :: pattern) k ↔ Behind string stop pattern k := by
  constructor
  · rintro ⟨j, later, stands⟩
    obtain ⟨i, latest, stands⟩ := stands_asterisk.mp stands
    exact ⟨i, Nat.le_trans later latest, stands⟩
  · intro behind
    exact ⟨k, Nat.le_refl k, stands_asterisk.mpr behind⟩

/-- Asterisks in a row are as good as one. -/
theorem behind_asterisks {stars : List Nat} (all : ∀ code ∈ stars, code = asterisk) :
    Behind string stop (stars ++ pattern) k ↔ Behind string stop pattern k := by
  induction stars with
  | nil => exact Iff.rfl
  | cons code stars inductionHypothesis =>
    obtain rfl := all code List.mem_cons_self
    rw [List.cons_append, behind_asterisk]
    exact inductionHypothesis fun other member => all other (List.mem_cons_of_mem _ member)

theorem Scattered.mono {texts : List (List Nat)} {earlier later : Nat}
    (scattered : Scattered string texts start stop) (before : earlier ≤ start)
    (behind : stop ≤ later) : Scattered string texts earlier later := by
  induction texts generalizing start earlier with
  | nil => exact before.trans (Nat.le_trans scattered behind)
  | cons text texts inductionHypothesis =>
    obtain ⟨j, starts, fits, rest⟩ := scattered
    exact ⟨j, before.trans starts, fits, inductionHypothesis rest (Nat.le_refl _)⟩

theorem Scattered.le {texts : List (List Nat)} (scattered : Scattered string texts start stop) :
    start ≤ stop := by
  induction texts generalizing start with
  | nil => exact scattered
  | cons text texts inductionHypothesis =>
    obtain ⟨j, starts, -, rest⟩ := scattered
    exact starts.trans (Nat.le_trans (Nat.le_add_right j _) (inductionHypothesis rest))

end Meaning

/-! ### Tokens -/

/-- A token stands for characters that there are. -/
structure Proper (token : MatchToken) : Prop where
  positive : 1 ≤ token.start
  nonempty : token.start ≤ token.stop
  bounded : token.stop ≤ token.string.length

namespace Proper

variable {token : MatchToken} (proper : Proper token)

include proper

theorem size : token.asString.length = token.stop + 1 - token.start := by
  have positive := proper.positive
  have nonempty := proper.nonempty
  have bounded := proper.bounded
  simp only [MatchToken.asString, List.length_drop, List.length_take]
  lia

theorem length_eq : token.length = token.asString.length := by
  have nonempty := proper.nonempty
  rw [MatchToken.length, proper.size]
  lia

theorem size_pos : 0 < token.asString.length := by
  have nonempty := proper.nonempty
  rw [proper.size]
  lia

theorem getElem?_asString (i : Nat) (inside : token.start + i ≤ token.stop) :
    token.asString[i]? = elementAt token.string (token.start + i) := by
  have positive := proper.positive
  obtain ⟨start, same⟩ := Nat.exists_eq_add_of_le' positive
  rw [MatchToken.asString, List.getElem?_drop, List.getElem?_take_of_lt (by lia), same,
    Nat.add_right_comm, elementAt]
  rfl

/-- The characters of a token, by their positions where the token is from. -/
theorem fits_iff {string : List Nat} {wild : Bool} {k : Nat} :
    Fits string wild token.asString k ↔ ∀ j, token.start ≤ j → j ≤ token.stop →
      ∃ code char, elementAt token.string j = some code ∧
        elementAt string (k + (j - token.start)) = some char ∧
          (char = code ∨ code = questionMark ∧ wild = true) := by
  constructor
  · intro fits j low high
    obtain ⟨i, rfl⟩ := Nat.exists_eq_add_of_le low
    obtain ⟨code, here⟩ := @elementAt_isSome _ token.string (token.start + i)
      (Nat.le_trans proper.positive low) (Nat.le_trans high proper.bounded)
    obtain ⟨char, there, same⟩ := fits i code ((proper.getElem?_asString i high).trans here)
    exact ⟨code, char, here, by rwa [Nat.add_sub_cancel_left], same⟩
  · intro each i code there
    have inside := (List.getElem?_eq_some_iff.mp there).1
    have high : token.start + i ≤ token.stop := by
      rw [proper.size] at inside
      lia
    obtain ⟨code', char, here, found, same⟩ := each (token.start + i) (Nat.le_add_right _ _) high
    rw [← proper.getElem?_asString i high, there] at here
    obtain rfl := Option.some.inj here
    rw [Nat.add_sub_cancel_left] at found
    exact ⟨char, found, same⟩

end Proper

/-- The tokens of a pattern with stars: texts between two of them, before the first and behind
the last. -/
structure Parts where
  first : Option MatchToken
  middle : List MatchToken
  last : Option MatchToken

namespace Parts

/-- Texts with a star before and behind each. -/
def inner (middle : List MatchToken) : List Token :=
  .star :: middle.flatMap fun token => [.text token, .star]

variable (parts : Parts)

def tokens : List Token :=
  parts.first.toList.map .text ++ (inner parts.middle ++ parts.last.toList.map .text)

def textOf (token : Option MatchToken) : List Nat := token.elim [] MatchToken.asString

def Stand (string : List Nat) (wild : Bool) (start stop : Nat) : Prop :=
  Fits string wild (textOf parts.first) start ∧
    ∃ c, Scattered string (parts.middle.map MatchToken.asString)
        (start + (textOf parts.first).length) c ∧
      Fits string true (textOf parts.last) c ∧ c + (textOf parts.last).length = stop + 1

end Parts

/-- The tokens of what is left of a pattern that has an asterisk. -/
structure Scanned (pattern : List Nat) (position : Nat) (tokens : List Token) (parts : Parts) :
    Prop where
  tokens : tokens = parts.tokens
  first : ∀ token ∈ parts.first, Proper token ∧ token.start = position + 1
  middle : ∀ token ∈ parts.middle, Proper token
  last : ∀ token ∈ parts.last, Proper token
  begins : pattern.head? ≠ some asterisk → parts.first.isSome
  means : ∀ string stop wild k, Stands string stop wild pattern k ↔ parts.Stand string wild k stop

namespace StringPattern

variable {contents text stars pattern : List Nat} {position : Nat}

/-- The token of a text, if there is one. -/
def tokenOf (contents text : List Nat) (position : Nat) : Option MatchToken :=
  if text = [] then none else some ⟨contents, position + 1, position + text.length⟩

theorem tokenOf_text (here : contents.drop position = text ++ pattern) :
    Parts.textOf (tokenOf contents text position) = text := by
  unfold tokenOf
  split
  · next empty => exact empty.symm
  · show (contents.take (position + text.length)).drop (position + 1 - 1) = text
    rw [Nat.add_sub_cancel, List.drop_take, Nat.add_sub_cancel_left, here]
    exact List.take_left

theorem tokenOf_proper (here : contents.drop position = text ++ pattern) :
    ∀ token ∈ tokenOf contents text position, Proper token ∧ token.start = position + 1 := by
  unfold tokenOf
  split
  · rintro token ⟨⟩
  · next nonempty =>
    rintro token ⟨⟩
    have inside := congrArg List.length here
    rw [List.length_drop, List.length_append] at inside
    have positive := List.length_pos_iff.mpr nonempty
    exact ⟨⟨Nat.le_add_left 1 position, by simp only; lia, by simp only; lia⟩, rfl⟩

/-- What is left without an asterisk is one token. -/
theorem scanFrom_plain (plain : asterisk ∉ contents.drop position) :
    scanFrom contents position =
      (tokenOf contents (contents.drop position) position).toList.map .text := by
  have whole : (contents.drop position).takeWhile (· != asterisk) = contents.drop position := by
    rw [List.takeWhile_eq_self_iff]
    intro code member
    exact bne_iff_ne.mpr fun same => plain (same ▸ member)
  rw [scanFrom]
  split
  · next inside =>
    have nonempty : contents.drop position ≠ [] := by
      rw [Ne, List.drop_eq_nil_iff]
      lia
    have stop : position + (contents.drop position).length = contents.length := by
      rw [List.length_drop]
      lia
    simp only [addToken, addStar, whole, stop, if_pos (Nat.succ_le_of_lt inside),
      if_neg (Nat.lt_irrefl _), List.append_nil]
    rw [scanFrom, if_neg (Nat.lt_irrefl _), List.append_nil, tokenOf, if_neg nonempty, stop]
    rfl
  · next outside =>
    have empty : contents.drop position = [] := List.drop_eq_nil_iff.mpr (Nat.le_of_not_lt outside)
    rw [tokenOf, if_pos empty]
    rfl

/-- A text, asterisks and the rest of a pattern. -/
theorem scanFrom_asterisk
    (here : contents.drop position = text ++ asterisk :: (stars ++ pattern))
    (plain : asterisk ∉ text) (all : ∀ code ∈ stars, code = asterisk)
    (ends : pattern.head? ≠ some asterisk) :
    scanFrom contents position = (tokenOf contents text position).toList.map .text ++
      .star :: scanFrom contents (position + text.length + 1 + stars.length) := by
  have size := congrArg List.length here
  rw [List.length_drop, List.length_append, List.length_cons] at size
  have taken : (contents.drop position).takeWhile (· != asterisk) = text := by
    rw [here, List.takeWhile_append_of_pos, List.takeWhile_cons_of_neg (by simp), List.append_nil]
    intro code member
    exact bne_iff_ne.mpr fun same => plain (same ▸ member)
  have behind : contents.drop (position + text.length + 1) = stars ++ pattern := by
    rw [Nat.add_assoc, ← List.drop_drop, here]
    simp
  have starred : (contents.drop (position + text.length + 1)).takeWhile (· == asterisk) = stars := by
    rw [behind, List.takeWhile_append_of_pos fun code member => beq_iff_eq.mpr (all code member)]
    cases pattern with
    | nil => simp
    | cons code pattern =>
      rw [List.takeWhile_cons_of_neg, List.append_nil]
      intro same
      exact ends (congrArg some (beq_iff_eq.mp same))
  rw [scanFrom, if_pos (by lia)]
  simp only [addToken, addStar, taken]
  rw [if_pos (show position + text.length < contents.length by lia), starred]
  have token : (if position + 1 ≤ position + text.length then
      [Token.text ⟨contents, position + 1, position + text.length⟩] else []) =
      (tokenOf contents text position).toList.map .text := by
    unfold tokenOf
    by_cases empty : text = []
    · rw [if_pos empty, if_neg (by simp [empty])]
      rfl
    · have positive := List.length_pos_iff.mpr empty
      rw [if_neg empty, if_pos (by lia)]
      rfl
  rw [token, List.append_assoc]
  rfl

/-- Where the first asterisk is, with those next to it. -/
theorem split_asterisk (member : asterisk ∈ pattern) : ∃ text stars rest,
    pattern = text ++ asterisk :: (stars ++ rest) ∧ asterisk ∉ text ∧
      (∀ code ∈ stars, code = asterisk) ∧ rest.head? ≠ some asterisk := by
  obtain ⟨text, behind, rfl, plain⟩ := List.eq_append_cons_of_mem member
  refine ⟨text, behind.takeWhile (· == asterisk), behind.dropWhile (· == asterisk), ?_, plain, ?_,
    ?_⟩
  · rw [List.takeWhile_append_dropWhile]
  · intro code inside
    exact beq_iff_eq.mp (@List.mem_takeWhile_imp _ (· == asterisk) _ _ inside)
  · intro begins
    have least := List.head?_dropWhile_not (· == asterisk) behind
    rw [begins] at least
    simp at least

theorem stand_last {string : List Nat} {stop k : Nat} {wild : Bool} (first last : Option MatchToken) :
    Parts.Stand ⟨first, [], last⟩ string wild k stop ↔
      Fits string wild (Parts.textOf first) k ∧ ∃ c, k + (Parts.textOf first).length ≤ c ∧
        Fits string true (Parts.textOf last) c ∧ c + (Parts.textOf last).length = stop + 1 :=
  Iff.rfl

/-- What an asterisk and the rest of a pattern stand for, from the tokens of the rest. -/
theorem scanned_cons {text rest : List Nat} {next : Nat} {tokens : List Token} {parts : Parts}
    (here : contents.drop position = text ++ asterisk :: (stars ++ rest))
    (plain : asterisk ∉ text) (all : ∀ code ∈ stars, code = asterisk)
    (ends : rest.head? ≠ some asterisk) (member : asterisk ∈ rest)
    (scanned : Scanned rest next tokens parts) : ∃ first, parts.first = some first ∧
      Scanned (contents.drop position) position
        ((tokenOf contents text position).toList.map .text ++ .star :: tokens)
        ⟨tokenOf contents text position, first :: parts.middle, parts.last⟩ := by
  obtain ⟨first, isFirst⟩ := Option.isSome_iff_exists.mp (scanned.begins ends)
  refine ⟨first, isFirst, ?_, tokenOf_proper here, ?_, scanned.last, ?_, ?_⟩
  · rw [scanned.tokens]
    simp [Parts.tokens, Parts.inner, isFirst]
  · intro token inside
    rcases List.mem_cons.mp inside with rfl | inside
    · exact (scanned.first token isFirst).1
    · exact scanned.middle token inside
  · intro begins
    unfold tokenOf
    split
    · next empty =>
      rw [here, empty] at begins
      exact absurd rfl begins
    · rfl
  · intro string stop wild k
    rw [here, stands_append plain, stands_asterisk, behind_asterisks all]
    refine and_congr (by rw [tokenOf_text here]) ?_
    simp only [Behind, member, not_true, decide_false, scanned.means, Parts.Stand, isFirst,
      tokenOf_text here, List.map_cons, Scattered]
    constructor
    · rintro ⟨j, later, fits, c, scattered, others⟩
      exact ⟨c, ⟨j, later, fits, scattered⟩, others⟩
    · rintro ⟨c, ⟨j, later, fits, scattered⟩, others⟩
      exact ⟨j, later, fits, c, scattered, others⟩

/-- What is left of a pattern is scanned into tokens that stand for the same. -/
theorem scanFrom_scanned (contents : List Nat) (position : Nat)
    (member : asterisk ∈ contents.drop position) : ∃ parts,
      Scanned (contents.drop position) position (scanFrom contents position) parts := by
  induction size : contents.length - position using Nat.strong_induction_on generalizing position with
  | _ size inductionHypothesis =>
    obtain ⟨text, stars, rest, here, plain, all, ends⟩ := split_asterisk member
    have left := congrArg List.length here
    rw [List.length_drop, List.length_append, List.length_cons, List.length_append] at left
    have behind : contents.drop (position + text.length + 1 + stars.length) = rest := by
      rw [show position + text.length + 1 + stars.length =
        position + (text.length + (1 + stars.length)) by lia, ← List.drop_drop, here]
      rw [← List.drop_drop, List.drop_left, Nat.add_comm 1, List.drop_succ_cons, List.drop_left]
    rw [scanFrom_asterisk here plain all ends]
    by_cases more : asterisk ∈ rest
    · obtain ⟨parts, scanned⟩ := inductionHypothesis _ (by lia)
        (position + text.length + 1 + stars.length) (by rwa [behind]) rfl
      rw [behind] at scanned
      obtain ⟨first, -, whole⟩ := scanned_cons here plain all ends more scanned
      exact ⟨_, whole⟩
    · rw [scanFrom_plain (by rwa [behind]), behind]
      have last := (behind.trans (List.append_nil rest).symm)
      refine ⟨⟨tokenOf contents text position, [], tokenOf contents rest _⟩, by
        simp [Parts.tokens, Parts.inner], tokenOf_proper here, by simp,
        fun token there => (tokenOf_proper last token there).1, ?_, ?_⟩
      · intro begins
        unfold tokenOf
        split
        · next empty =>
          rw [here, empty] at begins
          exact absurd rfl begins
        · rfl
      · intro string stop wild k
        rw [here, stands_append plain, stands_asterisk, behind_asterisks all, stand_last,
          tokenOf_text here, tokenOf_text last]
        simp only [Behind, more, not_false_eq_true, decide_true, stands_plain more]

end StringPattern

end Egg.Strings
