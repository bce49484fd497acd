import Egg.Data.Fuel
import Egg.Strings.SubstringSearch
import Mathlib.Data.List.ModifyLast
import Mathlib.Data.List.Basic

/-! Patterns with asterisks and question marks, and where they match in a string. Characters are
known by their codes; a failing access is no answer. -/
namespace Egg.Strings

open Egg.Data

def asterisk : Nat := 42

def questionMark : Nat := 63

/-- A part of a string. -/
structure MatchToken where
  string : List Nat
  start : Nat
  stop : Nat
deriving DecidableEq

namespace MatchToken

variable (self aMatchToken : MatchToken)

def length : Int := self.stop - self.start + 1

def asString : List Nat := (self.string.take self.stop).drop (self.start - 1)

/-- The comparison from the position `i` of the other one on. -/
def beginsWithFrom (i : Nat) : Option Bool :=
  if i ≤ aMatchToken.stop then do
    let char ← elementAt aMatchToken.string i
    let element ← elementAt self.string (self.start + i - 1)
    if element == char || char == questionMark then beginsWithFrom (i + 1) else some false
  else some true
termination_by aMatchToken.stop + 1 - i

def beginsWith : Option Bool :=
  if self.length ≥ aMatchToken.length then self.beginsWithFrom aMatchToken aMatchToken.start
  else some false

/-- The comparison from the position `i` of the other one down. -/
def endsWithFrom : Nat → Option Bool
  | 0 => some true
  | i + 1 =>
    if aMatchToken.start ≤ i + 1 then do
      let char ← elementAt aMatchToken.string (i + 1)
      let element ← elementAt self.string (self.stop + (i + 1) - aMatchToken.stop)
      if element == char || char == questionMark then endsWithFrom i else some false
    else some true

def endsWith : Option Bool :=
  if self.length ≥ aMatchToken.length then self.endsWithFrom aMatchToken aMatchToken.stop
  else some false

def indexOf : Option Nat :=
  CharacterArray.indexOfString self.string aMatchToken.asString self.start self.stop

end MatchToken

inductive Token where
  | star
  | text (token : MatchToken)
deriving DecidableEq

/-- Where a token was found; the end behind a star is not known at first. -/
structure MatchedRange where
  token : Token
  x : Nat
  y : Option Nat

structure MatchAlgorithm where
  string : MatchToken
  tokens : List Token
  failure : Option (List Nat)
  ranges : List MatchedRange

/-- The codes of a text of the source. -/
def codesOf (text : String) : List Nat := text.toList.map Char.toNat

namespace MatchAlgorithm

variable (self : MatchAlgorithm)

def hasMatched : Bool := self.failure.isNone && self.tokens.isEmpty

def hasTokens : Bool := self.failure.isNone && !self.tokens.isEmpty

def failBecause (aString : List Nat) : MatchAlgorithm := { self with failure := some aString }

/-- The string from where the token matches first; without a match, from where it is too short. -/
def searchFirst (string token : MatchToken) : Option (Bool × MatchToken) :=
  if token.length ≤ string.length then do
    let matched ← string.beginsWith token
    if matched then some (true, string)
    else searchFirst { string with start := string.start + 1 } token
  else some (false, string)
termination_by (string.length + 1 - token.length).toNat
decreasing_by
  simp only [MatchToken.length] at *
  lia

/-- The string up to where the token matches last. -/
def searchLast (string token : MatchToken) : (stop : Nat) → Option (Bool × MatchToken)
  -- A token is not empty, so that there is none before the first character.
  | 0 => some (false, { string with stop := 0 })
  | stop + 1 =>
    if token.length ≤ MatchToken.length { string with stop := stop + 1 } then do
      let matched ← MatchToken.endsWith { string with stop := stop + 1 } token
      if matched then some (true, { string with stop := stop + 1 })
      else searchLast string token stop
    else some (false, { string with stop := stop + 1 })

def privateMatchLastToken : Option MatchAlgorithm :=
  match self.tokens.getLast? with
  | some (.text token) => do
    let (matched, string) ← searchLast self.string token self.string.stop
    if matched then
      some { self with
        ranges := self.ranges ++
          [⟨.text token, (string.stop - token.length + 1).toNat, some string.stop⟩]
        string := { string with stop := (string.stop - token.length).toNat }
        tokens := self.tokens.dropLast }
    else
      some ({ self with string }.failBecause (token.asString ++
        codesOf " not present at position " ++
          codesOf (toString (string.stop - token.length + 1))))
  | _ => none

/-- The only token is looked for from the end as well. -/
def matchFirstToken (token : MatchToken) : Option MatchAlgorithm := do
  let (matched, string) ← searchFirst self.string token
  if matched then
    some { self with
      ranges := self.ranges ++
        [⟨.text token, string.start, some (string.start + token.length - 1).toNat⟩]
      string := { string with start := (string.start + token.length).toNat }
      tokens := self.tokens.tail }
  else if self.tokens.length = 1 then self.privateMatchLastToken
  else
    some ({ self with string }.failBecause (token.asString ++
      codesOf " not present at position " ++ codesOf (toString string.start)))

def matchLastToken (token : MatchToken) : Option MatchAlgorithm :=
  if self.tokens.length = 1 then self.matchFirstToken token else self.privateMatchLastToken

/-- The end of what was matched last. -/
def endLast (y : Nat) : MatchAlgorithm :=
  { self with ranges := self.ranges.modifyLast ({ · with y := some y }) }

def matchFirstTokenAfterStar (token : MatchToken) : Option MatchAlgorithm := do
  let i ← self.string.indexOf token
  if i = 0 then
    some (self.failBecause (token.asString ++ codesOf " not present in inteval [" ++
      codesOf (toString self.string.start) ++ codesOf ", " ++
        codesOf (toString self.string.stop)))
  else
    let self := self.endLast (i - 1)
    some { self with
      ranges := self.ranges ++ [⟨.text token, i, some (i + token.length - 1).toNat⟩]
      string := { self.string with start := (i + token.length).toNat }
      tokens := self.tokens.tail }

/-- A star takes what comes before the token behind it, or all that is left. -/
def matchFirstStar (self : MatchAlgorithm) : List Token → Option MatchAlgorithm
  | [] => none
  | token :: tokens =>
    let self : MatchAlgorithm := { self with
      ranges := self.ranges ++ [⟨token, self.string.start, none⟩]
      tokens }
    if self.hasTokens then
      match tokens with
      | [] => none
      | .text token :: _ => self.matchFirstTokenAfterStar token
      | .star :: _ => matchFirstStar self tokens
    else
      let self := self.endLast self.string.stop
      some { self with string := { self.string with stop := self.string.start - 1 } }

def matchNextToken : Option MatchAlgorithm :=
  match self.tokens with
  | [] => none
  | .text token :: _ => self.matchFirstToken token
  | .star :: _ => self.matchFirstStar self.tokens

/-- The ranges that are not empty, in their order in the string, from the first to the last. -/
def matchRange : Option (Option (Nat × Nat)) := do
  let points ← self.ranges.mapM fun range => range.y.map fun y => (range.x, y)
  let sorted := (points.filter fun p => p.1 ≤ p.2).mergeSort fun p q => p.1 ≤ q.1
  some do
    let first ← sorted.head?
    let last ← sorted.getLast?
    some (first.1, last.2)

def reset (aString : List Nat) (start : Nat) (tokens : List Token) : MatchAlgorithm where
  string := ⟨aString, start, aString.length⟩
  tokens := tokens
  failure := none
  ranges := []

def run (fuel : Nat) : Option MatchAlgorithm := do
  let started ←
    match self.tokens.getLast? with
    | none => some self
    | some .star => some self
    | some (.text token) => self.matchLastToken token
  loop (fun algorithm => !algorithm.hasTokens) (fun _ algorithm => algorithm.matchNextToken) fuel
    started

end MatchAlgorithm

/-- A pattern as its tokens. -/
structure StringPattern where
  tokens : List Token

namespace StringPattern

/-- The characters up to the next asterisk, and the position behind them. -/
def addToken (contents : List Nat) (position : Nat) : List Token × Nat :=
  let stop := position + ((contents.drop position).takeWhile (· != asterisk)).length
  (if position + 1 ≤ stop then [.text ⟨contents, position + 1, stop⟩] else [], stop)

/-- A star for all the asterisks in a row. -/
def addStar (contents : List Nat) (position : Nat) : List Token × Nat :=
  if position < contents.length then
    ([.star], position + 1 +
      ((contents.drop (position + 1)).takeWhile (· == asterisk)).length)
  else ([], position)

theorem addToken_le (contents : List Nat) (position : Nat) :
    position ≤ (addToken contents position).2 := Nat.le_add_right position _

/-- The scan goes on: without a token there is a star. -/
theorem addStar_advances {contents : List Nat} {position stop : Nat}
    (inside : position < contents.length) (later : position ≤ stop) :
    position < (addStar contents stop).2 := by
  unfold addStar
  split
  · simp only
    lia
  · simp only
    lia

def scanFrom (contents : List Nat) (position : Nat) : List Token :=
  if position < contents.length then
    let token := addToken contents position
    let star := addStar contents token.2
    token.1 ++ star.1 ++ scanFrom contents star.2
  else []
termination_by contents.length - position
decreasing_by
  have advances := addStar_advances ‹_› (addToken_le contents position)
  lia

def on (aString : List Nat) : StringPattern := ⟨scanFrom aString 0⟩

variable (self : StringPattern)

/-- `match:index:`; the range in the string, or nil. -/
def matchIndex (aString : List Nat) (anInteger fuel : Nat) : Option (Option (Nat × Nat)) := do
  let algorithm ← (MatchAlgorithm.reset aString anInteger self.tokens).run fuel
  if algorithm.hasMatched then algorithm.matchRange else some none

/-- `matches:`. -/
def «matches» (aString : List Nat) (fuel : Nat) : Option Bool := do
  let range ← self.matchIndex aString 1 fuel
  some (range.any fun range => range.1 == 1 && range.2 == aString.length)

end StringPattern

end Egg.Strings
