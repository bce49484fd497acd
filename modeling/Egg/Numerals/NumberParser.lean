import Mathlib.Data.List.Basic

/-! The parser of numbers in texts. An error ends the whole parse. -/
namespace Egg.Numerals

/-- What is parsed; floats and scaled decimals are known by the integers that make them. -/
inductive Parsed where
  | integer (value : Int)
  /-- An integer times a power of ten. -/
  | float (value exponent : Int)
  | scaledDecimal (numerator : Int) (fractionDigits : Nat) (scale : Option Nat)
deriving DecidableEq

def Parsed.negated : Parsed → Parsed
  | integer value => integer (-value)
  | float value exponent => float (-value) exponent
  | scaledDecimal numerator fractionDigits scale => scaledDecimal (-numerator) fractionDigits scale

namespace NumberParser

def isBlank (c : Char) : Bool :=
  let value := c.toNat
  value ≤ 32 || value = 160 || (0x2000 ≤ value && value < 0x200C) || value = 0x202F ||
    value = 0x205F || value = 0x3000

/-- The value of a decimal digit. -/
def digitOf (c : Char) : Nat :=
  c.toNat - 48

section Digits

-- the uppercase of the characters past ASCII
variable (uppercase : Char → Char)

def asUppercase (c : Char) : Char :=
  if c.toNat < 128 then c.toUpper else uppercase c

def digitFromChar (char : Char) (radix : Nat) : Option Nat :=
  if char.isDigit then some (digitOf char)
  else if char = 'r' then none
  else if char = 'x' then none
  else if char = 'X' then none
  else
    let c := asUppercase uppercase char
    if ¬ ('A'.toNat ≤ c.toNat ∧ c.toNat ≤ 'Z'.toNat) then none
    else if c ≠ 'E' ∧ radix ≤ c.toNat - 55 then none
    else if c = 'E' ∧ radix = 10 then none
    else some (c.toNat - 55)

/-- A character that is no digit is left in the stream; a digit past the radix is an error. -/
def nextDigit (radix : Nat) : List Char → Option (Option Nat × List Char)
  | [] => some (none, [])
  | char :: rest =>
    match digitFromChar uppercase char radix with
    | none => some (none, char :: rest)
    | some digit => if radix ≤ digit then none else some (some digit, rest)

/-- The loop over digits. -/
def digitsFrom (radix value : Nat) : List Char → Option (Nat × List Char)
  | [] => some (value, [])
  | char :: rest =>
    match nextDigit uppercase radix (char :: rest) with
    | none => none
    | some (none, _) => some (value, char :: rest)
    | some (some digit, _) => digitsFrom radix (value * radix + digit) rest

def nextIntegerRadix (radix : Nat) (text : List Char) : Option (Nat × List Char) := do
  let (value, rest) ← digitsFrom uppercase radix 0 text
  let valid := rest.length < text.length
  if valid then some (value, rest) else none

end Digits

section Numbers

variable (uppercase : Char → Char)

def nextExponent (text : List Char) : Option (Int × List Char) := do
  match text with
  | '+' :: text =>
    let (exp, rest) ← nextIntegerRadix uppercase 10 text
    some (exp, rest)
  | '-' :: text =>
    let (exp, rest) ← nextIntegerRadix uppercase 10 text
    some (-exp, rest)
  | text =>
    let (exp, rest) ← nextIntegerRadix uppercase 10 text
    some (exp, rest)

def completeFloat (anInteger : Nat) (text : List Char) : Option (Parsed × List Char) := do
  let (exponent, rest) ← nextExponent uppercase text
  some (.float anInteger exponent, rest)

/-- The scale is optional. -/
def nextScaledFrom (aNumber digits : Nat) (text : List Char) : Option (Parsed × List Char) := do
  if (text.head?.map Char.isDigit).getD false then
    let (scale, rest) ← nextIntegerRadix uppercase 10 text
    some (.scaledDecimal aNumber digits scale, rest)
  else some (.scaledDecimal aNumber digits none, text)

/-- Without a digit behind it the point is left in the stream. -/
def nextFloat (aNumber : Nat) (text : List Char) : Option (Parsed × List Char) := do
  match ← nextDigit uppercase 10 text with
  | (none, rest) => some (.integer aNumber, '.' :: rest)
  | (some digit, rest) =>
    let (base, behind) ← digitsFrom uppercase 10 (aNumber * 10 + digit) rest
    let e := 1 + (rest.length - behind.length)
    match behind with
    | 's' :: text => nextScaledFrom uppercase base e text
    | mark :: text =>
      if mark = 'E' ∨ mark = 'e' then
        let (exp, rest) ← nextExponent uppercase text
        some (.float base (exp - e), rest)
      else some (.float base (-e), behind)
    | [] => some (.float base (-e), [])

def completeNumberAfter (anInteger : Nat) (aCharacter : Char) (text : List Char) :
    Option (Parsed × List Char) := do
  if aCharacter = '.' then
    match text with
    | 's' :: text => nextScaledFrom uppercase anInteger 0 text
    | text => nextFloat uppercase anInteger text
  else if aCharacter = 'e' ∨ aCharacter = 'E' then completeFloat uppercase anInteger text
  else if aCharacter = 'r' then
    let (value, rest) ← nextIntegerRadix uppercase anInteger text
    some (.integer value, rest)
  else if aCharacter = 's' then nextScaledFrom uppercase anInteger 0 text
  else if anInteger = 0 ∧ (aCharacter = 'x' ∨ aCharacter = 'X') then
    let (value, rest) ← nextIntegerRadix uppercase 16 text
    some (.integer value, rest)
  else some (.integer anInteger, aCharacter :: text)

/-- A point and a digit behind a number are an error. -/
def checkNumberEnd : List Char → Option Unit
  | '.' :: char :: _ => if char.isDigit then none else some ()
  | _ => some ()

def completeNumber (anInteger : Nat) : List Char → Option Parsed
  | [] => some (.integer anInteger)
  | char :: text => do
    let (number, rest) ← completeNumberAfter uppercase anInteger char text
    checkNumberEnd rest
    some number

def nextNumber (aCharacter : Char) (text : List Char) : Option Parsed := do
  let (number, rest) ← digitsFrom uppercase 10 (digitOf aCharacter) text
  completeNumber uppercase number rest

/-- The number at the start of a text, behind blanks. -/
def next (text : List Char) : Option Parsed :=
  match _ahead : text.dropWhile isBlank with
  | [] => none
  | char :: rest =>
    if char = '-' then
      if (rest.head?.map Char.isDigit).getD false then (next rest).map Parsed.negated else none
    else if char = '+' then
      if (rest.head?.map Char.isDigit).getD false then next rest else none
    else if char.isDigit then nextNumber uppercase char rest
    else none
termination_by text.length
decreasing_by all_goals
  have length := (List.dropWhile_suffix isBlank (l := text)).length_le
  rw [_ahead, List.length_cons] at length
  exact length

def nextValue (text : List Char) : Parsed :=
  (next uppercase text).getD (.integer 0)

end Numbers

end NumberParser

end Egg.Numerals
