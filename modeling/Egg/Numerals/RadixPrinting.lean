import Mathlib.Data.Nat.Digits.Lemmas

/-! Integers written in a radix, and how they are padded. -/
namespace Egg.Numerals

/-- A base with digits for all its remainders. -/
structure Radix where
  base : Nat
  least : 2 ≤ base
  greatest : base ≤ 36
deriving DecidableEq

namespace Radix

def ten : Radix := ⟨10, by decide, by decide⟩

end Radix

def digitValue (anInteger : Nat) : Char :=
  Char.ofNat (anInteger + if anInteger < 10 then 48 else 55)

section Model

variable (radix : Radix)

/-- The remainders of the loop, and its last quotient. -/
def remainders (quo : Nat) : List Nat :=
  if radix.base ≤ quo then quo % radix.base :: remainders (quo / radix.base) else [quo]
termination_by quo
decreasing_by
  have least := radix.least
  exact Nat.div_lt_self (by omega) least

def digitsBase (self : Int) : List Char :=
  ((remainders radix self.natAbs).map digitValue).reverse

end Model

mutual

/-- A negative integer is left to the other selector, the padding with it. -/
def printDigitsOn (self : Int) (bInteger : Radix) (dInteger : Int) (aCharacter : Char) :
    List Char :=
  if self < 0 then '-' :: printOn (-self) bInteger 0 '0'
  else
    let digits := digitsBase bInteger self
    List.replicate (dInteger - digits.length).toNat aCharacter ++ digits
termination_by if self < 0 then 2 else 0
decreasing_by
  rw [if_neg (by omega), if_pos (by assumption)]
  decide

def printOn (self : Int) (bInteger : Radix) (dInteger : Int) (aCharacter : Char) : List Char :=
  if self < 0 then '-' :: printOn (-self) bInteger 0 '0'
  else
    (if bInteger.base = 10 then []
      else if bInteger.base = 16 then ['0', 'x']
      else printDigitsOn bInteger.base .ten 0 '0' ++ ['r']) ++
    printDigitsOn self bInteger dInteger aCharacter
termination_by if self < 0 then 3 else 1
decreasing_by
  · rw [if_neg (by omega), if_pos (by assumption)]
    decide
  · rw [if_neg (by omega), if_neg (by assumption)]
    decide
  · rw [if_neg (by assumption), if_neg (by assumption)]
    decide

end

section Meaning

/-- The digits of a number, the highest first. -/
def digits (radix : Radix) (value : Nat) : List Nat :=
  if value = 0 then [0] else (Nat.digits radix.base value).reverse

def numeral (radix : Radix) (value : Nat) : List Char :=
  (digits radix value).map digitValue

/-- What a radix is announced by. -/
def radixPrefix (radix : Radix) : List Char :=
  if radix.base = 10 then []
  else if radix.base = 16 then ['0', 'x']
  else numeral .ten radix.base ++ ['r']

def sign (value : Int) : List Char :=
  if value < 0 then ['-'] else []

def padded (width : Int) (aCharacter : Char) (text : List Char) : List Char :=
  List.replicate (width - text.length).toNat aCharacter ++ text

end Meaning

section Printing

variable {radix : Radix}

theorem remainders_reverse (value : Nat) :
    (remainders radix value).reverse = digits radix value := by
  have least := radix.least
  induction value using remainders.induct radix with
  | case1 value more ih =>
    have rest : value / radix.base ≠ 0 := by
      apply Nat.pos_iff_ne_zero.mp
      exact Nat.div_pos more (by omega)
    have expanded : Nat.digits radix.base value =
        value % radix.base :: Nat.digits radix.base (value / radix.base) :=
      Nat.digits_def' least (by omega)
    rw [digits, if_neg rest] at ih
    rw [remainders, if_pos more, List.reverse_cons, ih, digits, if_neg (by omega), expanded,
      List.reverse_cons]
  | case2 value last =>
    rw [remainders, if_neg last, digits]
    split
    · next zero =>
      rw [zero]
      rfl
    · next nonzero => rw [Nat.digits_of_lt radix.base value nonzero (not_le.mp last)]

theorem digitsBase_eq (self : Int) : digitsBase radix self = numeral radix self.natAbs := by
  rw [digitsBase, ← List.map_reverse, remainders_reverse]
  rfl

theorem padded_zero (aCharacter : Char) (text : List Char) : padded 0 aCharacter text = text := by
  rw [padded, Int.toNat_of_nonpos (by omega)]
  rfl

theorem printDigitsOn_of_nonneg {self : Int} (nonneg : 0 ≤ self) (width : Int)
    (aCharacter : Char) : printDigitsOn self radix width aCharacter =
      padded width aCharacter (numeral radix self.natAbs) := by
  rw [printDigitsOn, if_neg nonneg.not_gt, digitsBase_eq]
  rfl

theorem printOn_of_nonneg {self : Int} (nonneg : 0 ≤ self) (width : Int) (aCharacter : Char) :
    printOn self radix width aCharacter =
      radixPrefix radix ++ padded width aCharacter (numeral radix self.natAbs) := by
  have announced : printDigitsOn radix.base .ten 0 '0' = numeral .ten radix.base := by
    rw [printDigitsOn_of_nonneg (Int.natCast_nonneg _), padded_zero, Int.natAbs_natCast]
  rw [printOn, if_neg nonneg.not_gt, announced, printDigitsOn_of_nonneg nonneg]
  rfl

/-- Of a negative integer the width is lost. -/
theorem printOn_of_neg {self : Int} (negative : self < 0) (width : Int) (aCharacter : Char) :
    printOn self radix width aCharacter =
      '-' :: (radixPrefix radix ++ numeral radix self.natAbs) := by
  rw [printOn, if_pos negative, printOn_of_nonneg (by omega), padded_zero, Int.natAbs_neg]

/-- Of a negative integer the digits are written with the prefix. -/
theorem printDigitsOn_of_neg {self : Int} (negative : self < 0) (width : Int)
    (aCharacter : Char) : printDigitsOn self radix width aCharacter =
      '-' :: (radixPrefix radix ++ numeral radix self.natAbs) := by
  rw [printDigitsOn, if_pos negative, printOn_of_nonneg (by omega), padded_zero, Int.natAbs_neg]

end Printing

end Egg.Numerals
