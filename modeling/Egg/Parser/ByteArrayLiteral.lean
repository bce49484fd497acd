import Egg.Parser.IntegerLiteral
import Mathlib.Data.List.TakeWhile

/-! Literal byte arrays, whose elements are read by another conversion. -/
namespace Egg.Parser

section Model

def isOctalDigit (c : Char) : Bool :=
  '0' ≤ c && c ≤ '7'

/-- The base and the digits that `std::stol` finds in a text with the base zero. -/
def stolDigits (text : List Char) : Nat × List Char :=
  if text[0]? = some '0' ∧ (text[1]? = some 'x' ∨ text[1]? = some 'X') ∧
      ((text.drop 2).takeWhile isHexDigit) ≠ [] then
    (16, (text.drop 2).takeWhile isHexDigit)
  else if text[0]? = some '0' then (8, text.takeWhile isOctalDigit)
  else (10, text.takeWhile Char.isDigit)

/-- `std::stol(v, nullptr, 0)`; nothing is answered where it throws. -/
def stol (text : List Char) : Option Nat :=
  let (base, digits) := stolDigits text
  if digits = [] then none
  else if valueOf base digits < 2 ^ 63 then some (valueOf base digits) else none

/-- The tokens that matter to a byte array. -/
inductive Token
  | literal (text : List Char)
  | close
  | other
  deriving DecidableEq

/-- The elements are cast to an `int` and to a byte. -/
def byteArrayBody : (tokens : List Token) → (bytes : List Nat) → Option (List Nat × List Token)
  | .literal text :: tokens, bytes => do
    let value ← stol text
    let val := Int.bmod value (2 ^ 32)
    byteArrayBody tokens (bytes ++ [(val % 256).toNat])
  | .close :: tokens, bytes => some (bytes, tokens)
  | .other :: _, _ => none
  | [], _ => none

end Model

section Conditions

/-- What a C reading makes of decimal digits: octal digits where they start with a zero. -/
def cValue (digits : List Char) : Nat :=
  if digits.head? = some '0' then valueOf 8 (digits.takeWhile isOctalDigit)
  else valueOf 10 digits

namespace Numeral

/-- The number of the digits that a plain literal takes, which stops short at a mistaken marker. -/
def taken : Numeral → Nat
  | decimal digits => valueOf 10 digits
  | hex _ digits => valueOf 16 digits
  | radix base upper digits =>
    if upper = true ∧ 'r' ∈ digits then
      valueOf (valueOf 10 base) ((digits.dropWhile (· ≠ 'r')).drop 1)
    else valueOf (valueOf 10 base) digits

/-- A reading in C stays with the number: no octal digits, no base in the place of the number. -/
def ReadsAlike : Numeral → Prop
  | decimal digits => digits.head? ≠ some '0' ∨ valueOf 10 digits < 8
  | hex _ _ => True
  | numeral@(radix base _ _) => numeral.taken = cValue base

/-- The digits are more than a `long` holds. -/
def TooLong : Numeral → Prop
  | decimal digits => 2 ^ 63 ≤ cValue digits
  | hex _ digits => 2 ^ 63 ≤ valueOf 16 digits
  | radix _ _ _ => False

end Numeral

end Conditions

section Octal

variable {digits : List Char} {c : Char}

theorem isOctalDigit_iff : isOctalDigit c = true ↔ ∃ d, digitOf c = some d ∧ d < 8 := by
  have numbers : isOctalDigit c = true ↔ 48 ≤ c.toNat ∧ c.toNat ≤ 55 := by
    simp only [isOctalDigit, Bool.and_eq_true, decide_eq_true_eq, le_iff]
    exact Iff.rfl
  rw [numbers, digitOf_eq]
  split_ifs with one two three
  · exact ⟨fun _ => ⟨_, rfl, by lia⟩, by rintro ⟨d, ⟨⟩, less⟩; lia⟩
  · exact ⟨fun octal => by lia, by rintro ⟨d, ⟨⟩, less⟩; lia⟩
  · exact ⟨fun octal => by lia, by rintro ⟨d, ⟨⟩, less⟩; lia⟩
  · exact ⟨fun octal => by lia, by rintro ⟨d, ⟨⟩, less⟩⟩

theorem valueOf_concat (base : Nat) (digits : List Char) (c : Char) :
    valueOf base (digits ++ [c]) = valueOf base digits * base + (digitOf c).getD 0 := by
  rw [valueOf_append]
  simp [valueOf]

theorem valueOf_mono {base base' : Nat} (less : base ≤ base') (digits : List Char) :
    valueOf base digits ≤ valueOf base' digits := by
  induction digits using List.reverseRecOn with
  | nil => exact Nat.le_refl _
  | append_singleton digits c ih =>
    rw [valueOf_concat, valueOf_concat]
    exact Nat.add_le_add_right (Nat.mul_le_mul ih less) _

/-- What stops the octal digits is a digit of at least eight. -/
theorem octal_split (decimals : DigitsOf 10 digits) :
    digits.takeWhile isOctalDigit = digits ∨
      valueOf 8 (digits.takeWhile isOctalDigit) + 8 ≤ valueOf 10 digits := by
  cases rest : digits.dropWhile isOctalDigit with
  | nil =>
    have whole := List.takeWhile_append_dropWhile (p := isOctalDigit) (l := digits)
    rw [rest, List.append_nil] at whole
    exact .inl whole
  | cons c more =>
    have whole := List.takeWhile_append_dropWhile (p := isOctalDigit) (l := digits)
    rw [rest] at whole
    have stops : isOctalDigit c = false := by
      have some : digits.dropWhile isOctalDigit ≠ [] := rest ▸ List.cons_ne_nil c more
      have head := List.head_dropWhile_not isOctalDigit some
      simp only [rest, List.head_cons] at head
      exact head
    have member : c ∈ digits := by
      rw [← whole]
      exact List.mem_append_right _ List.mem_cons_self
    obtain ⟨d, digit, less⟩ := decimals c member
    have large : 8 ≤ d := Nat.le_of_not_lt fun small => by
      rw [isOctalDigit_iff.mpr ⟨d, digit, small⟩] at stops
      cases stops
    refine .inr ?_
    have more' := valueOf_append 10 (digits.takeWhile isOctalDigit) c more
    rw [whole, digit] at more'
    have mono := valueOf_mono (show 8 ≤ 10 by decide) (digits.takeWhile isOctalDigit)
    have positive : 0 < 10 ^ more.length := Nat.pow_pos (by decide)
    have scaled := Nat.le_mul_of_pos_right
      (valueOf 10 (digits.takeWhile isOctalDigit) * 10 + d) positive
    simp only [Option.getD_some] at more'
    lia

theorem cValue_le (decimals : DigitsOf 10 digits) : cValue digits ≤ valueOf 10 digits := by
  unfold cValue
  split
  · rcases octal_split decimals with whole | less
    · rw [whole]
      exact valueOf_mono (by decide) digits
    · lia
  · exact Nat.le_refl _

/-- Octal digits denote the same number only when it has one digit. -/
theorem octal_eq_iff (decimals : DigitsOf 10 digits) :
    valueOf 8 (digits.takeWhile isOctalDigit) = valueOf 10 digits ↔ valueOf 10 digits < 8 := by
  rcases octal_split decimals with whole | less
  · rw [whole]
    cases digits using List.reverseRecOn with
    | nil => decide
    | append_singleton digits c =>
      have member : c ∈ (digits ++ [c]).takeWhile isOctalDigit := by
        rw [whole]
        exact List.mem_append_right _ List.mem_cons_self
      obtain ⟨d, digit, small⟩ := isOctalDigit_iff.mp (List.mem_takeWhile_imp member)
      have mono := valueOf_mono (show 8 ≤ 10 by decide) digits
      rw [valueOf_concat, valueOf_concat, digit]
      simp only [Option.getD_some]
      lia
  · lia

end Octal

section Readings

variable {numeral : Numeral}

/-- What the text of a numeral is read as. -/
def Numeral.read : Numeral → Nat
  | decimal digits => cValue digits
  | hex _ digits => valueOf 16 digits
  | radix base _ _ => cValue base

theorem takeWhile_append_stops {accepts : Char → Bool} (front : List Char) {back : List Char}
    (stops : ∀ c more, back = c :: more → accepts c = false) :
    (front ++ back).takeWhile accepts = front.takeWhile accepts := by
  induction front with
  | nil =>
    cases back with
    | nil => rfl
    | cons c more =>
      rw [List.nil_append, List.takeWhile_cons, stops c more rfl]
      rfl
  | cons c front ih => rw [List.cons_append, List.takeWhile_cons, List.takeWhile_cons, ih]

/-- Decimal digits are read as far as they go. -/
theorem stol_append {digits back : List Char} (some : digits ≠ []) (decimals : DigitsOf 10 digits)
    (stops : ∀ c more, back = c :: more → c.isDigit = false)
    (plain : ¬ ((digits ++ back)[1]? = Option.some 'x' ∨ (digits ++ back)[1]? = Option.some 'X')) :
    stol (digits ++ back) =
      if cValue digits < 2 ^ 63 then Option.some (cValue digits) else none := by
  have octal (c : Char) (more : List Char) (same : back = c :: more) : isOctalDigit c = false :=
    Bool.eq_false_iff.mpr fun digit => by
      obtain ⟨d, found, less⟩ := isOctalDigit_iff.mp digit
      have decimal := isDigit_iff.mpr ⟨d, found, by lia⟩
      rw [stops c more same] at decimal
      cases decimal
  obtain ⟨taken, -⟩ := @scan_append digits back Char.isDigit
    (fun c member => isDigit_iff.mpr (decimals c member)) stops
  cases digits with
  | nil => exact absurd rfl some
  | cons first digits =>
    have hex : ¬ ((first :: digits ++ back)[0]? = Option.some '0' ∧
        ((first :: digits ++ back)[1]? = Option.some 'x' ∨
          (first :: digits ++ back)[1]? = Option.some 'X') ∧
        ((first :: digits ++ back).drop 2).takeWhile isHexDigit ≠ []) := fun hex => plain hex.2.1
    have front : (first :: digits ++ back)[0]? = (first :: digits).head? := rfl
    unfold stol stolDigits cValue
    rw [if_neg hex, front]
    by_cases zero : (first :: digits).head? = Option.some '0'
    · cases Option.some.inj zero
      have more : ('0' :: digits).takeWhile isOctalDigit ≠ [] := List.cons_ne_nil '0' _
      simp only [if_pos zero, takeWhile_append_stops ('0' :: digits) octal, if_neg more]
    · simp only [if_neg zero, taken, if_neg some]

theorem stol_text (wellFormed : numeral.WellFormed) : stol numeral.text =
    if numeral.read < 2 ^ 63 then some numeral.read else none := by
  cases numeral with
  | decimal digits =>
    obtain ⟨some, valid, -⟩ := wellFormed
    have decimals : DigitsOf 10 digits := valid
    have plain : ¬ ((digits ++ [])[1]? = Option.some 'x' ∨ (digits ++ [])[1]? = Option.some 'X') := by
      have lowX : 'x' ∉ digits := not_mem_of_digitsOf decimals (d := 33) rfl (by decide)
      have highX : 'X' ∉ digits := not_mem_of_digitsOf decimals (d := 33) rfl (by decide)
      rw [List.append_nil]
      rintro (same | same)
      · exact lowX (List.mem_of_getElem? same)
      · exact highX (List.mem_of_getElem? same)
    have read := stol_append some decimals (fun c more same => by cases same) plain
    rw [List.append_nil] at read
    exact read
  | hex upper digits =>
    obtain ⟨some, valid, -⟩ := wellFormed
    obtain ⟨taken, -⟩ := @scan_append digits [] isHexDigit
      (fun c member => isHexDigit_iff.mpr (valid c member)) fun c more same => by cases same
    rw [List.append_nil] at taken
    have marker : ('0' :: (if upper then 'X' else 'x') :: digits)[1]? = Option.some 'x' ∨
        ('0' :: (if upper then 'X' else 'x') :: digits)[1]? = Option.some 'X' := by
      cases upper
      · exact .inl rfl
      · exact .inr rfl
    have digits' : (('0' :: (if upper then 'X' else 'x') :: digits).drop 2).takeWhile isHexDigit =
        digits := taken
    have more : (('0' :: (if upper then 'X' else 'x') :: digits).drop 2).takeWhile isHexDigit ≠
        [] := by
      rw [digits']
      exact some
    show stol ('0' :: (if upper then 'X' else 'x') :: digits) = _
    unfold stol stolDigits
    rw [if_pos ⟨rfl, marker, more⟩]
    simp only [digits', Numeral.read]
    exact if_neg some
  | radix base upper digits =>
    obtain ⟨-, -, some, decimals, -⟩ := wellFormed
    refine stol_append some decimals (fun c more same => ?_)
      (not_hex some decimals (by cases upper <;> decide))
    cases same
    cases upper <;> rfl

/-- A numeral is too long when it is read as more than a `long`. -/
theorem tooLong_iff (wellFormed : numeral.WellFormed) :
    numeral.TooLong ↔ 2 ^ 63 ≤ numeral.read := by
  cases numeral with
  | decimal digits => exact Iff.rfl
  | hex upper digits => exact Iff.rfl
  | radix base upper digits =>
    obtain ⟨-, -, -, decimals, -, high⟩ := wellFormed
    have less : cValue base < 2 ^ 63 :=
      Nat.lt_of_le_of_lt (Nat.le_trans (cValue_le decimals) high) (by decide)
    exact ⟨False.elim, fun long => absurd less (Nat.not_lt_of_le long)⟩

theorem taken_of_tooLong (wellFormed : numeral.WellFormed) (long : numeral.TooLong) :
    2 ^ 63 ≤ numeral.taken := by
  cases numeral with
  | decimal digits => exact Nat.le_trans long (cValue_le wellFormed.2.1)
  | hex upper digits => exact long
  | radix base upper digits => exact long.elim

/-- A byte is read right if and only if the readings agree. -/
theorem read_eq_taken_iff (wellFormed : numeral.WellFormed) (byte : numeral.taken ≤ 255) :
    numeral.read % 256 = numeral.taken ↔ numeral.ReadsAlike := by
  cases numeral with
  | decimal digits =>
    have decimals : DigitsOf 10 digits := wellFormed.2.1
    have less := cValue_le decimals
    simp only [Numeral.taken, Numeral.read, Numeral.ReadsAlike] at byte ⊢
    rw [Nat.mod_eq_of_lt (by lia), cValue]
    split
    · rename_i zero
      rw [octal_eq_iff decimals]
      exact (or_iff_right (not_not.mpr zero)).symm
    · rename_i other
      exact ⟨fun _ => .inl other, fun _ => rfl⟩
  | hex upper digits =>
    simp only [Numeral.taken, Numeral.read, Numeral.ReadsAlike] at byte ⊢
    exact ⟨fun _ => trivial, fun _ => Nat.mod_eq_of_lt (by lia)⟩
  | radix base upper digits =>
    obtain ⟨-, -, -, decimals, -, high⟩ := wellFormed
    have less := cValue_le decimals
    simp only [Numeral.read, Numeral.ReadsAlike]
    rw [Nat.mod_eq_of_lt (by lia)]
    exact eq_comm

/-- A plain literal denotes the number that is taken. -/
theorem parseNumberString_taken (wellFormed : numeral.WellFormed) : ∃ value,
    parseNumberString numeral.text = some value ∧ Canonical value numeral.taken := by
  by_cases mistaken : numeral.MarkerMistaken
  · obtain ⟨front, back, split, apart, parsed⟩ := parseNumberString_mistaken wellFormed mistaken
    have valid : DigitsOf numeral.base back := fun c member => wellFormed.2.1 c (by
      rw [split]
      exact List.mem_append_right _ (List.mem_cons_of_mem _ member))
    obtain ⟨value, found, canonical⟩ := fromIntegerDigits_canonical valid false
    refine ⟨value, parsed.trans found, ?_⟩
    cases numeral with
    | decimal digits => exact mistaken.elim
    | hex upper digits => exact mistaken.elim
    | radix base upper digits =>
      obtain ⟨-, behind⟩ := @scan_append front ('r' :: back) (· ≠ 'r')
        (fun c member => decide_eq_true fun same => apart (same ▸ member))
        fun c more same => by cases same; rfl
      have digits' : digits = front ++ 'r' :: back := split
      have cut : (digits.dropWhile (· ≠ 'r')).drop 1 = back := by
        rw [digits', behind]
        rfl
      have found' : upper = true ∧ 'r' ∈ digits := mistaken
      rw [Numeral.taken, if_pos found', cut]
      exact canonical
  · obtain ⟨value, found, canonical⟩ := fromIntegerDigits_canonical wellFormed.2.1 false
    refine ⟨value, (parseNumberString_text wellFormed mistaken).trans found, ?_⟩
    cases numeral with
    | decimal digits => exact canonical
    | hex upper digits => exact canonical
    | radix base upper digits =>
      have absent : ¬ (upper = true ∧ 'r' ∈ digits) := mistaken
      rw [Numeral.taken, if_neg absent]
      exact canonical

theorem canonical_byte {value : LiteralValue} {n : Nat} (canonical : Canonical value n)
    (byte : n ≤ 255) : value = .integer n := by
  have inside : InRange n := by
    unfold InRange smiMax
    lia
  cases value with
  | integer intVal => rw [canonical.1]
  | largeInteger bytes negative => exact absurd inside canonical.1
  | float text => exact canonical.elim

/-- The token denotes a byte as a plain literal. -/
def Denotes (numeral : Numeral) (b : Nat) : Prop :=
  b ≤ 255 ∧ parseNumberString numeral.text = some (.integer b)

theorem denotes_byte_iff (wellFormed : numeral.WellFormed) (b : Nat) :
    Denotes numeral b ↔ numeral.taken ≤ 255 ∧ b = numeral.taken := by
  obtain ⟨value, parsed, canonical⟩ := parseNumberString_taken wellFormed
  unfold Denotes
  constructor
  · rintro ⟨byte, denoted⟩
    cases parsed.symm.trans denoted
    have same : b = numeral.taken := Int.ofNat.inj canonical.1
    exact ⟨same ▸ byte, same⟩
  · rintro ⟨byte, rfl⟩
    exact ⟨byte, parsed.trans (congrArg some (canonical_byte canonical byte))⟩

end Readings

section Exactness

variable {numerals : List Numeral} {tokens : List Token}

/-- The tokens of a byte array, behind its opening. -/
def literalTokens (numerals : List Numeral) (tokens : List Token) : List Token :=
  numerals.map (fun numeral => .literal numeral.text) ++ .close :: tokens

/-- The double cast keeps the lowest byte. -/
theorem bmod_byte (value : Nat) : (Int.bmod value (2 ^ 32) % 256).toNat = value % 256 := by
  have divides : (256 : Int) ∣ ((2 ^ 32 : Nat) : Int) := ⟨2 ^ 24, rfl⟩
  have lowest := Int.emod_emod_of_dvd (Int.bmod value (2 ^ 32)) divides
  rw [Int.bmod_emod, Int.emod_emod_of_dvd _ divides] at lowest
  rw [← lowest]
  lia

/-- Every element is the lowest byte of what is read. -/
theorem byteArrayBody_literalTokens (wellFormed : ∀ numeral ∈ numerals, numeral.WellFormed)
    (short : ∀ numeral ∈ numerals, ¬ numeral.TooLong) (bytes : List Nat) :
    byteArrayBody (literalTokens numerals tokens) bytes =
      some (bytes ++ numerals.map (·.read % 256), tokens) := by
  induction numerals generalizing bytes with
  | nil =>
    rw [List.map_nil, List.append_nil]
    rfl
  | cons numeral numerals ih =>
    have well := wellFormed numeral List.mem_cons_self
    have small : numeral.read < 2 ^ 63 :=
      Nat.lt_of_not_le (mt (tooLong_iff well).mpr (short numeral List.mem_cons_self))
    have element : stol numeral.text = some numeral.read := (stol_text well).trans (if_pos small)
    show byteArrayBody (.literal numeral.text :: literalTokens numerals tokens) bytes = _
    rw [byteArrayBody, element, Option.bind_eq_bind, Option.bind_some]
    dsimp only
    rw [bmod_byte,
      ih (fun other member => wellFormed other (List.mem_cons_of_mem _ member))
        (fun other member => short other (List.mem_cons_of_mem _ member)),
      List.append_assoc]
    rfl

/-- A number that is too long is refused wherever it stands. -/
theorem byteArrayBody_tooLong (wellFormed : ∀ numeral ∈ numerals, numeral.WellFormed)
    (long : ∃ numeral ∈ numerals, numeral.TooLong) (bytes : List Nat) :
    byteArrayBody (literalTokens numerals tokens) bytes = none := by
  induction numerals generalizing bytes with
  | nil =>
    obtain ⟨numeral, member, -⟩ := long
    cases member
  | cons numeral numerals ih =>
    have well := wellFormed numeral List.mem_cons_self
    show byteArrayBody (.literal numeral.text :: literalTokens numerals tokens) bytes = _
    rw [byteArrayBody, stol_text well]
    by_cases small : numeral.read < 2 ^ 63
    · have rest : ∃ other ∈ numerals, other.TooLong := by
        obtain ⟨other, member, long⟩ := long
        rcases List.mem_cons.mp member with rfl | member
        · exact absurd small (Nat.not_lt_of_le ((tooLong_iff well).mp long))
        · exact ⟨other, member, long⟩
      rw [if_pos small, Option.bind_eq_bind, Option.bind_some]
      exact ih (fun other member => wellFormed other (List.mem_cons_of_mem _ member)) rest _
    · rw [if_neg small]
      rfl

end Exactness

end Egg.Parser
