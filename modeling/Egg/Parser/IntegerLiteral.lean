import Egg.Parser.LiteralValue

/-! Number tokens and the integers that are parsed from them. -/
namespace Egg.Parser

section Scanner

def isHexDigit (c : Char) : Bool :=
  c.isDigit || ('a' ≤ c && c ≤ 'f') || ('A' ≤ c && c ≤ 'F')

/-- The scientific notation after a fraction, and what is behind it. -/
def scanExponent : (rest : List Char) → List Char × List Char
  | [] => ([], [])
  | marker :: rest =>
    if marker = 'e' ∨ marker = 'E' then
      match rest with
      | [] => ([marker], [])
      | sign :: rest' =>
        if sign = '+' ∨ sign = '-' then
          (marker :: sign :: rest'.takeWhile Char.isDigit, rest'.dropWhile Char.isDigit)
        else (marker :: rest.takeWhile Char.isDigit, rest.dropWhile Char.isDigit)
    else ([], marker :: rest)

/-- The token at a digit, and what is behind it. -/
def nextNumber (source : List Char) : List Char × List Char :=
  let number := source.takeWhile Char.isDigit
  match source.dropWhile Char.isDigit with
  | [] => (number, [])
  | marker :: rest =>
    if number.length = 1 ∧ (marker = 'x' ∨ marker = 'X') then
      (number ++ marker :: rest.takeWhile isHexDigit, rest.dropWhile isHexDigit)
    else if marker = 'r' ∨ marker = 'R' then
      -- the marker goes back when nothing follows
      if (rest.takeWhile Char.isAlphanum).isEmpty then (number, marker :: rest)
      else (number ++ marker :: rest.takeWhile Char.isAlphanum, rest.dropWhile Char.isAlphanum)
    else if marker = '.' then
      if (rest.takeWhile Char.isDigit).isEmpty then (number, marker :: rest)
      else
        let (exponent, behind) := scanExponent (rest.dropWhile Char.isDigit)
        (number ++ marker :: rest.takeWhile Char.isDigit ++ exponent, behind)
    else (number, marker :: rest)

end Scanner

section Parser

/-- `std::stoull` of a text that starts with a digit; it stops at the first other character. -/
def stoull (text : List Char) : Option Nat :=
  let digits := text.takeWhile Char.isDigit
  if digits = [] then none
  else if valueOf 10 digits < 2 ^ 64 then some (valueOf 10 digits) else none

def parseIntegerString (v : List Char) : Option LiteralValue :=
  if 2 < v.length ∧ v[0]? = some '0' ∧ (v[1]? = some 'x' ∨ v[1]? = some 'X') then
    fromIntegerDigits 16 (v.drop 2) false
  else
    let rpos := (v.idxOf? 'r').orElse fun _ => v.idxOf? 'R'
    match rpos with
    | none => fromIntegerDigits 10 v false
    | some rpos => do
      let parsed ← stoull (v.take rpos)
      if 2 ≤ parsed ∧ parsed ≤ 36 then fromIntegerDigits parsed (v.drop (rpos + 1)) false else none

def parseNumberString (v : List Char) : Option LiteralValue :=
  if (2 < v.length ∧ v[0]? = some '0' ∧ (v[1]? = some 'x' ∨ v[1]? = some 'X')) ∨ 'r' ∈ v ∨ 'R' ∈ v
  then parseIntegerString v
  else if '.' ∈ v ∨ 'e' ∈ v ∨ 'E' ∈ v then some (.float v)
  else parseIntegerString v

/-- `negativeNumberOrBinary`, for the number behind the minus. -/
def negated : LiteralValue → LiteralValue
  | .integer intVal => .integer (-intVal)
  | .largeInteger bytes _ => .largeInteger bytes true
  | .float text => .float ('-' :: text)

/-- The literal at a digit, behind a minus or not, and what follows it. -/
def numberLiteral (negative : Bool) (source : List Char) : Option (LiteralValue × List Char) := do
  let (token, rest) := nextNumber source
  let value ← parseNumberString token
  some (if negative then negated value else value, rest)

end Parser

section Numerals

/-- The ways to write an integer; the markers are `x` or `X` and `r` or `R`. -/
inductive Numeral
  | decimal (digits : List Char)
  | hex (upper : Bool) (digits : List Char)
  | radix (base : List Char) (upper : Bool) (digits : List Char)

namespace Numeral

def text : Numeral → List Char
  | decimal digits => digits
  | hex upper digits => '0' :: (if upper then 'X' else 'x') :: digits
  | radix base upper digits => base ++ (if upper then 'R' else 'r') :: digits

def digits : Numeral → List Char
  | decimal digits => digits
  | hex _ digits => digits
  | radix _ _ digits => digits

def base : Numeral → Nat
  | decimal _ => 10
  | hex _ _ => 16
  | radix base _ _ => valueOf 10 base

/-- The number that is denoted. -/
def value (numeral : Numeral) : Nat :=
  valueOf numeral.base numeral.digits

/-- There are digits, all of them of the base, which is written in decimal digits. -/
def WellFormed (numeral : Numeral) : Prop :=
  numeral.digits ≠ [] ∧ DigitsOf numeral.base numeral.digits ∧
    match numeral with
    | radix base _ _ => base ≠ [] ∧ DigitsOf 10 base ∧ 2 ≤ valueOf 10 base ∧ valueOf 10 base ≤ 36
    | _ => True

/-- The marker `R` is followed by a digit `r`, which is found in its place. -/
def MarkerMistaken : Numeral → Prop
  | radix _ upper digits => upper = true ∧ 'r' ∈ digits
  | _ => False

end Numeral

/-- What follows does not go on with the number. -/
def Ends (rest : List Char) : Prop :=
  ∀ c more, rest = c :: more → c.isAlphanum = false ∧
    (c = '.' → ∀ d more', more = d :: more' → d.isDigit = false)

end Numerals

section Characters

variable {c : Char}

theorem le_iff (c d : Char) : c ≤ d ↔ c.toNat ≤ d.toNat :=
  Char.le_def.trans UInt32.le_iff_toNat_le

theorem isDigit_iff_toNat : c.isDigit = true ↔ 48 ≤ c.toNat ∧ c.toNat ≤ 57 := by
  simp only [Char.isDigit, Bool.and_eq_true, decide_eq_true_eq, UInt32.le_iff_toNat_le, ge_iff_le]
  exact Iff.rfl

theorem isAlphanum_iff_toNat : c.isAlphanum = true ↔ (48 ≤ c.toNat ∧ c.toNat ≤ 57) ∨
    (97 ≤ c.toNat ∧ c.toNat ≤ 122) ∨ (65 ≤ c.toNat ∧ c.toNat ≤ 90) := by
  have letters : c.isAlphanum = (decide (c.val ≥ 'A'.val ∧ c.val ≤ 'Z'.val) ||
    (c.val ≥ 'a'.val && c.val ≤ 'z'.val) || c.isDigit) := rfl
  simp only [letters, Bool.or_eq_true, Bool.and_eq_true, decide_eq_true_eq, UInt32.le_iff_toNat_le,
    ge_iff_le, isDigit_iff_toNat]
  rw [or_comm, or_comm (a := _ ∧ _) (b := _ ∧ _)]
  exact Iff.rfl

/-- The digits by the numbers of their characters. -/
theorem digitOf_eq (c : Char) : digitOf c =
    if 48 ≤ c.toNat ∧ c.toNat ≤ 57 then some (c.toNat - 48)
    else if 97 ≤ c.toNat ∧ c.toNat ≤ 122 then some (c.toNat - 97 + 10)
    else if 65 ≤ c.toNat ∧ c.toNat ≤ 90 then some (c.toNat - 65 + 10)
    else none := by
  simp only [digitOf, le_iff]
  rfl

theorem isDigit_iff : c.isDigit = true ↔ ∃ d, digitOf c = some d ∧ d < 10 := by
  rw [isDigit_iff_toNat, digitOf_eq]
  split_ifs with one two three
  · exact ⟨fun _ => ⟨_, rfl, by omega⟩, fun _ => one⟩
  · exact ⟨fun digit => absurd digit one, by rintro ⟨d, ⟨⟩, less⟩; omega⟩
  · exact ⟨fun digit => absurd digit one, by rintro ⟨d, ⟨⟩, less⟩; omega⟩
  · exact ⟨fun digit => absurd digit one, by rintro ⟨d, ⟨⟩, less⟩⟩

theorem isHexDigit_iff : isHexDigit c = true ↔ ∃ d, digitOf c = some d ∧ d < 16 := by
  have numbers : isHexDigit c = true ↔ (48 ≤ c.toNat ∧ c.toNat ≤ 57) ∨
      (97 ≤ c.toNat ∧ c.toNat ≤ 102) ∨ (65 ≤ c.toNat ∧ c.toNat ≤ 70) := by
    simp only [isHexDigit, Bool.or_eq_true, Bool.and_eq_true, decide_eq_true_eq, le_iff,
      isDigit_iff_toNat, or_assoc]
    exact Iff.rfl
  rw [numbers, digitOf_eq]
  split_ifs with one two three
  · exact ⟨fun _ => ⟨_, rfl, by omega⟩, fun _ => .inl one⟩
  · exact ⟨fun hex => ⟨_, rfl, by omega⟩, by rintro ⟨d, ⟨⟩, less⟩; omega⟩
  · exact ⟨fun hex => ⟨_, rfl, by omega⟩, by rintro ⟨d, ⟨⟩, less⟩; omega⟩
  · exact ⟨fun hex => by omega, by rintro ⟨d, ⟨⟩, less⟩⟩

theorem isAlphanum_of_digitOf {d : Nat} (digit : digitOf c = some d) : c.isAlphanum = true := by
  rw [isAlphanum_iff_toNat]
  rw [digitOf_eq] at digit
  split_ifs at digit with one two three
  · exact .inl one
  · exact .inr (.inl two)
  · exact .inr (.inr three)

theorem not_isDigit_of_ends (plain : c.isAlphanum = false) : c.isDigit = false :=
  Bool.eq_false_iff.mpr fun digit => by
    have alphanumeric : c.isAlphanum = true :=
      isAlphanum_iff_toNat.mpr (.inl (isDigit_iff_toNat.mp digit))
    rw [plain] at alphanumeric
    cases alphanumeric

end Characters

section Tokens

variable {digits rest : List Char}

/-- A scan takes what it accepts, up to where that ends. -/
theorem scan_append {accepts : Char → Bool} (all : ∀ c ∈ digits, accepts c = true)
    (ends : ∀ c more, rest = c :: more → accepts c = false) :
    (digits ++ rest).takeWhile accepts = digits ∧ (digits ++ rest).dropWhile accepts = rest := by
  induction digits with
  | nil =>
    cases rest with
    | nil => exact ⟨rfl, rfl⟩
    | cons c more =>
      have stops := ends c more rfl
      rw [List.nil_append, List.takeWhile_cons, List.dropWhile_cons, stops]
      exact ⟨rfl, rfl⟩
  | cons c digits ih =>
    obtain ⟨taken, left⟩ := ih fun c member => all c (List.mem_cons_of_mem _ member)
    rw [List.cons_append, List.takeWhile_cons, List.dropWhile_cons, all c List.mem_cons_self,
      if_pos rfl, if_pos rfl, taken, left]
    exact ⟨rfl, rfl⟩

/-- The scanner finds the text of a literal. -/
theorem nextNumber_text {numeral : Numeral} (wellFormed : numeral.WellFormed) (ends : Ends rest) :
    nextNumber (numeral.text ++ rest) = (numeral.text, rest) := by
  have plain (c : Char) (more : List Char) (same : rest = c :: more) : c.isAlphanum = false :=
    (ends c more same).1
  cases numeral with
  | decimal digits =>
    obtain ⟨taken, left⟩ := @scan_append digits rest Char.isDigit
      (fun c member => isDigit_iff.mpr (wellFormed.2.1 c member))
      fun c more same => not_isDigit_of_ends (plain c more same)
    show nextNumber (digits ++ rest) = (digits, rest)
    unfold nextNumber
    simp only [taken, left]
    cases rest with
    | nil => rfl
    | cons marker rest =>
      have other := plain marker rest rfl
      have letter {m : Char} (alphanumeric : m.isAlphanum = true) : marker ≠ m := fun same => by
        rw [same, alphanumeric] at other
        cases other
      have lowX := @letter 'x' rfl
      have highX := @letter 'X' rfl
      have lowR := @letter 'r' rfl
      have highR := @letter 'R' rfl
      simp only [lowX, highX, lowR, highR, or_self, and_false, if_false]
      split_ifs with point digit
      · rfl
      · exfalso
        cases rest with
        | nil => exact digit rfl
        | cons d more =>
          have stops := (ends marker (d :: more) rfl).2 point d more rfl
          rw [List.takeWhile_cons, stops] at digit
          exact digit rfl
      · rfl
  | hex upper digits =>
    obtain ⟨taken, left⟩ := @scan_append digits rest isHexDigit
      (fun c member => isHexDigit_iff.mpr (wellFormed.2.1 c member)) fun c more same => by
        rw [Bool.eq_false_iff]
        intro hex
        obtain ⟨d, digit, -⟩ := isHexDigit_iff.mp hex
        have alphanumeric := isAlphanum_of_digitOf digit
        rw [plain c more same] at alphanumeric
        cases alphanumeric
    show nextNumber ('0' :: (if upper then 'X' else 'x') :: (digits ++ rest)) = _
    have marked : ((if upper then 'X' else 'x') : Char).isDigit = false := by cases upper <;> rfl
    have marker : ((if upper then 'X' else 'x') : Char) = 'x' ∨
        ((if upper then 'X' else 'x') : Char) = 'X' := by cases upper <;> decide
    simp only [nextNumber, List.takeWhile_cons, List.dropWhile_cons, marked,
      show '0'.isDigit = true from rfl, if_true, Bool.false_eq_true, if_false, List.length_singleton,
      true_and, if_pos marker, taken, left]
    rfl
  | radix base upper digits =>
    obtain ⟨some, valid, -, decimals, -⟩ := wellFormed
    obtain ⟨taken, left⟩ := @scan_append digits rest Char.isAlphanum
      (fun c member => by
        obtain ⟨d, digit, -⟩ := valid c member
        exact isAlphanum_of_digitOf digit) plain
    have marked : ((if upper then 'R' else 'r') : Char).isDigit = false := by cases upper <;> rfl
    obtain ⟨taken', left'⟩ := @scan_append base ((if upper then 'R' else 'r') :: (digits ++ rest))
      Char.isDigit (fun c member => isDigit_iff.mpr (decimals c member)) fun c more same => by
        cases same
        exact marked
    have notX : ¬ (((if upper then 'R' else 'r') : Char) = 'x' ∨
        ((if upper then 'R' else 'r') : Char) = 'X') := by cases upper <;> decide
    have marker : ((if upper then 'R' else 'r') : Char) = 'r' ∨
        ((if upper then 'R' else 'r') : Char) = 'R' := by cases upper <;> decide
    have text : (Numeral.radix base upper digits).text ++ rest =
        base ++ (if upper then 'R' else 'r') :: (digits ++ rest) := by
      rw [Numeral.text, List.append_assoc, List.cons_append]
    rw [text]
    unfold nextNumber
    simp only [taken', left', notX, and_false, if_false, if_pos marker, taken, left]
    have going : ¬ digits.isEmpty = true := mt List.isEmpty_iff.mp some
    rw [if_neg going]
    rfl

end Tokens

section Parsing

variable {base digits : List Char}

theorem idxOf?_append_cons {c : Char} {front back : List Char} (apart : c ∉ front) :
    (front ++ c :: back).idxOf? c = some front.length := by
  induction front with
  | nil => rw [List.nil_append, List.idxOf?_cons, beq_self_eq_true, if_pos rfl]; rfl
  | cons d front ih =>
    have other : ¬ (d == c) = true := fun same =>
      apart (beq_iff_eq.mp same ▸ List.mem_cons_self)
    rw [List.cons_append, List.idxOf?_cons, if_neg other,
      ih fun member => apart (List.mem_cons_of_mem _ member)]
    rfl

/-- A digit of a base stands for a number below it. -/
theorem not_mem_of_digitsOf {base d : Nat} {c : Char} {digits : List Char}
    (valid : DigitsOf base digits) (digit : digitOf c = some d) (large : base ≤ d) : c ∉ digits := by
  intro member
  obtain ⟨d', digit', less⟩ := valid c member
  cases digit.symm.trans digit'
  exact absurd less (Nat.not_lt_of_le large)

theorem not_mem_of_no_digit {base : Nat} {c : Char} (valid : DigitsOf base digits)
    (none : digitOf c = none) : c ∉ digits := by
  intro member
  obtain ⟨d, digit, -⟩ := valid c member
  cases none.symm.trans digit

/-- No hexadecimal marker stands second in decimal digits that go on with another character. -/
theorem not_hex {c : Char} {back : List Char} (some : base ≠ []) (decimals : DigitsOf 10 base)
    (other : c ≠ 'x' ∧ c ≠ 'X') : ¬ ((base ++ c :: back)[1]? = Option.some 'x' ∨
      (base ++ c :: back)[1]? = Option.some 'X') := by
  have lowX : 'x' ∉ base := not_mem_of_digitsOf decimals (d := 33) rfl (by decide)
  have highX : 'X' ∉ base := not_mem_of_digitsOf decimals (d := 33) rfl (by decide)
  cases base with
  | nil => exact absurd rfl some
  | cons first base =>
    cases base with
    | nil =>
      rintro (same | same)
      · exact other.1 (Option.some.inj same)
      · exact other.2 (Option.some.inj same)
    | cons d base =>
      rintro (same | same)
      · exact lowX (Option.some.inj same ▸ List.mem_cons_of_mem _ List.mem_cons_self)
      · exact highX (Option.some.inj same ▸ List.mem_cons_of_mem _ List.mem_cons_self)

theorem stoull_append {back : List Char} (some : base ≠ []) (decimals : DigitsOf 10 base)
    (stops : ∀ c more, back = c :: more → c.isDigit = false) (small : valueOf 10 base < 2 ^ 64) :
    stoull (base ++ back) = Option.some (valueOf 10 base) := by
  obtain ⟨taken, -⟩ := @scan_append base back Char.isDigit
    (fun c member => isDigit_iff.mpr (decimals c member)) stops
  simp only [stoull, taken, if_neg some, if_pos small]

theorem parseNumberString_decimal (valid : DigitsOf 10 digits) :
    parseNumberString digits = fromIntegerDigits 10 digits false := by
  have lowR : 'r' ∉ digits := not_mem_of_digitsOf valid (d := 27) rfl (by decide)
  have highR : 'R' ∉ digits := not_mem_of_digitsOf valid (d := 27) rfl (by decide)
  have lowE : 'e' ∉ digits := not_mem_of_digitsOf valid (d := 14) rfl (by decide)
  have highE : 'E' ∉ digits := not_mem_of_digitsOf valid (d := 14) rfl (by decide)
  have lowX : 'x' ∉ digits := not_mem_of_digitsOf valid (d := 33) rfl (by decide)
  have highX : 'X' ∉ digits := not_mem_of_digitsOf valid (d := 33) rfl (by decide)
  have point : '.' ∉ digits := not_mem_of_no_digit valid rfl
  have plain : ¬ (2 < digits.length ∧ digits[0]? = some '0' ∧
      (digits[1]? = some 'x' ∨ digits[1]? = some 'X')) := fun hex =>
    hex.2.2.elim (fun same => lowX (List.mem_of_getElem? same))
      fun same => highX (List.mem_of_getElem? same)
  have none (c : Char) (absent : c ∉ digits) : digits.idxOf? c = Option.none :=
    List.idxOf?_eq_none_iff.mpr absent
  rw [parseNumberString, if_neg (by tauto), if_neg (by tauto), parseIntegerString, if_neg plain,
    none 'r' lowR, none 'R' highR]
  rfl

theorem parseNumberString_hex (upper : Bool) (some : digits ≠ []) :
    parseNumberString ('0' :: (if upper then 'X' else 'x') :: digits) =
      fromIntegerDigits 16 digits false := by
  have long : 2 < ('0' :: (if upper then 'X' else 'x') :: digits).length :=
    Nat.add_lt_add_right (List.length_pos_of_ne_nil some) 2
  have marker : ('0' :: (if upper then 'X' else 'x') :: digits)[1]? = Option.some 'x' ∨
      ('0' :: (if upper then 'X' else 'x') :: digits)[1]? = Option.some 'X' := by
    cases upper
    · exact .inl rfl
    · exact .inr rfl
  rw [parseNumberString, if_pos (.inl ⟨long, rfl, marker⟩), parseIntegerString,
    if_pos ⟨long, rfl, marker⟩]
  rfl

/-- The first `r`, or the first `R` where there is none, ends the base and begins the digits. -/
theorem parseNumberString_marked {front back : List Char} {c : Char} (some : base ≠ [])
    (decimals : DigitsOf 10 base) (low : 2 ≤ valueOf 10 base) (high : valueOf 10 base ≤ 36)
    (stops : ∀ c more, front = c :: more → c.isDigit = false)
    (first : base ++ front = [] ∨ ¬ ((base ++ front ++ c :: back)[1]? = Option.some 'x' ∨
      (base ++ front ++ c :: back)[1]? = Option.some 'X'))
    (found : ((base ++ front ++ c :: back).idxOf? 'r').orElse
      (fun _ => (base ++ front ++ c :: back).idxOf? 'R') = Option.some (base ++ front).length) :
    parseNumberString (base ++ front ++ c :: back) =
      fromIntegerDigits (valueOf 10 base) back false := by
  have plain : ¬ (2 < (base ++ front ++ c :: back).length ∧
      (base ++ front ++ c :: back)[0]? = Option.some '0' ∧
      ((base ++ front ++ c :: back)[1]? = Option.some 'x' ∨
        (base ++ front ++ c :: back)[1]? = Option.some 'X')) := fun hex =>
    first.elim (fun none => some (List.append_eq_nil_iff.mp none).1) fun other => other hex.2.2
  have marked : 'r' ∈ base ++ front ++ c :: back ∨ 'R' ∈ base ++ front ++ c :: back := by
    by_contra none
    rw [not_or] at none
    rw [List.idxOf?_eq_none_iff.mpr none.1, List.idxOf?_eq_none_iff.mpr none.2] at found
    cases found
  have base' := @stoull_append base front some decimals stops (by omega)
  rw [parseNumberString, if_pos (.inr marked), parseIntegerString, if_neg plain]
  simp only [found, List.take_left, base', Option.bind_eq_bind, Option.bind_some,
    if_pos (And.intro low high)]
  rw [← List.drop_drop, List.drop_left]
  rfl

end Parsing

section Exactness

variable {numeral : Numeral} {rest : List Char}

/-- The text of a numeral is read as its digits, unless the marker is mistaken. -/
theorem parseNumberString_text (wellFormed : numeral.WellFormed)
    (right : ¬ numeral.MarkerMistaken) :
    parseNumberString numeral.text = fromIntegerDigits numeral.base numeral.digits false := by
  cases numeral with
  | decimal digits => exact parseNumberString_decimal wellFormed.2.1
  | hex upper digits => exact parseNumberString_hex upper wellFormed.1
  | radix base upper digits =>
    obtain ⟨-, valid, some, decimals, low, high⟩ := wellFormed
    have lowR : 'r' ∉ base := not_mem_of_digitsOf decimals (d := 27) rfl (by decide)
    have highR : 'R' ∉ base := not_mem_of_digitsOf decimals (d := 27) rfl (by decide)
    show parseNumberString (base ++ (if upper then 'R' else 'r') :: digits) = _
    have apart : ((if upper then 'R' else 'r') : Char) ≠ 'x' ∧
        ((if upper then 'R' else 'r') : Char) ≠ 'X' := by cases upper <;> decide
    have marked := @parseNumberString_marked base [] digits (if upper then 'R' else 'r') some
      decimals low high (fun c more same => by cases same)
      (.inr (by rw [List.append_nil]; exact not_hex some decimals apart))
    rw [List.append_nil] at marked
    apply marked
    cases upper with
    | false =>
      rw [if_neg Bool.false_ne_true, idxOf?_append_cons lowR]
      rfl
    | true =>
      have absent : 'r' ∉ base ++ 'R' :: digits := fun member => by
        rcases List.mem_append.mp member with member | member
        · exact lowR member
        · rcases List.mem_cons.mp member with same | member
          · exact absurd same (by decide)
          · exact right ⟨rfl, member⟩
      rw [if_pos rfl, List.idxOf?_eq_none_iff.mpr absent, idxOf?_append_cons highR]
      rfl

/-- A mistaken marker cuts the digits behind the first `r` among them. -/
theorem parseNumberString_mistaken (wellFormed : numeral.WellFormed)
    (mistaken : numeral.MarkerMistaken) : ∃ front back, numeral.digits = front ++ 'r' :: back ∧
      'r' ∉ front ∧
        parseNumberString numeral.text = fromIntegerDigits numeral.base back false := by
  cases numeral with
  | decimal digits => exact mistaken.elim
  | hex upper digits => exact mistaken.elim
  | radix base upper digits =>
    obtain ⟨rfl, member⟩ := mistaken
    obtain ⟨-, valid, some, decimals, low, high⟩ := wellFormed
    have lowR : 'r' ∉ base := not_mem_of_digitsOf decimals (d := 27) rfl (by decide)
    obtain ⟨front, back, split, apart⟩ := List.eq_append_cons_of_mem member
    refine ⟨front, back, split, apart, ?_⟩
    have text : base ++ 'R' :: digits = base ++ 'R' :: front ++ 'r' :: back := by
      rw [split, List.append_assoc, List.cons_append]
    show parseNumberString (base ++ 'R' :: digits) = _
    have plain := @not_hex base 'R' digits some decimals (by decide)
    rw [text] at plain ⊢
    refine parseNumberString_marked some decimals low high (fun c more same => ?_) (.inr plain) ?_
    · cases same
      rfl
    · rw [idxOf?_append_cons fun member => ?_]
      · rfl
      · rcases List.mem_append.mp member with member | member
        · exact lowR member
        · rcases List.mem_cons.mp member with same | member
          · exact absurd same (by decide)
          · exact apart member

theorem digits_base_le (wellFormed : numeral.WellFormed) : 2 ≤ numeral.base := by
  cases numeral with
  | decimal digits => exact (by decide : 2 ≤ 10)
  | hex upper digits => exact (by decide : 2 ≤ 16)
  | radix base upper digits => exact wellFormed.2.2.2.2.1

theorem magnitude_negated (value : LiteralValue) (number : ∀ text, value ≠ .float text) :
    (negated value).magnitude = value.magnitude := by
  cases value with
  | integer intVal => exact Int.natAbs_neg intVal
  | largeInteger bytes negative => rfl
  | float text => exact absurd rfl (number text)

/-- A minus keeps a value canonical but for the least SmallInteger. -/
theorem negated_canonical {value : LiteralValue} {m : Nat} (canonical : Canonical value m) :
    Canonical (negated value) (-(m : Int)) ↔ m ≠ smiMax + 1 := by
  cases value with
  | integer intVal =>
    obtain ⟨rfl, inside⟩ := canonical
    unfold InRange at inside
    refine ⟨fun _ => by omega, fun _ => ⟨rfl, ?_⟩⟩
    unfold InRange
    omega
  | largeInteger bytes negative =>
    obtain ⟨outside, -, magnitude⟩ := canonical
    unfold InRange at outside
    rw [Int.natAbs_natCast] at magnitude
    constructor
    · rintro ⟨outside', -⟩ rfl
      apply outside'
      unfold InRange
      omega
    · intro other
      refine ⟨?_, ?_, ?_⟩
      · unfold InRange
        omega
      · exact (decide_eq_true (by omega)).symm
      · rwa [Int.natAbs_neg, Int.natAbs_natCast]
  | float text => exact canonical.elim

/-- A well-formed integer literal, behind a minus or not, is parsed to the canonical value of its
number if and only if that is not the least SmallInteger and no digit is mistaken for the marker. -/
theorem numberLiteral_canonical_iff (numeral : Numeral) (wellFormed : numeral.WellFormed)
    (negative : Bool) (rest : List Char) (ends : Ends rest) :
    (∃ value, numberLiteral negative (numeral.text ++ rest) = some (value, rest) ∧
      Canonical value (if negative then -(numeral.value : Int) else numeral.value)) ↔
        ¬ (negative = true ∧ numeral.value = 2 ^ 62) ∧ ¬ numeral.MarkerMistaken := by
  have read (value : LiteralValue) (parsed : parseNumberString numeral.text = some value) :
      numberLiteral negative (numeral.text ++ rest) =
        some (if negative then negated value else value, rest) := by
    simp only [numberLiteral, nextNumber_text wellFormed ends, parsed, Option.bind_eq_bind,
      Option.bind_some]
  by_cases mistaken : numeral.MarkerMistaken
  · -- the digits that are left denote a smaller number
    obtain ⟨front, back, split, -, parsed⟩ := parseNumberString_mistaken wellFormed mistaken
    have valid : DigitsOf numeral.base back := fun c member => wellFormed.2.1 c (by
      rw [split]
      exact List.mem_append_right _ (List.mem_cons_of_mem _ member))
    obtain ⟨value, found, canonical⟩ := fromIntegerDigits_canonical valid false
    have smaller : valueOf numeral.base back < numeral.value := by
      have base := digits_base_le wellFormed
      have positive : 0 < numeral.base ^ back.length := Nat.pow_pos (by omega)
      have digit : (digitOf 'r').getD 0 = 27 := rfl
      rw [Numeral.value, split, valueOf_append, digit]
      have more : 0 < (valueOf numeral.base front * numeral.base + 27) *
          numeral.base ^ back.length := Nat.mul_pos (by omega) positive
      omega
    have magnitude : value.magnitude = valueOf numeral.base back :=
      canonical.magnitude_eq.trans (Int.natAbs_natCast _)
    have number (text : List Char) : value ≠ .float text := by
      rintro rfl
      exact canonical
    refine ⟨?_, fun right => absurd mistaken right.2⟩
    rintro ⟨value', parsed', canonical'⟩
    rw [read value (parsed.trans found)] at parsed'
    cases parsed'
    have signed := canonical'.magnitude_eq.trans (signed_natAbs negative numeral.value)
    have kept : (if negative then negated value else value).magnitude = value.magnitude := by
      cases negative with
      | false => rfl
      | true => exact magnitude_negated value number
    omega
  · obtain ⟨value, found, canonical⟩ := fromIntegerDigits_canonical wellFormed.2.1 false
    have parsed := read value ((parseNumberString_text wellFormed mistaken).trans found)
    cases negative with
    | false =>
      exact ⟨fun _ => ⟨fun minus => Bool.false_ne_true minus.1, mistaken⟩,
        fun _ => ⟨value, parsed, canonical⟩⟩
    | true =>
      have least := negated_canonical canonical
      constructor
      · rintro ⟨value', parsed', canonical'⟩
        rw [parsed] at parsed'
        cases parsed'
        exact ⟨fun minus => least.mp canonical' minus.2, mistaken⟩
      · rintro ⟨other, -⟩
        exact ⟨negated value, parsed, least.mpr fun same => other ⟨rfl, same⟩⟩

theorem numberLiteral_canonical_iff_hex : ∃ value,
    numberLiteral true "0xff".toList = some (value, []) ∧ Canonical value (-255) := by
  have wellFormed : (Numeral.hex false ['f', 'f']).WellFormed := by
    refine ⟨List.cons_ne_nil _ _, fun c member => ⟨15, ?_, by decide⟩, trivial⟩
    simp only [Numeral.digits, List.mem_cons, List.not_mem_nil, or_false, or_self] at member
    rw [member]
    rfl
  exact (numberLiteral_canonical_iff (.hex false ['f', 'f']) wellFormed true []
    fun c more same => by cases same).mpr ⟨by decide, not_false⟩

/-- The digit is found in the place of the marker. -/
theorem numberLiteral_cut : ¬ ∃ value,
    numberLiteral false "36R1r".toList = some (value, []) ∧ Canonical value 63 := by
  rintro ⟨value, parsed, canonical⟩
  have read : numberLiteral false "36R1r".toList = some (.integer 0, []) := by decide
  rw [read] at parsed
  cases parsed
  exact absurd canonical.1 (by decide)

end Exactness

end Egg.Parser
