import Egg.Numerals.NumberParser
import Egg.Numerals.RadixPrinting

/-! What the parser reads of the integers that are printed. -/
namespace Egg.Numerals

open NumberParser

variable {radix : Radix} {uppercase : Char → Char}

section Characters

theorem digitValue_decimal : ∀ d < 10,
    (digitValue d).isDigit = true ∧ digitOf (digitValue d) = d ∧ isBlank (digitValue d) = false ∧
      digitValue d ≠ '-' ∧ digitValue d ≠ '+' := by
  decide

theorem digitValue_letter : ∀ d < 36, 10 ≤ d →
    (digitValue d).isDigit = false ∧ digitValue d ≠ 'r' ∧ digitValue d ≠ 'x' ∧
      (digitValue d).toNat < 128 ∧ (digitValue d).toUpper = digitValue d ∧
      (digitValue d).toNat = d + 55 ∧ (digitValue d = 'X' ↔ d = 33) ∧
      (digitValue d = 'E' ↔ d = 14) := by
  decide

/-- All digits but `X` are read as written. -/
theorem digitFromChar_digitValue {d : Nat} (small : d < radix.base) (other : d ≠ 33) :
    digitFromChar uppercase (digitValue d) radix.base = some d := by
  have greatest := radix.greatest
  obtain decimal | letter := lt_or_ge d 10
  · obtain ⟨digit, same, _⟩ := digitValue_decimal d decimal
    rw [digitFromChar, if_pos digit, same]
  · obtain ⟨digit, notR, notX, ascii, upper, code, isX, isE⟩ :=
      digitValue_letter d (by omega) letter
    have same : asUppercase uppercase (digitValue d) = digitValue d := by
      rw [asUppercase, if_pos ascii, upper]
    have inside : 'A'.toNat ≤ (digitValue d).toNat ∧ (digitValue d).toNat ≤ 'Z'.toNat := by
      rw [code]
      change 65 ≤ d + 55 ∧ d + 55 ≤ 90
      omega
    have below : ¬ (digitValue d ≠ 'E' ∧ radix.base ≤ (digitValue d).toNat - 55) := by
      rw [code]
      omega
    have notE : ¬ (digitValue d = 'E' ∧ radix.base = 10) := by
      rw [isE]
      omega
    rw [digitFromChar, if_neg (by rw [digit]; exact Bool.false_ne_true), if_neg notR, if_neg notX,
      if_neg (mt isX.mp other), same]
    dsimp only
    rw [if_neg (not_not.mpr inside), if_neg below, if_neg notE, code, Nat.add_sub_cancel]

/-- The digit `X` is taken for a mark. -/
theorem digitFromChar_X (base : Nat) : digitFromChar uppercase (digitValue 33) base = none := by
  rfl

end Characters

section Loops

/-- The number that digits stand for. -/
def valueOf (radix : Radix) (ds : List Nat) : Nat :=
  ds.foldl (fun value d => value * radix.base + d) 0

/-- Where digits end. -/
def Stops (uppercase : Char → Char) (base : Nat) : List Char → Prop
  | [] => True
  | c :: _ => digitFromChar uppercase c base = none

theorem digitsFrom_stop {base value : Nat} {rest : List Char} (stops : Stops uppercase base rest) :
    digitsFrom uppercase base value rest = some (value, rest) := by
  cases rest with
  | nil => rfl
  | cons c tail =>
    have none : digitFromChar uppercase c base = none := stops
    rw [digitsFrom, nextDigit, none]

theorem digitsFrom_digits {ds : List Nat} (digits : ∀ d ∈ ds, d < radix.base ∧ d ≠ 33)
    {rest : List Char} (stops : Stops uppercase radix.base rest) (value : Nat) :
    digitsFrom uppercase radix.base value (ds.map digitValue ++ rest) =
      some (ds.foldl (fun value d => value * radix.base + d) value, rest) := by
  induction ds generalizing value with
  | nil => exact digitsFrom_stop stops
  | cons d ds ih =>
    obtain ⟨small, other⟩ := digits d List.mem_cons_self
    have digit := @digitFromChar_digitValue radix uppercase d small other
    rw [List.map_cons, List.cons_append, digitsFrom, nextDigit, digit]
    dsimp only
    rw [if_neg (by omega), List.foldl_cons]
    exact ih (fun d member => digits d (List.mem_cons_of_mem _ member)) _

theorem valueOf_digits (value : Nat) : valueOf radix (digits radix value) = value := by
  rw [valueOf, digits]
  split
  · next zero => rw [zero, List.foldl_cons, List.foldl_nil, Nat.zero_mul]
  · have whole := Nat.ofDigits_digits radix.base value
    have same : (fun (d value : Nat) => value * radix.base + d) =
        fun d value => (d : Nat) + radix.base * value := by
      funext d value
      rw [Nat.add_comm, Nat.mul_comm]
    rw [Nat.ofDigits_eq_foldr] at whole
    rw [List.foldl_reverse, same]
    exact whole

theorem valueOf_append (first second : List Nat) : valueOf radix (first ++ second) =
    valueOf radix first * radix.base ^ second.length + valueOf radix second := by
  induction second using List.reverseRecOn with
  | nil =>
    rw [List.append_nil, List.length_nil, pow_zero, mul_one]
    rfl
  | append_singleton second d ih =>
    have last : ∀ ds, valueOf radix (ds ++ [d]) = valueOf radix ds * radix.base + d := fun ds => by
      rw [valueOf, List.foldl_append]
      rfl
    rw [← List.append_assoc, last, last, ih, List.length_append, List.length_singleton, pow_succ]
    ring

theorem valueOf_padded (count value : Nat) :
    valueOf radix (List.replicate count 0 ++ digits radix value) = value := by
  have zero : valueOf radix (List.replicate count 0) = 0 := by
    induction count with
    | zero => rfl
    | succ count ih =>
      rw [List.replicate_succ, valueOf, List.foldl_cons, Nat.zero_mul]
      exact ih
  rw [valueOf_append, zero, Nat.zero_mul, Nat.zero_add, valueOf_digits]

theorem digits_lt (value : Nat) : ∀ d ∈ digits radix value, d < radix.base := by
  have least := radix.least
  intro d member
  rw [digits] at member
  split at member
  · have zero := List.mem_singleton.mp member
    omega
  · exact Nat.digits_lt_base (by omega) (List.mem_reverse.mp member)

/-- What is left out behind a digit `X` makes the number greater. -/
theorem valueOf_lt_of_X (first second : List Nat) :
    valueOf radix first < valueOf radix (first ++ 33 :: second) := by
  have least := radix.least
  have positive : 0 < radix.base ^ second.length := Nat.pow_pos (by omega)
  have whole : valueOf radix (first ++ 33 :: second) =
      (valueOf radix first * radix.base + 33) * radix.base ^ second.length +
        valueOf radix second := by
    have split : first ++ 33 :: second = first ++ [33] ++ second := by
      rw [List.append_assoc]
      rfl
    have single : valueOf radix [33] = 33 := by
      rw [valueOf, List.foldl_cons, List.foldl_nil, Nat.zero_mul]
    rw [split, valueOf_append, valueOf_append, List.length_singleton, pow_one, single]
  rw [whole]
  calc valueOf radix first < valueOf radix first * radix.base + 33 := by
        have more := Nat.le_mul_of_pos_right (valueOf radix first) (by omega : 0 < radix.base)
        omega
    _ ≤ (valueOf radix first * radix.base + 33) * radix.base ^ second.length :=
        Nat.le_mul_of_pos_right _ positive
    _ ≤ _ := Nat.le_add_right _ _

end Loops

section Reading

/-- Where a text starts with a digit, the number starts there. -/
theorem next_digit {d : Nat} (decimal : d < 10) (rest : List Char) :
    next uppercase (digitValue d :: rest) = nextNumber uppercase (digitValue d) rest := by
  obtain ⟨digit, _, blank, minus, plus⟩ := digitValue_decimal d decimal
  have ahead : (digitValue d :: rest).dropWhile isBlank = digitValue d :: rest := by
    rw [List.dropWhile_cons, blank]
    rfl
  rw [next]
  split
  · next none => exact absurd (ahead.symm.trans none) (List.cons_ne_nil _ _)
  · next char behind found =>
    obtain ⟨rfl, rfl⟩ := List.cons.inj (ahead.symm.trans found)
    rw [if_neg minus, if_neg plus, if_pos digit]

theorem next_minus {d : Nat} (decimal : d < 10) (rest : List Char) :
    next uppercase ('-' :: digitValue d :: rest) =
      (next uppercase (digitValue d :: rest)).map Parsed.negated := by
  obtain ⟨digit, _⟩ := digitValue_decimal d decimal
  have ahead : ('-' :: digitValue d :: rest).dropWhile isBlank = '-' :: digitValue d :: rest := rfl
  rw [next]
  split
  · next none => exact absurd (ahead.symm.trans none) (List.cons_ne_nil _ _)
  · next char behind found =>
    obtain ⟨rfl, rfl⟩ := List.cons.inj (ahead.symm.trans found)
    rw [if_pos rfl]
    exact if_pos digit

theorem next_decimals {d : Nat} {ds : List Nat} (decimals : ∀ e ∈ d :: ds, e < 10)
    {rest : List Char} (stops : Stops uppercase 10 rest) :
    next uppercase ((d :: ds).map digitValue ++ rest) =
      completeNumber uppercase (valueOf .ten (d :: ds)) rest := by
  have decimal := decimals d List.mem_cons_self
  obtain ⟨_, same, _⟩ := digitValue_decimal d decimal
  have digits : ∀ e ∈ ds, e < Radix.ten.base ∧ e ≠ 33 := fun e member => by
    have small := decimals e (List.mem_cons_of_mem _ member)
    exact ⟨small, by omega⟩
  have read := @digitsFrom_digits .ten uppercase ds digits rest stops d
  have first : valueOf .ten (d :: ds) =
      ds.foldl (fun value d => value * Radix.ten.base + d) d := by
    rw [valueOf, List.foldl_cons, Nat.zero_mul, Nat.zero_add]
  rw [List.map_cons, List.cons_append, next_digit decimal, nextNumber, same, first]
  change digitsFrom uppercase 10 d _ = _ at read
  rw [read]
  rfl

/-- Digits of a radix, up to their end or to a digit `X`. -/
theorem nextIntegerRadix_digits {ds : List Nat} (digits : ∀ d ∈ ds, d < radix.base ∧ d ≠ 33)
    {rest : List Char} (stops : Stops uppercase radix.base rest) :
    nextIntegerRadix uppercase radix.base (ds.map digitValue ++ rest) =
      if ds = [] then none else some (valueOf radix ds, rest) := by
  have read := @digitsFrom_digits radix uppercase ds digits rest stops 0
  rw [nextIntegerRadix, read]
  change (if rest.length < _ then _ else none) = _
  rw [List.length_append, List.length_map]
  cases ds with
  | nil => rw [if_neg (by simp), if_pos rfl]
  | cons d ds =>
    rw [if_pos (by simp), if_neg (List.cons_ne_nil d ds)]
    rfl

theorem stops_nil (base : Nat) : Stops uppercase base [] :=
  trivial

/-- A radix is read before its mark, the digits behind it. -/
theorem next_radix (notTen : radix.base ≠ 10) (notHex : radix.base ≠ 16) {ds : List Nat}
    (known : ∀ d ∈ ds, d < radix.base ∧ d ≠ 33) {rest : List Char}
    (stops : Stops uppercase radix.base rest) (ends : checkNumberEnd rest = some ()) :
    next uppercase (radixPrefix radix ++ (ds.map digitValue ++ rest)) =
      if ds = [] then none else some (.integer (valueOf radix ds)) := by
  have least := radix.least
  have announced : radixPrefix radix ++ (ds.map digitValue ++ rest) =
      (digits .ten radix.base).map digitValue ++ 'r' :: (ds.map digitValue ++ rest) := by
    rw [radixPrefix, if_neg notTen, if_neg notHex, numeral, List.append_assoc]
    rfl
  have decimals : ∀ d ∈ digits .ten radix.base, d < 10 := digits_lt radix.base
  have value := @valueOf_digits .ten radix.base
  have some : digits .ten radix.base ≠ [] := by
    intro none
    rw [none] at value
    change 0 = radix.base at value
    omega
  obtain ⟨d, tail, same⟩ := List.exists_cons_of_ne_nil some
  rw [same] at decimals value
  have mark : Stops uppercase 10 ('r' :: (ds.map digitValue ++ rest)) := rfl
  have behind := @nextIntegerRadix_digits radix uppercase ds known rest stops
  have completed : completeNumberAfter uppercase radix.base 'r' (ds.map digitValue ++ rest) =
      (nextIntegerRadix uppercase radix.base (ds.map digitValue ++ rest)).bind
        fun read => Option.some (Parsed.integer read.1, read.2) := rfl
  rw [announced, same, next_decimals decimals mark, value, completeNumber, completed, behind]
  split
  · rfl
  · change (checkNumberEnd rest).bind _ = _
    rw [ends]
    rfl

/-- Digits of any radix are read behind its prefix. -/
theorem next_prefixed {ds : List Nat} (some : ds ≠ [])
    (known : ∀ d ∈ ds, d < radix.base ∧ d ≠ 33) :
    next uppercase (radixPrefix radix ++ ds.map digitValue) =
      Option.some (.integer (valueOf radix ds)) := by
  by_cases isTen : radix.base = 10
  · obtain rfl : radix = .ten := by
      cases radix
      cases isTen
      rfl
    obtain ⟨d, tail, rfl⟩ := List.exists_cons_of_ne_nil some
    have read := @next_decimals uppercase d tail (fun e member => (known e member).1) []
      (stops_nil 10)
    rw [List.append_nil] at read
    exact read
  by_cases isHex : radix.base = 16
  · have zero : ∀ e ∈ [0], e < 10 := by decide
    have mark : Stops uppercase 10 ('x' :: ds.map digitValue) := rfl
    have read := next_decimals zero mark
    have behind := @nextIntegerRadix_digits radix uppercase ds known [] (stops_nil _)
    rw [if_neg some, List.append_nil, isHex] at behind
    have completed : completeNumberAfter uppercase 0 'x' (ds.map digitValue) =
        (nextIntegerRadix uppercase 16 (ds.map digitValue)).bind
          fun read => Option.some (Parsed.integer read.1, read.2) := rfl
    have announced : radixPrefix radix = ['0', 'x'] := by
      rw [radixPrefix, if_neg isTen, if_pos isHex]
    rw [announced]
    refine Eq.trans read ?_
    change completeNumber uppercase 0 _ = _
    rw [completeNumber, completed, behind]
    rfl
  · have read := @next_radix radix uppercase isTen isHex ds known [] (stops_nil _) rfl
    rw [List.append_nil, if_neg some] at read
    exact read

end Reading

section Printed

theorem padded_numeral (width : Int) (value : Nat) : ∃ count,
    padded width '0' (numeral radix value) =
      (List.replicate count 0 ++ digits radix value).map digitValue := by
  refine ⟨(width - (numeral radix value).length).toNat, ?_⟩
  rw [List.map_append, List.map_replicate]
  rfl

theorem known_padded {value : Nat} (absent : 33 ∉ digits radix value) (count : Nat) :
    ∀ d ∈ List.replicate count 0 ++ digits radix value, d < radix.base ∧ d ≠ 33 := by
  have least := radix.least
  intro d member
  obtain zero | digit := List.mem_append.mp member
  · have same := List.eq_of_mem_replicate zero
    omega
  · refine ⟨digits_lt value d digit, ?_⟩
    rintro rfl
    exact absent digit

theorem digits_ne_nil (value : Nat) : digits radix value ≠ [] := by
  rw [digits]
  split
  · exact List.cons_ne_nil _ _
  · next nonzero =>
    intro none
    exact nonzero (Nat.digits_eq_nil_iff_eq_zero.mp (List.reverse_eq_nil_iff.mp none))

variable {value : Int}

theorem nextValue_of_nonneg (nonneg : 0 ≤ value) (width : Int)
    (absent : 33 ∉ digits radix value.natAbs) :
    nextValue uppercase (printOn value radix width '0') = .integer value := by
  obtain ⟨count, same⟩ := @padded_numeral radix width value.natAbs
  have some : List.replicate count 0 ++ digits radix value.natAbs ≠ [] :=
    List.append_ne_nil_of_right_ne_nil _ (digits_ne_nil _)
  have read := @next_prefixed radix uppercase _ some (known_padded absent count)
  rw [nextValue, printOn_of_nonneg nonneg, same, read, valueOf_padded, Option.getD_some,
    Int.natAbs_of_nonneg nonneg]

/-- What follows a digit `X` is not read. -/
theorem nextValue_of_X (nonneg : 0 ≤ value) (width : Int)
    (present : 33 ∈ digits radix value.natAbs) :
    nextValue uppercase (printOn value radix width '0') ≠ .integer value := by
  obtain ⟨count, same⟩ := @padded_numeral radix width value.natAbs
  have big : 33 < radix.base := digits_lt _ 33 present
  have member : 33 ∈ List.replicate count 0 ++ digits radix value.natAbs :=
    List.mem_append_right _ present
  obtain ⟨first, second, split, absent⟩ := List.eq_append_cons_of_mem member
  have known : ∀ d ∈ first, d < radix.base ∧ d ≠ 33 := by
    intro d found
    have whole : d ∈ List.replicate count 0 ++ digits radix value.natAbs := by
      rw [split]
      exact List.mem_append_left _ found
    refine ⟨?_, fun isX => absent (isX ▸ found)⟩
    obtain zero | digit := List.mem_append.mp whole
    · have none := List.eq_of_mem_replicate zero
      omega
    · exact digits_lt _ d digit
  have stops : Stops uppercase radix.base ((33 :: second).map digitValue) :=
    digitFromChar_X radix.base
  have less := @valueOf_lt_of_X radix first second
  rw [← split, valueOf_padded] at less
  have read := next_radix (by omega) (by omega) known stops rfl
  rw [nextValue, printOn_of_nonneg nonneg, same, split, List.map_append, read]
  split_ifs
  · intro zero
    have none : (0 : Int) = value := Parsed.integer.inj zero
    omega
  · intro short
    have equal : (valueOf radix first : Int) = value := Parsed.integer.inj short
    omega

/-- A decimal number is read behind its sign. -/
theorem nextValue_of_neg (negative : value < 0) (isTen : radix.base = 10) (width : Int)
    (aCharacter : Char) :
    nextValue uppercase (printOn value radix width aCharacter) = .integer value := by
  have small := @digits_lt radix value.natAbs
  rw [isTen] at small
  have known : ∀ d ∈ digits radix value.natAbs, d < radix.base ∧ d ≠ 33 := fun d member => by
    have decimal := small d member
    omega
  have read := @next_prefixed radix uppercase _ (digits_ne_nil value.natAbs) known
  have none : radixPrefix radix = [] := if_pos isTen
  obtain ⟨d, tail, same⟩ := List.exists_cons_of_ne_nil (@digits_ne_nil radix value.natAbs)
  have decimal : d < 10 := small d (same ▸ List.mem_cons_self)
  rw [none, valueOf_digits, same, List.nil_append, List.map_cons] at read
  rw [nextValue, printOn_of_neg negative, none, numeral, same, List.nil_append, List.map_cons,
    next_minus decimal, read]
  have opposite : -(value.natAbs : Int) = value := by omega
  exact congrArg Parsed.integer opposite

theorem radixPrefix_eq_nil : radixPrefix radix = [] ↔ radix.base = 10 := by
  constructor
  · intro none
    rw [radixPrefix] at none
    split_ifs at none with isTen isHex
    · exact isTen
    · exact absurd none (List.append_ne_nil_of_right_ne_nil _ (List.cons_ne_nil _ _))
  · intro isTen
    exact if_pos isTen

theorem padded_eq_self {width : Int} {aCharacter : Char} {text : List Char} :
    padded width aCharacter text = text ↔ width ≤ text.length := by
  rw [padded, List.append_left_eq_self, List.replicate_eq_nil_iff]
  omega

end Printed

/-- The sign, the prefix and the padded digits are written and read back when the integer is not
negative and has no digit `X`, and otherwise where there is neither prefix nor padding. -/
theorem radixPrinting_iff (uppercase : Char → Char) (value : Int) (radix : Radix) (width : Int)
    (aCharacter : Char) :
    (printOn value radix width aCharacter =
        sign value ++ radixPrefix radix ++ padded width aCharacter (numeral radix value.natAbs) ∧
      printDigitsOn value radix width aCharacter =
        sign value ++ padded width aCharacter (numeral radix value.natAbs) ∧
      (aCharacter = '0' →
        nextValue uppercase (printOn value radix width aCharacter) = .integer value)) ↔
      (0 ≤ value ∧ (aCharacter = '0' → 33 ∉ digits radix value.natAbs)) ∨
        (radix.base = 10 ∧ width ≤ (numeral radix value.natAbs).length) := by
  obtain nonneg | negative := le_or_gt 0 value
  · have plus : sign value = [] := if_neg nonneg.not_gt
    have text := @printOn_of_nonneg radix value nonneg width aCharacter
    have digitText := @printDigitsOn_of_nonneg radix value nonneg width aCharacter
    have decimal : radix.base = 10 → 33 ∉ digits radix value.natAbs := fun isTen member => by
      have small := digits_lt _ 33 member
      omega
    constructor
    · rintro ⟨-, -, reads⟩
      refine .inl ⟨nonneg, fun zero present => ?_⟩
      have read := reads zero
      rw [zero] at read
      exact nextValue_of_X nonneg width present read
    · intro condition
      rw [plus]
      refine ⟨text, digitText, ?_⟩
      rintro rfl
      apply nextValue_of_nonneg nonneg width
      obtain ⟨_, absent⟩ | ⟨isTen, _⟩ := condition
      · exact absent rfl
      · exact decimal isTen
  · have minus : sign value = ['-'] := if_pos negative
    have text := @printOn_of_neg radix value negative width aCharacter
    have digitText := @printDigitsOn_of_neg radix value negative width aCharacter
    constructor
    · rintro ⟨first, second, -⟩
      rw [text, minus] at first
      rw [digitText, minus] at second
      have unpadded := List.append_cancel_left (List.cons.inj first).2
      have fits := padded_eq_self.mp unpadded.symm
      have unprefixed : radixPrefix radix ++ numeral radix value.natAbs =
          padded width aCharacter (numeral radix value.natAbs) := (List.cons.inj second).2
      rw [← unpadded] at unprefixed
      exact .inr ⟨radixPrefix_eq_nil.mp (List.append_left_eq_self.mp unprefixed), fits⟩
    · rintro (⟨nonneg, -⟩ | ⟨isTen, fits⟩)
      · exact absurd nonneg negative.not_ge
      · have unpadded := (@padded_eq_self width aCharacter (numeral radix value.natAbs)).mpr fits
        have unprefixed := radixPrefix_eq_nil.mpr isTen
        refine ⟨?_, ?_, fun _ => nextValue_of_neg negative isTen width aCharacter⟩
        · rw [text, minus, unpadded]
          rfl
        · rw [digitText, minus, unpadded, unprefixed]
          rfl

/-- Of minus one, padded to two decimal digits, the zero is missing. -/
theorem printOn_pads_not : ¬ ∀ (uppercase : Char → Char) (value : Int) (radix : Radix)
    (width : Int) (aCharacter : Char),
    printOn value radix width aCharacter =
        sign value ++ radixPrefix radix ++ padded width aCharacter (numeral radix value.natAbs) ∧
      printDigitsOn value radix width aCharacter =
        sign value ++ padded width aCharacter (numeral radix value.natAbs) ∧
      (aCharacter = '0' →
        nextValue uppercase (printOn value radix width aCharacter) = .integer value) := by
  intro claim
  obtain ⟨text, -⟩ := claim id (-1) .ten 2 '0'
  rw [printOn_of_neg (by decide)] at text
  have unpadded := List.append_cancel_left (List.cons.inj text).2
  have fits := padded_eq_self.mp unpadded.symm
  have single : (numeral .ten (-1 : Int).natAbs).length = 1 := by
    simp [numeral, digits, Radix.ten]
  omega

end Egg.Numerals
