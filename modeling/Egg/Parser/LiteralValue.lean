import Mathlib.Data.Nat.Digits.Lemmas
import Mathlib.Tactic.LinearCombination

/-! The values of number literals, made digit by digit. -/
namespace Egg.Parser

/-- The tags of numbers, with their fields. -/
inductive LiteralValue
  | integer (intVal : Int)
  | largeInteger (bytes : List Nat) (negative : Bool)
  | float (text : List Char)
  deriving DecidableEq

section Model

/-- The greatest SmallInteger. -/
def smiMax : Nat := 2 ^ 62 - 1

/-- The digit that a character stands for; no other is asserted to come. -/
def digitOf (c : Char) : Option Nat :=
  if '0' ≤ c ∧ c ≤ '9' then some (c.toNat - '0'.toNat)
  else if 'a' ≤ c ∧ c ≤ 'z' then some (c.toNat - 'a'.toNat + 10)
  else if 'A' ≤ c ∧ c ≤ 'Z' then some (c.toNat - 'A'.toNat + 10)
  else none

/-- All bytes times the base, with the carry that is left. -/
def multiply (base : Nat) : (bytes : List Nat) → (carry : Nat) → List Nat × Nat
  | [], carry => ([], carry)
  | b :: bytes, carry =>
    let prod := b * base + carry
    let (bytes, carry) := multiply base bytes (prod / 256)
    (prod % 256 :: bytes, carry)

/-- The bytes of the carry go on top. -/
def addDigit (base : Nat) (bytes : List Nat) (d : Nat) : List Nat :=
  let (bytes, carry) := multiply base bytes d
  bytes ++ Nat.digits 256 carry

/-- The bytes from the highest one, without the zeros above the rest. -/
def popZeros : List Nat → List Nat
  | 0 :: b :: bytes => popZeros (b :: bytes)
  | bytes => bytes

/-- The loop over the digits. -/
def gatherBytes (base : Nat) (digits : List Char) : Option (List Nat) :=
  digits.foldlM (fun bytes c => do
    let d ← digitOf c
    if d < base then some (addDigit base bytes d) else none) [0]

/-- A SmallInteger when the bytes fit into one. -/
def fromBytes (bytes : List Nat) (negative : Bool) : LiteralValue :=
  let bytes := (popZeros bytes.reverse).reverse
  let u := bytes.reverse.foldl (fun u b => u * 256 + b) 0
  let limit := if negative then smiMax + 1 else smiMax
  if bytes.length ≤ 8 ∧ u ≤ limit then .integer (if negative then -(u : Int) else u)
  else .largeInteger (if bytes.length % 2 ≠ 0 then bytes ++ [0] else bytes) negative

def fromIntegerDigits (base : Nat) (digits : List Char) (negative : Bool) :
    Option LiteralValue := do
  let bytes ← gatherBytes base digits
  some (fromBytes bytes negative)

end Model

section Meaning

/-- The number that digits denote. -/
def valueOf (base : Nat) (digits : List Char) : Nat :=
  digits.foldl (fun value c => value * base + (digitOf c).getD 0) 0

/-- All characters are digits of the base. -/
def DigitsOf (base : Nat) (digits : List Char) : Prop :=
  ∀ c ∈ digits, ∃ d, digitOf c = some d ∧ d < base

def InRange (n : Int) : Prop :=
  -((smiMax : Int) + 1) ≤ n ∧ n ≤ smiMax

/-- The shortest bytes of an even length, the lowest first. -/
structure Magnitude (bytes : List Nat) (m : Nat) : Prop where
  even : bytes.length % 2 = 0
  small : ∀ b ∈ bytes, b < 256
  value : Nat.ofDigits 256 bytes = m
  shortest : ∀ others : List Nat, others.length % 2 = 0 → (∀ b ∈ others, b < 256) →
    Nat.ofDigits 256 others = m → bytes.length ≤ others.length

/-- The value is the one representation of the number. -/
def Canonical (value : LiteralValue) (n : Int) : Prop :=
  match value with
  | .integer intVal => intVal = n ∧ InRange n
  | .largeInteger bytes negative =>
    ¬ InRange n ∧ negative = decide (n < 0) ∧ Magnitude bytes n.natAbs
  | .float _ => False

/-- What is left of a number value without its sign. -/
def LiteralValue.magnitude : LiteralValue → Nat
  | integer intVal => intVal.natAbs
  | largeInteger bytes _ => Nat.ofDigits 256 bytes
  | float _ => 0

theorem Canonical.magnitude_eq {value : LiteralValue} {n : Int} (canonical : Canonical value n) :
    value.magnitude = n.natAbs := by
  cases value with
  | integer intVal => exact canonical.1 ▸ rfl
  | largeInteger bytes negative => exact canonical.2.2.value
  | float text => exact canonical.elim

theorem signed_natAbs (negative : Bool) (m : Nat) :
    (if negative then -(m : Int) else m).natAbs = m := by
  cases negative with
  | false => exact Int.natAbs_natCast m
  | true => exact (Int.natAbs_neg _).trans (Int.natAbs_natCast m)

theorem valueOf_append (base : Nat) (digits : List Char) (c : Char) (more : List Char) :
    valueOf base (digits ++ c :: more) =
      (valueOf base digits * base + (digitOf c).getD 0) * base ^ more.length +
        valueOf base more := by
  have shifted (more : List Char) (start : Nat) :
      more.foldl (fun value c => value * base + (digitOf c).getD 0) start =
        start * base ^ more.length + valueOf base more := by
    induction more using List.reverseRecOn with
    | nil => simp [valueOf]
    | append_singleton more c ih =>
      have inner : valueOf base (more ++ [c]) =
          valueOf base more * base + (digitOf c).getD 0 := by
        rw [valueOf, List.foldl_append]
        rfl
      rw [List.foldl_append, ih, inner, List.length_append, pow_add]
      simp only [List.foldl_cons, List.foldl_nil, List.length_singleton, pow_one]
      ring
  rw [valueOf, List.foldl_append, List.foldl_cons, shifted]
  rfl

end Meaning

section Bytes

variable {base : Nat} {bytes : List Nat}

theorem multiply_spec (bytes : List Nat) (carry : Nat) :
    Nat.ofDigits 256 (multiply base bytes carry).1 +
        256 ^ (multiply base bytes carry).1.length * (multiply base bytes carry).2 =
      Nat.ofDigits 256 bytes * base + carry ∧
    (multiply base bytes carry).1.length = bytes.length ∧
    ∀ b ∈ (multiply base bytes carry).1, b < 256 := by
  induction bytes generalizing carry with
  | nil => simp [multiply]
  | cons b bytes ih =>
    obtain ⟨sum, same, small⟩ := ih ((b * base + carry) / 256)
    refine ⟨?_, congrArg Nat.succ same, fun byte member => ?_⟩
    · have split := Nat.mod_add_div (b * base + carry) 256
      simp only [multiply, Nat.ofDigits_cons, List.length_cons, pow_succ']
      linear_combination 256 * sum + split
    · rcases List.mem_cons.mp member with rfl | member
      · exact Nat.mod_lt _ (by decide)
      · exact small byte member

theorem addDigit_spec (bytes : List Nat) (d : Nat) :
    Nat.ofDigits 256 (addDigit base bytes d) = Nat.ofDigits 256 bytes * base + d ∧
      (bytes ≠ [] → addDigit base bytes d ≠ []) ∧ ∀ b ∈ addDigit base bytes d, b < 256 := by
  obtain ⟨sum, same, small⟩ := @multiply_spec base bytes d
  unfold addDigit
  refine ⟨?_, fun some none => some ?_, fun b member => ?_⟩
  · rw [Nat.ofDigits_append, Nat.ofDigits_digits, sum]
  · have empty := (List.append_eq_nil_iff.mp none).1
    rw [empty] at same
    exact List.eq_nil_of_length_eq_zero same.symm
  · rcases List.mem_append.mp member with member | member
    · exact small b member
    · exact Nat.digits_lt_base (by decide) member

theorem popZeros_spec (bytes : List Nat) :
    (∀ b ∈ popZeros bytes, b ∈ bytes) ∧ (popZeros bytes = [] → bytes = []) ∧
      Nat.ofDigits 256 (popZeros bytes).reverse = Nat.ofDigits 256 bytes.reverse ∧
      ∀ b rest, popZeros bytes = b :: rest → b = 0 → rest = [] := by
  induction bytes using popZeros.induct with
  | case1 b bytes ih =>
    obtain ⟨inside, some, same, top⟩ := ih
    rw [popZeros]
    refine ⟨fun c member => List.mem_cons_of_mem _ (inside c member),
      fun none => absurd (some none) (List.cons_ne_nil b bytes), ?_, top⟩
    rw [same, @List.reverse_cons _ 0, Nat.ofDigits_append_zero]
  | case2 bytes other =>
    have stays : popZeros bytes = bytes := by
      rw [popZeros]
      exact other
    rw [stays]
    refine ⟨fun _ member => member, id, rfl, fun b rest same zero => ?_⟩
    subst same zero
    cases rest with
    | nil => rfl
    | cons c rest => exact absurd rfl (other c rest)

theorem foldl_reverse_eq (bytes : List Nat) :
    bytes.reverse.foldl (fun u b => u * 256 + b) 0 = Nat.ofDigits 256 bytes := by
  induction bytes with
  | nil => rfl
  | cons b bytes ih =>
    rw [List.reverse_cons, List.foldl_append, ih, Nat.ofDigits_cons]
    simp only [List.foldl_cons, List.foldl_nil]
    ring

/-- Bytes without a zero on top are the shortest ones. -/
theorem length_le_of_top {others : List Nat} (some : bytes ≠ []) (top : bytes.getLast some ≠ 0)
    (small : ∀ b ∈ others, b < 256)
    (same : Nat.ofDigits 256 others = Nat.ofDigits 256 bytes) : bytes.length ≤ others.length := by
  have lower := @Nat.pow_length_le_mul_ofDigits 254 _ some top
  have upper := Nat.ofDigits_lt_base_pow_length (by decide) small
  rw [same] at upper
  have less : 256 ^ bytes.length < 256 ^ (others.length + 1) := by
    rw [pow_succ']
    exact Nat.lt_of_le_of_lt lower ((Nat.mul_lt_mul_left (by decide)).mpr upper)
  exact Nat.lt_succ_iff.mp ((Nat.pow_lt_pow_iff_right (by decide)).mp less)

/-- The digits are gathered into bytes of the number that they denote. -/
theorem gatherBytes_spec {digits : List Char} (valid : DigitsOf base digits) :
    ∃ bytes, gatherBytes base digits = some bytes ∧
      Nat.ofDigits 256 bytes = valueOf base digits ∧ bytes ≠ [] ∧ ∀ b ∈ bytes, b < 256 := by
  unfold gatherBytes
  induction digits using List.reverseRecOn with
  | nil => exact ⟨[0], rfl, rfl, List.cons_ne_nil 0 [], by simp⟩
  | append_singleton digits c ih =>
    obtain ⟨bytes, gathered, value, some, -⟩ :=
      ih fun c member => valid c (List.mem_append_left _ member)
    obtain ⟨d, digit, less⟩ := valid c (List.mem_append_right _ List.mem_cons_self)
    obtain ⟨value', some', small'⟩ := @addDigit_spec base bytes d
    refine ⟨addDigit base bytes d, ?_, ?_, some' some, small'⟩
    · rw [List.foldlM_append, gathered]
      simp only [Option.bind_eq_bind, Option.bind_some, List.foldlM_cons, List.foldlM_nil, digit,
        if_pos less, Option.pure_def]
    · rw [value', value, valueOf_append, digit]
      simp [valueOf]

/-- Bytes that do not fit are more than a SmallInteger. -/
theorem large_of_not_fits {limit : Nat} (some : bytes ≠ []) (bound : limit < 256 ^ 8)
    (top : bytes.getLast some = 0 → bytes = [0])
    (large : ¬ (bytes.length ≤ 8 ∧ Nat.ofDigits 256 bytes ≤ limit)) :
    limit < Nat.ofDigits 256 bytes := by
  by_contra low
  have long : 8 < bytes.length := Nat.lt_of_not_le fun short =>
    large ⟨short, Nat.le_of_not_lt low⟩
  have nonzero : bytes.getLast some ≠ 0 := fun zero => by
    rw [top zero] at long
    exact absurd long (by decide)
  have lower : 256 ^ bytes.length ≤ 256 * Nat.ofDigits 256 bytes :=
    @Nat.pow_length_le_mul_ofDigits 254 _ some nonzero
  have more : 256 ^ 9 ≤ 256 ^ bytes.length := Nat.pow_le_pow_right (by decide) long
  lia

theorem fromBytes_canonical (some : bytes ≠ []) (small : ∀ b ∈ bytes, b < 256) (negative : Bool) :
    Canonical (fromBytes bytes negative)
      (if negative then -((Nat.ofDigits 256 bytes : Nat) : Int)
        else ((Nat.ofDigits 256 bytes : Nat) : Int)) := by
  obtain ⟨inside, kept, same, top⟩ := popZeros_spec bytes.reverse
  rw [List.reverse_reverse] at same
  obtain ⟨high, rest, split⟩ : ∃ high rest, popZeros bytes.reverse = high :: rest :=
    List.exists_cons_of_ne_nil fun none => some (List.reverse_eq_nil_iff.mp (kept none))
  unfold fromBytes
  simp only [foldl_reverse_eq, same]
  rw [split] at inside same top
  rw [split, List.reverse_cons]
  rw [List.reverse_cons] at same
  have some' : rest.reverse ++ [high] ≠ [] := List.append_ne_nil_of_right_ne_nil _ (List.cons_ne_nil _ _)
  have last : (rest.reverse ++ [high]).getLast some' = high := List.getLast_append_singleton _
  have bounded : ∀ b ∈ rest.reverse ++ [high], b < 256 := fun b member => by
    rw [List.mem_append, List.mem_reverse, List.mem_singleton] at member
    exact small b (List.mem_reverse.mp (inside b (List.mem_cons.mpr member.symm)))
  have zero (top' : (rest.reverse ++ [high]).getLast some' = 0) :
      rest.reverse ++ [high] = [0] := by
    rw [last] at top'
    rw [top high rest rfl top', top']
    rfl
  rw [← same]
  generalize rest.reverse ++ [high] = shown at some' bounded zero ⊢
  by_cases fits : shown.length ≤ 8 ∧
      Nat.ofDigits 256 shown ≤ if negative then smiMax + 1 else smiMax
  · rw [if_pos fits]
    refine ⟨rfl, ?_⟩
    have bound := fits.2
    unfold InRange
    cases negative <;> simp only [Bool.false_eq_true, if_false, if_true] at bound ⊢ <;> lia
  · rw [if_neg fits]
    have large := large_of_not_fits some' (by cases negative <;> decide) zero fits
    have nonzero : shown.getLast some' ≠ 0 := fun top' => by
      rw [zero top'] at large
      exact absurd large (Nat.not_lt_zero _)
    refine ⟨?_, ?_, ?_⟩
    · unfold InRange
      cases negative <;> simp only [Bool.false_eq_true, if_false, if_true] at large ⊢ <;> lia
    · cases negative with
      | false => simp
      | true =>
        simp only [if_true]
        rw [eq_comm, decide_eq_true_iff]
        lia
    · rw [signed_natAbs]
      have shortest := fun (others : List Nat) (small : ∀ b ∈ others, b < 256)
        (same : Nat.ofDigits 256 others = Nat.ofDigits 256 shown) =>
          length_le_of_top some' nonzero small same
      by_cases odd : shown.length % 2 ≠ 0
      · rw [if_pos odd]
        refine ⟨?_, fun b member => ?_, Nat.ofDigits_append_zero _, fun others even small same => ?_⟩
        · rw [List.length_append, List.length_singleton]
          lia
        · rcases List.mem_append.mp member with member | member
          · exact bounded b member
          · rw [List.mem_singleton.mp member]
            decide
        · have least := shortest others small same
          rw [List.length_append, List.length_singleton]
          lia
      · rw [if_neg odd]
        exact ⟨not_not.mp odd, bounded, rfl, fun others _ small same => shortest others small same⟩

/-- The digits make the canonical value of the number that they denote. -/
theorem fromIntegerDigits_canonical {digits : List Char} (valid : DigitsOf base digits)
    (negative : Bool) : ∃ value, fromIntegerDigits base digits negative = some value ∧
      Canonical value (if negative then -(valueOf base digits : Int) else valueOf base digits) := by
  obtain ⟨bytes, gathered, value, some, small⟩ := gatherBytes_spec valid
  refine ⟨fromBytes bytes negative, ?_, ?_⟩
  · rw [fromIntegerDigits, gathered]
    rfl
  · rw [← value]
    exact fromBytes_canonical some small negative

end Bytes

end Egg.Parser
