import Egg.Marshalling.ByteAccessors
import Mathlib.Tactic.Positivity
import Mathlib.Tactic.Zify

/-! When a number that is stored within an object of bytes is read back. -/
namespace Egg.Marshalling

open Egg.Data

namespace Kind

/-- The numbers that a field of this kind can hold. -/
def Holds (kind : Kind) (value : Int) : Prop :=
  if kind.signed then -2 ^ (8 * kind.width - 1) ≤ value ∧ value < 2 ^ (8 * kind.width - 1)
  else 0 ≤ value ∧ value < 2 ^ (8 * kind.width)

/-- The number whose digits stand for a value, in the two's complement. -/
def digits (kind : Kind) (value : Int) : Nat := (value % 256 ^ kind.width).toNat

theorem digits_lt (kind : Kind) (value : Int) : kind.digits value < 256 ^ kind.width := by
  have positive : (0 : Int) < 256 ^ kind.width := by positivity
  have least := Int.emod_nonneg value positive.ne'
  have below := Int.emod_lt_of_pos value positive
  rw [digits]
  zify
  rwa [Int.toNat_of_nonneg least]

end Kind

namespace Receiver

section Fields

variable (self : Receiver)

/-- The whole field lies within the object. -/
def Fits (kind : Kind) (offset : Int) : Prop := 0 ≤ offset ∧ offset + kind.width ≤ self.size

/-- A value is stored as its digits and read back, no other byte changes, and a field that does not
fit is out of bounds. -/
def RoundTrips (asserts : Bool) (allocated : Nat × Nat) (memory : Bytes) (kind : Kind)
    (offset : Int) (anInteger : IntegerObject) : Prop :=
  (self.Fits kind offset → ∃ other,
    self.write asserts allocated memory kind offset anInteger = .ok other ∧
    (∀ index < kind.width, other (self.address + offset.toNat + index) =
      UInt8.ofNat (kind.digits anInteger.value / 256 ^ index)) ∧
    Bytes.SameOutside (self.address + offset.toNat)
      (self.address + offset.toNat + kind.width) memory other ∧
    self.read asserts other kind offset = .ok anInteger.value) ∧
  (¬ self.Fits kind offset →
    self.write asserts allocated memory kind offset anInteger = .error .outOfBounds)

/-- The kinds that can be stored and read in a class. -/
def Understands : Kind → Prop
  | .short => False
  | .long => self.species = .byteArray
  | .large => False
  | _ => True

/-- Where a field that fits is written and read as it should be. -/
def Sound (asserts : Bool) (kind : Kind) (offset value : Int) : Prop :=
  (kind.width = 4 → asserts = true → (4 * offset + 3) % 2 ^ 32 < self.size) ∧
  (kind = .uLarge → value ≤ largestInteger) ∧
  (self.species = .string → kind ≠ .uLarge → offset + kind.width < self.size)

/-- The class has the accessors, and no field that fits but for its last byte is asked for. -/
def Meets (asserts : Bool) (kind : Kind) (offset value : Int) : Prop :=
  self.Understands kind ∧ (self.Fits kind offset → self.Sound asserts kind offset value) ∧
    ¬ (0 ≤ offset ∧ offset + kind.width = self.size + 1)

end Fields

section Reading

variable {self : Receiver} {memory : Bytes} {n : Nat}

theorem uint32_natCast (below : n < 2 ^ 32) : uint32 n = n := by
  rw [uint32]
  lia

theorem byteAtValid_succ (below : n < 2 ^ 32) :
    self.byteAtValid memory (n + 1) = (memory (self.address + n)).toNat := by
  have same : uint32 (uint32 ((n : Int) + 1) - 1) = n := by
    simp only [uint32]
    lia
  rw [byteAtValid, same]

theorem load_two (address : Nat) :
    memory.load address 2 = (memory address).toNat + 256 * (memory (address + 1)).toNat := rfl

theorem uShortAtValidOffset_eq (below : n + 1 < 2 ^ 32) :
    self.uShortAtValidOffset memory n = memory.load (self.address + n) 2 := by
  have lo := @byteAtValid_succ self memory n (by lia)
  have hi := @byteAtValid_succ self memory (n + 1) below
  rw [Nat.cast_succ, add_assoc, one_add_one_eq_two] at hi
  rw [uShortAtValidOffset, hi, lo, load_two, ← add_assoc self.address]
  push_cast
  ring

/-- The four bytes are two by two. -/
theorem load_four (address : Nat) : memory.load address 4 =
    memory.load address 2 + 65536 * memory.load (address + 2) 2 := by
  simp only [Bytes.load]
  ring

/-- The bit for the sign of the upper half. -/
theorem land_sign {hi : Nat} (below : hi < 65536) :
    Int.land hi 0x8000 = if hi < 32768 then 0 else 32768 := by
  have same : Int.land hi 0x8000 = ((hi &&& 2 ^ 15 : Nat) : Int) := rfl
  rw [same, Nat.and_two_pow, Nat.testBit_eq_decide_div_mod_eq]
  split_ifs with small
  · have zero : hi / 2 ^ 15 % 2 ≠ 1 := by lia
    rw [decide_eq_false zero]
    rfl
  · have one : hi / 2 ^ 15 % 2 = 1 := by lia
    rw [decide_eq_true one]
    rfl

theorem longAtValidOffset_eq (below : n + 3 < 2 ^ 32) :
    self.longAtValidOffset memory n = Int.bmod (memory.load (self.address + n) 4) (2 ^ 32) := by
  have lo := @uShortAtValidOffset_eq self memory n (by lia)
  have hi := @uShortAtValidOffset_eq self memory (n + 2) below
  have lo_lt : memory.load (self.address + n) 2 < 256 ^ 2 := Bytes.load_lt
  have hi_lt : memory.load (self.address + n + 2) 2 < 256 ^ 2 := Bytes.load_lt
  rw [← add_assoc] at hi
  push_cast at hi
  simp only [longAtValidOffset, lo, hi, land_sign hi_lt, load_four]
  push_cast
  rw [Int.bmod_def]
  split_ifs <;> lia

/-- A byte that may be read is in memory at its place. -/
theorem byteAt_succ (below : n < 2 ^ 32)
    (inside : if self.species = .string then n + 1 < self.size else n < self.size) :
    self.byteAt memory (n + 1) = .ok (memory (self.address + n)).toNat := by
  rw [byteAt, if_pos, byteAtValid_succ below]
  refine ⟨by lia, ?_⟩
  split_ifs with kind
  · rw [if_pos kind] at inside
    lia
  · rw [if_neg kind] at inside
    lia

theorem characters_uShort (inside : if self.species = .string then n + 2 < self.size
      else n + 1 < self.size) :
    CharacterArray.uShortAtOffset self memory n = .ok (memory.load (self.address + n) 2) := by
  have bounded := self.bounded
  have within : n + 2 ≤ self.size := by
    split_ifs at inside <;> lia
  have lo := @byteAt_succ self memory n (by lia) (by split_ifs at inside ⊢ <;> lia)
  have hi := @byteAt_succ self memory (n + 1) (by lia) (by split_ifs at inside ⊢ <;> lia)
  have here : ¬ (n : Int) + 1 > self.size := by lia
  have there : ¬ (n : Int) + 1 + 1 > self.size := by lia
  push_cast at hi
  rw [← add_assoc] at hi
  simp only [CharacterArray.uShortAtOffset, here, there, if_false, lo, hi, load_two]
  refine congrArg Except.ok ?_
  push_cast
  ring

theorem characters_uLong (inside : if self.species = .string then n + 4 < self.size
      else n + 3 < self.size) :
    CharacterArray.uLongAtOffset self memory n = .ok (memory.load (self.address + n) 4) := by
  have low := @characters_uShort self memory n (by split_ifs at inside ⊢ <;> lia)
  have high := @characters_uShort self memory (n + 2) (by split_ifs at inside ⊢ <;> lia)
  push_cast at high
  rw [← add_assoc] at high
  simp only [CharacterArray.uLongAtOffset, low, high, load_four]
  refine congrArg Except.ok ?_
  push_cast
  ring

/-- The last byte of a string is not read. -/
theorem string_uShort (kind : self.species = .string) (last : n + 2 = self.size) :
    CharacterArray.uShortAtOffset self memory n = .error .outOfBounds := by
  have lo := @byteAt_succ self memory n (by have := self.bounded; lia)
    (by rw [if_pos kind]; lia)
  have here : ¬ (n : Int) + 1 > self.size := by lia
  have there : ¬ (n : Int) + 1 + 1 > self.size := by lia
  have beyond : self.byteAt memory (n + 1 + 1) = .error .outOfBounds := by
    rw [byteAt, if_neg]
    rw [if_pos kind]
    lia
  simp only [CharacterArray.uShortAtOffset, here, there, if_false, lo, beyond]
  rfl

theorem string_uLong (kind : self.species = .string) (last : n + 4 = self.size) :
    CharacterArray.uLongAtOffset self memory n = .error .outOfBounds := by
  have low := @characters_uShort self memory n (by rw [if_pos kind]; lia)
  have high := @string_uShort self memory (n + 2) kind (by lia)
  push_cast at high
  simp only [CharacterArray.uLongAtOffset, low, high]
  rfl

end Reading

section Access

variable {self : Receiver} {memory : Bytes} {asserts : Bool} {n : Nat}

theorem isSmallInteger_of_lt {value : Int} (least : 0 ≤ value) (below : value ≤ 2 ^ 33) :
    isSmallInteger value = true := by
  rw [isSmallInteger_iff, smallestInteger, largestInteger]
  lia

theorem checked_natCast {α : Type} {last : Nat} {access : Except Failure α}
    (inside : n + last ≤ self.size) : self.checked last n access = access := by
  have bounded := self.bounded
  exact if_pos ⟨isSmallInteger_of_lt (by lia) (by lia), by lia, by lia⟩

/-- The check rejects a field that does not fit, but for one that misses its last byte. -/
theorem checked_outOfBounds {last : Nat} {offset : Int} {access : Except Failure Bytes}
    (accepts : access ≠ .error .outOfBounds)
    (outside : ¬ (0 ≤ offset ∧ offset + (last + 1 : Nat) ≤ self.size)) :
    self.checked last offset access = .error .outOfBounds ↔
      ¬ (0 ≤ offset ∧ offset + (last + 1 : Nat) = self.size + 1) := by
  have bounded := self.bounded
  push_cast at outside ⊢
  rw [checked]
  split_ifs with within
  · refine ⟨fun same => absurd same accepts, fun missing => ?_⟩
    lia
  · refine ⟨fun _ missing => within ?_, fun _ => rfl⟩
    exact ⟨isSmallInteger_of_lt missing.1 (by lia), missing.1, by lia⟩

theorem place_natCast {last : Nat → Nat} (below : n < 2 ^ 32)
    (holds : asserts = true → last n % 2 ^ 32 < self.size) :
    self.place asserts last n = .ok (self.address + n) := by
  rw [place, uint32_natCast below]
  exact if_neg fun ⟨on, misses⟩ => misses (holds on)

theorem place_assertion {last : Nat → Nat} (below : n < 2 ^ 32) (on : asserts = true)
    (misses : ¬ last n % 2 ^ 32 < self.size) :
    self.place asserts last n = .error .assertion := by
  rw [place, uint32_natCast below]
  exact if_pos ⟨on, misses⟩

/-- An access that is let through does not answer that it is out of bounds. -/
theorem storeAt_ne (width : Nat) (value : IntegerObject) (last : Nat → Nat) (offset : Int) :
    storeAt asserts memory width value (self.place asserts last offset) ≠
      .error .outOfBounds := by
  rw [place]
  split_ifs with missing
  · exact nofun
  · cases value with
    | small native => exact nofun
    | large value size address =>
      cases asserts with
      | false => exact nofun
      | true => exact nofun

theorem newIntObject_le {number : Nat} {value : Int}
    (answers : newIntObject asserts number = .ok value) : value ≤ largestInteger := by
  rw [newIntObject] at answers
  split_ifs at answers with fails
  simp only [Except.ok.injEq] at answers
  rw [← answers, largestInteger]
  have below := @Int.bmod_lt (Int.bmod number (2 ^ 64)) (2 ^ 63) (by decide)
  lia

/-- A small number is answered as it is. -/
theorem newIntObject_small {number : Nat} (below : (number : Int) ≤ largestInteger) :
    newIntObject asserts number = .ok number := by
  rw [largestInteger] at below
  have same : Int.bmod number (2 ^ 64) = number :=
    Int.bmod_eq_of_le_mul_two (by lia) (by lia)
  have same' : Int.bmod number (2 ^ 63) = number :=
    Int.bmod_eq_of_le_mul_two (by lia) (by lia)
  have small : isSmallInteger number = true := by
    rw [isSmallInteger_iff, smallestInteger, largestInteger]
    lia
  simp only [newIntObject, same, same', small, not_true_eq_false, and_false, if_false]

end Access

section Fields

variable {self : Receiver} {memory : Bytes} {asserts : Bool} {allocated : Nat × Nat} {n : Nat}

/-- What a number of a kind is after its digits are read without a sign. -/
theorem digits_unsigned {kind : Kind} {value : Int} (unsigned : kind.signed = false)
    (holds : kind.Holds value) : (kind.digits value : Int) = value := by
  simp only [Kind.Holds, unsigned, Bool.false_eq_true, if_false] at holds
  have same : value % 256 ^ kind.width = value := by
    apply Int.emod_eq_of_lt holds.1
    rw [pow_mul] at holds
    exact holds.2
  rw [Kind.digits, same, Int.toNat_of_nonneg holds.1]

theorem digits_long {value : Int} (holds : Kind.long.Holds value) :
    Int.bmod (Kind.long.digits value) (2 ^ 32) = value := by
  simp only [Kind.Holds, Kind.signed, Kind.width, if_true] at holds
  rw [Kind.digits, Kind.width, Int.toNat_of_nonneg (Int.emod_nonneg _ (by decide)),
    Int.bmod_def]
  split_ifs <;> lia

/-- Values of two or four bytes are small. -/
theorem isSmallInteger_of_holds {kind : Kind} {value : Int} (narrow : kind.width ≤ 4)
    (holds : kind.Holds value) : isSmallInteger value = true := by
  rw [isSmallInteger_iff, smallestInteger, largestInteger]
  cases kind <;> simp [Kind.Holds, Kind.signed, Kind.width] at holds narrow <;> lia

theorem eq_small {anInteger : IntegerObject} (normal : anInteger.Normal)
    (small : isSmallInteger anInteger.value = true) : anInteger = .small anInteger.value := by
  cases anInteger with
  | small value => rfl
  | large value size address => exact absurd small normal

theorem storeAt_small (width : Nat) (value : Int) (address : Nat) :
    storeAt asserts memory width (.small value) (.ok address) =
      .ok (memory.store address width (value % 256 ^ width).toNat) := rfl

/-- The negative numbers are stored as positive ones with the same digits. -/
theorem longAtOffsetPut_eq {value : Int} (holds : Kind.long.Holds value) (offset : Int) :
    self.longAtOffsetPut asserts allocated memory offset (.small value) =
      self.uLongAtOffsetPut asserts memory offset (.small (Kind.long.digits value)) := by
  have digits : (Kind.long.digits value : Int) = value % 2 ^ 32 := by
    rw [Kind.digits, Kind.width, Int.toNat_of_nonneg (Int.emod_nonneg _ (by decide))]
    rfl
  simp only [Kind.Holds, Kind.signed, Kind.width, if_true] at holds
  rw [longAtOffsetPut, IntegerObject.value, digits]
  split_ifs with negative
  · rw [integerFor, if_pos (isSmallInteger_of_lt (by lia) (by lia))]
    congr 2
    lia
  · congr 2
    lia

/-- A value that is small is stored where its field fits. -/
theorem write_natCast {kind : Kind} {value : Int} (understood : self.Understands kind)
    (holds : kind.Holds value) (fits : n + kind.width ≤ self.size)
    (passes : kind.width = 4 → asserts = true → (4 * n + 3) % 2 ^ 32 < self.size) :
    self.write asserts allocated memory kind n (.small value) =
      .ok (memory.store (self.address + n) kind.width (kind.digits value)) := by
  have bounded := self.bounded
  have uLong : ∀ stored : Int, n + 4 ≤ self.size →
      (asserts = true → (4 * n + 3) % 2 ^ 32 < self.size) →
      self.uLongAtOffsetPut asserts memory n (.small stored) =
        .ok (memory.store (self.address + n) 4 (stored % 256 ^ 4).toNat) := by
    intro stored fits passes
    have placed := @place_natCast self asserts n (· * 4 + 3) (by lia)
      (by simpa [Nat.mul_comm] using passes)
    have checked := @checked_natCast self n Bytes 3
      (storeAt asserts memory 4 (.small stored) (self.uint32offset asserts n)) (by lia)
    rw [uLongAtOffsetPut]
    refine checked.trans ?_
    rw [uint32offset, placed, storeAt_small]
  cases kind with
  | short => exact understood.elim
  | large => exact understood.elim
  | uShort =>
    have placed := @place_natCast self asserts n (· + 1) (by simp [Kind.width] at fits; lia)
      (fun _ => by simp [Kind.width] at fits ⊢; lia)
    refine (@checked_natCast self n Bytes 1 _ (by simp [Kind.width] at fits; lia)).trans ?_
    rw [ifFits, if_neg (by simp [IntegerObject.size]), uint16offset, placed, storeAt_small]
    rfl
  | uLong => exact uLong value fits (passes rfl)
  | long =>
    have bytes : self.species = .byteArray := understood
    rw [write, if_pos bytes, longAtOffsetPut_eq holds, uLong _ fits (passes rfl)]
    have same : ((Kind.long.digits value : Int) % 256 ^ 4).toNat = Kind.long.digits value := by
      have below := Kind.digits_lt .long value
      rw [Kind.width] at below
      lia
    rw [same]
    rfl
  | uLarge =>
    have placed := @place_natCast self asserts n (· + 7) (by simp [Kind.width] at fits; lia)
      (fun _ => by simp [Kind.width] at fits ⊢; lia)
    refine (@checked_natCast self n Bytes 7 _ (by simp [Kind.width] at fits; lia)).trans ?_
    rw [ifFits, if_neg (by simp [IntegerObject.size]), uint64offset, placed, storeAt_small]
    rfl

/-- A field that holds the digits of a value is read as this value. -/
theorem read_natCast {kind : Kind} {value : Int} (understood : self.Understands kind)
    (holds : kind.Holds value) (fits : n + kind.width ≤ self.size)
    (sound : self.Sound asserts kind n value)
    (stored : memory.load (self.address + n) kind.width = kind.digits value) :
    self.read asserts memory kind n = .ok value := by
  have bounded := self.bounded
  obtain ⟨passes, small, string⟩ := sound
  cases kind with
  | short => exact understood.elim
  | large => exact understood.elim
  | uShort =>
    rw [Kind.width] at fits stored
    have digits := digits_unsigned rfl holds
    rw [read]
    split_ifs with bytes
    · refine (@checked_natCast self n Int 1 _ (by lia)).trans ?_
      rw [uShortAtValidOffset_eq (by lia), stored, digits]
    · rw [characters_uShort, stored, digits]
      split_ifs with kind
      · have room := string kind nofun
        rw [Kind.width] at room
        lia
      · lia
  | uLong =>
    rw [Kind.width] at fits stored
    have digits := digits_unsigned rfl holds
    rw [read]
    split_ifs with bytes
    · have placed := @place_natCast self asserts n (· * 4 + 3) (by lia) (by
        intro on
        have inside := passes rfl on
        lia)
      refine (@checked_natCast self n Int 3 _ (by lia)).trans ?_
      have least := isSmallInteger_iff.mp (isSmallInteger_of_holds (by decide) holds)
      rw [uLongAtValidOffset, uint32offset, placed]
      refine (congrArg (newIntObject asserts) stored).trans ?_
      rw [newIntObject_small (digits.trans_le least.2), digits]
    · rw [characters_uLong, stored, digits]
      split_ifs with kind
      · have room := string kind nofun
        rw [Kind.width] at room
        lia
      · lia
  | long =>
    rw [Kind.width] at fits stored
    have bytes : self.species = .byteArray := understood
    rw [read, if_pos bytes]
    refine (@checked_natCast self n Int 3 _ (by lia)).trans ?_
    rw [longAtValidOffset_eq (by lia), stored, digits_long holds]
  | uLarge =>
    rw [Kind.width] at fits stored
    have digits := digits_unsigned rfl holds
    have placed := @place_natCast self asserts n (· + 7) (by lia) (by lia)
    refine (@checked_natCast self n Int 7 _ (by lia)).trans ?_
    rw [uLargeAtValidOffset, uint64offset, placed]
    refine (congrArg (newIntObject asserts) stored).trans ?_
    rw [newIntObject_small (digits.trans_le (small rfl)), digits]

/-- A store that is done shows that the assertion of its primitive holds. -/
theorem passes_of_write {kind : Kind} {value : IntegerObject} {other : Bytes}
    (fits : n + kind.width ≤ self.size) (four : kind.width = 4) (on : asserts = true)
    (written : self.write asserts allocated memory kind n value = .ok other) :
    (4 * n + 3) % 2 ^ 32 < self.size := by
  have bounded := self.bounded
  by_contra misses
  have stuck : ∀ stored, self.uLongAtOffsetPut asserts memory n stored = .error .assertion := by
    intro stored
    have placed := @place_assertion self asserts n (· * 4 + 3) (by lia) on
      (by simpa [Nat.mul_comm] using misses)
    refine (@checked_natCast self n Bytes 3 _ (by lia)).trans ?_
    rw [uint32offset, placed]
    rfl
  cases kind with
  | short => exact nomatch four
  | large => exact nomatch four
  | uShort => exact nomatch four
  | uLarge => exact nomatch four
  | uLong => exact nomatch (stuck value).symm.trans written
  | long =>
    rw [write] at written
    split_ifs at written
    exact nomatch (stuck _).symm.trans written

theorem le_of_read {value : Int} (found : self.read asserts memory .uLarge n = .ok value) :
    value ≤ largestInteger := by
  rw [read, uLargeAtOffset, checked] at found
  split_ifs at found
  rw [uLargeAtValidOffset, answerAt] at found
  cases placed : self.uint64offset asserts n with
  | error failure =>
    rw [placed] at found
    exact nomatch found
  | ok address =>
    rw [placed] at found
    exact newIntObject_le found

/-- A string is read where another byte comes after the field. -/
theorem room_of_read {kind : Kind} {value : Int} (understood : self.Understands kind)
    (string : self.species = .string) (other : kind ≠ .uLarge)
    (fits : n + kind.width ≤ self.size)
    (found : self.read asserts memory kind n = .ok value) : n + kind.width < self.size := by
  have plain : ¬ self.species = .byteArray := by
    rw [string]
    exact nofun
  by_contra full
  cases kind with
  | short => exact understood.elim
  | large => exact understood.elim
  | uLarge => exact other rfl
  | long => exact plain understood
  | uShort =>
    rw [Kind.width] at fits full
    rw [read, if_neg plain, string_uShort string (by lia)] at found
    exact nomatch found
  | uLong =>
    rw [Kind.width] at fits full
    rw [read, if_neg plain, string_uLong string (by lia)] at found
    exact nomatch found

/-- Only accessors that a class has let a field be stored or tell that it is out of bounds. -/
theorem understands_of_write {kind : Kind} {offset : Int} {anInteger : IntegerObject}
    (known : self.write asserts allocated memory kind offset anInteger ≠
      .error .doesNotUnderstand) : self.Understands kind := by
  cases kind with
  | short => exact absurd rfl known
  | large => exact absurd rfl known
  | uShort => trivial
  | uLong => trivial
  | uLarge => trivial
  | long =>
    rw [write] at known
    split_ifs at known with bytes
    · exact bytes
    · exact absurd rfl known

/-- A field that does not fit is out of bounds, unless only its last byte is. -/
theorem write_outside {kind : Kind} {offset : Int} {anInteger : IntegerObject}
    (understood : self.Understands kind) (outside : ¬ self.Fits kind offset) :
    self.write asserts allocated memory kind offset anInteger = .error .outOfBounds ↔
      ¬ (0 ≤ offset ∧ offset + kind.width = self.size + 1) := by
  have sized : ∀ bytes last, ifFits bytes anInteger (storeAt asserts memory bytes anInteger
      (self.place asserts last offset)) ≠ .error .outOfBounds := by
    intro bytes last
    rw [ifFits]
    split_ifs
    · exact nofun
    · exact storeAt_ne _ _ _ _
  cases kind with
  | short => exact understood.elim
  | large => exact understood.elim
  | uShort => exact checked_outOfBounds (sized 2 _) outside
  | uLarge => exact checked_outOfBounds (sized 8 _) outside
  | uLong => exact checked_outOfBounds (storeAt_ne _ _ _ _) outside
  | long =>
    have bytes : self.species = .byteArray := understood
    rw [write, if_pos bytes]
    exact checked_outOfBounds (storeAt_ne _ _ _ _) outside

/-- A byte array of eight bytes. -/
def eightBytes : Receiver := ⟨.byteArray, 16, 8, by decide⟩

end Fields

end Receiver

end Egg.Marshalling
