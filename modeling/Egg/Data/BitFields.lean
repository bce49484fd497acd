import Mathlib.Data.Nat.Bitwise

/-! Fields of bits in a word, by their shift and their mask. -/
namespace Egg.BitFields

variable {w : Nat}

/-- The mask stays inside of the word at its shift. -/
def Inside (shift : Nat) (mask : BitVec w) : Prop :=
  (mask <<< shift) >>> shift = mask

instance (shift : Nat) (mask : BitVec w) : Decidable (Inside shift mask) :=
  inferInstanceAs (Decidable (_ = _))

variable {shift : Nat} {mask : BitVec w}

/-- A field is read by its bits only. -/
theorem read_eq (inside : Inside shift mask) (word : BitVec w) :
    (word >>> shift) &&& mask = (word &&& (mask <<< shift)) >>> shift := by
  rw [BitVec.ushiftRight_and_distrib, show (mask <<< shift) >>> shift = mask from inside]

/-- What is put under a mask replaces the bits there. -/
theorem put_and (word bits field : BitVec w) :
    ((word &&& ~~~field) ||| (bits &&& field)) &&& field = bits &&& field := by
  apply BitVec.eq_of_getLsbD_eq
  intro i within
  simp only [BitVec.getLsbD_and, BitVec.getLsbD_or, BitVec.getLsbD_not, within, decide_true]
  cases field.getLsbD i with
  | false => rw [Bool.and_false, Bool.and_false]
  | true =>
    rw [Bool.not_true, Bool.and_false, Bool.and_false, Bool.false_or, Bool.and_true, Bool.and_true]

/-- Other bits than those under the mask are kept. -/
theorem put_and_of_apart {field field' : BitVec w} (apart : field &&& field' = 0)
    (word bits : BitVec w) :
    ((word &&& ~~~field) ||| (bits &&& field)) &&& field' = word &&& field' := by
  apply BitVec.eq_of_getLsbD_eq
  intro i within
  have bit := congrArg (BitVec.getLsbD · i) apart
  simp only [BitVec.getLsbD_and, BitVec.getLsbD_or, BitVec.getLsbD_not, within, decide_true,
    BitVec.ofNat_eq_ofNat, BitVec.getLsbD_zero] at bit ⊢
  cases here : field'.getLsbD i with
  | false => rw [Bool.and_false, Bool.and_false]
  | true =>
    rw [here, Bool.and_true] at bit
    simp only [bit, Bool.not_false, Bool.and_false, Bool.or_false, Bool.and_true]

/-- The bits under a mask come back from its place. -/
theorem shiftLeft_ushiftRight_and (inside : Inside shift mask) (value : BitVec w) :
    ((value <<< shift) >>> shift) &&& mask = value &&& mask := by
  apply BitVec.eq_of_getLsbD_eq
  intro i _
  rw [BitVec.getLsbD_and, BitVec.getLsbD_and]
  cases bit : mask.getLsbD i with
  | false => rw [Bool.and_false, Bool.and_false]
  | true =>
    have within : shift + i < w := by
      rw [← show (mask <<< shift) >>> shift = mask from inside, BitVec.getLsbD_ushiftRight] at bit
      exact BitVec.lt_of_getLsbD bit
    have low : ¬ shift + i < shift := Nat.not_lt_of_le (Nat.le_add_right _ _)
    rw [BitVec.getLsbD_ushiftRight, BitVec.getLsbD_shiftLeft, decide_eq_true within,
      decide_eq_false low, Nat.add_sub_cancel_left, Bool.not_false, Bool.true_and, Bool.true_and]

/-- A field reads what was put into it. -/
theorem read_put (inside : Inside shift mask) (word value : BitVec w) :
    (((word &&& ~~~(mask <<< shift)) ||| ((value &&& mask) <<< shift)) >>> shift) &&& mask =
      value &&& mask := by
  have whole := read_eq inside
  rw [whole, BitVec.shiftLeft_and_distrib, put_and, ← whole, shiftLeft_ushiftRight_and inside]

/-- A field keeps what it reads while other bits are put. -/
theorem read_put_of_apart {shift' : Nat} {mask' : BitVec w} (inside' : Inside shift' mask')
    (apart : (mask <<< shift) &&& (mask' <<< shift') = 0) (word value : BitVec w) :
    (((word &&& ~~~(mask <<< shift)) ||| ((value &&& mask) <<< shift)) >>> shift') &&& mask' =
      (word >>> shift') &&& mask' := by
  rw [read_eq inside', read_eq inside', BitVec.shiftLeft_and_distrib, put_and_of_apart apart]

/-- A field keeps what it reads while other bits are set. -/
theorem read_or_of_apart (inside : Inside shift mask) {flags : BitVec w}
    (apart : flags &&& (mask <<< shift) = 0) (word : BitVec w) :
    ((word ||| flags) >>> shift) &&& mask = (word >>> shift) &&& mask := by
  have spread : (word ||| flags) &&& (mask <<< shift) = word &&& (mask <<< shift) := by
    rw [BitVec.and_or_distrib_right, apart]
    exact BitVec.or_zero
  rw [read_eq inside, read_eq inside, spread]

/-- A field keeps what it reads while other bits are cleared. -/
theorem read_clear_of_apart (inside : Inside shift mask) {flags : BitVec w}
    (apart : flags &&& (mask <<< shift) = 0) (word : BitVec w) :
    ((word &&& ~~~flags) >>> shift) &&& mask = (word >>> shift) &&& mask := by
  have kept := put_and_of_apart apart word 0
  rw [BitVec.ofNat_eq_ofNat, BitVec.zero_and, BitVec.or_zero] at kept
  rw [read_eq inside, read_eq inside, kept]

/-- Bits under a mask are apart from what the mask is apart from. -/
theorem masked_apart {field : BitVec w} (apart : (mask <<< shift) &&& field = 0)
    (value : BitVec w) : ((value &&& mask) <<< shift) &&& field = 0 := by
  rw [BitVec.shiftLeft_and_distrib, BitVec.and_assoc, apart]
  exact BitVec.and_zero

/-- A word of one field only. -/
theorem read_own (inside : Inside shift mask) (value : BitVec w) :
    (((value &&& mask) <<< shift) >>> shift) &&& mask = value &&& mask := by
  rw [shiftLeft_ushiftRight_and inside, BitVec.and_assoc, BitVec.and_self]

/-- A mask of low bits keeps a number up to them. -/
theorem toNat_ofNat_and {k : Nat} (narrow : k ≤ w) (n : Nat) :
    (BitVec.ofNat w n &&& BitVec.ofNat w (2 ^ k - 1)).toNat = n % 2 ^ k := by
  have positive : 0 < 2 ^ k := Nat.two_pow_pos k
  have bound : 2 ^ k ≤ 2 ^ w := Nat.pow_le_pow_right (by decide) narrow
  have small : 2 ^ k - 1 < 2 ^ w := Nat.lt_of_lt_of_le (Nat.sub_lt positive Nat.one_pos) bound
  rw [BitVec.toNat_and, BitVec.toNat_ofNat, BitVec.toNat_ofNat, Nat.mod_eq_of_lt small,
    Nat.and_two_pow_sub_one_eq_mod]
  exact Nat.mod_mod_of_dvd n (Nat.pow_dvd_pow 2 narrow)

/-- A wider word reads the same field. -/
theorem toNat_setWidth_read {v : Nat} (wide : w ≤ v) (word : BitVec w) (shift : Nat)
    (mask : BitVec w) : ((word.setWidth v >>> shift) &&& mask.setWidth v).toNat =
      ((word >>> shift) &&& mask).toNat := by
  rw [BitVec.toNat_and, BitVec.toNat_and, BitVec.toNat_ushiftRight, BitVec.toNat_ushiftRight,
    BitVec.toNat_setWidth_of_le wide, BitVec.toNat_setWidth_of_le wide]

end Egg.BitFields
