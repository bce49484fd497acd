import Egg.Streams.MarshalledBytes

/-! What is marshalled is read back exactly when integers are not negative, no string is too long for
its size, and none on a stream of bytes ends with a null. -/
namespace Egg.Streams

open Egg.Data

/-- Such bytes are ahead of the stream. -/
structure Ahead (stream : InternalReadStream Nat) (rest : List Nat) : Prop where
  bytes : stream.contents.drop stream.position = rest
  limit : stream.limit = stream.contents.length
  inside : stream.position ≤ stream.limit

namespace Ahead

variable {self next : InternalReadStream Nat} {bytes rest : List Nat}

theorem on (bytes : List Nat) : Ahead (.on bytes) bytes :=
  ⟨rfl, rfl, Nat.zero_le _⟩

theorem length (ahead : Ahead self rest) : self.position + rest.length = self.limit := by
  have inside := ahead.inside
  rw [← ahead.bytes, List.length_drop, ← ahead.limit]
  lia

theorem behind (ahead : Ahead self (bytes ++ rest)) :
    Ahead (self.atPosition (self.position + bytes.length)) rest where
  bytes := by
    have dropped := congrArg (List.drop bytes.length) ahead.bytes
    rwa [List.drop_drop, List.drop_left] at dropped
  limit := ahead.limit
  inside := by
    have length := ahead.length
    rw [List.length_append] at length
    rw [InternalReadStream.atPosition_limit, InternalReadStream.atPosition_position]
    lia

theorem room (ahead : Ahead self (bytes ++ rest)) : ¬ self.position + bytes.length > self.limit := by
  have length := ahead.length
  rw [List.length_append] at length
  lia

theorem taken (ahead : Ahead self (bytes ++ rest)) :
    (self.contents.drop self.position).take bytes.length = bytes := by
  rw [ahead.bytes, List.take_left]

theorem atEnd (ahead : Ahead self []) : self.atEnd = true :=
  decide_eq_true ahead.length.ge

theorem nextByte {byte : Nat} (ahead : Ahead self (byte :: rest)) :
    self.nextByte = some (byte, self.atPosition (self.position + 1)) := by
  have length := ahead.length
  rw [List.length_cons] at length
  have going : ¬ self.atEnd = true := by
    rw [InternalReadStream.atEnd, decide_eq_true_iff]
    lia
  have here : elementAt self.contents (self.position + 1) = some byte := by
    have first := congrArg List.head? ahead.bytes
    rwa [List.head?_drop, List.head?_cons] at first
  rw [InternalReadStream.nextByte, if_neg going, here]
  rfl

theorem readInto (ahead : Ahead self (bytes ++ rest)) :
    self.readInto bytes.length = some (bytes, self.atPosition (self.position + bytes.length)) := by
  simp only [InternalReadStream.readInto, if_neg ahead.room, ahead.taken]

theorem nextULong {value : Nat} (ahead : Ahead self (littleEndian 4 value ++ rest)) :
    self.nextULong = some (value % 0x100000000, self.atPosition (self.position + 4)) := by
  have room := ahead.room
  have taken := ahead.taken
  rw [littleEndian_length] at room taken
  simp only [InternalReadStream.nextULong, if_neg room, Nat.add_sub_cancel, taken]
  rw [ofDigits_littleEndian]
  rfl

theorem nextCount (ahead : Ahead self (bytes ++ rest)) :
    self.nextCount bytes.length = some (bytes, self.atPosition (self.position + bytes.length)) := by
  have room := ahead.room
  have inside : ¬ (self.position + 1 ≤ self.position + bytes.length ∧
      self.contents.length < self.position + bytes.length) := by
    rw [← ahead.limit]
    exact fun past => room past.2
  have copied : InternalReadStream.copyFrom self.contents (self.position + 1)
      (self.position + bytes.length) = some bytes := by
    rw [InternalReadStream.copyFrom, if_neg inside, Nat.add_sub_cancel, List.drop_take,
      Nat.add_sub_cancel_left, ahead.taken]
  simp only [InternalReadStream.nextCount, if_neg room, copied, Option.bind_eq_bind, Option.bind_some]

/-- Four bytes with the sign in the highest bit. -/
theorem longAtOffset_littleEndian {anInteger : Int} (low : -0x80000000 ≤ anInteger)
    (high : anInteger < 0x80000000) :
    InternalReadStream.longAtOffset (littleEndian 4 (anInteger % 0x100000000).toNat) = anInteger := by
  obtain ⟨ulong, same⟩ : ∃ ulong : Nat, (anInteger % 0x100000000).toNat = ulong := ⟨_, rfl⟩
  have halves := littleEndian_add 2 2 ulong
  have lo : (littleEndian 4 ulong).take 2 = littleEndian 2 ulong := by rw [halves]; rfl
  have hi : ((littleEndian 4 ulong).drop 2).take 2 = littleEndian 2 (ulong / 256 ^ 2) := by
    rw [halves]; rfl
  rw [same, InternalReadStream.longAtOffset]
  simp only [lo, hi, ofDigits_littleEndian, Nat.testBit_eq_decide_div_mod_eq, decide_eq_true_iff]
  split <;> lia

theorem nextLong {anInteger : Int} (low : -0x80000000 ≤ anInteger) (high : anInteger < 0x80000000)
    (ahead : Ahead self (littleEndian 4 (anInteger % 0x100000000).toNat ++ rest)) :
    self.nextLong = some (anInteger, self.atPosition (self.position + 4)) := by
  have read := ahead.readInto
  rw [littleEndian_length] at read
  rw [InternalReadStream.nextLong, read]
  simp only [Option.bind_eq_bind, Option.bind_some, longAtOffset_littleEndian low high]

theorem nextUShort {value : Nat} (small : value < 0x10000)
    (ahead : Ahead self (littleEndian 2 value ++ rest)) :
    self.nextUShort = some (value, self.atPosition (self.position + 2)) := by
  have bytes : littleEndian 2 value = [value % 256, value / 256 % 256] := rfl
  rw [bytes] at ahead
  have first := ahead.nextByte
  have ahead' : Ahead (self.atPosition (self.position + 1)) (value / 256 % 256 :: rest) :=
    @behind self [value % 256] _ ahead
  have second := ahead'.nextByte
  have whole : value / 256 % 256 * 256 + value % 256 = value := by lia
  simp only [InternalReadStream.nextUShort, first, second, Option.bind_eq_bind, Option.bind_some, whole]
  rfl

theorem getInteger_eq (self : InternalReadStream Nat) : self.getInteger =
    self.nextByte.bind fun (byte, next) =>
      if 128 ≤ byte then next.getInteger.bind fun (rest, behind) => some (rest * 128 + byte - 128, behind)
      else some (byte, next) := by
  rw [InternalReadStream.getInteger]
  split
  · next none => rw [none, Option.bind_none]
  · next byte next read => rw [read, Option.bind_some]; rfl

theorem getInteger {anInteger : Int} (positive : 0 ≤ anInteger)
    (ahead : Ahead self (encodedInteger anInteger ++ rest)) :
    self.getInteger = some (anInteger.toNat,
      self.atPosition (self.position + (encodedInteger anInteger).length)) := by
  fun_induction encodedInteger anInteger generalizing self with
  | case1 anInteger small =>
    have byte : (anInteger % 256).toNat = anInteger.toNat := by lia
    have last : ¬ 128 ≤ anInteger.toNat := by lia
    rw [byte] at ahead
    rw [getInteger_eq, ahead.nextByte, Option.bind_some]
    exact if_neg last
  | case2 anInteger large ih =>
    have more : 128 ≤ (anInteger % 128 + 128).toNat := by lia
    have whole : (anInteger / 128).toNat * 128 + (anInteger % 128 + 128).toNat - 128 =
        anInteger.toNat := by lia
    have ahead' : Ahead (self.atPosition (self.position + 1))
        (encodedInteger (anInteger / 128) ++ rest) :=
      @behind self [(anInteger % 128 + 128).toNat] _ ahead
    have rest := ih (by lia) ahead'
    rw [List.cons_append] at ahead
    have length : self.position + ((anInteger % 128 + 128).toNat ::
        encodedInteger (anInteger / 128)).length =
        self.position + 1 + (encodedInteger (anInteger / 128)).length := by
      rw [List.length_cons, Nat.add_comm _ 1, Nat.add_assoc]
    rw [getInteger_eq, ahead.nextByte, Option.bind_some, length]
    refine (if_pos more).trans ?_
    simp only [rest, Option.bind_some, whole]
    rfl

end Ahead

namespace Value

variable {binary : Bool} {value : Value} {self next : InternalReadStream Nat} {rest : List Nat}

/-- Integers are not negative, and a string has a size of four bytes and, on a stream of bytes, no
null at its end. -/
def Faithful (binary : Bool) : Value → Prop
  | string codes => codes.length < 0x100000000 ∧ ¬ (binary ∧ codes.getLast? = some 0)
  | integer anInteger => 0 ≤ anInteger
  | _ => True

instance : (value : Value) → Decidable (value.Faithful binary)
  | string codes => inferInstanceAs
    (Decidable (codes.length < 0x100000000 ∧ ¬ (binary ∧ codes.getLast? = some 0)))
  | integer anInteger => inferInstanceAs (Decidable (0 ≤ anInteger))
  | long _ | uLong _ | uShort _ => inferInstanceAs (Decidable True)

theorem asString_eq_self {codes : List Nat} :
    InternalReadStream.asString binary codes = codes ↔ ¬ (binary ∧ codes.getLast? = some 0) := by
  rw [InternalReadStream.asString]
  split
  · next null =>
    refine iff_of_false (fun same => ?_) fun other => other null
    have shorter := congrArg List.length same
    have some_codes : codes ≠ [] := by
      rintro rfl
      cases null.2
    have positive := List.length_pos_iff.mpr some_codes
    rw [List.length_dropLast] at shorter
    lia
  · next other => exact iff_of_true rfl other

/-- A value that can be is read back. -/
theorem read_of_faithful (ahead : Ahead self (value.encoded ++ rest)) (admitted : value.Admitted)
    (faithful : value.Faithful binary) :
    value.read binary self = some (value, self.atPosition (self.position + value.encoded.length)) := by
  cases value with
  | long anInteger =>
    rw [read, ahead.nextLong admitted.1 admitted.2]
    rfl
  | uLong anInteger =>
    rw [read, ahead.nextULong, Nat.mod_eq_of_lt admitted]
    rfl
  | uShort anInteger =>
    rw [read, ahead.nextUShort admitted]
    rfl
  | string codes =>
    obtain ⟨short, whole⟩ := faithful
    rw [encoded, List.append_assoc] at ahead
    have behind : Ahead (self.atPosition (self.position + 4)) (codes ++ rest) := ahead.behind
    rw [read, InternalReadStream.nextString, ahead.nextULong, Nat.mod_eq_of_lt short]
    simp only [Option.bind_eq_bind, Option.bind_some, behind.nextCount, asString_eq_self.mpr whole,
      Option.map_some, encoded, List.length_append, littleEndian_length, ← Nat.add_assoc]
    rfl
  | integer anInteger =>
    have same : ((anInteger.toNat : Nat) : Int) = anInteger := Int.toNat_of_nonneg faithful
    have read' := ahead.getInteger faithful
    simp only [read, read', Option.map_some, same]
    rfl

theorem nextCount_length {count : Nat} {elements : List Nat}
    (read : self.nextCount count = some (elements, next)) : elements.length ≤ count := by
  rw [InternalReadStream.nextCount] at read
  split at read
  · cases read
  · obtain ⟨elements', copied, same⟩ := Option.bind_eq_some_iff.mp read
    cases same
    rw [InternalReadStream.copyFrom] at copied
    split at copied
    · cases copied
    · cases copied
      rw [List.length_drop, List.length_take]
      lia

/-- What is read back can be. -/
theorem faithful_of_read (ahead : Ahead self (value.encoded ++ rest))
    (answered : value.read binary self = some (value, next)) : value.Faithful binary := by
  cases value with
  | long anInteger => trivial
  | uLong anInteger => trivial
  | uShort anInteger => trivial
  | string codes =>
    rw [encoded, List.append_assoc] at ahead
    have behind : Ahead (self.atPosition (self.position + 4)) (codes ++ rest) := ahead.behind
    rw [read, InternalReadStream.nextString, ahead.nextULong] at answered
    obtain ⟨⟨codes', next'⟩, answered, same⟩ := Option.map_eq_some_iff.mp answered
    cases same
    simp only [Option.bind_eq_bind, Option.bind_some] at answered
    obtain ⟨⟨elements, next'⟩, copied, same⟩ := Option.bind_eq_some_iff.mp answered
    have same : InternalReadStream.asString binary elements = codes :=
      congrArg Prod.fst (Option.some.inj same)
    have length := nextCount_length copied
    have kept : codes.length ≤ elements.length := by
      rw [← same, InternalReadStream.asString]
      split
      · rw [List.length_dropLast]
        exact Nat.sub_le _ _
      · exact Nat.le_refl _
    have short : codes.length < 0x100000000 :=
      Nat.lt_of_le_of_lt (Nat.le_trans kept length) (Nat.mod_lt _ (by decide))
    rw [Nat.mod_eq_of_lt short, behind.nextCount] at copied
    have whole : codes = elements := congrArg Prod.fst (Option.some.inj copied)
    rw [← whole] at same
    exact ⟨short, asString_eq_self.mp same⟩
  | integer anInteger =>
    rw [read] at answered
    obtain ⟨⟨natural, next'⟩, -, same⟩ := Option.map_eq_some_iff.mp answered
    cases same
    exact Int.natCast_nonneg natural

theorem readAll_of_faithful {values : List Value} (ahead : Ahead self (values.flatMap encoded))
    (admitted : ∀ value ∈ values, value.Admitted) (faithful : ∀ value ∈ values, value.Faithful binary) :
    ∃ reader, readAll binary self values = some (values, reader) ∧ reader.atEnd = true := by
  induction values generalizing self with
  | nil => exact ⟨self, rfl, ahead.atEnd⟩
  | cons value values ih =>
    rw [List.flatMap_cons] at ahead
    have first := read_of_faithful ahead (admitted value List.mem_cons_self)
      (faithful value List.mem_cons_self)
    obtain ⟨reader, rest, ended⟩ := ih ahead.behind
      (fun other member => admitted other (List.mem_cons_of_mem value member))
      fun other member => faithful other (List.mem_cons_of_mem value member)
    refine ⟨reader, ?_, ended⟩
    simp only [readAll, first, Option.bind_eq_bind, Option.bind_some, rest]

theorem faithful_of_readAll {values : List Value} {reader : InternalReadStream Nat}
    (ahead : Ahead self (values.flatMap encoded)) (admitted : ∀ value ∈ values, value.Admitted)
    (answered : readAll binary self values = some (values, reader)) :
    ∀ value ∈ values, value.Faithful binary := by
  induction values generalizing self with
  | nil => exact nofun
  | cons value values ih =>
    rw [List.flatMap_cons] at ahead
    rw [readAll] at answered
    obtain ⟨⟨answer, next⟩, first, answered⟩ := Option.bind_eq_some_iff.mp answered
    obtain ⟨⟨answers, last⟩, rest, same⟩ := Option.bind_eq_some_iff.mp answered
    cases same
    have faithful := faithful_of_read ahead first
    have known := read_of_faithful ahead (admitted value List.mem_cons_self) faithful
    rw [first] at known
    cases known
    have others := ih ahead.behind
      (fun other member => admitted other (List.mem_cons_of_mem value member)) rest
    intro other member
    rcases List.mem_cons.mp member with rfl | later
    · exact faithful
    · exact others other later

end Value

/-- Whatever is marshalled, on any stream of bytes or of narrow characters, can be written; and it is
read back as it was, up to the end, exactly if each value can be. -/
theorem marshalled_exactly (streamClass : StreamClass) (aCollection : Contents)
    (narrow : aCollection.species ≠ .wideString) (fit : ∀ byte ∈ aCollection.bytes, byte < 256)
    (values : List Value) (admitted : ∀ value ∈ values, value.Admitted) :
    ∃ writer, Value.writeAll streamClass (.on aCollection) values = some writer ∧
      ((∃ reader, Value.readAll (aCollection.species = .byteArray) (.on writer.written.bytes) values =
        some (values, reader) ∧ reader.atEnd = true) ↔
        ∀ value ∈ values, value.Faithful (aCollection.species = .byteArray)) := by
  have holds : aCollection.Holds aCollection.bytes := by
    have width := Species.characterSize_of_narrow narrow
    exact ⟨by rw [width, bytesOf_one fit], by rwa [width, pow_one]⟩
  obtain ⟨writer, wrote, tracked, species⟩ := (Tracks.on holds).writeAll narrow admitted
  have width : writer.written.species.characterSize = 1 :=
    (congrArg Species.characterSize species).trans (Species.characterSize_of_narrow narrow)
  have bytes : writer.written.bytes = values.flatMap Value.encoded := by
    have held := tracked.written
    have fits := held.fit
    rw [Written.characters_putAll, width, pow_one] at fits
    rw [held.bytes, width, Written.characters_putAll, bytesOf_one fits]
  refine ⟨writer, wrote, ?_⟩
  rw [bytes]
  constructor
  · rintro ⟨reader, answered, -⟩
    exact Value.faithful_of_readAll (Ahead.on _) admitted answered
  · exact Value.readAll_of_faithful (Ahead.on _) admitted

/-- Numbers and a string with a null inside, on a stream of bytes. -/
theorem marshalled_bytes_exactly :
    ∃ writer, Value.writeAll .internalWriteStream (.on ⟨.byteArray, []⟩)
        [.long (-2), .uLong 4000000000, .uShort 500, .string [104, 0, 105], .integer 300] = some writer ∧
      ∃ reader, Value.readAll true (.on writer.written.bytes)
          [.long (-2), .uLong 4000000000, .uShort 500, .string [104, 0, 105], .integer 300] =
        some ([.long (-2), .uLong 4000000000, .uShort 500, .string [104, 0, 105], .integer 300],
          reader) ∧ reader.atEnd = true := by
  have admitted : ∀ value ∈ [Value.long (-2), .uLong 4000000000, .uShort 500, .string [104, 0, 105],
      .integer 300], value.Admitted := by decide
  have faithful : ∀ value ∈ [Value.long (-2), .uLong 4000000000, .uShort 500, .string [104, 0, 105],
      .integer 300], value.Faithful true := by decide
  obtain ⟨writer, wrote, exact⟩ := marshalled_exactly .internalWriteStream ⟨.byteArray, []⟩
    (by decide) nofun _ admitted
  exact ⟨writer, wrote, exact.mpr faithful⟩

/-- A null at the end of a string is lost on a stream of bytes. -/
theorem null_at_end_lost : ∃ answers,
    ((Value.writeAll .internalWriteStream (.on ⟨.byteArray, []⟩) [.string [104, 0]]).bind fun writer =>
      (Value.readAll true (.on writer.written.bytes) [.string [104, 0]]).map Prod.fst) =
        some answers ∧ answers ≠ [.string [104, 0]] :=
  ⟨[.string [104]], by decide, by decide⟩

end Egg.Streams
