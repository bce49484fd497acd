import Egg.Streams.Marshalling

/-! The bytes that marshalling puts on a stream. -/
namespace Egg.Streams

open Egg.Data

/-- The bytes of an integer of any size; of a negative one its low byte. -/
def encodedInteger (anInteger : Int) : List Nat :=
  if anInteger < 128 then [(anInteger % 256).toNat]
  else (anInteger % 128 + 128).toNat :: encodedInteger (anInteger / 128)
termination_by anInteger.toNat
decreasing_by lia

/-- The bytes of a value. -/
def Value.encoded : Value → List Nat
  | long anInteger => littleEndian 4 (anInteger % 0x100000000).toNat
  | uLong anInteger => littleEndian 4 anInteger
  | uShort anInteger => littleEndian 2 anInteger
  | string codes => littleEndian 4 codes.length ++ codes
  | integer anInteger => encodedInteger anInteger

theorem Written.putAll_append (model : Written) (codes others : List Nat) :
    model.putAll (codes ++ others) = (model.putAll codes).putAll others :=
  List.foldl_append

/-- What is written from the start is all there is. -/
theorem Written.characters_putAll (codes others : List Nat) :
    ((Written.on others).putAll codes).characters = codes := by
  by_cases empty : codes = []
  · subst empty
    rfl
  · have size : ((Written.on others).putAll codes).size = codes.length := by
      rw [putAll_size _ _ empty]
      exact (Nat.max_eq_right (Nat.zero_le _)).trans (Nat.zero_add _)
    rw [Written.characters, size]
    refine List.ext_getElem (by simp) fun index _ inside => ?_
    rw [List.getElem_map, List.getElem_range, putAll_buffer]
    have start : (Written.on others).position = 0 := rfl
    rw [start, if_pos ⟨Nat.zero_le _, by rwa [Nat.zero_add]⟩, Nat.sub_zero, List.getD_eq_getElem?_getD,
      List.getElem?_eq_getElem inside, Option.getD_some]

theorem littleEndian_lt {width value byte : Nat} (member : byte ∈ littleEndian width value) :
    byte < 256 := by
  induction width generalizing value with
  | zero => cases member
  | succ width ih =>
    rcases List.mem_cons.mp member with rfl | later
    · exact Nat.mod_lt _ (by decide)
    · exact ih later

namespace Tracks

variable {self : WriteStream} {model : Written} {streamClass : StreamClass}

/-- A stream of bytes that took some more. -/
def Took (self next : WriteStream) (model : Written) (bytes : List Nat) : Prop :=
  Tracks next (model.putAll bytes) ∧ next.contents.species = self.contents.species

theorem putByte (tracks : Tracks self model) {token : Nat} (byte : token < 256) :
    ∃ next, self.nextPut streamClass token = some next ∧ Took self next model [token] := by
  have some_bytes : self.contents.species.characterSize ≠ 0 := by
    cases self.contents.species <;> decide
  have fits := Nat.lt_of_lt_of_le byte (Nat.le_self_pow some_bytes 256)
  obtain ⟨next, puts, tracked, species⟩ := tracks.nextPut fits
  refine ⟨next, ?_, tracked, species⟩
  cases streamClass with
  | internalWriteStream => exact puts
  | writeStringStream =>
    rw [WriteStream.nextPut, WriteStream.WriteStringStream.nextPut, if_pos byte, puts]

theorem putBytes (tracks : Tracks self model) {bytes : List Nat} (fit : ∀ byte ∈ bytes, byte < 256) :
    ∃ next, bytes.foldlM (WriteStream.nextPut streamClass) self = some next ∧
      Took self next model bytes := by
  induction bytes generalizing self model with
  | nil => exact ⟨self, rfl, tracks, rfl⟩
  | cons byte bytes ih =>
    obtain ⟨next, puts, tracked, species⟩ := tracks.putByte (fit byte List.mem_cons_self)
    obtain ⟨last, rest, tracked', species'⟩ :=
      ih tracked fun other member => fit other (List.mem_cons_of_mem byte member)
    refine ⟨last, ?_, tracked', species'.trans species⟩
    rw [List.foldlM_cons, puts]
    exact rest

theorem putString (tracks : Tracks self model) (narrow : self.contents.species ≠ .wideString)
    {codes : List Nat} (fit : ∀ code ∈ codes, code < 256) :
    ∃ next, self.nextPutAll streamClass ⟨.string, codes⟩ = some next ∧
      Took self next model codes := by
  have held : Contents.Holds ⟨.string, codes⟩ codes := ⟨(bytesOf_one fit).symm, fit⟩
  obtain ⟨next, puts, tracked, species⟩ := tracks.nextPutAll held (.inr (.inl nofun))
  refine ⟨next, ?_, tracked, species⟩
  cases streamClass with
  | internalWriteStream => exact puts
  | writeStringStream =>
    rw [WriteStream.nextPutAll, WriteStream.WriteStringStream.nextPutAll]
    simp only [narrow, reduceCtorEq, if_true]
    exact puts

theorem bytes_length (tracks : Tracks self model) (narrow : self.contents.species ≠ .wideString) :
    self.contents.bytes.length = self.limit := by
  rw [tracks.holds.bytes, bytesOf_length, Species.characterSize_of_narrow narrow, Nat.mul_one,
    List.length_map, List.length_range]

/-- Bytes that overwrite those where the stream is. -/
theorem overwritten (tracks : Tracks self model) (narrow : self.contents.species ≠ .wideString)
    {bytes : List Nat} (some_bytes : bytes ≠ []) (fit : ∀ byte ∈ bytes, byte < 256)
    (room : self.position + bytes.length ≤ self.limit) :
    Tracks { self.moveTo (self.position + bytes.length) with
      contents := { self.contents with
        bytes := Contents.overwrite self.contents.bytes self.position bytes } }
      (model.putAll bytes) := by
  have width := Species.characterSize_of_narrow narrow
  apply tracks.moveTo some_bytes room
  have holds := @Contents.Holds.overwrite _ _ bytes tracks.holds (by rwa [width]) self.position
  rwa [width, Nat.mul_one, bytesOf_one fit] at holds

/-- Bytes are put where the stream is. -/
theorem putBytesFrom (tracks : Tracks self model) (narrow : self.contents.species ≠ .wideString)
    {bytes : List Nat} (some_bytes : bytes ≠ []) (fit : ∀ byte ∈ bytes, byte < 256) :
    ∃ next, self.putBytesFrom bytes = some next ∧ Took self next model bytes := by
  have width := Species.characterSize_of_narrow narrow
  have copied {stream : WriteStream} (tracks : Tracks stream model)
      (narrow : stream.contents.species ≠ .wideString)
      (room : stream.position + bytes.length ≤ stream.limit) :
      stream.contents.replaceBytes (stream.position * 1 + 1) (stream.position * 1 + bytes.length)
        bytes 1 = some { stream.contents with
          bytes := Contents.overwrite stream.contents.bytes stream.position bytes } := by
    have inside : stream.position + bytes.length ≤ stream.contents.bytes.length := by
      rwa [tracks.bytes_length narrow]
    rw [Nat.mul_one, Contents.replaceBytes_eq inside (Nat.le_refl _), List.take_length]
  by_cases full : self.limit < self.position + bytes.length
  · have positive : 0 < self.position + bytes.length - self.limit := Nat.sub_pos_of_lt full
    obtain ⟨grown, grows, tracked, limit, position, species⟩ := tracks.growBy positive
    have narrow' : grown.contents.species ≠ .wideString := by rwa [species]
    have room : grown.position + bytes.length ≤ grown.limit := by lia
    refine ⟨_, ?_, tracked.overwritten narrow' some_bytes fit room, species⟩
    have written := copied tracked narrow' room
    simp only [position] at written ⊢
    simp only [WriteStream.putBytesFrom, width, Nat.div_one, Nat.add_comm bytes.length, if_pos full,
      grows, Option.bind_eq_bind, Option.bind_some, position, written]
  · have room : self.position + bytes.length ≤ self.limit := by lia
    refine ⟨_, ?_, tracks.overwritten narrow some_bytes fit room, rfl⟩
    simp only [WriteStream.putBytesFrom, width, Nat.div_one, if_neg full, Option.bind_eq_bind,
      Option.bind_some, copied tracks narrow room, Nat.add_comm bytes.length]

/-- A byte is put; a negative number as its low byte. -/
theorem nextBytePut (tracks : Tracks self model) (narrow : self.contents.species ≠ .wideString)
    {byte : Int} (small : byte < 256) :
    ∃ next, self.nextBytePut byte = some next ∧ Took self next model [(byte % 256).toNat] := by
  have fits : ∀ b ∈ [(byte % 256).toNat], b < 256 := by
    intro b member
    rw [List.mem_singleton.mp member]
    lia
  have low : (if byte < 0 then byte % 256 else byte) = byte % 256 := by
    split
    · rfl
    · exact (Int.emod_eq_of_lt (Int.le_of_not_gt ‹_›) small).symm
  have copied {stream : WriteStream} (tracks : Tracks stream model)
      (narrow : stream.contents.species ≠ .wideString) (room : stream.position + 1 ≤ stream.limit) :
      stream.contents.byteAtPut (stream.position + 1) (byte % 256).toNat =
        some { stream.contents with
          bytes := Contents.overwrite stream.contents.bytes stream.position [(byte % 256).toNat] } := by
    have inside : (1 ≤ stream.position + 1 ∧ stream.position + 1 ≤ stream.contents.bytes.length) ∧
        (byte % 256).toNat < 256 := by
      rw [tracks.bytes_length narrow]
      exact ⟨⟨Nat.le_add_left 1 _, room⟩, fits _ List.mem_cons_self⟩
    rw [Contents.byteAtPut, if_pos inside, Nat.add_sub_cancel]
  have some_bytes : [(byte % 256).toNat] ≠ [] := List.cons_ne_nil _ _
  by_cases full : self.position = self.limit
  · have positive : 0 < min (max self.contents.size 20) 1000000 := by lia
    obtain ⟨grown, grows, tracked, limit, position, species⟩ := tracks.growBy positive
    have narrow' : grown.contents.species ≠ .wideString := by rwa [species]
    have room : grown.position + 1 ≤ grown.limit := by lia
    have grows : self.grow = some grown := grows
    refine ⟨_, ?_, tracked.overwritten narrow' some_bytes fits room, species⟩
    simp only [WriteStream.nextBytePut, low, if_pos full, grows, Option.bind_eq_bind, Option.bind_some,
      copied tracked narrow' room, List.length_singleton]
  · have room : self.position + 1 ≤ self.limit := by
      have inside := tracks.positionInside
      lia
    refine ⟨_, ?_, tracks.overwritten narrow some_bytes fits room, rfl⟩
    simp only [WriteStream.nextBytePut, low, if_neg full, Option.bind_eq_bind, Option.bind_some,
      copied tracks narrow room, List.length_singleton]

theorem putInteger (tracks : Tracks self model) (narrow : self.contents.species ≠ .wideString)
    (anInteger : Int) :
    ∃ next, self.putInteger anInteger = some next ∧
      Took self next model (encodedInteger anInteger) := by
  fun_induction encodedInteger anInteger generalizing self model with
  | case1 anInteger small =>
    obtain ⟨next, puts, took⟩ := @nextBytePut _ _ tracks narrow anInteger (by lia)
    exact ⟨next, by rw [WriteStream.putInteger, if_pos small, puts], took⟩
  | case2 anInteger large ih =>
    obtain ⟨next, puts, tracked, species⟩ :=
      @nextBytePut _ _ tracks narrow (anInteger % 128 + 128) (by lia)
    obtain ⟨last, rest, tracked', species'⟩ := ih tracked (species ▸ narrow)
    have byte : (anInteger % 128 + 128) % 256 = anInteger % 128 + 128 :=
      Int.emod_eq_of_lt (by lia) (by lia)
    rw [byte] at tracked'
    refine ⟨last, ?_, tracked', species'.trans species⟩
    rw [WriteStream.putInteger, if_neg large, puts]
    exact rest

/-- A value is put as its bytes. -/
theorem write (tracks : Tracks self model) (narrow : self.contents.species ≠ .wideString)
    {value : Value} (admitted : value.Admitted) :
    ∃ next, value.write streamClass self = some next ∧ Took self next model value.encoded := by
  have fits {width value : Nat} : ∀ byte ∈ littleEndian width value, byte < 256 :=
    fun byte member => littleEndian_lt member
  cases value with
  | long anInteger =>
    obtain ⟨low, high⟩ := admitted
    have ulong : (if anInteger < 0 then 0x100000000 + anInteger else anInteger) =
        anInteger % 0x100000000 := by
      split
      · rw [← Int.add_emod_left, Int.emod_eq_of_lt (by lia) (by lia)]
      · exact (Int.emod_eq_of_lt (by lia) (by lia)).symm
    obtain ⟨next, puts, took⟩ := @putBytesFrom _ _ tracks narrow
      (littleEndian 4 (anInteger % 0x100000000).toNat) (List.cons_ne_nil _ _) fits
    exact ⟨next, by rw [Value.write, WriteStream.nextLongPut, ulong, puts], took⟩
  | uLong anInteger => exact tracks.putBytes fits
  | uShort anInteger => exact tracks.putBytesFrom narrow (List.cons_ne_nil _ _) fits
  | string codes =>
    obtain ⟨next, puts, tracked, species⟩ := @putBytes self model streamClass tracks
      (littleEndian 4 codes.length) fits
    obtain ⟨last, rest, tracked', species'⟩ :=
      @putString next _ streamClass tracked (species ▸ narrow) codes admitted
    have size : Contents.size ⟨.string, codes⟩ = codes.length := Nat.div_one _
    refine ⟨last, ?_, ?_, species'.trans species⟩
    · rw [Value.write, WriteStream.nextStringPut, WriteStream.nextULongPut, size, puts]
      exact rest
    · rw [Value.encoded, Written.putAll_append]
      exact tracked'
  | integer anInteger => exact tracks.putInteger narrow anInteger

theorem writeAll (tracks : Tracks self model) (narrow : self.contents.species ≠ .wideString)
    {values : List Value} (admitted : ∀ value ∈ values, value.Admitted) :
    ∃ next, Value.writeAll streamClass self values = some next ∧
      Took self next model (values.flatMap Value.encoded) := by
  induction values generalizing self model with
  | nil => exact ⟨self, rfl, tracks, rfl⟩
  | cons value values ih =>
    obtain ⟨next, puts, tracked, species⟩ := tracks.write narrow (admitted value List.mem_cons_self)
    obtain ⟨last, rest, tracked', species'⟩ :=
      ih tracked (species ▸ narrow) fun other member => admitted other (List.mem_cons_of_mem value member)
    refine ⟨last, ?_, ?_, species'.trans species⟩
    · rw [Value.writeAll, List.foldlM_cons, puts]
      exact rest
    · rw [List.flatMap_cons, Written.putAll_append]
      exact tracked'

end Tracks

end Egg.Streams
