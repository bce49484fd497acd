import Egg.Unicode.Codec
import Mathlib.Data.List.TakeWhile

/-! Which strings the codecs give back. -/
namespace Egg.Unicode

open Egg.Data Egg.Data.Reader

/-- A Unicode scalar value. -/
def IsScalar (code : Nat) : Prop :=
  code < 0xD800 ∨ (0xE000 ≤ code ∧ code < 0x110000)

theorem IsScalar.lt {code : Nat} (scalar : IsScalar code) : code < 0x110000 := by
  unfold IsScalar at scalar
  lia

section Decoding

/-- An encoding of codes that a decoder reads back one by one. -/
structure Codes (decodeFrom : Reader Int) (encodeOn : Nat → List UInt8) (code : Nat) : Prop where
  nonempty : encodeOn code ≠ []
  read : Reads decodeFrom (encodeOn code) code

variable {decodeFrom : Reader Int} {encodeOn : Nat → List UInt8}

/-- The state of the string under construction: it is wide unless all codes so far are bytes. -/
def Prepared (bytes : Bool) (string : Text) : Prop :=
  bytes = false → ∃ longs, string = .wideString longs

theorem isAnsi_lt {code : Nat} (ansi : isAnsi code = true) : code < 256 := by
  unfold isAnsi at ansi
  split at ansi
  · lia
  · split at ansi
    · cases ansi
    · lia

/-- What is stored after a code has been decoded. -/
theorem atPutCode_widened {bytes : Bool} {string : Text} {index code : Nat}
    (prepared : Prepared bytes string) (inside : index < string.size) (fits : code < 2 ^ 32) :
    ∃ stored, (if (bytes && !isAnsi code) = true then string.asWideString else string).atPutCode
        (index + 1) code = some stored ∧
      stored.codes = string.codes.set index code ∧
      Prepared (bytes && !(bytes && !isAnsi code)) stored := by
  have wideSize : string.asWideString.size = string.size := by
    rw [Text.size, Text.codes_asWideString, Text.size]
  by_cases widen : (bytes && !isAnsi code) = true
  · rw [if_pos widen]
    have wide : ∃ longs, string.asWideString = .wideString longs := by
      cases string <;> exact ⟨_, rfl⟩
    obtain ⟨stored, same, codes, kept⟩ := Text.atPutCode_eq_some (wideSize.symm ▸ inside) fits
      (.inr wide)
    rw [Text.codes_asWideString] at codes
    exact ⟨stored, same, codes, fun _ => kept wide⟩
  · rw [if_neg widen]
    have narrow : code < 256 ∨ ∃ longs, string = .wideString longs := by
      cases bytes with
      | false => exact .inr (prepared rfl)
      | true =>
        have ansi : isAnsi code = true := by simpa using widen
        exact .inl (isAnsi_lt ansi)
    obtain ⟨stored, same, codes, kept⟩ := Text.atPutCode_eq_some inside fits narrow
    refine ⟨stored, same, codes, fun off => kept ?_⟩
    cases bytes with
    | false => exact prepared rfl
    | true => simp [widen] at off

/-- The loop stores the codes up to the first zero. -/
theorem decodeInto_codes {codes : List Nat} (each : ∀ code ∈ codes, Codes decodeFrom encodeOn code)
    (fits : ∀ code ∈ codes, code < 2 ^ 32) {room index : Nat} {bytes : Bool} {string : Text}
    (enough : codes.length ≤ room) (size : string.size = index + room)
    (prepared : Prepared bytes string) :
    ∃ decoded, decodeInto decodeFrom room (codes.flatMap encodeOn) bytes string index =
        some (decoded, index + (codes.takeWhile (· ≠ 0)).length) ∧
      decoded.size = string.size ∧
      decoded.codes.take (index + (codes.takeWhile (· ≠ 0)).length) =
        string.codes.take index ++ codes.takeWhile (· ≠ 0) := by
  induction codes generalizing room index bytes string with
  | nil =>
    cases room with
    | zero => exact ⟨string, rfl, rfl, by simp⟩
    | succ room => exact ⟨string, rfl, rfl, by simp⟩
  | cons code codes ih =>
    obtain ⟨room, rfl⟩ : ∃ lower, room = lower + 1 :=
      ⟨room - 1, by simp only [List.length_cons] at enough; lia⟩
    have first := each code (List.mem_cons_self ..)
    have more : (code :: codes).flatMap encodeOn ≠ [] := by
      simp [List.flatMap_cons, first.nonempty]
    have read : decodeFrom ((code :: codes).flatMap encodeOn) =
        some ((code : Int), codes.flatMap encodeOn) := first.read _
    rw [decodeInto, if_neg more, read]
    dsimp only
    by_cases zero : code = 0
    · subst zero
      have kept : (bytes && !isAnsi ((0 : Nat) : Int)) = false := by
        rw [show isAnsi ((0 : Nat) : Int) = true from rfl, Bool.not_true, Bool.and_false]
      rw [kept]
      exact ⟨string, rfl, rfl, by simp⟩
    · have nonzero : ¬ (code : Int) = 0 := by lia
      obtain ⟨stored, put, stores, widened⟩ := atPutCode_widened prepared
        (show index < string.size by lia) (fits code (List.mem_cons_self ..))
      have storedSize : stored.size = string.size := by
        rw [Text.size, stores, List.length_set, Text.size]
      obtain ⟨decoded, run, total, front⟩ := ih
        (fun other member => each other (List.mem_cons_of_mem _ member))
        (fun other member => fits other (List.mem_cons_of_mem _ member))
        (Nat.le_of_succ_le_succ enough) (show stored.size = index + 1 + room by lia) widened
      have taken : (code :: codes).takeWhile (· ≠ 0) = code :: codes.takeWhile (· ≠ 0) := by
        simp [zero]
      have ends : index + 1 + (codes.takeWhile (· ≠ 0)).length =
          index + ((code :: codes).takeWhile (· ≠ 0)).length := by
        rw [taken, List.length_cons]
        lia
      rw [if_neg nonzero, put]
      refine ⟨decoded, ?_, total.trans storedSize, ?_⟩
      · rw [← ends]
        exact run
      · have within : index < string.codes.length := by
          have := size
          rw [Text.size] at this
          lia
        rw [← ends, front, stores, taken, List.take_succ_eq_append_getElem (by simpa using within),
          List.getElem_set_self, List.take_set_of_le (Nat.le_refl _), List.append_assoc]
        rfl

/-- Decoding gives the codes before the first zero. -/
theorem decodeStringFrom_codes {codes : List Nat}
    (each : ∀ code ∈ codes, Codes decodeFrom encodeOn code)
    (fits : ∀ code ∈ codes, code < 2 ^ 32) {length : Nat} (enough : codes.length ≤ length) :
    ∃ decoded, decodeStringFrom decodeFrom (codes.flatMap encodeOn) length = some decoded ∧
      decoded.codes = codes.takeWhile (· ≠ 0) := by
  have size : (Text.new length).size = 0 + length := by
    rw [Text.size, Text.codes_new, List.length_replicate, Nat.zero_add]
  obtain ⟨decoded, run, total, front⟩ := decodeInto_codes each fits enough size
    (show Prepared true _ from fun off => absurd off (by decide))
  rw [Nat.zero_add] at run front
  rw [List.take_zero, List.nil_append] at front
  have result : decodeStringFrom decodeFrom (codes.flatMap encodeOn) length =
      if (codes.takeWhile (· ≠ 0)).length < decoded.size then
        some (decoded.copyTo (codes.takeWhile (· ≠ 0)).length) else some decoded := by
    rw [decodeStringFrom, run]
    rfl
  rw [result]
  split
  · exact ⟨_, rfl, by rw [Text.codes_copyTo, front]⟩
  · next full =>
    refine ⟨decoded, rfl, ?_⟩
    rw [← front, List.take_of_length_le (by rw [Text.size] at full; lia)]

end Decoding

namespace UTF8

theorem tail_spec : ∀ bits < 64,
    UInt8.ofNat (bits ||| 0x80) &&& 0xC0 = 0x80 ∧
      (UInt8.ofNat (bits ||| 0x80)).toNat &&& 0x3F = bits := by
  decide

theorem lead_two : ∀ bits < 32, ¬ UInt8.ofNat (bits ||| 0xC0) < 128 ∧
    trailing (UInt8.ofNat (bits ||| 0xC0) &&& 0xF8) = some 1 ∧
      (UInt8.ofNat (bits ||| 0xC0)).toNat &&& 0x1F = bits := by
  decide

theorem lead_three : ∀ bits < 16, ¬ UInt8.ofNat (bits ||| 0xE0) < 128 ∧
    trailing (UInt8.ofNat (bits ||| 0xE0) &&& 0xF8) = some 2 ∧
      (UInt8.ofNat (bits ||| 0xE0)).toNat &&& 0xF = bits := by
  decide

theorem lead_four : ∀ bits < 8, ¬ UInt8.ofNat (bits ||| 0xF0) < 128 ∧
    trailing (UInt8.ofNat (bits ||| 0xF0) &&& 0xF8) = some 3 ∧
      (UInt8.ofNat (bits ||| 0xF0)).toNat &&& 7 = bits := by
  decide

theorem reads_trailing {first : UInt8} {bytes : List UInt8} (large : ¬ first < 128)
    (lead : trailing (first &&& 0xF8) = some bytes.length)
    (tails : ∀ byte ∈ bytes, byte &&& 0xC0 = 0x80) :
    Reads decodeFrom (first :: bytes) (codeOf first.toNat bytes) := by
  intro rest
  have taken : (bytes ++ rest).take bytes.length = bytes := List.take_left
  have dropped : (bytes ++ rest).drop bytes.length = rest := List.drop_left
  have all : bytes.all (· &&& 0xC0 = 0x80) = true := by
    simpa using tails
  refine bind_eq_some.mpr ⟨first, bytes ++ rest, rfl, ?_⟩
  rw [if_neg large, lead]
  refine bind_eq_some.mpr ⟨bytes, bytes ++ rest, by rw [peek, taken], ?_⟩
  rw [if_neg (by lia), if_pos all]
  exact bind_eq_some.mpr ⟨(), rest, by rw [skip, dropped], rfl⟩

theorem low_bits (code : Nat) : code &&& 0x3F = code % 64 :=
  Nat.and_two_pow_sub_one_eq_mod code 6

theorem low_lt (code : Nat) : code &&& 0x3F < 64 := by
  rw [low_bits]
  exact Nat.mod_lt _ (by decide)

/-- The bytes of a code that is no ASCII: the first one, and six bits in each of the others. -/
theorem encodeOn_of_large {code : Nat} (large : ¬ code < 128) (small : code < 0x110000) :
    ∃ first bytes, encodeOn code = first :: bytes ∧ ¬ first < 128 ∧
      trailing (first &&& 0xF8) = some bytes.length ∧ (∀ byte ∈ bytes, byte &&& 0xC0 = 0x80) ∧
        codeOf first.toNat bytes = code := by
  have last := tail_spec _ (low_lt code)
  have middle := tail_spec _ (low_lt (code >>> 6))
  have upper := tail_spec _ (low_lt (code >>> 12))
  rw [encodeOn, if_neg large]
  by_cases two : code < 0x800
  · have lead := lead_two (code >>> 6) (by rw [Nat.shiftRight_eq_div_pow]; lia)
    rw [if_pos two]
    refine ⟨_, _, rfl, lead.1, lead.2.1, List.forall_mem_cons.mpr ⟨last.1, nofun⟩, ?_⟩
    rw [codeOf, lead.2.2, last.2, low_bits, Nat.shiftLeft_eq, Nat.shiftRight_eq_div_pow]
    lia
  · rw [if_neg two]
    by_cases three : code < 0x10000
    · have lead := lead_three (code >>> 12) (by rw [Nat.shiftRight_eq_div_pow]; lia)
      rw [if_pos three]
      refine ⟨_, _, rfl, lead.1, lead.2.1, 
        List.forall_mem_cons.mpr ⟨middle.1, List.forall_mem_cons.mpr ⟨last.1, nofun⟩⟩, ?_⟩
      rw [codeOf, lead.2.2, middle.2, last.2, low_bits, low_bits]
      simp only [Nat.shiftLeft_eq, Nat.shiftRight_eq_div_pow]
      lia
    · have lead := lead_four (code >>> 18) (by rw [Nat.shiftRight_eq_div_pow]; lia)
      rw [if_neg three]
      refine ⟨_, _, rfl, lead.1, lead.2.1, 
        List.forall_mem_cons.mpr ⟨upper.1, List.forall_mem_cons.mpr ⟨middle.1,
          List.forall_mem_cons.mpr ⟨last.1, nofun⟩⟩⟩, ?_⟩
      rw [codeOf, lead.2.2, upper.2, middle.2, last.2, low_bits, low_bits, low_bits]
      simp only [Nat.shiftLeft_eq, Nat.shiftRight_eq_div_pow]
      lia

theorem codes_encodeOn {code : Nat} (scalar : IsScalar code) :
    Codes decodeFrom encodeOn code := by
  by_cases ascii : code < 128
  · have same : encodeOn code = [UInt8.ofNat code] := if_pos ascii
    have value : (UInt8.ofNat code).toNat = code := by
      rw [UInt8.toNat_ofNat']
      lia
    have narrow : UInt8.ofNat code < 128 := by
      rw [UInt8.lt_iff_toNat_lt, value]
      exact ascii
    refine ⟨by simp [same], fun rest => ?_⟩
    rw [same]
    refine bind_eq_some.mpr ⟨UInt8.ofNat code, rest, rfl, ?_⟩
    rw [if_pos narrow, value]
    rfl
  · obtain ⟨first, bytes, same, large, lead, tails, value⟩ := encodeOn_of_large ascii scalar.lt
    refine ⟨by simp [same], ?_⟩
    rw [same]
    have read := reads_trailing large lead tails
    rwa [value] at read

/-- The bytes of a code are ASCII just when the code is. -/
theorem ascii_encodeOn {code : Nat} (scalar : IsScalar code) :
    (encodeOn code).all (· < 128) = decide (code < 128) := by
  by_cases ascii : code < 128
  · have same : encodeOn code = [UInt8.ofNat code] := if_pos ascii
    have value : (UInt8.ofNat code).toNat = code := by
      rw [UInt8.toNat_ofNat']
      lia
    have narrow : UInt8.ofNat code < 128 := by
      rw [UInt8.lt_iff_toNat_lt, value]
      exact ascii
    simp [same, narrow, ascii]
  · obtain ⟨first, bytes, same, large, _⟩ := encodeOn_of_large ascii scalar.lt
    simp only [same, List.all_cons, large, ascii, decide_false, Bool.false_and]

theorem flatMap_singletons {encoded : UInt8 → List UInt8} {bytes : List UInt8}
    (same : ∀ byte ∈ bytes, encoded byte = [byte]) : bytes.flatMap encoded = bytes := by
  induction bytes with
  | nil => rfl
  | cons byte bytes ih =>
    rw [List.flatMap_cons, same byte (List.mem_cons_self ..),
      ih fun other member => same other (List.mem_cons_of_mem _ member), List.singleton_append]

theorem encode_eq {text : Text} (scalar : ∀ code ∈ text.codes, IsScalar code) :
    encode text = text.codes.flatMap encodeOn := by
  cases text with
  | wideString longs => rfl
  | string bytes =>
    rw [encode]
    split
    · next ascii =>
      have same : ∀ byte ∈ bytes, encodeOn byte.toNat = [byte] := by
        intro byte member
        have small : byte.toNat < 128 := by
          have narrow : byte < 128 := by simpa using List.all_eq_true.mp ascii byte member
          simpa using UInt8.lt_iff_toNat_lt.mp narrow
        rw [encodeOn, if_pos small, UInt8.ofNat_toNat]
      rw [Text.codes, List.flatMap_map]
      exact (flatMap_singletons same).symm
    · rfl

theorem ascii_encode {codes : List Nat} (scalar : ∀ code ∈ codes, IsScalar code) :
    (codes.flatMap encodeOn).all (· ≤ 127) = codes.all (· < 128) := by
  have bound : ∀ byte : UInt8, decide (byte ≤ 127) = decide (byte < 128) := by
    intro byte
    rw [decide_eq_decide, UInt8.le_iff_toNat_le, UInt8.lt_iff_toNat_lt]
    exact Nat.lt_succ_iff.symm
  simp only [bound]
  induction codes with
  | nil => rfl
  | cons code codes ih =>
    rw [List.flatMap_cons, List.all_append, ascii_encodeOn (scalar code (List.mem_cons_self ..)),
      ih fun other member => scalar other (List.mem_cons_of_mem _ member), List.all_cons]

theorem encode_ascii {codes : List Nat} (ascii : ∀ code ∈ codes, code < 128) :
    (codes.flatMap encodeOn).map UInt8.toNat = codes := by
  induction codes with
  | nil => rfl
  | cons code codes ih =>
    have small := ascii code (List.mem_cons_self ..)
    have same : encodeOn code = [UInt8.ofNat code] := if_pos small
    rw [List.flatMap_cons, same, List.map_append,
      ih fun other member => ascii other (List.mem_cons_of_mem _ member), List.map_singleton,
      UInt8.toNat_ofNat', Nat.mod_eq_of_lt (by lia), List.singleton_append]

theorem length_encode (codes : List Nat) : codes.length ≤ (codes.flatMap encodeOn).length := by
  induction codes with
  | nil => exact Nat.le_refl 0
  | cons code codes ih =>
    have positive : 0 < (encodeOn code).length := by
      unfold encodeOn
      split_ifs <;> exact Nat.succ_pos _
    rw [List.flatMap_cons, List.length_append, List.length_cons]
    lia

end UTF8

/-- Decoding answers a string equal to the original one. -/
def Returns (decoded : Option Text) (text : Text) : Prop :=
  ∃ string, decoded = some string ∧ string.equals text = true

theorem returns_iff {decoded : Option Text} {string text : Text} (run : decoded = some string) :
    Returns decoded text ↔ string.codes = text.codes := by
  constructor
  · rintro ⟨other, found, same⟩
    cases run.symm.trans found
    exact of_decide_eq_true same
  · intro same
    exact ⟨string, run, decide_eq_true same⟩

theorem takeWhile_nonzero_iff (codes : List Nat) :
    codes.takeWhile (· ≠ 0) = codes ↔ 0 ∉ codes := by
  rw [List.takeWhile_eq_self_iff]
  constructor
  · intro nonzero member
    simpa using nonzero 0 member
  · intro absent code member
    have other : code ≠ 0 := fun zero => absent (zero ▸ member)
    exact decide_eq_true other

theorem asString_codes (bytes : List UInt8) :
    (asString bytes).codes = bytes.map UInt8.toNat ↔
      (bytes.map UInt8.toNat).getLast? ≠ some 0 := by
  rcases List.eq_nil_or_concat bytes with rfl | ⟨front, last, rfl⟩
  · simp [asString, Text.codes]
  · by_cases zero : last = 0
    · subst zero
      simp [asString, Text.codes]
    · have nonzero : last.toNat ≠ 0 := fun same => zero (UInt8.toNat_inj.mp same)
      simp [asString, Text.codes, zero, nonzero]

theorem utf8_returns_iff {text : Text} (scalar : ∀ code ∈ text.codes, IsScalar code) :
    Returns (UTF8.decode (UTF8.encode text)) text ↔
      if ∀ code ∈ text.codes, code < 128 then text.codes.getLast? ≠ some 0
      else 0 ∉ text.codes := by
  rw [UTF8.encode_eq scalar, UTF8.decode, UTF8.ascii_encode scalar]
  by_cases ascii : ∀ code ∈ text.codes, code < 128
  · have all : text.codes.all (· < 128) = true := by simpa using ascii
    rw [if_pos all, if_pos ascii, returns_iff rfl]
    have codes := UTF8.encode_ascii ascii
    have kept := asString_codes (text.codes.flatMap UTF8.encodeOn)
    rwa [codes] at kept
  · have some : ¬ text.codes.all (· < 128) = true := by simpa using ascii
    obtain ⟨decoded, run, codes⟩ := decodeStringFrom_codes
      (fun code member => UTF8.codes_encodeOn (scalar code member))
      (fun code member => Nat.lt_of_lt_of_le (scalar code member).lt (by decide))
      (UTF8.length_encode text.codes)
    rw [if_neg some, if_neg ascii, returns_iff run, codes]
    exact takeWhile_nonzero_iff text.codes

namespace UTF16

theorem putUnit_eq {unit : Nat} (small : unit < 0x10000) :
    ∃ low high : UInt8, putUnit unit = [low, high] ∧ low.toNat = unit % 256 ∧
      high.toNat = unit / 256 := by
  refine ⟨_, _, rfl, ?_, ?_⟩
  · have masked : unit &&& 0xFF = unit % 256 := Nat.and_two_pow_sub_one_eq_mod unit 8
    rw [masked, UInt8.toNat_ofNat']
    lia
  · rw [Nat.shiftRight_eq_div_pow, UInt8.toNat_ofNat']
    lia

/-- A unit that is no surrogate is a character. -/
theorem reads_unit {unit : Nat} (small : unit < 0x10000) (plain : unit < 0xD800 ∨ 0xDC00 ≤ unit) :
    Reads decodeFrom (putUnit unit) unit := by
  obtain ⟨low, high, same, lowBits, highBits⟩ := putUnit_eq small
  intro rest
  rw [same]
  refine bind_eq_some.mpr ⟨low, high :: rest, rfl, bind_eq_some.mpr ⟨high, rest, rfl, ?_⟩⟩
  have value : (low.toNat : Int) + (high.toNat <<< 8 : Nat) = unit := by
    rw [lowBits, highBits, Nat.shiftLeft_eq]
    lia
  rw [value]
  by_cases below : high < 0xD8
  · rw [if_pos below]
    rfl
  · have above : ¬ high.toNat < 0xD8 := fun less => below (UInt8.lt_iff_toNat_lt.mpr less)
    have other : ¬ (unit : Int) - 0xD800 < 0x400 := by lia
    have back : (high.toNat : Int) * 256 + low.toNat = unit := by lia
    rw [if_neg below]
    dsimp only
    rw [if_neg other, back]
    rfl

/-- A pair of surrogates carries ten bits in each unit. -/
theorem reads_pair {high low : Nat} (highSmall : high < 0x400) (lowSmall : low < 0x400) :
    Reads decodeFrom (putUnit (high + 0xD800) ++ putUnit (low + 0xDC00))
      (high * 0x400 + low + 0x10000 : Nat) := by
  obtain ⟨first, second, same, lowBits, highBits⟩ :=
    putUnit_eq (show high + 0xD800 < 0x10000 by lia)
  obtain ⟨third, fourth, sameLow, lowBits', highBits'⟩ :=
    putUnit_eq (show low + 0xDC00 < 0x10000 by lia)
  intro rest
  rw [same, sameLow]
  refine bind_eq_some.mpr ⟨first, second :: third :: fourth :: rest, rfl,
    bind_eq_some.mpr ⟨second, third :: fourth :: rest, rfl, ?_⟩⟩
  have value : (first.toNat : Int) + (second.toNat <<< 8 : Nat) = high + 0xD800 := by
    rw [lowBits, highBits, Nat.shiftLeft_eq]
    lia
  have lowValue : ((fourth.toNat <<< 8 : Nat) : Int) - 0xDC00 + third.toNat = low := by
    rw [lowBits', highBits', Nat.shiftLeft_eq]
    lia
  have above : ¬ second < 0xD8 := by
    rw [UInt8.lt_iff_toNat_lt, highBits]
    show ¬ _ < 0xD8
    lia
  have surrogate : (high : Int) + 0xD800 - 0xD800 < 0x400 := by lia
  rw [value, if_neg above]
  dsimp only
  rw [if_pos surrogate]
  refine bind_eq_some.mpr ⟨third, fourth :: rest, rfl,
    bind_eq_some.mpr ⟨fourth, rest, rfl, ?_⟩⟩
  have total : (high : Int) * 0x400 + 0x10000 + low =
      ((high * 0x400 + low + 0x10000 : Nat) : Int) := by lia
  have start : (high : Int) + 0xD800 - 0xD800 = high := by lia
  rw [lowValue, start, total]
  rfl

/-- The units of a code, where there are any. -/
def units (code : Nat) : List UInt8 :=
  (encodeOn code).getD []

theorem encodeOn_eq {code : Nat} (scalar : IsScalar code) : encodeOn code = some (units code) := by
  have small := scalar.lt
  unfold IsScalar at scalar
  unfold units encodeOn
  split_ifs
  · rfl
  · rfl
  · lia
  · rfl
  · rfl

theorem codes_units {code : Nat} (scalar : IsScalar code) : Codes decodeFrom units code := by
  have small := scalar.lt
  unfold IsScalar at scalar
  by_cases ascii : code < 128
  · have same : units code = [UInt8.ofNat code, 0] := by rw [units, encodeOn, if_pos ascii]; rfl
    have plain : putUnit code = [UInt8.ofNat code, 0] := by
      have masked : code &&& 0xFF = code := by
        rw [Nat.and_two_pow_sub_one_eq_mod code 8]
        lia
      have shifted : code >>> 8 = 0 := by
        rw [Nat.shiftRight_eq_div_pow]
        lia
      rw [putUnit, masked, shifted]
      rfl
    refine ⟨by simp [same], ?_⟩
    rw [same, ← plain]
    exact reads_unit (by lia) (by lia)
  · by_cases basic : code < 0x10000
    · have same : units code = putUnit code := by
        unfold units encodeOn
        rw [if_neg ascii]
        by_cases low : code < 0xD800
        · rw [if_pos low]
          rfl
        · rw [if_neg low, if_neg (by lia), if_pos basic]
          rfl
      refine ⟨by simp [same, putUnit], ?_⟩
      rw [same]
      exact reads_unit basic (by lia)
    · have same : units code = putUnit ((code - 0x10000) >>> 10 + 0xD800) ++
          putUnit (((code - 0x10000) &&& 0x3FF) + 0xDC00) := by
        rw [units, encodeOn, if_neg ascii, if_neg (by lia), if_neg (by lia), if_neg basic,
          if_pos small]
        rfl
      have high : (code - 0x10000) >>> 10 = (code - 0x10000) / 0x400 :=
        Nat.shiftRight_eq_div_pow _ _
      have low : (code - 0x10000) &&& 0x3FF = (code - 0x10000) % 0x400 :=
        Nat.and_two_pow_sub_one_eq_mod _ 10
      have read := @reads_pair ((code - 0x10000) / 0x400) ((code - 0x10000) % 0x400)
        (by lia) (by lia)
      have value : (code - 0x10000) / 0x400 * 0x400 + (code - 0x10000) % 0x400 + 0x10000 = code := by
        lia
      rw [value] at read
      refine ⟨by simp [same, putUnit], ?_⟩
      rw [same, high, low]
      exact read

theorem mapM_encodeOn {codes : List Nat} (scalar : ∀ code ∈ codes, IsScalar code) :
    codes.mapM encodeOn = some (codes.map units) := by
  induction codes with
  | nil => rfl
  | cons code codes ih =>
    rw [List.mapM_cons, encodeOn_eq (scalar code (List.mem_cons_self ..)),
      ih fun other member => scalar other (List.mem_cons_of_mem _ member)]
    rfl

theorem encode_eq {text : Text} (scalar : ∀ code ∈ text.codes, IsScalar code) :
    encode text = some (text.codes.flatMap units) := by
  rw [encode, mapM_encodeOn scalar]
  rfl

/-- No character takes less than two bytes. -/
theorem length_units {code : Nat} (scalar : IsScalar code) : 2 ≤ (units code).length := by
  have small := scalar.lt
  unfold IsScalar at scalar
  unfold units encodeOn
  split_ifs
  · exact Nat.le_refl 2
  · exact Nat.le_refl 2
  · lia
  · exact Nat.le_refl 2
  · exact Nat.le_add_left 2 2

theorem length_encode {codes : List Nat} (scalar : ∀ code ∈ codes, IsScalar code) :
    codes.length ≤ (codes.flatMap units).length / 2 := by
  induction codes with
  | nil => exact Nat.le_refl 0
  | cons code codes ih =>
    have first := length_units (scalar code (List.mem_cons_self ..))
    have others := ih fun other member => scalar other (List.mem_cons_of_mem _ member)
    rw [List.flatMap_cons, List.length_append, List.length_cons]
    lia

end UTF16

theorem utf16_returns_iff {text : Text} (scalar : ∀ code ∈ text.codes, IsScalar code) :
    Returns ((UTF16.encode text).bind UTF16.decode) text ↔ 0 ∉ text.codes := by
  obtain ⟨decoded, run, codes⟩ := decodeStringFrom_codes
    (fun code member => UTF16.codes_units (scalar code member))
    (fun code member => Nat.lt_of_lt_of_le (scalar code member).lt (by decide))
    (UTF16.length_encode scalar)
  rw [UTF16.encode_eq scalar, Option.bind_some, UTF16.decode, returns_iff run, codes]
  exact takeWhile_nonzero_iff text.codes

section Totality

variable {decodeFrom : Reader Int}

/-- A decoder that reads a code from every stream that has not ended. -/
def Total (decodeFrom : Reader Int) : Prop :=
  ∀ stream ≠ [], ∃ (code : Nat) (rest : List UInt8),
    decodeFrom stream = some ((code : Int), rest) ∧ code < 2 ^ 32

theorem decodeInto_total (total : Total decodeFrom) {room index : Nat} {stream : List UInt8}
    {bytes : Bool} {string : Text} (size : string.size = index + room)
    (prepared : Prepared bytes string) :
    ∃ decoded, decodeInto decodeFrom room stream bytes string index = some decoded := by
  induction room generalizing stream bytes string index with
  | zero => exact ⟨_, rfl⟩
  | succ room ih =>
    rw [decodeInto]
    by_cases ended : stream = []
    · exact ⟨_, if_pos ended⟩
    · obtain ⟨code, rest, read, fits⟩ := total stream ended
      rw [if_neg ended, read]
      dsimp only
      by_cases zero : (code : Int) = 0
      · rw [if_pos zero]
        exact ⟨_, rfl⟩
      · obtain ⟨stored, put, stores, widened⟩ := atPutCode_widened prepared
          (show index < string.size by lia) fits
        have storedSize : stored.size = string.size := by
          rw [Text.size, stores, List.length_set, Text.size]
        rw [if_neg zero, put]
        exact ih (by lia) widened

theorem decodeStringFrom_total (total : Total decodeFrom) (stream : List UInt8) (length : Nat) :
    (decodeStringFrom decodeFrom stream length).isSome = true := by
  have size : (Text.new length).size = 0 + length := by
    rw [Text.size, Text.codes_new, List.length_replicate, Nat.zero_add]
  obtain ⟨⟨string, index⟩, run⟩ := @decodeInto_total decodeFrom total length 0 stream true _ size
    (fun off => absurd off (by decide))
  have result : decodeStringFrom decodeFrom stream length =
      if index < string.size then some (string.copyTo index) else some string := by
    rw [decodeStringFrom, run]
    rfl
  rw [result]
  split <;> rfl

end Totality

namespace UTF8

theorem codeOf_lt (first : UInt8) (bytes : List UInt8) : codeOf first.toNat bytes < 2 ^ 32 := by
  have small := first.toNat_lt
  unfold codeOf
  split
  · have lead : first.toNat &&& 0x1F ≤ 0x1F := Nat.and_le_right
    have last := low_lt
    next second =>
      have := low_lt second.toNat
      rw [Nat.shiftLeft_eq]
      lia
  · next second third =>
    have lead : first.toNat &&& 0xF ≤ 0xF := Nat.and_le_right
    have := low_lt second.toNat
    have := low_lt third.toNat
    simp only [Nat.shiftLeft_eq]
    lia
  · next second third fourth =>
    have lead : first.toNat &&& 7 ≤ 7 := Nat.and_le_right
    have := low_lt second.toNat
    have := low_lt third.toNat
    have := low_lt fourth.toNat
    simp only [Nat.shiftLeft_eq]
    lia
  · lia

/-- Bytes that start no character are read as codes of their own. -/
theorem decodeFrom_total : Total decodeFrom := by
  intro stream more
  obtain ⟨first, rest, rfl⟩ := List.exists_cons_of_ne_nil more
  have small : first.toNat < 2 ^ 32 := Nat.lt_trans first.toNat_lt (by decide)
  have start {run : UInt8 → Reader Int} {code : Nat} {left : List UInt8}
      (follows : run first rest = some ((code : Int), left)) :
      (Reader.byte >>= run) (first :: rest) = some ((code : Int), left) :=
    bind_eq_some.mpr ⟨first, rest, rfl, follows⟩
  by_cases ascii : first < 128
  · exact ⟨first.toNat, rest, start (by rw [if_pos ascii]; rfl), small⟩
  · cases lead : trailing (first &&& 0xF8) with
    | none => exact ⟨first.toNat, rest, start (by rw [if_neg ascii, lead]; rfl), small⟩
    | some count =>
      have peeked {run : List UInt8 → Reader Int} {code : Nat} {left : List UInt8}
          (follows : run (rest.take count) rest = some ((code : Int), left)) :
          (peek count >>= run) rest = some ((code : Int), left) :=
        bind_eq_some.mpr ⟨rest.take count, rest, rfl, follows⟩
      by_cases short : (rest.take count).length < count
      · refine ⟨first.toNat, rest, start ?_, small⟩
        rw [if_neg ascii, lead]
        exact peeked (by rw [if_pos short]; rfl)
      · by_cases tails : (rest.take count).all (· &&& 0xC0 = 0x80) = true
        · refine ⟨codeOf first.toNat (rest.take count), rest.drop count, start ?_, codeOf_lt _ _⟩
          rw [if_neg ascii, lead]
          refine peeked ?_
          rw [if_neg short, if_pos tails]
          rfl
        · refine ⟨first.toNat, rest, start ?_, small⟩
          rw [if_neg ascii, lead]
          refine peeked ?_
          rw [if_neg short, if_neg tails]
          rfl

theorem decode_total (bytes : List UInt8) : (decode bytes).isSome = true := by
  rw [decode]
  split
  · rfl
  · exact decodeStringFrom_total decodeFrom_total bytes bytes.length

end UTF8

/-- A string comes back from both codecs unless it has a zero; what UTF8 accepts decodes. -/
theorem codecs_return_iff {text : Text} (scalar : ∀ code ∈ text.codes, IsScalar code) :
    (Returns (UTF8.decode (UTF8.encode text)) text ∧
      Returns ((UTF16.encode text).bind UTF16.decode) text ↔ 0 ∉ text.codes) ∧
    ∀ bytes, UTF8.accepts bytes = true → (UTF8.decode bytes).isSome = true := by
  refine ⟨?_, fun bytes _ => UTF8.decode_total bytes⟩
  rw [utf8_returns_iff scalar, utf16_returns_iff scalar]
  constructor
  · exact fun kept => kept.2
  · intro absent
    refine ⟨?_, absent⟩
    split
    · exact fun last => absent (List.mem_of_getLast? last)
    · exact absent

theorem codecs_return_iff_of_clef : Returns (UTF8.decode (UTF8.encode (.wideString [0x1D11E, 97])))
      (.wideString [0x1D11E, 97]) ∧
    Returns ((UTF16.encode (.wideString [0x1D11E, 97])).bind UTF16.decode)
      (.wideString [0x1D11E, 97]) := by
  have scalar : ∀ code ∈ (Text.wideString [0x1D11E, 97]).codes, IsScalar code := by
    unfold IsScalar
    decide
  exact (codecs_return_iff scalar).1.mpr (by decide)

/-- The letter A, a zero and the letter B. -/
theorem codecs_lose_zero : ¬ ∀ text : Text, (∀ code ∈ text.codes, IsScalar code) →
    Returns (UTF8.decode (UTF8.encode text)) text ∧
      Returns ((UTF16.encode text).bind UTF16.decode) text := by
  intro always
  have scalar : ∀ code ∈ (Text.string [65, 0, 66]).codes, IsScalar code := by
    unfold IsScalar
    decide
  have absent := (utf16_returns_iff scalar).mp (always (.string [65, 0, 66]) scalar).2
  exact absent (by decide)

end Egg.Unicode
