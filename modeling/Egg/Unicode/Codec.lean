import Egg.Data.Reader
import Egg.Unicode.Text

/-! The encoders and decoders of strings. -/
namespace Egg.Unicode

open Egg.Data

/-- The codes that are the same in a string of bytes. -/
def isAnsi (code : Int) : Bool :=
  if code < 128 then true else if 255 < code then false else 159 < code

/-- The next bytes of a stream, as many as there are. -/
def peek (count : Nat) : Reader (List UInt8) :=
  fun bytes => some (bytes.take count, bytes)

def skip (count : Nat) : Reader Unit :=
  fun bytes => some ((), bytes.drop count)

/-- Decode characters until the stream ends, the code is zero or the string is full. -/
def decodeInto (decodeFrom : Reader Int) : (room : Nat) → List UInt8 → (bytes : Bool) → Text →
    (index : Nat) → Option (Text × Nat)
  | 0, _, _, string, index => some (string, index)
  | room + 1, stream, bytes, string, index =>
    if stream = [] then some (string, index) else
      match decodeFrom stream with
      | none => none
      | some (code, rest) =>
        let widen := bytes && !isAnsi code
        let string := if widen then string.asWideString else string
        if code = 0 then some (string, index) else
          match string.atPutCode (index + 1) code with
          | none => none
          | some string => decodeInto decodeFrom room rest (bytes && !widen) string (index + 1)

def decodeStringFrom (decodeFrom : Reader Int) (stream : List UInt8) (length : Nat) :
    Option Text := do
  let (string, index) ← decodeInto decodeFrom length stream true (Text.new length) 0
  if index < string.size then some (string.copyTo index) else some string

/-- The bytes as a string; a zero at their end is left out. -/
def asString (bytes : List UInt8) : Text :=
  .string (if bytes.getLast? = some 0 then bytes.dropLast else bytes)

namespace UTF8

def encodeOn (code : Nat) : List UInt8 :=
  if code < 128 then [UInt8.ofNat code]
  else if code < 0x800 then
    [UInt8.ofNat (code >>> 6 ||| 0xC0), UInt8.ofNat (code &&& 0x3F ||| 0x80)]
  else if code < 0x10000 then
    [UInt8.ofNat (code >>> 12 ||| 0xE0), UInt8.ofNat (code >>> 6 &&& 0x3F ||| 0x80),
      UInt8.ofNat (code &&& 0x3F ||| 0x80)]
  else
    [UInt8.ofNat (code >>> 18 ||| 0xF0), UInt8.ofNat (code >>> 12 &&& 0x3F ||| 0x80),
      UInt8.ofNat (code >>> 6 &&& 0x3F ||| 0x80), UInt8.ofNat (code &&& 0x3F ||| 0x80)]

def encode (text : Text) : List UInt8 :=
  match text with
  | .string bytes =>
    if bytes.all (· < 128) then bytes else text.codes.flatMap encodeOn
  | .wideString _ => text.codes.flatMap encodeOn

def trailing (byte : UInt8) : Option Nat :=
  if byte &&& 0xE0 = 0xC0 then some 1
  else if byte &&& 0xF0 = 0xE0 then some 2
  else if byte &&& 0xF8 = 0xF0 then some 3
  else none

/-- The code that a first byte and the bytes that follow it stand for. -/
def codeOf (first : Nat) : List UInt8 → Nat
  | [second] => (first &&& 0x1F) <<< 6 + (second.toNat &&& 0x3F)
  | [second, third] =>
    (first &&& 0xF) <<< 12 + (second.toNat &&& 0x3F) <<< 6 + (third.toNat &&& 0x3F)
  | [second, third, fourth] =>
    (first &&& 7) <<< 18 + (second.toNat &&& 0x3F) <<< 12 + (third.toNat &&& 0x3F) <<< 6 +
      (fourth.toNat &&& 0x3F)
  | _ => first

/-- The next code; a byte that starts no character stands for itself. -/
def decodeFrom : Reader Int := do
  let first ← Reader.byte
  if first < 128 then pure first.toNat
  else
    match trailing (first &&& 0xF8) with
    | none => pure first.toNat
    | some count =>
      let bytes ← peek count
      if bytes.length < count then pure first.toNat
      else if bytes.all (· &&& 0xC0 = 0x80) then
        skip count
        pure (codeOf first.toNat bytes)
      else pure first.toNat

def decode (bytes : List UInt8) : Option Text :=
  if bytes.all (· ≤ 127) then some (asString bytes)
  else decodeStringFrom decodeFrom bytes bytes.length

def sizeOfEncoding (code : UInt8) : Nat :=
  if code < 0x80 then 1
  else if code < 0xC0 then 0
  else if code < 0xE0 then 2
  else if code < 0xF0 then 3
  else if code < 0xF8 then 4
  else 0

/-- Whether the bytes are whole characters; `missing` bytes of the last one are still to come. -/
def acceptsFrom (missing : Nat) : List UInt8 → Bool
  | [] => missing = 0
  | byte :: bytes =>
    match missing with
    | 0 => sizeOfEncoding byte ≠ 0 && acceptsFrom (sizeOfEncoding byte - 1) bytes
    | missing + 1 => byte &&& 0xC0 = 0x80 && acceptsFrom missing bytes

def accepts (bytes : List UInt8) : Bool :=
  acceptsFrom 0 bytes

end UTF8

namespace UTF16

/-- The two bytes of a unit, the low one first. -/
def putUnit (unit : Nat) : List UInt8 :=
  [UInt8.ofNat (unit &&& 0xFF), UInt8.ofNat (unit >>> 8)]

def encodeOn (code : Nat) : Option (List UInt8) :=
  if code < 128 then some [UInt8.ofNat code, 0]
  else if code < 0xD800 then some (putUnit code)
  else if code < 0xE000 then none
  else if code < 0x10000 then some (putUnit code)
  else if code < 0x110000 then
    let c20 := code - 0x10000
    some (putUnit (c20 >>> 10 + 0xD800) ++ putUnit ((c20 &&& 0x3FF) + 0xDC00))
  else none

def encode (text : Text) : Option (List UInt8) := do
  let units ← text.codes.mapM encodeOn
  pure units.flatten

def decodeFrom : Reader Int := do
  let b1 ← Reader.byte
  let b2 ← Reader.byte
  let hi : Int := b1.toNat + b2.toNat <<< 8
  if b2 < 0xD8 then pure hi
  else
    let hi := hi - 0xD800
    if hi < 0x400 then
      let hi := hi * 0x400 + 0x10000
      let b3 ← Reader.byte
      let b4 ← Reader.byte
      let lo : Int := b4.toNat <<< 8 - 0xDC00 + b3.toNat
      pure (hi + lo)
    else pure (b2.toNat * 256 + b1.toNat)

def decode (bytes : List UInt8) : Option Text :=
  decodeStringFrom decodeFrom bytes (bytes.length / 2)

end UTF16

end Egg.Unicode
