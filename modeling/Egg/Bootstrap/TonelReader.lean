import Egg.Data.FiniteMap
import Egg.Data.Fuel
import Mathlib.Data.List.DropRight

/-! The reader of classes in the Tonel format, over the text that is left to read. -/
namespace Egg.Bootstrap

open Egg.Data

/-- A `string` of the code: a list of `char32_t`. -/
abbrev Text := List Nat

/-- The characters of a literal of the code. -/
def text (literal : String) : Text := literal.toList.map Char.toNat

def ascii (literal : String) : List UInt8 := literal.toList.map fun c => UInt8.ofNat c.toNat

section Strings

/-- The bits of a first byte, and the number of bytes that it announces. -/
def firstByte (first : Nat) : Nat × Nat :=
  if first &&& 0x80 = 0 then (first, 1)
  else if first &&& 0xE0 = 0xC0 then (first &&& 0x1F, 2)
  else if first &&& 0xF0 = 0xE0 then (first &&& 0x0F, 3)
  else if first &&& 0xF8 = 0xF0 then (first &&& 0x07, 4)
  else (first, 1)

/-- The bytes that belong to a character already read are passed over. -/
def fromUtf8From : (passed : Nat) → List UInt8 → Text
  | _, [] => []
  | passed + 1, _ :: bytes => fromUtf8From passed bytes
  | 0, first :: bytes =>
    let (start, count) := firstByte first.toNat
    let character := (bytes.take (count - 1)).foldl
      (fun cp byte => cp <<< 6 ||| (byte.toNat &&& 0x3F)) start
    character :: fromUtf8From (count - 1) bytes

def fromUtf8 (bytes : List UInt8) : Text := fromUtf8From 0 bytes

def toUtf8 (string : Text) : List UInt8 :=
  string.flatMap fun cp =>
    if cp < 0x80 then [UInt8.ofNat cp]
    else if cp < 0x800 then
      [UInt8.ofNat (0xC0 ||| cp >>> 6), UInt8.ofNat (0x80 ||| (cp &&& 0x3F))]
    else if cp < 0x10000 then
      [UInt8.ofNat (0xE0 ||| cp >>> 12), UInt8.ofNat (0x80 ||| (cp >>> 6 &&& 0x3F)),
        UInt8.ofNat (0x80 ||| (cp &&& 0x3F))]
    else if cp < 0x110000 then
      [UInt8.ofNat (0xF0 ||| cp >>> 18), UInt8.ofNat (0x80 ||| (cp >>> 12 &&& 0x3F)),
        UInt8.ofNat (0x80 ||| (cp >>> 6 &&& 0x3F)), UInt8.ofNat (0x80 ||| (cp &&& 0x3F))]
    else []

/-- The text before and after the first place where this one is found. -/
def find (sought : Text) : Text → Option (Text × Text)
  | [] => none
  | c :: rest =>
    if sought.isPrefixOf (c :: rest) then some ([], (c :: rest).drop sought.length)
    else (find sought rest).map fun (before, after) => (c :: before, after)

end Strings

section Specs

structure MethodSpec where
  source : Text
  category : Text
  deriving DecidableEq

structure SpeciesSpec where
  instVarNames : List Text
  methods : List MethodSpec
  deriving DecidableEq

def SpeciesSpec.addMethod (species : SpeciesSpec) (method : MethodSpec) : SpeciesSpec :=
  { species with methods := species.methods ++ [method] }

structure ClassSpec extends SpeciesSpec where
  name : Text
  supername : Text
  metaclass : SpeciesSpec
  isVariable : Bool
  isPointers : Bool
  isExtension : Bool
  classVarNames : List Text
  comment : Text
  deriving DecidableEq

/-- The message of an exception, and the text that was left when it was thrown. -/
structure ParseError where
  message : List UInt8
  left : Text
  deriving DecidableEq

end Specs

section Literals

def isSpace (c : Nat) : Bool := c = ' '.toNat || c = '\t'.toNat

def isNewline (c : Nat) : Bool := c = '\n'.toNat || c = '\r'.toNat

def isSeparator (c : Nat) : Bool := isSpace c || isNewline c

def skipSeparators (text : Text) : Text := text.dropWhile isSeparator

/-- Skip until an occurrence that is not doubled. -/
def skipToMatch (quote : Nat) : Text → Text
  | [] => []
  | c :: rest =>
    if c = quote then
      match rest with
      | [] => []
      | d :: more => if d = quote then skipToMatch quote more else rest
    else skipToMatch quote rest

/-- The rest of a string, where a doubled quote stands for one. -/
def stringBody : Text → Text × Text
  | [] => ([], [])
  | c :: rest =>
    if c = '\''.toNat then
      match rest with
      | [] => ([], [])
      | d :: more =>
        if d = '\''.toNat then
          let (string, after) := stringBody more
          ('\''.toNat :: string, after)
        else ([], rest)
    else
      let (string, after) := stringBody rest
      (c :: string, after)

def parseSTONString (text : Text) : Text × Text := stringBody (text.drop 1)

def inWord (c : Nat) : Bool :=
  !isSeparator c && !(c = ','.toNat || c = '}'.toNat || c = ':'.toNat)

def inSymbol (c : Nat) : Bool := inWord c && c ≠ ']'.toNat

def parseSTONSymbol (text : Text) : Text × Text :=
  let text := text.drop 1
  if text.head? = some '\''.toNat then parseSTONString text
  else (text.takeWhile inSymbol, text.dropWhile inSymbol)

/-- Pass over this character, if it comes next. -/
def skipOptional (c : Char) (text : Text) : Text :=
  let text := skipSeparators text
  if text.head? = some c.toNat then text.drop 1 else text

end Literals

section Values

mutual

def parseSTONValue : Nat → Text → Option (Text × Text)
  | 0, _ => none
  | fuel + 1, input =>
    match skipSeparators input with
    | [] => some ([], [])
    | c :: rest =>
      if c = '#'.toNat then some (parseSTONSymbol (c :: rest))
      else if c = '\''.toNat then some (parseSTONString (c :: rest))
      else if c = '['.toNat then
        (parseSTONArray fuel [] rest).map fun (arr, after) =>
          ((text ",").intercalate arr, after)
      else some ((c :: rest).takeWhile inWord, (c :: rest).dropWhile inWord)

/-- The loop over the elements, once the bracket is passed. -/
def parseSTONArray : Nat → (arr : List Text) → Text → Option (List Text × Text)
  | 0, _, _ => none
  | fuel + 1, arr, input =>
    match skipSeparators input with
    | [] => some (arr, [])
    | c :: rest =>
      if c = ']'.toNat then some (arr, rest)
      else (parseSTONValue fuel (c :: rest)).bind fun (element, after) =>
        parseSTONArray fuel (arr ++ [element]) (skipOptional ',' after)

end

/-- A key and a value, with the marks that may stand after them. -/
def mapEntry (fuel : Nat) (input : Text) : Option ((Text × Text) × Text) :=
  (parseSTONValue fuel input).bind fun (key, after) =>
    (parseSTONValue fuel (skipSeparators (skipOptional ':' after))).map fun (value, after) =>
      ((key, value), skipOptional ',' after)

abbrev Fields := List (Text × Text)

def Fields.put (fields : Fields) (key value : Text) : Fields :=
  FiniteMap.put (· == ·) fields key value

def Fields.at? (fields : Fields) (key : String) : Option Text :=
  FiniteMap.lookup (· == ·) fields (text key)

/-- The loop over the entries, once the brace is passed. -/
def mapEntries : Nat → (map : Fields) → Text → Option (Fields × Text)
  | 0, _, _ => none
  | fuel + 1, map, input =>
    match skipSeparators input with
    | [] => some (map, [])
    | c :: rest =>
      if c = '}'.toNat then some (map, rest)
      else (mapEntry fuel (c :: rest)).bind fun (entry, after) =>
        mapEntries fuel (map.put entry.1 entry.2) after

def parseSTONMap (fuel : Nat) (input : Text) : Option (Fields × Text) :=
  match skipSeparators input with
  | [] => some ([], [])
  | c :: rest => if c = '{'.toNat then mapEntries fuel [] rest else some ([], c :: rest)

end Values

section Methods

/-- How deep the brackets are, the character before, and the text that is left. -/
structure Block where
  nested : Nat
  prev : Nat
  left : Text

namespace Block

def turn (block : Block) : Block :=
  match block.left with
  | [] => block
  | ch :: rest =>
    if block.prev = '$'.toNat then { block with prev := 0, left := rest }
    else if ch = '['.toNat then ⟨block.nested + 1, ch, rest⟩
    else if ch = ']'.toNat then ⟨block.nested - 1, ch, rest⟩
    else if ch = '\''.toNat ∨ ch = '"'.toNat then ⟨block.nested, ch, skipToMatch ch rest⟩
    else ⟨block.nested, ch, rest⟩

def done (block : Block) : Bool := block.nested = 0 || block.left = []

end Block

/-- The body up to the bracket that matches, without the newlines around it. -/
def nextBlock (fuel : Nat) (input : Text) : Option (Except ParseError (Text × Text)) :=
  let start := input.dropWhile isNewline
  (loop Block.done (fun _ block => some block.turn) fuel ⟨1, 0, start⟩).map fun block =>
    if block.nested = 0 then
      let body := start.take (start.length - block.left.length - 1)
      .ok (body.rdropWhile fun c => isNewline c || c = '\t'.toNat, block.left)
    else .error ⟨ascii "unterminated method body", block.left⟩

/-- What stands before the body of a method. -/
structure Heading where
  metadata : Fields
  isClassSide : Bool
  signature : Text

def isClassSide (className : Text) : Bool :=
  6 < className.length && (className.rtake 5 = text "class" &&
    (className.length = 5 || className[className.length - 6]? = some ' '.toNat))

/-- The heading of a method, unless a mark in it is missing. -/
def methodHeading (fuel : Nat) (input : Text) : Option (Option Heading × Text) :=
  (parseSTONMap fuel (skipSeparators input)).map fun (metadata, after) =>
    let after := skipSeparators after
    match find (text " >> ") after with
    | none => (none, after)
    | some (className, after) =>
      match find (text "[") after with
      | none => (none, after)
      | some (signature, after) =>
        (some
          { metadata
            isClassSide := isClassSide (className.rdropWhile isSpace)
            signature := (signature.rdropWhile isSeparator).dropWhile isSeparator }, after)

/-- The next method and whether it is on the class side, if its marks are there. -/
def nextMethod (fuel : Nat) (input : Text) :
    Option (Except ParseError (Option (Bool × MethodSpec) × Text)) :=
  (methodHeading fuel input).bind fun
    | (none, after) => some (.ok (none, after))
    | (some heading, after) => (nextBlock fuel after).map fun
      | .error error => .error error
      | .ok (body, after) =>
        .ok (some (heading.isClassSide,
          { source := heading.signature ++ text "\n\t" ++ body
            category := (heading.metadata.at? "category").getD [] }), after)

namespace ClassSpec

def addMethod (spec : ClassSpec) : Option (Bool × MethodSpec) → ClassSpec
  | none => spec
  | some (true, method) => { spec with metaclass := spec.metaclass.addMethod method }
  | some (false, method) => { spec with toSpeciesSpec := spec.toSpeciesSpec.addMethod method }

end ClassSpec

def readMethod (fuel : Nat) (spec : ClassSpec) (input : Text) :
    Option (Except ParseError (ClassSpec × Text)) :=
  (nextMethod fuel input).map fun
    | .error error => .error error
    | .ok (method, after) => .ok (spec.addMethod method, after)

def readMethods : Nat → ClassSpec → Text → Option (Except ParseError ClassSpec)
  | 0, _, _ => none
  | fuel + 1, spec, input =>
    match skipSeparators input with
    | [] => some (.ok spec)
    | c :: rest =>
      (readMethod fuel spec (c :: rest)).bind fun
        | .error error => some (.error error)
        | .ok (spec, after) => readMethods fuel spec after

end Methods

section Files

def readComments (input : Text) : Text × Text :=
  match skipSeparators input with
  | [] => ([], [])
  | c :: rest =>
    if c = '"'.toNat then
      let after := skipToMatch '"'.toNat rest
      (rest.take (rest.length - after.length - 1), after)
    else ([], c :: rest)

def inType (c : Nat) : Bool :=
  ('A'.toNat ≤ c && c ≤ 'Z'.toNat) || ('a'.toNat ≤ c && c ≤ 'z'.toNat) ||
    ('0'.toNat ≤ c && c ≤ '9'.toNat)

def readType (input : Text) : Text × Text :=
  let input := skipSeparators input
  (input.takeWhile inType, input.dropWhile inType)

def readDefinition (fuel : Nat) (input : Text) : Option (Fields × Text) :=
  parseSTONMap fuel (skipSeparators input)

/-- The names between the commas. -/
def splitNames (csv : Text) : List Text :=
  (csv.splitOn ','.toNat).filter (· ≠ [])

/-- The class that a definition describes, before its methods are read. -/
def specOf (comment type : Text) (fields : Fields) : ClassSpec where
  name := (fields.at? "name").getD []
  supername := if type = text "Class" then (fields.at? "superclass").getD [] else []
  isExtension := type = text "Extension"
  isVariable := fields.at? "type" = some (text "variable") ||
    fields.at? "type" = some (text "bytes")
  isPointers := fields.at? "type" ≠ some (text "bytes")
  instVarNames := ((fields.at? "instVars").map splitNames).getD []
  classVarNames := ((fields.at? "classVars").map splitNames).getD []
  comment := comment
  methods := []
  metaclass :=
    { instVarNames := ((fields.at? "classInstVars").map splitNames).getD []
      methods := [] }

/-- The message of an exception, with the line and the column that were reached. -/
def parseError (source : Text) (filename : List UInt8) (error : ParseError) : List UInt8 :=
  let passed := source.take (source.length - error.left.length)
  let line := 1 + passed.count '\n'.toNat
  let col := 1 + (passed.rtakeWhile (· ≠ '\n'.toNat)).length
  (if filename = [] then ascii "<unknown>" else filename) ++ ascii ":" ++ ascii (toString line) ++
    ascii ":" ++ ascii (toString col) ++ ascii ": " ++ error.message

def isKnown (type : Text) : Bool := type = text "Extension" || type = text "Class"

/-- A class, or the message of the exception that is thrown. -/
def parseFile (fuel : Nat) (utf8Source filename : List UInt8) :
    Option (Except (List UInt8) ClassSpec) :=
  let source := fromUtf8 utf8Source
  let (comment, input) := readComments source
  let (type, input) := readType input
  (readDefinition fuel input).bind fun (fields, input) =>
    if isKnown type then
      (readMethods fuel (specOf comment type fields) input).map
        (Except.mapError (parseError source filename))
    else some (.error (parseError source filename
      ⟨ascii "Unknown Tonel type: " ++ toUtf8 type, input⟩))

end Files

end Egg.Bootstrap
