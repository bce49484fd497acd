import Egg.Treecode.Encoder

/-! Reading the treecodes of a method against its literal frame. -/
namespace Egg.Treecode

open Egg.Data

/-- A 64-bit integer from its bytes, most significant first. -/
def bigInteger (bytes : List UInt8) : Int :=
  let value := bytes.foldl (fun (value : Nat) byte => value * 256 + byte.toNat) 0
  if value < 2 ^ 63 then value else value - 2 ^ 64

def nextInteger : Reader Int := do
  let value ← Reader.byte
  if value = 128 then
    let bytes ← Reader.byte.times 8
    pure (bigInteger bytes)
  else pure (if value ≤ 127 then value.toNat else value.toNat - 256)

def nextBoolean : Reader Bool := do
  let value ← Reader.byte
  pure (value = 1)

def nextArray : Reader (List Int) := do
  let count ← nextInteger
  let bytes ← Reader.byte.times count.toNat
  pure (bytes.map fun byte => byte.toNat)

/-- A count that room is reserved for; there is none for a negative one. -/
def nextCount : Reader Nat := do
  let count ← nextInteger
  if count < 0 then Reader.fail else pure count.toNat

def instackEnvironment : Int := -2

def nextEnvironment : Reader Int := do
  let value ← nextInteger
  pure (if value ≠ -2 then value else instackEnvironment)

def SExpression.asIdentifier : SExpression → Option SBinding
  | .identifier binding => some binding
  | _ => none

section

variable (literals : Literals)

def literalAt (index : Int) : Reader LiteralValue :=
  Reader.ofOption (literals.literalAt index)

def nextSymbol : Reader LiteralValue := do
  let index ← nextInteger
  literalAt literals index

def nextSymbolOrNil : Reader (Option LiteralValue) := do
  let index ← nextInteger
  if index ≠ 0 then
    let symbol ← literalAt literals index
    pure (some symbol)
  else pure none

def decodeBinding (id : Int) : Reader SBinding :=
  match id with
  | 1 => pure .nil
  | 2 => pure .true
  | 3 => pure .false
  | 6 => pure .self
  | 7 => pure .super
  | 4 => do
    let index ← nextInteger
    let environment ← nextEnvironment
    pure (.argument index environment)
  | 5 => do
    let index ← nextInteger
    let environment ← nextEnvironment
    pure (.temporary index environment)
  | 14 => do
    let symbol ← nextSymbol literals
    pure (.dynamic symbol)
  | 15 => do
    let symbol ← nextSymbol literals
    pure (.nestedDynamic symbol)
  | _ => Reader.fail

def decodeIdentifier : Reader SExpression := do
  let id ← nextInteger
  let binding ← decodeBinding literals id
  pure (.identifier binding)

def decodeLiteral : Reader SExpression := do
  let index ← nextInteger
  if index = 0 then
    let value ← nextInteger
    pure (.literal index (.integer value))
  else
    let value ← literalAt literals index
    pure (.literal index value)

section Nested

variable (nextExpression : Reader SExpression)

def nextExpressionArray : Reader (List SExpression) := do
  let count ← nextCount
  nextExpression.times count

def decodeAssignment : Reader SExpression := do
  let assignees ← nextExpressionArray nextExpression
  let expression ← nextExpression
  pure (.assignment (assignees.map SExpression.asIdentifier) expression)

def decodeBlock : Reader SExpression := do
  let inlined ← nextBoolean
  if inlined then
    let inlinedArgs ← nextArray
    let statements ← nextExpressionArray nextExpression
    pure (.inlinedBlock inlinedArgs statements)
  else
    let index ← nextInteger
    let block ← literalAt literals index
    let capturedVariables ← nextArray
    let statements ← nextExpressionArray nextExpression
    pure (.block index block capturedVariables statements)

def decodeCascadeMessage : Reader SCascadeMessage := do
  let selector ← nextSymbol literals
  let arguments ← nextExpressionArray nextExpression
  pure (.mk selector arguments)

def decodeCascade : Reader SExpression := do
  let receiver ← nextExpression
  let count ← nextCount
  let messages ← (decodeCascadeMessage literals nextExpression).times count
  pure (.cascade receiver messages)

def decodeMessage : Reader SExpression := do
  let inlined ← nextBoolean
  let selector ← nextSymbol literals
  let receiver ← nextExpression
  let arguments ← nextExpressionArray nextExpression
  pure (.message receiver selector arguments inlined)

def decodeReturn : Reader SExpression := do
  let isLocal ← nextBoolean
  let expression ← nextExpression
  pure (.return isLocal expression)

/-- The expression whose type id has just been read. -/
def decodeExpression (id : UInt8) : Reader SExpression :=
  if id = assignmentId then decodeAssignment nextExpression
  else if id = blockId then decodeBlock literals nextExpression
  else if id = cascadeId then decodeCascade literals nextExpression
  else if id = literalId then decodeLiteral literals
  else if id = identifierId then decodeIdentifier literals
  else if id = messageId then decodeMessage literals nextExpression
  else if id = returnId then decodeReturn nextExpression
  else Reader.fail

end Nested

/-- Read an expression nested at most `depth` deep; every level takes a byte. -/
def nextExpression : Nat → Reader SExpression
  | 0 => Reader.fail
  | depth + 1 => do
    let id ← Reader.byte
    decodeExpression literals (nextExpression depth) id

/-- What follows the method's id: a pragma if the next byte is a pragma's id, and statements. -/
def decodeScript (depth : Nat) : Reader SMethod := fun bytes =>
  match bytes with
  | [] => none
  | next :: rest =>
    if next = pragmaId then
      (do
        let pragma ← nextSymbolOrNil literals
        let statements ← nextExpressionArray (nextExpression literals depth)
        pure { pragma := some pragma, statements := statements } : Reader SMethod) rest
    else
      (do
        let statements ← nextExpressionArray (nextExpression literals depth)
        pure { pragma := none, statements := statements } : Reader SMethod) bytes

def decodeMethodWithin (depth : Nat) : Reader SMethod := do
  let type ← Reader.byte
  if type ≠ methodId then Reader.fail else decodeScript literals depth

/-- The method that some treecodes stand for. -/
def decodeMethod (treecodes : List UInt8) : Option SMethod :=
  (decodeMethodWithin literals treecodes.length treecodes).map Prod.fst

end

end Egg.Treecode
