import Egg.Treecode.Tree

/-! Writing the treecodes of a resolved method, and the tree they stand for. -/
namespace Egg.Treecode

def methodId : UInt8 := 101
def blockId : UInt8 := 102
def identifierId : UInt8 := 103
def literalId : UInt8 := 104
def messageId : UInt8 := 105
def cascadeId : UInt8 := 106
def assignmentId : UInt8 := 108
def returnId : UInt8 := 109
def pragmaId : UInt8 := 110

/-- Bytes of a 64-bit integer, most significant first. -/
def nextBigIntegerPut (value : Int) : List UInt8 :=
  0x80 :: [7, 6, 5, 4, 3, 2, 1, 0].map fun (place : Nat) => UInt8.ofInt (value / 256 ^ place)

def nextIntegerPut (value : Int) : List UInt8 :=
  if 127 < value ∨ value < -127 then nextBigIntegerPut value
  else [UInt8.ofInt (if 0 ≤ value then value else value + 0x100)]

def nextBooleanPut (value : Bool) : UInt8 :=
  if value then 1 else 0

def nextPutAll (bytes : List UInt8) : List UInt8 :=
  nextIntegerPut bytes.length ++ bytes

def nextSymbolPut (literals : Literals) (symbol : String) : List UInt8 :=
  nextIntegerPut (literals.indexOf (.symbol symbol))

/-- The environment of a local, as the evaluator numbers them. -/
def encodedEnvironment : LocalEnvironment → Int
  | .stack => -2
  | .argument => -2
  | .inlinedArgument => -1
  | .array index => if index < 0 then 0 else index

def encodeLocal (binding : LocalBinding) : List UInt8 :=
  (if binding.isArgument then 4 else 5) ::
    (nextIntegerPut binding.index ++ nextIntegerPut (encodedEnvironment binding.environment))

def encodeBinding (literals : Literals) : Binding → List UInt8
  | .nil => [1]
  | .true => [2]
  | .false => [3]
  | .self => [6]
  | .super => [7]
  | .local binding => encodeLocal binding
  | .dynamic name => 14 :: nextSymbolPut literals name

def visitIdentifier (literals : Literals) (binding : Binding) : List UInt8 :=
  identifierId :: encodeBinding literals binding

def visitLiteral (literals : Literals) (value : LiteralValue) : List UInt8 :=
  let index := literals.indexOf value
  literalId :: (nextIntegerPut index ++ if index = 0 then nextIntegerPut value.intVal else [])

/-- The bytes an element takes in the list of captured variables, before they are cut. -/
def ClosureElement.codes : ClosureElement → List Int
  | .self => [0]
  | .environment => [2]
  | .environmentValue index => [3, index]
  | .argument captureType index => [captureType.toNat, index]

/-- The codes of the captured elements, cut to bytes. -/
def encodeClosureElements (captured : List ClosureElement) : List UInt8 :=
  (captured.flatMap ClosureElement.codes).map UInt8.ofInt

def arrayBinding (array : Option LocalBinding) : Binding :=
  match array with
  | some binding => .local binding
  | none => .dynamic "Array"

namespace Node

variable (literals : Literals)

mutual

/-- The treecodes of a node; `isMethod` says whether its script runs in the method's frame. -/
def encode (isMethod : Bool) : Node → List UInt8
  | .literal value => visitLiteral literals value
  | .identifier binding => visitIdentifier literals binding
  | .message isInlined selector receiver arguments =>
    messageId :: nextBooleanPut isInlined :: (nextSymbolPut literals selector ++
      (encode isMethod receiver ++
        (nextIntegerPut arguments.length ++ encodeAll isMethod arguments)))
  | .cascade receiver messages =>
    cascadeId :: (encode isMethod receiver ++
      (nextIntegerPut messages.length ++ encodeMessages isMethod messages))
  | .assignment assignees expression =>
    assignmentId :: (nextIntegerPut assignees.length ++
      (assignees.flatMap (visitIdentifier literals) ++ encode isMethod expression))
  | .return expression => returnId :: nextBooleanPut isMethod :: encode isMethod expression
  | .inlinedBlock arguments statements =>
    blockId :: nextBooleanPut true :: (nextPutAll (arguments.map UInt8.ofInt) ++
      (nextIntegerPut statements.length ++ encodeAll isMethod statements))
  | .block index captured statements =>
    blockId :: nextBooleanPut false :: UInt8.ofNat (literals.indexOf (.block index)) ::
      (nextPutAll (encodeClosureElements captured) ++
        (nextIntegerPut statements.length ++ encodeAll false statements))
  -- A brace is written as the cascade it expands to.
  | .brace array elements =>
    cascadeId :: (messageId :: nextBooleanPut false :: (nextSymbolPut literals "new:" ++
        (visitIdentifier literals (arrayBinding array) ++
          (nextIntegerPut 1 ++ visitLiteral literals (.integer elements.length)))) ++
      (nextIntegerPut (elements.length + 1) ++ (encodeElements isMethod 1 elements ++
        (nextSymbolPut literals "yourself" ++ nextIntegerPut 0))))

def encodeAll (isMethod : Bool) : List Node → List UInt8
  | [] => []
  | node :: nodes => encode isMethod node ++ encodeAll isMethod nodes

def encodeMessages (isMethod : Bool) : List CascadeMessage → List UInt8
  | [] => []
  | .mk selector arguments :: messages =>
    nextSymbolPut literals selector ++ (nextIntegerPut arguments.length ++
      (encodeAll isMethod arguments ++ encodeMessages isMethod messages))

/-- The `at:put:` messages of a brace from a position on. -/
def encodeElements (isMethod : Bool) (position : Nat) : List Node → List UInt8
  | [] => []
  | element :: elements =>
    nextSymbolPut literals "at:put:" ++ (nextIntegerPut 2 ++
      (visitLiteral literals (.integer position) ++ (encode isMethod element ++
        encodeElements isMethod (position + 1) elements)))

end

end Node

/-- The treecodes of a method, written against its own literal frame. -/
def encodeMethod (method : MethodNode) : List UInt8 :=
  let literals := method.literals
  let pragma := match method.pragma with
    | some name => pragmaId :: if name.isEmpty then [0] else nextSymbolPut literals name
    | none => []
  methodId :: (pragma ++ (nextIntegerPut method.statements.length ++
    Node.encodeAll literals true method.statements))

def LocalBinding.resolved (binding : LocalBinding) : SBinding :=
  if binding.isArgument then .argument binding.index (encodedEnvironment binding.environment)
  else .temporary binding.index (encodedEnvironment binding.environment)

def Binding.resolved : Binding → SBinding
  | .nil => .nil
  | .true => .true
  | .false => .false
  | .self => .self
  | .super => .super
  | .local binding => binding.resolved
  | .dynamic name => .dynamic (.symbol name)

/-- A literal node and the index of its literal in the frame. -/
def LiteralValue.resolved (literals : Literals) (value : LiteralValue) : SExpression :=
  .literal (literals.indexOf value) value

namespace Node

variable (literals : Literals)

mutual

/-- The expression that the semantic pass means by a node. -/
def resolved (isMethod : Bool) : Node → SExpression
  | .literal value => value.resolved literals
  | .identifier binding => .identifier binding.resolved
  | .message isInlined selector receiver arguments =>
    .message (resolved isMethod receiver) (.symbol selector) (resolvedAll isMethod arguments)
      isInlined
  | .cascade receiver messages =>
    .cascade (resolved isMethod receiver) (resolvedMessages isMethod messages)
  | .assignment assignees expression =>
    .assignment (assignees.map (some ·.resolved)) (resolved isMethod expression)
  | .return expression => .return isMethod (resolved isMethod expression)
  | .inlinedBlock arguments statements =>
    .inlinedBlock arguments (resolvedAll isMethod statements)
  | .block index captured statements =>
    .block (literals.indexOf (.block index)) (.block index)
      (captured.flatMap ClosureElement.codes) (resolvedAll false statements)
  | .brace array elements =>
    .cascade
      (.message (.identifier (arrayBinding array).resolved) (.symbol "new:")
        [(LiteralValue.integer elements.length).resolved literals] false)
      (resolvedElements isMethod 1 elements ++ [.mk (.symbol "yourself") []])

def resolvedAll (isMethod : Bool) : List Node → List SExpression
  | [] => []
  | node :: nodes => resolved isMethod node :: resolvedAll isMethod nodes

def resolvedMessages (isMethod : Bool) : List CascadeMessage → List SCascadeMessage
  | [] => []
  | .mk selector arguments :: messages =>
    .mk (.symbol selector) (resolvedAll isMethod arguments) :: resolvedMessages isMethod messages

def resolvedElements (isMethod : Bool) (position : Nat) : List Node → List SCascadeMessage
  | [] => []
  | element :: elements =>
    .mk (.symbol "at:put:") [(LiteralValue.integer position).resolved literals,
      resolved isMethod element] :: resolvedElements isMethod (position + 1) elements

end

end Node

def MethodNode.resolved (method : MethodNode) : SMethod where
  pragma := method.pragma.map fun name => if name.isEmpty then none else some (.symbol name)
  statements := Node.resolvedAll method.literals true method.statements

end Egg.Treecode
