import Egg.Data.Reader

/-! The trees on both sides of the treecodes: what the semantic pass resolves, and what the
evaluator works on. -/
namespace Egg.Treecode

/-- A typed literal; the kinds the treecodes do not tell apart are kept as they are. -/
inductive LiteralValue where
  | integer (value : Int)
  | symbol (name : String)
  | string (text : String)
  | block (id : Nat)
  | other (tag : Nat) (contents : List UInt8)
  deriving DecidableEq

namespace LiteralValue

/-- The integer field of a literal; other kinds leave it zero. -/
def intVal : LiteralValue → Int
  | integer value => value
  | _ => 0

/-- Small integers are written into the treecodes and not into the literal frame. -/
def isSmall : LiteralValue → Bool
  | integer value => -16384 ≤ value && value ≤ 16383
  | _ => false

end LiteralValue

/-- The literal frame of a method. -/
abbrev Literals := List LiteralValue

/-- The one-based index of a literal, or zero. -/
def Literals.indexOf (literals : Literals) (literal : LiteralValue) : Nat :=
  match literals.findIdx? (· == literal) with
  | some index => index + 1
  | none => 0

/-- The literal at a one-based index; other slots of the method hold no literals. -/
def Literals.literalAt (literals : Literals) (index : Int) : Option LiteralValue :=
  if 1 ≤ index then literals[(index - 1).toNat]? else none

def Literals.addUnique (literals : Literals) (literal : LiteralValue) : Literals :=
  if literal ∈ literals then literals else literals ++ [literal]

/-- Where a local variable lives. -/
inductive LocalEnvironment where
  | stack
  | argument
  | inlinedArgument
  | array (index : Int)

/-- A resolved argument or temporary. -/
structure LocalBinding where
  isArgument : Bool
  index : Int
  environment : LocalEnvironment

inductive Binding where
  | nil
  | true
  | false
  | self
  | super
  | local (binding : LocalBinding)
  | dynamic (name : String)

/-- An element captured by a block: its kind and, for most kinds, an index. -/
inductive ClosureElement where
  | self
  | environment
  | environmentValue (index : Int)
  | argument (captureType : UInt8) (index : Int)

mutual

/-- A parse node after the semantic pass. A brace knows what `Array` is bound to locally. -/
inductive Node where
  | literal (value : LiteralValue)
  | identifier (binding : Binding)
  | message (isInlined : Bool) (selector : String) (receiver : Node) (arguments : List Node)
  | cascade (receiver : Node) (messages : List CascadeMessage)
  | assignment (assignees : List Binding) (expression : Node)
  | return (expression : Node)
  | inlinedBlock (arguments : List Int) (statements : List Node)
  | block (index : Nat) (captured : List ClosureElement) (statements : List Node)
  | brace (array : Option LocalBinding) (elements : List Node)

inductive CascadeMessage where
  | mk (selector : String) (arguments : List Node)

end

/-- A method; its pragma, if it is used, has a name. -/
structure MethodNode where
  pragma : Option String
  statements : List Node

namespace Binding

/-- What a binding contributes to the literal frame. -/
def literal : Binding → List LiteralValue
  | dynamic name => [.symbol name]
  | _ => []

end Binding

namespace Node

mutual

/-- The literals of a node, in the order in which it is visited. -/
def literals : Node → List LiteralValue
  | .literal value => if value.isSmall then [] else [value]
  | .identifier binding => binding.literal
  | .message _ selector receiver arguments =>
    .symbol selector :: (receiver.literals ++ allLiterals arguments)
  | .cascade receiver messages => receiver.literals ++ messageLiterals messages
  | .assignment assignees expression =>
    assignees.flatMap Binding.literal ++ expression.literals
  | .return expression => expression.literals
  | .inlinedBlock _ statements => allLiterals statements
  | .block index _ statements => .block index :: allLiterals statements
  | .brace _ elements =>
    .symbol "Array" :: .symbol "new:" :: .symbol "at:put:" :: .symbol "yourself" ::
      allLiterals elements

def allLiterals : List Node → List LiteralValue
  | [] => []
  | node :: nodes => node.literals ++ allLiterals nodes

def messageLiterals : List CascadeMessage → List LiteralValue
  | [] => []
  | .mk selector arguments :: messages =>
    .symbol selector :: (allLiterals arguments ++ messageLiterals messages)

end

end Node

/-- The literal frame of a method: the pragma's name, then the literals of its nodes. -/
def MethodNode.literals (method : MethodNode) : Literals :=
  let pragma := match method.pragma with
    | some name => if name.isEmpty then [] else [.symbol name]
    | none => []
  (pragma ++ Node.allLiterals method.statements).foldl Literals.addUnique []

/-- What an identifier of the evaluator's tree is bound to. -/
inductive SBinding where
  | nil
  | true
  | false
  | self
  | super
  | argument (index environment : Int)
  | temporary (index environment : Int)
  | dynamic (symbol : LiteralValue)
  | nestedDynamic (symbol : LiteralValue)

mutual

/-- An expression of the evaluator's tree. -/
inductive SExpression where
  | literal (index : Int) (value : LiteralValue)
  | identifier (binding : SBinding)
  | message (receiver : SExpression) (selector : LiteralValue) (arguments : List SExpression)
      (isInlined : Bool)
  | cascade (receiver : SExpression) (messages : List SCascadeMessage)
  | assignment (assignees : List (Option SBinding)) (expression : SExpression)
  | return (isLocal : Bool) (expression : SExpression)
  | inlinedBlock (inlinedArgs : List Int) (statements : List SExpression)
  | block (index : Int) (compiledCode : LiteralValue) (capturedVariables : List Int)
      (statements : List SExpression)

inductive SCascadeMessage where
  | mk (selector : LiteralValue) (arguments : List SExpression)

end

/-- The evaluator's method: no pragma, or one that names a primitive or nil. -/
structure SMethod where
  pragma : Option (Option LiteralValue)
  statements : List SExpression

end Egg.Treecode
