import Egg.Treecode.Tree

/-! The linearizer: an expression tree becomes a list of operations that share R and a stack. -/
namespace Egg.Linearizer

open Egg.Treecode

/-- An operation of a work list; literals of the linearizer's own are nil or a LiteralValue. -/
inductive Operation where
  | literal (value : Option LiteralValue)
  | identifier (binding : SBinding)
  | block (compiledCode : Option LiteralValue) (capturedVariables : List Int)
  | assign (assignees : List (Option SBinding))
  | dispatchMessage (selector : LiteralValue) (isSuper : Bool) (argumentCount : Nat)
  | dropToS (count : Nat)
  | jump (target : Nat)
  | jumpFalse (target : Nat)
  | jumpTrue (target : Nat)
  | loadRfromFrame (index : Int)
  | loadRfromStack (index : Nat)
  | loadRwithNil
  | loadRwithSelf
  | nonLocalReturn
  | popR
  | primitive (name : Option LiteralValue)
  | pushR
  | return
  | storeRintoFrame (index : Int)

/-- An operation as it was emitted: with the value that `_stackTop` had, and, when it reads or
writes the operand of an inlined loop, the position at which that operand is pushed. -/
structure Emitted where
  operation : Operation
  stackTop : Int
  operand : Option Nat

/-- The state of the linearizer; `executables` is the code it has installed in blocks. -/
structure SExpressionLinearizer where
  operations : List Emitted
  stackTop : Int
  inBlock : Bool
  executables : List (LiteralValue × List Emitted)

/-- Messages that have code of their own. -/
inductive Inlined where
  | if_ (aBoolean : Bool)
  | ifNil (aBoolean : Bool)
  | ifNilIfNotNil (aBoolean : Bool)
  | ifTrueIfFalse (aBoolean : Bool)
  | unitaryWhile (aBoolean : Bool)
  | binaryWhile (aBoolean : Bool)
  | repeat
  | toDo
  | toByDo
  | timesRepeat
  | andNot
  | orNot
  | or
  | and
  deriving DecidableEq

/-- The order of the cases is that of `visitInlinedMessage`. -/
def inlined : LiteralValue → Option Inlined
  | .symbol "ifTrue:" => some (.if_ true)
  | .symbol "ifFalse:" => some (.if_ false)
  | .symbol "ifNil:" => some (.ifNil true)
  | .symbol "ifNotNil:" => some (.ifNil false)
  | .symbol "ifNil:ifNotNil:" => some (.ifNilIfNotNil true)
  | .symbol "ifNotNil:ifNil:" => some (.ifNilIfNotNil false)
  | .symbol "ifTrue:ifFalse:" => some (.ifTrueIfFalse true)
  | .symbol "ifFalse:ifTrue:" => some (.ifTrueIfFalse false)
  | .symbol "whileTrue" => some (.unitaryWhile true)
  | .symbol "whileFalse" => some (.unitaryWhile false)
  | .symbol "whileTrue:" => some (.binaryWhile true)
  | .symbol "whileFalse:" => some (.binaryWhile false)
  | .symbol "repeat" => some .repeat
  | .symbol "to:do:" => some .toDo
  | .symbol "to:by:do:" => some .toByDo
  | .symbol "timesRepeat:" => some .timesRepeat
  | .symbol "andNot:" => some .andNot
  | .symbol "orNot:" => some .orNot
  | .symbol name =>
    if name.startsWith "or:" then some .or
    else if name.startsWith "and:" then some .and
    else none
  | _ => none

namespace SExpressionLinearizer

variable (linearizer : SExpressionLinearizer)

def emit (operation : Operation) : SExpressionLinearizer :=
  { linearizer with
    operations := linearizer.operations ++ [⟨operation, linearizer.stackTop, none⟩] }

/-- Emit an operation on the operand that is pushed at a position. -/
def emitFor (operand : Nat) (operation : Operation) : SExpressionLinearizer :=
  { linearizer with
    operations := linearizer.operations ++ [⟨operation, linearizer.stackTop, some operand⟩] }

def currentPC : Nat := linearizer.operations.length

/-- A jump without a target yet. -/
def unset : Nat := 0xFFFFFFFF

def branchIf (aBoolean : Bool) : SExpressionLinearizer :=
  linearizer.emit (if aBoolean then .jumpTrue unset else .jumpFalse unset)

def jump : SExpressionLinearizer := linearizer.emit (.jump unset)

def jumpTo (target : Nat) : SExpressionLinearizer := linearizer.emit (.jump target)

end SExpressionLinearizer

def Operation.target (target : Nat) : Operation → Operation
  | .jump _ => .jump target
  | .jumpFalse _ => .jumpFalse target
  | .jumpTrue _ => .jumpTrue target
  | other => other

namespace SExpressionLinearizer

variable (linearizer : SExpressionLinearizer)

/-- Set the target of the branch emitted at a position. -/
def setTarget (branch target : Nat) : SExpressionLinearizer :=
  { linearizer with
    operations := linearizer.operations.modify branch fun emitted =>
      { emitted with operation := emitted.operation.target target } }

def branchTargetOf (branch : Nat) : SExpressionLinearizer :=
  linearizer.setTarget branch linearizer.currentPC

/-- Arguments are dropped behind the send, so nothing changes here. -/
def dispatch (selector : LiteralValue) (isSuper : Bool) (argumentCount : Nat) :
    SExpressionLinearizer :=
  linearizer.emit (.dispatchMessage selector isSuper argumentCount)

def dropToS (count : Nat) : SExpressionLinearizer :=
  { linearizer.emit (.dropToS count) with stackTop := linearizer.stackTop - count }

def dropCascadeMessageArgs (argsize : Nat) : SExpressionLinearizer :=
  if argsize = 0 then linearizer else linearizer.dropToS argsize

def dropMessageArgs (argsize : Nat) : SExpressionLinearizer :=
  if argsize = 0 then linearizer else linearizer.dropToS (argsize + 1)

def popR : SExpressionLinearizer :=
  { linearizer.emit .popR with stackTop := linearizer.stackTop - 1 }

def pushR : SExpressionLinearizer :=
  { linearizer.emit .pushR with stackTop := linearizer.stackTop + 1 }

def returnOp : SExpressionLinearizer := linearizer.emit .return

def return_ (isLocal : Bool) : SExpressionLinearizer :=
  linearizer.emit (if isLocal && !linearizer.inBlock then .return else .nonLocalReturn)

end SExpressionLinearizer

/-- A visitor's effect; `none` is for trees that the source casts to what they are not, and for
`to:by:do:`, which it rejects. -/
abbrev Visit := SExpressionLinearizer → Option SExpressionLinearizer

/-- Visit an argument and push what it leaves in R. -/
def pushed (visit : Visit) : Visit := fun linearizer => (visit linearizer).map (·.pushR)

/-- A send that is not inlined, from what emits its receiver and what pushes its arguments. -/
def send (selector : LiteralValue) (isSuper : Bool) (argsize : Nat) (receiver arguments : Visit) :
    Visit := fun linearizer => do
  let linearizer ← receiver linearizer
  let linearizer := if 0 < argsize then linearizer.pushR else linearizer
  let linearizer ← arguments linearizer
  let linearizer :=
    if 0 < argsize then linearizer.emit (.loadRfromStack argsize) else linearizer
  pure ((linearizer.dispatch selector isSuper argsize).dropMessageArgs argsize)

def one : Operation := .literal (some (.integer 1))

def nilLiteral : Operation := .literal none

/-- Compare what is on top of the stack with nil. -/
def compareToNil : Visit :=
  send (.symbol "==") false 1 (fun linearizer => some (linearizer.emit (.loadRfromStack 0)))
    (pushed fun linearizer => some (linearizer.emit nilLiteral))

def SBinding.isSuper : SBinding → Bool
  | .super => true
  | _ => false

def isSuper : SExpression → Bool
  | .identifier binding => SBinding.isSuper binding
  | _ => false

def isReturn : SExpression → Bool
  | .return _ _ => true
  | _ => false

namespace SExpressionLinearizer

variable (linearizer : SExpressionLinearizer)

/-- Start the code of a block. -/
def enterBlock (stackTop : Int) : SExpressionLinearizer :=
  { linearizer with stackTop := stackTop, inBlock := true, operations := [] }

/-- End the code of a block: an empty one answers nil. -/
def finishBlock (statements : List SExpression) : SExpressionLinearizer :=
  match statements.getLast? with
  | none => (linearizer.emit .loadRwithNil).returnOp
  | some last => if isReturn last then linearizer else linearizer.returnOp

/-- End the code of a method: without a return at the end, it answers self. -/
def finishMethod (statements : List SExpression) : SExpressionLinearizer :=
  if (statements.getLast?.map isReturn).getD false then linearizer
  else (linearizer.emit .loadRwithSelf).returnOp

def reset : SExpressionLinearizer := { linearizer with operations := [], inBlock := false }

end SExpressionLinearizer

/-! ### Messages with code of their own, from what visits their parts -/

def inlineIf (aBoolean : Bool) (receiver script : Visit) : Visit := fun linearizer => do
  let linearizer ← receiver linearizer
  let branch := linearizer.currentPC
  let linearizer ← script (linearizer.branchIf (!aBoolean))
  let finally_ := linearizer.currentPC
  let linearizer := linearizer.jump.branchTargetOf branch
  pure ((linearizer.emit .loadRwithNil).branchTargetOf finally_)

/-- The argument of the block that is inlined, if it has one, is where the receiver is kept. -/
def storeArgument (inlinedArgs : List Int) (linearizer : SExpressionLinearizer) :
    SExpressionLinearizer :=
  match inlinedArgs with
  | [index] => linearizer.emit (.storeRintoFrame index)
  | _ => linearizer

def inlineIfNil (aBoolean : Bool) (receiver : Visit) (inlinedArgs : List Int) (arg : Visit) :
    Visit := fun linearizer => do
  let linearizer ← receiver linearizer
  let linearizer ← compareToNil (storeArgument inlinedArgs linearizer).pushR
  let branch := linearizer.currentPC
  let linearizer ← arg (linearizer.branchIf (!aBoolean))
  let linearizer := linearizer.dropToS 1
  let finally_ := linearizer.currentPC
  let linearizer := linearizer.jump.branchTargetOf branch
  pure (linearizer.popR.branchTargetOf finally_)

def inlineIfNilIfNotNil (aBoolean : Bool) (receiver : Visit) (inlinedArgs : List Int)
    (arg0 arg1 : Visit) : Visit := fun linearizer => do
  let linearizer ← receiver linearizer
  let linearizer ← compareToNil (storeArgument inlinedArgs linearizer).pushR
  let branch := linearizer.currentPC
  let linearizer ← arg0 (linearizer.branchIf (!aBoolean))
  let finally_ := linearizer.currentPC
  let linearizer ← arg1 (linearizer.jump.branchTargetOf branch)
  pure ((linearizer.branchTargetOf finally_).dropToS 1)

def inlineIfTrueIfFalse (aBoolean : Bool) (receiver arg0 arg1 : Visit) : Visit :=
  fun linearizer => do
  let linearizer ← receiver linearizer
  let branch := linearizer.currentPC
  let linearizer ← arg0 (linearizer.branchIf (!aBoolean))
  let finally_ := linearizer.currentPC
  let linearizer ← arg1 (linearizer.jump.branchTargetOf branch)
  pure (linearizer.branchTargetOf finally_)

def inlineUnitaryWhile (aBoolean : Bool) (receiver : Visit) : Visit := fun linearizer => do
  let start := linearizer.currentPC
  let linearizer ← receiver linearizer
  let branch := linearizer.currentPC
  pure ((linearizer.branchIf aBoolean).setTarget branch start)

def inlineBinaryWhile (aBoolean : Bool) (receiver arg : Visit) : Visit := fun linearizer => do
  let start := linearizer.currentPC
  let linearizer ← receiver linearizer
  let finally_ := linearizer.currentPC
  let linearizer ← arg (linearizer.branchIf (!aBoolean))
  pure ((linearizer.jumpTo start).branchTargetOf finally_)

def inlineRepeat (receiver : Visit) : Visit := fun linearizer => do
  let start := linearizer.currentPC
  let linearizer ← receiver linearizer
  pure (linearizer.jumpTo start)

/-- Load a value from the frame, as the receiver or the argument of a send that is made up. -/
def frameLoad (operand : Option Nat) (index : Int) : Visit := fun linearizer =>
  match operand with
  | none => some (linearizer.emit (.loadRfromFrame index))
  | some position => some (linearizer.emitFor position (.loadRfromFrame index))

def loadOne : Visit := fun linearizer => some (linearizer.emit one)

/-- The loop of `to:do:` and `timesRepeat:`: from `start` on, until `current` exceeds `limit`. -/
def countingLoop (current : Visit) (limit : Visit) (store : SExpressionLinearizer →
    SExpressionLinearizer) (body : Visit) (operands : Nat) : Visit := fun linearizer => do
  let start := linearizer.currentPC
  let linearizer ← send (.symbol ">") false 1 current (pushed limit) linearizer
  let finally_ := linearizer.currentPC
  let linearizer ← body (linearizer.branchIf true)
  let linearizer ← send (.symbol "+") false 1 current (pushed loadOne) linearizer
  let linearizer := (store linearizer).jumpTo start
  pure ((linearizer.branchTargetOf finally_).dropToS operands)

def inlineToDo (receiver : Visit) (index : Int) (arg body : Visit) : Visit :=
  fun linearizer => do
  let linearizer ← receiver linearizer
  let linearizer ← arg (linearizer.emit (.storeRintoFrame index))
  let operand := linearizer.currentPC
  let linearizer := linearizer.pushR
  countingLoop (frameLoad none index) (frameLoad (some operand) linearizer.stackTop)
    (fun linearizer => linearizer.emit (.storeRintoFrame index)) body 1 linearizer

def inlineTimesRepeat (receiver body : Visit) : Visit := fun linearizer => do
  let linearizer := linearizer.emit one
  let counter := linearizer.currentPC
  let linearizer := linearizer.pushR
  let current := linearizer.stackTop
  let linearizer ← receiver linearizer
  let operand := linearizer.currentPC
  let linearizer := linearizer.pushR
  countingLoop (frameLoad (some counter) current) (frameLoad (some operand) linearizer.stackTop)
    (fun linearizer => linearizer.emitFor counter (.storeRintoFrame current)) body 2 linearizer

/-- `andNot:` and `orNot:`: the answer of the block is negated. -/
def inlineNot (aBoolean : Bool) (receiver arg : Visit) : Visit := fun linearizer => do
  let linearizer ← receiver linearizer
  let branch := linearizer.currentPC
  let linearizer ← arg (linearizer.branchIf aBoolean)
  pure ((linearizer.dispatch (.symbol "not") false 0).branchTargetOf branch)

def isBlock : SExpression → Bool
  | .inlinedBlock _ _ | .block _ _ _ _ => true
  | _ => false

def inlinedArgs : SExpression → List Int
  | .inlinedBlock inlinedArgs _ => inlinedArgs
  | _ => []

/-- What is cast to a block has to be one. -/
def asBlock (expression : SExpression) (statements : Visit) : Visit := fun linearizer =>
  if isBlock expression then statements linearizer else none

section Visitor

variable (blockTempCount : LiteralValue → Nat)

mutual

/-- Visit an expression; a block, when it is visited in place, by its statements. -/
def accept (inPlace : Bool) : SExpression → Visit
  | .literal _ value => fun linearizer => some (linearizer.emit (.literal (some value)))
  | .identifier binding => fun linearizer => some (linearizer.emit (.identifier binding))
  | .assignment assignees expression => fun linearizer => do
    let linearizer ← accept false expression linearizer
    pure (linearizer.emit (.assign assignees))
  | .return isLocal expression => fun linearizer => do
    let linearizer ← accept false expression linearizer
    pure (linearizer.return_ isLocal)
  | .inlinedBlock _ statements => fun linearizer =>
    if inPlace then visitStatements statements linearizer
    else do
      -- An inlined block has no code object to install its code in.
      let outer := linearizer.emit (.block none [])
      let inner ← visitStatements statements (outer.enterBlock linearizer.stackTop)
      pure { outer with executables := inner.executables }
  | .block _ compiledCode capturedVariables statements => fun linearizer =>
    if inPlace then visitStatements statements linearizer
    else do
      let outer := linearizer.emit (.block (some compiledCode) capturedVariables)
      let inner ← visitStatements statements (outer.enterBlock (blockTempCount compiledCode))
      let code := (inner.finishBlock statements).operations
      pure { outer with executables := inner.executables ++ [(compiledCode, code)] }
  | .cascade receiver messages => fun linearizer => do
    let linearizer ← pushed (accept false receiver) linearizer
    let linearizer ← visitCascadeMessages messages linearizer
    pure (linearizer.dropToS 1)
  | .message receiver selector arguments isInlined =>
    if isInlined then
      match inlined selector, arguments with
      | some (.if_ aBoolean), script :: _ =>
        inlineIf aBoolean (accept false receiver) (asBlock script (accept true script))
      | some (.ifNil aBoolean), arg :: _ =>
        inlineIfNil aBoolean (accept false receiver) (inlinedArgs arg) (accept true arg)
      | some (.ifNilIfNotNil aBoolean), arg0 :: arg1 :: _ =>
        inlineIfNilIfNotNil aBoolean (accept false receiver)
          (inlinedArgs (if aBoolean then arg1 else arg0)) (accept true arg0) (accept true arg1)
      | some (.ifTrueIfFalse aBoolean), arg0 :: arg1 :: _ =>
        inlineIfTrueIfFalse aBoolean (accept false receiver) (asBlock arg0 (accept true arg0))
          (asBlock arg1 (accept true arg1))
      | some (.unitaryWhile aBoolean), _ =>
        inlineUnitaryWhile aBoolean (asBlock receiver (accept true receiver))
      | some (.binaryWhile aBoolean), arg :: _ =>
        inlineBinaryWhile aBoolean (asBlock receiver (accept true receiver))
          (asBlock arg (accept true arg))
      | some .repeat, _ => inlineRepeat (asBlock receiver (accept true receiver))
      | some .toDo, limit :: body :: _ =>
        match inlinedArgs body with
        | index :: _ =>
          inlineToDo (accept false receiver) index (accept false limit) (accept true body)
        | [] => fun _ => none
      | some .timesRepeat, body :: _ =>
        inlineTimesRepeat (accept false receiver) (asBlock body (accept true body))
      | some .andNot, arg :: _ =>
        inlineNot false (accept false receiver) (asBlock arg (accept true arg))
      | some .orNot, arg :: _ =>
        inlineNot true (accept false receiver) (asBlock arg (accept true arg))
      | some .or, arguments => fun linearizer => do
        let linearizer ← accept false receiver linearizer
        let (branches, linearizer) ← visitConditions true arguments linearizer
        pure (branches.foldl SExpressionLinearizer.branchTargetOf linearizer)
      | some .and, arguments => fun linearizer => do
        let linearizer ← accept false receiver linearizer
        let (branches, linearizer) ← visitConditions false arguments linearizer
        pure (branches.foldl SExpressionLinearizer.branchTargetOf linearizer)
      | _, _ => fun _ => none
    else
      send selector (isSuper receiver) arguments.length (accept false receiver)
        (visitArguments arguments)

def visitStatements : List SExpression → Visit
  | [] => some
  | statement :: statements => fun linearizer => do
    let linearizer ← accept false statement linearizer
    visitStatements statements linearizer

/-- Visit the arguments of a send and push them. -/
def visitArguments : List SExpression → Visit
  | [] => some
  | argument :: arguments => fun linearizer => do
    let linearizer ← pushed (accept false argument) linearizer
    visitArguments arguments linearizer

def visitCascadeMessages : List SCascadeMessage → Visit
  | [] => some
  | .mk selector arguments :: messages => fun linearizer => do
    let argsize := arguments.length
    let linearizer ← visitArguments arguments linearizer
    let linearizer := linearizer.emit (.loadRfromStack argsize)
    visitCascadeMessages messages
      ((linearizer.dispatch selector false argsize).dropCascadeMessageArgs argsize)

/-- Visit the blocks of `and:` or `or:`, each behind a branch whose position is answered. -/
def visitConditions (aBoolean : Bool) : List SExpression → SExpressionLinearizer →
    Option (List Nat × SExpressionLinearizer)
  | [] => fun linearizer => some ([], linearizer)
  | block :: blocks => fun linearizer => do
    let branch := linearizer.currentPC
    let linearizer ← asBlock block (accept true block) (linearizer.branchIf aBoolean)
    let (branches, linearizer) ← visitConditions aBoolean blocks linearizer
    pure (branch :: branches, linearizer)

end

/-- What a method's pragma names; that of an FFI method names the call. -/
def primitiveName (isFFI : Bool) (method : SMethod) : Option (Option LiteralValue) :=
  method.pragma.map fun name => if isFFI then some (.symbol "FFICall") else name

/-- A primitive that is known comes first, and returns if it does not fail. -/
def visitPragma (hasPrimitive : Option LiteralValue → Bool) (isFFI : Bool) (method : SMethod)
    (linearizer : SExpressionLinearizer) : SExpressionLinearizer :=
  match primitiveName isFFI method with
  | none => linearizer
  | some name =>
    if hasPrimitive name then (linearizer.emit (.primitive name)).returnOp else linearizer

/-- The code of a method, by a linearizer that has been in use before. -/
def visitMethod (hasPrimitive : Option LiteralValue → Bool) (isFFI : Bool) (tempCount : Nat)
    (method : SMethod) : Visit := fun linearizer => do
  let linearizer := visitPragma hasPrimitive isFFI method linearizer.reset
  let linearizer ← visitStatements blockTempCount method.statements
    { linearizer with stackTop := tempCount }
  pure (linearizer.finishMethod method.statements)

end Visitor

end Egg.Linearizer
