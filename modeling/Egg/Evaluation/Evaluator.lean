import Egg.Evaluation.Operation

/-! The evaluator's routines that build, leave and switch between frames. -/
namespace Egg.Evaluation

/-- A closure: its block, the frame pointer of its home or nil, and the captured receiver. -/
structure Closure where
  block : Word
  home : Option Int
  receiver : Word

structure Evaluator where
  context : EvaluationContext
  regR : Word
  work : List Operation
  closures : Word → Closure

namespace Evaluator

variable (image : Image)

/-- Advance PC and fetch; there is no operation past the end of the work list. -/
def nextOperation (evaluator : Evaluator) : Option Operation × Evaluator :=
  let context := evaluator.context.incRegPC
  (evaluator.work[(context.regPC - 1).toNat]?, { evaluator with context := context })

def buildMethodFrameFor (context : EvaluationContext) (receiver method environment : Word) :
    Option EvaluationContext :=
  context.buildFrameFor image.nilObj receiver method environment (image.methodTempCount method)

def buildClosureFrameFor (context : EvaluationContext) (receiver code environment : Word) :
    Option EvaluationContext :=
  context.buildFrameFor image.nilObj receiver code environment (image.blockTempCount code)

/-- Activate a method; `fresh` is the environment allocated for methods that need one. -/
def invokeWith (evaluator : Evaluator) (method receiver fresh : Word) : Option Evaluator :=
  let environment := if image.methodNeedsEnvironment method then fresh else image.nilObj
  (buildMethodFrameFor image evaluator.context receiver method environment).map fun context =>
    { evaluator with context := context, work := image.executableCodeWork method }

def popFrameAndPrepare (evaluator : Evaluator) : Evaluator :=
  let context := evaluator.context.popFrame
  { evaluator with context := context, work := image.executableCodeWork context.regM }

def visitOpReturn (evaluator : Evaluator) : Evaluator :=
  popFrameAndPrepare image evaluator

/-- Replace the frame of the `value` method by a frame of the closure's block. -/
def evaluateClosureWithArgs (evaluator : Evaluator) (closure : Word) : Option Evaluator :=
  let block := (evaluator.closures closure).block
  let receiver :=
    if image.blockCapturesSelf block then (evaluator.closures closure).receiver else image.nilObj
  (buildClosureFrameFor image evaluator.context.popFrame receiver block closure).map fun context =>
    { evaluator with context := context, work := image.executableCodeWork block }

/-- `perform:`: push the arguments and activate the method found for the receiver. -/
def evaluatePerformInWithArgs (evaluator : Evaluator) (method receiver : Word)
    (arguments : List Word) (fresh : Word) : Option Evaluator :=
  invokeWith image { evaluator with context := evaluator.context.pushAll arguments }
    method receiver fresh

/-- Run an undermessage between popping its arguments and giving their slots back. -/
def evaluateUndermessageWith (evaluator : Evaluator) (argumentCount : Nat)
    (undermessage : Evaluator → List Word → Evaluator) : Evaluator :=
  let (arguments, popped) := evaluator.context.popOperands argumentCount
  let done := undermessage { evaluator with context := popped } arguments
  { done with context := done.context.reserveStackSlots argumentCount }

/-- `_returnTo:` leaves the frame named by its argument and keeps R. -/
def underprimitiveReturnTo (evaluator : Evaluator) (arguments : List Word) : Evaluator :=
  let home := arguments.headD 0
  let left := popFrameAndPrepare image
    { evaluator with context := { evaluator.context with regBP := home } }
  { left with context := left.context.reserveStackSlots (-1) }

/-- Send `_doesNotUnderstand:with:` with the selector and an array of the arguments. -/
def messageNotUnderstood (evaluator : Evaluator) (selector array dnu fresh : Word) :
    Option Evaluator :=
  invokeWith image
    { evaluator with context := (evaluator.context.push selector).push array }
    dnu evaluator.regR fresh

def buildLaunchFrame (context : EvaluationContext) (launcher : Word) : Option EvaluationContext :=
  buildMethodFrameFor image context image.nilObj launcher image.nilObj

/-- Start a send from native code in a launch frame of its own. -/
def sendToWith (evaluator : Evaluator) (launcher receiver : Word) (arguments : List Word) :
    Option Evaluator :=
  (buildLaunchFrame image evaluator.context launcher).map fun context =>
    let operands := if arguments.isEmpty then [] else receiver :: arguments
    { evaluator with
      context := { context.pushAll operands with regPC := 0 }
      regR := receiver
      work := image.executableCodeWork launcher }

def method (context : EvaluationContext) : Word :=
  if image.isBlock context.regM then image.blockMethod context.regM else context.regM

/-- Finish a send from native code; `prevRegE` was read after the launch frame was built. -/
def endSend (evaluator : Evaluator) (prevRegE : Word) : Evaluator :=
  let context := evaluator.context.popLaunchFrame prevRegE
  { evaluator with
    context := context
    work := image.executableCodeWork (method image context) }

def failPrimitive (evaluator : Evaluator) : Evaluator :=
  { evaluator with context := evaluator.context.incRegPC }

/-- Fail and hand an error object to the fallback code in its first temporary. -/
def failPrimitiveWith (evaluator : Evaluator) (errorObject : Word) : Evaluator :=
  if 0 < image.methodTempCount (method image evaluator.context) then
    failPrimitive { evaluator with context := evaluator.context.stackTemporaryAtPut 1 errorObject }
  else failPrimitive evaluator

/-- Create a closure at a fresh address; a block passes its own home on. -/
def captureClosure (evaluator : Evaluator) (compiledCode fresh : Word) : Evaluator :=
  let home :=
    if image.isBlock evaluator.context.regM then
      (evaluator.closures evaluator.context.regE).home
    else some evaluator.context.regBP
  { evaluator with
    closures := Function.update evaluator.closures fresh
      ⟨compiledCode, home, evaluator.context.regS⟩
    regR := fresh }

/-- A non-local return sends `return:` to the closure that is running. -/
def visitOpNonLocalReturn (evaluator : Evaluator) (fresh : Word) : Option Evaluator :=
  invokeWith image { evaluator with context := evaluator.context.push evaluator.regR }
    image.closureReturnMethod evaluator.context.regE fresh

/-- The operations whose effect needs neither the heap nor another activation. -/
def execute (evaluator : Evaluator) : Operation → Option Evaluator
  | .literal object => some { evaluator with regR := object }
  | .assign temporaries =>
    some { evaluator with
      context := temporaries.foldl (fun context (index : Nat) =>
        context.stackTemporaryAtPut index evaluator.regR) evaluator.context }
  | .dropToS count => some { evaluator with context := evaluator.context.dropOperands count }
  | .jump target =>
    some { evaluator with context := { evaluator.context with regPC := target } }
  | .jumpFalse target =>
    some (if evaluator.regR = image.falseObj then
      { evaluator with context := { evaluator.context with regPC := target } } else evaluator)
  | .jumpTrue target =>
    some (if evaluator.regR = image.trueObj then
      { evaluator with context := { evaluator.context with regPC := target } } else evaluator)
  | .loadRfromFrame index =>
    some { evaluator with regR := evaluator.context.stackTemporaryAt index }
  | .loadRfromStack index => some { evaluator with regR := evaluator.context.operandAt index }
  | .loadRwithNil => some { evaluator with regR := image.nilObj }
  | .loadRwithSelf => some { evaluator with regR := evaluator.context.regS }
  | .popR =>
    let (object, context) := evaluator.context.pop
    some { evaluator with regR := object, context := context }
  | .pushR => some { evaluator with context := evaluator.context.push evaluator.regR }
  | .storeRintoFrame index =>
    some { evaluator with context := evaluator.context.stackTemporaryAtPut index evaluator.regR }
  | _ => none

end Evaluator

end Egg.Evaluation
