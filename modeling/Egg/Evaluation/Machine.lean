import Egg.Evaluation.Evaluator

/-! Runs of the evaluator, with a record of the activations they nest. -/
namespace Egg.Evaluation

/-- Whether the evaluation loop or a primitive's native code is in control. -/
inductive Control where
  | running
  | native
  deriving DecidableEq

/-- An activation as it was entered, with the state of its sender at the send.
`reentered` says that a send from native code has ended in it since it got control. -/
structure Activation where
  serial : Nat
  launch : Bool
  bp : Int
  receiver : Word
  code : Word
  environment : Word
  reentered : Bool
  sender : Evaluator

/-- The evaluator with the activations that have not ended, innermost first. -/
structure Machine where
  evaluator : Evaluator
  control : Control
  activations : List Activation
  serials : Nat

namespace Machine

/-- The record of an activation that starts in the state `entered`. -/
def newActivation (machine : Machine) (launch : Bool) (sender entered : Evaluator) :
    Activation where
  serial := machine.serials
  launch := launch
  bp := entered.context.regBP
  receiver := entered.context.regS
  code := entered.context.regM
  environment := entered.context.regE
  reentered := false
  sender := sender

def activate (machine : Machine) (launch : Bool) (sender entered : Evaluator)
    (outer : List Activation) : Machine where
  evaluator := entered
  control := .running
  activations := machine.newActivation launch sender entered :: outer
  serials := machine.serials + 1

/-- Give control back to the innermost activation, whose E has just been set. -/
def resume (machine : Machine) (control : Control) (reentered : Bool) (evaluator : Evaluator)
    (outer : List Activation) : Machine where
  evaluator := evaluator
  control := control
  activations := match outer with
    | [] => []
    | top :: rest => { top with reentered := reentered } :: rest
  serials := machine.serials

/-- Stay in the innermost activation. -/
def stay (machine : Machine) (control : Control) (evaluator : Evaluator) : Machine :=
  { machine with control := control, evaluator := evaluator }

/-- The loop fetches an operation. -/
def Fetches (machine : Machine) (operation : Operation) (evaluator : Evaluator) : Prop :=
  machine.control = .running ∧ machine.evaluator.nextOperation = (some operation, evaluator)

end Machine

/-- The activations below the one whose frame is at `home`. -/
def belowHome (home : Int) : List Activation → List Activation
  | [] => []
  | top :: rest => if top.bp = home then rest else belowHome home rest

/-- What a step does to the activations. -/
inductive Action where
  | stay
  | enter
  | notUnderstood
  | return
  | returnTo (home : Int)
  | endSend

open Machine in
/-- One step of the evaluator; heap-dependent values are left open. -/
inductive Step (image : Image) : Machine → Action → Machine → Prop where
  | execute {machine operation fetched done} :
      machine.Fetches operation fetched → fetched.execute image operation = some done →
      Step image machine .stay (machine.stay .running done)
  | identifier {machine fetched} (value : Word) :
      machine.Fetches .identifier fetched →
      Step image machine .stay (machine.stay .running { fetched with regR := value })
  | block {machine compiledCode fetched} (fresh : Word) :
      machine.Fetches (.block compiledCode) fetched →
      Step image machine .stay
        (machine.stay .running (fetched.captureClosure image compiledCode fresh))
  | undermessage {machine selector argumentCount fetched} (answer : Word → List Word → Word) :
      machine.Fetches (.dispatchMessage selector argumentCount) fetched →
      Step image machine .stay
        (machine.stay .running (fetched.evaluateUndermessageWith argumentCount
          fun popped arguments => { popped with regR := answer popped.regR arguments }))
  | invoke {machine selector argumentCount fetched entered} (method fresh : Word) :
      machine.Fetches (.dispatchMessage selector argumentCount) fetched →
      image.isBlock method = false → image.isLauncher method = false →
      fetched.invokeWith image method fetched.regR fresh = some entered →
      Step image machine .enter (machine.activate false fetched entered machine.activations)
  | messageNotUnderstood {machine selector argumentCount fetched entered}
      (array dnu fresh : Word) :
      machine.Fetches (.dispatchMessage selector argumentCount) fetched →
      image.isBlock dnu = false → image.isLauncher dnu = false →
      fetched.messageNotUnderstood image selector array dnu fresh = some entered →
      Step image machine .notUnderstood
        (machine.activate false
          { fetched with context := (fetched.context.push selector).push array } entered
          machine.activations)
  | returnTo {machine selector fetched} :
      machine.Fetches (.dispatchMessage selector 1) fetched →
      Step image machine (.returnTo (fetched.context.operandAt 0))
        (machine.resume .running false
          (fetched.evaluateUndermessageWith 1 (·.underprimitiveReturnTo image))
          (belowHome (fetched.context.operandAt 0) machine.activations))
  | nonLocalReturn {machine fetched entered} (fresh : Word) :
      machine.Fetches .nonLocalReturn fetched →
      image.isBlock image.closureReturnMethod = false →
      image.isLauncher image.closureReturnMethod = false →
      fetched.visitOpNonLocalReturn image fresh = some entered →
      Step image machine .enter
        (machine.activate false
          { fetched with context := fetched.context.push fetched.regR } entered
          machine.activations)
  | return {machine fetched} :
      machine.Fetches .return fetched →
      Step image machine .return
        (machine.resume .running false (fetched.visitOpReturn image) machine.activations.tail)
  | primitive {machine fetched} :
      machine.Fetches .primitive fetched →
      Step image machine .stay (machine.stay .native fetched)
  | finish {machine} (value : Word) :
      machine.control = .native → machine.activations ≠ [] →
      Step image machine .stay
        (machine.stay .running { machine.evaluator with regR := value })
  | failPrimitive {machine} :
      machine.control = .native → machine.activations ≠ [] →
      Step image machine .stay (machine.stay .running machine.evaluator.failPrimitive)
  | failPrimitiveWith {machine} (errorObject : Word) :
      machine.control = .native → machine.activations ≠ [] →
      Step image machine .stay
        (machine.stay .running (machine.evaluator.failPrimitiveWith image errorObject))
  | evaluateClosure {machine value outer entered} (closure : Word) :
      machine.control = .native → machine.activations = value :: outer →
      image.isBlock (machine.evaluator.closures closure).block = true →
      image.isLauncher (machine.evaluator.closures closure).block = false →
      machine.evaluator.evaluateClosureWithArgs image closure = some entered →
      Step image machine .enter (machine.activate false value.sender entered outer)
  | perform {machine entered} (method : Word) (arguments : List Word) (fresh : Word) :
      machine.control = .native → machine.activations ≠ [] →
      image.isBlock method = false → image.isLauncher method = false →
      machine.evaluator.evaluatePerformInWithArgs image method machine.evaluator.context.regS
        arguments fresh = some entered →
      Step image machine .enter
        (machine.activate false
          { machine.evaluator with context := machine.evaluator.context.pushAll arguments }
          entered machine.activations)
  | sendToWith {machine entered} (symbol launcher receiver : Word) (arguments : List Word) :
      machine.control = .native → image.isLauncher launcher = true →
      image.isBlock launcher = false →
      image.methodTempCount launcher = 0 →
      image.executableCodeWork launcher = [.dispatchMessage symbol arguments.length] →
      machine.evaluator.sendToWith image launcher receiver arguments = some entered →
      Step image machine .enter
        (machine.activate true machine.evaluator entered machine.activations)
  -- Other work lists end behind a return, or behind a `^`, which does not come back.
  | endSend {machine launcher outer fetched} :
      machine.control = .running → machine.evaluator.nextOperation = (none, fetched) →
      machine.activations = launcher :: outer → launcher.launch = true →
      Step image machine .endSend
        (machine.resume .native true (fetched.endSend image launcher.environment) outer)

/-- The evaluator before the host has sent anything. -/
def Machine.start (image : Image) (stack : Int → Word) : Machine where
  evaluator :=
    { context :=
        { regS := 0, regM := 0, regE := image.nilObj, regSP := EvaluationContext.stackSize + 1
          regBP := 0, regPC := 0, stack := stack }
      regR := 0
      work := []
      closures := fun _ => ⟨0, none, 0⟩ }
  control := .native
  activations := []
  serials := 0

/-- A run whose every step satisfies a condition on the state before it. -/
inductive Run (image : Image) (allowed : Machine → Action → Prop) : Machine → Machine → Prop where
  | refl (machine : Machine) : Run image allowed machine machine
  | step {first middle last action} : Run image allowed first middle → allowed middle action →
      Step image middle action last → Run image allowed first last

end Egg.Evaluation
