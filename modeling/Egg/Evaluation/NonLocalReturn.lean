import Egg.Evaluation.Identity

/-! Returns out of blocks, which know their home by its frame pointer only. -/
namespace Egg.Evaluation

/-- The kernel methods that `Closure>>return:` goes through. -/
structure ReturnMethods where
  nonLocalReturnHome : Word
  canReturnTo : Word
  nativeStackBP : Word

/-- `canReturnTo:` rejects no frame but nil and those below the native stack's `bp`. -/
def canReturnTo (homeFrame : Option Int) (bp : Int) : Bool :=
  match homeFrame with
  | none => false
  | some frame => if frame < bp then false else true

/-- What `self nativeStack bp` answers to `canReturnTo:`: the frame pointer of the method
`bp` itself, called while `homeFrame` waits as the receiver of `<`. -/
def Evaluator.nativeStackBP (image : Image) (methods : ReturnMethods) (evaluator : Evaluator)
    (process framePointer nativeStack : Word) : Option Int := do
  let checking ← Evaluator.invokeWith image
    { evaluator with context := evaluator.context.pushAll [process, framePointer] }
    methods.canReturnTo process image.nilObj
  let answering ← Evaluator.invokeWith image
    { checking with context := checking.context.push framePointer }
    methods.nativeStackBP nativeStack image.nilObj
  some answering.context.regBP

/-- The activation that a closure has to return from, and where its frame was. -/
structure Home where
  activation : Nat
  frame : Int

/-- A machine together with the home each closure was created in, and with the home each
activation of `nonLocalReturn:home:` has been let through to. -/
structure Tracked where
  machine : Machine
  homes : Word → Option Home
  returning : Nat → Option Home

/-- The method activation that a closure created now belongs to. -/
def Tracked.creator (image : Image) (state : Tracked) : Option Home :=
  match state.machine.activations with
  | [] => none
  | top :: _ =>
    if image.isBlock top.code then state.homes top.environment else some ⟨top.serial, top.bp⟩

/-- From a block's `^` to the entry of `nonLocalReturn:home:`: the closure gets `return:`,
which pushes a receiver and two arguments and sends on. The parameters are the closure, the remembered
home and the `bp` that `canReturnTo:` compares it with. -/
inductive NonLocalReturn (image : Image) (methods : ReturnMethods) :
    Machine → Word → Option Int → Int → Machine → Prop where
  | intro {machine fetched returning sending selector sent entered bp}
      (fresh inner process framePointer nativeStack : Word) :
      machine.Fetches .nonLocalReturn fetched →
      image.isBlock image.closureReturnMethod = false →
      image.isLauncher image.closureReturnMethod = false →
      fetched.visitOpNonLocalReturn image fresh = some returning →
      Run image HomesActive
        (machine.activate false
          { fetched with context := fetched.context.push fetched.regR } returning
          machine.activations) sending →
      sending.activations = (machine.activate false
          { fetched with context := fetched.context.push fetched.regR } returning
          machine.activations).activations →
      sending.evaluator.closures = machine.evaluator.closures →
      sending.Fetches (.dispatchMessage selector 2) sent →
      sent.context.regSP = returning.context.regSP - 3 →
      image.isBlock methods.nonLocalReturnHome = false →
      image.isLauncher methods.nonLocalReturnHome = false →
      sent.invokeWith image methods.nonLocalReturnHome sent.regR inner = some entered →
      entered.nativeStackBP image methods process framePointer nativeStack = some bp →
      NonLocalReturn image methods machine fetched.context.regE
        (machine.evaluator.closures fetched.context.regE).home bp
        (sending.activate false sent entered sending.activations)

/-- What matters of a tracked step. -/
inductive Event where
  | other
  | nonLocalReturn (activation : Nat) (home : Home)
  | returnTo (activation : Nat)

/-- The machine's steps. A non-local return is let through or rejected by `canReturnTo:`, and
only `nonLocalReturn:home:` sends `_returnTo:`, with its second argument, once let through. -/
inductive TrackedStep (image : Image) (methods : ReturnMethods) :
    Tracked → Event → Tracked → Prop where
  | other {state action next} :
      Step image state.machine action next →
      (∀ compiledCode fetched, ¬ state.machine.Fetches (.block compiledCode) fetched) →
      (∀ fetched, ¬ state.machine.Fetches .nonLocalReturn fetched) →
      (∀ frame, action ≠ .returnTo frame) →
      TrackedStep image methods state .other { state with machine := next }
  | block {state compiledCode fetched} (fresh : Word) :
      state.machine.Fetches (.block compiledCode) fetched →
      TrackedStep image methods state .other
        { state with
          machine := state.machine.stay .running
            (fetched.captureClosure image compiledCode fresh)
          homes := Function.update state.homes fresh (state.creator image) }
  | nonLocalReturn {state closure homeFrame bp entered home top outer} :
      state.machine.activations = top :: outer → image.isBlock top.code = true →
      state.homes top.environment = some home →
      NonLocalReturn image methods state.machine closure homeFrame bp entered →
      TrackedStep image methods state (.nonLocalReturn (entered.serials - 1) home)
        { state with
          machine := entered
          returning := Function.update state.returning (entered.serials - 1)
            (if canReturnTo homeFrame bp then some home else none) }
  | returnTo {state selector fetched top outer home} :
      state.machine.activations = top :: outer → state.returning top.serial = some home →
      state.machine.Fetches (.dispatchMessage selector 1) fetched →
      fetched.context.operandAt 0 = home.frame →
      TrackedStep image methods state (.returnTo top.serial)
        { state with
          machine := state.machine.resume .running false
            (fetched.evaluateUndermessageWith 1 (·.underprimitiveReturnTo image))
            (belowHome (fetched.context.operandAt 0) state.machine.activations) }

/-- A run whose every step satisfies a condition on the state before it. -/
inductive TrackedRun (image : Image) (methods : ReturnMethods)
    (allowed : Tracked → Event → Prop) : Tracked → Tracked → Prop where
  | refl (state : Tracked) : TrackedRun image methods allowed state state
  | step {first middle last event} : TrackedRun image methods allowed first middle →
      allowed middle event → TrackedStep image methods middle event last →
      TrackedRun image methods allowed first last

def Tracked.start (image : Image) (stack : Int → Word) : Tracked where
  machine := Machine.start image stack
  homes := fun _ => none
  returning := fun _ => none

/-- The very activation is still on the stack. -/
def Home.Active (home : Home) (machine : Machine) : Prop :=
  ∃ activation ∈ machine.activations, activation.serial = home.activation

/-- How far below the SP of a `^` the frame of `bp` comes to lie. -/
def ReturnMethods.reach (image : Image) (methods : ReturnMethods) : Int :=
  27 + image.methodTempCount image.closureReturnMethod +
    image.methodTempCount methods.nonLocalReturnHome + image.methodTempCount methods.canReturnTo

/-- A non-local return whose home is active, or remembered beyond the reach of the stack. -/
def HomeActiveOrBelow (image : Image) (methods : ReturnMethods) (state : Tracked) :
    Event → Prop
  | .nonLocalReturn _ home => home.Active state.machine ∨
      home.frame < state.machine.evaluator.context.regSP - methods.reach image
  | _ => True

end Egg.Evaluation
