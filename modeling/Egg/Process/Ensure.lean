import Egg.Evaluation.NonLocalReturn

/-! Protected evaluations of the active process and the returns that unwind them. -/
namespace Egg.Process.Ensure

open Egg.Evaluation (Word EvaluationContext canReturnTo)

/-- The objects that the kernel methods of this part are built from. -/
structure Image where
  nilObj : Word
  process : Word
  nativeStack : Word
  evaluateEnsuring : Word
  nativeStackBP : Word
  closureReturn : Word
  nonLocalReturnHome : Word
  canReturnTo : Word
  evaluateEnsuredUpTo : Word

/-- What a send finds to activate. -/
structure Callee where
  receiver : Word
  code : Word
  environment : Word
  temps : Nat

/-- A kernel method, none of which captures its temporaries. -/
def Image.kernel (image : Image) (receiver code : Word) (temps : Nat) : Callee where
  receiver := receiver
  code := code
  environment := image.nilObj
  temps := temps

/-- One use of `evaluate:ensuring:`, numbered in the order of entry. -/
structure Protection where
  number : Nat
  cursor : Int
  ensuredClosure : Word
deriving DecidableEq

/-- What an activation is doing: `evaluate:ensuring:` evaluates first its closure and then
the ensured one, and `evaluateEnsuredUpTo:` unwinds. -/
inductive Role where
  | code
  | protecting (protection : Protection)
  | ensuring (protection : Protection)
  | unwinding (home : Int)
deriving DecidableEq

/-- An activation, its frame and the protected frames there were when it began. -/
structure Activation where
  bp : Int
  role : Role
  pending : List Int
deriving DecidableEq

/-- The active process. The last protected frame comes first. `ran` keeps, latest first, the
protections whose ensured closure was evaluated and how many had been entered by then. -/
structure ActiveProcess where
  context : EvaluationContext
  protectedFrames : List Int
  activations : List Activation
  entered : Nat
  ran : List (Nat × Nat)

/-- What the active process does next. Sends name what they activate. -/
inductive Event where
  | push (object : Word)
  | drop (count : Nat)
  | store (index : Nat) (object : Word)
  | jump (pc : Int)
  | call (operands : List Word) (callee : Callee)
  | leave
  | evaluateEnsuring (aClosure ensuredClosure : Word) (callee : Callee)
  | closureReturned (result : Word) (callee : Callee)
  | ensuredReturned
  | nonLocalReturn (closure result : Word) (home : Int)
  | evaluateEnsured (callee : Callee)
  | returnTo

section Code

variable (image : Image)

/-- Push the operands of a send and build the frame of what it activates. -/
def send (context : EvaluationContext) (operands : List Word) (callee : Callee) :
    Option EvaluationContext :=
  (context.pushAll operands).buildFrameFor image.nilObj callee.receiver callee.code
    callee.environment callee.temps

/-- `self nativeStack bp` answers the frame pointer of the method `bp` itself. -/
def nativeStackBP (context : EvaluationContext) : Option (Int × EvaluationContext) :=
  (send image context [] (image.kernel image.nativeStack image.nativeStackBP 0)).map
    fun answering => (answering.regBP, answering.popFrame)

/-- The argument of a send lies over the saved PC of its frame. -/
def lastArgumentOf (context : EvaluationContext) (frame : Int) : Word :=
  context.stack (frame + 2)

namespace ActiveProcess

/-- Begin an activation in the frame the context has just built. -/
def activate (process : ActiveProcess) (context : EvaluationContext) (role : Role) :
    ActiveProcess :=
  { process with
    context := context
    activations := ⟨context.regBP, role, process.protectedFrames⟩ :: process.activations }

/-- Take note that the ensured closure of a protection is evaluated. -/
def note (process : ActiveProcess) (evaluated : Word) (protection : Protection) :
    ActiveProcess :=
  if evaluated = protection.ensuredClosure then
    { process with ran := (protection.number, process.entered) :: process.ran }
  else process

/-- Ordinary code works on its own temporaries and operands. -/
def work (process : ActiveProcess) (context : EvaluationContext) : Option ActiveProcess :=
  match process.activations with
  | ⟨_, .code, _⟩ :: _ => some { process with context := context }
  | _ => none

def call (process : ActiveProcess) (operands : List Word) (callee : Callee) :
    Option ActiveProcess :=
  match process.activations with
  | ⟨_, .code, _⟩ :: _ =>
    (send image process.context operands callee).map fun context =>
      process.activate context .code
  | _ => none

def leave (process : ActiveProcess) : Option ActiveProcess :=
  match process.activations with
  | ⟨_, .code, _⟩ :: outer =>
    some { process with context := process.context.popFrame, activations := outer }
  | _ => none

/-- `evaluate:ensuring:` up to the evaluation of its closure. -/
def evaluateEnsuring (process : ActiveProcess) (aClosure ensuredClosure : Word)
    (callee : Callee) : Option ActiveProcess :=
  match process.activations with
  | ⟨_, .code, _⟩ :: _ => do
    let entered ← send image process.context [image.process, aClosure, ensuredClosure]
      (image.kernel image.process image.evaluateEnsuring 3)
    let (cursor, returned) ← nativeStackBP image entered
    let protecting := { process.activate (returned.stackTemporaryAtPut 1 cursor)
        (.protecting ⟨process.entered, cursor, ensuredClosure⟩) with
      protectedFrames := cursor :: process.protectedFrames
      entered := process.entered + 1 }
    let evaluating ← send image protecting.context [] callee
    some (protecting.activate evaluating .code)
  | _ => none

/-- Once the closure has returned, `evaluate:ensuring:` evaluates the ensured one, unless
the protected frame it pops is not its own. -/
def closureReturned (process : ActiveProcess) (result : Word) (callee : Callee) :
    Option ActiveProcess :=
  match process.activations, process.protectedFrames with
  | ⟨bp, .protecting protection, pending⟩ :: outer, prev :: protectedFrames => do
    let stored := (process.context.stackTemporaryAtPut 2 result).stackTemporaryAtPut 3 prev
    if prev ≠ stored.stackTemporaryAt 1 then none
    let evaluating ← send image stored [] callee
    let ensuring := { process with
      protectedFrames := protectedFrames
      activations := ⟨bp, .ensuring protection, pending⟩ :: outer }
    some ((ensuring.note (lastArgumentOf stored bp) protection).activate evaluating .code)
  | _, _ => none

def ensuredReturned (process : ActiveProcess) : Option ActiveProcess :=
  match process.activations with
  | ⟨_, .ensuring _, _⟩ :: outer =>
    some { process with context := process.context.popFrame, activations := outer }
  | _ => none

/-- A block's `^` sends `return:` to its closure, which sends `nonLocalReturn:home:`; that
checks the home frame and sends `evaluateEnsuredUpTo:`. -/
def nonLocalReturn (process : ActiveProcess) (closure result : Word) (home : Int) :
    Option ActiveProcess :=
  match process.activations with
  | ⟨_, .code, _⟩ :: _ => do
    let returning ← send image process.context [result]
      (image.kernel closure image.closureReturn 0)
    let sending ← send image returning [image.process, result, home]
      (image.kernel image.process image.nonLocalReturnHome 0)
    let checking ← send image sending [image.process, home]
      (image.kernel image.process image.canReturnTo 2)
    let (bp, answered) ← nativeStackBP image (checking.push home)
    if canReturnTo (some home) bp = false then none
    let checked := answered.popFrame.dropOperands 2
    let unwinding ← send image checked [image.process, home]
      (image.kernel image.process image.evaluateEnsuredUpTo 1)
    some (((process.activate returning .code).activate sending .code).activate unwinding
      (.unwinding home))
  | _ => none

/-- The protection whose activation pushed a protected frame. -/
def protectionAt (process : ActiveProcess) (frame : Int) : Option Protection :=
  process.activations.findSome? fun activation =>
    match activation.role with
    | .protecting protection => if protection.cursor = frame then some protection else none
    | _ => none

/-- One turn of the loop of `evaluateEnsuredUpTo:`. -/
def evaluateEnsured (process : ActiveProcess) (callee : Callee) : Option ActiveProcess :=
  match process.activations, process.protectedFrames with
  | ⟨_, .unwinding home, _⟩ :: _, last :: protectedFrames =>
    if last ≤ home then do
      let ensured := lastArgumentOf process.context last
      let evaluating ← send image (process.context.stackTemporaryAtPut 1 ensured) [] callee
      let popped := { process with protectedFrames := protectedFrames }
      let noted := match process.protectionAt last with
        | some protection => popped.note ensured protection
        | none => popped
      some (noted.activate evaluating .code)
    else none
  | _, _ => none

/-- The loop is over when no protected frame is left or the last one is beyond the home
frame. `evaluateEnsuredUpTo:` returns, and `_returnTo:` leaves the home frame. -/
def returnTo (process : ActiveProcess) : Option ActiveProcess :=
  match process.activations with
  | ⟨_, .unwinding home, _⟩ :: _ =>
    if process.protectedFrames.head?.any (· ≤ home) then none
    else match process.activations.dropWhile (fun activation => activation.bp ≠ home) with
      | [] => none
      | _ :: below =>
        some { process with
          context := { process.context with regBP := home }.popFrame
          activations := below }
  | _ => none

def step (process : ActiveProcess) : Event → Option ActiveProcess
  | .push object => process.work (process.context.push object)
  | .drop count =>
    if process.context.regSP + count ≤ process.context.regBP - 4 then
      process.work (process.context.dropOperands count)
    else none
  | .store index object =>
    if 1 ≤ index then process.work (process.context.stackTemporaryAtPut index object) else none
  | .jump pc => process.work { process.context with regPC := pc }
  | .call operands callee => process.call image operands callee
  | .leave => process.leave
  | .evaluateEnsuring aClosure ensuredClosure callee =>
    process.evaluateEnsuring image aClosure ensuredClosure callee
  | .closureReturned result callee => process.closureReturned image result callee
  | .ensuredReturned => process.ensuredReturned
  | .nonLocalReturn closure result home => process.nonLocalReturn image closure result home
  | .evaluateEnsured callee => process.evaluateEnsured image callee
  | .returnTo => process.returnTo

/-- A process in its first activation, with no protected frames yet. -/
def start (context : EvaluationContext) : ActiveProcess where
  context := context
  protectedFrames := []
  activations := [⟨context.regBP, .code, []⟩]
  entered := 0
  ran := []

/-- A run whose every event satisfies a condition on the process before it. -/
inductive Run (allowed : ActiveProcess → Event → Prop) : ActiveProcess → ActiveProcess → Prop where
  | refl (process : ActiveProcess) : Run allowed process process
  | step {first middle last event} : Run allowed first middle → allowed middle event →
      middle.step image event = some last → Run allowed first last

end ActiveProcess

end Code

end Egg.Process.Ensure
