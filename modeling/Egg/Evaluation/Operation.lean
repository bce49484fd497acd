import Egg.Evaluation.Context

/-! The operations of linearized code and the code objects they belong to. -/
namespace Egg.Evaluation

/-- An operation of a work list, with what it needs of its operands. -/
inductive Operation where
  | identifier
  | literal (object : Word)
  | block (compiledCode : Word)
  | assign (temporaries : List Nat)
  | dispatchMessage (selector : Word) (argumentCount : Nat)
  | dropToS (count : Nat)
  | jump (target : Nat)
  | jumpFalse (target : Nat)
  | jumpTrue (target : Nat)
  | loadRfromFrame (index : Nat)
  | loadRfromStack (index : Nat)
  | loadRwithNil
  | loadRwithSelf
  | nonLocalReturn
  | popR
  | primitive
  | pushR
  | return
  | storeRintoFrame (index : Nat)
  deriving DecidableEq

namespace Operation

/-- The operands an operation consumes or reads. -/
def operands : Operation → Nat
  | dispatchMessage _ argumentCount => argumentCount
  | dropToS count => count
  | loadRfromStack index => index + 1
  | popR => 1
  | _ => 0

/-- The operand depth an operation leaves behind. -/
def depthAfter (depth : Nat) : Operation → Nat
  | dropToS count => depth - count
  | popR => depth - 1
  | pushR => depth + 1
  | _ => depth

/-- Where control can go inside the same work list; a failing primitive skips one. -/
def successors (position : Nat) : Operation → List Nat
  | jump target => [target]
  | jumpFalse target => [target, position + 1]
  | jumpTrue target => [target, position + 1]
  | primitive => [position + 1, position + 2]
  | .return => []
  | _ => [position + 1]

/-- The frame slots an operation writes. -/
def stores : Operation → List Nat
  | assign temporaries => temporaries
  | storeRintoFrame index => [index]
  | _ => []

end Operation

/-- What the evaluator reads of compiled code and of the well-known objects. -/
structure Image where
  nilObj : Word
  trueObj : Word
  falseObj : Word
  isBlock : Word → Bool
  isLauncher : Word → Bool
  methodTempCount : Word → Nat
  blockTempCount : Word → Nat
  methodNeedsEnvironment : Word → Bool
  blockCapturesSelf : Word → Bool
  blockMethod : Word → Word
  closureReturnMethod : Word
  executableCodeWork : Word → List Operation

def Image.temporaryCountOf (image : Image) (code : Word) : Nat :=
  if image.isBlock code then image.blockTempCount code else image.methodTempCount code

/-- Code whose operands stay inside its own frame wherever control goes. -/
structure WellFormed (image : Image) where
  depth : Word → Nat → Nat
  start : ∀ code, depth code 0 = 0
  operands : ∀ code position (operation : Operation), image.isLauncher code = false →
    (image.executableCodeWork code)[position]? = some operation →
    operation.operands ≤ depth code position
  flow : ∀ code position (operation : Operation), image.isLauncher code = false →
    (image.executableCodeWork code)[position]? = some operation →
    ∀ next ∈ operation.successors position,
      depth code next ≤ operation.depthAfter (depth code position)
  stores : ∀ code position (operation : Operation), image.isLauncher code = false →
    (image.executableCodeWork code)[position]? = some operation →
    ∀ index ∈ operation.stores,
      0 < index ∧ index ≤ image.temporaryCountOf code + depth code position
  primitives : ∀ code (position : Nat), image.isLauncher code = false →
    (image.executableCodeWork code)[position]? = some Operation.primitive →
    image.isBlock code = false

end Egg.Evaluation
