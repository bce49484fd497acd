import Egg.Data.StructuredEffects
import Egg.Linearizer.Emission
import Egg.Linearizer.TreeMeaning

/-! What operations do to R, the operands and the rest of the world. -/
namespace Egg.Linearizer

open Egg.Treecode Egg.Data Egg.Data.StructuredCode

variable {Value World Abandoned : Type}

/-- What the operations of an activation work on; the last operand comes first. -/
structure Registers (Value World : Type) where
  R : Value
  operands : List Value
  world : World

section Operations

variable (surroundings : Surroundings Value World Abandoned)

/-- A slot of the frame: a temporary, or the place of an operand behind the temporaries. -/
def Registers.frameAt (temps index : Int) (registers : Registers Value World) : Option Value :=
  if index ≤ temps then some (surroundings.temporary index registers.world)
  else registers.operands.reverse[(index - temps - 1).toNat]?

def Registers.frameAtPut (temps index : Int) (registers : Registers Value World) :
    Option (Registers Value World) :=
  if index ≤ temps then
    some { registers with
      world := surroundings.setTemporary index registers.R registers.world }
  else if (index - temps - 1).toNat < registers.operands.length then
    some { registers with operands :=
      (registers.operands.reverse.set (index - temps - 1).toNat registers.R).reverse }
  else none

/-- Go on with the next operation, if there is something to go on with. -/
def proceed (position : Nat) : Option (Registers Value World) →
    Outcomes (Ended Value World Abandoned) (Nat × Registers Value World)
  | some registers => pure (position + 1, registers)
  | none => Outcomes.never

/-- Answer a value in R, and go on with the next operation. -/
def answering (position : Nat) (registers : Registers Value World)
    (meaning : Meaning Value World Abandoned Value) :
    Outcomes (Ended Value World Abandoned) (Nat × Registers Value World) :=
  (fun after => (position + 1, { registers with R := after.1, world := after.2 })) <$>
    meaning.run registers.world

/-- An operation by itself; operands that are not there, which no code reads, give no outcome. -/
def Operation.perform [DecidableEq Value] (temps : Int) (position : Nat)
    (registers : Registers Value World) :
    Operation → Outcomes (Ended Value World Abandoned) (Nat × Registers Value World)
  | .literal none => proceed position (some { registers with R := surroundings.nilObj })
  | .literal (some value) =>
    proceed position (some { registers with R := surroundings.literal value })
  | .identifier binding => answering position registers (surroundings.valueOf binding)
  | .block compiledCode capturedVariables =>
    answering position registers (surroundings.closure compiledCode capturedVariables)
  | .assign assignees => answering position registers do
    surroundings.assign assignees registers.R
    pure registers.R
  | .dispatchMessage selector isSuper argumentCount =>
    if argumentCount ≤ registers.operands.length then
      answering position registers
        (surroundings.send selector isSuper registers.R
          (registers.operands.take argumentCount).reverse)
    else Outcomes.never
  | .dropToS count =>
    if count ≤ registers.operands.length then
      pure (position + 1, { registers with operands := registers.operands.drop count })
    else Outcomes.never
  | .jump target => pure (target, registers)
  | .jumpFalse target =>
    pure (if registers.R = surroundings.falseObj then target else position + 1, registers)
  | .jumpTrue target =>
    pure (if registers.R = surroundings.trueObj then target else position + 1, registers)
  | .loadRfromFrame index => proceed position
      ((registers.frameAt surroundings temps index).map ({ registers with R := · }))
  | .loadRfromStack index =>
    proceed position (registers.operands[index]?.map ({ registers with R := · }))
  | .loadRwithNil => proceed position (some { registers with R := surroundings.nilObj })
  | .loadRwithSelf =>
    proceed position (some { registers with R := surroundings.self registers.world })
  | .nonLocalReturn => Outcomes.stop (.nonLocalReturned registers.R registers.world)
  | .popR => proceed position (registers.operands.head?.map
      ({ registers with R := ·, operands := registers.operands.tail }))
  | .primitive name =>
    -- A primitive that fails leaves R as it is and skips the return behind it.
    (fun after => after.1.elim (position + 2, { registers with world := after.2 })
      (fun value => (position + 1, { registers with R := value, world := after.2 }))) <$>
      (surroundings.primitive name).run registers.world
  | .pushR =>
    proceed position (some { registers with operands := registers.R :: registers.operands })
  | .return => Outcomes.stop (.returned registers.R registers.world)
  | .storeRintoFrame index => proceed position (registers.frameAtPut surroundings temps index)

/-- The evaluator, in an activation with so many temporaries. -/
def evaluator [DecidableEq Value] (temps : Int) :
    Semantics Emitted (Registers Value World) (Ended Value World Abandoned) :=
  fun emitted position registers =>
    emitted.operation.perform surroundings temps position registers

end Operations

/-- The operations on the frame name temporaries, or an operand that was pushed before any `popR`
was emitted. -/
def Addressed (temps : Int) (code : List Emitted) : Prop :=
  ∀ emitted ∈ code,
    (emitted.operand = none → ∀ index ∈ emitted.operation.frameIndex, index ≤ temps) ∧
      ∀ position ∈ emitted.operand, machine.marksBefore code position = 0

instance (temps : Int) (code : List Emitted) : Decidable (Addressed temps code) :=
  List.decidableBAll _ code

end Egg.Linearizer
