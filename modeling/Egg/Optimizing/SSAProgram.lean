import Egg.Optimizing.LivenessAnalysis
import Egg.Data.StepSimulation

/-! Programs of blocks with phis: their form, how they run and where their values are live. -/
namespace Egg.Optimizing

open Egg.Data.FlowGraph Egg.Data.StepSimulation

/-- An instruction that is no phi and ends no block. -/
inductive Instruction (Op Value : Type)
  | operation (value : Value) (name : Op) (operands : List Value)
  | copy (value : Value) (receiver : Value)

/-- The last instruction of a block with its operand; `onTrue` tells the conditional jumps apart. -/
inductive Exit (Block Value : Type)
  | leave (source : Value)
  | jump (target : Block)
  | jumpConditional (onTrue : Bool) (tested : Value) (target implicitTarget : Block)

structure OBasicBlock (Block Value Op : Type) where
  phis : List (OPhi Block Value)
  instructions : List (Instruction Op Value)
  lastInstruction : Exit Block Value
  predecessors : List Block

section Form

variable {Block Value Op : Type}

def Instruction.value : Instruction Op Value → Value
  | operation value _ _ => value
  | copy value _ => value

def Instruction.operands : Instruction Op Value → List Value
  | operation _ _ operands => operands
  | copy _ receiver => [receiver]

namespace Exit

def operands : Exit Block Value → List Value
  | leave source => [source]
  | jump _ => []
  | jumpConditional _ tested _ _ => [tested]

/-- Where the flow goes on. -/
def last : Exit Block Value → Last Block
  | leave _ => .leave
  | jump target => .jump target
  | jumpConditional _ _ target implicitTarget => .jumpConditional target implicitTarget

end Exit

/-- The last instructions of all blocks. -/
def lasts (code : Block → OBasicBlock Block Value Op) (block : Block) : Last Block :=
  (code block).lastInstruction.last

def OBasicBlock.definitions (block : OBasicBlock Block Value Op) : List Value :=
  block.phis.map OPhi.value ++ block.instructions.map Instruction.value

variable [DecidableEq Block]

/-- A block reads the value, itself or for the phis of a block after it. -/
def UsedIn (code : Block → OBasicBlock Block Value Op) (block : Block) (v : Value) : Prop :=
  (∃ instruction ∈ (code block).instructions, v ∈ instruction.operands) ∨
    v ∈ (code block).lastInstruction.operands ∨
      ∃ succ, Edge (lasts code) block succ ∧ ∃ phi ∈ (code succ).phis, phi.atOperand block = .ok v

/-- A control-flow graph in static single assignment form, whose predecessor lists agree with its
jumps. -/
structure StaticSingle (code : Block → OBasicBlock Block Value Op) (first : Block) : Prop where
  comes : ∀ b, Reachable (Edge (lasts code)) first b → ∀ p ∈ (code b).predecessors,
    Reachable (Edge (lasts code)) first p
  counts : ∀ b, Reachable (Edge (lasts code)) first b → ∀ p,
    Reachable (Edge (lasts code)) first p →
      (code b).predecessors.count p = (successors (lasts code) p).count b
  blocks : ∀ b, Reachable (Edge (lasts code)) first b → ∀ phi ∈ (code b).phis,
    phi.blocks.Perm (code b).predecessors ∧ phi.operands.length = phi.blocks.length
  start : (code first).phis = []
  distinct : ∀ b, Reachable (Edge (lasts code)) first b → (code b).definitions.Nodup
  single : ∀ b, Reachable (Edge (lasts code)) first b → ∀ c,
    Reachable (Edge (lasts code)) first c → ∀ v ∈ (code b).definitions,
      v ∈ (code c).definitions → b = c
  dominated : ∀ b, Reachable (Edge (lasts code)) first b → ∀ v ∈ (code b).definitions, ∀ u,
    Reachable (Edge (lasts code)) first u → UsedIn code u v →
      Dominates (Edge (lasts code)) first b u

end Form

section Runs

variable {Block Value Op : Type} [DecidableEq Block] [DecidableEq Value]

/-- What operations compute from values and a store. -/
structure Machine (Op Datum Store : Type) where
  evaluate : Op → List Datum → Store → Datum × Store
  isTrue : Datum → Bool

variable {Datum Store : Type} (machine : Machine Op Datum Store)

def Instruction.execute : Instruction Op Value → (Value → Datum) × Store → (Value → Datum) × Store
  | operation value name operands, (values, store) =>
    let (datum, store) := machine.evaluate name (operands.map values) store
    (Function.update values value datum, store)
  | copy value receiver, (values, store) =>
    (Function.update values value (values receiver), store)

def execute (instructions : List (Instruction Op Value)) (state : (Value → Datum) × Store) :
    (Value → Datum) × Store :=
  instructions.foldl (fun state instruction => instruction.execute machine state) state

/-- All phis take their operands at once. -/
def enter (phis : List (OPhi Block Value)) (pred : Block) (values : Value → Datum) (v : Value) :
    Datum :=
  match phis.find? (·.value = v) with
  | none => values v
  | some phi =>
    match phi.atOperand pred with
    | .ok operand => values operand
    | .error _ => values v

def Exit.next (values : Value → Datum) : Exit Block Value → Option Block
  | leave _ => none
  | jump target => some target
  | jumpConditional onTrue tested target implicitTarget =>
    some (if machine.isTrue (values tested) = onTrue then target else implicitTarget)

/-- A run stands behind the phis of a block. -/
structure RunState (Block Value Datum Store : Type) where
  block : Block
  values : Value → Datum
  store : Store

variable (code : Block → OBasicBlock Block Value Op)

/-- The values and the store behind the instructions of the block. -/
def RunState.after (state : RunState Block Value Datum Store) : (Value → Datum) × Store :=
  execute machine (code state.block).instructions (state.values, state.store)

def RunState.enters (state : RunState Block Value Datum Store) (target : Block) :
    RunState Block Value Datum Store :=
  ⟨target, enter (code target).phis state.block (state.after machine code).1,
    (state.after machine code).2⟩

def RunState.step (state : RunState Block Value Datum Store) :
    Option (RunState Block Value Datum Store) :=
  ((code state.block).lastInstruction.next machine (state.after machine code).1).map
    (state.enters machine code)

/-- What a block that returns answers, with the store. -/
def RunState.answer (state : RunState Block Value Datum Store) : Option (Datum × Store) :=
  match (code state.block).lastInstruction with
  | .leave source => some ((state.after machine code).1 source, (state.after machine code).2)
  | _ => none

variable {machine} in
omit [DecidableEq Block] [DecidableEq Value] in
theorem Exit.next_mem {exit : Exit Block Value} {values : Value → Datum} {target : Block}
    (goes : exit.next machine values = some target) : target ∈ exit.last.targets := by
  cases exit with
  | leave source => cases goes
  | jump target =>
    cases goes
    exact List.mem_cons_self
  | jumpConditional onTrue tested target implicitTarget =>
    cases goes
    show _ ∈ [implicitTarget, target]
    split
    · exact List.mem_cons_of_mem _ List.mem_cons_self
    · exact List.mem_cons_self

/-- The run from a state comes to an answer. -/
def Answers (state : RunState Block Value Datum Store) (answer : Datum × Store) : Prop :=
  ∃ n state', runs (RunState.step machine code) n state = some state' ∧
    state'.answer machine code = some answer

end Runs

section Liveness

variable {Block Value Op : Type} [DecidableEq Block]

/-- Before the rest of the instructions of a block, a value is used later and not defined before. -/
inductive LiveBefore (code : Block → OBasicBlock Block Value Op) (v : Value) :
    Block → List (Instruction Op Value) → Prop
  | used {b : Block} {instruction : Instruction Op Value} {rest : List (Instruction Op Value)}
      (operand : v ∈ instruction.operands) : LiveBefore code v b (instruction :: rest)
  | passed {b : Block} {instruction : Instruction Op Value} {rest : List (Instruction Op Value)}
      (other : instruction.value ≠ v) (later : LiveBefore code v b rest) :
      LiveBefore code v b (instruction :: rest)
  | tested {b : Block} (operand : v ∈ (code b).lastInstruction.operands) : LiveBefore code v b []
  | carried {b t : Block} {phi : OPhi Block Value} (edge : Edge (lasts code) b t)
      (member : phi ∈ (code t).phis) (operand : phi.atOperand b = .ok v) : LiveBefore code v b []
  | entered {b t : Block} (edge : Edge (lasts code) b t)
      (other : ∀ phi ∈ (code t).phis, phi.value ≠ v)
      (later : LiveBefore code v t (code t).instructions) : LiveBefore code v b []

variable (code : Block → OBasicBlock Block Value Op) (first : Block)

/-- Two values are live at one point of a block that is reached. -/
def Interfere (u v : Value) : Prop :=
  ∃ b rest, Reachable (Edge (lasts code)) first b ∧ rest <:+ (code b).instructions ∧
    LiveBefore code u b rest ∧ LiveBefore code v b rest

/-- The phi that makes one of the values has the other one as an operand, or both are operands. -/
def Congruent (u v : Value) : Prop :=
  ∃ b, Reachable (Edge (lasts code)) first b ∧ ∃ phi ∈ (code b).phis,
    (u = phi.value ∨ u ∈ phi.operands) ∧ (v = phi.value ∨ v ∈ phi.operands)

/-- The web of a phi; it goes on through other phis. -/
def InWeb (phi : OPhi Block Value) (v : Value) : Prop :=
  Relation.ReflTransGen (Congruent code first) phi.value v

end Liveness

end Egg.Optimizing
