import Egg.Optimizing.AllDominators
import Mathlib.Data.Set.Card

/-! The analysis of the values that are live, with the messages that are not understood. -/
namespace Egg.Optimizing

open Egg.Data Egg.Data.FlowGraph

/-- An instruction is known by its value; a jump or a return defines one too. -/
structure OInstruction (Value : Type) where
  value : Value
  operands : List Value

structure OPhi (Block Value : Type) where
  value : Value
  operands : List Value
  blocks : List Block

/-- The phis of a block, its instructions and the last of them, which is never a phi. -/
structure SSA (Block Value : Type) where
  flow : ControlFlow Block
  phis : Block → List (OPhi Block Value)
  instructions : Block → List (OInstruction Value)
  lastInstruction : Block → OInstruction Value

/-- Why an analysis has no answer: it runs on, or it raises an error. -/
inductive Failure
  | running
  | error

structure OptimizingLivenessAnalysis (Block Value : Type) where
  liveIn : Block → Option (List Value)
  pressures : Block → Option (Option Nat)
  expirations : Value → Option (List Value)

section Model

/-- `max:`, which nil does not understand. -/
def maxOf (receiver : Option Nat) (size : Nat) : Except Failure (Option Nat) :=
  match receiver with
  | none => .error .error
  | some number => .ok (some (max number size))

variable {Block Value : Type} [DecidableEq Block] [DecidableEq Value]

def addIfAbsent (collection : List Value) (value : Value) : List Value :=
  if value ∈ collection then collection else collection ++ [value]

def OPhi.atOperand (phi : OPhi Block Value) (name : Block) : Except Failure Value :=
  match phi.operands[phi.blocks.idxOf name]? with
  | none => .error .error
  | some value => .ok value

/-- The real instructions of a block, up to the last one. -/
def SSA.real (program : SSA Block Value) (block : Block) : List (OInstruction Value) :=
  program.instructions block ++ [program.lastInstruction block]

namespace OptimizingLivenessAnalysis

variable (program : SSA Block Value)

def gatherAliveAfter (analysis : OptimizingLivenessAnalysis Block Value) (block : Block) :
    Except Failure (List Value) := do
  let next := successors program.flow.last block
  let incoming := next.flatMap fun succ => (analysis.liveIn succ).getD []
  let extra ← next.mapM fun succ => (program.phis succ).mapM fun phi => phi.atOperand block
  return (incoming ++ extra.flatten).dedup

/-- The block of `realReverseDo:`; its own `presure` is nil. -/
def noticeInstruction (state : List Value × Option Nat) (instr : OInstruction Value) :
    Except Failure (List Value × Option Nat) := do
  let alive := instr.operands.foldl addIfAbsent state.1
  let alive := alive.erase instr.value
  let presure : Option Nat := none
  let pressure ← maxOf presure alive.length
  return (alive, pressure)

def analyzeLivenessOf (analysis : OptimizingLivenessAnalysis Block Value) (block : Block) :
    Except Failure (OptimizingLivenessAnalysis Block Value × Bool) := do
  let alive ← analysis.gatherAliveAfter program block
  let pressure := (analysis.pressures block).getD (some 0)
  let (alive, pressure) ← (program.real block).reverse.foldlM noticeInstruction (alive, pressure)
  let alive := (program.phis block).reverse.foldl (fun alive phi => alive.erase phi.value) alive
  let changed := match analysis.liveIn block with
    | none => true
    | some prev => decide (prev.length ≠ alive.length)
  return ({ analysis with
    liveIn := Function.update analysis.liveIn block (some alive)
    pressures := Function.update analysis.pressures block (some pressure) }, changed)

def kill (analysis : OptimizingLivenessAnalysis Block Value) (value instruction : Value) :
    OptimizingLivenessAnalysis Block Value :=
  let collection := (analysis.expirations instruction).getD []
  { analysis with expirations :=
      Function.update analysis.expirations instruction (some (addIfAbsent collection value)) }

def computeExpirationsAtWith (state : OptimizingLivenessAnalysis Block Value × List Value)
    (instruction : OInstruction Value) : OptimizingLivenessAnalysis Block Value × List Value :=
  let (analysis, alive) := instruction.operands.foldl (fun (analysis, alive) value =>
    (if value ∈ alive then analysis else analysis.kill value instruction.value,
      addIfAbsent alive value)) state
  if instruction.value ∈ alive then (analysis, alive.erase instruction.value)
  else (analysis.kill instruction.value instruction.value, alive)

/-- `firstInstruction`, which may be a phi. -/
def firstInstruction (block : Block) : Value :=
  match program.phis block, program.instructions block with
  | phi :: _, _ => phi.value
  | [], instr :: _ => instr.value
  | [], [] => (program.lastInstruction block).value

def computeExpirationsAt (analysis : OptimizingLivenessAnalysis Block Value) (block : Block) :
    Except Failure (OptimizingLivenessAnalysis Block Value) := do
  let alive ← analysis.gatherAliveAfter program block
  let analysis ← match program.flow.last block with
    | .jumpConditional _ _ => (successors program.flow.last block).foldlM (fun analysis succ =>
        match analysis.liveIn succ with
        | none => .error .error
        | some real => .ok ((alive.filter (· ∉ real)).foldl (fun analysis val =>
            kill analysis val (firstInstruction program succ)) analysis)) analysis
    | _ => .ok analysis
  return ((program.real block).reverse.foldl computeExpirationsAtWith (analysis, alive)).1

/-- The loop of `analyzeLiveness`. -/
def analyzeBlocks (all : List Block) : (fuel : Nat) →
    (analysis : OptimizingLivenessAnalysis Block Value) →
      Except Failure (OptimizingLivenessAnalysis Block Value)
  | 0, _ => .error .running
  | fuel + 1, analysis => do
    let (analysis, changed) ← all.foldlM (fun (analysis, changed) block => do
      let (analysis, more) ← analysis.analyzeLivenessOf program block
      return (analysis, more || changed)) (analysis, false)
    if changed then analyzeBlocks all fuel analysis else return analysis

def analyzeLiveness [Fintype Block] (fuel : Nat) :
    Except Failure (OptimizingLivenessAnalysis Block Value) := do
  let all := withSuccessorsPostOrder program.flow.last program.flow.first
  let analysis ← analyzeBlocks program all fuel
    { liveIn := fun _ => none, pressures := fun _ => none, expirations := fun _ => none }
  all.foldlM (fun analysis block => analysis.computeExpirationsAt program block) analysis

def doesDieAt (analysis : OptimizingLivenessAnalysis Block Value) (operand instruction : Value) :
    Bool :=
  match analysis.expirations instruction with
  | none => false
  | some dying => operand ∈ dying

def maxPressureIn (analysis : OptimizingLivenessAnalysis Block Value) (loopBlocks : List Block) :
    Option Nat := do
  let all ← loopBlocks.mapM fun block => (analysis.pressures block).bind id
  all.max?

end OptimizingLivenessAnalysis

end Model

section Meaning

variable {Block Value : Type}

/-- A path from before the instruction of that number, or from the end of the block, reads the
value before it defines it. -/
inductive LiveAt [DecidableEq Block] (program : SSA Block Value) : Block → Nat → Value → Prop
  | read {block : Block} {index : Nat} {value : Value} {instr : OInstruction Value} :
    (program.real block)[index]? = some instr → value ∈ instr.operands →
      LiveAt program block index value
  | pass {block : Block} {index : Nat} {value : Value} {instr : OInstruction Value} :
    (program.real block)[index]? = some instr → value ≠ instr.value →
      LiveAt program block (index + 1) value → LiveAt program block index value
  | phi {block succ : Block} {value : Value} {phi : OPhi Block Value} :
    Edge program.flow.last block succ → phi ∈ program.phis succ →
      phi.atOperand block = .ok value → LiveAt program block (program.real block).length value
  | enter {block succ : Block} {value : Value} :
    Edge program.flow.last block succ → (∀ phi ∈ program.phis succ, phi.value ≠ value) →
      LiveAt program succ 0 value → LiveAt program block (program.real block).length value

variable [DecidableEq Block] [DecidableEq Value]

/-- What the answers of an analysis should say. -/
structure ExactLiveness (program : SSA Block Value)
    (analysis : OptimizingLivenessAnalysis Block Value) : Prop where
  liveIn : ∀ block, program.flow.Reached block → ∃ found, analysis.liveIn block = some found ∧
    ∀ value, value ∈ found ↔
      LiveAt program block 0 value ∧ ∀ phi ∈ program.phis block, phi.value ≠ value
  dies : ∀ block, program.flow.Reached block → ∀ index instr,
    (program.real block)[index]? = some instr → ∀ value,
      (analysis.doesDieAt value instr.value = true ↔
        ¬ LiveAt program block (index + 1) value ∧
          (value ∈ instr.operands ∨ value = instr.value))
  pressure : ∀ blocks, blocks ≠ [] → (∀ block ∈ blocks, program.flow.Reached block) →
    ∃ most, analysis.maxPressureIn blocks = some most ∧
      IsGreatest {size | ∃ block ∈ blocks, ∃ index ≤ (program.real block).length,
        size = Set.ncard {value | LiveAt program block index value}} most

end Meaning

section Failure

variable {Block Value : Type} [DecidableEq Block] [DecidableEq Value]

open OptimizingLivenessAnalysis

theorem mapM_error {α β : Type} {f : α → Except Failure β} {items : List α} {failure : Failure}
    (each : ∀ item ∈ items, ∀ failure, f item = .error failure → failure = .error)
    (failed : items.mapM f = .error failure) : failure = .error := by
  induction items with
  | nil => cases failed
  | cons item items ih =>
    rw [List.mapM_cons] at failed
    cases here : f item with
    | error other =>
      rw [here] at failed
      cases failed
      exact each item List.mem_cons_self _ here
    | ok value =>
      rw [here] at failed
      cases rest : items.mapM f with
      | error other =>
        rw [rest] at failed
        cases failed
        exact ih (fun item member => each item (List.mem_cons_of_mem _ member)) rest
      | ok values =>
        rw [rest] at failed
        cases failed

omit [DecidableEq Value] in
theorem atOperand_error {phi : OPhi Block Value} {name : Block} {failure : Failure}
    (failed : phi.atOperand name = .error failure) : failure = .error := by
  unfold OPhi.atOperand at failed
  split at failed <;> cases failed
  rfl

/-- Gathering fails with an error only, where a phi has no operand for its predecessor. -/
theorem gatherAliveAfter_error {program : SSA Block Value}
    {analysis : OptimizingLivenessAnalysis Block Value} {block : Block} {failure : Failure}
    (failed : analysis.gatherAliveAfter program block = .error failure) : failure = .error := by
  unfold gatherAliveAfter at failed
  cases extra : (successors program.flow.last block).mapM fun succ =>
      (program.phis succ).mapM fun phi => phi.atOperand block with
  | error other =>
    simp only [extra] at failed
    cases failed
    exact mapM_error (fun succ _ _ lost => mapM_error (fun phi _ _ => atOperand_error) lost) extra
  | ok values =>
    simp only [extra] at failed
    cases failed

/-- The analysis of a block stops at its last instruction. -/
theorem analyzeLivenessOf_fails (program : SSA Block Value)
    (analysis : OptimizingLivenessAnalysis Block Value) (block : Block) :
    analysis.analyzeLivenessOf program block = .error .error := by
  unfold analyzeLivenessOf
  cases gathered : analysis.gatherAliveAfter program block with
  | error failure =>
    obtain rfl := gatherAliveAfter_error gathered
    rfl
  | ok alive =>
    rw [SSA.real, List.reverse_append]
    rfl

variable [Fintype Block]

omit [Fintype Block] in
/-- The first pass stops at its first block. -/
theorem analyzeBlocks_fails (program : SSA Block Value) (block : Block) (rest : List Block)
    (fuel : Nat) (analysis : OptimizingLivenessAnalysis Block Value) :
    analyzeBlocks program (block :: rest) (fuel + 1) analysis = .error .error := by
  simp only [analyzeBlocks, List.foldlM_cons, analyzeLivenessOf_fails]
  rfl

/-- No program is analyzed, so that there are no exact answers. -/
theorem analyzeLiveness_fails (program : SSA Block Value) :
    (∀ fuel, analyzeLiveness program (fuel + 1) = .error .error) ∧
      ¬ ∃ analysis, (∃ steps, ∀ fuel, steps ≤ fuel → analyzeLiveness program fuel = .ok analysis) ∧
        ExactLiveness program analysis := by
  have fails (fuel : Nat) : analyzeLiveness program (fuel + 1) = .error .error := by
    obtain ⟨new, seen', found, -⟩ :=
      withSuccessorsPostOrder_traversal program.flow.last program.flow.first
    cases new with
    | nil =>
      simp only [analyzeLiveness, found, List.nil_append, analyzeBlocks_fails]
      rfl
    | cons block new =>
      simp only [analyzeLiveness, found, List.cons_append, analyzeBlocks_fails]
      rfl
  refine ⟨fails, ?_⟩
  rintro ⟨analysis, ⟨steps, ended⟩, -⟩
  have answered := ended (steps + 1) (Nat.le_succ steps)
  rw [fails] at answered
  cases answered

/-- A program of one block that returns. -/
def returning : SSA Unit Nat where
  flow := .ofJumps (fun _ => .leave) ()
  phis _ := []
  instructions _ := []
  lastInstruction _ := { value := 0, operands := [] }

theorem returning_not_analyzed : ¬ ∃ analysis,
    (∃ steps, ∀ fuel, steps ≤ fuel → analyzeLiveness returning fuel = .ok analysis) ∧
      ExactLiveness returning analysis := by
  rintro ⟨analysis, ⟨steps, ended⟩, -⟩
  have answered := ended (steps + 1) (Nat.le_succ steps)
  have stopped : analyzeLiveness returning (steps + 1) = .error .error := by
    have order : withSuccessorsPostOrder returning.flow.last returning.flow.first = [()] := by
      decide
    simp only [analyzeLiveness, order, analyzeBlocks_fails]
    rfl
  rw [stopped] at answered
  cases answered

end Failure

end Egg.Optimizing
