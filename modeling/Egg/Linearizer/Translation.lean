import Egg.Linearizer.OperationMeaning

/-! How the linearizer's pieces of code come about, and what each does by itself. -/
namespace Egg.Linearizer

open Egg.Treecode Egg.Data Egg.Data.StructuredCode

section Addresses

variable {temps : Int} {xs ys code : List Emitted}

/-- What matters of an operation for the places that operations address. -/
def Emitted.address (emitted : Emitted) : Option Int × Option Nat × Bool :=
  (emitted.operation.frameIndex, emitted.operand, emitted.operation.pops)

theorem addressed_iff : Addressed temps code ↔ ∀ address ∈ code.map Emitted.address,
    (address.2.1 = none → ∀ index ∈ address.1, index ≤ temps) ∧
      ∀ position ∈ address.2.1,
        ((code.map Emitted.address).take position).countP (fun other => other.2.2) = 0 := by
  simp only [Addressed, List.forall_mem_map, ← List.map_take, List.countP_map]
  rfl

theorem Addressed.congr (addressed : Addressed temps xs)
    (same : xs.map Emitted.address = ys.map Emitted.address) : Addressed temps ys := by
  rw [addressed_iff, ← same, ← addressed_iff]
  exact addressed

theorem Addressed.of_append (addressed : Addressed temps (xs ++ ys)) : Addressed temps xs := by
  intro emitted member
  obtain ⟨temporaries, operands⟩ := addressed emitted (List.mem_append_left ys member)
  refine ⟨temporaries, fun position named => ?_⟩
  have none := operands position named
  have fewer : machine.marksBefore xs position ≤ machine.marksBefore (xs ++ ys) position := by
    unfold Machine.marksBefore
    rw [List.take_append, List.countP_append]
    exact Nat.le_add_right _ _
  exact Nat.le_zero.mp (fewer.trans_eq none)

theorem target_address (target : Nat) (emitted : Emitted) :
    Emitted.address { emitted with operation := emitted.operation.target target } =
      emitted.address := by
  obtain ⟨operation, stackTop, operand⟩ := emitted
  cases operation <;> rfl

/-- Where branches lead is of no account for addresses. -/
theorem setTarget_address (linearizer : SExpressionLinearizer) (branch target : Nat) :
    (linearizer.setTarget branch target).operations.map Emitted.address =
      linearizer.operations.map Emitted.address := by
  by_cases inside : branch < linearizer.operations.length
  · obtain ⟨xs, emitted, ys, split, -, patched⟩ := List.exists_of_modify
      (fun emitted => { emitted with operation := emitted.operation.target target }) inside
    simp only [SExpressionLinearizer.setTarget, patched]
    rw [split, List.map_append, List.map_append, List.map_cons, List.map_cons, target_address]
  · simp only [SExpressionLinearizer.setTarget, List.modify_eq_self (Nat.le_of_not_lt inside)]

theorem Addressed.of_setTarget {linearizer : SExpressionLinearizer} {branch target : Nat}
    (addressed : Addressed temps (linearizer.setTarget branch target).operations) :
    Addressed temps linearizer.operations :=
  addressed.congr (setTarget_address linearizer branch target)

theorem Addressed.of_branchTargetOf {linearizer : SExpressionLinearizer} {branch : Nat}
    (addressed : Addressed temps (linearizer.branchTargetOf branch).operations) :
    Addressed temps linearizer.operations := addressed.of_setTarget

theorem Addressed.of_emit {linearizer : SExpressionLinearizer} {operation : Operation}
    (addressed : Addressed temps (linearizer.emit operation).operations) :
    Addressed temps linearizer.operations := addressed.of_append

end Addresses

namespace SExpressionLinearizer

variable (linearizer : SExpressionLinearizer)

/-- The depth of the operands that `_stackTop` stands for, with what `popR` has taken off. -/
def depth : Int := linearizer.stackTop + linearizer.pops

theorem depth_emit {operation : Operation} (passes : operation.pops = false) :
    (linearizer.emit operation).depth = linearizer.depth := by
  rw [depth, emit_pops linearizer passes]
  rfl

theorem depth_emitFor (operand : Nat) {operation : Operation} (passes : operation.pops = false) :
    (linearizer.emitFor operand operation).depth = linearizer.depth := by
  simp [depth, pops, emitFor, machine, passes]

@[simp] theorem depth_pushR : linearizer.pushR.depth = linearizer.depth + 1 := by
  simp only [depth, pushR, pops, emit, List.countP_append]
  simp [machine, Operation.pops]
  lia

@[simp] theorem depth_popR : linearizer.popR.depth = linearizer.depth := by
  simp only [depth, popR, pops, emit, List.countP_append]
  simp only [machine, Operation.pops, List.countP_singleton, if_true]
  lia

@[simp] theorem depth_dropToS (count : Nat) :
    (linearizer.dropToS count).depth = linearizer.depth - count := by
  simp only [depth, dropToS, pops, emit, List.countP_append]
  simp [machine, Operation.pops]
  lia

@[simp] theorem depth_branchIf (aBoolean : Bool) :
    (linearizer.branchIf aBoolean).depth = linearizer.depth := by
  rw [depth, branchIf_pops]
  rfl

@[simp] theorem depth_jump : linearizer.jump.depth = linearizer.depth :=
  linearizer.depth_emit rfl

@[simp] theorem depth_jumpTo (target : Nat) : (linearizer.jumpTo target).depth = linearizer.depth :=
  linearizer.depth_emit rfl

@[simp] theorem depth_setTarget (branch target : Nat) :
    (linearizer.setTarget branch target).depth = linearizer.depth := by
  rw [depth, setTarget_pops]
  rfl

@[simp] theorem depth_branchTargetOf (branch : Nat) :
    (linearizer.branchTargetOf branch).depth = linearizer.depth :=
  linearizer.depth_setTarget branch _

end SExpressionLinearizer

/-! ### The shapes of code with branches -/

section Shapes

variable {before between after : SExpressionLinearizer} {first second : List Emitted}

theorem currentPC_of_appended (appended : after.operations = before.operations ++ first) :
    after.currentPC = before.currentPC + first.length := by
  rw [SExpressionLinearizer.currentPC, appended, List.length_append]
  rfl

theorem branchIf_operations (before : SExpressionLinearizer) (aBoolean : Bool) :
    (before.branchIf aBoolean).operations = before.operations ++
      [⟨branch aBoolean SExpressionLinearizer.unset, before.stackTop, none⟩] := rfl

/-- Code behind a branch that leads to its end. -/
theorem guard_operations (aBoolean : Bool)
    (appended : after.operations = (before.branchIf aBoolean).operations ++ first) :
    (after.branchTargetOf before.currentPC).operations = before.operations ++
      ⟨branch aBoolean (before.currentPC + 1 + first.length), before.stackTop, none⟩ :: first := by
  have start := currentPC_of_appended (branchIf_operations before aBoolean)
  have finish : after.currentPC = before.currentPC + 1 + first.length := by
    rw [currentPC_of_appended appended, start]
    rfl
  rw [branchIf_operations, List.append_assoc] at appended
  have patched := setTarget_operations appended (rfl : before.currentPC = _) after.currentPC
  rw [branch_target, finish] at patched
  rw [SExpressionLinearizer.branchTargetOf, finish]
  exact patched

/-- One of two pieces of code, with a branch before the first and a jump behind it. -/
theorem arms_operations (aBoolean : Bool)
    (left : between.operations = (before.branchIf aBoolean).operations ++ first)
    (right : after.operations =
      (between.jump.branchTargetOf before.currentPC).operations ++ second) :
    (after.branchTargetOf between.currentPC).operations = before.operations ++
      ⟨branch aBoolean (before.currentPC + 1 + first.length + 1), before.stackTop, none⟩ ::
        (first ++ ⟨.jump (before.currentPC + 1 + first.length + 1 + second.length),
          between.stackTop, none⟩ :: second) := by
  have jumped : between.jump.operations = (before.branchIf aBoolean).operations ++
      (first ++ [⟨.jump SExpressionLinearizer.unset, between.stackTop, none⟩]) := by
    rw [← List.append_assoc, ← left]
    rfl
  have start := currentPC_of_appended (branchIf_operations before aBoolean)
  have middle : between.currentPC = before.currentPC + 1 + first.length := by
    rw [currentPC_of_appended left, start]
    rfl
  rw [guard_operations aBoolean jumped] at right
  have split : after.operations = (before.operations ++
      ⟨branch aBoolean (before.currentPC + 1 + (first ++
        [(⟨.jump SExpressionLinearizer.unset, between.stackTop, none⟩ : Emitted)]).length),
        before.stackTop, none⟩ :: first) ++
      ⟨.jump SExpressionLinearizer.unset, between.stackTop, none⟩ :: second := by
    rw [right]
    simp
  have here : between.currentPC = (before.operations ++
      ⟨branch aBoolean (before.currentPC + 1 + (first ++
        [(⟨.jump SExpressionLinearizer.unset, between.stackTop, none⟩ : Emitted)]).length),
        before.stackTop, none⟩ :: first).length := by
    rw [middle, List.length_append, List.length_cons]
    simp only [SExpressionLinearizer.currentPC]
    lia
  have finish : after.currentPC =
      before.currentPC + 1 + first.length + 1 + second.length := by
    rw [SExpressionLinearizer.currentPC, split, List.length_append, ← here, middle]
    simp
    lia
  have patched := setTarget_operations split here after.currentPC
  rw [SExpressionLinearizer.branchTargetOf, patched, finish]
  simp [Operation.target, Nat.add_assoc]

/-- Code that is gone through again as long as what comes before it lets control do so. -/
theorem loop_operations (aBoolean : Bool)
    (left : between.operations = before.operations ++ first)
    (right : after.operations = (between.branchIf aBoolean).operations ++ second) :
    ((after.jumpTo before.currentPC).branchTargetOf between.currentPC).operations =
      before.operations ++ (first ++
        ⟨branch aBoolean (before.currentPC + first.length + 1 + second.length + 1),
          between.stackTop, none⟩ ::
          (second ++ [⟨.jump before.currentPC, after.stackTop, none⟩])) := by
  have returned : (after.jumpTo before.currentPC).operations =
      (between.branchIf aBoolean).operations ++
        (second ++ [⟨.jump before.currentPC, after.stackTop, none⟩]) := by
    rw [← List.append_assoc, ← right]
    rfl
  rw [guard_operations aBoolean returned, left, currentPC_of_appended left, List.append_assoc]
  simp [Nat.add_assoc]

/-- Code with a branch back to its start behind it. -/
theorem again_operations (operation : Operation)
    (appended : after.operations = before.operations ++ first) :
    (after.emit operation).operations =
      before.operations ++ (first ++ [⟨operation, after.stackTop, none⟩]) := by
  rw [← List.append_assoc, ← appended]
  rfl

end Shapes

variable {Value World Abandoned : Type}

/-- Code was emitted that leaves so many operands more. -/
structure Grows (growth : Int) (before after : SExpressionLinearizer) : Prop where
  depth : after.depth = before.depth + growth
  appended : ∃ segment, after.operations = before.operations ++ segment

theorem Grows.trans {growth further : Int} {before between after : SExpressionLinearizer}
    (left : Grows growth before between) (right : Grows further between after) :
    Grows (growth + further) before after where
  depth := by rw [right.depth, left.depth, Int.add_assoc]
  appended := by
    obtain ⟨one, appended⟩ := left.appended
    obtain ⟨two, behind⟩ := right.appended
    exact ⟨one ++ two, by rw [behind, appended, List.append_assoc]⟩

theorem Grows.congr {growth further : Int} {before after : SExpressionLinearizer}
    (grows : Grows growth before after) (same : growth = further) : Grows further before after :=
  same ▸ grows

section Pieces

variable (surroundings : Surroundings Value World Abandoned) [DecidableEq Value]
  (blockTempCount : LiteralValue → Nat)

/-- Code that control does not leave at its end, from no operands on, does what a step means. -/
def Realizes (temps : Int) (code : List Emitted) (step : Step Value World Abandoned) : Prop :=
  ∀ current world, (evaluator surroundings temps).outcomes code 0 code.length 0
      ⟨current, [], world⟩ =
    (fun after => (code.length, ⟨after.1, [], after.2⟩)) <$> (step current).run world

/-- The code of a block does what the block means, if it finds its operands. -/
def Installs (closure : LiteralValue × List SExpression) (block : LiteralValue × List Emitted) :
    Prop :=
  block.1 = closure.1 ∧ (Addressed (blockTempCount block.1) block.2 →
    Realizes surroundings (blockTempCount block.1) block.2 (evaluateBlock surroundings closure.2))

/-- A state of the linearizer became another, by emitting code and installing that of blocks. -/
structure Extends (closures : List (LiteralValue × List SExpression)) (growth : Int)
    (before after : SExpressionLinearizer) : Prop extends Grows growth before after where
  inBlock : after.inBlock = before.inBlock
  installs : ∃ installed, after.executables = before.executables ++ installed ∧
    List.Forall₂ (Installs surroundings blockTempCount) closures installed

/-- What was emitted has certain outcomes from registers on, if there are so many operands. -/
def PerformsAt (depth : Int) (before after : SExpressionLinearizer)
    (registers : Registers Value World)
    (does : Outcomes (Ended Value World Abandoned) (Registers Value World)) : Prop :=
  ∀ temps segment, after.operations = before.operations ++ segment →
    Addressed temps after.operations → depth = temps + registers.operands.length →
      (evaluator surroundings temps).Does before.currentPC segment registers does

/-- `_stackTop` stood for the operands at hand, as it does but for the arm of `ifNil:`. -/
abbrev Performs (before after : SExpressionLinearizer) (registers : Registers Value World)
    (does : Outcomes (Ended Value World Abandoned) (Registers Value World)) : Prop :=
  PerformsAt surroundings before.depth before after registers does

/-- Registers with certain operands. -/
def above (operands : List Value) (after : Value × World) : Registers Value World :=
  ⟨after.1, operands, after.2⟩

/-- What was emitted answers what a step means, whatever the operands are, and leaves those. -/
def Answers (before after : SExpressionLinearizer) (step : Step Value World Abandoned) : Prop :=
  ∀ operands current world, Performs surroundings before after ⟨current, operands, world⟩
    (above operands <$> (step current).run world)

/-- What visits a tree emits code that does what the tree means. -/
def Translates (inBlock : Bool) (closures : List (LiteralValue × List SExpression))
    (step : Step Value World Abandoned) (visit : Visit) : Prop :=
  ∀ before after, before.inBlock = inBlock → visit before = some after →
    Extends surroundings blockTempCount closures 0 before after ∧
      Answers surroundings before after step

end Pieces

section Composition

variable {surroundings : Surroundings Value World Abandoned} [DecidableEq Value]
  {blockTempCount : LiteralValue → Nat} {before between after : SExpressionLinearizer}
  {registers : Registers Value World} {υ : Type}
  {does other : Outcomes (Ended Value World Abandoned) (Registers Value World)}
  {first second : List (LiteralValue × List SExpression)} {growth further depth : Int}

theorem Extends.refl (before : SExpressionLinearizer) :
    Extends surroundings blockTempCount [] 0 before before :=
  ⟨⟨(Int.add_zero _).symm, ⟨[], (List.append_nil _).symm⟩⟩, rfl,
    ⟨[], (List.append_nil _).symm, .nil⟩⟩

theorem Extends.trans (left : Extends surroundings blockTempCount first growth before between)
    (right : Extends surroundings blockTempCount second further between after) :
    Extends surroundings blockTempCount (first ++ second) (growth + further) before after where
  toGrows := left.toGrows.trans right.toGrows
  inBlock := right.inBlock.trans left.inBlock
  installs := by
    obtain ⟨one, installed, installs⟩ := left.installs
    obtain ⟨two, behind, others⟩ := right.installs
    exact ⟨one ++ two, by rw [behind, installed, List.append_assoc],
      List.rel_append installs others⟩

theorem Extends.congr (extends_ : Extends surroundings blockTempCount first growth before after)
    (closures : first = second) (same : growth = further) :
    Extends surroundings blockTempCount second further before after :=
  closures ▸ same ▸ extends_

/-- Code is emitted and no block installed. -/
theorem Extends.code {segment : List Emitted} (inBlock : after.inBlock = before.inBlock)
    (grows : after.depth = before.depth + growth)
    (appended : after.operations = before.operations ++ segment)
    (executables : after.executables = before.executables) :
    Extends surroundings blockTempCount [] growth before after :=
  ⟨⟨grows, ⟨segment, appended⟩⟩, inBlock,
    ⟨[], executables.trans (List.append_nil _).symm, .nil⟩⟩

/-- Code that goes with other code on both sides of it, such as branches and jumps. -/
theorem Extends.around (inner : Extends surroundings blockTempCount first growth between after)
    {final : SExpressionLinearizer} {segment : List Emitted}
    (start : between.inBlock = before.inBlock ∧ between.depth = before.depth ∧
      between.executables = before.executables)
    (finish : final.inBlock = after.inBlock ∧ final.depth = after.depth ∧
      final.executables = after.executables)
    (appended : final.operations = before.operations ++ segment) :
    Extends surroundings blockTempCount first growth before final where
  inBlock := finish.1.trans (inner.inBlock.trans start.1)
  depth := by rw [finish.2.1, inner.depth, start.2.1]
  appended := ⟨segment, appended⟩
  installs := by rw [finish.2.2, ← start.2.2]; exact inner.installs

theorem Extends.guard (aBoolean : Bool)
    (inner : Extends surroundings blockTempCount first growth (before.branchIf aBoolean) after) :
    Extends surroundings blockTempCount first growth before
      (after.branchTargetOf before.currentPC) := by
  obtain ⟨segment, appended⟩ := inner.appended
  exact inner.around ⟨rfl, before.depth_branchIf aBoolean, rfl⟩
    ⟨rfl, after.depth_branchTargetOf _, rfl⟩ (guard_operations aBoolean appended)

theorem Extends.arms (aBoolean : Bool)
    (left : Extends surroundings blockTempCount first growth (before.branchIf aBoolean) between)
    (right : Extends surroundings blockTempCount second further
      (between.jump.branchTargetOf before.currentPC) after) :
    Extends surroundings blockTempCount (first ++ second) (growth + further) before
      (after.branchTargetOf between.currentPC) where
  inBlock := right.inBlock.trans left.inBlock
  depth := by
    rw [SExpressionLinearizer.depth_branchTargetOf, right.depth,
      SExpressionLinearizer.depth_branchTargetOf, SExpressionLinearizer.depth_jump, left.depth,
      SExpressionLinearizer.depth_branchIf, Int.add_assoc]
  appended := by
    obtain ⟨one, appended⟩ := left.appended
    obtain ⟨two, behind⟩ := right.appended
    exact ⟨_, arms_operations aBoolean appended behind⟩
  installs := by
    obtain ⟨one, installed, installs⟩ := left.installs
    obtain ⟨two, behind, others⟩ := right.installs
    refine ⟨one ++ two, ?_, List.rel_append installs others⟩
    rw [← List.append_assoc]
    exact behind.trans (congrArg (· ++ two) installed)

theorem Extends.loop (aBoolean : Bool)
    (left : Extends surroundings blockTempCount first growth before between)
    (right : Extends surroundings blockTempCount second further (between.branchIf aBoolean)
      after) :
    Extends surroundings blockTempCount (first ++ second) (growth + further) before
      ((after.jumpTo before.currentPC).branchTargetOf between.currentPC) where
  inBlock := right.inBlock.trans left.inBlock
  depth := by
    rw [SExpressionLinearizer.depth_branchTargetOf, SExpressionLinearizer.depth_jumpTo,
      right.depth, SExpressionLinearizer.depth_branchIf, left.depth, Int.add_assoc]
  appended := by
    obtain ⟨one, appended⟩ := left.appended
    obtain ⟨two, behind⟩ := right.appended
    exact ⟨_, loop_operations aBoolean appended behind⟩
  installs := by
    obtain ⟨one, installed, installs⟩ := left.installs
    obtain ⟨two, behind, others⟩ := right.installs
    refine ⟨one ++ two, ?_, List.rel_append installs others⟩
    rw [← List.append_assoc]
    exact behind.trans (congrArg (· ++ two) installed)

theorem PerformsAt.congr (performs : PerformsAt surroundings depth before after registers does)
    (same : does = other) : PerformsAt surroundings depth before after registers other :=
  same ▸ performs

/-- One piece of code behind another. -/
theorem Performs.bind {view : υ → Registers Value World}
    {outcomes : Outcomes (Ended Value World Abandoned) υ}
    {next : υ → Outcomes (Ended Value World Abandoned) (Registers Value World)}
    (left : Performs surroundings before between registers (view <$> outcomes))
    (grows : Grows growth before between) (behind : Grows further between after)
    (right : ∀ x, outcomes.leaves x →
      ((view x).operands.length : Int) = registers.operands.length + growth ∧
        Performs surroundings between after (view x) (next x)) :
    Performs surroundings before after registers (outcomes >>= next) := by
  obtain ⟨one, appended⟩ := grows.appended
  obtain ⟨two, appended'⟩ := behind.appended
  intro temps segment whole addressed deep
  obtain rfl : segment = one ++ two := by
    rw [appended', appended, List.append_assoc] at whole
    exact (List.append_cancel_left whole).symm
  have inside : Addressed temps between.operations := by
    rw [appended'] at addressed
    exact addressed.of_append
  apply (left temps one appended inside deep).append
  intro x answered
  obtain ⟨length, performs⟩ := right x answered
  rw [← currentPC_of_appended appended]
  exact performs temps two appended' addressed (by rw [grows.depth, deep, length]; lia)

/-- An operation by itself. -/
theorem PerformsAt.emit {operation : Operation} {operand : Option Nat}
    (appended : after.operations = before.operations ++ [⟨operation, before.stackTop, operand⟩])
    (goes : ∀ temps : Int, Addressed temps after.operations →
      depth = temps + registers.operands.length →
      operation.perform surroundings temps before.currentPC registers =
        (fun t => (before.currentPC + 1, t)) <$> does) :
    PerformsAt surroundings depth before after registers does := by
  intro temps segment whole addressed deep
  obtain rfl := List.append_cancel_left (appended.symm.trans whole)
  exact Semantics.Does.single (goes temps addressed deep)

theorem branch_perform (aBoolean : Bool) (target position : Nat) (temps : Int) :
    (branch aBoolean target).perform surroundings temps position registers =
      pure (if registers.R = surroundings.boolean aBoolean then target else position + 1,
        registers) := by
  cases aBoolean <;> rfl

theorem branchIf_currentPC (before : SExpressionLinearizer) (aBoolean : Bool) :
    (before.branchIf aBoolean).currentPC = before.currentPC + 1 :=
  currentPC_of_appended (branchIf_operations before aBoolean)

/-- Code behind a branch over it. -/
theorem Performs.guard (aBoolean : Bool)
    (inner : registers.R ≠ surroundings.boolean aBoolean →
      Performs surroundings (before.branchIf aBoolean) after registers does)
    (appended : ∃ segment, after.operations = (before.branchIf aBoolean).operations ++ segment) :
    Performs surroundings before (after.branchTargetOf before.currentPC) registers
      (if registers.R = surroundings.boolean aBoolean then pure registers else does) := by
  obtain ⟨body, appended⟩ := appended
  have shape := guard_operations aBoolean appended
  intro temps segment whole addressed deep
  obtain rfl := List.append_cancel_left (shape.symm.trans whole)
  apply Semantics.Does.branch
  · exact branch_perform aBoolean _ _ temps
  · intro different
    rw [← branchIf_currentPC before aBoolean]
    exact inner different temps body appended addressed.of_branchTargetOf
      (by rw [SExpressionLinearizer.depth_branchIf]; exact deep)

/-- One of two pieces of code; in the second the depth is the one there was before. -/
theorem Performs.arms (aBoolean : Bool)
    {left right : Outcomes (Ended Value World Abandoned) (Registers Value World)}
    (lefts : registers.R ≠ surroundings.boolean aBoolean →
      Performs surroundings (before.branchIf aBoolean) between registers left)
    (rights : registers.R = surroundings.boolean aBoolean →
      PerformsAt surroundings before.depth (between.jump.branchTargetOf before.currentPC) after
        registers right)
    (one : ∃ segment, between.operations = (before.branchIf aBoolean).operations ++ segment)
    (two : ∃ segment, after.operations =
      (between.jump.branchTargetOf before.currentPC).operations ++ segment) :
    Performs surroundings before (after.branchTargetOf between.currentPC) registers
      (if registers.R = surroundings.boolean aBoolean then right else left) := by
  obtain ⟨first, appended⟩ := one
  obtain ⟨second, appended'⟩ := two
  have shape := arms_operations aBoolean appended appended'
  have middle : between.currentPC = before.currentPC + 1 + first.length := by
    rw [currentPC_of_appended appended, branchIf_currentPC]
  intro temps segment whole addressed deep
  obtain rfl := List.append_cancel_left (shape.symm.trans whole)
  have inside : Addressed temps after.operations := addressed.of_branchTargetOf
  have inside' : Addressed temps between.operations := by
    rw [appended'] at inside
    exact inside.of_append.of_branchTargetOf.of_emit
  apply Semantics.Does.either
  · exact branch_perform aBoolean _ _ temps
  · exact fun t => rfl
  · intro different
    rw [← branchIf_currentPC before aBoolean]
    exact lefts different temps first appended inside'
      (by rw [SExpressionLinearizer.depth_branchIf]; exact deep)
  · intro same
    have start : (between.jump.branchTargetOf before.currentPC).currentPC =
        before.currentPC + 1 + first.length + 1 := by
      rw [← middle]
      simp [SExpressionLinearizer.currentPC, SExpressionLinearizer.branchTargetOf,
        SExpressionLinearizer.setTarget, SExpressionLinearizer.jump, SExpressionLinearizer.emit]
    rw [← start]
    exact rights same temps second appended' inside deep

/-- Code with an operation behind it that may go back to its start. -/
theorem Performs.again (view : υ → Registers Value World)
    {round : υ → Outcomes (Ended Value World Abandoned) υ} {operation : Operation}
    {test : Registers Value World → Prop} [DecidablePred test]
    (decides : ∀ (temps : Int) position registers,
      operation.perform surroundings temps position registers =
        pure (if test registers then before.currentPC else position + 1, registers))
    (sized : ∀ x y, (view x).operands.length = (view y).operands.length)
    (inner : ∀ x, Performs surroundings before after (view x) (view <$> round x))
    (appended : ∃ segment, after.operations = before.operations ++ segment) (x : υ) :
    Performs surroundings before (after.emit operation) (view x) (view <$> Outcomes.iterate
      (fun x => round x >>= fun y => pure (if test (view y) then .inl y else .inr y)) x) := by
  obtain ⟨body, appended⟩ := appended
  have shape := again_operations operation appended
  intro temps segment whole addressed deep
  obtain rfl := List.append_cancel_left (shape.symm.trans whole)
  apply Semantics.Does.again view
  · exact fun y => inner y temps body appended addressed.of_emit (by rw [deep, sized x y])
  · exact fun s => decides temps _ s

/-- Code that is gone through again as long as what comes before it lets control do so. -/
theorem Performs.loop (view : υ → Registers Value World) (aBoolean : Bool)
    {asks round : υ → Outcomes (Ended Value World Abandoned) υ}
    (sized : ∀ x y, (view x).operands.length = (view y).operands.length)
    (conditions : ∀ x, Performs surroundings before between (view x) (view <$> asks x))
    (bodies : ∀ x, (view x).R ≠ surroundings.boolean aBoolean →
      Performs surroundings (between.branchIf aBoolean) after (view x) (view <$> round x))
    (grows : Grows 0 before between)
    (behind : ∃ segment, after.operations = (between.branchIf aBoolean).operations ++ segment)
    (x : υ) :
    Performs surroundings before
      ((after.jumpTo before.currentPC).branchTargetOf between.currentPC) (view x)
      (view <$> Outcomes.iterate (fun x => asks x >>= fun y =>
        if (view y).R = surroundings.boolean aBoolean then pure (.inr y)
        else .inl <$> round y) x) := by
  obtain ⟨condition, appended⟩ := grows.appended
  obtain ⟨body, appended'⟩ := behind
  have shape := loop_operations aBoolean appended appended'
  intro temps segment whole addressed deep
  obtain rfl := List.append_cancel_left (shape.symm.trans whole)
  have inside : Addressed temps after.operations := addressed.of_branchTargetOf.of_emit
  have inside' : Addressed temps between.operations := by
    rw [appended'] at inside
    exact inside.of_append.of_emit
  have start : (between.branchIf aBoolean).currentPC =
      before.currentPC + condition.length + 1 := by
    rw [branchIf_currentPC, currentPC_of_appended appended]
  have decides : ∀ s : Registers Value World, evaluator surroundings temps
      ⟨branch aBoolean (before.currentPC + condition.length + 1 + body.length + 1),
        between.stackTop, none⟩ (before.currentPC + condition.length) s =
      pure (if s.R = surroundings.boolean aBoolean
        then before.currentPC + condition.length + 1 + body.length + 1
        else before.currentPC + condition.length + 1, s) :=
    fun s => branch_perform aBoolean _ _ temps
  refine Semantics.Does.loop view
    (fun y => conditions y temps condition appended inside' (by rw [deep, sized x y])) decides
    (fun y different => ?_) (fun s => rfl) x
  rw [← start]
  exact bodies y different temps body appended' inside (by
    rw [SExpressionLinearizer.depth_branchIf, grows.depth, Int.add_zero, deep, sized x y])

end Composition

end Egg.Linearizer
