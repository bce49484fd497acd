import Egg.Data.StructuredCode
import Mathlib.Data.List.Forall2
import Egg.Linearizer.Linearizer

/-! What the linearizer emits is structured code that keeps count of the operands. -/
namespace Egg.Linearizer

open Egg.Treecode Egg.Data.StructuredCode

namespace Operation

/-- Where control goes from an operation; a primitive that fails skips the return behind it. -/
def successors (position : Nat) : Operation → List Nat
  | .jump target => [target]
  | .jumpFalse target | .jumpTrue target => [target, position + 1]
  | .primitive _ => [position + 2, position + 1]
  | .nonLocalReturn | .return => []
  | _ => [position + 1]

/-- What an operation does to the operands, each named by the position that pushed it; the
arguments of a send stay. -/
def operands (position : Nat) (operands : List Nat) : Operation → List Nat
  | .pushR => position :: operands
  | .popR => operands.tail
  | .dropToS count => operands.drop count
  | _ => operands

def pops : Operation → Bool
  | .popR => true
  | _ => false

/-- The slot of the frame that an operation reads or writes. -/
def frameIndex : Operation → Option Int
  | .loadRfromFrame index | .storeRintoFrame index => some index
  | _ => none

/-- The operation neither directs control nor changes the operands. -/
def isPlain : Operation → Bool
  | .jump _ | .jumpFalse _ | .jumpTrue _ | .primitive _ | .nonLocalReturn | .return | .pushR
  | .popR | .dropToS _ => false
  | _ => true

end Operation

/-- The operations of a work list as code, with those marked that `popR` emits. -/
def machine : Machine Emitted (List Nat) where
  next emitted position := emitted.operation.successors position
  act emitted position operands := emitted.operation.operands position operands
  marked emitted := emitted.operation.pops

/-- The value that `_stackTop` had is that of the operands at hand, and an operation on a certain
operand finds it, the operands being behind the temporaries in the frame. -/
structure DepthAt (temps : Int) (operands : List Nat) (emitted : Emitted) : Prop where
  stackTop : emitted.stackTop = temps + operands.length
  addresses : ∀ operand, emitted.operand = some operand → ∃ depth : Nat,
    emitted.operation.frameIndex = some (temps + depth + 1) ∧
      operands.reverse[depth]? = some operand

/-- Along every path, each operation was emitted at the depth at which control gets to it. -/
def StackDepthExact (temps : Int) (code : List Emitted) : Prop :=
  ∀ position operands emitted, machine.Reaches code (0, []) (position, operands) →
    code[position]? = some emitted → DepthAt temps operands emitted

/-- What is required of an operation: its depth is off by the number of times `popR` came before,
and the place of its operand by the number of times when that was pushed. -/
structure Required (temps : Int) (pops : Nat) (emitted : Emitted) (operands : List Nat) :
    Prop where
  stackTop : emitted.stackTop = temps - pops + operands.length
  addresses : ∀ operand, emitted.operand = some operand → ∃ earlier depth : Nat, earlier ≤ pops ∧
    emitted.operation.frameIndex = some (temps - earlier + depth + 1) ∧
      operands.reverse[depth]? = some operand

/-- Structured code is exact if control does not pass a `popR`. -/
theorem stackDepthExact_iff {temps : Int} {final : List Nat} {skeleton : Skeleton}
    {code : List Emitted}
    (structured : machine.Structured (Required temps) 0 0 [] final skeleton code)
    (ends : skeleton.completes = false) :
    StackDepthExact temps code ↔ skeleton.passesMark = false := by
  constructor
  · intro exact_
    by_contra passes
    obtain ⟨position, operands, reaches, passed⟩ :=
      (structured.passesMark_iff ends).mp (by simpa using passes)
    obtain ⟨emitted, here, required, -⟩ := structured.holds_of_reaches ends reaches
    have drifted := required.stackTop
    have actual := (exact_ position operands emitted reaches here).stackTop
    lia
  · intro passes position operands emitted reaches here
    obtain ⟨found, there, required, unmarked⟩ := structured.holds_of_reaches ends reaches
    obtain rfl := Option.some.inj (there.symm.trans here)
    rw [unmarked passes] at required
    refine ⟨by simpa using required.stackTop, ?_⟩
    intro operand tagged
    obtain ⟨earlier, depth, earlier_le, index, found⟩ := required.addresses operand tagged
    obtain rfl := Nat.le_zero.mp earlier_le
    exact ⟨depth, by simpa using index, found⟩

namespace SExpressionLinearizer

/-- How many of the operations `popR` has emitted. -/
def pops (linearizer : SExpressionLinearizer) : Nat :=
  linearizer.operations.countP machine.marked

theorem pops_append {before after : SExpressionLinearizer} {segment : List Emitted}
    (appended : after.operations = before.operations ++ segment) :
    after.pops = before.pops + segment.countP machine.marked := by
  rw [pops, appended, List.countP_append, pops]

end SExpressionLinearizer

/-- A state of the linearizer became another: with structured code behind the operations, which
has certain operands before and after it, and with the code of the blocks that were put aside. The
depth is the one that `_stackTop` stood for before. -/
structure EmitsFrom (blockTempCount : LiteralValue → Nat) (skeleton : Skeleton) (depth : Nat)
    (state final : List Nat) (before after : SExpressionLinearizer) : Prop where
  installs : ∃ installed, after.executables = before.executables ++ installed ∧
    List.Forall₂ (fun inner block =>
      StackDepthExact (blockTempCount block.1) block.2 ↔ inner.passesMark = false)
      skeleton.asides installed
  code : ∃ precise segment, Skeleton.Agrees precise skeleton ∧
    after.operations = before.operations ++ segment ∧
    ∀ temps : Int, before.stackTop + before.pops = temps + depth →
      after.stackTop + after.pops = temps + final.length ∧
      machine.Structured (Required temps) before.currentPC before.pops state final precise segment

/-- `_stackTop` stood for the operands at hand, as it does but for the arm of `ifNil:`. -/
abbrev Emits (blockTempCount : LiteralValue → Nat) (skeleton : Skeleton)
    (state final : List Nat) (before after : SExpressionLinearizer) : Prop :=
  EmitsFrom blockTempCount skeleton state.length state final before after

/-- What visits a tree leaves the operands as they were. -/
def Visits (blockTempCount : LiteralValue → Nat) (skeleton : Skeleton) (visit : Visit) : Prop :=
  ∀ before after, visit before = some after → ∀ state,
    Emits blockTempCount skeleton state state before after

section Emission

variable {blockTempCount : LiteralValue → Nat} {first second a b : Skeleton}
  {state middle final : List Nat} {before between after : SExpressionLinearizer}

theorem Emits.congr (emits : Emits blockTempCount first state final before after)
    (agrees : first.Agrees second) (asides : first.asides = second.asides) :
    Emits blockTempCount second state final before after where
  installs := asides ▸ emits.installs
  code := by
    obtain ⟨precise, segment, agreesFirst, rest⟩ := emits.code
    exact ⟨precise, segment, agreesFirst.trans agrees, rest⟩

theorem Emits.nothing (state : List Nat) (linearizer : SExpressionLinearizer) :
    Emits blockTempCount .nothing state state linearizer linearizer where
  installs := ⟨[], by simp, List.Forall₂.nil⟩
  code := by
    refine ⟨.nothing, [], Skeleton.Agrees.refl _, by simp, ?_⟩
    intro temps balance
    exact ⟨balance, .nothing⟩

theorem Emits.seq (left : Emits blockTempCount a state middle before between)
    (right : Emits blockTempCount b middle final between after) :
    Emits blockTempCount (.seq a b) state final before after where
  installs := by
    obtain ⟨installedLeft, appended, exactLeft⟩ := left.installs
    obtain ⟨installedRight, appended', exactRight⟩ := right.installs
    refine ⟨installedLeft ++ installedRight, ?_, List.rel_append exactLeft exactRight⟩
    rw [appended', appended, List.append_assoc]
  code := by
    obtain ⟨preciseLeft, segmentLeft, agreesLeft, appended, balanced⟩ := left.code
    obtain ⟨preciseRight, segmentRight, agreesRight, appended', balanced'⟩ := right.code
    refine ⟨.seq preciseLeft preciseRight, segmentLeft ++ segmentRight,
      agreesLeft.seq agreesRight, by rw [appended', appended, List.append_assoc], ?_⟩
    intro temps balance
    obtain ⟨middleBalance, structuredLeft⟩ := balanced temps balance
    obtain ⟨finalBalance, structuredRight⟩ := balanced' temps middleBalance
    have position : between.currentPC = before.currentPC + segmentLeft.length := by
      simp [SExpressionLinearizer.currentPC, appended]
    rw [position, SExpressionLinearizer.pops_append appended] at structuredRight
    exact ⟨finalBalance, .seq structuredLeft structuredRight⟩

/-- One more operation that control passes. -/
theorem Emits.one (emitted : Emitted) {stackTop : Int} {depth : Nat}
    (next : ∀ position, emitted.operation.successors position = [position + 1])
    (act : emitted.operation.operands before.currentPC state = final)
    (balanced : ∀ temps : Int, before.stackTop + before.pops = temps + depth →
      stackTop + (before.pops + emitted.operation.pops.toNat : Nat) = temps + final.length ∧
        Required temps (before.pops + emitted.operation.pops.toNat) emitted state) :
    EmitsFrom blockTempCount (.step emitted.operation.pops) depth state final before
      { before with operations := before.operations ++ [emitted], stackTop := stackTop } where
  installs := ⟨[], by simp, List.Forall₂.nil⟩
  code := by
    refine ⟨.step emitted.operation.pops, [emitted], Skeleton.Agrees.refl _, rfl, ?_⟩
    intro temps balance
    obtain ⟨finalBalance, required⟩ := balanced temps balance
    have counted : [emitted].countP machine.marked = emitted.operation.pops.toNat := by
      cases pop : emitted.operation.pops <;> simp [machine, pop]
    have pops : SExpressionLinearizer.pops { before with
        operations := before.operations ++ [emitted], stackTop := stackTop } =
        before.pops + emitted.operation.pops.toNat := by
      rw [← counted]
      exact SExpressionLinearizer.pops_append rfl
    refine ⟨by rw [pops]; exact finalBalance, ?_⟩
    subst act
    exact .step (next _) required

theorem Emits.step_false (emits : Emits blockTempCount (.step false) state final before after) :
    Emits blockTempCount .nothing state final before after :=
  emits.congr ⟨rfl, rfl, rfl⟩ rfl

/-- Behind code that is of no account for control comes other code. -/
theorem Emits.after_nothing (left : Emits blockTempCount .nothing state middle before between)
    (right : Emits blockTempCount b middle final between after) :
    Emits blockTempCount b state final before after :=
  (left.seq right).congr ⟨by simp [Skeleton.completes], by simp [Skeleton.marks],
    by simp [Skeleton.passesMark, Skeleton.completes]⟩ (by simp [Skeleton.asides])

theorem Emits.then_nothing (left : Emits blockTempCount a state middle before between)
    (right : Emits blockTempCount .nothing middle final between after) :
    Emits blockTempCount a state final before after :=
  (left.seq right).congr ⟨by simp [Skeleton.completes], by simp [Skeleton.marks],
    by simp [Skeleton.passesMark]⟩ (by simp [Skeleton.asides])

theorem Required.emitted {temps : Int} {pops : Nat} {state : List Nat} {stackTop : Int}
    (balance : stackTop + pops = temps + state.length) (operation : Operation) :
    Required temps pops ⟨operation, stackTop, none⟩ state where
  stackTop := by
    show stackTop = temps - pops + state.length
    lia
  addresses _ tagged := by cases tagged

/-- An operation that is plain, on an operand or not. -/
theorem Emits.plain {operation : Operation} {operand : Option Nat} (isPlain : operation.isPlain)
    (addresses : ∀ temps : Int, before.stackTop + before.pops = temps + state.length →
      ∀ position, operand = some position → ∃ earlier depth : Nat, earlier ≤ before.pops ∧
        operation.frameIndex = some (temps - earlier + depth + 1) ∧
          state.reverse[depth]? = some position) :
    Emits blockTempCount .nothing state state before { before with
      operations := before.operations ++ [⟨operation, before.stackTop, operand⟩] } := by
  have pops : operation.pops = false := by cases operation <;> first | rfl | cases isPlain
  have emits : Emits blockTempCount (.step operation.pops) state state before { before with
      operations := before.operations ++ [⟨operation, before.stackTop, operand⟩] } := by
    apply Emits.one ⟨operation, before.stackTop, operand⟩
    · intro position
      cases operation <;> first | rfl | cases isPlain
    · cases operation <;> first | rfl | cases isPlain
    · intro temps balance
      rw [pops]
      refine ⟨balance, ?_, addresses temps balance⟩
      show before.stackTop = temps - before.pops + state.length
      lia
  rw [pops] at emits
  exact emits.step_false

theorem Emits.emit (before : SExpressionLinearizer) (operation : Operation) (state : List Nat)
    (isPlain : operation.isPlain) :
    Emits blockTempCount .nothing state state before (before.emit operation) :=
  Emits.plain isPlain fun _ _ _ tagged => by cases tagged

theorem Emits.pushR (before : SExpressionLinearizer) (state : List Nat) :
    Emits blockTempCount .nothing state (before.currentPC :: state) before before.pushR := by
  refine Emits.step_false (Emits.one ⟨.pushR, before.stackTop, none⟩ (fun _ => rfl) rfl ?_)
  intro temps balance
  refine ⟨?_, Required.emitted balance _⟩
  simp only [Operation.pops, Bool.toNat_false, List.length_cons]
  lia

theorem Emits.dropToS (before : SExpressionLinearizer) (pushed : List Nat) (state : List Nat) :
    Emits blockTempCount .nothing (pushed ++ state) state before
      (before.dropToS pushed.length) := by
  refine Emits.step_false (Emits.one ⟨.dropToS pushed.length, before.stackTop, none⟩
    (fun _ => rfl) ?_ ?_)
  · exact List.drop_left
  · intro temps balance
    refine ⟨?_, Required.emitted balance _⟩
    simp only [Operation.pops, Bool.toNat_false, List.length_append] at balance ⊢
    lia

/-- In an arm of `ifNil:` what is popped has been discounted before. -/
theorem Emits.popR (before : SExpressionLinearizer) (operand : Nat) (state : List Nat) :
    EmitsFrom blockTempCount (.step true) state.length (operand :: state) state before
      before.popR := by
  refine Emits.one ⟨.popR, before.stackTop, none⟩ (fun _ => rfl) rfl ?_
  intro temps balance
  simp only [Operation.pops, Bool.toNat_true]
  refine ⟨by lia, Required.emitted ?_ _⟩
  simp only [List.length_cons]
  lia

/-- Control does not come back from a return. -/
theorem Emits.halt {operation : Operation} (before : SExpressionLinearizer) (state : List Nat)
    (returns : operation = .return ∨ operation = .nonLocalReturn) :
    Emits blockTempCount .halt state state before (before.emit operation) where
  installs := ⟨[], by simp [SExpressionLinearizer.emit], List.Forall₂.nil⟩
  code := by
    refine ⟨.halt, [⟨operation, before.stackTop, none⟩], Skeleton.Agrees.refl _, rfl, ?_⟩
    intro temps balance
    have unmarked : machine.marked ⟨operation, before.stackTop, none⟩ = false := by
      rcases returns with rfl | rfl <;> rfl
    have pops : (before.emit operation).pops = before.pops := by
      simp [SExpressionLinearizer.pops, SExpressionLinearizer.emit, unmarked]
    refine ⟨by rw [pops]; exact balance, .halt ?_⟩
    refine ⟨?_, ?_, unmarked, Required.emitted balance _⟩
    · rcases returns with rfl | rfl <;> rfl
    · rcases returns with rfl | rfl <;> rfl

end Emission

section Branches

variable {blockTempCount : LiteralValue → Nat} {a b : Skeleton} {state final : List Nat}
  {before between after : SExpressionLinearizer}

/-- A branch, when it has its target. -/
def branch (aBoolean : Bool) (target : Nat) : Operation :=
  if aBoolean then .jumpTrue target else .jumpFalse target

@[simp] theorem branch_successors (aBoolean : Bool) (target position : Nat) :
    (branch aBoolean target).successors position = [target, position + 1] := by
  cases aBoolean <;> rfl

@[simp] theorem branch_operands (aBoolean : Bool) (target position : Nat) (operands : List Nat) :
    (branch aBoolean target).operands position operands = operands := by
  cases aBoolean <;> rfl

@[simp] theorem branch_pops (aBoolean : Bool) (target : Nat) :
    (branch aBoolean target).pops = false := by
  cases aBoolean <;> rfl

@[simp] theorem branch_target (aBoolean : Bool) (unset target : Nat) :
    (branch aBoolean unset).target target = branch aBoolean target := by
  cases aBoolean <;> rfl

theorem setTarget_operations {linearizer : SExpressionLinearizer} {xs ys : List Emitted}
    {emitted : Emitted} {position : Nat} (split : linearizer.operations = xs ++ emitted :: ys)
    (here : position = xs.length) (target : Nat) :
    (linearizer.setTarget position target).operations =
      xs ++ { emitted with operation := emitted.operation.target target } :: ys := by
  have inside : position < (xs ++ emitted :: ys).length := by
    rw [List.length_append, List.length_cons]
    lia
  subst here
  simp only [SExpressionLinearizer.setTarget, split]
  rw [List.modify_eq_take_cons_drop inside, List.take_left, ← List.drop_drop, List.drop_left]
  simp

@[simp] theorem target_pops (target : Nat) (operation : Operation) :
    (operation.target target).pops = operation.pops := by
  cases operation <;> rfl

theorem emit_pops (linearizer : SExpressionLinearizer) {operation : Operation}
    (passes : operation.pops = false) : (linearizer.emit operation).pops = linearizer.pops := by
  simp [SExpressionLinearizer.pops, SExpressionLinearizer.emit, machine, passes]

@[simp] theorem branchIf_pops (linearizer : SExpressionLinearizer) (aBoolean : Bool) :
    (linearizer.branchIf aBoolean).pops = linearizer.pops :=
  emit_pops linearizer (branch_pops aBoolean SExpressionLinearizer.unset)

@[simp] theorem jump_pops (linearizer : SExpressionLinearizer) :
    linearizer.jump.pops = linearizer.pops := emit_pops linearizer rfl

@[simp] theorem jumpTo_pops (linearizer : SExpressionLinearizer) (target : Nat) :
    (linearizer.jumpTo target).pops = linearizer.pops := emit_pops linearizer rfl

@[simp] theorem setTarget_pops (linearizer : SExpressionLinearizer) (position target : Nat) :
    (linearizer.setTarget position target).pops = linearizer.pops := by
  unfold SExpressionLinearizer.pops SExpressionLinearizer.setTarget
  by_cases inside : position < linearizer.operations.length
  · obtain ⟨xs, emitted, ys, split, -, patched⟩ := List.exists_of_modify
      (fun emitted => { emitted with operation := emitted.operation.target target }) inside
    simp only [patched]
    rw [split]
    simp [List.countP_append, List.countP_cons, machine]
  · simp only [List.modify_eq_self (Nat.le_of_not_lt inside)]

@[simp] theorem branchTargetOf_pops (linearizer : SExpressionLinearizer) (position : Nat) :
    (linearizer.branchTargetOf position).pops = linearizer.pops := setTarget_pops _ _ _

theorem setTarget_emit (linearizer : SExpressionLinearizer) (operation : Operation)
    (target : Nat) : (linearizer.emit operation).setTarget linearizer.currentPC target =
      linearizer.emit (operation.target target) := by
  have split : (linearizer.emit operation).operations =
      linearizer.operations ++ ⟨operation, linearizer.stackTop, none⟩ :: [] := rfl
  have patched := setTarget_operations split (rfl : linearizer.currentPC = _) target
  exact congrArg (fun operations => { linearizer with operations := operations }) patched

theorem branchTargetOf_comm (linearizer : SExpressionLinearizer) (left right : Nat) :
    (linearizer.branchTargetOf left).branchTargetOf right =
      (linearizer.branchTargetOf right).branchTargetOf left := by
  by_cases same : left = right
  · rw [same]
  · simp only [SExpressionLinearizer.branchTargetOf, SExpressionLinearizer.setTarget,
      SExpressionLinearizer.currentPC, List.length_modify, List.modify_modify_ne _ _ _ same]

/-- What a branch needs to be one, at the depth at which it was emitted. -/
theorem Required.directs {temps : Int} {pops : Nat} {stackTop : Int} (operation : Operation)
    (position : Nat) (balance : stackTop + pops = temps + state.length)
    (operands : ∀ state, operation.operands position state = state)
    (unmarked : operation.pops = false) :
    machine.Directs (Required temps) position pops state ⟨operation, stackTop, none⟩
      (operation.successors position) where
  next := rfl
  act := operands state
  unmarked := unmarked
  holds := Required.emitted balance operation

/-- Code behind a branch that jumps over it. -/
theorem Emits.guard (aBoolean : Bool)
    (inner : Emits blockTempCount a state state (before.branchIf aBoolean) after) :
    Emits blockTempCount (.guard a) state state before
      (after.branchTargetOf before.currentPC) where
  installs := inner.installs
  code := by
    obtain ⟨precise, body, agrees, appended, balanced⟩ := inner.code
    have split : after.operations = before.operations ++
        ⟨branch aBoolean SExpressionLinearizer.unset, before.stackTop, none⟩ :: body := by
      rw [appended]
      simp [SExpressionLinearizer.branchIf, SExpressionLinearizer.emit, branch]
    have target : after.currentPC = before.currentPC + 1 + body.length := by
      simp only [SExpressionLinearizer.currentPC, split, List.length_append, List.length_cons]
      lia
    refine ⟨.guard precise, ⟨branch aBoolean after.currentPC, before.stackTop, none⟩ :: body,
      agrees.guard, ?_, ?_⟩
    · have patched := setTarget_operations split (rfl : before.currentPC = _) after.currentPC
      rwa [branch_target] at patched
    · intro temps balance
      obtain ⟨finalBalance, structured⟩ := balanced temps (by rw [branchIf_pops]; exact balance)
      have directs := Required.directs (branch aBoolean after.currentPC) before.currentPC balance
        (branch_operands aBoolean after.currentPC _) (branch_pops aBoolean after.currentPC)
      rw [branch_successors, target] at directs
      have position : (before.branchIf aBoolean).currentPC = before.currentPC + 1 := by
        simp [SExpressionLinearizer.currentPC, SExpressionLinearizer.branchIf,
          SExpressionLinearizer.emit]
      rw [position, branchIf_pops] at structured
      refine ⟨by rw [branchTargetOf_pops]; exact finalBalance, ?_⟩
      rw [target]
      exact .guard directs structured

/-- One of two pieces of code, with a branch before the first and a jump behind it. -/
theorem Emits.arms (aBoolean : Bool)
    (left : Emits blockTempCount a state final (before.branchIf aBoolean) between)
    (right : EmitsFrom blockTempCount b final.length state final
      (between.jump.branchTargetOf before.currentPC) after) :
    Emits blockTempCount (.either a b) state final before
      (after.branchTargetOf between.currentPC) where
  installs := by
    obtain ⟨installedLeft, appended, exactLeft⟩ := left.installs
    obtain ⟨installedRight, appended', exactRight⟩ := right.installs
    refine ⟨installedLeft ++ installedRight, ?_, List.rel_append exactLeft exactRight⟩
    rw [← List.append_assoc]
    exact appended'.trans (congrArg (· ++ installedRight) appended)
  code := by
    obtain ⟨preciseLeft, first, agreesLeft, appended, balanced⟩ := left.code
    obtain ⟨preciseRight, second, agreesRight, appended', balanced'⟩ := right.code
    have start : (before.branchIf aBoolean).currentPC = before.currentPC + 1 := by
      simp [SExpressionLinearizer.currentPC, SExpressionLinearizer.branchIf,
        SExpressionLinearizer.emit]
    have middle : between.currentPC = before.currentPC + 1 + first.length := by
      rw [← start]
      simp only [SExpressionLinearizer.currentPC, appended, List.length_append]
    have jumped : between.jump.operations = before.operations ++
        ⟨branch aBoolean SExpressionLinearizer.unset, before.stackTop, none⟩ ::
          (first ++ [⟨.jump SExpressionLinearizer.unset, between.stackTop, none⟩]) := by
      rw [SExpressionLinearizer.jump, SExpressionLinearizer.emit, appended]
      simp [SExpressionLinearizer.branchIf, SExpressionLinearizer.emit, branch]
    have jumpPC : between.jump.currentPC = before.currentPC + 1 + first.length + 1 := by
      rw [← middle]
      simp [SExpressionLinearizer.currentPC, SExpressionLinearizer.jump,
        SExpressionLinearizer.emit]
    have patched := setTarget_operations jumped (rfl : before.currentPC = _)
      between.jump.currentPC
    rw [branch_target, jumpPC] at patched
    have split : after.operations = (before.operations ++
        ⟨branch aBoolean (before.currentPC + 1 + first.length + 1), before.stackTop, none⟩ ::
          first) ++ ⟨.jump SExpressionLinearizer.unset, between.stackTop, none⟩ :: second := by
      rw [appended', SExpressionLinearizer.branchTargetOf, jumpPC, patched]
      simp
    have finish : after.currentPC =
        before.currentPC + 1 + first.length + 1 + second.length := by
      simp only [SExpressionLinearizer.currentPC, split, List.length_append, List.length_cons]
      lia
    refine ⟨.either preciseLeft preciseRight,
      ⟨branch aBoolean (before.currentPC + 1 + first.length + 1), before.stackTop, none⟩ ::
        (first ++ ⟨.jump after.currentPC, between.stackTop, none⟩ :: second),
      agreesLeft.either agreesRight, ?_, ?_⟩
    · have jumps := setTarget_operations split (by
        rw [middle, List.length_append, List.length_cons]
        simp only [SExpressionLinearizer.currentPC]
        lia : between.currentPC = _) after.currentPC
      rw [SExpressionLinearizer.branchTargetOf, jumps]
      simp [Operation.target]
    · intro temps balance
      obtain ⟨middleBalance, structuredLeft⟩ :=
        balanced temps (by rw [branchIf_pops]; exact balance)
      obtain ⟨finalBalance, structuredRight⟩ := balanced' temps (by
        rw [branchTargetOf_pops, jump_pops]
        exact middleBalance)
      have directs := Required.directs
        (branch aBoolean (before.currentPC + 1 + first.length + 1)) before.currentPC balance
        (branch_operands aBoolean _ _) (branch_pops aBoolean _)
      have leaves := Required.directs (.jump after.currentPC) between.currentPC middleBalance
        (fun _ => rfl) rfl
      have entry : (between.jump.branchTargetOf before.currentPC).currentPC =
          before.currentPC + 1 + first.length + 1 := by
        rw [← jumpPC]
        simp [SExpressionLinearizer.currentPC, SExpressionLinearizer.branchTargetOf,
          SExpressionLinearizer.setTarget]
      have counted := SExpressionLinearizer.pops_append appended
      rw [branchIf_pops] at counted structuredLeft
      rw [branchTargetOf_pops, jump_pops, counted, entry] at structuredRight
      rw [branch_successors] at directs
      rw [middle, finish, counted] at leaves
      rw [start] at structuredLeft
      refine ⟨by rw [branchTargetOf_pops]; exact finalBalance, ?_⟩
      rw [finish]
      exact .either directs structuredLeft leaves structuredRight

/-- Code that is gone through again as long as what comes before it lets control do so. -/
theorem Emits.loop (aBoolean : Bool) (left : Emits blockTempCount a state state before between)
    (right : Emits blockTempCount b state state (between.branchIf aBoolean) after) :
    Emits blockTempCount (.loop a b) state state before
      ((after.jumpTo before.currentPC).branchTargetOf between.currentPC) where
  installs := by
    obtain ⟨installedLeft, appended, exactLeft⟩ := left.installs
    obtain ⟨installedRight, appended', exactRight⟩ := right.installs
    refine ⟨installedLeft ++ installedRight, ?_, List.rel_append exactLeft exactRight⟩
    rw [← List.append_assoc]
    exact appended'.trans (congrArg (· ++ installedRight) appended)
  code := by
    obtain ⟨preciseLeft, condition, agreesLeft, appended, balanced⟩ := left.code
    obtain ⟨preciseRight, body, agreesRight, appended', balanced'⟩ := right.code
    have middle : between.currentPC = before.currentPC + condition.length := by
      simp only [SExpressionLinearizer.currentPC, appended, List.length_append]
    have start : (between.branchIf aBoolean).currentPC =
        before.currentPC + condition.length + 1 := by
      rw [← middle]
      simp [SExpressionLinearizer.currentPC, SExpressionLinearizer.branchIf,
        SExpressionLinearizer.emit]
    have last : after.currentPC = before.currentPC + condition.length + 1 + body.length := by
      rw [← start]
      simp only [SExpressionLinearizer.currentPC, appended', List.length_append]
    have split : (after.jumpTo before.currentPC).operations =
        (before.operations ++ condition) ++
          ⟨branch aBoolean SExpressionLinearizer.unset, between.stackTop, none⟩ ::
            (body ++ [⟨.jump before.currentPC, after.stackTop, none⟩]) := by
      rw [SExpressionLinearizer.jumpTo, SExpressionLinearizer.emit, appended',
        SExpressionLinearizer.branchIf, SExpressionLinearizer.emit, appended]
      simp [branch]
    have finish : (after.jumpTo before.currentPC).currentPC =
        before.currentPC + condition.length + 1 + body.length + 1 := by
      rw [← last]
      simp [SExpressionLinearizer.currentPC, SExpressionLinearizer.jumpTo,
        SExpressionLinearizer.emit]
    have patched := setTarget_operations split (by
      rw [middle, List.length_append]
      rfl : between.currentPC = _) (after.jumpTo before.currentPC).currentPC
    rw [branch_target, finish, List.append_assoc] at patched
    refine ⟨.loop preciseLeft preciseRight, _, agreesLeft.loop agreesRight, by
      rw [SExpressionLinearizer.branchTargetOf, finish]; exact patched, ?_⟩
    intro temps balance
    obtain ⟨middleBalance, structuredLeft⟩ := balanced temps balance
    obtain ⟨finalBalance, structuredRight⟩ := balanced' temps (by
      rw [branchIf_pops]
      exact middleBalance)
    have directs := Required.directs
      (branch aBoolean (before.currentPC + condition.length + 1 + body.length + 1))
      between.currentPC middleBalance (branch_operands aBoolean _ _) (branch_pops aBoolean _)
    have returns := Required.directs (.jump before.currentPC) after.currentPC finalBalance
      (fun _ => rfl) rfl
    have counted := SExpressionLinearizer.pops_append appended
    have counted' := SExpressionLinearizer.pops_append appended'
    rw [branchIf_pops, counted] at counted'
    rw [branch_successors, middle, counted] at directs
    rw [last, counted'] at returns
    rw [start, branchIf_pops, counted] at structuredRight
    refine ⟨by rw [branchTargetOf_pops, jumpTo_pops]; exact finalBalance, ?_⟩
    exact .loop structuredLeft directs structuredRight returns

/-- Code that is gone through again, for ever or until a branch does not come back. -/
theorem Emits.again {leaves : Bool} {operation : Operation} (passes : operation.pops = false)
    (stays : ∀ position operands, operation.operands position operands = operands)
    (next : ∀ position, operation.successors position =
      before.currentPC :: if leaves then [position + 1] else [])
    (inner : Emits blockTempCount a state state before after) :
    Emits blockTempCount (.again a leaves) state state before (after.emit operation) where
  installs := inner.installs
  code := by
    obtain ⟨precise, body, agrees, appended, balanced⟩ := inner.code
    refine ⟨.again precise leaves, body ++ [⟨operation, after.stackTop, none⟩],
      agrees.again leaves, ?_, ?_⟩
    · rw [SExpressionLinearizer.emit, appended, List.append_assoc]
    · intro temps balance
      obtain ⟨finalBalance, structured⟩ := balanced temps balance
      have last : after.currentPC = before.currentPC + body.length := by
        simp only [SExpressionLinearizer.currentPC, appended, List.length_append]
      have directs := Required.directs operation after.currentPC finalBalance
        (stays after.currentPC) passes
      rw [next, last, SExpressionLinearizer.pops_append appended] at directs
      refine ⟨by rw [emit_pops after passes]; exact finalBalance, ?_⟩
      exact .again structured directs

end Branches

/-- A state of the linearizer came later than another, with all operands that there were then. -/
structure Since (origin : SExpressionLinearizer) (base : List Nat)
    (linearizer : SExpressionLinearizer) (state : List Nat) : Prop where
  below : base <:+ state
  pops : origin.pops ≤ linearizer.pops
  balance : linearizer.stackTop + linearizer.pops + base.length =
    origin.stackTop + origin.pops + state.length

section Since

variable {blockTempCount : LiteralValue → Nat} {a : Skeleton} {base state final : List Nat}
  {origin before after : SExpressionLinearizer}

theorem Since.refl (origin : SExpressionLinearizer) (base : List Nat) :
    Since origin base origin base := ⟨List.suffix_rfl, Nat.le_refl _, rfl⟩

theorem Since.trans (earlier : Since origin base before state)
    (later : Since before state after final) : Since origin base after final where
  below := earlier.below.trans later.below
  pops := Nat.le_trans earlier.pops later.pops
  balance := by
    have first := earlier.balance
    have second := later.balance
    lia

theorem EmitsFrom.since (emits : Emits blockTempCount a state final before after)
    (below : state <:+ final) : Since before state after final where
  below := below
  pops := by
    obtain ⟨_, segment, _, appended, _⟩ := emits.code
    rw [SExpressionLinearizer.pops_append appended]
    exact Nat.le_add_right _ _
  balance := by
    obtain ⟨_, _, _, _, balanced⟩ := emits.code
    have balance := (balanced (before.stackTop + before.pops - state.length) (by lia)).1
    lia

theorem Since.branchIf (since : Since origin base before state) (aBoolean : Bool) :
    Since origin base (before.branchIf aBoolean) state where
  below := since.below
  pops := by
    rw [branchIf_pops]
    exact since.pops
  balance := by
    rw [branchIf_pops]
    exact since.balance

/-- The slot that `_stackTop` named when an operand was pushed is where it is found later. -/
theorem Since.emitFor {operand : Nat} {operation : Operation} (isPlain : operation.isPlain)
    (index : operation.frameIndex = some origin.stackTop)
    (since : Since origin (operand :: base) before state) :
    Emits blockTempCount .nothing state state before (before.emitFor operand operation) := by
  apply Emits.plain isPlain
  rintro temps balance position ⟨⟩
  obtain ⟨above, rfl⟩ := since.below
  have counted := since.balance
  simp only [List.length_append, List.length_cons] at counted balance
  refine ⟨origin.pops, base.length, since.pops, ?_, ?_⟩
  · rw [index]
    congr 1
    lia
  · simp

end Since

end Egg.Linearizer
