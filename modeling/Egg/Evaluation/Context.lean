import Mathlib.Logic.Function.Basic
import Mathlib.Tactic.Common

/-! The evaluator's registers and its native stack, which grows downwards. -/
namespace Egg.Evaluation

/-- A machine word of the stack: an object, a saved PC or a saved BP. -/
abbrev Word := Int

/-- Registers and stack; `stack` is addressed by the one-based `stackAt_`. -/
structure EvaluationContext where
  regS : Word
  regM : Word
  regE : Word
  regSP : Int
  regBP : Int
  regPC : Int
  stack : Int → Word

namespace EvaluationContext

def stackSize : Int := 64 * 1024

def incRegPC (context : EvaluationContext) : EvaluationContext :=
  { context with regPC := context.regPC + 1 }

def push (context : EvaluationContext) (object : Word) : EvaluationContext :=
  { context with
    regSP := context.regSP - 1
    stack := Function.update context.stack (context.regSP - 1) object }

def pop (context : EvaluationContext) : Word × EvaluationContext :=
  (context.stack context.regSP, { context with regSP := context.regSP + 1 })

def dropOperands (context : EvaluationContext) (count : Int) : EvaluationContext :=
  { context with regSP := context.regSP + count }

def reserveStackSlots (context : EvaluationContext) (count : Int) : EvaluationContext :=
  { context with regSP := context.regSP - count }

/-- The operand at a distance from the top, the top being at zero. -/
def operandAt (context : EvaluationContext) (distance : Int) : Word :=
  context.stack (context.regSP + distance)

/-- Pop operands; the last one pushed is the last of the list. -/
def popOperands (context : EvaluationContext) : Nat → List Word × EvaluationContext
  | 0 => ([], context)
  | count + 1 =>
    let (top, below) := context.pop
    let (others, rest) := popOperands below count
    (others ++ [top], rest)

def pushAll (context : EvaluationContext) (objects : List Word) : EvaluationContext :=
  objects.foldl push context

def stackTemporaryAt (context : EvaluationContext) (index : Int) : Word :=
  context.stack (context.regBP - 4 - index)

def stackTemporaryAtPut (context : EvaluationContext) (index : Int) (object : Word) :
    EvaluationContext :=
  { context with stack := Function.update context.stack (context.regBP - 4 - index) object }

/-- Switch to the callee's receiver and code and save the caller's PC and BP. -/
def saveFrame (context : EvaluationContext) (receiver compiledCode : Word) : EvaluationContext :=
  let entered := { context with regS := receiver, regM := compiledCode }
  let called := (entered.push context.regPC).push context.regBP
  { called with regBP := called.regSP }

/-- Push the fixed words of a frame whose PC and BP are saved. -/
def fillFrame (context : EvaluationContext) (environment : Word) : EvaluationContext :=
  let header := (((context.push context.regS).push context.regM).push context.regE).push environment
  { header with regE := environment, regPC := 0 }

/-- Build a frame; `none` is the exit for a stack overflow. -/
def buildFrameFor (context : EvaluationContext) (nilObj receiver compiledCode environment : Word)
    (temps : Nat) : Option EvaluationContext :=
  let framed := context.saveFrame receiver compiledCode
  if framed.regBP ≤ 100 then none
  else some ((framed.fillFrame environment).pushAll (List.replicate temps nilObj))

/-- Leave the current frame and reload the registers from its sender's frame. -/
def popFrame (context : EvaluationContext) : EvaluationContext :=
  let (bp, atPC) := { context with regSP := context.regBP }.pop
  let (pc, left) := atPC.pop
  { left with
    regBP := bp
    regPC := pc
    regE := context.stack (bp - 4)
    regM := context.stack (bp - 2)
    regS := context.stack (bp - 1) }

/-- Leave a launch frame; below the outermost one there is no frame to reload. -/
def popLaunchFrame (context : EvaluationContext) (prevRegE : Word) : EvaluationContext :=
  let (bp, atPC) := { context with regSP := context.regBP, regE := prevRegE }.pop
  let (pc, left) := atPC.pop
  let popped := { left with regBP := bp, regPC := pc }
  if bp = 0 then popped
  else { popped with regM := context.stack (bp - 2), regS := context.stack (bp - 1) }

section Lemmas

variable (context : EvaluationContext)

@[simp] theorem incRegPC_regPC : context.incRegPC.regPC = context.regPC + 1 := rfl
@[simp] theorem incRegPC_regSP : context.incRegPC.regSP = context.regSP := rfl
@[simp] theorem incRegPC_regBP : context.incRegPC.regBP = context.regBP := rfl
@[simp] theorem incRegPC_stack : context.incRegPC.stack = context.stack := rfl

variable (object : Word)

@[simp] theorem push_regS : (context.push object).regS = context.regS := rfl
@[simp] theorem push_regM : (context.push object).regM = context.regM := rfl
@[simp] theorem push_regE : (context.push object).regE = context.regE := rfl
@[simp] theorem push_regSP : (context.push object).regSP = context.regSP - 1 := rfl
@[simp] theorem push_regBP : (context.push object).regBP = context.regBP := rfl
@[simp] theorem push_regPC : (context.push object).regPC = context.regPC := rfl

theorem push_stack (index : Int) :
    (context.push object).stack index =
      if index = context.regSP - 1 then object else context.stack index := by
  simp [push, Function.update_apply]

/-- Pushing operands moves SP only and leaves every word from SP upwards. -/
theorem pushAll_spec (objects : List Word) :
    (context.pushAll objects).regS = context.regS ∧
      (context.pushAll objects).regM = context.regM ∧
      (context.pushAll objects).regE = context.regE ∧
      (context.pushAll objects).regBP = context.regBP ∧
      (context.pushAll objects).regPC = context.regPC ∧
      (context.pushAll objects).regSP = context.regSP - objects.length ∧
      ∀ index, context.regSP ≤ index →
        (context.pushAll objects).stack index = context.stack index := by
  induction objects generalizing context with
  | nil => simp [pushAll]
  | cons first rest ih =>
    obtain ⟨sameS, sameM, sameE, sameBP, samePC, moved, kept⟩ := ih (context.push first)
    refine ⟨sameS, sameM, sameE, sameBP, samePC, ?_, ?_⟩
    · rw [pushAll, List.foldl_cons]
      rw [pushAll] at moved
      rw [moved, push_regSP, List.length_cons]
      lia
    · intro index above
      have lower : (context.push first).regSP ≤ index := by rw [push_regSP]; lia
      rw [pushAll, List.foldl_cons]
      rw [pushAll] at kept
      rw [kept index lower, push_stack, if_neg (by lia)]

theorem popOperands_spec (count : Nat) :
    (context.popOperands count).2 = context.dropOperands count := by
  induction count generalizing context with
  | zero => simp [popOperands, dropOperands]
  | succ count ih =>
    simp only [popOperands, pop, ih, dropOperands]
    congr 1
    lia

@[simp] theorem popLaunchFrame_stack (prevRegE : Word) :
    (context.popLaunchFrame prevRegE).stack = context.stack := by
  by_cases outermost : context.stack context.regBP = 0 <;>
    simp [popLaunchFrame, pop, outermost]

/-- Leaving an inner launch frame reloads M and S from the frame below it. -/
theorem popLaunchFrame_inner (prevRegE : Word) (inner : context.stack context.regBP ≠ 0) :
    context.popLaunchFrame prevRegE =
      { regS := context.stack (context.stack context.regBP - 1)
        regM := context.stack (context.stack context.regBP - 2)
        regE := prevRegE
        regSP := context.regBP + 2
        regBP := context.stack context.regBP
        regPC := context.stack (context.regBP + 1)
        stack := context.stack } := by
  simp only [popLaunchFrame, pop, inner, if_false, Int.add_assoc, Int.reduceAdd]

end Lemmas

/-- What a built frame holds and what it leaves alone. -/
structure FrameBuilt (context : EvaluationContext)
    (nilObj receiver compiledCode environment : Word) (temps : Nat) (built : EvaluationContext) :
    Prop where
  regS : built.regS = receiver
  regM : built.regM = compiledCode
  regE : built.regE = environment
  regPC : built.regPC = 0
  regBP : built.regBP = context.regSP - 2
  regSP : built.regSP = context.regSP - 6 - temps
  savedPC : built.stack (built.regBP + 1) = context.regPC
  savedBP : built.stack built.regBP = context.regBP
  receiver : built.stack (built.regBP - 1) = receiver
  code : built.stack (built.regBP - 2) = compiledCode
  environment : built.stack (built.regBP - 4) = environment
  kept : ∀ index, context.regSP ≤ index → built.stack index = context.stack index
  room : 100 < built.regBP

/-- The six words of a frame header, from its top word downwards. -/
theorem saveFrame_fillFrame_stack (context : EvaluationContext)
    (receiver compiledCode environment : Word) (index : Int) :
    ((context.saveFrame receiver compiledCode).fillFrame environment).stack index =
      if index = context.regSP - 6 then environment
      else if index = context.regSP - 5 then context.regE
      else if index = context.regSP - 4 then compiledCode
      else if index = context.regSP - 3 then receiver
      else if index = context.regSP - 2 then context.regBP
      else if index = context.regSP - 1 then context.regPC
      else context.stack index := by
  simp only [fillFrame, saveFrame, push_stack, push_regSP, push_regS, push_regM, push_regE,
    Int.sub_sub, Int.reduceAdd]

theorem buildFrameFor_spec {context built : EvaluationContext}
    {nilObj receiver compiledCode environment : Word} {temps : Nat}
    (success : context.buildFrameFor nilObj receiver compiledCode environment temps = some built) :
    FrameBuilt context nilObj receiver compiledCode environment temps built := by
  simp only [buildFrameFor] at success
  split at success
  · cases success
  · rename_i space
    obtain rfl := Option.some.inj success
    have header := saveFrame_fillFrame_stack context receiver compiledCode environment
    obtain ⟨sameS, sameM, sameE, sameBP, samePC, moved, kept⟩ := pushAll_spec
      ((context.saveFrame receiver compiledCode).fillFrame environment)
      (List.replicate temps nilObj)
    have top : ((context.saveFrame receiver compiledCode).fillFrame environment).regSP =
        context.regSP - 6 := by
      simp only [fillFrame, saveFrame, push_regSP]
      lia
    have frame : ((context.saveFrame receiver compiledCode).fillFrame environment).regBP =
        context.regSP - 2 := by
      simp only [fillFrame, saveFrame, push_regSP, push_regBP]
      lia
    rw [List.length_replicate, top] at moved
    rw [top] at kept
    rw [frame] at sameBP
    have word : ∀ index, context.regSP - 6 ≤ index →
        (((context.saveFrame receiver compiledCode).fillFrame environment).pushAll
          (List.replicate temps nilObj)).stack index =
        ((context.saveFrame receiver compiledCode).fillFrame environment).stack index := kept
    exact {
      regS := sameS
      regM := sameM
      regE := sameE
      regPC := samePC
      regBP := sameBP
      regSP := moved
      savedPC := by
        rw [sameBP, word _ (by lia), header]
        split_ifs <;> first | rfl | lia
      savedBP := by
        rw [sameBP, word _ (by lia), header]
        split_ifs <;> first | rfl | lia
      receiver := by
        rw [sameBP, word _ (by lia), header]
        split_ifs <;> first | rfl | lia
      code := by
        rw [sameBP, word _ (by lia), header]
        split_ifs <;> first | rfl | lia
      environment := by
        rw [sameBP, word _ (by lia), header]
        split_ifs <;> first | rfl | lia
      kept := by
        intro index above
        rw [word _ (by lia), header]
        split_ifs <;> first | rfl | lia
      room := by
        rw [sameBP]
        simp only [saveFrame, push_regSP] at space
        lia }

end EvaluationContext

end Egg.Evaluation
