import Egg.Process.Stack

/-! Switching between processes, in any order. -/
namespace Egg.Process

open Egg.Evaluation

/-- How a process came to be where it is. -/
inductive Status where
  | idle
  | running
  | prepared (launch : LaunchContext)
  | suspended (context : EvaluationContext)

/-- The evaluator's context, bound to the stack of the active process. -/
structure World (Process : Type) where
  context : EvaluationContext
  active : Process
  vmStacks : Process → ProcessVMStack
  status : Process → Status

section Code

variable {Process : Type} [DecidableEq Process]

/-- Save the outgoing registers, bind the incoming buffer and pop its topmost frame. -/
def contextSwitchTo (context : EvaluationContext) (vmStacks : Process → ProcessVMStack)
    (outgoing incoming : Process) : EvaluationContext × (Process → ProcessVMStack) :=
  let saved := Function.update vmStacks outgoing
    { sp := context.regSP, bp := context.regBP, env := context.regE, buffer := context.stack }
  let bound := { context with stack := (saved incoming).buffer }
  let topmost := { bound with regSP := (saved incoming).sp + 1 }
  ({ topmost with regBP := topmost.regSP }.popFrame, saved)

/-- The active process works on, a process that does not run is given a first frame, or
the active process switches. -/
inductive Event (Process : Type) where
  | work (context : EvaluationContext)
  | prepare (process : Process) (launch : LaunchContext)
  | switch (process : Process)

def World.step (nilObj : Word) (world : World Process) : Event Process → World Process
  | .work context => { world with context := context }
  | .prepare process launch =>
    { world with
      vmStacks := Function.update world.vmStacks process
        ((world.vmStacks process).fillFrom nilObj launch)
      status := Function.update world.status process (.prepared launch) }
  | .switch process =>
    let (context, vmStacks) := contextSwitchTo world.context world.vmStacks world.active process
    { context := context
      active := process
      vmStacks := vmStacks
      status := Function.update
        (Function.update world.status world.active (.suspended world.context)) process .running }

/-- What holds of every event of a history, in the world it happens in. -/
def World.Along (nilObj : Word) (holds : World Process → Event Process → Prop) :
    World Process → List (Event Process) → Prop
  | _, [] => True
  | world, event :: events =>
    holds world event ∧ World.Along nilObj holds (world.step nilObj event) events

end Code

/-- The frame of `contextSwitchTo:` has neither temporaries nor operands. Frames lie inside
the stack, and the environment it saved is an object, whose address lies outside. -/
structure AtSwitch (context : EvaluationContext) : Prop where
  regSP : context.regSP = context.regBP - 4
  inside : context.regBP ≤ bufferSize
  sender : context.stack context.regBP ≤ bufferSize
  previousEnvironment : bufferSize < context.stack (context.regBP - 3)

/-- Both contexts are in the same activation, at the same point. -/
structure SamePoint (left right : EvaluationContext) : Prop where
  regBP : left.regBP = right.regBP
  regPC : left.regPC = right.regPC
  regM : left.regM = right.regM
  regS : left.regS = right.regS
  regE : left.regE = right.regE
  regSP : left.regSP = right.regSP
  operands : ∀ index, right.regSP ≤ index → left.stack index = right.stack index

/-- The context is at the start of a launched frame. -/
structure AtLaunch (launch : LaunchContext) (context : EvaluationContext) : Prop where
  regBP : context.regBP = bufferSize - launch.arguments.length - 1
  regPC : context.regPC = launch.pc
  regM : context.regM = launch.code
  regS : context.regS = launch.receiver
  regE : context.regE = launch.environment
  regSP : context.regSP = context.regBP - 4 - launch.temporaries.length
  temporaries : ∀ offset object, launch.temporaries[offset]? = some object →
    context.stack (context.regBP - 5 - (offset : Nat)) = object
  arguments : ∀ offset object, launch.arguments[offset]? = some object →
    context.stack (bufferSize - (offset : Nat)) = object

/-- The process goes on where it was: in its first frame, or in its switch primitive or
that primitive's sender. -/
def Resumes (context : EvaluationContext) : Status → Prop
  | .prepared launch => AtLaunch launch context
  | .suspended before => SamePoint context before ∨ SamePoint context before.popFrame
  | _ => False

/-- What a process that does not run keeps until it runs again. -/
def Keeps (stack : ProcessVMStack) : Status → Prop
  | .prepared launch => FirstFrame launch stack
  | .suspended context => stack.buffer = context.stack ∧ stack.sp = context.regSP ∧
      AtSwitch context
  | _ => True

section Runs

variable {Process : Type} [DecidableEq Process]

/-- Which events can happen: processes are prepared while they do not run, and the active
process switches to another one that has something to run. -/
def World.Allows (world : World Process) : Event Process → Prop
  | .work _ => True
  | .prepare process _ => process ≠ world.active
  | .switch process => process ≠ world.active ∧ AtSwitch world.context ∧
      world.status process ≠ .idle ∧ world.status process ≠ .running

/-- A switch resumes its process. -/
def World.RoundTrips (nilObj : Word) (world : World Process) : Event Process → Prop
  | .switch process =>
    Resumes (world.step nilObj (.switch process)).context (world.status process)
  | _ => True

/-- A switch goes to a process prepared since it last ran. -/
def World.OnlyPrepared (world : World Process) : Event Process → Prop
  | .switch process => ∃ launch, world.status process = .prepared launch
  | _ => True

/-- Every stack keeps what its process needs. -/
def World.Sound (world : World Process) : Prop :=
  ∀ process, Keeps (world.vmStacks process) (world.status process)

theorem contextSwitchTo_context (context : EvaluationContext)
    (vmStacks : Process → ProcessVMStack) {outgoing incoming : Process}
    (other : incoming ≠ outgoing) :
    (contextSwitchTo context vmStacks outgoing incoming).1 =
      { regS := (vmStacks incoming).buffer ((vmStacks incoming).buffer ((vmStacks incoming).sp + 1) - 1)
        regM := (vmStacks incoming).buffer ((vmStacks incoming).buffer ((vmStacks incoming).sp + 1) - 2)
        regE := (vmStacks incoming).buffer ((vmStacks incoming).buffer ((vmStacks incoming).sp + 1) - 4)
        regSP := (vmStacks incoming).sp + 3
        regBP := (vmStacks incoming).buffer ((vmStacks incoming).sp + 1)
        regPC := (vmStacks incoming).buffer ((vmStacks incoming).sp + 2)
        stack := (vmStacks incoming).buffer } := by
  simp only [contextSwitchTo, Function.update_of_ne other, EvaluationContext.popFrame,
    EvaluationContext.pop, Int.add_assoc, Int.reduceAdd]

theorem World.Sound.step {world : World Process} {event : Event Process} (nilObj : Word)
    (sound : world.Sound) (allowed : world.Allows event) : (world.step nilObj event).Sound := by
  intro process
  cases event with
  | work context => exact sound process
  | prepare prepared launch =>
    by_cases same : process = prepared
    · subst same
      simp only [World.step, Function.update_self]
      exact ProcessVMStack.fillFrom_spec _ nilObj launch
    · simp only [World.step, Function.update_of_ne same]
      exact sound process
  | switch incoming =>
    by_cases same : process = incoming
    · simp only [World.step, same, Function.update_self]
      trivial
    · by_cases outgoing : process = world.active
      · subst outgoing
        simp only [World.step, contextSwitchTo, Function.update_of_ne same, Function.update_self]
        exact ⟨rfl, rfl, allowed.2.1⟩
      · simp only [World.step, contextSwitchTo, Function.update_of_ne same,
          Function.update_of_ne outgoing]
        exact sound process

/-- A prepared process starts in its first frame. -/
theorem resumes_prepared {world : World Process} {process : Process} {launch : LaunchContext}
    (nilObj : Word) (sound : world.Sound) (other : process ≠ world.active)
    (prepared : world.status process = .prepared launch) :
    AtLaunch launch (world.step nilObj (.switch process)).context := by
  have frame : FirstFrame launch (world.vmStacks process) := by
    have kept := sound process
    rwa [prepared] at kept
  simp only [World.step]
  rw [contextSwitchTo_context _ _ other]
  have sp := frame.sp
  exact {
    regBP := frame.savedBP
    regPC := frame.savedPC
    regM := (congrArg (world.vmStacks process).buffer
      (by rw [frame.savedBP]; omega)).trans frame.code
    regS := (congrArg (world.vmStacks process).buffer
      (by rw [frame.savedBP]; omega)).trans frame.receiver
    regE := (congrArg (world.vmStacks process).buffer
      (by rw [frame.savedBP]; omega)).trans frame.environment
    regSP := by
      show (world.vmStacks process).sp + 3 =
        (world.vmStacks process).buffer ((world.vmStacks process).sp + 1) - 4 - _
      rw [frame.savedBP]
      omega
    temporaries := fun offset object stored =>
      (congrArg (world.vmStacks process).buffer
        (by dsimp only; rw [frame.savedBP]; omega)).trans (frame.temporaries offset object stored)
    arguments := frame.arguments }

/-- A process that switched away is resumed in no activation of its own. -/
theorem not_resumes_suspended {world : World Process} {process : Process}
    {before : EvaluationContext} (nilObj : Word) (sound : world.Sound)
    (other : process ≠ world.active) (suspended : world.status process = .suspended before) :
    ¬ Resumes (world.step nilObj (.switch process)).context (.suspended before) := by
  have kept := sound process
  rw [suspended] at kept
  obtain ⟨buffer, sp, atSwitch⟩ := kept
  have frame : (world.step nilObj (.switch process)).context.regBP =
      before.stack (before.regBP - 3) := by
    simp only [World.step]
    rw [contextSwitchTo_context _ _ other, buffer, sp, atSwitch.regSP]
    show before.stack (before.regBP - 4 + 1) = _
    congr 1
    omega
  have outside := atSwitch.previousEnvironment
  rintro (same | same)
  · have regBP := same.regBP
    have inside := atSwitch.inside
    omega
  · have regBP : (world.step nilObj (.switch process)).context.regBP =
        before.stack before.regBP := same.regBP
    have inside : (before.stack before.regBP : Int) ≤ bufferSize := atSwitch.sender
    exact absurd (frame.symm.trans regBP) (Int.ne_of_gt (Int.lt_of_le_of_lt inside outside))

theorem roundTrips_iff_onlyPrepared {world : World Process} {event : Event Process}
    (nilObj : Word) (sound : world.Sound) (allowed : world.Allows event) :
    world.RoundTrips nilObj event ↔ world.OnlyPrepared event := by
  cases event with
  | work context => exact Iff.rfl
  | prepare process launch => exact Iff.rfl
  | switch process =>
    obtain ⟨other, -, notIdle, notRunning⟩ := allowed
    cases status : world.status process with
    | idle => exact absurd status notIdle
    | running => exact absurd status notRunning
    | prepared launch =>
      simp only [World.RoundTrips, World.OnlyPrepared, status]
      exact ⟨fun _ => ⟨launch, rfl⟩, fun _ => resumes_prepared nilObj sound other status⟩
    | suspended before =>
      have lost := not_resumes_suspended nilObj sound other status
      simp only [World.RoundTrips, World.OnlyPrepared, status, lost, reduceCtorEq, exists_false]

/-- A history resumes every process it switches to exactly when it switches to prepared
processes only. -/
theorem switches_roundTrip_iff (nilObj : Word) {world : World Process}
    {events : List (Event Process)} (sound : world.Sound)
    (legal : World.Along nilObj World.Allows world events) :
    World.Along nilObj (World.RoundTrips nilObj) world events ↔
      World.Along nilObj World.OnlyPrepared world events := by
  induction events generalizing world with
  | nil => exact Iff.rfl
  | cons event events ih =>
    obtain ⟨allowed, legal⟩ := legal
    have rest := ih (sound.step nilObj allowed) legal
    exact and_congr (roundTrips_iff_onlyPrepared nilObj sound allowed) rest

end Runs

section Sample

/-- A process in `contextSwitchTo:`, called from the outermost frame of its stack. -/
def switching : EvaluationContext :=
  { regS := 100001, regM := 100002, regE := 100003, regSP := 56, regBP := 60, regPC := 1
    stack := fun index => if index = 60 then 70 else if index = 57 then 100004 else 100000 }

/-- Two processes, of which `false` runs. -/
def twoProcesses : World Bool :=
  { context := switching
    active := false
    vmStacks := fun _ => { sp := 0, bp := 0, env := 0, buffer := fun _ => 0 }
    status := fun process => if process then .idle else .running }

def launched : LaunchContext :=
  { receiver := 100005, code := 100006, environment := 100007, pc := 0
    arguments := [100008], temporaries := [], fits := by decide }

theorem switching_atSwitch : AtSwitch switching :=
  { regSP := by decide, inside := by decide, sender := by decide,
    previousEnvironment := by decide }

theorem twoProcesses_sound : twoProcesses.Sound := by
  intro process
  cases process <;> exact trivial

theorem switches_roundTrip_iff_launched :
    World.Along 100000 (World.RoundTrips 100000) twoProcesses
      [.prepare true launched, .switch true] ↔
    World.Along 100000 World.OnlyPrepared twoProcesses
      [.prepare true launched, .switch true] :=
  switches_roundTrip_iff 100000 twoProcesses_sound
    ⟨Bool.noConfusion, ⟨Bool.noConfusion, switching_atSwitch, nofun, nofun⟩, trivial⟩

/-- Prepare a process, switch to it, and from its own switch back. -/
def thereAndBack : List (Event Bool) :=
  [.prepare true launched, .switch true, .work switching, .switch false]

theorem thereAndBack_allowed : World.Along 100000 World.Allows twoProcesses thereAndBack :=
  ⟨Bool.noConfusion, ⟨Bool.noConfusion, switching_atSwitch, nofun, nofun⟩, trivial,
    ⟨Bool.noConfusion, switching_atSwitch, nofun, nofun⟩, trivial⟩

theorem thereAndBack_not_resumed :
    World.Along 100000 World.Allows twoProcesses thereAndBack ∧
      ¬ World.Along 100000 (World.RoundTrips 100000) twoProcesses thereAndBack := by
  refine ⟨thereAndBack_allowed, fun resumed => ?_⟩
  obtain ⟨-, -, -, back, -⟩ := resumed
  rcases (show SamePoint _ _ ∨ SamePoint _ _ from back) with same | same
  · exact absurd same.regBP (by decide)
  · exact absurd same.regBP (by decide)

end Sample

end Egg.Process
