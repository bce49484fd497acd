import Egg.Evaluation.StackRoom

/-! Which slots of the stack the pushes of a step write. -/
namespace Egg.Evaluation

variable {image : Image}

/-- The slots that pushes write, in order, from a stack pointer downwards. -/
def pushedSlots (sp : Int) : Nat → List Int
  | 0 => []
  | count + 1 => (sp - 1) :: pushedSlots (sp - 1) count

/-- The slots written for a frame and the operands above it: SP is compared with the margin
once the caller's PC and BP are pushed. -/
def frameSlots (sp : Int) (temps operands : Nat) : List Int :=
  if sp - 2 ≤ 100 then pushedSlots sp 2 else pushedSlots sp (6 + temps + operands)

theorem mem_pushedSlots {sp slot : Int} {count : Nat} :
    slot ∈ pushedSlots sp count ↔ sp - count ≤ slot ∧ slot < sp := by
  induction count generalizing sp with
  | zero =>
    simp only [pushedSlots, List.not_mem_nil, false_iff]
    omega
  | succ count ih =>
    rw [pushedSlots, List.mem_cons, ih]
    omega

/-- Every slot that pushing operands changes is one of them. -/
theorem EvaluationContext.pushAll_changes {context : EvaluationContext} {objects : List Word}
    {slot : Int} (changed : (context.pushAll objects).stack slot ≠ context.stack slot) :
    slot ∈ pushedSlots context.regSP objects.length := by
  induction objects generalizing context with
  | nil => exact absurd rfl changed
  | cons first rest ih =>
    rw [List.length_cons, pushedSlots, List.mem_cons]
    by_cases same : slot = context.regSP - 1
    · exact Or.inl same
    · have later : ((context.push first).pushAll rest).stack slot ≠
          (context.push first).stack slot := by
        rw [EvaluationContext.push_stack, if_neg same]
        exact changed
      exact Or.inr (ih later)

/-- Every slot that building a frame changes is one of the frame's. -/
theorem EvaluationContext.buildFrameFor_changes {context built : EvaluationContext}
    {nilObj receiver compiledCode environment : Word} {temps : Nat} {slot : Int}
    (success : context.buildFrameFor nilObj receiver compiledCode environment temps = some built)
    (changed : built.stack slot ≠ context.stack slot) :
    slot ∈ frameSlots context.regSP temps 0 := by
  have room := (buildFrameFor_spec success).room
  have frame := (buildFrameFor_spec success).regBP
  rw [frameSlots, if_neg (by omega), mem_pushedSlots]
  simp only [buildFrameFor] at success
  split at success
  · cases success
  · obtain rfl := Option.some.inj success
    have top : ((context.saveFrame receiver compiledCode).fillFrame environment).regSP =
        context.regSP - 6 := by
      simp only [fillFrame, saveFrame, push_regSP]
      omega
    by_cases header : ((context.saveFrame receiver compiledCode).fillFrame environment).stack slot =
        context.stack slot
    · rw [← header] at changed
      have temporary := mem_pushedSlots.mp (pushAll_changes changed)
      rw [top, List.length_replicate] at temporary
      omega
    · rw [saveFrame_fillFrame_stack] at header
      split_ifs at header <;> first | omega | exact absurd rfl header

/-- What a step pushes: operands, or operands and on top of them a frame for some code; native
code performs with any number of arguments. -/
inductive Pushing where
  | operands (sp : Int) (count : Nat)
  | frame (sp : Int) (count : Nat) (code : Word)
  | perform (sp : Int) (count : Nat) (code : Word)

/-- The slots a step writes when it pushes. -/
def Pushing.slots (image : Image) : Pushing → List Int
  | operands sp count => pushedSlots sp count
  | frame sp count code | perform sp count code =>
    pushedSlots sp count ++
      frameSlots (sp - count) (image.temporaryCountOf code) (image.launchedOperands code)

/-- What the steps from a state may push, also where the check then reports an overflow. -/
inductive Pushes (image : Image) (machine : Machine) : Pushing → Prop where
  | pushR {fetched} : machine.Fetches .pushR fetched →
      Pushes image machine (.operands fetched.context.regSP 1)
  | invoke {selector argumentCount fetched} (method : Word) :
      machine.Fetches (.dispatchMessage selector argumentCount) fetched →
      image.isBlock method = false → image.isLauncher method = false →
      Pushes image machine (.frame fetched.context.regSP 0 method)
  | messageNotUnderstood {selector argumentCount fetched} (dnu : Word) :
      machine.Fetches (.dispatchMessage selector argumentCount) fetched →
      image.isBlock dnu = false → image.isLauncher dnu = false →
      Pushes image machine (.frame fetched.context.regSP 2 dnu)
  | nonLocalReturn {fetched} : machine.Fetches .nonLocalReturn fetched →
      image.isBlock image.closureReturnMethod = false →
      image.isLauncher image.closureReturnMethod = false →
      Pushes image machine (.frame fetched.context.regSP 1 image.closureReturnMethod)
  | evaluateClosure (closure : Word) :
      machine.control = .native → machine.activations ≠ [] →
      image.isBlock (machine.evaluator.closures closure).block = true →
      image.isLauncher (machine.evaluator.closures closure).block = false →
      Pushes image machine (.frame machine.evaluator.context.popFrame.regSP 0
        (machine.evaluator.closures closure).block)
  | perform (method : Word) (arguments : List Word) :
      machine.control = .native → machine.activations ≠ [] →
      image.isBlock method = false → image.isLauncher method = false →
      Pushes image machine (.perform machine.evaluator.context.regSP arguments.length method)
  | sendToWith (symbol launcher : Word) (argumentCount : Nat) :
      machine.control = .native → image.isLauncher launcher = true →
      image.isBlock launcher = false → image.methodTempCount launcher = 0 →
      image.executableCodeWork launcher = [.dispatchMessage symbol argumentCount] →
      Pushes image machine (.frame machine.evaluator.context.regSP 0 launcher)

/-- A frame that passes the check leaves room for its own words; the arguments that native code
performs with leave room for the words pushed before the check. -/
def Pushing.Fits (image : Image) : Pushing → Prop
  | operands _ _ => True
  | frame sp count code => sp - count - 2 ≤ 100 ∨
      count + 6 + image.temporaryCountOf code + image.launchedOperands code < sp
  | perform sp count code => count + 2 < sp ∧ (sp - count - 2 ≤ 100 ∨
      count + 6 + image.temporaryCountOf code + image.launchedOperands code < sp)

/-- Every slot written is one of the stack's. -/
def Inside (slots : List Int) : Prop :=
  ∀ slot ∈ slots, 1 ≤ slot ∧ slot ≤ EvaluationContext.stackSize

theorem inside_pushedSlots {sp : Int} {count : Nat} (below : sp ≤ EvaluationContext.stackSize + 1) :
    Inside (pushedSlots sp count) ↔ count = 0 ∨ count < sp := by
  constructor
  · intro inside
    rcases Nat.eq_zero_or_pos count with none | some
    · exact Or.inl none
    · have lowest := (inside (sp - count) (mem_pushedSlots.mpr (by omega))).1
      exact Or.inr (by omega)
  · intro room slot member
    have between := mem_pushedSlots.mp member
    omega

theorem inside_append {first rest : List Int} :
    Inside (first ++ rest) ↔ Inside first ∧ Inside rest :=
  List.forall_mem_append

/-- A frame's words are inside when the two before the check are, and the others where the
check lets them through. -/
theorem inside_frame {sp : Int} {count temps operands : Nat}
    (below : sp ≤ EvaluationContext.stackSize + 1) :
    Inside (pushedSlots sp count ++ frameSlots (sp - count) temps operands) ↔
      count + 2 < sp ∧ (sp - count - 2 ≤ 100 ∨ count + 6 + temps + operands < sp) := by
  rw [inside_append, inside_pushedSlots below, frameSlots]
  split
  · rw [inside_pushedSlots (by omega)]
    omega
  · rw [inside_pushedSlots (by omega)]
    omega

section Bounds

variable {wellFormed : WellFormed image} {needs : Needs image}

/-- No stack pointer of a run lies above the host's. -/
theorem Stock.sp_le {machine : Machine} (stock : Stock needs machine)
    (valid : Valid wellFormed machine) :
    machine.evaluator.context.regSP ≤ EvaluationContext.stackSize + 1 := by
  cases active : machine.activations with
  | nil => exact Int.le_of_eq (stock.idle active)
  | cons top outer =>
    have room := (valid.current top outer active).position.room
    have senders := stock.senders
    have chain := valid.holds.chain
    rw [active] at senders chain
    have host := senders.bp_le chain
    simp only [Activation.floor] at room
    omega

/-- In a state with room, a step pushes inside the stack exactly when the frame it builds is
refused or fits. -/
theorem Stock.inside_iff {machine : Machine} {pushing : Pushing} (stock : Stock needs machine)
    (valid : Valid wellFormed machine) (pushes : Pushes image machine pushing) :
    Inside (pushing.slots image) ↔ pushing.Fits image := by
  have below := stock.sp_le valid
  cases pushes with
  | pushR fetches =>
    obtain ⟨top, outer, active, sent, _, found, rfl⟩ :=
      valid.holds.fetched (valid.busy fetches.1) fetches
    have room := stock.current top outer active
    have flow := needs.flow _ room.bounded _ _ found _ (List.mem_singleton.mpr rfl)
    have words := room.words
    simp only [Operation.pushed, Operation.dropped] at flow
    have space : (1 : Int) < machine.evaluator.context.regSP := by omega
    simp only [Pushing.slots, Pushing.Fits, iff_true, EvaluationContext.incRegPC_regSP]
    exact (inside_pushedSlots below).mpr (Or.inr space)
  | invoke method fetches isMethod ordinary =>
    obtain ⟨top, outer, active, sent, _, found, rfl⟩ :=
      valid.holds.fetched (valid.busy fetches.1) fetches
    have room := stock.current top outer active
    have needed := needs.sends _ room.bounded _ _ _ found
    have words := room.words
    rw [Pushing.slots, Pushing.Fits]
    simp only [EvaluationContext.incRegPC_regSP]
    rw [inside_frame below]
    omega
  | messageNotUnderstood dnu fetches isMethod ordinary =>
    obtain ⟨top, outer, active, sent, _, found, rfl⟩ :=
      valid.holds.fetched (valid.busy fetches.1) fetches
    have room := stock.current top outer active
    have needed := needs.sends _ room.bounded _ _ _ found
    have words := room.words
    rw [Pushing.slots, Pushing.Fits]
    simp only [EvaluationContext.incRegPC_regSP]
    rw [inside_frame below]
    omega
  | nonLocalReturn fetches isMethod ordinary =>
    obtain ⟨top, outer, active, sent, _, found, rfl⟩ :=
      valid.holds.fetched (valid.busy fetches.1) fetches
    have room := stock.current top outer active
    have needed := needs.returns _ room.bounded _ found
    have words := room.words
    rw [Pushing.slots, Pushing.Fits]
    simp only [EvaluationContext.incRegPC_regSP]
    rw [inside_frame below]
    omega
  | evaluateClosure closure native busy isBlock ordinary =>
    obtain ⟨top, outer, active, sent, chain⟩ := valid.holds.native native busy
    have senders := stock.senders
    rw [active] at senders
    have host := senders.bp_le chain
    have positive := chain.head.positive
    have frame := sent.regBP
    have left : machine.evaluator.context.popFrame.regSP = top.bp + 2 := by
      simp only [EvaluationContext.popFrame, EvaluationContext.pop, frame]
      omega
    rw [Pushing.slots, Pushing.Fits, left, inside_frame (by omega)]
    omega
  | perform method arguments native busy isMethod ordinary =>
    rw [Pushing.slots, Pushing.Fits]
    exact inside_frame below
  | sendToWith symbol launcher argumentCount native isLauncher isMethod temps code =>
    have space : 2 < machine.evaluator.context.regSP := by
      cases active : machine.activations with
      | nil =>
        have whole := stock.idle active
        simp only [EvaluationContext.stackSize] at whole
        omega
      | cons top outer => exact ((stock.current top outer active).native native).1
    rw [Pushing.slots, Pushing.Fits, inside_frame below]
    omega

end Bounds

/-- The code of `answerSelf` pushes nothing but the words of its only send. -/
def answerSelf_needs : Needs answerSelf where
  bounded _ := True
  words _ _ := 4
  flow code _ position operation found next _ := by
    have plain : operation.pushed = 0 := by
      have member := List.mem_of_getElem? found
      simp only [answerSelf] at member
      split at member
      · obtain rfl := List.mem_singleton.mp member
        rfl
      · rcases List.mem_cons.mp member with rfl | last
        · rfl
        · obtain rfl := List.mem_singleton.mp last
          rfl
    omega
  sends _ _ _ _ _ _ := Nat.le_refl 4
  returns _ _ _ _ := by decide
  primitives _ _ _ _ := by decide

/-- Every push of every run is inside the stack. -/
def PushesInside (image : Image) : Prop :=
  ∀ stack machine pushing, Run image HomesActive (Machine.start image stack) machine →
    Pushes image machine pushing → Inside (pushing.slots image)

/-! A method with 252 temporaries that sends itself without end. -/

/-- Code `1` launches the send; every other code object sends itself again. -/
def endless : Image where
  nilObj := 0
  trueObj := 1
  falseObj := 2
  isBlock _ := false
  isLauncher code := code == 1
  methodTempCount code := if code = 1 then 0 else 252
  blockTempCount _ := 0
  methodNeedsEnvironment _ := false
  blockCapturesSelf _ := false
  blockMethod code := code
  closureReturnMethod := 3
  executableCodeWork code :=
    if code = 1 then [.dispatchMessage 7 0] else [.loadRwithSelf, .dispatchMessage 7 0, .return]

theorem EvaluationContext.exists_buildFrameFor {context : EvaluationContext}
    (space : 102 < context.regSP) (nilObj receiver compiledCode environment : Word) (temps : Nat) :
    ∃ built, context.buildFrameFor nilObj receiver compiledCode environment temps = some built := by
  have passes : ¬ (context.saveFrame receiver compiledCode).regBP ≤ 100 := by
    simp only [saveFrame, push_regSP]
    omega
  exact ⟨_, if_neg passes⟩

/-- Each further call takes 258 words, as long as the check lets it through. -/
theorem endless_invoke {evaluator : Evaluator} (space : 102 < evaluator.context.regSP)
    (receiver : Word) : ∃ entered, evaluator.invokeWith endless 10 receiver 0 = some entered ∧
      entered.work = endless.executableCodeWork 10 ∧ entered.context.regPC = 0 ∧
      entered.context.regSP = evaluator.context.regSP - 258 := by
  obtain ⟨built, success⟩ := EvaluationContext.exists_buildFrameFor space 0 receiver 10 0 252
  have frame := EvaluationContext.buildFrameFor_spec success
  refine ⟨{ evaluator with context := built, work := endless.executableCodeWork 10 }, ?_, rfl,
    frame.regPC, ?_⟩
  · exact congrArg (Option.map _) success
  · have moved := frame.regSP
    simp only
    omega

/-- The method is about to start over, with this stack pointer. -/
structure EndlessAt (sp : Int) (machine : Machine) : Prop where
  run : Run endless HomesActive (Machine.start endless fun _ => 0) machine
  control : machine.control = .running
  work : machine.evaluator.work = endless.executableCodeWork 10
  regPC : machine.evaluator.context.regPC = 0
  regSP : machine.evaluator.context.regSP = sp

theorem EndlessAt.of_fetches {machine : Machine} {fetched : Evaluator}
    (run : Run endless HomesActive (Machine.start endless fun _ => 0) machine)
    (fetches : machine.Fetches (.dispatchMessage 7 0) fetched)
    (space : 102 < fetched.context.regSP) :
    ∃ next, EndlessAt (fetched.context.regSP - 258) next := by
  obtain ⟨entered, invoked, work, regPC, regSP⟩ := endless_invoke space fetched.regR
  have step := Step.invoke 10 0 fetches rfl rfl invoked
  exact ⟨_, @Run.step _ _ _ _ _ .enter run trivial step, rfl, work, regPC, regSP⟩

/-- The method reaches its send with the stack it started with. -/
theorem EndlessAt.sends {sp : Int} {machine : Machine} (state : EndlessAt sp machine) :
    ∃ sending fetched, Run endless HomesActive (Machine.start endless fun _ => 0) sending ∧
      sending.Fetches (.dispatchMessage 7 0) fetched ∧ fetched.context.regSP = sp := by
  let fetched := { machine.evaluator with context := machine.evaluator.context.incRegPC }
  let loaded := { fetched with regR := fetched.context.regS }
  have loads : machine.Fetches .loadRwithSelf fetched := by
    refine ⟨state.control, ?_⟩
    simp [Evaluator.nextOperation, state.work, state.regPC, endless, fetched]
  refine ⟨machine.stay .running loaded, { loaded with context := loaded.context.incRegPC },
    @Run.step _ _ _ _ _ .stay state.run trivial (.execute loads rfl), ⟨rfl, ?_⟩, state.regSP⟩
  simp [Machine.stay, Evaluator.nextOperation, state.work, state.regPC, endless, loaded, fetched]

theorem endless_run (calls : Nat) (few : calls ≤ 252) :
    ∃ machine, EndlessAt (65273 - 258 * calls) machine := by
  induction calls with
  | zero =>
    have sent : Run endless HomesActive (Machine.start endless fun _ => 0) _ :=
      @Run.step _ _ _ _ _ .enter (.refl _) trivial (.sendToWith 7 1 5 [] rfl rfl rfl rfl rfl rfl)
    exact EndlessAt.of_fetches sent ⟨rfl, rfl⟩ (by decide)
  | succ calls ih =>
    obtain ⟨machine, state⟩ := ih (by omega)
    obtain ⟨sending, fetched, run, fetches, sp⟩ := state.sends
    have called := EndlessAt.of_fetches run fetches (by omega)
    rwa [show fetched.context.regSP - 258 = 65273 - 258 * ((calls + 1 : Nat) : Int) by omega]
      at called

def endless_wellFormed : WellFormed endless where
  depth _ _ := 0
  start := answerSelf_wellFormed.start
  operands code position operation ordinary found := by
    have other : code ≠ 1 := by simpa [endless] using ordinary
    simp only [endless, other, if_false] at found
    match position, found with
    | 0, found => simp at found; simp [← found, Operation.operands]
    | 1, found => simp at found; simp [← found, Operation.operands]
    | 2, found => simp at found; simp [← found, Operation.operands]
  flow _ _ _ _ _ _ _ := Nat.zero_le _
  stores code position operation ordinary found := by
    have other : code ≠ 1 := by simpa [endless] using ordinary
    simp only [endless, other, if_false] at found
    match position, found with
    | 0, found => simp at found; simp [← found, Operation.stores]
    | 1, found => simp at found; simp [← found, Operation.stores]
    | 2, found => simp at found; simp [← found, Operation.stores]
  primitives _ _ _ _ := rfl

end Egg.Evaluation
