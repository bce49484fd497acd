import Egg.Evaluation.NativeSend

/-! Closures called back from foreign code: where `evaluateCallback_` stops, and in which state. -/
namespace Egg.Evaluation

variable {image : Image}

/-- A SmallInteger is tagged in its lowest bit. -/
def newInteger (value : Int) : Word := 2 * value + 1

def asNative (object : Word) : Int := object / 2

namespace Evaluator

variable (image)

/-- Push the arguments of a callback and make PC point past the closure's work list. -/
def prepareCallback (evaluator : Evaluator) (closure : Word) (args : List Int) : Evaluator :=
  let pushed := evaluator.context.pushAll (args.map newInteger)
  let work := image.executableCodeWork (evaluator.closures closure).block
  { evaluator with context := { pushed with regPC := work.length } }

/-- `evaluateCallback_` up to its loop: a frame of the closure's block above the arguments. -/
def enterCallback (evaluator : Evaluator) (closure : Word) (args : List Int) :
    Option Evaluator :=
  let prepared := evaluator.prepareCallback image closure args
  let block := (evaluator.closures closure).block
  let receiver :=
    if image.blockCapturesSelf block then (evaluator.closures closure).receiver else image.nilObj
  (buildClosureFrameFor image prepared.context receiver block closure).map fun context =>
    { evaluator with context := context, work := image.executableCodeWork block }

/-- `evaluateCallback_` behind its loop: PC as it was, the arguments dropped, R as the result. -/
def leaveCallback (evaluator : Evaluator) (prevPC : Int) (argc : Nat) : Evaluator × Int :=
  let context := { evaluator.context with regPC := prevPC }
  ({ evaluator with context := (context.popOperands argc).2 }, asNative evaluator.regR)

end Evaluator

/-- Work lists in which control only ever runs out behind a `^`. -/
structure Complete (image : Image) : Prop where
  entered : ∀ code, image.isLauncher code = false → 0 < (image.executableCodeWork code).length
  inside : ∀ code position (operation : Operation), image.isLauncher code = false →
    (image.executableCodeWork code)[position]? = some operation → operation ≠ .nonLocalReturn →
    ∀ next ∈ operation.successors position, next < (image.executableCodeWork code).length

/-- A state of the loop that `evaluateCallback_` runs. -/
structure Callback (image : Image) (caller : Evaluator) (closure : Word) (args : List Int)
    (entered : Evaluator) (machine : Machine) : Prop where
  isBlock : image.isBlock (caller.closures closure).block = true
  ordinary : image.isLauncher (caller.closures closure).block = false
  enters : caller.enterCallback image closure args = some entered
  run : Run image StaysAbove
    (Machine.above false (caller.prepareCallback image closure args) entered) machine

/-- The loop goes on in a state, unless that is behind a `^` that came back. -/
def GoesOn (machine : Machine) : Prop :=
  machine.control = .running → (∀ activation ∈ machine.activations, activation.launch = false) →
    machine.evaluator.nextOperation.1 = none →
    machine.evaluator.work[(machine.evaluator.context.regPC - 1).toNat]? =
      some .nonLocalReturn

/-- The callback stops where the closure's frame returns, with its caller as it was and the value
that the closure left in R. -/
structure StopsAtReturn (image : Image) (caller returning : Evaluator) (argc : Nat) : Prop where
  stops : (returning.visitOpReturn image).nextOperation.1 = none
  transparent : Transparent caller
    ((returning.visitOpReturn image).nextOperation.2.leaveCallback caller.context.regPC argc).1
  frame : ∀ index, caller.context.regSP ≤ index →
    ((returning.visitOpReturn image).nextOperation.2.leaveCallback
      caller.context.regPC argc).1.context.stack index = caller.context.stack index
  result : ((returning.visitOpReturn image).nextOperation.2.leaveCallback
    caller.context.regPC argc).2 = asNative returning.regR

/-- Positions that control reaches: inside the work list, or behind a `^`. -/
def Reached (image : Image) (code : Word) (position : Nat) : Prop :=
  position = 0 ∨ position < (image.executableCodeWork code).length ∨
    (0 < position ∧ (image.executableCodeWork code)[position - 1]? = some .nonLocalReturn)

instance (code : Word) (position : Nat) : Decidable (Reached image code position) :=
  inferInstanceAs (Decidable (_ ∨ _ ∨ _))

theorem Reached.of_found {code : Word} {position : Nat} {operation : Operation}
    (found : (image.executableCodeWork code)[position]? = some operation) :
    Reached image code position :=
  Or.inr (Or.inl (List.getElem?_eq_some_iff.mp found).1)

theorem Complete.reached (complete : Complete image) {code : Word} {position next : Nat}
    {operation : Operation} (ordinary : image.isLauncher code = false)
    (found : (image.executableCodeWork code)[position]? = some operation)
    (member : next ∈ operation.successors position) : Reached image code next := by
  by_cases escapes : operation = .nonLocalReturn
  · subst escapes
    obtain rfl : next = position + 1 := by simpa [Operation.successors] using member
    exact Or.inr (Or.inr ⟨Nat.succ_pos position, found⟩)
  · exact Or.inr (Or.inl (complete.inside code position operation ordinary found escapes next
      member))

/-- Operand depths that no frame has room for where control does not get to. -/
def WellFormed.deepen (wellFormed : WellFormed image) (complete : Complete image) (extra : Nat) :
    WellFormed image where
  depth code position :=
    wellFormed.depth code position + if Reached image code position then 0 else extra
  start code := by
    have first : Reached image code 0 := Or.inl rfl
    rw [if_pos first, wellFormed.start]
  operands code position operation ordinary found := by
    have enough := wellFormed.operands code position operation ordinary found
    omega
  flow code position operation ordinary found next member := by
    have shallower := wellFormed.flow code position operation ordinary found next member
    rw [if_pos (complete.reached ordinary found member), if_pos (Reached.of_found found)]
    exact shallower
  stores code position operation ordinary found index member := by
    obtain ⟨low, high⟩ := wellFormed.stores code position operation ordinary found index member
    exact ⟨low, by omega⟩
  primitives := wellFormed.primitives

theorem leaveCallback_context (evaluator : Evaluator) (prevPC : Int) (argc : Nat) :
    (evaluator.leaveCallback prevPC argc).1.context =
      { evaluator.context with regPC := prevPC, regSP := evaluator.context.regSP + argc } := by
  rw [Evaluator.leaveCallback, EvaluationContext.popOperands_spec]
  rfl

section Loop

variable {caller entered : Evaluator} {closure : Word} {args : List Int} {machine : Machine}

/-- Operations inside a frame are steps of the callback's loop. -/
theorem Callback.execute {operation : Operation} {fetched done : Evaluator}
    (callback : Callback image caller closure args entered machine)
    (fetches : machine.Fetches operation fetched)
    (executed : fetched.execute image operation = some done) :
    Callback image caller closure args entered (machine.stay .running done) :=
  ⟨callback.isBlock, callback.ordinary, callback.enters,
    @Run.step _ _ _ _ _ .stay callback.run trivial (.execute fetches executed)⟩

/-- The closure's frame is entered from the state that the arguments are pushed in. -/
theorem Callback.entersFrame (wellFormed : WellFormed image) {bottom : Activation → Prop}
    (callback : Callback image caller closure args entered machine) :
    Enters wellFormed bottom false (caller.prepareCallback image closure args) entered [] ∧
      entered.context.regM = (caller.closures closure).block := by
  have built := callback.enters
  simp only [Evaluator.enterCallback, Evaluator.buildClosureFrameFor,
    Option.map_eq_some_iff] at built
  obtain ⟨context, build, rfl⟩ := built
  have frame := EvaluationContext.buildFrameFor_spec build
  rw [show image.blockTempCount (caller.closures closure).block =
    image.temporaryCountOf (caller.closures closure).block by
      simp [Image.temporaryCountOf, callback.isBlock]] at frame
  constructor
  · exact Enters.of_built trivial (fun top rest none => by cases none) rfl rfl rfl
      (fun _ _ => rfl) frame callback.ordinary rfl
  · exact frame.regM

/-- Every state of the callback's loop keeps the frames above its caller's. -/
theorem Callback.holds (wellFormed : WellFormed image)
    (callback : Callback image caller closure args entered machine) :
    Holds wellFormed (Based ((Machine.native (caller.prepareCallback image closure args)
      ).newActivation false (caller.prepareCallback image closure args) entered)) machine ∧
      machine.activations ≠ [] := by
  obtain ⟨enters, block⟩ := callback.entersFrame wellFormed
  have first : Holds wellFormed (Based ((Machine.native
      (caller.prepareCallback image closure args)).newActivation false
      (caller.prepareCallback image closure args) entered)) (Machine.above false _ entered) :=
    enters.holds fun _ => rfl
  refine first.run (Based.ground (Or.inr ?_)) (by simp [Machine.above, Machine.activate])
    callback.run
  show image.isBlock entered.context.regM = true
  rw [block]
  exact callback.isBlock

/-- Control never runs out of a work list other than behind a `^`. -/
theorem Callback.goesOn (wellFormed : WellFormed image) (complete : Complete image)
    (callback : Callback image caller closure args entered machine) : GoesOn machine := by
  intro running ordinary exhausted
  obtain ⟨holds, busy⟩ := callback.holds (wellFormed.deepen complete 0)
  obtain ⟨top, outer, active⟩ := List.exists_cons_of_ne_nil busy
  have launch : top.launch = false := ordinary top (by simp [active])
  have sent := holds.current top outer active
  have counted := sent.position.counted
  have chain := holds.chain
  rw [active] at chain
  have kind := chain.head.kind
  rw [launch] at kind
  have reached : Reached image top.code machine.evaluator.context.regPC.toNat := by
    by_contra unreached
    -- However deep the frame, a depth that it has no room for would be reached.
    let extra := (top.floor image - machine.evaluator.context.regSP).toNat + 1
    have deep := (callback.holds (wellFormed.deepen complete extra)).1.current top outer active
    have room := deep.position.room
    have depth : (wellFormed.deepen complete extra).depthOf top
        machine.evaluator.context.regPC.toNat =
        wellFormed.depth top.code machine.evaluator.context.regPC.toNat + extra := by
      simp [WellFormed.depthOf, launch, WellFormed.deepen, unreached]
    rw [depth] at room
    omega
  have beyond : (image.executableCodeWork top.code).length ≤
      machine.evaluator.context.regPC.toNat := by
    have none := exhausted
    simp only [Evaluator.nextOperation, EvaluationContext.incRegPC_regPC,
      Int.add_sub_cancel, List.getElem?_eq_none_iff] at none
    rwa [sent.work] at none
  have filled := complete.entered top.code kind
  rw [sent.work]
  rcases reached with zero | inside | ⟨positive, escape⟩
  · omega
  · omega
  · rw [show (machine.evaluator.context.regPC - 1).toNat =
      machine.evaluator.context.regPC.toNat - 1 by omega]
    exact escape

/-- The caller's registers, its frame and R as the closure's return leaves them. -/
theorem Callback.returns (wellFormed : WellFormed image) {returning : Evaluator}
    (framed : Framed image caller) (inner : caller.context.regBP ≠ 0)
    (callback : Callback image caller closure args entered machine)
    (alone : machine.activations.tail = []) (fetches : machine.Fetches .return returning) :
    let left := returning.visitOpReturn image
    left.context.regS = caller.context.regS ∧ left.context.regM = caller.context.regM ∧
      left.context.regE = caller.context.stack (caller.context.regBP - 4) ∧
      left.context.regBP = caller.context.regBP ∧
      left.context.regSP = caller.context.regSP - args.length ∧
      left.context.regPC =
        (image.executableCodeWork (caller.closures closure).block).length ∧
      left.work = caller.work ∧ left.regR = returning.regR ∧
      ∀ index, caller.context.regSP ≤ index →
        left.context.stack index = caller.context.stack index := by
  obtain ⟨enters, block⟩ := callback.entersFrame wellFormed
  have ends := enters.alone (Or.inr (by rw [block]; exact callback.isBlock)) callback.run alone
  obtain ⟨-, rfl⟩ := Evaluator.nextOperation_some fetches.2
  obtain ⟨_, _, _, sameBP, _, moved, kept⟩ :=
    caller.context.pushAll_spec (args.map newInteger)
  rw [List.length_map] at moved
  have prepared : (caller.prepareCallback image closure args).context.regSP =
      caller.context.regSP - args.length := moved
  have senderSP := ends.senderSP
  have words : ∀ index, caller.context.regSP ≤ index →
      machine.evaluator.context.stack index = caller.context.stack index := by
    intro index above
    rw [ends.operands index (by omega)]
    exact kept index above
  have room := framed.room inner
  have savedBP : machine.evaluator.context.stack entered.context.regBP =
      caller.context.regBP := ends.savedBP.trans sameBP
  simp only [Evaluator.visitOpReturn, Evaluator.popFrameAndPrepare, EvaluationContext.popFrame,
    EvaluationContext.pop, EvaluationContext.incRegPC_stack, EvaluationContext.incRegPC_regBP,
    ends.regBP, savedBP]
  rw [words _ (by omega), words _ (by omega), words _ (by omega), framed.receiver inner,
    framed.code inner, ← framed.work inner, ends.savedPC]
  exact ⟨rfl, rfl, rfl, trivial, by omega, rfl, rfl, trivial, words⟩

end Loop

/-! A method that passes a closure to a foreign function, which calls it back. -/

/-- Code `11` and `12` create a closure of the blocks `20` and `21` and call the foreign function
`10`; block `21` has as many operations as the call has, block `20` has fewer. -/
def calling : Image where
  nilObj := 0
  trueObj := 1
  falseObj := 2
  isBlock code := code == 20 || code == 21
  isLauncher code := code == 1
  methodTempCount _ := 0
  blockTempCount _ := 0
  methodNeedsEnvironment _ := false
  blockCapturesSelf _ := false
  blockMethod _ := 11
  closureReturnMethod := 3
  executableCodeWork code :=
    if code = 1 then [.dispatchMessage 7 0]
    else if code = 11 then [.block 20, .dispatchMessage 8 0, .return]
    else if code = 12 then [.block 21, .dispatchMessage 8 0, .return]
    else if code = 20 then [.literal 9, .return]
    else if code = 21 then [.loadRwithNil, .loadRwithNil, .literal 9, .return]
    else [.primitive, .return, .loadRwithSelf, .return]

/-- What an operation of `calling` can be, and where it stands. -/
theorem calling_operation {code : Word} {position : Nat} {operation : Operation}
    (ordinary : calling.isLauncher code = false)
    (found : (calling.executableCodeWork code)[position]? = some operation) :
    operation.operands = 0 ∧ operation.stores = [] ∧ operation ≠ .nonLocalReturn ∧
      (operation = .primitive → calling.isBlock code = false) ∧
      ∀ next ∈ operation.successors position,
        next < (calling.executableCodeWork code).length := by
  have other : code ≠ 1 := by simpa [calling] using ordinary
  simp only [calling, if_neg other] at found ⊢
  split_ifs at found ⊢ with first second third fourth <;>
    rcases position with _ | _ | _ | _ | position <;>
    simp_all [Operation.operands, Operation.stores, Operation.successors] <;>
    subst found <;> simp

def calling_wellFormed : WellFormed calling where
  depth _ _ := 0
  start := answerSelf_wellFormed.start
  operands code position operation ordinary found := by
    exact Nat.le_of_eq (calling_operation ordinary found).1
  flow _ _ _ _ _ _ _ := Nat.zero_le _
  stores code position operation ordinary found index member := by
    rw [(calling_operation ordinary found).2.1] at member
    cases member
  primitives code position ordinary found :=
    (calling_operation ordinary found).2.2.2.1 rfl

theorem calling_complete : Complete calling where
  entered code ordinary := by
    simp only [calling]
    split_ifs <;> decide
  inside code position operation ordinary found _ next member :=
    (calling_operation ordinary found).2.2.2.2 next member

/-- A closure of block `20` is called back with `3` and about to return `9`. -/
theorem calling_shorter {caller entered answering returning : Evaluator}
    (block : (caller.closures 50).block = 20)
    (enters : caller.enterCallback calling 50 [3] = some entered)
    (answer : entered.nextOperation = (some (.literal 9), answering))
    (leave : Evaluator.nextOperation { answering with regR := 9 } = (some .return, returning))
    (back : (returning.visitOpReturn calling).nextOperation.1 = some .loadRwithSelf) :
    ∃ nested, Callback calling caller 50 [3] entered nested ∧ nested.activations.tail = [] ∧
      nested.Fetches .return returning ∧
      (returning.visitOpReturn calling).nextOperation.1 = some .loadRwithSelf := by
  have first : Callback calling caller 50 [3] entered _ :=
    ⟨by rw [block]; rfl, by rw [block]; rfl, enters, .refl _⟩
  exact ⟨_, first.execute ⟨rfl, answer⟩ rfl, rfl, ⟨rfl, leave⟩, back⟩

/-- A closure of block `21` is called back with `3` and about to return `9`. -/
theorem calling_longer {caller entered first second third returning : Evaluator}
    (block : (caller.closures 50).block = 21)
    (enters : caller.enterCallback calling 50 [3] = some entered)
    (load : entered.nextOperation = (some .loadRwithNil, first))
    (again : Evaluator.nextOperation { first with regR := 0 } = (some .loadRwithNil, second))
    (answer : Evaluator.nextOperation { second with regR := 0 } = (some (.literal 9), third))
    (leave : Evaluator.nextOperation { third with regR := 9 } = (some .return, returning)) :
    ∃ nested, Callback calling caller 50 [3] entered nested ∧ nested.activations.tail = [] ∧
      nested.Fetches .return returning := by
  have begins : Callback calling caller 50 [3] entered _ :=
    ⟨by rw [block]; rfl, by rw [block]; rfl, enters, .refl _⟩
  have loaded := (begins.execute ⟨rfl, load⟩ rfl).execute ⟨rfl, again⟩ rfl
  exact ⟨_, loaded.execute ⟨rfl, answer⟩ rfl, rfl, rfl, leave⟩

/-- What `calling` does up to the return of a closure that it is called back with. -/
def CallsBack (machine : Machine) (block : Word) : Prop :=
  Run calling HomesActive (Machine.start calling fun _ => 0) machine ∧
    machine.control = .native ∧ (machine.evaluator.closures 50).block = block ∧
    machine.evaluator.context.regBP ≠ 0 ∧ machine.evaluator.work.length = 4 ∧
    machine.evaluator.context.stack (machine.evaluator.context.regBP - 4) =
      machine.evaluator.context.regE

theorem calling_callsBack_longer : ∃ machine, CallsBack machine 21 ∧
    ∃ entered returning nested, Callback calling machine.evaluator 50 [3] entered nested ∧
      nested.activations.tail = [] ∧ nested.Fetches .return returning := by
  have sent : Run calling HomesActive (Machine.start calling fun _ => 0) _ :=
    @Run.step _ _ _ _ _ .enter (.refl _) trivial (.sendToWith 7 1 5 [] rfl rfl rfl rfl rfl rfl)
  have invoked : Run calling HomesActive (Machine.start calling fun _ => 0) _ :=
    @Run.step _ _ _ _ _ .enter sent trivial (.invoke 12 9 ⟨rfl, rfl⟩ rfl rfl rfl)
  have captured : Run calling HomesActive (Machine.start calling fun _ => 0) _ :=
    @Run.step _ _ _ _ _ .stay invoked trivial (.block 50 ⟨rfl, rfl⟩)
  have called : Run calling HomesActive (Machine.start calling fun _ => 0) _ :=
    @Run.step _ _ _ _ _ .enter captured trivial (.invoke 10 9 ⟨rfl, rfl⟩ rfl rfl rfl)
  have primitive : Run calling HomesActive (Machine.start calling fun _ => 0) _ :=
    @Run.step _ _ _ _ _ .stay called trivial (.primitive ⟨rfl, rfl⟩)
  exact ⟨_, ⟨primitive, rfl, rfl, by decide, rfl, by decide +kernel⟩, _, _,
    calling_longer rfl rfl rfl rfl rfl rfl⟩

theorem calling_callsBack_shorter : ∃ machine, CallsBack machine 20 ∧
    ∃ entered returning nested, Callback calling machine.evaluator 50 [3] entered nested ∧
      nested.activations.tail = [] ∧ nested.Fetches .return returning ∧
      (returning.visitOpReturn calling).nextOperation.1 = some .loadRwithSelf := by
  have sent : Run calling HomesActive (Machine.start calling fun _ => 0) _ :=
    @Run.step _ _ _ _ _ .enter (.refl _) trivial (.sendToWith 7 1 5 [] rfl rfl rfl rfl rfl rfl)
  have invoked : Run calling HomesActive (Machine.start calling fun _ => 0) _ :=
    @Run.step _ _ _ _ _ .enter sent trivial (.invoke 11 9 ⟨rfl, rfl⟩ rfl rfl rfl)
  have captured : Run calling HomesActive (Machine.start calling fun _ => 0) _ :=
    @Run.step _ _ _ _ _ .stay invoked trivial (.block 50 ⟨rfl, rfl⟩)
  have called : Run calling HomesActive (Machine.start calling fun _ => 0) _ :=
    @Run.step _ _ _ _ _ .enter captured trivial (.invoke 10 9 ⟨rfl, rfl⟩ rfl rfl rfl)
  have primitive : Run calling HomesActive (Machine.start calling fun _ => 0) _ :=
    @Run.step _ _ _ _ _ .stay called trivial (.primitive ⟨rfl, rfl⟩)
  exact ⟨_, ⟨primitive, rfl, rfl, by decide, rfl, by decide +kernel⟩, _, _,
    calling_shorter rfl rfl rfl rfl (by decide +kernel)⟩

/-- Every callback of a run stops where the closure's frame returns. -/
def CallbacksStop (image : Image) : Prop :=
  ∀ stack (machine nested : Machine) closure args entered returning,
    Run image HomesActive (Machine.start image stack) machine → machine.control = .native →
    machine.evaluator.context.regBP ≠ 0 →
    Callback image machine.evaluator closure args entered nested →
    nested.activations.tail = [] → nested.Fetches .return returning →
    StopsAtReturn image machine.evaluator returning args.length

end Egg.Evaluation
