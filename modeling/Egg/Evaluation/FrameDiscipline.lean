import Egg.Evaluation.FrameSteps

/-! Returning restores the sender, at any nesting of method, block and launch frames. -/
namespace Egg.Evaluation

variable {image : Image} {wellFormed : WellFormed image} {bottom : Activation → Prop}

/-- The registers, the work list and the operands that a sender gets back. -/
structure RestoresSender (sender after : Evaluator) : Prop where
  regS : after.context.regS = sender.context.regS
  regM : after.context.regM = sender.context.regM
  regBP : after.context.regBP = sender.context.regBP
  regPC : after.context.regPC = sender.context.regPC
  regSP : after.context.regSP = sender.context.regSP
  work : after.work = sender.work
  operands : ∀ index, sender.context.regSP ≤ index →
    after.context.stack index = sender.context.stack index

/-- Leaving the frame of any activation that is not a launch restores its sender. -/
theorem Evaluator.popFrameAndPrepare_restores (evaluator : Evaluator) {top sender : Activation}
    {outer : List Activation}
    (chain : Chained wellFormed bottom evaluator.context.stack (top :: sender :: outer)) :
    let after := popFrameAndPrepare image
      { evaluator with context := { evaluator.context with regBP := top.bp } }
    RestoresSender top.sender after ∧ after.context.regE = sender.environment ∧
      after.context.stack = evaluator.context.stack := by
  obtain ⟨regS, regM, regE, regBP, regPC, regSP, stack⟩ := chain.popFrame
  have held := chain.head
  refine ⟨⟨regS, regM, regBP, regPC, regSP, ?_, fun index above => ?_⟩, regE, stack⟩
  · simp only [popFrameAndPrepare]
    rw [regM, chain.2.1.regM, chain.2.1.work]
  · have senderSP := held.senderSP
    simp only [popFrameAndPrepare, stack]
    exact held.operands index (by omega)

/-- A resumed sender goes on from its last send. -/
theorem Holds.of_restores {machine : Machine} {after : Evaluator} {top sender : Activation}
    {outer : List Activation} {stack : Int → Word}
    (ground : Ground image bottom)
    (chain : Chained wellFormed bottom stack (top :: sender :: outer))
    (restores : RestoresSender top.sender after)
    (environment : after.context.regE = sender.environment)
    (kept : after.context.stack = stack) :
    Holds wellFormed bottom (machine.resume .running false after (sender :: outer)) where
  chain := by
    simp only [Machine.resume, kept]
    exact chain.tail.reenter ground false
  current := by
    intro top' outer' same
    simp only [Machine.resume, List.cons.injEq] at same
    obtain ⟨rfl, rfl⟩ := same
    have sent := chain.2.1
    have position := sent.position.running
    refine ⟨restores.regBP.trans sent.regBP, restores.regS.trans sent.regS,
      restores.regM.trans sent.regM, restores.work.trans sent.work, fun _ => environment, ?_⟩
    simp only [Machine.resume, restores.regSP, restores.regPC]
    exact ⟨position.counted, position.room, position.failing⟩

/-- `_returnTo:` ends where an ordinary return from the home frame would. -/
theorem Evaluator.returnTo_eq (evaluator : Evaluator) :
    let home := evaluator.context.operandAt 0
    evaluator.evaluateUndermessageWith 1 (·.underprimitiveReturnTo image) =
      popFrameAndPrepare image
        { evaluator with context := { evaluator.context with regBP := home } } := by
  simp only [evaluateUndermessageWith, EvaluationContext.popOperands, EvaluationContext.pop,
    underprimitiveReturnTo, popFrameAndPrepare, EvaluationContext.popFrame,
    EvaluationContext.reserveStackSlots, EvaluationContext.operandAt, List.nil_append,
    List.headD_cons, Int.add_zero]
  congr 2
  omega

/-- Every `_returnTo:` names the frame of an activation that has not ended. -/
def HomesActive (machine : Machine) : Action → Prop
  | .returnTo home => belowHome home machine.activations ≠ []
  | _ => True

/-- A step that leaves the outermost activation active. -/
def StaysAbove (machine : Machine) : Action → Prop
  | .returnTo home => belowHome home machine.activations ≠ []
  | .return | .endSend => machine.activations.tail ≠ []
  | _ => True

/-- The loop runs inside some activation, at an operation its code provides for. -/
theorem Holds.fetched {machine : Machine} (holds : Holds wellFormed bottom machine)
    (busy : machine.activations ≠ []) {operation : Operation} {fetched : Evaluator}
    (fetches : machine.Fetches operation fetched) :
    ∃ top outer, machine.activations = top :: outer ∧
      SentFrom wellFormed machine.evaluator .running top ∧
      Chained wellFormed bottom machine.evaluator.context.stack (top :: outer) ∧
      (image.executableCodeWork top.code)[machine.evaluator.context.regPC.toNat]? =
        some operation ∧
      fetched = { machine.evaluator with
        context := machine.evaluator.context.incRegPC } := by
  obtain ⟨running, fetch⟩ := fetches
  obtain ⟨found, moved⟩ := Evaluator.nextOperation_some fetch
  obtain ⟨top, outer, active⟩ := List.exists_cons_of_ne_nil busy
  have sent := holds.current top outer active
  have chain := holds.chain
  rw [running] at sent
  rw [active] at chain
  rw [sent.work] at found
  exact ⟨top, outer, active, sent, chain, found, moved⟩

/-- The loop never runs without an activation. -/
theorem Valid.busy {machine : Machine} (valid : Valid wellFormed machine)
    (running : machine.control = .running) : machine.activations ≠ [] := by
  intro none
  have native := (valid.idle none).1
  rw [running] at native
  cases native

/-- After a fetch that falls through, the activation waits at its next operation. -/
theorem SentFrom.advance {evaluator : Evaluator} {activation : Activation}
    {operation : Operation}
    (sent : SentFrom wellFormed evaluator .running activation)
    (progress : Progress wellFormed activation operation evaluator.context.regPC.toNat)
    (falls : ∀ position, position + 1 ∈ operation.successors position)
    (neutral : ∀ depth, operation.depthAfter depth = depth) :
    SentFrom wellFormed { evaluator with context := evaluator.context.incRegPC }
      .running activation where
  regBP := sent.regBP
  regS := sent.regS
  regM := sent.regM
  work := sent.work
  regE := sent.regE
  position := sent.position.advanceNext progress (falls _) (by rw [neutral]; exact Int.le_refl _)

/-- Operands pushed for a callee leave the activation where it was. -/
theorem SentFrom.pushAll {evaluator : Evaluator} {activation : Activation} {control : Control}
    (sent : SentFrom wellFormed evaluator control activation) (objects : List Word) :
    SentFrom wellFormed { evaluator with context := evaluator.context.pushAll objects }
      control activation := by
  obtain ⟨regS, regM, regE, regBP, regPC, regSP, _⟩ := evaluator.context.pushAll_spec objects
  refine ⟨regBP.trans sent.regBP, regS.trans sent.regS, regM.trans sent.regM, sent.work,
    fun fresh => regE.trans (sent.regE fresh), ?_⟩
  simp only [regPC, regSP]
  exact sent.position.lower (by omega)

theorem Chained.pushAll {context : EvaluationContext} {top : Activation}
    {outer : List Activation} {evaluator : Evaluator} {control : Control}
    (chain : Chained wellFormed bottom context.stack (top :: outer)) (objects : List Word)
    (sent : SentFrom wellFormed evaluator control top) (same : evaluator.context = context) :
    Chained wellFormed bottom (context.pushAll objects).stack (top :: outer) := by
  obtain ⟨_, _, _, _, _, _, kept⟩ := context.pushAll_spec objects
  have room := sent.position.room
  simp only [Activation.floor, same] at room
  exact chain.congr fun index above => kept index (by omega)

/-- Activating a method enters a new frame above the operands pushed for it. -/
theorem Evaluator.invokeWith_enters {sender entered : Evaluator} {method receiver fresh : Word}
    {top : Activation} {outer : List Activation}
    (chain : Chained wellFormed bottom sender.context.stack (top :: outer))
    (sent : SentFrom wellFormed sender .running top)
    (isMethod : image.isBlock method = false) (ordinary : image.isLauncher method = false)
    (invoked : sender.invokeWith image method receiver fresh = some entered) :
    Enters wellFormed bottom false sender entered (top :: outer) := by
  simp only [invokeWith, buildMethodFrameFor, Option.map_eq_some_iff] at invoked
  obtain ⟨context, build, rfl⟩ := invoked
  have built := EvaluationContext.buildFrameFor_spec build
  rw [show image.methodTempCount method = image.temporaryCountOf method by
    simp [Image.temporaryCountOf, isMethod]] at built
  exact Enters.of_frameBuilt chain sent rfl rfl rfl (fun _ _ => rfl) built ordinary rfl

/-- A send from native code enters a launch frame that holds its operands. -/
theorem Evaluator.sendToWith_enters {sender entered : Evaluator} {symbol launcher receiver : Word}
    {arguments : List Word} {activations : List Activation}
    (chain : Chained wellFormed bottom sender.context.stack activations)
    (sent : ∀ top outer, activations = top :: outer → SentFrom wellFormed sender .native top)
    (isLauncher : image.isLauncher launcher = true) (isMethod : image.isBlock launcher = false)
    (temps : image.methodTempCount launcher = 0)
    (code : image.executableCodeWork launcher = [.dispatchMessage symbol arguments.length])
    (launched : sender.sendToWith image launcher receiver arguments = some entered) :
    Enters wellFormed bottom true sender entered activations := by
  simp only [sendToWith, buildLaunchFrame, buildMethodFrameFor, Option.map_eq_some_iff] at launched
  obtain ⟨context, build, rfl⟩ := launched
  have built := EvaluationContext.buildFrameFor_spec build
  rw [temps] at built
  have count : image.temporaryCountOf launcher = 0 := by
    simp [Image.temporaryCountOf, isMethod, temps]
  generalize listed : (if arguments.isEmpty then [] else receiver :: arguments) = operands
  have enough : arguments.length ≤ operands.length := by
    rw [← listed]
    split
    · next none => simp [List.isEmpty_iff.mp none]
    · simp
  obtain ⟨regS, regM, regE, regBP, regPC, regSP, kept⟩ := context.pushAll_spec operands
  have frame := built.regBP
  have moved := built.regSP
  have word : ∀ index, sender.context.regSP - 6 ≤ index →
      (context.pushAll operands).stack index = context.stack index :=
    fun index above => kept index (by omega)
  exact {
    chain := by
      cases activations with
      | nil => trivial
      | cons top outer =>
        have room := (sent top outer rfl).position.room
        simp only [Activation.floor] at room
        refine chain.congr fun index above => ?_
        rw [← built.kept index (by omega)]
        exact word index (by omega)
    sent := fun top outer same => by simpa using sent top outer same
    savedBP := by simp only [regBP]; rw [word _ (by omega), built.savedBP]
    savedPC := by simp only [regBP]; rw [word _ (by omega), built.savedPC]
    receiver := by simp only [regBP, regS]; rw [word _ (by omega), built.receiver, built.regS]
    code := by simp only [regBP, regM]; rw [word _ (by omega), built.code, built.regM]
    environment := by
      simp only [regBP, regE]
      rw [word _ (by omega), built.environment, built.regE]
    senderSP := by simp only [regBP]; omega
    positive := by have room := built.room; simp only [regBP]; omega
    operands := by
      intro index above
      simp only [regBP] at above ⊢
      rw [word _ (by omega), built.kept _ (by omega)]
    regPC := rfl
    work := by simp only [regM, built.regM]
    kind := by simp only [regM, built.regM, isLauncher]
    launched := by
      intro _
      refine ⟨symbol, arguments.length, ?_, ?_, ?_⟩
      · simp only [regM, built.regM, code]
      · simp only [regM, built.regM, isMethod]
      · simp only [regM, built.regM, regSP, regBP, count]
        omega
    room := by
      simp only [regM, built.regM, regSP, regBP, count]
      omega }

/-- When a send from native code ends, the primitive that made it has control again. -/
theorem Holds.endSend {machine : Machine} {launcher sender : Activation}
    {outer : List Activation} {fetched : Evaluator} (ground : Ground image bottom)
    (holds : Holds wellFormed bottom machine) (running : machine.control = .running)
    (exhausted : machine.evaluator.nextOperation = (none, fetched))
    (active : machine.activations = launcher :: sender :: outer)
    (launch : launcher.launch = true) :
    Holds wellFormed bottom
      (machine.resume .native true (fetched.endSend image launcher.environment)
        (sender :: outer)) := by
  have sent := holds.current launcher (sender :: outer) active
  have chain := holds.chain
  rw [running] at sent
  rw [active] at chain
  simp only [Evaluator.nextOperation, Prod.mk.injEq] at exhausted
  obtain ⟨-, rfl⟩ := exhausted
  have held := chain.head
  have bp := sent.regBP
  have below := chain.2.1
  have outerHeld := chain.tail.head
  have nonzero : sender.bp ≠ 0 := by have positive := outerHeld.positive; omega
  have position := below.position
  rw [Activation.sentBy, if_pos launch] at position
  have method := (position.failing rfl).2.1
  refine ⟨?_, fun top' outer' same => ?_⟩
  · simp only [Machine.resume, Evaluator.endSend, EvaluationContext.popLaunchFrame_stack]
    exact chain.tail.reenter ground true
  · simp only [Machine.resume, List.cons.injEq] at same
    obtain ⟨rfl, rfl⟩ := same
    have inner : machine.evaluator.context.incRegPC.stack
        machine.evaluator.context.incRegPC.regBP = sender.bp := by
      rw [EvaluationContext.incRegPC_stack, EvaluationContext.incRegPC_regBP, bp, held.savedBP,
        below.regBP]
    simp only [Machine.resume, Evaluator.endSend]
    rw [EvaluationContext.popLaunchFrame_inner _ _ (by rw [inner]; exact nonzero), inner]
    simp only [EvaluationContext.incRegPC_stack, EvaluationContext.incRegPC_regBP, bp,
      held.savedPC, outerHeld.code, outerHeld.receiver, ← held.senderSP]
    refine ⟨rfl, rfl, rfl, by simp [Evaluator.method, method], (fun fresh => by cases fresh), ?_⟩
    exact ⟨position.counted, position.room, position.failing⟩

/-- The host has control again when the send it made ends. -/
theorem Valid.endSend_hosted {machine : Machine} {launcher : Activation} {fetched : Evaluator}
    (valid : Valid wellFormed machine) (running : machine.control = .running)
    (exhausted : machine.evaluator.nextOperation = (none, fetched))
    (active : machine.activations = [launcher]) :
    Valid wellFormed
      (machine.resume .native true (fetched.endSend image launcher.environment) []) := by
  have sent := valid.current launcher [] active
  have chain := valid.chain
  rw [running] at sent
  rw [active] at chain
  simp only [Evaluator.nextOperation, Prod.mk.injEq] at exhausted
  obtain ⟨-, rfl⟩ := exhausted
  have zero := chain.2.2
  refine ⟨trivial, fun _ => ⟨rfl, ?_⟩, fun top' outer' same => by cases same⟩
  simp [Machine.resume, Evaluator.endSend, EvaluationContext.popLaunchFrame,
    EvaluationContext.pop, sent.regBP, chain.1.savedBP, zero]

/-- Only sends are fetched in a launch frame. -/
theorem FrameHeld.ordinary {stack : Int → Word} {activation : Activation} {position : Nat}
    {operation : Operation} (held : FrameHeld image stack activation)
    (found : (image.executableCodeWork activation.code)[position]? = some operation)
    (other : ∀ selector argumentCount, operation ≠ .dispatchMessage selector argumentCount) :
    activation.launch = false := by
  cases launch : activation.launch with
  | false => rfl
  | true =>
    obtain ⟨selector, argumentCount, code, _⟩ := held.launched launch
    rw [code, List.getElem?_eq_some_iff] at found
    obtain ⟨inside, same⟩ := found
    obtain rfl : position = 0 := by simpa using inside
    exact absurd (by simpa using same.symm) (other selector argumentCount)

/-- A primitive runs in a frame that was entered from another activation of the chain. -/
theorem Chained.sender {stack : Int → Word} {top : Activation} {outer : List Activation}
    {evaluator : Evaluator} (ground : Ground image bottom)
    (chain : Chained wellFormed bottom stack (top :: outer))
    (sent : SentFrom wellFormed evaluator .native top) : ∃ sender rest, outer = sender :: rest := by
  cases outer with
  | nil =>
    obtain ⟨ordinary, method, _⟩ := sent.position.failing rfl
    rcases ground.loops top chain.2 with launch | block
    · rw [ordinary] at launch; cases launch
    · rw [method] at block; cases block
  | cons sender rest => exact ⟨sender, rest, rfl⟩

/-- The top activation's return operation restores its sender. -/
theorem Holds.return_restores {machine : Machine} {fetched : Evaluator}
    (holds : Holds wellFormed bottom machine) (inner : machine.activations.tail ≠ [])
    (fetches : machine.Fetches .return fetched) :
    ∃ top sender outer, machine.activations = top :: sender :: outer ∧ top.launch = false ∧
      Chained wellFormed bottom machine.evaluator.context.stack (top :: sender :: outer) ∧
      RestoresSender top.sender (fetched.visitOpReturn image) ∧
      (fetched.visitOpReturn image).context.regE = sender.environment ∧
      (fetched.visitOpReturn image).context.stack = machine.evaluator.context.stack := by
  have busy : machine.activations ≠ [] := fun none => inner (by rw [none]; rfl)
  obtain ⟨top, outer, active, sent, chain, found, rfl⟩ := holds.fetched busy fetches
  have ordinary := chain.head.ordinary found (by simp)
  rw [active, List.tail_cons] at inner
  obtain ⟨sender, rest, rfl⟩ := List.exists_cons_of_ne_nil inner
  have restored := Evaluator.popFrameAndPrepare_restores machine.evaluator chain
  simp only [Evaluator.visitOpReturn, Evaluator.popFrameAndPrepare] at restored ⊢
  rw [← sent.regBP] at restored
  exact ⟨top, sender, rest, active, ordinary, chain, restored⟩

/-- The host's own launch frame has no return operation. -/
theorem Valid.return_inner {machine : Machine} {fetched : Evaluator}
    (valid : Valid wellFormed machine) (fetches : machine.Fetches .return fetched) :
    machine.activations.tail ≠ [] := by
  intro none
  obtain ⟨top, outer, active, _, chain, found, _⟩ :=
    valid.holds.fetched (valid.busy fetches.1) fetches
  rw [active, List.tail_cons] at none
  have ordinary := chain.head.ordinary found (by simp)
  rw [none] at chain
  rw [chain.2.1] at ordinary
  cases ordinary

/-- `_returnTo:` an active home restores the home's sender. -/
theorem Holds.returnTo_restores {machine : Machine} {selector : Word} {fetched : Evaluator}
    (holds : Holds wellFormed bottom machine)
    (fetches : machine.Fetches (.dispatchMessage selector 1) fetched)
    (active : belowHome (fetched.context.operandAt 0) machine.activations ≠ []) :
    ∃ home sender outer, home ∈ machine.activations ∧
      home.bp = fetched.context.operandAt 0 ∧
      belowHome (fetched.context.operandAt 0) machine.activations = sender :: outer ∧
      Chained wellFormed bottom machine.evaluator.context.stack (home :: sender :: outer) ∧
      RestoresSender home.sender
        (fetched.evaluateUndermessageWith 1 (·.underprimitiveReturnTo image)) ∧
      (fetched.evaluateUndermessageWith 1
        (·.underprimitiveReturnTo image)).context.regE = sender.environment ∧
      (fetched.evaluateUndermessageWith 1
        (·.underprimitiveReturnTo image)).context.stack = machine.evaluator.context.stack := by
  obtain ⟨-, rfl⟩ := Evaluator.nextOperation_some fetches.2
  obtain ⟨sender, outer, below⟩ := List.exists_cons_of_ne_nil active
  obtain ⟨home, member, named, chain⟩ := holds.chain.of_belowHome below
  refine ⟨home, sender, outer, member, named, below, chain, ?_⟩
  rw [Evaluator.returnTo_eq, ← named]
  exact Evaluator.popFrameAndPrepare_restores machine.evaluator chain

/-- Changing R, or the heap, keeps a waiting activation where it is. -/
theorem SentFrom.stays {before after : Evaluator} {activation : Activation} {control : Control}
    (sent : SentFrom wellFormed after control activation)
    (context : after.context = { before.context with regPC := after.context.regPC })
    (work : after.work = before.work) :
    Stays wellFormed activation before after control := by
  refine ⟨?_, ?_, ?_, ?_, work, fun index _ => ?_, sent.position⟩ <;> rw [context]

/-- In native code, the primitive's activation waits just after its operation. -/
theorem SentFrom.primitive {evaluator : Evaluator} {activation : Activation}
    (sent : SentFrom wellFormed evaluator .running activation)
    (progress : Progress wellFormed activation .primitive evaluator.context.regPC.toNat) :
    SentFrom wellFormed { evaluator with context := evaluator.context.incRegPC }
      .native activation where
  regBP := sent.regBP
  regS := sent.regS
  regM := sent.regM
  work := sent.work
  regE := sent.regE
  position := by
    have position := sent.position
    have counted := position.counted
    have room := position.room
    obtain ⟨ordinary, method⟩ := progress.primitive rfl
    have first := progress.next (evaluator.context.regPC.toNat + 1)
      (by simp [Operation.successors])
    have second := progress.next (evaluator.context.regPC.toNat + 1 + 1)
      (by simp [Operation.successors])
    simp only [Operation.depthAfter] at first second
    have moved : (evaluator.context.regPC + 1).toNat = evaluator.context.regPC.toNat + 1 := by
      omega
    simp only [EvaluationContext.incRegPC_regPC, EvaluationContext.incRegPC_regSP]
    refine ⟨by omega, ?_, fun _ => ⟨ordinary, method, ?_⟩⟩
    · rw [moved]; omega
    · rw [moved]; omega

end Egg.Evaluation
