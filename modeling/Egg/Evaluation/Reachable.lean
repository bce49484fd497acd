import Egg.Evaluation.FrameDiscipline

/-! The frame invariant holds in every state a run reaches. -/
namespace Egg.Evaluation

variable {image : Image} {wellFormed : WellFormed image} {bottom : Activation → Prop}

/-- A fetched operation that falls through leaves its activation waiting behind it. -/
theorem Holds.ready {machine : Machine} {operation : Operation} {fetched : Evaluator}
    (holds : Holds wellFormed bottom machine) (busy : machine.activations ≠ [])
    (fetches : machine.Fetches operation fetched)
    (falls : ∀ position, position + 1 ∈ operation.successors position)
    (neutral : ∀ depth, operation.depthAfter depth = depth) :
    ∃ top outer, machine.activations = top :: outer ∧
      SentFrom wellFormed fetched .running top ∧
      Chained wellFormed bottom fetched.context.stack (top :: outer) ∧
      Stays wellFormed top machine.evaluator fetched .running := by
  obtain ⟨top, outer, active, sent, chain, found, rfl⟩ := holds.fetched busy fetches
  have after := sent.advance (chain.head.progress found) falls neutral
  exact ⟨top, outer, active, after, chain, after.stays rfl rfl⟩

theorem Holds.readyToSend {machine : Machine} {selector : Word} {argumentCount : Nat}
    {fetched : Evaluator} (holds : Holds wellFormed bottom machine)
    (busy : machine.activations ≠ [])
    (fetches : machine.Fetches (.dispatchMessage selector argumentCount) fetched) :
    ∃ top outer, machine.activations = top :: outer ∧
      SentFrom wellFormed fetched .running top ∧
      Chained wellFormed bottom fetched.context.stack (top :: outer) ∧
      Stays wellFormed top machine.evaluator fetched .running :=
  holds.ready busy fetches (by simp [Operation.successors]) (by simp [Operation.depthAfter])

/-- Native code runs inside the activation of its primitive. -/
theorem Holds.native {machine : Machine} (holds : Holds wellFormed bottom machine)
    (native : machine.control = .native) (busy : machine.activations ≠ []) :
    ∃ top outer, machine.activations = top :: outer ∧
      SentFrom wellFormed machine.evaluator .native top ∧
      Chained wellFormed bottom machine.evaluator.context.stack (top :: outer) := by
  obtain ⟨top, outer, active⟩ := List.exists_cons_of_ne_nil busy
  have sent := holds.current top outer active
  have chain := holds.chain
  rw [native] at sent
  rw [active] at chain
  exact ⟨top, outer, active, sent, chain⟩

/-- A primitive that sends from the loop's side waits like any sender. -/
theorem SentFrom.ends {evaluator : Evaluator} {activation : Activation}
    (sent : SentFrom wellFormed evaluator .native activation) :
    SentFrom wellFormed evaluator .running activation :=
  ⟨sent.regBP, sent.regS, sent.regM, sent.work, sent.regE, sent.position.running⟩

/-- Undermessages give back the slots of the arguments they popped. -/
theorem Evaluator.evaluateUndermessageWith_context (evaluator : Evaluator) (argumentCount : Nat)
    (answer : Word → List Word → Word) :
    (evaluator.evaluateUndermessageWith argumentCount fun popped arguments =>
      { popped with regR := answer popped.regR arguments }).context = evaluator.context := by
  simp [evaluateUndermessageWith, EvaluationContext.popOperands_spec,
    EvaluationContext.dropOperands, EvaluationContext.reserveStackSlots]

theorem Evaluator.evaluateUndermessageWith_work (evaluator : Evaluator) (argumentCount : Nat)
    (answer : Word → List Word → Word) :
    (evaluator.evaluateUndermessageWith argumentCount fun popped arguments =>
      { popped with regR := answer popped.regR arguments }).work = evaluator.work := rfl

/-- Failing with an error object writes at most the method's first temporary. -/
theorem SentFrom.failPrimitiveWith {evaluator : Evaluator} {activation : Activation}
    (sent : SentFrom wellFormed evaluator .native activation) (errorObject : Word) :
    Stays wellFormed activation evaluator (evaluator.failPrimitiveWith image errorObject)
      .running := by
  unfold Evaluator.failPrimitiveWith
  split
  · refine ⟨rfl, rfl, rfl, rfl, rfl, fun index above => ?_, sent.position.fails⟩
    have frame := sent.regBP
    exact Function.update_of_ne (by omega) _ _
  · exact ⟨rfl, rfl, rfl, rfl, rfl, fun _ _ => rfl, sent.position.fails⟩

/-- A closure is evaluated in place of the activation of its `value` method. -/
theorem Evaluator.evaluateClosure_enters {evaluator entered : Evaluator} {closure : Word}
    {value : Activation} {outer : List Activation}
    (ground : Ground image bottom)
    (chain : Chained wellFormed bottom evaluator.context.stack (value :: outer))
    (sent : SentFrom wellFormed evaluator .native value)
    (isBlock : image.isBlock (evaluator.closures closure).block = true)
    (ordinary : image.isLauncher (evaluator.closures closure).block = false)
    (evaluated : evaluator.evaluateClosureWithArgs image closure = some entered) :
    Enters wellFormed bottom false value.sender entered outer := by
  have notLaunch := (sent.position.failing rfl).1
  obtain ⟨sender, rest, rfl⟩ := chain.sender ground sent
  have below := chain.2.1
  rw [Activation.sentBy, notLaunch] at below
  obtain ⟨_, _, _, sameBP, samePC, sameSP, stack⟩ := chain.popFrame
  rw [← sent.regBP] at sameBP samePC sameSP stack
  simp only [evaluateClosureWithArgs, buildClosureFrameFor, Option.map_eq_some_iff] at evaluated
  obtain ⟨context, build, rfl⟩ := evaluated
  have built := EvaluationContext.buildFrameFor_spec build
  rw [show image.blockTempCount (evaluator.closures closure).block =
    image.temporaryCountOf (evaluator.closures closure).block by
      simp [Image.temporaryCountOf, isBlock]] at built
  have same : evaluator.context.popFrame.stack = evaluator.context.stack := stack
  have senderSP := chain.head.senderSP
  refine Enters.of_frameBuilt ?_ (by simpa using below) sameSP sameBP samePC ?_ built ordinary rfl
  · rw [same]
    exact chain.tail
  · intro index above
    rw [same]
    exact chain.head.operands index (by omega)

/-- Every step that stays above the bottom keeps the invariant. -/
theorem Holds.step {machine next : Machine} {action : Action} (ground : Ground image bottom)
    (holds : Holds wellFormed bottom machine) (busy : machine.activations ≠ [])
    (above : StaysAbove machine action) (step : Step image machine action next) :
    Holds wellFormed bottom next ∧ next.activations ≠ [] := by
  cases step with
  | execute fetches executed =>
    obtain ⟨top, outer, active, sent, chain, found, moved⟩ := holds.fetched busy fetches
    exact ⟨holds.stay active (sent.execute (chain.head.progress found) moved executed), busy⟩
  | identifier value fetches =>
    obtain ⟨top, outer, active, _, _, stays⟩ := holds.ready busy fetches
      (by simp [Operation.successors]) (by simp [Operation.depthAfter])
    exact ⟨holds.stay active
      ⟨stays.1, stays.2, stays.3, stays.4, stays.5, stays.6, stays.7⟩, busy⟩
  | block fresh fetches =>
    obtain ⟨top, outer, active, _, _, stays⟩ := holds.ready busy fetches
      (by simp [Operation.successors]) (by simp [Operation.depthAfter])
    exact ⟨holds.stay active
      ⟨stays.1, stays.2, stays.3, stays.4, stays.5, stays.6, stays.7⟩, busy⟩
  | @undermessage _ argumentCount fetched answer fetches =>
    obtain ⟨top, outer, active, _, _, stays⟩ := holds.readyToSend busy fetches
    have context := fetched.evaluateUndermessageWith_context argumentCount answer
    refine ⟨holds.stay active ⟨?_, ?_, ?_, ?_, stays.work, ?_, ?_⟩, busy⟩ <;> rw [context]
    · exact stays.regS
    · exact stays.regM
    · exact stays.regE
    · exact stays.regBP
    · exact stays.kept
    · exact stays.position
  | invoke method fresh fetches isMethod ordinary invoked =>
    obtain ⟨top, outer, active, sent, chain, _⟩ := holds.readyToSend busy fetches
    rw [active]
    exact ⟨(Evaluator.invokeWith_enters chain sent isMethod ordinary invoked).holds
      (by simp), by simp [Machine.activate]⟩
  | @messageNotUnderstood selector _ fetched _ array dnu fresh fetches isMethod ordinary
      invoked =>
    obtain ⟨top, outer, active, sent, chain, _⟩ := holds.readyToSend busy fetches
    rw [active]
    exact ⟨(Evaluator.invokeWith_enters (chain.pushAll [selector, array] sent rfl)
      (sent.pushAll [selector, array]) isMethod ordinary invoked).holds (by simp),
      by simp [Machine.activate]⟩
  | returnTo fetches =>
    obtain ⟨home, sender, outer, _, _, below, chain, restores, environment, kept⟩ :=
      holds.returnTo_restores fetches above
    rw [below]
    exact ⟨Holds.of_restores ground chain restores environment kept, by simp [Machine.resume]⟩
  | @nonLocalReturn fetched _ fresh fetches isMethod ordinary invoked =>
    obtain ⟨top, outer, active, sent, chain, _⟩ := holds.ready busy fetches
      (by simp [Operation.successors]) (by simp [Operation.depthAfter])
    rw [active]
    exact ⟨(Evaluator.invokeWith_enters (chain.pushAll [fetched.regR] sent rfl)
      (sent.pushAll [fetched.regR]) isMethod ordinary invoked).holds (by simp),
      by simp [Machine.activate]⟩
  | «return» fetches =>
    obtain ⟨top, sender, outer, active, ordinary, chain, restores, environment, kept⟩ :=
      holds.return_restores above fetches
    rw [active]
    exact ⟨Holds.of_restores ground chain restores environment kept, by simp [Machine.resume]⟩
  | primitive fetches =>
    obtain ⟨top, outer, active, sent, chain, found, rfl⟩ := holds.fetched busy fetches
    exact ⟨holds.stay active ((sent.primitive (chain.head.progress found)).stays rfl rfl), busy⟩
  | finish value native busy =>
    obtain ⟨top, outer, active, sent, _⟩ := holds.native native busy
    exact ⟨holds.stay active
      ⟨rfl, rfl, rfl, rfl, rfl, fun _ _ => rfl, sent.position.running⟩, busy⟩
  | failPrimitive native busy =>
    obtain ⟨top, outer, active, sent, _⟩ := holds.native native busy
    exact ⟨holds.stay active
      ⟨rfl, rfl, rfl, rfl, rfl, fun _ _ => rfl, sent.position.fails⟩, busy⟩
  | failPrimitiveWith errorObject native busy =>
    obtain ⟨top, outer, active, sent, _⟩ := holds.native native busy
    exact ⟨holds.stay active (sent.failPrimitiveWith errorObject), busy⟩
  | evaluateClosure closure native active isBlock ordinary evaluated =>
    obtain ⟨top, outer, active', sent, chain⟩ := holds.native native (by simp [active])
    rw [active] at active'
    obtain ⟨rfl, rfl⟩ := List.cons.inj active'
    obtain ⟨sender, rest, rfl⟩ := chain.sender ground sent
    exact ⟨(Evaluator.evaluateClosure_enters ground chain sent isBlock ordinary evaluated).holds
      (by simp), by simp [Machine.activate]⟩
  | perform method arguments fresh native busy isMethod ordinary performed =>
    obtain ⟨top, outer, active, sent, chain⟩ := holds.native native busy
    rw [active]
    exact ⟨(Evaluator.invokeWith_enters (chain.pushAll arguments sent.ends rfl)
      (sent.ends.pushAll arguments) isMethod ordinary performed).holds (by simp),
      by simp [Machine.activate]⟩
  | sendToWith symbol launcher receiver arguments native isLauncher isMethod temps code launched =>
    refine ⟨(Evaluator.sendToWith_enters holds.chain ?_ isLauncher isMethod temps code
      launched).holds (fun none => absurd none busy), by simp [Machine.activate]⟩
    intro top outer active
    have sent := holds.current top outer active
    rwa [native] at sent
  | @endSend launcher outer fetched running exhausted active launch =>
    obtain ⟨sender, rest, rfl⟩ : ∃ sender rest, outer = sender :: rest :=
      List.exists_cons_of_ne_nil (by rwa [StaysAbove, active] at above)
    exact ⟨holds.endSend ground running exhausted active launch, by simp [Machine.resume]⟩

/-- What the host sends goes out in a launch frame of its own. -/
theorem Valid.sendToWith_hosted {machine : Machine} {entered : Evaluator}
    {symbol launcher receiver : Word} {arguments : List Word} (valid : Valid wellFormed machine)
    (none : machine.activations = []) (isLauncher : image.isLauncher launcher = true)
    (isMethod : image.isBlock launcher = false) (temps : image.methodTempCount launcher = 0)
    (code : image.executableCodeWork launcher = [.dispatchMessage symbol arguments.length])
    (launched : machine.evaluator.sendToWith image launcher receiver arguments = some entered) :
    Valid wellFormed (machine.activate true machine.evaluator entered machine.activations) := by
  have enters : Enters wellFormed Hosted true machine.evaluator entered machine.activations :=
    Evaluator.sendToWith_enters valid.holds.chain
      (fun top outer active => by rw [none] at active; cases active)
      isLauncher isMethod temps code launched
  exact (enters.holds fun _ => ⟨rfl, (valid.idle none).2⟩).valid (by simp [Machine.activate])

/-- Every step keeps the invariant. -/
theorem Valid.step {machine next : Machine} {action : Action}
    (valid : Valid wellFormed machine) (allowed : HomesActive machine action)
    (step : Step image machine action next) : Valid wellFormed next := by
  have inner : machine.activations ≠ [] → StaysAbove machine action → Valid wellFormed next := by
    intro busy above
    obtain ⟨holds, busy'⟩ := valid.holds.step Hosted.ground busy above step
    exact holds.valid busy'
  cases step with
  | execute fetches | identifier _ fetches | block _ fetches | undermessage _ fetches
  | invoke _ _ fetches | messageNotUnderstood _ _ _ fetches | nonLocalReturn _ fetches
  | primitive fetches =>
    exact inner (valid.busy fetches.1) trivial
  | returnTo fetches => exact inner (valid.busy fetches.1) allowed
  | «return» fetches => exact inner (valid.busy fetches.1) (valid.return_inner fetches)
  | finish _ _ busy | failPrimitive _ busy | failPrimitiveWith _ _ busy
  | perform _ _ _ _ busy => exact inner busy trivial
  | evaluateClosure _ _ active => exact inner (by simp [active]) trivial
  | sendToWith _ _ _ _ _ isLauncher isMethod temps code launched =>
    by_cases none : machine.activations = []
    · exact valid.sendToWith_hosted none isLauncher isMethod temps code launched
    · exact inner none trivial
  | @endSend launcher outer fetched running exhausted active launch =>
    cases outer with
    | nil => exact valid.endSend_hosted running exhausted active
    | cons sender rest => exact inner (by simp [active]) (by simp [StaysAbove, active])

/-- The evaluator starts valid. -/
theorem Valid.start (wellFormed : WellFormed image) (stack : Int → Word) :
    Valid wellFormed (Machine.start image stack) where
  chain := trivial
  idle _ := ⟨rfl, rfl⟩
  current := by intro top outer none; cases none

/-- A run that only returns to active homes stays valid. -/
theorem Valid.run {first last : Machine} (valid : Valid wellFormed first)
    (run : Run image HomesActive first last) : Valid wellFormed last := by
  induction run with
  | refl => exact valid
  | step _ allowed step ih => exact ih.step allowed step

/-- Code `1` launches the send; every other code object answers its receiver. -/
def answerSelf : Image where
  nilObj := 0
  trueObj := 1
  falseObj := 2
  isBlock _ := false
  isLauncher code := code == 1
  methodTempCount _ := 0
  blockTempCount _ := 0
  methodNeedsEnvironment _ := false
  blockCapturesSelf _ := false
  blockMethod code := code
  closureReturnMethod := 3
  executableCodeWork code :=
    if code = 1 then [.dispatchMessage 7 1] else [.loadRwithSelf, .return]

def answerSelf_wellFormed : WellFormed answerSelf where
  depth _ _ := 0
  start _ := rfl
  operands code position operation ordinary found := by
    have other : code ≠ 1 := by simpa [answerSelf] using ordinary
    simp only [answerSelf, other, if_false] at found
    match position, found with
    | 0, found => simp at found; simp [← found, Operation.operands]
    | 1, found => simp at found; simp [← found, Operation.operands]
  flow code position operation ordinary found := by
    have other : code ≠ 1 := by simpa [answerSelf] using ordinary
    simp only [answerSelf, other, if_false] at found ⊢
    match position, found with
    | 0, found => simp at found; simp [← found, Operation.successors]
    | 1, found => simp at found; simp [← found, Operation.successors]
  stores code position operation ordinary found := by
    have other : code ≠ 1 := by simpa [answerSelf] using ordinary
    simp only [answerSelf, other, if_false] at found
    match position, found with
    | 0, found => simp at found; simp [← found, Operation.stores]
    | 1, found => simp at found; simp [← found, Operation.stores]
  primitives _ _ _ _ := rfl

/-- The method has answered its receiver `5` and is about to return. -/
theorem answerSelf_run : ∃ before after,
    Run answerSelf HomesActive (Machine.start answerSelf fun _ => 0) before ∧
      Step answerSelf before .return after ∧
      ∃ top outer, before.activations = top :: outer ∧
        top.sender.work[(top.sender.context.regPC - 1).toNat]? = some (.dispatchMessage 7 1) ∧
        after.evaluator.context.regSP = top.sender.context.regSP := by
  have sent : Run answerSelf HomesActive (Machine.start answerSelf fun _ => 0) _ :=
    @Run.step _ _ _ _ _ .enter (.refl _) trivial (.sendToWith 7 1 5 [6] rfl rfl rfl rfl rfl rfl)
  have invoked : Run answerSelf HomesActive (Machine.start answerSelf fun _ => 0) _ :=
    @Run.step _ _ _ _ _ .enter sent trivial (.invoke 10 0 ⟨rfl, rfl⟩ rfl rfl rfl)
  have loaded : Run answerSelf HomesActive (Machine.start answerSelf fun _ => 0) _ :=
    @Run.step _ _ _ _ _ .stay invoked trivial (.execute ⟨rfl, rfl⟩ rfl)
  exact ⟨_, _, loaded, .return ⟨rfl, rfl⟩, _, _, rfl, rfl, rfl⟩

/-- The return operation would also pop the receiver and the arguments of the send. -/
def ReturnPopsOperands (image : Image) : Prop :=
  ∀ stack (before after : Machine) (top : Activation) outer selector (argumentCount : Nat),
    Run image HomesActive (Machine.start image stack) before →
    Step image before .return after →
    before.activations = top :: outer →
    top.sender.work[(top.sender.context.regPC - 1).toNat]? =
      some (.dispatchMessage selector argumentCount) → 0 < argumentCount →
    after.evaluator.context.regSP = top.sender.context.regSP + (argumentCount + 1)

end Egg.Evaluation
