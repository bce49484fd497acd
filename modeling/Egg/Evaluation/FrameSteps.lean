import Egg.Evaluation.FrameChain

/-! Every step of the evaluator keeps the frame invariant. -/
namespace Egg.Evaluation

variable {image : Image} {wellFormed : WellFormed image} {bottom : Activation → Prop}

/-- What well-formedness says of the operation an activation fetches. -/
structure Progress (wellFormed : WellFormed image) (activation : Activation)
    (operation : Operation) (position : Nat) : Prop where
  operands : operation.operands ≤ wellFormed.depthOf activation position
  next : ∀ next ∈ operation.successors position,
    wellFormed.depthOf activation next ≤
      operation.depthAfter (wellFormed.depthOf activation position)
  stores : ∀ index ∈ operation.stores, 0 < index
  primitive : operation = .primitive →
    activation.launch = false ∧ image.isBlock activation.code = false

theorem Evaluator.nextOperation_some {evaluator fetched : Evaluator} {operation : Operation}
    (fetch : evaluator.nextOperation = (some operation, fetched)) :
    evaluator.work[evaluator.context.regPC.toNat]? = some operation ∧
      fetched = { evaluator with context := evaluator.context.incRegPC } := by
  simp only [nextOperation, Prod.mk.injEq] at fetch
  obtain ⟨found, rfl⟩ := fetch
  rw [EvaluationContext.incRegPC_regPC, Int.add_sub_cancel] at found
  exact ⟨found, rfl⟩

theorem FrameHeld.progress {stack : Int → Word} {activation : Activation} {position : Nat}
    {operation : Operation} (held : FrameHeld image stack activation)
    (found : (image.executableCodeWork activation.code)[position]? = some operation) :
    Progress wellFormed activation operation position := by
  cases launch : activation.launch with
  | true =>
    obtain ⟨selector, argumentCount, code, _⟩ := held.launched launch
    rw [code, List.getElem?_eq_some_iff] at found
    obtain ⟨inside, same⟩ := found
    obtain rfl : position = 0 := by simpa using inside
    obtain rfl : operation = .dispatchMessage selector argumentCount := by simpa using same.symm
    exact {
      operands := by simp [Operation.operands, WellFormed.depthOf, launch, code, launchOperands]
      next := by
        intro next member
        simp [WellFormed.depthOf, launch, Operation.depthAfter]
      stores := by simp [Operation.stores]
      primitive := by intro same; cases same }
  | false =>
    have ordinary : image.isLauncher activation.code = false := by rw [held.kind, launch]
    have depth : ∀ position, wellFormed.depthOf activation position =
        wellFormed.depth activation.code position := by
      intro position
      simp [WellFormed.depthOf, launch]
    exact {
      operands := by
        rw [depth]
        exact wellFormed.operands _ _ _ ordinary found
      next := by
        intro next member
        rw [depth, depth]
        exact wellFormed.flow _ _ _ ordinary found next member
      stores := fun index member => (wellFormed.stores _ _ _ ordinary found index member).1
      primitive := by
        rintro rfl
        exact ⟨launch, wellFormed.primitives _ _ ordinary found⟩ }

/-- Moving to a successor with the operands the operation leaves. -/
theorem Position.advance {activation : Activation} {sp pc sp' : Int} {next : Nat}
    {control : Control} {operation : Operation}
    (position : Position wellFormed activation sp pc control)
    (progress : Progress wellFormed activation operation pc.toNat)
    (member : next ∈ operation.successors pc.toNat)
    (moved : sp' + operation.depthAfter (wellFormed.depthOf activation pc.toNat) ≤
      sp + wellFormed.depthOf activation pc.toNat) :
    Position wellFormed activation sp' next .running where
  counted := by lia
  room := by
    have shallower := progress.next next member
    have room := position.room
    rw [Int.toNat_natCast]
    lia
  failing native := by cases native

/-- Moving on to the next operation. -/
theorem Position.advanceNext {activation : Activation} {sp pc sp' : Int} {control : Control}
    {operation : Operation}
    (position : Position wellFormed activation sp pc control)
    (progress : Progress wellFormed activation operation pc.toNat)
    (member : pc.toNat + 1 ∈ operation.successors pc.toNat)
    (moved : sp' + operation.depthAfter (wellFormed.depthOf activation pc.toNat) ≤
      sp + wellFormed.depthOf activation pc.toNat) :
    Position wellFormed activation sp' (pc + 1) .running := by
  have advanced := position.advance progress member moved
  have counted := position.counted
  rwa [show ((pc.toNat + 1 : Nat) : Int) = pc + 1 by lia] at advanced

/-- Staying at a position with as many operands or more. -/
theorem Position.lower {activation : Activation} {sp pc sp' : Int} {control : Control}
    (position : Position wellFormed activation sp pc control) (below : sp' ≤ sp) :
    Position wellFormed activation sp' pc control where
  counted := position.counted
  room := by have room := position.room; lia
  failing native := by
    obtain ⟨ordinary, method, room⟩ := position.failing native
    exact ⟨ordinary, method, by lia⟩

/-- The loop can go on wherever control waits. -/
theorem Position.running {activation : Activation} {sp pc : Int} {control : Control}
    (position : Position wellFormed activation sp pc control) :
    Position wellFormed activation sp pc .running :=
  ⟨position.counted, position.room, fun native => by cases native⟩

/-- A primitive that fails gives control back past the next operation. -/
theorem Position.fails {activation : Activation} {sp pc : Int}
    (position : Position wellFormed activation sp pc .native) :
    Position wellFormed activation sp (pc + 1) .running := by
  have counted := position.counted
  obtain ⟨-, -, room⟩ := position.failing rfl
  have moved : (pc + 1).toNat = pc.toNat + 1 := by lia
  refine ⟨by lia, ?_, fun native => by cases native⟩
  rw [moved]
  exact room

/-- The same activation keeps control with its registers and the words above it. -/
structure Stays (wellFormed : WellFormed image) (activation : Activation)
    (before after : Evaluator) (control : Control) : Prop where
  regS : after.context.regS = before.context.regS
  regM : after.context.regM = before.context.regM
  regE : after.context.regE = before.context.regE
  regBP : after.context.regBP = before.context.regBP
  work : after.work = before.work
  kept : ∀ index, activation.bp - 4 ≤ index →
    after.context.stack index = before.context.stack index
  position : Position wellFormed activation after.context.regSP after.context.regPC control

theorem Holds.stay {machine : Machine} {top : Activation} {outer : List Activation}
    {done : Evaluator} {control : Control} (holds : Holds wellFormed bottom machine)
    (active : machine.activations = top :: outer)
    (stays : Stays wellFormed top machine.evaluator done control) :
    Holds wellFormed bottom (machine.stay control done) where
  chain := by
    have chain := holds.chain
    rw [active] at chain
    simp only [Machine.stay, active]
    exact chain.congr stays.kept
  current := by
    intro top' outer' same
    simp only [Machine.stay, active, List.cons.injEq] at same
    obtain ⟨rfl, rfl⟩ := same
    have sent := holds.current top outer active
    exact {
      regBP := stays.regBP.trans sent.regBP
      regS := stays.regS.trans sent.regS
      regM := stays.regM.trans sent.regM
      work := stays.work.trans sent.work
      regE := fun fresh => stays.regE.trans (sent.regE fresh)
      position := stays.position }

/-- Writing temporaries changes no register and no word of the frame header. -/
theorem stackTemporaryAtPut_fold (context : EvaluationContext) (object : Word)
    (temporaries : List Nat) (positive : ∀ index ∈ temporaries, 0 < index) :
    let written := temporaries.foldl (fun context (index : Nat) =>
      context.stackTemporaryAtPut index object) context
    written.regS = context.regS ∧ written.regM = context.regM ∧ written.regE = context.regE ∧
      written.regBP = context.regBP ∧ written.regSP = context.regSP ∧
      written.regPC = context.regPC ∧
      ∀ index, context.regBP - 4 ≤ index → written.stack index = context.stack index := by
  induction temporaries generalizing context with
  | nil => simp
  | cons first rest ih =>
    have low := positive first (List.mem_cons_self ..)
    obtain ⟨sameS, sameM, sameE, sameBP, sameSP, samePC, kept⟩ :=
      ih (context.stackTemporaryAtPut first object)
        fun index member => positive index (List.mem_cons_of_mem _ member)
    refine ⟨sameS, sameM, sameE, sameBP, sameSP, samePC, fun index above => ?_⟩
    rw [List.foldl_cons, kept index above]
    exact Function.update_of_ne (by lia) _ _

/-- An operation that needs no other activation stays in its own. -/
theorem SentFrom.execute {evaluator fetched done : Evaluator} {activation : Activation}
    {operation : Operation}
    (sent : SentFrom wellFormed evaluator .running activation)
    (progress : Progress wellFormed activation operation evaluator.context.regPC.toNat)
    (fetch : fetched = { evaluator with context := evaluator.context.incRegPC })
    (executed : fetched.execute image operation = some done) :
    Stays wellFormed activation evaluator done .running := by
  have position := sent.position
  have room := position.room
  have operands := progress.operands
  have high : evaluator.context.regSP ≤ activation.bp - 4 := by
    simp only [Activation.floor] at room
    lia
  subst fetch
  cases operation <;> simp only [Evaluator.execute, Option.some.injEq, reduceCtorEq] at executed
  case literal | loadRfromFrame | loadRfromStack | loadRwithNil | loadRwithSelf =>
    subst executed
    exact ⟨rfl, rfl, rfl, rfl, rfl, fun _ _ => rfl, position.advanceNext progress
      (by simp [Operation.successors]) (by simp [Operation.depthAfter])⟩
  case assign temporaries =>
    subst executed
    obtain ⟨sameS, sameM, sameE, sameBP, sameSP, samePC, kept⟩ := stackTemporaryAtPut_fold
      evaluator.context.incRegPC evaluator.regR temporaries
      progress.stores
    refine ⟨sameS, sameM, sameE, sameBP, rfl, ?_, ?_⟩
    · intro index above
      exact kept index (by rw [EvaluationContext.incRegPC_regBP, sent.regBP]; exact above)
    · rw [sameSP, samePC]
      exact position.advanceNext progress (by simp [Operation.successors])
        (by simp [Operation.depthAfter])
  case dropToS count =>
    subst executed
    simp only [Operation.operands] at operands
    exact ⟨rfl, rfl, rfl, rfl, rfl, fun _ _ => rfl, position.advanceNext progress
      (by simp [Operation.successors])
      (by
        simp only [Operation.depthAfter, EvaluationContext.dropOperands,
          EvaluationContext.incRegPC_regSP]
        lia)⟩
  case jump target =>
    subst executed
    exact ⟨rfl, rfl, rfl, rfl, rfl, fun _ _ => rfl, position.advance progress
      (by simp [Operation.successors]) (by simp [Operation.depthAfter])⟩
  case jumpFalse | jumpTrue =>
    subst executed
    split
    · exact ⟨rfl, rfl, rfl, rfl, rfl, fun _ _ => rfl, position.advance progress
        (by simp [Operation.successors]) (by simp [Operation.depthAfter])⟩
    · exact ⟨rfl, rfl, rfl, rfl, rfl, fun _ _ => rfl, position.advanceNext progress
        (by simp [Operation.successors]) (by simp [Operation.depthAfter])⟩
  case popR =>
    subst executed
    simp only [Operation.operands] at operands
    exact ⟨rfl, rfl, rfl, rfl, rfl, fun _ _ => rfl, position.advanceNext progress
      (by simp [Operation.successors])
      (by
        simp only [Operation.depthAfter, EvaluationContext.pop, EvaluationContext.incRegPC_regSP]
        lia)⟩
  case pushR =>
    subst executed
    refine ⟨rfl, rfl, rfl, rfl, rfl, ?_, position.advanceNext progress
      (by simp [Operation.successors])
      (by
        simp only [Operation.depthAfter, EvaluationContext.push_regSP,
          EvaluationContext.incRegPC_regSP]
        lia)⟩
    intro index above
    rw [EvaluationContext.push_stack, if_neg (by simp only [EvaluationContext.incRegPC_regSP]; lia)]
    rfl
  case storeRintoFrame index =>
    subst executed
    have low := progress.stores index (by simp [Operation.stores])
    refine ⟨rfl, rfl, rfl, rfl, rfl, ?_, position.advanceNext progress
      (by simp [Operation.successors]) (by simp [Operation.depthAfter,
        EvaluationContext.stackTemporaryAtPut])⟩
    intro index' above
    have same := sent.regBP
    exact Function.update_of_ne (by simp only [EvaluationContext.incRegPC_regBP]; lia) _ _

/-- A new activation above those that `sender` was in when it passed control on. -/
structure Enters (wellFormed : WellFormed image) (bottom : Activation → Prop) (launch : Bool)
    (sender entered : Evaluator) (outer : List Activation) : Prop where
  chain : Chained wellFormed bottom entered.context.stack outer
  sent : ∀ top rest, outer = top :: rest →
    SentFrom wellFormed sender (if launch then .native else .running) top
  savedBP : entered.context.stack entered.context.regBP = sender.context.regBP
  savedPC : entered.context.stack (entered.context.regBP + 1) = sender.context.regPC
  receiver : entered.context.stack (entered.context.regBP - 1) = entered.context.regS
  code : entered.context.stack (entered.context.regBP - 2) = entered.context.regM
  environment : entered.context.stack (entered.context.regBP - 4) = entered.context.regE
  senderSP : sender.context.regSP = entered.context.regBP + 2
  positive : 0 < entered.context.regBP
  operands : ∀ index, entered.context.regBP + 2 ≤ index →
    entered.context.stack index = sender.context.stack index
  regPC : entered.context.regPC = 0
  work : entered.work = image.executableCodeWork entered.context.regM
  kind : image.isLauncher entered.context.regM = launch
  launched : launch = true → ∃ selector argumentCount,
    image.executableCodeWork entered.context.regM = [.dispatchMessage selector argumentCount] ∧
      image.isBlock entered.context.regM = false ∧
      entered.context.regSP + argumentCount ≤
        entered.context.regBP - 4 - image.temporaryCountOf entered.context.regM
  room : entered.context.regSP ≤
    entered.context.regBP - 4 - image.temporaryCountOf entered.context.regM

theorem Enters.holds {machine : Machine} {launch : Bool} {sender entered : Evaluator}
    {outer : List Activation} (enters : Enters wellFormed bottom launch sender entered outer)
    (grounded : outer = [] → bottom (machine.newActivation launch sender entered)) :
    Holds wellFormed bottom (machine.activate launch sender entered outer) where
  chain := by
    have held : FrameHeld image entered.context.stack
        (machine.newActivation launch sender entered) := {
      savedBP := enters.savedBP
      savedPC := enters.savedPC
      receiver := enters.receiver
      code := enters.code
      environment := enters.environment
      senderSP := enters.senderSP
      positive := enters.positive
      operands := enters.operands
      kind := enters.kind
      launched := by
        intro launch
        obtain ⟨selector, argumentCount, work, method, _⟩ := enters.launched launch
        exact ⟨selector, argumentCount, work, method⟩ }
    cases outer with
    | nil => exact ⟨held, grounded rfl⟩
    | cons top rest => exact ⟨held, enters.sent top rest rfl, enters.chain⟩
  current := by
    intro top rest same
    simp only [Machine.activate, List.cons.injEq] at same
    obtain ⟨rfl, rfl⟩ := same
    refine ⟨rfl, rfl, rfl, enters.work, fun _ => rfl, ?_⟩
    have room := enters.room
    simp only [Machine.activate, enters.regPC]
    refine ⟨Int.le_refl 0, ?_, ?_⟩
    · simp only [WellFormed.depthOf, Activation.floor, Machine.newActivation]
      cases launch with
      | true =>
        obtain ⟨selector, argumentCount, work, _, space⟩ := enters.launched rfl
        simpa [work, launchOperands] using space
      | false =>
        rw [Int.toNat_zero, wellFormed.start]
        simpa using room
    · intro native
      cases native

/-- The frame of ordinary code, built above any activations, is entered. -/
theorem Enters.of_built {sender entered : Evaluator} {context : EvaluationContext}
    {nilObj receiver code environment : Word} {outer : List Activation}
    (chain : Chained wellFormed bottom entered.context.stack outer)
    (sent : ∀ top rest, outer = top :: rest → SentFrom wellFormed sender .running top)
    (sameSP : context.regSP = sender.context.regSP)
    (sameBP : context.regBP = sender.context.regBP)
    (samePC : context.regPC = sender.context.regPC)
    (sameOperands : ∀ index, sender.context.regSP ≤ index →
      context.stack index = sender.context.stack index)
    (built : context.FrameBuilt nilObj receiver code environment (image.temporaryCountOf code)
      entered.context)
    (ordinary : image.isLauncher code = false)
    (work : entered.work = image.executableCodeWork code) :
    Enters wellFormed bottom false sender entered outer where
  chain := chain
  sent := by
    intro top rest same
    simpa using sent top rest same
  savedBP := by rw [built.savedBP, sameBP]
  savedPC := by rw [built.savedPC, samePC]
  receiver := by rw [built.receiver, built.regS]
  code := by rw [built.code, built.regM]
  environment := by rw [built.environment, built.regE]
  senderSP := by have moved := built.regBP; lia
  positive := by have room := built.room; lia
  operands index above := by
    have frame := built.regBP
    rw [built.kept index (by lia), sameOperands index (by lia)]
  regPC := built.regPC
  work := by rw [built.regM, work]
  kind := by rw [built.regM, ordinary]
  launched launch := by cases launch
  room := by
    have frame := built.regBP
    have moved := built.regSP
    rw [built.regM]
    lia

/-- Building the frame of ordinary code enters it. -/
theorem Enters.of_frameBuilt {sender entered : Evaluator} {context : EvaluationContext}
    {nilObj receiver code environment : Word} {top : Activation} {outer : List Activation}
    (chain : Chained wellFormed bottom context.stack (top :: outer))
    (sent : SentFrom wellFormed sender .running top)
    (sameSP : context.regSP = sender.context.regSP)
    (sameBP : context.regBP = sender.context.regBP)
    (samePC : context.regPC = sender.context.regPC)
    (sameOperands : ∀ index, sender.context.regSP ≤ index →
      context.stack index = sender.context.stack index)
    (built : context.FrameBuilt nilObj receiver code environment (image.temporaryCountOf code)
      entered.context)
    (ordinary : image.isLauncher code = false)
    (work : entered.work = image.executableCodeWork code) :
    Enters wellFormed bottom false sender entered (top :: outer) := by
  have room := sent.position.room
  simp only [Activation.floor] at room
  refine .of_built (chain.congr fun index above => built.kept index (by lia)) ?_ sameSP sameBP
    samePC sameOperands built ordinary work
  intro top' rest same
  obtain ⟨rfl, rfl⟩ := List.cons.inj same
  exact sent

end Egg.Evaluation
