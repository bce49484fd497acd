import Egg.Evaluation.Identity

/-! Sends from native code: what `send_to_with_` leaves of the state it is called in. -/
namespace Egg.Evaluation

variable {image : Image}

/-- Native code, seen without the activations it was called from. -/
def Machine.native (evaluator : Evaluator) : Machine :=
  { evaluator := evaluator, control := .native, activations := [], serials := 0 }

/-- The machine that runs above a frame just entered from native code. -/
def Machine.above (launch : Bool) (sender entered : Evaluator) : Machine :=
  (Machine.native sender).activate launch sender entered []

/-- `send_to_with_`: a new launch frame, a run of the loop above it, and the end of its work. -/
inductive NativeSend (image : Image) (caller : Evaluator) (symbol receiver : Word)
    (arguments : List Word) : Evaluator → Prop where
  | returns {launcher : Word} {launched : Evaluator} {ended : Machine} {fetched : Evaluator} :
      image.isLauncher launcher = true → image.isBlock launcher = false →
      image.methodTempCount launcher = 0 →
      image.executableCodeWork launcher = [.dispatchMessage symbol arguments.length] →
      launcher ≠ caller.context.regM →
      caller.sendToWith image launcher receiver arguments = some launched →
      Run image StaysAbove (Machine.above true caller launched) ended →
      ended.activations.tail = [] → ended.control = .running →
      ended.evaluator.nextOperation = (none, fetched) →
      NativeSend image caller symbol receiver arguments
        (fetched.endSend image launched.context.regE)

/-- A state of native code: the host's, or one whose frame holds what the registers do. -/
structure Framed (image : Image) (evaluator : Evaluator) : Prop where
  room : evaluator.context.regBP ≠ 0 → evaluator.context.regSP ≤ evaluator.context.regBP - 4
  receiver : evaluator.context.regBP ≠ 0 →
    evaluator.context.stack (evaluator.context.regBP - 1) = evaluator.context.regS
  code : evaluator.context.regBP ≠ 0 →
    evaluator.context.stack (evaluator.context.regBP - 2) = evaluator.context.regM
  work : evaluator.context.regBP ≠ 0 →
    evaluator.work = image.executableCodeWork evaluator.context.regM

/-- The registers and the work list are those of an earlier state. -/
structure Transparent (before after : Evaluator) : Prop where
  regS : after.context.regS = before.context.regS
  regM : after.context.regM = before.context.regM
  regE : after.context.regE = before.context.regE
  regBP : after.context.regBP = before.context.regBP
  regSP : after.context.regSP = before.context.regSP
  regPC : after.context.regPC = before.context.regPC
  work : after.work = before.work

/-- A caller with a frame, no environment, and the work list of its method. -/
structure Sheltered (image : Image) (caller : Evaluator) : Prop where
  framed : caller.context.regBP ≠ 0
  environment : caller.context.regE = image.nilObj
  work : image.executableCodeWork (Evaluator.method image caller.context) = caller.work

variable {wellFormed : WellFormed image}

/-- Every state of a run is one that native code can send from. -/
theorem Valid.framed {machine : Machine} (valid : Valid wellFormed machine) :
    Framed image machine.evaluator := by
  cases active : machine.activations with
  | nil =>
    have zero := (valid.idle active).2
    constructor <;> intro framed <;> exact absurd zero framed
  | cons top outer =>
    have sent := valid.current top outer active
    have chain := valid.holds.chain
    rw [active] at chain
    have held := chain.head
    have room := sent.position.room
    simp only [Activation.floor] at room
    constructor
    · intro _
      rw [sent.regBP]
      omega
    · intro _
      rw [sent.regBP, sent.regS, held.receiver]
    · intro _
      rw [sent.regBP, sent.regM, held.code]
    · intro _
      rw [sent.regM, sent.work]

/-- The bottom of a nested run is the activation it started with. -/
def Based (base activation : Activation) : Prop := activation.forget = base.forget

theorem Based.ground {base : Activation}
    (loops : base.launch = true ∨ image.isBlock base.code = true) : Ground image (Based base) where
  loops activation based := by
    have launch : activation.launch = base.launch := congrArg (·.launch) based
    have code : activation.code = base.code := congrArg (·.code) based
    rw [launch, code]
    exact loops
  unmarked activation reentered based := based

/-- A nested run keeps its frames, down to the one it started with. -/
theorem Holds.run {bottom : Activation → Prop} {first last : Machine}
    (ground : Ground image bottom) (holds : Holds wellFormed bottom first)
    (busy : first.activations ≠ []) (run : Run image StaysAbove first last) :
    Holds wellFormed bottom last ∧ last.activations ≠ [] := by
  induction run with
  | refl => exact ⟨holds, busy⟩
  | step _ above step ih => exact ih.1.step ground ih.2 above step

/-- A state in which only the frame is active that a nested run started with. -/
structure Alone (image : Image) (sender entered ended : Evaluator) : Prop where
  regS : ended.context.regS = entered.context.regS
  regM : ended.context.regM = entered.context.regM
  regBP : ended.context.regBP = entered.context.regBP
  work : ended.work = image.executableCodeWork entered.context.regM
  savedBP : ended.context.stack entered.context.regBP = sender.context.regBP
  savedPC : ended.context.stack (entered.context.regBP + 1) = sender.context.regPC
  senderSP : sender.context.regSP = entered.context.regBP + 2
  operands : ∀ index, sender.context.regSP ≤ index →
    ended.context.stack index = sender.context.stack index

/-- Whatever a nested run does, its first frame still leads back to where it was entered from. -/
theorem Enters.alone {launch : Bool} {sender entered : Evaluator} {ended : Machine}
    (enters : Enters wellFormed
      (Based ((Machine.native sender).newActivation launch sender entered)) launch sender entered [])
    (loops : launch = true ∨ image.isBlock entered.context.regM = true)
    (run : Run image StaysAbove (Machine.above launch sender entered) ended)
    (alone : ended.activations.tail = []) : Alone image sender entered ended.evaluator := by
  have first : Holds wellFormed _ (Machine.above launch sender entered) :=
    enters.holds fun _ => rfl
  obtain ⟨holds, busy⟩ := first.run (Based.ground loops) (by simp [Machine.above,
    Machine.activate]) run
  obtain ⟨top, outer, active⟩ := List.exists_cons_of_ne_nil busy
  rw [active, List.tail_cons] at alone
  subst alone
  have chain := holds.chain
  have current := holds.current top [] active
  rw [active] at chain
  obtain ⟨held, based⟩ := chain
  have receiver : top.receiver = entered.context.regS := congrArg (·.receiver) based
  have code : top.code = entered.context.regM := congrArg (·.code) based
  have bp : top.bp = entered.context.regBP := congrArg (·.bp) based
  have from_ : top.sender = sender := congrArg (·.sender) based
  have savedBP := held.savedBP
  have savedPC := held.savedPC
  have senderSP := held.senderSP
  have operands := held.operands
  rw [bp, from_] at savedBP savedPC senderSP operands
  constructor
  · rw [current.regS, receiver]
  · rw [current.regM, code]
  · rw [current.regBP, bp]
  · rw [current.work, code]
  · exact savedBP
  · exact savedPC
  · exact senderSP
  · intro index above
    exact operands index (by omega)

/-- The frame that `send_to_with_` enters is its launch frame, without an environment. -/
theorem Evaluator.sendToWith_launches {caller launched : Evaluator} {launcher receiver : Word}
    {arguments : List Word}
    (sent : caller.sendToWith image launcher receiver arguments = some launched) :
    launched.context.regM = launcher ∧ launched.context.regE = image.nilObj := by
  simp only [sendToWith, buildLaunchFrame, buildMethodFrameFor, Option.map_eq_some_iff] at sent
  obtain ⟨context, build, rfl⟩ := sent
  have built := EvaluationContext.buildFrameFor_spec build
  obtain ⟨_, regM, regE, _⟩ := context.pushAll_spec
    (if arguments.isEmpty then [] else receiver :: arguments)
  exact ⟨regM.trans built.regM, regE.trans built.regE⟩

/-- Below the host's launch frame there is nothing to reload: M stays the launcher. -/
theorem Alone.endSend_hosted {caller launched ended : Evaluator} {prevRegE : Word}
    (ends : Alone image caller launched ended) (hosted : caller.context.regBP = 0) :
    (ended.endSend image prevRegE).context.regM = launched.context.regM := by
  have bottom : ended.context.stack ended.context.regBP = 0 := by
    rw [ends.regBP, ends.savedBP, hosted]
  simp [Evaluator.endSend, EvaluationContext.popLaunchFrame, EvaluationContext.pop, bottom,
    ends.regM]

/-- A caller with a frame gets all but E and its work list back from there. -/
theorem Alone.endSend_framed {caller launched ended : Evaluator} (prevRegE : Word)
    (ends : Alone image caller launched ended) (framed : Framed image caller)
    (inner : caller.context.regBP ≠ 0) :
    (ended.endSend image prevRegE).context.regS = caller.context.regS ∧
      (ended.endSend image prevRegE).context.regM = caller.context.regM ∧
      (ended.endSend image prevRegE).context.regE = prevRegE ∧
      (ended.endSend image prevRegE).context.regBP = caller.context.regBP ∧
      (ended.endSend image prevRegE).context.regSP = caller.context.regSP ∧
      (ended.endSend image prevRegE).context.regPC = caller.context.regPC := by
  have below : ended.context.stack ended.context.regBP = caller.context.regBP := by
    rw [ends.regBP, ends.savedBP]
  have room := framed.room inner
  have receiver := ends.operands (caller.context.regBP - 1) (by omega)
  have code := ends.operands (caller.context.regBP - 2) (by omega)
  simp only [Evaluator.endSend]
  rw [EvaluationContext.popLaunchFrame_inner _ _ (by rw [below]; exact inner), below]
  refine ⟨?_, ?_, rfl, rfl, ?_, ?_⟩
  · rw [receiver, framed.receiver inner]
  · rw [code, framed.code inner]
  · rw [ends.senderSP, ends.regBP]
  · rw [ends.regBP, ends.savedPC]

/-- Code `1` launches, `10` and `11` run a primitive, `10` with an environment; every other code
object answers its receiver. -/
def loading : Image where
  nilObj := 0
  trueObj := 1
  falseObj := 2
  isBlock _ := false
  isLauncher code := code == 1
  methodTempCount _ := 0
  blockTempCount _ := 0
  methodNeedsEnvironment code := code == 10
  blockCapturesSelf _ := false
  blockMethod code := code
  closureReturnMethod := 3
  executableCodeWork code :=
    if code = 1 then [.dispatchMessage 7 0]
    else if code = 10 ∨ code = 11 then [.primitive, .return] else [.loadRwithSelf, .return]

def loading_wellFormed : WellFormed loading where
  depth _ _ := 0
  start := answerSelf_wellFormed.start
  operands code position operation ordinary found := by
    have other : code ≠ 1 := by simpa [loading] using ordinary
    have inWork := List.mem_of_getElem? found
    simp only [loading, other, if_false] at inWork
    split at inWork <;> simp at inWork <;> rcases inWork with rfl | rfl <;> decide
  flow code position operation ordinary found next member := by
    have other : code ≠ 1 := by simpa [loading] using ordinary
    exact Nat.zero_le _
  stores code position operation ordinary found := by
    have other : code ≠ 1 := by simpa [loading] using ordinary
    have inWork := List.mem_of_getElem? found
    simp only [loading, other, if_false] at inWork
    split at inWork <;> simp at inWork <;> rcases inWork with rfl | rfl <;>
      simp [Operation.stores]
  primitives _ _ _ _ := rfl

/-- The send of `7` to a receiver that answers itself, one fetched operation after the other. -/
theorem loading_sends {caller launched dispatching invoked answering returning : Evaluator}
    (fresh : 1 ≠ caller.context.regM)
    (sent : caller.sendToWith loading 1 5 [] = some launched)
    (dispatch : launched.nextOperation = (some (.dispatchMessage 7 0), dispatching))
    (enters : dispatching.invokeWith loading 12 dispatching.regR 0 = some invoked)
    (answer : invoked.nextOperation = (some .loadRwithSelf, answering))
    (leave : Evaluator.nextOperation { answering with regR := answering.context.regS } =
      (some .return, returning))
    (exhausted : (returning.visitOpReturn loading).nextOperation.1 = none) :
    NativeSend loading caller 7 5 []
      ((returning.visitOpReturn loading).nextOperation.2.endSend loading
        launched.context.regE) := by
  have first : Run loading StaysAbove (Machine.above true caller launched) _ :=
    @Run.step _ _ _ _ _ .enter (.refl _) trivial (.invoke 12 0 ⟨rfl, dispatch⟩ rfl rfl enters)
  have second : Run loading StaysAbove (Machine.above true caller launched) _ :=
    @Run.step _ _ _ _ _ .stay first trivial (.execute ⟨rfl, answer⟩ rfl)
  have third : Run loading StaysAbove (Machine.above true caller launched) _ :=
    @Run.step _ _ _ _ _ .return second (List.cons_ne_nil _ _) (.return ⟨rfl, leave⟩)
  exact .returns rfl rfl rfl rfl fresh sent third rfl rfl (Prod.ext exhausted rfl)

/-- Native code sends while the method `11` runs, which has no environment. -/
theorem loading_withoutEnvironment : ∃ (machine : Machine) (after : Evaluator),
    Run loading HomesActive (Machine.start loading fun _ => 0) machine ∧
      NativeSend loading machine.evaluator 7 5 [] after ∧ Sheltered loading machine.evaluator := by
  have sent : Run loading HomesActive (Machine.start loading fun _ => 0) _ :=
    @Run.step _ _ _ _ _ .enter (.refl _) trivial (.sendToWith 7 1 5 [] rfl rfl rfl rfl rfl rfl)
  have invoked : Run loading HomesActive (Machine.start loading fun _ => 0) _ :=
    @Run.step _ _ _ _ _ .enter sent trivial (.invoke 11 9 ⟨rfl, rfl⟩ rfl rfl rfl)
  have primitive : Run loading HomesActive (Machine.start loading fun _ => 0) _ :=
    @Run.step _ _ _ _ _ .stay invoked trivial (.primitive ⟨rfl, rfl⟩)
  exact ⟨_, _, primitive, loading_sends (by decide) rfl rfl rfl rfl rfl (by decide +kernel),
    ⟨by decide, rfl, rfl⟩⟩

/-- Sends from native code change no register of any state that a run reaches. -/
def SendsTransparent (image : Image) : Prop :=
  ∀ stack (machine : Machine) symbol receiver arguments after,
    Run image HomesActive (Machine.start image stack) machine → machine.control = .native →
    NativeSend image machine.evaluator symbol receiver arguments after →
    Transparent machine.evaluator after

end Egg.Evaluation
