import Egg.Evaluation.Machine

/-! What every reachable stack looks like: frames linked through their saved words,
each leaving room for the operands its own code still expects. -/
namespace Egg.Evaluation

variable {image : Image}

/-- The operands a launch frame keeps for its only send. -/
def launchOperands : List Operation → Nat
  | [.dispatchMessage _ argumentCount] => argumentCount
  | _ => 0

/-- The operands an activation still counts on at a position of its work list. -/
def WellFormed.depthOf (wellFormed : WellFormed image) (activation : Activation)
    (position : Nat) : Nat :=
  if activation.launch then launchOperands (image.executableCodeWork activation.code)
  else wellFormed.depth activation.code position

/-- The lowest word of an activation's frame below which its operands are pushed. -/
def Activation.floor (image : Image) (activation : Activation) : Int :=
  activation.bp - 4 - image.temporaryCountOf activation.code

/-- SP and PC of an activation that has control, or had it when it last sent. -/
structure Position (wellFormed : WellFormed image) (activation : Activation) (sp pc : Int)
    (control : Control) : Prop where
  counted : 0 ≤ pc
  room : sp + wellFormed.depthOf activation pc.toNat ≤ activation.floor image
  failing : control = .native →
    activation.launch = false ∧ image.isBlock activation.code = false ∧
      sp + wellFormed.depthOf activation (pc.toNat + 1) ≤ activation.floor image

/-- The words of a frame, and the work list of the kind of code it runs. -/
structure FrameHeld (image : Image) (stack : Int → Word) (activation : Activation) : Prop where
  savedBP : stack activation.bp = activation.sender.context.regBP
  savedPC : stack (activation.bp + 1) = activation.sender.context.regPC
  receiver : stack (activation.bp - 1) = activation.receiver
  code : stack (activation.bp - 2) = activation.code
  environment : stack (activation.bp - 4) = activation.environment
  senderSP : activation.sender.context.regSP = activation.bp + 2
  positive : 0 < activation.bp
  operands : ∀ index, activation.bp + 2 ≤ index →
    stack index = activation.sender.context.stack index
  kind : image.isLauncher activation.code = activation.launch
  launched : activation.launch = true → ∃ selector argumentCount,
    image.executableCodeWork activation.code = [.dispatchMessage selector argumentCount] ∧
      image.isBlock activation.code = false

/-- Only words at or above the bottom of the header matter. -/
theorem FrameHeld.congr {stack stack' : Int → Word} {activation : Activation}
    (held : FrameHeld image stack activation)
    (same : ∀ index, activation.bp - 4 ≤ index → stack' index = stack index) :
    FrameHeld image stack' activation where
  savedBP := by rw [same _ (by omega), held.savedBP]
  savedPC := by rw [same _ (by omega), held.savedPC]
  receiver := by rw [same _ (by omega), held.receiver]
  code := by rw [same _ (by omega), held.code]
  environment := by rw [same _ (by omega), held.environment]
  senderSP := held.senderSP
  positive := held.positive
  operands := fun index above => by rw [same _ (by omega), held.operands index above]
  kind := held.kind
  launched := held.launched

/-- The state in which `sender` was when control passed on to the activation above it. -/
structure SentFrom (wellFormed : WellFormed image) (state : Evaluator) (control : Control)
    (sender : Activation) : Prop where
  regBP : state.context.regBP = sender.bp
  regS : state.context.regS = sender.receiver
  regM : state.context.regM = sender.code
  work : state.work = image.executableCodeWork sender.code
  regE : sender.reentered = false → state.context.regE = sender.environment
  position : Position wellFormed sender state.context.regSP state.context.regPC control

/-- Native code sends in launch frames; everything else is sent by the loop. -/
def Activation.sentBy (activation : Activation) : Control :=
  if activation.launch then .native else .running

/-- The frames of the activations, innermost first, down to the host's. -/
def FrameChain (wellFormed : WellFormed image) (stack : Int → Word) : List Activation → Prop
  | [] => True
  | [outermost] => FrameHeld image stack outermost ∧ outermost.launch = true ∧
      outermost.sender.context.regBP = 0
  | top :: sender :: outer => FrameHeld image stack top ∧
      SentFrom wellFormed top.sender top.sentBy sender ∧
      FrameChain wellFormed stack (sender :: outer)

/-- The invariant of every run. -/
structure Valid (wellFormed : WellFormed image) (machine : Machine) : Prop where
  chain : FrameChain wellFormed machine.evaluator.context.stack machine.activations
  idle : machine.activations = [] →
    machine.control = .native ∧ machine.evaluator.context.regBP = 0
  current : ∀ top outer, machine.activations = top :: outer →
    SentFrom wellFormed machine.evaluator machine.control top

/-- The frames of the activations, innermost first, down to one with a property. -/
def Chained (wellFormed : WellFormed image) (bottom : Activation → Prop) (stack : Int → Word) :
    List Activation → Prop
  | [] => True
  | [outermost] => FrameHeld image stack outermost ∧ bottom outermost
  | top :: sender :: outer => FrameHeld image stack top ∧
      SentFrom wellFormed top.sender top.sentBy sender ∧
      Chained wellFormed bottom stack (sender :: outer)

/-- The outermost activation of a chain that goes down to the host. -/
def Hosted (outermost : Activation) : Prop :=
  outermost.launch = true ∧ outermost.sender.context.regBP = 0

/-- What marks the bottom of a chain: it is never in a primitive, and being marked itself by a
native send does not matter. -/
structure Ground (image : Image) (bottom : Activation → Prop) : Prop where
  loops : ∀ activation, bottom activation →
    activation.launch = true ∨ image.isBlock activation.code = true
  unmarked : ∀ (activation : Activation) reentered, bottom activation →
    bottom { activation with reentered := reentered }

theorem Hosted.ground : Ground image Hosted :=
  ⟨fun _ hosted => Or.inl hosted.1, fun _ _ hosted => hosted⟩

theorem FrameChain.iff_chained {wellFormed : WellFormed image} {stack : Int → Word}
    {activations : List Activation} :
    FrameChain wellFormed stack activations ↔ Chained wellFormed Hosted stack activations := by
  induction activations with
  | nil => exact Iff.rfl
  | cons top rest ih =>
    cases rest with
    | nil => exact Iff.rfl
    | cons sender outer => exact and_congr Iff.rfl (and_congr Iff.rfl ih)

namespace Chained

variable {wellFormed : WellFormed image} {bottom : Activation → Prop} {stack : Int → Word}

theorem head {top : Activation} {outer : List Activation}
    (chain : Chained wellFormed bottom stack (top :: outer)) : FrameHeld image stack top := by
  cases outer with
  | nil => exact chain.1
  | cons sender rest => exact chain.1

theorem tail {top : Activation} {outer : List Activation}
    (chain : Chained wellFormed bottom stack (top :: outer)) : Chained wellFormed bottom stack outer := by
  cases outer with
  | nil => trivial
  | cons sender rest => exact chain.2.2

/-- An inner frame lies strictly below the frame of its sender. -/
theorem bp_lt {top sender : Activation} {outer : List Activation}
    (chain : Chained wellFormed bottom stack (top :: sender :: outer)) : top.bp + 6 ≤ sender.bp := by
  have held := chain.1.senderSP
  have room := chain.2.1.position.room
  simp only [Activation.floor] at room
  omega

/-- Only words at or above the innermost frame matter. -/
theorem congr {top : Activation} {outer : List Activation} {stack' : Int → Word}
    (chain : Chained wellFormed bottom stack (top :: outer))
    (same : ∀ index, top.bp - 4 ≤ index → stack' index = stack index) :
    Chained wellFormed bottom stack' (top :: outer) := by
  induction outer generalizing top with
  | nil => exact ⟨chain.1.congr same, chain.2⟩
  | cons sender rest ih =>
    have below := chain.bp_lt
    exact ⟨chain.1.congr same, chain.2.1, ih chain.2.2 fun index above => same index (by omega)⟩

/-- Whether a send from native code has ended in the innermost activation does not matter. -/
theorem reenter {top : Activation} {outer : List Activation} (ground : Ground image bottom)
    (reentered : Bool) (chain : Chained wellFormed bottom stack (top :: outer)) :
    Chained wellFormed bottom stack ({ top with reentered := reentered } :: outer) := by
  have held : FrameHeld image stack { top with reentered := reentered } := {
    savedBP := chain.head.savedBP
    savedPC := chain.head.savedPC
    receiver := chain.head.receiver
    code := chain.head.code
    environment := chain.head.environment
    senderSP := chain.head.senderSP
    positive := chain.head.positive
    operands := chain.head.operands
    kind := chain.head.kind
    launched := chain.head.launched }
  cases outer with
  | nil => exact ⟨held, ground.unmarked top reentered chain.2⟩
  | cons sender rest => exact ⟨held, chain.2⟩

/-- Leaving a frame that is not a launch frame reloads what its sender had. -/
theorem popFrame {top sender : Activation} {outer : List Activation}
    {context : EvaluationContext}
    (chain : Chained wellFormed bottom context.stack (top :: sender :: outer)) :
    let left := { context with regBP := top.bp }.popFrame
    left.regS = top.sender.context.regS ∧ left.regM = top.sender.context.regM ∧
      left.regE = sender.environment ∧ left.regBP = top.sender.context.regBP ∧
      left.regPC = top.sender.context.regPC ∧ left.regSP = top.sender.context.regSP ∧
      left.stack = context.stack := by
  have held := chain.head
  have outerHeld := chain.tail.head
  have sent := chain.2.1
  simp only [EvaluationContext.popFrame, EvaluationContext.pop]
  rw [held.savedBP, held.savedPC, sent.regBP, outerHeld.receiver, outerHeld.code,
    outerHeld.environment, sent.regS, sent.regM, held.senderSP]
  simp only [true_and, and_true]
  omega

/-- The frames of the outer activations lie above the innermost one. -/
theorem bp_lt_of_mem {top inner : Activation} {outer : List Activation}
    (chain : Chained wellFormed bottom stack (top :: outer)) (member : inner ∈ outer) :
    top.bp < inner.bp := by
  induction outer generalizing top with
  | nil => cases member
  | cons sender rest ih =>
    have below := chain.bp_lt
    rcases List.mem_cons.mp member with same | further
    · subst same; omega
    · have lower := ih chain.tail further; omega

/-- Different activations have different frames. -/
theorem eq_of_bp {activations : List Activation} {left right : Activation}
    (chain : Chained wellFormed bottom stack activations) (leftMember : left ∈ activations)
    (rightMember : right ∈ activations) (same : left.bp = right.bp) : left = right := by
  induction activations with
  | nil => cases leftMember
  | cons top rest ih =>
    rcases List.mem_cons.mp leftMember with leftTop | leftOuter <;>
      rcases List.mem_cons.mp rightMember with rightTop | rightOuter
    · rw [leftTop, rightTop]
    · have lower := chain.bp_lt_of_mem rightOuter
      rw [leftTop] at same; omega
    · have lower := chain.bp_lt_of_mem leftOuter
      rw [rightTop] at same; omega
    · exact ih chain.tail leftOuter rightOuter

/-- A home frame with a sender is the frame of an activation linked to that sender. -/
theorem of_belowHome {home : Int} {sender : Activation} {activations outer : List Activation}
    (chain : Chained wellFormed bottom stack activations)
    (below : belowHome home activations = sender :: outer) :
    ∃ activation ∈ activations, activation.bp = home ∧
      Chained wellFormed bottom stack (activation :: sender :: outer) := by
  induction activations with
  | nil => cases below
  | cons top rest ih =>
    rw [belowHome] at below
    split at below
    · next same => subst below; exact ⟨top, List.mem_cons_self .., same, chain⟩
    · obtain ⟨activation, member, same, linked⟩ := ih chain.tail below
      exact ⟨activation, List.mem_cons_of_mem _ member, same, linked⟩

end Chained

/-- What every state keeps: frames down to the bottom, and where control is in the innermost. -/
structure Holds (wellFormed : WellFormed image) (bottom : Activation → Prop)
    (machine : Machine) : Prop where
  chain : Chained wellFormed bottom machine.evaluator.context.stack machine.activations
  current : ∀ top outer, machine.activations = top :: outer →
    SentFrom wellFormed machine.evaluator machine.control top

theorem Valid.holds {wellFormed : WellFormed image} {machine : Machine}
    (valid : Valid wellFormed machine) : Holds wellFormed Hosted machine :=
  ⟨FrameChain.iff_chained.mp valid.chain, valid.current⟩

theorem Holds.valid {wellFormed : WellFormed image} {machine : Machine}
    (holds : Holds wellFormed Hosted machine) (busy : machine.activations ≠ []) :
    Valid wellFormed machine :=
  ⟨FrameChain.iff_chained.mpr holds.chain, fun none => absurd none busy, holds.current⟩

end Egg.Evaluation
