import Egg.Evaluation.NonLocalReturn

/-! When a non-local return reaches its own home only. -/
namespace Egg.Evaluation

variable {image : Image} {methods : ReturnMethods} {wellFormed : WellFormed image}

theorem Evaluator.invokeWith_built {evaluator entered : Evaluator}
    {method receiver fresh : Word}
    (invoked : evaluator.invokeWith image method receiver fresh = some entered) :
    ∃ environment, EvaluationContext.FrameBuilt evaluator.context image.nilObj receiver method
      environment (image.methodTempCount method) entered.context := by
  simp only [invokeWith, buildMethodFrameFor, Option.map_eq_some_iff] at invoked
  obtain ⟨context, build, rfl⟩ := invoked
  exact ⟨_, EvaluationContext.buildFrameFor_spec build⟩

/-- The frame that `canReturnTo:` compares with lies below every frame of the sender. -/
theorem Evaluator.nativeStackBP_eq {evaluator : Evaluator}
    {process framePointer nativeStack : Word} {bp : Int}
    (probed : evaluator.nativeStackBP image methods process framePointer nativeStack = some bp) :
    bp = evaluator.context.regSP - 11 - image.methodTempCount methods.canReturnTo := by
  simp only [nativeStackBP, Option.bind_eq_bind, Option.bind_eq_some_iff] at probed
  obtain ⟨checking, checked, answering, answered, same⟩ := probed
  obtain ⟨_, outer⟩ := invokeWith_built checked
  obtain ⟨_, inner⟩ := invokeWith_built answered
  obtain ⟨_, _, _, _, _, moved, _⟩ :=
    evaluator.context.pushAll_spec [process, framePointer]
  have outerSP := outer.regSP
  have innerBP := inner.regBP
  simp only [EvaluationContext.push_regSP, List.length_cons, List.length_nil] at outerSP innerBP moved
  have final : answering.context.regBP = bp := Option.some.inj same
  lia

/-- Only method activations have had a send from native code end in them. -/
def MethodsReentered (image : Image) (machine : Machine) : Prop :=
  ∀ activation ∈ machine.activations, activation.reentered = true →
    image.isBlock activation.code = false

theorem MethodsReentered.step {machine next : Machine} {action : Action}
    (reentered : MethodsReentered image machine) (valid : Valid wellFormed machine)
    (step : Step image machine action next) : MethodsReentered image next := by
  have entered : ∀ {launch sender entered outer}, outer ⊆ machine.activations →
      MethodsReentered image (machine.activate launch sender entered outer) := by
    intro launch sender entered outer subset activation member mark
    rcases List.mem_cons.mp member with same | old
    · rw [same] at mark; cases mark
    · exact reentered activation (subset old) mark
  have resumed : ∀ {control evaluator outer}, outer ⊆ machine.activations →
      MethodsReentered image (machine.resume control false evaluator outer) := by
    intro control evaluator outer subset activation member mark
    cases outer with
    | nil => cases member
    | cons top rest =>
      rcases List.mem_cons.mp member with same | old
      · rw [same] at mark; cases mark
      · exact reentered activation (subset (List.mem_cons_of_mem _ old)) mark
  cases step with
  | execute | identifier | block | undermessage | primitive | finish | failPrimitive
  | failPrimitiveWith => exact reentered
  | invoke | messageNotUnderstood | nonLocalReturn | perform | sendToWith =>
    exact entered (List.Subset.refl _)
  | evaluateClosure closure native active =>
    refine entered ?_
    rw [active]
    exact List.subset_cons_self _ _
  | returnTo => exact resumed (belowHome_suffix _ _).subset
  | «return» => exact resumed (List.tail_suffix _).subset
  | @endSend launcher outer fetched running exhausted active launch =>
    intro activation member mark
    cases outer with
    | nil => cases member
    | cons sender rest =>
      rcases List.mem_cons.mp member with same | old
      · have chain := valid.chain
        rw [active] at chain
        have native := chain.2.1.position
        rw [Activation.sentBy, if_pos launch] at native
        rw [same]
        exact (native.failing rfl).2.1
      · exact reentered activation (by simp [active, old]) mark

/-- A block's E is its own closure. -/
theorem Valid.blockEnvironment {machine : Machine} {top : Activation} {outer : List Activation}
    (valid : Valid wellFormed machine) (reentered : MethodsReentered image machine)
    (active : machine.activations = top :: outer) (isBlock : image.isBlock top.code = true) :
    machine.evaluator.context.regE = top.environment := by
  refine (valid.current top outer active).regE ?_
  cases mark : top.reentered with
  | false => rfl
  | true =>
    have method := reentered top (by simp [active]) mark
    rw [isBlock] at method
    cases method

/-- Only the block operation creates closures. -/
theorem Step.keepsClosures {machine next : Machine} {action : Action}
    (step : Step image machine action next)
    (other : ∀ compiledCode fetched, ¬ machine.Fetches (.block compiledCode) fetched) :
    next.evaluator.closures = machine.evaluator.closures := by
  have fetched : ∀ {operation fetched}, machine.Fetches operation fetched →
      fetched.closures = machine.evaluator.closures := by
    intro operation fetched fetches
    rw [(Evaluator.nextOperation_some fetches.2).2]
  have invoked : ∀ {evaluator entered : Evaluator} {method receiver fresh},
      evaluator.invokeWith image method receiver fresh = some entered →
      entered.closures = evaluator.closures := by
    intro evaluator entered method receiver fresh success
    simp only [Evaluator.invokeWith, Option.map_eq_some_iff] at success
    obtain ⟨context, -, rfl⟩ := success
    rfl
  cases step with
  | @execute operation _ done fetches executed =>
    rw [← fetched fetches]
    cases operation <;> simp only [Evaluator.execute, Option.some.injEq, reduceCtorEq] at executed
    case jumpFalse | jumpTrue => subst executed; simp only [Machine.stay]; split <;> rfl
    all_goals subst executed; rfl
  | identifier value fetches | undermessage answer fetches | returnTo fetches | «return» fetches
  | primitive fetches =>
    have same := fetched fetches
    exact same
  | block fresh fetches => exact absurd fetches (other _ _)
  | invoke method fresh fetches isMethod ordinary success =>
    have same := fetched fetches
    exact (invoked success).trans same
  | messageNotUnderstood array dnu fresh fetches isMethod ordinary success =>
    have same := fetched fetches
    exact (invoked success).trans same
  | nonLocalReturn fresh fetches isMethod ordinary success =>
    have same := fetched fetches
    exact (invoked success).trans same
  | finish | failPrimitive => rfl
  | failPrimitiveWith =>
    simp only [Machine.stay, Evaluator.failPrimitiveWith]
    split <;> rfl
  | evaluateClosure closure native active isBlock ordinary success =>
    simp only [Evaluator.evaluateClosureWithArgs, Option.map_eq_some_iff] at success
    obtain ⟨context, -, rfl⟩ := success
    rfl
  | perform method arguments fresh native busy isMethod ordinary success =>
    have same := invoked success
    exact same
  | sendToWith symbol launcher receiver arguments native isLauncher isMethod none work success =>
    simp only [Evaluator.sendToWith, Option.map_eq_some_iff] at success
    obtain ⟨context, -, rfl⟩ := success
    rfl
  | endSend running exhausted =>
    simp only [Evaluator.nextOperation, Prod.mk.injEq] at exhausted
    obtain ⟨-, rfl⟩ := exhausted
    rfl

/-- Every activation satisfies a condition on itself and on those below it. -/
def EachAbove (holds : Activation → List Activation → Prop) : List Activation → Prop
  | [] => True
  | top :: outer => holds top outer ∧ EachAbove holds outer

theorem EachAbove.suffix {holds : Activation → List Activation → Prop}
    {activations outer : List Activation} (each : EachAbove holds activations)
    (suffix : outer <:+ activations) : EachAbove holds outer := by
  induction activations with
  | nil => rw [List.suffix_nil.mp suffix]; trivial
  | cons top rest ih =>
    rcases List.suffix_cons_iff.mp suffix with same | further
    · rw [same]; exact each
    · exact ih each.2 further

theorem EachAbove.imp {holds holds' : Activation → List Activation → Prop}
    {activations : List Activation} (each : EachAbove holds activations)
    (implies : ∀ activation outer, activation ∈ activations → holds activation outer →
      holds' activation outer) : EachAbove holds' activations := by
  induction activations with
  | nil => trivial
  | cons top rest ih =>
    exact ⟨implies top rest (List.mem_cons_self ..) each.1,
      ih each.2 fun activation outer member => implies activation outer
        (List.mem_cons_of_mem _ member)⟩

/-- What a run keeps: a closure remembers the frame of its home, and the activations that
`canReturnTo:` has let through lie above an active home. -/
structure Sound (wellFormed : WellFormed image) (state : Tracked) : Prop where
  valid : Valid wellFormed state.machine
  numbered : Numbered state.machine
  reentered : MethodsReentered image state.machine
  remembered : ∀ closure home, state.homes closure = some home →
    (state.machine.evaluator.closures closure).home = some home.frame ∧
      home.activation < state.machine.serials
  framed : ∀ closure home, state.homes closure = some home →
    ∀ activation ∈ state.machine.frames, activation.serial = home.activation →
      activation.bp = home.frame ∧ activation.launch = false
  used : ∀ serial home, state.returning serial = some home → serial < state.machine.serials
  returning : EachAbove (fun activation outer => ∀ home,
    state.returning activation.serial = some home →
      ∃ other ∈ outer, other.serial = home.activation ∧ other.bp = home.frame ∧
        other.launch = false) state.machine.frames

theorem Reframes.moves {machine next : Machine} (reframes : Reframes machine next) :
    machine.serials ≤ next.serials ∧
      (next.frames <:+ machine.frames ∨ ∃ entered outer, outer <:+ machine.frames ∧
        next.frames = entered :: outer ∧ machine.serials ≤ entered.serial) := by
  cases reframes with
  | drop suffix same => exact ⟨by lia, Or.inl suffix⟩
  | enter entered outer suffix frames serial next =>
    exact ⟨by lia, Or.inr ⟨entered, outer, suffix, frames, by lia⟩⟩

theorem Run.serials_le {allowed : Machine → Action → Prop} {first last : Machine}
    (run : Run image allowed first last) : first.serials ≤ last.serials := by
  induction run with
  | refl => exact Nat.le_refl _
  | step _ _ step ih => exact Nat.le_trans ih step.reframes.moves.1

namespace Sound

variable {state : Tracked} {next : Machine}

/-- A machine that drops some activations, or enters a new one, stays sound as long as it
creates no closure. -/
theorem move (sound : Sound wellFormed state) (valid : Valid wellFormed next)
    (numbered : Numbered next) (reentered : MethodsReentered image next)
    (closures : next.evaluator.closures = state.machine.evaluator.closures)
    (serials : state.machine.serials ≤ next.serials)
    (frames : next.frames <:+ state.machine.frames ∨ ∃ entered outer,
      outer <:+ state.machine.frames ∧ next.frames = entered :: outer ∧
        state.machine.serials ≤ entered.serial) :
    Sound wellFormed { state with machine := next } where
  valid := valid
  numbered := numbered
  reentered := reentered
  remembered closure home tracked := by
    obtain ⟨same, used⟩ := sound.remembered closure home tracked
    rw [closures]
    exact ⟨same, Nat.lt_of_lt_of_le used serials⟩
  framed closure home tracked activation member serial := by
    obtain ⟨_, used⟩ := sound.remembered closure home tracked
    have old := sound.framed closure home tracked activation
    rcases frames with suffix | ⟨entered, outer, suffix, shape, fresh⟩
    · exact old (suffix.subset member) serial
    · rw [shape] at member
      rcases List.mem_cons.mp member with new | further
      · rw [new] at serial; lia
      · exact old (suffix.subset further) serial
  used serial home passed := Nat.lt_of_lt_of_le (sound.used serial home passed) serials
  returning := by
    rcases frames with suffix | ⟨entered, outer, suffix, shape, fresh⟩
    · exact sound.returning.suffix suffix
    · simp only [shape]
      refine ⟨fun home passed => ?_, sound.returning.suffix suffix⟩
      have used := sound.used _ home passed
      lia

theorem step (sound : Sound wellFormed state) {action : Action}
    (step : Step image state.machine action next)
    (allowed : HomesActive state.machine action)
    (other : ∀ compiledCode fetched, ¬ state.machine.Fetches (.block compiledCode) fetched) :
    Sound wellFormed { state with machine := next } :=
  sound.move (sound.valid.step allowed step) (sound.numbered.step step.reframes)
    (sound.reentered.step sound.valid step) (step.keepsClosures other) step.reframes.moves.1
    step.reframes.moves.2

/-- A new closure belongs to the activation that creates it, or to the home of its block. -/
theorem block (sound : Sound wellFormed state) {compiledCode : Word} {fetched : Evaluator}
    (fresh : Word) (fetches : state.machine.Fetches (.block compiledCode) fetched) :
    Sound wellFormed
      { state with
        machine := state.machine.stay .running
          (fetched.captureClosure image compiledCode fresh)
        homes := Function.update state.homes fresh (state.creator image) } := by
  have valid := sound.valid.step (show HomesActive state.machine .stay from trivial)
    (Step.block fresh fetches)
  obtain ⟨top, outer, active, sent, chain, found, moved⟩ :=
    sound.valid.holds.fetched (sound.valid.busy fetches.1) fetches
  have created : ∀ home, state.creator image = some home →
      (if image.isBlock state.machine.evaluator.context.regM then
        (state.machine.evaluator.closures state.machine.evaluator.context.regE).home
        else some state.machine.evaluator.context.regBP) = some home.frame ∧
      home.activation < state.machine.serials ∧
      ∀ activation ∈ state.machine.frames, activation.serial = home.activation →
        activation.bp = home.frame ∧ activation.launch = false := by
    intro home creator
    simp only [Tracked.creator, active] at creator
    rw [sent.regM]
    cases kind : image.isBlock top.code with
    | true =>
      simp only [kind, if_true] at creator ⊢
      rw [sound.valid.blockEnvironment sound.reentered active kind]
      exact ⟨(sound.remembered _ home creator).1, (sound.remembered _ home creator).2,
        sound.framed _ home creator⟩
    | false =>
      simp only [kind, Bool.false_eq_true, if_false, Option.some.injEq] at creator ⊢
      subst creator
      have member : top.forget ∈ state.machine.frames :=
        List.mem_map_of_mem (by simp [active])
      have used := sound.numbered.used top.forget member
      refine ⟨sent.regBP, used, fun activation framed serial => ?_⟩
      obtain rfl := sound.numbered.eq_of_serial framed member serial
      exact ⟨rfl, chain.head.ordinary found (by simp)⟩
  refine {
    valid := valid
    numbered := sound.numbered.step (Step.reframes (Step.block fresh fetches))
    reentered := sound.reentered.step sound.valid (Step.block fresh fetches)
    remembered := fun closure home tracked => ?_
    framed := fun closure home tracked => ?_
    used := sound.used
    returning := sound.returning }
  · subst moved
    by_cases same : closure = fresh
    · subst same
      simp only [Function.update_self] at tracked
      simp only [Machine.stay, Evaluator.captureClosure, Function.update_self]
      exact ⟨(created home tracked).1, (created home tracked).2.1⟩
    · simp only [Function.update_of_ne same] at tracked
      simp only [Machine.stay, Evaluator.captureClosure, Function.update_of_ne same]
      exact sound.remembered closure home tracked
  · by_cases same : closure = fresh
    · subst same
      simp only [Function.update_self] at tracked
      exact (created home tracked).2.2
    · simp only [Function.update_of_ne same] at tracked
      exact sound.framed closure home tracked

end Sound

/-- Where a non-local return gets to `canReturnTo:`. -/
structure Arrives (image : Image) (methods : ReturnMethods) (machine entered : Machine)
    (bp : Int) (inner waiting : Activation) : Prop where
  active : entered.activations = inner :: waiting :: machine.activations
  serial : inner.serial = entered.serials - 1
  positive : 0 < entered.serials
  fresh : machine.serials ≤ inner.serial
  below : bp < inner.bp
  reach : bp = machine.evaluator.context.regSP - methods.reach image

theorem NonLocalReturn.arrives {machine entered : Machine} {closure : Word}
    {homeFrame : Option Int} {bp : Int}
    (returns : NonLocalReturn image methods machine closure homeFrame bp entered) :
    ∃ inner waiting, Arrives image methods machine entered bp inner waiting := by
  cases returns with
  | @intro fetched returning sending selector sent entered bp fresh inner process framePointer
      nativeStack fetches isMethod ordinary returned run same closures fetches' pushed isMethod'
      ordinary' invoked probed =>
    obtain ⟨environment, built⟩ := Evaluator.invokeWith_built invoked
    have lower := Evaluator.nativeStackBP_eq probed
    have regBP := built.regBP
    have regSP := built.regSP
    obtain ⟨_, returner⟩ := Evaluator.invokeWith_built returned
    have base := returner.regSP
    have unmoved := congrArg (·.context.regSP) (Evaluator.nextOperation_some fetches.2).2
    simp only [EvaluationContext.push_regSP, EvaluationContext.incRegPC_regSP] at base unmoved
    have serials := run.serials_le
    refine ⟨sending.newActivation false sent entered, machine.newActivation false
      { fetched with context := fetched.context.push fetched.regR } returning, ?_, ?_, ?_, ?_, ?_, ?_⟩
    · exact congrArg _ same
    · rfl
    · exact Nat.succ_pos _
    · exact Nat.le_trans (Nat.le_succ _) serials
    · show bp < entered.context.regBP
      lia
    · rw [ReturnMethods.reach]
      lia

/-- The closure that returns is the block's, and its home is the one it remembers. -/
theorem NonLocalReturn.remembered {machine entered : Machine} {closure : Word}
    {homeFrame : Option Int} {bp : Int}
    (returns : NonLocalReturn image methods machine closure homeFrame bp entered) :
    homeFrame = (machine.evaluator.closures machine.evaluator.context.regE).home := by
  cases returns with
  | intro fresh inner process framePointer nativeStack fetches =>
    rw [(Evaluator.nextOperation_some fetches.2).2]
    rfl

namespace Sound

variable {state : Tracked}

theorem nonLocalReturn (sound : Sound wellFormed state) {closure : Word}
    {homeFrame : Option Int} {bp : Int} {entered : Machine}
    (returns : NonLocalReturn image methods state.machine closure homeFrame bp entered) :
    Sound wellFormed { state with machine := entered } := by
  cases returns with
  | @intro fetched returning sending selector sent entered bp fresh inner process framePointer
      nativeStack fetches isMethod ordinary returned run same closures fetches' pushed isMethod'
      ordinary' invoked =>
    have first := Step.nonLocalReturn fresh fetches isMethod ordinary returned
    have second := Step.invoke methods.nonLocalReturnHome inner fetches' isMethod' ordinary' invoked
    have notBlock : ∀ compiledCode other, ¬ state.machine.Fetches (.block compiledCode) other := by
      intro compiledCode other fetches''
      have clash := fetches.2.symm.trans fetches''.2
      simp at clash
    have notBlock' : ∀ compiledCode other, ¬ sending.Fetches (.block compiledCode) other := by
      intro compiledCode other fetches''
      have clash := fetches'.2.symm.trans fetches''.2
      simp at clash
    have returning := sound.step first (show HomesActive _ .enter from trivial) notBlock
    have frames : sending.frames = (state.machine.activate false
        { fetched with context := fetched.context.push fetched.regR } _
        state.machine.activations).frames := congrArg (List.map Activation.forget) same
    have reentered : MethodsReentered image sending := by
      intro activation member
      rw [same] at member
      exact returning.reentered activation member
    have waiting := returning.move (returning.valid.run run) (returning.numbered.run run)
      reentered (closures.trans (first.keepsClosures notBlock).symm) run.serials_le
      (Or.inl (frames ▸ List.suffix_refl _))
    exact waiting.step second (show HomesActive _ .enter from trivial) notBlock'

end Sound

/-- What `canReturnTo:` gets to compare is the frame of the closure's home. -/
theorem NonLocalReturn.remembered_home {state : Tracked} {closure : Word}
    {homeFrame : Option Int} {bp : Int} {entered : Machine} {home : Home} {top : Activation}
    {outer : List Activation}
    (returns : NonLocalReturn image methods state.machine closure homeFrame bp entered)
    (sound : Sound wellFormed state) (active : state.machine.activations = top :: outer)
    (isBlock : image.isBlock top.code = true) (tracked : state.homes top.environment = some home) :
    homeFrame = some home.frame := by
  rw [returns.remembered, sound.valid.blockEnvironment sound.reentered active isBlock]
  exact (sound.remembered _ _ tracked).1

namespace Sound

variable {state : Tracked}

/-- An active home has a frame with a sender. -/
theorem belowHome_ne_nil {stack : Int → Word} {home : Activation}
    {activations : List Activation} (chain : Chained wellFormed Hosted stack activations)
    (member : home ∈ activations) (ordinary : home.launch = false) :
    belowHome home.bp activations ≠ [] := by
  induction activations with
  | nil => cases member
  | cons top rest ih =>
    rw [belowHome]
    split
    · next same =>
      obtain rfl := chain.eq_of_bp (List.mem_cons_self ..) member same
      cases rest with
      | nil => rw [chain.2.1] at ordinary; cases ordinary
      | cons sender outer => simp
    · next different =>
      rcases List.mem_cons.mp member with same | further
      · exact absurd (by rw [same]) different
      · exact ih chain.tail further

/-- An active home was entered by no launch, and its frame is where closures remember it. -/
theorem home_of_active (sound : Sound wellFormed state) {closure : Word} {home : Home}
    (tracked : state.homes closure = some home) (active : home.Active state.machine) :
    ∃ activation ∈ state.machine.activations, activation.serial = home.activation ∧
      activation.bp = home.frame ∧ activation.launch = false := by
  obtain ⟨activation, member, serial⟩ := active
  have framed := sound.framed closure home tracked activation.forget
    (List.mem_map_of_mem member) serial
  exact ⟨activation, member, serial, framed⟩

/-- An activation that `canReturnTo:` has let through still has its home below it. -/
theorem home_of_returning (sound : Sound wellFormed state) {top : Activation}
    {outer : List Activation} {home : Home} (active : state.machine.activations = top :: outer)
    (passed : state.returning top.serial = some home) :
    ∃ activation ∈ state.machine.activations, activation.serial = home.activation ∧
      activation.bp = home.frame ∧ activation.launch = false := by
  have returning := sound.returning
  rw [Machine.frames, active] at returning
  obtain ⟨other, member, same⟩ := returning.1 home passed
  obtain ⟨activation, below, rfl⟩ := List.mem_map.mp member
  exact ⟨activation, by simp [active, below], same⟩

/-- `canReturnTo:` lets an active home pass. -/
theorem passes (sound : Sound wellFormed state) {closure : Word} {home : Home} {entered : Machine}
    {bp : Int} {inner waiting : Activation} (tracked : state.homes closure = some home)
    (entry : Sound wellFormed { state with machine := entered })
    (arrives : Arrives image methods state.machine entered bp inner waiting)
    (active : home.Active state.machine) : ¬ home.frame < bp := by
  obtain ⟨activation, member, _, framed, _⟩ := sound.home_of_active tracked active
  have chain := entry.valid.holds.chain
  simp only [arrives.active] at chain
  have above := chain.bp_lt_of_mem (List.mem_cons_of_mem _ member)
  have below := arrives.below
  lia

end Sound

theorem canReturnTo_some (frame bp : Int) : canReturnTo (some frame) bp = !decide (frame < bp) := by
  by_cases lower : frame < bp <;> simp [canReturnTo, lower]

/-- A non-local return that keeps the condition, and any other step, keeps a run sound. -/
theorem TrackedStep.sound {state next : Tracked} {event : Event}
    (step : TrackedStep image methods state event next) (sound : Sound wellFormed state)
    (allowed : HomeActiveOrBelow image methods state event) : Sound wellFormed next := by
  cases step with
  | @other action next step notBlock _ notReturnTo =>
    refine sound.step step ?_ notBlock
    cases action with
    | returnTo frame => exact absurd rfl (notReturnTo frame)
    | _ => trivial
  | block fresh fetches => exact sound.block fresh fetches
  | @nonLocalReturn closure homeFrame bp entered home top outer active isBlock tracked returns =>
    have entry := sound.nonLocalReturn returns
    obtain ⟨inner, waiting, arrives⟩ := returns.arrives
    have serial := arrives.serial
    have positive := arrives.positive
    have fresh := arrives.fresh
    have remembered := returns.remembered_home sound active isBlock tracked
    refine ⟨entry.valid, entry.numbered, entry.reentered, entry.remembered, entry.framed, ?_, ?_⟩
    · intro other passed used
      by_cases same : other = entered.serials - 1
      · simp only
        lia
      · simp only [Function.update_of_ne same] at used
        exact entry.used other passed used
    · have returning := entry.returning
      simp only [Machine.frames, arrives.active, List.map_cons] at returning ⊢
      refine ⟨fun passed through => ?_, returning.2.imp fun activation outer member kept => ?_⟩
      · rw [show inner.forget.serial = entered.serials - 1 from serial, Function.update_self,
          remembered, canReturnTo_some] at through
        by_cases lower : home.frame < bp
        · simp [lower] at through
        · obtain rfl : home = passed := by simpa [lower] using through
          obtain ⟨activation, member, same⟩ :=
            sound.home_of_active tracked (allowed.resolve_right (arrives.reach ▸ lower))
          exact ⟨activation.forget, List.mem_cons_of_mem _ (List.mem_map_of_mem member), same⟩
      · have ordered := entry.numbered.ordered
        simp only [Machine.frames, arrives.active, List.map_cons, List.pairwise_cons] at ordered
        have less := ordered.1 activation member
        have different : activation.serial ≠ entered.serials - 1 := by
          rw [← serial]
          exact Nat.ne_of_lt less
        rw [Function.update_of_ne different]
        exact kept
  | @returnTo selector fetched top outer home active passed fetches operand =>
    obtain ⟨activation, member, _, framed, ordinary⟩ := sound.home_of_returning active passed
    refine sound.step (Step.returnTo fetches) ?_ fun compiledCode other fetches' => ?_
    · show belowHome _ _ ≠ []
      rw [operand, ← framed]
      exact Sound.belowHome_ne_nil sound.valid.holds.chain member ordinary
    · have clash := fetches.2.symm.trans fetches'.2
      simp at clash

theorem Sound.start (wellFormed : WellFormed image) (stack : Int → Word) :
    Sound wellFormed (Tracked.start image stack) where
  valid := Valid.start wellFormed stack
  numbered := Numbered.start image stack
  reentered := fun _ none => by cases none
  remembered := fun _ _ none => by cases none
  framed := fun _ _ none => by cases none
  used := fun _ _ none => by cases none
  returning := trivial

theorem TrackedRun.sound {first last : Tracked} (sound : Sound wellFormed first)
    (run : TrackedRun image methods (HomeActiveOrBelow image methods) first last) : Sound wellFormed last := by
  induction run with
  | refl => exact sound
  | step _ allowed step ih => exact step.sound ih allowed

/-- What `canReturnTo:` has decided for an activation stays decided. -/
theorem TrackedStep.keepsReturning {state next : Tracked} {event : Event} {serial : Nat}
    (step : TrackedStep image methods state event next) (used : serial < state.machine.serials) :
    next.returning serial = state.returning serial ∧ serial < next.machine.serials := by
  cases step with
  | other step =>
    have grown := step.reframes.moves.1
    exact ⟨rfl, by simp only; lia⟩
  | block fresh fetches => exact ⟨rfl, used⟩
  | nonLocalReturn active isBlock tracked returns =>
    obtain ⟨inner, waiting, arrives⟩ := returns.arrives
    have serial' := arrives.serial
    have fresh := arrives.fresh
    have positive := arrives.positive
    exact ⟨Function.update_of_ne (by lia) _ _, by simp only; lia⟩
  | returnTo active passed fetches operand => exact ⟨rfl, used⟩

theorem TrackedRun.keepsReturning {allowed : Tracked → Event → Prop} {first last : Tracked}
    {serial : Nat} (run : TrackedRun image methods allowed first last)
    (used : serial < first.machine.serials) :
    last.returning serial = first.returning serial ∧ serial < last.machine.serials := by
  induction run with
  | refl => exact ⟨rfl, used⟩
  | step _ _ step ih =>
    obtain ⟨same, used⟩ := ih
    obtain ⟨next, used⟩ := step.keepsReturning used
    exact ⟨next.trans same, used⟩

/-- A non-local return reaches the sender of its home if that is active, and is rejected
if not; on the way it unwinds nothing. -/
structure ReachesOnlyHome (image : Image) (methods : ReturnMethods) (before after : Tracked)
    (serial : Nat) (home : Home) : Prop where
  kept : ∃ inner waiting, inner.serial = serial ∧
    after.machine.activations = inner :: waiting :: before.machine.activations
  active : home.Active before.machine → after.returning serial = some home ∧
    ∀ last final, TrackedRun image methods (HomeActiveOrBelow image methods) after last →
      TrackedStep image methods last (.returnTo serial) final →
      ∃ activation ∈ last.machine.activations, activation.serial = home.activation ∧
        RestoresSender activation.sender final.machine.evaluator
  ended : ¬ home.Active before.machine → after.returning serial = none ∧
    ∀ last final, TrackedRun image methods (fun _ _ => True) after last →
      ¬ TrackedStep image methods last (.returnTo serial) final

/-- The step of `nonLocalReturn:home:` that leaves restores the sender of its home. -/
theorem TrackedStep.returnTo_restores {last final : Tracked} {serial : Nat} {home : Home}
    (step : TrackedStep image methods last (.returnTo serial) final)
    (sound : Sound wellFormed last) (passed : last.returning serial = some home) :
    ∃ activation ∈ last.machine.activations, activation.serial = home.activation ∧
      RestoresSender activation.sender final.machine.evaluator := by
  cases step with
  | @returnTo selector fetched top outer home' active passed' fetches operand =>
    obtain rfl : home = home' := Option.some.inj (passed.symm.trans passed')
    obtain ⟨activation, member, same, framed, ordinary⟩ := sound.home_of_returning active passed
    have below : belowHome (fetched.context.operandAt 0) last.machine.activations ≠ [] := by
      rw [operand, ← framed]
      exact Sound.belowHome_ne_nil sound.valid.holds.chain member ordinary
    obtain ⟨found, _, _, member', framed', _, _, restores, _⟩ :=
      sound.valid.holds.returnTo_restores fetches below
    obtain rfl := sound.valid.holds.chain.eq_of_bp member member'
      (framed.trans (operand.symm.trans framed'.symm))
    exact ⟨activation, member, same, restores⟩

/-- `canReturnTo:` lets every home pass that is in reach. -/
theorem TrackedStep.decided {before after : Tracked} {serial : Nat} {home : Home}
    (step : TrackedStep image methods before (.nonLocalReturn serial home) after)
    (sound : Sound wellFormed before) :
    after.returning serial =
      if home.frame < before.machine.evaluator.context.regSP - methods.reach image then none
      else some home := by
  cases step with
  | @nonLocalReturn closure homeFrame bp entered _ top outer active isBlock tracked returns =>
    obtain ⟨inner, waiting, arrives⟩ := returns.arrives
    refine (Function.update_self ..).trans ?_
    rw [returns.remembered_home sound active isBlock tracked, canReturnTo_some, ← arrives.reach]
    by_cases lower : home.frame < bp <;> simp [lower]

theorem TrackedStep.returnTo_passed {last final : Tracked} {serial : Nat}
    (step : TrackedStep image methods last (.returnTo serial) final) :
    ∃ home, last.returning serial = some home := by
  cases step with
  | returnTo active passed => exact ⟨_, passed⟩

/-- In a run whose non-local returns so far met the condition, the next one reaches only its
own home exactly when it meets the condition too. -/
theorem nonLocalReturn_reachesOnlyHome_iff (wellFormed : WellFormed image)
    (stack : Int → Word) {before after : Tracked} {serial : Nat} {home : Home}
    (run : TrackedRun image methods (HomeActiveOrBelow image methods)
      (Tracked.start image stack) before)
    (step : TrackedStep image methods before (.nonLocalReturn serial home) after) :
    ReachesOnlyHome image methods before after serial home ↔
      home.Active before.machine ∨
        home.frame < before.machine.evaluator.context.regSP - methods.reach image := by
  have sound := run.sound (Sound.start wellFormed stack)
  have decided := step.decided sound
  have next : HomeActiveOrBelow image methods before (.nonLocalReturn serial home) →
      Sound wellFormed after := step.sound sound
  cases step with
  | @nonLocalReturn closure homeFrame bp entered _ top outer active isBlock tracked returns =>
    obtain ⟨inner, waiting, arrives⟩ := returns.arrives
    have positive := arrives.positive
    have passes := sound.passes tracked (sound.nonLocalReturn returns) arrives
    rw [arrives.reach] at passes
    constructor
    · intro reaches
      by_contra neither
      obtain ⟨ended, higher⟩ := not_or.mp neither
      have rejected := (reaches.ended ended).1
      rw [decided, if_neg higher] at rejected
      cases rejected
    · intro condition
      refine ⟨⟨inner, waiting, arrives.serial, arrives.active⟩, fun present => ?_, fun gone => ?_⟩
      · have through := decided.trans (if_neg (passes present))
        refine ⟨through, fun last final rest leaves => ?_⟩
        have kept := (rest.keepsReturning (show entered.serials - 1 < entered.serials by lia)).1
        exact leaves.returnTo_restores (rest.sound (next condition)) (kept.trans through)
      · have rejected := decided.trans (if_pos (condition.resolve_left gone))
        refine ⟨rejected, fun last final rest leaves => ?_⟩
        have kept := (rest.keepsReturning (show entered.serials - 1 < entered.serials by lia)).1
        obtain ⟨home', passed⟩ := leaves.returnTo_passed
        rw [kept.trans rejected] at passed
        cases passed

/-- A method `10` that answers a block `20` with a `^`, `Closure>>value` and the methods
behind `Closure>>return:`. -/
def escape : Image where
  nilObj := 0
  trueObj := 2
  falseObj := 3
  isBlock code := code == 20
  isLauncher code := code == 1
  methodTempCount code := if code = 60 then 2 else 0
  blockTempCount _ := 0
  methodNeedsEnvironment _ := false
  blockCapturesSelf _ := true
  blockMethod code := code
  closureReturnMethod := 40
  executableCodeWork code :=
    if code = 1 then [.dispatchMessage 7 0]
    else if code = 10 then [.block 20, .return]
    else if code = 20 then [.nonLocalReturn]
    else if code = 30 then [.primitive, .return, .return]
    else if code = 40 then
      [.identifier, .pushR, .identifier, .pushR, .identifier, .pushR, .dispatchMessage 8 2,
        .dropToS 3, .return]
    else [.return]

def escapeMethods : ReturnMethods where
  nonLocalReturnHome := 50
  canReturnTo := 60
  nativeStackBP := 70

/-- The operands on the stack of `Closure>>return:`. -/
def escapeDepth (code : Word) (position : Nat) : Nat :=
  if code = 40 then [0, 0, 1, 1, 2, 2, 3, 3, 0].getD position 0 else 0

/-- A property of all operations of the image's code that is not launched. -/
theorem escape_operations {holds : Word → Nat → Operation → Prop}
    (maker : ∀ entry ∈ [Operation.block 20, .return].zipIdx, holds 10 entry.2 entry.1)
    (block : ∀ entry ∈ [Operation.nonLocalReturn].zipIdx, holds 20 entry.2 entry.1)
    (value : ∀ entry ∈ [Operation.primitive, .return, .return].zipIdx, holds 30 entry.2 entry.1)
    (returner : ∀ entry ∈ [Operation.identifier, .pushR, .identifier, .pushR, .identifier, .pushR,
      .dispatchMessage 8 2, .dropToS 3, .return].zipIdx, holds 40 entry.2 entry.1)
    (other : ∀ code, code ≠ 40 → holds code 0 .return) :
    ∀ code position (operation : Operation), escape.isLauncher code = false →
      (escape.executableCodeWork code)[position]? = some operation →
      holds code position operation := by
  intro code position operation ordinary found
  have notLaunched : code ≠ 1 := by simpa [escape] using ordinary
  have member := List.mk_mem_zipIdx_iff_getElem?.mpr found
  simp only [escape, notLaunched, if_false] at member
  split at member
  · next same => subst same; exact maker _ member
  split at member
  · next same => subst same; exact block _ member
  split at member
  · next same => subst same; exact value _ member
  split at member
  · next same => subst same; exact returner _ member
  · next different =>
    obtain ⟨rfl, rfl⟩ : operation = .return ∧ position = 0 := by simpa using member
    exact other code different

def escape_wellFormed : WellFormed escape where
  depth := escapeDepth
  start code := by
    by_cases same : code = 40 <;> simp [escapeDepth, same]
  operands := escape_operations (by decide) (by decide) (by decide) (by decide)
    fun _ _ => Nat.zero_le _
  flow := escape_operations (by decide) (by decide) (by decide) (by decide)
    fun _ _ _ member => by cases member
  stores := escape_operations (by decide) (by decide) (by decide) (by decide)
    fun _ _ _ member => by cases member
  primitives code position ordinary found := by
    have method : ∀ code (position : Nat) (operation : Operation),
        escape.isLauncher code = false →
        (escape.executableCodeWork code)[position]? = some operation →
        operation = .primitive → escape.isBlock code = false :=
      escape_operations (by decide) (by decide) (by decide) (by decide)
        fun _ _ same => by cases same
    exact method code position .primitive ordinary found rfl

theorem TrackedRun.other {first middle last : Tracked}
    (run : TrackedRun image methods (HomeActiveOrBelow image methods) first middle)
    (step : TrackedStep image methods middle .other last) :
    TrackedRun image methods (HomeActiveOrBelow image methods) first last :=
  .step run (show HomeActiveOrBelow image methods middle .other from trivial) step

theorem TrackedRun.native {first middle : Tracked} {action : Action} {next : Machine}
    (run : TrackedRun image methods (HomeActiveOrBelow image methods) first middle)
    (step : Step image middle.machine action next) (native : middle.machine.control = .native)
    (stays : ∀ frame, action ≠ .returnTo frame) :
    TrackedRun image methods (HomeActiveOrBelow image methods) first { middle with machine := next } :=
  run.other (.other step (fun _ _ fetches => by cases native.symm.trans fetches.1)
    (fun _ fetches => by cases native.symm.trans fetches.1) stays)

/-- Neither creates a closure nor starts a non-local return. -/
def Plain : Option Operation → Prop
  | some (.block _) => False
  | some .nonLocalReturn => False
  | _ => True

theorem TrackedRun.plain {first middle : Tracked} {action : Action} {next : Machine}
    (run : TrackedRun image methods (HomeActiveOrBelow image methods) first middle)
    (step : Step image middle.machine action next)
    (plain : Plain middle.machine.evaluator.nextOperation.1)
    (stays : ∀ frame, action ≠ .returnTo frame) :
    TrackedRun image methods (HomeActiveOrBelow image methods) first { middle with machine := next } :=
  run.other (.other step (fun _ _ fetches => by rw [fetches.2] at plain; exact plain)
    (fun _ fetches => by rw [fetches.2] at plain; exact plain) stays)

theorem Run.stay {first middle last : Machine} (run : Run image HomesActive first middle)
    (step : Step image middle .stay last) : Run image HomesActive first last :=
  .step run (show HomesActive middle .stay from trivial) step

/-- The block is answered to the host, which then evaluates it: its home has ended, and the
block's own frame is where the home's was. -/
theorem escape_run : ∃ before after serial home,
    TrackedRun escape escapeMethods (HomeActiveOrBelow escape escapeMethods)
        (Tracked.start escape fun _ => 0) before ∧
      TrackedStep escape escapeMethods before (.nonLocalReturn serial home) after ∧
      ¬ home.Active before.machine ∧
      ¬ home.frame < before.machine.evaluator.context.regSP - escapeMethods.reach escape := by
  have sent := (@TrackedRun.refl escape escapeMethods (HomeActiveOrBelow escape escapeMethods)
    (Tracked.start escape fun _ => 0)).native (.sendToWith 7 1 5 [] rfl rfl rfl rfl rfl rfl) rfl nofun
  have invoked := sent.plain (.invoke 10 0 ⟨rfl, rfl⟩ rfl rfl rfl) trivial nofun
  have captured := invoked.other (.block 99 ⟨rfl, rfl⟩)
  have answered := captured.plain (.return ⟨rfl, rfl⟩) trivial nofun
  have ended := answered.plain (.endSend rfl rfl rfl rfl) trivial nofun
  have again := ended.native (.sendToWith 7 1 99 [] rfl rfl rfl rfl rfl rfl) rfl nofun
  have valued := again.plain (.invoke 30 0 ⟨rfl, rfl⟩ rfl rfl rfl) trivial nofun
  have primitive := valued.plain (.primitive ⟨rfl, rfl⟩) trivial nofun
  have evaluated := primitive.native (.evaluateClosure 99 rfl rfl rfl rfl rfl) rfl nofun
  refine ⟨_, _, _, _, evaluated, .nonLocalReturn rfl rfl rfl
    (.intro 0 0 0 0 0 ⟨rfl, rfl⟩ rfl rfl rfl
      (.stay (.stay (.stay (.stay (.stay (.stay (.refl _)
        (.identifier 5 ⟨rfl, rfl⟩)) (.execute ⟨rfl, rfl⟩ rfl))
        (.identifier 0 ⟨rfl, rfl⟩)) (.execute ⟨rfl, rfl⟩ rfl))
        (.identifier 65529 ⟨rfl, rfl⟩)) (.execute ⟨rfl, rfl⟩ rfl))
      rfl rfl ⟨rfl, rfl⟩ (by decide) rfl rfl rfl rfl), ?_, ?_⟩
  · rintro ⟨activation, member, serial⟩
    rcases List.mem_cons.mp member with same | outer
    · subst same; cases serial
    · rcases List.mem_cons.mp outer with same | none
      · subst same; cases serial
      · cases none
  · decide

theorem nonLocalReturn_reachesOnlyHome_iff_escape :
    ∃ (before after : Tracked) (serial : Nat) (home : Home),
      ReachesOnlyHome escape escapeMethods before after serial home ↔
        home.Active before.machine ∨
          home.frame < before.machine.evaluator.context.regSP - escapeMethods.reach escape := by
  obtain ⟨before, after, serial, home, run, step, -⟩ := escape_run
  exact ⟨before, after, serial, home,
    nonLocalReturn_reachesOnlyHome_iff escape_wellFormed (fun _ => 0) run step⟩

/-- Every non-local return reaches only its own home. -/
def NonLocalReturnsReachHome (image : Image) (methods : ReturnMethods) : Prop :=
  ∀ stack before after serial home,
    TrackedRun image methods (HomeActiveOrBelow image methods) (Tracked.start image stack) before →
    TrackedStep image methods before (.nonLocalReturn serial home) after →
    ReachesOnlyHome image methods before after serial home

/-- The return out of the block is let through although its home has ended. -/
theorem nonLocalReturn_reaches_other : ¬ NonLocalReturnsReachHome escape escapeMethods := by
  intro reaches
  obtain ⟨before, after, serial, home, run, step, ended, higher⟩ := escape_run
  have rejected := ((reaches _ before after serial home run step).ended ended).1
  have sound := run.sound (Sound.start escape_wellFormed fun _ => 0)
  rw [step.decided sound, if_neg higher] at rejected
  cases rejected

end Egg.Evaluation
