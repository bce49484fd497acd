import Egg.Evaluation.Reachable

/-! The room every activation of a run has for what its code may still push. -/
namespace Egg.Evaluation

variable {image : Image}

/-- The operands above a launch frame: none for a send without arguments. -/
def Image.launchedOperands (image : Image) (code : Word) : Nat :=
  match image.isLauncher code, launchOperands (image.executableCodeWork code) with
  | true, count + 1 => count + 2
  | _, _ => 0

/-- How many operands an operation pushes. -/
def Operation.pushed : Operation → Nat
  | pushR => 1
  | _ => 0

/-- How many operands an operation takes off the stack for good. -/
def Operation.dropped : Operation → Nat
  | dropToS count => count
  | popR => 1
  | _ => 0

/-- How many words code may push from each of its positions on, where that is bounded: its
operands, a frame's two saved words where it calls, and before them what a failed lookup or a `^`
hands to the callee. -/
structure Needs (image : Image) where
  bounded : Word → Prop
  words : Word → Nat → Nat
  flow : ∀ code, bounded code → ∀ position (operation : Operation),
    (image.executableCodeWork code)[position]? = some operation →
    ∀ next ∈ operation.successors position,
      words code next + operation.pushed ≤ words code position + operation.dropped
  sends : ∀ code, bounded code → ∀ position selector (argumentCount : Nat),
    (image.executableCodeWork code)[position]? = some (.dispatchMessage selector argumentCount) →
    4 ≤ words code position
  returns : ∀ code, bounded code → ∀ position : Nat,
    (image.executableCodeWork code)[position]? = some Operation.nonLocalReturn →
    3 ≤ words code position
  primitives : ∀ code, bounded code → ∀ position : Nat,
    (image.executableCodeWork code)[position]? = some Operation.primitive →
    2 ≤ words code position

/-- The stack has room for what the code may push from a position on. -/
structure Roomy (needs : Needs image) (code : Word) (sp pc : Int) (control : Control) : Prop where
  bounded : needs.bounded code
  words : needs.words code pc.toNat < sp
  native : control = .native → 2 < sp ∧ needs.words code (pc.toNat + 1) < sp

/-- The innermost frame leaves room for its own words and for what its code may push, and the
frame it was called from keeps the room for the rest of its code. -/
structure Ample (needs : Needs image) (top : Activation) (outer : List Activation) : Prop where
  bounded : needs.bounded top.code
  entry : 4 + image.temporaryCountOf top.code + image.launchedOperands top.code +
    needs.words top.code 0 < top.bp
  sender : ∀ sender ∈ outer.head?,
    needs.words sender.code top.sender.context.regPC.toNat < top.sender.context.regSP

def AmpleIn (needs : Needs image) (machine : Machine) : Prop :=
  ∀ top outer, machine.activations = top :: outer → Ample needs top outer

/-- The senders' room, and the host's whole stack under the outermost frame. -/
def Stocked (needs : Needs image) : List Activation → Prop
  | [] => True
  | [outermost] => outermost.sender.context.regSP = EvaluationContext.stackSize + 1
  | top :: sender :: outer =>
    Roomy needs sender.code top.sender.context.regSP top.sender.context.regPC top.sentBy ∧
      Stocked needs (sender :: outer)

/-- The room of every activation that has not ended. -/
structure Stock (needs : Needs image) (machine : Machine) : Prop where
  idle : machine.activations = [] →
    machine.evaluator.context.regSP = EvaluationContext.stackSize + 1
  current : ∀ top outer, machine.activations = top :: outer →
    Roomy needs top.code machine.evaluator.context.regSP machine.evaluator.context.regPC
      machine.control
  senders : Stocked needs machine.activations

/-- Leaving a launch frame pops its two saved words, whatever frame is below. -/
theorem EvaluationContext.popLaunchFrame_regSP (context : EvaluationContext) (prevRegE : Word) :
    (context.popLaunchFrame prevRegE).regSP = context.regBP + 2 := by
  by_cases outermost : context.stack context.regBP = 0 <;>
    simp [popLaunchFrame, pop, outermost, Int.add_assoc]

theorem EvaluationContext.popLaunchFrame_regPC (context : EvaluationContext) (prevRegE : Word) :
    (context.popLaunchFrame prevRegE).regPC = context.stack (context.regBP + 1) := by
  by_cases outermost : context.stack context.regBP = 0 <;>
    simp [popLaunchFrame, pop, outermost]

section Room

variable {needs : Needs image}

theorem Roomy.running {code : Word} {sp pc : Int} (bounded : needs.bounded code)
    (room : needs.words code pc.toNat < sp) : Roomy needs code sp pc .running :=
  ⟨bounded, room, fun native => by cases native⟩

theorem Stocked.tail {top : Activation} {outer : List Activation}
    (stocked : Stocked needs (top :: outer)) : Stocked needs outer := by
  cases outer with
  | nil => trivial
  | cons sender rest => exact stocked.2

theorem Stocked.suffix {activations outer : List Activation} (inner : List Activation)
    (stocked : Stocked needs activations) (split : activations = inner ++ outer) :
    Stocked needs outer := by
  induction inner generalizing activations with
  | nil =>
    rw [split] at stocked
    exact stocked
  | cons top rest ih =>
    rw [split] at stocked
    exact ih stocked.tail rfl

/-- Being marked by a native send does not matter. -/
theorem Stocked.reenter {top : Activation} {outer : List Activation} (reentered : Bool)
    (stocked : Stocked needs (top :: outer)) :
    Stocked needs ({ top with reentered := reentered } :: outer) := by
  cases outer with
  | nil => exact stocked
  | cons sender rest => exact stocked

/-- No frame lies above the host's stack pointer. -/
theorem Stocked.bp_le {wellFormed : WellFormed image} {bottom : Activation → Prop}
    {stack : Int → Word} {top : Activation} {outer : List Activation}
    (stocked : Stocked needs (top :: outer))
    (chain : Chained wellFormed bottom stack (top :: outer)) :
    top.bp + 2 ≤ EvaluationContext.stackSize + 1 := by
  induction outer generalizing top with
  | nil =>
    have senderSP := chain.head.senderSP
    have hosted : top.sender.context.regSP = EvaluationContext.stackSize + 1 := stocked
    lia
  | cons sender rest ih =>
    have below := chain.bp_lt
    have lower := ih stocked.2 chain.tail
    lia

/-- The activations below a home, with the home's own record. -/
theorem exists_of_belowHome {home : Int} {activations below : List Activation}
    (some : belowHome home activations = below) (nonempty : below ≠ []) :
    ∃ inner activation, activations = inner ++ activation :: below ∧ activation.bp = home := by
  induction activations with
  | nil => exact absurd some.symm nonempty
  | cons top rest ih =>
    rw [belowHome] at some
    split at some
    · next same =>
      subst some
      exact ⟨[], top, rfl, same⟩
    · obtain ⟨inner, activation, split, same⟩ := ih some
      exact ⟨top :: inner, activation, by rw [split]; rfl, same⟩

theorem foldl_stackTemporaryAtPut (temporaries : List Nat) (object : Word)
    (context : EvaluationContext) :
    let written := temporaries.foldl (fun context (index : Nat) =>
      context.stackTemporaryAtPut index object) context
    written.regSP = context.regSP ∧ written.regPC = context.regPC := by
  induction temporaries generalizing context with
  | nil => exact ⟨rfl, rfl⟩
  | cons first rest ih => exact ih (context.stackTemporaryAtPut first object)

/-- An operation that stays in its activation goes to a successor, and moves SP by the operands
it pushes and drops. -/
theorem Evaluator.execute_moves {evaluator done : Evaluator} {operation : Operation}
    (counted : 0 ≤ evaluator.context.regPC)
    (executed : Evaluator.execute image
      { evaluator with context := evaluator.context.incRegPC } operation = some done) :
    ∃ next ∈ operation.successors evaluator.context.regPC.toNat,
      done.context.regPC = next ∧
      done.context.regSP + operation.pushed = evaluator.context.regSP + operation.dropped := by
  have follows : evaluator.context.regPC + 1 =
      ((evaluator.context.regPC.toNat + 1 : Nat) : Int) := by lia
  cases operation <;> simp only [Evaluator.execute, Option.some.injEq, reduceCtorEq] at executed
  case literal | loadRfromFrame | loadRfromStack | loadRwithNil | loadRwithSelf |
      storeRintoFrame =>
    subst executed
    exact ⟨_, List.mem_singleton.mpr rfl, follows, rfl⟩
  case assign temporaries =>
    subst executed
    obtain ⟨sameSP, samePC⟩ := foldl_stackTemporaryAtPut temporaries evaluator.regR
      evaluator.context.incRegPC
    exact ⟨_, List.mem_singleton.mpr rfl, samePC.trans follows, by rw [sameSP]; rfl⟩
  case dropToS count =>
    subst executed
    refine ⟨_, List.mem_singleton.mpr rfl, follows, ?_⟩
    simp [Operation.pushed, Operation.dropped, EvaluationContext.dropOperands]
  case jump target =>
    subst executed
    exact ⟨_, List.mem_singleton.mpr rfl, rfl, rfl⟩
  case jumpFalse target | jumpTrue target =>
    subst executed
    split
    · exact ⟨_, List.mem_cons_self .., rfl, rfl⟩
    · exact ⟨_, List.mem_cons_of_mem _ (List.mem_singleton.mpr rfl), follows, rfl⟩
  case popR =>
    subst executed
    refine ⟨_, List.mem_singleton.mpr rfl, follows, ?_⟩
    simp [Operation.pushed, Operation.dropped, EvaluationContext.pop]
  case pushR =>
    subst executed
    refine ⟨_, List.mem_singleton.mpr rfl, follows, ?_⟩
    simp [Operation.pushed, Operation.dropped]

/-- The state an activation starts in, under its frame and the operands of a launch. -/
structure Starts (image : Image) (entered : Evaluator) : Prop where
  regPC : entered.context.regPC = 0
  regSP : entered.context.regSP = entered.context.regBP - 4 -
    image.temporaryCountOf entered.context.regM - image.launchedOperands entered.context.regM

theorem Starts.of_frameBuilt {context : EvaluationContext} {entered : Evaluator}
    {nilObj receiver code environment : Word}
    (built : context.FrameBuilt nilObj receiver code environment (image.temporaryCountOf code)
      entered.context) (ordinary : image.isLauncher code = false) : Starts image entered where
  regPC := built.regPC
  regSP := by
    have frame := built.regBP
    have moved := built.regSP
    have none : image.launchedOperands entered.context.regM = 0 := by
      simp [Image.launchedOperands, built.regM, ordinary]
    rw [none, built.regM]
    lia

theorem Starts.invokeWith {sender entered : Evaluator} {method receiver fresh : Word}
    (isMethod : image.isBlock method = false) (ordinary : image.isLauncher method = false)
    (invoked : sender.invokeWith image method receiver fresh = some entered) :
    Starts image entered := by
  simp only [Evaluator.invokeWith, Evaluator.buildMethodFrameFor, Option.map_eq_some_iff] at invoked
  obtain ⟨context, build, rfl⟩ := invoked
  have built := EvaluationContext.buildFrameFor_spec build
  rw [show image.methodTempCount method = image.temporaryCountOf method by
    simp [Image.temporaryCountOf, isMethod]] at built
  exact .of_frameBuilt built ordinary

theorem Starts.evaluateClosure {evaluator entered : Evaluator} {closure : Word}
    (isBlock : image.isBlock (evaluator.closures closure).block = true)
    (ordinary : image.isLauncher (evaluator.closures closure).block = false)
    (evaluated : evaluator.evaluateClosureWithArgs image closure = some entered) :
    Starts image entered := by
  simp only [Evaluator.evaluateClosureWithArgs, Evaluator.buildClosureFrameFor,
    Option.map_eq_some_iff] at evaluated
  obtain ⟨context, build, rfl⟩ := evaluated
  have built := EvaluationContext.buildFrameFor_spec build
  rw [show image.blockTempCount (evaluator.closures closure).block =
    image.temporaryCountOf (evaluator.closures closure).block by
      simp [Image.temporaryCountOf, isBlock]] at built
  exact .of_frameBuilt built ordinary

/-- The operands of a launch are counted by its only operation. -/
theorem launchedOperands_eq {launcher symbol receiver : Word} {arguments : List Word}
    (isLauncher : image.isLauncher launcher = true)
    (code : image.executableCodeWork launcher = [.dispatchMessage symbol arguments.length]) :
    (if arguments.isEmpty then [] else receiver :: arguments).length =
      image.launchedOperands launcher := by
  simp only [Image.launchedOperands, isLauncher, code, launchOperands]
  cases arguments with
  | nil => rfl
  | cons first rest => rfl

theorem Starts.sendToWith {sender entered : Evaluator} {symbol launcher receiver : Word}
    {arguments : List Word} (isLauncher : image.isLauncher launcher = true)
    (isMethod : image.isBlock launcher = false) (temps : image.methodTempCount launcher = 0)
    (code : image.executableCodeWork launcher = [.dispatchMessage symbol arguments.length])
    (launched : sender.sendToWith image launcher receiver arguments = some entered) :
    Starts image entered := by
  simp only [Evaluator.sendToWith, Evaluator.buildLaunchFrame, Evaluator.buildMethodFrameFor,
    Option.map_eq_some_iff] at launched
  obtain ⟨context, build, rfl⟩ := launched
  have built := EvaluationContext.buildFrameFor_spec build
  rw [temps] at built
  have count : image.temporaryCountOf launcher = 0 := by
    simp [Image.temporaryCountOf, isMethod, temps]
  obtain ⟨_, regM, _, regBP, _, regSP, _⟩ := context.pushAll_spec
    (if arguments.isEmpty then [] else receiver :: arguments)
  have frame := built.regBP
  have moved := built.regSP
  rw [launchedOperands_eq isLauncher code] at regSP
  refine ⟨rfl, ?_⟩
  simp only [regM, regBP, built.regM, count]
  lia

/-- A new activation has room, and its sender has kept it. -/
theorem Stock.enter {machine : Machine} {launch : Bool} {sender entered : Evaluator}
    {outer : List Activation} (starts : Starts image entered)
    (ample : AmpleIn needs (machine.activate launch sender entered outer))
    (senders : Stocked needs outer)
    (hosted : outer = [] → sender.context.regSP = EvaluationContext.stackSize + 1)
    (kept : ∀ suspended rest, outer = suspended :: rest →
      Roomy needs suspended.code sender.context.regSP sender.context.regPC
        (if launch then .native else .running)) :
    Stock needs (machine.activate launch sender entered outer) where
  idle none := by cases none
  current := by
    intro top rest same
    obtain ⟨rfl, rfl⟩ := List.cons.inj same
    have room := ample _ _ rfl
    have entry := room.entry
    have moved := starts.regSP
    refine .running room.bounded ?_
    simp only [Machine.activate, Machine.newActivation, starts.regPC, Int.toNat_zero] at entry ⊢
    lia
  senders := by
    cases outer with
    | nil => exact hosted rfl
    | cons suspended rest => exact ⟨kept suspended rest rfl, senders⟩

/-- A callee of the loop: its sender has kept room because the callee's frame is ample. -/
theorem Stock.call {machine : Machine} {sender entered : Evaluator}
    {suspended : Activation} {rest : List Activation} (starts : Starts image entered)
    (ample : AmpleIn needs (machine.activate false sender entered (suspended :: rest)))
    (bounded : needs.bounded suspended.code) (senders : Stocked needs (suspended :: rest)) :
    Stock needs (machine.activate false sender entered (suspended :: rest)) := by
  refine .enter starts ample senders (fun none => by cases none) ?_
  intro suspended' rest' same
  obtain ⟨rfl, rfl⟩ := List.cons.inj same
  exact .running bounded ((ample _ _ rfl).sender suspended rfl)

theorem Stock.stay {machine : Machine} {top : Activation} {outer : List Activation}
    {done : Evaluator} {control : Control} (stock : Stock needs machine)
    (active : machine.activations = top :: outer)
    (room : Roomy needs top.code done.context.regSP done.context.regPC control) :
    Stock needs (machine.stay control done) where
  idle none := by
    simp only [Machine.stay, active] at none
    cases none
  current := by
    intro top' outer' same
    simp only [Machine.stay, active] at same
    obtain ⟨rfl, rfl⟩ := List.cons.inj same
    exact room
  senders := stock.senders

theorem Stock.resume {machine : Machine} {sender : Activation} {outer : List Activation}
    {after : Evaluator} {control : Control} (reentered : Bool)
    (senders : Stocked needs (sender :: outer))
    (room : Roomy needs sender.code after.context.regSP after.context.regPC control) :
    Stock needs (machine.resume control reentered after (sender :: outer)) where
  idle none := by cases none
  current := by
    intro top' outer' same
    obtain ⟨rfl, rfl⟩ := List.cons.inj same
    exact room
  senders := senders.reenter reentered

end Room

section Steps

variable {wellFormed : WellFormed image} {needs : Needs image}

/-- A fetched operation that moves no operand leaves the room it had. -/
theorem Stock.ready {machine : Machine} {operation : Operation} {fetched : Evaluator}
    (stock : Stock needs machine) (valid : Valid wellFormed machine)
    (fetches : machine.Fetches operation fetched)
    (falls : ∀ position, position + 1 ∈ operation.successors position)
    (neutral : operation.pushed = operation.dropped) :
    ∃ top outer, machine.activations = top :: outer ∧
      Roomy needs top.code fetched.context.regSP fetched.context.regPC .running := by
  obtain ⟨top, outer, active, sent, _, found, rfl⟩ :=
    valid.holds.fetched (valid.busy fetches.1) fetches
  have room := stock.current top outer active
  have flow := needs.flow _ room.bounded _ _ found _ (falls _)
  have counted := sent.position.counted
  have words := room.words
  have moved : (machine.evaluator.context.regPC + 1).toNat =
      machine.evaluator.context.regPC.toNat + 1 := by lia
  refine ⟨top, outer, active, .running room.bounded ?_⟩
  simp only [EvaluationContext.incRegPC_regSP, EvaluationContext.incRegPC_regPC, moved]
  lia

theorem Stock.readyToSend {machine : Machine} {selector : Word} {argumentCount : Nat}
    {fetched : Evaluator} (stock : Stock needs machine) (valid : Valid wellFormed machine)
    (fetches : machine.Fetches (.dispatchMessage selector argumentCount) fetched) :
    ∃ top outer, machine.activations = top :: outer ∧
      Roomy needs top.code fetched.context.regSP fetched.context.regPC .running :=
  stock.ready valid fetches (fun _ => List.mem_singleton.mpr rfl) rfl

/-- Native code keeps the room of its activation whichever way it ends. -/
theorem Stock.native {machine : Machine} (stock : Stock needs machine)
    (valid : Valid wellFormed machine) (native : machine.control = .native)
    (busy : machine.activations ≠ []) :
    ∃ top outer, machine.activations = top :: outer ∧ 0 ≤ machine.evaluator.context.regPC ∧
      Roomy needs top.code machine.evaluator.context.regSP machine.evaluator.context.regPC
        .native := by
  obtain ⟨top, outer, active, sent, _⟩ := valid.holds.native native busy
  have room := stock.current top outer active
  rw [native] at room
  exact ⟨top, outer, active, sent.position.counted, room⟩

/-- A primitive that fails goes on behind the operation it skips. -/
theorem Roomy.fails {code : Word} {sp pc : Int} (room : Roomy needs code sp pc .native)
    (counted : 0 ≤ pc) : Roomy needs code sp (pc + 1) .running := by
  have moved : (pc + 1).toNat = pc.toNat + 1 := by lia
  refine .running room.bounded ?_
  rw [moved]
  exact (room.native rfl).2

/-- Every step keeps the room when the frame it enters is ample. -/
theorem Stock.step {machine next : Machine} {action : Action} (stock : Stock needs machine)
    (valid : Valid wellFormed machine) (allowed : HomesActive machine action)
    (step : Step image machine action next) (ample : AmpleIn needs next) : Stock needs next := by
  cases step with
  | execute fetches executed =>
    obtain ⟨top, outer, active, sent, _, found, rfl⟩ :=
      valid.holds.fetched (valid.busy fetches.1) fetches
    have room := stock.current top outer active
    obtain ⟨position, member, pc, sp⟩ := Evaluator.execute_moves sent.position.counted executed
    have flow := needs.flow _ room.bounded _ _ found position member
    have words := room.words
    refine stock.stay active (.running room.bounded ?_)
    rw [pc, Int.toNat_natCast]
    lia
  | identifier value fetches =>
    obtain ⟨top, outer, active, room⟩ := stock.ready valid fetches
      (fun _ => List.mem_singleton.mpr rfl) rfl
    exact stock.stay active room
  | block fresh fetches =>
    obtain ⟨top, outer, active, room⟩ := stock.ready valid fetches
      (fun _ => List.mem_singleton.mpr rfl) rfl
    exact stock.stay active room
  | @undermessage _ argumentCount fetched answer fetches =>
    obtain ⟨top, outer, active, room⟩ := stock.readyToSend valid fetches
    refine stock.stay active ?_
    rw [fetched.evaluateUndermessageWith_context argumentCount answer]
    exact room
  | invoke method fresh fetches isMethod ordinary invoked =>
    obtain ⟨top, outer, active, room⟩ := stock.readyToSend valid fetches
    have senders := stock.senders
    rw [active] at ample senders ⊢
    exact .call (.invokeWith isMethod ordinary invoked) ample room.bounded senders
  | messageNotUnderstood array dnu fresh fetches isMethod ordinary invoked =>
    obtain ⟨top, outer, active, room⟩ := stock.readyToSend valid fetches
    have senders := stock.senders
    rw [active] at ample senders ⊢
    exact .call (.invokeWith isMethod ordinary invoked) ample room.bounded senders
  | returnTo fetches =>
    obtain ⟨home, sender, outer, member, named, below, _, restores, _⟩ :=
      valid.holds.returnTo_restores fetches allowed
    obtain ⟨inner, activation, split, same⟩ := exists_of_belowHome below (by simp)
    have kept := stock.senders.suffix inner split
    have listed : activation ∈ machine.activations := by simp [split]
    obtain rfl := valid.holds.chain.eq_of_bp member listed (named.trans same.symm)
    rw [below]
    refine .resume false kept.tail (.running kept.1.bounded ?_)
    rw [restores.regSP, restores.regPC]
    exact kept.1.words
  | nonLocalReturn fresh fetches isMethod ordinary invoked =>
    obtain ⟨top, outer, active, room⟩ := stock.ready valid fetches
      (fun _ => List.mem_singleton.mpr rfl) rfl
    have senders := stock.senders
    rw [active] at ample senders ⊢
    exact .call (.invokeWith isMethod ordinary invoked) ample room.bounded senders
  | «return» fetches =>
    obtain ⟨top, sender, outer, active, _, _, restores, _⟩ :=
      valid.holds.return_restores (valid.return_inner fetches) fetches
    have kept := stock.senders
    rw [active] at kept ⊢
    refine .resume false kept.tail (.running kept.1.bounded ?_)
    rw [restores.regSP, restores.regPC]
    exact kept.1.words
  | primitive fetches =>
    obtain ⟨top, outer, active, sent, _, found, rfl⟩ :=
      valid.holds.fetched (valid.busy fetches.1) fetches
    have room := stock.current top outer active
    have counted := sent.position.counted
    have words := room.words
    have needed := needs.primitives _ room.bounded _ found
    have first := needs.flow _ room.bounded _ _ found _ (List.mem_cons_self ..)
    have second := needs.flow _ room.bounded _ _ found
      (machine.evaluator.context.regPC.toNat + 1 + 1)
      (List.mem_cons_of_mem _ (List.mem_singleton.mpr rfl))
    simp only [Operation.pushed, Operation.dropped, Nat.add_zero] at first second
    have moved : (machine.evaluator.context.regPC + 1).toNat =
        machine.evaluator.context.regPC.toNat + 1 := by lia
    refine stock.stay active ⟨room.bounded, ?_, fun _ => ⟨?_, ?_⟩⟩
    · simp only [EvaluationContext.incRegPC_regSP, EvaluationContext.incRegPC_regPC, moved]
      lia
    · simp only [EvaluationContext.incRegPC_regSP]
      lia
    · simp only [EvaluationContext.incRegPC_regSP, EvaluationContext.incRegPC_regPC, moved]
      lia
  | finish value native busy =>
    obtain ⟨top, outer, active, _, room⟩ := stock.native valid native busy
    exact stock.stay active (.running room.bounded room.words)
  | failPrimitive native busy =>
    obtain ⟨top, outer, active, counted, room⟩ := stock.native valid native busy
    exact stock.stay active (room.fails counted)
  | failPrimitiveWith errorObject native busy =>
    obtain ⟨top, outer, active, counted, room⟩ := stock.native valid native busy
    refine stock.stay active ?_
    unfold Evaluator.failPrimitiveWith
    split
    · exact room.fails counted
    · exact room.fails counted
  | evaluateClosure closure native active isBlock ordinary evaluated =>
    obtain ⟨top, outer, active', sent, chain⟩ := valid.holds.native native (by simp [active])
    rw [active] at active'
    obtain ⟨rfl, rfl⟩ := List.cons.inj active'
    obtain ⟨sender, rest, rfl⟩ := chain.sender Hosted.ground sent
    have senders := stock.senders
    rw [active] at senders
    exact .call (.evaluateClosure isBlock ordinary evaluated) ample senders.1.bounded senders.2
  | perform method arguments fresh native busy isMethod ordinary performed =>
    obtain ⟨top, outer, active, _, room⟩ := stock.native valid native busy
    have senders := stock.senders
    rw [active] at ample senders ⊢
    exact .call (.invokeWith isMethod ordinary performed) ample room.bounded senders
  | sendToWith symbol launcher receiver arguments native isLauncher isMethod temps code launched =>
    refine .enter (.sendToWith isLauncher isMethod temps code launched) ample stock.senders
      stock.idle ?_
    intro top outer active
    have room := stock.current top outer active
    rwa [native] at room
  | @endSend launcher outer fetched running exhausted active launch =>
    simp only [Evaluator.nextOperation, Prod.mk.injEq] at exhausted
    obtain ⟨-, rfl⟩ := exhausted
    have sent := valid.current launcher outer active
    have chain := valid.holds.chain
    have senders := stock.senders
    rw [active] at chain senders
    have held := chain.head
    have regSP : ((Evaluator.endSend image { machine.evaluator with
        context := machine.evaluator.context.incRegPC } launcher.environment).context.regSP) =
        launcher.sender.context.regSP := by
      rw [Evaluator.endSend, EvaluationContext.popLaunchFrame_regSP,
        EvaluationContext.incRegPC_regBP, sent.regBP, held.senderSP]
    have regPC : ((Evaluator.endSend image { machine.evaluator with
        context := machine.evaluator.context.incRegPC } launcher.environment).context.regPC) =
        launcher.sender.context.regPC := by
      rw [Evaluator.endSend, EvaluationContext.popLaunchFrame_regPC,
        EvaluationContext.incRegPC_stack, EvaluationContext.incRegPC_regBP, sent.regBP,
        held.savedPC]
    cases outer with
    | nil =>
      have hosted : launcher.sender.context.regSP = EvaluationContext.stackSize + 1 := senders
      exact ⟨fun _ => regSP.trans hosted, (fun top outer none => by cases none), trivial⟩
    | cons sender rest =>
      have room := senders.1
      rw [Activation.sentBy, if_pos launch] at room
      refine .resume true senders.2 ?_
      rw [regSP, regPC]
      exact room

/-- Every state of a run whose frames are ample has room. -/
theorem Stock.run {machine : Machine} {stack : Int → Word}
    (run : Run image (fun machine action => HomesActive machine action ∧ AmpleIn needs machine)
      (Machine.start image stack) machine) (ample : AmpleIn needs machine)
    (wellFormed : WellFormed image) : Valid wellFormed machine ∧ Stock needs machine := by
  induction run with
  | refl =>
    exact ⟨.start wellFormed stack, fun _ => rfl, (fun top outer none => by cases none), trivial⟩
  | step _ allowed step ih =>
    obtain ⟨valid, stock⟩ := ih allowed.2
    exact ⟨valid.step allowed.1 step, stock.step valid allowed.1 step ample⟩

end Steps

end Egg.Evaluation
