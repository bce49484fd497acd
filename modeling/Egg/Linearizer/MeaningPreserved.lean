import Egg.Linearizer.KeptOperands
import Egg.Linearizer.StackDepth

/-! Linearized code does what the tree means. -/
namespace Egg.Linearizer

open Egg.Treecode Egg.Data Egg.Data.StructuredCode

variable {Value World Abandoned : Type} {surroundings : Surroundings Value World Abandoned}
  [DecidableEq Value] {blockTempCount : LiteralValue → Nat} {inBlock : Bool}
  {before between after : SExpressionLinearizer}
  {first second : List (LiteralValue × List SExpression)}

section Parts

theorem none_translates (step : Step Value World Abandoned) :
    Translates surroundings blockTempCount inBlock first step fun _ => none := by
  rintro before after - ⟨⟩

theorem asBlock_translates (expression : SExpression) {visit : Visit}
    {step : Step Value World Abandoned}
    (translates : Translates surroundings blockTempCount inBlock first step visit) :
    Translates surroundings blockTempCount inBlock first step (asBlock expression visit) := by
  intro before after own visited
  unfold asBlock at visited
  split at visited
  · exact translates before after own visited
  · cases visited

/-- An operation that answers what a step means, and leaves the operands. -/
theorem emit_answers {operation : Operation} {step : Step Value World Abandoned}
    (before : SExpressionLinearizer)
    (goes : ∀ (temps : Int) position (registers : Registers Value World),
      operation.perform surroundings temps position registers =
        answering position registers (step registers.R)) :
    Answers surroundings before (before.emit operation) step :=
  fun _ _ _ => PerformsAt.answers fun temps => goes temps _ _

theorem emit_translates {operation : Operation} {step : Step Value World Abandoned}
    (passes : operation.pops = false)
    (goes : ∀ (temps : Int) position (registers : Registers Value World),
      operation.perform surroundings temps position registers =
        answering position registers (step registers.R)) :
    Translates surroundings blockTempCount inBlock [] step
      fun linearizer => some (linearizer.emit operation) := by
  rintro before after - ⟨⟩
  exact ⟨emit_extends before passes, emit_answers before goes⟩

theorem literal_translates (value : LiteralValue) :
    Translates surroundings blockTempCount inBlock [] (fun _ => pure (surroundings.literal value))
      fun linearizer => some (linearizer.emit (.literal (some value))) := by
  apply emit_translates rfl
  intro temps position registers
  rw [answering, StateT.run_pure, map_pure]
  rfl

/-- Control does not come back from a return. -/
theorem halt_performs {operation : Operation} (before : SExpressionLinearizer)
    {registers : Registers Value World} {how : Ended Value World Abandoned}
    (stops : ∀ (temps : Int) position, operation.perform surroundings temps position registers =
      Outcomes.stop how) :
    Performs surroundings before (before.emit operation) registers (Outcomes.stop how) := by
  apply PerformsAt.emit rfl
  intro temps _ _
  rw [stops, Outcomes.map_stop]

theorem return_answers (before : SExpressionLinearizer) (isLocal : Bool) :
    Answers surroundings before (before.return_ isLocal) fun value =>
      leave (if isLocal && !before.inBlock then .returned value else .nonLocalReturned value) := by
  intro operands current world
  unfold SExpressionLinearizer.return_
  cases isLocal && !before.inBlock with
  | false => exact (halt_performs before fun _ _ => rfl).congr (Outcomes.map_stop _ _).symm
  | true => exact (halt_performs before fun _ _ => rfl).congr (Outcomes.map_stop _ _).symm

theorem returnOp_answers (before : SExpressionLinearizer) :
    Answers surroundings before before.returnOp fun value => leave (.returned value) := by
  intro operands current world
  exact (halt_performs before fun _ _ => rfl).congr (Outcomes.map_stop _ _).symm

/-- Statements of which the last one is a return answer nothing. -/
theorem evaluateStatements_leaves {statements : List SExpression} (returned : returns statements)
    (current : Value) (world : World) (after : Value × World) :
    ¬ ((evaluateStatements surroundings inBlock statements current).run world).leaves after := by
  induction statements generalizing current world with
  | nil => cases returned
  | cons statement statements inductionHypothesis =>
    rw [evaluateStatements, StateT.run_bind]
    rintro ⟨value, answered, rest⟩
    cases statements with
    | nil =>
      cases statement with
      | «return» isLocal expression =>
        rw [evaluate, StateT.run_bind] at answered
        obtain ⟨_, _, stopped⟩ := answered
        exact stopped
      | _ => cases returned
    | cons next others => exact inductionHypothesis returned value.1 value.2 rest

end Parts

section Endings

/-- Code that leaves nothing does what a step means that answers nothing. -/
theorem realizes_of_answers {temps : Nat} {step : Step Value World Abandoned}
    (fresh : before.operations = []) (start : before.stackTop = temps)
    (appended : ∃ segment, after.operations = before.operations ++ segment)
    (answers : Answers surroundings before after step) (addressed : Addressed temps after.operations) :
    Realizes surroundings temps after.operations step := by
  obtain ⟨segment, appended⟩ := appended
  intro current world
  have base : before.currentPC = 0 := by rw [SExpressionLinearizer.currentPC, fresh]; rfl
  have deep : before.depth = temps := by
    rw [SExpressionLinearizer.depth, SExpressionLinearizer.pops, fresh, start]
    rfl
  have done := answers [] current world temps segment appended addressed (by rw [deep]; rfl)
  rw [base] at done
  rw [fresh, List.nil_append] at appended
  rw [appended]
  have whole := done segment (.whole segment)
  rw [Nat.zero_add] at whole
  rw [whole, ← comp_map]
  rfl

theorem finishBlock_answers {statements : List SExpression}
    (extends_ : Extends surroundings blockTempCount first 0 before between)
    (answers : Answers surroundings before between
      (evaluateStatements surroundings true statements)) :
    Extends surroundings blockTempCount first 0 before (between.finishBlock statements) ∧
      Answers surroundings before (between.finishBlock statements)
        (evaluateBlock surroundings statements) := by
  unfold SExpressionLinearizer.finishBlock
  cases last : statements.getLast? with
  | none =>
    obtain rfl := List.getLast?_eq_none_iff.mp last
    have loads : Extends surroundings blockTempCount [] 0 between (between.emit .loadRwithNil) :=
      emit_extends between rfl
    have returns : Extends surroundings blockTempCount [] 0 (between.emit .loadRwithNil)
        (between.emit .loadRwithNil).returnOp := emit_extends _ rfl
    have behind := loads.trans returns
    refine ⟨(extends_.trans behind).congr (by simp) rfl, ?_⟩
    intro operands current world
    have ends : ∀ answer : Value × World, Performs surroundings between
        (between.emit .loadRwithNil).returnOp (above operands answer)
        (above operands <$>
          (leave (.returned surroundings.nilObj) : Meaning Value World Abandoned Value).run
            answer.2) := fun answer =>
      Performs.then (PerformsAt.proceeds rfl fun _ _ _ => rfl : Performs surroundings between _ _
        (pure (above operands (surroundings.nilObj, answer.2)))) loads.toGrows returns.toGrows
        (by simp [above]) (returnOp_answers _ operands _ _)
    apply (answers.then extends_.toGrows behind.toGrows ends).congr
    rw [evaluateBlock, StateT.run_bind, map_bind]
    rfl
  | some final =>
    have nonempty : statements.isEmpty = false := by
      cases statements with
      | nil => cases last
      | cons => rfl
    simp only
    split
    · next returned =>
      refine ⟨extends_, ?_⟩
      intro operands current world
      apply (answers operands current world).congr
      have none : ∀ after,
          ¬ ((evaluateStatements surroundings true statements current).run world).leaves after :=
        evaluateStatements_leaves (by rw [returns, last]; exact returned) current world
      rw [evaluateBlock, StateT.run_bind, map_bind, map_eq_pure_bind]
      apply Outcomes.bind_congr_of_leaves
      intro after leaves
      exact absurd leaves (none after)
    · have returns : Extends surroundings blockTempCount [] 0 between between.returnOp :=
        emit_extends _ rfl
      refine ⟨(extends_.trans returns).congr (by simp) rfl, ?_⟩
      intro operands current world
      apply (answers.then extends_.toGrows returns.toGrows fun answer =>
        returnOp_answers between operands answer.1 answer.2).congr
      rw [evaluateBlock, StateT.run_bind, map_bind, nonempty]
      rfl

/-- The code of a block is installed and does what the block means. -/
theorem block_translates {statements : List SExpression} {visit : Visit}
    {compiledCode : LiteralValue} {capturedVariables : List Int} {inner : SExpressionLinearizer}
    (translates : Translates surroundings blockTempCount true first
      (evaluateStatements surroundings true statements) visit)
    (visited : visit ((before.emit (.block (some compiledCode) capturedVariables)).enterBlock
      (blockTempCount compiledCode)) = some inner) :
    Extends surroundings blockTempCount (first ++ [(compiledCode, statements)]) 0 before
      { before.emit (.block (some compiledCode) capturedVariables) with
        executables := inner.executables ++
          [(compiledCode, (inner.finishBlock statements).operations)] } := by
  obtain ⟨extends_, answers⟩ := translates _ inner rfl visited
  obtain ⟨finished, ends⟩ := finishBlock_answers extends_ answers
  have emits : Extends surroundings blockTempCount [] 0 before
      (before.emit (.block (some compiledCode) capturedVariables)) := emit_extends before rfl
  obtain ⟨installed, appended, installs⟩ := extends_.installs
  refine ⟨⟨emits.depth, emits.appended⟩, rfl, installed ++
    [(compiledCode, (inner.finishBlock statements).operations)], ?_, ?_⟩
  · rw [← List.append_assoc]
    exact congrArg (· ++ _) appended
  · exact List.rel_append installs (.cons ⟨rfl, fun addressed =>
      realizes_of_answers rfl rfl finished.appended ends addressed⟩ .nil)

theorem inlinedBlock_translates {statements : List SExpression} {visit : Visit}
    {stackTop : Int} {inner : SExpressionLinearizer}
    (translates : Translates surroundings blockTempCount true first
      (evaluateStatements surroundings true statements) visit)
    (visited : visit ((before.emit (.block none [])).enterBlock stackTop) = some inner) :
    Extends surroundings blockTempCount first 0 before
      { before.emit (.block none []) with executables := inner.executables } := by
  obtain ⟨extends_, -⟩ := translates _ inner rfl visited
  have emits : Extends surroundings blockTempCount [] 0 before (before.emit (.block none [])) :=
    emit_extends before rfl
  exact ⟨⟨emits.depth, emits.appended⟩, rfl, extends_.installs⟩

theorem finishMethod_answers {statements : List SExpression}
    (extends_ : Extends surroundings blockTempCount first 0 before between)
    (answers : Answers surroundings before between
      (evaluateStatements surroundings false statements)) :
    Extends surroundings blockTempCount first 0 before (between.finishMethod statements) ∧
      Answers surroundings before (between.finishMethod statements) (fun current => do
        let _ ← evaluateStatements surroundings false statements current
        let self ← surroundings.self <$> get
        leave (.returned self)) := by
  rw [SExpressionLinearizer.finishMethod, ← returns]
  cases returned : returns statements with
  | true =>
    simp only [if_true]
    refine ⟨extends_, ?_⟩
    intro operands current world
    apply (answers operands current world).congr
    rw [StateT.run_bind, map_bind, map_eq_pure_bind]
    apply Outcomes.bind_congr_of_leaves
    intro after leaves
    exact absurd leaves (evaluateStatements_leaves returned current world after)
  | false =>
    simp only [Bool.false_eq_true, if_false]
    have loads : Extends surroundings blockTempCount [] 0 between
        (between.emit .loadRwithSelf) := emit_extends between rfl
    have ends : Extends surroundings blockTempCount [] 0 (between.emit .loadRwithSelf)
        (between.emit .loadRwithSelf).returnOp := emit_extends _ rfl
    have behind := loads.trans ends
    refine ⟨(extends_.trans behind).congr (by simp) rfl, ?_⟩
    intro operands current world
    have selfs : ∀ answer : Value × World, Performs surroundings between
        (between.emit .loadRwithSelf).returnOp (above operands answer)
        (above operands <$> (leave (.returned (surroundings.self answer.2)) :
          Meaning Value World Abandoned Value).run answer.2) := fun answer =>
      Performs.then (PerformsAt.proceeds rfl fun _ _ _ => rfl : Performs surroundings between _ _
        (pure (above operands (surroundings.self answer.2, answer.2)))) loads.toGrows ends.toGrows
        (by simp [above]) (returnOp_answers _ operands _ _)
    apply (answers.then extends_.toGrows behind.toGrows selfs).congr
    simp only [StateT.run_bind, map_bind, StateT.run_map, StateT.run_get, map_pure, pure_bind]

end Endings

section Lists

/-- What visits the messages of a cascade sends them to the operand on top. -/
def Cascades (surroundings : Surroundings Value World Abandoned)
    (blockTempCount : LiteralValue → Nat) (inBlock : Bool)
    (closures : List (LiteralValue × List SExpression))
    (step : Value → Step Value World Abandoned) (visit : Visit) : Prop :=
  ∀ before after, before.inBlock = inBlock → visit before = some after →
    Extends surroundings blockTempCount closures 0 before after ∧
      ∀ receiver operands current world,
        Performs surroundings before after ⟨current, receiver :: operands, world⟩
          (above (receiver :: operands) <$> (step receiver current).run world)

theorem cascade_translates {receiver messages : Visit} {step : Step Value World Abandoned}
    {sends : Value → Step Value World Abandoned}
    (receives : Translates surroundings blockTempCount inBlock first step receiver)
    (cascades : Cascades surroundings blockTempCount inBlock second sends messages) :
    Translates surroundings blockTempCount inBlock (first ++ second)
      (fun current => do
        let value ← step current
        sends value value)
      (fun linearizer => do
        let linearizer ← pushed receiver linearizer
        let linearizer ← messages linearizer
        pure (linearizer.dropToS 1)) := by
  intro before after own visited
  simp only [pushed, Option.bind_eq_bind, Option.bind_eq_some_iff, Option.map_eq_some_iff,
    Option.pure_def, Option.some.injEq] at visited
  obtain ⟨kept, ⟨received, visitedReceiver, rfl⟩, sent, visitedMessages, rfl⟩ := visited
  obtain ⟨extendsReceiver, answers⟩ := receives before received own visitedReceiver
  obtain ⟨extendsMessages, performs⟩ := cascades received.pushR sent
    (extendsReceiver.inBlock.trans own) visitedMessages
  have pushes : Extends surroundings blockTempCount [] 1 received received.pushR :=
    pushR_extends received
  have drops : Extends surroundings blockTempCount [] (-(1 : Nat)) sent (sent.dropToS 1) :=
    dropToS_extends sent 1
  have sending := extendsMessages.trans drops
  have rest := pushes.trans sending
  refine ⟨(extendsReceiver.trans rest).congr (by simp) (by lia), ?_⟩
  intro operands current world
  have sends : ∀ answer : Value × World, Performs surroundings received (sent.dropToS 1)
      (above operands answer) (above operands <$> (sends answer.1 answer.1).run answer.2) := by
    intro answer
    apply Performs.then (pushR_performs received _) (pushR_grows received) sending.toGrows (by simp)
    rw [map_eq_pure_bind]
    apply (performs answer.1 operands answer.1 answer.2).bind extendsMessages.toGrows drops.toGrows
    intro value _
    exact ⟨by simp [above], dropToS_performs sent value.1 [answer.1] rfl operands value.2⟩
  apply (answers.then extendsReceiver.toGrows rest.toGrows sends).congr
  rw [StateT.run_bind, map_bind]

theorem message_cascades {selector : LiteralValue} {count : Nat} {arguments messages : Visit}
    {values : Value → Meaning Value World Abandoned (List Value × Value)}
    {sends : Value → Step Value World Abandoned}
    (gathers : Gathers surroundings blockTempCount inBlock first count values arguments)
    (cascades : Cascades surroundings blockTempCount inBlock second sends messages) :
    Cascades surroundings blockTempCount inBlock (first ++ second)
      (fun receiver current => do
        let gathered ← values current
        let answer ← surroundings.send selector false receiver gathered.1
        sends receiver answer)
      (fun linearizer => do
        let linearizer ← arguments linearizer
        messages (((linearizer.emit (.loadRfromStack count)).dispatch selector false
          count).dropCascadeMessageArgs count)) := by
  intro before after own visited
  simp only [Option.bind_eq_bind, Option.bind_eq_some_iff] at visited
  obtain ⟨argued, visitedArguments, visitedMessages⟩ := visited
  obtain ⟨extendsArguments, performs⟩ := gathers.translates before argued own visitedArguments
  obtain ⟨extendsMessages, sending⟩ := cascades _ after (by
    unfold SExpressionLinearizer.dropCascadeMessageArgs
    split <;> exact extendsArguments.inBlock.trans own) visitedMessages
  have loads : Extends surroundings blockTempCount [] 0 argued
      (argued.emit (.loadRfromStack count)) := emit_extends argued rfl
  have dispatches : Extends surroundings blockTempCount [] 0 (argued.emit (.loadRfromStack count))
      ((argued.emit (.loadRfromStack count)).dispatch selector false count) := emit_extends _ rfl
  have drops : Extends surroundings blockTempCount [] (-count)
      ((argued.emit (.loadRfromStack count)).dispatch selector false count)
      (((argued.emit (.loadRfromStack count)).dispatch selector false
        count).dropCascadeMessageArgs count) := by
    unfold SExpressionLinearizer.dropCascadeMessageArgs
    split
    · next none => exact (Extends.refl _).congr rfl (by rw [none]; rfl)
    · exact dropToS_extends _ count
  have dropping := drops.trans extendsMessages
  have delivering := dispatches.trans dropping
  have rest := loads.trans delivering
  refine ⟨(extendsArguments.trans rest).congr (by simp) (by lia), ?_⟩
  intro receiver operands current world
  have delivers : ∀ gathered : (List Value × Value) × World, gathered.1.1.length = count →
      Performs surroundings argued after
        ⟨gathered.1.2, gathered.1.1.reverse ++ receiver :: operands, gathered.2⟩
        ((surroundings.send selector false receiver gathered.1.1).run gathered.2 >>= fun answer =>
          above (receiver :: operands) <$> (sends receiver answer.1).run answer.2) := by
    intro gathered length
    have loaded : Performs surroundings argued (argued.emit (.loadRfromStack count))
        ⟨gathered.1.2, gathered.1.1.reverse ++ receiver :: operands, gathered.2⟩
        (pure ⟨receiver, gathered.1.1.reverse ++ receiver :: operands, gathered.2⟩) :=
      load_performs argued (by simp [← length])
    have sent : Performs surroundings (argued.emit (.loadRfromStack count))
        ((argued.emit (.loadRfromStack count)).dispatch selector false count)
        ⟨receiver, gathered.1.1.reverse ++ receiver :: operands, gathered.2⟩
        (above (gathered.1.1.reverse ++ receiver :: operands) <$>
          (surroundings.send selector false receiver gathered.1.1).run gathered.2) := by
      apply PerformsAt.answers
      intro temps
      simp [Operation.perform, ← length]
    apply loaded.then loads.toGrows delivering.toGrows (by simp)
    apply sent.bind dispatches.toGrows dropping.toGrows
    intro answer _
    refine ⟨by simp [above], ?_⟩
    have dropped : Performs surroundings
        ((argued.emit (.loadRfromStack count)).dispatch selector false count)
        (((argued.emit (.loadRfromStack count)).dispatch selector false
          count).dropCascadeMessageArgs count)
        (above (gathered.1.1.reverse ++ receiver :: operands) answer)
        (pure (above (receiver :: operands) answer)) := by
      unfold SExpressionLinearizer.dropCascadeMessageArgs
      split
      · next none =>
        obtain empty := List.length_eq_zero_iff.mp (length.trans none)
        rw [empty]
        exact Performs.nothing _ _
      · exact dropToS_performs _ answer.1 gathered.1.1.reverse (by simp [length]) _ answer.2
    exact dropped.then drops.toGrows extendsMessages.toGrows (by simp [above, length])
      (sending receiver operands answer.1 answer.2)
  apply ((performs (receiver :: operands) current world).bind extendsArguments.toGrows rest.toGrows
    fun gathered leaves => ⟨by
      obtain ⟨length, -⟩ := gathers.counted _ _ _ leaves
      simp [length]
      lia, delivers gathered (gathers.counted _ _ _ leaves).1⟩).congr
  simp only [StateT.run_bind, map_bind]

theorem argument_gathers {count : Nat} {argument arguments : Visit}
    {step : Step Value World Abandoned}
    {values : Value → Meaning Value World Abandoned (List Value × Value)}
    (translates : Translates surroundings blockTempCount inBlock first step argument)
    (gathers : Gathers surroundings blockTempCount inBlock second count values arguments) :
    Gathers surroundings blockTempCount inBlock (first ++ second) (count + 1)
      (fun current => do
        let value ← step current
        let gathered ← values value
        pure (value :: gathered.1, gathered.2))
      (fun linearizer => do
        let linearizer ← pushed argument linearizer
        arguments linearizer) where
  counted := by
    intro current world after leaves
    simp only [StateT.run_bind, StateT.run_pure] at leaves
    obtain ⟨value, -, gathered, others, rfl⟩ := leaves
    obtain ⟨length, -⟩ := gathers.counted _ _ _ others
    exact ⟨by simp [length], by lia⟩
  translates := by
    intro before after own visited
    simp only [pushed, Option.bind_eq_bind, Option.bind_eq_some_iff,
      Option.map_eq_some_iff] at visited
    obtain ⟨kept, ⟨argued, visitedArgument, rfl⟩, visitedArguments⟩ := visited
    obtain ⟨extendsArgument, answers⟩ := translates before argued own visitedArgument
    obtain ⟨extendsArguments, performs⟩ := gathers.translates argued.pushR after
      (extendsArgument.inBlock.trans own) visitedArguments
    have pushes : Extends surroundings blockTempCount [] 1 argued argued.pushR :=
      pushR_extends argued
    have rest := pushes.trans extendsArguments
    refine ⟨(extendsArgument.trans rest).congr (by simp) (by lia), ?_⟩
    intro operands current world
    have others : ∀ answer : Value × World, Performs surroundings argued after
        (above operands answer) ((fun after => ⟨after.1.2,
          after.1.1.reverse ++ answer.1 :: operands, after.2⟩) <$>
            (values answer.1).run answer.2) := fun answer =>
      Performs.then (pushR_performs argued _) (pushR_grows argued) extendsArguments.toGrows
        (by simp) (performs (answer.1 :: operands) answer.1 answer.2)
    apply (answers.then extendsArgument.toGrows rest.toGrows others).congr
    simp only [StateT.run_bind, StateT.run_pure, map_eq_pure_bind, bind_assoc, pure_bind,
      List.reverse_cons, List.append_assoc, List.singleton_append]

/-- The branches of `and:` and `or:` all lead to the end. -/
def Conditions (surroundings : Surroundings Value World Abandoned)
    (blockTempCount : LiteralValue → Nat) (inBlock : Bool)
    (closures : List (LiteralValue × List SExpression)) (step : Step Value World Abandoned)
    (visit : SExpressionLinearizer → Option (List Nat × SExpressionLinearizer)) : Prop :=
  ∀ before after branches, before.inBlock = inBlock → visit before = some (branches, after) →
    Extends surroundings blockTempCount closures 0 before
        (branches.foldl SExpressionLinearizer.branchTargetOf after) ∧
      Answers surroundings before (branches.foldl SExpressionLinearizer.branchTargetOf after) step

theorem condition_translates {aBoolean : Bool} {block : Visit}
    {blocks : SExpressionLinearizer → Option (List Nat × SExpressionLinearizer)}
    {step rest : Step Value World Abandoned}
    (translates : Translates surroundings blockTempCount inBlock first step block)
    (conditions : Conditions surroundings blockTempCount inBlock second rest blocks) :
    Conditions surroundings blockTempCount inBlock (first ++ second)
      (evaluateUnless surroundings aBoolean step rest)
      (fun linearizer => do
        let branch := linearizer.currentPC
        let linearizer ← block (linearizer.branchIf aBoolean)
        let (branches, linearizer) ← blocks linearizer
        pure (branch :: branches, linearizer)) := by
  intro before after branches own visited
  simp only [Option.bind_eq_bind, Option.bind_eq_some_iff, Option.pure_def, Option.some.injEq,
    Prod.mk.injEq] at visited
  obtain ⟨between, visitedBlock, ⟨others, last⟩, visitedRest, rfl, rfl⟩ := visited
  obtain ⟨extendsBlock, answers⟩ := translates (before.branchIf aBoolean) between own visitedBlock
  obtain ⟨extendsRest, answers'⟩ := conditions between last others
    (extendsBlock.inBlock.trans own) visitedRest
  have inner := extendsBlock.trans extendsRest
  rw [List.foldl_cons, foldl_branchTargetOf]
  refine ⟨inner.guard aBoolean, ?_⟩
  intro operands current world
  have both := answers.bind extendsBlock.toGrows extendsRest.toGrows answers'
  have guarded : Performs surroundings before
      ((others.foldl SExpressionLinearizer.branchTargetOf last).branchTargetOf before.currentPC)
      ⟨current, operands, world⟩ _ :=
    Performs.guard aBoolean (fun _ => both operands current world) inner.appended
  apply guarded.congr
  unfold evaluateUnless
  by_cases skipped : current = surroundings.boolean aBoolean
  · rw [if_pos skipped, if_pos skipped, StateT.run_pure, map_pure]
    rfl
  · rw [if_neg skipped, if_neg skipped]

theorem inlineConditions_translates {receiver : Visit}
    {conditions : SExpressionLinearizer → Option (List Nat × SExpressionLinearizer)}
    {step rest : Step Value World Abandoned}
    (receives : Translates surroundings blockTempCount inBlock first step receiver)
    (others : Conditions surroundings blockTempCount inBlock second rest conditions) :
    Translates surroundings blockTempCount inBlock (first ++ second)
      (fun current => do
        let value ← step current
        rest value)
      (fun linearizer => do
        let linearizer ← receiver linearizer
        let (branches, linearizer) ← conditions linearizer
        pure (branches.foldl SExpressionLinearizer.branchTargetOf linearizer)) := by
  intro before after own visited
  simp only [Option.bind_eq_bind, Option.bind_eq_some_iff, Option.pure_def,
    Option.some.injEq] at visited
  obtain ⟨received, visitedReceiver, ⟨branches, last⟩, visitedConditions, rfl⟩ := visited
  obtain ⟨extendsReceiver, answers⟩ := receives before received own visitedReceiver
  obtain ⟨extendsRest, answers'⟩ := others received last branches
    (extendsReceiver.inBlock.trans own) visitedConditions
  exact ⟨extendsReceiver.trans extendsRest,
    answers.bind extendsReceiver.toGrows extendsRest.toGrows answers'⟩

end Lists

section Trees

variable (surroundings blockTempCount)

mutual

/-- Whatever an expression is compiled to does what it means. -/
theorem accept_translates (inBlock inPlace : Bool) (expression : SExpression) :
    Translates surroundings blockTempCount inBlock (closures inPlace expression)
      (evaluate surroundings inBlock inPlace expression)
      (accept blockTempCount inPlace expression) := by
  cases expression with
  | literal index value => exact literal_translates value
  | identifier binding => exact emit_translates rfl fun _ _ _ => rfl
  | assignment assignees expression =>
    intro before after own visited
    simp only [accept, Option.bind_eq_bind, Option.bind_eq_some_iff, Option.pure_def,
      Option.some.injEq] at visited
    obtain ⟨between, visited, rfl⟩ := visited
    obtain ⟨extends_, answers⟩ :=
      accept_translates inBlock false expression before between own visited
    have assigns : Extends surroundings blockTempCount [] 0 between
        (between.emit (.assign assignees)) := emit_extends between rfl
    exact ⟨(extends_.trans assigns).congr (List.append_nil _) rfl,
      answers.bind extends_.toGrows assigns.toGrows (emit_answers between fun _ _ _ => rfl)⟩
  | «return» isLocal expression =>
    intro before after own visited
    simp only [accept, Option.bind_eq_bind, Option.bind_eq_some_iff, Option.pure_def,
      Option.some.injEq] at visited
    obtain ⟨between, visited, rfl⟩ := visited
    obtain ⟨extends_, answers⟩ :=
      accept_translates inBlock false expression before between own visited
    have returns : Extends surroundings blockTempCount [] 0 between
        (between.return_ isLocal) := by
      unfold SExpressionLinearizer.return_
      split <;> exact emit_extends between rfl
    refine ⟨(extends_.trans returns).congr (List.append_nil _) rfl, ?_⟩
    have ends : Answers surroundings between (between.return_ isLocal) _ :=
      return_answers between isLocal
    rw [extends_.inBlock, own] at ends
    exact answers.bind extends_.toGrows returns.toGrows ends
  | inlinedBlock inlinedArgs statements =>
    intro before after own visited
    cases inPlace with
    | true => exact statements_translate inBlock statements before after own visited
    | false =>
      simp only [accept, Bool.false_eq_true, if_false, Option.bind_eq_bind,
        Option.bind_eq_some_iff, Option.pure_def, Option.some.injEq] at visited
      obtain ⟨inner, visited, rfl⟩ := visited
      exact ⟨inlinedBlock_translates (statements_translate true statements) visited,
        emit_answers before fun _ _ _ => rfl⟩
  | block index compiledCode capturedVariables statements =>
    intro before after own visited
    cases inPlace with
    | true =>
      obtain ⟨extends_, answers⟩ :=
        statements_translate inBlock statements before after own visited
      exact ⟨extends_.congr (List.append_nil _).symm rfl, answers⟩
    | false =>
      simp only [accept, Bool.false_eq_true, if_false, Option.bind_eq_bind,
        Option.bind_eq_some_iff, Option.pure_def, Option.some.injEq] at visited
      obtain ⟨inner, visited, rfl⟩ := visited
      exact ⟨block_translates (statements_translate true statements) visited,
        emit_answers before fun _ _ _ => rfl⟩
  | cascade receiver messages =>
    exact cascade_translates (accept_translates inBlock false receiver)
      (messages_cascade inBlock messages)
  | message receiver selector arguments isInlined =>
    rw [accept.eq_def, evaluate.eq_def, closures.eq_def]
    cases isInlined with
    | false =>
      exact send_translates (accept_translates inBlock false receiver)
        (arguments_gather inBlock arguments)
    | true =>
      have receives := accept_translates inBlock false receiver
      have inPlaces := asBlock_translates receiver (accept_translates inBlock true receiver)
      simp only [if_true]
      cases inlined selector with
      | none => exact none_translates _
      | some kind =>
        cases arguments with
        | nil =>
          cases kind with
          | unitaryWhile aBoolean => exact inlineUnitaryWhile_translates inPlaces
          | «repeat» => exact inlineRepeat_translates inPlaces
          | or => exact inlineConditions_translates receives (conditions_translate inBlock true [])
          | and =>
            exact inlineConditions_translates receives (conditions_translate inBlock false [])
          | _ => exact none_translates _
        | cons first rest =>
          have firsts := accept_translates inBlock true first
          have blocks := asBlock_translates first firsts
          cases kind with
          | if_ aBoolean => exact inlineIf_translates receives blocks
          | ifNil aBoolean => exact inlineIfNil_translates receives firsts
          | unitaryWhile aBoolean => exact inlineUnitaryWhile_translates inPlaces
          | binaryWhile aBoolean => exact inlineBinaryWhile_translates inPlaces blocks
          | «repeat» => exact inlineRepeat_translates inPlaces
          | timesRepeat => exact inlineTimesRepeat_translates receives blocks
          | andNot => exact inlineNot_translates receives blocks
          | orNot => exact inlineNot_translates receives blocks
          | or =>
            exact inlineConditions_translates receives
              (conditions_translate inBlock true (first :: rest))
          | and =>
            exact inlineConditions_translates receives
              (conditions_translate inBlock false (first :: rest))
          | ifNilIfNotNil aBoolean =>
            cases rest with
            | nil => exact none_translates _
            | cons second rest =>
              exact inlineIfNilIfNotNil_translates receives firsts
                (accept_translates inBlock true second)
          | ifTrueIfFalse aBoolean =>
            cases rest with
            | nil => exact none_translates _
            | cons second rest =>
              exact inlineIfTrueIfFalse_translates receives blocks
                (asBlock_translates second (accept_translates inBlock true second))
          | toDo =>
            cases rest with
            | nil => exact none_translates _
            | cons second rest =>
              simp only
              cases inlinedArgs second with
              | nil => exact none_translates _
              | cons index others =>
                exact inlineToDo_translates receives (accept_translates inBlock false first)
                  (accept_translates inBlock true second)
          | toByDo => exact none_translates _

theorem statements_translate (inBlock : Bool) (statements : List SExpression) :
    Translates surroundings blockTempCount inBlock (closuresOf statements)
      (evaluateStatements surroundings inBlock statements)
      (visitStatements blockTempCount statements) := by
  cases statements with
  | nil =>
    rintro before after - ⟨⟩
    exact ⟨Extends.refl before, fun operands current world =>
      (Performs.nothing before _).congr (by rw [evaluateStatements, StateT.run_pure, map_pure]; rfl)⟩
  | cons statement statements =>
    intro before after own visited
    simp only [visitStatements, Option.bind_eq_bind, Option.bind_eq_some_iff] at visited
    obtain ⟨between, visitedFirst, visitedRest⟩ := visited
    obtain ⟨extends_, answers⟩ :=
      accept_translates inBlock false statement before between own visitedFirst
    obtain ⟨extends', answers'⟩ := statements_translate inBlock statements between after
      (extends_.inBlock.trans own) visitedRest
    exact ⟨extends_.trans extends', answers.bind extends_.toGrows extends'.toGrows answers'⟩

theorem arguments_gather (inBlock : Bool) (arguments : List SExpression) :
    Gathers surroundings blockTempCount inBlock (closuresOf arguments) arguments.length
      (evaluateArguments surroundings inBlock arguments)
      (visitArguments blockTempCount arguments) := by
  cases arguments with
  | nil =>
    refine ⟨?_, ?_⟩
    · rintro current world after rfl
      exact ⟨rfl, fun _ => rfl⟩
    · rintro before after - ⟨⟩
      exact ⟨Extends.refl before, fun operands current world =>
        (Performs.nothing before _).congr (by rw [evaluateArguments, StateT.run_pure, map_pure]; rfl)⟩
  | cons argument arguments =>
    exact argument_gathers (accept_translates inBlock false argument)
      (arguments_gather inBlock arguments)

theorem messages_cascade (inBlock : Bool) (messages : List SCascadeMessage) :
    Cascades surroundings blockTempCount inBlock (closuresOfMessages messages)
      (evaluateMessages surroundings inBlock messages)
      (visitCascadeMessages blockTempCount messages) := by
  cases messages with
  | nil =>
    rintro before after - ⟨⟩
    exact ⟨Extends.refl before, fun receiver operands current world =>
      (Performs.nothing before _).congr (by rw [evaluateMessages, StateT.run_pure, map_pure]; rfl)⟩
  | cons message messages =>
    cases message with
    | mk selector arguments =>
      exact message_cascades (arguments_gather inBlock arguments)
        (messages_cascade inBlock messages)

theorem conditions_translate (inBlock aBoolean : Bool) (blocks : List SExpression) :
    Conditions surroundings blockTempCount inBlock (closuresInPlace blocks)
      (evaluateConditions surroundings inBlock aBoolean blocks)
      (visitConditions blockTempCount aBoolean blocks) := by
  cases blocks with
  | nil =>
    rintro before after branches - ⟨⟩
    exact ⟨Extends.refl before, fun operands current world =>
      (Performs.nothing before _).congr (by rw [evaluateConditions, StateT.run_pure, map_pure]; rfl)⟩
  | cons block blocks =>
    exact condition_translates (asBlock_translates block (accept_translates inBlock true block))
      (conditions_translate inBlock aBoolean blocks)

end

end Trees

section Methods

/-- A primitive with a return behind it, which is skipped if the primitive fails. -/
theorem primitive_does (surroundings : Surroundings Value World Abandoned) (temps : Int)
    (name : Option LiteralValue) (stackTop : Int) (current : Value) (world : World) :
    (evaluator surroundings temps).Does 0
      [⟨.primitive name, stackTop, none⟩, ⟨.return, stackTop, none⟩] ⟨current, [], world⟩
      (above [] <$> (do
        let tried ← surroundings.primitive name
        tried.elim (pure current) fun value => leave (.returned value) :
          Meaning Value World Abandoned Value).run world) := by
  have returns : ∀ registers : Registers Value World, (evaluator surroundings temps).Does (0 + 1)
      [⟨.return, stackTop, none⟩] registers
      (Outcomes.stop (.returned registers.R registers.world)) := fun registers =>
    Semantics.Does.single (Outcomes.map_stop _ _).symm
  have decides : evaluator surroundings temps ⟨.primitive name, stackTop, none⟩ 0
      ⟨current, [], world⟩ =
    (fun choice : Bool × Registers Value World =>
      (if choice.1 then 0 + 1 + [(⟨.return, stackTop, none⟩ : Emitted)].length else 0 + 1,
        choice.2)) <$>
      (fun after : Option Value × World =>
        after.1.elim (true, above [] (current, after.2)) fun value =>
          (false, above [] (value, after.2))) <$> (surroundings.primitive name).run world := by
    rw [← comp_map]
    refine congrArg (· <$> (surroundings.primitive name).run world) (funext fun after => ?_)
    rcases after with ⟨_ | value, world⟩ <;> rfl
  have guarded := Semantics.Does.guard decides returns
  rw [bind_map_left] at guarded
  rw [StateT.run_bind, map_bind]
  convert guarded using 3 with after
  rcases after with ⟨_ | value, world⟩
  · exact map_pure _ _
  · exact Outcomes.map_stop _ _

theorem visitPragma_does (surroundings : Surroundings Value World Abandoned)
    (hasPrimitive : Option LiteralValue → Bool) (isFFI : Bool) (method : SMethod)
    (before : SExpressionLinearizer) (fresh : before.operations = []) (temps : Int)
    (current : Value) (world : World) :
    (evaluator surroundings temps).Does 0
      (visitPragma hasPrimitive isFFI method before).operations ⟨current, [], world⟩
      (above [] <$> (evaluatePragma surroundings hasPrimitive isFFI method current).run world) := by
  have nothing : (evaluator surroundings temps).Does 0 before.operations ⟨current, [], world⟩
      (above [] <$> (pure current : Meaning Value World Abandoned Value).run world) := by
    rw [fresh, StateT.run_pure, map_pure]
    exact Semantics.Does.nothing 0 _
  unfold visitPragma evaluatePragma
  cases primitiveName isFFI method with
  | none => exact nothing
  | some name =>
    simp only
    cases hasPrimitive name with
    | false => exact nothing
    | true =>
      have segment : ((before.emit (.primitive name)).returnOp).operations =
          [⟨.primitive name, before.stackTop, none⟩, ⟨.return, before.stackTop, none⟩] := by
        simp [SExpressionLinearizer.returnOp, SExpressionLinearizer.emit, fresh]
      simp only [if_true]
      rw [segment]
      exact primitive_does surroundings temps name before.stackTop current world

theorem visitPragma_kept (hasPrimitive : Option LiteralValue → Bool) (isFFI : Bool)
    (method : SMethod) (before : SExpressionLinearizer) (fresh : before.operations = []) :
    (visitPragma hasPrimitive isFFI method before).pops = 0 ∧
      (visitPragma hasPrimitive isFFI method before).inBlock = before.inBlock ∧
      (visitPragma hasPrimitive isFFI method before).executables = before.executables := by
  have none : before.pops = 0 := by rw [SExpressionLinearizer.pops, fresh]; rfl
  unfold visitPragma
  split
  · exact ⟨none, rfl, rfl⟩
  · split
    · refine ⟨?_, rfl, rfl⟩
      rw [SExpressionLinearizer.returnOp, emit_pops _ rfl, emit_pops _ rfl, none]
    · exact ⟨none, rfl, rfl⟩

/-- The code of a method does what the method means, and so does the code of each of its blocks,
if the operations on the frame find their operands. -/
theorem visitMethod_realizes (surroundings : Surroundings Value World Abandoned)
    (blockTempCount : LiteralValue → Nat) (hasPrimitive : Option LiteralValue → Bool)
    (isFFI : Bool) (tempCount : Nat) (method : SMethod) (before after : SExpressionLinearizer)
    (visited : visitMethod blockTempCount hasPrimitive isFFI tempCount method before =
      some after) :
    (Addressed tempCount after.operations → Realizes surroundings tempCount after.operations
      (evaluateMethod surroundings hasPrimitive isFFI method)) ∧
      ∃ installed, after.executables = before.executables ++ installed ∧
        List.Forall₂ (Installs surroundings blockTempCount) (closuresOf method.statements)
          installed := by
  simp only [visitMethod, Option.bind_eq_bind, Option.bind_eq_some_iff, Option.pure_def,
    Option.some.injEq] at visited
  obtain ⟨between, visitedStatements, rfl⟩ := visited
  obtain ⟨pops, own, executables⟩ := visitPragma_kept hasPrimitive isFFI method before.reset rfl
  obtain ⟨extends_, answers⟩ := statements_translate surroundings blockTempCount false
    method.statements _ between (by exact own) visitedStatements
  obtain ⟨finished, ends⟩ := finishMethod_answers extends_ answers
  constructor
  · intro addressed current world
    obtain ⟨segment, appended⟩ := finished.appended
    have head := visitPragma_does surroundings hasPrimitive isFFI method before.reset rfl tempCount
      current world
    have body := fun answer : Value × World =>
      ends [] answer.1 answer.2 tempCount segment appended addressed (
        congrArg (fun count : Nat => (tempCount : Int) + count) pops)
    have whole := head.append fun answer _ => by
      rw [Nat.zero_add]
      exact body answer
    rw [← appended] at whole
    have done := whole _ (.whole _)
    rw [Nat.zero_add] at done
    rw [done, ← map_bind, ← comp_map]
    rfl
  · obtain ⟨installed, appended, installs⟩ := finished.installs
    exact ⟨installed, appended.trans (congrArg (· ++ installed) executables), installs⟩

/-- Numbers, booleans and nil, with the temporaries for a world; no other message is understood. -/
def smallIntegers : Surroundings (Option (Int ⊕ Bool)) (Int → Option (Int ⊕ Bool)) LiteralValue where
  nilObj := none
  trueObj := some (.inr true)
  falseObj := some (.inr false)
  literal
    | .integer value => some (.inl value)
    | _ => none
  self _ := none
  temporary index temporaries := temporaries index
  setTemporary index value temporaries := Function.update temporaries index value
  valueOf _ := pure none
  assign _ _ := pure ()
  closure _ _ := pure none
  send
    | .symbol ">", _, some (.inl first), [some (.inl second)] =>
      pure (some (.inr (decide (first > second))))
    | .symbol "+", _, some (.inl first), [some (.inl second)] =>
      pure (some (.inl (first + second)))
    | selector, _, _, _ => leave fun _ => .abandoned selector
  primitive _ := pure none

theorem visitMethod_realizes_loop :
    ∃ after, visitMethod (fun _ => 0) (fun _ => false) false 1 ⟨none, [countsToTwo]⟩ fresh =
        some after ∧
      Realizes smallIntegers 1 after.operations
        (evaluateMethod smallIntegers (fun _ => false) false ⟨none, [countsToTwo]⟩) := by
  obtain ⟨after, visited, addressed⟩ := (Option.any_eq_true _ _).mp (by decide :
    (visitMethod (fun _ => 0) (fun _ => false) false 1 ⟨none, [countsToTwo]⟩ fresh).any
      (fun after => decide (Addressed 1 after.operations)) = true)
  exact ⟨after, visited, (visitMethod_realizes smallIntegers (fun _ => 0) (fun _ => false) false 1
    ⟨none, [countsToTwo]⟩ fresh after visited).1 (of_decide_eq_true addressed)⟩

end Methods

end Egg.Linearizer
