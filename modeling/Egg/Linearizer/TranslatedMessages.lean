import Egg.Linearizer.Translation

/-! The code of messages does what they mean, if the code of their parts does. -/
namespace Egg.Linearizer

open Egg.Treecode Egg.Data Egg.Data.StructuredCode

variable {Value World Abandoned : Type} {surroundings : Surroundings Value World Abandoned}
  [DecidableEq Value] {blockTempCount : LiteralValue → Nat} {inBlock : Bool}
  {before between after : SExpressionLinearizer} {registers : Registers Value World}
  {first second third : List (LiteralValue × List SExpression)} {growth further depth : Int}

section Operations

variable {does : Outcomes (Ended Value World Abandoned) (Registers Value World)}
  {operation : Operation}

theorem emit_grows (before : SExpressionLinearizer) (passes : operation.pops = false) :
    Grows 0 before (before.emit operation) :=
  ⟨by rw [SExpressionLinearizer.depth_emit _ passes, Int.add_zero], ⟨_, rfl⟩⟩

theorem pushR_grows (before : SExpressionLinearizer) : Grows 1 before before.pushR :=
  ⟨before.depth_pushR, ⟨_, rfl⟩⟩

theorem dropToS_grows (before : SExpressionLinearizer) (count : Nat) :
    Grows (-count) before (before.dropToS count) :=
  ⟨before.depth_dropToS count, ⟨_, rfl⟩⟩

theorem emit_extends (before : SExpressionLinearizer) (passes : operation.pops = false) :
    Extends surroundings blockTempCount [] 0 before (before.emit operation) :=
  Extends.code rfl (by rw [SExpressionLinearizer.depth_emit _ passes, Int.add_zero]) rfl rfl

theorem pushR_extends (before : SExpressionLinearizer) :
    Extends surroundings blockTempCount [] 1 before before.pushR :=
  Extends.code rfl before.depth_pushR rfl rfl

theorem dropToS_extends (before : SExpressionLinearizer) (count : Nat) :
    Extends surroundings blockTempCount [] (-count) before (before.dropToS count) :=
  Extends.code rfl (before.depth_dropToS count) rfl rfl

/-- An operation after which the registers are known. -/
theorem PerformsAt.proceeds {operand : Option Nat} {next : Registers Value World}
    (appended : after.operations = before.operations ++ [⟨operation, before.stackTop, operand⟩])
    (goes : ∀ temps : Int, Addressed temps after.operations →
      depth = temps + registers.operands.length →
      operation.perform surroundings temps before.currentPC registers =
        proceed before.currentPC (some next)) :
    PerformsAt surroundings depth before after registers (pure next) := by
  apply PerformsAt.emit appended
  intro temps addressed deep
  rw [goes temps addressed deep, map_pure]
  rfl

theorem pushR_performs (before : SExpressionLinearizer) (registers : Registers Value World) :
    PerformsAt surroundings depth before before.pushR registers
      (pure { registers with operands := registers.R :: registers.operands }) :=
  PerformsAt.proceeds rfl fun _ _ _ => rfl

theorem dropToS_performs (before : SExpressionLinearizer) (value : Value) (dropped : List Value)
    {count : Nat} (counted : dropped.length = count) (operands : List Value) (world : World) :
    PerformsAt surroundings depth before (before.dropToS count) ⟨value, dropped ++ operands, world⟩
      (pure ⟨value, operands, world⟩) := by
  apply PerformsAt.proceeds rfl
  intro temps _ _
  subst counted
  simp [Operation.perform, proceed]

theorem load_performs (before : SExpressionLinearizer) {value : Value} {index : Nat}
    (there : registers.operands[index]? = some value) :
    PerformsAt surroundings depth before (before.emit (.loadRfromStack index)) registers
      (pure { registers with R := value }) := by
  apply PerformsAt.proceeds rfl
  intro temps _ _
  simp [Operation.perform, there]

/-- An operation that answers a value. -/
theorem PerformsAt.answers {step : Meaning Value World Abandoned Value}
    (goes : ∀ temps : Int, operation.perform surroundings temps before.currentPC registers =
      answering before.currentPC registers step) :
    PerformsAt surroundings depth before (before.emit operation) registers
      (above registers.operands <$> step.run registers.world) := by
  apply PerformsAt.emit rfl
  intro temps _ _
  rw [goes, answering, ← comp_map]
  rfl

/-- Behind code that leaves certain registers comes other code. -/
theorem Performs.then {next : Registers Value World}
    (left : Performs surroundings before between registers (pure next))
    (grows : Grows growth before between) (behind : Grows further between after)
    (length : (next.operands.length : Int) = registers.operands.length + growth)
    (right : Performs surroundings between after next does) :
    Performs surroundings before after registers does := by
  have known : (fun _ : Unit => next) <$> pure () =
      (pure next : Outcomes (Ended Value World Abandoned) _) := map_pure _ _
  rw [← known] at left
  exact (left.bind grows behind fun _ _ => ⟨length, right⟩).congr (pure_bind _ _)

/-- Behind code that answers what a step means comes other code, from any answer on. -/
theorem Answers.then {step : Step Value World Abandoned} {operands : List Value} {current : Value}
    {world : World}
    {next : Value × World → Outcomes (Ended Value World Abandoned) (Registers Value World)}
    (left : Answers surroundings before between step)
    (grows : Grows 0 before between) (behind : Grows further between after)
    (right : ∀ answer, Performs surroundings between after (above operands answer) (next answer)) :
    Performs surroundings before after ⟨current, operands, world⟩
      ((step current).run world >>= next) :=
  (left operands current world).bind grows behind fun answer _ =>
    ⟨(Int.add_zero _).symm, right answer⟩

/-- One step behind another. -/
theorem Answers.bind {step next : Step Value World Abandoned}
    (left : Answers surroundings before between step)
    (grows : Grows 0 before between) (behind : Grows further between after)
    (right : Answers surroundings between after next) :
    Answers surroundings before after (fun current => step current >>= next) := by
  intro operands current world
  apply (left.then grows behind fun answer => right operands answer.1 answer.2).congr
  rw [StateT.run_bind, map_bind]

end Operations

section Sends

variable {selector : LiteralValue} {isSuper : Bool}

/-- What visits arguments pushes their values, and without any leaves R as it is. -/
structure Gathers (surroundings : Surroundings Value World Abandoned)
    (blockTempCount : LiteralValue → Nat) (inBlock : Bool)
    (closures : List (LiteralValue × List SExpression)) (count : Nat)
    (values : Value → Meaning Value World Abandoned (List Value × Value)) (visit : Visit) :
    Prop where
  counted : ∀ current world after, ((values current).run world).leaves after →
    after.1.1.length = count ∧ (count = 0 → after.1.2 = current)
  translates : ∀ before after, before.inBlock = inBlock → visit before = some after →
    Extends surroundings blockTempCount closures count before after ∧
      ∀ operands current world, Performs surroundings before after ⟨current, operands, world⟩
        ((fun after => ⟨after.1.2, after.1.1.reverse ++ operands, after.2⟩) <$>
          (values current).run world)

/-- The receiver is loaded from below the arguments, and both are dropped behind the send. -/
theorem deliver_performs (before : SExpressionLinearizer) (last value : Value)
    (values operands : List Value) (world : World) :
    Performs surroundings before
      (((before.emit (.loadRfromStack values.length)).dispatch selector isSuper
        values.length).dropToS (values.length + 1))
      ⟨last, values.reverse ++ value :: operands, world⟩
      (above operands <$> (surroundings.send selector isSuper value values).run world) := by
  have loads : Performs surroundings before (before.emit (.loadRfromStack values.length))
      ⟨last, values.reverse ++ value :: operands, world⟩
      (pure ⟨value, values.reverse ++ value :: operands, world⟩) :=
    load_performs before (by simp)
  have loaded : Grows 0 before (before.emit (.loadRfromStack values.length)) :=
    emit_grows before rfl
  have sent : Grows 0 (before.emit (.loadRfromStack values.length))
      ((before.emit (.loadRfromStack values.length)).dispatch selector isSuper values.length) :=
    emit_grows _ rfl
  have dropped : Grows (-(values.length + 1 : Nat)) _ _ :=
    dropToS_grows ((before.emit (.loadRfromStack values.length)).dispatch selector isSuper
      values.length) (values.length + 1)
  have sends : Performs surroundings (before.emit (.loadRfromStack values.length))
      ((before.emit (.loadRfromStack values.length)).dispatch selector isSuper values.length)
      ⟨value, values.reverse ++ value :: operands, world⟩
      (above (values.reverse ++ value :: operands) <$>
        (surroundings.send selector isSuper value values).run world) := by
    apply PerformsAt.answers
    intro temps
    simp [Operation.perform]
  apply loads.then loaded (sent.trans dropped) (by simp)
  rw [map_eq_pure_bind]
  apply sends.bind sent dropped
  intro answer _
  refine ⟨by simp [above], ?_⟩
  have split : above (values.reverse ++ value :: operands) answer =
      ⟨answer.1, (values.reverse ++ [value]) ++ operands, answer.2⟩ := by
    simp [above]
  rw [split]
  exact dropToS_performs _ answer.1 (values.reverse ++ [value]) (by simp) operands answer.2

theorem deliver_grows (before : SExpressionLinearizer) (selector : LiteralValue) (isSuper : Bool)
    (count : Nat) : Grows (0 + (0 + -(count + 1 : Nat))) before
      (((before.emit (.loadRfromStack count)).dispatch selector isSuper count).dropToS
        (count + 1)) :=
  (emit_grows before rfl).trans ((emit_grows _ rfl).trans (dropToS_grows _ _))

theorem deliver_extends (before : SExpressionLinearizer) (selector : LiteralValue)
    (isSuper : Bool) (count : Nat) :
    Extends surroundings blockTempCount [] (-(count + 1 : Nat)) before
      (((before.emit (.loadRfromStack count)).dispatch selector isSuper count).dropToS
        (count + 1)) :=
  ((emit_extends before rfl).trans ((emit_extends _ rfl).trans (dropToS_extends _ _))).congr rfl
    (by lia)

/-- A send that is not inlined. -/
theorem send_translates {argsize : Nat} {receiver arguments : Visit}
    {step : Step Value World Abandoned}
    {values : Value → Meaning Value World Abandoned (List Value × Value)}
    (receives : Translates surroundings blockTempCount inBlock first step receiver)
    (gathers : Gathers surroundings blockTempCount inBlock second argsize values arguments) :
    Translates surroundings blockTempCount inBlock (first ++ second)
      (evaluateSend surroundings selector isSuper step values)
      (send selector isSuper argsize receiver arguments) := by
  intro before after own visited
  simp only [send, Option.bind_eq_bind, Option.bind_eq_some_iff, Option.pure_def,
    Option.some.injEq] at visited
  obtain ⟨received, visitedReceiver, argued, visitedArguments, rfl⟩ := visited
  obtain ⟨extendsReceiver, answers⟩ := receives before received own visitedReceiver
  have own' := extendsReceiver.inBlock.trans own
  by_cases some : 0 < argsize
  · simp only [if_pos some] at visitedArguments ⊢
    obtain ⟨extendsArguments, performs⟩ :=
      gathers.translates received.pushR argued own' visitedArguments
    have pushes : Extends surroundings blockTempCount [] 1 received received.pushR :=
      pushR_extends received
    have delivers : Extends surroundings blockTempCount [] (-(argsize + 1 : Nat)) argued _ :=
      deliver_extends argued selector isSuper argsize
    rw [SExpressionLinearizer.dropMessageArgs, if_neg (Nat.ne_of_gt some)]
    have rest := (pushes.trans (extendsArguments.trans delivers)).congr
      (show [] ++ (second ++ []) = second by simp) (show _ = (0 : Int) by lia)
    refine ⟨extendsReceiver.trans rest, ?_⟩
    intro operands current world
    have delivered : ∀ answer, Performs surroundings received
        (((argued.emit (.loadRfromStack argsize)).dispatch selector isSuper argsize).dropToS
          (argsize + 1)) (above operands answer)
        ((values answer.1).run answer.2 >>= fun gathered =>
          above operands <$>
            (surroundings.send selector isSuper answer.1 gathered.1.1).run gathered.2) := by
      intro answer
      refine Performs.then (pushR_performs received (above operands answer)) (pushR_grows received)
        (extendsArguments.trans delivers).toGrows (by simp [above]) ?_
      refine (performs (answer.1 :: operands) answer.1 answer.2).bind extendsArguments.toGrows delivers.toGrows ?_
      intro gathered leaves
      obtain ⟨length, -⟩ := gathers.counted _ _ _ leaves
      subst length
      exact ⟨by simp; lia, deliver_performs argued _ _ _ _ _⟩
    apply (answers.then extendsReceiver.toGrows rest.toGrows delivered).congr
    simp only [evaluateSend, StateT.run_bind, map_bind]
  · obtain rfl : argsize = 0 := Nat.eq_zero_of_not_pos some
    simp only [Nat.lt_irrefl, if_false] at visitedArguments ⊢
    obtain ⟨extendsArguments, performs⟩ :=
      gathers.translates received argued own' visitedArguments
    have sends : Extends surroundings blockTempCount [] 0 argued
        (argued.dispatch selector isSuper 0) := emit_extends argued rfl
    rw [SExpressionLinearizer.dropMessageArgs, if_pos rfl]
    have rest := (extendsArguments.trans sends).congr
      (show second ++ [] = second by simp) (show _ = (0 : Int) by lia)
    refine ⟨extendsReceiver.trans rest, ?_⟩
    intro operands current world
    have delivered : ∀ answer, Performs surroundings received
        (argued.dispatch selector isSuper 0) (above operands answer)
        ((values answer.1).run answer.2 >>= fun gathered =>
          above operands <$>
            (surroundings.send selector isSuper answer.1 gathered.1.1).run gathered.2) := by
      intro answer
      refine (performs operands answer.1 answer.2).bind extendsArguments.toGrows sends.toGrows ?_
      intro gathered leaves
      obtain ⟨length, same⟩ := gathers.counted _ _ _ leaves
      obtain none := List.length_eq_zero_iff.mp length
      refine ⟨by simp [none], ?_⟩
      rw [none, same rfl]
      apply PerformsAt.answers
      intro temps
      simp [Operation.perform]
    apply (answers.then extendsReceiver.toGrows rest.toGrows delivered).congr
    simp only [evaluateSend, StateT.run_bind, map_bind]

/-- What loads a value emits code and installs no block. -/
def Loads (surroundings : Surroundings Value World Abandoned) (blockTempCount : LiteralValue → Nat)
    (visit : Visit) : Prop :=
  ∀ before after, visit before = some after → Extends surroundings blockTempCount [] 0 before after

theorem loaded_extends {current operand : Visit}
    (visited : send selector false 1 current (pushed operand) before = some after)
    (currents : Loads surroundings blockTempCount current)
    (operands : Loads surroundings blockTempCount operand) :
    Extends surroundings blockTempCount [] 0 before after := by
  simp only [send, pushed, Option.bind_eq_bind, Option.bind_eq_some_iff, Option.pure_def,
    Option.some.injEq, Option.map_eq_some_iff, Nat.lt_add_one, if_true] at visited
  obtain ⟨received, visitedCurrent, argued, ⟨loaded, visitedOperand, rfl⟩, rfl⟩ := visited
  rw [SExpressionLinearizer.dropMessageArgs, if_neg Nat.one_ne_zero]
  have delivers := ((pushR_extends loaded).trans
    (deliver_extends loaded.pushR selector false 1 : Extends surroundings blockTempCount _ _ _ _))
  exact ((currents _ _ visitedCurrent).trans ((pushR_extends received).trans
    ((operands _ _ visitedOperand).trans delivers))).congr rfl (by lia)

/-- A send whose receiver and argument are loaded, and are known. -/
theorem loaded_performs {current operand : Visit} {R value argument : Value}
    {operands : List Value} {world : World}
    (visited : send selector false 1 current (pushed operand) before = some after)
    (currents : ∀ between, current before = some between → Grows 0 before between ∧
      Performs surroundings before between ⟨R, operands, world⟩ (pure ⟨value, operands, world⟩))
    (arguments : ∀ between last, Grows 1 before between →
      operand between = some last → Grows 0 between last ∧
        Performs surroundings between last ⟨value, value :: operands, world⟩
          (pure ⟨argument, value :: operands, world⟩)) :
    Performs surroundings before after ⟨R, operands, world⟩
      (above operands <$> (surroundings.send selector false value [argument]).run world) := by
  simp only [send, pushed, Option.bind_eq_bind, Option.bind_eq_some_iff, Option.pure_def,
    Option.some.injEq, Option.map_eq_some_iff, Nat.lt_add_one, if_true] at visited
  obtain ⟨received, visitedCurrent, argued, ⟨loaded, visitedOperand, rfl⟩, rfl⟩ := visited
  obtain ⟨growsCurrent, loads⟩ := currents received visitedCurrent
  have pushes := pushR_grows received
  obtain ⟨growsOperand, loads'⟩ := arguments received.pushR loaded
    (growsCurrent.trans pushes) visitedOperand
  have pushes' := pushR_grows loaded
  have delivers := deliver_grows loaded.pushR selector false 1
  rw [SExpressionLinearizer.dropMessageArgs, if_neg Nat.one_ne_zero]
  have last := pushes'.trans delivers
  have rest := growsOperand.trans last
  apply loads.then growsCurrent (pushes.trans rest) (by simp)
  apply Performs.then (pushR_performs received _) pushes rest (by simp)
  apply loads'.then growsOperand last (by simp)
  apply Performs.then (pushR_performs loaded _) pushes' delivers (by simp)
  exact deliver_performs loaded.pushR argument value [argument] operands world

end Sends

section Conditionals

variable {aBoolean : Bool} {receiver script other : Visit}
  {step body body' : Step Value World Abandoned}

theorem inlineIf_translates
    (receives : Translates surroundings blockTempCount inBlock first step receiver)
    (scripts : Translates surroundings blockTempCount inBlock second body script) :
    Translates surroundings blockTempCount inBlock (first ++ second)
      (evaluateIf surroundings aBoolean step body) (inlineIf aBoolean receiver script) := by
  intro before after own visited
  simp only [inlineIf, Option.bind_eq_bind, Option.bind_eq_some_iff, Option.pure_def,
    Option.some.injEq] at visited
  obtain ⟨received, visitedReceiver, taken, visitedScript, rfl⟩ := visited
  obtain ⟨extendsReceiver, answers⟩ := receives before received own visitedReceiver
  obtain ⟨extendsScript, performs⟩ := scripts (received.branchIf (!aBoolean)) taken
    (extendsReceiver.inBlock.trans own) visitedScript
  have loads : Extends surroundings blockTempCount [] 0
      (taken.jump.branchTargetOf received.currentPC) _ := emit_extends _ (rfl :
        Operation.loadRwithNil.pops = false)
  have rest := ((extendsScript.arms (!aBoolean) loads).congr (List.append_nil _) rfl)
  refine ⟨extendsReceiver.trans rest, ?_⟩
  intro operands current world
  have arms : ∀ answer, Performs surroundings received _ (above operands answer)
      (if answer.1 = surroundings.boolean (!aBoolean) then
        pure (above operands (surroundings.nilObj, answer.2))
      else above operands <$> (body answer.1).run answer.2) := fun answer =>
    Performs.arms (!aBoolean) (fun _ => performs operands answer.1 answer.2)
      (fun _ => PerformsAt.proceeds rfl fun _ _ _ => rfl) extendsScript.appended loads.appended
  apply (answers.then extendsReceiver.toGrows rest.toGrows arms).congr
  rw [evaluateIf, StateT.run_bind, map_bind]
  congr 1
  funext answer
  split
  · rw [StateT.run_pure, map_pure]
  · rfl

theorem inlineIfTrueIfFalse_translates
    (receives : Translates surroundings blockTempCount inBlock first step receiver)
    (scripts : Translates surroundings blockTempCount inBlock second body script)
    (others : Translates surroundings blockTempCount inBlock third body' other) :
    Translates surroundings blockTempCount inBlock (first ++ (second ++ third))
      (evaluateIfTrueIfFalse surroundings aBoolean step body body')
      (inlineIfTrueIfFalse aBoolean receiver script other) := by
  intro before after own visited
  simp only [inlineIfTrueIfFalse, Option.bind_eq_bind, Option.bind_eq_some_iff, Option.pure_def,
    Option.some.injEq] at visited
  obtain ⟨received, visitedReceiver, taken, visitedScript, left, visitedOther, rfl⟩ := visited
  obtain ⟨extendsReceiver, answers⟩ := receives before received own visitedReceiver
  have own' := extendsReceiver.inBlock.trans own
  obtain ⟨extendsScript, performs⟩ := scripts (received.branchIf (!aBoolean)) taken own'
    visitedScript
  obtain ⟨extendsOther, performs'⟩ := others (taken.jump.branchTargetOf received.currentPC) left
    (extendsScript.inBlock.trans own') visitedOther
  have rest := extendsScript.arms (!aBoolean) extendsOther
  have deep : (taken.jump.branchTargetOf received.currentPC).depth = received.depth := by
    simp [extendsScript.depth]
  refine ⟨extendsReceiver.trans rest, ?_⟩
  intro operands current world
  have arms : ∀ answer, Performs surroundings received _ (above operands answer)
      (if answer.1 = surroundings.boolean (!aBoolean) then
        above operands <$> (body' answer.1).run answer.2
      else above operands <$> (body answer.1).run answer.2) := fun answer =>
    Performs.arms (!aBoolean) (fun _ => performs operands answer.1 answer.2)
      (fun _ => deep ▸ performs' operands answer.1 answer.2) extendsScript.appended
      extendsOther.appended
  apply (answers.then extendsReceiver.toGrows rest.toGrows arms).congr
  rw [evaluateIfTrueIfFalse, StateT.run_bind, map_bind]
  congr 1
  funext answer
  split <;> rfl

theorem inlineNot_translates
    (receives : Translates surroundings blockTempCount inBlock first step receiver)
    (scripts : Translates surroundings blockTempCount inBlock second body script) :
    Translates surroundings blockTempCount inBlock (first ++ second)
      (evaluateNot surroundings aBoolean step body) (inlineNot aBoolean receiver script) := by
  intro before after own visited
  simp only [inlineNot, Option.bind_eq_bind, Option.bind_eq_some_iff, Option.pure_def,
    Option.some.injEq] at visited
  obtain ⟨received, visitedReceiver, taken, visitedScript, rfl⟩ := visited
  obtain ⟨extendsReceiver, answers⟩ := receives before received own visitedReceiver
  obtain ⟨extendsScript, performs⟩ := scripts (received.branchIf aBoolean) taken
    (extendsReceiver.inBlock.trans own) visitedScript
  have sends : Extends surroundings blockTempCount [] 0 taken
      (taken.dispatch (.symbol "not") false 0) := emit_extends taken rfl
  have inner := (extendsScript.trans sends).congr (List.append_nil _) rfl
  have rest := inner.guard aBoolean
  refine ⟨extendsReceiver.trans rest, ?_⟩
  intro operands current world
  have negates : ∀ answer, Performs surroundings (received.branchIf aBoolean)
      (taken.dispatch (.symbol "not") false 0) (above operands answer)
      ((body answer.1).run answer.2 >>= fun value => above operands <$>
        (surroundings.send (.symbol "not") false value.1 []).run value.2) := fun answer =>
    performs.then extendsScript.toGrows sends.toGrows fun value => PerformsAt.answers fun temps => by
      simp [Operation.perform, above]
  have guarded : ∀ answer, Performs surroundings received _ (above operands answer)
      (if answer.1 = surroundings.boolean aBoolean then pure (above operands answer) else
        (body answer.1).run answer.2 >>= fun value => above operands <$>
          (surroundings.send (.symbol "not") false value.1 []).run value.2) := fun answer =>
    Performs.guard aBoolean (fun _ => negates answer) inner.appended
  apply (answers.then extendsReceiver.toGrows rest.toGrows guarded).congr
  rw [evaluateNot, StateT.run_bind, map_bind]
  congr 1
  funext answer
  split
  · rw [StateT.run_pure, map_pure]
  · rw [StateT.run_bind, map_bind]

end Conditionals

section Loops

variable {aBoolean : Bool} {receiver script : Visit} {step body : Step Value World Abandoned}

omit [DecidableEq Value] in
/-- The operands are the same in all rounds. -/
theorem above_sized (operands : List Value) (one other : Value × World) :
    (above operands one).operands.length = (above operands other).operands.length := rfl

theorem again_translates {operation : Operation} (passes : operation.pops = false)
    {test : Value → Prop} [DecidablePred test]
    (receives : Translates surroundings blockTempCount inBlock first step receiver)
    (own : before.inBlock = inBlock) (visited : receiver before = some between)
    (decides : ∀ (temps : Int) position registers,
      operation.perform surroundings temps position registers =
        pure (if test registers.R then before.currentPC else position + 1, registers)) :
    Extends surroundings blockTempCount first 0 before (between.emit operation) ∧
      Answers surroundings before (between.emit operation) (rounds fun current => do
        let value ← step current
        pure (if test value then .inl value else .inr value)) := by
  obtain ⟨extends_, answers⟩ := receives before between own visited
  refine ⟨(extends_.trans (emit_extends between passes)).congr (List.append_nil _) rfl, ?_⟩
  intro operands current world
  have repeated := Performs.again (above operands) decides (above_sized operands)
    (fun x => answers operands x.1 x.2) extends_.appended (current, world)
  apply repeated.congr
  congr 1
  unfold rounds
  congr 1
  funext x
  rw [StateT.run_bind, map_bind]
  congr 1
  funext y
  rw [StateT.run_pure, map_pure]
  by_cases back : test y.1
  · rw [if_pos (show test (above operands y).R from back), if_pos back]
    rfl
  · rw [if_neg (show ¬ test (above operands y).R from back), if_neg back]
    rfl

theorem inlineUnitaryWhile_translates
    (receives : Translates surroundings blockTempCount inBlock first step receiver) :
    Translates surroundings blockTempCount inBlock first
      (evaluateUnitaryWhile surroundings aBoolean step) (inlineUnitaryWhile aBoolean receiver) := by
  intro before after own visited
  simp only [inlineUnitaryWhile, Option.bind_eq_bind, Option.bind_eq_some_iff, Option.pure_def,
    Option.some.injEq] at visited
  obtain ⟨received, visitedReceiver, rfl⟩ := visited
  have patched := setTarget_emit received (branch aBoolean SExpressionLinearizer.unset)
    before.currentPC
  rw [branch_target] at patched
  rw [SExpressionLinearizer.branchIf, ← branch, patched]
  exact again_translates (branch_pops _ _) receives own visitedReceiver
    fun temps position registers => branch_perform aBoolean _ position temps

theorem inlineRepeat_translates
    (receives : Translates surroundings blockTempCount inBlock first step receiver) :
    Translates surroundings blockTempCount inBlock first (evaluateRepeat step)
      (inlineRepeat receiver) := by
  intro before after own visited
  simp only [inlineRepeat, Option.bind_eq_bind, Option.bind_eq_some_iff, Option.pure_def,
    Option.some.injEq] at visited
  obtain ⟨received, visitedReceiver, rfl⟩ := visited
  obtain ⟨extends_, answers⟩ := receives before received own visitedReceiver
  refine ⟨(extends_.trans (emit_extends received rfl)).congr (List.append_nil _) rfl, ?_⟩
  have returns : ∀ (temps : Int) position (registers : Registers Value World),
      (Operation.jump before.currentPC).perform surroundings temps position registers =
        pure (if True then before.currentPC else position + 1, registers) := by
    intro temps position registers
    rw [if_pos trivial]
    rfl
  intro operands current world
  have repeated := Performs.again (above operands) returns (above_sized operands)
    (fun x => answers operands x.1 x.2) extends_.appended (current, world)
  apply repeated.congr
  congr 1
  unfold evaluateRepeat rounds
  congr 1
  funext x
  rw [StateT.run_map, ← comp_map, map_eq_pure_bind]
  congr 1

theorem inlineBinaryWhile_translates
    (receives : Translates surroundings blockTempCount inBlock first step receiver)
    (scripts : Translates surroundings blockTempCount inBlock second body script) :
    Translates surroundings blockTempCount inBlock (first ++ second)
      (evaluateBinaryWhile surroundings aBoolean step body)
      (inlineBinaryWhile aBoolean receiver script) := by
  intro before after own visited
  simp only [inlineBinaryWhile, Option.bind_eq_bind, Option.bind_eq_some_iff, Option.pure_def,
    Option.some.injEq] at visited
  obtain ⟨received, visitedReceiver, taken, visitedScript, rfl⟩ := visited
  obtain ⟨extendsReceiver, answers⟩ := receives before received own visitedReceiver
  obtain ⟨extendsScript, performs⟩ := scripts (received.branchIf (!aBoolean)) taken
    (extendsReceiver.inBlock.trans own) visitedScript
  refine ⟨extendsReceiver.loop (!aBoolean) extendsScript, ?_⟩
  intro operands current world
  have looped := Performs.loop (above operands) (!aBoolean) (above_sized operands)
    (fun x => answers operands x.1 x.2) (fun x _ => performs operands x.1 x.2) extendsReceiver.toGrows
    extendsScript.appended (current, world)
  apply looped.congr
  congr 1
  unfold evaluateBinaryWhile rounds
  congr 1
  funext x
  rw [StateT.run_bind, map_bind]
  congr 1
  funext y
  by_cases out : y.1 = surroundings.boolean (!aBoolean)
  · rw [if_pos (show (above operands y).R = _ from out), if_pos out, StateT.run_pure, map_pure]
    rfl
  · rw [if_neg (show ¬ (above operands y).R = _ from out), if_neg out, StateT.run_map, ← comp_map]
    rfl

end Loops

end Egg.Linearizer
