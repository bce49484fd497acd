import Egg.Linearizer.TranslatedMessages

/-! The code of messages that keep something on the stack does what they mean. -/
namespace Egg.Linearizer

open Egg.Treecode Egg.Data Egg.Data.StructuredCode

variable {Value World Abandoned : Type} {surroundings : Surroundings Value World Abandoned}
  [DecidableEq Value] {blockTempCount : LiteralValue → Nat} {inBlock : Bool}
  {before between after : SExpressionLinearizer} {registers : Registers Value World}
  {first second third : List (LiteralValue × List SExpression)} {growth further depth : Int}

section Frame

/-- A temporary is where an operation on the frame that is not tagged says. -/
theorem Addressed.temporary {temps index : Int} {operation : Operation}
    (addressed : Addressed temps (before.emit operation).operations)
    (named : operation.frameIndex = some index) : index ≤ temps :=
  (addressed ⟨operation, before.stackTop, none⟩ (List.mem_append_right _ (List.mem_singleton.mpr
    rfl))).1 rfl index named

theorem storeTemporary_performs (before : SExpressionLinearizer) (index : Int)
    (registers : Registers Value World) :
    PerformsAt surroundings depth before (before.emit (.storeRintoFrame index)) registers
      (pure { registers with
        world := surroundings.setTemporary index registers.R registers.world }) := by
  apply PerformsAt.proceeds rfl
  intro temps addressed _
  simp [Operation.perform, Registers.frameAtPut, addressed.temporary rfl]

theorem loadTemporary_performs (before : SExpressionLinearizer) (index : Int)
    (registers : Registers Value World) :
    PerformsAt surroundings depth before (before.emit (.loadRfromFrame index)) registers
      (pure { registers with R := surroundings.temporary index registers.world }) := by
  apply PerformsAt.proceeds rfl
  intro temps addressed _
  simp [Operation.perform, Registers.frameAt, addressed.temporary rfl]

/-- An operand that an operation is tagged with was pushed before any `popR`, and is found behind
the temporaries and the operands below. -/
theorem Addressed.operand {origin : SExpressionLinearizer} {temps : Int} {operation : Operation}
    {below : Nat} (grows : Grows growth origin before)
    (addressed : Addressed temps (before.emitFor origin.currentPC operation).operations)
    (deep : before.depth = temps + below + growth) :
    origin.pushR.stackTop = temps + below + 1 := by
  obtain ⟨rest, appended⟩ := grows.appended
  have none := (addressed ⟨operation, before.stackTop, some origin.currentPC⟩
    (List.mem_append_right _ (List.mem_singleton.mpr rfl))).2 origin.currentPC rfl
  have pops : origin.pops = 0 := by
    rw [← none, Machine.marksBefore]
    simp only [SExpressionLinearizer.emitFor, appended, SExpressionLinearizer.currentPC,
      List.append_assoc, List.take_left]
    rfl
  have counted := grows.depth
  have start : origin.depth = origin.stackTop := by
    rw [SExpressionLinearizer.depth, pops]
    exact Int.add_zero _
  have pushed : origin.pushR.stackTop = origin.stackTop + 1 := rfl
  lia

/-- The place of an operand with so many below it. -/
theorem operand_place (temps : Int) (below : Nat) :
    ¬ temps + below + 1 ≤ temps ∧ (temps + below + 1 - temps - 1).toNat = below := by
  lia

variable {origin : SExpressionLinearizer} {R value : Value} {below : List Value} {world : World}

theorem loadOperand_performs (top : List Value) (grows : Grows (top.length + 1) origin before) :
    Performs surroundings before
      (before.emitFor origin.currentPC (.loadRfromFrame origin.pushR.stackTop))
      ⟨R, top ++ value :: below, world⟩ (pure ⟨value, top ++ value :: below, world⟩) := by
  apply PerformsAt.proceeds rfl
  intro temps addressed deep
  have place : origin.pushR.stackTop = temps + below.length + 1 := by
    apply addressed.operand grows
    rw [deep]
    simp
    lia
  obtain ⟨behind, index⟩ := operand_place temps below.length
  have found : (top ++ value :: below).reverse[below.length]? = some value := by
    rw [List.reverse_append, List.reverse_cons, List.append_assoc,
      List.getElem?_append_right (by simp)]
    simp
  simp only [Operation.perform, Registers.frameAt, place, if_neg behind, index, found]
  rfl

theorem storeOperand_performs (top : List Value) (R : Value) (world : World)
    (grows : Grows (top.length + 1) origin before) :
    Performs surroundings before
      (before.emitFor origin.currentPC (.storeRintoFrame origin.pushR.stackTop))
      ⟨R, top ++ value :: below, world⟩ (pure ⟨R, top ++ R :: below, world⟩) := by
  apply PerformsAt.proceeds rfl
  intro temps addressed deep
  have place : origin.pushR.stackTop = temps + below.length + 1 := by
    apply addressed.operand grows
    rw [deep]
    simp
    lia
  obtain ⟨behind, index⟩ := operand_place temps below.length
  have replaced : ((top ++ value :: below).reverse.set below.length R).reverse =
      top ++ R :: below := by
    rw [List.reverse_append, List.reverse_cons, List.append_assoc,
      List.set_append_right _ _ (by simp)]
    simp
  have inside : below.length < (top ++ value :: below).length := by
    simp
    lia
  simp only [Operation.perform, Registers.frameAtPut, place, if_neg behind, index, replaced,
    if_pos inside]

theorem emitFor_grows (before : SExpressionLinearizer) (operand : Nat) {operation : Operation}
    (passes : operation.pops = false) : Grows 0 before (before.emitFor operand operation) :=
  ⟨by rw [SExpressionLinearizer.depth_emitFor _ _ passes, Int.add_zero], ⟨_, rfl⟩⟩

theorem emitFor_extends (before : SExpressionLinearizer) (operand : Nat) {operation : Operation}
    (passes : operation.pops = false) :
    Extends surroundings blockTempCount [] 0 before (before.emitFor operand operation) :=
  Extends.code rfl (emitFor_grows before operand passes).depth rfl rfl

end Frame

section Nil

variable {aBoolean : Bool} {receiver script other : Visit}
  {step body body' : Step Value World Abandoned}

theorem storeArgument_extends (inlinedArgs : List Int) (before : SExpressionLinearizer) :
    Extends surroundings blockTempCount [] 0 before (storeArgument inlinedArgs before) := by
  unfold storeArgument
  split
  · exact emit_extends before rfl
  · exact Extends.refl before

theorem Performs.nothing (before : SExpressionLinearizer) (registers : Registers Value World) :
    Performs surroundings before before registers (pure registers) := by
  intro temps segment whole _ _
  obtain rfl := List.append_cancel_left (whole.symm.trans (List.append_nil _).symm)
  exact Semantics.Does.nothing _ registers

theorem storeArgument_performs (inlinedArgs : List Int) (before : SExpressionLinearizer)
    (operands : List Value) (value : Value) (world : World) :
    Performs surroundings before (storeArgument inlinedArgs before) ⟨value, operands, world⟩
      ((fun after => ⟨value, operands, after.2⟩) <$>
        (keepArgument surroundings inlinedArgs value).run world) := by
  rcases inlinedArgs with _ | ⟨index, _ | ⟨next, rest⟩⟩
  · apply (Performs.nothing before _).congr
    simp [keepArgument]
  · apply PerformsAt.congr (storeTemporary_performs before index _)
    simp [keepArgument]
  · apply (Performs.nothing before _).congr
    simp [keepArgument]

/-- What precedes the arms: the receiver is kept in its place, pushed, and compared with nil. -/
theorem compared_translates {inlinedArgs : List Int} {received compared : SExpressionLinearizer}
    (receives : Translates surroundings blockTempCount inBlock first step receiver)
    (own : before.inBlock = inBlock) (visitedReceiver : receiver before = some received)
    (visitedCompare : compareToNil (storeArgument inlinedArgs received).pushR = some compared) :
    Extends surroundings blockTempCount first 1 before compared ∧
      ∀ operands current world, Performs surroundings before compared ⟨current, operands, world⟩
        ((fun after => ⟨after.1.2, after.1.1 :: operands, after.2⟩) <$>
          (evaluateCompared surroundings step inlinedArgs current).run world) := by
  obtain ⟨extendsReceiver, answers⟩ := receives before received own visitedReceiver
  have stores : Extends surroundings blockTempCount [] 0 received
      (storeArgument inlinedArgs received) := storeArgument_extends inlinedArgs received
  have pushes : Extends surroundings blockTempCount [] 1 (storeArgument inlinedArgs received) _ :=
    pushR_extends _
  have compares : Extends surroundings blockTempCount [] 0
      (storeArgument inlinedArgs received).pushR compared := by
    apply loaded_extends visitedCompare
    · rintro before after ⟨⟩
      exact emit_extends _ rfl
    · rintro before after ⟨⟩
      exact emit_extends _ rfl
  have asks : ∀ (value : Value) (operands : List Value) (world : World),
      Performs surroundings (storeArgument inlinedArgs received).pushR compared
        ⟨value, value :: operands, world⟩ (above (value :: operands) <$>
          (surroundings.send (.symbol "==") false value [surroundings.nilObj]).run world) := by
    intro value operands world
    apply loaded_performs visitedCompare
    · rintro between ⟨⟩
      exact ⟨emit_grows _ rfl, load_performs _ rfl⟩
    · rintro between last - ⟨⟩
      exact ⟨emit_grows _ rfl, PerformsAt.proceeds rfl fun _ _ _ => rfl⟩
  have last := pushes.trans compares
  have rest := stores.trans last
  refine ⟨(extendsReceiver.trans rest).congr (List.append_nil _) rfl, ?_⟩
  intro operands current world
  have keeps : ∀ answer : Value × World, Performs surroundings received compared
      (above operands answer) ((keepArgument surroundings inlinedArgs answer.1).run answer.2 >>=
        fun kept => above (answer.1 :: operands) <$>
          (surroundings.send (.symbol "==") false answer.1 [surroundings.nilObj]).run kept.2) := by
    intro answer
    apply (storeArgument_performs inlinedArgs received operands answer.1 answer.2).bind
      stores.toGrows last.toGrows
    intro kept _
    refine ⟨by simp, ?_⟩
    exact Performs.then (pushR_performs _ _) (pushR_grows _) compares.toGrows (by simp)
      (asks answer.1 operands kept.2)
  apply (answers.then extendsReceiver.toGrows rest.toGrows keeps).congr
  simp only [evaluateCompared, StateT.run_bind, StateT.run_pure, map_eq_pure_bind, bind_assoc,
    pure_bind, above]

theorem inlineIfNil_translates {inlinedArgs : List Int}
    (receives : Translates surroundings blockTempCount inBlock first step receiver)
    (scripts : Translates surroundings blockTempCount inBlock second body script) :
    Translates surroundings blockTempCount inBlock (first ++ second)
      (evaluateIfNil surroundings aBoolean step inlinedArgs body)
      (inlineIfNil aBoolean receiver inlinedArgs script) := by
  intro before after own visited
  simp only [inlineIfNil, Option.bind_eq_bind, Option.bind_eq_some_iff, Option.pure_def,
    Option.some.injEq] at visited
  obtain ⟨received, visitedReceiver, compared, visitedCompare, taken, visitedScript, rfl⟩ :=
    visited
  obtain ⟨extendsCompared, asks⟩ := compared_translates receives own visitedReceiver
    visitedCompare
  obtain ⟨extendsScript, performs⟩ := scripts (compared.branchIf (!aBoolean)) taken
    (extendsCompared.inBlock.trans own) visitedScript
  have drops : Extends surroundings blockTempCount [] (-(1 : Nat)) taken (taken.dropToS 1) :=
    dropToS_extends taken 1
  have pops : Extends surroundings blockTempCount [] 0
      ((taken.dropToS 1).jump.branchTargetOf compared.currentPC)
      ((taken.dropToS 1).jump.branchTargetOf compared.currentPC).popR :=
    Extends.code rfl (by rw [SExpressionLinearizer.depth_popR, Int.add_zero]) rfl rfl
  have left := (extendsScript.trans drops).congr (List.append_nil _) rfl
  have rest := (left.arms (!aBoolean) pops).congr (List.append_nil _) rfl
  refine ⟨(extendsCompared.trans rest).congr rfl (by lia), ?_⟩
  intro operands current world
  have arms : ∀ answer : (Value × Value) × World, Performs surroundings compared
      (((taken.dropToS 1).jump.branchTargetOf compared.currentPC).popR.branchTargetOf
        (taken.dropToS 1).currentPC) ⟨answer.1.2, answer.1.1 :: operands, answer.2⟩
      (if answer.1.2 = surroundings.boolean (!aBoolean) then
        pure (above operands (answer.1.1, answer.2))
      else above operands <$> (body answer.1.2).run answer.2) := by
    intro answer
    refine Performs.arms (!aBoolean) (fun _ => ?_)
      (fun _ => PerformsAt.proceeds rfl fun _ _ _ => rfl) left.appended pops.appended
    rw [map_eq_pure_bind]
    apply (performs (answer.1.1 :: operands) answer.1.2 answer.2).bind extendsScript.toGrows
      drops.toGrows
    intro value _
    exact ⟨by simp [above], dropToS_performs taken value.1 [answer.1.1] rfl operands value.2⟩
  apply ((asks operands current world).bind extendsCompared.toGrows rest.toGrows
    fun answer _ => ⟨by simp, arms answer⟩).congr
  rw [evaluateIfNil, StateT.run_bind, map_bind]
  congr 1
  funext answer
  split
  · rw [StateT.run_pure, map_pure]
  · rfl

theorem inlineIfNilIfNotNil_translates {inlinedArgs : List Int}
    (receives : Translates surroundings blockTempCount inBlock first step receiver)
    (scripts : Translates surroundings blockTempCount inBlock second body script)
    (others : Translates surroundings blockTempCount inBlock third body' other) :
    Translates surroundings blockTempCount inBlock (first ++ (second ++ third))
      (evaluateIfNilIfNotNil surroundings aBoolean step inlinedArgs body body')
      (inlineIfNilIfNotNil aBoolean receiver inlinedArgs script other) := by
  intro before after own visited
  simp only [inlineIfNilIfNotNil, Option.bind_eq_bind, Option.bind_eq_some_iff, Option.pure_def,
    Option.some.injEq] at visited
  obtain ⟨received, visitedReceiver, compared, visitedCompare, taken, visitedScript, last,
    visitedOther, rfl⟩ := visited
  obtain ⟨extendsCompared, asks⟩ := compared_translates receives own visitedReceiver
    visitedCompare
  have own' := extendsCompared.inBlock.trans own
  obtain ⟨extendsScript, performs⟩ := scripts (compared.branchIf (!aBoolean)) taken own'
    visitedScript
  obtain ⟨extendsOther, performs'⟩ := others (taken.jump.branchTargetOf compared.currentPC) last
    (extendsScript.inBlock.trans own') visitedOther
  have rest := extendsScript.arms (!aBoolean) extendsOther
  have drops : Extends surroundings blockTempCount [] (-(1 : Nat))
      (last.branchTargetOf taken.currentPC) _ := dropToS_extends _ 1
  have whole := rest.trans drops
  have deep : (taken.jump.branchTargetOf compared.currentPC).depth = compared.depth := by
    simp [extendsScript.depth]
  refine ⟨(extendsCompared.trans whole).congr (by simp) (by lia), ?_⟩
  intro operands current world
  have arms : ∀ answer : (Value × Value) × World, Performs surroundings compared
      (last.branchTargetOf taken.currentPC)
      ⟨answer.1.2, answer.1.1 :: operands, answer.2⟩
      (if answer.1.2 = surroundings.boolean (!aBoolean) then
        above (answer.1.1 :: operands) <$> (body' answer.1.2).run answer.2
      else above (answer.1.1 :: operands) <$> (body answer.1.2).run answer.2) := fun answer =>
    Performs.arms (!aBoolean) (fun _ => performs _ answer.1.2 answer.2)
      (fun _ => deep ▸ performs' _ answer.1.2 answer.2) extendsScript.appended
      extendsOther.appended
  have dropped : ∀ answer : (Value × Value) × World, Performs surroundings compared
      ((last.branchTargetOf taken.currentPC).dropToS 1)
      ⟨answer.1.2, answer.1.1 :: operands, answer.2⟩
      (above operands <$> (if answer.1.2 = surroundings.boolean (!aBoolean) then
        body' answer.1.2 else body answer.1.2).run answer.2) := by
    intro answer
    have one : Performs surroundings compared (last.branchTargetOf taken.currentPC)
        ⟨answer.1.2, answer.1.1 :: operands, answer.2⟩
        (above (answer.1.1 :: operands) <$>
          (if answer.1.2 = surroundings.boolean (!aBoolean) then body' answer.1.2
            else body answer.1.2).run answer.2) := by
      apply (arms answer).congr
      split <;> rfl
    rw [map_eq_pure_bind]
    apply one.bind rest.toGrows drops.toGrows
    intro value _
    exact ⟨by simp [above], dropToS_performs _ value.1 [answer.1.1] rfl operands value.2⟩
  apply ((asks operands current world).bind extendsCompared.toGrows whole.toGrows
    fun answer _ => ⟨by simp, dropped answer⟩).congr
  rw [evaluateIfNilIfNotNil, StateT.run_bind, map_bind]

end Nil

section Counting

variable {receiver arg script : Visit} {step limitStep body : Step Value World Abandoned}
  {υ : Type}

/-- The loop of `to:do:` and `timesRepeat:`, from what a round does to some registers. -/
theorem countingLoop_translates {current limit : Visit}
    {store : SExpressionLinearizer → SExpressionLinearizer} {count : Nat}
    (visited : countingLoop current limit store script count before = some after)
    (own : before.inBlock = inBlock)
    (currents : Loads surroundings blockTempCount current)
    (limits : Loads surroundings blockTempCount limit)
    (stores : ∀ linearizer, Extends surroundings blockTempCount [] 0 linearizer (store linearizer))
    (bodies : Translates surroundings blockTempCount inBlock third body script) :
    Extends surroundings blockTempCount third (-count) before after ∧
      ∀ (view : υ → Registers Value World) (operands : List Value)
        (asks round : υ → Outcomes (Ended Value World Abandoned) υ),
        (∀ x, (view x).operands.length = count + operands.length ∧
          (view x).operands.drop count = operands) →
        (∀ compared, send (.symbol ">") false 1 current (pushed limit) before = some compared →
          ∀ x, Performs surroundings before compared (view x) (view <$> asks x)) →
        (∀ compared repeated added, Grows 0 before compared →
          Grows 0 (compared.branchIf true) repeated →
          Answers surroundings (compared.branchIf true) repeated body →
          send (.symbol "+") false 1 current (pushed loadOne) repeated = some added →
          Grows 0 repeated added → Grows 0 added (store added) →
          ∀ x, Performs surroundings (compared.branchIf true) (store added) (view x)
            (view <$> round x)) →
        ∀ x, Performs surroundings before after (view x)
          ((fun y => ⟨(view y).R, operands, (view y).world⟩) <$>
            Outcomes.iterate (fun x => asks x >>= fun y =>
              if (view y).R = surroundings.trueObj then pure (.inr y) else .inl <$> round y) x) := by
  simp only [countingLoop, Option.bind_eq_bind, Option.bind_eq_some_iff, Option.pure_def,
    Option.some.injEq] at visited
  obtain ⟨compared, visitedCompare, repeated, visitedBody, added, visitedAdd, rfl⟩ := visited
  have compares := loaded_extends visitedCompare currents limits
  obtain ⟨extendsBody, performs⟩ := bodies (compared.branchIf true) repeated
    (compares.inBlock.trans own) visitedBody
  have adds := loaded_extends visitedAdd currents (by
    rintro before after ⟨⟩
    exact emit_extends before rfl : Loads surroundings blockTempCount loadOne)
  have behind := (extendsBody.trans (adds.trans (stores added))).congr (List.append_nil third) rfl
  have looped := compares.loop true behind
  have drops : Extends surroundings blockTempCount [] (-count) _ _ :=
    dropToS_extends (((store added).jumpTo before.currentPC).branchTargetOf compared.currentPC)
      count
  refine ⟨(looped.trans drops).congr (List.append_nil third) (by lia), ?_⟩
  intro view operands asks round shape asking rounding x
  have sized : ∀ x y, (view x).operands.length = (view y).operands.length :=
    fun x y => (shape x).1.trans (shape y).1.symm
  have loops := Performs.loop view true sized (asking compared visitedCompare)
    (fun y _ => rounding compared repeated added compares.toGrows extendsBody.toGrows performs
      visitedAdd adds.toGrows (stores added).toGrows y) compares.toGrows behind.appended x
  rw [map_eq_pure_bind]
  apply loops.bind looped.toGrows drops.toGrows
  intro y _
  refine ⟨by rw [sized y x]; exact (Int.add_zero _).symm, ?_⟩
  obtain ⟨length, rest⟩ := shape y
  have split : view y = ⟨(view y).R, (view y).operands.take count ++ operands,
      (view y).world⟩ := by
    rw [← rest, List.take_append_drop]
  rw [split]
  exact dropToS_performs _ _ _ (by rw [List.length_take, length]; lia) operands _

theorem inlineToDo_translates {index : Int}
    (receives : Translates surroundings blockTempCount inBlock first step receiver)
    (limits : Translates surroundings blockTempCount inBlock second limitStep arg)
    (bodies : Translates surroundings blockTempCount inBlock third body script) :
    Translates surroundings blockTempCount inBlock (first ++ (second ++ third))
      (evaluateToDo surroundings step index limitStep body)
      (inlineToDo receiver index arg script) := by
  intro before after own visited
  simp only [inlineToDo, Option.bind_eq_bind, Option.bind_eq_some_iff] at visited
  obtain ⟨received, visitedReceiver, limited, visitedLimit, visitedLoop⟩ := visited
  obtain ⟨extendsReceiver, answers⟩ := receives before received own visitedReceiver
  have stores : Extends surroundings blockTempCount [] 0 received
      (received.emit (.storeRintoFrame index)) := emit_extends received rfl
  obtain ⟨extendsLimit, answers'⟩ := limits (received.emit (.storeRintoFrame index)) limited (extendsReceiver.inBlock.trans own)
    visitedLimit
  have pushes : Extends surroundings blockTempCount [] 1 limited limited.pushR :=
    pushR_extends limited
  have own' : limited.pushR.inBlock = inBlock :=
    extendsLimit.inBlock.trans (extendsReceiver.inBlock.trans own)
  obtain ⟨extendsLoop, loops⟩ := countingLoop_translates (υ := Value × World) visitedLoop own' (by
      rintro before after ⟨⟩
      exact emit_extends before rfl) (by
      rintro before after ⟨⟩
      exact emitFor_extends before _ rfl) (fun linearizer => emit_extends linearizer rfl) bodies
  have counted := pushes.trans extendsLoop
  have limiting := extendsLimit.trans counted
  have rest := stores.trans limiting
  refine ⟨(extendsReceiver.trans rest).congr (by simp) (by lia), ?_⟩
  intro operands current world
  have looped : ∀ answer : Value × World, Performs surroundings limited.pushR after
      (above (answer.1 :: operands) answer)
      (above operands <$> (rounds (fun _ => do
        let counter ← surroundings.temporary index <$> get
        let exceeds ← surroundings.send (.symbol ">") false counter [answer.1]
        if exceeds = surroundings.trueObj then pure (.inr exceeds)
        else .inl <$> evaluateAdvance surroundings index body exceeds) answer.1).run
          answer.2) := by
    intro answer
    have loop := loops (above (answer.1 :: operands)) operands
      (fun x => (surroundings.send (.symbol ">") false (surroundings.temporary index x.2)
        [answer.1]).run x.2)
      (fun x => (evaluateAdvance surroundings index body x.1).run x.2)
      (fun x => ⟨by simp [above]; lia, rfl⟩) ?_ ?_ answer
    · apply loop.congr
      have same : (fun x : Value × World => (fun after => after.1.map (·, after.2) (·, after.2)) <$>
          (do
            let counter ← surroundings.temporary index <$> get
            let exceeds ← surroundings.send (.symbol ">") false counter [answer.1]
            if exceeds = surroundings.trueObj then pure (.inr exceeds)
            else .inl <$> evaluateAdvance surroundings index body exceeds :
              Meaning Value World Abandoned (Value ⊕ Value)).run x.2) = fun x =>
          (surroundings.send (.symbol ">") false (surroundings.temporary index x.2)
            [answer.1]).run x.2 >>= fun y =>
              if y.1 = surroundings.trueObj then pure (.inr y)
              else .inl <$> (evaluateAdvance surroundings index body y.1).run y.2 := by
        funext x
        simp only [StateT.run_bind, StateT.run_map, StateT.run_get, map_pure, pure_bind, map_bind]
        congr 1
        funext y
        split
        · rw [StateT.run_pure, map_pure]
          rfl
        · rw [StateT.run_map, ← comp_map]
          rfl
      show _ = above operands <$> Outcomes.iterate _ answer
      rw [same]
      rfl
    · intro compared visited x
      apply loaded_performs visited
      · rintro between ⟨⟩
        exact ⟨emit_grows _ rfl, loadTemporary_performs _ index _⟩
      · rintro between last grows ⟨⟩
        exact ⟨emitFor_grows _ _ rfl, loadOperand_performs [_]
          ((pushR_grows limited).trans grows)⟩
    · intro compared repeated added growsCompared growsBody performs visitedAdd growsAdd growsStore x
      have adds : ∀ y : Value × World, Performs surroundings repeated added
          (above (answer.1 :: operands) y) (above (answer.1 :: operands) <$>
            (surroundings.send (.symbol "+") false (surroundings.temporary index y.2)
              [surroundings.one]).run y.2) := by
        intro y
        apply loaded_performs visitedAdd
        · rintro between ⟨⟩
          exact ⟨emit_grows _ rfl, loadTemporary_performs _ index _⟩
        · rintro between last - ⟨⟩
          exact ⟨emit_grows _ rfl, PerformsAt.proceeds rfl fun _ _ _ => rfl⟩
      have whole := (performs (answer.1 :: operands) x.1 x.2).bind growsBody
        (growsAdd.trans growsStore) fun y _ => ⟨(Int.add_zero _).symm,
          (adds y).bind growsAdd growsStore fun z _ => ⟨(Int.add_zero _).symm,
            storeTemporary_performs added index (above (answer.1 :: operands) z)⟩⟩
      apply whole.congr
      simp only [evaluateAdvance, StateT.run_bind, StateT.run_map, StateT.run_get,
        StateT.run_modify, StateT.run_pure, map_bind, map_pure, pure_bind]
      rfl
  have begins : ∀ answer : Value × World, Performs surroundings received after
      (above operands answer) ((limitStep answer.1).run
        (surroundings.setTemporary index answer.1 answer.2) >>= fun last =>
          above operands <$> (rounds (fun _ => do
            let counter ← surroundings.temporary index <$> get
            let exceeds ← surroundings.send (.symbol ">") false counter [last.1]
            if exceeds = surroundings.trueObj then pure (.inr exceeds)
            else .inl <$> evaluateAdvance surroundings index body exceeds) last.1).run last.2) := by
    intro answer
    apply Performs.then (storeTemporary_performs received index _) (emit_grows received rfl)
      limiting.toGrows (by simp)
    apply (answers' operands answer.1 _).bind extendsLimit.toGrows counted.toGrows
    intro last _
    exact ⟨by simp [above], Performs.then (pushR_performs limited _) (pushR_grows limited)
      extendsLoop.toGrows (by simp) (looped last)⟩
  apply (answers.then extendsReceiver.toGrows rest.toGrows begins).congr
  simp only [evaluateToDo, StateT.run_bind, StateT.run_modify, pure_bind, map_bind]

/-- The rounds of `timesRepeat:` do not depend on what R was before. -/
theorem alike_timesRepeat (surroundings : Surroundings Value World Abandoned)
    (body : Step Value World Abandoned) (last : Value) (x : Value × Value × World) :
    (fun after : (Value ⊕ Value) × World => after.1.map (·, after.2) (·, after.2)) <$>
        ((do
          let exceeds ← surroundings.send (.symbol ">") false x.1 [last]
          if exceeds = surroundings.trueObj then pure (.inr exceeds)
          else .inl <$> (body exceeds >>= fun _ =>
            surroundings.send (.symbol "+") false x.1 [surroundings.one]) :
              Meaning Value World Abandoned (Value ⊕ Value))).run x.2.2 =
      Sum.map (fun x : Value × Value × World => (x.1, x.2.2))
          (fun x : Value × Value × World => x.2) <$>
        (((fun y => (x.1, y)) <$>
          (surroundings.send (.symbol ">") false x.1 [last]).run x.2.2) >>= fun y =>
            if y.2.1 = surroundings.trueObj then pure (.inr y)
            else .inl <$> ((fun z => (z.1, z)) <$> (body y.2.1 >>= fun _ =>
              surroundings.send (.symbol "+") false y.1 [surroundings.one]).run y.2.2)) := by
  rw [StateT.run_bind, map_bind, bind_map_left, map_bind]
  congr 1
  funext y
  by_cases out : y.1 = surroundings.trueObj
  · rw [if_pos out, if_pos out, StateT.run_pure, map_pure, map_pure]
    rfl
  · rw [if_neg out, if_neg out, StateT.run_map, ← comp_map, ← comp_map, ← comp_map]
    rfl

theorem rounds_timesRepeat (surroundings : Surroundings Value World Abandoned)
    (body : Step Value World Abandoned) (last start : Value) (current : Value × World) :
    (rounds (fun counter => do
      let exceeds ← surroundings.send (.symbol ">") false counter [last]
      if exceeds = surroundings.trueObj then pure (.inr exceeds)
      else .inl <$> (body exceeds >>= fun _ =>
        surroundings.send (.symbol "+") false counter [surroundings.one])) start).run current.2 =
      (fun x : Value × Value × World => x.2) <$> Outcomes.iterate (fun x =>
        ((fun y => (x.1, y)) <$>
          (surroundings.send (.symbol ">") false x.1 [last]).run x.2.2) >>= fun y =>
            if y.2.1 = surroundings.trueObj then pure (.inr y)
            else .inl <$> ((fun z => (z.1, z)) <$> (body y.2.1 >>= fun _ =>
              surroundings.send (.symbol "+") false y.1 [surroundings.one]).run y.2.2))
        (start, current) :=
  Outcomes.iterate_map (fun x : Value × Value × World => (x.1, x.2.2))
    (fun x : Value × Value × World => x.2) (alike_timesRepeat surroundings body last)
    (start, current)

theorem inlineTimesRepeat_translates
    (receives : Translates surroundings blockTempCount inBlock first step receiver)
    (bodies : Translates surroundings blockTempCount inBlock third body script) :
    Translates surroundings blockTempCount inBlock (first ++ third)
      (evaluateTimesRepeat surroundings step body) (inlineTimesRepeat receiver script) := by
  intro before after own visited
  simp only [inlineTimesRepeat, Option.bind_eq_bind, Option.bind_eq_some_iff] at visited
  obtain ⟨received, visitedReceiver, visitedLoop⟩ := visited
  have loads : Extends surroundings blockTempCount [] 0 before (before.emit one) :=
    emit_extends before rfl
  have pushes : Extends surroundings blockTempCount [] 1 (before.emit one)
      (before.emit one).pushR := pushR_extends _
  obtain ⟨extendsReceiver, answers⟩ := receives (before.emit one).pushR received own
    visitedReceiver
  have pushes' : Extends surroundings blockTempCount [] 1 received received.pushR :=
    pushR_extends received
  obtain ⟨extendsLoop, loops⟩ := countingLoop_translates (υ := Value × Value × World) visitedLoop
    (extendsReceiver.inBlock.trans own) (by
      rintro before after ⟨⟩
      exact emitFor_extends before _ rfl) (by
      rintro before after ⟨⟩
      exact emitFor_extends before _ rfl) (fun linearizer => emitFor_extends linearizer _ rfl)
    bodies
  have counted := pushes'.trans extendsLoop
  have receiving := extendsReceiver.trans counted
  have pushing := pushes.trans receiving
  have counter : Grows (0 + 1 + 1) (before.emit one) received.pushR :=
    ((pushes.trans extendsReceiver).trans pushes').toGrows.congr (by lia)
  refine ⟨(loads.trans pushing).congr (by simp) (by lia), ?_⟩
  intro operands current world
  have looped : ∀ answer : Value × World, Performs surroundings received.pushR after
      ⟨answer.1, answer.1 :: surroundings.one :: operands, answer.2⟩
      (above operands <$> (rounds (fun counter => do
        let exceeds ← surroundings.send (.symbol ">") false counter [answer.1]
        if exceeds = surroundings.trueObj then pure (.inr exceeds)
        else .inl <$> (body exceeds >>= fun _ =>
          surroundings.send (.symbol "+") false counter [surroundings.one]))
        surroundings.one).run answer.2) := by
    intro answer
    have loop := loops (fun x => ⟨x.2.1, answer.1 :: x.1 :: operands, x.2.2⟩) operands
      (fun x => (fun y => (x.1, y)) <$>
        (surroundings.send (.symbol ">") false x.1 [answer.1]).run x.2.2)
      (fun x => (fun y => (y.1, y)) <$> (body x.2.1 >>= fun _ =>
        surroundings.send (.symbol "+") false x.1 [surroundings.one]).run x.2.2)
      (fun x => ⟨by simp; lia, rfl⟩) ?_ ?_ (surroundings.one, answer)
    · apply loop.congr
      rw [rounds_timesRepeat, ← comp_map]
      rfl
    · intro compared visited x
      rw [← comp_map]
      apply loaded_performs visited
      · rintro between ⟨⟩
        exact ⟨emitFor_grows _ _ rfl, loadOperand_performs [answer.1]
          (counter.congr (by simp))⟩
      · rintro between last grows ⟨⟩
        exact ⟨emitFor_grows _ _ rfl, loadOperand_performs [_]
          ((pushR_grows received).trans grows)⟩
    · intro compared repeated added growsCompared growsBody performs visitedAdd growsAdd
        growsStore x
      have branches : Grows 0 compared (compared.branchIf true) := ⟨by simp, ⟨_, rfl⟩⟩
      have here : Grows 2 (before.emit one) repeated :=
        (counter.trans (growsCompared.trans (branches.trans growsBody))).congr (by lia)
      have adds : ∀ y : Value × World, Performs surroundings repeated added
          (above (answer.1 :: x.1 :: operands) y) (above (answer.1 :: x.1 :: operands) <$>
            (surroundings.send (.symbol "+") false x.1 [surroundings.one]).run y.2) := by
        intro y
        apply loaded_performs visitedAdd
        · rintro between ⟨⟩
          exact ⟨emitFor_grows _ _ rfl, loadOperand_performs [answer.1]
            (here.congr (by simp))⟩
        · rintro between last - ⟨⟩
          exact ⟨emit_grows _ rfl, PerformsAt.proceeds rfl fun _ _ _ => rfl⟩
      have whole := (performs (answer.1 :: x.1 :: operands) x.2.1 x.2.2).bind growsBody
        (growsAdd.trans growsStore) fun y _ => ⟨(Int.add_zero _).symm,
          (adds y).bind growsAdd growsStore fun z _ => ⟨(Int.add_zero _).symm,
            storeOperand_performs [answer.1] z.1 z.2
              ((here.trans growsAdd).congr (by simp))⟩⟩
      apply whole.congr
      simp only [StateT.run_bind, map_eq_pure_bind, bind_assoc, pure_bind]
      rfl
  have begins : ∀ answer : Value × World, Performs surroundings received after
      (above (surroundings.one :: operands) answer) _ := fun answer =>
    Performs.then (pushR_performs received _) (pushR_grows received) extendsLoop.toGrows (by simp)
      (looped answer)
  apply PerformsAt.congr (Performs.then
    (PerformsAt.proceeds rfl fun _ _ _ => rfl : Performs surroundings before _ _
      (pure ⟨surroundings.one, operands, world⟩)) loads.toGrows pushing.toGrows (by simp)
    (Performs.then (pushR_performs _ _) pushes.toGrows receiving.toGrows (by simp)
      (answers.then extendsReceiver.toGrows counted.toGrows begins)))
  simp only [evaluateTimesRepeat, StateT.run_bind, map_bind]

end Counting

end Egg.Linearizer
