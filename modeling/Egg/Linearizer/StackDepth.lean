import Egg.Linearizer.Inlining

/-! The depth at which every operation is emitted, and when that is the depth at run time. -/
namespace Egg.Linearizer

open Egg.Treecode Egg.Data.StructuredCode

mutual

/-- The control skeleton of what an expression is compiled to; marked is the arm of an inlined
`ifNil:` or `ifNotNil:` in which the receiver is left. -/
def skeleton (inPlace : Bool) : SExpression → Skeleton
  | .literal _ _ | .identifier _ => .nothing
  | .assignment _ expression => skeleton false expression
  | .return _ expression => .seq (skeleton false expression) .halt
  | .inlinedBlock _ statements =>
    if inPlace then skeletons statements else .aside (skeletons statements) false
  | .block _ _ _ statements =>
    if inPlace then skeletons statements else .aside (skeletons statements) true
  | .cascade receiver messages => .seq (skeleton false receiver) (messageSkeletons messages)
  | .message receiver selector arguments isInlined =>
    if isInlined then
      match inlined selector, arguments with
      | some (.if_ _), script :: _ =>
        .seq (skeleton false receiver) (.guard (skeleton true script))
      | some (.ifNil _), arg :: _ =>
        .seq (skeleton false receiver) (.either (skeleton true arg) (.step true))
      | some (.ifNilIfNotNil _), arg0 :: arg1 :: _ | some (.ifTrueIfFalse _), arg0 :: arg1 :: _ =>
        .seq (skeleton false receiver) (.either (skeleton true arg0) (skeleton true arg1))
      | some (.unitaryWhile _), _ => .again (skeleton true receiver) true
      | some (.binaryWhile _), arg :: _ => .loop (skeleton true receiver) (skeleton true arg)
      | some .repeat, _ => .again (skeleton true receiver) false
      | some .toDo, limit :: body :: _ =>
        .seq (skeleton false receiver)
          (.seq (skeleton false limit) (.guard (skeleton true body)))
      | some .timesRepeat, body :: _ =>
        .seq (skeleton false receiver) (.guard (skeleton true body))
      | some .andNot, arg :: _ | some .orNot, arg :: _ =>
        .seq (skeleton false receiver) (.guard (skeleton true arg))
      | some .or, arguments | some .and, arguments =>
        .seq (skeleton false receiver) (conditionSkeletons arguments)
      | _, _ => .nothing
    else .seq (skeleton false receiver) (skeletons arguments)

/-- Statements or arguments, one after the other. -/
def skeletons : List SExpression → Skeleton
  | [] => .nothing
  | expression :: expressions => .seq (skeleton false expression) (skeletons expressions)

def messageSkeletons : List SCascadeMessage → Skeleton
  | [] => .nothing
  | .mk _ arguments :: messages => .seq (skeletons arguments) (messageSkeletons messages)

def conditionSkeletons : List SExpression → Skeleton
  | [] => .nothing
  | block :: blocks => .guard (.seq (skeleton true block) (conditionSkeletons blocks))

end

/-- What comes behind the statements of a block or a method. -/
def ending (returned : Bool) : Skeleton := if returned then .nothing else .halt

/-- The last statement is a return. -/
def returns (statements : List SExpression) : Bool :=
  (statements.getLast?.map isReturn).getD false

/-- Statements of which the last one is a return do not let control through. -/
theorem skeletons_completes {statements : List SExpression} (returned : returns statements) :
    (skeletons statements).completes = false := by
  induction statements with
  | nil => cases returned
  | cons statement statements inductionHypothesis =>
    cases statements with
    | nil =>
      cases statement with
      | «return» => simp [skeletons, skeleton, Skeleton.completes]
      | _ => cases returned
    | cons next rest =>
      have rest := inductionHypothesis returned
      simp only [skeletons, Skeleton.completes] at rest ⊢
      rw [rest, Bool.and_false]

/-- The statements together with what comes behind them. -/
theorem ended_completes (statements : List SExpression) :
    (Skeleton.seq (skeletons statements) (ending (returns statements))).completes = false := by
  cases returned : returns statements with
  | false => simp [ending, Skeleton.completes]
  | true => simp [Skeleton.completes, skeletons_completes returned]

theorem ended_passesMark (statements : List SExpression) :
    (Skeleton.seq (skeletons statements) (ending (returns statements))).passesMark =
      (skeletons statements).passesMark := by
  cases returns statements <;> simp [ending, Skeleton.passesMark]

section Trees

variable {blockTempCount : LiteralValue → Nat}

theorem finishBlock_emits (statements : List SExpression) (linearizer : SExpressionLinearizer)
    (state : List Nat) :
    Emits blockTempCount (ending (returns statements)) state state linearizer
      (linearizer.finishBlock statements) := by
  unfold SExpressionLinearizer.finishBlock returns
  cases statements.getLast? with
  | none =>
    exact (Emits.emit linearizer .loadRwithNil state rfl).after_nothing
      (Emits.halt _ state (Or.inl rfl))
  | some last =>
    cases returned : isReturn last with
    | false =>
      simp only [Option.map_some, Option.getD_some, returned]
      exact Emits.halt linearizer state (Or.inl rfl)
    | true =>
      simp only [Option.map_some, Option.getD_some, returned]
      exact Emits.nothing state linearizer

theorem finishMethod_emits (statements : List SExpression) (linearizer : SExpressionLinearizer)
    (state : List Nat) :
    Emits blockTempCount (ending (returns statements)) state state linearizer
      (linearizer.finishMethod statements) := by
  rw [SExpressionLinearizer.finishMethod, ← returns]
  cases returns statements with
  | false =>
    exact (Emits.emit linearizer .loadRwithSelf state rfl).after_nothing
      (Emits.halt _ state (Or.inl rfl))
  | true => exact Emits.nothing state linearizer

/-- The code of a block is put aside, with that of the blocks in it. -/
theorem block_emits {statements : List SExpression} {visit : Visit}
    (visits : Visits blockTempCount (skeletons statements) visit)
    {outer inner : SExpressionLinearizer} {compiledCode : LiteralValue}
    (visited : visit (outer.enterBlock (blockTempCount compiledCode)) = some inner)
    (state : List Nat) :
    Emits blockTempCount (.aside (skeletons statements) true) state state outer
      { outer with executables := inner.executables ++
        [(compiledCode, (inner.finishBlock statements).operations)] } where
  installs := by
    have emits := visits _ inner visited []
    obtain ⟨installed, appended, exact_⟩ := emits.installs
    refine ⟨installed ++ [(compiledCode, (inner.finishBlock statements).operations)], ?_, ?_⟩
    · rw [← List.append_assoc]
      exact congrArg (· ++ _) appended
    · apply List.rel_append exact_
      refine List.Forall₂.cons ?_ List.Forall₂.nil
      rw [← ended_passesMark]
      exact (emits.seq (finishBlock_emits statements inner [])).exact_iff rfl
        (ended_completes statements)
  code := ⟨.nothing, [], ⟨rfl, rfl, rfl⟩, (List.append_nil _).symm,
    fun _ balance => ⟨balance, .nothing⟩⟩

theorem inlinedBlock_emits {statements : List SExpression} {visit : Visit} {stackTop : Int}
    (visits : Visits blockTempCount (skeletons statements) visit)
    {outer inner : SExpressionLinearizer}
    (visited : visit (outer.enterBlock stackTop) = some inner) (state : List Nat) :
    Emits blockTempCount (.aside (skeletons statements) false) state state outer
      { outer with executables := inner.executables } where
  installs := by
    obtain ⟨installed, appended, exact_⟩ := (visits _ inner visited []).installs
    exact ⟨installed, appended, by simpa [Skeleton.asides] using exact_⟩
  code := ⟨.nothing, [], ⟨rfl, rfl, rfl⟩, (List.append_nil _).symm,
    fun _ balance => ⟨balance, .nothing⟩⟩

mutual

/-- Whatever an expression is compiled to has its skeleton and keeps count of the operands. -/
theorem accept_visits (inPlace : Bool) (expression : SExpression) :
    Visits blockTempCount (skeleton inPlace expression)
      (accept blockTempCount inPlace expression) := by
  cases expression with
  | literal index value => exact emit_visits (.literal (some value)) rfl
  | identifier binding => exact emit_visits (.identifier binding) rfl
  | assignment assignees expression =>
    intro before after visited state
    simp only [accept, Option.bind_eq_bind, Option.bind_eq_some_iff, Option.pure_def,
      Option.some.injEq] at visited
    obtain ⟨between, visited, rfl⟩ := visited
    exact (accept_visits false expression before between visited state).then_nothing
      (Emits.emit between (.assign assignees) state rfl)
  | «return» isLocal expression =>
    intro before after visited state
    simp only [accept, Option.bind_eq_bind, Option.bind_eq_some_iff, Option.pure_def,
      Option.some.injEq] at visited
    obtain ⟨between, visited, rfl⟩ := visited
    apply (accept_visits false expression before between visited state).seq
    apply Emits.halt
    split
    · exact Or.inl rfl
    · exact Or.inr rfl
  | inlinedBlock inlinedArgs statements =>
    intro before after visited state
    cases inPlace with
    | true => exact statements_visits statements before after visited state
    | false =>
      simp only [accept, Bool.false_eq_true, if_false, Option.bind_eq_bind,
        Option.bind_eq_some_iff, Option.pure_def, Option.some.injEq] at visited
      obtain ⟨inner, visited, rfl⟩ := visited
      exact (Emits.emit before (.block none []) state rfl).after_nothing
        (inlinedBlock_emits (statements_visits statements) visited state)
  | block index compiledCode capturedVariables statements =>
    intro before after visited state
    cases inPlace with
    | true => exact statements_visits statements before after visited state
    | false =>
      simp only [accept, Bool.false_eq_true, if_false, Option.bind_eq_bind,
        Option.bind_eq_some_iff, Option.pure_def, Option.some.injEq] at visited
      obtain ⟨inner, visited, rfl⟩ := visited
      exact (Emits.emit before (.block (some compiledCode) capturedVariables) state
        rfl).after_nothing (block_emits (statements_visits statements) visited state)
  | cascade receiver messages =>
    intro before after visited state
    simp only [accept, pushed, Option.bind_eq_bind, Option.bind_eq_some_iff,
      Option.map_eq_some_iff, Option.pure_def, Option.some.injEq] at visited
    obtain ⟨kept, ⟨received, visitedReceiver, rfl⟩, sent, visitedMessages, rfl⟩ := visited
    have first := (accept_visits false receiver before received visitedReceiver state).then_nothing
      (Emits.pushR received state)
    have second := messages_visits messages _ sent visitedMessages (received.currentPC :: state)
    exact first.seq (second.then_nothing (Emits.dropToS sent [received.currentPC] state))
  | message receiver selector arguments isInlined =>
    rw [accept.eq_def, skeleton.eq_def]
    cases isInlined with
    | false =>
      exact send_visits selector (isSuper receiver) (accept_visits false receiver)
        (arguments_pushes arguments)
    | true =>
      have receives := accept_visits false receiver
      have inPlaces := asBlock_visits receiver (accept_visits true receiver)
      simp only [if_true]
      cases inlined selector with
      | none => exact none_visits _
      | some kind =>
        cases arguments with
        | nil =>
          cases kind with
          | unitaryWhile aBoolean => exact inlineUnitaryWhile_visits aBoolean inPlaces
          | «repeat» => exact inlineRepeat_visits inPlaces
          | or => exact inlineConditions_visits receives (conditions_emit true [])
          | and => exact inlineConditions_visits receives (conditions_emit false [])
          | _ => exact none_visits _
        | cons first rest =>
          have firsts := accept_visits true first
          have blocks := asBlock_visits first firsts
          cases kind with
          | if_ aBoolean => exact inlineIf_visits aBoolean receives blocks
          | ifNil aBoolean => exact inlineIfNil_visits aBoolean _ receives firsts
          | unitaryWhile aBoolean => exact inlineUnitaryWhile_visits aBoolean inPlaces
          | binaryWhile aBoolean => exact inlineBinaryWhile_visits aBoolean inPlaces blocks
          | «repeat» => exact inlineRepeat_visits inPlaces
          | timesRepeat => exact inlineTimesRepeat_visits receives blocks
          | andNot => exact inlineNot_visits false receives blocks
          | orNot => exact inlineNot_visits true receives blocks
          | or => exact inlineConditions_visits receives (conditions_emit true (first :: rest))
          | and => exact inlineConditions_visits receives (conditions_emit false (first :: rest))
          | ifNilIfNotNil aBoolean =>
            cases rest with
            | nil => exact none_visits _
            | cons second rest =>
              exact inlineIfNilIfNotNil_visits aBoolean _ receives firsts
                (accept_visits true second)
          | ifTrueIfFalse aBoolean =>
            cases rest with
            | nil => exact none_visits _
            | cons second rest =>
              exact inlineIfTrueIfFalse_visits aBoolean receives blocks
                (asBlock_visits second (accept_visits true second))
          | toDo =>
            cases rest with
            | nil => exact none_visits _
            | cons second rest =>
              simp only
              split
              · exact inlineToDo_visits _ receives (accept_visits false first)
                  (accept_visits true second)
              · exact none_visits _
          | toByDo => exact none_visits _

theorem statements_visits (statements : List SExpression) :
    Visits blockTempCount (skeletons statements) (visitStatements blockTempCount statements) := by
  cases statements with
  | nil =>
    rintro before after ⟨⟩ state
    exact Emits.nothing state before
  | cons statement statements =>
    intro before after visited state
    simp only [visitStatements, Option.bind_eq_bind, Option.bind_eq_some_iff] at visited
    obtain ⟨between, visitedFirst, visitedRest⟩ := visited
    exact (accept_visits false statement before between visitedFirst state).seq
      (statements_visits statements between after visitedRest state)

theorem arguments_pushes (arguments : List SExpression) :
    Pushes blockTempCount (skeletons arguments) arguments.length
      (visitArguments blockTempCount arguments) := by
  cases arguments with
  | nil =>
    rintro before after ⟨⟩ state
    exact ⟨[], rfl, Emits.nothing state before⟩
  | cons argument arguments =>
    intro before after visited state
    simp only [visitArguments, Option.bind_eq_bind, Option.bind_eq_some_iff] at visited
    obtain ⟨between, visitedFirst, visitedRest⟩ := visited
    obtain ⟨first, countFirst, left⟩ :=
      (accept_visits false argument).pushed before between visitedFirst state
    obtain ⟨rest, countRest, right⟩ :=
      arguments_pushes arguments between after visitedRest (first ++ state)
    refine ⟨rest ++ first, by rw [List.length_append, countFirst, countRest]; rfl, ?_⟩
    rw [List.append_assoc]
    exact left.seq right

theorem messages_visits (messages : List SCascadeMessage) :
    Visits blockTempCount (messageSkeletons messages)
      (visitCascadeMessages blockTempCount messages) := by
  cases messages with
  | nil =>
    rintro before after ⟨⟩ state
    exact Emits.nothing state before
  | cons message messages =>
    obtain ⟨selector, arguments⟩ := message
    intro before after visited state
    simp only [visitCascadeMessages, Option.bind_eq_bind, Option.bind_eq_some_iff] at visited
    obtain ⟨argued, visitedArguments, visitedRest⟩ := visited
    obtain ⟨pushed, count, left⟩ := arguments_pushes arguments before argued visitedArguments state
    have sends : Emits blockTempCount .nothing _ _ argued _ :=
      (Emits.emit argued (.loadRfromStack arguments.length) (pushed ++ state) rfl).then_nothing
        (Emits.emit _ (.dispatchMessage selector false arguments.length) (pushed ++ state) rfl)
    have drops : Emits blockTempCount .nothing (pushed ++ state) state
        ((argued.emit (.loadRfromStack arguments.length)).emit
          (.dispatchMessage selector false arguments.length))
        (((argued.emit (.loadRfromStack arguments.length)).emit
          (.dispatchMessage selector false arguments.length)).dropCascadeMessageArgs
            arguments.length) := by
      unfold SExpressionLinearizer.dropCascadeMessageArgs
      split
      · have none : pushed = [] := List.length_eq_zero_iff.mp (by omega)
        rw [none]
        exact Emits.nothing state _
      · rw [← count]
        exact Emits.dropToS _ pushed state
    exact ((left.then_nothing sends).then_nothing drops).seq
      (messages_visits messages _ after visitedRest state)

/-- The branches of `and:` and `or:` all lead to the end. -/
theorem conditions_emit (aBoolean : Bool) (blocks : List SExpression) :
    ∀ before after branches,
      visitConditions blockTempCount aBoolean blocks before = some (branches, after) → ∀ state,
      Emits blockTempCount (conditionSkeletons blocks) state state before
        (branches.foldl SExpressionLinearizer.branchTargetOf after) := by
  cases blocks with
  | nil =>
    rintro before after branches ⟨⟩ state
    exact Emits.nothing state before
  | cons block blocks =>
    intro before after branches visited state
    simp only [visitConditions, Option.bind_eq_bind, Option.bind_eq_some_iff, Option.pure_def,
      Option.some.injEq, Prod.mk.injEq] at visited
    obtain ⟨between, visitedBlock, ⟨rest, last⟩, visitedRest, rfl, rfl⟩ := visited
    have first := asBlock_visits block (accept_visits true block) _ between visitedBlock state
    have second := conditions_emit aBoolean blocks between last rest visitedRest state
    rw [List.foldl_cons, foldl_branchTargetOf]
    exact Emits.guard aBoolean (first.seq second)

end

/-- The code starts with a primitive. -/
def startsWithPrimitive (hasPrimitive : Option LiteralValue → Bool) (isFFI : Bool)
    (method : SMethod) : Bool :=
  (primitiveName isFFI method).any hasPrimitive

/-- A primitive and its return, when it is emitted at the depth of the method. -/
theorem primitive_emits (name : Option LiteralValue) (linearizer : SExpressionLinearizer) :
    Emits blockTempCount (.guard .halt) [] [] linearizer
      (linearizer.emit (.primitive name)).returnOp where
  installs := ⟨[], (List.append_nil _).symm, List.Forall₂.nil⟩
  code := by
    refine ⟨.guard .halt, [⟨.primitive name, linearizer.stackTop, none⟩,
      ⟨.return, linearizer.stackTop, none⟩], .refl _, by
        simp [SExpressionLinearizer.returnOp, SExpressionLinearizer.emit], ?_⟩
    intro temps balance
    have same : (linearizer.emit (.primitive name)).returnOp.pops = linearizer.pops := by
      rw [SExpressionLinearizer.returnOp, emit_pops _ rfl, emit_pops _ rfl]
    rw [same]
    exact ⟨balance, .guard (Required.directs _ linearizer.currentPC balance (fun _ => rfl) rfl)
      (.halt (Required.directs _ (linearizer.currentPC + 1) balance (fun _ => rfl) rfl))⟩

/-- A method's code, if it does not start with a primitive or starts at the right depth. -/
theorem visitMethod_emits {hasPrimitive : Option LiteralValue → Bool} {isFFI : Bool}
    {tempCount : Nat} {method : SMethod} {before after : SExpressionLinearizer}
    (visited : visitMethod blockTempCount hasPrimitive isFFI tempCount method before = some after)
    (starts : startsWithPrimitive hasPrimitive isFFI method = true →
      before.stackTop = tempCount) :
    ∃ whole : Skeleton, whole.completes = false ∧
      whole.passesMark = (skeletons method.statements).passesMark ∧
      whole.asides = (skeletons method.statements).asides ∧
      Emits blockTempCount whole [] [] { before.reset with stackTop := tempCount } after := by
  simp only [visitMethod, Option.bind_eq_bind, Option.bind_eq_some_iff, Option.pure_def,
    Option.some.injEq] at visited
  obtain ⟨inner, visited, rfl⟩ := visited
  have ends := ended_completes method.statements
  have body := (statements_visits method.statements _ inner visited []).seq
    (finishMethod_emits method.statements inner [])
  have asides : (Skeleton.seq (skeletons method.statements)
      (ending (returns method.statements))).asides = (skeletons method.statements).asides := by
    cases returns method.statements <;> simp [Skeleton.asides, ending]
  unfold visitPragma at body
  unfold startsWithPrimitive at starts
  cases named : primitiveName isFFI method with
  | none =>
    simp only [named] at body
    exact ⟨_, ends, ended_passesMark method.statements, asides, body⟩
  | some name =>
    by_cases known : hasPrimitive name
    · have depth : before.stackTop = tempCount := starts (by rw [named]; exact known)
      simp only [named, if_pos known] at body
      have prologue : Emits blockTempCount (.guard .halt) [] []
          { before.reset with stackTop := (tempCount : Int) } _ := primitive_emits name _
      have same : { (before.reset.emit (.primitive name)).returnOp with
          stackTop := (tempCount : Int) } =
          (SExpressionLinearizer.emit { before.reset with stackTop := (tempCount : Int) }
            (.primitive name)).returnOp := by
        rw [← depth]
        rfl
      rw [same] at body
      refine ⟨_, ?_, ?_, ?_, prologue.seq body⟩
      · rw [Skeleton.completes, ends, Bool.and_false]
      · simpa [Skeleton.passesMark, Skeleton.completes, Skeleton.marks] using
          ended_passesMark method.statements
      · rw [Skeleton.asides, asides]
        simp [Skeleton.asides]
    · simp only [named, if_neg known] at body
      exact ⟨_, ends, ended_passesMark method.statements, asides, body⟩

/-- The operations that come first are those of the pragma, with the depth there was before. -/
theorem starts_of_exact {hasPrimitive : Option LiteralValue → Bool} {isFFI : Bool}
    {tempCount : Nat} {method : SMethod} {before after : SExpressionLinearizer}
    (visited : visitMethod blockTempCount hasPrimitive isFFI tempCount method before = some after)
    (exact_ : StackDepthExact tempCount after.operations)
    (starts : startsWithPrimitive hasPrimitive isFFI method = true) :
    before.stackTop = tempCount := by
  simp only [visitMethod, Option.bind_eq_bind, Option.bind_eq_some_iff, Option.pure_def,
    Option.some.injEq] at visited
  obtain ⟨inner, visited, rfl⟩ := visited
  have body := (statements_visits method.statements _ inner visited []).seq
    (finishMethod_emits method.statements inner [])
  obtain ⟨_, segment, _, appended, _⟩ := body.code
  obtain ⟨name, named, known⟩ : ∃ name, primitiveName isFFI method = some name ∧
      hasPrimitive name = true := by
    unfold startsWithPrimitive at starts
    cases named : primitiveName isFFI method with
    | none => simp [named] at starts
    | some name => exact ⟨name, rfl, by simpa [named] using starts⟩
  have first : (inner.finishMethod method.statements).operations[0]? =
      some ⟨.primitive name, before.stackTop, none⟩ := by
    rw [appended]
    simp only [visitPragma, named, if_pos known]
    rfl
  have depth := (exact_ 0 [] _ Relation.ReflTransGen.refl first).stackTop
  simpa using depth

theorem forall_iff_of_forall₂ {α β : Type} {holds : α → Prop} {required : β → Prop} {xs : List α}
    {ys : List β} (related : List.Forall₂ (fun x y => required y ↔ holds x) xs ys) :
    (∀ y ∈ ys, required y) ↔ ∀ x ∈ xs, holds x := by
  induction related with
  | nil => simp
  | cons head _ inductionHypothesis => simp [head, inductionHypothesis]

/-- The static depth is that at run time, in a method and its blocks, exactly if in none of them
control passes the place where an inlined `ifNil:` leaves its receiver, and the linearizer was
left at the depth of the method in case that starts with a primitive. -/
theorem visitMethod_stackDepthExact_iff (hasPrimitive : Option LiteralValue → Bool) (isFFI : Bool)
    (tempCount : Nat) (method : SMethod) (before after : SExpressionLinearizer)
    (visited : visitMethod blockTempCount hasPrimitive isFFI tempCount method before =
      some after) :
    (StackDepthExact tempCount after.operations ∧
      ∀ block ∈ after.executables.drop before.executables.length,
        StackDepthExact (blockTempCount block.1) block.2) ↔
      (startsWithPrimitive hasPrimitive isFFI method = true → before.stackTop = tempCount) ∧
        ∀ code ∈ skeletons method.statements :: (skeletons method.statements).asides,
          code.passesMark = false := by
  by_cases starts : startsWithPrimitive hasPrimitive isFFI method = true →
      before.stackTop = tempCount
  · obtain ⟨whole, ends, passes, asides, emits⟩ := visitMethod_emits visited starts
    obtain ⟨installed, appended, installs⟩ := emits.installs
    have own : StackDepthExact tempCount after.operations ↔ whole.passesMark = false :=
      emits.exact_iff rfl ends
    have others := forall_iff_of_forall₂ installs
    have executables : after.executables.drop before.executables.length = installed := by
      rw [appended]
      exact List.drop_left
    rw [asides] at others
    rw [executables, own, passes, others, List.forall_mem_cons]
    exact (and_iff_right starts).symm
  · constructor
    · rintro ⟨exact_, -⟩
      exact (starts (starts_of_exact visited exact_)).elim
    · rintro ⟨started, -⟩
      exact (starts started).elim

end Trees

/-- A linearizer that has compiled nothing yet. -/
def fresh : SExpressionLinearizer := ⟨[], 0, false, []⟩

/-- `1 to: 2 do: [:i | 3]`, with `i` in the first slot of the frame. -/
def countsToTwo : SExpression :=
  .message (.literal 0 (.integer 1)) (.symbol "to:do:")
    [.literal 0 (.integer 2), .inlinedBlock [1] [.literal 0 (.integer 3)]] true

/-- `self ifNil: [1]`. -/
def asksForNil : SExpression :=
  .message (.identifier .self) (.symbol "ifNil:")
    [.inlinedBlock [] [.literal 0 (.integer 1)]] true

/-- A loop by itself finds its limit. -/
theorem visitMethod_stackDepthExact_loop :
    ∃ after, visitMethod (fun _ => 0) (fun _ => false) false 1 ⟨none, [countsToTwo]⟩ fresh =
        some after ∧
      StackDepthExact 1 after.operations ∧
        ∀ block ∈ after.executables.drop 0, StackDepthExact 0 block.2 := by
  obtain ⟨after, visited⟩ := Option.isSome_iff_exists.mp (by decide :
    (visitMethod (fun _ => 0) (fun _ => false) false 1 ⟨none, [countsToTwo]⟩ fresh).isSome)
  exact ⟨after, visited, (visitMethod_stackDepthExact_iff (fun _ => false) false 1
    ⟨none, [countsToTwo]⟩ fresh after visited).mpr (by decide)⟩

/-- Behind an inlined `ifNil:` the loop takes the slot of `i` for the limit, which is pushed at
position 17 and is in the second slot. -/
theorem visitMethod_loses_operand :
    ∃ after, visitMethod (fun _ => 0) (fun _ => false) false 1 ⟨none, [asksForNil, countsToTwo]⟩
        fresh = some after ∧
      ¬ StackDepthExact 1 after.operations ∧
      after.operations[20]?.map (fun emitted =>
        (emitted.operand, emitted.operation.frameIndex)) = some (some 17, some 1) := by
  obtain ⟨after, visited⟩ := Option.isSome_iff_exists.mp (by decide :
    (visitMethod (fun _ => 0) (fun _ => false) false 1 ⟨none, [asksForNil, countsToTwo]⟩
      fresh).isSome)
  obtain ⟨whole, ends, passes, -, emits⟩ := visitMethod_emits visited (by decide)
  have limit : (visitMethod (fun _ => 0) (fun _ => false) false 1
      ⟨none, [asksForNil, countsToTwo]⟩ fresh).bind (fun after =>
        after.operations[20]?.map fun emitted =>
          (emitted.operand, emitted.operation.frameIndex)) = some (some 17, some 1) := by decide
  rw [visited] at limit
  refine ⟨after, visited, fun exact_ => ?_, limit⟩
  have clear := (emits.exact_iff rfl ends).mp exact_
  rw [passes] at clear
  exact absurd clear (by decide)

end Egg.Linearizer
