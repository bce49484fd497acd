import Egg.Linearizer.Emission

/-! What the messages with code of their own emit, from what their parts emit. -/
namespace Egg.Linearizer

open Egg.Treecode Egg.Data.StructuredCode

section Constructs

variable {blockTempCount : LiteralValue → Nat} {a b c : Skeleton}
  {before after : SExpressionLinearizer}

/-- What visits arguments leaves that many operands more. -/
def Pushes (blockTempCount : LiteralValue → Nat) (skeleton : Skeleton) (count : Nat)
    (visit : Visit) : Prop :=
  ∀ before after, visit before = some after → ∀ state, ∃ pushed : List Nat,
    pushed.length = count ∧ Emits blockTempCount skeleton state (pushed ++ state) before after

theorem Visits.pushed {visit : Visit} (visits : Visits blockTempCount a visit) :
    Pushes blockTempCount a 1 (pushed visit) := by
  intro before after visited state
  simp only [Linearizer.pushed, Option.map_eq_some_iff] at visited
  obtain ⟨between, visited, rfl⟩ := visited
  exact ⟨[between.currentPC], rfl,
    (visits before between visited state).then_nothing (Emits.pushR between state)⟩

/-- A send, in a state of its own: arguments may depend on the operands there were before. -/
theorem send_emits {selector : LiteralValue} {isSuper : Bool} {argsize : Nat}
    {receiver arguments : Visit} {state : List Nat}
    (visited : send selector isSuper argsize receiver arguments before = some after)
    (receives : ∀ between, receiver before = some between →
      Emits blockTempCount a state state before between)
    (pushes : ∀ between state' last, Since before state between state' →
      arguments between = some last → ∃ pushed : List Nat, pushed.length = argsize ∧
        Emits blockTempCount b state' (pushed ++ state') between last) :
    Emits blockTempCount (.seq a b) state state before after := by
  simp only [send, Option.bind_eq_bind, Option.bind_eq_some_iff, Option.pure_def,
    Option.some.injEq] at visited
  obtain ⟨received, visitedReceiver, argued, visitedArguments, rfl⟩ := visited
  have left := receives received visitedReceiver
  have since := left.since List.suffix_rfl
  by_cases some : 0 < argsize
  · simp only [if_pos some] at visitedArguments ⊢
    have pushesReceiver : Emits blockTempCount .nothing state _ received _ :=
      Emits.pushR received state
    obtain ⟨pushed, count, right⟩ := pushes _ _ argued
      (since.trans (pushesReceiver.since (List.suffix_cons _ _))) visitedArguments
    have loads : Emits blockTempCount .nothing _ _ argued _ :=
      Emits.emit argued (.loadRfromStack argsize) (pushed ++ received.currentPC :: state) rfl
    have sends : Emits blockTempCount .nothing _ _ (argued.emit (.loadRfromStack argsize)) _ :=
      Emits.emit _ (.dispatchMessage selector isSuper argsize)
        (pushed ++ received.currentPC :: state) rfl
    have drops : Emits blockTempCount .nothing _ _ ((argued.emit (.loadRfromStack argsize)).emit
        (.dispatchMessage selector isSuper argsize)) _ :=
      Emits.dropToS _ (pushed ++ [received.currentPC]) state
    rw [List.append_assoc, List.length_append, count] at drops
    have whole := (left.then_nothing pushesReceiver).seq
      (((right.then_nothing loads).then_nothing sends).then_nothing drops)
    rw [SExpressionLinearizer.dropMessageArgs, if_neg (Nat.ne_of_gt some)]
    exact whole
  · obtain rfl : argsize = 0 := by omega
    simp only [Nat.lt_irrefl, if_false] at visitedArguments ⊢
    obtain ⟨pushed, count, right⟩ := pushes _ _ argued since visitedArguments
    obtain rfl := List.length_eq_zero_iff.mp count
    exact left.seq (right.then_nothing
      (Emits.emit argued (.dispatchMessage selector isSuper 0) state rfl))

theorem send_visits (selector : LiteralValue) (isSuper : Bool) {argsize : Nat}
    {receiver arguments : Visit} (receives : Visits blockTempCount a receiver)
    (pushes : Pushes blockTempCount b argsize arguments) :
    Visits blockTempCount (.seq a b) (send selector isSuper argsize receiver arguments) := by
  intro before after visited state
  apply send_emits visited
  · exact fun between visited => receives before between visited state
  · exact fun between state' last _ visited => pushes between last visited state'

theorem emit_visits (operation : Operation) (isPlain : operation.isPlain) :
    Visits blockTempCount .nothing fun linearizer => some (linearizer.emit operation) := by
  rintro before after ⟨⟩ state
  exact Emits.emit before operation state isPlain

theorem compareToNil_visits : Visits blockTempCount .nothing compareToNil := by
  intro before after visited state
  have visits : Visits blockTempCount _ compareToNil := send_visits (.symbol "==") false
    (emit_visits (.loadRfromStack 0) rfl) (emit_visits nilLiteral rfl).pushed
  exact (visits before after visited state).congr ⟨rfl, rfl, rfl⟩ rfl

theorem asBlock_visits (expression : SExpression) {visit : Visit}
    (visits : Visits blockTempCount a visit) :
    Visits blockTempCount a (asBlock expression visit) := by
  intro before after visited state
  unfold asBlock at visited
  split at visited
  · exact visits before after visited state
  · cases visited

theorem inlineIf_visits (aBoolean : Bool) {receiver script : Visit}
    (receives : Visits blockTempCount a receiver) (scripts : Visits blockTempCount b script) :
    Visits blockTempCount (.seq a (.guard b)) (inlineIf aBoolean receiver script) := by
  intro before after visited state
  simp only [inlineIf, Option.bind_eq_bind, Option.bind_eq_some_iff, Option.pure_def,
    Option.some.injEq] at visited
  obtain ⟨received, visitedReceiver, taken, visitedScript, rfl⟩ := visited
  have first := receives before received visitedReceiver state
  have second := Emits.arms (!aBoolean)
    (scripts (received.branchIf (!aBoolean)) taken visitedScript state)
    (Emits.emit _ .loadRwithNil state rfl)
  have whole := first.seq second
  exact whole.congr (Skeleton.Agrees.seq (.refl a)
    ⟨by simp [Skeleton.completes], by simp [Skeleton.marks], by
      simp [Skeleton.passesMark, Skeleton.marks]⟩) (by simp [Skeleton.asides])

theorem storeArgument_emits (inlinedArgs : List Int) (linearizer : SExpressionLinearizer)
    (state : List Nat) :
    Emits blockTempCount .nothing state state linearizer
      (storeArgument inlinedArgs linearizer) := by
  unfold storeArgument
  split
  · exact Emits.emit linearizer _ state rfl
  · exact Emits.nothing state linearizer

/-- What precedes the arms: the receiver is kept in its place, pushed, and compared with nil. -/
theorem compared_emits {receiver : Visit} (receives : Visits blockTempCount a receiver)
    (inlinedArgs : List Int) {received compared : SExpressionLinearizer}
    (visitedReceiver : receiver before = some received)
    (visitedCompare : compareToNil (storeArgument inlinedArgs received).pushR = some compared)
    (state : List Nat) :
    Emits blockTempCount a state ((storeArgument inlinedArgs received).currentPC :: state) before
      compared := by
  have first := receives before received visitedReceiver state
  have stores : Emits blockTempCount .nothing state state received _ :=
    storeArgument_emits inlinedArgs received state
  have keeps : Emits blockTempCount .nothing state _ (storeArgument inlinedArgs received) _ :=
    Emits.pushR _ state
  have compares : Emits blockTempCount .nothing _ _ _ compared := compareToNil_visits _ compared
    visitedCompare ((storeArgument inlinedArgs received).currentPC :: state)
  exact ((first.then_nothing stores).then_nothing keeps).then_nothing compares

theorem inlineIfNil_visits (aBoolean : Bool) {receiver arg : Visit} (inlinedArgs : List Int)
    (receives : Visits blockTempCount a receiver) (args : Visits blockTempCount b arg) :
    Visits blockTempCount (.seq a (.either b (.step true)))
      (inlineIfNil aBoolean receiver inlinedArgs arg) := by
  intro before after visited state
  simp only [inlineIfNil, Option.bind_eq_bind, Option.bind_eq_some_iff, Option.pure_def,
    Option.some.injEq] at visited
  obtain ⟨received, visitedReceiver, compared, visitedCompare, taken, visitedArg, rfl⟩ := visited
  have first := compared_emits receives inlinedArgs visitedReceiver visitedCompare state
  have arm := args _ taken visitedArg ((storeArgument inlinedArgs received).currentPC :: state)
  have drops := arm.then_nothing
    (Emits.dropToS taken [(storeArgument inlinedArgs received).currentPC] state)
  have arms := Emits.arms (!aBoolean) drops (Emits.popR _ _ state)
  exact first.seq arms

theorem inlineIfNilIfNotNil_visits (aBoolean : Bool) {receiver arg0 arg1 : Visit}
    (inlinedArgs : List Int) (receives : Visits blockTempCount a receiver)
    (first : Visits blockTempCount b arg0) (second : Visits blockTempCount c arg1) :
    Visits blockTempCount (.seq a (.either b c))
      (inlineIfNilIfNotNil aBoolean receiver inlinedArgs arg0 arg1) := by
  intro before after visited state
  simp only [inlineIfNilIfNotNil, Option.bind_eq_bind, Option.bind_eq_some_iff, Option.pure_def,
    Option.some.injEq] at visited
  obtain ⟨received, visitedReceiver, compared, visitedCompare, taken, visitedFirst, other,
    visitedSecond, rfl⟩ := visited
  have start := compared_emits receives inlinedArgs visitedReceiver visitedCompare state
  have left := first _ taken visitedFirst ((storeArgument inlinedArgs received).currentPC :: state)
  have right := second _ other visitedSecond
    ((storeArgument inlinedArgs received).currentPC :: state)
  have drops : Emits blockTempCount .nothing _ _ (other.branchTargetOf taken.currentPC) _ :=
    Emits.dropToS _ [(storeArgument inlinedArgs received).currentPC] state
  exact start.seq ((Emits.arms (!aBoolean) left right).then_nothing drops)

theorem inlineIfTrueIfFalse_visits (aBoolean : Bool) {receiver arg0 arg1 : Visit}
    (receives : Visits blockTempCount a receiver) (first : Visits blockTempCount b arg0)
    (second : Visits blockTempCount c arg1) :
    Visits blockTempCount (.seq a (.either b c))
      (inlineIfTrueIfFalse aBoolean receiver arg0 arg1) := by
  intro before after visited state
  simp only [inlineIfTrueIfFalse, Option.bind_eq_bind, Option.bind_eq_some_iff, Option.pure_def,
    Option.some.injEq] at visited
  obtain ⟨received, visitedReceiver, taken, visitedFirst, other, visitedSecond, rfl⟩ := visited
  have start := receives before received visitedReceiver state
  have left := first _ taken visitedFirst state
  have right := second _ other visitedSecond state
  exact start.seq (Emits.arms (!aBoolean) left right)

theorem inlineUnitaryWhile_visits (aBoolean : Bool) {receiver : Visit}
    (receives : Visits blockTempCount a receiver) :
    Visits blockTempCount (.again a true) (inlineUnitaryWhile aBoolean receiver) := by
  intro before after visited state
  simp only [inlineUnitaryWhile, Option.bind_eq_bind, Option.bind_eq_some_iff, Option.pure_def,
    Option.some.injEq] at visited
  obtain ⟨received, visitedReceiver, rfl⟩ := visited
  have inner := receives before received visitedReceiver state
  have patched := setTarget_emit received (branch aBoolean SExpressionLinearizer.unset)
    before.currentPC
  rw [branch_target] at patched
  rw [SExpressionLinearizer.branchIf, ← branch, patched]
  exact Emits.again (branch_pops _ _) (branch_operands _ _) (branch_successors _ _) inner

theorem inlineRepeat_visits {receiver : Visit} (receives : Visits blockTempCount a receiver) :
    Visits blockTempCount (.again a false) (inlineRepeat receiver) := by
  intro before after visited state
  simp only [inlineRepeat, Option.bind_eq_bind, Option.bind_eq_some_iff, Option.pure_def,
    Option.some.injEq] at visited
  obtain ⟨received, visitedReceiver, rfl⟩ := visited
  exact Emits.again rfl (fun _ _ => rfl) (fun _ => rfl)
    (receives before received visitedReceiver state)

theorem inlineBinaryWhile_visits (aBoolean : Bool) {receiver arg : Visit}
    (receives : Visits blockTempCount a receiver) (args : Visits blockTempCount b arg) :
    Visits blockTempCount (.loop a b) (inlineBinaryWhile aBoolean receiver arg) := by
  intro before after visited state
  simp only [inlineBinaryWhile, Option.bind_eq_bind, Option.bind_eq_some_iff, Option.pure_def,
    Option.some.injEq] at visited
  obtain ⟨received, visitedReceiver, taken, visitedArg, rfl⟩ := visited
  exact Emits.loop (!aBoolean) (receives before received visitedReceiver state)
    (args _ taken visitedArg state)

theorem inlineNot_visits (aBoolean : Bool) {receiver arg : Visit}
    (receives : Visits blockTempCount a receiver) (args : Visits blockTempCount b arg) :
    Visits blockTempCount (.seq a (.guard b)) (inlineNot aBoolean receiver arg) := by
  intro before after visited state
  simp only [inlineNot, Option.bind_eq_bind, Option.bind_eq_some_iff, Option.pure_def,
    Option.some.injEq] at visited
  obtain ⟨received, visitedReceiver, taken, visitedArg, rfl⟩ := visited
  have start := receives before received visitedReceiver state
  have arm := (args _ taken visitedArg state).then_nothing
    (Emits.emit taken (.dispatchMessage (.symbol "not") false 0) state rfl)
  exact start.seq (Emits.guard aBoolean arm)

theorem foldl_branchTargetOf (branches : List Nat) (linearizer : SExpressionLinearizer)
    (position : Nat) :
    branches.foldl SExpressionLinearizer.branchTargetOf (linearizer.branchTargetOf position) =
      (branches.foldl SExpressionLinearizer.branchTargetOf linearizer).branchTargetOf position := by
  induction branches generalizing linearizer with
  | nil => rfl
  | cons first branches inductionHypothesis =>
    simp only [List.foldl_cons]
    rw [← inductionHypothesis, branchTargetOf_comm]

theorem frameLoad_emits {origin : SExpressionLinearizer} {base state : List Nat} {operand : Nat}
    (since : Since origin (operand :: base) before state)
    (visited : frameLoad (some operand) origin.stackTop before = some after) :
    Emits blockTempCount .nothing state state before after := by
  cases visited
  exact since.emitFor rfl rfl

/-- A send whose receiver and argument are made up. -/
theorem arithmetic_emits {selector : LiteralValue} {current operand : Visit} {state : List Nat}
    (visited : send selector false 1 current (pushed operand) before = some after)
    (currents : ∀ between, current before = some between →
      Emits blockTempCount .nothing state state before between)
    (operands : ∀ between last state', Since before state between state' →
      operand between = some last → Emits blockTempCount .nothing state' state' between last) :
    Emits blockTempCount .nothing state state before after := by
  have sends : Emits blockTempCount (.seq .nothing .nothing) state state before after := by
    apply send_emits visited currents
    intro between state' last since visited
    simp only [pushed, Option.map_eq_some_iff] at visited
    obtain ⟨loaded, visited, rfl⟩ := visited
    exact ⟨[loaded.currentPC], rfl, (operands between loaded state' since visited).then_nothing
      (Emits.pushR loaded state')⟩
  exact sends.congr ⟨rfl, rfl, rfl⟩ rfl

/-- The loop of `to:do:` and `timesRepeat:`, whose operands are on top of the others. -/
theorem countingLoop_emits {current limit body : Visit}
    {store : SExpressionLinearizer → SExpressionLinearizer} (pushed state : List Nat)
    (visited : countingLoop current limit store body pushed.length before = some after)
    (currents : ∀ between last, Since before (pushed ++ state) between (pushed ++ state) →
      current between = some last →
        Emits blockTempCount .nothing (pushed ++ state) (pushed ++ state) between last)
    (limits : ∀ between last state', Since before (pushed ++ state) between state' →
      limit between = some last → Emits blockTempCount .nothing state' state' between last)
    (stores : ∀ between, Since before (pushed ++ state) between (pushed ++ state) →
      Emits blockTempCount .nothing (pushed ++ state) (pushed ++ state) between (store between))
    (bodies : Visits blockTempCount a body) :
    Emits blockTempCount (.guard a) (pushed ++ state) state before after := by
  simp only [countingLoop, Option.bind_eq_bind, Option.bind_eq_some_iff, Option.pure_def,
    Option.some.injEq] at visited
  obtain ⟨compared, visitedCompare, repeated, visitedBody, added, visitedAdd, rfl⟩ := visited
  have compares : Emits blockTempCount .nothing _ _ before compared :=
    arithmetic_emits visitedCompare (fun between => currents before between (Since.refl _ _))
      fun between last state' since => limits between last state' since
  have sinceCompare := compares.since List.suffix_rfl
  have inside := bodies _ repeated visitedBody (pushed ++ state)
  have sinceBody := (sinceCompare.branchIf true).trans (inside.since List.suffix_rfl)
  have adds : Emits blockTempCount .nothing _ _ repeated added :=
    arithmetic_emits visitedAdd (fun between => currents repeated between sinceBody)
      fun between last state' _ visited => emit_visits one rfl between last visited state'
  have writes := stores added (sinceBody.trans (adds.since List.suffix_rfl))
  have round := (inside.then_nothing adds).then_nothing writes
  have drops : Emits blockTempCount .nothing _ _ (((store added).jumpTo
      before.currentPC).branchTargetOf compared.currentPC) _ := Emits.dropToS _ pushed state
  have whole := (Emits.loop true compares round).then_nothing drops
  exact whole.congr ⟨rfl, by simp [Skeleton.marks], by
    simp [Skeleton.passesMark, Skeleton.completes]⟩ (by simp [Skeleton.asides])

theorem inlineToDo_visits (index : Int) {receiver arg body : Visit}
    (receives : Visits blockTempCount a receiver) (args : Visits blockTempCount b arg)
    (bodies : Visits blockTempCount c body) :
    Visits blockTempCount (.seq a (.seq b (.guard c))) (inlineToDo receiver index arg body) := by
  intro before after visited state
  simp only [inlineToDo, Option.bind_eq_bind, Option.bind_eq_some_iff] at visited
  obtain ⟨received, visitedReceiver, limited, visitedLimit, visited⟩ := visited
  have first := (receives before received visitedReceiver state).then_nothing
    (Emits.emit received (.storeRintoFrame index) state rfl)
  have second := (args _ limited visitedLimit state).then_nothing (Emits.pushR limited state)
  have loops : Emits blockTempCount (.guard c) ([limited.currentPC] ++ state) state
      limited.pushR after := by
    apply countingLoop_emits [limited.currentPC] state visited ?_ ?_ ?_ bodies
    · rintro between last - ⟨⟩
      exact Emits.emit between (.loadRfromFrame index) _ rfl
    · exact fun between last state' since visited => frameLoad_emits since visited
    · exact fun between _ => Emits.emit between (.storeRintoFrame index) _ rfl
  exact first.seq (second.seq loops)

theorem inlineTimesRepeat_visits {receiver body : Visit}
    (receives : Visits blockTempCount a receiver) (bodies : Visits blockTempCount b body) :
    Visits blockTempCount (.seq a (.guard b)) (inlineTimesRepeat receiver body) := by
  intro before after visited state
  simp only [inlineTimesRepeat, Option.bind_eq_bind, Option.bind_eq_some_iff] at visited
  obtain ⟨received, visitedReceiver, visited⟩ := visited
  have counts : Emits blockTempCount .nothing state _ before (before.emit one).pushR :=
    (Emits.emit before one state rfl).then_nothing (Emits.pushR _ state)
  have first := receives _ received visitedReceiver ((before.emit one).currentPC :: state)
  have second := first.then_nothing (Emits.pushR received _)
  have sinceCounter := second.since (List.suffix_cons _ _)
  have loops : Emits blockTempCount (.guard b)
      ([received.currentPC, (before.emit one).currentPC] ++ state) state received.pushR
      after := by
    apply countingLoop_emits [received.currentPC, (before.emit one).currentPC] state visited
      ?_ ?_ ?_ bodies
    · exact fun between last since visited =>
        frameLoad_emits (sinceCounter.trans since) visited
    · exact fun between last state' since visited => frameLoad_emits since visited
    · exact fun between since => (sinceCounter.trans since).emitFor rfl rfl
  exact counts.after_nothing (second.seq loops)

theorem none_visits (skeleton : Skeleton) : Visits blockTempCount skeleton fun _ => none := by
  rintro before after ⟨⟩

theorem inlineConditions_visits {receiver : Visit}
    {conditions : SExpressionLinearizer → Option (List Nat × SExpressionLinearizer)}
    (receives : Visits blockTempCount a receiver)
    (emits : ∀ before after branches, conditions before = some (branches, after) → ∀ state,
      Emits blockTempCount b state state before
        (branches.foldl SExpressionLinearizer.branchTargetOf after)) :
    Visits blockTempCount (.seq a b) (fun linearizer => do
      let linearizer ← receiver linearizer
      let (branches, linearizer) ← conditions linearizer
      pure (branches.foldl SExpressionLinearizer.branchTargetOf linearizer)) := by
  intro before after visited state
  simp only [Option.bind_eq_bind, Option.bind_eq_some_iff, Option.pure_def,
    Option.some.injEq] at visited
  obtain ⟨received, visitedReceiver, ⟨branches, last⟩, visitedConditions, rfl⟩ := visited
  exact (receives before received visitedReceiver state).seq
    (emits received last branches visitedConditions state)

/-- Code that is emitted from the start on, and that control does not leave at its end. -/
theorem EmitsFrom.exact_iff {final : List Nat}
    (emits : Emits blockTempCount a [] final before after) (fresh : before.operations = [])
    (ends : a.completes = false) :
    StackDepthExact before.stackTop after.operations ↔ a.passesMark = false := by
  obtain ⟨precise, segment, agrees, appended, balanced⟩ := emits.code
  have pops : before.pops = 0 := by rw [SExpressionLinearizer.pops, fresh]; rfl
  have start : before.currentPC = 0 := by rw [SExpressionLinearizer.currentPC, fresh]; rfl
  obtain ⟨-, structured⟩ := balanced before.stackTop (by rw [pops]; rfl)
  rw [pops, start] at structured
  rw [appended, fresh, List.nil_append, ← agrees.passesMark]
  exact stackDepthExact_iff structured (agrees.completes.trans ends)

end Constructs

end Egg.Linearizer
