import Egg.Optimizing.PhiLifting

/-! The program after the operands of its phis are copied. -/
namespace Egg.Optimizing

open Egg.Data Egg.Data.FlowGraph Egg.Data.StepSimulation

section New

variable {Block Value Op : Type}

/-- The values that a block makes or reads. -/
def OBasicBlock.Mentions (block : OBasicBlock Block Value Op) (v : Value) : Prop :=
  v ∈ block.definitions ∨ (∃ instruction ∈ block.instructions, v ∈ instruction.operands) ∨
    v ∈ block.lastInstruction.operands ∨ ∃ phi ∈ block.phis, v ∈ phi.operands

/-- New copies are apart from each other and from the values of the blocks that are reached. -/
structure NewValues (copy : Value → Nat → Value) (code : Block → OBasicBlock Block Value Op)
    (first : Block) : Prop where
  apart : ∀ v i w j, copy v i = copy w j → v = w ∧ i = j
  fresh : ∀ b, Reachable (Edge (lasts code)) first b → ∀ v i, ¬ (code b).Mentions (copy v i)

/-- A value that is no new copy. -/
def Old (copy : Value → Nat → Value) (v : Value) : Prop :=
  ∀ w i, copy w i ≠ v

theorem NewValues.old {copy : Value → Nat → Value} {code : Block → OBasicBlock Block Value Op}
    {first b : Block} (new : NewValues copy code first)
    (reached : Reachable (Edge (lasts code)) first b) {v : Value} (mentions : (code b).Mentions v) :
    Old copy v :=
  fun w i same => new.fresh b reached w i (same ▸ mentions)

end New

/-- The program with all operands of its phis lifted. -/
structure Lifted {Block Value Op : Type} [DecidableEq Block] (copy : Value → Nat → Value)
    (operands : List (Operand Block Value)) (code : Block → OBasicBlock Block Value Op)
    (first : Block) : Prop where
  new : NewValues copy code first
  ssa : StaticSingle code first
  once : NoTwofoldJumps code first
  members : ∀ operand, operand ∈ operands ↔
    Reachable (Edge (lasts code)) first operand.block ∧
      ∃ phi ∈ (code operand.block).phis, operand ∈ operandsOf operand.block phi

section Execution

variable {Block Value Op : Type} [DecidableEq Value] {copy : Value → Nat → Value}
  {Datum Store : Type} {machine : Machine Op Datum Store} {values values' : Value → Datum}
  {store : Store}

/-- The values are the same but for those of copies. -/
def Agree (copy : Value → Nat → Value) (values values' : Value → Datum) : Prop :=
  ∀ v, Old copy v → values' v = values v

theorem Agree.update (agree : Agree copy values values') (v : Value) (datum : Datum) :
    Agree copy (Function.update values v datum) (Function.update values' v datum) := by
  intro w old
  rw [Function.update_apply, Function.update_apply, agree w old]

/-- Instructions that read no copies do the same on values that agree. -/
theorem execute_agree (machine : Machine Op Datum Store) (store : Store)
    (instructions : List (Instruction Op Value))
    (old : ∀ instruction ∈ instructions, ∀ v ∈ instruction.operands, Old copy v)
    (agree : Agree copy values values') :
    (execute machine instructions (values', store)).2 =
        (execute machine instructions (values, store)).2 ∧
      Agree copy (execute machine instructions (values, store)).1
        (execute machine instructions (values', store)).1 := by
  induction instructions generalizing values values' store with
  | nil => exact ⟨rfl, agree⟩
  | cons instruction instructions ih =>
    have rest := fun other member => old other (List.mem_cons_of_mem instruction member)
    have here := old instruction List.mem_cons_self
    unfold execute at ih ⊢
    rw [List.foldl_cons, List.foldl_cons]
    cases instruction with
    | operation value name operands =>
      have same : operands.map values' = operands.map values :=
        List.map_congr_left fun v member => agree v (here v member)
      simp only [Instruction.execute, same]
      exact ih _ rest (agree.update value _)
    | copy value receiver =>
      have same : values' receiver = values receiver :=
        agree receiver (here receiver List.mem_cons_self)
      simp only [Instruction.execute, same]
      exact ih _ rest (agree.update value _)

/-- Copies keep the store and the other values, and take what their operands are. -/
theorem execute_copies (machine : Machine Op Datum Store) (values : Value → Datum) (store : Store)
    (apart : ∀ v i w j, copy v i = copy w j → v = w ∧ i = j)
    (operands : List (Operand Block Value)) (old : ∀ operand ∈ operands, Old copy operand.var)
    (unique : ∀ one ∈ operands, ∀ other ∈ operands, one.phi = other.phi →
      one.index = other.index → one.var = other.var) :
    ∃ values', execute machine (operands.map fun operand =>
        .copy (copy operand.phi operand.index) operand.var) (values, store) = (values', store) ∧
      Agree copy values values' ∧
        ∀ operand ∈ operands, values' (copy operand.phi operand.index) = values operand.var := by
  induction operands using List.reverseRecOn with
  | nil => exact ⟨values, rfl, fun _ _ => rfl, fun _ member => absurd member List.not_mem_nil⟩
  | append_singleton operands operand ih =>
    have before (other : Operand Block Value) (member : other ∈ operands) :
        other ∈ operands ++ [operand] := List.mem_append_left _ member
    have last : operand ∈ operands ++ [operand] := List.mem_append_right _ List.mem_cons_self
    obtain ⟨values', done, agree, taken⟩ := ih (fun other member => old other (before other member))
      fun one member other member' => unique one (before one member) other (before other member')
    refine ⟨Function.update values' (copy operand.phi operand.index) (values operand.var),
      ?_, ?_, ?_⟩
    · unfold execute at done ⊢
      rw [List.map_append, List.foldl_append, done]
      show (Function.update values' _ (values' operand.var), store) = _
      rw [agree operand.var (old operand last)]
    · intro v isOld
      rw [Function.update_of_ne (Ne.symm (isOld operand.phi operand.index)), agree v isOld]
    · intro other member
      by_cases same : copy other.phi other.index = copy operand.phi operand.index
      · obtain ⟨phi, index⟩ := apart _ _ _ _ same
        rw [same, Function.update_self, unique other member operand last phi index]
      · rw [Function.update_of_ne same]
        refine taken other ((List.mem_append.mp member).resolve_right fun one => same ?_)
        rw [List.mem_singleton.mp one]

end Execution

namespace Lifted

variable {Block Value Op : Type} [DecidableEq Block] [DecidableEq Value]
  {copy : Value → Nat → Value} {operands : List (Operand Block Value)}
  {code : Block → OBasicBlock Block Value Op} {first b t : Block}

section Places

variable (lifted : Lifted copy operands code first)

include lifted

omit [DecidableEq Value] in
/-- Every phi has its operand from each block that leads to it. -/
theorem operand_of_edge (reached : Reachable (Edge (lasts code)) first b)
    (edge : Edge (lasts code) b t) {phi : OPhi Block Value} (member : phi ∈ (code t).phis) :
    ∃ operand ∈ operands, operand.block = t ∧ operand.phi = phi.value ∧ operand.pred = b ∧
      operand.index = phi.blocks.idxOf b ∧ operand.index < phi.operands.length ∧
        phi.atOperand b = .ok operand.var := by
  have reached' := reached.step edge
  obtain ⟨same, length⟩ := lifted.ssa.blocks t reached' phi member
  have inside : b ∈ phi.blocks :=
    same.mem_iff.mpr ((lifted.ssa.edge_iff reached').mpr ⟨reached, edge⟩)
  have place : phi.blocks.idxOf b < phi.blocks.length := List.idxOf_lt_length_iff.mpr inside
  have var : phi.operands[phi.blocks.idxOf b]? = some phi.operands[phi.blocks.idxOf b] :=
    List.getElem?_eq_getElem (length.symm ▸ place)
  have pred : phi.blocks[phi.blocks.idxOf b]? = some b := by
    rw [List.getElem?_eq_getElem place, List.getElem_idxOf]
  refine ⟨⟨t, phi.value, phi.blocks.idxOf b, phi.operands[phi.blocks.idxOf b], b⟩,
    (lifted.members _).mpr ⟨reached', phi, member, ?_⟩, rfl, rfl, rfl, rfl,
    length.symm ▸ place, ?_⟩
  · exact mem_operandsOf.mpr ⟨rfl, rfl, var, pred⟩
  · rw [OPhi.atOperand, var]

omit [DecidableEq Value] in
/-- A phi and a place have one operand. -/
theorem unique {one other : Operand Block Value} (member : one ∈ operands)
    (member' : other ∈ operands) (phi : one.phi = other.phi) (index : one.index = other.index) :
    one = other := by
  obtain ⟨reached, p, inside, place⟩ := (lifted.members one).mp member
  obtain ⟨reached', p', inside', place'⟩ := (lifted.members other).mp member'
  obtain ⟨-, owned, var, pred⟩ := mem_operandsOf.mp place
  obtain ⟨-, owned', var', pred'⟩ := mem_operandsOf.mp place'
  obtain ⟨block, same⟩ := lifted.ssa.phi_unique reached reached' inside inside'
    (owned.symm.trans (phi.trans owned'))
  rw [← same, ← index] at var' pred'
  cases one
  cases other
  simp only at block phi index var var' pred pred'
  rw [block, phi, index, Option.some.inj (var.symm.trans var'),
    Option.some.inj (pred.symm.trans pred')]

omit [DecidableEq Value] in
theorem var_old {operand : Operand Block Value} (member : operand ∈ operands) :
    Old copy operand.var := by
  obtain ⟨reached, phi, inside, place⟩ := (lifted.members operand).mp member
  obtain ⟨-, -, var, -⟩ := mem_operandsOf.mp place
  exact lifted.new.old reached
    (.inr (.inr (.inr ⟨phi, inside, List.mem_of_getElem? var⟩)))

omit lifted in
theorem isLifted_iff {phi : Value} {index : Nat} : isLifted operands b phi index = true ↔
    ∃ operand ∈ operands, operand.block = b ∧ operand.phi = phi ∧ operand.index = index := by
  rw [isLifted, List.any_eq_true]
  refine exists_congr fun operand => and_congr_right fun _ => ?_
  rw [Bool.and_eq_true, Bool.and_eq_true, decide_eq_true_eq, decide_eq_true_eq, decide_eq_true_eq,
    and_assoc]

/-- The operands of a phi that is reached are its copies. -/
theorem lift_operands (reached : Reachable (Edge (lasts code)) first b) {phi : OPhi Block Value}
    (member : phi ∈ (code b).phis) {i : Nat} (inside : i < phi.operands.length) :
    (phi.lift copy operands b).operands[i]? = some (copy phi.value i) := by
  obtain ⟨same, length⟩ := lifted.ssa.blocks b reached phi member
  have place : i < phi.blocks.length := length ▸ inside
  have known : isLifted operands b phi.value i = true := by
    rw [isLifted_iff]
    refine ⟨⟨b, phi.value, i, phi.operands[i], phi.blocks[i]⟩, ?_, rfl, rfl, rfl⟩
    rw [lifted.members]
    exact ⟨reached, phi, member, mem_operandsOf.mpr ⟨rfl, rfl,
      List.getElem?_eq_getElem inside, List.getElem?_eq_getElem place⟩⟩
  show (phi.operands.mapIdx _)[i]? = _
  rw [List.getElem?_mapIdx, List.getElem?_eq_getElem inside, Option.map_some, if_pos known]

theorem atOperand_lift (reached : Reachable (Edge (lasts code)) first b)
    (edge : Edge (lasts code) b t) {phi : OPhi Block Value} (member : phi ∈ (code t).phis) :
    (phi.lift copy operands t).atOperand b = .ok (copy phi.value (phi.blocks.idxOf b)) := by
  obtain ⟨operand, -, -, -, -, index, inside, -⟩ := lifted.operand_of_edge reached edge member
  rw [index] at inside
  have found := lifted.lift_operands (reached.step edge) member inside
  have place : (phi.lift copy operands t).blocks.idxOf b = phi.blocks.idxOf b := rfl
  rw [OPhi.atOperand, place, found]

end Places

section Runs

variable (lifted : Lifted copy operands code first) {Datum Store : Type}
  (machine : Machine Op Datum Store)

include lifted

/-- A phi takes from its copy what it took from its operand. -/
theorem enter_lift (reached : Reachable (Edge (lasts code)) first b)
    (edge : Edge (lasts code) b t) {values values' : Value → Datum}
    (agree : Agree copy values values')
    (taken : ∀ operand ∈ operands, operand.pred = b →
      values' (copy operand.phi operand.index) = values operand.var) :
    Agree copy (enter (code t).phis b values) (enter (liftCode copy operands code t).phis b values')
    := by
  intro v old
  have found : (liftCode copy operands code t).phis.find? (·.value = v) =
      ((code t).phis.find? (·.value = v)).map (OPhi.lift copy operands t) := List.find?_map
  rw [enter, enter, found]
  cases same : (code t).phis.find? (·.value = v) with
  | none => exact agree v old
  | some phi =>
    have member := List.mem_of_find?_eq_some same
    obtain ⟨operand, known, -, owned, pred, index, -, taking⟩ :=
      lifted.operand_of_edge reached edge member
    have new := lifted.atOperand_lift reached edge member
    have equal := taken operand known pred
    rw [owned, index] at equal
    simp only [Option.map_some, new, taking, equal]

/-- Behind a block, the copies for the phis after it hold their operands. -/
theorem after_lift {state state' : RunState Block Value Datum Store}
    (reached : Reachable (Edge (lasts code)) first state.block) (block : state'.block = state.block)
    (store : state'.store = state.store) (agree : Agree copy state.values state'.values) :
    (state'.after machine (liftCode copy operands code)).2 = (state.after machine code).2 ∧
      Agree copy (state.after machine code).1
        (state'.after machine (liftCode copy operands code)).1 ∧
      ∀ operand ∈ operands, operand.pred = state.block →
        (state'.after machine (liftCode copy operands code)).1
          (copy operand.phi operand.index) = (state.after machine code).1 operand.var := by
  have old (instruction : Instruction Op Value)
      (member : instruction ∈ (code state.block).instructions) (v : Value)
      (operand : v ∈ instruction.operands) : Old copy v :=
    lifted.new.old reached (.inr (.inl ⟨instruction, member, operand⟩))
  obtain ⟨store', agree'⟩ :=
    execute_agree machine state.store (code state.block).instructions old agree
  obtain ⟨values', done, agree'', taken⟩ := execute_copies machine
    (execute machine (code state.block).instructions (state'.values, state.store)).1
    (execute machine (code state.block).instructions (state'.values, state.store)).2
    lifted.new.apart (operands.filter (·.pred = state.block))
    (fun operand member => lifted.var_old (List.mem_of_mem_filter member))
    fun one member other member' phi index => congrArg Operand.var
      (lifted.unique (List.mem_of_mem_filter member) (List.mem_of_mem_filter member') phi index)
  have behind : state'.after machine (liftCode copy operands code) =
      (values', (state.after machine code).2) := by
    rw [RunState.after, block, store, liftCode, execute, List.foldl_append, copiesAt]
    rw [execute] at done
    refine done.trans ?_
    rw [store']
    rfl
  rw [behind]
  refine ⟨rfl, fun v isOld => (agree'' v isOld).trans (agree' v isOld), ?_⟩
  intro operand member pred
  have inside : operand ∈ operands.filter (·.pred = state.block) :=
    List.mem_filter.mpr ⟨member, decide_eq_true pred⟩
  exact (taken operand inside).trans (agree' _ (lifted.var_old member))

/-- The states of the two programs that belong together. -/
structure Alike (copy : Value → Nat → Value) (code : Block → OBasicBlock Block Value Op)
    (first : Block) (state state' : RunState Block Value Datum Store) : Prop where
  reached : Reachable (Edge (lasts code)) first state.block
  block : state'.block = state.block
  store : state'.store = state.store
  agree : Agree copy state.values state'.values

omit [DecidableEq Value] in
theorem exit_old (reached : Reachable (Edge (lasts code)) first b) (v : Value)
    (operand : v ∈ (code b).lastInstruction.operands) : Old copy v :=
  lifted.new.old reached (.inr (.inr (.inl operand)))

theorem next_lift {state state' : RunState Block Value Datum Store}
    (alike : Alike copy code first state state') :
    (liftCode copy operands code state'.block).lastInstruction.next machine
        (state'.after machine (liftCode copy operands code)).1 =
      (code state.block).lastInstruction.next machine (state.after machine code).1 := by
  obtain ⟨-, agree, -⟩ := lifted.after_lift machine alike.reached alike.block alike.store alike.agree
  have old := lifted.exit_old alike.reached
  rw [alike.block]
  show (code state.block).lastInstruction.next machine _ = _
  cases exit : (code state.block).lastInstruction with
  | leave source => rfl
  | jump target => rfl
  | jumpConditional onTrue tested target implicitTarget =>
    rw [exit] at old
    rw [Exit.next, Exit.next, agree tested (old tested List.mem_cons_self)]

/-- The two programs go step by step together. -/
theorem follows : Follows (RunState.step machine code)
    (RunState.step machine (liftCode copy operands code)) (Alike copy code first)
    (fun _ => False) := by
  constructor
  · intro s s' t alike step
    obtain ⟨target, goes, rfl⟩ := Option.map_eq_some_iff.mp step
    have edge : Edge (lasts code) s.block target := Exit.next_mem goes
    obtain ⟨store, agree, taken⟩ :=
      lifted.after_lift machine alike.reached alike.block alike.store alike.agree
    refine ⟨s'.enters machine (liftCode copy operands code) target,
      ⟨alike.reached.step edge, rfl, store, ?_⟩, .inl ?_⟩
    · have entered := lifted.enter_lift alike.reached edge agree taken
      rw [RunState.enters, RunState.enters, alike.block]
      exact entered
    · rw [RunState.step, lifted.next_lift machine alike, goes]
      rfl
  · intro s s' alike step
    have stopped := Option.map_eq_none_iff.mp step
    rw [RunState.step, lifted.next_lift machine alike, stopped]
    rfl

theorem answer_lift {state state' : RunState Block Value Datum Store}
    (alike : Alike copy code first state state') :
    state'.answer machine (liftCode copy operands code) = state.answer machine code := by
  obtain ⟨store, agree, -⟩ :=
    lifted.after_lift machine alike.reached alike.block alike.store alike.agree
  have old := lifted.exit_old alike.reached
  unfold RunState.answer
  rw [alike.block, store]
  have ends : (liftCode copy operands code state.block).lastInstruction =
    (code state.block).lastInstruction := rfl
  rw [ends]
  cases exit : (code state.block).lastInstruction with
  | leave source =>
    rw [exit] at old
    have same := agree source (old source List.mem_cons_self)
    simp only [same]
  | jump target => rfl
  | jumpConditional onTrue tested target implicitTarget => rfl

end Runs

end Lifted

end Egg.Optimizing
