import Egg.Optimizing.SplitProgram

/-! Copies of the operands of phis at the ends of the blocks they come from. -/
namespace Egg.Optimizing

open Egg.Data Egg.Data.FlowGraph Egg.Data.StepSimulation

/-- One operand of a phi, with its place. -/
structure Operand (Block Value : Type) where
  block : Block
  phi : Value
  index : Nat
  var : Value
  pred : Block

section Model

variable {Block Value Op : Type} [DecidableEq Block] [DecidableEq Value]

def OPhi.atOperandPut (name : Block) (instruction : Value) (phi : OPhi Block Value) :
    OPhi Block Value :=
  { phi with operands := phi.operands.set (phi.blocks.idxOf name) instruction }

/-- What `variablesWithBlocksDo:` goes through. -/
def operandsOf (block : Block) (phi : OPhi Block Value) : List (Operand Block Value) :=
  (phi.operands.zip phi.blocks).mapIdx fun i (var, pred) => ⟨block, phi.value, i, var, pred⟩

variable (copy : Value → Nat → Value)

/-- The new copy is known by its phi and its place; the variable stays in use by it. -/
def liftOperand (code : Block → OBasicBlock Block Value Op) (operand : Operand Block Value) :
    Block → OBasicBlock Block Value Op :=
  let new := copy operand.phi operand.index
  let code := Function.update code operand.pred { code operand.pred with
    instructions := (code operand.pred).instructions ++ [.copy new operand.var] }
  Function.update code operand.block { code operand.block with
    phis := (code operand.block).phis.map fun phi =>
      if phi.value = operand.phi then phi.atOperandPut operand.pred new else phi }

def liftPhisIn (code : Block → OBasicBlock Block Value Op) (block : Block) :
    Block → OBasicBlock Block Value Op :=
  (code block).phis.foldl (fun code phi => (operandsOf block phi).foldl (liftOperand copy) code)
    code

def splitPhis [Fintype Block] (code : Block → OBasicBlock Block Value Op) (first : Block) :
    Block → OBasicBlock Block Value Op :=
  (withSuccessorsPostOrder (lasts code) first).foldl (liftPhisIn copy) code

/-- The coalescing of phis is still to do in the source. -/
def transformToCSSA [Fintype Block] (code : Block → OBasicBlock Block Value Op) (first : Block) :
    Block → OBasicBlock Block Value Op :=
  splitPhis copy code first

end Model

section Closed

variable {Block Value Op : Type} [DecidableEq Block] [DecidableEq Value]
  (copy : Value → Nat → Value) (done : List (Operand Block Value))

def isLifted (block : Block) (phi : Value) (index : Nat) : Bool :=
  done.any fun operand => operand.block = block && operand.phi = phi && operand.index = index

/-- A phi of a block with its lifted operands. -/
def OPhi.lift (block : Block) (phi : OPhi Block Value) : OPhi Block Value :=
  { phi with operands := phi.operands.mapIdx fun i var =>
      if isLifted done block phi.value i then copy phi.value i else var }

/-- The copies at the end of a block. -/
def copiesAt (Op : Type) (block : Block) : List (Instruction Op Value) :=
  (done.filter (·.pred = block)).map fun operand =>
    .copy (copy operand.phi operand.index) operand.var

/-- The program after some operands are lifted. -/
def liftCode (code : Block → OBasicBlock Block Value Op) (block : Block) :
    OBasicBlock Block Value Op :=
  { code block with
    phis := (code block).phis.map (OPhi.lift copy done block)
    instructions := (code block).instructions ++ copiesAt copy done Op block }

/-- The place of an operand: it is the only one of its phi from its block. -/
structure Operand.Proper (code : Block → OBasicBlock Block Value Op)
    (operand : Operand Block Value) : Prop where
  names : ((code operand.block).phis.map OPhi.value).Nodup
  member : ∃ phi ∈ (code operand.block).phis, phi.value = operand.phi ∧
    phi.blocks.idxOf operand.pred = operand.index ∧ operand.index < phi.operands.length ∧
      phi.operands[operand.index]? = some operand.var ∧ operand.pred ∈ phi.blocks

variable {copy done} {code : Block → OBasicBlock Block Value Op} {first : Block}

theorem isLifted_append (other : List (Operand Block Value)) (block : Block) (phi : Value)
    (index : Nat) : isLifted (done ++ other) block phi index =
      (isLifted done block phi index || isLifted other block phi index) :=
  List.any_append

theorem isLifted_singleton {operand : Operand Block Value} {block : Block} {phi : Value}
    {index : Nat} : isLifted [operand] block phi index = true ↔
      operand.block = block ∧ operand.phi = phi ∧ operand.index = index := by
  rw [isLifted, List.any_cons, List.any_nil, Bool.or_false, Bool.and_eq_true, Bool.and_eq_true,
    decide_eq_true_eq, decide_eq_true_eq, decide_eq_true_eq, and_assoc]

theorem lift_of_none {block : Block} {phi : OPhi Block Value}
    (none : ∀ i, isLifted done block phi.value i = false) : phi.lift copy done block = phi := by
  have kept : phi.operands.mapIdx (fun i var =>
      if isLifted done block phi.value i then copy phi.value i else var) = phi.operands := by
    apply List.ext_getElem?
    intro i
    rw [List.getElem?_mapIdx]
    simp only [none, Bool.false_eq_true, if_false]
    exact Option.map_id'
  unfold OPhi.lift
  rw [kept]

theorem liftCode_nil : liftCode copy [] code = code := by
  funext block
  have phis : (code block).phis.map (OPhi.lift copy [] block) = (code block).phis :=
    (List.map_congr_left fun phi _ => lift_of_none fun _ => rfl).trans (List.map_id _)
  simp only [liftCode, phis, copiesAt, List.filter_nil, List.map_nil, List.append_nil]

/-- One operand more of a phi is lifted. -/
theorem lift_append_self {operand : Operand Block Value} {phi : OPhi Block Value}
    (same : phi.value = operand.phi) (place : phi.blocks.idxOf operand.pred = operand.index) :
    (phi.lift copy done operand.block).atOperandPut operand.pred
        (copy operand.phi operand.index) =
      phi.lift copy (done ++ [operand]) operand.block := by
  have operands : (phi.operands.mapIdx fun i var =>
      if isLifted done operand.block phi.value i then copy phi.value i else var).set operand.index
        (copy operand.phi operand.index) = phi.operands.mapIdx fun i var =>
          if isLifted (done ++ [operand]) operand.block phi.value i then copy phi.value i
          else var := by
    apply List.ext_getElem?
    intro i
    rw [List.getElem?_set, List.getElem?_mapIdx, List.getElem?_mapIdx, List.length_mapIdx]
    by_cases here : operand.index = i
    · subst here
      have lifted : isLifted [operand] operand.block phi.value operand.index = true :=
        isLifted_singleton.mpr ⟨rfl, same.symm, rfl⟩
      rw [if_pos rfl]
      by_cases inside : operand.index < phi.operands.length
      · rw [if_pos inside, List.getElem?_eq_getElem inside, Option.map_some, isLifted_append,
          lifted, Bool.or_true, if_pos rfl, same]
      · rw [if_neg inside, List.getElem?_eq_none_iff.mpr (Nat.le_of_not_lt inside)]
        rfl
    · have other : isLifted [operand] operand.block phi.value i = false :=
        Bool.eq_false_iff.mpr fun lifted => here (isLifted_singleton.mp lifted).2.2
      rw [if_neg here]
      simp only [isLifted_append, other, Bool.or_false]
  unfold OPhi.atOperandPut OPhi.lift
  simp only [place, operands]

theorem lift_append_other {operand : Operand Block Value} {phi : OPhi Block Value} {block : Block}
    (other : block ≠ operand.block ∨ phi.value ≠ operand.phi) :
    phi.lift copy (done ++ [operand]) block = phi.lift copy done block := by
  have absent (i : Nat) : isLifted [operand] block phi.value i = false :=
    Bool.eq_false_iff.mpr fun lifted => by
      obtain ⟨same, same', -⟩ := isLifted_singleton.mp lifted
      exact other.elim (fun apart => apart same.symm) fun apart => apart same'.symm
  unfold OPhi.lift
  simp only [isLifted_append, absent, Bool.or_false]

/-- An operand is lifted after others. -/
theorem liftOperand_liftCode {operand : Operand Block Value} (proper : operand.Proper code) :
    liftOperand copy (liftCode copy done code) operand =
      liftCode copy (done ++ [operand]) code := by
  obtain ⟨owner, inside, owned, place, -, -, -⟩ := proper.member
  have phis : (liftCode copy done code operand.block).phis.map (fun phi =>
      if phi.value = operand.phi then phi.atOperandPut operand.pred
        (copy operand.phi operand.index) else phi) =
        (liftCode copy (done ++ [operand]) code operand.block).phis := by
    show ((code operand.block).phis.map _).map _ = (code operand.block).phis.map _
    rw [List.map_map]
    apply List.map_congr_left
    intro phi member
    show (if phi.value = operand.phi then _ else _) = _
    by_cases same : phi.value = operand.phi
    · have unique : phi = owner := List.inj_on_of_nodup_map proper.names member inside
        (same.trans owned.symm)
      subst unique
      rw [if_pos same]
      exact lift_append_self same place
    · rw [if_neg same]
      exact (lift_append_other (.inr same)).symm
  have copies (block : Block) : copiesAt copy (done ++ [operand]) Op block =
      copiesAt copy done Op block ++
        if operand.pred = block then [.copy (copy operand.phi operand.index) operand.var]
        else [] := by
    unfold copiesAt
    rw [List.filter_append, List.map_append]
    by_cases here : operand.pred = block
    · simp only [if_pos here, List.filter_cons, decide_eq_true here, if_true, List.filter_nil,
        List.map_cons, List.map_nil]
    · simp only [if_neg here, List.filter_cons, decide_eq_false here, Bool.false_eq_true, if_false,
        List.filter_nil, List.map_nil]
  funext x
  have kept (apart : x ≠ operand.block) : (code x).phis.map (OPhi.lift copy done x) =
      (code x).phis.map (OPhi.lift copy (done ++ [operand]) x) :=
    List.map_congr_left fun phi _ => (lift_append_other (.inl apart)).symm
  have ends (here : operand.pred = x) : (code x).instructions ++ copiesAt copy done Op x ++
      [.copy (copy operand.phi operand.index) operand.var] =
        (code x).instructions ++ copiesAt copy (done ++ [operand]) Op x := by
    rw [copies, if_pos here, List.append_assoc]
  have stays (other : x ≠ operand.pred) : (code x).instructions ++ copiesAt copy done Op x =
      (code x).instructions ++ copiesAt copy (done ++ [operand]) Op x := by
    rw [copies, if_neg fun same => other same.symm, List.append_nil]
  by_cases isBlock : x = operand.block
  · subst isBlock
    by_cases isPred : operand.block = operand.pred
    · rw [← isPred] at phis
      simp only [liftOperand, ← isPred, Function.update_self, phis]
      simp only [liftCode, ends isPred.symm]
    · simp only [liftOperand, Function.update_self, Function.update_of_ne isPred, phis]
      simp only [liftCode, stays isPred]
  · by_cases isPred : x = operand.pred
    · subst isPred
      simp only [liftOperand, Function.update_self, Function.update_of_ne isBlock]
      simp only [liftCode, ends rfl, kept isBlock]
    · simp only [liftOperand, Function.update_of_ne isBlock, Function.update_of_ne isPred]
      simp only [liftCode, stays isPred, kept isBlock]

end Closed

section Loops

variable {Block Value Op : Type} [DecidableEq Block] [DecidableEq Value]
  {copy : Value → Nat → Value} {done : List (Operand Block Value)}
  {code : Block → OBasicBlock Block Value Op} {first b : Block}

theorem foldl_liftOperand {operands : List (Operand Block Value)}
    (proper : ∀ operand ∈ operands, operand.Proper code) :
    operands.foldl (liftOperand copy) (liftCode copy done code) =
      liftCode copy (done ++ operands) code := by
  induction operands generalizing done with
  | nil => rw [List.append_nil, List.foldl_nil]
  | cons operand operands ih =>
    rw [List.foldl_cons, liftOperand_liftCode (proper operand List.mem_cons_self),
      ih fun other member => proper other (List.mem_cons_of_mem _ member), List.append_assoc,
      List.singleton_append]

omit [DecidableEq Block] [DecidableEq Value] in
theorem mem_operandsOf {operand : Operand Block Value} {phi : OPhi Block Value} :
    operand ∈ operandsOf b phi ↔ operand.block = b ∧ operand.phi = phi.value ∧
      phi.operands[operand.index]? = some operand.var ∧
        phi.blocks[operand.index]? = some operand.pred := by
  rw [operandsOf, List.mem_mapIdx]
  constructor
  · rintro ⟨i, inside, rfl⟩
    rw [List.getElem_zip]
    rw [List.length_zip] at inside
    exact ⟨rfl, rfl, List.getElem?_eq_getElem _, List.getElem?_eq_getElem _⟩
  · rintro ⟨rfl, owned, var, pred⟩
    obtain ⟨inside, eq⟩ := List.getElem?_eq_some_iff.mp var
    obtain ⟨inside', eq'⟩ := List.getElem?_eq_some_iff.mp pred
    refine ⟨operand.index, ?_, ?_⟩
    · rw [List.length_zip]
      exact Nat.lt_min.mpr ⟨inside, inside'⟩
    · rw [List.getElem_zip]
      simp only [eq, eq', ← owned]

/-- The operands of all phis of some blocks. -/
def operandsIn (code : Block → OBasicBlock Block Value Op) (blocks : List Block) :
    List (Operand Block Value) :=
  blocks.flatMap fun block => (code block).phis.flatMap (operandsOf block)

omit [DecidableEq Block] [DecidableEq Value] in
theorem mem_operandsIn {operand : Operand Block Value} {blocks : List Block} :
    operand ∈ operandsIn code blocks ↔ operand.block ∈ blocks ∧
      ∃ phi ∈ (code operand.block).phis, operand ∈ operandsOf operand.block phi := by
  rw [operandsIn, List.mem_flatMap]
  constructor
  · rintro ⟨block, member, rest⟩
    obtain ⟨phi, inside, one⟩ := List.mem_flatMap.mp rest
    obtain ⟨rfl, -, -, -⟩ := mem_operandsOf.mp one
    exact ⟨member, phi, inside, one⟩
  · rintro ⟨member, phi, inside, one⟩
    exact ⟨operand.block, member, List.mem_flatMap.mpr ⟨phi, inside, one⟩⟩

omit [DecidableEq Value] in
theorem StaticSingle.nodup_predecessors (ssa : StaticSingle code first)
    (once : NoTwofoldJumps code first) (reached : Reachable (Edge (lasts code)) first b) :
    (code b).predecessors.Nodup := by
  rw [List.nodup_iff_count_le_one]
  intro p
  by_cases member : p ∈ (code b).predecessors
  · have reached' := ssa.comes b reached p member
    rw [ssa.counts b reached p reached']
    exact List.nodup_iff_count_le_one.mp (once p reached') b
  · rw [List.count_eq_zero.mpr member]
    exact Nat.zero_le 1

omit [DecidableEq Value] in
theorem StaticSingle.nodup_phis (ssa : StaticSingle code first)
    (reached : Reachable (Edge (lasts code)) first b) : ((code b).phis.map OPhi.value).Nodup :=
  (List.nodup_append.mp (ssa.distinct b reached)).1

omit [DecidableEq Value] in
/-- A phi is told by its value. -/
theorem StaticSingle.phi_unique (ssa : StaticSingle code first)
    (reached : Reachable (Edge (lasts code)) first b) {c : Block}
    (reached' : Reachable (Edge (lasts code)) first c) {p q : OPhi Block Value}
    (member : p ∈ (code b).phis) (member' : q ∈ (code c).phis) (same : p.value = q.value) :
    b = c ∧ p = q := by
  have defined : p.value ∈ (code b).definitions :=
    List.mem_append_left _ (List.mem_map_of_mem member)
  have defined' : p.value ∈ (code c).definitions := by
    rw [same]
    exact List.mem_append_left _ (List.mem_map_of_mem member')
  have block := ssa.single b reached c reached' _ defined defined'
  rw [← block] at member'
  exact ⟨block, List.inj_on_of_nodup_map (ssa.nodup_phis reached) member member' same⟩

omit [DecidableEq Value] in
theorem StaticSingle.proper (ssa : StaticSingle code first) (once : NoTwofoldJumps code first)
    {phi : OPhi Block Value} {operand : Operand Block Value}
    (reached : Reachable (Edge (lasts code)) first b) (member : phi ∈ (code b).phis)
    (one : operand ∈ operandsOf b phi) : operand.Proper code := by
  obtain ⟨rfl, same, var, pred⟩ := mem_operandsOf.mp one
  obtain ⟨inside, eq⟩ := List.getElem?_eq_some_iff.mp var
  obtain ⟨inside', eq'⟩ := List.getElem?_eq_some_iff.mp pred
  have nodup : phi.blocks.Nodup :=
    (ssa.blocks _ reached phi member).1.nodup_iff.mpr (ssa.nodup_predecessors once reached)
  have place : phi.blocks.idxOf operand.pred = operand.index := by
    rw [← eq']
    exact nodup.idxOf_getElem operand.index inside'
  exact ⟨ssa.nodup_phis reached, phi, member, same.symm, place, inside, var,
    List.mem_of_getElem? pred⟩

/-- The loops over a block lift all operands of its phis. -/
theorem liftPhisIn_liftCode (ssa : StaticSingle code first) (once : NoTwofoldJumps code first)
    (reached : Reachable (Edge (lasts code)) first b)
    (fresh : ∀ operand ∈ done, operand.block ≠ b) :
    liftPhisIn copy (liftCode copy done code) b =
      liftCode copy (done ++ (code b).phis.flatMap (operandsOf b)) code := by
  have none (phi : Value) (i : Nat) : isLifted done b phi i = false := by
    rw [isLifted, List.any_eq_false]
    intro operand member lifted
    rw [Bool.and_eq_true, Bool.and_eq_true] at lifted
    exact fresh operand member (of_decide_eq_true lifted.1.1)
  have phis : (liftCode copy done code b).phis = (code b).phis :=
    (List.map_congr_left fun phi _ => lift_of_none (none phi.value)).trans (List.map_id _)
  rw [liftPhisIn, phis, ← List.foldl_flatMap]
  apply foldl_liftOperand
  intro operand member
  obtain ⟨phi, inside, one⟩ := List.mem_flatMap.mp member
  exact ssa.proper once reached inside one

theorem splitPhis_eq [Fintype Block] (ssa : StaticSingle code first)
    (once : NoTwofoldJumps code first) : splitPhis copy code first =
      liftCode copy (operandsIn code (withSuccessorsPostOrder (lasts code) first)) code := by
  have loop (blocks : List Block) (nodup : blocks.Nodup)
      (all : ∀ b ∈ blocks, Reachable (Edge (lasts code)) first b) :
      blocks.foldl (liftPhisIn copy) code = liftCode copy (operandsIn code blocks) code := by
    induction blocks using List.reverseRecOn with
    | nil => exact liftCode_nil.symm
    | append_singleton blocks b ih =>
      obtain ⟨nodup', -, apart⟩ := List.nodup_append.mp nodup
      have reached := all b (List.mem_append_right _ List.mem_cons_self)
      rw [List.foldl_append, ih nodup' fun c member => all c (List.mem_append_left _ member),
        List.foldl_cons, List.foldl_nil, liftPhisIn_liftCode ssa once reached]
      · rw [operandsIn, operandsIn, List.flatMap_append, List.flatMap_singleton]
      · intro operand member same
        exact apart _ (mem_operandsIn.mp member).1 b List.mem_cons_self same
  exact loop _ (nodup_postOrder _ _) fun b member => (mem_postOrder _ _).mp member

end Loops

end Egg.Optimizing
