import Egg.Optimizing.SSAProgram

/-! Critical edges and the blocks that are put on them. -/
namespace Egg.Optimizing

open Egg.Data Egg.Data.FlowGraph

section Model

variable {Block Value Op : Type} [DecidableEq Block]

def OPhi.replaceBlock (original new : Block) (phi : OPhi Block Value) : OPhi Block Value :=
  { phi with blocks := phi.blocks.map fun block => if block = original then new else block }

def OBasicBlock.replacePredecessor (old new : Block) (block : OBasicBlock Block Value Op) :
    OBasicBlock Block Value Op :=
  { block with
    phis := block.phis.map (OPhi.replaceBlock old new)
    predecessors := block.predecessors.map fun pred => if pred = old then new else pred }

/-- The first target that is the block, or else the implicit one, becomes the middle. -/
def Exit.retarget (block middle : Block) : Exit Block Value → Exit Block Value
  | leave source => leave source
  | jump target => if target = block then jump middle else jump target
  | jumpConditional onTrue tested target implicitTarget =>
    if target = block then jumpConditional onTrue tested middle implicitTarget
    else jumpConditional onTrue tested target middle

variable (middle : Block → Block → Block)

/-- The new block is known by the edge it is put on. -/
def splitEdgeTo (pred block : Block) (code : Block → OBasicBlock Block Value Op) :
    Block → OBasicBlock Block Value Op :=
  let new := middle pred block
  let code := Function.update code new ⟨[], [], .jump block, [pred]⟩
  let code := Function.update code pred
    { code pred with lastInstruction := (code pred).lastInstruction.retarget block new }
  Function.update code block ((code block).replacePredecessor pred new)

/-- The list is changed in place while its elements are visited. -/
def splitIncomingCriticalEdges (code : Block → OBasicBlock Block Value Op) (block : Block) :
    Block → OBasicBlock Block Value Op :=
  if 1 < (code block).predecessors.length then
    (List.range (code block).predecessors.length).foldl (fun code i =>
      match (code block).predecessors[i]? with
      | none => code
      | some pred =>
        if 1 < (successors (lasts code) pred).length then splitEdgeTo middle pred block code
        else code) code
  else code

def splitAllCriticalEdges [Fintype Block] (code : Block → OBasicBlock Block Value Op)
    (first : Block) : Block → OBasicBlock Block Value Op :=
  (withSuccessorsPostOrder (lasts code) first).foldl (splitIncomingCriticalEdges middle) code

end Model

section Closed

variable {Block Value Op : Type} [DecidableEq Block] (middle : Block → Block → Block)
  (edges : List (Block × Block))

/-- The block that comes before a block in the place of a predecessor. -/
def instead (block pred : Block) : Block :=
  if (pred, block) ∈ edges then middle pred block else pred

/-- The block that comes behind a block in the place of a target. -/
def Split.toward (middle : Block → Block → Block) (edges : List (Block × Block))
    (block target : Block) : Block :=
  if (block, target) ∈ edges then middle block target else target

/-- Where a block goes on after its edges are split; of two equal targets one is left. -/
def Exit.splitAt (block : Block) : Exit Block Value → Exit Block Value
  | jumpConditional onTrue tested target implicitTarget =>
    jumpConditional onTrue tested
      (if (block, target) ∈ edges then middle block target else target)
      (if implicitTarget ≠ target ∧ (block, implicitTarget) ∈ edges then
        middle block implicitTarget else implicitTarget)
  | exit => exit

def OBasicBlock.splitAt (self : Block) (block : OBasicBlock Block Value Op) :
    OBasicBlock Block Value Op where
  phis := block.phis.map fun phi =>
    { phi with blocks := phi.blocks.map (instead middle edges self) }
  instructions := block.instructions
  lastInstruction := block.lastInstruction.splitAt middle edges self
  predecessors := block.predecessors.map (instead middle edges self)

/-- The program after some of its edges are split. -/
def splitCode (code : Block → OBasicBlock Block Value Op) (block : Block) :
    OBasicBlock Block Value Op :=
  match edges.find? (fun edge => middle edge.1 edge.2 = block) with
  | some (pred, succ) => ⟨[], [], .jump succ, [pred]⟩
  | none => (code block).splitAt middle edges block

/-- The new blocks of edges are told apart. -/
def Unmixed : Prop :=
  ∀ p b, (p, b) ∈ edges → ∀ q c, (q, c) ∈ edges → middle p b = middle q c → p = q ∧ b = c

/-- New blocks are apart from each other and from the blocks that are reached. -/
structure NewBlocks (code : Block → OBasicBlock Block Value Op) (first : Block) : Prop where
  apart : ∀ p b, Reachable (Edge (lasts code)) first p → Edge (lasts code) p b → ∀ q c,
    Reachable (Edge (lasts code)) first q → Edge (lasts code) q c → middle p b = middle q c →
      p = q ∧ b = c
  fresh : ∀ p b, ¬ Reachable (Edge (lasts code)) first (middle p b)

variable {middle edges} {code : Block → OBasicBlock Block Value Op} {first : Block}

theorem splitCode_old {block : Block} (old : ∀ p b, middle p b ≠ block) :
    splitCode middle edges code block = (code block).splitAt middle edges block := by
  have absent : edges.find? (fun edge => middle edge.1 edge.2 = block) = none :=
    List.find?_eq_none.mpr fun edge _ found => old _ _ (of_decide_eq_true found)
  rw [splitCode, absent]

theorem splitCode_middle (apart : Unmixed middle edges) {p b : Block} (member : (p, b) ∈ edges) :
    splitCode middle edges code (middle p b) = ⟨[], [], .jump b, [p]⟩ := by
  have found : edges.find? (fun edge => middle edge.1 edge.2 = middle p b) = some (p, b) := by
    have some : (edges.find? (fun edge => middle edge.1 edge.2 = middle p b)).isSome = true :=
      List.find?_isSome.mpr ⟨(p, b), member, decide_eq_true rfl⟩
    obtain ⟨edge, found⟩ := Option.isSome_iff_exists.mp some
    have eq := List.find?_some found
    obtain ⟨same, same'⟩ := apart _ _ (List.mem_of_find?_eq_some found) _ _ member
      (of_decide_eq_true eq)
    rw [found]
    exact congrArg Option.some (Prod.ext same same')
  rw [splitCode, found]

theorem splitCode_nil : splitCode middle [] code = code := by
  funext block
  have kept (blocks : List Block) : blocks.map (instead middle [] block) = blocks :=
    (List.map_congr_left fun b _ => if_neg List.not_mem_nil).trans (List.map_id _)
  have exit : (code block).lastInstruction.splitAt middle [] block =
      (code block).lastInstruction := by
    cases (code block).lastInstruction with
    | leave source => rfl
    | jump target => rfl
    | jumpConditional onTrue tested target implicitTarget =>
      simp only [Exit.splitAt, List.not_mem_nil, and_false, if_false]
  show OBasicBlock.splitAt middle [] block (code block) = code block
  simp only [OBasicBlock.splitAt, kept, exit]
  rw [List.map_id']

theorem instead_of_ne {p q b c : Block} (other : c ≠ b) :
    instead middle ((p, b) :: edges) c q = instead middle edges c q := by
  have member : (q, c) ∈ (p, b) :: edges ↔ (q, c) ∈ edges :=
    ⟨fun member => (List.mem_cons.mp member).resolve_left fun same => other (Prod.ext_iff.mp same).2,
      List.mem_cons_of_mem _⟩
  simp only [instead, member]

/-- The names of predecessors with one edge more. -/
theorem instead_cons {p b : Block} (old : ∀ q c, middle q c ≠ p) (fresh : (p, b) ∉ edges)
    (q : Block) : (if instead middle edges b q = p then middle p b else instead middle edges b q) =
      instead middle ((p, b) :: edges) b q := by
  by_cases same : q = p
  · subst same
    rw [instead, if_neg fresh, if_pos rfl, instead, if_pos List.mem_cons_self]
  · have member : (q, b) ∈ (p, b) :: edges ↔ (q, b) ∈ edges :=
      ⟨fun member => (List.mem_cons.mp member).resolve_left fun eq => same (Prod.ext_iff.mp eq).1,
        List.mem_cons_of_mem _⟩
    have other : instead middle edges b q ≠ p := by
      unfold instead
      split
      · exact old q b
      · exact same
    rw [if_neg other]
    simp only [instead, member]

theorem splitAt_exit_of_ne {p b c : Block} (other : c ≠ p) (exit : Exit Block Value) :
    exit.splitAt middle ((p, b) :: edges) c = exit.splitAt middle edges c := by
  have member (t : Block) : (c, t) ∈ (p, b) :: edges ↔ (c, t) ∈ edges :=
    ⟨fun member => (List.mem_cons.mp member).resolve_left fun same => other (Prod.ext_iff.mp same).1,
      List.mem_cons_of_mem _⟩
  cases exit with
  | leave source => rfl
  | jump target => rfl
  | jumpConditional onTrue tested target implicitTarget =>
    simp only [Exit.splitAt, member]

/-- A split edge leads to the new block. -/
theorem retarget_splitAt {p b : Block} {exit : Exit Block Value} (old : ∀ q c, middle q c ≠ b)
    (fresh : (p, b) ∉ edges) (goes : b ∈ exit.last.targets) (many : 1 < exit.last.targets.length) :
    (exit.splitAt middle edges p).retarget b (middle p b) =
      exit.splitAt middle ((p, b) :: edges) p := by
  cases exit with
  | leave source => exact absurd many (Nat.not_lt_zero 1)
  | jump target => exact absurd many (Nat.lt_irrefl 1)
  | jumpConditional onTrue tested target implicitTarget =>
    have member (t : Block) (other : t ≠ b) : (p, t) ∈ (p, b) :: edges ↔ (p, t) ∈ edges :=
      ⟨fun member => (List.mem_cons.mp member).resolve_left fun same =>
        other (Prod.ext_iff.mp same).2, List.mem_cons_of_mem _⟩
    have here : (p, b) ∈ (p, b) :: edges := List.mem_cons_self
    by_cases same : target = b
    · subst same
      simp only [Exit.splitAt, Exit.retarget, if_neg fresh, if_pos here, if_true]
      by_cases twice : implicitTarget = target
      · simp only [twice, ne_eq, not_true, false_and, if_false]
      · simp only [member _ twice]
    · have implicit : implicitTarget = b := by
        have goes' : b ∈ [implicitTarget, target] := goes
        rcases List.mem_pair.mp goes' with eq | eq
        · exact eq.symm
        · exact absurd eq.symm same
      subst implicit
      have apart : (if (p, target) ∈ edges then middle p target else target) ≠ implicitTarget := by
        split
        · exact old p target
        · exact same
      have different : implicitTarget ≠ target := fun eq => same eq.symm
      simp only [Exit.splitAt, Exit.retarget, if_neg apart, member _ same, here, different, ne_eq,
        not_false_eq_true, true_and, if_true]

/-- One edge is split after others. -/
theorem splitEdgeTo_splitCode {p b : Block}
    (oldP : ∀ q c, middle q c ≠ p) (oldB : ∀ q c, middle q c ≠ b) (fresh : (p, b) ∉ edges)
    (goes : b ∈ successors (lasts code) p) (many : 1 < (successors (lasts code) p).length) :
    splitEdgeTo middle p b (splitCode middle edges code) =
      splitCode middle ((p, b) :: edges) code := by
  funext x
  have exit := @retarget_splitAt Block Value _ middle edges p b (code p).lastInstruction oldB fresh
    goes many
  have preds := @instead_cons Block _ middle edges p b oldP fresh
  have apartP : middle p b ≠ p := oldP p b
  have apartB : middle p b ≠ b := oldB p b
  by_cases isNew : x = middle p b
  · subst isNew
    simp only [splitCode, List.find?_cons, decide_true, splitEdgeTo, Function.update_of_ne apartB, Function.update_of_ne apartP,
      Function.update_self]
  · have before : splitCode middle edges code p = (code p).splitAt middle edges p :=
      splitCode_old oldP
    by_cases isB : x = b
    · subst isB
      have replaced : ((code x).splitAt middle edges x).replacePredecessor p (middle p x) =
          { (code x).splitAt middle ((p, x) :: edges) x with
            lastInstruction := (code x).lastInstruction.splitAt middle edges x } := by
        simp only [OBasicBlock.splitAt, OBasicBlock.replacePredecessor, OPhi.replaceBlock,
          List.map_map, Function.comp_def, preds]
      rw [splitCode_old oldB]
      by_cases self : x = p
      · subst self
        have both := congrArg (fun block => { block with
          lastInstruction := (code x).lastInstruction.splitAt middle ((x, x) :: edges) x }) replaced
        simp only [splitEdgeTo, Function.update_self, Function.update_of_ne (Ne.symm apartP),
          before, OBasicBlock.splitAt, exit]
        exact both
      · have exit' : (code x).lastInstruction.splitAt middle ((p, x) :: edges) x =
            (code x).lastInstruction.splitAt middle edges x := splitAt_exit_of_ne self _
        simp only [splitEdgeTo, Function.update_self, Function.update_of_ne self,
          Function.update_of_ne isNew, splitCode_old oldB, replaced, ← exit']
        rfl
    · have kept (q : Block) : instead middle ((p, b) :: edges) x q = instead middle edges x q :=
        instead_of_ne isB
      by_cases isP : x = p
      · subst isP
        rw [splitCode_old oldP]
        simp only [splitEdgeTo, Function.update_of_ne isB, Function.update_self,
          Function.update_of_ne isNew, before, OBasicBlock.splitAt, exit, funext kept]
      · have stays : (code x).splitAt middle ((p, b) :: edges) x =
            (code x).splitAt middle edges x := by
          simp only [OBasicBlock.splitAt, funext kept, splitAt_exit_of_ne isP]
        have passed : ¬ middle p b = x := fun eq => isNew eq.symm
        simp only [splitEdgeTo, Function.update_of_ne isB, Function.update_of_ne isP,
          Function.update_of_ne isNew, splitCode, List.find?_cons, decide_eq_false passed, stays]

end Closed

section Loops

variable {Block Value Op : Type} [DecidableEq Block] {middle : Block → Block → Block}
  {edges : List (Block × Block)} {code : Block → OBasicBlock Block Value Op} {first : Block}

omit [DecidableEq Block] in
theorem NewBlocks.old (new : NewBlocks middle code first) {b : Block}
    (reached : Reachable (Edge (lasts code)) first b) (p q : Block) : middle p q ≠ b :=
  fun same => new.fresh p q (same ▸ reached)

omit [DecidableEq Block] in
theorem NewBlocks.unmixed (new : NewBlocks middle code first)
    (inside : ∀ p b, (p, b) ∈ edges →
      Reachable (Edge (lasts code)) first p ∧ Edge (lasts code) p b) : Unmixed middle edges := by
  intro p b member q c member'
  obtain ⟨reached, edge⟩ := inside p b member
  obtain ⟨reached', edge'⟩ := inside q c member'
  exact new.apart p b reached edge q c reached' edge'

theorem targets_splitAt_length (block : Block) (exit : Exit Block Value) :
    (exit.splitAt middle edges block).last.targets.length = exit.last.targets.length := by
  cases exit with
  | leave source => rfl
  | jump target => rfl
  | jumpConditional onTrue tested target implicitTarget => rfl

theorem operands_splitAt (block : Block) (exit : Exit Block Value) :
    (exit.splitAt middle edges block).operands = exit.operands := by
  cases exit with
  | leave source => rfl
  | jump target => rfl
  | jumpConditional onTrue tested target implicitTarget => rfl

theorem successors_splitCode_length {block : Block} (old : ∀ p b, middle p b ≠ block) :
    (successors (lasts (splitCode middle edges code)) block).length =
      (successors (lasts code) block).length := by
  rw [successors, lasts, splitCode_old old]
  exact targets_splitAt_length block _

theorem successors_splitCode_middle (apart : Unmixed middle edges) {p b : Block}
    (member : (p, b) ∈ edges) :
    successors (lasts (splitCode middle edges code)) (middle p b) = [b] := by
  rw [successors, lasts, splitCode_middle apart member]
  rfl

theorem predecessors_splitCode {block : Block} (old : ∀ p b, middle p b ≠ block) :
    (splitCode middle edges code block).predecessors =
      (code block).predecessors.map (instead middle edges block) := by
  rw [splitCode_old old]
  rfl

/-- One pass over the predecessors of a block splits its edges from blocks with other targets. -/
theorem splitIncoming_splitCode (new : NewBlocks middle code first) {b : Block}
    (oldB : ∀ q c, middle q c ≠ b)
    (leads : ∀ p ∈ (code b).predecessors,
      Reachable (Edge (lasts code)) first p ∧ Edge (lasts code) p b)
    (inside : ∀ p c, (p, c) ∈ edges →
      Reachable (Edge (lasts code)) first p ∧ Edge (lasts code) p c)
    (fresh : ∀ p, (p, b) ∉ edges) : ∃ edges',
      splitIncomingCriticalEdges middle (splitCode middle edges code) b =
          splitCode middle edges' code ∧
        ∀ e, e ∈ edges' ↔ e ∈ edges ∨ (e.2 = b ∧ 1 < (code b).predecessors.length ∧
          e.1 ∈ (code b).predecessors ∧ 1 < (successors (lasts code) e.1).length) := by
  have size : (splitCode middle edges code b).predecessors.length =
      (code b).predecessors.length := by rw [predecessors_splitCode oldB, List.length_map]
  unfold splitIncomingCriticalEdges
  rw [size]
  split
  · rename_i several
    -- the invariant of the loop is that what was visited is split
    have loop (n : Nat) : ∃ edges', (List.range n).foldl (fun code i =>
          match (code b).predecessors[i]? with
          | none => code
          | some pred =>
            if 1 < (successors (lasts code) pred).length then splitEdgeTo middle pred b code
            else code) (splitCode middle edges code) = splitCode middle edges' code ∧
        ∀ e, e ∈ edges' ↔ e ∈ edges ∨ (e.2 = b ∧ e.1 ∈ (code b).predecessors.take n ∧
          1 < (successors (lasts code) e.1).length) := by
      induction n with
      | zero =>
        refine ⟨edges, rfl, fun e => ⟨.inl, fun member => member.resolve_right fun later => ?_⟩⟩
        exact absurd later.2.1 (by rw [List.take_zero]; exact List.not_mem_nil)
      | succ n ih =>
        obtain ⟨edges', done, members⟩ := ih
        rw [List.range_succ, List.foldl_append, done, List.foldl_cons, List.foldl_nil,
          predecessors_splitCode oldB, List.getElem?_map]
        cases found : (code b).predecessors[n]? with
        | none =>
          have enough : (code b).predecessors.length ≤ n := List.getElem?_eq_none_iff.mp found
          refine ⟨edges', rfl, fun e => ?_⟩
          rw [members e, List.take_of_length_le enough,
            List.take_of_length_le (Nat.le_succ_of_le enough)]
        | some p =>
          have taken : (code b).predecessors.take (n + 1) =
              (code b).predecessors.take n ++ [p] := by
            rw [List.take_add_one, found]
            rfl
          have member : p ∈ (code b).predecessors := List.mem_of_getElem? found
          obtain ⟨reached, goes⟩ := leads p member
          have old := new.old reached
          simp only [Option.map_some]
          by_cases many : 1 < (successors (lasts code) p).length
          · by_cases before : p ∈ (code b).predecessors.take n
            · have here : (p, b) ∈ edges' := (members _).mpr (.inr ⟨rfl, before, many⟩)
              have unmixed : Unmixed middle edges' := new.unmixed fun q c member' =>
                ((members (q, c)).mp member').elim (inside q c) fun later => by
                  obtain ⟨rfl, visited, -⟩ := later
                  exact leads q (List.mem_of_mem_take visited)
              have one : ¬ 1 < (successors (lasts (splitCode middle edges' code))
                  (instead middle edges' b p)).length := by
                rw [instead, if_pos here, successors_splitCode_middle unmixed here]
                exact Nat.lt_irrefl 1
              refine ⟨edges', if_neg one, fun e => ?_⟩
              have same : e.1 ∈ (code b).predecessors.take n ++ [p] ↔
                  e.1 ∈ (code b).predecessors.take n := by
                rw [List.mem_append, List.mem_singleton]
                exact ⟨fun member => member.elim id fun eq => eq ▸ before, .inl⟩
              rw [members e, taken, same]
            · have absent : (p, b) ∉ edges' := fun here =>
                ((members _).mp here).elim (fresh p) fun later => before later.2.1
              have kept : instead middle edges' b p = p := if_neg absent
              have many' : 1 < (successors (lasts (splitCode middle edges' code)) p).length := by
                rwa [successors_splitCode_length old]
              rw [kept, if_pos many', splitEdgeTo_splitCode old oldB absent goes many]
              refine ⟨(p, b) :: edges', rfl, fun e => ?_⟩
              rw [List.mem_cons, members e, taken, List.mem_append, List.mem_singleton]
              constructor
              · rintro (rfl | member | ⟨eq, later, several⟩)
                · exact .inr ⟨rfl, .inr rfl, many⟩
                · exact .inl member
                · exact .inr ⟨eq, .inl later, several⟩
              · rintro (member | ⟨eq, later | eq', several⟩)
                · exact .inr (.inl member)
                · exact .inr (.inr ⟨eq, later, several⟩)
                · exact .inl (Prod.ext eq' eq)
          · have absent : (p, b) ∉ edges' := fun here =>
              ((members _).mp here).elim (fresh p) fun later => many later.2.2
            have kept : instead middle edges' b p = p := if_neg absent
            have one : ¬ 1 < (successors (lasts (splitCode middle edges' code)) p).length := by
              rwa [successors_splitCode_length old]
            rw [kept, if_neg one]
            refine ⟨edges', rfl, fun e => ?_⟩
            rw [members e, taken, List.mem_append, List.mem_singleton]
            constructor
            · rintro (member | ⟨eq, later, several⟩)
              · exact .inl member
              · exact .inr ⟨eq, .inl later, several⟩
            · rintro (member | ⟨eq, later | eq', several⟩)
              · exact .inl member
              · exact .inr ⟨eq, later, several⟩
              · exact absurd (eq' ▸ several) many
    obtain ⟨edges', done, members⟩ := loop (code b).predecessors.length
    refine ⟨edges', done, fun e => ?_⟩
    rw [members e, List.take_length]
    exact or_congr_right (and_congr_right fun _ => ⟨fun rest => ⟨several, rest⟩, And.right⟩)
  · rename_i one
    exact ⟨edges, rfl, fun e => ⟨.inl, fun member => member.resolve_right fun later =>
      one later.2.1⟩⟩

/-- The edges that are split: into a block of several edges, from a block of several targets. -/
def Critical (code : Block → OBasicBlock Block Value Op) (first p b : Block) : Prop :=
  Reachable (Edge (lasts code)) first b ∧ 1 < (code b).predecessors.length ∧
    p ∈ (code b).predecessors ∧ 1 < (successors (lasts code) p).length

theorem StaticSingle.edge_iff (ssa : StaticSingle code first) {p b : Block}
    (reached : Reachable (Edge (lasts code)) first b) : p ∈ (code b).predecessors ↔
      Reachable (Edge (lasts code)) first p ∧ Edge (lasts code) p b := by
  constructor
  · intro member
    have reached' := ssa.comes b reached p member
    have counted := ssa.counts b reached p reached'
    exact ⟨reached', List.count_pos_iff.mp (counted ▸ List.count_pos_iff.mpr member)⟩
  · rintro ⟨reached', edge⟩
    exact List.count_pos_iff.mp (ssa.counts b reached p reached' ▸ List.count_pos_iff.mpr edge)

variable [Fintype Block]

/-- The loop over the blocks splits the critical edges and no others. -/
theorem splitAllCriticalEdges_eq (new : NewBlocks middle code first)
    (ssa : StaticSingle code first) : ∃ edges,
      splitAllCriticalEdges middle code first = splitCode middle edges code ∧
        ∀ p b, (p, b) ∈ edges ↔ Critical code first p b := by
  have loop (blocks : List Block) (nodup : blocks.Nodup)
      (all : ∀ b ∈ blocks, Reachable (Edge (lasts code)) first b) : ∃ edges,
        blocks.foldl (splitIncomingCriticalEdges middle) code = splitCode middle edges code ∧
          ∀ e, e ∈ edges ↔ e.2 ∈ blocks ∧ Critical code first e.1 e.2 := by
    induction blocks using List.reverseRecOn with
    | nil =>
      refine ⟨[], splitCode_nil.symm, fun e => ⟨fun member => absurd member List.not_mem_nil, ?_⟩⟩
      exact fun member => absurd member.1 List.not_mem_nil
    | append_singleton blocks b ih =>
      obtain ⟨nodup', -, apart⟩ := List.nodup_append.mp nodup
      obtain ⟨edges, done, members⟩ := ih nodup' fun c member =>
        all c (List.mem_append_left _ member)
      have reached := all b (List.mem_append_right _ List.mem_cons_self)
      have unseen : b ∉ blocks := fun member => apart b member b List.mem_cons_self rfl
      obtain ⟨edges', done', members'⟩ := @splitIncoming_splitCode Block Value Op _ middle edges
        code first new b (fun p q => new.old reached p q)
        (fun p member => (ssa.edge_iff reached).mp member)
        (fun p c member => by
          have critical := ((members _).mp member).2
          exact (ssa.edge_iff critical.1).mp critical.2.2.1)
        fun p member => unseen ((members _).mp member).1
      refine ⟨edges', ?_, fun e => ?_⟩
      · rw [List.foldl_append, done]
        exact done'
      · rw [members' e, members e, List.mem_append, List.mem_singleton]
        constructor
        · rintro (⟨member, critical⟩ | ⟨rfl, several, member, many⟩)
          · exact ⟨.inl member, critical⟩
          · exact ⟨.inr rfl, reached, several, member, many⟩
        · rintro ⟨member | rfl, critical⟩
          · exact .inl ⟨member, critical⟩
          · exact .inr ⟨rfl, critical.2⟩
  obtain ⟨edges, done, members⟩ := loop (withSuccessorsPostOrder (lasts code) first)
    (nodup_postOrder _ _) fun b member => (mem_postOrder _ _).mp member
  refine ⟨edges, done, fun p b => ?_⟩
  rw [members (p, b), mem_postOrder]
  exact ⟨And.right, fun critical => ⟨critical.1, critical⟩⟩

end Loops

end Egg.Optimizing
