import Egg.Optimizing.LiftedProgram

/-! Which values of a web are live together after the operands of the phis are copied. -/
namespace Egg.Optimizing

open Egg.Data Egg.Data.FlowGraph Egg.Data.StepSimulation

section Operands

variable {Block Value Op : Type} {code : Block → OBasicBlock Block Value Op} {b : Block}

theorem nodup_operandsOf (phi : OPhi Block Value) : (operandsOf b phi).Nodup := by
  apply List.Nodup.of_map Operand.index
  have indices : (operandsOf b phi).map Operand.index =
      List.range (phi.operands.zip phi.blocks).length := by
    apply List.ext_getElem
    · rw [operandsOf, List.length_map, List.length_mapIdx, List.length_range]
    · intro i _ _
      simp only [operandsOf, List.getElem_map, List.getElem_mapIdx, List.getElem_range]
  exact indices ▸ List.nodup_range

theorem operandsOf_sublist {operand : Operand Block Value} {phi : OPhi Block Value}
    (member : operand ∈ operandsOf b phi) : [operand].Sublist (operandsOf b phi) :=
  List.singleton_sublist.mpr member

/-- No operand is listed twice. -/
theorem nodup_operandsIn {blocks : List Block} (nodup : blocks.Nodup)
    (names : ∀ b ∈ blocks, ((code b).phis.map OPhi.value).Nodup) :
    (operandsIn code blocks).Nodup := by
  refine List.nodup_flatMap.mpr ⟨fun b member => List.nodup_flatMap.mpr
    ⟨fun phi _ => nodup_operandsOf phi, ?_⟩, ?_⟩
  · refine (List.pairwise_map.mp (names b member)).imp ?_
    intro p q apart operand one other
    obtain ⟨-, owned, -, -⟩ := mem_operandsOf.mp one
    obtain ⟨-, owned', -, -⟩ := mem_operandsOf.mp other
    exact apart (owned.symm.trans owned')
  · refine nodup.imp ?_
    intro b c apart operand one other
    obtain ⟨p, -, inside⟩ := List.mem_flatMap.mp one
    obtain ⟨q, -, inside'⟩ := List.mem_flatMap.mp other
    exact apart ((mem_operandsOf.mp inside).1.symm.trans (mem_operandsOf.mp inside').1)

/-- The operands of a phi come before those of a later one of its block. -/
theorem operandsIn_sublist {blocks : List Block} (inside : b ∈ blocks) {p q : OPhi Block Value}
    (later : [p, q].Sublist (code b).phis) {one other : Operand Block Value}
    (member : one ∈ operandsOf b p) (member' : other ∈ operandsOf b q) :
    [one, other].Sublist (operandsIn code blocks) := by
  have pair : [one, other].Sublist ([p, q].flatMap (operandsOf b)) := by
    rw [List.flatMap_cons, List.flatMap_singleton]
    exact (operandsOf_sublist member).append (operandsOf_sublist member')
  have listed : ([p, q].flatMap (operandsOf b)).Sublist
      ((code b).phis.flatMap (operandsOf b)) := later.flatMap _
  have all : ((code b).phis.flatMap (operandsOf b)).Sublist (operandsIn code blocks) := by
    have one := (List.singleton_sublist.mpr inside).flatMap
      fun block => (code block).phis.flatMap (operandsOf block)
    rwa [List.flatMap_singleton] at one
  exact pair.trans (listed.trans all)

/-- A phi is no operand of a later phi of its block. -/
def ReadsNoEarlier (phis : List (OPhi Block Value)) : Prop :=
  phis.Pairwise fun p q => p.value ∉ q.operands

/-- No copy reads a phi of the block it copies for behind the copy for that phi. -/
theorem pairwise_operandsIn {blocks : List Block} (nodup : blocks.Nodup)
    (reads : ∀ b ∈ blocks, ReadsNoEarlier (code b).phis)
    (once : ∀ b ∈ blocks, ∀ phi ∈ (code b).phis, phi.blocks.Nodup) :
    (operandsIn code blocks).Pairwise fun one other =>
      one.block = other.block → one.pred = other.pred → one.phi ≠ other.var := by
  refine List.pairwise_flatMap.mpr ⟨fun b member => List.pairwise_flatMap.mpr
    ⟨fun phi inside => ?_, (reads b member).imp ?_⟩, nodup.imp ?_⟩
  · refine (List.pairwise_iff_forall_sublist.mpr fun {one other} sublist _ pred => ?_)
    have apart : one ≠ other := fun same => by
      have twice := (nodup_operandsOf (b := b) phi).sublist sublist
      exact (List.nodup_cons.mp twice).1 (same ▸ List.mem_cons_self)
    obtain ⟨block, owned, var, from'⟩ := mem_operandsOf.mp (sublist.subset List.mem_cons_self)
    obtain ⟨block', owned', var', from''⟩ := mem_operandsOf.mp
      (sublist.subset (List.mem_cons_of_mem _ List.mem_cons_self))
    obtain ⟨bound, eq⟩ := List.getElem?_eq_some_iff.mp from'
    obtain ⟨bound', eq'⟩ := List.getElem?_eq_some_iff.mp from''
    have index : one.index = other.index :=
      (once b member phi inside).getElem_inj_iff.mp (eq.trans (pred.trans eq'.symm))
    refine absurd ?_ apart
    rw [index] at var
    cases one
    cases other
    simp only at block block' owned owned' index pred var var'
    rw [block, block', owned, owned', index, pred, Option.some.inj (var.symm.trans var')]
  · intro p q apart one inside other inside' _ _ same
    obtain ⟨-, owned, -, -⟩ := mem_operandsOf.mp inside
    obtain ⟨-, -, var, -⟩ := mem_operandsOf.mp inside'
    exact apart (owned ▸ same ▸ List.mem_of_getElem? var)
  · intro b c apart one inside other inside' block
    obtain ⟨p, -, here⟩ := List.mem_flatMap.mp inside
    obtain ⟨q, -, here'⟩ := List.mem_flatMap.mp inside'
    exact absurd ((mem_operandsOf.mp here).1.symm.trans
      (block.trans (mem_operandsOf.mp here').1)) apart

end Operands

namespace Lifted

variable {Block Value Op : Type} [DecidableEq Block] [DecidableEq Value]
  {copy : Value → Nat → Value} {operands : List (Operand Block Value)}
  {code : Block → OBasicBlock Block Value Op} {first b c : Block}

/-- The copy that is made of an operand. -/
def made (Op : Type) (copy : Value → Nat → Value) (operand : Operand Block Value) :
    Instruction Op Value :=
  .copy (copy operand.phi operand.index) operand.var

section Webs

variable (lifted : Lifted copy operands code first)

include lifted

omit [DecidableEq Value] in
theorem phi_old (reached : Reachable (Edge (lasts code)) first b) {phi : OPhi Block Value}
    (member : phi ∈ (code b).phis) : Old copy phi.value :=
  lifted.new.old reached (.inl (List.mem_append_left _ (List.mem_map_of_mem member)))

/-- The phi and its copies. -/
def Web (copy : Value → Nat → Value) (operands : List (Operand Block Value)) (phi v : Value) :
    Prop :=
  v = phi ∨ ∃ operand ∈ operands, operand.phi = phi ∧ v = copy phi operand.index

theorem lift_operands_web (reached : Reachable (Edge (lasts code)) first b)
    {phi : OPhi Block Value} (member : phi ∈ (code b).phis) {v : Value}
    (one : v ∈ (phi.lift copy operands b).operands) : Web copy operands phi.value v := by
  obtain ⟨i, inside, rfl⟩ := List.mem_iff_getElem.mp one
  have within : i < phi.operands.length := by
    rw [OPhi.lift, List.length_mapIdx] at inside
    exact inside
  have found := lifted.lift_operands reached member within
  rw [List.getElem?_eq_getElem inside] at found
  obtain ⟨-, length⟩ := lifted.ssa.blocks b reached phi member
  have place : i < phi.blocks.length := length ▸ within
  refine .inr ⟨⟨b, phi.value, i, phi.operands[i], phi.blocks[i]⟩, ?_, rfl, Option.some.inj found⟩
  rw [lifted.members]
  exact ⟨reached, phi, member, mem_operandsOf.mpr ⟨rfl, rfl, List.getElem?_eq_getElem within,
    List.getElem?_eq_getElem place⟩⟩

omit [DecidableEq Value] in
theorem operand_old {operand : Operand Block Value} (member : operand ∈ operands) :
    Old copy operand.phi := by
  obtain ⟨reached, phi, inside, one⟩ := (lifted.members operand).mp member
  obtain ⟨-, owned, -, -⟩ := mem_operandsOf.mp one
  rw [owned]
  exact lifted.phi_old reached inside

omit [DecidableEq Value] in
/-- Two webs that meet are one. -/
theorem web_unique {p q v : Value} (old : Old copy p) (old' : Old copy q)
    (one : Web copy operands p v) (other : Web copy operands q v) : p = q := by
  rcases one with rfl | ⟨operand, -, -, rfl⟩
  · rcases other with same | ⟨operand, -, -, same⟩
    · exact same
    · exact absurd same.symm (old q operand.index)
  · rcases other with same | ⟨operand', -, -, same⟩
    · exact absurd same (old' p operand.index)
    · exact (lifted.new.apart _ _ _ _ same).1

/-- The web of a phi is the phi with its copies. -/
theorem web_of_inWeb (reached : Reachable (Edge (lasts code)) first b) {phi : OPhi Block Value}
    (member : phi ∈ (code b).phis) {v : Value}
    (inWeb : InWeb (liftCode copy operands code) first (phi.lift copy operands b) v) :
    Web copy operands phi.value v := by
  induction inWeb with
  | refl => exact .inl rfl
  | @tail u w _ congruent ih =>
    obtain ⟨c, reached', phi', member', ofU, ofW⟩ := congruent
    obtain ⟨own, inside, rfl⟩ := List.mem_map.mp member'
    have web (x : Value) (of : x = (own.lift copy operands c).value ∨
        x ∈ (own.lift copy operands c).operands) : Web copy operands own.value x :=
      of.elim .inl fun one => lifted.lift_operands_web reached' inside one
    have same := lifted.web_unique (lifted.phi_old reached member) (lifted.phi_old reached' inside)
      ih (web u ofU)
    exact same ▸ web w ofW

theorem inWeb_of_web (reached : Reachable (Edge (lasts code)) first b) {phi : OPhi Block Value}
    (member : phi ∈ (code b).phis) {operand : Operand Block Value} (one : operand ∈ operandsOf b phi) :
    InWeb (liftCode copy operands code) first (phi.lift copy operands b)
      (copy phi.value operand.index) := by
  obtain ⟨-, -, var, -⟩ := mem_operandsOf.mp one
  obtain ⟨inside, -⟩ := List.getElem?_eq_some_iff.mp var
  refine .single ⟨b, reached, _, List.mem_map_of_mem member, .inl rfl, .inr ?_⟩
  exact List.mem_of_getElem? (lifted.lift_operands reached member inside)

end Webs

section Live

variable (lifted : Lifted copy operands code first)

include lifted

/-- Copies read no copies, and neither do the instructions before them. -/
theorem operands_old (reached : Reachable (Edge (lasts code)) first b)
    {instruction : Instruction Op Value}
    (member : instruction ∈ (liftCode copy operands code b).instructions) {v : Value}
    (operand : v ∈ instruction.operands) : Old copy v := by
  rcases List.mem_append.mp member with member | member
  · exact lifted.new.old reached (.inr (.inl ⟨instruction, member, operand⟩))
  · obtain ⟨other, inside, rfl⟩ := List.mem_map.mp member
    rw [List.mem_singleton.mp operand]
    exact lifted.var_old (List.mem_of_mem_filter inside)

omit [DecidableEq Value] in
/-- An operand is where its phi reads it. -/
theorem operand_place {operand : Operand Block Value} (member : operand ∈ operands) :
    Reachable (Edge (lasts code)) first operand.block ∧
      Reachable (Edge (lasts code)) first operand.pred ∧
      Edge (lasts code) operand.pred operand.block ∧ ∃ phi ∈ (code operand.block).phis,
        operand ∈ operandsOf operand.block phi ∧ operand.phi = phi.value ∧
          operand.index = phi.blocks.idxOf operand.pred ∧
            phi.atOperand operand.pred = .ok operand.var := by
  obtain ⟨reached, phi, inside, one⟩ := (lifted.members operand).mp member
  obtain ⟨-, owned, var, pred⟩ := mem_operandsOf.mp one
  obtain ⟨comes, edge⟩ := (lifted.ssa.edge_iff reached).mp
    ((lifted.ssa.blocks _ reached phi inside).1.mem_iff.mp (List.mem_of_getElem? pred))
  have nodup : phi.blocks.Nodup := (lifted.ssa.blocks _ reached phi inside).1.nodup_iff.mpr
    (lifted.ssa.nodup_predecessors lifted.once reached)
  obtain ⟨bound, eq⟩ := List.getElem?_eq_some_iff.mp pred
  have place : phi.blocks.idxOf operand.pred = operand.index := by
    rw [← eq]
    exact nodup.idxOf_getElem operand.index bound
  refine ⟨reached, comes, edge, phi, inside, one, owned, place.symm, ?_⟩
  rw [OPhi.atOperand, place, var]

omit lifted in
theorem made_mem {operand : Operand Block Value} (member : operand ∈ operands) :
    made Op copy operand ∈ (liftCode copy operands code operand.pred).instructions := by
  apply List.mem_append_right
  exact List.mem_map_of_mem (List.mem_filter.mpr ⟨member, decide_eq_true rfl⟩)

/-- A copy is live in its own block only, where it is not made any more. -/
theorem live_copy {operand : Operand Block Value} (member : operand ∈ operands)
    {rest : List (Instruction Op Value)} (reached : Reachable (Edge (lasts code)) first b)
    (suffix : rest <:+ (liftCode copy operands code b).instructions)
    (live : LiveBefore (liftCode copy operands code) (copy operand.phi operand.index) b rest) :
    b = operand.pred ∧
      ∀ instruction ∈ rest, instruction.value ≠ copy operand.phi operand.index := by
  induction live with
  | used read =>
    have old := lifted.operands_old reached (suffix.subset List.mem_cons_self) read
    exact absurd rfl (old operand.phi operand.index)
  | passed other _ ih =>
    obtain ⟨same, rest⟩ := ih reached ((List.suffix_cons _ _).trans suffix)
    refine ⟨same, fun instruction inside => ?_⟩
    rcases List.mem_cons.mp inside with rfl | inside
    · exact other
    · exact rest instruction inside
  | tested read => exact absurd rfl (lifted.exit_old reached _ read operand.phi operand.index)
  | @carried b t phi edge inside carries =>
    obtain ⟨own, member', rfl⟩ := List.mem_map.mp inside
    rw [lifted.atOperand_lift reached edge member'] at carries
    obtain ⟨name, place⟩ := lifted.new.apart _ _ _ _ (Except.ok.inj carries)
    obtain ⟨other, known, -, owned, pred, index, -⟩ := lifted.operand_of_edge reached edge member'
    have same := lifted.unique known member (owned.trans name) (index.trans place)
    exact ⟨same ▸ pred.symm, fun _ none => absurd none List.not_mem_nil⟩
  | @entered b t edge _ _ ih =>
    obtain ⟨rfl, apart⟩ := ih (reached.step edge) List.suffix_rfl
    exact absurd rfl (apart _ (made_mem member))

omit lifted in
/-- So what stands behind is copies of operands listed later. -/
theorem behind_copy {operand : Operand Block Value} (member : operand ∈ operands)
    {rest : List (Instruction Op Value)} (pred : b = operand.pred)
    (suffix : rest <:+ (liftCode copy operands code b).instructions)
    (apart : ∀ instruction ∈ rest, instruction.value ≠ copy operand.phi operand.index) :
    ∃ before after, operands.filter (·.pred = b) = before ++ after ∧ operand ∈ before ∧
      rest = after.map (made Op copy) := by
  have own : operand ∈ operands.filter (·.pred = b) :=
    List.mem_filter.mpr ⟨member, decide_eq_true pred.symm⟩
  obtain ⟨front, cut⟩ := suffix
  rcases List.append_eq_append_iff.mp cut with ⟨more, -, rest'⟩ | ⟨more, -, copies⟩
  · refine absurd rfl (apart (made Op copy operand) ?_)
    rw [rest']
    exact List.mem_append_right _ (List.mem_map_of_mem own)
  · obtain ⟨before, after, listed, -, rfl⟩ := List.map_eq_append_iff.mp copies
    refine ⟨before, after, listed, ?_, rfl⟩
    rw [listed] at own
    refine (List.mem_append.mp own).resolve_right fun later => ?_
    exact apart _ (List.mem_map_of_mem later) rfl

/-- The block of a phi dominates the blocks where the phi is live. -/
theorem dominates_of_live {phi : OPhi Block Value} (reached' : Reachable (Edge (lasts code)) first c)
    (member : phi ∈ (code c).phis) {rest : List (Instruction Op Value)}
    (reached : Reachable (Edge (lasts code)) first b)
    (suffix : rest <:+ (liftCode copy operands code b).instructions)
    (live : LiveBefore (liftCode copy operands code) phi.value b rest) :
    Dominates (Edge (lasts code)) first c b := by
  have old := lifted.phi_old reached' member
  have defined : phi.value ∈ (code c).definitions :=
    List.mem_append_left _ (List.mem_map_of_mem member)
  have dominated := fun u reached => lifted.ssa.dominated c reached' _ defined u reached
  induction live with
  | @used b instruction rest read =>
    apply dominated b reached
    rcases List.mem_append.mp (suffix.subset List.mem_cons_self) with inside | inside
    · exact .inl ⟨instruction, inside, read⟩
    · obtain ⟨operand, known, rfl⟩ := List.mem_map.mp inside
      obtain ⟨known, pred⟩ := List.mem_filter.mp known
      obtain ⟨-, -, edge, own, within, -, -, -, carries⟩ := lifted.operand_place known
      rw [of_decide_eq_true pred] at edge carries
      rw [List.mem_singleton.mp read]
      exact .inr (.inr ⟨operand.block, edge, own, within, carries⟩)
  | passed _ _ ih => exact ih reached ((List.suffix_cons _ _).trans suffix)
  | @tested b read => exact dominated b reached (.inr (.inl read))
  | @carried b t other edge inside carries =>
    obtain ⟨own, member', rfl⟩ := List.mem_map.mp inside
    rw [lifted.atOperand_lift reached edge member'] at carries
    exact absurd (Except.ok.inj carries) (old _ _)
  | @entered b t edge other _ ih =>
    refine (ih (reached.step edge) List.suffix_rfl).of_edge ?_ edge
    rintro rfl
    exact other _ (List.mem_map_of_mem member) rfl

end Live

section Interference

theorem eq_of_short {α : Type} {items : List α} (short : items.length ≤ 1) {x y : α}
    (member : x ∈ items) (member' : y ∈ items) : x = y := by
  match items, short with
  | [z], _ => exact (List.mem_singleton.mp member).trans (List.mem_singleton.mp member').symm

variable (lifted : Lifted copy operands code first)

include lifted

omit [DecidableEq Value] in
/-- A phi whose only predecessor has other targets is not live there. -/
theorem not_dominates_pred (none : NoCriticalEdges code first)
    (reached : Reachable (Edge (lasts code)) first b) (edge : Edge (lasts code) b c)
    {phi : OPhi Block Value} (member : phi ∈ (code c).phis)
    (many : 1 < (successors (lasts code) b).length) : ¬ Dominates (Edge (lasts code)) first c b := by
  intro dominates
  have reached' := reached.step edge
  have apart : c ≠ first := by
    rintro rfl
    rw [lifted.ssa.start] at member
    exact List.not_mem_nil member
  have one : (code c).predecessors.length ≤ 1 :=
    Nat.le_of_not_lt fun several => none b c reached edge ⟨many, several⟩
  have only (a : Block) (before : Reachable (Edge (lasts code)) first a)
      (next : Edge (lasts code) a c) : a = b := by
    exact eq_of_short one ((lifted.ssa.edge_iff reached').mpr ⟨before, next⟩)
      ((lifted.ssa.edge_iff reached').mpr ⟨reached, edge⟩)
  have back : Dominates (Edge (lasts code)) first b c :=
    dominates_of_edges apart fun a before next => only a before next ▸ Dominates.refl a
  have same : c = b := Dominates.antisymm reached dominates back
  refine not_reachable_of_loop apart (fun a before next => ?_) reached'
  exact (only a before next).trans same.symm

/-- Behind its copy a phi is live only if a phi listed later reads it. -/
theorem not_live_behind (none : NoCriticalEdges code first)
    (ordered : operands.Pairwise fun one other =>
      one.block = other.block → one.pred = other.pred → one.phi ≠ other.var)
    {operand : Operand Block Value} (member : operand ∈ operands)
    {before after : List (Operand Block Value)}
    (listed : operands.filter (·.pred = operand.pred) = before ++ after)
    (inside : operand ∈ before) :
    ¬ LiveBefore (liftCode copy operands code) operand.phi operand.pred
      (after.map (made Op copy)) := by
  intro live
  obtain ⟨reached', reached, edge, phi, own, -, owned, -, -⟩ := lifted.operand_place member
  have suffix : after.map (made Op copy) <:+
      (liftCode copy operands code operand.pred).instructions := by
    refine ⟨(code operand.pred).instructions ++ before.map (made Op copy), ?_⟩
    rw [List.append_assoc, ← List.map_append, ← listed]
    rfl
  by_cases many : 1 < (successors (lasts code) operand.pred).length
  · rw [owned] at live
    exact lifted.not_dominates_pred none reached edge own many
      (lifted.dominates_of_live reached' own reached suffix live)
  -- the only target is the block of the phi, so just the copies that are left can read the phi
  have single (t : Block) (goes : Edge (lasts code) operand.pred t) : t = operand.block :=
    eq_of_short (Nat.le_of_not_lt many) goes edge
  have later (other : Operand Block Value) (among : other ∈ after) : operand.phi ≠ other.var := by
    have known : other ∈ operands.filter (·.pred = operand.pred) := by
      rw [listed]
      exact List.mem_append_right _ among
    obtain ⟨known, pred⟩ := List.mem_filter.mp known
    have pred := of_decide_eq_true pred
    obtain ⟨-, -, edge', -⟩ := lifted.operand_place known
    rw [pred] at edge'
    have pairs := ordered.filter (·.pred = operand.pred)
    rw [listed] at pairs
    exact (List.pairwise_append.mp pairs).2.2 operand inside other among (single _ edge').symm
      pred.symm
  have old := lifted.operand_old member
  clear listed suffix
  induction after with
  | nil =>
    cases live with
    | tested read =>
      have exit : (code operand.pred).lastInstruction.operands = [] := by
        have one := Nat.le_of_not_lt many
        unfold successors lasts at one
        unfold Edge successors lasts at edge
        cases last : (code operand.pred).lastInstruction with
        | leave source =>
          rw [last] at edge
          exact absurd edge List.not_mem_nil
        | jump target => rfl
        | jumpConditional onTrue tested target implicitTarget =>
          rw [last] at one
          exact absurd one (Nat.not_le_of_lt (Nat.lt_succ_self 1))
      have read' : operand.phi ∈ (code operand.pred).lastInstruction.operands := read
      rw [exit] at read'
      exact List.not_mem_nil read'
    | carried goes member' carries =>
      obtain ⟨other, within, rfl⟩ := List.mem_map.mp member'
      rw [lifted.atOperand_lift reached goes within] at carries
      exact old _ _ (Except.ok.inj carries)
    | @entered _ t goes other _ =>
      have same := single t goes
      subst same
      exact other _ (List.mem_map_of_mem own) owned.symm
  | cons other after ih =>
    cases live with
    | used read => exact later other List.mem_cons_self (List.mem_singleton.mp read)
    | passed _ live => exact ih live fun next among => later next (List.mem_cons_of_mem _ among)

/-- No two values of the web of a phi are live together. -/
theorem not_interfere (none : NoCriticalEdges code first)
    (ordered : operands.Pairwise fun one other =>
      one.block = other.block → one.pred = other.pred → one.phi ≠ other.var) {phi u v : Value}
    (web : Web copy operands phi u) (web' : Web copy operands phi v) (apart : u ≠ v) :
    ¬ Interfere (liftCode copy operands code) first u v := by
  have mixed (operand : Operand Block Value) (member : operand ∈ operands) :
      ¬ Interfere (liftCode copy operands code) first operand.phi
        (copy operand.phi operand.index) := by
    rintro ⟨b, rest, reached, suffix, live, live'⟩
    obtain ⟨rfl, none'⟩ := lifted.live_copy member reached suffix live'
    obtain ⟨before, after, listed, inside, rfl⟩ := behind_copy member rfl suffix none'
    exact lifted.not_live_behind none ordered member listed inside live
  have swap {u v : Value} (both : Interfere (liftCode copy operands code) first u v) :
      Interfere (liftCode copy operands code) first v u := by
    obtain ⟨b, rest, reached, suffix, live, live'⟩ := both
    exact ⟨b, rest, reached, suffix, live', live⟩
  intro both
  rcases web with rfl | ⟨one, member, rfl, rfl⟩
  · rcases web' with rfl | ⟨other, member', rfl, rfl⟩
    · exact apart rfl
    · exact mixed other member' both
  · rcases web' with rfl | ⟨other, member', same, rfl⟩
    · exact mixed one member (swap both)
    · obtain ⟨b, rest, reached, suffix, live, live'⟩ := both
      obtain ⟨here, -⟩ := lifted.live_copy member reached suffix live
      rw [← same] at live'
      obtain ⟨here', -⟩ := lifted.live_copy member' reached suffix live'
      obtain ⟨arrived, -, -, p, own, -, owned, index, -⟩ := lifted.operand_place member
      obtain ⟨arrived', -, -, q, own', -, owned', index', -⟩ := lifted.operand_place member'
      obtain ⟨-, rfl⟩ := lifted.ssa.phi_unique arrived arrived' own own'
        (owned.symm.trans (same.symm.trans owned'))
      rw [index, index', ← here, ← here'] at apart
      exact apart rfl

/-- A phi that a later phi reads is live behind its copy. -/
theorem interfere_of_read (nodup : operands.Nodup) {one other : Operand Block Value}
    (order : [one, other].Sublist operands) (pred : one.pred = other.pred)
    (read : other.var = one.phi) : Interfere (liftCode copy operands code) first one.phi
      (copy one.phi one.index) := by
  have member : one ∈ operands := order.subset List.mem_cons_self
  obtain ⟨-, reached, edge, phi, own, -, owned, index, -⟩ := lifted.operand_place member
  have here : [one, other].Sublist (operands.filter (·.pred = one.pred)) := by
    have kept := order.filter (·.pred = one.pred)
    simpa only [List.filter_cons, pred, decide_true, if_true, List.filter_nil] using kept
  obtain ⟨front, behind, listed, among, later⟩ := List.cons_sublist_iff.mp here
  obtain ⟨before, after, rfl⟩ := List.append_of_mem (List.singleton_sublist.mp later)
  have apart := nodup.filter (·.pred = one.pred)
  rw [listed] at apart
  have gone : one ∉ other :: after := fun inside =>
    (List.nodup_append.mp apart).2.2 one among one (List.mem_append_right _ inside) rfl
  have known (next : Operand Block Value) (inside : next ∈ other :: after) : next ∈ operands := by
    have inside' : next ∈ operands.filter (·.pred = one.pred) := by
      rw [listed]
      exact List.mem_append_right _ (List.mem_append_right _ inside)
    exact List.mem_of_mem_filter inside'
  have carried (rest : List (Operand Block Value)) (inside : ∀ next ∈ rest, next ∈ operands)
      (gone : one ∉ rest) : LiveBefore (liftCode copy operands code) (copy one.phi one.index)
        one.pred (rest.map (made Op copy)) := by
    induction rest with
    | nil =>
      refine .carried edge (List.mem_map_of_mem own) ?_
      rw [lifted.atOperand_lift reached edge own, owned, index]
    | cons next rest ih =>
      refine .passed (fun same => gone ?_) (ih
        (fun later member => inside later (List.mem_cons_of_mem _ member))
        fun member => gone (List.mem_cons_of_mem _ member))
      obtain ⟨phi', index'⟩ := lifted.new.apart _ _ _ _ same
      rw [lifted.unique member (inside next List.mem_cons_self) phi'.symm index'.symm]
      exact List.mem_cons_self
  refine ⟨one.pred, (other :: after).map (made Op copy), reached, ?_, ?_,
    carried _ known gone⟩
  · refine ⟨(code one.pred).instructions ++ (front ++ before).map (made Op copy), ?_⟩
    rw [List.append_assoc, ← List.map_append, List.append_assoc, ← listed]
    rfl
  · exact .used (List.mem_singleton.mpr read.symm)

end Interference

end Lifted

section Whole

variable {Block Value Op : Type} [DecidableEq Block] [DecidableEq Value]
  {middle : Block → Block → Block} {copy : Value → Nat → Value}
  {code : Block → OBasicBlock Block Value Op} {first : Block}

/-- The second program comes to the states of the first one and to its answers; in the blocks of
the first one it comes to no others. -/
def SameValues (copy : Value → Nat → Value) (code code' : Block → OBasicBlock Block Value Op)
    (first : Block) : Prop :=
  ∀ (Datum Store : Type) (machine : Machine Op Datum Store) (values : Value → Datum)
    (store : Store),
    (∀ n state, runs (RunState.step machine code) n ⟨first, values, store⟩ = some state →
      ∃ m state', runs (RunState.step machine code') m ⟨first, values, store⟩ = some state' ∧
        Lifted.Alike copy code first state state') ∧
    (∀ n state', runs (RunState.step machine code') n ⟨first, values, store⟩ = some state' →
      Reachable (Edge (lasts code)) first state'.block →
        ∃ m state, runs (RunState.step machine code) m ⟨first, values, store⟩ = some state ∧
          Lifted.Alike copy code first state state') ∧
    ∀ answer, Answers machine code ⟨first, values, store⟩ answer ↔
      Answers machine code' ⟨first, values, store⟩ answer

/-- No two values of the web of a phi are live together. -/
def Coalescable (code : Block → OBasicBlock Block Value Op) (first : Block) : Prop :=
  ∀ b, Reachable (Edge (lasts code)) first b → ∀ phi ∈ (code b).phis, ∀ u v,
    InWeb code first phi u → InWeb code first phi v → u ≠ v → ¬ Interfere code first u v

theorem reachable_runs {Datum Store : Type} {machine : Machine Op Datum Store} {n : Nat}
    {state state' : RunState Block Value Datum Store}
    (reached : Reachable (Edge (lasts code)) first state.block)
    (run : runs (RunState.step machine code) n state = some state') :
    Reachable (Edge (lasts code)) first state'.block := by
  induction n generalizing state with
  | zero =>
    cases run
    exact reached
  | succ n ih =>
    rw [runs] at run
    obtain ⟨next, step, rest⟩ := Option.bind_eq_some_iff.mp run
    obtain ⟨target, goes, rfl⟩ := Option.map_eq_some_iff.mp step
    exact ih (reached.step (Exit.next_mem goes)) rest

namespace Split

variable {edges : List (Block × Block)} (split : Split middle edges code first)
  (once : NoTwofoldJumps code first)

include split

omit [DecidableEq Value] in
/-- The new blocks mention no values. -/
theorem mentions_split {b : Block} {v : Value} (reached : Reachable (Edge (lasts code)) first b)
    (mentions : (splitCode middle edges code b).Mentions v) : (code b).Mentions v := by
  have old : splitCode middle edges code b = (code b).splitAt middle edges b :=
    splitCode_old (split.new.old reached)
  rcases mentions with defined | read | read | ⟨phi, member, read⟩
  · rw [split.definitions_split reached] at defined
    exact .inl defined
  · rw [old] at read
    exact .inr (.inl read)
  · rw [old] at read
    refine .inr (.inr (.inl ?_))
    rwa [OBasicBlock.splitAt, operands_splitAt] at read
  · rw [old] at member
    obtain ⟨own, inside, rfl⟩ := List.mem_map.mp member
    exact .inr (.inr (.inr ⟨own, inside, read⟩))

include once

omit [DecidableEq Value] in
theorem newValues_split (new : NewValues copy code first) :
    NewValues copy (splitCode middle edges code) first where
  apart := new.apart
  fresh b reached v i mentions := by
    rcases (split.reachable_iff once).mp reached with reached | ⟨p, c, member, rfl⟩
    · exact new.fresh b reached v i (split.mentions_split reached mentions)
    · rw [splitCode_middle split.unmixed member] at mentions
      rcases mentions with defined | ⟨_, member, -⟩ | read | ⟨_, member, -⟩
      · exact List.not_mem_nil defined
      · exact List.not_mem_nil member
      · exact List.not_mem_nil read
      · exact List.not_mem_nil member

omit [DecidableEq Value] in
theorem reads_split : (∀ b, Reachable (Edge (lasts (splitCode middle edges code))) first b →
    ReadsNoEarlier (splitCode middle edges code b).phis) ↔
      ∀ b, Reachable (Edge (lasts code)) first b → ReadsNoEarlier (code b).phis := by
  have same (b : Block) (reached : Reachable (Edge (lasts code)) first b) :
      ReadsNoEarlier (splitCode middle edges code b).phis ↔ ReadsNoEarlier (code b).phis := by
    rw [splitCode_old (split.new.old reached)]
    exact List.pairwise_map
  constructor
  · intro all b reached
    exact (same b reached).mp (all b (split.reachable_split reached))
  · intro all b reached
    rcases (split.reachable_iff once).mp reached with reached | ⟨p, c, member, rfl⟩
    · exact (same b reached).mpr (all b reached)
    · rw [splitCode_middle split.unmixed member]
      exact List.Pairwise.nil

omit once in
theorem answer_of_middle {Datum Store : Type} {machine : Machine Op Datum Store} {p b : Block}
    (member : (p, b) ∈ edges) {state : RunState Block Value Datum Store}
    (here : state.block = middle p b) :
    state.answer machine (splitCode middle edges code) = none := by
  rw [RunState.answer, here, splitCode_middle split.unmixed member]

/-- The split and lifted program goes with the program. -/
theorem sameValues {operands : List (Operand Block Value)}
    (lifted : Lifted copy operands (splitCode middle edges code) first) :
    SameValues copy code (liftCode copy operands (splitCode middle edges code)) first := by
  intro Datum Store machine values store
  have start : Reachable (Edge (lasts code)) first first := reachable_first
  have alike : Lifted.Alike copy (splitCode middle edges code) first
      (⟨first, values, store⟩ : RunState Block Value Datum Store) ⟨first, values, store⟩ :=
    ⟨reachable_first, rfl, rfl, fun _ _ => rfl⟩
  have outer := split.follows machine once
  have inner := lifted.follows machine
  have forward (n : Nat) (state : RunState Block Value Datum Store)
      (run : runs (RunState.step machine code) n ⟨first, values, store⟩ = some state) :
      ∃ m state', runs (RunState.step machine (liftCode copy operands (splitCode middle edges code)))
        m ⟨first, values, store⟩ = some state' ∧ Lifted.Alike copy code first state state' ∧
          Lifted.Alike copy (splitCode middle edges code) first state state' := by
    obtain ⟨k, _, run', rfl, reached⟩ := outer.forward ⟨rfl, start⟩ run
    obtain ⟨m, state', run'', both⟩ := inner.forward alike run'
    exact ⟨m, state', run'', ⟨reached, both.block, both.store, both.agree⟩, both⟩
  have backward (n : Nat) (state' : RunState Block Value Datum Store)
      (run : runs (RunState.step machine (liftCode copy operands (splitCode middle edges code)))
        n ⟨first, values, store⟩ = some state')
      (reached : Reachable (Edge (lasts code)) first state'.block) :
      ∃ m state, runs (RunState.step machine code) m ⟨first, values, store⟩ = some state ∧
        Lifted.Alike copy code first state state' ∧
          Lifted.Alike copy (splitCode middle edges code) first state state' := by
    obtain ⟨k, state, run', both⟩ := inner.backward alike run not_false
    have known : Reachable (Edge (lasts code)) first state.block := by rwa [← both.block]
    obtain ⟨m, _, run'', rfl, -⟩ := outer.backward ⟨rfl, start⟩ run' (not_not_intro known)
    exact ⟨m, _, run'', ⟨known, both.block, both.store, both.agree⟩, both⟩
  refine ⟨fun n state run => ?_, fun n state' run reached => ?_, fun answer => ⟨?_, ?_⟩⟩
  · obtain ⟨m, state', run', both, -⟩ := forward n state run
    exact ⟨m, state', run', both⟩
  · obtain ⟨m, state, run', both, -⟩ := backward n state' run reached
    exact ⟨m, state, run', both⟩
  · rintro ⟨n, state, run, answered⟩
    obtain ⟨m, state', run', old, both⟩ := forward n state run
    refine ⟨m, state', run', ?_⟩
    rw [lifted.answer_lift machine both, split.answer_split machine old.reached]
    exact answered
  · rintro ⟨n, state', run, answered⟩
    obtain ⟨k, state, run', both⟩ := inner.backward alike run not_false
    rw [lifted.answer_lift machine both] at answered
    rcases (split.reachable_iff once).mp both.reached with known | ⟨p, b, member, here⟩
    · rw [split.answer_split machine known] at answered
      obtain ⟨m, _, run'', rfl, -⟩ := outer.backward ⟨rfl, start⟩ run' (not_not_intro known)
      exact ⟨m, _, run'', answered⟩
    · rw [split.answer_of_middle member here] at answered
      cases answered

end Split

namespace Lifted

variable {blocks : List Block}

omit [DecidableEq Value] in
theorem of_blocks (new : NewValues copy code first) (ssa : StaticSingle code first)
    (once : NoTwofoldJumps code first)
    (all : ∀ b, b ∈ blocks ↔ Reachable (Edge (lasts code)) first b) :
    Lifted copy (operandsIn code blocks) code first :=
  ⟨new, ssa, once, fun operand => by rw [mem_operandsIn, all]⟩

/-- Webs have no values live together if and only if no phi is an operand of a later phi of its
block. -/
theorem coalescable_iff (lifted : Lifted copy (operandsIn code blocks) code first)
    (none : NoCriticalEdges code first) (nodup : blocks.Nodup)
    (all : ∀ b, b ∈ blocks ↔ Reachable (Edge (lasts code)) first b) :
    Coalescable (liftCode copy (operandsIn code blocks) code) first ↔
      ∀ b, Reachable (Edge (lasts code)) first b → ReadsNoEarlier (code b).phis := by
  constructor
  · intro coalescable b reached
    refine List.pairwise_iff_forall_sublist.mpr fun {p q} order read => ?_
    have ofP : p ∈ (code b).phis := order.subset List.mem_cons_self
    have ofQ : q ∈ (code b).phis := order.subset (List.mem_cons_of_mem _ List.mem_cons_self)
    obtain ⟨j, place, var⟩ := List.mem_iff_getElem.mp read
    obtain ⟨same, length⟩ := lifted.ssa.blocks b reached q ofQ
    have place' : j < q.blocks.length := length ▸ place
    have other : (⟨b, q.value, j, p.value, q.blocks[j]⟩ : Operand Block Value) ∈ operandsOf b q :=
      mem_operandsOf.mpr ⟨rfl, rfl, var ▸ List.getElem?_eq_getElem place,
        List.getElem?_eq_getElem place'⟩
    obtain ⟨comes, edge⟩ := (lifted.ssa.edge_iff reached).mp
      (same.mem_iff.mp (List.getElem_mem place'))
    obtain ⟨one, member, here, owned, pred, -⟩ := lifted.operand_of_edge comes edge ofP
    have own : one ∈ operandsOf b p := by
      obtain ⟨reached', p', inside, one'⟩ := (lifted.members one).mp member
      obtain ⟨-, owned', -⟩ := mem_operandsOf.mp one'
      rw [here] at inside one' reached'
      obtain ⟨-, rfl⟩ := lifted.ssa.phi_unique reached' reached inside ofP (owned'.symm.trans owned)
      exact one'
    have interfere := lifted.interfere_of_read
      (nodup_operandsIn nodup fun c inside => lifted.ssa.nodup_phis ((all c).mp inside))
      (operandsIn_sublist ((all b).mpr reached) order own other) pred owned.symm
    rw [owned] at interfere
    refine coalescable b reached _ (List.mem_map_of_mem ofP) p.value _ .refl
      (lifted.inWeb_of_web reached ofP own) (fun same => ?_) interfere
    exact lifted.phi_old reached ofP p.value one.index same.symm
  · intro reads b reached phi member u v web web' apart
    obtain ⟨own, inside, rfl⟩ := List.mem_map.mp member
    refine lifted.not_interfere none (pairwise_operandsIn nodup
      (fun c known => reads c ((all c).mp known)) fun c known other listed => ?_)
      (lifted.web_of_inWeb reached inside web) (lifted.web_of_inWeb reached inside web') apart
    have arrived := (all c).mp known
    exact (lifted.ssa.blocks c arrived other listed).1.nodup_iff.mpr
      (lifted.ssa.nodup_predecessors lifted.once arrived)

end Lifted

/-- Without twofold jumps, what is left of the webs is decided by the order of the phis. -/
theorem coalescable_transform_iff [Fintype Block] (new : NewBlocks middle code first)
    (new' : NewValues copy code first) (ssa : StaticSingle code first)
    (once : NoTwofoldJumps code first) :
    (NoCriticalEdges (splitAllCriticalEdges middle code first) first ∧
      SameValues copy code
        (transformToCSSA copy (splitAllCriticalEdges middle code first) first) first) ∧
      (Coalescable (transformToCSSA copy (splitAllCriticalEdges middle code first) first) first ↔
        ∀ b, Reachable (Edge (lasts code)) first b → ReadsNoEarlier (code b).phis) := by
  obtain ⟨edges, done, members⟩ := splitAllCriticalEdges_eq new ssa
  have split : Split middle edges code first := ⟨new, ssa, members⟩
  have ssa' := split.ssa_split once
  have once' := split.once_split once
  have none := split.noCriticalEdges once
  have all (b : Block) := mem_postOrder (lasts (splitCode middle edges code)) first (b := b)
  have nodup := nodup_postOrder (lasts (splitCode middle edges code)) first
  have lifted := Lifted.of_blocks (split.newValues_split once new') ssa' once' all
  rw [done, transformToCSSA, splitPhis_eq ssa' once']
  refine ⟨⟨none, split.sameValues once lifted⟩, ?_⟩
  rw [lifted.coalescable_iff none nodup all, split.reads_split once]

end Whole

section Loop

/-- A loop of one block with two phis; the second one takes `again` on the way back. -/
def exchange (again : Nat) (block : Fin 6) : OBasicBlock (Fin 6) Nat Unit :=
  match block with
  | 0 => ⟨[], [.operation 0 () [], .operation 1 () []], .jump 1, []⟩
  | 1 => ⟨[⟨2, [0, 3], [0, 1]⟩, ⟨3, [1, again], [0, 1]⟩], [], .jumpConditional true 2 1 2, [0, 1]⟩
  | 2 => ⟨[], [], .leave 3, [1]⟩
  | _ => ⟨[], [], .leave 0, []⟩

def onEdge (pred block : Fin 6) : Fin 6 :=
  if pred = 0 then 3 else if block = 1 then 4 else 5

def copyOf (v i : Nat) : Nat :=
  Nat.pair v i + 4

theorem exchange_lasts (again : Nat) : lasts (exchange again) = lasts (exchange 0) := by
  funext b
  match b with
  | 0 | 1 | 2 | 3 | 4 | 5 => rfl

theorem exchange_definitions (again : Nat) (b : Fin 6) :
    (exchange again b).definitions = (exchange 0 b).definitions := by
  match b with
  | 0 | 1 | 2 | 3 | 4 | 5 => rfl

theorem exchange_reachable {again : Nat} {b : Fin 6} :
    Reachable (Edge (lasts (exchange again))) 0 b ↔ b < 3 := by
  rw [exchange_lasts]
  have step : ∀ a c, Edge (lasts (exchange 0)) a c → a < 3 → c < 3 := by decide
  constructor
  · rintro ⟨nodes, path⟩
    induction path with
    | here => decide
    | step _ edge ih => exact step _ _ edge ih
  · have one : Reachable (Edge (lasts (exchange 0))) 0 1 := reachable_first.step (by decide)
    have two : Reachable (Edge (lasts (exchange 0))) 0 2 := one.step (by decide)
    intro below
    match b, below with
    | 0, _ => exact reachable_first
    | 1, _ => exact one
    | 2, _ => exact two

theorem exchange_new (again : Nat) : NewBlocks onEdge (exchange again) 0 where
  apart := by
    intro p b reached edge q c reached' edge'
    rw [exchange_reachable] at reached reached'
    rw [exchange_lasts] at edge edge'
    revert p b q c
    decide
  fresh := by
    intro p b
    rw [exchange_reachable]
    revert p b
    decide

theorem exchange_dominates {again : Nat} {u : Fin 6} (later : u = 1 ∨ u = 2) :
    Dominates (Edge (lasts (exchange again))) 0 1 u := by
  rcases later with rfl | rfl
  · exact Dominates.refl 1
  · refine dominates_of_edges (by decide) fun a reached edge => ?_
    rw [exchange_reachable] at reached
    rw [exchange_lasts] at edge
    have same : ∀ a : Fin 6, a < 3 → Edge (lasts (exchange 0)) a 2 → a = 1 := by decide
    rw [same a reached edge]
    exact Dominates.refl 1

/-- The phis are used behind the block that enters the loop. -/
theorem exchange_unused {again : Nat} {v : Nat} (phi : v = 2 ∨ v = 3) :
    ¬ UsedIn (exchange again) 0 v := by
  rintro (⟨instruction, member, read⟩ | read | ⟨succ, edge, own, member, carries⟩)
  · rcases List.mem_pair.mp member with rfl | rfl
    · exact List.not_mem_nil read
    · exact List.not_mem_nil read
  · exact List.not_mem_nil read
  · obtain rfl := List.mem_singleton.mp edge
    rcases List.mem_pair.mp member with rfl | rfl
    · have same : 0 = v := Except.ok.inj carries
      rcases phi with rfl | rfl <;> cases same
    · have same : 1 = v := Except.ok.inj carries
      rcases phi with rfl | rfl <;> cases same

theorem exchange_ssa (again : Nat) : StaticSingle (exchange again) 0 where
  comes b reached p member := by
    rw [exchange_reachable] at reached ⊢
    have all : ∀ b : Fin 6, b < 3 → ∀ p ∈ (exchange 0 b).predecessors, p < 3 := by decide
    match b with
    | 0 | 1 | 2 | 3 | 4 | 5 => exact all _ reached p member
  counts b reached p reached' := by
    rw [exchange_reachable] at reached reached'
    rw [exchange_lasts]
    have all : ∀ b : Fin 6, b < 3 → ∀ p : Fin 6, p < 3 → (exchange 0 b).predecessors.count p =
        (successors (lasts (exchange 0)) p).count b := by decide
    match b with
    | 0 | 1 | 2 | 3 | 4 | 5 => exact all _ reached p reached'
  blocks b reached phi member := by
    rw [exchange_reachable] at reached
    match b, reached with
    | 0, _ => exact absurd member List.not_mem_nil
    | 1, _ => rcases List.mem_pair.mp member with rfl | rfl <;> exact ⟨List.Perm.refl _, rfl⟩
    | 2, _ => exact absurd member List.not_mem_nil
  start := rfl
  distinct b reached := by
    have all : ∀ b : Fin 6, (exchange 0 b).definitions.Nodup := by decide
    rw [exchange_definitions]
    exact all b
  single b reached c reached' v member member' := by
    rw [exchange_reachable] at reached reached'
    have all : ∀ b : Fin 6, b < 3 → ∀ c : Fin 6, c < 3 → ∀ v ∈ (exchange 0 b).definitions,
        v ∈ (exchange 0 c).definitions → b = c := by decide
    rw [exchange_definitions] at member member'
    exact all b reached c reached' v member member'
  dominated b reached v member u reached' used := by
    rw [exchange_reachable] at reached reached'
    match b, reached with
    | 0, _ => exact dominates_first u
    | 1, _ =>
      have phi : v = 2 ∨ v = 3 := List.mem_pair.mp member
      match u, reached' with
      | 0, _ => exact absurd used (exchange_unused phi)
      | 1, _ => exact exchange_dominates (.inl rfl)
      | 2, _ => exact exchange_dominates (.inr rfl)
    | 2, _ => exact absurd member List.not_mem_nil

theorem exchange_values {again : Nat} (small : again < 4) :
    NewValues copyOf (exchange again) 0 where
  apart v i w j same := Nat.pair_eq_pair.mp (Nat.add_right_cancel same)
  fresh b reached v i mentions := by
    have bound (w : Nat) (mentions : (exchange again b).Mentions w) : w < 4 := by
      rw [exchange_reachable] at reached
      have defined : ∀ b : Fin 6, ∀ v ∈ (exchange 0 b).definitions, v < 4 := by decide
      rcases mentions with member | ⟨instruction, member, read⟩ | read | ⟨phi, member, read⟩
      · rw [exchange_definitions] at member
        exact defined b w member
      · match b, reached with
        | 0, _ => rcases List.mem_pair.mp member with rfl | rfl <;> cases read
        | 1, _ | 2, _ => cases member
      · match b, reached with
        | 0, _ => cases read
        | 1, _ | 2, _ =>
          rw [List.mem_singleton.mp read]
          decide
      · match b, reached with
        | 0, _ | 2, _ => cases member
        | 1, _ =>
          rcases List.mem_pair.mp member with rfl | rfl
          · rcases List.mem_pair.mp read with rfl | rfl <;> decide
          · rcases List.mem_pair.mp read with rfl | rfl
            · decide
            · exact small
    exact absurd (bound _ mentions) (Nat.not_lt.mpr (Nat.le_add_left 4 _))

theorem exchange_once (again : Nat) : NoTwofoldJumps (exchange again) 0 := by
  intro b _
  have all : ∀ b : Fin 6, (successors (lasts (exchange 0)) b).Nodup := by
    unfold successors
    decide
  rw [exchange_lasts]
  exact all b

end Loop

end Egg.Optimizing
